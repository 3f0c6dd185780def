/-
  Solenoid.Eth — the JSON-RPC client (`eth.rs`), as far as `Ext` reads a chain through it.

  Posting a body is a parameter: the response, or an error of the transport. So are
  `serde_json`'s reading of a block header, of which only the hash counts here, and what a
  node knows (`Remote`). Errors are told apart by kind; their texts are left out.
  - `remote_of_node`: through the client, a node that answers in hexadecimal is the remote
    that `Ext` works on.
-/
import Solenoid.Ext
import Solenoid.Numbers
import Solenoid.Proxy.RoundTrip
import Solenoid.Proxy.Server

namespace Solenoid.Eth

open Proxy Numeral

/-! ## Requests -/

inductive EthError where
  | transport (why : String)
  | status (code : Nat)
  /-- The node's own error, an object or a string. -/
  | rpc (error : Value)
  | missingHexStr
  | invalidU256 (hex : List Char)
  | fromHex
  | json

/-- What posting a body to the client's URL gives. -/
abbrev Http := Value → Except String Response

variable (http : Http)

def request (method : String) (params : List Value) : Value :=
  .object [("jsonrpc", .string "2.0"), ("method", .string method), ("params", .array params), ("id", .number "0")]

def isSuccess (status : Nat) : Bool := 200 ≤ status && status < 300

/-- `response["result"].clone()`: null if there is none. -/
def rpc (value : Value) : Except EthError Value :=
  match http value with
  | .error why => .error (.transport why)
  | .ok res =>
    if !isSuccess res.status then .error (.status res.status)
    else
      match res.body.get "error" with
      | some (.object fields) => .error (.rpc (.object fields))
      | some (.string error) => .error (.rpc (.string error))
      | _ => .ok ((res.body.get "result").getD .null)

/-! ## Hex -/

/-- `hex.strip_prefix("0x").unwrap_or(hex)`: once. -/
def stripPrefix0x : List Char → List Char
  | '0' :: 'x' :: rest => rest
  | s => s

/-- `U256::from_str_radix(hex, 16)`. -/
def u256FromStrRadix (s : List Char) : Option Word :=
  if s.length ≤ 64 ∧ s.all isDigit then some (BitVec.ofNat 256 (number hexValue? s)) else none

/-- `Word::from_hex`. -/
def wordFromHex (s : List Char) : Except EthError Word :=
  match u256FromStrRadix (trimStart0x s) with
  | some word => .ok word
  | none => .error (.invalidU256 (trimStart0x s))

def hexStr (val : Value) : Except EthError (List Char) :=
  match val.asStr with
  | some hex => .ok (stripPrefix0x hex.toList)
  | none => .error .missingHexStr

def hexToWord (val : Value) : Except EthError Word := do wordFromHex (← hexStr val)

def hexToVec (val : Value) : Except EthError Bytes := do
  match hexDecode? (← hexStr val) with
  | some vec => return vec
  | none => throw .fromHex

/-! ## The methods -/

/-- The parameter that pins a block. -/
def atBlock (blockHash : String) : Value := .object [("blockHash", .string blockHash)]

def getStorageAt (blockHash address key : String) : Except EthError Word := do
  hexToWord (← rpc http (request "eth_getStorageAt" [.string address, .string key, atBlock blockHash]))

def getCode (blockHash address : String) : Except EthError Bytes := do
  hexToVec (← rpc http (request "eth_getCode" [.string address, atBlock blockHash]))

def getBalance (blockHash address : String) : Except EthError Word := do
  hexToWord (← rpc http (request "eth_getBalance" [.string address, atBlock blockHash]))

def getNonce (blockHash address : String) : Except EthError Word := do
  hexToWord (← rpc http (request "eth_getTransactionCount" [.string address, atBlock blockHash]))

/-- The digits of a word, at least one. -/
def lowerHex (w : Word) : List Char :=
  let digits := (hexEncode w.intoBytes).dropWhile (· = '0')
  if digits = [] then ['0'] else digits

/-- A word in JSON. -/
def wordText (w : Word) : String := .ofList ('0' :: 'x' :: lowerHex w)

/-- A block is asked for with its transactions. -/
def blockRequest (number : Value) (full : Bool) : Value := request "eth_getBlockByNumber" [number, .bool full]

/-- `headerHash` reads a header, and its hash. -/
def getBlockHeader (headerHash : Value → Option Word) (number : Word) : Except EthError Word := do
  match headerHash (← rpc http (blockRequest (.string (wordText number)) true)) with
  | some hash => return hash
  | none => throw .json

/-! ## What `Ext` reads -/

/-- `format!("0x{}", hex::encode(addr.0))`. -/
def addressText (addr : Address) : String := .ofList ('0' :: 'x' :: hexEncode addr.intoBytes)

/-- `format!("{key:#064x}")`: the width counts the prefix. -/
def keyText (key : Word) : String := .ofList ('0' :: 'x' :: padLeft 62 (lowerHex key))

/-- The remote of an `Ext` at a block, by the client; a failed request is no answer. -/
def remote (headerHash : Value → Option Word) (blockHash : String) : Remote where
  balance addr := (getBalance http blockHash (addressText addr)).toOption
  nonce addr := (getNonce http blockHash (addressText addr)).toOption
  code addr := (getCode http blockHash (addressText addr)).toOption
  storage addr key := (getStorageAt http blockHash (addressText addr) (keyText key)).toOption
  blockHash number := (getBlockHeader http headerHash number).toOption

/-! ## What a text denotes -/

/-- At most 64 digits behind one prefix. -/
def Denotes (s : String) (w : Word) : Prop :=
  ∃ ds : List Char, s.toList = '0' :: 'x' :: ds ∧ ds.all isDigit ∧ ds.length ≤ 64 ∧ number hexValue? ds = w.toNat

/-- A word without zeros in front. -/
def DenotesQuantity (s : String) (w : Word) : Prop :=
  Denotes s w ∧ ∃ ds : List Char, s.toList = '0' :: 'x' :: ds ∧ ds ≠ [] ∧ (ds.head? = some '0' → ds = ['0'])

/-- Two digits for each byte behind one prefix. -/
def DenotesBytes (s : String) (b : Bytes) : Prop :=
  ∃ ds : List Char, s.toList = '0' :: 'x' :: ds ∧ ds.all isDigit ∧ ds.length = 2 * b.length ∧
    number hexValue? ds = natOfBytes b

theorem digit_hexDigit {n : UInt8} (h : n < 16) : hexValue? (hexDigit n) = some n := by
  have hall : ∀ k < 16, hexValue? (hexDigit (UInt8.ofNat k)) = some (UInt8.ofNat k) := by decide
  have hn := hall n.toNat h
  rwa [UInt8.ofNat_toNat] at hn

theorem high_lt (x : UInt8) : x / 16 < 16 := by
  have hx := x.toNat_lt
  rw [UInt8.lt_iff_toNat_lt, UInt8.toNat_div]
  show x.toNat / 16 < 16
  omega

theorem low_lt (x : UInt8) : x % 16 < 16 := by
  rw [UInt8.lt_iff_toNat_lt, UInt8.toNat_mod]
  exact Nat.mod_lt _ (by decide)

theorem all_hexEncode (b : Bytes) : (hexEncode b).all isDigit := by
  rw [List.all_eq_true]
  intro c hc
  obtain ⟨byte, -, hc⟩ := List.mem_flatMap.1 hc
  rcases List.mem_cons.1 hc with rfl | hc
  · rw [isDigit, digit_hexDigit (high_lt byte)]
    rfl
  · obtain rfl := List.mem_singleton.1 hc
    rw [isDigit, digit_hexDigit (low_lt byte)]
    rfl

theorem length_hexEncode (b : Bytes) : (hexEncode b).length = 2 * b.length := by
  induction b with
  | nil => rfl
  | cons x b ih =>
    show (hexEncode b).length + 1 + 1 = _
    rw [ih, List.length_cons]
    omega

theorem number_hexEncode (b : Bytes) : number hexValue? (hexEncode b) = natOfBytes b := by
  induction b using List.reverseRecOn with
  | nil => rfl
  | append_singleton b x ih =>
    have hhigh : digit hexValue? (hexDigit (x / 16)) = x.toNat / 16 := by
      rw [digit, digit_hexDigit (high_lt x), Option.getD_some, UInt8.toNat_div]
      rfl
    have hlow : digit hexValue? (hexDigit (x % 16)) = x.toNat % 16 := by
      rw [digit, digit_hexDigit (low_lt x), Option.getD_some, UInt8.toNat_mod]
      rfl
    have happend : hexEncode (b ++ [x]) = hexEncode b ++ [hexDigit (x / 16), hexDigit (x % 16)] := by simp [hexEncode]
    rw [natOfBytes_concat, happend, ← ih, number_append, number_cons, number_cons, hhigh, hlow]
    show number hexValue? (hexEncode b) * 16 ^ 2 + (x.toNat / 16 * 16 ^ 1 + (x.toNat % 16 * 16 ^ 0 + 0)) =
      number hexValue? (hexEncode b) * 256 + x.toNat
    omega

theorem natOfBytes_cons_lt (x : UInt8) (b : Bytes) :
    natOfBytes (x :: b) = x.toNat * 16 ^ (2 * b.length) + natOfBytes b ∧ natOfBytes b < 16 ^ (2 * b.length) := by
  have hpow : 256 ^ b.length = 16 ^ (2 * b.length) := by rw [Nat.pow_mul]
  refine ⟨?_, ?_⟩
  · have happend := natOfBytes_append [x] b
    rw [hpow] at happend
    simpa [natOfBytes] using happend
  · have hlt := number_lt hexValue_lt (hexEncode b)
    rwa [number_hexEncode, length_hexEncode] at hlt

/-- `hex::decode` reads what has two digits for each byte. -/
theorem hexDecode_of_number {b : Bytes} : ∀ {ds : List Char}, ds.all isDigit → ds.length = 2 * b.length →
    number hexValue? ds = natOfBytes b → hexDecode? ds = some b := by
  induction b with
  | nil =>
    intro ds _ hlen _
    obtain rfl := List.eq_nil_of_length_eq_zero hlen
    rfl
  | cons x b ih =>
    intro ds hds hlen hnumber
    obtain ⟨hi, lo, rest, rfl, hrest⟩ := two_of_length (n := b.length) hlen
    simp only [List.all_cons, Bool.and_eq_true] at hds
    obtain ⟨u, hu⟩ := Option.isSome_iff_exists.1 hds.1
    obtain ⟨v, hv⟩ := Option.isSome_iff_exists.1 hds.2.1
    have hu16 : u.toNat < 16 := hexValue_lt hi u hu
    have hv16 : v.toNat < 16 := hexValue_lt lo v hv
    obtain ⟨hcons, hlt⟩ := natOfBytes_cons_lt x b
    have hrestlt := number_lt hexValue_lt rest
    rw [hrest] at hrestlt
    -- the two digits are the quotient, the rest the remainder
    have hsplit : number hexValue? (hi :: lo :: rest) =
        (u.toNat * 16 + v.toNat) * 16 ^ (2 * b.length) + number hexValue? rest := by
      rw [number_cons, number_cons, List.length_cons, hrest, digit, hu, digit, hv, Option.getD_some,
        Option.getD_some, pow_succ]
      ring
    rw [hsplit, hcons] at hnumber
    have hdiv : ∀ {m : Nat} (n : Nat), m < 16 ^ (2 * b.length) →
      (n * 16 ^ (2 * b.length) + m) / 16 ^ (2 * b.length) = n := by
      intro m n hm
      rw [Nat.add_comm, Nat.add_mul_div_right _ _ (Nat.pow_pos (by decide)), Nat.div_eq_of_lt hm, Nat.zero_add]
    have hquot : u.toNat * 16 + v.toNat = x.toNat := by
      rw [← hdiv (u.toNat * 16 + v.toNat) hrestlt, hnumber, hdiv _ hlt]
    have hrem : number hexValue? rest = natOfBytes b := by
      rw [hquot] at hnumber
      exact Nat.add_left_cancel hnumber
    have hbyte : u * 16 + v = x := by
      apply UInt8.toNat_inj.1
      rw [UInt8.toNat_add, UInt8.toNat_mul, show (16 : UInt8).toNat = 16 from rfl]
      have hx := x.toNat_lt
      omega
    rw [hexDecode?, hu, hv, ih hds.2.2 hrest hrem]
    simp [hbyte]

/-! ## What the client sends -/

theorem toList_prefixed (ds : List Char) : (String.ofList ('0' :: 'x' :: ds)).toList = '0' :: 'x' :: ds :=
  String.toList_ofList

theorem toNat_intoBytes (w : Word) : natOfBytes w.intoBytes = w.toNat :=
  natOfBytes_natToBytes (Nat.lt_of_lt_of_eq w.isLt (by decide))

theorem digit_zero : ∀ c : Char, decide (c = '0') = true → digit hexValue? c = 0 := by
  intro c hc
  rw [of_decide_eq_true hc]
  rfl

/-- The digits of a word, without zeros in front. -/
theorem lowerHex_digits (w : Word) : (lowerHex w).all isDigit ∧ (lowerHex w).length ≤ 64 ∧
    number hexValue? (lowerHex w) = w.toNat ∧ lowerHex w ≠ [] ∧ ((lowerHex w).head? = some '0' → lowerHex w = ['0']) := by
  have hnumber : number hexValue? ((hexEncode w.intoBytes).dropWhile (· = '0')) = w.toNat := by
    rw [number_dropWhile _ digit_zero, number_hexEncode, toNat_intoBytes]
  have hall : ((hexEncode w.intoBytes).dropWhile (· = '0')).all isDigit := by
    rw [List.all_eq_true]
    exact fun c hc => List.all_eq_true.1 (all_hexEncode _) c ((List.dropWhile_sublist _).subset hc)
  have hlen : ((hexEncode w.intoBytes).dropWhile (· = '0')).length ≤ 64 := by
    refine (List.dropWhile_sublist _).length_le.trans ?_
    rw [length_hexEncode, Word.intoBytes, natToBytes_length]
  have heq : lowerHex w = if (hexEncode w.intoBytes).dropWhile (· = '0') = [] then ['0']
      else (hexEncode w.intoBytes).dropWhile (· = '0') := rfl
  rw [heq]
  split
  · next hnil =>
    rw [hnil] at hnumber
    exact ⟨rfl, by decide, hnumber, List.cons_ne_nil _ _, fun _ => rfl⟩
  · next hne =>
    refine ⟨hall, hlen, hnumber, hne, fun hhead => ?_⟩
    have hfirst := List.head?_dropWhile_not (fun c => decide (c = '0')) (hexEncode w.intoBytes)
    rw [hhead] at hfirst
    simp at hfirst

theorem denotes_wordText (w : Word) : DenotesQuantity (wordText w) w := by
  obtain ⟨hall, hlen, hnumber, hne, hhead⟩ := lowerHex_digits w
  exact ⟨⟨_, toList_prefixed _, hall, hlen, hnumber⟩, _, toList_prefixed _, hne, hhead⟩

/-- The key has 62 digits at least; the prefix counts for the width. -/
theorem denotes_keyText (key : Word) : Denotes (keyText key) key := by
  obtain ⟨hall, hlen, hnumber, -, -⟩ := lowerHex_digits key
  refine ⟨_, toList_prefixed _, all_padLeft hall, ?_, ?_⟩
  · rw [padLeft, List.length_append, List.length_replicate]
    omega
  · rw [padLeft, number_replicate_append rfl, hnumber]

theorem denotes_addressText (addr : Address) : DenotesBytes (addressText addr) addr.intoBytes :=
  ⟨_, toList_prefixed _, all_hexEncode _, length_hexEncode _, number_hexEncode _⟩

/-! ## What the client reads -/

variable {http}

theorem hexStr_string {s : String} {ds : List Char} (h : s.toList = '0' :: 'x' :: ds) : hexStr (.string s) = .ok ds := by
  show Except.ok (stripPrefix0x s.toList) = _
  rw [h]
  rfl

theorem hexToWord_of_denotes {s : String} {w : Word} (h : Denotes s w) : hexToWord (.string s) = .ok w := by
  obtain ⟨ds, hs, hds, hlen, hnumber⟩ := h
  unfold hexToWord
  rw [hexStr_string hs]
  show wordFromHex ds = _
  rw [wordFromHex, trimStart0x_digits hds, u256FromStrRadix, if_pos ⟨hlen, hds⟩, hnumber,
    BitVec.ofNat_toNat, BitVec.setWidth_eq]

theorem hexToVec_of_denotes {s : String} {b : Bytes} (h : DenotesBytes s b) : hexToVec (.string s) = .ok b := by
  obtain ⟨ds, hs, hds, hlen, hnumber⟩ := h
  unfold hexToVec
  rw [hexStr_string hs]
  simp only [bind, Except.bind, hexDecode_of_number hds hlen hnumber]
  rfl

/-- The response to a body: a result in `shows`, or a failure. -/
def Responds {α : Type} (http : Http) (body : Value) (a : Option α) (shows : α → Value → Prop) : Prop :=
  match a with
  | some a => ∃ v id, http body = .ok ⟨200, ({ result := some v } : Reply).toBody id⟩ ∧ shows a v
  | none => (∃ why, http body = .error why) ∨ (∃ res, http body = .ok res ∧ isSuccess res.status = false) ∨
      ∃ fields id, http body = .ok ⟨200, ({ error := some (.object fields) } : Reply).toBody id⟩

/-- A JSON string that is a text in `denotes`. -/
def Shows {α : Type} (denotes : String → α → Prop) (a : α) (v : Value) : Prop := ∃ s, v = .string s ∧ denotes s a

/-- A node that knows `ρ` at the block: it reads its parameters as hexadecimal, and answers in
    hexadecimal. -/
structure Serves (http : Http) (headerHash : Value → Option Word) (blockHash : String) (ρ : Remote) : Prop where
  balance : ∀ addr s, DenotesBytes s (Address.intoBytes addr) →
    Responds http (request "eth_getBalance" [.string s, atBlock blockHash]) (ρ.balance addr) (Shows Denotes)
  nonce : ∀ addr s, DenotesBytes s (Address.intoBytes addr) →
    Responds http (request "eth_getTransactionCount" [.string s, atBlock blockHash]) (ρ.nonce addr) (Shows Denotes)
  code : ∀ addr s, DenotesBytes s (Address.intoBytes addr) →
    Responds http (request "eth_getCode" [.string s, atBlock blockHash]) (ρ.code addr) (Shows DenotesBytes)
  storage : ∀ addr key s t, DenotesBytes s (Address.intoBytes addr) → Denotes t key →
    Responds http (request "eth_getStorageAt" [.string s, .string t, atBlock blockHash]) (ρ.storage addr key)
      (Shows Denotes)
  header : ∀ number t, DenotesQuantity t number →
    Responds http (blockRequest (.string t) true) (ρ.blockHash number) fun hash v => headerHash v = some hash

/-- What the client makes of a response. -/
theorem rpc_of_responds {α : Type} {body : Value} {a : Option α} {shows : α → Value → Prop}
    {read : Value → Except EthError α}
    (h : Responds http body a shows) (hread : ∀ a v, shows a v → read v = .ok a) :
    (do read (← rpc http body) : Except EthError α).toOption = a := by
  unfold Responds at h
  split at h
  · obtain ⟨v, id, hhttp, hshows⟩ := h
    have hrpc : rpc http body = .ok v := by
      rw [rpc, hhttp]
      rfl
    rw [hrpc]
    show (read v).toOption = _
    rw [hread _ _ hshows]
    rfl
  · obtain ⟨e, hrpc⟩ : ∃ e, rpc http body = .error e := by
      rcases h with ⟨why, hhttp⟩ | ⟨res, hhttp, hstatus⟩ | ⟨fields, id, hhttp⟩
      · exact ⟨.transport why, by rw [rpc, hhttp]⟩
      · exact ⟨.status res.status, by rw [rpc, hhttp]; simp only [hstatus, Bool.not_false, if_true]⟩
      · refine ⟨.rpc (.object fields), ?_⟩
        rw [rpc, hhttp]
        rfl
    rw [hrpc]
    rfl

/-- Through the client, a node that knows `ρ` is the remote `ρ`: every account, slot and block
    hash that `Ext` asks for, with every failure. -/
theorem remote_of_node {headerHash : Value → Option Word} {blockHash : String} {ρ : Remote}
    (h : Serves http headerHash blockHash ρ) : remote http headerHash blockHash = ρ := by
  have hword : ∀ w v, Shows Denotes w v → hexToWord v = .ok w := by
    rintro w _ ⟨s, rfl, hs⟩
    exact hexToWord_of_denotes hs
  have hbytes : ∀ b v, Shows DenotesBytes b v → hexToVec v = .ok b := by
    rintro b _ ⟨s, rfl, hs⟩
    exact hexToVec_of_denotes hs
  obtain ⟨balance, nonce, code, storage, hash⟩ := ρ
  unfold remote
  congr 1
  · exact funext fun addr => rpc_of_responds (h.balance addr _ (denotes_addressText addr)) hword
  · exact funext fun addr => rpc_of_responds (h.nonce addr _ (denotes_addressText addr)) hword
  · exact funext fun addr => rpc_of_responds (h.code addr _ (denotes_addressText addr)) hbytes
  · exact funext fun addr => funext fun key =>
      rpc_of_responds (h.storage addr key _ _ (denotes_addressText addr) (denotes_keyText key)) hword
  · refine funext fun number => rpc_of_responds (h.header number _ (denotes_wordText number)) fun hash v hv => ?_
    rw [hv]
    rfl

namespace Alike

/-- All accounts of this chain are alike. -/
def known : Remote where
  balance _ := some 5
  nonce _ := some 1
  code _ := some [0x60, 0x00]
  storage _ _ := some 7
  blockHash _ := none

def reply (result : String) : Except String Response :=
  .ok ⟨200, ({ result := some (.string result) } : Reply).toBody (.number "0")⟩

/-- Its node, which has no headers. -/
def node : Http := fun body =>
  match (body.get "method").bind Value.asStr with
  | some "eth_getBalance" => reply "0x5"
  | some "eth_getTransactionCount" => reply "0x01"
  | some "eth_getCode" => reply "0x6000"
  | some "eth_getStorageAt" => reply "0x0000000000000000000000000000000000000000000000000000000000000007"
  | _ => .ok ⟨503, .null⟩

end Alike

open Alike in
theorem remote_of_node_alike : remote node (fun _ => none) "0xab" = known :=
  remote_of_node
    { balance := fun _ _ _ => ⟨_, _, rfl, _, rfl, _, rfl, by decide, by decide, by decide⟩
      nonce := fun _ _ _ => ⟨_, _, rfl, _, rfl, _, rfl, by decide, by decide, by decide⟩
      code := fun _ _ _ => ⟨_, _, rfl, _, rfl, _, rfl, by decide, by decide, by decide⟩
      storage := fun _ _ _ _ _ _ => ⟨_, _, rfl, _, rfl, _, rfl, by decide, by decide, by decide⟩
      header := fun _ _ _ => .inr (.inl ⟨_, rfl, rfl⟩) }

end Solenoid.Eth
