/-
  Solenoid.Proxy.RoundTrip — the values of the cache are the strings that were put.

  A quantity is stored as its bytes and written again without the zeros in front, a word of
  storage as its 32 bytes and written again in full; both codecs give back a string in their
  canonical form. With the keys of plain requests kept apart, a history of puts is a map.
  - `cache_round_trip`: after any history of puts a get returns the string last put for that
    address, slot and block, numerically the same, and nothing if there was none.
-/
import Solenoid.Proxy.Keys

namespace Solenoid.Proxy

open Numeral

/-! ## Strings -/

/-- A digit, not a capital. -/
def isLower (c : Char) : Bool := isDigit c && c.toLower == c

/-- `0x0`, or digits after `0x` of which the first is not zero. -/
def IsQuantity (v : String) : Prop :=
  ∃ ds : List Char, v.toList = '0' :: 'x' :: ds ∧ ds.all isLower ∧ ds ≠ [] ∧ (ds.head? = some '0' → ds = ['0'])

/-- 64 digits after `0x`. -/
def IsData32 (v : String) : Prop := ∃ ds : List Char, v.toList = '0' :: 'x' :: ds ∧ ds.all isLower ∧ ds.length = 64

/-- An address: 40 digits. -/
def IsAddress (s : String) : Prop := isHex s ∧ (body s).length = 40

def IsSlot (s : String) : Prop := isHex s ∧ 1 ≤ (body s).length ∧ (body s).length ≤ 64

def IsBlock (s : String) : Prop := isHex s ∧ 1 ≤ (body s).length ∧ (body s).length ≤ 16

/-! ## Codecs -/

theorem isLower_value {c : Char} (h : isLower c) : ∃ v, hexValue? c = some v ∧ v < 16 ∧ hexDigit v = c := by
  simp only [isLower, Bool.and_eq_true, beq_iff_eq] at h
  obtain ⟨v, hv⟩ := Option.isSome_iff_exists.1 h.1
  refine ⟨v, hv, hexValue_lt c v hv, ?_⟩
  have hlower := toLower_digit h.1
  rwa [h.2, digit, hv, Option.getD_some, UInt8.ofNat_toNat, eq_comm] at hlower

theorem all_isDigit {ds : List Char} (h : ds.all isLower) : ds.all isDigit :=
  List.all_eq_true.2 fun c hc => (Bool.and_eq_true_iff.1 (List.all_eq_true.1 h c hc)).1

/-- The halves of a byte. -/
theorem byte_halves {a b : UInt8} (ha : a < 16) (hb : b < 16) : (a * 16 + b) / 16 = a ∧ (a * 16 + b) % 16 = b := by
  have ha : a.toNat < 16 := ha
  have hb : b.toNat < 16 := hb
  have hsum : (a * 16 + b).toNat = a.toNat * 16 + b.toNat := by
    rw [UInt8.toNat_add, UInt8.toNat_mul, show (16 : UInt8).toNat = 16 from rfl]
    omega
  constructor <;> apply UInt8.toNat_inj.1
  · rw [UInt8.toNat_div, hsum, show (16 : UInt8).toNat = 16 from rfl]
    omega
  · rw [UInt8.toNat_mod, hsum, show (16 : UInt8).toNat = 16 from rfl]
    omega

theorem two_of_length {ds : List Char} {n : Nat} (hlen : ds.length = 2 * (n + 1)) :
    ∃ hi lo rest, ds = hi :: lo :: rest ∧ rest.length = 2 * n := by
  match ds, hlen with
  | hi :: lo :: rest, hlen =>
    refine ⟨hi, lo, rest, rfl, ?_⟩
    simp only [List.length_cons] at hlen
    omega

/-- Digits are written as they were read. -/
theorem hexEncode_decodeToSlice {n : Nat} {ds : List Char} (h : ds.all isLower) (hlen : ds.length = 2 * n) :
    hexEncode (decodeToSlice n ds) = ds := by
  induction n generalizing ds with
  | zero =>
    obtain rfl := List.eq_nil_of_length_eq_zero hlen
    rfl
  | succ n ih =>
    obtain ⟨hi, lo, rest, rfl, hrest⟩ := two_of_length hlen
    simp only [List.all_cons, Bool.and_eq_true] at h
    obtain ⟨a, ha, ha16, hahi⟩ := isLower_value h.1
    obtain ⟨b, hb, hb16, hblo⟩ := isLower_value h.2.1
    obtain ⟨hdiv, hmod⟩ := byte_halves ha16 hb16
    have hread : decodeToSlice (n + 1) (hi :: lo :: rest) = (a * 16 + b) :: decodeToSlice n rest := by
      rw [decodeToSlice, ha, hb]
    have hwrite : hexEncode ((a * 16 + b) :: decodeToSlice n rest) =
        hexDigit ((a * 16 + b) / 16) :: hexDigit ((a * 16 + b) % 16) :: hexEncode (decodeToSlice n rest) := rfl
    rw [hread, hwrite, hdiv, hmod, hahi, hblo, ih h.2.2 hrest]

/-- `hex::decode` reads what `hex::decode_to_slice` does. -/
theorem hexDecode_eq {n : Nat} {ds : List Char} (h : ds.all isDigit) (hlen : ds.length = 2 * n) :
    hexDecode? ds = some (decodeToSlice n ds) := by
  induction n generalizing ds with
  | zero =>
    obtain rfl := List.eq_nil_of_length_eq_zero hlen
    rfl
  | succ n ih =>
    obtain ⟨hi, lo, rest, rfl, hrest⟩ := two_of_length hlen
    simp only [List.all_cons, Bool.and_eq_true] at h
    obtain ⟨a, ha⟩ := Option.isSome_iff_exists.1 h.1
    obtain ⟨b, hb⟩ := Option.isSome_iff_exists.1 h.2.1
    rw [hexDecode?, ha, hb, ih h.2.2 hrest, decodeToSlice, ha, hb]
    rfl

theorem body_prefixed {v : String} {ds : List Char} (h : v.toList = '0' :: 'x' :: ds) : body v = ds := by
  unfold body
  rw [h]
  rfl

theorem ofList_eq {v : String} {ds : List Char} (h : v.toList = '0' :: 'x' :: ds) :
    String.ofList ('0' :: 'x' :: ds) = v := by
  rw [← h, String.ofList_toList]

/-- A word of storage is read as it was put. -/
theorem data32_round_trip {v : String} (h : IsData32 v) : (pad32 v).map encodeData32 = some v := by
  obtain ⟨ds, hv, hds, hlen⟩ := h
  have hbody := body_prefixed hv
  have hhex : isHex v := by
    rw [isHex, hbody]
    exact all_isDigit hds
  have hcut : cut 32 v = ds := by
    rw [cut_of_fits hhex (by rw [hbody, hlen]), hbody, hlen]
    rfl
  rw [pad32, decodeHexPadded_eq (cuttable_of_isHex hhex), hcut, Option.map_some, encodeData32,
    hexEncode_decodeToSlice hds hlen, padLeft, hlen]
  exact congrArg some (ofList_eq hv)

/-- A quantity is read as it was put. -/
theorem quantity_round_trip {v : String} (h : IsQuantity v) : encodeQuantity (decodeHexCompact v) = v := by
  obtain ⟨ds, hv, hds, hsome, hfirst⟩ := h
  have hbody := body_prefixed hv
  have hhex : isHex v := by
    rw [isHex, hbody]
    exact all_isDigit hds
  have hclean : clean v = ds := (clean_of_isHex hhex).trans hbody
  -- the text that is decoded, and its zeros in front
  obtain ⟨text, htext⟩ : ∃ text, text = if ds.length % 2 ≠ 0 then '0' :: ds else ds := ⟨_, rfl⟩
  have hall : text.all isLower := by
    rw [htext]
    split
    · rw [List.all_cons, hds]
      rfl
    · exact hds
  have heven : text.length = 2 * (text.length / 2) := by
    rw [htext]
    split
    · rw [List.length_cons]
      omega
    · omega
  have hdrop : text.dropWhile (· = '0') = if ds = ['0'] then [] else ds := by
    by_cases hzero : ds = ['0']
    · rw [if_pos hzero, htext, hzero]
      rfl
    · have hstart : ds.dropWhile (· = '0') = ds := by
        cases ds with
        | nil => rfl
        | cons c rest => exact List.dropWhile_cons_of_neg (by simpa using fun hc => hzero (hfirst (congrArg some hc)))
      rw [if_neg hzero, htext]
      split
      · rw [List.dropWhile_cons_of_pos (by simp), hstart]
      · exact hstart
  rw [decodeHexCompact, hclean, if_neg hsome, ← htext, hexDecode_eq (all_isDigit hall) heven, Option.getD_some,
    encodeQuantity, hexEncode_decodeToSlice hall heven, hdrop]
  by_cases hzero : ds = ['0']
  · rw [if_pos hzero]
    rw [hzero] at hv
    exact ofList_eq hv
  · rw [if_neg hzero, if_neg hsome]
    exact ofList_eq hv

/-! ## Histories -/

/-- One of the calls that put a value. -/
inductive Put where
  | balance (address block value : String)
  | txCount (address block value : String)
  | storageAt (address slot block value : String)

def Put.apply [Lowercase] (c : Cache) : Put → Option Cache
  | .balance address block value => c.putBalance address block value
  | .txCount address block value => c.putTxCount address block value
  | .storageAt address slot block value => c.putStorageAt address slot block value

/-- Well-formed parameters, and a value in its canonical form. -/
def Put.WellFormed : Put → Prop
  | .balance address block value | .txCount address block value => IsAddress address ∧ IsBlock block ∧ IsQuantity value
  | .storageAt address slot block value => IsAddress address ∧ IsSlot slot ∧ IsBlock block ∧ IsData32 value

/-- The value of a put for that address and block. -/
def Put.balanceOf (address block : String) : Put → Option String
  | .balance a b value => if hexNumber a = hexNumber address ∧ hexNumber b = hexNumber block then some value else none
  | _ => none

def Put.txCountOf (address block : String) : Put → Option String
  | .txCount a b value => if hexNumber a = hexNumber address ∧ hexNumber b = hexNumber block then some value else none
  | _ => none

def Put.storageOf (address slot block : String) : Put → Option String
  | .storageAt a s b value =>
    if hexNumber a = hexNumber address ∧ hexNumber s = hexNumber slot ∧
      hexNumber b = hexNumber block then some value else none
  | _ => none

/-- The last of the values that were put. -/
def lastPut (value? : Put → Option String) (history : List Put) : Option String := (history.filterMap value?).getLast?

/-- The key of well-formed parameters. -/
theorem addressBlockKey_eq {a b : String} (ha : IsAddress a) (hb : IsBlock b) :
    addressBlockKey a b = some (decodeToSlice 20 (cut 20 a) ++ decodeToSlice 8 (cut 8 b)) :=
  pair_eq_some.2 ⟨⟨cuttable_of_isHex ha.1, cuttable_of_isHex hb.1⟩, rfl⟩

theorem storageKey_eq {s b : String} (hs : IsSlot s) (hb : IsBlock b) :
    storageKey s b = some (decodeToSlice 32 (cut 32 s) ++ decodeToSlice 8 (cut 8 b)) :=
  pair_eq_some.2 ⟨⟨cuttable_of_isHex hs.1, cuttable_of_isHex hb.1⟩, rfl⟩

theorem addressBlockKey_inj {a b a' b' : String} {key key' : Bytes} (ha : IsAddress a) (hb : IsBlock b) (ha' : IsAddress a')
    (hb' : IsBlock b') (hkey : addressBlockKey a b = some key) (hkey' : addressBlockKey a' b' = some key') :
    key = key' ↔ hexNumber a = hexNumber a' ∧ hexNumber b = hexNumber b' := by
  rw [addressBlockKey_eq ha hb, Option.some.injEq] at hkey
  rw [addressBlockKey_eq ha' hb', Option.some.injEq] at hkey'
  rw [← hkey, ← hkey', pair_inj, differs_iff ha.1 ha'.1 ha.2.le ha'.2.le, differs_iff hb.1 hb'.1 hb.2.2 hb'.2.2, not_not,
    not_not]

theorem storageKey_inj {s b s' b' : String} {key key' : Bytes} (hs : IsSlot s) (hb : IsBlock b) (hs' : IsSlot s')
    (hb' : IsBlock b') (hkey : storageKey s b = some key) (hkey' : storageKey s' b' = some key') :
    key = key' ↔ hexNumber s = hexNumber s' ∧ hexNumber b = hexNumber b' := by
  rw [storageKey_eq hs hb, Option.some.injEq] at hkey
  rw [storageKey_eq hs' hb', Option.some.injEq] at hkey'
  rw [← hkey, ← hkey', pair_inj, differs_iff hs.1 hs'.1 hs.2.2 hs'.2.2, differs_iff hb.1 hb'.1 hb.2.2 hb'.2.2, not_not,
    not_not]

/-- A put is found by the gets of its own key. -/
theorem insert_map {κ : Type} [DecidableEq κ] {store : Store κ Bytes} {k k' : κ} {b : Bytes} {encode : Bytes → String}
    {value : String} (hvalue : encode b = value) :
    (store.insert k b k').map encode = (if k = k' then some value else none).or ((store k').map encode) := by
  by_cases h : k = k'
  · rw [if_pos h, ← h, insert_self, Option.map_some, hvalue]
    rfl
  · rw [if_neg h, insert_ne (Ne.symm h), Option.none_or]

section

variable [Lowercase]

/-- What one put does to what is read, all puts do, by induction on the history. -/
theorem read_history (read : Cache → Option String) (value? : Put → Option String) {ok : Put → Prop}
    (hstep : ∀ p c c', ok p → p.apply c = some c' → read c' = (value? p).or (read c)) (history : List Put)
    (hok : ∀ p ∈ history, ok p) {c c' : Cache} (hrun : history.foldlM Put.apply c = some c') :
    read c' = (lastPut value? history).or (read c) := by
  induction history generalizing c with
  | nil =>
    cases hrun
    rfl
  | cons p history ih =>
    obtain ⟨d, hput, hrest⟩ := Option.bind_eq_some_iff.1 hrun
    rw [ih (fun q hq => hok q (List.mem_cons_of_mem p hq)) hrest, hstep p c d (hok p List.mem_cons_self) hput]
    unfold lastPut
    cases hp : value? p with
    | none => rw [List.filterMap_cons_none hp, Option.none_or]
    | some v =>
      rw [List.filterMap_cons_some hp, List.getLast?_cons]
      cases (history.filterMap value?).getLast? <;> rfl

/-- No put with well-formed parameters panics. -/
theorem exists_apply {p : Put} (hp : p.WellFormed) (c : Cache) : ∃ c', p.apply c = some c' := by
  cases p with
  | balance a b value => exact ⟨_, by rw [Put.apply, Cache.putBalance, addressBlockKey_eq hp.1 hp.2.1]; rfl⟩
  | txCount a b value => exact ⟨_, by rw [Put.apply, Cache.putTxCount, addressBlockKey_eq hp.1 hp.2.1]; rfl⟩
  | storageAt a s b value =>
    obtain ⟨word, hword, -⟩ := Option.map_eq_some_iff.1 (data32_round_trip hp.2.2.2)
    exact ⟨_, by rw [Put.apply, Cache.putStorageAt, storageKey_eq hp.2.1 hp.2.2.1, hword]; rfl⟩

theorem exists_history {history : List Put} (hok : ∀ p ∈ history, p.WellFormed) (c : Cache) :
    ∃ c', history.foldlM Put.apply c = some c' := by
  induction history generalizing c with
  | nil => exact ⟨c, rfl⟩
  | cons p history ih =>
    obtain ⟨d, hput⟩ := exists_apply (hok p List.mem_cons_self) c
    obtain ⟨c', hrest⟩ := ih (fun q hq => hok q (List.mem_cons_of_mem p hq)) d
    exact ⟨c', Option.bind_eq_some_iff.2 ⟨d, hput, hrest⟩⟩

section

variable {address slot block : String} {key : Bytes} {p : Put} {c c' : Cache} (ha : IsAddress address) (hb : IsBlock block)
  (hp : p.WellFormed) (hput : p.apply c = some c')

include ha hb hp hput

theorem balance_apply (hkey : addressBlockKey address block = some key) :
    (c'.balance key).map encodeQuantity = (p.balanceOf address block).or ((c.balance key).map encodeQuantity) := by
  cases p with
  | balance a b value =>
    obtain ⟨key', hkey', rfl⟩ := putBalance_eq hput
    simp only [Put.balanceOf, ← addressBlockKey_inj hp.1 hp.2.1 ha hb hkey' hkey]
    exact insert_map (quantity_round_trip hp.2.2)
  | txCount a b value =>
    obtain ⟨_, -, rfl⟩ := putTxCount_eq hput
    exact (Option.none_or).symm
  | storageAt a s b value =>
    obtain ⟨_, _, -, -, rfl⟩ := putStorageAt_eq hput
    exact (Option.none_or).symm

theorem nonce_apply (hkey : addressBlockKey address block = some key) :
    (c'.nonce key).map encodeQuantity = (p.txCountOf address block).or ((c.nonce key).map encodeQuantity) := by
  cases p with
  | balance a b value =>
    obtain ⟨_, -, rfl⟩ := putBalance_eq hput
    exact (Option.none_or).symm
  | txCount a b value =>
    obtain ⟨key', hkey', rfl⟩ := putTxCount_eq hput
    simp only [Put.txCountOf, ← addressBlockKey_inj hp.1 hp.2.1 ha hb hkey' hkey]
    exact insert_map (quantity_round_trip hp.2.2)
  | storageAt a s b value =>
    obtain ⟨_, _, -, -, rfl⟩ := putStorageAt_eq hput
    exact (Option.none_or).symm

theorem storage_apply (hs : IsSlot slot) (hkey : storageKey slot block = some key) :
    (c'.storage (normalizeHex address, key)).map encodeData32 =
      (p.storageOf address slot block).or ((c.storage (normalizeHex address, key)).map encodeData32) := by
  cases p with
  | balance a b value =>
    obtain ⟨_, -, rfl⟩ := putBalance_eq hput
    exact (Option.none_or).symm
  | txCount a b value =>
    obtain ⟨_, -, rfl⟩ := putTxCount_eq hput
    exact (Option.none_or).symm
  | storageAt a s b value =>
    obtain ⟨key', word, hkey', hword, rfl⟩ := putStorageAt_eq hput
    have haddress : normalizeHex a = normalizeHex address ↔ hexNumber a = hexNumber address :=
      ⟨hexNumber_of_normalized hp.1.1 ha.1, normalizeHex_congr hp.1.1 ha.1 (hp.1.2.trans ha.2.symm)⟩
    have hvalue : encodeData32 word = value := by
      have hround := data32_round_trip hp.2.2.2
      rw [hword, Option.map_some] at hround
      exact Option.some.inj hround
    have hname : (normalizeHex a, key') = (normalizeHex address, key) ↔
        hexNumber a = hexNumber address ∧ hexNumber s = hexNumber slot ∧ hexNumber b = hexNumber block := by
      rw [Prod.mk.injEq, haddress, storageKey_inj hp.2.1 hp.2.2.1 hs hb hkey' hkey]
    simp only [Put.storageOf, ← hname]
    exact insert_map hvalue

end

/-- No put with well-formed parameters panics, and after any history of them a get returns the
    string that was put last for the same address, slot and block, and nothing if none was. -/
theorem cache_round_trip (history : List Put) (hok : ∀ p ∈ history, p.WellFormed) {address slot block : String}
    (ha : IsAddress address) (hs : IsSlot slot) (hb : IsBlock block) :
    ∃ c : Cache, history.foldlM Put.apply {} = some c ∧
      c.getBalance address block = some (lastPut (Put.balanceOf address block) history) ∧
      c.getTxCount address block = some (lastPut (Put.txCountOf address block) history) ∧
      c.getStorageAt address slot block = some (lastPut (Put.storageOf address slot block) history) := by
  obtain ⟨c, hrun⟩ := exists_history hok {}
  have hkey := addressBlockKey_eq ha hb
  have hslot := storageKey_eq hs hb
  refine ⟨c, hrun, ?_, ?_, ?_⟩
  · have h := read_history (fun c => (c.balance _).map encodeQuantity) _
      (fun p c c' hp hput => balance_apply ha hb hp hput hkey) history hok hrun
    rw [Cache.getBalance, hkey]
    exact congrArg some (h.trans (Option.or_none ..))
  · have h := read_history (fun c => (c.nonce _).map encodeQuantity) _
      (fun p c c' hp hput => nonce_apply ha hb hp hput hkey) history hok hrun
    rw [Cache.getTxCount, hkey]
    exact congrArg some (h.trans (Option.or_none ..))
  · have h := read_history (fun c => (c.storage (normalizeHex address, _)).map encodeData32) _
      (fun p c c' hp hput => storage_apply ha hb hp hput hs hslot) history hok hrun
    rw [Cache.getStorageAt, hslot]
    exact congrArg some (h.trans (Option.or_none ..))

end

open Chain in
/-- A balance that was put twice, asked for with zeros in front of the block. -/
theorem cache_round_trip_zeros :
    ∃ c : Cache, [.balance account "0x10" "0x1", .balance account "0x10" "0x2a"].foldlM Put.apply {} = some c ∧
      c.getBalance account "0x0010" = some (some "0x2a") := by
  have hquantity : ∀ {d : List Char} (v : String), v.toList = '0' :: 'x' :: d → d.all isLower → d ≠ [] →
    d.head? ≠ some '0' →
      IsQuantity v := fun v hv hd hsome hfirst => ⟨_, hv, hd, hsome, fun h => absurd h hfirst⟩
  have hok : ∀ p ∈ [Put.balance account "0x10" "0x1", .balance account "0x10" "0x2a"], p.WellFormed := by
    intro p hp
    rcases List.mem_cons.1 hp with rfl | hp
    · exact ⟨by unfold IsAddress; decide +kernel, by unfold IsBlock; decide +kernel,
        hquantity _ rfl (by decide) (by decide) (by decide)⟩
    · obtain rfl := List.mem_singleton.1 hp
      exact ⟨by unfold IsAddress; decide +kernel, by unfold IsBlock; decide +kernel,
        hquantity _ rfl (by decide) (by decide) (by decide)⟩
  have hslot : IsSlot "0x0" := by
    unfold IsSlot
    decide +kernel
  have haddress : IsAddress account := by
    unfold IsAddress
    decide +kernel
  have hblock : IsBlock "0x0010" := by
    unfold IsBlock
    decide +kernel
  obtain ⟨c, hrun, hbalance, -⟩ := cache_round_trip _ hok haddress hslot hblock
  refine ⟨c, hrun, hbalance.trans ?_⟩
  decide +kernel

end Solenoid.Proxy
