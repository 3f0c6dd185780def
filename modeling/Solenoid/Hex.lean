/-
  Solenoid.Hex — `decode` of evm-common (`lib.rs`) and how words and addresses are written to
  and read from JSON (`word.rs`, `address.rs`).

  A `str` is its UTF-8 bytes. `decode` reads its digits from the last to the first; whether a
  digit is the low or the high half of its byte is told by the length of the whole string, the
  prefix included, which has the same parity as the digits. It panics on what it cannot read:
  it was written for constants. A `Word` or an `Address` of a JSON string is read by it too.
  - `hex_codec`: with and without the prefix, and with any number of digits that fits, the bytes
    are those of the number, and a word is written canonically and read back.
  - `malformed_hex`: a malformed string is no error for a `Word` but a panic, or a value if only
    its prefix is repeated, and so for an `Address` if 40 bytes are left without the prefixes.
-/
import Solenoid.Lib.Numeral
import Solenoid.Numbers

namespace Solenoid

open Numeral

abbrev Str := Bytes

namespace Hex

/-- `b'0'..=b'9'`, `b'a'..=b'f'` and `b'A'..=b'F'`. -/
def nibble? (chr : UInt8) : Option UInt8 :=
  if 0x30 ≤ chr ∧ chr ≤ 0x39 then some (chr - 0x30)
  else if 0x61 ≤ chr ∧ chr ≤ 0x66 then some (chr - 0x61 + 10)
  else if 0x41 ≤ chr ∧ chr ≤ 0x46 then some (chr - 0x41 + 10)
  else none

/-- `a + b` on `u8`. -/
def addU8 (a b : UInt8) : Except Fault UInt8 :=
  if a.toNat + b.toNat < 2 ^ 8 then .ok (a + b) else panic "attempt to add with overflow"

/-- The loop of `decode`, from `chr_idx` down to `skip`. -/
def decodeLoop (chars : Str) (parity skip : Nat) : (chrIdx binIdx : Nat) → Bytes → Except Fault Bytes
  | 0, _, bytes => .ok bytes
  | chrIdx + 1, binIdx, bytes =>
    if chrIdx + 1 ≤ skip then .ok bytes
    else
      match chars[chrIdx]? with
      | none => panic "index out of bounds"
      | some chr =>
        match nibble? chr with
        | none => panic "Invalid hex char"
        | some chr =>
          match binIdx with
          | 0 => panic "attempt to subtract with overflow"
          | binIdx + 1 =>
            if (chrIdx + 1) % 2 = parity then decodeLoop chars parity skip chrIdx (binIdx + 1) (bytes.set binIdx chr)
            else
              match bytes[binIdx]? with
              | none => panic "index out of bounds"
              | some byte => do
                let byte ← addU8 byte (chr <<< 4)
                decodeLoop chars parity skip chrIdx binIdx (bytes.set binIdx byte)

/-- `decode::<N>`. -/
def decode (n : Nat) (chars : Str) : Except Fault Bytes :=
  if chars = [] then .ok (List.replicate n 0)
  else
    let parity := chars.length % 2
    let skip := if chars[0]? = some 0x30 ∧ 1 < chars.length ∧ chars[1]? = some 0x78 then 2 else 0
    if n * 2 < chars.length - skip then panic "Value too large"
    else decodeLoop chars parity skip chars.length n (List.replicate n 0)

/-- `b'0' + n`, or `b'a' + n - 10`. -/
def hexDigit (n : UInt8) : UInt8 := if n < 10 then 0x30 + n else 0x61 + (n - 10)

/-- `hex::encode`. -/
def encode (b : Bytes) : Str := b.flatMap fun byte => [hexDigit (byte / 16), hexDigit (byte % 16)]

/-- `trim_start_matches("0x")`: the prefix goes as often as it is there. -/
def trimStart0x : Str → Str
  | 0x30 :: 0x78 :: rest => trimStart0x rest
  | s => s

/-- What `deserialize` returns to serde of a value that is not valid. -/
inductive SerdeError where
  | invalidValue (unexpected : Str) (expected : String)
  deriving DecidableEq

end Hex

open Hex

/-- `word`. -/
def Word.ofHex (s : Str) : Except Fault Word := return Word.fromBytes (← Hex.decode 32 s)

/-- `addr`. -/
def Address.ofHex (s : Str) : Except Fault Address := return Address.fromBytes (← Hex.decode 20 s)

def Word.serialize (w : Word) : Str :=
  let hex := (encode w.intoBytes).dropWhile (· == 0x30)
  0x30 :: 0x78 :: if hex.isEmpty then [0x30] else hex

/-- Of a JSON string; the outcome is a value, an error or a panic. -/
def Word.deserialize (s : Str) : Except Fault (Except SerdeError Word) := return .ok (← Word.ofHex (trimStart0x s))

def Address.deserialize (s : Str) : Except Fault (Except SerdeError Address) :=
  let hex := trimStart0x s
  if hex.length ≠ 40 then .ok (.error (.invalidValue hex "Invalid hex length"))
  else return .ok (← Address.ofHex hex)

namespace Hex

/-! ## Digits -/

theorem nibble_lt (c v : UInt8) (h : nibble? c = some v) : v < 16 := by
  unfold nibble? at h
  split at h
  · cases h; grind
  split at h
  · cases h; grind
  split at h
  · cases h; grind
  · cases h

/-- The number a string of digits stands for. -/
def value (digits : Str) : Nat := number nibble? digits

/-- Digits behind one prefix or none. -/
def Prefixed (s digits : Str) : Prop := s = digits ∨ s = 0x30 :: 0x78 :: digits

theorem value_lt (ds : Str) : value ds < 16 ^ ds.length := number_lt nibble_lt ds

theorem pow_pairs (m : Nat) : 16 ^ (2 * m) = 256 ^ m := by rw [Nat.pow_mul]

/-! ## decode -/

/-- Writing the next byte of a number that has no digit past it. -/
theorem natToBytes_set {n m v : Nat} (hm : m < n) (hv : v < 256 ^ (m + 1)) (x : UInt8) :
    (natToBytes n v).set (n - 1 - m) x = natToBytes n (v % 256 ^ m + x.toNat * 256 ^ m) := by
  induction m generalizing n v with
  | zero =>
    obtain ⟨n, rfl⟩ := Nat.exists_eq_add_one.2 hm
    rw [pow_zero, Nat.mod_one, Nat.zero_add, Nat.mul_one, natToBytes_concat, natToBytes_concat,
      Nat.div_eq_of_lt (by simpa using hv), Nat.div_eq_of_lt x.toNat_lt, List.set_append_right _ _ (by simp)]
    simp
  | succ m ih =>
    obtain ⟨n, rfl⟩ := Nat.exists_eq_add_one.2 (Nat.zero_lt_of_lt hm)
    have hlow : (v % 256 ^ (m + 1) + x.toNat * 256 ^ (m + 1)) / 256 = v / 256 % 256 ^ m + x.toNat * 256 ^ m := by
      rw [pow_succ, ← Nat.mul_assoc, Nat.add_mul_div_right _ _ (by decide), Nat.mul_comm (256 ^ m),
        Nat.mod_mul_right_div_self]
    have hlast : UInt8.ofNat (v % 256 ^ (m + 1) + x.toNat * 256 ^ (m + 1)) = UInt8.ofNat v := by
      apply UInt8.toNat_inj.1
      rw [UInt8.toNat_ofNat', UInt8.toNat_ofNat', pow_succ, ← Nat.mul_assoc, Nat.add_mul_mod_self_right,
        Nat.mod_mul_left_mod]
    rw [natToBytes_concat, natToBytes_concat, hlow, hlast, List.set_append_left _ _ (by simp; omega),
      ← ih (by omega) (Nat.div_lt_of_lt_mul (by rwa [pow_succ'] at hv))]
    congr 2
    omega

theorem natToBytes_get {n m : Nat} (hm : m < n) (v : Nat) :
    (natToBytes n v)[n - 1 - m]? = some (UInt8.ofNat (v / 256 ^ m)) := by
  unfold natToBytes
  rw [List.getElem?_map, List.getElem?_range (by omega), Option.map_some, Nat.shiftRight_eq_div_pow,
    show 8 * (n - 1 - (n - 1 - m)) = 8 * m by omega, Nat.pow_mul]

/-- The high half of a byte comes after its low half. -/
theorem addU8_high {low x : UInt8} (hlow : low < 16) (hx : x < 16) :
    addU8 low (x <<< 4) = .ok (UInt8.ofNat (x.toNat * 16 + low.toNat)) := by
  have hlow : low.toNat < 16 := hlow
  have hx : x.toNat < 16 := hx
  have hshift : (x <<< 4).toNat = x.toNat * 16 := by
    rw [UInt8.toNat_shiftLeft, show (4 : UInt8).toNat % 8 = 4 from rfl, Nat.shiftLeft_eq]
    omega
  rw [addU8, if_pos (by omega)]
  refine congrArg _ (UInt8.toNat_inj.1 ?_)
  rw [UInt8.toNat_add, hshift, UInt8.toNat_ofNat', Nat.add_comm]

/-- The loop with `j` digits left has the bytes of the number behind them. -/
theorem decodeLoop_digits {lead ds : Str} {n : Nat} (hlead : lead.length % 2 = 0) (hds : IsNumeral nibble? ds)
    (hroom : ds.length ≤ 2 * n) (j : Nat) (hj : j ≤ ds.length) :
    decodeLoop (lead ++ ds) ((lead ++ ds).length % 2) lead.length (lead.length + j) (n - (ds.length - j) / 2)
      (natToBytes n (value (ds.drop j))) = .ok (natToBytes n (value ds)) := by
  induction j with
  | zero =>
    rw [Nat.add_zero, List.drop_zero]
    cases hk : lead.length with
    | zero => rfl
    | succ k => rw [decodeLoop, if_pos le_rfl]
  | succ j ih =>
    have hdrop : ds.drop j = ds[j] :: ds.drop (j + 1) := List.drop_eq_getElem_cons hj
    have hget : (lead ++ ds)[lead.length + j]? = some ds[j] := by
      rw [List.getElem?_append_right (Nat.le_add_right _ _), Nat.add_sub_cancel_left, List.getElem?_eq_getElem hj]
    obtain ⟨x, hx⟩ := Option.isSome_iff_exists.1 (hds _ (List.getElem_mem hj))
    have hx16 := nibble_lt _ _ hx
    have hdigit : digit nibble? ds[j] = x.toNat := by rw [digit, hx, Option.getD_some]
    have hlen : (ds.drop (j + 1)).length = ds.length - (j + 1) := List.length_drop
    have hvalue : value (ds.drop j) = x.toNat * 16 ^ (ds.length - (j + 1)) + value (ds.drop (j + 1)) := by
      rw [hdrop, value, number_cons, hdigit, hlen, value]
    have hlt := value_lt (ds.drop (j + 1))
    rw [hlen] at hlt
    have ih := ih (Nat.le_of_succ_le hj)
    rw [hvalue] at ih
    generalize value (ds.drop (j + 1)) = v at hlt ih ⊢
    obtain ⟨m, hm⟩ : ∃ m, (ds.length - (j + 1)) / 2 = m := ⟨_, rfl⟩
    have hroom : m < n := by omega
    rw [← Nat.add_assoc, decodeLoop, if_neg (by omega), hget, hm, show n - m = n - 1 - m + 1 by omega]
    dsimp only
    rw [hx]
    dsimp only
    have hparity : (lead.length + j + 1) % 2 = (lead ++ ds).length % 2 ↔ (ds.length - (j + 1)) % 2 = 0 := by
      rw [List.length_append]
      omega
    by_cases heven : (ds.length - (j + 1)) % 2 = 0
    · -- the low half of a byte that is still zero
      have hpow : ds.length - (j + 1) = 2 * m := by omega
      rw [hpow, pow_pairs] at hlt ih
      have hset := natToBytes_set hroom (hlt.trans_le (Nat.pow_le_pow_right (by decide) (Nat.le_succ m))) x
      rw [Nat.mod_eq_of_lt hlt] at hset
      rw [if_pos (hparity.2 heven), hset, Nat.add_comm v, show n - 1 - m + 1 = n - (ds.length - j) / 2 by omega]
      exact ih
    · -- the high half of a byte that has its low half
      have hpow : ds.length - (j + 1) = 2 * m + 1 := by omega
      rw [hpow, pow_succ, pow_pairs] at hlt ih
      have hsmall : v < 256 ^ (m + 1) := by
        rw [pow_succ]
        omega
      have hlow : v / 256 ^ m < 16 := Nat.div_lt_of_lt_mul hlt
      have hlow' : (UInt8.ofNat (v / 256 ^ m)).toNat = v / 256 ^ m := by
        rw [UInt8.toNat_ofNat', Nat.mod_eq_of_lt (by omega)]
      have hbyte : (UInt8.ofNat (x.toNat * 16 + v / 256 ^ m)).toNat = x.toNat * 16 + v / 256 ^ m := by
        have : x.toNat < 16 := hx16
        rw [UInt8.toNat_ofNat', Nat.mod_eq_of_lt (by omega)]
      have hset := natToBytes_set hroom hsmall (UInt8.ofNat (x.toNat * 16 + v / 256 ^ m))
      have hsum : v % 256 ^ m + (x.toNat * 16 + v / 256 ^ m) * 256 ^ m = x.toNat * (256 ^ m * 16) + v := by
        have := Nat.mod_add_div v (256 ^ m)
        calc v % 256 ^ m + (x.toNat * 16 + v / 256 ^ m) * 256 ^ m
            = x.toNat * (256 ^ m * 16) + (v % 256 ^ m + 256 ^ m * (v / 256 ^ m)) := by ring
          _ = x.toNat * (256 ^ m * 16) + v := by rw [this]
      rw [hbyte, hsum] at hset
      rw [if_neg (mt hparity.1 heven), natToBytes_get hroom]
      dsimp only
      rw [addU8_high (UInt8.lt_iff_toNat_lt.2 (by rw [hlow']; exact hlow)) hx16, hlow']
      show decodeLoop _ _ _ _ _ ((natToBytes n v).set (n - 1 - m) _) = _
      rw [hset, show n - 1 - m = n - (ds.length - j) / 2 by omega]
      exact ih

/-- What `decode` skips. -/
def lead (s : Str) : Str := if s[0]? = some 0x30 ∧ 1 < s.length ∧ s[1]? = some 0x78 then [0x30, 0x78] else []

/-- What it reads. -/
def digits (s : Str) : Str := s.drop (lead s).length

theorem lead_append_digits (s : Str) : lead s ++ digits s = s := by
  unfold digits lead
  split
  · next h =>
    obtain ⟨c, c', rest, rfl⟩ : ∃ c c' rest, s = c :: c' :: rest := by
      match s, h.2.1 with
      | c :: c' :: rest, _ => exact ⟨c, c', rest, rfl⟩
    obtain ⟨h0, -, h1⟩ := h
    cases h0
    cases h1
    rfl
  · rfl

theorem lead_even (s : Str) : (lead s).length % 2 = 0 := by
  unfold lead
  split <;> rfl

/-- `decode`, by what it skips and what it reads. -/
theorem decode_eq (n : Nat) (s : Str) : decode n s =
    if n * 2 < (digits s).length then panic "Value too large"
    else decodeLoop s (s.length % 2) (lead s).length s.length n (List.replicate n 0) := by
  have hlen : (digits s).length = s.length - (lead s).length := List.length_drop
  rw [hlen]
  unfold decode lead
  split
  · next hnil =>
    rw [hnil]
    rfl
  · split <;> rfl

/-- All that are digits are read, if they fit. -/
theorem decode_of_numeral {n : Nat} {s : Str} (hds : IsNumeral nibble? (digits s)) (hroom : (digits s).length ≤ 2 * n) :
    decode n s = .ok (natToBytes n (value (digits s))) := by
  have hloop := decodeLoop_digits (lead_even s) hds hroom _ le_rfl
  have hlen : (lead s).length + (digits s).length = s.length := by rw [← List.length_append, lead_append_digits]
  rw [lead_append_digits, hlen, Nat.sub_self, Nat.zero_div, Nat.sub_zero, List.drop_length] at hloop
  rw [decode_eq, if_neg (by omega), ← natToBytes_zero]
  exact hloop

theorem addU8_error {a b : UInt8} {f : Fault} (h : addU8 a b = .error f) : ∃ why, f = .panic why := by
  unfold addU8 at h
  split at h <;> cases h
  exact ⟨_, rfl⟩

/-- What is not read is a panic. -/
theorem decodeLoop_error {chars : Str} {parity skip : Nat} (chrIdx : Nat) {n : Nat} {bytes : Bytes} {f : Fault}
    (h : decodeLoop chars parity skip chrIdx n bytes = .error f) : ∃ why, f = .panic why := by
  induction chrIdx generalizing n bytes with
  | zero => cases h
  | succ chrIdx ih =>
    rw [decodeLoop] at h
    split at h
    · cases h
    split at h
    · cases h
      exact ⟨_, rfl⟩
    split at h
    · cases h
      exact ⟨_, rfl⟩
    next x _ =>
    split at h
    · cases h
      exact ⟨_, rfl⟩
    split at h
    · exact ih h
    split at h
    · cases h
      exact ⟨_, rfl⟩
    next byte _ =>
    cases hsum : addU8 byte (x <<< 4) with
    | error f' =>
      rw [hsum] at h
      cases h
      exact addU8_error hsum
    | ok b =>
      rw [hsum] at h
      exact ih h

theorem decode_error {n : Nat} {s : Str} {f : Fault} (h : decode n s = .error f) : ∃ why, f = .panic why := by
  rw [decode_eq] at h
  split at h
  · cases h
    exact ⟨_, rfl⟩
  · exact decodeLoop_error _ h

/-! ## Prefixes -/

theorem isNumeral_no_x {ds : Str} (hds : IsNumeral nibble? ds) : 0x78 ∉ ds := fun h => by
  have hx : (nibble? 0x78).isSome := hds _ h
  cases hx

theorem lead_of_numeral {ds : Str} (hds : IsNumeral nibble? ds) : lead ds = [] := by
  refine if_neg fun ⟨_, _, hx⟩ => isNumeral_no_x hds (List.mem_of_getElem? hx)

/-- What `decode` reads of digits behind one prefix or none. -/
theorem digits_of_prefixed {s ds : Str} (h : Prefixed s ds) (hds : IsNumeral nibble? ds) : digits s = ds := by
  rcases h with rfl | rfl
  · rw [digits, lead_of_numeral hds]
    rfl
  · rw [digits, show lead (0x30 :: 0x78 :: ds) = [0x30, 0x78] from if_pos ⟨rfl, by simp, rfl⟩]
    rfl

theorem trimStart0x_numeral {ds : Str} (hds : IsNumeral nibble? ds) : trimStart0x ds = ds := by
  unfold trimStart0x
  split
  · exact absurd (by simp) (isNumeral_no_x hds)
  · rfl

theorem trimStart0x_prefixed {s ds : Str} (h : Prefixed s ds) (hds : IsNumeral nibble? ds) : trimStart0x s = ds := by
  rcases h with rfl | rfl
  · exact trimStart0x_numeral hds
  · rw [trimStart0x, trimStart0x_numeral hds]

/-! ## hex::encode -/

theorem nibble_hexDigit {n : UInt8} (h : n < 16) : nibble? (hexDigit n) = some n := by
  have hall : ∀ k < 16, nibble? (hexDigit (UInt8.ofNat k)) = some (UInt8.ofNat k) := by decide
  have := hall n.toNat h
  rwa [UInt8.ofNat_toNat] at this

theorem encode_numeral (b : Bytes) : IsNumeral nibble? (encode b) := by
  intro c hc
  obtain ⟨byte, -, hc⟩ := List.mem_flatMap.1 hc
  have hlt := byte.toNat_lt
  rcases List.mem_cons.1 hc with rfl | hc
  · rw [nibble_hexDigit (UInt8.lt_iff_toNat_lt.2 (by rw [UInt8.toNat_div]; show byte.toNat / 16 < 16; omega))]
    rfl
  · obtain rfl := List.mem_singleton.1 hc
    rw [nibble_hexDigit (UInt8.lt_iff_toNat_lt.2 (by rw [UInt8.toNat_mod]; show byte.toNat % 16 < 16; omega))]
    rfl

theorem encode_concat (b : Bytes) (x : UInt8) : encode (b ++ [x]) = encode b ++ [hexDigit (x / 16), hexDigit (x % 16)] := by
  simp [encode]

/-- Two digits a byte. -/
theorem value_encode (b : Bytes) : value (encode b) = natOfBytes b := by
  induction b using List.reverseRecOn with
  | nil => rfl
  | append_singleton b x ih =>
    have hlt := x.toNat_lt
    have hhigh : digit nibble? (hexDigit (x / 16)) = x.toNat / 16 := by
      rw [digit, nibble_hexDigit (UInt8.lt_iff_toNat_lt.2 (by rw [UInt8.toNat_div]; show x.toNat / 16 < 16; omega)),
        Option.getD_some, UInt8.toNat_div]
      rfl
    have hlow : digit nibble? (hexDigit (x % 16)) = x.toNat % 16 := by
      rw [digit, nibble_hexDigit (UInt8.lt_iff_toNat_lt.2 (by rw [UInt8.toNat_mod]; show x.toNat % 16 < 16; omega)),
        Option.getD_some, UInt8.toNat_mod]
      rfl
    rw [natOfBytes_concat, encode_concat, ← ih, value, number_append, number_cons, number_cons, hhigh, hlow]
    show value (encode b) * 16 ^ 2 + (x.toNat / 16 * 16 ^ 1 + (x.toNat % 16 * 16 ^ 0 + 0)) =
      value (encode b) * 256 + x.toNat
    omega

end Hex

/-! ## Words and addresses -/

theorem Word.ofHex_of_numeral {s : Str} (hds : IsNumeral nibble? (digits s)) (hroom : (digits s).length ≤ 64) :
    Word.ofHex s = .ok (BitVec.ofNat 256 (value (digits s))) := by
  have hlt : value (digits s) < 256 ^ 32 := (value_lt _).trans_le (by
    rw [← pow_pairs]
    exact Nat.pow_le_pow_right (by decide) hroom)
  rw [Word.ofHex, decode_of_numeral hds hroom]
  show Except.ok (BitVec.ofNat 256 (natOfBytes (natToBytes 32 (value (digits s))))) = _
  rw [natOfBytes_natToBytes hlt]

theorem Address.ofHex_of_numeral {s : Str} (hds : IsNumeral nibble? (digits s)) (hroom : (digits s).length ≤ 40) :
    Address.ofHex s = .ok (BitVec.ofNat 160 (value (digits s))) := by
  have hlt : value (digits s) < 256 ^ 20 := (value_lt _).trans_le (by
    rw [← pow_pairs]
    exact Nat.pow_le_pow_right (by decide) hroom)
  rw [Address.ofHex, decode_of_numeral hds hroom]
  show Except.ok (BitVec.ofNat 160 (natOfBytes (natToBytes 20 (value (digits s))))) = _
  rw [natOfBytes_natToBytes hlt]

/-- A word in JSON: `0x0`, or its digits, the first of them not zero. -/
structure Quantity (w : Word) (s : Str) (ds : Str) : Prop where
  prefixed : s = 0x30 :: 0x78 :: ds
  numeral : IsNumeral nibble? ds
  value : Hex.value ds = w.toNat
  nonempty : ds ≠ []
  first : ds.head? = some 0x30 → ds = [0x30]

theorem length_encode (b : Bytes) : (encode b).length = 2 * b.length := by
  unfold encode
  rw [List.length_flatMap]
  simp [Nat.mul_comm]

theorem Word.serialize_quantity (w : Word) : ∃ ds, Quantity w (Word.serialize w) ds ∧ ds.length ≤ 64 := by
  have hnum : IsNumeral nibble? ((encode w.intoBytes).dropWhile (· == 0x30)) := fun c hc =>
    encode_numeral _ c (List.dropWhile_suffix _ |>.subset hc)
  have hvalue : Hex.value ((encode w.intoBytes).dropWhile (· == 0x30)) = w.toNat := by
    have hzero : ∀ c : UInt8, (c == 0x30) = true → digit nibble? c = 0 := by
      intro c hc
      rw [eq_of_beq hc]
      rfl
    rw [Hex.value, number_dropWhile _ hzero, ← Hex.value, value_encode, Word.intoBytes,
      natOfBytes_natToBytes (by simpa using w.isLt)]
  have hlen : ((encode w.intoBytes).dropWhile (· == 0x30)).length ≤ 64 := by
    refine (List.dropWhile_suffix _).length_le.trans ?_
    rw [length_encode, Word.intoBytes, natToBytes_length]
  unfold Word.serialize
  dsimp only
  cases hds : (encode w.intoBytes).dropWhile (· == 0x30) with
  | nil =>
    rw [hds] at hvalue
    refine ⟨[0x30], ⟨rfl, ?_, ?_, nofun, fun _ => rfl⟩, by decide⟩
    · intro c hc
      obtain rfl := List.mem_singleton.1 hc
      rfl
    · rw [← hvalue]
      rfl
  | cons c ds =>
    rw [hds] at hnum hvalue hlen
    refine ⟨c :: ds, ⟨rfl, hnum, hvalue, nofun, fun hc => ?_⟩, hlen⟩
    have hnot : (c == 0x30) = false := by
      have := List.head?_dropWhile_not (· == (0x30 : UInt8)) (encode w.intoBytes)
      rw [hds] at this
      simpa using this
    rw [Option.some.inj hc] at hnot
    cases hnot

theorem Word.deserialize_serialize (w : Word) : Word.deserialize (Word.serialize w) = .ok (.ok w) := by
  obtain ⟨ds, hq, hroom⟩ := Word.serialize_quantity w
  have htrim := trimStart0x_prefixed (.inr hq.prefixed) hq.numeral
  have hdigits : digits ds = ds := digits_of_prefixed (.inl rfl) hq.numeral
  rw [Word.deserialize, htrim, Word.ofHex_of_numeral (by rw [hdigits]; exact hq.numeral) (by rw [hdigits]; exact hroom),
    hdigits, hq.value, BitVec.ofNat_toNat, BitVec.setWidth_eq]
  rfl

/-- The bytes of up to `2 * n` digits behind a prefix or none are those of the number; a word is
    written as a quantity, and read back from it. -/
theorem hex_codec : (∀ (n : Nat) (s ds : Str), Prefixed s ds → IsNumeral nibble? ds → ds.length ≤ 2 * n →
      Hex.decode n s = .ok (natToBytes n (value ds))) ∧
    ∀ w : Word, (∃ ds, Quantity w (Word.serialize w) ds) ∧ Word.deserialize (Word.serialize w) = .ok (.ok w) := by
  refine ⟨fun n s ds h hds hroom => ?_, fun w => ⟨?_, Word.deserialize_serialize w⟩⟩
  · have hdigits := digits_of_prefixed h hds
    have hread := decode_of_numeral (n := n) (s := s) (by rw [hdigits]; exact hds) (by rw [hdigits]; exact hroom)
    rwa [hdigits] at hread
  · obtain ⟨ds, hq, -⟩ := Word.serialize_quantity w
    exact ⟨ds, hq⟩

/-- The bytes of an odd number of digits, and of none. -/
theorem hex_codec_odd : Hex.decode 2 [0x30, 0x78, 0x31, 0x46, 0x61] = .ok [0x01, 0xfa] ∧ Hex.decode 2 [] = .ok [0, 0] :=
  ⟨hex_codec.1 2 _ [0x31, 0x46, 0x61] (.inr rfl) (by unfold IsNumeral; decide +kernel) (by decide),
    hex_codec.1 2 _ [] (.inl rfl) nofun (by decide)⟩

/-! ## Malformed strings -/

/-- One prefix or none, and digits, so many of them. -/
def WellFormed (count : Nat → Prop) (s : Str) : Prop := ∃ ds, Prefixed s ds ∧ IsNumeral nibble? ds ∧ count ds.length

/-- A value for what is well formed, and an error for everything else. -/
structure Answers {α : Type} (count : Nat → Prop) (meaning : Nat → α) (s : Str)
    (outcome : Except Fault (Except SerdeError α)) : Prop where
  value : ∀ ds, Prefixed s ds → IsNumeral nibble? ds → count ds.length → outcome = .ok (.ok (meaning (Hex.value ds)))
  error : ¬WellFormed count s → ∃ e, outcome = .ok (.error e)

/-- A `Word` is read or panics. -/
theorem Word.deserialize_cases (s : Str) : (∃ w, Word.deserialize s = .ok (.ok w)) ∨
    ∃ why, Word.deserialize s = .error (.panic why) := by
  unfold Word.deserialize Word.ofHex
  cases h : Hex.decode 32 (trimStart0x s) with
  | ok b => exact .inl ⟨_, rfl⟩
  | error f =>
    obtain ⟨why, rfl⟩ := decode_error h
    exact .inr ⟨why, rfl⟩

theorem Word.deserialize_of_digits {s ds : Str} (h : Prefixed s ds) (hds : IsNumeral nibble? ds) (hroom : ds.length ≤ 64) :
    Word.deserialize s = .ok (.ok (BitVec.ofNat 256 (value ds))) := by
  have hdigits : digits ds = ds := digits_of_prefixed (.inl rfl) hds
  have hread := Word.ofHex_of_numeral (s := ds) (by rwa [hdigits]) (by rwa [hdigits])
  rw [hdigits] at hread
  rw [Word.deserialize, trimStart0x_prefixed h hds, hread]
  rfl

theorem Address.deserialize_of_digits {s ds : Str} (h : Prefixed s ds) (hds : IsNumeral nibble? ds)
    (hlen : ds.length = 40) :
    Address.deserialize s = .ok (.ok (BitVec.ofNat 160 (value ds))) := by
  have hdigits : digits ds = ds := digits_of_prefixed (.inl rfl) hds
  have hread := Address.ofHex_of_numeral (s := ds) (by rwa [hdigits]) (by rw [hdigits, hlen])
  rw [hdigits] at hread
  unfold Address.deserialize
  dsimp only
  rw [trimStart0x_prefixed h hds, if_neg (not_not.2 hlen), hread]
  rfl

/-- An `Address` of 40 bytes is read or panics. -/
theorem Address.deserialize_cases {s : Str} (hlen : (trimStart0x s).length = 40) :
    (∃ a, Address.deserialize s = .ok (.ok a)) ∨ ∃ why, Address.deserialize s = .error (.panic why) := by
  unfold Address.deserialize Address.ofHex
  dsimp only
  rw [if_neg (not_not.2 hlen)]
  cases h : Hex.decode 20 (trimStart0x s) with
  | ok b => exact .inl ⟨_, rfl⟩
  | error f =>
    obtain ⟨why, rfl⟩ := decode_error h
    exact .inr ⟨why, rfl⟩

/-- Whether a JSON string is answered as it should be: as a `Word` if and only if it is well
    formed, as an `Address` if and only if it is or has not 40 bytes behind its prefixes. -/
theorem malformed_hex (s : Str) :
    (Answers (· ≤ 64) (BitVec.ofNat 256) s (Word.deserialize s) ↔ WellFormed (· ≤ 64) s) ∧
    (Answers (· = 40) (BitVec.ofNat 160) s (Address.deserialize s) ↔
      (trimStart0x s).length ≠ 40 ∨ WellFormed (· = 40) s) := by
  refine ⟨⟨fun h => ?_, fun h => ?_⟩, ⟨fun h => ?_, fun h => ?_⟩⟩
  · by_contra hbad
    obtain ⟨e, he⟩ := h.error hbad
    rcases Word.deserialize_cases s with ⟨w, hw⟩ | ⟨why, hw⟩ <;> rw [hw] at he <;> cases he
  · exact ⟨fun ds hs hds hroom => Word.deserialize_of_digits hs hds hroom, fun hbad => absurd h hbad⟩
  · by_contra hbad
    obtain ⟨hlen, hbad⟩ := not_or.1 hbad
    obtain ⟨e, he⟩ := h.error hbad
    rcases Address.deserialize_cases (not_not.1 hlen) with ⟨a, ha⟩ | ⟨why, ha⟩ <;> rw [ha] at he <;> cases he
  · refine ⟨fun ds hs hds hlen => Address.deserialize_of_digits hs hds hlen, fun hbad => ?_⟩
    have hlen := h.resolve_right hbad
    exact ⟨_, if_pos hlen⟩

/-- `"0xg"` is no word, and 40 times `g` no address: both panic. -/
theorem malformed_hex_panics :
    ¬Answers (· ≤ 64) (BitVec.ofNat 256) [0x30, 0x78, 0x67] (Word.deserialize [0x30, 0x78, 0x67]) ∧
    ¬Answers (· = 40) (BitVec.ofNat 160) (List.replicate 40 0x67) (Address.deserialize (List.replicate 40 0x67)) := by
  refine ⟨fun h => ?_, fun h => ?_⟩
  · have hbad : ¬WellFormed (· ≤ 64) [0x30, 0x78, 0x67] := by
      rintro ⟨ds, rfl | hs, hds, -⟩
      · exact absurd (hds 0x67 (by decide)) (by decide)
      · cases hs
        exact absurd (hds 0x67 (by decide)) (by decide)
    obtain ⟨e, he⟩ := h.error hbad
    cases he
  · have hbad : ¬WellFormed (· = 40) (List.replicate 40 0x67) := by
      rintro ⟨ds, rfl | hs, hds, -⟩
      · exact absurd (hds 0x67 (by decide)) (by decide)
      · have hhead : (0x67 : UInt8) = 0x30 := Option.some.inj (congrArg List.head? hs)
        exact absurd hhead (by decide)
    obtain ⟨e, he⟩ := h.error hbad
    cases he

end Solenoid
