/-
  Solenoid.Proxy.Keys — which requests share an entry of the cache.

  A key is made of the parameters' texts: without prefixes, filled up with zeros on the left,
  cut on the right, and read up to the first two characters that are not two digits; what is
  not read is zero. A digit counts at its place if all are digits up to there (`place`), so two
  texts make one key if and only if the same digits count in both. The cut is made by bytes,
  and a text that it would cut inside of a character makes no key: its handler panics. A block
  that is a tag or a hash goes through this too, and whether a request is for a moving tag is
  asked of its first parameter, which is the address.
  - `cache_keys`: two requests of one method are kept apart as they should be if and only if
    neither makes a key for a moving tag, and two that make a key name the same things or
    differ in some digit that counts, and two that name the same things make one. Requests for
    an address of 40 digits, a slot and a block number that fit are kept apart.
-/
import Mathlib.Data.List.GetD
import Solenoid.Lib.Numeral
import Solenoid.Proxy.Transparency

namespace Solenoid.Proxy

open Numeral

/-! ## Digits -/

theorem hexValue_lt (c : Char) (v : UInt8) (h : hexValue? c = some v) : v < 16 := by
  have hle : ∀ {a b : Char}, a ≤ b ↔ a.toNat ≤ b.toNat := fun {a b} => by
    rw [Char.le_def, UInt32.le_iff_toNat_le]
    rfl
  unfold hexValue? at h
  simp only [hle] at h
  rw [UInt8.lt_iff_toNat_lt]
  show v.toNat < 16
  split at h
  · next hc =>
    cases h
    rw [show '0'.toNat = 48 from rfl, show '9'.toNat = 57 from rfl] at *
    rw [Nat.toUInt8, UInt8.toNat_ofNat']
    omega
  split at h
  · next hc =>
    cases h
    rw [show 'a'.toNat = 97 from rfl, show 'f'.toNat = 102 from rfl] at *
    rw [Nat.toUInt8, UInt8.toNat_ofNat']
    omega
  split at h
  · next hc =>
    cases h
    rw [show 'A'.toNat = 65 from rfl, show 'F'.toNat = 70 from rfl] at *
    rw [Nat.toUInt8, UInt8.toNat_ofNat']
    omega
  · cases h

def isDigit (c : Char) : Bool := (hexValue? c).isSome

/-- The digit that counts at a place: all are digits up to it, and to the end of its pair. -/
def place (t : List Char) (i : Nat) : Nat :=
  if i / 2 * 2 + 2 ≤ t.length ∧ (t.take (i / 2 * 2 + 2)).all isDigit then digit hexValue? (t.getD i '0') else 0

theorem place_lt (t : List Char) (i : Nat) : place t i < 16 := by
  unfold place
  split
  · exact digit_lt hexValue_lt _
  · decide

theorem place_of_short {t : List Char} (h : t.length < 2) (i : Nat) : place t i = 0 := if_neg fun ⟨hle, _⟩ => by omega

theorem place_of_bad {hi lo : Char} (h : ¬(isDigit hi ∧ isDigit lo)) (rest : List Char) (i : Nat) :
    place (hi :: lo :: rest) i = 0 := by
  refine if_neg fun ⟨_, hall⟩ => h ?_
  simp only [List.take_succ_cons, List.all_cons, Bool.and_eq_true] at hall
  exact ⟨hall.1, hall.2.1⟩

theorem place_first {hi lo : Char} (hhi : isDigit hi) (hlo : isDigit lo) (rest : List Char) :
    place (hi :: lo :: rest) 0 = digit hexValue? hi ∧ place (hi :: lo :: rest) 1 = digit hexValue? lo := by
  constructor <;> exact if_pos ⟨by simp, by simp [hhi, hlo]⟩

theorem place_next {hi lo : Char} (hhi : isDigit hi) (hlo : isDigit lo) (rest : List Char) (i : Nat) :
    place (hi :: lo :: rest) (i + 2) = place rest i := by
  have hpair : (i + 2) / 2 * 2 + 2 = i / 2 * 2 + 2 + 1 + 1 := by omega
  unfold place
  rw [hpair]
  simp only [List.length_cons, List.take_succ_cons, List.all_cons, hhi, hlo, Bool.true_and, Nat.add_le_add_iff_right,
    List.getD_cons_succ]

/-- The bytes of a text are its digits that count. -/
theorem decodeToSlice_eq (n : Nat) (t : List Char) :
    decodeToSlice n t = (List.range n).map fun i => UInt8.ofNat (place t (2 * i) * 16 + place t (2 * i + 1)) := by
  have hblank : ∀ (n : Nat) (t : List Char), (∀ i, place t i = 0) → List.replicate n (0 : UInt8) =
      (List.range n).map fun i => UInt8.ofNat (place t (2 * i) * 16 + place t (2 * i + 1)) := by
    intro n t h
    simp only [h]
    exact (List.map_const' ..).symm ▸ by simp
  induction n generalizing t with
  | zero =>
    unfold decodeToSlice
    rfl
  | succ n ih =>
    match t with
    | [] => exact hblank _ _ (place_of_short (by decide))
    | [_] => exact hblank _ _ (place_of_short (by simp))
    | hi :: lo :: rest =>
      unfold decodeToSlice
      split
      · next a b ha hb =>
        have hhi : isDigit hi := by rw [isDigit, ha]; rfl
        have hlo : isDigit lo := by rw [isDigit, hb]; rfl
        obtain ⟨h0, h1⟩ := place_first hhi hlo rest
        have hbyte : UInt8.ofNat (digit hexValue? hi * 16 + digit hexValue? lo) = a * 16 + b := by
          rw [digit, digit, ha, hb, Option.getD_some, Option.getD_some, UInt8.ofNat_add, UInt8.ofNat_mul, UInt8.ofNat_toNat,
            UInt8.ofNat_toNat]
          rfl
        rw [List.range_succ_eq_map, List.map_cons, List.map_map, ih]
        refine congrArg₂ _ ?_ (List.map_congr_left fun i _ => ?_)
        · rw [Nat.mul_zero, h0, h1, hbyte]
        · show _ = UInt8.ofNat (place (hi :: lo :: rest) (2 * i + 2) * 16 + place (hi :: lo :: rest) (2 * i + 1 + 2))
          rw [place_next hhi hlo, place_next hhi hlo]
      · next hbad =>
        refine hblank _ _ (place_of_bad (fun ⟨hhi, hlo⟩ => ?_) rest)
        obtain ⟨a, ha⟩ := Option.isSome_iff_exists.1 hhi
        obtain ⟨b, hb⟩ := Option.isSome_iff_exists.1 hlo
        exact hbad a b ha hb

/-- Two texts make the same bytes if and only if the same digits count. -/
theorem decodeToSlice_inj {n : Nat} {t t' : List Char} :
    decodeToSlice n t = decodeToSlice n t' ↔ ∀ i < 2 * n, place t i = place t' i := by
  rw [decodeToSlice_eq, decodeToSlice_eq]
  refine ⟨fun h i hi => ?_, fun h => List.map_congr_left fun i hi => ?_⟩
  · have hbyte := List.map_inj_left.1 h (i / 2) (List.mem_range.2 (by omega))
    have hnat := congrArg UInt8.toNat hbyte
    have h0 := place_lt t (2 * (i / 2))
    have h1 := place_lt t (2 * (i / 2) + 1)
    have h0' := place_lt t' (2 * (i / 2))
    have h1' := place_lt t' (2 * (i / 2) + 1)
    rw [UInt8.toNat_ofNat', UInt8.toNat_ofNat'] at hnat
    rcases Nat.mod_two_eq_zero_or_one i with hmod | hmod
    · rw [show i = 2 * (i / 2) by omega]
      omega
    · rw [show i = 2 * (i / 2) + 1 by omega]
      omega
  · have hi := List.mem_range.1 hi
    rw [h _ (by omega), h _ (by omega)]

/-! ## Cuts -/

def byteLength (t : List Char) : Nat := (t.map Char.utf8Size).sum

/-- A text can be cut where a character ends. -/
theorem sliceTo_isSome {n : Nat} {t : List Char} : (sliceTo n t).isSome ↔ ∃ k, byteLength (t.take k) = n := by
  induction t generalizing n with
  | nil =>
    cases n with
    | zero => exact ⟨fun _ => ⟨0, rfl⟩, fun _ => rfl⟩
    | succ n => simp [sliceTo, byteLength]
  | cons c rest ih =>
    cases n with
    | zero => exact ⟨fun _ => ⟨0, rfl⟩, fun _ => rfl⟩
    | succ n =>
      have hstep : ∀ k, byteLength ((c :: rest).take (k + 1)) = c.utf8Size + byteLength (rest.take k) := fun _ => rfl
      have hpos := c.utf8Size_pos
      rw [sliceTo]
      split
      · next hfits =>
        rw [Option.isSome_map, ih]
        constructor
        · rintro ⟨k, hk⟩
          refine ⟨k + 1, ?_⟩
          rw [hstep, hk]
          omega
        · rintro ⟨k, hk⟩
          cases k with
          | zero => simp [byteLength] at hk
          | succ k =>
            refine ⟨k, ?_⟩
            rw [hstep] at hk
            omega
      · next hfits =>
        refine iff_of_false (by simp) ?_
        rintro ⟨k, hk⟩
        cases k with
        | zero => simp [byteLength] at hk
        | succ k =>
          rw [hstep] at hk
          omega

/-- Where every character is a byte, the first bytes are the first characters. -/
theorem sliceTo_of_single {n : Nat} {t : List Char} (h : ∀ c ∈ t, c.utf8Size = 1) (hn : n ≤ t.length) :
    sliceTo n t = some (t.take n) := by
  induction t generalizing n with
  | nil =>
    obtain rfl := Nat.le_zero.1 hn
    rfl
  | cons c rest ih =>
    cases n with
    | zero => rfl
    | succ n =>
      have hrest := ih (n := n) (fun c' hc' => h c' (List.mem_cons_of_mem c hc')) (Nat.le_of_succ_le_succ hn)
      rw [sliceTo, h c List.mem_cons_self, if_pos (Nat.le_add_left 1 n), Nat.add_sub_cancel, hrest]
      rfl

theorem digit_small {c : Char} (h : isDigit c) : c.toNat < 128 := by
  have hle : ∀ {a b : Char}, a ≤ b ↔ a.toNat ≤ b.toNat := fun {a b} => by
    rw [Char.le_def, UInt32.le_iff_toNat_le]
    rfl
  unfold isDigit hexValue? at h
  simp only [hle] at h
  split at h
  · next hc => exact hc.2.trans_lt (by decide)
  split at h
  · next hc => exact hc.2.trans_lt (by decide)
  split at h
  · next hc => exact hc.2.trans_lt (by decide)
  · cases h

theorem digit_single {c : Char} (h : isDigit c) : c.utf8Size = 1 :=
  Char.utf8Size_eq_one_iff.2 (UInt32.le_iff_toNat_le.2 (Nat.le_of_lt_succ (digit_small h)))

/-! ## Texts -/

/-- A parameter that is read for `n` bytes is not cut inside of a character. -/
def Cuttable (n : Nat) (s : String) : Prop := ∃ k, byteLength ((padLeft (n * 2) (clean s)).take k) = n * 2

/-- What is read of it then. -/
def cut (n : Nat) (s : String) : List Char := (sliceTo (n * 2) (padLeft (n * 2) (clean s))).getD []

/-- Some digit that counts differs. -/
def Differs (n : Nat) (s s' : String) : Prop := ∃ i < 2 * n, place (cut n s) i ≠ place (cut n s') i

theorem decodeHexPadded_eq {n : Nat} {s : String} (h : Cuttable n s) :
    decodeHexPadded n s = some (decodeToSlice n (cut n s)) := by
  obtain ⟨t, ht⟩ := Option.isSome_iff_exists.1 (sliceTo_isSome.2 h)
  rw [decodeHexPadded, cut, ht]
  rfl

theorem decodeHexPadded_eq_none {n : Nat} {s : String} (h : ¬Cuttable n s) : decodeHexPadded n s = none := by
  rw [decodeHexPadded, Option.map_eq_none_iff]
  exact Option.not_isSome_iff_eq_none.1 fun hsome => h (sliceTo_isSome.1 hsome)

theorem decoded_inj {n : Nat} {s s' : String} :
    decodeToSlice n (cut n s) = decodeToSlice n (cut n s') ↔ ¬Differs n s s' := by
  rw [decodeToSlice_inj, Differs]
  simp only [not_exists, not_and, not_not]

theorem not_differs_self (n : Nat) (s : String) : ¬Differs n s s := fun ⟨_, _, hne⟩ => hne rfl

/-- A text without its prefix, if it has one. -/
def body (s : String) : List Char :=
  match s.toList with
  | '0' :: 'x' :: ds => ds
  | ds => ds

/-- A text of digits, with a prefix or without. -/
def isHex (s : String) : Bool := (body s).all isDigit

/-- The number a text of digits stands for. -/
def hexNumber (s : String) : Nat := number hexValue? (body s)

theorem trimStart0x_digits {ds : List Char} (h : ds.all isDigit) : trimStart0x ds = ds := by
  unfold trimStart0x
  split
  · simp only [List.all_cons, Bool.and_eq_true] at h
    exact absurd h.2.1 (by decide)
  · rfl

theorem clean_of_isHex {s : String} (h : isHex s) : clean s = body s := by
  unfold isHex at h
  unfold clean
  unfold body at h ⊢
  split at h
  · next ds hs =>
    rw [hs, trimStart0x]
    exact trimStart0x_digits h
  · exact trimStart0x_digits h

theorem zero_isDigit : isDigit '0' := by decide

theorem all_padLeft {w : Nat} {t : List Char} (h : t.all isDigit) : (padLeft w t).all isDigit := by
  rw [padLeft, List.all_append, h, Bool.and_true]
  refine List.all_eq_true.2 fun c hc => ?_
  rw [List.eq_of_mem_replicate hc]
  exact zero_isDigit

/-- A text of digits is cut as a list. -/
theorem sliceTo_of_isHex {n : Nat} {s : String} (h : isHex s) :
    sliceTo (n * 2) (padLeft (n * 2) (clean s)) = some ((padLeft (n * 2) (body s)).take (n * 2)) := by
  have hall : (padLeft (n * 2) (body s)).all isDigit := all_padLeft h
  rw [clean_of_isHex h, sliceTo_of_single fun c hc => digit_single (List.all_eq_true.1 hall c hc)]
  rw [padLeft, List.length_append, List.length_replicate]
  omega

theorem cuttable_of_isHex {n : Nat} {s : String} (h : isHex s) : Cuttable n s := by
  refine sliceTo_isSome.1 ?_
  rw [sliceTo_of_isHex h]
  rfl

theorem cut_of_isHex {n : Nat} {s : String} (h : isHex s) : cut n s = (padLeft (n * 2) (body s)).take (n * 2) := by
  rw [cut, sliceTo_of_isHex h, Option.getD_some]

theorem all_cut {n : Nat} {s : String} (h : isHex s) : (cut n s).all isDigit := by
  rw [cut_of_isHex h]
  refine List.all_eq_true.2 fun c hc => ?_
  exact List.all_eq_true.1 (all_padLeft h) c (List.take_subset _ _ hc)

/-- Where all are digits all count. -/
theorem place_of_all {t : List Char} (h : t.all isDigit) (i : Nat) :
    place t i = if i / 2 * 2 + 2 ≤ t.length then digit hexValue? (t.getD i '0') else 0 := by
  have htake : (t.take (i / 2 * 2 + 2)).all isDigit :=
    List.all_eq_true.2 fun c hc => List.all_eq_true.1 h c (List.take_subset _ _ hc)
  simp only [place, htake, and_true]

/-- The same digits make the same key. -/
theorem place_congr {t t' : List Char} (h : t.all isDigit) (h' : t'.all isDigit)
    (hd : t.map (digit hexValue?) = t'.map (digit hexValue?)) (i : Nat) : place t i = place t' i := by
  have hlen : t.length = t'.length := by simpa using congrArg List.length hd
  have hget : digit hexValue? (t.getD i '0') = digit hexValue? (t'.getD i '0') := by
    have hmap : ∀ l : List Char, digit hexValue? (l.getD i '0') = (l.map (digit hexValue?)).getD i (digit hexValue? '0') :=
      fun l => (List.getD_map ..).symm
    rw [hmap, hmap, hd]
  rw [place_of_all h, place_of_all h', hlen, hget]

/-- Digits that differ nowhere are the same. -/
theorem digits_of_place {n : Nat} {t t' : List Char} (h : t.all isDigit) (h' : t'.all isDigit) (hlen : t.length = 2 * n)
    (hlen' : t'.length = 2 * n) (hp : ∀ i < 2 * n, place t i = place t' i) :
    t.map (digit hexValue?) = t'.map (digit hexValue?) := by
  refine List.ext_getElem (by simp [hlen, hlen']) fun i hi hi' => ?_
  rw [List.length_map] at hi hi'
  have hplace := hp i (by omega)
  rw [place_of_all h, place_of_all h', if_pos (by omega), if_pos (by omega), List.getD_eq_getElem _ _ hi,
    List.getD_eq_getElem _ _ hi'] at hplace
  rw [List.getElem_map, List.getElem_map, hplace]

theorem cut_of_fits {n : Nat} {s : String} (h : isHex s) (hfits : (body s).length ≤ n * 2) :
    cut n s = List.replicate (n * 2 - (body s).length) '0' ++ body s := by
  rw [cut_of_isHex h, padLeft, List.take_of_length_le]
  rw [List.length_append, List.length_replicate]
  omega

/-- Numbers that fit make one key if and only if they are equal. -/
theorem differs_iff {n : Nat} {s s' : String} (h : isHex s) (h' : isHex s') (hfits : (body s).length ≤ n * 2)
    (hfits' : (body s').length ≤ n * 2) : Differs n s s' ↔ hexNumber s ≠ hexNumber s' := by
  have hlen : (cut n s).length = 2 * n := by
    rw [cut_of_fits h hfits, List.length_append, List.length_replicate]
    omega
  have hlen' : (cut n s').length = 2 * n := by
    rw [cut_of_fits h' hfits', List.length_append, List.length_replicate]
    omega
  have hnumber : number hexValue? (cut n s) = hexNumber s := by
    rw [cut_of_fits h hfits]
    exact number_replicate_append rfl _ _
  have hnumber' : number hexValue? (cut n s') = hexNumber s' := by
    rw [cut_of_fits h' hfits']
    exact number_replicate_append rfl _ _
  refine ⟨fun ⟨i, _, hne⟩ heq => hne ?_, fun hne => ?_⟩
  · rw [← hnumber, ← hnumber'] at heq
    exact place_congr (all_cut h) (all_cut h') (digits_of_number hexValue_lt (hlen.trans hlen'.symm) heq) i
  · by_contra hsame
    simp only [Differs, not_exists, not_and, not_not] at hsame
    refine hne ?_
    rw [← hnumber, ← hnumber']
    exact number_congr (digits_of_place (all_cut h) (all_cut h') hlen hlen' hsame)

/-- One number in as many digits makes one key, however long. -/
theorem not_differs_of_number {n : Nat} {s s' : String} (h : isHex s) (h' : isHex s')
    (hlen : (body s).length = (body s').length) (hnumber : hexNumber s = hexNumber s') : ¬Differs n s s' := by
  rintro ⟨i, -, hne⟩
  refine hne (place_congr (all_cut h) (all_cut h') ?_ i)
  have hd := digits_of_number hexValue_lt hlen hnumber
  rw [cut_of_isHex h, cut_of_isHex h', padLeft, padLeft, hlen, List.map_take, List.map_take, List.map_append,
    List.map_append, hd]

/-! ## Names -/

/-- What a parameter names: a number, a hash, or only itself, as a tag does. -/
inductive Name where
  | number (n : Nat)
  | hash (n : Nat)
  | text (s : String)
  deriving DecidableEq

/-- Forty digits. -/
def addressName (s : String) : Name := if isHex s ∧ (body s).length = 40 then .number (hexNumber s) else .text s

/-- Up to 64 digits. -/
def slotName (s : String) : Name :=
  if isHex s ∧ 1 ≤ (body s).length ∧ (body s).length ≤ 64 then .number (hexNumber s) else .text s

/-- Up to 16 digits are a number, and 64 are a hash. -/
def blockName (s : String) : Name :=
  if isHex s ∧ 1 ≤ (body s).length ∧ (body s).length ≤ 16 then .number (hexNumber s)
  else if isHex s ∧ (body s).length = 64 then .hash (hexNumber s)
  else .text s

theorem addressName_differs {a a' : String} (h : addressName a = addressName a') (n : Nat) : ¬Differs n a a' := by
  unfold addressName at h
  split at h
  · next ha =>
    split at h
    · next ha' => exact not_differs_of_number ha.1 ha'.1 (ha.2.trans ha'.2.symm) (Name.number.inj h)
    · cases h
  · split at h
    · cases h
    · rw [Name.text.inj h]
      exact not_differs_self n a'

theorem slotName_differs {s s' : String} (h : slotName s = slotName s') : ¬Differs 32 s s' := by
  unfold slotName at h
  split at h
  · next hs =>
    split at h
    · next hs' => exact fun hd => (differs_iff hs.1 hs'.1 hs.2.2 hs'.2.2).1 hd (Name.number.inj h)
    · cases h
  · split at h
    · cases h
    · rw [Name.text.inj h]
      exact not_differs_self 32 s'

theorem blockName_differs {b b' : String} (h : blockName b = blockName b') : ¬Differs 8 b b' := by
  unfold blockName at h
  split at h
  · next hb =>
    split at h
    · next hb' => exact fun hd => (differs_iff hb.1 hb'.1 hb.2.2 hb'.2.2).1 hd (Name.number.inj h)
    · split at h <;> cases h
  · split at h
    · next hb =>
      split at h
      · cases h
      · split at h
        · next hb' => exact not_differs_of_number hb.1 hb'.1 (hb.2.trans hb'.2.symm) (Name.hash.inj h)
        · cases h
    · split at h
      · cases h
      · split at h
        · cases h
        · rw [Name.text.inj h]
          exact not_differs_self 8 b'

/-! ## Letters -/

/-- A digit in lower case is the one its value is written with. -/
theorem toLower_digit {c : Char} (h : isDigit c) : c.toLower = hexDigit (UInt8.ofNat (digit hexValue? c)) := by
  have hall : ∀ k < 128, isDigit (Char.ofNat k) →
      (Char.ofNat k).toLower = hexDigit (UInt8.ofNat (digit hexValue? (Char.ofNat k))) := by decide
  have hc := hall c.toNat (digit_small h)
  rw [Char.ofNat_toNat] at hc
  exact hc h

section

variable [Lowercase]

theorem normalizeHex_of_isHex {s : String} (h : isHex s) : normalizeHex s = .ofList ((body s).map Char.toLower) := by
  rw [normalizeHex, clean_of_isHex h, Lowercase.ascii _ fun c hc => digit_small (List.all_eq_true.1 h c hc)]

/-- One number in as many digits is one text in lower case. -/
theorem normalizeHex_congr {s s' : String} (h : isHex s) (h' : isHex s') (hlen : (body s).length = (body s').length)
    (hnumber : hexNumber s = hexNumber s') : normalizeHex s = normalizeHex s' := by
  have hmap : ∀ {t : List Char}, t.all isDigit →
      t.map Char.toLower = (t.map (digit hexValue?)).map fun n => hexDigit (UInt8.ofNat n) := by
    intro t ht
    rw [List.map_map]
    exact List.map_congr_left fun c hc => toLower_digit (List.all_eq_true.1 ht c hc)
  rw [normalizeHex_of_isHex h, normalizeHex_of_isHex h', hmap h, hmap h', digits_of_number hexValue_lt hlen hnumber]

theorem hexNumber_of_normalized {s s' : String} (h : isHex s) (h' : isHex s') (hn : normalizeHex s = normalizeHex s') :
    hexNumber s = hexNumber s' := by
  have hdigit : ∀ d < 16, digit hexValue? (hexDigit (UInt8.ofNat d)) = d := by decide
  have hmap : ∀ {t : List Char}, t.all isDigit → (t.map Char.toLower).map (digit hexValue?) = t.map (digit hexValue?) := by
    intro t ht
    rw [List.map_map]
    refine List.map_congr_left fun c hc => ?_
    show digit hexValue? c.toLower = _
    rw [toLower_digit (List.all_eq_true.1 ht c hc), hdigit _ (digit_lt hexValue_lt c)]
  have htext : (body s).map Char.toLower = (body s').map Char.toLower := by
    rw [normalizeHex_of_isHex h, normalizeHex_of_isHex h'] at hn
    exact String.ofList_injective hn
  refine number_congr ?_
  rw [← hmap h, htext, hmap h']

theorem addressName_normalized {a a' : String} (h : addressName a = addressName a') : normalizeHex a = normalizeHex a' := by
  unfold addressName at h
  split at h
  · next ha =>
    split at h
    · next ha' => exact normalizeHex_congr ha.1 ha'.1 (ha.2.trans ha'.2.symm) (Name.number.inj h)
    · cases h
  · split at h
    · cases h
    · rw [Name.text.inj h]

end

/-! ## Requests -/

/-- The methods whose entries are kept by block. -/
def keyedMethods : List String := ["eth_getStorageAt", "eth_getBalance", "eth_getTransactionCount"]

/-- The tags whose block changes. -/
def movingTags : List String := ["latest", "pending", "safe", "finalized"]

def Query.blockText : Query → String
  | .storageAt _ _ block | .balance _ block | .transactionCount _ block => block
  | _ => ""

/-- The same address, slot and block. -/
def SameNames : Query → Query → Prop
  | .storageAt a s b, .storageAt a' s' b' =>
    addressName a = addressName a' ∧ slotName s = slotName s' ∧ blockName b = blockName b'
  | .balance a b, .balance a' b' | .transactionCount a b, .transactionCount a' b' =>
    addressName a = addressName a' ∧ blockName b = blockName b'
  | _, _ => False

/-- No text of the key is cut inside of a character. -/
def HasKey : Query → Prop
  | .storageAt _ s b => Cuttable 32 s ∧ Cuttable 8 b
  | .balance a b | .transactionCount a b => Cuttable 20 a ∧ Cuttable 8 b
  | _ => True

/-- The texts differ where they count; of the address of a slot the whole text does, in lower
    case. -/
def ToldApart [Lowercase] : Query → Query → Prop
  | .storageAt a s b, .storageAt a' s' b' => normalizeHex a ≠ normalizeHex a' ∨ Differs 32 s s' ∨ Differs 8 b b'
  | .balance a b, .balance a' b' | .transactionCount a b, .transactionCount a' b' => Differs 20 a a' ∨ Differs 8 b b'
  | _, _ => False

/-- An address of 40 digits, a slot of up to 64 and a block number of up to 16. -/
def Plain : Query → Prop
  | .storageAt a s b => (isHex a ∧ (body a).length = 40) ∧ (isHex s ∧ 1 ≤ (body s).length ∧ (body s).length ≤ 64) ∧
    isHex b ∧ 1 ≤ (body b).length ∧ (body b).length ≤ 16
  | .balance a b | .transactionCount a b => (isHex a ∧ (body a).length = 40) ∧
    isHex b ∧ 1 ≤ (body b).length ∧ (body b).length ≤ 16
  | _ => False

section

variable [Serde] [Lowercase]

/-- A cache that the answers to any requests have filled. -/
inductive Stocked : Cache → Prop
  | empty : Stocked {}
  | stored {c c' : Cache} (h : Stocked c) (q : Query) (result : Value) (put : q.onResult result c = some c') : Stocked c'

/-- One entry for two requests if and only if they are for the same thing, and no answer from the
    cache to one for a moving tag. -/
structure KeptApart (q₁ q₂ : Query) : Prop where
  keys : (∃ p, q₁.place = some p ∧ q₂.place = some p) ↔ SameNames q₁ q₂
  first : q₁.blockText ∈ movingTags → ∀ c, Stocked c → (q₁.lookup c).join = none
  second : q₂.blockText ∈ movingTags → ∀ c, Stocked c → (q₂.lookup c).join = none

/-- The queries of the keyed methods. -/
inductive Keyed : Query → Query → Prop
  | storage (a s b a' s' b' : String) : Keyed (.storageAt a s b) (.storageAt a' s' b')
  | balance (a b a' b' : String) : Keyed (.balance a b) (.balance a' b')
  | count (a b a' b' : String) : Keyed (.transactionCount a b) (.transactionCount a' b')

variable {q₁ q₂ : Query}

omit [Serde]

omit [Lowercase] in
/-- Two parameters make a key together if both can be cut. -/
theorem pair_eq_some {n m : Nat} {s b : String} {key : Bytes} :
    (do return (← decodeHexPadded n s) ++ (← decodeHexPadded m b) : Option Bytes) = some key ↔
      (Cuttable n s ∧ Cuttable m b) ∧ decodeToSlice n (cut n s) ++ decodeToSlice m (cut m b) = key := by
  by_cases hs : Cuttable n s
  · by_cases hb : Cuttable m b
    · simp [decodeHexPadded_eq hs, decodeHexPadded_eq hb, hs, hb]
    · simp [decodeHexPadded_eq hs, decodeHexPadded_eq_none hb, hb]
  · simp [decodeHexPadded_eq_none hs, hs]

omit [Lowercase] in
theorem pair_inj {n m : Nat} {s s' b b' : String} :
    decodeToSlice n (cut n s) ++ decodeToSlice m (cut m b) = decodeToSlice n (cut n s') ++ decodeToSlice m (cut m b') ↔
      ¬Differs n s s' ∧ ¬Differs m b b' := by
  have hlen : ∀ t, (decodeToSlice n t).length = n := fun t => by
    rw [decodeToSlice_eq, List.length_map, List.length_range]
  rw [← decoded_inj, ← decoded_inj]
  refine ⟨fun h => List.append_inj h ((hlen _).trans (hlen _).symm), fun h => ?_⟩
  rw [h.1, h.2]

omit [Lowercase] in
/-- Two keys of two parameters each are one. -/
theorem pair_shared {n m : Nat} {s s' b b' : String} :
    (∃ key, (do return (← decodeHexPadded n s) ++ (← decodeHexPadded m b) : Option Bytes) = some key ∧
      (do return (← decodeHexPadded n s') ++ (← decodeHexPadded m b') : Option Bytes) = some key) ↔
      (Cuttable n s ∧ Cuttable m b) ∧ (Cuttable n s' ∧ Cuttable m b') ∧ ¬Differs n s s' ∧ ¬Differs m b b' := by
  simp only [pair_eq_some]
  constructor
  · rintro ⟨key, ⟨h, rfl⟩, h', hkey⟩
    exact ⟨h, h', pair_inj.1 hkey.symm⟩
  · rintro ⟨h, h', hsame⟩
    exact ⟨_, ⟨h, rfl⟩, h', (pair_inj.2 hsame).symm⟩

theorem hasKey_iff (q : Query) : HasKey q ↔ ∃ p, q.place = some p := by
  have hpair : ∀ {n m : Nat} {s b : String} {f : Bytes → Place} {key : Option Bytes},
      key = (do return (← decodeHexPadded n s) ++ (← decodeHexPadded m b) : Option Bytes) →
      (Cuttable n s ∧ Cuttable m b ↔ ∃ p, key.map f = some p) := by
    rintro n m s b f _ rfl
    simp only [Option.map_eq_some_iff, pair_eq_some]
    constructor
    · exact fun h => ⟨_, _, ⟨h, rfl⟩, rfl⟩
    · rintro ⟨_, _, ⟨h, -⟩, -⟩
      exact h
  cases q with
  | storageAt => exact hpair rfl
  | balance => exact hpair rfl
  | transactionCount => exact hpair rfl
  | _ => exact iff_of_true trivial ⟨_, rfl⟩

/-- One key is no difference that counts. -/
theorem place_eq_iff (h : Keyed q₁ q₂) : (∃ p, q₁.place = some p ∧ q₂.place = some p) ↔
    HasKey q₁ ∧ HasKey q₂ ∧ ¬ToldApart q₁ q₂ := by
  have hshared : ∀ {key key' : Option Bytes} {f f' : Bytes → Place}, f.Injective → f = f' →
      ((∃ p, key.map f = some p ∧ key'.map f' = some p) ↔ ∃ k, key = some k ∧ key' = some k) := by
    rintro key key' f _ hf rfl
    constructor
    · rintro ⟨_, hkey, hkey'⟩
      obtain ⟨k, hk, rfl⟩ := Option.map_eq_some_iff.1 hkey
      obtain ⟨k', hk', hsame⟩ := Option.map_eq_some_iff.1 hkey'
      rw [hf hsame] at hk'
      exact ⟨k, hk, hk'⟩
    · rintro ⟨k, rfl, rfl⟩
      exact ⟨f k, rfl, rfl⟩
  cases h with
  | storage a s b a' s' b' =>
    by_cases haddress : normalizeHex a = normalizeHex a'
    · have hinj : (Place.storage (normalizeHex a)).Injective := fun _ _ h => (Place.storage.inj h).2
      refine (hshared hinj (by rw [haddress])).trans (pair_shared.trans ?_)
      simp only [HasKey, ToldApart, haddress, ne_eq, not_true_eq_false, false_or, not_or]
    · refine iff_of_false ?_ fun h => h.2.2 (.inl haddress)
      rintro ⟨_, hplace, hplace'⟩
      obtain ⟨k, -, rfl⟩ := Option.map_eq_some_iff.1 hplace
      obtain ⟨k', -, hsame⟩ := Option.map_eq_some_iff.1 hplace'
      exact haddress (Place.storage.inj hsame).1.symm
  | balance a b a' b' =>
    refine (hshared (fun _ _ h => Place.balance.inj h) rfl).trans (pair_shared.trans ?_)
    simp only [HasKey, ToldApart, not_or]
  | count a b a' b' =>
    refine (hshared (fun _ _ h => Place.nonce.inj h) rfl).trans (pair_shared.trans ?_)
    simp only [HasKey, ToldApart, not_or]

/-- What has one name has one key. -/
theorem not_toldApart_of_same (h : SameNames q₁ q₂) : ¬ToldApart q₁ q₂ := by
  unfold SameNames at h
  split at h
  · exact not_or.2 ⟨not_not.2 (addressName_normalized h.1), not_or.2 ⟨slotName_differs h.2.1, blockName_differs h.2.2⟩⟩
  · exact not_or.2 ⟨addressName_differs h.1 20, blockName_differs h.2⟩
  · exact not_or.2 ⟨addressName_differs h.1 20, blockName_differs h.2⟩
  · exact h.elim

omit [Lowercase] in
/-- Plain requests have a key. -/
theorem plain_hasKey {q : Query} (h : Plain q) : HasKey q := by
  cases q with
  | storageAt => exact ⟨cuttable_of_isHex h.2.1.1, cuttable_of_isHex h.2.2.1⟩
  | balance | transactionCount => exact ⟨cuttable_of_isHex h.1.1, cuttable_of_isHex h.2.1⟩
  | _ => exact h.elim

/-- Plain requests that do not name the same things are told apart. -/
theorem plain_told_apart (h : Keyed q₁ q₂) (h₁ : Plain q₁) (h₂ : Plain q₂) : SameNames q₁ q₂ ∨ ToldApart q₁ q₂ := by
  have haddress : ∀ {a a' : String}, (isHex a ∧ (body a).length = 40) → (isHex a' ∧ (body a').length = 40) →
      ¬Differs 20 a a' → addressName a = addressName a' := by
    intro a a' ha ha' hd
    rw [addressName, addressName, if_pos ha, if_pos ha',
      not_not.1 (mt (differs_iff ha.1 ha'.1 ha.2.le ha'.2.le).2 hd)]
  have hslot : ∀ {s s' : String}, (isHex s ∧ 1 ≤ (body s).length ∧ (body s).length ≤ 64) →
      (isHex s' ∧ 1 ≤ (body s').length ∧ (body s').length ≤ 64) → ¬Differs 32 s s' → slotName s = slotName s' := by
    intro s s' hs hs' hd
    rw [slotName, slotName, if_pos hs, if_pos hs', not_not.1 (mt (differs_iff hs.1 hs'.1 hs.2.2 hs'.2.2).2 hd)]
  have hblock : ∀ {b b' : String}, (isHex b ∧ 1 ≤ (body b).length ∧ (body b).length ≤ 16) →
      (isHex b' ∧ 1 ≤ (body b').length ∧ (body b').length ≤ 16) → ¬Differs 8 b b' → blockName b = blockName b' := by
    intro b b' hb hb' hd
    rw [blockName, blockName, if_pos hb, if_pos hb', not_not.1 (mt (differs_iff hb.1 hb'.1 hb.2.2 hb'.2.2).2 hd)]
  refine or_iff_not_imp_right.2 fun hnot => ?_
  cases h with
  | storage a s b a' s' b' =>
    obtain ⟨ha, hs, hb⟩ := not_or.1 hnot |>.imp_right not_or.1
    refine ⟨?_, hslot h₁.2.1 h₂.2.1 hs, hblock h₁.2.2 h₂.2.2 hb⟩
    rw [addressName, addressName, if_pos h₁.1, if_pos h₂.1, hexNumber_of_normalized h₁.1.1 h₂.1.1 (not_not.1 ha)]
  | balance a b a' b' =>
    obtain ⟨ha, hb⟩ := not_or.1 hnot
    exact ⟨haddress h₁.1 h₂.1 ha, hblock h₁.2 h₂.2 hb⟩
  | count a b a' b' =>
    obtain ⟨ha, hb⟩ := not_or.1 hnot
    exact ⟨haddress h₁.1 h₂.1 ha, hblock h₁.2 h₂.2 hb⟩

omit [Lowercase] in
/-- Two requests of one of the methods ask for the same kind of thing. -/
theorem keyed_of_method {state : AppState} {r₁ r₂ : Request} (h₁ : state.cached? r₁ = some q₁)
    (h₂ : state.cached? r₂ = some q₂) (hmethod : r₁.method = r₂.method) (hkeyed : r₁.method ∈ keyedMethods) :
    Keyed q₁ q₂ := by
  have hquery : ∀ {r : Request} {q : Query}, state.cached? r = some q → query? r.method r.params = some q := by
    intro r q h
    unfold AppState.cached? at h
    split at h
    · exact h
    · cases h
  have h₁ := hquery h₁
  have h₂ := hquery h₂
  rw [← hmethod] at h₂
  simp only [keyedMethods, List.mem_cons, List.not_mem_nil, or_false] at hkeyed
  rcases hkeyed with h | h | h <;> rw [h] at h₁ h₂ <;>
    simp only [query?, bind, Option.bind_eq_some_iff, pure, Option.some.injEq] at h₁ h₂
  · obtain ⟨a, -, s, -, b, -, rfl⟩ := h₁
    obtain ⟨a', -, s', -, b', -, rfl⟩ := h₂
    exact .storage ..
  · obtain ⟨a, -, b, -, rfl⟩ := h₁
    obtain ⟨a', -, b', -, rfl⟩ := h₂
    exact .balance ..
  · obtain ⟨a, -, b, -, rfl⟩ := h₁
    obtain ⟨a', -, b', -, rfl⟩ := h₂
    exact .count ..

end

section

variable [Serde] [Lowercase] {q₁ q₂ : Query}

/-- What was stored for a request is found by it. -/
theorem lookup_stored {q : Query} (h : Keyed q q) (hkey : HasKey q) : ∃ c, Stocked c ∧ (q.lookup c).join ≠ none := by
  obtain ⟨p, hp⟩ := (hasKey_iff q).1 hkey
  have hstorable : q.storable (.string "0x1") := by
    cases h with
    | storage =>
      have hcut : Cuttable 32 "0x1" := cuttable_of_isHex (by decide +kernel)
      rw [Query.storable, Value.asStr, Option.getD_some, pad32, decodeHexPadded_eq hcut]
      rfl
    | _ => rfl
  obtain ⟨c, hc⟩ := exists_onResult hp hstorable {}
  refine ⟨c, .stored .empty q _ hc, ?_⟩
  rw [lookup_eq, hp, Option.map_some, Option.join_some]
  cases h with
  | storage =>
    obtain ⟨key, word, hkey, -, rfl⟩ := putStorageAt_eq hc
    rw [Query.place, hkey] at hp
    cases hp
    simp [Cache.at]
  | balance =>
    obtain ⟨key, hkey, rfl⟩ := putBalance_eq hc
    rw [Query.place, hkey] at hp
    cases hp
    simp [Cache.at]
  | count =>
    obtain ⟨key, hkey, rfl⟩ := putTxCount_eq hc
    rw [Query.place, hkey] at hp
    cases hp
    simp [Cache.at]

/-- Two requests of one method that reach the cache are kept apart, and from the tags whose block
    changes, if and only if none with a key is for such a tag, they have keys if they name the
    same things, and with keys they name the same things or their texts differ where they count. -/
theorem cache_keys {state : AppState} {r₁ r₂ : Request} (h₁ : state.cached? r₁ = some q₁) (h₂ : state.cached? r₂ = some q₂)
    (hmethod : r₁.method = r₂.method) (hkeyed : r₁.method ∈ keyedMethods) :
    KeptApart q₁ q₂ ↔ (HasKey q₁ → q₁.blockText ∉ movingTags) ∧ (HasKey q₂ → q₂.blockText ∉ movingTags) ∧
      (SameNames q₁ q₂ → HasKey q₁ ∧ HasKey q₂) ∧ (HasKey q₁ → HasKey q₂ → SameNames q₁ q₂ ∨ ToldApart q₁ q₂) := by
  have hk := keyed_of_method h₁ h₂ hmethod hkeyed
  have hk₁ := keyed_of_method h₁ h₁ rfl hkeyed
  have hk₂ := keyed_of_method h₂ h₂ rfl (hmethod ▸ hkeyed)
  constructor
  · intro h
    have hkeys : HasKey q₁ ∧ HasKey q₂ ∧ ¬ToldApart q₁ q₂ ↔ SameNames q₁ q₂ := (place_eq_iff hk).symm.trans h.keys
    refine ⟨fun hkey hm => ?_, fun hkey hm => ?_, fun hsame => ?_, fun hkey₁ hkey₂ => ?_⟩
    · obtain ⟨c, hc, hfound⟩ := lookup_stored hk₁ hkey
      exact hfound (h.first hm c hc)
    · obtain ⟨c, hc, hfound⟩ := lookup_stored hk₂ hkey
      exact hfound (h.second hm c hc)
    · obtain ⟨hkey₁, hkey₂, -⟩ := hkeys.2 hsame
      exact ⟨hkey₁, hkey₂⟩
    · exact or_iff_not_imp_right.2 fun hnot => hkeys.1 ⟨hkey₁, hkey₂, hnot⟩
  · rintro ⟨htag₁, htag₂, hsame, htold⟩
    -- a request without a key ends before it could be answered from the cache
    have hnever : ∀ {q : Query}, (HasKey q → q.blockText ∉ movingTags) → q.blockText ∈ movingTags → ∀ c, Stocked c →
        (q.lookup c).join = none := by
      intro q htag hm c _
      have hnone : q.place = none := by
        by_contra hne
        exact htag ((hasKey_iff q).2 (Option.ne_none_iff_exists'.1 hne)) hm
      rw [lookup_eq, hnone]
      rfl
    refine ⟨(place_eq_iff hk).trans ⟨fun ⟨hkey₁, hkey₂, hnot⟩ => ?_, fun h => ?_⟩, hnever htag₁, hnever htag₂⟩
    · exact (htold hkey₁ hkey₂).resolve_right hnot
    · obtain ⟨hkey₁, hkey₂⟩ := hsame h
      exact ⟨hkey₁, hkey₂, not_toldApart_of_same h⟩

end

namespace Chain

def account : String := "0x00000000000000000000000000000000000000aa"

def balanceAt (block : String) : Request :=
  { method := "eth_getBalance", params := .array [.string account, .string block], id := .number "1" }

theorem plain_balance {block : String} (hblock : isHex block ∧ 1 ≤ (body block).length ∧ (body block).length ≤ 16) :
    Plain (.balance account block) :=
  ⟨by decide +kernel, hblock⟩

end Chain

open Chain in
/-- The balances at two blocks. -/
theorem cache_keys_blocks : KeptApart (.balance account "0x1") (.balance account "0x2") := by
  have h₁ : state.cached? (balanceAt "0x1") = some (.balance account "0x1") := rfl
  have h₂ : state.cached? (balanceAt "0x2") = some (.balance account "0x2") := rfl
  have hkey₁ : HasKey (.balance account "0x1") := plain_hasKey (plain_balance (by decide +kernel))
  have hkey₂ : HasKey (.balance account "0x2") := plain_hasKey (plain_balance (by decide +kernel))
  have hdiffers : Differs 8 "0x1" "0x2" := ⟨15, by decide, by decide +kernel⟩
  refine (cache_keys h₁ h₂ rfl (by decide)).2 ⟨fun _ => by decide, fun _ => by decide, fun _ => ⟨hkey₁,
    hkey₂⟩, fun _ _ => ?_⟩
  exact .inr (.inr hdiffers)

open Chain in
/-- The balance at the latest block has the entry of the balance at block 0. -/
theorem cache_keys_latest : state.cached? (balanceAt "latest") = some (.balance account "latest") ∧
    state.cached? (balanceAt "0x0") = some (.balance account "0x0") ∧
    ¬KeptApart (.balance account "latest") (.balance account "0x0") := by
  refine ⟨rfl, rfl, fun h => ?_⟩
  have hplace : (Query.balance account "latest").place = (Query.balance account "0x0").place := by decide +kernel
  obtain ⟨p, hp⟩ := (hasKey_iff _).1 (plain_hasKey (@plain_balance "0x0" (by decide +kernel)))
  have hname : blockName "latest" ≠ blockName "0x0" := by decide +kernel
  exact hname (h.keys.1 ⟨p, hplace.trans hp, hp⟩).2

end Solenoid.Proxy
