/-
  Solenoid.Blake2f — BLAKE2f against RFC 7693 and EIP-152.

  - `blake2f_compresses`: the code goes through a table of twelve permutations, so that it
    agrees with the RFC in the first twelve rounds, and after that where the words that both
    take happen to be the same; and it takes every last byte but 0 for the final flag.
-/
import Solenoid.Lib.Blake2
import Solenoid.Inputs

namespace Solenoid.Precompiles

open Blake2 (Work)

/-! ## BLAKE2b -/

/-- `x.rotate_right(n)` of the RFC. -/
def rotated (n : Nat) (x : UInt64) : UInt64 := ⟨x.toBitVec.rotateRight n⟩

def blake2b : Blake2.Variant UInt64 where
  iv := ![0x6a09e667f3bcc908, 0xbb67ae8584caa73b, 0x3c6ef372fe94f82b, 0xa54ff53a5f1d36f1,
    0x510e527fade682d1, 0x9b05688c2b3e6c1f, 0x1f83d9abfb41bd6b, 0x5be0cd19137e2179]
  rotate1 := rotated 32
  rotate2 := rotated 24
  rotate3 := rotated 16
  rotate4 := rotated 63

/-- A little-endian word. -/
def leWord (input : Bytes) (start : Nat) : UInt64 := UInt64.ofNat (natOfBytes (field input start 8).reverse)

/-- The message block. -/
def message (input : Bytes) (i : Fin 16) : UInt64 := leWord input (68 + i * 8)

/-- The byte of the final flag. -/
def flag (input : Bytes) : Nat := (input.getD 212 0).toNat

/-- What EIP-152 has BLAKE2f return. -/
def compressed (input : Bytes) : Bytes :=
  let h i := Blake2.compress blake2b (fun i => leWord input (4 + i * 8)) (message input) (leWord input 196)
    (leWord input 204) (flag input = 1) (fieldNat input 0 4) i
  (List.ofFn h).flatMap fun x => (natToBytes 8 x.toNat).reverse

structure Compresses (input : Bytes) : Prop where
  answer : flag input ≤ 1 → blake2f input = .ok (compressed input)
  refused : 1 < flag input → ∃ r, blake2f input = .error (.report r)

/-- A block has sixteen words. -/
instance blockWidth : NeZero 16 := ⟨by decide⟩

/-- The words of the code's own schedule. -/
def taken (input : Bytes) (round : Nat) (i : Fin 16) : UInt64 :=
  message input (Fin.ofNat 16 ((blake2fSigma.getD (round % 12) []).getD i 0))

/-! ## Lists of words -/

theorem rotateRight_eq {n : Nat} (hn : 0 < n ∧ n < 64) (x : UInt64) : rotateRight x (UInt64.ofNat n) = rotated n x := by
  have hright : (UInt64.ofNat n % 64).toNat = n := by
    rw [UInt64.toNat_mod, UInt64.toNat_ofNat']
    show n % 2 ^ 64 % 64 = n
    omega
  have hleft : ((64 - UInt64.ofNat n) % 64).toNat = 64 - n := by
    rw [UInt64.toNat_mod, UInt64.toNat_sub, UInt64.toNat_ofNat']
    show (2 ^ 64 - n % 2 ^ 64 + 64) % 2 ^ 64 % 64 = 64 - n
    omega
  refine UInt64.toBitVec_inj.1 ?_
  rw [rotateRight, rotated, UInt64.toBitVec_or, BitVec.rotateRight_eq_rotateRightAux_of_lt hn.2, BitVec.rotateRightAux]
  congr 1
  · show x.toBitVec >>> (UInt64.ofNat n % 64).toNat = _
    rw [hright]
  · show x.toBitVec <<< ((64 - UInt64.ofNat n) % 64).toNat = _
    rw [hleft]

/-- A list of words as the working vector. -/
def lanes (v : List UInt64) : Work UInt64 := fun i => v.getD i 0

theorem getD_eq_lanes (v : List UInt64) {i : Nat} (hi : i < 16) : v.getD i 0 = lanes v ⟨i, hi⟩ := rfl

theorem lanes_set {v : List UInt64} (hv : v.length = 16) {i : Nat} (hi : i < 16) (x : UInt64) :
    lanes (v.set i x) = Function.update (lanes v) ⟨i, hi⟩ x := by
  funext j
  rw [Function.update_apply, lanes, List.getD_eq_getElem?_getD, List.getElem?_set]
  by_cases hj : j = ⟨i, hi⟩
  · rw [hj, if_pos rfl, if_pos rfl, if_pos (hi.trans_eq hv.symm)]
    rfl
  · rw [if_neg hj, if_neg (fun h => hj (Fin.ext h.symm))]
    rfl

@[simp] theorem mix_length (v : List UInt64) (a b c d : Nat) (x y : UInt64) : (mix v a b c d x y).length = v.length := by
  simp [mix]

/-- `mix` is the RFC's G. -/
theorem lanes_mix {v : List UInt64} (hv : v.length = 16) {a b c d : Nat} (ha : a < 16) (hb : b < 16) (hc : c < 16)
    (hd : d < 16) (x y : UInt64) :
    lanes (mix v a b c d x y) = Blake2.mix blake2b (lanes v) ⟨a, ha⟩ ⟨b, hb⟩ ⟨c, hc⟩ ⟨d, hd⟩ x y := by
  have h1 : ∀ x, rotateRight x 32 = blake2b.rotate1 x := rotateRight_eq (by decide)
  have h2 : ∀ x, rotateRight x 24 = blake2b.rotate2 x := rotateRight_eq (by decide)
  have h3 : ∀ x, rotateRight x 16 = blake2b.rotate3 x := rotateRight_eq (by decide)
  have h4 : ∀ x, rotateRight x 63 = blake2b.rotate4 x := rotateRight_eq (by decide)
  unfold mix Blake2.mix
  simp only [getD_eq_lanes, ha, hb, hc, hd, lanes_set, List.length_set, hv, h1, h2, h3, h4]

@[simp] theorem blake2fRound_length (m : List UInt64) (round : Nat) (v : List UInt64) :
    (blake2fRound m round v).length = v.length := by
  simp [blake2fRound]

/-- The words of a round, by the code's table. -/
def wordsOf (m : List UInt64) (round : Nat) (i : Fin 16) : UInt64 := m.getD ((blake2fSigma.getD (round % 12) []).getD i 0) 0

theorem lanes_round (m : List UInt64) (round : Nat) {v : List UInt64} (hv : v.length = 16) :
    lanes (blake2fRound m round v) = Blake2.round blake2b (wordsOf m round) (lanes v) := by
  unfold blake2fRound
  simp only [lanes_mix, mix_length, hv, Nat.reduceLT]
  rfl

theorem blake2fRounds_length (m : List UInt64) (n : Nat) (v : List UInt64) : (blake2fRounds m n v).length = v.length := by
  induction n with
  | zero => rfl
  | succ n ih => rw [blake2fRounds, blake2fRound_length, ih]

theorem lanes_rounds (m : List UInt64) (n : Nat) {v : List UInt64} (hv : v.length = 16) :
    lanes (blake2fRounds m n v) = Blake2.rounds blake2b (wordsOf m) n (lanes v) := by
  induction n with
  | zero => rfl
  | succ n ih => rw [blake2fRounds, lanes_round m n ((blake2fRounds_length m n v).trans hv), ih, Blake2.rounds]

/-- The first eight words of a list. -/
def halfLanes (h : List UInt64) : Fin 8 → UInt64 := fun i => h.getD i 0

theorem lanes_append_iv {h : List UInt64} (hh : h.length = 8) :
    lanes (h ++ blake2fIV) = (Fin.append (halfLanes h) blake2b.iv : Fin (8 + 8) → UInt64) := by
  funext i
  refine Fin.addCases (m := 8) (n := 8) (fun i => ?_) (fun i => ?_) i
  · rw [Fin.append_left]
    exact List.getD_append _ _ _ _ (i.isLt.trans_eq hh.symm)
  · rw [Fin.append_right]
    show (h ++ blake2fIV).getD (8 + i) 0 = _
    rw [List.getD_append_right _ _ _ _ (by omega), hh, Nat.add_sub_cancel_left]
    revert i
    decide

/-- The code starts from the RFC's working vector. -/
theorem lanes_start {h : List UInt64} (hh : h.length = 8) (low high : UInt64) (f : Bool) :
    (let v := h ++ blake2fIV
     let v := v.set 12 (v.getD 12 0 ^^^ low)
     let v := v.set 13 (v.getD 13 0 ^^^ high)
     lanes (if f then v.set 14 (~~~(v.getD 14 0)) else v)) = Blake2.start blake2b (halfLanes h) low high f := by
  have hlen : (h ++ blake2fIV).length = 16 := by
    rw [List.length_append, hh]
    rfl
  dsimp only
  rw [Blake2.start, ← lanes_append_iv hh]
  cases f
  · simp only [getD_eq_lanes, lanes_set, List.length_set, hlen, Nat.reduceLT, Bool.false_eq_true, if_false]
    rfl
  · simp only [getD_eq_lanes, lanes_set, List.length_set, hlen, Nat.reduceLT, if_true]
    rfl

theorem map_fold (h v : List UInt64) :
    ((List.range 8).map fun i => h.getD i 0 ^^^ (v.getD i 0 ^^^ v.getD (i + 8) 0)) =
      List.ofFn (Blake2.fold (halfLanes h) (lanes v)) := by
  have hword : ∀ i : Fin 8, h.getD i 0 ^^^ (v.getD i 0 ^^^ v.getD (i + 8) 0) = Blake2.fold (halfLanes h) (lanes v) i := by
    intro i
    rw [Blake2.fold, UInt64.xor_assoc, Nat.add_comm]
    rfl
  rw [← funext hword]
  rfl

/-- The code's compression is the RFC's, by the code's schedule. -/
theorem blake2fCompression_eq {h : List UInt64} (hh : h.length = 8) (m t : List UInt64) (f : Bool) (n : Nat) :
    blake2fCompression h m t f n = List.ofFn (Blake2.fold (halfLanes h)
      (Blake2.rounds blake2b (wordsOf m) n (Blake2.start blake2b (halfLanes h) (t.getD 0 0) (t.getD 1 0) f))) := by
  have hlen : (h ++ blake2fIV).length = 16 := by
    rw [List.length_append, hh]
    rfl
  unfold blake2fCompression
  dsimp only
  rw [map_fold, lanes_rounds, ← lanes_start hh]
  cases f
  · simp [hlen]
  · simp [hlen]

/-! ## The input -/

theorem leWords_getD (input : Bytes) (start : Nat) {n i : Nat} (h : i < n) :
    (leWords input start n).getD i 0 = leWord input (start + i * 8) := by
  rw [leWords, List.getD_eq_getElem?_getD, List.getElem?_map, List.getElem?_range h]
  rfl

theorem wordsOf_message (input : Bytes) (round : Nat) : wordsOf (leWords input 68 16) round = taken input round := by
  have hrows : ∀ row < 12, ∀ i : Fin 16, (blake2fSigma.getD row []).getD i 0 < 16 := by decide
  funext i
  have hword := hrows (round % 12) (Nat.mod_lt _ (by decide)) i
  rw [wordsOf, leWords_getD input 68 hword, taken, message, Fin.val_ofNat, Nat.mod_eq_of_lt hword]

/-- In the first twelve rounds the code takes the RFC's words. -/
theorem taken_first (input : Bytes) {round : Nat} (h : round < 12) :
    taken input round = Blake2.schedule (message input) round := by
  have hsame : ∀ round : Fin 12, ∀ i : Fin 16,
      Fin.ofNat 16 ((blake2fSigma.getD (round % 12) []).getD i 0) = Blake2.sigma (Fin.ofNat 10 round) i := by decide
  funext i
  rw [taken, hsame ⟨round, h⟩ i]
  rfl

/-- What BLAKE2f returns for 213 bytes: the EIP's compression, by the code's schedule. -/
theorem blake2f_ok {input : Bytes} (hlen : input.length = 213) :
    blake2f input = .ok ((List.ofFn (Blake2.fold (fun i => leWord input (4 + i * 8)) (Blake2.rounds blake2b (taken input)
      (fieldNat input 0 4) (Blake2.start blake2b (fun i => leWord input (4 + i * 8)) (leWord input 196) (leWord input 204)
        (input.getD 212 0 != 0))))).flatMap fun x => (natToBytes 8 x.toNat).reverse) := by
  have hhalf : halfLanes (leWords input 4 8) = fun i : Fin 8 => leWord input (4 + i * 8) := funext fun i =>
    leWords_getD input 4 i.isLt
  unfold blake2f
  rw [if_neg (not_not.2 hlen)]
  dsimp only
  rw [blake2fCompression_eq (by simp [leWords]), hhalf, funext (wordsOf_message input), leWords_getD input 196 (by decide),
    leWords_getD input 196 (by decide)]

theorem flag_eq {input : Bytes} (h : flag input ≤ 1) : (input.getD 212 0 != 0) = decide (flag input = 1) := by
  rw [flag] at *
  rcases Nat.le_one_iff_eq_zero_or_eq_one.1 h with hzero | hone
  · have hbyte : input.getD 212 0 = 0 := UInt8.toNat_inj.1 hzero
    rw [hbyte]
    rfl
  · have hbyte : input.getD 212 0 = 1 := UInt8.toNat_inj.1 hone
    rw [hbyte]
    rfl

/-- BLAKE2f does not refuse a last byte above 1, and compresses under the others where, from
    the twelfth round on, both schedules take the same words. -/
theorem blake2f_compresses {input : Bytes} (hlen : input.length = 213) :
    (Compresses input → flag input ≤ 1) ∧
      (flag input ≤ 1 →
        (∀ round, 12 ≤ round → round < fieldNat input 0 4 → taken input round = Blake2.schedule (message input) round) →
        Compresses input) := by
  constructor
  · intro h
    by_contra hflag
    obtain ⟨r, hr⟩ := h.refused (not_le.1 hflag)
    rw [blake2f_ok hlen] at hr
    cases hr
  · intro hflag hwords
    refine ⟨fun _ => ?_, fun hover => absurd hflag (not_le.2 hover)⟩
    have hsame : ∀ round < fieldNat input 0 4, taken input round = Blake2.schedule (message input) round := by
      intro round hround
      rcases Nat.lt_or_ge round 12 with hfirst | hlate
      · exact taken_first input hfirst
      · exact hwords round hlate hround
    rw [blake2f_ok hlen, Blake2.rounds_congr blake2b hsame, flag_eq hflag]
    rfl

/-! ## Inputs -/

namespace Words

/-- An input of this many rounds, whose message is the number 1. -/
def rounding (rounds : Nat) (last : UInt8) : Bytes :=
  natToBytes 4 rounds ++ List.replicate 64 0 ++ natToBytes 128 1 ++ List.replicate 16 0 ++ [last]

end Words

open Words

/-- Twelve rounds. -/
theorem blake2f_compresses_twelve : Compresses (rounding 12 1) :=
  (blake2f_compresses (by decide +kernel)).2 (by decide +kernel) fun round hlate hround =>
    absurd hround (not_lt.2 (le_trans (by decide +kernel) hlate))

/-- The thirteenth round takes the words of the first, and not those of the third; and a last
    byte of 2 is not refused. -/
theorem blake2f_compresses_thirteen : ¬Compresses (rounding 13 1) ∧ ¬Compresses (rounding 0 2) := by
  constructor
  · intro h
    exact absurd (h.answer (by decide +kernel)) (by decide +kernel)
  · intro h
    obtain ⟨r, hr⟩ := h.refused (by decide +kernel)
    rw [blake2f_ok (by decide +kernel)] at hr
    cases hr

end Solenoid.Precompiles
