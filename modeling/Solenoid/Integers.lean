/-
  Solenoid.Integers — the opcodes on two words, against the integers the words stand for.

  `integerResult` is what an opcode is to push, over unbounded integers and taken modulo 2^256,
  and `integerPrice` what it costs. SDIV and SMOD round to zero, a division by zero gives 0, and
  the one quotient that is no word, MIN / -1, is taken modulo 2^256 too. EXP squares its base
  once for every bit of a word (`pow_squarings`).
  - `integer_opcodes`: every opcode pushes its result at its price, but for SMOD of MIN by -1,
    whose remainder overflows.
-/
import Solenoid.Arithmetic
import Solenoid.Preimages

namespace Solenoid

open Hoare

/-! ## EXP -/

/-- By induction on the squarings: the first word is the power by the bits seen so far, the
    second by the next one. -/
theorem pow_squarings (base exp : Word) (n : Nat) :
    ∀ acc : Word × Word, acc = (List.range n).foldl (fun acc i =>
      (if exp.getLsbD i then acc.1 * acc.2 else acc.1, acc.2 * acc.2)) (1, base) →
    acc.1.toNat = base.toNat ^ (exp.toNat % 2 ^ n) % 2 ^ 256 ∧ acc.2.toNat = base.toNat ^ 2 ^ n % 2 ^ 256 := by
  induction n with
  | zero =>
    rintro acc rfl
    rw [List.range_zero, List.foldl_nil, pow_zero, Nat.mod_one, pow_zero, pow_one, Nat.mod_eq_of_lt base.isLt]
    exact ⟨rfl, rfl⟩
  | succ n ih =>
    rintro acc rfl
    rw [List.range_succ, List.foldl_append, List.foldl_cons, List.foldl_nil]
    obtain ⟨hlow, hnext⟩ := ih _ rfl
    have hsquare : base.toNat ^ 2 ^ n * base.toNat ^ 2 ^ n = base.toNat ^ 2 ^ (n + 1) := by
      rw [← pow_add, pow_succ, Nat.mul_two]
    refine ⟨?_, by rw [BitVec.toNat_mul, hnext, ← Nat.mul_mod, hsquare]⟩
    have hsplit : exp.toNat % 2 ^ (n + 1) = exp.toNat % 2 ^ n + 2 ^ n * (exp.toNat / 2 ^ n % 2) := Nat.mod_pow_succ
    rw [hsplit]
    rcases Nat.mod_two_eq_zero_or_one (exp.toNat / 2 ^ n) with hzero | hone
    · have hbit : exp.getLsbD n = false := by
        rw [BitVec.getLsbD, Nat.testBit_eq_decide_div_mod_eq, hzero]
        rfl
      rw [hbit, if_neg Bool.false_ne_true, hlow, hzero, Nat.mul_zero, Nat.add_zero]
    · have hbit : exp.getLsbD n = true := by
        rw [BitVec.getLsbD, Nat.testBit_eq_decide_div_mod_eq, hone]
        rfl
      rw [hbit, if_pos rfl, BitVec.toNat_mul, hlow, hnext, ← Nat.mul_mod, ← pow_add, hone, Nat.mul_one]

/-- A word has 256 bits. -/
theorem pow_eq (base exp : Word) : base.pow exp = BitVec.ofNat 256 (base.toNat ^ exp.toNat) := by
  apply BitVec.eq_of_toNat_eq
  rw [BitVec.toNat_ofNat, Word.pow, (pow_squarings base exp 256 _ rfl).1, Nat.mod_eq_of_lt exp.isLt]

/-- EXP is priced by the digits of its exponent. -/
theorem length_expBytes (exponent : Word) :
    (exponent.intoBytes.dropWhile (· == 0)).length = (Nat.digits 256 exponent.toNat).length := by
  rw [nonce_bytes, Rlp.bigEndian, List.length_map, List.length_reverse]

section

variable {T : Type} [EventTracer T] {gas : Int} {a b w : Word}

theorem computes_words {f : Word → Word → Word} : Computes (T := T) (words gas f) gas [a, b] w ↔ f a b = w := by
  rw [words, computes_binary]
  exact ⟨fun h => Except.ok.inj h, fun h => congrArg Except.ok h⟩

/-- The operands of EXP are gone before its price is asked for. -/
theorem computes_exp :
    Computes (T := T) opExp (10 + 50 * (Nat.digits 256 b.toNat).length) [a, b]
      (BitVec.ofNat 256 (a.toNat ^ b.toNat)) := by
  refine (computes_iff (r := .ok (a.pow b)) fun s rest hst hroom hgas => ?_).2 (by rw [pow_eq])
  simp only [opExp, wp_charged, wp_bind, wp_pop, wp_push, wp_next, length_expBytes, hst]
  refine ⟨fun v rest' h => ?_, fun h => by cases h⟩
  cases h
  refine ⟨fun v rest' h => ?_, fun h => by cases h⟩
  cases h
  have hprice : (10 : Int) + 50 * (Nat.digits 256 b.toNat).length = 10 + (Nat.digits 256 b.toNat).length * 50 := by omega
  rw [hprice] at hgas ⊢
  refine ⟨fun h => absurd hgas (not_le.2 h), fun _ => ⟨fun _ => ⟨_, rfl, rfl, rfl⟩, fun hfull => ?_⟩⟩
  exact absurd hroom (by simpa using hfull)

/-! ## The opcodes -/

/-- What an opcode is to push of two words, over the integers. -/
def integerResult (op : Op) (a b : Word) : Option Word :=
  match op with
  | .add => some (.ofNat 256 (a.toNat + b.toNat))
  | .mul => some (.ofNat 256 (a.toNat * b.toNat))
  | .sub => some (.ofInt 256 ((a.toNat : Int) - b.toNat))
  | .div => some (if b = 0 then 0 else .ofNat 256 (a.toNat / b.toNat))
  | .mod => some (if b = 0 then 0 else .ofNat 256 (a.toNat % b.toNat))
  | .sdiv => some (if b = 0 then 0 else .ofInt 256 (a.toInt.tdiv b.toInt))
  | .smod => some (if b = 0 then 0 else .ofInt 256 (a.toInt.tmod b.toInt))
  | .exp => some (.ofNat 256 (a.toNat ^ b.toNat))
  | .lt => some (.ofBool (a.toNat < b.toNat))
  | .gt => some (.ofBool (b.toNat < a.toNat))
  | .slt => some (.ofBool (a.toInt < b.toInt))
  | .sgt => some (.ofBool (b.toInt < a.toInt))
  | .eq => some (.ofBool (a.toNat = b.toNat))
  | _ => none

/-- What it costs: EXP 50 for each byte of its exponent. -/
def integerPrice (op : Op) (b : Word) : Int :=
  match op with
  | .mul | .div | .mod | .sdiv | .smod => 5
  | .exp => 10 + 50 * (Nat.digits 256 b.toNat).length
  | _ => 3

theorem div_eq (a b : Word) :
    (if b = 0 ∨ a = 0 then 0 else a / b) = if b = 0 then 0 else .ofNat 256 (a.toNat / b.toNat) := by
  by_cases hb : b = 0
  · rw [if_pos (.inl hb), if_pos hb]
  rw [if_neg hb]
  by_cases ha : a = 0
  · rw [if_pos (.inr ha), ha, show (0 : Word).toNat = 0 from rfl, Nat.zero_div]
    rfl
  · rw [if_neg (not_or.2 ⟨hb, ha⟩), ← BitVec.toNat_udiv, BitVec.ofNat_toNat, BitVec.setWidth_eq]

/-- MIN / -1 is 2^255, which is MIN again. -/
theorem sdiv_eq (a b : Word) : (if b = 0 then 0 else if a = BitVec.intMin 256 ∧ b = -1 then BitVec.intMin 256 else
    Word.signedDiv a b) = if b = 0 then 0 else .ofInt 256 (a.toInt.tdiv b.toInt) := by
  split
  · rfl
  split
  · next hmin =>
    rw [hmin.1, hmin.2]
    decide +kernel
  · next hmin =>
    rw [← BitVec.toInt_sdiv_of_ne_or_ne a b (by rwa [not_and_or] at hmin), BitVec.ofInt_toInt, Word.signedDiv]

theorem smod_eq (a b : Word) (h : a ≠ BitVec.intMin 256 ∨ b ≠ -1) : (if b = 0 then .ok 0 else Word.signedRem a b) =
    (.ok (if b = 0 then 0 else .ofInt 256 (a.toInt.tmod b.toInt)) : Except Fault Word) := by
  split
  · rfl
  · rw [Word.signedRem, if_neg (not_and_or.2 h), ← BitVec.toInt_srem, BitVec.ofInt_toInt]

variable [Crypto]

/-- Every opcode on two words pushes its integer at its price, whatever the words are; SMOD of MIN
    by -1 apart. -/
theorem integer_opcodes (exec : Exec T) (sc : Scope) {instruction : Instruction} {a b w : Word}
    (h : integerResult instruction.op a b = some w)
    (hsmod : instruction.op = .smod → a ≠ BitVec.intMin 256 ∨ b ≠ -1) :
    Computes (executeInstruction exec sc instruction) (integerPrice instruction.op b) [a, b] w := by
  unfold executeInstruction
  cases hop : instruction.op
  case add | mul =>
    rw [hop] at h
    cases h
    refine computes_words.2 (BitVec.eq_of_toNat_eq ?_)
    rw [BitVec.toNat_ofNat]
    rfl
  case sub =>
    rw [hop] at h
    cases h
    refine computes_words.2 (BitVec.eq_of_toInt_eq ?_)
    rw [BitVec.toInt_sub, BitVec.toInt_ofInt, BitVec.toInt_eq_toNat_bmod, BitVec.toInt_eq_toNat_bmod, Int.bmod_sub_bmod,
      Int.sub_bmod_bmod]
  case div =>
    rw [hop] at h
    cases h
    exact computes_words.2 (div_eq a b)
  case mod =>
    rw [hop] at h
    cases h
    refine computes_words.2 ?_
    rw [← BitVec.toNat_umod, BitVec.ofNat_toNat, BitVec.setWidth_eq]
  case sdiv =>
    rw [hop] at h
    cases h
    exact computes_words.2 (sdiv_eq a b)
  case smod =>
    rw [hop] at h
    cases h
    exact computes_binary.2 (smod_eq a b (hsmod hop))
  case exp =>
    rw [hop] at h
    cases h
    exact computes_exp
  case lt | gt | slt | sgt =>
    rw [hop] at h
    cases h
    exact computes_words.2 rfl
  case eq =>
    rw [hop] at h
    cases h
    refine computes_words.2 (congrArg Word.ofBool ?_)
    rw [Bool.eq_iff_iff, beq_iff_eq, decide_eq_true_iff, BitVec.toNat_inj]
  all_goals
    rw [hop] at h
    cases h

end

open Sample

/-- 3^5, and -7 / 2 with its remainder. -/
theorem integer_opcodes_three :
    Computes (executeInstruction noFrame (scope []) (instruction 0x0a)) 60 [3, 5] 243 ∧
      Computes (executeInstruction noFrame (scope []) (instruction 0x05)) 5 [-7, 2] (-3) ∧
      Computes (executeInstruction noFrame (scope []) (instruction 0x07)) 5 [-7, 2] (-1) := by
  have hprice : integerPrice .exp 5 = 60 := by
    simp [integerPrice]
  refine ⟨?_, ?_, ?_⟩
  · rw [← hprice]
    exact integer_opcodes noFrame (scope []) (show integerResult (instruction 0x0a).op 3 5 = some 243 by decide +kernel)
      (by decide)
  · exact integer_opcodes noFrame (scope []) (show integerResult (instruction 0x05).op (-7) 2 = some (-3) by decide +kernel)
      (by decide)
  · exact integer_opcodes noFrame (scope []) (show integerResult (instruction 0x07).op (-7) 2 = some (-1) by decide +kernel)
      fun _ => .inr (by decide)

end Solenoid
