/-
  Numeral — hexadecimal numerals over any alphabet.

  A digit is what `value?` knows, and its value is below 16; a numeral is a list of digits and
  stands for a number, its first digit counting most. Zeros in front do not count, and
  numerals of one length and one number have the same digits.
-/
import Mathlib.Tactic.Ring
import Mathlib.Data.List.TakeWhile
import Mathlib.Data.List.Induction

namespace Numeral

variable {α : Type*} (value? : α → Option UInt8)

/-- Only digits. -/
def IsNumeral (l : List α) : Prop := ∀ c ∈ l, (value? c).isSome

/-- What a digit counts. -/
def digit (c : α) : Nat := ((value? c).getD 0).toNat

def number (l : List α) : Nat := l.foldl (fun n c => n * 16 + digit value? c) 0

variable {value?} {l l' : List α}

@[simp] theorem number_nil : number value? [] = 0 := rfl

theorem number_concat (l : List α) (c : α) : number value? (l ++ [c]) = number value? l * 16 + digit value? c := by
  simp only [number, List.foldl_append, List.foldl_cons, List.foldl_nil]

theorem number_append (l l' : List α) : number value? (l ++ l') = number value? l * 16 ^ l'.length + number value? l' := by
  induction l' using List.reverseRecOn with
  | nil => simp
  | append_singleton l' c ih =>
    rw [← List.append_assoc, number_concat, number_concat, ih, List.length_append, List.length_singleton, pow_succ]
    ring

theorem number_cons (c : α) (l : List α) : number value? (c :: l) = digit value? c * 16 ^ l.length + number value? l := by
  have h : number value? ([c] ++ l) = number value? [c] * 16 ^ l.length + number value? l := number_append [c] l
  simpa [number] using h

/-- The digits make the number. -/
theorem number_congr (h : l.map (digit value?) = l'.map (digit value?)) : number value? l = number value? l' := by
  induction l generalizing l' with
  | nil =>
    obtain rfl := List.map_eq_nil_iff.1 h.symm
    rfl
  | cons c l ih =>
    obtain ⟨c', l', rfl, hc, hl⟩ := List.map_eq_cons_iff.1 h.symm
    have hlen : l'.length = l.length := by simpa using congrArg List.length hl
    rw [number_cons, number_cons, hc, hlen, ih hl.symm]

section

variable (hlt : ∀ c v, value? c = some v → v < 16)

include hlt

theorem digit_lt (c : α) : digit value? c < 16 := by
  unfold digit
  cases hc : value? c with
  | none => decide
  | some v => exact UInt8.lt_iff_toNat_lt.1 (hlt c v hc)

theorem number_lt (l : List α) : number value? l < 16 ^ l.length := by
  induction l with
  | nil => exact Nat.one_pos
  | cons c l ih =>
    have hc := digit_lt hlt c
    have hle : digit value? c * 16 ^ l.length ≤ 15 * 16 ^ l.length := Nat.mul_le_mul_right _ (by omega)
    rw [number_cons, List.length_cons, pow_succ]
    omega

/-- Numerals of one length that stand for one number have the same digits. -/
theorem digits_of_number (hlen : l.length = l'.length) (h : number value? l = number value? l') :
    l.map (digit value?) = l'.map (digit value?) := by
  induction l generalizing l' with
  | nil =>
    obtain rfl := List.eq_nil_of_length_eq_zero hlen.symm
    rfl
  | cons c l ih =>
    obtain ⟨c', l', rfl⟩ : ∃ c' t, l' = c' :: t := List.exists_cons_of_length_eq_add_one hlen.symm
    have hlen : l.length = l'.length := Nat.succ.inj hlen
    have hl := number_lt hlt l
    have hl' := number_lt hlt l'
    rw [number_cons, number_cons, hlen] at h
    rw [hlen] at hl
    -- the quotient and the remainder by the power behind the first digit
    have hfirst : digit value? c = digit value? c' := by
      have hpos : 0 < 16 ^ l'.length := Nat.pow_pos (by decide)
      have hdiv := congrArg (· / 16 ^ l'.length) h
      simpa only [Nat.mul_comm _ (16 ^ l'.length), Nat.mul_add_div hpos, Nat.div_eq_of_lt hl, Nat.div_eq_of_lt hl',
        Nat.add_zero] using hdiv
    rw [hfirst] at h
    rw [List.map_cons, List.map_cons, hfirst, ih hlen (Nat.add_left_cancel h)]

end

/-- Zeros in front do not count. -/
theorem number_dropWhile (p : α → Bool) (hp : ∀ c, p c = true → digit value? c = 0) (l : List α) :
    number value? (l.dropWhile p) = number value? l := by
  induction l with
  | nil => rfl
  | cons c l ih =>
    cases hc : p c with
    | true => rw [List.dropWhile_cons_of_pos hc, ih, number_cons, hp c hc, Nat.zero_mul, Nat.zero_add]
    | false => rw [List.dropWhile_cons_of_neg (by simp [hc])]

theorem number_replicate_append {z : α} (hz : digit value? z = 0) (k : Nat) (l : List α) :
    number value? (List.replicate k z ++ l) = number value? l := by
  induction k with
  | zero => rfl
  | succ k ih => rw [List.replicate_succ, List.cons_append, number_cons, hz, Nat.zero_mul, Nat.zero_add, ih]

end Numeral
