/-
  Solenoid.Inputs — the input of a precompile read as if zeros followed it.
-/
import Solenoid.Lib.InfiniteArray
import Solenoid.Numbers
import Solenoid.Precompiles

namespace Solenoid.Precompiles

open InfiniteArray

variable {input : Bytes} {start len : Nat}

/-- The number in `len` bytes of the input and the zeros after it. -/
def wordAt (input : Bytes) (start len : Nat) : Nat := natOfBytes (window input start len)

theorem window_of_le (h : start + len ≤ input.length) : window input start len = field input start len := by
  have hlen : (field input start len).length = len := by
    rw [field, List.length_take, List.length_drop]
    omega
  show field input start len ++ List.replicate (len - (field input start len).length) 0 = _
  rw [hlen, Nat.sub_self, List.replicate_zero, List.append_nil]

theorem wordAt_of_le (h : start + len ≤ input.length) : wordAt input start len = fieldNat input start len := by
  rw [wordAt, window_of_le h, fieldNat]

@[simp] theorem wordAt_zero_len (input : Bytes) (start : Nat) : wordAt input start 0 = 0 := by
  simp [wordAt, window]

/-- Zeros behind the input are there already. -/
@[simp] theorem window_append_zeros (input : Bytes) (k start len : Nat) :
    window (input ++ List.replicate k 0) start len = window input start len := by
  have hsame : ∀ b : Bytes, window b start len = view (image 0 b) start len := fun b => by
    rw [view_image]
    rfl
  rw [hsame, hsame, image_append_replicate]

theorem wordAt_append_zeros (input : Bytes) (k : Nat) : wordAt (input ++ List.replicate k 0) = wordAt input := by
  funext start len
  rw [wordAt, window_append_zeros, wordAt]

/-- What the zeros stand for is a multiple of their place. -/
theorem dvd_wordAt (h : input.length < start + len) : 256 ∣ wordAt input start len := by
  rcases Nat.eq_zero_or_pos len with rfl | hpos
  · rw [wordAt_zero_len]
    exact dvd_zero 256
  obtain ⟨k, hk⟩ : ∃ k, len - (field input start len).length = k + 1 := by
    refine ⟨len - (field input start len).length - 1, ?_⟩
    have hlen : (field input start len).length = min len (input.length - start) := by
      rw [field, List.length_take, List.length_drop]
    omega
  have hwindow : window input start len = field input start len ++ List.replicate (k + 1) 0 := by
    rw [← hk]
    rfl
  rw [wordAt, hwindow, natOfBytes_append_zeros, pow_succ]
  exact Dvd.intro_left _ (Nat.mul_assoc _ _ _)

/-- Padding adds the zeros that a reader past the end sees. -/
theorem fieldNat_padTo {n : Nat} (h : start + len ≤ n) : fieldNat (padTo n input) start len = wordAt input start len := by
  have hlen : start + len ≤ (padTo n input).length := by
    rw [padTo, List.length_append, List.length_replicate]
    omega
  rw [← wordAt_of_le hlen, padTo, wordAt_append_zeros]

end Solenoid.Precompiles
