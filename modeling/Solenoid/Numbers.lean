/-
  Solenoid.Numbers — byte strings as big-endian numbers.

  `natOfBytes` and `natToBytes` undo each other on strings of one length, zeros in front do
  not count, and zeros behind multiply; without the zeros in front the bytes of a number are
  its digits (`dropWhile_natToBytes`).
-/
import Solenoid.Lib.Rlp
import Solenoid.Word
import Mathlib.Data.List.TakeWhile

namespace Solenoid

variable {b c : Bytes} {len n m : Nat}

@[simp] theorem natOfBytes_nil : natOfBytes [] = 0 := rfl

theorem natOfBytes_concat (b : Bytes) (x : UInt8) : natOfBytes (b ++ [x]) = natOfBytes b * 256 + x.toNat := by
  simp only [natOfBytes, List.foldl_append, List.foldl_cons, List.foldl_nil]

theorem natOfBytes_append (b c : Bytes) : natOfBytes (b ++ c) = natOfBytes b * 256 ^ c.length + natOfBytes c := by
  induction c using List.reverseRecOn with
  | nil => simp
  | append_singleton c x ih =>
    rw [← List.append_assoc, natOfBytes_concat, natOfBytes_concat, ih, List.length_append, List.length_singleton, pow_succ]
    ring

theorem natOfBytes_replicate_zero (k : Nat) : natOfBytes (List.replicate k 0) = 0 := by
  induction k with
  | zero => rfl
  | succ k ih => rw [List.replicate_succ', natOfBytes_concat, ih]; rfl

/-- Zeros behind multiply. -/
theorem natOfBytes_append_zeros (b : Bytes) (k : Nat) :
    natOfBytes (b ++ List.replicate k 0) = natOfBytes b * 256 ^ k := by
  rw [natOfBytes_append, natOfBytes_replicate_zero, List.length_replicate, Nat.add_zero]

@[simp] theorem natToBytes_length (len n : Nat) : (natToBytes len n).length = len := by
  simp [natToBytes]

theorem natToBytes_concat (len n : Nat) : natToBytes (len + 1) n = natToBytes len (n / 256) ++ [UInt8.ofNat n] := by
  unfold natToBytes
  rw [List.range_succ, List.map_append, List.map_singleton]
  refine congrArg₂ _ (List.map_congr_left fun i hi => ?_) ?_
  · have hi := List.mem_range.1 hi
    have hshift : 8 * (len + 1 - 1 - i) = 8 + 8 * (len - 1 - i) := by omega
    rw [hshift, Nat.shiftRight_add, Nat.shiftRight_eq_div_pow n 8]
  · rw [Nat.add_sub_cancel, Nat.sub_self]
    rfl

theorem natToBytes_succ (len n : Nat) : natToBytes (len + 1) n = UInt8.ofNat (n >>> (8 * len)) :: natToBytes len n := by
  unfold natToBytes
  rw [List.range_succ_eq_map, List.map_cons, List.map_map]
  refine congrArg₂ _ rfl (List.map_congr_left fun i hi => ?_)
  have hindex : len + 1 - 1 - (i + 1) = len - 1 - i := by omega
  simp only [Function.comp_apply, hindex]

/-- The last bytes of a number are those of the number. -/
theorem drop_natToBytes (k len n : Nat) : (natToBytes (k + len) n).drop k = natToBytes len n := by
  induction k with
  | zero => rw [Nat.zero_add, List.drop_zero]
  | succ k ih => rw [Nat.succ_add, natToBytes_succ, List.drop_succ_cons, ih]

theorem natOfBytes_natToBytes : ∀ {len n : Nat}, n < 256 ^ len → natOfBytes (natToBytes len n) = n := by
  intro len
  induction len with
  | zero =>
    intro n h
    have hzero : n = 0 := Nat.lt_one_iff.1 h
    rw [hzero]
    rfl
  | succ len ih =>
    intro n h
    rw [pow_succ] at h
    rw [natToBytes_concat, natOfBytes_concat, ih (Nat.div_lt_of_lt_mul (by rwa [Nat.mul_comm] at h)), UInt8.toNat_ofNat']
    omega

theorem natOfBytes_lt : ∀ b : Bytes, natOfBytes b < 256 ^ b.length := by
  intro b
  unfold natOfBytes
  induction b using List.reverseRecOn with
  | nil => decide
  | append_singleton b x ih =>
    have hx : x.toNat < 256 := x.toNat_lt
    rw [List.foldl_append, List.length_append, List.length_singleton, pow_succ]
    simp only [List.foldl_cons, List.foldl_nil]
    omega

theorem natToBytes_injective (hn : n < 256 ^ len) (hm : m < 256 ^ len) (h : natToBytes len n = natToBytes len m) :
    n = m := by
  rw [← natOfBytes_natToBytes hn, h, natOfBytes_natToBytes hm]

theorem natToBytes_zero (len : Nat) : natToBytes len 0 = List.replicate len 0 := by
  simp [natToBytes]

/-- Without the zeros in front the bytes are the digits. -/
theorem dropWhile_natToBytes : ∀ {len n : Nat}, n < 256 ^ len →
    (natToBytes len n).dropWhile (· == 0) = Rlp.bigEndian n := by
  intro len
  induction len with
  | zero =>
    intro n h
    have hzero : n = 0 := Nat.lt_one_iff.1 h
    rw [hzero, Rlp.bigEndian_zero]
    rfl
  | succ len ih =>
    intro n h
    rcases Nat.eq_zero_or_pos n with rfl | hn
    · rw [natToBytes_zero, Rlp.bigEndian_zero, List.dropWhile_eq_nil_iff]
      intro x hx
      rw [List.eq_of_mem_replicate hx]
      rfl
    · rw [pow_succ] at h
      have hhigh := ih (n := n / 256) (Nat.div_lt_of_lt_mul (by rwa [Nat.mul_comm] at h))
      rw [natToBytes_concat, Rlp.bigEndian_of_pos hn, List.dropWhile_append, hhigh]
      by_cases hzero : n / 256 = 0
      · -- the only digit
        have hbyte : UInt8.ofNat n ≠ 0 := by
          intro hbyte
          have hnat := congrArg UInt8.toNat hbyte
          rw [UInt8.toNat_ofNat', UInt8.toNat_zero] at hnat
          omega
        simp [hzero, hbyte]
      · have hsome : Rlp.bigEndian (n / 256) ≠ [] := fun hnil => hzero (Rlp.bigEndian_eq_nil_iff.1 hnil)
        rw [if_neg (by simpa using hsome)]

/-- With zeros in front the digits are the bytes. -/
theorem replicate_append_bigEndian (h : n < 256 ^ len) :
    (Rlp.bigEndian n).length ≤ len ∧
      List.replicate (len - (Rlp.bigEndian n).length) 0 ++ Rlp.bigEndian n = natToBytes len n := by
  obtain ⟨zeros, hzeros⟩ : ∃ zeros, zeros = (natToBytes len n).takeWhile (· == 0) := ⟨_, rfl⟩
  have hall : zeros = List.replicate zeros.length 0 := by
    refine List.eq_replicate_of_mem fun x hx => ?_
    rw [hzeros] at hx
    have hzero := List.all_eq_true.1 List.all_takeWhile x hx
    exact eq_of_beq hzero
  have hsplit : zeros ++ Rlp.bigEndian n = natToBytes len n := by
    rw [hzeros, ← dropWhile_natToBytes h, List.takeWhile_append_dropWhile]
  have hlen : zeros.length + (Rlp.bigEndian n).length = len := by
    rw [← List.length_append, hsplit, natToBytes_length]
  refine ⟨by omega, ?_⟩
  rw [show len - (Rlp.bigEndian n).length = zeros.length by omega, ← hall, hsplit]

end Solenoid
