/-
  Rlp — the recursive length prefix encoding of byte strings below 56 bytes and of lists
  whose payload is below 56 bytes.

  A string is a byte below 0x80 as it stands, or its length and its bytes; a number is the
  string of its big-endian digits, of which the first is not zero. An encoded string is told
  from what follows it (`string_append_inj`), and so are the members of a list.
-/
import Mathlib.Data.Nat.Digits.Lemmas

namespace Rlp

variable {b c r t : List UInt8} {n m : Nat}

/-- A byte below 0x80 is its own encoding. -/
def isSingle (b : List UInt8) : Bool := b.length == 1 && b.headD 0 < 0x80

def string (b : List UInt8) : List UInt8 := if isSingle b then b else UInt8.ofNat (0x80 + b.length) :: b

/-- A list of encoded members. -/
def list (members : List (List UInt8)) : List UInt8 := UInt8.ofNat (0xc0 + members.flatten.length) :: members.flatten

/-! ## Numbers -/

/-- The base-256 digits of a number, the first of them not zero. -/
def bigEndian (n : Nat) : List UInt8 := (Nat.digits 256 n).reverse.map UInt8.ofNat

@[simp] theorem bigEndian_zero : bigEndian 0 = [] := by
  rw [bigEndian, Nat.digits_zero]
  rfl

theorem bigEndian_of_pos (h : 0 < n) : bigEndian n = bigEndian (n / 256) ++ [UInt8.ofNat n] := by
  unfold bigEndian
  rw [Nat.digits_def' (by decide) h, List.reverse_cons, List.map_append, List.map_singleton, UInt8.ofNat_mod_size]

theorem bigEndian_eq_nil_iff : bigEndian n = [] ↔ n = 0 := by
  unfold bigEndian
  rw [List.map_eq_nil_iff, List.reverse_eq_nil_iff, Nat.digits_eq_nil_iff_eq_zero]

/-- No leading zero. -/
theorem head_bigEndian (n : Nat) : (bigEndian n).head? ≠ some 0 := by
  induction n using Nat.strong_induction_on with
  | h n ih =>
    rcases Nat.eq_zero_or_pos n with rfl | hn
    · rw [bigEndian_zero]
      exact nofun
    · rw [bigEndian_of_pos hn]
      by_cases hlow : n / 256 = 0
      · have hbyte : n < 256 := by omega
        rw [hlow, bigEndian_zero, List.nil_append, List.head?_cons, ne_eq, Option.some.injEq]
        intro hzero
        have hnat := congrArg UInt8.toNat hzero
        rw [UInt8.toNat_ofNat', UInt8.toNat_zero] at hnat
        omega
      · have hsome : bigEndian (n / 256) ≠ [] := fun h => hlow (bigEndian_eq_nil_iff.1 h)
        rw [List.head?_append_of_ne_nil _ hsome]
        exact ih _ (by omega)

theorem bigEndian_injective : Function.Injective bigEndian := by
  intro n
  induction n using Nat.strong_induction_on with
  | h n ih =>
    intro m h
    rcases Nat.eq_zero_or_pos n with rfl | hn
    · rw [bigEndian_zero] at h
      exact (bigEndian_eq_nil_iff.1 h.symm).symm
    · rcases Nat.eq_zero_or_pos m with rfl | hm
      · rw [bigEndian_zero] at h
        exact bigEndian_eq_nil_iff.1 h
      · rw [bigEndian_of_pos hn, bigEndian_of_pos hm] at h
        obtain ⟨hhigh, hlow⟩ := List.append_inj' h rfl
        have hdiv := ih _ (by omega) hhigh
        have hmod := congrArg UInt8.toNat (List.singleton_inj.1 hlow)
        rw [UInt8.toNat_ofNat', UInt8.toNat_ofNat'] at hmod
        omega

theorem length_bigEndian_le {k : Nat} (h : n < 256 ^ k) : (bigEndian n).length ≤ k := by
  unfold bigEndian
  rw [List.length_map, List.length_reverse]
  exact (Nat.digits_length_le_iff (by decide) n).2 h

/-! ## Telling a string from what follows -/

theorem isSingle_iff : isSingle b = true ↔ ∃ x : UInt8, b = [x] ∧ x < 0x80 := by
  unfold isSingle
  match b with
  | [] => simp
  | [x] => simp
  | _ :: _ :: _ => simp

theorem length_string_le (b : List UInt8) : (string b).length ≤ b.length + 1 := by
  unfold string
  split
  · exact Nat.le_succ _
  · exact le_rfl

/-- The first byte says how much of the rest belongs to the string. -/
theorem string_append_inj (hb : b.length < 56) (hc : c.length < 56) (h : string b ++ r = string c ++ t) :
    b = c ∧ r = t := by
  have hlead : ∀ x : UInt8, x < 0x80 → ∀ len, len < 56 → x ≠ UInt8.ofNat (0x80 + len) := by
    intro x hx len hlen heq
    have hnat := congrArg UInt8.toNat heq
    rw [UInt8.toNat_ofNat'] at hnat
    have hx : x.toNat < 128 := UInt8.lt_iff_toNat_lt.1 hx
    omega
  unfold string at h
  by_cases hsb : isSingle b = true <;> by_cases hsc : isSingle c = true
  · obtain ⟨x, rfl, hx⟩ := isSingle_iff.1 hsb
    obtain ⟨y, rfl, hy⟩ := isSingle_iff.1 hsc
    rw [if_pos hsb, if_pos hsc] at h
    exact List.append_inj h rfl
  · obtain ⟨x, rfl, hx⟩ := isSingle_iff.1 hsb
    rw [if_pos hsb, if_neg hsc] at h
    exact absurd (List.cons.inj h).1 (hlead x hx _ hc)
  · obtain ⟨y, rfl, hy⟩ := isSingle_iff.1 hsc
    rw [if_neg hsb, if_pos hsc] at h
    exact absurd (List.cons.inj h).1.symm (hlead y hy _ hb)
  · rw [if_neg hsb, if_neg hsc] at h
    obtain ⟨hlen, hrest⟩ := List.cons.inj h
    have hnat := congrArg UInt8.toNat hlen
    rw [UInt8.toNat_ofNat', UInt8.toNat_ofNat'] at hnat
    exact List.append_inj hrest (by omega)

end Rlp
