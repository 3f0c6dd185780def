/-
  Solenoid.Lib.Blake2 — the compression function F of RFC 7693, over any word and for any
  number of rounds.
-/
import Mathlib.Data.Fin.Tuple.Basic
import Mathlib.Data.Fin.VecNotation

namespace Blake2

/-- What tells one BLAKE2 from another. -/
structure Variant (W : Type) where
  iv : Fin 8 → W
  rotate1 : W → W
  rotate2 : W → W
  rotate3 : W → W
  rotate4 : W → W

/-- The working vector. -/
abbrev Work (W : Type) := Fin 16 → W

/-- The message word permutations. -/
def sigma : Fin 10 → Fin 16 → Fin 16 :=
  ![![0, 1, 2, 3, 4, 5, 6, 7, 8, 9, 10, 11, 12, 13, 14, 15],
    ![14, 10, 4, 8, 9, 15, 13, 6, 1, 12, 0, 2, 11, 7, 5, 3],
    ![11, 8, 12, 0, 5, 2, 15, 13, 10, 14, 3, 6, 7, 1, 9, 4],
    ![7, 9, 3, 1, 13, 12, 11, 14, 2, 6, 5, 10, 4, 0, 15, 8],
    ![9, 0, 5, 7, 2, 4, 10, 15, 14, 1, 11, 12, 6, 8, 3, 13],
    ![2, 12, 6, 10, 0, 11, 8, 3, 4, 13, 7, 5, 15, 14, 1, 9],
    ![12, 5, 1, 15, 14, 13, 4, 10, 0, 7, 6, 3, 9, 2, 8, 11],
    ![13, 11, 7, 14, 12, 1, 3, 9, 5, 0, 15, 4, 8, 6, 2, 10],
    ![6, 15, 14, 9, 11, 3, 0, 8, 12, 2, 13, 7, 1, 4, 10, 5],
    ![10, 2, 8, 4, 7, 6, 1, 5, 15, 11, 9, 14, 3, 12, 13, 0]]

/-- The words of a message in the order of each round; the permutations come round again after
    ten rounds. -/
def schedule {W : Type} (m : Fin 16 → W) (round : Nat) : Fin 16 → W := fun i => m (sigma (Fin.ofNat 10 round) i)

variable {W : Type} [Add W] [XorOp W] [Complement W] (V : Variant W)

/-- The mixing function G. -/
def mix (v : Work W) (a b c d : Fin 16) (x y : W) : Work W :=
  let v := Function.update v a (v a + v b + x)
  let v := Function.update v d (V.rotate1 (v d ^^^ v a))
  let v := Function.update v c (v c + v d)
  let v := Function.update v b (V.rotate2 (v b ^^^ v c))
  let v := Function.update v a (v a + v b + y)
  let v := Function.update v d (V.rotate3 (v d ^^^ v a))
  let v := Function.update v c (v c + v d)
  Function.update v b (V.rotate4 (v b ^^^ v c))

/-- The columns, and then the diagonals. -/
def round (word : Fin 16 → W) (v : Work W) : Work W :=
  let v := mix V v 0 4 8 12 (word 0) (word 1)
  let v := mix V v 1 5 9 13 (word 2) (word 3)
  let v := mix V v 2 6 10 14 (word 4) (word 5)
  let v := mix V v 3 7 11 15 (word 6) (word 7)
  let v := mix V v 0 5 10 15 (word 8) (word 9)
  let v := mix V v 1 6 11 12 (word 10) (word 11)
  let v := mix V v 2 7 8 13 (word 12) (word 13)
  mix V v 3 4 9 14 (word 14) (word 15)

/-- Rounds `0 .. n`, each of its own words. -/
def rounds (word : Nat → Fin 16 → W) : Nat → Work W → Work W
  | 0, v => v
  | n + 1, v => round V (word n) (rounds word n v)

/-- The working vector before the first round. -/
def start (h : Fin 8 → W) (low high : W) (final : Bool) : Work W :=
  let v : Work W := Fin.append h V.iv
  let v := Function.update v 12 (v 12 ^^^ low)
  let v := Function.update v 13 (v 13 ^^^ high)
  if final then Function.update v 14 (~~~(v 14)) else v

/-- The new state, of the old and the two halves of the working vector. -/
def fold (h : Fin 8 → W) (v : Work W) : Fin 8 → W := fun i => h i ^^^ v (Fin.castAdd 8 i) ^^^ v (Fin.natAdd 8 i)

/-- The compression function F. -/
def compress (h : Fin 8 → W) (m : Fin 16 → W) (low high : W) (final : Bool) (n : Nat) : Fin 8 → W :=
  fold h (rounds V (schedule m) n (start V h low high final))

omit [Complement W] in
/-- Only the words that the rounds are given matter. -/
theorem rounds_congr {word word' : Nat → Fin 16 → W} {n : Nat} (h : ∀ r < n, word r = word' r) (v : Work W) :
    rounds V word n v = rounds V word' n v := by
  induction n with
  | zero => rfl
  | succ n ih =>
    rw [rounds, rounds, ih fun r hr => h r (Nat.lt_succ_of_lt hr), h n (Nat.lt_succ_self n)]

end Blake2
