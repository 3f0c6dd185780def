/-
  InfiniteArray — an array without an end, and the list that stands for it.

  A list stands for its elements followed by a default for ever (`image`). Writing a block is
  `patch`, reading one is `view`. A list that grows by defaults stands for the same array, one
  that is spliced for the patched array, and what is read of the array is a slice of the list,
  filled up with defaults.
-/
import Mathlib.Data.List.GetD

namespace InfiniteArray

variable {α : Type*} {d : α} {l data : List α} {f : Nat → α} {start size i : Nat}

/-! ## Blocks -/

/-- `data` written at `start`. -/
def patch (f : Nat → α) (start : Nat) (data : List α) : Nat → α :=
  fun i => if start ≤ i then data.getD (i - start) (f i) else f i

/-- The `size` elements from `start`. -/
def view (f : Nat → α) (start size : Nat) : List α := (List.range size).map fun i => f (start + i)

@[simp] theorem patch_nil (f : Nat → α) (start : Nat) : patch f start [] = f := by
  funext i
  simp [patch]

@[simp] theorem view_length (f : Nat → α) (start size : Nat) : (view f start size).length = size := by
  simp [view]

@[simp] theorem view_zero (f : Nat → α) (start : Nat) : view f start 0 = [] := rfl

/-! ## The list that stands for an array -/

/-- The elements of `l`, then `d` for ever. -/
def image (d : α) (l : List α) : Nat → α := fun i => l.getD i d

@[simp] theorem image_nil (d : α) : image d [] = fun _ => d := by
  funext i
  simp [image]

/-- A list may grow by defaults. -/
@[simp] theorem image_append_replicate (d : α) (l : List α) (n : Nat) :
    image d (l ++ List.replicate n d) = image d l := by
  funext i
  unfold image
  by_cases hi : i < l.length
  · rw [List.getD_append _ _ _ _ hi]
  · rw [List.getD_append_right _ _ _ _ (by omega), List.getD_eq_default l _ (by omega)]
    by_cases hn : i - l.length < n
    · rw [List.getD_eq_getElem _ _ (by simpa using hn), List.getElem_replicate]
    · rw [List.getD_eq_default _ _ (by simpa using hn)]

/-- A splice that fits is a write. -/
theorem image_splice (h : start + data.length ≤ l.length) :
    image d (l.take start ++ data ++ l.drop (start + data.length)) = patch (image d l) start data := by
  funext i
  have hstart : (l.take start).length = start := by
    rw [List.length_take]
    omega
  show (l.take start ++ data ++ l.drop (start + data.length)).getD i d =
    if start ≤ i then data.getD (i - start) (l.getD i d) else l.getD i d
  split
  · next hle =>
    rw [List.append_assoc, List.getD_append_right _ _ _ _ (by omega), hstart]
    by_cases hi : i - start < data.length
    · rw [List.getD_append _ _ _ _ hi, List.getD_eq_getElem _ _ hi, List.getD_eq_getElem _ _ hi]
    · rw [List.getD_append_right _ _ _ _ (by omega), List.getD_eq_default data _ (by omega), List.getD_eq_getElem?_getD,
        List.getD_eq_getElem?_getD, List.getElem?_drop]
      congr 2
      omega
  · next hlt =>
    rw [List.append_assoc, List.getD_append _ _ _ _ (by omega), List.getD_eq_getElem?_getD,
      List.getD_eq_getElem?_getD, List.getElem?_take_of_lt (by omega)]

/-- What is read of the array is a slice of the list, filled up with defaults. -/
theorem view_image (d : α) (l : List α) (start size : Nat) :
    view (image d l) start size =
      (l.drop start).take size ++ List.replicate (size - ((l.drop start).take size).length) d := by
  refine List.ext_getElem ?_ fun i hi _ => ?_
  · rw [view_length, List.length_append, List.length_replicate, List.length_take, List.length_drop]
    omega
  rw [view_length] at hi
  rw [List.getElem_append]
  simp only [view, image, List.getElem_map, List.getElem_range, List.getElem_take, List.getElem_drop,
    List.getElem_replicate, List.length_take, List.length_drop]
  split
  · rw [List.getD_eq_getElem _ _ (by omega)]
  · rw [List.getD_eq_default _ _ (by omega)]

/-- Inside the list it is the slice. -/
theorem view_image_of_le (h : start + size ≤ l.length) : view (image d l) start size = (l.drop start).take size := by
  have hlen : ((l.drop start).take size).length = size := by
    rw [List.length_take, List.length_drop]
    omega
  rw [view_image, hlen, Nat.sub_self, List.replicate_zero, List.append_nil]

end InfiniteArray
