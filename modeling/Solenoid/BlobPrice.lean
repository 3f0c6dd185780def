/-
  Solenoid.BlobPrice — the blob gas price and the exponential of EIP-4844.

  The loop of `fake_exponential` adds up numerators until one is zero. Over the integers they
  are `priceTerm`; in the code a product that does not fit a `u128` is the largest one
  (`saturatedTerm`), and so the `i`-th numerator is at most `u128::MAX / (denominator * i)`:
  the sum of all of them is bounded by the harmonic series, and stays far below `u128::MAX`.
  - `blob_gas_price_exact`: for every excess below `2^64` no operation overflows, and the price
    is never more than EIP-4844's, and the same where no product is too large.
-/
import Mathlib.Algebra.BigOperators.Intervals
import Mathlib.Algebra.Order.BigOperators.Group.Finset
import Solenoid.Block

namespace Solenoid

open Finset

/-! ## The terms -/

/-- The numerators of `fake_exponential` over the integers. -/
def priceTerm (factor denominator : Nat) : Nat → Nat
  | 0 => denominator
  | i + 1 => priceTerm factor denominator i * factor / (denominator * (i + 1))

/-- The numerators of the code's loop. -/
def saturatedTerm (factor denominator : Nat) : Nat → Nat
  | 0 => denominator
  | i + 1 => min (saturatedTerm factor denominator i * factor) u128Max / min (denominator * (i + 1)) u128Max

variable {factor denominator : Nat}

theorem priceTerm_decreases (hd : 0 < denominator) {i : Nat} (hi : factor ≤ i) :
    priceTerm factor denominator (i + 1) ≤ priceTerm factor denominator i - 1 := by
  rcases Nat.eq_zero_or_pos (priceTerm factor denominator i) with h0 | hpos
  · simp [priceTerm, h0]
  · have hfactor : factor < denominator * (i + 1) :=
      (Nat.lt_succ_of_le hi).trans_le (Nat.le_mul_of_pos_left _ hd)
    have hlt : priceTerm factor denominator (i + 1) < priceTerm factor denominator i :=
      Nat.div_lt_of_lt_mul (by rw [Nat.mul_comm (denominator * (i + 1))]; exact Nat.mul_lt_mul_of_pos_left hfactor hpos)
    omega

/-- Once the index has passed the factor every numerator is smaller than the one before. -/
theorem priceTerm_vanishes (factor : Nat) (hd : 0 < denominator) : ∃ n, priceTerm factor denominator n = 0 := by
  have hfall : ∀ k, priceTerm factor denominator (factor + k) ≤ priceTerm factor denominator factor - k := by
    intro k
    induction k with
    | zero => exact le_rfl
    | succ k ih =>
      have := priceTerm_decreases hd (Nat.le_add_right factor k)
      rw [Nat.add_assoc] at this
      omega
  refine ⟨factor + priceTerm factor denominator factor, Nat.le_zero.1 ?_⟩
  simpa using hfall (priceTerm factor denominator factor)

/-- How often the loop of EIP-4844 turns. -/
def priceTurns (factor : Nat) (hd : 0 < denominator) : Nat := Nat.find (priceTerm_vanishes factor hd)

/-- `fake_exponential` of EIP-4844, over the integers. -/
def eipFakeExponential (factor : Nat) (hd : 0 < denominator) : Nat :=
  (∑ i ∈ range (priceTurns factor hd), priceTerm factor denominator i) / denominator

/-- No product that the loop forms over the integers leaves a `u128`. -/
def ProductsFit (factor : Nat) (hd : 0 < denominator) : Prop :=
  ∀ i < priceTurns factor hd, priceTerm factor denominator i * factor < 2 ^ 128 ∧ denominator * (i + 1) < 2 ^ 128

/-! ## The code's terms -/

/-- What is asked of a denominator: with room for the harmonic sum, and half a `u128` for its
    next multiple. -/
structure Roomy (factor denominator : Nat) : Prop where
  pos : 0 < denominator
  factor : factor < u128Max
  sum : denominator + 128 * (u128Max / denominator) ≤ u128Max
  half : 2 * denominator ≤ u128Max

theorem saturatedTerm_succ_le (h : Roomy factor denominator) (i : Nat) :
    saturatedTerm factor denominator (i + 1) ≤ u128Max / (denominator * (i + 1)) := by
  by_cases hfits : denominator * (i + 1) ≤ u128Max
  · unfold saturatedTerm
    rw [min_eq_left hfits]
    exact Nat.div_le_div_right (min_le_right _ _)
  -- a denominator this large is kept at the maximum, and the numerator before was at most 1
  have hzero : saturatedTerm factor denominator (i + 1) = 0 := by
    cases i with
    | zero =>
      have := h.half
      omega
    | succ i =>
      have hover : u128Max < denominator * (i + 1) + denominator := by
        rw [← Nat.mul_succ]
        exact not_le.1 hfits
      have hbefore : saturatedTerm factor denominator (i + 1) ≤ 1 := by
        have hhalf : u128Max < 2 * min (denominator * (i + 1)) u128Max := by
          have := h.half
          have := h.factor
          omega
        refine (Nat.div_le_div_right (min_le_right _ _)).trans (Nat.le_of_lt_succ ?_)
        exact Nat.div_lt_of_lt_mul (by rwa [Nat.mul_comm] at hhalf)
      have hproduct : saturatedTerm factor denominator (i + 1) * factor ≤ factor := by
        simpa using Nat.mul_le_mul_right factor hbefore
      rw [saturatedTerm, min_eq_right (not_le.1 hfits).le]
      exact Nat.div_eq_of_lt ((min_le_left _ _).trans_lt (hproduct.trans_lt h.factor))
  rw [hzero]
  exact Nat.zero_le _

theorem saturatedTerm_le_priceTerm (h : Roomy factor denominator) (i : Nat) :
    saturatedTerm factor denominator i ≤ priceTerm factor denominator i := by
  induction i with
  | zero => exact le_rfl
  | succ i ih =>
    by_cases hfits : denominator * (i + 1) ≤ u128Max
    · rw [saturatedTerm, priceTerm, min_eq_left hfits]
      exact Nat.div_le_div_right ((min_le_left _ _).trans (Nat.mul_le_mul_right factor ih))
    · have hzero : u128Max / (denominator * (i + 1)) = 0 := Nat.div_eq_of_lt (not_le.1 hfits)
      have := saturatedTerm_succ_le h i
      omega

theorem saturatedTerm_vanishes (h : Roomy factor denominator) : ∃ n, saturatedTerm factor denominator n = 0 := by
  obtain ⟨n, hn⟩ := priceTerm_vanishes factor h.pos
  exact ⟨n, Nat.le_zero.1 (hn ▸ saturatedTerm_le_priceTerm h n)⟩

/-- How often the code's loop turns. -/
def saturatedTurns (h : Roomy factor denominator) : Nat := Nat.find (saturatedTerm_vanishes h)

theorem saturatedTurns_le (h : Roomy factor denominator) : saturatedTurns h ≤ priceTurns factor h.pos := by
  refine Nat.find_min' _ (Nat.le_zero.1 ?_)
  have hzero : priceTerm factor denominator (priceTurns factor h.pos) = 0 := Nat.find_spec (priceTerm_vanishes factor h.pos)
  exact hzero ▸ saturatedTerm_le_priceTerm h _

/-! ## The sum -/

/-- The harmonic sum to a power of two, octave by octave. -/
theorem sum_octaves (a k : Nat) : ∑ i ∈ Ico 1 (2 ^ k), a / i ≤ k * a := by
  induction k with
  | zero => simp
  | succ k ih =>
    have hpow : 2 ^ k ≤ 2 ^ (k + 1) := Nat.pow_le_pow_right (by omega) (by omega)
    have hcard : (Ico (2 ^ k) (2 ^ (k + 1))).card = 2 ^ k := by
      rw [Nat.card_Ico, pow_succ]
      omega
    have hoctave : ∑ i ∈ Ico (2 ^ k) (2 ^ (k + 1)), a / i ≤ a := by
      calc ∑ i ∈ Ico (2 ^ k) (2 ^ (k + 1)), a / i
          ≤ (Ico (2 ^ k) (2 ^ (k + 1))).card • (a / 2 ^ k) :=
            sum_le_card_nsmul _ _ _ fun i hi => Nat.div_le_div_left (mem_Ico.1 hi).1 (Nat.two_pow_pos k)
        _ = 2 ^ k * (a / 2 ^ k) := by rw [hcard]; rfl
        _ ≤ a := Nat.mul_div_le a _
    rw [← sum_Ico_consecutive _ Nat.one_le_two_pow hpow]
    calc ∑ i ∈ Ico 1 (2 ^ k), a / i + ∑ i ∈ Ico (2 ^ k) (2 ^ (k + 1)), a / i ≤ k * a + a := Nat.add_le_add ih hoctave
      _ = (k + 1) * a := (Nat.succ_mul k a).symm

/-- Terms past `a` are zero. -/
theorem sum_harmonic_le {a k : Nat} (ha : a < 2 ^ k) (n : Nat) : ∑ i ∈ Ico 1 n, a / i ≤ k * a := by
  refine le_trans (sum_le_sum_of_ne_zero fun i hi hne => ?_) (sum_octaves a k)
  have hle : i ≤ a := by
    by_contra hlt
    exact hne (Nat.div_eq_of_lt (not_le.1 hlt))
  exact mem_Ico.2 ⟨(mem_Ico.1 hi).1, hle.trans_lt ha⟩

/-- The running sum never leaves a `u128`. -/
theorem sum_saturatedTerm_le (h : Roomy factor denominator) (n : Nat) :
    ∑ i ∈ range n, saturatedTerm factor denominator i ≤ u128Max := by
  rcases n with _ | n
  · simp
  have hdiv : u128Max / denominator < 2 ^ 128 := (Nat.div_le_self _ _).trans_lt (by decide)
  have hterms : ∑ i ∈ Ico 1 (n + 1), saturatedTerm factor denominator i ≤ ∑ i ∈ Ico 1 (n + 1),
    u128Max / denominator / i := by
    refine sum_le_sum fun i hi => ?_
    obtain ⟨j, rfl⟩ : ∃ j, i = j + 1 := ⟨i - 1, (Nat.sub_add_cancel (mem_Ico.1 hi).1).symm⟩
    rw [Nat.div_div_eq_div_mul]
    exact saturatedTerm_succ_le h j
  have hsum := sum_harmonic_le hdiv (n + 1)
  have hroom := h.sum
  rw [range_eq_Ico, sum_eq_sum_Ico_succ_bot (Nat.succ_pos n)]
  show denominator + ∑ i ∈ Ico 1 (n + 1), saturatedTerm factor denominator i ≤ u128Max
  omega

/-! ## The loop -/

theorem turn_lt (h : Roomy factor denominator) {i : Nat} (hpos : 0 < saturatedTerm factor denominator i) :
    i + 2 ≤ u128Max := by
  rcases i with _ | i
  · decide
  have hle := saturatedTerm_succ_le h i
  rw [← Nat.div_div_eq_div_mul] at hle
  have hindex : i + 1 ≤ u128Max / denominator := by
    by_contra hlt
    rw [Nat.div_eq_of_lt (not_le.1 hlt)] at hle
    omega
  have := h.sum
  have := h.pos
  omega

/-- The loop from a turn on adds up the terms that are left, by induction on the turns that are. -/
theorem loop_saturated (h : Roomy factor denominator) (k i : Nat) (hk : i + k = saturatedTurns h) :
    fakeExponentialLoop factor denominator (∑ j ∈ range i, saturatedTerm factor denominator j)
      (saturatedTerm factor denominator i) (i + 1) =
        .ok (∑ j ∈ range (saturatedTurns h), saturatedTerm factor denominator j) := by
  induction k generalizing i with
  | zero =>
    have hzero : saturatedTerm factor denominator (saturatedTurns h) = 0 := Nat.find_spec (saturatedTerm_vanishes h)
    rw [Nat.add_zero] at hk
    rw [hk, hzero, fakeExponentialLoop, if_pos rfl]
  | succ k ih =>
    have hne : saturatedTerm factor denominator i ≠ 0 := Nat.find_min (saturatedTerm_vanishes h) (by
      show i < saturatedTurns h
      omega)
    have hsum := sum_saturatedTerm_le h (i + 1)
    have hindex := turn_lt h (Nat.pos_of_ne_zero hne)
    rw [sum_range_succ] at hsum
    rw [fakeExponentialLoop, if_neg hne, if_neg (not_lt.2 hsum), if_neg (by omega), ← sum_range_succ]
    exact ih (i + 1) (by omega)

/-- `fake_exponential` overflows nowhere and returns the sum of its terms. -/
theorem fakeExponential_saturated (h : Roomy factor denominator) :
    fakeExponential factor denominator =
      .ok (BitVec.ofNat 256 ((∑ i ∈ range (saturatedTurns h), saturatedTerm factor denominator i) / denominator)) := by
  have hloop : fakeExponentialLoop factor denominator 0 denominator 1 =
      .ok (∑ i ∈ range (saturatedTurns h), saturatedTerm factor denominator i) := by
    have hrun := loop_saturated h _ 0 (Nat.zero_add _)
    rwa [range_zero, sum_empty] at hrun
  rw [fakeExponential, hloop]
  rfl

/-! ## The price -/

/-- Where all products fit the code's terms are EIP-4844's. -/
theorem saturatedTerm_eq (h : Roomy factor denominator) (hfits : ProductsFit factor h.pos) {i : Nat}
    (hi : i ≤ priceTurns factor h.pos) : saturatedTerm factor denominator i = priceTerm factor denominator i := by
  induction i with
  | zero => rfl
  | succ i ih =>
    obtain ⟨hproduct, hmultiple⟩ := hfits i hi
    have hproduct : priceTerm factor denominator i * factor ≤ u128Max := Nat.le_sub_one_of_lt hproduct
    have hmultiple : denominator * (i + 1) ≤ u128Max := Nat.le_sub_one_of_lt hmultiple
    rw [saturatedTerm, priceTerm, ih (Nat.le_of_succ_le hi), min_eq_left hproduct, min_eq_left hmultiple]

theorem saturatedTurns_eq (h : Roomy factor denominator) (hfits : ProductsFit factor h.pos) :
    saturatedTurns h = priceTurns factor h.pos := by
  refine le_antisymm (saturatedTurns_le h) (Nat.find_min' _ ?_)
  have hzero : saturatedTerm factor denominator (saturatedTurns h) = 0 := Nat.find_spec (saturatedTerm_vanishes h)
  rwa [saturatedTerm_eq h hfits (saturatedTurns_le h)] at hzero

theorem sum_saturatedTerm_le_sum (h : Roomy factor denominator) :
    ∑ i ∈ range (saturatedTurns h), saturatedTerm factor denominator i ≤
      ∑ i ∈ range (priceTurns factor h.pos), priceTerm factor denominator i := by
  calc ∑ i ∈ range (saturatedTurns h), saturatedTerm factor denominator i
      ≤ ∑ i ∈ range (saturatedTurns h), priceTerm factor denominator i :=
        sum_le_sum fun i _ => saturatedTerm_le_priceTerm h i
    _ ≤ ∑ i ∈ range (priceTurns factor h.pos), priceTerm factor denominator i :=
        sum_le_sum_of_subset (range_subset_range.2 (saturatedTurns_le h))

theorem updateFraction_pos : 0 < blobGaspriceUpdateFraction := by decide

theorem roomy_updateFraction (hsmall : factor < 2 ^ 64) : Roomy factor blobGaspriceUpdateFraction where
  pos := updateFraction_pos
  factor := hsmall.trans (by decide)
  sum := by decide
  half := by decide

/-- Without an excess the loop turns once. -/
theorem fakeExponential_zero : fakeExponential 0 blobGaspriceUpdateFraction = .ok 1 := by
  have hloop : fakeExponentialLoop 0 blobGaspriceUpdateFraction 0 blobGaspriceUpdateFraction 1 =
      .ok blobGaspriceUpdateFraction := by
    rw [fakeExponentialLoop, if_neg (by decide), if_neg (by decide), if_neg (by decide), fakeExponentialLoop,
      if_pos (by decide), Nat.zero_add]
  rw [fakeExponential, hloop]
  rfl

/-- For an excess below `2^64` the code's `fake_exponential` overflows nowhere, and the price it
    returns is that of EIP-4844 if no product over the integers leaves a `u128`, and at most
    that in any case. -/
theorem blob_gas_price_exact (h : Header) (hsmall : h.excessBlobGas.toNat < 2 ^ 64) :
    ∃ price, fakeExponential h.excessBlobGas.toNat blobGaspriceUpdateFraction = .ok price ∧ h.blobGasPrice = .ok price ∧
      (ProductsFit h.excessBlobGas.toNat updateFraction_pos →
        price.toNat = eipFakeExponential h.excessBlobGas.toNat updateFraction_pos) ∧
      price.toNat ≤ eipFakeExponential h.excessBlobGas.toNat updateFraction_pos := by
  have hroomy := roomy_updateFraction hsmall
  have hrun := fakeExponential_saturated hroomy
  have hnat : (BitVec.ofNat 256 ((∑ i ∈ range (saturatedTurns hroomy), saturatedTerm h.excessBlobGas.toNat
      blobGaspriceUpdateFraction i) / blobGaspriceUpdateFraction)).toNat =
      (∑ i ∈ range (saturatedTurns hroomy), saturatedTerm h.excessBlobGas.toNat blobGaspriceUpdateFraction i) /
        blobGaspriceUpdateFraction := by
    rw [BitVec.toNat_ofNat, Nat.mod_eq_of_lt]
    exact ((Nat.div_le_self _ _).trans (sum_saturatedTerm_le hroomy _)).trans_lt (by decide)
  refine ⟨_, hrun, ?_, fun hfits => ?_, ?_⟩
  · by_cases hzero : h.excessBlobGas = 0
    · rw [Header.blobGasPrice, if_pos hzero, ← hrun, hzero]
      exact fakeExponential_zero.symm
    · rw [Header.blobGasPrice, if_neg hzero, Word.asU64, if_pos hsmall]
      exact hrun
  · rw [hnat, eipFakeExponential, ← saturatedTurns_eq hroomy hfits]
    refine congrArg (· / blobGaspriceUpdateFraction) (sum_congr rfl fun i hi => ?_)
    exact saturatedTerm_eq hroomy hfits ((mem_range.1 hi).le.trans (saturatedTurns_le hroomy))
  · rw [hnat]
    exact Nat.div_le_div_right (sum_saturatedTerm_le_sum hroomy)

/-- An excess of one update fraction: the price is 2, which is e without its fraction. -/
theorem blob_gas_price_exact_fraction : ({ excessBlobGas := 3338477 } : Header).blobGasPrice = .ok 2 ∧
    eipFakeExponential 3338477 updateFraction_pos = 2 := by
  obtain ⟨price, -, hprice, hexact, -⟩ := blob_gas_price_exact { excessBlobGas := 3338477 } (by decide)
  have htwo : ({ excessBlobGas := 3338477 } : Header).blobGasPrice = .ok 2 := by decide +kernel
  obtain rfl : price = 2 := Except.ok.inj (hprice.symm.trans htwo)
  have hturns : priceTurns 3338477 updateFraction_pos ≤ 20 := Nat.find_min' _ (by decide +kernel)
  have hsmall : ∀ i < 20, priceTerm 3338477 blobGaspriceUpdateFraction i * 3338477 < 2 ^ 128 ∧
      blobGaspriceUpdateFraction * (i + 1) < 2 ^ 128 := by decide +kernel
  exact ⟨htwo, (hexact fun i hi => hsmall i (hi.trans_le hturns)).symm⟩

end Solenoid
