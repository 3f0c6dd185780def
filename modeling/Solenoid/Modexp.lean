/-
  Solenoid.Modexp — MODEXP: what it returns and what it charges, against EIP-198 and
  EIP-7883.

  - `modexp_result`: an input is to be read as if zeros followed it. The code returns nothing
    for one that ends before its operands do, so it returns the power exactly when the input
    holds its operands, or no byte is to be returned.
  - `modexp_price`: the code has neither the factor 2 of the multiplication complexity nor its
    least value 16, takes the exponent for absent when the input ends within it, and refuses
    an oversized length with `u64::MAX`, which as an `i64` gives gas back. What it charges is
    the price where that is its minimum, and for operands of 25 to 32 bytes.
-/
import Solenoid.Inputs
import Solenoid.Forwarding
import Mathlib.Data.Nat.Size

namespace Solenoid.Precompiles

variable {input : Bytes} {start len : Nat}

/-! ## Lengths -/

/-- The declared lengths of base, exponent and modulus. -/
def baseLen (input : Bytes) : Nat := wordAt input 0 32

def expLen (input : Bytes) : Nat := wordAt input 32 32

def modLen (input : Bytes) : Nat := wordAt input 64 32

/-- EIP-7823. -/
structure WithinLimit (input : Bytes) : Prop where
  base : baseLen input ≤ modexpMaxInputLen
  exp : expLen input ≤ modexpMaxInputLen
  modulus : modLen input ≤ modexpMaxInputLen

theorem declaredLen_eq (h : start + 32 ≤ input.length) (hle : wordAt input start 32 ≤ modexpMaxInputLen) :
    declaredLen input start = wordAt input start 32 := by
  have hmax : modexpMaxInputLen = 1024 := rfl
  have hlt : fieldNat input start 32 < 2 ^ 64 := by
    rw [← wordAt_of_le h]
    omega
  rw [declaredLen, if_pos hlt, wordAt_of_le h]

theorem WithinLimit.declared (h : WithinLimit input) (hlen : 96 ≤ input.length) :
    declaredLen input 0 = baseLen input ∧ declaredLen input 32 = expLen input ∧ declaredLen input 64 = modLen input :=
  ⟨declaredLen_eq (by omega) h.base, declaredLen_eq (by omega) h.exp, declaredLen_eq (by omega) h.modulus⟩

/-! ## The result -/

/-- The power, of as many bytes as the modulus is declared to have. -/
def power (input : Bytes) : Bytes :=
  let base := wordAt input 96 (baseLen input)
  let exp := wordAt input (96 + baseLen input) (expLen input)
  let modulus := wordAt input (96 + baseLen input + expLen input) (modLen input)
  natToBytes (modLen input) (if modulus = 0 then 0 else base ^ exp % modulus)

/-- How much of an input the operands take. -/
def operandsTill (input : Bytes) : Nat := 96 + baseLen input + expLen input + modLen input

/-- MODEXP returns the power, and does not tell an input from one that zeros follow. -/
structure Exponentiates (input : Bytes) : Prop where
  power : modexp input = .ok (power input)
  extended : ∀ k, modexp (input ++ List.replicate k 0) = modexp input

theorem power_append_zeros (input : Bytes) (k : Nat) : power (input ++ List.replicate k 0) = power input := by
  unfold power baseLen expLen modLen
  rw [wordAt_append_zeros]

/-- An input that ends before its operands gets no answer. -/
theorem modexp_short (h : WithinLimit input) (hshort : input.length < operandsTill input) : modexp input = .ok [] := by
  unfold modexp
  by_cases hlen : input.length < 96
  · rw [if_pos hlen]
  · obtain ⟨hb, he, hm⟩ := h.declared (not_lt.1 hlen)
    have hlimit : ¬(modexpMaxInputLen < baseLen input ∨ modexpMaxInputLen < expLen input ∨
      modexpMaxInputLen < modLen input) := by
      rintro (hlt | hlt | hlt)
      · exact absurd h.base (not_le.2 hlt)
      · exact absurd h.exp (not_le.2 hlt)
      · exact absurd h.modulus (not_le.2 hlt)
    have hends : input.length < baseLen input + expLen input + modLen input + 96 := by
      unfold operandsTill at hshort
      omega
    rw [if_neg hlen]
    simp only [hb, he, hm]
    rw [if_neg hlimit, if_pos hends]

/-- A result is filled up to the length of the modulus. -/
theorem toBytesBe_padded {len n : Nat} (hlen : 0 < len) (h : n < 256 ^ len) :
    (if (toBytesBe n).length < len then List.replicate (len - (toBytesBe n).length) 0 ++ toBytesBe n else toBytesBe n) =
      natToBytes len n := by
  unfold toBytesBe
  by_cases hzero : n = 0
  · rw [if_pos hzero, hzero, natToBytes_zero]
    split
    · rw [← List.replicate_succ', List.length_singleton, Nat.sub_add_cancel hlen]
    · next hshort =>
      obtain rfl : len = 1 := by simpa using (Nat.le_antisymm (not_lt.1 hshort) hlen)
      rfl
  · rw [if_neg hzero]
    obtain ⟨hle, hpadded⟩ := replicate_append_bigEndian h
    split
    · exact hpadded
    · next hshort => rwa [show len - (Rlp.bigEndian n).length = 0 by omega, List.replicate_zero, List.nil_append] at hpadded

/-- One that holds them gets the power. -/
theorem modexp_long (h : WithinLimit input) (hlong : operandsTill input ≤ input.length) :
    modexp input = .ok (power input) := by
  unfold operandsTill at hlong
  have hlen : ¬input.length < 96 := by omega
  obtain ⟨hb, he, hm⟩ := h.declared (not_lt.1 hlen)
  have hlimit : ¬(modexpMaxInputLen < baseLen input ∨ modexpMaxInputLen < expLen input ∨
    modexpMaxInputLen < modLen input) := by
    rintro (hlt | hlt | hlt)
    · exact absurd h.base (not_le.2 hlt)
    · exact absurd h.exp (not_le.2 hlt)
    · exact absurd h.modulus (not_le.2 hlt)
  have hends : ¬input.length < baseLen input + expLen input + modLen input + 96 := by omega
  unfold modexp power
  rw [if_neg hlen]
  simp only [hb, he, hm]
  rw [if_neg hlimit, if_neg hends, wordAt_of_le (by omega), wordAt_of_le (by omega), wordAt_of_le (by omega)]
  split
  · rw [natToBytes_zero]
  · next hmodulus =>
    have hlt : wordAt input (96 + baseLen input + expLen input) (modLen input) < 256 ^ modLen input := by
      have hwindow := natOfBytes_lt (window input (96 + baseLen input + expLen input) (modLen input))
      rwa [window_length] at hwindow
    rw [wordAt_of_le (by omega)] at hlt
    have hpos : 0 < modLen input := by
      refine Nat.pos_of_ne_zero fun hnone => hmodulus (Nat.lt_one_iff.1 (hlt.trans_eq ?_))
      rw [hnone, pow_zero]
    exact congrArg Except.ok (toBytesBe_padded hpos ((Nat.mod_lt _ (Nat.pos_of_ne_zero hmodulus)).trans hlt))

theorem WithinLimit.append_zeros (h : WithinLimit input) (k : Nat) : WithinLimit (input ++ List.replicate k 0) := by
  constructor
  · rw [baseLen, wordAt_append_zeros]
    exact h.base
  · rw [expLen, wordAt_append_zeros]
    exact h.exp
  · rw [modLen, wordAt_append_zeros]
    exact h.modulus

theorem operandsTill_append_zeros (input : Bytes) (k : Nat) :
    operandsTill (input ++ List.replicate k 0) = operandsTill input := by
  unfold operandsTill baseLen expLen modLen
  rw [wordAt_append_zeros]

/-- MODEXP returns the power exactly when the input holds its operands, or none of the result
    is asked for. -/
theorem modexp_result (h : WithinLimit input) :
    Exponentiates input ↔ operandsTill input ≤ input.length ∨ modLen input = 0 := by
  have hnone : modLen input = 0 → power input = [] := fun hzero => by
    rw [power, hzero]
    rfl
  have hmeets : ∀ k, operandsTill input ≤ input.length ∨ modLen input = 0 →
      modexp (input ++ List.replicate k 0) = .ok (power input) := by
    intro k hcond
    have h' := h.append_zeros k
    rcases lt_or_ge (input ++ List.replicate k 0).length (operandsTill (input ++ List.replicate k 0)) with hshort | hlong
    · rw [modexp_short h' hshort]
      rw [operandsTill_append_zeros, List.length_append] at hshort
      rcases hcond with hlong | hzero
      · omega
      · rw [hnone hzero]
    · rw [modexp_long h' hlong, power_append_zeros]
  constructor
  · intro hexp
    by_contra hnot
    obtain ⟨hshort, hsome⟩ := not_or.1 hnot
    have hpower := hexp.power
    rw [modexp_short h (not_le.1 hshort)] at hpower
    have hlen := congrArg List.length (Except.ok.inj hpower)
    rw [power, natToBytes_length] at hlen
    exact hsome hlen.symm
  · intro hcond
    have hself : modexp input = .ok (power input) := by
      have hzero := hmeets 0 hcond
      rwa [List.replicate_zero, List.append_nil] at hzero
    exact ⟨hself, fun k => by rw [hmeets k hcond, hself]⟩

/-! ## Bit lengths -/

theorem size_mul_two_pow_add {q r k : Nat} (hq : q ≠ 0) (hr : r < 2 ^ k) : (q * 2 ^ k + r).size = q.size + k := by
  have hpos : 0 < q.size := Nat.size_pos.2 (Nat.pos_of_ne_zero hq)
  have hlow : 2 ^ (q.size - 1) ≤ q := Nat.lt_size.1 (by omega)
  have hhigh : q + 1 ≤ 2 ^ q.size := Nat.lt_size_self q
  refine le_antisymm (Nat.size_le.2 ?_) ?_
  · calc q * 2 ^ k + r < q * 2 ^ k + 2 ^ k := by omega
      _ = (q + 1) * 2 ^ k := by ring
      _ ≤ 2 ^ q.size * 2 ^ k := Nat.mul_le_mul_right _ hhigh
      _ = 2 ^ (q.size + k) := (pow_add 2 q.size k).symm
  · have hle : 2 ^ (q.size - 1 + k) ≤ q * 2 ^ k + r := by
      rw [pow_add]
      exact (Nat.mul_le_mul_right _ hlow).trans (Nat.le_add_right _ _)
    have hsize := Nat.lt_size.2 hle
    omega

/-- The loop over the bytes computes the bit length. -/
theorem bitLen_eq_size : ∀ b : Bytes, bitLen b = (natOfBytes b).size
  | [] => by simp [bitLen]
  | byte :: rest => by
    have hrest : natOfBytes rest < 2 ^ (8 * rest.length) := by
      rw [pow_mul]
      exact natOfBytes_lt rest
    have hcons : natOfBytes (byte :: rest) = byte.toNat * 2 ^ (8 * rest.length) + natOfBytes rest := by
      have hbyte : natOfBytes [byte] = byte.toNat := by simp [natOfBytes]
      rw [← List.singleton_append, natOfBytes_append, hbyte, pow_mul]
      norm_num
    unfold bitLen
    rw [hcons]
    by_cases hbyte : byte = 0
    · rw [hbyte, if_neg (by simp), bitLen_eq_size rest, UInt8.toNat_zero, Nat.zero_mul, Nat.zero_add]
    · have hnat : byte.toNat ≠ 0 := fun h => hbyte (UInt8.toNat_inj.1 h)
      have hlog : byte.toNat.log2 < 8 := (Nat.log2_lt hnat).2 byte.toNat_lt
      have hsize : byte.toNat.size = byte.toNat.log2 + 1 := by
        refine le_antisymm (Nat.size_le.2 Nat.lt_log2_self) (Nat.lt_size.2 (Nat.log2_self_le hnat))
      rw [if_pos hbyte, size_mul_two_pow_add hnat hrest, leadingZeros, if_neg hbyte, hsize]
      omega

/-! ## The price -/

/-- The longer of base and modulus. -/
def operandLen (input : Bytes) : Nat := max (baseLen input) (modLen input)

/-- The multiplication complexity of EIP-7883. -/
def complexity (input : Bytes) : Nat :=
  if operandLen input ≤ 32 then 16 else 2 * divCeil (operandLen input) 8 ^ 2

/-- The first 32 bytes of the exponent, or all of it. -/
def exponentHead (input : Bytes) : Nat := wordAt input (96 + baseLen input) (min (expLen input) 32)

/-- The iteration count of EIP-7883. -/
def iterations (input : Bytes) : Nat := 16 * (expLen input - 32) + ((exponentHead input).size - 1)

/-- The price of EIP-7883, its least value aside. -/
def fullPrice (input : Bytes) : Nat := complexity input * max 1 (iterations input)

def price (input : Bytes) : Nat := max 500 (fullPrice input)

/-- Where the code's shortcuts do not show. -/
structure Untouched (input : Bytes) : Prop where
  header : 96 ≤ input.length
  operands : 25 ≤ operandLen input ∧ operandLen input ≤ 32
  head : 96 + baseLen input + min (expLen input) 32 ≤ input.length ∨ exponentHead input = 0

/-- What the code multiplies, its least price aside. -/
def takenPrice (input : Bytes) : Nat :=
  if input.length < 96 then 0
  else divCeil (operandLen input) 8 ^ 2 * max (modexpIterationCount input (baseLen input) (expLen input)) 1

theorem modexpGasCost_eq (h : WithinLimit input) : modexpGasCost input = max 500 (takenPrice input) := by
  unfold modexpGasCost takenPrice
  by_cases hlen : input.length < 96
  · rw [if_pos hlen, if_pos hlen]
    rfl
  · obtain ⟨hb, he, hm⟩ := h.declared (not_lt.1 hlen)
    have hlimit : ¬(modexpMaxInputLen < baseLen input ∨ modexpMaxInputLen < expLen input ∨
      modexpMaxInputLen < modLen input) := by
      rintro (hlt | hlt | hlt)
      · exact absurd h.base (not_le.2 hlt)
      · exact absurd h.exp (not_le.2 hlt)
      · exact absurd h.modulus (not_le.2 hlt)
    rw [if_neg hlen, if_neg hlen]
    simp only [hb, he, hm]
    rw [if_neg hlimit, max_comm, sq]
    rfl

theorem takenPrice_lt (h : WithinLimit input) : takenPrice input < 2 ^ 63 := by
  have hmax : modexpMaxInputLen = 1024 := rfl
  have hlen : operandLen input ≤ 1024 := by
    have := h.base
    have := h.modulus
    unfold operandLen
    omega
  have hwords : divCeil (operandLen input) 8 ^ 2 ≤ 128 ^ 2 :=
    Nat.pow_le_pow_left (by unfold divCeil; omega) 2
  have hcount : max (modexpIterationCount input (baseLen input) (expLen input)) 1 ≤ 2 ^ 15 := by
    have := modexpIterationCount_le input (baseLen input) (h.exp.trans_eq hmax)
    omega
  unfold takenPrice
  split
  · norm_num
  · exact (Nat.mul_le_mul hwords hcount).trans_lt (by norm_num)

/-- The code's count: that of the EIP, unless the input ends within the head of the exponent. -/
theorem iterationCount_cases (input : Bytes) :
    (96 + baseLen input + min (expLen input) 32 ≤ input.length →
      modexpIterationCount input (baseLen input) (expLen input) = iterations input) ∧
    (input.length < 96 + baseLen input + min (expLen input) 32 →
      max (modexpIterationCount input (baseLen input) (expLen input)) 1 = max 1 (16 * (expLen input - 32))) := by
  unfold modexpIterationCount iterations exponentHead
  by_cases hsmall : expLen input ≤ 32
  · rw [Nat.min_eq_left hsmall]
    constructor
    · intro hends
      rw [if_pos ⟨hsmall, hends⟩, wordAt_of_le hends, fieldNat, ← bitLen_eq_size]
      dsimp only
      split
      · next hzero =>
        have hbytes := List.eq_replicate_of_mem fun x hx => beq_iff_eq.1 (List.all_eq_true.1 hzero x hx)
        rw [bitLen_eq_size, hbytes, natOfBytes_replicate_zero, Nat.size_zero]
        omega
      · omega
    · intro hshort
      rw [if_neg (fun h => by omega), if_neg (by omega)]
      omega
  · rw [Nat.min_eq_right (by omega)]
    constructor
    · intro hends
      rw [if_neg (fun h => hsmall h.1), if_pos (by omega), if_pos hends, wordAt_of_le hends, fieldNat, ← bitLen_eq_size]
    · intro hshort
      rw [if_neg (fun h => hsmall h.1), if_pos (by omega), if_neg (by omega)]
      omega

theorem complexity_pos (input : Bytes) : 0 < complexity input := by
  unfold complexity divCeil
  split
  · decide
  · have hwords : 0 < (operandLen input + 8 - 1) / 8 := by omega
    positivity

/-- The code's complexity is at most that of the EIP, and is it for 25 to 32 bytes. -/
theorem words_le_complexity (input : Bytes) : divCeil (operandLen input) 8 ^ 2 ≤ complexity input ∧
    (divCeil (operandLen input) 8 ^ 2 = complexity input ↔ 25 ≤ operandLen input ∧ operandLen input ≤ 32) := by
  unfold complexity
  generalize operandLen input = len
  have hwords : divCeil len 8 = (len + 7) / 8 := rfl
  split
  · next hsmall =>
    have hle : divCeil len 8 ≤ 4 := by omega
    interval_cases hw : divCeil len 8 <;> omega
  · next hlarge =>
    have hpos : 0 < divCeil len 8 ^ 2 := by
      have hsome : 0 < divCeil len 8 := by omega
      positivity
    omega

theorem size_le_two {n : Nat} (h : n.size ≤ 2) (hdvd : 256 ∣ n) : n = 0 := by
  have hlt : n < 2 ^ 2 := Nat.size_le.1 h
  obtain ⟨k, rfl⟩ := hdvd
  omega

/-- The code's count is at most that of the EIP, and is it when the head of the exponent is
    there or zero. -/
theorem count_le_iterations (input : Bytes) :
    max (modexpIterationCount input (baseLen input) (expLen input)) 1 ≤ max 1 (iterations input) ∧
    (max (modexpIterationCount input (baseLen input) (expLen input)) 1 = max 1 (iterations input) ↔
      96 + baseLen input + min (expLen input) 32 ≤ input.length ∨ exponentHead input = 0) := by
  obtain ⟨hthere, hshort⟩ := iterationCount_cases input
  by_cases hends : 96 + baseLen input + min (expLen input) 32 ≤ input.length
  · rw [hthere hends, max_comm]
    exact ⟨le_rfl, fun _ => .inl hends, fun _ => rfl⟩
  · rw [hshort (not_le.1 hends)]
    have hdvd : 256 ∣ exponentHead input := dvd_wordAt (not_le.1 hends)
    unfold iterations
    refine ⟨by omega, fun heq => .inr (size_le_two ?_ hdvd), ?_⟩
    · omega
    · rintro (h | hzero)
      · exact absurd h hends
      · rw [hzero, Nat.size_zero]
        omega

/-- What the code charges is the price where both are at their least, and where its shortcuts
    do not show. -/
theorem modexpGasCost_eq_price (h : WithinLimit input) :
    modexpGasCost input = price input ↔ fullPrice input ≤ 500 ∨ Untouched input := by
  obtain ⟨hwords, hwords_iff⟩ := words_le_complexity input
  obtain ⟨hcount, hcount_iff⟩ := count_le_iterations input
  have hc := complexity_pos input
  have hk : 0 < max 1 (iterations input) := by omega
  have hle : takenPrice input ≤ fullPrice input := by
    unfold takenPrice fullPrice
    split
    · exact Nat.zero_le _
    · exact Nat.mul_le_mul hwords hcount
  rw [modexpGasCost_eq h, price]
  constructor
  · intro heq
    by_cases hsmall : fullPrice input ≤ 500
    · exact .inl hsmall
    · have hsame : takenPrice input = fullPrice input := by omega
      have hheader : ¬input.length < 96 := by
        intro hlen
        rw [takenPrice, if_pos hlen] at hsame
        omega
      rw [takenPrice, if_neg hheader, fullPrice] at hsame
      -- both factors are at most the EIP's, so both are the EIP's
      have hfactor : divCeil (operandLen input) 8 ^ 2 = complexity input := by
        by_contra hne
        have hlt := lt_of_le_of_ne hwords hne
        have := Nat.mul_lt_mul_of_lt_of_le hlt hcount hk
        omega
      rw [hfactor] at hsame
      exact .inr ⟨not_lt.1 hheader, hwords_iff.1 hfactor, hcount_iff.1 (Nat.eq_of_mul_eq_mul_left hc hsame)⟩
  · rintro (hsmall | huntouched)
    · omega
    · rw [takenPrice, if_neg (not_lt.2 huntouched.header), hwords_iff.2 huntouched.operands, hcount_iff.2 huntouched.head]
      rfl

/-! ## Charging it -/

/-- The address of MODEXP. -/
def modexpAddress : Address := 5

/-- MODEXP is charged at its price; oversized lengths cannot be paid; and no charge gives gas
    back. -/
structure Priced (input : Bytes) : Prop where
  price : WithinLimit input → gasCost modexpAddress input = price input
  oversized : ¬WithinLimit input → ∀ gas : Gas, 0 ≤ gas.remaining → (gas.sub (gasCost modexpAddress input)).2 = false
  charged : ∀ gas : Gas, 0 ≤ gas.remaining → gas.used ≤ (gas.sub (gasCost modexpAddress input)).1.used

theorem gasCost_modexp (input : Bytes) : gasCost modexpAddress input = usizeAsI64 (modexpGasCost input) := rfl

theorem gasCost_modexp_within (h : WithinLimit input) : gasCost modexpAddress input = modexpGasCost input := by
  have hlt : modexpGasCost input < 2 ^ 63 := by
    rcases modexpGasCost_cases input with hlt | heq
    · exact hlt
    · rw [modexpGasCost_eq h] at heq
      have := takenPrice_lt h
      omega
  rw [gasCost_modexp, usizeAsI64, if_pos hlt]

/-- Some gas can pay any cost. -/
theorem sub_paid (cost : Int) : ∃ gas : Gas, 0 ≤ gas.remaining ∧ (gas.sub cost).2 = true := by
  have hremaining : (Gas.new (max 0 cost)).remaining = max 0 cost := by
    show max 0 cost - 0 = max 0 cost
    omega
  refine ⟨.new (max 0 cost), by omega, ?_⟩
  rw [Gas.sub, hremaining, if_neg (by omega)]

/-- A charge that is not negative does not lower what is used. -/
theorem used_le_sub {cost : Int} (hcost : 0 ≤ cost) {gas : Gas} (hgas : 0 ≤ gas.remaining) :
    gas.used ≤ (gas.sub cost).1.used := by
  unfold Gas.sub
  split
  · show gas.used ≤ gas.used + min cost gas.remaining
    omega
  · show gas.used ≤ gas.used + cost
    omega

/-- MODEXP is charged its price exactly when no length is oversized, and the price is the least
    one or the code's shortcuts do not show. -/
theorem modexp_price (input : Bytes) :
    Priced input ↔ WithinLimit input ∧ (fullPrice input ≤ 500 ∨ Untouched input) := by
  constructor
  · intro hpriced
    have hwithin : WithinLimit input := by
      by_contra hnot
      obtain ⟨gas, hgas, hpaid⟩ := sub_paid (gasCost modexpAddress input)
      exact absurd hpaid (by rw [hpriced.oversized hnot gas hgas]; exact Bool.false_ne_true)
    have hprice := hpriced.price hwithin
    rw [gasCost_modexp_within hwithin, Nat.cast_inj] at hprice
    exact ⟨hwithin, (modexpGasCost_eq_price hwithin).1 hprice⟩
  · rintro ⟨hwithin, hcond⟩
    have hcost : gasCost modexpAddress input = price input := by
      rw [gasCost_modexp_within hwithin, (modexpGasCost_eq_price hwithin).2 hcond]
    refine ⟨fun _ => hcost, fun hnot => absurd hwithin hnot, fun gas hgas => used_le_sub ?_ hgas⟩
    rw [hcost]
    exact Int.natCast_nonneg _

/-! ## Inputs -/

namespace Exponents

/-- An input that declares these lengths. -/
def declaring (base exp modulus : Nat) (operands : Bytes) : Bytes :=
  natToBytes 32 base ++ natToBytes 32 exp ++ natToBytes 32 modulus ++ operands

end Exponents

open Exponents

/-- 3 ^ 2 mod 5. -/
theorem modexp_result_square : Exponentiates (declaring 1 1 1 [3, 2, 5]) :=
  (modexp_result ⟨by decide +kernel, by decide +kernel, by decide +kernel⟩).2 (.inl (by decide +kernel))

/-- A modulus that is not there is zero, and so is the byte to return. -/
theorem modexp_result_absent : ¬∀ input, WithinLimit input → Exponentiates input := by
  intro hall
  have h := (hall (declaring 0 0 1 []) ⟨by decide +kernel, by decide +kernel, by decide +kernel⟩).power
  exact absurd h (by decide +kernel)

/-- Base and modulus of 64 bytes and an exponent of 16 bits: 960 gas are taken, and not the 1920
    of complexity 128. -/
theorem modexp_price_wide : ¬∀ input, Priced input := by
  intro hall
  have h := (hall (declaring 64 2 64 (List.replicate 64 0 ++ [255, 255] ++ List.replicate 64 0))).price
    ⟨by decide +kernel, by decide +kernel, by decide +kernel⟩
  exact absurd h (by decide +kernel)

end Solenoid.Precompiles
