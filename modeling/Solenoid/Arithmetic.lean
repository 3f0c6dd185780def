/-
  Solenoid.Arithmetic — the opcodes that compute on words alone: what they push, against
  the numbers and bit strings they are about.

  - `modular_opcodes`: ADDMOD and MULMOD push the sum and the product modulo `m`, over
    unbounded integers, exactly when `m` is not zero: MULMOD has no guard for a zero modulus.
  - `bit_opcodes`: SIGNEXTEND, BYTE and CLZ, and the operands on which the first two fail:
    indices that no `usize` holds, and for SIGNEXTEND any past 31, but for those whose
    `(x + 1) << 3` wraps around to the index of a byte that `b` extends already.
  - `shift_opcodes`: SHL, SHR and SAR push the product with and the floored quotient by the
    power of two for the amounts they take: those a `usize` holds, and for SAR those below 256.
-/
import Solenoid.Executor
import Solenoid.Effects
import Solenoid.Numbers
import Mathlib.Data.Nat.Size

namespace Solenoid

open Hoare

section

variable {T : Type}

/-! ## Runs on operands -/

/-- `m` takes `operands` from the stack, pushes `result` at the cost `gas`, and changes nothing
    else. -/
def Computes (m : M T StepResult) (gas : Int) (operands : List Word) (result : Word) : Prop :=
  ∀ (s : Machine T) (rest : List Word), s.evm.stack = operands ++ rest → rest.length < stackLimit →
    gas ≤ s.evm.gas.remaining → m s = .ok (.ok gas) { s with evm.stack := result :: rest, evm.pc := s.evm.pc + 1 }

/-- An arm that pushes `r`, or fails as `r` does. -/
theorem computes_iff [EventTracer T] {k : M T StepResult} {gas : Int} {operands : List Word} {w : Word}
    {r : Except Fault Word}
    (h : ∀ (s : Machine T) (rest : List Word), s.evm.stack = operands ++ rest → rest.length < stackLimit →
      gas ≤ s.evm.gas.remaining →
        wp k (fun o t => ∃ v, r = .ok v ∧ o = .ok gas ∧ t = { s with evm.stack := v :: rest, evm.pc := s.evm.pc + 1 })
          (fun e _ => r = .error e) s) :
    Computes k gas operands w ↔ r = .ok w := by
  constructor
  · intro hcomputes
    obtain ⟨s, hs⟩ : ∃ s : Machine T, s = ⟨⟨{}, default, []⟩, { stack := operands, gas := .new gas }, {}⟩ := ⟨_, rfl⟩
    have hst : s.evm.stack = operands ++ [] := by
      rw [hs, List.append_nil]
    have hgas : gas ≤ s.evm.gas.remaining := by
      rw [hs]
      show gas ≤ gas - 0
      omega
    have hrun := hcomputes s [] hst (by decide) hgas
    obtain ⟨v, hv, -, ht⟩ := (wp_of_ok hrun).1 (h s [] hst (by decide) hgas)
    have hstack : w :: ([] : List Word) = v :: [] := congrArg (fun t : Machine T => t.evm.stack) ht
    rw [hv, (List.cons.inj hstack).1]
  · intro hr s rest hst hroom hgas
    have hwp := wp_def.1 (h s rest hst hroom hgas)
    cases hrun : k s with
    | ok o t =>
      obtain ⟨v, hv, rfl, rfl⟩ := hwp.1 _ _ hrun
      rw [hr] at hv
      cases hv
      rfl
    | error e t =>
      have he := hwp.2 _ _ hrun
      rw [hr] at he
      cases he

variable [EventTracer T] {gas : Int} {a b m w : Word}

theorem computes_unary {f : Word → Word} : Computes (T := T) (unary gas f) gas [a] w ↔ f a = w := by
  rw [computes_iff (r := .ok (f a)), Except.ok.injEq]
  intro s rest hst hroom hgas
  simp only [unary, wp_charged, wp_bind, wp_pop, wp_push, wp_next, hst]
  refine ⟨fun h => by omega, fun _ => ⟨fun v rest' h => ?_, fun h => by cases h⟩⟩
  cases h
  exact ⟨fun _ => ⟨_, rfl, trivial, rfl⟩, fun hfull => absurd hroom (by simpa using hfull)⟩

theorem computes_binary {α : Type} {conv : Word → Except Fault α} {f : α → Word → Except Fault Word} :
    Computes (T := T) (binary gas conv f) gas [a, b] w ↔ (conv a >>= fun x => f x b) = .ok w := by
  refine computes_iff fun s rest hst hroom hgas => ?_
  simp only [binary, wp_charged, wp_bind, wp_pop, wp_lift, wp_push, wp_next, hst]
  refine ⟨fun h => by omega, fun _ => ⟨fun v rest' h => ?_, fun h => by cases h⟩⟩
  cases h
  refine ⟨fun x hx => ?_, fun e he => by rw [he]; rfl⟩
  rw [hx]
  refine ⟨fun v rest' h => ?_, fun h => by cases h⟩
  cases h
  exact ⟨fun v hv => ⟨fun _ => ⟨_, hv, trivial, rfl⟩, fun hfull => absurd hroom (by simpa using hfull)⟩, fun e he => he⟩

theorem computes_ternary {f : Word → Word → Word → Except Fault Word} :
    Computes (T := T) (ternary gas f) gas [a, b, m] w ↔ f a b m = .ok w := by
  refine computes_iff fun s rest hst hroom hgas => ?_
  simp only [ternary, wp_charged, wp_bind, wp_pop, wp_lift, wp_push, wp_next, hst]
  refine ⟨fun h => by omega, fun _ => ⟨fun v rest' h => ?_, fun h => by cases h⟩⟩
  cases h
  refine ⟨fun v rest' h => ?_, fun h => by cases h⟩
  cases h
  refine ⟨fun v rest' h => ?_, fun h => by cases h⟩
  cases h
  exact ⟨fun v hv => ⟨fun _ => ⟨_, hv, trivial, rfl⟩, fun hfull => absurd hroom (by simpa using hfull)⟩, fun e he => he⟩

end

/-! ## ADDMOD and MULMOD -/

/-- `n` modulo `m`, and 0 for a zero modulus. -/
def modulo (n : Nat) (m : Word) : Word := if m = 0 then 0 else BitVec.ofNat 256 (n % m.toNat)

namespace Word

/-- The low half of a number that fits is the number. -/
theorem lowBytes_eq {r : Nat} (h : r < 2 ^ 256) : lowBytes r = BitVec.ofNat 256 r := by
  have hbytes : (natToBytes 64 r).drop 32 = natToBytes 32 r := drop_natToBytes 32 32 r
  rw [lowBytes, fromBytes, hbytes, natOfBytes_natToBytes (h.trans_eq (by norm_num))]

/-- A remainder by a word is a word. -/
theorem rem512_eq {m : Word} (hm : m ≠ 0) (n : Nat) :
    (rem512 n m.toNat).map lowBytes = .ok (modulo n m) := by
  have hne : m.toNat ≠ 0 := fun h => hm (BitVec.eq_of_toNat_eq h)
  have hsmall : n % m.toNat < 2 ^ 256 := (Nat.mod_lt n (Nat.pos_of_ne_zero hne)).trans m.isLt
  rw [rem512, if_neg hne, Except.map, lowBytes_eq hsmall, modulo, if_neg hm]

theorem mulModulo_eq {m : Word} (hm : m ≠ 0) (a b : Word) : mulModulo a b m = .ok (modulo (a.toNat * b.toNat) m) := by
  rw [← rem512_eq hm]
  unfold mulModulo fullMul
  cases rem512 (a.toNat * b.toNat) m.toNat <;> rfl

/-- The sum does not overflow. -/
theorem add512_fits (a b : Word) : add512 a.toNat b.toNat = .ok (a.toNat + b.toNat) := by
  have hroom : a.toNat + b.toNat < 256 ^ 64 := (Nat.add_lt_add a.isLt b.isLt).trans (by norm_num)
  rw [add512, if_pos hroom]

theorem addModulo_eq {m : Word} (hm : m ≠ 0) (a b : Word) : addModulo a b m = .ok (modulo (a.toNat + b.toNat) m) := by
  have hone : ∀ w : Word, w.fullMul 1 = w.toNat := fun w => Nat.mul_one w.toNat
  rw [← rem512_eq hm]
  unfold addModulo
  rw [hone, hone, hone, add512_fits]
  simp only [bind, Except.bind]
  cases rem512 (a.toNat + b.toNat) m.toNat <;> rfl

theorem mulModulo_zero (a b : Word) : mulModulo a b 0 = panic "division by zero" := rfl

end Word

section

variable {T : Type} [EventTracer T] [Crypto]

/-- For a zero modulus MULMOD divides by it; the other three answers are the integers'. -/
theorem modular_opcodes (exec : Exec T) (sc : Scope) {addmod mulmod : Instruction} (hadd : addmod.op = .addmod)
    (hmul : mulmod.op = .mulmod) (a b m : Word) :
    (Computes (executeInstruction exec sc addmod) 8 [a, b, m] (modulo (a.toNat + b.toNat) m) ∧
      Computes (executeInstruction exec sc mulmod) 8 [a, b, m] (modulo (a.toNat * b.toNat) m)) ↔ m ≠ 0 := by
  rw [show executeInstruction exec sc addmod = opAddmod by simp only [executeInstruction, hadd],
    show executeInstruction exec sc mulmod = opMulmod by simp only [executeInstruction, hmul], opAddmod, opMulmod,
    computes_ternary, computes_ternary]
  by_cases hm : m = 0
  · refine iff_of_false (fun h => ?_) (not_not.2 hm)
    rw [hm, Word.mulModulo_zero] at h
    cases h.2
  · simp only [if_neg hm, Word.addModulo_eq hm, Word.mulModulo_eq hm, and_self, true_iff]
    exact hm

end

/-! ## SIGNEXTEND -/

/-- The low `k + 1` bytes of `b`, sign-extended. -/
def extended (k : Nat) (b : Word) : Word := (b.setWidth (8 * (k + 1))).signExtend 256

/-- What SIGNEXTEND is to push. -/
def signExtended (x b : Word) : Word := if 31 ≤ x.toNat then b else extended x.toNat b

theorem extended_last (b : Word) : extended 31 b = b := by
  unfold extended
  simp

/-- The mask and the sign bit of byte `k`. -/
theorem extended_eq {k : Nat} (hk : k ≤ 31) (b : Word) :
    extended k b = if b.getLsbD (8 * (k + 1) - 1) then b ||| BitVec.allOnes 256 <<< (8 * (k + 1))
      else b &&& ~~~(BitVec.allOnes 256 <<< (8 * (k + 1))) := by
  have hmsb : (b.setWidth (8 * (k + 1))).msb = b.getLsbD (8 * (k + 1) - 1) := by
    rw [BitVec.msb_eq_getLsbD_last, BitVec.getLsbD_setWidth]
    have hlt : 8 * (k + 1) - 1 < 8 * (k + 1) := by omega
    simp [hlt]
  have hmask : ∀ i, i < 256 → (BitVec.allOnes 256 <<< (8 * (k + 1))).getLsbD i = decide (8 * (k + 1) ≤ i) := by
    intro i hi
    have hhigh : i - 8 * (k + 1) < 256 := by omega
    simp only [BitVec.getLsbD_shiftLeft, BitVec.getLsbD_allOnes, hi, hhigh, decide_true, Bool.true_and, Bool.and_true]
    by_cases hlow : i < 8 * (k + 1)
    · simp [hlow]
    · simp [hlow, not_lt.1 hlow]
  unfold extended
  apply BitVec.eq_of_getLsbD_eq
  intro i hi
  rw [BitVec.getLsbD_signExtend, hmsb, BitVec.getLsbD_setWidth]
  by_cases hneg : b.getLsbD (8 * (k + 1) - 1)
  · rw [if_pos hneg, BitVec.getLsbD_or, hmask i hi, hneg]
    by_cases hlow : i < 8 * (k + 1)
    · simp [hi, hlow]
    · simp [hi, hlow, not_lt.1 hlow]
  · rw [if_neg hneg, BitVec.getLsbD_and, BitVec.getLsbD_not, hmask i hi, Bool.eq_false_of_not_eq_true hneg]
    by_cases hlow : i < 8 * (k + 1)
    · simp [hi, hlow]
    · simp [hi, hlow, not_lt.1 hlow]

/-- `(x + 1) << 3` is taken modulo 2^64, so a byte index is taken modulo 2^61. -/
theorem signextend_eq (x : Nat) (hx : x < 2 ^ 64) (b : Word) :
    (x % 2 ^ 61 ≤ 31 → signextend x b = .ok (extended (x % 2 ^ 61) b)) ∧
      (31 < x % 2 ^ 61 → ∃ e, signextend x b = .error e) := by
  have hmax : usizeMax = 2 ^ 64 - 1 := rfl
  have hshift : (x + 1) <<< 3 = 8 * (x + 1) := by
    rw [Nat.shiftLeft_eq]
    omega
  unfold signextend addUsize
  constructor
  · intro hk
    have hfits : x + 1 ≤ usizeMax := by omega
    have hshifted : 8 * (x + 1) % 2 ^ 64 = 8 * (x % 2 ^ 61 + 1) := by omega
    have hbit : 8 * (x % 2 ^ 61 + 1) - 1 < 256 := by omega
    have hpos : 8 * (x % 2 ^ 61 + 1) ≠ 0 := by omega
    have hsucc : 8 * (x % 2 ^ 61 + 1) - 1 + 1 = 8 * (x % 2 ^ 61 + 1) := by omega
    rw [extended_eq hk, if_pos hfits]
    simp only [bind, Except.bind, hshift, hshifted, if_neg hpos, Word.bit, if_pos hbit, hsucc, pure, Except.pure]
  · intro hk
    by_cases hfits : x + 1 ≤ usizeMax
    · rw [if_pos hfits]
      simp only [bind, Except.bind, hshift]
      by_cases hzero : 8 * (x + 1) % 2 ^ 64 = 0
      · rw [if_pos hzero]
        exact ⟨_, rfl⟩
      · have hbit : ¬8 * (x + 1) % 2 ^ 64 - 1 < 256 := by omega
        rw [if_neg hzero, Word.bit, if_neg hbit]
        exact ⟨_, rfl⟩
    · rw [if_neg hfits]
      exact ⟨_, rfl⟩

/-! ## BYTE -/

/-- The `i`-th most significant byte. -/
def byteOf (i b : Word) : Word := if i.toNat < 32 then BitVec.ofNat 256 (b.toNat / 256 ^ (31 - i.toNat) % 256) else 0

theorem getD_natToBytes {len n i : Nat} (h : i < len) :
    ((natToBytes len n).getD i 0).toNat = n / 256 ^ (len - 1 - i) % 256 := by
  unfold natToBytes
  rw [List.getD_eq_getElem?_getD, List.getElem?_map, List.getElem?_range h, Option.map_some, Option.getD_some,
    UInt8.toNat_ofNat', Nat.shiftRight_eq_div_pow, pow_mul]
  rfl

/-! ## CLZ -/

/-- 256 less the bit length. -/
def leadingZeroBits (b : Word) : Word := BitVec.ofNat 256 (256 - b.toNat.size)

theorem clzBytes_natToBytes (len : Nat) : ∀ n : Nat, n ≠ 0 → n < 256 ^ len →
    clzBytes (natToBytes len n) = 8 * len - n.size := by
  induction len with
  | zero => intro n hn hlt; omega
  | succ len ih =>
    intro n hn hlt
    have hpow : 256 ^ len = 2 ^ (8 * len) := by
      rw [pow_mul]
      rfl
    have hpos : 0 < 2 ^ (8 * len) := Nat.two_pow_pos _
    rw [natToBytes_succ, clzBytes]
    have htop : n >>> (8 * len) < 256 := by
      rw [Nat.shiftRight_eq_div_pow]
      rw [pow_succ, hpow] at hlt
      exact Nat.div_lt_of_lt_mul hlt
    by_cases hzero : n >>> (8 * len) = 0
    · have hsmall : n < 256 ^ len := by
        rw [Nat.shiftRight_eq_div_pow, Nat.div_eq_zero_iff] at hzero
        rw [hpow]
        omega
      have hsize : n.size ≤ 8 * len := Nat.size_le.2 (by rw [← hpow]; exact hsmall)
      have hbyte : UInt8.ofNat (n >>> (8 * len)) = 0 := by rw [hzero]; rfl
      rw [if_pos hbyte, ih n hn hsmall]
      omega
    · -- the first byte that is not zero
      obtain ⟨q, hq⟩ : ∃ q, q = n >>> (8 * len) := ⟨_, rfl⟩
      rw [← hq] at hzero htop ⊢
      have hnat : (UInt8.ofNat q).toNat = q := UInt8.toNat_ofNat_of_lt htop
      have hbyte : UInt8.ofNat q ≠ 0 := by
        intro h
        rw [h] at hnat
        exact hzero hnat.symm
      have hlog : q.log2 < 8 := (Nat.log2_lt hzero).2 htop
      have hlow : 2 ^ q.log2 ≤ q := Nat.log2_self_le hzero
      have hhigh : q < 2 ^ (q.log2 + 1) := Nat.lt_log2_self
      have hsize : n.size = 8 * len + q.log2 + 1 := by
        rw [Nat.shiftRight_eq_div_pow] at hq
        refine le_antisymm (Nat.size_le.2 ?_) (Nat.lt_size.2 ?_)
        · have hlt' : n < 2 ^ (8 * len) * (q + 1) := by
            rw [hq]
            exact Nat.lt_mul_div_succ n hpos
          have hle : 2 ^ (8 * len) * (q + 1) ≤ 2 ^ (8 * len) * 2 ^ (q.log2 + 1) := Nat.mul_le_mul_left _ hhigh
          rw [Nat.add_assoc, pow_add]
          omega
        · have hle : 2 ^ (8 * len) * 2 ^ q.log2 ≤ 2 ^ (8 * len) * q := Nat.mul_le_mul_left _ hlow
          have hmul : 2 ^ (8 * len) * q ≤ n := by
            rw [hq]
            exact Nat.mul_div_le n _
          rw [pow_add]
          omega
      rw [if_neg hbyte, Precompiles.leadingZeros, if_neg hbyte, hnat, hsize]
      omega

section

variable {T : Type} [EventTracer T]

/-- The operands on which SIGNEXTEND pushes what it is to push. -/
def Extends (x b : Word) : Prop :=
  x.toNat ≤ 31 ∨ x.toNat < 2 ^ 64 ∧ x.toNat % 2 ^ 61 ≤ 31 ∧ extended (x.toNat % 2 ^ 61) b = b

theorem computes_signextend {x b : Word} : Computes (T := T) opSignextend 5 [x, b] (signExtended x b) ↔ Extends x b := by
  rw [opSignextend, computes_binary]
  unfold Word.asUsize Extends
  by_cases hx : x.toNat < 2 ^ 64
  · obtain ⟨hfits, hpast⟩ := signextend_eq x.toNat hx b
    rw [if_pos hx]
    show signextend x.toNat b = _ ↔ _
    by_cases hk : x.toNat % 2 ^ 61 ≤ 31
    · rw [hfits hk, Except.ok.injEq, signExtended]
      by_cases hlow : 31 ≤ x.toNat
      · rw [if_pos hlow]
        constructor
        · intro h
          exact .inr ⟨hx, hk, h⟩
        · rintro (hle | ⟨-, -, h⟩)
          · have heq : x.toNat = 31 := by omega
            rw [heq]
            exact extended_last b
          · exact h
      · have hmod : x.toNat % 2 ^ 61 = x.toNat := Nat.mod_eq_of_lt (by omega)
        rw [if_neg hlow, hmod]
        exact ⟨fun _ => .inl (by omega), fun _ => rfl⟩
    · obtain ⟨e, he⟩ := hpast (by omega)
      rw [he]
      refine ⟨fun h => (nomatch h), ?_⟩
      rintro (hle | ⟨-, hk', -⟩)
      · omega
      · exact absurd hk' hk
  · rw [if_neg hx]
    refine ⟨fun h => (nomatch h), ?_⟩
    rintro (hle | ⟨hlt, -⟩) <;> omega

theorem computes_byte {i b : Word} : Computes (T := T) opByte 3 [i, b] (byteOf i b) ↔ i.toNat < 2 ^ 64 := by
  rw [opByte, computes_binary]
  unfold Word.asUsize
  by_cases hi : i.toNat < 2 ^ 64
  · rw [if_pos hi]
    simp only [hi, iff_true, bind, Except.bind, Except.ok.injEq]
    unfold byteOf
    by_cases hlow : i.toNat < 32
    · rw [if_pos hlow, if_pos hlow, Word.intoBytes, getD_natToBytes hlow]
    · rw [if_neg hlow, if_neg hlow]
  · rw [if_neg hi]
    exact ⟨fun h => (nomatch h), fun h => absurd h hi⟩

theorem computes_clz (b : Word) : Computes (T := T) opClz 5 [b] (leadingZeroBits b) := by
  rw [opClz, computes_unary, leadingZeroBits]
  by_cases hb : b = 0
  · rw [if_pos hb, hb]
    rfl
  · have hnat : b.toNat ≠ 0 := fun h => hb (BitVec.eq_of_toNat_eq h)
    have hlt : b.toNat < 256 ^ 32 := b.isLt
    rw [if_neg hb, Word.intoBytes, clzBytes_natToBytes 32 b.toNat hnat hlt]

variable [Crypto]

/-- SIGNEXTEND of any byte index, BYTE at any index and CLZ. -/
theorem bit_opcodes (exec : Exec T) (sc : Scope) {signextend byte clz : Instruction}
    (hext : signextend.op = .signextend) (hbyte : byte.op = .byte) (hclz : clz.op = .clz) (x i b : Word) :
    (Computes (executeInstruction exec sc signextend) 5 [x, b] (signExtended x b) ∧
      Computes (executeInstruction exec sc byte) 3 [i, b] (byteOf i b) ∧
      Computes (executeInstruction exec sc clz) 5 [b] (leadingZeroBits b)) ↔ Extends x b ∧ i.toNat < 2 ^ 64 := by
  rw [show executeInstruction exec sc signextend = opSignextend by simp only [executeInstruction, hext],
    show executeInstruction exec sc byte = opByte by simp only [executeInstruction, hbyte],
    show executeInstruction exec sc clz = opClz by simp only [executeInstruction, hclz], computes_signextend, computes_byte]
  exact ⟨fun h => ⟨h.1, h.2.1⟩, fun h => ⟨h.1, h.2, computes_clz b⟩⟩

end

/-! ## Shifts -/

/-- `v * 2 ^ n`. -/
def shiftedLeft (n v : Word) : Word := BitVec.ofNat 256 (v.toNat * 2 ^ n.toNat)

/-- `v / 2 ^ n`. -/
def shiftedRight (n v : Word) : Word := BitVec.ofNat 256 (v.toNat / 2 ^ n.toNat)

/-- The floor of the signed `v / 2 ^ n`. -/
def shiftedRightSigned (n v : Word) : Word := BitVec.ofInt 256 (v.toInt / 2 ^ n.toNat)

theorem shiftedLeft_eq (n v : Word) : shiftedLeft n v = v <<< n.toNat := by
  apply BitVec.eq_of_toNat_eq
  rw [shiftedLeft, BitVec.toNat_ofNat, BitVec.toNat_shiftLeft, Nat.shiftLeft_eq]

theorem shiftedRight_eq (n v : Word) : shiftedRight n v = v >>> n.toNat := by
  apply BitVec.eq_of_toNat_eq
  rw [shiftedRight, BitVec.toNat_ofNat, BitVec.toNat_ushiftRight, Nat.shiftRight_eq_div_pow]
  exact Nat.mod_eq_of_lt ((Nat.div_le_self _ _).trans_lt v.isLt)

theorem shiftedRightSigned_eq (n v : Word) : shiftedRightSigned n v = v.sshiftRight n.toNat := by
  rw [shiftedRightSigned, BitVec.sshiftRight, Int.shiftRight_eq_div_pow]
  norm_cast

/-- From 256 on nothing but the sign is left. -/
theorem shifted_saturated {n : Word} (hn : 256 ≤ n.toNat) (v : Word) :
    shiftedLeft n v = 0 ∧ shiftedRight n v = 0 ∧ shiftedRightSigned n v = if v.msb then BitVec.allOnes 256 else 0 := by
  rw [shiftedLeft_eq, shiftedRight_eq, shiftedRightSigned_eq]
  refine ⟨BitVec.shiftLeft_eq_zero hn, BitVec.ushiftRight_eq_zero hn, ?_⟩
  apply BitVec.eq_of_getLsbD_eq
  intro i hi
  have hpast : ¬n.toNat + i < 256 := by omega
  rw [BitVec.getLsbD_sshiftRight, if_neg hpast]
  cases v.msb with
  | true =>
    rw [if_pos rfl, BitVec.getLsbD_allOnes]
    simp [hi]
  | false => simp

section

variable {T : Type} [EventTracer T] {n v : Word}

theorem computes_shl : Computes (T := T) opShl 3 [n, v] (shiftedLeft n v) ↔ n.toNat < 2 ^ 64 := by
  rw [opShl, computes_binary, shiftedLeft_eq]
  unfold Word.asUsize
  by_cases hn : n.toNat < 2 ^ 64
  · rw [if_pos hn]
    exact ⟨fun _ => hn, fun _ => rfl⟩
  · rw [if_neg hn]
    exact ⟨fun h => (nomatch h), fun h => absurd h hn⟩

theorem computes_shr : Computes (T := T) opShr 3 [n, v] (shiftedRight n v) ↔ n.toNat < 2 ^ 64 := by
  rw [opShr, computes_binary, shiftedRight_eq]
  unfold Word.asUsize
  by_cases hn : n.toNat < 2 ^ 64
  · rw [if_pos hn]
    exact ⟨fun _ => hn, fun _ => rfl⟩
  · rw [if_neg hn]
    exact ⟨fun h => (nomatch h), fun h => absurd h hn⟩

theorem computes_sar : Computes (T := T) opSar 3 [n, v] (shiftedRightSigned n v) ↔ n.toNat < 256 := by
  rw [opSar, computes_binary, shiftedRightSigned_eq]
  unfold Word.asUsize
  by_cases hn : n.toNat < 2 ^ 64
  · rw [if_pos hn]
    show v.signedShr n.toNat = _ ↔ _
    unfold Word.signedShr
    by_cases hsmall : n.toNat < 256
    · rw [if_pos hsmall]
      exact ⟨fun _ => hsmall, fun _ => rfl⟩
    · rw [if_neg hsmall]
      exact ⟨fun h => (nomatch h), fun h => absurd h hsmall⟩
  · rw [if_neg hn]
    exact ⟨fun h => (nomatch h), fun h => by omega⟩

variable [Crypto]

/-- The amounts the three shifts take; past those the conversion of SHL and SHR and the shift
    of SAR overflow. -/
theorem shift_opcodes (exec : Exec T) (sc : Scope) {shl shr sar : Instruction} (hshl : shl.op = .shl)
    (hshr : shr.op = .shr) (hsar : sar.op = .sar) (n₁ n₂ n₃ v : Word) :
    (Computes (executeInstruction exec sc shl) 3 [n₁, v] (shiftedLeft n₁ v) ∧
      Computes (executeInstruction exec sc shr) 3 [n₂, v] (shiftedRight n₂ v) ∧
      Computes (executeInstruction exec sc sar) 3 [n₃, v] (shiftedRightSigned n₃ v)) ↔
        n₁.toNat < 2 ^ 64 ∧ n₂.toNat < 2 ^ 64 ∧ n₃.toNat < 256 := by
  rw [show executeInstruction exec sc shl = opShl by simp only [executeInstruction, hshl],
    show executeInstruction exec sc shr = opShr by simp only [executeInstruction, hshr],
    show executeInstruction exec sc sar = opSar by simp only [executeInstruction, hsar], computes_shl, computes_shr,
    computes_sar]

end

namespace Sample

/-- No frame comes back. -/
def noFrame : Exec NoopTracer := fun _ => throw .fuel

/-- The instruction of one opcode. -/
def instruction (opcode : UInt8) : Instruction := ⟨getOpcode opcode, 0, none⟩

end Sample

open Sample

/-- 5 + 4 and 5 * 4 modulo 7. -/
theorem modular_opcodes_seven :
    Computes (executeInstruction noFrame (scope []) (instruction 0x08)) 8 [5, 4, 7] 2 ∧
      Computes (executeInstruction noFrame (scope []) (instruction 0x09)) 8 [5, 4, 7] 6 :=
  (modular_opcodes noFrame (scope []) (show (instruction 0x08).op = .addmod from rfl)
    (show (instruction 0x09).op = .mulmod from rfl) 5 4 7).2 (by decide)

/-- 5 * 4 modulo 0 is no 0. -/
theorem modular_opcodes_zero :
    ¬Computes (executeInstruction noFrame (scope []) (instruction 0x09)) 8 [5, 4, 0] (modulo (5 * 4) 0) := by
  intro h
  have hresult : Word.mulModulo 5 4 0 = .ok (modulo (5 * 4) 0) := computes_ternary.1 h
  exact absurd hresult (by decide)

/-- Byte 1 of 0xff80 extended, byte 31 of it, and its 240 leading zeros. -/
theorem bit_opcodes_byte :
    Computes (executeInstruction noFrame (scope []) (instruction 0x0b)) 5 [1, 0xff80] (BitVec.ofInt 256 (-128)) ∧
      Computes (executeInstruction noFrame (scope []) (instruction 0x1a)) 3 [31, 0xff80] 0x80 ∧
      Computes (executeInstruction noFrame (scope []) (instruction 0x1e)) 5 [0xff80] 240 := by
  exact (bit_opcodes noFrame (scope []) (show (instruction 0x0b).op = .signextend from rfl)
    (show (instruction 0x1a).op = .byte from rfl) (show (instruction 0x1e).op = .clz from rfl) 1 31 0xff80).2
    ⟨.inl (by decide), by decide⟩

/-- SIGNEXTEND of byte 32 asks for bit 263. -/
theorem bit_opcodes_past :
    ¬Computes (executeInstruction noFrame (scope []) (instruction 0x0b)) 5 [32, 1] (signExtended 32 1) := by
  intro h
  have hresult : (Word.asUsize 32 >>= fun x => Solenoid.signextend x 1) = .ok (signExtended 32 1) := computes_binary.1 h
  exact absurd hresult (by decide)

/-- 5 shifted left by 300 and right by 1, and -5 by 1. -/
theorem shift_opcodes_five :
    Computes (executeInstruction noFrame (scope []) (instruction 0x1b)) 3 [300, 5] 0 ∧
      Computes (executeInstruction noFrame (scope []) (instruction 0x1c)) 3 [1, 5] 2 ∧
      Computes (executeInstruction noFrame (scope []) (instruction 0x1d)) 3 [1, 5] 2 := by
  have hzero : shiftedLeft 300 5 = 0 := (shifted_saturated (by decide) 5).1
  have h := (shift_opcodes noFrame (scope []) (show (instruction 0x1b).op = .shl from rfl)
    (show (instruction 0x1c).op = .shr from rfl) (show (instruction 0x1d).op = .sar from rfl) 300 1 1 5).2
    ⟨by decide, by decide, by decide⟩
  rwa [hzero] at h

/-- SAR of 1 by 256 is to push 0; it overflows. -/
theorem shift_opcodes_past :
    ¬Computes (executeInstruction noFrame (scope []) (instruction 0x1d)) 3 [256, 1] (shiftedRightSigned 256 1) :=
  fun h => absurd (computes_sar.1 h) (by decide)

end Solenoid
