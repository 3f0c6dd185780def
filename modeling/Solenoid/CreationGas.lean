/-
  Solenoid.CreationGas — the gas of CREATE and CREATE2.

  The law: a creation that cannot pay its base cost halts its frame; any other gives its init
  code all but a 64th of what is left, and pays the base cost and what the init code used,
  with the deposit of the deployed code, or all it gave when that is not enough.
  - `creation_gas`: exactly the creations that meet the law. The code panics where the base
    cost is not below the gas left, where an operand does not fit a `usize`, and where an
    empty init code lies beyond the memory; and a CREATE in a frame that a CREATE2 opened
    pays for a hash it does not need.
-/
import Solenoid.Outcomes

namespace Solenoid

open Hoare

section

variable {T : Type} [Crypto] [EventTracer T]

/-! ## The law -/

omit [Crypto] [EventTracer T] in
/-- The base cost of a creation, by its opcode. -/
def Step.createBase (x : Step T) : Int := x.createPrice (x.op == .create2)

/-- What a creation pays once its init code comes back. -/
structure CreationPays (x : Step T) (limit : Int) (ret : Bytes) (m t : Machine T) : Prop where
  deployed : m.evm.reverted = false → m.evm.gas.used + 200 * (ret.length : Int) ≤ limit →
    t.evm.gas.used = x.before.evm.gas.used + (x.createBase + m.evm.gas.used + 200 * (ret.length : Int))
  reverted : m.evm.reverted = true → t.evm.gas.used = x.before.evm.gas.used + (x.createBase + m.evm.gas.used)
  unaffordable : m.evm.reverted = false → limit < m.evm.gas.used + 200 * (ret.length : Int) →
    t.evm.gas.used = x.before.evm.gas.used + (x.createBase + limit) ∧ t.evm.stack.head? = some 0 ∧
      m.evm.revert m.ext = .ok ⟨⟩ t.ext

structure CreationLaw (x : Step T) : Prop where
  short : x.before.evm.gas.remaining < x.createBase → ∀ exec : Exec T,
    ∃ o t, executeStep exec x.scope x.instruction x.before = .ok o t ∧ HaltsDry o t
  runs : x.createBase ≤ x.before.evm.gas.remaining → ∃ inner pending opened,
    openedFrame x.scope x.instruction x.before = some (inner, pending, opened) ∧
    inner.scope.code = decode x.initCode ∧
    inner.evm.gas.limit = x.before.evm.gas.remaining - x.createBase - (x.before.evm.gas.remaining - x.createBase) / 64 ∧
    ∀ fuel ret m, executeWithContext fuel inner.scope (inner.machine opened.ext) = .ok ret m →
      ∃ t, executeStep (executeWithContext fuel) x.scope x.instruction x.before = .ok none t ∧
        CreationPays x inner.evm.gas.limit ret m t

/-! ## When it holds -/

/-- No end of the init code lets the value overflow the new account's balance. -/
def Step.Creditable (x : Step T) : Prop :=
  ∀ inner pending opened fuel ret m, openedFrame x.scope x.instruction x.before = some (inner, pending, opened) →
    executeWithContext fuel inner.scope (inner.machine opened.ext) = .ok ret m → ¬x.Overflows inner pending ⟨ret, m⟩

/-- The price the code takes is the opcode's own. -/
def Step.OwnPrice (x : Step T) : Prop := x.salted = (x.op == .create2) ∨ x.initWords = 0

variable {x : Step T}

omit [Crypto] [EventTracer T] in
theorem salted_create2 (h : x.op = .create2) : x.salted = true := by
  simp [Step.salted, h, callContext]

omit [Crypto] [EventTracer T] in
/-- The code's price is the opcode's, and the hash of a CREATE that takes a salt. -/
theorem createPrice_salted (x : Step T) :
    (x.createPrice x.salted = x.createBase ∨ x.createBase + 6 ≤ x.createPrice x.salted) ∧
      (x.createPrice x.salted = x.createBase ↔ x.OwnPrice) := by
  unfold Step.createBase Step.OwnPrice Step.createPrice
  by_cases hop : x.op = .create2
  · simp [hop, salted_create2 hop]
  · have hop' : (x.op == Op.create2) = false := by simpa using hop
    rw [hop']
    cases x.salted with
    | false => simp
    | true =>
      simp only [if_true, Bool.false_eq_true, if_false, false_or, reduceCtorEq]
      omega

omit [EventTracer T] in
theorem CreationEnds.pays {inner : Inner T} {pending : Pending} {opened m t : Machine T} {ret : Bytes}
    (h : CreationEnds x inner pending opened ⟨ret, m⟩ t) (hbase : pending.base = x.createBase)
    (hpending : pending = .create pending.base inner.evm.gas.limit inner.scope.ctx.created x.value)
    (hwithin : m.evm.gas.used ≤ inner.evm.gas.limit) : CreationPays x inner.evm.gas.limit ret m t := by
  have hused := h.used
  rw [hbase] at hused
  simp only [creationSpent, Ended.output] at hused
  refine ⟨fun hrev hpaid => ?_, fun hrev => ?_, fun hrev hshort => ?_⟩
  · simp only [hrev, Bool.false_eq_true, if_false, if_neg (not_lt.2 hpaid)] at hused
    omega
  · simp only [hrev, if_true] at hused
    rw [if_neg (by omega)] at hused
    omega
  · simp only [hrev, Bool.false_eq_true, if_false, if_pos hshort] at hused
    have hdrops : pending.keeps (Ended.output ⟨ret, m⟩) = false := by
      rw [hpending]
      simp only [Pending.keeps, Ended.output, hrev, Bool.not_false, Bool.true_and]
      exact decide_eq_false (not_le.2 hshort)
    have hstack := h.stack
    have hcloses := h.closes
    unfold Pending.result at hstack
    unfold Closes at hcloses
    rw [hdrops] at hstack hcloses
    simp only [Bool.false_eq_true, if_false] at hstack hcloses
    exact ⟨hused, by rw [hstack]; rfl, hcloses.ext⟩

/-- The law holds of the creations that are refused for want of gas, and of those that are
    ready, priced by their opcode and creditable. -/
theorem creation_gas (h : x.Creating) : CreationLaw x ↔
    (x.before.evm.gas.remaining < x.createBase ∧ x.Refused) ∨
      (x.createBase ≤ x.before.evm.gas.remaining ∧ x.Ready ∧ x.OwnPrice ∧ x.Creditable) := by
  obtain ⟨hprice, hown⟩ := createPrice_salted x
  constructor
  · intro hlaw
    by_cases hgas : x.createBase ≤ x.before.evm.gas.remaining
    · obtain ⟨inner, pending, opened, ho, -, hlimit, hruns⟩ := hlaw.runs hgas
      obtain ⟨hready, hat⟩ := h.of_opened ho
      refine .inr ⟨hgas, hready, hown.1 ?_, fun inner' pending' opened' fuel ret m ho' hrun hover => ?_⟩
      · -- prices that are 6 apart leave the init code different amounts of gas
        have hat := hat.limit
        have hcovered := hready.covered
        omega
      · rw [ho] at ho'
        cases ho'
        obtain ⟨t, ht, -⟩ := hruns fuel ret m hrun
        exact ((wp_of_ok ht).1 (wp_creation_returned h.sound h.op ho hrun)).2.2 hover
    · refine .inl ⟨not_le.1 hgas, ?_⟩
      obtain ⟨o, t, ht, -⟩ := hlaw.short (not_le.1 hgas) (executeWithContext 0)
      by_contra hrefused
      refine (wp_of_ok ht).1 (h.panics (fun hready => ?_) hrefused)
      have hcovered := hready.covered
      omega
  · rintro (⟨hgas, hrefused⟩ | ⟨hgas, hready, howns, hcredit⟩)
    · refine ⟨fun _ exec => ?_, fun hle => absurd hgas (not_lt.2 hle)⟩
      obtain ⟨o, t, ht, hdry⟩ := exists_ok (h.halts hrefused)
      exact ⟨o, t, ht, hdry⟩
    · refine ⟨fun hlt => absurd hgas (not_le.2 hlt), fun _ => ?_⟩
      obtain ⟨inner, pending, opened, ho, hat⟩ := h.opens hready
      have hequal := hown.2 howns
      have hlimit := hat.limit
      have hpending := hat.pending
      rw [hequal] at hlimit hpending
      refine ⟨inner, pending, opened, ho, hat.code, hlimit, fun fuel ret m hrun => ?_⟩
      have hturn := wp_creation_returned h.sound h.op ho hrun
      obtain ⟨o, t, ht, rfl, hends, -⟩ := exists_ok (wp_mono hturn (fun _ _ h => h) fun _ _ hf =>
        hcredit _ _ _ _ _ _ ho hrun hf.1)
      exact ⟨t, ht, hends.pays (by rw [hpending]; rfl) (by rw [hpending]; rfl) (returned h.sound ho hrun).within⟩

end

namespace Sample

/-- A CREATE of an account without code, with this much gas. -/
def emptyCreation (gas : Int) : Step NoopTracer :=
  { step [0xf0] [0, 0, 0] [(0xaa, 0, [])] with before.evm := { stack := [0, 0, 0], gas := .new gas } }

theorem creating_emptyCreation {gas : Int} (h : 0 ≤ gas) : (emptyCreation gas).Creating where
  sound := ⟨⟨show (0 : Int) ≤ memPrice 0 by decide, show divCeil 0 32 * divCeil 0 32 < 2 ^ 63 by decide⟩, le_rfl,
    show 0 ≤ gas - 0 by omega, show 3 ≤ stackLimit by decide, nofun⟩
  op := .inl (show (emptyCreation 0).op = .create by decide)
  operands := le_refl 3
  nonstatic := show (emptyCreation 0).scope.ctx.callType ≠ .static by decide

/-- A CREATE of an account by init code that returns one byte, from 32 bytes of memory. -/
def byteCreation : Step NoopTracer :=
  { step [0xf0] [0, 0, 4] [(0xaa, 0, [])] with
    before.evm := { stack := [0, 0, 4], memory := [0x60, 0x01, 0x5f, 0xf3] ++ List.replicate 28 0, memCost := 3,
                    gas := .new 100000 } }

theorem creating_byteCreation : byteCreation.Creating where
  sound := ⟨⟨show (3 : Int) ≤ memPrice 32 by decide, show divCeil 32 32 * divCeil 32 32 < 2 ^ 63 by decide⟩, le_rfl,
    by decide, by decide, by decide⟩
  op := .inl (by decide)
  operands := le_refl 3
  nonstatic := by decide

theorem ready_byteCreation : byteCreation.Ready where
  has := le_refl 3
  offset := by decide
  size := by decide
  fits := ⟨by decide, fun _ => by decide, by decide⟩
  creator := ⟨{}, rfl, by decide⟩
  covered := by decide

end Sample

open Sample in
/-- The law holds of the creation of an account by init code that returns one byte. The
    creation pays the base cost with a word of init code, the 8 the init code uses, and the
    deposit of the byte. -/
theorem creation_gas_byte : CreationLaw byteCreation ∧ byteCreation.createBase = 32002 ∧
    returns (executeStep (executeWithContext 4) byteCreation.scope byteCreation.instruction byteCreation.before) (fun o t =>
      o.isNone && decide (t.evm.gas.used = 32002 + 8 + 200)) = true :=
  ⟨(creation_gas creating_byteCreation).2 (.inr ⟨by decide, ready_byteCreation, .inl (by decide),
    fun _ _ _ _ _ _ _ _ hover => hover.2.value rfl⟩), by decide, by decide +kernel⟩

open Sample in
/-- With 100 gas left it panics. -/
theorem creation_gas_panics :
    (emptyCreation 100).Creating ∧ (emptyCreation 100).before.evm.gas.remaining < (emptyCreation 100).createBase ∧
    ¬CreationLaw (emptyCreation 100) := by
  have hcreating : (emptyCreation 100).Creating := creating_emptyCreation (by decide)
  have hshort : (emptyCreation 100).before.evm.gas.remaining < (emptyCreation 100).createBase := by decide
  refine ⟨hcreating, hshort, fun hlaw => ?_⟩
  obtain ⟨o, t, ht, -⟩ := hlaw.short hshort (executeWithContext 1)
  refine (wp_of_ok ht).1 (hcreating.panics (fun hready => ?_) fun hrefused => ?_)
  · exact absurd hready.covered (by decide)
  · rcases hrefused.why with hlacks | hexcessive | ⟨-, hmissing⟩
    · exact hlacks (le_refl 3)
    · exact absurd hexcessive.grows (by decide)
    · exact absurd hmissing (by decide)

end Solenoid
