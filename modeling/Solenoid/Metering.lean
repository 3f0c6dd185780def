/-
  Solenoid.Metering — what an SSTORE costs and refunds.

  The price is that of EIP-2200 as amended by EIP-2929 and EIP-3529, and so is the refund.
  What is not is when the instruction halts: the sentry of 2300 gas is missing, and a
  refund that is negative has to be covered by the gas left (`sstore_pricing`). The
  instructions that go through meter net: a sequence of writes to one slot pays for where
  it ends, and 100 for each of them (`net_metering`).
-/
import Solenoid.Access
import Solenoid.Jumps
import Mathlib.Algebra.Ring.Int.Defs

namespace Solenoid

open Hoare

/-! ## The price and the refund -/

/-- EIP-2200 with the access costs of EIP-2929. -/
def storePrice (original current new : Word) (isWarm : Bool) : Int :=
  (if isWarm then 0 else 2100) +
    if new = current then 100 else if current = original then (if original = 0 then 20000 else 2900) else 100

/-- EIP-3529: an original that is not zero gives 4800 for its slot cleared and takes them
    back for its slot filled again; an original restored gives back what its first change
    had cost. -/
def refundChange (original current new : Word) : Int :=
  (if original ≠ 0 ∧ current ≠ 0 ∧ new = 0 then 4800 else 0) -
    (if original ≠ 0 ∧ current = 0 ∧ new ≠ 0 then 4800 else 0) +
    if current ≠ original ∧ new = original then (if original = 0 then 19900 else 2800) else 0

theorem sstoreCost_eq (original current new : Word) (isWarm : Bool) :
    sstoreCost original current new isWarm = storePrice original current new isWarm := by
  unfold sstoreCost storePrice
  rw [add_comm]
  simp only [eq_comm (a := current)]

theorem sstoreRefund_eq (original current new : Word) :
    sstoreRefund original current new = refundChange original current new := by
  unfold sstoreRefund refundChange
  by_cases hsame : new = current
  · subst hsame
    by_cases hnew : new = original <;> simp [hnew]
  · by_cases hclean : current = original
    · subst hclean
      by_cases h₀ : current = 0 <;> by_cases h₁ : new = 0 <;> simp_all
    · by_cases ho : original = 0
      · subst ho
        simp only [ne_eq, not_true_eq_false, false_and, if_false, hsame, hclean, not_false_eq_true, true_and, if_true]
        simp
      · by_cases hc : current = 0 <;> by_cases hn : new = 0 <;> simp_all

section

variable {T : Type} [Crypto]

/-! ## One SSTORE -/

def Step.isWarm (x : Step T) : Bool := x.before.ext.isStorageWarm x.this (x.operand 0)

/-- An SSTORE outside a static context, whose slot holds `current` and held `original` when
    the transaction started. -/
structure Step.Storing (x : Step T) (original current : Word) : Prop where
  op : x.op = .sstore
  dynamic : x.scope.ctx.isStaticCall = false
  has : x.has 2
  finds : ∃ e, Ext.get x.this (x.operand 0) x.before.ext = .ok current e ∧
    (e.original.lookup (x.this, x.operand 0)).getD 0 = original

/-- The operand is written, and the gas is metered at a price and a refund. -/
structure Stored (x : Step T) (price refund : Int) (t : Machine T) : Prop where
  slots : ∀ a key, t.ext.slotOf a key =
    if x.this = a ∧ x.operand 0 = key then some (x.operand 1) else x.before.ext.slotOf a key
  warm : t.ext.isStorageWarm x.this (x.operand 0) = true
  gas : t.evm.gas = { x.before.evm.gas with
    used := x.before.evm.gas.used + price, refund := x.before.evm.gas.refund + refund }

/-- The gas left covers neither a negative refund nor the price. -/
def Step.Short (x : Step T) (price refund : Int) : Prop :=
  x.before.evm.gas.remaining + refund < 0 ∨ x.before.evm.gas.remaining < price

variable [EventTracer T] {x : Step T} {original current : Word} {exec : Exec T}

omit [Crypto] [EventTracer T] in
/-- Warm afterwards, whether or not it was. -/
theorem wp_warmSlot (sc : Scope) (key : Word) {s : Machine T} {Q : Bool → Machine T → Prop} {E : Fault → Machine T → Prop}
    (hQ : Q (s.ext.isStorageWarm sc.this key)
      { s with ext.accessedStorage := insert (sc.this, key) s.ext.accessedStorage }) : wp (warmSlot sc key) Q E s := by
  simp only [warmSlot, wp_bind, wp_get, wp_ite, wp_pure, wp_onExt, Ext.warmStorage, wp_modify]
  refine ⟨fun hwarm => ?_, fun hcold => ?_⟩
  · rw [hwarm, Finset.insert_eq_of_mem (by simpa [Ext.isStorageWarm] using hwarm)] at hQ
    exact hQ
  · rw [show s.ext.isStorageWarm sc.this key = false by simpa using hcold] at hQ
    exact hQ

/-- Without the gas it halts; with it the operand is stored. -/
theorem wp_opSstore_metered (h : x.Storing original current) :
    wp (opSstore x.scope x.instruction) (fun r t =>
      let price := storePrice original current (x.operand 1) x.isWarm
      let refund := refundChange original current (x.operand 1)
      (x.Short price refund → ∃ cost, r = .halt cost) ∧
        (¬x.Short price refund → r = .ok price ∧ Stored x 0 refund t)) (fun _ _ => False) x.before := by
  obtain ⟨e, hget, horiginal⟩ := h.finds
  obtain ⟨key, new, rest, hst⟩ : ∃ key new rest, x.before.evm.stack = key :: new :: rest := by
    have hhas := h.has
    unfold Step.has at hhas
    rcases hst : x.before.evm.stack with - | ⟨key, - | ⟨new, rest⟩⟩
    · simp [hst] at hhas
    · simp [hst] at hhas
    · exact ⟨key, new, rest, rfl⟩
  have hkey : x.operand 0 = key := by simp [Step.operand, hst]
  have hnew : x.operand 1 = new := by simp [Step.operand, hst]
  subst hkey hnew
  have hdynamic : x.scope.ctx.isStaticCall ≠ true := by simp [h.dynamic]
  unfold opSstore
  rw [if_neg hdynamic, wp_bind, wp_pop, hst]
  refine ⟨?_, List.cons_ne_nil _ _⟩
  rintro _ _ ⟨⟩
  rw [wp_bind, wp_pop]
  refine ⟨?_, List.cons_ne_nil _ _⟩
  rintro _ _ ⟨⟩
  rw [wp_bind]
  refine wp_warmSlot _ _ ?_
  unfold storeSlot
  rw [wp_bind]
  refine wp_get_warmed (s := { x.before with evm.stack := rest }) (fun val e' hg => ?_) fun f e' u hg => ?_
  · have hsame : (.ok current e : EStateM.Result Fault Ext Word) = .ok val e' := hget.symm.trans hg
    cases hsame
    simp only [wp_bind, wp_get, wp_ite, wp_emit, wp_pure, wp_orError_put, wp_modify, wp_touch, wp_next, sstoreCost_eq,
      sstoreRefund_eq]
    rw [show (e.original.lookup (x.scope.this, x.operand 0)).getD 0 = original from horiginal,
      show x.before.ext.isStorageWarm x.scope.this (x.operand 0) = x.isWarm from rfl]
    refine ⟨fun hrefund => ⟨fun _ => ⟨_, rfl⟩, fun hpaid => absurd (.inl hrefund) hpaid⟩, fun hrefund =>
      ⟨fun hprice => ⟨fun _ => ⟨_, rfl⟩, fun hpaid => absurd (.inr hprice) hpaid⟩, fun hprice =>
        ⟨fun hshort => absurd hshort (not_or.2 ⟨hrefund, hprice⟩), fun _ => ⟨rfl, fun a k => ?_, ?_, ?_⟩⟩⟩⟩
    · rw [← Ext.slotOf_get hg]
      exact Ext.slotOf_written _ _ _ _ _ _
    · exact decide_eq_true (Finset.mem_insert_self _ _)
    · simp [Gas.addRefund]
  · have hsame : (.ok current e : EStateM.Result Fault Ext Word) = .error f e' := hget.symm.trans hg
    cases hsame

omit [Crypto] in
/-- An instruction that can be paid is paid, and nothing else happens around it. -/
theorem wp_settleStep_goes (sc : Scope) (instruction : Instruction) {cost : Int} {s : Machine T}
    (hcost : cost ≤ s.evm.gas.remaining) (hinvalid : instruction.op ≠ .invalid) (hlast : instruction.op ≠ .selfdestruct) :
    wp (settleStep sc instruction (some (.ok cost))) (fun o t => o = none ∧ GoesOn (some (.ok cost)) s t ∧ Settled s t)
      (fun _ _ => False) s := by
  have hpaid := wp_settleStep_paid sc instruction hcost hinvalid hlast
  have hsettles := wp_settleStep sc instruction (some (.ok cost)) s
  have hsettled := settling_settleStep sc instruction (some (.ok cost)) s
  refine wp_mono (wp_and hpaid (wp_and hsettles hsettled)) (fun o t h => ?_) fun _ _ h => h.1
  obtain ⟨⟨rfl, -, -⟩, hgoes, hsettled⟩ := h
  exact ⟨rfl, hgoes, hsettled⟩

/-- The turn of the loop for an SSTORE. -/
theorem wp_executeStep_sstore (exec : Exec T) (h : x.Storing original current) :
    wp (executeStep exec x.scope x.instruction) (fun o t =>
      let price := storePrice original current (x.operand 1) x.isWarm
      let refund := refundChange original current (x.operand 1)
      (x.Short price refund → HaltsDry o t) ∧ (¬x.Short price refund → o = none ∧ Stored x price refund t))
      (fun _ _ => False) x.before := by
  have hop : x.instruction.op = .sstore := h.op
  unfold executeStep
  rw [wp_bind, wp_attempt, show executeInstruction exec x.scope x.instruction = opSstore x.scope x.instruction by
    simp only [executeInstruction, hop]]
  refine wp_mono (wp_opSstore_metered h) (fun r t hr => ?_) fun _ _ hf => hf.elim
  by_cases hshort : x.Short (storePrice original current (x.operand 1) x.isWarm)
    (refundChange original current (x.operand 1))
  · obtain ⟨cost, rfl⟩ := hr.1 hshort
    exact wp_mono (wp_settleStep_halt _ _ _ _) (fun o u hu =>
      ⟨fun _ => hu, fun hpaid => absurd hshort hpaid⟩) fun _ _ h => h
  · obtain ⟨rfl, hstored⟩ := hr.2 hshort
    have hcovered : storePrice original current (x.operand 1) x.isWarm ≤ t.evm.gas.remaining := by
      have hprice := (not_or.1 hshort).2
      rw [hstored.gas]
      unfold Gas.remaining at hprice ⊢
      dsimp only
      omega
    refine wp_mono (wp_settleStep_goes _ _ hcovered (by rw [hop]; decide) (by rw [hop]; decide)) (fun o u hu => ?_)
      fun _ _ h => h
    obtain ⟨rfl, hgoes, hsettled⟩ := hu
    refine ⟨fun h => absurd h hshort, fun _ => ⟨rfl, ?_⟩⟩
    obtain ⟨cost, hcost, -, hgas⟩ := hgoes.cost
    cases hcost
    have hext : u.ext = t.ext := congrArg Trail.ext hsettled.trail
    refine ⟨fun a key => by rw [hext]; exact hstored.slots a key, by rw [hext]; exact hstored.warm, ?_⟩
    rw [hgas, hstored.gas]
    simp

/-! ## When it halts -/

/-- The claimed metering: an SSTORE halts out of gas at 2300 gas or less, or below its
    price; otherwise it goes through. -/
structure Step.Meters (x : Step T) (original current : Word) (o : Option Bytes) (t : Machine T) : Prop where
  halts : HaltsDry o t ↔ x.before.evm.gas.remaining ≤ 2300 ∨
    x.before.evm.gas.remaining < storePrice original current (x.operand 1) x.isWarm
  stores : 2300 < x.before.evm.gas.remaining →
    storePrice original current (x.operand 1) x.isWarm ≤ x.before.evm.gas.remaining →
    o = none ∧ Stored x (storePrice original current (x.operand 1) x.isWarm) (refundChange original current (x.operand 1)) t

/-- It does, if and only if the missing sentry and the negative refund do not tell. -/
theorem sstore_pricing (exec : Exec T) (h : x.Storing original current) :
    ∃ o t, executeStep exec x.scope x.instruction x.before = .ok o t ∧
      (x.Meters original current o t ↔
        x.before.evm.gas.remaining < storePrice original current (x.operand 1) x.isWarm ∨
        (2300 < x.before.evm.gas.remaining ↔
          0 ≤ x.before.evm.gas.remaining + refundChange original current (x.operand 1))) := by
  obtain ⟨o, t, hrun, hshort, hpaid⟩ := exists_ok (wp_executeStep_sstore exec h)
  refine ⟨o, t, hrun, ?_⟩
  have hhalts : HaltsDry o t ↔ x.Short (storePrice original current (x.operand 1) x.isWarm)
      (refundChange original current (x.operand 1)) := by
    refine ⟨fun hdry => ?_, hshort⟩
    by_contra hnot
    obtain ⟨rfl, -⟩ := hpaid hnot
    cases hdry.1
  constructor
  · intro hm
    have hboth := hm.halts.symm.trans hhalts
    unfold Step.Short at hboth
    omega
  · intro hagree
    have hboth : x.Short (storePrice original current (x.operand 1) x.isWarm)
      (refundChange original current (x.operand 1)) ↔
        x.before.evm.gas.remaining ≤ 2300 ∨
          x.before.evm.gas.remaining < storePrice original current (x.operand 1) x.isWarm := by
      unfold Step.Short
      omega
    exact ⟨hhalts.trans hboth, fun hsentry hprice => hpaid fun hs => by have := hboth.1 hs; omega⟩

end

/-! ## Net metering -/

/-- What a slot has cost net once it holds `v`. -/
def netPrice (original v : Word) : Int :=
  (if v = original then 0 else if original = 0 then 19900 else 2800) - if original ≠ 0 ∧ v = 0 then 4800 else 0

/-- What the refund counter owes to a slot that holds `v`. -/
def refundDue (original v : Word) : Int := if original ≠ 0 ∧ v = 0 then 4800 else 0

theorem netPrice_original (original : Word) : netPrice original original = 0 := by
  simp [netPrice]

theorem refundDue_original (original : Word) : refundDue original original = 0 := by
  simp [refundDue]

theorem refundDue_nonneg (original v : Word) : 0 ≤ refundDue original v := by
  unfold refundDue
  split <;> decide

theorem refundChange_same (original v : Word) : refundChange original v v = 0 := by
  unfold refundChange
  by_cases hv : v = 0 <;> by_cases ho : v = original <;> simp [hv, ho]

/-- A write pays for the change of the net price, and 100. -/
theorem storePrice_net (original current new : Word) (isWarm : Bool) :
    storePrice original current new isWarm - refundChange original current new =
      100 + (if isWarm then 0 else 2100) + netPrice original new - netPrice original current := by
  unfold storePrice
  by_cases hsame : new = current
  · subst hsame
    rw [refundChange_same, if_pos rfl]
    omega
  by_cases hclean : current = original
  · -- the first change of the slot
    subst hclean
    rw [netPrice_original, if_neg hsame, if_pos rfl]
    unfold refundChange netPrice
    by_cases hc : current = 0 <;> by_cases hn : new = 0 <;> simp_all <;> omega
  · rw [if_neg hsame, if_neg hclean]
    unfold refundChange netPrice
    by_cases ho : original = 0
    · subst ho
      by_cases hn : new = 0 <;> simp_all <;> omega
    · by_cases hc : current = 0 <;> by_cases hn : new = 0 <;> by_cases hno : new = original <;> simp_all <;> omega

/-- The refund counter never owes more than it has. -/
theorem refundDue_le (original current new : Word) :
    refundDue original new - refundDue original current ≤ refundChange original current new := by
  have hrestored : 0 ≤ if current ≠ original ∧ new = original then (if original = 0 then (19900 : Int) else 2800) else
    0 := by
    split_ifs <;> decide
  unfold refundDue refundChange
  by_cases ho : original = 0
  · simp only [ho, ne_eq, not_true_eq_false, false_and, if_false] at hrestored ⊢
    omega
  · by_cases hc : current = 0 <;> by_cases hn : new = 0 <;>
      simp only [ho, hc, hn, ne_eq, not_false_eq_true, not_true_eq_false, and_true, and_false, if_true, if_false]
        at hrestored ⊢ <;> omega

section

variable {T : Type} [Crypto]

/-- The value an SSTORE takes for the one at the start of the transaction. -/
def Step.original (x : Step T) : Word :=
  match Ext.get x.this (x.operand 0) x.before.ext with
  | .ok _ e => (e.original.lookup (x.this, x.operand 0)).getD 0
  | .error _ _ => 0

/-- An SSTORE, with the machine it left. -/
structure Write (T : Type) where
  step : Step T
  after : Machine T

namespace Write

def charged (w : Write T) : Int := w.after.evm.gas.used - w.step.before.evm.gas.used

def refunded (w : Write T) : Int := w.after.evm.gas.refund - w.step.before.evm.gas.refund

/-- The write went through, to the slot, over this original value. -/
structure Through [EventTracer T] (a : Address) (key original : Word) (w : Write T) : Prop where
  op : w.step.op = .sstore
  this : w.step.this = a
  key : w.step.operand 0 = key
  original : w.step.original = original
  runs : ∃ exec : Exec T, executeStep exec w.step.scope w.step.instruction w.step.before = .ok none w.after

/-- The slot is as the write before left it. -/
structure Then (a : Address) (key : Word) (w w' : Write T) : Prop where
  slot : w'.step.before.ext.slotOf a key = w.after.ext.slotOf a key
  warm : w.after.ext.isStorageWarm a key = true → w'.step.before.ext.isStorageWarm a key = true

end Write

/-- The value after the writes. -/
def Write.final (start : Word) (writes : List (Write T)) : Word :=
  (writes.getLast?.map fun w => w.step.operand 1).getD start

omit [Crypto] in
theorem Write.final_cons (start : Word) (w : Write T) (writes : List (Write T)) :
    final start (w :: writes) = final (w.step.operand 1) writes := by
  unfold final
  rw [List.getLast?_cons]
  cases writes.getLast? <;> rfl

variable [EventTracer T] {a : Address} {key original : Word}

/-- An SSTORE that went through passed its checks, and its slot was read. -/
theorem storing_of_goes {x : Step T} {exec : Exec T} {t : Machine T} (hop : x.op = .sstore)
    (hrun : executeStep exec x.scope x.instruction x.before = .ok none t) : ∃ current, x.Storing x.original current := by
  have hw : wp (opSstore x.scope x.instruction) (fun r _ => (∃ cost, r = .ok cost) →
      x.scope.ctx.isStaticCall = false ∧ x.has 2 ∧ ∃ current e, Ext.get x.this (x.operand 0) x.before.ext = .ok current e)
      (fun _ _ => True) x.before := by
    unfold opSstore
    rw [wp_ite]
    refine ⟨fun _ => (wp_refuse _).2 trivial, fun hdynamic => ?_⟩
    rw [wp_bind, wp_pop]
    refine ⟨fun key rest hst => ?_, fun _ => trivial⟩
    rw [wp_bind, wp_pop]
    refine ⟨fun new rest' hrest => ?_, fun _ => trivial⟩
    have hst : x.before.evm.stack = key :: new :: rest' := by rw [hst, show rest = new :: rest' from hrest]
    have hkey : x.operand 0 = key := by simp [Step.operand, hst]
    rw [wp_bind]
    refine wp_warmSlot _ _ ?_
    unfold storeSlot
    rw [wp_bind]
    refine wp_get_warmed (s := { x.before with evm.stack := rest' }) (fun val e hg => ?_) fun _ _ _ _ _ _ => trivial
    refine wp_def.2 ⟨fun r u _ _ => ⟨by simpa using hdynamic, by simp [Step.has, hst], val, e, ?_⟩, fun _ _ _ => trivial⟩
    rw [hkey]
    exact hg
  obtain ⟨r, u, hr, hsettle⟩ := bind_ok hrun
  have hgoes : GoesOn r u t := (of_ok (wp_settleStep _ _ _ _) hsettle :)
  obtain ⟨cost, rfl, -⟩ := hgoes.cost
  have hinstruction : executeInstruction exec x.scope x.instruction x.before = .ok (.ok cost) u := by
    unfold attempt at hr
    split at hr
    · next h =>
      cases hr
      exact h
    · cases hr
    · cases hr
  rw [show executeInstruction exec x.scope x.instruction = opSstore x.scope x.instruction by
    simp only [executeInstruction, show x.instruction.op = .sstore from hop]] at hinstruction
  obtain ⟨hdynamic, hhas, current, e, hget⟩ := (of_ok hw hinstruction :) ⟨cost, rfl⟩
  exact ⟨current, hop, hdynamic, hhas, e, hget, by simp only [Step.original, hget]⟩

/-- A write that went through had its slot read, and its gas. -/
theorem Write.Through.stored {w : Write T} (h : w.Through a key original) : ∃ current,
    w.step.before.ext.slotOf a key = some current ∧
      Stored w.step (storePrice original current (w.step.operand 1) w.step.isWarm)
        (refundChange original current (w.step.operand 1)) w.after := by
  obtain ⟨exec, hrun⟩ := h.runs
  obtain ⟨current, hstoring⟩ := storing_of_goes h.op hrun
  rw [h.original] at hstoring
  obtain ⟨o, t, hrun', hshort, hpaid⟩ := exists_ok (wp_executeStep_sstore exec hstoring)
  obtain ⟨rfl, rfl⟩ : none = o ∧ w.after = t := by
    cases hrun.symm.trans hrun'
    exact ⟨rfl, rfl⟩
  obtain ⟨e, hget, -⟩ := hstoring.finds
  rw [h.this, h.key] at hget
  refine ⟨current, Ext.get_slotOf hget, ?_⟩
  by_cases hs : w.step.Short (storePrice original current (w.step.operand 1) w.step.isWarm)
      (refundChange original current (w.step.operand 1))
  · cases (hshort hs).1
  · exact (hpaid hs).2

/-- One write: the net price moves from the value before to the value after. -/
theorem Write.Through.net {w : Write T} (h : w.Through a key original) {current : Word}
    (hslot : w.step.before.ext.slotOf a key = some current) :
    w.charged - w.refunded = 100 + (if w.step.isWarm then 0 else 2100) + netPrice original (w.step.operand 1) -
      netPrice original current ∧
    refundDue original (w.step.operand 1) - refundDue original current ≤ w.refunded ∧
    w.after.ext.slotOf a key = some (w.step.operand 1) ∧ w.after.ext.isStorageWarm a key = true := by
  obtain ⟨current', hslot', hstored⟩ := h.stored
  obtain rfl : current = current' := Option.some.inj (hslot.symm.trans hslot')
  have hcharged : w.charged = storePrice original current (w.step.operand 1) w.step.isWarm := by
    unfold Write.charged
    rw [hstored.gas]
    dsimp only
    omega
  have hrefunded : w.refunded = refundChange original current (w.step.operand 1) := by
    unfold Write.refunded
    rw [hstored.gas]
    dsimp only
    omega
  refine ⟨?_, ?_, ?_, ?_⟩
  · rw [hcharged, hrefunded, storePrice_net]
  · rw [hrefunded]
    exact refundDue_le _ _ _
  · rw [hstored.slots, h.this, h.key, if_pos ⟨rfl, rfl⟩]
  · rw [← h.this, ← h.key]
    exact hstored.warm

/-- The writes of a sequence pay the net price of where they end, and owe nothing. -/
theorem Write.net_sum {writes : List (Write T)} (hw : ∀ w ∈ writes, w.Through a key original)
    (hchain : writes.IsChain (Write.Then a key)) {current : Word}
    (hstart : ∀ w ∈ writes.head?, w.step.before.ext.slotOf a key = some current) :
    (writes.map charged).sum - (writes.map refunded).sum =
      100 * writes.length + (if writes.head?.any fun w => !w.step.isWarm then 2100 else 0) +
        netPrice original (final current writes) - netPrice original current ∧
    refundDue original (final current writes) - refundDue original current ≤ (writes.map refunded).sum := by
  induction writes generalizing current with
  | nil => simp [final]
  | cons w writes ih =>
    have hthrough := hw w List.mem_cons_self
    obtain ⟨hnet, hdue, hslot, hwarm⟩ := hthrough.net (hstart w rfl)
    obtain ⟨hrest, hchain⟩ := List.isChain_cons.1 hchain
    obtain ⟨ihnet, ihdue⟩ := ih (fun w' h => hw w' (List.mem_cons_of_mem _ h)) hchain
      fun w' h => (hrest w' h).slot.trans hslot
    -- only the first write can find the slot cold
    have hcold : (writes.head?.any fun w' => !w'.step.isWarm) = false := by
      cases writes with
      | nil => rfl
      | cons w' writes =>
        have hthrough' := hw w' (List.mem_cons_of_mem _ List.mem_cons_self)
        have hwarm' : w'.step.isWarm = true := by
          unfold Step.isWarm
          rw [hthrough'.this, hthrough'.key]
          exact (hrest w' rfl).warm hwarm
        simp [hwarm']
    rw [hcold] at ihnet
    rw [final_cons]
    rw [if_neg Bool.false_ne_true] at ihnet
    simp only [List.map_cons, List.sum_cons, List.length_cons, List.head?_cons, Option.any_some]
    rcases Bool.eq_false_or_eq_true w.step.isWarm with hfirst | hfirst
    · simp only [hfirst, Bool.not_true, Bool.false_eq_true, if_true, if_false] at hnet ⊢
      constructor <;> omega
    · simp only [hfirst, Bool.not_false, Bool.false_eq_true, if_true, if_false] at hnet ⊢
      constructor <;> omega

omit [Crypto] in
/-- A refund that is not negative never raises the gas. -/
theorem Gas.finalized_le {g : Gas} {callCost : Int} {reverted : Bool} (hrefund : 0 ≤ g.refund)
    (hused : 0 ≤ g.used + callCost) :
    g.finalized callCost reverted ≤ g.used + callCost := by
  unfold Gas.finalized
  split
  · exact le_rfl
  · have hcap : 0 ≤ (g.used + callCost).tdiv 5 := Int.tdiv_nonneg hused (by decide)
    dsimp only
    omega

/-- What successful writes to one slot cost net depends on how many they are, on where they
    end and on whether the first finds the slot cold; their refunds sum up to no less than
    zero, so no transaction that is finalised with them pays more than it used. -/
theorem net_metering {writes : List (Write T)} {v : Word} (hw : ∀ w ∈ writes, w.Through a key original)
    (hchain : writes.IsChain (Write.Then a key))
    (hstart : ∀ w ∈ writes.head?, w.step.before.ext.slotOf a key = some original) (hend : Write.final original writes = v) :
    (writes.map Write.charged).sum - (writes.map Write.refunded).sum =
      100 * writes.length + (if writes.head?.any fun w => !w.step.isWarm then 2100 else 0) +
        (if v = original then 0 else if original = 0 then 19900 else 2800) - (if original ≠ 0 ∧ v = 0 then 4800 else 0) ∧
    0 ≤ (writes.map Write.refunded).sum ∧
    ∀ (g : Gas) (callCost : Int) (reverted : Bool), g.refund = (writes.map Write.refunded).sum → 0 ≤ g.used + callCost →
      g.finalized callCost reverted ≤ g.used + callCost := by
  obtain ⟨hnet, hdue⟩ := Write.net_sum hw hchain hstart
  rw [hend, netPrice_original] at hnet
  rw [hend, refundDue_original] at hdue
  have hnonneg := refundDue_nonneg original v
  have hrefunds : 0 ≤ (writes.map Write.refunded).sum := by omega
  refine ⟨?_, hrefunds, fun g callCost reverted hg hused => Gas.finalized_le (hg ▸ hrefunds) hused⟩
  rw [hnet]
  unfold netPrice
  omega

end

namespace Sample

/-- SSTORE of 0 to the empty slot 0, which is warm. -/
def rewrite (gas : Int) : Step NoopTracer :=
  { step [0x55] [0, 0] [(0xaa, 0, [])] with
    before.evm := { stack := [0, 0], gas := .new gas }
    before.ext := { (machine [(0xaa, 0, [])]).ext with accessedStorage := insert (0xaa, 0) ∅ } }

theorem storing_rewrite (gas : Int) : (rewrite gas).Storing 0 0 := by
  have hop : (rewrite 0).op = .sstore := by decide
  have hget : returns (Ext.get (rewrite 0).this ((rewrite 0).operand 0) (rewrite 0).before.ext) (fun val e =>
      val == 0 && (e.original.lookup ((rewrite 0).this, (rewrite 0).operand 0)).getD 0 == 0) = true := by decide +kernel
  obtain ⟨val, e, hrun, hval⟩ := of_returns hget
  obtain ⟨hval, horiginal⟩ := Bool.and_eq_true_iff.1 hval
  obtain rfl : val = 0 := eq_of_beq hval
  exact ⟨hop, rfl, le_refl 2, e, hrun, eq_of_beq horiginal⟩

/-- SSTORE to slot 0 of account 0xaa. -/
def write (v : Word) (s : Machine NoopTracer) : Step NoopTracer :=
  { step [0x55] [] [] with before := { s with evm.stack := [0, v] } }

/-- The slot holds 7, and is cold. -/
def seven : Machine NoopTracer :=
  { machine [] with ext.state := (∅ : Accounts).insert 0xaa { state := (∅ : Storage).insert 0 7 } }

theorem storing_cleared : (write 0 seven).Storing 7 7 := by
  have hop : (write 0 seven).op = .sstore := by decide
  have hget : returns (Ext.get (write 0 seven).this ((write 0 seven).operand 0) (write 0 seven).before.ext) (fun val e =>
      val == 7 && (e.original.lookup ((write 0 seven).this, (write 0 seven).operand 0)).getD 0 == 7) =
        true := by decide +kernel
  obtain ⟨val, e, hrun, hval⟩ := of_returns hget
  obtain ⟨hval, horiginal⟩ := Bool.and_eq_true_iff.1 hval
  obtain rfl : val = 7 := eq_of_beq hval
  exact ⟨hop, rfl, le_refl 2, e, hrun, eq_of_beq horiginal⟩

end Sample

open Sample

/-- A cold slot that holds 7 is cleared, for 5000 gas of which 4800 are to be refunded: the
    claimed metering is met. -/
theorem sstore_pricing_cleared : ∃ o t, executeStep (executeWithContext 1) (write 0 seven).scope (write 0 seven).instruction
    (write 0 seven).before = .ok o t ∧ (write 0 seven).Meters 7 7 o t ∧ (write 0 seven).isWarm = false ∧
      t.evm.gas.used = 5000 ∧ t.evm.gas.refund = 4800 := by
  have hcold : (write 0 seven).isWarm = false := by decide +kernel
  have hleft : (write 0 seven).before.evm.gas.remaining = 100000 := rfl
  have hprice : storePrice 7 7 ((write 0 seven).operand 1) (write 0 seven).isWarm = 5000 := by decide +kernel
  have hrefund : refundChange 7 7 ((write 0 seven).operand 1) = 4800 := by decide
  obtain ⟨o, t, hrun, hiff⟩ := sstore_pricing (executeWithContext 1) storing_cleared
  have hmeets : (write 0 seven).Meters 7 7 o t := by
    refine hiff.2 (.inr ?_)
    rw [hleft, hrefund]
    decide
  obtain ⟨-, hstored⟩ := hmeets.stores (by rw [hleft]; decide) (by rw [hleft, hprice]; decide)
  refine ⟨o, t, hrun, hmeets, hcold, ?_, ?_⟩
  · rw [hstored.gas, hprice]
    rfl
  · rw [hstored.gas, hrefund]
    rfl

/-- At 200 gas it goes through, where it is to halt. -/
theorem sstore_pricing_fails : (rewrite 200).Storing 0 0 ∧ ∃ o t, executeStep (executeWithContext 1) (rewrite 200).scope
    (rewrite 200).instruction (rewrite 200).before = .ok o t ∧ ¬(rewrite 200).Meters 0 0 o t := by
  obtain ⟨o, t, hrun, -, hpaid⟩ := exists_ok (wp_executeStep_sstore (executeWithContext 1) (storing_rewrite 200))
  have hleft : (rewrite 200).before.evm.gas.remaining = 200 := rfl
  have hprice : storePrice 0 0 ((rewrite 200).operand 1) (rewrite 200).isWarm = 100 := by decide
  have hrefund : refundChange 0 0 ((rewrite 200).operand 1) = 0 := by decide
  have henough : ¬(rewrite 200).Short (storePrice 0 0 ((rewrite 200).operand 1) (rewrite 200).isWarm)
      (refundChange 0 0 ((rewrite 200).operand 1)) := by
    rw [hprice, hrefund]
    unfold Step.Short
    rw [hleft]
    omega
  refine ⟨storing_rewrite 200, o, t, hrun, fun hm => ?_⟩
  obtain ⟨rfl, -⟩ := hpaid henough
  cases (hm.halts.2 (.inl (by rw [hleft]; decide))).1

namespace Sample

/-- The step goes on, to a machine in `p`. -/
def goes (x : Step NoopTracer) (p : Machine NoopTracer → Bool) : Bool :=
  returns (executeStep (executeWithContext 1) x.scope x.instruction x.before) fun o t => o.isNone && p t

theorem of_goes {x : Step NoopTracer} {p : Machine NoopTracer → Bool} (h : goes x p = true) :
    ∃ t, executeStep (executeWithContext 1) x.scope x.instruction x.before = .ok none t ∧ p t = true := by
  obtain ⟨o, t, hrun, hp⟩ := of_returns h
  obtain ⟨ho, hp⟩ := Bool.and_eq_true_iff.1 hp
  obtain rfl : o = none := Option.isNone_iff_eq_none.1 ho
  exact ⟨t, hrun, hp⟩

end Sample

/-- A slot that holds 7 is set to 5 and back: 200 for the two writes, and 2100 for the cold slot. -/
theorem net_metering_restored : ∃ w w' : Write NoopTracer, [w, w'].IsChain (Write.Then 0xaa 0) ∧
    (∀ x ∈ [w, w'], x.Through 0xaa 0 7) ∧
    ([w, w'].map Write.charged).sum - ([w, w'].map Write.refunded).sum = 2300 := by
  obtain ⟨t, hrun, ht⟩ := of_goes (x := write 5 seven) (p := fun t => (write 7 t).original == 7 &&
    goes (write 7 t) fun _ => true) (by decide +kernel)
  obtain ⟨horiginal, hgoes⟩ := Bool.and_eq_true_iff.1 ht
  obtain ⟨u, hrun', -⟩ := of_goes hgoes
  have hop : (write 5 seven).op = .sstore := by decide
  have hthis : (write 5 seven).this = 0xaa := by decide
  have hseven : (write 5 seven).original = 7 := by decide +kernel
  have hslot : seven.ext.slotOf 0xaa 0 = some 7 := by decide +kernel
  have hcold : (write 5 seven).isWarm = false := by decide +kernel
  have hw : Write.Through 0xaa 0 7 (⟨write 5 seven, t⟩ : Write NoopTracer) := ⟨hop, hthis, rfl, hseven, _, hrun⟩
  have hw' : Write.Through 0xaa 0 7 (⟨write 7 t, u⟩ : Write NoopTracer) :=
    ⟨hop, hthis, rfl, eq_of_beq horiginal, _, hrun'⟩
  have hthen : Write.Then 0xaa 0 (⟨write 5 seven, t⟩ : Write NoopTracer) ⟨write 7 t, u⟩ := ⟨rfl, id⟩
  have hall : ∀ x ∈ [(⟨write 5 seven, t⟩ : Write NoopTracer), ⟨write 7 t, u⟩], x.Through 0xaa 0 7 := by
    intro x hx
    rcases List.mem_pair.1 hx with rfl | rfl
    · exact hw
    · exact hw'
  have hchain : [(⟨write 5 seven, t⟩ : Write NoopTracer), ⟨write 7 t, u⟩].IsChain (Write.Then 0xaa 0) :=
    List.isChain_pair.2 hthen
  have hstart : ∀ w ∈ [(⟨write 5 seven, t⟩ : Write NoopTracer), ⟨write 7 t, u⟩].head?,
      w.step.before.ext.slotOf 0xaa 0 = some 7 := by
    rintro w ⟨⟩
    exact hslot
  obtain ⟨hnet, -⟩ := net_metering (v := 7) hall hchain hstart rfl
  refine ⟨_, _, hchain, hall, hnet.trans ?_⟩
  simp only [List.length_cons, List.length_nil, List.head?_cons, Option.any_some, hcold, Bool.not_false, if_true]
  decide

end Solenoid
