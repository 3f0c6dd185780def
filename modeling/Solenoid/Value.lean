/-
  Solenoid.Value — what becomes of the value a call or a creation carries.

  A call moves its value before its frame starts (`Step.pays`), into the caller's journal.
  When the frame reverts only the frame's own journal is undone, so the value stays where
  it went (`failed_call_balances`).
-/
import Solenoid.Balances

namespace Solenoid

open Hoare UndoLog

section

variable {T : Type} [Crypto]

/-! ## The transfer of a call -/

/-- The frame of a call starts with the value moved, or with the balances as they were. -/
theorem CallsFrame.balanceOf {x : Step T} {inner : Inner T} {pending : Pending} {t : Machine T}
    (h : CallsFrame x inner pending t) (a : Address) :
    (x.pays → t.ext.balanceOf a = x.before.ext.shifted x.this x.target x.value a) ∧
      (¬x.pays → t.ext.balanceOf a = x.before.ext.balanceOf a) := by
  obtain ⟨mid, hread, hmoved⟩ := h.trail
  have hmid := hread.balanceOf_kept a
  have hmid : mid.ext.balanceOf a = x.before.ext.balanceOf a := hmid
  have hfunds : mid.ext.funds x.this = x.before.ext.funds x.this := hread.funds_kept x.this
  cases hmoved with
  | moved hne hv ha funds hact =>
    have hpays : x.pays := ⟨hv, hne, by rwa [← hfunds, Ext.funds_loaded ha]⟩
    refine ⟨fun _ => ?_, fun hn => absurd hpays hn⟩
    have ht : t.ext.balanceOf a = mid.ext.shifted x.this x.target x.value a := hact.shifted hne a
    rw [ht, Ext.shifted, hmid, Ext.shifted]
  | still ha hb hnot =>
    refine ⟨fun hpays => absurd ⟨hpays.2.1, hpays.1, ?_⟩ hnot, fun _ => hmid⟩
    rw [← Ext.funds_loaded ha, hfunds]
    exact hpays.2.2

/-- The values of a transfer that happens change the balance of its sender. -/
theorem CallsFrame.balances_iff {x : Step T} {inner : Inner T} {pending : Pending} {t : Machine T}
    (h : CallsFrame x inner pending t) : (∀ a, t.ext.balanceOf a = x.before.ext.balanceOf a) ↔ ¬x.pays := by
  refine ⟨fun hsame hpays => ?_, fun hnot a => (h.balanceOf a).2 hnot⟩
  have hmoved := (h.balanceOf x.this).1 hpays
  rw [hsame x.this] at hmoved
  obtain ⟨hvalue, -, hfunds⟩ := hpays
  unfold Ext.shifted at hmoved
  unfold Ext.funds at hfunds
  cases hb : x.before.ext.balanceOf x.this with
  | none =>
    rw [hb] at hfunds
    exact hvalue (BitVec.eq_of_toNat_eq (Nat.le_zero.1 hfunds))
  | some b =>
    rw [hb] at hmoved
    simp only [Option.map_some, if_true, Option.some.injEq] at hmoved
    exact hvalue (by bv_omega)

/-! ## Frames that create and destroy nothing -/

theorem Opens.created? {x : Step T} {inner : Inner T} {pending : Pending} {t : Machine T}
    (h : Opens x inner pending t) (hx : ¬x.isCreation) : pending.created? = none := by
  cases h with
  | message _ h =>
    obtain ⟨_, _, _, _, _, rfl⟩ := h.pending
    rfl
  | creation hop => exact absurd hop hx

theorem Follows.created_nil {sc : Scope} {h : History T} {t u : Trail} (hf : Follows sc h t u)
    (hsteps : ∀ y ∈ h.steps, ¬y.isCreation) : h.created = [] := by
  induction hf with
  | done | cut => rfl
  | step _ _ _ _ ih => exact ih fun y hy => hsteps y (List.mem_cons_of_mem _ hy)
  | @call x inner pending opened callee rest r w u v opens _ _ _ _ _ _ ihruns ih =>
    simp only [History.steps, List.mem_cons, List.mem_append] at hsteps
    have hcallee := ihruns fun y hy => hsteps y (.inr (.inl hy))
    have hrest := ih fun y hy => hsteps y (.inr (.inr hy))
    simp [History.created, hcallee, hrest, opens.created? (hsteps x (.inl rfl))]

/-- Message calls alone can be undone. -/
theorem Follows.undoable {C : Type} (f : Field C) {sc : Scope} {h : History T} {t u : Trail} (hf : Follows sc h t u)
    (hsteps : ∀ y ∈ h.steps, ¬y.isCreation ∧ y.op ≠ .selfdestruct) : h.Undoable f := by
  induction hf with
  | done | cut => trivial
  | @step x rest u v _ _ _ _ ih =>
    refine ⟨fun hd => (hsteps x List.mem_cons_self).2 hd.1, ?_⟩
    exact ih fun y hy => hsteps y (List.mem_cons_of_mem _ hy)
  | @call x inner pending opened callee rest r w u v opens _ _ runs _ _ _ ihruns ih =>
    simp only [History.steps, List.mem_cons, List.mem_append] at hsteps
    have hcallee : ∀ y ∈ callee.steps, ¬y.isCreation ∧ y.op ≠ .selfdestruct := fun y hy => hsteps y (.inr (.inl hy))
    refine ⟨fun hd => (hsteps x (.inl rfl)).2 hd.1, ihruns hcallee, ?_, ih fun y hy => hsteps y (.inr (.inr hy))⟩
    rintro _ ⟨⟩
    refine ⟨fun hx => absurd hx (hsteps x (.inl rfl)).1, fun _ a ha => ?_⟩
    rw [runs.created_nil fun y hy => (hcallee y hy).1] at ha
    cases ha

/-! ## Failed calls -/

section

variable [EventTracer T] {fuel : Nat} {x : Step T} {inner : Inner T} {pending : Pending} {opened m u : Machine T}
  {ret : Bytes} {r : StepResult}

/-- A message call whose frame reverted pushes 0, and leaves the balances the frame found. -/
theorem reverted_call (hcall : x.op.isMessageCall) (hs : x.before.evm.stack.length ≤ stackLimit)
    (hopened : openedFrame x.scope x.instruction x.before = some (inner, pending, opened))
    (hrun : executeWithContext fuel inner.scope (inner.machine opened.ext) = .ok ret m) (hrev : m.evm.reverted = true)
    (hbelow : ∀ y ∈ (history fuel inner.scope (inner.machine opened.ext)).steps, ¬y.isCreation ∧ y.op ≠ .selfdestruct)
    (h : executeInstruction (executeWithContext fuel) x.scope x.instruction x.before = .ok r u) :
    CallsFrame x inner pending opened ∧ u.evm.stack.head? = some 0 ∧ ∀ a, u.ext.balanceOf a = opened.ext.balanceOf a := by
  have hopens := opens_of_openedFrame hopened
  obtain ⟨w, hw, hf⟩ := hopens.follows hrun
  have hext : opened.ext.Extends m.ext := hw.extends.trans hf.extends
  obtain ⟨cost, v, -, rfl, hclosed⟩ := of_ok (wp_executeInstruction_closed hs hopened hrun hext).ok h
  have hframe : CallsFrame x inner pending opened := by
    cases hopens with
    | message _ h => exact h
    | creation hop => rcases hop with h | h <;> simp [h, Op.isMessageCall] at hcall
  obtain ⟨gas, retOffset, retSize, stipend, traceCost, hpending⟩ := hframe.pending
  have hkeeps : pending.keeps ⟨m.exe.tracer, ret, m.evm⟩ = false := by simp [hpending, Pending.keeps, hrev]
  have hback : RolledBack m.evm { opened.trail with ext := m.ext } v.trail := by
    have hc := hclosed.closes
    rwa [Closes, if_neg (by simp [hkeeps])] at hc
  refine ⟨hframe, ?_, fun a => ?_⟩
  · have hstack : v.evm.stack = pending.result ⟨m.exe.tracer, ret, m.evm⟩ :: opened.evm.stack := hclosed.stack
    simp [hstack, Pending.result, hkeeps]
  · have havoids := History.avoids_of_steps a fun y hy => (hbelow y hy).1
    obtain ⟨ts, hts, -⟩ := (hw.led (a := a) Act.led_read).after (hf.led havoids)
    have htouches : m.evm.touches = ts := hts.touches
    subst htouches
    rw [History.drift_of_messages a hbelow] at hts
    exact (Accounted.undone hts hback.ext).eq_iff.2 rfl

/-- After a CALL whose frame reverted, the balances are those before it just when the call moved
    no value. -/
theorem failed_call_balances (hop : x.op = .call) (hs : x.before.evm.stack.length ≤ stackLimit)
    (hopened : openedFrame x.scope x.instruction x.before = some (inner, pending, opened))
    (hrun : executeWithContext fuel inner.scope (inner.machine opened.ext) = .ok ret m) (hrev : m.evm.reverted = true)
    (hbelow : ∀ y ∈ (history fuel inner.scope (inner.machine opened.ext)).steps, ¬y.isCreation ∧ y.op ≠ .selfdestruct)
    (h : executeInstruction (executeWithContext fuel) x.scope x.instruction x.before = .ok r u) :
    u.evm.stack.head? = some 0 ∧ ((∀ a, u.ext.balanceOf a = x.before.ext.balanceOf a) ↔ ¬x.pays) := by
  obtain ⟨hframe, hzero, hback⟩ := reverted_call (by rw [hop]; rfl) hs hopened hrun hrev hbelow h
  refine ⟨hzero, ?_⟩
  rw [← hframe.balances_iff]
  exact forall_congr' fun a => by rw [hback a]

end

end

namespace Sample

/-- Account 0xaa, with 5, calls account 0xbb, which reverts: `PUSH0; PUSH0; REVERT`. -/
def failingCall (value : Word) : Step NoopTracer :=
  step [0xf1] [50000, 0xbb, value, 0, 0, 0, 0] [(0xaa, 5, []), (0xbb, 0, [0x5f, 0x5f, 0xfd])]

instance {T : Type} (y : Step T) : Decidable (¬y.isCreation ∧ y.op ≠ .selfdestruct) := by
  unfold Step.isCreation
  infer_instance

/-- The frame of the call reverts, with nothing excluded below it, and the call returns. -/
def fails (value : Word) (p : Machine NoopTracer → Bool) : Bool :=
  calls 10 (failingCall value) fun inner _ opened m u => m.evm.reverted && p u &&
    decide (∀ y ∈ (history 10 inner.scope (inner.machine opened.ext)).steps, ¬y.isCreation ∧ y.op ≠ .selfdestruct)

theorem of_fails (value : Word) {p : Machine NoopTracer → Bool} (h : fails value p = true) :
    ∃ inner pending opened ret m r u,
      openedFrame (failingCall value).scope (failingCall value).instruction (failingCall value).before =
        some (inner, pending, opened) ∧
      executeWithContext 10 inner.scope (inner.machine opened.ext) = .ok ret m ∧ m.evm.reverted = true ∧
      (∀ y ∈ (history 10 inner.scope (inner.machine opened.ext)).steps, ¬y.isCreation ∧ y.op ≠ .selfdestruct) ∧
      executeInstruction (executeWithContext 10) (failingCall value).scope (failingCall value).instruction
        (failingCall value).before = .ok r u ∧ p u = true := by
  obtain ⟨inner, pending, opened, ret, m, r, u, ho, hrun, hu, h⟩ := of_calls h
  simp only [Bool.and_eq_true, decide_eq_true_eq] at h
  exact ⟨inner, pending, opened, ret, m, r, u, ho, hrun, h.1.1, h.2, hu, h.1.2⟩

end Sample

open Sample in
/-- A value of 9 does not move. -/
theorem failed_call_balances_short : ∃ u r, executeInstruction (executeWithContext 10) (failingCall 9).scope
      (failingCall 9).instruction (failingCall 9).before = .ok r u ∧
    u.evm.stack.head? = some 0 ∧ ∀ a, u.ext.balanceOf a = (failingCall 9).before.ext.balanceOf a := by
  obtain ⟨inner, pending, opened, ret, m, r, u, ho, hrun, hrev, hbelow, hu, -⟩ := of_fails 9
    (p := fun _ => true) (by decide +kernel)
  obtain ⟨hzero, hiff⟩ := failed_call_balances rfl (by decide) ho hrun hrev hbelow hu
  refine ⟨u, r, hu, hzero, hiff.2 fun hpays => ?_⟩
  exact absurd hpays.2.2 (by decide +kernel)

open Sample in
/-- A value of 1 stays with account 0xbb. -/
theorem failed_call_keeps_value : ∃ inner pending opened ret m r u,
    openedFrame (failingCall 1).scope (failingCall 1).instruction (failingCall 1).before = some (inner, pending, opened) ∧
    executeWithContext 10 inner.scope (inner.machine opened.ext) = .ok ret m ∧ m.evm.reverted = true ∧
    (∀ y ∈ (history 10 inner.scope (inner.machine opened.ext)).steps, ¬y.isCreation ∧ y.op ≠ .selfdestruct) ∧
    executeInstruction (executeWithContext 10) (failingCall 1).scope (failingCall 1).instruction
      (failingCall 1).before = .ok r u ∧
    (failingCall 1).before.ext.balanceOf 0xaa = some 5 ∧ u.ext.balanceOf 0xaa = some 4 := by
  obtain ⟨inner, pending, opened, ret, m, r, u, ho, hrun, hrev, hbelow, hu, h⟩ := of_fails 1
    (p := fun u => u.ext.balanceOf 0xaa == some 4) (by decide +kernel)
  exact ⟨inner, pending, opened, ret, m, r, u, ho, hrun, hrev, hbelow, hu, by decide +kernel, by simpa using h⟩

end Solenoid
