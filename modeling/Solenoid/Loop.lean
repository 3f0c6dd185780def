/-
  Solenoid.Loop — what the interpreter's loop does around an instruction.

  It changes flags, gas and the trace only (`Settled`); it goes on when the instruction's
  cost is paid (`GoesOn`), and a frame that it ends returns nothing (`wp_settleStep`). A
  run never reports: what an instruction reports ends its frame.
-/
import Solenoid.CallEffects

namespace Solenoid

open Hoare

variable {T : Type} [Crypto] [EventTracer T]

/-! ## The loop around an instruction -/

omit [Crypto] [EventTracer T] in
@[simp] theorem wp_attempt {α : Type} {Q : Option α → Machine T → Prop} {E : Fault → Machine T → Prop} {s : Machine T}
    (m : M T α) : wp (attempt m) Q E s ↔
      wp m (fun a => Q (some a)) (fun f t => (∀ r, f = .report r → Q none t) ∧ ((∀ r, f ≠ .report r) → E f t)) s := by
  rw [wp_def, wp_def]
  unfold attempt
  cases h : m s with
  | ok a t => simp
  | error f t => cases f <;> simp

/-- What the loop does after an instruction touches only flags, gas and the trace. -/
structure Settled (s t : Machine T) : Prop where
  trail : t.trail = s.trail
  stack : t.evm.stack = s.evm.stack
  ret : t.exe.ret = s.exe.ret
  header : t.exe.header = s.exe.header
  limit : t.evm.gas.limit = s.evm.gas.limit

namespace Settled

variable {s t u : Machine T}

omit [Crypto] [EventTracer T]

theorem refl (s : Machine T) : Settled s s := ⟨rfl, rfl, rfl, rfl, rfl⟩

theorem trans (h : Settled s t) (h' : Settled t u) : Settled s u :=
  ⟨h'.trail.trans h.trail, h'.stack.trans h.stack, h'.ret.trans h.ret, h'.header.trans h.header,
    h'.limit.trans h.limit⟩

end Settled

/-- What settles and never reports. -/
def settling : Frame Fault (Machine T) where
  ok := Settled
  err f _ _ := ∀ r, f ≠ .report r
  refl := .refl
  trans := .trans
  fail _ h := h

section Settling

omit [Crypto]

variable (sc : Scope) (instruction : Instruction)

omit [EventTracer T] in
theorem settling_modify {f : Machine T → Machine T} (h : ∀ s, Settled s (f s)) : Keeps settling (modify f : M T Unit) :=
  .modify h

theorem settling_emit (depth : Nat) (reverted : Bool) (data : EventData) :
    Keeps settling (emit depth reverted data : M T Unit) := settling_modify fun _ => ⟨rfl, rfl, rfl, rfl, rfl⟩

omit [EventTracer T] in
theorem settling_halted : Keeps settling (halted : M T Unit) := settling_modify fun _ => ⟨rfl, rfl, rfl, rfl, rfl⟩

omit [EventTracer T] in
theorem settling_drainGas : Keeps settling (drainGas : M T Unit) := settling_modify fun _ => ⟨rfl, rfl, rfl, rfl, rfl⟩

theorem settling_recordOp (cost : Int) (recorded : Bool) :
    Keeps settling (recordOp sc instruction cost recorded : M T Unit) := by
  refine .ite (fun _ => .pure _) fun _ => Keeps.get.bind fun _ => Keeps.bind (settling_modify ?_) fun _ =>
    settling_emit _ _ _
  exact fun _ => ⟨rfl, rfl, rfl, rfl, rfl⟩

theorem settling_haltFrame (reason : HaltReason) : Keeps settling (haltFrame sc reason : M T (Option Bytes)) :=
  settling_halted.bind fun _ => (settling_emit _ _ _).bind fun _ => .pure _

omit [EventTracer T] in
theorem settling_takeGas (cost : Int) : Keeps settling (attempt (takeGas cost) : M T (Option Unit)) := fun s => by
  have hsub : (s.evm.gas.sub cost).1.limit = s.evm.gas.limit := by unfold Gas.sub; split <;> rfl
  simp only [wp_attempt, takeGas, Evm.takeGas, wp_onEvm, wp_bind, wp_get, wp_modify, wp_ite, wp_pure, Solenoid.wp_error]
  exact ⟨fun _ => ⟨rfl, rfl, rfl, rfl, hsub⟩, fun _ => ⟨fun _ _ => ⟨rfl, rfl, rfl, rfl, hsub⟩, fun h => absurd rfl (h _)⟩⟩

theorem settling_settleStep (r : Option StepResult) :
    Keeps settling (settleStep sc instruction r : M T (Option Bytes)) := by
  cases r with
  | none =>
    refine settling_halted.bind fun _ => ?_
    refine Keeps.get.bind fun _ => ?_
    refine (settling_emit _ _ _).bind fun _ => ?_
    refine settling_drainGas.bind fun _ => ?_
    exact .pure _
  | some r =>
    cases r with
    | halt cost =>
      refine settling_halted.bind fun _ => ?_
      refine (settling_recordOp _ _ _ _).bind fun _ => ?_
      refine settling_drainGas.bind fun _ => ?_
      exact settling_haltFrame _ _
    | ok cost =>
      refine (settling_recordOp _ _ _ _).bind fun _ => ?_
      refine .ite (fun _ => settling_drainGas.bind fun _ => settling_haltFrame _ _) fun _ => ?_
      refine (settling_takeGas cost).bind fun charged => ?_
      cases charged with
      | none => exact settling_haltFrame _ _
      | some _ => exact .pure _

theorem settling_finishFrame : Keeps settling (finishFrame sc : M T Bytes) := by
  refine Keeps.get.bind fun _ => ?_
  refine (Keeps.ite (fun _ => settling_emit _ _ _) fun _ => .pure _).bind fun _ => ?_
  refine Keeps.get.bind fun _ => ?_
  exact .pure _

end Settling

/-- How the loop goes on: the instruction's cost is paid. -/
structure GoesOn (r : Option StepResult) (s t : Machine T) : Prop where
  cost : ∃ cost, r = some (.ok cost) ∧ cost ≤ s.evm.gas.remaining ∧
    t.evm.gas = { s.evm.gas with used := s.evm.gas.used + cost }
  evm : t.evm = { s.evm with refund := t.evm.refund, gas := t.evm.gas }

/-- The loop goes on when the cost is paid. A frame it ends returns nothing, and is reverted
    unless it was destroyed. -/
def Settles (instruction : Instruction) (r : Option StepResult) (s : Machine T) : Option Bytes → Machine T → Prop
  | none, t => GoesOn r s t
  | some ret, t => ret = [] ∧ (t.evm.reverted = true ∨ instruction.opcode.code = 0xff)

omit [Crypto] in
theorem wp_haltFrame (sc : Scope) (reason : HaltReason) {E : Fault → Machine T → Prop} {s : Machine T} :
    wp (haltFrame sc reason) (fun o t => o = some [] ∧ t.evm.reverted = true) E s := by
  simp only [haltFrame, halted, wp_bind, wp_modify, wp_emit, wp_pure, and_self]

omit [Crypto] in
theorem wp_settleStep (sc : Scope) (instruction : Instruction) (r : Option StepResult) (s : Machine T) :
    wp (settleStep sc instruction r) (Settles instruction r s) (fun _ _ => True) s := by
  have hhalt : ∀ (reason : HaltReason) (u : Machine T),
      wp (haltFrame sc reason) (Settles instruction r s) (fun _ _ => True) u := fun reason u =>
    wp_mono (wp_haltFrame sc reason) (fun _ _ ⟨h, hrev⟩ => h ▸ ⟨rfl, .inl hrev⟩) fun _ _ h => h
  cases r with
  | none =>
    simp only [settleStep, halted, drainGas, wp_bind, wp_modify, wp_get, wp_emit, wp_pure]
    exact ⟨rfl, .inl rfl⟩
  | some r =>
    cases r with
    | halt cost =>
      simp only [settleStep, halted, drainGas, wp_bind, wp_modify]
      refine wp_mono (settling_recordOp _ _ _ _ _) (fun _ u _ => ?_) fun _ _ _ => trivial
      rw [wp_bind, wp_modify]
      exact hhalt _ _
    | ok cost =>
      have hrecord : wp (recordOp sc instruction cost instruction.isCall) (fun _ u => u.evm.gas = s.evm.gas ∧
          u.evm = { s.evm with refund := u.evm.refund, gas := u.evm.gas }) (fun _ _ => True) s := by
        simp only [recordOp, wp_ite, wp_pure, wp_bind, wp_get, wp_modify, wp_emit]
        exact ⟨fun _ => ⟨trivial, trivial⟩, fun _ => ⟨trivial, trivial⟩⟩
      rw [settleStep, wp_bind]
      refine wp_mono hrecord (fun _ u hu => ?_) fun _ _ h => h
      simp only [wp_bind, wp_ite, drainGas, wp_modify, wp_attempt]
      refine ⟨fun _ => hhalt _ _, fun _ => ?_⟩
      simp only [takeGas, Evm.takeGas, wp_onEvm, wp_bind, wp_get, wp_modify, wp_ite, wp_pure, Solenoid.wp_error]
      refine ⟨fun hpaid => ?_, fun _ => ⟨fun _ _ => hhalt _ _, fun _ => trivial⟩⟩
      split
      · next hcode => exact ⟨rfl, .inr hcode⟩
      · refine ⟨⟨cost, rfl, ?_⟩, ?_⟩
        · unfold Gas.sub at hpaid ⊢
          rw [hu.1] at hpaid ⊢
          split at hpaid
          · cases hpaid
          · next hle =>
            rw [if_neg hle]
            exact ⟨not_lt.1 hle, rfl⟩
        · rw [hu.2]

/-! ## Runs do not report -/

omit [Crypto] [EventTracer T] in
theorem panicking_attempt {α : Type} (m : M T α) : Keeps (panicking (Machine T)) (attempt m) := fun _ =>
  (wp_attempt m).2 (wp_def.2 ⟨fun _ _ _ => trivial, fun _ _ _ => ⟨fun _ _ => trivial, id⟩⟩)

omit [Crypto] [EventTracer T] in
theorem panicking_warmTouch (a : Address) : Keeps (panicking (Machine T)) (warmTouch a) := fun s => by
  simp only [warmTouch, Ext.warmAddress, wp_bind, wp_onExt, wp_get, wp_set, wp_pure, wp_ite, wp_touch]
  exact ⟨fun _ => trivial, fun _ => trivial⟩

omit [Crypto] in
theorem panicking_enterFrame (sc : Scope) : Keeps (panicking (Machine T)) (enterFrame sc) :=
  Keeps.bind (.modify fun _ => trivial) fun _ => .ite (fun _ => .pure _) fun _ => panicking_warmTouch _

omit [Crypto] in
theorem panicking_frameWith {loop : Exec T} (h : ∀ sc, Keeps (panicking (Machine T)) (loop sc)) (sc : Scope) :
    Keeps (panicking (Machine T)) (frameWith loop sc) :=
  (panicking_enterFrame sc).bind fun _ => .ite
    (fun _ => Keeps.bind (.modify fun _ => trivial) fun _ => .pure _) fun _ => h sc

theorem panicking_executeStep (exec : Exec T) (sc : Scope) (instruction : Instruction) :
    Keeps (panicking (Machine T)) (executeStep exec sc instruction) :=
  (panicking_attempt _).bind fun _ => (settling_settleStep sc instruction _).mono (fun _ => trivial) id

theorem panicking_turn {exec rest : Exec T} (h : ∀ sc, Keeps (panicking (Machine T)) (rest sc)) (sc : Scope) :
    Keeps (panicking (Machine T)) (turn exec rest sc) :=
  Keeps.get.bind fun s => by
    cases currentInstruction sc s.evm with
    | none => exact (settling_finishFrame sc).mono (fun _ => trivial) id
    | some instruction =>
      refine (panicking_executeStep exec sc instruction).bind fun o => ?_
      cases o with
      | none => exact h sc
      | some ret => exact .pure ret

theorem panicking_executeLoop : ∀ (fuel : Nat) (sc : Scope), Keeps (panicking (Machine T)) (executeLoop fuel sc)
  | 0, _ => .throw fun _ _ => nofun
  | fuel + 1, sc => panicking_turn (panicking_executeLoop fuel) sc

theorem panicking_executeWithContext (fuel : Nat) (sc : Scope) :
    Keeps (panicking (Machine T)) (executeWithContext fuel sc) := panicking_frameWith (panicking_executeLoop fuel) sc

end Solenoid
