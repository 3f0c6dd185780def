/-
  Solenoid.Frames — what an instruction has to do with memory, whatever is asked of it.

  Most of one has nothing to do with the memory, its price or the program counter, so a
  relation that sees only those is kept by it (`Overlooks`). A relation that admits a write
  within the memory is kept by all that follows a growth (`Writes`), and one that admits the
  growth and its price too by every instruction that uses `expandTo` (`Grows`).
-/
import Solenoid.Memory

namespace Solenoid

open Hoare

variable {T α β : Type} {s t u : Machine T}

/-! ## What does not see the memory -/

/-- The memory, what was paid for it and the program counter are as they were. -/
structure Aside (s t : Machine T) : Prop where
  memory : t.evm.memory = s.evm.memory
  memCost : t.evm.memCost = s.evm.memCost
  pc : t.evm.pc = s.evm.pc

/-- A frame that sees nothing else. -/
structure Overlooks (F : Frame Fault (Machine T)) : Prop where
  ok : ∀ {s t}, Aside s t → F.ok s t
  err : ∀ {f s t}, Aside s t → F.err f s t

namespace Overlooks

variable {F : Frame Fault (Machine T)} (h : Overlooks F)

include h

theorem same {f : Machine T → Machine T} (hf : ∀ s, Aside s (f s)) : Keeps F (modify f : M T Unit) :=
  .modify fun s => h.ok (hf s)

theorem lifted (e : Except Fault α) : Keeps F (lift e : M T α) := fun _ =>
  (wp_lift e).2 ⟨fun _ _ => h.ok ⟨rfl, rfl, rfl⟩, fun _ _ => h.err ⟨rfl, rfl, rfl⟩⟩

theorem thrown (f : Fault) : Keeps F (throw f : M T α) := .throw fun _ => h.err ⟨rfl, rfl, rfl⟩

theorem pushed (v : Word) : Keeps F (push v : M T Unit) := fun _ =>
  (wp_push v).2 ⟨fun _ => h.ok ⟨rfl, rfl, rfl⟩, fun _ => h.err ⟨rfl, rfl, rfl⟩⟩

theorem popped : Keeps F (pop : M T Word) := fun _ =>
  wp_pop.2 ⟨fun _ _ _ => h.ok ⟨rfl, rfl, rfl⟩, fun _ => h.err ⟨rfl, rfl, rfl⟩⟩

theorem poppedUsize : Keeps F (popUsize : M T Nat) := h.popped.bind fun _ => h.lifted _

theorem onExt (m : Run Ext α) : Keeps F (Solenoid.onExt m : M T α) := fun _ =>
  (wp_onExt m).2 (wp_def.2 ⟨fun _ _ _ => h.ok ⟨rfl, rfl, rfl⟩, fun _ _ _ => h.err ⟨rfl, rfl, rfl⟩⟩)

theorem touched (τ : AccountTouch) : Keeps F (touch τ : M T Unit) := h.same fun _ => ⟨rfl, rfl, rfl⟩

theorem returned (ret : Bytes) : Keeps F (setRet ret : M T Unit) := h.same fun _ => ⟨rfl, rfl, rfl⟩

theorem emitted [EventTracer T] (depth : Nat) (reverted : Bool) (data : EventData) :
    Keeps F (emit depth reverted data : M T Unit) := h.same fun _ => ⟨rfl, rfl, rfl⟩

theorem left : Keeps F (remaining : M T Int) := fun _ => wp_remaining.2 (h.ok ⟨rfl, rfl, rfl⟩)

theorem takeGas (cost : Int) : Keeps F (Solenoid.takeGas cost : M T Unit) := fun s => by
  simp only [Solenoid.takeGas, Evm.takeGas, wp_onEvm, wp_bind, wp_get, wp_modify, wp_ite, wp_pure, Solenoid.wp_error]
  exact ⟨fun _ => h.ok ⟨rfl, rfl, rfl⟩, fun _ => h.err ⟨rfl, rfl, rfl⟩⟩

theorem spend (gas : Int) : Keeps F (Solenoid.spend gas : M T Unit) := h.same fun _ => ⟨rfl, rfl, rfl⟩

theorem readMemory (start till : Nat) : Keeps F (Solenoid.readMemory start till : M T Bytes) :=
  Keeps.get.bind fun _ => h.lifted _

theorem warmTouch (a : Address) : Keeps F (Solenoid.warmTouch a : M T Unit) :=
  (h.onExt _).bind fun _ => .ite (fun _ => h.touched _) fun _ => .pure _

theorem addressAccessCost (a : Address) : Keeps F (Solenoid.addressAccessCost a : M T Int) := by
  refine .ite (fun _ => .pure _) fun _ => ?_
  refine (h.onExt _).bind fun _ => ?_
  refine .ite (fun _ => ?_) fun _ => .pure _
  refine (h.touched _).bind fun _ => ?_
  exact .pure _

theorem popValue (sc : Scope) : Keeps F (Solenoid.popValue sc : M T Word) := .ite (fun _ => h.popped) fun _ => .pure _

theorem callArgs (sc : Scope) : Keeps F (Solenoid.callArgs sc : M T CallArgs) := by
  refine h.popped.bind fun _ => ?_
  refine h.popped.bind fun _ => ?_
  refine (h.popValue sc).bind fun _ => ?_
  refine h.poppedUsize.bind fun _ => ?_
  refine h.poppedUsize.bind fun _ => ?_
  refine h.poppedUsize.bind fun _ => ?_
  refine h.poppedUsize.bind fun _ => ?_
  exact .pure _

theorem callData (a : CallArgs) : Keeps F (Solenoid.callData a : M T Bytes) :=
  .ite (fun _ => h.readMemory _ _) fun _ => .pure _

theorem popSalt (isCreate2 : Bool) : Keeps F (Solenoid.popSalt isCreate2 : M T Word) :=
  .ite (fun _ => h.popped) fun _ => .pure _

theorem openAccount (created : Address) : Keeps F (Solenoid.openAccount created : M T Unit) := by
  refine Keeps.bind (h.same fun _ => ⟨rfl, rfl, rfl⟩) fun _ => ?_
  refine (h.warmTouch _).bind fun _ => ?_
  exact h.same fun _ => ⟨rfl, rfl, rfl⟩

theorem runInner (exec : Exec T) (inner : Inner T) : Keeps F (Solenoid.runInner exec inner) := fun _ =>
  wp_runInner.2 (wp_def.2 ⟨fun _ _ _ => h.ok ⟨rfl, rfl, rfl⟩, fun _ _ _ => h.err ⟨rfl, rfl, rfl⟩⟩)

section

variable [EventTracer T]

theorem emitCall (depth : Nat) (instruction : Instruction) (cost : Int) :
    Keeps F (Solenoid.emitCall depth instruction cost : M T Unit) := Keeps.get.bind fun _ => h.emitted _ _ _

theorem callOutOfGas (sc : Scope) (instruction : Instruction) : Keeps F (Solenoid.callOutOfGas sc instruction : M T α) := by
  refine Keeps.get.bind fun _ => ?_
  refine (h.emitted _ _ _).bind fun _ => ?_
  refine Keeps.bind (h.same fun _ => ⟨rfl, rfl, rfl⟩) fun _ => ?_
  refine (h.pushed _).bind fun _ => ?_
  exact h.thrown _

theorem joinTracer (out : Output T) : Keeps F (Solenoid.joinTracer out : M T Unit) := h.same fun _ => ⟨rfl, rfl, rfl⟩

theorem moveValue (depth : Nat) (src dst : Address) (srcBalance dstBalance value : Word) :
    Keeps F (Solenoid.moveValue depth src dst srcBalance dstBalance value : M T Unit) := by
  refine (h.lifted _).bind fun _ => ?_
  refine (h.onExt _).bind fun _ => ?_
  refine (h.touched _).bind fun _ => ?_
  refine (h.emitted _ _ _).bind fun _ => ?_
  refine (h.lifted _).bind fun _ => ?_
  refine (h.onExt _).bind fun _ => ?_
  refine (h.touched _).bind fun _ => ?_
  exact h.emitted _ _ _

omit [EventTracer T] in
theorem dropFrame (inner : Evm) : Keeps F (Solenoid.dropFrame inner : M T Unit) :=
  (h.pushed _).bind fun _ => (h.onExt _).bind fun _ => h.same fun _ => ⟨rfl, rfl, rfl⟩

omit [EventTracer T] in
theorem mergeReverted (out : Output T) : Keeps F (Solenoid.mergeReverted out : M T Unit) :=
  Keeps.bind (h.same fun _ => ⟨rfl, rfl, rfl⟩) fun _ => (h.returned _).bind fun _ => h.dropFrame _

omit [EventTracer T] in
theorem mergeKept (out : Output T) : Keeps F (Solenoid.mergeKept out : M T Unit) := h.same fun _ => ⟨rfl, rfl, rfl⟩

theorem createEnter (sc : Scope) (code : Bytes) (base : Int) (created : Address) (value : Word) :
    Keeps F (Solenoid.createEnter sc code base created value : M T (Opened T)) := by
  refine h.left.bind fun _ => ?_
  refine .ite (fun _ => h.thrown _) fun _ => ?_
  refine Keeps.bind (Keeps.get.bind fun _ => .pure _) fun _ => ?_
  exact .pure _

/-! ### The loop around an instruction -/

theorem recordOp (sc : Scope) (instruction : Instruction) (cost : Int) (recorded : Bool) :
    Keeps F (Solenoid.recordOp sc instruction cost recorded : M T Unit) := by
  refine .ite (fun _ => .pure _) fun _ => ?_
  refine Keeps.get.bind fun _ => ?_
  exact Keeps.bind (h.same fun _ => ⟨rfl, rfl, rfl⟩) fun _ => h.emitted _ _ _

omit [EventTracer T] in
theorem halted : Keeps F (Solenoid.halted : M T Unit) := h.same fun _ => ⟨rfl, rfl, rfl⟩

omit [EventTracer T] in
theorem drainGas : Keeps F (Solenoid.drainGas : M T Unit) := h.same fun _ => ⟨rfl, rfl, rfl⟩

theorem haltFrame (sc : Scope) (reason : HaltReason) : Keeps F (Solenoid.haltFrame sc reason : M T (Option Bytes)) :=
  h.halted.bind fun _ => (h.emitted _ _ _).bind fun _ => .pure _

omit [EventTracer T] in
theorem attemptedGas (cost : Int) : Keeps F (attempt (Solenoid.takeGas cost) : M T (Option Unit)) := fun s => by
  simp only [wp_attempt, Solenoid.takeGas, Evm.takeGas, wp_onEvm, wp_bind, wp_get, wp_modify, wp_ite, wp_pure,
    Solenoid.wp_error]
  exact ⟨fun _ => h.ok ⟨rfl, rfl, rfl⟩, fun _ => ⟨fun _ _ => h.ok ⟨rfl, rfl, rfl⟩, fun _ => h.err ⟨rfl, rfl, rfl⟩⟩⟩

theorem settleStep (sc : Scope) (instruction : Instruction) (r : Option StepResult) :
    Keeps F (Solenoid.settleStep sc instruction r : M T (Option Bytes)) := by
  cases r with
  | none =>
    refine h.halted.bind fun _ => ?_
    refine Keeps.get.bind fun _ => ?_
    refine (h.emitted _ _ _).bind fun _ => ?_
    refine h.drainGas.bind fun _ => ?_
    exact .pure _
  | some r =>
    cases r with
    | halt cost =>
      refine h.halted.bind fun _ => ?_
      refine (h.recordOp _ _ _ _).bind fun _ => ?_
      refine h.drainGas.bind fun _ => ?_
      exact h.haltFrame _ _
    | ok cost =>
      refine (h.recordOp _ _ _ _).bind fun _ => ?_
      refine .ite (fun _ => h.drainGas.bind fun _ => h.haltFrame _ _) fun _ => ?_
      refine (h.attemptedGas cost).bind fun charged => ?_
      cases charged with
      | none => exact h.haltFrame _ _
      | some _ => exact .pure _

theorem enterFrame (sc : Scope) : Keeps F (Solenoid.enterFrame sc : M T Unit) :=
  (h.emitted _ _ _).bind fun _ => .ite (fun _ => .pure _) fun _ => h.warmTouch _

end

section

variable [Crypto]

theorem touchCode (a : Address) : Keeps F (Solenoid.touchCode a : M T (Bytes × Word)) :=
  (h.onExt _).bind fun _ => (h.touched _).bind fun _ => .pure _

theorem callCreateCost (a : CallArgs) : Keeps F (Solenoid.callCreateCost a : M T Int) :=
  .ite (fun _ => .pure _) fun _ => (h.onExt _).bind fun _ => .pure _

theorem callTarget (a : Address) : Keeps F (Solenoid.callTarget a : M T Target) := by
  refine (h.touchCode _).bind fun code => ?_
  refine (h.addressAccessCost _).bind fun _ => ?_
  cases delegation code.1 with
  | none => exact .pure _
  | some _ => exact (h.touchCode _).bind fun _ => (h.addressAccessCost _).bind fun _ => .pure _

theorem runPrecompile (a : Address) (data : Bytes) : Keeps F (Solenoid.runPrecompile a data : M T Word) := by
  unfold Solenoid.runPrecompile
  split
  · exact (h.returned _).bind fun _ => .pure _
  · exact .pure _
  · exact h.thrown _

variable [EventTracer T] (sc : Scope)

theorem callTransfer (a : CallArgs) : Keeps F (Solenoid.callTransfer sc a : M T Unit) := by
  refine (h.onExt _).bind fun _ => ?_
  refine (h.onExt _).bind fun _ => ?_
  exact .ite (fun _ => h.moveValue _ _ _ _ _ _) fun _ => .pure _

theorem bumpNonce (depth : Nat) (this : Address) : Keeps F (Solenoid.bumpNonce depth this : M T Word) := by
  refine (h.onExt _).bind fun _ => ?_
  refine (h.lifted _).bind fun _ => ?_
  refine (h.onExt _).bind fun _ => ?_
  refine (h.lifted _).bind fun _ => ?_
  refine (h.lifted _).bind fun _ => ?_
  refine (h.touched _).bind fun _ => ?_
  refine (h.emitted _ _ _).bind fun _ => ?_
  exact .pure _

theorem deploy (created : Address) (value : Word) (code : Bytes) :
    Keeps F (Solenoid.deploy sc created value code : M T Unit) := by
  refine (h.onExt _).bind fun _ => ?_
  refine (h.onExt _).bind fun _ => ?_
  refine Keeps.bind ((h.onExt _).bind fun _ => (h.onExt _).bind fun _ =>
    .ite (fun _ => h.moveValue _ _ _ _ _ _) fun _ => .pure _) fun _ => ?_
  refine (h.touched _).bind fun _ => ?_
  exact h.emitted _ _ _

theorem createClose (instruction : Instruction) (baseCost forwarded : Int) (created : Address) (value : Word)
    (out : Output T) : Keeps F (Solenoid.createClose sc instruction baseCost forwarded created value out : M T Unit) := by
  refine (h.emitCall _ _ _).bind fun _ => ?_
  refine (h.joinTracer _).bind fun _ => ?_
  refine .ite (fun _ => ?_) fun _ => ?_
  · refine (h.spend _).bind fun _ => ?_
    exact h.dropFrame _
  · refine (h.spend _).bind fun _ => ?_
    refine .ite (fun _ => h.dropFrame _) fun _ => ?_
    refine (h.deploy sc _ _ _).bind fun _ => ?_
    refine (h.mergeKept _).bind fun _ => ?_
    exact h.pushed _

end

end Overlooks

/-! ## What writes and grows it -/

/-- A frame that admits a write within the memory too. -/
structure Writes (F : Frame Fault (Machine T)) : Prop extends Overlooks F where
  written : ∀ start data, Keeps F (writeMemory start data : M T Unit)

namespace Writes

variable [EventTracer T] {F : Frame Fault (Machine T)} (h : Writes F) (sc : Scope)

include h

omit [EventTracer T] in
theorem copyBack (retOffset : Nat) (copied : Bytes) : Keeps F (Solenoid.copyBack retOffset copied : M T Unit) :=
  .ite (fun _ => h.written _ _) fun _ => .pure _

theorem callClose (instruction : Instruction) (retOffset retSize : Nat) (stipend traceCost : Int) (out : Output T) :
    Keeps F (Solenoid.callClose sc instruction retOffset retSize stipend traceCost out : M T Unit) := by
  refine (h.emitCall _ _ _).bind fun _ => ?_
  refine (h.joinTracer _).bind fun _ => ?_
  refine (h.copyBack _ _).bind fun _ => ?_
  refine (h.spend _).bind fun _ => ?_
  refine .ite (fun _ => h.mergeReverted _) fun _ => ?_
  refine (h.mergeKept _).bind fun _ => ?_
  refine (h.returned _).bind fun _ => ?_
  exact h.pushed _

variable [Crypto]

theorem callPrecompile (instruction : Instruction) (a : CallArgs) (data : Bytes) (traceCost : Int) :
    Keeps F (Solenoid.callPrecompile sc instruction a data traceCost : M T Unit) := by
  refine (h.runPrecompile _ _).bind fun _ => ?_
  refine (h.emitCall _ _ _).bind fun _ => ?_
  refine (h.readMemory _ _).bind fun _ => ?_
  refine Keeps.get.bind fun _ => ?_
  refine (h.written _ _).bind fun _ => ?_
  refine (h.pushed _).bind fun _ => ?_
  exact h.takeGas _

theorem callEnter (instruction : Instruction) (a : CallArgs) (target : Target) (gas : CallGas) :
    Keeps F (Solenoid.callEnter sc instruction a target gas : M T (Opened T)) := by
  refine (h.callData _).bind fun _ => ?_
  refine .ite (fun _ => ?_) fun _ => ?_
  · refine (h.callPrecompile sc _ _ _ _).bind fun _ => ?_
    exact .pure _
  · refine (h.callTransfer sc _).bind fun _ => ?_
    refine (h.emitted _ _ _).bind fun _ => ?_
    refine Keeps.bind (Keeps.get.bind fun _ => .pure _) fun _ => ?_
    exact .pure _

/-- A call but for its operands and its memory. -/
theorem callReach (instruction : Instruction) (a : CallArgs) (expansion : Int) : Keeps F (do
    let createCost ← Solenoid.callCreateCost a
    let target ← Solenoid.callTarget a.address
    let left ← remaining
    let gas := callGas sc a (target.accessCost + expansion + createCost) left
    if left < gas.base then Solenoid.callOutOfGas sc instruction else Solenoid.callEnter sc instruction a target gas) :=
  (h.callCreateCost _).bind fun _ => (h.callTarget _).bind fun _ => h.left.bind fun _ =>
    .ite (fun _ => h.callOutOfGas sc _) fun _ => h.callEnter sc _ _ _ _

theorem closeFrame (instruction : Instruction) (pending : Pending) (out : Output T) :
    Keeps F (Solenoid.closeFrame sc instruction pending out : M T Int) := by
  cases pending with
  | call => exact (h.callClose _ _ _ _ _ _ _).bind fun _ => .pure _
  | create => exact (h.createClose _ _ _ _ _ _ _).bind fun _ => .pure _

/-- What follows the opening of a frame. -/
theorem afterOpen (exec : Exec T) (instruction : Instruction) (o : Opened T) : Keeps F (match o with
    | .done gas => return gas
    | .frame inner pending => do
      Solenoid.closeFrame sc instruction pending (← Solenoid.runInner exec inner)) := by
  cases o with
  | done gas => exact .pure gas
  | frame inner pending => exact (h.runInner exec inner).bind fun _ => h.closeFrame sc _ _ _

end Writes

/-- A frame that admits the instructions' own uses of the memory. -/
structure Grows (F : Frame Fault (Machine T)) : Prop extends Writes F where
  expanded : ∀ till, Keeps F (expandTo till : M T Unit)
  paid : ∀ s memCost, F.ok s { s with evm.memCost := memCost }

namespace Grows

variable {F : Frame Fault (Machine T)} (h : Grows F)

include h

theorem priced : Keeps F (memoryExpansionCost : M T Int) := fun s => by
  simp only [memoryExpansionCost, Evm.memoryExpansionCost, wp_onEvm, wp_bind, wp_get, wp_lift, wp_set, wp_pure]
  exact ⟨fun _ _ => h.paid s _, fun _ _ => h.err ⟨rfl, rfl, rfl⟩⟩

theorem callMemory (a : CallArgs) : Keeps F (Solenoid.callMemory a : M T Int) :=
  (h.lifted _).bind fun _ => (h.lifted _).bind fun _ => (h.expanded _).bind fun _ => h.priced

theorem initCode (offset size : Nat) : Keeps F (Solenoid.initCode offset size : M T (Bytes × Int)) := by
  refine (h.lifted _).bind fun _ => ?_
  refine (h.expanded _).bind fun _ => ?_
  refine h.priced.bind fun _ => ?_
  refine (h.readMemory _ _).bind fun _ => ?_
  exact .pure _

theorem expandAt (offset : Nat) : Keeps F (Solenoid.expandAt offset : M T Unit) :=
  Keeps.get.bind fun _ => .ite (fun _ => (h.lifted _).bind fun _ => h.expanded _) fun _ => .pure _

theorem copyIn (source : Bytes) (destOffset offset size : Nat) :
    Keeps F (Solenoid.copyIn source destOffset offset size : M T Unit) := by
  refine (h.lifted _).bind fun _ => ?_
  refine (h.expanded _).bind fun _ => ?_
  refine ((h.lifted _).bind fun _ => .ite (fun _ => h.thrown _) fun _ => .pure _).bind fun _ => ?_
  exact h.written _ _

theorem setOutput (offset size : Nat) : Keeps F (Solenoid.setOutput offset size : M T Unit) := by
  refine .ite (fun _ => ?_) fun _ => h.returned _
  refine (h.lifted _).bind fun _ => ?_
  refine (h.expanded _).bind fun _ => ?_
  refine (h.readMemory _ _).bind fun _ => ?_
  exact h.returned _

section Calls

variable [Crypto] [EventTracer T] (sc : Scope)

theorem callOpen (instruction : Instruction) : Keeps F (Solenoid.callOpen sc instruction : M T (Opened T)) := by
  refine (h.callArgs sc).bind fun a => ?_
  refine (h.callMemory a).bind fun expansion => ?_
  exact h.callReach sc instruction a expansion

theorem createOpen : Keeps F (Solenoid.createOpen sc : M T (Opened T)) := by
  refine h.popped.bind fun _ => ?_
  refine h.poppedUsize.bind fun _ => ?_
  refine h.poppedUsize.bind fun _ => ?_
  refine (h.popSalt _).bind fun _ => ?_
  refine (h.initCode _ _).bind fun _ => ?_
  refine (h.bumpNonce _ _).bind fun _ => ?_
  refine (h.openAccount _).bind fun _ => ?_
  exact h.createEnter sc _ _ _ _

theorem callFrame (exec : Exec T) (instruction : Instruction) :
    Keeps F (Solenoid.callFrame exec sc instruction : M T Int) := by
  refine Keeps.bind ?_ fun o => h.afterOpen sc exec instruction o
  unfold Solenoid.openFrame
  split
  · exact h.createOpen _
  · exact h.createOpen _
  · exact h.callOpen _ _

end Calls

section Ops

variable (hnext : ∀ gas : Int, Keeps F (next gas : M T StepResult))

include hnext

theorem opMload : Keeps F (Solenoid.opMload : M T StepResult) := by
  refine h.poppedUsize.bind fun _ => ?_
  refine (h.lifted _).bind fun _ => ?_
  refine (h.expanded _).bind fun _ => ?_
  refine h.priced.bind fun _ => ?_
  apply keeps_charged_of
  refine (h.readMemory _ _).bind fun _ => ?_
  refine (h.pushed _).bind fun _ => ?_
  exact hnext _

theorem opMstore : Keeps F (Solenoid.opMstore : M T StepResult) := by
  refine h.poppedUsize.bind fun _ => ?_
  refine h.popped.bind fun _ => ?_
  refine (h.lifted _).bind fun _ => ?_
  refine (h.expanded _).bind fun _ => ?_
  refine h.priced.bind fun _ => ?_
  apply keeps_charged_of
  refine (h.written _ _).bind fun _ => ?_
  exact hnext _

theorem opMstore8 : Keeps F (Solenoid.opMstore8 : M T StepResult) := by
  refine h.poppedUsize.bind fun _ => ?_
  refine h.popped.bind fun _ => ?_
  refine (h.expandAt _).bind fun _ => ?_
  refine h.priced.bind fun _ => ?_
  apply keeps_charged_of
  refine (h.written _ _).bind fun _ => ?_
  exact hnext _

theorem opMcopy (hgrow : ∀ destTill till, Keeps F (mcopyGrow destTill till : M T Unit)) :
    Keeps F (Solenoid.opMcopy : M T StepResult) := by
  refine h.poppedUsize.bind fun _ => ?_
  refine h.poppedUsize.bind fun _ => ?_
  refine h.poppedUsize.bind fun _ => ?_
  apply keeps_charged_of
  refine .ite (fun _ => hnext _) fun _ => ?_
  refine (h.lifted _).bind fun _ => ?_
  refine (h.lifted _).bind fun _ => ?_
  refine (hgrow _ _).bind fun _ => ?_
  refine (h.readMemory _ _).bind fun _ => ?_
  refine h.priced.bind fun _ => ?_
  apply keeps_charged_of
  refine (h.written _ _).bind fun _ => ?_
  exact hnext _

theorem opCalldatacopy (sc : Scope) : Keeps F (Solenoid.opCalldatacopy sc : M T StepResult) := by
  refine h.poppedUsize.bind fun _ => ?_
  refine h.poppedUsize.bind fun _ => ?_
  refine h.popped.bind fun _ => ?_
  refine .ite (fun _ => ?_) fun _ => ?_
  · refine (h.copyIn _ _ _ _).bind fun _ => ?_
    refine h.priced.bind fun _ => ?_
    exact hnext _
  · refine h.priced.bind fun _ => ?_
    exact hnext _

theorem opCodecopy (sc : Scope) : Keeps F (Solenoid.opCodecopy sc : M T StepResult) := by
  refine h.poppedUsize.bind fun _ => ?_
  refine h.poppedUsize.bind fun _ => ?_
  refine h.poppedUsize.bind fun _ => ?_
  refine (h.copyIn _ _ _ _).bind fun _ => ?_
  refine h.priced.bind fun _ => ?_
  exact hnext _

theorem opReturndatacopy : Keeps F (Solenoid.opReturndatacopy : M T StepResult) := by
  refine h.poppedUsize.bind fun _ => ?_
  refine h.poppedUsize.bind fun _ => ?_
  refine h.poppedUsize.bind fun _ => ?_
  refine (h.lifted _).bind fun _ => ?_
  refine (h.expanded _).bind fun _ => ?_
  refine Keeps.get.bind fun _ => ?_
  refine (h.written _ _).bind fun _ => ?_
  refine h.priced.bind fun _ => ?_
  exact hnext _

theorem opExtcodecopy [Crypto] : Keeps F (Solenoid.opExtcodecopy : M T StepResult) := by
  refine h.popped.bind fun _ => ?_
  refine h.poppedUsize.bind fun _ => ?_
  refine h.poppedUsize.bind fun _ => ?_
  refine h.poppedUsize.bind fun _ => ?_
  refine (h.touchCode _).bind fun _ => ?_
  refine (h.copyIn _ _ _ _).bind fun _ => ?_
  refine h.priced.bind fun _ => ?_
  refine (h.addressAccessCost _).bind fun _ => ?_
  exact hnext _

theorem opReturn [EventTracer T] (sc : Scope) (reverted : Bool) :
    Keeps F (Solenoid.opReturn sc reverted : M T StepResult) := by
  refine Keeps.bind (h.same fun _ => ⟨rfl, rfl, rfl⟩) fun _ => ?_
  refine h.poppedUsize.bind fun _ => ?_
  refine h.poppedUsize.bind fun _ => ?_
  refine (h.setOutput _ _).bind fun _ => ?_
  refine h.priced.bind fun _ => ?_
  refine (Keeps.get.bind fun _ => h.emitted _ _ _).bind fun _ => ?_
  exact hnext _

/-- An error of the frame is a halt of its caller. -/
theorem opCall [Crypto] [EventTracer T] (hfail : ∀ {f s t}, F.err f s t → F.ok s t) (exec : Exec T) (sc : Scope)
    (instruction : Instruction) : Keeps F (Solenoid.opCall exec sc instruction : M T StepResult) := fun s =>
  wp_opCall_of (fun _ _ => h.err ⟨rfl, rfl, rfl⟩) fun _ =>
    wp_mono (h.callFrame sc exec instruction s) (fun gas t ht => F.trans ht ((wp_next gas).1 (hnext gas t)))
      fun _ _ hf => ⟨hf, fun _ _ => hfail hf⟩

end Ops

end Grows

end Solenoid
