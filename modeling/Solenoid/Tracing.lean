/-
  Solenoid.Tracing — what the parts of a run do to the trace.

  A tracer is touched by `emit` and by `joinTracer` alone. So a frame of states that sees
  nothing but the tracer, and admits what one frame emits (`Listens`), is kept by every
  instruction that opens no frame, and by the two parts of those that do, around the join.
-/
import Solenoid.Phases
import Solenoid.Turns

namespace Solenoid

open Hoare

/-- Events other than those of an instruction and of a balance. -/
def EventData.isNote : EventData → Bool
  | .opCode _ | .account (.setValue ..) => false
  | _ => true

variable {T : Type} {α β : Type} [EventTracer T]

/-- Neither the tracer nor the gas changes, nor how the frame stands. -/
structure Silent (s t : Machine T) : Prop where
  tracer : t.exe.tracer = s.exe.tracer
  limit : t.evm.gas.limit = s.evm.gas.limit
  used : t.evm.gas.used = s.evm.gas.used
  reverted : t.evm.reverted = s.evm.reverted
  stopped : t.evm.stopped = s.evm.stopped

/-- The tracer does not change, nor the gas unless all of it is gone. -/
structure Broken (s t : Machine T) : Prop where
  tracer : t.exe.tracer = s.exe.tracer
  limit : t.evm.gas.limit = s.evm.gas.limit
  used : t.evm.gas.used = s.evm.gas.used ∨ t.evm.gas.used = t.evm.gas.limit

omit [EventTracer T] in
theorem Broken.refl (s : Machine T) : Broken s s := ⟨rfl, rfl, .inl rfl⟩

theorem halt_used (e : Evm) : e.halt.gas.used = e.halt.gas.limit := by
  show e.gas.used + (e.gas.limit - e.gas.used) = e.gas.limit
  omega

omit [EventTracer T] in
theorem broken_halt (s : Machine T) : Broken s { s with evm := s.evm.halt } := ⟨rfl, rfl, .inr (halt_used s.evm)⟩

/-- A frame that sees no more than the tracer and the gas, and admits the notes of one depth. -/
structure Listens (F : Frame Fault (Machine T)) (depth : Nat) : Prop where
  ok : ∀ {s t : Machine T}, Silent s t → F.ok s t
  err : ∀ {f} {s t : Machine T}, Broken s t → F.err f s t
  note : ∀ {data : EventData}, data.isNote = true → Keeps F (emit depth false data)
  /-- The one event whose flag is that of the frame so far. -/
  said : Keeps F (emitReturn depth : M T Unit)

namespace Listens

variable {F : Frame Fault (Machine T)} {sc : Scope} (h : Listens F sc.ctx.depth)

/-! ## Primitives -/

include h

theorem same {f : Machine T → Machine T} (hf : ∀ s, Silent s (f s)) : Keeps F (modify f : M T Unit) :=
  .modify fun s => h.ok (hf s)

theorem onExt (m : Run Ext α) : Keeps F (Solenoid.onExt m : M T α) := fun _ =>
  (wp_onExt m).2 (wp_def.2 ⟨fun _ _ _ => h.ok ⟨rfl, rfl, rfl, rfl, rfl⟩, fun _ _ _ => h.err ⟨rfl, rfl, .inl rfl⟩⟩)

theorem halted (r : Report) : Keeps F (onEvm (Evm.error r) : M T α) := fun s =>
  (wp_onEvm _).2 ((wp_error r).2 (h.err (broken_halt s)))

theorem orError (m : Run Ext α) : Keeps F (Solenoid.orError m : M T α) := fun s => by
  unfold Solenoid.orError
  refine wp_def.2 ?_
  cases hm : m s.ext with
  | ok a e =>
    refine ⟨fun _ _ ht => ?_, fun _ _ ht => (by cases ht)⟩
    cases ht
    exact h.ok ⟨rfl, rfl, rfl, rfl, rfl⟩
  | error r e =>
    refine ⟨fun _ _ ht => (by cases r <;> cases ht), fun f t ht => ?_⟩
    cases r with
    | report r =>
      cases ht
      exact h.err ⟨rfl, rfl, .inr (halt_used s.evm)⟩
    | panic why =>
      cases ht
      exact h.err ⟨rfl, rfl, .inl rfl⟩
    | fuel =>
      cases ht
      exact h.err ⟨rfl, rfl, .inl rfl⟩

theorem lifted (e : Except Fault α) : Keeps F (lift e : M T α) := fun s =>
  (wp_lift e).2 ⟨fun _ _ => F.refl s, fun _ _ => h.err (.refl s)⟩

theorem refused (r : Report) : Keeps F (refuse r : M T α) := .throw fun s => h.err (.refl s)

theorem pushed (v : Word) : Keeps F (push v : M T Unit) := fun s =>
  (wp_push v).2 ⟨fun _ => h.ok ⟨rfl, rfl, rfl, rfl, rfl⟩, fun _ => h.err (broken_halt s)⟩

theorem popped : Keeps F (pop : M T Word) := fun s =>
  wp_pop.2 ⟨fun _ _ _ => h.ok ⟨rfl, rfl, rfl, rfl, rfl⟩, fun _ => h.err (broken_halt s)⟩

theorem peeked : Keeps F (onEvm Evm.peek1 : M T Word) := fun s => by
  simp only [Evm.peek1, wp_onEvm, wp_bind, wp_get]
  split
  · exact (wp_pure _).2 (F.refl s)
  · exact (wp_error _).2 (h.err (broken_halt s))

theorem peekedTwo : Keeps F (onEvm Evm.peek2 : M T (Word × Word)) := fun s => by
  simp only [Evm.peek2, wp_onEvm, wp_bind, wp_get]
  split
  · exact (wp_pure _).2 (F.refl s)
  · exact (wp_error _).2 (h.err (broken_halt s))

theorem expansionCost : Keeps F (memoryExpansionCost : M T Int) := fun s => by
  simp only [memoryExpansionCost, Evm.memoryExpansionCost, wp_onEvm, wp_bind, wp_get, wp_lift, wp_set, wp_pure]
  exact ⟨fun _ _ => h.ok ⟨rfl, rfl, rfl, rfl, rfl⟩, fun _ _ => h.err (.refl s)⟩

theorem poppedUsize : Keeps F (popUsize : M T Nat) := h.popped.bind fun _ => h.lifted _

theorem next (gas : Int) : Keeps F (Solenoid.next gas : M T StepResult) :=
  Keeps.bind (h.same fun _ => ⟨rfl, rfl, rfl, rfl, rfl⟩) fun _ => .pure _

theorem touched (τ : AccountTouch) : Keeps F (touch τ : M T Unit) := h.same fun _ => ⟨rfl, rfl, rfl, rfl, rfl⟩

theorem returned (ret : Bytes) : Keeps F (setRet ret : M T Unit) := h.same fun _ => ⟨rfl, rfl, rfl, rfl, rfl⟩

theorem warmTouch (a : Address) : Keeps F (Solenoid.warmTouch a : M T Unit) :=
  (h.onExt _).bind fun _ => .ite (fun _ => h.touched _) fun _ => .pure _

theorem touchCode [Crypto] (a : Address) : Keeps F (Solenoid.touchCode a : M T (Bytes × Word)) :=
  (h.onExt _).bind fun _ => (h.touched _).bind fun _ => .pure _

theorem addressAccessCost (a : Address) : Keeps F (Solenoid.addressAccessCost a : M T Int) := by
  refine .ite (fun _ => .pure _) fun _ => ?_
  refine (h.onExt _).bind fun _ => ?_
  refine .ite (fun _ => ?_) fun _ => .pure _
  refine (h.touched _).bind fun _ => ?_
  exact .pure _

theorem growTo (till : Nat) : Keeps F (Solenoid.growTo till : M T Unit) :=
  Keeps.get.bind fun _ => (h.lifted _).bind fun _ => h.same fun _ => ⟨rfl, rfl, rfl, rfl, rfl⟩

theorem expandTo (till : Nat) : Keeps F (Solenoid.expandTo till : M T Unit) :=
  Keeps.get.bind fun _ => .ite (fun _ => .ite (fun _ => h.refused _) fun _ => h.growTo _) fun _ => .pure _

theorem readMemory (start till : Nat) : Keeps F (Solenoid.readMemory start till : M T Bytes) :=
  Keeps.get.bind fun _ => h.lifted _

theorem writeMemory (start : Nat) (data : Bytes) : Keeps F (Solenoid.writeMemory start data : M T Unit) :=
  Keeps.get.bind fun _ => (h.lifted _).bind fun _ => h.same fun _ => ⟨rfl, rfl, rfl, rfl, rfl⟩

/-! ## Instructions -/

theorem pushing (gas : Int) (value : Machine T → Except Fault Word) : Keeps F (Solenoid.pushing gas value) := by
  apply keeps_charged_of
  refine Keeps.get.bind fun _ => ?_
  refine (h.lifted _).bind fun _ => ?_
  refine (h.pushed _).bind fun _ => ?_
  exact h.next _

theorem unary (gas : Int) (f : Word → Word) : Keeps F (Solenoid.unary gas f : M T StepResult) :=
  keeps_charged_of <| h.popped.bind fun _ => (h.pushed _).bind fun _ => h.next _

theorem binary (gas : Int) (conv : Word → Except Fault α) (f : α → Word → Except Fault Word) :
    Keeps F (Solenoid.binary gas conv f : M T StepResult) := by
  apply keeps_charged_of
  refine h.popped.bind fun _ => ?_
  refine (h.lifted _).bind fun _ => ?_
  refine h.popped.bind fun _ => ?_
  refine (h.lifted _).bind fun _ => ?_
  refine (h.pushed _).bind fun _ => ?_
  exact h.next _

theorem ternary (gas : Int) (f : Word → Word → Word → Except Fault Word) :
    Keeps F (Solenoid.ternary gas f : M T StepResult) := by
  apply keeps_charged_of
  refine h.popped.bind fun _ => ?_
  refine h.popped.bind fun _ => ?_
  refine h.popped.bind fun _ => ?_
  refine (h.lifted _).bind fun _ => ?_
  refine (h.pushed _).bind fun _ => ?_
  exact h.next _

theorem opExp : Keeps F (Solenoid.opExp : M T StepResult) := by
  refine h.popped.bind fun _ => ?_
  refine h.popped.bind fun _ => ?_
  apply keeps_charged_of
  refine (h.pushed _).bind fun _ => ?_
  exact h.next _

theorem opPop : Keeps F (Solenoid.opPop : M T StepResult) := keeps_charged_of <| h.popped.bind fun _ => h.next _

theorem opDup (instruction : Instruction) : Keeps F (Solenoid.opDup instruction : M T StepResult) := by
  apply keeps_charged_of
  refine Keeps.get.bind fun s => ?_
  cases s.evm.stack[instruction.opcode.n.toNat - 1]? with
  | none => exact h.halted _
  | some val => exact (h.pushed val).bind fun _ => h.next _

theorem opSwap (instruction : Instruction) : Keeps F (Solenoid.opSwap instruction : M T StepResult) := by
  apply keeps_charged_of
  refine Keeps.get.bind fun s => ?_
  cases swapTop instruction.opcode.n.toNat s.evm.stack with
  | none => exact h.halted _
  | some stack => exact Keeps.bind (h.same fun _ => ⟨rfl, rfl, rfl, rfl, rfl⟩) fun _ => h.next _

theorem opBlobhash : Keeps F (Solenoid.opBlobhash : M T StepResult) :=
  keeps_charged_of <| h.popped.bind fun _ => (h.pushed _).bind fun _ => h.next _

theorem opCalldataload : Keeps F (Solenoid.opCalldataload sc : M T StepResult) :=
  keeps_charged_of <| h.poppedUsize.bind fun _ => (h.pushed _).bind fun _ => h.next _

theorem opBlockhash : Keeps F (Solenoid.opBlockhash : M T StepResult) := by
  apply keeps_charged_of
  refine h.popped.bind fun _ => ?_
  refine Keeps.bind (Keeps.get.bind fun _ => .ite (fun _ => .pure _) fun _ => h.onExt _) fun _ => ?_
  refine (h.pushed _).bind fun _ => ?_
  exact h.next _

theorem jumpTo (gas : Int) (target : Option Nat) : Keeps F (Solenoid.jumpTo gas target : M T StepResult) := by
  cases target with
  | none => exact .pure _
  | some dest => exact Keeps.bind (h.same fun _ => ⟨rfl, rfl, rfl, rfl, rfl⟩) fun _ => .pure _

theorem opJump : Keeps F (Solenoid.opJump sc : M T StepResult) := by
  apply keeps_charged_of
  refine h.poppedUsize.bind fun _ => ?_
  exact h.jumpTo _ _

theorem opJumpi : Keeps F (Solenoid.opJumpi sc : M T StepResult) := by
  apply keeps_charged_of
  refine h.poppedUsize.bind fun _ => ?_
  refine h.popped.bind fun _ => ?_
  exact .ite (fun _ => h.jumpTo _ _) fun _ => h.next _

theorem opJumpdest : Keeps F (Solenoid.opJumpdest : M T StepResult) := keeps_charged_of (h.next _)

theorem copyIn (source : Bytes) (destOffset offset size : Nat) :
    Keeps F (Solenoid.copyIn source destOffset offset size : M T Unit) := by
  refine (h.lifted _).bind fun _ => ?_
  refine (h.expandTo _).bind fun _ => ?_
  refine Keeps.bind ((h.lifted _).bind fun _ => .ite (fun _ => h.refused _) fun _ => .pure _) fun _ => ?_
  exact h.writeMemory _ _

theorem opCalldatacopy : Keeps F (Solenoid.opCalldatacopy sc : M T StepResult) := by
  refine h.poppedUsize.bind fun _ => ?_
  refine h.poppedUsize.bind fun _ => ?_
  refine h.popped.bind fun _ => ?_
  refine .ite (fun _ => ?_) fun _ => ?_
  · refine (h.copyIn _ _ _ _).bind fun _ => ?_
    refine h.expansionCost.bind fun _ => ?_
    exact h.next _
  · refine h.expansionCost.bind fun _ => ?_
    exact h.next _

theorem opCodecopy : Keeps F (Solenoid.opCodecopy sc : M T StepResult) := by
  refine h.poppedUsize.bind fun _ => ?_
  refine h.poppedUsize.bind fun _ => ?_
  refine h.poppedUsize.bind fun _ => ?_
  refine (h.copyIn _ _ _ _).bind fun _ => ?_
  refine h.expansionCost.bind fun _ => ?_
  exact h.next _

theorem opReturndatacopy : Keeps F (Solenoid.opReturndatacopy : M T StepResult) := by
  refine h.poppedUsize.bind fun _ => ?_
  refine h.poppedUsize.bind fun _ => ?_
  refine h.poppedUsize.bind fun _ => ?_
  refine (h.lifted _).bind fun _ => ?_
  refine (h.expandTo _).bind fun _ => ?_
  refine Keeps.get.bind fun _ => ?_
  refine (h.writeMemory _ _).bind fun _ => ?_
  refine h.expansionCost.bind fun _ => ?_
  exact h.next _

theorem opMload : Keeps F (Solenoid.opMload : M T StepResult) := by
  refine h.poppedUsize.bind fun _ => ?_
  refine (h.lifted _).bind fun _ => ?_
  refine (h.expandTo _).bind fun _ => ?_
  refine h.expansionCost.bind fun _ => ?_
  apply keeps_charged_of
  refine (h.readMemory _ _).bind fun _ => ?_
  refine (h.pushed _).bind fun _ => ?_
  exact h.next _

theorem opMstore : Keeps F (Solenoid.opMstore : M T StepResult) := by
  refine h.poppedUsize.bind fun _ => ?_
  refine h.popped.bind fun _ => ?_
  refine (h.lifted _).bind fun _ => ?_
  refine (h.expandTo _).bind fun _ => ?_
  refine h.expansionCost.bind fun _ => ?_
  apply keeps_charged_of
  refine (h.writeMemory _ _).bind fun _ => ?_
  exact h.next _

theorem opMstore8 : Keeps F (Solenoid.opMstore8 : M T StepResult) := by
  refine h.poppedUsize.bind fun _ => ?_
  refine h.popped.bind fun _ => ?_
  refine Keeps.bind (Keeps.get.bind fun _ => .ite (fun _ => (h.lifted _).bind fun _ => h.expandTo _) fun _ =>
    .pure _) fun _ => ?_
  refine h.expansionCost.bind fun _ => ?_
  apply keeps_charged_of
  refine (h.writeMemory _ _).bind fun _ => ?_
  exact h.next _

theorem opMcopy : Keeps F (Solenoid.opMcopy : M T StepResult) := by
  refine h.poppedUsize.bind fun _ => ?_
  refine h.poppedUsize.bind fun _ => ?_
  refine h.poppedUsize.bind fun _ => ?_
  apply keeps_charged_of
  refine .ite (fun _ => h.next _) fun _ => ?_
  refine (h.lifted _).bind fun _ => ?_
  refine (h.lifted _).bind fun _ => ?_
  refine Keeps.bind (Keeps.get.bind fun _ => .ite (fun _ => .ite (fun _ => h.refused _) fun _ => h.growTo _) fun _ =>
    .pure _) fun _ => ?_
  refine (h.readMemory _ _).bind fun _ => ?_
  refine h.expansionCost.bind fun _ => ?_
  apply keeps_charged_of
  refine (h.writeMemory _ _).bind fun _ => ?_
  exact h.next _

theorem opBalance [Crypto] : Keeps F (Solenoid.opBalance : M T StepResult) := by
  refine h.popped.bind fun _ => ?_
  refine (h.addressAccessCost _).bind fun _ => ?_
  apply keeps_charged_of
  refine (h.onExt _).bind fun _ => ?_
  refine (h.touched _).bind fun _ => ?_
  refine (h.pushed _).bind fun _ => ?_
  exact h.next _

theorem opSelfbalance [Crypto] : Keeps F (Solenoid.opSelfbalance sc : M T StepResult) := by
  apply keeps_charged_of
  refine (h.onExt _).bind fun _ => ?_
  refine (h.touched _).bind fun _ => ?_
  refine (h.pushed _).bind fun _ => ?_
  exact h.next _

theorem opExtcodesize [Crypto] : Keeps F (Solenoid.opExtcodesize : M T StepResult) := by
  refine h.popped.bind fun _ => ?_
  refine (h.addressAccessCost _).bind fun _ => ?_
  apply keeps_charged_of
  refine (h.touchCode _).bind fun _ => ?_
  refine (h.pushed _).bind fun _ => ?_
  exact h.next _

theorem opExtcodecopy [Crypto] : Keeps F (Solenoid.opExtcodecopy : M T StepResult) := by
  refine h.popped.bind fun _ => ?_
  refine h.poppedUsize.bind fun _ => ?_
  refine h.poppedUsize.bind fun _ => ?_
  refine h.poppedUsize.bind fun _ => ?_
  refine (h.touchCode _).bind fun _ => ?_
  refine (h.copyIn _ _ _ _).bind fun _ => ?_
  refine h.expansionCost.bind fun _ => ?_
  refine (h.addressAccessCost _).bind fun _ => ?_
  exact h.next _

theorem opExtcodehash [Crypto] : Keeps F (Solenoid.opExtcodehash : M T StepResult) := by
  refine h.popped.bind fun _ => ?_
  refine (h.addressAccessCost _).bind fun _ => ?_
  apply keeps_charged_of
  refine (h.touchCode _).bind fun _ => ?_
  refine (h.onExt _).bind fun _ => ?_
  refine (h.pushed _).bind fun _ => ?_
  exact h.next _

theorem warmSlot (key : Word) : Keeps F (Solenoid.warmSlot sc key : M T Bool) :=
  Keeps.get.bind fun _ => .ite (fun _ => .pure _) fun _ => (h.onExt _).bind fun _ => .pure _

theorem opTload : Keeps F (Solenoid.opTload sc : M T StepResult) := by
  apply keeps_charged_of
  refine h.popped.bind fun _ => ?_
  refine Keeps.get.bind fun _ => ?_
  refine (h.pushed _).bind fun _ => ?_
  exact h.next _

theorem opTstore : Keeps F (Solenoid.opTstore sc : M T StepResult) := by
  apply keeps_charged_of
  refine h.popped.bind fun _ => ?_
  refine h.popped.bind fun _ => ?_
  refine Keeps.get.bind fun _ => ?_
  refine Keeps.bind (h.same fun _ => ⟨rfl, rfl, rfl, rfl, rfl⟩) fun _ => ?_
  refine (h.touched _).bind fun _ => ?_
  exact h.next _

theorem popTopics : ∀ n : Nat, Keeps F (Solenoid.popTopics n : M T (List Word))
  | 0 => .pure _
  | n + 1 => h.popped.bind fun _ => (popTopics n).bind fun _ => .pure _

theorem opLog (instruction : Instruction) : Keeps F (Solenoid.opLog sc instruction : M T StepResult) := by
  refine .ite (fun _ => h.refused _) fun _ => ?_
  refine h.peekedTwo.bind fun _ => ?_
  refine (h.lifted _).bind fun _ => ?_
  refine (h.lifted _).bind fun _ => ?_
  refine (h.lifted _).bind fun _ => ?_
  apply keeps_charged_of
  refine h.popped.bind fun _ => ?_
  refine h.popped.bind fun _ => ?_
  refine (h.popTopics _).bind fun _ => ?_
  refine Keeps.bind ((h.lifted _).bind fun _ => Keeps.get.bind fun _ =>
    .ite (fun _ => .ite (fun _ => h.refused _) fun _ => .pure _) fun _ => h.readMemory _ _) fun _ => ?_
  exact Keeps.bind (h.same fun _ => ⟨rfl, rfl, rfl, rfl, rfl⟩) fun _ => h.next _

theorem opSelfdestruct [Crypto] (instruction : Instruction) :
    Keeps F (Solenoid.opSelfdestruct sc instruction : M T StepResult) := by
  refine .ite (fun _ => h.refused _) fun _ => ?_
  refine h.popped.bind fun _ => ?_
  refine Keeps.get.bind fun _ => ?_
  refine (h.onExt _).bind fun _ => ?_
  refine (h.onExt _).bind fun _ => ?_
  refine (h.onExt _).bind fun _ => ?_
  refine (h.onExt _).bind fun _ => ?_
  exact Keeps.bind (h.same fun _ => ⟨rfl, rfl, rfl, rfl, rfl⟩) fun _ => h.next _

/-! ## Instructions with notes -/

theorem afterStop : Keeps F (do
    setRet []
    emitReturn sc.ctx.depth
    return .ok 0 : M T StepResult) := (h.returned _).bind fun _ => h.said.bind fun _ => .pure _

theorem afterReturn : Keeps F (do
    let offset ← popUsize
    let size ← popUsize
    setOutput offset size
    let gas ← memoryExpansionCost
    emitReturn sc.ctx.depth
    Solenoid.next gas : M T StepResult) := by
  have houtput : ∀ offset size, Keeps F (setOutput offset size : M T Unit) := by
    intro offset size
    refine .ite (fun _ => ?_) fun _ => h.returned _
    refine (h.lifted _).bind fun _ => ?_
    refine (h.expandTo _).bind fun _ => ?_
    refine (h.readMemory _ _).bind fun _ => ?_
    exact h.returned _
  refine h.poppedUsize.bind fun _ => ?_
  refine h.poppedUsize.bind fun _ => ?_
  refine (houtput _ _).bind fun _ => ?_
  refine h.expansionCost.bind fun _ => ?_
  refine h.said.bind fun _ => ?_
  exact h.next _

section

variable (hends : ∀ (s : Machine T) (pc : Nat) (reverted : Bool),
  F.ok s { s with evm.pc := pc, evm.stopped := true, evm.reverted := reverted })

include hends

theorem opStop : Keeps F (Solenoid.opStop sc : M T StepResult) :=
  Keeps.bind (.modify fun s => hends s _ _) fun _ => h.afterStop

theorem opReturn (reverted : Bool) : Keeps F (Solenoid.opReturn sc reverted : M T StepResult) :=
  Keeps.bind (.modify fun s => hends s s.evm.pc reverted) fun _ => h.afterReturn

end

theorem opSha3 [Crypto] : Keeps F (Solenoid.opSha3 sc : M T StepResult) := by
  refine h.poppedUsize.bind fun _ => ?_
  refine h.poppedUsize.bind fun _ => ?_
  refine .ite (fun _ => ?_) fun _ => ?_
  · refine (h.lifted _).bind fun _ => ?_
    exact h.refused _
  · refine Keeps.get.bind fun _ => ?_
    refine (h.note rfl).bind fun _ => ?_
    apply keeps_charged_of
    refine (h.pushed _).bind fun _ => ?_
    exact h.next _

theorem opSload [Crypto] : Keeps F (Solenoid.opSload sc : M T StepResult) := by
  refine h.peeked.bind fun _ => ?_
  refine (h.warmSlot _).bind fun _ => ?_
  apply keeps_charged_of
  refine h.popped.bind fun _ => ?_
  refine (h.orError _).bind fun _ => ?_
  refine (h.pushed _).bind fun _ => ?_
  refine (h.touched _).bind fun _ => ?_
  refine (h.note (by rfl)).bind fun _ => ?_
  exact h.next _

/-- An SSTORE that can pay. -/
theorem stored [Crypto] (key val new : Word) (isWarm : Bool) (gasCost gasRefund : Int) : Keeps F (do
    Solenoid.orError (Ext.put sc.this key new)
    modify fun s => { s with evm.gas := s.evm.gas.addRefund gasRefund }
    emit sc.ctx.depth false (.state (.put sc.this key val new gasRefund))
    touch (.setState sc.this key val new isWarm)
    Solenoid.next gasCost : M T StepResult) := by
  refine (h.orError _).bind fun _ => ?_
  refine Keeps.bind (h.same fun _ => ⟨rfl, rfl, rfl, rfl, rfl⟩) fun _ => ?_
  refine (h.note (by rfl)).bind fun _ => ?_
  refine (h.touched _).bind fun _ => ?_
  exact h.next _

theorem opSstore [Crypto] (halm : ∀ op : OpCodeEvent, Keeps F (emit sc.ctx.depth true (.opCode op)))
    (instruction : Instruction) : Keeps F (Solenoid.opSstore sc instruction : M T StepResult) := by
  refine .ite (fun _ => h.refused _) fun _ => ?_
  refine h.popped.bind fun _ => ?_
  refine h.popped.bind fun _ => ?_
  refine (h.warmSlot _).bind fun _ => ?_
  refine (h.orError _).bind fun _ => ?_
  refine Keeps.get.bind fun _ => ?_
  refine .ite (fun _ => ?_) fun _ => ?_
  · refine (halm _).bind fun _ => ?_
    exact .pure _
  · refine .ite (fun _ => ?_) fun _ => h.stored _ _ _ _ _ _
    refine (halm _).bind fun _ => ?_
    exact .pure _

/-- An instruction that opens no frame; how it ends its own and the events of an SSTORE are left open. -/
theorem instruction [Crypto] (exec : Exec T) {instruction : Instruction} (hcall : instruction.op.isCall = false)
    (hstore : instruction.op = .sstore → Keeps F (Solenoid.opSstore sc instruction))
    (hends : instruction.op.ends = true → ∀ (s : Machine T) (pc : Nat) (reverted : Bool),
      F.ok s { s with evm.pc := pc, evm.stopped := true, evm.reverted := reverted }) :
    Keeps F (executeInstruction exec sc instruction) := by
  unfold executeInstruction
  cases hop : instruction.op
  case create | call | callcode | delegatecall | create2 | staticcall => simp [hop, Op.isCall] at hcall
  case stop => exact h.opStop (hends (by rw [hop]; rfl))
  case return_ => exact h.opReturn (hends (by rw [hop]; rfl)) _
  case revert => exact h.opReturn (hends (by rw [hop]; rfl)) _
  case invalid => exact h.next 0
  case exp => exact h.opExp
  case sha3 => exact h.opSha3
  case balance => exact h.opBalance
  case calldataload => exact h.opCalldataload
  case calldatacopy => exact h.opCalldatacopy
  case codecopy => exact h.opCodecopy
  case extcodesize => exact h.opExtcodesize
  case extcodecopy => exact h.opExtcodecopy
  case returndatacopy => exact h.opReturndatacopy
  case extcodehash => exact h.opExtcodehash
  case blockhash => exact h.opBlockhash
  case selfbalance => exact h.opSelfbalance
  case blobhash => exact h.opBlobhash
  case pop => exact h.opPop
  case mload => exact h.opMload
  case mstore => exact h.opMstore
  case mstore8 => exact h.opMstore8
  case sload => exact h.opSload
  case sstore => exact hstore hop
  case jump => exact h.opJump
  case jumpi => exact h.opJumpi
  case jumpdest => exact h.opJumpdest
  case tload => exact h.opTload
  case tstore => exact h.opTstore
  case mcopy => exact h.opMcopy
  case dup => exact h.opDup _
  case swap => exact h.opSwap _
  case log => exact h.opLog _
  case selfdestruct => exact h.opSelfdestruct _
  case unknown => exact h.refused _
  all_goals
    first
    | exact h.pushing _ _
    | exact h.binary _ _ _
    | exact h.unary _ _
    | exact h.ternary _ _

/-! ## Opening a frame -/

theorem callArgs : Keeps F (Solenoid.callArgs sc : M T CallArgs) := by
  refine h.popped.bind fun _ => ?_
  refine h.popped.bind fun _ => ?_
  refine Keeps.bind (.ite (fun _ => h.popped) fun _ => .pure _) fun _ => ?_
  refine h.poppedUsize.bind fun _ => ?_
  refine h.poppedUsize.bind fun _ => ?_
  refine h.poppedUsize.bind fun _ => ?_
  refine h.poppedUsize.bind fun _ => ?_
  exact .pure _

theorem callMemory (a : CallArgs) : Keeps F (Solenoid.callMemory a : M T Int) :=
  (h.lifted _).bind fun _ => (h.lifted _).bind fun _ => (h.expandTo _).bind fun _ => h.expansionCost

theorem callCreateCost [Crypto] (a : CallArgs) : Keeps F (Solenoid.callCreateCost a : M T Int) :=
  .ite (fun _ => .pure _) fun _ => (h.onExt _).bind fun _ => .pure _

theorem callTarget [Crypto] (a : Address) : Keeps F (Solenoid.callTarget a : M T Target) := by
  refine (h.touchCode _).bind fun code => ?_
  refine (h.addressAccessCost _).bind fun _ => ?_
  cases delegation code.1 with
  | none => exact .pure _
  | some target => exact (h.touchCode target).bind fun _ => (h.addressAccessCost target).bind fun _ => .pure _

theorem callData (a : CallArgs) : Keeps F (Solenoid.callData a : M T Bytes) :=
  .ite (fun _ => h.readMemory _ _) fun _ => .pure _

theorem runPrecompile [Crypto] (a : Address) (data : Bytes) : Keeps F (Solenoid.runPrecompile a data : M T Word) := by
  unfold Solenoid.runPrecompile
  split
  · exact (h.returned _).bind fun _ => .pure _
  · exact .pure _
  · exact .throw fun s => h.err (.refl s)

theorem initCode (offset size : Nat) : Keeps F (Solenoid.initCode offset size : M T (Bytes × Int)) := by
  refine (h.lifted _).bind fun _ => ?_
  refine (h.expandTo _).bind fun _ => ?_
  refine h.expansionCost.bind fun _ => ?_
  refine (h.readMemory _ _).bind fun _ => ?_
  exact .pure _

theorem bumpNonce [Crypto] (a : Address) : Keeps F (Solenoid.bumpNonce sc.ctx.depth a : M T Word) := by
  refine (h.onExt _).bind fun _ => ?_
  refine (h.lifted _).bind fun _ => ?_
  refine (h.onExt _).bind fun _ => ?_
  refine (h.lifted _).bind fun _ => ?_
  refine (h.lifted _).bind fun _ => ?_
  refine (h.touched _).bind fun _ => ?_
  refine (h.note (by rfl)).bind fun _ => ?_
  exact .pure _

theorem openAccount (created : Address) : Keeps F (Solenoid.openAccount created : M T Unit) := by
  refine Keeps.bind (h.same fun _ => ⟨rfl, rfl, rfl, rfl, rfl⟩) fun _ => ?_
  refine (h.warmTouch _).bind fun _ => ?_
  exact h.same fun _ => ⟨rfl, rfl, rfl, rfl, rfl⟩

theorem createEnter (code : Bytes) (base : Int) (created : Address) (value : Word) :
    Keeps F (Solenoid.createEnter sc code base created value : M T (Opened T)) := by
  refine Keeps.bind (Keeps.get.bind fun _ => .pure _) fun _ => ?_
  refine .ite (fun _ => .throw fun s => h.err (.refl s)) fun _ => ?_
  refine Keeps.bind (Keeps.get.bind fun _ => .pure _) fun _ => ?_
  exact .pure _

theorem createOpen [Crypto] : Keeps F (Solenoid.createOpen sc : M T (Opened T)) := by
  refine h.popped.bind fun _ => ?_
  refine h.poppedUsize.bind fun _ => ?_
  refine h.poppedUsize.bind fun _ => ?_
  refine Keeps.bind (.ite (fun _ => h.popped) fun _ => .pure _) fun _ => ?_
  refine (h.initCode _ _).bind fun _ => ?_
  refine (h.bumpNonce _).bind fun _ => ?_
  refine (h.openAccount _).bind fun _ => ?_
  exact h.createEnter _ _ _ _

/-! ## Closing it -/

theorem dropFrame [Crypto] (inner : Evm) : Keeps F (Solenoid.dropFrame inner : M T Unit) :=
  (h.pushed _).bind fun _ => (h.onExt _).bind fun _ => h.same fun _ => ⟨rfl, rfl, rfl, rfl, rfl⟩

theorem mergeReverted [Crypto] (out : Output T) : Keeps F (Solenoid.mergeReverted out : M T Unit) := by
  refine Keeps.bind (h.same fun _ => ⟨rfl, rfl, rfl, rfl, rfl⟩) fun _ => ?_
  refine (h.returned _).bind fun _ => ?_
  exact h.dropFrame _

theorem mergeKept (out : Output T) : Keeps F (Solenoid.mergeKept out : M T Unit) :=
  h.same fun _ => ⟨rfl, rfl, rfl, rfl, rfl⟩

theorem copyBack (retOffset : Nat) (copied : Bytes) : Keeps F (Solenoid.copyBack retOffset copied : M T Unit) :=
  .ite (fun _ => h.writeMemory _ _) fun _ => .pure _

section

variable (hval : ∀ (a : Address) (val new : Word), Keeps F (emit sc.ctx.depth false (.account (.setValue a val new))))

include hval

theorem moveValue (src dst : Address) (srcBalance dstBalance value : Word) :
    Keeps F (Solenoid.moveValue sc.ctx.depth src dst srcBalance dstBalance value : M T Unit) := by
  refine (h.lifted _).bind fun _ => ?_
  refine (h.onExt _).bind fun _ => ?_
  refine (h.touched _).bind fun _ => ?_
  refine (hval _ _ _).bind fun _ => ?_
  refine (h.lifted _).bind fun _ => ?_
  refine (h.onExt _).bind fun _ => ?_
  refine (h.touched _).bind fun _ => ?_
  exact hval _ _ _

theorem callTransfer [Crypto] (a : CallArgs) : Keeps F (Solenoid.callTransfer sc a : M T Unit) := by
  refine (h.onExt _).bind fun _ => ?_
  refine (h.onExt _).bind fun _ => ?_
  exact .ite (fun _ => h.moveValue hval _ _ _ _ _) fun _ => .pure _

theorem deploy [Crypto] (created : Address) (value : Word) (code : Bytes) :
    Keeps F (Solenoid.deploy sc created value code : M T Unit) := by
  refine (h.onExt _).bind fun _ => ?_
  refine (h.onExt _).bind fun _ => ?_
  refine Keeps.bind ((h.onExt _).bind fun _ => (h.onExt _).bind fun _ =>
    .ite (fun _ => h.moveValue hval _ _ _ _ _) fun _ => .pure _) fun _ => ?_
  refine (h.touched _).bind fun _ => ?_
  exact h.note (by rfl)

end

end Listens

/-- A frame that sees nothing but the tracer and the outcome so far, and admits the events of one
    depth but those of a balance and of a failure. -/
structure Traces (F : Frame Fault (Machine T)) (depth : Nat) : Prop where
  ok : ∀ {s t : Machine T}, t.exe.tracer = s.exe.tracer → t.evm.reverted = s.evm.reverted → F.ok s t
  err : ∀ {f} {s t : Machine T}, t.exe.tracer = s.exe.tracer → F.err f s t
  note : ∀ {data : EventData}, data.isNote = true → Keeps F (emit depth false data)
  said : Keeps F (emitReturn depth : M T Unit)
  op : ∀ op : OpCodeEvent, Keeps F (emit depth false (.opCode op))

/-- A frame that admits those of a failure too, and sees a failed run as any other. -/
structure Endures (F : Frame Fault (Machine T)) (depth : Nat) : Prop extends Traces F depth where
  any : ∀ {s t : Machine T}, t.exe.tracer = s.exe.tracer → F.ok s t
  alarm : ∀ {data : EventData}, data.isNote = true → Keeps F (emit depth true data)
  spent : ∀ op : OpCodeEvent, Keeps F (emit depth true (.opCode op))
  failed : ∀ {f s t}, F.err f s t → F.ok s t

/-- The inner frame's events come in between. -/
def Joins (F : Frame Fault (Machine T)) (out : Output T) (s t : Machine T) : Prop :=
  ∃ u v : Machine T, F.ok s u ∧ v.exe.tracer = EventTracer.join u.exe.tracer out.tracer out.evm.reverted ∧ v.evm = u.evm ∧
    F.ok v t

theorem Joins.after {F : Frame Fault (Machine T)} {out : Output T} {s t u : Machine T} (h : Joins F out s t)
    (htu : F.ok t u) :
    Joins F out s u := by
  obtain ⟨v, w, hv, hw, hevm, ht⟩ := h
  exact ⟨v, w, hv, hw, hevm, F.trans ht htu⟩

omit [EventTracer T] in
theorem depth_inContext (sc : Scope) (op : Op) : (sc.inContext op).ctx.depth = sc.ctx.depth := by
  unfold Scope.inContext callContext
  split <;> rfl

namespace Traces

variable {F : Frame Fault (Machine T)} {sc : Scope} (h : Traces F sc.ctx.depth)

include h

theorem listens : Listens F sc.ctx.depth :=
  ⟨fun hs => h.ok hs.tracer hs.reverted, fun hb => h.err hb.tracer, h.note, h.said⟩

theorem inContext (op : Op) : Traces F (sc.inContext op).ctx.depth := by
  rw [depth_inContext]
  exact h

theorem same {f : Machine T → Machine T} (hf : ∀ s, (f s).exe.tracer = s.exe.tracer)
    (hrev : ∀ s, (f s).evm.reverted = s.evm.reverted) : Keeps F (modify f : M T Unit) := .modify fun s => h.ok (hf s)
    (hrev s)

theorem takeGas (cost : Int) : Keeps F (Solenoid.takeGas cost : M T Unit) := fun s => by
  unfold Solenoid.takeGas Evm.takeGas
  simp only [wp_onEvm, wp_bind, wp_get, wp_modify, wp_ite, wp_pure, wp_error]
  exact ⟨fun _ => h.ok rfl rfl, fun _ => h.err rfl⟩

theorem spend (gas : Int) : Keeps F (Solenoid.spend gas : M T Unit) := h.same (fun _ => rfl) fun _ => rfl

theorem emitCall (instruction : Instruction) (cost : Int) :
    Keeps F (Solenoid.emitCall sc.ctx.depth instruction cost : M T Unit) := Keeps.get.bind fun _ => h.op _

theorem callOutOfGas (instruction : Instruction) : Keeps F (Solenoid.callOutOfGas sc instruction : M T α) := by
  refine Keeps.get.bind fun _ => ?_
  refine (h.op _).bind fun _ => ?_
  refine Keeps.bind (h.same (fun _ => rfl) fun _ => rfl) fun _ => ?_
  refine (h.listens.pushed _).bind fun _ => ?_
  exact h.listens.refused _

theorem enterFrame : Keeps F (Solenoid.enterFrame sc : M T Unit) :=
  (h.note (by rfl)).bind fun _ => .ite (fun _ => .pure _) fun _ => h.listens.warmTouch _

/-! ## After the instruction -/

theorem recordOp (instruction : Instruction) (cost : Int) (recorded : Bool) :
    Keeps F (Solenoid.recordOp sc instruction cost recorded : M T Unit) := by
  refine .ite (fun _ => .pure _) fun _ => ?_
  refine Keeps.get.bind fun _ => ?_
  exact Keeps.bind (h.same (fun _ => rfl) fun _ => rfl) fun _ => h.op _

theorem finishFrame : Keeps F (Solenoid.finishFrame sc : M T Bytes) := by
  refine Keeps.get.bind fun _ => ?_
  refine Keeps.bind (.ite (fun _ => h.op _) fun _ => .pure _) fun _ => ?_
  refine Keeps.get.bind fun _ => ?_
  exact .pure _

/-- A step that leaves its frame unharmed: the instruction returned its price, which was paid. -/
theorem wp_settleStep (instruction : Instruction) (r : Option StepResult) (s : Machine T) :
    wp (settleStep sc instruction r) (fun _ t => t.evm.reverted = false → (∃ cost, r = some (.ok cost)) ∧ F.ok s t)
      (fun _ _ => True) s := by
  have hhalts : ∀ reason (t : Machine T), wp (haltFrame sc reason)
      (fun _ t => t.evm.reverted = false → (∃ cost, r = some (.ok cost)) ∧ F.ok s t) (fun _ _ => True) t := fun reason t =>
    wp_mono (wp_haltFrame sc reason) (fun _ u hu hu' => by rw [hu.2] at hu'; cases hu') fun _ _ he => he
  cases r with
  | none =>
    simp only [settleStep, halted, drainGas, wp_bind, wp_modify, wp_get, wp_emit, wp_pure]
    intro hrev
    cases hrev
  | some r =>
    cases r with
    | halt cost => exact wp_then fun _ _ => wp_then fun _ _ => wp_then fun _ _ => hhalts _ _
    | ok cost =>
      refine (h.recordOp instruction cost _).step (fun _ _ _ => trivial) fun _ t _ ht => ?_
      refine wp_ite.2 ⟨fun _ => wp_then fun _ _ => hhalts _ _, fun _ => ?_⟩
      rw [wp_bind, wp_attempt]
      refine wp_mono (h.takeGas cost t) (fun _ u hu => (wp_pure _).2 fun _ => ⟨⟨cost, rfl⟩, F.trans ht hu⟩) fun f u _ =>
        ⟨fun _ _ => hhalts _ _, fun _ => trivial⟩

/-! ## Around a frame -/

section

variable [Crypto]

theorem callPrecompile (instruction : Instruction) (a : CallArgs) (data : Bytes) (traceCost : Int) :
    Keeps F (Solenoid.callPrecompile sc instruction a data traceCost : M T Unit) := by
  refine (h.listens.runPrecompile _ _).bind fun _ => ?_
  refine (h.emitCall _ _).bind fun _ => ?_
  refine (h.listens.readMemory _ _).bind fun _ => ?_
  refine Keeps.get.bind fun _ => ?_
  refine (h.listens.writeMemory _ _).bind fun _ => ?_
  refine (h.listens.pushed _).bind fun _ => ?_
  exact h.takeGas _

variable (hval : ∀ (a : Address) (val new : Word), Keeps F (emit sc.ctx.depth false (.account (.setValue a val new))))

include hval

theorem callEnter (instruction : Instruction) (a : CallArgs) (target : Target) (gas : CallGas) :
    Keeps F (Solenoid.callEnter sc instruction a target gas : M T (Opened T)) := by
  refine (h.listens.callData a).bind fun _ => ?_
  refine .ite (fun _ => ?_) fun _ => ?_
  · refine (h.callPrecompile _ _ _ _).bind fun _ => ?_
    exact .pure _
  · refine (h.listens.callTransfer hval a).bind fun _ => ?_
    refine (h.note (by rfl)).bind fun _ => ?_
    refine Keeps.bind (Keeps.get.bind fun _ => .pure _) fun _ => ?_
    exact .pure _

theorem callOpen (instruction : Instruction) : Keeps F (Solenoid.callOpen sc instruction : M T (Opened T)) := by
  refine h.listens.callArgs.bind fun a => ?_
  refine (h.listens.callMemory a).bind fun _ => ?_
  refine (h.listens.callCreateCost a).bind fun _ => ?_
  refine (h.listens.callTarget a.address).bind fun _ => ?_
  refine Keeps.bind (Keeps.get.bind fun _ => .pure _) fun _ => ?_
  exact .ite (fun _ => h.callOutOfGas _) fun _ => h.callEnter hval _ _ _ _

omit hval

/-- A frame that is closed has its events joined, between the caller's own. -/
theorem wp_callClose (instruction : Instruction) (retOffset retSize : Nat) (stipend traceCost : Int) (out : Output T)
    (s : Machine T) : wp (callClose sc instruction retOffset retSize stipend traceCost out) (fun _ => Joins F out s)
      (fun _ _ => True) s := by
  unfold callClose
  refine (h.emitCall instruction traceCost).step (fun _ _ _ => trivial) fun _ u _ hu => ?_
  rw [wp_bind, joinTracer, wp_modify]
  have hrest : Keeps F (do
      copyBack retOffset (out.ret.take retSize)
      Solenoid.spend (out.evm.gas.used - stipend)
      if out.evm.reverted then mergeReverted out
      else
        mergeKept out
        setRet out.ret
        push 1 : M T Unit) := by
    refine (h.listens.copyBack _ _).bind fun _ => ?_
    refine (h.spend _).bind fun _ => ?_
    refine .ite (fun _ => h.listens.mergeReverted out) fun _ => ?_
    refine (h.listens.mergeKept out).bind fun _ => ?_
    refine (h.listens.returned _).bind fun _ => ?_
    exact h.listens.pushed _
  exact hrest.run (fun _ _ _ => trivial) fun _ t _ ht =>
    ⟨u, { u with exe.tracer := EventTracer.join u.exe.tracer out.tracer out.evm.reverted }, hu, rfl, rfl, ht⟩

include hval

theorem wp_createClose (instruction : Instruction) (baseCost forwarded : Int) (created : Address) (value : Word)
    (out : Output T) (s : Machine T) :
    wp (createClose sc instruction baseCost forwarded created value out) (fun _ => Joins F out s) (fun _ _ => True) s := by
  unfold createClose
  refine (h.emitCall instruction _).step (fun _ _ _ => trivial) fun _ u _ hu => ?_
  rw [wp_bind, joinTracer, wp_modify]
  have hdrop := h.listens.dropFrame out.evm
  have hkept : Keeps F (do
      deploy sc created value out.ret
      mergeKept out
      push created.toWord : M T Unit) := by
    refine (h.listens.deploy hval _ _ _).bind fun _ => ?_
    refine (h.listens.mergeKept _).bind fun _ => ?_
    exact h.listens.pushed _
  refine Keeps.run (.ite (fun _ => (h.spend _).bind fun _ => hdrop) fun _ => (h.spend _).bind fun _ =>
    .ite (fun _ => hdrop) fun _ => hkept) (fun _ _ _ => trivial) fun _ t _ ht => ?_
  exact ⟨u, { u with exe.tracer := EventTracer.join u.exe.tracer out.tracer out.evm.reverted }, hu, rfl, rfl, ht⟩

theorem openFrame (instruction : Instruction) : Keeps F (Solenoid.openFrame sc instruction : M T (Opened T)) := by
  have hin := h.inContext instruction.op
  unfold Solenoid.openFrame
  split
  · exact hin.listens.createOpen
  · exact hin.listens.createOpen
  · exact hin.callOpen (by rw [depth_inContext]; exact hval) _

theorem wp_closeFrame (instruction : Instruction) (pending : Pending) (out : Output T) (s : Machine T) :
    wp (closeFrame sc instruction pending out) (fun _ => Joins F out s) (fun _ _ => True) s := by
  have hin := h.inContext instruction.op
  unfold closeFrame
  cases pending with
  | call gas retOffset retSize stipend traceCost =>
    rw [wp_bind]
    exact wp_mono (hin.wp_callClose _ _ _ _ _ out s) (fun _ _ ht => (wp_pure _).2 ht) fun _ _ he => he
  | create baseCost forwarded created value =>
    rw [wp_bind]
    exact wp_mono (hin.wp_createClose (by rw [depth_inContext]; exact hval) _ _ _ _ _ out s)
      (fun _ _ ht => (wp_pure _).2 ht) fun _ _ he => he

/-- A call or a creation that opens no frame. -/
theorem unopenedCall {exec : Exec T} {instruction : Instruction} {s : Machine T} (hcall : instruction.op.isCall = true)
    (hnone : openedFrame sc instruction s = none) :
    wp (executeInstruction exec sc instruction) (fun r t => F.ok s t ∨ (∃ gas, r = .halt gas) ∧ ∃ f, F.err f s t)
      (fun f => F.err f s) s := by
  rw [executeInstruction_call (x := ⟨sc, instruction, s⟩) hcall]
  refine wp_opCall_of (fun _ _ => h.err rfl) fun hg => ?_
  have hopen := (h.openFrame hval instruction) s
  unfold callFrame
  rw [wp_bind]
  refine wp_def.2 ⟨fun o t ho => ?_, fun f t ho => ⟨(wp_of_error ho).1 hopen, fun _ _ =>
    .inr ⟨⟨_, rfl⟩, f, (wp_of_error ho).1 hopen⟩⟩⟩
  have hopened := openedFrame_ok (x := ⟨sc, instruction, s⟩) hcall hg ho
  rw [hnone] at hopened
  cases o with
  | frame inner pending => cases hopened
  | done gas => exact (wp_pure _).2 (.inl (F.trans ((wp_of_ok ho).1 hopen) (h.ok rfl rfl)))

/-- The instruction that opens a frame, up to its price: it joins the events of the frame, which came back. -/
theorem openedCall {exec : Exec T} {hist : Scope → Machine T → History T} (tracks : Tracks exec hist)
    {instruction : Instruction}
    {s opened : Machine T} {inner : Inner T} {pending : Pending} (hs : s.evm.stack.length ≤ stackLimit)
    (hopened : openedFrame sc instruction s = some (inner, pending, opened)) :
    wp (executeInstruction exec sc instruction) (fun _ t => ∃ ret i,
      exec inner.scope (inner.machine opened.ext) = .ok ret i ∧ Joins F ⟨i.exe.tracer, ret, i.evm⟩ s t)
      (fun f _ => ∀ r, f ≠ .report r) s := by
  obtain ⟨hcall, hg, ho⟩ := openedFrame_some (x := ⟨sc, instruction, s⟩) hopened
  have hopens := opens_of_openedFrame (x := ⟨sc, instruction, s⟩) hopened
  have hopening : F.ok s opened := (h.openFrame hval instruction).ok ho
  rw [executeInstruction_call (x := ⟨sc, instruction, s⟩) hcall]
  refine wp_opCall_of (fun r hr => ?_) fun _ => ?_
  · rw [hg] at hr
    cases hr
  unfold callFrame
  rw [wp_bind, wp_of_ok ho, wp_bind, wp_runInner]
  refine wp_def.2 ⟨fun ret i he => ?_, fun f i he => ?_⟩
  · have hext : opened.ext.Extends i.ext := tracks.extends hopens.fresh he
    have hcloses : wp (closeFrame sc instruction pending ⟨i.exe.tracer, ret, i.evm⟩) (fun _ => Closed ⟨sc, instruction, s⟩
        inner pending ⟨i.exe.tracer, ret, i.evm⟩ { opened with ext := i.ext }) (fun f _ => ∀ r, f ≠ .report r)
        { opened with ext := i.ext } := Solenoid.wp_closeFrame hopens hs rfl hext
    refine wp_mono (wp_and hcloses (h.wp_closeFrame hval instruction pending ⟨i.exe.tracer, ret, i.evm⟩ _))
      (fun _ t ⟨_, hjoins⟩ => ?_) fun f t ⟨hsilent, _⟩ => ⟨hsilent, fun r hr => absurd hr (hsilent r)⟩
    obtain ⟨u, v, hu, hv, hevm, ht⟩ := hjoins
    have hran : F.ok opened { opened with ext := i.ext } := h.ok rfl rfl
    exact ⟨ret, i, he, u, v, F.trans hopening (F.trans hran hu), hv, hevm, F.trans ht (h.ok rfl rfl)⟩
  · have hsilent := (tracks.silent _).error he
    exact ⟨hsilent, fun r hr => absurd hr (hsilent r)⟩

omit hval

end

end Traces

/-! ## A step that leaves its frame unharmed -/

/-- The outcome so far does not change. -/
def undecided : Frame Fault (Machine T) where
  ok s t := t.evm.reverted = s.evm.reverted
  err _ _ _ := True
  refl _ := rfl
  trans h h' := h'.trans h
  fail _ _ := trivial

theorem traces_undecided (depth : Nat) : Traces (undecided (T := T)) depth where
  ok _ hrev := hrev
  err _ := trivial
  note _ := .modify fun _ => rfl
  said := Keeps.get.bind fun _ => .modify fun _ => rfl
  op _ := .modify fun _ => rfl

/-- Whether the frame goes on does not change. -/
def lasting : Frame Fault (Machine T) where
  ok s t := t.evm.stopped = s.evm.stopped
  err _ _ _ := True
  refl _ := rfl
  trans h h' := h'.trans h
  fail _ _ := trivial

namespace Traces

variable {F : Frame Fault (Machine T)} {sc : Scope} (h : Traces F sc.ctx.depth)

include h

/-- What a step that left its frame unharmed added, its instruction and its price. -/
theorem settled {instruction : Instruction} {r : Option StepResult} {s t u : Machine T} {o : Option Bytes}
    (ht : (∃ cost, r = some (.ok cost)) → t.evm.reverted = false → F.ok s t)
    (hu : settleStep sc instruction r t = .ok o u) (hrev : u.evm.reverted = false) : F.ok s u := by
  obtain ⟨hcost, htu⟩ := (of_ok (h.wp_settleStep instruction r t) hu :) hrev
  have hsame : u.evm.reverted = t.evm.reverted := ((of_ok ((traces_undecided _).wp_settleStep instruction r t) hu :) hrev).2
  exact F.trans (ht hcost (hsame.symm.trans hrev)) htu

/-- The instructions that end their frame. -/
theorem ending {exec : Exec T} [Crypto] {instruction : Instruction} {s : Machine T} (hends : instruction.op.ends = true)
    (hlive : s.evm.reverted = false) : wp (executeInstruction exec sc instruction)
      (fun _ t => t.evm.reverted = false → F.ok s t) (fun _ _ => True) s := by
  have hreturn : ∀ reverted, wp (opReturn sc reverted : M T StepResult) (fun _ t => t.evm.reverted = false → F.ok s t)
      (fun _ _ => True) s := fun reverted => by
    unfold opReturn
    rw [wp_bind, wp_modify]
    refine (h.listens.afterReturn).run (fun _ _ _ => trivial) fun _ t hrun ht hrev => ?_
    have hsame : t.evm.reverted = reverted := (traces_undecided sc.ctx.depth).listens.afterReturn.ok hrun
    have hended : F.ok s { s with evm.stopped := true, evm.reverted := reverted } :=
      h.ok rfl (hsame.symm.trans (hrev.trans hlive.symm))
    exact F.trans hended ht
  unfold executeInstruction
  cases hop : instruction.op <;> rw [hop] at hends <;> first | exact hreturn _ | cases hends
  have hended : F.ok s { s with evm.pc := sc.code.instructions.length, evm.stopped := true, evm.reverted := false } :=
    h.ok rfl hlive.symm
  unfold opStop
  rw [wp_bind, wp_modify]
  exact (h.listens.afterStop).run (fun _ _ _ => trivial) fun _ t _ ht _ => F.trans hended ht

variable [Crypto] (hval : ∀ (a : Address) (val new : Word),
  Keeps F (emit sc.ctx.depth false (.account (.setValue a val new))))

include hval

/-- One that opens a frame and leaves its own unharmed. -/
theorem joined {exec : Exec T} {hist : Scope → Machine T → History T} (tracks : Tracks exec hist)
    {instruction : Instruction}
    {s opened : Machine T} {inner : Inner T} {pending : Pending} (hs : s.evm.stack.length ≤ stackLimit)
    (hopened : openedFrame sc instruction s = some (inner, pending, opened)) :
    wp (executeStep exec sc instruction) (fun _ t => t.evm.reverted = false → ∃ ret i,
      exec inner.scope (inner.machine opened.ext) = .ok ret i ∧ Joins F ⟨i.exe.tracer, ret, i.evm⟩ s t) (fun _ _ =>
        True) s := by
  unfold executeStep
  rw [wp_bind, wp_attempt]
  refine wp_mono (h.openedCall hval tracks hs hopened) (fun r t ⟨ret, i, he, hjoins⟩ => ?_) fun f t ht =>
    ⟨fun r hr => absurd hr (ht r), fun _ => trivial⟩
  refine wp_def.2 ⟨fun o u hu hrev => ⟨ret, i, he, hjoins.after ?_⟩, fun _ _ _ => trivial⟩
  exact h.settled (fun _ _ => F.refl t) hu hrev

end Traces

namespace Endures

variable {F : Frame Fault (Machine T)} {sc : Scope} (h : Endures F sc.ctx.depth)

include h

theorem haltFrame (reason : HaltReason) : Keeps F (Solenoid.haltFrame sc reason : M T (Option Bytes)) :=
  Keeps.bind (.modify fun _ => h.any rfl) fun _ => (h.alarm (by rfl)).bind fun _ => .pure _

theorem attempted (cost : Int) : Keeps F (attempt (takeGas cost) : M T (Option Unit)) := fun s =>
  (wp_attempt _).2 (wp_mono (h.takeGas cost s) (fun _ _ ht => ht) fun _ _ ht => ⟨fun _ _ => h.failed ht, fun _ => ht⟩)

theorem settleStep (instruction : Instruction) (r : Option StepResult) :
    Keeps F (Solenoid.settleStep sc instruction r : M T (Option Bytes)) := by
  cases r with
  | none =>
    exact Keeps.bind (.modify fun _ => h.any rfl) fun _ => Keeps.get.bind fun _ => (h.spent _).bind fun _ =>
      Keeps.bind (.modify fun _ => h.any rfl) fun _ => .pure _
  | some r =>
    cases r with
    | halt cost =>
      refine Keeps.bind (.modify fun _ => h.any rfl) fun _ => ?_
      refine (h.recordOp _ _ _).bind fun _ => ?_
      refine Keeps.bind (.modify fun _ => h.any rfl) fun _ => ?_
      exact h.haltFrame _
    | ok cost =>
      refine (h.recordOp _ _ _).bind fun _ => ?_
      refine .ite (fun _ => Keeps.bind (.modify fun _ => h.any rfl) fun _ => h.haltFrame _) fun _ => ?_
      refine (h.attempted cost).bind fun charged => ?_
      cases charged with
      | none => exact h.haltFrame _
      | some _ => exact .pure _

section

variable [Crypto] (hval : ∀ (a : Address) (val new : Word),
  Keeps F (emit sc.ctx.depth false (.account (.setValue a val new))))

include hval

/-- A step that opens no frame. -/
theorem unopened {exec : Exec T} {instruction : Instruction} {s : Machine T} (hnone : openedFrame sc instruction s = none) :
    wp (executeStep exec sc instruction) (fun _ => F.ok s) (fun _ => F.ok s) s := by
  have hrun : wp (executeInstruction exec sc instruction) (fun _ => F.ok s) (fun f => F.err f s) s := by
    by_cases hcall : instruction.op.isCall = true
    · refine wp_mono (h.unopenedCall hval hcall hnone) (fun _ t ht => ?_) fun _ _ ht => ht
      rcases ht with ht | ⟨-, f, ht⟩
      · exact ht
      · exact h.failed ht
    · exact h.listens.instruction exec (by simpa using hcall) (fun _ => h.listens.opSstore h.spent _)
        (fun _ _ _ _ => h.any rfl) s
  have hsettle : ∀ (r : Option StepResult) (t : Machine T), F.ok s t →
      wp (Solenoid.settleStep sc instruction r) (fun _ => F.ok s) (fun _ => F.ok s) t := fun r t ht =>
    wp_mono (h.settleStep instruction r t) (fun _ _ hu => F.trans ht hu) fun _ _ hu => F.trans ht (h.failed hu)
  unfold executeStep
  rw [wp_bind, wp_attempt]
  exact wp_mono hrun (fun r t ht => hsettle _ _ ht) fun f t ht =>
    ⟨fun _ _ => hsettle _ _ (h.failed ht), fun _ => h.failed ht⟩

/-- One that does joins the events of the frame, which came back. -/
theorem opened {exec : Exec T} {hist : Scope → Machine T → History T} (tracks : Tracks exec hist)
    {instruction : Instruction}
    {s opened : Machine T} {inner : Inner T} {pending : Pending} (hs : s.evm.stack.length ≤ stackLimit)
    (hopened : openedFrame sc instruction s = some (inner, pending, opened)) :
    wp (executeStep exec sc instruction) (fun _ t => ∃ ret i, exec inner.scope (inner.machine opened.ext) = .ok ret i ∧
      Joins F ⟨i.exe.tracer, ret, i.evm⟩ s t) (fun _ _ => True) s := by
  unfold executeStep
  rw [wp_bind, wp_attempt]
  refine wp_mono (h.openedCall hval tracks hs hopened) (fun r t ⟨ret, i, he, hjoins⟩ => ?_) fun f t ht =>
    ⟨fun r hr => absurd hr (ht r), fun _ => trivial⟩
  exact (h.settleStep instruction (some r)).run (fun _ _ _ => trivial) fun _ u _ hu => ⟨ret, i, he, hjoins.after hu⟩

end

end Endures

/-! ## Around the top frame -/

namespace Endures

variable [Crypto] {F : Frame Fault (Machine T)} (h : Endures F 1)

include h

/-- The transaction's own events have the depth of its top frame. -/
theorem top (code : Bytecode) (call : Call) : Endures F (topScope code call 0).ctx.depth := h

theorem works : Works F := by
  have hl := (h.top (decode []) {}).listens
  exact {
    lifted := hl.lifted
    pulled _ := hl.onExt _
    warmed _ := hl.onExt _
    warmTouch := hl.warmTouch
    touchCode := hl.touchCode
    listed := hl.onExt _
    valued _ _ := hl.onExt _
    credited _ _ := hl.onExt _
    counted _ _ := hl.onExt _
    touched := hl.touched }

omit [Crypto] in
theorem fuels : Fuels F := ⟨fun _ => .modify fun _ => h.any rfl, .modify fun _ => h.any rfl⟩

end Endures

/-! ## The frame that is opened -/

/-- What the event of the instruction says it costs. -/
def Pending.traced : Pending → Int
  | .call _ _ _ _ traceCost => traceCost
  | .create baseCost forwarded _ _ => baseCost + forwarded

/-- A frame below one at `depth` starts with an empty trace; its price in the caller's counts all
    the gas it is given. -/
structure Nests (depth : Nat) (inner : Inner T) (pending : Pending) : Prop where
  tracer : inner.exe.tracer = default
  depth : inner.scope.ctx.depth = depth + 1
  traced : pending.traced = pending.base + inner.evm.gas.limit - pending.stipend

def Opened.Nested (depth : Nat) : Opened T → Prop
  | .done _ => True
  | .frame inner pending => Nests depth inner pending

theorem wp_newFrame_nested {scope : Scope} {limit : Int} {depth : Nat} {pending : Pending} {s : Machine T}
    (h : scope.ctx.depth = depth + 1) (htraced : pending.traced = pending.base + limit - pending.stipend) :
    wp (do
      let inner ← newFrame scope limit
      return .frame inner pending : M T (Opened T)) (fun o _ => o.Nested depth) (fun _ _ => True) s := by
  simp only [newFrame, wp_bind, wp_get, wp_pure]
  exact ⟨rfl, h, htraced⟩

section

variable [Crypto] {sc : Scope}

theorem wp_callOpen_nested (instruction : Instruction) (s : Machine T) :
    wp (callOpen sc instruction) (fun o _ => o.Nested sc.ctx.depth) (fun _ _ => True) s := by
  unfold callOpen
  refine wp_then fun a t₁ => wp_then fun memory t₂ => wp_then fun create t₃ => wp_then fun target t₄ =>
    wp_then fun left t₅ => ?_
  rw [wp_ite]
  refine ⟨fun _ => ?_, fun _ => ?_⟩
  · unfold callOutOfGas
    exact wp_then fun _ _ => wp_then fun _ _ => wp_then fun _ _ => wp_then fun _ _ => (wp_throw _).2 trivial
  · unfold callEnter
    refine wp_then fun data t₆ => wp_ite.2 ⟨fun _ => wp_then fun _ _ => (wp_pure _).2 trivial, fun _ => ?_⟩
    exact wp_then fun _ _ => wp_then fun _ _ => wp_newFrame_nested rfl rfl

theorem wp_createOpen_nested (s : Machine T) :
    wp (createOpen sc) (fun o _ => o.Nested sc.ctx.depth) (fun _ _ => True) s := by
  unfold createOpen
  refine wp_then fun value t₁ => wp_then fun offset t₂ => wp_then fun size t₃ => wp_then fun salt t₄ =>
    wp_then fun code t₅ =>
    wp_then fun nonce t₆ => wp_then fun _ t₇ => ?_
  unfold createEnter
  exact wp_then fun left t₈ => wp_ite.2 ⟨fun _ => (wp_throw _).2 trivial, fun _ =>
    wp_newFrame_nested rfl (Int.sub_zero _).symm⟩

theorem openedFrame_nested {instruction : Instruction} {s opened : Machine T} {inner : Inner T} {pending : Pending}
    (h : openedFrame sc instruction s = some (inner, pending, opened)) : Nests sc.ctx.depth inner pending := by
  obtain ⟨-, -, ho⟩ := openedFrame_some (x := ⟨sc, instruction, s⟩) h
  have hnested : wp (openFrame sc instruction) (fun o _ => o.Nested (sc.inContext instruction.op).ctx.depth)
    (fun _ _ => True) s := by
    unfold openFrame
    split
    · exact wp_createOpen_nested s
    · exact wp_createOpen_nested s
    · exact wp_callOpen_nested instruction s
  have hinner : (Opened.frame inner pending).Nested (sc.inContext instruction.op).ctx.depth := (of_ok hnested ho :)
  rwa [depth_inContext] at hinner

end

end Solenoid
