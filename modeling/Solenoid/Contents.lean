/-
  Solenoid.Contents — what a frame's memory holds, and how long it is, along a run.

  A memory stands for an endless array (`image`), which is zero when its frame starts.
  `Step.wrote` is what an instruction makes of the array: growing the memory changes nothing of
  it, a store or a copy writes its block, and a message call as much of the return buffer it
  leaves as its output range takes. Its length grows as far as `Step.reach`.
  - `run_finds`: what every step of every frame of a run finds, when one step is known to leave
    what it is to leave (`Finding.Lawful`).
  - `Runner.apply_remembers`, `Runner.apply_stretches`: every step of a transaction finds the
    array, and the length, that the steps of its own frame made, whatever the frames below did.
-/
import Solenoid.Boundaries
import Solenoid.Outputs

namespace Solenoid

open Hoare InfiniteArray

section

variable {T : Type} {s t : Machine T}

/-! ## What leaves the array -/

/-- The memory stands for the same array. -/
def imaging : Frame Fault (Machine T) where
  ok s t := image 0 t.evm.memory = image 0 s.evm.memory
  err _ _ _ := True
  refl _ := rfl
  trans h h' := h'.trans h
  fail _ _ := trivial

theorem overlooks_imaging : Overlooks (imaging (T := T)) where
  ok h := congrArg (image 0) h.memory
  err _ := trivial

theorem images_next (gas : Int) : Keeps imaging (next gas : M T StepResult) := fun _ => (wp_next gas).2 rfl

theorem images_expandTo (till : Nat) : Keeps imaging (expandTo till : M T Unit) := fun _ =>
  wp_expandTo_of (fun _ h => h.image) fun _ _ _ => trivial

theorem images_price : Keeps imaging (memoryExpansionCost : M T Int) := fun _ =>
  wp_memoryExpansionCost_of (fun _ => rfl) fun _ _ _ => trivial

theorem images_initCode (offset size : Nat) : Keeps imaging (initCode offset size : M T (Bytes × Int)) := by
  refine (overlooks_imaging.lifted _).bind fun _ => ?_
  refine (images_expandTo _).bind fun _ => ?_
  refine images_price.bind fun _ => ?_
  refine (overlooks_imaging.readMemory _ _).bind fun _ => ?_
  exact .pure _

theorem images_setOutput (offset size : Nat) : Keeps imaging (setOutput offset size : M T Unit) := by
  refine .ite (fun _ => ?_) fun _ => overlooks_imaging.returned _
  refine (overlooks_imaging.lifted _).bind fun _ => ?_
  refine (images_expandTo _).bind fun _ => ?_
  refine (overlooks_imaging.readMemory _ _).bind fun _ => ?_
  exact overlooks_imaging.returned _

variable [EventTracer T]

theorem images_opReturn (sc : Scope) (reverted : Bool) : Keeps imaging (opReturn sc reverted : M T StepResult) := by
  have h : Overlooks (imaging (T := T)) := overlooks_imaging
  refine Keeps.bind (h.same fun _ => ⟨rfl, rfl, rfl⟩) fun _ => ?_
  refine h.poppedUsize.bind fun _ => ?_
  refine h.poppedUsize.bind fun _ => ?_
  refine (images_setOutput _ _).bind fun _ => ?_
  refine images_price.bind fun _ => ?_
  refine (Keeps.get.bind fun _ => h.emitted _ _ _).bind fun _ => ?_
  exact images_next _

/-! ## What a call writes back -/

/-- The return buffer is as it was. -/
def buffering : Frame Fault (Machine T) where
  ok s t := t.exe.ret = s.exe.ret
  err _ _ _ := True
  refl _ := rfl
  trans h h' := h'.trans h
  fail _ _ := trivial

omit [EventTracer T] in
theorem buffers_push (v : Word) : Keeps buffering (push v : M T Unit) := fun _ =>
  (wp_push v).2 ⟨fun _ => rfl, fun _ => trivial⟩

omit [EventTracer T] in
theorem buffers_dropFrame (inner : Evm) : Keeps buffering (dropFrame inner : M T Unit) := by
  refine (buffers_push 0).bind fun _ => Keeps.bind (fun _ => ?_) fun _ => .modify fun _ => rfl
  exact (wp_onExt _).2 (wp_def.2 ⟨fun _ _ _ => rfl, fun _ _ _ => trivial⟩)

omit [EventTracer T] in
theorem wp_copyBack_image (retOffset : Nat) (copied : Bytes) (s : Machine T) :
    wp (copyBack retOffset copied) (fun _ t => image 0 t.evm.memory = patch (image 0 s.evm.memory) retOffset copied)
      (fun _ _ => True) s := by
  unfold copyBack
  rw [wp_ite]
  refine ⟨fun _ => wp_writeMemory_of (fun _ _ himage => himage) fun _ _ _ => trivial, fun hnil => (wp_pure _).2 ?_⟩
  rw [not_not.1 hnil, patch_nil]

omit [EventTracer T] in
/-- The callee's output is the buffer of the caller, whether or not the callee is kept. -/
theorem wp_merged (gas : Int) (out : Output T) (s : Machine T) :
    wp (do
      spend gas
      if out.evm.reverted then mergeReverted out
      else
        mergeKept out
        setRet out.ret
        push 1) (fun _ t => image 0 t.evm.memory = image 0 s.evm.memory ∧ t.exe.ret = out.ret) (fun _ _ => True) s := by
  have h : Overlooks (imaging (T := T)) := overlooks_imaging
  have himages : Keeps (imaging (T := T)) (do
      spend gas
      if out.evm.reverted then mergeReverted out
      else
        mergeKept out
        setRet out.ret
        push 1) := by
    refine (h.spend _).bind fun _ => ?_
    refine .ite (fun _ => h.mergeReverted _) fun _ => ?_
    refine (h.mergeKept _).bind fun _ => ?_
    refine (h.returned _).bind fun _ => ?_
    exact h.pushed _
  refine wp_mono (wp_and (himages s) (?_ : wp _ (fun _ t => t.exe.ret = out.ret) (fun _ _ => True) s)) (fun _ _ h => h)
    fun _ _ _ => trivial
  simp only [spend, mergeReverted, mergeKept, wp_bind, wp_modify, wp_setRet, wp_ite]
  refine ⟨fun _ => ?_, fun _ => (buffers_push 1).run (fun _ _ _ => trivial) fun _ _ _ h => h⟩
  exact (buffers_dropFrame _).run (fun _ _ _ => trivial) fun _ _ _ h => h

/-- As much of the output as the range takes. -/
theorem wp_callClose_image (sc : Scope) (instruction : Instruction) (retOffset retSize : Nat) (stipend traceCost : Int)
    (out : Output T) (s : Machine T) :
    wp (callClose sc instruction retOffset retSize stipend traceCost out)
      (fun _ t => image 0 t.evm.memory = patch (image 0 s.evm.memory) retOffset (t.exe.ret.take retSize))
      (fun _ _ => True) s := by
  have h : Overlooks (imaging (T := T)) := overlooks_imaging
  unfold callClose
  refine (h.emitCall _ _ _).step (fun _ _ _ => trivial) fun _ t _ ht => ?_
  refine (h.joinTracer out).step (fun _ _ _ => trivial) fun _ u _ hu => ?_
  have hu : image 0 u.evm.memory = image 0 s.evm.memory := imaging.trans ht hu
  rw [wp_bind]
  refine wp_mono (wp_copyBack_image _ _ u) (fun _ v hv => ?_) fun _ _ h => h
  refine wp_mono (wp_merged _ out v) (fun _ w hw => ?_) fun _ _ h => h
  rw [hw.1, hv, hu, hw.2]

variable [Crypto]

/-- A precompile's output, or the buffer as it was when it failed, is written like a callee's. -/
theorem wp_callPrecompile_image (sc : Scope) (instruction : Instruction) (a : CallArgs) (data : Bytes) (traceCost : Int)
    (s : Machine T) :
    wp (callPrecompile sc instruction a data traceCost)
      (fun _ t => image 0 t.evm.memory = patch (image 0 s.evm.memory) a.retOffset (t.exe.ret.take a.retSize))
      (fun _ _ => True) s := by
  have h : Overlooks (imaging (T := T)) := overlooks_imaging
  unfold callPrecompile
  refine (h.runPrecompile _ _).step (fun _ _ _ => trivial) fun result t _ ht => ?_
  have ht : image 0 t.evm.memory = image 0 s.evm.memory := ht
  simp only [emitCall, readMemory, takeGas, Evm.takeGas, wp_bind, wp_get, wp_emit, wp_lift, implies_true, and_true]
  intro _ _
  refine wp_writeMemory_of (fun memory _ himage => ?_) fun _ _ _ => trivial
  simp only [wp_push, wp_onEvm, wp_bind, wp_get, wp_ite, wp_modify, wp_pure, Solenoid.wp_error, implies_true, and_true]
  intro _ _
  rw [himage, ← ht]

/-! ## What a call-type instruction does before its frame -/

omit [Crypto] [EventTracer T] in
theorem images_callMemory (a : CallArgs) : Keeps imaging (callMemory a : M T Int) := by
  refine (overlooks_imaging.lifted _).bind fun _ => ?_
  refine (overlooks_imaging.lifted _).bind fun _ => ?_
  refine (images_expandTo _).bind fun _ => ?_
  exact images_price

omit [Crypto] [EventTracer T] in
theorem callArgs_arguments {x : Step T} (hop : x.op.isMessageCall) {a : CallArgs} {t : Machine T}
    (h : callArgs (x.scope.inContext x.op) x.before = .ok a t) :
    a = x.arguments ∧ t.evm.memory = x.before.evm.memory := by
  have htakes := callArgs_ok _ h
  obtain ⟨rest, -, hlen⟩ := htakes.rest
  have hmoves : (x.scope.inContext x.op).ctx.movesValue = decide (x.op = .call ∨ x.op = .callcode) :=
    movesValue_callContext _ hop
  have hhas : x.has x.callTaken := by
    unfold Step.has Step.callTaken
    by_cases hv : x.op = .call ∨ x.op = .callcode
    · have hseven := (htakes.moving (by rw [hmoves]; exact decide_eq_true hv)).2
      rcases hv with hv | hv <;> rw [hv] <;> exact hseven
    · have hat : x.op.argsAt = 2 := by
        unfold Op.argsAt
        split <;> simp_all
      omega
  have hw : wp (callArgs (x.scope.inContext x.op)) (fun a t => a = x.arguments ∧ t.evm.memory = x.before.evm.memory)
      (fun _ _ => True) x.before :=
    wp_callArgs_exact hop hhas (fun _ => ⟨rfl, rfl⟩) fun _ _ _ => trivial
  exact (of_ok hw h :)

/-- What an opened call has made of the array: a precompile has written, a frame has yet to. -/
def Opened.Holds (x : Step T) (t : Machine T) : Opened T → Prop
  | .done _ => image 0 t.evm.memory = patch (image 0 x.before.evm.memory) x.retOffset (t.exe.ret.take x.retSize)
  | .frame _ pending => image 0 t.evm.memory = image 0 x.before.evm.memory ∧
      ∃ gas stipend traceCost, pending = .call gas x.retOffset x.retSize stipend traceCost

theorem wp_callOpen_holds (x : Step T) (hop : x.op.isMessageCall) :
    wp (callOpen (x.scope.inContext x.op) x.instruction) (fun o t => o.Holds x t) (fun _ _ => True) x.before := by
  have h : Overlooks (imaging (T := T)) := overlooks_imaging
  unfold callOpen
  rw [wp_bind]
  refine wp_def.2 ⟨fun a s₀ hargs => ?_, fun _ _ _ => trivial⟩
  obtain ⟨rfl, hmemory⟩ := callArgs_arguments hop hargs
  have h₀ : image 0 s₀.evm.memory = image 0 x.before.evm.memory := congrArg (image 0) hmemory
  refine (images_callMemory _).step (fun _ _ _ => trivial) fun expansion s₁ _ h₁ => ?_
  refine (h.callCreateCost _).step (fun _ _ _ => trivial) fun create s₂ _ h₂ => ?_
  refine (h.callTarget _).step (fun _ _ _ => trivial) fun target s₃ _ h₃ => ?_
  have h₃ : image 0 s₃.evm.memory = image 0 x.before.evm.memory :=
    imaging.trans (imaging.trans (imaging.trans h₀ h₁) h₂) h₃
  rw [wp_bind, wp_remaining, wp_ite]
  refine ⟨fun _ => ?_, fun _ => ?_⟩
  · exact wp_mono (wp_callOutOfGas (P := fun _ => True) _ _) (fun _ _ h => h.elim) fun _ _ _ => trivial
  · unfold callEnter
    refine (h.callData _).step (fun _ _ _ => trivial) fun data s₄ _ h₄ => ?_
    have h₄ : image 0 s₄.evm.memory = image 0 x.before.evm.memory := imaging.trans h₃ h₄
    rw [wp_ite]
    refine ⟨fun _ => ?_, fun _ => ?_⟩
    · rw [wp_bind]
      refine wp_mono (wp_callPrecompile_image _ _ _ _ _ s₄) (fun _ u hu => (wp_pure _).2 ?_) fun _ _ h => h
      rw [h₄] at hu
      exact hu
    · refine (h.callTransfer _ _).step (fun _ _ _ => trivial) fun _ s₅ _ h₅ => ?_
      refine (h.emitted _ _ _).step (fun _ _ _ => trivial) fun _ s₆ _ h₆ => ?_
      simp only [newFrame, wp_bind, wp_get, wp_pure]
      exact ⟨imaging.trans (imaging.trans h₄ h₅) h₆, _, _, _, rfl⟩

theorem wp_createOpen_image (sc : Scope) (s : Machine T) :
    wp (createOpen sc) (fun o t => image 0 t.evm.memory = image 0 s.evm.memory ∧
      ∃ inner base forwarded created value, o = .frame inner (.create base forwarded created value)) (fun _ _ =>
        True) s := by
  have h : Overlooks (imaging (T := T)) := overlooks_imaging
  unfold createOpen
  refine h.popped.step (fun _ _ _ => trivial) fun value s₁ _ h₁ => ?_
  refine h.poppedUsize.step (fun _ _ _ => trivial) fun offset s₂ _ h₂ => ?_
  refine h.poppedUsize.step (fun _ _ _ => trivial) fun size s₃ _ h₃ => ?_
  refine (h.popSalt _).step (fun _ _ _ => trivial) fun salt s₄ _ h₄ => ?_
  refine (images_initCode _ _).step (fun _ _ _ => trivial) fun code s₅ _ h₅ => ?_
  refine (h.bumpNonce _ _).step (fun _ _ _ => trivial) fun nonce s₆ _ h₆ => ?_
  refine (h.openAccount _).step (fun _ _ _ => trivial) fun _ s₇ _ h₇ => ?_
  have h₇ : image 0 s₇.evm.memory = image 0 s.evm.memory :=
    imaging.trans (imaging.trans (imaging.trans (imaging.trans (imaging.trans (imaging.trans h₁ h₂) h₃) h₄) h₅) h₆) h₇
  simp only [createEnter, newFrame, wp_bind, wp_remaining, wp_ite, wp_throw, wp_get, wp_pure]
  exact ⟨fun _ => trivial, fun _ => ⟨h₇, _, _, _, _, _, rfl⟩⟩

/-! ## How far it grows -/

/-- The memory is as long as it was. -/
def measuring : Frame Fault (Machine T) where
  ok s t := t.evm.memory.length = s.evm.memory.length
  err _ _ _ := True
  refl _ := rfl
  trans h h' := h'.trans h
  fail _ _ := trivial

omit [Crypto] [EventTracer T] in
theorem writes_measuring : Writes (measuring (T := T)) where
  ok h := congrArg List.length h.memory
  err _ := trivial
  written start data s := by
    simp only [writeMemory, wp_bind, wp_get, wp_lift, wp_modify]
    exact ⟨fun _ h => copyFromSlice_length h, fun _ _ => trivial⟩

omit [Crypto] [EventTracer T] in
theorem measures_price : Keeps measuring (memoryExpansionCost : M T Int) := fun _ =>
  wp_memoryExpansionCost_of (fun _ => rfl) fun _ _ _ => trivial

section

variable {x : Step T}

omit [Crypto] [EventTracer T] in
theorem wp_callMemory_grows (hop : x.op.isMessageCall) (hmemory : s.evm.memory = x.before.evm.memory) :
    wp (callMemory x.arguments) (fun _ t => t.evm.memory.length = grownTo x.before.evm.memory.length x.reach)
      (fun _ _ => True) s := by
  have hreach : x.reach = max (rangeTill x.argsOffset x.argsSize) (rangeTill x.retOffset x.retSize) := by
    revert hop
    unfold Step.reach Step.till Step.ranges
    cases x.op <;> simp [Op.isMessageCall]
  have hend : ∀ {offset size n : Nat}, rangeEnd offset size = .ok n → n = rangeTill offset size := by
    intro offset size n hn
    rcases rangeEnd_exact offset size with ⟨h, -⟩ | ⟨⟨why, h⟩, -⟩ <;> rw [h] at hn <;> cases hn
    rfl
  unfold callMemory
  rw [wp_bind, wp_lift]
  refine ⟨fun argsMax hargs => ?_, fun _ _ => trivial⟩
  rw [wp_bind, wp_lift]
  refine ⟨fun retMax hret => ?_, fun _ _ => trivial⟩
  rw [wp_bind]
  refine wp_expandTo_of (fun memory hstretched => ?_) fun _ _ _ => trivial
  refine measures_price.run (fun _ _ _ => trivial) fun _ t _ ht => ?_
  have ht : t.evm.memory.length = memory.length := ht
  have hargs : argsMax = rangeTill x.argsOffset x.argsSize := hend hargs
  have hret : retMax = rangeTill x.retOffset x.retSize := hend hret
  rw [ht, hstretched.length, hmemory, hreach, hargs, hret]

theorem wp_callOpen_grows (hop : x.op.isMessageCall) :
    wp (callOpen (x.scope.inContext x.op) x.instruction)
      (fun _ t => t.evm.memory.length = grownTo x.before.evm.memory.length x.reach) (fun _ _ => True) x.before := by
  unfold callOpen
  rw [wp_bind]
  refine wp_def.2 ⟨fun a s hargs => ?_, fun _ _ _ => trivial⟩
  obtain ⟨rfl, hmemory⟩ := callArgs_arguments hop hargs
  rw [wp_bind]
  refine wp_mono (wp_callMemory_grows hop hmemory) (fun expansion t ht => ?_) fun _ _ h => h
  refine (writes_measuring.callReach _ x.instruction x.arguments expansion).run (fun _ _ _ => trivial) fun _ u _ hu => ?_
  have hu : u.evm.memory.length = t.evm.memory.length := hu
  rw [hu, ht]

theorem wp_createOpen_grows (sc : Scope) (hop : x.op = .create ∨ x.op = .create2) :
    wp (createOpen sc) (fun _ t => t.evm.memory.length = grownTo x.before.evm.memory.length x.reach) (fun _ _ => True)
      x.before := by
  have h : Writes (measuring (T := T)) := writes_measuring
  have hreach : x.reach = if 0 < (x.operand 2).toNat then (x.operand 1).toNat + (x.operand 2).toNat else 0 := by
    unfold Step.reach Step.till Step.ranges
    rcases hop with hop | hop <;> rw [hop] <;> exact Nat.max_zero _
  show wp (createOpen sc) _ _ (x.popped 0)
  unfold createOpen
  rw [wp_bind]
  refine wp_pop_at (fun _ => ?_) fun _ _ _ => trivial
  rw [wp_bind]
  refine wp_popUsize_at (fun _ => ?_) fun _ _ _ => trivial
  rw [wp_bind]
  refine wp_popUsize_at (fun _ => ?_) fun _ _ _ => trivial
  refine (h.popSalt _).step (fun _ _ _ => trivial) fun salt t _ ht => ?_
  have ht : t.evm.memory.length = x.before.evm.memory.length := ht
  rw [wp_bind]
  have hcode : wp (initCode (x.operand 1).toNat (x.operand 2).toNat)
      (fun _ u => u.evm.memory.length = grownTo x.before.evm.memory.length x.reach) (fun _ _ => True) t := by
    unfold initCode
    rw [wp_bind, wp_lift]
    refine ⟨fun till htill => ?_, fun _ _ => trivial⟩
    obtain rfl := addUsize_ok htill
    rw [wp_bind]
    refine wp_expandTo_of (fun memory hstretched => ?_) fun _ _ _ => trivial
    have hrest : Keeps (measuring (T := T)) (do
        let expansion ← memoryExpansionCost
        let bytecode ← readMemory (x.operand 1).toNat ((x.operand 1).toNat + (x.operand 2).toNat)
        return (bytecode, expansion)) := measures_price.bind fun _ => (h.readMemory _ _).bind fun _ => .pure _
    refine hrest.run (fun _ _ _ => trivial) fun _ u _ hu => ?_
    have hu : u.evm.memory.length = memory.length := hu
    rw [hu, hstretched.length, ht, hreach]
  refine wp_mono hcode (fun code u hu => ?_) fun _ _ h => h
  refine (h.bumpNonce _ _).step (fun _ _ _ => trivial) fun nonce v _ hv => ?_
  refine (h.openAccount _).step (fun _ _ _ => trivial) fun _ w _ hw => ?_
  refine (h.createEnter sc _ _ _ _).run (fun _ _ _ => trivial) fun _ _ _ ho => ?_
  have hw : w.evm.memory.length = v.evm.memory.length := hw
  have hv : v.evm.memory.length = u.evm.memory.length := hv
  exact ho.trans (hw.trans (hv.trans hu))

theorem wp_callFrame_grows {exec : Exec T} (hcall : x.op.isCall) :
    wp (callFrame exec x.scope x.instruction)
      (fun _ t => t.evm.memory.length = grownTo x.before.evm.memory.length x.reach) (fun _ _ => True) x.before := by
  have hopen : wp (openFrame x.scope x.instruction)
      (fun _ t => t.evm.memory.length = grownTo x.before.evm.memory.length x.reach) (fun _ _ => True) x.before := by
    rcases Op.isCall_cases hcall with hop | hop
    · rw [openFrame_message hop]
      exact wp_callOpen_grows hop
    · rw [openFrame_creation hop]
      exact wp_createOpen_grows _ hop
  unfold callFrame
  rw [wp_bind]
  refine wp_mono hopen (fun o t ht => ?_) fun _ _ h => h
  refine (writes_measuring.afterOpen x.scope exec x.instruction o).run (fun _ _ _ => trivial) fun _ u _ hu => ?_
  have hu : u.evm.memory.length = t.evm.memory.length := hu
  rw [hu, ht]

omit [Crypto] in
theorem wp_opReturn_grows (reverted : Bool) (hop : x.op = .return_ ∨ x.op = .revert) :
    wp (opReturn x.scope reverted)
      (fun _ t => t.evm.memory.length = grownTo x.before.evm.memory.length x.reach) (fun _ _ => True) x.before := by
  have h : Writes (measuring (T := T)) := writes_measuring
  have hreach : x.reach = if 0 < (x.operand 1).toNat then (x.operand 0).toNat + (x.operand 1).toNat else 0 := by
    unfold Step.reach Step.till Step.ranges
    rcases hop with hop | hop <;> rw [hop] <;> exact Nat.max_zero _
  obtain ⟨y, hy⟩ : ∃ y : Step T, y = { x with before.evm.stopped := true, before.evm.reverted := reverted } := ⟨_, rfl⟩
  have hoperand : ∀ i, y.operand i = x.operand i := fun i => by rw [hy]; rfl
  have hmemory : y.before.evm.memory = x.before.evm.memory := by rw [hy]
  unfold opReturn
  rw [wp_bind, wp_modify]
  have hbefore : (y.popped 0) = { x.before with evm.stopped := true, evm.reverted := reverted } := by rw [hy]; rfl
  rw [← hbefore, wp_bind]
  refine wp_popUsize_at (fun _ => ?_) fun _ _ _ => trivial
  rw [wp_bind]
  refine wp_popUsize_at (fun _ => ?_) fun _ _ _ => trivial
  rw [hoperand, hoperand, wp_bind]
  have houtput : wp (setOutput (x.operand 0).toNat (x.operand 1).toNat)
      (fun _ t => t.evm.memory.length = grownTo x.before.evm.memory.length x.reach) (fun _ _ => True) (y.popped 2) := by
    unfold setOutput
    rw [wp_ite, hreach]
    refine ⟨fun hsize => ?_, fun hsize => ?_⟩
    · rw [if_pos hsize, wp_bind, wp_lift]
      refine ⟨fun till htill => ?_, fun _ _ => trivial⟩
      obtain rfl := addUsize_ok htill
      rw [wp_bind]
      refine wp_expandTo_of (fun memory hstretched => ?_) fun _ _ _ => trivial
      refine ((h.readMemory _ _).bind fun _ => h.returned _).run (fun _ _ _ => trivial) fun _ u _ hu => ?_
      have hu : u.evm.memory.length = memory.length := hu
      rw [hu, hstretched.length, ← hmemory]
      rfl
    · rw [if_neg hsize]
      refine (h.returned []).run (fun _ _ _ => trivial) fun _ u _ hu => ?_
      have hu : u.evm.memory.length = y.before.evm.memory.length := hu
      rw [hu, hmemory]
      rfl
  refine wp_mono houtput (fun _ t ht => ?_) fun _ _ h => h
  have hrest : Keeps (measuring (T := T)) (do
      let gas ← memoryExpansionCost
      emitReturn x.scope.ctx.depth
      next gas) :=
    measures_price.bind fun _ => (Keeps.get.bind fun _ => h.emitted _ _ _).bind fun _ => fun _ => (wp_next _).2 rfl
  refine hrest.run (fun _ _ _ => trivial) fun _ u _ hu => ?_
  have hu : u.evm.memory.length = t.evm.memory.length := hu
  rw [hu, ht]

end

/-! ## One instruction -/

section

variable {exec : Exec T} {x : Step T}

omit [EventTracer T] in
theorem wrote_rest (h : x.op.shapes = false) (ret : Bytes) (f : Nat → UInt8) : x.wrote ret f = f := by
  revert h
  unfold Step.wrote
  cases x.op <;> simp [Op.shapes]

omit [Crypto] [EventTracer T] in
theorem reach_rest (h : x.op.shapes = false) : x.reach = 0 := by
  revert h
  unfold Step.reach Step.till Step.ranges
  cases x.op <;> simp [Op.shapes]

omit [EventTracer T] in
theorem wrote_message (h : x.op.isMessageCall) (ret : Bytes) (f : Nat → UInt8) :
    x.wrote ret f = patch f x.retOffset (ret.take x.retSize) := by
  revert h
  unfold Step.wrote
  cases x.op <;> simp [Op.isMessageCall]

theorem wp_callFrame_wrote (hcall : x.op.isCall) :
    wp (callFrame exec x.scope x.instruction)
      (fun _ t => image 0 t.evm.memory = x.wrote t.exe.ret (image 0 x.before.evm.memory)) (fun _ _ => True) x.before := by
  unfold callFrame
  rcases Op.isCall_cases hcall with hop | hop
  · simp only [wrote_message hop]
    rw [openFrame_message hop, wp_bind]
    refine wp_mono (wp_callOpen_holds x hop) (fun o t ho => ?_) fun _ _ h => h
    cases o with
    | done gas => exact (wp_pure _).2 ho
    | frame inner pending =>
      obtain ⟨himage, gas, stipend, traceCost, rfl⟩ := ho
      dsimp only
      rw [wp_bind, wp_runInner]
      refine wp_def.2 ⟨fun ret i _ => ?_, fun _ _ _ => trivial⟩
      unfold closeFrame
      rw [wp_bind]
      refine wp_mono (wp_callClose_image _ _ _ _ _ _ _ _) (fun _ u hu => (wp_pure _).2 ?_) fun _ _ h => h
      rw [← himage]
      exact hu
  · have hwrote : ∀ ret f, x.wrote ret f = f := fun ret f => by
      have hop : x.op = .create ∨ x.op = .create2 := hop
      unfold Step.wrote
      rcases hop with hop | hop <;> rw [hop]
    simp only [hwrote]
    rw [openFrame_creation hop, wp_bind]
    refine wp_mono (wp_createOpen_image _ x.before) (fun o t ho => ?_) fun _ _ h => h
    obtain ⟨himage, inner, base, forwarded, created, value, rfl⟩ := ho
    dsimp only
    rw [wp_bind, wp_runInner]
    refine wp_def.2 ⟨fun ret i _ => ?_, fun _ _ _ => trivial⟩
    unfold closeFrame
    refine (overlooks_imaging.createClose _ _ _ _ _ _ _).step (fun _ _ _ => trivial) fun _ u _ hu => (wp_pure _).2 ?_
    exact imaging.trans himage hu

/-- What an instruction that goes through leaves of the memory. -/
structure Leaves (x : Step T) (t : Machine T) : Prop where
  image : image 0 t.evm.memory = x.wrote t.exe.ret (image 0 x.before.evm.memory)
  length : t.evm.memory.length = grownTo x.before.evm.memory.length x.reach

omit [EventTracer T] in
theorem Shapes.leaves {t : Machine T} (h : Shapes x t) : Leaves x t := ⟨h.image, h.length⟩

omit [EventTracer T] in
theorem Rests.leaves {t : Machine T} (h : Rests x.before t) (hshapes : x.op.shapes = false) : Leaves x t where
  image := by rw [wrote_rest hshapes, h.memory]
  length := by rw [reach_rest hshapes, h.memory, grownTo, if_neg (Nat.not_lt_zero _)]

theorem opReturn_leaves {reverted : Bool} {o : StepResult} {t : Machine T} (hop : x.op = .return_ ∨ x.op = .revert)
    (h : opReturn x.scope reverted x.before = .ok o t) : Leaves x t where
  image := by
    have himage : image 0 t.evm.memory = image 0 x.before.evm.memory := (images_opReturn _ _).ok h
    unfold Step.wrote
    rcases hop with hop | hop <;> rw [hop] <;> exact himage
  length := (of_ok (wp_opReturn_grows reverted hop) h :)

/-- The memory before is small, as at every boundary. -/
theorem executeInstruction_leaves (hs : x.before.evm.Small) {cost : Int} {u : Machine T}
    (h : executeInstruction exec x.scope x.instruction x.before = .ok (.ok cost) u) : Leaves x u := by
  by_cases hcall : x.op.isCall = true
  · obtain ⟨-, gas, v, hframe, rfl⟩ := executeInstruction_callFrame hcall h
    exact ⟨(of_ok (wp_callFrame_wrote hcall) hframe :), (of_ok (wp_callFrame_grows hcall) hframe :)⟩
  by_cases hshapes : x.op.shapes = false
  · have hrests : Rests x.before u := (rests_instruction exec x.scope hshapes).ok h
    exact hrests.leaves hshapes
  have hgoes : ∀ {p : Int → Machine T → Prop}, (∀ cost t, p cost t → Shapes x t) → x.Outcome p (.ok cost) u →
      Leaves x u := by
    rintro p hp (⟨_, he, -⟩ | ⟨_, he, hpost⟩) <;> cases he
    exact (hp _ _ hpost).leaves
  unfold executeInstruction at h
  cases hop : x.op <;> rw [hop] at hcall hshapes <;> rw [show x.instruction.op = _ from hop] at h
  case mload => exact hgoes (fun _ _ hp => hp.1.shapes) ((wp_of_ok h).1 (wp_opMload_shapes hop))
  case mstore => exact hgoes (fun _ _ hp => hp.shapes) ((wp_of_ok h).1 (wp_opMstore_shapes hop))
  case mstore8 => exact hgoes (fun _ _ hp => hp.shapes) ((wp_of_ok h).1 (wp_opMstore8_shapes hop))
  case mcopy => exact hgoes (fun _ _ hp => hp.shapes) ((wp_of_ok h).1 (wp_opMcopy_shapes hop))
  case calldatacopy =>
    have hlength : x.before.evm.memory.length < 2 ^ 37 := by
      by_contra hlong
      have hwords : 2 ^ 32 ≤ divCeil x.before.evm.memory.length 32 := by
        unfold divCeil
        omega
      have hsquare := Nat.mul_le_mul hwords hwords
      have hs : divCeil x.before.evm.memory.length 32 * divCeil x.before.evm.memory.length 32 < 2 ^ 63 := hs
      omega
    exact hgoes (fun _ _ hp => hp.shapes) ((wp_of_ok h).1 (wp_opCalldatacopy_shapes hop hlength))
  case codecopy => exact hgoes (fun _ _ hp => hp.shapes) ((wp_of_ok h).1 (wp_opCodecopy_shapes hop))
  case extcodecopy => exact hgoes (fun _ _ hp => hp.shapes) ((wp_of_ok h).1 (wp_opExtcodecopy_shapes hop))
  case returndatacopy => exact hgoes (fun _ _ hp => hp.shapes) ((wp_of_ok h).1 (wp_opReturndatacopy_shapes hop))
  case return_ => exact opReturn_leaves (.inl hop) h
  case revert => exact opReturn_leaves (.inr hop) h
  all_goals simp [Op.shapes, Op.isCall] at hshapes hcall

/-- Settling a turn leaves the memory as its instruction made it. -/
theorem executeStep_leaves {t : Machine T} (hs : Boundary x.scope x.before)
    (h : executeStep exec x.scope x.instruction x.before = .ok none t) : Leaves x t := by
  obtain ⟨cost, u, hu, hgoes⟩ := executeStep_goes h
  obtain ⟨cost', u', hu', hret⟩ := executeStep_ret h
  rw [hu] at hu'
  cases hu'
  have hleaves : Leaves x u := executeInstruction_leaves hs.exact.small hu
  have hmemory : t.evm.memory = u.evm.memory := by rw [hgoes.evm]
  constructor
  · rw [hmemory, hret]
    exact hleaves.image
  · rw [hmemory]
    exact hleaves.length

end

/-! ## A run -/

/-- A view of a frame's state: what it is in a new frame, and after each step. -/
structure Finding (T α : Type) where
  view : Machine T → α
  fresh : α
  step : Step T → α → α
  call : Step T → Option (Ended T) → α → α

omit [Crypto] [EventTracer T] in
/-- Every step of the tree finds what the steps of its frame before it left. -/
def History.Finds {α : Type} (ν : Finding T α) : History T → α → Prop
  | done, _ | cut, _ => True
  | step x rest, a => ν.view x.before = a ∧ rest.Finds ν (ν.step x a)
  | call x _ _ _ callee ended rest, a =>
    ν.view x.before = a ∧ callee.Finds ν ν.fresh ∧ rest.Finds ν (ν.call x ended a)

/-- One step leaves what it is to leave. -/
structure Finding.Lawful {α : Type} (ν : Finding T α) : Prop where
  fresh : ∀ s : Machine T, s.evm.memory = [] → ν.view s = ν.fresh
  enters : ∀ {sc : Scope} {s t : Machine T}, enterFrame sc s = .ok ⟨⟩ t → ν.view t = ν.view s
  steps : ∀ {fuel : Nat} {x : Step T} {t : Machine T}, Boundary x.scope x.before →
    executeStep (executeWithContext fuel) x.scope x.instruction x.before = .ok none t →
      openedFrame x.scope x.instruction x.before = none → ν.view t = ν.step x (ν.view x.before)
  calls : ∀ {fuel : Nat} {x : Step T} {t opened : Machine T} {inner : Inner T} {pending : Pending},
    Boundary x.scope x.before → executeStep (executeWithContext fuel) x.scope x.instruction x.before = .ok none t →
      openedFrame x.scope x.instruction x.before = some (inner, pending, opened) →
        ν.view t = ν.call x (ended (executeWithContext fuel inner.scope (inner.machine opened.ext))) (ν.view x.before)

section

variable {α : Type} {ν : Finding T α} (hν : ν.Lawful)

include hν

theorem frame_finds {loop : Exec T} {hloop : Scope → Machine T → History T} {sc : Scope} {s t : Machine T} {ret : Bytes}
    (hloops : ∀ u, Boundary sc u → loop sc u = .ok ret t → (hloop sc u).Finds ν (ν.view u))
    (hs : Boundary sc s) (hrun : frameWith loop sc s = .ok ret t) : (frameHistory hloop sc s).Finds ν (ν.view s) := by
  obtain ⟨u, he, ⟨-, hh, -⟩ | ⟨-, hh, hloop⟩⟩ := frameWith_ok hloop hrun
  · rw [hh]
    trivial
  · rw [hh, ← hν.enters he]
    exact hloops u (hs.enter he) hloop

/-- The node of a turn that came through, before the history of the turns after it. -/
theorem finds_node {fuel : Nat} {x : Step T} {o : Option Bytes} {u : Machine T} {rest : History T}
    (hs : Boundary x.scope x.before)
    (hstep : executeStep (executeWithContext fuel) x.scope x.instruction x.before = .ok o u)
    (hrest : ∀ a, (o = none → a = ν.view u) → rest.Finds ν a)
    (hinner : ∀ (sc : Scope) (s : Machine T) (ret : Bytes) (t : Machine T), Boundary sc s →
      executeWithContext fuel sc s = .ok ret t → (history fuel sc s).Finds ν (ν.view s)) :
    (historyNode (executeWithContext fuel) (history fuel) x rest).Finds ν (ν.view x.before) := by
  have hturned : Turned (executeWithContext fuel) (history fuel) x o u :=
    (wp_of_ok hstep).1 (wp_executeStep (tracks_run fuel) hs.stack)
  cases hopened : openedFrame x.scope x.instruction x.before with
  | none =>
    rw [historyNode, hopened]
    refine ⟨rfl, hrest _ fun ho => ?_⟩
    subst ho
    exact (hν.steps hs hstep hopened).symm
  | some opening =>
    obtain ⟨inner, pending, opened⟩ := opening
    obtain ⟨ret, m, hrun, -⟩ := hturned.closed hopened
    have hcallee := hinner _ _ _ _ (boundary_inner hopened) hrun
    have hempty : (inner.machine opened.ext).evm.memory = [] := by
      rw [Inner.machine, (opens_of_openedFrame hopened).fresh.evm]
    rw [hν.fresh _ hempty] at hcallee
    rw [historyNode, hopened]
    refine ⟨rfl, hcallee, hrest _ fun ho => ?_⟩
    subst ho
    exact (hν.calls hs hstep hopened).symm

/-- By induction on the bound: the step and the frame it opens, then the turns after it. -/
theorem loop_finds (fuel : Nat) : ∀ (sc : Scope) (s : Machine T) (ret : Bytes) (t : Machine T), Boundary sc s →
    executeLoop fuel sc s = .ok ret t → (historyLoop fuel sc s).Finds ν (ν.view s) := by
  induction fuel with
  | zero => exact fun _ _ _ _ _ hrun => by cases hrun
  | succ fuel ih =>
    intro sc s ret t hs hrun
    cases hi : currentInstruction sc s.evm with
    | none =>
      rw [historyLoop_done hi]
      trivial
    | some instruction =>
      rw [executeLoop_step hi] at hrun
      rw [historyLoop_step hi]
      have hinner : ∀ sc s ret t, Boundary sc s → executeWithContext fuel sc s = .ok ret t →
          (history fuel sc s).Finds ν (ν.view s) := fun sc s ret t hs hrun =>
        frame_finds hν (fun u hu hl => ih _ u _ _ hu hl) hs hrun
      cases hstep : executeStep (executeWithContext fuel) sc instruction s with
      | error f u =>
        rw [hstep] at hrun
        cases hrun
      | ok o u =>
        rw [hstep] at hrun
        cases o with
        | none =>
          refine finds_node hν (x := ⟨sc, instruction, s⟩) hs hstep (fun a ha => ?_) hinner
          rw [ha rfl]
          exact ih _ _ _ _ (hs.turn hi hstep).1 hrun
        | some out => exact finds_node hν (x := ⟨sc, instruction, s⟩) hs hstep (fun _ _ => trivial) hinner

theorem run_finds {fuel : Nat} {sc : Scope} {s t : Machine T} {ret : Bytes} (hs : Boundary sc s)
    (hrun : executeWithContext fuel sc s = .ok ret t) : (history fuel sc s).Finds ν (ν.view s) :=
  frame_finds hν (fun u hu hl => loop_finds hν fuel _ u _ _ hu hl) hs hrun

/-- The top frame of a transaction is new. -/
theorem Runner.apply_finds {fuel : Nat} {r : Runner} {ext ext' : Ext} {result : CallResult T}
    (h : r.apply fuel ext = .ok result ext') :
    ∃ sc s, r.topFrame ext = some (sc, s) ∧ (history fuel sc (s : Machine T)).Finds ν ν.fresh := by
  obtain ⟨sc, s, ret, t, htop, hrun⟩ := apply_topFrame h
  have hidle := topFrame_idle htop
  have hfinds := run_finds hν (hidle.unused.boundary hidle.pc) hrun
  rw [hν.fresh _ hidle.memory] at hfinds
  exact ⟨sc, s, htop, hfinds⟩

end

/-! ## The array -/

omit [EventTracer T] in
/-- The array that a frame's own steps wrote. -/
def contents : Finding T (Nat → UInt8) where
  view s := image 0 s.evm.memory
  fresh _ := 0
  step x := x.wrote (x.buffered x.before.exe.ret)
  call x ended := x.wrote (x.handed ended x.before.exe.ret)

theorem contents_lawful : (contents (T := T)).Lawful where
  fresh s h := by
    show image 0 s.evm.memory = _
    rw [h]
    exact image_nil 0
  enters h := (overlooks_imaging.enterFrame _).ok h
  steps {fuel} x t hs hstep hopened := by
    obtain ⟨cost, v, hv, hret⟩ := executeStep_ret hstep
    refine (executeStep_leaves hs hstep).image.trans ?_
    rw [hret, executeInstruction_buffered hv hopened]
    rfl
  calls {fuel} x t opened inner pending hs hstep hopened := by
    refine (executeStep_leaves hs hstep).image.trans ?_
    rw [executeStep_handed hs.stack hopened hstep]
    rfl

/-- Memory is an endless array of zeros that only its own frame writes, in every frame of a
    transaction. -/
theorem Runner.apply_remembers {fuel : Nat} {r : Runner} {ext ext' : Ext} {result : CallResult T}
    (h : r.apply fuel ext = .ok result ext') :
    ∃ sc s, r.topFrame ext = some (sc, s) ∧ (history fuel sc (s : Machine T)).Finds contents fun _ => 0 :=
  Runner.apply_finds contents_lawful h

/-! ## The length -/

omit [Crypto] [EventTracer T] in
/-- The length that a frame's own steps grew the memory to. -/
def extent : Finding T Nat where
  view s := s.evm.memory.length
  fresh := 0
  step x n := grownTo n x.reach
  call x _ n := grownTo n x.reach

theorem extent_lawful : (extent (T := T)).Lawful where
  fresh s h := by
    show s.evm.memory.length = 0
    rw [h]
    rfl
  enters {sc s t} h := by
    have hlength : t.evm.memory.length = s.evm.memory.length := (writes_measuring.enterFrame sc).ok h
    exact hlength
  steps hs hstep _ := (executeStep_leaves hs hstep).length
  calls hs hstep _ := (executeStep_leaves hs hstep).length

/-- A frame's memory is as long as the furthest range its own steps have named needs, in whole
    words, in every frame of a transaction. -/
theorem Runner.apply_stretches {fuel : Nat} {r : Runner} {ext ext' : Ext} {result : CallResult T}
    (h : r.apply fuel ext = .ok result ext') :
    ∃ sc s, r.topFrame ext = some (sc, s) ∧ (history fuel sc (s : Machine T)).Finds extent 0 :=
  Runner.apply_finds extent_lawful h

end

namespace Sample

/-- 0xaa stores a word, takes a byte of what 0xbb returns into it, and loads it. -/
def taking : Ext where
  state := (machine [(0xca, 1000000, []),
    (0xaa, 0, [0x60, 7, 0x5f, 0x52, 0x60, 1, 0x5f, 0x5f, 0x5f, 0x5f, 0x60, 0xbb, 0x61, 0xff, 0xff, 0xf1, 0x5f, 0x51]),
    (0xbb, 0, [0x60, 9, 0x5f, 0x53, 0x60, 1, 0x5f, 0xf3])]).ext.state
  txCtx := { gasPrice := 1 }

end Sample

open Sample

/-- Both frames find what they wrote. -/
theorem Runner.apply_remembers_taking : ∃ (result : CallResult NoopTracer) (ext' : Ext) (sc : Scope)
    (s : Machine NoopTracer), (transaction []).apply 24 taking = .ok result ext' ∧
      (transaction []).topFrame taking = some (sc, s) ∧ result.evm.stack = [9 * 2 ^ 248 + 7, 1] ∧
      (history 24 sc s).Finds contents fun _ => 0 := by
  have hrun : returns ((transaction []).apply (T := NoopTracer) 24 taking) (fun result _ =>
      decide (result.evm.stack = [9 * 2 ^ 248 + 7, 1])) := by decide +kernel
  obtain ⟨result, ext', h, hp⟩ := of_returns hrun
  obtain ⟨sc, s, htop, hfinds⟩ := Runner.apply_remembers h
  exact ⟨result, ext', sc, s, h, htop, of_decide_eq_true hp, hfinds⟩

/-- Both frames find their memory as long as they made it. -/
theorem Runner.apply_stretches_taking : ∃ (result : CallResult NoopTracer) (ext' : Ext) (sc : Scope)
    (s : Machine NoopTracer), (transaction []).apply 24 taking = .ok result ext' ∧
      (transaction []).topFrame taking = some (sc, s) ∧ result.evm.memory.length = 32 ∧
      (history 24 sc s).Finds extent 0 := by
  have hrun : returns ((transaction []).apply (T := NoopTracer) 24 taking) (fun result _ =>
      decide (result.evm.memory.length = 32)) := by decide +kernel
  obtain ⟨result, ext', h, hp⟩ := of_returns hrun
  obtain ⟨sc, s, htop, hfinds⟩ := Runner.apply_stretches h
  exact ⟨result, ext', sc, s, h, htop, of_decide_eq_true hp, hfinds⟩

end Solenoid
