/-
  Solenoid.Replies — the call-type instructions that open no frame: a call to a precompile.

  `Step.input` is the memory the call passes. `Replied`: the precompile's output is the new
  return buffer and 1 is pushed, or it fails, 0 is pushed and the buffer stays.
-/
import Solenoid.Refinement

namespace Solenoid

open Hoare

variable {T : Type} {s : Machine T}

/-! ## What only reads accounts -/

/-- Only the accounts and the touch list change. -/
def touching : Frame Fault (Machine T) where
  ok s t := t.exe = s.exe ∧ t.evm = { s.evm with touches := t.evm.touches }
  err _ _ _ := True
  refl _ := ⟨rfl, rfl⟩
  trans h h' := ⟨h'.1.trans h.1, h'.2.trans (by rw [h.2])⟩
  fail _ _ := trivial

theorem touching_onExt {α : Type} (m : Run Ext α) : Keeps touching (onExt m : M T α) := fun _ =>
  (wp_onExt m).2 (wp_def.2 ⟨fun _ _ _ => ⟨rfl, rfl⟩, fun _ _ _ => trivial⟩)

theorem touching_touch (τ : AccountTouch) : Keeps touching (touch τ : M T Unit) := fun _ => (wp_touch τ).2 ⟨rfl, rfl⟩

theorem touching_addressAccessCost (a : Address) : Keeps touching (addressAccessCost a : M T Int) := by
  refine .ite (fun _ => .pure _) fun _ => ?_
  refine (touching_onExt _).bind fun _ => ?_
  refine .ite (fun _ => ?_) fun _ => .pure _
  refine (touching_touch _).bind fun _ => ?_
  exact .pure _

section

variable [Crypto]

theorem touching_touchCode (a : Address) : Keeps touching (touchCode a : M T (Bytes × Word)) :=
  (touching_onExt _).bind fun _ => (touching_touch _).bind fun _ => .pure _

theorem touching_callCreateCost (a : CallArgs) : Keeps touching (callCreateCost a : M T Int) :=
  .ite (fun _ => .pure _) fun _ => (touching_onExt _).bind fun _ => .pure _

theorem touching_callTarget (address : Address) : Keeps touching (callTarget address : M T Target) := by
  refine (touching_touchCode _).bind fun code => ?_
  refine (touching_addressAccessCost _).bind fun _ => ?_
  cases delegation code.1 with
  | none => exact .pure _
  | some target => exact (touching_touchCode _).bind fun _ => (touching_addressAccessCost _).bind fun _ => .pure _

end

/-! ## Memory that grows -/

/-- Zeros were appended. -/
def Grown (b b' : Bytes) : Prop := ∃ n, b' = b ++ List.replicate n 0

namespace Grown

variable {b b' : Bytes}

theorem refl (b : Bytes) : Grown b b := ⟨0, by simp⟩

/-- What is read of grown memory is the old memory, extended by zeros. -/
theorem slice {start till : Nat} {out : Bytes} (h : Grown b b') (hs : slice b' start till = .ok out) :
    out = window b start (till - start) := by
  obtain ⟨n, rfl⟩ := h
  obtain ⟨hle, hlen, rfl⟩ := slice_ok hs
  simp only [List.length_append, List.length_replicate] at hlen
  simp only [window, List.drop_append, List.drop_replicate, List.take_append, List.take_replicate, List.length_take,
    List.length_drop]
  congr 2
  omega

end Grown

theorem grown_resize {b b' : Bytes} {n : Nat} (hn : b.length ≤ n) (h : resize b n = .ok b') : Grown b b' := by
  unfold resize at h
  split at h
  · cases h
    exact ⟨n - b.length, by rw [List.take_of_length_le hn]⟩
  · cases h

/-- Expansion grows the memory. -/
theorem wp_expandTo {Q : Unit → Machine T → Prop} (till : Nat)
    (h : ∀ memory, Grown s.evm.memory memory → till ≤ memory.length → Q () { s with evm.memory := memory }) :
    wp (expandTo till) Q (fun _ _ => True) s := by
  simp only [expandTo, growTo, wp_bind, wp_get, wp_ite, wp_refuse, wp_lift, wp_modify, wp_pure, implies_true, and_true]
  refine ⟨fun hlt => ⟨trivial, fun _ memory hm => h memory (grown_resize (by omega) hm) ?_⟩, fun hle => ?_⟩
  · unfold resize at hm
    split at hm
    · cases hm
      simp
      omega
    · cases hm
  · exact h s.evm.memory (.refl _) (by omega)

/-! ## The operands of a call -/

/-- Where the range of the arguments stands among the operands. -/
def Op.argsAt : Op → Nat
  | .call | .callcode => 3
  | _ => 2

/-- The memory a message call passes, extended by zeros. -/
def Step.input (x : Step T) : Bytes :=
  window x.before.evm.memory (x.operand x.op.argsAt).toNat (x.operand (x.op.argsAt + 1)).toNat

theorem callArgs_range {x : Step T} (hop : x.op.isMessageCall) {a : CallArgs} {t : Machine T}
    (h : callArgs (x.scope.inContext x.op) x.before = .ok a t) :
    a.argsOffset = (x.operand x.op.argsAt).toNat ∧ a.argsSize = (x.operand (x.op.argsAt + 1)).toNat := by
  suffices hw : wp (callArgs (x.scope.inContext x.op)) (fun a _ => a.argsOffset = (x.operand x.op.argsAt).toNat ∧
      a.argsSize = (x.operand (x.op.argsAt + 1)).toNat) (fun _ _ => True) x.before from (of_ok hw h :)
  have hmoves : (x.scope.inContext x.op).ctx.movesValue = decide (x.op = .call ∨ x.op = .callcode) :=
    movesValue_callContext _ hop
  simp only [callArgs, popValue, popUsize, wp_bind, wp_pop, wp_ite, wp_pure, wp_lift, implies_true, and_true]
  intro w₀ r₀ h₀ w₁ r₁ h₁
  subst h₁
  refine ⟨fun hm w₂ r₂ h₂ w₃ r₃ h₃ n₃ hn₃ w₄ r₄ h₄ n₄ hn₄ w₅ r₅ h₅ _ _ w₆ r₆ h₆ _ _ => ?_,
    fun hm w₃ r₃ h₃ n₃ hn₃ w₄ r₄ h₄ n₄ hn₄ w₅ r₅ h₅ _ _ w₆ r₆ h₆ _ _ => ?_⟩
  · have hat : x.op.argsAt = 3 := by
      rcases (by simpa [hmoves] using hm : x.op = .call ∨ x.op = .callcode) with h | h <;> rw [h] <;> rfl
    subst h₂ h₃ h₄
    obtain rfl := asUsize_ok hn₃
    obtain rfl := asUsize_ok hn₄
    simp [Step.operand, hat, h₀]
  · have hat : x.op.argsAt = 2 := by
      have hnot : ¬(x.op = .call ∨ x.op = .callcode) := by simpa [hmoves] using hm
      unfold Op.argsAt
      split <;> simp_all
    subst h₃ h₄
    obtain rfl := asUsize_ok hn₃
    obtain rfl := asUsize_ok hn₄
    simp [Step.operand, hat, h₀]

/-! ## What a precompile replies -/

/-- A call to a precompile that went through. -/
inductive Replied (x : Step T) [Crypto] (u : Machine T) : Prop
  | output {out : Bytes} (h : Precompiles.execute x.target x.input = .ok out) (ret : u.exe.ret = out)
      (head : u.evm.stack.head? = some 1)
  | failed {r : Report} (h : Precompiles.execute x.target x.input = .error (.report r))
      (ret : u.exe.ret = x.before.exe.ret) (head : u.evm.stack.head? = some 0)

variable [Crypto] [EventTracer T]

omit [Crypto] [EventTracer T] in
theorem wp_callData_window (a : CallArgs) {m : Bytes} (hm : Grown m s.evm.memory) :
    wp (callData a) (fun data t => t = s ∧ data = window m a.argsOffset a.argsSize) (fun _ _ => True) s := by
  simp only [callData, readMemory, wp_ite, wp_bind, wp_get, wp_lift, wp_pure, implies_true, and_true, true_and]
  refine ⟨fun _ data hd => ?_, fun hsize => ?_⟩
  · rw [hm.slice hd, Nat.add_sub_cancel_left]
  · rw [Nat.le_zero.1 (not_lt.1 hsize)]
    simp [window]

theorem wp_callPrecompile (sc : Scope) (instruction : Instruction) (a : CallArgs) (data : Bytes) (traceCost : Int) :
    wp (callPrecompile sc instruction a data traceCost) (fun _ t =>
      (∃ out, Precompiles.execute a.address data = .ok out ∧ t.exe.ret = out ∧ t.evm.stack.head? = some 1) ∨
      (∃ r, Precompiles.execute a.address data = .error (.report r) ∧ t.exe.ret = s.exe.ret ∧
        t.evm.stack.head? = some 0)) (fun _ _ => True) s := by
  unfold callPrecompile
  rw [wp_bind]
  have hrun : wp (runPrecompile a.address data) (fun result t =>
      (∃ out, Precompiles.execute a.address data = .ok out ∧ t.exe.ret = out ∧ result = 1) ∨
      (∃ r, Precompiles.execute a.address data = .error (.report r) ∧ t.exe.ret = s.exe.ret ∧ result = 0))
      (fun _ _ => True) s := by
    unfold runPrecompile
    split
    · next out h =>
      rw [wp_bind, wp_setRet, wp_pure]
      exact .inl ⟨out, h, rfl, rfl⟩
    · next r h => exact (wp_pure _).2 (.inr ⟨r, h, rfl, rfl⟩)
    · exact (wp_throw _).2 trivial
  refine wp_mono hrun (fun result t ht => ?_) fun _ _ _ => trivial
  simp only [emitCall, readMemory, writeMemory, takeGas, Evm.takeGas, wp_bind, wp_get, wp_emit, wp_lift, wp_modify, wp_push,
    wp_onEvm, wp_ite, wp_pure, Solenoid.wp_error, implies_true, and_true]
  refine fun _ _ memory _ _ _ => ?_
  rcases ht with ⟨out, hout, hret, rfl⟩ | ⟨r, hr, hret, rfl⟩
  · exact .inl ⟨out, hout, hret, rfl⟩
  · exact .inr ⟨r, hr, hret, rfl⟩

theorem wp_callOpen_replied (x : Step T) (hop : x.op.isMessageCall) :
    wp (callOpen (x.scope.inContext x.op) x.instruction)
      (fun o t => match o with
        | .done _ => Replied x t
        | .frame .. => True) (fun _ _ => True) x.before := by
  unfold callOpen
  rw [wp_bind]
  refine wp_def.2 ⟨fun a s₀ hargs => ?_, fun _ _ _ => trivial⟩
  have hrange := callArgs_range hop hargs
  have htakes := callArgs_ok _ hargs
  obtain ⟨rest, rfl, -⟩ := htakes.rest
  have htarget : a.address = x.target := htakes.address
  simp only [callMemory, bind_assoc, wp_bind, wp_lift, implies_true, and_true]
  intro argsMax _ retMax _
  refine wp_expandTo _ fun memory hgrown _ => ?_
  simp only [memoryExpansionCost, Evm.memoryExpansionCost, wp_onEvm, wp_bind, wp_get, wp_lift, wp_set, wp_pure,
    implies_true, and_true]
  intro cost _
  refine (touching_callCreateCost a).run (fun _ _ _ => trivial) fun create t _ ht => ?_
  refine (touching_callTarget a.address).step (fun _ _ _ => trivial) fun target u _ hu => ?_
  have hu := touching.trans ht hu
  rw [wp_bind, wp_remaining, wp_ite]
  refine ⟨fun _ => ?_, fun _ => ?_⟩
  · exact wp_mono (wp_callOutOfGas (P := fun _ => True) _ _) (fun _ _ h => h.elim) fun _ _ _ => trivial
  · have hmemory : Grown x.before.evm.memory u.evm.memory := by
      rw [hu.2]
      exact hgrown
    unfold callEnter
    rw [wp_bind]
    refine wp_mono (wp_callData_window a hmemory) (fun data v hv => ?_) fun _ _ _ => trivial
    obtain ⟨rfl, rfl⟩ := hv
    rw [wp_ite]
    refine ⟨fun _ => ?_, fun _ => ?_⟩
    · rw [wp_bind]
      refine wp_mono (wp_callPrecompile _ _ a _ _) (fun _ w hw => (wp_pure _).2 ?_) fun _ _ _ => trivial
      have hret : v.exe.ret = x.before.exe.ret := by rw [hu.1]
      rw [htarget, hrange.1, hrange.2] at hw
      rcases hw with ⟨out, hout, hret', hhead⟩ | ⟨r, hr, hret', hhead⟩
      · exact .output hout hret' hhead
      · exact .failed hr (hret'.trans hret) hhead
    · rw [wp_bind]
      refine wp_def.2 ⟨fun _ w _ => ?_, fun _ _ _ => trivial⟩
      rw [wp_bind, wp_emit, wp_bind]
      exact wp_def.2 ⟨fun _ _ _ => (wp_pure _).2 trivial, fun _ _ _ => trivial⟩

/-! ## Instructions that went through -/

variable {exec : Exec T} {x : Step T}

omit [Crypto] [EventTracer T] in
/-- `caught` lets a result through, and nothing else is a cost. -/
theorem caught_ok {m : M T Int} {cost : Int} {u : Machine T} (h : caught m s = .ok (.ok cost) u) :
    ∃ gas v, m s = .ok gas v ∧ u = { v with evm.pc := v.evm.pc + 1 } := by
  unfold caught at h
  cases hm : m s with
  | ok gas v =>
    rw [hm] at h
    cases h
    exact ⟨_, v, rfl, rfl⟩
  | error f v =>
    rw [hm] at h
    cases f <;> cases h

/-- A call-type instruction that went through: its checks passed and so did its frame. -/
theorem executeInstruction_callFrame (hcall : x.op.isCall) {cost : Int} {u : Machine T}
    (h : executeInstruction exec x.scope x.instruction x.before = .ok (.ok cost) u) :
    guardStatic x.scope x.instruction x.before = .ok ⟨⟩ x.before ∧
      ∃ gas v, callFrame exec x.scope x.instruction x.before = .ok gas v ∧ u = { v with evm.pc := v.evm.pc + 1 } := by
  rw [executeInstruction_call hcall] at h
  unfold opCall at h
  rcases guardStatic_cases x.scope x.instruction x.before with ⟨r, hr⟩ | ⟨hg, -⟩
  · simp only [bind, EStateM.bind, hr] at h
    cases h
  · simp only [bind, EStateM.bind, hg] at h
    refine ⟨hg, ?_⟩
    have hcreate : EStateM.bind (callFrame exec x.scope x.instruction) (fun gas => next gas) x.before =
        .ok (.ok cost) u →
        ∃ gas v, callFrame exec x.scope x.instruction x.before = .ok gas v ∧ u = { v with evm.pc := v.evm.pc + 1 } := by
      intro hn
      unfold EStateM.bind at hn
      cases hc : callFrame exec x.scope x.instruction x.before with
      | ok gas v =>
        rw [hc] at hn
        cases hn
        exact ⟨_, v, rfl, rfl⟩
      | error f v =>
        rw [hc] at hn
        cases hn
    cases hop : x.instruction.op with
    | create | create2 =>
      rw [hop] at h
      exact hcreate h
    | _ =>
      rw [hop] at h
      exact caught_ok h

/-- One that opened no frame was answered by a precompile. -/
theorem executeInstruction_unopened (hcall : x.op.isCall) {cost : Int} {u : Machine T}
    (h : executeInstruction exec x.scope x.instruction x.before = .ok (.ok cost) u)
    (hnone : openedFrame x.scope x.instruction x.before = none) :
    x.op.isMessageCall ∧ Precompiles.isPrecompile x.target = true ∧ Replied x u ∧
      Acts (Effect.isRead ·) x.before.trail u.trail := by
  obtain ⟨hg, gas, v, hframe, rfl⟩ := executeInstruction_callFrame hcall h
  unfold callFrame at hframe
  simp only [bind, EStateM.bind] at hframe
  cases ho : openFrame x.scope x.instruction x.before with
  | error f t => simp [ho] at hframe
  | ok o t =>
    rw [openedFrame_ok hcall hg ho] at hnone
    cases o with
    | frame inner pending => cases hnone
    | done gas' =>
      rw [ho] at hframe
      cases hframe
      rcases Op.isCall_cases hcall with hop | hop
      · rw [openFrame_message hop] at ho
        obtain ⟨hanswered, hp⟩ := (wp_of_ok ho).1 (wp_callOpen x hop)
        refine ⟨hop, hp, ?_, hanswered.trail⟩
        cases (wp_of_ok ho).1 (wp_callOpen_replied x hop) with
        | output hout hret hhead => exact .output hout hret hhead
        | failed hr hret hhead => exact .failed hr hret hhead
      · have hstatic : x.scope.ctx.callType ≠ .static := by
          intro hst
          rcases guardStatic_cases x.scope x.instruction x.before with ⟨r, hr⟩ | ⟨-, hno⟩
          · rw [hr] at hg
            cases hg
          · exact hop.elim (hno hst).1 (hno hst).2.1
        rw [openFrame_creation hop] at ho
        exact ((wp_of_ok ho).1 (wp_createOpen x hop hstatic)).elim

/-- The frame of one that opened it came back. -/
theorem executeInstruction_ran {inner : Inner T} {pending : Pending} {opened : Machine T}
    (hopened : openedFrame x.scope x.instruction x.before = some (inner, pending, opened)) {cost : Int} {u : Machine T}
    (h : executeInstruction exec x.scope x.instruction x.before = .ok (.ok cost) u) :
    ∃ ret m, exec inner.scope (inner.machine opened.ext) = .ok ret m := by
  obtain ⟨hcall, -, ho⟩ := openedFrame_some hopened
  obtain ⟨-, gas, v, hframe, -⟩ := executeInstruction_callFrame hcall h
  unfold callFrame at hframe
  simp only [bind, EStateM.bind, ho, runInner] at hframe
  cases hrun : exec inner.scope (inner.machine opened.ext) with
  | ok ret m => exact ⟨ret, m, rfl⟩
  | error f m =>
    rw [Inner.machine] at hrun
    simp [hrun] at hframe

end Solenoid
