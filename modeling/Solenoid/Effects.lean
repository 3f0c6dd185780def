/-
  Solenoid.Effects — the effects of every instruction but the calls.

  First the wp of the machine's primitives and that they stay within no effect at all;
  then the instructions: those that only compute (`keeps`-lemmas named after them), those
  that read accounts, and the six that write.
-/
import Solenoid.Journal

namespace Solenoid

open Hoare

variable {T α : Type} {Q : α → Machine T → Prop} {E : Fault → Machine T → Prop} {s : Machine T}

/-! ## Weakest preconditions of the primitives -/

@[simp] theorem wp_onEvm (m : Run Evm α) :
    wp (onEvm m) Q E s ↔ wp m (fun a evm => Q a { s with evm }) (fun f evm => E f { s with evm }) s.evm := by
  simp only [wp_def, onEvm]
  cases m s.evm <;> simp

@[simp] theorem wp_onExt (m : Run Ext α) :
    wp (onExt m) Q E s ↔ wp m (fun a ext => Q a { s with ext }) (fun f ext => E f { s with ext }) s.ext := by
  simp only [wp_def, onExt]
  cases m s.ext <;> simp

@[simp] theorem wp_refuse (r : Report) : wp (refuse r : M T α) Q E s ↔ E (.report r) s := wp_throw _

/-- An exceptional halt: the frame stops as reverted, its gas spent. -/
def Evm.halt (e : Evm) : Evm :=
  { e with stopped := true, reverted := true, gas.used := e.gas.used + e.gas.remaining }

@[simp] theorem wp_error {Q : α → Evm → Prop} {E : Fault → Evm → Prop} {e : Evm} (r : Report) :
    wp (Evm.error r : Run Evm α) Q E e ↔ E (.report r) e.halt := by
  simp only [Evm.error, wp_bind, wp_modify, wp_throw, Evm.halt]

@[simp] theorem wp_evm_push {Q : Unit → Evm → Prop} {E : Fault → Evm → Prop} {e : Evm} (v : Word) :
    wp (Evm.push v) Q E e ↔ (e.stack.length < stackLimit → Q () { e with stack := v :: e.stack }) ∧
      (stackLimit ≤ e.stack.length → E (.report .stackOverflow) e.halt) := by
  simp only [Evm.push, wp_bind, wp_get, wp_ite, wp_error, wp_modify, not_le]
  exact and_comm

@[simp] theorem wp_evm_pop {Q : Word → Evm → Prop} {E : Fault → Evm → Prop} {e : Evm} :
    wp Evm.pop Q E e ↔ (∀ word rest, e.stack = word :: rest → Q word { e with stack := rest }) ∧
      (e.stack = [] → E (.report .stackUnderflow) e.halt) := by
  simp only [Evm.pop, wp_bind, wp_get]
  cases e.stack <;> simp

@[simp] theorem wp_push {Q : Unit → Machine T → Prop} (v : Word) :
    wp (push v) Q E s ↔
      (s.evm.stack.length < stackLimit → Q () { s with evm.stack := v :: s.evm.stack }) ∧
      (stackLimit ≤ s.evm.stack.length → E (.report .stackOverflow) { s with evm := s.evm.halt }) := by
  simp only [push, wp_onEvm, wp_evm_push]

@[simp] theorem wp_pop {Q : Word → Machine T → Prop} :
    wp pop Q E s ↔ (∀ word rest, s.evm.stack = word :: rest → Q word { s with evm.stack := rest }) ∧
      (s.evm.stack = [] → E (.report .stackUnderflow) { s with evm := s.evm.halt }) := by
  simp only [pop, wp_onEvm, wp_evm_pop]

@[simp] theorem wp_remaining {Q : Int → Machine T → Prop} : wp remaining Q E s ↔ Q s.evm.gas.remaining s := by
  simp only [remaining, wp_bind, wp_get, wp_pure]

@[simp] theorem wp_charged {Q : StepResult → Machine T → Prop} (gas : Int) (k : M T StepResult) :
    wp (charged gas k) Q E s ↔ (s.evm.gas.remaining < gas → Q (.halt gas) s) ∧
      (gas ≤ s.evm.gas.remaining → wp k Q E s) := by
  simp only [charged, wp_bind, wp_remaining, wp_ite, wp_pure, not_lt]

@[simp] theorem wp_next {Q : StepResult → Machine T → Prop} (gas : Int) :
    wp (next gas) Q E s ↔ Q (.ok gas) { s with evm.pc := s.evm.pc + 1 } := by
  simp only [next, wp_bind, wp_modify, wp_pure]

@[simp] theorem wp_touch {Q : Unit → Machine T → Prop} (τ : AccountTouch) :
    wp (touch τ) Q E s ↔ Q () { s with evm.touches := s.evm.touches ++ [τ] } := wp_modify _

@[simp] theorem wp_setRet {Q : Unit → Machine T → Prop} (ret : Bytes) :
    wp (setRet ret) Q E s ↔ Q () { s with exe.ret := ret } := wp_modify _

@[simp] theorem wp_emit [EventTracer T] {Q : Unit → Machine T → Prop} (depth : Nat) (reverted : Bool) (data : EventData) :
    wp (emit depth reverted data) Q E s ↔
      Q () { s with exe.tracer := EventTracer.push s.exe.tracer ⟨data, depth, reverted⟩ } := wp_modify _

theorem keeps_charged_of {F : Frame Fault (Machine T)} {gas : Int} {k : M T StepResult} (hk : Keeps F k) :
    Keeps F (charged gas k) :=
  Keeps.bind (Keeps.get.bind fun _ => .pure _) fun _ => .ite (fun _ => .pure _) fun _ => hk

/-! ## Primitives without effects -/

variable [Crypto] {P : Effect → Prop}

/-- A change the trail, the registers and the stack's bound do not see. -/
theorem Within.of_eq {t : Machine T} (ht : t.trail = s.trail) (hr : t.regs = s.regs)
    (hs : t.evm.stack.length ≤ s.evm.stack.length ∨ t.evm.stack.length ≤ stackLimit) : Within P s t :=
  ⟨by rw [ht]; exact .refl P _, hr, fun h => by omega⟩

theorem Failed.refl (P : Effect → Prop) (s : Machine T) : Failed P s s := ⟨.refl P _, rfl, rfl⟩

theorem failed_halt (P : Effect → Prop) (s : Machine T) : Failed P s { s with evm := s.evm.halt } :=
  ⟨.refl P _, rfl, rfl⟩

theorem within_modify {f : Machine T → Machine T} (ht : ∀ s, (f s).trail = s.trail) (hr : ∀ s, (f s).regs = s.regs)
    (hs : ∀ s, (f s).evm.stack.length ≤ s.evm.stack.length) :
    Keeps (within P) (modify f : M T Unit) := .modify fun s => .of_eq (ht s) (hr s) (.inl (hs s))

theorem keeps_lift (e : Except Fault α) : Keeps (within P) (lift e : M T α) := fun s =>
  (wp_lift e).2 ⟨fun _ _ => .refl P s, fun _ _ _ _ => .refl P s⟩

theorem keeps_refuse (r : Report) : Keeps (within P) (refuse r : M T α) := .throw fun s _ _ => .refl P s

theorem keeps_push (v : Word) : Keeps (within P) (push v : M T Unit) := fun s =>
  (wp_push v).2 ⟨fun h => .of_eq rfl rfl (.inr h), fun _ _ _ => failed_halt P s⟩

theorem keeps_pop : Keeps (within P) (pop : M T Word) := fun s =>
  wp_pop.2 ⟨fun word rest h => .of_eq rfl rfl (.inl (by simp [h])), fun _ _ _ => failed_halt P s⟩

theorem keeps_popUsize : Keeps (within P) (popUsize : M T Nat) := keeps_pop.bind fun _ => keeps_lift _

theorem keeps_error (r : Report) : Keeps (within P) (onEvm (Evm.error r) : M T α) := fun s =>
  (wp_onEvm _).2 <| (wp_error r).2 fun _ _ => failed_halt P s

theorem keeps_remaining : Keeps (within P) (remaining : M T Int) := fun s => wp_remaining.2 (.refl P s)

theorem keeps_charged {gas : Int} {k : M T StepResult} (hk : Keeps (within P) k) : Keeps (within P) (charged gas k) :=
  fun s => (wp_charged gas k).2 ⟨fun _ => .refl P s, fun _ => hk s⟩

theorem keeps_next (gas : Int) : Keeps (within P) (next gas : M T StepResult) := fun _ =>
  (wp_next gas).2 <| .of_eq rfl rfl (.inl le_rfl)

theorem keeps_emit [EventTracer T] (depth : Nat) (reverted : Bool) (data : EventData) :
    Keeps (within P) (emit depth reverted data : M T Unit) := .modify fun _ => .of_eq rfl rfl (.inl le_rfl)

theorem keeps_memoryExpansionCost : Keeps (within P) (memoryExpansionCost : M T Int) := fun s => by
  simp only [memoryExpansionCost, Evm.memoryExpansionCost, wp_onEvm, wp_bind, wp_get, wp_lift, wp_set, wp_pure]
  exact ⟨fun _ _ => .of_eq rfl rfl (.inl le_rfl), fun _ _ _ _ => .refl P s⟩

theorem keeps_growTo (till : Nat) : Keeps (within P) (growTo till : M T Unit) := fun s => by
  simp only [growTo, wp_bind, wp_get, wp_lift, wp_modify]
  exact ⟨fun _ _ => .of_eq rfl rfl (.inl le_rfl), fun _ _ _ _ => .refl P s⟩

theorem keeps_expandTo (till : Nat) : Keeps (within P) (expandTo till : M T Unit) :=
  Keeps.get.bind fun _ => .ite (fun _ => .ite (fun _ => keeps_refuse _) fun _ => keeps_growTo _) fun _ => .pure ()

theorem keeps_readMemory (start till : Nat) : Keeps (within P) (readMemory start till : M T Bytes) :=
  Keeps.get.bind fun _ => keeps_lift _

theorem keeps_writeMemory (start : Nat) (data : Bytes) : Keeps (within P) (writeMemory start data : M T Unit) :=
  fun s => by
    simp only [writeMemory, wp_bind, wp_get, wp_lift, wp_modify]
    exact ⟨fun _ _ => .of_eq rfl rfl (.inl le_rfl), fun _ _ _ _ => .refl P s⟩

/-! ## Instructions without effects -/

theorem keeps_pushing (gas : Int) (value : Machine T → Except Fault Word) :
    Keeps (within P) (pushing gas value : M T StepResult) := by
  apply keeps_charged
  refine Keeps.get.bind fun _ => ?_
  refine (keeps_lift _).bind fun _ => ?_
  refine (keeps_push _).bind fun _ => ?_
  exact keeps_next gas

theorem keeps_unary (gas : Int) (f : Word → Word) : Keeps (within P) (unary gas f : M T StepResult) :=
  keeps_charged <| keeps_pop.bind fun _ => (keeps_push _).bind fun _ => keeps_next gas

theorem keeps_binary {α : Type} (gas : Int) (conv : Word → Except Fault α) (f : α → Word → Except Fault Word) :
    Keeps (within P) (binary gas conv f : M T StepResult) := by
  apply keeps_charged
  refine keeps_pop.bind fun _ => ?_
  refine (keeps_lift _).bind fun _ => ?_
  refine keeps_pop.bind fun _ => ?_
  refine (keeps_lift _).bind fun _ => ?_
  refine (keeps_push _).bind fun _ => ?_
  exact keeps_next gas

theorem keeps_ternary (gas : Int) (f : Word → Word → Word → Except Fault Word) :
    Keeps (within P) (ternary gas f : M T StepResult) := by
  apply keeps_charged
  refine keeps_pop.bind fun _ => ?_
  refine keeps_pop.bind fun _ => ?_
  refine keeps_pop.bind fun _ => ?_
  refine (keeps_lift _).bind fun _ => ?_
  refine (keeps_push _).bind fun _ => ?_
  exact keeps_next gas

theorem keeps_opExp : Keeps (within P) (opExp : M T StepResult) := by
  refine keeps_pop.bind fun _ => ?_
  refine keeps_pop.bind fun _ => ?_
  apply keeps_charged
  refine (keeps_push _).bind fun _ => ?_
  exact keeps_next _

theorem keeps_opPop : Keeps (within P) (opPop : M T StepResult) :=
  keeps_charged <| keeps_pop.bind fun _ => keeps_next _

theorem keeps_opDup (instruction : Instruction) : Keeps (within P) (opDup instruction : M T StepResult) := by
  apply keeps_charged
  refine Keeps.get.bind fun s => ?_
  cases s.evm.stack[instruction.opcode.n.toNat - 1]? with
  | none => exact keeps_error _
  | some val => exact (keeps_push val).bind fun _ => keeps_next _

omit [Crypto] in
theorem swapTop_length {n : Nat} {stack stack' : List Word} (h : swapTop n stack = some stack') :
    stack'.length = stack.length := by
  unfold swapTop at h
  split at h
  · cases h
    simp
  · cases h

theorem keeps_opSwap (instruction : Instruction) : Keeps (within P) (opSwap instruction : M T StepResult) :=
  keeps_charged fun s => by
    rw [wp_bind, wp_get]
    cases h : swapTop instruction.opcode.n.toNat s.evm.stack with
    | none => exact keeps_error _ s
    | some stack =>
      simp only [wp_bind, wp_modify, wp_next]
      exact .of_eq rfl rfl (.inl (swapTop_length h).le)

theorem keeps_opBlobhash : Keeps (within P) (opBlobhash : M T StepResult) :=
  keeps_charged <| keeps_pop.bind fun _ => (keeps_push _).bind fun _ => keeps_next _

variable (sc : Scope)

theorem keeps_opCalldataload : Keeps (within P) (opCalldataload sc : M T StepResult) :=
  keeps_charged <| keeps_popUsize.bind fun _ => (keeps_push _).bind fun _ => keeps_next _

omit [Crypto] in
/-- A request for a block hash changes nothing. -/
theorem getBlockHash_ext {Q : Word → Ext → Prop} {E : Fault → Ext → Prop} {e : Ext} (number : Word)
    (hQ : ∀ w, Q w e) (hE : ∀ f, E f e) : wp (Ext.getBlockHash number) Q E e := by
  simp only [Ext.getBlockHash, wp_bind, wp_estate_get]
  cases e.remote with
  | none => exact (wp_pure _).2 (hQ _)
  | some remote => exact (wp_lift _).2 ⟨fun _ _ => hQ _, fun _ _ => hE _⟩

theorem keeps_opBlockhash : Keeps (within P) (opBlockhash : M T StepResult) := by
  apply keeps_charged
  refine keeps_pop.bind fun _ => ?_
  refine (Keeps.get.bind fun _ => .ite (fun _ => .pure _) fun _ => fun s =>
    (wp_onExt _).2 (getBlockHash_ext _ (fun _ => Within.refl P s) fun _ _ _ => Failed.refl P s)).bind fun _ => ?_
  refine (keeps_push _).bind fun _ => ?_
  exact keeps_next _

theorem keeps_jumpTo (gas : Int) (target : Option Nat) : Keeps (within P) (jumpTo gas target : M T StepResult) := by
  cases target with
  | none => exact .pure _
  | some dest =>
    refine Keeps.bind (within_modify ?_ ?_ ?_) fun _ => .pure _
    · exact fun _ => rfl
    · exact fun _ => rfl
    · exact fun _ => le_rfl

theorem keeps_opJump : Keeps (within P) (opJump sc : M T StepResult) :=
  keeps_charged <| keeps_popUsize.bind fun _ => keeps_jumpTo _ _

theorem keeps_opJumpi : Keeps (within P) (opJumpi sc : M T StepResult) := by
  apply keeps_charged
  refine keeps_popUsize.bind fun _ => ?_
  refine keeps_pop.bind fun _ => ?_
  exact .ite (fun _ => keeps_jumpTo _ _) fun _ => keeps_next _

theorem keeps_opJumpdest : Keeps (within P) (opJumpdest : M T StepResult) := keeps_charged (keeps_next 1)

theorem keeps_opSha3 [EventTracer T] : Keeps (within P) (opSha3 sc : M T StepResult) := by
  refine keeps_popUsize.bind fun _ => ?_
  refine keeps_popUsize.bind fun _ => ?_
  refine .ite (fun _ => ?_) fun _ => ?_
  · refine (keeps_lift _).bind fun _ => ?_
    exact keeps_refuse _
  · refine Keeps.get.bind fun _ => ?_
    refine (keeps_emit _ _ _).bind fun _ => ?_
    apply keeps_charged
    refine (keeps_push _).bind fun _ => ?_
    exact keeps_next _

theorem keeps_copySource (source : Bytes) (offset size : Nat) :
    Keeps (within P) (copySource source offset size : M T Bytes) :=
  (keeps_lift _).bind fun _ => .ite (fun _ => keeps_refuse _) fun _ => .pure _

theorem keeps_copyIn (source : Bytes) (destOffset offset size : Nat) :
    Keeps (within P) (copyIn source destOffset offset size : M T Unit) := by
  refine (keeps_lift _).bind fun _ => ?_
  refine (keeps_expandTo _).bind fun _ => ?_
  refine (keeps_copySource _ _ _).bind fun _ => ?_
  exact keeps_writeMemory _ _

theorem keeps_opCalldatacopy : Keeps (within P) (opCalldatacopy sc : M T StepResult) :=
  keeps_popUsize.bind fun _ => keeps_popUsize.bind fun _ => keeps_pop.bind fun _ =>
    have rest : ∀ _ : Unit, Keeps (within P) (_ : M T StepResult) := fun _ =>
      keeps_memoryExpansionCost.bind fun _ => keeps_next _
    .ite (fun _ => (keeps_copyIn _ _ _ _).bind rest) fun _ => rest ()

theorem keeps_opCodecopy : Keeps (within P) (opCodecopy sc : M T StepResult) := by
  refine keeps_popUsize.bind fun _ => ?_
  refine keeps_popUsize.bind fun _ => ?_
  refine keeps_popUsize.bind fun _ => ?_
  refine (keeps_copyIn _ _ _ _).bind fun _ => ?_
  refine keeps_memoryExpansionCost.bind fun _ => ?_
  exact keeps_next _

theorem keeps_opReturndatacopy : Keeps (within P) (opReturndatacopy : M T StepResult) := by
  refine keeps_popUsize.bind fun _ => ?_
  refine keeps_popUsize.bind fun _ => ?_
  refine keeps_popUsize.bind fun _ => ?_
  refine (keeps_lift _).bind fun _ => ?_
  refine (keeps_expandTo _).bind fun _ => ?_
  refine Keeps.get.bind fun _ => ?_
  refine (keeps_writeMemory _ _).bind fun _ => ?_
  refine keeps_memoryExpansionCost.bind fun _ => ?_
  exact keeps_next _

theorem keeps_opMload : Keeps (within P) (opMload : M T StepResult) := by
  refine keeps_popUsize.bind fun _ => ?_
  refine (keeps_lift _).bind fun _ => ?_
  refine (keeps_expandTo _).bind fun _ => ?_
  refine keeps_memoryExpansionCost.bind fun _ => ?_
  apply keeps_charged
  refine (keeps_readMemory _ _).bind fun _ => ?_
  refine (keeps_push _).bind fun _ => ?_
  exact keeps_next _

theorem keeps_opMstore : Keeps (within P) (opMstore : M T StepResult) := by
  refine keeps_popUsize.bind fun _ => ?_
  refine keeps_pop.bind fun _ => ?_
  refine (keeps_lift _).bind fun _ => ?_
  refine (keeps_expandTo _).bind fun _ => ?_
  refine keeps_memoryExpansionCost.bind fun _ => ?_
  apply keeps_charged
  refine (keeps_writeMemory _ _).bind fun _ => ?_
  exact keeps_next _

theorem keeps_expandAt (offset : Nat) : Keeps (within P) (expandAt offset : M T Unit) := by
  refine Keeps.get.bind fun _ => ?_
  refine .ite (fun _ => ?_) fun _ => .pure ()
  refine (keeps_lift _).bind fun _ => ?_
  exact keeps_expandTo _

theorem keeps_opMstore8 : Keeps (within P) (opMstore8 : M T StepResult) := by
  refine keeps_popUsize.bind fun _ => ?_
  refine keeps_pop.bind fun _ => ?_
  refine (keeps_expandAt _).bind fun _ => ?_
  refine keeps_memoryExpansionCost.bind fun _ => ?_
  apply keeps_charged
  refine (keeps_writeMemory _ _).bind fun _ => ?_
  exact keeps_next _

theorem keeps_mcopyGrow (destTill till : Nat) : Keeps (within P) (mcopyGrow destTill till : M T Unit) :=
  Keeps.get.bind fun _ => .ite (fun _ => .ite (fun _ => keeps_refuse _) fun _ => keeps_growTo _) fun _ => .pure ()

theorem keeps_opMcopy : Keeps (within P) (opMcopy : M T StepResult) := by
  refine keeps_popUsize.bind fun _ => ?_
  refine keeps_popUsize.bind fun _ => ?_
  refine keeps_popUsize.bind fun _ => ?_
  apply keeps_charged
  refine .ite (fun _ => keeps_next _) fun _ => ?_
  refine (keeps_lift _).bind fun _ => ?_
  refine (keeps_lift _).bind fun _ => ?_
  refine (keeps_mcopyGrow _ _).bind fun _ => ?_
  refine (keeps_readMemory _ _).bind fun _ => ?_
  refine keeps_memoryExpansionCost.bind fun _ => ?_
  apply keeps_charged
  refine (keeps_writeMemory _ _).bind fun _ => ?_
  exact keeps_next _

theorem keeps_opTload : Keeps (within P) (opTload sc : M T StepResult) := by
  apply keeps_charged
  refine keeps_pop.bind fun _ => ?_
  refine Keeps.get.bind fun _ => ?_
  refine (keeps_push _).bind fun _ => ?_
  exact keeps_next _

/-! ## Instructions that read accounts -/

omit [Crypto] in
theorem onExt_bind {β : Type} (m : Run Ext α) (f : α → Run Ext β) :
    (onExt (m >>= f) : M T β) = onExt m >>= fun a => onExt (f a) := by
  funext s
  simp only [onExt, bind, EStateM.bind]
  cases m s.ext <;> rfl

theorem keeps_account {β : Type} {a : Address} (f : Account → β) (hP : P (.load a)) :
    Keeps (within P) (onExt (do return f (← Ext.pull a)) : M T β) := fun s => by
  simp only [wp_onExt, wp_bind]
  refine wp_def.2 ⟨fun account e h => (wp_pure _).2 ⟨.one hP (.load h), rfl, id⟩, fun r e h => ?_⟩
  rw [Ext.pull_error h]
  exact fun _ _ => Failed.refl P s

theorem keeps_isEmpty {a : Address} (hP : P (.load a)) : Keeps (within P) (onExt (Ext.isEmpty a) : M T Bool) := by
  unfold Ext.isEmpty
  rw [onExt_bind]
  refine (keeps_account _ hP).bind fun _ => ?_
  rw [onExt_bind]
  refine (keeps_account _ hP).bind fun _ => ?_
  rw [onExt_bind]
  refine (keeps_account _ hP).bind fun _ => fun s => (wp_onExt _).2 ((wp_pure _).2 (Within.refl P s))

theorem keeps_touch {τ : AccountTouch} (hP : P (.note τ)) (hτ : τ.isReadOnly) :
    Keeps (within P) (touch τ : M T Unit) := .modify fun _ => ⟨.one hP (.note hτ), rfl, id⟩

/-- The effect journals what it adds to the access sets. -/
def Effect.isTidy : Effect → Bool
  | .warmStorage .. => false
  | .note (.getState _ _ _ isWarm) | .store _ _ _ _ isWarm => isWarm
  | _ => true

theorem keeps_touchCode {a : Address} (hP : ∀ e : Effect, e.isRead → e.isTidy → P e) :
    Keeps (within P) (touchCode a : M T (Bytes × Word)) := by
  refine (keeps_account _ (hP _ rfl rfl)).bind fun _ => ?_
  refine (keeps_touch (hP _ rfl rfl) rfl).bind fun _ => ?_
  exact .pure _

theorem keeps_warm {a : Address} {cold warm : M T α} (hP : P (.warmAddress a)) (hc : Keeps (within P) cold)
    (hw : Keeps (within P) warm) :
    Keeps (within P) (do if ← onExt (Ext.warmAddress a) then touch (.warmUp a); cold else warm) := fun s => by
  have hmem : (!Ext.isAddressWarm s.ext a) = true ↔ a ∉ s.ext.accessedAddresses := by simp [Ext.isAddressWarm]
  simp only [Ext.warmAddress, wp_bind, wp_onExt, wp_get, wp_set, wp_pure, wp_ite, wp_touch, hmem]
  refine ⟨fun ha => ?_, fun ha => ?_⟩
  · have hw : Within P s { s with
        ext.accessedAddresses := insert a s.ext.accessedAddresses
        evm.touches := s.evm.touches ++ [.warmUp a] } := ⟨.one hP (.warmAddress ha), rfl, id⟩
    exact wp_mono (hc _) (fun _ _ h => hw.trans h) fun _ _ h r hr => hw.failed (h r hr)
  · have he : insert a s.ext.accessedAddresses = s.ext.accessedAddresses := Finset.insert_eq_self.2 (not_not.1 ha)
    rw [he]
    exact hw s

theorem keeps_warmTouch {a : Address} (hP : P (.warmAddress a)) : Keeps (within P) (warmTouch a : M T Unit) := by
  have h := keeps_warm (T := T) hP (.pure ()) (.pure ())
  exact h

theorem keeps_addressAccessCost {a : Address} (hP : P (.warmAddress a)) :
    Keeps (within P) (addressAccessCost a : M T Int) :=
  .ite (fun _ => .pure _) fun _ => keeps_warm hP (.pure _) (.pure _)

section Reading

variable (hP : ∀ e : Effect, e.isRead → e.isTidy → P e)
include hP

theorem keeps_opBalance : Keeps (within P) (opBalance : M T StepResult) := by
  refine keeps_pop.bind fun _ => ?_
  refine (keeps_addressAccessCost (hP _ rfl rfl)).bind fun _ => ?_
  apply keeps_charged
  refine (keeps_account _ (hP _ rfl rfl)).bind fun _ => ?_
  refine (keeps_touch (hP _ rfl rfl) rfl).bind fun _ => ?_
  refine (keeps_push _).bind fun _ => ?_
  exact keeps_next _

theorem keeps_opSelfbalance : Keeps (within P) (opSelfbalance sc : M T StepResult) := by
  apply keeps_charged
  refine (keeps_account _ (hP _ rfl rfl)).bind fun _ => ?_
  refine (keeps_touch (hP _ rfl rfl) rfl).bind fun _ => ?_
  refine (keeps_push _).bind fun _ => ?_
  exact keeps_next _

theorem keeps_opExtcodesize : Keeps (within P) (opExtcodesize : M T StepResult) := by
  refine keeps_pop.bind fun _ => ?_
  refine (keeps_addressAccessCost (hP _ rfl rfl)).bind fun _ => ?_
  apply keeps_charged
  refine (keeps_touchCode hP).bind fun _ => ?_
  refine (keeps_push _).bind fun _ => ?_
  exact keeps_next _

theorem keeps_opExtcodecopy : Keeps (within P) (opExtcodecopy : M T StepResult) := by
  refine keeps_pop.bind fun _ => ?_
  refine keeps_popUsize.bind fun _ => ?_
  refine keeps_popUsize.bind fun _ => ?_
  refine keeps_popUsize.bind fun _ => ?_
  refine (keeps_touchCode hP).bind fun _ => ?_
  refine (keeps_copyIn _ _ _ _).bind fun _ => ?_
  refine keeps_memoryExpansionCost.bind fun _ => ?_
  refine (keeps_addressAccessCost (hP _ rfl rfl)).bind fun _ => ?_
  exact keeps_next _

theorem keeps_opExtcodehash : Keeps (within P) (opExtcodehash : M T StepResult) := by
  refine keeps_pop.bind fun _ => ?_
  refine (keeps_addressAccessCost (hP _ rfl rfl)).bind fun _ => ?_
  apply keeps_charged
  refine (keeps_touchCode hP).bind fun _ => ?_
  refine (keeps_isEmpty (hP _ rfl rfl)).bind fun _ => ?_
  refine (keeps_push _).bind fun _ => ?_
  exact keeps_next _

omit hP in
theorem keeps_peek1 : Keeps (within P) (onEvm Evm.peek1 : M T Word) := fun s => by
  simp only [Evm.peek1, wp_onEvm, wp_bind, wp_get]
  cases s.evm.stack with
  | nil => exact (wp_error _).2 fun _ _ => failed_halt P s
  | cons a rest => exact (wp_pure _).2 (Within.refl P s)

omit hP in
theorem keeps_warmSlot {key : Word} (hP : P (.warmStorage sc.this key)) :
    Keeps (within P) (warmSlot sc key : M T Bool) := by
  refine Keeps.get.bind fun _ => ?_
  refine .ite (fun _ => .pure _) fun _ => ?_
  refine Keeps.bind (fun _ => (wp_onExt _).2 ((wp_modify _).2 ⟨.one hP .warmStorage, rfl, id⟩)) fun _ => ?_
  exact .pure _

/-- A storage read that fails has loaded the account at most; it takes the gas. -/
theorem keeps_get (a : Address) (key : Word) : Keeps (within P) (orError (Ext.get a key) : M T Word) := fun s => by
  simp only [orError, wp_def]
  refine ⟨fun val t h => ?_, fun f t h r hr => ?_⟩
  · cases hg : Ext.get a key s.ext with
    | ok val e =>
      simp only [hg, EStateM.Result.ok.injEq] at h
      obtain ⟨rfl, rfl⟩ := h
      exact ⟨.one (hP _ rfl rfl) (.fetch hg), rfl, id⟩
    | error f e =>
      simp only [hg] at h
      cases f <;> cases h
  · cases hg : Ext.get a key s.ext with
    | ok val e => simp only [hg, reduceCtorEq] at h
    | error f' e =>
      have hload : Within P s { s with ext := e } := by
        rcases Ext.get_error hg with rfl | ⟨account, hp⟩
        · exact .refl P s
        · exact ⟨.one (hP (.load a) rfl rfl) (.load hp), rfl, id⟩
      subst hr
      rw [hg] at h
      cases f' with
      | report r' =>
        have ht : t = { s with evm := s.evm.halt, ext := e } := by cases h; rfl
        subst ht
        exact hload.failed (failed_halt P _)
      | panic => cases h
      | fuel => cases h

/-- The part of SLOAD after its gas check. -/
theorem keeps_loadSlot [EventTracer T] (key : Word) (isWarm : Bool) (gas : Int)
    (hnote : ∀ val, P (.note (.getState sc.this key val isWarm))) :
    Keeps (within P) (do
      let _ ← pop
      let val ← orError (Ext.get sc.this key)
      push val
      touch (.getState sc.this key val isWarm)
      emit sc.ctx.depth false (.state (.get sc.this key val))
      next gas : M T StepResult) := by
  refine keeps_pop.bind fun _ => ?_
  refine (keeps_get hP _ _).bind fun val => ?_
  refine (keeps_push _).bind fun _ => ?_
  refine (keeps_touch (hnote val) rfl).bind fun _ => ?_
  refine (keeps_emit _ _ _).bind fun _ => ?_
  exact keeps_next _

end Reading

theorem keeps_opSload [EventTracer T] (hP : ∀ e : Effect, e.isRead → P e) :
    Keeps (within P) (opSload sc : M T StepResult) := by
  refine keeps_peek1.bind fun _ => ?_
  refine (keeps_warmSlot sc (hP _ rfl)).bind fun _ => ?_
  exact keeps_charged <| keeps_loadSlot sc (fun e h _ => hP e h) _ _ _ fun _ => hP _ rfl

/-! ## Instructions that write -/

section Writing

variable (instruction : Instruction)

theorem wp_orError_put {Q : Unit → Machine T → Prop} (a : Address) (key val : Word) :
    wp (orError (Ext.put a key val)) Q E s ↔ Q () { s with ext := s.ext.written a key val } :=
  wp_of_ok (by simp only [orError, Ext.put_eq])

/-- A storage read that succeeds is one of `Ext`. -/
theorem orError_get_ok {a : Address} {key val : Word} {t : Machine T} (h : orError (Ext.get a key) s = .ok val t) :
    ∃ e, Ext.get a key s.ext = .ok val e ∧ t = { s with ext := e } := by
  unfold orError at h
  split at h
  · next e hg =>
    cases h
    exact ⟨e, hg, rfl⟩
  · cases h
  · cases h

theorem keeps_storeSlot [EventTracer T] (hP : ∀ e : Effect, e.isRead → e.isTidy → P e) (key new : Word) (isWarm : Bool)
    (hstore : ∀ val, P (.store sc.this key val new isWarm)) :
    Keeps (within P) (storeSlot sc instruction key new isWarm : M T StepResult) := fun s => by
  unfold storeSlot
  rw [wp_bind]
  have hget : Keeps (within P) (orError (Ext.get sc.this key) : M T Word) := keeps_get hP _ _
  refine wp_def.2 ⟨fun val t h => ?_, fun f t h => hget.error h⟩
  have hs : Within P s t := hget.ok h
  obtain ⟨e, hg, rfl⟩ := orError_get_ok h
  simp only [wp_bind, wp_get, wp_ite, wp_emit, wp_pure, wp_orError_put, wp_modify, wp_touch, wp_next]
  refine ⟨fun _ => hs.trans (.of_eq rfl rfl (.inl le_rfl)), fun _ =>
    ⟨fun _ => hs.trans (.of_eq rfl rfl (.inl le_rfl)), fun _ => ⟨?_, rfl, id⟩⟩⟩
  exact .one (hstore val) (.store hg)

theorem keeps_opSstore [EventTracer T] (hP : ∀ e : Effect, e.isRead → P e)
    (hstore : sc.ctx.isStaticCall = false → ∀ key val new isWarm, P (.store sc.this key val new isWarm)) :
    Keeps (within P) (opSstore sc instruction : M T StepResult) := by
  refine .ite (fun _ => keeps_refuse _) fun hstatic => ?_
  refine keeps_pop.bind fun key => ?_
  refine keeps_pop.bind fun new => ?_
  refine (keeps_warmSlot sc (hP _ rfl)).bind fun isWarm => ?_
  refine keeps_storeSlot sc instruction (fun e h _ => hP e h) key new isWarm fun val => ?_
  exact hstore (by simpa using hstatic) key val new isWarm

theorem keeps_storeTransient (key new : Word) (h : ∀ val, P (.storeTransient sc.this key val new)) :
    Keeps (within P) (do
      let old := ((← get).ext.transient.lookup (sc.this, key)).getD 0
      modify fun s => { s with ext.transient := s.ext.transient.insert (sc.this, key) new }
      touch (.setTransientState sc.this key old new)
      next 100 : M T StepResult) := fun s => by
  simp only [wp_bind, wp_get, wp_modify, wp_touch, wp_next]
  exact ⟨.one (h _) .storeTransient, rfl, id⟩

/-- TSTORE writes when it has the gas and both operands. -/
theorem wp_opTstore (h : 100 ≤ s.evm.gas.remaining → 2 ≤ s.evm.stack.length →
      ∀ key val new, P (.storeTransient sc.this key val new)) :
    wp (opTstore sc) (fun _ => (within P).ok s) (fun f => (within P).err f s) s := by
  unfold opTstore
  rw [wp_charged]
  refine ⟨fun _ => .refl P s, fun hgas => ?_⟩
  by_cases hst : 2 ≤ s.evm.stack.length
  · exact (keeps_pop.bind fun key => keeps_pop.bind fun new =>
      keeps_storeTransient sc key new fun val => h hgas hst key val new) s
  · rw [wp_bind, wp_pop]
    refine ⟨fun key rest hkey => ?_, fun _ _ _ => failed_halt P s⟩
    have hs : Within P s { s with evm.stack := rest } := .of_eq rfl rfl (.inl (by simp [hkey]))
    rw [wp_bind, wp_pop]
    refine ⟨fun new rest' hnew => ?_, fun _ r _ => hs.failed (failed_halt P _)⟩
    simp only at hnew
    simp [hkey, hnew] at hst

theorem keeps_popTopics : ∀ n : Nat, Keeps (within P) (popTopics n : M T (List Word))
  | 0 => .pure _
  | n + 1 => keeps_pop.bind fun _ => (keeps_popTopics n).bind fun _ => .pure _

theorem keeps_logData (offset size : Nat) : Keeps (within P) (logData offset size : M T Bytes) := by
  refine (keeps_lift _).bind fun _ => ?_
  refine Keeps.get.bind fun _ => ?_
  exact .ite (fun _ => .ite (fun _ => keeps_refuse _) fun _ => .pure _) fun _ => keeps_readMemory _ _

theorem keeps_peek2 : Keeps (within P) (onEvm Evm.peek2 : M T (Word × Word)) := fun s => by
  simp only [Evm.peek2, wp_onEvm, wp_bind, wp_get]
  split
  · exact (wp_pure _).2 (Within.refl P s)
  · exact (wp_error _).2 fun _ _ => failed_halt P s

theorem keeps_opLog (h : sc.ctx.callType ≠ .static → ∀ l, P (.log l)) :
    Keeps (within P) (opLog sc instruction : M T StepResult) := by
  refine .ite (fun _ => keeps_refuse _) fun hstatic => ?_
  refine keeps_peek2.bind fun _ => ?_
  refine (keeps_lift _).bind fun _ => ?_
  refine (keeps_lift _).bind fun _ => ?_
  refine (keeps_lift _).bind fun _ => ?_
  apply keeps_charged
  refine keeps_pop.bind fun _ => ?_
  refine keeps_pop.bind fun _ => ?_
  refine (keeps_popTopics _).bind fun _ => ?_
  refine (keeps_logData _ _).bind fun _ => ?_
  exact Keeps.bind (.modify fun _ => ⟨.one (h hstatic _) .log, rfl, id⟩) fun _ => keeps_next _

/-- LOG writes when it has its range. -/
theorem wp_opLog (h : sc.ctx.callType ≠ .static → 2 ≤ s.evm.stack.length → ∀ l, P (.log l)) :
    wp (opLog sc instruction) (fun _ => (within P).ok s) (fun f => (within P).err f s) s := by
  by_cases hst : 2 ≤ s.evm.stack.length
  · exact keeps_opLog sc instruction (fun hstatic => h hstatic hst) s
  · unfold opLog
    rw [wp_ite]
    refine ⟨fun _ => (wp_refuse _).2 fun _ _ => .refl P s, fun _ => ?_⟩
    rw [wp_bind, wp_onEvm, Evm.peek2, wp_bind, wp_get]
    split
    · next hstack => simp [hstack] at hst
    · exact (wp_error _).2 fun _ _ => failed_halt P s

/-- The part of SELFDESTRUCT that moves the balance. -/
theorem keeps_destroy {α : Type} {address : Address} (hP : ∀ e : Effect, e.isRead → e.isTidy → P e)
    (h : P (.destroy sc.this address)) {k : M T α} (hk : Keeps (within P) k) :
    Keeps (within P) (do
      let balance ← onExt (Ext.balance sc.this)
      onExt (Ext.accountMut sc.this fun a => { a with value := 0 })
      onExt (Ext.credit address balance)
      modify fun s => { s with ext.destroyedAccounts := s.ext.destroyedAccounts ++ [sc.this] }
      k) := fun s => by
  rw [wp_bind]
  have hbal : Keeps (within P) (onExt (Ext.balance sc.this) : M T Word) := keeps_account _ (hP _ rfl rfl)
  rw [wp_onExt, Ext.balance, wp_bind]
  refine wp_def.2 ⟨fun a e ha => ?_, fun f e hf r _ => ?_⟩
  · have hs : Within P s { s with ext := e } := ⟨.one (hP (.load sc.this) rfl rfl) (.load ha), rfl, id⟩
    have hl : e.state.lookup sc.this = some a := (Ext.pulled ha).lookup
    simp only [wp_pure, wp_bind, wp_onExt, Ext.wp_accountMut, wp_modify]
    refine ⟨fun _ => Ext.wp_credit (fun b hb room => ?_) (fun _ _ hr => by cases hr), fun hn => by simp [hl] at hn⟩
    have hd : Within P { s with ext := e }
        { s with ext := ((e.setValue sc.this 0).setValue address (b.value + a.value)).markDestroyed sc.this } :=
      ⟨.one h (.destroy hl hb room), rfl, id⟩
    have hd := hs.trans hd
    exact wp_mono (hk _) (fun _ _ h => hd.trans h) fun _ _ h r hr => hd.failed (h r hr)
  · rw [Ext.pull_error hf]
    exact Failed.refl P s

/-- SELFDESTRUCT, whose beneficiary is its operand. -/
theorem wp_opSelfdestruct (hP : ∀ e : Effect, e.isRead → e.isTidy → P e)
    (h : sc.ctx.callType ≠ .static → ∀ word rest, s.evm.stack = word :: rest → P (.destroy sc.this (.ofWord word))) :
    wp (opSelfdestruct sc instruction) (fun _ => (within P).ok s) (fun f => (within P).err f s) s := by
  unfold opSelfdestruct
  rw [wp_ite]
  refine ⟨fun _ => (wp_refuse _).2 fun _ _ => .refl P s, fun hstatic => ?_⟩
  rw [wp_bind, wp_pop]
  refine ⟨fun word rest hst => ?_, fun _ _ _ => failed_halt P s⟩
  have hpop : Within P s { s with evm.stack := rest } := .of_eq rfl rfl (.inl (by simp [hst]))
  have hrest : Keeps (within P) (_ : M T StepResult) := Keeps.get.bind fun u =>
    (keeps_isEmpty (hP (.load (.ofWord word)) rfl rfl)).bind fun isEmpty =>
      keeps_destroy sc hP (h hstatic word rest hst)
        (keeps_next (5000 + (if u.ext.isAddressWarm (.ofWord word) then 0 else 2600) + if isEmpty then 25000 else 0))
  exact wp_mono (hrest _) (fun _ _ ht => hpop.trans ht) fun _ _ ht r hr => hpop.failed (ht r hr)

end Writing

/-! ## What the writes write -/

section Written

variable (instruction : Instruction)

theorem slots_storeSlot [EventTracer T] (key new : Word) (isWarm : Bool) (a : Address) (k : Word) :
    wp (storeSlot sc instruction key new isWarm) (fun r t => (∃ cost, r = .ok cost) →
        t.ext.slotOf a k = if sc.this = a ∧ key = k then some new else s.ext.slotOf a k) (fun _ _ => True) s := by
  unfold storeSlot
  rw [wp_bind]
  refine wp_def.2 ⟨fun val t h => ?_, fun _ _ _ => trivial⟩
  obtain ⟨e, hg, rfl⟩ := orError_get_ok h
  simp only [wp_bind, wp_get, wp_ite, wp_emit, wp_pure, wp_orError_put, wp_modify, wp_touch, wp_next]
  refine ⟨(by rintro _ ⟨_, ⟨⟩⟩), fun _ => ⟨(by rintro _ ⟨_, ⟨⟩⟩), fun _ _ => ?_⟩⟩
  rw [Ext.slotOf_written, Ext.slotOf_get hg]

/-- SSTORE that goes through: the slot holds the operand, every other slot what it held. -/
theorem slots_opSstore [EventTracer T] (a : Address) (k : Word) :
    wp (opSstore sc instruction) (fun r t => (∃ cost, r = .ok cost) → t.ext.slotOf a k =
        if sc.this = a ∧ s.evm.stack.getD 0 0 = k then some (s.evm.stack.getD 1 0) else s.ext.slotOf a k)
      (fun _ _ => True) s := by
  unfold opSstore
  rw [wp_ite]
  refine ⟨fun _ => (wp_refuse _).2 trivial, fun _ => ?_⟩
  rw [wp_bind, wp_pop]
  refine ⟨fun key rest hkey => ?_, fun _ => trivial⟩
  rw [wp_bind, wp_pop]
  refine ⟨fun new rest' hnew => ?_, fun _ => trivial⟩
  have hst : s.evm.stack = key :: new :: rest' := by rw [hkey, show rest = new :: rest' from hnew]
  rw [hst]
  have hstore : ∀ (isWarm : Bool) (u : Machine T), u.ext.slotOf a k = s.ext.slotOf a k →
      wp (storeSlot sc instruction key new isWarm) (fun r t => (∃ cost, r = .ok cost) → t.ext.slotOf a k =
        if sc.this = a ∧ key = k then some new else s.ext.slotOf a k) (fun _ _ => True) u := by
    intro isWarm u hu
    rw [← hu]
    exact slots_storeSlot sc instruction key new isWarm a k
  simp only [warmSlot, wp_bind, wp_get, wp_ite, wp_pure, wp_onExt, Ext.warmStorage, wp_modify]
  exact ⟨fun _ => hstore _ _ rfl, fun _ => hstore _ _ rfl⟩

omit [Crypto] in
/-- TSTORE that goes through. -/
theorem transient_opTstore (a : Address) (k : Word) :
    wp (opTstore sc) (fun r t => (∃ cost, r = .ok cost) → t.ext.transientOf a k =
        if sc.this = a ∧ s.evm.stack.getD 0 0 = k then s.evm.stack.getD 1 0 else s.ext.transientOf a k)
      (fun _ _ => True) s := by
  simp only [opTstore, wp_charged, wp_bind, wp_pop, wp_get, wp_modify, wp_touch, wp_next]
  refine ⟨(by rintro _ ⟨_, ⟨⟩⟩), fun _ => ⟨fun key rest hkey => ⟨fun new rest' hnew _ => ?_, fun _ => trivial⟩,
    fun _ => trivial⟩⟩
  rw [hkey, hnew]
  simp only [Ext.transientOf, List.getD_cons_zero, List.getD_cons_succ]
  split
  · next h =>
    rw [h.1, h.2, Finmap.lookup_insert, Option.getD_some]
  · next h =>
    rw [Finmap.lookup_insert_of_ne]
    exact fun heq => h ⟨(Prod.mk.inj heq).1.symm, (Prod.mk.inj heq).2.symm⟩

omit [Crypto] in
theorem wp_popTopics : ∀ (n : Nat) {Q : List Word → Machine T → Prop} {s : Machine T},
    Q (s.evm.stack.take n) { s with evm.stack := s.evm.stack.drop n } → wp (popTopics n) Q (fun _ _ => True) s
  | 0, _, _, h => (wp_pure _).2 (by simpa using h)
  | n + 1, Q, s, h => by
    rw [popTopics, wp_bind, wp_pop]
    refine ⟨fun topic rest hst => ?_, fun _ => trivial⟩
    rw [wp_bind]
    refine wp_popTopics n ?_
    rw [wp_pure]
    simpa only [hst, List.take_succ_cons, List.drop_succ_cons] using h

omit [Crypto] in
theorem slice_ok {b out : Bytes} {start till : Nat} (h : slice b start till = .ok out) :
    start ≤ till ∧ till ≤ b.length ∧ out = (b.drop start).take (till - start) := by
  unfold slice at h
  split at h
  · next hle =>
    cases h
    exact ⟨hle.1, hle.2, rfl⟩
  · cases h

omit [Crypto] in
theorem addUsize_ok {a b n : Nat} (h : addUsize a b = .ok n) : n = a + b := by
  unfold addUsize at h
  split at h
  · cases h
    rfl
  · cases h

omit [Crypto] in
theorem asUsize_ok {w : Word} {n : Nat} (h : w.asUsize = .ok n) : n = w.toNat := by
  unfold Word.asUsize at h
  split at h
  · cases h
    rfl
  · cases h

omit [Crypto] in
theorem wp_logData (offset size : Nat) {Q : Bytes → Machine T → Prop}
    (h : Q (if s.evm.memory.length < offset + size then window s.evm.memory 0 (offset + size)
      else (s.evm.memory.drop offset).take size) s) : wp (logData offset size) Q (fun _ _ => True) s := by
  simp only [logData, readMemory, wp_bind, wp_lift, wp_get, wp_ite, wp_refuse, wp_pure, implies_true, and_true]
  intro till ht
  obtain rfl := addUsize_ok ht
  refine ⟨fun hlt => ⟨trivial, fun _ => by simpa only [hlt, if_true] using h⟩, fun hlt data hdata => ?_⟩
  obtain ⟨-, -, rfl⟩ := slice_ok hdata
  simpa only [hlt, if_false, Nat.add_sub_cancel_left] using h

omit [Crypto] in
/-- LOG that goes through appends its log. -/
theorem logs_opLog (x : Step T) :
    wp (opLog x.scope x.instruction) (fun r t => (∃ cost, r = .ok cost) → t.evm.logs = x.before.evm.logs ++ [x.log])
      (fun _ _ => True) x.before := by
  unfold opLog
  rw [wp_ite]
  refine ⟨fun _ => (wp_refuse _).2 trivial, fun _ => ?_⟩
  rw [wp_bind, wp_onEvm, Evm.peek2, wp_bind, wp_get]
  split
  · next offset size rest hst =>
    simp only [wp_pure, wp_bind, wp_lift, wp_charged, wp_pop, implies_true, and_true]
    intro o ho n hn gas _
    obtain rfl := asUsize_ok ho
    obtain rfl := asUsize_ok hn
    refine ⟨(by rintro _ ⟨_, ⟨⟩⟩), fun _ w₁ r₁ h₁ w₂ r₂ h₂ => ?_⟩
    have hrest : r₂ = rest := by
      rw [hst] at h₁
      cases h₁
      cases h₂
      rfl
    subst hrest
    refine wp_popTopics _ ?_
    rw [wp_bind]
    refine wp_logData _ _ ?_
    simp only [wp_bind, wp_modify, wp_next]
    intro _
    simp only [Step.log, Step.operand, Step.this, hst, List.getD_cons_zero, List.getD_cons_succ, List.drop_succ_cons,
      List.drop_zero]
  · exact (wp_error _).2 trivial

end Written

/-! ## The instructions that end a frame -/

/-- What STOP, RETURN and REVERT leave alone. -/
structure Ending (s t : Machine T) : Prop where
  trail : t.trail = s.trail
  header : t.exe.header = s.exe.header
  limit : t.evm.gas.limit = s.evm.gas.limit
  used : t.evm.gas.used = s.evm.gas.used
  stack : s.evm.stack.length ≤ stackLimit → t.evm.stack.length ≤ stackLimit

/-- No effect at all. -/
def Effect.never (_ : Effect) : Prop := False

theorem Acts.eq_of_never {t u : Trail} (h : Acts Effect.never t u) : u = t :=
  h.keep (fun t u => u = t) (fun _ => rfl) (fun h h' => h'.trans h) fun he _ => he.elim

namespace Ending

variable {t u : Machine T}

omit [Crypto] in
theorem refl (s : Machine T) : Ending s s := ⟨rfl, rfl, rfl, rfl, id⟩

omit [Crypto] in
theorem trans (h : Ending s t) (h' : Ending t u) : Ending s u :=
  ⟨h'.trail.trans h.trail, h'.header.trans h.header, h'.limit.trans h.limit, h'.used.trans h.used,
    fun hs => h'.stack (h.stack hs)⟩

theorem of_within (h : Within Effect.never s t) : Ending s t := by
  have hr : t.regs = s.regs := h.regs
  simp only [Machine.regs, Regs.mk.injEq] at hr
  exact ⟨h.trail.eq_of_never, hr.1, hr.2.2.1, hr.2.2.2.1, h.stack⟩

theorem failed (h : Ending s t) (h' : Failed P t u) : Failed P s u :=
  ⟨h.trail ▸ h'.trail, h'.header.trans h.header, h'.limit.trans h.limit⟩

end Ending

def ending : Frame Fault (Machine T) where
  ok := Ending
  err f s t := ∀ r, f = .report r → Failed Effect.never s t
  refl := .refl
  trans := .trans
  fail h h' r hr := h.failed (h' r hr)

theorem Keeps.ending {m : M T α} (h : Keeps (within Effect.never) m) : Keeps (Solenoid.ending) m :=
  h.mono .of_within id

theorem ends_modify {f : Machine T → Machine T} (hf : ∀ s, Ending s (f s)) : Keeps ending (modify f : M T Unit) :=
  .modify hf

section Ends

variable [EventTracer T]

theorem ends_emitReturn (depth : Nat) : Keeps ending (emitReturn depth : M T Unit) :=
  Keeps.get.bind fun _ => Keeps.ending (keeps_emit _ _ _)

theorem ends_opStop : Keeps ending (opStop sc : M T StepResult) := by
  refine Keeps.bind (ends_modify ?_) fun _ => Keeps.bind (ends_modify ?_) fun _ =>
    (ends_emitReturn _).bind fun _ => .pure _
  all_goals exact fun _ => ⟨rfl, rfl, rfl, rfl, id⟩

omit [EventTracer T] in
theorem ends_setOutput (offset size : Nat) : Keeps ending (setOutput offset size : M T Unit) := by
  refine .ite (fun _ => ?_) fun _ => ends_modify fun _ => ⟨rfl, rfl, rfl, rfl, id⟩
  refine (Keeps.ending (keeps_lift _)).bind fun _ => ?_
  refine (Keeps.ending (keeps_expandTo _)).bind fun _ => ?_
  refine (Keeps.ending (keeps_readMemory _ _)).bind fun _ => ?_
  exact ends_modify fun _ => ⟨rfl, rfl, rfl, rfl, id⟩

theorem ends_opReturn (reverted : Bool) : Keeps ending (opReturn sc reverted : M T StepResult) := by
  refine Keeps.bind (ends_modify fun _ => ⟨rfl, rfl, rfl, rfl, id⟩) fun _ => ?_
  refine (Keeps.ending keeps_popUsize).bind fun _ => ?_
  refine (Keeps.ending keeps_popUsize).bind fun _ => ?_
  refine (ends_setOutput _ _).bind fun _ => ?_
  refine (Keeps.ending keeps_memoryExpansionCost).bind fun _ => ?_
  refine (ends_emitReturn _).bind fun _ => ?_
  exact Keeps.ending (keeps_next _)

end Ends

/-! ## Every instruction but the calls -/

/-- The opcode sets the frame's flags and output. -/
def Op.ends : Op → Bool
  | .stop | .return_ | .revert => true
  | _ => false

variable [EventTracer T] (exec : Exec T)

/-- An instruction that neither ends the frame nor opens one has only the effects its step
    allows, and leaves the registers alone; only SLOAD and SSTORE have effects that are not
    tidy. -/
theorem instruction_within_of (x : Step T) (hc : x.op.isCall = false) (he : x.op.ends = false)
    (hP : ∀ e, x.allows e → x.op = .sload ∨ x.op = .sstore ∨ e.isTidy → P e) :
    wp (executeInstruction exec x.scope x.instruction) (fun _ => (within P).ok x.before)
      (fun f => (within P).err f x.before) x.before := by
  have hread : ∀ e : Effect, e.isRead → e.isTidy → P e := fun e h ht => hP e (x.allows_read h) (.inr (.inr ht))
  have hslot : x.op = .sload ∨ x.op = .sstore → ∀ e : Effect, e.isRead → P e := fun h e hr =>
    hP e (x.allows_read hr) (h.imp_right .inl)
  obtain ⟨sc, instruction, s⟩ := x
  unfold executeInstruction
  simp only [Step.op] at hc he
  cases hop : instruction.op
  case create | call | callcode | delegatecall | create2 | staticcall => simp [hop, Op.isCall] at hc
  case stop | return_ | revert => simp [hop, Op.ends] at he
  case exp => exact keeps_opExp s
  case sha3 => exact keeps_opSha3 sc s
  case balance => exact keeps_opBalance hread s
  case calldataload => exact keeps_opCalldataload sc s
  case calldatacopy => exact keeps_opCalldatacopy sc s
  case codecopy => exact keeps_opCodecopy sc s
  case extcodesize => exact keeps_opExtcodesize hread s
  case extcodecopy => exact keeps_opExtcodecopy hread s
  case returndatacopy => exact keeps_opReturndatacopy s
  case extcodehash => exact keeps_opExtcodehash hread s
  case blockhash => exact keeps_opBlockhash s
  case selfbalance => exact keeps_opSelfbalance sc hread s
  case blobhash => exact keeps_opBlobhash s
  case pop => exact keeps_opPop s
  case mload => exact keeps_opMload s
  case mstore => exact keeps_opMstore s
  case mstore8 => exact keeps_opMstore8 s
  case sload => exact keeps_opSload sc (hslot (.inl hop)) s
  case sstore =>
    exact keeps_opSstore sc instruction (hslot (.inr hop))
      (fun hstatic _ _ _ _ => hP _ ⟨hop, hstatic, rfl⟩ (.inr (.inl hop))) s
  case jump => exact keeps_opJump sc s
  case jumpi => exact keeps_opJumpi sc s
  case jumpdest => exact keeps_opJumpdest s
  case tload => exact keeps_opTload sc s
  case tstore => exact wp_opTstore sc fun hgas hst _ _ _ => hP _ ⟨hop, hst, hgas, rfl⟩ (.inr (.inr rfl))
  case mcopy => exact keeps_opMcopy s
  case dup => exact keeps_opDup instruction s
  case swap => exact keeps_opSwap instruction s
  case log => exact wp_opLog sc instruction fun hstatic hst _ => hP _ ⟨hop, hst, hstatic⟩ (.inr (.inr rfl))
  case invalid => exact keeps_next _ s
  case selfdestruct =>
    refine wp_opSelfdestruct sc instruction hread fun hstatic word rest hst => ?_
    have hst : s.evm.stack = word :: rest := hst
    exact hP _ ⟨hop, by simp [Step.has, hst], hstatic, rfl, by simp [Step.operand, hst]⟩ (.inr (.inr rfl))
  case unknown => exact keeps_refuse _ s
  all_goals
    first
    | exact keeps_pushing _ _ s
    | exact keeps_binary _ _ _ s
    | exact keeps_unary _ _ s
    | exact keeps_ternary _ _ s

theorem instruction_within (x : Step T) (hc : x.op.isCall = false) (he : x.op.ends = false) :
    wp (executeInstruction exec x.scope x.instruction) (fun _ => (within x.allows).ok x.before)
      (fun f => (within x.allows).err f x.before) x.before :=
  instruction_within_of exec x hc he fun _ h _ => h

end Solenoid
