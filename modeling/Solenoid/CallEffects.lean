/-
  Solenoid.CallEffects — the effects of the call-type instructions up to the frame they
  open and from its end.

  Before the frame, a call reads accounts and may move its value once (`Moved`); a creation
  bumps the creator's nonce and opens the account. After it, a call only merges; a creation
  that is kept installs the code and moves the value then (`Deployed`).
-/
import Solenoid.Effects

namespace Solenoid

open Hoare

variable {T : Type} [Crypto] {s : Machine T} {P : Effect → Prop} (sc : Scope)

/-! ## Operands and costs -/

theorem keeps_popValue : Keeps (within P) (popValue sc : M T Word) :=
  .ite (fun _ => keeps_pop) fun _ => .pure _

theorem keeps_callArgs : Keeps (within P) (callArgs sc : M T CallArgs) := by
  refine keeps_pop.bind fun _ => ?_
  refine keeps_pop.bind fun _ => ?_
  refine (keeps_popValue sc).bind fun _ => ?_
  refine keeps_popUsize.bind fun _ => ?_
  refine keeps_popUsize.bind fun _ => ?_
  refine keeps_popUsize.bind fun _ => ?_
  refine keeps_popUsize.bind fun _ => ?_
  exact .pure _

/-- The operands a call takes off the stack. -/
structure TakesArgs (s : Machine T) (a : CallArgs) (t : Machine T) : Prop where
  address : a.address = .ofWord (s.evm.stack.getD 1 0)
  moving : sc.ctx.movesValue → a.value = s.evm.stack.getD 2 0 ∧ 7 ≤ s.evm.stack.length
  still : sc.ctx.movesValue = false → a.value = if sc.ctx.callType = .static then 0 else sc.call.value
  rest : ∃ rest, t = { s with evm.stack := rest } ∧ rest.length + 6 ≤ s.evm.stack.length

omit [Crypto] in
theorem callArgs_ok {a : CallArgs} {t : Machine T} (h : callArgs sc s = .ok a t) : TakesArgs sc s a t := by
  refine of_ok ?_ h
  simp only [callArgs, popValue, popUsize, wp_bind, wp_pop, wp_ite, wp_pure, wp_lift, implies_true, and_true]
  intro w₀ r₀ h₀ w₁ r₁ h₁
  subst h₁
  refine ⟨fun hm w₂ r₂ h₂ w₃ r₃ h₃ _ _ w₄ r₄ h₄ _ _ w₅ r₅ h₅ _ _ w₆ r₆ h₆ _ _ => ?_,
    fun hm w₃ r₃ h₃ _ _ w₄ r₄ h₄ _ _ w₅ r₅ h₅ _ _ w₆ r₆ h₆ _ _ => ?_⟩
  · subst h₂ h₃ h₄ h₅ h₆
    refine ⟨?_, ?_, ?_, ⟨r₆, rfl, ?_⟩⟩ <;> simp [h₀, hm]
  · subst h₃ h₄ h₅ h₆
    refine ⟨?_, ?_, ?_, ⟨r₆, rfl, ?_⟩⟩ <;> simp [h₀, hm]

/-! ## What only pops -/

def shrinks : Frame Fault (Machine T) where
  ok s t := t.evm.stack.length ≤ s.evm.stack.length
  err _ _ _ := True
  refl _ := le_rfl
  trans h h' := h'.trans h
  fail _ _ := trivial

section

omit [Crypto]

theorem shrinks_lift {α : Type} (e : Except Fault α) : Keeps shrinks (lift e : M T α) := fun _ =>
  (wp_lift e).2 ⟨fun _ _ => le_rfl, fun _ _ => trivial⟩

theorem shrinks_pop : Keeps shrinks (pop : M T Word) := fun _ =>
  wp_pop.2 ⟨fun _ _ h => by simp [shrinks, h], fun _ => trivial⟩

theorem shrinks_onExt {α : Type} (m : Run Ext α) : Keeps shrinks (onExt m : M T α) := fun _ =>
  (wp_onExt m).2 (wp_def.2 ⟨fun _ _ _ => le_rfl, fun _ _ _ => trivial⟩)

theorem shrinks_touch (τ : AccountTouch) : Keeps shrinks (touch τ : M T Unit) := fun _ => (wp_touch τ).2 le_rfl

theorem shrinks_expandTo (till : Nat) : Keeps shrinks (expandTo till : M T Unit) := fun s => by
  simp only [expandTo, growTo, wp_bind, wp_get, wp_ite, wp_refuse, wp_lift, wp_modify, wp_pure]
  exact ⟨fun _ => ⟨fun _ => trivial, fun _ => ⟨fun _ _ => le_rfl, fun _ _ => trivial⟩⟩, fun _ => le_rfl⟩

theorem shrinks_memoryExpansionCost : Keeps shrinks (memoryExpansionCost : M T Int) := fun s => by
  simp only [memoryExpansionCost, Evm.memoryExpansionCost, wp_onEvm, wp_bind, wp_get, wp_lift, wp_set, wp_pure]
  exact ⟨fun _ _ => le_rfl, fun _ _ => trivial⟩

theorem shrinks_readMemory (start till : Nat) : Keeps shrinks (readMemory start till : M T Bytes) :=
  Keeps.get.bind fun _ => shrinks_lift _

theorem shrinks_warmTouch (a : Address) : Keeps shrinks (warmTouch a : M T Unit) :=
  (shrinks_onExt _).bind fun _ => .ite (fun _ => shrinks_touch _) fun _ => .pure _

theorem shrinks_addressAccessCost (a : Address) : Keeps shrinks (addressAccessCost a : M T Int) := by
  refine .ite (fun _ => .pure _) fun _ => ?_
  refine (shrinks_onExt _).bind fun _ => ?_
  refine .ite (fun _ => ?_) fun _ => .pure _
  refine (shrinks_touch _).bind fun _ => ?_
  exact .pure _

theorem shrinks_callMemory (a : CallArgs) : Keeps shrinks (callMemory a : M T Int) := by
  refine (shrinks_lift _).bind fun _ => ?_
  refine (shrinks_lift _).bind fun _ => ?_
  refine (shrinks_expandTo _).bind fun _ => ?_
  exact shrinks_memoryExpansionCost

theorem shrinks_popSalt (isCreate2 : Bool) : Keeps shrinks (popSalt isCreate2 : M T Word) :=
  .ite (fun _ => shrinks_pop) fun _ => .pure _

theorem shrinks_initCode (offset size : Nat) : Keeps shrinks (initCode offset size : M T (Bytes × Int)) := by
  refine (shrinks_lift _).bind fun _ => ?_
  refine (shrinks_expandTo _).bind fun _ => ?_
  refine shrinks_memoryExpansionCost.bind fun _ => ?_
  refine (shrinks_readMemory _ _).bind fun _ => ?_
  exact .pure _

theorem shrinks_openAccount (created : Address) : Keeps shrinks (openAccount created : M T Unit) := by
  refine Keeps.bind (.modify ?_) fun _ => (shrinks_warmTouch created).bind fun _ => .modify ?_
  all_goals exact fun _ => le_rfl

end

theorem shrinks_touchCode (a : Address) : Keeps shrinks (touchCode a : M T (Bytes × Word)) :=
  (shrinks_onExt _).bind fun _ => (shrinks_touch _).bind fun _ => .pure _

theorem shrinks_callCreateCost (a : CallArgs) : Keeps shrinks (callCreateCost a : M T Int) :=
  .ite (fun _ => .pure _) fun _ => (shrinks_onExt _).bind fun _ => .pure _

theorem shrinks_callTarget (address : Address) : Keeps shrinks (callTarget address : M T Target) := by
  refine (shrinks_touchCode _).bind fun code => ?_
  refine (shrinks_addressAccessCost _).bind fun _ => ?_
  cases delegation code.1 with
  | none => exact .pure _
  | some target => exact (shrinks_touchCode _).bind fun _ => (shrinks_addressAccessCost _).bind fun _ => .pure _

theorem shrinks_bumpNonce [EventTracer T] (depth : Nat) (this : Address) :
    Keeps shrinks (bumpNonce depth this : M T Word) := by
  refine (shrinks_onExt _).bind fun _ => ?_
  refine (shrinks_lift _).bind fun _ => ?_
  refine (shrinks_onExt _).bind fun _ => ?_
  refine (shrinks_lift _).bind fun _ => ?_
  refine (shrinks_lift _).bind fun _ => ?_
  refine (shrinks_touch _).bind fun _ => ?_
  exact Keeps.bind (.modify fun _ => le_rfl) fun _ => .pure _

/-! ## What the effects of the costs are -/

theorem keeps_callMemory (a : CallArgs) : Keeps (within P) (callMemory a : M T Int) := by
  refine (keeps_lift _).bind fun _ => ?_
  refine (keeps_lift _).bind fun _ => ?_
  refine (keeps_expandTo _).bind fun _ => ?_
  exact keeps_memoryExpansionCost

theorem keeps_callCreateCost (hP : ∀ e : Effect, e.isRead → e.isTidy → P e) (a : CallArgs) :
    Keeps (within P) (callCreateCost a : M T Int) :=
  .ite (fun _ => .pure _) fun _ => (keeps_isEmpty (hP _ rfl rfl)).bind fun _ => .pure _

theorem keeps_callTarget (hP : ∀ e : Effect, e.isRead → e.isTidy → P e) (address : Address) :
    Keeps (within P) (callTarget address : M T Target) := by
  refine (keeps_touchCode hP).bind fun code => ?_
  refine (keeps_addressAccessCost (hP _ rfl rfl)).bind fun _ => ?_
  cases delegation code.1 with
  | none => exact .pure _
  | some target =>
    exact (keeps_touchCode hP).bind fun _ => (keeps_addressAccessCost (hP _ rfl rfl)).bind fun _ => .pure _

omit [Crypto] in
/-- Reading the arguments changes nothing. -/
theorem wp_callData (a : CallArgs) : wp (callData a) (fun _ t => t = s) (fun _ t => t = s) s := by
  simp only [callData, readMemory, wp_ite, wp_bind, wp_get, wp_lift, wp_pure, implies_true, and_self]

variable [EventTracer T] (instruction : Instruction)

/-- A call that cannot pay has no effect, and fails. -/
theorem wp_callOutOfGas {α : Type} : wp (callOutOfGas sc instruction : M T α) (fun _ _ => False)
    (fun f t => ∀ r, f = .report r → Failed P s t) s := by
  simp only [callOutOfGas, wp_bind, wp_get, wp_emit, wp_modify, wp_push, wp_refuse]
  exact ⟨fun _ _ _ => ⟨.refl P _, rfl, rfl⟩, fun _ _ _ => ⟨.refl P _, rfl, rfl⟩⟩

theorem keeps_emitCall (depth : Nat) (cost : Int) : Keeps (within P) (emitCall depth instruction cost : M T Unit) :=
  Keeps.get.bind fun _ => keeps_emit _ _ _

/-! ## Moving value -/

/-- A value `v` is moved when it `may` be and the funds are there, else nothing changes;
    both accounts are loaded. -/
inductive Moved (src dst : Address) (v : Word) (may : Prop) (t : Trail) : Trail → Prop
  | moved {u : Trail} {a : Account} (hmay : may) (hv : v ≠ 0) (ha : t.ext.state.lookup src = some a)
      (funds : v.toNat ≤ a.value.toNat) (h : Act (.transfer src dst v) t u) : Moved src dst v may t u
  | still {a b : Account} (ha : t.ext.state.lookup src = some a) (hb : t.ext.state.lookup dst = some b)
      (h : ¬(may ∧ v ≠ 0 ∧ v.toNat ≤ a.value.toNat)) : Moved src dst v may t t

theorem Moved.congr {src dst : Address} {v : Word} {may may' : Prop} {t u : Trail} (h : Moved src dst v may t u)
    (hm : may ↔ may') : Moved src dst v may' t u := by
  cases h with
  | moved hmay hv ha funds h => exact .moved (hm.1 hmay) hv ha funds h
  | still ha hb h => exact .still ha hb fun ⟨hmay, hv⟩ => h ⟨hm.2 hmay, hv⟩

/-- What could not move is the same as a value of zero. -/
theorem Moved.zero {src dst : Address} {v : Word} {may may' : Prop} {t u : Trail} (h : Moved src dst v may t u)
    (hm : ¬may) : Moved src dst 0 may' t u := by
  cases h with
  | moved hmay => exact absurd hmay hm
  | still ha hb => exact .still ha hb fun h => h.2.1 rfl

theorem wp_moveValue {src dst : Address} {a b : Account} {v : Word} {depth : Nat}
    (ha : s.ext.state.lookup src = some a) (hb : s.ext.state.lookup dst = some b) :
    wp (moveValue depth src dst a.value b.value v) (fun _ t => Act (.transfer src dst v) s.trail t.trail ∧
        t.regs = s.regs ∧ t.evm.stack = s.evm.stack) (fun f _ => ∀ r, f ≠ .report r) s := by
  simp only [moveValue, wp_bind, wp_lift, wp_onExt, Ext.wp_accountMut, wp_touch, wp_emit]
  refine ⟨fun newSrc hsrc => ?_, fun f hf r => ?_⟩
  · obtain ⟨funds, rfl⟩ := Word.sub_ok hsrc
    refine ⟨fun _ => ⟨fun newDst hdst => ?_, fun f hf r => ?_⟩, fun h => by simp [ha] at h⟩
    · obtain ⟨room, rfl⟩ := Word.add_ok hdst
      refine ⟨fun _ => ⟨?_, rfl, trivial⟩, fun _ _ => Fault.noConfusion⟩
      have h : Act (.transfer src dst v) s.trail _ := .transfer ha hb funds room
      simpa only [Machine.trail, Ext.setValue, List.append_assoc, List.singleton_append] using h
    · obtain ⟨why, rfl⟩ := Word.add_error hf
      exact Fault.noConfusion
  · obtain ⟨why, rfl⟩ := Word.sub_error hf
    exact Fault.noConfusion

omit [EventTracer T] in
/-- A balance that was read is that of a loaded account. -/
theorem balance_ok {a : Address} {v : Word} {t : Machine T} (h : onExt (Ext.balance a) s = .ok v t) :
    ∃ account e, Ext.pull a s.ext = .ok account e ∧ v = account.value ∧ t = { s with ext := e } := by
  have hw : wp (onExt (Ext.balance a)) (fun v t => ∃ account e, Ext.pull a s.ext = .ok account e ∧
      v = account.value ∧ t = { s with ext := e }) (fun _ _ => True) s := by
    rw [wp_onExt, Ext.balance, wp_bind]
    exact wp_def.2 ⟨fun account e hp => (wp_pure _).2 ⟨account, e, hp, rfl, rfl⟩, fun _ _ _ => trivial⟩
  exact of_ok hw h

/-- What a value transfer leaves: two accounts read, and the value moved or not. -/
structure Transfers (src dst : Address) (v : Word) (may : Prop) (s t : Machine T) : Prop where
  trail : ∃ mid, Acts (Effect.isRead ·) s.trail mid ∧ Moved src dst v may mid t.trail
  regs : t.regs = s.regs
  stack : t.evm.stack = s.evm.stack

theorem wp_callTransfer (a : CallArgs) :
    wp (callTransfer sc a) (fun _ => Transfers sc.this a.address a.value (sc.ctx.movesValue ∧ sc.this ≠ a.address) s)
      (fun f => (within (Effect.isRead ·)).err f s) s := by
  have hload : ∀ b : Address, Keeps (within (Effect.isRead ·)) (onExt (Ext.balance b) : M T Word) := fun b =>
    keeps_account _ rfl
  unfold callTransfer
  refine (hload sc.this).step (fun _ _ h => h) fun x t hx ht => ?_
  refine (hload a.address).step (fun _ _ h r hr => ht.failed (h r hr)) fun y u hy hu => ?_
  obtain ⟨A, e, hA, rfl, rfl⟩ := balance_ok hx
  obtain ⟨B, e', hB, rfl, rfl⟩ := balance_ok hy
  have hs : Within (Effect.isRead ·) s { s with ext := e' } := ht.trans hu
  have hthis := Ext.pull_lookup hB (Ext.pulled hA).lookup
  have haddr := (Ext.pulled hB).lookup
  rw [wp_ite]
  refine ⟨fun hc => ?_, fun hc => ?_⟩
  · obtain ⟨hv, hm, hfunds, hne⟩ := hc
    refine wp_mono (wp_moveValue hthis haddr) (fun _ w hw => ?_) fun f _ hf r hr => absurd hr (hf r)
    exact ⟨⟨_, hs.trail, .moved ⟨hm, hne⟩ hv hthis hfunds hw.1⟩, hw.2.1, hw.2.2⟩
  · refine (wp_pure _).2 ⟨⟨_, hs.trail, .still hthis haddr fun h => ?_⟩, rfl, rfl⟩
    exact hc ⟨h.2.1, h.1.1, h.2.2, h.1.2⟩

/-! ## Opening the frame of a call -/

/-- A call answered by a precompile: the output may be new, the gas is charged. -/
structure Answered (P : Effect → Prop) (s t : Machine T) : Prop where
  trail : Acts P s.trail t.trail
  header : t.exe.header = s.exe.header
  limit : t.evm.gas.limit = s.evm.gas.limit
  stopped : t.evm.stopped = s.evm.stopped
  reverted : t.evm.reverted = s.evm.reverted
  stack : s.evm.stack.length ≤ stackLimit → t.evm.stack.length ≤ stackLimit

namespace Answered

variable {t u : Machine T}

omit [EventTracer T]

theorem of_within (h : Within P s t) : Answered P s t := by
  have hr : t.regs = s.regs := h.regs
  simp only [Machine.regs, Regs.mk.injEq] at hr
  exact ⟨h.trail, hr.1, hr.2.2.1, hr.2.2.2.2.1, hr.2.2.2.2.2, h.stack⟩

theorem trans (h : Answered P s t) (h' : Answered P t u) : Answered P s u :=
  ⟨h.trail.trans h'.trail, h'.header.trans h.header, h'.limit.trans h.limit, h'.stopped.trans h.stopped,
    h'.reverted.trans h.reverted, fun hs => h'.stack (h.stack hs)⟩

end Answered

def answered (P : Effect → Prop) : Frame Fault (Machine T) where
  ok := Answered P
  err f s t := ∀ r, f = .report r → Failed P s t
  refl s := .of_within (.refl P s)
  trans := .trans
  fail h h' r hr :=
    ⟨h.trail.trans (h' r hr).trail, (h' r hr).header.trans h.header, (h' r hr).limit.trans h.limit⟩

omit [EventTracer T] in
theorem Keeps.answered {α : Type} {m : M T α} (h : Keeps (within P) m) : Keeps (Solenoid.answered P) m :=
  h.mono .of_within id

omit [EventTracer T] in
theorem answers_takeGas (cost : Int) : Keeps (answered P) (takeGas cost : M T Unit) := fun s => by
  have hsub : (s.evm.gas.sub cost).1.limit = s.evm.gas.limit := by unfold Gas.sub; split <;> rfl
  simp only [takeGas, Evm.takeGas, wp_onEvm, wp_bind, wp_get, wp_modify, wp_ite, wp_pure, Solenoid.wp_error]
  exact ⟨fun _ => ⟨.refl P _, rfl, hsub, rfl, rfl, id⟩, fun _ _ _ => ⟨.refl P _, rfl, hsub⟩⟩

omit [EventTracer T] in
theorem answers_runPrecompile (address : Address) (data : Bytes) :
    Keeps (answered P) (runPrecompile address data : M T Word) := by
  unfold runPrecompile
  split
  · refine Keeps.bind (.modify ?_) fun _ => .pure _
    exact fun _ => ⟨.refl P _, rfl, rfl, rfl, rfl, id⟩
  · exact .pure _
  · next f hf _ => exact .throw fun s r hr => absurd hr (hf r)

theorem answers_callPrecompile (a : CallArgs) (data : Bytes) (traceCost : Int) :
    Keeps (answered P) (callPrecompile sc instruction a data traceCost : M T Unit) := by
  refine (answers_runPrecompile _ _).bind fun _ => ?_
  refine (Keeps.answered (keeps_emitCall _ _ _)).bind fun _ => ?_
  refine (Keeps.answered (keeps_readMemory _ _)).bind fun _ => ?_
  refine Keeps.get.bind fun _ => ?_
  refine (Keeps.answered (keeps_writeMemory _ _)).bind fun _ => ?_
  refine (Keeps.answered (keeps_push _)).bind fun _ => ?_
  exact answers_takeGas _

/-- An inner frame is new: nothing but its gas limit and the header come from its caller. -/
structure Fresh (inner : Inner T) (s : Machine T) : Prop where
  evm : inner.evm = { gas := .new inner.evm.gas.limit }
  header : inner.exe.header = s.exe.header
  ret : inner.exe.ret = []

omit [Crypto] in
theorem wp_newFrame (scope : Scope) (limit : Int) :
    wp (newFrame scope limit) (fun inner t => t = s ∧ inner.scope = scope ∧ Fresh inner s ∧
      inner.evm.gas.limit = limit) (fun _ _ => False) s := by
  simp only [newFrame, wp_bind, wp_get, wp_pure]
  exact ⟨trivial, trivial, ⟨rfl, rfl, rfl⟩, rfl⟩

/-- The frame a call enters, and what the caller keeps meanwhile. -/
structure Entered (a : CallArgs) (target : Target) (gas : CallGas) (s : Machine T) (inner : Inner T) (pending : Pending)
    (t : Machine T) : Prop where
  moves : Transfers sc.this a.address a.value (sc.ctx.movesValue ∧ sc.this ≠ a.address) s t
  fresh : Fresh inner s
  limit : inner.evm.gas.limit = gas.forwarded
  scope : ∃ data, inner.scope =
    ⟨decode target.code, innerCall sc a data gas.forwarded, { sc.ctx with depth := sc.ctx.depth + 1 }⟩
  pending : pending = .call gas.base a.retOffset a.retSize gas.stipend (gas.base + gas.forwarded - gas.stipend)
  notPrecompile : Precompiles.isPrecompile a.address = false

/-- What the part of a call before its frame ends in. -/
def Entering (a : CallArgs) (target : Target) (gas : CallGas) (s : Machine T) : Opened T → Machine T → Prop
  | .done cost, t => cost = gas.base ∧ Answered (Effect.isRead ·) s t ∧ Precompiles.isPrecompile a.address = true
  | .frame inner pending, t => Entered sc a target gas s inner pending t

theorem wp_callEnter (a : CallArgs) (target : Target) (gas : CallGas) :
    wp (callEnter sc instruction a target gas) (Entering sc a target gas s)
      (fun f => (within (Effect.isRead ·)).err f s) s := by
  unfold callEnter
  rw [wp_bind]
  refine wp_mono (wp_callData a) (fun data t ht => ?_) fun f t ht => ?_
  · subst ht
    rw [wp_ite]
    refine ⟨fun hp => ?_, fun hp => ?_⟩
    · rw [wp_bind]
      refine wp_mono (answers_callPrecompile sc instruction a data _ t) (fun _ u hu => ?_) fun f u hu => hu
      exact (wp_pure _).2 ⟨rfl, hu, hp⟩
    · rw [wp_bind]
      refine wp_mono (wp_callTransfer sc a) (fun _ u hu => ?_) fun f u hu => hu
      rw [wp_bind, wp_emit, wp_bind]
      refine wp_mono (wp_newFrame _ _) (fun inner w hw => ?_) fun _ _ h => h.elim
      obtain ⟨rfl, hscope, hfresh, hlimit⟩ := hw
      have hheader : u.exe.header = t.exe.header := congrArg Regs.header hu.regs
      exact (wp_pure _).2 ⟨⟨hu.trail, hu.regs, hu.stack⟩, ⟨hfresh.evm, hfresh.header.trans hheader, hfresh.ret⟩,
        hlimit, ⟨data, hscope⟩, rfl, by simpa using hp⟩
  · subst ht
    exact fun _ _ => Failed.refl _ _

/-- The opcode is one of the CALL family. -/
def Op.isMessageCall : Op → Bool
  | .call | .callcode | .delegatecall | .staticcall => true
  | _ => false

omit [Crypto] [EventTracer T] in
theorem movesValue_callContext (ctx : Context) {op : Op} (h : op.isMessageCall) :
    (callContext ctx op).movesValue = decide (op = .call ∨ op = .callcode) := by
  cases op <;> first | rfl | cases h

omit [Crypto] [EventTracer T] in
@[simp] theorem this_inContext (op : Op) : (sc.inContext op).this = sc.this := by
  simp only [Scope.this, Scope.inContext]
  cases op <;> rfl

/-- What an opened call leaves its caller: its accounts read, its value moved or not, its
    operands gone. -/
structure CallsFrame (x : Step T) (inner : Inner T) (pending : Pending) (t : Machine T) : Prop where
  trail : ∃ mid, Acts (Effect.isRead ·) x.before.trail mid ∧
    Moved x.this x.target x.value (x.this ≠ x.target) mid t.trail
  regs : t.regs = x.before.regs
  stack : t.evm.stack.length + 6 ≤ x.before.evm.stack.length
  has : x.op = .call ∨ x.op = .callcode → x.has 7
  fresh : Fresh inner x.before
  ctx : inner.scope.ctx = { callContext x.scope.ctx x.op with depth := (callContext x.scope.ctx x.op).depth + 1 }
  pending : ∃ gas retOffset retSize stipend traceCost, pending = .call gas retOffset retSize stipend traceCost
  notPrecompile : Precompiles.isPrecompile x.target = false

def CallOpens (x : Step T) : Opened T → Machine T → Prop
  | .done _, t => Answered (Effect.isRead ·) x.before t ∧ Precompiles.isPrecompile x.target = true
  | .frame inner pending, t => CallsFrame x inner pending t

theorem wp_callOpen (x : Step T) (hop : x.op.isMessageCall) :
    wp (callOpen (x.scope.inContext x.op) x.instruction) (CallOpens x)
      (fun f => (within (Effect.isRead ·)).err f x.before) x.before := by
  have hr : ∀ e : Effect, e.isRead → e.isTidy → e.isRead := fun _ h _ => h
  unfold callOpen
  refine (keeps_callArgs _).step (fun _ _ h => h) fun a t hargs ht => ?_
  refine (keeps_callMemory a).step (fun _ _ h r hr => ht.failed (h r hr)) fun mem u hmem hu => ?_
  have hu := ht.trans hu
  refine (keeps_callCreateCost hr a).step (fun _ _ h r hr => hu.failed (h r hr)) fun create v hcreate hv => ?_
  have hv := hu.trans hv
  refine (keeps_callTarget hr a.address).step (fun _ _ h r hr => hv.failed (h r hr)) fun target w htarget hw => ?_
  have hw : Within (Effect.isRead ·) x.before w := hv.trans hw
  rw [wp_bind, wp_remaining, wp_ite]
  refine ⟨fun _ => ?_, fun _ => ?_⟩
  · exact wp_mono (wp_callOutOfGas _ _) (fun _ _ h => h.elim) fun _ _ h r hr => hw.failed (h r hr)
  · refine wp_mono (wp_callEnter _ _ a target _) (fun o z hz => ?_) fun _ _ h r hr => hw.failed (h r hr)
    have hargs := callArgs_ok _ hargs
    have htarget' : a.address = x.target := hargs.address
    obtain ⟨rest, hrest, hlen⟩ := hargs.rest
    have hst : w.evm.stack.length ≤ rest.length := by
      have h₁ : u.evm.stack.length ≤ t.evm.stack.length := (shrinks_callMemory _).ok hmem
      have h₂ : v.evm.stack.length ≤ u.evm.stack.length := (shrinks_callCreateCost _).ok hcreate
      have h₃ : w.evm.stack.length ≤ v.evm.stack.length := (shrinks_callTarget _).ok htarget
      rw [hrest] at h₁
      exact h₃.trans (h₂.trans h₁)
    cases o with
    | done cost => exact ⟨(Answered.of_within hw).trans hz.2.1, htarget' ▸ hz.2.2⟩
    | frame inner pending =>
      obtain ⟨⟨⟨mid, hmid, hmoved⟩, hregs, hstack⟩, hfresh, -, ⟨data, hscope⟩, hpending, hp⟩ := hz
      have hmay : (x.scope.inContext x.op).ctx.movesValue = decide (x.op = .call ∨ x.op = .callcode) :=
        movesValue_callContext _ hop
      refine ⟨⟨mid, hw.trail.trans hmid, ?_⟩, hregs.trans hw.regs, by rw [hstack]; omega, fun h => ?_,
        ⟨hfresh.evm, hfresh.header.trans (congrArg Regs.header hw.regs), hfresh.ret⟩, by rw [hscope]; rfl,
        ⟨_, _, _, _, _, hpending⟩, htarget' ▸ hp⟩
      · have hmoved : Moved x.this x.target a.value
            ((x.scope.inContext x.op).ctx.movesValue ∧ x.this ≠ x.target) mid z.trail := by
          simpa only [this_inContext, htarget', Step.this] using hmoved
        by_cases hv : x.op = .call ∨ x.op = .callcode
        · rw [show x.value = a.value from ?_]
          · refine hmoved.congr ⟨fun h => h.2, fun h => ⟨?_, h⟩⟩
            simp [hmay, hv]
          · rw [(hargs.moving (by simp [hmay, hv])).1]
            rcases hv with h | h <;> simp only [Step.value, h, Step.operand]
        · rw [show x.value = 0 from ?_]
          · exact hmoved.zero (by simp [hmay, hv])
          · unfold Step.value
            cases h : x.op <;> simp_all [Op.isMessageCall]
      · exact (hargs.moving (by simpa [hmay] using h)).2

/-! ## Opening the frame of a creation -/

omit [EventTracer T] in
theorem keeps_popSalt (isCreate2 : Bool) : Keeps (within P) (popSalt isCreate2 : M T Word) :=
  .ite (fun _ => keeps_pop) fun _ => .pure _

omit [EventTracer T] in
theorem keeps_initCode (offset size : Nat) : Keeps (within P) (initCode offset size : M T (Bytes × Int)) := by
  refine (keeps_lift _).bind fun _ => ?_
  refine (keeps_expandTo _).bind fun _ => ?_
  refine keeps_memoryExpansionCost.bind fun _ => ?_
  refine (keeps_readMemory _ _).bind fun _ => ?_
  exact .pure _

theorem keeps_bumpNonce {this : Address} (depth : Nat) (hload : P (.load this)) (hbump : P (.bump this)) :
    Keeps (within P) (bumpNonce depth this : M T Word) := fun s => by
  unfold bumpNonce
  rw [wp_bind, wp_onExt, Ext.nonce, wp_bind]
  refine wp_def.2 ⟨fun a e ha => ?_, fun f e hf r _ => ?_⟩
  · have hs : Within P s { s with ext := e } := ⟨.one hload (.load ha), rfl, id⟩
    have hl : e.state.lookup this = some a := (Ext.pulled ha).lookup
    simp only [wp_pure, wp_bind, wp_lift, wp_onExt, Ext.wp_accountMut, wp_touch, wp_emit]
    refine ⟨fun bumped hb => ⟨fun _ => ⟨fun val hval => ⟨fun new hnew => ?_, fun f hf r hr => ?_⟩, fun f hf r hr => ?_⟩,
      fun h => by simp [hl] at h⟩, fun f hf r hr => ?_⟩
    · obtain ⟨-, rfl⟩ := Word.add_ok hb
      obtain ⟨-, rfl⟩ := Word.asU64_ok hval
      split at hnew
      · next hroom =>
        cases hnew
        have hact : Act (.bump this) (Machine.trail { s with ext := e }) _ := .bump hl (by omega)
        exact hs.trans ⟨.one hbump hact, rfl, id⟩
      · cases hnew
    · split at hf <;> cases hf
      cases hr
    · obtain ⟨why, rfl⟩ := Word.asU64_error hf
      cases hr
    · obtain ⟨why, rfl⟩ := Word.add_error hf
      cases hr
  · rw [Ext.pull_error hf]
    exact Failed.refl P s

omit [EventTracer T] in
theorem keeps_openAccount {created : Address} (hwarm : P (.warmAddress created)) (hmark : P (.mark created))
    (hopen : P (.openAccount created)) : Keeps (within P) (openAccount created : M T Unit) := by
  refine Keeps.bind (.modify ?_) fun _ => Keeps.bind (keeps_warmTouch hwarm) fun _ => .modify ?_
  · exact fun _ => ⟨.one hmark .mark, rfl, id⟩
  · exact fun _ => ⟨.one hopen .openAccount, rfl, id⟩

/-- The creator is loaded once its nonce is bumped. -/
theorem bumpNonce_loaded {depth : Nat} {this : Address} {n : Word} {t : Machine T}
    (h : bumpNonce depth this s = .ok n t) : (t.ext.state.lookup this).isSome := by
  have hw : wp (bumpNonce depth this) (fun _ t => (t.ext.state.lookup this).isSome) (fun _ _ => True) s := by
    unfold bumpNonce
    rw [wp_bind, wp_onExt, Ext.nonce, wp_bind]
    refine wp_def.2 ⟨fun a e ha => ?_, fun _ _ _ => trivial⟩
    have hl : e.state.lookup this = some a := (Ext.pulled ha).lookup
    simp only [wp_pure, wp_bind, wp_lift, wp_onExt, Ext.wp_accountMut, wp_touch, wp_emit, Ext.isSome_lookup_mutate, hl]
    simp
  exact (of_ok hw h :)

omit [Crypto] [EventTracer T] in
theorem openAccount_loaded {created : Address} {u : Unit} {t : Machine T} (h : openAccount created s = .ok u t) :
    (t.ext.state.lookup created).isSome := by
  have hw : wp (openAccount created) (fun _ t => (t.ext.state.lookup created).isSome) (fun _ _ => True) s := by
    unfold openAccount
    rw [wp_bind, wp_modify, wp_bind]
    refine wp_def.2 ⟨fun _ u _ => ?_, fun _ _ _ => trivial⟩
    rw [wp_modify]
    simp
  exact (of_ok hw h :)

/-- The creator's part: it is read, and its nonce bumped. -/
def Effect.bumps (this : Address) : Effect → Prop
  | .bump a => a = this
  | e => e.isRead

/-- The new account's part. -/
def Effect.opens (created : Address) : Effect → Prop
  | .warmAddress a | .mark a | .openAccount a => a = created
  | _ => False

/-- What an opened creation leaves its creator. -/
structure CreatesFrame (x : Step T) (inner : Inner T) (pending : Pending) (t : Machine T) : Prop where
  has : x.has 3
  trail : ∃ mid, Acts (Effect.bumps x.this) x.before.trail mid ∧ (mid.ext.state.lookup x.this).isSome ∧
    Acts (Effect.opens inner.scope.ctx.created) mid t.trail
  regs : t.regs = x.before.regs
  stack : t.evm.stack.length + 3 ≤ x.before.evm.stack.length
  fresh : Fresh inner x.before
  ctx : inner.scope.ctx = { callContext x.scope.ctx x.op with
    created := inner.scope.ctx.created, depth := (callContext x.scope.ctx x.op).depth + 1 }
  opened : (t.ext.state.lookup inner.scope.ctx.created).isSome
  this : inner.scope.call.to_ = 0
  value : inner.scope.call.value = x.value
  limit : 0 < inner.evm.gas.limit
  pending : ∃ baseCost, pending = .create baseCost inner.evm.gas.limit inner.scope.ctx.created x.value

omit [EventTracer T] in
theorem CreatesFrame.loaded {x : Step T} {inner : Inner T} {pending : Pending} {t : Machine T}
    (h : CreatesFrame x inner pending t) :
    (t.ext.state.lookup x.this).isSome ∧ (t.ext.state.lookup inner.scope.ctx.created).isSome := by
  obtain ⟨mid, -, hthis, hopen⟩ := h.trail
  exact ⟨hopen.extends.loaded _ hthis, h.opened⟩

omit [EventTracer T] in
/-- The effects of an opened creation are those its step allows. -/
theorem CreatesFrame.acts {x : Step T} {inner : Inner T} {pending : Pending} {t : Machine T}
    (h : CreatesFrame x inner pending t) (hop : x.isCreation) (hstatic : x.scope.ctx.callType ≠ .static) :
    Acts x.allows x.before.trail t.trail := by
  obtain ⟨mid, hbump, -, hopen⟩ := h.trail
  refine (hbump.mono fun e he => ?_).trans (hopen.mono fun e he => ?_)
  · cases e with
    | bump => exact ⟨hop, h.has, hstatic, he⟩
    | _ => exact x.allows_read he
  · cases e with
    | warmAddress => trivial
    | mark | openAccount => exact ⟨hop, h.has, hstatic⟩
    | _ => exact he.elim

/-- An entry in the accounts. -/
def Effect.isOpening : Effect → Bool
  | .openAccount _ => true
  | _ => false

/-- What a step may do that opens no frame: a message call only reads, and a creation reports
    before it opens the account. -/
def Step.attempts (x : Step T) (e : Effect) : Prop :=
  x.allows e ∧ e.isOpening = false ∧ (x.op.isMessageCall → e.isRead)

omit [Crypto] [EventTracer T] in
theorem Step.attempts_read (x : Step T) {e : Effect} (h : e.isRead) : x.attempts e :=
  ⟨x.allows_read h, (by cases e <;> first | rfl | cases h), fun _ => h⟩

omit [Crypto] [EventTracer T] in
theorem Step.attempts_of_allows {x : Step T} (hcall : x.op.isCall = false) {e : Effect} (h : x.allows e) :
    x.attempts e := by
  refine ⟨h, ?_, fun hop => ?_⟩
  · cases e with
    | openAccount => rcases h.1 with hop | hop <;> rw [hop] at hcall <;> cases hcall
    | _ => rfl
  · revert hcall hop
    cases x.op <;> simp [Op.isCall, Op.isMessageCall]

omit [Crypto] [EventTracer T] in
/-- Opening an account goes through. -/
theorem wp_openAccount {Q : Unit → Machine T → Prop} {E : Fault → Machine T → Prop} {created : Address}
    (hQ : ∀ t, openAccount created s = .ok ⟨⟩ t → Q ⟨⟩ t) : wp (openAccount created) Q E s := by
  have hw : wp (openAccount created) (fun _ _ => True) (fun _ _ => False) s := by
    simp only [openAccount, warmTouch, wp_bind, wp_modify, wp_onExt, Ext.warmAddress, wp_get, wp_set, wp_pure, wp_ite,
      wp_touch, implies_true, and_self]
  obtain ⟨_, t, h, -⟩ := exists_ok hw
  exact (wp_of_ok h).2 (hQ t h)

def CreateOpens (x : Step T) : Opened T → Machine T → Prop
  | .done _, _ => False
  | .frame inner pending, t => CreatesFrame x inner pending t

theorem wp_createOpen (x : Step T) (hop : x.isCreation) (hstatic : x.scope.ctx.callType ≠ .static) :
    wp (createOpen (x.scope.inContext x.op)) (CreateOpens x)
      (fun f => (within x.attempts).err f x.before) x.before := by
  have hP : ∀ e : Effect, e.isRead → e.bumps x.this := fun e h => by cases e <;> first | exact h | cases h
  have hthis : (x.scope.inContext x.op).this = x.this := this_inContext _ _
  unfold createOpen
  rw [wp_bind, wp_pop]
  refine ⟨fun value r₀ h₀ => ?_, fun _ _ _ => failed_halt _ _⟩
  simp only [popUsize, bind_assoc, wp_bind, wp_pop, wp_lift]
  refine ⟨fun w₁ r₁ h₁ => ⟨fun offset _ => ⟨fun w₂ r₂ h₂ => ⟨fun size _ => ?_, fun _ _ _ _ => ⟨.refl _ _, rfl, rfl⟩⟩,
    fun _ _ _ => ⟨.refl _ _, rfl, rfl⟩⟩, fun _ _ _ _ => ⟨.refl _ _, rfl, rfl⟩⟩, fun _ _ _ => ⟨.refl _ _, rfl, rfl⟩⟩
  subst h₁ h₂
  have hlen : x.before.evm.stack.length = r₂.length + 3 := by rw [h₀]; rfl
  have hvalue : x.value = value := by
    rcases hop with h | h <;> simp only [Step.value, h, Step.operand, h₀, List.getD_cons_zero]
  have hhas : x.has 3 := by
    simp only [Step.has]
    omega
  have hfailed : ∀ {u v : Machine T}, Within (Effect.bumps x.this) x.before u → Failed (Effect.bumps x.this) u v →
      Failed x.attempts x.before v := fun h h' => (h.failed h').mono fun e he => by
    cases e with
    | bump =>
      refine ⟨⟨hop, hhas, hstatic, he⟩, rfl, fun hmessage => ?_⟩
      rcases hop with hop | hop <;> rw [hop] at hmessage <;> cases hmessage
    | openAccount => cases he
    | _ => exact x.attempts_read he
  have ht₀ : Within (Effect.bumps x.this) x.before { x.before with evm.stack := r₂ } :=
    .of_eq rfl rfl (.inl (by simp; omega))
  rw [hthis]
  refine (keeps_popSalt _).run (fun _ _ h r hr => hfailed ht₀ (h r hr)) fun salt t hsalt ht => ?_
  have ht := ht₀.trans ht
  refine (keeps_initCode _ _).step (fun _ _ h r hr => hfailed ht (h r hr)) fun code u hcode hu => ?_
  have hu := ht.trans hu
  refine (keeps_bumpNonce _ (hP _ rfl) rfl).step (fun _ _ h r hr => hfailed hu (h r hr)) fun nonce v hnonce hv => ?_
  have hv : Within (Effect.bumps x.this) x.before v := hu.trans hv
  rw [wp_bind]
  refine wp_openAccount fun w hw' => ?_
  have hw := (keeps_openAccount (P := Effect.opens _) rfl rfl rfl).ok hw'
  have hst : w.evm.stack.length ≤ r₂.length :=
    ((shrinks_openAccount _).ok hw').trans (((shrinks_bumpNonce _ _).ok hnonce).trans
      (((shrinks_initCode _ _).ok hcode).trans ((shrinks_popSalt _).ok hsalt)))
  have hregs : w.regs = x.before.regs := hw.regs.trans hv.regs
  simp only [createEnter, wp_bind, wp_remaining, wp_ite, wp_throw]
  refine ⟨fun _ r hr => (by cases hr), fun hleft => ?_⟩
  refine wp_mono (wp_newFrame _ _) (fun inner z hz => ?_) fun _ _ h => h.elim
  obtain ⟨rfl, hscope, hfresh, hlimit⟩ := hz
  refine (wp_pure _).2 ⟨hhas, ⟨v.trail, hv.trail, bumpNonce_loaded hnonce, ?_⟩, hregs, by omega,
    ⟨hfresh.evm, hfresh.header.trans (congrArg Regs.header hregs), hfresh.ret⟩, ?_, ?_, ?_, ?_, ?_, ?_⟩
  · rw [hscope]
    exact hw.trail
  · rw [hscope]
    rfl
  · rw [hscope]
    exact openAccount_loaded hw'
  · rw [hscope]
  · rw [hscope, hvalue]
  · rw [hlimit]
    omega
  · exact ⟨_, by rw [hscope, hlimit, hvalue]⟩

/-! ## Closing a frame -/

/-- What can only fail by a panic. -/
def panicking (σ : Type) : Frame Fault σ where
  ok _ _ := True
  err f _ _ := ∀ r, f ≠ .report r
  refl _ := trivial
  trans _ _ := trivial
  fail _ h := h

omit [Crypto] [EventTracer T] in
theorem panicking_revertTouch (τ : AccountTouch) : Keeps (panicking Ext) (Evm.revertTouch τ) := fun e => by
  unfold Evm.revertTouch
  cases τ <;> simp [Ext.wp_accountMut, panicking]

omit [Crypto] in
/-- The undo of a frame's touches cannot report. -/
theorem wp_revert {Q : Unit → Ext → Prop} {e : Ext} (evm : Evm) (hQ : ∀ e', evm.revert e = .ok ⟨⟩ e' → Q ⟨⟩ e') :
    wp evm.revert Q (fun f _ => ∀ r, f ≠ .report r) e :=
  (Keeps.forM _ fun τ _ => panicking_revertTouch τ).run (fun _ _ h => h) fun _ e' h _ => hQ e' h

/-- A frame that was dropped: its touches undone, those that survive kept. -/
structure RolledBack (out : Evm) (t u : Trail) : Prop where
  ext : out.revert t.ext = .ok ⟨⟩ u.ext
  touches : u.touches = t.touches ++ out.touches.filter (·.survivesRevert)
  logs : u.logs = t.logs

omit [Crypto] [EventTracer T] in
theorem wp_dropFrame (out : Evm) (hroom : s.evm.stack.length < stackLimit) :
    wp (dropFrame out) (fun _ t => RolledBack out s.trail t.trail ∧ t.regs = s.regs ∧
      t.evm.stack = 0 :: s.evm.stack) (fun f _ => ∀ r, f ≠ .report r) s := by
  simp only [dropFrame, wp_bind, wp_push, wp_onExt, wp_modify]
  refine ⟨fun _ => wp_revert out fun e he => ⟨⟨he, rfl, rfl⟩, rfl, trivial⟩, fun h => by omega⟩

/-- A frame that was kept: its touches follow the caller's. -/
def Trail.merge (t : Trail) (touches : List AccountTouch) : Trail := { t with touches := t.touches ++ touches }

omit [Crypto] [EventTracer T] in
theorem wp_copyBack {Q : Unit → Machine T → Prop} {E : Fault → Machine T → Prop} (retOffset : Nat) (copied : Bytes)
    (hQ : ∀ memory, Q () { s with evm.memory := memory }) (hE : ∀ f t, (∀ r, f ≠ .report r) → E f t) :
    wp (copyBack retOffset copied) Q E s := by
  have hE' : ∀ f, copyFromSlice s.evm.memory retOffset copied = .error f → E f s := by
    intro f hf
    refine hE f s fun r => ?_
    unfold copyFromSlice at hf
    split at hf <;> cases hf
    nofun
  simp only [copyBack, writeMemory, wp_ite, wp_bind, wp_get, wp_lift, wp_modify, wp_pure]
  exact ⟨fun _ => ⟨fun memory _ => hQ memory, hE'⟩, fun _ => hQ s.evm.memory⟩

omit [Crypto] in
/-- The end of a message call: rolled back or merged, and paid for. -/
theorem wp_callClose (retOffset retSize : Nat) (stipend traceCost : Int) (out : Output T)
    (hroom : s.evm.stack.length < stackLimit) :
    wp (callClose sc instruction retOffset retSize stipend traceCost out)
      (fun _ t => (if out.evm.reverted then RolledBack out.evm s.trail t.trail
          else t.trail = s.trail.merge out.evm.touches) ∧
        t.regs = { s.regs with ret := out.ret, used := s.evm.gas.used + (out.evm.gas.used - stipend) } ∧
        t.evm.stack = (if out.evm.reverted then 0 else 1) :: s.evm.stack)
      (fun f _ => ∀ r, f ≠ .report r) s := by
  simp only [callClose, emitCall, joinTracer, spend, wp_bind, wp_get, wp_emit, wp_modify]
  refine wp_copyBack _ _ (fun memory => ?_) fun _ _ h => h
  by_cases hrev : out.evm.reverted = true
  · simp only [hrev, if_true, mergeReverted, wp_bind, wp_modify, wp_setRet]
    refine wp_mono (wp_dropFrame _ hroom) (fun _ t ht => ?_) fun _ _ h => h
    obtain ⟨⟨hext, htouches, hlogs⟩, hregs, hst⟩ := ht
    exact ⟨⟨hext, htouches, hlogs⟩, hregs, hst⟩
  · simp only [hrev, Bool.false_eq_true, if_false, mergeKept, wp_bind, wp_modify, wp_setRet, wp_push]
    refine ⟨fun _ => ⟨rfl, rfl, trivial⟩, fun h => ?_⟩
    exact absurd h (by simpa using hroom)

/-- What a successful creation does to the accounts, before it is merged: the code and the
    nonce, then the value. -/
def Deployed (this created : Address) (v : Word) (may : Prop) (code : Bytes) (t u : Trail) : Prop :=
  ∃ mid, Moved this created v may
      { t with ext := t.ext.mutate created fun a => { a with code := (code, Crypto.keccak256 code), nonce := 1 } } mid ∧
    u = { mid with touches := mid.touches ++ [.create created v 1 code (Crypto.keccak256 code)] }

omit [EventTracer T] in
theorem wp_loaded {β : Type} {Q : β → Machine T → Prop} {E : Fault → Machine T → Prop} {a : Address} {account : Account}
    (f : Account → β) (h : s.ext.state.lookup a = some account) :
    wp (onExt (do return f (← Ext.pull a))) Q E s ↔ Q (f account) s := by
  rw [wp_onExt, wp_bind, wp_of_ok (Ext.pull_loaded h), wp_pure]

theorem wp_createTransfer {created : Address} {v : Word} (ht : (s.ext.state.lookup sc.this).isSome)
    (hc : (s.ext.state.lookup created).isSome) :
    wp (createTransfer sc created v) (fun _ t => Moved sc.this created v sc.ctx.movesValue s.trail t.trail ∧
      t.regs = s.regs ∧ t.evm.stack = s.evm.stack) (fun f _ => ∀ r, f ≠ .report r) s := by
  obtain ⟨a, ha⟩ := Option.isSome_iff_exists.1 ht
  obtain ⟨b, hb⟩ := Option.isSome_iff_exists.1 hc
  unfold createTransfer
  rw [wp_bind, Ext.balance, wp_loaded _ ha, wp_bind, Ext.balance, wp_loaded _ hb, wp_ite]
  refine ⟨fun h => ?_, fun h => (wp_pure _).2 ⟨.still ha hb fun h' => h ⟨h'.2.1, h'.1, h'.2.2⟩, rfl, rfl⟩⟩
  exact wp_mono (wp_moveValue ha hb) (fun _ t ht => ⟨.moved h.2.1 h.1 ha h.2.2 ht.1, ht.2⟩) fun _ _ h => h

theorem wp_deploy {created : Address} {v : Word} {code : Bytes} (ht : (s.ext.state.lookup sc.this).isSome)
    (hc : (s.ext.state.lookup created).isSome) :
    wp (deploy sc created v code) (fun _ t => Deployed sc.this created v sc.ctx.movesValue code s.trail t.trail ∧
      t.regs = s.regs ∧ t.evm.stack = s.evm.stack) (fun f _ => ∀ r, f ≠ .report r) s := by
  obtain ⟨b, hb⟩ := Option.isSome_iff_exists.1 hc
  unfold deploy
  rw [wp_bind, Ext.code, wp_loaded _ hb, wp_bind, wp_onExt, Ext.wp_accountMut]
  refine ⟨fun _ => ?_, fun h => by simp [hb] at h⟩
  rw [wp_bind]
  refine wp_mono (wp_createTransfer sc ?_ ?_) (fun _ t ht => ?_) fun _ _ h => h
  · simpa only [Ext.isSome_lookup_mutate] using ht
  · simpa only [Ext.isSome_lookup_mutate] using hc
  · simp only [wp_bind, wp_touch, wp_emit]
    exact ⟨⟨t.trail, ht.1, rfl⟩, ht.2.1, ht.2.2⟩

/-- The end of a creation; the return buffer stays. -/
theorem wp_createClose {baseCost forwarded : Int} {created : Address} {v : Word} (out : Output T)
    (hroom : s.evm.stack.length < stackLimit) (ht : (s.ext.state.lookup sc.this).isSome)
    (hc : (s.ext.state.lookup created).isSome) :
    wp (createClose sc instruction baseCost forwarded created v out)
      (fun _ t => (if (Pending.create baseCost forwarded created v).keeps out then
            ∃ mid, Deployed sc.this created v sc.ctx.movesValue out.ret s.trail mid ∧ t.trail = mid.merge out.evm.touches
          else RolledBack out.evm s.trail t.trail) ∧
        t.regs = { s.regs with used := t.evm.gas.used } ∧ t.evm.stack =
          (if (Pending.create baseCost forwarded created v).keeps out then created.toWord else 0) :: s.evm.stack)
      (fun f _ => ∀ r, f ≠ .report r) s := by
  have hdrop : ∀ (u : Machine T), u.trail = s.trail → u.regs = { s.regs with used := u.evm.gas.used } →
      u.evm.stack = s.evm.stack → wp (dropFrame out.evm) (fun _ t => RolledBack out.evm s.trail t.trail ∧
        t.regs = { s.regs with used := t.evm.gas.used } ∧ t.evm.stack = 0 :: s.evm.stack)
      (fun f _ => ∀ r, f ≠ .report r) u := by
    intro u hu hregs hst
    refine wp_mono (wp_dropFrame out.evm (by rw [hst]; exact hroom)) (fun _ t ht => ?_) fun _ _ h => h
    have hused : t.evm.gas.used = u.evm.gas.used := congrArg Regs.used ht.2.1
    exact ⟨hu ▸ ht.1, by rw [ht.2.1, hregs, hused], by rw [ht.2.2, hst]⟩
  simp only [createClose, emitCall, joinTracer, spend, wp_bind, wp_get, wp_emit, wp_modify, wp_ite]
  refine ⟨fun hgas => ?_, fun hgas => ⟨fun hrev => ?_, fun hrev => ?_⟩⟩
  · have hk : (Pending.create baseCost forwarded created v).keeps out = false := by
      cases hrev : out.evm.reverted
      · simp only [hrev, Bool.false_eq_true, if_false] at hgas
        simp [Pending.keeps, hrev, hgas]
      · simp [Pending.keeps, hrev]
    simp only [hk, Bool.false_eq_true, if_false]
    exact hdrop _ rfl rfl rfl
  · have hk : (Pending.create baseCost forwarded created v).keeps out = false := by simp [Pending.keeps, hrev]
    simp only [hk, Bool.false_eq_true, if_false]
    exact hdrop _ rfl rfl rfl
  · have hk : (Pending.create baseCost forwarded created v).keeps out = true := by
      simp only [hrev, Bool.false_eq_true, if_false] at hgas
      simp [Pending.keeps, hrev, not_lt.1 hgas]
    simp only [hk, if_true]
    refine wp_mono (wp_deploy sc ht hc) (fun _ t hd => ?_) fun _ _ h => h
    simp only [mergeKept, wp_bind, wp_modify, wp_push]
    have hused : t.evm.gas.used = _ := congrArg Regs.used hd.2.1
    refine ⟨fun _ => ⟨⟨t.trail, hd.1, rfl⟩, ?_, ?_⟩, fun h => ?_⟩
    · exact hd.2.1.trans (by simp only [Machine.regs, hused])
    · simp [hd.2.2]
    · exact absurd h (by simpa [hd.2.2] using hroom)

end Solenoid
