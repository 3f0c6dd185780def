/-
  Solenoid.BalanceEvents — what the events of balances say (`AccountEvent::SetValue`).

  Three places emit one: the transfer of a transaction, that of a call or of a creation, and
  the coinbase's fee. Each writes the balance in one statement and the event in another, so an
  event is held against the accounts of the machine itself, before and after (`Recounts`).
  The transaction's transfer says the sender's balance of the recipient, and a creation
  transfers to itself when it makes its own creator: `balances_told` says that these two are all.
-/
import Solenoid.Bookkeeping
import Solenoid.Flags
import Solenoid.Value

namespace Solenoid

open Hoare

/-! ## A list of events, read in order -/

/-- The event is one of a balance. -/
def Event.isValue (e : Event) : Bool :=
  match e.data with
  | .account (.setValue ..) => true
  | _ => false

/-- Each event of a balance says what the balance was and is to be, and no other balance changes. -/
def Replays : (Address → Option Word) → List Event → (Address → Option Word) → Prop
  | b, [], b' => b' = b
  | b, e :: es, b' =>
    match e.data with
    | .account (.setValue a val new) => b a = some val ∧ Replays (Function.update b a (some new)) es b'
    | _ => Replays b es b'

theorem replays_skip {e : Event} (h : e.isValue = false) (b : Address → Option Word) (es : List Event)
    (b' : Address → Option Word) : Replays b (e :: es) b' ↔ Replays b es b' := by
  obtain ⟨data, depth, reverted⟩ := e
  cases data with
  | account data =>
    cases data with
    | setValue => cases h
    | _ => exact Iff.rfl
  | _ => exact Iff.rfl

theorem replays_append_left {es : List Event} (h : ∀ e ∈ es, e.isValue = false) (b : Address → Option Word)
    (es' : List Event) (b' : Address → Option Word) : Replays b (es ++ es') b' ↔ Replays b es' b' := by
  induction es with
  | nil => exact Iff.rfl
  | cons e es ih =>
    rw [List.cons_append, replays_skip (h e List.mem_cons_self)]
    exact ih fun e' he' => h e' (List.mem_cons_of_mem _ he')

theorem replays_append_right {es' : List Event} (h : ∀ e ∈ es', e.isValue = false) (b b' : Address → Option Word)
    (es : List Event) : Replays b (es ++ es') b' ↔ Replays b es b' := by
  induction es generalizing b with
  | nil =>
    rw [List.nil_append]
    have hsame := replays_append_left h b [] b'
    rwa [List.append_nil] at hsame
  | cons e es ih =>
    by_cases he : e.isValue = true
    · obtain ⟨data, depth, reverted⟩ := e
      cases data with
      | account data =>
        cases data with
        | setValue a val new => exact and_congr_right fun _ => ih _
        | _ => cases he
      | _ => cases he
    · rw [List.cons_append, replays_skip (by simpa using he), replays_skip (by simpa using he)]
      exact ih b

/-- No event of a balance, or each is true of the accounts `e` and then `e'`. -/
def Recounts [Crypto] (e : Ext) (es : List Event) (e' : Ext) : Prop :=
  (∀ event ∈ es, event.isValue = false) ∨ Replays e.balanceOf es e'.balanceOf

/-- From `s` to `t` the trace got no event of a balance. -/
def Hushed : Machine LoggingTracer → Machine LoggingTracer → Prop := Adds fun e => e.isValue = false

/-- The two events of a transfer. -/
def transferEvents (depth : Nat) (src dst : Address) (a b v : Word) : List Event :=
  [⟨.account (.setValue src a (a - v)), depth, false⟩, ⟨.account (.setValue dst b (b + v)), depth, false⟩]

/-- They are true unless the value goes back to where it came from. -/
theorem replays_transfer {f : Address → Option Word} {src dst : Address} {a b v : Word} {depth : Nat} (ha : f src = some a)
    (hb : f dst = some b) :
    Replays f (transferEvents depth src dst a b v)
      (Function.update (Function.update f src (some (a - v))) dst (some (b + v))) ↔ (src = dst → v = 0) := by
  have hsecond : Replays f (transferEvents depth src dst a b v)
      (Function.update (Function.update f src (some (a - v))) dst (some (b + v))) ↔
        Function.update f src (some (a - v)) dst = some b := ⟨fun h => h.2.1, fun h => ⟨ha, h, rfl⟩⟩
  rw [hsecond]
  by_cases heq : src = dst
  · subst heq
    rw [ha] at hb
    cases hb
    rw [Function.update_self, Option.some.injEq]
    exact ⟨fun h _ => by bv_omega, fun h => by rw [h rfl]; bv_omega⟩
  · rw [Function.update_of_ne (Ne.symm heq), hb]
    exact iff_of_true rfl fun h => absurd h heq

section

variable [Crypto]

theorem Ext.balanceOf_update {e : Ext} {b : Address} (h : (e.state.lookup b).isSome) (v : Word) :
    (e.setValue b v).balanceOf = Function.update e.balanceOf b (some v) := by
  funext a
  rw [Ext.balanceOf_setValue h, Function.update_apply]

/-! ## Transfers -/

variable {sc : Scope} {s : Machine LoggingTracer}

/-- What a transfer traces, and the accounts it leaves. -/
theorem wp_moveValue_traced {src dst : Address} {a b : Account} {v : Word} {depth : Nat}
    (ha : s.ext.state.lookup src = some a) (hb : s.ext.state.lookup dst = some b) :
    wp (moveValue depth src dst a.value b.value v : M LoggingTracer Unit)
      (fun _ t => t.events = s.events ++ transferEvents depth src dst a.value b.value v ∧
        t.ext.balanceOf = Function.update (Function.update s.ext.balanceOf src (some (a.value - v))) dst
          (some (b.value + v)))
      (fun f _ => ∀ r, f ≠ .report r) s := by
  have hsrc : (s.ext.state.lookup src).isSome := by rw [ha]; rfl
  have hdst : ((s.ext.setValue src (a.value - v)).state.lookup dst).isSome := by
    rw [Ext.setValue, Ext.isSome_lookup_mutate, hb]
    rfl
  simp only [moveValue, wp_bind, wp_lift, wp_onExt, Ext.wp_accountMut, wp_touch, wp_emit]
  refine ⟨fun newSrc hsub => ?_, fun f hf r => ?_⟩
  · obtain ⟨funds, rfl⟩ := Word.sub_ok hsub
    refine ⟨fun _ => ⟨fun newDst hadd => ?_, fun f hf r => ?_⟩, fun h => by simp [ha] at h⟩
    · obtain ⟨room, rfl⟩ := Word.add_ok hadd
      refine ⟨fun _ => ⟨List.append_assoc _ [_] [_], ?_⟩, fun h => by simp [Ext.setValue] at hdst; simp [h] at hdst⟩
      rw [← Ext.balanceOf_update hsrc, ← Ext.balanceOf_update hdst]
      rfl
    · obtain ⟨why, rfl⟩ := Word.add_error hf
      exact Fault.noConfusion
  · obtain ⟨why, rfl⟩ := Word.sub_error hf
    exact Fault.noConfusion

omit [Crypto] in
theorem isValue_of_isNote {data : EventData} {depth : Nat} {reverted : Bool} (h : data.isNote = true) :
    Event.isValue ⟨data, depth, reverted⟩ = false := by
  cases data with
  | account e =>
    cases e with
    | setValue => cases h
    | _ => rfl
  | _ => rfl

omit [Crypto] in
theorem endures_hushed (depth : Nat) : Endures (adding fun e => e.isValue = false) depth where
  ok h _ := .of_eq h
  err := .of_eq
  note h := adds_emit (isValue_of_isNote h)
  said := Keeps.get.bind fun _ => adds_emit rfl
  op _ := adds_emit rfl
  any := .of_eq
  alarm h := adds_emit (isValue_of_isNote h)
  spent _ := adds_emit rfl
  failed h := h

/-- The balances stay, and the trace gets no event of one. -/
structure Unmoved (s t : Machine LoggingTracer) : Prop where
  hushed : Hushed s t
  balances : t.ext.balanceOf = s.ext.balanceOf

theorem Unmoved.trans {s t u : Machine LoggingTracer} (h : Unmoved s t) (h' : Unmoved t u) : Unmoved s u :=
  ⟨h.hushed.trans h'.hushed, h'.balances.trans h.balances⟩

def unmoved : Frame Fault (Machine LoggingTracer) where
  ok := Unmoved
  err _ := Hushed
  refl _ := ⟨.of_eq rfl, rfl⟩
  trans := .trans
  fail h h' := h.hushed.trans h'

theorem unmoved_of_reads {α : Type} {m : M LoggingTracer α} (h : Keeps (adding fun e => e.isValue = false) m)
    (h' : Keeps (within (Effect.isRead ·)) m) : Keeps unmoved m := fun s =>
  wp_mono (wp_and (h s) (h' s)) (fun _ t ht => ⟨ht.1, funext fun a => by
    have hkept : t.trail.ext.balanceOf a = s.trail.ext.balanceOf a := ht.2.trail.balanceOf_kept a
    exact hkept⟩) fun _ _ he => he.1

/-- The events from `s` to `t` are true of the balances. -/
def Truthful (s t : Machine LoggingTracer) : Prop := ∃ es, t.events = s.events ++ es ∧ Recounts s.ext es t.ext

namespace Truthful

variable {s t u : Machine LoggingTracer}

theorem after (h : Unmoved s t) (h' : Truthful t u) : Truthful s u := by
  obtain ⟨es, ht, hes⟩ := h.hushed
  obtain ⟨es', hu, hes'⟩ := h'
  refine ⟨es ++ es', by rw [hu, ht, List.append_assoc], hes'.imp (fun h e he =>
    (List.mem_append.1 he).elim (hes e) (h e)) fun h => ?_⟩
  rw [replays_append_left hes, ← Unmoved.balances ‹_›]
  exact h

theorem before (h : Truthful s t) (h' : Unmoved t u) : Truthful s u := by
  obtain ⟨es, ht, hes⟩ := h
  obtain ⟨es', hu, hes'⟩ := h'.hushed
  refine ⟨es ++ es', by rw [hu, ht, List.append_assoc], hes.imp (fun h e he =>
    (List.mem_append.1 he).elim (h e) (hes' e)) fun h => ?_⟩
  rw [replays_append_right hes', h'.balances]
  exact h

theorem of_hushed (h : Hushed s t) : Truthful s t := by
  obtain ⟨es, ht, hes⟩ := h
  exact ⟨es, ht, .inl hes⟩

end Truthful

theorem wp_callTransfer_truthful (a : CallArgs) :
    wp (callTransfer sc a : M LoggingTracer Unit) (fun _ => Truthful s) (fun f t => ∀ r, f = .report r → Hushed s t) s := by
  have hl : Listens (adding fun e => e.isValue = false) sc.ctx.depth := (endures_hushed sc.ctx.depth).listens
  have hload : ∀ b : Address, Keeps unmoved (onExt (Ext.balance b) : M LoggingTracer Word) := fun b =>
    unmoved_of_reads (hl.onExt _) (keeps_account _ rfl)
  unfold callTransfer
  refine (hload sc.this).step (fun _ _ h _ _ => h) fun x t hx ht => ?_
  refine (hload a.address).step (fun _ _ h _ _ => ht.hushed.trans h) fun y u hy hu => ?_
  obtain ⟨A, e, hA, rfl, rfl⟩ := balance_ok hx
  obtain ⟨B, e', hB, rfl, rfl⟩ := balance_ok hy
  have hthis := Ext.pull_lookup hB (Ext.pulled hA).lookup
  have haddr := (Ext.pulled hB).lookup
  have hread := ht.trans hu
  refine wp_ite.2 ⟨fun hc => ?_, fun _ => (wp_pure _).2 (.of_hushed hread.hushed)⟩
  refine wp_mono (wp_moveValue_traced hthis haddr) (fun _ w hw => .after hread ?_) fun f _ hf r hr => absurd hr (hf r)
  refine ⟨_, hw.1, .inr ?_⟩
  rw [hw.2]
  exact (replays_transfer (Ext.balanceOf_loaded hthis) (Ext.balanceOf_loaded haddr)).2 fun heq => absurd heq hc.2.2.2

/-! ## A frame that is opened -/

def Opened.Truthful (s : Machine LoggingTracer) : Opened LoggingTracer → Machine LoggingTracer → Prop
  | .done _, t => Hushed s t
  | .frame .., t => Solenoid.Truthful s t

theorem Opened.Truthful.after {s t u : Machine LoggingTracer} {o : Opened LoggingTracer} (h : Unmoved s t)
    (ho : o.Truthful t u) : o.Truthful s u := by
  cases o with
  | done gas => exact h.hushed.trans ho
  | frame inner pending => exact Solenoid.Truthful.after h ho

theorem wp_callEnter_truthful (instruction : Instruction) (a : CallArgs) (target : Target) (gas : CallGas) :
    wp (callEnter sc instruction a target gas) (fun o => o.Truthful s) (fun f t => ∀ r, f = .report r → Hushed s t) s := by
  have ht : Traces (adding fun e => e.isValue = false) sc.ctx.depth := (endures_hushed sc.ctx.depth).toTraces
  unfold callEnter
  rw [wp_bind]
  refine wp_mono (wp_callData a) (fun data t hst => ?_) fun _ t hst _ _ => hst ▸ .of_eq rfl
  subst hst
  refine wp_ite.2 ⟨fun _ => ?_, fun _ => ?_⟩
  · exact ((ht.callPrecompile instruction a data _).bind fun _ => .pure _).run (fun _ _ h _ _ => h) fun o u ho hu => by
      obtain ⟨_, _, -, hpure⟩ := bind_ok ho
      cases hpure
      exact hu
  · rw [wp_bind]
    refine wp_mono (wp_callTransfer_truthful a) (fun _ u hu => ?_) fun _ _ h => h
    rw [wp_bind, wp_emit]
    simp only [newFrame, wp_bind, wp_get, wp_pure]
    exact Solenoid.Truthful.before hu ⟨⟨[_], rfl, fun e he => by rw [List.mem_singleton.1 he]; rfl⟩, rfl⟩

theorem wp_callOpen_truthful (instruction : Instruction) :
    wp (callOpen sc instruction) (fun o => o.Truthful s) (fun f t => ∀ r, f = .report r → Hushed s t) s := by
  have ht : Traces (adding fun e => e.isValue = false) sc.ctx.depth := (endures_hushed sc.ctx.depth).toTraces
  have hl := ht.listens
  have hr : ∀ e : Effect, e.isRead → e.isTidy → e.isRead := fun _ h _ => h
  unfold callOpen
  refine (unmoved_of_reads hl.callArgs (keeps_callArgs _)).step (fun _ _ h _ _ => h) fun a t _ h₁ => ?_
  refine (unmoved_of_reads (hl.callMemory a) (keeps_callMemory a)).step (fun _ _ h _ _ =>
    h₁.hushed.trans h) fun memory u _ h₂ => ?_
  have h₂ := h₁.trans h₂
  refine (unmoved_of_reads (hl.callCreateCost a) (keeps_callCreateCost hr a)).step (fun _ _ h _ _ => h₂.hushed.trans h)
    fun create v _ h₃ => ?_
  have h₃ := h₂.trans h₃
  refine (unmoved_of_reads (hl.callTarget a.address) (keeps_callTarget hr a.address)).step (fun _ _ h _ _ =>
    h₃.hushed.trans h)
    fun target w _ h₄ => ?_
  have h₄ := h₃.trans h₄
  rw [wp_bind, wp_remaining, wp_ite]
  refine ⟨fun _ => ?_, fun _ => ?_⟩
  · refine wp_mono (wp_and (ht.callOutOfGas instruction w) (wp_callOutOfGas (P := fun _ => True) sc instruction))
      (fun _ _ h => h.2.elim) fun _ _ h _ _ => h₄.hushed.trans h.1
  · exact wp_mono (wp_callEnter_truthful instruction a target _) (fun o z hz => hz.after h₄)
      fun _ _ h r hr => h₄.hushed.trans (h r hr)

theorem wp_openFrame_truthful (instruction : Instruction) :
    wp (openFrame sc instruction) (fun o => o.Truthful s) (fun f t => ∀ r, f = .report r → Hushed s t) s := by
  have hcreate : wp (createOpen (sc.inContext instruction.op)) (fun o => o.Truthful s)
      (fun f t => ∀ r, f = .report r → Hushed s t) s := by
    refine (endures_hushed (sc.inContext instruction.op).ctx.depth).listens.createOpen.run (fun _ _ h _ _ =>
      h) fun o t _ ht => ?_
    cases o with
    | done gas => exact ht
    | frame inner pending => exact .of_hushed ht
  unfold openFrame
  split
  · exact hcreate
  · exact hcreate
  · exact wp_callOpen_truthful instruction

/-- An instruction that opens no frame. -/
theorem wp_unopened_hushed {exec : Exec LoggingTracer} {instruction : Instruction}
    (hnone : openedFrame sc instruction s = none) :
    wp (executeInstruction exec sc instruction) (fun _ => Hushed s) (fun f t => ∀ r, f = .report r → Hushed s t) s := by
  have hhushed := endures_hushed sc.ctx.depth
  by_cases hcall : instruction.op.isCall = true
  · rw [executeInstruction_call (x := ⟨sc, instruction, s⟩) hcall]
    refine wp_opCall_of (fun _ _ _ _ => .of_eq rfl) fun hg => ?_
    have hopen : wp (openFrame sc instruction) (fun o => o.Truthful s) (fun f t => ∀ r, f = .report r → Hushed s t) s :=
      wp_openFrame_truthful instruction
    unfold callFrame
    rw [wp_bind]
    refine wp_def.2 ⟨fun o t ho => ?_, fun f t ho => ⟨(wp_of_error ho).1 hopen, (wp_of_error ho).1 hopen⟩⟩
    have hopened := openedFrame_ok (x := ⟨sc, instruction, s⟩) hcall hg ho
    rw [hnone] at hopened
    cases o with
    | frame inner pending => cases hopened
    | done gas =>
      have ht : Hushed s t := (wp_of_ok ho).1 hopen
      exact (wp_pure _).2 (ht.trans (.of_eq rfl))
  · have hl := hhushed.listens
    exact (hl.instruction exec (by simpa using hcall) (fun _ => hl.opSstore hhushed.spent _) fun _ _ _ _ => .of_eq rfl).run
      (fun _ _ h _ _ => h) fun _ _ _ h => h

theorem unopened_hushed {exec : Exec LoggingTracer} {instruction : Instruction} {o : Option Bytes}
    {t : Machine LoggingTracer}
    (hnone : openedFrame sc instruction s = none) (he : executeStep exec sc instruction s = .ok o t) : Hushed s t := by
  have hsettles : ∀ (r : Option StepResult) (u : Machine LoggingTracer), Hushed s u →
      wp (settleStep sc instruction r) (fun _ => Hushed s) (fun _ _ => True) u := fun r u hu =>
    ((endures_hushed sc.ctx.depth).settleStep instruction r).run (fun _ _ _ => trivial) fun _ _ _ h => hu.trans h
  have hstep : wp (executeStep exec sc instruction) (fun _ => Hushed s) (fun _ _ => True) s := by
    unfold executeStep
    rw [wp_bind, wp_attempt]
    exact wp_mono (wp_unopened_hushed hnone) (fun r u hu => hsettles _ u hu) fun f u hu =>
      ⟨fun r hr => hsettles none u (hu r hr), fun _ => trivial⟩
  exact (wp_of_ok he).1 hstep

theorem openedFrame_truthful {instruction : Instruction} {inner : Inner LoggingTracer} {pending : Pending}
    {opened : Machine LoggingTracer} (h : openedFrame sc instruction s = some (inner, pending, opened)) :
      Truthful s opened := by
  obtain ⟨-, -, ho⟩ := openedFrame_some (x := ⟨sc, instruction, s⟩) h
  exact (wp_of_ok ho).1 (wp_openFrame_truthful instruction)

/-! ## A frame that is closed -/

/-- A creation that is kept pays the account that makes it, which it made. -/
def Pending.PaysItself (sc : Scope) (pending : Pending) (out : Output LoggingTracer) (e : Ext) : Prop :=
  match pending with
  | .call .. => False
  | .create _ _ created value => pending.keeps out = true ∧ sc.this = created ∧ value ≠ 0 ∧ sc.ctx.movesValue = true ∧
      value.toNat ≤ e.funds sc.this

omit [Crypto] in
instance (sc : Scope) (pending : Pending) (out : Output LoggingTracer) (e : Ext) :
    Decidable (pending.PaysItself sc out e) := by
  unfold Pending.PaysItself
  cases pending <;> infer_instance

omit [Crypto] in
theorem transferEvents_told {depth : Nat} {src dst : Address} {a b v : Word} :
    ¬∀ e ∈ transferEvents depth src dst a b v, e.isValue = false := fun h =>
  Bool.false_ne_true (h _ List.mem_cons_self).symm

theorem wp_createTransfer_traced {created : Address} {value : Word} (ht : (s.ext.state.lookup sc.this).isSome)
    (hc : (s.ext.state.lookup created).isSome) :
    wp (createTransfer sc created value : M LoggingTracer Unit) (fun _ t => ∃ es, t.events = s.events ++ es ∧
      (Recounts s.ext es t.ext ↔ ¬(sc.this = created ∧ value ≠ 0 ∧ sc.ctx.movesValue = true ∧
        value.toNat ≤ s.ext.funds sc.this)))
      (fun _ _ => True) s := by
  obtain ⟨a, ha⟩ := Option.isSome_iff_exists.1 ht
  obtain ⟨b, hb⟩ := Option.isSome_iff_exists.1 hc
  unfold createTransfer
  rw [wp_bind, Ext.balance, wp_loaded _ ha, wp_bind, Ext.balance, wp_loaded _ hb, wp_ite, Ext.funds_loaded ha]
  refine ⟨fun hmoves => ?_, fun hstill => (wp_pure _).2 ⟨[], (List.append_nil _).symm, ?_⟩⟩
  · refine wp_mono (wp_moveValue_traced ha hb) (fun _ t ht => ⟨_, ht.1, ?_⟩) fun _ _ _ => trivial
    have hreplays := @replays_transfer _ _ _ _ _ value sc.ctx.depth (Ext.balanceOf_loaded ha) (Ext.balanceOf_loaded hb)
    rw [Recounts, or_iff_right transferEvents_told, ht.2, hreplays]
    exact ⟨fun h hself => hself.2.1 (h hself.1), fun h heq => absurd ⟨heq, hmoves⟩ h⟩
  · exact iff_of_true (.inl fun _ he => absurd he List.not_mem_nil) fun hself => hstill hself.2

theorem Recounts.congr {e e' u u' : Ext} {es es' : List Event} (he : e'.balanceOf = e.balanceOf)
    (hu : u'.balanceOf = u.balanceOf)
    (hes' : ∀ event ∈ es', event.isValue = false) : Recounts e' (es ++ es') u' ↔ Recounts e es u := by
  unfold Recounts
  rw [he, hu, replays_append_right hes']
  refine or_congr_left ⟨fun h event hmem => h event (List.mem_append_left _ hmem), fun h event hmem => ?_⟩
  exact (List.mem_append.1 hmem).elim (h event) (hes' event)

theorem wp_deploy_traced {created : Address} {value : Word} {code : Bytes} (ht : (s.ext.state.lookup sc.this).isSome)
    (hc : (s.ext.state.lookup created).isSome) :
    wp (deploy sc created value code : M LoggingTracer Unit) (fun _ t => ∃ es, t.events = s.events ++ es ∧
      (Recounts s.ext es t.ext ↔ ¬(sc.this = created ∧ value ≠ 0 ∧ sc.ctx.movesValue = true ∧
        value.toNat ≤ s.ext.funds sc.this)))
      (fun _ _ => True) s := by
  obtain ⟨b, hb⟩ := Option.isSome_iff_exists.1 hc
  unfold deploy
  rw [wp_bind, Ext.code, wp_loaded _ hb, wp_bind, wp_onExt, Ext.wp_accountMut]
  refine ⟨fun _ => ?_, fun h => by simp [hb] at h⟩
  have hsame : (s.ext.mutate created fun a => { a with code := (code, Crypto.keccak256 code), nonce := 1 }).balanceOf =
      s.ext.balanceOf := by
    funext a
    exact Ext.balanceOf_mutate (f := fun account => { account with code := (code, Crypto.keccak256 code), nonce := 1 })
      (fun _ => rfl) hc a
  rw [wp_bind]
  refine wp_mono (wp_createTransfer_traced ?_ ?_) (fun _ t hmoved => ?_) fun _ _ h => h
  · simpa only [Ext.isSome_lookup_mutate] using ht
  · simpa only [Ext.isSome_lookup_mutate] using hc
  · obtain ⟨es, ht, hes⟩ := hmoved
    simp only [wp_bind, wp_touch, wp_emit]
    refine ⟨es ++ [_], by rw [← List.append_assoc, ← show t.events = s.events ++ es from ht]; rfl, ?_⟩
    rw [Recounts.congr hsame.symm rfl fun e he => by rw [List.mem_singleton.1 he]; rfl, hes, Ext.funds, hsame, ← Ext.funds]

/-- The events of a frame that came back are taken over, after that of the instruction; `lies` is
    when those that follow are not true. -/
def Takes (s : Machine LoggingTracer) (out : Output LoggingTracer) (lies : Prop) (t : Machine LoggingTracer) : Prop :=
  ∃ e es, t.events = s.events ++ [e] ++ out.tracer.events.map (Event.flagged out.evm.reverted) ++ es ∧
    e.isValue = false ∧ (Recounts s.ext es t.ext ↔ ¬lies)

theorem Takes.before {out : Output LoggingTracer} {t u : Machine LoggingTracer} {lies : Prop} (h : Takes s out lies t)
    (h' : Unmoved t u) : Takes s out lies u := by
  obtain ⟨e, es, ht, he, hes⟩ := h
  obtain ⟨es', hu, hes'⟩ := h'.hushed
  exact ⟨e, es ++ es', by rw [hu, ht, List.append_assoc], he, (Recounts.congr rfl h'.balances hes').trans hes⟩

/-- After the frame's events, those of the caller are true. -/
def Resumes (s : Machine LoggingTracer) (out : Output LoggingTracer) (t : Machine LoggingTracer) : Prop :=
  Takes s out False t

theorem Takes.resumes_iff {out : Output LoggingTracer} {t : Machine LoggingTracer} {lies : Prop} (h : Takes s out lies t) :
    Resumes s out t ↔ ¬lies := by
  obtain ⟨e, es, ht, he, hes⟩ := h
  refine ⟨fun ⟨e', es', ht', _, hes'⟩ => ?_, fun hnot => ⟨e, es, ht, he, iff_of_true (hes.2 hnot) not_false⟩⟩
  rw [ht, List.append_assoc, List.append_assoc, List.append_assoc, List.append_assoc] at ht'
  have hsame : es = es' := by
    have hcancel := List.append_cancel_left ht'
    rw [List.singleton_append, List.singleton_append, List.cons.injEq] at hcancel
    exact List.append_cancel_left hcancel.2
  rw [← hes, hsame]
  exact hes'.2 not_false

omit [Crypto] in
theorem joined_pushed (t : LoggingTracer) (e : Event) (other : LoggingTracer) (reverted : Bool) :
    (EventTracer.join (EventTracer.push t e) other reverted).events =
      t.events ++ [e] ++ other.events.map (Event.flagged reverted) := join_events _ _ _

theorem wp_callClose_takes (instruction : Instruction) (retOffset retSize : Nat) (stipend traceCost : Int)
    (out : Output LoggingTracer) : wp (callClose sc instruction retOffset retSize stipend traceCost out)
      (fun _ => Takes s out False) (fun _ _ => True) s := by
  have ht : Traces (adding fun e => e.isValue = false) sc.ctx.depth := (endures_hushed sc.ctx.depth).toTraces
  have hl := ht.listens
  have hrest : Keeps (adding fun e => e.isValue = false) (do
      copyBack retOffset (out.ret.take retSize)
      spend (out.evm.gas.used - stipend)
      if out.evm.reverted then mergeReverted out
      else
        mergeKept out
        setRet out.ret
        push 1) := by
    refine (hl.copyBack _ _).bind fun _ => ?_
    refine (ht.spend _).bind fun _ => ?_
    refine .ite (fun _ => hl.mergeReverted out) fun _ => ?_
    refine (hl.mergeKept out).bind fun _ => ?_
    refine (hl.returned _).bind fun _ => ?_
    exact hl.pushed _
  unfold callClose
  rw [emitCall, wp_bind, wp_bind, wp_get, wp_emit, wp_bind, joinTracer, wp_modify]
  refine hrest.run (fun _ _ _ => trivial) fun _ t _ ht => ?_
  obtain ⟨es, hes, hvalue⟩ := ht
  have hevents := hes.trans (congrArg (· ++ es) (joined_pushed s.exe.tracer _ out.tracer out.evm.reverted))
  exact ⟨_, es, hevents, rfl, iff_of_true (.inl hvalue) not_false⟩

theorem wp_createClose_takes (instruction : Instruction) {baseCost forwarded : Int} {created : Address} {value : Word}
    (out : Output LoggingTracer) (ht : (s.ext.state.lookup sc.this).isSome) (hc : (s.ext.state.lookup created).isSome) :
    wp (createClose sc instruction baseCost forwarded created value out)
      (fun _ => Takes s out ((Pending.create baseCost forwarded created value).PaysItself sc out s.ext))
        (fun _ _ => True) s := by
  have hl : Listens (adding fun e => e.isValue = false) sc.ctx.depth := (endures_hushed sc.ctx.depth).listens
  have hdrop : ∀ (u : Machine LoggingTracer), (Pending.create baseCost forwarded created value).keeps out = false →
      (∃ e, u.events = s.events ++ [e] ++ out.tracer.events.map (Event.flagged out.evm.reverted) ∧ e.isValue = false) →
      wp (dropFrame out.evm) (fun _ => Takes s out ((Pending.create baseCost forwarded created value).PaysItself sc out
        s.ext))
        (fun _ _ => True) u := by
    rintro u hkeeps ⟨e, hu, he⟩
    refine (hl.dropFrame out.evm).run (fun _ _ _ => trivial) fun _ t _ ht => ?_
    obtain ⟨es, ht, hes⟩ := ht
    refine ⟨e, es, by rw [ht, hu], he, iff_of_true (.inl hes) fun hself => ?_⟩
    rw [hself.1] at hkeeps
    cases hkeeps
  simp only [createClose, emitCall, joinTracer, spend, wp_bind, wp_get, wp_emit, wp_modify, wp_ite]
  refine ⟨fun hgas => hdrop _ ?_ ⟨_, joined_pushed _ _ _ _, rfl⟩, fun hgas =>
    ⟨fun hrev => hdrop _ ?_ ⟨_, joined_pushed _ _ _ _, rfl⟩, fun hrev => ?_⟩⟩
  · cases hrev : out.evm.reverted
    · simp only [hrev, Bool.false_eq_true, if_false] at hgas
      simp [Pending.keeps, hrev, hgas]
    · simp [Pending.keeps, hrev]
  · simp [Pending.keeps, hrev]
  · have hkeeps : (Pending.create baseCost forwarded created value).keeps out = true := by
      simp only [hrev, Bool.false_eq_true, if_false] at hgas
      simp [Pending.keeps, hrev, not_lt.1 hgas]
    refine wp_mono (wp_deploy_traced ht hc) (fun _ t hdeployed => ?_) fun _ _ h => h
    obtain ⟨es', ht, hes'⟩ := hdeployed
    simp only [mergeKept, wp_bind, wp_modify, wp_push]
    refine ⟨fun _ => ⟨_, es', ht.trans (congrArg (· ++ es') (joined_pushed _ _ _ _)), rfl, ?_⟩, fun _ => trivial⟩
    rw [Pending.PaysItself, hkeeps]
    simpa using hes'

theorem wp_closeFrame_takes {instruction : Instruction} {inner : Inner LoggingTracer} {pending : Pending}
    {opened : Machine LoggingTracer} (hopens : Opens ⟨sc, instruction, s⟩ inner pending opened) (out : Output LoggingTracer)
    {e : Ext} (hext : opened.ext.Extends e) :
    wp (closeFrame sc instruction pending out)
      (fun _ => Takes { opened with ext := e } out (pending.PaysItself (sc.inContext instruction.op) out e))
        (fun _ _ => True)
      { opened with ext := e } := by
  unfold closeFrame
  cases hopens with
  | message _ h =>
    obtain ⟨gas, retOffset, retSize, stipend, traceCost, rfl⟩ := h.pending
    rw [wp_bind]
    exact wp_mono (wp_callClose_takes instruction retOffset retSize stipend traceCost out) (fun _ _ ht => (wp_pure _).2 ht)
      fun _ _ h => h
  | creation _ _ h =>
    obtain ⟨baseCost, rfl⟩ := h.pending
    have hthis : (e.state.lookup (sc.inContext instruction.op).this).isSome := by
      rw [this_inContext]
      exact hext.loaded _ h.loaded.1
    rw [wp_bind]
    exact wp_mono (wp_createClose_takes (s := { opened with ext := e }) instruction out hthis (hext.loaded _ h.loaded.2))
      (fun _ _ ht => (wp_pure _).2 ht) fun _ _ h => h

theorem unmoved_settleStep (instruction : Instruction) (r : Option StepResult) {o : Option Bytes}
    {t : Machine LoggingTracer}
    (h : settleStep sc instruction r s = .ok o t) : Unmoved s t := by
  have hsettled : Settled s t := (settling_settleStep sc instruction r).ok h
  exact ⟨((endures_hushed sc.ctx.depth).settleStep instruction r).ok
    h, by rw [show t.ext = s.ext from congrArg Trail.ext hsettled.trail]⟩

/-- A step whose frame came back. -/
theorem opened_takes {exec : Exec LoggingTracer} {hists : Scope → Machine LoggingTracer → History LoggingTracer}
    (tracks : Tracks exec hists) {instruction : Instruction} {o : Option Bytes} {inner : Inner LoggingTracer}
    {pending : Pending}
    {opened t : Machine LoggingTracer} (hs : s.evm.stack.length ≤ stackLimit)
    (hopened : openedFrame sc instruction s = some (inner, pending, opened))
    (he : executeStep exec sc instruction s = .ok o t) :
    ∃ ret i, exec inner.scope (inner.machine opened.ext) = .ok ret i ∧ Takes { opened with ext := i.ext }
      ⟨i.exe.tracer, ret, i.evm⟩ (pending.PaysItself (sc.inContext instruction.op) ⟨i.exe.tracer, ret, i.evm⟩ i.ext) t := by
  obtain ⟨hcall, hg, ho⟩ := openedFrame_some (x := ⟨sc, instruction, s⟩) hopened
  have hopens := opens_of_openedFrame (x := ⟨sc, instruction, s⟩) hopened
  have hframe : wp (executeInstruction exec sc instruction) (fun _ u => ∃ ret i,
      exec inner.scope (inner.machine opened.ext) = .ok ret i ∧ Takes { opened with ext := i.ext }
        ⟨i.exe.tracer, ret, i.evm⟩
        (pending.PaysItself (sc.inContext instruction.op) ⟨i.exe.tracer, ret, i.evm⟩ i.ext) u) (fun f _ => ∀ r,
          f ≠ .report r) s := by
    rw [executeInstruction_call (x := ⟨sc, instruction, s⟩) hcall]
    refine wp_opCall_of (fun r hr => ?_) fun _ => ?_
    · rw [hg] at hr
      cases hr
    unfold callFrame
    rw [wp_bind, wp_of_ok ho, wp_bind, wp_runInner]
    refine wp_def.2 ⟨fun ret i hrun => ?_, fun f i hrun => ?_⟩
    · have hext : opened.ext.Extends i.ext := tracks.extends hopens.fresh hrun
      have hcloses : wp (closeFrame sc instruction pending ⟨i.exe.tracer, ret, i.evm⟩) (fun _ => Closed ⟨sc, instruction, s⟩
          inner pending ⟨i.exe.tracer, ret, i.evm⟩ { opened with ext := i.ext }) (fun f _ => ∀ r, f ≠ .report r)
          { opened with ext := i.ext } := wp_closeFrame hopens hs rfl hext
      refine wp_mono (wp_and hcloses (wp_closeFrame_takes hopens ⟨i.exe.tracer, ret, i.evm⟩ hext))
        (fun _ u ⟨_, hu⟩ => ⟨ret, i, hrun, hu.before ⟨.of_eq rfl, rfl⟩⟩)
        fun f u ⟨hsilent, _⟩ => ⟨hsilent, fun r hr => absurd hr (hsilent r)⟩
    · have hsilent := (tracks.silent _).error hrun
      exact ⟨hsilent, fun r hr => absurd hr (hsilent r)⟩
  have hstep : wp (executeStep exec sc instruction) (fun _ u => ∃ ret i,
      exec inner.scope (inner.machine opened.ext) = .ok ret i ∧ Takes { opened with ext := i.ext }
        ⟨i.exe.tracer, ret, i.evm⟩
        (pending.PaysItself (sc.inContext instruction.op) ⟨i.exe.tracer, ret, i.evm⟩ i.ext) u) (fun _ _ => True) s := by
    unfold executeStep
    rw [wp_bind, wp_attempt]
    refine wp_mono hframe (fun r u ⟨ret, i, hrun, hu⟩ => ?_) fun f u hf => ⟨fun r hr => absurd hr (hf r), fun _ => trivial⟩
    exact wp_def.2 ⟨fun o v hsettle => ⟨ret, i, hrun, hu.before
      (unmoved_settleStep instruction _ hsettle)⟩, fun _ _ _ => trivial⟩
  exact (wp_of_ok he).1 hstep

end

/-! ## A run -/

namespace History

/-- Where a history starts; one of no steps starts where its frame ends. -/
def start (t : Machine LoggingTracer) : History LoggingTracer → Machine LoggingTracer
  | done | cut => t
  | step x _ => x.before
  | call x .. => x.before

variable [Crypto]

/-- The events of balances of a frame that ends in `t`, and of the frames below it, are true: each
    part of the run is held against the machine before it and the machine after it. -/
def Truthful (t : Machine LoggingTracer) : History LoggingTracer → Prop
  | done | cut => True
  | step x rest => Hushed x.before (rest.start t) ∧ rest.Truthful t
  | call x inner _ opened callee ended rest =>
    Solenoid.Truthful x.before opened ∧
      (match ended with
        | some r => Hushed (inner.machine opened.ext) (callee.start r.machine) ∧ callee.Truthful r.machine ∧
            Resumes { opened with ext := r.machine.ext } r.output (rest.start t)
        | none => False) ∧
      rest.Truthful t

/-- No creation below pays itself. -/
def Outward (h : History LoggingTracer) : Prop :=
  h.All (fun _ => True) fun x _ pending _ _ r => ¬pending.PaysItself (x.scope.inContext x.op) r.output r.machine.ext

instance (h : History LoggingTracer) : Decidable h.Outward := inferInstanceAs (Decidable (h.All _ _))

end History

section

variable [Crypto] {sc : Scope} {s t u : Machine LoggingTracer}

/-- A frame is truthful up to its end just when no creation in it pays itself. -/
structure Honest (h : History LoggingTracer) (s t : Machine LoggingTracer) : Prop where
  starts : Hushed s (h.start t)
  truthful_iff : h.Truthful t ↔ h.Outward

/-- One step, given the frames it may open and the steps after it. -/
theorem node_honest {fuel : Nat} {instruction : Instruction} {o : Option Bytes} {rest : History LoggingTracer}
    (hframes : ∀ (sc : Scope) (s : Machine LoggingTracer) (ret : Bytes) (t : Machine LoggingTracer),
      s.evm.stack.length ≤ stackLimit → executeWithContext fuel sc s = .ok ret t → Honest (history fuel sc s) s t)
    (hs : s.evm.stack.length ≤ stackLimit) (he : executeStep (executeWithContext fuel) sc instruction s = .ok o u)
    (hrest : Unmoved u (rest.start t)) (htruthful : rest.Truthful t ↔ rest.Outward) :
    ((historyNode (executeWithContext fuel) (history fuel) ⟨sc, instruction, s⟩ rest).Truthful t ↔
      (historyNode (executeWithContext fuel) (history fuel) ⟨sc, instruction, s⟩ rest).Outward) := by
  unfold historyNode
  cases ho : openedFrame sc instruction s with
  | none =>
    have hhushed : Hushed s (rest.start t) := (unopened_hushed ho he).trans hrest.hushed
    exact ⟨fun h => ⟨trivial, htruthful.1 h.2⟩, fun h => ⟨hhushed, htruthful.2 h.2⟩⟩
  | some node =>
    obtain ⟨inner, pending, opened⟩ := node
    obtain ⟨ret, i, hinner, htakes⟩ := opened_takes (tracks_run fuel) hs ho he
    have hstack := (opens_of_openedFrame (x := ⟨sc, instruction, s⟩) ho).fresh.stack opened.ext
    have hcallee := hframes _ _ _ _ hstack hinner
    have hresumes := (htakes.before hrest).resumes_iff
    simp only [hinner, ended]
    constructor
    · rintro ⟨-, ⟨-, hc, hr⟩, h⟩
      refine ⟨trivial, hcallee.truthful_iff.1 hc, fun r hr' => ?_, htruthful.1 h⟩
      cases hr'
      exact hresumes.1 hr
    · rintro ⟨-, hc, hn, h⟩
      exact ⟨openedFrame_truthful ho, ⟨hcallee.starts, hcallee.truthful_iff.2 hc, hresumes.2 (hn _ rfl)⟩, htruthful.2 h⟩

theorem frame_honest {loop : Exec LoggingTracer} {hloop : Scope → Machine LoggingTracer → History LoggingTracer}
    {ret : Bytes}
    (h : ∀ u, u.evm.stack.length ≤ stackLimit → loop sc u = .ok ret t →
      Unmoved u ((hloop sc u).start t) ∧ ((hloop sc u).Truthful t ↔ (hloop sc u).Outward))
    (hs : s.evm.stack.length ≤ stackLimit) (hrun : frameWith loop sc s = .ok ret t) :
      Honest (frameHistory hloop sc s) s t := by
  have hhushed := (endures_hushed sc.ctx.depth).toTraces
  obtain ⟨u, he, ⟨hdepth, hh, -⟩ | ⟨-, hh, hloop⟩⟩ := frameWith_ok hloop hrun
  · rw [hh]
    refine ⟨?_, iff_of_true trivial trivial⟩
    obtain ⟨_, u', he', hrun⟩ := bind_ok hrun
    rw [he] at he'
    cases he'
    rw [if_pos hdepth] at hrun
    cases hrun
    exact (hhushed.enterFrame.ok he).trans (.of_eq rfl)
  · rw [hh]
    have hwithin : Within (Effect.isRead ·) s u := (keeps_enterFrame sc).ok he
    obtain ⟨hstart, hiff⟩ := h u (hwithin.stack hs) hloop
    exact ⟨(hhushed.enterFrame.ok he).trans hstart.hushed, hiff⟩

theorem loop_honest (fuel : Nat) : ∀ (sc : Scope) (s : Machine LoggingTracer) (ret : Bytes) (t : Machine LoggingTracer),
    s.evm.stack.length ≤ stackLimit → executeLoop fuel sc s = .ok ret t →
      Unmoved s ((historyLoop fuel sc s).start t) ∧ ((historyLoop fuel sc s).Truthful t ↔
        (historyLoop fuel sc s).Outward) := by
  induction fuel with
  | zero => exact fun _ _ _ _ _ hrun => (nomatch hrun)
  | succ fuel ih =>
    intro sc s ret t hs hrun
    cases hi : currentInstruction sc s.evm with
    | none =>
      rw [executeLoop_done hi] at hrun
      rw [historyLoop_done hi]
      have hsettled : Settled s t := (settling_finishFrame sc).ok hrun
      exact ⟨⟨(endures_hushed sc.ctx.depth).finishFrame.ok hrun, by
        show t.trail.ext.balanceOf = _
        rw [hsettled.trail]
        rfl⟩, iff_of_true trivial trivial⟩
    | some instruction =>
      rw [executeLoop_step hi] at hrun
      rw [historyLoop_step hi]
      have hstart : ∀ rest : History LoggingTracer, Unmoved s
          ((historyNode (executeWithContext fuel) (history fuel) ⟨sc, instruction, s⟩ rest).start t) := fun rest => by
        unfold historyNode
        split <;> exact ⟨.of_eq rfl, rfl⟩
      refine ⟨hstart _, ?_⟩
      cases he : executeStep (executeWithContext fuel) sc instruction s with
      | error f u =>
        rw [he] at hrun
        cases hrun
      | ok o u =>
        rw [he] at hrun
        have hturned : Turned (executeWithContext fuel) (history fuel) ⟨sc, instruction, s⟩ o u :=
          (wp_of_ok he).1 (wp_executeStep (x := ⟨sc, instruction, s⟩) (tracks_run fuel) hs)
        have hframes : ∀ (sc : Scope) (s : Machine LoggingTracer) (ret : Bytes) (t : Machine LoggingTracer),
            s.evm.stack.length ≤ stackLimit → executeWithContext fuel sc s = .ok ret t → Honest (history fuel sc s) s t :=
          fun _ _ _ _ hs hrun => frame_honest (fun _ hu hloop => ih _ _ _ _ hu hloop) hs hrun
        cases o with
        | none =>
          obtain ⟨hrest, hiff⟩ := ih _ _ _ _ (hturned.stack rfl) hrun
          exact node_honest hframes hs he hrest hiff
        | some out =>
          cases hrun
          exact node_honest hframes hs he ⟨.of_eq rfl, rfl⟩ (iff_of_true trivial trivial)

/-- The events of a run are true just when no creation in it pays itself. -/
theorem run_honest {fuel : Nat} {ret : Bytes} (hs : s.evm.stack.length ≤ stackLimit)
    (hrun : executeWithContext fuel sc s = .ok ret t) : Honest (history fuel sc s) s t :=
  frame_honest (fun _ hu hloop => loop_honest fuel _ _ _ _ hu hloop) hs hrun

end

/-! ## A transaction, in the parts of its code -/

section

variable [Crypto]

/-- `prepare` up to the transfer. -/
def beforeTransfer (call : Call) : M LoggingTracer (Word × Word) := do
  prewarm call
  let prepaid ← prepayGas call
  let accessListCost := (← get).ext.txCtx.accessListCost
  let gas ← lift call.gas.asI64
  onExt Ext.applyAccessList
  let dataCost := dataCost call.data
  modify fun s => { s with evm.gas := .new (gas - callCost - accessListCost - dataCost) }
  return prepaid

/-- And from there. -/
def afterTransfer (code : Bytecode) (call : Call) (prepaid : Word × Word) : M LoggingTracer (Word × Word × Int × Word) := do
  let nonce ← bumpNonce 1 call.from_
  stopTransfer (code.bytecode = [] ∧ call.data = [] ∧ call.to_ ≠ 0)
  return (prepaid.1, prepaid.2, dataCost call.data, nonce)

theorem prepare_parts (code : Bytecode) (call : Call) :
    prepare code call = (do
      let prepaid ← beforeTransfer call
      transferValue call
      afterTransfer code call prepaid) := by
  simp only [prepare, beforeTransfer, afterTransfer, bind_assoc, pure_bind]

/-- `settle` up to the coinbase's fee. -/
def beforeCoinbase (call : Call) (gasPrepayment senderBalance : Word) (dataCost : Int) (ret : Bytes) :
    M LoggingTracer (Int × TxContext × Word) := do
  let s ← get
  undoReverted s.evm
  let gas := gasFinal s.ext.txCtx call dataCost ret s.evm
  let gasUsedFee ← settleSender call gasPrepayment senderBalance gas
  return (gas, s.ext.txCtx, gasUsedFee)

def afterCoinbase (fee : Int × TxContext × Word) : M LoggingTracer Unit := do
  emit 1 false (.fee (← lift (Word.ofI64 fee.1)) fee.2.1.gasPrice fee.2.2)

theorem settle_parts (call : Call) (gasPrepayment senderBalance : Word) (dataCost : Int) (ret : Bytes) :
    settle call gasPrepayment senderBalance dataCost ret = (do
      let fee ← beforeCoinbase call gasPrepayment senderBalance dataCost ret
      payCoinbase fee.1
      afterCoinbase fee) := by
  simp only [settle, beforeCoinbase, afterCoinbase, bind_assoc, pure_bind]

/-! ## The transfer of a transaction -/

variable {call : Call} {s t : Machine LoggingTracer}

/-- The second event is that of the recipient, and says the sender's balance. -/
def payEvents (call : Call) (src : Word) : List Event :=
  [⟨.account (.setValue call.from_ src (src - call.value)), 1, false⟩,
    ⟨.account (.setValue call.to_ src (src + call.value)), 1, false⟩]

omit [Crypto] in
theorem payEvents_told {src : Word} : ¬∀ e ∈ payEvents call src, e.isValue = false := fun h =>
  Bool.false_ne_true (h _ List.mem_cons_self).symm

omit [Crypto] in
theorem replays_pay {f : Address → Option Word} {a c : Word} (hv : call.value ≠ 0) (ha : f call.from_ = some a)
    (hc : call.from_ ≠ call.to_ → f call.to_ = some c) :
    Replays f (payEvents call a)
      (Function.update (Function.update f call.from_ (some (a - call.value))) call.to_ (some (c + call.value))) ↔
        call.from_ ≠ call.to_ ∧ f call.from_ = f call.to_ := by
  have hsecond : Replays f (payEvents call a)
      (Function.update (Function.update f call.from_ (some (a - call.value))) call.to_ (some (c + call.value))) ↔
        Function.update f call.from_ (some (a - call.value)) call.to_ = some a ∧
          Function.update (Function.update f call.from_ (some (a - call.value))) call.to_ (some (c + call.value)) =
            Function.update (Function.update f call.from_ (some (a - call.value))) call.to_ (some (a + call.value)) :=
    ⟨fun h => h.2, fun h => ⟨ha, h⟩⟩
  rw [hsecond]
  by_cases heq : call.from_ = call.to_
  · rw [← heq, Function.update_self, Option.some.injEq]
    exact iff_of_false (fun h => hv (by have := h.1; bv_omega)) fun h => h.1 rfl
  · rw [Function.update_of_ne (Ne.symm heq), hc heq, ha]
    refine ⟨fun h => ⟨heq, h.1.symm⟩, fun h => ⟨h.2.symm, ?_⟩⟩
    rw [Option.some.inj h.2]

theorem truthful_iff {es : List Event} (h : t.events = s.events ++ es) : Truthful s t ↔ Recounts s.ext es t.ext := by
  refine ⟨fun ⟨es', ht, hes'⟩ => ?_, fun hes => ⟨es, h, hes⟩⟩
  rw [h] at ht
  rwa [List.append_cancel_left ht]

/-- Both are true when the two balances are the same. -/
theorem wp_transferValue_traced (hfunds : call.value.toNat ≤ s.ext.funds call.from_) :
    wp (transferValue call : M LoggingTracer Unit) (fun _ t => Truthful s t ↔ call.value = 0 ∨ call.to_ = 0 ∨
      call.from_ ≠ call.to_ ∧ s.ext.balanceOf call.from_ = s.ext.balanceOf call.to_) (fun _ _ => True) s := by
  have hl := ((endures_hushed 1).top (decode []) call).listens
  have hload : ∀ b : Address, Keeps unmoved (onExt (Ext.balance b) : M LoggingTracer Word) := fun b =>
    unmoved_of_reads (hl.onExt _) (keeps_account _ rfl)
  unfold transferValue
  refine (hload call.from_).step (fun _ _ _ => trivial) fun x t hx ht => ?_
  refine (hload call.to_).step (fun _ _ _ => trivial) fun y u hy hu => ?_
  obtain ⟨A, e, hA, rfl, rfl⟩ := balance_ok hx
  obtain ⟨B, e', hB, rfl, rfl⟩ := balance_ok hy
  have hread := ht.trans hu
  have hfrom := Ext.pull_lookup hB (Ext.pulled hA).lookup
  have hto := (Ext.pulled hB).lookup
  have hA' : s.ext.balanceOf call.from_ = some A.value := by
    rw [← hread.balances]
    exact Ext.balanceOf_loaded hfrom
  have hB' : s.ext.balanceOf call.to_ = some B.value := by
    rw [← hread.balances]
    exact Ext.balanceOf_loaded hto
  rw [Ext.funds, hA', Option.getD_some] at hfunds
  have hupdated : A.value.saturatingSub call.value = A.value - call.value := by rw [Word.saturatingSub, if_pos hfunds]
  rw [wp_ite, hupdated]
  refine ⟨fun hskip => (wp_pure _).2 (iff_of_true (.of_hushed hread.hushed) (hskip.imp_right .inl)), fun hmoves => ?_⟩
  have hstays : call.value ≠ 0 ∧ call.to_ ≠ 0 := not_or.1 hmoves
  have hsrc : (e'.state.lookup call.from_).isSome := by
    rw [hfrom]
    rfl
  have hdst : ((e'.setValue call.from_ (A.value - call.value)).state.lookup call.to_).isSome := by
    rw [Ext.setValue, Ext.isSome_lookup_mutate, hto]
    rfl
  simp only [wp_bind, wp_onExt, Ext.wp_accountMut, wp_touch, wp_emit]
  refine ⟨fun _ => Ext.wp_credit (fun C hC _ => ?_) fun _ => trivial, fun _ => trivial⟩
  simp only [wp_bind, wp_lift, wp_touch, wp_emit]
  refine ⟨fun w _ => ⟨fun new hnew => ?_, fun _ _ => trivial⟩, fun _ _ => trivial⟩
  obtain ⟨-, rfl⟩ := Word.add_ok hnew
  have hbalances : ((e'.setValue call.from_ (A.value - call.value)).setValue call.to_ (C.value + call.value)).balanceOf =
      Function.update (Function.update s.ext.balanceOf call.from_ (some (A.value - call.value))) call.to_
        (some (C.value + call.value)) := by
    rw [Ext.balanceOf_update hdst, Ext.balanceOf_update hsrc, show e'.balanceOf = s.ext.balanceOf from hread.balances]
  have hC' : call.from_ ≠ call.to_ → s.ext.balanceOf call.to_ = some C.value := fun hne => by
    have hloaded : (e'.setValue call.from_ (A.value - call.value)).balanceOf call.to_ = some C.value :=
      Ext.balanceOf_loaded hC
    rwa [Ext.balanceOf_update hsrc, Function.update_of_ne (Ne.symm hne),
      show e'.balanceOf = s.ext.balanceOf from hread.balances] at hloaded
  refine Iff.trans (truthful_iff (List.append_assoc _ [_] [_])) ?_
  show Recounts s.ext (payEvents call A.value) _ ↔ _
  rw [Recounts, or_iff_right payEvents_told, ← or_assoc, or_iff_right hmoves]
  show Replays _ _ ((e'.setValue call.from_ (A.value - call.value)).setValue call.to_ (C.value + call.value)).balanceOf ↔ _
  rw [hbalances]
  exact replays_pay hstays.1 hA' hC'

/-! ## The coinbase's fee -/

theorem wp_creditCoinbase_truthful {coinbase : Address} {account : Account} {total : Word}
    (h : s.ext.state.lookup coinbase = some account) :
    wp (creditCoinbase coinbase account.value total : M LoggingTracer Unit) (fun _ => Truthful s) (fun _ _ => True) s := by
  have hl : (s.ext.state.lookup coinbase).isSome := by rw [h]; rfl
  unfold creditCoinbase
  simp only [wp_ite, wp_touch, wp_bind, wp_lift, wp_onExt, Ext.wp_accountMut, wp_emit]
  refine ⟨fun _ => .of_hushed (.of_eq rfl), fun _ => ⟨fun new _ =>
    ⟨fun _ => ⟨[_], rfl, .inr ?_⟩, fun _ => trivial⟩, fun _ _ => trivial⟩⟩
  exact ⟨Ext.balanceOf_loaded h, Ext.balanceOf_update hl new⟩

theorem payCoinbase_truthful {gas : Int} (h : payCoinbase gas s = .ok ⟨⟩ t) : Truthful s t := by
  have hl := ((endures_hushed 1).top (decode []) {}).listens
  have hpays : wp (payCoinbase gas : M LoggingTracer Unit) (fun _ => Truthful s) (fun _ _ => True) s := by
    unfold payCoinbase
    rw [wp_bind, wp_get, wp_ite]
    refine ⟨fun _ => (wp_pure _).2 (.of_hushed (.of_eq rfl)), fun _ => ?_⟩
    simp only [wp_bind, wp_lift]
    refine ⟨fun price _ => ⟨fun used _ => ⟨fun total _ => ?_, fun _ _ => trivial⟩, fun _ _ => trivial⟩, fun _ _ => trivial⟩
    have hload : Keeps unmoved (onExt (Ext.balance s.exe.header.miner) : M LoggingTracer Word) :=
      unmoved_of_reads (hl.onExt _) (keeps_account _ rfl)
    refine hload.run (fun _ _ _ => trivial) fun x u hx hu => ?_
    obtain ⟨A, e, hA, rfl, rfl⟩ := balance_ok hx
    rw [wp_bind]
    have hlookup : ({ s with ext := e } : Machine LoggingTracer).ext.state.lookup s.exe.header.miner = some A :=
      (Ext.pulled hA).lookup
    refine wp_mono (wp_creditCoinbase_truthful hlookup) (fun _ v hv => ?_) fun _ _ h => h
    rw [wp_bind, wp_lift]
    exact ⟨fun _ _ => (wp_pure _).2 (.after hu hv), fun _ _ => trivial⟩
  exact (wp_of_ok h).1 hpays

/-! ## The whole transaction -/

/-- The run of a transaction from `s` to `t`, with the machines between its parts. -/
structure Course (fuel : Nat) (code : Bytecode) (call : Call) (s : Machine LoggingTracer) (ret : Bytes)
    (t : Machine LoggingTracer) where
  prepaid : Word × Word
  before : Machine LoggingTracer
  moved : Machine LoggingTracer
  prepared : Word × Word × Int × Word
  ready : Machine LoggingTracer
  ended : Machine LoggingTracer
  fee : Int × TxContext × Word
  settled : Machine LoggingTracer
  rewarded : Machine LoggingTracer
  prepays : beforeTransfer call s = .ok prepaid before
  transfers : transferValue call before = .ok ⟨⟩ moved
  prepares : afterTransfer code call prepaid moved = .ok prepared ready
  runs : executeWithContext fuel (topScope code call prepared.2.2.2)
    ⟨.withTracer ready.exe.header (EventTracer.fork ready.exe.tracer), ready.evm, ready.ext⟩ = .ok ret ended
  settles : beforeCoinbase call prepared.1 prepared.2.1 prepared.2.2.1 ret
    ⟨{ ready.exe with tracer := EventTracer.join ready.exe.tracer ended.exe.tracer ended.evm.reverted }, ended.evm,
      ended.ext⟩ =
      .ok fee settled
  rewards : payCoinbase fee.1 settled = .ok ⟨⟩ rewarded
  closes : afterCoinbase fee rewarded = .ok ⟨⟩ t

namespace Course

variable {fuel : Nat} {code : Bytecode} {ret : Bytes}

/-- The machine of the top frame, before its run. -/
def top (x : Course fuel code call s ret t) : Machine LoggingTracer :=
  ⟨.withTracer x.ready.exe.header (EventTracer.fork x.ready.exe.tracer), x.ready.evm, x.ready.ext⟩

/-- And the transaction's, after it. -/
def joined (x : Course fuel code call s ret t) : Machine LoggingTracer :=
  ⟨{ x.ready.exe with tracer := EventTracer.join x.ready.exe.tracer x.ended.exe.tracer x.ended.evm.reverted },
    x.ended.evm, x.ended.ext⟩

def history (x : Course fuel code call s ret t) : History LoggingTracer :=
  Solenoid.history fuel (topScope code call x.prepared.2.2.2) x.top

theorem prepare_ok (x : Course fuel code call s ret t) : prepare code call s = .ok x.prepared x.ready := by
  rw [prepare_parts]
  simp only [bind, EStateM.bind, x.prepays, x.transfers, x.prepares]

/-- Each event of a balance in the trace is true: of the transfer, of the run's frames and of the
    fee; no other part has one. -/
structure Truthful (x : Course fuel code call s ret t) : Prop where
  prepays : Hushed s x.before
  transfers : Solenoid.Truthful x.before x.moved
  prepares : Hushed x.moved x.ready
  starts : Hushed x.top (x.history.start x.ended)
  runs : x.history.Truthful x.ended
  settles : Hushed x.joined x.settled
  rewards : Solenoid.Truthful x.settled x.rewarded
  closes : Hushed x.rewarded t

end Course

theorem execute_course {fuel : Nat} {code : Bytecode} {ret : Bytes} (h : execute fuel code call s = .ok ret t) :
    Nonempty (Course fuel code call s ret t) := by
  obtain ⟨prepared, ready, joined, hexecutes⟩ := execute_ok h
  have hprepares := hexecutes.prepares
  have hruns := hexecutes.runs
  have hsettles := hexecutes.settles
  rw [prepare_parts] at hprepares
  obtain ⟨prepaid, before, hbefore, hprepares⟩ := bind_ok hprepares
  obtain ⟨_, moved, hmoved, hprepares⟩ := bind_ok hprepares
  rw [settle_parts] at hsettles
  obtain ⟨fee, settled, hsettled, hrest⟩ := bind_ok hsettles
  obtain ⟨_, rewarded, hrewarded, hcloses⟩ := bind_ok hrest
  unfold runTop at hruns
  split at hruns
  · next ret' ended hrun =>
    cases hruns
    exact ⟨⟨prepaid, before, moved, prepared, ready, ended, fee, settled, rewarded, hbefore, hmoved,
      hprepares, hrun, hsettled,
      hrewarded, hcloses⟩⟩
  · cases hruns

/-- The sender can pay for all the gas, and the value. -/
def Affords (call : Call) (s : Machine LoggingTracer) : Prop :=
  call.gas.toNat * s.ext.txCtx.gasPrice.toNat + call.value.toNat ≤ s.ext.funds call.from_

/-- No value moves, or it goes to another account, whose balance is what the prepayment left the
    sender. -/
def Level (call : Call) (s : Machine LoggingTracer) : Prop :=
  call.value = 0 ∨ call.to_ = 0 ∨ call.from_ ≠ call.to_ ∧
    (s.ext.balanceOf call.from_).map (fun b => b.saturatingSub (call.gas * s.ext.txCtx.gasPrice)) = s.ext.balanceOf call.to_

/-- The prepayment is taken from the sender. -/
theorem wp_prepayGas_taken : wp (prepayGas call : M LoggingTracer (Word × Word)) (fun _ t =>
      t.ext.balanceOf = Function.update s.ext.balanceOf call.from_
        ((s.ext.balanceOf call.from_).map fun b => b.saturatingSub (call.gas * s.ext.txCtx.gasPrice)) ∧
      call.gas.toNat * s.ext.txCtx.gasPrice.toNat < 2 ^ 256) (fun _ _ => True) s := by
  have hl := ((endures_hushed 1).top (decode []) call).listens
  have hload : Keeps unmoved (onExt (Ext.balance call.from_) : M LoggingTracer Word) :=
    unmoved_of_reads (hl.onExt _) (keeps_account _ rfl)
  rw [prepayGas, wp_bind, wp_get, wp_bind, wp_lift]
  refine ⟨fun p hp => ?_, fun _ _ => trivial⟩
  unfold Word.mul at hp
  split at hp
  · next hroom =>
    cases hp
    refine hload.step (fun _ _ _ => trivial) fun x t hx ht => ?_
    obtain ⟨A, e, hA, rfl, rfl⟩ := balance_ok hx
    have hlookup := (Ext.pulled hA).lookup
    have hsome : (e.state.lookup call.from_).isSome := by rw [hlookup]; rfl
    have hbalances : e.balanceOf = s.ext.balanceOf := ht.balances
    have hfrom : s.ext.balanceOf call.from_ = some A.value := by
      rw [← hbalances]
      exact Ext.balanceOf_loaded hlookup
    rw [wp_bind, takePrepayment, wp_ite, hfrom, Option.map_some]
    refine ⟨fun hzero => ?_, fun _ => ?_⟩
    · simp only [wp_pure]
      refine ⟨?_, hroom⟩
      have hzero' : (0 : Word).toNat ≤ A.value.toNat := Nat.zero_le _
      rw [hzero, Word.saturatingSub, if_pos hzero', show A.value - 0 = A.value by simp, ← hfrom, Function.update_eq_self]
      exact hbalances
    · rw [wp_onExt, Ext.wp_accountMut]
      refine ⟨fun _ => (wp_pure _).2 ⟨?_, hroom⟩, fun _ => trivial⟩
      rw [← hbalances]
      exact Ext.balanceOf_update hsome _
  · cases hp

theorem beforeTransfer_balances {prepaid : Word × Word} (h : beforeTransfer call s = .ok prepaid t) :
    t.ext.balanceOf = Function.update s.ext.balanceOf call.from_
        ((s.ext.balanceOf call.from_).map fun b => b.saturatingSub (call.gas * s.ext.txCtx.gasPrice)) ∧
      call.gas.toNat * s.ext.txCtx.gasPrice.toNat < 2 ^ 256 := by
  obtain ⟨_, u, hwarm, h⟩ := bind_ok h
  obtain ⟨_, v, hprepay, h⟩ := bind_ok h
  obtain ⟨_, v', hget, h⟩ := bind_ok h
  cases hget
  obtain ⟨gas, v', hgas, h⟩ := bind_ok h
  obtain ⟨_, w, hlist, h⟩ := bind_ok h
  cases h
  have hu : u.ext.balanceOf = s.ext.balanceOf := funext fun a =>
    (reads_keeping.prewarm call : Keeps (keeping Account.value a) (prewarm call)).ok hwarm
  have htx : u.ext.txCtx = s.ext.txCtx := ((works_booking.prewarm call).ok hwarm).txCtx
  have hv := (wp_of_ok hprepay).1 wp_prepayGas_taken
  have hv' : v' = v := ((wp_of_ok hgas).1 ((wp_lift _).2 ⟨fun _ _ => rfl, fun _ _ => trivial⟩ : wp (lift call.gas.asI64)
    (fun _ t => t = v) (fun _ _ => True) v))
  have hw : w.ext.balanceOf = v'.ext.balanceOf := funext fun a =>
    (keeps_listed : Keeps (keeping Account.value a) (onExt Ext.applyAccessList)).ok hlist
  rw [hu, htx] at hv
  refine ⟨?_, hv.2⟩
  show w.ext.balanceOf = _
  rw [hw, hv', hv.1]

theorem level_iff {prepaid : Word × Word} (h : beforeTransfer call s = .ok prepaid t) :
    (call.value = 0 ∨ call.to_ = 0 ∨ call.from_ ≠ call.to_ ∧ t.ext.balanceOf call.from_ = t.ext.balanceOf call.to_) ↔
      Level call s := by
  obtain ⟨hbalances, -⟩ := beforeTransfer_balances h
  refine or_congr_right (or_congr_right (and_congr_right fun hne => ?_))
  rw [hbalances, Function.update_self, Function.update_of_ne (Ne.symm hne)]

theorem Affords.covers {prepaid : Word × Word} (ha : Affords call s) (h : beforeTransfer call s = .ok prepaid t) :
    call.value.toNat ≤ t.ext.funds call.from_ := by
  obtain ⟨hbalances, hroom⟩ := beforeTransfer_balances h
  unfold Affords Ext.funds at ha
  rw [Ext.funds, hbalances, Function.update_self]
  cases hb : s.ext.balanceOf call.from_ with
  | none =>
    rw [hb, Option.getD_none] at ha
    have hzero : (0 : Word).toNat = 0 := rfl
    omega
  | some b =>
    rw [hb, Option.getD_some] at ha
    have hp : (call.gas * s.ext.txCtx.gasPrice).toNat = call.gas.toNat * s.ext.txCtx.gasPrice.toNat := by
      rw [BitVec.toNat_mul, Nat.mod_eq_of_lt hroom]
    rw [Option.map_some, Option.getD_some, Word.saturatingSub, if_pos (by omega),
      BitVec.toNat_sub_of_le (BitVec.le_def.2 (by omega))]
    omega

/-- The balance events of a transaction are true just when the value goes between equal balances
    and no creation pays itself. -/
theorem balances_told {fuel : Nat} {code : Bytecode} {ret : Bytes} (h : execute fuel code call s = .ok ret t)
    (ha : Affords call s) (hs : s.evm.stack.length ≤ stackLimit) :
    Nonempty (Course fuel code call s ret t) ∧
      ∀ x : Course fuel code call s ret t, x.Truthful ↔ Level call s ∧ x.history.Outward := by
  refine ⟨execute_course h, fun x => ?_⟩
  have hh := endures_hushed 1
  have hl := (hh.top (decode []) call).listens
  have htransfers := (wp_of_ok x.transfers).1 (wp_transferValue_traced (ha.covers x.prepays))
  rw [level_iff x.prepays] at htransfers
  have hprepares : Keeps (adding fun e => e.isValue = false) (beforeTransfer call) := by
    refine (hh.works.prewarm call).bind fun _ => ?_
    refine (hh.works.prepayGas call).bind fun _ => ?_
    refine Keeps.get.bind fun _ => ?_
    refine (hl.lifted _).bind fun _ => ?_
    refine (hl.onExt _).bind fun _ => ?_
    exact (hh.fuels.fuelled _).bind fun _ => .pure _
  have hafter : Keeps (adding fun e => e.isValue = false) (afterTransfer code call x.prepaid) :=
    (hl.bumpNonce _).bind fun _ => (hh.fuels.stopTransfer _).bind fun _ => .pure _
  have hsettles : Keeps (adding fun e => e.isValue = false)
      (beforeCoinbase call x.prepared.1 x.prepared.2.1 x.prepared.2.2.1 ret) := by
    refine Keeps.get.bind fun _ => ?_
    refine Keeps.bind (.ite (fun _ => hl.onExt _) fun _ => .pure _) fun _ => ?_
    refine (hh.works.settleSender _ _ _ _).bind fun _ => ?_
    exact .pure _
  have hcloses : Keeps (adding fun e => e.isValue = false) (afterCoinbase x.fee) :=
    (hl.lifted _).bind fun _ => hh.note (by rfl)
  have hstack : x.top.evm.stack.length ≤ stackLimit := by
    rw [Course.top, ((outside_prepare code call).ok x.prepare_ok).stack]
    exact hs
  have hruns : Honest x.history x.top x.ended := run_honest hstack x.runs
  exact ⟨fun h => ⟨htransfers.1 h.transfers, hruns.truthful_iff.1 h.runs⟩, fun ⟨hlevel, houtward⟩ =>
    ⟨hprepares.ok x.prepays, htransfers.2 hlevel, hafter.ok x.prepares, hruns.starts, hruns.truthful_iff.2 houtward,
      hsettles.ok x.settles, payCoinbase_truthful x.rewards, hcloses.ok x.closes⟩⟩

end

/-! ## Concrete transfers -/

namespace Sample

/-- Seven goes from account 0xca to account 0xaa, which has 5. -/
def sevenWei : Call := { from_ := 0xca, to_ := 0xaa, value := 7, gas := 30000 }

def payer : Machine LoggingTracer :=
  ⟨.withTracer {} ⟨[]⟩, {}, { (machine [(0xca, 1000000, []), (0xaa, 5, [])]).ext with txCtx := { gasPrice := 1 } }⟩

/-- Account 0xaa passes 3 of them on to account 0xbb. -/
def passesOn : Bytes := [0x5f, 0x5f, 0x5f, 0x5f, 0x60, 0x03, 0x60, 0xbb, 0x5a, 0xf1]

/-- Account 0xaa holds what the prepayment leaves account 0xca. -/
def evenPayer : Machine LoggingTracer :=
  ⟨.withTracer {} ⟨[]⟩, {}, { (machine [(0xca, 1000000, []), (0xaa, 920000, passesOn), (0xbb, 1, [])]).ext with
    txCtx := { gasPrice := 1 } }⟩

end Sample

open Sample

/-- Between equal balances the two events of the transfer are true, as are the two of the call
    below it. -/
theorem balances_told_even : ∃ ret t, execute 20 (decode passesOn) { sevenWei with gas := 80000 } evenPayer = .ok ret t ∧
    Nonempty (Course 20 (decode passesOn) { sevenWei with gas := 80000 } evenPayer ret t) ∧
    (∀ x : Course 20 (decode passesOn) { sevenWei with gas := 80000 } evenPayer ret t, x.Truthful) ∧
    (t.events.filter Event.isValue).length = 4 := by
  have hrun : returns (execute 20 (decode passesOn) { sevenWei with gas := 80000 } evenPayer) (fun _ t =>
      decide ((t.events.filter Event.isValue).length = 4)) := by decide +kernel
  obtain ⟨ret, t, hrun, hevents⟩ := of_returns hrun
  have haffords : Affords { sevenWei with gas := 80000 } evenPayer := by
    unfold Affords
    decide +kernel
  have hbalances : (evenPayer.ext.balanceOf 0xca).map (fun b => b.saturatingSub (80000 * 1)) =
    evenPayer.ext.balanceOf 0xaa := by
    decide +kernel
  have houtward : returns (prepare (decode passesOn) { sevenWei with gas := 80000 } evenPayer) (fun prepared ready =>
      decide (history 20 (topScope (decode passesOn) { sevenWei with gas := 80000 } prepared.2.2.2)
        ⟨.withTracer ready.exe.header (EventTracer.fork ready.exe.tracer), ready.evm,
          ready.ext⟩).Outward) := by decide +kernel
  obtain ⟨hcourse, htold⟩ := balances_told hrun haffords (Nat.zero_le _)
  refine ⟨ret, t, hrun, hcourse, fun x => (htold x).2 ⟨.inr (.inr ⟨by decide, hbalances⟩), ?_⟩, of_decide_eq_true hevents⟩
  rw [x.prepare_ok] at houtward
  exact of_decide_eq_true houtward

/-- The event of the recipient says that it had what the sender has. -/
theorem balances_told_lie : ∃ ret t, execute 10 (decode []) sevenWei payer = .ok ret t ∧ Affords sevenWei payer ∧
    ∀ x : Course 10 (decode []) sevenWei payer ret t, ¬x.Truthful := by
  have hrun : returns (execute 10 (decode []) sevenWei payer) (fun _ _ => true) := by decide +kernel
  obtain ⟨ret, t, hrun, -⟩ := of_returns hrun
  have haffords : Affords sevenWei payer := by
    unfold Affords
    decide +kernel
  have hlie : returns (beforeTransfer sevenWei payer) (fun _ p => decide (p.ext.balanceOf 0xaa = some 5) &&
      returns (transferValue sevenWei p) fun _ q => decide
        (q.events = p.events ++ payEvents sevenWei 970000)) := by decide +kernel
  refine ⟨ret, t, hrun, haffords, fun x hx => ?_⟩
  rw [x.prepays] at hlie
  obtain ⟨hbalance, hevents⟩ := Bool.and_eq_true_iff.1 hlie
  rw [x.transfers] at hevents
  have hbalance : x.before.ext.balanceOf sevenWei.to_ = some 5 := of_decide_eq_true hbalance
  rcases (truthful_iff (of_decide_eq_true hevents)).1 hx.transfers with hnone | hreplays
  · exact payEvents_told hnone
  · have hsecond : Function.update x.before.ext.balanceOf sevenWei.from_ (some (970000 - sevenWei.value)) sevenWei.to_ =
        some 970000 := hreplays.2.1
    rw [Function.update_of_ne (by decide), hbalance] at hsecond
    cases hsecond

end Solenoid
