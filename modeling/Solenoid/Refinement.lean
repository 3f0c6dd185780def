/-
  Solenoid.Refinement — a run, seen from the accounts: the journaled tree of effects that
  the interpreter implements.

  `Follows sc h t u` says that the history `h` of a frame takes the trail `t` to `u`: its
  own steps by effects they allow, its inner frames from an empty journal, and each of
  those, at its end, merged or undone (`Closes`). `run_follows`: every run of
  `execute_with_context` follows its history.
-/
import Solenoid.Loop
import Solenoid.Sweeps

namespace Solenoid

open Hoare

variable {T : Type} [Crypto] [EventTracer T]

/-! ## Trails of a history -/

/-- The frame an instruction opened. -/
inductive Opens (x : Step T) (inner : Inner T) (pending : Pending) (t : Machine T) : Prop
  | message (hop : x.op.isMessageCall) (h : CallsFrame x inner pending t)
  | creation (hop : x.isCreation) (hstatic : x.scope.ctx.callType ≠ .static) (h : CreatesFrame x inner pending t)

/-- The end of an inner frame for its caller, whose trail is `t` with the accounts as the
    frame left them. -/
def Closes (x : Step T) (inner : Inner T) (pending : Pending) (out : Output T) (t u : Trail) : Prop :=
  if pending.keeps out then
    if x.op.isMessageCall then u = t.merge out.evm.touches
    else ∃ mid, Deployed x.this inner.scope.ctx.created x.value (callContext x.scope.ctx x.op).movesValue out.ret t mid ∧
      u = mid.merge out.evm.touches
  else RolledBack out.evm t u

/-- What the writing instructions write when they go through. -/
structure Performs (x : Step T) (t u : Trail) : Prop where
  slots : x.op = .sstore → ∀ a key, u.ext.slotOf a key =
    if x.this = a ∧ x.operand 0 = key then some (x.operand 1) else t.ext.slotOf a key
  transient : x.op = .tstore → ∀ a key, u.ext.transientOf a key =
    if x.this = a ∧ x.operand 0 = key then x.operand 1 else t.ext.transientOf a key
  logs : x.op = .log → u.logs = t.logs ++ [x.log]

inductive Follows : Scope → History T → Trail → Trail → Prop
  | done (sc : Scope) (t : Trail) : Follows sc .done t t
  | cut (sc : Scope) (t : Trail) : Follows sc .cut t t
  | step {x : Step T} {rest : History T} {u v : Trail} (acts : Acts x.attempts x.before.trail u)
      (performs : rest.isCut = false → Performs x x.before.trail u)
      (gives : x.op = .selfdestruct → x.Gifts u.ext) (next : Follows x.scope rest u v) :
      Follows x.scope (.step x rest) x.before.trail v
  | call {x : Step T} {inner : Inner T} {pending : Pending} {opened : Machine T} {callee rest : History T} {r : Ended T}
      {w u v : Trail} (opens : Opens x inner pending opened)
      (static : x.scope.ctx.callType = .static → x.op = .call → x.value = 0)
      (enters : Acts (Effect.isRead ·) ⟨opened.ext, [], []⟩ w) (runs : Follows inner.scope callee w r.machine.trail)
      (completed : r.reverted = false → callee.Completed)
      (closes : Closes x inner pending r.output { opened.trail with ext := r.machine.ext } u)
      (next : Follows x.scope rest u v) :
      Follows x.scope (.call x inner pending opened callee (some r) rest) x.before.trail v

omit [EventTracer T] in
/-- A history that is cut goes nowhere. -/
theorem Follows.of_isCut {sc : Scope} {h : History T} {t u : Trail} (hf : Follows sc h t u) (hcut : h.isCut = true) :
    h = .cut ∧ u = t := by
  cases hf with
  | cut => exact ⟨rfl, rfl⟩
  | done | step | call => cases hcut

/-! ## What lasts -/

namespace AccountTouch

omit [Crypto] [EventTracer T]

/-- What the undo of a touch leaves when it succeeds. -/
def undone : AccountTouch → Ext → Ext
  | setState address key val _ isWarm, e =>
    if isWarm then e.insertSlot address key val
    else { e.insertSlot address key val with accessedStorage := e.accessedStorage.erase (address, key) }
  | setTransientState address key val _, e => { e with transient := e.transient.insert (address, key) val }
  | getState address key _ isWarm, e =>
    if isWarm then e else { e with accessedStorage := e.accessedStorage.erase (address, key) }
  | setNonce addr val _, e => e.setNonce addr (BitVec.ofNat 256 val)
  | setValue addr val _, e => e.setValue addr val
  | create addr .., e => e.mutate addr fun a => { a with code := ([], emptyHash), nonce := 0, value := 0 }
  | warmUp addr, e => { e with accessedAddresses := e.accessedAddresses.erase addr }
  | _, e => e

/-- The undo needs the account of the touch. -/
def named : AccountTouch → Option Address
  | setNonce addr .. | setValue addr .. | create addr .. => some addr
  | _ => none

theorem wp_revertTouch (τ : AccountTouch) (e : Ext) {Q : Unit → Ext → Prop} {E : Fault → Ext → Prop}
    (hQ : (∀ a, τ.named = some a → (e.state.lookup a).isSome) → Q ⟨⟩ (τ.undone e))
    (hE : ∀ why, (∃ a, τ.named = some a ∧ e.state.lookup a = none) → E (.panic why) e) :
    wp (Evm.revertTouch τ) Q E e := by
  cases τ with
  | setState address key val new isWarm => cases isWarm <;> simpa [Evm.revertTouch, undone, named, Ext.insertSlot] using hQ
  | getState address key val isWarm => cases isWarm <;> simpa [Evm.revertTouch, undone, named] using hQ
  | setNonce addr | setValue addr | create addr =>
    simp only [Evm.revertTouch, Ext.wp_accountMut]
    refine ⟨fun h => hQ fun a ha => ?_, fun h => hE _ ⟨addr, rfl, h⟩⟩
    cases ha
    exact h
  | setTransientState => simpa [Evm.revertTouch, undone, named] using hQ
  | warmUp => simpa [Evm.revertTouch, undone, named] using hQ
  | _ => simpa [Evm.revertTouch, undone, named] using hQ

theorem revertTouch_ok {τ : AccountTouch} {e e' : Ext} (h : Evm.revertTouch τ e = .ok ⟨⟩ e') :
    e' = τ.undone e ∧ ∀ a, τ.named = some a → (e.state.lookup a).isSome := by
  have hw : wp (Evm.revertTouch τ) (fun _ e' => e' = τ.undone e ∧ ∀ a, τ.named = some a → (e.state.lookup a).isSome)
      (fun _ _ => True) e := wp_revertTouch τ e (fun hn => ⟨rfl, hn⟩) fun _ _ => trivial
  exact (of_ok hw h :)

theorem extends_undone (τ : AccountTouch) (e : Ext) : e.Extends (τ.undone e) := by
  cases τ with
  | setState a key val new isWarm => cases isWarm <;> exact ⟨(Ext.extends_insertSlot e a key val).loaded, rfl⟩
  | getState a key val isWarm => cases isWarm <;> exact ⟨fun _ h => h, rfl⟩
  | setNonce | setValue | create => exact Ext.extends_mutate _ _ _
  | _ => exact ⟨fun _ h => h, rfl⟩

end AccountTouch

omit [Crypto] [EventTracer T] in
/-- The undo of touches whose accounts are there succeeds. -/
theorem revertTouches_ok : ∀ (l : List AccountTouch) {e : Ext},
    (∀ τ ∈ l, ∀ a, τ.named = some a → (e.state.lookup a).isSome) → ∃ e', l.forM Evm.revertTouch e = .ok ⟨⟩ e'
  | [], e, _ => ⟨e, rfl⟩
  | τ :: l, e, h => by
    have hτ : wp (Evm.revertTouch τ) (fun _ e' => e' = τ.undone e) (fun _ _ => False) e := by
      refine AccountTouch.wp_revertTouch τ e (fun _ => rfl) fun _ ⟨a, ha, hn⟩ => ?_
      have hl := h τ List.mem_cons_self a ha
      rw [hn] at hl
      cases hl
    obtain ⟨_, e₁, hok, rfl⟩ := exists_ok hτ
    obtain ⟨e', he'⟩ := revertTouches_ok l fun τ' hτ' a ha =>
      (τ.extends_undone e).loaded a (h τ' (List.mem_cons_of_mem _ hτ') a ha)
    refine ⟨e', ?_⟩
    change (Evm.revertTouch τ >>= fun _ => l.forM Evm.revertTouch) e = _
    simp only [bind, EStateM.bind, hok]
    exact he'

/-- A relation between the accounts before and after that every effect, every undo and every
    write through `account_mut` keeps. -/
structure Lasting (R : Ext → Ext → Prop) : Prop where
  refl : ∀ e, R e e
  trans : ∀ {e e' e''}, R e e' → R e' e'' → R e e''
  act : ∀ {effect : Effect} {t u : Trail}, Act effect t u → R t.ext u.ext
  undone : ∀ (τ : AccountTouch) (e : Ext), R e (τ.undone e)
  mutate : ∀ (e : Ext) (a : Address) (f : Account → Account), R e (e.mutate a f)

/-- A run of `Ext` that keeps `R`. -/
def lasts {R : Ext → Ext → Prop} (hR : Lasting R) : Frame Fault Ext where
  ok := R
  err _ _ _ := True
  refl := hR.refl
  trans := hR.trans
  fail _ _ := trivial

section Lasting

variable {R : Ext → Ext → Prop} (hR : Lasting R)
include hR

theorem Acts.lasting {P : Effect → Prop} {t u : Trail} (h : Acts P t u) : R t.ext u.ext :=
  h.keep (fun t u => R t.ext u.ext) (fun _ => hR.refl _) hR.trans fun _ h => hR.act h

theorem Moved.lasting {src dst : Address} {v : Word} {may : Prop} {t u : Trail} (h : Moved src dst v may t u) :
    R t.ext u.ext := by
  cases h with
  | moved _ _ _ _ h => exact hR.act h
  | still => exact hR.refl _

omit [EventTracer T] in
theorem lasts_revert (out : Evm) : Keeps (lasts hR) out.revert :=
  Keeps.forM _ fun τ _ _ => AccountTouch.wp_revertTouch τ _ (fun _ => hR.undone τ _) fun _ _ => trivial

omit [EventTracer T] in
theorem RolledBack.lasting {out : Evm} {t u : Trail} (h : RolledBack out t u) : R t.ext u.ext :=
  (lasts_revert hR out).ok h.ext

omit [EventTracer T] in
theorem Closes.lasting {x : Step T} {inner : Inner T} {pending : Pending} {out : Output T} {t u : Trail}
    (h : Closes x inner pending out t u) : R t.ext u.ext := by
  unfold Closes at h
  split at h
  · split at h
    · rw [h]
      exact hR.refl _
    · obtain ⟨mid, ⟨mid', hm, rfl⟩, rfl⟩ := h
      exact hR.trans (hR.mutate _ _ _) (hm.lasting hR)
  · exact h.lasting hR

omit [EventTracer T] in
theorem Opens.lasting {x : Step T} {inner : Inner T} {pending : Pending} {t : Machine T}
    (h : Opens x inner pending t) : R x.before.ext t.ext := by
  cases h with
  | message _ h =>
    obtain ⟨mid, hmid, hm⟩ := h.trail
    exact hR.trans (hmid.lasting hR) (hm.lasting hR)
  | creation hop hstatic h => exact (h.acts hop hstatic).lasting hR

omit [EventTracer T] in
/-- What every effect keeps lasts over a whole run. -/
theorem Follows.lasting {sc : Scope} {h : History T} {t u : Trail} (hf : Follows sc h t u) : R t.ext u.ext := by
  induction hf with
  | done | cut => exact hR.refl _
  | step acts _ _ _ ih => exact hR.trans (acts.lasting hR) ih
  | call opens _ enters _ _ closes _ ihr ih =>
    have hin := hR.trans (enters.lasting hR) ihr
    have hclose := Closes.lasting hR closes
    exact hR.trans (opens.lasting hR) (hR.trans hin (hR.trans hclose ih))

end Lasting

theorem lasting_extends : Lasting Ext.Extends where
  refl := .refl
  trans := .trans
  act := Act.extends
  undone := AccountTouch.extends_undone
  mutate := Ext.extends_mutate

theorem Moved.extends {src dst : Address} {v : Word} {may : Prop} {t u : Trail} (h : Moved src dst v may t u) :
    t.ext.Extends u.ext := h.lasting lasting_extends

omit [EventTracer T] in
theorem RolledBack.extends {out : Evm} {t u : Trail} (h : RolledBack out t u) : t.ext.Extends u.ext :=
  h.lasting lasting_extends

omit [EventTracer T] in
/-- An undo unloads nothing. -/
theorem revert_extends {evm : Evm} {e e' : Ext} (h : evm.revert e = .ok ⟨⟩ e') : e.Extends e' :=
  RolledBack.extends (t := ⟨e, [], []⟩) (u := ⟨e', [] ++ evm.touches.filter (·.survivesRevert), []⟩) ⟨h, rfl, rfl⟩

omit [EventTracer T] in
theorem Closes.extends {x : Step T} {inner : Inner T} {pending : Pending} {out : Output T} {t u : Trail}
    (h : Closes x inner pending out t u) : t.ext.Extends u.ext := Closes.lasting lasting_extends h

omit [EventTracer T] in
theorem Opens.extends {x : Step T} {inner : Inner T} {pending : Pending} {t : Machine T}
    (h : Opens x inner pending t) : x.before.ext.Extends t.ext := h.lasting lasting_extends

omit [EventTracer T] in
theorem Follows.extends {sc : Scope} {h : History T} {t u : Trail} (hf : Follows sc h t u) : t.ext.Extends u.ext :=
  hf.lasting lasting_extends

/-! ## The transaction's context lasts -/

theorem Act.txCtx {e : Effect} {t u : Trail} (h : Act e t u) : u.ext.txCtx = t.ext.txCtx := by
  cases h with
  | warmAddress | warmStorage | note | storeTransient | log | mark | openAccount => rfl
  | load h => exact Ext.txCtx_pull h
  | fetch h => exact Ext.txCtx_get h
  | store h => exact (Ext.txCtx_get h :)
  | transfer | destroy | bump => simp [Ext.setValue, Ext.setNonce, Ext.markDestroyed]

omit [Crypto] in
theorem AccountTouch.txCtx_undone (τ : AccountTouch) (e : Ext) : (τ.undone e).txCtx = e.txCtx := by
  cases τ with
  | setState a key val new isWarm => cases isWarm <;> rfl
  | getState a key val isWarm => cases isWarm <;> rfl
  | setNonce | setValue | create => exact Ext.txCtx_mutate _ _ _
  | _ => rfl

theorem lasting_txCtx : Lasting fun e e' => e'.txCtx = e.txCtx where
  refl _ := rfl
  trans h h' := h'.trans h
  act := Act.txCtx
  undone := AccountTouch.txCtx_undone
  mutate := Ext.txCtx_mutate

/-! ## The calls -/

/-- `hist` is the history of the runs of `exec`. -/
structure Tracks (exec : Exec T) (hist : Scope → Machine T → History T) : Prop where
  follows : ∀ sc s ret t, s.evm.stack.length ≤ stackLimit → exec sc s = .ok ret t →
    ∃ w, Acts (Effect.isRead ·) s.trail w ∧ Follows sc (hist sc s) w t.trail
  completed : ∀ sc s ret t, exec sc s = .ok ret t → t.evm.reverted = false → (hist sc s).Completed
  silent : ∀ sc, Keeps (panicking (Machine T)) (exec sc)

/-- From `t` on, the history of the rest completes the one of the step. -/
def Goes (exec : Exec T) (hist : Scope → Machine T → History T) (x : Step T) (t : Trail) : Prop :=
  ∀ rest z, (rest.isCut = false → Performs x x.before.trail t) → Follows x.scope rest t z →
    Follows x.scope (historyNode exec hist x rest) x.before.trail z

variable {exec : Exec T} {hist : Scope → Machine T → History T} {x : Step T}

theorem goes_of_acts {t : Trail} (hnone : openedFrame x.scope x.instruction x.before = none)
    (h : Acts x.attempts x.before.trail t) (hgives : x.op = .selfdestruct → x.Gifts t.ext) : Goes exec hist x t := by
  intro rest z hp hz
  rw [historyNode, hnone]
  exact .step h hp hgives hz

theorem goes_of_call {t : Trail} (hcall : x.op.isCall) (hnone : openedFrame x.scope x.instruction x.before = none)
    (h : Acts x.attempts x.before.trail t) : Goes exec hist x t := by
  refine goes_of_acts hnone h fun hop => ?_
  rw [hop] at hcall
  cases hcall

omit [Crypto] [EventTracer T] in
/-- `guardStatic` changes nothing; what it lets through is no static violation. -/
theorem guardStatic_cases (sc : Scope) (instruction : Instruction) (s : Machine T) :
    (∃ r, guardStatic sc instruction s = .error (.report r) s) ∨
    (guardStatic sc instruction s = .ok ⟨⟩ s ∧ (sc.ctx.callType = .static →
      instruction.op ≠ .create ∧ instruction.op ≠ .create2 ∧
      (instruction.op = .call → s.evm.stack[2]? = some 0))) := by
  unfold guardStatic
  by_cases hs : sc.ctx.callType = .static
  · simp only [hs, ne_eq, not_true_eq_false, if_false]
    cases hop : instruction.op with
    | call =>
      simp only [bind, EStateM.bind, get, getThe, MonadStateOf.get, run_get]
      cases hst : s.evm.stack[2]? with
      | none => exact .inl ⟨_, rfl⟩
      | some value =>
        by_cases hv : value = 0
        · subst hv
          exact .inr ⟨rfl, fun _ => ⟨nofun, nofun, fun _ => rfl⟩⟩
        · simp only [hv, not_false_eq_true, if_true]
          exact .inl ⟨_, rfl⟩
    | create | create2 => exact .inl ⟨_, rfl⟩
    | _ => exact .inr ⟨rfl, fun _ => ⟨nofun, nofun, nofun⟩⟩
  · simp only [hs, ne_eq, not_false_eq_true, if_true]
    exact .inr ⟨rfl, fun h => h.elim⟩

omit [Crypto] [EventTracer T] in
/-- An error of the frame is a halt, a panic goes through. -/
theorem wp_caught {m : M T Int} {s : Machine T} {Q : StepResult → Machine T → Prop} {E : Fault → Machine T → Prop} :
    wp (caught m) Q E s ↔
      wp m (fun gas t => Q (.ok gas) { t with evm.pc := t.evm.pc + 1 })
        (fun f t => (∀ r, f = .report r → Q (.halt t.evm.gas.remaining) t) ∧ ((∀ r, f ≠ .report r) → E f t)) s := by
  rw [wp_def, wp_def]
  unfold caught
  cases h : m s with
  | ok gas t =>
    have hnext : (next gas : M T StepResult) t = .ok (.ok gas) { t with evm.pc := t.evm.pc + 1 } := rfl
    simp [hnext]
  | error f t => cases f <;> simp

/-- The call-type instructions, from their frame: an error of it is one of the instruction or
    a halt. -/
theorem wp_opCall_of {exec : Exec T} {sc : Scope} {instruction : Instruction} {s : Machine T}
    {Q : StepResult → Machine T → Prop} {E : Fault → Machine T → Prop}
    (hrefused : ∀ r, guardStatic sc instruction s = .error (.report r) s → E (.report r) s)
    (hframe : guardStatic sc instruction s = .ok ⟨⟩ s →
      wp (callFrame exec sc instruction) (fun gas t => Q (.ok gas) { t with evm.pc := t.evm.pc + 1 })
        (fun f t => E f t ∧ ∀ r, f = .report r → Q (.halt t.evm.gas.remaining) t) s) :
    wp (opCall exec sc instruction) Q E s := by
  unfold opCall
  rw [wp_bind]
  rcases guardStatic_cases sc instruction s with ⟨r, hr⟩ | ⟨hg, -⟩
  · exact (wp_of_error hr).2 (hrefused r hr)
  · rw [wp_of_ok hg]
    have hnext : wp (do next (← callFrame exec sc instruction)) Q E s := by
      rw [wp_bind]
      exact wp_mono (hframe hg) (fun gas t h => (wp_next gas).2 h) fun _ _ h => h.1
    have hcaught : wp (caught (callFrame exec sc instruction)) Q E s :=
      wp_caught.2 (wp_mono (hframe hg) (fun _ _ h => h) fun _ _ h => ⟨h.2, fun _ => h.1⟩)
    split
    · exact hnext
    · exact hnext
    · exact hcaught

theorem openFrame_message {sc : Scope} {instruction : Instruction} (h : instruction.op.isMessageCall) :
    (openFrame sc instruction : M T (Opened T)) = callOpen (sc.inContext instruction.op) instruction := by
  unfold openFrame
  split
  · next hop => simp [hop, Op.isMessageCall] at h
  · next hop => simp [hop, Op.isMessageCall] at h
  · rfl

theorem openFrame_creation {sc : Scope} {instruction : Instruction}
    (h : instruction.op = .create ∨ instruction.op = .create2) :
    (openFrame sc instruction : M T (Opened T)) = createOpen (sc.inContext instruction.op) := by
  unfold openFrame
  rcases h with h | h <;> rw [h]

omit [Crypto] [EventTracer T] in
theorem Op.isCall_cases {op : Op} (h : op.isCall) : op.isMessageCall ∨ op = .create ∨ op = .create2 := by
  revert h
  cases op <;> simp [Op.isCall, Op.isMessageCall]

/-- What opening a frame ends in. -/
theorem wp_openFrame (hcall : x.op.isCall) (hg : guardStatic x.scope x.instruction x.before = .ok ⟨⟩ x.before) :
    wp (openFrame x.scope x.instruction) (fun o t => match o with
        | .done _ => Answered (Effect.isRead ·) x.before t
        | .frame inner pending => Opens x inner pending t)
      (fun f t => ∀ r, f = .report r → Failed x.attempts x.before t) x.before := by
  have hstatic : x.isCreation → x.scope.ctx.callType ≠ .static := by
    intro hc hst
    rcases guardStatic_cases x.scope x.instruction x.before with ⟨r, hr⟩ | ⟨-, h⟩
    · rw [hr] at hg
      cases hg
    · obtain ⟨h₁, h₂, -⟩ := h hst
      exact hc.elim h₁ h₂
  rcases Op.isCall_cases hcall with hop | hop
  · rw [openFrame_message hop]
    refine wp_mono (wp_callOpen x hop) (fun o t h => ?_) fun f t h r hr => (h r hr).mono fun _ => x.attempts_read
    cases o with
    | done => exact h.1
    | frame inner pending => exact .message hop h
  · rw [openFrame_creation hop]
    refine wp_mono (wp_createOpen x hop (hstatic hop)) (fun o t h => ?_) fun f t h => h
    cases o with
    | done => exact h.elim
    | frame inner pending => exact .creation hop (hstatic hop) h

/-- What the end of an inner frame leaves its caller. A creation leaves the return buffer. -/
structure Closed (x : Step T) (inner : Inner T) (pending : Pending) (out : Output T) (s u : Machine T) : Prop where
  closes : Closes x inner pending out s.trail u.trail
  stack : u.evm.stack = pending.result out :: s.evm.stack
  regs : u.regs = { s.regs with ret := if x.op.isMessageCall then out.ret else s.exe.ret, used := u.evm.gas.used }

theorem wp_closeFrame {inner : Inner T} {pending : Pending} {out : Output T} {t s : Machine T}
    (hopens : Opens x inner pending t) (hs : x.before.evm.stack.length ≤ stackLimit)
    (hst : s.evm.stack = t.evm.stack) (hext : t.ext.Extends s.ext) :
    wp (closeFrame x.scope x.instruction pending out) (fun _ => Closed x inner pending out s)
      (fun f _ => ∀ r, f ≠ .report r) s := by
  unfold closeFrame
  cases hopens with
  | message hop h =>
    obtain ⟨gas, retOffset, retSize, stipend, traceCost, rfl⟩ := h.pending
    have hlen := h.stack
    rw [wp_bind]
    refine wp_mono (wp_callClose _ _ _ _ _ _ out (by rw [hst]; omega)) (fun _ u hu => (wp_pure _).2 ⟨?_, ?_, ?_⟩)
      fun _ _ h => h
    · unfold Closes
      rw [if_pos hop]
      cases hrev : out.evm.reverted <;> simpa [Pending.keeps, hrev] using hu.1
    · rw [hu.2.2]
      cases hrev : out.evm.reverted <;> simp [Pending.result, Pending.keeps, hrev]
    · rw [if_pos hop, hu.2.1]
      have hused : u.evm.gas.used = _ := congrArg Regs.used hu.2.1
      rw [hused]
  | creation hop hstatic h =>
    obtain ⟨baseCost, rfl⟩ := h.pending
    have hlen := h.stack
    have hnot : ¬x.op.isMessageCall := by rcases hop with h | h <;> simp [h, Op.isMessageCall]
    rw [wp_bind]
    refine wp_mono (wp_createClose _ _ out (by rw [hst]; omega) ?_ ?_) (fun _ u hu => (wp_pure _).2 ⟨?_, ?_, ?_⟩)
      fun _ _ h => h
    · rw [this_inContext]
      exact hext.loaded _ h.loaded.1
    · exact hext.loaded _ h.loaded.2
    · unfold Closes
      rw [if_neg hnot]
      have hu := hu.1
      rw [this_inContext] at hu
      exact hu
    · rw [hu.2.2]
      rfl
    · rw [if_neg hnot]
      exact hu.2.1

/-- `openFrame` from its outcome. -/
theorem openedFrame_ok {o : Opened T} {t : Machine T} (hcall : x.op.isCall)
    (hg : guardStatic x.scope x.instruction x.before = .ok ⟨⟩ x.before)
    (ho : openFrame x.scope x.instruction x.before = .ok o t) :
    openedFrame x.scope x.instruction x.before =
      match o with
      | .frame inner pending => some (inner, pending, t)
      | .done _ => none := by
  have hcall : x.instruction.op.isCall = true := hcall
  simp only [openedFrame, hcall, if_true, hg, ho]
  cases o <;> rfl

theorem openedFrame_error {f : Fault} {t : Machine T} (hg : guardStatic x.scope x.instruction x.before = .ok ⟨⟩ x.before)
    (ho : openFrame x.scope x.instruction x.before = .error f t) :
    openedFrame x.scope x.instruction x.before = none := by
  simp only [openedFrame, hg, ho]
  split <;> rfl

omit [EventTracer T] in
theorem Opens.fresh {inner : Inner T} {pending : Pending} {t : Machine T} (h : Opens x inner pending t) :
    Fresh inner x.before := by
  cases h with
  | message _ h => exact h.fresh
  | creation _ _ h => exact h.fresh

omit [EventTracer T] in
theorem Opens.stack {inner : Inner T} {pending : Pending} {t : Machine T} (h : Opens x inner pending t) :
    t.evm.stack.length + 1 ≤ x.before.evm.stack.length := by
  cases h with
  | message _ h =>
    have := h.stack
    omega
  | creation _ _ h =>
    have := h.stack
    omega

omit [Crypto] [EventTracer T] in
/-- A frame starts with nothing of its own. -/
theorem Fresh.trail {inner : Inner T} {s : Machine T} (h : Fresh inner s) (e : Ext) :
    (inner.machine e).trail = ⟨e, [], []⟩ := by
  unfold Inner.machine Machine.trail
  rw [h.evm]

omit [Crypto] [EventTracer T] in
theorem Fresh.stack {inner : Inner T} {s : Machine T} (h : Fresh inner s) (e : Ext) :
    (inner.machine e).evm.stack.length ≤ stackLimit := by
  rw [Inner.machine, h.evm]
  exact Nat.zero_le _

omit [Crypto] [EventTracer T] in
/-- An inner frame runs on the accounts of its caller, and leaves them to it. -/
theorem wp_runInner {inner : Inner T} {s : Machine T} {Q : Output T → Machine T → Prop} {E : Fault → Machine T → Prop} :
    wp (runInner exec inner) Q E s ↔
      wp (exec inner.scope) (fun ret i => Q ⟨i.exe.tracer, ret, i.evm⟩ { s with ext := i.ext })
        (fun f i => E f { s with ext := i.ext }) (inner.machine s.ext) := by
  rw [wp_def, wp_def]
  unfold runInner Inner.machine
  cases exec inner.scope ⟨inner.exe, inner.evm, s.ext⟩ with
  | ok ret i => simp
  | error f i => simp

omit [EventTracer T] in
/-- A frame that comes back lost no account. -/
theorem Tracks.extends (tracks : Tracks exec hist) {inner : Inner T} {s i : Machine T} {e : Ext} {ret : Bytes}
    (h : Fresh inner s) (hrun : exec inner.scope (inner.machine e) = .ok ret i) : e.Extends i.ext := by
  obtain ⟨w, henters, hruns⟩ := tracks.follows _ _ _ _ (h.stack e) hrun
  rw [h.trail] at henters
  exact henters.extends.trans hruns.extends

omit [Crypto] [EventTracer T] in
theorem static_value (hg : guardStatic x.scope x.instruction x.before = .ok ⟨⟩ x.before)
    (hstatic : x.scope.ctx.callType = .static) (hop : x.op = .call) : x.value = 0 := by
  rcases guardStatic_cases x.scope x.instruction x.before with ⟨r, hr⟩ | ⟨-, h⟩
  · rw [hr] at hg
    cases hg
  · have h₂ := (h hstatic).2.2 hop
    simp only [Step.value, hop, Step.operand, List.getD_eq_getElem?_getD, h₂, Option.getD_some]

/-- `call` and `create`: the inner frame runs between what opens and what closes it. -/
theorem wp_callFrame (tracks : Tracks exec hist) (hcall : x.op.isCall)
    (hg : guardStatic x.scope x.instruction x.before = .ok ⟨⟩ x.before) (hs : x.before.evm.stack.length ≤ stackLimit) :
    wp (callFrame exec x.scope x.instruction) (fun _ t => Goes exec hist x t.trail ∧ t.evm.stack.length ≤ stackLimit)
      (fun f t => ∀ r, f = .report r → Goes exec hist x t.trail) x.before := by
  have hopen := wp_def.1 (wp_openFrame hcall hg)
  unfold callFrame
  rw [wp_bind]
  refine wp_def.2 ⟨fun o t ho => ?_, fun f t ho r hr => ?_⟩
  · cases o with
    | done gas =>
      have h : Answered (Effect.isRead ·) x.before t := hopen.1 _ _ ho
      have hgoes : Goes exec hist x t.trail :=
        goes_of_call hcall (openedFrame_ok hcall hg ho) (h.trail.mono fun _ => x.attempts_read)
      exact (wp_pure _).2 ⟨hgoes, h.stack hs⟩
    | frame inner pending =>
      have hopens : Opens x inner pending t := hopen.1 _ _ ho
      have hopened := openedFrame_ok hcall hg ho
      rw [wp_bind, wp_runInner]
      refine wp_def.2 ⟨fun ret i hrun => ?_, fun f i hrun r hr => absurd hr ((tracks.silent _).error hrun r)⟩
      obtain ⟨w₀, henters, hruns⟩ := tracks.follows _ _ _ _ (hopens.fresh.stack _) hrun
      rw [hopens.fresh.trail] at henters
      have hext : t.ext.Extends i.ext := henters.extends.trans hruns.extends
      refine wp_mono (wp_closeFrame hopens hs rfl hext) (fun _ u hu => ⟨fun rest z _ hz => ?_, ?_⟩)
        fun f u hf r hr => absurd hr (hf r)
      on_goal 2 =>
        rw [hu.stack]
        exact hopens.stack.trans hs
      rw [historyNode, hopened]
      simp only [hrun, ended]
      exact .call hopens (static_value hg) henters hruns (tracks.completed _ _ _ _ hrun) hu.closes hz
  · exact goes_of_call hcall (openedFrame_error hg ho) ((hopen.2 _ _ ho) r hr).trail

/-! ## A step, a loop, a run -/

/-- What an instruction leaves: the history goes on, and so may the frame unless it halts. -/
structure Stepped (exec : Exec T) (hist : Scope → Machine T → History T) (x : Step T) (r : StepResult)
    (t : Machine T) : Prop where
  goes : Goes exec hist x t.trail
  performs : (∃ cost, r = .ok cost) → Performs x x.before.trail t.trail
  stack : (∃ cost, r = .ok cost) → t.evm.stack.length ≤ stackLimit

/-- The opcode writes slots or logs. -/
def Op.writes : Op → Bool
  | .sstore | .tstore | .log => true
  | _ => false

omit [Crypto] [EventTracer T] in
theorem performs_of_not_writes (h : x.op.writes = false) (t u : Trail) : Performs x t u :=
  ⟨fun hop => by simp [hop, Op.writes] at h, fun hop => by simp [hop, Op.writes] at h,
    fun hop => by simp [hop, Op.writes] at h⟩

theorem wp_opCall (tracks : Tracks exec hist) (hcall : x.op.isCall) (hs : x.before.evm.stack.length ≤ stackLimit) :
    wp (opCall exec x.scope x.instruction) (Stepped exec hist x)
      (fun f t => ∀ r, f = .report r → Goes exec hist x t.trail) x.before := by
  have hperforms : ∀ t u, Performs x t u := performs_of_not_writes <| by
    revert hcall
    cases x.op <;> simp [Op.isCall, Op.writes]
  refine wp_opCall_of (fun r hr _ _ => goes_of_call hcall ?_ (.refl _ _)) fun hg => ?_
  · simp only [openedFrame, hr]
    split <;> rfl
  · exact wp_mono (wp_callFrame tracks hcall hg hs) (fun _ t h => ⟨h.1, fun _ => hperforms _ _, fun _ => h.2⟩)
      fun f t h => ⟨h, fun r hr => ⟨h r hr, fun _ => hperforms _ _, (by rintro ⟨_, ⟨⟩⟩)⟩⟩

theorem executeInstruction_call (hcall : x.op.isCall) :
    executeInstruction exec x.scope x.instruction = opCall exec x.scope x.instruction := by
  unfold executeInstruction
  have hcall : x.instruction.op.isCall = true := hcall
  split <;> first | rfl | (next h => simp [h, Op.isCall] at hcall)

/-- STOP, RETURN and REVERT. -/
theorem ends_instruction (he : x.op.ends) : Keeps ending (executeInstruction exec x.scope x.instruction) := by
  unfold executeInstruction
  have he : x.instruction.op.ends = true := he
  split <;> first
    | exact ends_opStop _
    | exact ends_opReturn _ _
    | (next h => simp [h, Op.ends] at he)

/-- The writes are performed. -/
theorem instruction_performs (exec : Exec T) (x : Step T) :
    wp (executeInstruction exec x.scope x.instruction)
      (fun r t => (∃ cost, r = .ok cost) → Performs x x.before.trail t.trail) (fun _ _ => True) x.before := by
  by_cases hw : x.op.writes = true
  · have hop : x.op = .sstore ∨ x.op = .tstore ∨ x.op = .log := by
      revert hw
      cases x.op <;> simp [Op.writes]
    rcases hop with h | h | h
    · rw [show executeInstruction exec x.scope x.instruction = opSstore x.scope x.instruction by
        simp only [executeInstruction, show x.instruction.op = .sstore from h]]
      refine wp_def.2 ⟨fun r t hr hc => ⟨fun _ a key => ?_, fun h' => by simp [h] at h', fun h' => by simp [h] at h'⟩,
        fun _ _ _ => trivial⟩
      exact (wp_of_ok hr).1 (slots_opSstore x.scope x.instruction a key) hc
    · rw [show executeInstruction exec x.scope x.instruction = opTstore x.scope by
        simp only [executeInstruction, show x.instruction.op = .tstore from h]]
      refine wp_def.2 ⟨fun r t hr hc => ⟨fun h' => by simp [h] at h', fun _ a key => ?_, fun h' => by simp [h] at h'⟩,
        fun _ _ _ => trivial⟩
      exact (wp_of_ok hr).1 (transient_opTstore x.scope a key) hc
    · rw [show executeInstruction exec x.scope x.instruction = opLog x.scope x.instruction by
        simp only [executeInstruction, show x.instruction.op = .log from h]]
      refine wp_def.2 ⟨fun r t hr hc => ⟨fun h' => by simp [h] at h', fun h' => by simp [h] at h', fun _ => ?_⟩,
        fun _ _ _ => trivial⟩
      exact (wp_of_ok hr).1 (logs_opLog x) hc
  · exact wp_def.2 ⟨fun _ _ _ _ => performs_of_not_writes (by simpa using hw) _ _, fun _ _ _ => trivial⟩

/-- SELFDESTRUCT moves its gift, whether it goes through or is reported. -/
theorem instruction_gives (exec : Exec T) (x : Step T) :
    wp (executeInstruction exec x.scope x.instruction) (fun _ t => x.op = .selfdestruct → x.Gifts t.ext)
      (fun f t => ∀ r, f = .report r → x.op = .selfdestruct → x.Gifts t.ext) x.before := by
  by_cases hop : x.op = .selfdestruct
  · rw [show executeInstruction exec x.scope x.instruction = opSelfdestruct x.scope x.instruction by
      simp only [executeInstruction, show x.instruction.op = .selfdestruct from hop]]
    exact wp_mono (wp_opSelfdestruct_gives hop) (fun _ _ h _ => h) fun _ _ h r hr _ => h r hr
  · exact wp_def.2 ⟨fun _ _ _ h => absurd h hop, fun _ _ _ _ _ h => absurd h hop⟩

theorem wp_executeInstruction (tracks : Tracks exec hist) (hs : x.before.evm.stack.length ≤ stackLimit) :
    wp (executeInstruction exec x.scope x.instruction) (Stepped exec hist x)
      (fun f t => ∀ r, f = .report r → Goes exec hist x t.trail) x.before := by
  have hnone : x.op.isCall = false → openedFrame x.scope x.instruction x.before = none := fun h => by
    have h : x.instruction.op.isCall = false := h
    simp only [openedFrame, h, Bool.false_eq_true, if_false]
  by_cases hcall : x.op.isCall = true
  · rw [executeInstruction_call hcall]
    exact wp_opCall tracks hcall hs
  · have hcall : x.op.isCall = false := by simpa using hcall
    have hleaves := wp_and (instruction_performs exec x) (instruction_gives exec x)
    have hattempts : ∀ {t : Trail}, Acts x.allows x.before.trail t → Acts x.attempts x.before.trail t := fun h =>
      h.mono fun _ => Step.attempts_of_allows hcall
    by_cases he : x.op.ends = true
    · refine wp_mono (wp_and (ends_instruction he x.before) hleaves)
        (fun r t h => ⟨goes_of_acts (hnone hcall) ?_ h.2.2, h.2.1, fun _ => h.1.stack hs⟩)
        fun f t h r hr => goes_of_acts (hnone hcall) ((h.1 r hr).trail.mono fun _ => False.elim) (h.2.2 r hr)
      rw [h.1.trail]
      exact .refl _ _
    · exact wp_mono (wp_and (instruction_within exec x hcall (by simpa using he)) hleaves)
        (fun r t h => ⟨goes_of_acts (hnone hcall) (hattempts h.1.trail) h.2.2, h.2.1, fun _ => h.1.stack hs⟩)
        fun f t h r hr => goes_of_acts (hnone hcall) (hattempts (h.1 r hr).trail) (h.2.2 r hr)

/-- What a turn of the loop leaves. -/
structure Turned (exec : Exec T) (hist : Scope → Machine T → History T) (x : Step T) (o : Option Bytes)
    (t : Machine T) : Prop where
  goes : Goes exec hist x t.trail
  performs : o = none → Performs x x.before.trail t.trail
  stack : o = none → t.evm.stack.length ≤ stackLimit

theorem wp_executeStep (tracks : Tracks exec hist) (hs : x.before.evm.stack.length ≤ stackLimit) :
    wp (executeStep exec x.scope x.instruction) (Turned exec hist x) (fun f _ => ∀ r, f ≠ .report r) x.before := by
  have hsettle : ∀ (r : Option StepResult) (t : Machine T), Goes exec hist x t.trail →
      ((∃ cost, r = some (.ok cost)) → Performs x x.before.trail t.trail ∧ t.evm.stack.length ≤ stackLimit) →
      wp (settleStep x.scope x.instruction r) (Turned exec hist x) (fun f _ => ∀ r, f ≠ .report r) t := by
    intro r t hgoes hgo
    refine (settling_settleStep _ _ _).run (fun _ _ h => h) fun o u hu hsettled => ?_
    have hon : o = none → ∃ cost, r = some (.ok cost) := by
      rintro rfl
      have hs : GoesOn r t u := (of_ok (wp_settleStep _ _ _ _) hu :)
      obtain ⟨cost, hr, -⟩ := hs.cost
      exact ⟨cost, hr⟩
    refine ⟨?_, fun ho => ?_, fun ho => ?_⟩
    · rw [hsettled.trail]
      exact hgoes
    · rw [hsettled.trail]
      exact (hgo (hon ho)).1
    · rw [hsettled.stack]
      exact (hgo (hon ho)).2
  unfold executeStep
  rw [wp_bind, wp_attempt]
  refine wp_mono (wp_executeInstruction tracks hs) (fun r t h => hsettle _ _ h.goes ?_) fun f t h => ⟨?_, fun h => h⟩
  · rintro ⟨cost, hr⟩
    have hr := Option.some.inj hr
    exact ⟨h.performs ⟨cost, hr⟩, h.stack ⟨cost, hr⟩⟩
  · rintro r rfl
    exact hsettle _ _ (h r rfl) fun ⟨_, hr⟩ => (nomatch hr)

omit [Crypto] [EventTracer T] in
theorem op_selfdestruct {instruction : Instruction} (h : instruction.opcode.code = 0xff) :
    instruction.op = .selfdestruct := by
  simp only [Instruction.op, Opcode.op, h]
  decide

/-- A frame that a step ends is reverted, unless it was destroyed. -/
theorem executeStep_ends {sc : Scope} {instruction : Instruction} {s t : Machine T} {ret : Bytes}
    (h : executeStep exec sc instruction s = .ok (some ret) t) :
    ret = [] ∧ (t.evm.reverted = true ∨ instruction.op = .selfdestruct) := by
  have hw : wp (executeStep exec sc instruction) (fun o t => ∀ ret, o = some ret →
      ret = [] ∧ (t.evm.reverted = true ∨ instruction.op = .selfdestruct)) (fun _ _ => True) s := by
    unfold executeStep
    rw [wp_bind]
    refine wp_def.2 ⟨fun r u _ => wp_mono (wp_settleStep sc instruction r u) (fun o t h => ?_) fun _ _ h => h,
      fun _ _ _ => trivial⟩
    rintro ret rfl
    exact ⟨h.1, h.2.imp id op_selfdestruct⟩
  exact (of_ok hw h :) ret rfl

/-- `frameWith` up to its loop only reads. -/
theorem keeps_enterFrame (sc : Scope) : Keeps (within (Effect.isRead ·)) (enterFrame sc : M T Unit) :=
  (keeps_emit _ _ _).bind fun _ => .ite (fun _ => .pure _) fun _ => keeps_warmTouch rfl

omit [Crypto] in
/-- A frame is its loop, unless it is too deep. -/
theorem frameWith_ok {loop : Exec T} (hloop : Scope → Machine T → History T) {sc : Scope} {s t : Machine T} {ret : Bytes}
    (hrun : frameWith loop sc s = .ok ret t) :
    ∃ u, enterFrame sc s = .ok ⟨⟩ u ∧
      ((callDepthLimit < sc.ctx.depth ∧ frameHistory hloop sc s = .cut ∧ ret = [] ∧ t.trail = u.trail ∧
          t.evm.reverted = true) ∨
        (¬callDepthLimit < sc.ctx.depth ∧ frameHistory hloop sc s = hloop sc u ∧ loop sc u = .ok ret t)) := by
  simp only [frameWith, bind, EStateM.bind] at hrun
  unfold frameHistory
  cases he : enterFrame sc s with
  | error f u =>
    rw [he] at hrun
    cases hrun
  | ok _ u =>
    rw [he] at hrun
    dsimp only at hrun ⊢
    refine ⟨u, rfl, ?_⟩
    split at hrun
    · next hdepth =>
      rw [if_pos hdepth]
      cases hrun
      exact .inl ⟨hdepth, rfl, rfl, rfl, rfl⟩
    · next hdepth =>
      rw [if_neg hdepth]
      exact .inr ⟨hdepth, rfl, hrun⟩

/-- A frame's run in a loop that follows its history. -/
theorem frame_follows {loop : Exec T} {hloop : Scope → Machine T → History T}
    (h : ∀ sc s ret t, s.evm.stack.length ≤ stackLimit → loop sc s = .ok ret t →
      Follows sc (hloop sc s) s.trail t.trail)
    {sc : Scope} {s t : Machine T} {ret : Bytes} (hs : s.evm.stack.length ≤ stackLimit)
    (hrun : frameWith loop sc s = .ok ret t) :
    ∃ w, Acts (Effect.isRead ·) s.trail w ∧ Follows sc (frameHistory hloop sc s) w t.trail := by
  obtain ⟨u, he, ⟨-, hh, -, ht, -⟩ | ⟨-, hh, hloop⟩⟩ := frameWith_ok hloop hrun
  · refine ⟨u.trail, ((keeps_enterFrame sc).ok he).trail, ?_⟩
    rw [hh, ht]
    exact .cut _ _
  · have hu : Within (Effect.isRead ·) s u := (keeps_enterFrame sc).ok he
    refine ⟨u.trail, hu.trail, ?_⟩
    rw [hh]
    exact h _ _ _ _ (hu.stack hs) hloop

omit [Crypto] in
theorem frame_completed {loop : Exec T} {hloop : Scope → Machine T → History T}
    (h : ∀ sc s ret t, loop sc s = .ok ret t → t.evm.reverted = false → (hloop sc s).Completed)
    {sc : Scope} {s t : Machine T} {ret : Bytes} (hrun : frameWith loop sc s = .ok ret t)
    (hrev : t.evm.reverted = false) : (frameHistory hloop sc s).Completed := by
  obtain ⟨u, -, ⟨-, -, -, -, ht⟩ | ⟨-, hh, hloop⟩⟩ := frameWith_ok hloop hrun
  · rw [ht] at hrev
    cases hrev
  · rw [hh]
    exact h _ _ _ _ hloop hrev

omit [Crypto] [EventTracer T] in
theorem completed_not_isCut {h : History T} (hc : h.Completed) : h.isCut = false := by
  cases h <;> first | rfl | exact hc.elim

/-- A node with a completed rest is completed. -/
theorem completed_node {rest : History T} (hc : rest.Completed) : (historyNode exec hist x rest).Completed := by
  unfold historyNode
  split
  · rw [History.Completed, completed_not_isCut hc]
    exact hc
  · exact hc

/-- A frame that comes back without revert has completed. -/
theorem loop_completed (fuel : Nat) : ∀ (sc : Scope) (s : Machine T) (ret : Bytes) (t : Machine T),
    executeLoop fuel sc s = .ok ret t → t.evm.reverted = false → (historyLoop fuel sc s).Completed := by
  induction fuel with
  | zero => exact fun _ _ _ _ hrun => (nomatch hrun)
  | succ fuel ih =>
    intro sc s ret t hrun hrev
    cases hi : currentInstruction sc s.evm with
    | none =>
      rw [historyLoop_done hi]
      trivial
    | some instruction =>
      rw [executeLoop_step hi] at hrun
      rw [historyLoop_step hi]
      cases he : executeStep (executeWithContext fuel) sc instruction s with
      | error f u =>
        rw [he] at hrun
        cases hrun
      | ok o u =>
        rw [he] at hrun
        cases o with
        | none => exact completed_node (ih _ _ _ _ hrun hrev)
        | some out =>
          cases hrun
          obtain ⟨-, hrev' | hop⟩ := executeStep_ends he
          · rw [hrev'] at hrev
            cases hrev
          · have hcall : instruction.op.isCall = false := by rw [hop]; rfl
            simp only [historyNode, openedFrame, hcall, Bool.false_eq_true, if_false]
            exact hop

theorem loop_follows (fuel : Nat) : ∀ (sc : Scope) (s : Machine T) (ret : Bytes) (t : Machine T),
    s.evm.stack.length ≤ stackLimit → executeLoop fuel sc s = .ok ret t →
      Follows sc (historyLoop fuel sc s) s.trail t.trail := by
  induction fuel with
  | zero => exact fun _ _ _ _ _ hrun => (nomatch hrun)
  | succ fuel ih =>
    intro sc s ret t hs hrun
    have tracks : Tracks (executeWithContext fuel) (frameHistory (historyLoop fuel)) :=
      ⟨fun sc s ret t => frame_follows ih, fun sc s ret t => frame_completed (loop_completed fuel),
        panicking_executeWithContext fuel⟩
    cases hi : currentInstruction sc s.evm with
    | none =>
      rw [executeLoop_done hi] at hrun
      rw [historyLoop_done hi, ((settling_finishFrame sc).ok hrun).trail]
      exact .done _ _
    | some instruction =>
      have hstep := wp_executeStep (x := ⟨sc, instruction, s⟩) tracks hs
      rw [executeLoop_step hi] at hrun
      rw [historyLoop_step hi]
      cases he : executeStep (executeWithContext fuel) sc instruction s with
      | error f u =>
        rw [he] at hrun
        cases hrun
      | ok o u =>
        have hturn := (wp_of_ok he).1 hstep
        rw [he] at hrun
        cases o with
        | none => exact hturn.goes _ _ (fun _ => hturn.performs rfl) (ih _ _ _ _ (hturn.stack rfl) hrun)
        | some out =>
          cases hrun
          exact hturn.goes _ _ nofun (.cut _ _)

/-- Every run of `execute_with_context` follows its history. -/
theorem run_follows {fuel : Nat} {sc : Scope} {s t : Machine T} {ret : Bytes} (hs : s.evm.stack.length ≤ stackLimit)
    (hrun : executeWithContext fuel sc s = .ok ret t) :
    ∃ w, Acts (Effect.isRead ·) s.trail w ∧ Follows sc (history fuel sc s) w t.trail :=
  frame_follows (loop_follows fuel) hs hrun

theorem run_completed {fuel : Nat} {sc : Scope} {s t : Machine T} {ret : Bytes}
    (hrun : executeWithContext fuel sc s = .ok ret t) (hrev : t.evm.reverted = false) :
    (history fuel sc s).Completed := frame_completed (loop_completed fuel) hrun hrev

theorem tracks_run (fuel : Nat) : Tracks (executeWithContext fuel : Exec T) (history fuel) :=
  ⟨fun _ _ _ _ hs hrun => run_follows hs hrun, fun _ _ _ _ => run_completed, panicking_executeWithContext fuel⟩

/-! ## A call from the outside -/

theorem openedFrame_some {inner : Inner T} {pending : Pending} {opened : Machine T}
    (h : openedFrame x.scope x.instruction x.before = some (inner, pending, opened)) :
    x.op.isCall ∧ guardStatic x.scope x.instruction x.before = .ok ⟨⟩ x.before ∧
      openFrame x.scope x.instruction x.before = .ok (.frame inner pending) opened := by
  unfold openedFrame at h
  rcases guardStatic_cases x.scope x.instruction x.before with ⟨r, hr⟩ | ⟨hg, -⟩
  · simp [hr] at h
  · rw [hg] at h
    by_cases hcall : x.op.isCall = true
    · have hcall' : x.instruction.op.isCall = true := hcall
      simp only [hcall', if_true] at h
      cases ho : openFrame x.scope x.instruction x.before with
      | error f t => simp [ho] at h
      | ok o t =>
        cases o with
        | done gas => simp [ho] at h
        | frame inner' pending' =>
          simp only [ho, Option.some.injEq, Prod.mk.injEq] at h
          obtain ⟨rfl, rfl, rfl⟩ := h
          exact ⟨hcall, hg, rfl⟩
    · have hcall' : x.instruction.op.isCall = false := by simpa [Step.op] using hcall
      simp [hcall'] at h

/-- An opened frame was opened by the rules. -/
theorem opens_of_openedFrame {inner : Inner T} {pending : Pending} {opened : Machine T}
    (h : openedFrame x.scope x.instruction x.before = some (inner, pending, opened)) : Opens x inner pending opened := by
  obtain ⟨hcall, hg, ho⟩ := openedFrame_some h
  exact (wp_of_ok ho).1 (wp_openFrame hcall hg)

/-- A frame that was opened follows its history, from an empty journal. -/
theorem Opens.follows {fuel : Nat} {inner : Inner T} {pending : Pending} {opened m : Machine T} {ret : Bytes}
    (hopens : Opens x inner pending opened)
    (hrun : executeWithContext fuel inner.scope (inner.machine opened.ext) = .ok ret m) :
    ∃ w, Acts (Effect.isRead ·) ⟨opened.ext, [], []⟩ w ∧
      Follows inner.scope (history fuel inner.scope (inner.machine opened.ext)) w m.trail := by
  rw [← hopens.fresh.trail]
  exact run_follows (by rw [Inner.machine, hopens.fresh.evm]; exact Nat.zero_le _) hrun

/-- A frame that came back is closed by the rules, and that is all a call-type instruction
    does then. -/
theorem wp_executeInstruction_closed {inner : Inner T} {pending : Pending} {opened m : Machine T} {ret : Bytes}
    (hs : x.before.evm.stack.length ≤ stackLimit)
    (hopened : openedFrame x.scope x.instruction x.before = some (inner, pending, opened))
    (hrun : exec inner.scope (inner.machine opened.ext) = .ok ret m) (hext : opened.ext.Extends m.ext) :
    wp (executeInstruction exec x.scope x.instruction)
      (fun r u => ∃ cost v, r = .ok cost ∧ u = { v with evm.pc := v.evm.pc + 1 } ∧
        Closed x inner pending ⟨m.exe.tracer, ret, m.evm⟩ { opened with ext := m.ext } v)
      (fun f _ => ∀ r, f ≠ .report r) x.before := by
  obtain ⟨hcall, hg, ho⟩ := openedFrame_some hopened
  have hframe : wp (callFrame exec x.scope x.instruction)
      (fun _ => Closed x inner pending ⟨m.exe.tracer, ret, m.evm⟩ { opened with ext := m.ext })
      (fun f _ => ∀ r, f ≠ .report r) x.before := by
    unfold callFrame
    rw [wp_bind, wp_of_ok ho]
    dsimp only
    rw [wp_bind, wp_runInner, wp_of_ok hrun]
    exact wp_closeFrame (opens_of_openedFrame hopened) hs rfl hext
  rw [executeInstruction_call hcall]
  refine wp_opCall_of (fun r hr => ?_) fun _ => ?_
  · rw [hg] at hr
    cases hr
  · exact wp_mono hframe (fun gas v h => ⟨gas, v, rfl, rfl, h⟩) fun f v h => ⟨h, fun r hr => absurd hr (h r)⟩

end Solenoid
