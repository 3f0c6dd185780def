/-
  Solenoid.Carries — what a run keeps as long as its steps meet a condition.

  `Carried G N R` says that a relation `R` between trails is kept by every step in `G` and
  by the end of every inner frame in `N`. A run all of whose steps and frames are such
  (`Meets`) keeps `R` from each of its turns on (`Meets.run`), and what `R` hands on holds
  in every state the run comes to (`Meets.reaches`), also in the frames that come to
  nothing. What a transaction does before its top frame is of a few kinds (`Prepares`).
-/
import Solenoid.Turns
import Solenoid.Transaction

namespace Solenoid

open Hoare

variable {T : Type} [Crypto] [EventTracer T]

/-! ## One step -/

/-- `R` is kept by the steps in `G` and by the end of the frames in `N`. -/
structure Carried (G : Step T → Prop) (N : Step T → Inner T → Pending → Machine T → Ended T → Prop)
    (R : Trail → Trail → Prop) : Prop where
  refl : ∀ t, R t t
  trans : ∀ {t u v}, R t u → R u v → R t v
  read : ∀ {e t u}, Effect.isRead e → Act e t u → R t u
  step : ∀ (exec : Exec T) {x : Step T}, x.op.isCall = false → G x →
    wp (executeInstruction exec x.scope x.instruction) (fun _ t => R x.before.trail t.trail)
      (fun f t => ∀ r, f = .report r → R x.before.trail t.trail) x.before
  opens : ∀ {x : Step T} {inner pending t}, G x →
    openedFrame x.scope x.instruction x.before = some (inner, pending, t) → R x.before.trail t.trail
  reported : ∀ {x : Step T} {t}, G x → x.op.isCall → Failed x.attempts x.before t → R x.before.trail t.trail
  closes : ∀ {x : Step T} {inner pending} {opened : Machine T} {r : Ended T} {u}, N x inner pending opened r →
    Opens x inner pending opened → Closes x inner pending r.output { opened.trail with ext := r.machine.ext } u →
    R ⟨opened.ext, [], []⟩ r.machine.trail → R opened.trail u

omit [EventTracer T] in
theorem Opens.isCall {x : Step T} {inner : Inner T} {pending : Pending} {t : Machine T} (h : Opens x inner pending t) :
    x.op.isCall = true := by
  cases h with
  | message hop =>
    revert hop
    cases x.op <;> simp [Op.isMessageCall, Op.isCall]
  | creation hop => rcases hop with h | h <;> rw [h] <;> rfl

/-- An instruction that opens no frame, by the effects its step allows. -/
theorem wp_executeInstruction_acts (exec : Exec T) (x : Step T) (hcall : x.op.isCall = false) :
    wp (executeInstruction exec x.scope x.instruction) (fun _ t => Acts x.allows x.before.trail t.trail)
      (fun f t => ∀ r, f = .report r → Acts x.allows x.before.trail t.trail) x.before := by
  by_cases he : x.op.ends = true
  · refine wp_mono (ends_instruction he x.before) (fun _ t h => ?_) fun f t h r hr =>
      (h r hr).trail.mono fun _ => False.elim
    rw [h.trail]
    exact .refl _ _
  · exact wp_mono (instruction_within exec x hcall (by simpa using he)) (fun _ t h => h.trail)
      fun f t h r hr => (h r hr).trail

/-- What follows the instruction in the loop leaves the trail. -/
theorem wp_executeStep_trail {exec : Exec T} {x : Step T} {Q : Trail → Prop}
    (h : wp (executeInstruction exec x.scope x.instruction) (fun _ t => Q t.trail)
      (fun f t => ∀ r, f = .report r → Q t.trail) x.before) :
    wp (executeStep exec x.scope x.instruction) (fun _ t => Q t.trail) (fun _ _ => True) x.before := by
  have hsettle : ∀ (r : Option StepResult) (t : Machine T), Q t.trail →
      wp (settleStep x.scope x.instruction r) (fun _ t => Q t.trail) (fun _ _ => True) t := by
    intro r t ht
    refine (settling_settleStep _ _ _).run (fun _ _ _ => trivial) fun o u _ hu => ?_
    rw [hu.trail]
    exact ht
  unfold executeStep
  rw [wp_bind, wp_attempt]
  exact wp_mono h (fun r t ht => hsettle _ _ ht) fun f t hf => ⟨fun r hr => hsettle _ _ (hf r hr), fun _ => trivial⟩

section

variable {G : Step T → Prop} {N : Step T → Inner T → Pending → Machine T → Ended T → Prop} {R : Trail → Trail → Prop}
  {exec : Exec T} {hist : Scope → Machine T → History T} {x : Step T}

theorem Carried.reads (h : Carried G N R) {t u : Trail} (hacts : Acts (Effect.isRead ·) t u) : R t u :=
  hacts.keep R h.refl h.trans fun he ha => h.read he ha

/-- The frame of a step keeps `R` in every run of `exec` that comes back, and is in `N`. -/
def Step.OpensIn (N : Step T → Inner T → Pending → Machine T → Ended T → Prop) (R : Trail → Trail → Prop) (exec : Exec T)
    (x : Step T) : Prop :=
  ∀ inner pending opened ret m, openedFrame x.scope x.instruction x.before = some (inner, pending, opened) →
    exec inner.scope (inner.machine opened.ext) = .ok ret m →
      R ⟨opened.ext, [], []⟩ m.trail ∧ N x inner pending opened ⟨ret, m⟩

theorem wp_callFrame_carried (h : Carried G N R) (tracks : Tracks exec hist) (hcall : x.op.isCall)
    (hg : guardStatic x.scope x.instruction x.before = .ok ⟨⟩ x.before) (hs : x.before.evm.stack.length ≤ stackLimit)
    (hx : G x) (hinner : x.OpensIn N R exec) :
    wp (callFrame exec x.scope x.instruction) (fun _ t => R x.before.trail t.trail)
      (fun f t => ∀ r, f = .report r → R x.before.trail t.trail) x.before := by
  have hopen := wp_def.1 (wp_openFrame hcall hg)
  unfold callFrame
  rw [wp_bind]
  refine wp_def.2 ⟨fun o t ho => ?_, fun f t ho r hr => h.reported hx hcall (hopen.2 _ _ ho r hr)⟩
  have hopened := openedFrame_ok hcall hg ho
  cases o with
  | done gas =>
    have hdone : Answered (Effect.isRead ·) x.before t := hopen.1 _ _ ho
    exact (wp_pure _).2 (h.reads hdone.trail)
  | frame inner pending =>
    have hopens : Opens x inner pending t := hopen.1 _ _ ho
    rw [wp_bind, wp_runInner]
    refine wp_def.2 ⟨fun ret i hrun => ?_, fun f i hrun r hr => absurd hr ((tracks.silent _).error hrun r)⟩
    have hext : t.ext.Extends i.ext := tracks.extends hopens.fresh hrun
    obtain ⟨hkept, hend⟩ := hinner _ _ _ _ _ hopened hrun
    refine wp_mono (wp_closeFrame hopens hs rfl hext) (fun _ u hu => ?_)
      fun f _ hf r hr => absurd hr (hf r)
    exact h.trans (h.opens hx hopened) (h.closes hend hopens hu.closes hkept)

theorem wp_executeInstruction_carried (h : Carried G N R) (tracks : Tracks exec hist)
    (hs : x.before.evm.stack.length ≤ stackLimit) (hx : G x) (hinner : x.OpensIn N R exec) :
    wp (executeInstruction exec x.scope x.instruction) (fun _ t => R x.before.trail t.trail)
      (fun f t => ∀ r, f = .report r → R x.before.trail t.trail) x.before := by
  by_cases hcall : x.op.isCall = true
  · rw [executeInstruction_call hcall]
    refine wp_opCall_of (fun _ _ _ _ => h.refl _) fun hg => ?_
    exact wp_mono (wp_callFrame_carried h tracks hcall hg hs hx hinner) (fun _ t ht => ht) fun f t hf => ⟨hf, hf⟩
  · exact h.step exec (by simpa using hcall) hx

theorem wp_executeStep_carried (h : Carried G N R) (tracks : Tracks exec hist)
    (hs : x.before.evm.stack.length ≤ stackLimit) (hx : G x) (hinner : x.OpensIn N R exec) :
    wp (executeStep exec x.scope x.instruction) (fun _ t => R x.before.trail t.trail) (fun _ _ => True) x.before :=
  wp_executeStep_trail (wp_executeInstruction_carried h tracks hs hx hinner)

end

/-! ## A run -/

/-- Every step that a run comes to is in `G`, and every frame that it gets back in `N`. -/
structure Meets (G : Step T → Prop) (N : Step T → Inner T → Pending → Machine T → Ended T → Prop) (sc₀ : Scope)
    (s₀ : Machine T) : Prop where
  steps : ∀ {sc s instruction}, Reaches sc₀ s₀ sc s → currentInstruction sc s.evm = some instruction →
    G ⟨sc, instruction, s⟩
  frames : ∀ {sc s instruction inner pending opened fuel ret m}, Reaches sc₀ s₀ sc s →
    currentInstruction sc s.evm = some instruction → openedFrame sc instruction s = some (inner, pending, opened) →
    executeWithContext fuel inner.scope (inner.machine opened.ext) = .ok ret m →
      N ⟨sc, instruction, s⟩ inner pending opened ⟨ret, m⟩

theorem Reaches.stack {sc₀ sc : Scope} {s₀ s : Machine T} (h : Reaches sc₀ s₀ sc s) (hs₀ : s₀.evm.stack = []) :
    s.evm.stack.length ≤ stackLimit := by
  have henter : ∀ {sc : Scope} {s t : Machine T}, s.evm.stack = [] → enterFrame sc s = .ok ⟨⟩ t →
      t.evm.stack.length ≤ stackLimit := fun hs he =>
    ((keeps_enterFrame _).ok he).stack (by rw [hs]; exact Nat.zero_le _)
  induction h with
  | start enters => exact henter hs₀ enters
  | @turn sc s t instruction fuel h current step ih =>
    have hturned := wp_executeStep (x := ⟨sc, instruction, s⟩) (tracks_run fuel) ih
    exact ((of_ok (wp_mono hturned (fun _ _ h => h) fun _ _ _ => trivial) step :) : Turned _ _ _ _ _).stack rfl
  | inner h current opens enters =>
    exact henter (by rw [Inner.machine, (opens_of_openedFrame (x := ⟨_, _, _⟩) opens).fresh.evm]) enters

section

variable {G : Step T → Prop} {N : Step T → Inner T → Pending → Machine T → Ended T → Prop} {R : Trail → Trail → Prop}
  {sc₀ : Scope} {s₀ : Machine T}

theorem frame_carried (h : Carried G N R) {loop : Exec T} {sc : Scope} {s t : Machine T} {ret : Bytes}
    (hloop : ∀ u, enterFrame sc s = .ok ⟨⟩ u → sc.ctx.depth ≤ callDepthLimit → loop sc u = .ok ret t → R u.trail t.trail)
    (hrun : frameWith loop sc s = .ok ret t) : R s.trail t.trail := by
  obtain ⟨_, u, he, hrest⟩ := bind_ok hrun
  have hu : R s.trail u.trail := h.reads ((keeps_enterFrame sc).ok he).trail
  split at hrest
  · cases hrest
    exact hu
  · next hdepth => exact h.trans hu (hloop u he (not_lt.1 hdepth) hrest)

/-- By induction on the bound, an inner frame before the turns after it. -/
theorem Meets.loop (hm : Meets G N sc₀ s₀) (h : Carried G N R) (hs₀ : s₀.evm.stack = []) (fuel : Nat) :
    ∀ (sc : Scope) (s : Machine T) (ret : Bytes) (t : Machine T), Reaches sc₀ s₀ sc s →
      executeLoop fuel sc s = .ok ret t → R s.trail t.trail := by
  induction fuel with
  | zero => exact fun _ _ _ _ _ hrun => (nomatch hrun)
  | succ fuel ih =>
    intro sc s ret t hreach hrun
    cases hi : currentInstruction sc s.evm with
    | none =>
      rw [executeLoop_done hi] at hrun
      rw [((settling_finishFrame sc).ok hrun).trail]
      exact h.refl _
    | some instruction =>
      have hinner : Step.OpensIn N R (executeWithContext fuel) ⟨sc, instruction, s⟩ := by
        intro inner pending opened ret' m ho hrun'
        refine ⟨?_, hm.frames hreach hi ho hrun'⟩
        rw [← (opens_of_openedFrame ho).fresh.trail]
        exact frame_carried h (fun u he hdepth => ih _ _ _ _ (.inner hreach hi ho he hdepth)) hrun'
      have hstep := wp_executeStep_carried (x := ⟨sc, instruction, s⟩) h (tracks_run fuel) (hreach.stack hs₀)
        (hm.steps hreach hi) hinner
      rw [executeLoop_step hi] at hrun
      cases he : executeStep (executeWithContext fuel) sc instruction s with
      | error f u =>
        rw [he] at hrun
        cases hrun
      | ok o u =>
        have hu : R s.trail u.trail := (of_ok hstep he :)
        rw [he] at hrun
        cases o with
        | none => exact h.trans hu (ih _ _ _ _ (.turn hreach hi he) hrun)
        | some out =>
          cases hrun
          exact hu

theorem Meets.run (hm : Meets G N sc₀ s₀) (h : Carried G N R) (hs₀ : s₀.evm.stack = []) {fuel : Nat} {ret : Bytes}
    {t : Machine T} (hrun : executeWithContext fuel sc₀ s₀ = .ok ret t) : R s₀.trail t.trail :=
  frame_carried h (fun _ he hdepth => hm.loop h hs₀ fuel _ _ _ _ (.start he hdepth)) hrun

/-- A turn of the run. -/
theorem Meets.turn (hm : Meets G N sc₀ s₀) (h : Carried G N R) (hs₀ : s₀.evm.stack = []) {sc : Scope} {s t : Machine T}
    {instruction : Instruction} {fuel : Nat} {o : Option Bytes} (hreach : Reaches sc₀ s₀ sc s)
    (hi : currentInstruction sc s.evm = some instruction)
    (hstep : executeStep (executeWithContext fuel) sc instruction s = .ok o t) : R s.trail t.trail := by
  have hinner : Step.OpensIn N R (executeWithContext fuel) ⟨sc, instruction, s⟩ := by
    intro inner pending opened ret' m ho hrun'
    refine ⟨?_, hm.frames hreach hi ho hrun'⟩
    rw [← (opens_of_openedFrame ho).fresh.trail]
    exact frame_carried h (fun u he hdepth => hm.loop h hs₀ fuel _ _ _ _ (.inner hreach hi ho he hdepth)) hrun'
  exact (of_ok (wp_executeStep_carried (x := ⟨sc, instruction, s⟩) h (tracks_run fuel) (hreach.stack hs₀)
    (hm.steps hreach hi) hinner) hstep :)

/-- What `R` hands on of the accounts holds in every state the run comes to. -/
theorem Meets.reaches (hm : Meets G N sc₀ s₀) (h : Carried G N R) (hs₀ : s₀.evm.stack = []) {I : Ext → Prop}
    (hI : ∀ {t u}, R t u → I t.ext → I u.ext) (hstart : I s₀.ext) {sc : Scope} {s : Machine T}
    (hreach : Reaches sc₀ s₀ sc s) : I s.ext := by
  induction hreach with
  | start enters => exact hI (h.reads ((keeps_enterFrame _).ok enters).trail) hstart
  | turn hreach hi hstep ih => exact hI (hm.turn h hs₀ hreach hi hstep) ih
  | inner hreach hi ho enters _ ih =>
    have hopened : I _ := hI (h.opens (x := ⟨_, _, _⟩) (hm.steps hreach hi) ho) ih
    exact hI (h.reads ((keeps_enterFrame _).ok enters).trail) hopened

end

/-! ## Before the top frame -/

/-- A relation between accounts that what a transaction does around its top frame keeps. -/
structure Readies (R : Ext → Ext → Prop) : Prop where
  refl : ∀ e, R e e
  trans : ∀ {e e' e''}, R e e' → R e' e'' → R e e''
  pull : ∀ {a account e e'}, Ext.pull a e = .ok account e' → R e e'
  mutate : ∀ (e : Ext) (a : Address) {f : Account → Account}, (∀ x, (f x).state = x.state ∧ (f x).code = x.code) →
    R e (e.mutate a f)
  install : ∀ (e : Ext) (a : Address) (code : Bytes),
    R e (e.mutate a fun x => { x with code := (code, Crypto.keccak256 code) })
  sets : ∀ (e : Ext) (addresses : Finset Address) (slots : Finset (Address × Word)) (created : List Address),
    R e { e with accessedAddresses := addresses, accessedStorage := slots, createdAccounts := created }

/-- It is kept by the entry of the address that the transaction derives, too. -/
structure Prepares (R : Ext → Ext → Prop) : Prop extends Readies R where
  openAccount : ∀ (e : Ext) (a : Address), R e { e with state := e.state.insert a (e.orDefault a) }

namespace Readies

variable {R : Ext → Ext → Prop} (h : Readies R)

def frame : Frame Fault (Machine T) where
  ok s t := R s.ext t.ext
  err _ _ _ := True
  refl s := h.refl s.ext
  trans := h.trans
  fail _ _ := trivial

include h

section

omit [EventTracer T]

theorem onExt {α : Type} {m : Run Ext α} (hm : ∀ e, wp m (fun _ => R e) (fun _ _ => True) e) :
    Keeps h.frame (Solenoid.onExt m : M T α) := fun s => (wp_onExt m).2 (wp_mono (hm s.ext) (fun _ _ h => h) fun _ _ h => h)

theorem same {f : Machine T → Machine T} (hf : ∀ s, (f s).ext = s.ext) : Keeps h.frame (modify f : M T Unit) :=
  .modify fun s => by
    change R s.ext (f s).ext
    rw [hf]
    exact h.refl _

theorem lifted {α : Type} (e : Except Fault α) : Keeps h.frame (lift e : M T α) := fun s =>
  (wp_lift e).2 ⟨fun _ _ => h.refl s.ext, fun _ _ => trivial⟩

theorem loaded (a : Address) : Keeps h.frame (Solenoid.onExt (Ext.pull a) : M T Account) :=
  h.onExt fun _ => wp_def.2 ⟨fun _ _ hp => h.pull hp, fun _ _ _ => trivial⟩

theorem wrote (a : Address) {f : Account → Account} (hf : ∀ x, (f x).state = x.state ∧ (f x).code = x.code) :
    Keeps h.frame (Solenoid.onExt (Ext.accountMut a f) : M T Unit) :=
  h.onExt fun e => (Ext.wp_accountMut f).2 ⟨fun _ => h.mutate e a hf, fun _ => trivial⟩

theorem credited (a : Address) (v : Word) : Keeps h.frame (Solenoid.onExt (Ext.credit a v) : M T Unit) :=
  h.onExt fun e => Ext.wp_credit (fun _ _ _ => h.mutate e a fun _ => ⟨rfl, rfl⟩) fun _ => trivial

theorem warmed (a : Address) : Keeps h.frame (Solenoid.onExt (Ext.warmAddress a) : M T Bool) := h.onExt fun e => by
  simp only [Ext.warmAddress, wp_bind, wp_get, wp_set, wp_pure]
  exact h.sets e (insert a e.accessedAddresses) e.accessedStorage e.createdAccounts

theorem touched (τ : AccountTouch) : Keeps h.frame (touch τ : M T Unit) := h.same fun _ => rfl

theorem warmTouch (a : Address) : Keeps h.frame (Solenoid.warmTouch a : M T Unit) :=
  keeps_warmTouch_of (h.warmed a) (h.touched _)

theorem accessList (items : List AccessListItem) (e : Ext) :
    R e (items.foldl (fun e item => { e with
      accessedAddresses := insert item.address e.accessedAddresses
      accessedStorage := item.storageKeys.foldl (fun ks key => insert (item.address, key) ks) e.accessedStorage }) e) := by
  induction items generalizing e with
  | nil => exact h.refl e
  | cons item items ih => exact h.trans (h.sets e _ _ e.createdAccounts) (ih _)

theorem works : Works (h.frame : Frame Fault (Machine T)) where
  lifted := h.lifted
  pulled := h.loaded
  warmed := h.warmed
  warmTouch := h.warmTouch
  touchCode a := keeps_touchCode_of (h.loaded a) fun _ _ => h.touched _
  listed := h.onExt fun e => (wp_modify _).2 (h.accessList _ e)
  valued a _ := h.wrote a fun _ => ⟨rfl, rfl⟩
  credited := h.credited
  counted a _ := h.wrote a fun _ => ⟨rfl, rfl⟩
  touched := h.touched

theorem fuels : Fuels (h.frame : Frame Fault (Machine T)) := ⟨fun _ => h.same fun _ => rfl, h.same fun _ => rfl⟩

end

theorem announces : Announces (h.frame : Frame Fault (Machine T)) := fun _ => h.same fun _ => rfl

theorem prepared (code : Bytecode) (call : Call) : Keeps h.frame (prepare code call : M T (Word × Word × Int × Word)) :=
  h.works.prepare h.announces h.fuels code call

end Readies

namespace Prepares

variable {R : Ext → Ext → Prop} (h : Prepares R)

include h

omit [EventTracer T] in
theorem opened (a : Address) : Keeps h.frame (Solenoid.openAccount a : M T Unit) := by
  refine Keeps.bind (.modify fun s => h.sets s.ext s.ext.accessedAddresses s.ext.accessedStorage
    (s.ext.createdAccounts ++ [a])) fun _ => ?_
  refine (h.warmTouch a).bind fun _ => ?_
  exact .modify fun s => h.openAccount s.ext a

omit [EventTracer T] in
theorem started (r : Runner) : Keeps h.frame (r.start : M T (Bytecode × Int × Address)) :=
  h.works.start h.fuels h.opened r

/-- The top frame starts on accounts in `R`, with an empty stack. -/
theorem topFrame {r : Runner} {ext : Ext} {sc : Scope} {s : Machine T} (htop : r.topFrame ext = some (sc, s)) :
    R ext s.ext ∧ s.evm.stack = [] := by
  unfold Runner.topFrame at htop
  split at htop
  · cases htop
  · next code _ created s₁ hstart =>
    have hR : R ext s₁.ext := (h.started r).ok hstart
    have hstack : s₁.evm.stack = [] := ((Runner.outside_start r).ok hstart).stack
    split at htop
    · split at htop
      · cases htop
      · next prep s₂ hprep =>
        cases htop
        have hR' : R s₁.ext s₂.ext := (h.prepared _ _).ok hprep
        exact ⟨h.trans hR hR', ((outside_prepare _ _).ok hprep).stack.trans hstack⟩
    · cases htop
      exact ⟨hR, hstack⟩

end Prepares

end Solenoid
