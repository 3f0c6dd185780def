/-
  Solenoid.Tallies — what a run adds to a list that only grows: its logs, the accounts it
  destroyed.

  A `Tally` says what one step adds, and whether a caller has what its inner frames added. It
  is `Counted` when every instruction adds what it says and neither opening nor closing a
  frame adds anything; then every run adds the tally of its history (`Counted.run`).
  - `run_logs`: a frame ends with its own logs. Those of the frames below it are nowhere.
  - `run_destroyed`: the accounts marked in the end are those of every SELFDESTRUCT at any
    depth, in the order they were executed, whether or not its frame was kept.
  - `Runner.apply_logs`, `Runner.reset_drops`: the same of a transaction.
-/
import Solenoid.Destruction

namespace Solenoid

open Hoare

/-! ## Tallies -/

/-- A list in the trail. `step x goes` is what a step adds; `goes` says that its frame goes on. -/
structure Tally (T α : Type) where
  read : Trail → List α
  step : Step T → Bool → List α
  /-- The list is of the accounts, so that a caller has what its inner frames added. -/
  shared : Bool

variable {T α : Type}

/-- What a history adds. -/
def History.tally (τ : Tally T α) : History T → List α
  | done | cut => []
  | step x rest => τ.step x (!rest.isCut) ++ rest.tally τ
  | call _ _ _ _ callee _ rest => (if τ.shared then callee.tally τ else []) ++ rest.tally τ

section

variable [Crypto] [EventTracer T]

structure Counted (τ : Tally T α) : Prop where
  reads : ∀ {e t u}, Effect.isRead e → Act e t u → τ.read u = τ.read t
  step : ∀ {fuel : Nat} {x : Step T} {o t}, Turned (executeWithContext fuel) (history fuel) x o t →
    openedFrame x.scope x.instruction x.before = none →
    executeStep (executeWithContext fuel) x.scope x.instruction x.before = .ok o t →
      τ.read t.trail = τ.read x.before.trail ++ τ.step x o.isNone
  opens : ∀ {x : Step T} {inner pending opened}, Opens x inner pending opened →
    τ.read opened.trail = τ.read x.before.trail
  closes : ∀ {x : Step T} {inner : Inner T} {pending out t u}, Closes x inner pending out t u → τ.read u = τ.read t
  whole : τ.shared = true → ∀ {t u : Trail}, t.ext = u.ext → τ.read t = τ.read u
  apart : τ.shared = false → ∀ (t : Trail) (e : Ext), τ.read { t with ext := e } = τ.read t

theorem isCut_historyNode (exec : Exec T) (hist : Scope → Machine T → History T) (x : Step T) (rest : History T) :
    (historyNode exec hist x rest).isCut = false := by
  unfold historyNode
  split <;> rfl

/-- A loop that comes back was not cut. -/
theorem loop_isCut {fuel : Nat} {sc : Scope} {s t : Machine T} {ret : Bytes} (hrun : executeLoop fuel sc s = .ok ret t) :
    (historyLoop fuel sc s).isCut = false := by
  cases fuel with
  | zero => cases hrun
  | succ fuel =>
    cases hi : currentInstruction sc s.evm with
    | none =>
      rw [historyLoop_done hi]
      rfl
    | some instruction =>
      rw [historyLoop_step hi]
      exact isCut_historyNode _ _ _ _

namespace Counted

variable {τ : Tally T α} (h : Counted τ)
include h

theorem acts {t u : Trail} (hacts : Acts (Effect.isRead ·) t u) : τ.read u = τ.read t :=
  hacts.keep (fun t u => τ.read u = τ.read t) (fun _ => rfl) (fun h h' => h'.trans h) fun he ha => h.reads he ha

theorem frame {loop : Exec T} {hloop : Scope → Machine T → History T} {sc : Scope} {s t : Machine T} {ret : Bytes}
    (hloops : ∀ u, u.evm.stack.length ≤ stackLimit → loop sc u = .ok ret t →
      τ.read t.trail = τ.read u.trail ++ (hloop sc u).tally τ)
    (hs : s.evm.stack.length ≤ stackLimit) (hrun : frameWith loop sc s = .ok ret t) :
    τ.read t.trail = τ.read s.trail ++ (frameHistory hloop sc s).tally τ := by
  obtain ⟨u, he, ⟨-, hh, -, ht, -⟩ | ⟨-, hh, hloop⟩⟩ := frameWith_ok hloop hrun
  · rw [hh, ht, h.acts ((keeps_enterFrame sc).ok he).trail, History.tally, List.append_nil]
  · have hu : Within (Effect.isRead ·) s u := (keeps_enterFrame sc).ok he
    rw [hh, hloops u (hu.stack hs) hloop, h.acts hu.trail]

/-- The end of a frame leaves the caller what is shared of the frame's own. -/
theorem closed {x : Step T} {inner : Inner T} {pending : Pending} {out : Output T} {opened m : Machine T} {u : Trail}
    {callee : History T} (hopens : Opens x inner pending opened)
    (hcloses : Closes x inner pending out { opened.trail with ext := m.ext } u)
    (hcallee : τ.read m.trail = τ.read (inner.machine opened.ext).trail ++ callee.tally τ) :
    τ.read u = τ.read x.before.trail ++ if τ.shared then callee.tally τ else [] := by
  rw [h.closes hcloses, ← h.opens hopens]
  cases hshared : τ.shared with
  | false =>
    rw [h.apart hshared]
    exact (List.append_nil _).symm
  | true =>
    rw [h.whole hshared (show Trail.ext { opened.trail with ext := m.ext } = m.trail.ext from rfl), hcallee,
      h.whole hshared (show (inner.machine opened.ext).trail.ext = opened.trail.ext from rfl)]
    rfl

/-- A turn adds what its node does. -/
theorem turn {fuel : Nat} {x : Step T} {o : Option Bytes} {u : Machine T} {rest : History T}
    (hs : x.before.evm.stack.length ≤ stackLimit)
    (hstep : executeStep (executeWithContext fuel) x.scope x.instruction x.before = .ok o u)
    (hgoes : (!rest.isCut) = o.isNone)
    (hinner : ∀ sc s ret t, s.evm.stack.length ≤ stackLimit → executeWithContext fuel sc s = .ok ret t →
      τ.read t.trail = τ.read s.trail ++ (history fuel sc s).tally τ) :
    τ.read u.trail ++ rest.tally τ =
      τ.read x.before.trail ++ (historyNode (executeWithContext fuel) (history fuel) x rest).tally τ := by
  have hturned : Turned (executeWithContext fuel) (history fuel) x o u :=
    (wp_of_ok hstep).1 (wp_executeStep (tracks_run fuel) hs)
  cases hopened : openedFrame x.scope x.instruction x.before with
  | none => rw [historyNode, hopened, h.step hturned hopened hstep, History.tally, hgoes, List.append_assoc]
  | some opening =>
    obtain ⟨inner, pending, opened⟩ := opening
    obtain ⟨ret, m, hrun, hcloses⟩ := hturned.closed hopened
    have hopens := opens_of_openedFrame hopened
    have hcallee := hinner _ _ _ _ (hopens.fresh.stack opened.ext) hrun
    rw [historyNode, hopened, h.closed hopens hcloses hcallee, History.tally, List.append_assoc]

/-- By induction on the bound: the step and the frame it opens, then the turns after it. -/
theorem loop (fuel : Nat) : ∀ (sc : Scope) (s : Machine T) (ret : Bytes) (t : Machine T),
    s.evm.stack.length ≤ stackLimit → executeLoop fuel sc s = .ok ret t →
      τ.read t.trail = τ.read s.trail ++ (historyLoop fuel sc s).tally τ := by
  induction fuel with
  | zero => exact fun _ _ _ _ _ hrun => by cases hrun
  | succ fuel ih =>
    intro sc s ret t hs hrun
    cases hi : currentInstruction sc s.evm with
    | none =>
      rw [executeLoop_done hi] at hrun
      rw [historyLoop_done hi, ((settling_finishFrame sc).ok hrun).trail]
      exact (List.append_nil _).symm
    | some instruction =>
      rw [executeLoop_step hi] at hrun
      rw [historyLoop_step hi]
      have hinner : ∀ sc s ret t, s.evm.stack.length ≤ stackLimit → executeWithContext fuel sc s = .ok ret t →
          τ.read t.trail = τ.read s.trail ++ (history fuel sc s).tally τ := fun sc s ret t hs hrun =>
        h.frame (fun u hu hl => ih _ u _ _ hu hl) hs hrun
      cases hstep : executeStep (executeWithContext fuel) sc instruction s with
      | error f u =>
        rw [hstep] at hrun
        cases hrun
      | ok o u =>
        have hturned : Turned (executeWithContext fuel) (history fuel) ⟨sc, instruction, s⟩ o u :=
          (wp_of_ok hstep).1 (wp_executeStep (x := ⟨sc, instruction, s⟩) (tracks_run fuel) hs)
        rw [hstep] at hrun
        cases o with
        | none =>
          rw [ih _ _ _ _ (hturned.stack rfl) hrun]
          exact h.turn (x := ⟨sc, instruction, s⟩) hs hstep (by rw [loop_isCut hrun]; rfl) hinner
        | some out =>
          cases hrun
          have hgoes : (!(History.cut : History T).isCut) = (some ret).isNone := rfl
          have hturn := h.turn (x := ⟨sc, instruction, s⟩) hs hstep hgoes hinner
          rwa [History.tally, List.append_nil] at hturn

theorem run {fuel : Nat} {sc : Scope} {s t : Machine T} {ret : Bytes} (hs : s.evm.stack.length ≤ stackLimit)
    (hrun : executeWithContext fuel sc s = .ok ret t) :
    τ.read t.trail = τ.read s.trail ++ (history fuel sc s).tally τ :=
  h.frame (fun u hu hl => h.loop fuel _ u _ _ hu hl) hs hrun

end Counted

/-! ## Lists that are left alone -/

section

omit [EventTracer T]

theorem Acts.logs {P : Effect → Prop} {t u : Trail} (h : Acts P t u) (hP : ∀ l, ¬P (.log l)) : u.logs = t.logs := by
  refine h.keep (fun t u => u.logs = t.logs) (fun _ => rfl) (fun h h' => h'.trans h) fun {e t u} he ha => ?_
  cases ha with
  | log => exact absurd he (hP _)
  | _ => rfl

theorem Acts.destroyed {P : Effect → Prop} {t u : Trail} (h : Acts P t u) (hP : ∀ src dst, ¬P (.destroy src dst)) :
    u.ext.destroyedAccounts = t.ext.destroyedAccounts := by
  refine h.keep (fun t u => u.ext.destroyedAccounts = t.ext.destroyedAccounts) (fun _ => rfl) (fun h h' => h'.trans h)
    fun {e t u} he ha => ?_
  have hpull : ∀ {a : Address} {account : Account} {e e' : Ext}, Ext.pull a e = .ok account e' →
      e'.destroyedAccounts = e.destroyedAccounts := fun hp => by
    cases Ext.pulled hp <;> rfl
  have hget : ∀ {a : Address} {key val : Word} {e e' : Ext}, Ext.get a key e = .ok val e' →
      e'.destroyedAccounts = e.destroyedAccounts := fun hg => by
    obtain ⟨account, e₁, hp, hg⟩ := Ext.got hg
    rw [← hpull hp]
    cases hg <;> rfl
  cases ha with
  | destroy => exact absurd he (hP _ _)
  | load hp => exact hpull hp
  | fetch hg => exact hget hg
  | store hg => exact (hget hg :)
  | transfer | bump => simp only [Ext.setValue, Ext.setNonce, Ext.destroyedAccounts_mutate]
  | _ => rfl

omit [Crypto] in
theorem AccountTouch.destroyed_undone (τ : AccountTouch) (e : Ext) :
    (τ.undone e).destroyedAccounts = e.destroyedAccounts := by
  cases τ with
  | setState a key val new isWarm => cases isWarm <;> rfl
  | getState a key val isWarm => cases isWarm <;> rfl
  | setNonce | setValue | create => exact Ext.destroyedAccounts_mutate _ _ _
  | _ => rfl

omit [Crypto] in
/-- A mark is not undone. -/
theorem destroyed_revert {out : Evm} {e e' : Ext} (h : out.revert e = .ok ⟨⟩ e') :
    e'.destroyedAccounts = e.destroyedAccounts := by
  let unmarked : Frame Fault Ext := ⟨fun e e' => e'.destroyedAccounts = e.destroyedAccounts, fun _ _ _ => True,
    fun _ => rfl, fun h h' => h'.trans h, fun _ _ => trivial⟩
  have hkeeps : Keeps unmarked out.revert := Keeps.forM _ fun τ _ e =>
    AccountTouch.wp_revertTouch τ e (fun _ => τ.destroyed_undone e) fun _ _ => trivial
  exact hkeeps.ok h

theorem Moved.left {src dst : Address} {v : Word} {may : Prop} {t u : Trail} (h : Moved src dst v may t u) :
    u.logs = t.logs ∧ u.ext.destroyedAccounts = t.ext.destroyedAccounts := by
  cases h with
  | still => exact ⟨rfl, rfl⟩
  | moved _ _ _ _ h =>
    have hone : Acts (· = .transfer src dst v) t u := .one rfl h
    exact ⟨hone.logs fun _ h => (by cases h), hone.destroyed fun _ _ h => (by cases h)⟩

theorem Closes.left {x : Step T} {inner : Inner T} {pending : Pending} {out : Output T} {t u : Trail}
    (h : Closes x inner pending out t u) : u.logs = t.logs ∧ u.ext.destroyedAccounts = t.ext.destroyedAccounts := by
  unfold Closes at h
  split at h
  · split at h
    · rw [h]
      exact ⟨rfl, rfl⟩
    · obtain ⟨mid, ⟨mid', hm, rfl⟩, rfl⟩ := h
      exact ⟨hm.left.1, hm.left.2.trans (Ext.destroyedAccounts_mutate _ _ _)⟩
  · exact ⟨h.logs, destroyed_revert h.ext⟩

theorem Opens.left {x : Step T} {inner : Inner T} {pending : Pending} {opened : Machine T}
    (h : Opens x inner pending opened) :
    opened.evm.logs = x.before.evm.logs ∧ opened.ext.destroyedAccounts = x.before.ext.destroyedAccounts := by
  have hcall := h.isCall
  refine ⟨h.acts.logs fun l hl => ?_, h.acts.destroyed fun src dst hd => ?_⟩
  · rw [hl.1] at hcall
    cases hcall
  · rw [hd.1] at hcall
    cases hcall

end

omit [EventTracer T] in
theorem Follows.stepped {sc : Scope} {h rest : History T} {t z : Trail} {x : Step T} (hf : Follows sc h t z)
    (hh : h = .step x rest) : ∃ u, Acts x.allows t u ∧ Follows x.scope rest u z := by
  cases hf with
  | step acts _ _ next =>
    cases hh
    exact ⟨_, acts.mono fun _ h => h.1, next⟩
  | done | cut | call => cases hh

/-- A turn that opened no frame, by the effects its step allows. -/
theorem Turned.acts {exec : Exec T} {hist : Scope → Machine T → History T} {x : Step T} {o : Option Bytes}
    {t : Machine T} (h : Turned exec hist x o t) (hnone : openedFrame x.scope x.instruction x.before = none) :
    Acts x.allows x.before.trail t.trail := by
  have hgoes := h.goes .cut t.trail (fun hcut => by cases hcut) (.cut _ _)
  rw [historyNode, hnone] at hgoes
  obtain ⟨u, hacts, hcut⟩ := hgoes.stepped rfl
  rw [(hcut.of_isCut rfl).2]
  exact hacts

/-! ## Logs -/

omit [EventTracer T] in
/-- A LOG that goes through is paid for; one that does not leaves the trail. -/
theorem wp_opLog_paid (x : Step T) :
    wp (opLog x.scope x.instruction)
      (fun r t => (∀ cost, r = .ok cost → cost ≤ t.evm.gas.remaining) ∧
        ∀ cost, r = .halt cost → t.trail = x.before.trail)
      (fun f t => ∀ r, f = .report r → t.trail = x.before.trail) x.before := by
  -- a run without effects
  have hstill : ∀ {s t : Machine T}, Acts (fun _ => False) s.trail t.trail → t.trail = s.trail := fun h =>
    h.keep (fun t u => u = t) (fun _ => rfl) (fun h h' => h'.trans h) fun he _ => he.elim
  have hfail : ∀ {f : Fault} {s t : Machine T}, (within fun _ => False).err f s t → ∀ r, f = .report r →
      t.trail = s.trail := fun h r hr => hstill (h r hr).trail
  unfold opLog
  rw [wp_ite]
  refine ⟨fun _ => (wp_refuse _).2 fun _ _ => rfl, fun _ => ?_⟩
  refine keeps_peek2.step (fun _ _ h => hfail h) fun range s₁ _ h₁ => ?_
  refine (keeps_lift _).step (fun _ _ h => hfail (within _ |>.fail h₁ h)) fun offset s₂ _ h₂ => ?_
  have h₂ := h₁.trans h₂
  refine (keeps_lift _).step (fun _ _ h => hfail (within _ |>.fail h₂ h)) fun size s₃ _ h₃ => ?_
  have h₃ := h₂.trans h₃
  refine (keeps_lift _).step (fun _ _ h => hfail (within _ |>.fail h₃ h)) fun gas s₄ _ h₄ => ?_
  have h₄ := h₃.trans h₄
  rw [wp_charged]
  refine ⟨fun _ => ⟨fun _ h => (by cases h), fun _ _ => hstill h₄.trail⟩, fun hgas => ?_⟩
  refine keeps_pop.step (fun _ _ h => hfail (within _ |>.fail h₄ h)) fun _ s₅ _ h₅ => ?_
  have h₅ := h₄.trans h₅
  refine keeps_pop.step (fun _ _ h => hfail (within _ |>.fail h₅ h)) fun _ s₆ _ h₆ => ?_
  have h₆ := h₅.trans h₆
  refine (keeps_popTopics _).step (fun _ _ h => hfail (within _ |>.fail h₆ h)) fun topics s₇ _ h₇ => ?_
  have h₇ := h₆.trans h₇
  refine (keeps_logData _ _).step (fun _ _ h => hfail (within _ |>.fail h₇ h)) fun data s₈ _ h₈ => ?_
  have h₈ := h₇.trans h₈
  rw [wp_bind, wp_modify, wp_next]
  refine ⟨fun cost hcost => ?_, fun _ h => (by cases h)⟩
  cases hcost
  have hlimit : s₈.evm.gas.limit = s₄.evm.gas.limit :=
    (congrArg Regs.limit h₈.regs).trans (congrArg Regs.limit h₄.regs).symm
  have hused : s₈.evm.gas.used = s₄.evm.gas.used :=
    (congrArg Regs.used h₈.regs).trans (congrArg Regs.used h₄.regs).symm
  show gas ≤ s₈.evm.gas.limit - s₈.evm.gas.used
  rw [hlimit, hused]
  exact hgas

/-- The turn of a LOG adds its log exactly when the frame goes on. -/
theorem executeStep_log {exec : Exec T} {x : Step T} (hop : x.op = .log) {o : Option Bytes} {t : Machine T}
    (hstep : executeStep exec x.scope x.instruction x.before = .ok o t) :
    t.evm.logs = x.before.evm.logs ++ if o.isNone then [x.log] else [] := by
  have hexec : executeInstruction exec x.scope x.instruction = opLog x.scope x.instruction := by
    simp only [executeInstruction, show x.instruction.op = .log from hop]
  have hops : x.instruction.op ≠ .invalid ∧ x.instruction.op ≠ .selfdestruct := by
    constructor <;> intro h <;> rw [show x.instruction.op = .log from hop] at h <;> cases h
  have hw : wp (executeStep exec x.scope x.instruction)
      (fun o t => t.trail.logs = x.before.evm.logs ++ if o.isNone then [x.log] else []) (fun _ _ => True) x.before := by
    have hdry : ∀ {r : Option StepResult} {u : Machine T}, u.trail = x.before.trail →
        (∀ o v, settleStep x.scope x.instruction r u = .ok o v → o ≠ none) →
        wp (settleStep x.scope x.instruction r)
          (fun o t => t.trail.logs = x.before.evm.logs ++ if o.isNone then [x.log] else []) (fun _ _ => True) u := by
      intro r u hu hends
      refine (settling_settleStep _ _ _).run (fun _ _ _ => trivial) fun o v ho hsettled => ?_
      rw [hsettled.trail, hu]
      cases o with
      | none => exact absurd rfl (hends _ _ ho)
      | some ret => exact (List.append_nil _).symm
    unfold executeStep
    rw [wp_bind, wp_attempt, hexec]
    refine wp_mono (wp_and (wp_opLog_paid x) (logs_opLog x)) (fun r u hu => ?_) fun f u hu =>
      ⟨fun r hr => ?_, fun _ => trivial⟩
    · cases r with
      | ok cost =>
        refine wp_mono (wp_settleStep_goes x.scope x.instruction (hu.1.1 cost rfl) hops.1 hops.2) (fun o v hv => ?_)
          fun _ _ h => h.elim
        obtain ⟨rfl, -, hsettled⟩ := hv
        rw [hsettled.trail]
        exact hu.2 ⟨cost, rfl⟩
      | halt cost =>
        refine hdry (hu.1.2 cost rfl) fun o v ho hnone => ?_
        have hhalts : HaltsDry o v :=
          (of_ok (wp_mono (wp_settleStep_halt _ _ _ _) (fun _ _ h => h) fun _ _ h => h.elim) ho :)
        rw [hnone] at hhalts
        cases hhalts.1
    · refine hdry (hu.1 r hr) fun o v ho hnone => ?_
      have hhalts : HaltsDry o v := (of_ok (wp_mono (wp_settleStep_none _ _ _) (fun _ _ h => h) fun _ _ h => h.elim) ho :)
      rw [hnone] at hhalts
      cases hhalts.1
  exact (of_ok hw hstep :)

/-- The logs of a frame: a LOG appends its own when the frame goes on. -/
def logTally (T : Type) : Tally T Log where
  read t := t.logs
  step x goes := if x.op = .log ∧ goes then [x.log] else []
  shared := false

/-- The logs that the frame itself emits, in order. -/
abbrev History.emitted (h : History T) : List Log := h.tally (logTally T)

theorem counted_logs : Counted (logTally T) where
  reads he ha := (Acts.one (P := (Effect.isRead ·)) he ha).logs fun _ h => by cases h
  step {fuel x o t} hturned hnone hstep := by
    by_cases hop : x.op = .log
    · have hlogs : t.trail.logs = _ := executeStep_log hop hstep
      exact hlogs.trans (by simp only [logTally, hop, true_and, Machine.trail])
    · have hkept : t.trail.logs = _ := (hturned.acts hnone).logs fun l hl => hop hl.1
      exact hkept.trans (by simp only [logTally, hop, false_and, if_false, List.append_nil])
  opens h := h.left.1
  closes h := h.left.1
  whole h := by cases h
  apart _ _ _ := rfl

/-- A frame ends with the logs it had and its own, and with none of the frames below it. -/
theorem run_logs {fuel : Nat} {sc : Scope} {s t : Machine T} {ret : Bytes} (hs : s.evm.stack.length ≤ stackLimit)
    (hrun : executeWithContext fuel sc s = .ok ret t) : t.evm.logs = s.evm.logs ++ (history fuel sc s).emitted :=
  counted_logs.run hs hrun

/-! ## Destroyed accounts -/

theorem executeStep_selfdestruct {exec : Exec T} {x : Step T} (hop : x.op = .selfdestruct) {o : Option Bytes}
    {t : Machine T} (hstep : executeStep exec x.scope x.instruction x.before = .ok o t) :
    t.ext.destroyedAccounts = x.before.ext.destroyedAccounts ++ if x.retires then [x.this] else [] := by
  have hexec : executeInstruction exec x.scope x.instruction = opSelfdestruct x.scope x.instruction := by
    simp only [executeInstruction, show x.instruction.op = .selfdestruct from hop]
  suffices hw : wp (executeStep exec x.scope x.instruction)
      (fun _ t => t.trail.ext.destroyedAccounts = x.before.ext.destroyedAccounts ++ if x.retires then [x.this] else [])
      (fun _ _ => True) x.before from (of_ok hw hstep :)
  refine wp_executeStep_trail (Q := fun t => t.ext.destroyedAccounts = _) ?_
  rw [hexec]
  refine wp_mono (wp_opSelfdestruct_exact hop) (fun _ u hu => ?_) fun f u hu r hr => ?_
  · rw [if_pos hu.1]
    exact hu.2.marked
  · rw [if_neg (hu r hr).stays, List.append_nil]
    exact (hu r hr).marked

/-- The marks of a run: an account each time its SELFDESTRUCT goes through, at any depth. -/
def destroyedTally (T : Type) : Tally T Address where
  read t := t.ext.destroyedAccounts
  step x _ := if x.retires then [x.this] else []
  shared := true

abbrev History.destroyed (h : History T) : List Address := h.tally (destroyedTally T)

theorem counted_destroyed : Counted (destroyedTally T) where
  reads he ha := (Acts.one (P := (Effect.isRead ·)) he ha).destroyed fun _ _ h => by cases h
  step {fuel x o t} hturned hnone hstep := by
    by_cases hop : x.op = .selfdestruct
    · exact executeStep_selfdestruct hop hstep
    · have hkept : t.trail.ext.destroyedAccounts = _ := (hturned.acts hnone).destroyed fun src dst hd => hop hd.1
      have hno : ¬x.retires := fun h => hop h.1
      exact hkept.trans (by simp only [destroyedTally, hno, if_false, List.append_nil])
  opens h := h.left.2
  closes h := h.left.2
  whole _ _ _ h := congrArg Ext.destroyedAccounts h
  apart h := by cases h

/-- The accounts that are marked in the end: those that were, and those of every SELFDESTRUCT
    of the run, of dropped frames too. -/
theorem run_destroyed {fuel : Nat} {sc : Scope} {s t : Machine T} {ret : Bytes} (hs : s.evm.stack.length ≤ stackLimit)
    (hrun : executeWithContext fuel sc s = .ok ret t) :
    t.ext.destroyedAccounts = s.ext.destroyedAccounts ++ (history fuel sc s).destroyed :=
  counted_destroyed.run hs hrun

/-! ## A transaction -/

section Logs

/-- The runs that log nothing and leave the return buffer. -/
def quiet : Frame Fault (Machine T) where
  ok s t := t.evm.logs = s.evm.logs ∧ t.exe.ret = s.exe.ret
  err _ _ _ := True
  refl _ := ⟨rfl, rfl⟩
  trans h h' := ⟨h'.1.trans h.1, h'.2.trans h.2⟩
  fail _ _ := trivial

omit [Crypto] [EventTracer T] in
theorem Booked.quiet {s t : Machine T} (h : Booked s t) : t.evm.logs = s.evm.logs ∧ t.exe.ret = s.exe.ret :=
  ⟨by rw [h.evm], by rw [h.exe]⟩

omit [EventTracer T] in
theorem works_quiet : Works (quiet : Frame Fault (Machine T)) := works_booking.mono Booked.quiet id

omit [Crypto] [EventTracer T] in
theorem fuels_quiet : Fuels (quiet : Frame Fault (Machine T)) :=
  ⟨fun _ => .modify fun _ => ⟨rfl, rfl⟩, .modify fun _ => ⟨rfl, rfl⟩⟩

omit [EventTracer T] in
theorem quiet_start (r : Runner) : Keeps quiet (r.start : M T (Bytecode × Int × Address)) :=
  works_quiet.start fuels_quiet (fun a => (books_openAccount a).mono Booked.quiet id) r

theorem quiet_prepare (code : Bytecode) (call : Call) :
    Keeps quiet (prepare code call : M T (Word × Word × Int × Word)) :=
  works_quiet.prepare (fun data => (announces_booking data).mono Booked.quiet id) fuels_quiet code call

omit [Crypto] [EventTracer T] in
theorem quiet_createdGas (r : Runner) (reduction : Int) (ret : Bytes) :
    Keeps quiet (r.createdGas reduction ret : M T (Bytes × Int)) := by
  refine Keeps.get.bind fun _ => ?_
  refine .ite (fun _ => ?_) fun _ => .pure _
  refine Keeps.bind (.modify fun _ => ⟨rfl, rfl⟩) fun _ => ?_
  refine Keeps.bind ((books_lift _).mono Booked.quiet id) fun _ => ?_
  refine Keeps.bind ((settling_takeGas _).mono (fun h => ⟨congrArg Trail.logs h.trail, h.ret⟩) fun _ => trivial) fun _ => ?_
  exact .pure _

namespace Runner

variable {fuel : Nat} {r : Runner} {ext ext' : Ext} {result : CallResult T}

theorem topFrame_quiet {sc : Scope} {s : Machine T} (h : r.topFrame ext = some (sc, s)) :
    s.evm.logs = [] ∧ s.exe.ret = [] := by
  unfold topFrame at h
  split at h
  · cases h
  · next code _ created s₁ hstart =>
    have hstarted : s₁.evm.logs = [] ∧ s₁.exe.ret = [] := (quiet_start r).ok hstart
    split at h
    · split at h
      · cases h
      · next prep s₂ hprep =>
        cases h
        have hprepared : s₂.evm.logs = s₁.evm.logs ∧ _ := (quiet_prepare _ _).ok hprep
        exact ⟨hprepared.1.trans hstarted.1, rfl⟩
    · cases h
      exact hstarted

/-- What the phases after the top frame make of its `Evm` has the same logs. -/
theorem apply_evm_logs (h : r.apply fuel ext = .ok result ext') :
    ∃ ret t, r.topEnd fuel ext = some (ret, (t : Machine T)) ∧ result.evm.logs = t.evm.logs := by
  by_cases hto : r.call.to_ = 0
  · obtain ⟨code, reduction, created, started, ret, ended, deployed, gas, metered, paid, finalised, settled, hstart,
      hphases, hevm, -, -, -, -, -⟩ := apply_created hto h
    have hmetered : metered.evm.logs = ended.evm.logs ∧ _ := (quiet_createdGas _ _ _).ok hphases.meters
    have hbooked : Booked metered settled := booking.trans ((works_booking.payCreated r gas).ok hphases.pays)
      (booking.trans ((books_finalise r created deployed).ok hphases.finalises)
        ((works_booking.chargeSender r gas).ok hphases.charges))
    refine ⟨ret, ended, topEnd_created hto hstart hphases.runs, ?_⟩
    rw [hevm, hbooked.evm, ← hmetered.1]
  · obtain ⟨code, reduction, created, prep, ret, started, m, ended, settled, bumped, hstart, hphases,
      hbump, -, hevm, -, -, -⟩ :=
      apply_called hto h
    obtain ⟨i, htop, -, hended, -⟩ := topEnd_called hto hstart hphases
    have hbooked : Booked ended bumped :=
      booking.trans ((books_settle _ _ _ _ _).ok hphases.settles) ((works_booking.rebumpReverted _).ok hbump)
    refine ⟨ret, i, htop, ?_⟩
    rw [hevm, hbooked.evm, ← hended]

/-- The logs of a transaction are those its top frame emitted itself, reverted or not: a log of
    a frame below it is in no result. -/
theorem apply_logs (h : r.apply fuel ext = .ok result ext') :
    ∃ sc s, r.topFrame ext = some (sc, s) ∧ result.evm.logs = (history fuel sc (s : Machine T)).emitted := by
  obtain ⟨ret, t, hend, hlogs⟩ := apply_evm_logs h
  obtain ⟨sc, s, ret', t', htop, hrun⟩ := apply_topFrame h
  rw [topEnd, htop] at hend
  simp only [hrun, Option.some.injEq, Prod.mk.injEq] at hend
  obtain ⟨rfl, rfl⟩ := hend
  have hstack := (prepares_marks.topFrame htop).2
  refine ⟨sc, s, htop, ?_⟩
  rw [hlogs, run_logs (by rw [hstack]; exact Nat.zero_le _) hrun, (topFrame_quiet htop).1, List.nil_append]

end Runner

end Logs

section Destroyed

theorem prepares_unmarked : Prepares fun e e' => e'.destroyedAccounts = e.destroyedAccounts where
  refl _ := rfl
  trans h h' := h'.trans h
  pull hp := by cases Ext.pulled hp <;> rfl
  mutate _ _ _ _ := Ext.destroyedAccounts_mutate _ _ _
  install _ _ _ := Ext.destroyedAccounts_mutate _ _ _
  openAccount _ _ := rfl
  sets _ _ _ _ := rfl

namespace Runner

variable {fuel : Nat} {r : Runner} {ext ext' : Ext} {result : CallResult T}

/-- After the top frame nothing is marked any more. -/
theorem apply_unmarked (h : r.apply fuel ext = .ok result ext') :
    ∃ ret t, r.topEnd fuel ext = some (ret, (t : Machine T)) ∧ ext'.destroyedAccounts = t.ext.destroyedAccounts :=
  apply_after prepares_unmarked (fun _ => prepares_unmarked.onExt fun _ =>
    wp_def.2 ⟨fun _ _ he => destroyed_revert he, fun _ _ _ => trivial⟩) h

/-- After a transaction and the reset for the next one exactly the accounts are dropped for which
    a SELFDESTRUCT went through somewhere in the tree, dropped frames included; the others are
    as they were. -/
theorem reset_drops (h : r.apply fuel ext = .ok result ext') (tx : TxContext) :
    ∃ sc s, r.topFrame ext = some (sc, s) ∧ ∀ a, (ext'.reset tx).state.lookup a =
      if a ∈ ext.destroyedAccounts ++ (history fuel sc (s : Machine T)).destroyed then none else ext'.state.lookup a := by
  obtain ⟨ret, t, hend, hmarks⟩ := apply_unmarked h
  obtain ⟨sc, s, ret', t', htop, hrun⟩ := apply_topFrame h
  rw [topEnd, htop] at hend
  simp only [hrun, Option.some.injEq, Prod.mk.injEq] at hend
  obtain ⟨rfl, rfl⟩ := hend
  obtain ⟨hbefore, hstack⟩ := prepares_unmarked.topFrame htop
  refine ⟨sc, s, htop, fun a => ?_⟩
  rw [Ext.lookup_reset, hmarks, run_destroyed (by rw [hstack]; exact Nat.zero_le _) hrun, hbefore]

end Runner

end Destroyed

end

namespace Sample

/-- 0xaa calls 0xbb, logs and reverts; 0xbb logs. -/
def logging : Ext where
  state := (machine [(0xca, 1000000, []),
    (0xaa, 0, [0x5f, 0x5f, 0x5f, 0x5f, 0x5f, 0x60, 0xbb, 0x61, 0xff, 0xff, 0xf1, 0x5f, 0x5f, 0xa0, 0x5f, 0x5f, 0xfd]),
    (0xbb, 0, [0x5f, 0x5f, 0xa0])]).ext.state
  txCtx := { gasPrice := 1 }

end Sample

open Sample

/-- The transaction is reverted and keeps its log; the log of 0xbb, whose frame was kept, is lost. -/
theorem Runner.apply_logs_reverted : ∃ (result : CallResult NoopTracer) (ext' : Ext) (sc : Scope) (s : Machine NoopTracer),
    (transaction []).apply 20 logging = .ok result ext' ∧ (transaction []).topFrame logging = some (sc, s) ∧
      result.evm.logs = (history 20 sc s).emitted ∧ result.evm.reverted = true ∧
      result.evm.logs = [⟨0xaa, [], []⟩] := by
  have hrun : returns ((transaction []).apply (T := NoopTracer) 20 logging) (fun result _ =>
      decide (result.evm.reverted = true ∧ result.evm.logs = [⟨0xaa, [], []⟩])) := by decide +kernel
  obtain ⟨result, ext', h, hp⟩ := of_returns hrun
  obtain ⟨hreverted, hlogs⟩ := of_decide_eq_true hp
  obtain ⟨sc, s, htop, hemitted⟩ := Runner.apply_logs h
  exact ⟨result, ext', sc, s, h, htop, hemitted, hreverted, hlogs⟩

/-- 0xaa is dropped; its beneficiary 0xbb stays, with 1 and the 7 it was given. -/
theorem Runner.reset_drops_giver : ∃ (result : CallResult NoopTracer) (ext' : Ext),
    (transaction []).apply 5 (pinned 7) = .ok result ext' ∧ (ext'.state.lookup 0xaa).isSome ∧
      (ext'.reset {}).state.lookup 0xaa = none ∧ ((ext'.reset {}).state.lookup 0xbb).map (·.value) = some 8 := by
  have hrun : returns ((transaction []).apply (T := NoopTracer) 5 (pinned 7)) (fun _ e =>
      (e.state.lookup 0xaa).isSome && (e.state.lookup 0xbb).map (·.value) == some 8) := by decide +kernel
  have hdestroyed : ((transaction []).topFrame (T := NoopTracer) (pinned 7)).all (fun f =>
      (history 5 f.1 f.2).destroyed == [0xaa]) := by decide +kernel
  obtain ⟨result, ext', h, hends⟩ := of_returns hrun
  obtain ⟨hgiver, hbeneficiary⟩ := Bool.and_eq_true_iff.1 hends
  obtain ⟨sc, s, htop, hdrops⟩ := Runner.reset_drops h {}
  rw [htop] at hdestroyed
  have hlist : (pinned 7).destroyedAccounts ++ (history 5 sc s).destroyed = [0xaa] := eq_of_beq hdestroyed
  refine ⟨result, ext', h, hgiver, ?_, ?_⟩
  · rw [hdrops, hlist]
    exact if_pos (List.mem_singleton_self _)
  · rw [hdrops, hlist, if_neg (by decide)]
    exact eq_of_beq hbeneficiary

end Solenoid
