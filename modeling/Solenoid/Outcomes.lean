/-
  Solenoid.Outcomes — how a call or a creation ends its turn of the loop.

  What its opening reports halts the frame with all its gas; what panics goes through; a
  frame that was opened and came back is closed and charged (`wp_executeStep_call`). The end
  of a creation is exact: only the credit of the value to the new account can overflow
  (`wp_createClose_exact`).
-/
import Solenoid.Metering
import Solenoid.Opening

namespace Solenoid

open Hoare

section

variable {T : Type} [Crypto] [EventTracer T] {exec : Exec T} {x : Step T}

/-! ## The turn -/

omit [Crypto] in
/-- What an instruction reports ends its frame, and takes its gas. -/
theorem wp_settleStep_none (sc : Scope) (instruction : Instruction) (s : Machine T) :
    wp (settleStep sc instruction none) HaltsDry (fun _ _ => False) s := by
  simp only [settleStep, halted, drainGas, wp_bind, wp_modify, wp_get, wp_emit, wp_pure]
  refine ⟨rfl, rfl, rfl, ?_⟩
  show s.evm.gas.used + s.evm.gas.remaining = s.evm.gas.limit
  unfold Gas.remaining
  omega

/-- The turn charges `cost` and goes on. -/
structure Pays (cost : Int) (s t : Machine T) : Prop where
  ext : t.ext = s.ext
  touches : t.evm.touches = s.evm.touches
  logs : t.evm.logs = s.evm.logs
  ret : t.exe.ret = s.exe.ret
  stack : t.evm.stack = s.evm.stack
  memory : t.evm.memory = s.evm.memory
  used : t.evm.gas.used = s.evm.gas.used + cost
  limit : t.evm.gas.limit = s.evm.gas.limit

/-- The turn of a call-type instruction that its frame may execute. -/
theorem wp_executeStep_call {Q : Option Bytes → Machine T → Prop} {E : Fault → Machine T → Prop} (hcall : x.op.isCall)
    (hg : guardStatic x.scope x.instruction x.before = .ok ⟨⟩ x.before)
    (hframe : wp (callFrame exec x.scope x.instruction)
      (fun cost t => cost ≤ t.evm.gas.remaining ∧ ∀ u, Pays cost t u → Q none u)
      (fun f t => (∀ r, f = .report r → ∀ o u, HaltsDry o u → Q o u) ∧ ((∀ r, f ≠ .report r) → E f t)) x.before) :
    wp (executeStep exec x.scope x.instruction) Q E x.before := by
  have hops : x.instruction.op ≠ .invalid ∧ x.instruction.op ≠ .selfdestruct := by
    constructor <;> intro h <;> simp [Step.op, h, Op.isCall] at hcall
  unfold executeStep
  rw [wp_bind, wp_attempt, executeInstruction_call hcall]
  refine wp_opCall_of (fun r hr => ?_) fun _ => ?_
  · rw [hg] at hr
    cases hr
  · refine wp_mono hframe (fun cost t ht => ?_) fun f t ht => ⟨⟨fun r hr => ?_, ht.2⟩, fun r hr => ?_⟩
    · obtain ⟨hcost, hQ⟩ := ht
      refine wp_mono (wp_settleStep_goes x.scope x.instruction hcost hops.1 hops.2) (fun o u hu => ?_) fun _ _ h => h.elim
      obtain ⟨rfl, hgoes, hsettled⟩ := hu
      obtain ⟨cost', hcost', -, hgas⟩ := hgoes.cost
      cases hcost'
      refine hQ u ⟨congrArg Trail.ext hsettled.trail, congrArg Trail.touches hsettled.trail,
        congrArg Trail.logs hsettled.trail, hsettled.ret, hsettled.stack, ?_,
        ?_, hsettled.limit⟩
      · rw [hgoes.evm]
      · rw [hgas]
    · exact wp_mono (wp_settleStep_none _ _ _) (fun o u hu => ht.1 r hr o u hu) fun _ _ h => h.elim
    · exact wp_mono (wp_settleStep_halt _ _ _ _) (fun o u hu => ht.1 r hr o u hu) fun _ _ h => h.elim

/-! ## The end of a creation -/

section

omit [Crypto]

variable {s : Machine T}

omit [EventTracer T] in
/-- A frame whose undo succeeds is dropped. -/
theorem wp_dropFrame_total {Q : Unit → Machine T → Prop} {E : Fault → Machine T → Prop} (out : Evm) {e : Ext}
    (hroom : s.evm.stack.length < stackLimit) (hrevert : out.revert s.ext = .ok ⟨⟩ e)
    (hQ : Q () { s with
      ext := e
      evm.stack := 0 :: s.evm.stack
      evm.touches := s.evm.touches ++ out.touches.filter (·.survivesRevert) }) : wp (dropFrame out) Q E s := by
  simp only [dropFrame, wp_bind, wp_push, wp_onExt, wp_modify]
  exact ⟨fun _ => (wp_of_ok hrevert).2 hQ, fun h => absurd h (not_le.2 hroom)⟩

/-- Only the credit can overflow. -/
theorem wp_moveValue_total {src dst : Address} {a b : Account} {v : Word} (depth : Nat)
    (ha : s.ext.state.lookup src = some a) (hb : s.ext.state.lookup dst = some b) (funds : v.toNat ≤ a.value.toNat) :
    wp (moveValue depth src dst a.value b.value v)
      (fun _ t => b.value.toNat + v.toNat < 2 ^ 256 ∧ t.evm.gas = s.evm.gas ∧ t.evm.stack = s.evm.stack ∧
        t.evm.memory = s.evm.memory ∧ t.ext = (s.ext.setValue src (a.value - v)).setValue dst (b.value + v))
      (fun f _ => ¬b.value.toNat + v.toNat < 2 ^ 256 ∧ ∃ why, f = .panic why) s := by
  have hsub : a.value.sub v = .ok (a.value - v) := if_pos funds
  simp only [moveValue, wp_bind, wp_lift, wp_onExt, Ext.wp_accountMut, wp_touch, wp_emit, hsub]
  refine ⟨?_, fun _ hf => by cases hf⟩
  rintro _ ⟨⟩
  refine ⟨fun _ => ⟨fun newDst hdst => ?_, fun f hf => ?_⟩, fun h => by simp [ha] at h⟩
  · obtain ⟨room, rfl⟩ := Word.add_ok hdst
    refine ⟨fun _ => ⟨room, trivial, trivial, trivial, rfl⟩, fun h => ?_⟩
    rw [Ext.lookup_mutate] at h
    split at h <;> simp_all
  · unfold Word.add at hf
    split at hf
    · cases hf
    · next hover =>
      cases hf
      exact ⟨hover, _, rfl⟩

end

/-- The value of a creation moves, and does not fit with what the new account has. -/
structure Overflows (sc : Scope) (created : Address) (v : Word) (e : Ext) : Prop where
  moves : sc.ctx.movesValue = true
  value : v ≠ 0
  funds : v.toNat ≤ (e.valueOf sc.this).toNat
  full : 2 ^ 256 ≤ (e.valueOf created).toNat + v.toNat

section

variable {s : Machine T} {sc : Scope} {created : Address} {v : Word}

theorem wp_deploy_total (code : Bytes) (ht : (s.ext.state.lookup sc.this).isSome)
    (hc : (s.ext.state.lookup created).isSome) :
    wp (deploy sc created v code)
      (fun _ t => ¬Overflows sc created v s.ext ∧ t.evm.gas = s.evm.gas ∧ t.evm.stack = s.evm.stack)
      (fun f _ => Overflows sc created v s.ext ∧ ∃ why, f = .panic why) s := by
  obtain ⟨b, hb⟩ := Option.isSome_iff_exists.1 hc
  obtain ⟨e, he⟩ : ∃ e, e = s.ext.mutate created fun a =>
    { a with code := (code, Crypto.keccak256 code), nonce := 1 } := ⟨_, rfl⟩
  have hvalue : ∀ a, e.valueOf a = s.ext.valueOf a := fun a => by
    unfold Ext.valueOf
    rw [he, Ext.orDefault_mutate _ hc]
    split <;> simp_all
  have hloaded : ∀ a, (e.state.lookup a).isSome = (s.ext.state.lookup a).isSome := fun a => by
    rw [he, Ext.isSome_lookup_mutate]
  obtain ⟨src, hsrc⟩ := Option.isSome_iff_exists.1 ((hloaded sc.this).trans ht)
  obtain ⟨dst, hdst⟩ := Option.isSome_iff_exists.1 ((hloaded created).trans hc)
  have hsrcValue : (s.ext.valueOf sc.this) = src.value := by rw [← hvalue, Ext.valueOf_of_lookup hsrc]
  have hdstValue : (s.ext.valueOf created) = dst.value := by rw [← hvalue, Ext.valueOf_of_lookup hdst]
  unfold deploy
  rw [wp_bind, Ext.code, wp_loaded _ hb, wp_bind, wp_onExt, Ext.wp_accountMut]
  refine ⟨fun _ => ?_, fun h => by simp [hb] at h⟩
  rw [← he, wp_bind]
  unfold createTransfer
  rw [wp_bind, Ext.balance, wp_loaded _ hsrc, wp_bind, Ext.balance, wp_loaded _ hdst, wp_ite]
  refine ⟨fun h => ?_, fun h => ?_⟩
  · refine wp_mono (wp_moveValue_total _ hsrc hdst h.2.2) (fun _ t ht => ?_) fun f _ hf => ?_
    · simp only [wp_bind, wp_touch, wp_emit]
      refine ⟨fun hover => ?_, ht.2.1, ht.2.2.1⟩
      have hfull := hover.full
      rw [hdstValue] at hfull
      omega
    · refine ⟨⟨h.2.1, h.1, by rw [hsrcValue]; exact h.2.2, ?_⟩, hf.2⟩
      rw [hdstValue]
      omega
  · simp only [wp_pure, wp_bind, wp_touch, wp_emit]
    refine ⟨fun hover => h ⟨hover.value, hover.moves, ?_⟩, trivial, trivial⟩
    have hfunds := hover.funds
    rwa [hsrcValue] at hfunds

/-- What the caller pays for a creation's frame: what it used and the deposit, or all it was given. -/
def creationSpent (forwarded : Int) (out : Output T) : Int :=
  let used := out.evm.gas.used + if out.evm.reverted then 0 else 200 * (out.ret.length : Int)
  if forwarded < used then forwarded else used

omit [Crypto] [EventTracer T] in
theorem creationSpent_le (forwarded : Int) (out : Output T) : creationSpent forwarded out ≤ forwarded := by
  unfold creationSpent
  dsimp only
  split <;> omega

/-- The end of a creation goes through, unless the credit overflows. -/
theorem wp_createClose_total {baseCost forwarded : Int} (instruction : Instruction) (out : Output T)
    (hroom : s.evm.stack.length < stackLimit) (ht : (s.ext.state.lookup sc.this).isSome)
    (hc : (s.ext.state.lookup created).isSome) {e : Ext} (hrevert : out.evm.revert s.ext = .ok ⟨⟩ e) :
    wp (createClose sc instruction baseCost forwarded created v out)
      (fun _ t => ((Pending.create baseCost forwarded created v).keeps out → ¬Overflows sc created v s.ext) ∧
        t.evm.gas.used = s.evm.gas.used + (baseCost + creationSpent forwarded out) ∧
        t.evm.gas.limit = s.evm.gas.limit)
      (fun f _ => (Pending.create baseCost forwarded created v).keeps out ∧ Overflows sc created v s.ext ∧
        ∃ why, f = .panic why) s := by
  simp only [createClose, emitCall, joinTracer, spend, wp_bind, wp_get, wp_emit, wp_modify, wp_ite]
  refine ⟨fun hgas => ?_, fun hgas => ⟨fun hrev => ?_, fun hrev => ?_⟩⟩
  · refine wp_dropFrame_total _ hroom hrevert ⟨fun hkeeps => ?_, ?_, rfl⟩
    · unfold Pending.keeps at hkeeps
      cases hrev : out.evm.reverted <;> simp_all
      omega
    · rw [show creationSpent forwarded out = forwarded from if_pos hgas]
  · have hspent : creationSpent forwarded out = out.evm.gas.used := by
      unfold creationSpent
      rw [if_neg hgas, if_pos hrev]
      omega
    refine wp_dropFrame_total _ hroom hrevert ⟨fun hkeeps => ?_, ?_, rfl⟩
    · simp [Pending.keeps, hrev] at hkeeps
    · simp only [hspent, hrev, if_true]
      omega
  · have hspent : creationSpent forwarded out = out.evm.gas.used + 200 * (out.ret.length : Int) := by
      unfold creationSpent
      rw [if_neg hgas, if_neg hrev]
    have hkeeps : (Pending.create baseCost forwarded created v).keeps out = true := by
      simp only [hrev, Bool.false_eq_true, if_false] at hgas
      simp [Pending.keeps, hrev, not_lt.1 hgas]
    refine wp_mono (wp_deploy_total _ ht hc) (fun _ t hd => ?_) fun f _ hf => ⟨hkeeps, hf.1, hf.2⟩
    obtain ⟨hfits, hused, hst⟩ := hd
    simp only [mergeKept, wp_bind, wp_modify, wp_push]
    refine ⟨fun _ => ⟨fun _ => hfits, ?_, ?_⟩, fun h => absurd h ?_⟩
    · simp only [hused, hspent, hrev, Bool.false_eq_true, if_false]
      omega
    · simp only [hused]
    · simpa [hst] using hroom

end

/-! ## A frame that comes back -/

/-- What is known of a frame that was opened in a sound state and came back. -/
structure Returned (x : Step T) (inner : Inner T) (pending : Pending) (opened m : Machine T) : Prop where
  opens : Opens x inner pending opened
  covered : Covered x.before opened
  forwards : Forwards x.before.evm.gas.remaining pending.base pending.stipend inner.evm.gas.limit
  used : 0 ≤ m.evm.gas.used
  within : m.evm.gas.used ≤ inner.evm.gas.limit
  keeps : opened.ext.Extends m.ext
  undone : ∃ e, m.evm.revert m.ext = .ok ⟨⟩ e

variable {fuel : Nat} {inner : Inner T} {pending : Pending} {opened m : Machine T} {ret : Bytes}

theorem returned (hs : Sound x.before) (ho : openedFrame x.scope x.instruction x.before = some (inner, pending, opened))
    (hrun : executeWithContext fuel inner.scope (inner.machine opened.ext) = .ok ret m) :
    Returned x inner pending opened m := by
  have hopens := opens_of_openedFrame ho
  obtain ⟨hforwards, hcovered, -⟩ := opened_forwards hs.paid ho
  have hinner : Started (inner.machine opened.ext) :=
    hopens.fresh.started (hforwards.free.trans hforwards.least) opened.ext
  obtain ⟨hused, hleft, hlimit⟩ := run_metered fuel _ _ _ _ hinner.sound hrun
  have hlimit : m.evm.gas.limit = inner.evm.gas.limit := hlimit
  have hleft : 0 ≤ m.evm.gas.limit - m.evm.gas.used := hleft
  obtain ⟨w, henters, hruns⟩ := hopens.follows hrun
  have hgrounded : m.trail.Grounded := hruns.grounded (henters.grounded fun _ h => (List.not_mem_nil h).elim)
  exact ⟨hopens, hcovered, hforwards, hused, by omega, henters.extends.trans hruns.extends, hgrounded.revert_ok⟩

/-- The turn of an instruction whose frame came back, from the end of the frame. -/
theorem wp_executeStep_returned {Q : Option Bytes → Machine T → Prop} {E : Fault → Machine T → Prop}
    (ho : openedFrame x.scope x.instruction x.before = some (inner, pending, opened))
    (hrun : exec inner.scope (inner.machine opened.ext) = .ok ret m)
    (hclose : wp (closeFrame x.scope x.instruction pending ⟨m.exe.tracer, ret, m.evm⟩)
      (fun cost t => cost ≤ t.evm.gas.remaining ∧ ∀ u, Pays cost t u → Q none u)
      (fun f t => (∀ r, f ≠ .report r) ∧ E f t) { opened with ext := m.ext }) :
    wp (executeStep exec x.scope x.instruction) Q E x.before := by
  obtain ⟨hcall, hg, hopen⟩ := openedFrame_some ho
  refine wp_executeStep_call hcall hg ?_
  unfold callFrame
  rw [wp_bind, wp_of_ok hopen, wp_bind, wp_runInner, wp_of_ok hrun]
  exact wp_mono hclose (fun _ _ h => h) fun f t h => ⟨fun r hr => absurd hr (h.1 r), fun _ => h.2⟩

/-! ## The turn of a creation -/

/-- How a creation whose frame came back ends. -/
structure CreationEnds (x : Step T) (inner : Inner T) (pending : Pending) (opened : Machine T) (r : Ended T)
    (t : Machine T) :
    Prop where
  used : t.evm.gas.used = x.before.evm.gas.used + (pending.base + creationSpent inner.evm.gas.limit r.output)
  stack : t.evm.stack = pending.result r.output :: opened.evm.stack
  closes : Closes x inner pending r.output { opened.trail with ext := r.machine.ext } t.trail

/-- The value the new account is credited with overflows its balance. -/
def Step.Overflows (x : Step T) (inner : Inner T) (pending : Pending) (r : Ended T) : Prop :=
  pending.keeps r.output ∧ Solenoid.Overflows (x.scope.inContext x.op) inner.scope.ctx.created x.value r.machine.ext

/-- A creation whose frame comes back goes on, unless the credit overflows. -/
theorem wp_creation_returned (hs : Sound x.before) (hop : x.isCreation)
    (ho : openedFrame x.scope x.instruction x.before = some (inner, pending, opened))
    (hrun : executeWithContext fuel inner.scope (inner.machine opened.ext) = .ok ret m) :
    wp (executeStep (executeWithContext fuel) x.scope x.instruction)
      (fun o t => o = none ∧ CreationEnds x inner pending opened ⟨ret, m⟩ t ∧ ¬x.Overflows inner pending ⟨ret, m⟩)
      (fun f _ => x.Overflows inner pending ⟨ret, m⟩ ∧ ∃ why, f = .panic why) x.before := by
  have h := returned hs ho hrun
  have hcloses : wp (closeFrame x.scope x.instruction pending (Ended.output ⟨ret, m⟩))
      (fun _ => Closed x inner pending (Ended.output ⟨ret, m⟩) { opened with ext := m.ext }) (fun f _ => ∀ r, f ≠ .report r)
      { opened with ext := m.ext } := wp_closeFrame h.opens hs.stack rfl h.keeps
  obtain ⟨e, hrevert⟩ := h.undone
  obtain ⟨hcreates, hpending⟩ : CreatesFrame x inner pending opened ∧
      ∃ base, pending = .create base inner.evm.gas.limit inner.scope.ctx.created x.value := by
    cases h.opens with
    | message hmessage _ => rcases hop with h | h <;> simp [h, Op.isMessageCall] at hmessage
    | creation _ _ hc => exact ⟨hc, hc.pending⟩
  have hlen := hcreates.stack
  have hstack := hs.stack
  have hforwards := h.forwards
  obtain ⟨base, rfl⟩ := hpending
  have htotal : wp (closeFrame x.scope x.instruction (.create base inner.evm.gas.limit inner.scope.ctx.created x.value)
      ⟨m.exe.tracer, ret, m.evm⟩)
      (fun cost t => cost = 0 ∧ ¬x.Overflows inner (.create base inner.evm.gas.limit inner.scope.ctx.created x.value)
        ⟨ret, m⟩ ∧
        t.evm.gas.used = opened.evm.gas.used + (base + creationSpent inner.evm.gas.limit ⟨m.exe.tracer, ret, m.evm⟩) ∧
        t.evm.gas.limit = opened.evm.gas.limit)
      (fun f _ => x.Overflows inner (.create base inner.evm.gas.limit inner.scope.ctx.created x.value) ⟨ret, m⟩ ∧
        ∃ why, f = .panic why) { opened with ext := m.ext } := by
    unfold closeFrame
    rw [wp_bind]
    refine wp_mono (wp_createClose_total (s := { opened with ext := m.ext }) x.instruction ⟨m.exe.tracer, ret, m.evm⟩
      (by simp only; omega) ?_ ?_ hrevert) (fun _ t ht => (wp_pure _).2 ⟨rfl, fun hover => ?_, ht.2⟩) fun f _ hf =>
        ⟨⟨hf.1, hf.2.1⟩, hf.2.2⟩
    · rw [this_inContext]
      exact h.keeps.loaded _ hcreates.loaded.1
    · exact h.keeps.loaded _ hcreates.loaded.2
    · exact ht.1 hover.1 hover.2
  refine wp_executeStep_returned ho hrun (wp_mono (wp_and hcloses htotal) (fun cost t ht => ?_) fun f _ hf => ⟨hf.1, hf.2⟩)
  obtain ⟨hclosed, rfl, hfits, hused, hlimit⟩ := ht
  have hopened : opened.evm.gas.used = x.before.evm.gas.used := congrArg Core.used h.covered.core
  have hremaining := remaining_of_core h.covered.core
  have hspent := creationSpent_le inner.evm.gas.limit ⟨m.exe.tracer, ret, m.evm⟩
  have hmost : inner.evm.gas.limit ≤ x.before.evm.gas.remaining - base + 0 := hforwards.most
  refine ⟨?_, fun u hu => ⟨rfl, ⟨?_, ?_, ?_⟩, hfits⟩⟩
  · unfold Gas.remaining at hremaining hmost ⊢
    omega
  · rw [hu.used, hused, hopened]
    simp only [Pending.base, Ended.output]
    omega
  · rw [hu.stack, hclosed.stack]
  · have htrail : u.trail = t.trail := by
      unfold Machine.trail
      rw [hu.ext, hu.touches, hu.logs]
    rw [htrail]
    exact hclosed.closes

/-- A creation with the operands of its opcode, in a frame that may create. -/
structure Step.Creating (x : Step T) : Prop where
  sound : Sound x.before
  op : x.isCreation
  operands : x.has (if x.op = .create2 then 4 else 3)
  nonstatic : x.scope.ctx.callType ≠ .static

namespace Step.Creating

variable (h : x.Creating)

include h

omit [Crypto] [EventTracer T] in
theorem isCall : x.op.isCall = true := by
  rcases h.op with h | h <;> rw [h] <;> rfl

omit [Crypto] [EventTracer T] in
theorem three : x.has 3 := by
  have hhas := h.operands
  unfold Step.has at hhas ⊢
  split at hhas <;> omega

omit [Crypto] [EventTracer T] in
theorem guarded : guardStatic x.scope x.instruction x.before = .ok ⟨⟩ x.before := by
  unfold guardStatic
  rw [if_pos h.nonstatic]
  rfl

theorem wp_openFrame : wp (openFrame x.scope x.instruction)
    (fun o t => x.Ready ∧ ∃ inner pending, o = .frame inner pending ∧ CreatesAt x inner pending t)
    (fun f _ => (x.Refused ∧ ∃ r, f = .report r) ∨ (¬x.Ready ∧ ¬x.Refused ∧ ∃ why, f = .panic why)) x.before := by
  rw [openFrame_creation h.op]
  exact wp_createOpen_exact h.op h.three h.sound.paid

/-- A creation that is ready opens its frame. -/
theorem opens (hready : x.Ready) : ∃ inner pending opened,
    openedFrame x.scope x.instruction x.before = some (inner, pending, opened) ∧ CreatesAt x inner pending opened := by
  have hopen := wp_def.1 h.wp_openFrame
  cases ho : openFrame x.scope x.instruction x.before with
  | ok o t =>
    obtain ⟨-, inner, pending, rfl, hat⟩ := hopen.1 _ _ ho
    exact ⟨inner, pending, t, openedFrame_ok h.isCall h.guarded ho, hat⟩
  | error f t =>
    rcases hopen.2 _ _ ho with ⟨hrefused, -⟩ | ⟨hnot, -⟩
    · exact absurd hready hrefused.not_ready
    · exact absurd hready hnot

theorem of_opened (ho : openedFrame x.scope x.instruction x.before = some (inner, pending, opened)) :
    x.Ready ∧ CreatesAt x inner pending opened := by
  obtain ⟨-, -, hopen⟩ := openedFrame_some ho
  obtain ⟨hready, inner', pending', heq, hat⟩ := (wp_of_ok hopen).1 h.wp_openFrame
  cases heq
  exact ⟨hready, hat⟩

/-- One that is refused halts its frame. -/
theorem halts (hrefused : x.Refused) :
    wp (executeStep exec x.scope x.instruction) HaltsDry (fun _ _ => False) x.before := by
  have hopen := wp_def.1 h.wp_openFrame
  refine wp_executeStep_call h.isCall h.guarded ?_
  unfold callFrame
  rw [wp_bind]
  refine wp_def.2 ⟨fun o t ho => absurd (hopen.1 _ _ ho).1 hrefused.not_ready, fun f t ho => ?_⟩
  rcases hopen.2 _ _ ho with ⟨-, r, rfl⟩ | ⟨-, hnot, -⟩
  · exact ⟨fun _ _ _ _ hu => hu, fun hr => absurd rfl (hr r)⟩
  · exact absurd hrefused hnot

/-- One that is neither panics. -/
theorem panics (hready : ¬x.Ready) (hrefused : ¬x.Refused) :
    wp (executeStep exec x.scope x.instruction) (fun _ _ => False) (fun f _ => ∃ why, f = .panic why) x.before := by
  have hopen := wp_def.1 h.wp_openFrame
  refine wp_executeStep_call h.isCall h.guarded ?_
  unfold callFrame
  rw [wp_bind]
  refine wp_def.2 ⟨fun o t ho => absurd (hopen.1 _ _ ho).1 hready, fun f t ho => ?_⟩
  rcases hopen.2 _ _ ho with ⟨hrefused', -⟩ | ⟨-, -, hpanic⟩
  · exact absurd hrefused' hrefused
  · obtain ⟨why, rfl⟩ := hpanic
    exact ⟨fun r hr => (nomatch hr), fun _ => ⟨why, rfl⟩⟩

end Step.Creating

end

end Solenoid
