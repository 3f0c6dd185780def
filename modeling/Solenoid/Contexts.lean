/-
  Solenoid.Contexts — who a frame's code sees: ADDRESS, CALLER, ORIGIN and CALLVALUE.

  The four are not stored: they are put together from the call, the context and the call
  type (`Scope.environment`). `Step.enters` is what they are to be in a frame by the
  instruction that opens it, and `enters_iff` when they are. CALLCODE keeps its frame's
  caller and moves its value, a call to account zero runs as the account last created, and
  a creation transaction has no origin: `execution_context` says that there is nothing else.
-/
import Solenoid.Termination
import Solenoid.Value
import Solenoid.Transaction

namespace Solenoid

open Hoare

/-! ## The environment of a frame -/

structure Environment where
  address : Address
  caller : Address
  origin : Address
  callvalue : Word
  deriving DecidableEq

/-- What ADDRESS, CALLER, ORIGIN and CALLVALUE push. -/
def Scope.environment (sc : Scope) : Environment where
  address := sc.this
  caller := sc.call.from_
  origin := sc.ctx.origin
  callvalue := if sc.ctx.callType = .static then 0 else sc.call.value

/-- What they are to push in the frame that an instruction opens: `sender` sent the
    transaction, `created` is the account of a creation. -/
def Step.enters {T : Type} (x : Step T) (sender created : Address) : Environment :=
  let env := x.scope.environment
  match x.op with
  | .call => ⟨x.target, env.address, sender, x.operand 2⟩
  | .staticcall => ⟨x.target, env.address, sender, 0⟩
  | .delegatecall => ⟨env.address, env.caller, sender, env.callvalue⟩
  | .callcode => ⟨env.address, env.address, sender, x.operand 2⟩
  | _ => ⟨created, env.address, sender, x.operand 0⟩

section

variable {T : Type} [Crypto] [EventTracer T]

/-- What an opcode shows its code of the environment. -/
def Environment.shows (env : Environment) : Op → Option Word
  | .address => some env.address.toWord
  | .caller => some env.caller.toWord
  | .origin => some env.origin.toWord
  | .callvalue => some env.callvalue
  | _ => none

/-- The instruction pushes it. -/
theorem pushes_environment (exec : Exec T) {sc : Scope} {instruction : Instruction} {s : Machine T} {w : Word}
    (hshows : sc.environment.shows instruction.op = some w) (hgas : 2 ≤ s.evm.gas.remaining)
    (hroom : s.evm.stack.length < stackLimit) :
    ∃ t, executeInstruction exec sc instruction s = .ok (.ok 2) t ∧ t.evm.stack = w :: s.evm.stack := by
  have hpush : ∀ v : Word, wp (pushing 2 fun _ => .ok v : M T StepResult)
      (fun r t => r = .ok 2 ∧ t.evm.stack = v :: s.evm.stack) (fun _ _ => False) s := by
    intro v
    simp [pushing, not_lt.2 hgas, not_le.2 hroom]
  have hrun : executeInstruction exec sc instruction = pushing 2 fun _ => .ok w := by
    revert hshows
    unfold executeInstruction
    cases instruction.op <;> intro hshows <;> cases hshows <;> rfl
  rw [hrun]
  obtain ⟨r, t, ht, rfl, hstack⟩ := exists_ok (hpush w)
  exact ⟨t, ht, hstack⟩

/-! ## The scope of an inner frame -/

/-- DELEGATECALL and CALLCODE. -/
def Op.inPlace (op : Op) : Bool := op == .delegatecall || op == .callcode

omit [Crypto] [EventTracer T] in
theorem inPlace_callContext (ctx : Context) {op : Op} (h : op.isMessageCall) :
    ((callContext ctx op).callType = .delegate ∨ (callContext ctx op).callType = .callcode) ↔ op.inPlace := by
  cases op <;> first | (simp [callContext, Op.inPlace]; done) | cases h

/-- The scope a message call gives its frame. -/
structure Messages (x : Step T) (inner : Inner T) : Prop where
  code : ∃ b, inner.scope.code = decode b
  from_ : inner.scope.call.from_ = if x.op.inPlace then x.scope.call.from_ else x.this
  to_ : inner.scope.call.to_ = if x.op.inPlace then x.this else x.target
  moving : x.op = .call ∨ x.op = .callcode → inner.scope.call.value = x.operand 2
  static : x.op = .staticcall → inner.scope.call.value = 0
  delegate : x.op = .delegatecall → inner.scope.call.value = x.scope.call.value

theorem callOpen_messages {x : Step T} (hop : x.op.isMessageCall) {inner : Inner T} {pending : Pending} {t : Machine T}
    (h : callOpen (x.scope.inContext x.op) x.instruction x.before = .ok (.frame inner pending) t) : Messages x inner := by
  obtain ⟨a, s₁, hargs, h⟩ := bind_ok (show (callArgs (x.scope.inContext x.op) >>= _) x.before = _ from h)
  obtain ⟨memory, s₂, -, h⟩ := bind_ok h
  obtain ⟨create, s₃, -, h⟩ := bind_ok h
  obtain ⟨target, s₄, -, h⟩ := bind_ok h
  obtain ⟨left, s₅, -, h⟩ := bind_ok h
  dsimp only at h
  split at h
  · exact ((wp_of_ok h).1 (wp_callOutOfGas (P := Effect.never) _ _)).elim
  · have hargs := callArgs_ok _ hargs
    have hentered : Entered (x.scope.inContext x.op) a target _ s₅ inner pending t :=
      (wp_of_ok h).1 (wp_callEnter _ _ a target _)
    obtain ⟨data, hscope⟩ := hentered.scope
    have haddress : a.address = x.target := hargs.address
    have hthis : (x.scope.inContext x.op).this = x.this := this_inContext _ _
    have hmoves := movesValue_callContext x.scope.ctx hop
    obtain ⟨gas, hcall⟩ : ∃ gas, inner.scope.call = innerCall (x.scope.inContext x.op) a data gas :=
      ⟨_, by rw [hscope]⟩
    refine ⟨⟨target.code, by rw [hscope]⟩, ?_, ?_, fun hm => ?_, fun hst => ?_, fun hd => ?_⟩
    · rw [hcall, innerCall, hthis]
      exact if_congr (inPlace_callContext _ hop) rfl rfl
    · rw [hcall, innerCall, hthis, haddress]
      exact if_congr (inPlace_callContext _ hop) rfl rfl
    · rw [hcall]
      exact (hargs.moving (hmoves.trans (by simpa using hm))).1
    · rw [hcall]
      refine (hargs.still (hmoves.trans (by simp [hst]))).trans ?_
      simp [Scope.inContext, callContext, hst]
    · rw [hcall]
      refine (hargs.still (hmoves.trans (by simp [hd]))).trans ?_
      simp [Scope.inContext, callContext, hd]

/-- The scope a creation gives its frame. -/
structure Constructs (x : Step T) (inner : Inner T) : Prop where
  code : ∃ b, inner.scope.code = decode b
  from_ : inner.scope.call.from_ = x.this

omit [Crypto] in
theorem createEnter_scope {sc : Scope} {code : Bytes} {base : Int} {created : Address} {value : Word} {inner : Inner T}
    {pending : Pending} {s t : Machine T} (h : createEnter sc code base created value s = .ok (.frame inner pending) t) :
    inner.scope.code = decode code ∧ inner.scope.call.from_ = sc.this := by
  have hscope : wp (createEnter sc code base created value) (fun o _ => ∀ inner pending, o = Opened.frame inner pending →
      inner.scope.code = decode code ∧ inner.scope.call.from_ = sc.this) (fun _ _ => True) s := by
    simp only [createEnter, wp_bind, wp_remaining, wp_ite, wp_throw, implies_true, true_and]
    intro _
    refine wp_mono (wp_newFrame _ _) (fun inner t ht => (wp_pure _).2 fun inner' pending hinner => ?_) fun _ _ _ => trivial
    cases hinner
    rw [ht.2.1]
    exact ⟨rfl, rfl⟩
  exact (of_ok hscope h :) _ _ rfl

theorem createOpen_constructs {x : Step T} {inner : Inner T} {pending : Pending} {t : Machine T}
    (h : createOpen (x.scope.inContext x.op) x.before = .ok (.frame inner pending) t) : Constructs x inner := by
  obtain ⟨value, s₁, -, h⟩ := bind_ok (show (pop >>= _) x.before = _ from h)
  obtain ⟨offset, s₂, -, h⟩ := bind_ok h
  obtain ⟨size, s₃, -, h⟩ := bind_ok h
  obtain ⟨salt, s₄, -, h⟩ := bind_ok h
  obtain ⟨code, s₅, -, h⟩ := bind_ok h
  obtain ⟨nonce, s₆, -, h⟩ := bind_ok h
  obtain ⟨_, s₇, -, h⟩ := bind_ok h
  obtain ⟨hcode, hfrom⟩ := createEnter_scope h
  exact ⟨⟨_, hcode⟩, hfrom.trans (this_inContext _ _)⟩

theorem openedFrame_code {x : Step T} {inner : Inner T} {pending : Pending} {opened : Machine T}
    (h : openedFrame x.scope x.instruction x.before = some (inner, pending, opened)) :
    (x.op.isMessageCall → Messages x inner) ∧ (x.isCreation → Constructs x inner) := by
  obtain ⟨-, -, ho⟩ := openedFrame_some h
  refine ⟨fun hop => ?_, fun hop => ?_⟩
  · rw [openFrame_message hop] at ho
    exact callOpen_messages hop ho
  · rw [openFrame_creation hop] at ho
    exact createOpen_constructs ho

/-- Every frame runs code that was decoded. -/
theorem openedFrame_decode {sc : Scope} {instruction : Instruction} {s opened : Machine T} {inner : Inner T}
    {pending : Pending} (h : openedFrame sc instruction s = some (inner, pending, opened)) :
    ∃ b, inner.scope.code = decode b := by
  obtain ⟨hmessage, hcreation⟩ := openedFrame_code (x := ⟨sc, instruction, s⟩) h
  rcases Op.isCall_cases (openedFrame_some (x := ⟨sc, instruction, s⟩) h).1 with hop | hop
  · exact (hmessage hop).code
  · exact (hcreation hop).code

/-! ## The environment of an inner frame -/

/-- The instructions that give their frame the environment it is to have: a call of an account
    other than zero (or before any creation), a CALLCODE whose caller called itself, and moves
    no value. -/
structure Step.Regular (x : Step T) : Prop where
  named : x.op = .call ∨ x.op = .staticcall → x.target ≠ 0 ∨ x.scope.ctx.created = 0
  own : x.op = .callcode → x.scope.call.from_ = x.this
  unpaid : x.op = .callcode → ¬x.pays

/-- What the environment of a frame is to be, and its balances. -/
def Step.Rules (x : Step T) (sender : Address) (inner : Inner T) (pending : Pending) (opened : Machine T) : Prop :=
  inner.scope.environment = x.enters sender (pending.created?.getD 0) ∧
    (x.op = .callcode → ∀ a, opened.ext.balanceOf a = x.before.ext.balanceOf a)

omit [Crypto] [EventTracer T] in
theorem this_of_to {sc : Scope} (h : sc.call.to_ ≠ 0) : sc.this = sc.call.to_ := if_neg h

omit [Crypto] [EventTracer T] in
theorem this_of_zero {sc : Scope} (h : sc.call.to_ = 0) : sc.this = sc.ctx.created := if_pos h

/-- The scope of a message call's frame, in the terms of the environment. -/
structure Seen (x : Step T) (inner : Inner T) (sender : Address) : Prop where
  address : x.op.inPlace = true → inner.scope.this = x.this
  named : x.op.inPlace = false → (inner.scope.this = x.target ↔ x.target ≠ 0 ∨ x.scope.ctx.created = 0)
  origin : inner.scope.ctx.origin = sender
  callType : inner.scope.ctx.callType = (callContext x.scope.ctx x.op).callType

omit [EventTracer T] in
theorem CallsFrame.seen {x : Step T} {inner : Inner T} {pending : Pending} {opened : Machine T} {sender : Address}
    (h : CallsFrame x inner pending opened) (hm : Messages x inner) (horigin : x.scope.ctx.origin = sender) :
    Seen x inner sender := by
  have hctx := h.ctx
  have hto := hm.to_
  have hcreated : inner.scope.ctx.created = x.scope.ctx.created := by
    rw [hctx]
    cases x.op <;> rfl
  refine ⟨fun hin => ?_, fun hin => ?_, ?_, by rw [hctx]⟩
  · rw [if_pos hin] at hto
    by_cases hz : x.this = 0
    · have hzero : x.scope.this = 0 := hz
      rw [this_of_zero (hto.trans hz), hcreated, hz]
      unfold Scope.this at hzero
      split at hzero
      · exact hzero
      · next hne => exact absurd hzero hne
    · rw [this_of_to (by rwa [hto]), hto]
  · rw [hin, if_neg (by decide)] at hto
    by_cases hz : x.target = 0
    · rw [this_of_zero (hto.trans hz), hcreated, hz]
      simp
    · rw [this_of_to (by rwa [hto]), hto]
      exact iff_of_true rfl (.inl hz)
  · rw [hctx, ← horigin]
    cases x.op <;> rfl

omit [EventTracer T] in
/-- The frame of a message call has its environment by the rules exactly if its instruction
    is regular. -/
theorem CallsFrame.rules_iff {x : Step T} {inner : Inner T} {pending : Pending} {opened : Machine T} {sender : Address}
    (hop : x.op.isMessageCall) (h : CallsFrame x inner pending opened) (hm : Messages x inner)
    (hstatic : x.scope.ctx.callType = .static → x.scope.call.value = 0) (horigin : x.scope.ctx.origin = sender) :
    x.Rules sender inner pending opened ↔ x.Regular := by
  have hbalances := h.balances_iff
  obtain ⟨haddress, hnamed, horigin', htype⟩ := h.seen hm horigin
  have hfrom := hm.from_
  have henv : inner.scope.environment = ⟨inner.scope.this, inner.scope.call.from_, sender,
      if inner.scope.ctx.callType = .static then 0 else inner.scope.call.value⟩ := by
    unfold Scope.environment
    rw [horigin']
  unfold Step.Rules
  rw [henv, htype, hfrom]
  cases hx : x.op with
  | call =>
    have hvalue := hm.moving (.inl hx)
    have hnamed := hnamed (by rw [hx]; rfl)
    have hregular : x.Regular ↔ x.target ≠ 0 ∨ x.scope.ctx.created = 0 :=
      ⟨fun hr => hr.named (.inl hx), fun hr => ⟨fun _ => hr, by simp [hx], by simp [hx]⟩⟩
    rw [hregular, ← hnamed]
    simp [Step.enters, Scope.environment, hx, hvalue, Op.inPlace, callContext, Step.this]
  | staticcall =>
    have hnamed := hnamed (by rw [hx]; rfl)
    have hregular : x.Regular ↔ x.target ≠ 0 ∨ x.scope.ctx.created = 0 :=
      ⟨fun hr => hr.named (.inr hx), fun hr => ⟨fun _ => hr, by simp [hx], by simp [hx]⟩⟩
    rw [hregular, ← hnamed]
    simp [Step.enters, Scope.environment, hx, Op.inPlace, callContext, Step.this]
  | delegatecall =>
    have hvalue := hm.delegate hx
    have hregular : x.Regular := ⟨by simp [hx], by simp [hx], by simp [hx]⟩
    have hpassed : x.scope.call.value = if x.scope.ctx.callType = .static then 0 else x.scope.call.value := by
      split
      · next hs => exact hstatic hs
      · rfl
    refine iff_of_true ⟨?_, by simp⟩ hregular
    simp only [Step.enters, Scope.environment, hx, haddress (by rw [hx]; rfl), hvalue, callContext, Step.this]
    rw [← hpassed]
    simp [Op.inPlace]
  | callcode =>
    have hvalue := hm.moving (.inr hx)
    have hregular : x.Regular ↔ x.scope.call.from_ = x.this ∧ ¬x.pays :=
      ⟨fun hr => ⟨hr.own hx, hr.unpaid hx⟩, fun hr => ⟨by simp [hx], fun _ => hr.1, fun _ => hr.2⟩⟩
    rw [hregular, ← hbalances]
    simp [Step.enters, Scope.environment, hx, haddress (by rw [hx]; rfl), hvalue, Op.inPlace, callContext, Step.this]
  | _ => simp [hx, Op.isMessageCall] at hop

omit [EventTracer T] in
/-- A creation's frame always has. -/
theorem CreatesFrame.rules {x : Step T} {inner : Inner T} {pending : Pending} {opened : Machine T} {sender : Address}
    (hop : x.isCreation) (hguard : x.scope.ctx.callType ≠ .static) (h : CreatesFrame x inner pending opened)
    (hc : Constructs x inner) (horigin : x.scope.ctx.origin = sender) :
    x.Rules sender inner pending opened ∧ x.Regular := by
  have hctx := h.ctx
  obtain ⟨baseCost, hpending⟩ := h.pending
  have hthis : inner.scope.this = inner.scope.ctx.created := this_of_zero h.this
  have horigin' : inner.scope.ctx.origin = sender := by
    rw [hctx, ← horigin]
    rcases hop with hx | hx <;> rw [hx] <;> rfl
  have htype : inner.scope.ctx.callType ≠ .static := by
    rw [hctx]
    rcases hop with hx | hx <;> rw [hx]
    · exact hguard
    · exact nofun
  have hvalue := h.value
  refine ⟨⟨?_, ?_⟩, ?_⟩
  · rcases hop with hx | hx <;>
      simp only [Scope.environment, hthis, hc.from_, horigin', if_neg htype, hvalue, Step.enters, hx, hpending,
        Pending.created?, Option.getD_some, Step.value, Step.this]
  · intro hcode
    rcases hop with hx | hx <;> rw [hx] at hcode <;> cases hcode
  · refine ⟨fun hcode => ?_, fun hcode => ?_, fun hcode => ?_⟩
    · rcases hop with hx | hx <;> rw [hx] at hcode <;> rcases hcode with hcode | hcode <;> cases hcode
    · rcases hop with hx | hx <;> rw [hx] at hcode <;> cases hcode
    · rcases hop with hx | hx <;> rw [hx] at hcode <;> cases hcode

/-- What a frame keeps of its transaction. -/
structure Plain (sender : Address) (sc : Scope) : Prop where
  origin : sc.ctx.origin = sender
  static : sc.ctx.callType = .static → sc.call.value = 0

/-- One frame that is opened. -/
theorem Plain.rules_iff {x : Step T} {inner : Inner T} {pending : Pending} {opened : Machine T} {sender : Address}
    (hp : Plain sender x.scope) (h : openedFrame x.scope x.instruction x.before = some (inner, pending, opened)) :
    x.Rules sender inner pending opened ↔ x.Regular := by
  obtain ⟨hmessage, hcreation⟩ := openedFrame_code h
  cases opens_of_openedFrame h with
  | message hop hcalls => exact hcalls.rules_iff hop (hmessage hop) hp.static hp.origin
  | creation hop hguard hcreates =>
    obtain ⟨hrules, hregular⟩ := hcreates.rules hop hguard (hcreation hop) hp.origin
    exact iff_of_true hrules hregular

theorem Plain.opened {x : Step T} {inner : Inner T} {pending : Pending} {opened : Machine T} {sender : Address}
    (hp : Plain sender x.scope) (h : openedFrame x.scope x.instruction x.before = some (inner, pending, opened)) :
    Plain sender inner.scope := by
  obtain ⟨hmessage, -⟩ := openedFrame_code h
  cases opens_of_openedFrame h with
  | message hop hcalls =>
    obtain ⟨-, -, horigin, htype⟩ := hcalls.seen (hmessage hop) hp.origin
    refine ⟨horigin, fun hs => (hmessage hop).static ?_⟩
    rw [htype] at hs
    revert hop hs
    cases x.op <;> simp [Op.isMessageCall, callContext]
  | creation hop hguard hcreates =>
    have hctx := hcreates.ctx
    refine ⟨?_, fun hs => ?_⟩
    · rw [hctx, ← hp.origin]
      rcases hop with hx | hx <;> rw [hx] <;> rfl
    · rw [hctx] at hs
      rcases hop with hx | hx <;> rw [hx] at hs
      · exact absurd hs hguard
      · cases hs

theorem Reaches.plain {sc₀ sc : Scope} {s₀ s : Machine T} {sender : Address} (h : Reaches sc₀ s₀ sc s)
    (hp : Plain sender sc₀) : Plain sender sc := by
  induction h with
  | start => exact hp
  | turn _ _ _ ih => exact ih
  | @inner sc s opened t instruction inner pending _ _ opens _ _ ih =>
    exact Plain.opened (x := ⟨sc, instruction, s⟩) ih opens

/-! ## Transactions -/

/-- The frames of a run have their environments by the rules, from its top frame on. -/
structure FollowRules (sender : Address) (sc₀ : Scope) (s₀ : Machine T) : Prop where
  origin : sc₀.ctx.origin = sender
  opened : ∀ sc s instruction inner pending opened, Reaches sc₀ s₀ sc s → currentInstruction sc s.evm = some instruction →
    openedFrame sc instruction s = some (inner, pending, opened) →
    Step.Rules ⟨sc, instruction, s⟩ sender inner pending opened

/-- The instructions of a run that open a frame are regular. -/
def RegularRun (sc₀ : Scope) (s₀ : Machine T) : Prop :=
  ∀ sc s instruction inner pending opened, Reaches sc₀ s₀ sc s → currentInstruction sc s.evm = some instruction →
    openedFrame sc instruction s = some (inner, pending, opened) → Step.Regular ⟨sc, instruction, s⟩

theorem followRules_iff {sc₀ : Scope} {s₀ : Machine T} {sender : Address} (hp : Plain sender sc₀) :
    FollowRules sender sc₀ s₀ ↔ RegularRun sc₀ s₀ := by
  constructor
  · intro h sc s instruction inner pending opened hreach hi ho
    exact (Plain.rules_iff (x := ⟨sc, instruction, s⟩) (hreach.plain hp) ho).1 (h.opened _ _ _ _ _ _ hreach hi ho)
  · intro h
    refine ⟨hp.origin, fun sc s instruction inner pending opened hreach hi ho => ?_⟩
    exact (Plain.rules_iff (x := ⟨sc, instruction, s⟩) (hreach.plain hp) ho).2 (h _ _ _ _ _ _ hreach hi ho)

/-- The origin of a call transaction is its sender, that of a creation is nobody. -/
theorem topFrame_scope {r : Runner} {ext : Ext} {sc : Scope} {s : Machine T} (h : r.topFrame ext = some (sc, s)) :
    sc.ctx.origin = (if r.call.to_ ≠ 0 then r.call.from_ else 0) ∧ sc.ctx.callType ≠ .static := by
  unfold Runner.topFrame at h
  split at h
  · cases h
  · split at h
    · next hto =>
      split at h
      · cases h
      · cases h
        exact ⟨(if_pos hto).symm, nofun⟩
    · next hto =>
      cases h
      exact ⟨(if_neg hto).symm, nofun⟩

/-- Every frame of a transaction sees the environment it is to have if and only if the
    transaction is a call (or its sender is zero) and its instructions that open frames are
    regular; and what the frames see is what their ADDRESS, CALLER, ORIGIN and CALLVALUE push. -/
theorem execution_context {r : Runner} {ext : Ext} {sc₀ : Scope} {s₀ : Machine T}
    (h : r.topFrame ext = some (sc₀, s₀)) :
    (FollowRules r.call.from_ sc₀ s₀ ↔ (r.call.to_ ≠ 0 ∨ r.call.from_ = 0) ∧ RegularRun sc₀ s₀) ∧
    ∀ sc s instruction w fuel, Reaches sc₀ s₀ sc s → currentInstruction sc s.evm = some instruction →
      sc.environment.shows instruction.op = some w → 2 ≤ s.evm.gas.remaining → s.evm.stack.length < stackLimit →
      ∃ t, executeInstruction (executeWithContext fuel) sc instruction s = .ok (.ok 2) t ∧
        t.evm.stack = w :: s.evm.stack := by
  refine ⟨?_, fun sc s instruction w fuel _ _ hshows hgas hroom => pushes_environment _ hshows hgas hroom⟩
  obtain ⟨horigin, hstatic⟩ := topFrame_scope h
  by_cases hkind : r.call.to_ ≠ 0 ∨ r.call.from_ = 0
  · have hplain : Plain r.call.from_ sc₀ := by
      refine ⟨?_, fun hs => absurd hs hstatic⟩
      rw [horigin]
      split
      · rfl
      · next hto => exact (hkind.resolve_left hto).symm
    rw [followRules_iff hplain]
    exact ⟨fun hr => ⟨hkind, hr⟩, And.right⟩
  · obtain ⟨hto, hfrom⟩ := not_or.1 hkind
    refine ⟨fun hr => absurd ?_ hfrom, fun hr => absurd hr.1 hkind⟩
    rw [← hr.origin, horigin, if_neg hto]

end

namespace Sample

/-- Account 0xaa runs the code of 0xbb by CALLCODE, with a value of 1. -/
def borrower : Bytes := [0x5f, 0x5f, 0x5f, 0x5f, 0x60, 0x01, 0x60, 0xbb, 0x5a, 0xf2]

def borrowerLedger : Ext := (machine [(0xca, 1000000, []), (0xaa, 1, borrower), (0xbb, 0, [0x5b])]).ext

/-- CALL of 0xbb with a value of 1, DELEGATECALL and STATICCALL of 0xbb, and CREATE of a JUMPDEST. -/
def opener : Bytes :=
  [0x5f, 0x5f, 0x5f, 0x5f, 0x60, 1, 0x60, 0xbb, 0x5a, 0xf1, 0x5f, 0x5f, 0x5f, 0x5f, 0x60, 0xbb, 0x5a, 0xf4,
    0x5f, 0x5f, 0x5f, 0x5f, 0x60, 0xbb, 0x5a, 0xfa, 0x60, 0x5b, 0x5f, 0x53, 0x60, 1, 0x5f, 0x5f, 0xf0]

/-- 0xbb runs ADDRESS, CALLER, ORIGIN and CALLVALUE. -/
def openerLedger : Ext := (machine [(0xca, 1000000, []), (0xaa, 5, opener), (0xbb, 0, [0x30, 0x33, 0x32, 0x34])]).ext

/-- What its frames see. -/
def openerFrames : List (Op × Environment) :=
  [(.call, ⟨0xbb, 0xaa, 0xca, 1⟩), (.delegatecall, ⟨0xaa, 0xca, 0xca, 0⟩), (.staticcall, ⟨0xbb, 0xaa, 0xca, 0⟩),
    (.create, ⟨.ofWord 0xd68d495fb2fa5bb7374a515845eb6484d76cfe3f45708b91f5af8ce495134fac, 0xaa, 0xca, 0⟩)]

/-- A creation by 0xca. -/
def creation : Runner := ⟨{}, { from_ := 0xca, gas := 100000 }, [0x5b]⟩

end Sample

open Sample

/-- 0xaa calls 0xbb in three ways and creates an account; 0xbb, called, finds 0xaa for its caller. -/
theorem execution_context_opener : ∃ (sc₀ : Scope) (s₀ : Machine NoopTracer),
    (transaction []).topFrame openerLedger = some (sc₀, s₀) ∧ FollowRules 0xca sc₀ s₀ ∧
    (∀ seen ∈ openerFrames, ∃ x ∈ (history 60 sc₀ s₀).steps, x.op = seen.1 ∧ ∃ inner pending opened,
      openedFrame x.scope x.instruction x.before = some (inner, pending, opened) ∧
        inner.scope.environment = seen.2) ∧
    ∃ x ∈ (history 60 sc₀ s₀).steps, x.op = .caller ∧ x.scope.ctx.callType = .call ∧ x.this = 0xbb ∧
      ∃ t, executeInstruction (executeWithContext 60) x.scope x.instruction x.before = .ok (.ok 2) t ∧
        t.evm.stack = 0xaa :: x.before.evm.stack := by
  have hcheck : (((transaction []).topFrame (T := NoopTracer) openerLedger).any fun f =>
      returns (executeWithContext 60 f.1 f.2) (fun _ _ => (history 60 f.1 f.2).steps.all fun x =>
        decide (x.op ≠ .callcode ∧ (x.op = .call ∨ x.op = .staticcall → x.target ≠ 0))) &&
      openerFrames.all (fun seen => (history 60 f.1 f.2).steps.any fun x => x.op == seen.1 &&
        (openedFrame x.scope x.instruction x.before).any fun o => x.enters 0xca (o.2.1.created?.getD 0) == seen.2) &&
      (history 60 f.1 f.2).steps.any fun x => decide (x.op = .caller ∧ x.scope.ctx.callType = .call ∧ x.this = 0xbb ∧
        x.scope.environment.caller = 0xaa ∧ 2 ≤ x.before.evm.gas.remaining ∧ x.before.evm.stack.length < stackLimit)) =
          true := by
    decide +kernel
  obtain ⟨⟨sc₀, s₀⟩, h, hrun⟩ := (Option.any_eq_true _ _).1 hcheck
  rw [Bool.and_eq_true, Bool.and_eq_true] at hrun
  obtain ⟨⟨hrun, hopens⟩, hcaller⟩ := hrun
  obtain ⟨hiff, hpushes⟩ := execution_context h
  have hregular : RegularRun sc₀ s₀ := by
    intro sc s instruction inner pending opened hreach hi _
    obtain ⟨hcode, hnamed⟩ := of_decide_eq_true (of_history hrun hreach hi)
    exact ⟨fun hop => .inl (hnamed hop), fun hop => absurd hop hcode, fun hop => absurd hop hcode⟩
  have hfollow : FollowRules 0xca sc₀ s₀ := hiff.2 ⟨.inl (by decide), hregular⟩
  refine ⟨sc₀, s₀, h, hfollow, fun seen hseen => ?_, ?_⟩
  · obtain ⟨x, hmem, hx⟩ := List.any_eq_true.1 (List.all_eq_true.1 hopens seen hseen)
    rw [Bool.and_eq_true, beq_iff_eq] at hx
    obtain ⟨⟨inner, pending, opened⟩, ho, henters⟩ := (Option.any_eq_true _ _).1 hx.2
    obtain ⟨hreach, hi⟩ := reaches_history hmem
    refine ⟨x, hmem, hx.1, inner, pending, opened, ho, ?_⟩
    rw [(hfollow.opened _ _ _ _ _ _ hreach hi ho).1]
    exact beq_iff_eq.1 henters
  · obtain ⟨x, hmem, hx⟩ := List.any_eq_true.1 hcaller
    obtain ⟨hop, htype, hthis, hfrom, hgas, hroom⟩ := of_decide_eq_true hx
    obtain ⟨hreach, hi⟩ := reaches_history hmem
    refine ⟨x, hmem, hop, htype, hthis, hpushes _ _ _ _ 60 hreach hi ?_ hgas hroom⟩
    rw [show x.instruction.op = .caller from hop, Environment.shows, hfrom]
    rfl

/-- A creation by 0xca has no origin; and the CALLCODE of 0xaa shows its frame the caller 0xca,
    and pays 0xbb. -/
theorem execution_context_fails :
    (∃ (sc₀ : Scope) (s₀ : Machine NoopTracer), creation.topFrame ledger = some (sc₀, s₀) ∧ sc₀.ctx.origin = 0 ∧
      ¬FollowRules creation.call.from_ sc₀ s₀) ∧
    ∃ (sc₀ : Scope) (s₀ : Machine NoopTracer), (transaction []).topFrame borrowerLedger = some (sc₀, s₀) ∧
      ¬FollowRules (transaction []).call.from_ sc₀ s₀ := by
  constructor
  · have htop : (creation.topFrame (T := NoopTracer) ledger).isSome := by decide +kernel
    obtain ⟨⟨sc₀, s₀⟩, h⟩ := Option.isSome_iff_exists.1 htop
    have horigin := (topFrame_scope h).1
    refine ⟨sc₀, s₀, h, horigin, fun hr => ?_⟩
    rw [hr.origin] at horigin
    revert horigin
    decide
  · have hstep : (((transaction []).topFrame (T := NoopTracer) borrowerLedger).any fun f =>
        ((history 12 f.1 f.2).steps.find? fun x => decide (x.op = .callcode ∧ x.scope.call.from_ ≠ x.this) &&
          (openedFrame x.scope x.instruction x.before).isSome).isSome) = true := by decide +kernel
    obtain ⟨⟨sc₀, s₀⟩, h, hfind⟩ := (Option.any_eq_true _ _).1 hstep
    obtain ⟨x, hx⟩ := Option.isSome_iff_exists.1 hfind
    have hsome := List.find?_some hx
    simp only [Bool.and_eq_true, decide_eq_true_eq] at hsome
    obtain ⟨⟨hop, hne⟩, hopens⟩ := hsome
    obtain ⟨⟨inner, pending, opened⟩, ho⟩ := Option.isSome_iff_exists.1 hopens
    obtain ⟨hreach, hi⟩ := reaches_history (List.mem_of_find?_eq_some hx)
    obtain ⟨horigin, hstatic⟩ := topFrame_scope h
    refine ⟨sc₀, s₀, h, fun hr => hne ?_⟩
    have hplain : Plain (transaction []).call.from_ sc₀ := ⟨horigin, fun hs => absurd hs hstatic⟩
    exact ((followRules_iff hplain).1 hr _ _ _ _ _ _ hreach hi ho).own hop

end Solenoid
