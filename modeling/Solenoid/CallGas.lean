/-
  Solenoid.CallGas — the gas of CALL, CALLCODE, DELEGATECALL and STATICCALL.

  The law: a call that cannot pay its base cost halts its frame; any other gives its callee
  what it asks for, at most all but a 64th of what is left, and a stipend with a value; and
  pays the base cost and what the callee used, less the stipend.
  - `call_gas`: exactly the calls that meet the law. A CALLCODE with a value, or a
    DELEGATECALL in a frame with one, pays 25000 for a callee that is empty; an operand that
    does not fit a `usize` or a value that overflows the callee's balance panics; and memory
    over the limit or an account that does not answer ends the frame.
-/
import Solenoid.Calling

namespace Solenoid

open Hoare

section

variable {T : Type} [Crypto] [EventTracer T]

/-! ## The law -/

omit [EventTracer T] in
/-- The base cost of a call, by its opcode. -/
def Step.callBase (x : Step T) : Int :=
  x.callExpansion + x.reachCost + (if x.value ≠ 0 then 9000 else 0) +
    if x.op = .call ∧ x.value ≠ 0 ∧ x.targetEmpty then 25000 else 0

omit [EventTracer T] in
/-- What is left of the gas once the base cost is paid. -/
def Step.callLeft (x : Step T) : Int := x.before.evm.gas.remaining - x.callBase

structure CallLaw (x : Step T) : Prop where
  short : x.before.evm.gas.remaining < x.callBase → ∀ exec : Exec T,
    ∃ o t, executeStep exec x.scope x.instruction x.before = .ok o t ∧ HaltsDry o t
  runs : x.callBase ≤ x.before.evm.gas.remaining → ∃ inner pending opened,
    openedFrame x.scope x.instruction x.before = some (inner, pending, opened) ∧
    pending.base = x.callBase ∧
    inner.evm.gas.limit = min ((x.operand 0).toNat : Int)
      (x.callLeft - x.callLeft / 64) + (if x.value ≠ 0 then 2300 else 0) ∧
    ∀ fuel ret m, executeWithContext fuel inner.scope (inner.machine opened.ext) = .ok ret m →
      ∃ t, executeStep (executeWithContext fuel) x.scope x.instruction x.before = .ok none t ∧
        t.evm.gas.used = x.before.evm.gas.used + (x.callBase + m.evm.gas.used - if x.value ≠ 0 then 2300 else 0)

/-- A call of an account that is not a precompile, with the operands of its opcode, in a
    frame that may make it and whose gas is an `i64`. -/
structure Step.Calling (x : Step T) : Prop where
  sound : Sound x.before
  op : x.op.isMessageCall
  operands : x.has x.callTaken
  permitted : x.scope.ctx.callType = .static → x.op = .call → x.value = 0
  gas : x.before.evm.gas.remaining < 2 ^ 63
  plain : Precompiles.isPrecompile x.target = false

/-! ## The price the code takes -/

omit [EventTracer T] in
/-- The code takes 25000 for an empty callee, whatever opcode the value comes with. -/
structure Step.Overcharged (x : Step T) : Prop where
  op : x.op ≠ .call
  value : x.carried ≠ 0
  empty : x.targetEmpty

section

omit [EventTracer T]

variable {x : Step T}

theorem Step.Overcharged.takenBase (h : x.Overcharged) (hplain : Precompiles.isPrecompile x.target = false) :
    x.takenBase = x.callBase + 25000 := by
  have hcharged : Precompiles.isPrecompile x.target = false ∧ x.carried ≠ 0 ∧ x.targetEmpty := ⟨hplain, h.value, h.empty⟩
  have hother : ¬(x.op = .call ∧ x.value ≠ 0 ∧ x.targetEmpty) := fun hc => h.op hc.1
  unfold Step.takenBase Step.callBase
  rw [if_pos hcharged, if_neg hother]
  omega

theorem takenBase_fair (h : ¬x.Overcharged) (hplain : Precompiles.isPrecompile x.target = false) :
    x.takenBase = x.callBase := by
  have hsame : (Precompiles.isPrecompile x.target = false ∧ x.carried ≠ 0 ∧ x.targetEmpty = true) ↔
      (x.op = .call ∧ x.value ≠ 0 ∧ x.targetEmpty = true) := by
    refine ⟨fun ⟨_, hvalue, hempty⟩ => ?_, fun ⟨hop, hvalue, hempty⟩ => ⟨hplain, ?_, hempty⟩⟩
    · by_cases hop : x.op = .call
      · refine ⟨hop, ?_, hempty⟩
        simpa [Step.carried, hop] using hvalue
      · exact absurd ⟨hop, hvalue, hempty⟩ h
    · simpa [Step.carried, hop] using hvalue
  unfold Step.takenBase Step.callBase
  simp only [hsame]
  omega

theorem callBase_le_takenBase (hplain : Precompiles.isPrecompile x.target = false) : x.callBase ≤ x.takenBase := by
  by_cases h : x.Overcharged
  · rw [h.takenBase hplain]
    omega
  · rw [takenBase_fair h hplain]

omit [Crypto] in
theorem stipend_call (hop : x.op.isMessageCall) : x.stipend = if x.value ≠ 0 then 2300 else 0 := by
  unfold Step.stipend
  rw [hop]
  simp

end

/-! ## The frame of a call -/

section

variable {x : Step T} {s : Machine T}

/-- A call of a plain account opens a frame, once the caller answers and its value fits. -/
theorem wp_callEnter_frame {Q : Opened T → Machine T → Prop} {E : Fault → Machine T → Prop} {target : Target}
    (hop : x.op.isMessageCall) (hplain : Precompiles.isPrecompile x.target = false) (h : AtEntry x s)
    (hreport : x.before.ext.account? x.this = none → ∀ r t, E (.report r) t)
    (hpanic : (∃ account, x.before.ext.account? x.this = some account) → x.CallOverflows → ∀ why t, E (.panic why) t)
    (hQ : (∃ account, x.before.ext.account? x.this = some account) → ¬x.CallOverflows → ∀ inner traceCost t,
      inner.evm.gas.limit = x.prices.forwarded → t.evm.stack = s.evm.stack → t.evm.memory = s.evm.memory →
      Q (.frame inner (.call x.takenBase x.retOffset x.retSize x.stipend traceCost)) t) :
    wp (callEnter (x.scope.inContext x.op) x.instruction x.arguments target x.prices) Q E s := by
  unfold callEnter
  rw [wp_bind]
  refine wp_callData_exact h ?_
  have hplain' : ¬Precompiles.isPrecompile x.arguments.address = true := by
    rw [show x.arguments.address = x.target from rfl, hplain]
    decide
  rw [if_neg hplain', wp_bind]
  refine wp_callTransfer_exact hop h hreport hpanic fun hanswers hfits t _ hstack hmemory => ?_
  rw [wp_bind, wp_emit, wp_bind]
  refine wp_mono (wp_newFrame _ _) (fun inner u hu => (wp_pure _).2 ?_) fun _ _ hf => hf.elim
  obtain ⟨rfl, -, -, hlimit⟩ := hu
  exact hQ hanswers hfits inner _ _ hlimit hstack hmemory

omit [Crypto] in
/-- The end of a call goes through: the caller pays what its callee used, less the stipend. -/
theorem wp_callClose_total {retOffset retSize : Nat} {stipend traceCost : Int} (sc : Scope) (instruction : Instruction)
    (out : Output T) (hroom : s.evm.stack.length < stackLimit)
    (hfits : 0 < retSize → retOffset + retSize ≤ s.evm.memory.length)
    {e : Ext} (hrevert : out.evm.revert s.ext = .ok ⟨⟩ e) :
    wp (callClose sc instruction retOffset retSize stipend traceCost out)
      (fun _ t => t.evm.gas.used = s.evm.gas.used + (out.evm.gas.used - stipend) ∧ t.evm.gas.limit = s.evm.gas.limit)
      (fun _ _ => False) s := by
  have hcopy : ∀ (u : Machine T) (P : Unit → Machine T → Prop), u.evm.memory = s.evm.memory →
      (∀ memory, P () { u with evm.memory := memory }) →
        wp (copyBack retOffset (out.ret.take retSize)) P (fun _ _ => False) u := by
    intro u P hu hP
    unfold copyBack writeMemory
    rw [wp_ite]
    refine ⟨fun hsome => ?_, fun _ => (wp_pure _).2 (hP u.evm.memory)⟩
    have hlen : (out.ret.take retSize).length ≤ retSize := by simp
    have hpos : 0 < (out.ret.take retSize).length := List.length_pos_iff.2 hsome
    have hwithin := hfits (by omega)
    rw [wp_bind, wp_get, wp_bind, wp_lift, hu]
    unfold copyFromSlice
    rw [if_pos (by omega)]
    refine ⟨?_, nofun⟩
    rintro _ ⟨⟩
    exact (wp_modify _).2 (hP _)
  simp only [callClose, emitCall, joinTracer, spend, wp_bind, wp_get, wp_emit, wp_modify]
  refine hcopy _ _ rfl fun memory => ?_
  rw [wp_bind, wp_modify, wp_ite]
  refine ⟨fun _ => ?_, fun _ => ?_⟩
  · simp only [mergeReverted, wp_bind, wp_modify, wp_setRet]
    exact wp_dropFrame_total _ hroom hrevert ⟨rfl, rfl⟩
  · simp only [mergeKept, wp_bind, wp_modify, wp_setRet, wp_push]
    exact ⟨fun _ => ⟨trivial, trivial⟩, fun h => absurd h (not_le.2 hroom)⟩

end

section

omit [Crypto]

variable {x : Step T}

omit [EventTracer T] in
theorem isCall_message {op : Op} (h : op.isMessageCall) : op.isCall = true := by
  revert h
  cases op <;> simp [Op.isMessageCall, Op.isCall]

omit [EventTracer T] in
/-- A call leaves room for its result. -/
theorem room_call (hs : x.before.evm.stack.length ≤ stackLimit) (hhas : x.has x.callTaken) :
    (x.before.evm.stack.drop x.callTaken).length < stackLimit := by
  unfold Step.has Step.callTaken at hhas
  rw [List.length_drop, Step.callTaken]
  omega

omit [EventTracer T] in
/-- The static checks let a call pass that sends no value out of a static frame. -/
theorem guarded_call (hop : x.op.isMessageCall) (hhas : x.has x.callTaken)
    (hpermitted : x.scope.ctx.callType = .static → x.op = .call → x.value = 0) :
    guardStatic x.scope x.instruction x.before = .ok ⟨⟩ x.before := by
  unfold guardStatic
  by_cases hstatic : x.scope.ctx.callType = .static
  · rw [if_neg (not_not.2 hstatic)]
    have hpermitted := hpermitted hstatic
    unfold Step.has Step.callTaken at hhas
    unfold Step.op at hop hpermitted hhas
    cases hx : x.instruction.op <;> simp only [hx, Op.isMessageCall] at hop <;> try (first | rfl | cases hop)
    have hvalue := hpermitted hx
    have hlen : 2 < x.before.evm.stack.length := by omega
    unfold Step.value Step.op at hvalue
    rw [hx] at hvalue
    have hoperand : x.before.evm.stack[2]? = some 0 := by
      rw [List.getElem?_eq_getElem hlen, ← hvalue, Step.operand, List.getD_eq_getElem _ _ hlen]
    dsimp only
    rw [get_bind, hoperand]
    rfl
  · rw [if_pos hstatic]
    rfl

end

/-- A call that opens its frame. -/
structure Step.Goes (x : Step T) : Prop where
  fits : x.CallFits
  small : x.CallSmall
  answers : x.Answers
  caller : ∃ account, x.before.ext.account? x.this = some account
  covered : x.takenBase ≤ x.before.evm.gas.remaining
  credits : ¬x.CallOverflows

namespace Step.Calling

variable {x : Step T} {exec : Exec T} (h : x.Calling)

include h

omit [Crypto] [EventTracer T] in
theorem guarded : guardStatic x.scope x.instruction x.before = .ok ⟨⟩ x.before :=
  guarded_call h.op h.operands h.permitted

theorem wp_openFrame : wp (openFrame x.scope x.instruction)
    (fun o t => x.Goes ∧ ∃ inner traceCost, o = .frame inner (.call x.takenBase x.retOffset x.retSize x.stipend traceCost) ∧
      inner.evm.gas.limit = x.prices.forwarded ∧ t.evm.stack = x.before.evm.stack.drop x.callTaken ∧
        t.evm.memory = x.callMemory)
    (fun f _ => ¬x.Goes ∧ ((x.CallFits ∧ ∃ r, f = .report r) ∨
      ((¬x.CallFits ∨ x.takenBase ≤ x.before.evm.gas.remaining) ∧ ∃ why, f = .panic why))) x.before := by
  rw [openFrame_message h.op]
  refine wp_callOpen_exact h.op h.operands h.sound (fun hfits why t => ?_) (fun hfits hnot r t => ?_)
    fun hfits hsmall hanswers hcovered target s hs => ?_
  · exact ⟨fun hgoes => hfits hgoes.fits, .inr ⟨.inl hfits, why, rfl⟩⟩
  · exact ⟨fun hgoes => hnot ⟨hgoes.small, hgoes.answers, hgoes.covered⟩, .inl ⟨hfits, r, rfl⟩⟩
  · refine wp_callEnter_frame h.op h.plain hs (fun hnone r t => ?_) (fun _ hover why t => ?_)
      fun hcaller hroom inner traceCost t hlimit hstack hmemory => ?_
    · refine ⟨fun hgoes => ?_, .inl ⟨hfits, r, rfl⟩⟩
      obtain ⟨account, hacc⟩ := hgoes.caller
      rw [hnone] at hacc
      cases hacc
    · exact ⟨fun hgoes => hgoes.credits hover, .inr ⟨.inr hcovered, why, rfl⟩⟩
    · exact ⟨⟨hfits, hsmall, hanswers, hcaller, hcovered, hroom⟩, inner, traceCost, rfl, hlimit, hstack.trans hs.stack,
        hmemory.trans hs.memory⟩

/-- A call that goes on opens its frame. -/
theorem opens (hgoes : x.Goes) : ∃ inner traceCost opened,
    openedFrame x.scope x.instruction x.before =
      some (inner, .call x.takenBase x.retOffset x.retSize x.stipend traceCost, opened) := by
  have hopen := wp_def.1 h.wp_openFrame
  cases ho : openFrame x.scope x.instruction x.before with
  | ok o t =>
    obtain ⟨-, inner, traceCost, rfl, -⟩ := hopen.1 _ _ ho
    exact ⟨inner, traceCost, t, openedFrame_ok (isCall_message h.op) h.guarded ho⟩
  | error f t => exact absurd hgoes (hopen.2 _ _ ho).1

theorem of_opened {inner : Inner T} {pending : Pending} {opened : Machine T}
    (ho : openedFrame x.scope x.instruction x.before = some (inner, pending, opened)) :
    x.Goes ∧ (∃ traceCost, pending = .call x.takenBase x.retOffset x.retSize x.stipend traceCost) ∧
      inner.evm.gas.limit = x.prices.forwarded ∧ opened.evm.stack = x.before.evm.stack.drop x.callTaken ∧
      opened.evm.memory = x.callMemory := by
  obtain ⟨-, -, hopen⟩ := openedFrame_some ho
  obtain ⟨hgoes, inner', traceCost, heq, hat⟩ := (wp_of_ok hopen).1 h.wp_openFrame
  cases heq
  exact ⟨hgoes, ⟨traceCost, rfl⟩, hat⟩

/-- A call that does not go on ends its frame, or panics. -/
theorem wp_refused (hgoes : ¬x.Goes) : wp (executeStep exec x.scope x.instruction) (fun o t => x.CallFits ∧ HaltsDry o t)
    (fun _ _ => ¬x.CallFits ∨ x.takenBase ≤ x.before.evm.gas.remaining) x.before := by
  have hopen := wp_def.1 h.wp_openFrame
  refine wp_executeStep_call (isCall_message h.op) h.guarded ?_
  unfold callFrame
  rw [wp_bind]
  refine wp_def.2 ⟨fun o t ho => absurd (hopen.1 _ _ ho).1 hgoes, fun f t ho => ?_⟩
  rcases (hopen.2 _ _ ho).2 with ⟨hfits, r, rfl⟩ | ⟨hwhy, why, rfl⟩
  · exact ⟨fun _ _ _ _ hu => ⟨hfits, hu⟩, fun hr => absurd rfl (hr r)⟩
  · exact ⟨fun r hr => (nomatch hr), fun _ => hwhy⟩

/-- A call whose frame comes back goes on, charged. -/
theorem wp_returned {fuel : Nat} {inner : Inner T} {pending : Pending} {opened m : Machine T} {ret : Bytes}
    (ho : openedFrame x.scope x.instruction x.before = some (inner, pending, opened))
    (hrun : executeWithContext fuel inner.scope (inner.machine opened.ext) = .ok ret m) :
    wp (executeStep (executeWithContext fuel) x.scope x.instruction)
      (fun o t => o = none ∧ t.evm.gas.used = x.before.evm.gas.used + (x.takenBase + m.evm.gas.used - x.stipend))
      (fun _ _ => False) x.before := by
  obtain ⟨-, ⟨traceCost, rfl⟩, -, hstack, hmemory⟩ := h.of_opened ho
  have hreturned := returned h.sound ho hrun
  obtain ⟨e, hrevert⟩ := hreturned.undone
  have hroom : opened.evm.stack.length < stackLimit := by
    rw [hstack]
    exact room_call h.sound.stack h.operands
  have hfits : 0 < x.retSize → x.retOffset + x.retSize ≤ opened.evm.memory.length := by
    rw [hmemory]
    exact (within_callMemory x).2
  refine wp_mono (wp_executeStep_returned (E := fun _ _ => False)
    (Q := fun o t => o = none ∧ t.evm.gas.used = x.before.evm.gas.used + (x.takenBase + m.evm.gas.used - x.stipend)) ho
      hrun ?_)
    (fun _ _ ht => ht) fun _ _ hf => hf
  unfold closeFrame
  rw [wp_bind]
  refine wp_mono (wp_callClose_total (s := { opened with ext := m.ext }) _ _ _ hroom hfits hrevert)
    (fun _ t ht => (wp_pure _).2 ?_) fun _ _ hf => hf.elim
  obtain ⟨hused, hlimit⟩ := ht
  have hused : t.evm.gas.used = opened.evm.gas.used + (m.evm.gas.used - x.stipend) := hused
  have hlimit : t.evm.gas.limit = opened.evm.gas.limit := hlimit
  have hopened : opened.evm.gas.used = x.before.evm.gas.used := congrArg Core.used hreturned.covered.core
  have hremaining := remaining_of_core hreturned.covered.core
  have hmost : inner.evm.gas.limit ≤ x.before.evm.gas.remaining - x.takenBase + x.stipend := hreturned.forwards.most
  have hwithin := hreturned.within
  refine ⟨?_, fun u hu => ⟨rfl, ?_⟩⟩
  · unfold Gas.remaining at hremaining hmost ⊢
    omega
  · rw [hu.used, hused, hopened]
    omega

end Step.Calling

/-- The law holds of the calls that cannot pay their base cost and whose operands fit, and of
    those that open their frame and are not overcharged. -/
theorem call_gas {x : Step T} (h : x.Calling) : CallLaw x ↔
    (x.before.evm.gas.remaining < x.callBase ∧ x.CallFits) ∨
      (x.callBase ≤ x.before.evm.gas.remaining ∧ x.Goes ∧ ¬x.Overcharged) := by
  have hle := callBase_le_takenBase h.plain
  constructor
  · intro hlaw
    by_cases hgas : x.callBase ≤ x.before.evm.gas.remaining
    · obtain ⟨inner, pending, opened, ho, hbase, -⟩ := hlaw.runs hgas
      obtain ⟨hgoes, ⟨traceCost, rfl⟩, -⟩ := h.of_opened ho
      refine .inr ⟨hgas, hgoes, fun hover => ?_⟩
      have hbase : x.takenBase = x.callBase := hbase
      have hmore := hover.takenBase h.plain
      omega
    · refine .inl ⟨not_le.1 hgas, ?_⟩
      obtain ⟨o, t, ht, -⟩ := hlaw.short (not_le.1 hgas) (executeWithContext 0)
      exact ((wp_of_ok ht).1 (h.wp_refused fun hgoes => hgas (hle.trans hgoes.covered))).1
  · rintro (⟨hgas, hfits⟩ | ⟨hgas, hgoes, hfair⟩)
    · refine ⟨fun _ exec => ?_, fun hpaid => absurd hgas (not_lt.2 hpaid)⟩
      have hgoes : ¬x.Goes := fun hgoes => absurd hgas (not_lt.2 (hle.trans hgoes.covered))
      obtain ⟨o, t, ht, -, hdry⟩ := exists_ok (wp_mono (h.wp_refused hgoes) (fun _ _ ht => ht) fun _ _ hf => by
        rcases hf with hf | hf
        · exact hf hfits
        · omega)
      exact ⟨o, t, ht, hdry⟩
    · refine ⟨fun hlt => absurd hgas (not_le.2 hlt), fun _ => ?_⟩
      obtain ⟨inner, traceCost, opened, ho⟩ := h.opens hgoes
      have hbase := takenBase_fair hfair h.plain
      have hstipend := stipend_call h.op
      refine ⟨inner, _, opened, ho, hbase, ?_, fun fuel ret m hrun => ?_⟩
      · -- the clamp of the requested gas to an `i64` is above all the gas there is
        have hdear : 100 ≤ x.takenBase := (opened_forwards h.sound.paid ho).1.dear
        have hlimit := (h.of_opened ho).2.2.1
        have hmost := h.gas
        rw [hlimit, Step.prices, hstipend, hbase, Step.callLeft]
        simp only
        rw [hbase] at hdear
        congr 1
        omega
      · obtain ⟨o, t, ht, rfl, hused⟩ := exists_ok (h.wp_returned ho hrun)
        rw [hbase, hstipend] at hused
        exact ⟨t, ht, hused⟩

end

namespace Sample

/-- A call of 0xbb, which has this much, with a value of 1. -/
def reaching (opcode : UInt8) (balance : Word) : Step NoopTracer :=
  step [opcode] [1000, 0xbb, 1, 0, 0, 0, 0] [(0xaa, 1, []), (0xbb, balance, [])]

theorem sound_reaching (opcode : UInt8) (balance : Word) : Sound (reaching opcode balance).before :=
  ⟨⟨show (0 : Int) ≤ memPrice 0 by decide, show divCeil 0 32 * divCeil 0 32 < 2 ^ 63 by decide⟩, le_rfl,
    show (0 : Int) ≤ 100000 - 0 by decide, show 7 ≤ stackLimit by decide, nofun⟩

theorem calling_call : (reaching 0xf1 7).Calling where
  sound := sound_reaching _ _
  op := by decide
  operands := show (reaching 0xf1 7).callTaken ≤ 7 by decide
  permitted := fun hstatic => absurd hstatic (by decide)
  gas := by decide
  plain := by decide

theorem goes_call : (reaching 0xf1 7).Goes where
  fits := ⟨by decide, by decide, by decide, by decide, by decide, by decide⟩
  small := show 0 < (reaching 0xf1 7).callTill → _ by decide
  answers := ⟨⟨{ value := 7 }, rfl⟩, nofun⟩
  caller := ⟨{ value := 1 }, rfl⟩
  covered := by decide
  credits := fun h => absurd h.full (by decide)

theorem calling_callcode : (reaching 0xf2 0).Calling where
  sound := sound_reaching _ _
  op := by decide
  operands := show (reaching 0xf2 0).callTaken ≤ 7 by decide
  permitted := fun hstatic => absurd hstatic (by decide)
  gas := by decide
  plain := by decide

end Sample

open Sample in
/-- The law holds of a CALL that sends 1 to an account with 7. -/
theorem call_gas_call : CallLaw (reaching 0xf1 7) :=
  (call_gas calling_call).2 (.inr ⟨by decide, goes_call, fun h => absurd rfl h.op⟩)

open Sample in
/-- A CALLCODE that sends 1 to an empty account pays 25000 for it. -/
theorem call_gas_callcode : (reaching 0xf2 0).Calling ∧ ¬CallLaw (reaching 0xf2 0) := by
  have hover : (reaching 0xf2 0).Overcharged := ⟨by decide, by decide, by decide⟩
  refine ⟨calling_callcode, fun hlaw => ?_⟩
  obtain ⟨inner, pending, opened, ho, hbase, -⟩ := hlaw.runs (by decide)
  obtain ⟨-, ⟨traceCost, rfl⟩, -⟩ := calling_callcode.of_opened ho
  have hbase : (reaching 0xf2 0).takenBase = (reaching 0xf2 0).callBase := hbase
  have hmore := hover.takenBase calling_callcode.plain
  omega

end Solenoid
