/-
  Solenoid.Deployments — a creation transaction phase by phase, and the gas it reports.

  `Runner::apply` starts, runs the init code, settles its gas, pays the coinbase, finalises
  and charges the sender (`Runner.Deploys`). What it takes up front is the price of the call
  data, and `CreateBuilder` hands over the init code as no call data; what it takes for the
  deposit it takes whatever came of the code.
  - `creation_transaction_gas`: the gas is as it is to be exactly when the frame ends so that
    neither shows (`Runner.Fair`).
-/
import Solenoid.Termination
import Solenoid.Transaction

namespace Solenoid

open Hoare

section

variable {T : Type} [Crypto] [EventTracer T] {r : Runner}

/-! ## Phases -/

/-- A creation that came back, from the machine its init code starts on. -/
structure Runner.Deploys (fuel : Nat) (r : Runner) (code : Bytecode) (reduction : Int) (created : Address)
    (started : Machine T) (ret : Bytes) (ended : Machine T) (deployed : Bytes) (gas : Int)
    (metered paid finalised settled : Machine T) : Prop where
  runs : executeWithContext fuel (r.createScope code created) started = .ok ret ended
  meters : r.createdGas reduction ret ended = .ok (deployed, gas) metered
  pays : r.payCreated gas metered = .ok ⟨⟩ paid
  finalises : r.finalise created deployed paid = .ok ⟨⟩ finalised
  charges : r.chargeSender gas finalised = .ok ⟨⟩ settled

namespace Runner

/-- A creation transaction, phase by phase. -/
theorem apply_created {fuel : Nat} {ext ext' : Ext} {result : CallResult T} (hto : r.call.to_ = 0)
    (h : r.apply fuel ext = .ok result ext') : ∃ (code : Bytecode) (reduction : Int) (created : Address)
      (started : Machine T) (ret : Bytes) (ended : Machine T) (deployed : Bytes) (gas : Int)
      (metered paid finalised settled : Machine T), r.start (r.machine ext) = .ok (code, reduction, created) started ∧
      r.Deploys fuel code reduction created started ret ended deployed gas metered paid finalised settled ∧
      result.evm = settled.evm ∧ result.ret = deployed ∧ result.gas.gasUse = gas ∧
      r.call.gas.asI64 = .ok result.gas.gasMax ∧ result.tracer = settled.exe.tracer ∧ ext' = settled.ext := by
  unfold apply at h
  split at h
  · next result t hrun =>
    cases h
    obtain ⟨⟨code, reduction, created⟩, started, hstart, h⟩ := bind_ok hrun
    dsimp only at h
    rw [if_neg (not_not.2 hto)] at h
    obtain ⟨ret, ended, hruns, h⟩ := bind_ok h
    obtain ⟨⟨deployed, gas⟩, metered, hmeters, h⟩ := bind_ok h
    obtain ⟨_, paid, hpays, h⟩ := bind_ok h
    obtain ⟨_, finalised, hfinalises, h⟩ := bind_ok h
    obtain ⟨_, settled, hcharges, h⟩ := bind_ok h
    obtain ⟨gasResult, s, hgas, hresult⟩ := bind_ok h
    have hmax : r.call.gas.asI64 = .ok gasResult.gasMax := by
      obtain ⟨gasMax, hmax, hrest⟩ := bind_lift_ok hgas
      obtain ⟨_, -, hrest⟩ := bind_lift_ok hrest
      obtain ⟨_, _, hget, hrest⟩ := bind_ok hrest
      cases hget
      obtain ⟨_, -, hrest⟩ := bind_lift_ok hrest
      cases hrest
      exact hmax
    obtain ⟨rfl, huse, -⟩ := gasResult_ok hgas
    cases hresult
    exact ⟨code, reduction, created, started, ret, ended, deployed, gas, metered, paid, finalised, _, hstart,
      ⟨hruns, hmeters, hpays, hfinalises, hcharges⟩, rfl, rfl, huse, hmax, rfl, rfl⟩
  · cases h

/-! ## What the phases after the frame leave alone -/

omit [EventTracer T] in
theorem books_finalise (r : Runner) (created : Address) (code : Bytes) :
    Keeps booking (r.finalise created code : M T Unit) := by
  refine works_booking.finalise (fun _ => books_onExt (sameTx_revert _)) r created ?_
  refine (books_onExt (sameTx_accountMut _ _)).bind fun _ => ?_
  refine (books_onExt (sameTx_accountMut _ _)).bind fun _ => ?_
  exact books_touch _

omit [EventTracer T] in
/-- The frame starts on what the intrinsic gas leaves of the limit. -/
theorem start_gas {s t : Machine T} {code : Bytecode} {reduction : Int} {created : Address} (hs : s.evm = {})
    (h : r.start s = .ok (code, reduction, created) t) : ∃ gasLimit touches, r.call.gas.asI64 = .ok gasLimit ∧
      t.evm = { gas := .new (gasLimit - reduction), touches } := by
  obtain ⟨_, s₁, h₁, h⟩ := bind_ok h
  obtain ⟨_, s₂, h₂, h⟩ := bind_ok h
  obtain ⟨_, s₃, h₃, h⟩ := bind_ok h
  obtain ⟨_, s₄, h₄, h⟩ := bind_ok h
  obtain ⟨_, s₅, h₅, h⟩ := bind_ok h
  cases h
  have hbefore : Booked s s₂ := booking.trans ((works_booking.warmCoinbase r).ok h₁) ((works_booking.resolveCode r).ok h₂)
  have hafter : Booked s₃ t := booking.trans ((works_booking.prepareCreated books_openAccount r).ok h₄)
    ((works_booking.fundCreated r _).ok h₅)
  obtain ⟨_, _, hget, h₃⟩ := bind_ok h₃
  cases hget
  obtain ⟨_, s₆, happly, h₃⟩ := bind_ok h₃
  obtain ⟨gasLimit, hlimit, h₃⟩ := bind_lift_ok h₃
  obtain ⟨_, _, hmodify, h₃⟩ := bind_ok h₃
  cases hmodify
  cases h₃
  have hlisted : Booked s s₆ := booking.trans hbefore (works_booking.listed.ok happly)
  refine ⟨gasLimit, t.evm.touches, hlimit, ?_⟩
  rw [hafter.evm]
  simp only
  rw [hlisted.evm, hs]

/-! ## The gas of the deposit -/

/-- Without the gas for its code a creation is reverted, at the price of all its gas; else it is
    charged the deposit, whether its code came back or its revert data. -/
inductive Meters (r : Runner) (reduction : Int) (ret : Bytes) (s : Machine T) (deployed : Bytes) (gas : Int)
    (t : Machine T) : Prop
  | unaffordable (kept : s.evm.reverted = false) (short : s.evm.gas.remaining < 200 * ret.length)
      (cleared : deployed = []) (all : r.call.gas.asI64 = .ok gas) (reverted : t.evm.reverted = true)
      (used : s.evm.gas.remaining < gas → t.evm.gas.used = s.evm.gas.used + s.evm.gas.remaining)
      (limit : t.evm.gas.limit = s.evm.gas.limit)
  | charged (covers : s.evm.reverted = false → 200 * (ret.length : Int) ≤ s.evm.gas.remaining) (given : deployed = ret)
      (gas_eq : gas = s.evm.gas.finalized (reduction + 200 * ret.length) s.evm.reverted) (same : t = s)

omit [Crypto] [EventTracer T] in
theorem createdGas_meters {reduction : Int} {ret deployed : Bytes} {gas : Int} {s t : Machine T}
    (h : r.createdGas reduction ret s = .ok (deployed, gas) t) : Meters r reduction ret s deployed gas t := by
  obtain ⟨_, _, hget, h⟩ := bind_ok h
  cases hget
  dsimp only at h
  split at h
  · next hshort =>
    obtain ⟨hkept, hshort⟩ : s.evm.reverted = false ∧ s.evm.gas.remaining < 200 * ret.length := by
      simpa using hshort
    obtain ⟨_, _, hmodify, h⟩ := bind_ok h
    cases hmodify
    obtain ⟨gasLimit, hlimit, h⟩ := bind_lift_ok h
    obtain ⟨o, u, htake, h⟩ := bind_ok h
    cases h
    have hwp : wp (attempt (takeGas gas)) (fun _ u => u.evm.reverted = true ∧
        (s.evm.gas.remaining < gas → u.evm.gas.used = s.evm.gas.used + s.evm.gas.remaining) ∧
        u.evm.gas.limit = s.evm.gas.limit) (fun _ _ => True)
        { s with evm.reverted := true } := by
      simp only [wp_attempt, takeGas, Evm.takeGas, wp_onEvm, wp_bind, wp_get, wp_modify, wp_ite, wp_pure,
        Solenoid.wp_error]
      unfold Gas.sub
      split
      · next hlt =>
        refine ⟨fun h => (by cases h), fun _ => ⟨fun _ _ => ⟨rfl, fun _ => ?_, rfl⟩, fun hf => absurd rfl (hf _)⟩⟩
        have hlt : s.evm.gas.limit - s.evm.gas.used < gas := hlt
        show s.evm.gas.used + min gas (s.evm.gas.limit - s.evm.gas.used) +
          (s.evm.gas.limit - (s.evm.gas.used + min gas (s.evm.gas.limit - s.evm.gas.used))) =
            s.evm.gas.used + (s.evm.gas.limit - s.evm.gas.used)
        omega
      · next hle => exact ⟨fun _ => ⟨trivial, fun hlt => absurd hlt hle, rfl⟩, fun h => absurd rfl h⟩
    obtain ⟨hreverted, hused, hlim⟩ := (wp_of_ok htake).1 hwp
    exact .unaffordable hkept hshort rfl hlimit hreverted hused hlim
  · next hcovers =>
    cases h
    refine .charged (fun hkept => ?_) rfl rfl rfl
    simpa [hkept] using hcovers

end Runner

/-! ## Frames on less than nothing -/

section

variable {exec : Exec T} {x : Step T}

/-- The limit of the frame stays, whatever came of the instruction. -/
theorem Overdrawn.limit (hs : Overdrawn x.before) :
    wp (executeInstruction exec x.scope x.instruction) (fun _ t => t.evm.gas.limit = x.before.evm.gas.limit)
      (fun f t => ∀ r, f = .report r → t.evm.gas.limit = x.before.evm.gas.limit) x.before := by
  by_cases hcall : x.op.isCall = true
  · rw [executeInstruction_call hcall]
    refine wp_opCall_of (fun _ _ _ _ => rfl) fun hg => ?_
    unfold callFrame
    rw [wp_bind]
    have hopen := wp_def.1 (wp_openFrame hcall hg)
    refine wp_def.2 ⟨fun o t ho => ?_, fun f t ho => ⟨fun r hr => (hopen.2 _ _ ho r hr).limit,
      fun r hr => (hopen.2 _ _ ho r hr).limit⟩⟩
    cases o with
    | done gas => exact (wp_pure _).2 (show Answered _ x.before t from hopen.1 _ _ ho).limit
    | frame inner pending =>
      have hopened := openedFrame_ok hcall hg ho
      rw [hs.unopened] at hopened
      cases hopened
  · by_cases he : x.op.ends = true
    · exact wp_mono (ends_instruction he x.before) (fun _ _ h => h.limit) fun f t h r hr => (h r hr).limit
    · refine wp_mono (instruction_within exec x (by simpa using hcall) (by simpa using he)) (fun _ t h => ?_)
        fun f t h r hr => (h r hr).limit
      exact congrArg Regs.limit h.regs

omit [Crypto] in
/-- A cost that is not covered, or none: the frame halts with all its gas gone. -/
theorem wp_settleStep_short {sc : Scope} {instruction : Instruction} {r : Option StepResult} {s : Machine T}
    (h : ∀ cost, r = some (.ok cost) → s.evm.gas.remaining < cost) :
    wp (settleStep sc instruction r) (fun o t => o = some [] ∧ t.evm.reverted = true ∧
      t.evm.gas.used = t.evm.gas.limit ∧ t.evm.gas.limit = s.evm.gas.limit) (fun _ _ => True) s := by
  have hdrain : ∀ g : Gas, g.used + g.remaining = g.limit := fun g => by
    unfold Gas.remaining
    omega
  have hhalt : ∀ (reason : HaltReason) (u : Machine T), u.evm.gas.used = u.evm.gas.limit →
      u.evm.gas.limit = s.evm.gas.limit → wp (haltFrame sc reason) (fun o t => o = some [] ∧ t.evm.reverted = true ∧
        t.evm.gas.used = t.evm.gas.limit ∧ t.evm.gas.limit = s.evm.gas.limit) (fun _ _ => True) u := by
    intro reason u hused hlimit
    simp only [haltFrame, halted, wp_bind, wp_modify, wp_emit, wp_pure]
    exact ⟨trivial, trivial, hused, hlimit⟩
  cases r with
  | none =>
    simp only [settleStep, halted, drainGas, wp_bind, wp_modify, wp_get, wp_emit, wp_pure]
    exact ⟨trivial, trivial, hdrain _, trivial⟩
  | some r =>
    cases r with
    | halt cost =>
      simp only [settleStep, halted, drainGas, wp_bind, wp_modify]
      refine wp_mono (settling_recordOp _ _ _ _ _) (fun _ u hu => ?_) fun _ _ _ => trivial
      rw [wp_bind, wp_modify]
      exact hhalt _ _ (hdrain _) hu.limit
    | ok cost =>
      have hshort := h cost rfl
      have hrecord : wp (recordOp sc instruction cost instruction.isCall) (fun _ u => u.evm.gas = s.evm.gas)
          (fun _ _ => True) s := by
        simp only [recordOp, wp_ite, wp_pure, wp_bind, wp_get, wp_modify, wp_emit]
        exact ⟨fun _ => trivial, fun _ => trivial⟩
      rw [settleStep, wp_bind]
      refine wp_mono hrecord (fun _ u hu => ?_) fun _ _ h => h
      have hsub : u.evm.gas.sub cost = ({ u.evm.gas with used := u.evm.gas.used + min cost u.evm.gas.remaining },
        false) := by
        rw [Gas.sub, if_pos (by rw [hu]; exact hshort)]
      simp only [wp_bind, wp_ite, drainGas, wp_modify, wp_attempt, takeGas, Evm.takeGas, wp_onEvm, wp_get, hsub,
        Bool.false_eq_true, wp_pure, Solenoid.wp_error]
      refine ⟨fun _ => hhalt _ _ (hdrain _) (by rw [hu]), fun _ => ⟨fun hfalse => hfalse.elim, fun _ => ⟨fun _ _ => ?_,
        fun _ => trivial⟩⟩⟩
      exact hhalt _ _ (hdrain _) (show u.evm.gas.limit = _ by rw [hu])

/-- The first instruction of a frame on less than nothing ends it. -/
theorem Overdrawn.halts {sc : Scope} {s t : Machine T} {instruction : Instruction} {o : Option Bytes} (hs : Overdrawn s)
    (h : executeStep exec sc instruction s = .ok o t) :
    o = some [] ∧ t.evm.reverted = true ∧ t.evm.gas.used = t.evm.gas.limit ∧ t.evm.gas.limit = s.evm.gas.limit := by
  have hstep : wp (executeStep exec sc instruction) (fun o t => o = some [] ∧ t.evm.reverted = true ∧
      t.evm.gas.used = t.evm.gas.limit ∧ t.evm.gas.limit = s.evm.gas.limit) (fun _ _ => True) s := by
    unfold executeStep
    rw [wp_bind, wp_attempt]
    have harm : wp (executeInstruction exec sc instruction) _ _ s :=
      wp_and (Overdrawn.costs (x := ⟨sc, instruction, s⟩) hs) (Overdrawn.limit (x := ⟨sc, instruction, s⟩) hs)
    refine wp_mono harm (fun r t ⟨hcosts, hlimit⟩ => ?_) fun _ t hfail => ⟨fun r hr => ?_, fun _ => trivial⟩
    · refine wp_mono (wp_settleStep_short fun cost hcost => hcosts cost (by injection hcost)) (fun o u hu => ?_)
        fun _ _ _ => trivial
      exact ⟨hu.1, hu.2.1, hu.2.2.1, hu.2.2.2.trans hlimit⟩
    · refine wp_mono (wp_settleStep_short nofun) (fun o u hu => ?_) fun _ _ _ => trivial
      exact ⟨hu.1, hu.2.1, hu.2.2.1, hu.2.2.2.trans (hfail.2 r hr)⟩
  exact (of_ok hstep h :)

/-- A frame on less than nothing has nothing to run, or halts at once. -/
theorem Overdrawn.run {fuel : Nat} {sc : Scope} {s t : Machine T} {ret : Bytes} (hs : Overdrawn s)
    (hdepth : sc.ctx.depth ≤ callDepthLimit) (h : executeWithContext fuel sc s = .ok ret t) :
    t.evm.gas.limit = s.evm.gas.limit ∧ (ret = [] ∧ t.evm.reverted = true ∧ t.evm.gas.used = t.evm.gas.limit ∨
      t.evm.reverted = s.evm.reverted ∧ t.evm.gas.remaining < 0) := by
  obtain ⟨_, u, he, hrest⟩ := bind_ok (show frameWith (executeLoop fuel) sc s = _ from h)
  obtain ⟨-, hcore⟩ := lives_enterFrame (.inr hs) he
  have hlimit : u.evm.gas.limit = s.evm.gas.limit := congrArg Core.limit hcore
  have hshort : u.evm.gas.remaining < 0 := by
    rw [remaining_of_core hcore]
    exact hs.short
  have hover : Overdrawn u := by
    obtain ⟨hu | hu, -⟩ := lives_enterFrame (.inr hs) he
    · have := hu.covered
      omega
    · exact hu
  rw [if_neg (not_lt.2 hdepth)] at hrest
  cases fuel with
  | zero => cases hrest
  | succ fuel =>
    cases hi : currentInstruction sc u.evm with
    | none =>
      rw [executeLoop_done hi] at hrest
      have hfinish : wp (finishFrame sc) (fun _ v => v.evm = u.evm) (fun _ _ => True) u := by
        simp only [finishFrame, emitStop, wp_bind, wp_get, wp_ite, wp_emit, wp_pure]
        exact ⟨fun _ => trivial, fun _ => trivial⟩
      have hevm : t.evm = u.evm := (of_ok hfinish hrest :)
      rw [hevm]
      exact ⟨hlimit, .inr ⟨congrArg Core.reverted hcore, hshort⟩⟩
    | some instruction =>
      rw [executeLoop_step hi] at hrest
      cases hstep : executeStep (executeWithContext fuel) sc instruction u with
      | error f v =>
        rw [hstep] at hrest
        cases hrest
      | ok o v =>
        obtain ⟨rfl, hreverted, hused, hlim⟩ := hover.halts hstep
        rw [hstep] at hrest
        cases hrest
        exact ⟨hlim.trans hlimit, .inl ⟨rfl, hreverted, hused⟩⟩

end

namespace Runner

/-! ## The gas a creation reports -/

/-- How the top frame of a transaction ends: what it returned, and its machine then. -/
def topEnd (fuel : Nat) (r : Runner) (ext : Ext) : Option (Bytes × Machine T) :=
  match r.topFrame ext with
  | none => none
  | some (sc, s) =>
    match executeWithContext fuel sc s with
    | .ok ret t => some (ret, t)
    | .error .. => none

/-- What the code of a creation costs before its first instruction. -/
def codeGas (code : Bytes) : Int := dataCost code + 2 * divCeil code.length 32

/-- What a creation is to cost before its first instruction. -/
def creationGas (code : Bytes) (tx : TxContext) : Int := callCost + 32000 + codeGas code + tx.accessListCost

end Runner

omit [Crypto] [EventTracer T] in
/-- What is taken off the gas for refunds: at most a fifth of it. -/
def CallResult.granted (result : CallResult T) : Int :=
  if result.evm.reverted then 0
  else min result.evm.gas.refund
    ((result.evm.gas.used + (result.gas.gasMax - result.evm.gas.limit) + 200 * result.ret.length).tdiv 5)

omit [Crypto] [EventTracer T] in
/-- The gas a creation is to report, for the price `least` of its start: between that and the
    limit, with the deposit in it when the code was deployed and not otherwise. What is not in the
    frame's limit was taken up front. -/
structure CallResult.Accounts (result : CallResult T) (least : Int) : Prop where
  least : least ≤ result.gas.gasUse + result.granted
  most : result.gas.gasUse ≤ result.gas.gasMax
  deposit : result.gas.gasUse + result.granted =
    result.gas.gasMax - result.evm.gas.limit + result.evm.gas.used +
      if result.evm.reverted then 0 else 200 * result.ret.length

namespace Runner

omit [Crypto] [EventTracer T] in
/-- The frame of the init code ends so that its gas comes out right: the gas it used makes up for
    the code's price, which was not taken, it returns no data when it reverts, and what it has to
    give back is covered. When the deposit is not all the gas is taken. -/
def Fair (code ret : Bytes) (t : Machine T) : Prop :=
  if t.evm.reverted then ret = [] ∧ codeGas code ≤ t.evm.gas.used
  else 200 * (ret.length : Int) ≤ t.evm.gas.remaining →
    codeGas code ≤ t.evm.gas.used + 200 * ret.length ∧ 200 * (ret.length : Int) ≤ t.evm.gas.remaining + t.evm.gas.refund

theorem topEnd_created {fuel : Nat} {ext : Ext} {code : Bytecode} {reduction : Int} {created : Address}
    {started ended : Machine T} {ret : Bytes} (hto : r.call.to_ = 0)
    (hstart : r.start (r.machine ext) = .ok (code, reduction, created) started)
    (hruns : executeWithContext fuel (r.createScope code created) started = .ok ret ended) :
    r.topEnd fuel ext = some (ret, ended) := by
  simp only [topEnd, topFrame, hstart, if_neg (not_not.2 hto), hruns]

omit [Crypto] [EventTracer T] in
theorem accessListCost_nonneg (tx : TxContext) : 0 ≤ tx.accessListCost := by
  unfold TxContext.accessListCost
  suffices h : ∀ (items : List AccessListItem) (cost : Int), 0 ≤ cost →
      0 ≤ items.foldl (fun cost item => cost + 2400 + 1900 * (item.storageKeys.length : Int)) cost from h _ 0 le_rfl
  intro items
  induction items with
  | nil => exact fun _ h => h
  | cons item items ih => exact fun cost h => ih _ (show 0 ≤ cost + 2400 + 1900 * (item.storageKeys.length : Int) by omega)

omit [Crypto] [EventTracer T] in
/-- Nothing is taken for the code. -/
theorem intrinsicGas_ready (b : CreateBuilder) : intrinsicGas b.ready.call = 53000 := by
  have hto : b.ready.call.to_ = 0 := rfl
  have hdata : b.ready.call.data = [] := rfl
  rw [intrinsicGas, if_pos hto, hdata]
  decide

omit [Crypto] [EventTracer T] in
theorem codeGas_nonneg (code : Bytes) : 0 ≤ codeGas code := by
  unfold codeGas dataCost
  have := List.length_filter_le (· ≠ 0) code
  dsimp only
  omega

omit [Crypto] [EventTracer T] in
theorem asI64_nonneg {w : Word} {n : Int} (h : w.asI64 = .ok n) (hn : 0 ≤ n) : n = w.toNat := by
  unfold Word.asI64 at h
  cases hval : w.asU64 with
  | error f =>
    rw [hval] at h
    cases h
  | ok val =>
    rw [hval] at h
    cases h
    obtain ⟨hlt, rfl⟩ := Word.asU64_ok hval
    unfold usizeAsI64 at hn ⊢
    split
    · rfl
    · next hge =>
      rw [if_neg hge] at hn
      omega

omit [EventTracer T] in
/-- What a phase settles at is no negative amount. -/
theorem chargeSender_nonneg {gas : Int} {s t : Machine T} (h : r.chargeSender gas s = .ok ⟨⟩ t) : 0 ≤ gas := by
  obtain ⟨word, hword, -⟩ := bind_lift_ok h
  by_contra hneg
  rw [Word.ofI64, if_neg hneg] at hword
  cases hword

/-- The frame of a creation that comes back had no negative limit, and used no more than that. -/
theorem Deploys.metered {fuel : Nat} {code : Bytecode} {reduction gasLimit : Int} {created : Address}
    {started ended metered paid finalised settled : Machine T} {ret deployed : Bytes} {gas : Int}
    {touches : List AccountTouch}
    (h : r.Deploys fuel code reduction created started ret ended deployed gas metered paid finalised settled)
    (hstarted : started.evm = { gas := .new (gasLimit - reduction), touches }) (hlimit : r.call.gas.asI64 = .ok gasLimit)
    (hleast : 0 ≤ gasLimit → reduction ≤ gasLimit) : ended.evm.gas.limit = gasLimit - reduction ∧
      0 ≤ ended.evm.gas.used ∧ 0 ≤ ended.evm.gas.remaining := by
  have hgas := chargeSender_nonneg h.charges
  have hunused : Unused started := by
    refine ⟨?_, ?_, ?_, ?_, ?_⟩ <;> rw [hstarted]
    rfl
  have hstart : started.evm.gas.limit = gasLimit - reduction := by
    rw [hstarted]
    rfl
  by_cases hfree : 0 ≤ gasLimit - reduction
  · obtain ⟨hused, hcovered, hsame⟩ :=
      run_metered fuel _ _ _ _ (hunused.started (by rw [hstart]; exact hfree)).sound h.runs
    exact ⟨hsame.trans hstart, hused, hcovered⟩
  · have hover : Overdrawn started := by
      refine hunused.lives.resolve_left fun hsound => ?_
      have hcovered := hsound.covered
      have hused := hunused.used
      unfold Gas.remaining at hcovered
      omega
    obtain ⟨hsame, hend⟩ := hover.run (show 1 ≤ callDepthLimit by decide) h.runs
    have hneg : gasLimit < 0 := by
      by_contra hge
      have := hleast (not_lt.1 hge)
      omega
    cases createdGas_meters h.meters with
    | unaffordable _ _ _ hall =>
      rw [hlimit] at hall
      cases hall
      omega
    | charged hcovers _ hgas_eq =>
      rcases hend with ⟨rfl, hreverted, hused⟩ | ⟨hkept, hshort⟩
      · rw [hreverted, Gas.finalized, if_pos rfl, hused, hsame, hstart, List.length_nil] at hgas_eq
        omega
      · have hcovers := hcovers (hkept.trans hunused.live)
        omega

/-- The gas reported for a creation, with the init code as its call data to be paid for, is as it
    is to be exactly when its frame ends fairly. -/
theorem creation_transaction_gas {fuel : Nat} {b : CreateBuilder} {ext ext' : Ext} {result : CallResult T}
    (hleast : creationGas b.code ext.txCtx ≤ b.gas.toNat) (h : b.ready.apply fuel ext = .ok result ext') :
    result.Accounts (creationGas b.code ext.txCtx) ↔
      ∃ ret t, b.ready.topEnd fuel ext = some (ret, (t : Machine T)) ∧ Fair b.code ret t := by
  obtain ⟨code, reduction, created, started, ret, ended, deployed, gas, metered, paid, finalised, settled, hstart,
    hphases, hevm, hret, huse, hmax, -⟩ := apply_created rfl h
  obtain ⟨gasLimit, touches, hlimit, hstarted⟩ := start_gas rfl hstart
  have hred : reduction = 53000 + ext.txCtx.accessListCost := by
    rw [start_ok hstart, intrinsicGas_ready]
    rfl
  have hlist := accessListCost_nonneg ext.txCtx
  have hdue : creationGas b.code ext.txCtx = reduction + codeGas b.code := by
    rw [hred]
    unfold creationGas callCost
    omega
  have hbooked : Booked metered settled := booking.trans ((works_booking.payCreated _ _).ok hphases.pays)
    (booking.trans ((books_finalise _ _ _).ok hphases.finalises) ((works_booking.chargeSender _ _).ok hphases.charges))
  have hgas : result.evm.gas = metered.evm.gas := by rw [hevm, hbooked.evm]
  have hreverted : result.evm.reverted = metered.evm.reverted := by rw [hevm, hbooked.evm]
  have hcode := codeGas_nonneg b.code
  have hgasLimit : 0 ≤ gasLimit → gasLimit = b.gas.toNat := asI64_nonneg hlimit
  obtain ⟨hframe, hused, hcovered⟩ := hphases.metered hstarted hlimit fun hge => by
    rw [hgasLimit hge]
    omega
  rw [hlimit] at hmax
  cases hmax
  have htop : b.ready.topEnd fuel ext = some (ret, ended) := topEnd_created rfl hstart hphases.runs
  have hfair : (∃ ret t, b.ready.topEnd fuel ext = some (ret, (t : Machine T)) ∧ Fair b.code ret t) ↔
      Fair b.code ret ended := by
    rw [htop]
    refine ⟨?_, fun hf => ⟨ret, ended, rfl, hf⟩⟩
    rintro ⟨_, _, heq, hf⟩
    cases heq
    exact hf
  rw [hfair]
  unfold Gas.remaining at hcovered
  cases createdGas_meters hphases.meters with
  | unaffordable hkept hshort hcleared hall hrev hexhausted hsame =>
    rw [hlimit] at hall
    cases hall
    have hfinal := hexhausted (by unfold Gas.remaining; omega)
    unfold Gas.remaining at hfinal
    have hgranted : result.granted = 0 := by rw [CallResult.granted, hreverted, hrev, if_pos rfl]
    have hright : Fair b.code ret ended := by
      unfold Fair
      rw [hkept, if_neg Bool.false_ne_true]
      intro hcovers
      omega
    refine ⟨fun _ => hright, fun _ => ⟨?_, ?_, ?_⟩⟩
    · rw [hgranted, huse]
      omega
    · rw [huse]
    · rw [hgranted, huse, hgas, hreverted, hrev, if_pos rfl]
      omega
  | charged hcovers hgiven hgas_eq hsame =>
    subst hgiven hsame
    cases hrev : metered.evm.reverted with
    | true =>
      have hgranted : result.granted = 0 := by rw [CallResult.granted, hreverted, hrev, if_pos rfl]
      rw [hrev, Gas.finalized, if_pos rfl] at hgas_eq
      unfold Fair
      rw [hrev, if_pos rfl, ← List.length_eq_zero_iff]
      constructor
      · rintro ⟨hl, hm, hd⟩
        rw [hgranted, huse] at hl hd
        rw [hgas, hreverted, hrev, if_pos rfl] at hd
        omega
      · rintro ⟨hempty, hpaid⟩
        refine ⟨?_, ?_, ?_⟩
        · rw [hgranted, huse]
          omega
        · rw [huse]
          omega
        · rw [hgranted, huse, hgas, hreverted, hrev, if_pos rfl]
          omega
    | false =>
      have hcovers := hcovers hrev
      have htotal : metered.evm.gas.used + (result.gas.gasMax - metered.evm.gas.limit) + 200 * (deployed.length : Int) =
          metered.evm.gas.used + (reduction + 200 * deployed.length) := by omega
      have hgranted : result.granted = min metered.evm.gas.refund
          ((metered.evm.gas.used + (reduction + 200 * deployed.length)).tdiv 5) := by
        rw [CallResult.granted, hreverted, hrev, if_neg Bool.false_ne_true, hgas, hret, htotal]
      rw [hrev, Gas.finalized, if_neg Bool.false_ne_true] at hgas_eq
      dsimp only at hgas_eq
      have hfifth : 0 ≤ (metered.evm.gas.used + (reduction + 200 * (deployed.length : Int))).tdiv 5 :=
        Int.tdiv_nonneg (by omega) (by omega)
      have hgasUse : result.gas.gasUse + result.granted = metered.evm.gas.used + (reduction + 200 * deployed.length) := by
        rw [huse, hgranted, hgas_eq]
        omega
      have hmost : result.gas.gasUse ≤ result.gas.gasMax ↔
          200 * (deployed.length : Int) ≤ metered.evm.gas.remaining + metered.evm.gas.refund := by
        rw [hgranted] at hgasUse
        unfold Gas.remaining at hcovers ⊢
        omega
      unfold Fair
      rw [hrev, if_neg Bool.false_ne_true]
      constructor
      · rintro ⟨hl, hm, -⟩ -
        rw [hgasUse] at hl
        exact ⟨by omega, hmost.1 hm⟩
      · intro hf
        obtain ⟨hpaid, hback⟩ := hf hcovers
        refine ⟨?_, hmost.2 hback, ?_⟩
        · rw [hgasUse]
          omega
        · rw [hgasUse, hgas, hreverted, hrev, hret, if_neg Bool.false_ne_true]
          omega

end Runner

end

namespace Sample

/-- A creation by 0xca. -/
def founder (code : Bytes) : CreateBuilder := ⟨{}, 0xca, 0, 100000, code⟩

end Sample

open Sample

/-- Init code that uses a slot makes up for its own price. -/
theorem Runner.creation_transaction_gas_slot : ∃ (result : CallResult NoopTracer) (ext' : Ext),
    (founder [0x5f, 0x5f, 0x55]).ready.apply 6 ledger = .ok result ext' ∧ result.Accounts 53050 := by
  have hrun : returns ((founder [0x5f, 0x5f, 0x55]).ready.apply (T := NoopTracer) 6 ledger) (fun _ _ => true) := by
    decide +kernel
  obtain ⟨result, ext', h, -⟩ := of_returns hrun
  have hend : ((founder [0x5f, 0x5f, 0x55]).ready.topEnd (T := NoopTracer) 6 ledger).any (fun e =>
      !e.2.evm.reverted && decide (e.1 = [] ∧ 50 ≤ e.2.evm.gas.used ∧ 0 ≤ e.2.evm.gas.remaining + e.2.evm.gas.refund)) := by
    decide +kernel
  obtain ⟨⟨ret, t⟩, htop, hfair⟩ := (Option.any_eq_true _ _).1 hend
  obtain ⟨hkept, rfl, hused, hback⟩ : t.evm.reverted = false ∧ ret = [] ∧ 50 ≤ t.evm.gas.used ∧
      0 ≤ t.evm.gas.remaining + t.evm.gas.refund := by simpa using hfair
  refine ⟨result, ext', h, (Runner.creation_transaction_gas (by decide) h).2 ⟨[], t, htop, ?_⟩⟩
  have hprice : Runner.codeGas (founder [0x5f, 0x5f, 0x55]).code = 50 := by decide
  unfold Runner.Fair
  rw [hkept, if_neg Bool.false_ne_true, hprice, List.length_nil]
  exact fun _ => ⟨by omega, by omega⟩

/-- Init code that stops at once: its byte costs 6 gas and is not charged. -/
theorem Runner.creation_transaction_gas_free : ∃ (result : CallResult NoopTracer) (ext' : Ext),
    (founder [0]).ready.apply 4 ledger = .ok result ext' ∧ Runner.creationGas [0] ledger.txCtx = 53006 ∧
      ¬result.Accounts 53006 := by
  have hrun : returns ((founder [0]).ready.apply (T := NoopTracer) 4 ledger)
      (fun result _ => decide (result.gas.gasUse + result.granted = 53000)) := by decide +kernel
  obtain ⟨result, ext', h, hgas⟩ := of_returns hrun
  have hgas : result.gas.gasUse + result.granted = 53000 := by simpa using hgas
  refine ⟨result, ext', h, by decide, fun haccounts => ?_⟩
  have := haccounts.least
  omega

end Solenoid
