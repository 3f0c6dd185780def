/-
  Solenoid.Turns — the states a run passes through, and the gas they have.

  `Reaches sc₀ s₀ sc s`: in the run of a frame from `s₀`, some frame of its call tree, of
  scope `sc`, is at `s` between two instructions. A frame in a `Sound` state stays in one,
  turn by turn (`wp_executeStep_gas`), and so do the frames it opens: the step lemma assumes
  of the inner runs what the run lemma (`run_metered`, by induction on the bound) gives.
-/
import Solenoid.Forwarding

namespace Solenoid

open Hoare

section

variable {T : Type} [Crypto] [EventTracer T]

/-! ## The states of a run -/

inductive Reaches (sc₀ : Scope) (s₀ : Machine T) : Scope → Machine T → Prop
  /-- A frame that is not too deep comes to its first instruction. -/
  | start {s : Machine T} (enters : enterFrame sc₀ s₀ = .ok ⟨⟩ s) (depth : sc₀.ctx.depth ≤ callDepthLimit) :
      Reaches sc₀ s₀ sc₀ s
  | turn {sc : Scope} {s t : Machine T} {instruction : Instruction} {fuel : Nat} (h : Reaches sc₀ s₀ sc s)
      (current : currentInstruction sc s.evm = some instruction)
      (step : executeStep (executeWithContext fuel) sc instruction s = .ok none t) : Reaches sc₀ s₀ sc t
  | inner {sc : Scope} {s opened t : Machine T} {instruction : Instruction} {inner : Inner T} {pending : Pending}
      (h : Reaches sc₀ s₀ sc s) (current : currentInstruction sc s.evm = some instruction)
      (opens : openedFrame sc instruction s = some (inner, pending, opened))
      (enters : enterFrame inner.scope (inner.machine opened.ext) = .ok ⟨⟩ t)
      (depth : inner.scope.ctx.depth ≤ callDepthLimit) : Reaches sc₀ s₀ inner.scope t

/-- The instructions of a history are those its run comes to. -/
theorem reaches_frameHistory {sc₀ sc : Scope} {s₀ s : Machine T} {hloop : Scope → Machine T → History T} {x : Step T}
    (henter : ∀ t, enterFrame sc s = .ok ⟨⟩ t → sc.ctx.depth ≤ callDepthLimit → Reaches sc₀ s₀ sc t)
    (hsteps : ∀ sc s, Reaches sc₀ s₀ sc s → ∀ x ∈ (hloop sc s).steps,
      Reaches sc₀ s₀ x.scope x.before ∧ currentInstruction x.scope x.before.evm = some x.instruction)
    (hx : x ∈ (frameHistory hloop sc s).steps) :
    Reaches sc₀ s₀ x.scope x.before ∧ currentInstruction x.scope x.before.evm = some x.instruction := by
  unfold frameHistory at hx
  cases he : enterFrame sc s with
  | error f t => simp [he, History.steps] at hx
  | ok _ t =>
    simp only [he] at hx
    split at hx
    · simp [History.steps] at hx
    · next hdepth => exact hsteps sc t (henter t he (not_lt.1 hdepth)) x hx

theorem reaches_steps (sc₀ : Scope) (s₀ : Machine T) (fuel : Nat) : ∀ (sc : Scope) (s : Machine T),
    Reaches sc₀ s₀ sc s → ∀ x ∈ (historyLoop fuel sc s).steps,
      Reaches sc₀ s₀ x.scope x.before ∧ currentInstruction x.scope x.before.evm = some x.instruction := by
  induction fuel with
  | zero =>
    intro sc s _ x hx
    simp [historyLoop, History.steps] at hx
  | succ fuel ih =>
    intro sc s hs x hx
    cases hi : currentInstruction sc s.evm with
    | none =>
      rw [historyLoop_done hi] at hx
      simp [History.steps] at hx
    | some instruction =>
      rw [historyLoop_step hi] at hx
      rcases mem_historyNode hx with rfl | ⟨inner, pending, opened, hopened, hx⟩ | hx
      · exact ⟨hs, hi⟩
      · exact reaches_frameHistory (fun t he hd => .inner hs hi hopened he hd) ih hx
      · split at hx
        · next t hstep => exact ih _ _ (.turn hs hi hstep) x hx
        · simp [History.steps] at hx

theorem reaches_history {fuel : Nat} {sc : Scope} {s : Machine T} {x : Step T} (hx : x ∈ (history fuel sc s).steps) :
    Reaches sc s x.scope x.before ∧ currentInstruction x.scope x.before.evm = some x.instruction :=
  reaches_frameHistory (fun _ he hd => .start he hd) (reaches_steps sc s fuel) hx

/-! ## Sound states -/

/-- A frame between two instructions. -/
structure Sound (s : Machine T) : Prop where
  paid : Paid s.evm
  used : 0 ≤ s.evm.gas.used
  covered : 0 ≤ s.evm.gas.remaining
  stack : s.evm.stack.length ≤ stackLimit
  live : s.evm.reverted = true → s.evm.stopped = true

/-- A frame that has done nothing yet, under a limit that is not negative. -/
structure Started (s : Machine T) : Prop where
  memory : s.evm.memory = []
  memCost : s.evm.memCost = 0
  stack : s.evm.stack = []
  used : s.evm.gas.used = 0
  limit : 0 ≤ s.evm.gas.limit
  live : s.evm.reverted = false

omit [Crypto] [EventTracer T] in
theorem Started.sound {s : Machine T} (h : Started s) : Sound s where
  paid := by
    refine ⟨?_, ?_⟩
    · unfold Owing
      rw [h.memory, h.memCost]
      decide
    · rw [h.memory]
      decide
  used := h.used.ge
  covered := by
    have := h.limit
    rw [Gas.remaining, h.used]
    omega
  stack := by
    rw [h.stack]
    exact Nat.zero_le _
  live hrev := by rw [h.live] at hrev; cases hrev

omit [Crypto] [EventTracer T] in
theorem Fresh.started {inner : Inner T} {s : Machine T} (h : Fresh inner s) (hlimit : 0 ≤ inner.evm.gas.limit)
    (e : Ext) : Started (inner.machine e) := by
  unfold Inner.machine
  rw [h.evm]
  exact ⟨rfl, rfl, rfl, rfl, hlimit, rfl⟩

/-- `enterFrame` leaves the frame as it is but for its touches. -/
theorem sound_enterFrame {sc : Scope} {s t : Machine T} (hs : Sound s) (h : enterFrame sc s = .ok ⟨⟩ t) :
    Sound t ∧ t.evm.core = s.evm.core := by
  have hsteady : Keeps steady (enterFrame sc : M T Unit) :=
    (steady_emit _ _ _).bind fun _ => .ite (fun _ => .pure _) fun _ => steady_warmTouch _
  have ht : Steady s t := hsteady.ok h
  have hwithin : Within (Effect.isRead ·) s t := (keeps_enterFrame sc).ok h
  refine ⟨⟨ht.paid hs.paid, ?_, ?_, hwithin.stack hs.stack, ?_⟩, ht.core⟩
  · exact (congrArg Core.used ht.core).ge.trans' hs.used
  · rw [remaining_of_core ht.core]
    exact hs.covered
  · rw [show t.evm.reverted = s.evm.reverted from congrArg Core.reverted ht.core,
      show t.evm.stopped = s.evm.stopped from congrArg Core.stopped ht.core]
    exact hs.live

/-! ## One instruction -/

/-- A run that comes back has used no more than its limit. -/
def Metered (exec : Exec T) : Prop :=
  ∀ sc s ret t, Sound s → exec sc s = .ok ret t →
    0 ≤ t.evm.gas.used ∧ 0 ≤ t.evm.gas.remaining ∧ t.evm.gas.limit = s.evm.gas.limit

/-- What an instruction that returned its cost leaves, to be charged that cost. -/
structure Costs (x : Step T) (cost : Int) (t : Machine T) : Prop where
  paid : Paid t.evm
  limit : t.evm.gas.limit = x.before.evm.gas.limit
  covered : 0 ≤ t.evm.gas.remaining
  spent : t.evm.gas.remaining - cost ≤ x.before.evm.gas.remaining
  runs : x.op.ends = false → x.op ≠ .invalid → t.evm.gas.remaining - cost < x.before.evm.gas.remaining
  flags : x.op.ends = false → t.evm.stopped = x.before.evm.stopped ∧ t.evm.reverted = x.before.evm.reverted
  stops : x.op.ends = true → t.evm.stopped = true
  pc : x.op.ends = false → x.op ≠ .jump → x.op ≠ .jumpi → t.evm.pc = x.before.evm.pc + 1
  /-- A frame's caller pays the base cost and at most what it forwarded. -/
  forwarded : ∀ inner pending opened, openedFrame x.scope x.instruction x.before = some (inner, pending, opened) →
    x.before.evm.gas.remaining - pending.base - (inner.evm.gas.limit - pending.stipend) ≤ t.evm.gas.remaining - cost

variable {exec : Exec T} {hist : Scope → Machine T → History T} {x : Step T}

/-- An arm that computes costs what it says and goes on to the next instruction. -/
theorem Prices.costs {cost : Int} {t : Machine T} (hs : Sound x.before) (h : Prices x.before cost t)
    (hnone : openedFrame x.scope x.instruction x.before = none) (he : x.op.ends = false) : Costs x cost t := by
  have hcost := h.cost
  have hcovered := hs.covered
  have hlimit : t.evm.gas.limit = x.before.evm.gas.limit := congrArg Core.limit h.core
  have hremaining : t.evm.gas.remaining = x.before.evm.gas.remaining := congrArg (fun c : Core => c.limit - c.used) h.core
  exact ⟨h.paid, hlimit, by omega, by omega, fun _ _ => by omega,
    fun _ => ⟨congrArg Core.stopped h.core, congrArg Core.reverted h.core⟩, fun h => (by rw [he] at h; cases h),
    fun _ _ _ => congrArg Core.pc h.core, fun _ _ _ h => (by rw [hnone] at h; cases h)⟩

theorem Jumps.costs {cost : Int} {t : Machine T} (hs : Sound x.before) (h : Jumps x.before cost t)
    (hnone : openedFrame x.scope x.instruction x.before = none) (hop : x.op = .jump ∨ x.op = .jumpi) : Costs x cost t := by
  have hcost := h.cost
  have hcovered := hs.covered
  have hlimit : t.evm.gas.limit = x.before.evm.gas.limit := congrArg Core.limit h.core
  have hremaining : t.evm.gas.remaining = x.before.evm.gas.remaining := congrArg (fun c : Core => c.limit - c.used) h.core
  refine ⟨h.paid, hlimit, by omega, by omega, fun _ _ => by omega,
    fun _ => ⟨congrArg Core.stopped h.core, congrArg Core.reverted h.core⟩, fun h => ?_, fun _ hj hj' => ?_,
    fun _ _ _ h => (by rw [hnone] at h; cases h)⟩
  · rcases hop with hop | hop <;> simp [hop, Op.ends] at h
  · exact (hop.elim hj hj').elim

/-- Every arm but the calls, the jumps, INVALID and those that end the frame. -/
theorem wp_arm (hs : Paid x.before.evm) (hc : x.op.isCall = false) (he : x.op.ends = false) (hj : x.op ≠ .jump)
    (hj' : x.op ≠ .jumpi) (hv : x.op ≠ .invalid) :
    wp (executeInstruction exec x.scope x.instruction) (fun r t => ∀ cost, r = .ok cost → Prices x.before cost t)
      (fun _ _ => True) x.before := by
  suffices h : Priced (executeInstruction exec x.scope x.instruction) from h _ hs
  obtain ⟨sc, instruction, s⟩ := x
  unfold executeInstruction
  simp only [Step.op] at hc he hj hj' hv
  cases hop : instruction.op
  case create | call | callcode | delegatecall | create2 | staticcall => simp [hop, Op.isCall] at hc
  case stop | return_ | revert => simp [hop, Op.ends] at he
  case jump => exact absurd hop hj
  case jumpi => exact absurd hop hj'
  case invalid => exact absurd hop hv
  case exp => exact priced_opExp
  case sha3 => exact priced_opSha3 sc
  case balance => exact priced_opBalance
  case calldataload => exact priced_opCalldataload sc
  case calldatacopy => exact priced_opCalldatacopy sc
  case codecopy => exact priced_opCodecopy sc
  case extcodesize => exact priced_opExtcodesize
  case extcodecopy => exact priced_opExtcodecopy
  case returndatacopy => exact priced_opReturndatacopy
  case extcodehash => exact priced_opExtcodehash
  case blockhash => exact priced_opBlockhash
  case selfbalance => exact priced_opSelfbalance sc
  case blobhash => exact priced_opBlobhash
  case pop => exact priced_opPop
  case mload => exact priced_opMload
  case mstore => exact priced_opMstore
  case mstore8 => exact priced_opMstore8
  case sload => exact priced_opSload sc
  case sstore => exact priced_opSstore sc instruction
  case jumpdest => exact priced_opJumpdest
  case tload => exact priced_opTload sc
  case tstore => exact priced_opTstore sc
  case mcopy => exact priced_opMcopy
  case dup => exact priced_opDup instruction
  case swap => exact priced_opSwap instruction
  case log => exact priced_opLog sc instruction
  case selfdestruct => exact priced_opSelfdestruct sc instruction
  case unknown => exact priced_refuse _
  all_goals
    first
    | exact priced_pushing (by decide) _
    | exact priced_binary (by decide) _ _
    | exact priced_unary (by decide) _
    | exact priced_ternary (by decide) _

/-- The arms that end the frame. -/
theorem wp_stops (hs : Paid x.before.evm) (he : x.op.ends = true) :
    wp (executeInstruction exec x.scope x.instruction) (fun r t => ∀ cost, r = .ok cost → Stops cost t)
      (fun _ _ => True) x.before := by
  unfold executeInstruction
  have he : x.instruction.op.ends = true := he
  split <;> first
    | exact price_opStop _ hs
    | exact price_opReturn _ _ hs
    | (next h => simp [h, Op.ends] at he)

/-- The jumps. -/
theorem wp_jumps (hs : Paid x.before.evm) (hop : x.op = .jump ∨ x.op = .jumpi) :
    wp (executeInstruction exec x.scope x.instruction) (fun r t => ∀ cost, r = .ok cost → Jumps x.before cost t)
      (fun _ _ => True) x.before := by
  rcases hop with h | h
  · rw [show executeInstruction exec x.scope x.instruction = opJump x.scope by
      simp only [executeInstruction, show x.instruction.op = .jump from h]]
    exact price_opJump _ hs
  · rw [show executeInstruction exec x.scope x.instruction = opJumpi x.scope by
      simp only [executeInstruction, show x.instruction.op = .jumpi from h]]
    exact price_opJumpi _ hs

/-- What an instruction leaves; one that opened a frame returns its cost. -/
structure Spends (x : Step T) (r : StepResult) (t : Machine T) : Prop where
  limit : t.evm.gas.limit = x.before.evm.gas.limit
  costs : ∀ cost, r = .ok cost → Costs x cost t
  halts : ∀ cost, r = .halt cost → openedFrame x.scope x.instruction x.before = none

/-- What one that reported leaves. -/
structure Reports (x : Step T) (t : Machine T) : Prop where
  limit : t.evm.gas.limit = x.before.evm.gas.limit
  unopened : openedFrame x.scope x.instruction x.before = none

theorem unopened (h : x.op.isCall = false) : openedFrame x.scope x.instruction x.before = none := by
  have h : x.instruction.op.isCall = false := h
  simp only [openedFrame, h, Bool.false_eq_true, if_false]

theorem wp_arm_spends (hs : Sound x.before) (hc : x.op.isCall = false) :
    wp (executeInstruction exec x.scope x.instruction) (Spends x) (fun f t => ∀ r, f = .report r → Reports x t)
      x.before := by
  have hnone := unopened hc
  by_cases he : x.op.ends = true
  · refine wp_mono (wp_and (ends_instruction he x.before) (wp_stops hs.paid he)) (fun r t ⟨hending, hstop⟩ => ?_)
      fun f t h r hr => ⟨(h.1 r hr).limit, hnone⟩
    refine ⟨hending.limit, fun cost hcost => ?_, fun _ _ => hnone⟩
    have hstop := hstop cost hcost
    have hnonneg := hstop.cost
    have hcovered := hs.covered
    have hremaining : t.evm.gas.remaining = x.before.evm.gas.remaining := by
      rw [Gas.remaining, hending.limit, hending.used]
      rfl
    exact ⟨hstop.paid, hending.limit, by omega, by omega, fun h => (by rw [he] at h; cases h),
      fun h => (by rw [he] at h; cases h), fun _ => hstop.stopped, fun h => (by rw [he] at h; cases h),
      fun _ _ _ h => (by rw [hnone] at h; cases h)⟩
  · have he : x.op.ends = false := by simpa using he
    have hwithin := instruction_within exec x hc he
    have hcosts : wp (executeInstruction exec x.scope x.instruction) (fun r t => ∀ cost, r = .ok cost → Costs x cost t)
        (fun _ _ => True) x.before := by
      by_cases hop : x.op = .jump ∨ x.op = .jumpi
      · exact wp_mono (wp_jumps hs.paid hop) (fun r t h cost hcost => (h cost hcost).costs hs hnone hop) fun _ _ h => h
      · by_cases hinv : x.op = .invalid
        · rw [show executeInstruction exec x.scope x.instruction = next 0 by
            simp only [executeInstruction, show x.instruction.op = .invalid from hinv]]
          rw [wp_next]
          intro cost hcost
          cases hcost
          have hcovered := hs.covered
          exact ⟨⟨hs.paid.owing, hs.paid.small⟩, rfl, hcovered, by simp, fun _ h => absurd hinv h, fun _ => ⟨rfl, rfl⟩,
            fun h => (by rw [he] at h; cases h), fun _ _ _ => rfl, fun _ _ _ h => (by rw [hnone] at h; cases h)⟩
        · exact wp_mono (wp_arm hs.paid hc he (fun h => hop (.inl h)) (fun h => hop (.inr h)) hinv)
            (fun r t h cost hcost => (h cost hcost).costs hs hnone he) fun _ _ h => h
    refine wp_mono (wp_and hwithin hcosts) (fun r t h => ?_) fun f t h r hr => ⟨(h.1 r hr).limit, hnone⟩
    exact ⟨congrArg Regs.limit h.1.regs, h.2, fun _ _ => hnone⟩

/-! ## The calls -/

/-- What a call or a creation costs its caller, its frame included. -/
structure CallCosts (x : Step T) (cost : Int) (t : Machine T) : Prop where
  paid : Paid t.evm
  core : t.evm.core = { x.before.evm.core with used := t.evm.gas.used }
  covered : 0 ≤ t.evm.gas.remaining
  runs : t.evm.gas.remaining - cost < x.before.evm.gas.remaining
  forwarded : ∀ inner pending opened, openedFrame x.scope x.instruction x.before = some (inner, pending, opened) →
    x.before.evm.gas.remaining - pending.base - (inner.evm.gas.limit - pending.stipend) ≤ t.evm.gas.remaining - cost

theorem CallCosts.costs {cost : Int} {t : Machine T} (h : CallCosts x cost t) (hcall : x.op.isCall) :
    Costs x cost { t with evm.pc := t.evm.pc + 1 } := by
  have hruns := h.runs
  have hends : x.op.ends = false := by
    revert hcall
    cases x.op <;> simp [Op.isCall, Op.ends]
  have hpc : t.evm.pc = x.before.evm.pc := congrArg Core.pc h.core
  exact ⟨⟨h.paid.owing, h.paid.small⟩, congrArg Core.limit h.core, h.covered, hruns.le, fun _ _ => hruns,
    fun _ => ⟨congrArg Core.stopped h.core, congrArg Core.reverted h.core⟩, fun he => (by rw [hends] at he; cases he),
    fun _ _ _ => by rw [← hpc], h.forwarded⟩

/-- A frame that was opened is forwarded gas by the rules. -/
theorem opened_forwards (hs : Paid x.before.evm) {inner : Inner T} {pending : Pending} {opened : Machine T}
    (h : openedFrame x.scope x.instruction x.before = some (inner, pending, opened)) :
    Forwards x.before.evm.gas.remaining pending.base pending.stipend inner.evm.gas.limit ∧
      Covered x.before opened ∧ pending.stipend = x.stipend := by
  obtain ⟨hcall, -, ho⟩ := openedFrame_some h
  obtain ⟨hopens, hstipend⟩ := (wp_of_ok ho).1 (wp_openFrame_gas x hcall hs)
  refine ⟨hopens.2, hopens.1, ?_⟩
  cases opens_of_openedFrame h with
  | message hop _ => exact hstipend hop _ _ rfl
  | creation hop _ hcreates =>
    obtain ⟨baseCost, rfl⟩ := hcreates.pending
    have hnot : ¬x.op.isMessageCall := by rcases hop with h | h <;> simp [h, Op.isMessageCall]
    simp only [Step.stipend, hnot, Pending.stipend, Bool.false_eq_true, false_and, if_false]

omit [EventTracer T] in
theorem Opens.limit {inner : Inner T} {pending : Pending} {t : Machine T} (h : Opens x inner pending t) :
    ∀ base forwarded created value, pending = .create base forwarded created value → forwarded = inner.evm.gas.limit := by
  rintro base forwarded created value rfl
  cases h with
  | message _ h =>
    obtain ⟨_, _, _, _, _, hp⟩ := h.pending
    cases hp
  | creation _ _ h =>
    obtain ⟨_, hp⟩ := h.pending
    cases hp
    rfl

theorem wp_callFrame_spends (tracks : Tracks exec hist) (metered : Metered exec) (hs : Sound x.before)
    (hcall : x.op.isCall) (hg : guardStatic x.scope x.instruction x.before = .ok ⟨⟩ x.before) :
    wp (callFrame exec x.scope x.instruction) (CallCosts x) (fun f t => ∀ r, f = .report r → Reports x t) x.before := by
  have hopen := wp_def.1 (wp_openFrame hcall hg)
  have hgas := wp_def.1 (wp_openFrame_gas x hcall hs.paid)
  unfold callFrame
  rw [wp_bind]
  refine wp_def.2 ⟨fun o t ho => ?_, fun f t ho r hr => ⟨(hopen.2 _ _ ho r hr).limit, openedFrame_error hg ho⟩⟩
  have hopened := openedFrame_ok hcall hg ho
  cases o with
  | done gas =>
    obtain ⟨hdear, hanswer⟩ := (hgas.1 _ _ ho).1
    have hspent := hanswer.spent
    refine (wp_pure _).2 ⟨hanswer.paid, hanswer.core, hanswer.covered, by omega, fun _ _ _ h => ?_⟩
    rw [hopened] at h
    cases h
  | frame inner pending =>
    have hopens : Opens x inner pending t := hopen.1 _ _ ho
    obtain ⟨hcovered, hforwards⟩ := (hgas.1 _ _ ho).1
    have hremaining := remaining_of_core hcovered.core
    have hinner : Started (inner.machine t.ext) :=
      hopens.fresh.started (hforwards.free.trans hforwards.least) t.ext
    rw [wp_bind, wp_runInner]
    refine wp_def.2 ⟨fun ret i hrun => ?_, fun f i hrun r hr => absurd hr ((tracks.silent _).error hrun r)⟩
    obtain ⟨hused, hleft, hlimit⟩ := metered _ _ _ _ hinner.sound hrun
    have hlimit : i.evm.gas.limit = inner.evm.gas.limit := hlimit
    have hleft : 0 ≤ i.evm.gas.limit - i.evm.gas.used := hleft
    have hdear := hforwards.dear
    have hfits : i.evm.gas.used ≤ inner.evm.gas.limit := by omega
    have hpaid : Paid ({ t with ext := i.ext } : Machine T).evm := hcovered.paid
    have hgas := wp_closeFrame_gas x.scope x.instruction ⟨i.exe.tracer, ret, i.evm⟩ hopens.limit (by omega)
      (hforwards.free.trans hforwards.least) hused hfits hpaid
    have hext : t.ext.Extends i.ext := tracks.extends hopens.fresh hrun
    refine wp_mono (wp_and (wp_closeFrame hopens hs.stack rfl hext) hgas) (fun cost u ⟨_, hu⟩ => ?_)
      fun f u hf r hr => absurd hr (hf.1 r)
    have hmost : u.evm.gas.remaining - cost ≤ t.evm.gas.remaining - pending.base + pending.stipend := hu.most
    have hleast : t.evm.gas.remaining - pending.base - (inner.evm.gas.limit - pending.stipend) ≤
        u.evm.gas.remaining - cost := hu.least
    have hnonneg := hu.nonneg
    have hrepaid := hforwards.repaid
    have hmost' := hforwards.most
    have hcore : u.evm.core = { t.evm.core with used := u.evm.gas.used } := hu.core
    refine ⟨hu.paid, by rw [hcore, hcovered.core], by omega, by omega, fun inner' pending' opened' h => ?_⟩
    rw [hopened] at h
    cases h
    omega

theorem wp_opCall_spends (tracks : Tracks exec hist) (metered : Metered exec) (hs : Sound x.before)
    (hcall : x.op.isCall) :
    wp (opCall exec x.scope x.instruction) (Spends x) (fun f t => ∀ r, f = .report r → Reports x t) x.before := by
  refine wp_opCall_of (fun r hr _ _ => ⟨rfl, ?_⟩) fun hg => ?_
  · simp only [openedFrame, hr]
    split <;> rfl
  · refine wp_mono (wp_callFrame_spends tracks metered hs hcall hg) (fun gas t h => ?_) fun f t h => ⟨h, fun r hr => ?_⟩
    · have hcosts := h.costs hcall
      refine ⟨hcosts.limit, fun cost hcost => ?_, fun _ hhalt => (by cases hhalt)⟩
      cases hcost
      exact hcosts
    · exact ⟨(h r hr).limit, fun _ hcost => (by cases hcost), fun _ _ => (h r hr).unopened⟩

/-! ## A turn of the loop -/

theorem wp_executeInstruction_spends (tracks : Tracks exec hist) (metered : Metered exec) (hs : Sound x.before) :
    wp (executeInstruction exec x.scope x.instruction) (Spends x) (fun f t => ∀ r, f = .report r → Reports x t)
      x.before := by
  by_cases hcall : x.op.isCall = true
  · rw [executeInstruction_call hcall]
    exact wp_opCall_spends tracks metered hs hcall
  · exact wp_arm_spends hs (by simpa using hcall)

/-- The loop charges the cost, or takes all the gas there is: the cost was too much, or the
    instruction is INVALID, or it did not return one. -/
inductive Charges (instruction : Instruction) (r : Option StepResult) (s : Machine T) (o : Option Bytes) (t : Machine T) :
    Prop
  | charged (goes : GoesOn r s t) (valid : instruction.opcode.code ≠ 0xfe)
      (last : o = none ∨ instruction.opcode.code = 0xff)
  | drained (halts : o ≠ none) (used : t.evm.gas.used = t.evm.gas.limit)
      (why : ∀ cost, r = some (.ok cost) → instruction.opcode.code = 0xfe ∨ s.evm.gas.remaining < cost)

omit [Crypto] in
theorem wp_settleStep_gas (sc : Scope) (instruction : Instruction) (r : Option StepResult) (s : Machine T) :
    wp (settleStep sc instruction r) (Charges instruction r s) (fun _ _ => True) s := by
  have hhalt : ∀ (reason : HaltReason) (u : Machine T), u.evm.gas.used = u.evm.gas.limit →
      (∀ cost, r = some (.ok cost) → instruction.opcode.code = 0xfe ∨ s.evm.gas.remaining < cost) →
      wp (haltFrame sc reason) (Charges instruction r s) (fun _ _ => True) u := by
    intro reason u hu hwhy
    simp only [haltFrame, halted, wp_bind, wp_modify, wp_emit, wp_pure]
    exact .drained (Option.some_ne_none _) hu hwhy
  have hdrain : ∀ g : Gas, g.used + g.remaining = g.limit := fun g => by
    unfold Gas.remaining
    omega
  cases r with
  | none =>
    simp only [settleStep, halted, drainGas, wp_bind, wp_modify, wp_get, wp_emit, wp_pure]
    exact .drained (Option.some_ne_none _) (hdrain _) fun _ hcost => by cases hcost
  | some r =>
    cases r with
    | halt cost =>
      simp only [settleStep, halted, drainGas, wp_bind, wp_modify]
      refine wp_mono (settling_recordOp _ _ _ _ _) (fun _ u _ => ?_) fun _ _ _ => trivial
      rw [wp_bind, wp_modify]
      exact hhalt _ _ (hdrain _) fun _ hcost => by cases hcost
    | ok cost =>
      have hrecord : wp (recordOp sc instruction cost instruction.isCall) (fun _ u => u.evm.gas = s.evm.gas ∧
          u.evm = { s.evm with refund := u.evm.refund, gas := u.evm.gas }) (fun _ _ => True) s := by
        simp only [recordOp, wp_ite, wp_pure, wp_bind, wp_get, wp_modify, wp_emit]
        exact ⟨fun _ => ⟨trivial, trivial⟩, fun _ => ⟨trivial, trivial⟩⟩
      rw [settleStep, wp_bind]
      refine wp_mono hrecord (fun _ u hu => ?_) fun _ _ h => h
      simp only [wp_bind, wp_ite, drainGas, wp_modify, wp_attempt]
      refine ⟨fun hinv => hhalt _ _ (hdrain _) fun _ _ => .inl hinv, fun hvalid => ?_⟩
      simp only [takeGas, Evm.takeGas, wp_onEvm, wp_bind, wp_get, wp_modify, wp_ite, wp_pure, Solenoid.wp_error]
      refine ⟨fun hpaid => ?_, fun hshort => ⟨fun _ _ => hhalt _ _ (hdrain _) fun cost' hcost => ?_, fun _ => trivial⟩⟩
      · have hgoes : GoesOn (some (.ok cost)) s { u with evm.gas := (u.evm.gas.sub cost).1 } := by
          refine ⟨⟨cost, rfl, ?_⟩, ?_⟩
          · unfold Gas.sub at hpaid ⊢
            rw [hu.1] at hpaid ⊢
            split at hpaid
            · cases hpaid
            · next hle =>
              rw [if_neg hle]
              exact ⟨not_lt.1 hle, rfl⟩
          · rw [hu.2]
        split
        · next hcode => exact .charged hgoes hvalid (.inr hcode)
        · exact .charged hgoes hvalid (.inl rfl)
      · cases hcost
        right
        rw [hu.1] at hshort
        unfold Gas.sub at hshort
        split at hshort
        · next hlt => exact hlt
        · exact absurd rfl hshort

/-- What a turn of the loop leaves. -/
structure Turns (x : Step T) (o : Option Bytes) (t : Machine T) : Prop where
  limit : t.evm.gas.limit = x.before.evm.gas.limit
  used : 0 ≤ t.evm.gas.used
  covered : 0 ≤ t.evm.gas.remaining
  /-- A frame that it reverted, it halted. -/
  halts : o ≠ none → t.evm.reverted = true → t.evm.gas.used = t.evm.gas.limit
  sound : o = none → Sound t
  runs : o = none → t.evm.stopped = false → t.evm.gas.remaining < x.before.evm.gas.remaining
  pc : o = none → t.evm.stopped = false → x.op ≠ .jump → x.op ≠ .jumpi → t.evm.pc = x.before.evm.pc + 1
  forwarded : ∀ inner pending opened, openedFrame x.scope x.instruction x.before = some (inner, pending, opened) →
    t.evm.gas.used ≤ x.before.evm.gas.used + pending.base + (inner.evm.gas.limit - pending.stipend)

omit [Crypto] [EventTracer T] in
theorem lowOp_ne_invalid (v : Nat) : lowOp v ≠ .invalid := by
  unfold lowOp
  split <;> exact nofun

omit [Crypto] [EventTracer T] in
theorem op_of_invalid {instruction : Instruction} (h : instruction.opcode.code = 0xfe) : instruction.op = .invalid := by
  simp only [Instruction.op, Opcode.op, h]
  decide

omit [Crypto] [EventTracer T] in
theorem op_invalid {o : Opcode} (h : o.op = .invalid) : o.code = 0xfe := by
  unfold Opcode.op at h
  dsimp only at h
  split at h
  · exact absurd h (lowOp_ne_invalid _)
  · repeat' split at h
    all_goals try cases h
    unfold highOp at h
    split at h <;> cases h
    next hv => exact UInt8.toNat_inj.1 hv

/-- The charge of an instruction that returned its cost. -/
theorem Costs.turns {cost : Int} {t u : Machine T} {o : Option Bytes} (h : Costs x cost t) (hs : Sound x.before)
    (hlive : x.before.evm.stopped = false) (hgoes : GoesOn (some (.ok cost)) t u)
    (hinv : x.instruction.opcode.code ≠ 0xfe) (hend : o ≠ none → x.op.ends = false)
    (hstack : o = none → u.evm.stack.length ≤ stackLimit) : Turns x o u := by
  obtain ⟨⟨cost', hcost', hle, hgas⟩, hevm⟩ := hgoes
  obtain rfl : cost = cost' := by injection Option.some.inj hcost'
  have hcore : u.evm.core = { t.evm.core with used := t.evm.gas.used + cost } := by
    rw [hevm, hgas]
    rfl
  have hlimit : u.evm.gas.limit = x.before.evm.gas.limit := (congrArg Core.limit hcore).trans h.limit
  have hremaining : u.evm.gas.remaining = t.evm.gas.remaining - cost := by
    rw [hgas]
    unfold Gas.remaining
    dsimp only
    omega
  have hspent := h.spent
  have hcovered : 0 ≤ u.evm.gas.remaining := by omega
  have hused : 0 ≤ u.evm.gas.used := by
    have hbefore := hs.used
    unfold Gas.remaining at hremaining hspent
    omega
  have hop : x.op ≠ .invalid := fun hop => hinv (op_invalid hop)
  have hrev : x.before.evm.reverted = false := by
    cases hrev : x.before.evm.reverted
    · rfl
    · rw [hs.live hrev] at hlive
      cases hlive
  have hstop : u.evm.stopped = t.evm.stopped := congrArg Core.stopped hcore
  have hends : u.evm.stopped = false → x.op.ends = false := fun hu => by
    by_contra he
    rw [hstop, h.stops (by simpa using he)] at hu
    cases hu
  have hflag : u.evm.reverted = t.evm.reverted := congrArg Core.reverted hcore
  have hkeeps : x.op.ends = false → u.evm.reverted = false := fun he => by rw [hflag, (h.flags he).2, hrev]
  refine ⟨hlimit, hused, hcovered, fun ho hr => ?_, fun ho => ⟨?_, hused, hcovered, hstack ho, fun hr => ?_⟩,
    fun _ hu => ?_, fun _ hu hj hj' => ?_, fun inner pending opened ho => ?_⟩
  · rw [hkeeps (hend ho)] at hr
    cases hr
  · rw [hevm]
    exact ⟨h.paid.owing, h.paid.small⟩
  · by_contra hu
    rw [hkeeps (hends (by simpa using hu))] at hr
    cases hr
  · have hruns := h.runs (hends hu) hop
    omega
  · exact (congrArg Core.pc hcore).trans (h.pc (hends hu) hj hj')
  · have hforwarded := h.forwarded _ _ _ ho
    unfold Gas.remaining at hforwarded hremaining
    omega

/-- An exceptional halt takes all the gas. -/
theorem drained_turns {u : Machine T} {o : Option Bytes} (hs : Sound x.before) (halts : o ≠ none)
    (used : u.evm.gas.used = u.evm.gas.limit) (hlimit : u.evm.gas.limit = x.before.evm.gas.limit)
    (hnone : ∀ inner pending opened, openedFrame x.scope x.instruction x.before ≠ some (inner, pending, opened)) :
    Turns x o u := by
  have hbefore := hs.used
  have hcovered := hs.covered
  unfold Gas.remaining at hcovered
  refine ⟨hlimit, by omega, by unfold Gas.remaining; omega, fun _ _ => used, fun ho => absurd ho halts,
    fun ho => absurd ho halts, fun ho => absurd ho halts, fun _ _ _ ho => absurd ho (hnone _ _ _)⟩

theorem wp_executeStep_gas (tracks : Tracks exec hist) (metered : Metered exec) (hs : Sound x.before)
    (hlive : x.before.evm.stopped = false) :
    wp (executeStep exec x.scope x.instruction) (Turns x) (fun _ _ => True) x.before := by
  have hstack := wp_executeStep tracks hs.stack
  unfold executeStep at hstack ⊢
  rw [wp_bind, wp_attempt] at hstack ⊢
  refine wp_mono (wp_and (wp_executeInstruction_spends tracks metered hs) hstack) (fun r t ⟨hspends, hturned⟩ => ?_)
    fun f t ⟨hreports, hturned⟩ => ⟨fun r hr => ?_, fun _ => trivial⟩
  · refine wp_mono (wp_and (wp_settleStep_gas x.scope x.instruction (some r) t)
      (wp_and (settling_settleStep x.scope x.instruction (some r) t) hturned)) (fun o u ⟨hcharges, hsettled, hturn⟩ => ?_)
      fun _ _ _ => trivial
    cases hcharges with
    | charged goes valid last =>
      obtain ⟨cost, hcost, -⟩ := goes.cost
      cases hcost
      refine (hspends.costs cost rfl).turns hs hlive goes valid (fun ho => ?_) hturn.stack
      have hop : x.op = .selfdestruct := op_selfdestruct (last.resolve_left ho)
      rw [hop]
      rfl
    | drained halts used why =>
      refine drained_turns hs halts used (hsettled.limit.trans hspends.limit) fun inner pending opened ho => ?_
      cases r with
      | halt cost => rw [hspends.halts cost rfl] at ho; cases ho
      | ok cost =>
        have hforwards := (opened_forwards hs.paid ho).1
        have hforwarded := (hspends.costs cost rfl).forwarded _ _ _ ho
        have hmost := hforwards.most
        rcases why cost rfl with hinv | hshort
        · have hcall : x.op.isCall = true := (openedFrame_some ho).1
          rw [show x.op = .invalid from op_of_invalid hinv] at hcall
          cases hcall
        · omega
  · subst hr
    have hreports := hreports r rfl
    refine wp_mono (wp_and (wp_settleStep_gas x.scope x.instruction none t)
      (settling_settleStep x.scope x.instruction none t)) (fun o u ⟨hcharges, hsettled⟩ => ?_) fun _ _ _ => trivial
    cases hcharges with
    | charged goes valid last =>
      obtain ⟨cost, hcost, -⟩ := goes.cost
      cases hcost
    | drained halts used why =>
      refine drained_turns hs halts used (hsettled.limit.trans hreports.limit) fun inner pending opened ho => ?_
      rw [hreports.unopened] at ho
      cases ho

/-! ## Whole runs -/

omit [Crypto] in
theorem steady_finishFrame (sc : Scope) : Keeps steady (finishFrame sc : M T Bytes) := by
  refine Keeps.get.bind fun _ => ?_
  refine (Keeps.ite (fun _ => steady_emit _ _ _) fun _ => .pure _).bind fun _ => ?_
  refine Keeps.get.bind fun _ => ?_
  exact .pure _

/-- A frame whose loop is metered is metered; one that is too deep uses nothing. -/
theorem frame_metered {loop : Exec T} (h : Metered loop) : Metered (frameWith loop) := by
  intro sc s ret t hs hrun
  obtain ⟨_, u, he, hrest⟩ := bind_ok hrun
  obtain ⟨hu, hcore⟩ := sound_enterFrame hs he
  have hlimit : u.evm.gas.limit = s.evm.gas.limit := congrArg Core.limit hcore
  split at hrest
  · cases hrest
    exact ⟨hu.used, hu.covered, hlimit⟩
  · obtain ⟨hused, hcovered, hlimit'⟩ := h sc u ret t hu hrest
    exact ⟨hused, hcovered, hlimit'.trans hlimit⟩

theorem loop_metered (fuel : Nat) : Metered (executeLoop fuel : Exec T) := by
  induction fuel with
  | zero => exact fun _ _ _ _ _ hrun => (nomatch hrun)
  | succ fuel ih =>
    intro sc s ret t hs hrun
    cases hi : currentInstruction sc s.evm with
    | none =>
      rw [executeLoop_done hi] at hrun
      have hsteady : Steady s t := (steady_finishFrame sc).ok hrun
      refine ⟨?_, ?_, congrArg Core.limit hsteady.core⟩
      · rw [show t.evm.gas.used = s.evm.gas.used from congrArg Core.used hsteady.core]
        exact hs.used
      · rw [remaining_of_core hsteady.core]
        exact hs.covered
    | some instruction =>
      have hlive : s.evm.stopped = false := by
        unfold currentInstruction at hi
        by_contra hstop
        simp [hstop] at hi
      rw [executeLoop_step hi] at hrun
      cases he : executeStep (executeWithContext fuel) sc instruction s with
      | error f u =>
        rw [he] at hrun
        cases hrun
      | ok o u =>
        rw [he] at hrun
        have hturns : Turns ⟨sc, instruction, s⟩ o u :=
          (of_ok (wp_executeStep_gas (x := ⟨sc, instruction, s⟩) (tracks_run fuel) (frame_metered ih) hs hlive) he :)
        cases o with
        | none =>
          obtain ⟨hused, hcovered, hlimit⟩ := ih _ _ _ _ (hturns.sound rfl) hrun
          exact ⟨hused, hcovered, hlimit.trans hturns.limit⟩
        | some out =>
          cases hrun
          exact ⟨hturns.used, hturns.covered, hturns.limit⟩

theorem run_metered (fuel : Nat) : Metered (executeWithContext fuel : Exec T) := frame_metered (loop_metered fuel)

omit [Crypto] [EventTracer T] in
theorem currentInstruction_live {sc : Scope} {e : Evm} {instruction : Instruction}
    (h : currentInstruction sc e = some instruction) : e.stopped = false := by
  unfold currentInstruction at h
  by_contra hstop
  simp [hstop] at h

/-- A turn of a frame in a sound state. -/
theorem Sound.turns {fuel : Nat} {sc : Scope} {s t : Machine T} {instruction : Instruction} {o : Option Bytes}
    (hs : Sound s) (hi : currentInstruction sc s.evm = some instruction)
    (hstep : executeStep (executeWithContext fuel) sc instruction s = .ok o t) : Turns ⟨sc, instruction, s⟩ o t :=
  (of_ok (wp_executeStep_gas (x := ⟨sc, instruction, s⟩) (tracks_run fuel) (run_metered fuel) hs
    (currentInstruction_live hi)) hstep :)

/-- Every frame of the call tree is sound between its instructions. -/
theorem Reaches.sound {sc₀ sc : Scope} {s₀ s : Machine T} (h : Reaches sc₀ s₀ sc s) (hs : Started s₀) : Sound s := by
  induction h with
  | start enters _ => exact (sound_enterFrame hs.sound enters).1
  | turn h current step ih => exact (ih.turns current step).sound rfl
  | inner h current opens enters _ ih =>
    obtain ⟨hforwards, -⟩ := opened_forwards (x := ⟨_, _, _⟩) ih.paid opens
    have hopens := opens_of_openedFrame (x := ⟨_, _, _⟩) opens
    have hstarted := hopens.fresh.started (hforwards.free.trans hforwards.least)
    exact (sound_enterFrame (hstarted _).sound enters).1

/-- Gas is bounded across frames: between any two instructions of any frame of the call tree
    it has used no more than its limit; a frame that an instruction reverts has used it all; an
    inner frame gets at most what the base cost leaves its caller and, with a value, the stipend;
    and after it the caller has paid no more than the base cost and the gas it forwarded. -/
theorem gas_bounded {sc₀ sc : Scope} {s₀ s : Machine T} (hs₀ : Started s₀) (h : Reaches sc₀ s₀ sc s) :
    (0 ≤ s.evm.gas.used ∧ s.evm.gas.used ≤ s.evm.gas.limit) ∧
    ∀ instruction, currentInstruction sc s.evm = some instruction →
      (∀ fuel o t, executeStep (executeWithContext fuel) sc instruction s = .ok o t →
        (0 ≤ t.evm.gas.used ∧ t.evm.gas.used ≤ t.evm.gas.limit) ∧
        (o ≠ none → t.evm.reverted = true → t.evm.gas.used = t.evm.gas.limit)) ∧
      ∀ inner pending opened, openedFrame sc instruction s = some (inner, pending, opened) →
        (0 ≤ inner.evm.gas.limit ∧ inner.evm.gas.limit ≤
          s.evm.gas.remaining - pending.base + (⟨sc, instruction, s⟩ : Step T).stipend) ∧
        ∀ fuel o t, executeStep (executeWithContext fuel) sc instruction s = .ok o t →
          t.evm.gas.used ≤ s.evm.gas.used + pending.base +
            (inner.evm.gas.limit - (⟨sc, instruction, s⟩ : Step T).stipend) := by
  have hs := h.sound hs₀
  have hcovered := hs.covered
  unfold Gas.remaining at hcovered
  refine ⟨⟨hs.used, by omega⟩, fun instruction hi => ⟨fun fuel o t hstep => ?_, fun inner pending opened ho => ?_⟩⟩
  · have hturns := hs.turns hi hstep
    have hcovered := hturns.covered
    unfold Gas.remaining at hcovered
    exact ⟨⟨hturns.used, by omega⟩, hturns.halts⟩
  · obtain ⟨hforwards, -, hstipend⟩ := opened_forwards (x := ⟨sc, instruction, s⟩) hs.paid ho
    rw [← hstipend]
    refine ⟨⟨hforwards.free.trans hforwards.least, hforwards.most⟩, fun fuel o t hstep => ?_⟩
    exact (hs.turns hi hstep).forwarded _ _ _ ho

end

namespace Sample

/-- Account 0xaa calls account 0xbb, with all the gas it may pass on. -/
def caller : Bytes := [0x5f, 0x5f, 0x5f, 0x5f, 0x5f, 0x60, 0xbb, 0x5a, 0xf1]

/-- What is called is a JUMPDEST. -/
def callerMachine : Machine NoopTracer := machine [(0xaa, 0, caller), (0xbb, 0, [0x5b])]

theorem started_callerMachine : Started callerMachine := ⟨rfl, rfl, rfl, rfl, by decide, rfl⟩

/-- The instruction of the inner frame. -/
theorem callerMachine_inner :
    ∃ x ∈ (history 12 (scope caller) callerMachine).steps, x.scope.ctx.depth = 2 ∧ x.op = .jumpdest := by
  have h : ((history 12 (scope caller) callerMachine).steps.find? fun x =>
      decide (x.scope.ctx.depth = 2 ∧ x.op = .jumpdest)).isSome = true := by decide +kernel
  obtain ⟨x, hx⟩ := Option.isSome_iff_exists.1 h
  exact ⟨x, List.mem_of_find?_eq_some hx, by simpa using List.find?_some hx⟩

end Sample

open Sample in
theorem gas_bounded_inner : ∃ x ∈ (history 12 (scope caller) callerMachine).steps, x.scope.ctx.depth = 2 ∧
    0 ≤ x.before.evm.gas.used ∧ x.before.evm.gas.used ≤ x.before.evm.gas.limit := by
  obtain ⟨x, hx, hdepth, -⟩ := callerMachine_inner
  exact ⟨x, hx, hdepth, (gas_bounded started_callerMachine (reaches_history hx).1).1⟩

end Solenoid
