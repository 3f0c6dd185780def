/-
  Solenoid.Forwarding — what a call or a creation costs, and the gas it gives its frame.

  Before the frame the caller's gas covers the base cost, and the frame is given no more
  than what that leaves and the stipend (`Forwards`). After it the caller has paid the base
  cost and what the frame used, less the stipend (`ClosesAt`). A precompile takes its price
  at once; the refusal of an oversized MODEXP gives 1 back.
-/
import Solenoid.Costs
import Solenoid.Numbers
import Solenoid.Replies

namespace Solenoid

open Hoare

variable {T α : Type}

/-! ## What a frame is opened with -/

/-- A value that moves with a call gives its callee 2300 of gas that the caller does not pay. -/
def Step.stipend (x : Step T) : Int := if x.op.isMessageCall ∧ x.value ≠ 0 then 2300 else 0

namespace Pending

/-- What the instruction costs besides the gas its frame uses. -/
def base : Pending → Int
  | .call gas .. => gas
  | .create baseCost .. => baseCost

def stipend : Pending → Int
  | .call _ _ _ stipend _ => stipend
  | .create .. => 0

end Pending

/-- The base cost is covered, and the frame gets no more than what it leaves and the stipend. -/
structure Forwards (left base stipend limit : Int) : Prop where
  dear : 100 ≤ base
  free : 0 ≤ stipend
  repaid : stipend < base
  covered : base ≤ left
  least : stipend ≤ limit
  most : limit ≤ left - base + stipend

theorem callGas_forwards (sc : Scope) (a : CallArgs) {base left : Int} (hbase : 100 ≤ base)
    (hleft : (callGas sc a base left).base ≤ left) :
    Forwards left (callGas sc a base left).base (callGas sc a base left).stipend (callGas sc a base left).forwarded := by
  by_cases hm : sc.ctx.movesValue = true ∧ a.value ≠ 0
  · simp only [callGas, if_pos hm] at hleft ⊢
    refine ⟨?_, ?_, ?_, ?_, ?_, ?_⟩ <;> omega
  · simp only [callGas, if_neg hm] at hleft ⊢
    refine ⟨?_, ?_, ?_, ?_, ?_, ?_⟩ <;> omega

section Calls

variable [Crypto]

omit [Crypto] in
theorem steady_callArgs (sc : Scope) : Keeps steady (callArgs sc : M T CallArgs) := by
  refine steady_pop.bind fun _ => ?_
  refine steady_pop.bind fun _ => ?_
  refine (Keeps.ite (fun _ => steady_pop) fun _ => .pure _).bind fun _ => ?_
  refine steady_popUsize.bind fun _ => ?_
  refine steady_popUsize.bind fun _ => ?_
  refine steady_popUsize.bind fun _ => ?_
  refine steady_popUsize.bind fun _ => ?_
  exact .pure _

omit [Crypto] in
theorem wp_callMemory (a : CallArgs) {s : Machine T} (hs : Paid s.evm) :
    wp (callMemory a) (fun cost t => 0 ≤ cost ∧ Covered s t) (fun _ _ => True) s := by
  unfold callMemory
  refine (grows (steady_lift _)).step (fun _ _ _ => trivial) fun _ t _ ht => ?_
  refine (grows (steady_lift _)).step (fun _ _ _ => trivial) fun _ u _ hu => ?_
  refine (growing_expandTo _).step (fun _ _ _ => trivial) fun _ v _ hv => ?_
  have hv : Growing s v := growing.trans (growing.trans ht hu) hv
  refine wp_memoryExpansionCost (hv.owing hs.owing) (fun _ => trivial) fun cost w hcost hw => ⟨hcost, ?_⟩
  exact ⟨hw.paid, hw.core.trans hv.core⟩

theorem wp_callCreateCost (a : CallArgs) (s : Machine T) :
    wp (callCreateCost a) (fun cost t => 0 ≤ cost ∧ Steady s t) (fun _ _ => True) s := by
  unfold callCreateCost
  rw [wp_ite]
  refine ⟨fun _ => (wp_pure _).2 ⟨le_rfl, rfl, rfl, rfl⟩, fun _ => ?_⟩
  refine (steady_onExt _).step (fun _ _ _ => trivial) fun isEmpty t _ ht => (wp_pure _).2 ⟨?_, ht⟩
  split <;> omega

theorem wp_callTarget (address : Address) (s : Machine T) :
    wp (callTarget address) (fun target t => 100 ≤ target.accessCost ∧ Steady s t) (fun _ _ => True) s := by
  unfold callTarget
  refine (steady_touchCode address).step (fun _ _ _ => trivial) fun code t _ ht => ?_
  rw [wp_bind]
  refine wp_mono (accessCost_pos address t) (fun cost u hu => ?_) fun _ _ h => h
  have hu' : Steady s u := steady.trans ht hu.2
  split
  · exact (wp_pure _).2 ⟨hu.1, hu'⟩
  · next target _ =>
    refine (steady_touchCode target).step (fun _ _ _ => trivial) fun targetCode v _ hv => ?_
    rw [wp_bind]
    refine wp_mono (accessCost_pos target v) (fun targetCost w hw => (wp_pure _).2 ⟨?_, ?_⟩) fun _ _ h => h
    · have := hu.1
      have := hw.1
      show 100 ≤ cost + 100 + (targetCost - 100)
      omega
    · exact steady.trans hu' (steady.trans hv hw.2)

/-! ## The precompiles -/

end Calls

namespace Precompiles

theorem bitLen_le (b : Bytes) : bitLen b ≤ 8 * b.length := by
  induction b with
  | nil => exact le_rfl
  | cons byte rest ih =>
    unfold bitLen
    rw [List.length_cons]
    split <;> omega

theorem modexpIterationCount_le (input : Bytes) (baseLen : Nat) {expLen : Nat} (h : expLen ≤ 1024) :
    modexpIterationCount input baseLen expLen ≤ 2 ^ 15 := by
  have hfield : ∀ start len, (field input start len).length ≤ len := by
    intro start len
    unfold field
    rw [List.length_take]
    omega
  have hbits : ∀ start len, bitLen (field input start len) ≤ 8 * len := fun start len =>
    (bitLen_le _).trans (Nat.mul_le_mul_left 8 (hfield start len))
  unfold modexpIterationCount
  split
  · have := hbits (96 + baseLen) expLen
    dsimp only
    split <;> omega
  · split
    · split
      · have := hbits (96 + baseLen) 32
        omega
      · omega
    · omega

theorem modexpGasCost_cases (input : Bytes) : modexpGasCost input < 2 ^ 63 ∨ modexpGasCost input = 2 ^ 64 - 1 := by
  unfold modexpGasCost
  split
  · exact .inl (by decide)
  · dsimp only
    split
    · exact .inr rfl
    · next hlen =>
      left
      have hwords : divCeil (max (declaredLen input 0) (declaredLen input 64)) 8 ≤ 128 := by
        have h := divCeil_mono (show max (declaredLen input 0) (declaredLen input 64) ≤ 1024 by
          unfold modexpMaxInputLen at hlen
          omega) 8
        exact h
      have hcount : max (modexpIterationCount input (declaredLen input 0) (declaredLen input 32)) 1 ≤ 2 ^ 15 := by
        have h := modexpIterationCount_le input (declaredLen input 0) (show declaredLen input 32 ≤ 1024 by
          unfold modexpMaxInputLen at hlen
          omega)
        omega
      have hprice := Nat.mul_le_mul (Nat.mul_le_mul hwords hwords) hcount
      omega

/-- A precompile gives back no more than 1: what it does is refuse an oversized MODEXP. -/
theorem gasCost_least (address : Address) {input : Bytes} (h : input.length < 2 ^ 37) : -1 ≤ gasCost address input := by
  have hwords : divCeil input.length 32 ≤ input.length := by
    unfold divCeil
    omega
  have hround : blake2fGasCost input < 2 ^ 63 := by
    unfold blake2fGasCost
    split
    · decide
    · have hlt := natOfBytes_lt (field input 0 4)
      have hlen : (field input 0 4).length ≤ 4 := by
        unfold field
        rw [List.length_take]
        omega
      have hpow : 256 ^ (field input 0 4).length ≤ 256 ^ 4 := Nat.pow_le_pow_right (by decide) hlen
      unfold fieldNat
      omega
  have hsmall : ∀ n : Nat, n < 2 ^ 63 ∨ n = 2 ^ 64 - 1 → -1 ≤ usizeAsI64 n := by
    intro n hn
    unfold usizeAsI64
    split <;> omega
  unfold gasCost
  split
  · decide
  · apply hsmall
    split
    case h_5 => exact modexpGasCost_cases input
    case h_9 => exact .inl hround
    all_goals
      left
      omega

end Precompiles

/-! ## Opening and closing a frame -/

section Frames

variable [Crypto] [EventTracer T] (sc : Scope) (instruction : Instruction)

omit [Crypto] in
theorem steady_emitCall (depth : Nat) (cost : Int) : Keeps steady (emitCall depth instruction cost : M T Unit) :=
  Keeps.get.bind fun _ => steady_emit _ _ _

omit [Crypto] [EventTracer T] in
/-- A charge that is covered. -/
theorem wp_takeGas (cost : Int) {s : Machine T} :
    wp (takeGas cost) (fun _ t => cost ≤ s.evm.gas.remaining ∧
        t = { s with evm.gas.used := s.evm.gas.used + cost }) (fun _ _ => True) s := by
  simp only [takeGas, Evm.takeGas, wp_onEvm, wp_bind, wp_get, wp_modify, wp_ite, wp_pure, Solenoid.wp_error,
    implies_true, and_true]
  unfold Gas.sub
  split
  · exact fun h => (by cases h)
  · next h => exact fun _ => ⟨not_lt.1 h, rfl⟩

omit [EventTracer T] in
theorem steady_runPrecompile (address : Address) (data : Bytes) :
    Keeps steady (runPrecompile address data : M T Word) := by
  unfold runPrecompile
  split
  · exact (steady_setRet _).bind fun _ => .pure _
  · exact .pure _
  · exact .throw fun _ => trivial

/-- What a call to a precompile leaves: it may have been given 1 back. -/
structure Answering (s t : Machine T) : Prop where
  paid : Paid t.evm
  core : t.evm.core = { s.evm.core with used := t.evm.gas.used }
  covered : 0 ≤ t.evm.gas.remaining
  spent : t.evm.gas.remaining ≤ s.evm.gas.remaining + 1

omit [Crypto] [EventTracer T] in
theorem Answering.after {s t u : Machine T} (h : Answering t u) (hcore : t.evm.core = s.evm.core) : Answering s u := by
  have hspent := h.spent
  rw [remaining_of_core hcore] at hspent
  exact ⟨h.paid, by rw [h.core, hcore], h.covered, hspent⟩

theorem wp_callPrecompile_gas (a : CallArgs) {data : Bytes} (traceCost : Int) {s : Machine T} (hs : Paid s.evm)
    (hdata : data.length < 2 ^ 37) :
    wp (callPrecompile sc instruction a data traceCost) (fun _ => Answering s) (fun _ _ => True) s := by
  unfold callPrecompile
  refine (steady_runPrecompile _ _).step (fun _ _ _ => trivial) fun result t _ ht => ?_
  refine (steady_emitCall _ _ _).step (fun _ _ _ => trivial) fun _ u _ hu => ?_
  refine (steady_readMemory _ _).step (fun _ _ _ => trivial) fun _ v _ hv => ?_
  rw [wp_bind, wp_get]
  refine (steady_writeMemory _ _).step (fun _ _ _ => trivial) fun _ w _ hw => ?_
  refine (steady_push result).step (fun _ _ _ => trivial) fun _ y _ hy => ?_
  have hsteady : Steady s y := steady.trans ht (steady.trans hu (steady.trans hv (steady.trans hw hy)))
  have hleast := Precompiles.gasCost_least a.address hdata
  refine wp_mono (wp_takeGas _) (fun _ z ⟨hcost, hz⟩ => ?_) fun _ _ h => h
  have hremaining := remaining_of_core hsteady.core
  have hafter : z.evm.gas.remaining = y.evm.gas.remaining - Precompiles.gasCost a.address data := by
    rw [hz]
    show y.evm.gas.limit - (y.evm.gas.used + _) = y.evm.gas.limit - y.evm.gas.used - _
    omega
  have hpaid := hsteady.paid hs
  refine ⟨?_, ?_, by omega, by omega⟩
  · rw [hz]
    exact ⟨hpaid.owing, hpaid.small⟩
  · rw [← hsteady.core, hz]
    rfl

omit [Crypto] [EventTracer T] in
/-- The data of a call was in memory. -/
theorem wp_callData_length (a : CallArgs) {s : Machine T} (hs : Paid s.evm) :
    wp (callData a) (fun data t => t = s ∧ data.length < 2 ^ 37) (fun _ _ => True) s := by
  have hlen := hs.length
  simp only [callData, readMemory, wp_ite, wp_bind, wp_get, wp_lift, wp_pure, implies_true, and_true, true_and]
  refine ⟨fun _ data hd => ?_, fun _ => by decide⟩
  obtain ⟨-, -, rfl⟩ := slice_ok hd
  rw [List.length_take, List.length_drop]
  omega

omit [Crypto] in
theorem steady_moveValue (depth : Nat) (src dst : Address) (srcBalance dstBalance value : Word) :
    Keeps steady (moveValue depth src dst srcBalance dstBalance value : M T Unit) := by
  refine (steady_lift _).bind fun _ => ?_
  refine (steady_onExt _).bind fun _ => ?_
  refine (steady_touch _).bind fun _ => ?_
  refine (steady_emit _ _ _).bind fun _ => ?_
  refine (steady_lift _).bind fun _ => ?_
  refine (steady_onExt _).bind fun _ => ?_
  refine (steady_touch _).bind fun _ => ?_
  exact steady_emit _ _ _

theorem steady_callTransfer (a : CallArgs) : Keeps steady (callTransfer sc a : M T Unit) := by
  refine (steady_onExt _).bind fun _ => ?_
  refine (steady_onExt _).bind fun _ => ?_
  exact .ite (fun _ => steady_moveValue _ _ _ _ _ _) fun _ => .pure _

/-- What the part before the frame costs. -/
def OpensAt (s : Machine T) : Opened T → Machine T → Prop
  | .done cost, t => 100 ≤ cost ∧ Answering s t
  | .frame inner pending, t => Covered s t ∧
    Forwards s.evm.gas.remaining pending.base pending.stipend inner.evm.gas.limit

theorem wp_callEnter_gas (a : CallArgs) (target : Target) {gas : CallGas} {s : Machine T} (hs : Paid s.evm)
    (hgas : Forwards s.evm.gas.remaining gas.base gas.stipend gas.forwarded) :
    wp (callEnter sc instruction a target gas)
      (fun o t => OpensAt s o t ∧ ∀ inner pending, o = .frame inner pending → pending.stipend = gas.stipend)
      (fun _ _ => True) s := by
  unfold callEnter
  rw [wp_bind]
  refine wp_mono (wp_callData_length a hs) (fun data t ⟨ht, hdata⟩ => ?_) fun _ _ h => h
  subst ht
  rw [wp_ite]
  refine ⟨fun _ => ?_, fun _ => ?_⟩
  · rw [wp_bind]
    refine wp_mono (wp_callPrecompile_gas sc instruction a _ hs hdata) (fun _ u hu => ?_) fun _ _ h => h
    exact (wp_pure _).2 ⟨⟨hgas.dear, hu⟩, fun _ _ h => (nomatch h)⟩
  · refine (steady_callTransfer sc a).step (fun _ _ _ => trivial) fun _ u _ hu => ?_
    refine (steady_emit _ _ _).step (fun _ _ _ => trivial) fun _ v _ hv => ?_
    rw [wp_bind]
    refine wp_mono (wp_newFrame _ _) (fun inner w hw => (wp_pure _).2 ?_) fun _ _ h => h.elim
    obtain ⟨rfl, -, -, hlimit⟩ := hw
    refine ⟨⟨(steady.trans hu hv).covered hs, ?_⟩, fun _ _ h => ?_⟩
    · rw [hlimit]
      exact hgas
    · cases h
      rfl

end Frames

/-- The operands decide whether a stipend is due. -/
theorem callArgs_stipend {x : Step T} (hop : x.op.isMessageCall) {a : CallArgs} {s : Machine T}
    (h : callArgs (x.scope.inContext x.op) x.before = .ok a s) (base left : Int) :
    (callGas (x.scope.inContext x.op) a base left).stipend = x.stipend := by
  have hargs := callArgs_ok _ h
  have hmoves : (x.scope.inContext x.op).ctx.movesValue = decide (x.op = .call ∨ x.op = .callcode) :=
    movesValue_callContext _ hop
  unfold callGas Step.stipend
  by_cases hv : x.op = .call ∨ x.op = .callcode
  · have hvalue : x.value = a.value := by
      rw [(hargs.moving (by simp [hmoves, hv])).1]
      rcases hv with h | h <;> simp only [Step.value, h, Step.operand]
    simp only [hop, true_and, hvalue, hmoves, hv, decide_true]
  · have hvalue : x.value = 0 := by
      unfold Step.value
      cases h : x.op <;> simp_all [Op.isMessageCall]
    simp [hvalue, hmoves, hv]

section Opening

variable [Crypto] [EventTracer T]

theorem wp_callOpen_gas (x : Step T) (hop : x.op.isMessageCall) (hs : Paid x.before.evm) :
    wp (callOpen (x.scope.inContext x.op) x.instruction)
      (fun o t => OpensAt x.before o t ∧ ∀ inner pending, o = .frame inner pending → pending.stipend = x.stipend)
      (fun _ _ => True) x.before := by
  unfold callOpen
  refine (steady_callArgs _).step (fun _ _ _ => trivial) fun a t hargs ht => ?_
  rw [wp_bind]
  refine wp_mono (wp_callMemory a (ht.paid hs)) (fun memory u ⟨hmemory, hu⟩ => ?_) fun _ _ h => h
  rw [wp_bind]
  refine wp_mono (wp_callCreateCost a u) (fun create v ⟨hcreate, hv⟩ => ?_) fun _ _ h => h
  rw [wp_bind]
  refine wp_mono (wp_callTarget a.address v) (fun target w ⟨htarget, hw⟩ => ?_) fun _ _ h => h
  have hcovered : Covered x.before w :=
    (ht.covered hs).trans (hu.trans ((steady.trans hv hw).covered hu.paid))
  rw [wp_bind, wp_remaining, wp_ite]
  refine ⟨fun _ => ?_, fun hleft => ?_⟩
  · exact wp_mono (wp_callOutOfGas (P := fun _ => True) _ _) (fun _ _ h => h.elim) fun _ _ _ => trivial
  · have hgas := callGas_forwards (x.scope.inContext x.op) a
      (show 100 ≤ target.accessCost + memory + create by omega) (not_lt.1 hleft)
    refine wp_mono (wp_callEnter_gas _ _ a target hcovered.paid hgas) (fun o z ⟨hz, hstipend⟩ => ?_) fun _ _ h => h
    rw [callArgs_stipend hop hargs] at hstipend
    refine ⟨?_, hstipend⟩
    cases o with
    | done cost =>
      exact ⟨hz.1, hz.2.after hcovered.core⟩
    | frame inner pending => exact ⟨hcovered.trans hz.1, remaining_of_core hcovered.core ▸ hz.2⟩

omit [Crypto] [EventTracer T] in
theorem wp_initCode (offset size : Nat) {s : Machine T} (hs : Paid s.evm) :
    wp (initCode offset size) (fun code t => 0 ≤ code.2 ∧ Covered s t) (fun _ _ => True) s := by
  unfold initCode
  refine (grows (steady_lift _)).step (fun _ _ _ => trivial) fun till t _ ht => ?_
  refine (growing_expandTo _).step (fun _ _ _ => trivial) fun _ u _ hu => ?_
  have hu : Growing s u := growing.trans ht hu
  rw [wp_bind]
  refine wp_memoryExpansionCost (hu.owing hs.owing) (fun _ => trivial) fun cost v hcost hv => ?_
  refine (steady_readMemory _ _).step (fun _ _ _ => trivial) fun code w _ hw => (wp_pure _).2 ⟨hcost, ?_⟩
  exact ⟨hw.paid hv.paid, hw.core.trans (hv.core.trans hu.core)⟩

theorem steady_bumpNonce (depth : Nat) (this : Address) : Keeps steady (bumpNonce depth this : M T Word) := by
  refine (steady_onExt _).bind fun _ => ?_
  refine (steady_lift _).bind fun _ => ?_
  refine (steady_onExt _).bind fun _ => ?_
  refine (steady_lift _).bind fun _ => ?_
  refine (steady_lift _).bind fun _ => ?_
  refine (steady_touch _).bind fun _ => ?_
  refine (steady_emit _ _ _).bind fun _ => ?_
  exact .pure _

omit [Crypto] [EventTracer T] in
theorem steady_openAccount (created : Address) : Keeps steady (openAccount created : M T Unit) := by
  refine (steady_modify ?_).bind fun _ => (steady_warmTouch created).bind fun _ => steady_modify ?_
  all_goals exact fun _ => ⟨rfl, rfl, rfl⟩

omit [Crypto] in
theorem wp_createEnter_gas (sc : Scope) (code : Bytes) {base : Int} (created : Address) (value : Word) {s : Machine T}
    (hs : Paid s.evm) (hbase : 100 ≤ base) :
    wp (createEnter sc code base created value) (OpensAt s) (fun _ _ => True) s := by
  simp only [createEnter, wp_bind, wp_remaining, wp_ite, wp_throw, implies_true, true_and]
  intro hleft
  refine wp_mono (wp_newFrame _ _) (fun inner t ht => (wp_pure _).2 ?_) fun _ _ h => h.elim
  obtain ⟨rfl, -, -, hlimit⟩ := ht
  refine ⟨⟨hs, rfl⟩, ?_⟩
  rw [hlimit]
  refine ⟨hbase, le_rfl, ?_, ?_, ?_, ?_⟩ <;> simp only [Pending.base, Pending.stipend] <;> omega

theorem wp_createOpen_gas (sc : Scope) {s : Machine T} (hs : Paid s.evm) :
    wp (createOpen sc) (OpensAt s) (fun _ _ => True) s := by
  unfold createOpen
  refine steady_pop.step (fun _ _ _ => trivial) fun value t₁ _ h₁ => ?_
  refine steady_popUsize.step (fun _ _ _ => trivial) fun offset t₂ _ h₂ => ?_
  refine steady_popUsize.step (fun _ _ _ => trivial) fun size t₃ _ h₃ => ?_
  have hsalt : Keeps steady (popSalt (sc.ctx.callType == .create2) : M T Word) :=
    .ite (fun _ => steady_pop) fun _ => .pure _
  refine hsalt.step (fun _ _ _ => trivial) fun salt t₄ _ h₄ => ?_
  have hpops : Covered s t₄ := (steady.trans h₁ (steady.trans h₂ (steady.trans h₃ h₄)) : Steady s t₄).covered hs
  rw [wp_bind]
  refine wp_mono (wp_initCode offset size hpops.paid) (fun code t ⟨hcode, ht⟩ => ?_) fun _ _ h => h
  have ht := hpops.trans ht
  refine (steady_bumpNonce _ _).step (fun _ _ _ => trivial) fun nonce u _ hu => ?_
  refine (steady_openAccount _).step (fun _ _ _ => trivial) fun _ v _ hv => ?_
  have hv : Covered s v := ht.trans ((steady.trans hu hv : Steady t v).covered ht.paid)
  have hbase : 100 ≤ code.2 + 32000 +
      (2 * (divCeil code.1.length 32 : Int) + if sc.ctx.callType == .create2 then 6 *
        (divCeil code.1.length 32 : Int) else 0) := by
    split <;> omega
  refine wp_mono (wp_createEnter_gas sc code.1 _ value hv.paid hbase) (fun o w hw => ?_) fun _ _ h => h
  cases o with
  | done cost => exact ⟨hw.1, hw.2.after hv.core⟩
  | frame inner pending => exact ⟨hv.trans hw.1, remaining_of_core hv.core ▸ hw.2⟩

/-- What a call-type instruction costs before its frame. -/
theorem wp_openFrame_gas (x : Step T) (hcall : x.op.isCall) (hs : Paid x.before.evm) :
    wp (openFrame x.scope x.instruction) (fun o t => OpensAt x.before o t ∧
      (x.op.isMessageCall → ∀ inner pending, o = .frame inner pending → pending.stipend = x.stipend))
      (fun _ _ => True) x.before := by
  rcases Op.isCall_cases hcall with hop | hop
  · rw [openFrame_message hop]
    exact wp_mono (wp_callOpen_gas x hop hs) (fun _ _ h => ⟨h.1, fun _ => h.2⟩) fun _ _ h => h
  · have hnot : ¬x.op.isMessageCall := by rcases hop with h | h <;> simp [h, Op.isMessageCall]
    rw [openFrame_creation hop]
    exact wp_mono (wp_createOpen_gas _ hs) (fun _ _ h => ⟨h, fun h => absurd h hnot⟩) fun _ _ h => h

/-! ### From the frame's end -/

omit [Crypto] in
theorem steady_joinTracer (out : Output T) : Keeps steady (joinTracer out : M T Unit) :=
  steady_modify fun _ => ⟨rfl, rfl, rfl⟩

omit [Crypto] [EventTracer T] in
theorem steady_dropFrame (inner : Evm) : Keeps steady (dropFrame inner : M T Unit) := by
  refine (steady_push 0).bind fun _ => (steady_onExt _).bind fun _ => steady_modify ?_
  exact fun _ => ⟨rfl, rfl, rfl⟩

omit [Crypto] [EventTracer T] in
theorem steady_mergeReverted (out : Output T) : Keeps steady (mergeReverted out : M T Unit) := by
  refine (steady_modify ?_).bind fun _ => (steady_setRet _).bind fun _ => steady_dropFrame _
  exact fun _ => ⟨rfl, rfl, rfl⟩

omit [Crypto] [EventTracer T] in
theorem steady_mergeKept (out : Output T) : Keeps steady (mergeKept out : M T Unit) :=
  steady_modify fun _ => ⟨rfl, rfl, rfl⟩

theorem steady_deploy (sc : Scope) (created : Address) (value : Word) (code : Bytes) :
    Keeps steady (deploy sc created value code : M T Unit) := by
  refine (steady_onExt _).bind fun _ => ?_
  refine (steady_onExt _).bind fun _ => ?_
  refine ((steady_onExt _).bind fun _ => (steady_onExt _).bind fun _ =>
    Keeps.ite (fun _ => steady_moveValue _ _ _ _ _ _) fun _ => .pure _).bind fun _ => ?_
  refine (steady_touch _).bind fun _ => ?_
  exact steady_emit _ _ _

/-- What a frame's caller is left with, the cost it will be charged included: it has paid the
    base cost and at most what it forwarded. -/
structure ClosesAt (base stipend limit : Int) (s : Machine T) (cost : Int) (t : Machine T) : Prop where
  nonneg : 0 ≤ cost
  paid : Paid t.evm
  core : t.evm.core = { s.evm.core with used := t.evm.gas.used }
  least : s.evm.gas.remaining - base - (limit - stipend) ≤ t.evm.gas.remaining - cost
  most : t.evm.gas.remaining - cost ≤ s.evm.gas.remaining - base + stipend

omit [Crypto] [EventTracer T] in
/-- Gas that is spent, and what follows. -/
theorem wp_spend {m : M T Unit} (hm : Keeps steady m) (gas : Int) {s : Machine T} (hs : Paid s.evm) :
    wp (do
      spend gas
      m) (fun _ t => Paid t.evm ∧ t.evm.core = { s.evm.core with used := s.evm.gas.used + gas }) (fun _ _ => True) s := by
  rw [wp_bind, spend, wp_modify]
  refine hm.run (fun _ _ _ => trivial) fun _ t _ ht => ⟨ht.paid ⟨hs.owing, hs.small⟩, ?_⟩
  rw [ht.core]
  rfl

omit [Crypto] in
theorem wp_callClose_gas (sc : Scope) (instruction : Instruction) (retOffset retSize : Nat) (stipend traceCost : Int)
    (out : Output T) {s : Machine T} (hs : Paid s.evm) :
    wp (callClose sc instruction retOffset retSize stipend traceCost out) (fun _ t => Paid t.evm ∧
      t.evm.core = { s.evm.core with used := s.evm.gas.used + (out.evm.gas.used - stipend) }) (fun _ _ => True) s := by
  unfold callClose
  refine (steady_emitCall _ _ _).step (fun _ _ _ => trivial) fun _ t _ ht => ?_
  refine (steady_joinTracer out).step (fun _ _ _ => trivial) fun _ u _ hu => ?_
  have hcopy : Keeps steady (copyBack retOffset (out.ret.take retSize) : M T Unit) :=
    .ite (fun _ => steady_writeMemory _ _) fun _ => .pure _
  refine hcopy.step (fun _ _ _ => trivial) fun _ v _ hv => ?_
  have hv : Covered s v := (steady.trans ht (steady.trans hu hv) : Steady s v).covered hs
  have hkept : Keeps steady (do
      mergeKept out
      setRet out.ret
      push 1 : M T Unit) := by
    refine (steady_mergeKept out).bind fun _ => ?_
    refine (steady_setRet _).bind fun _ => ?_
    exact steady_push 1
  refine wp_mono (wp_spend (.ite (fun _ => steady_mergeReverted out) fun _ => hkept) _ hv.paid) (fun _ w hw => ?_)
    fun _ _ h => h
  refine ⟨hw.1, ?_⟩
  rw [hw.2, hv.core, show v.evm.gas.used = s.evm.gas.used from congrArg Core.used hv.core]

theorem wp_createClose_gas (sc : Scope) (instruction : Instruction) (baseCost forwarded : Int) (created : Address)
    (value : Word) (out : Output T) (hout : 0 ≤ out.evm.gas.used) {s : Machine T} (hs : Paid s.evm) :
    wp (createClose sc instruction baseCost forwarded created value out) (fun _ t => Paid t.evm ∧
      ∃ kept, min 0 forwarded ≤ kept ∧ kept ≤ forwarded ∧
        t.evm.core = { s.evm.core with used := s.evm.gas.used + (baseCost + kept) }) (fun _ _ => True) s := by
  unfold createClose
  refine (steady_emitCall _ _ _).step (fun _ _ _ => trivial) fun _ t _ ht => ?_
  refine (steady_joinTracer out).step (fun _ _ _ => trivial) fun _ u _ hu => ?_
  have hu : Covered s u := (steady.trans ht hu : Steady s u).covered hs
  have hcost : (0 : Int) ≤ if out.evm.reverted then 0 else 200 * (out.ret.length : Int) := by
    split <;> omega
  have hused : u.evm.gas.used = s.evm.gas.used := congrArg Core.used hu.core
  rw [wp_ite]
  refine ⟨fun _ => ?_, fun hfits => ?_⟩
  · refine wp_mono (wp_spend (steady_dropFrame _) _ hu.paid) (fun _ w hw => ?_) fun _ _ h => h
    exact ⟨hw.1, forwarded, by omega, le_rfl, by rw [hw.2, hu.core, hused]⟩
  · have hkept : Keeps steady (do
        deploy sc created value out.ret
        mergeKept out
        push created.toWord : M T Unit) := by
      refine (steady_deploy _ _ _ _).bind fun _ => ?_
      refine (steady_mergeKept out).bind fun _ => ?_
      exact steady_push _
    refine wp_mono (wp_spend (.ite (fun _ => steady_dropFrame _) fun _ => hkept) _ hu.paid) (fun _ w hw => ?_)
      fun _ _ h => h
    refine ⟨hw.1, (if out.evm.reverted then 0 else 200 * (out.ret.length : Int)) + out.evm.gas.used, by omega, by omega, ?_⟩
    rw [hw.2, hu.core, hused, Int.add_assoc]

/-- The caller has paid for a frame that stayed within its limit. -/
theorem wp_closeFrame_gas (sc : Scope) (instruction : Instruction) (out : Output T) {pending : Pending} {limit : Int}
    (hlimit : ∀ base forwarded created value, pending = .create base forwarded created value → forwarded = limit)
    (hbase : 0 ≤ pending.base) (hleast : 0 ≤ limit) (hout : 0 ≤ out.evm.gas.used) (hmost : out.evm.gas.used ≤ limit)
    {s : Machine T} (hs : Paid s.evm) :
    wp (closeFrame sc instruction pending out) (ClosesAt pending.base pending.stipend limit s) (fun _ _ => True) s := by
  unfold closeFrame
  cases pending with
  | call gas retOffset retSize stipend traceCost =>
    rw [wp_bind]
    refine wp_mono (wp_callClose_gas _ _ _ _ _ _ out hs) (fun _ t ⟨hpaid, hcore⟩ => (wp_pure _).2 ?_) fun _ _ h => h
    have hremaining : t.evm.gas.remaining = s.evm.gas.limit - (s.evm.gas.used + (out.evm.gas.used - stipend)) :=
      congrArg (fun c : Core => c.limit - c.used) hcore
    have hused : t.evm.gas.used = _ := congrArg Core.used hcore
    refine ⟨hbase, hpaid, by rw [hcore, hused], ?_, ?_⟩
    all_goals
      simp only [Pending.base, Pending.stipend, Gas.remaining] at *
      omega
  | create baseCost forwarded created value =>
    obtain rfl := hlimit _ _ _ _ rfl
    rw [wp_bind]
    refine wp_mono (wp_createClose_gas _ _ _ _ _ _ out hout hs) (fun _ t ⟨hpaid, kept, hkept, hkept', hcore⟩ =>
      (wp_pure _).2 ?_) fun _ _ h => h
    have hremaining : t.evm.gas.remaining = s.evm.gas.limit - (s.evm.gas.used + (baseCost + kept)) :=
      congrArg (fun c : Core => c.limit - c.used) hcore
    have hused : t.evm.gas.used = _ := congrArg Core.used hcore
    refine ⟨le_rfl, hpaid, by rw [hcore, hused], ?_, ?_⟩
    all_goals
      simp only [Pending.base, Pending.stipend, Gas.remaining] at *
      omega

end Opening

end Solenoid
