/-
  Solenoid.Limits — whether memory stays within the sanity limit.

  Every opcode that grows memory holds what it asks for against the limit first, and halts its
  frame if that is more (`wp_executeInstruction_refuses`), but MCOPY holds only its destination
  against it (`Step.Guarded`). Where that makes no difference, the memory of every frame stays
  within the limit (`memory_limited`).
-/
import Solenoid.Boundaries

namespace Solenoid

open Hoare InfiniteArray

variable {T α β : Type} {s t u : Machine T}

/-! ## What an opcode asks for -/

namespace Step

variable (x : Step T)

/-- How far the operands would have the memory reach. -/
def asks : Nat :=
  match x.op with
  | .calldatacopy => rangeTill (x.operand 0).toNat (min (x.operand 2).toNat (usizeMax >>> 1))
  | _ => x.reach

/-- The operands that are made a `usize` before the memory grows. -/
def usizes : List Nat :=
  match x.op with
  | .mload | .mstore | .mstore8 => [(x.operand 0).toNat]
  | .mcopy | .codecopy | .returndatacopy => [(x.operand 0).toNat, (x.operand 1).toNat, (x.operand 2).toNat]
  | .calldatacopy | .return_ | .revert => [(x.operand 0).toNat, (x.operand 1).toNat]
  | .extcodecopy => [(x.operand 1).toNat, (x.operand 2).toNat, (x.operand 3).toNat]
  | .create | .create2 => [(x.operand 1).toNat, (x.operand 2).toNat]
  | .call | .callcode | .delegatecall | .staticcall => [x.argsOffset, x.argsSize, x.retOffset, x.retSize]
  | _ => []

/-- What is asked for can be computed, and an MCOPY that pays for its words asks for too much at
    its destination. -/
structure Guarded : Prop where
  narrow : ∀ n ∈ x.usizes, n < 2 ^ 64
  sums : x.asks ≤ usizeMax
  destination : x.op = .mcopy → 3 + copyGas (x.operand 2).toNat ≤ x.before.evm.gas.remaining →
    allocationSanityLimit < (x.operand 0).toNat + (x.operand 2).toNat

/-- An instruction that asks for more than the limit is guarded. -/
def Modest : Prop := allocationSanityLimit < x.asks → x.Guarded

instance : Decidable x.Guarded :=
  decidable_of_iff ((∀ n ∈ x.usizes, n < 2 ^ 64) ∧ x.asks ≤ usizeMax ∧
      (x.op = .mcopy → 3 + copyGas (x.operand 2).toNat ≤ x.before.evm.gas.remaining →
        allocationSanityLimit < (x.operand 0).toNat + (x.operand 2).toNat))
    ⟨fun h => ⟨h.1, h.2.1, h.2.2⟩, fun h => ⟨h.narrow, h.sums, h.destination⟩⟩

instance : Decidable x.Modest := inferInstanceAs (Decidable (_ → _))

/-- The instruction halts, its memory as it was. -/
def Balks (r : StepResult) (t : Machine T) : Prop :=
  (∃ cost, r = .halt cost) ∧ t.evm.memory = x.before.evm.memory

/-- The instruction is reported, its memory as it was. -/
def Fails (f : Fault) (t : Machine T) : Prop := (∃ r, f = .report r) ∧ t.evm.memory = x.before.evm.memory

end Step

/-! ## Refusals -/

section

variable {x : Step T} {Q : β → Machine T → Prop}

theorem wp_pop_fails {Q : Word → Machine T → Prop} {i : Nat}
    (hQ : i < x.before.evm.stack.length → Q (x.operand i) (x.popped (i + 1))) : wp pop Q x.Fails (x.popped i) := by
  rw [wp_pop]
  refine ⟨fun w rest hst => ?_, fun _ => ⟨⟨_, rfl⟩, rfl⟩⟩
  have hst : x.before.evm.stack.drop i = w :: rest := hst
  have hlen : i < x.before.evm.stack.length := by
    by_contra hnot
    rw [List.drop_eq_nil_iff.2 (not_lt.1 hnot)] at hst
    cases hst
  have hQ := hQ hlen
  rw [List.drop_eq_getElem_cons hlen, List.cons.injEq] at hst
  rw [Step.operand, List.getD_eq_getElem _ _ hlen, Step.popped, hst.1, hst.2] at hQ
  exact hQ

theorem wp_popUsize_fails {Q : Nat → Machine T → Prop} {i : Nat} (hnarrow : (x.operand i).toNat < 2 ^ 64)
    (hQ : Q (x.operand i).toNat (x.popped (i + 1))) : wp popUsize Q x.Fails (x.popped i) := by
  unfold popUsize
  rw [wp_bind]
  refine wp_pop_fails fun _ => (wp_lift _).2 ⟨fun n hn => ?_, fun f hf => absurd hnarrow (asUsize_error hf).1⟩
  obtain rfl := asUsize_ok hn
  exact hQ

theorem wp_addUsize_fits {Q : Nat → Machine T → Prop} {E : Fault → Machine T → Prop} {a b : Nat} (h : a + b ≤ usizeMax)
    (hQ : Q (a + b) s) : wp (lift (addUsize a b)) Q E s := by
  rw [wp_lift, addUsize, if_pos h]
  refine ⟨?_, fun _ hf => by cases hf⟩
  rintro _ ⟨⟩
  exact hQ

/-- The range ends beyond the limit, and the memory does not. -/
theorem wp_expandTo_fails {Q : Unit → Machine T → Prop} {till : Nat} (hs : s.evm.memory = x.before.evm.memory)
    (hlimited : x.before.evm.memory.length ≤ allocationSanityLimit) (hbeyond : allocationSanityLimit < till) :
    wp (expandTo till) Q x.Fails s := by
  have hlt : s.evm.memory.length < till := by
    rw [hs]
    exact hlimited.trans_lt hbeyond
  simp only [expandTo, wp_bind, wp_get, wp_ite, wp_refuse]
  exact ⟨fun _ => ⟨fun _ => ⟨⟨_, rfl⟩, hs⟩, fun h => absurd hbeyond h⟩, fun h => absurd hlt h⟩

theorem wp_copyIn_fails {Q : Unit → Machine T → Prop} {source : Bytes} {destOffset offset size : Nat}
    (hs : s.evm.memory = x.before.evm.memory) (hlimited : x.before.evm.memory.length ≤ allocationSanityLimit)
    (hsum : destOffset + size ≤ usizeMax) (hbeyond : allocationSanityLimit < destOffset + size) :
    wp (copyIn source destOffset offset size) Q x.Fails s := by
  unfold copyIn
  rw [wp_bind]
  refine wp_addUsize_fits hsum ?_
  rw [wp_bind]
  exact wp_expandTo_fails hs hlimited hbeyond

end

section

variable {x : Step T} (hlimited : x.before.evm.memory.length ≤ allocationSanityLimit)
  (hbeyond : allocationSanityLimit < x.asks) (hguarded : x.Guarded)

include hlimited hbeyond hguarded

theorem wp_opMload_refuses (hop : x.op = .mload) : wp opMload x.Balks x.Fails x.before := by
  have hasks : x.asks = (x.operand 0).toNat + 32 := by
    simp [Step.asks, Step.reach, Step.till, Step.ranges, hop, rangeTill]
  have hnarrow : (x.operand 0).toNat < 2 ^ 64 := hguarded.narrow _ (by simp [Step.usizes, hop])
  rw [hasks] at hbeyond
  show wp opMload _ _ (x.popped 0)
  unfold opMload
  rw [wp_bind]
  refine wp_popUsize_fails hnarrow ?_
  rw [wp_bind]
  refine wp_addUsize_fits (hasks ▸ hguarded.sums) ?_
  rw [wp_bind]
  exact wp_expandTo_fails rfl hlimited hbeyond

theorem wp_opMstore_refuses (hop : x.op = .mstore) : wp opMstore x.Balks x.Fails x.before := by
  have hasks : x.asks = (x.operand 0).toNat + 32 := by
    simp [Step.asks, Step.reach, Step.till, Step.ranges, hop, rangeTill]
  have hnarrow : (x.operand 0).toNat < 2 ^ 64 := hguarded.narrow _ (by simp [Step.usizes, hop])
  rw [hasks] at hbeyond
  show wp opMstore _ _ (x.popped 0)
  unfold opMstore
  rw [wp_bind]
  refine wp_popUsize_fails hnarrow ?_
  rw [wp_bind]
  refine wp_pop_fails fun _ => ?_
  rw [wp_bind]
  refine wp_addUsize_fits (hasks ▸ hguarded.sums) ?_
  rw [wp_bind]
  exact wp_expandTo_fails rfl hlimited hbeyond

theorem wp_opMstore8_refuses (hop : x.op = .mstore8) : wp opMstore8 x.Balks x.Fails x.before := by
  have hasks : x.asks = (x.operand 0).toNat + 1 := by
    simp [Step.asks, Step.reach, Step.till, Step.ranges, hop, rangeTill]
  have hnarrow : (x.operand 0).toNat < 2 ^ 64 := hguarded.narrow _ (by simp [Step.usizes, hop])
  rw [hasks] at hbeyond
  show wp opMstore8 _ _ (x.popped 0)
  unfold opMstore8
  rw [wp_bind]
  refine wp_popUsize_fails hnarrow ?_
  rw [wp_bind]
  refine wp_pop_fails fun _ => ?_
  rw [wp_bind, expandAt, wp_bind, wp_get, wp_ite]
  refine ⟨fun _ => ?_, fun hholds => ?_⟩
  · rw [wp_bind]
    exact wp_addUsize_fits (hasks ▸ hguarded.sums) (wp_expandTo_fails rfl hlimited hbeyond)
  · have hholds : ¬x.before.evm.memory.length ≤ (x.operand 0).toNat := hholds
    omega

theorem wp_opCodecopy_refuses (hop : x.op = .codecopy) : wp (opCodecopy x.scope) x.Balks x.Fails x.before := by
  have hasks : x.asks = (x.operand 0).toNat + (x.operand 2).toNat := by rw [Step.asks, hop, Step.reach, hop]
  have hnarrow : ∀ n ∈ [(x.operand 0).toNat, (x.operand 1).toNat, (x.operand 2).toNat], n < 2 ^ 64 := fun n hn =>
    hguarded.narrow n (by rw [Step.usizes, hop]; exact hn)
  rw [hasks] at hbeyond
  show wp (opCodecopy x.scope) _ _ (x.popped 0)
  unfold opCodecopy
  rw [wp_bind]
  refine wp_popUsize_fails (hnarrow _ (by simp)) ?_
  rw [wp_bind]
  refine wp_popUsize_fails (hnarrow _ (by simp)) ?_
  rw [wp_bind]
  refine wp_popUsize_fails (hnarrow _ (by simp)) ?_
  rw [wp_bind]
  exact wp_copyIn_fails rfl hlimited (hasks ▸ hguarded.sums) hbeyond

theorem wp_opReturndatacopy_refuses (hop : x.op = .returndatacopy) : wp opReturndatacopy x.Balks x.Fails x.before := by
  have hasks : x.asks = (x.operand 0).toNat + (x.operand 2).toNat := by rw [Step.asks, hop, Step.reach, hop]
  have hnarrow : ∀ n ∈ [(x.operand 0).toNat, (x.operand 1).toNat, (x.operand 2).toNat], n < 2 ^ 64 := fun n hn =>
    hguarded.narrow n (by rw [Step.usizes, hop]; exact hn)
  rw [hasks] at hbeyond
  show wp opReturndatacopy _ _ (x.popped 0)
  unfold opReturndatacopy
  rw [wp_bind]
  refine wp_popUsize_fails (hnarrow _ (by simp)) ?_
  rw [wp_bind]
  refine wp_popUsize_fails (hnarrow _ (by simp)) ?_
  rw [wp_bind]
  refine wp_popUsize_fails (hnarrow _ (by simp)) ?_
  rw [wp_bind]
  refine wp_addUsize_fits (hasks ▸ hguarded.sums) ?_
  rw [wp_bind]
  exact wp_expandTo_fails rfl hlimited hbeyond

theorem wp_opCalldatacopy_refuses (hop : x.op = .calldatacopy) :
    wp (opCalldatacopy x.scope) x.Balks x.Fails x.before := by
  have hasks : x.asks = rangeTill (x.operand 0).toNat (min (x.operand 2).toNat (usizeMax >>> 1)) := by rw [Step.asks, hop]
  have hnarrow : ∀ n ∈ [(x.operand 0).toNat, (x.operand 1).toNat], n < 2 ^ 64 := fun n hn =>
    hguarded.narrow n (by rw [Step.usizes, hop]; exact hn)
  have hsize : 0 < min (x.operand 2).toNat (usizeMax >>> 1) := by
    by_contra hzero
    rw [hasks, rangeTill, if_neg hzero] at hbeyond
    exact absurd hbeyond (Nat.not_lt_zero _)
  have hsums := hguarded.sums
  rw [hasks, rangeTill, if_pos hsize] at hbeyond hsums
  show wp (opCalldatacopy x.scope) _ _ (x.popped 0)
  unfold opCalldatacopy
  rw [wp_bind]
  refine wp_popUsize_fails (hnarrow _ (by simp)) ?_
  rw [wp_bind]
  refine wp_popUsize_fails (hnarrow _ (by simp)) ?_
  rw [wp_bind]
  refine wp_pop_fails fun _ => ?_
  dsimp only
  rw [if_pos hsize, wp_bind]
  exact wp_copyIn_fails rfl hlimited hsums hbeyond

theorem wp_opExtcodecopy_refuses [Crypto] (hop : x.op = .extcodecopy) : wp opExtcodecopy x.Balks x.Fails x.before := by
  have hasks : x.asks = (x.operand 1).toNat + (x.operand 3).toNat := by rw [Step.asks, hop, Step.reach, hop]
  have hnarrow : ∀ n ∈ [(x.operand 1).toNat, (x.operand 2).toNat, (x.operand 3).toNat], n < 2 ^ 64 := fun n hn =>
    hguarded.narrow n (by rw [Step.usizes, hop]; exact hn)
  rw [hasks] at hbeyond
  show wp opExtcodecopy _ _ (x.popped 0)
  unfold opExtcodecopy
  rw [wp_bind]
  refine wp_pop_fails fun _ => ?_
  rw [wp_bind]
  refine wp_popUsize_fails (hnarrow _ (by simp)) ?_
  rw [wp_bind]
  refine wp_popUsize_fails (hnarrow _ (by simp)) ?_
  rw [wp_bind]
  refine wp_popUsize_fails (hnarrow _ (by simp)) ?_
  rw [wp_bind]
  refine wp_touchCode_exact (fun _ r => ⟨⟨r, rfl⟩, rfl⟩) fun _ _ t _ _ hlooked => ?_
  rw [wp_bind]
  exact wp_copyIn_fails hlooked.memory hlimited (hasks ▸ hguarded.sums) hbeyond

/-- MCOPY asks for gas first. -/
theorem wp_opMcopy_refuses (hop : x.op = .mcopy) : wp opMcopy x.Balks x.Fails x.before := by
  have hasks : x.asks = max (rangeTill (x.operand 0).toNat (x.operand 2).toNat)
      (rangeTill (x.operand 1).toNat (x.operand 2).toNat) := by
    simp [Step.asks, Step.reach, Step.till, Step.ranges, hop]
  have hnarrow : ∀ n ∈ [(x.operand 0).toNat, (x.operand 1).toNat, (x.operand 2).toNat], n < 2 ^ 64 := fun n hn =>
    hguarded.narrow n (by rw [Step.usizes, hop]; exact hn)
  have hsize : 0 < (x.operand 2).toNat := by
    by_contra hzero
    rw [hasks, rangeTill, rangeTill, if_neg hzero, if_neg hzero, max_self] at hbeyond
    exact absurd hbeyond (Nat.not_lt_zero _)
  have hsums := hguarded.sums
  rw [hasks, rangeTill, rangeTill, if_pos hsize, if_pos hsize] at hsums
  show wp opMcopy _ _ (x.popped 0)
  unfold opMcopy
  rw [wp_bind]
  refine wp_popUsize_fails (hnarrow _ (by simp)) ?_
  rw [wp_bind]
  refine wp_popUsize_fails (hnarrow _ (by simp)) ?_
  rw [wp_bind]
  refine wp_popUsize_fails (hnarrow _ (by simp)) ?_
  dsimp only
  rw [wp_charged]
  refine ⟨fun _ => ⟨⟨_, rfl⟩, rfl⟩, fun hpaid => ?_⟩
  have hdest := hguarded.destination hop hpaid
  rw [if_neg hsize.ne', wp_bind]
  refine wp_addUsize_fits ((le_max_left _ _).trans hsums) ?_
  rw [wp_bind]
  refine wp_addUsize_fits ((le_max_right _ _).trans hsums) ?_
  rw [wp_bind, mcopyGrow, wp_bind, wp_get, wp_ite, wp_ite]
  refine ⟨fun _ => ⟨fun _ => (wp_refuse _).2 ⟨⟨_, rfl⟩, rfl⟩, fun h => absurd hdest h⟩, fun hholds => ?_⟩
  exact absurd (lt_of_le_of_lt hlimited (hdest.trans_le (le_max_left _ _))) hholds

theorem wp_opReturn_refuses [EventTracer T] (reverted : Bool) (hop : x.op = .return_ ∨ x.op = .revert) :
    wp (opReturn x.scope reverted) x.Balks x.Fails x.before := by
  have hasks : x.asks = rangeTill (x.operand 0).toNat (x.operand 1).toNat := by
    rcases hop with hop | hop <;> simp [Step.asks, Step.reach, Step.till, Step.ranges, hop]
  have hnarrow : ∀ n ∈ [(x.operand 0).toNat, (x.operand 1).toNat], n < 2 ^ 64 := fun n hn =>
    hguarded.narrow n (by rcases hop with hop | hop <;> (rw [Step.usizes, hop]; exact hn))
  have hsize : 0 < (x.operand 1).toNat := by
    by_contra hzero
    rw [hasks, rangeTill, if_neg hzero] at hbeyond
    exact absurd hbeyond (Nat.not_lt_zero _)
  have hsums := hguarded.sums
  rw [hasks, rangeTill, if_pos hsize] at hbeyond hsums
  unfold opReturn
  rw [wp_bind, wp_modify]
  -- the flags do not show in the operands
  let y : Step T := ⟨x.scope, x.instruction, { x.before with evm.stopped := true, evm.reverted := reverted }⟩
  show wp _ y.Balks y.Fails (y.popped 0)
  rw [wp_bind]
  refine wp_popUsize_fails (hnarrow _ (by simp [y, Step.operand])) ?_
  rw [wp_bind]
  refine wp_popUsize_fails (hnarrow _ (by simp [y, Step.operand])) ?_
  rw [wp_bind, setOutput, if_pos (show 0 < (y.operand 1).toNat from hsize), wp_bind]
  refine wp_addUsize_fits hsums ?_
  rw [wp_bind]
  exact wp_expandTo_fails rfl hlimited hbeyond

/-- A creation asks for the memory its init code lies in. -/
theorem wp_createOpen_refuses [Crypto] [EventTracer T] {Q : Opened T → Machine T → Prop} (sc : Scope)
    (hop : x.op = .create ∨ x.op = .create2) : wp (createOpen sc) Q x.Fails x.before := by
  have hasks : x.asks = rangeTill (x.operand 1).toNat (x.operand 2).toNat := by
    rcases hop with hop | hop <;> simp [Step.asks, Step.reach, Step.till, Step.ranges, hop]
  have hnarrow : ∀ n ∈ [(x.operand 1).toNat, (x.operand 2).toNat], n < 2 ^ 64 := fun n hn =>
    hguarded.narrow n (by rcases hop with hop | hop <;> (rw [Step.usizes, hop]; exact hn))
  have hsize : 0 < (x.operand 2).toNat := by
    by_contra hzero
    rw [hasks, rangeTill, if_neg hzero] at hbeyond
    exact absurd hbeyond (Nat.not_lt_zero _)
  have hsums := hguarded.sums
  rw [hasks, rangeTill, if_pos hsize] at hbeyond hsums
  have hcode : ∀ s : Machine T, s.evm.memory = x.before.evm.memory →
      ∀ Q' : Bytes × Int → Machine T → Prop, wp (initCode (x.operand 1).toNat (x.operand 2).toNat) Q' x.Fails s := by
    intro s hs Q'
    unfold initCode
    rw [wp_bind]
    refine wp_addUsize_fits hsums ?_
    rw [if_pos hsize, wp_bind]
    exact wp_expandTo_fails hs hlimited hbeyond
  show wp (createOpen sc) _ _ (x.popped 0)
  unfold createOpen
  rw [wp_bind]
  refine wp_pop_fails fun _ => ?_
  rw [wp_bind]
  refine wp_popUsize_fails (hnarrow _ (by simp)) ?_
  rw [wp_bind]
  refine wp_popUsize_fails (hnarrow _ (by simp)) ?_
  rw [wp_bind, popSalt, wp_ite]
  refine ⟨fun _ => wp_pop_fails fun _ => ?_, fun _ => (wp_pure _).2 ?_⟩
  · rw [wp_bind]
    exact hcode (x.popped 4) rfl _
  · rw [wp_bind]
    exact hcode (x.popped 3) rfl _

omit hlimited hbeyond in
/-- The ranges a call names, whatever else it takes. -/
theorem wp_callArgs_fails {Q : CallArgs → Machine T → Prop} (hop : x.op.isMessageCall)
    (hQ : ∀ callGas address value n, Q ⟨callGas, address, value, x.argsOffset, x.argsSize, x.retOffset,
      x.retSize⟩ (x.popped n)) :
    wp (callArgs (x.scope.inContext x.op)) Q x.Fails x.before := by
  have hnarrow : ∀ n ∈ [x.argsOffset, x.argsSize, x.retOffset, x.retSize], n < 2 ^ 64 := fun n hn =>
    hguarded.narrow n (by
      revert hop
      unfold Step.usizes
      cases x.op <;> simp only [Op.isMessageCall, Bool.false_eq_true, IsEmpty.forall_iff] <;> exact fun _ => hn)
  have hmoves : (x.scope.inContext x.op).ctx.movesValue = decide (x.op = .call ∨ x.op = .callcode) :=
    movesValue_callContext _ hop
  -- from the first of the ranges on
  have hranges : ∀ callGas address value, wp (do
      let argsOffset ← popUsize
      let argsSize ← popUsize
      let retOffset ← popUsize
      let retSize ← popUsize
      return { callGas, address, value, argsOffset, argsSize, retOffset, retSize }) Q x.Fails (x.popped x.op.argsAt) := by
    intro callGas address value
    rw [wp_bind]
    refine wp_popUsize_fails (hnarrow _ (by simp [Step.argsOffset])) ?_
    rw [wp_bind]
    refine wp_popUsize_fails (hnarrow _ (by simp [Step.argsSize])) ?_
    rw [wp_bind]
    refine wp_popUsize_fails (hnarrow _ (by simp [Step.retOffset])) ?_
    rw [wp_bind]
    refine wp_popUsize_fails (hnarrow _ (by simp [Step.retSize])) ?_
    exact (wp_pure _).2 (hQ _ _ _ _)
  show wp (callArgs _) _ _ (x.popped 0)
  unfold callArgs popValue
  rw [wp_bind]
  refine wp_pop_fails fun _ => ?_
  rw [wp_bind]
  refine wp_pop_fails fun _ => ?_
  by_cases hv : x.op = .call ∨ x.op = .callcode
  · have hat : x.op.argsAt = 3 := by rcases hv with h | h <;> rw [h] <;> rfl
    rw [if_pos (by simpa [hmoves] using hv), wp_bind]
    refine wp_pop_fails fun _ => ?_
    rw [hat] at hranges
    exact hranges _ _ _
  · have hat : x.op.argsAt = 2 := by
      unfold Op.argsAt
      split <;> simp_all
    rw [if_neg (by simpa [hmoves] using hv), wp_bind, wp_pure]
    rw [hat] at hranges
    exact hranges _ _ _

theorem wp_callOpen_refuses [Crypto] [EventTracer T] {Q : Opened T → Machine T → Prop} (hop : x.op.isMessageCall) :
    wp (callOpen (x.scope.inContext x.op) x.instruction) Q x.Fails x.before := by
  have hasks : x.asks = x.callTill := by
    revert hop
    unfold Step.callTill
    cases h : x.op <;> simp [Op.isMessageCall, Step.asks, Step.reach, Step.till, Step.ranges, h]
  have hsums := hguarded.sums
  rw [hasks] at hbeyond hsums
  unfold callOpen
  rw [wp_bind]
  refine wp_callArgs_fails hguarded hop fun callGas address value n => ?_
  rw [wp_bind, callMemory, wp_bind]
  have hend : ∀ offset size : Nat, rangeTill offset size ≤ usizeMax → rangeEnd offset size = .ok (rangeTill offset size) :=
    fun offset size hle => ((rangeEnd_exact offset size).resolve_right fun h => h.2 hle).1
  rw [hend _ _ ((le_max_left _ _).trans hsums), wp_lift]
  refine ⟨?_, fun _ hf => by cases hf⟩
  rintro _ ⟨⟩
  rw [wp_bind, hend _ _ ((le_max_right _ _).trans hsums), wp_lift]
  refine ⟨?_, fun _ hf => by cases hf⟩
  rintro _ ⟨⟩
  rw [wp_bind]
  exact wp_expandTo_fails rfl hlimited hbeyond

theorem wp_opCall_refuses [Crypto] [EventTracer T] (exec : Exec T) (hcall : x.op.isCall) :
    wp (opCall exec x.scope x.instruction) x.Balks x.Fails x.before := by
  refine wp_opCall_of (fun r _ => ⟨⟨r, rfl⟩, rfl⟩) fun _ => ?_
  unfold callFrame
  rw [wp_bind]
  have hopen : wp (openFrame x.scope x.instruction) (fun _ _ => False) x.Fails x.before := by
    rcases Op.isCall_cases hcall with hop | hop
    · rw [openFrame_message hop]
      exact wp_callOpen_refuses hlimited hbeyond hguarded hop
    · rw [openFrame_creation hop]
      exact wp_createOpen_refuses hlimited hbeyond hguarded _ hop
  exact wp_mono hopen (fun _ _ h => h.elim) fun f t hf => ⟨hf, fun _ _ => ⟨⟨_, rfl⟩, hf.2⟩⟩

/-- What asks for more than the limit gets nothing, and ends its frame. -/
theorem wp_executeInstruction_refuses [Crypto] [EventTracer T] (exec : Exec T) :
    wp (executeInstruction exec x.scope x.instruction) x.Balks x.Fails x.before := by
  by_cases hcall : x.op.isCall = true
  · rw [executeInstruction_call hcall]
    exact wp_opCall_refuses hlimited hbeyond hguarded exec hcall
  · have hop : ∀ op, x.op = op → x.instruction.op = op := fun _ h => h
    unfold executeInstruction
    cases h : x.op <;> rw [hop _ h] <;> dsimp only
    case mload => exact wp_opMload_refuses hlimited hbeyond hguarded h
    case mstore => exact wp_opMstore_refuses hlimited hbeyond hguarded h
    case mstore8 => exact wp_opMstore8_refuses hlimited hbeyond hguarded h
    case mcopy => exact wp_opMcopy_refuses hlimited hbeyond hguarded h
    case calldatacopy => exact wp_opCalldatacopy_refuses hlimited hbeyond hguarded h
    case codecopy => exact wp_opCodecopy_refuses hlimited hbeyond hguarded h
    case extcodecopy => exact wp_opExtcodecopy_refuses hlimited hbeyond hguarded h
    case returndatacopy => exact wp_opReturndatacopy_refuses hlimited hbeyond hguarded h
    case return_ => exact wp_opReturn_refuses hlimited hbeyond hguarded false (.inl h)
    case revert => exact wp_opReturn_refuses hlimited hbeyond hguarded true (.inr h)
    case create | call | callcode | delegatecall | create2 | staticcall =>
      rw [h] at hcall
      exact absurd rfl hcall
    all_goals
      have hasks : x.asks = 0 := by simp [Step.asks, Step.reach, Step.till, Step.ranges, h]
      rw [hasks] at hbeyond
      exact absurd hbeyond (Nat.not_lt_zero _)

end

/-! ## An MCOPY within the limit -/

section

variable {x : Step T} {P : Nat → Prop}

/-- The frame with the first operands taken, and one more. -/
theorem wp_popUsize_swells {Q : Nat → Machine T → Prop} {i : Nat} (hQ : Q (x.operand i).toNat (x.popped (i + 1))) :
    wp popUsize Q (fun _ => Swells P x.before) (x.popped i) := by
  unfold popUsize
  rw [wp_bind, wp_pop]
  refine ⟨fun w rest hst => (wp_lift _).2 ⟨fun n hn => ?_, fun _ _ => .inl rfl⟩, fun _ => .inl rfl⟩
  have hst : x.before.evm.stack.drop i = w :: rest := hst
  have hlen : i < x.before.evm.stack.length := by
    by_contra hnot
    rw [List.drop_eq_nil_iff.2 (not_lt.1 hnot)] at hst
    cases hst
  rw [List.drop_eq_getElem_cons hlen, List.cons.injEq] at hst
  rw [Step.operand, List.getD_eq_getElem _ _ hlen, Step.popped, hst.1, hst.2] at hQ
  obtain rfl := asUsize_ok hn
  exact hQ

/-- MCOPY grows the memory as its two ranges make it. -/
theorem wp_opMcopy_swells (hP : ∀ n ≤ allocationSanityLimit, P n)
    (hgrow : ∀ destTill till, (x.operand 0).toNat + (x.operand 2).toNat = destTill →
      (x.operand 1).toNat + (x.operand 2).toNat = till → 0 < (x.operand 2).toNat →
      wp (mcopyGrow destTill till) (fun _ => Swells P x.before) (fun _ => Swells P x.before) (x.popped 3)) :
    wp opMcopy (fun _ => Swells P x.before) (fun _ => Swells P x.before) x.before := by
  have hgrows : Grows (swelling (T := T) P) := grows_swelling hP
  have hnext : ∀ gas : Int, Keeps (swelling P) (next gas : M T StepResult) := fun gas s => (wp_next gas).2 (.inl rfl)
  show wp opMcopy _ _ (x.popped 0)
  unfold opMcopy
  rw [wp_bind]
  refine wp_popUsize_swells ?_
  rw [wp_bind]
  refine wp_popUsize_swells ?_
  rw [wp_bind]
  refine wp_popUsize_swells ?_
  dsimp only
  rw [wp_charged]
  refine ⟨fun _ => .inl rfl, fun _ => ?_⟩
  rw [wp_ite]
  refine ⟨fun _ => (wp_next _).2 (.inl rfl), fun hsize => ?_⟩
  rw [wp_bind, wp_lift]
  refine ⟨fun destTill hdest => ?_, fun _ _ => .inl rfl⟩
  rw [wp_bind, wp_lift]
  refine ⟨fun till htill => ?_, fun _ _ => .inl rfl⟩
  obtain rfl := addUsize_ok hdest
  obtain rfl := addUsize_ok htill
  rw [wp_bind]
  refine wp_mono (hgrow _ _ rfl rfl (Nat.pos_of_ne_zero hsize)) (fun _ t ht => ?_) fun _ _ h => h
  have hrest : Keeps (swelling P) (do
      let buffer ← readMemory (x.operand 1).toNat ((x.operand 1).toNat + (x.operand 2).toNat)
      let gas := 3 + copyGas (x.operand 2).toNat + (← memoryExpansionCost)
      charged gas do
        writeMemory (x.operand 0).toNat buffer
        next gas : M T StepResult) := by
    refine (hgrows.readMemory _ _).bind fun _ => ?_
    refine hgrows.priced.bind fun _ => ?_
    apply keeps_charged_of
    refine (hgrows.written _ _).bind fun _ => ?_
    exact hnext _
  exact wp_mono (hrest t) (fun _ u hu => ht.trans hu) fun _ u hu => ht.trans hu

end

/-- An instruction that asks for no more than the limit, or is guarded, leaves the memory within
    it, however it ends. -/
theorem wp_executeInstruction_limited [Crypto] [EventTracer T] {x : Step T} (exec : Exec T) (hmodest : x.Modest)
    (hlimited : x.before.evm.memory.length ≤ allocationSanityLimit) :
    wp (executeInstruction exec x.scope x.instruction) (fun _ t => t.evm.memory.length ≤ allocationSanityLimit)
      (fun _ t => t.evm.memory.length ≤ allocationSanityLimit) x.before := by
  suffices hswells : wp (executeInstruction exec x.scope x.instruction)
    (fun _ => Swells (· ≤ allocationSanityLimit) x.before)
      (fun _ => Swells (· ≤ allocationSanityLimit) x.before) x.before from
    wp_mono hswells (fun _ _ h => h.within hlimited) fun _ _ h => h.within hlimited
  by_cases hop : x.op = .mcopy
  · by_cases hasks : x.asks ≤ allocationSanityLimit
    · have hreach : x.asks = max (rangeTill (x.operand 0).toNat (x.operand 2).toNat)
          (rangeTill (x.operand 1).toNat (x.operand 2).toNat) := by
        simp [Step.asks, Step.reach, Step.till, Step.ranges, hop]
      rw [show executeInstruction exec x.scope x.instruction = opMcopy by
        simp only [executeInstruction, show x.instruction.op = .mcopy from hop]]
      refine wp_opMcopy_swells (fun _ h => h) fun destTill till hdest htill hsize => ?_
      rw [hreach, rangeTill, rangeTill, if_pos hsize, if_pos hsize, hdest, htill] at hasks
      simp only [mcopyGrow, wp_bind, wp_get, wp_ite, wp_pure, wp_refuse]
      exact ⟨fun hlt => ⟨fun _ => .inl rfl, fun _ => swells_growTo (P := (· ≤ allocationSanityLimit)) hlt
        (grownTo_limit hlt hasks)⟩, fun _ => .inl rfl⟩
    · have hbeyond := not_le.1 hasks
      refine wp_mono (wp_executeInstruction_refuses hlimited hbeyond (hmodest hbeyond) exec) (fun _ _ h => .inl ?_)
        fun _ _ h => .inl ?_
      · rw [h.2]
      · rw [h.2]
  · exact swells_instruction (fun _ h => h) exec x.scope (fun h => absurd h hop) x.before

/-! ## Whole runs -/

section

variable [Crypto] [EventTracer T]

/-- The memory as it was. -/
def sameMemory : Frame Fault (Machine T) where
  ok s t := t.evm.memory = s.evm.memory
  err _ s t := t.evm.memory = s.evm.memory
  refl _ := rfl
  trans h h' := h'.trans h
  fail h h' := h'.trans h

omit [Crypto] [EventTracer T] in
theorem overlooks_sameMemory : Overlooks (sameMemory (T := T)) := ⟨fun h => h.memory, fun h => h.memory⟩

/-- A turn leaves the memory within the limit. -/
theorem wp_executeStep_limited {x : Step T} (exec : Exec T) (hmodest : x.Modest)
    (hlimited : x.before.evm.memory.length ≤ allocationSanityLimit) :
    wp (executeStep exec x.scope x.instruction) (fun _ t => t.evm.memory.length ≤ allocationSanityLimit)
      (fun _ t => t.evm.memory.length ≤ allocationSanityLimit) x.before := by
  have hsettle : ∀ (r : Option StepResult) (t : Machine T), t.evm.memory.length ≤ allocationSanityLimit →
      wp (settleStep x.scope x.instruction r) (fun _ u => u.evm.memory.length ≤ allocationSanityLimit)
        (fun _ u => u.evm.memory.length ≤ allocationSanityLimit) t := fun r t ht => by
    have hholds : ∀ u : Machine T, u.evm.memory = t.evm.memory → u.evm.memory.length ≤ allocationSanityLimit :=
      fun u hu => by
        rw [hu]
        exact ht
    exact wp_mono (overlooks_sameMemory.settleStep x.scope x.instruction r t) (fun _ u => hholds u) fun _ u => hholds u
  unfold executeStep
  rw [wp_bind, wp_attempt]
  exact wp_mono (wp_executeInstruction_limited exec hmodest hlimited) (fun r t ht => hsettle _ t ht)
    fun _ t ht => ⟨fun _ _ => hsettle _ t ht, fun _ => ht⟩

/-- A turn whose instruction asks for more than the limit ends the frame. -/
theorem executeStep_refuses {x : Step T} (exec : Exec T) (hguarded : x.Guarded)
    (hlimited : x.before.evm.memory.length ≤ allocationSanityLimit) (hbeyond : allocationSanityLimit < x.asks) :
    ∃ t, executeStep exec x.scope x.instruction x.before = .ok (some []) t ∧ t.evm.reverted = true ∧
      t.evm.memory = x.before.evm.memory := by
  have hstep : wp (executeStep exec x.scope x.instruction)
      (fun o t => o = some [] ∧ t.evm.reverted = true ∧ t.evm.memory = x.before.evm.memory)
        (fun _ _ => False) x.before := by
    unfold executeStep
    rw [wp_bind, wp_attempt]
    refine wp_mono (wp_executeInstruction_refuses hlimited hbeyond hguarded exec) (fun r t ⟨hhalt, hmemory⟩ => ?_)
      fun f t ⟨⟨r, hr⟩, hmemory⟩ => ⟨fun _ _ => ?_, fun h => absurd hr (h r)⟩
    · obtain ⟨cost, rfl⟩ := hhalt
      simp only [settleStep, halted, drainGas, recordOp, haltFrame, wp_bind, wp_modify, wp_ite, wp_get, wp_emit, wp_pure,
        hmemory, and_self, implies_true]
    · simp only [settleStep, halted, drainGas, wp_bind, wp_modify, wp_get, wp_emit, wp_pure, hmemory, and_self]
  obtain ⟨o, t, hrun, rfl, hrev, hmemory⟩ := exists_ok hstep
  exact ⟨t, hrun, hrev, hmemory⟩

/-- Every instruction of the run that asks for more than the limit is guarded. -/
def ModestRun (sc₀ : Scope) (s₀ : Machine T) : Prop :=
  ∀ sc s instruction, Reaches sc₀ s₀ sc s → currentInstruction sc s.evm = some instruction →
    Step.Modest ⟨sc, instruction, s⟩

theorem Reaches.limited {sc₀ sc : Scope} {s₀ s : Machine T} (h : Reaches sc₀ s₀ sc s) (hs₀ : Unused s₀)
    (hmodest : ModestRun sc₀ s₀) : s.evm.memory.length ≤ allocationSanityLimit := by
  have henter : ∀ {sc : Scope} {s t : Machine T}, enterFrame sc s = .ok ⟨⟩ t → t.evm.memory = s.evm.memory := fun h =>
    (overlooks_sameMemory.enterFrame _).ok h
  induction h with
  | start enters _ =>
    rw [henter enters, hs₀.memory]
    exact Nat.zero_le _
  | turn hreach current step ih =>
    exact (wp_of_ok step).1 (wp_executeStep_limited (x := ⟨_, _, _⟩) _ (hmodest _ _ _ hreach current) ih)
  | inner _ _ opens enters _ _ =>
    have hfresh := (opens_of_openedFrame (x := ⟨_, _, _⟩) opens).fresh
    rw [henter enters, Inner.machine, hfresh.evm]
    exact Nat.zero_le _

/-- In a run whose every instruction that asks for more than the limit is guarded the memory of
    every frame stays within the limit, at every boundary and wherever an instruction leaves it;
    and one that asks for more halts its frame, the memory as it was. -/
theorem memory_limited {sc₀ : Scope} {s₀ : Machine T} (hs₀ : Unused s₀) (hmodest : ModestRun sc₀ s₀) (sc : Scope)
    (s : Machine T) (h : Reaches sc₀ s₀ sc s) :
    s.evm.memory.length ≤ allocationSanityLimit ∧
    ∀ instruction fuel, currentInstruction sc s.evm = some instruction →
      (∀ o t, executeStep (executeWithContext fuel) sc instruction s = .ok o t →
        t.evm.memory.length ≤ allocationSanityLimit) ∧
      (∀ f t, executeStep (executeWithContext fuel) sc instruction s = .error f t →
        t.evm.memory.length ≤ allocationSanityLimit) ∧
      (allocationSanityLimit < (⟨sc, instruction, s⟩ : Step T).asks →
        ∃ t, executeStep (executeWithContext fuel) sc instruction s = .ok (some []) t ∧ t.evm.reverted = true ∧
          t.evm.memory = s.evm.memory) := by
  have hlimited := h.limited hs₀ hmodest
  refine ⟨hlimited, fun instruction fuel hi => ?_⟩
  have hstep := wp_def.1 (wp_executeStep_limited (x := ⟨sc, instruction, s⟩) (executeWithContext fuel)
    (hmodest sc s instruction h hi) hlimited)
  exact ⟨hstep.1, hstep.2, fun hbeyond => executeStep_refuses (x := ⟨sc, instruction, s⟩) (executeWithContext fuel)
    (hmodest sc s instruction h hi hbeyond) hlimited hbeyond⟩

end

/-! ## An MCOPY beyond it -/

/-- An MCOPY that can pay for a source beyond the limit. -/
structure Step.Overreaches (x : Step T) : Prop where
  op : x.op = .mcopy
  has : x.has 3
  size : 0 < (x.operand 2).toNat
  destination : (x.operand 0).toNat + (x.operand 2).toNat ≤ allocationSanityLimit
  source : allocationSanityLimit < (x.operand 1).toNat + (x.operand 2).toNat
  fits : (x.operand 1).toNat + (x.operand 2).toNat < 2 ^ 32
  limited : x.before.evm.memory.length ≤ allocationSanityLimit
  free : 0 ≤ x.before.evm.gas.remaining
  paid : 3 + copyGas (x.operand 2).toNat ≤ x.before.evm.gas.remaining
  covered : 3 + copyGas (x.operand 2).toNat + (memPrice (grownTo x.before.evm.memory.length
    ((x.operand 1).toNat + (x.operand 2).toNat)) - x.before.evm.memCost) ≤ x.before.evm.gas.remaining

/-- It goes through. -/
theorem wp_opMcopy_overgrows {x : Step T} (h : x.Overreaches) :
    wp opMcopy (fun r t => (∃ cost, r = .ok cost ∧ cost ≤ t.evm.gas.remaining) ∧
      allocationSanityLimit < t.evm.memory.length) (fun _ _ => False) x.before := by
  have hlimit : allocationSanityLimit = 2097152 := rfl
  have husize : usizeMax = 2 ^ 64 - 1 := rfl
  have hsize := h.size
  have hdest := h.destination
  have hsource := h.source
  have hfits := h.fits
  have hlimited := h.limited
  have htakes : ∀ i < 3, x.Takes i := fun i hi => ⟨lt_of_lt_of_le hi h.has, by
    have hi : i = 0 ∨ i = 1 ∨ i = 2 := by omega
    rcases hi with rfl | rfl | rfl <;> omega⟩
  show wp opMcopy _ _ (x.popped 0)
  unfold opMcopy
  rw [wp_bind]
  refine wp_popUsize_at (fun _ => ?_) fun hnot => absurd (htakes 0 (by decide)) hnot
  rw [wp_bind]
  refine wp_popUsize_at (fun _ => ?_) fun hnot => absurd (htakes 1 (by decide)) hnot
  rw [wp_bind]
  refine wp_popUsize_at (fun _ => ?_) fun hnot => absurd (htakes 2 (by decide)) hnot
  dsimp only
  rw [wp_charged]
  refine ⟨fun hdry => absurd h.paid (not_le.2 hdry), fun _ => ?_⟩
  have hdestFits : (x.operand 0).toNat + (x.operand 2).toNat ≤ usizeMax := by omega
  have hsourceFits : (x.operand 1).toNat + (x.operand 2).toNat ≤ usizeMax := by omega
  rw [if_neg hsize.ne', wp_bind]
  refine wp_addUsize_fits hdestFits ?_
  rw [wp_bind]
  refine wp_addUsize_fits hsourceFits ?_
  have hmax : max ((x.operand 0).toNat + (x.operand 2).toNat) ((x.operand 1).toNat + (x.operand 2).toNat) =
      (x.operand 1).toNat + (x.operand 2).toNat := max_eq_right (hdest.trans hsource.le)
  have hlt : x.before.evm.memory.length < (x.operand 1).toNat + (x.operand 2).toNat := hlimited.trans_lt hsource
  have hgrown := (le_grownTo x.before.evm.memory.length ((x.operand 1).toNat + (x.operand 2).toNat)).2
  have hbound : grownTo x.before.evm.memory.length ((x.operand 1).toNat + (x.operand 2).toNat) < 2 ^ 32 + 32 := by
    unfold grownTo
    rw [if_pos hlt]
    omega
  have hgrow : wp (mcopyGrow ((x.operand 0).toNat + (x.operand 2).toNat) ((x.operand 1).toNat + (x.operand 2).toNat))
      (fun _ t => ∃ memory, memory.length =
        grownTo x.before.evm.memory.length ((x.operand 1).toNat + (x.operand 2).toNat) ∧
        t = { x.popped 3 with evm.memory := memory }) (fun _ _ => False) (x.popped 3) := by
    simp only [mcopyGrow, growTo, wp_bind, wp_get, wp_ite, wp_refuse, wp_lift, wp_modify, hmax, wp_pure]
    refine ⟨fun _ => ⟨fun hover => absurd hdest (not_le.2 hover), fun _ => ⟨fun memory hmemory => ⟨memory, ?_, rfl⟩,
      fun f hf => ?_⟩⟩, fun hholds => absurd hlt hholds⟩
    · rw [resize_length hmemory, grownTo, if_pos hlt]
    · have hisize : isizeMax = 2 ^ 63 - 1 := rfl
      unfold resize at hf
      rw [if_pos (by omega)] at hf
      cases hf
  rw [wp_bind]
  refine wp_mono hgrow (fun _ t ht => ?_) fun _ _ h => h
  obtain ⟨memory, hlength, ht⟩ := ht
  subst ht
  rw [wp_bind]
  refine wp_readMemory_of (fun _ => ?_) fun hshort => ?_
  · rw [wp_bind]
    have hsmall : divCeil memory.length 32 * divCeil memory.length 32 < 2 ^ 63 := by
      have hwords : divCeil memory.length 32 ≤ 2 ^ 31 := by
        unfold divCeil
        omega
      have hsquare := Nat.mul_le_mul hwords hwords
      omega
    refine wp_memoryExpansionCost_exact hsmall ?_
    rw [wp_charged]
    have hcovered := h.covered
    rw [← hlength] at hcovered
    refine ⟨fun hdry => absurd hcovered (not_le.2 hdry), fun _ => ?_⟩
    rw [wp_bind]
    refine wp_writeMemory_of (fun written hwritten _ => ?_) fun hshort => ?_
    · rw [wp_next]
      refine ⟨⟨_, rfl, hcovered⟩, ?_⟩
      have hwritten : written.length = memory.length := hwritten
      show allocationSanityLimit < written.length
      omega
    · rw [view_length] at hshort
      have hshort : memory.length < (x.operand 0).toNat + (x.operand 2).toNat := hshort
      omega
  · have hshort : memory.length < (x.operand 1).toNat + (x.operand 2).toNat := hshort
    omega

/-- Its frame goes on, with more memory than the limit. -/
theorem executeStep_overgrows [Crypto] [EventTracer T] {x : Step T} (exec : Exec T) (h : x.Overreaches) :
    ∃ t, executeStep exec x.scope x.instruction x.before = .ok none t ∧ allocationSanityLimit < t.evm.memory.length := by
  have hstep : wp (executeStep exec x.scope x.instruction)
      (fun o t => o = none ∧ allocationSanityLimit < t.evm.memory.length) (fun _ _ => False) x.before := by
    have hop : x.instruction.op = .mcopy := h.op
    unfold executeStep
    rw [wp_bind, wp_attempt, show executeInstruction exec x.scope x.instruction = opMcopy by
      simp only [executeInstruction, hop]]
    refine wp_mono (wp_opMcopy_overgrows h) (fun r t hr => ?_) fun _ _ hf => hf.elim
    obtain ⟨⟨cost, hr, hcost⟩, hlong⟩ := hr
    subst hr
    have hinvalid : x.instruction.op ≠ .invalid := by rw [hop]; decide
    have hlast : x.instruction.op ≠ .selfdestruct := by rw [hop]; decide
    refine wp_mono (wp_and (wp_settleStep_goes x.scope x.instruction hcost hinvalid hlast)
      (overlooks_sameMemory.settleStep x.scope x.instruction (some (.ok cost)) t)) (fun o u hu => ⟨hu.1.1, ?_⟩)
      fun _ _ hf => hf.1
    rw [show u.evm.memory = t.evm.memory from hu.2]
    exact hlong
  obtain ⟨o, t, hrun, rfl, hlong⟩ := exists_ok hstep
  exact ⟨t, hrun, hlong⟩

namespace Sample

/-- Copies a byte from just beyond the limit to the start of the memory: `PUSH1 1; PUSH4 2097152;
    PUSH0; MCOPY`. -/
def copier : Bytes := [0x60, 0x01, 0x63, 0x00, 0x20, 0x00, 0x00, 0x5f, 0x5e]

/-- A frame with the gas to pay for that. -/
def copierMachine : Machine NoopTracer :=
  { machine [(0xaa, 0, copier)] with evm := { gas := .new 10000000 } }

/-- An MSTORE at 0, an MCOPY of its word to 64, a CALL to 0xbb with its return range at 128, and an
    MSTORE at 2 ^ 24. -/
def grower : Bytes :=
  [0x5f, 0x5f, 0x52, 0x60, 32, 0x5f, 0x60, 64, 0x5e, 0x60, 32, 0x60, 128, 0x5f, 0x5f, 0x5f, 0x60, 0xbb, 0x5a, 0xf1,
    0x5f, 0x63, 1, 0, 0, 0, 0x52]

def growerMachine : Machine NoopTracer := machine [(0xaa, 0, grower), (0xbb, 0, [0x5b])]

end Sample

open Sample

/-- The caller's memory grows by an MSTORE, an MCOPY and the ranges of its CALL, and halts its last
    MSTORE, which asks for more than the limit. -/
theorem memory_limited_grower :
    (∀ x ∈ (history 20 (scope grower) growerMachine).steps, x.before.evm.memory.length ≤ allocationSanityLimit) ∧
    ∃ x ∈ (history 20 (scope grower) growerMachine).steps, x.op = .mstore ∧ x.before.evm.memory.length = 160 ∧
      allocationSanityLimit < x.asks ∧
      ∃ t, executeStep (executeWithContext 20) x.scope x.instruction x.before = .ok (some []) t ∧
        t.evm.reverted = true ∧ t.evm.memory = x.before.evm.memory := by
  have hunused : Unused growerMachine := ⟨rfl, rfl, rfl, rfl, rfl⟩
  have hmodest : ModestRun (scope grower) growerMachine := by
    intro sc s i h hi
    have hrun : returns (executeWithContext 20 (scope grower) growerMachine) (fun _ _ =>
        (history 20 (scope grower) growerMachine).steps.all fun x => decide x.Modest) = true := by decide +kernel
    exact of_decide_eq_true (of_history hrun h hi)
  have hfind : ((history 20 (scope grower) growerMachine).steps.find? fun x =>
      decide (x.op = .mstore ∧ x.before.evm.memory.length = 160 ∧ allocationSanityLimit < x.asks)).isSome = true := by
    decide +kernel
  refine ⟨fun x hx => (memory_limited hunused hmodest _ _ (reaches_history hx).1).1, ?_⟩
  obtain ⟨x, hx⟩ := Option.isSome_iff_exists.1 hfind
  have hmem := List.mem_of_find?_eq_some hx
  have hsome := List.find?_some hx
  simp only [decide_eq_true_eq] at hsome
  obtain ⟨hop, hlength, hbeyond⟩ := hsome
  obtain ⟨hreach, hi⟩ := reaches_history hmem
  exact ⟨x, hmem, hop, hlength, hbeyond, ((memory_limited hunused hmodest _ _ hreach).2 _ 20 hi).2.2 hbeyond⟩

/-- The frame goes on with a memory longer than the limit. -/
theorem memory_unlimited : ∃ sc s t, Reaches (scope copier) copierMachine sc s ∧
    Reaches (scope copier) copierMachine sc t ∧ allocationSanityLimit < t.evm.memory.length := by
  have hfind : ((history 4 (scope copier) copierMachine).steps.find? fun x =>
      decide (x.op = .mcopy ∧ x.before.evm.stack = [0, 2097152, 1] ∧ x.before.evm.memory = [] ∧ x.before.evm.memCost = 0 ∧
        9000000 ≤ x.before.evm.gas.remaining)).isSome = true := by decide +kernel
  obtain ⟨x, hx⟩ := Option.isSome_iff_exists.1 hfind
  have hsome := List.find?_some hx
  simp only [decide_eq_true_eq] at hsome
  obtain ⟨hop, hstack, hmemory, hmemCost, hleft⟩ := hsome
  obtain ⟨hreach, hi⟩ := reaches_history (List.mem_of_find?_eq_some hx)
  have hover : x.Overreaches := by
    have hdest : (x.operand 0).toNat = 0 := by rw [Step.operand, hstack]; rfl
    have hsource : (x.operand 1).toNat = 2097152 := by rw [Step.operand, hstack]; rfl
    have hsize : (x.operand 2).toNat = 1 := by rw [Step.operand, hstack]; rfl
    have hprice : memPrice (grownTo 0 (2097152 + 1)) < 8600000 := by decide
    have hcopy : copyGas 1 = 3 := rfl
    refine ⟨hop, ?_, ?_, ?_, ?_, ?_, ?_, ?_, ?_, ?_⟩
    · rw [Step.has, hstack]
      decide
    · rw [hsize]
      decide
    · rw [hdest, hsize]
      decide
    · rw [hsource, hsize]
      decide
    · rw [hsource, hsize]
      decide
    · rw [hmemory]
      exact Nat.zero_le _
    · omega
    · rw [hsize, hcopy]
      omega
    · rw [hsource, hsize, hmemory, hmemCost, hcopy, List.length_nil]
      omega
  obtain ⟨t, ht, hlong⟩ := executeStep_overgrows (executeWithContext 0) hover
  exact ⟨x.scope, x.before, t, hreach, .turn hreach hi ht, hlong⟩

end Solenoid
