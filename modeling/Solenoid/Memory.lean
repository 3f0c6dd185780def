/-
  Solenoid.Memory — what each instruction makes of its frame's memory.

  Most leave the memory and what was paid for it as they are (`resting`). The others name
  ranges of it (`Step.ranges`), grow it as far as `Step.reach`, and then stand for the same
  endless array with at most one block written (`Step.wrote`); `Shapes` says all of this of an
  instruction that went through, with what it took for the growth.
-/
import Solenoid.CallGas
import Solenoid.PrecompileCalls
import Solenoid.Ranges

namespace Solenoid

open Hoare InfiniteArray

variable {T α β : Type} {s t : Machine T}

/-! ## What leaves the memory -/

/-- The memory is as it was, and so is what was paid for it. -/
structure Rests (s t : Machine T) : Prop where
  memory : t.evm.memory = s.evm.memory
  memCost : t.evm.memCost = s.evm.memCost

theorem Rests.trans {s t u : Machine T} (h : Rests s t) (h' : Rests t u) : Rests s u :=
  ⟨h'.memory.trans h.memory, h'.memCost.trans h.memCost⟩

/-- However the run ends. -/
def resting : Frame Fault (Machine T) where
  ok := Rests
  err _ := Rests
  refl _ := ⟨rfl, rfl⟩
  trans := .trans
  fail := .trans

theorem rests_modify {f : Machine T → Machine T} (h : ∀ s, Rests s (f s)) : Keeps resting (modify f : M T Unit) :=
  .modify h

theorem rests_lift (e : Except Fault α) : Keeps resting (lift e : M T α) := fun _ =>
  (wp_lift e).2 ⟨fun _ _ => ⟨rfl, rfl⟩, fun _ _ => ⟨rfl, rfl⟩⟩

theorem rests_refuse (r : Report) : Keeps resting (refuse r : M T α) := .throw fun _ => ⟨rfl, rfl⟩

theorem rests_error (r : Report) : Keeps resting (onEvm (Evm.error r) : M T α) := fun _ =>
  (wp_onEvm _).2 <| (wp_error r).2 ⟨rfl, rfl⟩

theorem rests_push (v : Word) : Keeps resting (push v : M T Unit) := fun _ =>
  (wp_push v).2 ⟨fun _ => ⟨rfl, rfl⟩, fun _ => ⟨rfl, rfl⟩⟩

theorem rests_pop : Keeps resting (pop : M T Word) := fun _ =>
  wp_pop.2 ⟨fun _ _ _ => ⟨rfl, rfl⟩, fun _ => ⟨rfl, rfl⟩⟩

theorem rests_popUsize : Keeps resting (popUsize : M T Nat) := rests_pop.bind fun _ => rests_lift _

theorem rests_peek1 : Keeps resting (onEvm Evm.peek1 : M T Word) := fun s => by
  rw [wp_onEvm, Evm.peek1, wp_bind, wp_get]
  split
  · exact (wp_pure _).2 ⟨rfl, rfl⟩
  · exact (wp_error _).2 ⟨rfl, rfl⟩

theorem rests_peek2 : Keeps resting (onEvm Evm.peek2 : M T (Word × Word)) := fun s => by
  rw [wp_onEvm, Evm.peek2, wp_bind, wp_get]
  split
  · exact (wp_pure _).2 ⟨rfl, rfl⟩
  · exact (wp_error _).2 ⟨rfl, rfl⟩

theorem rests_charged {gas : Int} {k : M T StepResult} (h : Keeps resting k) : Keeps resting (charged gas k) := fun s =>
  (wp_charged gas k).2 ⟨fun _ => resting.refl s, fun _ => h s⟩

theorem rests_next (gas : Int) : Keeps resting (next gas : M T StepResult) := fun _ => (wp_next gas).2 ⟨rfl, rfl⟩

theorem rests_onExt (m : Run Ext α) : Keeps resting (onExt m : M T α) := fun _ =>
  (wp_onExt m).2 (wp_def.2 ⟨fun _ _ _ => ⟨rfl, rfl⟩, fun _ _ _ => ⟨rfl, rfl⟩⟩)

theorem rests_orError (m : Run Ext α) : Keeps resting (orError m : M T α) := fun s => by
  refine wp_def.2 ⟨fun a t h => ?_, fun f t h => ?_⟩ <;> unfold orError at h <;> split at h <;> cases h <;>
    exact ⟨rfl, rfl⟩

theorem rests_touch (τ : AccountTouch) : Keeps resting (touch τ : M T Unit) := rests_modify fun _ => ⟨rfl, rfl⟩

theorem rests_setRet (ret : Bytes) : Keeps resting (setRet ret : M T Unit) := rests_modify fun _ => ⟨rfl, rfl⟩

theorem rests_emit [EventTracer T] (depth : Nat) (reverted : Bool) (data : EventData) :
    Keeps resting (emit depth reverted data : M T Unit) := rests_modify fun _ => ⟨rfl, rfl⟩

theorem rests_warmTouch (address : Address) : Keeps resting (warmTouch address : M T Unit) :=
  (rests_onExt _).bind fun _ => .ite (fun _ => rests_touch _) fun _ => .pure _

theorem rests_addressAccessCost (address : Address) : Keeps resting (addressAccessCost address : M T Int) := by
  refine .ite (fun _ => .pure _) fun _ => ?_
  refine (rests_onExt _).bind fun _ => ?_
  refine .ite (fun _ => ?_) fun _ => .pure _
  refine (rests_touch _).bind fun _ => ?_
  exact .pure _

theorem rests_readMemory (start till : Nat) : Keeps resting (readMemory start till : M T Bytes) :=
  Keeps.get.bind fun _ => rests_lift _

theorem rests_pushing (gas : Int) (value : Machine T → Except Fault Word) :
    Keeps resting (pushing gas value : M T StepResult) := by
  apply rests_charged
  refine Keeps.get.bind fun _ => ?_
  refine (rests_lift _).bind fun _ => ?_
  refine (rests_push _).bind fun _ => ?_
  exact rests_next gas

theorem rests_unary (gas : Int) (f : Word → Word) : Keeps resting (unary gas f : M T StepResult) :=
  rests_charged <| rests_pop.bind fun _ => (rests_push _).bind fun _ => rests_next gas

theorem rests_binary (gas : Int) (conv : Word → Except Fault α) (f : α → Word → Except Fault Word) :
    Keeps resting (binary gas conv f : M T StepResult) := by
  apply rests_charged
  refine rests_pop.bind fun _ => ?_
  refine (rests_lift _).bind fun _ => ?_
  refine rests_pop.bind fun _ => ?_
  refine (rests_lift _).bind fun _ => ?_
  refine (rests_push _).bind fun _ => ?_
  exact rests_next gas

theorem rests_ternary (gas : Int) (f : Word → Word → Word → Except Fault Word) :
    Keeps resting (ternary gas f : M T StepResult) := by
  apply rests_charged
  refine rests_pop.bind fun _ => ?_
  refine rests_pop.bind fun _ => ?_
  refine rests_pop.bind fun _ => ?_
  refine (rests_lift _).bind fun _ => ?_
  refine (rests_push _).bind fun _ => ?_
  exact rests_next gas

theorem rests_jumpTo (gas : Int) (target : Option Nat) : Keeps resting (jumpTo gas target : M T StepResult) := by
  cases target with
  | none => exact .pure _
  | some dest => exact Keeps.bind (rests_modify fun _ => ⟨rfl, rfl⟩) fun _ => .pure _

theorem rests_popTopics : ∀ n : Nat, Keeps resting (popTopics n : M T (List Word))
  | 0 => .pure _
  | n + 1 => rests_pop.bind fun _ => (rests_popTopics n).bind fun _ => .pure _

theorem rests_logData (offset size : Nat) : Keeps resting (logData offset size : M T Bytes) := by
  refine (rests_lift _).bind fun _ => ?_
  refine Keeps.get.bind fun _ => ?_
  exact .ite (fun _ => .ite (fun _ => rests_refuse _) fun _ => .pure _) fun _ => rests_readMemory _ _

theorem rests_warmSlot (sc : Scope) (key : Word) : Keeps resting (warmSlot sc key : M T Bool) :=
  Keeps.get.bind fun _ => .ite (fun _ => .pure _) fun _ => (rests_onExt _).bind fun _ => .pure _

section

variable [Crypto]

theorem rests_touchCode (address : Address) : Keeps resting (touchCode address : M T (Bytes × Word)) :=
  (rests_onExt _).bind fun _ => (rests_touch _).bind fun _ => .pure _

theorem rests_storeSlot [EventTracer T] (sc : Scope) (instruction : Instruction) (key new : Word) (isWarm : Bool) :
    Keeps resting (storeSlot sc instruction key new isWarm : M T StepResult) := fun s => by
  unfold storeSlot
  rw [wp_bind]
  refine wp_mono (rests_orError _ s) (fun val t ht => ?_) fun _ _ h => h
  simp only [wp_bind, wp_get, wp_ite, wp_emit, wp_pure, wp_orError_put, wp_modify, wp_touch, wp_next]
  have ht : Rests s t := ht
  exact ⟨fun _ => ⟨ht.memory, ht.memCost⟩, fun _ => ⟨fun _ => ⟨ht.memory, ht.memCost⟩, fun _ => ⟨ht.memory, ht.memCost⟩⟩⟩

/-- The instructions that name no range of the memory, and the two that read one without
    growing it. -/
def Op.shapes : Op → Bool
  | .mload | .mstore | .mstore8 | .mcopy | .calldatacopy | .codecopy | .extcodecopy | .returndatacopy | .return_ | .revert |
    .create | .create2 | .call | .callcode | .delegatecall | .staticcall => true
  | _ => false

theorem rests_instruction [EventTracer T] (exec : Exec T) (sc : Scope) {instruction : Instruction}
    (h : instruction.op.shapes = false) : Keeps resting (executeInstruction exec sc instruction) := by
  unfold executeInstruction
  cases hop : instruction.op
  case mload | mstore | mstore8 | mcopy | calldatacopy | codecopy | extcodecopy | returndatacopy | return_ | revert |
      create | create2 | call | callcode | delegatecall | staticcall =>
    rw [hop] at h
    cases h
  case exp =>
    refine rests_pop.bind fun _ => ?_
    refine rests_pop.bind fun _ => ?_
    apply rests_charged
    refine (rests_push _).bind fun _ => ?_
    exact rests_next _
  case sha3 =>
    refine rests_popUsize.bind fun _ => ?_
    refine rests_popUsize.bind fun _ => ?_
    refine .ite (fun _ => ?_) fun _ => ?_
    · refine (rests_lift _).bind fun _ => ?_
      exact rests_refuse _
    · refine Keeps.get.bind fun _ => ?_
      refine (rests_emit _ _ _).bind fun _ => ?_
      apply rests_charged
      refine (rests_push _).bind fun _ => ?_
      exact rests_next _
  case balance =>
    refine rests_pop.bind fun _ => ?_
    refine (rests_addressAccessCost _).bind fun _ => ?_
    apply rests_charged
    refine (rests_onExt _).bind fun _ => ?_
    refine (rests_touch _).bind fun _ => ?_
    refine (rests_push _).bind fun _ => ?_
    exact rests_next _
  case calldataload =>
    apply rests_charged
    refine rests_popUsize.bind fun _ => ?_
    refine (rests_push _).bind fun _ => ?_
    exact rests_next _
  case extcodesize =>
    refine rests_pop.bind fun _ => ?_
    refine (rests_addressAccessCost _).bind fun _ => ?_
    apply rests_charged
    refine (rests_touchCode _).bind fun _ => ?_
    refine (rests_push _).bind fun _ => ?_
    exact rests_next _
  case extcodehash =>
    refine rests_pop.bind fun _ => ?_
    refine (rests_addressAccessCost _).bind fun _ => ?_
    apply rests_charged
    refine (rests_touchCode _).bind fun _ => ?_
    refine (rests_onExt _).bind fun _ => ?_
    refine (rests_push _).bind fun _ => ?_
    exact rests_next _
  case blockhash =>
    apply rests_charged
    refine rests_pop.bind fun _ => ?_
    refine (Keeps.get.bind fun _ => .ite (fun _ => .pure _) fun _ => rests_onExt _).bind fun _ => ?_
    refine (rests_push _).bind fun _ => ?_
    exact rests_next _
  case selfbalance =>
    apply rests_charged
    refine (rests_onExt _).bind fun _ => ?_
    refine (rests_touch _).bind fun _ => ?_
    refine (rests_push _).bind fun _ => ?_
    exact rests_next _
  case blobhash => exact rests_charged <| rests_pop.bind fun _ => (rests_push _).bind fun _ => rests_next _
  case pop => exact rests_charged <| rests_pop.bind fun _ => rests_next _
  case sload =>
    refine rests_peek1.bind fun _ => ?_
    refine (rests_warmSlot sc _).bind fun _ => ?_
    apply rests_charged
    refine rests_pop.bind fun _ => ?_
    refine (rests_orError _).bind fun _ => ?_
    refine (rests_push _).bind fun _ => ?_
    refine (rests_touch _).bind fun _ => ?_
    refine (rests_emit _ _ _).bind fun _ => ?_
    exact rests_next _
  case sstore =>
    refine .ite (fun _ => rests_refuse _) fun _ => ?_
    refine rests_pop.bind fun _ => ?_
    refine rests_pop.bind fun _ => ?_
    refine (rests_warmSlot sc _).bind fun _ => ?_
    exact rests_storeSlot sc instruction _ _ _
  case jump => exact rests_charged <| rests_popUsize.bind fun _ => rests_jumpTo _ _
  case jumpi =>
    apply rests_charged
    refine rests_popUsize.bind fun _ => ?_
    refine rests_pop.bind fun _ => ?_
    exact .ite (fun _ => rests_jumpTo _ _) fun _ => rests_next _
  case jumpdest => exact rests_charged (rests_next 1)
  case tload =>
    apply rests_charged
    refine rests_pop.bind fun _ => ?_
    refine Keeps.get.bind fun _ => ?_
    refine (rests_push _).bind fun _ => ?_
    exact rests_next _
  case tstore =>
    apply rests_charged
    refine rests_pop.bind fun _ => ?_
    refine rests_pop.bind fun _ => ?_
    refine Keeps.get.bind fun _ => ?_
    refine Keeps.bind (rests_modify fun _ => ⟨rfl, rfl⟩) fun _ => ?_
    refine (rests_touch _).bind fun _ => ?_
    exact rests_next _
  case dup =>
    apply rests_charged
    refine Keeps.get.bind fun s => ?_
    cases s.evm.stack[instruction.opcode.n.toNat - 1]? with
    | none => exact rests_error _
    | some val => exact (rests_push val).bind fun _ => rests_next _
  case swap =>
    apply rests_charged
    refine Keeps.get.bind fun s => ?_
    cases swapTop instruction.opcode.n.toNat s.evm.stack with
    | none => exact rests_error _
    | some stack =>
      exact Keeps.bind (rests_modify fun _ => ⟨rfl, rfl⟩) fun _ => rests_next _
  case log =>
    refine .ite (fun _ => rests_refuse _) fun _ => ?_
    refine rests_peek2.bind fun _ => ?_
    refine (rests_lift _).bind fun _ => ?_
    refine (rests_lift _).bind fun _ => ?_
    refine (rests_lift _).bind fun _ => ?_
    apply rests_charged
    refine rests_pop.bind fun _ => ?_
    refine rests_pop.bind fun _ => ?_
    refine (rests_popTopics _).bind fun _ => ?_
    refine (rests_logData _ _).bind fun _ => ?_
    refine Keeps.bind (rests_modify fun _ => ⟨rfl, rfl⟩) fun _ => ?_
    exact rests_next _
  case stop =>
    refine Keeps.bind (rests_modify fun _ => ⟨rfl, rfl⟩) fun _ => ?_
    refine (rests_setRet _).bind fun _ => ?_
    refine (Keeps.get.bind fun _ => rests_emit _ _ _).bind fun _ => ?_
    exact .pure _
  case invalid => exact rests_next _
  case selfdestruct =>
    refine .ite (fun _ => rests_refuse _) fun _ => ?_
    refine rests_pop.bind fun _ => ?_
    refine Keeps.get.bind fun _ => ?_
    refine (rests_onExt _).bind fun _ => ?_
    refine (rests_onExt _).bind fun _ => ?_
    refine (rests_onExt _).bind fun _ => ?_
    refine (rests_onExt _).bind fun _ => ?_
    refine Keeps.bind (rests_modify fun _ => ⟨rfl, rfl⟩) fun _ => ?_
    exact rests_next _
  case unknown => exact rests_refuse _
  all_goals
    first
    | exact rests_pushing _ _
    | exact rests_binary _ _ _
    | exact rests_unary _ _
    | exact rests_ternary _ _

end

/-! ## Growing, reading and writing -/

section

variable {Q : β → Machine T → Prop} {E : Fault → Machine T → Prop}

theorem wp_addUsize {Q : Nat → Machine T → Prop} {a b : Nat} (hQ : a + b ≤ usizeMax → Q (a + b) s)
    (hE : allocationSanityLimit < a + b → ∀ f t, E f t) : wp (lift (addUsize a b)) Q E s := by
  have hlimit : allocationSanityLimit ≤ usizeMax := by decide
  rw [wp_lift]
  unfold addUsize
  split
  · next hle =>
    refine ⟨fun n hn => ?_, fun _ h => (nomatch h)⟩
    cases hn
    exact hQ hle
  · next hlt => exact ⟨fun _ h => (nomatch h), fun _ _ => hE (hlimit.trans_lt (not_le.1 hlt)) _ _⟩

/-- Memory of the same contents, grown to cover so much. -/
structure Stretched (b : Bytes) (till : Nat) (memory : Bytes) : Prop where
  image : image 0 memory = image 0 b
  length : memory.length = grownTo b.length till

theorem stretched_replicate (b : Bytes) (till : Nat) :
    Stretched b till (b ++ List.replicate (grownTo b.length till - b.length) 0) := by
  refine ⟨image_append_replicate 0 b _, ?_⟩
  have hle := (le_grownTo b.length till).1
  rw [List.length_append, List.length_replicate]
  omega

theorem Stretched.covers {b memory : Bytes} {till : Nat} (h : Stretched b till memory) : till ≤ memory.length := by
  rw [h.length]
  exact (le_grownTo _ _).2

theorem wp_expandTo_of {Q : Unit → Machine T → Prop} {till : Nat}
    (hQ : ∀ memory, Stretched s.evm.memory till memory → Q () { s with evm.memory := memory })
    (hE : allocationSanityLimit < till → ∀ f t, E f t) : wp (expandTo till) Q E s :=
  wp_expandTo_exact till (fun _ => hQ _ (stretched_replicate _ till)) fun _ hlimit => hE hlimit _ _

theorem wp_writeMemory_of {Q : Unit → Machine T → Prop} {start : Nat} {data : Bytes}
    (hQ : ∀ memory, memory.length = s.evm.memory.length → image 0 memory = patch (image 0 s.evm.memory) start data →
      Q () { s with evm.memory := memory })
    (hE : s.evm.memory.length < start + data.length → ∀ f t, E f t) : wp (writeMemory start data) Q E s := by
  unfold writeMemory
  rw [wp_bind, wp_get, wp_bind, wp_lift]
  refine ⟨fun memory hm => ?_, fun f hf => hE ?_ _ _⟩
  · rw [wp_modify]
    refine hQ memory (copyFromSlice_length hm) ?_
    unfold copyFromSlice at hm
    split at hm
    · next hle =>
      cases hm
      exact image_splice hle
    · cases hm
  · unfold copyFromSlice at hf
    split at hf
    · cases hf
    · next hlt => exact not_le.1 hlt

theorem wp_readMemory_of {Q : Bytes → Machine T → Prop} {offset size : Nat}
    (hQ : offset + size ≤ s.evm.memory.length → Q (view (image 0 s.evm.memory) offset size) s)
    (hE : s.evm.memory.length < offset + size → ∀ f t, E f t) : wp (readMemory offset (offset + size)) Q E s := by
  unfold readMemory
  rw [wp_bind, wp_get, wp_lift]
  by_cases hle : offset + size ≤ s.evm.memory.length
  · have hQ := hQ hle
    rw [view_image_of_le hle] at hQ
    rw [slice_fits (Nat.le_add_right offset size) hle, Nat.add_sub_cancel_left]
    refine ⟨fun data hdata => ?_, fun _ h => (nomatch h)⟩
    cases hdata
    exact hQ
  · rw [slice_beyond (not_le.1 hle)]
    exact ⟨fun _ h => (nomatch h), fun _ _ => hE (not_le.1 hle) _ _⟩

/-- The square of the memory's words fits an `i64`. -/
def Evm.Small (e : Evm) : Prop := divCeil e.memory.length 32 * divCeil e.memory.length 32 < 2 ^ 63

theorem wp_memoryExpansionCost_of {Q : Int → Machine T → Prop}
    (hQ : s.evm.Small → Q (memPrice s.evm.memory.length - s.evm.memCost)
      { s with evm.memCost := memPrice s.evm.memory.length })
    (hE : ¬s.evm.Small → ∀ f t, E f t) : wp memoryExpansionCost Q E s := by
  by_cases hsmall : s.evm.Small
  · exact wp_memoryExpansionCost_exact hsmall (hQ hsmall)
  · simp only [memoryExpansionCost, Evm.memoryExpansionCost, wp_onEvm, wp_bind, wp_get, wp_lift, wp_set, wp_pure]
    refine ⟨fun square hsquare => absurd ?_ hsmall, fun _ _ => hE hsmall _ _⟩
    unfold checkI64 at hsquare
    split at hsquare
    · next hroom =>
      unfold Evm.Small
      omega
    · cases hsquare

theorem Stretched.small {b memory : Bytes} {till : Nat} (h : Stretched b till memory)
    (hsmall : divCeil b.length 32 * divCeil b.length 32 < 2 ^ 63) (hlimit : till ≤ allocationSanityLimit) :
    divCeil memory.length 32 * divCeil memory.length 32 < 2 ^ 63 := by
  rw [h.length]
  exact small_grown hsmall fun _ => hlimit

end

/-! ## Ranges -/

namespace Step

variable (x : Step T)

/-- The ranges of the memory an instruction reads or writes, by offset and size. -/
def ranges : List (Nat × Nat) :=
  match x.op with
  | .sha3 | .log | .return_ | .revert => [((x.operand 0).toNat, (x.operand 1).toNat)]
  | .mload | .mstore => [((x.operand 0).toNat, 32)]
  | .mstore8 => [((x.operand 0).toNat, 1)]
  | .mcopy => [((x.operand 0).toNat, (x.operand 2).toNat), ((x.operand 1).toNat, (x.operand 2).toNat)]
  | .calldatacopy | .codecopy | .returndatacopy => [((x.operand 0).toNat, (x.operand 2).toNat)]
  | .extcodecopy => [((x.operand 1).toNat, (x.operand 3).toNat)]
  | .create | .create2 => [((x.operand 1).toNat, (x.operand 2).toNat)]
  | .call | .callcode | .delegatecall | .staticcall => [(x.argsOffset, x.argsSize), (x.retOffset, x.retSize)]
  | _ => []

/-- The range of the call data or of the code that a copy takes. -/
def sources : List (Nat × Nat) :=
  match x.op with
  | .calldatacopy | .codecopy => [((x.operand 1).toNat, (x.operand 2).toNat)]
  | .extcodecopy => [((x.operand 2).toNat, (x.operand 3).toNat)]
  | _ => []

/-- Where the last of the ranges ends that are not empty. -/
def till : Nat := x.ranges.foldr (fun r n => max (rangeTill r.1 r.2) n) 0

/-- How far the code grows the memory: three of the copies do so for an empty range too, and
    two instructions that read do not. -/
def reach : Nat :=
  match x.op with
  | .sha3 | .log => 0
  | .codecopy | .returndatacopy => (x.operand 0).toNat + (x.operand 2).toNat
  | .extcodecopy => (x.operand 1).toNat + (x.operand 3).toNat
  | _ => x.till

/-- The operands are there, and no range is empty or goes beyond the sanity limit. -/
structure Fits (n : Nat) : Prop where
  has : x.has n
  stack : x.before.evm.stack.length ≤ stackLimit
  small : x.before.evm.Small
  within : ∀ r ∈ x.ranges ++ x.sources, 0 < r.2 ∧ r.1 + r.2 ≤ allocationSanityLimit

/-- Out of gas, or on with the cost and the machine in `p`. -/
def Outcome (p : Int → Machine T → Prop) (r : StepResult) (t : Machine T) : Prop :=
  (∃ cost, r = .halt cost ∧ x.before.evm.gas.remaining < cost) ∨ ∃ cost, r = .ok cost ∧ p cost t

variable [Crypto]

/-- The code of the account EXTCODECOPY names. -/
def copiedCode : Bytes := ((x.before.ext.account? (.ofWord (x.operand 0))).map (·.code.1)).getD []

/-- The memory after the instruction, from the memory `f` before it and the return buffer after
    it. -/
def wrote (ret : Bytes) (f : Nat → UInt8) : Nat → UInt8 :=
  match x.op with
  | .mstore => patch f (x.operand 0).toNat (x.operand 1).intoBytes
  | .mstore8 => patch f (x.operand 0).toNat [UInt8.ofNat (x.operand 1).toNat]
  | .mcopy => patch f (x.operand 0).toNat (view f (x.operand 1).toNat (x.operand 2).toNat)
  | .calldatacopy =>
    patch f (x.operand 0).toNat (view (image 0 x.scope.call.data) (x.operand 1).toNat (x.operand 2).toNat)
  | .codecopy =>
    patch f (x.operand 0).toNat (view (image 0 x.scope.code.bytecode) (x.operand 1).toNat (x.operand 2).toNat)
  | .extcodecopy => patch f (x.operand 1).toNat (view (image 0 x.copiedCode) (x.operand 2).toNat (x.operand 3).toNat)
  | .returndatacopy =>
    patch f (x.operand 0).toNat (view (image 0 x.before.exe.ret) (x.operand 1).toNat (x.operand 2).toNat)
  | .call | .callcode | .delegatecall | .staticcall => patch f x.retOffset (ret.take x.retSize)
  | _ => f

/-- What is the cost of an instruction that grows the memory, the growth aside. -/
def bare : Int :=
  match x.op with
  | .mload | .mstore | .mstore8 => 3
  | .mcopy | .calldatacopy | .codecopy | .returndatacopy => 3 + copyGas (x.operand 2).toNat
  | .extcodecopy => copyGas (x.operand 3).toNat + x.before.ext.accessCost (.ofWord (x.operand 0))
  | .create => 32000 + 2 * divCeil (x.operand 2).toNat 32
  | .create2 => 32000 + 8 * divCeil (x.operand 2).toNat 32
  | .call | .callcode | .delegatecall | .staticcall => x.takenBase - x.callExpansion
  | _ => 0

end Step

/-- What an instruction leaves of the memory. -/
structure Shapes [Crypto] (x : Step T) (t : Machine T) : Prop where
  image : image 0 t.evm.memory = x.wrote t.exe.ret (image 0 x.before.evm.memory)
  length : t.evm.memory.length = grownTo x.before.evm.memory.length x.reach
  price : t.evm.memCost = memPrice t.evm.memory.length ∨
    t.evm.memCost = x.before.evm.memCost ∧ t.evm.memory.length = x.before.evm.memory.length

/-- The cost is that of the instruction and of the growth. -/
structure Spreads [Crypto] (x : Step T) (cost : Int) (t : Machine T) : Prop where
  shapes : Shapes x t
  cost : cost = x.bare + (t.evm.memCost - x.before.evm.memCost)

/-! ## The instructions that work on memory -/

section

variable {x : Step T} {Q : β → Machine T → Prop} {E : Fault → Machine T → Prop}

/-- The frame with the first operands taken. -/
def Step.popped (x : Step T) (n : Nat) : Machine T := { x.before with evm.stack := x.before.evm.stack.drop n }

/-- The operand is there and fits a `usize`. -/
structure Step.Takes (x : Step T) (i : Nat) : Prop where
  has : i < x.before.evm.stack.length
  narrow : (x.operand i).toNat < 2 ^ 64

theorem Step.Fits.takes {n i : Nat} (h : x.Fits n) (hi : i < n) (hle : (x.operand i).toNat ≤ allocationSanityLimit) :
    x.Takes i := by
  refine ⟨lt_of_lt_of_le hi h.has, ?_⟩
  have hlimit : allocationSanityLimit = 2097152 := rfl
  omega

/-- There is room for one result. -/
theorem Step.Fits.room {n : Nat} (h : x.Fits n) (hn : 0 < n) : (x.before.evm.stack.drop n).length < stackLimit := by
  have hhas := h.has
  have hstack := h.stack
  unfold Step.has at hhas
  rw [List.length_drop]
  omega

theorem wp_pop_at {Q : Word → Machine T → Prop} {i : Nat}
    (hQ : i < x.before.evm.stack.length → Q (x.operand i) (x.popped (i + 1)))
    (hE : ¬i < x.before.evm.stack.length → ∀ f t, E f t) : wp pop Q E (x.popped i) := by
  rw [wp_pop]
  refine ⟨fun w rest hst => ?_, fun hst => hE (not_lt.2 (List.drop_eq_nil_iff.1 hst)) _ _⟩
  have hst : x.before.evm.stack.drop i = w :: rest := hst
  have hlen : i < x.before.evm.stack.length := by
    by_contra hnot
    rw [List.drop_eq_nil_iff.2 (not_lt.1 hnot)] at hst
    cases hst
  have hQ := hQ hlen
  rw [List.drop_eq_getElem_cons hlen, List.cons.injEq] at hst
  rw [Step.operand, List.getD_eq_getElem _ _ hlen, Step.popped, hst.1, hst.2] at hQ
  exact hQ

theorem wp_popUsize_at {Q : Nat → Machine T → Prop} {i : Nat}
    (hQ : x.Takes i → Q (x.operand i).toNat (x.popped (i + 1))) (hE : ¬x.Takes i → ∀ f t, E f t) :
    wp popUsize Q E (x.popped i) := by
  unfold popUsize
  rw [wp_bind]
  refine wp_pop_at (fun hlen => (wp_lift _).2 ⟨fun n hn => ?_, fun f hf => ?_⟩) fun hlen => hE fun h => hlen h.has
  · obtain rfl := asUsize_ok hn
    exact hQ ⟨hlen, asUsize_lt hn⟩
  · exact hE (fun h => (asUsize_error hf).1 h.narrow) _ _

/-- Memory grown and priced. -/
def Step.grown (x : Step T) (n : Nat) (memory : Bytes) : Machine T :=
  { x.popped n with evm.memory := memory, evm.memCost := memPrice memory.length }

/-- An instruction that grows the memory and is priced for it. -/
theorem wp_grow {n till : Nat} {k : Int → M T β}
    (hQ : ∀ memory, Stretched x.before.evm.memory till memory →
      wp (k (memPrice memory.length - x.before.evm.memCost)) Q E (x.grown n memory))
    (hE : ¬(till ≤ allocationSanityLimit ∧ x.before.evm.Small) → ∀ f t, E f t) :
    wp (do
      expandTo till
      k (← memoryExpansionCost)) Q E (x.popped n) := by
  rw [wp_bind]
  refine wp_expandTo_of (fun memory hmemory => ?_) fun hlimit => hE fun h => absurd h.1 (not_le.2 hlimit)
  rw [wp_bind]
  refine wp_memoryExpansionCost_of (fun _ => hQ memory hmemory) fun hlarge => hE fun h => hlarge ?_
  exact hmemory.small h.2 h.1

end

section

variable [Crypto] {x : Step T}

/-- What went through grew the memory, was priced, and may then have written it. -/
theorem Spreads.of_stretched {memory : Bytes} {till : Nat} {cost : Int}
    (hmemory : Stretched x.before.evm.memory till memory)
    (hreach : x.reach = till) (hcost : cost = x.bare + (memPrice memory.length - x.before.evm.memCost))
    (himage : image 0 t.evm.memory = x.wrote t.exe.ret (image 0 memory)) (hlength : t.evm.memory.length = memory.length)
    (hprice : t.evm.memCost = memPrice memory.length) : Spreads x cost t where
  shapes := by
    refine ⟨?_, hlength.trans (hreach ▸ hmemory.length), .inl ?_⟩
    · rw [himage, hmemory.image]
    · rw [hprice, hlength]
  cost := by rw [hcost, hprice]

theorem wp_opMload_shapes (hop : x.op = .mload) :
    wp opMload (x.Outcome fun cost t => Spreads x cost t ∧ t.evm.stack.head? = some
        (.fromBytes (view (image 0 x.before.evm.memory) (x.operand 0).toNat 32)))
      (fun _ _ => ¬x.Fits 1) x.before := by
  have hreach : x.reach = (x.operand 0).toNat + 32 := by
    simp [Step.reach, Step.till, Step.ranges, hop, rangeTill]
  have hbare : x.bare = 3 := by rw [Step.bare, hop]
  have hwithin : x.Fits 1 → (x.operand 0).toNat + 32 ≤ allocationSanityLimit := fun hfits =>
    (hfits.within ((x.operand 0).toNat, 32) (by simp [Step.ranges, hop])).2
  show wp opMload _ _ (x.popped 0)
  unfold opMload
  rw [wp_bind]
  refine wp_popUsize_at (fun _ => ?_) fun htakes _ _ hfits =>
    htakes (hfits.takes Nat.one_pos ((Nat.le_add_right _ _).trans (hwithin hfits)))
  rw [wp_bind]
  refine wp_addUsize (fun _ => ?_) fun hover _ _ hfits => absurd (hwithin hfits) (not_le.2 hover)
  refine wp_grow (fun memory hmemory => ?_) fun hlarge _ _ hfits => hlarge ⟨hwithin hfits, hfits.small⟩
  rw [wp_charged]
  refine ⟨fun hdry => .inl ⟨_, rfl, hdry⟩, fun _ => ?_⟩
  rw [wp_bind]
  refine wp_readMemory_of (fun _ => ?_) fun hshort => absurd hmemory.covers (not_le.2 hshort)
  rw [wp_bind, wp_push]
  refine ⟨fun _ => ?_, fun hfull hfits => absurd (hfits.room Nat.one_pos) (not_lt.2 hfull)⟩
  rw [wp_next]
  refine .inr ⟨_, rfl, .of_stretched hmemory hreach (by rw [hbare]) ?_ rfl rfl, ?_⟩
  · rw [Step.wrote, hop]
    rfl
  · rw [← hmemory.image]
    rfl

/-- MSTORE and MSTORE8 once their operands are there. -/
theorem wp_store {offset till : Nat} {data : Bytes} (hreach : x.reach = till) (hbare : x.bare = 3)
    (hdata : offset + data.length ≤ till) (hwrote : ∀ ret f, x.wrote ret f = patch f offset data)
    (hwithin : x.Fits 2 → till ≤ allocationSanityLimit) :
    wp (do
      expandTo till
      let expansion ← memoryExpansionCost
      charged (3 + expansion) do
        writeMemory offset data
        next (3 + expansion)) (x.Outcome (Spreads x)) (fun _ _ => ¬x.Fits 2) (x.popped 2) := by
  refine wp_grow (fun memory hmemory => ?_) fun hlarge _ _ hfits => hlarge ⟨hwithin hfits, hfits.small⟩
  rw [wp_charged]
  refine ⟨fun hdry => .inl ⟨_, rfl, hdry⟩, fun _ => ?_⟩
  rw [wp_bind]
  refine wp_writeMemory_of (fun written hlength himage => ?_) fun hshort =>
    absurd (hdata.trans hmemory.covers) (not_le.2 hshort)
  rw [wp_next]
  refine .inr ⟨_, rfl, .of_stretched hmemory hreach (by rw [hbare]) ?_ hlength rfl⟩
  rw [hwrote]
  exact himage

theorem wp_opMstore_shapes (hop : x.op = .mstore) :
    wp opMstore (x.Outcome (Spreads x)) (fun _ _ => ¬x.Fits 2) x.before := by
  have hreach : x.reach = (x.operand 0).toNat + 32 := by
    simp [Step.reach, Step.till, Step.ranges, hop, rangeTill]
  have hwithin : x.Fits 2 → (x.operand 0).toNat + 32 ≤ allocationSanityLimit := fun hfits =>
    (hfits.within ((x.operand 0).toNat, 32) (by simp [Step.ranges, hop])).2
  have hdata : (x.operand 0).toNat + (x.operand 1).intoBytes.length ≤ (x.operand 0).toNat + 32 := by
    simp [Word.intoBytes, natToBytes]
  show wp opMstore _ _ (x.popped 0)
  unfold opMstore
  rw [wp_bind]
  refine wp_popUsize_at (fun _ => ?_) fun htakes _ _ hfits =>
    htakes (hfits.takes (by decide) ((Nat.le_add_right _ _).trans (hwithin hfits)))
  rw [wp_bind]
  refine wp_pop_at (fun _ => ?_) fun hlacks _ _ hfits => hlacks (lt_of_lt_of_le (by decide) hfits.has)
  rw [wp_bind]
  refine wp_addUsize (fun _ => ?_) fun hover _ _ hfits => absurd (hwithin hfits) (not_le.2 hover)
  exact wp_store hreach (by rw [Step.bare, hop]) hdata (fun _ _ => by rw [Step.wrote, hop]) hwithin

omit [Crypto] in
/-- Memory that holds the byte at `offset` is memory grown by it. -/
theorem wp_expandAt_of {Q : Unit → Machine T → Prop} {E : Fault → Machine T → Prop} {offset : Nat}
    (h : wp (expandTo (offset + 1)) Q E s) (hE : allocationSanityLimit < offset + 1 → ∀ f t, E f t) :
    wp (expandAt offset) Q E s := by
  unfold expandAt
  rw [wp_bind, wp_get, wp_ite]
  refine ⟨fun _ => ?_, fun hholds => (wp_pure _).2 ?_⟩
  · rw [wp_bind]
    exact wp_addUsize (fun _ => h) hE
  · unfold expandTo at h
    rw [wp_bind, wp_get, if_neg (not_lt.2 (not_le.1 hholds))] at h
    exact (wp_pure _).1 h

theorem wp_opMstore8_shapes (hop : x.op = .mstore8) :
    wp opMstore8 (x.Outcome (Spreads x)) (fun _ _ => ¬x.Fits 2) x.before := by
  have hreach : x.reach = (x.operand 0).toNat + 1 := by
    simp [Step.reach, Step.till, Step.ranges, hop, rangeTill]
  have hwithin : x.Fits 2 → (x.operand 0).toNat + 1 ≤ allocationSanityLimit := fun hfits =>
    (hfits.within ((x.operand 0).toNat, 1) (by simp [Step.ranges, hop])).2
  show wp opMstore8 _ _ (x.popped 0)
  unfold opMstore8
  rw [wp_bind]
  refine wp_popUsize_at (fun _ => ?_) fun htakes _ _ hfits =>
    htakes (hfits.takes (by decide) ((Nat.le_add_right _ _).trans (hwithin hfits)))
  rw [wp_bind]
  refine wp_pop_at (fun _ => ?_) fun hlacks _ _ hfits => hlacks (lt_of_lt_of_le (by decide) hfits.has)
  rw [wp_bind]
  refine wp_expandAt_of ?_ fun hover _ _ hfits => absurd (hwithin hfits) (not_le.2 hover)
  refine (wp_bind _).1 ?_
  exact wp_store hreach (by rw [Step.bare, hop]) le_rfl (fun _ _ => by rw [Step.wrote, hop]) hwithin

/-! ## Copies -/

omit [Crypto] in
theorem wp_copySource_of {Q : Bytes → Machine T → Prop} {E : Fault → Machine T → Prop} {source : Bytes} {offset size : Nat}
    (hQ : Q (view (image 0 source) offset size) s) (hE : allocationSanityLimit < offset + size → ∀ f t, E f t) :
    wp (copySource source offset size) Q E s := by
  unfold copySource
  rw [wp_bind]
  refine wp_addUsize (fun _ => ?_) hE
  rw [wp_ite]
  refine ⟨fun h => (wp_refuse _).2 (hE h.2 _ _), fun _ => (wp_pure _).2 ?_⟩
  rwa [window_eq_view]

omit [Crypto] in
/-- A copy takes its source zero-extended, and writes nothing else. -/
theorem wp_copyIn_of {Q : Unit → Machine T → Prop} {E : Fault → Machine T → Prop} {source : Bytes}
    {destOffset offset size : Nat}
    (hQ : ∀ memory written, Stretched s.evm.memory (destOffset + size) memory → written.length = memory.length →
      image 0 written = patch (image 0 memory) destOffset (view (image 0 source) offset size) →
      Q () { s with evm.memory := written })
    (hE : ¬(destOffset + size ≤ allocationSanityLimit ∧ offset + size ≤ allocationSanityLimit) → ∀ f t, E f t) :
    wp (copyIn source destOffset offset size) Q E s := by
  unfold copyIn
  rw [wp_bind]
  refine wp_addUsize (fun _ => ?_) fun hlimit => hE fun h => absurd h.1 (not_le.2 hlimit)
  rw [wp_bind]
  refine wp_expandTo_of (fun memory hmemory => ?_) fun hlimit => hE fun h => absurd h.1 (not_le.2 hlimit)
  rw [wp_bind]
  refine wp_copySource_of ?_ fun hlimit => hE fun h => absurd h.2 (not_le.2 hlimit)
  refine wp_writeMemory_of (fun written hlength himage => hQ memory written hmemory hlength himage) fun hshort => ?_
  rw [view_length] at hshort
  exact absurd hmemory.covers (not_le.2 hshort)

omit [Crypto] in
/-- A size beyond the limit and the memory is refused. -/
theorem wp_copyIn_excessive {Q : Unit → Machine T → Prop} {E : Fault → Machine T → Prop} {source : Bytes}
    {destOffset offset size : Nat} (hlimit : allocationSanityLimit < size) (hlong : s.evm.memory.length < size)
    (hE : ∀ f t, E f t) : wp (copyIn source destOffset offset size) Q E s := by
  unfold copyIn
  rw [wp_bind]
  refine wp_addUsize (fun _ => ?_) fun _ => hE
  rw [wp_bind]
  refine wp_expandTo_exact _ (fun hsanity => ?_) fun _ _ => hE _ _
  have hsanity := hsanity (by omega)
  omega

/-- What a copy has written is priced. -/
theorem wp_priced {n m till : Nat} {memory written : Bytes} {gas : Int}
    (hmemory : Stretched x.before.evm.memory till memory) (hreach : x.reach = till) (hgas : gas = x.bare)
    (hlength : written.length = memory.length)
    (himage : ∀ ret, image 0 written = x.wrote ret (image 0 memory)) (hwithin : x.Fits m → till ≤ allocationSanityLimit) :
    wp (do next (gas + (← memoryExpansionCost))) (x.Outcome (Spreads x)) (fun _ _ => ¬x.Fits m)
      { x.popped n with evm.memory := written } := by
  rw [wp_bind]
  refine wp_memoryExpansionCost_of (fun _ => ?_) fun hlarge _ _ hfits => hlarge ?_
  · rw [wp_next]
    have hlength : { x.popped n with evm.memory := written }.evm.memory.length = memory.length := hlength
    refine .inr ⟨_, rfl, .of_stretched hmemory hreach ?_ (himage _) hlength ?_⟩
    · rw [hgas, hlength]
      rfl
    · exact congrArg (fun len : Nat => (memPrice len : Int)) hlength
  · have hsmall := hmemory.small hfits.small (hwithin hfits)
    rw [← hlength] at hsmall
    exact hsmall

/-- The copies that do not ask whether the range is empty. -/
theorem wp_copy {source : Bytes} {gas : Int} (hreach : x.reach = (x.operand 0).toNat + (x.operand 2).toNat)
    (hgas : gas = x.bare) (hwrote : ∀ ret f, x.wrote ret f =
      patch f (x.operand 0).toNat (view (image 0 source) (x.operand 1).toNat (x.operand 2).toNat))
    (hwithin : x.Fits 3 → (x.operand 0).toNat + (x.operand 2).toNat ≤ allocationSanityLimit ∧
      (x.operand 1).toNat + (x.operand 2).toNat ≤ allocationSanityLimit) :
    wp (do
      copyIn source (x.operand 0).toNat (x.operand 1).toNat (x.operand 2).toNat
      next (gas + (← memoryExpansionCost))) (x.Outcome (Spreads x)) (fun _ _ => ¬x.Fits 3) (x.popped 3) := by
  rw [wp_bind]
  refine wp_copyIn_of (fun memory written hmemory hlength himage => ?_) fun hlimit _ _ hfits => hlimit (hwithin hfits)
  exact wp_priced hmemory hreach hgas hlength (fun ret => by rw [hwrote]; exact himage) fun hfits => (hwithin hfits).1

theorem wp_opCodecopy_shapes (hop : x.op = .codecopy) :
    wp (opCodecopy x.scope) (x.Outcome (Spreads x)) (fun _ _ => ¬x.Fits 3) x.before := by
  have hwithin : x.Fits 3 → (x.operand 0).toNat + (x.operand 2).toNat ≤ allocationSanityLimit ∧
      (x.operand 1).toNat + (x.operand 2).toNat ≤ allocationSanityLimit := fun hfits =>
    ⟨(hfits.within ((x.operand 0).toNat, (x.operand 2).toNat) (by simp [Step.ranges, hop])).2,
      (hfits.within ((x.operand 1).toNat, (x.operand 2).toNat) (by simp [Step.sources, hop])).2⟩
  show wp (opCodecopy x.scope) _ _ (x.popped 0)
  unfold opCodecopy
  rw [wp_bind]
  refine wp_popUsize_at (fun _ => ?_) fun htakes _ _ hfits =>
    htakes (hfits.takes (by decide) ((Nat.le_add_right _ _).trans (hwithin hfits).1))
  rw [wp_bind]
  refine wp_popUsize_at (fun _ => ?_) fun htakes _ _ hfits =>
    htakes (hfits.takes (by decide) ((Nat.le_add_right _ _).trans (hwithin hfits).2))
  rw [wp_bind]
  refine wp_popUsize_at (fun _ => ?_) fun htakes _ _ hfits =>
    htakes (hfits.takes (by decide) ((Nat.le_add_left _ _).trans (hwithin hfits).1))
  refine wp_copy ?_ ?_ (fun ret f => ?_) hwithin
  · rw [Step.reach, hop]
  · rw [Step.bare, hop]
  · rw [Step.wrote, hop]

/-- The size is cut before it is used, which no copy that goes through notices. -/
theorem wp_opCalldatacopy_shapes (hop : x.op = .calldatacopy) (hsmall : x.before.evm.memory.length < 2 ^ 37) :
    wp (opCalldatacopy x.scope) (x.Outcome (Spreads x)) (fun _ _ => ¬x.Fits 3) x.before := by
  have hranges : x.Fits 3 → 0 < (x.operand 2).toNat ∧ (x.operand 0).toNat + (x.operand 2).toNat ≤ allocationSanityLimit :=
    fun hfits => hfits.within ((x.operand 0).toNat, (x.operand 2).toNat) (by simp [Step.ranges, hop])
  have hsources : x.Fits 3 → (x.operand 1).toNat + (x.operand 2).toNat ≤ allocationSanityLimit := fun hfits =>
    (hfits.within ((x.operand 1).toNat, (x.operand 2).toNat) (by simp [Step.sources, hop])).2
  have hreach : x.reach = rangeTill (x.operand 0).toNat (x.operand 2).toNat := by
    simp [Step.reach, Step.till, Step.ranges, hop]
  have hwrote : ∀ ret f, x.wrote ret f = patch f (x.operand 0).toNat
      (view (image 0 x.scope.call.data) (x.operand 1).toNat (x.operand 2).toNat) := fun _ _ => by rw [Step.wrote, hop]
  have hlimit : allocationSanityLimit = 2097152 := rfl
  have hcut : usizeMax >>> 1 = 2 ^ 63 - 1 := by decide
  show wp (opCalldatacopy x.scope) _ _ (x.popped 0)
  unfold opCalldatacopy
  rw [wp_bind]
  refine wp_popUsize_at (fun _ => ?_) fun htakes _ _ hfits =>
    htakes (hfits.takes (by decide) ((Nat.le_add_right _ _).trans (hranges hfits).2))
  rw [wp_bind]
  refine wp_popUsize_at (fun _ => ?_) fun htakes _ _ hfits =>
    htakes (hfits.takes (by decide) ((Nat.le_add_right _ _).trans (hsources hfits)))
  rw [wp_bind]
  refine wp_pop_at (fun _ => ?_) fun hlacks _ _ hfits => hlacks (lt_of_lt_of_le (by decide) hfits.has)
  by_cases hfit : (x.operand 2).toNat ≤ usizeMax >>> 1
  · rw [Nat.min_eq_left hfit]
    have hbare : 3 + copyGas (x.operand 2).toNat = x.bare := by rw [Step.bare, hop]
    by_cases hsize : 0 < (x.operand 2).toNat
    · rw [if_pos hsize]
      rw [rangeTill, if_pos hsize] at hreach
      rw [wp_bind]
      refine wp_copyIn_of (fun memory written hmemory hlength himage => ?_) fun hlimit _ _ hfits =>
        hlimit ⟨(hranges hfits).2, hsources hfits⟩
      exact wp_priced hmemory hreach hbare hlength (fun ret => by rw [hwrote]; exact himage) fun hfits => (hranges hfits).2
    · rw [if_neg hsize]
      rw [rangeTill, if_neg hsize] at hreach
      have hsame : Stretched x.before.evm.memory 0 x.before.evm.memory := ⟨rfl, rfl⟩
      show wp _ _ _ { x.popped 3 with evm.memory := x.before.evm.memory }
      refine wp_priced hsame hreach hbare rfl (fun ret => ?_) fun hfits => absurd (hranges hfits).1 hsize
      rw [hwrote, Nat.eq_zero_of_not_pos hsize, view_zero, patch_nil]
  · rw [hcut] at hfit ⊢
    have hpos : 0 < 2 ^ 63 - 1 := by omega
    rw [Nat.min_eq_right (not_le.1 hfit).le, if_pos hpos, wp_bind]
    refine wp_copyIn_excessive (by omega) ?_ fun _ _ hfits => ?_
    · show x.before.evm.memory.length < 2 ^ 63 - 1
      omega
    · have hwithin := (hranges hfits).2
      omega

theorem wp_opReturndatacopy_shapes (hop : x.op = .returndatacopy) :
    wp opReturndatacopy (x.Outcome (Spreads x)) (fun _ _ => ¬(x.Fits 3 ∧ x.Takes 1)) x.before := by
  have hwithin : x.Fits 3 → (x.operand 0).toNat + (x.operand 2).toNat ≤ allocationSanityLimit := fun hfits =>
    (hfits.within ((x.operand 0).toNat, (x.operand 2).toNat) (by simp [Step.ranges, hop])).2
  have hbare : 3 + copyGas (x.operand 2).toNat = x.bare := by rw [Step.bare, hop]
  show wp opReturndatacopy _ _ (x.popped 0)
  unfold opReturndatacopy
  rw [wp_bind]
  refine wp_popUsize_at (fun _ => ?_) fun htakes _ _ h =>
    htakes (h.1.takes (by decide) ((Nat.le_add_right _ _).trans (hwithin h.1)))
  rw [wp_bind]
  refine wp_popUsize_at (fun _ => ?_) fun htakes _ _ h => htakes h.2
  rw [wp_bind]
  refine wp_popUsize_at (fun _ => ?_) fun htakes _ _ h =>
    htakes (h.1.takes (by decide) ((Nat.le_add_left _ _).trans (hwithin h.1)))
  rw [wp_bind]
  refine wp_addUsize (fun _ => ?_) fun hover _ _ h => absurd (hwithin h.1) (not_le.2 hover)
  rw [wp_bind]
  refine wp_expandTo_of (fun memory hmemory => ?_) fun hover _ _ h => absurd (hwithin h.1) (not_le.2 hover)
  rw [wp_bind, wp_get, wp_bind, window_eq_view]
  refine wp_writeMemory_of (fun written hlength himage => ?_) fun hshort => ?_
  · refine wp_mono (wp_priced (x := x) (m := 3) (n := 3) hmemory ?_ hbare hlength (fun ret => ?_) hwithin) (fun _ _ h => h)
      fun _ _ hf h => hf h.1
    · rw [Step.reach, hop]
    · rw [Step.wrote, hop]
      exact himage
  · rw [view_length] at hshort
    exact absurd hmemory.covers (not_le.2 hshort)

theorem wp_opExtcodecopy_shapes (hop : x.op = .extcodecopy) :
    wp opExtcodecopy (x.Outcome (Spreads x))
      (fun _ _ => ¬(x.Fits 4 ∧ ∃ account, x.before.ext.account? (.ofWord (x.operand 0)) = some account)) x.before := by
  have hwithin : x.Fits 4 → (x.operand 1).toNat + (x.operand 3).toNat ≤ allocationSanityLimit ∧
      (x.operand 2).toNat + (x.operand 3).toNat ≤ allocationSanityLimit := fun hfits =>
    ⟨(hfits.within ((x.operand 1).toNat, (x.operand 3).toNat) (by simp [Step.ranges, hop])).2,
      (hfits.within ((x.operand 2).toNat, (x.operand 3).toNat) (by simp [Step.sources, hop])).2⟩
  have hreach : x.reach = (x.operand 1).toNat + (x.operand 3).toNat := by rw [Step.reach, hop]
  show wp opExtcodecopy _ _ (x.popped 0)
  unfold opExtcodecopy
  rw [wp_bind]
  refine wp_pop_at (fun _ => ?_) fun hlacks _ _ h => hlacks (lt_of_lt_of_le (by decide) h.1.has)
  rw [wp_bind]
  refine wp_popUsize_at (fun _ => ?_) fun htakes _ _ h =>
    htakes (h.1.takes (by decide) ((Nat.le_add_right _ _).trans (hwithin h.1).1))
  rw [wp_bind]
  refine wp_popUsize_at (fun _ => ?_) fun htakes _ _ h =>
    htakes (h.1.takes (by decide) ((Nat.le_add_right _ _).trans (hwithin h.1).2))
  rw [wp_bind]
  refine wp_popUsize_at (fun _ => ?_) fun htakes _ _ h =>
    htakes (h.1.takes (by decide) ((Nat.le_add_left _ _).trans (hwithin h.1).1))
  have htouch : wp (touchCode (.ofWord (x.operand 0))) (fun code t => code.1 = x.copiedCode ∧
      t.ext.accessedAddresses = x.before.ext.accessedAddresses)
      (fun _ _ => x.before.ext.account? (.ofWord (x.operand 0)) = none) (x.popped 4) :=
    wp_touchCode_exact (fun hnone _ => hnone) fun account haccount t _ hwarm _ => by
      refine ⟨?_, hwarm⟩
      have haccount : x.before.ext.account? (.ofWord (x.operand 0)) = some account := haccount
      rw [Step.copiedCode, haccount]
      rfl
  rw [wp_bind]
  refine wp_mono (wp_and htouch (rests_touchCode _ _)) (fun code t ht => ?_) fun f t hf h => ?_
  · obtain ⟨⟨hcode, hwarm⟩, hrests⟩ := ht
    have hmemory : t.evm.memory = x.before.evm.memory := hrests.memory
    have hmemCost : t.evm.memCost = x.before.evm.memCost := hrests.memCost
    have haccess : t.ext.accessCost (.ofWord (x.operand 0)) = x.before.ext.accessCost (.ofWord (x.operand 0)) := by
      unfold Ext.accessCost Ext.isAddressWarm
      rw [hwarm]
    rw [wp_bind]
    refine wp_copyIn_of (fun memory written hstretched hlength himage => ?_) fun hlimit _ _ h => hlimit (hwithin h.1)
    rw [hmemory] at hstretched
    rw [wp_bind]
    refine wp_memoryExpansionCost_of (fun _ => ?_) fun hlarge _ _ h => hlarge ?_
    · have hcost : wp (addressAccessCost (.ofWord (x.operand 0)) : M T Int)
          (fun access _ => access = x.before.ext.accessCost (.ofWord (x.operand 0))) (fun _ _ => False)
          { t with evm.memory := written, evm.memCost := memPrice written.length } :=
        wp_addressAccessCost_exact _ fun _ _ _ _ => haccess
      rw [wp_bind]
      refine wp_mono (wp_and hcost (rests_addressAccessCost _ _)) (fun access u hu => ?_) fun _ _ hf => hf.1.elim
      obtain ⟨rfl, hu⟩ := hu
      have hwritten : u.evm.memory = written := hu.memory
      have hpaid : u.evm.memCost = memPrice written.length := hu.memCost
      rw [wp_next]
      refine .inr ⟨_, rfl, .of_stretched hstretched hreach ?_ ?_ (hwritten ▸ hlength) (hpaid.trans (by rw [hlength]))⟩
      · rw [Step.bare, hop, ← hlength, ← hmemCost]
        show copyGas (x.operand 3).toNat + (memPrice written.length - t.evm.memCost) + _ =
          copyGas (x.operand 3).toNat + _ + _
        omega
      · rw [Step.wrote, hop]
        show image 0 u.evm.memory = _
        rw [hwritten, himage, hcode]
    · have hsmall := hstretched.small h.1.small (hwithin h.1).1
      rw [← hlength] at hsmall
      exact hsmall
  · obtain ⟨account, haccount⟩ := h.2
    rw [hf.1] at haccount
    cases haccount

omit [Crypto] in
theorem wp_mcopyGrow_of {Q : Unit → Machine T → Prop} {E : Fault → Machine T → Prop} {destTill till : Nat}
    (hQ : ∀ memory, Stretched s.evm.memory (max destTill till) memory → Q () { s with evm.memory := memory })
    (hE : ¬(destTill ≤ allocationSanityLimit ∧ till ≤ allocationSanityLimit) → ∀ f t, E f t) :
    wp (mcopyGrow destTill till) Q E s := by
  unfold mcopyGrow
  rw [wp_bind, wp_get, wp_ite, wp_ite]
  refine ⟨fun hshort => ⟨fun hlimit => (wp_refuse _).2 (hE (fun h => absurd h.1 (not_le.2 hlimit)) _ _), fun _ => ?_⟩,
    fun hlong => (wp_pure _).2 ?_⟩
  · unfold growTo
    rw [wp_bind, wp_get, wp_bind, wp_lift]
    refine ⟨fun memory hresize => (wp_modify _).2 (hQ memory ?_), fun f hf => hE (fun h => ?_) _ _⟩
    · unfold resize at hresize
      split at hresize
      · have hsame := stretched_replicate s.evm.memory (max destTill till)
        rw [grownTo, if_pos hshort] at hsame
        rw [List.take_of_length_le (by omega)] at hresize
        cases hresize
        exact hsame
      · cases hresize
    · have hlimit : allocationSanityLimit = 2097152 := rfl
      have hsize : isizeMax = 9223372036854775807 := rfl
      unfold resize at hf
      rw [if_pos (by omega)] at hf
      cases hf
  · exact hQ s.evm.memory ⟨rfl, (if_neg hlong).symm⟩

/-- The source is read before the destination is written, so the two may overlap. -/
theorem wp_opMcopy_shapes (hop : x.op = .mcopy) :
    wp opMcopy (x.Outcome (Spreads x)) (fun _ _ => ¬x.Fits 3) x.before := by
  have hwithin : x.Fits 3 → (x.operand 0).toNat + (x.operand 2).toNat ≤ allocationSanityLimit ∧
      (x.operand 1).toNat + (x.operand 2).toNat ≤ allocationSanityLimit := fun hfits =>
    ⟨(hfits.within ((x.operand 0).toNat, (x.operand 2).toNat) (by simp [Step.ranges, hop])).2,
      (hfits.within ((x.operand 1).toNat, (x.operand 2).toNat) (by simp [Step.ranges, hop])).2⟩
  have hreach : x.reach = max (rangeTill (x.operand 0).toNat (x.operand 2).toNat)
      (rangeTill (x.operand 1).toNat (x.operand 2).toNat) := by
    simp [Step.reach, Step.till, Step.ranges, hop]
  have hwrote : ∀ ret f, x.wrote ret f = patch f (x.operand 0).toNat (view f (x.operand 1).toNat (x.operand 2).toNat) :=
    fun _ _ => by rw [Step.wrote, hop]
  have hbare : x.bare = 3 + copyGas (x.operand 2).toNat := by rw [Step.bare, hop]
  show wp opMcopy _ _ (x.popped 0)
  unfold opMcopy
  rw [wp_bind]
  refine wp_popUsize_at (fun _ => ?_) fun htakes _ _ hfits =>
    htakes (hfits.takes (by decide) ((Nat.le_add_right _ _).trans (hwithin hfits).1))
  rw [wp_bind]
  refine wp_popUsize_at (fun _ => ?_) fun htakes _ _ hfits =>
    htakes (hfits.takes (by decide) ((Nat.le_add_right _ _).trans (hwithin hfits).2))
  rw [wp_bind]
  refine wp_popUsize_at (fun _ => ?_) fun htakes _ _ hfits =>
    htakes (hfits.takes (by decide) ((Nat.le_add_left _ _).trans (hwithin hfits).1))
  dsimp only
  rw [wp_charged]
  refine ⟨fun hdry => .inl ⟨_, rfl, hdry⟩, fun _ => ?_⟩
  rw [wp_ite]
  refine ⟨fun hempty => (wp_next _).2 (.inr ⟨_, rfl, ⟨?_, ?_, .inr ⟨rfl, rfl⟩⟩, ?_⟩), fun hsize => ?_⟩
  · have hempty : (x.operand 2).toNat = 0 := hempty
    rw [hwrote, hempty, view_zero, patch_nil]
    rfl
  · have hempty : (x.operand 2).toNat = 0 := hempty
    simp only [hreach, hempty, rangeTill, lt_self_iff_false, if_false, max_self]
    rfl
  · rw [hbare]
    exact (add_eq_left.2 (sub_self _)).symm
  · have hsize : 0 < (x.operand 2).toNat := Nat.pos_of_ne_zero hsize
    rw [rangeTill, rangeTill, if_pos hsize, if_pos hsize] at hreach
    rw [wp_bind]
    refine wp_addUsize (fun _ => ?_) fun hover _ _ hfits => absurd (hwithin hfits).1 (not_le.2 hover)
    rw [wp_bind]
    refine wp_addUsize (fun _ => ?_) fun hover _ _ hfits => absurd (hwithin hfits).2 (not_le.2 hover)
    rw [wp_bind]
    refine wp_mcopyGrow_of (fun memory hmemory => ?_) fun hlimit _ _ hfits => hlimit (hwithin hfits)
    have hcovers := hmemory.covers
    rw [wp_bind]
    refine wp_readMemory_of (fun _ => ?_) fun hshort => absurd ((le_max_right _ _).trans hcovers) (not_le.2 hshort)
    rw [wp_bind]
    refine wp_memoryExpansionCost_of (fun _ => ?_) fun hlarge _ _ hfits => hlarge ?_
    · rw [wp_charged]
      refine ⟨fun hdry => .inl ⟨_, rfl, hdry⟩, fun _ => ?_⟩
      rw [wp_bind]
      refine wp_writeMemory_of (fun written hlength himage => ?_) fun hshort => ?_
      · rw [wp_next]
        refine .inr ⟨_, rfl, .of_stretched hmemory hreach ?_ ?_ hlength rfl⟩
        · rw [hbare]
          rfl
        · rw [hwrote]
          exact himage
      · rw [view_length] at hshort
        exact absurd ((le_max_left _ _).trans hcovers) (not_le.2 hshort)
    · exact hmemory.small hfits.small (max_le (hwithin hfits).1 (hwithin hfits).2)

/-! ## Hashing and returning -/

end

end Solenoid
