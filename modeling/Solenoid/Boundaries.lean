/-
  Solenoid.Boundaries — what holds of a frame between two instructions.

  An instruction grows the memory to whole words (`swelling`) and then prices it
  (`Squares`), and goes on within the code. So at every boundary the memory is a multiple
  of 32 bytes long and costs what was paid for it (`Boundary`); it never shrinks, and no
  expansion is paid back (`frame_invariants`).
-/
import Mathlib.Logic.Relation
import Solenoid.Frames

namespace Solenoid

open Hoare

variable {T α β : Type} {s t u : Machine T}

/-! ## Growing to whole words -/

/-- The memory has its length still, or has grown to some whole words, of a length in `P`. -/
def Swells (P : Nat → Prop) (s t : Machine T) : Prop :=
  t.evm.memory.length = s.evm.memory.length ∨
    s.evm.memory.length < t.evm.memory.length ∧ t.evm.memory.length % 32 = 0 ∧ P t.evm.memory.length

namespace Swells

variable {P : Nat → Prop}

theorem trans (h : Swells P s t) (h' : Swells P t u) : Swells P s u := by
  rcases h' with h' | ⟨hlt', hmod', hP'⟩
  · unfold Swells
    rw [h']
    exact h
  · refine .inr ⟨?_, hmod', hP'⟩
    rcases h with h | ⟨hlt, -⟩
    · exact h ▸ hlt'
    · exact hlt.trans hlt'

theorem le (h : Swells P s t) : s.evm.memory.length ≤ t.evm.memory.length := by
  rcases h with h | ⟨hlt, -⟩
  · exact h.ge
  · exact hlt.le

theorem whole (h : Swells P s t) (hs : s.evm.memory.length % 32 = 0) : t.evm.memory.length % 32 = 0 := by
  rcases h with h | ⟨-, hmod, -⟩
  · rw [h, hs]
  · exact hmod

theorem within (h : Swells P s t) (hs : P s.evm.memory.length) : P t.evm.memory.length := by
  rcases h with h | ⟨-, -, hP⟩
  · exact h ▸ hs
  · exact hP

end Swells

def swelling (P : Nat → Prop) : Frame Fault (Machine T) where
  ok := Swells P
  err _ := Swells P
  refl _ := .inl rfl
  trans := .trans
  fail := .trans

theorem grownTo_whole (len till : Nat) (h : len < till) : grownTo len till % 32 = 0 := by
  unfold grownTo
  rw [if_pos h]
  omega

/-- The limit is a number of whole words. -/
theorem grownTo_limit {len till : Nat} (h : len < till) (hlimit : till ≤ allocationSanityLimit) :
    grownTo len till ≤ allocationSanityLimit := by
  unfold grownTo allocationSanityLimit at *
  rw [if_pos h]
  omega

/-- What grows by `expandTo` alone stays within the sanity limit. -/
theorem grows_swelling {P : Nat → Prop} (hP : ∀ n ≤ allocationSanityLimit, P n) : Grows (swelling (T := T) P) where
  ok h := .inl (congrArg List.length h.memory)
  err h := .inl (congrArg List.length h.memory)
  written start data s := by
    simp only [writeMemory, wp_bind, wp_get, wp_lift, wp_modify]
    exact ⟨fun _ h => .inl (copyFromSlice_length h), fun _ _ => .inl rfl⟩
  expanded till s := wp_expandTo_exact till (fun hlimit => by
    have hgrown := le_grownTo s.evm.memory.length till
    have hlength : (s.evm.memory ++ List.replicate (grownTo s.evm.memory.length till - s.evm.memory.length) 0).length =
        grownTo s.evm.memory.length till := by
      rw [List.length_append, List.length_replicate, Nat.add_sub_of_le hgrown.1]
    unfold swelling Swells
    dsimp only
    rw [hlength]
    by_cases hlt : s.evm.memory.length < till
    · exact .inr ⟨hlt.trans_le hgrown.2, grownTo_whole _ _ hlt, hP _ (grownTo_limit hlt (hlimit hlt))⟩
    · exact .inl (if_neg hlt)) fun _ _ => .inl rfl
  paid _ _ := .inl rfl

theorem swells_growTo {s : Machine T} {P : Nat → Prop} {till : Nat} (hlt : s.evm.memory.length < till)
    (hP : P (grownTo s.evm.memory.length till)) :
    wp (growTo till) (fun _ => Swells P s) (fun _ => Swells P s) s := by
  simp only [growTo, wp_bind, wp_get, wp_lift, wp_modify]
  refine ⟨fun memory hmemory => .inr ?_, fun _ _ => .inl rfl⟩
  have hlength : memory.length = grownTo s.evm.memory.length till := by
    rw [resize_length hmemory, grownTo, if_pos hlt]
  show s.evm.memory.length < memory.length ∧ memory.length % 32 = 0 ∧ P memory.length
  rw [hlength]
  exact ⟨hlt.trans_le (le_grownTo _ _).2, grownTo_whole _ _ hlt, hP⟩

theorem swells_mcopyGrow (destTill till : Nat) : Keeps (swelling fun _ => True) (mcopyGrow destTill till : M T Unit) :=
  fun s => by
    simp only [mcopyGrow, wp_bind, wp_get, wp_ite, wp_pure, wp_refuse]
    exact ⟨fun hlt => ⟨fun _ => .inl rfl, fun _ => swells_growTo (P := fun _ => True) hlt trivial⟩, fun _ => .inl rfl⟩

section

variable [Crypto] [EventTracer T]

/-- The memory only grows, and only to whole words. -/
theorem swells_instruction {P : Nat → Prop} (hP : ∀ n ≤ allocationSanityLimit, P n) (exec : Exec T) (sc : Scope)
    {instruction : Instruction}
    (hmcopy : instruction.op = .mcopy → ∀ destTill till, Keeps (swelling P) (mcopyGrow destTill till : M T Unit)) :
    Keeps (swelling P) (executeInstruction exec sc instruction) := by
  have hgrows : Grows (swelling (T := T) P) := grows_swelling hP
  have hnext : ∀ gas : Int, Keeps (swelling P) (next gas : M T StepResult) := fun gas s => (wp_next gas).2 (.inl rfl)
  by_cases hshapes : instruction.op.shapes = false
  · exact (rests_instruction exec sc hshapes).mono (fun h => .inl (congrArg List.length h.memory)) fun h =>
      .inl (congrArg List.length h.memory)
  · unfold executeInstruction
    cases hop : instruction.op <;> simp only [hop, Op.shapes, not_true_eq_false] at hshapes
    case mload => exact hgrows.opMload hnext
    case mstore => exact hgrows.opMstore hnext
    case mstore8 => exact hgrows.opMstore8 hnext
    case mcopy => exact hgrows.opMcopy hnext (hmcopy hop)
    case calldatacopy => exact hgrows.opCalldatacopy hnext sc
    case codecopy => exact hgrows.opCodecopy hnext sc
    case extcodecopy => exact hgrows.opExtcodecopy hnext
    case returndatacopy => exact hgrows.opReturndatacopy hnext
    case return_ => exact hgrows.opReturn hnext sc false
    case revert => exact hgrows.opReturn hnext sc true
    all_goals exact hgrows.opCall hnext id exec sc instruction

end

/-! ## Paying for it -/

/-- The memory's length and what was paid for it are as they were. -/
structure Sized (s t : Machine T) : Prop where
  length : t.evm.memory.length = s.evm.memory.length
  memCost : t.evm.memCost = s.evm.memCost

theorem Sized.trans (h : Sized s t) (h' : Sized t u) : Sized s u :=
  ⟨h'.length.trans h.length, h'.memCost.trans h.memCost⟩

def sizing : Frame Fault (Machine T) where
  ok := Sized
  err _ := Sized
  refl _ := ⟨rfl, rfl⟩
  trans := .trans
  fail := .trans

theorem writes_sizing : Writes (sizing (T := T)) where
  ok h := ⟨congrArg List.length h.memory, h.memCost⟩
  err h := ⟨congrArg List.length h.memory, h.memCost⟩
  written start data s := by
    simp only [writeMemory, wp_bind, wp_get, wp_lift, wp_modify]
    exact ⟨fun _ h => ⟨copyFromSlice_length h, rfl⟩, fun _ _ => ⟨rfl, rfl⟩⟩

theorem sizes_next (gas : Int) : Keeps sizing (next gas : M T StepResult) := fun _ => (wp_next gas).2 ⟨rfl, rfl⟩

/-- What was paid for the memory is its price, which could be computed. -/
structure Exact (e : Evm) : Prop where
  price : e.memCost = memPrice e.memory.length
  small : e.Small

theorem Exact.paid {e : Evm} (h : Exact e) : Paid e := ⟨h.price.le, h.small⟩

theorem Sized.exact (h : Sized s t) (hs : Exact s.evm) : Exact t.evm := by
  refine ⟨?_, ?_⟩
  · rw [h.memCost, h.length, hs.price]
  · unfold Evm.Small
    rw [h.length]
    exact hs.small

/-- The memory is paid for in the end, whatever it was before. -/
def Squares (m : M T α) : Prop := ∀ s, wp m (fun _ t => Exact t.evm) (fun _ _ => True) s

/-- The memory stays paid for. -/
def Balances (m : M T α) : Prop := ∀ s, Exact s.evm → wp m (fun _ t => Exact t.evm) (fun _ _ => True) s

theorem squares_price : Squares (memoryExpansionCost : M T Int) := fun _ =>
  wp_memoryExpansionCost_of (fun hsmall => ⟨rfl, hsmall⟩) fun _ _ _ => trivial

theorem squares_after {m : M T α} {f : α → M T β} (hf : ∀ a, Squares (f a)) : Squares (m >>= f) := fun s => by
  rw [wp_bind]
  exact wp_def.2 ⟨fun a t _ => hf a t, fun _ _ _ => trivial⟩

theorem Squares.keeps {m : M T α} {f : α → M T β} (h : Squares m) (hf : ∀ a, Keeps sizing (f a)) : Squares (m >>= f) :=
  fun s => by
    rw [wp_bind]
    exact wp_mono (h s) (fun a t ht => wp_mono (hf a t) (fun _ _ hu => hu.exact ht) fun _ _ _ => trivial) fun _ _ h => h

theorem Squares.balances {m : M T α} (h : Squares m) : Balances m := fun s _ => h s

theorem balances_of {m : M T α} (h : Keeps sizing m) : Balances m := fun s hs =>
  wp_mono (h s) (fun _ _ ht => ht.exact hs) fun _ _ _ => trivial

theorem balances_step {m : M T α} {f : α → M T β} (h : Keeps sizing m) (hf : ∀ a, Balances (f a)) : Balances (m >>= f) :=
  fun s hs => by
    rw [wp_bind]
    exact wp_mono (h s) (fun a t ht => hf a t (ht.exact hs)) fun _ _ _ => trivial

theorem squares_expansion {f : Int → M T β} (hf : ∀ cost, Keeps sizing (f cost)) :
    Squares (memoryExpansionCost >>= f) := squares_price.keeps hf

section

variable [Crypto] [EventTracer T]

theorem squares_callOpen (sc : Scope) (instruction : Instruction) : Squares (callOpen sc instruction : M T (Opened T)) :=
  squares_after fun a => Squares.keeps (squares_after fun _ => squares_after fun _ => squares_after fun _ => squares_price)
    fun expansion => writes_sizing.callReach sc instruction a expansion

theorem squares_createOpen (sc : Scope) : Squares (createOpen sc : M T (Opened T)) := by
  have h : Writes (sizing (T := T)) := writes_sizing
  have hinit : ∀ offset size, Squares (initCode offset size : M T (Bytes × Int)) := by
    intro offset size
    refine squares_after fun _ => ?_
    refine squares_after fun _ => ?_
    refine squares_expansion fun _ => ?_
    refine (h.readMemory _ _).bind fun _ => ?_
    exact .pure _
  refine squares_after fun _ => ?_
  refine squares_after fun offset => ?_
  refine squares_after fun size => ?_
  refine squares_after fun _ => ?_
  refine (hinit offset size).keeps fun _ => ?_
  refine (h.bumpNonce _ _).bind fun _ => ?_
  refine (h.openAccount _).bind fun _ => ?_
  exact h.createEnter sc _ _ _ _

theorem squares_callFrame (exec : Exec T) (sc : Scope) (instruction : Instruction) :
    Squares (callFrame exec sc instruction : M T Int) := by
  refine Squares.keeps ?_ fun o => writes_sizing.afterOpen sc exec instruction o
  unfold openFrame
  split
  · exact squares_createOpen _
  · exact squares_createOpen _
  · exact squares_callOpen _ _

omit [Crypto] [EventTracer T] in
theorem balances_opMcopy : Balances (opMcopy : M T StepResult) := by
  have h : Writes (sizing (T := T)) := writes_sizing
  refine balances_step h.poppedUsize fun _ => balances_step h.poppedUsize fun _ => balances_step h.poppedUsize fun size =>
    balances_step h.left fun left => ?_
  split
  · exact balances_of (.pure _)
  · split
    · exact balances_of (sizes_next _)
    · apply Squares.balances
      refine squares_after fun _ => ?_
      refine squares_after fun _ => ?_
      refine squares_after fun _ => ?_
      refine squares_after fun _ => ?_
      refine squares_expansion fun _ => ?_
      apply keeps_charged_of
      refine (h.written _ _).bind fun _ => ?_
      exact sizes_next _

/-- An instruction that returns its cost leaves its memory paid for. -/
theorem wp_executeInstruction_exact (exec : Exec T) (sc : Scope) (instruction : Instruction) (hs : Exact s.evm) :
    wp (executeInstruction exec sc instruction) (fun r t => ∀ cost, r = .ok cost → Exact t.evm) (fun _ _ => True) s := by
  have h : Writes (sizing (T := T)) := writes_sizing
  by_cases hcall : instruction.op.isCall = true
  · rw [executeInstruction_call (x := ⟨sc, instruction, s⟩) hcall]
    exact wp_opCall_of (fun _ _ => trivial) fun _ => wp_mono (squares_callFrame exec sc instruction s)
      (fun gas t ht _ _ => ⟨ht.price, ht.small⟩) fun _ _ _ => ⟨trivial, fun _ _ _ hcost => (nomatch hcost)⟩
  · suffices hbalances : Balances (executeInstruction exec sc instruction) from
      wp_mono (hbalances s hs) (fun _ _ ht _ _ => ht) fun _ _ h => h
    by_cases hshapes : instruction.op.shapes = false
    · exact balances_of <| (rests_instruction exec sc hshapes).mono (fun h => ⟨congrArg List.length h.memory, h.memCost⟩)
        fun h => ⟨congrArg List.length h.memory, h.memCost⟩
    · unfold executeInstruction
      cases hop : instruction.op <;> simp only [hop, Op.shapes, Op.isCall, not_true_eq_false] at hshapes hcall
      case mcopy => exact balances_opMcopy
      case mload =>
        apply Squares.balances
        refine squares_after fun _ => ?_
        refine squares_after fun _ => ?_
        refine squares_after fun _ => ?_
        refine squares_expansion fun _ => ?_
        apply keeps_charged_of
        refine (h.readMemory _ _).bind fun _ => ?_
        refine (h.pushed _).bind fun _ => ?_
        exact sizes_next _
      case mstore =>
        apply Squares.balances
        refine squares_after fun _ => ?_
        refine squares_after fun _ => ?_
        refine squares_after fun _ => ?_
        refine squares_after fun _ => ?_
        refine squares_expansion fun _ => ?_
        apply keeps_charged_of
        refine (h.written _ _).bind fun _ => ?_
        exact sizes_next _
      case mstore8 =>
        apply Squares.balances
        refine squares_after fun _ => ?_
        refine squares_after fun _ => ?_
        refine squares_after fun _ => ?_
        refine squares_expansion fun _ => ?_
        apply keeps_charged_of
        refine (h.written _ _).bind fun _ => ?_
        exact sizes_next _
      case calldatacopy =>
        refine Squares.balances <| squares_after fun _ => squares_after fun _ => squares_after fun size => ?_
        dsimp only
        split
        · exact squares_after fun _ => squares_expansion fun _ => sizes_next _
        · exact squares_expansion fun _ => sizes_next _
      case codecopy =>
        exact Squares.balances <| squares_after fun _ => squares_after fun _ => squares_after fun _ =>
          squares_after fun _ => squares_expansion fun _ => sizes_next _
      case extcodecopy =>
        apply Squares.balances
        refine squares_after fun _ => ?_
        refine squares_after fun _ => ?_
        refine squares_after fun _ => ?_
        refine squares_after fun _ => ?_
        refine squares_after fun _ => ?_
        refine squares_after fun _ => ?_
        refine squares_expansion fun _ => ?_
        refine (h.addressAccessCost _).bind fun _ => ?_
        exact sizes_next _
      case returndatacopy =>
        exact Squares.balances <| squares_after fun _ => squares_after fun _ => squares_after fun _ =>
          squares_after fun _ => squares_after fun _ => squares_after fun _ => squares_after fun _ =>
            squares_expansion fun _ => sizes_next _
      case return_ | revert =>
        apply Squares.balances
        refine squares_after fun _ => ?_
        refine squares_after fun _ => ?_
        refine squares_after fun _ => ?_
        refine squares_after fun _ => ?_
        refine squares_expansion fun _ => ?_
        refine (Keeps.get.bind fun _ => h.emitted _ _ _).bind fun _ => ?_
        exact sizes_next _

end

/-! ## The program counter -/

/-- The program counter is as it was. -/
def parking : Frame Fault (Machine T) where
  ok s t := t.evm.pc = s.evm.pc
  err _ _ _ := True
  refl _ := rfl
  trans h h' := h'.trans h
  fail _ _ := trivial

theorem grows_parking : Grows (parking (T := T)) where
  ok h := h.pc
  err _ := trivial
  written start data s := by
    simp only [writeMemory, wp_bind, wp_get, wp_lift, wp_modify]
    exact ⟨fun _ _ => rfl, fun _ _ => trivial⟩
  expanded till s := wp_expandTo_exact till (fun _ => rfl) fun _ _ => trivial
  paid _ _ := rfl

section

variable [Crypto] [EventTracer T] {sc : Scope} {instruction : Instruction}

omit [Crypto] [EventTracer T] in
theorem jumpTarget_lt {dest target : Nat} {accept : Nat → Instruction → Bool}
    (h : jumpTarget sc dest accept = some target) : target < sc.code.instructions.length := by
  unfold jumpTarget at h
  split at h
  · cases h
  · split at h
    · cases h
    · next hget =>
      split at h
      · cases h
        exact (List.getElem?_eq_some_iff.1 hget).1
      · cases h

omit [Crypto] [EventTracer T] in
theorem wp_jumpTo_lands {gas : Int} {target : Option Nat} {n : Nat} (h : ∀ dest, target = some dest → dest < n) :
    wp (jumpTo gas target) (fun r t => ∀ cost, r = .ok cost → t.evm.pc ≤ n) (fun _ _ => True) s := by
  cases target with
  | none => exact (wp_pure _).2 nofun
  | some dest =>
    simp only [jumpTo, wp_bind, wp_modify, wp_pure]
    exact fun _ _ => (h dest rfl).le

omit [Crypto] in
theorem wp_opReturn_pc (reverted : Bool) :
    wp (opReturn sc reverted) (fun _ t => t.evm.pc = s.evm.pc + 1) (fun _ _ => True) s := by
  have h : Grows (parking (T := T)) := grows_parking
  unfold opReturn
  rw [wp_bind, wp_modify]
  refine h.poppedUsize.step (fun _ _ _ => trivial) fun offset t _ ht => ?_
  refine h.poppedUsize.step (fun _ _ _ => trivial) fun size u _ hu => ?_
  refine (h.setOutput _ _).step (fun _ _ _ => trivial) fun _ v _ hv => ?_
  refine h.priced.step (fun _ _ _ => trivial) fun gas w _ hw => ?_
  refine Keeps.step (Keeps.get.bind fun _ => h.emitted _ _ _) (fun _ _ _ => trivial) fun _ x _ hx => (wp_next _).2 ?_
  have hpc : x.evm.pc = s.evm.pc := hx.trans (hw.trans (hv.trans (hu.trans ht)))
  exact congrArg (· + 1) hpc

/-- An instruction that returns its cost goes on within the code, or just past it. -/
theorem wp_executeInstruction_pc (exec : Exec T) (hs : Paid s.evm) (hi : s.evm.pc < sc.code.instructions.length) :
    wp (executeInstruction exec sc instruction) (fun r t => ∀ cost, r = .ok cost → t.evm.pc ≤ sc.code.instructions.length)
      (fun _ _ => True) s := by
  have hnext : ∀ {t : Machine T}, t.evm.pc = s.evm.pc + 1 → t.evm.pc ≤ sc.code.instructions.length := fun h =>
    h.trans_le hi
  by_cases hcall : instruction.op.isCall = true
  · rw [executeInstruction_call (x := ⟨sc, instruction, s⟩) hcall]
    refine wp_opCall_of (fun _ _ => trivial) fun _ => wp_mono (grows_parking.callFrame sc exec instruction s)
      (fun gas t ht _ _ => ?_) fun _ _ _ => ⟨trivial, fun _ _ _ hcost => (by cases hcost)⟩
    have ht : t.evm.pc = s.evm.pc := ht
    exact hnext (congrArg (· + 1) ht)
  · have hcall : instruction.op.isCall = false := by simpa using hcall
    by_cases hends : instruction.op.ends = true
    · unfold executeInstruction
      cases hop : instruction.op <;> simp only [hop, Op.ends, Bool.false_eq_true] at hends
      case stop =>
        simp only [opStop, emitReturn, wp_bind, wp_modify, wp_setRet, wp_get, wp_emit, wp_pure]
        exact fun _ _ => le_rfl
      case return_ | revert => exact wp_mono (wp_opReturn_pc _) (fun _ _ h _ _ => hnext h) fun _ _ h => h
    · have hends : instruction.op.ends = false := by simpa using hends
      by_cases hjump : instruction.op = .jump
      · simp only [executeInstruction, hjump, opJump, wp_charged, wp_bind]
        refine ⟨fun _ _ hcost => (by cases hcost), fun _ =>
          wp_mono (grows_parking.poppedUsize s) (fun dest t ht => ?_) fun _ _ _ => trivial⟩
        exact wp_jumpTo_lands fun _ h => jumpTarget_lt h
      · by_cases hjumpi : instruction.op = .jumpi
        · simp only [executeInstruction, hjumpi, opJumpi, wp_charged, wp_bind]
          refine ⟨fun _ _ hcost => (by cases hcost), fun _ => wp_mono (grows_parking.poppedUsize s) (fun dest t ht => ?_)
            fun _ _ _ => trivial⟩
          rw [wp_bind]
          refine wp_mono (grows_parking.popped t) (fun cond u hu => ?_) fun _ _ _ => trivial
          rw [wp_ite]
          refine ⟨fun _ => wp_jumpTo_lands fun _ h => jumpTarget_lt h, fun _ => (wp_next _).2 fun _ _ => ?_⟩
          have hu : u.evm.pc = s.evm.pc := Eq.trans hu ht
          exact hnext (congrArg (· + 1) hu)
        · by_cases hinvalid : instruction.op = .invalid
          · simp only [executeInstruction, hinvalid, wp_next]
            exact fun _ _ => hi
          · refine wp_mono (wp_arm (x := ⟨sc, instruction, s⟩) hs hcall hends hjump hjumpi hinvalid)
              (fun r t h cost hcost => hnext ?_) fun _ _ h => h
            exact congrArg Core.pc (h cost hcost).core

end

/-! ## Between two instructions -/

section

variable [Crypto] [EventTracer T] {exec : Exec T} {sc : Scope} {instruction : Instruction}

/-- A frame goes on when its instruction returned a cost that is paid. -/
theorem executeStep_goes (h : executeStep exec sc instruction s = .ok none t) :
    ∃ cost u, executeInstruction exec sc instruction s = .ok (.ok cost) u ∧ GoesOn (some (.ok cost)) u t := by
  unfold executeStep at h
  obtain ⟨r, u, hu, hsettle⟩ := bind_ok h
  have hgoes : GoesOn r u t := (of_ok (wp_settleStep _ _ _ _) hsettle :)
  obtain ⟨cost, rfl, -⟩ := hgoes.cost
  refine ⟨cost, u, ?_, hgoes⟩
  unfold attempt at hu
  split at hu
  · next hrun =>
    cases hu
    exact hrun
  · cases hu
  · cases hu

/-- What holds of a frame between two instructions. -/
structure Boundary (sc : Scope) (s : Machine T) : Prop where
  stack : s.evm.stack.length ≤ stackLimit
  whole : s.evm.memory.length % 32 = 0
  exact : Exact s.evm
  pc : s.evm.pc ≤ sc.code.instructions.length

omit [Crypto] [EventTracer T] in
theorem Unused.boundary (h : Unused s) (hpc : s.evm.pc = 0) : Boundary sc s where
  stack := by
    rw [h.stack]
    exact Nat.zero_le _
  whole := by rw [h.memory]; rfl
  exact := ⟨by rw [h.memory, h.memCost]; rfl, h.paid.small⟩
  pc := by
    rw [hpc]
    exact Nat.zero_le _

theorem Boundary.enter (hs : Boundary sc s) (h : enterFrame sc s = .ok ⟨⟩ t) : Boundary sc t := by
  have hrests : Rests s t := by
    have hkeeps : Keeps resting (enterFrame sc : M T Unit) :=
      (rests_emit _ _ _).bind fun _ => .ite (fun _ => .pure _) fun _ => rests_warmTouch _
    exact hkeeps.ok h
  have hparks : t.evm.pc = s.evm.pc := (grows_parking.enterFrame sc).ok h
  have hwithin : Within (Effect.isRead ·) s t := (keeps_enterFrame sc).ok h
  refine ⟨hwithin.stack hs.stack, by rw [hrests.memory]; exact hs.whole, ?_, hparks.trans_le hs.pc⟩
  exact Sized.exact ⟨congrArg List.length hrests.memory, hrests.memCost⟩ hs.exact

/-- A turn keeps it, and does not shrink the memory. -/
theorem Boundary.turn {fuel : Nat} (hs : Boundary sc s) (hi : currentInstruction sc s.evm = some instruction)
    (h : executeStep (executeWithContext fuel) sc instruction s = .ok none t) :
    Boundary sc t ∧ s.evm.memory.length ≤ t.evm.memory.length := by
  obtain ⟨cost, u, hu, hgoes⟩ := executeStep_goes h
  have hat : s.evm.pc < sc.code.instructions.length := by
    unfold currentInstruction at hi
    split at hi
    · cases hi
    · exact (List.getElem?_eq_some_iff.1 hi).1
  have hswells : Swells (fun _ => True) s u :=
    (swells_instruction (fun _ _ => trivial) _ sc fun _ => swells_mcopyGrow).ok hu
  have hexact : Exact u.evm := (of_ok (wp_executeInstruction_exact _ sc instruction hs.exact) hu :) cost rfl
  have hpc : u.evm.pc ≤ sc.code.instructions.length :=
    (of_ok (wp_executeInstruction_pc _ hs.exact.paid hat) hu :) cost rfl
  have hturned := (wp_of_ok h).1 (wp_executeStep (x := ⟨sc, instruction, s⟩) (tracks_run fuel) hs.stack)
  have hmemory : t.evm.memory = u.evm.memory := by rw [hgoes.evm]
  have hmemCost : t.evm.memCost = u.evm.memCost := by rw [hgoes.evm]
  have hsame : t.evm.pc = u.evm.pc := by rw [hgoes.evm]
  refine ⟨⟨hturned.stack rfl, ?_, ?_, hsame.trans_le hpc⟩, ?_⟩
  · rw [hmemory]
    exact hswells.whole hs.whole
  · exact Sized.exact ⟨congrArg List.length hmemory, hmemCost⟩ hexact
  · rw [hmemory]
    exact hswells.le

theorem boundary_inner {inner : Inner T} {pending : Pending} {opened : Machine T}
    (h : openedFrame sc instruction s = some (inner, pending, opened)) :
    Boundary inner.scope (inner.machine opened.ext) := by
  have hfresh := (opens_of_openedFrame (x := ⟨sc, instruction, s⟩) h).fresh
  unfold Inner.machine
  rw [hfresh.evm]
  have hunused : Unused (⟨inner.exe, { gas := .new inner.evm.gas.limit }, opened.ext⟩ : Machine T) :=
    ⟨rfl, rfl, rfl, rfl, rfl⟩
  exact hunused.boundary rfl

theorem Reaches.boundary {sc₀ : Scope} {s₀ : Machine T} (h : Reaches sc₀ s₀ sc s) (hs₀ : Unused s₀) (hpc : s₀.evm.pc = 0) :
    Boundary sc s := by
  induction h with
  | start enters _ => exact (hs₀.boundary hpc).enter enters
  | turn _ current step ih => exact (ih.turn current step).1
  | inner _ _ opens enters _ _ => exact (boundary_inner opens).enter enters

/-! ## The top frame -/

/-- An `Evm` that has done nothing yet, but for touches. -/
structure Idle (e : Evm) : Prop where
  memory : e.memory = []
  memCost : e.memCost = 0
  stack : e.stack = []
  used : e.gas.used = 0
  live : e.reverted = false
  pc : e.pc = 0

def staysIdle : Frame Fault (Machine T) where
  ok s t := Idle s.evm → Idle t.evm
  err _ _ _ := True
  refl _ := id
  trans h h' := h' ∘ h
  fail _ _ := trivial

omit [Crypto] [EventTracer T] in
theorem Booked.idle (h : Booked s t) (hs : Idle s.evm) : Idle t.evm := by
  rw [h.evm]
  exact ⟨hs.memory, hs.memCost, hs.stack, hs.used, hs.live, hs.pc⟩

omit [EventTracer T] in
theorem works_staysIdle : Works (staysIdle : Frame Fault (Machine T)) := works_booking.mono Booked.idle fun _ => trivial

omit [Crypto] [EventTracer T] in
theorem fuels_staysIdle : Fuels (staysIdle : Frame Fault (Machine T)) :=
  ⟨fun _ => .modify fun _ hs => ⟨hs.memory, hs.memCost, hs.stack, rfl, hs.live, hs.pc⟩,
    .modify fun _ hs => ⟨hs.memory, hs.memCost, hs.stack, hs.used, rfl, hs.pc⟩⟩

omit [EventTracer T] in
theorem idles_start (r : Runner) : Keeps staysIdle (r.start : M T (Bytecode × Int × Address)) :=
  works_staysIdle.start fuels_staysIdle (fun a => (books_openAccount a).mono Booked.idle fun _ => trivial) r

theorem idles_prepare (code : Bytecode) (call : Call) :
    Keeps staysIdle (prepare code call : M T (Word × Word × Int × Word)) :=
  works_staysIdle.prepare (fun data => (announces_booking data).mono Booked.idle fun _ => trivial) fuels_staysIdle code call

/-- The top frame of a transaction has done nothing yet. -/
theorem topFrame_idle {r : Runner} {ext : Ext} {s : Machine T} (h : r.topFrame ext = some (sc, s)) : Idle s.evm := by
  have hmachine : Idle (r.machine ext : Machine T).evm := ⟨rfl, rfl, rfl, rfl, rfl, rfl⟩
  unfold Runner.topFrame at h
  split at h
  · cases h
  · next code reduction created started hstart =>
    have hstarted := (idles_start r).ok hstart hmachine
    split at h
    · split at h
      · cases h
      · next prep prepared hprepare =>
        have hprepared : Idle prepared.evm := (idles_prepare code r.call).ok hprepare hstarted
        cases h
        exact hprepared
    · cases h
      exact hstarted

omit [Crypto] [EventTracer T] in
theorem Idle.unused (h : Idle s.evm) : Unused s := ⟨h.memory, h.memCost, h.stack, h.used, h.live⟩

/-! ## The invariants -/

/-- One turn of a frame that goes on after it. -/
def Turn (sc : Scope) (s t : Machine T) : Prop :=
  ∃ fuel instruction, currentInstruction sc s.evm = some instruction ∧
    executeStep (executeWithContext fuel) sc instruction s = .ok none t

/-- The invariants of a frame: between any two instructions of any frame of the call tree the
    stack is within its bound, the memory is a multiple of 32 bytes long and costs what was paid
    for it, and the program counter is within the code or just past it; the memory has not
    shrunk at any later boundary of the frame; and no memory that the instruction at the
    boundary may grow to comes cheaper. -/
theorem frame_invariants {sc₀ : Scope} {s₀ : Machine T} (hs₀ : Unused s₀) (hpc : s₀.evm.pc = 0)
    (h : Reaches sc₀ s₀ sc s) :
    s.evm.stack.length ≤ 1024 ∧ s.evm.memory.length % 32 = 0 ∧
    (∀ w, w = s.evm.memory.length / 32 → s.evm.memCost = w * w / 512 + 3 * w) ∧
    s.evm.pc ≤ sc.code.instructions.length ∧
    (∀ t, Relation.ReflTransGen (Turn sc) s t → s.evm.memory.length ≤ t.evm.memory.length) ∧
    ∀ u cost v, s.evm.memory.length ≤ u.evm.memory.length → u.evm.memCost = s.evm.memCost →
      memoryExpansionCost (T := T) u = .ok cost v → 0 ≤ cost := by
  have hs := h.boundary hs₀ hpc
  refine ⟨hs.stack, hs.whole, ?_, hs.pc, fun t ht => ?_, fun u cost v hmemory hmemCost hrun => ?_⟩
  · rintro w rfl
    have hwhole := hs.whole
    have hwords : divCeil s.evm.memory.length 32 = s.evm.memory.length / 32 := by
      unfold divCeil
      omega
    rw [hs.exact.price, memPrice, hwords]
    omega
  · have hlater : Boundary sc t ∧ s.evm.memory.length ≤ t.evm.memory.length := by
      induction ht with
      | refl => exact ⟨hs, le_rfl⟩
      | tail _ hturn ih =>
        obtain ⟨fuel, instruction, hi, hstep⟩ := hturn
        obtain ⟨hboundary, hle⟩ := ih.1.turn hi hstep
        exact ⟨hboundary, ih.2.trans hle⟩
    exact hlater.2
  · have howing : Owing u.evm := by
      unfold Owing
      rw [hmemCost, hs.exact.price]
      exact_mod_cast memPrice_mono hmemory
    exact (of_ok (wp_memoryExpansionCost (Q := fun cost _ => 0 ≤ cost) howing (fun _ => trivial) fun _ _ h _ => h) hrun :)

end

open Sample in
/-- The inner frame of a caller. -/
theorem frame_invariants_inner : ∃ x ∈ (history 12 (scope caller) callerMachine).steps, x.scope.ctx.depth = 2 ∧
    x.before.evm.stack.length ≤ 1024 ∧ x.before.evm.memory.length % 32 = 0 := by
  obtain ⟨x, hx, hdepth, -⟩ := callerMachine_inner
  have hunused : Unused callerMachine := ⟨rfl, rfl, rfl, rfl, rfl⟩
  have h := frame_invariants hunused rfl (reaches_history hx).1
  exact ⟨x, hx, hdepth, h.1, h.2.1⟩

end Solenoid
