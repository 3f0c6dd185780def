/-
  Solenoid.Jumps — where a jump goes, and how control reaches an instruction.

  The valid destinations are the decoder's (`ValidJumpdest`). JUMP checks that the
  instruction it resolves to is a JUMPDEST; JUMPI also takes the first instruction, whatever
  it is, and offset 0 always resolves to it. So both are right but for a JUMPI to 0 in a
  code that starts with another instruction (`Slips`), for one jump and for whole runs
  (`jump_safety`).
-/
import Solenoid.Contexts
import Solenoid.Decoding
import Solenoid.Termination

namespace Solenoid

open Hoare

/-! ## Destinations -/

theorem not_inPush_zero (b : Bytes) : ¬InPush b 0 := by
  rintro ⟨q, byte, -, -, hlt, -⟩
  omega

theorem validJumpdest_zero {b : Bytes} : ValidJumpdest b 0 ↔ b[0]? = some 0x5b :=
  ⟨And.left, fun h => ⟨h, not_inPush_zero b⟩⟩

/-- The first instruction of a code is at offset 0. -/
theorem offset_zero {b : Bytes} {i : Instruction} (h : (decode b).instructions[0]? = some i) : i.offset = 0 := by
  have hfirst := (decode_correct b).first
  rw [h] at hfirst
  exact hfirst

/-- An instruction is a JUMPDEST by its byte. -/
theorem jumpdest_iff {b : Bytes} {k : Nat} {i : Instruction} (h : (decode b).instructions[k]? = some i) :
    i.opcode.code = 0x5b ↔ b[i.offset]? = some 0x5b := by
  obtain ⟨byte, hcovers, -⟩ := (decode_correct b).covers k i h
  rw [hcovers.opcode, code_getOpcode, hcovers.found, Option.some.injEq]

theorem resolveJump_zero (code : Bytecode) : code.resolveJump 0 = some 0 := if_pos rfl

/-- A valid destination is found. -/
theorem exists_target {b : Bytes} {d : Nat} (h : ValidJumpdest b d) :
    ∃ k i, (decode b).resolveJump d = some k ∧ (decode b).instructions[k]? = some i ∧ i.offset = d ∧
      i.opcode.code = 0x5b := by
  by_cases hd : d = 0
  · subst hd
    have hlt : 0 < b.length := (List.getElem?_eq_some_iff.1 h.1).1
    cases hi : (decode b).instructions[0]? with
    | none =>
      have hfirst := (decode_correct b).first
      rw [hi] at hfirst
      have hempty : b.length = 0 := hfirst
      omega
    | some i =>
      have hoffset := offset_zero hi
      exact ⟨0, i, resolveJump_zero _, hi, hoffset, (jumpdest_iff hi).2 (by rw [hoffset]; exact h.1)⟩
  · obtain ⟨k, hk⟩ := Option.isSome_iff_exists.1 (((decode_correct b).valid d hd).2 h)
    have hat := (((decode_correct b).resolves d hd k).1 hk).2
    obtain ⟨i, hi, hoffset⟩ := Option.map_eq_some_iff.1 hat
    exact ⟨k, i, hk, hi, hoffset, (jumpdest_iff hi).2 (by rw [hoffset]; exact h.1)⟩

/-- What is found and is a JUMPDEST is a valid destination. -/
theorem valid_of_target {b : Bytes} {d k : Nat} {i : Instruction} (hk : (decode b).resolveJump d = some k)
    (hi : (decode b).instructions[k]? = some i) (hcode : i.opcode.code = 0x5b) : ValidJumpdest b d := by
  by_cases hd : d = 0
  · subst hd
    rw [resolveJump_zero] at hk
    cases hk
    have hbyte := (jumpdest_iff hi).1 hcode
    rw [offset_zero hi] at hbyte
    exact validJumpdest_zero.2 hbyte
  · exact (((decode_correct b).resolves d hd k).1 hk).1

theorem offset_of_target {b : Bytes} {d k : Nat} {i : Instruction} (hk : (decode b).resolveJump d = some k)
    (hi : (decode b).instructions[k]? = some i) : i.offset = d := by
  by_cases hd : d = 0
  · subst hd
    rw [resolveJump_zero] at hk
    cases hk
    exact offset_zero hi
  · have hat := (((decode_correct b).resolves d hd k).1 hk).2
    rw [hi] at hat
    exact Option.some.inj hat

section

variable {T : Type}

/-! ## Jumps -/

/-- The destination of a JUMP or of a JUMPI that is taken. -/
def Step.destination (x : Step T) : Option Word :=
  match x.op, x.before.evm.stack with
  | .jump, dest :: _ => some dest
  | .jumpi, dest :: cond :: _ => if cond ≠ 0 then some dest else none
  | _, _ => none

def jumpCost : Op → Int
  | .jump => 8
  | _ => 10

/-- The instruction is a jump that is taken: to offset `d`, in the code `b`, and paid for. -/
structure Jumping (x : Step T) (b : Bytes) (d : Nat) : Prop where
  current : currentInstruction x.scope x.before.evm = some x.instruction
  code : x.scope.code = decode b
  destination : ∃ w, x.destination = some w ∧ w.toNat = d
  small : d < 2 ^ 64
  paid : jumpCost x.op ≤ x.before.evm.gas.remaining

/-- JUMPI to offset 0 of a code that does not start with a JUMPDEST. -/
def Slips (x : Step T) (b : Bytes) (d : Nat) : Prop := x.op = .jumpi ∧ d = 0 ∧ b[0]? ≠ some 0x5b

/-- The frame goes on at the instruction at offset `d`. -/
def Lands (x : Step T) (d : Nat) (o : Option Bytes) (t : Machine T) : Prop :=
  o = none ∧ ∃ i, currentInstruction x.scope t.evm = some i ∧ i.offset = d

/-- The frame halts exceptionally, and all its gas is gone. -/
def HaltsDry (o : Option Bytes) (t : Machine T) : Prop :=
  o = some [] ∧ t.evm.stopped = true ∧ t.evm.reverted = true ∧ t.evm.gas.used = t.evm.gas.limit

/-- The instructions that the two jumps accept. -/
def Step.accepts (x : Step T) (k : Nat) (i : Instruction) : Bool := i.opcode.code == 0x5b || (x.op == .jumpi && k == 0)

theorem Step.destination_some {x : Step T} {w : Word} (h : x.destination = some w) :
    (x.op = .jump ∧ ∃ rest, x.before.evm.stack = w :: rest) ∨
      (x.op = .jumpi ∧ ∃ cond rest, x.before.evm.stack = w :: cond :: rest ∧ cond ≠ 0) := by
  unfold destination at h
  split at h
  · next hop hstack =>
    cases h
    exact .inl ⟨hop, _, hstack⟩
  · next hop hstack =>
    split at h
    · next hcond =>
      cases h
      exact .inr ⟨hop, _, _, hstack, hcond⟩
    · cases h
  · cases h

theorem jumpTarget_some {sc : Scope} {b : Bytes} (hcode : sc.code = decode b) {d k : Nat}
    {accept : Nat → Instruction → Bool} :
    jumpTarget sc d accept = some k ↔
      (decode b).resolveJump d = some k ∧ ∃ i, (decode b).instructions[k]? = some i ∧ accept k i = true := by
  unfold jumpTarget
  rw [hcode]
  constructor
  · intro h
    split at h
    · cases h
    · next j hr =>
      split at h
      · cases h
      · next i hi =>
        split at h
        · next haccept =>
          cases h
          exact ⟨hr, i, hi, haccept⟩
        · cases h
  · rintro ⟨hr, i, hi, haccept⟩
    simp only [hr, hi, haccept, if_true]

/-- Where an accepted jump goes: a valid destination, or the slip. -/
theorem accepted {x : Step T} {b : Bytes} (hcode : x.scope.code = decode b) {d k : Nat}
    (h : jumpTarget x.scope d x.accepts = some k) :
    (ValidJumpdest b d ∨ Slips x b d) ∧ ∃ i, (decode b).instructions[k]? = some i ∧ i.offset = d := by
  obtain ⟨hk, i, hi, haccept⟩ := (jumpTarget_some hcode).1 h
  refine ⟨?_, i, hi, offset_of_target hk hi⟩
  unfold Step.accepts at haccept
  by_cases hdest : i.opcode.code = 0x5b
  · exact .inl (valid_of_target hk hi hdest)
  · have hslack : x.op = .jumpi ∧ k = 0 := by simpa [hdest] using haccept
    obtain ⟨hop, rfl⟩ := hslack
    have hoffset := offset_of_target hk hi
    rw [offset_zero hi] at hoffset
    refine .inr ⟨hop, hoffset.symm, fun hbyte => hdest ((jumpdest_iff hi).2 ?_)⟩
    rw [offset_zero hi]
    exact hbyte

/-- A valid destination is accepted, and so is the slip. -/
theorem accepts_target {x : Step T} {b : Bytes} (hcode : x.scope.code = decode b) {d : Nat}
    (hne : (decode b).instructions[0]? ≠ none) (h : ValidJumpdest b d ∨ Slips x b d) :
    ∃ k, jumpTarget x.scope d x.accepts = some k := by
  rcases h with h | ⟨hop, rfl, -⟩
  · obtain ⟨k, i, hk, hi, -, hdest⟩ := exists_target h
    exact ⟨k, (jumpTarget_some hcode).2 ⟨hk, i, hi, by simp [Step.accepts, hdest]⟩⟩
  · obtain ⟨i, hi⟩ := Option.ne_none_iff_exists'.1 hne
    exact ⟨0, (jumpTarget_some hcode).2 ⟨resolveJump_zero _, i, hi, by simp [Step.accepts, hop]⟩⟩

/-! ## One jump -/

/-- What a jump leaves: it goes to its target, or it halts. -/
inductive Jumped (x : Step T) (d : Nat) (r : StepResult) (t : Machine T) : Prop
  | goes {k : Nat} (target : jumpTarget x.scope d x.accepts = some k) (paid : r = .ok (jumpCost x.op))
      (evm : t.evm = { x.before.evm with stack := t.evm.stack, pc := k })
  | stuck (target : jumpTarget x.scope d x.accepts = none) (halts : r = .halt (jumpCost x.op))

variable [Crypto] [EventTracer T] {exec : Exec T}

omit [Crypto] [EventTracer T] in
theorem wp_jumpTo_jumped {x : Step T} {d : Nat} {s : Machine T} {E : Fault → Machine T → Prop}
    (hs : s.evm = { x.before.evm with stack := s.evm.stack }) :
    wp (jumpTo (jumpCost x.op) (jumpTarget x.scope d x.accepts)) (Jumped x d) E s := by
  cases htarget : jumpTarget x.scope d x.accepts with
  | none => exact (wp_pure _).2 (.stuck htarget rfl)
  | some k =>
    simp only [jumpTo, wp_bind, wp_modify, wp_pure]
    refine .goes htarget rfl ?_
    rw [hs]

theorem wp_jump {x : Step T} {b : Bytes} {d : Nat} (h : Jumping x b d) :
    wp (executeInstruction exec x.scope x.instruction) (Jumped x d) (fun _ _ => False) x.before := by
  obtain ⟨w, hw, rfl⟩ := h.destination
  have hpaid := h.paid
  have husize : w.asUsize = .ok w.toNat := if_pos h.small
  rcases Step.destination_some hw with ⟨hop, rest, hstack⟩ | ⟨hop, cond, rest, hstack, hcond⟩
  · have haccept : (fun _ i => i.opcode.code == 0x5b) = x.accepts := by
      funext k i
      simp [Step.accepts, hop]
    rw [show executeInstruction exec x.scope x.instruction = opJump x.scope by
      simp only [executeInstruction, show x.instruction.op = .jump from hop]]
    rw [show jumpCost x.op = 8 by rw [hop]; rfl] at hpaid
    simp only [opJump, popUsize, wp_charged, wp_bind, wp_pop, wp_lift, hstack]
    refine ⟨fun hlt => absurd hpaid (not_le.2 hlt), fun _ => ⟨?_, List.cons_ne_nil _ _⟩⟩
    rintro word rest' ⟨⟩
    refine ⟨fun dest hdest => ?_, fun f hf => by rw [husize] at hf; cases hf⟩
    rw [husize] at hdest
    cases hdest
    rw [haccept, show (8 : Int) = jumpCost x.op by rw [hop]; rfl]
    exact wp_jumpTo_jumped rfl
  · have haccept : (fun dest i => i.opcode.code == 0x5b || dest == 0) = x.accepts := by
      funext k i
      simp [Step.accepts, hop]
    rw [show executeInstruction exec x.scope x.instruction = opJumpi x.scope by
      simp only [executeInstruction, show x.instruction.op = .jumpi from hop]]
    rw [show jumpCost x.op = 10 by rw [hop]; rfl] at hpaid
    simp only [opJumpi, popUsize, wp_charged, wp_bind, wp_pop, wp_lift, hstack]
    refine ⟨fun hlt => absurd hpaid (not_le.2 hlt), fun _ => ⟨?_, List.cons_ne_nil _ _⟩⟩
    rintro word rest' ⟨⟩
    refine ⟨fun dest hdest => ⟨?_, List.cons_ne_nil _ _⟩, fun f hf => by rw [husize] at hf; cases hf⟩
    rw [husize] at hdest
    cases hdest
    rintro word' rest' ⟨⟩
    rw [if_pos hcond, haccept, show (10 : Int) = jumpCost x.op by rw [hop]; rfl]
    exact wp_jumpTo_jumped rfl

omit [Crypto] in
/-- The loop ends a frame that halts, and takes its gas. -/
theorem wp_settleStep_halt (sc : Scope) (instruction : Instruction) (cost : Int) (s : Machine T) :
    wp (settleStep sc instruction (some (.halt cost))) HaltsDry (fun _ _ => False) s := by
  have hrecord : ∀ (recorded : Bool) (s : Machine T), wp (recordOp sc instruction cost recorded : M T Unit)
      (fun _ _ => True) (fun _ _ => False) s := by
    intro recorded s
    simp [recordOp]
  simp only [settleStep, halted, drainGas, haltFrame, wp_bind, wp_modify]
  refine wp_mono (hrecord _ _) (fun _ t _ => ?_) fun _ _ h => h
  simp only [wp_bind, wp_modify, wp_emit, wp_pure]
  refine ⟨rfl, rfl, rfl, ?_⟩
  show t.evm.gas.used + t.evm.gas.remaining = t.evm.gas.limit
  unfold Gas.remaining
  omega

omit [Crypto] in
/-- And it goes on after an instruction that can be paid. -/
theorem wp_settleStep_paid (sc : Scope) (instruction : Instruction) {cost : Int} {s : Machine T}
    (hcost : cost ≤ s.evm.gas.remaining) (hinvalid : instruction.op ≠ .invalid) (hlast : instruction.op ≠ .selfdestruct) :
    wp (settleStep sc instruction (some (.ok cost)))
      (fun o t => o = none ∧ t.evm.pc = s.evm.pc ∧ t.evm.stopped = s.evm.stopped) (fun _ _ => False) s := by
  have hcode : instruction.opcode.code ≠ 0xfe := fun h => hinvalid (op_of_invalid h)
  have hcode' : instruction.opcode.code ≠ 0xff := fun h => hlast (op_selfdestruct h)
  have hfits : ¬s.evm.gas.remaining < cost := not_lt.2 hcost
  have hrecord : wp (recordOp sc instruction cost instruction.isCall : M T Unit)
      (fun _ t => t.evm.gas = s.evm.gas ∧ t.evm.pc = s.evm.pc ∧ t.evm.stopped = s.evm.stopped) (fun _ _ => False) s := by
    simp [recordOp]
  rw [settleStep, wp_bind]
  refine wp_mono hrecord (fun _ t ht => ?_) fun _ _ h => h
  obtain ⟨hgas, hpc, hstopped⟩ := ht
  rw [if_neg hcode, wp_bind, wp_attempt]
  simp only [takeGas, Evm.takeGas, wp_onEvm, wp_bind, wp_get, wp_modify, wp_ite, wp_pure, Solenoid.wp_error, if_neg hcode']
  rw [hgas]
  simp only [Gas.sub, if_neg hfits]
  simp [hpc, hstopped]

omit [Crypto] [EventTracer T] in
theorem jumping_op {x : Step T} {b : Bytes} {d : Nat} (h : Jumping x b d) :
    x.instruction.op ≠ .invalid ∧ x.instruction.op ≠ .selfdestruct := by
  obtain ⟨w, hw, -⟩ := h.destination
  rcases Step.destination_some hw with ⟨hop, -⟩ | ⟨hop, -⟩ <;> unfold Step.op at hop <;> rw [hop] <;> exact ⟨nofun, nofun⟩

omit [Crypto] [EventTracer T] in
theorem currentInstruction_at {sc : Scope} {e : Evm} {i : Instruction} (h : currentInstruction sc e = some i) :
    sc.code.instructions[e.pc]? = some i := by
  unfold currentInstruction at h
  split at h
  · cases h
  · exact h

/-- A jump goes to its target, or halts if it has none. -/
theorem jump_step (exec : Exec T) {x : Step T} {b : Bytes} {d : Nat} (h : Jumping x b d) :
    ∃ o t, executeStep exec x.scope x.instruction x.before = .ok o t ∧
      ((∃ k, jumpTarget x.scope d x.accepts = some k ∧ t.evm.pc = k ∧ Lands x d o t) ∨
        (jumpTarget x.scope d x.accepts = none ∧ HaltsDry o t)) := by
  have hstep : wp (executeStep exec x.scope x.instruction) (fun o t =>
      (∃ k, jumpTarget x.scope d x.accepts = some k ∧ t.evm.pc = k ∧ Lands x d o t) ∨
        (jumpTarget x.scope d x.accepts = none ∧ HaltsDry o t)) (fun _ _ => False) x.before := by
    unfold executeStep
    rw [wp_bind, wp_attempt]
    refine wp_mono (wp_jump h) (fun r t hjumped => ?_) fun _ _ h => h.elim
    cases hjumped with
    | stuck target halts =>
      subst halts
      exact wp_mono (wp_settleStep_halt _ _ _ _) (fun o u hu => .inr ⟨target, hu⟩) fun _ _ h => h
    | @goes k target paid evm =>
      subst paid
      have hops := jumping_op h
      have hleft : jumpCost x.op ≤ t.evm.gas.remaining := by
        rw [evm]
        exact h.paid
      refine wp_mono (wp_settleStep_paid _ _ hleft hops.1 hops.2) (fun o u hu => ?_) fun _ _ h => h
      obtain ⟨ho, hpc, hstopped⟩ := hu
      obtain ⟨-, i, hi, hoffset⟩ := accepted h.code target
      have hlive := currentInstruction_live h.current
      have hpc : u.evm.pc = k := by rw [hpc, evm]
      have hstopped : u.evm.stopped = false := by
        rw [hstopped, evm]
        exact hlive
      refine .inl ⟨k, target, hpc, ho, i, ?_, hoffset⟩
      unfold currentInstruction
      rw [hstopped, hpc, h.code]
      exact hi
  exact exists_ok hstep

omit [Crypto] [EventTracer T] in
/-- A code that is run has a first instruction. -/
theorem Jumping.first {x : Step T} {b : Bytes} {d : Nat} (h : Jumping x b d) : (decode b).instructions[0]? ≠ none := by
  intro hnone
  have hcurrent := h.current
  unfold currentInstruction at hcurrent
  rw [h.code, List.eq_nil_of_length_eq_zero (Nat.le_zero.1 (List.getElem?_eq_none_iff.1 hnone))] at hcurrent
  split at hcurrent <;> simp at hcurrent

/-- A jump that slips goes to the first instruction, which is no JUMPDEST. -/
theorem slip_step (exec : Exec T) {x : Step T} {b : Bytes} {d : Nat} (h : Jumping x b d) (hslip : Slips x b d) :
    ∃ t, executeStep exec x.scope x.instruction x.before = .ok none t ∧ t.evm.pc = 0 ∧ Lands x d none t := by
  obtain ⟨hop, rfl, hbyte⟩ := hslip
  obtain ⟨k, hk⟩ := accepts_target h.code h.first (.inr ⟨hop, rfl, hbyte⟩)
  obtain ⟨o, t, ho, ⟨k', hk', hpc, hlands⟩ | ⟨hnone, -⟩⟩ := jump_step exec h
  · have hzero : k' = 0 := by
      have hresolve := ((jumpTarget_some h.code).1 hk').1
      rw [resolveJump_zero] at hresolve
      exact (Option.some.inj hresolve).symm
    obtain ⟨rfl, hi⟩ := hlands
    exact ⟨t, ho, hpc.trans hzero, rfl, hi⟩
  · rw [hk] at hnone
    cases hnone

/-- A jump continues exactly at the valid destinations, and halts at the others, unless it
    slips. -/
theorem jumpsSafely_iff (exec : Exec T) {x : Step T} {b : Bytes} {d : Nat} (h : Jumping x b d) :
    (∃ o t, executeStep exec x.scope x.instruction x.before = .ok o t ∧
      (ValidJumpdest b d ∧ Lands x d o t ∨ ¬ValidJumpdest b d ∧ HaltsDry o t)) ↔ ¬Slips x b d := by
  constructor
  · rintro ⟨o, t, ho, hright⟩ hslip
    obtain ⟨u, hu, -, hlands⟩ := slip_step exec h hslip
    rw [hu] at ho
    cases ho
    rcases hright with ⟨hvalid, _⟩ | ⟨_, hsome, _⟩
    · obtain ⟨-, rfl, hbyte⟩ := hslip
      exact hbyte hvalid.1
    · cases hsome
  · intro hclean
    obtain ⟨o, t, ho, hcases⟩ := jump_step exec h
    refine ⟨o, t, ho, ?_⟩
    rcases hcases with ⟨k, hk, -, hlands⟩ | ⟨hnone, hhalts⟩
    · exact .inl ⟨(accepted h.code hk).1.resolve_right hclean, hlands⟩
    · refine .inr ⟨fun hv => ?_, hhalts⟩
      obtain ⟨k, hk⟩ := accepts_target h.code h.first (.inl hv)
      rw [hnone] at hk
      cases hk

/-! ## Whole runs -/

/-- Control goes on at the next instruction, or at a JUMPDEST. -/
def Proceeds (x : Step T) (t : Machine T) : Prop :=
  t.evm.pc = x.before.evm.pc + 1 ∨ ∃ i, currentInstruction x.scope t.evm = some i ∧ i.opcode.code = 0x5b

theorem wp_jump_cases {x : Step T} (hop : x.op = .jump ∨ x.op = .jumpi) :
    wp (executeInstruction exec x.scope x.instruction) (fun r t => ∀ cost, r = .ok cost →
      x.destination = none ∧ t.evm.pc = x.before.evm.pc + 1 ∨
        ∃ w, x.destination = some w ∧ w.toNat < 2 ^ 64 ∧ jumpCost x.op ≤ x.before.evm.gas.remaining)
      (fun _ _ => True) x.before := by
  have hsmall : ∀ {w : Word} {n : Nat}, w.asUsize = .ok n → w.toNat < 2 ^ 64 := fun {w n} h => by
    unfold Word.asUsize at h
    split at h
    · next hlt => exact hlt
    · cases h
  rcases hop with hop | hop
  · rw [show executeInstruction exec x.scope x.instruction = opJump x.scope by
      simp only [executeInstruction, show x.instruction.op = .jump from hop]]
    simp only [opJump, popUsize, wp_charged, wp_bind, wp_pop, wp_lift, implies_true, and_true]
    refine ⟨fun _ cost hcost => (by cases hcost), fun hpaid w rest hstack dest hdest => ?_⟩
    refine wp_def.2 ⟨fun r t _ cost _ => .inr ⟨w, ?_, hsmall hdest, ?_⟩, fun _ _ _ => trivial⟩
    · simp only [Step.destination, hop, hstack]
    · rw [hop]
      exact hpaid
  · rw [show executeInstruction exec x.scope x.instruction = opJumpi x.scope by
      simp only [executeInstruction, show x.instruction.op = .jumpi from hop]]
    simp only [opJumpi, popUsize, wp_charged, wp_bind, wp_pop, wp_lift, implies_true, and_true]
    refine ⟨fun _ cost hcost => (by cases hcost), fun hpaid w rest hstack dest hdest cond rest' hrest => ?_⟩
    subst hrest
    by_cases hcond : cond ≠ 0
    · rw [if_pos hcond]
      refine wp_def.2 ⟨fun r t _ cost _ => .inr ⟨w, ?_, hsmall hdest, ?_⟩, fun _ _ _ => trivial⟩
      · simp only [Step.destination, hop, hstack, if_pos hcond]
      · rw [hop]
        exact hpaid
    · rw [if_neg hcond, wp_next]
      refine fun _ _ => .inl ⟨?_, rfl⟩
      simp only [Step.destination, hop, hstack, if_neg hcond]

/-- A turn goes on at the next instruction, or it has jumped. -/
theorem Sound.falls_or_jumps {fuel : Nat} {x : Step T} {t : Machine T} (hs : Sound x.before)
    (hi : currentInstruction x.scope x.before.evm = some x.instruction)
    (h : executeStep (executeWithContext fuel) x.scope x.instruction x.before = .ok none t)
    (hrunning : t.evm.stopped = false) {b : Bytes} (hcode : x.scope.code = decode b) :
    x.destination = none ∧ t.evm.pc = x.before.evm.pc + 1 ∨ ∃ d, Jumping x b d := by
  by_cases hop : x.op = .jump ∨ x.op = .jumpi
  · have hstep : wp (executeStep (executeWithContext fuel) x.scope x.instruction) (fun o t => o = none →
        x.destination = none ∧ t.evm.pc = x.before.evm.pc + 1 ∨
          ∃ w, x.destination = some w ∧ w.toNat < 2 ^ 64 ∧ jumpCost x.op ≤ x.before.evm.gas.remaining)
        (fun _ _ => True) x.before := by
      unfold executeStep
      rw [wp_bind, wp_attempt]
      refine wp_mono (wp_jump_cases hop) (fun r u hcases => ?_) fun _ u _ => ⟨fun _ _ => ?_, fun _ => trivial⟩
      · refine wp_mono (wp_settleStep_gas x.scope x.instruction (some r) u) (fun o v hcharges ho => ?_) fun _ _ _ => trivial
        cases hcharges with
        | charged goes _ _ =>
          obtain ⟨cost, hr, -⟩ := goes.cost
          have hpc : v.evm.pc = u.evm.pc := by rw [goes.evm]
          rw [hpc]
          exact hcases cost (Option.some.inj hr)
        | drained halts _ _ => exact absurd ho halts
      · refine wp_mono (wp_settleStep_gas x.scope x.instruction none u) (fun o v hcharges ho => ?_) fun _ _ _ => trivial
        cases hcharges with
        | charged goes _ _ =>
          obtain ⟨_, hr, -⟩ := goes.cost
          cases hr
        | drained halts _ _ => exact absurd ho halts
    have hcases := (wp_of_ok h).1 hstep rfl
    refine hcases.imp_right fun ⟨w, hw, hsmall, hpaid⟩ => ⟨w.toNat, hi, hcode, ⟨w, hw, rfl⟩, hsmall, hpaid⟩
  · obtain ⟨hj, hj'⟩ := not_or.1 hop
    refine .inl ⟨?_, (hs.turns hi h).pc rfl hrunning hj hj'⟩
    unfold Step.destination
    split
    · exact absurd ‹_› hj
    · exact absurd ‹_› hj'
    · rfl

theorem Reaches.decoded {sc₀ sc : Scope} {s₀ s : Machine T} (h : Reaches sc₀ s₀ sc s) (hcode : ∃ b, sc₀.code = decode b) :
    ∃ b, sc.code = decode b := by
  induction h with
  | start => exact hcode
  | turn _ _ _ ih => exact ih
  | inner _ _ opens _ _ _ => exact openedFrame_decode opens

/-- In a run, control reaches an instruction only from the one before it or at a JUMPDEST. -/
def ControlFlow (sc₀ : Scope) (s₀ : Machine T) : Prop :=
  ∀ sc s instruction fuel t, Reaches sc₀ s₀ sc s → currentInstruction sc s.evm = some instruction →
    executeStep (executeWithContext fuel) sc instruction s = .ok none t → t.evm.stopped = false →
    Proceeds ⟨sc, instruction, s⟩ t

/-- No jump of a run slips. -/
def NoSlips (sc₀ : Scope) (s₀ : Machine T) : Prop :=
  ∀ sc s instruction b d, Reaches sc₀ s₀ sc s → Jumping ⟨sc, instruction, s⟩ b d → ¬Slips ⟨sc, instruction, s⟩ b d

theorem controlFlow_iff {sc₀ : Scope} {s₀ : Machine T} (hs₀ : Unused s₀) (hcode : ∃ b, sc₀.code = decode b) :
    ControlFlow sc₀ s₀ ↔ NoSlips sc₀ s₀ := by
  constructor
  · intro h sc s instruction b d hreach hjumping hslip
    obtain ⟨t, hstep, hpc, -, i, hi, hoffset⟩ := slip_step (executeWithContext 0) hjumping hslip
    obtain ⟨-, rfl, hbyte⟩ := hslip
    rcases h sc s instruction 0 t hreach hjumping.current hstep (currentInstruction_live hi) with hfalls | ⟨i', hi', hdest⟩
    · rw [hpc] at hfalls
      cases hfalls
    · have hcode : sc.code = decode b := hjumping.code
      rw [show currentInstruction _ t.evm = _ from hi] at hi'
      cases hi'
      have hget : (decode b).instructions[t.evm.pc]? = some i := by
        rw [← hcode]
        exact currentInstruction_at hi
      rw [jumpdest_iff hget, hoffset] at hdest
      exact hbyte hdest
  · intro h sc s instruction fuel t hreach hi hstep hrunning
    obtain ⟨b, hb⟩ := hreach.decoded hcode
    have hsound := ((hreach.lives hs₀).turn hi hstep).1
    rcases Sound.falls_or_jumps (x := ⟨sc, instruction, s⟩) hsound hi hstep hrunning hb with ⟨-, hfalls⟩ | ⟨d, hjumping⟩
    · exact .inl hfalls
    · obtain ⟨o, u, hu, hright⟩ := (jumpsSafely_iff (executeWithContext fuel) hjumping).2 (h _ _ _ _ _ hreach hjumping)
      rw [show executeStep _ _ _ _ = _ from hstep] at hu
      cases hu
      rcases hright with ⟨hvalid, _, i, hcurrent, hoffset⟩ | ⟨_, hsome, _⟩
      · refine .inr ⟨i, hcurrent, ?_⟩
        have hget : (decode b).instructions[t.evm.pc]? = some i := by
          rw [← hb]
          exact currentInstruction_at hcurrent
        rw [jumpdest_iff hget, hoffset]
        exact hvalid.1
      · cases hsome

/-- A run of a code that calls nothing runs that code alone. -/
theorem Reaches.code_of_noCalls {sc₀ sc : Scope} {s₀ s : Machine T} {b : Bytes} (h : Reaches sc₀ s₀ sc s)
    (hcode : sc₀.code = decode b) (hcalls : ∀ i ∈ (decode b).instructions, i.op.isCall = false) : sc.code = decode b := by
  induction h with
  | start => exact hcode
  | turn _ _ _ ih => exact ih
  | @inner sc s opened t instruction inner pending _ current opens _ _ ih =>
    have hget := currentInstruction_at current
    rw [ih] at hget
    have hcall : instruction.op.isCall = true := (openedFrame_some (x := ⟨sc, instruction, s⟩) opens).1
    rw [hcalls _ (List.mem_of_getElem? hget)] at hcall
    cases hcall

/-- In a code that starts with a JUMPDEST a jump back to the start is right. -/
theorem noSlips_of_jumpdest {sc₀ : Scope} {s₀ : Machine T} {b : Bytes} (hcode : sc₀.code = decode b)
    (hcalls : ∀ i ∈ (decode b).instructions, i.op.isCall = false) (hfirst : b[0]? = some 0x5b) : NoSlips sc₀ s₀ := by
  intro sc s instruction b' d hreach hjumping hslip
  have hsame : decode b = decode b' := (hreach.code_of_noCalls hcode hcalls).symm.trans hjumping.code
  have hbytes : b = b' := congrArg Bytecode.bytecode hsame
  exact hslip.2.2 (hbytes ▸ hfirst)

/-- Jumps are safe but for the slip: a jump that is taken continues at the instruction at its
    offset if a JUMPDEST is there, and halts otherwise, exactly when it does not slip; and
    control reaches an instruction only from the one before it or at a JUMPDEST exactly in
    the runs without a slip. -/
theorem jump_safety {sc₀ : Scope} {s₀ : Machine T} (hs₀ : Unused s₀) (hcode : ∃ b, sc₀.code = decode b) :
    (∀ (exec : Exec T) (x : Step T) b d, Jumping x b d →
      ((∃ o t, executeStep exec x.scope x.instruction x.before = .ok o t ∧
        (ValidJumpdest b d ∧ Lands x d o t ∨ ¬ValidJumpdest b d ∧ HaltsDry o t)) ↔ ¬Slips x b d)) ∧
    (ControlFlow sc₀ s₀ ↔ NoSlips sc₀ s₀) :=
  ⟨fun exec _ _ _ h => jumpsSafely_iff exec h, controlFlow_iff hs₀ hcode⟩

end

namespace Sample

/-- `PUSH1 1; PUSH0; JUMPI`: back to the first byte, a PUSH1. -/
def looper : Bytes := [0x60, 0x01, 0x5f, 0x57]

/-- `JUMPDEST; PUSH1 1; PUSH1 7; JUMPI; STOP; JUMPDEST; PUSH1 6; JUMP`. -/
def jumper : Bytes := [0x5b, 0x60, 1, 0x60, 7, 0x57, 0, 0x5b, 0x60, 6, 0x56]

/-- The run of `jumper` comes to a jump to `d` that it can pay for. -/
def jumped (op : Op) (d : Nat) : Bool :=
  ((history 8 (scope jumper) (machine [(0xaa, 0, jumper)])).steps.find? fun x =>
    decide (x.op = op ∧ x.destination.map BitVec.toNat = some d ∧ d < 2 ^ 64 ∧
      jumpCost x.op ≤ x.before.evm.gas.remaining)).isSome

end Sample

open Sample

/-- The frame jumps to a JUMPDEST, and from there to the STOP before it. -/
theorem jump_safety_jumper : ControlFlow (scope jumper) (machine [(0xaa, 0, jumper)]) ∧
    (∃ x ∈ (history 8 (scope jumper) (machine [(0xaa, 0, jumper)])).steps, x.op = .jumpi ∧ ValidJumpdest jumper 7 ∧
      ∃ o t, executeStep (executeWithContext 0) x.scope x.instruction x.before = .ok o t ∧ Lands x 7 o t) ∧
    ∃ x ∈ (history 8 (scope jumper) (machine [(0xaa, 0, jumper)])).steps, x.op = .jump ∧ ¬ValidJumpdest jumper 6 ∧
      ∃ o t, executeStep (executeWithContext 0) x.scope x.instruction x.before = .ok o t ∧ HaltsDry o t := by
  have hs₀ : Unused (machine [(0xaa, 0, jumper)]) := ⟨rfl, rfl, rfl, rfl, rfl⟩
  have hcode : ∃ b, (scope jumper).code = decode b := ⟨jumper, rfl⟩
  have hcalls : ∀ i ∈ (decode jumper).instructions, i.op.isCall = false := by decide +kernel
  obtain ⟨hjumps, hflow⟩ := jump_safety hs₀ hcode
  have hfirst : jumper[0]? = some 0x5b := by decide
  have hvalid : ValidJumpdest jumper 7 := ((decode_correct jumper).valid 7 (by decide)).1 (by decide +kernel)
  have hinvalid : ¬ValidJumpdest jumper 6 := fun h => absurd h.1 (by decide)
  have hrun : ∀ (op : Op) (d : Nat), jumped op d = true →
      ∃ x ∈ (history 8 (scope jumper) (machine [(0xaa, 0, jumper)])).steps, x.op = op ∧ Jumping x jumper d := by
    intro op d hjumped
    obtain ⟨x, hx⟩ := Option.isSome_iff_exists.1 hjumped
    have hmem := List.mem_of_find?_eq_some hx
    have hsome := List.find?_some hx
    simp only [decide_eq_true_eq] at hsome
    obtain ⟨hop, hdest, hsmall, hpaid⟩ := hsome
    obtain ⟨hreach, hi⟩ := reaches_history hmem
    obtain ⟨w, hw, hd⟩ := Option.map_eq_some_iff.1 hdest
    exact ⟨x, hmem, hop, hi, hreach.code_of_noCalls rfl hcalls, ⟨w, hw, hd⟩, hsmall, hpaid⟩
  refine ⟨hflow.2 (noSlips_of_jumpdest rfl hcalls hfirst), ?_, ?_⟩
  · obtain ⟨x, hmem, hop, hjumping⟩ := hrun .jumpi 7 (by decide +kernel)
    obtain ⟨o, t, hstep, ⟨-, hlands⟩ | ⟨hnot, -⟩⟩ := (hjumps (executeWithContext 0) x jumper 7 hjumping).2 fun hslip =>
      absurd hslip.2.1 (by decide)
    · exact ⟨x, hmem, hop, hvalid, o, t, hstep, hlands⟩
    · exact absurd hvalid hnot
  · obtain ⟨x, hmem, hop, hjumping⟩ := hrun .jump 6 (by decide +kernel)
    obtain ⟨o, t, hstep, ⟨hbad, -⟩ | ⟨-, hhalts⟩⟩ := (hjumps (executeWithContext 0) x jumper 6 hjumping).2 fun hslip =>
      absurd hslip.2.1 (by decide)
    · exact absurd hbad hinvalid
    · exact ⟨x, hmem, hop, hinvalid, o, t, hstep, hhalts⟩

/-- The frame goes on at the PUSH1. -/
theorem jump_safety_fails : ∃ x ∈ (history 5 (scope looper) (machine [(0xaa, 0, looper)])).steps,
    Jumping x looper 0 ∧ ¬ValidJumpdest looper 0 ∧
      ∃ t, executeStep (executeWithContext 0) x.scope x.instruction x.before = .ok none t ∧ Lands x 0 none t := by
  have hfind : ((history 5 (scope looper) (machine [(0xaa, 0, looper)])).steps.find? fun x =>
      decide (x.op = .jumpi ∧ x.destination = some 0 ∧ x.scope.code.bytecode = looper ∧
        10 ≤ x.before.evm.gas.remaining)).isSome = true := by decide +kernel
  obtain ⟨x, hx⟩ := Option.isSome_iff_exists.1 hfind
  have hsome := List.find?_some hx
  simp only [decide_eq_true_eq] at hsome
  obtain ⟨hop, hdest, hbytes, hleft⟩ := hsome
  have hmem := List.mem_of_find?_eq_some hx
  obtain ⟨hreach, hi⟩ := reaches_history hmem
  obtain ⟨b, hb⟩ := hreach.decoded ⟨looper, rfl⟩
  have hcode : x.scope.code = decode looper := by
    rw [hb] at hbytes ⊢
    rw [show b = looper from hbytes]
  have hjumping : Jumping x looper 0 := ⟨hi, hcode, ⟨0, hdest, rfl⟩, by decide, by rw [hop]; exact hleft⟩
  obtain ⟨t, ht, -, hlands⟩ := slip_step (executeWithContext 0) hjumping ⟨hop, rfl, by decide⟩
  exact ⟨x, hmem, hjumping, fun h => absurd h.1 (by decide), t, ht, hlands⟩

end Solenoid
