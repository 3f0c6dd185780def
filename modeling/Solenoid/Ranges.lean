/-
  Solenoid.Ranges — what the instructions do with the range of memory they name.

  - `log_content`: a LOG is to append one log of the executing account, with the topics in
    stack order and the bytes of its range. It reverses the topics, and takes the memory from
    its start when the range reaches past the end, so it does so exactly when the topics read
    the same both ways and the range lies in the memory or starts at 0.
-/
import Solenoid.Lib.InfiniteArray
import Solenoid.Arithmetic
import Solenoid.Replies

namespace Solenoid

open Hoare InfiniteArray

variable {T : Type} {s : Machine T}

/-! ## Memory as an endless array -/

theorem window_eq_view (b : Bytes) (start size : Nat) : window b start size = view (image 0 b) start size := by
  rw [view_image]
  rfl

theorem slice_of_le {b : Bytes} {start till : Nat} (h : start ≤ till) (hlen : till ≤ b.length) :
    slice b start till = .ok ((b.drop start).take (till - start)) := by
  rw [slice, if_pos ⟨h, hlen⟩]

theorem addUsize_of_le {a b : Nat} (h : a + b ≤ allocationSanityLimit) : addUsize a b = .ok (a + b) := by
  have hlimit : allocationSanityLimit ≤ usizeMax := by decide
  rw [addUsize, if_pos (h.trans hlimit)]

theorem asUsize_of_le {w : Word} (h : w.toNat ≤ allocationSanityLimit) : w.asUsize = .ok w.toNat := by
  have hlimit : allocationSanityLimit = 2097152 := rfl
  have hlt : w.toNat < 2 ^ 64 := by omega
  rw [Word.asUsize, if_pos hlt]

theorem wp_lift_ok {α : Type} {a : α} {Q : α → Machine T → Prop} {E : Fault → Machine T → Prop} :
    wp (lift (.ok a) : M T α) Q E s ↔ Q a s := by
  rw [wp_lift]
  exact ⟨fun h => h.1 a rfl, fun h => ⟨fun b hb => by cases hb; exact h, fun e he => by cases he⟩⟩

/-! ## LOG -/

theorem checkI64_of_lt {x : Int} (h₀ : 0 ≤ x) (h₁ : x < 2 ^ 40) : checkI64 x = .ok x := by
  have hx : -(2 ^ 63) ≤ x ∧ x < 2 ^ 63 := by
    constructor <;> omega
  unfold checkI64
  rw [if_pos hx]

theorem usizeAsI64_of_le {size : Nat} (h : size ≤ allocationSanityLimit) : usizeAsI64 size = size := by
  have hlimit : allocationSanityLimit = 2097152 := rfl
  have hx : size < 2 ^ 63 := by omega
  unfold usizeAsI64
  rw [if_pos hx]

theorem bind_of_ok {α β : Type} {e : Except Fault α} {a : α} {f : α → Except Fault β} (h : e = .ok a) :
    (e >>= f) = f a := by
  rw [h]
  rfl

theorem logGas_of_le {n size : Nat} (hn : n < 256) (h : size ≤ allocationSanityLimit) :
    logGas n size = .ok (375 + (375 * n + 8 * size)) := by
  have hlimit : allocationSanityLimit = 2097152 := rfl
  have hdata : checkI64 (8 * (size : Int)) = _ := checkI64_of_lt (by omega) (by omega)
  have hrest : checkI64 (375 * (n : Int) + 8 * size) = _ := checkI64_of_lt (by omega) (by omega)
  have hgas : checkI64 (375 + (375 * (n : Int) + 8 * size)) = _ := checkI64_of_lt (by omega) (by omega)
  unfold logGas
  rw [usizeAsI64_of_le h, hdata]
  rw [bind_of_ok rfl, bind_of_ok hrest, hgas]

/-- What LOG takes from memory for its range. -/
def loggedData (memory : Bytes) (offset size : Nat) : Bytes :=
  if memory.length < offset + size then window memory 0 (offset + size) else (memory.drop offset).take size

/-- It is the range, unless that reaches past the end and does not start at 0. -/
theorem loggedData_eq_iff (memory : Bytes) (offset size : Nat) :
    loggedData memory offset size = view (image 0 memory) offset size ↔
      offset + size ≤ memory.length ∨ offset = 0 := by
  unfold loggedData
  split
  · next hlt =>
    rw [window_eq_view]
    constructor
    · intro h
      have hlen := congrArg List.length h
      rw [view_length, view_length] at hlen
      omega
    · rintro (hle | rfl)
      · omega
      · rw [Nat.zero_add]
  · next hge => exact ⟨fun _ => .inl (not_lt.1 hge), fun _ => (view_image_of_le (not_lt.1 hge)).symm⟩

theorem wp_logData_of_le {offset size : Nat} {Q : Bytes → Machine T → Prop} {E : Fault → Machine T → Prop}
    (h : offset + size ≤ allocationSanityLimit) (hQ : Q (loggedData s.evm.memory offset size) s) :
    wp (logData offset size) Q E s := by
  rw [logData, addUsize_of_le h, wp_bind, wp_lift_ok, wp_bind, wp_get, wp_ite, wp_ite]
  refine ⟨fun hlt => ⟨fun hlimit => by omega, fun _ => (wp_pure _).2 ?_⟩, fun hge => ?_⟩
  · simpa only [loggedData, if_pos hlt] using hQ
  · rw [readMemory, wp_bind, wp_get, slice_of_le (by omega) (not_lt.1 hge), wp_lift_ok]
    simpa only [loggedData, if_neg hge, Nat.add_sub_cancel_left] using hQ

theorem wp_popTopics_of_le {E : Fault → Machine T → Prop} :
    ∀ (n : Nat) {Q : List Word → Machine T → Prop} {s : Machine T}, n ≤ s.evm.stack.length →
      Q (s.evm.stack.take n) { s with evm.stack := s.evm.stack.drop n } → wp (popTopics n) Q E s
  | 0, _, _, _, h => (wp_pure _).2 (by simpa using h)
  | n + 1, Q, s, hlen, h => by
    rw [popTopics, wp_bind, wp_pop]
    refine ⟨fun topic rest hst => ?_, fun hst => ?_⟩
    · rw [wp_bind]
      rw [hst] at hlen
      refine wp_popTopics_of_le n (Nat.le_of_succ_le_succ hlen) ?_
      rw [wp_pure]
      simpa only [hst, List.take_succ_cons, List.drop_succ_cons] using h
    · rw [hst] at hlen
      cases hlen

section

/-- The run goes through and appends one log. -/
def Logs (m : M T StepResult) (s : Machine T) (log : Log) : Prop :=
  ∃ cost t, m s = .ok (.ok cost) t ∧ t.evm.logs = s.evm.logs ++ [log]

/-- A LOG with its operands, its gas and a range within the limit appends one log. -/
theorem opLog_goes {x : Step T} {offset size : Word} {rest : List Word} (hst : x.before.evm.stack = offset :: size :: rest)
    (hn : x.instruction.opcode.n.toNat ≤ rest.length) (hcall : x.scope.ctx.callType ≠ .static)
    (hgas : 375 + (375 * x.instruction.opcode.n.toNat + 8 * size.toNat) ≤ x.before.evm.gas.remaining)
    (hlimit : offset.toNat + size.toNat ≤ allocationSanityLimit) :
    wp (opLog x.scope x.instruction) (fun r t => (∃ cost, r = .ok cost) ∧ t.evm.logs = x.before.evm.logs ++ [x.log])
      (fun _ _ => False) x.before := by
  unfold opLog
  rw [if_neg hcall]
  simp only [wp_bind, wp_onEvm, Evm.peek2, wp_get]
  rw [hst]
  simp only [wp_pure]
  rw [asUsize_of_le (by omega), wp_lift_ok, wp_bind, asUsize_of_le (by omega), wp_lift_ok, wp_bind,
    logGas_of_le (UInt8.toNat_lt _) (by omega), wp_lift_ok, wp_charged]
  refine ⟨fun hlt => absurd hlt (not_lt.2 hgas), fun _ => ?_⟩
  rw [wp_bind, wp_pop, hst]
  refine ⟨fun w₀ r₀ h₀ => ?_, fun h => by cases h⟩
  cases h₀
  rw [wp_bind, wp_pop]
  refine ⟨fun w₁ r₁ h₁ => ?_, fun h => by cases h⟩
  cases h₁
  rw [wp_bind]
  refine wp_popTopics_of_le _ hn ?_
  rw [wp_bind]
  refine wp_logData_of_le hlimit ?_
  rw [wp_bind, wp_modify, wp_next]
  refine ⟨⟨_, rfl⟩, ?_⟩
  simp only [Step.log, Step.operand, Step.this, loggedData, hst, List.getD_cons_zero, List.getD_cons_succ,
    List.drop_succ_cons, List.drop_zero]

variable [Crypto] [EventTracer T]

/-- LOG appends the log it is to append exactly when its topics read the same both ways, and
    its range lies in the memory or starts at 0. -/
theorem log_content (exec : Exec T) (sc : Scope) {instruction : Instruction} (hop : instruction.op = .log)
    {offset size : Word} {rest : List Word} (hst : s.evm.stack = offset :: size :: rest)
    (hn : instruction.opcode.n.toNat ≤ rest.length) (hcall : sc.ctx.callType ≠ .static)
    (hgas : 375 + (375 * instruction.opcode.n.toNat + 8 * size.toNat) ≤ s.evm.gas.remaining)
    (hlimit : offset.toNat + size.toNat ≤ allocationSanityLimit) :
    Logs (executeInstruction exec sc instruction) s
        ⟨sc.this, rest.take instruction.opcode.n.toNat, view (image 0 s.evm.memory) offset.toNat size.toNat⟩ ↔
      (rest.take instruction.opcode.n.toNat).reverse = rest.take instruction.opcode.n.toNat ∧
        (offset.toNat + size.toNat ≤ s.evm.memory.length ∨ offset = 0) := by
  obtain ⟨r, t, hrun, ⟨cost, rfl⟩, hlogs⟩ :=
    exists_ok (opLog_goes (x := ⟨sc, instruction, s⟩) hst hn hcall hgas hlimit)
  have hlog : (⟨sc, instruction, s⟩ : Step T).log =
      ⟨sc.this, (rest.take instruction.opcode.n.toNat).reverse, loggedData s.evm.memory offset.toNat size.toNat⟩ := by
    simp only [Step.log, Step.operand, Step.this, loggedData, hst, List.getD_cons_zero, List.getD_cons_succ,
      List.drop_succ_cons, List.drop_zero]
  have hzero : offset = 0 ↔ offset.toNat = 0 := ⟨fun h => by rw [h]; rfl, fun h => BitVec.eq_of_toNat_eq h⟩
  rw [hzero, ← loggedData_eq_iff]
  have hexec : executeInstruction exec sc instruction = opLog sc instruction := by
    simp only [executeInstruction, hop]
  unfold Logs
  rw [hexec, hrun]
  constructor
  · rintro ⟨_, _, hok, happended⟩
    cases hok
    rw [hlogs, hlog] at happended
    have heq := (List.append_cancel_left happended)
    simp only [List.cons.injEq, Log.mk.injEq, true_and, and_true] at heq
    exact heq
  · rintro ⟨htopics, hdata⟩
    refine ⟨cost, t, rfl, ?_⟩
    rw [hlogs, hlog, htopics, hdata]

end

namespace Sample

/-- A LOG2 with its two topics the same, at the start of an empty memory. -/
theorem log_content_pair :
    Logs (executeInstruction noFrame (scope []) (instruction 0xa2))
      { machine [] with evm := { stack := [0, 3, 7, 7], gas := .new 100000 } } ⟨0xaa, [7, 7], [0, 0, 0]⟩ :=
  (log_content noFrame (scope []) (show (instruction 0xa2).op = .log from rfl)
    (s := { machine [] with evm := { stack := [0, 3, 7, 7], gas := .new 100000 } }) rfl (by decide) (by decide)
    (by decide) (by decide)).2 ⟨by decide, .inr rfl⟩

/-- A LOG2 with topics 1 and 2 logs 2 and 1. -/
theorem log_content_reversed :
    ¬Logs (executeInstruction noFrame (scope []) (instruction 0xa2))
      { machine [] with evm := { stack := [0, 0, 1, 2], gas := .new 100000 } } ⟨0xaa, [1, 2], []⟩ := by
  rintro ⟨cost, t, hrun, hlogs⟩
  have happended : t.evm.logs = [⟨0xaa, [2, 1], []⟩] := by
    have hwp := opLog_goes (x := ⟨scope [], instruction 0xa2,
      { machine [] with evm := { stack := [0, 0, 1, 2], gas := .new 100000 } }⟩)
      rfl (by decide) (by decide) (by decide) (by decide)
    exact ((wp_of_ok hrun).1 hwp).2
  rw [happended] at hlogs
  exact absurd hlogs (by decide)

end Sample

end Solenoid
