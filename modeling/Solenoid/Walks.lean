/-
  Solenoid.Walks — the way a frame takes through the bytes of its code.

  A frame starts at the first byte of its code. It goes on where its jump leads, or past the
  instruction and its immediate data (`Step.leads`), and stands nowhere but where an
  instruction starts (`Step.StandsAt`): no frame runs the data of a PUSH.
-/
import Solenoid.Boundaries
import Solenoid.Jumps

namespace Solenoid

open Hoare

variable {T : Type}

/-- Where the frame goes on. -/
def Step.leads (x : Step T) : Nat :=
  match x.destination with
  | some w => w.toNat
  | none => x.instruction.offset + 1 + pushWidth (x.scope.code.bytecode.getD x.instruction.offset 0)

/-- The instruction is the one that starts at `p`, with the bytes that follow as its argument. -/
structure Step.StandsAt (x : Step T) (p : Nat) : Prop where
  start : CodeStart x.scope.code.bytecode p
  spared : ¬InPush x.scope.code.bytecode p
  instruction : ∃ byte, CoversAt x.scope.code.bytecode p byte x.instruction

/-- The first step stands at `p`, and every other where the one before it in its frame leads. -/
def History.Walks : History T → Nat → Prop
  | done, _ | cut, _ => True
  | step x rest, p => x.StandsAt p ∧ rest.Walks x.leads
  | call x _ _ _ callee _ rest, p => x.StandsAt p ∧ callee.Walks 0 ∧ rest.Walks x.leads

/-! ## One turn -/

theorem stands {x : Step T} {b : Bytes} (hcode : x.scope.code = decode b)
    (hi : currentInstruction x.scope x.before.evm = some x.instruction) : x.StandsAt x.instruction.offset := by
  have hbytes : x.scope.code.bytecode = b := by rw [hcode]; rfl
  have hget : (decode b).instructions[x.before.evm.pc]? = some x.instruction := by
    rw [← hcode]
    exact currentInstruction_at hi
  obtain ⟨byte, hcovers, -⟩ := (decode_correct b).covers _ _ hget
  have hlt : x.instruction.offset < b.length := (List.getElem?_eq_some_iff.1 hcovers.found).1
  have hstart : CodeStart b x.instruction.offset :=
    (decode_tiles b).1.startsFrom.1 ⟨_, List.mem_of_getElem? hget, rfl⟩
  constructor <;> rw [hbytes]
  · exact hstart
  · exact (codeStart_iff hlt).1 hstart
  · exact ⟨byte, hcovers⟩

/-- The instruction after another starts where that one ends. -/
theorem next_offset {x : Step T} {b : Bytes} {i : Instruction} (hcode : x.scope.code = decode b)
    (hi : currentInstruction x.scope x.before.evm = some x.instruction)
    (hnext : x.scope.code.instructions[x.before.evm.pc + 1]? = some i) :
    i.offset = x.instruction.offset + 1 + pushWidth (x.scope.code.bytecode.getD x.instruction.offset 0) := by
  have hbytes : x.scope.code.bytecode = b := by rw [hcode]; rfl
  have hget := currentInstruction_at hi
  rw [hcode] at hget hnext
  obtain ⟨byte, hcovers, hends⟩ := (decode_correct b).covers _ _ hget
  obtain ⟨byte', hcovers', -⟩ := (decode_correct b).covers _ _ hnext
  have hlt : i.offset < b.length := (List.getElem?_eq_some_iff.1 hcovers'.found).1
  have hbyte : b.getD x.instruction.offset 0 = byte := by rw [List.getD_eq_getElem?_getD, hcovers.found]; rfl
  rw [hnext] at hends
  have hends : i.offset = min (x.instruction.offset + 1 + pushWidth byte) b.length := hends
  rw [hbytes, hbyte]
  omega

section

variable [Crypto] [EventTracer T]

/-- A turn leads to the next one of its frame. -/
theorem Sound.leads {fuel : Nat} {x : Step T} {t : Machine T} {b : Bytes} {i : Instruction} (hs : Sound x.before)
    (hcode : x.scope.code = decode b) (hi : currentInstruction x.scope x.before.evm = some x.instruction)
    (hstep : executeStep (executeWithContext fuel) x.scope x.instruction x.before = .ok none t)
    (hnext : currentInstruction x.scope t.evm = some i) : i.offset = x.leads := by
  rcases hs.falls_or_jumps hi hstep (currentInstruction_live hnext) hcode with ⟨hnone, hpc⟩ | ⟨d, hjumping⟩
  · have hat := currentInstruction_at hnext
    rw [hpc] at hat
    rw [Step.leads, hnone]
    exact next_offset hcode hi hat
  · obtain ⟨w, hdest, rfl⟩ := hjumping.destination
    rw [Step.leads, hdest]
    -- whether the jump was right or slipped, it landed at its destination
    by_cases hslip : Slips x b w.toNat
    · obtain ⟨u, hu, -, -, j, hj, hoffset⟩ := slip_step (executeWithContext fuel) hjumping hslip
      rw [hstep] at hu
      cases hu
      rw [hnext] at hj
      cases hj
      exact hoffset
    · obtain ⟨o, u, hu, ⟨-, -, j, hj, hoffset⟩ | ⟨-, hhalts⟩⟩ :=
        (jumpsSafely_iff (executeWithContext fuel) hjumping).2 hslip
      · rw [hstep] at hu
        cases hu
        rw [hnext] at hj
        cases hj
        exact hoffset
      · rw [hstep] at hu
        cases hu
        cases hhalts.1

/-! ## A run -/

omit [Crypto] in
theorem frame_walks {hloop : Scope → Machine T → History T} {sc : Scope} {s : Machine T} (hcode : ∃ b, sc.code = decode b)
    (hpc : s.evm.pc = 0)
    (hloops : ∀ t, enterFrame sc s = .ok ⟨⟩ t → sc.ctx.depth ≤ callDepthLimit →
      (∀ i, currentInstruction sc t.evm = some i → i.offset = 0) → (hloop sc t).Walks 0) :
    (frameHistory hloop sc s).Walks 0 := by
  unfold frameHistory
  cases he : enterFrame sc s with
  | error f t => trivial
  | ok _ t =>
    dsimp only
    split
    · trivial
    · next hdepth =>
      refine hloops t he (not_lt.1 hdepth) fun i hi => ?_
      obtain ⟨b, hb⟩ := hcode
      have hparks : t.evm.pc = s.evm.pc := (grows_parking.enterFrame sc).ok he
      have hat := currentInstruction_at hi
      rw [hparks, hpc, hb] at hat
      exact offset_zero hat

theorem walks_node {exec : Exec T} {hist : Scope → Machine T → History T} {x : Step T} {rest : History T} {p : Nat}
    (hstands : x.StandsAt p) (hrest : rest.Walks x.leads)
    (hcallee : ∀ inner pending opened, openedFrame x.scope x.instruction x.before = some (inner, pending, opened) →
      (hist inner.scope (inner.machine opened.ext)).Walks 0) : (historyNode exec hist x rest).Walks p := by
  unfold historyNode
  split
  · exact ⟨hstands, hrest⟩
  · next inner pending opened hopened => exact ⟨hstands, hcallee inner pending opened hopened, hrest⟩

/-- By induction on the bound: the frame a step opens starts anew, and the turns after it where
    the step leads. -/
theorem loop_walks {sc₀ : Scope} {s₀ : Machine T} (hs₀ : Unused s₀) (hcode : ∃ b, sc₀.code = decode b) (fuel : Nat) :
    ∀ (sc : Scope) (s : Machine T) (p : Nat), Reaches sc₀ s₀ sc s →
      (∀ i, currentInstruction sc s.evm = some i → i.offset = p) → (historyLoop fuel sc s).Walks p := by
  induction fuel with
  | zero => exact fun _ _ _ _ _ => trivial
  | succ fuel ih =>
    intro sc s p hs hp
    cases hi : currentInstruction sc s.evm with
    | none =>
      rw [historyLoop_done hi]
      trivial
    | some instruction =>
      obtain ⟨b, hb⟩ := hs.decoded hcode
      have hstands := stands (x := ⟨sc, instruction, s⟩) hb hi
      rw [show (⟨sc, instruction, s⟩ : Step T).instruction.offset = p from hp _ hi] at hstands
      rw [historyLoop_step hi]
      refine walks_node hstands ?_ fun inner pending opened hopened => ?_
      · split
        · next t hstep =>
          refine ih _ _ _ (.turn hs hi hstep) fun i hnext => ?_
          have hsound := ((hs.lives hs₀).turn hi hstep).1
          exact hsound.leads (x := ⟨sc, instruction, s⟩) hb hi hstep hnext
        · trivial
      · refine frame_walks (openedFrame_decode hopened) ?_ fun t he hdepth hfirst => ?_
        · have hfresh := (opens_of_openedFrame (x := ⟨sc, instruction, s⟩) hopened).fresh
          rw [Inner.machine, hfresh.evm]
        · exact ih _ _ _ (.inner hs hi hopened he hdepth) hfirst

theorem run_walks {fuel : Nat} {sc : Scope} {s : Machine T} (hs : Unused s) (hpc : s.evm.pc = 0)
    (hcode : ∃ b, sc.code = decode b) : (history fuel sc s).Walks 0 :=
  frame_walks hcode hpc fun t he hdepth hfirst => loop_walks hs hcode fuel sc t 0 (.start he hdepth) hfirst

/-! ## A transaction -/

omit [EventTracer T] in
theorem start_decode {r : Runner} {code : Bytecode} {reduction : Int} {created : Address} {s t : Machine T}
    (h : r.start s = .ok (code, reduction, created) t) : ∃ b, code = decode b := by
  obtain ⟨_, s₁, -, h⟩ := bind_ok (show (r.warmCoinbase >>= _) s = _ from h)
  obtain ⟨code', s₂, hresolve, h⟩ := bind_ok h
  obtain ⟨_, s₃, -, h⟩ := bind_ok h
  obtain ⟨_, s₄, -, h⟩ := bind_ok h
  obtain ⟨_, s₅, -, h⟩ := bind_ok h
  cases h
  obtain ⟨given, s₆, -, hresolve⟩ := bind_ok (show (r.givenCode >>= _) s₁ = _ from hresolve)
  cases hd : delegation given with
  | none =>
    simp only [hd] at hresolve
    cases hresolve
    exact ⟨_, rfl⟩
  | some target =>
    simp only [hd] at hresolve
    obtain ⟨delegated, s₇, -, hresolve⟩ := bind_ok hresolve
    cases hresolve
    exact ⟨_, rfl⟩

theorem topFrame_decode {r : Runner} {ext : Ext} {sc : Scope} {s : Machine T} (h : r.topFrame ext = some (sc, s)) :
    ∃ b, sc.code = decode b := by
  unfold Runner.topFrame at h
  split at h
  · cases h
  · next code reduction created started hstart =>
    have hcode := start_decode hstart
    split at h
    · split at h
      · cases h
      · cases h
        exact hcode
    · cases h
      exact hcode

/-- Every frame of a transaction walks its code from the first byte, instruction by instruction
    and jump by jump, and stands at the start of an instruction all the way. -/
theorem Runner.topFrame_walks {fuel : Nat} {r : Runner} {ext : Ext} {sc : Scope} {s : Machine T}
    (h : r.topFrame ext = some (sc, s)) : (history fuel sc s).Walks 0 := by
  have hidle := topFrame_idle h
  exact run_walks hidle.unused hidle.pc (topFrame_decode h)

end

namespace Sample

/-- 0xaa jumps over a byte and pushes two that would be JUMPDESTs. -/
def hopping : Ext where
  state := (machine [(0xca, 1000000, []), (0xaa, 0, [0x60, 4, 0x56, 0, 0x5b, 0x61, 0x5b, 0x5b])]).ext.state
  txCtx := { gasPrice := 1 }

end Sample

open Sample

/-- It stands at four bytes of the eight. -/
theorem Runner.topFrame_walks_hopping : ∃ (sc : Scope) (s : Machine NoopTracer),
    (transaction []).topFrame hopping = some (sc, s) ∧
      (history 12 sc s).steps.map (·.instruction.offset) = [0, 2, 4, 5] ∧ (history 12 sc s).Walks 0 := by
  have hrun : ((transaction []).topFrame (T := NoopTracer) hopping).any (fun top =>
      decide ((history 12 top.1 top.2).steps.map (·.instruction.offset) = [0, 2, 4, 5])) = true := by decide +kernel
  obtain ⟨⟨sc, s⟩, htop, hoffsets⟩ := (Option.any_eq_true _ _).1 hrun
  exact ⟨sc, s, htop, of_decide_eq_true hoffsets, Runner.topFrame_walks htop⟩

end Solenoid
