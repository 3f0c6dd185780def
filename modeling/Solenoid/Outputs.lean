/-
  Solenoid.Outputs — what a frame returns, and what RETURNDATASIZE and RETURNDATACOPY see.

  The return buffer of a frame is also its output. `Step.buffered` is what one step leaves in
  it: a RETURN or REVERT its range of the memory, a message call what its callee returned or
  its precompile gave, STOP nothing; a creation, and a precompile that failed, leave it.
  - `run_outputs`: at every step of every frame of a run the buffer is what the steps before it
    left, and a frame returns the buffer it ends with, or nothing when a step ended it.
  - `Runner.apply_outputs`: the same of a transaction and of what it returns.
-/
import Solenoid.Tallies

namespace Solenoid

open Hoare

section

variable {T : Type} [Crypto]

/-! ## The buffer of a history -/

/-- The buffer after a step that opened no frame. -/
def Step.buffered (x : Step T) (buffer : Bytes) : Bytes :=
  match x.op with
  | .stop => []
  | .return_ | .revert => window x.before.evm.memory (x.operand 0).toNat (x.operand 1).toNat
  | .call | .callcode | .delegatecall | .staticcall =>
    match Precompiles.execute x.target x.input with
    | .ok out => out
    | .error _ => buffer
  | _ => buffer

/-- The buffer after a step that opened a frame. -/
def Step.handed (x : Step T) (ended : Option (Ended T)) (buffer : Bytes) : Bytes :=
  match ended with
  | some r => if x.op.isMessageCall then r.ret else buffer
  | none => buffer

/-- What the frame returns when its buffer is `buffer`. -/
def History.output : History T → Bytes → Bytes
  | done, buffer => buffer
  | cut, _ => []
  | step x rest, buffer => rest.output (x.buffered buffer)
  | call x _ _ _ _ ended rest, buffer => rest.output (x.handed ended buffer)

/-- Every step of the tree finds the buffer the steps before it left, and every inner frame
    starts on an empty one and returns its output. -/
def History.Buffered : History T → Bytes → Prop
  | done, _ | cut, _ => True
  | step x rest, buffer => x.before.exe.ret = buffer ∧ rest.Buffered (x.buffered buffer)
  | call x _ _ _ callee ended rest, buffer =>
    x.before.exe.ret = buffer ∧ callee.Buffered [] ∧ (∀ r, ended = some r → r.ret = callee.output []) ∧
      rest.Buffered (x.handed ended buffer)

variable [EventTracer T]

/-! ## One step -/

section

variable {exec : Exec T} {x : Step T}

omit [Crypto] [EventTracer T] in
theorem wp_setOutput_window (offset size : Nat) (s : Machine T) :
    wp (setOutput offset size : M T Unit) (fun _ t => t.exe.ret = window s.evm.memory offset size) (fun _ _ => True) s := by
  unfold setOutput
  rw [wp_ite]
  refine ⟨fun _ => ?_, fun hsize => (wp_setRet _).2 ?_⟩
  · simp only [readMemory, wp_bind, wp_lift, implies_true, and_true]
    intro till htill
    obtain rfl := addUsize_ok htill
    refine wp_expandTo _ fun memory hgrown _ => ?_
    simp only [wp_bind, wp_get, wp_lift, wp_setRet, implies_true, and_true]
    intro data hdata
    rw [hgrown.slice hdata, Nat.add_sub_cancel_left]
  · rw [Nat.le_zero.1 (not_lt.1 hsize)]
    rfl

omit [Crypto] in
theorem wp_opReturn_window (x : Step T) (reverted : Bool) :
    wp (opReturn x.scope reverted)
      (fun _ t => t.exe.ret = window x.before.evm.memory (x.operand 0).toNat (x.operand 1).toNat) (fun _ _ => True)
      x.before := by
  simp only [opReturn, popUsize, wp_bind, wp_modify, wp_pop, wp_lift, implies_true, and_true]
  intro w₀ rest₀ h₀ offset hoffset w₁ rest₁ h₁ size hsize
  obtain rfl := asUsize_ok hoffset
  obtain rfl := asUsize_ok hsize
  refine wp_mono (wp_setOutput_window _ _ _) (fun _ v hv => ?_) fun _ _ _ => trivial
  simp only [memoryExpansionCost, Evm.memoryExpansionCost, emitReturn, wp_onEvm, wp_bind, wp_get, wp_lift, wp_set, wp_pure,
    wp_emit, wp_next, implies_true, and_true]
  intro _ _
  have h₁ : rest₀ = w₁ :: rest₁ := h₁
  have h₀ : x.before.evm.stack = w₀ :: rest₀ := h₀
  simpa [Step.operand, h₀, h₁] using hv

omit [EventTracer T] in
theorem buffered_output (hop : x.op.isMessageCall) {out buffer : Bytes}
    (h : Precompiles.execute x.target x.input = .ok out) :
    x.buffered buffer = out := by
  revert hop
  unfold Step.buffered
  rw [h]
  cases x.op <;> simp [Op.isMessageCall]

omit [EventTracer T] in
theorem buffered_failed (hop : x.op.isMessageCall) {f : Fault} {buffer : Bytes}
    (h : Precompiles.execute x.target x.input = .error f) : x.buffered buffer = buffer := by
  revert hop
  unfold Step.buffered
  rw [h]
  cases x.op <;> simp [Op.isMessageCall]

/-- What an instruction that opened no frame and goes through leaves in the buffer. -/
theorem executeInstruction_buffered {cost : Int} {u : Machine T}
    (h : executeInstruction exec x.scope x.instruction x.before = .ok (.ok cost) u)
    (hnone : openedFrame x.scope x.instruction x.before = none) : u.exe.ret = x.buffered x.before.exe.ret := by
  by_cases hcall : x.op.isCall = true
  · obtain ⟨hmessage, -, hreplied, -⟩ := executeInstruction_unopened hcall h hnone
    cases hreplied with
    | output hout hret => rw [hret, buffered_output hmessage hout]
    | failed hfail hret => rw [hret, buffered_failed hmessage hfail]
  · by_cases hends : x.op.ends = true
    · unfold executeInstruction at h
      have hop : x.op = .stop ∨ x.op = .return_ ∨ x.op = .revert := by
        revert hends
        cases x.op <;> simp [Op.ends]
      rcases hop with hop | hop | hop <;> rw [show x.instruction.op = _ from hop] at h <;>
        simp only [Step.buffered, hop]
      · have hw : wp (opStop x.scope) (fun _ t => t.exe.ret = []) (fun _ _ => True) x.before := by
          simp only [opStop, emitReturn, wp_bind, wp_modify, wp_setRet, wp_get, wp_emit, wp_pure]
        exact (of_ok hw h :)
      · exact (of_ok (wp_opReturn_window x _) h :)
      · exact (of_ok (wp_opReturn_window x _) h :)
    · have hcall : x.op.isCall = false := by simpa using hcall
      have hends : x.op.ends = false := by simpa using hends
      have hwithin : Within x.allows x.before u := (wp_of_ok h).1 (instruction_within exec x hcall hends)
      have hret : u.exe.ret = x.before.exe.ret := congrArg Regs.ret hwithin.regs
      rw [hret]
      revert hcall hends
      unfold Step.buffered
      cases x.op <;> simp [Op.isCall, Op.ends]

omit [EventTracer T] in
/-- A frame is opened with the registers as they were. -/
theorem Opens.regs {inner : Inner T} {pending : Pending} {opened : Machine T} (h : Opens x inner pending opened) :
    opened.regs = x.before.regs := by
  cases h with
  | message _ h => exact h.regs
  | creation _ _ h => exact h.regs

/-- The loop goes on with what the instruction left in the buffer. -/
theorem executeStep_ret {sc : Scope} {instruction : Instruction} {s t : Machine T}
    (h : executeStep exec sc instruction s = .ok none t) :
    ∃ cost u, executeInstruction exec sc instruction s = .ok (.ok cost) u ∧ t.exe.ret = u.exe.ret := by
  unfold executeStep at h
  obtain ⟨r, u, hu, hsettle⟩ := bind_ok h
  have hgoes : GoesOn r u t := (of_ok (wp_settleStep _ _ _ _) hsettle :)
  have hsettled : Settled u t := (settling_settleStep _ _ _).ok hsettle
  obtain ⟨cost, rfl, -⟩ := hgoes.cost
  refine ⟨cost, u, ?_, hsettled.ret⟩
  unfold attempt at hu
  split at hu
  · next hrun =>
    cases hu
    exact hrun
  · cases hu
  · cases hu

/-- What a turn that goes on leaves in the buffer, when it opened a frame. -/
theorem executeStep_handed {fuel : Nat} {inner : Inner T} {pending : Pending} {opened t : Machine T}
    (hs : x.before.evm.stack.length ≤ stackLimit)
    (hopened : openedFrame x.scope x.instruction x.before = some (inner, pending, opened))
    (h : executeStep (executeWithContext fuel) x.scope x.instruction x.before = .ok none t) :
    t.exe.ret = x.handed (ended (executeWithContext fuel inner.scope (inner.machine opened.ext))) x.before.exe.ret := by
  obtain ⟨cost, u, hu, ht⟩ := executeStep_ret h
  obtain ⟨ret, m, hrun⟩ := executeInstruction_ran hopened hu
  have hopens := opens_of_openedFrame hopened
  have hext : opened.ext.Extends m.ext := (tracks_run fuel).extends hopens.fresh hrun
  obtain ⟨-, v, -, rfl, hclosed⟩ := (wp_of_ok hu).1 (wp_executeInstruction_closed hs hopened hrun hext)
  have hv : v.exe.ret = if x.op.isMessageCall then ret else opened.exe.ret := congrArg Regs.ret hclosed.regs
  have hret : opened.exe.ret = x.before.exe.ret := congrArg Regs.ret hopens.regs
  rw [ht, hrun]
  simp only [ended, Step.handed]
  rw [show ({ v with evm.pc := v.evm.pc + 1 } : Machine T).exe.ret = v.exe.ret from rfl, hv, hret]

end

/-! ## A run -/

/-- The buffer of a run, and its output, are those of its history. -/
structure Outputs (h : History T) (buffer : Bytes) (ret : Bytes) : Prop where
  buffered : h.Buffered buffer
  output : ret = h.output buffer

theorem Outputs.frame {loop : Exec T} {hloop : Scope → Machine T → History T} {sc : Scope} {s t : Machine T} {ret : Bytes}
    (hloops : ∀ u, u.evm.stack.length ≤ stackLimit → loop sc u = .ok ret t → Outputs (hloop sc u) u.exe.ret ret)
    (hs : s.evm.stack.length ≤ stackLimit) (hrun : frameWith loop sc s = .ok ret t) :
    Outputs (frameHistory hloop sc s) s.exe.ret ret := by
  obtain ⟨u, he, ⟨-, hh, rfl, -, -⟩ | ⟨-, hh, hloop⟩⟩ := frameWith_ok hloop hrun
  · rw [hh]
    exact ⟨trivial, rfl⟩
  · have hu : Within (Effect.isRead ·) s u := (keeps_enterFrame sc).ok he
    have hret : u.exe.ret = s.exe.ret := congrArg Regs.ret hu.regs
    rw [hh, ← hret]
    exact hloops u (hu.stack hs) hloop

/-- The node of a turn that came through, before the history of the turns after it. -/
theorem outputs_node {fuel : Nat} {x : Step T} {o : Option Bytes} {u : Machine T} {rest : History T} {ret : Bytes}
    (hs : x.before.evm.stack.length ≤ stackLimit)
    (hstep : executeStep (executeWithContext fuel) x.scope x.instruction x.before = .ok o u)
    (hrest : ∀ buffer, (o = none → buffer = u.exe.ret) → Outputs rest buffer ret)
    (hinner : ∀ (sc : Scope) (s : Machine T) (ret : Bytes) (t : Machine T), s.evm.stack.length ≤ stackLimit →
      executeWithContext fuel sc s = .ok ret t → Outputs (history fuel sc s) s.exe.ret ret) :
    Outputs (historyNode (executeWithContext fuel) (history fuel) x rest) x.before.exe.ret ret := by
  have hturned : Turned (executeWithContext fuel) (history fuel) x o u :=
    (wp_of_ok hstep).1 (wp_executeStep (tracks_run fuel) hs)
  cases hopened : openedFrame x.scope x.instruction x.before with
  | none =>
    have hrest := hrest (x.buffered x.before.exe.ret) fun ho => by
      subst ho
      obtain ⟨cost, v, hv, hu⟩ := executeStep_ret hstep
      rw [hu, executeInstruction_buffered hv hopened]
    rw [historyNode, hopened]
    exact ⟨⟨rfl, hrest.buffered⟩, hrest.output⟩
  | some opening =>
    obtain ⟨inner, pending, opened⟩ := opening
    obtain ⟨ret', m, hrun, -⟩ := hturned.closed hopened
    have hrest := hrest (x.handed (ended (executeWithContext fuel inner.scope (inner.machine opened.ext))) x.before.exe.ret)
      fun ho => by
        subst ho
        exact (executeStep_handed hs hopened hstep).symm
    have hfresh := (opens_of_openedFrame hopened).fresh
    have hcallee := hinner _ _ _ _ (hfresh.stack opened.ext) hrun
    rw [show (inner.machine opened.ext).exe.ret = [] from hfresh.ret] at hcallee
    rw [historyNode, hopened]
    refine ⟨⟨rfl, hcallee.buffered, fun r hr => ?_, hrest.buffered⟩, hrest.output⟩
    rw [hrun] at hr
    cases hr
    exact hcallee.output

/-- By induction on the bound: the step and the frame it opens, then the turns after it. -/
theorem loop_outputs (fuel : Nat) : ∀ (sc : Scope) (s : Machine T) (ret : Bytes) (t : Machine T),
    s.evm.stack.length ≤ stackLimit → executeLoop fuel sc s = .ok ret t →
      Outputs (historyLoop fuel sc s) s.exe.ret ret := by
  induction fuel with
  | zero => exact fun _ _ _ _ _ hrun => by cases hrun
  | succ fuel ih =>
    intro sc s ret t hs hrun
    cases hi : currentInstruction sc s.evm with
    | none =>
      rw [executeLoop_done hi] at hrun
      have hw : wp (finishFrame sc) (fun ret _ => ret = s.exe.ret) (fun _ _ => True) s := by
        simp only [finishFrame, emitStop, wp_bind, wp_get, wp_ite, wp_emit, wp_pure, implies_true, and_self]
      rw [historyLoop_done hi]
      exact ⟨trivial, (of_ok hw hrun :)⟩
    | some instruction =>
      rw [executeLoop_step hi] at hrun
      rw [historyLoop_step hi]
      have hinner : ∀ sc s ret t, s.evm.stack.length ≤ stackLimit → executeWithContext fuel sc s = .ok ret t →
          Outputs (history fuel sc s) s.exe.ret ret := fun sc s ret t hs hrun =>
        .frame (fun u hu hl => ih _ u _ _ hu hl) hs hrun
      cases hstep : executeStep (executeWithContext fuel) sc instruction s with
      | error f u =>
        rw [hstep] at hrun
        cases hrun
      | ok o u =>
        have hturned : Turned (executeWithContext fuel) (history fuel) ⟨sc, instruction, s⟩ o u :=
          (wp_of_ok hstep).1 (wp_executeStep (x := ⟨sc, instruction, s⟩) (tracks_run fuel) hs)
        rw [hstep] at hrun
        cases o with
        | none =>
          refine outputs_node (x := ⟨sc, instruction, s⟩) hs hstep (fun buffer hbuffer => ?_) hinner
          rw [hbuffer rfl]
          exact ih _ _ _ _ (hturned.stack rfl) hrun
        | some out =>
          cases hrun
          refine outputs_node (x := ⟨sc, instruction, s⟩) hs hstep (fun buffer _ => ⟨trivial, ?_⟩) hinner
          exact (executeStep_ends hstep).1

/-- Every frame of a run finds its buffer as its steps left it, and returns the last of it. -/
theorem run_outputs {fuel : Nat} {sc : Scope} {s t : Machine T} {ret : Bytes} (hs : s.evm.stack.length ≤ stackLimit)
    (hrun : executeWithContext fuel sc s = .ok ret t) : Outputs (history fuel sc s) s.exe.ret ret :=
  .frame (fun u hu hl => loop_outputs fuel _ u _ _ hu hl) hs hrun

/-! ## A transaction -/

/-- A creation whose init code came to its end, on too little gas for the code it returned. -/
structure Runner.Indebted (r : Runner) (ret : Bytes) (ended : Machine T) : Prop where
  creates : r.call.to_ = 0
  kept : ended.evm.reverted = false
  short : ended.evm.gas.remaining < 200 * ret.length

/-- A transaction returns the output of its top frame, unless it is a creation that cannot pay for
    its code: that is reverted and returns nothing. -/
theorem Runner.apply_outputs {fuel : Nat} {r : Runner} {ext ext' : Ext} {result : CallResult T}
    (h : r.apply fuel ext = .ok result ext') :
    ∃ sc s ret ended, r.topFrame ext = some (sc, s) ∧ executeWithContext fuel sc s = .ok ret (ended : Machine T) ∧
      (history fuel sc s).Buffered [] ∧ ret = (history fuel sc s).output [] ∧
      (¬r.Indebted ret ended → result.ret = ret) ∧
      (r.Indebted ret ended → result.ret = [] ∧ result.evm.reverted = true) := by
  obtain ⟨sc, s, ret, t, htop, hrun⟩ := apply_topFrame h
  have hstack := (prepares_marks.topFrame htop).2
  have houtputs := run_outputs (by rw [hstack]; exact Nat.zero_le _) hrun
  rw [(topFrame_quiet htop).2] at houtputs
  refine ⟨sc, s, ret, t, htop, hrun, houtputs.buffered, houtputs.output, ?_⟩
  have hend : r.topEnd fuel ext = some (ret, t) := by simp only [topEnd, htop, hrun]
  by_cases hto : r.call.to_ = 0
  · obtain ⟨code, reduction, created, started, ret', ended, deployed, gas, metered, paid, finalised, settled, hstart,
      hphases, hevm, hret, -⟩ := apply_created hto h
    have hend' := topEnd_created hto hstart hphases.runs
    rw [hend, Option.some.injEq, Prod.mk.injEq] at hend'
    obtain ⟨rfl, rfl⟩ := hend'
    rw [hret]
    cases createdGas_meters hphases.meters with
    | charged hcovers hgiven =>
      exact ⟨fun _ => hgiven, fun hdebt => absurd hdebt.short (not_lt.2 (hcovers hdebt.kept))⟩
    | unaffordable hkept hshort hnothing _ hreverted =>
      have hbooked : Booked metered settled := booking.trans ((works_booking.payCreated r gas).ok hphases.pays)
        (booking.trans ((books_finalise r created deployed).ok hphases.finalises)
          ((works_booking.chargeSender r gas).ok hphases.charges))
      refine ⟨fun hpaid => absurd ⟨hto, hkept, hshort⟩ hpaid, fun _ => ⟨hnothing, ?_⟩⟩
      rw [hevm, hbooked.evm]
      exact hreverted
  · obtain ⟨code, reduction, created, prep, ret', started, m, ended, settled, bumped, hstart,
      hphases, -, -, -, hret, -, -⟩ :=
      apply_called hto h
    obtain ⟨i, hend', -, -, -⟩ := topEnd_called hto hstart hphases
    rw [hend, Option.some.injEq, Prod.mk.injEq] at hend'
    obtain ⟨rfl, rfl⟩ := hend'
    exact ⟨fun _ => hret, fun hdebt => absurd hdebt.creates hto⟩

end

namespace Sample

/-- 0xaa calls 0xbb, which returns a byte, and comes to the end of its code. -/
def passing : Ext where
  state := (machine [(0xca, 1000000, []),
    (0xaa, 0, [0x5f, 0x5f, 0x5f, 0x5f, 0x5f, 0x60, 0xbb, 0x61, 0xff, 0xff, 0xf1]),
      (0xbb, 0, [0x60, 1, 0x5f, 0xf3])]).ext.state
  txCtx := { gasPrice := 1 }

/-- Reverts with the byte 7. -/
def declining : Bytes := [0x60, 7, 0x5f, 0x53, 0x60, 1, 0x5f, 0xfd]

/-- Returns 256 bytes. -/
def bulky : Bytes := [0x61, 1, 0, 0x5f, 0xf3]

end Sample

open Sample

/-- The byte 0xbb returned is what the call of 0xaa returns. A creation whose init code reverts
    returns the data; one whose code is 256 bytes cannot pay for them, and returns nothing. -/
theorem Runner.apply_outputs_passing :
    (∃ (result : CallResult NoopTracer) (ext' : Ext) (sc : Scope) (s : Machine NoopTracer),
      (transaction []).apply 20 passing = .ok result ext' ∧ (transaction []).topFrame passing = some (sc, s) ∧
        (history 20 sc s).Buffered [] ∧ (history 20 sc s).output [] = [0]) ∧
    (∃ (result : CallResult NoopTracer) (ext' : Ext), (founder declining).ready.apply 10 ledger = .ok result ext' ∧
      result.ret = [7]) ∧
    ∃ (result : CallResult NoopTracer) (ext' : Ext), (founder bulky).ready.apply 10 ledger = .ok result ext' ∧
      result.ret = [] ∧ result.evm.reverted = true := by
  refine ⟨?_, ?_, ?_⟩
  · have hrun : returns ((transaction []).apply (T := NoopTracer) 20 passing) (fun result _ =>
        decide (result.ret = [0])) := by decide +kernel
    obtain ⟨result, ext', h, hp⟩ := of_returns hrun
    obtain ⟨sc, s, ret, ended, htop, -, hbuffered, hout, hpaid, -⟩ := Runner.apply_outputs h
    have hret := hpaid fun hdebt => absurd hdebt.creates (by decide)
    exact ⟨result, ext', sc, s, h, htop, hbuffered, hout.symm.trans (hret.symm.trans (of_decide_eq_true hp))⟩
  · have hrun : returns ((founder declining).ready.apply (T := NoopTracer) 10 ledger) (fun _ _ => true) := by decide +kernel
    have hend : ((founder declining).ready.topFrame (T := NoopTracer) ledger).any (fun f =>
        returns (executeWithContext 10 f.1 f.2) fun ret t => t.evm.reverted && decide (ret = [7])) =
          true := by decide +kernel
    obtain ⟨result, ext', h, -⟩ := of_returns hrun
    obtain ⟨sc, s, ret, ended, htop, hrun, -, -, hpaid, -⟩ := Runner.apply_outputs h
    rw [htop, Option.any_some, hrun] at hend
    obtain ⟨hreverted, hret⟩ : ended.evm.reverted = true ∧ ret = [7] := by simpa [returns] using hend
    refine ⟨result, ext', h, (hpaid fun hdebt => ?_).trans hret⟩
    rw [hdebt.kept] at hreverted
    cases hreverted
  · have hrun : returns ((founder bulky).ready.apply (T := NoopTracer) 10 ledger) (fun _ _ => true) := by decide +kernel
    have hend : ((founder bulky).ready.topFrame (T := NoopTracer) ledger).any (fun f =>
        returns (executeWithContext 10 f.1 f.2) fun ret t =>
          !t.evm.reverted && decide (t.evm.gas.remaining < 200 * ret.length)) = true := by decide +kernel
    obtain ⟨result, ext', h, -⟩ := of_returns hrun
    obtain ⟨sc, s, ret, ended, htop, hrun, -, -, -, hlacking⟩ := Runner.apply_outputs h
    rw [htop, Option.any_some, hrun] at hend
    obtain ⟨hkept, hshort⟩ : ended.evm.reverted = false ∧ ended.evm.gas.remaining < 200 * ret.length := by
      simpa [returns] using hend
    exact ⟨result, ext', h, hlacking ⟨by decide, hkept, hshort⟩⟩

end Solenoid
