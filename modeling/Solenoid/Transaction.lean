/-
  Solenoid.Transaction — a call transaction phase by phase, and the gas it reports.

  `execute` prepares, runs the top frame and settles (`Executes`); it settles at one amount
  of gas (`SettledAt`). `Runner::apply` computes the amount once more for its result, without
  the floor of EIP-7623: `reported_gas` says that the two agree exactly when the run itself
  reaches the floor (`Runner.executionGas`).
-/
import Solenoid.Phases
import Solenoid.Refinement

namespace Solenoid

open Hoare

section

variable {T : Type} [Crypto] [EventTracer T]

/-! ## Phases -/

omit [Crypto] [EventTracer T] in
theorem bind_lift_ok {σ α β : Type} {e : Except Fault α} {f : α → Run σ β} {s t : σ} {b : β}
    (h : (lift e >>= f) s = .ok b t) : ∃ a, e = .ok a ∧ f a s = .ok b t := by
  cases e with
  | ok a => exact ⟨a, rfl, h⟩
  | error f => cases h

/-- `execute`, phase by phase: prepared, run, settled. -/
structure Executes (fuel : Nat) (code : Bytecode) (call : Call) (s : Machine T) (prep : Word × Word × Int × Word)
    (started : Machine T) (ret : Bytes) (ended t : Machine T) : Prop where
  prepares : prepare code call s = .ok prep started
  runs : runTop (executeWithContext fuel) (topScope code call prep.2.2.2) started = .ok ret ended
  settles : settle call prep.1 prep.2.1 prep.2.2.1 ret ended = .ok ⟨⟩ t

theorem execute_ok {fuel : Nat} {code : Bytecode} {call : Call} {s t : Machine T} {ret : Bytes}
    (h : execute fuel code call s = .ok ret t) : ∃ prep started ended,
      Executes fuel code call s prep started ret ended t := by
  obtain ⟨prep, started, hp, h⟩ := bind_ok h
  obtain ⟨ret', ended, hr, h⟩ := bind_ok h
  obtain ⟨_, t', hs, h⟩ := bind_ok h
  cases h
  exact ⟨prep, started, ended, hp, hr, hs⟩

/-- The settlement with an amount of gas: the sender and the coinbase are settled with it,
    and the `Fee` event shows it. -/
structure SettledAt (call : Call) (gasPrepayment senderBalance : Word) (gas : Int) (s t : Machine T) : Prop where
  settles : ∃ fee word m₀ m₁ m₂, undoReverted s.evm s = .ok ⟨⟩ m₀ ∧
    settleSender call gasPrepayment senderBalance gas m₀ = .ok fee m₁ ∧ payCoinbase gas m₁ = .ok ⟨⟩ m₂ ∧
    Word.ofI64 gas = .ok word ∧ t = { m₂ with
      exe.tracer := EventTracer.push m₂.exe.tracer ⟨.fee word s.ext.txCtx.gasPrice fee, 1, false⟩ }

theorem settle_ok {call : Call} {p b : Word} {d : Int} {ret : Bytes} {s t : Machine T}
    (h : settle call p b d ret s = .ok ⟨⟩ t) : SettledAt call p b (gasFinal s.ext.txCtx call d ret s.evm) s t := by
  obtain ⟨_, m₀, h₀, h⟩ := bind_ok (show (undoReverted s.evm >>= _) s = _ from h)
  obtain ⟨fee, m₁, h₁, h⟩ := bind_ok h
  obtain ⟨_, m₂, h₂, h⟩ := bind_ok h
  obtain ⟨word, hword, h⟩ := bind_lift_ok h
  cases h
  exact ⟨fee, word, m₀, m₁, m₂, h₀, h₁, h₂, hword, rfl⟩

/-! ## What the phases around the frame leave alone -/

/-- A change of the accounts, the touches and the trace, in the transaction's context. -/
structure Booked (s t : Machine T) : Prop where
  evm : t.evm = { s.evm with touches := t.evm.touches }
  exe : t.exe = { s.exe with tracer := t.exe.tracer }
  txCtx : t.ext.txCtx = s.ext.txCtx

def booking : Frame Fault (Machine T) where
  ok := Booked
  err _ _ _ := True
  refl _ := ⟨rfl, rfl, rfl⟩
  trans h h' := ⟨by rw [h'.evm, h.evm], by rw [h'.exe, h.exe], h'.txCtx.trans h.txCtx⟩
  fail _ _ := trivial

/-- The transaction's own work: outside the frame, neither the stack nor the context of the
    transaction change. -/
structure Outside (s t : Machine T) : Prop where
  stack : t.evm.stack = s.evm.stack
  header : t.exe.header = s.exe.header
  txCtx : t.ext.txCtx = s.ext.txCtx

def outside : Frame Fault (Machine T) where
  ok := Outside
  err _ _ _ := True
  refl _ := ⟨rfl, rfl, rfl⟩
  trans h h' := ⟨h'.stack.trans h.stack, h'.header.trans h.header, h'.txCtx.trans h.txCtx⟩
  fail _ _ := trivial

omit [Crypto] [EventTracer T] in
theorem Booked.outside {s t : Machine T} (h : Booked s t) : Outside s t := ⟨by rw [h.evm], by rw [h.exe], h.txCtx⟩

/-- The runs of `Ext` that leave the transaction's context. -/
def sameTx : Frame Fault Ext where
  ok e e' := e'.txCtx = e.txCtx
  err _ _ _ := True
  refl _ := rfl
  trans h h' := h'.trans h
  fail _ _ := trivial

section

omit [EventTracer T]

theorem sameTx_pull (a : Address) : Keeps sameTx (Ext.pull a) := fun _ =>
  wp_def.2 ⟨fun _ _ h => Ext.txCtx_pull h, fun _ _ _ => trivial⟩

omit [Crypto]

theorem sameTx_accountMut (a : Address) (f : Account → Account) : Keeps sameTx (Ext.accountMut a f) := fun _ =>
  Ext.wp_accountMut f |>.2 ⟨fun _ => Ext.txCtx_mutate _ _ _, fun _ => trivial⟩

theorem sameTx_credit (a : Address) (v : Word) : Keeps sameTx (Ext.credit a v) := fun _ =>
  Ext.wp_credit (fun _ _ _ => Ext.txCtx_mutate _ _ _) fun _ => trivial

theorem txCtx_foldl_accessList (items : List AccessListItem) (e : Ext) :
    (items.foldl (fun e item => { e with
      accessedAddresses := insert item.address e.accessedAddresses
      accessedStorage := item.storageKeys.foldl (fun ks key => insert (item.address, key) ks) e.accessedStorage })
        e).txCtx =
      e.txCtx := by
  induction items generalizing e with
  | nil => rfl
  | cons item items ih => exact ih _

theorem sameTx_applyAccessList : Keeps sameTx Ext.applyAccessList := .modify fun _ => txCtx_foldl_accessList _ _

theorem books_onExt {α : Type} {m : Run Ext α} (h : Keeps sameTx m) : Keeps booking (onExt m : M T α) := fun s =>
  (wp_onExt m).2 (wp_mono (h s.ext) (fun _ _ h => ⟨rfl, rfl, h⟩) fun _ _ _ => trivial)

theorem books_lift {α : Type} (e : Except Fault α) : Keeps booking (lift e : M T α) := fun s =>
  (wp_lift e).2 ⟨fun _ _ => booking.refl s, fun _ _ => trivial⟩

theorem books_modify {f : Machine T → Machine T} (h : ∀ s, Booked s (f s)) : Keeps booking (modify f : M T Unit) :=
  .modify h

theorem books_touch (τ : AccountTouch) : Keeps booking (touch τ : M T Unit) := books_modify fun _ => ⟨rfl, rfl, rfl⟩

theorem sameTx_warmAddress (a : Address) : Keeps sameTx (Ext.warmAddress a) := fun _ => by
  simp only [Ext.warmAddress, wp_bind, wp_get, wp_set, wp_pure]
  rfl

theorem books_warmTouch (a : Address) : Keeps booking (warmTouch a : M T Unit) :=
  keeps_warmTouch_of (books_onExt (sameTx_warmAddress a)) (books_touch _)

theorem books_openAccount (a : Address) : Keeps booking (openAccount a : M T Unit) := by
  refine Keeps.bind (books_modify ?_) fun _ => (books_warmTouch a).bind fun _ => books_modify ?_
  all_goals exact fun _ => ⟨rfl, rfl, rfl⟩

end

omit [EventTracer T] in
theorem works_booking : Works (booking : Frame Fault (Machine T)) where
  lifted := books_lift
  pulled a := books_onExt (sameTx_pull a)
  warmed a := books_onExt (sameTx_warmAddress a)
  warmTouch := books_warmTouch
  touchCode a := keeps_touchCode_of (books_onExt (sameTx_pull a)) fun _ _ => books_touch _
  listed := books_onExt sameTx_applyAccessList
  valued a _ := books_onExt (sameTx_accountMut a _)
  credited a v := books_onExt (sameTx_credit a v)
  counted a _ := books_onExt (sameTx_accountMut a _)
  touched := books_touch

omit [Crypto] in
theorem announces_booking : Announces (booking : Frame Fault (Machine T)) := fun _ => books_modify fun _ => ⟨rfl, rfl, rfl⟩

omit [EventTracer T] in
theorem works_outside : Works (outside : Frame Fault (Machine T)) := works_booking.mono Booked.outside id

omit [Crypto] [EventTracer T] in
theorem fuels_outside : Fuels (outside : Frame Fault (Machine T)) :=
  ⟨fun _ => .modify fun _ => ⟨rfl, rfl, rfl⟩, .modify fun _ => ⟨rfl, rfl, rfl⟩⟩

theorem outside_prepare (code : Bytecode) (call : Call) :
    Keeps outside (prepare code call : M T (Word × Word × Int × Word)) :=
  works_outside.prepare (fun _ => .modify fun _ => ⟨rfl, rfl, rfl⟩) fuels_outside code call

/-- A top frame on an empty stack leaves the transaction's context. -/
theorem runTop_txCtx {fuel : Nat} {sc : Scope} {s t : Machine T} {ret : Bytes} (hs : s.evm.stack = [])
    (h : runTop (executeWithContext fuel) sc s = .ok ret t) : t.ext.txCtx = s.ext.txCtx := by
  unfold runTop at h
  split at h
  · next ret' i hrun =>
    cases h
    obtain ⟨w, hw, hf⟩ := run_follows (by rw [hs]; exact Nat.zero_le _) hrun
    exact (Follows.lasting lasting_txCtx hf).trans (hw.lasting lasting_txCtx)
  · cases h

/-! ## What the settlement leaves alone -/

omit [Crypto] [EventTracer T] in
theorem sameTx_revert (evm : Evm) : Keeps sameTx evm.revert :=
  Keeps.forM _ fun τ _ _ => AccountTouch.wp_revertTouch τ _ (fun _ => τ.txCtx_undone _) fun _ _ => trivial

theorem books_settle (call : Call) (gasPrepayment senderBalance : Word) (dataCost : Int) (ret : Bytes) :
    Keeps booking (settle call gasPrepayment senderBalance dataCost ret : M T Unit) :=
  works_booking.settle announces_booking (fun _ => books_onExt (sameTx_revert _)) call _ _ _ _

namespace Runner

omit [EventTracer T]

theorem outside_start (r : Runner) : Keeps outside (r.start : M T (Bytecode × Int × Address)) :=
  works_outside.start fuels_outside (fun a => (books_openAccount a).mono Booked.outside id) r

/-! ## The gas reported -/

omit [Crypto] [EventTracer T] in
theorem startGas_ok {r : Runner} {s t : Machine T} {reduction : Int} (h : r.startGas s = .ok reduction t) :
    reduction = intrinsicGas r.call + s.ext.txCtx.accessListCost := by
  obtain ⟨_, _, hget, h⟩ := bind_ok h
  cases hget
  obtain ⟨_, _, _, h⟩ := bind_ok h
  obtain ⟨_, _, _, h⟩ := bind_ok h
  obtain ⟨_, _, _, h⟩ := bind_ok h
  cases h
  rfl

omit [EventTracer T] in
theorem start_ok {r : Runner} {s t : Machine T} {code : Bytecode} {reduction : Int} {created : Address}
    (h : r.start s = .ok (code, reduction, created) t) :
    reduction = intrinsicGas r.call + s.ext.txCtx.accessListCost := by
  obtain ⟨_, s₁, h₁, h⟩ := bind_ok h
  obtain ⟨_, s₂, h₂, h⟩ := bind_ok h
  obtain ⟨_, s₃, h₃, h⟩ := bind_ok h
  obtain ⟨_, _, _, h⟩ := bind_ok h
  obtain ⟨_, _, _, h⟩ := bind_ok h
  cases h
  rw [startGas_ok h₃, ((works_booking.resolveCode r).ok h₂).txCtx, ((works_booking.warmCoinbase r).ok h₁).txCtx]

/-- The gas of the run itself, with the intrinsic gas and less the refund. -/
def executionGas (fuel : Nat) (r : Runner) (ext : Ext) : Option Int :=
  match (r.start (r.machine ext) : EStateM.Result Fault (Machine T) _) with
  | .error .. => none
  | .ok (code, reduction, _) s =>
    match prepare code r.call s with
    | .error .. => none
    | .ok prep s =>
      match runTop (executeWithContext fuel) (topScope code r.call prep.2.2.2) s with
      | .error .. => none
      | .ok _ t => some (t.evm.gas.finalized reduction t.evm.reverted)

end Runner

theorem prepare_dataCost {code : Bytecode} {call : Call} {s t : Machine T} {prep : Word × Word × Int × Word}
    (h : prepare code call s = .ok prep t) : prep.2.2.1 = dataCost call.data := by
  obtain ⟨_, _, _, h⟩ := bind_ok h
  obtain ⟨_, _, _, h⟩ := bind_ok h
  obtain ⟨_, _, _, h⟩ := bind_ok h
  obtain ⟨_, _, _, h⟩ := bind_ok h
  obtain ⟨_, _, _, h⟩ := bind_ok h
  obtain ⟨_, _, _, h⟩ := bind_ok h
  obtain ⟨_, _, _, h⟩ := bind_ok h
  obtain ⟨_, _, _, h⟩ := bind_ok h
  obtain ⟨_, _, _, h⟩ := bind_ok h
  cases h
  rfl

namespace Runner

omit [Crypto] [EventTracer T] in
theorem gasResult_ok {call : Call} {gas : Int} {s t : Machine T} {result : GasResult}
    (h : gasResult call gas s = .ok result t) : t = s ∧ result.gasUse = gas ∧
      ∃ word, Word.ofI64 gas = .ok word ∧ word.mul s.ext.txCtx.gasPrice = .ok result.gasFee := by
  obtain ⟨_, -, h⟩ := bind_lift_ok h
  obtain ⟨word, hword, h⟩ := bind_lift_ok h
  obtain ⟨_, _, hget, h⟩ := bind_ok h
  cases hget
  obtain ⟨fee, hfee, h⟩ := bind_lift_ok h
  cases h
  exact ⟨rfl, rfl, word, hword, hfee⟩

/-- A call transaction, phase by phase. -/
theorem apply_called {fuel : Nat} {r : Runner} {ext ext' : Ext} {result : CallResult T} (hto : r.call.to_ ≠ 0)
    (h : r.apply fuel ext = .ok result ext') : ∃ (code : Bytecode) (reduction : Int) (created : Address)
      (prep : Word × Word × Int × Word) (ret : Bytes) (started m ended settled bumped : Machine T),
      r.start (r.machine ext) = .ok (code, reduction, created) started ∧
      Executes fuel code r.call started prep m ret ended settled ∧
      rebumpReverted r.call.from_ settled = .ok ⟨⟩ bumped ∧
      gasResult r.call (bumped.evm.gas.finalized reduction bumped.evm.reverted) bumped = .ok result.gas bumped ∧
      result.evm = bumped.evm ∧ result.ret = ret ∧ result.tracer = bumped.exe.tracer ∧ ext' = bumped.ext := by
  unfold apply at h
  split at h
  · next result t hrun =>
    cases h
    obtain ⟨⟨code, reduction, created⟩, started, hstart, h⟩ := bind_ok hrun
    dsimp only at h
    rw [if_pos hto] at h
    obtain ⟨ret, settled, hexec, h⟩ := bind_ok h
    obtain ⟨prep, m, ended, hphases⟩ := execute_ok hexec
    obtain ⟨_, bumped, hbump, h⟩ := bind_ok h
    obtain ⟨_, _, hget, h⟩ := bind_ok h
    cases hget
    obtain ⟨gas, s, hgas, hresult⟩ := bind_ok h
    obtain ⟨rfl, -⟩ := gasResult_ok hgas
    cases hresult
    exact ⟨code, reduction, created, prep, ret, started, m, ended, settled, _, hstart, hphases, hbump,
      hgas, rfl, rfl, rfl, rfl⟩
  · cases h

/-- The result of a call is taken from where the frame ended. -/
theorem apply_ok {fuel : Nat} {r : Runner} {ext ext' : Ext} {result : CallResult T} (hto : r.call.to_ ≠ 0)
    (h : r.apply fuel ext = .ok result ext') : ∃ (code : Bytecode) (reduction : Int) (created : Address)
      (prep : Word × Word × Int × Word) (ret : Bytes) (started m ended settled : Machine T),
      r.start (r.machine ext) = .ok (code, reduction, created) started ∧
      Executes fuel code r.call started prep m ret ended settled ∧
      result.gas.gasUse = ended.evm.gas.finalized reduction ended.evm.reverted ∧
      ∃ word, Word.ofI64 result.gas.gasUse = .ok word ∧ word.mul ended.ext.txCtx.gasPrice = .ok result.gas.gasFee := by
  obtain ⟨code, reduction, created, prep, ret, started, m, ended, settled, bumped, hstart, hphases, hbump, hgas, -⟩ :=
    apply_called hto h
  obtain ⟨-, huse, hfee⟩ := gasResult_ok hgas
  have hbooked : Booked ended bumped :=
    booking.trans ((books_settle _ _ _ _ _).ok hphases.settles) ((works_booking.rebumpReverted _).ok hbump)
  refine ⟨code, reduction, created, prep, ret, started, m, ended, settled, hstart, hphases, ?_, ?_⟩
  · rw [huse, hbooked.evm]
  · rw [huse, ← hbooked.txCtx]
    exact hfee

/-- The top frame of a transaction and the machine it starts on: `execute` runs it in an
    executor of its own, a creation in the transaction's. -/
def topFrame (r : Runner) (ext : Ext) : Option (Scope × Machine T) :=
  match (r.start (r.machine ext) : EStateM.Result Fault (Machine T) _) with
  | .error .. => none
  | .ok (code, _, created) s =>
    if r.call.to_ ≠ 0 then
      match prepare code r.call s with
      | .error .. => none
      | .ok prep s =>
        some (topScope code r.call prep.2.2.2, ⟨.withTracer s.exe.header (EventTracer.fork s.exe.tracer), s.evm, s.ext⟩)
    else some (r.createScope code created, s)

/-- A transaction that comes back has run its top frame. -/
theorem apply_topFrame {fuel : Nat} {r : Runner} {ext ext' : Ext} {result : CallResult T}
    (h : r.apply fuel ext = .ok result ext') : ∃ sc s ret t, r.topFrame (T := T) ext = some (sc, s) ∧
      executeWithContext fuel sc s = .ok ret t := by
  by_cases hto : r.call.to_ ≠ 0
  · obtain ⟨code, reduction, created, prep, ret, started, m, ended, settled, hstart, hphases, -, -⟩ := apply_ok hto h
    have hruns := hphases.runs
    unfold runTop at hruns
    split at hruns
    · next ret' i hrun =>
      refine ⟨_, _, ret', i, ?_, hrun⟩
      simp only [topFrame, hstart, if_pos hto, hphases.prepares]
    · cases hruns
  · unfold apply at h
    split at h
    · next result t hrun =>
      obtain ⟨⟨code, reduction, created⟩, started, hstart, h⟩ := bind_ok hrun
      dsimp only at h
      rw [if_neg hto] at h
      obtain ⟨ret, ended, hruns, -⟩ := bind_ok (show (executeWithContext fuel _ >>= _) started = _ from h)
      refine ⟨_, started, ret, ended, ?_, hruns⟩
      simp only [topFrame, hstart, if_neg hto]
    · cases h

/-- The gas reported for a call transaction is the gas it is settled with, if and only if the
    run itself, with its intrinsic gas and less its refund, reaches the floor. -/
theorem reported_gas {fuel : Nat} {r : Runner} {ext ext' : Ext} {result : CallResult T} (hto : r.call.to_ ≠ 0)
    (h : r.apply fuel ext = .ok result ext') : ∃ (code : Bytecode) (reduction : Int) (created : Address)
      (prep : Word × Word × Int × Word) (ret : Bytes) (started m ended settled : Machine T) (gas : Int),
      r.start (r.machine ext) = .ok (code, reduction, created) started ∧
      Executes fuel code r.call started prep m ret ended settled ∧
      SettledAt r.call prep.1 prep.2.1 gas ended settled ∧
      ((result.gas.gasUse = gas ∧
          ∃ word, Word.ofI64 gas = .ok word ∧ word.mul ext.txCtx.gasPrice = .ok result.gas.gasFee) ↔
        ∃ spent, r.executionGas (T := T) fuel ext = some spent ∧ gasFloor r.call.data ≤ spent) := by
  obtain ⟨code, reduction, created, prep, ret, started, m, ended, settled, hstart, hphases, huse, hfee⟩ := apply_ok hto h
  have hout : Outside (r.machine ext) m :=
    outside.trans ((outside_start r).ok hstart) ((outside_prepare _ _).ok hphases.prepares)
  have htx : ended.ext.txCtx = ext.txCtx := (runTop_txCtx hout.stack hphases.runs).trans hout.txCtx
  have hspent : r.executionGas (T := T) fuel ext = some result.gas.gasUse := by
    simp only [executionGas, hstart, hphases.prepares, hphases.runs, huse]
  refine ⟨code, reduction, created, prep, ret, started, m, ended, settled, _, hstart, hphases,
    settle_ok hphases.settles, ?_⟩
  have hgas : gasFinal ended.ext.txCtx r.call prep.2.2.1 ret ended.evm =
      max result.gas.gasUse (gasFloor r.call.data) := by
    have hreduction : gasCosts ended.ext.txCtx r.call prep.2.2.1 ret = reduction := by
      rw [gasCosts, if_pos hto, start_ok hstart, prepare_dataCost hphases.prepares, htx, intrinsicGas, if_neg hto]
      rfl
    rw [gasFinal, hreduction, huse]
  rw [hgas, hspent]
  constructor
  · rintro ⟨heq, -⟩
    exact ⟨_, rfl, by omega⟩
  · rintro ⟨spent, hs, hfloor⟩
    cases hs
    have hmax : max result.gas.gasUse (gasFloor r.call.data) = result.gas.gasUse := by omega
    rw [hmax, ← htx]
    exact ⟨rfl, hfee⟩

end Runner

end

namespace Sample

/-- A call of 0xaa by 0xca, at a gas price of 1. -/
def transaction (data : Bytes) : Runner := ⟨{}, { data, from_ := 0xca, to_ := 0xaa, gas := 100000 }, []⟩

def ledger : Ext := { (machine [(0xca, 1000000, []), (0xaa, 0, [])]).ext with txCtx := { gasPrice := 1 } }

/-- 0xaa clears its slot 0, which holds 7. -/
def clearing : Ext :=
  { ledger with state := ledger.state.insert 0xaa { code := ([0x5f, 0x5f, 0x55], 0), state := (∅ : Storage).insert 0 7 } }

end Sample

open Sample

/-- One byte of data, and a slot cleared: of the 26020 spent 4800 are refunded, which leaves
    180 more than the floor, and the transaction reports what it is settled with. -/
theorem Runner.reported_gas_cleared : ∃ (result : CallResult LoggingTracer) (ext' : Ext) (prep : Word × Word × Int × Word)
    (ended settled : Machine LoggingTracer), (transaction [1]).apply 5 clearing = .ok result ext' ∧
      SettledAt (transaction [1]).call prep.1 prep.2.1 21220 ended settled ∧ gasFloor [1] = 21040 ∧
      result.gas.gasUse = 21220 ∧ result.gas.gasFee = 21220 := by
  have hrun : returns ((transaction [1]).apply (T := LoggingTracer) 5 clearing) (fun result _ =>
      result.gas.gasUse = 21220 ∧ result.gas.gasFee = 21220) := by decide +kernel
  obtain ⟨result, ext', h, hp⟩ := of_returns hrun
  obtain ⟨hgas, hfee⟩ := of_decide_eq_true hp
  have hspent : (transaction [1]).executionGas (T := LoggingTracer) 5 clearing = some 21220 := by decide +kernel
  obtain ⟨-, -, -, prep, -, -, -, ended, settled, gas, -, -, hsettled, hiff⟩ := Runner.reported_gas (by decide) h
  obtain ⟨hreported, -⟩ := hiff.2 ⟨21220, hspent, by decide⟩
  obtain rfl : gas = 21220 := hreported.symm.trans hgas
  exact ⟨result, ext', prep, ended, settled, h, hsettled, by decide, hgas, hfee⟩

/-- One byte of data, and nothing run: the transaction is charged 21040 and reports 21016. -/
theorem Runner.reported_gas_below_floor : ∃ (result : CallResult LoggingTracer) (ext' : Ext),
    (transaction [1]).apply 2 ledger = .ok result ext' ∧ result.gas.gasUse = 21016 ∧ result.gas.gasFee = 21016 ∧
      result.tracer.events.getLast? = some ⟨.fee 21040 1 21040, 1, false⟩ := by
  have hrun : returns ((transaction [1]).apply (T := LoggingTracer) 2 ledger) (fun result _ =>
      result.gas.gasUse = 21016 ∧ result.gas.gasFee = 21016 ∧
        result.tracer.events.getLast? = some ⟨.fee 21040 1 21040, 1, false⟩) := by decide +kernel
  obtain ⟨result, ext', h, hp⟩ := of_returns hrun
  exact ⟨result, ext', h, of_decide_eq_true hp⟩

end Solenoid
