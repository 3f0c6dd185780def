/-
  Solenoid.PrecompileCalls — calls to precompiles, without a value.

  The law: a precompile that succeeds within the gas the call forwards is paid for, and the
  call pushes 1; otherwise the call pushes 0, all the forwarded gas is spent, and neither
  memory nor return data is left.
  - `precompile_call`: exactly the calls that meet it. The code does not compare the price
    with the forwarded gas; of a failure it takes the price, and keeps the return data that
    was there, which goes to memory; it slices ranges that are empty, and panics when they
    lie beyond the memory.
-/
import Solenoid.CallGas

namespace Solenoid

open Hoare

section

variable {T : Type} [Crypto] [EventTracer T]

/-! ## The law -/

namespace Step

omit [EventTracer T]

variable (x : Step T)

/-- The gas a call forwards. -/
def forwarded : Int := min ((x.operand 0).toNat : Int) (x.callLeft - x.callLeft / 64)

/-- What the precompile charges. -/
def charge : Int := Precompiles.gasCost x.target x.input

/-- The precompile succeeds within the forwarded gas. -/
def Served : Prop := (∃ ret, Precompiles.execute x.target x.input = .ok ret) ∧ x.charge ≤ x.forwarded

/-- A call to a precompile, without a value, whose base cost is covered. -/
structure Consulting : Prop where
  sound : Sound x.before
  op : x.op.isMessageCall
  operands : x.has x.callTaken
  value : x.value = 0
  precompile : Precompiles.isPrecompile x.target = true
  covered : x.callBase ≤ x.before.evm.gas.remaining

end Step

structure ConsultLaw (x : Step T) : Prop where
  served : x.Served → ∀ exec : Exec T, ∃ t, executeStep exec x.scope x.instruction x.before = .ok none t ∧
    t.evm.stack = 1 :: x.before.evm.stack.drop x.callTaken ∧
    t.evm.gas.used = x.before.evm.gas.used + (x.callBase + x.charge)
  refused : ¬x.Served → ∀ exec : Exec T, ∃ t, executeStep exec x.scope x.instruction x.before = .ok none t ∧
    t.evm.stack = 0 :: x.before.evm.stack.drop x.callTaken ∧
    t.evm.gas.used = x.before.evm.gas.used + (x.callBase + x.forwarded) ∧ t.evm.memory = x.callMemory ∧ t.exe.ret = []

/-! ## What the code does -/

namespace Step

omit [EventTracer T]

variable (x : Step T)

/-- The result of a precompile and the return data after it: its output, or what was there
    when it reports. -/
def Gives (result : Word) (ret : Bytes) : Prop :=
  (result = 1 ∧ Precompiles.execute x.target x.input = .ok ret) ∨
    (result = 0 ∧ ret = x.before.exe.ret ∧ ∃ r, Precompiles.execute x.target x.input = .error (.report r))

/-- The slices the code takes lie within the memory. -/
structure Sliced (ret : Bytes) : Prop where
  args : x.argsOffset + x.argsSize ≤ x.callMemory.length
  ret : x.retOffset + min ret.length x.retSize ≤ x.callMemory.length

/-- The call gets to the precompile, and what that leaves fits. -/
structure Reaches (ret : Bytes) : Prop where
  fits : x.CallFits
  small : x.CallSmall
  answers : x.Answers
  sliced : x.Sliced ret

/-- The memory with the return data copied to it. -/
def copied (ret : Bytes) : Bytes :=
  x.callMemory.take x.retOffset ++ ret.take x.retSize ++ x.callMemory.drop (x.retOffset + (ret.take x.retSize).length)

/-- What a precompile leaves. -/
structure Consulted (result : Word) (ret : Bytes) (t : Machine T) : Prop where
  stack : t.evm.stack = result :: x.before.evm.stack.drop x.callTaken
  memory : t.evm.memory = x.copied ret
  ret : t.exe.ret = ret
  gas : t.evm.gas = { x.before.evm.gas with used := x.before.evm.gas.used + x.charge }

end Step

section

variable {x : Step T} {s : Machine T}

omit [EventTracer T] in
theorem takenBase_precompile (hop : x.op.isMessageCall) (hvalue : x.value = 0)
    (hprecompile : Precompiles.isPrecompile x.target = true) : x.takenBase = x.callBase ∧ x.stipend = 0 := by
  rw [stipend_call hop, hvalue]
  unfold Step.takenBase Step.callBase
  simp only [hprecompile, hvalue]
  simp
  omega

omit [EventTracer T] in
theorem callBase_nonneg (hs : Paid x.before.evm) : 0 ≤ x.callBase := by
  have hgrows : memPrice x.before.evm.memory.length ≤ memPrice (grownTo x.before.evm.memory.length x.callTill) :=
    memPrice_mono (le_grownTo _ _).1
  have howing := hs.owing
  have haccess : ∀ a, 0 ≤ x.before.ext.accessCost a := fun a => by
    unfold Ext.accessCost
    split <;> omega
  have hreach : 0 ≤ x.reachCost := by
    have htarget := haccess x.target
    unfold Step.reachCost
    split
    · omega
    · next delegate _ =>
      have hdelegate := haccess delegate
      split <;> omega
  unfold Owing at howing
  unfold Step.callBase Step.callExpansion
  split <;> split <;> omega

omit [Crypto] [EventTracer T] in
theorem copied_empty (x : Step T) : x.copied [] = x.callMemory := by
  simp [Step.copied]

omit [EventTracer T] in
theorem Step.Gives.unique {result result' : Word} {ret ret' : Bytes} (h : x.Gives result ret) (h' : x.Gives result' ret') :
    result = result' ∧ ret = ret' := by
  rcases h with ⟨rfl, h⟩ | ⟨rfl, rfl, r, h⟩ <;> rcases h' with ⟨rfl, h'⟩ | ⟨rfl, rfl, r', h'⟩
  · rw [h] at h'
    cases h'
    exact ⟨rfl, rfl⟩
  · rw [h] at h'
    cases h'
  · rw [h] at h'
    cases h'
  · exact ⟨rfl, rfl⟩

omit [EventTracer T] in
theorem wp_runPrecompile_exact {Q : Word → Machine T → Prop} {E : Fault → Machine T → Prop}
    (hs : s.exe.ret = x.before.exe.ret) (hQ : ∀ result ret, x.Gives result ret → Q result { s with exe.ret := ret })
    (hE : (¬∃ result ret, x.Gives result ret) → ∀ f t, E f t) : wp (runPrecompile x.target x.input) Q E s := by
  unfold runPrecompile
  cases hexec : Precompiles.execute x.target x.input with
  | ok ret =>
    simp only [wp_bind, wp_setRet, wp_pure]
    exact hQ 1 ret (.inl ⟨rfl, hexec⟩)
  | error f =>
    cases f with
    | report r =>
      have hQ := hQ 0 x.before.exe.ret (.inr ⟨rfl, rfl, r, hexec⟩)
      rw [← hs] at hQ
      exact (wp_pure _).2 hQ
    | _ =>
      refine (wp_throw _).2 (hE ?_ _ _)
      rintro ⟨result, ret, ⟨-, h⟩ | ⟨-, -, r, h⟩⟩ <;> rw [hexec] at h <;> cases h

omit [Crypto] [EventTracer T] in
theorem copyFromSlice_iff {b data out : Bytes} {start : Nat} : copyFromSlice b start data = .ok out ↔
    start + data.length ≤ b.length ∧ out = b.take start ++ data ++ b.drop (start + data.length) := by
  unfold copyFromSlice
  split
  · next h => exact ⟨fun hout => ⟨h, by cases hout; rfl⟩, fun ⟨_, hout⟩ => by rw [hout]⟩
  · next h => exact ⟨nofun, fun hout => absurd hout.1 h⟩

omit [Crypto] [EventTracer T] in
theorem wp_takeGas_exact {Q : Unit → Machine T → Prop} {E : Fault → Machine T → Prop} {cost : Int}
    (hQ : cost ≤ s.evm.gas.remaining → Q () { s with evm.gas.used := s.evm.gas.used + cost })
    (hE : ¬cost ≤ s.evm.gas.remaining → ∀ f t, E f t) : wp (takeGas cost) Q E s := by
  simp only [takeGas, Evm.takeGas, wp_onEvm, wp_bind, wp_get, wp_modify, wp_ite, wp_pure, Solenoid.wp_error]
  unfold Gas.sub
  split
  · next h => exact ⟨fun hpaid => (by cases hpaid), fun _ => hE (not_le.2 h) _ _⟩
  · next h => exact ⟨fun _ => hQ (not_lt.1 h), fun hfalse => absurd rfl hfalse⟩

/-- A precompile is called: its arguments and its output have to lie within the memory. -/
theorem wp_callPrecompile_exact {Q : Unit → Machine T → Prop} {E : Fault → Machine T → Prop} {traceCost : Int}
    (hroom : s.evm.stack.length < stackLimit) (h : AtEntry x s)
    (hQ : ∀ result ret, x.Gives result ret → x.Sliced ret → x.charge ≤ x.before.evm.gas.remaining →
      ∀ t, x.Consulted result ret t → Q () t)
    (hE : (¬∃ result ret, x.Gives result ret ∧ x.Sliced ret ∧ x.charge ≤ x.before.evm.gas.remaining) → ∀ f t, E f t) :
    wp (callPrecompile (x.scope.inContext x.op) x.instruction x.arguments x.input traceCost) Q E s := by
  unfold callPrecompile
  rw [wp_bind]
  refine wp_runPrecompile_exact h.ret (fun result ret hgives => ?_) fun hnone => hE fun ⟨result, ret, hgives, _⟩ =>
    hnone ⟨_, _, hgives⟩
  have hfail : ¬(x.Sliced ret ∧ x.charge ≤ x.before.evm.gas.remaining) → ∀ f t, E f t := fun hnot => hE <| by
    rintro ⟨result', ret', hgives', hfits⟩
    obtain ⟨-, rfl⟩ := hgives.unique hgives'
    exact hnot hfits
  have hlength : x.arguments.retOffset + (ret.take x.arguments.retSize).length = x.retOffset + min ret.length
    x.retSize := by
    rw [List.length_take, Nat.min_comm]
    rfl
  simp only [emitCall, readMemory, writeMemory, wp_bind, wp_get, wp_emit, wp_lift]
  rw [h.memory]
  refine ⟨fun args hargs => ?_, fun f hf => hfail (fun hfits => ?_) _ _⟩
  · obtain ⟨-, hwithin, -⟩ := slice_ok hargs
    have hwithin : x.argsOffset + x.argsSize ≤ x.callMemory.length := hwithin
    refine ⟨fun memory hmemory => ?_, fun f hf => hfail (fun hfits => ?_) _ _⟩
    · obtain ⟨hret, hcopied⟩ := copyFromSlice_iff.1 hmemory
      rw [hlength] at hret
      rw [wp_modify, wp_bind, wp_push]
      refine ⟨fun _ => ?_, fun hfull => absurd hfull (not_le.2 hroom)⟩
      have hgas : ∀ u : Machine T, u.evm.gas = s.evm.gas →
        u.evm.gas.remaining = x.before.evm.gas.remaining := fun u hu => by
        rw [hu, h.gas]
      refine wp_takeGas_exact (fun hpaid => ?_) fun hshort => hfail (fun hfits => hshort ?_)
      · refine hQ result ret hgives ⟨hwithin, hret⟩ (hpaid.trans_eq (hgas _ rfl)) _ ⟨?_, hcopied, rfl, ?_⟩
        · exact congrArg (result :: ·) h.stack
        · show Gas.mk _ _ _ = _
          rw [h.gas]
          rfl
      · exact hfits.2.trans_eq (hgas _ rfl).symm
    · rw [copyFromSlice_iff.2 ⟨by rw [hlength]; exact hfits.1.ret, rfl⟩] at hf
      cases hf
  · have hargs := hfits.1.args
    unfold slice at hf
    rw [if_pos ⟨Nat.le_add_right _ _, hargs⟩] at hf
    cases hf

end

/-- A turn that goes on, from what the call leaves. -/
theorem wp_executeStep_goes {x : Step T} {exec : Exec T} {P : Int → Machine T → Prop} {E : Fault → Machine T → Prop}
    (hcall : x.op.isCall) (hg : guardStatic x.scope x.instruction x.before = .ok ⟨⟩ x.before)
    (hframe : wp (callFrame exec x.scope x.instruction) P E x.before) :
    wp (executeStep exec x.scope x.instruction) (fun o u => o = none → ∃ cost t, P cost t ∧ Pays cost t u)
      (fun _ _ => True) x.before := by
  unfold executeStep
  rw [wp_bind, wp_attempt, executeInstruction_call hcall]
  have hhalts : ∀ u : Machine T, wp (settleStep x.scope x.instruction none)
      (fun o u => o = none → ∃ cost t, P cost t ∧ Pays cost t u) (fun _ _ => True) u := fun u =>
    wp_mono (wp_settleStep_none _ _ _) (fun o v hv ho => by rw [ho] at hv; cases hv.1) fun _ _ _ => trivial
  refine wp_opCall_of (fun r hr => ?_) fun _ => ?_
  · rw [hg] at hr
    cases hr
  · refine wp_mono hframe (fun cost t ht => ?_) fun f t _ => ⟨⟨fun _ _ => hhalts _, fun _ => trivial⟩, fun r hr => ?_⟩
    · refine wp_mono (wp_and (wp_settleStep x.scope x.instruction (some (.ok cost)) _)
        (settling_settleStep x.scope x.instruction (some (.ok cost)) _)) (fun o u hu ho => ?_) fun _ _ _ => trivial
      obtain ⟨hsettles, hsettled⟩ := hu
      rw [ho] at hsettles
      have hgoes : GoesOn (some (.ok cost)) _ u := hsettles
      obtain ⟨cost', hcost', -, hgas⟩ := hgoes.cost
      cases hcost'
      refine ⟨cost, t, ht, congrArg Trail.ext hsettled.trail, congrArg Trail.touches hsettled.trail,
        congrArg Trail.logs hsettled.trail, hsettled.ret, hsettled.stack, ?_, ?_, hsettled.limit⟩
      · rw [hgoes.evm]
      · rw [hgas]
    · exact wp_mono (wp_settleStep_halt _ _ _ _) (fun o v hv ho => by rw [ho] at hv; cases hv.1) fun _ _ _ => trivial

/-- What the code leaves of a call that gets to its precompile, and pays it. -/
structure Step.Serves (x : Step T) (result : Word) (ret : Bytes) : Prop where
  gives : x.Gives result ret
  reaches : x.Reaches ret

namespace Step.Consulting

variable {x : Step T} {exec : Exec T} (h : x.Consulting)

include h

theorem wp_openFrame : wp (openFrame x.scope x.instruction)
    (fun o t => o = .done x.callBase ∧ ∃ result ret, x.Serves result ret ∧ x.Consulted result ret t)
    (fun _ _ => ¬∃ result ret, x.Serves result ret ∧ x.charge ≤ x.before.evm.gas.remaining) x.before := by
  obtain ⟨hbase, -⟩ := takenBase_precompile h.op h.value h.precompile
  rw [openFrame_message h.op]
  refine wp_callOpen_exact h.op h.operands h.sound (fun hfits _ _ => ?_) (fun _ hnot _ _ => ?_)
    fun hfits hsmall hanswers hcovered target s hs => ?_
  · exact fun ⟨_, _, hserves, _⟩ => hfits hserves.reaches.fits
  · exact fun ⟨_, _, hserves, _⟩ => hnot ⟨hserves.reaches.small, hserves.reaches.answers, by rw [hbase]; exact h.covered⟩
  · have hprecompile : Precompiles.isPrecompile x.arguments.address = true := h.precompile
    unfold callEnter
    rw [wp_bind]
    refine wp_callData_exact hs ?_
    rw [if_pos hprecompile, wp_bind]
    refine wp_callPrecompile_exact (by rw [hs.stack]; exact room_call h.sound.stack h.operands) hs
      (fun result ret hgives hsliced hpaid t ht => ?_) fun hnone _ _ => ?_
    · exact (wp_pure _).2 ⟨congrArg Opened.done hbase, result, ret, ⟨hgives, ⟨hfits, hsmall, hanswers, hsliced⟩⟩, ht⟩
    · exact fun ⟨result, ret, hserves, hpaid⟩ => hnone ⟨result, ret, hserves.gives, hserves.reaches.sliced, hpaid⟩

omit [EventTracer T] in
theorem guarded : guardStatic x.scope x.instruction x.before = .ok ⟨⟩ x.before :=
  guarded_call h.op h.operands fun _ _ => h.value

theorem wp_callFrame : wp (callFrame exec x.scope x.instruction)
    (fun cost t => cost = x.callBase ∧ ∃ result ret, x.Serves result ret ∧ x.Consulted result ret t)
    (fun _ _ => ¬∃ result ret, x.Serves result ret ∧ x.charge ≤ x.before.evm.gas.remaining) x.before := by
  unfold callFrame
  rw [wp_bind]
  refine wp_mono h.wp_openFrame (fun o t ht => ?_) fun _ _ hf => hf
  obtain ⟨rfl, ht⟩ := ht
  exact (wp_pure _).2 ⟨rfl, ht⟩

/-- What the turn leaves, when the frame goes on. -/
theorem wp_goes : wp (executeStep exec x.scope x.instruction) (fun o u => o = none → ∃ result ret,
      x.Serves result ret ∧ u.evm.stack = result :: x.before.evm.stack.drop x.callTaken ∧
      u.evm.gas.used = x.before.evm.gas.used + (x.callBase + x.charge) ∧ u.evm.memory = x.copied ret ∧ u.exe.ret = ret)
    (fun _ _ => True) x.before := by
  refine wp_mono (wp_executeStep_goes (isCall_message h.op) h.guarded h.wp_callFrame) (fun o u hu ho => ?_) fun _ _ hf => hf
  obtain ⟨cost, t, ⟨rfl, result, ret, hserves, ht⟩, hpays⟩ := hu ho
  refine ⟨result, ret, hserves, hpays.stack.trans ht.stack, ?_, hpays.memory.trans ht.memory, hpays.ret.trans ht.ret⟩
  rw [hpays.used, ht.gas]
  simp only
  omega

/-- It goes on when the gas covers both prices. -/
theorem goes_on (exec : Exec T) {result : Word} {ret : Bytes} (hserves : x.Serves result ret)
    (hpaid : x.callBase + x.charge ≤ x.before.evm.gas.remaining) : ∃ u,
    executeStep exec x.scope x.instruction x.before = .ok none u ∧
      u.evm.stack = result :: x.before.evm.stack.drop x.callTaken ∧
      u.evm.gas.used = x.before.evm.gas.used + (x.callBase + x.charge) ∧ u.evm.memory = x.copied ret ∧ u.exe.ret = ret := by
  have hdear := callBase_nonneg h.sound.paid
  have hturn : wp (executeStep exec x.scope x.instruction) (fun o _ => o = none) (fun _ _ => False) x.before := by
    refine wp_executeStep_call (isCall_message h.op) h.guarded
      (wp_mono h.wp_callFrame (fun cost t ht => ?_) fun f t hf => ?_)
    · obtain ⟨rfl, result, ret, -, ht⟩ := ht
      refine ⟨?_, fun _ _ => rfl⟩
      rw [ht.gas]
      unfold Gas.remaining at hpaid ⊢
      simp only
      omega
    · exact absurd ⟨result, ret, hserves, by omega⟩ hf
  obtain ⟨o, u, hu, rfl⟩ := exists_ok hturn
  obtain ⟨result', ret', hserves', hleft⟩ := (wp_of_ok hu).1 h.wp_goes rfl
  obtain ⟨rfl, rfl⟩ := hserves.gives.unique hserves'.gives
  exact ⟨u, hu, hleft⟩

end Step.Consulting

/-- The law holds of the calls whose precompile succeeds within the forwarded gas, and of
    those whose precompile fails at the price of just that, with no return data left from
    before; the slices have to lie within the memory. -/
theorem precompile_call {x : Step T} (h : x.Consulting) : ConsultLaw x ↔
    (∃ ret, Precompiles.execute x.target x.input = .ok ret ∧ x.charge ≤ x.forwarded ∧ x.Reaches ret) ∨
      ((∃ r, Precompiles.execute x.target x.input = .error (.report r)) ∧ x.charge = x.forwarded ∧
        x.before.exe.ret = [] ∧ x.Reaches []) := by
  constructor
  · intro hlaw
    by_cases hserved : x.Served
    · obtain ⟨t, ht, -⟩ := hlaw.served hserved (executeWithContext 0)
      obtain ⟨⟨ret, hexec⟩, hcharge⟩ := hserved
      obtain ⟨result, ret', hserves, -⟩ := (wp_of_ok ht).1 h.wp_goes rfl
      obtain ⟨-, rfl⟩ := hserves.gives.unique (.inl ⟨rfl, hexec⟩)
      exact .inl ⟨_, hexec, hcharge, hserves.reaches⟩
    · obtain ⟨t, ht, hstack, hused, -, hret⟩ := hlaw.refused hserved (executeWithContext 0)
      obtain ⟨result, ret, hserves, hstack', hused', -, hret'⟩ := (wp_of_ok ht).1 h.wp_goes rfl
      rw [hstack] at hstack'
      rw [hret] at hret'
      subst hret'
      have hreaches := hserves.reaches
      rcases hserves.gives with ⟨rfl, -⟩ | ⟨-, hret, hreports⟩
      · cases hstack'
      · exact .inr ⟨hreports, by omega, hret.symm, hreaches⟩
  · have hleast : x.forwarded ≤ x.before.evm.gas.remaining - x.callBase := by
      have hcovered := h.covered
      unfold Step.forwarded Step.callLeft
      omega
    rintro (⟨ret, hexec, hcharge, hreaches⟩ | ⟨⟨r, hexec⟩, hcharge, hret, hreaches⟩)
    · refine ⟨fun _ exec => ?_, fun hnot => absurd ⟨⟨ret, hexec⟩, hcharge⟩ hnot⟩
      obtain ⟨t, ht, hstack, hused, -⟩ := h.goes_on exec ⟨.inl ⟨rfl, hexec⟩, hreaches⟩ (by omega)
      exact ⟨t, ht, hstack, hused⟩
    · refine ⟨fun ⟨⟨ret, hok⟩, _⟩ => ?_, fun _ exec => ?_⟩
      · rw [hexec] at hok
        cases hok
      · obtain ⟨t, ht, hstack, hused, hmemory, hempty⟩ := h.goes_on exec ⟨.inr ⟨rfl, hret.symm, r, hexec⟩, hreaches⟩
          (by omega)
        rw [hcharge] at hused
        rw [copied_empty] at hmemory
        exact ⟨t, ht, hstack, hused, hmemory, hempty⟩

end

namespace Sample

/-- A STATICCALL of the identity precompile with this much gas. -/
def consulting (gas : Word) : Step NoopTracer :=
  step [0xfa] [gas, 0x04, 0, 0, 0, 0] [(0xaa, 0, []), (0x04, 0, [])]

theorem consulting_identity (gas : Word) : (consulting gas).Consulting where
  sound := ⟨⟨show (0 : Int) ≤ memPrice 0 by decide, show divCeil 0 32 * divCeil 0 32 < 2 ^ 63 by decide⟩, le_rfl,
    show (0 : Int) ≤ 100000 - 0 by decide, show 6 ≤ stackLimit by decide, nofun⟩
  op := show (consulting 0).op.isMessageCall by decide
  operands := show (consulting 0).callTaken ≤ 6 by decide
  value := rfl
  precompile := show Precompiles.isPrecompile (consulting 0).target = true by decide
  covered := show (consulting 0).callBase ≤ 100000 - 0 by decide

theorem identity_consulting (gas : Word) : Precompiles.execute (consulting gas).target (consulting gas).input = .ok [] :=
  show Precompiles.execute (consulting 0).target (consulting 0).input = .ok [] by decide

theorem reaches_consulting (gas : Word) : (consulting gas).Reaches [] where
  fits := ⟨show 0 < 2 ^ 64 by decide, show 0 < 2 ^ 64 by decide, show 0 < 2 ^ 64 by decide, show 0 < 2 ^ 64 by decide,
    show 0 ≤ usizeMax by decide, show 0 ≤ usizeMax by decide⟩
  small := fun h => absurd h (show ¬0 < (consulting 0).callTill by decide)
  answers := ⟨⟨{}, rfl⟩, nofun⟩
  sliced := ⟨le_refl 0, le_refl 0⟩

end Sample

open Sample in
/-- The law holds of the identity precompile with gas enough. -/
theorem precompile_call_identity : ConsultLaw (consulting 100) :=
  (precompile_call (consulting_identity 100)).2 (.inl ⟨[], identity_consulting 100, by decide, reaches_consulting 100⟩)

open Sample in
/-- With 10 gas for a price of 15 it is served all the same. -/
theorem precompile_call_short : (consulting 10).Consulting ∧ ¬ConsultLaw (consulting 10) := by
  have hconsulting := consulting_identity 10
  refine ⟨hconsulting, fun hlaw => ?_⟩
  have hshort : ¬(consulting 10).Served := fun h => absurd h.2 (by decide)
  obtain ⟨t, ht, hstack, -⟩ := hlaw.refused hshort (executeWithContext 1)
  obtain ⟨result, ret, hserves, hstack', -⟩ := (wp_of_ok ht).1 hconsulting.wp_goes rfl
  obtain ⟨rfl, -⟩ := hserves.gives.unique (.inl ⟨rfl, identity_consulting 10⟩)
  rw [hstack] at hstack'
  cases hstack'

end Solenoid
