/-
  Solenoid.Calling — when a message call gets past its base cost, and what that cost is.

  `callOpen` takes its operands, grows the memory, asks whether the callee is empty, reads
  its code and that of its delegate, and only then compares the cost with the gas. What it
  has at `callEnter` is `Step.arguments` and `Step.takenBase` (`wp_callOpen_exact`); before
  that it panics when an operand does not fit (`Step.CallFits`), and is reported when the
  memory is too much, an account does not answer or the gas does not cover the cost.
-/
import Solenoid.Outcomes

namespace Solenoid

open Hoare

/-! ## The operands of a call -/

/-- What an access to the address costs (EIP-2929). -/
def Ext.accessCost (e : Ext) (a : Address) : Int :=
  if Precompiles.isPrecompile a ∨ e.isAddressWarm a then 100 else 2600

namespace Step

variable {T : Type} (x : Step T)

/-- The operands a message call takes. -/
def callTaken : Nat := x.op.argsAt + 4

def argsOffset : Nat := (x.operand x.op.argsAt).toNat

def argsSize : Nat := (x.operand (x.op.argsAt + 1)).toNat

def retOffset : Nat := (x.operand (x.op.argsAt + 2)).toNat

def retSize : Nat := (x.operand (x.op.argsAt + 3)).toNat

/-- The value the callee is told; DELEGATECALL hands on its frame's. -/
def carried : Word := if x.op = .delegatecall then x.scope.call.value else x.value

def arguments : CallArgs where
  callGas := min (x.operand 0).toNat (2 ^ 63 - 1)
  address := x.target
  value := x.carried
  argsOffset := x.argsOffset
  argsSize := x.argsSize
  retOffset := x.retOffset
  retSize := x.retSize

/-- How far the memory has to reach. -/
def callTill : Nat := max (rangeTill x.argsOffset x.argsSize) (rangeTill x.retOffset x.retSize)

/-- The memory a call works on, extended by zeros. -/
def callMemory : Bytes :=
  x.before.evm.memory ++ List.replicate (grownTo x.before.evm.memory.length x.callTill - x.before.evm.memory.length) 0

/-- What the memory a call needs still costs. -/
def callExpansion : Int := memPrice (grownTo x.before.evm.memory.length x.callTill) - x.before.evm.memCost

/-- The operands fit a `usize`, and so do the ends of the ranges. -/
structure CallFits : Prop where
  argsOffset : x.argsOffset < 2 ^ 64
  argsSize : x.argsSize < 2 ^ 64
  retOffset : x.retOffset < 2 ^ 64
  retSize : x.retSize < 2 ^ 64
  argsTill : rangeTill x.argsOffset x.argsSize ≤ usizeMax
  retTill : rangeTill x.retOffset x.retSize ≤ usizeMax

/-- The memory stays within the sanity limit. -/
def CallSmall : Prop := x.before.evm.memory.length < x.callTill → x.callTill ≤ allocationSanityLimit

variable [Crypto]

/-- The code of the called account; none when it does not answer. -/
def targetCode : Bytes := ((x.before.ext.account? x.target).map (·.code.1)).getD []

def targetEmpty : Bool := ((x.before.ext.account? x.target).map Account.isEmpty).getD false

/-- What reaching the code costs: the account's access, and that of the account it delegates
    to, which is warm when it is the account itself. -/
def reachCost : Int :=
  x.before.ext.accessCost x.target +
    match delegation x.targetCode with
    | none => 0
    | some delegate => if delegate = x.target then 100 else x.before.ext.accessCost delegate

/-- The cost the code takes for a call, besides the gas it forwards. -/
def takenBase : Int :=
  x.reachCost + x.callExpansion +
    (if Precompiles.isPrecompile x.target = false ∧ x.carried ≠ 0 ∧ x.targetEmpty then 25000 else 0) +
    (if x.value ≠ 0 then 9000 else 0)

/-- The called account answers, and so does the one it delegates to. -/
structure Answers : Prop where
  target : ∃ account, x.before.ext.account? x.target = some account
  delegate : ∀ delegate, delegation x.targetCode = some delegate → ∃ account, x.before.ext.account? delegate = some account

end Step

section

variable {T : Type} [Crypto] {s t u : Machine T}

/-! ## Reading accounts -/

theorem wp_touchCode_exact {Q : Bytes × Word → Machine T → Prop} {E : Fault → Machine T → Prop} {a : Address}
    (hnone : s.ext.account? a = none → ∀ r, E (.report r) s)
    (hQ : ∀ account, s.ext.account? a = some account → ∀ t, t.ext.state.lookup a = some account →
      t.ext.accessedAddresses = s.ext.accessedAddresses → Looked s t → Q account.code t) : wp (touchCode a) Q E s := by
  unfold touchCode
  rw [wp_bind, Ext.code]
  refine wp_field_exact _ hnone fun account hacc e hl hwarm hlooked => ?_
  rw [wp_bind, wp_touch, wp_pure]
  exact hQ account hacc _ hl hwarm ⟨hlooked.answers, hlooked.extends_, hlooked.destroyed, hlooked.gas,
    hlooked.stack, hlooked.memory, hlooked.ret⟩

theorem wp_addressAccessCost_exact {Q : Int → Machine T → Prop} {E : Fault → Machine T → Prop} (a : Address)
    (hQ : ∀ t, t.ext.state = s.ext.state → (∀ b, t.ext.accessCost b = if b = a then 100 else s.ext.accessCost b) →
      Looked s t → Q (s.ext.accessCost a) t) : wp (addressAccessCost a) Q E s := by
  have hwarmed : ∀ b, ({ s.ext with accessedAddresses := insert a s.ext.accessedAddresses } : Ext).accessCost b =
      if b = a then 100 else s.ext.accessCost b := by
    intro b
    unfold Ext.accessCost Ext.isAddressWarm
    by_cases hb : b = a <;> simp [hb]
  have hlooked : Looked s { s with ext := { s.ext with accessedAddresses := insert a s.ext.accessedAddresses } } :=
    ⟨fun _ => rfl, ⟨fun _ h => h, rfl⟩, rfl, rfl, rfl, rfl, rfl⟩
  simp only [addressAccessCost, Ext.warmAddress, wp_ite, wp_pure, wp_bind, wp_onExt, wp_get, wp_set, wp_touch]
  refine ⟨fun hprecompile => ?_, fun hprecompile => ⟨fun hcold => ?_, fun hwarm => ?_⟩⟩
  · have hcost : s.ext.accessCost a = 100 := by simp [Ext.accessCost, hprecompile]
    rw [← hcost]
    refine hQ s rfl (fun b => ?_) (.refl s)
    split
    · next hb => rw [hb, hcost]
    · rfl
  · have hcost : s.ext.accessCost a = 2600 := by simpa [Ext.accessCost, hprecompile] using hcold
    rw [← hcost]
    exact hQ _ rfl hwarmed ⟨hlooked.answers, hlooked.extends_, rfl, rfl, rfl, rfl, rfl⟩
  · have hcost : s.ext.accessCost a = 100 := by simpa [Ext.accessCost, hprecompile] using hwarm
    rw [← hcost]
    exact hQ _ rfl hwarmed hlooked

/-- Reaching the code of a call's callee. -/
theorem wp_callTarget_exact {Q : Target → Machine T → Prop} {E : Fault → Machine T → Prop} {x : Step T}
    (hs : ∀ a, s.ext.account? a = x.before.ext.account? a) (hwarm : ∀ a, s.ext.accessCost a = x.before.ext.accessCost a)
    (hreport : ¬x.Answers → ∀ r t, E (.report r) t)
    (hQ : x.Answers → ∀ target t, target.accessCost = x.reachCost → (t.ext.state.lookup x.target).isSome →
      Looked s t → Q target t) : wp (callTarget x.target) Q E s := by
  unfold callTarget
  rw [wp_bind]
  refine wp_touchCode_exact (fun hnone r => hreport (fun h => ?_) r s) fun account hacc t hl hcold ht => ?_
  · obtain ⟨account, hacc⟩ := h.target
    rw [← hs, hnone] at hacc
    cases hacc
  rw [hs] at hacc
  have hcode : x.targetCode = account.code.1 := by rw [Step.targetCode, hacc]; rfl
  have hcost : ∀ a, t.ext.accessCost a = x.before.ext.accessCost a := fun a => by
    rw [← hwarm]
    unfold Ext.accessCost Ext.isAddressWarm
    rw [hcold]
  rw [wp_bind]
  refine wp_addressAccessCost_exact x.target fun u hstate hcosts hu => ?_
  have hsu := ht.trans hu
  have hloaded : (u.ext.state.lookup x.target).isSome := by rw [hstate, hl]; rfl
  rw [hcost]
  cases hdelegate : delegation account.code.1 with
  | none =>
    rw [wp_pure]
    refine hQ ⟨⟨account, hacc⟩, fun d hd => ?_⟩ _ u ?_ hloaded hsu
    · rw [hcode, hdelegate] at hd
      cases hd
    · simp only [Step.reachCost, hcode, hdelegate, add_zero]
  | some delegate =>
    rw [wp_bind]
    refine wp_touchCode_exact (fun hnone r => hreport (fun h => ?_) r u) fun account' hacc' v hl' hcold' hv => ?_
    · obtain ⟨account', hacc'⟩ := h.delegate delegate (by rw [hcode, hdelegate])
      rw [← hs, ← hsu.answers, hnone] at hacc'
      cases hacc'
    rw [wp_bind]
    refine wp_addressAccessCost_exact delegate fun w hstate' _ hw => (wp_pure _).2 ?_
    have hanswers : x.Answers := by
      refine ⟨⟨account, hacc⟩, fun d hd => ⟨account', ?_⟩⟩
      rw [hcode, hdelegate] at hd
      cases hd
      rw [← hs, ← hsu.answers, hacc']
    have hdelegateCost : v.ext.accessCost delegate = if delegate = x.target then 100 else x.before.ext.accessCost
      delegate := by
      rw [← hcost, ← hcosts]
      unfold Ext.accessCost Ext.isAddressWarm
      rw [hcold']
    refine hQ hanswers _ w ?_ ?_ (hsu.trans (hv.trans hw))
    · simp only [Step.reachCost, hcode, hdelegate, hdelegateCost]
      omega
    · rw [hstate']
      exact (hv.extends_.loaded _ hloaded)

/-- The price of calling an empty account with a value. -/
theorem wp_callCreateCost_exact {Q : Int → Machine T → Prop} {E : Fault → Machine T → Prop} {x : Step T}
    (hs : s.ext = x.before.ext) (hreport : ¬x.Answers → ∀ r t, E (.report r) t)
    (hQ : ∀ t, t.ext.accessedAddresses = s.ext.accessedAddresses → Looked s t →
      Q (if Precompiles.isPrecompile x.target = false ∧ x.carried ≠ 0 ∧ x.targetEmpty then 25000 else 0) t) :
    wp (callCreateCost x.arguments) Q E s := by
  unfold callCreateCost
  rw [wp_ite]
  refine ⟨fun hprecompile => (wp_pure _).2 ?_, fun hprecompile => ?_⟩
  · have hprecompile : Precompiles.isPrecompile x.target = true := hprecompile
    have hQ := hQ s rfl (.refl s)
    simpa [hprecompile] using hQ
  · have hprecompile : Precompiles.isPrecompile x.target = false := by simpa [Step.arguments] using hprecompile
    rw [wp_bind]
    refine wp_isEmpty_exact (fun hnone r => hreport (fun h => ?_) r s) fun account hacc e hwarm hlooked => (wp_pure _).2 ?_
    · obtain ⟨account, hacc⟩ := h.target
      rw [← hs] at hacc
      rw [Step.arguments] at hnone
      rw [hacc] at hnone
      cases hnone
    · have hempty : x.targetEmpty = account.isEmpty := by
        rw [Step.targetEmpty, ← hs, show s.ext.account? x.target = some account from hacc]
        rfl
      refine Eq.mp (congrArg (Q · _) ?_) (hQ _ hwarm hlooked)
      simp only [hprecompile, hempty, Step.arguments, true_and]
      congr

/-! ## The operands and the memory -/

omit [Crypto] in
theorem wp_pop_cons {Q : Word → Machine T → Prop} {E : Fault → Machine T → Prop} {w : Word} {rest : List Word}
    (hst : s.evm.stack = w :: rest) (hQ : Q w { s with evm.stack := rest }) : wp pop Q E s := by
  rw [wp_pop, hst]
  refine ⟨?_, nofun⟩
  rintro _ _ ⟨⟩
  exact hQ

omit [Crypto] in
theorem wp_popUsize_cons {Q : Nat → Machine T → Prop} {E : Fault → Machine T → Prop} {w : Word} {rest : List Word}
    (hst : s.evm.stack = w :: rest) (hQ : w.toNat < 2 ^ 64 → Q w.toNat { s with evm.stack := rest })
    (hE : ¬w.toNat < 2 ^ 64 → ∀ why t, E (.panic why) t) : wp popUsize Q E s := by
  unfold popUsize
  rw [wp_bind]
  refine wp_pop_cons hst ((wp_lift _).2 ⟨fun n hn => ?_, fun f hf => ?_⟩)
  · obtain rfl := asUsize_ok hn
    exact hQ (asUsize_lt hn)
  · obtain ⟨hwide, why, rfl⟩ := asUsize_error hf
    exact hE hwide why _

omit [Crypto] in
/-- The last four operands of a call. -/
theorem wp_callRanges {Q : CallArgs → Machine T → Prop} {E : Fault → Machine T → Prop} {w₁ w₂ w₃ w₄ : Word}
    {rest : List Word} (callGas : Nat) (address : Address) (value : Word) (hst : s.evm.stack = w₁ :: w₂ :: w₃ :: w₄ :: rest)
    (hQ : w₁.toNat < 2 ^ 64 ∧ w₂.toNat < 2 ^ 64 ∧ w₃.toNat < 2 ^ 64 ∧ w₄.toNat < 2 ^ 64 →
      Q ⟨callGas, address, value, w₁.toNat, w₂.toNat, w₃.toNat, w₄.toNat⟩ { s with evm.stack := rest })
    (hE : ¬(w₁.toNat < 2 ^ 64 ∧ w₂.toNat < 2 ^ 64 ∧ w₃.toNat < 2 ^ 64 ∧ w₄.toNat < 2 ^ 64) → ∀ why t, E (.panic why) t) :
    wp (do
      let argsOffset ← popUsize
      let argsSize ← popUsize
      let retOffset ← popUsize
      let retSize ← popUsize
      return { callGas, address, value, argsOffset, argsSize, retOffset, retSize }) Q E s := by
  rw [wp_bind]
  refine wp_popUsize_cons hst (fun h₁ => ?_) fun h => hE fun h' => h h'.1
  rw [wp_bind]
  refine wp_popUsize_cons rfl (fun h₂ => ?_) fun h => hE fun h' => h h'.2.1
  rw [wp_bind]
  refine wp_popUsize_cons rfl (fun h₃ => ?_) fun h => hE fun h' => h h'.2.2.1
  rw [wp_bind]
  refine wp_popUsize_cons rfl (fun h₄ => ?_) fun h => hE fun h' => h h'.2.2.2
  exact (wp_pure _).2 (hQ ⟨h₁, h₂, h₃, h₄⟩)

omit [Crypto] in
theorem wp_callArgs_exact {Q : CallArgs → Machine T → Prop} {E : Fault → Machine T → Prop} {x : Step T}
    (hop : x.op.isMessageCall) (hhas : x.has x.callTaken)
    (hQ : x.argsOffset < 2 ^ 64 ∧ x.argsSize < 2 ^ 64 ∧ x.retOffset < 2 ^ 64 ∧ x.retSize < 2 ^ 64 →
      Q x.arguments { x.before with evm.stack := x.before.evm.stack.drop x.callTaken })
    (hE : ¬(x.argsOffset < 2 ^ 64 ∧ x.argsSize < 2 ^ 64 ∧ x.retOffset < 2 ^ 64 ∧ x.retSize < 2 ^ 64) →
      ∀ why t, E (.panic why) t) : wp (callArgs (x.scope.inContext x.op)) Q E x.before := by
  have hmoves : (x.scope.inContext x.op).ctx.movesValue = decide (x.op = .call ∨ x.op = .callcode) :=
    movesValue_callContext _ hop
  unfold Step.has Step.callTaken at hhas
  unfold callArgs popValue
  by_cases hv : x.op = .call ∨ x.op = .callcode
  · have hat : x.op.argsAt = 3 := by rcases hv with h | h <;> rw [h] <;> rfl
    rw [hat] at hhas
    obtain ⟨w₀, w₁, w₂, w₃, w₄, w₅, w₆, rest, hst⟩ : ∃ w₀ w₁ w₂ w₃ w₄ w₅ w₆ rest,
        x.before.evm.stack = w₀ :: w₁ :: w₂ :: w₃ :: w₄ :: w₅ :: w₆ :: rest := by
      rcases h : x.before.evm.stack with - | ⟨w₀, - | ⟨w₁, - | ⟨w₂, - | ⟨w₃, - | ⟨w₄, - | ⟨w₅, - | ⟨w₆, rest⟩⟩⟩⟩⟩⟩⟩
      case cons.cons.cons.cons.cons.cons.cons => exact ⟨_, _, _, _, _, _, _, _, rfl⟩
      all_goals simp [h] at hhas
    rw [wp_bind]
    refine wp_pop_cons hst ?_
    rw [wp_bind]
    refine wp_pop_cons rfl ?_
    rw [if_pos (by simpa [hmoves] using hv), wp_bind]
    refine wp_pop_cons rfl ?_
    have hvalue : x.carried = w₂ := by
      rcases hv with h | h <;> simp [Step.carried, Step.value, h, Step.operand, hst]
    simp only [Step.argsOffset, Step.argsSize, Step.retOffset, Step.retSize, Step.arguments, Step.callTaken, Step.target,
      Step.operand, hat, hst, hvalue] at hQ hE
    exact wp_callRanges _ _ _ rfl hQ hE
  · have hat : x.op.argsAt = 2 := by
      unfold Op.argsAt
      split <;> simp_all
    rw [hat] at hhas
    obtain ⟨w₀, w₁, w₂, w₃, w₄, w₅, rest, hst⟩ : ∃ w₀ w₁ w₂ w₃ w₄ w₅ rest,
        x.before.evm.stack = w₀ :: w₁ :: w₂ :: w₃ :: w₄ :: w₅ :: rest := by
      rcases h : x.before.evm.stack with - | ⟨w₀, - | ⟨w₁, - | ⟨w₂, - | ⟨w₃, - | ⟨w₄, - | ⟨w₅, rest⟩⟩⟩⟩⟩⟩
      case cons.cons.cons.cons.cons.cons => exact ⟨_, _, _, _, _, _, _, rfl⟩
      all_goals simp [h] at hhas
    rw [wp_bind]
    refine wp_pop_cons hst ?_
    rw [wp_bind]
    refine wp_pop_cons rfl ?_
    rw [if_neg (by simpa [hmoves] using hv), wp_bind, wp_pure]
    have hvalue : x.carried = if (x.scope.inContext x.op).ctx.callType =
      .static then 0 else (x.scope.inContext x.op).call.value := by
      obtain hop | hop : x.op = .delegatecall ∨ x.op = .staticcall := by
        revert hop hv
        cases x.op <;> simp [Op.isMessageCall]
      · simp [Step.carried, hop, Scope.inContext, callContext]
      · simp [Step.carried, Step.value, hop, Scope.inContext, callContext]
    simp only [Step.argsOffset, Step.argsSize, Step.retOffset, Step.retSize, Step.arguments, Step.callTaken, Step.target,
      Step.operand, hat, hst, hvalue] at hQ hE
    exact wp_callRanges _ _ _ rfl hQ hE

omit [Crypto] in
theorem rangeEnd_exact (offset size : Nat) :
    rangeEnd offset size = .ok (rangeTill offset size) ∧ rangeTill offset size ≤ usizeMax ∨
    (∃ why, rangeEnd offset size = .error (.panic why)) ∧ ¬rangeTill offset size ≤ usizeMax := by
  unfold rangeEnd rangeTill addUsize
  by_cases hsize : 0 < size
  · simp only [hsize, if_true]
    by_cases hle : offset + size ≤ usizeMax
    · exact .inl ⟨if_pos hle, hle⟩
    · exact .inr ⟨⟨_, if_neg hle⟩, hle⟩
  · simp only [hsize, if_false]
    exact .inl ⟨trivial, Nat.zero_le _⟩

omit [Crypto] in
theorem callMemory_length (x : Step T) :
    x.callMemory.length = grownTo x.before.evm.memory.length x.callTill := by
  have hle := le_grownTo x.before.evm.memory.length x.callTill
  rw [Step.callMemory, List.length_append, List.length_replicate]
  omega

omit [Crypto] in
/-- Both ranges lie within the memory of the call, when they are not empty. -/
theorem within_callMemory (x : Step T) :
    (0 < x.argsSize → x.argsOffset + x.argsSize ≤ x.callMemory.length) ∧
      (0 < x.retSize → x.retOffset + x.retSize ≤ x.callMemory.length) := by
  have htill := (le_grownTo x.before.evm.memory.length x.callTill).2
  rw [callMemory_length]
  unfold Step.callTill rangeTill at htill ⊢
  refine ⟨fun h => ?_, fun h => ?_⟩ <;> simp only [h, if_true] at htill ⊢ <;> omega

omit [Crypto] in
theorem wp_callMemory_exact {Q : Int → Machine T → Prop} {E : Fault → Machine T → Prop} {x : Step T}
    (hsmall : divCeil x.before.evm.memory.length 32 * divCeil x.before.evm.memory.length 32 < 2 ^ 63)
    (hmemory : s.evm.memory = x.before.evm.memory) (hcost : s.evm.memCost = x.before.evm.memCost)
    (hQ : rangeTill x.argsOffset x.argsSize ≤ usizeMax ∧ rangeTill x.retOffset x.retSize ≤ usizeMax → x.CallSmall →
      ∀ memCost, Q x.callExpansion { s with evm.memory := x.callMemory, evm.memCost := memCost })
    (hpanic : ¬(rangeTill x.argsOffset x.argsSize ≤ usizeMax ∧ rangeTill x.retOffset x.retSize ≤ usizeMax) →
      ∀ why t, E (.panic why) t)
    (hreport : rangeTill x.argsOffset x.argsSize ≤ usizeMax ∧ rangeTill x.retOffset x.retSize ≤ usizeMax → ¬x.CallSmall →
      ∀ r t, E (.report r) t) : wp (callMemory x.arguments) Q E s := by
  unfold callMemory
  simp only [Step.arguments]
  rcases rangeEnd_exact x.argsOffset x.argsSize with ⟨hargs, hargsTill⟩ | ⟨⟨why, hargs⟩, hwide⟩
  · rcases rangeEnd_exact x.retOffset x.retSize with ⟨hret, hretTill⟩ | ⟨⟨why, hret⟩, hwide⟩
    · rw [wp_bind, wp_lift, hargs]
      refine ⟨?_, nofun⟩
      rintro _ ⟨⟩
      rw [wp_bind, wp_lift, hret]
      refine ⟨?_, nofun⟩
      rintro _ ⟨⟩
      rw [wp_bind]
      refine wp_expandTo_exact _ (fun hsanity => ?_) fun hlt hlimit => hreport ⟨hargsTill, hretTill⟩ (fun h => ?_) _ _
      · rw [hmemory] at hsanity
        have hlen := callMemory_length x
        have hprice : divCeil x.callMemory.length 32 * divCeil x.callMemory.length 32 < 2 ^ 63 := by
          rw [hlen]
          exact small_grown hsmall hsanity
        simp only [hmemory]
        refine wp_memoryExpansionCost_exact hprice ?_
        have hQ := hQ ⟨hargsTill, hretTill⟩ hsanity (memPrice x.callMemory.length)
        simp only [hcost]
        rw [Step.callExpansion, ← hlen] at hQ
        exact hQ
      · rw [hmemory] at hlt
        exact absurd (h hlt) (not_le.2 hlimit)
    · rw [wp_bind, wp_lift, hargs]
      refine ⟨?_, nofun⟩
      rintro _ ⟨⟩
      rw [wp_bind, wp_lift, hret]
      refine ⟨nofun, ?_⟩
      rintro _ ⟨⟩
      exact hpanic (fun h => hwide h.2) _ _
  · rw [wp_bind, wp_lift, hargs]
    refine ⟨nofun, ?_⟩
    rintro _ ⟨⟩
    exact hpanic (fun h => hwide h.1) _ _

/-! ## Up to the base cost -/

omit [Crypto] in
/-- Value moves with a call when its operand says so. -/
theorem moving_iff {x : Step T} (hop : x.op.isMessageCall) :
    (x.scope.inContext x.op).ctx.movesValue = true ∧ x.carried ≠ 0 ↔ x.value ≠ 0 := by
  have hmoves : (x.scope.inContext x.op).ctx.movesValue = decide (x.op = .call ∨ x.op = .callcode) :=
    movesValue_callContext _ hop
  rw [hmoves]
  unfold Step.carried Step.value
  cases hx : x.op <;> simp_all [Op.isMessageCall]

/-- The prices of a call: its base cost, what it forwards and the stipend. -/
def Step.prices (x : Step T) : CallGas where
  base := x.takenBase
  forwarded := min ((min (x.operand 0).toNat (2 ^ 63 - 1) : Nat) : Int)
    (x.before.evm.gas.remaining - x.takenBase - (x.before.evm.gas.remaining - x.takenBase) / 64) + x.stipend
  stipend := x.stipend

theorem callGas_eq {x : Step T} (hop : x.op.isMessageCall) {base : Int}
    (hbase : base + (if x.value ≠ 0 then 9000 else 0) = x.takenBase) :
    callGas (x.scope.inContext x.op) x.arguments base x.before.evm.gas.remaining = x.prices := by
  have hmoving : ((x.scope.inContext x.op).ctx.movesValue = true ∧ x.arguments.value ≠ 0) = (x.value ≠ 0) :=
    propext (moving_iff hop)
  have hstipend : x.stipend = if x.value ≠ 0 then 2300 else 0 := by
    unfold Step.stipend
    rw [hop]
    simp
  unfold callGas Step.prices
  simp only [hmoving, hbase, hstipend]
  rfl

/-- The machine a call that can pay its base cost goes on with. -/
structure AtEntry (x : Step T) (s : Machine T) : Prop where
  answers : ∀ a, s.ext.account? a = x.before.ext.account? a
  loaded : (s.ext.state.lookup x.target).isSome
  gas : s.evm.gas = x.before.evm.gas
  stack : s.evm.stack = x.before.evm.stack.drop x.callTaken
  memory : s.evm.memory = x.callMemory
  ret : s.exe.ret = x.before.exe.ret

/-- The arguments a call passes are in its memory. -/
theorem wp_callData_exact {Q : Bytes → Machine T → Prop} {E : Fault → Machine T → Prop} {x : Step T} (h : AtEntry x s)
    (hQ : Q x.input s) : wp (callData x.arguments) Q E s := by
  unfold callData readMemory
  rw [wp_ite]
  refine ⟨fun hsize => ?_, fun hsize => (wp_pure _).2 ?_⟩
  · have hsize : 0 < x.argsSize := hsize
    have hslice : slice x.callMemory x.argsOffset (x.argsOffset + x.argsSize) = .ok x.input := by
      have hgrown : Grown x.before.evm.memory x.callMemory := ⟨_, rfl⟩
      have hok : slice x.callMemory x.argsOffset (x.argsOffset + x.argsSize) =
          .ok ((x.callMemory.drop x.argsOffset).take (x.argsOffset + x.argsSize - x.argsOffset)) :=
        if_pos ⟨Nat.le_add_right _ _, (within_callMemory x).1 hsize⟩
      rw [hok, hgrown.slice hok, Nat.add_sub_cancel_left]
      rfl
    rw [wp_bind, wp_get, wp_lift, h.memory, show slice x.callMemory x.arguments.argsOffset
      (x.arguments.argsOffset + x.arguments.argsSize) = .ok x.input from hslice]
    refine ⟨?_, nofun⟩
    rintro _ ⟨⟩
    exact hQ
  · have hzero : x.argsSize = 0 := Nat.eq_zero_of_not_pos hsize
    have hnone : x.input = [] := by
      show window _ _ x.argsSize = []
      rw [hzero]
      simp [window]
    rwa [hnone] at hQ

variable [EventTracer T]

omit [Crypto] in
theorem wp_callOutOfGas_reports {α : Type} (sc : Scope) (instruction : Instruction) :
    wp (callOutOfGas sc instruction : M T α) (fun _ _ => False) (fun f _ => ∃ r, f = .report r) s := by
  simp only [callOutOfGas, wp_bind, wp_get, wp_emit, wp_modify, wp_push, wp_refuse]
  exact ⟨fun _ => ⟨_, rfl⟩, fun _ => ⟨_, rfl⟩⟩

/-- A call panics when an operand does not fit, is reported when the memory is too much, an
    account does not answer or the gas does not cover the base cost, and goes on otherwise. -/
theorem wp_callOpen_exact {Q : Opened T → Machine T → Prop} {E : Fault → Machine T → Prop} {x : Step T}
    (hop : x.op.isMessageCall) (hhas : x.has x.callTaken) (hs : Sound x.before)
    (hpanic : ¬x.CallFits → ∀ why t, E (.panic why) t)
    (hreport : x.CallFits → ¬(x.CallSmall ∧ x.Answers ∧ x.takenBase ≤ x.before.evm.gas.remaining) → ∀ r t, E (.report r) t)
    (henter : x.CallFits → x.CallSmall → x.Answers → x.takenBase ≤ x.before.evm.gas.remaining → ∀ target s, AtEntry x s →
      wp (callEnter (x.scope.inContext x.op) x.instruction x.arguments target x.prices) Q E s) :
    wp (callOpen (x.scope.inContext x.op) x.instruction) Q E x.before := by
  unfold callOpen
  rw [wp_bind]
  refine wp_callArgs_exact hop hhas (fun hbounds => ?_) fun hbounds =>
    hpanic fun h => hbounds ⟨h.argsOffset, h.argsSize, h.retOffset, h.retSize⟩
  have hfits : rangeTill x.argsOffset x.argsSize ≤ usizeMax ∧ rangeTill x.retOffset x.retSize ≤ usizeMax → x.CallFits :=
    fun h => ⟨hbounds.1, hbounds.2.1, hbounds.2.2.1, hbounds.2.2.2, h.1, h.2⟩
  rw [wp_bind]
  refine wp_callMemory_exact hs.paid.small rfl rfl (fun htills hsmall memCost => ?_)
    (fun htills => hpanic fun h => htills ⟨h.argsTill, h.retTill⟩) fun htills hlarge => hreport (hfits htills) fun h =>
      hlarge h.1
  have hunanswered : ¬x.Answers → ∀ r t, E (.report r) t := fun h => hreport (hfits htills) fun h' => h h'.2.1
  rw [wp_bind]
  refine wp_callCreateCost_exact rfl hunanswered fun t hwarm ht => ?_
  rw [wp_bind]
  refine wp_callTarget_exact (x := x) (fun a => ht.answers a)
    (fun a => ?_) hunanswered fun hanswers target u hcost hloaded hu => ?_
  · unfold Ext.accessCost Ext.isAddressWarm
    rw [hwarm]
  have htu := ht.trans hu
  have hgas : u.evm.gas.remaining = x.before.evm.gas.remaining := congrArg Gas.remaining htu.gas
  rw [wp_bind, wp_remaining, hgas, callGas_eq hop (by rw [hcost]; rfl), wp_ite]
  refine ⟨fun hdry => ?_, fun hpaid => ?_⟩
  · have hdry : x.before.evm.gas.remaining < x.takenBase := hdry
    refine wp_mono (wp_callOutOfGas_reports _ _) (fun _ _ h => h.elim) fun f v hf => ?_
    obtain ⟨r, rfl⟩ := hf
    exact hreport (hfits htills) (fun h => absurd h.2.2 (not_le.2 hdry)) r v
  · exact henter (hfits htills) hsmall hanswers (not_lt.1 hpaid) target u
      ⟨htu.answers, hloaded, htu.gas, htu.stack, htu.memory, htu.ret⟩

/-! ## The frame of a call -/

/-- The value moves to another account, and does not fit with what that has. -/
structure Step.CallOverflows (x : Step T) : Prop where
  value : x.value ≠ 0
  other : x.this ≠ x.target
  funds : x.value.toNat ≤ x.before.ext.funds x.this
  full : 2 ^ 256 ≤ x.before.ext.funds x.target + x.value.toNat

theorem funds_answered {e : Ext} {a : Address} {account : Account} (h : e.account? a = some account) :
    e.funds a = account.value.toNat := by
  rw [Ext.funds, Ext.balanceOf, h]
  rfl

theorem wp_callTransfer_exact {Q : Unit → Machine T → Prop} {E : Fault → Machine T → Prop} {x : Step T}
    (hop : x.op.isMessageCall) (h : AtEntry x s)
    (hreport : x.before.ext.account? x.this = none → ∀ r t, E (.report r) t)
    (hpanic : (∃ account, x.before.ext.account? x.this = some account) → x.CallOverflows → ∀ why t, E (.panic why) t)
    (hQ : (∃ account, x.before.ext.account? x.this = some account) → ¬x.CallOverflows → ∀ t, t.evm.gas = s.evm.gas →
      t.evm.stack = s.evm.stack → t.evm.memory = s.evm.memory → Q () t) :
    wp (callTransfer (x.scope.inContext x.op) x.arguments) Q E s := by
  have hthis : (x.scope.inContext x.op).this = x.this := this_inContext _ _
  unfold callTransfer
  rw [hthis, wp_bind, Ext.balance]
  refine wp_field_exact _ (fun hnone r => hreport (h.answers _ ▸ hnone) r s) fun sender hsender e hl _ hlooked => ?_
  rw [h.answers] at hsender
  obtain ⟨receiver, hreceiver⟩ := Option.isSome_iff_exists.1 (hlooked.extends_.loaded _ h.loaded)
  rw [wp_bind, Ext.balance, show x.arguments.address = x.target from rfl, wp_loaded _ hreceiver, wp_ite]
  have htarget : x.before.ext.account? x.target = some receiver := by
    rw [← h.answers, ← hlooked.answers]
    exact Ext.account?_loaded hreceiver
  have hfunds := funds_answered hsender
  have hfull := funds_answered htarget
  refine ⟨fun hc => ?_, fun hc => ?_⟩
  · obtain ⟨hvalue, hmoves, henough, hother⟩ := hc
    have hmoved : x.value = x.carried := by
      have hne := (moving_iff hop).1 ⟨hmoves, hvalue⟩
      unfold Step.carried
      split
      · next hd => exact absurd (by simp [Step.value, hd]) hne
      · rfl
    refine wp_mono (wp_moveValue_total _ hl hreceiver henough) (fun _ t ht => ?_) fun f t hf => ?_
    · refine hQ ⟨sender, hsender⟩ (fun hover => ?_) t ht.2.1 ht.2.2.1 ht.2.2.2.1
      have hover := hover.full
      have hroom : receiver.value.toNat + x.carried.toNat < 2 ^ 256 := ht.1
      rw [hfull, hmoved] at hover
      omega
    · obtain ⟨hover, why, rfl⟩ := hf
      have hover : ¬receiver.value.toNat + x.carried.toNat < 2 ^ 256 := hover
      have henough : x.carried.toNat ≤ sender.value.toNat := henough
      refine hpanic ⟨sender, hsender⟩ ⟨(moving_iff hop).1 ⟨hmoves, hvalue⟩, hother, ?_, ?_⟩ why t
      · rw [hfunds, hmoved]
        exact henough
      · rw [hfull, hmoved]
        omega
  · refine (wp_pure _).2 (hQ ⟨sender, hsender⟩ (fun hover => hc ?_) _ rfl rfl rfl)
    obtain ⟨hmoves, hcarried⟩ := (moving_iff hop).2 hover.value
    have hmoved : x.value = x.carried := by
      unfold Step.carried
      split
      · next hd => exact absurd (by simp [Step.value, hd]) hover.value
      · rfl
    refine ⟨hcarried, hmoves, ?_, hover.other⟩
    have henough := hover.funds
    rw [hfunds, hmoved] at henough
    exact henough

end

end Solenoid
