/-
  Solenoid.CreationLaws — CREATE and CREATE2 across contexts and histories.

  The address, the operands and the price of a creation, and whether its value moves, are
  decided by the call type of the context, which CREATE inherits from what opened its frame.
  The frame of the init code inherits it in turn.
  - `creation_contexts`: of two creations that start alike, when they hand the same to their init
    code, by the opcode's own rules, and leave what that says.
  - `creation_collision`: a derived address that is taken is spared only by the depth limit.
-/
import Solenoid.Balances
import Solenoid.CreationGas
import Solenoid.Overlay

namespace Solenoid

open Hoare

section

variable {T : Type} [Crypto] [EventTracer T]

/-! ## The effect of a creation -/

/-- What a frame's context decides in it: whether writes are refused, whether its CREATEs take a
    salt and whether they move their value. -/
structure Manner where
  static : Bool
  salted : Bool
  moves : Bool
  isStaticCall : Bool
  deriving DecidableEq

def Context.manner (ctx : Context) : Manner :=
  ⟨ctx.callType == .static, ctx.callType == .create2, ctx.movesValue, ctx.isStaticCall⟩

/-- What a creation hands over to its init code, with the manner that the new frame inherits. -/
structure CreationEffect where
  stack : List Word
  created : Address
  base : Int
  limit : Int
  code : Bytecode
  value : Word
  manner : Manner

inductive CreationOutcome where
  | opens (effect : CreationEffect)
  | halts
  | panics

def Step.creationOutcome (x : Step T) : CreationOutcome :=
  match openFrame x.scope x.instruction x.before with
  | .ok (.frame inner (.create base limit created value)) t =>
    .opens ⟨t.evm.stack, created, base, limit, inner.scope.code, value, inner.scope.ctx.manner⟩
  | .error (.report _) _ => .halts
  | _ => .panics

/-- What the instruction leaves in `u` when its init code came back in `m`: the address or 0, and
    when the creation is kept the value moved, if there is one, the manner lets it and the creator
    has it. -/
structure CreationEffect.Leaves (effect : CreationEffect) (this : Address) (kept : Bool) (m u : Machine T) : Prop where
  stack : u.evm.stack = (if kept then effect.created.toWord else 0) :: effect.stack
  balances : kept = true → effect.created ≠ this → ∀ a, u.ext.balanceOf a =
    if effect.manner.moves = true ∧ effect.value ≠ 0 ∧ effect.value.toNat ≤ m.ext.funds this then
      m.ext.shifted this effect.created effect.value a
    else m.ext.balanceOf a

/-- Every end of the init code leads to what the effect says. -/
def Step.Leaves (x : Step T) (effect : CreationEffect) : Prop :=
  ∀ fuel inner pending opened ret m r u, openedFrame x.scope x.instruction x.before = some (inner, pending, opened) →
    executeWithContext fuel inner.scope (inner.machine opened.ext) = .ok ret m →
    executeInstruction (executeWithContext fuel) x.scope x.instruction x.before = .ok r u →
    effect.Leaves x.this (pending.keeps ⟨m.exe.tracer, ret, m.evm⟩) m u

/-- The effect is the one of the opcode, and a value is not held back. -/
structure Step.OwnEffect (x : Step T) (effect : CreationEffect) : Prop where
  stack : effect.stack = x.before.evm.stack.drop (if x.op = .create2 then 4 else 3)
  created : ∀ account, x.before.ext.account? x.this = some account → effect.created =
    if x.op = .create2 then x.this.create2 (x.operand 3) x.initCode else x.this.create account.nonce
  base : effect.base = x.createBase
  value : effect.value = x.value
  moves : effect.value ≠ 0 → effect.manner.moves = true

/-- Two creations that start alike: the same opcode, operands, memory, gas, account and nonce. -/
structure Step.Alike (x y : Step T) : Prop where
  op : x.op = y.op
  stack : x.before.evm.stack = y.before.evm.stack
  memory : x.before.evm.memory = y.before.evm.memory
  memCost : x.before.evm.memCost = y.before.evm.memCost
  gas : x.before.evm.gas.remaining = y.before.evm.gas.remaining
  this : x.this = y.this
  nonce : (x.before.ext.account? x.this).map (·.nonce) = (y.before.ext.account? y.this).map (·.nonce)

/-- They have the same effect, it is their opcode's, and each leaves what it says. -/
structure SameCreation (x y : Step T) : Prop where
  outcome : x.creationOutcome = y.creationOutcome
  own : ∀ effect, x.creationOutcome = .opens effect → x.OwnEffect effect ∧ y.OwnEffect effect
  leaves : ∀ effect, x.creationOutcome = .opens effect → x.Leaves effect ∧ y.Leaves effect

variable {x y : Step T}

/-! ## The outcome -/

/-- The manner its init code inherits. -/
def Step.manner (x : Step T) : Manner := (callContext x.scope.ctx x.op).manner

/-- What a creation that is ready hands over, for its creator's nonce. -/
def Step.handsOver (x : Step T) (nonce : Word) : CreationEffect where
  stack := x.before.evm.stack.drop x.taken
  created := x.derived nonce
  base := x.createPrice x.salted
  limit := x.before.evm.gas.remaining - x.createPrice x.salted -
    (x.before.evm.gas.remaining - x.createPrice x.salted) / 64
  code := decode x.initCode
  value := x.value
  manner := x.manner

namespace Step.Creating

variable (h : x.Creating)

include h

theorem createsFrame {inner : Inner T} {pending : Pending} {opened : Machine T}
    (ho : openedFrame x.scope x.instruction x.before = some (inner, pending, opened)) :
      CreatesFrame x inner pending opened := by
  cases opens_of_openedFrame ho with
  | message hmessage => rcases h.op with hop | hop <;> simp [hop, Op.isMessageCall] at hmessage
  | creation _ _ hcreates => exact hcreates

theorem outcome_ready (hready : x.Ready) {account : Account} (hacc : x.before.ext.account? x.this = some account) :
    x.creationOutcome = .opens (x.handsOver account.nonce) := by
  obtain ⟨inner, pending, opened, ho, hat⟩ := h.opens hready
  obtain ⟨-, -, hopen⟩ := openedFrame_some ho
  obtain ⟨account', e, hpull, hcreated, -⟩ := hat.accounts
  obtain rfl : account' = account := by
    rw [Ext.pull_account? hpull] at hacc
    exact Option.some.inj hacc
  have hmanner : inner.scope.ctx.manner = x.manner := by
    rw [(h.createsFrame ho).ctx]
    rfl
  have hpending := hat.pending
  rw [hcreated, hat.limit] at hpending
  unfold Step.creationOutcome
  rw [hopen, hpending]
  simp only [Step.handsOver, hat.stack, hat.code, hmanner]

theorem outcome_refused (hrefused : x.Refused) : x.creationOutcome = .halts := by
  have hopen := wp_def.1 h.wp_openFrame
  unfold Step.creationOutcome
  cases ho : openFrame x.scope x.instruction x.before with
  | ok o t => exact absurd (hopen.1 _ _ ho).1 hrefused.not_ready
  | error f t =>
    rcases hopen.2 _ _ ho with ⟨-, r, rfl⟩ | ⟨-, hnot, -⟩
    · rfl
    · exact absurd hrefused hnot

theorem outcome_stuck (hready : ¬x.Ready) (hrefused : ¬x.Refused) : x.creationOutcome = .panics := by
  have hopen := wp_def.1 h.wp_openFrame
  unfold Step.creationOutcome
  cases ho : openFrame x.scope x.instruction x.before with
  | ok o t => exact absurd (hopen.1 _ _ ho).1 hready
  | error f t =>
    rcases hopen.2 _ _ ho with ⟨h, -⟩ | ⟨-, -, why, rfl⟩
    · exact absurd h hrefused
    · rfl

theorem ready_of_opens {effect : CreationEffect} (heffect : x.creationOutcome = .opens effect) : x.Ready := by
  by_contra hready
  by_cases hrefused : x.Refused
  · rw [h.outcome_refused hrefused] at heffect
    cases heffect
  · rw [h.outcome_stuck hready hrefused] at heffect
    cases heffect

end Step.Creating

namespace Step.Alike

variable (h : x.Alike y)

include h

omit [EventTracer T]

theorem symm : y.Alike x :=
  ⟨h.op.symm, h.stack.symm, h.memory.symm, h.memCost.symm, h.gas.symm, h.this.symm, h.nonce.symm⟩

theorem operand (i : Nat) : x.operand i = y.operand i := by
  unfold Step.operand
  rw [h.stack]

theorem offset : x.initOffset = y.initOffset := congrArg BitVec.toNat (h.operand 1)

theorem size : x.initSize = y.initSize := congrArg BitVec.toNat (h.operand 2)

theorem initCode : x.initCode = y.initCode := by
  unfold Step.initCode
  rw [h.memory, h.offset, h.size]

theorem price (salted : Bool) : x.createPrice salted = y.createPrice salted := by
  unfold Step.createPrice Step.initExpansion Step.initWords
  rw [h.memory, h.memCost, h.offset, h.size]

theorem value (hop : x.isCreation) : x.value = y.value := by
  have hy : y.op = x.op := h.op.symm
  rcases hop with hx | hx <;> simp only [Step.value, hy, hx, h.operand]

theorem creator {p : Account → Prop} (hp : ∀ a b : Account, a.nonce = b.nonce → p a → p b)
    (hx : ∃ account, x.before.ext.account? x.this = some account ∧ p account) :
    ∃ account, y.before.ext.account? y.this = some account ∧ p account := by
  obtain ⟨a, ha, hpa⟩ := hx
  have hnonce := h.nonce
  rw [ha, Option.map_some] at hnonce
  cases hb : y.before.ext.account? y.this with
  | none => rw [hb] at hnonce; cases hnonce
  | some b =>
    rw [hb, Option.map_some] at hnonce
    exact ⟨b, rfl, hp a b (Option.some.inj hnonce) hpa⟩

theorem ready (hs : x.salted = y.salted) (hx : x.Ready) : y.Ready := by
  have htaken : x.taken = y.taken := by
    unfold Step.taken
    rw [hs]
  refine ⟨?_, h.offset ▸ hx.offset, h.size ▸ hx.size, ?_, h.creator (fun a b hab ha => hab ▸ ha) hx.creator, ?_⟩
  · have hhas := hx.has
    unfold Step.has at hhas ⊢
    rwa [← h.stack, ← htaken]
  · rw [← h.memory, ← h.offset, ← h.size]
    exact hx.fits
  · rw [← h.price, ← hs, ← h.gas]
    exact hx.covered

theorem refused (hs : x.salted = y.salted) (hx : x.Refused) : y.Refused := by
  have htaken : x.taken = y.taken := by
    unfold Step.taken
    rw [hs]
  refine ⟨h.offset ▸ hx.offset, h.size ▸ hx.size, ?_⟩
  rw [← h.memory, ← h.offset, ← h.size, ← htaken]
  rcases hx.why with hlacks | hexcessive | ⟨hfits, hnone⟩
  · refine .inl fun hhas => hlacks ?_
    unfold Step.has at hhas ⊢
    rwa [h.stack]
  · exact .inr (.inl hexcessive)
  · have hnonce := h.nonce
    rw [hnone] at hnonce
    exact .inr (.inr ⟨hfits, Option.map_eq_none_iff.1 hnonce.symm⟩)

theorem handsOver (hop : x.isCreation) (hm : x.manner = y.manner) (nonce : Word) :
    x.handsOver nonce = y.handsOver nonce := by
  have hs : x.salted = y.salted := congrArg Manner.salted hm
  unfold Step.handsOver Step.derived Step.taken
  rw [h.stack, hs, h.this, h.operand, h.initCode, h.price, h.gas, h.value hop, hm]

end Step.Alike

omit [EventTracer T] in
theorem Step.Creating.ownEffect_iff (h : x.Creating) (hready : x.Ready) {account : Account}
    (hacc : x.before.ext.account? x.this = some account) : x.OwnEffect (x.handsOver account.nonce) ↔
      x.salted = (x.op == .create2) ∧ (x.value ≠ 0 → x.manner.moves = true) := by
  have htaken := hready.has
  have hhas := h.operands
  unfold Step.has Step.taken at htaken
  unfold Step.has at hhas
  constructor
  · intro hown
    refine ⟨?_, hown.moves⟩
    have hlength := congrArg List.length hown.stack
    simp only [Step.handsOver, Step.taken, List.length_drop] at hlength
    by_cases hop : x.op = .create2
    · simp [hop, salted_create2 hop]
    · have hop' : (x.op == Op.create2) = false := by simpa using hop
      rw [hop']
      rw [if_neg hop] at hlength hhas
      cases hs : x.salted with
      | false => rfl
      | true =>
        simp only [hs, if_true] at hlength htaken
        omega
  · rintro ⟨hs, hmoves⟩
    by_cases hop : x.op = .create2
    · have hsalted := salted_create2 hop
      refine ⟨?_, fun account' hacc' => ?_, ?_, rfl, hmoves⟩
      · simp only [Step.handsOver, Step.taken, hsalted, if_true, hop]
      · simp only [Step.handsOver, Step.derived, hsalted, if_true, hop]
      · simp only [Step.handsOver, Step.createBase, hs]
    · have hsalted : x.salted = false := by
        rw [hs]
        simpa using hop
      refine ⟨?_, fun account' hacc' => ?_, ?_, rfl, hmoves⟩
      · simp only [Step.handsOver, Step.taken, hsalted, Bool.false_eq_true, if_false, if_neg hop]
      · rw [hacc] at hacc'
        cases hacc'
        simp only [Step.handsOver, Step.derived, hsalted, Bool.false_eq_true, if_false, if_neg hop]
      · simp only [Step.handsOver, Step.createBase, hs]

/-- What an opened creation leaves, by its end. -/
theorem Step.Creating.leaves (h : x.Creating) {effect : CreationEffect} (heffect : x.creationOutcome = .opens effect) :
    x.Leaves effect := by
  intro fuel inner pending opened ret m r u ho hrun hu
  have hready := h.ready_of_opens heffect
  obtain ⟨account, hacc, -⟩ := hready.creator
  obtain rfl : x.handsOver account.nonce = effect := CreationOutcome.opens.inj
    ((h.outcome_ready hready hacc).symm.trans heffect)
  obtain ⟨inner', pending', opened', ho', hat⟩ := h.opens hready
  rw [ho] at ho'
  cases ho'
  obtain ⟨account', e, hpull, hcreated, -⟩ := hat.accounts
  obtain rfl : account' = account := by
    rw [Ext.pull_account? hpull] at hacc
    exact Option.some.inj hacc
  have hframe := h.createsFrame ho
  obtain ⟨w, hw, hf⟩ := (opens_of_openedFrame ho).follows hrun
  have hext : opened.ext.Extends m.ext := hw.extends.trans hf.extends
  obtain ⟨cost, v, -, rfl, hclosed⟩ := of_ok (wp_executeInstruction_closed h.sound.stack ho hrun hext).ok hu
  refine ⟨?_, fun hkeeps hne a => ?_⟩
  · show v.evm.stack = _
    rw [hclosed.stack, hat.pending]
    simp only [Pending.result, hat.stack, hcreated, Step.handsOver]
  · have hcloses := hclosed.closes
    have hmessage : ¬x.op.isMessageCall := by
      rcases h.op with hop | hop <;> simp [hop, Op.isMessageCall]
    rw [Closes, if_pos hkeeps, if_neg hmessage] at hcloses
    obtain ⟨mid, ⟨mid', hmoved, rfl⟩, hmerged⟩ := hcloses
    have hv : v.ext = mid'.ext := congrArg Trail.ext hmerged
    have hkept := Ext.balanceOf_mutate (e := m.ext)
      (f := fun account => { account with code := (ret, Crypto.keccak256 ret), nonce := 1 }) (fun _ => rfl)
      (hext.loaded _ hframe.loaded.2)
    rw [show (x.handsOver account'.nonce).created = inner.scope.ctx.created from hcreated.symm] at hne ⊢
    have hmoved : Moved x.this inner.scope.ctx.created x.value ((callContext x.scope.ctx x.op).movesValue = true)
        ⟨m.ext.mutate inner.scope.ctx.created fun account =>
          { account with code := (ret, Crypto.keccak256 ret), nonce := 1 }, opened.evm.touches, opened.evm.logs⟩ mid' :=
            hmoved
    have hbalance := hmoved.balanceOf (Ne.symm hne) a
    simp only [Ext.shifted, Ext.funds, hkept] at hbalance
    show v.ext.balanceOf a = _
    rw [hv, hbalance]
    rfl

omit [Crypto] [EventTracer T] in
theorem manner_create2 (h : x.op = .create2) : x.manner = ⟨false, true, true, x.scope.ctx.isStaticCall⟩ := by
  simp [Step.manner, Context.manner, h, callContext, Context.movesValue]

omit [Crypto] [EventTracer T] in
theorem Step.Creating.manner_create (h : x.Creating) (hop : x.op = .create) : x.manner =
    ⟨false, x.scope.ctx.callType == .create2, x.scope.ctx.callType != .delegate, x.scope.ctx.isStaticCall⟩ := by
  have hstatic := h.nonstatic
  simp only [Step.manner, Context.manner, hop, callContext, Context.movesValue]
  cases hc : x.scope.ctx.callType <;> first | rfl | exact absurd hc hstatic

theorem outcome_unready (hx : x.Creating) (hy : y.Creating) (hxr : ¬x.Ready) (hyr : ¬y.Ready) :
    x.creationOutcome = y.creationOutcome ↔ (x.Refused ↔ y.Refused) := by
  by_cases hxf : x.Refused <;> by_cases hyf : y.Refused
  · simp only [hx.outcome_refused hxf, hy.outcome_refused hyf, hxf, hyf]
  · simp only [hx.outcome_refused hxf, hy.outcome_stuck hyr hyf, hxf, hyf, reduceCtorEq, iff_false, not_true]
  · simp only [hx.outcome_stuck hxr hxf, hy.outcome_refused hyf, hxf, hyf, reduceCtorEq, iff_true]
  · simp only [hx.outcome_stuck hxr hxf, hy.outcome_stuck hyr hyf, hxf, hyf]

/-- Contexts of one manner give one outcome. -/
theorem Step.Alike.outcome (h : x.Alike y) (hx : x.Creating) (hy : y.Creating) (hm : x.manner = y.manner) :
    x.creationOutcome = y.creationOutcome := by
  have hs : x.salted = y.salted := congrArg Manner.salted hm
  by_cases hready : x.Ready
  · obtain ⟨a, ha, -⟩ := hready.creator
    obtain ⟨b, hb, hab⟩ := h.creator (p := fun c => c.nonce = a.nonce) (fun _ _ hcd hc => hcd ▸ hc) ⟨a, ha, rfl⟩
    rw [hx.outcome_ready hready ha, hy.outcome_ready (h.ready hs hready) hb, hab, h.handsOver hx.op hm]
  · have hready' : ¬y.Ready := fun hy => hready (h.symm.ready hs.symm hy)
    exact (outcome_unready hx hy hready hready').2 ⟨h.refused hs, h.symm.refused hs.symm⟩

/-- Contexts of one manner, which is the opcode's own and lets a value move. -/
theorem Step.Alike.same (h : x.Alike y) (hx : x.Creating) (hy : y.Creating) (hm : x.manner = y.manner)
    (hs : x.salted = (x.op == .create2)) (hmoves : x.value ≠ 0 → x.manner.moves = true) : SameCreation x y := by
  have houtcome := h.outcome hx hy hm
  refine ⟨houtcome, fun effect heffect => ?_, fun effect heffect => ⟨hx.leaves heffect, hy.leaves (houtcome ▸ heffect)⟩⟩
  have hready := hx.ready_of_opens heffect
  obtain ⟨a, ha, -⟩ := hready.creator
  obtain ⟨b, hb, -⟩ := h.creator (p := fun c => c.nonce = a.nonce) (fun _ _ hcd hc => hcd ▸ hc) ⟨a, ha, rfl⟩
  have hsalted : x.salted = y.salted := congrArg Manner.salted hm
  have hready' := h.ready hsalted hready
  have hxe := hx.outcome_ready hready ha
  have hye := hy.outcome_ready hready' hb
  rw [heffect] at hxe houtcome
  rw [← houtcome] at hye
  refine ⟨?_, ?_⟩
  · rw [CreationOutcome.opens.inj hxe]
    exact (hx.ownEffect_iff hready ha).2 ⟨hs, hmoves⟩
  · rw [CreationOutcome.opens.inj hye]
    refine (hy.ownEffect_iff hready' hb).2 ⟨by rw [← hsalted, hs, h.op], ?_⟩
    rw [← h.value hx.op, ← hm]
    exact hmoves

/-- Two creations that start alike and get to their init code are the same when they hand it one
    manner, which is the opcode's own and lets a value move. -/
theorem Step.Alike.same_iff (h : x.Alike y) (hx : x.Creating) (hy : y.Creating) (hready : x.Ready) : SameCreation x y ↔
    x.manner = y.manner ∧ x.salted = (x.op == .create2) ∧ (x.value ≠ 0 → x.manner.moves = true) := by
  refine ⟨fun hsame => ?_, fun hand => h.same hx hy hand.1 hand.2.1 hand.2.2⟩
  obtain ⟨a, ha, -⟩ := hready.creator
  have hxe := hx.outcome_ready hready ha
  obtain ⟨hown, -⟩ := hsame.own _ hxe
  have hye : y.creationOutcome = .opens (x.handsOver a.nonce) := hsame.outcome ▸ hxe
  have hready' := hy.ready_of_opens hye
  obtain ⟨b, hb, -⟩ := hready'.creator
  rw [hy.outcome_ready hready' hb] at hye
  exact ⟨congrArg CreationEffect.manner (CreationOutcome.opens.inj hye).symm, (hx.ownEffect_iff hready ha).1 hown⟩

/-- Two creations that both miss their init code are the same when both halt or both panic. -/
theorem same_unready (hx : x.Creating) (hy : y.Creating) (hready : ¬x.Ready) (hready' : ¬y.Ready) :
    SameCreation x y ↔ (x.Refused ↔ y.Refused) := by
  rw [← outcome_unready hx hy hready hready']
  refine ⟨SameCreation.outcome, fun houtcome => ⟨houtcome, fun _ heffect => ?_, fun _ heffect => ?_⟩⟩
  all_goals exact absurd (hx.ready_of_opens heffect) hready

omit [EventTracer T] in
/-- The call types that hand the init code one manner, the opcode's own, which lets a value move. -/
theorem Step.Alike.manner_iff (h : x.Alike y) (hx : x.Creating) (hy : y.Creating) :
    (x.manner = y.manner ∧ x.salted = (x.op == .create2) ∧ (x.value ≠ 0 → x.manner.moves = true)) ↔
      x.scope.ctx.isStaticCall = y.scope.ctx.isStaticCall ∧
        (x.op = .create2 ∨
          (x.scope.ctx.callType ≠ .create2 ∧ y.scope.ctx.callType ≠ .create2 ∧
            (x.scope.ctx.callType = .delegate ↔ y.scope.ctx.callType = .delegate) ∧
            (x.value = 0 ∨ x.scope.ctx.callType ≠ .delegate))) := by
  have hsalted : x.salted = x.manner.salted := rfl
  rcases hx.op with hop | hop
  · have hop' : y.op = .create := h.op ▸ hop
    have hsame : x.manner = y.manner ↔ (x.scope.ctx.callType = .create2 ↔ y.scope.ctx.callType = .create2) ∧
        (x.scope.ctx.callType = .delegate ↔ y.scope.ctx.callType = .delegate) ∧
        x.scope.ctx.isStaticCall = y.scope.ctx.isStaticCall := by
      rw [hx.manner_create hop, hy.manner_create hop', Manner.mk.injEq, Bool.eq_iff_iff (a := _ == _),
        Bool.eq_iff_iff (a := _ != _)]
      simp only [true_and, beq_iff_eq, bne_iff_ne, ne_eq, not_iff_not]
    have hplain : x.salted = (x.op == .create2) ↔ x.scope.ctx.callType ≠ .create2 := by
      rw [hsalted, hx.manner_create hop, hop]
      exact beq_eq_false_iff_ne
    have hmoves : (x.value ≠ 0 → x.manner.moves = true) ↔ x.value = 0 ∨ x.scope.ctx.callType ≠ .delegate := by
      rw [hx.manner_create hop, bne_iff_ne]
      exact imp_iff_or_not.trans (or_comm.trans (or_congr_left not_not))
    rw [hsame, hplain, hmoves, hop]
    constructor
    · rintro ⟨⟨hcreate2, hdelegate, hwithin⟩, hne, hvalue⟩
      exact ⟨hwithin, .inr ⟨hne, fun hy => hne (hcreate2.2 hy), hdelegate, hvalue⟩⟩
    · rintro ⟨hwithin, hcreate2 | ⟨hne, hne', hdelegate, hvalue⟩⟩
      · cases hcreate2
      · exact ⟨⟨iff_of_false hne hne', hdelegate, hwithin⟩, hne, hvalue⟩
  · have hop' : y.op = .create2 := h.op ▸ hop
    rw [hsalted, manner_create2 hop, manner_create2 hop', hop]
    simp

/-- Of two creations that start alike: a CREATE2 always has its own effect, a CREATE when neither
    context is a CREATE2's, both or neither are a DELEGATECALL's, and then there is no value. -/
theorem creation_contexts (hx : x.Creating) (hy : y.Creating) (h : x.Alike y) : SameCreation x y ↔
    (¬x.Ready ∧ ¬y.Ready ∧ (x.Refused ↔ y.Refused)) ∨
      (x.scope.ctx.isStaticCall = y.scope.ctx.isStaticCall ∧
        (x.op = .create2 ∨
          (x.scope.ctx.callType ≠ .create2 ∧ y.scope.ctx.callType ≠ .create2 ∧
            (x.scope.ctx.callType = .delegate ↔ y.scope.ctx.callType = .delegate) ∧
            (x.value = 0 ∨ x.scope.ctx.callType ≠ .delegate)))) := by
  rw [← h.manner_iff hx hy]
  by_cases hready : x.Ready
  · rw [h.same_iff hx hy hready]
    exact (or_iff_right fun hnot => hnot.1 hready).symm
  · have hsame : x.manner = y.manner → SameCreation x y := fun hm => by
      have hsalted : x.salted = y.salted := congrArg Manner.salted hm
      have hready' : ¬y.Ready := fun hy => hready (h.symm.ready hsalted.symm hy)
      exact (same_unready hx hy hready hready').2 ⟨h.refused hsalted, h.symm.refused hsalted.symm⟩
    constructor
    · intro hs
      have hready' : ¬y.Ready := by
        intro hready'
        obtain ⟨b, hb, -⟩ := hready'.creator
        exact hready (hx.ready_of_opens (hs.outcome.trans (hy.outcome_ready hready' hb)))
      exact .inl ⟨hready, hready', (same_unready hx hy hready hready').1 hs⟩
    · rintro (⟨-, hready', hrefused⟩ | ⟨hm, -⟩)
      · exact (same_unready hx hy hready hready').2 hrefused
      · exact hsame hm

/-! ## A frame that is too deep -/

/-- The accounts held, and what is behind them, stay. -/
def holding : Frame Fault Ext where
  ok e e' := e'.state = e.state ∧ e'.remote = e.remote
  err _ _ _ := True
  refl _ := ⟨rfl, rfl⟩
  trans h h' := ⟨h'.1.trans h.1, h'.2.trans h.2⟩
  fail _ _ := trivial

omit [Crypto] [EventTracer T] in
theorem holding_revert {out : Evm} (h : ∀ τ ∈ out.touches, ∃ a, τ = .warmUp a) : Keeps holding out.revert := by
  refine Keeps.forM _ fun τ hτ => ?_
  obtain ⟨a, rfl⟩ := h τ (List.mem_reverse.1 hτ)
  exact .modify fun _ => ⟨rfl, rfl⟩

omit [Crypto] in
/-- A frame enters by warming its caller. -/
theorem wp_enterFrame_exact (sc : Scope) (s : Machine T) :
    wp (enterFrame sc) (fun _ t => holding.ok s.ext t.ext ∧ ∃ ts, t.evm.touches = s.evm.touches ++ ts ∧
      ∀ τ ∈ ts, ∃ a, τ = .warmUp a) (fun _ _ => False) s := by
  simp only [enterFrame, warmTouch, wp_bind, wp_emit, wp_ite, wp_pure, wp_onExt, Ext.warmAddress, wp_get, wp_set, wp_touch]
  refine ⟨fun _ => ⟨⟨rfl, rfl⟩, [], by simp, by simp⟩, fun _ => ⟨fun _ => ⟨⟨rfl, rfl⟩, _, rfl, ?_⟩,
    fun _ => ⟨⟨rfl, rfl⟩, [], by simp, by simp⟩⟩⟩
  intro τ hτ
  exact ⟨_, List.mem_singleton.1 hτ⟩

omit [Crypto] in
/-- A frame beyond the depth limit is over at once: reverted, and nothing but warm addresses to undo. -/
theorem too_deep (loop : Exec T) {sc : Scope} {s : Machine T} (hdepth : callDepthLimit < sc.ctx.depth)
    (htouches : s.evm.touches = []) : ∃ m, frameWith loop sc s = .ok [] m ∧ m.evm.reverted = true ∧
      holding.ok s.ext m.ext ∧ ∀ τ ∈ m.evm.touches, ∃ a, τ = .warmUp a := by
  have hframe : wp (frameWith loop sc) (fun ret m => ret = [] ∧ m.evm.reverted = true ∧ holding.ok s.ext m.ext ∧
      ∀ τ ∈ m.evm.touches, ∃ a, τ = .warmUp a) (fun _ _ => False) s := by
    unfold frameWith
    rw [wp_bind]
    refine wp_mono (wp_enterFrame_exact sc s) (fun _ t ht => ?_) fun _ _ h => h
    obtain ⟨hholds, ts, hts, hwarm⟩ := ht
    rw [htouches, List.nil_append] at hts
    simp only [hdepth, if_true, halted, wp_bind, wp_modify, wp_pure]
    exact ⟨trivial, trivial, hholds, hts ▸ hwarm⟩
  obtain ⟨ret, m, hm, rfl, hrest⟩ := exists_ok hframe
  exact ⟨m, hm, hrest⟩

/-! ## Collisions -/

/-- An account with code or a nonce. -/
def Ext.Taken (e : Ext) (a : Address) : Prop :=
  ∃ account, e.account? a = some account ∧ (account.code.1 ≠ [] ∨ account.nonce ≠ 0)

/-- Balance, nonce, code and storage of an account are as they were. -/
structure Ext.Spares (e e' : Ext) (a : Address) : Prop where
  fields : (e'.account? a).map Account.fields = (e.account? a).map Account.fields
  slots : ∀ key, e'.slotOf a key = e.slotOf a key

/-- The creation pushes 0 and spares the account, and its init code does not run. -/
structure Step.Shuns (x : Step T) (a : Address) : Prop where
  turn : ∀ fuel, ∃ t, executeStep (executeWithContext fuel) x.scope x.instruction x.before = .ok none t ∧
    t.evm.stack.head? = some 0 ∧ x.before.ext.Spares t.ext a
  idle : ∀ inner pending opened, openedFrame x.scope x.instruction x.before = some (inner, pending, opened) →
    ∀ sc s, ¬Reaches inner.scope (inner.machine opened.ext) sc s

theorem Step.Creating.depth (h : x.Creating) {inner : Inner T} {pending : Pending} {opened : Machine T}
    (ho : openedFrame x.scope x.instruction x.before = some (inner, pending, opened)) :
    inner.scope.ctx.depth = x.scope.ctx.depth + 1 := by
  have hsame : (callContext x.scope.ctx x.op).depth = x.scope.ctx.depth := by
    unfold callContext
    split <;> rfl
  rw [(h.createsFrame ho).ctx, hsame]

omit [EventTracer T] in
/-- The new account as its init code finds it: the creator's own nonce is bumped, an account
    that was not loaded is blank. -/
theorem CreatesAt.lookup {inner : Inner T} {pending : Pending} {opened : Machine T} (h : CreatesAt x inner pending opened)
    {account : Account} (hacc : x.before.ext.account? x.this = some account) :
    inner.scope.ctx.created = x.derived account.nonce ∧ opened.ext.remote = x.before.ext.remote ∧
      opened.ext.state.lookup (x.derived account.nonce) =
        some (if x.derived account.nonce = x.this then { account with nonce := account.nonce + 1 }
          else x.before.ext.orDefault (x.derived account.nonce)) := by
  obtain ⟨account', e, hpull, hcreated, hext⟩ := h.accounts
  obtain rfl : account' = account := by
    rw [Ext.pull_account? hpull] at hacc
    exact Option.some.inj hacc
  rw [hcreated] at hext
  refine ⟨hcreated, ?_, ?_⟩
  · rw [hext, ← Ext.pull_remote hpull]
    simp [Ext.opened]
  · rw [hext]
    simp only [Ext.opened, Finmap.lookup_insert]
    rw [Ext.orDefault_mutate _ (by rw [(Ext.pulled hpull).lookup]; rfl), Ext.orDefault_of_lookup (Ext.pulled hpull).lookup]
    split
    · rfl
    · next hne =>
      cases hpulled : Ext.pulled hpull with
      | loaded => rfl
      | remote => rw [Ext.orDefault_insert, if_neg hne]

/-- Within the depth limit the init code of an opened frame runs. -/
theorem not_shuns {a : Address} {inner : Inner T} {pending : Pending} {opened : Machine T}
    (ho : openedFrame x.scope x.instruction x.before = some (inner, pending, opened))
    (hdepth : inner.scope.ctx.depth ≤ callDepthLimit) : ¬x.Shuns a := by
  intro hshuns
  obtain ⟨_, s, henters, -⟩ := exists_ok (wp_enterFrame_exact inner.scope (inner.machine opened.ext))
  exact hshuns.idle _ _ _ ho _ _ (.start henters hdepth)

/-- The turn of a creation whose frame is too deep. -/
theorem Step.Creating.too_deep (h : x.Creating) {inner : Inner T} {pending : Pending} {opened : Machine T}
    (ho : openedFrame x.scope x.instruction x.before = some (inner, pending, opened))
    (hdepth : callDepthLimit < inner.scope.ctx.depth) (fuel : Nat) :
    ∃ t, executeStep (executeWithContext fuel) x.scope x.instruction x.before = .ok none t ∧
      t.evm.stack.head? = some 0 ∧ holding.ok opened.ext t.ext := by
  have hfresh := (opens_of_openedFrame ho).fresh
  have htouches : (inner.machine opened.ext).evm.touches = [] := by rw [Inner.machine, hfresh.evm]
  obtain ⟨m, hrun, hrev, hholds, hwarm⟩ := Solenoid.too_deep (executeLoop fuel) hdepth htouches
  have hdrops : pending.keeps (Ended.output ⟨[], m⟩) = false := by
    unfold Pending.keeps Ended.output
    cases pending <;> simp [hrev]
  obtain ⟨o, t, ht, rfl, hends, -⟩ := exists_ok (wp_mono (wp_creation_returned h.sound h.op ho hrun) (fun _ _ h => h)
    fun _ _ hf => by rw [Step.Overflows, hdrops] at hf; exact absurd hf.1.1 (by decide))
  refine ⟨t, ht, ?_, ?_⟩
  · rw [hends.stack]
    simp [Pending.result, hdrops]
  · have hcloses := hends.closes
    unfold Closes at hcloses
    rw [hdrops] at hcloses
    simp only [Bool.false_eq_true, if_false] at hcloses
    exact holding.trans hholds ((holding_revert hwarm).ok hcloses.ext)

/-- A derived address that is taken is spared exactly where the new frame is beyond the depth
    limit, and the account loaded and not the creator's own. -/
theorem creation_collision (h : x.Creating) {account : Account} (hacc : x.before.ext.account? x.this = some account)
    (htaken : x.before.ext.Taken (x.derived account.nonce)) : x.Shuns (x.derived account.nonce) ↔
      x.Ready ∧ callDepthLimit ≤ x.scope.ctx.depth ∧
        (x.before.ext.state.lookup (x.derived account.nonce)).isSome ∧ x.derived account.nonce ≠ x.this := by
  obtain ⟨a, ha⟩ : ∃ a, a = x.derived account.nonce := ⟨_, rfl⟩
  have hlookup := fun {inner : Inner T} {pending : Pending} {opened : Machine T} (hat : CreatesAt x inner pending opened) =>
    hat.lookup hacc
  rw [← ha] at htaken hlookup ⊢
  constructor
  · intro hshuns
    obtain ⟨t, ht, -, hspares⟩ := hshuns.turn 0
    have hready : x.Ready := by
      by_contra hready
      by_cases hrefused : x.Refused
      · exact absurd ((wp_of_ok ht).1 (h.halts hrefused)).1 nofun
      · exact (wp_of_ok ht).1 (h.panics hready hrefused)
    obtain ⟨inner, pending, opened, ho, hat⟩ := h.opens hready
    have hctx := h.depth ho
    have hdepth : callDepthLimit < inner.scope.ctx.depth := by
      by_contra hdepth
      exact not_shuns ho (not_lt.1 hdepth) hshuns
    obtain ⟨t', ht', -, hholds⟩ := h.too_deep ho hdepth 0
    obtain rfl : t' = t := by
      rw [ht] at ht'
      cases ht'
      rfl
    obtain ⟨-, hremote, hopened⟩ := hlookup hat
    have hafter := Ext.account?_loaded ((congrArg (Finmap.lookup a) hholds.1).trans hopened)
    obtain ⟨old, hold, hused⟩ := htaken
    have hfields := hspares.fields
    rw [hafter, hold, Option.map_some, Option.map_some] at hfields
    have hfields := Option.some.inj hfields
    have hne : a ≠ x.this := by
      intro heq
      rw [if_pos heq] at hfields
      rw [heq, hacc] at hold
      cases hold
      have hnonce : account.nonce + 1 = account.nonce := congrArg (fun f => f.2.1) hfields
      bv_omega
    refine ⟨hready, by omega, ?_, hne⟩
    rw [if_neg hne] at hfields
    cases hl : x.before.ext.state.lookup a with
    | some held => rfl
    | none =>
      have hblank : x.before.ext.orDefault a = {} := by simp only [Ext.orDefault, hl, Option.getD_none]
      rw [hblank] at hfields
      have hnonce : (0 : Word) = old.nonce := congrArg (fun f => f.2.1) hfields
      have hcode : ([] : Bytes) = old.code.1 := congrArg (fun f => f.2.2.1) hfields
      exact hused.elim (fun hc => absurd hcode.symm hc) fun hn => absurd hnonce.symm hn
  · rintro ⟨hready, hdepth, hloaded, hne⟩
    obtain ⟨inner, pending, opened, ho, hat⟩ := h.opens hready
    have hctx := h.depth ho
    have hdeep : callDepthLimit < inner.scope.ctx.depth := by omega
    refine ⟨fun fuel => ?_, fun inner' pending' opened' ho' sc s hreach => ?_⟩
    · obtain ⟨t, ht, hpush, hholds⟩ := h.too_deep ho hdeep fuel
      refine ⟨t, ht, hpush, ?_⟩
      obtain ⟨-, hremote, hopened⟩ := hlookup hat
      obtain ⟨held, hheld⟩ := Option.isSome_iff_exists.1 hloaded
      rw [if_neg hne, Ext.orDefault_of_lookup hheld] at hopened
      have hafter : t.ext.state.lookup a = some held := (congrArg (Finmap.lookup a) hholds.1).trans hopened
      refine ⟨by rw [Ext.account?_loaded hafter, Ext.account?_loaded hheld], fun key => ?_⟩
      unfold Ext.slotOf
      rw [Ext.orDefault_of_lookup hafter, Ext.orDefault_of_lookup hheld, hholds.2, hremote]
    · rw [ho] at ho'
      cases ho'
      induction hreach with
      | start _ hdepth => omega
      | turn _ _ _ ih => exact ih
      | inner _ _ _ _ _ ih => exact ih

end

namespace Sample

/-- A CREATE with this value by an account that has it, in a context of this call type. -/
def endowing (callType : CallType) (value : Word) : Step NoopTracer :=
  let x := step [0xf0] [value, 0, 0] [(0xaa, value, [])]
  { x with scope.ctx := { x.scope.ctx with callType } }

theorem creating_endowing {callType : CallType} (h : callType ≠ .static) (value : Word) :
    (endowing callType value).Creating where
  sound := ⟨⟨show (0 : Int) ≤ memPrice 0 by decide, show divCeil 0 32 * divCeil 0 32 < 2 ^ 63 by decide⟩, le_rfl,
    show (0 : Int) ≤ 100000 - 0 by decide, show 3 ≤ stackLimit by decide, nofun⟩
  op := .inl (show (endowing .call 0).op = .create by decide)
  operands := le_refl 3
  nonstatic := h

theorem alike_endowing (callType callType' : CallType) (value : Word) :
    (endowing callType value).Alike (endowing callType' value) := ⟨rfl, rfl, rfl, rfl, rfl, rfl, rfl⟩

end Sample

open Sample in
/-- The CREATE of a frame that CALLCODE opened does what that of a called one does. -/
theorem creation_contexts_callcode : SameCreation (endowing .call 1) (endowing .callcode 1) :=
  (creation_contexts (creating_endowing (by decide) 1) (creating_endowing (by decide) 1)
    (alike_endowing .call .callcode 1)).2 (.inr ⟨rfl, .inr ⟨by decide, by decide, by decide, .inr (by decide)⟩⟩)

open Sample in
/-- That of a delegate frame keeps its value. -/
theorem creation_contexts_differ : (endowing .call 1).Creating ∧ (endowing .delegate 1).Creating ∧
    (endowing .call 1).Alike (endowing .delegate 1) ∧ ¬SameCreation (endowing .call 1) (endowing .delegate 1) := by
  have hx : (endowing .call 1).Creating := creating_endowing (by decide) 1
  refine ⟨hx, creating_endowing (by decide) 1, alike_endowing _ _ 1, fun hsame => ?_⟩
  have hready : (endowing .call 1).Ready := ⟨le_refl 3, show 0 < 2 ^ 64 by decide, show 0 < 2 ^ 64 by decide,
    ⟨show 0 ≤ usizeMax by decide, fun _ => le_refl 0, nofun⟩, ⟨{ value := 1 }, rfl, by decide⟩, by decide⟩
  have hhanded := ((alike_endowing .call .delegate 1).same_iff hx (creating_endowing (by decide) 1) hready).1 hsame
  exact absurd hhanded.1 (by decide)

namespace Sample

/-- A CREATE at this depth, whose new address has the code 0x5b. -/
def colliding (depth : Nat) : Step NoopTracer :=
  let x := step [0xf0] [0, 0, 0] [(0xaa, 0, []), (0x45eb6484d76cfe3f45708b91f5af8ce495134fac, 0, [0x5b])]
  { x with scope.ctx := { x.scope.ctx with depth } }

theorem creating_colliding (depth : Nat) : (colliding depth).Creating where
  sound := ⟨⟨show (0 : Int) ≤ memPrice 0 by decide, show divCeil 0 32 * divCeil 0 32 < 2 ^ 63 by decide⟩, le_rfl,
    show (0 : Int) ≤ 100000 - 0 by decide, show 3 ≤ stackLimit by decide, nofun⟩
  op := .inl (show (colliding 0).op = .create by decide)
  operands := le_refl 3
  nonstatic := show (colliding 0).scope.ctx.callType ≠ .static by decide

theorem derived_colliding (depth : Nat) : (colliding depth).derived 0 = 0x45eb6484d76cfe3f45708b91f5af8ce495134fac :=
  show (colliding 0).derived 0 = _ by decide +kernel

theorem ready_colliding (depth : Nat) : (colliding depth).Ready :=
  ⟨le_refl 3, show 0 < 2 ^ 64 by decide, show 0 < 2 ^ 64 by decide, ⟨show 0 ≤
    usizeMax by decide, fun _ => le_refl 0, nofun⟩,
    ⟨{}, rfl, by decide⟩, show (colliding 0).createPrice (colliding 0).salted < 100000 by decide⟩

theorem taken_colliding (depth : Nat) : (colliding depth).before.ext.Taken ((colliding depth).derived 0) := by
  rw [derived_colliding]
  exact ⟨{ code := ([0x5b], 0) }, rfl, .inl nofun⟩

end Sample

open Sample in
/-- At the depth limit the account is spared. -/
theorem creation_collision_deep : (colliding 1024).Shuns ((colliding 1024).derived 0) := by
  have hacc : (colliding 1024).before.ext.account? (colliding 1024).this = some {} := rfl
  exact (creation_collision (creating_colliding 1024) hacc (taken_colliding 1024)).2
    ⟨ready_colliding 1024, le_refl 1024, by rw [derived_colliding]; rfl, by rw [derived_colliding]; decide⟩

open Sample in
/-- At the top of a transaction it is not: the init code runs. -/
theorem creation_collision_runs : (colliding 1).Creating ∧ (colliding 1).before.ext.Taken ((colliding 1).derived 0) ∧
    ¬(colliding 1).Shuns ((colliding 1).derived 0) := by
  have h := creating_colliding 1
  refine ⟨h, taken_colliding 1, ?_⟩
  obtain ⟨inner, pending, opened, ho, -⟩ := h.opens (ready_colliding 1)
  refine not_shuns ho ?_
  rw [h.depth ho]
  decide

end Solenoid
