/-
  Solenoid.Statics — what a STATICCALL cannot change.

  SSTORE asks whether any STATICCALL is above its frame, the other writes only whether their
  own frame was entered by one, and TSTORE not at all.
  - `Follows.still_slot`: below a STATICCALL no storage slot changes, at any depth.
  - `Follows.unwritten`: when a STATICCALL leads to nothing but STATICCALLs, no balance, nonce or
    code changes either, and nothing is created or destroyed; only transient slots may change.
  - `static_isolation`: both, said of the instruction.
-/
import Solenoid.Tallies
import Solenoid.Storage

namespace Solenoid

open Hoare UndoLog

section

variable {T : Type} [Crypto]

/-! ## Below a STATICCALL -/

omit [Crypto] in
theorem isStaticCall_callContext (ctx : Context) (op : Op) (h : ctx.isStaticCall = true ∨ op = .staticcall) :
    (callContext ctx op).isStaticCall = true := by
  cases op with
  | staticcall => rfl
  | _ => exact h.resolve_right fun hop => by cases hop

/-- Every frame below a STATICCALL knows it. -/
theorem Opens.isStaticCall {x : Step T} {inner : Inner T} {pending : Pending} {opened : Machine T}
    (h : Opens x inner pending opened) (hx : x.scope.ctx.isStaticCall = true ∨ x.op = .staticcall) :
    inner.scope.ctx.isStaticCall = true := by
  cases h with
  | message _ h =>
    rw [h.ctx]
    exact isStaticCall_callContext _ _ hx
  | creation _ _ h =>
    rw [h.ctx]
    exact isStaticCall_callContext _ _ hx

/-- The cell stays, and no touch that was appended would undo it. -/
def Still {C : Type} (c : Cell C) (t u : Trail) : Prop :=
  c.view u.ext = c.view t.ext ∧ ∃ ts, u.touches = t.touches ++ ts ∧ ∀ τ ∈ ts, ∀ v, c.undo τ v = v

namespace Still

variable {C : Type} {c : Cell C} {t u v : Trail}

omit [Crypto] in
theorem refl (c : Cell C) (t : Trail) : Still c t t :=
  ⟨rfl, [], (List.append_nil _).symm, fun _ h => (List.not_mem_nil h).elim⟩

omit [Crypto] in
theorem trans (h : Still c t u) (h' : Still c u v) : Still c t v := by
  obtain ⟨hview, ts, hts, hidle⟩ := h
  obtain ⟨hview', ts', hts', hidle'⟩ := h'
  refine ⟨hview'.trans hview, ts ++ ts', by rw [hts', hts, List.append_assoc], fun τ hτ => ?_⟩
  exact (List.mem_append.1 hτ).elim (hidle τ) (hidle' τ)

end Still

theorem Act.still_slot {e : Effect} {t u : Trail} (h : Act e t u)
    (he : ∀ a key val new isWarm, e ≠ .store a key val new isWarm)
    (a : Address) (key : Word) : Still (slotCell a key) t u := by
  refine ⟨h.slot_kept he a key, ?_⟩
  have hone : ∀ τ : AccountTouch, (∀ v, undoSlot a key τ v = v) → u.touches = t.touches ++ [τ] →
      ∃ ts, u.touches = t.touches ++ ts ∧ ∀ τ ∈ ts, ∀ v, (slotCell a key).undo τ v = v := fun τ hτ ht =>
    ⟨[τ], ht, fun τ' hτ' => by rwa [List.mem_singleton.1 hτ']⟩
  cases h with
  | warmStorage | load | fetch | log | mark | openAccount | destroy =>
    exact ⟨[], (List.append_nil _).symm, fun _ h => (List.not_mem_nil h).elim⟩
  | warmAddress | storeTransient | bump => exact hone _ (fun _ => rfl) rfl
  | @note _ τ hτ => exact hone τ (fun _ => by cases τ <;> first | rfl | cases hτ) rfl
  | store => exact absurd rfl (he _ _ _ _ _)
  | transfer =>
    refine ⟨_, rfl, fun τ hτ v => ?_⟩
    rcases List.mem_pair.1 hτ with rfl | rfl <;> rfl

theorem Acts.still_slot {P : Effect → Prop} {t u : Trail} (h : Acts P t u)
    (hP : ∀ a key val new isWarm, ¬P (.store a key val new isWarm))
    (a : Address) (key : Word) : Still (slotCell a key) t u :=
  h.keep (Still _) (.refl _) (fun h h' => h.trans h') fun he ha =>
    ha.still_slot (fun b k val new w heq => hP b k val new w (heq ▸ he)) a key

variable {x : Step T} {inner : Inner T} {pending : Pending} {opened : Machine T}

/-- The end of a frame that left the cell. -/
theorem Closes.still {C : Type} {c : Cell C} (hc : c.Aside) {r : Ended T} {u : Trail}
    (h : Closes x inner pending r.output { opened.trail with ext := r.machine.ext } u)
    (hinner : Still c ⟨opened.ext, [], []⟩ r.machine.trail) : Still c opened.trail u := by
  obtain ⟨hview, ts, hts, hidle⟩ := hinner
  have hts : r.machine.evm.touches = ts := hts
  unfold Closes at h
  split at h
  · split at h
    · rw [h]
      exact ⟨hview, ts, by rw [← hts]; rfl, hidle⟩
    · obtain ⟨mid, ⟨mid', hm, rfl⟩, rfl⟩ := h
      obtain ⟨hmoved, ts', hts', hidle'⟩ := hc.moved hm
      refine ⟨(hmoved.trans (hc.mutate _ _ _ fun _ => rfl)).trans hview,
        ts' ++ [.create inner.scope.ctx.created x.value 1 r.output.ret (Crypto.keccak256 r.output.ret)] ++ ts,
          ?_, fun τ hτ => ?_⟩
      · rw [← hts]
        simp only [Trail.merge, Ended.output, hts', List.append_assoc]
      · rcases List.mem_append.1 hτ with hτ | hτ
        · rcases List.mem_append.1 hτ with hτ | hτ
          · exact hidle' τ hτ
          · rw [List.mem_singleton.1 hτ]
            exact hc.survivor _ rfl
        · exact hidle τ hτ
  · refine ⟨?_, _, h.touches, fun τ hτ => hidle τ (hts ▸ List.mem_of_mem_filter hτ)⟩
    have hback : c.view u.ext = rollback c.undo r.machine.evm.touches (c.view r.machine.ext) := c.reverted h.ext
    rw [hback, hts, rollback_idle fun τ hτ => hidle τ hτ _]
    exact hview

theorem Follows.own_scope {sc : Scope} {h : History T} {t u : Trail} (hf : Follows sc h t u) :
    ∀ y ∈ h.own, y.scope = sc := by
  induction hf with
  | done | cut => exact fun y hy => (List.not_mem_nil hy).elim
  | step _ _ _ _ ih | call _ _ _ _ _ _ _ _ ih => exact List.forall_mem_cons.2 ⟨rfl, ih⟩

/-- A frame below a STATICCALL leaves every slot, and so does a STATICCALL itself. -/
theorem Follows.still_slot {sc : Scope} {h : History T} {t u : Trail} (hf : Follows sc h t u)
    (hown : ∀ y ∈ h.own, y.scope.ctx.isStaticCall = true ∨ y.op = .staticcall) (a : Address) (key : Word) :
    Still (slotCell a key) t u := by
  have hnone : ∀ x : Step T, x.scope.ctx.isStaticCall = true ∨ x.op = .staticcall →
      ∀ a key val new isWarm, ¬x.allows (.store a key val new isWarm) := by
    rintro x hx a key val new isWarm ⟨hop, hno, -⟩
    rcases hx with hx | hx
    · rw [hx] at hno
      cases hno
    · rw [hx] at hop
      cases hop
  induction hf with
  | done | cut => exact .refl _ _
  | step acts _ _ _ ih =>
    obtain ⟨hx, hrest⟩ := List.forall_mem_cons.1 hown
    exact ((acts.mono fun _ h => h.1).still_slot (hnone _ hx) a key).trans (ih hrest)
  | call opens _ enters runs _ closes _ ihruns ih =>
    obtain ⟨hx, hrest⟩ := List.forall_mem_cons.1 hown
    have hbelow := opens.isStaticCall hx
    have hinner := (enters.still_slot (fun _ _ _ _ _ h => by cases h) a key).trans
      (ihruns fun y hy => .inl (by rw [runs.own_scope y hy]; exact hbelow))
    exact (opens.acts.still_slot (hnone _ hx) a key).trans ((closes.still (aside_slot a key) hinner).trans (ih hrest))

/-! ## STATICCALLs alone -/

/-- Nothing of the accounts changes but their storage, and no touch would change it back. -/
structure Unwritten (t u : Trail) : Prop where
  accounts : ∀ a, (u.ext.account? a).map Field.whole.get = (t.ext.account? a).map Field.whole.get
  created : u.ext.createdAccounts = t.ext.createdAccounts
  destroyed : u.ext.destroyedAccounts = t.ext.destroyedAccounts
  touches : ∃ ts, u.touches = t.touches ++ ts ∧ ∀ τ ∈ ts, τ.subject = none

namespace Unwritten

variable {t u v : Trail}

theorem refl (t : Trail) : Unwritten t t :=
  ⟨fun _ => rfl, rfl, rfl, [], (List.append_nil _).symm, fun _ h => (List.not_mem_nil h).elim⟩

theorem trans (h : Unwritten t u) (h' : Unwritten u v) : Unwritten t v := by
  obtain ⟨ts, hts, hnone⟩ := h.touches
  obtain ⟨ts', hts', hnone'⟩ := h'.touches
  refine ⟨fun a => (h'.accounts a).trans (h.accounts a), h'.created.trans h.created, h'.destroyed.trans h.destroyed,
    ts ++ ts', by rw [hts', hts, List.append_assoc], fun τ hτ => ?_⟩
  exact (List.mem_append.1 hτ).elim (hnone τ) (hnone' τ)

end Unwritten

/-- Reads, and the writes of transient slots. -/
def Effect.isPassing : Effect → Prop
  | .storeTransient .. => True
  | e => e.isRead

theorem Act.createdAccounts {e : Effect} {t u : Trail} (h : Act e t u) (he : e.isPassing) :
    u.ext.createdAccounts = t.ext.createdAccounts := by
  have hpull : ∀ {a : Address} {account : Account} {e e' : Ext}, Ext.pull a e = .ok account e' →
      e'.createdAccounts = e.createdAccounts := fun hp => by
    cases Ext.pulled hp <;> rfl
  cases h with
  | load hp => exact hpull hp
  | fetch hg =>
    obtain ⟨account, e₁, hp, hg⟩ := Ext.got hg
    rw [← hpull hp]
    cases hg <;> rfl
  | warmAddress | warmStorage | note | storeTransient => rfl
  | store | log | transfer | bump | mark | openAccount | destroy => cases he

theorem Act.unwritten {e : Effect} {t u : Trail} (h : Act e t u) (he : e.isPassing) : Unwritten t u := by
  have hone : Acts (· = e) t u := .one rfl h
  refine ⟨fun a => ?_, h.createdAccounts he, hone.destroyed fun src dst heq => ?_, ?_⟩
  · by_cases hread : e.isRead = true
    · exact h.account?_kept (fun _ _ => rfl) hread a
    · cases h with
      | storeTransient => rfl
      | warmAddress | warmStorage | load | fetch | note => exact absurd rfl hread
      | store | log | transfer | bump | mark | openAccount | destroy => cases he
  · subst heq
    cases he
  · cases h with
    | warmStorage | load | fetch => exact ⟨[], (List.append_nil _).symm, fun _ h => (List.not_mem_nil h).elim⟩
    | warmAddress | storeTransient =>
      refine ⟨_, rfl, fun τ hτ => ?_⟩
      rw [List.mem_singleton.1 hτ]
      rfl
    | @note _ τ hτ =>
      refine ⟨_, rfl, fun τ' hτ' => ?_⟩
      rw [List.mem_singleton.1 hτ']
      cases τ <;> first | rfl | cases hτ
    | store | log | transfer | bump | mark | openAccount | destroy => cases he

theorem Acts.unwritten {P : Effect → Prop} {t u : Trail} (h : Acts P t u) (hP : ∀ e, P e → e.isPassing) : Unwritten t u :=
  h.keep Unwritten .refl (fun h h' => h.trans h') fun he ha => ha.unwritten (hP _ he)

omit [Crypto] in
/-- The undo of touches that name no account. -/
theorem revert_unwritten {out : Evm} {e e' : Ext} (h : out.revert e = .ok ⟨⟩ e')
    (hnone : ∀ τ ∈ out.touches, τ.subject = none) :
    e'.state = e.state ∧ e'.remote = e.remote ∧ e'.createdAccounts = e.createdAccounts ∧
      e'.destroyedAccounts = e.destroyedAccounts := by
  let same : Frame Fault Ext := ⟨fun e e' => e'.state = e.state ∧ e'.remote = e.remote ∧
    e'.createdAccounts = e.createdAccounts ∧
      e'.destroyedAccounts = e.destroyedAccounts, fun _ _ _ => True, fun _ => ⟨rfl, rfl, rfl, rfl⟩,
    fun h h' => ⟨h'.1.trans h.1, h'.2.1.trans h.2.1, h'.2.2.1.trans h.2.2.1, h'.2.2.2.trans h.2.2.2⟩, fun _ _ => trivial⟩
  have hkeeps : Keeps same out.revert := Keeps.forM _ fun τ hτ e => by
    have hτ := hnone τ (List.mem_reverse.1 hτ)
    refine AccountTouch.wp_revertTouch τ e (fun _ => ?_) fun _ _ => trivial
    cases τ with
    | setState | setNonce | setValue | create => cases hτ
    | getState a key val isWarm => cases isWarm <;> exact ⟨rfl, rfl, rfl, rfl⟩
    | _ => exact ⟨rfl, rfl, rfl, rfl⟩
  exact hkeeps.ok h

omit [Crypto] in
/-- What a step may write that is a STATICCALL or in the frame of one. -/
theorem Step.passing {x : Step T} (hx : x.scope.ctx.callType = .static ∧
    x.scope.ctx.isStaticCall = true ∨ x.op = .staticcall)
    (hcall : x.op.isCall → x.op = .staticcall) {e : Effect} (h : x.allows e) : e.isPassing := by
  have hop : ∀ {op : Op}, x.op = op → op.isCall = true → op = .staticcall := fun hop hc =>
    hop ▸ hcall (by rw [hop]; exact hc)
  have hstatic : x.scope.ctx.callType ≠ .static → x.op = .staticcall := fun hne => hx.resolve_left fun h => hne h.1
  cases e with
  | store =>
    obtain ⟨h₁, h₂, -⟩ := h
    rcases hx with ⟨-, hx⟩ | hx
    · rw [hx] at h₂
      cases h₂
    · rw [hx] at h₁
      cases h₁
  | log =>
    obtain ⟨h₁, -, h₂⟩ := h
    rw [hstatic h₂] at h₁
    cases h₁
  | transfer =>
    rcases h.1 with h | h <;> cases hop h rfl
  | bump | mark | openAccount => rcases h.1 with h | h <;> cases hop h rfl
  | destroy =>
    obtain ⟨h₁, -, h₂, -⟩ := h
    rw [hstatic h₂] at h₁
    cases h₁
  | storeTransient => trivial
  | _ => rfl

/-- A frame that was entered by a STATICCALL, as are all those below it. -/
theorem Follows.unwritten {sc : Scope} {h : History T} {t u : Trail} (hf : Follows sc h t u)
    (hown : ∀ y ∈ h.own, y.scope.ctx.callType = .static ∧ y.scope.ctx.isStaticCall = true ∨ y.op = .staticcall)
    (hcalls : ∀ y ∈ h.steps, y.op.isCall → y.op = .staticcall) : Unwritten t u := by
  induction hf with
  | done | cut => exact .refl _
  | @step x rest u v acts _ _ _ ih =>
    obtain ⟨hx, hrest⟩ := List.forall_mem_cons.1 hown
    obtain ⟨hcall, hcalls⟩ := List.forall_mem_cons.1 hcalls
    exact ((acts.mono fun _ h => h.1).unwritten fun _ => Step.passing hx hcall).trans (ih hrest hcalls)
  | @call x inner pending opened callee rest r w u v opens _ enters runs _ closes _ ihruns ih =>
    obtain ⟨hx, hrest⟩ := List.forall_mem_cons.1 hown
    obtain ⟨hcall, hcalls⟩ := List.forall_mem_cons.1 hcalls
    rw [List.forall_mem_append] at hcalls
    have hop : x.op = .staticcall := hcall opens.isCall
    have hbelow : inner.scope.ctx.callType = .static ∧ inner.scope.ctx.isStaticCall = true := by
      cases opens with
      | message _ h =>
        rw [h.ctx, hop]
        exact ⟨rfl, rfl⟩
      | creation hc => rcases hc with hc | hc <;> rw [hop] at hc <;> cases hc
    have hinner : Unwritten ⟨opened.ext, [], []⟩ r.machine.trail :=
      (enters.unwritten fun e he => by cases e <;> first | exact he | cases he).trans
        (ihruns (fun y hy => .inl (by rw [runs.own_scope y hy]; exact hbelow)) hcalls.1)
    have hclosed : Unwritten opened.trail u := by
      obtain ⟨ts, hts, hnone⟩ := hinner.touches
      have hts : r.machine.evm.touches = ts := hts
      rw [Closes, if_pos (show x.op.isMessageCall = true by rw [hop]; rfl)] at closes
      split at closes
      · rw [closes]
        exact ⟨hinner.accounts, hinner.created, hinner.destroyed, ts, by rw [← hts]; rfl, hnone⟩
      · obtain ⟨hstate, hremote, hcreated, hdestroyed⟩ := revert_unwritten closes.ext (fun τ hτ => hnone τ (hts ▸ hτ))
        refine ⟨fun a => Eq.trans ?_ (hinner.accounts a), hcreated.trans hinner.created, hdestroyed.trans hinner.destroyed,
          _, closes.touches, fun τ hτ => hnone τ (hts ▸ List.mem_of_mem_filter hτ)⟩
        unfold Ext.account?
        rw [hstate, hremote]
        rfl
    exact (opens.acts.unwritten fun _ => Step.passing hx hcall).trans (hclosed.trans (ih hrest hcalls.2))

/-! ## The instruction -/

/-- A STATICCALL, whatever its frame does and however it ends: no slot changes, no log is added,
    and if the frames below it are STATICCALLs alone no account changes. -/
theorem static_isolation [EventTracer T] {fuel : Nat} {x : Step T} {o : Option Bytes} {u : Machine T}
    (hop : x.op = .staticcall)
    (hs : x.before.evm.stack.length ≤ stackLimit)
    (h : executeStep (executeWithContext fuel) x.scope x.instruction x.before = .ok o u) :
    (∀ a key, u.ext.slotOf a key = x.before.ext.slotOf a key) ∧ u.evm.logs = x.before.evm.logs ∧
      ((∀ y ∈ (historyNode (executeWithContext fuel) (history fuel) x .cut).steps, y.op.isCall → y.op = .staticcall) →
        Unwritten x.before.trail u.trail) := by
  have hturned : Turned (executeWithContext fuel) (history fuel) x o u :=
    (wp_of_ok h).1 (wp_executeStep (tracks_run fuel) hs)
  have hf := hturned.goes .cut u.trail (fun hcut => by cases hcut) (.cut _ _)
  have hown : ∀ y ∈ (historyNode (executeWithContext fuel) (history fuel) x .cut).own, y.op = .staticcall := by
    unfold historyNode
    intro y hy
    split at hy <;>
      · rw [History.own, History.own, List.mem_singleton] at hy
        rw [hy, hop]
  refine ⟨fun a key => (hf.still_slot (fun y hy => .inr (hown y hy)) a key).1, ?_, fun hcalls =>
    hf.unwritten (fun y hy => .inr (hown y hy)) hcalls⟩
  cases hopened : openedFrame x.scope x.instruction x.before with
  | none =>
    refine (hturned.acts hopened).logs fun l hl => ?_
    have hlog : x.op = .log := hl.1
    rw [hop] at hlog
    cases hlog
  | some opening =>
    obtain ⟨inner, pending, opened⟩ := opening
    obtain ⟨ret, m, -, hcloses⟩ := hturned.closed hopened
    exact hcloses.left.1.trans (opens_of_openedFrame hopened).left.1

end

namespace Sample

/-- A STATICCALL of 0xbb, which asks 0xcc by a STATICCALL and then tries to store. -/
def asking : Step NoopTracer :=
  step [0xfa] [50000, 0xbb, 0, 0, 0, 0] [(0xaa, 5, []), (0xcc, 0, [0x5f]),
    (0xbb, 0, [0x5f, 0x5f, 0x5f, 0x5f, 0x60, 0xcc, 0x61, 0xff, 0xff, 0xfa, 0x60, 1, 0x5f, 0x55])]

end Sample

open Sample

/-- The store fails, and so does the call. -/
theorem static_isolation_asking : ∃ (o : Option Bytes) (u : Machine NoopTracer),
    executeStep (executeWithContext 20) asking.scope asking.instruction asking.before = .ok o u ∧
      u.evm.stack = [0] ∧ (∀ a key, u.ext.slotOf a key = asking.before.ext.slotOf a key) ∧
      Unwritten asking.before.trail u.trail := by
  have hrun : returns (executeStep (executeWithContext 20) asking.scope asking.instruction asking.before)
      (fun _ u => decide (u.evm.stack = [0])) := by decide +kernel
  obtain ⟨o, u, h, hp⟩ := of_returns hrun
  obtain ⟨hslots, -, haccounts⟩ := static_isolation (by decide) (by decide) h
  exact ⟨o, u, h, of_decide_eq_true hp, hslots, haccounts (by decide +kernel)⟩

end Solenoid
