/-
  Solenoid.Creations — the rollback of accounts.

  The journal of a creation has its own touches before those of its init code, and its
  touch outlives the revert of a frame around it. So the undo of a frame takes the accounts
  back when every creation below it `Fits`: the balances it moves value between are at the
  end of the init code what they were at its start, and the account it makes was blank. And
  no SELFDESTRUCT may take effect: it is not journaled at all.
-/
import Solenoid.Rollback

namespace Solenoid

open Hoare UndoLog

variable {T : Type} [Crypto] {C : Type} (f : Field C)

/-- The step is a SELFDESTRUCT that no check stops. -/
def Step.destroys (x : Step T) : Prop :=
  x.op = .selfdestruct ∧ x.has 1 ∧ x.scope.ctx.callType ≠ .static

/-- A creation that is kept moves its value, with the accounts as its init code left them. -/
def Step.endows (x : Step T) (e : Ext) : Prop :=
  (callContext x.scope.ctx x.op).movesValue = true ∧ x.value ≠ 0 ∧ x.value.toNat ≤ (e.valueOf x.this).toNat

instance (x : Step T) (e : Ext) : Decidable (x.endows e) := by
  unfold Step.endows
  infer_instance

namespace Field

/-- The undo of the frame's end leaves the field as the frame found it. -/
structure Fits (x : Step T) (inner : Inner T) (pending : Pending) (opened : Machine T) (callee : History T) (r : Ended T) :
    Prop where
  kept : x.isCreation → pending.keeps r.output →
    (x.endows r.machine.ext → inner.scope.ctx.created ≠ x.this ∧
      r.machine.ext.valueOf x.this = opened.ext.valueOf x.this) ∧
    f.get { value := if x.endows r.machine.ext then r.machine.ext.valueOf inner.scope.ctx.created else 0 } =
      f.get (opened.ext.orDefault inner.scope.ctx.created)
  dropped : pending.keeps r.output = false → ∀ a ∈ callee.created, f.get {} = f.get (opened.ext.orDefault a)

omit [Crypto] in
/-- The undo of a touch treats a balance apart from the rest. -/
theorem restore_value (a : Address) (ts : List AccountTouch) (x : Account) (v : Word) :
    ∃ v', rollback (AccountTouch.restore a) ts { x with value := v } =
      { rollback (AccountTouch.restore a) ts x with value := v' } := by
  induction ts with
  | nil => exact ⟨v, rfl⟩
  | cons τ ts ih =>
    obtain ⟨v', hv⟩ := ih
    simp only [rollback_cons, hv]
    cases τ with
    | setValue b val | setNonce b val | create b =>
      simp only [AccountTouch.restore]
      split <;> exact ⟨_, rfl⟩
    | _ => exact ⟨v', rfl⟩

omit [Crypto] in
theorem undo_eq (a : Address) (ts : List AccountTouch) (x : Account) :
    rollback (f.undo a) ts (f.get x) = f.get (rollback (AccountTouch.restore a) ts x) :=
  rollback_map (f.lift a) ts x

omit [Crypto] in
/-- A field of the account that a creation is undone for: only a balance put back after it
    remains. -/
theorem get_blank (x : Account) (v : Word) :
    f.get { x with code := ([], emptyHash), nonce := 0, value := v } = f.get { value := v } :=
  f.value_congr (f.blank x) v

end Field

omit [Crypto] in
/-- What the installed code leaves of the other accounts. -/
theorem orDefault_deployed {e : Ext} {created : Address} (hl : (e.state.lookup created).isSome) (code : Bytes × Word)
    (a : Address) : (e.mutate created fun x => { x with code, nonce := 1 }).orDefault a =
      if a = created then { e.orDefault created with code, nonce := 1 } else e.orDefault a :=
  Ext.orDefault_mutate _ hl a

omit [Crypto] in
theorem valueOf_deployed {e : Ext} {created : Address} (hl : (e.state.lookup created).isSome) (code : Bytes × Word)
    (a : Address) : (e.mutate created fun x => { x with code, nonce := 1 }).valueOf a = e.valueOf a := by
  unfold Ext.valueOf
  rw [orDefault_deployed hl]
  split
  · next h => rw [h]
  · rfl

namespace Field

variable {x : Step T} {inner : Inner T} {pending : Pending} {opened : Machine T} {callee : History T} {r : Ended T}

omit [Crypto] in
/-- A creation that moved nothing. -/
theorem restores_still {created : Address} {ts : List AccountTouch} {e e₀ : Ext} (code : Bytes × Word) (v n : Word)
    (hl : (e.state.lookup created).isSome) (a : Address)
    (hr : Restores (f.undo a) ts (f.get (e₀.orDefault a)) (f.get (e.orDefault a)))
    (hfit : f.get {} = f.get (e₀.orDefault created)) :
    Restores (f.undo a) ([.create created v n code.1 code.2] ++ ts) (f.get (e₀.orDefault a))
      (f.get ((e.mutate created fun x => { x with code, nonce := 1 }).orDefault a)) := by
  unfold Restores at *
  rw [orDefault_deployed hl]
  by_cases ha : a = created
  · subst ha
    rw [if_pos rfl, rollback_append, f.undo_eq, rollback_cons, rollback_nil, f.lift, ← hfit]
    simp only [AccountTouch.restore, if_true]
    exact f.blank _
  · have hidle : ∀ y, AccountTouch.restore a (.create created v n code.1 code.2) y = y := fun _ => if_neg (Ne.symm ha)
    rw [if_neg ha, rollback_append, hr, rollback_cons, rollback_nil]
    exact f.undo_idle hidle _

omit [Crypto] in
/-- A creation that moved value, between balances that its init code had not changed. -/
theorem restores_moved {this created : Address} {ts : List AccountTouch} {e e₀ : Ext} (code : Bytes × Word)
    (v v' w n : Word) (hc : (e.state.lookup created).isSome) (ht : (e.state.lookup this).isSome) (hne : created ≠ this)
    (a : Address) (hr : Restores (f.undo a) ts (f.get (e₀.orDefault a)) (f.get (e.orDefault a)))
    (hthis : e.valueOf this = e₀.valueOf this)
    (hfit : f.get { value := e.valueOf created } = f.get (e₀.orDefault created)) :
    Restores (f.undo a)
      ([.setValue this (e.valueOf this) v, .setValue created (e.valueOf created) v',
        .create created w n code.1 code.2] ++ ts)
      (f.get (e₀.orDefault a))
      (f.get ((((e.mutate created fun x => { x with code, nonce := 1 }).setValue this v).setValue created v').orDefault
        a)) := by
  unfold Restores at *
  have ht' : ((e.mutate created fun x => { x with code, nonce := 1 }).state.lookup this).isSome := by
    rwa [Ext.isSome_lookup_mutate]
  have hc' : (((e.mutate created fun x => { x with code, nonce := 1 }).setValue this v).state.lookup created).isSome := by
    rwa [Ext.setValue, Ext.isSome_lookup_mutate, Ext.isSome_lookup_mutate]
  rw [Ext.setValue, Ext.orDefault_mutate _ hc', Ext.setValue, Ext.orDefault_mutate _ ht', Ext.orDefault_mutate _ ht',
    orDefault_deployed hc, orDefault_deployed hc, orDefault_deployed hc, if_neg hne, if_pos rfl, if_neg hne.symm]
  rw [rollback_append]
  by_cases hac : a = created
  · -- the touch of the creation clears the account, the one before it puts the balance back
    subst hac
    rw [if_pos rfl, f.undo_eq, f.undo_eq]
    simp only [rollback_cons, rollback_nil, AccountTouch.restore, if_true, if_neg hne.symm]
    rw [← hfit]
    exact f.get_blank _ _
  · by_cases hat : a = this
    · -- what the init code's touches put back of the creator is its balance before the init code
      subst hat
      rw [if_neg hac, if_pos rfl]
      obtain ⟨v'', hv⟩ := restore_value a ts (e.orDefault a) v
      rw [f.undo_eq, hv, f.undo_eq]
      simp only [rollback_cons, rollback_nil, AccountTouch.restore, if_true, if_neg hne]
      rw [f.undo_eq] at hr
      refine (f.value_congr hr (e.valueOf a)).trans ?_
      rw [hthis]
      rfl
    · rw [if_neg hac, if_neg hat, if_neg hac, hr, f.undo_eq]
      simp only [rollback_cons, rollback_nil, AccountTouch.restore, if_neg (Ne.symm hac), if_neg (Ne.symm hat)]

theorem covers (a : Address) : Covers (f.cell a) (fun x : Step T => ¬x.destroys) f.Fits where
  read {e t u} he hk h := h.journaled_field f hk (by cases e <;> trivial)
  act {x e t u} hx hallow hk h := by
    refine h.journaled_field f hk ?_
    cases e with
    | destroy => exact hx ⟨hallow.1, hallow.2.1, hallow.2.2.1⟩
    | transfer => exact hallow.2.2.2.2.2.2
    | _ => trivial
  close {x inner pending opened callee r w u} hn hopens enters runs hr h := by
    have hext : opened.ext.Extends r.machine.ext := enters.extends.trans runs.extends
    unfold Closes at h
    split at h
    · next hk =>
      split at h
      · exact ⟨r.machine.evm.touches, by rw [h]; rfl, by rw [h]; exact hr⟩
      · next hop =>
        obtain ⟨hcreation, ht, hc⟩ : x.isCreation ∧ (r.machine.ext.state.lookup x.this).isSome ∧
            (r.machine.ext.state.lookup inner.scope.ctx.created).isSome := by
          cases hopens with
          | message hop' => exact absurd hop' hop
          | creation hop' _ h => exact ⟨hop', hext.loaded _ h.loaded.1, hext.loaded _ h.loaded.2⟩
        obtain ⟨hendow, hfit⟩ := hn.kept hcreation hk
        obtain ⟨mid, ⟨mid', hm, rfl⟩, rfl⟩ := h
        have hvalue := valueOf_deployed hc (r.output.ret, Crypto.keccak256 r.output.ret)
        cases hm with
        | still ha _ hnot =>
          have hstill : ¬x.endows r.machine.ext := fun ⟨hm, hv, hle⟩ =>
            hnot ⟨hm, hv, by rwa [← Ext.valueOf_of_lookup ha, hvalue]⟩
          rw [if_neg hstill] at hfit
          refine ⟨_, ?_, f.restores_still (r.output.ret, Crypto.keccak256 r.output.ret) x.value 1 hc a hr hfit⟩
          simp only [Trail.merge, Ended.output, List.append_assoc]
        | moved hm hv ha funds h =>
          have hmoved : x.endows r.machine.ext := ⟨hm, hv, by rwa [← hvalue, Ext.valueOf_of_lookup ha]⟩
          obtain ⟨hne, hthis⟩ := hendow hmoved
          rw [if_pos hmoved] at hfit
          cases h with
          | transfer hs hd =>
            rw [← Ext.valueOf_of_lookup hs, ← Ext.valueOf_of_lookup hd, hvalue, hvalue]
            refine ⟨_, ?_, f.restores_moved (r.output.ret, Crypto.keccak256 r.output.ret) _ _ x.value 1 hc ht hne a hr
              hthis hfit⟩
            simp only [Trail.merge, Ended.output, List.append_assoc, List.cons_append, List.nil_append]
    · next hk =>
      refine ⟨_, h.touches, ?_⟩
      have hview : (f.cell a).view u.ext = (f.cell a).view opened.ext := ((f.cell a).reverted h.ext).trans hr
      rw [hview]
      refine .idle fun τ hτ => ?_
      have hmem : τ ∈ r.machine.evm.touches := List.mem_of_mem_filter hτ
      have hsurvives : τ.survivesRevert = true := List.of_mem_filter hτ
      have hcreates : ∀ b, τ.created? = some b → b ∈ callee.created :=
        ((enters.creates.trans runs.creates).mono (fun _ h => h) τ hmem).resolve_left List.not_mem_nil
      have hidle : (∀ b, τ.created? = some b → b ≠ a) → (f.cell a).undo τ (f.get (opened.ext.orDefault a)) =
          f.get (opened.ext.orDefault a) := by
        intro hb
        refine f.undo_idle (fun y => ?_) _
        cases τ with
        | create b => exact if_neg (hb b rfl)
        | setNonce | setValue => cases hsurvives
        | _ => rfl
      by_cases hb : τ.created? = some a
      · have hfit := hn.dropped (by simpa using hk) a (hcreates a hb)
        cases τ with
        | create b =>
          cases hb
          refine (f.lift a _ _).trans (Eq.trans ?_ hfit)
          simp only [AccountTouch.restore, if_true]
          exact f.blank _
        | _ => cases hb
      · exact hidle fun b hb' hba => hb (hba ▸ hb')

end Field

/-- The condition under which a tree of frames can be undone. -/
def History.Undoable (f : Field C) (h : History T) : Prop := h.All (fun x => ¬x.destroys) f.Fits

theorem Follows.journaled_field {sc : Scope} {h : History T} {t u : Trail} (hf : Follows sc h t u) (hh : h.Undoable f)
    (a : Address) (hk : (f.cell a).known t.ext) : Journaled (f.cell a) t u := hf.journaled (f.covers a) hk hh

end Solenoid
