/-
  Solenoid.Undo — the parts of the state the journal is about, cell by cell.

  A `Cell` is a part of `Ext` with what the undo of a touch does to it: a storage slot, a
  transient slot, a `Field` of an account. A stretch of a run is `Journaled` in a cell when
  the touches it appended take the cell's value back. Every effect is, but for those that
  leave an account's balance out of the journal (`Effect.isJournaled`).
-/
import Solenoid.Lib.UndoLog
import Solenoid.Refinement

namespace Solenoid

open Hoare UndoLog

/-! ## Cells -/

structure Cell (C : Type) where
  view : Ext → C
  undo : AccountTouch → C → C
  /-- Loading accounts does not change the view. -/
  known : Ext → Prop
  extends_known : ∀ {e e'}, e.Extends e' → known e → known e'
  reverts : ∀ τ e e', Evm.revertTouch τ e = .ok ⟨⟩ e' → view e' = undo τ (view e)

theorem Cell.reverted {C : Type} (c : Cell C) {evm : Evm} {e e' : Ext} (h : evm.revert e = .ok ⟨⟩ e') :
    c.view e' = rollback c.undo evm.touches (c.view e) := rollback_run c.reverts _ h

/-- The touches appended from `t` to `u` take the cell back. -/
def Journaled {C : Type} (c : Cell C) (t u : Trail) : Prop :=
  ∃ ts, u.touches = t.touches ++ ts ∧ Restores c.undo ts (c.view t.ext) (c.view u.ext)

namespace Journaled

variable {C : Type} {c : Cell C} {t u v : Trail}

theorem refl (c : Cell C) (t : Trail) : Journaled c t t := ⟨[], (List.append_nil _).symm, .refl _⟩

theorem trans (h : Journaled c t u) (h' : Journaled c u v) : Journaled c t v := by
  obtain ⟨ts, hts, hr⟩ := h
  obtain ⟨ts', hts', hr'⟩ := h'
  exact ⟨ts ++ ts', by rw [hts', hts, List.append_assoc], hr.append hr'⟩

/-- Nothing journaled, nothing changed. -/
theorem of_view (ht : u.touches = t.touches) (hv : c.view u.ext = c.view t.ext) : Journaled c t u :=
  ⟨[], by rw [ht, List.append_nil], hv⟩

/-- One touch. -/
theorem one {τ : AccountTouch} (ht : u.touches = t.touches ++ [τ]) (hv : c.undo τ (c.view u.ext) = c.view t.ext) :
    Journaled c t u := ⟨[τ], ht, .single hv⟩

end Journaled

/-! ## Storage -/

def undoSlot (a : Address) (key : Word) : AccountTouch → Option Word → Option Word
  | .setState b k val _ _, v => if b = a ∧ k = key then some val else v
  | _, v => v

def undoTransient (a : Address) (key : Word) : AccountTouch → Word → Word
  | .setTransientState b k val _, v => if b = a ∧ k = key then val else v
  | _, v => v

open AccountTouch in
def slotCell (a : Address) (key : Word) : Cell (Option Word) where
  view e := e.slotOf a key
  undo := undoSlot a key
  known _ := True
  extends_known _ h := h
  reverts τ e e' h := by
    obtain ⟨rfl, -⟩ := revertTouch_ok h
    cases τ with
    | setState b k val new isWarm => cases isWarm <;> exact Ext.slotOf_insertSlot e b a k val key
    | getState b k val isWarm => cases isWarm <;> rfl
    | setValue b | setNonce b | create b => exact Ext.slotOf_mutate e b a key fun _ => rfl
    | _ => rfl

theorem transientOf_insert (m : Slots) (b a : Address) (k key val : Word) :
    ((m.insert (b, k) val).lookup (a, key)).getD 0 = if b = a ∧ k = key then val else (m.lookup (a, key)).getD 0 := by
  split
  · next h => rw [h.1, h.2, Finmap.lookup_insert, Option.getD_some]
  · next h =>
    rw [Finmap.lookup_insert_of_ne]
    exact fun heq => h ⟨(Prod.mk.inj heq).1.symm, (Prod.mk.inj heq).2.symm⟩

open AccountTouch in
def transientCell (a : Address) (key : Word) : Cell Word where
  view e := e.transientOf a key
  undo := undoTransient a key
  known _ := True
  extends_known _ h := h
  reverts τ e e' h := by
    obtain ⟨rfl, -⟩ := revertTouch_ok h
    cases τ with
    | setState b k val new isWarm => cases isWarm <;> rfl
    | getState b k val isWarm => cases isWarm <;> rfl
    | setTransientState b k val new => exact transientOf_insert e.transient b a k key val
    | setValue b | setNonce b | create b =>
      simp only [undone, Ext.setValue, Ext.setNonce, undoTransient, Ext.transientOf, Ext.transient_mutate]
    | _ => rfl

/-! ## Accounts -/

/-- What the undo of a touch does to account `a`, its storage aside. -/
def AccountTouch.restore (a : Address) : AccountTouch → Account → Account
  | .setValue b val _, x => if b = a then { x with value := val } else x
  | .setNonce b val _, x => if b = a then { x with nonce := BitVec.ofNat 256 val } else x
  | .create b .., x => if b = a then { x with code := ([], emptyHash), nonce := 0, value := 0 } else x
  | _, x => x

open AccountTouch in
theorem orDefault_undone {τ : AccountTouch} {e : Ext} (hn : ∀ b, τ.named = some b → (e.state.lookup b).isSome)
    (a : Address) : ∃ storage, (τ.undone e).orDefault a = { τ.restore a (e.orDefault a) with state := storage } := by
  have hslot : ∀ b key val, ∃ storage, (e.insertSlot b key val).orDefault a = { e.orDefault a with state := storage } := by
    intro b key val
    rw [Ext.orDefault_insertSlot]
    split
    · next h => exact ⟨_, by rw [h]⟩
    · exact ⟨_, rfl⟩
  have hmutate : ∀ (f : Account → Account) (b : Address), (e.state.lookup b).isSome →
      (e.mutate b f).orDefault a = if b = a then f (e.orDefault a) else e.orDefault a := by
    intro f b hb
    rw [Ext.orDefault_mutate f hb]
    by_cases h : a = b
    · subst h
      simp
    · simp [h, Ne.symm h]
  cases τ with
  | setState b key val new isWarm => cases isWarm <;> exact hslot b key val
  | getState b key val isWarm => cases isWarm <;> exact ⟨_, rfl⟩
  | setValue b | setNonce b | create b =>
    refine ⟨(e.orDefault a).state, (hmutate _ b (hn b rfl)).trans ?_⟩
    simp only [restore]
    split <;> rfl
  | _ => exact ⟨_, rfl⟩

/-- A part of an account that the undo of a touch acts on by itself. -/
structure Field (C : Type) where
  get : Account → C
  undo : Address → AccountTouch → C → C
  lift : ∀ a τ x, undo a τ (get x) = get (τ.restore a x)
  storage : ∀ (x : Account) s, get { x with state := s } = get x
  /-- An account whose creation is undone is as good as none. -/
  blank : ∀ x : Account, get { x with code := ([], emptyHash), nonce := 0, value := 0 } = get {}

namespace Field

def balance : Field Word where
  get x := x.value
  undo a
    | .setValue b val _, v => if b = a then val else v
    | .create b .., v => if b = a then 0 else v
    | _, v => v
  lift a τ x := by
    cases τ with
    | setValue b | setNonce b | create b => simp only [AccountTouch.restore]; split <;> rfl
    | _ => rfl
  storage _ _ := rfl
  blank _ := rfl

/-- Balance, nonce and code together. -/
def whole : Field (Word × Word × Bytes) where
  get x := (x.value, x.nonce, x.code.1)
  undo a
    | .setValue b val _, v => if b = a then (val, v.2) else v
    | .setNonce b val _, v => if b = a then (v.1, BitVec.ofNat 256 val, v.2.2) else v
    | .create b .., v => if b = a then (0, 0, []) else v
    | _, v => v
  lift a τ x := by
    cases τ with
    | setValue b | setNonce b | create b => simp only [AccountTouch.restore]; split <;> rfl
    | _ => rfl
  storage _ _ := rfl
  blank _ := rfl

variable {C : Type} (f : Field C)

/-- Two accounts alike in the field stay alike under a restored balance. -/
theorem value_congr {x y : Account} (h : f.get x = f.get y) (v : Word) :
    f.get { x with value := v } = f.get { y with value := v } := by
  have hx := f.lift 0 (.setValue 0 v 0) x
  have hy := f.lift 0 (.setValue 0 v 0) y
  simp only [AccountTouch.restore, if_true] at hx hy
  rw [← hx, ← hy, h]

variable [Crypto]

/-- The field of one account: known once the account is loaded, or when the remote's is as
    good as none. -/
def cell (a : Address) : Cell C where
  view e := f.get (e.orDefault a)
  undo := f.undo a
  known e := (e.state.lookup a).isSome ∨ ∀ r x, e.remote = some r → r.Gives a x → f.get x = f.get {}
  extends_known h hk := hk.imp (h.loaded a) fun hr r x hrem => hr r x (h.remote ▸ hrem)
  reverts τ e e' h := by
    obtain ⟨rfl, hn⟩ := AccountTouch.revertTouch_ok h
    obtain ⟨storage, hs⟩ := orDefault_undone hn a
    rw [hs, f.storage, f.lift]

end Field

/-! ## Effects -/

/-- The journal covers the effect: it says nothing of a SELFDESTRUCT, and a transfer to
    oneself would be undone to the wrong balance. -/
def Effect.isJournaled : Effect → Prop
  | .destroy .. => False
  | .transfer src dst _ => src ≠ dst
  | _ => True

section Effects

variable [Crypto] {e : Effect} {t u : Trail}

theorem Act.journaled_slot (h : Act e t u) (a : Address) (key : Word) : Journaled (slotCell a key) t u := by
  cases h with
  | warmAddress => exact .one rfl rfl
  | warmStorage | log | mark => exact .of_view rfl rfl
  | load h => exact .of_view rfl (Ext.slotOf_pull h)
  | fetch h => exact .of_view rfl (Ext.slotOf_get h)
  | @note _ τ hτ => exact .one rfl (by cases τ <;> first | rfl | cases hτ)
  | @store _ b k val new isWarm e' hget =>
    refine .one rfl ?_
    have hold : e'.slotOf b k = some val := by rw [Ext.slotOf_get hget, Ext.get_slotOf hget]
    have hsame : e'.slotOf a key = t.ext.slotOf a key := Ext.slotOf_get hget
    simp only [slotCell, undoSlot, Ext.slotOf_written]
    split
    · next h =>
      obtain ⟨rfl, rfl⟩ := h
      rw [← hsame, hold]
    · exact hsame
  | storeTransient => exact .one rfl rfl
  | @transfer _ src dst v b c =>
    refine ⟨_, rfl, ?_⟩
    have hs : ((t.ext.setValue src (b.value - v)).setValue dst (c.value + v)).slotOf a key = t.ext.slotOf a key := by
      rw [Ext.setValue, Ext.slotOf_mutate, Ext.setValue, Ext.slotOf_mutate] <;> exact fun _ => rfl
    exact hs
  | bump => exact .one rfl (Ext.slotOf_mutate _ _ _ _ fun _ => rfl)
  | openAccount =>
    refine .of_view rfl (Ext.slotOf_congr ?_ rfl)
    rw [Ext.orDefault_open]
  | @destroy _ src dst b c =>
    refine .of_view rfl ?_
    have hs : ((t.ext.setValue src 0).setValue dst (c.value + b.value)).slotOf a key = t.ext.slotOf a key := by
      rw [Ext.setValue, Ext.slotOf_mutate, Ext.setValue, Ext.slotOf_mutate] <;> exact fun _ => rfl
    exact hs

theorem Act.journaled_transient (h : Act e t u) (a : Address) (key : Word) : Journaled (transientCell a key) t u := by
  cases h with
  | warmAddress => exact .one rfl rfl
  | warmStorage | log | mark | openAccount => exact .of_view rfl rfl
  | load h => exact .of_view rfl (by simp only [transientCell, Ext.transientOf, Ext.transient_pull h])
  | fetch h => exact .of_view rfl (by simp only [transientCell, Ext.transientOf, Ext.transient_get h])
  | @note _ τ hτ => exact .one rfl (by cases τ <;> first | rfl | cases hτ)
  | store hget =>
    refine .one rfl ?_
    simp only [transientCell, undoTransient, Ext.transientOf, Ext.written, Ext.insertSlot, Ext.transient_get hget]
  | @storeTransient _ b k new =>
    refine .one rfl ?_
    simp only [transientCell, undoTransient, Ext.transientOf, transientOf_insert]
    split
    · next h => rw [h.1, h.2]
    · rfl
  | transfer =>
    refine ⟨_, rfl, ?_⟩
    simp only [Restores, rollback_cons, rollback_nil, transientCell, undoTransient, Ext.transientOf, Ext.setValue,
      Ext.transient_mutate]
  | bump =>
    exact .one rfl (by simp only [transientCell, undoTransient, Ext.transientOf, Ext.setNonce, Ext.transient_mutate])
  | destroy =>
    refine .of_view rfl ?_
    simp only [transientCell, Ext.transientOf, Ext.setValue, Ext.markDestroyed, Ext.transient_mutate]

omit [Crypto] in
/-- A touch that restores nothing of the accounts. -/
theorem Field.undo_idle {C : Type} (f : Field C) {a : Address} {τ : AccountTouch} (h : ∀ x, τ.restore a x = x)
    (x : Account) :
    f.undo a τ (f.get x) = f.get x := by rw [f.lift, h]

theorem Act.journaled_field {C : Type} (f : Field C) {a : Address} (hk : (f.cell a).known t.ext) (he : e.isJournaled)
    (h : Act e t u) : Journaled (f.cell a) t u := by
  have hpull : ∀ {b : Address} {x : Account} {e' : Ext}, Ext.pull b t.ext = .ok x e' →
      f.get (e'.orDefault a) = f.get (t.ext.orDefault a) := by
    intro b x e' hp
    cases Ext.pulled hp with
    | loaded => rfl
    | remote hn hr gives =>
      rw [Ext.orDefault_insert]
      split
      · next hab =>
        subst hab
        have hnone : t.ext.orDefault a = {} := by simp only [Ext.orDefault, hn, Option.getD_none]
        rcases hk with hl | hrem
        · rw [hn] at hl
          cases hl
        · rw [hnone, hrem _ _ hr gives]
      · rfl
  have hget : ∀ {b : Address} {key val : Word} {e' : Ext}, Ext.get b key t.ext = .ok val e' →
      f.get (e'.orDefault a) = f.get (t.ext.orDefault a) := by
    intro b key val e' hg
    obtain ⟨x, e₁, hp, hg⟩ := Ext.got hg
    obtain ⟨s, hs⟩ := hg.orDefault (Ext.orDefault_of_lookup (Ext.pulled hp).lookup) a
    rw [hs, f.storage, hpull hp]
  cases h with
  | warmAddress => exact .one rfl (f.undo_idle (fun _ => rfl) _)
  | warmStorage | log | mark => exact .of_view rfl rfl
  | load h => exact .of_view rfl (hpull h)
  | fetch h => exact .of_view rfl (hget h)
  | @note _ τ hτ => exact .one rfl (f.undo_idle (fun _ => by cases τ <;> first | rfl | cases hτ) _)
  | @store _ b key val new isWarm e' hg =>
    refine .one rfl ((f.undo_idle (fun _ => rfl) _).trans ?_)
    rw [show Ext.orDefault (e'.written b key new) a = (e'.insertSlot b key new).orDefault a from rfl,
      Ext.orDefault_insertSlot]
    split
    · next hab => rw [f.storage, ← hab, hget hg]; rfl
    · rw [hget hg]; rfl
  | storeTransient => exact .one rfl (f.undo_idle (fun _ => rfl) _)
  | @transfer _ src dst v x y hs hd =>
    have hne : src ≠ dst := he
    have hx := Ext.orDefault_of_lookup hs
    have hy := Ext.orDefault_of_lookup hd
    have hsrc : (t.ext.state.lookup src).isSome := by rw [hs]; rfl
    have hdst : ((t.ext.setValue src (x.value - v)).state.lookup dst).isSome := by
      rw [Ext.setValue, Ext.isSome_lookup_mutate, hd]
      rfl
    refine ⟨_, rfl, ?_⟩
    simp only [Restores, rollback_cons, rollback_nil, Field.cell, f.lift]
    refine congrArg f.get ?_
    rw [Ext.setValue, Ext.orDefault_mutate _ hdst, Ext.setValue, Ext.orDefault_mutate _ hsrc,
      Ext.orDefault_mutate _ hsrc]
    by_cases had : a = dst
    · subst had
      simp [AccountTouch.restore, hne, hne.symm, hy]
    · by_cases has : a = src
      · subst has
        simp [AccountTouch.restore, hne, hne.symm, hx]
      · simp [AccountTouch.restore, had, has, Ne.symm had, Ne.symm has]
  | @bump _ addr x ha =>
    have hx := Ext.orDefault_of_lookup ha
    have hl : (t.ext.state.lookup addr).isSome := by rw [ha]; rfl
    refine .one rfl ?_
    simp only [Field.cell, f.lift]
    refine congrArg f.get ?_
    rw [Ext.setNonce, Ext.orDefault_mutate _ hl]
    by_cases h : a = addr
    · subst h
      simp [AccountTouch.restore, hx]
    · simp [AccountTouch.restore, h, Ne.symm h]
  | openAccount => exact .of_view rfl (by simp only [Field.cell, Ext.orDefault_open])
  | destroy => exact he.elim

end Effects

end Solenoid
