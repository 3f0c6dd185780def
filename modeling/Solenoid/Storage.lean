/-
  Solenoid.Storage — storage across nested frames.

  A slot, persistent or transient, is written by the SSTOREs or TSTOREs of the frames that
  are kept and by nothing else (`Follows.written`), and the undo of a frame takes it back
  to what it was (`storage_rollback`).
-/
import Solenoid.Rollback

namespace Solenoid

open Hoare UndoLog

section

variable {T : Type} [Crypto]

/-! ## The slots as they are read -/

/-- What `ext.get` answers. -/
def Ext.read (e : Ext) (a : Address) (key : Word) : Option Word :=
  match Ext.get a key e with
  | .ok val _ => some val
  | .error _ _ => none

/-- On a loaded account a read answers the slot, or fails with the remote. -/
theorem Ext.read_eq_slotOf {e : Ext} {a : Address} (h : (e.state.lookup a).isSome) (key : Word) :
    e.read a key = e.slotOf a key := by
  obtain ⟨account, hl⟩ := Option.isSome_iff_exists.1 h
  have hacc : e.orDefault a = account := Ext.orDefault_of_lookup hl
  simp only [Ext.read, Ext.get, bind, EStateM.bind, Ext.pull_loaded hl, run_get, Ext.slotOf, hacc]
  cases hk : account.state.lookup key with
  | some val => rfl
  | none =>
    cases hr : e.remote with
    | none => rfl
    | some r => cases hs : r.storage a key <;> simp [hs, answer, bail] <;> rfl

/-! ## Writes -/

/-- The value a step leaves in a slot that held `v`. -/
def Step.stores (a : Address) (key : Word) (v : Option Word) (x : Step T) : Option Word :=
  if x.op = .sstore ∧ x.this = a ∧ x.operand 0 = key then some (x.operand 1) else v

def Step.storesTransient (a : Address) (key : Word) (v : Word) (x : Step T) : Word :=
  if x.op = .tstore ∧ x.this = a ∧ x.operand 0 = key then x.operand 1 else v

/-- Only SSTORE changes a slot. -/
theorem Act.slot_kept {e : Effect} {t u : Trail} (h : Act e t u)
    (he : ∀ a key val new isWarm, e ≠ .store a key val new isWarm)
    (a : Address) (key : Word) : u.ext.slotOf a key = t.ext.slotOf a key := by
  have hset : ∀ (e : Ext) (b : Address) (v : Word), (e.setValue b v).slotOf a key = e.slotOf a key := fun e b v =>
    Ext.slotOf_mutate e b a key fun _ => rfl
  cases h with
  | warmAddress | warmStorage | note | storeTransient | log | mark => rfl
  | load h => exact Ext.slotOf_pull h
  | fetch h => exact Ext.slotOf_get h
  | store => exact absurd rfl (he _ _ _ _ _)
  | transfer => exact (hset _ _ _).trans (hset _ _ _)
  | bump => exact Ext.slotOf_mutate _ _ _ _ fun _ => rfl
  | openAccount => exact Ext.slotOf_congr (by rw [Ext.orDefault_open]) rfl
  | destroy => exact (hset _ _ _).trans (hset _ _ _)

/-- Only TSTORE changes a transient slot. -/
theorem Act.transient_kept {e : Effect} {t u : Trail} (h : Act e t u)
    (he : ∀ a key val new, e ≠ .storeTransient a key val new) :
    u.ext.transient = t.ext.transient := by
  cases h with
  | warmAddress | warmStorage | note | log | mark | openAccount => rfl
  | load h => exact Ext.transient_pull h
  | fetch h => exact Ext.transient_get h
  | store h =>
    have ht := Ext.transient_get h
    exact ht
  | storeTransient => exact absurd rfl (he _ _ _ _)
  | transfer | destroy =>
    simp only [Ext.setValue, Ext.markDestroyed, Ext.transient_mutate]
  | bump => simp only [Ext.setNonce, Ext.transient_mutate]

/-- A cell, with what the steps write in it. -/
structure Cell.Written {C : Type} (c : Cell C) (write : C → Step T → C) : Prop where
  aside : c.Aside
  performs : ∀ {x : Step T} {t u : Trail}, Acts x.allows t u → Performs x t u → c.view u.ext = write (c.view t.ext) x
  idle : ∀ (x : Step T) (v : C), x.op.writes = false → write v x = v
  read : ∀ {t u : Trail}, Acts (Effect.isRead ·) t u → c.view u.ext = c.view t.ext

theorem written_slot (a : Address) (key : Word) : (slotCell a key).Written (T := T) (Step.stores a key) where
  aside := aside_slot a key
  performs {x t u} h hp := by
    by_cases hop : x.op = .sstore
    · simp only [slotCell, Step.stores, hop, true_and]
      exact hp.slots hop a key
    · simp only [slotCell, Step.stores, hop, false_and, if_false]
      refine h.keep (fun t u => u.ext.slotOf a key = t.ext.slotOf a key) (fun _ => rfl) (fun h h' => h'.trans h)
        fun he h => h.slot_kept (fun b k v n w hs => ?_) a key
      subst hs
      exact hop he.1
  idle x v hw := if_neg fun h => by simp [h.1, Op.writes] at hw
  read h := h.keep (fun t u => u.ext.slotOf a key = t.ext.slotOf a key) (fun _ => rfl) (fun h h' => h'.trans h)
    fun he h => h.slot_kept (fun b k v n w hs => by subst hs; cases he) a key

theorem written_transient (a : Address) (key : Word) :
    (transientCell a key).Written (T := T) (Step.storesTransient a key) where
  aside := aside_transient a key
  performs {x t u} h hp := by
    by_cases hop : x.op = .tstore
    · simp only [transientCell, Step.storesTransient, hop, true_and]
      exact hp.transient hop a key
    · simp only [transientCell, Step.storesTransient, hop, false_and, if_false]
      refine congrArg (fun m : Slots => (m.lookup (a, key)).getD 0) ?_
      refine h.keep (fun t u => u.ext.transient = t.ext.transient) (fun _ => rfl) (fun h h' => h'.trans h)
        fun he h => h.transient_kept fun b k v n hs => ?_
      subst hs
      exact hop he.1
  idle x v hw := if_neg fun h => by simp [h.1, Op.writes] at hw
  read h := by
    refine congrArg (fun m : Slots => (m.lookup (a, key)).getD 0) ?_
    exact h.keep (fun t u => u.ext.transient = t.ext.transient) (fun _ => rfl) (fun h h' => h'.trans h)
      fun he h => h.transient_kept fun b k v n hs => by subst hs; cases he

/-! ## Runs -/

section Runs

variable {C : Type} {c : Cell C} {write : C → Step T → C}

/-- The end of a frame writes nothing: kept, the cell is as the frame left it, dropped, as
    the frame found it. -/
theorem Closes.view (hc : c.Aside) {x : Step T} {inner : Inner T} {pending : Pending} {opened : Machine T} {r : Ended T}
    {u : Trail} (h : Closes x inner pending r.output { opened.trail with ext := r.machine.ext } u)
    (hr : Restores c.undo r.machine.evm.touches (c.view opened.ext) (c.view r.machine.ext)) :
    c.view u.ext = if pending.keeps r.output then c.view r.machine.ext else c.view opened.ext := by
  unfold Closes at h
  split at h
  · next hk =>
    rw [if_pos hk]
    split at h
    · rw [h]
      rfl
    · obtain ⟨mid, ⟨mid', hm, rfl⟩, rfl⟩ := h
      exact (hc.moved hm).1.trans (hc.mutate _ _ _ fun _ => rfl)
  · next hk =>
    rw [if_neg hk]
    exact (c.reverted h.ext).trans hr

omit [Crypto] in
theorem Pending.not_reverted {pending : Pending} {r : Ended T} (h : pending.keeps r.output = true) :
    r.reverted = false := by
  cases pending <;> simp_all [Pending.keeps, Ended.output, Ended.reverted]

/-- A completed frame leaves in a cell what its kept steps wrote, in order. -/
theorem Follows.written (hw : c.Written write) {sc : Scope} {h : History T} {t u : Trail} (hf : Follows sc h t u)
    (hdone : h.Completed) : c.view u.ext = h.kept.foldl write (c.view t.ext) := by
  induction hf with
  | done => rfl
  | cut => exact hdone.elim
  | @step x rest u v acts performs _ next ih =>
    simp only [History.kept, List.foldl_cons]
    by_cases hcut : rest.isCut = true
    · rw [History.Completed, if_pos hcut] at hdone
      have hnot : x.op.writes = false := by rw [hdone]; rfl
      obtain ⟨rfl, rfl⟩ := next.of_isCut hcut
      exact hw.performs (acts.mono fun _ h => h.1) (performs_of_not_writes hnot _ _)
    · have hcut : rest.isCut = false := by simpa using hcut
      rw [History.Completed, if_neg (by simp [hcut])] at hdone
      rw [ih hdone, hw.performs (acts.mono fun _ h => h.1) (performs hcut)]
  | @call x inner pending opened callee rest r w u v opens _ enters runs completed closes _ ihruns ih =>
    have hnot : x.op.writes = false := by
      cases opens with
      | message hop => revert hop; cases x.op <;> simp [Op.isMessageCall, Op.writes]
      | creation hop => rcases hop with h | h <;> rw [h] <;> rfl
    have hopened : c.view opened.ext = c.view x.before.ext :=
      (hw.performs opens.acts (performs_of_not_writes hnot _ _)).trans (hw.idle x _ hnot)
    have hr : Restores c.undo r.machine.evm.touches (c.view opened.ext) (c.view r.machine.ext) := by
      have hinner : Journaled c ⟨opened.ext, [], []⟩ r.machine.trail :=
        (enters.journaled (fun _ _ h => hw.aside.act h) (hw.aside.known _)).trans (runs.journaled_storage hw.aside)
      obtain ⟨ts, hts, hr⟩ := hinner
      rw [show r.machine.evm.touches = ts from hts]
      exact hr
    simp only [History.kept, List.foldl_cons, List.foldl_append, hw.idle x _ hnot]
    rw [ih hdone, closes.view hw.aside hr]
    by_cases hk : pending.keeps r.output = true
    · simp only [hk, if_true]
      have hcallee : c.view r.machine.ext = callee.kept.foldl write (c.view w.ext) :=
        ihruns (completed (Pending.not_reverted hk))
      rw [hcallee, hw.read enters]
      exact congrArg (fun v => rest.kept.foldl write (callee.kept.foldl write v)) hopened
    · simp only [hk, Bool.false_eq_true, if_false, List.foldl_nil]
      exact congrArg (rest.kept.foldl write) hopened

end Runs

/-! ## Frames -/

/-- The touch journals a slot. -/
def AccountTouch.isStore : AccountTouch → Bool
  | .setState .. | .setTransientState .. => true
  | _ => false

/-- What a frame starts on: no operands, and of a journal at most what `execute` writes
    before the code runs, on loaded accounts. -/
structure Starting (s : Machine T) : Prop where
  stack : s.evm.stack = []
  touches : ∀ τ ∈ s.evm.touches, τ.isStore = false
  grounded : s.trail.Grounded

variable [EventTracer T] {fuel : Nat} {sc : Scope} {s t : Machine T} {ret : Bytes}

theorem Starting.follows (hs : Starting s) (hrun : executeWithContext fuel sc s = .ok ret t) :
    ∃ w, Acts (Effect.isRead ·) s.trail w ∧ Follows sc (history fuel sc s) w t.trail :=
  run_follows (by rw [hs.stack]; exact Nat.zero_le _) hrun

/-- The undo of a frame takes a cell back to what the frame found. -/
theorem Starting.view_reverted {C : Type} {c : Cell C} (hs : Starting s) (hc : c.Aside)
    (hidle : ∀ τ : AccountTouch, τ.isStore = false → ∀ v, c.undo τ v = v)
    (hrun : executeWithContext fuel sc s = .ok ret t) {e : Ext} (he : t.evm.revert t.ext = .ok ⟨⟩ e) :
    c.view e = c.view s.ext := by
  obtain ⟨w, hw, hf⟩ := hs.follows hrun
  obtain ⟨ts, hts, hr⟩ := (hw.journaled (fun _ _ h => hc.act h) (hc.known _)).trans (hf.journaled_storage hc)
  have hts : t.evm.touches = s.evm.touches ++ ts := hts
  have hr : rollback c.undo ts (c.view t.ext) = c.view s.ext := hr
  rw [c.reverted he, hts, rollback_append, hr]
  exact rollback_idle fun τ hτ => hidle τ (hs.touches τ hτ) _

theorem Starting.view_completed {C : Type} {c : Cell C} {write : C → Step T → C} (hs : Starting s)
    (hw : c.Written write) (hrun : executeWithContext fuel sc s = .ok ret t) (hrev : t.evm.reverted = false) :
    c.view t.ext = (history fuel sc s).kept.foldl write (c.view s.ext) := by
  obtain ⟨w, hread, hf⟩ := hs.follows hrun
  have h := hf.written hw (run_completed hrun hrev)
  rw [hw.read hread] at h
  exact h

/-- Undone, a frame leaves every slot of every account as it found it; left as it is, it
    leaves what its kept steps stored, one after the other. -/
theorem storage_rollback (hs : Starting s) (hrun : executeWithContext fuel sc s = .ok ret t) :
    (∃ e, t.evm.revert t.ext = .ok ⟨⟩ e ∧ ∀ a key, (s.ext.state.lookup a).isSome →
        e.read a key = s.ext.read a key ∧ e.transientOf a key = s.ext.transientOf a key) ∧
      (t.evm.reverted = false → ∀ a key, (s.ext.state.lookup a).isSome →
        t.ext.read a key = (history fuel sc s).kept.foldl (Step.stores a key) (s.ext.read a key) ∧
        t.ext.transientOf a key =
          (history fuel sc s).kept.foldl (Step.storesTransient a key) (s.ext.transientOf a key)) := by
  obtain ⟨w, hw, hf⟩ := hs.follows hrun
  have hext : s.ext.Extends t.ext := hw.extends.trans hf.extends
  refine ⟨?_, fun hrev a key ha => ⟨?_, hs.view_completed (written_transient a key) hrun hrev⟩⟩
  · have hground : t.trail.Grounded := hf.grounded (hw.grounded hs.grounded)
    obtain ⟨e, he⟩ := hground.revert_ok
    have hback : RolledBack t.evm ⟨t.ext, [], []⟩ ⟨e, [] ++ t.evm.touches.filter (·.survivesRevert), []⟩ := ⟨he, rfl, rfl⟩
    refine ⟨e, he, fun a key ha => ⟨?_, ?_⟩⟩
    · rw [Ext.read_eq_slotOf ha, Ext.read_eq_slotOf ((hext.trans hback.extends).loaded a ha)]
      exact hs.view_reverted (aside_slot a key) (fun τ hτ v => by cases τ <;> first | rfl | cases hτ) hrun he
    · exact hs.view_reverted (aside_transient a key) (fun τ hτ v => by cases τ <;> first | rfl | cases hτ) hrun he
  · rw [Ext.read_eq_slotOf ha, Ext.read_eq_slotOf (hext.loaded a ha)]
    exact hs.view_completed (written_slot a key) hrun hrev

end

open Sample in
/-- A frame that stores 1 in its slot 0 and reverts: `PUSH1 1; PUSH0; SSTORE; PUSH0; PUSH0; REVERT`. -/
theorem storage_rollback_sstore :
    ∃ ret t, executeWithContext 10 (scope [0x60, 1, 0x5f, 0x55, 0x5f, 0x5f, 0xfd]) (machine [(0xaa, 5, [])]) = .ok ret t ∧
      t.ext.read 0xaa 0 = some 1 ∧ ∃ e, t.evm.revert t.ext = .ok ⟨⟩ e ∧ e.read 0xaa 0 = some 0 := by
  have hs : Starting (machine [(0xaa, 5, [])]) := ⟨rfl, nofun, nofun⟩
  obtain ⟨ret, t, hrun, hval⟩ := of_returns (p := fun _ t => t.ext.read 0xaa 0 == some 1)
    (r := executeWithContext 10 (scope [0x60, 1, 0x5f, 0x55, 0x5f, 0x5f, 0xfd]) (machine [(0xaa, 5, [])]))
    (by decide +kernel)
  obtain ⟨⟨e, he, hread⟩, -⟩ := storage_rollback hs hrun
  refine ⟨ret, t, hrun, by simpa using hval, e, he, ?_⟩
  rw [(hread 0xaa 0 (by decide +kernel)).1]
  decide +kernel

end Solenoid
