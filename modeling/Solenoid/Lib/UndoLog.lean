/-
  UndoLog — logs of undo entries over an arbitrary state.

  `rollback undo log` undoes the entries of `log`, the last first. A log `Restores` a state
  `c` from `c'` when rolling it back from `c'` gives `c`: the empty log restores where
  nothing changed, and logs compose (`Restores.append`). `rollback_map` and `rollback_run`
  follow a part of the state through an undo of the whole. Over an ordered state a log may
  `Accumulate`: the state grew by what the log takes away again.
-/
import Mathlib.Data.List.Basic
import Mathlib.Order.Basic

namespace UndoLog

variable {E C D : Type}

def rollback (undo : E → C → C) (log : List E) (c : C) : C := log.foldr undo c

variable {undo : E → C → C}

@[simp] theorem rollback_nil (c : C) : rollback undo [] c = c := rfl

@[simp] theorem rollback_cons (e : E) (log : List E) (c : C) :
    rollback undo (e :: log) c = undo e (rollback undo log c) := rfl

@[simp] theorem rollback_append (log log' : List E) (c : C) :
    rollback undo (log ++ log') c = rollback undo log (rollback undo log' c) := List.foldr_append

/-- Entries that undo nothing of `c`. -/
theorem rollback_idle {log : List E} {c : C} (h : ∀ e ∈ log, undo e c = c) : rollback undo log c = c := by
  induction log with
  | nil => rfl
  | cons e log ih =>
    rw [rollback_cons, ih fun e' he' => h e' (List.mem_cons_of_mem _ he'), h e List.mem_cons_self]

/-- Undone entry by entry, a part of the state is undone by itself. -/
theorem rollback_map {undo' : E → D → D} {f : D → C} (h : ∀ e d, undo e (f d) = f (undo' e d)) (log : List E) (d : D) :
    rollback undo log (f d) = f (rollback undo' log d) := by
  induction log with
  | nil => rfl
  | cons e log ih => rw [rollback_cons, ih, h, rollback_cons]

/-- A program that undoes the entries one by one, the last first, rolls back every view
    `f` of the state that each of its steps undoes. -/
theorem rollback_run {ε : Type} {run : E → EStateM ε D PUnit} {f : D → C}
    (hf : ∀ e d d', run e d = .ok ⟨⟩ d' → f d' = undo e (f d)) (log : List E) :
    ∀ {d d' : D}, log.reverse.forM run d = .ok ⟨⟩ d' → f d' = rollback undo log (f d) := by
  have hrun : ∀ (l : List E) {d d' : D}, l.forM run d = .ok ⟨⟩ d' → f d' = l.foldl (fun c e => undo e c) (f d) := by
    intro l
    induction l with
    | nil =>
      intro d d' h
      cases h
      rfl
    | cons e l ih =>
      intro d d' h
      have h : (run e >>= fun _ => l.forM run) d = .ok ⟨⟩ d' := h
      simp only [bind, EStateM.bind] at h
      cases he : run e d with
      | ok _ d₁ =>
        rw [he] at h
        rw [ih h, List.foldl_cons, hf e d d₁ he]
      | error _ _ =>
        rw [he] at h
        cases h
  intro d d' h
  rw [hrun _ h, List.foldl_reverse]
  rfl

/-- Rolling `log` back from `c'` gives `c`. -/
def Restores (undo : E → C → C) (log : List E) (c c' : C) : Prop := rollback undo log c' = c

namespace Restores

variable {log log' : List E} {c c' c'' : C}

theorem refl (c : C) : Restores undo [] c c := rfl

theorem append (h : Restores undo log c c') (h' : Restores undo log' c' c'') : Restores undo (log ++ log') c c'' := by
  unfold Restores at *
  rw [rollback_append, h', h]

/-- The entry of one write. -/
theorem single {e : E} (h : undo e c' = c) : Restores undo [e] c c' := h

theorem idle (h : ∀ e ∈ log, undo e c = c) : Restores undo log c c := rollback_idle h

end Restores

/-! ## States that grow -/

/-- The state grew from `c` to `c'`, and the log has an entry for what it grew by. -/
structure Accumulates [LE C] (undo : E → C → C) (log : List E) (c c' : C) : Prop where
  restores : Restores undo log c c'
  grows : c ≤ c'
  fresh : ∀ e ∈ log, undo e c = c

namespace Accumulates

variable [Preorder C] {log log' : List E} {c c' c'' : C}

theorem refl (c : C) : Accumulates undo [] c c := ⟨.refl c, le_rfl, fun _ h => (List.not_mem_nil h).elim⟩

/-- What undoes nothing of a state undoes nothing of a smaller one. -/
def Downward (undo : E → C → C) : Prop := ∀ e c c', c ≤ c' → undo e c' = c' → undo e c = c

theorem append (hd : Downward undo) (h : Accumulates undo log c c') (h' : Accumulates undo log' c' c'') :
    Accumulates undo (log ++ log') c c'' := by
  refine ⟨h.restores.append h'.restores, h.grows.trans h'.grows, fun e he => ?_⟩
  rcases List.mem_append.1 he with he | he
  · exact h.fresh e he
  · exact hd e c c' h.grows (h'.fresh e he)

/-- Entries kept of a log that was rolled back undo nothing any more. -/
theorem remains (h : Accumulates undo log c c') (hsub : log' ⊆ log) : Accumulates undo log' c c :=
  ⟨.idle fun e he => h.fresh e (hsub he), le_rfl, fun e he => h.fresh e (hsub he)⟩

end Accumulates

end UndoLog
