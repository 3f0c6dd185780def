/-
  ReadThrough — a store that is filled by what it could not answer.

  A request is read from the store; when the store has no answer it is fetched, and what
  came fills the store. The store is transparent when no run tells it from fetching.
  - `transparent_iff`: it is, if and only if no store that the requests reach answers
    one of them otherwise than fetching does.
-/
import Mathlib.Data.Set.Defs

/-- How a store `σ` answers requests: `none` is no answer. -/
structure ReadThrough (ρ α σ : Type) where
  read : ρ → σ → Option α
  fetch : ρ → Option α
  fill : ρ → σ → σ

namespace ReadThrough

variable {ρ α σ : Type} (P : ReadThrough ρ α σ)

def serve (r : ρ) (s : σ) : Option α × σ :=
  match P.read r s with
  | some a => (some a, s)
  | none => (P.fetch r, P.fill r s)

/-- The answers to a run of requests. -/
def answers : List ρ → σ → List (Option α)
  | [], _ => []
  | r :: run, s => (P.serve r s).1 :: answers run (P.serve r s).2

/-- The store after a run. -/
def after : List ρ → σ → σ
  | [], s => s
  | r :: run, s => after run (P.serve r s).2

/-- Every request of the run gets what fetching it gives. -/
def Transparent (run : List ρ) (s : σ) : Prop := P.answers run s = run.map P.fetch

/-- The stores that requests of `S` make of `s₀`. -/
inductive Reach (S : Set ρ) (s₀ : σ) : σ → Prop
  | start : Reach S s₀ s₀
  | fill {s : σ} {r : ρ} (reach : Reach S s₀ s) (mem : r ∈ S) (missed : P.read r s = none) : Reach S s₀ (P.fill r s)

/-- What the store answers is what fetching gives. -/
def Agrees (S : Set ρ) (s : σ) : Prop := ∀ r ∈ S, ∀ a, P.read r s = some a → P.fetch r = some a

variable {P} {S : Set ρ} {s s₀ : σ} {r : ρ}

theorem serve_hit {a : α} (h : P.read r s = some a) : P.serve r s = (some a, s) := by
  rw [serve, h]

theorem serve_miss (h : P.read r s = none) : P.serve r s = (P.fetch r, P.fill r s) := by
  rw [serve, h]

theorem Agrees.serve (h : P.Agrees S s) (hr : r ∈ S) : (P.serve r s).1 = P.fetch r := by
  cases hread : P.read r s with
  | none => rw [serve_miss hread]
  | some a => rw [serve_hit hread, h r hr a hread]

theorem Reach.serve (h : P.Reach S s₀ s) (hr : r ∈ S) : P.Reach S s₀ (P.serve r s).2 := by
  cases hread : P.read r s with
  | none =>
    rw [serve_miss hread]
    exact h.fill hr hread
  | some a => rwa [serve_hit hread]

/-- A property of the store that filling keeps holds of every store that is reached. -/
theorem Reach.induct {I : σ → Prop} (h : P.Reach S s₀ s) (start : I s₀)
    (fill : ∀ s r, I s → r ∈ S → P.read r s = none → I (P.fill r s)) : I s := by
  induction h with
  | start => exact start
  | fill _ hr hmissed ih => exact fill _ _ ih hr hmissed

theorem transparent_cons {run : List ρ} :
    P.Transparent (r :: run) s ↔ (P.serve r s).1 = P.fetch r ∧ P.Transparent run (P.serve r s).2 := by
  unfold Transparent
  rw [answers, List.map_cons, List.cons.injEq]

theorem transparent_append {run run' : List ρ} :
    P.Transparent (run ++ run') s ↔ P.Transparent run s ∧ P.Transparent run' (P.after run s) := by
  induction run generalizing s with
  | nil => simp [Transparent, answers, after]
  | cons r run ih => rw [List.cons_append, transparent_cons, transparent_cons, ih, after, and_assoc]

/-- Every store that is reached is reached by a run. -/
theorem Reach.run (h : P.Reach S s₀ s) : ∃ run, (∀ r ∈ run, r ∈ S) ∧ P.after run s₀ = s := by
  induction h with
  | start => exact ⟨[], nofun, rfl⟩
  | @fill s r _ hr hmissed ih =>
    obtain ⟨run, hrun, hafter⟩ := ih
    refine ⟨run ++ [r], fun r' hr' => ?_, ?_⟩
    · rcases List.mem_append.1 hr' with hr' | hr'
      · exact hrun r' hr'
      · rw [List.mem_singleton.1 hr']
        exact hr
    · have happend : ∀ (l : List ρ) (t : σ), P.after (l ++ [r]) t = (P.serve r (P.after l t)).2 := by
        intro l
        induction l with
        | nil => exact fun _ => rfl
        | cons r' l ih => exact fun t => ih _
      rw [happend, hafter, serve_miss hmissed]

/-- A store is transparent to the requests of `S` if and only if every store they make of it
    agrees with fetching. -/
theorem transparent_iff : (∀ run, (∀ r ∈ run, r ∈ S) → P.Transparent run s₀) ↔ ∀ s, P.Reach S s₀ s → P.Agrees S s := by
  constructor
  · intro h s hs r hr a ha
    obtain ⟨run, hrun, rfl⟩ := hs.run
    have hall : ∀ r' ∈ run ++ [r], r' ∈ S := fun r' hr' => by
      rcases List.mem_append.1 hr' with hr' | hr'
      · exact hrun r' hr'
      · rw [List.mem_singleton.1 hr']
        exact hr
    have hlast := (transparent_cons.1 (transparent_append.1 (h _ hall)).2).1
    rw [serve_hit ha] at hlast
    exact hlast.symm
  · intro h run
    suffices hs : ∀ s, P.Reach S s₀ s → (∀ r ∈ run, r ∈ S) → P.Transparent run s from hs s₀ .start
    induction run with
    | nil => exact fun _ _ _ => rfl
    | cons r run ih =>
      intro s hs hrun
      have hr := hrun r (List.mem_cons_self ..)
      exact transparent_cons.2 ⟨(h s hs).serve hr, ih _ (hs.serve hr) fun r' hr' => hrun r' (List.mem_cons_of_mem _ hr')⟩

end ReadThrough
