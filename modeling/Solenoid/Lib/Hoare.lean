/-
  Hoare — weakest preconditions for computations with a state and errors (`EStateM`), and
  the computations that keep a relation between their start and their end.

  `wp m Q E s` holds when `m` from `s` returns in `Q` or fails in `E`; it commutes with the
  monad's operations (`wp_bind` and its kin, all simp lemmas), so a program's wp computes.
  A `Frame` is a reflexive and transitive relation between states with what it leaves of a
  failure; `Keeps F m` says every run of `m` stays in `F`, and `Keeps.bind` composes.
-/
import Mathlib.Logic.Basic

namespace Hoare

variable {ε σ α β : Type}

/-! ## Weakest preconditions -/

def wp (m : EStateM ε σ α) (Q : α → σ → Prop) (E : ε → σ → Prop) (s : σ) : Prop :=
  match m s with
  | .ok a t => Q a t
  | .error e t => E e t

variable {m : EStateM ε σ α} {Q : α → σ → Prop} {E : ε → σ → Prop} {s t : σ}

/-- A run that cannot fail returns. -/
theorem exists_ok (hm : wp m Q (fun _ _ => False) s) : ∃ a t, m s = .ok a t ∧ Q a t := by
  unfold wp at hm
  cases h : m s with
  | ok a t => exact ⟨a, t, rfl, by simpa [h] using hm⟩
  | error e t => simp [h] at hm

/-- `wp` by the run itself. -/
theorem wp_def : wp m Q E s ↔ (∀ a t, m s = .ok a t → Q a t) ∧ ∀ e t, m s = .error e t → E e t := by
  unfold wp
  cases m s <;> simp

theorem wp_of_ok {a : α} (h : m s = .ok a t) : wp m Q E s ↔ Q a t := by simp only [wp, h]

theorem wp_of_error {e : ε} (h : m s = .error e t) : wp m Q E s ↔ E e t := by simp only [wp, h]

theorem of_ok {a : α} (hm : wp m Q (fun _ _ => True) s) (h : m s = .ok a t) : Q a t := (wp_of_ok h).1 hm

theorem of_error {e : ε} (hm : wp m (fun _ _ => True) E s) (h : m s = .error e t) : E e t := (wp_of_error h).1 hm

@[simp] theorem wp_pure (a : α) : wp (pure a) Q E s ↔ Q a s := Iff.rfl

@[simp] theorem wp_throw (e : ε) : wp (throw e : EStateM ε σ α) Q E s ↔ E e s := Iff.rfl

@[simp] theorem wp_get {Q : σ → σ → Prop} : wp (get : EStateM ε σ σ) Q E s ↔ Q s s := Iff.rfl

@[simp] theorem wp_estate_get {Q : σ → σ → Prop} : wp (EStateM.get : EStateM ε σ σ) Q E s ↔ Q s s := Iff.rfl

@[simp] theorem wp_set {Q : PUnit → σ → Prop} : wp (set t : EStateM ε σ PUnit) Q E s ↔ Q ⟨⟩ t := Iff.rfl

@[simp] theorem wp_modify (f : σ → σ) {Q : PUnit → σ → Prop} :
    wp (modify f : EStateM ε σ PUnit) Q E s ↔ Q ⟨⟩ (f s) := Iff.rfl

@[simp] theorem wp_bind (f : α → EStateM ε σ β) {Q : β → σ → Prop} :
    wp (m >>= f) Q E s ↔ wp m (fun a => wp (f a) Q E) E s := by
  simp only [wp, bind, EStateM.bind]
  cases m s <;> rfl

/-- `EStateM.get` where the binds are unfolded. -/
theorem run_get : (EStateM.get : EStateM ε σ σ) s = .ok s s := rfl

theorem get_bind (f : σ → EStateM ε σ α) : (get >>= f) s = f s s := rfl

theorem estate_get_bind (f : σ → EStateM ε σ α) : (EStateM.get >>= f) s = f s s := rfl

theorem modify_bind (g : σ → σ) (f : PUnit → EStateM ε σ α) : (modify g >>= f) s = f ⟨⟩ (g s) := rfl

theorem ok_bind {a : α} (h : m s = .ok a t) (f : α → EStateM ε σ β) : (m >>= f) s = f a t := by
  simp only [bind, EStateM.bind, h]

/-- What comes first may be anything. -/
theorem wp_then {f : α → EStateM ε σ β} {Q : β → σ → Prop} (h : ∀ a t, wp (f a) Q (fun _ _ => True) t) :
    wp (m >>= f) Q (fun _ _ => True) s :=
  (wp_bind f).2 (wp_def.2 ⟨fun a t _ => h a t, fun _ _ _ => trivial⟩)

/-- A run of two parts. -/
theorem bind_ok {f : α → EStateM ε σ β} {b : β} {u : σ} (h : (m >>= f) s = .ok b u) :
    ∃ a t, m s = .ok a t ∧ f a t = .ok b u := by
  simp only [bind, EStateM.bind] at h
  cases hm : m s with
  | ok a t => exact ⟨a, t, rfl, by simpa only [hm] using h⟩
  | error e t => simp [hm] at h

/-- A run of two parts that fails, in the first or in the second. -/
theorem bind_error {f : α → EStateM ε σ β} {e : ε} {u : σ} (h : (m >>= f) s = .error e u) :
    m s = .error e u ∨ ∃ a t, m s = .ok a t ∧ f a t = .error e u := by
  simp only [bind, EStateM.bind] at h
  cases hm : m s with
  | ok a t => exact .inr ⟨a, t, rfl, by simpa only [hm] using h⟩
  | error e' t =>
    simp only [hm] at h
    cases h
    exact .inl rfl

/-- Runs of two parts that go the same way. -/
theorem bind_congr {m' : EStateM ε σ α} {f f' : α → EStateM ε σ β} (h : m s = m' s)
    (hf : ∀ a t, m s = .ok a t → f a t = f' a t) : (m >>= f) s = (m' >>= f') s := by
  simp only [bind, EStateM.bind, ← h]
  cases hm : m s with
  | ok a t => exact hf a t hm
  | error e t => rfl

@[simp] theorem wp_map (f : α → β) {Q : β → σ → Prop} :
    wp (f <$> m) Q E s ↔ wp m (fun a => Q (f a)) E s := by
  simp only [wp, Functor.map, EStateM.map]
  cases m s <;> rfl

@[simp] theorem wp_ite {c : Prop} [Decidable c] {m' : EStateM ε σ α} :
    wp (if c then m else m') Q E s ↔ (c → wp m Q E s) ∧ (¬c → wp m' Q E s) := by
  by_cases h : c <;> simp [h]

theorem wp.ok (hm : wp m Q E s) : wp m Q (fun _ _ => True) s := by
  unfold wp at *
  cases h : m s with
  | ok a t => simpa [h] using hm
  | error e t => trivial

theorem wp.error (hm : wp m Q E s) : wp m (fun _ _ => True) E s := by
  unfold wp at *
  cases h : m s with
  | ok a t => trivial
  | error e t => simpa [h] using hm

theorem wp_mono {Q' : α → σ → Prop} {E' : ε → σ → Prop} (hm : wp m Q E s) (hQ : ∀ a t, Q a t → Q' a t)
    (hE : ∀ e t, E e t → E' e t) : wp m Q' E' s := by
  unfold wp at *
  cases h : m s with
  | ok a t => exact hQ a t (by simpa [h] using hm)
  | error e t => exact hE e t (by simpa [h] using hm)

theorem wp_and {Q' : α → σ → Prop} {E' : ε → σ → Prop} (hm : wp m Q E s) (hm' : wp m Q' E' s) :
    wp m (fun a t => Q a t ∧ Q' a t) (fun e t => E e t ∧ E' e t) s := by
  unfold wp at *
  cases h : m s with
  | ok a t => exact ⟨by simpa [h] using hm, by simpa [h] using hm'⟩
  | error e t => exact ⟨by simpa [h] using hm, by simpa [h] using hm'⟩

-- a run is never unfolded to check a type
attribute [irreducible] wp

/-! ## Frames -/

structure Frame (ε σ : Type) where
  ok : σ → σ → Prop
  err : ε → σ → σ → Prop
  refl : ∀ s, ok s s
  trans : ∀ {s t u}, ok s t → ok t u → ok s u
  fail : ∀ {e s t u}, ok s t → err e t u → err e s u

def Keeps (F : Frame ε σ) (m : EStateM ε σ α) : Prop := ∀ s, wp m (fun _ => F.ok s) (fun e => F.err e s) s

namespace Keeps

variable {F G : Frame ε σ} {m' : EStateM ε σ α}

theorem ok {a : α} (h : Keeps F m) (hs : m s = .ok a t) : F.ok s t := (wp_of_ok hs).1 (h s)

theorem error {e : ε} (h : Keeps F m) (hs : m s = .error e t) : F.err e s t := (wp_of_error hs).1 (h s)

theorem pure (a : α) : Keeps F (pure a) := fun s => (wp_pure a).2 (F.refl s)

theorem throw {e : ε} (h : ∀ s, F.err e s s) : Keeps F (throw e : EStateM ε σ α) := fun s => (wp_throw e).2 (h s)

theorem get : Keeps F (get : EStateM ε σ σ) := fun s => wp_get.2 (F.refl s)

theorem modify {f : σ → σ} (h : ∀ s, F.ok s (f s)) : Keeps F (modify f) := fun s => (wp_modify f).2 (h s)

theorem bind {f : α → EStateM ε σ β} (hm : Keeps F m) (hf : ∀ a, Keeps F (f a)) : Keeps F (m >>= f) := fun s =>
  (wp_bind f).2 <| wp_mono (hm s)
    (fun a t hst => wp_mono (hf a t) (fun _ _ htu => F.trans hst htu) fun _ _ htu => F.fail hst htu)
    fun _ _ he => he

theorem ite {c : Prop} [Decidable c] (h : c → Keeps F m) (h' : ¬c → Keeps F m') :
    Keeps F (if c then m else m') := by
  by_cases hc : c
  · simpa only [hc, if_true] using h hc
  · simpa only [hc, if_false] using h' hc

theorem mono (h : Keeps F m) (hok : ∀ {s t}, F.ok s t → G.ok s t) (herr : ∀ {e s t}, F.err e s t → G.err e s t) :
    Keeps G m := fun s => wp_mono (h s) (fun _ _ => hok) fun _ _ => herr

theorem forM {γ : Type} {f : γ → EStateM ε σ PUnit} : ∀ l : List γ, (∀ a ∈ l, Keeps F (f a)) → Keeps F (l.forM f)
  | [], _ => pure ()
  | a :: l, h => (h a List.mem_cons_self).bind fun _ => forM l fun b hb => h b (List.mem_cons_of_mem _ hb)

/-- A run that keeps a frame, with what it returned. -/
theorem run {Q : α → σ → Prop} {E : ε → σ → Prop} (hm : Keeps F m) (hE : ∀ e t, F.err e s t → E e t)
    (hQ : ∀ a t, m s = .ok a t → F.ok s t → Q a t) : wp m Q E s :=
  wp_def.2 ⟨fun a t h => hQ a t h (hm.ok h), fun e t h => hE e t (hm.error h)⟩

/-- The same for the first part of a program. -/
theorem step {f : α → EStateM ε σ β} {Q : β → σ → Prop} {E : ε → σ → Prop} (hm : Keeps F m)
    (hE : ∀ e t, F.err e s t → E e t) (hf : ∀ a t, m s = .ok a t → F.ok s t → wp (f a) Q E t) :
    wp (m >>= f) Q E s := (wp_bind f).2 (hm.run hE hf)

end Keeps

end Hoare
