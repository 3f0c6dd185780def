/-
  Solenoid.Balances — the balance of an account, whether or not it is loaded, and the journal.

  A touch of a balance or a creation notes the balance that its undo writes back, so a journal
  leads back to the first balance it notes (`revert_balanceOf`). Between two points of a run that
  is the balance of the first, but for what was moved to it before with no touch (`Accounted`):
  by SELFDESTRUCT, or by the init code of a creation that has its touches before it
  (`History.drift`).
-/
import Solenoid.Creations

namespace Solenoid

open Hoare UndoLog

section

variable {T : Type} [Crypto]

/-! ## Balances -/

/-- The balance after a transfer of `v` from `src` to `dst`. -/
def Ext.shifted (e : Ext) (src dst : Address) (v : Word) (a : Address) : Option Word :=
  (e.balanceOf a).map fun b => if a = src then b - v else if a = dst then b + v else b

theorem Ext.get_loads {e e' : Ext} {b : Address} {key val : Word} (h : Ext.get b key e = .ok val e') :
    (e'.state.lookup b).isSome := by
  obtain ⟨account, e₁, hp, hg⟩ := Ext.got h
  exact hg.extends.loaded b (by rw [(Ext.pulled hp).lookup]; rfl)

/-- A write of anything else keeps the balances. -/
theorem Ext.balanceOf_mutate {e : Ext} {b : Address} {f : Account → Account} (hf : ∀ x, (f x).value = x.value)
    (hl : (e.state.lookup b).isSome) (a : Address) : (e.mutate b f).balanceOf a = e.balanceOf a := by
  rw [balanceOf, account?_mutate _ hl]
  split
  · next h =>
    rw [h, Option.map_map, balanceOf]
    exact congrArg (Option.map · _) (funext hf)
  · rfl

theorem Ext.balanceOf_written {e : Ext} {b : Address} (hl : (e.state.lookup b).isSome) (key new : Word) (a : Address) :
    (e.written b key new).balanceOf a = e.balanceOf a := by
  obtain ⟨account, hb⟩ := Option.isSome_iff_exists.1 hl
  have hlookup : (e.written b key new).state.lookup a = _ := lookup_insertSlot e b key new a
  by_cases hab : a = b
  · rw [if_pos hab, orDefault_of_lookup hb] at hlookup
    rw [balanceOf_loaded hlookup, hab, balanceOf_loaded hb]
  · rw [if_neg hab] at hlookup
    unfold balanceOf account?
    rw [hlookup]
    rfl

/-- Reads change no answer. -/
theorem Act.account?_kept {γ : Type} {f : Account → γ} (hf : ∀ (x : Account) (s : Storage), f { x with state := s } = f x)
    {e : Effect} {t u : Trail} (he : e.isRead) (h : Act e t u) (a : Address) :
    (u.ext.account? a).map f = (t.ext.account? a).map f := by
  cases h with
  | warmAddress | warmStorage | note => rfl
  | load h => rw [Ext.account?_pull h]
  | fetch h => exact Ext.account?_get hf h
  | _ => cases he

theorem Acts.account?_kept {γ : Type} {f : Account → γ} (hf : ∀ (x : Account) (s : Storage), f { x with state := s } = f x)
    {t u : Trail} (h : Acts (Effect.isRead ·) t u) (a : Address) :
    (u.ext.account? a).map f = (t.ext.account? a).map f :=
  h.keep (fun t u => (u.ext.account? a).map f = (t.ext.account? a).map f) (fun _ => rfl) (fun h h' => h'.trans h)
    fun he h => h.account?_kept hf he a

theorem Acts.balanceOf_kept {t u : Trail} (h : Acts (Effect.isRead ·) t u) (a : Address) :
    u.ext.balanceOf a = t.ext.balanceOf a := h.account?_kept (fun _ _ => rfl) a

theorem Acts.funds_kept {t u : Trail} (h : Acts (Effect.isRead ·) t u) (a : Address) : u.ext.funds a = t.ext.funds a := by
  rw [Ext.funds, h.balanceOf_kept, Ext.funds]

theorem Act.shifted {src dst : Address} {v : Word} {t u : Trail} (h : Act (.transfer src dst v) t u) (hne : src ≠ dst)
    (a : Address) : u.ext.balanceOf a = t.ext.shifted src dst v a := by
  cases h with
  | @transfer _ _ _ _ x y hs hd =>
    have hsrc : (t.ext.state.lookup src).isSome := by rw [hs]; rfl
    have hdst : ((t.ext.setValue src (x.value - v)).state.lookup dst).isSome := by
      rw [Ext.setValue, Ext.isSome_lookup_mutate, hd]
      rfl
    rw [Ext.balanceOf_setValue hdst, Ext.balanceOf_setValue hsrc, Ext.shifted]
    by_cases has : a = src
    · subst has
      rw [if_neg hne, if_pos rfl, Ext.balanceOf_loaded hs]
      simp
    · by_cases had : a = dst
      · subst had
        rw [if_pos rfl, Ext.balanceOf_loaded hd]
        simp [has]
      · simp [has, had]

theorem Ext.balanceOf_eq_valueOf {e : Ext} {a : Address} (h : (e.state.lookup a).isSome) :
    e.balanceOf a = some (e.valueOf a) := by
  obtain ⟨account, hl⟩ := Option.isSome_iff_exists.1 h
  rw [balanceOf_loaded hl, valueOf_of_lookup hl]

/-! ## The balance a journal leads back to -/

namespace AccountTouch

/-- The balance of `a` that the undo of a touch writes back. -/
def noted (a : Address) : AccountTouch → Option Word
  | .setValue b val _ => if b = a then some val else none
  | .create b .. => if b = a then some 0 else none
  | _ => none

/-- The account whose slot a touch is of. -/
def slotted : AccountTouch → Option Address
  | .setState a .. => some a
  | _ => none

omit [Crypto] in
theorem slotted_subject {τ : AccountTouch} {a : Address} (h : τ.slotted = some a) : τ.subject = some a := by
  cases τ <;> first | exact h | cases h

omit [Crypto] in
theorem named_of_noted {τ : AccountTouch} {a : Address} {v : Word} (h : τ.noted a = some v) : τ.named = some a := by
  cases τ with
  | setValue b | create b =>
    simp only [noted] at h
    split at h
    · next hb => exact congrArg some hb
    · cases h
  | _ => cases h

omit [Crypto] in
theorem created_subject {τ : AccountTouch} {a : Address} (h : τ.created? = some a) : τ.subject = some a := by
  cases τ <;> first | exact h | cases h

omit [Crypto] in
theorem created_of_survivor {τ : AccountTouch} {a : Address} (hτ : τ.survivesRevert = true) (h : τ.subject = some a) :
    τ.created? = some a := by
  cases τ with
  | create => exact h
  | setState | setNonce | setValue => cases hτ
  | _ => cases h

end AccountTouch

omit [Crypto] in
theorem undo_noted (a : Address) (τ : AccountTouch) (v : Word) : Field.balance.undo a τ v = (τ.noted a).getD v := by
  cases τ with
  | setValue b | create b =>
    simp only [Field.balance, AccountTouch.noted]
    split <;> rfl
  | _ => rfl

omit [Crypto] in
/-- The last entry undone is the first that notes the balance. -/
theorem rollback_noted (a : Address) (touches : List AccountTouch) (v : Word) :
    rollback (Field.balance.undo a) touches v = (touches.findSome? (·.noted a)).getD v := by
  induction touches with
  | nil => rfl
  | cons τ touches ih =>
    rw [rollback_cons, undo_noted, ih, List.findSome?_cons]
    cases τ.noted a <;> rfl

omit [Crypto] in
/-- An account that is not loaded stays so, and the journal has nothing of its balance. -/
theorem undo_unloaded {a : Address} {l : List AccountTouch} (hslots : ∀ τ ∈ l, τ.slotted ≠ some a) {e e' : Ext}
    (h : l.forM Evm.revertTouch e = .ok ⟨⟩ e') (hnone : e.state.lookup a = none) :
    e'.state.lookup a = none ∧ e'.remote = e.remote ∧ ∀ τ ∈ l, τ.noted a = none := by
  induction l generalizing e with
  | nil =>
    cases h
    exact ⟨hnone, rfl, fun _ h => (List.not_mem_nil h).elim⟩
  | cons τ l ih =>
    obtain ⟨_, e₁, hτ, hl⟩ := bind_ok (show (Evm.revertTouch τ >>= fun _ => l.forM Evm.revertTouch) e = _ from h)
    obtain ⟨rfl, hn⟩ := AccountTouch.revertTouch_ok hτ
    have hnamed : τ.named ≠ some a := fun hname => by
      have := hn a hname
      rw [hnone] at this
      cases this
    have hkept : (τ.undone e).state.lookup a = none := by
      have hslot := hslots τ List.mem_cons_self
      cases τ with
      | setState b key val new isWarm =>
        have hb : a ≠ b := fun hb => hslot (congrArg some hb.symm)
        cases isWarm <;> exact (Ext.lookup_insertSlot e b key val a).trans ((if_neg hb).trans hnone)
      | getState b key val isWarm => cases isWarm <;> exact hnone
      | setNonce b | setValue b | create b =>
        have hb : a ≠ b := fun hb => hnamed (congrArg some hb.symm)
        exact (Ext.lookup_mutate_ne e _ hb).trans hnone
      | _ => exact hnone
    obtain ⟨hlookup, hremote, hnoted⟩ := ih (fun τ' hτ' => hslots τ' (List.mem_cons_of_mem _ hτ')) hl hkept
    refine ⟨hlookup, hremote.trans (τ.extends_undone e).remote, fun τ' hτ' => ?_⟩
    rcases List.mem_cons.1 hτ' with rfl | hτ'
    · cases hnote : τ'.noted a with
      | none => rfl
      | some v => exact absurd (AccountTouch.named_of_noted hnote) hnamed
    · exact hnoted τ' hτ'

/-- What an undone journal leaves of a balance. -/
theorem revert_balanceOf {evm : Evm} {e e' : Ext} {a : Address} (h : evm.revert e = .ok ⟨⟩ e')
    (hslots : ∀ τ ∈ evm.touches, τ.slotted = some a → (e.state.lookup a).isSome) :
    e'.balanceOf a = (evm.touches.findSome? (·.noted a)).or (e.balanceOf a) := by
  cases hl : e.state.lookup a with
  | none =>
    have hslots : ∀ τ ∈ evm.touches.reverse, τ.slotted ≠ some a := fun τ hτ hs => by
      have := hslots τ (List.mem_reverse.1 hτ) hs
      rw [hl] at this
      cases this
    obtain ⟨hlookup, hremote, hnoted⟩ := undo_unloaded hslots h hl
    have hnone : evm.touches.findSome? (·.noted a) = none :=
      List.findSome?_eq_none_iff.2 fun τ hτ => hnoted τ (List.mem_reverse.2 hτ)
    rw [hnone, Option.none_or, Ext.balanceOf, Ext.balanceOf, Ext.account?, hlookup, hremote, Ext.account?, hl]
  | some account =>
    obtain ⟨account', hl'⟩ := Option.isSome_iff_exists.1 ((revert_extends h).loaded a (by rw [hl]; rfl))
    have hrollback := (Field.balance.cell a).reverted h
    change (e'.orDefault a).value = rollback (Field.balance.undo a) evm.touches (e.orDefault a).value at hrollback
    rw [rollback_noted, Ext.orDefault_of_lookup hl, Ext.orDefault_of_lookup hl'] at hrollback
    rw [Ext.balanceOf_loaded hl, Ext.balanceOf_loaded hl', hrollback]
    cases evm.touches.findSome? (·.noted a) <;> rfl

/-! ## What a run leads back -/

/-- The touches `ts` between `t` and `u` lead the balance of `a` back to that of `t`, but for the
    `d` that was moved to it with no touch, and their undo gives `a` no entry. -/
structure Accounted (a : Address) (d : Int) (t u : Trail) (ts : List AccountTouch) : Prop where
  grows : t.ext.Extends u.ext
  touches : u.touches = t.touches ++ ts
  loaded : ∀ τ ∈ ts, τ.subject = some a → (u.ext.state.lookup a).isSome
  uncreated : ∀ τ ∈ ts, τ.created? ≠ some a
  balance : Drifts d (t.ext.balanceOf a) ((ts.findSome? (·.noted a)).or (u.ext.balanceOf a))

namespace Accounted

variable {a : Address} {d d' : Int} {t u v : Trail} {ts ts' : List AccountTouch}

theorem refl (a : Address) (t : Trail) : Accounted a 0 t t [] :=
  ⟨.refl _, (List.append_nil _).symm, by simp, by simp, .refl _⟩

/-- What is moved after the balance was noted does not count. -/
theorem trans (h : Accounted a d t u ts) (h' : Accounted a d' u v ts') :
    Accounted a (if (ts.findSome? (·.noted a)).isSome then d else d + d') t v (ts ++ ts') := by
  refine ⟨h.grows.trans h'.grows, ?_, fun τ hτ hs => ?_, fun τ hτ => ?_, ?_⟩
  · rw [h'.touches, h.touches, List.append_assoc]
  · rcases List.mem_append.1 hτ with hτ | hτ
    · exact h'.grows.loaded a (h.loaded τ hτ hs)
    · exact h'.loaded τ hτ hs
  · rcases List.mem_append.1 hτ with hτ | hτ
    · exact h.uncreated τ hτ
    · exact h'.uncreated τ hτ
  · have hbalance := h.balance
    rw [List.findSome?_append, Option.or_assoc]
    cases hnoted : ts.findSome? (·.noted a) with
    | some v =>
      rw [hnoted] at hbalance
      exact hbalance
    | none =>
      rw [hnoted, Option.none_or] at hbalance
      exact hbalance.trans h'.balance

end Accounted

/-- The touches from `t` to `u` lead the balance of `a` back, but for `d`, and note it just when
    `p` holds. -/
def Led (a : Address) (p : Prop) (d : Int) (t u : Trail) : Prop :=
  ∃ ts, Accounted a d t u ts ∧ ((ts.findSome? (·.noted a)).isSome ↔ p)

namespace Led

variable {a : Address} {p q : Prop} {d d' : Int} {t u v : Trail} {ts : List AccountTouch}

theorem refl (a : Address) (t : Trail) : Led a False 0 t t := ⟨[], .refl a t, by simp⟩

theorem trans [Decidable p] (h : Led a p d t u) (h' : Led a q d' u v) :
    Led a (p ∨ q) (if p then d else d + d') t v := by
  obtain ⟨ts, hts, hp⟩ := h
  obtain ⟨ts', hts', hq⟩ := h'
  refine ⟨ts ++ ts', ?_, ?_⟩
  · have hboth := hts.trans hts'
    simpa only [hp] using hboth
  · rw [List.findSome?_append, Option.isSome_or, Bool.or_eq_true, hp, hq]

theorem congr (h : Led a p d t u) (hpq : p ↔ q) (hd : d = d') : Led a q d' t u := by
  obtain ⟨ts, hts, hp⟩ := h
  subst hd
  exact ⟨ts, hts, hp.trans hpq⟩

/-- What moved, and then what led back. -/
theorem after (h : Led a False d t u) (h' : Led a p d' u v) : Led a p (d + d') t v :=
  (h.trans h').congr (iff_of_eq (false_or p)) (if_neg id)

/-- The balance says what moved, where it is not noted. -/
theorem pin (h : Led a False d t u) (hd : Drifts d' (t.ext.balanceOf a) (u.ext.balanceOf a)) : Led a False d' t u := by
  obtain ⟨ts, hts, hp⟩ := h
  have hnone : ts.findSome? (·.noted a) = none := Option.not_isSome_iff_eq_none.1 hp.1
  refine ⟨ts, ⟨hts.grows, hts.touches, hts.loaded, hts.uncreated, ?_⟩, hp⟩
  rw [hnone, Option.none_or]
  exact hd

/-- Touches that do not write the balance, and the balance moved by `d`. -/
theorem of_subject (he : t.ext.Extends u.ext) (ht : u.touches = t.touches ++ ts)
    (hts : ∀ τ ∈ ts, τ.subject = some a → (u.ext.state.lookup a).isSome ∧ τ.noted a = none ∧ τ.created? = none)
    (hb : Drifts d (t.ext.balanceOf a) (u.ext.balanceOf a)) : Led a False d t u := by
  have hnoted : ts.findSome? (·.noted a) = none := List.findSome?_eq_none_iff.2 fun τ hτ => by
    cases hn : τ.noted a with
    | none => rfl
    | some v =>
      have hs := AccountTouch.named_subject (AccountTouch.named_of_noted hn)
      rw [(hts τ hτ hs).2.1] at hn
      cases hn
  refine ⟨ts, ⟨he, ht, fun τ hτ hs => (hts τ hτ hs).1, fun τ hτ hc => ?_, by rw [hnoted]; exact hb⟩, by simp [hnoted]⟩
  have hs : τ.subject = some a := AccountTouch.created_subject hc
  rw [(hts τ hτ hs).2.2] at hc
  cases hc

/-- No touch, and the balance moved by `d`. -/
theorem untouched (he : t.ext.Extends u.ext) (ht : u.touches = t.touches)
    (hb : Drifts d (t.ext.balanceOf a) (u.ext.balanceOf a)) : Led a False d t u :=
  .of_subject he (ht.trans (List.append_nil _).symm) (fun _ h => (List.not_mem_nil h).elim) hb

end Led

/-- The effect leaves the balance of `a` to the journal, but for what it gives. -/
def Effect.Minds (a : Address) (t : Trail) : Effect → Prop
  | .openAccount b => b ≠ a ∨ (t.ext.state.lookup a).isSome
  | .transfer src dst _ => src = a → dst ≠ a
  | _ => True

/-- The effect writes the balance of `a`, and notes it. -/
def Effect.Pays (a : Address) : Effect → Prop
  | .transfer src dst _ => src = a ∨ dst = a
  | _ => False

/-- What the effect moves to the balance of `a` with no touch. -/
def Effect.gift (a : Address) (t : Trail) : Effect → Int
  | .destroy src dst => t.ext.gift src dst a
  | _ => 0

theorem Act.led {a : Address} {e : Effect} {t u : Trail} (h : Act e t u) (he : e.Minds a t) :
    Led a (e.Pays a) (e.gift a t) t u := by
  have hext := h.extends
  cases h with
  | warmAddress | storeTransient =>
    refine .of_subject hext rfl (fun τ hτ hs => ?_) (.refl _)
    rw [List.mem_singleton.1 hτ] at hs
    cases hs
  | warmStorage | log | mark => exact .untouched hext rfl (.refl _)
  | load hp =>
    refine .untouched hext rfl (.of_eq ?_)
    exact congrArg (Option.map _) (Ext.account?_pull hp)
  | fetch hg =>
    exact .untouched hext rfl (.of_eq (Ext.account?_get (fun _ _ => rfl) hg))
  | @note _ τ hread =>
    refine .of_subject hext rfl (fun τ' hτ' hs => ?_) (.refl _)
    rw [List.mem_singleton.1 hτ'] at hs
    cases τ with
    | setState | setNonce | setValue | create => cases hread
    | _ => cases hs
  | @store _ b key val new isWarm e hg =>
    have hl := Ext.get_loads hg
    refine .of_subject hext rfl (fun τ hτ hs => ?_) (.of_eq ?_)
    · rw [List.mem_singleton.1 hτ] at hs ⊢
      cases hs
      exact ⟨(Ext.extends_written e _ key new).loaded _ hl, rfl, rfl⟩
    · exact (Ext.balanceOf_written hl key new a).trans (Ext.account?_get (fun _ _ => rfl) hg)
  | @bump _ b account hb =>
    have hl : (t.ext.state.lookup b).isSome := by rw [hb]; rfl
    refine .of_subject hext rfl (fun τ hτ hs => ?_) (.of_eq ?_)
    · rw [List.mem_singleton.1 hτ] at hs ⊢
      cases hs
      exact ⟨hext.loaded _ hl, rfl, rfl⟩
    · exact Ext.balanceOf_mutate (f := fun x => { x with nonce := account.nonce + 1 }) (fun _ => rfl) hl a
  | @transfer _ src dst v x y hs hd hfunds hroom =>
    have hne : src = a → dst ≠ a := he
    have hsrc : (t.ext.state.lookup src).isSome := by rw [hs]; rfl
    have hdst : ((t.ext.setValue src (x.value - v)).state.lookup dst).isSome := by
      rw [Ext.setValue, Ext.isSome_lookup_mutate, hd]
      rfl
    refine ⟨_, ⟨hext, rfl, fun τ hτ hsub => ?_, fun τ hτ => ?_, .of_eq ?_⟩, ?_⟩
    · rcases List.mem_pair.1 hτ with rfl | rfl <;> cases hsub
      · exact hext.loaded _ (by rw [hs]; rfl)
      · exact hext.loaded _ (by rw [hd]; rfl)
    · rcases List.mem_pair.1 hτ with rfl | rfl <;> simp [AccountTouch.created?]
    · simp only [List.findSome?_cons, List.findSome?_nil, AccountTouch.noted]
      by_cases has : src = a
      · rw [if_pos has, ← has, Ext.balanceOf_loaded hs]
        rfl
      · by_cases had : dst = a
        · rw [if_neg has, if_pos had, ← had, Ext.balanceOf_loaded hd]
          rfl
        · rw [if_neg has, if_neg had, Ext.balanceOf_setValue hdst, Ext.balanceOf_setValue hsrc, if_neg (Ne.symm had),
            if_neg (Ne.symm has), Option.none_or]
    · simp only [List.findSome?_cons, List.findSome?_nil, AccountTouch.noted, Effect.Pays]
      by_cases has : src = a <;> by_cases had : dst = a <;> simp [has, had]
  | @openAccount _ b =>
    refine .untouched hext rfl (.of_eq ?_)
    by_cases hab : a = b
    · have hl : (t.ext.state.lookup a).isSome := he.resolve_left fun hne => hne hab.symm
      obtain ⟨account, hl⟩ := Option.isSome_iff_exists.1 hl
      subst hab
      rw [Ext.balanceOf_loaded hl, Ext.balanceOf_loaded (Finmap.lookup_insert _), Ext.orDefault_of_lookup hl]
    · unfold Ext.balanceOf Ext.account?
      rw [Finmap.lookup_insert_of_ne _ hab]
  | @destroy _ src dst x y hs hd room =>
    have hdst : (t.ext.state.lookup dst).isSome := by
      have hset : ((t.ext.setValue src 0).state.lookup dst).isSome := by
        rw [hd]
        rfl
      rwa [Ext.setValue, Ext.isSome_lookup_mutate] at hset
    obtain ⟨z, hz⟩ := Option.isSome_iff_exists.1 hdst
    refine .untouched hext rfl (drifts_of_swept ?_ ?_ (swept_of_writes hs hd room a))
    · rw [Ext.account?_loaded hs]
      rfl
    · rw [Ext.account?_loaded hz]
      rfl

theorem Act.led_read {a : Address} {e : Effect} {t u : Trail} (he : e.isRead) (h : Act e t u) : Led a False 0 t u := by
  refine (h.led (a := a) ?_).congr ?_ ?_ <;> cases e <;> first | exact trivial | exact Iff.rfl | rfl | cases he

theorem Acts.led {a : Address} {P : Effect → Prop} (hP : ∀ {e t u}, P e → Act e t u → Led a False 0 t u) {t u : Trail}
    (h : Acts P t u) : Led a False 0 t u :=
  h.keep (Led a False 0) (Led.refl a) (fun h h' => h.after h') hP

/-! ## A step -/

omit [Crypto] in
theorem Step.no_transfer {x : Step T} {src dst : Address} {v : Word} (h : x.attempts (.transfer src dst v)) : False := by
  obtain ⟨hallows, -, hreads⟩ := h
  rcases hallows.1 with hop | hop <;> cases hreads (by rw [hop]; rfl)

/-- A step that opens no frame notes no balance, and moves none but by its gift. -/
theorem Step.led {x : Step T} {a : Address} {u : Trail} (hgives : x.op = .selfdestruct → x.Gifts u.ext)
    (h : Acts x.attempts x.before.trail u) : Led a False (x.gift a) x.before.trail u := by
  have hact : ∀ {e t u}, x.attempts e → Act e t u → Led a False (e.gift a t) t u := fun {e t u} he ha => by
    refine (ha.led (a := a) ?_).congr ?_ rfl
    · cases e with
      | openAccount => cases he.2.1
      | transfer => exact absurd he Step.no_transfer
      | _ => trivial
    · cases e with
      | transfer => exact iff_of_false (fun _ => Step.no_transfer he) id
      | _ => exact Iff.rfl
  by_cases hop : x.op = .selfdestruct
  · obtain ⟨d, hd⟩ : ∃ d, Led a False d x.before.trail u := by
      refine h.keep (fun t u => ∃ d, Led a False d t u) (fun t => ⟨0, .refl a t⟩) ?_ fun he ha => ⟨_, hact he ha⟩
      rintro t u v ⟨d, hd⟩ ⟨d', hd'⟩
      exact ⟨d + d', hd.after hd'⟩
    exact hd.pin (hgives hop a)
  · refine (h.led fun {e t u} he ha => (hact he ha).congr Iff.rfl ?_).congr Iff.rfl ?_
    · cases e with
      | destroy => exact absurd he.1.1 hop
      | _ => rfl
    · exact (if_neg fun hretires => hop hretires.1).symm

/-! ## A frame -/

/-- The call moves its value: there is one, it is not for the caller itself, and the funds
    are there. -/
def Step.pays (x : Step T) : Prop :=
  x.value ≠ 0 ∧ x.this ≠ x.target ∧ x.value.toNat ≤ x.before.ext.funds x.this

/-- A message call whose value moves to or from `a`. -/
def Step.Taps (x : Step T) (a : Address) : Prop := x.op.isMessageCall ∧ x.pays ∧ (x.this = a ∨ x.target = a)

instance (x : Step T) : Decidable x.pays := inferInstanceAs (Decidable (_ ∧ _ ∧ _))

instance (x : Step T) (a : Address) : Decidable (x.Taps a) := inferInstanceAs (Decidable (_ ∧ _ ∧ _))

theorem Moved.led {src dst a : Address} {v : Word} {may : Prop} {t u : Trail} (h : Moved src dst v may t u)
    (hne : may → src = a → dst ≠ a) :
    Led a ((may ∧ v ≠ 0 ∧ v.toNat ≤ t.ext.funds src) ∧ (src = a ∨ dst = a)) 0 t u := by
  cases h with
  | moved hmay hv ha hfunds hact =>
    refine (hact.led (a := a) (hne hmay)).congr ?_ rfl
    rw [Ext.funds_loaded ha]
    exact (and_iff_right ⟨hmay, hv, hfunds⟩).symm
  | still ha _ hnot =>
    rw [Ext.funds_loaded ha]
    exact (Led.refl a t).congr (iff_of_false id fun h => hnot h.1) rfl

/-- What a value that moved, or did not, leaves of the balances. -/
theorem Moved.balanceOf {src dst : Address} {v : Word} {may : Prop} [Decidable may] {t u : Trail}
    (h : Moved src dst v may t u) (hne : src ≠ dst) (a : Address) : u.ext.balanceOf a =
      if may ∧ v ≠ 0 ∧ v.toNat ≤ t.ext.funds src then t.ext.shifted src dst v a else t.ext.balanceOf a := by
  cases h with
  | moved hmay hv ha hfunds hact =>
    rw [if_pos ⟨hmay, hv, by rwa [Ext.funds_loaded ha]⟩]
    exact hact.shifted hne a
  | still ha _ hnot => rw [if_neg (by rwa [Ext.funds_loaded ha])]

variable {x : Step T} {inner : Inner T} {pending : Pending} {opened : Machine T} {a : Address}

/-- A frame is opened with the value moved and noted. -/
theorem Opens.led (h : Opens x inner pending opened) (hcreated : x.isCreation → inner.scope.ctx.created ≠ a) :
    Led a (x.Taps a) 0 x.before.trail opened.trail := by
  cases h with
  | message hop hcalls =>
    obtain ⟨mid, hread, hmoved⟩ := hcalls.trail
    refine ((hread.led Act.led_read).after (hmoved.led (a := a) fun hne hs hd => hne (hs.trans hd.symm))).congr ?_
      (zero_add 0)
    rw [hread.funds_kept]
    refine ⟨fun h => ⟨hop, ⟨h.1.2.1, h.1.1, h.1.2.2⟩, h.2⟩, fun h => ⟨⟨h.2.1.2.1, h.2.1.1, h.2.1.2.2⟩, h.2.2⟩⟩
  | creation hop _ hcreates =>
    obtain ⟨mid, hbumps, -, hopens⟩ := hcreates.trail
    have hne := hcreated hop
    have hbumped : Led a False 0 x.before.trail mid := hbumps.led fun {e _ _} he ha => by
      refine (ha.led (a := a) ?_).congr ?_ ?_ <;> cases e <;> first | exact trivial | exact Iff.rfl | rfl | cases he
    have hopened : Led a False 0 mid opened.trail := hopens.led fun {e _ _} he ha => by
      refine (ha.led (a := a) ?_).congr ?_ ?_
      · cases e with
        | openAccount b =>
          have hb : b = inner.scope.ctx.created := he
          exact .inl (hb ▸ hne)
        | transfer => cases he
        | _ => trivial
      · cases e with
        | transfer => cases he
        | _ => exact Iff.rfl
      · cases e with
        | destroy => cases he
        | _ => rfl
    refine (hbumped.after hopened).congr (iff_of_false id fun h => ?_) (zero_add 0)
    have hmessage := h.1
    rcases hop with hop | hop <;> rw [hop] at hmessage <;> cases hmessage

/-- A creation that is kept moves its value from `a`. -/
def Step.Grants (x : Step T) (e : Ext) (a : Address) : Prop := x.isCreation ∧ x.endows e ∧ x.this = a

instance (x : Step T) : Decidable x.isCreation := inferInstanceAs (Decidable (_ ∨ _))

instance (x : Step T) (e : Ext) (a : Address) : Decidable (x.Grants e a) := inferInstanceAs (Decidable (_ ∧ _ ∧ _))

/-- The undone journal of a frame leaves the balances the frame found, but for what it was given. -/
theorem Accounted.undone {d : Int} {evm : Evm} {e₀ e e' : Ext} {logs logs' : List Log}
    (h : Accounted a d ⟨e₀, [], logs⟩ ⟨e, evm.touches, logs'⟩ evm.touches) (hundo : evm.revert e = .ok ⟨⟩ e') :
    Drifts d (e₀.balanceOf a) (e'.balanceOf a) := by
  rw [revert_balanceOf hundo fun τ hτ ha => h.loaded τ hτ (AccountTouch.slotted_subject ha)]
  exact h.balance

/-- What a frame of the tree moves to the balance of `a` before the caller's journal notes it. A
    creation by `a` that is kept notes it at the end of its init code. -/
def Step.frameGift (x : Step T) (pending : Pending) (opened : Machine T) (r : Ended T) (a : Address) (d : Int) : Int :=
  if pending.keeps r.output ∧ x.Grants r.machine.ext a then r.machine.ext.funds a - opened.ext.funds a else d

theorem Closes.led {d : Int} {r : Ended T} {u : Trail} (hopens : Opens x inner pending opened)
    (hcreated : x.isCreation → inner.scope.ctx.created ≠ a) {ts : List AccountTouch}
    (h : Accounted a d ⟨opened.ext, [], []⟩ r.machine.trail ts)
    (hcloses : Closes x inner pending r.output { opened.trail with ext := r.machine.ext } u) :
    Led a (pending.keeps r.output ∧ ((ts.findSome? (·.noted a)).isSome ∨ x.Grants r.machine.ext a))
      (x.frameGift pending opened r a d) opened.trail u := by
  have hts : r.machine.evm.touches = ts := h.touches
  have hext : opened.ext.Extends u.ext := h.grows.trans hcloses.extends
  unfold Closes at hcloses
  unfold Step.frameGift
  split at hcloses
  · next hkeeps =>
    split at hcloses
    · next hop =>
      -- a call's touches are its callee's
      have hnot : ¬x.Grants r.machine.ext a := fun hg => by
        rcases hg.1 with hc | hc <;> rw [hc] at hop <;> cases hop
      subst hcloses
      rw [if_neg fun hg => hnot hg.2]
      refine ⟨ts, ⟨h.grows, by rw [← hts]; rfl, h.loaded, h.uncreated, h.balance⟩, ?_⟩
      exact ⟨fun hn => ⟨hkeeps, .inl hn⟩, fun hn => hn.2.resolve_right hnot⟩
    · next hop =>
      obtain ⟨hcreation, hopened, ht, hc⟩ : x.isCreation ∧ (opened.ext.state.lookup x.this).isSome ∧
          (r.machine.ext.state.lookup x.this).isSome ∧
          (r.machine.ext.state.lookup inner.scope.ctx.created).isSome := by
        cases hopens with
        | message hop' => exact absurd hop' hop
        | creation hop' _ h' =>
          exact ⟨hop', h'.loaded.1, h.grows.loaded _ h'.loaded.1, h.grows.loaded _ h'.loaded.2⟩
      have hne := hcreated hcreation
      obtain ⟨mid, ⟨mid', hm, rfl⟩, rfl⟩ := hcloses
      have hkept := Ext.balanceOf_mutate (e := r.machine.ext)
        (f := fun account => { account with code := (r.output.ret, Crypto.keccak256 r.output.ret), nonce := 1 })
        (fun _ => rfl) hc
      obtain ⟨tm, htm, hp⟩ := hm.led (a := a) fun _ _ => hne
      have hendows : (tm.findSome? (·.noted a)).isSome ↔ x.Grants r.machine.ext a := by
        rw [hp]
        simp only [hne, or_false, Ext.funds, hkept, Ext.balanceOf_eq_valueOf ht, Option.getD_some]
        exact ⟨fun hn => ⟨hcreation, hn.1, hn.2⟩, fun hn => ⟨hn.2.1, hn.2.2⟩⟩
      obtain ⟨τc, hτc⟩ : ∃ τc, τc = AccountTouch.create inner.scope.ctx.created x.value 1 r.output.ret
          (Crypto.keccak256 r.output.ret) := ⟨_, rfl⟩
      have hother : τc.subject ≠ some a := fun hs => by
        rw [hτc] at hs
        exact hne (Option.some.inj hs)
      have hnone : τc.noted a = none := by
        rw [hτc, AccountTouch.noted, if_neg hne]
      have hnoted : (tm ++ [τc] ++ ts).findSome? (·.noted a) = (tm.findSome? (·.noted a)).or
        (ts.findSome? (·.noted a)) := by
        simp only [List.findSome?_append, List.findSome?_cons, List.findSome?_nil, hnone, Option.or_none]
      have hafter : (tm.findSome? (·.noted a)).or (mid'.ext.balanceOf a) = r.machine.ext.balanceOf a := by
        rw [← hkept]
        exact htm.balance.eq_iff.2 rfl
      have hcases : ∀ τ ∈ tm ++ [τc] ++ ts, τ.subject = some a → τ ∈ tm ∨ τ ∈ ts := fun τ hτ hs => by
        rcases List.mem_append.1 hτ with hτ | hτ
        · rcases List.mem_append.1 hτ with hτ | hτ
          · exact .inl hτ
          · rw [List.mem_singleton.1 hτ] at hs
            exact absurd hs hother
        · exact .inr hτ
      refine ⟨tm ++ [τc] ++ ts, ⟨hext, ?_, fun τ hτ hs => ?_, fun τ hτ hs => ?_, ?_⟩, ?_⟩
      · have hmid : mid'.touches = opened.evm.touches ++ tm := htm.touches
        have hret : r.output.evm.touches = ts := hts
        simp only [Trail.merge, hmid, hret, hτc, List.append_assoc]
        rfl
      · rcases hcases τ hτ hs with hτ | hτ
        · exact htm.loaded τ hτ hs
        · exact (hm.extends.loaded a) ((Ext.extends_mutate _ _ _).loaded a (h.loaded τ hτ hs))
      · rcases hcases τ hτ (AccountTouch.created_subject hs) with hτ | hτ
        · exact htm.uncreated τ hτ hs
        · exact h.uncreated τ hτ hs
      · rw [hnoted]
        show Drifts _ (opened.ext.balanceOf a) (Option.or _ (mid'.ext.balanceOf a))
        cases hfirst : tm.findSome? (·.noted a) with
        | none =>
          have hnot : ¬x.Grants r.machine.ext a := fun hg => by
            have := hendows.2 hg
            rw [hfirst] at this
            cases this
          rw [hfirst, Option.none_or] at hafter
          rw [if_neg fun hg => hnot hg.2, Option.none_or, hafter]
          exact h.balance
        | some v =>
          have hgrants := hendows.1 (by rw [hfirst]; rfl)
          have hthis : x.this = a := hgrants.2.2
          rw [hfirst, Option.some_or] at hafter
          rw [if_pos ⟨hkeeps, hgrants⟩, Option.some_or, Option.some_or, hafter]
          rw [hthis] at hopened ht
          rw [Ext.funds, Ext.funds, Ext.balanceOf_eq_valueOf hopened, Ext.balanceOf_eq_valueOf ht]
          exact .moved (by simp only [Option.getD_some]; omega)
      · rw [hnoted, Option.isSome_or, Bool.or_eq_true, hendows]
        exact ⟨fun hn => ⟨hkeeps, hn.symm⟩, fun hn => hn.2.symm⟩
  · next hkeeps =>
    rw [if_neg fun hg => hkeeps hg.1]
    have hback : Drifts d (opened.ext.balanceOf a) (u.ext.balanceOf a) := Accounted.undone (hts ▸ h) hcloses.ext
    have hled : Led a False d opened.trail u := .of_subject hext hcloses.touches (fun τ hτ hs => ?_) hback
    · exact hled.congr (iff_of_false id fun hn => hkeeps hn.1) rfl
    · -- what survives of a write is a creation
      have hcreated := AccountTouch.created_of_survivor (List.of_mem_filter hτ) hs
      exact absurd hcreated (h.uncreated τ (hts ▸ List.mem_of_mem_filter hτ))

/-! ## A run -/

namespace History

/-- No frame of the tree creates `a`. -/
def Avoids (a : Address) (h : History T) : Prop :=
  h.All (fun _ => True) fun x inner _ _ _ _ => x.isCreation → inner.scope.ctx.created ≠ a

/-- A kept frame of the tree moves a value to or from `a`. -/
def Taps (a : Address) : History T → Prop
  | done | cut => False
  | step _ rest => rest.Taps a
  | call x _ pending _ callee ended rest =>
    x.Taps a ∨
      (∃ r, ended = some r ∧ pending.keeps r.output ∧ (callee.Taps a ∨ x.Grants r.machine.ext a)) ∨ rest.Taps a

instance decidableTaps (a : Address) : (h : History T) → Decidable (h.Taps a)
  | done | cut => .isFalse id
  | step _ rest => decidableTaps a rest
  | call x _ pending _ callee ended rest =>
    have := decidableTaps a callee
    have := decidableTaps a rest
    have : Decidable (∃ r, ended = some r ∧ pending.keeps r.output ∧ (callee.Taps a ∨ x.Grants r.machine.ext a)) :=
      match ended with
      | none => .isFalse (by simp)
      | some r => decidable_of_iff (pending.keeps r.output ∧ (callee.Taps a ∨ x.Grants r.machine.ext a)) (by simp)
    inferInstanceAs (Decidable (_ ∨ _ ∨ _))

/-- What the SELFDESTRUCTs of the tree move to the balance of `a` with no touch, up to where the
    journal first notes it. -/
def drift (a : Address) : History T → Int
  | done | cut => 0
  | step x rest => x.gift a + rest.drift a
  | call x _ pending opened callee ended rest =>
    if x.Taps a then 0
    else match ended with
      | none => callee.drift a
      | some r => x.frameGift pending opened r a (callee.drift a) +
          if pending.keeps r.output ∧ (callee.Taps a ∨ x.Grants r.machine.ext a) then 0 else rest.drift a

omit [Crypto] in
theorem avoids_of_steps (a : Address) {h : History T} (hsteps : ∀ y ∈ h.steps, ¬y.isCreation) : h.Avoids a := by
  induction h with
  | done | cut => trivial
  | step x rest ih => exact ⟨trivial, ih fun y hy => hsteps y (List.mem_cons_of_mem _ hy)⟩
  | call x inner pending opened callee ended rest ihcallee ih =>
    simp only [steps, List.mem_cons, List.mem_append] at hsteps
    refine ⟨trivial, ihcallee fun y hy => hsteps y (.inr (.inl hy)), fun r _ hc => absurd hc (hsteps x (.inl rfl)), ?_⟩
    exact ih fun y hy => hsteps y (.inr (.inr hy))

/-- Message calls move no balance without a touch. -/
theorem drift_of_messages (a : Address) {h : History T} (hsteps : ∀ y ∈ h.steps, ¬y.isCreation ∧ y.op ≠ .selfdestruct) :
    h.drift a = 0 := by
  induction h with
  | done | cut => rfl
  | step x rest ih =>
    have hx := hsteps x List.mem_cons_self
    have hrest := ih fun y hy => hsteps y (List.mem_cons_of_mem _ hy)
    rw [drift, hrest, Step.gift, if_neg fun hretires => hx.2 hretires.1, add_zero]
  | call x inner pending opened callee ended rest ihcallee ih =>
    simp only [steps, List.mem_cons, List.mem_append] at hsteps
    have hx := hsteps x (.inl rfl)
    have hcallee := ihcallee fun y hy => hsteps y (.inr (.inl hy))
    have hrest := ih fun y hy => hsteps y (.inr (.inr hy))
    unfold drift
    cases ended with
    | none => simp only [hcallee, ite_self]
    | some r =>
      have hgrants : ¬x.Grants r.machine.ext a := fun hg => hx.1 hg.1
      simp only [Step.frameGift, hgrants, and_false, if_false, hcallee, hrest, ite_self, add_zero]

end History

/-- The journal of a run leads the balance of `a` back, but for the drift. -/
theorem Follows.led [EventTracer T] {sc : Scope} {h : History T} {t u : Trail} (hf : Follows sc h t u) (hh : h.Avoids a) :
    Led a (h.Taps a) (h.drift a) t u := by
  induction hf with
  | done | cut => exact .refl a _
  | step acts _ gives _ ih => exact (Step.led gives acts).after (ih hh.2)
  | @call x inner pending opened callee rest r w u v opens _ enters _ _ closes _ ihruns ih =>
    obtain ⟨-, hcallee, hcreated, hrest⟩ := hh
    have hcreated := hcreated r rfl
    obtain ⟨ts, hts, htaps⟩ := (enters.led Act.led_read).after (ihruns hcallee)
    rw [zero_add] at hts
    have hopened := opens.led hcreated
    have hclosed := (closes.led opens hcreated hts).congr (by rw [htaps]) rfl
    refine ((hopened.trans hclosed).trans (ih hrest)).congr ?_ ?_
    · rw [or_assoc, History.Taps]
      simp only [Option.some.injEq, exists_eq_left']
    · rw [History.drift]
      by_cases hx : x.Taps a
      · simp [hx]
      · simp only [hx, if_false, false_or, zero_add]
        by_cases hkept : pending.keeps r.output ∧ (callee.Taps a ∨ x.Grants r.machine.ext a)
        · rw [if_pos hkept, if_pos hkept, add_zero]
        · rw [if_neg hkept, if_neg hkept]

end

end Solenoid
