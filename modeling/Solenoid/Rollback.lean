/-
  Solenoid.Rollback — what a run and the undo of its journal leave of a cell.

  `Follows.journaled` is the induction over the tree of frames: a run is journaled where
  its steps are and where the end of each inner frame is. Storage cells meet both without
  condition (`Follows.journaled_storage`). A field of an account does when no SELFDESTRUCT
  takes effect and each inner frame `Fits`: the journal of a creation is out of order, and
  a dropped frame leaves the touches of its creations behind.
-/
import Solenoid.Undo

namespace Solenoid

open Hoare UndoLog

variable {T : Type} [Crypto]

/-! ## Trees of frames -/

section Trees

variable {C : Type} {c : Cell C}

theorem Acts.journaled {P : Effect → Prop} {t u : Trail}
    (hact : ∀ {e t u}, P e → c.known t.ext → Act e t u → Journaled c t u) (hk : c.known t.ext) (h : Acts P t u) :
    Journaled c t u := by
  have hboth : c.known u.ext ∧ Journaled c t u := by
    induction h with
    | refl => exact ⟨hk, .refl c t⟩
    | tail _ h ih =>
      obtain ⟨e, he, ha⟩ := h
      exact ⟨c.extends_known ha.extends ih.1, ih.2.trans (hact he ih.1 ha)⟩
  exact hboth.2

/-- A frame is opened by effects the step allows. -/
theorem Opens.acts {x : Step T} {inner : Inner T} {pending : Pending} {opened : Machine T}
    (h : Opens x inner pending opened) : Acts x.allows x.before.trail opened.trail := by
  cases h with
  | message hop h =>
    obtain ⟨mid, hmid, hm⟩ := h.trail
    refine (hmid.mono fun _ => x.allows_read).trans ?_
    cases hm with
    | moved hne hv _ _ ht =>
      have hcall : x.op = .call ∨ x.op = .callcode := by
        revert hv hop
        unfold Step.value
        cases x.op <;> simp [Op.isMessageCall]
      have hallows : x.allows (.transfer x.this x.target x.value) := ⟨hcall, h.has hcall, rfl, hv, rfl, rfl, hne⟩
      exact .one hallows ht
    | still => exact .refl _ _
  | creation hop hstatic h => exact h.acts hop hstatic

/-- A cell is covered when the steps in `P` and the frames in `N` are journaled. -/
structure Covers (c : Cell C) (P : Step T → Prop)
    (N : Step T → Inner T → Pending → Machine T → History T → Ended T → Prop) : Prop where
  read : ∀ {e : Effect} {t u}, e.isRead → c.known t.ext → Act e t u → Journaled c t u
  act : ∀ {x : Step T} {e t u}, P x → x.allows e → c.known t.ext → Act e t u → Journaled c t u
  close : ∀ {x : Step T} {inner pending opened callee r w u}, N x inner pending opened callee r →
    Opens x inner pending opened → Acts (Effect.isRead ·) ⟨opened.ext, [], []⟩ w →
    Follows inner.scope callee w r.machine.trail →
    Restores c.undo r.machine.evm.touches (c.view opened.ext) (c.view r.machine.ext) →
    Closes x inner pending r.output { opened.trail with ext := r.machine.ext } u → Journaled c opened.trail u

variable {P : Step T → Prop} {N : Step T → Inner T → Pending → Machine T → History T → Ended T → Prop}

theorem Follows.journaled (hc : Covers c P N) {sc : Scope} {h : History T} {t u : Trail} (hf : Follows sc h t u)
    (hk : c.known t.ext) (hall : h.All P N) : Journaled c t u := by
  induction hf with
  | done | cut => exact .refl c _
  | step acts _ _ _ ih =>
    obtain ⟨hx, hrest⟩ := hall
    exact ((acts.mono fun _ h => h.1).journaled (hc.act hx) hk).trans (ih (c.extends_known acts.extends hk) hrest)
  | @call x inner pending opened callee rest r w u v opens _ enters runs _ closes _ ihruns ih =>
    obtain ⟨hx, hcallee, hn, hrest⟩ := hall
    have hopened : c.known opened.ext := c.extends_known opens.extends hk
    have hw : c.known w.ext := c.extends_known enters.extends hopened
    have hinner := (enters.journaled (hc.read (c := c)) hopened).trans (ihruns hw hcallee)
    obtain ⟨ts, hts, hrestores⟩ := hinner
    have htouches : r.machine.evm.touches = ts := hts
    have hclose := hc.close (hn r rfl) opens enters runs (htouches ▸ hrestores) closes
    have hu : c.known u.ext := c.extends_known closes.extends (c.extends_known (enters.extends.trans runs.extends) hopened)
    exact (opens.acts.journaled (hc.act hx) hk).trans (hclose.trans (ih hu hrest))

end Trees

/-! ## The touches of creations -/

/-- The account a touch says was created. -/
def AccountTouch.created? : AccountTouch → Option Address
  | .create a .. => some a
  | _ => none

/-- From `t` to `u` only accounts of `l` were marked as created. -/
def Creates (l : List Address) (t u : Trail) : Prop :=
  ∀ τ ∈ u.touches, τ ∈ t.touches ∨ ∀ a, τ.created? = some a → a ∈ l

namespace Creates

variable {l l' : List Address} {t u v : Trail}

omit [Crypto] in
theorem refl (l : List Address) (t : Trail) : Creates l t t := fun _ h => .inl h

omit [Crypto] in
theorem trans (h : Creates l t u) (h' : Creates l' u v) : Creates (l ++ l') t v := by
  intro τ hτ
  rcases h' τ hτ with hτ | hτ
  · exact (h τ hτ).imp_right fun hl a ha => List.mem_append_left _ (hl a ha)
  · exact .inr fun a ha => List.mem_append_right _ (hτ a ha)

omit [Crypto] in
theorem mono (h : Creates l t u) (hl : l ⊆ l') : Creates l' t u := fun τ hτ =>
  (h τ hτ).imp_right fun hc a ha => hl (hc a ha)

omit [Crypto] in
/-- Touches that were appended. -/
theorem of_append {ts : List AccountTouch} (h : u.touches = t.touches ++ ts)
    (hts : ∀ τ ∈ ts, ∀ a, τ.created? = some a → a ∈ l) : Creates l t u := by
  intro τ hτ
  rw [h] at hτ
  exact (List.mem_append.1 hτ).imp_right fun hτ => hts τ hτ

end Creates

theorem Act.creates {e : Effect} {t u : Trail} (h : Act e t u) : Creates [] t u := by
  cases h with
  | @note _ τ hτ =>
    refine .of_append rfl fun τ' hτ' a ha => ?_
    rw [List.mem_singleton.1 hτ'] at ha
    cases τ with
    | create => cases hτ
    | _ => cases ha
  | warmAddress | store | storeTransient | bump =>
    refine .of_append rfl fun τ hτ a ha => ?_
    rw [List.mem_singleton.1 hτ] at ha
    cases ha
  | transfer =>
    refine .of_append rfl fun τ hτ a ha => ?_
    rcases List.mem_pair.1 hτ with rfl | rfl <;> cases ha
  | warmStorage | load | fetch | log | mark | openAccount | destroy => exact .refl _ _

theorem Acts.creates {P : Effect → Prop} {t u : Trail} (h : Acts P t u) : Creates [] t u :=
  h.keep (Creates []) (.refl []) (fun h h' => h.trans h') fun _ h => h.creates

theorem Moved.creates {src dst : Address} {v : Word} {may : Prop} {t u : Trail} (h : Moved src dst v may t u) :
    Creates [] t u := by
  cases h with
  | moved _ _ _ _ h => exact h.creates
  | still => exact .refl _ _

/-- The end of a frame: its touches, and those of its own creation. -/
theorem Closes.creates {x : Step T} {inner : Inner T} {pending : Pending} {opened : Machine T} {out : Output T}
    {t u : Trail}
    {l : List Address} (hopens : Opens x inner pending opened) (h : Closes x inner pending out t u)
    (hl : ∀ τ ∈ out.evm.touches, ∀ a, τ.created? = some a → a ∈ l) :
    Creates ((if pending.keeps out then pending.created?.toList else []) ++ l) t u := by
  unfold Closes at h
  split at h
  · next hk =>
    have hmerge : ∀ mid : Trail, Creates l mid (mid.merge out.evm.touches) := fun mid => .of_append rfl hl
    rw [if_pos hk]
    split at h
    · rw [h]
      exact (hmerge t).mono (List.subset_append_right _ _)
    · next hop =>
      obtain ⟨mid, ⟨mid', hm, rfl⟩, rfl⟩ := h
      obtain ⟨baseCost, hpending⟩ : ∃ baseCost, pending =
          .create baseCost inner.evm.gas.limit inner.scope.ctx.created x.value := by
        cases hopens with
        | message hop' => exact absurd hop' hop
        | creation _ _ h => exact h.pending
      have hcreate : Creates pending.created?.toList mid'
          { mid' with touches := mid'.touches ++ [.create inner.scope.ctx.created x.value 1 out.ret
            (Crypto.keccak256 out.ret)] } := by
        refine .of_append rfl fun τ hτ a ha => ?_
        rw [List.mem_singleton.1 hτ] at ha
        cases ha
        rw [hpending]
        exact List.mem_singleton.2 rfl
      have hm : Creates [] t mid' := fun τ hτ => hm.creates τ hτ
      exact (hm.trans (hcreate.trans (hmerge _))).mono (by simp)
  · next hk =>
    rw [if_neg hk]
    refine .of_append h.touches fun τ hτ => hl τ (List.mem_of_mem_filter hτ)

/-- A run marks only the accounts its history created. -/
theorem Follows.creates {sc : Scope} {h : History T} {t u : Trail} (hf : Follows sc h t u) : Creates h.created t u := by
  induction hf with
  | done | cut => exact .refl _ _
  | step acts _ _ _ ih => exact acts.creates.trans ih
  | @call x inner pending opened callee rest r w u v opens _ enters runs _ closes _ ihruns ih =>
    have hcallee : ∀ τ ∈ r.output.evm.touches, ∀ a, τ.created? = some a → a ∈ callee.created := by
      intro τ hτ a ha
      have hinner : Creates callee.created ⟨opened.ext, [], []⟩ r.machine.trail :=
        (enters.creates.trans ihruns).mono (by simp)
      exact (hinner τ hτ).resolve_left List.not_mem_nil a ha
    have hclose := Closes.creates opens closes hcallee
    have hclose : Creates _ opened.trail u := fun τ hτ => hclose τ hτ
    exact (opens.acts.creates.trans (hclose.trans ih)).mono (by simp [History.created])

/-! ## The undo succeeds -/

/-- The account whose entry the undo of a touch writes. -/
def AccountTouch.subject : AccountTouch → Option Address
  | .setState a .. | .setNonce a .. | .setValue a .. | .create a .. => some a
  | _ => none

omit [Crypto] in
theorem AccountTouch.named_subject {τ : AccountTouch} {a : Address} (h : τ.named = some a) : τ.subject = some a := by
  cases τ <;> first | exact h | cases h

/-- Every account that `of` finds in a touch is loaded. -/
def Trail.Loads (of : AccountTouch → Option Address) (t : Trail) : Prop :=
  ∀ τ ∈ t.touches, ∀ a, of τ = some a → (t.ext.state.lookup a).isSome

/-- Every account the undo needs is loaded. -/
def Trail.Grounded (t : Trail) : Prop :=
  ∀ τ ∈ t.touches, ∀ a, τ.named = some a → (t.ext.state.lookup a).isSome

section Loads

variable {of : AccountTouch → Option Address} {t u : Trail}

namespace Trail.Loads

omit [Crypto] in
theorem of_append {ts : List AccountTouch} (h : t.Loads of) (he : t.ext.Extends u.ext) (ht : u.touches = t.touches ++ ts)
    (hts : ∀ τ ∈ ts, ∀ a, of τ = some a → (u.ext.state.lookup a).isSome) : u.Loads of := by
  intro τ hτ a ha
  rw [ht] at hτ
  rcases List.mem_append.1 hτ with hτ | hτ
  · exact he.loaded a (h τ hτ a ha)
  · exact hts τ hτ a ha

omit [Crypto] in
theorem of_eq (h : t.Loads of) (he : t.ext.Extends u.ext) (ht : u.touches = t.touches) : u.Loads of := fun τ hτ a ha =>
  he.loaded a (h τ (ht ▸ hτ) a ha)

end Trail.Loads

variable (hof : ∀ {τ a}, of τ = some a → τ.subject = some a)

include hof

theorem Act.loads {e : Effect} (h : Act e t u) (ht : t.Loads of) : u.Loads of := by
  have he := h.extends
  cases h with
  | @note _ τ hτ =>
    refine ht.of_append he rfl fun τ' hτ' a ha => ?_
    rw [List.mem_singleton.1 hτ'] at ha
    have hs := hof ha
    cases τ with
    | setState | setNonce | setValue | create => cases hτ
    | _ => cases hs
  | warmAddress | storeTransient =>
    refine ht.of_append he rfl fun τ hτ a ha => ?_
    rw [List.mem_singleton.1 hτ] at ha
    cases hof ha
  | @store _ b key val new isWarm e hget =>
    refine ht.of_append he rfl fun τ hτ a ha => ?_
    rw [List.mem_singleton.1 hτ] at ha
    cases hof ha
    rw [show (e.written b key new).state.lookup b = _ from (Ext.lookup_insertSlot e b key new b).trans (if_pos rfl)]
    rfl
  | bump ha =>
    refine ht.of_append he rfl fun τ hτ a hn => he.loaded a ?_
    rw [List.mem_singleton.1 hτ] at hn
    cases hof hn
    rw [ha]
    rfl
  | transfer hs hd =>
    refine ht.of_append he rfl fun τ hτ a hn => he.loaded a ?_
    rcases List.mem_pair.1 hτ with rfl | rfl <;> cases hof hn
    · rw [hs]
      rfl
    · rw [hd]
      rfl
  | warmStorage | load | fetch | log | mark | openAccount | destroy => exact ht.of_eq he rfl

theorem Acts.loads {P : Effect → Prop} (h : Acts P t u) (ht : t.Loads of) : u.Loads of :=
  h.keep (fun t u => t.Loads of → u.Loads of) (fun _ h => h) (fun h h' ht => h' (h ht)) (fun _ h => h.loads hof) ht

theorem Moved.loads {src dst : Address} {v : Word} {may : Prop} (h : Moved src dst v may t u) (ht : t.Loads of) :
    u.Loads of := by
  cases h with
  | moved _ _ _ _ h => exact h.loads hof ht
  | still => exact ht

omit hof in
theorem Moved.loaded_dst {src dst : Address} {v : Word} {may : Prop} (h : Moved src dst v may t u) :
    (u.ext.state.lookup dst).isSome := by
  cases h with
  | moved _ _ _ _ h =>
    have he := h.extends
    cases h with
    | transfer hs hd => exact he.loaded _ (by rw [hd]; rfl)
  | still _ hb => rw [hb]; rfl

theorem Closes.loads {x : Step T} {inner : Inner T} {pending : Pending} {out : Output T}
    (h : Closes x inner pending out t u) (ht : t.Loads of)
    (hout : ∀ τ ∈ out.evm.touches, ∀ a, of τ = some a → (t.ext.state.lookup a).isSome) : u.Loads of := by
  have he := h.extends
  unfold Closes at h
  split at h
  · split at h
    · rw [h]
      exact ht.of_append (.refl _) rfl hout
    · obtain ⟨mid, ⟨mid', hm, rfl⟩, rfl⟩ := h
      have hdeploy : t.ext.Extends (t.ext.mutate inner.scope.ctx.created fun a =>
        { a with code := (out.ret, Crypto.keccak256 out.ret), nonce := 1 }) := Ext.extends_mutate _ _ _
      have hmid := hm.loads hof (ht.of_eq hdeploy rfl)
      have hmoved := hm.extends
      have htouches : mid'.touches ++ [.create inner.scope.ctx.created x.value 1 out.ret (Crypto.keccak256 out.ret)] ++
          out.evm.touches = mid'.touches ++
            ([.create inner.scope.ctx.created x.value 1 out.ret (Crypto.keccak256 out.ret)] ++ out.evm.touches) :=
        List.append_assoc _ _ _
      refine hmid.of_append (.refl _) htouches fun τ hτ a ha => ?_
      rcases List.mem_append.1 hτ with hτ | hτ
      · rw [List.mem_singleton.1 hτ] at ha
        cases hof ha
        exact hm.loaded_dst
      · exact hmoved.loaded a (hdeploy.loaded a (hout τ hτ a ha))
  · exact ht.of_append he h.touches fun τ hτ a ha => he.loaded a (hout τ (List.mem_of_mem_filter hτ) a ha)

theorem Follows.loads {sc : Scope} {h : History T} (hf : Follows sc h t u) (ht : t.Loads of) : u.Loads of := by
  induction hf with
  | done | cut => exact ht
  | step acts _ _ _ ih => exact ih (acts.loads hof ht)
  | @call x inner pending opened callee rest r w u v opens _ enters runs _ closes _ ihruns ih =>
    have hopened := opens.acts.loads hof ht
    have hinner : r.machine.trail.Loads of := ihruns (enters.loads hof fun _ h => (List.not_mem_nil h).elim)
    have he : opened.ext.Extends r.machine.ext := enters.extends.trans runs.extends
    refine ih (Closes.loads hof closes (hopened.of_eq he rfl) fun τ hτ a ha => hinner τ hτ a ha)

end Loads

theorem Acts.grounded {P : Effect → Prop} {t u : Trail} (h : Acts P t u) (ht : t.Grounded) : u.Grounded :=
  h.loads AccountTouch.named_subject ht

theorem Follows.grounded {sc : Scope} {h : History T} {t u : Trail} (hf : Follows sc h t u) (ht : t.Grounded) :
    u.Grounded := hf.loads AccountTouch.named_subject ht

omit [Crypto] in
theorem Trail.Grounded.revert_ok {s : Machine T} (h : s.trail.Grounded) : ∃ e, s.evm.revert s.ext = .ok ⟨⟩ e :=
  revertTouches_ok _ fun τ hτ => h τ (List.mem_reverse.1 hτ)

/-! ## Storage -/

/-- The cell is neither balance, nonce nor code. -/
structure Cell.Aside {C : Type} (c : Cell C) : Prop where
  known : ∀ e, c.known e
  act : ∀ {e : Effect} {t u}, Act e t u → Journaled c t u
  mutate : ∀ (e : Ext) (a : Address) (f : Account → Account), (∀ x, (f x).state = x.state) →
    c.view (e.mutate a f) = c.view e
  survivor : ∀ τ : AccountTouch, τ.survivesRevert → ∀ v, c.undo τ v = v
  value : ∀ a val new v, c.undo (.setValue a val new) v = v

theorem aside_slot (a : Address) (key : Word) : (slotCell a key).Aside where
  known _ := trivial
  act h := h.journaled_slot a key
  mutate e b _ hf := Ext.slotOf_mutate e b a key hf
  survivor τ hτ v := by cases τ <;> first | rfl | cases hτ
  value _ _ _ _ := rfl

theorem aside_transient (a : Address) (key : Word) : (transientCell a key).Aside where
  known _ := trivial
  act h := h.journaled_transient a key
  mutate e b f _ := by simp only [transientCell, Ext.transientOf, Ext.transient_mutate]
  survivor τ hτ v := by cases τ <;> first | rfl | cases hτ
  value _ _ _ _ := rfl

section Storage

variable {C : Type} {c : Cell C}

theorem Cell.Aside.setValue (hc : c.Aside) (e : Ext) (a : Address) (v : Word) : c.view (e.setValue a v) = c.view e :=
  hc.mutate e a _ fun _ => rfl

/-- A value moves aside of the cell. -/
theorem Cell.Aside.moved (hc : c.Aside) {src dst : Address} {v : Word} {may : Prop} {t u : Trail}
    (h : Moved src dst v may t u) :
    c.view u.ext = c.view t.ext ∧ ∃ ts, u.touches = t.touches ++ ts ∧ ∀ τ ∈ ts, ∀ v, c.undo τ v = v := by
  cases h with
  | moved _ _ _ _ h =>
    cases h with
    | transfer =>
      refine ⟨?_, _, rfl, fun τ hτ => ?_⟩
      · exact (hc.setValue _ _ _).trans (hc.setValue _ _ _)
      · rcases List.mem_pair.1 hτ with rfl | rfl <;> exact hc.value _ _ _
  | still => exact ⟨rfl, [], (List.append_nil _).symm, fun _ h => (List.not_mem_nil h).elim⟩

theorem Cell.Aside.covers (hc : c.Aside) : Covers c (fun _ : Step T => True) fun _ _ _ _ _ _ => True where
  read _ _ h := hc.act h
  act _ _ _ h := hc.act h
  close {x inner pending opened callee r w u} _ _ _ _ hr h := by
    unfold Closes at h
    split at h
    · split at h
      · exact ⟨r.machine.evm.touches, by rw [h]; rfl, by rw [h]; exact hr⟩
      · obtain ⟨mid, ⟨mid', hm, rfl⟩, rfl⟩ := h
        obtain ⟨hview, ts, hts, hidle⟩ := hc.moved hm
        have hview : c.view mid'.ext = c.view r.machine.ext := hview.trans (hc.mutate _ _ _ fun _ => rfl)
        refine ⟨ts ++ [.create inner.scope.ctx.created x.value 1 r.output.ret (Crypto.keccak256 r.output.ret)] ++
          r.machine.evm.touches, ?_, ?_⟩
        · simp only [Trail.merge, Ended.output, hts, List.append_assoc]
        · have hcreate := hc.survivor (.create inner.scope.ctx.created x.value 1 r.output.ret
            (Crypto.keccak256 r.output.ret)) rfl
          change rollback _ _ (c.view mid'.ext) = _
          rw [rollback_append, hview, hr, rollback_append, rollback_cons, rollback_nil, hcreate,
            rollback_idle fun τ hτ => hidle τ hτ _]
          rfl
    · refine ⟨_, h.touches, ?_⟩
      have hview : c.view u.ext = c.view opened.ext := (c.reverted h.ext).trans hr
      rw [hview]
      exact .idle fun τ hτ => hc.survivor τ (List.of_mem_filter hτ) _

omit [Crypto] in
theorem History.all_true (h : History T) : h.All (fun _ => True) fun _ _ _ _ _ _ => True := by
  induction h with
  | done | cut => trivial
  | step _ _ ih => exact ⟨trivial, ih⟩
  | call _ _ _ _ _ _ _ ihc ih => exact ⟨trivial, ihc, fun _ _ => trivial, ih⟩

/-- Storage is journaled in every run. -/
theorem Follows.journaled_storage (hc : c.Aside) {sc : Scope} {h : History T} {t u : Trail} (hf : Follows sc h t u) :
    Journaled c t u := hf.journaled hc.covers (hc.known _) h.all_true

end Storage

end Solenoid
