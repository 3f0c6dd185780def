/-
  Solenoid.Reversals — what a reverted transaction leaves of the accounts.

  `execute` undoes the whole journal when its top frame reverted: the transfer and the nonce
  of the transaction with it. The prepayment is in no touch, so the sender is apart.
  - `Runner.apply_reverted`: a reverted transaction leaves every account but the sender and the
    coinbase as it was, and every storage slot, if its tree of frames is one that can be undone.
-/
import Solenoid.Nonces
import Solenoid.Tallies

namespace Solenoid

open Hoare UndoLog

section

variable {T : Type} {C : Type} [Crypto]

/-! ## The journal of the transaction's own work -/

/-- A cell that neither the balances of `payer` and `miner` nor the nonce of `payer` is part of. -/
structure Cell.Spared (c : Cell C) (payer miner : Address) : Prop where
  act : ∀ {e t u}, Effect.isJournaled e → c.known t.ext → Act e t u → Journaled c t u
  same : ∀ {e e' : Ext}, e'.state = e.state → e'.remote = e.remote → c.view e' = c.view e
  paid : ∀ {b}, b = payer ∨ b = miner → ∀ (e : Ext) v, c.view (e.setValue b v) = c.view e
  counted : ∀ (e : Ext) n, c.view (e.setNonce payer n) = c.view e
  idle : ∀ (e : Ext) old new, c.undo (.setValue payer old new) (c.view e) = c.view e
  written : ∀ {e : Ext} {b x} new new', e.state.lookup b = some x → b ≠ payer →
    c.undo (.setValue b x.value new') (c.view (e.setValue b new)) = c.view e

theorem spared_field (f : Field C) {a payer miner : Address} (hpaid : a = payer ∨ a = miner → Moneyless f.get)
    (hcounted : a = payer → ∀ (x : Account) n, f.get { x with nonce := n } = f.get x) : (f.cell a).Spared payer miner where
  act he hk h := h.journaled_field f hk he
  same hs _ := by simp only [Field.cell, Ext.orDefault, hs]
  paid hb e v := f.get_mutate e fun h x => hpaid (h ▸ hb) x v
  counted e n := f.get_mutate e fun h x => hcounted h.symm x n
  idle e old new := by
    refine (f.lift a _ _).trans ?_
    by_cases h : payer = a
    · exact f.restore_setValue (hpaid (.inl h.symm)) a payer old new _
    · rw [AccountTouch.restore, if_neg h]
      rfl
  written {e b x} new new' hl hb := by
    have hx := Ext.orDefault_of_lookup hl
    have hsome : (e.state.lookup b).isSome := by rw [hl]; rfl
    simp only [Field.cell, f.lift, Ext.setValue, Ext.orDefault_mutate _ hsome]
    refine congrArg f.get ?_
    by_cases h : a = b
    · subst h
      simp [AccountTouch.restore, hx]
    · simp [AccountTouch.restore, h, Ne.symm h]

theorem spared_slot (a : Address) (key : Word) (payer miner : Address) : (slotCell a key).Spared payer miner where
  act _ _ h := h.journaled_slot a key
  same hs hr := Ext.slotOf_congr (by simp only [Ext.orDefault, hs]) hr
  paid _ e v := Ext.slotOf_mutate _ _ _ _ fun _ => rfl
  counted e n := Ext.slotOf_mutate _ _ _ _ fun _ => rfl
  idle _ _ _ := rfl
  written new new' _ _ := Ext.slotOf_mutate _ _ _ _ fun _ => rfl

/-- The runs whose touches take the cell back. -/
def journaling (c : Cell C) : Frame Fault (Machine T) where
  ok s t := s.ext.Extends t.ext ∧ (c.known s.ext → Journaled c s.trail t.trail)
  err _ _ _ := True
  refl _ := ⟨.refl _, fun _ => .refl c _⟩
  trans h h' := ⟨h.1.trans h'.1, fun hk => (h.2 hk).trans (h'.2 (c.extends_known h.1 hk))⟩
  fail _ _ := trivial

section Phases

variable {c : Cell C} {payer miner : Address} (hc : c.Spared payer miner)
include hc

theorem journals_within {α : Type} {m : M T α} (h : Keeps (within (Effect.isJournaled ·)) m) : Keeps (journaling c) m :=
  h.mono (fun h => ⟨h.trail.extends, fun hk => h.trail.journaled (fun he hk ha => hc.act he hk ha) hk⟩) fun _ => trivial

/-- Neither a touch nor a change of the accounts. -/
theorem journals_same {s t : Machine T} (hs : t.ext.state = s.ext.state) (hr : t.ext.remote = s.ext.remote)
    (ht : t.evm.touches = s.evm.touches) : (journaling c).ok s t :=
  ⟨⟨fun a h => by rwa [hs], hr⟩, fun _ => .of_view ht (hc.same hs hr)⟩

omit [Crypto] hc in
theorem journals_lift {α : Type} (e : Except Fault α) : Keeps (journaling c) (lift e : M T α) := fun _ =>
  (wp_lift e).2 ⟨fun _ _ => (journaling c).refl _, fun _ _ => trivial⟩

theorem journals_listed : Keeps (journaling c) (onExt Ext.applyAccessList : M T Unit) := fun s => by
  obtain ⟨hs, hr⟩ := state_foldl_accessList s.ext.txCtx.accessList s.ext
  exact (wp_onExt _).2 ((wp_modify _).2 (journals_same hc hs hr rfl))

/-- The write of a balance and its touch. -/
theorem journals_written {s t : Machine T} {b : Address} {x : Account} {old new new' : Word}
    (hl : s.ext.state.lookup b = some x) (hold : b = payer ∨ x.value = old) (hext : t.ext = s.ext.setValue b new)
    (ht : t.evm.touches = s.evm.touches ++ [.setValue b old new']) : (journaling c).ok s t := by
  refine ⟨?_, fun _ => .one ht ?_⟩
  · rw [hext]
    exact Ext.extends_mutate _ _ _
  · show c.undo _ (c.view t.ext) = c.view s.ext
    rw [hext]
    by_cases hb : b = payer
    · subst hb
      rw [hc.idle, hc.paid (.inl rfl)]
    · rw [← hold.resolve_left hb]
      exact hc.written _ _ hl hb

theorem journals_pull (a : Address) : Keeps (journaling c) (onExt (Ext.pull a) : M T Account) := fun s =>
  (wp_onExt _).2 <| wp_def.2 ⟨fun _ _ h => ⟨(Ext.pulled h).extends, fun hk =>
    hc.act (e := .load a) (t := s.trail) trivial hk (.load h)⟩, fun _ _ _ => trivial⟩

theorem reads_journaling : Reads (journaling c : Frame Fault (Machine T)) where
  lifted := journals_lift
  pulled := journals_pull hc
  warmed _ _ := by
    simp only [wp_onExt, Ext.warmAddress, wp_bind, wp_get, wp_set, wp_pure]
    exact journals_same hc rfl rfl rfl
  warmTouch _ := journals_within hc (keeps_warmTouch trivial)
  touchCode _ := journals_within hc (keeps_touchCode fun e _ _ => by cases e <;> trivial)
  listed := journals_listed hc

/-- The balance of the payer is in no cell that is spared. -/
theorem values_journaling : Values (journaling c : Frame Fault (Machine T)) payer where
  valued _ _ := by
    rw [wp_onExt, Ext.wp_accountMut]
    exact ⟨fun _ => ⟨Ext.extends_mutate _ _ _, fun _ => .of_view rfl (hc.paid (.inl rfl) _ _)⟩, fun _ => trivial⟩
  noted old new := .modify fun s => ⟨.refl _, fun _ => .one rfl (hc.idle s.ext old new)⟩

theorem fuels_journaling : Fuels (journaling c : Frame Fault (Machine T)) :=
  ⟨fun _ => .modify fun _ => journals_same hc rfl rfl rfl, .modify fun _ => journals_same hc rfl rfl rfl⟩

variable [EventTracer T]

/-- Each of its two writes has its touch. -/
theorem journals_transferValue {call : Call} (hfrom : call.from_ = payer) :
    Keeps (journaling c) (transferValue call : M T Unit) := fun s => by
  unfold transferValue
  refine ((reads_journaling hc).read _ _).step (fun _ _ _ => trivial) fun src s₁ _ h₁ => ?_
  rw [wp_bind]
  refine wp_def.2 ⟨fun dst s₂ hdst => ?_, fun _ _ _ => trivial⟩
  have h₂ : (journaling c).ok s s₂ := (journaling c).trans h₁ (((reads_journaling hc).read _ _).ok hdst)
  obtain ⟨account, e, hpull, rfl, rfl⟩ := balance_ok hdst
  rw [wp_ite]
  refine ⟨fun _ => (wp_pure _).2 h₂, fun _ => ?_⟩
  simp only [wp_bind, wp_onExt, Ext.wp_accountMut, wp_touch, wp_emit]
  refine ⟨fun hsome => ?_, fun _ => trivial⟩
  refine Ext.wp_credit (fun x hx _ => ?_) fun _ => trivial
  rw [wp_lift]
  refine ⟨fun paid _ => ?_, fun _ _ => trivial⟩
  simp only [wp_bind, wp_touch, wp_lift, wp_emit]
  refine ⟨fun logged _ => ?_, fun _ _ => trivial⟩
  obtain ⟨y, hy⟩ := Option.isSome_iff_exists.1 hsome
  have hgiven : call.to_ = payer ∨ x.value = account.value := by
    by_cases hto : call.to_ = payer
    · exact .inl hto
    · rw [Ext.lookup_mutate_ne _ _ (hfrom ▸ hto), (Ext.pulled hpull).lookup] at hx
      cases hx
      exact .inr rfl
  have htaken := journals_written hc (s := { s₁ with ext := e }) (t := ⟨s₁.exe, { s₁.evm with touches := s₁.evm.touches ++
      [.setValue call.from_ src (src.saturatingSub call.value)] }, e.setValue call.from_ (src.saturatingSub call.value)⟩)
    hy (.inl hfrom) rfl rfl
  exact (journaling c).trans h₂ ((journaling c).trans htaken (journals_written hc hx hgiven rfl rfl))

theorem journals_prepare (code : Bytecode) {call : Call} (hfrom : call.from_ = payer) :
    Keeps (journaling c) (prepare code call : M T (Word × Word × Int × Word)) := by
  refine (reads_journaling hc).prepare (fuels_journaling hc) code ?_ (journals_transferValue hc hfrom) ?_
  · rw [hfrom]
    exact values_journaling hc
  · exact journals_within hc (keeps_bumpNonce _ trivial trivial)

omit [EventTracer T] in
theorem Runner.journals_start {r : Runner} (hto : r.call.to_ ≠ 0) :
    Keeps (journaling c) (r.start : M T (Bytecode × Int × Address)) := by
  refine (reads_journaling hc).start (fuels_journaling hc) (fun _ => ?_) fun _ => ?_
  · exact journals_within hc (Solenoid.keeps_openAccount trivial trivial trivial)
  · exact .ite (fun _ => .pure _) fun hor => absurd (.inl hto) hor

end Phases

/-! ## The settlement -/

section Settling

variable {c : Cell C} {payer miner : Address} (hc : c.Spared payer miner)
include hc

omit hc in
/-- The runs that leave the cell. -/
def sparing (c : Cell C) : Frame Fault (Machine T) where
  ok s t := s.ext.Extends t.ext ∧ (c.known s.ext → c.view t.ext = c.view s.ext)
  err _ _ _ := True
  refl _ := ⟨.refl _, fun _ => rfl⟩
  trans h h' := ⟨h.1.trans h'.1, fun hk => (h'.2 (c.extends_known h.1 hk)).trans (h.2 hk)⟩
  fail _ _ := trivial

theorem spares_same {s t : Machine T} (hs : t.ext.state = s.ext.state) (hr : t.ext.remote = s.ext.remote) :
    (sparing c).ok s t := ⟨⟨fun a h => by rwa [hs], hr⟩, fun _ => hc.same hs hr⟩

omit [Crypto] hc in
theorem spares_lift {α : Type} (e : Except Fault α) : Keeps (sparing c) (lift e : M T α) := fun _ =>
  (wp_lift e).2 ⟨fun _ _ => (sparing c).refl _, fun _ _ => trivial⟩

theorem spares_pull (a : Address) : Keeps (sparing c) (onExt (Ext.pull a) : M T Account) := fun s => by
  refine (wp_onExt _).2 (wp_def.2 ⟨fun account e hpull => ⟨(Ext.pulled hpull).extends, fun hk => ?_⟩, fun _ _ _ => trivial⟩)
  obtain ⟨ts, hts, hr⟩ := hc.act (e := .load a) (t := s.trail) trivial hk (.load hpull)
  have hnil : ts = [] := List.append_cancel_left ((hts.symm.trans (List.append_nil _).symm))
  rw [hnil] at hr
  exact hr

theorem spares_touch (τ : AccountTouch) : Keeps (sparing c) (touch τ : M T Unit) :=
  .modify fun _ => spares_same hc rfl rfl

theorem looks_sparing : Looks (sparing c : Frame Fault (Machine T)) := ⟨spares_lift, spares_pull hc⟩

theorem bills_sparing {a : Address} (ha : a = payer ∨ a = miner) : Bills (sparing c : Frame Fault (Machine T)) a where
  valued _ _ := by
    rw [wp_onExt, Ext.wp_accountMut]
    exact ⟨fun _ => ⟨Ext.extends_mutate _ _ _, fun _ => hc.paid ha _ _⟩, fun _ => trivial⟩
  noted _ _ := spares_touch hc _

theorem counts_sparing : Counts (sparing c : Frame Fault (Machine T)) payer where
  counted _ _ := by
    rw [wp_onExt, Ext.wp_accountMut]
    exact ⟨fun _ => ⟨Ext.extends_mutate _ _ _, fun _ => hc.counted _ _⟩, fun _ => trivial⟩
  noted _ _ := spares_touch hc _

theorem announces_sparing [EventTracer T] : Announces (sparing c : Frame Fault (Machine T)) := fun _ =>
  .modify fun _ => spares_same hc rfl rfl

end Settling

/-! ## The transaction -/

variable [EventTracer T]

namespace Runner

variable {fuel : Nat} {r : Runner} {ext ext' : Ext} {result : CallResult T} {c : Cell C}

/-- A cell that the run itself journals is undone to what it was before the transaction. -/
theorem reverted_cell (hto : r.call.to_ ≠ 0) (h : r.apply fuel ext = .ok result ext') (hrev : result.evm.reverted = true)
    (hc : c.Spared r.call.from_ r.header.miner) (hk : c.known ext)
    (hrun : ∀ sc s ret t, r.topFrame ext = some (sc, s) → executeWithContext fuel sc s = .ok ret (t : Machine T) →
      c.known s.ext → Journaled c s.trail t.trail) : c.view ext' = c.view ext := by
  obtain ⟨code, reduction, created, prep, ret, started, m, ended, settled, bumped, hstart, hphases,
    hbump, -, hevm, -, -, rfl⟩ :=
    apply_called hto h
  obtain ⟨i, hruns, hext, hmachine, hheader⟩ := runTop_ok hphases.runs
  have htop : r.topFrame ext = some (topScope code r.call prep.2.2.2,
      ⟨.withTracer m.exe.header (EventTracer.fork m.exe.tracer), m.evm, m.ext⟩) := by
    simp only [topFrame, hstart, if_pos hto, hphases.prepares]
  have hbefore : (journaling c).ok (r.machine ext) m :=
    (journaling c).trans ((journals_start hc hto).ok hstart) ((journals_prepare hc _ rfl).ok hphases.prepares)
  have hknown : c.known m.ext := c.extends_known hbefore.1 hk
  have hframe := hrun _ _ _ _ htop hruns hknown
  obtain ⟨ts, hts, hback⟩ := (hbefore.2 hk).trans hframe
  have hts : ended.evm.touches = ts := by
    rw [hmachine]
    exact hts
  obtain ⟨fee, word, m₀, m₁, m₂, hundo, hsender, hcoinbase, -, rfl⟩ := (settle_ok hphases.settles).settles
  have hbooked₀ : Booked ended m₀ := by
    unfold undoReverted at hundo
    split at hundo
    · exact (books_onExt (sameTx_revert _)).ok hundo
    · cases hundo
      exact booking.refl _
  have hbooked₁ : Booked m₀ m₁ := (works_booking.settleSender _ _ _ _).ok hsender
  have hbooked₂ : Booked m₁ m₂ := (works_booking.payCoinbase announces_booking _).ok hcoinbase
  have hbooked₃ : Booked _ bumped := (works_booking.rebumpReverted _).ok hbump
  have hreverted : ended.evm.reverted = true := by
    rw [hevm, hbooked₃.evm] at hrev
    have hrev : m₂.evm.reverted = true := hrev
    rwa [hbooked₂.evm, hbooked₁.evm, hbooked₀.evm] at hrev
  have hminer : m₁.exe.header.miner = r.header.miner := by
    have hout := outside.trans ((outside_start r).ok hstart) ((outside_prepare _ _).ok hphases.prepares)
    rw [hbooked₁.exe, hbooked₀.exe]
    exact congrArg Header.miner (hheader.trans hout.header)
  rw [undoReverted, if_pos hreverted] at hundo
  obtain ⟨e, hundone, rfl⟩ := onExt_ok hundo
  have hview : c.view e = c.view ext := by
    rw [c.reverted hundone, hts, hext]
    exact hback
  have h₁ : (sparing c).ok { ended with ext := e } m₁ :=
    ((looks_sparing hc).settleSender (bills_sparing hc (.inl rfl)) _ _ _).ok hsender
  have h₂ : (sparing c).ok m₁ m₂ :=
    (wp_of_ok hcoinbase).1 ((looks_sparing hc).payCoinbase (announces_sparing hc) (bills_sparing hc (.inr hminer)) _)
  have h₃ : (sparing c).ok _ bumped := ((looks_sparing hc).rebumpReverted (counts_sparing hc)).ok hbump
  have hk' : c.known e := by
    have hstack := (prepares_marks.topFrame htop).2
    obtain ⟨w, hw, hf⟩ := run_follows (by rw [hstack]; exact Nat.zero_le _) hruns
    have hext' : ended.ext.Extends e := revert_extends hundone
    rw [hext] at hext'
    exact c.extends_known ((hw.extends.trans hf.extends).trans hext') hknown
  exact (((sparing c).trans h₁ ((sparing c).trans h₂ h₃)).2 hk').trans hview

/-- What a reverted transaction leaves of the accounts that were loaded. -/
structure Reverted (r : Runner) (ext ext' : Ext) : Prop where
  others : ∀ a, a ≠ r.call.from_ → a ≠ r.header.miner → (ext.state.lookup a).isSome →
    Field.whole.get (ext'.orDefault a) = Field.whole.get (ext.orDefault a)
  code : ∀ a, (ext.state.lookup a).isSome → (ext'.orDefault a).code.1 = (ext.orDefault a).code.1
  nonces : ∀ a, a ≠ r.call.from_ → (ext.state.lookup a).isSome → (ext'.orDefault a).nonce = (ext.orDefault a).nonce
  slots : ∀ a key, ext'.slotOf a key = ext.slotOf a key

omit [Crypto] [EventTracer T] in
/-- The undo of a field is that of the whole account, as far as the field shows it. -/
theorem undoable_of_whole (f : Field C) (g : Word × Word × Bytes → C) (hg : ∀ x, f.get x = g (Field.whole.get x))
    (h : History T)
    (hh : h.Undoable Field.whole) : h.Undoable f := by
  induction h with
  | done | cut => trivial
  | step x rest ih => exact ⟨hh.1, ih hh.2⟩
  | call x inner pending opened callee ended rest ihcallee ih =>
    obtain ⟨hx, hcallee, hfits, hrest⟩ := hh
    refine ⟨hx, ihcallee hcallee, fun r hr => ?_, ih hrest⟩
    have hfit := hfits r hr
    refine ⟨fun hcreation hkeeps => ⟨(hfit.kept hcreation hkeeps).1, ?_⟩, fun hdrop a ha => ?_⟩
    · rw [hg, hg, (hfit.kept hcreation hkeeps).2]
    · rw [hg, hg, hfit.dropped hdrop a ha]

/-- A reverted call leaves every account but the sender and the coinbase as it was, of these two
    all but what the settlement and the count of the sender write, and every slot. -/
theorem apply_reverted (hto : r.call.to_ ≠ 0) (h : r.apply fuel ext = .ok result ext') (hrev : result.evm.reverted = true)
    (hh : ∀ sc s, r.topFrame ext = some (sc, s) → (history fuel sc (s : Machine T)).Undoable Field.whole) :
    r.Reverted ext ext' := by
  have hfield : ∀ {D : Type} (f : Field D) (g : Word × Word × Bytes → D), (∀ x, f.get x = g (Field.whole.get x)) → ∀ a,
      (a = r.call.from_ ∨ a = r.header.miner → Moneyless f.get) →
      (a = r.call.from_ → ∀ (x : Account) n, f.get { x with nonce := n } = f.get x) → (ext.state.lookup a).isSome →
      f.get (ext'.orDefault a) = f.get (ext.orDefault a) := fun f g hg a hpaid hcounted hl => by
    refine reverted_cell hto h hrev (spared_field f hpaid hcounted) (.inl hl) fun sc s ret t htop hrun hk => ?_
    have hstack := (prepares_marks.topFrame htop).2
    obtain ⟨w, hw, hf⟩ := run_follows (by rw [hstack]; exact Nat.zero_le _) hrun
    have hread : Journaled (f.cell a) s.trail w := hw.journaled (f.covers (T := T) a).read hk
    exact hread.trans (hf.journaled_field f (undoable_of_whole f g hg _ (hh sc s htop)) a
      ((f.cell a).extends_known hw.extends hk))
  refine ⟨fun a hfrom hminer hl => ?_, fun a hl => ?_, fun a hfrom hl => ?_, fun a key => ?_⟩
  · exact hfield Field.whole id (fun _ => rfl) a (fun hor => (hor.elim hfrom hminer).elim) (fun h => absurd h hfrom) hl
  · exact hfield Field.code (·.2.2) (fun _ => rfl) a (fun _ _ _ => rfl) (fun _ _ _ => rfl) hl
  · exact hfield Field.nonce (·.2.1) (fun _ => rfl) a (fun _ _ _ => rfl) (fun h => absurd h hfrom) hl
  · refine reverted_cell hto h hrev (spared_slot a key _ _) trivial fun sc s ret t htop hrun _ => ?_
    have hstack := (prepares_marks.topFrame htop).2
    obtain ⟨w, hw, hf⟩ := run_follows (by rw [hstack]; exact Nat.zero_le _) hrun
    have hread : Journaled (slotCell a key) s.trail w := hw.journaled (fun _ _ ha => ha.journaled_slot a key) trivial
    exact hread.trans (hf.journaled_storage (aside_slot a key))

end Runner

end

namespace Sample

/-- 0xaa pays 0xbb, stores a word and reverts. -/
def paying : Ext where
  state := (machine [(0xca, 1000000, []), (0xbb, 0, []),
    (0xaa, 5, [0x5f, 0x5f, 0x5f, 0x5f, 0x60, 1, 0x60, 0xbb, 0x61, 0xff, 0xff, 0xf1, 0x60, 1, 0x5f, 0x55, 0x5f,
      0x5f, 0xfd])]).ext.state
  txCtx := { gasPrice := 1 }

/-- The top frame, when there is one, and those below it only call. -/
def onlyCalls (fuel : Nat) (r : Runner) (ext : Ext) : Bool :=
  match r.topFrame (T := NoopTracer) ext with
  | none => true
  | some (sc, s) => decide (∀ y ∈ (history fuel sc s).steps, ¬y.isCreation ∧ y.op ≠ .selfdestruct)

theorem of_onlyCalls {fuel : Nat} {r : Runner} {ext : Ext} {sc : Scope} {s : Machine NoopTracer}
    (h : onlyCalls fuel r ext = true) (htop : r.topFrame ext = some (sc, s)) :
    ∀ y ∈ (history fuel sc s).steps, ¬y.isCreation ∧ y.op ≠ .selfdestruct := by
  unfold onlyCalls at h
  rw [htop] at h
  exact of_decide_eq_true h

end Sample

open Sample

/-- What 0xbb was paid is back with 0xaa. -/
theorem Runner.apply_reverted_paying : ∃ (result : CallResult NoopTracer) (ext' : Ext),
    (transaction []).apply 20 paying = .ok result ext' ∧ result.evm.reverted = true ∧
      (transaction []).Reverted paying ext' := by
  have hrun : returns ((transaction []).apply (T := NoopTracer) 20 paying) (fun result _ => result.evm.reverted) := by
    decide +kernel
  obtain ⟨result, ext', h, hrev⟩ := of_returns hrun
  refine ⟨result, ext', h, hrev, Runner.apply_reverted (by decide) h hrev fun sc s htop => ?_⟩
  obtain ⟨sc', s', ret, t, htop', hrun⟩ := apply_topFrame h
  rw [htop, Option.some.injEq, Prod.mk.injEq] at htop'
  obtain ⟨rfl, rfl⟩ := htop'
  have hstack := (prepares_marks.topFrame htop).2
  obtain ⟨w, -, hf⟩ := run_follows (by rw [hstack]; exact Nat.zero_le _) hrun
  exact hf.undoable _ (of_onlyCalls (by decide +kernel) htop)

end Solenoid
