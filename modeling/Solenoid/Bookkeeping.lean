/-
  Solenoid.Bookkeeping — what a transaction does around its top frame, account by account.

  Two frames: a phase keeps a view of one account (`keeping`), and the touches it appends
  are of certain kinds (`noting`). A phase that writes a balance keeps every view that shows
  none (`Moneyless`), so the same lemmas serve the coinbase's balance and the sender's nonce.
-/
import Solenoid.Carries
import Solenoid.Deployments
import Solenoid.Settlement

namespace Solenoid

open Hoare

section

variable {T : Type} {C : Type} [Crypto] [EventTracer T]

/-! ## A view of one account -/

section

omit [EventTracer T]

omit [Crypto] in
/-- A run of `Ext` within the machine. -/
theorem onExt_ok {α : Type} {m : Run Ext α} {x : α} {s t : Machine T} (h : onExt m s = .ok x t) :
    ∃ e, m s.ext = .ok x e ∧ t = { s with ext := e } := by
  unfold onExt at h
  split at h
  · next x' e hm =>
    cases h
    exact ⟨e, hm, rfl⟩
  · cases h

theorem prepares_extends : Prepares Ext.Extends where
  refl := .refl
  trans := .trans
  pull hp := (Ext.pulled hp).extends
  mutate e a _ _ := Ext.extends_mutate e a _
  install e a _ := Ext.extends_mutate e a _
  openAccount e a := Ext.extends_insert e a _
  sets _ _ _ _ := ⟨fun _ h => h, rfl⟩

/-- The runs that keep a view of account `a`. -/
def keeping (view : Account → C) (a : Address) : Frame Fault (Machine T) where
  ok s t := (t.ext.account? a).map view = (s.ext.account? a).map view
  err _ _ _ := True
  refl _ := rfl
  trans h h' := h'.trans h
  fail _ _ := trivial

omit [Crypto] in
/-- The view shows no balance. -/
def Moneyless (view : Account → C) : Prop := ∀ (x : Account) (v : Word), view { x with value := v } = view x

variable {view : Account → C} {a : Address}

theorem keeps_modifyExt {f : Machine T → Machine T} (hs : ∀ s, (f s).ext.state = s.ext.state)
    (hr : ∀ s, (f s).ext.remote = s.ext.remote) : Keeps (keeping view a) (modify f : M T Unit) := by
  refine .modify fun s => ?_
  show ((f s).ext.account? a).map view = _
  unfold Ext.account?
  rw [hs, hr]

theorem keeps_noted (τ : AccountTouch) : Keeps (keeping view a) (touch τ : M T Unit) :=
  keeps_modifyExt (fun _ => rfl) fun _ => rfl

theorem keeps_lifted {α : Type} (e : Except Fault α) : Keeps (keeping view a) (lift e : M T α) := fun _ =>
  (wp_lift e).2 ⟨fun _ _ => rfl, fun _ _ => trivial⟩

theorem keeps_pulled (b : Address) : Keeps (keeping view a) (onExt (Ext.pull b) : M T Account) := fun _ =>
  (wp_onExt _).2 (wp_def.2 ⟨fun _ _ h => congrArg (Option.map view) (Ext.account?_pull h), fun _ _ _ => trivial⟩)

theorem keeps_written {b : Address} {f : Account → Account} (hf : b = a → ∀ x, view (f x) = view x) :
    Keeps (keeping view a) (onExt (Ext.accountMut b f) : M T Unit) := fun s =>
  (wp_onExt _).2 <| (Ext.wp_accountMut f).2 ⟨fun hl => by
    show (((s.ext.mutate b f).account? a).map view) = _
    rw [Ext.account?_mutate f hl]
    split
    · next h =>
      subst h
      rw [Option.map_map]
      exact congrArg (fun g => Option.map g _) (funext (hf rfl))
    · rfl, fun _ => trivial⟩

theorem keeps_credited {b : Address} (v : Word) (hf : b = a → Moneyless view) :
    Keeps (keeping view a) (onExt (Ext.credit b v) : M T Unit) := fun s => by
  refine (wp_onExt _).2 (Ext.wp_credit (fun x hx _ => ?_) fun _ => trivial)
  have hl : (s.ext.state.lookup b).isSome := by
    rw [hx]
    rfl
  have hw := (keeps_written (T := T) fun h y => hf h y (x.value + v)) s
  exact ((Ext.wp_accountMut _).1 ((wp_onExt _).1 hw)).1 hl

theorem keeps_warmAddress (b : Address) : Keeps (keeping view a) (onExt (Ext.warmAddress b) : M T Bool) := fun _ => by
  simp only [wp_onExt, Ext.warmAddress, wp_bind, wp_get, wp_set, wp_pure]
  rfl

theorem keeps_warmed (b : Address) : Keeps (keeping view a) (warmTouch b : M T Unit) :=
  keeps_warmTouch_of (keeps_warmAddress b) (keeps_noted _)

theorem keeps_listed : Keeps (keeping view a) (onExt Ext.applyAccessList : M T Unit) := fun s => by
  obtain ⟨hs, hr⟩ := state_foldl_accessList s.ext.txCtx.accessList s.ext
  refine (wp_onExt _).2 ((wp_modify _).2 ?_)
  show (Ext.account? _ a).map view = _
  unfold Ext.account?
  rw [hs, hr]

theorem reads_keeping : Reads (keeping view a : Frame Fault (Machine T)) where
  lifted := keeps_lifted
  pulled := keeps_pulled
  warmed := keeps_warmAddress
  warmTouch := keeps_warmed
  touchCode b := keeps_touchCode_of (keeps_pulled b) fun _ _ => keeps_noted _
  listed := keeps_listed

theorem values_keeping {b : Address} (h : b = a → Moneyless view) : Values (keeping view a : Frame Fault (Machine T)) b :=
  ⟨fun _ => keeps_written fun hb x => h hb x _, fun _ _ => keeps_noted _⟩

theorem earns_keeping {b : Address} (h : b = a → Moneyless view) : Earns (keeping view a : Frame Fault (Machine T)) b :=
  ⟨fun v => keeps_credited v h, fun _ _ => keeps_noted _⟩

theorem bills_keeping {b : Address} (h : b = a → Moneyless view) : Bills (keeping view a : Frame Fault (Machine T)) b :=
  ⟨fun _ => keeps_written fun hb x => h hb x _, fun _ _ => keeps_noted _⟩

theorem fuels_keeping : Fuels (keeping view a : Frame Fault (Machine T)) :=
  ⟨fun _ => keeps_modifyExt (fun _ => rfl) fun _ => rfl, keeps_modifyExt (fun _ => rfl) fun _ => rfl⟩

/-- Another account that is opened. -/
theorem Runner.keeps_openAccount {b : Address} (h : b ≠ a) : Keeps (keeping view a) (openAccount b : M T Unit) := by
  refine Keeps.bind (keeps_modifyExt ?_ ?_) fun _ => (keeps_warmed _).bind fun _ => .modify fun s => ?_
  · exact fun _ => rfl
  · exact fun _ => rfl
  · show (Ext.account? _ a).map view = _
    unfold Ext.account?
    rw [Finmap.lookup_insert_of_ne _ (Ne.symm h)]

end

theorem announces_keeping : Announces (keeping view a : Frame Fault (Machine T)) := fun _ =>
  keeps_modifyExt (fun _ => rfl) fun _ => rfl

/-! ## The touches before the frame -/

/-- The runs whose touches are in `P`. -/
def noting (P : AccountTouch → Prop) : Frame Fault (Machine T) where
  ok s t := ∃ ts, t.evm.touches = s.evm.touches ++ ts ∧ ∀ τ ∈ ts, P τ
  err _ _ _ := True
  refl _ := ⟨[], (List.append_nil _).symm, fun _ h => (List.not_mem_nil h).elim⟩
  trans := by
    rintro s t u ⟨ts, hts, hp⟩ ⟨ts', hts', hp'⟩
    refine ⟨ts ++ ts', by rw [hts', hts, List.append_assoc], fun τ hτ => ?_⟩
    exact (List.mem_append.1 hτ).elim (hp τ) (hp' τ)
  fail _ _ := trivial

/-- A touch of what the transaction does itself, the sender's nonce aside. -/
def AccountTouch.isPlain : AccountTouch → Bool
  | warmUp .. | getCode .. | setValue .. => true
  | _ => false

section Noting

variable {P : AccountTouch → Prop}

section

omit [Crypto] [EventTracer T]

theorem noting_same {s t : Machine T} (h : t.evm.touches = s.evm.touches) : (noting P).ok s t :=
  ⟨[], by rw [h, List.append_nil], fun _ h => (List.not_mem_nil h).elim⟩

theorem notes_modify {f : Machine T → Machine T} (h : ∀ s, (f s).evm.touches = s.evm.touches) :
    Keeps (noting P) (modify f : M T Unit) := .modify fun s => noting_same (h s)

theorem notes_onExt {α : Type} (m : Run Ext α) : Keeps (noting P) (onExt m : M T α) := fun _ =>
  (wp_onExt m).2 (wp_def.2 ⟨fun _ _ _ => noting_same rfl, fun _ _ _ => trivial⟩)

theorem notes_lift {α : Type} (e : Except Fault α) : Keeps (noting P) (lift e : M T α) := fun _ =>
  (wp_lift e).2 ⟨fun _ _ => noting_same rfl, fun _ _ => trivial⟩

theorem notes_touch {τ : AccountTouch} (h : P τ) : Keeps (noting P) (touch τ : M T Unit) :=
  .modify fun _ => ⟨[τ], rfl, fun τ' hτ => by rwa [List.mem_singleton.1 hτ]⟩

end

omit [Crypto] [EventTracer T] in
theorem fuels_noting : Fuels (noting P : Frame Fault (Machine T)) :=
  ⟨fun _ => notes_modify fun _ => rfl, notes_modify fun _ => rfl⟩

omit [Crypto] in
theorem announces_noting : Announces (noting P : Frame Fault (Machine T)) := fun _ => notes_modify fun _ => rfl

omit [EventTracer T] in
theorem looks_noting : Looks (noting P : Frame Fault (Machine T)) := ⟨notes_lift, fun _ => notes_onExt _⟩

omit [Crypto] [EventTracer T] in
theorem bills_noting {a : Address} (h : ∀ old new, P (.feePay a old new)) : Bills (noting P : Frame Fault (Machine T)) a :=
  ⟨fun _ => notes_onExt _, fun _ _ => notes_touch (h _ _)⟩

variable (hP : ∀ τ : AccountTouch, τ.isPlain → P τ)

include hP

omit [Crypto] [EventTracer T] in
theorem notes_warmTouch (a : Address) : Keeps (noting P) (warmTouch a : M T Unit) :=
  keeps_warmTouch_of (notes_onExt _) (notes_touch (hP _ rfl))

omit [EventTracer T] in
theorem reads_noting : Reads (noting P : Frame Fault (Machine T)) where
  toLooks := looks_noting
  warmed _ := notes_onExt _
  warmTouch := notes_warmTouch hP
  touchCode _ := keeps_touchCode_of (notes_onExt _) fun _ _ => notes_touch (hP _ rfl)
  listed := notes_onExt _

omit [Crypto] [EventTracer T] in
theorem values_noting (a : Address) : Values (noting P : Frame Fault (Machine T)) a :=
  ⟨fun _ => notes_onExt _, fun _ _ => notes_touch (hP _ rfl)⟩

omit [Crypto] [EventTracer T] in
theorem earns_noting (a : Address) : Earns (noting P : Frame Fault (Machine T)) a :=
  ⟨fun _ => notes_onExt _, fun _ _ => notes_touch (hP _ rfl)⟩

theorem notes_transferValue (call : Call) : Keeps (noting P) (transferValue call : M T Unit) :=
  (reads_noting hP).transferValue announces_noting (values_noting hP _) (earns_noting hP _)

omit [EventTracer T] in
theorem Runner.notes_start (r : Runner) : Keeps (noting P) (r.start : M T (Bytecode × Int × Address)) := by
  refine (reads_noting hP).start fuels_noting (fun created => ?_) fun _ =>
    looks_noting.fundCreated (values_noting hP _) (values_noting hP _)
  refine Keeps.bind (notes_modify fun _ => rfl) fun _ => ?_
  refine (notes_warmTouch hP _).bind fun _ => ?_
  exact notes_modify fun _ => rfl

end Noting

omit [Crypto] in
/-- The frame of a call runs in an executor of its own. -/
theorem runTop_ok {exec : Exec T} {sc : Scope} {s t : Machine T} {ret : Bytes} (h : runTop exec sc s = .ok ret t) :
    ∃ i : Machine T, exec sc ⟨.withTracer s.exe.header (EventTracer.fork s.exe.tracer), s.evm, s.ext⟩ = .ok ret i ∧
      t.ext = i.ext ∧ t.evm = i.evm ∧ t.exe.header = s.exe.header := by
  unfold runTop at h
  split at h
  · next ret' i hrun =>
    cases h
    exact ⟨i, hrun, rfl, rfl, rfl⟩
  · cases h

theorem Runner.topEnd_called {fuel : Nat} {r : Runner} {ext : Ext} {code : Bytecode} {reduction : Int} {created : Address}
    {prep : Word × Word × Int × Word} {ret : Bytes} {started m ended settled : Machine T} (hto : r.call.to_ ≠ 0)
    (hstart : r.start (r.machine ext) = .ok (code, reduction, created) started)
    (hphases : Executes fuel code r.call started prep m ret ended settled) :
    ∃ i : Machine T, r.topEnd fuel ext = some (ret, i) ∧ ended.ext = i.ext ∧ ended.evm = i.evm ∧
      ended.exe.header = m.exe.header := by
  obtain ⟨i, hrun, hext, hevm, hheader⟩ := runTop_ok hphases.runs
  refine ⟨i, ?_, hext, hevm, hheader⟩
  simp only [topEnd, topFrame, hstart, if_pos hto, hphases.prepares, hrun]

/-! ## The phases around the frame of a creation -/

namespace Runner

variable {view : Account → C} {a : Address} {r : Runner}

omit [EventTracer T]

omit [Crypto] in
theorem createdGas_keeps {reduction : Int} {ret : Bytes} {result : Bytes × Int} {s t : Machine T}
    (h : r.createdGas reduction ret s = .ok result t) : t.ext = s.ext ∧ t.evm.touches = s.evm.touches := by
  obtain ⟨_, _, hget, h⟩ := bind_ok h
  cases hget
  dsimp only at h
  split at h
  · obtain ⟨_, _, hmodify, h⟩ := bind_ok h
    cases hmodify
    obtain ⟨gasLimit, -, h⟩ := bind_lift_ok h
    obtain ⟨o, u, htake, h⟩ := bind_ok h
    cases h
    have hwp : wp (attempt (takeGas gasLimit)) (fun _ u => u.ext = s.ext ∧ u.evm.touches = s.evm.touches)
        (fun _ _ => True) { s with evm.reverted := true } := by
      simp only [wp_attempt, takeGas, Evm.takeGas, wp_onEvm, wp_bind, wp_get, wp_modify, wp_ite, wp_pure,
        Solenoid.wp_error]
      exact ⟨fun _ => ⟨trivial, trivial⟩, fun _ => ⟨fun _ _ => ⟨trivial, rfl⟩, fun _ => trivial⟩⟩
    exact (of_ok hwp htake :)
  · cases h
    exact ⟨rfl, rfl⟩

/-- The payment of a creation's coinbase leaves at most its own touch. -/
theorem notes_payCreated (r : Runner) (gas : Int) :
    Keeps (noting fun τ => τ.isFeePay) (r.payCreated gas : M T Unit) :=
  looks_noting.payCreated (bills_noting fun _ _ => rfl) gas

theorem keeps_install {created : Address} {code : Bytes}
    (h : created = a → ∀ (x : Account) c n, view { x with code := c } = view x ∧ view { x with nonce := n } = view x) :
    Keeps (keeping view a) (install created code : M T Unit) := by
  refine (keeps_written fun hb x => (h hb x _ 0).1).bind fun _ => ?_
  refine (keeps_written fun hb x => (h hb x ([], 0) _).2).bind fun _ => ?_
  exact keeps_noted _

end Runner

end

end Solenoid
