/-
  Solenoid.Destruction — what SELFDESTRUCT leaves of an account.

  The opcode moves the balance and marks the account, whoever created it; the mark lasts to
  the end of the transaction, through every undo, and `Ext::reset` then drops the account.
  What is read of it afterwards is what the remote has at its block.
-/
import Solenoid.Bookkeeping
import Solenoid.Calling
import Solenoid.Storage
import Solenoid.Turns

namespace Solenoid

open Hoare

section

variable {T : Type} [Crypto] [EventTracer T]

/-! ## To the end of the run -/

section Lasts

variable {R : Ext → Ext → Prop}

/-- What the instruction leaves is what the loop goes on with. -/
theorem executeStep_trail {exec : Exec T} {sc : Scope} {instruction : Instruction} {s u t : Machine T} {r : StepResult}
    {o : Option Bytes} (h : executeInstruction exec sc instruction s = .ok r u)
    (hstep : executeStep exec sc instruction s = .ok o t) : t.trail = u.trail :=
  (of_ok (wp_executeStep_trail (x := ⟨sc, instruction, s⟩) (Q := (· = u.trail)) ((wp_of_ok h).2 rfl)) hstep :)

omit [EventTracer T] in
/-- The frame of a call came back, and was closed. -/
theorem Follows.closed {sc : Scope} {h : History T} {t z : Trail} (hf : Follows sc h t z) {x : Step T} {inner : Inner T}
    {pending : Pending} {opened : Machine T} {callee rest : History T} {ended : Option (Ended T)}
    (hh : h = .call x inner pending opened callee ended rest) : ∃ r u, ended = some r ∧
      Closes x inner pending r.output { opened.trail with ext := r.machine.ext } u ∧ Follows x.scope rest u z := by
  cases hf with
  | done | cut | step => cases hh
  | call _ _ _ _ _ closes next =>
    cases hh
    exact ⟨_, _, rfl, closes, next⟩

/-- Every opened frame of a turn that went through came back, and was closed. -/
theorem Turned.closed {exec : Exec T} {hist : Scope → Machine T → History T} {x : Step T} {o : Option Bytes}
    {t : Machine T} (h : Turned exec hist x o t) {inner : Inner T} {pending : Pending} {opened : Machine T}
    (hopened : openedFrame x.scope x.instruction x.before = some (inner, pending, opened)) :
    ∃ ret m, exec inner.scope (inner.machine opened.ext) = .ok ret m ∧
      Closes x inner pending (Ended.output ⟨ret, m⟩) { opened.trail with ext := m.ext } t.trail := by
  have hgoes := h.goes .cut t.trail (fun hcut => (nomatch hcut)) (.cut _ _)
  rw [historyNode, hopened] at hgoes
  obtain ⟨r, u, hended, hcloses, hcut⟩ := hgoes.closed rfl
  obtain ⟨-, hend⟩ := hcut.of_isCut rfl
  cases hrun : exec inner.scope (inner.machine opened.ext) with
  | error f m =>
    rw [hrun] at hended
    cases hended
  | ok ret m =>
    rw [hrun] at hended
    cases hended
    rw [hend]
    exact ⟨ret, m, rfl, hcloses⟩

/-- What an instruction other than a call leaves has `R` to the end of the run. By induction on
    the bound: the instruction itself, one of the frame it opens, or one of the turns after it. -/
theorem loop_lasts (hR : Lasting R) (fuel : Nat) : ∀ (sc : Scope) (s : Machine T) (ret : Bytes) (t : Machine T),
    s.evm.stack.length ≤ stackLimit → executeLoop fuel sc s = .ok ret t → ∀ x ∈ (historyLoop fuel sc s).steps,
      ∀ r u, x.op.isCall = false → (∀ exec, executeInstruction exec x.scope x.instruction x.before = .ok r u) →
        R u.ext t.ext := by
  induction fuel with
  | zero => exact fun _ _ _ _ _ hrun => (by cases hrun)
  | succ fuel ih =>
    intro sc s ret t hs hrun x hx r u hcall hu
    cases hi : currentInstruction sc s.evm with
    | none =>
      rw [historyLoop_done hi] at hx
      cases hx
    | some instruction =>
      rw [executeLoop_step hi] at hrun
      rw [historyLoop_step hi] at hx
      cases hstep : executeStep (executeWithContext fuel) sc instruction s with
      | error f v =>
        rw [hstep] at hrun
        cases hrun
      | ok o v =>
        have hturned : Turned (executeWithContext fuel) (history fuel) ⟨sc, instruction, s⟩ o v :=
          (wp_of_ok hstep).1 (wp_executeStep (x := ⟨sc, instruction, s⟩) (tracks_run fuel) hs)
        rw [hstep] at hrun hx
        have hrest : R v.ext t.ext := by
          cases o with
          | none => exact (loop_follows fuel _ _ _ _ (hturned.stack rfl) hrun).lasting hR
          | some out =>
            cases hrun
            exact hR.refl _
        rcases mem_historyNode hx with rfl | ⟨inner, pending, opened, hopened, hx⟩ | hx
        · rw [show u.ext = v.ext from congrArg Trail.ext (executeStep_trail (hu _) hstep).symm]
          exact hrest
        · obtain ⟨ret', m, hinner, hcloses⟩ := hturned.closed hopened
          have hcallee : R u.ext m.ext := by
            have hfresh := (opens_of_openedFrame (x := ⟨sc, instruction, s⟩) hopened).fresh
            obtain ⟨w, he, ⟨-, hh, -, -, -⟩ | ⟨-, hh, hloop⟩⟩ :=
              frameWith_ok (historyLoop fuel) hinner
            · rw [hh] at hx
              cases hx
            · rw [hh] at hx
              have hw : Within (Effect.isRead ·) _ w := (keeps_enterFrame _).ok he
              refine ih _ _ _ _ (hw.stack ?_) hloop x hx r u hcall hu
              rw [Inner.machine, hfresh.evm]
              exact Nat.zero_le _
          exact hR.trans hcallee (hR.trans (Closes.lasting hR hcloses) hrest)
        · cases o with
          | none => exact ih _ _ _ _ (hturned.stack rfl) hrun x hx r u hcall hu
          | some out => cases hx

theorem run_lasts (hR : Lasting R) {fuel : Nat} {sc : Scope} {s t u : Machine T} {ret : Bytes} {x : Step T}
    {r : StepResult} (hs : s.evm.stack.length ≤ stackLimit) (hrun : executeWithContext fuel sc s = .ok ret t)
    (hx : x ∈ (history fuel sc s).steps) (hcall : x.op.isCall = false)
    (hu : ∀ exec, executeInstruction exec x.scope x.instruction x.before = .ok r u) : R u.ext t.ext := by
  obtain ⟨w, he, ⟨-, hh, -, -, -⟩ | ⟨-, hh, hloop⟩⟩ := frameWith_ok (historyLoop fuel) hrun
  · rw [history, hh] at hx
    cases hx
  · rw [history, hh] at hx
    have hw : Within (Effect.isRead ·) s w := (keeps_enterFrame sc).ok he
    exact loop_lasts hR fuel _ _ _ _ (hw.stack hs) hloop x hx r u hcall hu

end Lasts

/-! ## After the top frame -/

namespace Readies

variable {R : Ext → Ext → Prop} (h : Readies R)

include h

omit [EventTracer T]

theorem installed (created : Address) (code : Bytes) : Keeps h.frame (Runner.install created code : M T Unit) :=
  Keeps.bind (h.onExt fun e => (Ext.wp_accountMut _).2 ⟨fun _ => h.install e created code, fun _ => trivial⟩) fun _ =>
    Keeps.bind (h.wrote _ fun _ => ⟨rfl, rfl⟩) fun _ => h.touched _

/-- The end of a creation that was not reverted. -/
theorem deployed (r : Runner) (created : Address) (code : Bytes) : Keeps h.frame (do
    let _ ← Solenoid.onExt (Ext.pull created)
    let _ ← Solenoid.onExt (Ext.pull r.call.from_)
    Runner.countSender r.call.from_
    Runner.install created code : M T Unit) :=
  (h.loaded _).bind fun _ => (h.loaded _).bind fun _ => (h.works.countSender _).bind fun _ => h.installed _ _

end Readies

/-- From the end of its top frame to its own a transaction keeps what an undo keeps too. -/
theorem Runner.apply_after {R : Ext → Ext → Prop} (hp : Prepares R)
    (hundo : ∀ evm : Evm, Keeps hp.frame (onExt evm.revert : M T Unit)) {fuel : Nat} {r : Runner} {ext ext' : Ext}
    {result : CallResult T} (h : r.apply fuel ext = .ok result ext') :
    ∃ ret t, r.topEnd fuel ext = some (ret, (t : Machine T)) ∧ R t.ext ext' := by
  by_cases hto : r.call.to_ = 0
  · obtain ⟨code, reduction, created, started, ret, ended, deployed, gas, metered, paid, finalised, settled, hstart,
      hphases, -, -, -, -, -, rfl⟩ := apply_created hto h
    have hpaid : R metered.ext paid.ext := (hp.works.payCreated r gas).ok hphases.pays
    have hfinal : R paid.ext finalised.ext :=
      (hp.works.finalise hundo r created (hp.installed created deployed)).ok hphases.finalises
    have hcharged : R finalised.ext settled.ext := (hp.works.chargeSender r gas).ok hphases.charges
    refine ⟨ret, ended, topEnd_created hto hstart hphases.runs, ?_⟩
    rw [← (createdGas_keeps hphases.meters).1]
    exact hp.trans hpaid (hp.trans hfinal hcharged)
  · obtain ⟨code, reduction, created, prep, ret, started, m, ended, settled, bumped, hstart, hphases,
      hbump, -, -, -, -, rfl⟩ :=
      apply_called hto h
    obtain ⟨i, htop, hext, -, -⟩ := topEnd_called hto hstart hphases
    have hsettled : R ended.ext settled.ext :=
      (hp.works.settle hp.announces hundo r.call _ _ _ ret).ok hphases.settles
    have hbumped : R settled.ext bumped.ext := (hp.works.rebumpReverted _).ok hbump
    refine ⟨ret, i, htop, ?_⟩
    rw [← hext]
    exact hp.trans hsettled hbumped

theorem Runner.apply_lasts {R : Ext → Ext → Prop} (hp : Prepares R) (hR : Lasting R) {fuel : Nat} {r : Runner}
    {ext ext' : Ext} {result : CallResult T} (h : r.apply fuel ext = .ok result ext') :
    ∃ ret t, r.topEnd fuel ext = some (ret, (t : Machine T)) ∧ R t.ext ext' :=
  apply_after hp (fun evm => hp.onExt fun e => wp_mono (lasts_revert hR evm e) (fun _ _ he => he) fun _ _ _ => trivial) h

/-! ## The mark -/

/-- The accounts stay loaded and the marks are kept. -/
structure Ext.Marks (e e' : Ext) : Prop where
  loaded : e.Extends e'
  kept : e.destroyedAccounts ⊆ e'.destroyedAccounts

namespace Ext.Marks

omit [EventTracer T]

omit [Crypto] in
theorem of_extends {e e' : Ext} (h : e.Extends e') (hd : e'.destroyedAccounts = e.destroyedAccounts) : e.Marks e' :=
  ⟨h, fun _ ha => hd ▸ ha⟩

theorem pull {a : Address} {account : Account} {e e' : Ext} (h : Ext.pull a e = .ok account e') : e.Marks e' := by
  refine .of_extends (Ext.pulled h).extends ?_
  cases hp : Ext.pulled h <;> rfl

theorem get {a : Address} {key val : Word} {e e' : Ext} (h : Ext.get a key e = .ok val e') : e.Marks e' := by
  obtain ⟨account, e₁, hp, hg⟩ := Ext.got h
  have hfirst := Ext.Marks.pull hp
  refine ⟨hfirst.loaded.trans hg.extends, fun b hb => ?_⟩
  have hb := hfirst.kept hb
  cases hg <;> exact hb

theorem act {effect : Effect} {t u : Trail} (h : Act effect t u) : t.ext.Marks u.ext := by
  refine ⟨h.extends, ?_⟩
  cases h with
  | warmAddress | warmStorage | note | storeTransient | log | mark | openAccount => exact fun _ h => h
  | load h => exact (Ext.Marks.pull h).kept
  | fetch h => exact (Ext.Marks.get h).kept
  | store h => exact fun b hb => (Ext.Marks.get h).kept hb
  | transfer | bump =>
    intro b hb
    simpa [Ext.setValue, Ext.setNonce] using hb
  | destroy =>
    intro b hb
    simp only [Ext.markDestroyed, Ext.setValue, Ext.destroyedAccounts_mutate]
    exact List.mem_append_left _ hb

end Ext.Marks

theorem prepares_marks : Prepares Ext.Marks where
  refl e := .of_extends (.refl e) rfl
  trans h h' := ⟨h.loaded.trans h'.loaded, fun _ ha => h'.kept (h.kept ha)⟩
  pull := .pull
  mutate e a _ _ := .of_extends (Ext.extends_mutate e a _) (Ext.destroyedAccounts_mutate e a _)
  install e a _ := .of_extends (Ext.extends_mutate e a _) (Ext.destroyedAccounts_mutate e a _)
  openAccount e a := .of_extends (Ext.extends_insert e a _) rfl
  sets _ _ _ _ := ⟨⟨fun _ h => h, rfl⟩, fun _ h => h⟩

theorem lasting_marks : Lasting Ext.Marks where
  refl := prepares_marks.refl
  trans := prepares_marks.trans
  act := .act
  undone τ e := by
    refine .of_extends (τ.extends_undone e) ?_
    cases τ with
    | setState a key val new isWarm => cases isWarm <;> rfl
    | getState a key val isWarm => cases isWarm <;> rfl
    | setNonce | setValue | create => exact Ext.destroyedAccounts_mutate _ _ _
    | _ => rfl
  mutate e a _ := .of_extends (Ext.extends_mutate e a _) (Ext.destroyedAccounts_mutate e a _)

/-! ## The reset -/

omit [Crypto] [EventTracer T] in
theorem lookup_foldl_erase (l : List Address) (m : Accounts) (a : Address) :
    (l.foldl (fun m addr => m.erase addr) m).lookup a = if a ∈ l then none else m.lookup a := by
  induction l generalizing m with
  | nil => rfl
  | cons b l ih =>
    rw [List.foldl_cons, ih]
    by_cases ha : a = b
    · subst ha
      simp
    · simp [ha]

namespace Ext

omit [EventTracer T]

omit [Crypto] in
/-- The destroyed accounts are dropped, and the others stay. -/
theorem lookup_reset (e : Ext) (tx : TxContext) (a : Address) :
    (e.reset tx).state.lookup a = if a ∈ e.destroyedAccounts then none else e.state.lookup a :=
  lookup_foldl_erase e.destroyedAccounts e.state a

/-- What the remote answers is all that is left of an account that is not loaded. -/
theorem account?_unloaded {e : Ext} {a : Address} {account : Account} (hl : e.state.lookup a = none) :
    e.account? a = some account ↔ ∃ remote, e.remote = some remote ∧ remote.Gives a account := by
  constructor
  · intro h
    obtain ⟨e', hpull⟩ := pull_ok h
    cases pulled hpull with
    | loaded hl' =>
      rw [hl] at hl'
      cases hl'
    | remote _ hr gives => exact ⟨_, hr, gives⟩
  · rintro ⟨remote, hr, gives⟩
    exact account?_remote hl hr gives

theorem read_unloaded {e : Ext} {a : Address} {account : Account} {remote : Remote} (hl : e.state.lookup a = none)
    (hr : e.remote = some remote) (gives : remote.Gives a account) (key : Word) : e.read a key = remote.storage a key := by
  obtain ⟨e', hpull⟩ := pull_ok (account?_remote hl hr gives)
  have hr' : e'.remote = some remote := (pull_remote hpull).trans hr
  simp only [Ext.read, Ext.get, bind, EStateM.bind, hpull, run_get, gives.state, Finmap.lookup_empty, hr']
  cases remote.storage a key <;> rfl

end Ext

/-- SELFDESTRUCT as it is to be, from the transaction's end `e` to the accounts `e'` the next
    one starts on: the balance is moved, and nothing else of the account goes. -/
structure Step.Retires (x : Step T) (cost : Int) (u : Machine T) (e e' : Ext) : Prop where
  swept : ∀ a, u.ext.balances a = x.before.ext.swept x.this x.beneficiary a
  surcharge : cost = 5000 + (if x.before.ext.isAddressWarm x.beneficiary then 0 else 2600) +
    if x.beneficiaryEmpty ∧ x.before.ext.funds x.this ≠ 0 then 25000 else 0
  code : (e'.account? x.this).map (·.code) = (e.account? x.this).map (·.code)
  nonce : (e'.account? x.this).map (·.nonce) = (e.account? x.this).map (·.nonce)
  storage : ∀ key, e'.read x.this key = e.read x.this key
  balance : e'.balances x.this = if x.this = x.beneficiary then e.balances x.this else some 0

/-- The remote has the account as the transaction leaves it, and without a balance unless it was
    its own beneficiary. -/
def Step.Spared (x : Step T) (remote? : Option Remote) (e : Ext) : Prop :=
  ∃ remote account, remote? = some remote ∧ remote.Gives x.this account ∧
    (e.account? x.this).map (fun a => (a.code, a.nonce)) = some (account.code, account.nonce) ∧
    (∀ key, e.read x.this key = remote.storage x.this key) ∧
    some account.value.toNat = if x.this = x.beneficiary then e.balances x.this else some 0

theorem Runner.apply_marks {fuel : Nat} {r : Runner} {ext ext' : Ext} {result : CallResult T}
    (h : r.apply fuel ext = .ok result ext') : ext.Marks ext' := by
  obtain ⟨sc, s, ret, t, htop, hrun⟩ := apply_topFrame h
  obtain ⟨_, _, hend, hafter⟩ := apply_lasts prepares_marks lasting_marks h
  rw [topEnd, htop] at hend
  simp only [hrun, Option.some.injEq, Prod.mk.injEq] at hend
  obtain ⟨rfl, rfl⟩ := hend
  obtain ⟨hbefore, hstack⟩ := prepares_marks.topFrame htop
  obtain ⟨w, hw, hf⟩ := run_follows (by rw [hstack]; exact Nat.zero_le _) hrun
  exact prepares_marks.trans hbefore (prepares_marks.trans (hw.lasting lasting_marks)
    (prepares_marks.trans (hf.lasting lasting_marks) hafter))

/-- SELFDESTRUCT does what it is to do exactly when an empty beneficiary gets something, and the
    remote has the account as the transaction leaves it. -/
theorem Runner.selfdestruct_reset {fuel : Nat} {r : Runner} {ext ext' : Ext} {result : CallResult T} {sc : Scope}
    {s u : Machine T} {x : Step T} {cost : Int} (htop : r.topFrame ext = some (sc, s))
    (h : r.apply fuel ext = .ok result ext') (hx : x ∈ (history fuel sc s).steps) (hop : x.op = .selfdestruct)
    (hstep : opSelfdestruct x.scope x.instruction x.before = .ok (.ok cost) u) (tx : TxContext) :
    x.Retires cost u ext' (ext'.reset tx) ↔
      (x.beneficiaryEmpty → x.before.ext.funds x.this ≠ 0) ∧ x.Spared ext.remote ext' := by
  obtain ⟨-, hdestroys⟩ : x.retires ∧ x.Destroys (.ok cost) u := (wp_of_ok hstep).1 (wp_opSelfdestruct_exact hop)
  have hmarked : x.this ∈ u.ext.destroyedAccounts := by
    rw [hdestroys.marked]
    exact List.mem_append_right _ List.mem_cons_self
  have hexec : ∀ exec, executeInstruction exec x.scope x.instruction x.before = .ok (.ok cost) u := fun exec => by
    simp only [executeInstruction, show x.instruction.op = .selfdestruct from hop, hstep]
  obtain ⟨ret, t, hend, hafter⟩ := apply_lasts prepares_marks lasting_marks h
  have hrun : executeWithContext fuel sc s = .ok ret t := by
    rw [topEnd, htop] at hend
    dsimp only at hend
    split at hend
    · next hrun =>
      cases hend
      exact hrun
    · cases hend
  have hstack := (prepares_marks.topFrame htop).2
  have hmarks : u.ext.Marks ext' := prepares_marks.trans
    (run_lasts lasting_marks (by rw [hstack]; exact Nat.zero_le _) hrun hx (by rw [hop]; rfl) hexec) hafter
  have hremote : (ext'.reset tx).remote = ext.remote := (apply_marks h).loaded.remote
  have hgone : (ext'.reset tx).state.lookup x.this = none := by
    rw [Ext.lookup_reset, if_pos (hmarks.kept hmarked)]
  obtain ⟨account, hleft⟩ : ∃ account, ext'.account? x.this = some account := by
    obtain ⟨account, hl⟩ := Option.isSome_iff_exists.1 (hmarks.loaded.loaded _ hdestroys.loaded)
    exact ⟨account, Ext.account?_loaded hl⟩
  have hcost : cost = 5000 + (if x.before.ext.isAddressWarm x.beneficiary then 0 else 2600) +
      if x.beneficiaryEmpty then 25000 else 0 := by
    have hcost := hdestroys.cost
    injection hcost
  have hsurcharge : (cost = 5000 + (if x.before.ext.isAddressWarm x.beneficiary then 0 else 2600) +
      if x.beneficiaryEmpty ∧ x.before.ext.funds x.this ≠ 0 then 25000 else 0) ↔
        (x.beneficiaryEmpty → x.before.ext.funds x.this ≠ 0) := by
    rw [hcost]
    by_cases hempty : x.beneficiaryEmpty = true
    · by_cases hfunds : x.before.ext.funds x.this = 0
      · simp [hempty, hfunds]
      · simp [hempty, hfunds]
    · simp [hempty]
  constructor
  · intro hretires
    refine ⟨hsurcharge.1 hretires.surcharge, ?_⟩
    cases hback : (ext'.reset tx).account? x.this with
    | none =>
      have hcode := hretires.code
      rw [hback, hleft] at hcode
      cases hcode
    | some back =>
      obtain ⟨remote, hr, gives⟩ := (Ext.account?_unloaded hgone).1 hback
      have hcode := hretires.code
      have hnonce := hretires.nonce
      have hbalance := hretires.balance
      rw [hback, hleft, Option.map_some, Option.map_some, Option.some.injEq] at hcode hnonce
      rw [Ext.balances, Ext.balanceOf, hback] at hbalance
      refine ⟨remote, back, hremote.symm.trans hr, gives, ?_, fun key => ?_, hbalance⟩
      · rw [hleft, Option.map_some, hcode, hnonce]
      · rw [← hretires.storage, Ext.read_unloaded hgone hr gives]
  · rintro ⟨hpaid, remote, back, hr, gives, hidentity, hstorage, hbalance⟩
    have hr := hremote.trans hr
    have hback : (ext'.reset tx).account? x.this = some back := (Ext.account?_unloaded hgone).2 ⟨remote, hr, gives⟩
    rw [hleft, Option.map_some, Option.some.injEq, Prod.mk.injEq] at hidentity
    refine ⟨hdestroys.balances, hsurcharge.2 hpaid, ?_, ?_, fun key => ?_, ?_⟩
    · rw [hback, hleft, Option.map_some, Option.map_some, hidentity.1]
    · rw [hback, hleft, Option.map_some, Option.map_some, hidentity.2]
    · rw [hstorage, Ext.read_unloaded hgone hr gives]
    · rw [← hbalance, Ext.balances, Ext.balanceOf, hback]
      rfl

end

namespace Sample

/-- Account 0xaa gives all it has to 0xbb. -/
def giver : Bytes := [0x60, 0xbb, 0xff]

/-- A remote where 0xaa has `b` and 0xbb has 1. -/
def pinned (b : Word) : Ext where
  remote := some {
    balance := fun a => some (if a = 0xca then 1000000 else if a = 0xaa then b else if a = 0xbb then 1 else 0)
    nonce := fun _ => some 0
    code := fun a => some (if a = 0xaa then giver else [])
    storage := fun _ _ => some 0
    blockHash := fun _ => some 0 }
  txCtx := { gasPrice := 1 }

/-- A SELFDESTRUCT of the transaction's run that goes through, in `p`. -/
def destroys (fuel : Nat) (r : Runner) (ext : Ext) (p : Step NoopTracer → Int → Machine NoopTracer → Bool) : Bool :=
  match r.topFrame (T := NoopTracer) ext with
  | none => false
  | some (sc, s) => (history fuel sc s).steps.any fun x => decide (x.op = .selfdestruct) &&
      match opSelfdestruct x.scope x.instruction x.before with
      | .ok (.ok cost) u => p x cost u
      | _ => false

theorem of_destroys {fuel : Nat} {r : Runner} {ext : Ext} {p : Step NoopTracer → Int → Machine NoopTracer → Bool}
    (h : destroys fuel r ext p = true) : ∃ sc s x cost u, r.topFrame (T := NoopTracer) ext = some (sc, s) ∧
      x ∈ (history fuel sc s).steps ∧ x.op = .selfdestruct ∧
      opSelfdestruct x.scope x.instruction x.before = .ok (.ok cost) u ∧ p x cost u = true := by
  unfold destroys at h
  split at h
  · cases h
  · next sc s htop =>
    obtain ⟨x, hx, hp⟩ := List.any_eq_true.1 h
    obtain ⟨hop, hp⟩ := (Bool.and_eq_true _ _).mp hp
    split at hp
    · next cost u hstep => exact ⟨sc, s, x, cost, u, htop, hx, by simpa using hop, hstep, hp⟩
    · cases hp

end Sample

open Sample

/-- An account without a balance, which the remote has as it is. -/
theorem Runner.selfdestruct_reset_spared :
    ∃ (result : CallResult NoopTracer) (ext' : Ext) (x : Step NoopTracer) (cost : Int)
    (u : Machine NoopTracer), (transaction []).apply 5 (pinned 0) = .ok result ext' ∧
      x.Retires cost u ext' (ext'.reset {}) := by
  have hrun : returns ((transaction []).apply (T := NoopTracer) 5 (pinned 0)) (fun _ ext' =>
      (ext'.state.lookup 0xaa).any fun a => decide (a.nonce = 0 ∧ a.code = (giver, 0) ∧ a.state = ∅)) := by decide +kernel
  obtain ⟨result, ext', h, hleft⟩ := of_returns hrun
  obtain ⟨account, hl, hleft⟩ := (Option.any_eq_true _ _).1 hleft
  obtain ⟨hnonce, hcode, hstate⟩ : account.nonce = 0 ∧ account.code = (giver, 0) ∧ account.state = ∅ := by simpa using hleft
  have hfind : destroys 5 (transaction []) (pinned 0) (fun x _ _ =>
      decide (x.this = 0xaa ∧ x.beneficiary = 0xbb ∧ x.beneficiaryEmpty = false)) = true := by decide +kernel
  obtain ⟨sc, s, x, cost, u, htop, hx, hop, hstep, hp⟩ := of_destroys hfind
  obtain ⟨hthis, hbeneficiary, hempty⟩ : x.this = 0xaa ∧ x.beneficiary = 0xbb ∧ x.beneficiaryEmpty = false := by
    simpa using hp
  refine ⟨result, ext', x, cost, u, h, (Runner.selfdestruct_reset htop h hx hop hstep {}).2 ⟨?_, ?_⟩⟩
  · rw [hempty]
    exact fun h => (nomatch h)
  · have hremote : ext'.remote = (pinned 0).remote := (Runner.apply_marks h).loaded.remote
    unfold Step.Spared
    rw [hthis, hbeneficiary]
    refine ⟨_, { code := (giver, 0) }, rfl, ⟨by decide, rfl, rfl, by decide, rfl⟩, ?_, fun key => ?_,
      (if_neg (by decide)).symm⟩
    · rw [Ext.account?_loaded hl, Option.map_some, hnonce, hcode]
    · have hloaded : (ext'.state.lookup 0xaa).isSome := by
        rw [hl]
        rfl
      rw [Ext.read_eq_slotOf hloaded, Ext.slotOf, Ext.orDefault_of_lookup hl, hstate, hremote]
      rfl

/-- An account that had 7 has them again, and so does its beneficiary. -/
theorem Runner.selfdestruct_reset_revived : ∃ (result : CallResult NoopTracer) (ext' : Ext) (sc : Scope)
    (s u : Machine NoopTracer) (x : Step NoopTracer) (cost : Int), (transaction []).apply 5 (pinned 7) = .ok result ext' ∧
      (transaction []).topFrame (pinned 7) = some (sc, s) ∧ x ∈ (history 5 sc s).steps ∧ x.op = .selfdestruct ∧
      opSelfdestruct x.scope x.instruction x.before = .ok (.ok cost) u ∧ x.this = 0xaa ∧ x.beneficiary = 0xbb ∧
      0xaa ∉ ext'.createdAccounts ∧ ext'.balances 0xaa = some 0 ∧ ext'.balances 0xbb = some 8 ∧
      (ext'.reset {}).balances 0xaa = some 7 ∧ ¬x.Retires cost u ext' (ext'.reset {}) := by
  have hrun : returns ((transaction []).apply (T := NoopTracer) 5 (pinned 7)) (fun _ ext' =>
      decide (0xaa ∉ ext'.createdAccounts ∧ ext'.balances 0xaa = some 0 ∧ ext'.balances 0xbb = some 8 ∧
        (ext'.reset {}).balances 0xaa = some 7)) := by decide +kernel
  obtain ⟨result, ext', h, hp⟩ := of_returns hrun
  obtain ⟨hnew, hnone, hgiven, hback⟩ : 0xaa ∉ ext'.createdAccounts ∧ ext'.balances 0xaa = some 0 ∧
      ext'.balances 0xbb = some 8 ∧ (ext'.reset {}).balances 0xaa = some 7 := by simpa using hp
  have hfind : destroys 5 (transaction []) (pinned 7) (fun x _ _ => decide (x.this = 0xaa ∧ x.beneficiary = 0xbb)) =
    true := by
    decide +kernel
  obtain ⟨sc, s, x, cost, u, htop, hx, hop, hstep, hp⟩ := of_destroys hfind
  obtain ⟨hthis, hbeneficiary⟩ : x.this = 0xaa ∧ x.beneficiary = 0xbb := by simpa using hp
  refine ⟨result, ext', sc, s, u, x, cost, h, htop, hx, hop, hstep, hthis, hbeneficiary, hnew, hnone, hgiven, hback,
    fun hretires => ?_⟩
  have hbalance := hretires.balance
  rw [hthis, hbeneficiary, hback, if_neg (by decide)] at hbalance
  cases hbalance

end Solenoid
