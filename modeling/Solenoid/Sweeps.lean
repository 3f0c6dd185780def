/-
  Solenoid.Sweeps — what SELFDESTRUCT does.

  It goes through when it may, has its operand and both accounts answer (`Step.retires`). Then it
  moves all its account has to the beneficiary, with no touch, and marks the account
  (`Step.Destroys`); otherwise it is reported, and the accounts answer as before
  (`wp_opSelfdestruct_exact`). `Step.gift` is what it moves to an account, less than nothing where
  it takes from it.
-/
import Solenoid.CallEffects

namespace Solenoid

open Hoare

/-! ## A balance that moves -/

/-- The balance `y` is `x` moved by `d`. -/
inductive Drifts : Int → Option Word → Option Word → Prop
  | missing : Drifts 0 none none
  | moved {d : Int} {x y : Word} (h : (y.toNat : Int) = x.toNat + d) : Drifts d (some x) (some y)

namespace Drifts

variable {d d' : Int} {x y z : Option Word}

theorem refl (x : Option Word) : Drifts 0 x x := by
  cases x with
  | none => exact .missing
  | some x => exact .moved (add_zero _).symm

/-- A balance that stays. -/
theorem of_eq (h : y = x) : Drifts 0 x y := h ▸ .refl x

theorem trans (h : Drifts d x y) (h' : Drifts d' y z) : Drifts (d + d') x z := by
  cases h with
  | missing =>
    cases h'
    exact .missing
  | moved h =>
    cases h' with
    | moved h' => exact .moved (by omega)

theorem eq_iff (h : Drifts d x y) : y = x ↔ d = 0 := by
  cases h with
  | missing => simp
  | @moved d x y h =>
    rw [Option.some.injEq, ← BitVec.toNat_inj]
    omega

end Drifts

variable {T : Type} [Crypto] {s t u : Machine T}

/-! ## Reading accounts -/

/-- No balance, no nonce, no code. -/
def Account.isEmpty (a : Account) : Bool := a.value == 0 && a.nonce == 0 && a.code.1.isEmpty

/-- Accounts have been read: what they answer stays, and so does the frame. -/
structure Looked (s t : Machine T) : Prop where
  answers : ∀ a, t.ext.account? a = s.ext.account? a
  extends_ : s.ext.Extends t.ext
  destroyed : t.ext.destroyedAccounts = s.ext.destroyedAccounts
  gas : t.evm.gas = s.evm.gas
  stack : t.evm.stack = s.evm.stack
  memory : t.evm.memory = s.evm.memory
  ret : t.exe.ret = s.exe.ret

namespace Looked

theorem refl (s : Machine T) : Looked s s := ⟨fun _ => rfl, .refl _, rfl, rfl, rfl, rfl, rfl⟩

theorem trans (h : Looked s t) (h' : Looked t u) : Looked s u :=
  ⟨fun a => (h'.answers a).trans (h.answers a), h.extends_.trans h'.extends_, h'.destroyed.trans h.destroyed,
    h'.gas.trans h.gas, h'.stack.trans h.stack, h'.memory.trans h.memory, h'.ret.trans h.ret⟩

theorem pull {a : Address} {account : Account} {e : Ext} (h : Ext.pull a s.ext = .ok account e) :
    Looked s { s with ext := e } :=
  ⟨fun _ => Ext.account?_pull h, (Ext.pulled h).extends, by cases Ext.pulled h <;> rfl, rfl, rfl, rfl, rfl⟩

end Looked

/-- A field of an account that answers, with no access to it. -/
theorem wp_field_exact {β : Type} {Q : β → Machine T → Prop} {E : Fault → Machine T → Prop} (f : Account → β)
    {a : Address} (hnone : s.ext.account? a = none → ∀ r, E (.report r) s)
    (hQ : ∀ account, s.ext.account? a = some account → ∀ e, e.state.lookup a = some account →
      e.accessedAddresses = s.ext.accessedAddresses → Looked s { s with ext := e } → Q (f account) { s with ext := e }) :
    wp (onExt (do return f (← Ext.pull a))) Q E s := by
  rw [wp_onExt, wp_bind]
  refine wp_def.2 ⟨fun account e hpull => (wp_pure _).2 ?_, fun g e hpull => ?_⟩
  · refine hQ account (Ext.pull_account? hpull) e (Ext.pulled hpull).lookup ?_ (.pull hpull)
    cases hp : Ext.pulled hpull <;> rfl
  · obtain ⟨r, rfl⟩ := Ext.pull_report hpull
    obtain rfl := Ext.pull_error hpull
    refine hnone ?_ r
    cases hacc : s.ext.account? a with
    | none => rfl
    | some account =>
      obtain ⟨e', he⟩ := Ext.pull_ok hacc
      rw [he] at hpull
      cases hpull

theorem wp_isEmpty_exact {Q : Bool → Machine T → Prop} {E : Fault → Machine T → Prop} {a : Address}
    (hnone : s.ext.account? a = none → ∀ r, E (.report r) s)
    (hQ : ∀ account, s.ext.account? a = some account → ∀ e, e.accessedAddresses = s.ext.accessedAddresses →
      Looked s { s with ext := e } → Q account.isEmpty { s with ext := e }) : wp (onExt (Ext.isEmpty a)) Q E s := by
  rw [Ext.isEmpty, onExt_bind, wp_bind, Ext.balance]
  refine wp_field_exact _ hnone fun account hacc e hl hwarm hlooked => ?_
  rw [onExt_bind, wp_bind, Ext.nonce, wp_loaded _ hl, onExt_bind, wp_bind, Ext.code, wp_loaded _ hl, wp_onExt, wp_pure]
  exact hQ account hacc e hwarm hlooked

/-! ## SELFDESTRUCT -/

/-- The balances after `src` gave all it has to `dst`. -/
def Ext.swept (e : Ext) (src dst : Address) (a : Address) : Option Nat :=
  if src = dst then e.balances a
  else if a = src then some 0
  else if a = dst then (e.balances a).map (· + e.funds src)
  else e.balances a

namespace Step

variable (x : Step T)

def beneficiary : Address := .ofWord (x.operand 0)

def beneficiaryEmpty : Bool := ((x.before.ext.account? x.beneficiary).map Account.isEmpty).getD false

end Step

/-- The credit of what an account had, after it was set to nothing. -/
theorem swept_of_writes {src dst : Address} {x y : Account} {e : Ext} (hsrc : e.state.lookup src = some x)
    (hdst : (e.setValue src 0).state.lookup dst = some y) (room : y.value.toNat + x.value.toNat < 2 ^ 256) (a : Address) :
    ((e.setValue src 0).setValue dst (y.value + x.value)).balances a = e.swept src dst a := by
  have hl : (e.state.lookup src).isSome := by
    rw [hsrc]
    rfl
  have hl' : ((e.setValue src 0).state.lookup dst).isSome := by
    rw [hdst]
    rfl
  have hfunds : e.funds src = x.value.toNat := Ext.funds_loaded hsrc
  rw [Ext.balances, Ext.balanceOf_setValue hl', Ext.balanceOf_setValue hl, Ext.swept]
  by_cases hself : src = dst
  · subst hself
    have hy : y = { x with value := 0 } := by
      rw [Ext.setValue, Ext.lookup_mutate_self, hsrc] at hdst
      exact (Option.some.inj hdst).symm
    rw [if_pos rfl]
    by_cases ha : a = src
    · subst ha
      rw [if_pos rfl, Ext.balances, Ext.balanceOf_loaded hsrc, hy]
      exact congrArg (fun v : Word => some v.toNat) (BitVec.zero_add _)
    · rw [if_neg ha, if_neg ha, Ext.balances]
  · rw [if_neg hself]
    by_cases hsrc' : a = src
    · rw [if_neg (fun h => hself (hsrc'.symm.trans h)), if_pos hsrc', if_pos hsrc']
      rfl
    · rw [if_neg hsrc', if_neg hsrc']
      by_cases ha : a = dst
      · subst ha
        rw [if_pos rfl, if_pos rfl, hfunds, Ext.balances]
        rw [Ext.setValue, Ext.lookup_mutate_ne _ _ hsrc'] at hdst
        rw [Ext.balanceOf_loaded hdst, Option.map_some, Option.map_some, Option.map_some, BitVec.toNat_add,
          Nat.mod_eq_of_lt room]
      · rw [if_neg ha, if_neg ha, Ext.balances]

/-- SELFDESTRUCT goes through: it may, it has its operand, and both accounts can be loaded. -/
def Step.retires (x : Step T) : Prop :=
  x.op = .selfdestruct ∧ x.has 1 ∧ x.scope.ctx.callType ≠ .static ∧
    (x.before.ext.account? x.beneficiary).isSome ∧ (x.before.ext.account? x.this).isSome

instance (x : Step T) : Decidable x.retires :=
  inferInstanceAs (Decidable (_ ∧ _ ≤ _ ∧ _ ∧ _ ∧ _))

/-- What SELFDESTRUCT does when it goes through. -/
structure Step.Destroys (x : Step T) (r : StepResult) (u : Machine T) : Prop where
  cost : r = .ok (5000 + (if x.before.ext.isAddressWarm x.beneficiary then 0 else 2600) +
    if x.beneficiaryEmpty then 25000 else 0)
  balances : ∀ a, u.ext.balances a = x.before.ext.swept x.this x.beneficiary a
  marked : u.ext.destroyedAccounts = x.before.ext.destroyedAccounts ++ [x.this]
  loaded : (u.ext.state.lookup x.this).isSome

/-- What it leaves when it is reported. -/
structure Step.Survives (x : Step T) (u : Machine T) : Prop where
  stays : ¬x.retires
  answers : ∀ a, u.ext.account? a = x.before.ext.account? a
  marked : u.ext.destroyedAccounts = x.before.ext.destroyedAccounts

theorem wp_opSelfdestruct_exact {x : Step T} (hop : x.op = .selfdestruct) :
    wp (opSelfdestruct x.scope x.instruction) (fun r u => x.retires ∧ x.Destroys r u)
      (fun f u => ∀ r, f = .report r → x.Survives u) x.before := by
  unfold opSelfdestruct
  rw [wp_ite]
  refine ⟨fun hst => (wp_refuse _).2 fun _ _ => ⟨fun h => h.2.2.1 hst, fun _ => rfl, rfl⟩, fun hst => ?_⟩
  rw [wp_bind, wp_pop]
  refine ⟨fun word rest hstack => ?_, fun hnil _ _ => ⟨fun h => ?_, fun _ => rfl, rfl⟩⟩
  on_goal 2 =>
    have hhas : 1 ≤ x.before.evm.stack.length := h.2.1
    rw [hnil] at hhas
    cases hhas
  have hben : x.beneficiary = .ofWord word := by rw [Step.beneficiary, Step.operand, hstack, List.getD_cons_zero]
  rw [wp_bind, wp_get, wp_bind, ← hben]
  refine wp_isEmpty_exact (fun hnone _ _ _ => ⟨fun h => ?_, fun _ => rfl, rfl⟩) fun account hacc e _ hlooked => ?_
  · have hsome := h.2.2.2.1
    rw [show x.before.ext.account? x.beneficiary = none from hnone] at hsome
    cases hsome
  have hanswers : ∀ a, e.account? a = x.before.ext.account? a := hlooked.answers
  rw [wp_bind, Ext.balance]
  refine wp_field_exact _ (fun hnone _ _ _ => ⟨fun h => ?_, hanswers, hlooked.destroyed⟩)
    fun src hsrc e' hl _ hlooked' => ?_
  · have hsome := h.2.2.2.2
    rw [← hanswers, show e.account? x.this = none from hnone] at hsome
    cases hsome
  have hanswers' : ∀ a, e'.account? a = x.before.ext.account? a := fun a => (hlooked'.answers a).trans (hanswers a)
  have hsrc' : e'.state.lookup x.this = some src := hl
  have hmarks : e'.destroyedAccounts = x.before.ext.destroyedAccounts := hlooked'.destroyed.trans hlooked.destroyed
  have hretires : x.retires := by
    refine ⟨hop, by rw [Step.has, hstack]; simp, hst, ?_, ?_⟩
    · rw [show x.before.ext.account? x.beneficiary = some account from hacc]
      rfl
    · rw [← hanswers, show e.account? x.this = some src from hsrc]
      rfl
  simp only [wp_bind, wp_onExt, Ext.wp_accountMut, wp_modify]
  refine ⟨fun _ => Ext.wp_credit (fun dst hdst room => ?_) fun _ r hr => (by cases hr), fun _ r hr => (by cases hr)⟩
  rw [wp_next]
  refine ⟨hretires, ?_, fun a => ?_, ?_, ?_⟩
  · rw [Step.beneficiaryEmpty, show x.before.ext.account? x.beneficiary = some account from hacc]
    rfl
  · have hswept := swept_of_writes hsrc' hdst room a
    have hsame : e'.swept x.this x.beneficiary a = x.before.ext.swept x.this x.beneficiary a := by
      simp only [Ext.swept, Ext.funds, Ext.balances, Ext.balanceOf, hanswers']
    exact hswept.trans hsame
  · show ((e'.setValue x.this 0).setValue _ _).destroyedAccounts ++ [x.this] = _
    rw [Ext.setValue, Ext.destroyedAccounts_mutate, Ext.setValue, Ext.destroyedAccounts_mutate, hmarks]
  · show (((e'.setValue x.this 0).setValue _ _).state.lookup x.this).isSome
    rw [Ext.setValue, Ext.isSome_lookup_mutate, Ext.setValue, Ext.isSome_lookup_mutate, hsrc']
    rfl

/-! ## What it moves -/

/-- What the account `a` gets when `src` gives all it has to `dst`. -/
def Ext.gift (e : Ext) (src dst a : Address) : Int :=
  if src = dst then 0 else if a = src then -e.funds src else if a = dst then e.funds src else 0

theorem drifts_of_swept {e e' : Ext} {src dst a : Address} (hsrc : (e.account? src).isSome) (hdst : (e.account? dst).isSome)
    (h : e'.balances a = e.swept src dst a) : Drifts (e.gift src dst a) (e.balanceOf a) (e'.balanceOf a) := by
  obtain ⟨x, hx⟩ := Option.isSome_iff_exists.1 hsrc
  obtain ⟨y, hy⟩ := Option.isSome_iff_exists.1 hdst
  have hbx : e.balanceOf src = some x.value := by rw [Ext.balanceOf, hx, Option.map_some]
  have hby : e.balanceOf dst = some y.value := by rw [Ext.balanceOf, hy, Option.map_some]
  have hsame : e'.balances a = e.balances a → Drifts 0 (e.balanceOf a) (e'.balanceOf a) := fun h => by
    rw [show e'.balanceOf a = e.balanceOf a from Option.map_injective (fun _ _ => BitVec.eq_of_toNat_eq) h]
    exact .refl _
  have hmoved : ∀ {b : Word} {n : Nat} {d : Int}, e.balanceOf a = some b → e'.balances a = some n →
      (n : Int) = b.toNat + d → Drifts d (e.balanceOf a) (e'.balanceOf a) := by
    intro b n d hb hn hd
    obtain ⟨c, hc, rfl⟩ := Option.map_eq_some_iff.1 hn
    rw [hb, hc]
    exact .moved hd
  unfold Ext.swept at h
  unfold Ext.gift
  by_cases hself : src = dst
  · rw [if_pos hself] at h ⊢
    exact hsame h
  rw [if_neg hself] at h ⊢
  by_cases ha : a = src
  · rw [if_pos ha] at h ⊢
    subst ha
    refine hmoved hbx h ?_
    rw [Ext.funds, hbx, Option.getD_some]
    omega
  rw [if_neg ha] at h ⊢
  by_cases ha' : a = dst
  · rw [if_pos ha'] at h ⊢
    subst ha'
    have hsum : e'.balances a = some (y.value.toNat + e.funds src) := by
      rw [h, Ext.balances, hby]
      rfl
    exact hmoved hby hsum (Nat.cast_add _ _)
  · rw [if_neg ha'] at h ⊢
    exact hsame h

/-- What the step moves to the balance of `a` with no touch. -/
def Step.gift (x : Step T) (a : Address) : Int := if x.retires then x.before.ext.gift x.this x.beneficiary a else 0

/-- The step moves the balance of `a` by its gift. -/
def Step.Gifts (x : Step T) (e : Ext) : Prop := ∀ a, Drifts (x.gift a) (x.before.ext.balanceOf a) (e.balanceOf a)

theorem wp_opSelfdestruct_gives {x : Step T} (hop : x.op = .selfdestruct) :
    wp (opSelfdestruct x.scope x.instruction) (fun _ u => x.Gifts u.ext) (fun f u => ∀ r, f = .report r → x.Gifts u.ext)
      x.before := by
  refine wp_mono (wp_opSelfdestruct_exact hop) (fun r u h a => ?_) fun f u h r hr a => ?_
  · obtain ⟨hretires, hdestroys⟩ := h
    rw [Step.gift, if_pos hretires]
    exact drifts_of_swept hretires.2.2.2.2 hretires.2.2.2.1 (hdestroys.balances a)
  · rw [Step.gift, if_neg (h r hr).stays, Ext.balanceOf, Ext.balanceOf, (h r hr).answers]
    exact .refl _

end Solenoid
