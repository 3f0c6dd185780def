/-
  Solenoid.Accounts — what the operations of `Ext` do, said once: `pull` (`pulled`), `get`
  (`got`), a write through `account_mut`, and how they leave the accounts already loaded.
-/
import Solenoid.Ext
import Solenoid.Lib.Hoare

namespace Solenoid

open Hoare

@[simp] theorem wp_lift {σ α : Type} {Q : α → σ → Prop} {E : Fault → σ → Prop} {s : σ} (e : Except Fault α) :
    wp (lift e) Q E s ↔ (∀ a, e = .ok a → Q a s) ∧ ∀ f, e = .error f → E f s := by
  cases e <;> simp [wp_def, lift]

theorem answer_error {α : Type} {o : Option α} {f : Fault} (h : answer o = .error f) : ∃ r, f = .report r := by
  cases o with
  | none => cases h; exact ⟨_, rfl⟩
  | some b => cases h

theorem answer_ok {α : Type} {o : Option α} {a : α} (h : answer o = .ok a) : o = some a := by
  cases o with
  | none => cases h
  | some b => cases h; rfl

/-! ## Loading -/

variable [Crypto]

/-- The account a remote gives for `addr`. -/
structure Remote.Gives (r : Remote) (addr : Address) (account : Account) : Prop where
  balance : r.balance addr = some account.value
  nonce : r.nonce addr = some account.nonce
  code : r.code addr = some account.code.1
  codehash : account.code.2 = Crypto.keccak256 account.code.1
  state : account.state = ∅

namespace Ext

/-- What a successful `pull` answers and leaves: the loaded account, or the remote's. -/
inductive Pulled (addr : Address) (e : Ext) : Account → Ext → Prop
  | loaded {account : Account} (h : e.state.lookup addr = some account) : Pulled addr e account e
  | remote {account : Account} {r : Remote} (h : e.state.lookup addr = none) (hr : e.remote = some r)
      (gives : r.Gives addr account) : Pulled addr e account { e with state := e.state.insert addr account }

theorem wp_pull (addr : Address) (e : Ext) : wp (pull addr) (Pulled addr e) (fun _ e' => e' = e) e := by
  simp only [pull, wp_bind, wp_get]
  cases h : e.state.lookup addr with
  | some account => exact (wp_pure _).2 (.loaded h)
  | none =>
    cases hr : e.remote with
    | none => exact (wp_throw _).2 rfl
    | some r =>
      simp only [wp_bind, wp_lift, wp_set, wp_pure]
      refine ⟨fun v hv => ⟨fun n hn => ⟨fun c hc => ?_, fun _ _ => trivial⟩, fun _ _ => trivial⟩, fun _ _ => trivial⟩
      have gives : r.Gives addr { value := v, nonce := n, code := (c, Crypto.keccak256 c) } :=
        ⟨answer_ok hv, answer_ok hn, answer_ok hc, rfl, rfl⟩
      rw [← hr]
      exact .remote h hr gives

variable {addr : Address} {e e' : Ext} {account : Account}

theorem pulled (h : pull addr e = .ok account e') : Pulled addr e account e' := of_ok (wp_pull addr e).ok h

theorem pull_error {f : Fault} (h : pull addr e = .error f e') : e' = e := (of_error (wp_pull addr e).error h :)

/-- A load that fails is reported. -/
theorem pull_report {f : Fault} (h : pull addr e = .error f e') : ∃ r, f = .report r := by
  have hw : wp (pull addr) (fun _ _ => True) (fun f _ => ∃ r, f = .report r) e := by
    simp only [pull, wp_bind, wp_get]
    cases e.state.lookup addr with
    | some account => exact (wp_pure _).2 trivial
    | none =>
      cases e.remote with
      | none => exact (wp_throw _).2 ⟨_, rfl⟩
      | some r =>
        simp only [wp_bind, wp_lift, wp_set, wp_pure, implies_true, true_and]
        exact ⟨fun _ _ => ⟨fun _ _ => fun _ => answer_error, fun _ => answer_error⟩, fun _ => answer_error⟩
  exact (of_error hw h :)

theorem Pulled.lookup (h : Pulled addr e account e') : e'.state.lookup addr = some account := by
  cases h with
  | loaded h => exact h
  | remote => exact Finmap.lookup_insert _

theorem pull_loaded (h : e.state.lookup addr = some account) : pull addr e = .ok account e := by
  simp only [pull, get_bind, h]
  rfl

/-- What a successful `get` answers and leaves, from the account `pull` gave. -/
inductive Got (addr : Address) (key : Word) (account : Account) (e : Ext) : Word → Ext → Prop
  | held {val : Word} (h : account.state.lookup key = some val) :
      Got addr key account e val { e with original := orInsert e.original (addr, key) val }
  | fetched {val : Word} {r : Remote} (h : account.state.lookup key = none) (hr : e.remote = some r)
      (gives : r.storage addr key = some val) :
      Got addr key account e val { e with
        state := e.state.insert addr { account with state := account.state.insert key val }
        original := orInsert e.original (addr, key) val }
  | zero (h : account.state.lookup key = none) (hr : e.remote = none) : Got addr key account e 0 e

theorem wp_get_slot (addr : Address) (key : Word) (e : Ext) :
    wp (get addr key) (fun val e' => ∃ account e₁, pull addr e = .ok account e₁ ∧ Got addr key account e₁ val e')
      (fun _ e' => e' = e ∨ ∃ account, pull addr e = .ok account e') e := by
  simp only [get, wp_bind]
  refine wp_def.2 ⟨fun account e₁ h => ?_, fun f e' h => .inl (pull_error h)⟩
  rw [wp_bind, wp_estate_get]
  cases hk : account.state.lookup key with
  | some val =>
    simp only [wp_bind, wp_set, wp_pure]
    exact ⟨account, e₁, h, .held hk⟩
  | none =>
    cases hr : e₁.remote with
    | none => exact (wp_pure _).2 ⟨account, e₁, h, .zero hk hr⟩
    | some r =>
      simp only [wp_bind, wp_lift, wp_set, wp_pure]
      rw [← hr]
      exact ⟨fun val hv => ⟨account, e₁, h, .fetched hk hr (answer_ok hv)⟩, fun _ _ => .inr ⟨account, h⟩⟩

theorem got {key val : Word} (h : get addr key e = .ok val e') :
    ∃ account e₁, pull addr e = .ok account e₁ ∧ Got addr key account e₁ val e' :=
  of_ok (wp_get_slot addr key e).ok h

/-- A failed `get` has at most loaded the account. -/
theorem get_error {key : Word} {f : Fault} (h : get addr key e = .error f e') :
    e' = e ∨ ∃ account, pull addr e = .ok account e' :=
  (of_error (wp_get_slot addr key e).error h :)

/-! ## Writing -/

omit [Crypto] in
theorem lookup_insertSlot (e : Ext) (addr : Address) (key val : Word) (a : Address) :
    (e.insertSlot addr key val).state.lookup a =
      if a = addr then some { e.orDefault addr with state := (e.orDefault addr).state.insert key val }
      else e.state.lookup a := by
  unfold insertSlot
  by_cases h : a = addr
  · subst h
    simp
  · simp [h]

/-- What a `put` leaves. -/
def written (e : Ext) (addr : Address) (key val : Word) : Ext :=
  { e.insertSlot addr key val with original := orInsert e.original (addr, key) val }

/-- `put` never fails: the slot it reads back is the one it has just written. -/
theorem put_eq (addr : Address) (key val : Word) (e : Ext) :
    put addr key val e = .ok ⟨⟩ (e.written addr key val) := by
  have hp := pull_loaded ((lookup_insertSlot e addr key val addr).trans (if_pos rfl))
  have hg : get addr key (e.insertSlot addr key val) = .ok val (e.written addr key val) := by
    simp only [get, ok_bind hp, estate_get_bind, Finmap.lookup_insert]
    rfl
  simp only [put, modify_bind, ok_bind hg]
  rfl

/-- What a write through `account_mut` leaves. -/
def mutate (e : Ext) (addr : Address) (f : Account → Account) : Ext :=
  match e.state.lookup addr with
  | some account => { e with state := e.state.insert addr (f account) }
  | none => e

def setValue (e : Ext) (addr : Address) (value : Word) : Ext := e.mutate addr fun a => { a with value }

def setNonce (e : Ext) (addr : Address) (nonce : Word) : Ext := e.mutate addr fun a => { a with nonce }

def markDestroyed (e : Ext) (addr : Address) : Ext := { e with destroyedAccounts := e.destroyedAccounts ++ [addr] }

omit [Crypto]

@[simp] theorem wp_accountMut {Q : Unit → Ext → Prop} {E : Fault → Ext → Prop} (f : Account → Account) :
    wp (accountMut addr f) Q E e ↔ ((e.state.lookup addr).isSome → Q () (e.mutate addr f)) ∧
      (e.state.lookup addr = none → E (.panic "missing account") e) := by
  simp only [accountMut, wp_bind, wp_estate_get, mutate]
  cases h : e.state.lookup addr with
  | some account => simp
  | none => simp

theorem mutate_of_lookup {a : Account} (f : Account → Account) (h : e.state.lookup addr = some a) :
    e.mutate addr f = { e with state := e.state.insert addr (f a) } := by
  simp only [mutate, h]

/-- A credit is a write of the sum; it panics when the sum does not fit. -/
theorem wp_credit {Q : Unit → Ext → Prop} {E : Fault → Ext → Prop} {amount : Word}
    (hQ : ∀ a, e.state.lookup addr = some a → a.value.toNat + amount.toNat < 2 ^ 256 →
      Q () (e.setValue addr (a.value + amount)))
    (hE : ∀ why, E (.panic why) e) : wp (credit addr amount) Q E e := by
  simp only [credit, wp_bind, wp_estate_get]
  cases h : e.state.lookup addr with
  | none => exact (wp_throw _).2 (hE _)
  | some a =>
    simp only [wp_bind, wp_lift, wp_set]
    refine ⟨fun v hv => ?_, fun f hf => ?_⟩
    · obtain ⟨room, rfl⟩ := Word.add_ok hv
      simpa only [setValue, mutate_of_lookup _ h] using hQ a h room
    · obtain ⟨why, rfl⟩ := Word.add_error hf
      exact hE why

/-- Only the accounts change. -/
theorem mutate_eq (e : Ext) (addr : Address) (f : Account → Account) :
    e.mutate addr f = { e with state := (e.mutate addr f).state } := by
  unfold mutate
  cases e.state.lookup addr <;> rfl

@[simp] theorem transient_mutate (e : Ext) (addr : Address) (f : Account → Account) :
    (e.mutate addr f).transient = e.transient := by rw [mutate_eq]

@[simp] theorem remote_mutate (e : Ext) (addr : Address) (f : Account → Account) :
    (e.mutate addr f).remote = e.remote := by rw [mutate_eq]

@[simp] theorem txCtx_mutate (e : Ext) (addr : Address) (f : Account → Account) :
    (e.mutate addr f).txCtx = e.txCtx := by rw [mutate_eq]

@[simp] theorem createdAccounts_mutate (e : Ext) (addr : Address) (f : Account → Account) :
    (e.mutate addr f).createdAccounts = e.createdAccounts := by rw [mutate_eq]

@[simp] theorem destroyedAccounts_mutate (e : Ext) (addr : Address) (f : Account → Account) :
    (e.mutate addr f).destroyedAccounts = e.destroyedAccounts := by rw [mutate_eq]

theorem lookup_mutate (e : Ext) (addr a : Address) (f : Account → Account) :
    (e.mutate addr f).state.lookup a = if a = addr then (e.state.lookup addr).map f else e.state.lookup a := by
  unfold mutate
  by_cases ha : a = addr
  · subst ha
    cases h : e.state.lookup a with
    | some account => simp
    | none => simp [h]
  · cases h : e.state.lookup addr with
    | some account => simp [ha]
    | none => simp [ha]

theorem lookup_mutate_self (e : Ext) (addr : Address) (f : Account → Account) :
    (e.mutate addr f).state.lookup addr = (e.state.lookup addr).map f := by
  rw [lookup_mutate, if_pos rfl]

theorem lookup_mutate_ne (e : Ext) {addr a : Address} (f : Account → Account) (h : a ≠ addr) :
    (e.mutate addr f).state.lookup a = e.state.lookup a := by
  rw [lookup_mutate, if_neg h]

theorem isSome_lookup_mutate (e : Ext) (addr a : Address) (f : Account → Account) :
    ((e.mutate addr f).state.lookup a).isSome = (e.state.lookup a).isSome := by
  rw [lookup_mutate]
  split
  · next h => rw [h, Option.isSome_map]
  · rfl

/-! ## Accounts stay loaded -/

/-- The accounts of `e` are accounts of `e'`, over the same remote. -/
structure Extends (e e' : Ext) : Prop where
  loaded : ∀ a, (e.state.lookup a).isSome → (e'.state.lookup a).isSome
  remote : e'.remote = e.remote

theorem Extends.refl (e : Ext) : Extends e e := ⟨fun _ h => h, rfl⟩

theorem Extends.trans {e₁ e₂ e₃ : Ext} (h : Extends e₁ e₂) (h' : Extends e₂ e₃) : Extends e₁ e₃ :=
  ⟨fun a ha => h'.loaded a (h.loaded a ha), h'.remote.trans h.remote⟩

theorem extends_insert (e : Ext) (addr : Address) (account : Account) :
    Extends e { e with state := e.state.insert addr account } := by
  refine ⟨fun a ha => ?_, rfl⟩
  by_cases h : a = addr
  · subst h
    simp
  · simpa [h] using ha

theorem extends_mutate (e : Ext) (addr : Address) (f : Account → Account) : Extends e (e.mutate addr f) :=
  ⟨fun a ha => by rwa [isSome_lookup_mutate], remote_mutate e addr f⟩

theorem extends_markDestroyed (e : Ext) (addr : Address) : Extends e (e.markDestroyed addr) := ⟨fun _ h => h, rfl⟩

theorem extends_insertSlot (e : Ext) (addr : Address) (key val : Word) : Extends e (e.insertSlot addr key val) :=
  extends_insert e addr _

theorem extends_written (e : Ext) (addr : Address) (key val : Word) : Extends e (e.written addr key val) :=
  ⟨(extends_insertSlot e addr key val).loaded, rfl⟩

variable [Crypto]

theorem Pulled.extends (h : Pulled addr e account e') : Extends e e' := by
  cases h with
  | loaded => exact .refl e
  | remote => exact extends_insert e addr account

omit [Crypto] in
theorem Got.extends {key val : Word} (h : Got addr key account e val e') : Extends e e' := by
  cases h with
  | held => exact ⟨fun _ h => h, rfl⟩
  | fetched => exact ⟨(extends_insert e addr _).loaded, rfl⟩
  | zero => exact .refl e

theorem get_extends {key val : Word} (h : get addr key e = .ok val e') : Extends e e' := by
  obtain ⟨account, e₁, hp, hg⟩ := got h
  exact (pulled hp).extends.trans hg.extends

end Ext

end Solenoid
