/-
  Solenoid.Views — the accounts as a reader sees them: balance, nonce, code, storage slot
  and transient slot, and which operations of `Ext` change which of them.

  An account that is not loaded counts as the default one (`orDefault`). A slot is what
  `get` answers, held or the remote's: loading an account or fetching a slot changes none.
-/
import Solenoid.Accounts

namespace Solenoid

open Hoare

namespace Ext

def valueOf (e : Ext) (a : Address) : Word := (e.orDefault a).value

/-- The slot as `get` reads it. -/
def slotOf (e : Ext) (a : Address) (key : Word) : Option Word :=
  match (e.orDefault a).state.lookup key with
  | some val => some val
  | none =>
    match e.remote with
    | some r => r.storage a key
    | none => some 0

def transientOf (e : Ext) (a : Address) (key : Word) : Word := (e.transient.lookup (a, key)).getD 0

/-! ## Accounts -/

variable {e e' : Ext} {addr a : Address} {account : Account}

theorem orDefault_of_lookup (h : e.state.lookup a = some account) : e.orDefault a = account := by
  simp only [orDefault, h, Option.getD_some]

theorem valueOf_of_lookup (h : e.state.lookup a = some account) : e.valueOf a = account.value := by
  rw [valueOf, orDefault_of_lookup h]

theorem orDefault_insert (e : Ext) (addr a : Address) (account : Account) :
    ({ e with state := e.state.insert addr account }).orDefault a = if a = addr then account else e.orDefault a := by
  unfold orDefault
  by_cases h : a = addr
  · subst h
    simp
  · simp [h]

theorem orDefault_mutate (f : Account → Account) (h : (e.state.lookup addr).isSome) (a : Address) :
    (e.mutate addr f).orDefault a = if a = addr then f (e.orDefault addr) else e.orDefault a := by
  obtain ⟨account, hl⟩ := Option.isSome_iff_exists.1 h
  rw [mutate_of_lookup f hl, orDefault_insert, orDefault_of_lookup hl]

theorem orDefault_insertSlot (e : Ext) (addr : Address) (key val : Word) (a : Address) :
    (e.insertSlot addr key val).orDefault a =
      if a = addr then { e.orDefault addr with state := (e.orDefault addr).state.insert key val } else e.orDefault a :=
  orDefault_insert e addr a _

/-- An entry with the default account is no change. -/
theorem orDefault_open (e : Ext) (addr a : Address) :
    ({ e with state := e.state.insert addr (e.orDefault addr) }).orDefault a = e.orDefault a := by
  rw [orDefault_insert]
  split
  · next h => rw [h]
  · rfl

/-! ## Slots -/

theorem slotOf_congr {key : Word} (hs : (e'.orDefault a).state.lookup key = (e.orDefault a).state.lookup key)
    (hr : e'.remote = e.remote) : e'.slotOf a key = e.slotOf a key := by
  unfold slotOf
  rw [hs, hr]

theorem slotOf_insertSlot (e : Ext) (addr a : Address) (key val k : Word) : (e.insertSlot addr key val).slotOf a k =
    if addr = a ∧ key = k then some val else e.slotOf a k := by
  unfold slotOf
  rw [orDefault_insertSlot]
  by_cases ha : a = addr
  · subst ha
    by_cases hk : k = key
    · subst hk
      simp
    · simp [Ne.symm hk, Finmap.lookup_insert_of_ne _ hk, insertSlot]
  · simp [ha, Ne.symm ha, insertSlot]

/-- Writes through `account_mut` leave the storage. -/
theorem slotOf_mutate (e : Ext) (addr a : Address) (key : Word) {f : Account → Account}
    (hf : ∀ x, (f x).state = x.state) : (e.mutate addr f).slotOf a key = e.slotOf a key := by
  refine slotOf_congr ?_ (remote_mutate e addr f)
  by_cases h : (e.state.lookup addr).isSome
  · rw [orDefault_mutate f h]
    split
    · next ha => rw [ha, hf]
    · rfl
  · have hn : e.state.lookup addr = none := by simpa using h
    simp only [mutate, hn]

/-! ## Reads -/

variable [Crypto]

/-- Loading an account leaves those that are there. -/
theorem pull_lookup {b : Address} {acc : Account} (h : pull a e = .ok account e') (hb : e.state.lookup b = some acc) :
    e'.state.lookup b = some acc := by
  cases pulled h with
  | loaded => exact hb
  | remote hn =>
    have hne : b ≠ a := fun hba => by rw [hba, hn] at hb; cases hb
    exact (Finmap.lookup_insert_of_ne _ hne).trans hb

theorem pull_remote (h : pull a e = .ok account e') : e'.remote = e.remote := by
  cases pulled h with
  | loaded => rfl
  | remote => rfl

theorem slotOf_pull {b : Address} {key : Word} (h : pull a e = .ok account e') : e'.slotOf b key = e.slotOf b key := by
  refine slotOf_congr ?_ (pull_remote h)
  cases pulled h with
  | loaded => rfl
  | remote hn _ gives =>
    rw [orDefault_insert]
    split
    · next hb => rw [hb, gives.state, orDefault, hn, Option.getD_none]
    · rfl

theorem transient_pull (h : pull a e = .ok account e') : e'.transient = e.transient := by
  cases pulled h with
  | loaded => rfl
  | remote => rfl

theorem txCtx_pull (h : pull a e = .ok account e') : e'.txCtx = e.txCtx := by
  cases pulled h with
  | loaded => rfl
  | remote => rfl

section

omit [Crypto]

variable {key val : Word} (hacc : e.orDefault a = account)
include hacc

/-- A read of a slot changes the storage of an account at most. -/
theorem Got.orDefault (hg : Got a key account e val e') (b : Address) :
    ∃ storage, e'.orDefault b = { e.orDefault b with state := storage } := by
  cases hg with
  | held => exact ⟨_, rfl⟩
  | zero => exact ⟨_, rfl⟩
  | fetched =>
    by_cases hb : b = a
    · subst hb
      exact ⟨_, (orDefault_insert e b b _).trans (by rw [if_pos rfl, hacc])⟩
    · exact ⟨_, (orDefault_insert e a b _).trans (if_neg hb)⟩

theorem Got.answer (hg : Got a key account e val e') : e.slotOf a key = some val := by
  cases hg with
  | held hk => simp only [slotOf, hacc, hk]
  | zero hk hr => simp only [slotOf, hacc, hk, hr]
  | fetched hk hr gives => simp only [slotOf, hacc, hk, hr, gives]

/-- No slot changes: the one that is held now is the one the remote had answered. -/
theorem Got.slotOf (hg : Got a key account e val e') (b : Address) (k : Word) : e'.slotOf b k = e.slotOf b k := by
  have hanswer := hg.answer hacc
  cases hg with
  | held => rfl
  | zero => rfl
  | fetched hk hr gives =>
    by_cases hb : b = a
    · subst hb
      have hself : Ext.orDefault { e with
          state := e.state.insert b { account with state := account.state.insert key val }
          original := orInsert e.original (b, key) val } b = _ := (orDefault_insert e b b _).trans (if_pos rfl)
      by_cases hkk : k = key
      · subst hkk
        rw [hanswer]
        unfold Ext.slotOf
        rw [hself]
        simp
      · refine slotOf_congr ?_ rfl
        rw [hself, hacc]
        exact Finmap.lookup_insert_of_ne _ hkk
    · have hother : Ext.orDefault { e with
          state := e.state.insert a { account with state := account.state.insert key val }
          original := orInsert e.original (a, key) val } b = _ := (orDefault_insert e a b _).trans (if_neg hb)
      exact slotOf_congr (by rw [hother]) rfl

end

theorem slotOf_get {b : Address} {key k val : Word} (h : get a key e = .ok val e') : e'.slotOf b k = e.slotOf b k := by
  obtain ⟨account, e₁, hp, hg⟩ := got h
  rw [hg.slotOf (orDefault_of_lookup (pulled hp).lookup), slotOf_pull hp]

/-- `get` answers the slot. -/
theorem get_slotOf {key val : Word} (h : get a key e = .ok val e') : e.slotOf a key = some val := by
  obtain ⟨account, e₁, hp, hg⟩ := got h
  rw [← slotOf_pull hp, hg.answer (orDefault_of_lookup (pulled hp).lookup)]

theorem transient_get {key val : Word} (h : get a key e = .ok val e') : e'.transient = e.transient := by
  obtain ⟨account, e₁, hp, hg⟩ := got h
  rw [← transient_pull hp]
  cases hg <;> rfl

theorem txCtx_get {key val : Word} (h : get a key e = .ok val e') : e'.txCtx = e.txCtx := by
  obtain ⟨account, e₁, hp, hg⟩ := got h
  rw [← txCtx_pull hp]
  cases hg <;> rfl

/-! ## Answers -/

/-- The account as `pull` answers it. -/
def account? (e : Ext) (a : Address) : Option Account :=
  match e.state.lookup a with
  | some account => some account
  | none => do
    let remote ← e.remote
    let code ← remote.code a
    return { value := ← remote.balance a, nonce := ← remote.nonce a, code := (code, Crypto.keccak256 code) }

def balanceOf (e : Ext) (a : Address) : Option Word := (e.account? a).map (·.value)

def balances (e : Ext) (a : Address) : Option Nat := (e.balanceOf a).map BitVec.toNat

/-- The funds an account has for a transfer. -/
def funds (e : Ext) (a : Address) : Nat := ((e.balanceOf a).getD 0).toNat

theorem account?_loaded (h : e.state.lookup a = some account) : e.account? a = some account := by
  simp only [account?, h]

theorem account?_remote {r : Remote} (h : e.state.lookup a = none) (hr : e.remote = some r) (gives : r.Gives a account) :
    e.account? a = some account := by
  obtain ⟨value, nonce, ⟨code, hash⟩, state⟩ := account
  obtain ⟨hb, hn, hc, hh, hs⟩ := gives
  dsimp only at hb hn hc hh hs
  subst hh hs
  simp only [account?, h, hr, bind, Option.bind, hb, hn, hc, pure]

/-- `pull` answers the account. -/
theorem pull_account? (h : pull a e = .ok account e') : e.account? a = some account := by
  cases pulled h with
  | loaded hl => exact account?_loaded hl
  | remote hn hr gives => exact account?_remote hn hr gives

/-- An account that answers can be loaded. -/
theorem pull_ok {account : Account} (h : e.account? a = some account) : ∃ e', pull a e = .ok account e' := by
  cases hl : e.state.lookup a with
  | some held =>
    rw [account?_loaded hl] at h
    cases h
    exact ⟨e, pull_loaded hl⟩
  | none =>
    cases hr : e.remote with
    | none => simp [account?, hl, hr] at h
    | some r =>
      simp only [account?, hl, hr, Option.bind_eq_bind, Option.bind_some, Option.bind_eq_some_iff] at h
      obtain ⟨code, hc, value, hv, nonce, hn, haccount⟩ := h
      cases haccount
      refine ⟨{ e with state := e.state.insert a { value, nonce, code := (code, Crypto.keccak256 code) } }, ?_⟩
      simp only [pull, bind, EStateM.bind, MonadState.get, getThe, MonadStateOf.get, run_get, hl, hr, hv, hn, hc,
        answer, lift]
      rfl

theorem balanceOf_loaded (h : e.state.lookup a = some account) : e.balanceOf a = some account.value := by
  rw [balanceOf, account?_loaded h, Option.map_some]

theorem funds_loaded (h : e.state.lookup a = some account) : e.funds a = account.value.toNat := by
  rw [funds, balanceOf_loaded h, Option.getD_some]

/-- Loading an account changes no answer. -/
theorem account?_pull {b : Address} (h : pull a e = .ok account e') : e'.account? b = e.account? b := by
  cases hp : pulled h with
  | loaded => rfl
  | remote hn hr gives =>
    by_cases hb : b = a
    · subst hb
      rw [account?_remote hn hr gives]
      exact account?_loaded (Finmap.lookup_insert _)
    · unfold account?
      rw [Finmap.lookup_insert_of_ne _ hb]

/-- A write to an account that is there changes its answer. -/
theorem account?_mutate (f : Account → Account) (h : (e.state.lookup a).isSome) (b : Address) :
    (e.mutate a f).account? b = if b = a then (e.account? a).map f else e.account? b := by
  obtain ⟨account, hl⟩ := Option.isSome_iff_exists.1 h
  by_cases hb : b = a
  · subst hb
    have hself : (e.mutate b f).state.lookup b = some (f account) := by rw [lookup_mutate_self, hl, Option.map_some]
    rw [if_pos rfl, account?_loaded hself, account?_loaded hl, Option.map_some]
  · rw [if_neg hb]
    unfold account?
    rw [lookup_mutate_ne _ _ hb, remote_mutate]

theorem balanceOf_setValue {e : Ext} {b : Address} (h : (e.state.lookup b).isSome) (v : Word) (a : Address) :
    (e.setValue b v).balanceOf a = if a = b then some v else e.balanceOf a := by
  rw [setValue, balanceOf, account?_mutate _ h]
  split
  · obtain ⟨account, hl⟩ := Option.isSome_iff_exists.1 h
    rw [account?_loaded hl]
    rfl
  · rfl

/-- Reading a slot changes no more of an answer than the storage that is held. -/
theorem account?_get {γ : Type} {b : Address} {key val : Word} {f : Account → γ}
    (hf : ∀ (x : Account) (s : Storage), f { x with state := s } = f x) (h : get a key e = .ok val e') :
    (e'.account? b).map f = (e.account? b).map f := by
  obtain ⟨account, e₁, hp, hg⟩ := got h
  rw [← account?_pull hp]
  cases hg with
  | held => rfl
  | zero => rfl
  | fetched =>
    by_cases hb : b = a
    · subst hb
      rw [account?_loaded (pulled hp).lookup, account?_loaded (Finmap.lookup_insert _)]
      exact congrArg some (hf _ _)
    · unfold account?
      rw [Finmap.lookup_insert_of_ne _ hb]

omit [Crypto] in
theorem slotOf_written (e : Ext) (addr a : Address) (key val k : Word) : (e.written addr key val).slotOf a k =
    if addr = a ∧ key = k then some val else e.slotOf a k := slotOf_insertSlot e addr a key val k

end Ext

end Solenoid
