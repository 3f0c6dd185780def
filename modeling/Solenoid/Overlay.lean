/-
  Solenoid.Overlay — `Ext` over a remote pinned at a block, under any sequence of reads and
  writes.

  The remote is fixed functions (`Pinned`); `Query` is a call of `get`, `put`, `balance`,
  `nonce`, `code`, `pull` or `is_empty`. A faithful overlay answers every field with the
  remote's and every slot with the value last put, or else the remote's (`expected`).

  What `Ext` answers is `actual`: it differs on the accounts whose first query was a `put`,
  which `or_default` creates blank, so that nothing is loaded for them any more.
  - `runQueries_eq`: every sequence runs through, and answers `actual`.
  - `overlay_faithful`: it answers `expected` exactly when no field is read of such an
    account that the remote does not hold blank.
-/
import Solenoid.Views
import Solenoid.Executor

namespace Solenoid

open Hoare

/-! ## Queries -/

/-- A block's state, as the remote serves it. -/
structure Pinned where
  balance : Address → Word
  nonce : Address → Word
  code : Address → Bytes
  storage : Address → Word → Word
  blockHash : Word → Word

def Pinned.remote (p : Pinned) : Remote where
  balance a := some (p.balance a)
  nonce a := some (p.nonce a)
  code a := some (p.code a)
  storage a key := some (p.storage a key)
  blockHash n := some (p.blockHash n)

def Ext.pinned (p : Pinned) : Ext := { remote := some p.remote }

inductive Query where
  | get (addr : Address) (key : Word)
  | put (addr : Address) (key val : Word)
  | balance (addr : Address)
  | nonce (addr : Address)
  | code (addr : Address)
  | pull (addr : Address)
  | isEmpty (addr : Address)
  deriving DecidableEq

inductive Answer where
  | word (w : Word)
  | code (code : Bytes × Word)
  | account (value nonce : Word) (code : Bytes × Word)
  | flag (b : Bool)
  | done
  deriving DecidableEq

namespace Query

def addr : Query → Address
  | get a _ | put a _ _ | balance a | nonce a | code a | pull a | isEmpty a => a

/-- What the query writes to a slot. -/
def writes (a : Address) (key : Word) : Query → Option Word
  | put a' key' val => if a' = a ∧ key' = key then some val else none
  | _ => none

def isPut : Query → Bool
  | put .. => true
  | _ => false

/-- The answer from the account and the slots. -/
def answer (account : Account) (slot : Word → Word) : Query → Answer
  | get _ key => .word (slot key)
  | put .. => .done
  | balance _ => .word account.value
  | nonce _ => .word account.nonce
  | code _ => .code account.code
  | pull _ => .account account.value account.nonce account.code
  | isEmpty _ => .flag (account.value == 0 && account.nonce == 0 && account.code.1.isEmpty)

variable [Crypto]

def run : Query → Run Ext Answer
  | get a key => return .word (← Ext.get a key)
  | put a key val => do Ext.put a key val; return .done
  | balance a => return .word (← Ext.balance a)
  | nonce a => return .word (← Ext.nonce a)
  | code a => return .code (← Ext.code a)
  | pull a => do let account ← Ext.pull a; return .account account.value account.nonce account.code
  | isEmpty a => return .flag (← Ext.isEmpty a)

end Query

/-- The value last put to a slot. -/
def lastPut (past : List Query) (a : Address) (key : Word) : Option Word := past.reverse.findSome? (·.writes a key)

def queried (past : List Query) (a : Address) : Prop := ∃ q ∈ past, q.addr = a

/-- The account's first query was a `put`. -/
def putFirst (past : List Query) (a : Address) : Bool := (past.find? (·.addr = a)).any (·.isPut)

section

variable [Crypto]

/-- The account the remote serves. -/
def Pinned.account (p : Pinned) (a : Address) : Account :=
  { value := p.balance a, nonce := p.nonce a, code := (p.code a, Crypto.keccak256 (p.code a)) }

def Pinned.slot (p : Pinned) (past : List Query) (a : Address) (key : Word) : Word :=
  (lastPut past a key).getD (p.storage a key)

/-- The answer of a faithful overlay. -/
def Pinned.expected (p : Pinned) (past : List Query) (q : Query) : Answer :=
  q.answer (p.account q.addr) (p.slot past q.addr)

/-- The account as `Ext` has it after `past`. -/
def Pinned.held (p : Pinned) (past : List Query) (a : Address) : Account :=
  if putFirst past a then {} else p.account a

/-- The answer of `Ext`. -/
def Pinned.actual (p : Pinned) (past : List Query) (q : Query) : Answer :=
  q.answer (p.held past q.addr) (p.slot past q.addr)

def runQueries : List Query → Run Ext (List Answer)
  | [] => return []
  | q :: qs => do
    let a ← q.run
    let as ← runQueries qs
    return a :: as

end

/-- The answers to a sequence, each from the queries before it. -/
def answers (f : List Query → Query → Answer) (past : List Query) : List Query → List Answer
  | [] => []
  | q :: qs => f past q :: answers f (past ++ [q]) qs

/-- A block where every account holds 5. -/
def Sample.block : Pinned := ⟨fun _ => 5, fun _ => 0, fun _ => [], fun _ _ => 0, fun _ => 0⟩

theorem answers_eq_iff (f g : List Query → Query → Answer) (past qs : List Query) :
    answers f past qs = answers g past qs ↔ ∀ before q, before ++ [q] <+: qs →
      f (past ++ before) q = g (past ++ before) q := by
  induction qs generalizing past with
  | nil => simp [answers]
  | cons q qs ih =>
    simp only [answers, List.cons.injEq, ih]
    constructor
    · rintro ⟨hq, hrest⟩ before q' hpre
      cases before with
      | nil =>
        obtain rfl : q' = q := by simpa using hpre
        simpa using hq
      | cons b before =>
        rw [List.cons_append, List.cons_prefix_cons] at hpre
        obtain ⟨rfl, hpre⟩ := hpre
        rw [List.append_cons]
        exact hrest before q' hpre
    · intro h
      refine ⟨by simpa using h [] q (by simp), fun before q' hpre => ?_⟩
      have := h (q :: before) q' (by simpa using hpre)
      simpa using this

/-! ## One more query -/

theorem lastPut_snoc (past : List Query) (q : Query) (a : Address) (key : Word) :
    lastPut (past ++ [q]) a key = (q.writes a key).or (lastPut past a key) := by
  simp only [lastPut, List.reverse_append, List.reverse_singleton, List.singleton_append, List.findSome?_cons]
  cases q.writes a key <;> rfl

theorem lastPut_read {past : List Query} {q : Query} (h : q.isPut = false) (a : Address) (key : Word) :
    lastPut (past ++ [q]) a key = lastPut past a key := by
  rw [lastPut_snoc]
  cases q with
  | put => cases h
  | _ => rfl

theorem queried_snoc (past : List Query) (q : Query) (a : Address) :
    queried (past ++ [q]) a ↔ queried past a ∨ q.addr = a := by
  simp [queried, or_and_right, exists_or]

/-- The first query of an account stays the first. -/
theorem putFirst_queried {past : List Query} {a : Address} (h : queried past a) (q : Query) :
    putFirst (past ++ [q]) a = putFirst past a := by
  obtain ⟨q', hmem, ha⟩ := h
  unfold putFirst
  rw [List.find?_append]
  cases hf : past.find? (·.addr = a) with
  | some first => rfl
  | none => exact absurd (by simpa using ha) (List.find?_eq_none.1 hf q' hmem)

theorem find?_unqueried {past : List Query} {a : Address} (h : ¬queried past a) : past.find? (·.addr = a) = none :=
  List.find?_eq_none.2 fun q hq ha => h ⟨q, hq, by simpa using ha⟩

theorem putFirst_unqueried {past : List Query} {a : Address} (h : ¬queried past a) : putFirst past a = false := by
  rw [putFirst, find?_unqueried h]
  rfl

theorem putFirst_first {past : List Query} {q : Query} (h : ¬queried past q.addr) :
    putFirst (past ++ [q]) q.addr = q.isPut := by
  unfold putFirst
  rw [List.find?_append, find?_unqueried h]
  simp

theorem putFirst_other {past : List Query} {q : Query} {a : Address} (h : q.addr ≠ a) :
    putFirst (past ++ [q]) a = putFirst past a := by
  unfold putFirst
  rw [List.find?_append]
  simp [h]

theorem putFirst_read {past : List Query} {q : Query} (h : q.isPut = false) (a : Address) :
    putFirst (past ++ [q]) a = putFirst past a := by
  by_cases hq : queried past a
  · exact putFirst_queried hq q
  · by_cases ha : q.addr = a
    · subst ha
      rw [putFirst_first hq, h, putFirst_unqueried hq]
    · exact putFirst_other ha

/-! ## The simulation -/

section

variable [Crypto]

/-- What a field read shows of an account. -/
def Account.fields (a : Account) : Word × Word × Bytes × Word := (a.value, a.nonce, a.code)

omit [Crypto] in
theorem Query.answer_congr (q : Query) {x y : Account} (h : x.fields = y.fields) (slot : Word → Word) :
    q.answer x slot = q.answer y slot := by
  simp only [Account.fields, Prod.mk.injEq] at h
  obtain ⟨hv, hn, hc⟩ := h
  cases q <;> simp only [Query.answer, hv, hn, hc]

/-- `e` is the overlay after `past`. -/
structure Shadows (p : Pinned) (past : List Query) (e : Ext) : Prop where
  remote : e.remote = some p.remote
  loaded : ∀ a, (e.state.lookup a).isSome ↔ queried past a
  fields : ∀ a, (e.account? a).map Account.fields = some (p.held past a).fields
  slot : ∀ a key, e.slotOf a key = some (p.slot past a key)

variable {p : Pinned} {past : List Query} {e : Ext}

theorem Pinned.gives (p : Pinned) (a : Address) : p.remote.Gives a (p.account a) := ⟨rfl, rfl, rfl, rfl, rfl⟩

theorem shadows_pinned (p : Pinned) : Shadows p [] (.pinned p) where
  remote := rfl
  loaded a := by simp [Ext.pinned, queried]
  fields a := by
    rw [Ext.account?_remote (Finmap.lookup_empty a) rfl (p.gives a), Option.map_some]
    rfl
  slot a key := by
    simp [Ext.slotOf, Ext.orDefault, Ext.pinned, Pinned.remote, Pinned.slot, lastPut]

/-- The account is there or the remote serves it. -/
theorem pull_pinned (hr : e.remote = some p.remote) (a : Address) : ∃ account e', Ext.pull a e = .ok account e' := by
  cases hl : e.state.lookup a with
  | some account => exact ⟨account, e, Ext.pull_loaded hl⟩
  | none =>
    refine ⟨p.account a, { e with state := e.state.insert a (p.account a) }, ?_⟩
    simp only [Ext.pull, bind, EStateM.bind, MonadState.get, getThe, MonadStateOf.get, run_get, hl, hr]
    rfl

theorem get_pinned (hr : e.remote = some p.remote) (a : Address) (key : Word) : ∃ val e', Ext.get a key e = .ok val e' := by
  obtain ⟨account, e₁, hp⟩ := pull_pinned hr a
  have hr₁ : e₁.remote = some p.remote := (Ext.pull_remote hp).trans hr
  cases hk : account.state.lookup key with
  | some val =>
    refine ⟨val, { e₁ with original := orInsert e₁.original (a, key) val }, ?_⟩
    simp only [Ext.get, bind, EStateM.bind, hp, run_get, hk]
    rfl
  | none =>
    refine ⟨p.storage a key, ?_, ?_⟩
    rotate_left
    · simp only [Ext.get, bind, EStateM.bind, hp, run_get, hk, hr₁]
      rfl

/-- A read leaves the overlay it was. -/
theorem Shadows.read {q : Query} {e' : Ext} (hs : Shadows p past e) (hq : q.isPut = false)
    (hremote : e'.remote = e.remote) (hloaded : ∀ a, (e'.state.lookup a).isSome ↔ (e.state.lookup a).isSome ∨ q.addr = a)
    (hfields : ∀ a, (e'.account? a).map Account.fields = (e.account? a).map Account.fields)
    (hslot : ∀ a key, e'.slotOf a key = e.slotOf a key) : Shadows p (past ++ [q]) e' where
  remote := hremote.trans hs.remote
  loaded a := by rw [hloaded, hs.loaded, queried_snoc]
  fields a := by rw [hfields, hs.fields, Pinned.held, Pinned.held, putFirst_read hq]
  slot a key := by rw [hslot, hs.slot, Pinned.slot, Pinned.slot, lastPut_read hq]

theorem loaded_pull {a : Address} {account : Account} {e' : Ext} (h : Ext.pull a e = .ok account e') (b : Address) :
    (e'.state.lookup b).isSome ↔ (e.state.lookup b).isSome ∨ a = b := by
  cases Ext.pulled h with
  | loaded hl =>
    refine ⟨.inl, fun hb => hb.elim id fun hab => ?_⟩
    rw [← hab, hl]
    rfl
  | remote hn =>
    by_cases hb : b = a
    · subst hb
      simp
    · simp [hb, Ne.symm hb]

theorem loaded_get {a : Address} {key val : Word} {e' : Ext} (h : Ext.get a key e = .ok val e') (b : Address) :
    (e'.state.lookup b).isSome ↔ (e.state.lookup b).isSome ∨ a = b := by
  obtain ⟨account, e₁, hp, hg⟩ := Ext.got h
  rw [← loaded_pull hp]
  cases hg with
  | held => rfl
  | zero => rfl
  | fetched =>
    by_cases hb : b = a
    · subst hb
      simp [(Ext.pulled hp).lookup]
    · simp [hb]

/-- Loading an account answers its fields. -/
theorem Shadows.pull {q : Query} (hs : Shadows p past e) (hq : q.isPut = false) :
    ∃ account e', Ext.pull q.addr e = .ok account e' ∧ account.fields = (p.held past q.addr).fields ∧
      Shadows p (past ++ [q]) e' := by
  obtain ⟨account, e', hp⟩ := pull_pinned hs.remote q.addr
  refine ⟨account, e', hp, ?_, hs.read hq (Ext.pull_remote hp) (loaded_pull hp) (fun a => ?_) fun a key =>
    Ext.slotOf_pull hp⟩
  · have h := hs.fields q.addr
    rw [Ext.pull_account? hp, Option.map_some] at h
    exact Option.some.inj h
  · rw [Ext.account?_pull hp]

theorem Shadows.get (hs : Shadows p past e) (a : Address) (key : Word) :
    ∃ e', Ext.get a key e = .ok (p.slot past a key) e' ∧ Shadows p (past ++ [.get a key]) e' := by
  obtain ⟨val, e', hg⟩ := get_pinned hs.remote a key
  have hval : val = p.slot past a key := Option.some.inj ((Ext.get_slotOf hg).symm.trans (hs.slot a key))
  refine ⟨e', by rw [hg, hval], hs.read rfl (Ext.get_extends hg).remote (loaded_get hg) (fun b => ?_)
    fun b k => Ext.slotOf_get hg⟩
  exact Ext.account?_get (fun _ _ => rfl) hg

/-- What `or_default` finds or makes. -/
theorem Shadows.put_fields (hs : Shadows p past e) (a : Address) (key val : Word) :
    (e.orDefault a).fields = (p.held (past ++ [.put a key val]) a).fields := by
  by_cases hq : queried past a
  · obtain ⟨account, hl⟩ := Option.isSome_iff_exists.1 ((hs.loaded a).2 hq)
    have h := hs.fields a
    rw [Ext.account?_loaded hl, Option.map_some] at h
    rw [Ext.orDefault_of_lookup hl, Option.some.inj h]
    simp only [Pinned.held, putFirst_queried hq]
  · have hn : e.state.lookup a = none := by simpa using mt (hs.loaded a).1 hq
    have hfirst : putFirst (past ++ [.put a key val]) a = true := putFirst_first (q := .put a key val) hq
    simp only [Ext.orDefault, hn, Option.getD_none, Pinned.held, hfirst, if_true]

/-- A `put` changes its slot, and makes an account that was not there blank. -/
theorem Shadows.put (hs : Shadows p past e) (a : Address) (key val : Word) :
    ∃ e', Ext.put a key val e = .ok () e' ∧ Shadows p (past ++ [.put a key val]) e' := by
  refine ⟨_, Ext.put_eq a key val e, hs.remote, fun b => ?_, fun b => ?_, fun b k => ?_⟩
  · rw [queried_snoc, ← hs.loaded]
    show ((e.insertSlot a key val).state.lookup b).isSome ↔ _
    rw [Ext.lookup_insertSlot]
    by_cases hb : b = a
    · subst hb
      simp [Query.addr]
    · simp [hb, Ne.symm hb, Query.addr]
  · by_cases hb : b = a
    · subst hb
      have hw : (e.written b key val).state.lookup b = _ := (Ext.lookup_insertSlot e b key val b).trans (if_pos rfl)
      rw [Ext.account?_loaded hw, Option.map_some]
      exact congrArg some (hs.put_fields b key val)
    · have hl : (e.written a key val).state.lookup b = e.state.lookup b :=
        (Ext.lookup_insertSlot e a key val b).trans (if_neg hb)
      rw [show (e.written a key val).account? b = e.account? b by simp only [Ext.account?, hl]; rfl, hs.fields]
      have hne : (Query.put a key val).addr ≠ b := Ne.symm hb
      simp only [Pinned.held, putFirst_other hne]
  · rw [Ext.slotOf_written, hs.slot, Pinned.slot, Pinned.slot, lastPut_snoc]
    by_cases hk : a = b ∧ key = k
    · simp [Query.writes, hk]
    · simp [Query.writes, hk]

/-- One query answers `actual` and keeps the simulation. -/
theorem Shadows.run (hs : Shadows p past e) (q : Query) :
    ∃ e', q.run e = .ok (p.actual past q) e' ∧ Shadows p (past ++ [q]) e' := by
  cases q with
  | get a key =>
    obtain ⟨e', hg, hs'⟩ := hs.get a key
    exact ⟨e', by simp only [Query.run, bind, EStateM.bind, hg]; rfl, hs'⟩
  | put a key val =>
    obtain ⟨e', hp, hs'⟩ := hs.put a key val
    exact ⟨e', by simp only [Query.run, bind, EStateM.bind, hp]; rfl, hs'⟩
  | balance a =>
    obtain ⟨account, e', hp, hf, hs'⟩ := hs.pull (q := .balance a) rfl
    refine ⟨e', ?_, hs'⟩
    rw [Pinned.actual, ← Query.answer_congr _ hf]
    simp only [Query.addr] at hp
    simp only [Query.run, Ext.balance, bind, EStateM.bind, hp]
    rfl
  | nonce a =>
    obtain ⟨account, e', hp, hf, hs'⟩ := hs.pull (q := .nonce a) rfl
    refine ⟨e', ?_, hs'⟩
    rw [Pinned.actual, ← Query.answer_congr _ hf]
    simp only [Query.addr] at hp
    simp only [Query.run, Ext.nonce, bind, EStateM.bind, hp]
    rfl
  | code a =>
    obtain ⟨account, e', hp, hf, hs'⟩ := hs.pull (q := .code a) rfl
    refine ⟨e', ?_, hs'⟩
    rw [Pinned.actual, ← Query.answer_congr _ hf]
    simp only [Query.addr] at hp
    simp only [Query.run, Ext.code, bind, EStateM.bind, hp]
    rfl
  | pull a =>
    obtain ⟨account, e', hp, hf, hs'⟩ := hs.pull (q := .pull a) rfl
    refine ⟨e', ?_, hs'⟩
    rw [Pinned.actual, ← Query.answer_congr _ hf]
    simp only [Query.addr] at hp
    simp only [Query.run, bind, EStateM.bind, hp]
    rfl
  | isEmpty a =>
    obtain ⟨account, e', hp, hf, hs'⟩ := hs.pull (q := .isEmpty a) rfl
    refine ⟨e', ?_, hs'⟩
    rw [Pinned.actual, ← Query.answer_congr _ hf]
    simp only [Query.addr] at hp
    have again := Ext.pull_loaded (Ext.pulled hp).lookup
    simp only [Query.run, Ext.isEmpty, Ext.balance, Ext.nonce, Ext.code, bind, EStateM.bind, pure, EStateM.pure, hp, again]
    rfl

/-- Every sequence runs through. -/
theorem runQueries_eq (hs : Shadows p past e) (qs : List Query) :
    ∃ e', runQueries qs e = .ok (answers p.actual past qs) e' ∧ Shadows p (past ++ qs) e' := by
  induction qs generalizing past e with
  | nil => exact ⟨e, rfl, by simpa using hs⟩
  | cons q qs ih =>
    obtain ⟨e₁, hq, hs₁⟩ := hs.run q
    obtain ⟨e₂, hrest, hs₂⟩ := ih hs₁
    refine ⟨e₂, ?_, by simpa using hs₂⟩
    simp only [runQueries, bind, EStateM.bind, hq, hrest]
    rfl

/-! ## The verdict -/

/-- The query reads of the account a `put` makes what it would read of the remote's. -/
def Pinned.blank (p : Pinned) (q : Query) : Prop := ∀ slot, q.answer {} slot = q.answer (p.account q.addr) slot

theorem actual_eq_expected_iff (p : Pinned) (past : List Query) (q : Query) :
    p.actual past q = p.expected past q ↔ (putFirst past q.addr → p.blank q) := by
  unfold Pinned.actual Pinned.expected Pinned.held
  cases hf : putFirst past q.addr with
  | false => simp
  | true =>
    simp only [if_true, true_implies]
    constructor
    · intro h slot
      cases q with
      | get => rfl
      | put => rfl
      | _ => exact h
    · intro h
      exact h _

/-- The answers are the last value put, or else the remote's, if and only if no field is read
    of an account whose first query was a `put`, unless the remote has that field blank. -/
theorem overlay_faithful (p : Pinned) (qs : List Query) :
    (∃ e, runQueries qs (.pinned p) = .ok (answers p.expected [] qs) e) ↔
      ∀ before q, before ++ [q] <+: qs → putFirst before q.addr → p.blank q := by
  obtain ⟨e', hrun, -⟩ := runQueries_eq (shadows_pinned p) qs
  have hsame : (∃ e, runQueries qs (.pinned p) = .ok (answers p.expected [] qs) e) ↔
      answers p.actual [] qs = answers p.expected [] qs := by
    rw [hrun]
    constructor
    · rintro ⟨e, h⟩
      injection h
    · intro h
      exact ⟨e', by rw [h]⟩
  rw [hsame, answers_eq_iff]
  simp only [List.nil_append, actual_eq_expected_iff]

end

open Sample in
/-- A slot is written before the account is read: its balance is 0, where the block has 5. -/
theorem put_blanks_account :
    ¬∃ e, runQueries [.put 0xaa 0 1, .balance 0xaa] (.pinned Sample.block) =
      .ok (answers Sample.block.expected [] [.put 0xaa 0 1, .balance 0xaa]) e := by
  have hrun : Sample.returns (runQueries [.put 0xaa 0 1, .balance 0xaa] (.pinned Sample.block))
      (fun as _ => as == [.done, .word 0]) := by decide +kernel
  obtain ⟨as, e, hok, has⟩ := Sample.of_returns hrun
  rintro ⟨e', h⟩
  rw [hok] at h
  injection h with has'
  rw [has'] at has
  exact absurd has (by decide +kernel)

end Solenoid
