/-
  Solenoid.Originals — the value an SSTORE takes for the one at the start of the transaction.

  `Ext::get` records it when it first reads the slot, and `put` reads back what it wrote. A
  local `Ext` that does not hold the slot answers zero and records nothing: then the value
  written is what gets recorded. Every other first access records before it writes, and no
  undo touches the record, so `original_values`: the record is right in every state if and
  only if every SSTORE that stores finds its slot held, a remote behind it, or writes zero.
-/
import Solenoid.Carries
import Solenoid.Metering
import Solenoid.Storage
import Solenoid.Termination

namespace Solenoid

open Hoare UndoLog

section

/-! ## The record -/

/-- `original` is right about the slots it knows, and those it does not know are as they were. -/
structure Recorded (start e : Ext) : Prop where
  remote : e.remote = start.remote
  known : ∀ a key v, e.original.lookup (a, key) = some v → start.slotOf a key = some v
  fresh : ∀ a key, e.original.lookup (a, key) = none → e.slotOf a key = start.slotOf a key

namespace Ext

/-- The slot is in the account's own map. -/
def holds (e : Ext) (a : Address) (key : Word) : Bool := ((e.orDefault a).state.lookup key).isSome

theorem original_mutate (e : Ext) (a : Address) (f : Account → Account) : (e.mutate a f).original = e.original := by
  rw [mutate_eq]

theorem reset_recorded (e : Ext) (txCtx : TxContext) : Recorded (e.reset txCtx) (e.reset txCtx) where
  remote := rfl
  known a key v h := by
    have hnone : (e.reset txCtx).original.lookup (a, key) = none := rfl
    rw [hnone] at h
    cases h
  fresh _ _ _ := rfl

end Ext

theorem orInsert_lookup {κ ν : Type} [DecidableEq κ] (m : Finmap fun _ : κ => ν) (k k' : κ) (v : ν) :
    (orInsert m k v).lookup k' = if k' = k ∧ m.lookup k = none then some v else m.lookup k' := by
  unfold orInsert
  cases hk : m.lookup k with
  | some w => simp
  | none =>
    by_cases h : k' = k
    · subst h
      simp
    · simp [h]

theorem orInsert_grows {κ ν : Type} [DecidableEq κ] {m : Finmap fun _ : κ => ν} {k k' : κ} {v w : ν}
    (h : m.lookup k' = some w) : (orInsert m k v).lookup k' = some w := by
  rw [orInsert_lookup]
  split
  · next hk =>
    rw [hk.1, hk.2] at h
    cases h
  · exact h

/-- A record made of a slot that has not changed. -/
theorem Recorded.insert {start e e' : Ext} {a : Address} {key v : Word} (h : Recorded start e)
    (hv : e.slotOf a key = some v) (hremote : e'.remote = e.remote)
    (horiginal : e'.original = orInsert e.original (a, key) v)
    (hslots : ∀ b k, ¬(b = a ∧ k = key) → e'.slotOf b k = e.slotOf b k) : Recorded start e' where
  remote := hremote.trans h.remote
  known b k w hw := by
    rw [horiginal, orInsert_lookup] at hw
    split at hw
    · next hk =>
      obtain ⟨hk, hnone⟩ := hk
      cases hk
      cases hw
      rw [← h.fresh a key hnone, hv]
    · exact h.known b k w hw
  fresh b k hnone := by
    rw [horiginal, orInsert_lookup] at hnone
    split at hnone
    · cases hnone
    · next hk =>
      by_cases hsame : b = a ∧ k = key
      · obtain ⟨rfl, rfl⟩ := hsame
        exact absurd ⟨rfl, hnone⟩ hk
      · rw [hslots b k hsame, h.fresh b k hnone]

/-! ## Effects -/

/-- The slot that a touch journals has its record. -/
def AccountTouch.RecordedIn (original : Slots) : AccountTouch → Prop
  | setState a key .. => (original.lookup (a, key)).isSome
  | _ => True

/-- From `t` to `u` the record only grew, it stayed right, and it knows what the journal says
    was stored. -/
structure Records (start : Ext) (t u : Trail) : Prop where
  grows : ∀ k v, t.ext.original.lookup k = some v → u.ext.original.lookup k = some v
  touches : ∃ ts, u.touches = t.touches ++ ts ∧ ∀ τ ∈ ts, τ.RecordedIn u.ext.original
  keeps : Recorded start t.ext → Recorded start u.ext

theorem AccountTouch.RecordedIn.grow {original original' : Slots} {τ : AccountTouch} (h : τ.RecordedIn original)
    (hgrows : ∀ k v, original.lookup k = some v → original'.lookup k = some v) : τ.RecordedIn original' := by
  cases τ with
  | setState a key =>
    obtain ⟨v, hv⟩ := Option.isSome_iff_exists.1 h
    exact Option.isSome_iff_exists.2 ⟨v, hgrows _ _ hv⟩
  | _ => trivial

namespace Records

variable {start : Ext} {t u v : Trail}

theorem refl (t : Trail) : Records start t t :=
  ⟨fun _ _ h => h, ⟨[], (List.append_nil _).symm, fun _ h => (List.not_mem_nil h).elim⟩, id⟩

theorem trans (h : Records start t u) (h' : Records start u v) : Records start t v := by
  obtain ⟨ts, hts, hin⟩ := h.touches
  obtain ⟨ts', hts', hin'⟩ := h'.touches
  refine ⟨fun k w hk => h'.grows k w (h.grows k w hk), ⟨ts ++ ts', ?_, fun τ hτ => ?_⟩, fun hr => h'.keeps (h.keeps hr)⟩
  · rw [hts', hts, List.append_assoc]
  · rcases List.mem_append.1 hτ with hτ | hτ
    · exact (hin τ hτ).grow h'.grows
    · exact hin' τ hτ

/-- The slots and the record as they were. -/
theorem aside {ts : List AccountTouch} (ht : u.touches = t.touches ++ ts) (hts : ∀ τ ∈ ts, ∀ o, τ.RecordedIn o)
    (horiginal : u.ext.original = t.ext.original) (hremote : u.ext.remote = t.ext.remote)
    (hslots : ∀ a key, u.ext.slotOf a key = t.ext.slotOf a key) : Records start t u := by
  refine ⟨fun k w hk => by rw [horiginal, hk], ⟨ts, ht, fun τ hτ => hts τ hτ _⟩, fun h => ⟨hremote.trans h.remote, ?_, ?_⟩⟩
  · rw [horiginal]
    exact h.known
  · intro a key hnone
    rw [hslots, h.fresh a key (horiginal ▸ hnone)]

/-- The accounts changed, but no slot. -/
theorem kept (ht : u.touches = t.touches) (horiginal : u.ext.original = t.ext.original)
    (hremote : u.ext.remote = t.ext.remote) (hslots : ∀ a key, u.ext.slotOf a key = t.ext.slotOf a key) :
    Records start t u := by
  have hts : u.touches = t.touches ++ [] := ht.trans (List.append_nil _).symm
  exact aside hts (fun _ h => (List.not_mem_nil h).elim) horiginal hremote hslots

end Records

variable [Crypto]

theorem Ext.original_pull {a : Address} {account : Account} {e e' : Ext} (h : Ext.pull a e = .ok account e') :
    e'.original = e.original := by
  cases pulled h with
  | loaded => rfl
  | remote => rfl

/-- A read of a slot records it if it records anything, and what it records is the slot. -/
theorem Ext.get_records {a : Address} {key val : Word} {e e' : Ext} (h : Ext.get a key e = .ok val e') :
    e'.original = orInsert e.original (a, key) val ∨
      (e'.original = e.original ∧ val = 0 ∧ e.remote = none ∧ e.holds a key = false) := by
  obtain ⟨account, e₁, hp, hg⟩ := got h
  have horiginal := original_pull hp
  have hremote := pull_remote hp
  cases hg with
  | held hk => exact .inl (by rw [horiginal])
  | fetched hk hr gives => exact .inl (by rw [horiginal])
  | zero hk hr =>
    refine .inr ⟨horiginal, rfl, hremote ▸ hr, ?_⟩
    cases pulled hp with
    | loaded hl => rw [holds, orDefault_of_lookup hl, hk, Option.isSome_none]
    | remote hn hr' => rw [hr] at hr'; cases hr'

/-- A slot that nobody has answered for is zero, and stays unrecorded. -/
theorem Ext.get_unheld {a : Address} {key val : Word} {e e' : Ext} (hremote : e.remote = none)
    (hholds : e.holds a key = false) (h : Ext.get a key e = .ok val e') : val = 0 ∧ e'.original = e.original := by
  obtain ⟨account, e₁, hp, hg⟩ := got h
  cases pulled hp with
  | remote hn hr =>
    rw [hremote] at hr
    cases hr
  | loaded hl =>
    rw [holds, orDefault_of_lookup hl] at hholds
    cases hg with
    | held hk =>
      rw [hk] at hholds
      cases hholds
    | fetched hk hr =>
      rw [hremote] at hr
      cases hr
    | zero => exact ⟨rfl, rfl⟩

/-- What was written is read. -/
theorem Ext.get_written (e : Ext) (a : Address) (key v : Word) :
    ∃ e', Ext.get a key (e.written a key v) = .ok v e' ∧
      e'.original = orInsert (e.written a key v).original (a, key) v := by
  have hl : (e.written a key v).state.lookup a = _ := (lookup_insertSlot e a key v a).trans (if_pos rfl)
  refine ⟨{ e.written a key v with original := orInsert (e.written a key v).original (a, key) v }, ?_, rfl⟩
  simp only [Ext.get, bind, EStateM.bind, pull_loaded hl, run_get, Finmap.lookup_insert]
  rfl

theorem Act.records {start : Ext} {e : Effect} {t u : Trail} (h : Act e t u)
    (he : ∀ a key val new isWarm, e ≠ .store a key val new isWarm) : Records start t u := by
  have hslots := h.slot_kept he
  have hremote := h.extends.remote
  cases h with
  | warmAddress | storeTransient =>
    exact .aside rfl (fun τ hτ o => by rw [List.mem_singleton.1 hτ]; trivial) rfl hremote hslots
  | warmStorage | log | mark | openAccount => exact .kept rfl rfl hremote hslots
  | load h => exact .kept rfl (Ext.original_pull h) hremote hslots
  | note hτ =>
    refine .aside rfl (fun τ' hτ' o => ?_) rfl hremote hslots
    rw [List.mem_singleton.1 hτ']
    rename_i τ
    cases τ with
    | setState => cases hτ
    | _ => trivial
  | @fetch t a key val e h =>
    refine ⟨fun k v hk => ?_, ⟨[], (List.append_nil _).symm, fun _ h => (List.not_mem_nil h).elim⟩, fun hr => ?_⟩
    · rcases Ext.get_records h with hrec | ⟨hrec, -⟩
      · exact (congrArg (·.lookup k) hrec).trans (orInsert_grows hk)
      · exact (congrArg (·.lookup k) hrec).trans hk
    · rcases Ext.get_records h with hrec | ⟨hrec, -⟩
      · exact hr.insert (Ext.get_slotOf h) hremote hrec fun b k _ => hslots b k
      · refine ⟨hremote.trans hr.remote, fun a key v hv => hr.known a key v (hrec ▸ hv), fun a key hv => ?_⟩
        rw [hslots, hr.fresh a key (hrec ▸ hv)]
  | store => exact absurd rfl (he _ _ _ _ _)
  | transfer =>
    refine .aside rfl (fun τ hτ o => ?_) ?_ hremote hslots
    · rcases List.mem_pair.1 hτ with rfl | rfl <;> trivial
    · exact (Ext.original_mutate _ _ _).trans (Ext.original_mutate _ _ _)
  | bump =>
    exact .aside rfl (fun τ hτ o => by rw [List.mem_singleton.1 hτ]; trivial) (Ext.original_mutate _ _ _) hremote hslots
  | destroy =>
    exact .kept rfl ((Ext.original_mutate _ _ _).trans (Ext.original_mutate _ _ _)) hremote hslots

theorem Moved.records {start : Ext} {src dst : Address} {v : Word} {may : Prop} {t u : Trail}
    (h : Moved src dst v may t u) : Records start t u := by
  cases h with
  | moved _ _ _ _ h => exact h.records nofun
  | still => exact .refl _

/-- A store keeps the record right if its slot was recorded first, or zero is what it holds
    in the end and from the start. -/
theorem Act.records_store {start : Ext} {a : Address} {key val new : Word} {isWarm : Bool} {t u : Trail}
    (h : Act (.store a key val new isWarm) t u)
    (hkeeps : t.ext.remote.isSome = true ∨ t.ext.holds a key = true ∨ (t.ext.original.lookup (a, key)).isSome = true ∨
      new = 0) : Records start t u := by
  cases h with
  | store hget =>
    rename_i e
    have hfetch : Records start t { t with ext := e } := (Act.fetch hget).records nofun
    refine hfetch.trans ⟨fun k v hk => orInsert_grows hk, ⟨_, rfl, fun τ hτ => ?_⟩, fun hr => ?_⟩
    · rw [List.mem_singleton.1 hτ]
      change ((orInsert e.original (a, key) new).lookup (a, key)).isSome = true
      rw [orInsert_lookup]
      split
      · rfl
      · next hsome => exact Option.isSome_iff_ne_none.2 fun hn => hsome ⟨rfl, hn⟩
    · have hslots : ∀ b k, ¬(b = a ∧ k = key) → (e.written a key new).slotOf b k = e.slotOf b k := by
        intro b k hne
        rw [Ext.slotOf_written, if_neg fun h => hne ⟨h.1.symm, h.2.symm⟩]
      cases hknown : e.original.lookup (a, key) with
      | some v =>
        -- the record is there, and no store changes it
        have hsame : orInsert e.original (a, key) new = e.original := by
          unfold orInsert
          rw [hknown]
          rfl
        refine ⟨hr.remote, fun b k w hw => hr.known b k w (hsame ▸ hw), fun b k hn => ?_⟩
        have hfresh : e.original.lookup (b, k) = none := hsame ▸ hn
        have hne : ¬(b = a ∧ k = key) := by
          rintro ⟨rfl, rfl⟩
          cases hknown.symm.trans hfresh
        exact (hslots b k hne).trans (hr.fresh b k hfresh)
      | none =>
        rcases Ext.get_records hget with hrec | ⟨hrec, rfl, hremote, hholds⟩
        · rw [hrec, orInsert_lookup] at hknown
          split at hknown
          · cases hknown
          · next hsome => exact absurd ⟨rfl, hknown⟩ hsome
        · have hzero : new = 0 := by
            rcases hkeeps with h | h | h | h
            · rw [hremote] at h
              cases h
            · rw [hholds] at h
              cases h
            · rw [← hrec, hknown] at h
              cases h
            · exact h
          subst hzero
          have hval : e.slotOf a key = some 0 := (Ext.slotOf_get hget).trans (Ext.get_slotOf hget)
          exact hr.insert hval rfl rfl hslots

/-! ## Undo -/

omit [Crypto] in
theorem AccountTouch.original_undone (τ : AccountTouch) (e : Ext) : (τ.undone e).original = e.original := by
  cases τ with
  | setState a key val new isWarm => cases isWarm <;> rfl
  | getState a key val isWarm => cases isWarm <;> rfl
  | setNonce | setValue | create => exact Ext.original_mutate _ _ _
  | _ => rfl

omit [Crypto] in
/-- The undo of a touch changes a slot only if it is recorded. -/
theorem Recorded.undone {start e : Ext} (h : Recorded start e) {τ : AccountTouch} (hτ : τ.RecordedIn e.original) :
    Recorded start (τ.undone e) := by
  have horiginal := τ.original_undone e
  have hslots : ∀ a key, e.original.lookup (a, key) = none → (τ.undone e).slotOf a key = e.slotOf a key := by
    intro a key hnone
    cases τ with
    | setState b k val new isWarm =>
      have hne : ¬(b = a ∧ k = key) := by
        rintro ⟨rfl, rfl⟩
        have hsome : (e.original.lookup (b, k)).isSome = true := hτ
        rw [hnone] at hsome
        cases hsome
      have hsame := Ext.slotOf_insertSlot e b a k val key
      rw [if_neg hne] at hsame
      cases isWarm <;> exact hsame
    | getState b k val isWarm => cases isWarm <;> rfl
    | setNonce | setValue | create => exact Ext.slotOf_mutate _ _ _ _ fun _ => rfl
    | _ => rfl
  refine ⟨(τ.extends_undone e).remote.trans h.remote, fun a key v hv => h.known a key v (horiginal ▸ hv),
    fun a key hnone => ?_⟩
  rw [horiginal] at hnone
  rw [hslots a key hnone, h.fresh a key hnone]

/-- A rollback keeps the record, and keeps it right. -/
def recording (start : Ext) (original : Slots) : Frame Fault Ext where
  ok e e' := e.original = original → e'.original = original ∧ (Recorded start e → Recorded start e')
  err _ _ _ := True
  refl _ h := ⟨h, id⟩
  trans h h' ho := ⟨(h' (h ho).1).1, fun hr => (h' (h ho).1).2 ((h ho).2 hr)⟩
  fail _ _ := trivial

omit [Crypto] in
theorem RolledBack.recorded (start : Ext) {out : Evm} {t u : Trail} (h : RolledBack out t u)
    (hout : ∀ τ ∈ out.touches, τ.RecordedIn t.ext.original) :
    u.ext.original = t.ext.original ∧ (Recorded start t.ext → Recorded start u.ext) := by
  have hkeeps : Keeps (recording start t.ext.original) out.revert := by
    refine Keeps.forM _ fun τ hτ e => AccountTouch.wp_revertTouch τ e (fun _ ho => ?_) fun _ _ => trivial
    have hτ : τ.RecordedIn e.original := ho ▸ hout τ (List.mem_reverse.1 hτ)
    exact ⟨(τ.original_undone e).trans ho, fun hr => hr.undone hτ⟩
  exact hkeeps.ok h.ext rfl

variable {T : Type}

/-- The end of an inner frame that kept the record keeps it for the caller. -/
theorem Closes.records {start : Ext} {x : Step T} {inner : Inner T} {pending : Pending} {opened : Machine T} {r : Ended T}
    {u : Trail} (h : Closes x inner pending r.output { opened.trail with ext := r.machine.ext } u)
    (hinner : Records start ⟨opened.ext, [], []⟩ r.machine.trail) : Records start opened.trail u := by
  obtain ⟨ts, hts, hin⟩ := hinner.touches
  have hts : r.machine.evm.touches = ts := hts
  subst hts
  unfold Closes at h
  split at h
  · have hmerge : ∀ mid : Trail, Records start { opened.trail with ext := r.machine.ext } mid →
        Records start opened.trail (mid.merge r.output.evm.touches) := by
      intro mid hmid
      obtain ⟨pre, hpre, hidle⟩ := hmid.touches
      refine ⟨fun k v hk => hmid.grows k v (hinner.grows k v hk), ⟨pre ++ r.machine.evm.touches, ?_, fun τ hτ => ?_⟩,
        fun hr => hmid.keeps (hinner.keeps hr)⟩
      · rw [Trail.merge, hpre, List.append_assoc]
        rfl
      · rcases List.mem_append.1 hτ with hτ | hτ
        · exact hidle τ hτ
        · exact (hin τ hτ).grow hmid.grows
    split at h
    · rw [h]
      exact hmerge _ (.refl _)
    · obtain ⟨mid, ⟨mid', hm, rfl⟩, rfl⟩ := h
      have hcode : Records start { opened.trail with ext := r.machine.ext } mid' := by
        refine .trans ?_ hm.records
        exact .kept rfl (Ext.original_mutate _ _ _) (Ext.remote_mutate _ _ _) fun a key =>
          Ext.slotOf_mutate _ _ _ _ fun _ => rfl
      refine hmerge _ (hcode.trans (.aside rfl (fun τ hτ o => ?_) rfl rfl fun _ _ => rfl))
      rw [List.mem_singleton.1 hτ]
      trivial
  · obtain ⟨horiginal, hback⟩ := RolledBack.recorded start h hin
    refine ⟨fun k v hk => ?_, ⟨_, h.touches, fun τ hτ => ?_⟩, fun hr => hback (hinner.keeps hr)⟩
    · rw [horiginal]
      exact hinner.grows k v hk
    · rw [horiginal]
      exact hin τ (List.mem_of_mem_filter hτ)

/-! ## SSTORE -/

/-- The SSTORE comes to its write. -/
def Step.Puts (x : Step T) : Prop :=
  ∃ original current, x.Storing original current ∧
    ¬x.Short (storePrice original current (x.operand 1) x.isWarm) (refundChange original current (x.operand 1))

/-- If it does, a read records the slot first, or has, or what is written is zero. -/
def Step.RecordsFirst (x : Step T) : Prop :=
  x.Puts → x.before.ext.remote.isSome = true ∨ x.before.ext.holds x.this (x.operand 0) = true ∨
    (x.before.ext.original.lookup (x.this, x.operand 0)).isSome = true ∨ x.operand 1 = 0

variable [EventTracer T]

/-- The slot made warm. -/
def Step.warmed (x : Step T) : Trail :=
  { x.before.trail with ext.accessedStorage := insert (x.this, x.operand 0) x.before.ext.accessedStorage }

/-- An SSTORE reads, or it stores its operand and has nothing to read before. -/
def Step.ReadsOrPuts (x : Step T) (t : Trail) : Prop :=
  Acts (Effect.isRead ·) x.before.trail t ∨
    (x.Puts ∧ ∃ val isWarm, Act (.store x.this (x.operand 0) val (x.operand 1) isWarm) x.warmed t)

theorem wp_opSstore_acts {x : Step T} (hop : x.op = .sstore) :
    wp (opSstore x.scope x.instruction) (fun _ t => x.ReadsOrPuts t.trail)
      (fun f t => ∀ r, f = .report r → x.ReadsOrPuts t.trail) x.before := by
  unfold opSstore
  rw [wp_ite]
  refine ⟨fun _ => (wp_refuse _).2 fun _ _ => .inl (.refl _ _), fun hdynamic => ?_⟩
  rw [wp_bind, wp_pop]
  refine ⟨fun key rest hst => ?_, fun _ _ _ => .inl (.refl _ _)⟩
  rw [wp_bind, wp_pop]
  refine ⟨fun new rest' hrest => ?_, fun _ _ _ => .inl (.refl _ _)⟩
  have hst : x.before.evm.stack = key :: new :: rest' := by rw [hst, show rest = new :: rest' from hrest]
  have hkey : x.operand 0 = key := by simp [Step.operand, hst]
  have hnew : x.operand 1 = new := by simp [Step.operand, hst]
  subst hkey hnew
  rw [wp_bind]
  refine wp_warmSlot _ _ ?_
  have hwarm : Acts (Effect.isRead ·) x.before.trail x.warmed := .one rfl .warmStorage
  unfold storeSlot
  refine (keeps_get (P := (Effect.isRead ·)) (fun _ h _ => h) _ _).step (fun f t h r hr =>
    .inl (hwarm.trans (h r hr).trail))
    fun val t hget hread => ?_
  obtain ⟨e, hg, rfl⟩ := orError_get_ok hget
  have hread : Acts (Effect.isRead ·) x.before.trail _ := hwarm.trans hread.trail
  simp only [wp_bind, wp_get, wp_ite, wp_emit, wp_pure, wp_orError_put, wp_modify, wp_touch, wp_next, sstoreCost_eq,
    sstoreRefund_eq]
  refine ⟨fun _ => .inl hread, fun hrefund => ⟨fun _ => .inl hread, fun hprice => .inr ⟨?_, _, _, .store hg⟩⟩⟩
  have hslots := Ext.get_withSlots x.this (x.operand 0) x.before.ext (insert (x.this,
    x.operand 0) x.before.ext.accessedStorage)
  rw [show Ext.get x.this (x.operand 0) { x.before.ext with
    accessedStorage := insert (x.this, x.operand 0) x.before.ext.accessedStorage } = .ok val e from hg] at hslots
  cases hbefore : Ext.get x.this (x.operand 0) x.before.ext with
  | error f e' =>
    rw [hbefore] at hslots
    cases hslots
  | ok val' e' =>
    rw [hbefore] at hslots
    cases hslots
    exact ⟨_, _, ⟨hop, by simpa using hdynamic, by simp [Step.has, hst], e', hbefore, rfl⟩, not_or.2 ⟨hrefund, hprice⟩⟩

omit [EventTracer T] in
theorem Step.ReadsOrPuts.records {start : Ext} {x : Step T} {t : Trail} (h : x.ReadsOrPuts t) (hx : x.RecordsFirst) :
    Records start x.before.trail t := by
  rcases h with h | ⟨hputs, val, isWarm, hact⟩
  · exact h.keep (Records start) .refl .trans fun he ha => ha.records fun a key val new w hs => by
      subst hs
      cases he
  · have hact' : Act (.warmStorage x.this (x.operand 0)) x.before.trail x.warmed := .warmStorage
    have hwarm : Records start x.before.trail x.warmed := hact'.records nofun
    exact hwarm.trans (hact.records_store (hx hputs))

/-! ## Runs -/

omit [EventTracer T] in
theorem Acts.records {start : Ext} {x : Step T} {t u : Trail} (h : Acts x.allows t u) (hop : x.op ≠ .sstore) :
    Records start t u :=
  h.keep (Records start) .refl .trans fun he ha => ha.records fun a key val new w hs => by
    subst hs
    exact hop he.1

/-- The steps that keep the record right. -/
theorem carried_records (start : Ext) :
    Carried (T := T) (fun x => x.op = .sstore → x.RecordsFirst) (fun _ _ _ _ _ => True) (Records start) where
  refl := .refl
  trans := .trans
  read he ha := ha.records fun a key val new w hs => by
    subst hs
    cases he
  step exec x hcall hx := by
    by_cases hop : x.op = .sstore
    · rw [show executeInstruction exec x.scope x.instruction = opSstore x.scope x.instruction by
        simp only [executeInstruction, show x.instruction.op = .sstore from hop]]
      exact wp_mono (wp_opSstore_acts hop) (fun _ _ h => h.records (hx hop)) fun _ _ h r hr => (h r hr).records (hx hop)
    · exact wp_mono (wp_executeInstruction_acts exec x hcall) (fun _ _ h => h.records hop) fun _ _ h r hr =>
        (h r hr).records hop
  opens _ ho := (opens_of_openedFrame ho).acts.records fun hop => by
    have hcall := (opens_of_openedFrame ho).isCall
    rw [hop] at hcall
    cases hcall
  reported _ hcall h := (h.mono fun _ h => h.1).trail.records fun hop => by
    rw [hop] at hcall
    cases hcall
  closes _ _ h hinner := h.records hinner

omit [EventTracer T] in
/-- No slot changes before the top frame, and none is recorded. -/
theorem prepares_recorded (start : Ext) : Prepares fun e e' => Recorded start e → Recorded start e' := by
  have hkept : ∀ {e e' : Ext}, e'.original = e.original → e'.remote = e.remote →
      (∀ a key, e'.slotOf a key = e.slotOf a key) → Recorded start e → Recorded start e' := by
    intro e e' horiginal hremote hslots
    have hrecords : Records start ⟨e, [], []⟩ ⟨e', [], []⟩ := .kept rfl horiginal hremote hslots
    exact hrecords.keeps
  have hmutate : ∀ (e : Ext) (a : Address) (f : Account → Account), (∀ x, (f x).state = x.state) →
      Recorded start e → Recorded start (e.mutate a f) := fun _ _ _ hf =>
    hkept (Ext.original_mutate _ _ _) (Ext.remote_mutate _ _ _) fun _ _ => Ext.slotOf_mutate _ _ _ _ hf
  refine ⟨⟨fun _ => id, fun h h' hr => h' (h hr), fun hp => ?_, fun e a f hf => hmutate e a f fun x => (hf x).1,
    fun e a _ => hmutate e a _ fun _ => rfl, fun e _ _ _ => ?_⟩, fun e a => ?_⟩
  · exact hkept (Ext.original_pull hp) (Ext.pull_remote hp) fun _ _ => Ext.slotOf_pull hp
  · exact hkept rfl rfl fun _ _ => rfl
  · exact hkept rfl rfl fun b key => Ext.slotOf_congr (by rw [Ext.orDefault_open]) rfl

omit [EventTracer T] in
/-- A read of a slot in a state whose record is right leaves the right record. -/
theorem Recorded.read {start e e' : Ext} {a : Address} {key val : Word} (h : Recorded start e)
    (hget : Ext.get a key e = .ok val e') : start.slotOf a key = some ((e'.original.lookup (a, key)).getD 0) := by
  have hafter : Recorded start e' := ((Act.fetch (t := ⟨e, [], []⟩) hget).records nofun).keeps h
  cases hknown : e'.original.lookup (a, key) with
  | some v => exact hafter.known a key v hknown
  | none =>
    rcases Ext.get_records hget with hrec | ⟨-, rfl, -⟩
    · rw [hrec, orInsert_lookup] at hknown
      split at hknown
      · cases hknown
      · next hsome => exact absurd ⟨rfl, hknown⟩ hsome
    · rw [← hafter.fresh a key hknown, Ext.slotOf_get hget, Ext.get_slotOf hget]
      rfl

/-- An SSTORE of any slot would take for the original the value at the start. -/
def Ext.TakesStart (start e : Ext) : Prop :=
  ∀ a key val e', Ext.get a key e = .ok val e' → start.slotOf a key = some ((e'.original.lookup (a, key)).getD 0)

/-- Every SSTORE that a run comes to and that reads its slot does so. -/
def OriginalsAtStart (start : Ext) (sc₀ : Scope) (s₀ : Machine T) : Prop :=
  ∀ x : Step T, Reaches sc₀ s₀ x.scope x.before → currentInstruction x.scope x.before.evm = some x.instruction →
    x.op = .sstore → ∀ val e, Ext.get x.this (x.operand 0) x.before.ext = .ok val e →
      start.slotOf x.this (x.operand 0) = some x.original

/-- Every SSTORE that a run comes to and that stores has its slot recorded first. -/
def RecordsFirst (sc₀ : Scope) (s₀ : Machine T) : Prop :=
  ∀ x : Step T, Reaches sc₀ s₀ x.scope x.before → currentInstruction x.scope x.before.evm = some x.instruction →
    x.op = .sstore → x.RecordsFirst

/-- An SSTORE that stores first leaves its value for the original. -/
theorem Step.Puts.misrecords {x : Step T} (h : x.Puts) (exec : Exec T) (hremote : x.before.ext.remote = none)
    (hholds : x.before.ext.holds x.this (x.operand 0) = false)
    (hnew : x.before.ext.original.lookup (x.this, x.operand 0) = none) (hzero : x.operand 1 ≠ 0) :
    ∃ t, executeStep exec x.scope x.instruction x.before = .ok none t ∧
      ∃ val e, Ext.get x.this (x.operand 0) t.ext = .ok val e ∧
        e.original.lookup (x.this, x.operand 0) = some (x.operand 1) := by
  obtain ⟨original, current, hstoring, hshort⟩ := h
  obtain ⟨e, hget, -⟩ := hstoring.finds
  obtain ⟨rfl, -⟩ := Ext.get_unheld hremote hholds hget
  have hinstruction : executeInstruction exec x.scope x.instruction = opSstore x.scope x.instruction := by
    simp only [executeInstruction, show x.instruction.op = .sstore from hstoring.op]
  have hacts : wp (executeInstruction exec x.scope x.instruction) (fun _ t => x.ReadsOrPuts t.trail)
      (fun f t => ∀ r, f = .report r → x.ReadsOrPuts t.trail) x.before := by
    rw [hinstruction]
    exact wp_opSstore_acts hstoring.op
  obtain ⟨o, t, hrun, ⟨-, hpaid⟩, htrail⟩ := exists_ok <| wp_mono (wp_and (wp_executeStep_sstore exec hstoring)
    (wp_executeStep_trail hacts)) (fun _ _ h => h) fun _ _ h => h.1
  obtain ⟨rfl, hstored⟩ := hpaid hshort
  refine ⟨t, hrun, ?_⟩
  rcases htrail with hread | ⟨-, val, isWarm, hact⟩
  · -- a run that only read has not written
    have hslot : t.ext.slotOf x.this (x.operand 0) = x.before.ext.slotOf x.this (x.operand 0) :=
      hread.keep (fun t u => u.ext.slotOf x.this (x.operand 0) = t.ext.slotOf x.this (x.operand 0)) (fun _ => rfl)
        (fun h h' => h'.trans h) fun he h => h.slot_kept (fun a k v n w hs => by subst hs; cases he) _ _
    rw [hstored.slots, if_pos ⟨rfl, rfl⟩, Ext.get_slotOf hget] at hslot
    exact absurd (Option.some.inj hslot) hzero
  · obtain ⟨u, hu⟩ : ∃ u, u = t.trail := ⟨_, rfl⟩
    rw [← hu] at hact
    cases hact with
    | @store _ _ _ _ _ _ e' hget' =>
      have hext : t.ext = e'.written x.this (x.operand 0) (x.operand 1) := (congrArg Trail.ext hu).symm
      have hremote' : x.warmed.ext.remote = none := hremote
      have hholds' : x.warmed.ext.holds x.this (x.operand 0) = false := hholds
      have hunknown : e'.original.lookup (x.this, x.operand 0) = none := by
        rw [(Ext.get_unheld hremote' hholds' hget').2]
        exact hnew
      have hwritten : (e'.written x.this (x.operand 0) (x.operand 1)).original =
          orInsert e'.original (x.this, x.operand 0) (x.operand 1) := rfl
      obtain ⟨e'', hread, horiginal⟩ := e'.get_written x.this (x.operand 0) (x.operand 1)
      refine ⟨_, e'', by rw [hext]; exact hread, ?_⟩
      rw [horiginal]
      refine orInsert_grows ?_
      rw [hwritten, orInsert_lookup, if_pos ⟨rfl, hunknown⟩]

/-- The record is right in every state of a run if and only if its SSTOREs record first; then
    each SSTORE takes the value its slot had when the transaction started. -/
theorem original_values (ext : Ext) (txCtx : TxContext) {r : Runner} {sc₀ : Scope} {s₀ : Machine T}
    (h : r.topFrame (ext.reset txCtx) = some (sc₀, s₀)) :
    (RecordsFirst sc₀ s₀ → OriginalsAtStart (ext.reset txCtx) sc₀ s₀) ∧
      (RecordsFirst sc₀ s₀ ↔ ∀ sc s, Reaches sc₀ s₀ sc s → (ext.reset txCtx).TakesStart s.ext) := by
  obtain ⟨hstart, hstack⟩ := (prepares_recorded (ext.reset txCtx)).topFrame h
  have hrecorded : RecordsFirst sc₀ s₀ → ∀ sc s, Reaches sc₀ s₀ sc s → Recorded (ext.reset txCtx) s.ext := by
    intro hfirst sc s hreach
    have hmeets : Meets (T := T) (fun x => x.op = .sstore → x.RecordsFirst) (fun _ _ _ _ _ => True) sc₀ s₀ :=
      ⟨fun hreach hi => hfirst ⟨_, _, _⟩ hreach hi, fun _ _ _ _ => trivial⟩
    exact hmeets.reaches (carried_records _) hstack (fun hR => hR.keeps) (hstart (ext.reset_recorded txCtx)) hreach
  refine ⟨fun hfirst x hreach hi hop val e hget => ?_, fun hfirst sc s hreach a key val e hget =>
    ?_, fun hall x hreach hi hop hputs => ?_⟩
  · have htakes := (hrecorded hfirst _ _ hreach).read hget
    rw [htakes, Step.original, hget]
  · exact (hrecorded hfirst sc s hreach).read hget
  · by_contra hnot
    obtain ⟨hremote, hnot⟩ := not_or.1 hnot
    obtain ⟨hholds, hnot⟩ := not_or.1 hnot
    obtain ⟨hnew, hzero⟩ := not_or.1 hnot
    have hremote : x.before.ext.remote = none := by simpa using hremote
    have hholds : x.before.ext.holds x.this (x.operand 0) = false := by simpa using hholds
    have hnew : x.before.ext.original.lookup (x.this, x.operand 0) = none := by simpa using hnew
    obtain ⟨t, hrun, val, e, hget, hwrong⟩ := hputs.misrecords (executeWithContext 1) hremote hholds hnew hzero
    obtain ⟨_, _, hstoring, -⟩ := hputs
    obtain ⟨e₀, hget₀, -⟩ := hstoring.finds
    obtain ⟨-, hunknown⟩ := Ext.get_unheld hremote hholds hget₀
    have hbefore := hall x.scope x.before hreach _ _ _ _ hget₀
    have hreach' : Reaches sc₀ s₀ x.scope t := hreach.turn hi hrun
    have hafter := hall x.scope t hreach' _ _ _ _ hget
    rw [hunknown, hnew, Option.getD_none] at hbefore
    rw [hwrong, Option.getD_some] at hafter
    exact hzero (Option.some.inj (hafter.symm.trans hbefore))

end

namespace Sample

/-- Stores 5 in slot 0, then 7. -/
def twice : Bytes := [0x60, 0x05, 0x5f, 0x55, 0x60, 0x07, 0x5f, 0x55]

def twiceLedger : Ext := (machine [(0xca, 1000000, []), (0xaa, 0, twice)]).ext.reset { gasPrice := 1 }

/-- Clears slot 1, then does the same. -/
def keeper : Bytes := [0x5f, 0x60, 0x01, 0x55] ++ twice

/-- 0xaa has 3 in slot 0. -/
def keeperLedger : Ext :=
  (machine [(0xca, 1000000, []), (0xaa, 0, keeper)]).ext.mutate 0xaa fun a => { a with state := a.state.insert 0 3 }

end Sample

open Sample

/-- Slot 0 has 3 when the transaction starts; each of its stores takes that for its original. -/
theorem original_values_keeper : ∃ (sc₀ : Scope) (s₀ : Machine NoopTracer),
    (transaction []).topFrame (keeperLedger.reset { gasPrice := 1 }) = some (sc₀, s₀) ∧
      OriginalsAtStart (keeperLedger.reset { gasPrice := 1 }) sc₀ s₀ ∧
      ∀ value ∈ [(5 : Word), 7], ∃ x ∈ (history 20 sc₀ s₀).steps, x.op = .sstore ∧ x.operand 0 = 0 ∧
        x.operand 1 = value ∧ x.original = 3 := by
  have htop : (((transaction []).topFrame (T := NoopTracer) (keeperLedger.reset { gasPrice := 1 })).any fun f =>
      returns (executeWithContext 20 f.1 f.2) (fun _ _ => (history 20 f.1 f.2).steps.all fun x =>
        decide (x.op = .sstore → x.before.ext.holds x.this (x.operand 0) = true ∨ x.operand 1 = 0)) &&
      [(5 : Word), 7].all fun value => (history 20 f.1 f.2).steps.any fun x =>
        decide (x.op = .sstore ∧ x.this = 0xaa ∧ x.operand 0 = 0 ∧ x.operand 1 = value) &&
          returns (Ext.get x.this (x.operand 0) x.before.ext) fun _ _ => true) = true := by decide +kernel
  have hstart : (keeperLedger.reset { gasPrice := 1 }).slotOf 0xaa 0 = some 3 := by decide +kernel
  obtain ⟨⟨sc₀, s₀⟩, h, hrun⟩ := (Option.any_eq_true _ _).1 htop
  rw [Bool.and_eq_true] at hrun
  obtain ⟨hrun, hstores⟩ := hrun
  have hfirst : RecordsFirst sc₀ s₀ := by
    intro x h hi hop _
    have hx := of_decide_eq_true (of_history hrun h hi) hop
    exact .inr (hx.imp_right .inr)
  have horiginals := (original_values keeperLedger { gasPrice := 1 } h).1 hfirst
  refine ⟨sc₀, s₀, h, horiginals, fun value hvalue => ?_⟩
  obtain ⟨x, hmem, hx⟩ := List.any_eq_true.1 (List.all_eq_true.1 hstores value hvalue)
  simp only [Bool.and_eq_true, decide_eq_true_eq] at hx
  obtain ⟨⟨hop, hthis, hslot, hvalue⟩, hget⟩ := hx
  obtain ⟨val, e, hget, -⟩ := of_returns hget
  obtain ⟨hreach, hi⟩ := reaches_history hmem
  have horiginal := horiginals x hreach hi hop val e hget
  rw [hthis, hslot, hstart] at horiginal
  exact ⟨x, hmem, hop, hslot, hvalue, (Option.some.inj horiginal).symm⟩

/-- The slot is empty when the transaction starts; the second store takes 5 for its original. -/
theorem original_values_fails : ∃ (sc₀ : Scope) (s₀ : Machine NoopTracer),
    (transaction []).topFrame twiceLedger = some (sc₀, s₀) ∧ ¬OriginalsAtStart twiceLedger sc₀ s₀ := by
  have hstep : (((transaction []).topFrame (T := NoopTracer) twiceLedger).any fun f =>
      (history 20 f.1 f.2).steps.any fun x => x.op == .sstore && twiceLedger.slotOf x.this (x.operand 0) != some
        x.original &&
        returns (Ext.get x.this (x.operand 0) x.before.ext) fun _ _ => true) = true := by decide +kernel
  obtain ⟨⟨sc₀, s₀⟩, h, hx⟩ := (Option.any_eq_true _ _).1 hstep
  obtain ⟨x, hmem, hx⟩ := List.any_eq_true.1 hx
  simp only [Bool.and_eq_true, beq_iff_eq, bne_iff_ne, ne_eq] at hx
  obtain ⟨⟨hop, hne⟩, hget⟩ := hx
  obtain ⟨val, e, hget, -⟩ := of_returns hget
  obtain ⟨hreach, hi⟩ := reaches_history hmem
  exact ⟨sc₀, s₀, h, fun hall => hne (hall x hreach hi hop val e hget)⟩

end Solenoid
