/-
  Solenoid.Access — the access sets of EIP-2929, and what the undo of a frame leaves of them.

  SLOAD and SSTORE add their slot to the set before their gas check and note it in the
  journal after it. A step that stops in between `LeavesWarm` its slot: no undo takes it out
  again. A run without such a step journals all that it adds (`Reaches.tidy`, by induction on
  the bound), so `access_rollback`: the undo of a frame takes both sets back, and what only
  that frame had touched is cold for its caller.
-/
import Solenoid.Termination
import Solenoid.Undo

namespace Solenoid

open Hoare UndoLog

/-! ## The sets and their undo -/

abbrev Accesses := Finset Address × Finset (Address × Word)

def Ext.accesses (e : Ext) : Accesses := (e.accessedAddresses, e.accessedStorage)

def undoAccess : AccountTouch → Accesses → Accesses
  | .warmUp a, v => (v.1.erase a, v.2)
  | .getState a key _ false, v | .setState a key _ _ false, v => (v.1, v.2.erase (a, key))
  | _, v => v

namespace Ext

theorem accesses_mutate (e : Ext) (a : Address) (f : Account → Account) : (e.mutate a f).accesses = e.accesses := by
  rw [mutate_eq]
  rfl

variable [Crypto] {e e' : Ext} {a : Address} {account : Account}

theorem accesses_pull (h : pull a e = .ok account e') : e'.accesses = e.accesses := by
  cases pulled h with
  | loaded => rfl
  | remote => rfl

theorem accesses_get {key val : Word} (h : get a key e = .ok val e') : e'.accesses = e.accesses := by
  obtain ⟨account, e₁, hp, hg⟩ := got h
  rw [← accesses_pull hp]
  cases hg <;> rfl

end Ext

open AccountTouch in
def accessCell : Cell Accesses where
  view := Ext.accesses
  undo := undoAccess
  known _ := True
  extends_known _ h := h
  reverts τ e e' h := by
    obtain ⟨rfl, -⟩ := revertTouch_ok h
    cases τ with
    | setState b k val new isWarm => cases isWarm <;> rfl
    | getState b k val isWarm => cases isWarm <;> rfl
    | setValue | setNonce | create => exact Ext.accesses_mutate _ _ _
    | _ => rfl

theorem downward_undoAccess : Accumulates.Downward undoAccess := by
  intro τ c c' hle hidle
  have haddress : ∀ a : Address, c'.1.erase a = c'.1 → c.1.erase a = c.1 := fun a h =>
    Finset.erase_eq_self.2 fun ha => Finset.erase_eq_self.1 h (hle.1 ha)
  have hslot : ∀ k : Address × Word, c'.2.erase k = c'.2 → c.2.erase k = c.2 := fun k h =>
    Finset.erase_eq_self.2 fun hk => Finset.erase_eq_self.1 h (hle.2 hk)
  cases τ with
  | warmUp a => exact Prod.ext (haddress a (congrArg Prod.fst hidle)) rfl
  | getState a key val isWarm =>
    cases isWarm
    · exact Prod.ext rfl (hslot _ (congrArg Prod.snd hidle))
    · rfl
  | setState a key val new isWarm =>
    cases isWarm
    · exact Prod.ext rfl (hslot _ (congrArg Prod.snd hidle))
    · rfl
  | _ => rfl

/-! ## Stretches that journal what they add -/

/-- The touches appended from `t` to `u` take out again what was added to the access sets. -/
def Tidy (t u : Trail) : Prop :=
  ∃ ts, u.touches = t.touches ++ ts ∧ Accumulates undoAccess ts t.ext.accesses u.ext.accesses

namespace Tidy

variable {t u v : Trail}

theorem refl (t : Trail) : Tidy t t := ⟨[], (List.append_nil _).symm, .refl _⟩

theorem trans (h : Tidy t u) (h' : Tidy u v) : Tidy t v := by
  obtain ⟨ts, hts, h⟩ := h
  obtain ⟨ts', hts', h'⟩ := h'
  exact ⟨ts ++ ts', by rw [hts', hts, List.append_assoc], h.append downward_undoAccess h'⟩

/-- Touches that are about other things. -/
theorem aside {ts : List AccountTouch} (ht : u.touches = t.touches ++ ts) (hv : u.ext.accesses = t.ext.accesses)
    (hts : ∀ τ ∈ ts, ∀ c, undoAccess τ c = c) : Tidy t u := by
  refine ⟨ts, ht, ?_⟩
  rw [hv]
  exact ⟨.idle fun τ hτ => hts τ hτ _, le_rfl, fun τ hτ => hts τ hτ _⟩

theorem of_eq (ht : u.touches = t.touches) (hv : u.ext.accesses = t.ext.accesses) : Tidy t u := by
  have hts : u.touches = t.touches ++ [] := by rw [ht, List.append_nil]
  exact .aside hts hv fun _ h => (List.not_mem_nil h).elim

/-- A slot that was cold, noted. -/
theorem slot {τ : AccountTouch} {a : Address} {key : Word} (cold : (a, key) ∉ t.ext.accessedStorage)
    (hτ : ∀ c : Accesses, undoAccess τ c = (c.1, c.2.erase (a, key))) (ht : u.touches = t.touches ++ [τ])
    (hv : u.ext.accesses = (t.ext.accessedAddresses, insert (a, key) t.ext.accessedStorage)) : Tidy t u := by
  refine ⟨[τ], ht, ?_, ?_, fun τ' hτ' => ?_⟩
  · refine .single ?_
    rw [hv, hτ]
    exact Prod.ext rfl (Finset.erase_insert cold)
  · rw [hv]
    exact ⟨le_rfl, Finset.subset_insert _ _⟩
  · rw [List.mem_singleton.1 hτ', hτ]
    exact Prod.ext rfl (Finset.erase_eq_self.2 cold)

end Tidy

section

variable [Crypto]

theorem Act.tidy {e : Effect} {t u : Trail} (h : Act e t u) (he : e.isTidy) : Tidy t u := by
  cases h with
  | @warmAddress _ a cold =>
    refine ⟨[.warmUp a], rfl, .single ?_, ⟨Finset.subset_insert _ _, le_rfl⟩, fun τ hτ => ?_⟩
    · exact Prod.ext (Finset.erase_insert cold) rfl
    · rw [List.mem_singleton.1 hτ]
      exact Prod.ext (Finset.erase_eq_self.2 cold) rfl
  | warmStorage => cases he
  | load h => exact .of_eq rfl (Ext.accesses_pull h)
  | fetch h => exact .of_eq rfl (Ext.accesses_get h)
  | @note _ τ hτ =>
    refine .aside rfl rfl fun τ' hτ' c => ?_
    rw [List.mem_singleton.1 hτ']
    cases τ with
    | getState a key val isWarm =>
      have hwarm : isWarm = true := he
      rw [hwarm]
      rfl
    | _ => first | rfl | cases hτ
  | @store _ a key val new isWarm e' get =>
    have hwarm : isWarm = true := he
    refine .aside rfl (Ext.accesses_get get :) fun τ hτ c => ?_
    rw [List.mem_singleton.1 hτ, hwarm]
    rfl
  | storeTransient =>
    refine .aside rfl rfl fun τ hτ c => ?_
    rw [List.mem_singleton.1 hτ]
    rfl
  | log | mark | openAccount => exact .of_eq rfl rfl
  | transfer =>
    refine .aside rfl ((Ext.accesses_mutate _ _ _).trans (Ext.accesses_mutate _ _ _)) fun τ hτ c => ?_
    rcases List.mem_pair.1 hτ with rfl | rfl <;> rfl
  | bump =>
    refine .aside rfl (Ext.accesses_mutate _ _ _) fun τ hτ c => ?_
    rw [List.mem_singleton.1 hτ]
    rfl
  | destroy => exact .of_eq rfl ((Ext.accesses_mutate _ _ _).trans (Ext.accesses_mutate _ _ _))

theorem Acts.tidy {t u : Trail} (h : Acts (Effect.isTidy ·) t u) : Tidy t u :=
  h.keep Tidy .refl .trans fun he h => h.tidy he

/-! ## Instructions that are tidy -/

variable {T : Type}

/-- The frame of what is tidy, also where it reports. -/
def tidying : Frame Fault (Machine T) where
  ok s t := Tidy s.trail t.trail
  err f s t := ∀ r, f = .report r → Tidy s.trail t.trail
  refl _ := .refl _
  trans := .trans
  fail h h' r hr := h.trans (h' r hr)

theorem Keeps.tidying {α : Type} {m : M T α} (h : Keeps (within (Effect.isTidy ·)) m) : Keeps (Solenoid.tidying) m :=
  h.mono (fun h => h.trail.tidy) fun h r hr => (h r hr).trail.tidy

omit [Crypto] in
theorem tidying_accountMut (a : Address) (f : Account → Account) :
    Keeps tidying (onExt (Ext.accountMut a f) : M T Unit) := fun s => by
  rw [wp_onExt, Ext.wp_accountMut]
  exact ⟨fun _ => .of_eq rfl (Ext.accesses_mutate _ _ _), fun _ _ hr => (nomatch hr)⟩

omit [Crypto] in
theorem tidying_touch {τ : AccountTouch} (hτ : ∀ c, undoAccess τ c = c) : Keeps tidying (touch τ : M T Unit) := fun s =>
  (wp_touch τ).2 <| .aside rfl rfl fun τ' hτ' c => by rw [List.mem_singleton.1 hτ', hτ]

variable [EventTracer T]

theorem tidying_moveValue (depth : Nat) (src dst : Address) (srcBalance dstBalance value : Word) :
    Keeps tidying (moveValue depth src dst srcBalance dstBalance value : M T Unit) := by
  refine (Keeps.tidying (keeps_lift _)).bind fun _ => ?_
  refine (tidying_accountMut _ _).bind fun _ => ?_
  refine (tidying_touch fun _ => rfl).bind fun _ => ?_
  refine (Keeps.tidying (keeps_emit _ _ _)).bind fun _ => ?_
  refine (Keeps.tidying (keeps_lift _)).bind fun _ => ?_
  refine (tidying_accountMut _ _).bind fun _ => ?_
  refine (tidying_touch fun _ => rfl).bind fun _ => ?_
  exact Keeps.tidying (keeps_emit _ _ _)

theorem tidying_callTransfer (sc : Scope) (a : CallArgs) : Keeps tidying (callTransfer sc a : M T Unit) := by
  refine (Keeps.tidying (keeps_account _ rfl)).bind fun _ => ?_
  refine (Keeps.tidying (keeps_account _ rfl)).bind fun _ => ?_
  exact .ite (fun _ => tidying_moveValue _ _ _ _ _ _) fun _ => .pure _

omit [Crypto] in
theorem tidying_newFrame (scope : Scope) (limit : Int) : Keeps tidying (newFrame scope limit : M T (Inner T)) :=
  Keeps.get.bind fun _ => .pure _

theorem tidying_callEnter (sc : Scope) (instruction : Instruction) (a : CallArgs) (target : Target) (gas : CallGas) :
    Keeps tidying (callEnter sc instruction a target gas : M T (Opened T)) := by
  have hdata : Keeps tidying (callData a : M T Bytes) := fun s =>
    wp_mono (wp_callData a) (fun _ t ht => ht ▸ .refl _) fun _ t ht _ _ => ht ▸ .refl _
  refine hdata.bind fun data => .ite (fun _ => ?_) fun _ => ?_
  · refine Keeps.bind ?_ fun _ => .pure _
    exact (answers_callPrecompile (P := (Effect.isTidy ·)) sc instruction a data _).mono (fun h => h.trail.tidy)
      fun h r hr => (h r hr).trail.tidy
  · refine (tidying_callTransfer sc a).bind fun _ => ?_
    refine (Keeps.tidying (keeps_emit _ _ _)).bind fun _ => ?_
    refine (tidying_newFrame _ _).bind fun _ => ?_
    exact .pure _

theorem tidying_callOpen (sc : Scope) (instruction : Instruction) :
    Keeps tidying (callOpen sc instruction : M T (Opened T)) := by
  have hP : ∀ e : Effect, e.isRead → e.isTidy → e.isTidy := fun _ _ h => h
  refine (Keeps.tidying (keeps_callArgs sc)).bind fun a => ?_
  refine (Keeps.tidying (keeps_callMemory a)).bind fun _ => ?_
  refine (Keeps.tidying (keeps_callCreateCost hP a)).bind fun _ => ?_
  refine (Keeps.tidying (keeps_callTarget hP _)).bind fun target => ?_
  refine (Keeps.tidying keeps_remaining).bind fun left => ?_
  refine .ite (fun _ s => ?_) fun _ => tidying_callEnter _ _ _ _ _
  exact wp_mono (wp_callOutOfGas (P := (Effect.isTidy ·)) sc instruction) (fun _ _ h => h.elim)
    fun _ _ h r hr => (h r hr).trail.tidy

theorem tidying_createOpen (sc : Scope) : Keeps tidying (createOpen sc : M T (Opened T)) := by
  refine (Keeps.tidying keeps_pop).bind fun _ => ?_
  refine (Keeps.tidying keeps_popUsize).bind fun _ => ?_
  refine (Keeps.tidying keeps_popUsize).bind fun _ => ?_
  refine (Keeps.tidying (keeps_popSalt _)).bind fun _ => ?_
  refine (Keeps.tidying (keeps_initCode _ _)).bind fun _ => ?_
  refine (Keeps.tidying (keeps_bumpNonce _ rfl rfl)).bind fun _ => ?_
  refine (Keeps.tidying (keeps_openAccount rfl rfl rfl)).bind fun _ => ?_
  refine (Keeps.tidying keeps_remaining).bind fun _ => ?_
  refine .ite (fun _ => .throw fun _ _ hr => (nomatch hr)) fun _ => ?_
  refine (tidying_newFrame _ _).bind fun _ => ?_
  exact .pure _

theorem tidying_openFrame (sc : Scope) (instruction : Instruction) :
    Keeps tidying (openFrame sc instruction : M T (Opened T)) := by
  unfold openFrame
  split
  · exact tidying_createOpen _
  · exact tidying_createOpen _
  · exact tidying_callOpen _ _

/-! ## The slots that stay warm -/

omit [EventTracer T] [Crypto] in
/-- Nothing noted, nothing added. -/
theorem Tidy.eq_of_touches {t u : Trail} (h : Tidy t u) (ht : u.touches = t.touches) : u.ext.accesses = t.ext.accesses := by
  obtain ⟨ts, hts, h⟩ := h
  rw [ht] at hts
  obtain rfl : ts = [] := List.append_cancel_left (hts.symm.trans (List.append_nil _).symm)
  exact h.restores

/-- A result over other warm slots. -/
def withSlots {α : Type} (slots : Finset (Address × Word)) : EStateM.Result Fault Ext α → EStateM.Result Fault Ext α
  | .ok a e => .ok a { e with accessedStorage := slots }
  | .error f e => .error f { e with accessedStorage := slots }

theorem Ext.pull_withSlots (a : Address) (e : Ext) (slots : Finset (Address × Word)) :
    Ext.pull a { e with accessedStorage := slots } = withSlots slots (Ext.pull a e) := by
  obtain ⟨remote, state⟩ := e
  simp only [Ext.pull, bind, EStateM.bind, MonadState.get, getThe, MonadStateOf.get, run_get]
  cases state.lookup a with
  | some account => rfl
  | none =>
    cases remote with
    | none => rfl
    | some r =>
      dsimp only
      cases r.balance a with
      | none => rfl
      | some v =>
        cases r.nonce a with
        | none => rfl
        | some n => cases r.code a <;> rfl

/-- A read does not look at the warm slots. -/
theorem Ext.get_withSlots (a : Address) (key : Word) (e : Ext) (slots : Finset (Address × Word)) :
    Ext.get a key { e with accessedStorage := slots } = withSlots slots (Ext.get a key e) := by
  simp only [Ext.get, bind, EStateM.bind, Ext.pull_withSlots]
  cases hp : Ext.pull a e with
  | error f e' => rfl
  | ok account e' =>
    obtain ⟨remote, state⟩ := e'
    simp only [withSlots, run_get]
    cases account.state.lookup key with
    | some val => rfl
    | none =>
      cases remote with
      | none => rfl
      | some r =>
        dsimp only
        cases r.storage a key <;> rfl

/-- SLOAD or SSTORE, past the checks in front of the warming of its slot. -/
def Step.Warms (x : Step T) : Prop :=
  (x.op = .sload ∧ x.has 1) ∨ (x.op = .sstore ∧ x.has 2 ∧ x.scope.ctx.isStaticCall = false)

/-- What comes after it goes through for a cold slot: the slot is read, and the gas is there. -/
def Step.Affords (x : Step T) : Prop :=
  match Ext.get x.this (x.operand 0) x.before.ext with
  | .error _ _ => False
  | .ok val e =>
    let original := (e.original.lookup (x.this, x.operand 0)).getD 0
    let left := x.before.evm.gas.remaining
    if x.op = .sload then 2100 ≤ left
    else 0 ≤ left + sstoreRefund original val (x.operand 1) ∧ sstoreCost original val (x.operand 1) false ≤ left

/-- The step stops between the warming of its slot and the touch that would undo it. -/
structure Step.LeavesWarm (x : Step T) : Prop where
  warms : x.Warms
  cold : (x.this, x.operand 0) ∉ x.before.ext.accessedStorage
  stops : ¬x.Affords

instance (x : Step T) : Decidable x.Warms := by
  unfold Step.Warms Step.has
  infer_instance

instance (x : Step T) : Decidable x.Affords := by
  unfold Step.Affords
  split <;> infer_instance

instance (x : Step T) : Decidable x.LeavesWarm :=
  decidable_of_iff (x.Warms ∧ (x.this, x.operand 0) ∉ x.before.ext.accessedStorage ∧ ¬x.Affords)
    ⟨fun h => ⟨h.1, h.2.1, h.2.2⟩, fun h => ⟨h.warms, h.cold, h.stops⟩⟩

/-- `t` has the slot of a step warm, and no touch of it. -/
structure Strands (x : Step T) (t : Machine T) : Prop where
  touches : t.evm.touches = x.before.evm.touches
  warm : (x.this, x.operand 0) ∈ t.ext.accessedStorage

omit [Crypto] [EventTracer T] in
theorem Strands.untidy {x : Step T} {t : Machine T} (h : Strands x t)
    (cold : (x.this, x.operand 0) ∉ x.before.ext.accessedStorage) : ¬Tidy x.before.trail t.trail := by
  intro htidy
  have hsame := congrArg Prod.snd (htidy.eq_of_touches h.touches)
  have hsame : t.ext.accessedStorage = x.before.ext.accessedStorage := hsame
  exact cold (hsame ▸ h.warm)

/-- The verdict on a step: what it leaves is tidy exactly if no slot is left warm. -/
def Step.Tells (x : Step T) (t : Machine T) : Prop := Tidy x.before.trail t.trail ↔ ¬x.LeavesWarm

variable {x : Step T}

omit [EventTracer T] in
theorem Step.not_affords {f : Fault} {e : Ext} (h : Ext.get x.this (x.operand 0) x.before.ext = .error f e) :
    ¬x.Affords := by
  unfold Step.Affords
  rw [h]
  exact id

omit [EventTracer T] in
theorem Step.affords_sload {val : Word} {e : Ext} (h : Ext.get x.this (x.operand 0) x.before.ext = .ok val e)
    (hop : x.op = .sload) : x.Affords ↔ 2100 ≤ x.before.evm.gas.remaining := by
  simp only [Step.Affords, h, hop, if_true]

omit [EventTracer T] in
theorem Step.affords_sstore {val : Word} {e : Ext} (h : Ext.get x.this (x.operand 0) x.before.ext = .ok val e)
    (hop : x.op = .sstore) :
    x.Affords ↔
      0 ≤ x.before.evm.gas.remaining +
          sstoreRefund ((e.original.lookup (x.this, x.operand 0)).getD 0) val (x.operand 1) ∧
        sstoreCost ((e.original.lookup (x.this, x.operand 0)).getD 0) val (x.operand 1) false ≤
          x.before.evm.gas.remaining := by
  simp only [Step.Affords, h, hop, reduceCtorEq, if_false]

omit [EventTracer T] in
theorem Step.Tells.of_tidy {t : Machine T} (h : Tidy x.before.trail t.trail) (hnot : ¬x.LeavesWarm) : x.Tells t :=
  iff_of_true h hnot

omit [EventTracer T] in
theorem Step.Tells.of_strands {t : Machine T} (h : Strands x t) (hleaves : x.LeavesWarm) : x.Tells t :=
  iff_of_false (h.untidy hleaves.cold) (not_not_intro hleaves)

omit [EventTracer T] in
/-- A storage read on the warmed slots. -/
theorem wp_get_warmed {a : Address} {key : Word} {slots : Finset (Address × Word)} {s : Machine T}
    {Q : Word → Machine T → Prop} {E : Fault → Machine T → Prop}
    (hQ : ∀ val e, Ext.get a key s.ext = .ok val e → Q val { s with ext := { e with accessedStorage := slots } })
    (hE : ∀ f e u, Ext.get a key s.ext = .error f e → u.evm.touches = s.evm.touches → u.ext.accessedStorage = slots →
      E f u) : wp (orError (Ext.get a key)) Q E { s with ext.accessedStorage := slots } := by
  have hget := Ext.get_withSlots a key s.ext slots
  cases hg : Ext.get a key s.ext with
  | ok val e =>
    rw [hg] at hget
    have hrun : orError (Ext.get a key) { s with ext.accessedStorage := slots } =
        .ok val { s with ext := { e with accessedStorage := slots } } := by
      simp only [orError, hget, withSlots]
    exact (wp_of_ok hrun).2 (hQ val e hg)
  | error f e =>
    rw [hg] at hget
    refine wp_def.2 ⟨fun val t ht => ?_, fun f' t ht => ?_⟩
    · simp only [orError, hget, withSlots] at ht
      cases f <;> cases ht
    · simp only [orError, hget, withSlots] at ht
      cases f <;> cases ht <;> exact hE _ _ _ hg rfl rfl

theorem wp_opSload_tells (hs : x.before.evm.stack.length ≤ stackLimit) (hop : x.op = .sload) :
    wp (opSload x.scope) (fun _ => x.Tells) (fun f t => ∀ r, f = .report r → x.Tells t) x.before := by
  unfold opSload
  simp only [wp_bind, wp_onEvm, Evm.peek1, wp_get]
  cases hst : x.before.evm.stack with
  | nil =>
    refine (wp_error _).2 fun _ _ => .of_tidy (.refl _) fun h => ?_
    rcases h.warms with ⟨-, hhas⟩ | ⟨hop', -⟩
    · simp [Step.has, hst] at hhas
    · rw [hop] at hop'
      cases hop'
  | cons key rest =>
    have hkey : x.operand 0 = key := by simp [Step.operand, hst]
    subst hkey
    have hwarms : x.Warms := .inl ⟨hop, by simp [Step.has, hst]⟩
    simp only [wp_pure, warmSlot, wp_bind, wp_get, wp_ite, Ext.isStorageWarm, decide_eq_true_eq, wp_onExt,
      Ext.warmStorage, wp_modify]
    refine ⟨fun hwarm => ?_, fun hcold => ?_⟩
    · have hnot : ¬x.LeavesWarm := fun h => h.cold hwarm
      have hload : Keeps (within (Effect.isTidy ·)) (_ : M T StepResult) :=
        keeps_loadSlot x.scope (fun _ _ h => h) (x.operand 0) true 100 fun _ => rfl
      exact wp_mono (Keeps.tidying (keeps_charged hload) x.before) (fun _ _ h => .of_tidy h hnot)
        fun _ _ h r hr => .of_tidy (h r hr) hnot
    · have hleaves : ¬x.Affords → x.LeavesWarm := fun h => ⟨hwarms, hcold, h⟩
      have hslot : (x.this, x.operand 0) ∈ insert (x.scope.this, x.operand 0) x.before.ext.accessedStorage :=
        Finset.mem_insert_self _ _
      rw [if_neg (by decide), wp_charged]
      refine ⟨fun hshort => .of_strands ⟨rfl, hslot⟩ (hleaves fun h => ?_), fun hgas => ?_⟩
      · unfold Step.Affords at h
        split at h
        · exact h
        · rw [if_pos hop] at h
          exact absurd hshort (not_lt.2 h)
      · rw [wp_bind, wp_pop]
        refine ⟨fun word rest' hrest => ?_, fun hnil => ?_⟩
        · obtain rfl : rest = rest' := (List.cons.inj (hst.symm.trans hrest)).2
          rw [wp_bind]
          refine wp_get_warmed (s := { x.before with evm.stack := rest }) (fun val e hg => ?_)
            fun f e u hg ht hu r _ => .of_strands ⟨ht, hu ▸ hslot⟩ (hleaves (x.not_affords hg))
          have hroom : rest.length < stackLimit := by
            simp only [hst, List.length_cons] at hs
            omega
          rw [wp_bind, wp_push]
          refine ⟨fun _ => ?_, fun hfull => absurd hroom (not_lt.2 hfull)⟩
          simp only [wp_bind, wp_touch, wp_emit, wp_next]
          have hsame : e.accessedAddresses = x.before.ext.accessedAddresses := congrArg Prod.fst (Ext.accesses_get hg)
          exact .of_tidy (.slot hcold (fun _ => rfl) rfl (Prod.ext hsame rfl))
            fun h => h.stops ((x.affords_sload hg hop).2 hgas)
        · rw [show _ = x.before.evm.stack from rfl, hst] at hnil
          cases hnil

theorem wp_opSstore_tells (hop : x.op = .sstore) :
    wp (opSstore x.scope x.instruction) (fun _ => x.Tells) (fun f t => ∀ r, f = .report r → x.Tells t) x.before := by
  have hearly : ∀ t : Machine T, t.trail = x.before.trail → ¬x.Warms → x.Tells t := fun t ht hnot =>
    .of_tidy (ht ▸ .refl _) fun h => hnot h.warms
  have hwarms : x.Warms → x.has 2 ∧ x.scope.ctx.isStaticCall = false := fun h => by
    rcases h with ⟨hop', -⟩ | ⟨-, h⟩
    · rw [hop] at hop'
      cases hop'
    · exact h
  unfold opSstore
  rw [wp_ite]
  refine ⟨fun hstatic => (wp_refuse _).2 fun _ _ => hearly _ rfl fun h => ?_, fun hstatic => ?_⟩
  · rw [(hwarms h).2] at hstatic
    cases hstatic
  rw [wp_bind, wp_pop]
  refine ⟨fun key rest hst => ?_, fun hnil _ _ => hearly _ rfl fun h => ?_⟩
  · rw [wp_bind, wp_pop]
    refine ⟨fun new rest' hrest => ?_, fun hnil _ _ => hearly _ rfl fun h => ?_⟩
    · have hst : x.before.evm.stack = key :: new :: rest' := by rw [hst, show rest = new :: rest' from hrest]
      have hkey : x.operand 0 = key := by simp [Step.operand, hst]
      have hnew : x.operand 1 = new := by simp [Step.operand, hst]
      subst hkey hnew
      have hwarms : x.Warms := .inr ⟨hop, by simp [Step.has, hst], by simpa using hstatic⟩
      simp only [wp_pure, warmSlot, wp_bind, wp_get, wp_ite, Ext.isStorageWarm, decide_eq_true_eq, wp_onExt,
        Ext.warmStorage, wp_modify]
      refine ⟨fun hwarm => ?_, fun hcold => ?_⟩
      · have hnot : ¬x.LeavesWarm := fun h => h.cold hwarm
        have hstore : Keeps (within (Effect.isTidy ·)) (_ : M T StepResult) :=
          keeps_storeSlot x.scope x.instruction (fun _ _ h => h) (x.operand 0) (x.operand 1) true fun _ => rfl
        exact wp_mono (Keeps.tidying hstore _) (fun _ _ h => .of_tidy h hnot) fun _ _ h r hr => .of_tidy (h r hr) hnot
      · have hleaves : ¬x.Affords → x.LeavesWarm := fun h => ⟨hwarms, hcold, h⟩
        have hslot : (x.this, x.operand 0) ∈ insert (x.scope.this, x.operand 0) x.before.ext.accessedStorage :=
          Finset.mem_insert_self _ _
        unfold storeSlot
        rw [wp_bind]
        refine wp_get_warmed (s := { x.before with evm.stack := rest' }) (fun val e hg => ?_)
          fun f e u hg ht hu r _ => .of_strands ⟨ht, hu ▸ hslot⟩ (hleaves (x.not_affords hg))
        have haffords := x.affords_sstore hg hop
        simp only [wp_bind, wp_get, wp_ite, wp_emit, wp_pure, wp_orError_put, wp_modify, wp_touch, wp_next]
        refine ⟨fun hshort => .of_strands ⟨rfl, hslot⟩ (hleaves fun h => ?_), fun hrefund =>
          ⟨fun hshort => .of_strands ⟨rfl, hslot⟩ (hleaves fun h => ?_), fun hcost => ?_⟩⟩
        · exact absurd (haffords.1 h).1 (not_le.2 hshort)
        · exact absurd (haffords.1 h).2 (not_le.2 hshort)
        · have hsame : e.accessedAddresses = x.before.ext.accessedAddresses := congrArg Prod.fst (Ext.accesses_get hg)
          exact .of_tidy (.slot hcold (fun _ => rfl) rfl (Prod.ext hsame rfl))
            fun h => h.stops (haffords.2 ⟨not_lt.1 hrefund, not_lt.1 hcost⟩)
    · have hshort := (hwarms h).1
      rw [Step.has, hst, show rest = [] from hnil] at hshort
      simp at hshort
  · have hshort := (hwarms h).1
    rw [Step.has, hnil] at hshort
    simp at hshort

/-! ## Frames -/

omit [EventTracer T] in
theorem Moved.aside {src dst : Address} {v : Word} {may : Prop} {t u : Trail} (h : Moved src dst v may t u) :
    u.ext.accesses = t.ext.accesses ∧ ∃ ts, u.touches = t.touches ++ ts ∧ ∀ τ ∈ ts, ∀ c, undoAccess τ c = c := by
  cases h with
  | moved _ _ _ _ h =>
    cases h with
    | transfer =>
      refine ⟨(Ext.accesses_mutate _ _ _).trans (Ext.accesses_mutate _ _ _), _, rfl, fun τ hτ c => ?_⟩
      rcases List.mem_pair.1 hτ with rfl | rfl <;> rfl
  | still => exact ⟨rfl, [], (List.append_nil _).symm, fun _ h => (List.not_mem_nil h).elim⟩

omit [EventTracer T] in
/-- The end of an inner frame that was tidy is tidy for its caller; dropped, it takes the sets
    back to what the frame found. -/
theorem Closes.tidy {inner : Inner T} {pending : Pending} {opened : Machine T} {r : Ended T} {u : Trail}
    (h : Closes x inner pending r.output { opened.trail with ext := r.machine.ext } u)
    (hinner : Tidy ⟨opened.ext, [], []⟩ r.machine.trail) :
    Tidy opened.trail u ∧ (pending.keeps r.output = false → u.ext.accesses = opened.ext.accesses) := by
  obtain ⟨ts, hts, hacc⟩ := hinner
  have hts : r.machine.evm.touches = ts := hts
  have hacc : Accumulates undoAccess ts opened.ext.accesses r.machine.ext.accesses := hacc
  unfold Closes at h
  split at h
  · next hk =>
    refine ⟨?_, fun hdropped => by rw [hk] at hdropped; cases hdropped⟩
    split at h
    · rw [h]
      exact ⟨ts, congrArg _ hts, hacc⟩
    · obtain ⟨mid, ⟨mid', hm, rfl⟩, rfl⟩ := h
      obtain ⟨hview, pre, hpre, hidle⟩ := hm.aside
      have hview : mid'.ext.accesses = r.machine.ext.accesses := hview.trans (Ext.accesses_mutate _ _ _)
      have hcreate : ∀ τ ∈ pre ++ [.create inner.scope.ctx.created x.value 1 r.output.ret
          (Crypto.keccak256 r.output.ret)], ∀ c, undoAccess τ c = c := by
        intro τ hτ c
        rcases List.mem_append.1 hτ with hτ | hτ
        · exact hidle τ hτ c
        · rw [List.mem_singleton.1 hτ]
          rfl
      have hstill : Accumulates undoAccess _ opened.ext.accesses opened.ext.accesses :=
        ⟨.idle fun τ hτ => hcreate τ hτ _, le_rfl, fun τ hτ => hcreate τ hτ _⟩
      refine ⟨_, ?_, hview ▸ hstill.append downward_undoAccess hacc⟩
      simp only [Trail.merge, Ended.output, hpre, hts, List.append_assoc]
  · have hback : u.ext.accesses = opened.ext.accesses := by
      have hundone : u.ext.accesses = _ := accessCell.reverted h.ext
      rw [hundone]
      exact hts ▸ hacc.restores
    refine ⟨⟨_, h.touches, ?_⟩, fun _ => hback⟩
    rw [hback]
    exact hacc.remains (hts ▸ List.filter_subset_self _)

omit [EventTracer T] in
theorem Closed.tidy {inner : Inner T} {pending : Pending} {opened m u : Machine T} {ret : Bytes}
    (h : Closed x inner pending ⟨m.exe.tracer, ret, m.evm⟩ { opened with ext := m.ext } u)
    (hinner : Tidy ⟨opened.ext, [], []⟩ m.trail) :
    Tidy opened.trail u.trail ∧
      (pending.keeps (⟨m.exe.tracer, ret, m.evm⟩ : Output T) = false → u.ext.accesses = opened.ext.accesses) :=
  Closes.tidy (r := ⟨ret, m⟩) h.closes hinner

variable {exec : Exec T} {hist : Scope → Machine T → History T}

/-- The frame of a step is tidy in every run of `exec` that comes back. -/
def Step.OpensTidy (exec : Exec T) (x : Step T) : Prop :=
  ∀ inner pending opened ret m, openedFrame x.scope x.instruction x.before = some (inner, pending, opened) →
    exec inner.scope (inner.machine opened.ext) = .ok ret m → Tidy ⟨opened.ext, [], []⟩ m.trail

theorem wp_callFrame_tidy (tracks : Tracks exec hist) (hcall : x.op.isCall)
    (hg : guardStatic x.scope x.instruction x.before = .ok ⟨⟩ x.before) (hs : x.before.evm.stack.length ≤ stackLimit)
    (hinner : x.OpensTidy exec) :
    wp (callFrame exec x.scope x.instruction) (fun _ t => Tidy x.before.trail t.trail)
      (fun f t => ∀ r, f = .report r → Tidy x.before.trail t.trail) x.before := by
  unfold callFrame
  refine (tidying_openFrame x.scope x.instruction).step (fun _ _ h => h) fun o t ho ht => ?_
  have hopened := openedFrame_ok hcall hg ho
  cases o with
  | done gas => exact (wp_pure _).2 ht
  | frame inner pending =>
    have hopens := opens_of_openedFrame hopened
    rw [wp_bind, wp_runInner]
    refine wp_def.2 ⟨fun ret i hrun => ?_, fun f i hrun r hr => absurd hr ((tracks.silent _).error hrun r)⟩
    have hext : t.ext.Extends i.ext := tracks.extends hopens.fresh hrun
    exact wp_mono (wp_closeFrame hopens hs rfl hext)
      (fun _ u hu => ht.trans (hu.tidy (hinner _ _ _ _ _ hopened hrun)).1) fun f _ h r hr => absurd hr (h r)

/-! ## Turns -/

theorem wp_executeInstruction_tells (tracks : Tracks exec hist) (hs : x.before.evm.stack.length ≤ stackLimit)
    (hinner : x.OpensTidy exec) :
    wp (executeInstruction exec x.scope x.instruction) (fun _ => x.Tells) (fun f t => ∀ r, f = .report r → x.Tells t)
      x.before := by
  have hother : x.op ≠ .sload → x.op ≠ .sstore → ∀ {t : Machine T}, Tidy x.before.trail t.trail → x.Tells t :=
    fun hload hstore _ ht => .of_tidy ht fun h => h.warms.elim (fun h => hload h.1) fun h => hstore h.1
  by_cases hcall : x.op.isCall = true
  · have htells : ∀ {t : Machine T}, Tidy x.before.trail t.trail → x.Tells t := by
      refine hother ?_ ?_ <;>
      · intro hop
        rw [hop] at hcall
        cases hcall
    rw [executeInstruction_call hcall]
    refine wp_opCall_of (fun r _ _ _ => htells (.refl _)) fun hg => ?_
    exact wp_mono (wp_callFrame_tidy tracks hcall hg hs hinner) (fun _ t ht => htells ht)
      fun f t h => ⟨fun r hr => htells (h r hr), fun r hr => htells (h r hr)⟩
  · have hcall : x.op.isCall = false := by simpa using hcall
    by_cases hload : x.op = .sload
    · rw [show executeInstruction exec x.scope x.instruction = opSload x.scope by
        simp only [executeInstruction, show x.instruction.op = .sload from hload]]
      exact wp_opSload_tells hs hload
    by_cases hstore : x.op = .sstore
    · rw [show executeInstruction exec x.scope x.instruction = opSstore x.scope x.instruction by
        simp only [executeInstruction, show x.instruction.op = .sstore from hstore]]
      exact wp_opSstore_tells hstore
    by_cases he : x.op.ends = true
    · refine wp_mono (ends_instruction he x.before) (fun r t h => hother hload hstore ?_)
        fun f t h r hr => hother hload hstore ((h r hr).trail.mono fun _ => False.elim).tidy
      have htrail : t.trail = x.before.trail := h.trail
      exact htrail ▸ .refl _
    · refine wp_mono (instruction_within_of (P := (Effect.isTidy ·)) exec x hcall (by simpa using he) fun e _ h => ?_)
        (fun r t h => hother hload hstore h.trail.tidy) fun f t h r hr => hother hload hstore (h r hr).trail.tidy
      exact (h.resolve_left hload).resolve_left hstore

theorem wp_executeStep_tells (tracks : Tracks exec hist) (hs : x.before.evm.stack.length ≤ stackLimit)
    (hinner : x.OpensTidy exec) :
    wp (executeStep exec x.scope x.instruction) (fun _ => x.Tells) (fun _ _ => True) x.before := by
  have hsettle : ∀ (r : Option StepResult) (t : Machine T), x.Tells t →
      wp (settleStep x.scope x.instruction r) (fun _ => x.Tells) (fun _ _ => True) t := by
    intro r t ht
    refine (settling_settleStep _ _ _).run (fun _ _ _ => trivial) fun o u _ hu => ?_
    unfold Step.Tells
    rw [hu.trail]
    exact ht
  unfold executeStep
  rw [wp_bind, wp_attempt]
  exact wp_mono (wp_executeInstruction_tells tracks hs hinner) (fun r t h => hsettle _ _ h)
    fun f t h => ⟨fun r hr => hsettle _ _ (h r hr), fun _ => trivial⟩

/-! ## Runs -/

/-- No SLOAD or SSTORE of the history leaves its slot warm. -/
def History.LeavesNoneWarm (h : History T) : Prop := ∀ x ∈ h.steps, ¬x.LeavesWarm

theorem tidying_enterFrame (sc : Scope) : Keeps tidying (enterFrame sc : M T Unit) :=
  (Keeps.tidying (keeps_emit _ _ _)).bind fun _ => .ite (fun _ => .pure _) fun _ => Keeps.tidying (keeps_warmTouch rfl)

theorem frame_tidy {loop : Exec T} {sc : Scope} {s t : Machine T} {ret : Bytes}
    (h : ∀ u, enterFrame sc s = .ok ⟨⟩ u → sc.ctx.depth ≤ callDepthLimit → loop sc u = .ok ret t → Tidy u.trail t.trail)
    (hrun : frameWith loop sc s = .ok ret t) : Tidy s.trail t.trail := by
  obtain ⟨_, u, he, hrest⟩ := bind_ok hrun
  have hu : Tidy s.trail u.trail := (tidying_enterFrame sc).ok he
  split at hrest
  · cases hrest
    exact hu
  · next hdepth => exact hu.trans (h u he (not_lt.1 hdepth) hrest)

/-- A run that leaves no slot warm is tidy from each of its turns on: by induction on the
    bound, an inner frame before the turns after it. -/
theorem loop_tidy {sc₀ : Scope} {s₀ : Machine T} (hs₀ : Started s₀) (fuel : Nat) :
    ∀ (sc : Scope) (s : Machine T) (ret : Bytes) (t : Machine T), Reaches sc₀ s₀ sc s →
      (historyLoop fuel sc s).LeavesNoneWarm → executeLoop fuel sc s = .ok ret t → Tidy s.trail t.trail := by
  induction fuel with
  | zero => exact fun _ _ _ _ _ _ hrun => (nomatch hrun)
  | succ fuel ih =>
    intro sc s ret t hreach hnone hrun
    cases hi : currentInstruction sc s.evm with
    | none =>
      rw [executeLoop_done hi] at hrun
      rw [((settling_finishFrame sc).ok hrun).trail]
      exact .refl _
    | some instruction =>
      rw [historyLoop_step hi] at hnone
      have hinner : Step.OpensTidy (executeWithContext fuel) ⟨sc, instruction, s⟩ := by
        intro inner pending opened ret' m ho hrun'
        rw [← (opens_of_openedFrame ho).fresh.trail]
        refine frame_tidy (fun u he hdepth hloop => ?_) hrun'
        refine ih _ _ _ _ (.inner hreach hi ho he hdepth) (fun y hy => hnone y (callee_subset_node ho ?_)) hloop
        rwa [frameHistory_entered he hdepth]
      have hstep := wp_executeStep_tells (x := ⟨sc, instruction, s⟩) (tracks_run fuel) (hreach.sound hs₀).stack hinner
      rw [executeLoop_step hi] at hrun
      cases he : executeStep (executeWithContext fuel) sc instruction s with
      | error f u =>
        rw [he] at hrun
        cases hrun
      | ok o u =>
        have htells : Step.Tells ⟨sc, instruction, s⟩ u := (of_ok hstep he :)
        have hu : Tidy s.trail u.trail := htells.2 (hnone _ self_mem_node)
        rw [he] at hrun hnone
        cases o with
        | none => exact hu.trans (ih _ _ _ _ (.turn hreach hi he) (fun y hy => hnone y (rest_subset_node hy)) hrun)
        | some out =>
          cases hrun
          exact hu

theorem run_tidy {sc₀ : Scope} {s₀ t : Machine T} {fuel : Nat} {ret : Bytes} (hs₀ : Started s₀)
    (hnone : (history fuel sc₀ s₀).LeavesNoneWarm) (hrun : executeWithContext fuel sc₀ s₀ = .ok ret t) :
    Tidy s₀.trail t.trail := by
  refine frame_tidy (fun u he hdepth hloop => loop_tidy hs₀ fuel _ _ _ _ (.start he hdepth) (fun y hy => hnone y ?_) hloop)
    hrun
  unfold history
  rwa [frameHistory_entered he hdepth]

/-! ## What the caller finds -/

/-- The access sets of `t` are those of `opened`, and what is not in them is priced cold. -/
structure Forgets (opened t : Machine T) : Prop where
  addresses : t.ext.accessedAddresses = opened.ext.accessedAddresses
  slots : t.ext.accessedStorage = opened.ext.accessedStorage
  coldAddress : ∀ a, Precompiles.isPrecompile a = false → a ∉ opened.ext.accessedAddresses →
    ∃ u, addressAccessCost a t = .ok 2600 u
  coldSlot : ∀ sc key, (sc.this, key) ∉ opened.ext.accessedStorage → ∃ u, warmSlot sc key t = .ok false u

omit [Crypto] [EventTracer T] in
theorem Forgets.of_accesses {opened t : Machine T} (h : t.ext.accesses = opened.ext.accesses) : Forgets opened t := by
  have haddresses : t.ext.accessedAddresses = opened.ext.accessedAddresses := congrArg Prod.fst h
  have hslots : t.ext.accessedStorage = opened.ext.accessedStorage := congrArg Prod.snd h
  refine ⟨haddresses, hslots, fun a hp ha => ?_, fun sc key hkey => ?_⟩
  · have hcold : wp (addressAccessCost a) (fun cost _ => cost = 2600) (fun _ _ => False) t := by
      rw [← haddresses] at ha
      simp [addressAccessCost, hp, Ext.warmAddress, Ext.isAddressWarm, ha]
    obtain ⟨_, u, hu, rfl⟩ := exists_ok hcold
    exact ⟨u, hu⟩
  · have hcold : wp (warmSlot sc key) (fun warm _ => warm = false) (fun _ _ => False) t := by
      rw [← hslots] at hkey
      simp [warmSlot, Ext.isStorageWarm, Ext.warmStorage, hkey]
    obtain ⟨_, u, hu, rfl⟩ := exists_ok hcold
    exact ⟨u, hu⟩

/-- The undo of an inner frame takes the access sets back: when its frame did not stay, and no
    SLOAD or SSTORE in it or below it left its slot warm, the caller goes on with the sets the
    frame started on, and what was not in them is cold again. -/
theorem access_rollback {sc₀ sc : Scope} {s₀ s opened m t : Machine T} {instruction : Instruction} {inner : Inner T}
    {pending : Pending} {fuel : Nat} {ret : Bytes} {o : Option Bytes} (hs₀ : Unused s₀) (h : Reaches sc₀ s₀ sc s)
    (ho : openedFrame sc instruction s = some (inner, pending, opened))
    (hrun : executeWithContext fuel inner.scope (inner.machine opened.ext) = .ok ret m)
    (hdropped : pending.keeps (⟨m.exe.tracer, ret, m.evm⟩ : Output T) = false)
    (hstep : executeStep (executeWithContext fuel) sc instruction s = .ok o t)
    (hnone : (history fuel inner.scope (inner.machine opened.ext)).LeavesNoneWarm) : Forgets opened t := by
  have hopens := opens_of_openedFrame (x := ⟨sc, instruction, s⟩) ho
  obtain ⟨hstarted, -⟩ := (h.lives hs₀).opened ho
  have hstack : s.evm.stack.length ≤ stackLimit := by
    rcases h.lives hs₀ with hs | hs
    · exact hs.stack
    · rw [Overdrawn.unopened (x := ⟨sc, instruction, s⟩) hs] at ho
      cases ho
  have hinner : Tidy ⟨opened.ext, [], []⟩ m.trail := by
    rw [← hopens.fresh.trail]
    exact run_tidy hstarted hnone hrun
  obtain ⟨w, henters, hfollows⟩ := hopens.follows hrun
  have hclosed := wp_executeInstruction_closed (x := ⟨sc, instruction, s⟩) hstack ho hrun
    (henters.extends.trans hfollows.extends)
  refine .of_accesses ?_
  have hback : wp (executeStep (executeWithContext fuel) sc instruction) (fun _ t => t.ext.accesses = opened.ext.accesses)
      (fun _ _ => True) s := by
    unfold executeStep
    rw [wp_bind, wp_attempt]
    refine wp_mono hclosed (fun r u hu => ?_) fun f u hf => ⟨fun r hr => absurd hr (hf r), fun _ => trivial⟩
    obtain ⟨cost, v, -, rfl, hv⟩ := hu
    have hv : v.ext.accesses = opened.ext.accesses := (hv.tidy hinner).2 hdropped
    refine (settling_settleStep _ _ _).run (fun _ _ _ => trivial) fun o w _ hw => ?_
    have hext : w.ext = v.ext := congrArg Trail.ext hw.trail
    rw [hext, hv]
  exact (of_ok hback hstep :)

end

namespace Sample

/-- The step opens a frame that is dropped; `p` is about the caller before the frame, the frame
    at its end, its history and the caller after the step. -/
def drops (fuel : Nat) (x : Step NoopTracer)
    (p : Machine NoopTracer → Machine NoopTracer → History NoopTracer → Machine NoopTracer → Bool) : Bool :=
  match openedFrame x.scope x.instruction x.before with
  | none => false
  | some (inner, pending, opened) =>
    returns (executeWithContext fuel inner.scope (inner.machine opened.ext)) fun ret m =>
      !pending.keeps (⟨m.exe.tracer, ret, m.evm⟩ : Output NoopTracer) &&
      returns (executeStep (executeWithContext fuel) x.scope x.instruction x.before) fun _ t =>
        p opened m (history fuel inner.scope (inner.machine opened.ext)) t

theorem of_drops {fuel : Nat} {x : Step NoopTracer}
    {p : Machine NoopTracer → Machine NoopTracer → History NoopTracer → Machine NoopTracer → Bool}
    (h : drops fuel x p = true) : ∃ inner pending opened ret m o t,
      openedFrame x.scope x.instruction x.before = some (inner, pending, opened) ∧
      executeWithContext fuel inner.scope (inner.machine opened.ext) = .ok ret m ∧
      pending.keeps (⟨m.exe.tracer, ret, m.evm⟩ : Output NoopTracer) = false ∧
      executeStep (executeWithContext fuel) x.scope x.instruction x.before = .ok o t ∧
      p opened m (history fuel inner.scope (inner.machine opened.ext)) t = true := by
  unfold drops at h
  split at h
  · cases h
  · next inner pending opened ho =>
    obtain ⟨ret, m, hrun, h⟩ := of_returns h
    obtain ⟨hdropped, h⟩ := (Bool.and_eq_true _ _).mp h
    obtain ⟨o, t, hstep, h⟩ := of_returns h
    exact ⟨inner, pending, opened, ret, m, o, t, ho, hrun, by simpa using hdropped, hstep, h⟩

/-- Account 0xaa calls account 0xbb on 1000 gas. -/
def miser : Bytes := [0x5f, 0x5f, 0x5f, 0x5f, 0x5f, 0x60, 0xbb, 0x61, 0x03, 0xe8, 0xf1]

/-- `caller` calls an account that loads its slot 0 and reverts. -/
def loader : Machine NoopTracer := machine [(0xaa, 0, caller), (0xbb, 0, [0x5f, 0x54, 0x5f, 0x5f, 0xfd])]

end Sample

open Sample in
theorem access_rollback_loader : ∃ x ∈ (history 20 (scope caller) loader).steps, ∃ inner pending opened ret m o t,
    openedFrame x.scope x.instruction x.before = some (inner, pending, opened) ∧
    executeWithContext 20 inner.scope (inner.machine opened.ext) = .ok ret m ∧
    executeStep (executeWithContext 20) x.scope x.instruction x.before = .ok o t ∧
    (0xbb, 0) ∈ m.ext.accessedStorage ∧ Forgets opened t := by
  have h : ((history 20 (scope caller) loader).steps.find? fun x => drops 20 x fun _ m h _ =>
      decide ((0xbb, 0) ∈ m.ext.accessedStorage) && h.steps.all fun y => decide (¬y.LeavesWarm)).isSome = true := by
    decide +kernel
  obtain ⟨x, hx⟩ := Option.isSome_iff_exists.1 h
  have hmem := List.mem_of_find?_eq_some hx
  have hdrops := List.find?_some hx
  obtain ⟨inner, pending, opened, ret, m, o, t, ho, hrun, hdropped, hstep, hp⟩ := of_drops hdrops
  obtain ⟨hwarm, hnone⟩ := (Bool.and_eq_true _ _).mp hp
  refine ⟨x, hmem, inner, pending, opened, ret, m, o, t, ho, hrun, hstep, by simpa using hwarm, ?_⟩
  have hunused : Unused loader := ⟨rfl, rfl, rfl, rfl, rfl⟩
  refine access_rollback hunused (reaches_history hmem).1 ho hrun hdropped hstep fun y hy => ?_
  simpa using List.all_eq_true.1 hnone y hy

open Sample in
/-- A frame that runs out of gas in the SLOAD of a cold slot: after the call the slot is warm. -/
theorem access_rollback_fails :
    ∃ x ∈ (history 20 (scope miser) (machine [(0xaa, 0, miser), (0xbb, 0, [0x5f, 0x54])])).steps,
    ∃ inner pending opened ret m o t,
      openedFrame x.scope x.instruction x.before = some (inner, pending, opened) ∧
      executeWithContext 20 inner.scope (inner.machine opened.ext) = .ok ret m ∧
      pending.keeps (⟨m.exe.tracer, ret, m.evm⟩ : Output NoopTracer) = false ∧
      executeStep (executeWithContext 20) x.scope x.instruction x.before = .ok o t ∧
      (0xbb, 0) ∉ opened.ext.accessedStorage ∧ (0xbb, 0) ∈ t.ext.accessedStorage := by
  have h : ((history 20 (scope miser) (machine [(0xaa, 0, miser), (0xbb, 0, [0x5f, 0x54])])).steps.find? fun x =>
      drops 20 x fun opened _ _ t =>
        decide ((0xbb, 0) ∉ opened.ext.accessedStorage ∧ (0xbb, 0) ∈ t.ext.accessedStorage)).isSome = true := by
    decide +kernel
  obtain ⟨x, hx⟩ := Option.isSome_iff_exists.1 h
  have hdrops := List.find?_some hx
  obtain ⟨inner, pending, opened, ret, m, o, t, ho, hrun, hdropped, hstep, hp⟩ := of_drops hdrops
  exact ⟨x, List.mem_of_find?_eq_some hx, inner, pending, opened, ret, m, o, t, ho, hrun, hdropped, hstep,
    by simpa using hp⟩

end Solenoid
