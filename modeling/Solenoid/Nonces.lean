/-
  Solenoid.Nonces — the sender's nonce over a whole transaction.

  Execute bumps it before the frame, a revert undoes that with the rest of the journal, and
  `apply` bumps it again; a creation bumps it at the end. In between nothing else reaches
  it: code is only ever given to new accounts, so a sender without code keeps none
  (`Untouched`, along a run by `carried_untouched`), and so it never creates.
  - `sender_nonce`: after a transaction that comes back the nonce is one more.
-/
import Solenoid.Bookkeeping
import Solenoid.Contexts

namespace Solenoid

open Hoare UndoLog

section

variable {T : Type} {C : Type} [Crypto]

/-! ## A field that nothing touches -/

namespace Field

def nonce : Field Word where
  get x := x.nonce
  undo a
    | .setNonce b val _, n => if b = a then BitVec.ofNat 256 val else n
    | .create b .., n => if b = a then 0 else n
    | _, n => n
  lift a τ x := by
    cases τ with
    | setValue b | setNonce b | create b => simp only [AccountTouch.restore]; split <;> rfl
    | _ => rfl
  storage _ _ := rfl
  blank _ := rfl

def code : Field Bytes where
  get x := x.code.1
  undo a
    | .create b .., c => if b = a then [] else c
    | _, c => c
  lift a τ x := by
    cases τ with
    | setValue b | setNonce b | create b => simp only [AccountTouch.restore]; split <;> rfl
    | _ => rfl
  storage _ _ := rfl
  blank _ := rfl

end Field

/-- From `t` to `u` the field of `a`, which is loaded, stays, and no touch that was appended
    would undo it. -/
structure Untouched (f : Field C) (a : Address) (t u : Trail) : Prop where
  loaded : (u.ext.state.lookup a).isSome
  same : f.get (u.ext.orDefault a) = f.get (t.ext.orDefault a)
  idle : ∃ ts, u.touches = t.touches ++ ts ∧ ∀ τ ∈ ts, ∀ x, f.get (τ.restore a x) = f.get x

namespace Untouched

variable {f : Field C} {a : Address} {t u v : Trail}

omit [Crypto] in
theorem refl (h : (t.ext.state.lookup a).isSome) : Untouched f a t t :=
  ⟨h, rfl, [], (List.append_nil _).symm, fun _ h => (List.not_mem_nil h).elim⟩

omit [Crypto] in
theorem trans (h : Untouched f a t u) (h' : Untouched f a u v) : Untouched f a t v := by
  obtain ⟨ts, hts, hidle⟩ := h.idle
  obtain ⟨ts', hts', hidle'⟩ := h'.idle
  refine ⟨h'.loaded, h'.same.trans h.same, ts ++ ts', by rw [hts', hts, List.append_assoc], fun τ hτ => ?_⟩
  exact (List.mem_append.1 hτ).elim (hidle τ) (hidle' τ)

omit [Crypto] in
/-- A change aside of the field, with the touches that go with it. -/
theorem of_same {ts : List AccountTouch} (hl : (t.ext.state.lookup a).isSome) (he : t.ext.Extends u.ext)
    (hs : f.get (u.ext.orDefault a) = f.get (t.ext.orDefault a)) (ht : u.touches = t.touches ++ ts)
    (hts : ∀ τ ∈ ts, ∀ x, f.get (τ.restore a x) = f.get x) : Untouched f a t u := ⟨he.loaded a hl, hs, ts, ht, hts⟩

end Untouched

omit [Crypto] in
theorem Field.get_mutate (f : Field C) {a b : Address} {g : Account → Account} (e : Ext)
    (hg : b = a → ∀ x, f.get (g x) = f.get x) : f.get ((e.mutate b g).orDefault a) = f.get (e.orDefault a) := by
  cases hl : e.state.lookup b with
  | none => rw [Ext.mutate, hl]
  | some account =>
    rw [Ext.orDefault_mutate g (by rw [hl]; rfl)]
    split
    · next h =>
      subst h
      exact hg rfl _
    · rfl

omit [Crypto] in
/-- A field that shows no balance is undone by no touch of one. -/
theorem Field.restore_setValue (f : Field C) (hv : Moneyless f.get) (a b : Address) (val new : Word) (x : Account) :
    f.get ((AccountTouch.setValue b val new).restore a x) = f.get x := by
  simp only [AccountTouch.restore]
  split
  · exact hv x val
  · rfl

theorem Act.untouched {f : Field C} {a : Address} (hv : Moneyless f.get) {e : Effect} {t u : Trail} (h : Act e t u)
    (hl : (t.ext.state.lookup a).isSome) (hbump : e = .bump a → ∀ (x : Account) n, f.get { x with nonce := n } = f.get x) :
    Untouched f a t u := by
  have he := h.extends
  obtain ⟨account, hla⟩ := Option.isSome_iff_exists.1 hl
  have hpull : ∀ {b : Address} {x : Account} {e' : Ext}, Ext.pull b t.ext = .ok x e' → e'.orDefault a = t.ext.orDefault a :=
    fun hp => by rw [Ext.orDefault_of_lookup hla, Ext.orDefault_of_lookup (Ext.pull_lookup hp hla)]
  have hget : ∀ {b : Address} {key val : Word} {e' : Ext}, Ext.get b key t.ext = .ok val e' →
      f.get (e'.orDefault a) = f.get (t.ext.orDefault a) := by
    intro b key val e' hg
    obtain ⟨x, e₁, hp, hg⟩ := Ext.got hg
    obtain ⟨s, hs⟩ := hg.orDefault (Ext.orDefault_of_lookup (Ext.pulled hp).lookup) a
    rw [hs, f.storage, hpull hp]
  have hnone : ∀ τ ∈ ([] : List AccountTouch), ∀ x, f.get (τ.restore a x) = f.get x := fun _ h => (List.not_mem_nil h).elim
  have hone : ∀ {τ : AccountTouch}, (∀ x, f.get (τ.restore a x) = f.get x) →
      ∀ τ' ∈ [τ], ∀ x, f.get (τ'.restore a x) = f.get x := fun hτ τ' hτ' => by rwa [List.mem_singleton.1 hτ']
  cases h with
  | warmAddress => exact .of_same hl he rfl rfl (hone fun _ => rfl)
  | warmStorage | log | mark => exact .of_same hl he rfl (List.append_nil _).symm hnone
  | load h => exact .of_same hl he (by rw [hpull h]) (List.append_nil _).symm hnone
  | fetch h => exact .of_same hl he (hget h) (List.append_nil _).symm hnone
  | @note _ τ hτ => exact .of_same hl he rfl rfl (hone fun _ => by cases τ <;> first | rfl | cases hτ)
  | @store _ b key val new isWarm e' hg =>
    refine .of_same hl he ?_ rfl (hone fun _ => rfl)
    show f.get ((e'.insertSlot b key new).orDefault a) = _
    rw [Ext.orDefault_insertSlot]
    split
    · next hab => rw [f.storage, ← hab, hget hg]
    · exact hget hg
  | storeTransient => exact .of_same hl he rfl rfl (hone fun _ => rfl)
  | transfer =>
    refine .of_same hl he ?_ rfl fun τ hτ x => ?_
    · exact (f.get_mutate _ fun _ x => hv x _).trans (f.get_mutate _ fun _ x => hv x _)
    · rcases List.mem_pair.1 hτ with rfl | rfl <;> exact f.restore_setValue hv a _ _ _ x
  | @bump _ addr x ha =>
    refine .of_same hl he (f.get_mutate _ fun hb y => hbump (by rw [hb]) y _) rfl (hone fun y => ?_)
    simp only [AccountTouch.restore]
    split
    · next hb => exact hbump (by rw [hb]) y _
    · rfl
  | openAccount => exact .of_same hl he (by rw [Ext.orDefault_open]) (List.append_nil _).symm hnone
  | destroy =>
    refine .of_same hl he ?_ (List.append_nil _).symm hnone
    exact (f.get_mutate _ fun _ x => hv x _).trans (f.get_mutate _ fun _ x => hv x _)

/-! ## Along a run -/

variable [EventTracer T] {f : Field C} {a : Address}

omit [EventTracer T] in
theorem Acts.untouched (hv : Moneyless f.get) {P : Effect → Prop} {t u : Trail} (h : Acts P t u)
    (hbump : P (.bump a) → ∀ (x : Account) n, f.get { x with nonce := n } = f.get x)
    (hl : (t.ext.state.lookup a).isSome) : Untouched f a t u :=
  h.keep (fun t u => (t.ext.state.lookup a).isSome → Untouched f a t u) (fun _ hl => .refl hl)
    (fun h h' hl => (h hl).trans (h' (h hl).loaded)) (fun he ha hl => ha.untouched hv hl fun heq => hbump (heq ▸ he)) hl

omit [EventTracer T] in
/-- Value that moves is aside of the field. -/
theorem Moved.untouched (hv : Moneyless f.get) {src dst : Address} {v : Word} {may : Prop} {t u : Trail}
    (h : Moved src dst v may t u) (hl : (t.ext.state.lookup a).isSome) : Untouched f a t u := by
  cases h with
  | moved _ _ _ _ h => exact h.untouched hv hl fun heq => (nomatch heq)
  | still => exact .refl hl

/-- A creation by `a` does not show in the field. -/
def Step.BumpsAside (f : Field C) (a : Address) (x : Step T) : Prop :=
  x.isCreation → x.this = a → ∀ (y : Account) n, f.get { y with nonce := n } = f.get y

omit [Crypto] [EventTracer T] in
theorem Step.BumpsAside.allows {x : Step T} (h : x.BumpsAside f a) (hbump : x.allows (.bump a)) :
    ∀ (y : Account) n, f.get { y with nonce := n } = f.get y := h hbump.1 hbump.2.2.2.symm

omit [EventTracer T] in
/-- The end of a frame, whether its code is installed, its accounts kept or undone. -/
theorem Closes.untouched (hv : Moneyless f.get) {x : Step T} {inner : Inner T} {pending : Pending} {opened : Machine T}
    {r : Ended T} {u : Trail} (hcreated : pending.created? ≠ some a) (hopens : Opens x inner pending opened)
    (h : Closes x inner pending r.output { opened.trail with ext := r.machine.ext } u)
    (hinner : Untouched f a ⟨opened.ext, [], []⟩ r.machine.trail) : Untouched f a opened.trail u := by
  obtain ⟨hloaded, hsame, ts, hts, hidle⟩ := hinner
  have hts : r.machine.evm.touches = ts := hts
  have hend : Untouched f a opened.trail { opened.trail with ext := r.machine.ext } :=
    ⟨hloaded, hsame, [], (List.append_nil _).symm, fun _ h => (List.not_mem_nil h).elim⟩
  unfold Closes at h
  split at h
  · split at h
    · rw [h]
      exact ⟨hloaded, hsame, r.machine.evm.touches, rfl, hts ▸ hidle⟩
    · next hop =>
      obtain ⟨mid, ⟨mid', hmoved, rfl⟩, rfl⟩ := h
      have hne : inner.scope.ctx.created ≠ a := by
        cases hopens with
        | message hop' => exact absurd hop' hop
        | creation _ _ h =>
          obtain ⟨baseCost, rfl⟩ := h.pending
          exact fun heq => hcreated (congrArg some heq)
      have htouches : mid'.touches ++ [.create inner.scope.ctx.created x.value 1 r.output.ret
          (Crypto.keccak256 r.output.ret)] ++ r.machine.evm.touches = mid'.touches ++ ([.create inner.scope.ctx.created
            x.value 1 r.output.ret (Crypto.keccak256 r.output.ret)] ++ r.machine.evm.touches) := List.append_assoc _ _ _
      refine hend.trans (Untouched.trans (u := { opened.trail with ext := _ }) ?_ ((hmoved.untouched hv ?_).trans ?_))
      · exact .of_same hloaded (Ext.extends_mutate _ _ _) (f.get_mutate _ fun heq => absurd heq hne)
          (List.append_nil _).symm fun _ h => (List.not_mem_nil h).elim
      · exact (Ext.extends_mutate _ _ _).loaded a hloaded
      · refine ⟨hmoved.extends.loaded a ((Ext.extends_mutate _ _ _).loaded a hloaded), rfl, _, htouches, fun τ hτ y => ?_⟩
        rcases List.mem_append.1 hτ with hτ | hτ
        · rw [List.mem_singleton.1 hτ]
          simp only [AccountTouch.restore, if_neg hne]
        · exact hidle τ (hts ▸ hτ) y
  · have hrollback := (f.cell a).reverted h.ext
    change f.get (u.ext.orDefault a) = rollback (f.undo a) r.machine.evm.touches
      (f.get (r.machine.ext.orDefault a)) at hrollback
    refine ⟨h.extends.loaded a hloaded, ?_, _, h.touches, fun τ hτ => hidle τ (hts ▸ List.mem_of_mem_filter hτ)⟩
    rw [hrollback, rollback_idle fun τ hτ => (f.lift a τ _).trans (hidle τ (hts ▸ hτ) _)]
    exact hsame

/-- Nothing reaches the field of an account that creates nothing and that nothing creates. -/
theorem carried_untouched (hv : Moneyless f.get) : Carried (T := T) (Step.BumpsAside f a)
    (fun _ _ pending _ _ => pending.created? ≠ some a)
    fun t u => (t.ext.state.lookup a).isSome → Untouched f a t u where
  refl _ hl := .refl hl
  trans h h' hl := (h hl).trans (h' (h hl).loaded)
  read he ha hl := ha.untouched hv hl fun heq => by rw [heq] at he; cases he
  step exec x hcall hx := wp_mono (wp_executeInstruction_acts exec x hcall)
    (fun _ _ hacts => hacts.untouched hv hx.allows) fun _ _ hacts r hr => (hacts r hr).untouched hv hx.allows
  opens hx ho := (opens_of_openedFrame ho).acts.untouched hv hx.allows
  reported hx _ hfailed := hfailed.trail.untouched hv fun h => hx.allows h.1
  closes hn hopens hcloses hinner hl := hcloses.untouched hv hn hopens (hinner hl)

/-! ## An account without code -/

omit [Crypto] [EventTracer T] in
/-- The account is loaded and has no code. -/
def Ext.Codeless (e : Ext) (a : Address) : Prop := (e.state.lookup a).isSome ∧ (e.orDefault a).code.1 = []

omit [Crypto] [EventTracer T] in
theorem Untouched.codeless {t u : Trail} (h : Untouched Field.code a t u) (hc : t.ext.Codeless a) : u.ext.Codeless a :=
  ⟨h.loaded, h.same.trans hc.2⟩

/-- The accounts that a run opens for its creations. -/
def Derives (sc₀ : Scope) (s₀ : Machine T) (a : Address) : Prop :=
  ∃ sc s instruction inner pending opened, Reaches sc₀ s₀ sc s ∧ currentInstruction sc s.evm = some instruction ∧
    openedFrame sc instruction s = some (inner, pending, opened) ∧ pending.created? = some a

omit [Crypto] [EventTracer T] in
theorem currentInstruction_mem {sc : Scope} {evm : Evm} {instruction : Instruction}
    (h : currentInstruction sc evm = some instruction) : instruction ∈ sc.code.instructions := by
  unfold currentInstruction at h
  split at h
  · cases h
  · exact List.mem_of_getElem? h

theorem closed_opens {sc : Scope} (h : ∀ i ∈ sc.code.instructions, i.op.isCall = false) {s : Machine T}
    {instruction : Instruction} {inner : Inner T} {pending : Pending} {opened : Machine T}
    (hi : currentInstruction sc s.evm = some instruction) :
      openedFrame sc instruction s ≠ some (inner, pending, opened) := by
  intro ho
  have hcall : instruction.op.isCall = true := (openedFrame_some (x := ⟨sc, instruction, s⟩) ho).1
  rw [h instruction (currentInstruction_mem hi)] at hcall
  cases hcall

/-- Code without calls and creations stays in its frame. -/
theorem Reaches.scope_eq {sc₀ sc : Scope} {s₀ s : Machine T} (h : ∀ i ∈ sc₀.code.instructions, i.op.isCall = false)
    (hr : Reaches sc₀ s₀ sc s) : sc = sc₀ := by
  induction hr with
  | start => rfl
  | turn _ _ _ ih => exact ih
  | inner _ hi ho _ _ ih =>
    subst ih
    exact absurd ho (closed_opens h hi)

/-- It derives nothing. -/
theorem closed_derives {sc₀ : Scope} (h : ∀ i ∈ sc₀.code.instructions, i.op.isCall = false) (s₀ : Machine T) (a : Address) :
    ¬Derives sc₀ s₀ a := by
  rintro ⟨sc, s, instruction, inner, pending, opened, hr, hi, ho, -⟩
  cases hr.scope_eq h
  exact closed_opens h hi ho

theorem Reaches.codeless {sc₀ sc : Scope} {s₀ s : Machine T} (hd : ¬Derives sc₀ s₀ a) (hs₀ : s₀.evm.stack = [])
    (hc : s₀.ext.Codeless a) (h : Reaches sc₀ s₀ sc s) : s.ext.Codeless a := by
  have hmeets : Meets (Step.BumpsAside Field.code a) (fun _ _ pending _ _ => pending.created? ≠ some a) sc₀ s₀ :=
    ⟨fun _ _ _ _ _ _ => rfl, fun hr hi ho _ hcreated => hd ⟨_, _, _, _, _, _, hr, hi, ho, hcreated⟩⟩
  exact hmeets.reaches (I := fun e => e.Codeless a) (carried_untouched fun _ _ => rfl) hs₀
    (fun hu hc => (hu hc.1).codeless hc) hc h

omit [EventTracer T] in
theorem callTarget_codeless {s t : Machine T} {target : Target} (hc : s.ext.Codeless a)
    (h : callTarget a s = .ok target t) : target.code = [] := by
  obtain ⟨account, hl⟩ := Option.isSome_iff_exists.1 hc.1
  have hcode : account.code.1 = [] := by
    have := hc.2
    rwa [Ext.orDefault_of_lookup hl] at this
  obtain ⟨code, s₁, htouch, h⟩ := bind_ok h
  obtain ⟨accessCost, s₂, -, h⟩ := bind_ok h
  have hread : code = account.code := by
    have hwp : wp (touchCode a) (fun code _ => code = account.code) (fun _ _ => True) s := by
      unfold touchCode
      rw [wp_bind, Ext.code, wp_loaded _ hl]
      simp only [touch, wp_bind, wp_modify, wp_pure]
    exact (of_ok hwp htouch :)
  have hplain : delegation ([] : Bytes) = none := rfl
  rw [hread, hcode, hplain] at h
  cases h
  rfl

/-- A call of an account without code runs none. -/
theorem callOpen_codeless {x : Step T} {inner : Inner T} {pending : Pending} {t : Machine T}
    (hc : x.before.ext.Codeless x.target)
    (h : callOpen (x.scope.inContext x.op) x.instruction x.before = .ok (.frame inner pending) t) :
    inner.scope.code = decode [] := by
  have hr : ∀ e : Effect, e.isRead → e.isTidy → e.isRead := fun _ h _ => h
  obtain ⟨args, s₁, hargs, h⟩ := bind_ok (show (callArgs (x.scope.inContext x.op) >>= _) x.before = _ from h)
  obtain ⟨memory, s₂, hmemory, h⟩ := bind_ok h
  obtain ⟨create, s₃, hcreate, h⟩ := bind_ok h
  obtain ⟨target, s₄, htarget, h⟩ := bind_ok h
  obtain ⟨left, s₅, -, h⟩ := bind_ok h
  dsimp only at h
  split at h
  · exact ((wp_of_ok h).1 (wp_callOutOfGas (P := Effect.never) _ _)).elim
  · have hwithin : Within (Effect.isRead ·) x.before s₃ := ((keeps_callArgs _).ok hargs).trans
      (((keeps_callMemory args).ok hmemory).trans ((keeps_callCreateCost hr args).ok hcreate))
    have hfar : Untouched Field.code x.target x.before.trail s₃.trail :=
      hwithin.trail.untouched (fun _ _ => rfl) (fun _ _ _ => rfl) hc.1
    have haddress : args.address = x.target := (callArgs_ok _ hargs).address
    rw [haddress] at htarget
    have hcode : target.code = [] := callTarget_codeless (hfar.codeless hc) htarget
    have hentered : Entered (x.scope.inContext x.op) args target _ s₅ inner pending t :=
      (wp_of_ok h).1 (wp_callEnter _ _ args target _)
    obtain ⟨data, hscope⟩ := hentered.scope
    rw [hscope, hcode]

/-- A frame in which `a` runs no code, and that is in no creation of `a`. -/
structure Scope.Aloof (sc : Scope) (a : Address) : Prop where
  idle : sc.this = a → sc.code.instructions = []
  created : sc.ctx.created ≠ a

omit [EventTracer T] [Crypto] in
theorem Scope.Aloof.elsewhere {sc : Scope} (h : sc.Aloof a) {evm : Evm} {instruction : Instruction}
    (hi : currentInstruction sc evm = some instruction) : sc.this ≠ a := fun heq => by
  rw [currentInstruction_none (h.idle heq) rfl] at hi
  cases hi

/-- The frames that a frame opens are as aloof. -/
theorem Scope.Aloof.opens {x : Step T} {inner : Inner T} {pending : Pending} {opened : Machine T} (h : x.scope.Aloof a)
    (hthis : x.this ≠ a) (hc : x.before.ext.Codeless a) (hne : pending.created? ≠ some a)
    (ho : openedFrame x.scope x.instruction x.before = some (inner, pending, opened)) : inner.scope.Aloof a := by
  obtain ⟨hmessage, -⟩ := openedFrame_code ho
  obtain ⟨-, -, hopen⟩ := openedFrame_some ho
  cases opens_of_openedFrame ho with
  | message hop hframe =>
    have hcreated : inner.scope.ctx.created = x.scope.ctx.created := by
      rw [hframe.ctx]
      cases x.op <;> rfl
    refine ⟨fun heq => ?_, by rw [hcreated]; exact h.created⟩
    by_cases hto : inner.scope.call.to_ = 0
    · rw [this_of_zero hto, hcreated] at heq
      exact absurd heq h.created
    · rw [this_of_to hto, (hmessage hop).to_] at heq
      split at heq
      · exact absurd heq hthis
      · rw [openFrame_message hop] at hopen
        rw [callOpen_codeless (heq ▸ hc) hopen]
        rfl
  | creation hop hstatic hframe =>
    obtain ⟨baseCost, rfl⟩ := hframe.pending
    have hcreated : inner.scope.ctx.created ≠ a := fun heq => hne (congrArg some heq)
    exact ⟨fun heq => absurd ((this_of_zero hframe.this).symm.trans heq) hcreated, hcreated⟩

/-- An account without code runs none in a whole run, unless the run creates it. -/
theorem Reaches.aloof {sc₀ sc : Scope} {s₀ s : Machine T} (hd : ¬Derives sc₀ s₀ a) (hs₀ : s₀.evm.stack = [])
    (hc : s₀.ext.Codeless a) (hsc : sc₀.Aloof a) (h : Reaches sc₀ s₀ sc s) : sc.Aloof a := by
  induction h with
  | start => exact hsc
  | turn _ _ _ ih => exact ih
  | @inner sc s opened t instruction inner pending hreach hi ho _ _ ih =>
    exact Scope.Aloof.opens (x := ⟨sc, instruction, s⟩) ih (ih.elsewhere hi) (hreach.codeless hd hs₀ hc)
      (fun hcreated => hd ⟨_, _, _, _, _, _, hreach, hi, ho, hcreated⟩) ho

/-- Nothing in a run reaches the nonce of an account without code. -/
theorem run_nonce {fuel : Nat} {sc : Scope} {s t : Machine T} {ret : Bytes} (hd : ¬Derives sc s a)
    (hs : s.evm.stack = []) (hc : s.ext.Codeless a) (hsc : sc.Aloof a) (hrun : executeWithContext fuel sc s = .ok ret t) :
    Untouched Field.nonce a s.trail t.trail := by
  have hmeets : Meets (Step.BumpsAside Field.nonce a) (fun _ _ pending _ _ => pending.created? ≠ some a) sc s :=
    ⟨fun hr hi _ heq => absurd heq ((hr.aloof hd hs hc hsc).elsewhere hi),
      fun hr hi ho _ hcreated => hd ⟨_, _, _, _, _, _, hr, hi, ho, hcreated⟩⟩
  exact hmeets.run (carried_untouched fun _ _ => rfl) hs hrun hc.1

/-! ## Counting the transaction -/

/-- A nonce that is bumped, with the touch that says so. -/
theorem bumpNonce_ok {depth : Nat} {n : Word} {s t : Machine T} (h : bumpNonce depth a s = .ok n t) :
    ∃ account, s.ext.account? a = some account ∧ n = account.nonce ∧ n.toNat + 1 < 2 ^ 64 ∧
      t.ext.account? a = some { account with nonce := n + 1 } ∧ (t.ext.state.lookup a).isSome ∧
      t.evm.touches = s.evm.touches ++ [.setNonce a n.toNat (n.toNat + 1)] := by
  obtain ⟨nonce, s₁, hread, h⟩ := bind_ok h
  obtain ⟨bumped, hbumped, h⟩ := bind_lift_ok h
  obtain ⟨_, s₂, hwrite, h⟩ := bind_ok h
  obtain ⟨val, hval, h⟩ := bind_lift_ok h
  obtain ⟨new, hnew, h⟩ := bind_lift_ok h
  obtain ⟨_, s₃, htouch, h⟩ := bind_ok h
  obtain ⟨_, s₄, hemit, h⟩ := bind_ok h
  cases htouch
  cases hemit
  cases h
  obtain ⟨e₁, hnonce, rfl⟩ := onExt_ok hread
  obtain ⟨e₂, haccount, rfl⟩ := onExt_ok hwrite
  obtain ⟨account, e, hpull, hvalue⟩ := bind_ok hnonce
  cases hvalue
  obtain ⟨-, rfl⟩ := Word.add_ok hbumped
  obtain ⟨-, rfl⟩ := Word.asU64_ok hval
  have hl : (e₁.state.lookup a).isSome := by
    rw [(Ext.pulled hpull).lookup]
    rfl
  have hset : e₂ = e₁.setNonce a (account.nonce + 1) := by
    have hwp : wp (Ext.accountMut a fun x => { x with nonce := account.nonce + 1 })
        (fun _ e₂ => e₂ = e₁.setNonce a (account.nonce + 1)) (fun _ _ => True) e₁ :=
      (Ext.wp_accountMut _).2 ⟨fun _ => rfl, fun _ => trivial⟩
    exact (of_ok hwp haccount :)
  split at hnew
  · next hroom =>
    cases hnew
    have hacc := Ext.pull_account? hpull
    refine ⟨account, hacc, rfl, by omega, ?_, ?_, rfl⟩
    · show e₂.account? a = _
      rw [hset, Ext.setNonce, Ext.account?_mutate _ hl, if_pos rfl, Ext.account?_pull hpull, hacc, Option.map_some]
    · show (e₂.state.lookup a).isSome
      rw [hset, Ext.setNonce, Ext.isSome_lookup_mutate]
      exact hl
  · cases hnew

omit [Crypto] [EventTracer T] in
/-- What an account is, beside what it holds. -/
def Account.identity (x : Account) : Word × Bytes := (x.nonce, x.code.1)

/-- An account that is loaded, with this nonce and no code. -/
structure Ext.Holds (e : Ext) (a : Address) (n : Word) : Prop where
  loaded : (e.state.lookup a).isSome
  identity : (e.account? a).map Account.identity = some (n, [])

omit [EventTracer T] in
theorem Ext.Holds.account {e : Ext} {n : Word} (h : e.Holds a n) :
    e.Codeless a ∧ (e.orDefault a).nonce = n := by
  obtain ⟨account, hl⟩ := Option.isSome_iff_exists.1 h.loaded
  have hid := h.identity
  rw [Ext.account?_loaded hl, Option.map_some, Option.some.injEq] at hid
  obtain ⟨hnonce, hcode⟩ := Prod.mk.inj hid
  rw [Ext.Codeless, Ext.orDefault_of_lookup hl]
  exact ⟨⟨h.loaded, hcode⟩, hnonce⟩

namespace Runner

variable {r : Runner}

omit [EventTracer T] in
/-- The recipient's code, when it has none. -/
theorem resolveCode_codeless {n : Word} {s t : Machine T} {code : Bytecode} (hto : r.call.to_ ≠ 0)
    (hacc : (s.ext.account? r.call.to_).map Account.identity = some (n, [])) (h : r.resolveCode s = .ok code t) :
    code = decode [] := by
  obtain ⟨given, s₁, hgiven, h⟩ := bind_ok h
  have hempty : given = [] := by
    unfold givenCode at hgiven
    rw [if_neg hto] at hgiven
    obtain ⟨c, s₂, htouch, hpure⟩ := bind_ok hgiven
    obtain ⟨c', s₃, hcode, hrest⟩ := bind_ok htouch
    obtain ⟨e, hread, rfl⟩ := onExt_ok hcode
    obtain ⟨account, e₁, hpull, hvalue⟩ := bind_ok hread
    cases hvalue
    cases hrest
    cases hpure
    rw [Ext.pull_account? hpull, Option.map_some, Option.some.injEq] at hacc
    exact (Prod.mk.inj hacc).2
  have hplain : delegation ([] : Bytes) = none := rfl
  rw [hempty, hplain] at h
  cases h
  rfl

omit [EventTracer T] in
/-- The sender after the start of its transaction, which opens the account that the sender would
    create. -/
theorem start_sender {n : Word} {s t : Machine T} {code : Bytecode} {reduction : Int} {created : Address}
    (hacc : (s.ext.account? r.call.from_).map Account.identity = some (n, [])) (hne : r.call.from_.create n ≠ r.call.from_)
    (h : r.start s = .ok (code, reduction, created) t) : t.ext.Holds r.call.from_ n ∧ created = r.call.from_.create n ∧
      (r.call.to_ ≠ 0 → r.call.to_ = r.call.from_ → code = decode []) := by
  obtain ⟨_, s₁, h₁, h⟩ := bind_ok h
  obtain ⟨_, s₂, h₂, h⟩ := bind_ok h
  obtain ⟨_, s₃, h₃, h⟩ := bind_ok h
  obtain ⟨_, s₄, h₄, h⟩ := bind_ok h
  obtain ⟨_, s₅, h₅, h⟩ := bind_ok h
  cases h
  have hkept₁ : (keeping Account.identity r.call.from_).ok s s₁ := (reads_keeping.warmCoinbase r).ok h₁
  have hkept₂ : (keeping Account.identity r.call.from_).ok s₁ s₂ := (reads_keeping.resolveCode r).ok h₂
  have hkept₃ : (keeping Account.identity r.call.from_).ok s₂ s₃ := (reads_keeping.startGas fuels_keeping r).ok h₃
  have hacc₃ := (hkept₃.trans (hkept₂.trans hkept₁)).trans hacc
  obtain ⟨sender, s₆, hread, h₄⟩ := bind_ok h₄
  obtain ⟨_, s₇, hopen, h₄⟩ := bind_ok h₄
  cases h₄
  obtain ⟨e, hpull, rfl⟩ := onExt_ok hread
  have hnonce : sender.nonce = n := by
    rw [Ext.pull_account? hpull, Option.map_some, Option.some.injEq] at hacc₃
    exact (Prod.mk.inj hacc₃).1
  subst hnonce
  have hloaded : (e.state.lookup r.call.from_).isSome := by
    rw [(Ext.pulled hpull).lookup]
    rfl
  have hopened : Ext.Extends e s₄.ext := (prepares_extends.opened _).ok hopen
  have hfunded : Ext.Extends s₄.ext t.ext := (prepares_extends.works.fundCreated r _).ok h₅
  have hkept₆ : (keeping Account.identity r.call.from_).ok s₃ _ := (keeps_pulled _).ok hread
  have hkept₇ : (keeping Account.identity r.call.from_).ok _ s₄ := (keeps_openAccount hne).ok hopen
  have hkept₅ : (keeping Account.identity r.call.from_).ok s₄ t :=
    (reads_keeping.fundCreated (values_keeping fun _ _ _ => rfl) (values_keeping fun _ _ _ => rfl)).ok h₅
  refine ⟨⟨hfunded.loaded _ (hopened.loaded _ hloaded), ?_⟩, rfl, fun hto hself => ?_⟩
  · exact (hkept₅.trans (hkept₇.trans hkept₆)).trans hacc₃
  · exact resolveCode_codeless hto (hself ▸ hkept₁.trans hacc) h₂

end Runner

/-- The sender once its call is prepared: it is counted, and the last touch says so. -/
theorem prepare_sender {n : Word} {code : Bytecode} {call : Call} {prep : Word × Word × Int × Word} {s t : Machine T}
    (hacc : (s.ext.account? call.from_).map Account.identity = some (n, [])) (h : prepare code call s = .ok prep t) :
    prep.2.2.2 = n ∧ n.toNat + 1 < 2 ^ 64 ∧ t.ext.Holds call.from_ (n + 1) ∧ ∃ ts, t.evm.touches =
      s.evm.touches ++ ts ++ [.setNonce call.from_ n.toNat (n.toNat + 1)] ∧ ∀ τ ∈ ts, AccountTouch.isPlain τ := by
  have hv : Moneyless Account.identity := fun _ _ => rfl
  obtain ⟨_, s₁, h₁, h⟩ := bind_ok h
  obtain ⟨_, s₂, h₂, h⟩ := bind_ok h
  obtain ⟨_, _, hget, h⟩ := bind_ok h
  cases hget
  obtain ⟨gas, -, h⟩ := bind_lift_ok h
  obtain ⟨_, s₃, h₃, h⟩ := bind_ok h
  obtain ⟨_, s₄, h₄, h⟩ := bind_ok h
  obtain ⟨_, s₅, h₅, h⟩ := bind_ok h
  obtain ⟨nonce, s₆, h₆, h⟩ := bind_ok h
  obtain ⟨_, s₇, h₇, h⟩ := bind_ok h
  cases h
  have hkept : (keeping Account.identity call.from_).ok s s₅ := by
    have h₁ : (keeping Account.identity call.from_).ok s s₁ := (reads_keeping.prewarm call).ok h₁
    have h₂ : (keeping Account.identity call.from_).ok s₁ s₂ := (reads_keeping.prepayGas (values_keeping fun _ => hv)).ok h₂
    have h₃ : (keeping Account.identity call.from_).ok s₂ s₃ := keeps_listed.ok h₃
    have h₅ : (keeping Account.identity call.from_).ok s₄ s₅ :=
      (reads_keeping.transferValue announces_keeping (values_keeping fun _ => hv) (earns_keeping fun _ => hv)).ok h₅
    cases h₄
    exact h₅.trans (h₃.trans (h₂.trans h₁))
  have hnoted : (noting fun τ => τ.isPlain).ok s s₅ := by
    have h₄ : (noting fun τ => τ.isPlain).ok s₃ s₄ := by
      cases h₄
      exact noting_same rfl
    have h₂ := (looks_noting.prepayGas (values_noting (fun _ h => h) call.from_)).ok h₂
    have h₅ := (notes_transferValue (fun _ h => h) call).ok h₅
    exact (noting _).trans (((reads_noting fun _ h => h).prewarm call).ok h₁) ((noting _).trans h₂
      ((noting _).trans ((notes_onExt _).ok h₃) ((noting _).trans h₄ h₅)))
  have hstopped : t.ext = s₆.ext ∧ t.evm.touches = s₆.evm.touches := by
    unfold stopTransfer at h₇
    split at h₇ <;> cases h₇ <;> exact ⟨rfl, rfl⟩
  obtain ⟨ts, hts, hplain⟩ := hnoted
  obtain ⟨account, haccount, rfl, hroom, hbumped, hloaded, htouches⟩ := bumpNonce_ok h₆
  have hid := hkept.trans hacc
  rw [haccount, Option.map_some, Option.some.injEq] at hid
  obtain ⟨rfl, hcode⟩ := Prod.mk.inj hid
  refine ⟨rfl, hroom, ⟨by rw [hstopped.1]; exact hloaded, ?_⟩, ts, by rw [hstopped.2, htouches, hts], hplain⟩
  rw [hstopped.1, hbumped, Option.map_some, Account.identity, hcode]

/-- What the journal of the transaction takes the sender's nonce back to. -/
def Trail.Returns (a : Address) (n : Word) (t : Trail) : Prop :=
  Restores (Field.nonce.undo a) t.touches n (Field.nonce.get (t.ext.orDefault a))

omit [Crypto] [EventTracer T] in
theorem undo_plain {τ : AccountTouch} (h : τ.isPlain) (a : Address) (n : Word) : Field.nonce.undo a τ n = n := by
  cases τ <;> first | rfl | cases h

omit [Crypto] [EventTracer T] in
theorem undo_feePay {τ : AccountTouch} (h : τ.isFeePay) (a : Address) (n : Word) : Field.nonce.undo a τ n = n := by
  cases τ <;> first | rfl | cases h

omit [Crypto] [EventTracer T] in
theorem Untouched.returns {n : Word} {t u : Trail} (h : Untouched Field.nonce a t u) (ht : t.Returns a n) :
    u.Returns a n := by
  obtain ⟨ts, hts, hidle⟩ := h.idle
  have hback : Restores (Field.nonce.undo a) ts (Field.nonce.get (t.ext.orDefault a))
    (Field.nonce.get (u.ext.orDefault a)) := by
    unfold Restores
    rw [rollback_idle fun τ hτ => (Field.nonce.lift a τ _).trans (hidle τ hτ _), h.same]
  unfold Trail.Returns
  rw [hts]
  exact ht.append hback

/-- A revert takes the nonce back. -/
theorem revert_returns {n : Word} {evm : Evm} {e e' : Ext} (hl : (e.state.lookup a).isSome)
    (ht : Trail.Returns a n ⟨e, evm.touches, []⟩) (h : evm.revert e = .ok ⟨⟩ e') :
    (e'.account? a).map (·.nonce) = some n := by
  obtain ⟨account, hl'⟩ := Option.isSome_iff_exists.1 ((revert_extends h).loaded a hl)
  have hrollback := (Field.nonce.cell a).reverted h
  change (e'.orDefault a).nonce = rollback (Field.nonce.undo a) evm.touches (e.orDefault a).nonce at hrollback
  rw [Ext.account?_loaded hl', Option.map_some, ← Ext.orDefault_of_lookup hl', hrollback]
  exact congrArg some ht

namespace Runner

variable {r : Runner} {n : Word} {ext : Ext}

/-- The sender's nonce in the frame: a call has counted it already. -/
def framed (r : Runner) (n : Word) : Word := if r.call.to_ ≠ 0 then n + 1 else n

/-- The sender at the start of the top frame. -/
structure SenderReady (r : Runner) (n : Word) (sc : Scope) (s : Machine T) : Prop where
  stack : s.evm.stack = []
  aloof : sc.Aloof r.call.from_
  holds : s.ext.Holds r.call.from_ (r.framed n)
  returns : s.trail.Returns r.call.from_ n
  room : r.call.to_ ≠ 0 → n.toNat + 1 < 2 ^ 64

theorem topFrame_sender {sc : Scope} {s : Machine T} (hacc :
    (ext.account? r.call.from_).map Account.identity = some (n, []))
    (hne : r.call.from_.create n ≠ r.call.from_) (h : r.topFrame ext = some (sc, s)) : r.SenderReady n sc s := by
  unfold topFrame at h
  split at h
  · cases h
  · next code reduction created started hstart =>
    have hstack : started.evm.stack = [] := ((outside_start r).ok hstart).stack
    obtain ⟨hholds, rfl, hcode⟩ := start_sender hacc hne hstart
    obtain ⟨ts, hts, hplain⟩ := (notes_start (P := fun τ => τ.isPlain) (fun _ h => h) r).ok hstart
    have hts : started.evm.touches = ts := hts
    split at h
    · next hto =>
      split at h
      · cases h
      · next prep s' hprepare =>
        cases h
        obtain ⟨hnonce, hroom, hbumped, ts', hts', hplain'⟩ := prepare_sender hholds.identity hprepare
        refine ⟨((outside_prepare _ _).ok hprepare).stack.trans hstack, ⟨fun hthis => ?_, ?_⟩, ?_, ?_, fun _ => hroom⟩
        · have hself : r.call.to_ = r.call.from_ := (this_of_to hto).symm.trans hthis
          show code.instructions = []
          rw [hcode hto hself]
          rfl
        · show r.call.from_.create prep.2.2.2 ≠ _
          rw [hnonce]
          exact hne
        · rw [framed, if_pos hto]
          exact hbumped
        · show rollback _ s'.evm.touches (s'.ext.orDefault r.call.from_).nonce = n
          rw [hts', hts, rollback_append, hbumped.account.2, rollback_cons, rollback_nil, rollback_append,
            show Field.nonce.undo r.call.from_ (.setNonce r.call.from_ n.toNat (n.toNat + 1)) (n + 1) = n by
              simp [Field.nonce], rollback_idle fun τ hτ => undo_plain (hplain' τ hτ) _ _,
            rollback_idle fun τ hτ => undo_plain (hplain τ hτ) _ _]
    · next hto =>
      cases h
      have hto : r.call.to_ = 0 := not_not.1 hto
      have hthis : (r.createScope code (r.call.from_.create n)).this = r.call.from_.create n := this_of_zero hto
      refine ⟨hstack, ⟨fun heq => absurd (hthis.symm.trans heq) hne, hne⟩, ?_, ?_, fun h => absurd hto h⟩
      · rw [framed, if_neg (not_not.2 hto)]
        exact hholds
      · show rollback _ s.evm.touches (s.ext.orDefault r.call.from_).nonce = n
        rw [hts, hholds.account.2, rollback_idle fun τ hτ => undo_plain (hplain τ hτ) _ _]

/-- The sender at the end of the top frame. -/
theorem topEnd_sender {fuel : Nat} {ret : Bytes} {t : Machine T}
    (hacc : (ext.account? r.call.from_).map Account.identity = some (n, [])) (hne : r.call.from_.create n ≠ r.call.from_)
    (hd : ∀ sc s, r.topFrame (T := T) ext = some (sc, s) → ¬Derives sc s r.call.from_)
    (h : r.topEnd fuel ext = some (ret, t)) : (t.ext.state.lookup r.call.from_).isSome ∧
      (t.ext.orDefault r.call.from_).nonce = r.framed n ∧ t.trail.Returns r.call.from_ n ∧
      (r.call.to_ ≠ 0 → n.toNat + 1 < 2 ^ 64) := by
  unfold topEnd at h
  split at h
  · cases h
  · next sc s htop =>
    split at h
    · next ret' t' hrun =>
      cases h
      have hready := topFrame_sender hacc hne htop
      have hfar := run_nonce (hd sc s htop) hready.stack hready.holds.account.1 hready.aloof hrun
      exact ⟨hfar.loaded, hfar.same.trans hready.holds.account.2, hfar.returns hready.returns, hready.room⟩
    · cases h

/-! ## The count -/

omit [EventTracer T] in
/-- One more, where that fits. -/
theorem written_nonce {account : Account} {bumped : Word} {e e' : Ext} (hl : e.state.lookup a = some account)
    (hsum : account.nonce.add 1 = .ok bumped)
    (h : Ext.accountMut a (fun x => { x with nonce := bumped }) e = .ok ⟨⟩ e') :
    (e'.account? a).map (·.nonce.toNat) = some (account.nonce.toNat + 1) := by
  obtain ⟨hfits, rfl⟩ := Word.add_ok hsum
  have hloaded : (e.state.lookup a).isSome := by
    rw [hl]
    rfl
  have hset : e' = e.setNonce a (account.nonce + 1) := by
    have hwp : wp (Ext.accountMut a fun x => { x with nonce := account.nonce + 1 })
        (fun _ e' => e' = e.setNonce a (account.nonce + 1)) (fun _ _ => True) e :=
      (Ext.wp_accountMut _).2 ⟨fun _ => rfl, fun _ => trivial⟩
    exact (of_ok hwp h :)
  have hone : (1 : Word).toNat = 1 := rfl
  rw [hset, Ext.setNonce, Ext.account?_mutate _ hloaded, if_pos rfl, Ext.account?_loaded hl]
  simp only [Option.map_some, BitVec.toNat_add, hone] at hfits ⊢
  rw [Nat.mod_eq_of_lt hfits]

omit [EventTracer T] in
theorem countSender_nonce {s t : Machine T} (hacc : (s.ext.account? a).map (·.nonce) = some n)
    (h : countSender a s = .ok ⟨⟩ t) : (t.ext.account? a).map (·.nonce.toNat) = some (n.toNat + 1) := by
  obtain ⟨_, _, hget, h⟩ := bind_ok h
  cases hget
  cases hl : s.ext.state.lookup a with
  | none =>
    rw [hl] at h
    cases h
  | some account =>
    rw [hl] at h
    obtain ⟨bumped, hbumped, h⟩ := bind_lift_ok h
    obtain ⟨_, s₁, hon, h⟩ := bind_ok h
    obtain ⟨val, -, h⟩ := bind_lift_ok h
    obtain ⟨new, -, h⟩ := bind_lift_ok h
    cases h
    obtain ⟨e, hwrite, rfl⟩ := onExt_ok hon
    rw [Ext.account?_loaded hl, Option.map_some, Option.some.injEq] at hacc
    subst hacc
    exact written_nonce hl hbumped hwrite

/-- A call: counted before its frame, or again after the revert. -/
theorem called_nonce {fuel : Nat} {ext' : Ext} {result : CallResult T} (hto : r.call.to_ ≠ 0)
    (hacc : (ext.account? r.call.from_).map Account.identity = some (n, [])) (hne : r.call.from_.create n ≠ r.call.from_)
    (hd : ∀ sc s, r.topFrame (T := T) ext = some (sc, s) → ¬Derives sc s r.call.from_)
    (h : r.apply fuel ext = .ok result ext') : (ext'.account? r.call.from_).map (·.nonce.toNat) = some (n.toNat + 1) := by
  obtain ⟨code, reduction, created, prep, ret, started, m, ended, settled, bumped, hstart, hphases,
    hbump, -, -, -, -, rfl⟩ :=
    apply_called hto h
  obtain ⟨i, htop, hext, hmachine, -⟩ := topEnd_called hto hstart hphases
  obtain ⟨hloaded, hnonce, hreturns, hroom⟩ := topEnd_sender hacc hne hd htop
  rw [framed, if_pos hto] at hnonce
  obtain ⟨fee, word, m₀, m₁, m₂, hundo, hsender, hcoinbase, -, rfl⟩ := (settle_ok hphases.settles).settles
  have hundone : (m₀.ext.account? r.call.from_).map (·.nonce) = some (if ended.evm.reverted then n else n + 1) := by
    unfold undoReverted at hundo
    split at hundo
    · next hrev =>
      obtain ⟨e, hrevert, rfl⟩ := onExt_ok hundo
      rw [hmachine, hext] at hrevert
      rw [if_pos hrev]
      exact revert_returns hloaded hreturns hrevert
    · next hkept =>
      cases hundo
      obtain ⟨account, hl⟩ := Option.isSome_iff_exists.1 hloaded
      rw [if_neg hkept, hext, Ext.account?_loaded hl, Option.map_some, ← Ext.orDefault_of_lookup hl, hnonce]
  have hreverted : m₂.evm.reverted = ended.evm.reverted := by
    have hbooked₀ : Booked ended m₀ := by
      unfold undoReverted at hundo
      split at hundo
      · exact (books_onExt (sameTx_revert _)).ok hundo
      · cases hundo
        exact booking.refl _
    rw [((works_booking.payCoinbase announces_booking _).ok hcoinbase).evm,
      ((works_booking.settleSender _ _ _ _).ok hsender).evm, hbooked₀.evm]
  have h₁ : (keeping Account.nonce r.call.from_).ok m₀ m₁ :=
    (reads_keeping.settleSender (bills_keeping fun _ _ _ => rfl) _ _ _).ok hsender
  have h₂ : (keeping Account.nonce r.call.from_).ok m₁ m₂ :=
    (wp_of_ok hcoinbase).1 (reads_keeping.payCoinbase announces_keeping (bills_keeping fun _ _ _ => rfl) _)
  have hsettled : (m₂.ext.account? r.call.from_).map (·.nonce) = some (if m₂.evm.reverted then n else n + 1) := by
    rw [hreverted]
    exact (h₂.trans h₁).trans hundone
  obtain ⟨_, _, hget, hbump⟩ := bind_ok hbump
  cases hget
  split at hbump
  · next hkept =>
    cases hbump
    have hkept : m₂.evm.reverted = false := by simpa using hkept
    have hone : (1 : Word).toNat = 1 := rfl
    rw [hkept, if_neg Bool.false_ne_true] at hsettled
    have hnat := congrArg (Option.map BitVec.toNat) hsettled
    have hroom := hroom hto
    rw [Option.map_map, Option.map_some, BitVec.toNat_add, hone, Nat.mod_eq_of_lt (by omega)] at hnat
    exact hnat
  · next hrev =>
    have hrev : m₂.evm.reverted = true := by simpa using hrev
    rw [hrev, if_pos rfl] at hsettled
    cases hl : m₂.ext.state.lookup r.call.from_ with
    | none =>
      rw [show Finmap.lookup r.call.from_ (Machine.ext _).state = _ from hl] at hbump
      cases hbump
    | some account =>
      rw [show Finmap.lookup r.call.from_ (Machine.ext _).state = _ from hl] at hbump
      obtain ⟨bumpedNonce, hsum, hon⟩ := bind_lift_ok hbump
      obtain ⟨e, hwrite, rfl⟩ := onExt_ok hon
      have hacc : account.nonce = n := by
        rw [Ext.account?_loaded hl, Option.map_some, Option.some.injEq] at hsettled
        exact hsettled
      rw [← hacc]
      exact written_nonce hl hsum hwrite

/-- A creation: counted at its end, after the revert if there is one. -/
theorem created_nonce {fuel : Nat} {ext' : Ext} {result : CallResult T} (hto : r.call.to_ = 0)
    (hacc : (ext.account? r.call.from_).map Account.identity = some (n, [])) (hne : r.call.from_.create n ≠ r.call.from_)
    (hd : ∀ sc s, r.topFrame (T := T) ext = some (sc, s) → ¬Derives sc s r.call.from_)
    (h : r.apply fuel ext = .ok result ext') : (ext'.account? r.call.from_).map (·.nonce.toNat) = some (n.toNat + 1) := by
  obtain ⟨code, reduction, created, started, ret, ended, deployed, gas, metered, paid, finalised, settled, hstart, hphases,
    -, -, -, -, -, rfl⟩ := apply_created hto h
  have htop : r.topEnd fuel ext = some (ret, ended) := topEnd_created hto hstart hphases.runs
  obtain ⟨hloaded, hnonce, hreturns, -⟩ := topEnd_sender hacc hne hd htop
  obtain ⟨-, hcreated, -⟩ := start_sender hacc hne hstart
  rw [framed, if_neg (not_not.2 hto)] at hnonce
  obtain ⟨hext, htouches⟩ := createdGas_keeps hphases.meters
  have hpaid : (keeping Account.nonce r.call.from_).ok metered paid :=
    (reads_keeping.payCreated (bills_keeping fun _ _ _ => rfl) gas).ok hphases.pays
  have hextends : metered.ext.Extends paid.ext := (prepares_extends.works.payCreated r gas).ok hphases.pays
  obtain ⟨ts, hts, hfee⟩ := (notes_payCreated r gas).ok hphases.pays
  have hcharged : (keeping (·.nonce.toNat) r.call.from_).ok finalised settled :=
    (reads_keeping.chargeSender (bills_keeping fun _ _ _ => rfl) _).ok hphases.charges
  have hpaidLoaded : (paid.ext.state.lookup r.call.from_).isSome := hextends.loaded _ (hext ▸ hloaded)
  have hpaidNonce : (paid.ext.account? r.call.from_).map (·.nonce) = some n := by
    obtain ⟨account, hl⟩ := Option.isSome_iff_exists.1 hloaded
    refine Eq.trans hpaid ?_
    rw [hext, Ext.account?_loaded hl, Option.map_some, ← Ext.orDefault_of_lookup hl, hnonce]
  refine Eq.trans hcharged ?_
  obtain ⟨_, _, hget, hfinal⟩ := bind_ok hphases.finalises
  cases hget
  dsimp only at hfinal
  split at hfinal
  · obtain ⟨_, s₁, hon, hcount⟩ := bind_ok hfinal
    obtain ⟨e, hrevert, rfl⟩ := onExt_ok hon
    have hback : Trail.Returns r.call.from_ n ⟨paid.ext, paid.evm.touches, []⟩ := by
      obtain ⟨account, hl⟩ := Option.isSome_iff_exists.1 hpaidLoaded
      rw [Ext.account?_loaded hl, Option.map_some, Option.some.injEq, ← Ext.orDefault_of_lookup hl] at hpaidNonce
      show rollback _ paid.evm.touches (paid.ext.orDefault r.call.from_).nonce = n
      rw [hpaidNonce, hts, htouches, rollback_append, rollback_idle fun τ hτ => undo_feePay (hfee τ hτ) _ _, ← hnonce]
      exact hreturns.trans hnonce.symm
    exact countSender_nonce (revert_returns hpaidLoaded hback hrevert) hcount
  · obtain ⟨_, s₁, hpull₁, hfinal⟩ := bind_ok hfinal
    obtain ⟨_, s₂, hpull₂, hfinal⟩ := bind_ok hfinal
    obtain ⟨_, s₃, hcount, hinstall⟩ := bind_ok hfinal
    have h₁ : (keeping Account.nonce r.call.from_).ok paid s₁ := (keeps_pulled _).ok hpull₁
    have h₂ : (keeping Account.nonce r.call.from_).ok s₁ s₂ := (keeps_pulled _).ok hpull₂
    have hinstalled : (keeping (·.nonce.toNat) r.call.from_).ok s₃ finalised :=
      (keeps_install fun heq => absurd (hcreated.symm.trans heq) hne).ok hinstall
    exact Eq.trans hinstalled (countSender_nonce ((h₂.trans h₁).trans hpaidNonce) hcount)

/-- After a transaction that comes back the nonce of its sender, which has no code, is one more. -/
theorem sender_nonce {fuel : Nat} {ext' : Ext} {result : CallResult T} {account : Account}
    (hacc : ext.account? r.call.from_ = some account) (hcode : account.code.1 = [])
    (hne : r.call.from_.create account.nonce ≠ r.call.from_)
    (hd : ∀ sc s, r.topFrame (T := T) ext = some (sc, s) → ¬Derives sc s r.call.from_)
    (h : r.apply fuel ext = .ok result ext') :
    (ext'.account? r.call.from_).map (·.nonce.toNat) = some (account.nonce.toNat + 1) := by
  have hid : (ext.account? r.call.from_).map Account.identity = some (account.nonce, []) := by
    rw [hacc, Option.map_some, Account.identity, hcode]
  by_cases hto : r.call.to_ = 0
  · exact created_nonce hto hid hne hd h
  · exact called_nonce hto hid hne hd h

end Runner

end

namespace Sample

/-- 0xaa reverts. -/
def refusing : Ext := { (machine [(0xca, 1000000, []), (0xaa, 0, [0x5f, 0x5f, 0xfd])]).ext with txCtx := { gasPrice := 1 } }

end Sample

open Sample

/-- A call that is reverted is counted once. -/
theorem Runner.sender_nonce_reverted : ∃ (result : CallResult NoopTracer) (ext' : Ext),
    (transaction []).apply 6 refusing = .ok result ext' ∧ result.evm.reverted = true ∧
      (ext'.account? 0xca).map (·.nonce.toNat) = some 1 := by
  have hrun : returns ((transaction []).apply (T := NoopTracer) 6 refusing) (fun result _ => result.evm.reverted) := by
    decide +kernel
  obtain ⟨result, ext', h, hreverted⟩ := of_returns hrun
  have hcode : ((transaction []).topFrame (T := NoopTracer) refusing).all (fun p =>
      p.1.code.instructions.all fun i => !i.op.isCall) := by decide +kernel
  have hacc : refusing.account? (transaction []).call.from_ = some { value := 1000000 } := Ext.account?_loaded rfl
  refine ⟨result, ext', h, hreverted, Runner.sender_nonce hacc rfl (by decide) (fun sc s htop => ?_) h⟩
  rw [htop, Option.all_some, List.all_eq_true] at hcode
  exact closed_derives (fun i hi => by simpa using hcode i hi) s _

end Solenoid
