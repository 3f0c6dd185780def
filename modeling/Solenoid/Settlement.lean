/-
  Solenoid.Settlement — who pays and who is paid in a transaction to an account without
  code.

  `Stands` is the state of the accounts as far as the fees go: balances, nonces and which
  accounts are there. Prepayment, transfer, refund and the coinbase's credit each have one
  rule on it (`wp_prepayGas`, `wp_transferValue`, …), so that the deltas of an account that
  has several of the three roles add up by themselves.
  - `fee_settlement`: the deltas are exact, and the supply falls by the burned fee, exactly
    when nothing on the way overflows: the event of the transfer, which shows the sender's
    balance with the value added, is what can.
-/
import Solenoid.Transaction
import Solenoid.Value
import Mathlib.Data.BitVec
import Mathlib.Data.FinEnum
import Mathlib.Algebra.BigOperators.Group.Finset.Piecewise
import Mathlib.Algebra.Order.BigOperators.Group.Finset

namespace Solenoid

open Hoare

/-! ## Where the accounts stand -/

section

variable [Crypto]

/-- Balances `W` and nonces `N`; the accounts of `L` are there. -/
structure Stands (e : Ext) (W : Address → Option Nat) (N : Address → Option Word) (L : List Address) (tx : TxContext) :
    Prop where
  balances : ∀ a, (e.balanceOf a).map BitVec.toNat = W a
  nonces : ∀ a, (e.account? a).map (·.nonce) = N a
  loaded : ∀ a ∈ L, (e.state.lookup a).isSome
  txCtx : e.txCtx = tx

variable {W : Address → Option Nat} {N : Address → Option Word} {L : List Address} {tx : TxContext} {e : Ext}
  {a : Address}

namespace Stands

/-- A change of what does not concern the fees. -/
theorem congr {e' : Ext} (h : Stands e W N L tx) (hs : e'.state = e.state) (hr : e'.remote = e.remote)
    (ht : e'.txCtx = e.txCtx) : Stands e' W N L tx := by
  have hacc : ∀ a, e'.account? a = e.account? a := fun a => by unfold Ext.account?; rw [hs, hr]
  refine ⟨fun a => ?_, fun a => ?_, fun a ha => ?_, ht.trans h.txCtx⟩
  · rw [Ext.balanceOf, hacc]
    exact h.balances a
  · rw [hacc]
    exact h.nonces a
  · rw [hs]
    exact h.loaded a ha

theorem account (h : Stands e W N L tx) {n : Nat} (hw : W a = some n) :
    ∃ account, e.account? a = some account ∧ account.value.toNat = n ∧ N a = some account.nonce := by
  have hb := h.balances a
  have hn := h.nonces a
  rw [hw, Ext.balanceOf] at hb
  cases hacc : e.account? a with
  | none => simp [hacc] at hb
  | some account =>
    rw [hacc] at hb hn
    exact ⟨account, rfl, by simpa using hb, hn.symm⟩

end Stands

theorem wp_pull_stands {Q : Account → Ext → Prop} {E : Fault → Ext → Prop} {n : Nat} (h : Stands e W N L tx)
    (hw : W a = some n) (hQ : ∀ account e', account.value.toNat = n → N a = some account.nonce →
      e'.state.lookup a = some account → Stands e' W N (a :: L) tx → Q account e') : wp (Ext.pull a) Q E e := by
  obtain ⟨account, hacc, hv, hn⟩ := h.account hw
  obtain ⟨e', hp⟩ := Ext.pull_ok hacc
  rw [wp_of_ok hp]
  have hl := (Ext.pulled hp).lookup
  refine hQ account e' hv hn hl ⟨fun b => ?_, fun b => ?_, fun b hb => ?_, (Ext.txCtx_pull hp).trans h.txCtx⟩
  · rw [Ext.balanceOf, Ext.account?_pull hp]
    exact h.balances b
  · rw [Ext.account?_pull hp]
    exact h.nonces b
  · rcases List.mem_cons.1 hb with rfl | hb
    · rw [hl]
      rfl
    · exact (Ext.pulled hp).extends.loaded b (h.loaded b hb)

theorem wp_balance_stands {Q : Word → Ext → Prop} {E : Fault → Ext → Prop} {n : Nat} (h : Stands e W N L tx)
    (hw : W a = some n) (hQ : ∀ v e', v.toNat = n → Stands e' W N (a :: L) tx → Q v e') : wp (Ext.balance a) Q E e := by
  rw [Ext.balance, wp_bind]
  exact wp_pull_stands h hw fun account e' hv _ _ hs => (wp_pure _).2 (hQ _ _ hv hs)

theorem Stands.setValue {v : Word} (h : Stands e W N L tx) (ha : a ∈ L) :
    Stands (e.setValue a v) (Function.update W a (some v.toNat)) N L tx := by
  have hl := h.loaded a ha
  refine ⟨fun b => ?_, fun b => ?_, fun b hb => ?_, (Ext.txCtx_mutate _ _ _).trans h.txCtx⟩
  · rw [Ext.balanceOf_setValue hl]
    by_cases hb : b = a
    · subst hb
      simp
    · simp [hb, h.balances b]
  · rw [Ext.setValue, Ext.account?_mutate _ hl]
    split
    · next hb =>
      rw [hb, Option.map_map, ← h.nonces]
      rfl
    · exact h.nonces b
  · rw [Ext.setValue, Ext.isSome_lookup_mutate]
    exact h.loaded b hb

/-- A balance that changes. -/
def paid (W : Address → Option Nat) (a : Address) (f : Nat → Nat) : Address → Option Nat :=
  Function.update W a ((W a).map f)

omit [Crypto] in
theorem paid_same {n : Nat} {f : Nat → Nat} (hw : W a = some n) (hf : f n = n) : paid W a f = W := by
  rw [paid, hw, Option.map_some, hf, ← hw, Function.update_eq_self]

theorem wp_setValue_stands {Q : Unit → Ext → Prop} {E : Fault → Ext → Prop} {v : Word} {n : Nat} {f : Nat → Nat}
    (h : Stands e W N L tx) (ha : a ∈ L) (hw : W a = some n) (hv : v.toNat = f n)
    (hQ : ∀ e', Stands e' (paid W a f) N L tx → Q () e') :
    wp (Ext.accountMut a fun x => { x with value := v }) Q E e := by
  have hl := h.loaded a ha
  refine Ext.wp_accountMut _ |>.2 ⟨fun _ => hQ _ ?_, fun hn => ?_⟩
  · rw [paid, hw, Option.map_some, ← hv]
    exact h.setValue ha
  · rw [hn] at hl
    cases hl

theorem wp_credit_stands {Q : Unit → Ext → Prop} {E : Fault → Ext → Prop} {v : Word} {n : Nat}
    (h : Stands e W N L tx) (ha : a ∈ L) (hw : W a = some n) (hroom : n + v.toNat < 2 ^ 256)
    (hQ : ∀ e', Stands e' (paid W a (· + v.toNat)) N L tx → Q () e') : wp (Ext.credit a v) Q E e := by
  obtain ⟨account, hl⟩ := Option.isSome_iff_exists.1 (h.loaded a ha)
  obtain ⟨account', hacc, hn, -⟩ := h.account hw
  rw [Ext.account?_loaded hl] at hacc
  cases hacc
  have hadd : account.value.add v = .ok (account.value + v) := by rw [Word.add, if_pos (by omega)]
  simp only [Ext.credit, wp_bind, wp_estate_get, hl, wp_lift, hadd, wp_set]
  refine ⟨fun x hx => ?_, fun _ hf => (by cases hf)⟩
  cases hx
  have hset := h.setValue ha (v := account.value + v)
  rw [BitVec.toNat_add_of_lt (by omega), hn] at hset
  refine hQ _ ?_
  rw [paid, hw, Option.map_some]
  rwa [Ext.setValue, Ext.mutate_of_lookup _ hl] at hset

theorem wp_setNonce_stands {Q : Unit → Ext → Prop} {E : Fault → Ext → Prop} {n : Word} (h : Stands e W N L tx)
    (ha : a ∈ L) (hQ : ∀ e', Stands e' W (Function.update N a (some n)) L tx → Q () e') :
    wp (Ext.accountMut a fun x => { x with nonce := n }) Q E e := by
  have hl := h.loaded a ha
  obtain ⟨account, hacc⟩ := Option.isSome_iff_exists.1 hl
  refine Ext.wp_accountMut _ |>.2 ⟨fun _ => hQ _ ⟨fun b => ?_, fun b => ?_, fun b hb => ?_, ?_⟩, fun hn => ?_⟩
  · rw [Ext.balanceOf, Ext.account?_mutate _ hl]
    split
    · next hb =>
      rw [hb, ← h.balances, Ext.balanceOf, Option.map_map, Option.map_map, Option.map_map]
      rfl
    · exact h.balances b
  · rw [Ext.account?_mutate _ hl]
    by_cases hb : b = a
    · subst hb
      simp [Ext.account?_loaded hacc]
    · simp [hb, h.nonces b]
  · rw [Ext.isSome_lookup_mutate]
    exact h.loaded b hb
  · rw [Ext.txCtx_mutate]
    exact h.txCtx
  · rw [hn] at hl
    cases hl

/-! ## Preparing -/

variable {T : Type} {s : Machine T}

omit [Crypto] in
theorem state_foldl_accessList (items : List AccessListItem) (e : Ext) :
    let e' := items.foldl (fun e item => { e with
      accessedAddresses := insert item.address e.accessedAddresses
      accessedStorage := item.storageKeys.foldl (fun ks key => insert (item.address, key) ks) e.accessedStorage }) e
    e'.state = e.state ∧ e'.remote = e.remote := by
  induction items generalizing e with
  | nil => exact ⟨rfl, rfl⟩
  | cons item items ih => exact ih _

theorem Stands.applyAccessList {Q : Unit → Ext → Prop} {E : Fault → Ext → Prop} (h : Stands e W N L tx)
    (hQ : ∀ e', Stands e' W N L tx → Q () e') : wp Ext.applyAccessList Q E e := by
  obtain ⟨hs, hr⟩ := state_foldl_accessList e.txCtx.accessList e
  exact (wp_modify _).2 (hQ _ (h.congr hs hr (txCtx_foldl_accessList _ _)))

theorem wp_warmTouch_stands {Q : Unit → Machine T → Prop} {E : Fault → Machine T → Prop} (h : Stands s.ext W N L tx)
    (hQ : ∀ t, Stands t.ext W N L tx → Q () t) : wp (warmTouch a) Q E s := by
  simp only [warmTouch, Ext.warmAddress, wp_bind, wp_onExt, wp_get, wp_set, wp_pure, wp_ite, wp_touch]
  exact ⟨fun _ => hQ _ (h.congr rfl rfl rfl), fun _ => hQ _ (h.congr rfl rfl rfl)⟩

theorem wp_touchCode_stands {Q : Bytes × Word → Machine T → Prop} {E : Fault → Machine T → Prop} {n : Nat}
    (h : Stands s.ext W N L tx) (hw : W a = some n) (hQ : ∀ code t, Stands t.ext W N (a :: L) tx → Q code t) :
    wp (touchCode a) Q E s := by
  rw [touchCode, wp_bind, wp_onExt, Ext.code, wp_bind]
  refine wp_pull_stands h hw fun account e' _ _ _ hs => ?_
  rw [wp_pure, wp_bind, wp_touch, wp_pure]
  exact hQ _ _ hs

theorem wp_prewarm {call : Call} {n : Nat} {Q : Unit → Machine T → Prop} {E : Fault → Machine T → Prop}
    (hto : call.to_ ≠ 0) (h : Stands s.ext W N L tx) (hw : W call.to_ = some n)
    (hQ : ∀ t, Stands t.ext W N (call.to_ :: L) tx → Q () t) : wp (prewarm call) Q E s := by
  have hcoinbase : ∀ t : Machine T, Stands t.ext W N (call.to_ :: L) tx →
      wp (do
        let coinbase := (← get).exe.header.miner
        if coinbase = 0 then return () else warmTouch coinbase) Q E t := fun t ht => by
    rw [wp_bind, wp_get, wp_ite]
    exact ⟨fun _ => (wp_pure _).2 (hQ t ht), fun _ => wp_warmTouch_stands ht hQ⟩
  rw [prewarm, wp_bind]
  refine wp_warmTouch_stands h fun t ht => ?_
  rw [wp_bind, warmRecipient, if_neg hto, wp_bind]
  refine wp_warmTouch_stands ht fun t ht => ?_
  rw [wp_bind]
  refine wp_touchCode_stands ht hw fun code t ht => ?_
  split
  · exact wp_warmTouch_stands ht hcoinbase
  · exact (wp_pure _).2 (hcoinbase t ht)

/-- The prepayment is taken from the sender. -/
theorem wp_prepayGas {call : Call} {n : Nat} {Q : Word × Word → Machine T → Prop} {E : Fault → Machine T → Prop}
    (h : Stands s.ext W N L tx) (hw : W call.from_ = some n) (hfunds : call.gas.toNat * tx.gasPrice.toNat ≤ n)
    (hQ : ∀ p b t, p.toNat = call.gas.toNat * tx.gasPrice.toNat → b.toNat = n →
      Stands t.ext (paid W call.from_ (· - p.toNat)) N (call.from_ :: L) tx → Q (p, b) t) :
    wp (prepayGas call) Q E s := by
  obtain ⟨account, -, hn, -⟩ := h.account hw
  have hlt : call.gas.toNat * tx.gasPrice.toNat < 2 ^ 256 := by omega
  have hmul : call.gas.mul s.ext.txCtx.gasPrice = .ok (call.gas * tx.gasPrice) := by
    rw [h.txCtx, Word.mul, if_pos hlt]
  have hp : (call.gas * tx.gasPrice).toNat = call.gas.toNat * tx.gasPrice.toNat := by
    rw [BitVec.toNat_mul, Nat.mod_eq_of_lt hlt]
  rw [prepayGas, wp_bind, wp_get, wp_bind, hmul, wp_lift]
  refine ⟨fun p hp' => ?_, fun _ hf => (nomatch hf)⟩
  cases hp'
  rw [wp_bind, wp_onExt]
  refine wp_balance_stands h hw fun b e' hb hs => ?_
  rw [wp_bind, takePrepayment, wp_ite]
  refine ⟨fun hzero => ?_, fun _ => ?_⟩
  · simp only [wp_pure]
    refine hQ _ _ _ hp hb ?_
    rw [hzero, paid_same hw (Nat.sub_zero n)]
    exact hs
  · rw [wp_onExt]
    refine wp_setValue_stands (f := (· - (call.gas * tx.gasPrice).toNat)) hs List.mem_cons_self hw ?_ fun e'' hs' =>
      (wp_pure _).2 (hQ _ _ _ hp hb hs')
    rw [Word.saturatingSub, if_pos (by omega), BitVec.toNat_sub_of_le (BitVec.le_def.2 (by omega)), hb]

/-- The value goes from the sender to the recipient. What can overflow is the event of the
    credit, which adds the value to the sender's balance. -/
theorem wp_transferValue [EventTracer T] {call : Call} {x y : Nat} {Q : Unit → Machine T → Prop}
    {E : Fault → Machine T → Prop} (hto : call.to_ ≠ 0) (h : Stands s.ext W N L tx) (hx : W call.from_ = some x)
    (hy : W call.to_ = some y) (hfunds : call.value.toNat ≤ x)
    (hroom : call.from_ ≠ call.to_ → y + call.value.toNat < 2 ^ 256)
    (hQ : (call.value ≠ 0 → x + call.value.toNat < 2 ^ 256) → ∀ t,
      Stands t.ext (paid (paid W call.from_ (· - call.value.toNat)) call.to_ (· + call.value.toNat)) N
        (call.to_ :: call.from_ :: L) tx → Q () t)
    (hE : call.value ≠ 0 → 2 ^ 256 ≤ x + call.value.toNat → ∀ f t, E f t) : wp (transferValue call) Q E s := by
  rw [transferValue, wp_bind, wp_onExt]
  refine wp_balance_stands h hx fun src e₁ hsrc h₁ => ?_
  rw [wp_bind, wp_onExt]
  refine wp_balance_stands h₁ hy fun dst e₂ hdst h₂ => ?_
  rw [wp_ite]
  refine ⟨fun hskip => ?_, fun hmove => ?_⟩
  · have hzero : call.value = 0 := hskip.resolve_right hto
    refine (wp_pure _).2 (hQ (fun hne => absurd hzero hne) _ ?_)
    rw [hzero, paid_same hx (Nat.sub_zero x), paid_same hy (Nat.add_zero y)]
    exact h₂
  · have hne : call.value ≠ 0 := fun hzero => hmove (.inl hzero)
    rw [wp_bind, wp_onExt]
    have hmem : call.from_ ∈ call.to_ :: call.from_ :: L := List.mem_cons_of_mem _ List.mem_cons_self
    have hupdated : (src.saturatingSub call.value).toNat = x - call.value.toNat := by
      rw [Word.saturatingSub, if_pos (by omega), BitVec.toNat_sub_of_le (BitVec.le_def.2 (by omega)), hsrc]
    refine wp_setValue_stands (f := (· - call.value.toNat)) h₂ hmem hx hupdated fun e₃ h₃ => ?_
    obtain ⟨z, hz, hcredit⟩ : ∃ z, paid W call.from_ (· - call.value.toNat) call.to_ = some z ∧
        z + call.value.toNat < 2 ^ 256 := by
      by_cases heq : call.from_ = call.to_
      · refine ⟨x - call.value.toNat, ?_, ?_⟩
        · rw [paid, ← heq, Function.update_self, hx, Option.map_some]
        · have := src.isLt
          omega
      · exact ⟨y, by rw [paid, Function.update_of_ne (Ne.symm heq), hy], hroom heq⟩
    simp only [wp_bind, wp_touch, wp_emit, wp_onExt]
    refine wp_credit_stands h₃ List.mem_cons_self hz hcredit fun e₄ h₄ => ?_
    rw [wp_lift]
    by_cases hfits : x + call.value.toNat < 2 ^ 256
    · have hdstfits : dst.toNat + call.value.toNat < 2 ^ 256 := by
        by_cases heq : call.from_ = call.to_
        · rw [heq, hy] at hx
          cases hx
          omega
        · rw [hdst]
          exact hroom heq
      have hadd : dst.add call.value = .ok (dst + call.value) := if_pos hdstfits
      have hevent : src.add call.value = .ok (src + call.value) := if_pos (by omega)
      rw [hadd, hevent]
      refine ⟨fun w _ => ?_, fun _ hf => (by cases hf)⟩
      simp only [wp_bind, wp_touch, wp_lift, wp_emit]
      exact ⟨fun w' _ => hQ (fun _ => hfits) _ h₄, fun _ hf => (by cases hf)⟩
    · have hevent : src.add call.value = .error (.panic "arithmetic operation overflow") := if_neg (by omega)
      rw [hevent]
      refine ⟨fun w _ => ?_, fun _ _ => hE hne (by omega) _ _⟩
      simp only [wp_bind, wp_touch, wp_lift, wp_emit]
      exact ⟨fun w' hw' => (by cases hw'), fun _ _ => hE hne (by omega) _ _⟩

/-- The sender's nonce is bumped, unless it is the last one. -/
theorem wp_bumpNonce_stands [EventTracer T] {n : Nat} {nonce : Word} {depth : Nat} {Q : Word → Machine T → Prop}
    {E : Fault → Machine T → Prop} (h : Stands s.ext W N L tx) (hw : W a = some n) (hn : N a = some nonce)
    (hQ : nonce.toNat < 2 ^ 64 - 1 → ∀ N' L' t, Stands t.ext W N' L' tx → Q nonce t)
    (hE : ¬nonce.toNat < 2 ^ 64 - 1 → ∀ f t, E f t) : wp (bumpNonce depth a) Q E s := by
  rw [bumpNonce, wp_bind, wp_onExt, Ext.nonce, wp_bind]
  refine wp_pull_stands h hw fun account e₁ _ hnonce _ h₁ => ?_
  rw [hn] at hnonce
  cases hnonce
  rw [wp_pure]
  by_cases hlast : account.nonce.toNat < 2 ^ 64 - 1
  · have hadd : account.nonce.add 1 = .ok (account.nonce + 1) := if_pos (by
      have : (1 : Word).toNat = 1 := rfl
      omega)
    have hval : account.nonce.asU64 = .ok account.nonce.toNat := if_pos (by omega)
    rw [hadd, hval]
    simp only [wp_bind, wp_lift, wp_onExt, wp_touch, wp_emit, wp_pure]
    refine ⟨fun bumped _ => ?_, fun _ hf => (by cases hf)⟩
    refine wp_setNonce_stands h₁ List.mem_cons_self fun e₂ h₂ => ?_
    refine ⟨fun val hval' => ?_, fun _ hf => (by cases hf)⟩
    cases hval'
    rw [if_pos hlast]
    exact ⟨fun _ _ => hQ hlast _ _ _ h₂, fun _ hf => (by cases hf)⟩
  · simp only [wp_bind, wp_lift, wp_onExt, wp_touch, wp_emit, wp_pure]
    refine ⟨fun bumped _ => ?_, fun _ _ => hE hlast _ _⟩
    refine wp_setNonce_stands h₁ List.mem_cons_self fun e₂ h₂ => ?_
    refine ⟨fun val hval => ?_, fun _ _ => hE hlast _ _⟩
    obtain ⟨-, rfl⟩ := Word.asU64_ok hval
    rw [if_neg hlast]
    exact ⟨fun _ hnew => (by cases hnew), fun _ _ => hE hlast _ _⟩

/-- What the sender and the recipient hold when the code starts. -/
def prepaid (W : Address → Option Nat) (tx : TxContext) (call : Call) : Address → Option Nat :=
  paid (paid (paid W call.from_ (· - call.gas.toNat * tx.gasPrice.toNat)) call.from_ (· - call.value.toNat))
    call.to_ (· + call.value.toNat)

/-- The preparation goes through. -/
structure Preparable (call : Call) (tx : TxContext) (funds : Nat) (nonce : Word) : Prop where
  event : call.value ≠ 0 → funds - call.gas.toNat * tx.gasPrice.toNat + call.value.toNat < 2 ^ 256
  nonce : nonce.toNat < 2 ^ 64 - 1

theorem wp_prepare [EventTracer T] {code : Bytecode} {call : Call} {x y : Nat} {nonce : Word} (hto : call.to_ ≠ 0)
    (h : Stands s.ext W N L tx) (hx : W call.from_ = some x) (hy : W call.to_ = some y)
    (hn : N call.from_ = some nonce) (hfunds : call.gas.toNat * tx.gasPrice.toNat + call.value.toNat ≤ x)
    (hgas : call.gas.toNat < 2 ^ 64) (hroom : call.from_ ≠ call.to_ → y + call.value.toNat < 2 ^ 256) :
    wp (prepare code call)
      (fun prep t => Preparable call tx x nonce ∧ prep.1.toNat = call.gas.toNat * tx.gasPrice.toNat ∧
        ∃ N' L', Stands t.ext (prepaid W tx call) N' L' tx)
      (fun _ _ => ¬Preparable call tx x nonce) s := by
  rw [prepare, wp_bind]
  refine wp_prewarm hto h hy fun s₁ h₁ => ?_
  rw [wp_bind]
  refine wp_prepayGas h₁ hx (by omega) fun p b s₂ hp _ h₂ => ?_
  rw [hp] at h₂
  have hasI64 : call.gas.asI64 = .ok (usizeAsI64 call.gas.toNat) := by
    rw [Word.asI64, Word.asU64, if_pos hgas]
    rfl
  simp only [wp_bind, wp_get, wp_lift, hasI64, wp_onExt, wp_modify]
  refine ⟨fun gas _ => ?_, fun _ hf => (by cases hf)⟩
  refine h₂.applyAccessList fun e₃ h₃ => ?_
  have hx₃ : paid W call.from_ (· - call.gas.toNat * tx.gasPrice.toNat) call.from_ =
      some (x - call.gas.toNat * tx.gasPrice.toNat) := by rw [paid, Function.update_self, hx, Option.map_some]
  obtain ⟨z, hz, hzroom⟩ : ∃ z, paid W call.from_ (· - call.gas.toNat * tx.gasPrice.toNat) call.to_ = some z ∧
      (call.from_ ≠ call.to_ → z + call.value.toNat < 2 ^ 256) := by
    by_cases heq : call.from_ = call.to_
    · exact ⟨_, by rw [← heq]; exact hx₃, fun hne => absurd heq hne⟩
    · exact ⟨y, by rw [paid, Function.update_of_ne (Ne.symm heq), hy], hroom⟩
  refine wp_transferValue hto h₃ hx₃ hz (by omega) hzroom (fun hevent s₄ h₄ => ?_) fun hne hover _ _ hc => ?_
  · obtain ⟨w, hw⟩ : ∃ w, prepaid W tx call call.from_ = some w := by
      unfold prepaid
      generalize paid W call.from_ _ = W₁ at hx₃
      by_cases heq : call.from_ = call.to_
      · rw [paid, heq, Function.update_self, paid, ← heq, Function.update_self, hx₃]
        exact ⟨_, rfl⟩
      · rw [paid, Function.update_of_ne heq, paid, Function.update_self, hx₃]
        exact ⟨_, rfl⟩
    rw [wp_bind]
    refine wp_bumpNonce_stands h₄ hw hn (fun hlast N' L' s₅ h₅ => ?_) fun hlast _ _ hc => hlast (Preparable.nonce hc)
    simp only [stopTransfer, wp_bind, wp_ite, wp_modify, wp_pure]
    exact ⟨fun _ => ⟨⟨hevent, hlast⟩, hp, N', L', h₅⟩, fun _ => ⟨⟨hevent, hlast⟩, hp, N', L', h₅⟩⟩
  · have := hc.event hne
    omega

/-! ## Settling -/

theorem wp_refundGas {n : Nat} {refund : Word} {Q : Unit → Machine T → Prop} {E : Fault → Machine T → Prop}
    (h : Stands s.ext W N L tx) (hw : W a = some n) (hroom : n + refund.toNat < 2 ^ 256)
    (hQ : ∀ L' t, t.exe = s.exe → Stands t.ext (paid W a (· + refund.toNat)) N L' tx → Q () t) :
    wp (refundGas a refund) Q E s := by
  rw [refundGas, wp_ite]
  refine ⟨fun hzero => ?_, fun _ => ?_⟩
  · refine (wp_pure _).2 (hQ L _ rfl ?_)
    rw [hzero, paid_same hw (Nat.add_zero n)]
    exact h
  · rw [wp_bind, wp_onExt]
    refine wp_balance_stands h hw fun src e₁ hsrc h₁ => ?_
    have hadd : src.add refund = .ok (src + refund) := if_pos (by omega)
    rw [hadd]
    simp only [wp_bind, wp_lift, wp_onExt]
    refine ⟨fun v hv => ?_, fun _ hf => (by cases hf)⟩
    cases hv
    exact wp_setValue_stands (f := (· + refund.toNat)) h₁ List.mem_cons_self hw
      (by rw [BitVec.toNat_add_of_lt (by omega), hsrc]) fun e₂ h₂ => hQ _ _ rfl h₂

omit [Crypto] in
theorem ofI64_nat (g : Nat) : Word.ofI64 (g : Int) = .ok (BitVec.ofNat 256 g) := by
  rw [Word.ofI64, if_pos (Int.natCast_nonneg g), BitVec.ofInt_natCast]

omit [Crypto] in
theorem mul_fits {g : Nat} {p : Word} (hg : g < 2 ^ 256) (h : g * p.toNat < 2 ^ 256) :
    ∃ w, Word.mul (BitVec.ofNat 256 g) p = .ok w ∧ w.toNat = g * p.toNat := by
  have hw : (BitVec.ofNat 256 g).toNat = g := Nat.mod_eq_of_lt hg
  refine ⟨BitVec.ofNat 256 g * p, if_pos (by rwa [hw]), ?_⟩
  rw [BitVec.toNat_mul, hw, Nat.mod_eq_of_lt h]

/-- The sender is left with the fee paid. -/
theorem wp_settleSender {call : Call} {n g : Nat} {p price balance : Word} {Q : Word → Machine T → Prop}
    {E : Fault → Machine T → Prop} (h : Stands s.ext W N L tx) (hw : W call.from_ = some n)
    (hprice : effectiveGasPrice tx s.exe.header.baseFee = .ok price) (hg : g < 2 ^ 256)
    (hfee : g * price.toNat ≤ p.toNat) (hroom : n + p.toNat < 2 ^ 256)
    (hQ : ∀ fee L' t, fee.toNat = g * price.toNat → t.exe = s.exe →
      Stands t.ext (paid W call.from_ (· + (p.toNat - g * price.toNat))) N L' tx → Q fee t) :
    wp (settleSender call p balance (g : Int)) Q E s := by
  obtain ⟨fee, hmul, hfeeval⟩ := mul_fits hg (lt_of_le_of_lt hfee p.isLt)
  have hsub : p.sub fee = .ok (p - fee) := if_pos (by omega)
  have hrefund : (p - fee).toNat = p.toNat - g * price.toNat := by
    rw [BitVec.toNat_sub_of_le (BitVec.le_def.2 (by omega)), hfeeval]
  simp only [settleSender, wp_bind, wp_get, h.txCtx, hprice, ofI64_nat, wp_lift]
  refine ⟨fun _ hp => ?_, fun _ hf => (by cases hf)⟩
  cases hp
  refine ⟨fun _ hg' => ?_, fun _ hf => (by cases hf)⟩
  cases hg'
  rw [hmul]
  refine ⟨fun _ hm => ?_, fun _ hf => (by cases hf)⟩
  cases hm
  rw [hsub]
  refine ⟨fun _ hs => ?_, fun _ hf => (by cases hf)⟩
  cases hs
  refine wp_refundGas h hw (by omega) fun L' t hexe ht => ?_
  rw [hrefund] at ht
  rw [wp_bind, wp_onExt]
  have hn : paid W call.from_ (· + (p.toNat - g * price.toNat)) call.from_ = some (n + (p.toNat - g * price.toNat)) := by
    rw [paid, Function.update_self, hw, Option.map_some]
  refine wp_balance_stands ht hn fun after e _ he => ?_
  simp only [wp_bind, wp_touch, wp_pure]
  exact hQ fee _ _ hfeeval hexe he

theorem wp_creditCoinbase [EventTracer T] {n : Nat} {current total : Word} {Q : Unit → Machine T → Prop}
    {E : Fault → Machine T → Prop} (h : Stands s.ext W N (a :: L) tx) (hw : W a = some n) (hcurrent : current.toNat = n)
    (hroom : n + total.toNat < 2 ^ 256)
    (hQ : ∀ t, t.exe.header = s.exe.header → Stands t.ext (paid W a (· + total.toNat)) N (a :: L) tx → Q () t) :
    wp (creditCoinbase a current total) Q E s := by
  rw [creditCoinbase, wp_ite]
  refine ⟨fun hzero => ?_, fun _ => ?_⟩
  · refine (wp_touch _).2 (hQ _ rfl ?_)
    rw [hzero, paid_same hw (Nat.add_zero n)]
    exact h
  · have hadd : current.add total = .ok (current + total) := if_pos (by omega)
    rw [hadd]
    simp only [wp_bind, wp_lift, wp_onExt, wp_emit, wp_touch]
    refine ⟨fun v hv => ?_, fun _ hf => (by cases hf)⟩
    cases hv
    exact wp_setValue_stands (f := (· + total.toNat)) h List.mem_cons_self hw
      (by rw [BitVec.toNat_add_of_lt (by omega), hcurrent]) fun e he => hQ _ rfl he

/-- The coinbase gets the tip; then the blob fee is computed, for nobody. -/
theorem wp_payCoinbase [EventTracer T] {n g : Nat} {price : Word} {Q : Unit → Machine T → Prop}
    {E : Fault → Machine T → Prop} (h : Stands s.ext W N L tx) (hcoinbase : s.exe.header.miner ≠ 0)
    (hw : W s.exe.header.miner = some n) (hprice : effectiveGasPrice tx s.exe.header.baseFee = .ok price)
    (hg : g < 2 ^ 256) (hroom : n + g * (price.toNat - s.exe.header.baseFee.toNat) < 2 ^ 256)
    (hQ : (∃ fee, blobFee tx s.exe.header = .ok fee) → ∀ L' t,
      Stands t.ext (paid W s.exe.header.miner (· + g * (price.toNat - s.exe.header.baseFee.toNat))) N L' tx → Q () t)
    (hE : (¬∃ fee, blobFee tx s.exe.header = .ok fee) → ∀ f t, E f t) : wp (payCoinbase (g : Int)) Q E s := by
  have hsat : (price.saturatingSub s.exe.header.baseFee).toNat = price.toNat - s.exe.header.baseFee.toNat := by
    unfold Word.saturatingSub
    split
    · next hle => exact BitVec.toNat_sub_of_le (BitVec.le_def.2 hle)
    · next hlt =>
      show 0 = _
      omega
  have htip : coinbaseGasPrice tx s.exe.header.baseFee = .ok (price.saturatingSub s.exe.header.baseFee) := by
    rw [coinbaseGasPrice, hprice]
    rfl
  obtain ⟨tip, hmul, htipval⟩ := mul_fits (p := price.saturatingSub s.exe.header.baseFee) hg (by rw [hsat]; omega)
  rw [hsat] at htipval
  simp only [payCoinbase, wp_bind, wp_get, if_neg hcoinbase, h.txCtx, htip, ofI64_nat, wp_lift, wp_onExt]
  refine ⟨fun _ hp => ?_, fun _ hf => (by cases hf)⟩
  cases hp
  refine ⟨fun _ hg' => ?_, fun _ hf => (by cases hf)⟩
  cases hg'
  rw [hmul]
  refine ⟨fun _ hm => ?_, fun _ hf => (by cases hf)⟩
  cases hm
  refine wp_balance_stands h hw fun current e hcurrent he => ?_
  refine wp_creditCoinbase he hw hcurrent (by omega) fun t _ ht => ?_
  rw [htipval] at ht
  simp only [wp_bind, wp_lift, wp_pure]
  exact ⟨fun fee hfee => hQ ⟨fee, hfee⟩ _ _ ht, fun f hf => hE (by rintro ⟨fee, hfee⟩; rw [hfee] at hf; cases hf) _ _⟩

/-! ## No code to run -/

omit [Crypto] in
theorem currentInstruction_none {code : Bytecode} (hcode : code.instructions = []) {sc : Scope} (hsc : sc.code = code)
    (evm : Evm) : currentInstruction sc evm = none := by
  unfold currentInstruction
  rw [hsc, hcode]
  split <;> rfl

/-- A frame without code is its own end. -/
theorem runTop_empty [EventTracer T] (fuel : Nat) {sc : Scope} (hcode : sc.code.instructions = [])
    (hdepth : sc.ctx.depth ≤ callDepthLimit) (h : Stands s.ext W N L tx) :
    ∃ t, runTop (executeWithContext (fuel + 1)) sc s = .ok [] t ∧ Stands t.ext W N L tx ∧ t.exe.header = s.exe.header ∧
      t.evm.gas = s.evm.gas ∧ t.evm.reverted = s.evm.reverted := by
  have hrun : wp (executeWithContext (fuel + 1) sc) (fun ret t => ret = [] ∧ Stands t.ext W N L tx ∧
      t.evm.gas = s.evm.gas ∧ t.evm.reverted = s.evm.reverted) (fun _ _ => False)
      ⟨.withTracer s.exe.header (EventTracer.fork s.exe.tracer), s.evm, s.ext⟩ := by
    have hloop : ∀ t : Machine T, t.exe.ret = [] → Stands t.ext W N L tx → t.evm.gas = s.evm.gas →
        t.evm.reverted = s.evm.reverted → wp (executeLoop (fuel + 1) sc) (fun ret t => ret = [] ∧ Stands t.ext W N L tx ∧
          t.evm.gas = s.evm.gas ∧ t.evm.reverted = s.evm.reverted) (fun _ _ => False) t := by
      intro t hret ht hgas hrev
      simp only [executeLoop, turn, wp_bind, wp_get, currentInstruction_none hcode rfl, finishFrame, emitStop, hcode,
        List.isEmpty_nil, Bool.not_true, Bool.and_false, Bool.false_eq_true, if_false, wp_pure]
      exact ⟨hret, ht, hgas, hrev⟩
    simp only [executeWithContext, frameWith, enterFrame, wp_bind, wp_emit, wp_ite, wp_pure]
    refine ⟨fun _ => ⟨fun hdeep => by omega, fun _ => hloop _ rfl h rfl rfl⟩, fun _ => ?_⟩
    simp only [warmTouch, Ext.warmAddress, wp_bind, wp_onExt, wp_get, wp_set, wp_pure, wp_ite, wp_touch]
    have hwarm : Stands { s.ext with accessedAddresses := insert sc.call.from_ s.ext.accessedAddresses } W N L tx :=
      h.congr rfl rfl rfl
    exact ⟨fun _ => ⟨fun hdeep => by omega, fun _ => hloop _ rfl hwarm rfl rfl⟩,
      fun _ => ⟨fun hdeep => by omega, fun _ => hloop _ rfl hwarm rfl rfl⟩⟩
  obtain ⟨ret, t, hok, hret, hst, hgas, hrev⟩ := exists_ok hrun
  refine ⟨⟨{ s.exe with tracer := EventTracer.join s.exe.tracer t.exe.tracer t.evm.reverted }, t.evm, t.ext⟩, ?_, hst,
    rfl, hgas, hrev⟩
  rw [runTop, hok, hret]

/-! ## The sum of it -/

/-- What an account holds. -/
def worth (W : Address → Option Nat) (a : Address) : Nat := (W a).getD 0

omit [Crypto] in
theorem isSome_paid (W : Address → Option Nat) (a b : Address) (f : Nat → Nat) :
    (paid W a f b).isSome = (W b).isSome := by
  unfold paid
  by_cases h : b = a
  · subst h
    simp
  · simp [h]

omit [Crypto] in
theorem worth_paid {f : Nat → Nat} (h : (W a).isSome) (b : Address) :
    worth (paid W a f) b = if b = a then f (worth W a) else worth W b := by
  obtain ⟨n, hn⟩ := Option.isSome_iff_exists.1 h
  by_cases hb : b = a
  · subst hb
    simp [worth, paid, hn]
  · simp [worth, paid, hb]

/-- The accounts after the whole transaction. -/
def settled (W : Address → Option Nat) (tx : TxContext) (call : Call) (coinbase : Address) (fee tip : Nat) :
    Address → Option Nat :=
  paid (paid (prepaid W tx call) call.from_ (· + (call.gas.toNat * tx.gasPrice.toNat - fee))) coinbase (· + tip)

omit [Crypto] in
/-- The deltas add up, whichever of the three accounts coincide. -/
theorem worth_settled {call : Call} {coinbase : Address} {fee : Nat} (hf : (W call.from_).isSome)
    (ht : (W call.to_).isSome) (hc : (W coinbase).isSome)
    (hfunds : call.gas.toNat * tx.gasPrice.toNat + call.value.toNat ≤ worth W call.from_)
    (hfee : fee ≤ call.gas.toNat * tx.gasPrice.toNat) (tip : Nat) (a : Address) :
    worth (settled W tx call coinbase fee tip) a + (if a = call.from_ then call.value.toNat + fee else 0) =
      worth W a + (if a = call.to_ then call.value.toNat else 0) + (if a = coinbase then tip else 0) := by
  unfold settled prepaid
  generalize call.gas.toNat * tx.gasPrice.toNat = prepay at *
  generalize call.value.toNat = v at *
  generalize call.from_ = f at *
  generalize call.to_ = t at *
  simp only [worth_paid, isSome_paid, hf, ht, hc]
  by_cases hat : a = t
  · subst hat
    by_cases haf : a = f
    · subst haf
      by_cases hac : a = coinbase
      · subst hac
        simp only [if_true]
        omega
      · simp only [if_true, hac, if_false]
        omega
    · by_cases hac : a = coinbase
      · subst hac
        simp only [if_true, haf, if_false]
        omega
      · simp only [if_true, haf, hac, if_false]
  · by_cases haf : a = f
    · subst haf
      by_cases hac : a = coinbase
      · subst hac
        simp only [if_true, hat, if_false]
        omega
      · simp only [if_true, hat, hac, if_false]
        omega
    · by_cases hac : a = coinbase
      · subst hac
        simp only [if_true, hat, haf, if_false]
        omega
      · simp only [hat, haf, hac, if_false]

/-- The total supply. -/
def Ext.supply (e : Ext) : Nat := ∑ a, e.funds a

theorem Ext.funds_add_le_supply (e : Ext) {a b : Address} (h : a ≠ b) : e.funds a + e.funds b ≤ e.supply := by
  rw [← Finset.sum_pair h]
  exact Finset.sum_le_sum_of_subset (Finset.subset_univ _)

theorem Ext.funds_lt (e : Ext) (a : Address) : e.funds a < 2 ^ 256 := ((e.balanceOf a).getD 0).isLt

theorem Stands.funds (h : Stands e W N L tx) (a : Address) : e.funds a = worth W a := by
  rw [Ext.funds, worth, ← h.balances]
  cases e.balanceOf a <;> rfl

/-! ## The verdict -/

omit [Crypto] in
theorem accessListCost_nonneg (tx : TxContext) : 0 ≤ tx.accessListCost := by
  have hfold : ∀ (items : List AccessListItem) (c : Int), 0 ≤ c →
      0 ≤ items.foldl (fun cost item => cost + 2400 + 1900 * (item.storageKeys.length : Int)) c := by
    intro items
    induction items with
    | nil => exact fun _ h => h
    | cons item items ih => exact fun c h => ih _ (by dsimp only; omega)
  exact hfold _ 0 le_rfl

omit [Crypto] in
theorem dataCost_nonneg (data : Bytes) : 0 ≤ dataCost data := by
  have hle : (data.filter (· ≠ 0)).length ≤ data.length := List.length_filter_le _ _
  simp only [dataCost]
  omega

/-- The gas of a transaction that runs no code: its intrinsic gas, or the floor. -/
def plainGas (tx : TxContext) (call : Call) : Nat :=
  (max (callCost + dataCost call.data + tx.accessListCost) (gasFloor call.data)).toNat

omit [Crypto] in
theorem gasFinal_plain {tx : TxContext} {call : Call} {ret : Bytes} {evm : Evm} (hto : call.to_ ≠ 0)
    (hused : evm.gas.used = 0) (hrefund : evm.gas.refund = 0) (hrev : evm.reverted = false) :
    gasFinal tx call (dataCost call.data) ret evm = (plainGas tx call : Int) := by
  have haccess := accessListCost_nonneg tx
  have hdata := dataCost_nonneg call.data
  have hcall : callCost = 21000 := rfl
  have hcosts : 0 ≤ callCost + dataCost call.data + tx.accessListCost := by omega
  have hfinal : evm.gas.finalized (callCost + dataCost call.data + tx.accessListCost) evm.reverted =
      callCost + dataCost call.data + tx.accessListCost := by
    have hfifth : 0 ≤ (callCost + dataCost call.data + tx.accessListCost).tdiv 5 := Int.tdiv_nonneg hcosts (by decide)
    simp only [Gas.finalized, hrev, hused, hrefund, Bool.false_eq_true, if_false, zero_add]
    omega
  rw [gasFinal, gasCosts, if_pos hto, hfinal, plainGas]
  omega

variable [EventTracer T]

/-- A transaction to an account without code, within the sender's means. -/
structure Payable (code : Bytecode) (call : Call) (price : Word) (s : Machine T) : Prop where
  recipient : call.to_ ≠ 0
  code : code = decode []
  coinbase : s.exe.header.miner ≠ 0
  live : s.evm.reverted = false
  readable : ∀ a, a = call.from_ ∨ a = call.to_ ∨ a = s.exe.header.miner → (s.ext.balanceOf a).isSome
  funds : call.gas.toNat * s.ext.txCtx.gasPrice.toNat + call.value.toNat ≤ s.ext.funds call.from_
  priced : effectiveGasPrice s.ext.txCtx s.exe.header.baseFee = .ok price
  affordable : price.toNat ≤ s.ext.txCtx.gasPrice.toNat
  limit : call.gas.toNat < 2 ^ 63
  covers : plainGas s.ext.txCtx call ≤ call.gas.toNat
  supply : s.ext.supply < 2 ^ 256

/-- Nothing on the way overflows. The first is the event of the value's credit: it shows what
    the sender has left after the prepayment, with the value added. -/
structure Settleable (call : Call) (s : Machine T) : Prop where
  event : call.value ≠ 0 →
    s.ext.funds call.from_ - call.gas.toNat * s.ext.txCtx.gasPrice.toNat + call.value.toNat < 2 ^ 256
  nonce : ∀ account, s.ext.account? call.from_ = some account → account.nonce.toNat < 2 ^ 64 - 1
  blob : ∃ fee, blobFee s.ext.txCtx s.exe.header = .ok fee

/-- The settlement at `gas`: what every account gains and loses, what is burned, and the `Fee`
    event. -/
structure FeeSettled (call : Call) (price : Word) (gas : Nat) (s t : Machine T) : Prop where
  balances : ∀ a, t.ext.funds a + (if a = call.from_ then call.value.toNat + gas * price.toNat else 0) =
    s.ext.funds a + (if a = call.to_ then call.value.toNat else 0) +
      (if a = s.exe.header.miner then gas * (price.toNat - s.exe.header.baseFee.toNat) else 0)
  supply : t.ext.supply + gas * min price.toNat s.exe.header.baseFee.toNat = s.ext.supply
  event : ∃ tracer, t.exe.tracer = EventTracer.push tracer
    ⟨.fee (BitVec.ofNat 256 gas) s.ext.txCtx.gasPrice (BitVec.ofNat 256 (gas * price.toNat)), 1, false⟩

omit [EventTracer T] in
theorem stands_start (e : Ext) : Stands e e.balances (fun a => (e.account? a).map (·.nonce)) [] e.txCtx :=
  ⟨fun _ => rfl, fun _ => rfl, fun _ h => (nomatch h), rfl⟩

theorem wp_settle_plain {call : Call} {n m : Nat} {price : Word} (p b : Word) (ret : Bytes) {s : Machine T}
    (hto : call.to_ ≠ 0) (h : Stands s.ext W N L tx) (hused : s.evm.gas.used = 0) (hrefund : s.evm.gas.refund = 0)
    (hrev : s.evm.reverted = false) (hw : W call.from_ = some n) (hcoinbase : s.exe.header.miner ≠ 0)
    (hprice : effectiveGasPrice tx s.exe.header.baseFee = .ok price) (hg : plainGas tx call < 2 ^ 256)
    (hfee : plainGas tx call * price.toNat ≤ p.toNat) (hroom : n + p.toNat < 2 ^ 256)
    (hm : paid W call.from_ (· + (p.toNat - plainGas tx call * price.toNat)) s.exe.header.miner = some m)
    (hcredit : m + plainGas tx call * (price.toNat - s.exe.header.baseFee.toNat) < 2 ^ 256) :
    wp (settle call p b (dataCost call.data) ret)
      (fun _ t => (∃ fee, blobFee tx s.exe.header = .ok fee) ∧
        (∃ L', Stands t.ext (paid (paid W call.from_ (· + (p.toNat - plainGas tx call * price.toNat))) s.exe.header.miner
          (· + plainGas tx call * (price.toNat - s.exe.header.baseFee.toNat))) N L' tx) ∧
        ∃ tracer, t.exe.tracer = EventTracer.push tracer ⟨.fee (BitVec.ofNat 256 (plainGas tx call)) tx.gasPrice
          (BitVec.ofNat 256 (plainGas tx call * price.toNat)), 1, false⟩)
      (fun _ _ => ¬∃ fee, blobFee tx s.exe.header = .ok fee) s := by
  have htx := h.txCtx
  simp only [settle, wp_bind, wp_get, undoReverted, hrev, Bool.false_eq_true, if_false, wp_pure, htx,
    gasFinal_plain hto hused hrefund hrev]
  refine wp_settleSender h hw hprice hg hfee hroom fun fee L₁ s₁ hfeeval hexe h₁ => ?_
  rw [← hexe] at hm hcredit hprice hcoinbase ⊢
  rw [wp_bind]
  refine wp_payCoinbase h₁ hcoinbase hm hprice hg hcredit (fun hblob L₂ s₂ h₂ => ?_) fun hblob _ _ => hblob
  simp only [ofI64_nat, wp_bind, wp_lift, wp_emit]
  refine ⟨fun w hw' => ⟨hblob, ⟨L₂, h₂⟩, s₂.exe.tracer, ?_⟩, fun _ hf => (by cases hf)⟩
  cases hw'
  rw [← hfeeval, BitVec.ofNat_toNat, BitVec.setWidth_eq]

/-- A prepared transaction has all its gas and has not failed. -/
theorem prepare_evm {code : Bytecode} {call : Call} {s t : Machine T} {prep : Word × Word × Int × Word}
    (h : prepare code call s = .ok prep t) (hrev : s.evm.reverted = false) :
    t.evm.gas.used = 0 ∧ t.evm.gas.refund = 0 ∧ t.evm.reverted = false := by
  obtain ⟨_, s₁, h₁, h⟩ := bind_ok h
  obtain ⟨_, s₂, h₂, h⟩ := bind_ok h
  obtain ⟨_, _, hget, h⟩ := bind_ok h
  cases hget
  obtain ⟨gas, -, h⟩ := bind_lift_ok h
  obtain ⟨_, s₃, h₃, h⟩ := bind_ok h
  obtain ⟨_, s₄, h₄, h⟩ := bind_ok h
  obtain ⟨_, s₅, h₅, h⟩ := bind_ok h
  obtain ⟨_, s₆, h₆, h⟩ := bind_ok h
  obtain ⟨_, s₇, h₇, h⟩ := bind_ok h
  cases h
  have hb₁ := (works_booking.prewarm call).ok h₁
  have hb₂ := (works_booking.prepayGas call).ok h₂
  have hb₃ := works_booking.listed.ok h₃
  have hb₅ := (works_booking.transferValue announces_booking call).ok h₅
  have hb₆ := (works_booking.bumpNonce announces_booking call.from_).ok h₆
  have hrev₃ : s₃.evm.reverted = false := by rw [hb₃.evm, hb₂.evm, hb₁.evm, hrev]
  cases h₄
  have hgas₆ : s₆.evm.gas = .new (gas - callCost - s₂.ext.txCtx.accessListCost - dataCost call.data) := by
    rw [hb₆.evm, hb₅.evm]
  have hrev₆ : s₆.evm.reverted = false := by rw [hb₆.evm, hb₅.evm]; exact hrev₃
  have hstop : wp (stopTransfer (decide (code.bytecode = [] ∧ call.data = [] ∧ call.to_ ≠ 0)) : M T Unit)
      (fun _ t => t.evm.gas = s₆.evm.gas ∧ t.evm.reverted = false) (fun _ _ => True) s₆ := by
    simp only [stopTransfer, wp_ite, wp_modify, wp_pure]
    exact ⟨fun _ => ⟨trivial, trivial⟩, fun _ => ⟨trivial, hrev₆⟩⟩
  obtain ⟨hgas, hrev'⟩ := (of_ok hstop h₇ :)
  rw [hgas, hgas₆]
  exact ⟨rfl, rfl, hrev'⟩

namespace Payable

variable {code : Bytecode} {call : Call} {price : Word} {s : Machine T}

omit [EventTracer T] in
/-- An account of the transaction, and what it holds. -/
theorem holds (hpay : Payable code call price s) {a : Address}
    (ha : a = call.from_ ∨ a = call.to_ ∨ a = s.exe.header.miner) :
    s.ext.balances a = some (s.ext.funds a) := by
  obtain ⟨b, hb⟩ := Option.isSome_iff_exists.1 (hpay.readable a ha)
  rw [Ext.balances, Ext.funds, hb]
  rfl

omit [EventTracer T] in
/-- The fee is within the prepayment. -/
theorem fee_le (hpay : Payable code call price s) :
    plainGas s.ext.txCtx call * price.toNat ≤ call.gas.toNat * s.ext.txCtx.gasPrice.toNat :=
  Nat.mul_le_mul hpay.covers hpay.affordable

omit [Crypto] [EventTracer T] in
theorem tip_le (call : Call) (price baseFee : Word) (tx : TxContext) :
    plainGas tx call * (price.toNat - baseFee.toNat) ≤ plainGas tx call * price.toNat :=
  Nat.mul_le_mul_left _ (Nat.sub_le _ _)

theorem prepares (hpay : Payable code call price s) {account : Account}
    (hacc : s.ext.account? call.from_ = some account) :
    wp (prepare code call) (fun prep t => Preparable call s.ext.txCtx (s.ext.funds call.from_) account.nonce ∧
        prep.1.toNat = call.gas.toNat * s.ext.txCtx.gasPrice.toNat ∧
        ∃ N' L', Stands t.ext (prepaid s.ext.balances s.ext.txCtx call) N' L' s.ext.txCtx)
      (fun _ _ => ¬Preparable call s.ext.txCtx (s.ext.funds call.from_) account.nonce) s := by
  have hnonce : (s.ext.account? call.from_).map (·.nonce) = some account.nonce := by rw [hacc, Option.map_some]
  have hlimit := hpay.limit
  refine wp_prepare hpay.recipient (stands_start s.ext) (hpay.holds (.inl rfl))
    (hpay.holds (.inr (.inl rfl))) hnonce hpay.funds
    (by omega) fun hne => ?_
  have hsum := s.ext.funds_add_le_supply hne
  have hsupply := hpay.supply
  have hfunds := hpay.funds
  omega

/-- A prepared transaction runs nothing and settles. -/
theorem settles (hpay : Payable code call price s) (fuel : Nat) {prep : Word × Word × Int × Word} {started : Machine T}
    {N' : Address → Option Word} {L' : List Address} (hprep : prepare code call s = .ok prep started)
    (hprepay : prep.1.toNat = call.gas.toNat * s.ext.txCtx.gasPrice.toNat)
    (hst : Stands started.ext (prepaid s.ext.balances s.ext.txCtx call) N' L' s.ext.txCtx) :
    ∃ ended, runTop (executeWithContext (fuel + 1)) (topScope code call prep.2.2.2) started = .ok [] ended ∧
      wp (settle call prep.1 prep.2.1 prep.2.2.1 [])
        (fun _ t => (∃ fee, blobFee s.ext.txCtx s.exe.header = .ok fee) ∧
          FeeSettled call price (plainGas s.ext.txCtx call) s t)
        (fun _ _ => ¬∃ fee, blobFee s.ext.txCtx s.exe.header = .ok fee) ended := by
  obtain ⟨hused, hrefund, hrev⟩ := prepare_evm hprep hpay.live
  have hcode : (topScope code call prep.2.2.2).code.instructions = [] := by
    rw [topScope, hpay.code]
    rfl
  have hdepth : (topScope code call prep.2.2.2).ctx.depth ≤ callDepthLimit := by
    show 1 ≤ callDepthLimit
    decide
  obtain ⟨ended, hrun, hended, hheader, hgas, hrev'⟩ := runTop_empty fuel hcode hdepth hst
  refine ⟨ended, hrun, ?_⟩
  have hhead : ended.exe.header = s.exe.header := hheader.trans ((outside_prepare code call).ok hprep).header
  have hfee := hpay.fee_le
  have htip := tip_le call price s.exe.header.baseFee s.ext.txCtx
  have hfunds := hpay.funds
  have hsupply := hpay.supply
  have hf : (s.ext.balances call.from_).isSome := by rw [hpay.holds (.inl rfl)]; rfl
  have ht : (s.ext.balances call.to_).isSome := by rw [hpay.holds (.inr (.inl rfl))]; rfl
  have hc : (s.ext.balances s.exe.header.miner).isSome := by rw [hpay.holds (.inr (.inr rfl))]; rfl
  have hworth : ∀ a, worth s.ext.balances a = s.ext.funds a := fun a => ((stands_start s.ext).funds a).symm
  have hdeltas := worth_settled hf ht hc (by rw [hworth]; exact hfunds) hfee
    (plainGas s.ext.txCtx call * (price.toNat - s.exe.header.baseFee.toNat))
  simp only [hworth] at hdeltas
  obtain ⟨n, hn⟩ : ∃ n, prepaid s.ext.balances s.ext.txCtx call call.from_ = some n := by
    rw [← Option.isSome_iff_exists, prepaid, isSome_paid, isSome_paid, isSome_paid]
    exact hf
  have hleft : n + call.gas.toNat * s.ext.txCtx.gasPrice.toNat ≤ s.ext.funds call.from_ := by
    have hval : worth (prepaid s.ext.balances s.ext.txCtx call) call.from_ = n := by rw [worth, hn, Option.getD_some]
    rw [← hval, prepaid]
    simp only [worth_paid, isSome_paid, hf, ht, hworth, if_true]
    rcases eq_or_ne call.from_ call.to_ with heq | hne
    · simp only [heq, if_true]
      rw [heq] at hfunds
      omega
    · simp only [hne, if_false]
      omega
  have hlt := s.ext.funds_lt call.from_
  obtain ⟨m, hm⟩ : ∃ m, paid (prepaid s.ext.balances s.ext.txCtx call) call.from_
      (· + (prep.1.toNat - plainGas s.ext.txCtx call * price.toNat)) s.exe.header.miner = some m := by
    rw [← Option.isSome_iff_exists, isSome_paid, prepaid, isSome_paid, isSome_paid, isSome_paid]
    exact hc
  have hcredit : m + plainGas s.ext.txCtx call * (price.toNat - s.exe.header.baseFee.toNat) < 2 ^ 256 := by
    have htotal := hdeltas s.exe.header.miner
    rw [settled, worth, paid, Function.update_self, ← hprepay, hm, Option.map_some, Option.getD_some, if_pos rfl] at htotal
    by_cases hmf : s.exe.header.miner = call.from_
    · rw [if_pos hmf, hmf] at htotal
      split at htotal <;> omega
    · have hsum := s.ext.funds_add_le_supply hmf
      rw [if_neg hmf] at htotal
      split at htotal <;> omega
  have hcovers := hpay.covers
  have hlimit := hpay.limit
  have hlast := wp_settle_plain prep.1 prep.2.1 [] hpay.recipient hended (by rw [hgas]; exact hused)
    (by rw [hgas]; exact hrefund) (by rw [hrev']; exact hrev) hn (by rw [hhead]; exact hpay.coinbase)
    (by rw [hhead]; exact hpay.priced) (by omega) (by omega) (by omega) (by rw [hhead]; exact hm)
    (by rw [hhead]; exact hcredit)
  rw [hhead] at hlast
  rw [prepare_dataCost hprep]
  refine wp_mono hlast (fun _ t h => ⟨h.1, ?_⟩) fun _ _ h => h
  obtain ⟨-, ⟨L, hst⟩, hevent⟩ := h
  rw [hprepay] at hst
  have hbalances : ∀ a, t.ext.funds a + (if a = call.from_ then call.value.toNat + plainGas s.ext.txCtx call * price.toNat
      else 0) = s.ext.funds a + (if a = call.to_ then call.value.toNat else 0) + (if a = s.exe.header.miner then
        plainGas s.ext.txCtx call * (price.toNat - s.exe.header.baseFee.toNat) else 0) := fun a => by
    rw [hst.funds]
    exact hdeltas a
  refine ⟨hbalances, ?_, hevent⟩
  have hsum := Finset.sum_congr (rfl : (Finset.univ : Finset Address) = Finset.univ) fun a _ => hbalances a
  simp only [Finset.sum_add_distrib, Finset.sum_ite_eq', Finset.mem_univ, if_true] at hsum
  have hmin : price.toNat - s.exe.header.baseFee.toNat + min price.toNat s.exe.header.baseFee.toNat = price.toNat := by
    omega
  have hburned : plainGas s.ext.txCtx call * price.toNat =
      plainGas s.ext.txCtx call * (price.toNat - s.exe.header.baseFee.toNat) +
        plainGas s.ext.txCtx call * min price.toNat s.exe.header.baseFee.toNat := by rw [← Nat.mul_add, hmin]
  simp only [Ext.supply]
  omega

end Payable

/-- A transaction to an account without code is settled exactly, whichever of sender,
    recipient and coinbase coincide, if and only if nothing on the way overflows. -/
theorem fee_settlement {fuel : Nat} {code : Bytecode} {call : Call} {price : Word} {s : Machine T}
    (hpay : Payable code call price s) :
    (∃ ret t, execute (fuel + 1) code call s = .ok ret t ∧
      FeeSettled call price (plainGas s.ext.txCtx call) s t) ↔ Settleable call s := by
  obtain ⟨b, hb⟩ := Option.isSome_iff_exists.1 (hpay.readable call.from_ (.inl rfl))
  obtain ⟨account, hacc, -⟩ := Option.map_eq_some_iff.1 hb
  have hprep := hpay.prepares hacc
  constructor
  · rintro ⟨ret, t, hrun, -⟩
    obtain ⟨prep, started, ended, hphases⟩ := execute_ok hrun
    obtain ⟨hable, hprepay, N', L', hst⟩ := (wp_of_ok hphases.prepares).1 hprep
    obtain ⟨ended', hrun', hsettle⟩ := hpay.settles fuel hphases.prepares hprepay hst
    have hruns := hphases.runs
    rw [hrun'] at hruns
    cases hruns
    obtain ⟨hblob, -⟩ := (wp_of_ok hphases.settles).1 hsettle
    refine ⟨hable.event, fun account' h => ?_, hblob⟩
    rw [hacc] at h
    cases h
    exact hable.nonce
  · intro hset
    have hable : Preparable call s.ext.txCtx (s.ext.funds call.from_) account.nonce :=
      ⟨hset.event, hset.nonce account hacc⟩
    obtain ⟨prep, started, hok, -, hprepay, N', L', hst⟩ := exists_ok (wp_mono hprep (fun _ _ h => h)
      fun _ _ hnot => hnot hable)
    obtain ⟨ended, hrun, hsettle⟩ := hpay.settles fuel hok hprepay hst
    obtain ⟨_, t, hsettled, -, hfees⟩ := exists_ok (wp_mono hsettle (fun _ _ h => h) fun _ _ hnot => hnot hset.blob)
    refine ⟨[], t, ?_, hfees⟩
    obtain ⟨p, b', d, nonce⟩ := prep
    simp only [execute, bind, EStateM.bind, hok, hrun, hsettled]
    rfl

end

/-! ## Concrete transactions -/

namespace Sample

/-- 0xca holds `b` and 0xaa nothing; 0xca is the coinbase. -/
def payment (b gasPrice : Word) : Machine NoopTracer :=
  { machine [(0xca, b, []), (0xaa, 0, [])] with
    exe := .withTracer { miner := 0xca } ⟨⟩
    ext.txCtx := { gasPrice } }

theorem account?_payment (b gasPrice : Word) (a : Address) : (payment b gasPrice).ext.account? a =
    if a = 0xaa then some { value := 0 } else if a = 0xca then some { value := b } else none := by
  unfold Ext.account?
  simp only [payment, machine, List.foldl_cons, List.foldl_nil]
  by_cases ha : a = 0xaa
  · subst ha
    rw [Finmap.lookup_insert]
    rfl
  · rw [Finmap.lookup_insert_of_ne _ ha, if_neg ha]
    by_cases hc : a = 0xca
    · subst hc
      rw [Finmap.lookup_insert]
      rfl
    · rw [Finmap.lookup_insert_of_ne _ hc, if_neg hc, Finmap.lookup_empty]
      rfl

theorem funds_payment (b gasPrice : Word) (a : Address) :
    (payment b gasPrice).ext.funds a = if a = 0xca then b.toNat else 0 := by
  rw [Ext.funds, Ext.balanceOf, account?_payment]
  by_cases hc : a = 0xca
  · subst hc
    rfl
  · by_cases ha : a = 0xaa
    · subst ha
      rfl
    · rw [if_neg ha, if_neg hc, if_neg hc]
      rfl

theorem supply_payment (b gasPrice : Word) : (payment b gasPrice).ext.supply = b.toNat := by
  simp only [Ext.supply, funds_payment, Finset.sum_ite_eq', Finset.mem_univ, if_true]

theorem payable_payment {b gasPrice : Word} (call : Call) (hto : call.to_ = 0xaa ∨ call.to_ = 0xca)
    (hfrom : call.from_ = 0xca) (hfunds : call.gas.toNat * gasPrice.toNat + call.value.toNat ≤ b.toNat)
    (hlimit : call.gas.toNat < 2 ^ 63) (hcovers : plainGas { gasPrice } call ≤ call.gas.toNat) :
    Payable (decode []) call gasPrice (payment b gasPrice) where
  recipient := by rcases hto with h | h <;> rw [h] <;> decide
  code := rfl
  coinbase := by
    show (0xca : Address) ≠ 0
    decide
  live := rfl
  readable a ha := by
    have ha : a = 0xaa ∨ a = 0xca := by
      rcases ha with h | h | h
      · exact .inr (h.trans hfrom)
      · exact hto.imp h.trans h.trans
      · exact .inr h
    rw [Ext.balanceOf, account?_payment]
    rcases ha with rfl | rfl <;> rfl
  funds := by
    rw [funds_payment, hfrom, if_pos rfl]
    exact hfunds
  priced := rfl
  affordable := le_rfl
  limit := hlimit
  covers := hcovers
  supply := by
    rw [supply_payment]
    exact b.isLt

end Sample

open Sample

/-- The sender pays itself, and mines its own transaction. -/
theorem fee_settlement_self : ∃ ret t,
    execute 1 (decode []) { value := 7, from_ := 0xca, to_ := 0xca, gas := 30000 } (payment 1000000 2) = .ok ret t ∧
      FeeSettled { value := 7, from_ := 0xca, to_ := 0xca, gas := 30000 } 2 21000 (payment 1000000 2) t := by
  have hpay : Payable _ _ 2 (payment 1000000 2) :=
    payable_payment { value := 7, from_ := 0xca, to_ := 0xca, gas := 30000 } (.inr rfl) rfl (by decide) (by decide)
      (by decide)
  refine (fee_settlement hpay).2 ⟨fun _ => ?_, fun account h => ?_, 0, rfl⟩
  · rw [funds_payment]
    decide
  · rw [account?_payment] at h
    cases h
    decide

/-- Half of all words: what the sender has, sent to 0xaa, aborts in the event of the credit. -/
theorem fee_settlement_overflows :
    Payable (decode []) { value := 2 ^ 255, from_ := 0xca, to_ := 0xaa, gas := 30000 } 0 (payment (2 ^ 255) 0) ∧
      ¬∃ ret t, execute 1 (decode []) { value := 2 ^ 255, from_ := 0xca, to_ := 0xaa, gas := 30000 } (payment (2 ^ 255) 0) =
        .ok ret t := by
  refine ⟨payable_payment _ (.inl rfl) rfl (by decide +kernel) (by decide) (by decide), ?_⟩
  rintro ⟨ret, t, h⟩
  have hnot : returns (execute 1 (decode []) { value := 2 ^ 255, from_ := 0xca, to_ := 0xaa, gas := 30000 }
      (payment (2 ^ 255) 0)) (fun _ _ => true) = false := by decide +kernel
  rw [h] at hnot
  cases hnot

end Solenoid
