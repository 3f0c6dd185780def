/-
  Solenoid.Journal — what an instruction can do to the part of the machine that outlives
  it: the accounts (`ext`), the frame's touch list and its logs (`Trail`).

  Every change is one of a few effects (`Effect`, `Act`), and a step has only the effects
  its opcode and operands allow (`Step.allows`). What an instruction does in between stays
  in `Within`: the registers are as they were and the stack keeps its bound.
-/
import Solenoid.Views
import Solenoid.History
import Mathlib.Logic.Relation

namespace Solenoid

open Hoare

/-! ## Effects -/

structure Trail where
  ext : Ext
  touches : List AccountTouch
  logs : List Log

def Machine.trail {T : Type} (s : Machine T) : Trail := ⟨s.ext, s.evm.touches, s.evm.logs⟩

inductive Effect where
  | warmAddress (a : Address)
  | warmStorage (a : Address) (key : Word)
  | load (a : Address)
  | fetch (a : Address) (key : Word)
  | note (τ : AccountTouch)
  | store (a : Address) (key val new : Word) (isWarm : Bool)
  | storeTransient (a : Address) (key val new : Word)
  | log (l : Log)
  | transfer (src dst : Address) (v : Word)
  | bump (a : Address)
  | mark (a : Address)
  | openAccount (a : Address)
  | destroy (src dst : Address)

/-- The effect reads: it changes no account, slot or log. -/
def Effect.isRead : Effect → Bool
  | warmAddress _ | warmStorage .. | load _ | fetch .. | note _ => true
  | _ => false

variable [Crypto]

inductive Act : Effect → Trail → Trail → Prop
  | warmAddress {t : Trail} {a : Address} (cold : a ∉ t.ext.accessedAddresses) :
      Act (.warmAddress a) t { t with
        ext.accessedAddresses := insert a t.ext.accessedAddresses, touches := t.touches ++ [.warmUp a] }
  | warmStorage {t : Trail} {a : Address} {key : Word} :
      Act (.warmStorage a key) t { t with ext.accessedStorage := insert (a, key) t.ext.accessedStorage }
  | load {t : Trail} {a : Address} {account : Account} {e : Ext} (h : Ext.pull a t.ext = .ok account e) :
      Act (.load a) t { t with ext := e }
  | fetch {t : Trail} {a : Address} {key val : Word} {e : Ext} (h : Ext.get a key t.ext = .ok val e) :
      Act (.fetch a key) t { t with ext := e }
  | note {t : Trail} {τ : AccountTouch} (h : τ.isReadOnly) : Act (.note τ) t { t with touches := t.touches ++ [τ] }
  /-- The old value in the touch is the one the slot held. -/
  | store {t : Trail} {a : Address} {key val new : Word} {isWarm : Bool} {e : Ext}
      (get : Ext.get a key t.ext = .ok val e) :
      Act (.store a key val new isWarm) t
        { t with ext := e.written a key new, touches := t.touches ++ [.setState a key val new isWarm] }
  | storeTransient {t : Trail} {a : Address} {key new : Word} :
      Act (.storeTransient a key ((t.ext.transient.lookup (a, key)).getD 0) new) t { t with
        ext.transient := t.ext.transient.insert (a, key) new
        touches := t.touches ++ [.setTransientState a key ((t.ext.transient.lookup (a, key)).getD 0) new] }
  | log {t : Trail} {l : Log} : Act (.log l) t { t with logs := t.logs ++ [l] }
  | transfer {t : Trail} {src dst : Address} {v : Word} {a b : Account} (hs : t.ext.state.lookup src = some a)
      (hd : t.ext.state.lookup dst = some b) (funds : v.toNat ≤ a.value.toNat)
      (room : b.value.toNat + v.toNat < 2 ^ 256) :
      Act (.transfer src dst v) t { t with
        ext := (t.ext.setValue src (a.value - v)).setValue dst (b.value + v)
        touches := t.touches ++ [.setValue src a.value (a.value - v), .setValue dst b.value (b.value + v)] }
  | bump {t : Trail} {addr : Address} {a : Account} (ha : t.ext.state.lookup addr = some a)
      (room : a.nonce.toNat + 1 < 2 ^ 64) :
      Act (.bump addr) t { t with
        ext := t.ext.setNonce addr (a.nonce + 1)
        touches := t.touches ++ [.setNonce addr a.nonce.toNat (a.nonce.toNat + 1)] }
  | mark {t : Trail} {a : Address} : Act (.mark a) t { t with ext.createdAccounts := t.ext.createdAccounts ++ [a] }
  | openAccount {t : Trail} {a : Address} :
      Act (.openAccount a) t { t with ext.state := t.ext.state.insert a (t.ext.orDefault a) }
  /-- Both balances change, and no touch says so. -/
  | destroy {t : Trail} {src dst : Address} {a b : Account} (hs : t.ext.state.lookup src = some a)
      (hd : (t.ext.setValue src 0).state.lookup dst = some b)
      (room : b.value.toNat + a.value.toNat < 2 ^ 256) :
      Act (.destroy src dst) t { t with
        ext := ((t.ext.setValue src 0).setValue dst (b.value + a.value)).markDestroyed src }

/-- A chain of effects, each allowed. -/
def Acts (P : Effect → Prop) : Trail → Trail → Prop := Relation.ReflTransGen fun t u => ∃ e, P e ∧ Act e t u

namespace Acts

variable {P Q : Effect → Prop} {t u v : Trail}

theorem refl (P : Effect → Prop) (t : Trail) : Acts P t t := Relation.ReflTransGen.refl

theorem trans (h : Acts P t u) (h' : Acts P u v) : Acts P t v := Relation.ReflTransGen.trans h h'

theorem one {e : Effect} (he : P e) (h : Act e t u) : Acts P t u := Relation.ReflTransGen.single ⟨e, he, h⟩

theorem mono (h : Acts P t u) (hPQ : ∀ e, P e → Q e) : Acts Q t u :=
  Relation.ReflTransGen.mono (fun _ _ ⟨e, he, ha⟩ => ⟨e, hPQ e he, ha⟩) _ _ h

/-- What every allowed effect keeps, a chain of them keeps. -/
theorem keep (R : Trail → Trail → Prop) (h : Acts P t u) (hr : ∀ t, R t t)
    (ht : ∀ {t u v}, R t u → R u v → R t v) (hs : ∀ {e t u}, P e → Act e t u → R t u) : R t u := by
  induction h with
  | refl => exact hr _
  | tail _ h ih =>
    obtain ⟨e, he, ha⟩ := h
    exact ht ih (hs he ha)

end Acts

/-! ## Accounts stay loaded -/

theorem Act.extends {e : Effect} {t u : Trail} (h : Act e t u) : t.ext.Extends u.ext := by
  cases h with
  | warmAddress | warmStorage | note | storeTransient | log | mark => exact ⟨fun _ h => h, rfl⟩
  | load h => exact (Ext.pulled h).extends
  | fetch h => exact Ext.get_extends h
  | store h => exact (Ext.get_extends h).trans (Ext.extends_written _ _ _ _)
  | transfer => exact (Ext.extends_mutate _ _ _).trans (Ext.extends_mutate _ _ _)
  | destroy =>
    exact ((Ext.extends_mutate _ _ _).trans (Ext.extends_mutate _ _ _)).trans (Ext.extends_markDestroyed _ _)
  | bump => exact Ext.extends_mutate _ _ _
  | openAccount => exact Ext.extends_insert _ _ _

theorem Acts.extends {P : Effect → Prop} {t u : Trail} (h : Acts P t u) : t.ext.Extends u.ext :=
  h.keep (fun t u => t.ext.Extends u.ext) (fun _ => .refl _) .trans fun _ h => h.extends

/-! ## What a step may do -/

namespace Step

variable {T : Type}

def allows (x : Step T) : Effect → Prop
  | .store a .. => x.op = .sstore ∧ x.scope.ctx.isStaticCall = false ∧ a = x.this
  | .storeTransient a .. => x.op = .tstore ∧ x.has 2 ∧ 100 ≤ x.before.evm.gas.remaining ∧ a = x.this
  | .log _ => x.op = .log ∧ x.has 2 ∧ x.scope.ctx.callType ≠ .static
  | .transfer src dst v =>
    (x.op = .call ∨ x.op = .callcode) ∧ x.has 7 ∧ v = x.value ∧ v ≠ 0 ∧ src = x.this ∧ dst = x.target ∧ src ≠ dst
  | .bump a => x.isCreation ∧ x.has 3 ∧ x.scope.ctx.callType ≠ .static ∧ a = x.this
  | .mark _ | .openAccount _ => x.isCreation ∧ x.has 3 ∧ x.scope.ctx.callType ≠ .static
  | .destroy src dst => x.op = .selfdestruct ∧ x.has 1 ∧ x.scope.ctx.callType ≠ .static ∧ src = x.this ∧
      dst = .ofWord (x.operand 0)
  | _ => True

omit [Crypto] in
theorem allows_read (x : Step T) {e : Effect} (h : e.isRead) : x.allows e := by
  cases e <;> first | exact trivial | cases h

end Step

/-! ## What an instruction leaves alone -/

/-- What only the frame's own bookkeeping changes. -/
structure Regs where
  header : Header
  ret : Bytes
  limit : Int
  used : Int
  stopped : Bool
  reverted : Bool

variable {T : Type}

omit [Crypto] in
def Machine.regs (s : Machine T) : Regs :=
  ⟨s.exe.header, s.exe.ret, s.evm.gas.limit, s.evm.gas.used, s.evm.stopped, s.evm.reverted⟩

/-- From `s` to `t` the trail changed by effects in `P`, and otherwise only what the frame
    keeps for itself. -/
structure Within (P : Effect → Prop) (s t : Machine T) : Prop where
  trail : Acts P s.trail t.trail
  regs : t.regs = s.regs
  stack : s.evm.stack.length ≤ stackLimit → t.evm.stack.length ≤ stackLimit

/-- What a failed instruction leaves: its frame is over, so only what outlives it counts. -/
structure Failed (P : Effect → Prop) (s t : Machine T) : Prop where
  trail : Acts P s.trail t.trail
  header : t.exe.header = s.exe.header
  limit : t.evm.gas.limit = s.evm.gas.limit

namespace Within

variable {P Q : Effect → Prop} {s t u : Machine T}

theorem refl (P : Effect → Prop) (s : Machine T) : Within P s s := ⟨.refl P _, rfl, id⟩

theorem trans (h : Within P s t) (h' : Within P t u) : Within P s u :=
  ⟨h.trail.trans h'.trail, h'.regs.trans h.regs, fun hs => h'.stack (h.stack hs)⟩

theorem failed (h : Within P s t) (h' : Failed P t u) : Failed P s u := by
  have hr : t.regs = s.regs := h.regs
  simp only [Machine.regs, Regs.mk.injEq] at hr
  obtain ⟨hheader, -, hlimit, -, -, -⟩ := hr
  exact ⟨h.trail.trans h'.trail, h'.header.trans hheader, h'.limit.trans hlimit⟩

end Within

theorem Failed.mono {P Q : Effect → Prop} {s t : Machine T} (h : Failed P s t) (hPQ : ∀ e, P e → Q e) : Failed Q s t :=
  ⟨h.trail.mono hPQ, h.header, h.limit⟩

/-- The frame of the instructions that leave the registers alone. After a panic nothing is
    promised. -/
def within (P : Effect → Prop) : Frame Fault (Machine T) where
  ok := Within P
  err f s t := ∀ r, f = .report r → Failed P s t
  refl := Within.refl P
  trans := Within.trans
  fail h h' r hr := h.failed (h' r hr)

end Solenoid
