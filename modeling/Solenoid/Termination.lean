/-
  Solenoid.Termination — the bound of the recursion is never reached.

  Nothing but the recursion's own bound gives `Fault.fuel` (`definite`, the frame of what
  does not). Every instruction that leaves its frame running takes gas, and a frame gets
  less than its caller has left; so a bound above the gas is enough at every depth.
-/
import Solenoid.Turns

namespace Solenoid

open Hoare

variable {T α β : Type}

/-! ## Results that are no lack of fuel -/

def Definite (e : Except Fault α) : Prop := e ≠ .error .fuel

namespace Definite

theorem ok (a : α) : Definite (.ok a : Except Fault α) := nofun

theorem panic (why : String) : Definite (Solenoid.panic why : Except Fault α) := nofun

theorem bail (r : Report) : Definite (Solenoid.bail r : Except Fault α) := nofun

theorem bind {e : Except Fault α} {f : α → Except Fault β} (h : Definite e) (hf : ∀ a, Definite (f a)) :
    Definite (e >>= f) := by
  cases e with
  | ok a => exact hf a
  | error f =>
    intro he
    cases he
    exact h rfl

theorem ite {c : Prop} [Decidable c] {e e' : Except Fault α} (h : Definite e) (h' : Definite e') :
    Definite (if c then e else e') := by
  split
  · exact h
  · exact h'

theorem mapM {f : α → Except Fault β} (hf : ∀ a, Definite (f a)) : ∀ l : List α, Definite (l.mapM f)
  | [] => ok _
  | a :: l => by
    rw [List.mapM_cons]
    exact (hf a).bind fun _ => (mapM hf l).bind fun _ => ok _

end Definite

theorem definite_asUsize (w : Word) : Definite w.asUsize := .ite (.ok _) (.panic _)

theorem definite_asU64 (w : Word) : Definite w.asU64 := .ite (.ok _) (.panic _)

theorem definite_addUsize (a b : Nat) : Definite (addUsize a b) := .ite (.ok _) (.panic _)

theorem definite_checkI64 (x : Int) : Definite (checkI64 x) := .ite (.ok _) (.panic _)

theorem definite_resize (b : Bytes) (n : Nat) : Definite (resize b n) := .ite (.ok _) (.panic _)

theorem definite_slice (b : Bytes) (start till : Nat) : Definite (slice b start till) := .ite (.ok _) (.panic _)

theorem definite_copyFromSlice (b : Bytes) (start : Nat) (data : Bytes) : Definite (copyFromSlice b start data) :=
  .ite (.ok _) (.panic _)

theorem definite_rangeEnd (offset size : Nat) : Definite (rangeEnd offset size) := .ite (definite_addUsize _ _) (.ok _)

theorem definite_add (a b : Word) : Definite (Word.add a b) := .ite (.ok _) (.panic _)

theorem definite_sub (a b : Word) : Definite (Word.sub a b) := .ite (.ok _) (.panic _)

theorem definite_answer (o : Option α) : Definite (answer o) := by
  cases o with
  | none => exact .bail _
  | some a => exact .ok a

theorem definite_logGas (n size : Nat) : Definite (logGas n size) :=
  (definite_checkI64 _).bind fun _ => (definite_checkI64 _).bind fun _ => definite_checkI64 _

theorem definite_bit (w : Word) (index : Nat) : Definite (w.bit index) := .ite (.ok _) (.panic _)

theorem definite_signextend (x : Nat) (b : Word) : Definite (signextend x b) :=
  (definite_addUsize x 1).bind fun _ => .ite (.panic _) <| (definite_bit _ _).bind fun _ => .ok _

theorem definite_signedShr (a : Word) (n : Nat) : Definite (a.signedShr n) := .ite (.ok _) (.panic _)

theorem definite_signedRem (a b : Word) : Definite (Word.signedRem a b) := .ite (.panic _) (.ok _)

theorem definite_rem512 (a b : Nat) : Definite (Word.rem512 a b) := .ite (.panic _) (.ok _)

theorem definite_mulModulo (a b m : Word) : Definite (Word.mulModulo a b m) :=
  (definite_rem512 _ _).bind fun _ => .ok _

theorem definite_addModulo (a b m : Word) : Definite (Word.addModulo a b m) := by
  have hsum : Definite (Word.add512 (a.fullMul 1) (b.fullMul 1)) := .ite (.ok _) (.panic _)
  exact hsum.bind fun _ => (definite_rem512 _ _).bind fun _ => .ok _

namespace Precompiles

variable [Crypto]

omit [Crypto] in
theorem definite_normalize (s recoveryId : Nat) : Definite (normalize s recoveryId) :=
  .ite (.ite (.panic _) (.ok _)) (.ok _)

theorem definite_ecrecover (input : Bytes) : Definite (ecrecover input) := by
  refine .ite (.ok _) <| .ite (.ok _) <| (definite_normalize _ _).bind fun _ => .ite (.bail _) ?_
  split
  · exact .bail _
  · exact .ok _

omit [Crypto] in
theorem definite_modexp (input : Bytes) : Definite (modexp input) :=
  .ite (.ok _) <| .ite (.bail _) <| .ite (.ok _) <| .ite (.ok _) (.ok _)

omit [Crypto] in
theorem definite_g1Point (x y : Nat) : Definite (g1Point x y) := .ite (.ok _) <| .ite (.ok _) (.panic _)

theorem definite_g2Point (x y : Nat × Nat) : Definite (g2Point x y) := .ite (.ok _) <| .ite (.ok _) (.panic _)

theorem definite_bn128Pairing (input : Bytes) : Definite (bn128Pairing input) := by
  refine .ite (.bail _) ?_
  refine (Definite.mapM (fun _ => (definite_g1Point _ _).bind fun _ => (definite_g2Point _ _).bind fun _ =>
    .ok _) _).bind fun _ => ?_
  exact .ite (.ok _) (.ok _)

theorem definite_kzgPointEvaluation (input : Bytes) : Definite (kzgPointEvaluation input) := by
  refine .ite (.bail _) ?_
  split
  · exact .bail _
  · exact .bail _
  · exact .ok _

theorem definite_execute (address : Address) (input : Bytes) : Definite (execute address input) := by
  refine .ite (.ite (.ok _) (.ite (.ok _) (.ok _))) ?_
  split
  · exact definite_ecrecover input
  · exact .ok _
  · exact .ok _
  · exact .ok _
  · exact definite_modexp input
  · exact (definite_g1Point _ _).bind fun _ => (definite_g1Point _ _).bind fun _ => .ok _
  · exact (definite_g1Point _ _).bind fun _ => .ok _
  · exact definite_bn128Pairing input
  · exact .ite (.bail _) (.ok _)
  · exact definite_kzgPointEvaluation input
  · exact .bail _

end Precompiles

theorem definite_fakeExponentialLoop (factor denominator output numerator i : Nat) :
    Definite (fakeExponentialLoop factor denominator output numerator i) := by
  induction output, numerator, i using fakeExponentialLoop.induct factor denominator with
  | case1 output i =>
    rw [fakeExponentialLoop, if_pos rfl]
    exact .ok _
  | case2 output numerator i hn hlt =>
    rw [fakeExponentialLoop, if_neg hn, if_pos hlt]
    exact .panic _
  | case3 output numerator i hn hle hlt =>
    rw [fakeExponentialLoop, if_neg hn, if_neg hle, if_pos hlt]
    exact .panic _
  | case4 output numerator i hn hle hroom ih =>
    rw [fakeExponentialLoop, if_neg hn, if_neg hle, if_neg hroom]
    exact ih

theorem definite_blobGasPrice (h : Header) : Definite h.blobGasPrice := by
  refine .ite (.ok _) ?_
  refine (definite_asU64 _).bind fun _ => ?_
  refine (definite_fakeExponentialLoop _ _ _ _ _).bind fun _ => ?_
  exact .ok _

/-! ## Computations that do not lack fuel -/

def definite (σ : Type) : Frame Fault σ where
  ok _ _ := True
  err f _ _ := f ≠ .fuel
  refl _ := trivial
  trans _ _ := trivial
  fail _ h := h

section Primitives

theorem definite_lift {σ : Type} {e : Except Fault α} (h : Definite e) : Keeps (definite σ) (lift e : Run σ α) := fun _ =>
  (wp_lift e).2 ⟨fun _ _ => trivial, fun f hf => by rintro rfl; exact h hf⟩

theorem definite_modify {σ : Type} (f : σ → σ) : Keeps (definite σ) (modify f : Run σ Unit) := .modify fun _ => trivial

theorem definite_refuse (r : Report) : Keeps (definite (Machine T)) (refuse r : M T α) := .throw fun _ => nofun

theorem definite_onEvm {m : Run Evm α} (h : Keeps (definite Evm) m) : Keeps (definite (Machine T)) (onEvm m : M T α) :=
  fun s => (wp_onEvm m).2 (h s.evm)

theorem definite_onExt {m : Run Ext α} (h : Keeps (definite Ext) m) : Keeps (definite (Machine T)) (onExt m : M T α) :=
  fun s => (wp_onExt m).2 (h s.ext)

theorem definite_error (r : Report) : Keeps (definite Evm) (Evm.error r : Run Evm α) :=
  (definite_modify _).bind fun _ => .throw fun _ => nofun

theorem definite_push (v : Word) : Keeps (definite (Machine T)) (push v : M T Unit) := fun _ =>
  (wp_push v).2 ⟨fun _ => trivial, fun _ => nofun⟩

theorem definite_pop : Keeps (definite (Machine T)) (pop : M T Word) := fun _ =>
  wp_pop.2 ⟨fun _ _ _ => trivial, fun _ => nofun⟩

theorem definite_popUsize : Keeps (definite (Machine T)) (popUsize : M T Nat) :=
  definite_pop.bind fun _ => definite_lift (definite_asUsize _)

theorem definite_peek1 : Keeps (definite Evm) Evm.peek1 := Keeps.get.bind fun e => by
  cases e.stack with
  | nil => exact definite_error _
  | cons a rest => exact .pure _

theorem definite_peek2 : Keeps (definite Evm) Evm.peek2 := Keeps.get.bind fun e => by
  split
  · exact .pure _
  · exact definite_error _

theorem definite_takeGas (cost : Int) : Keeps (definite (Machine T)) (takeGas cost : M T Unit) := by
  apply definite_onEvm
  refine Keeps.get.bind fun _ => ?_
  refine (definite_modify _).bind fun _ => ?_
  exact .ite (fun _ => .pure _) fun _ => definite_error _

theorem definite_memoryExpansionCost : Keeps (definite (Machine T)) (memoryExpansionCost : M T Int) := by
  apply definite_onEvm
  refine Keeps.get.bind fun _ => ?_
  refine (definite_lift (definite_checkI64 _)).bind fun _ => ?_
  exact fun _ => (wp_bind _).2 (wp_set.2 ((wp_pure _).2 trivial))

theorem definite_touch (τ : AccountTouch) : Keeps (definite (Machine T)) (touch τ : M T Unit) := definite_modify _

theorem definite_setRet (ret : Bytes) : Keeps (definite (Machine T)) (setRet ret : M T Unit) := definite_modify _

theorem definite_emit [EventTracer T] (depth : Nat) (reverted : Bool) (data : EventData) :
    Keeps (definite (Machine T)) (emit depth reverted data : M T Unit) := definite_modify _

theorem definite_growTo (till : Nat) : Keeps (definite (Machine T)) (growTo till : M T Unit) :=
  Keeps.get.bind fun _ => (definite_lift (definite_resize _ _)).bind fun _ => definite_modify _

theorem definite_expandTo (till : Nat) : Keeps (definite (Machine T)) (expandTo till : M T Unit) :=
  Keeps.get.bind fun _ => .ite (fun _ => .ite (fun _ => definite_refuse _) fun _ => definite_growTo _) fun _ => .pure _

theorem definite_readMemory (start till : Nat) : Keeps (definite (Machine T)) (readMemory start till : M T Bytes) :=
  Keeps.get.bind fun _ => definite_lift (definite_slice _ _ _)

theorem definite_writeMemory (start : Nat) (data : Bytes) :
    Keeps (definite (Machine T)) (writeMemory start data : M T Unit) := by
  refine Keeps.get.bind fun _ => ?_
  refine (definite_lift (definite_copyFromSlice _ _ _)).bind fun _ => ?_
  exact definite_modify _

theorem definite_next (gas : Int) : Keeps (definite (Machine T)) (next gas : M T StepResult) :=
  (definite_modify _).bind fun _ => .pure _

theorem definite_charged {gas : Int} {k : M T StepResult} (h : Keeps (definite (Machine T)) k) :
    Keeps (definite (Machine T)) (charged gas k) := fun s =>
  (wp_charged gas k).2 ⟨fun _ => trivial, fun _ => h s⟩

end Primitives

/-! ### The accounts -/

section Accounts

theorem definite_accountMut (addr : Address) (f : Account → Account) : Keeps (definite Ext) (Ext.accountMut addr f) :=
  fun _ => (Ext.wp_accountMut f).2 ⟨fun _ => trivial, fun _ => nofun⟩

theorem definite_credit (addr : Address) (amount : Word) : Keeps (definite Ext) (Ext.credit addr amount) := by
  refine Keeps.bind (fun _ => wp_estate_get.2 trivial) fun e => ?_
  split
  · exact (definite_lift (definite_add _ _)).bind fun _ _ => wp_set.2 trivial
  · exact .throw fun _ => nofun

theorem definite_warmAddress (address : Address) : Keeps (definite Ext) (Ext.warmAddress address) :=
  Keeps.get.bind fun _ _ => (wp_bind _).2 (wp_set.2 ((wp_pure _).2 trivial))

theorem definite_warmTouch (address : Address) : Keeps (definite (Machine T)) (warmTouch address : M T Unit) :=
  (definite_onExt (definite_warmAddress address)).bind fun _ =>
    .ite (fun _ => definite_touch _) fun _ => .pure _

theorem definite_addressAccessCost (address : Address) :
    Keeps (definite (Machine T)) (addressAccessCost address : M T Int) := by
  refine .ite (fun _ => .pure _) fun _ => ?_
  refine (definite_onExt (definite_warmAddress address)).bind fun _ => ?_
  exact .ite (fun _ => (definite_touch _).bind fun _ => .pure _) fun _ => .pure _

variable [Crypto]

theorem definite_pull (addr : Address) : Keeps (definite Ext) (Ext.pull addr) := Keeps.get.bind fun e => by
  split
  · exact .pure _
  · split
    · refine (definite_lift (definite_answer _)).bind fun _ => ?_
      refine (definite_lift (definite_answer _)).bind fun _ => ?_
      refine (definite_lift (definite_answer _)).bind fun _ _ => ?_
      exact (wp_bind _).2 (wp_set.2 ((wp_pure _).2 trivial))
    · exact .throw fun _ => nofun

theorem definite_account {f : Account → α} (addr : Address) :
    Keeps (definite (Machine T)) (onExt (do return f (← Ext.pull addr)) : M T α) :=
  definite_onExt <| (definite_pull addr).bind fun _ => .pure _

theorem definite_isEmpty (addr : Address) : Keeps (definite (Machine T)) (onExt (Ext.isEmpty addr) : M T Bool) := by
  apply definite_onExt
  refine ((definite_pull addr).bind fun _ => .pure _).bind fun _ => ?_
  refine ((definite_pull addr).bind fun _ => .pure _).bind fun _ => ?_
  refine ((definite_pull addr).bind fun _ => .pure _).bind fun _ => ?_
  exact .pure _

theorem definite_get (addr : Address) (key : Word) : Keeps (definite Ext) (Ext.get addr key) := by
  refine (definite_pull addr).bind fun account => Keeps.bind (fun _ => wp_estate_get.2 trivial) fun e => ?_
  split
  · exact fun _ => (wp_bind _).2 (wp_set.2 ((wp_pure _).2 trivial))
  · split
    · exact (definite_lift (definite_answer _)).bind fun _ _ => (wp_bind _).2 (wp_set.2 ((wp_pure _).2 trivial))
    · exact .pure _

theorem definite_put (addr : Address) (key val : Word) : Keeps (definite Ext) (Ext.put addr key val) :=
  (definite_modify _).bind fun _ => (definite_get addr key).bind fun _ => .pure _

omit [Crypto] in
theorem definite_orError {m : Run Ext α} (h : Keeps (definite Ext) m) :
    Keeps (definite (Machine T)) (orError m : M T α) := by
  intro s
  refine wp_def.2 ⟨fun _ _ _ => trivial, fun f t hf => ?_⟩
  unfold orError at hf
  split at hf
  · cases hf
  · next r _ _ =>
    have herr : Keeps (definite (Machine T)) (onEvm (Evm.error r) : M T α) := definite_onEvm (definite_error r)
    exact (herr.error hf :)
  · next he =>
    cases hf
    exact h.error he

theorem definite_touchCode (address : Address) : Keeps (definite (Machine T)) (touchCode address : M T (Bytes × Word)) :=
  (definite_account _).bind fun _ => (definite_touch _).bind fun _ => .pure _

end Accounts

/-! ### The instructions -/

section Arms

variable (sc : Scope) (instruction : Instruction)

theorem definite_pushing (gas : Int) {value : Machine T → Except Fault Word} (h : ∀ s, Definite (value s)) :
    Keeps (definite (Machine T)) (pushing gas value) := by
  apply definite_charged
  refine Keeps.get.bind fun _ => ?_
  refine (definite_lift (h _)).bind fun _ => ?_
  refine (definite_push _).bind fun _ => ?_
  exact definite_next _

theorem definite_unary (gas : Int) (f : Word → Word) : Keeps (definite (Machine T)) (unary gas f : M T StepResult) :=
  definite_charged <| definite_pop.bind fun _ => (definite_push _).bind fun _ => definite_next _

theorem definite_binary (gas : Int) {conv : Word → Except Fault α} {f : α → Word → Except Fault Word}
    (hc : ∀ w, Definite (conv w)) (hf : ∀ a b, Definite (f a b)) :
    Keeps (definite (Machine T)) (binary gas conv f : M T StepResult) := by
  apply definite_charged
  refine definite_pop.bind fun _ => ?_
  refine (definite_lift (hc _)).bind fun _ => ?_
  refine definite_pop.bind fun _ => ?_
  refine (definite_lift (hf _ _)).bind fun _ => ?_
  refine (definite_push _).bind fun _ => ?_
  exact definite_next _

theorem definite_words (gas : Int) (f : Word → Word → Word) : Keeps (definite (Machine T)) (words gas f : M T StepResult) :=
  definite_binary _ .ok fun _ _ => .ok _

theorem definite_ternary (gas : Int) {f : Word → Word → Word → Except Fault Word} (hf : ∀ a b m, Definite (f a b m)) :
    Keeps (definite (Machine T)) (ternary gas f : M T StepResult) := by
  apply definite_charged
  refine definite_pop.bind fun _ => ?_
  refine definite_pop.bind fun _ => ?_
  refine definite_pop.bind fun _ => ?_
  refine (definite_lift (hf _ _ _)).bind fun _ => ?_
  refine (definite_push _).bind fun _ => ?_
  exact definite_next _

theorem definite_opExp : Keeps (definite (Machine T)) (opExp : M T StepResult) := by
  refine definite_pop.bind fun _ => ?_
  refine definite_pop.bind fun _ => ?_
  apply definite_charged
  refine (definite_push _).bind fun _ => ?_
  exact definite_next _

theorem definite_opPush : Keeps (definite (Machine T)) (opPush instruction : M T StepResult) :=
  definite_pushing _ fun _ => by
    split
    · exact .ok _
    · exact .bail _

theorem definite_opDup : Keeps (definite (Machine T)) (opDup instruction : M T StepResult) := by
  apply definite_charged
  refine Keeps.get.bind fun _ => ?_
  split
  · exact (definite_push _).bind fun _ => definite_next _
  · exact definite_onEvm (definite_error _)

theorem definite_opSwap : Keeps (definite (Machine T)) (opSwap instruction : M T StepResult) := by
  apply definite_charged
  refine Keeps.get.bind fun _ => ?_
  split
  · exact (definite_modify _).bind fun _ => definite_next _
  · exact definite_onEvm (definite_error _)

theorem definite_opCalldataload : Keeps (definite (Machine T)) (opCalldataload sc : M T StepResult) := by
  apply definite_charged
  refine definite_popUsize.bind fun _ => ?_
  refine (definite_push _).bind fun _ => ?_
  exact definite_next _

theorem definite_getBlockHash (blockNumber : Word) : Keeps (definite Ext) (Ext.getBlockHash blockNumber) := by
  refine Keeps.bind (fun _ => wp_estate_get.2 trivial) fun e => ?_
  split
  · exact definite_lift (definite_answer _)
  · exact .pure _

theorem definite_opBlockhash : Keeps (definite (Machine T)) (opBlockhash : M T StepResult) := by
  apply definite_charged
  refine definite_pop.bind fun _ => ?_
  refine (Keeps.get.bind fun _ => .ite (fun _ => .pure _) fun _ =>
    definite_onExt (definite_getBlockHash _)).bind fun _ => ?_
  refine (definite_push _).bind fun _ => ?_
  exact definite_next _

theorem definite_jumpTo (gas : Int) (target : Option Nat) : Keeps (definite (Machine T)) (jumpTo gas target) := by
  cases target with
  | none => exact .pure _
  | some dest => exact (definite_modify _).bind fun _ => .pure _

theorem definite_opJump : Keeps (definite (Machine T)) (opJump sc : M T StepResult) :=
  definite_charged <| definite_popUsize.bind fun _ => definite_jumpTo _ _

theorem definite_opJumpi : Keeps (definite (Machine T)) (opJumpi sc : M T StepResult) := by
  apply definite_charged
  refine definite_popUsize.bind fun _ => ?_
  refine definite_pop.bind fun _ => ?_
  exact .ite (fun _ => definite_jumpTo _ _) fun _ => definite_next _

theorem definite_opSha3 [Crypto] [EventTracer T] : Keeps (definite (Machine T)) (opSha3 sc : M T StepResult) := by
  refine definite_popUsize.bind fun _ => ?_
  refine definite_popUsize.bind fun _ => ?_
  refine .ite (fun _ => ?_) fun _ => ?_
  · refine (definite_lift (definite_addUsize _ _)).bind fun _ => ?_
    exact definite_refuse _
  · refine Keeps.get.bind fun _ => ?_
    refine (definite_emit _ _ _).bind fun _ => ?_
    apply definite_charged
    refine (definite_push _).bind fun _ => ?_
    exact definite_next _

theorem definite_copyIn (source : Bytes) (destOffset offset size : Nat) :
    Keeps (definite (Machine T)) (copyIn source destOffset offset size : M T Unit) := by
  refine (definite_lift (definite_addUsize _ _)).bind fun _ => ?_
  refine (definite_expandTo _).bind fun _ => ?_
  refine ((definite_lift (definite_addUsize _ _)).bind fun _ => .ite (fun _ => definite_refuse _) fun _ =>
    .pure _).bind fun _ => ?_
  exact definite_writeMemory _ _

theorem definite_opCalldatacopy : Keeps (definite (Machine T)) (opCalldatacopy sc : M T StepResult) :=
  definite_popUsize.bind fun _ => definite_popUsize.bind fun _ => definite_pop.bind fun _ =>
    have rest : ∀ _ : Unit, Keeps (definite (Machine T)) (_ : M T StepResult) := fun _ =>
      definite_memoryExpansionCost.bind fun _ => definite_next _
    .ite (fun _ => (definite_copyIn _ _ _ _).bind rest) fun _ => rest ()

theorem definite_opCodecopy : Keeps (definite (Machine T)) (opCodecopy sc : M T StepResult) := by
  refine definite_popUsize.bind fun _ => ?_
  refine definite_popUsize.bind fun _ => ?_
  refine definite_popUsize.bind fun _ => ?_
  refine (definite_copyIn _ _ _ _).bind fun _ => ?_
  refine definite_memoryExpansionCost.bind fun _ => ?_
  exact definite_next _

theorem definite_opReturndatacopy : Keeps (definite (Machine T)) (opReturndatacopy : M T StepResult) := by
  refine definite_popUsize.bind fun _ => ?_
  refine definite_popUsize.bind fun _ => ?_
  refine definite_popUsize.bind fun _ => ?_
  refine (definite_lift (definite_addUsize _ _)).bind fun _ => ?_
  refine (definite_expandTo _).bind fun _ => ?_
  refine Keeps.get.bind fun _ => ?_
  refine (definite_writeMemory _ _).bind fun _ => ?_
  refine definite_memoryExpansionCost.bind fun _ => ?_
  exact definite_next _

theorem definite_opMload : Keeps (definite (Machine T)) (opMload : M T StepResult) := by
  refine definite_popUsize.bind fun _ => ?_
  refine (definite_lift (definite_addUsize _ _)).bind fun _ => ?_
  refine (definite_expandTo _).bind fun _ => ?_
  refine definite_memoryExpansionCost.bind fun _ => ?_
  apply definite_charged
  refine (definite_readMemory _ _).bind fun _ => ?_
  refine (definite_push _).bind fun _ => ?_
  exact definite_next _

theorem definite_opMstore : Keeps (definite (Machine T)) (opMstore : M T StepResult) := by
  refine definite_popUsize.bind fun _ => ?_
  refine definite_pop.bind fun _ => ?_
  refine (definite_lift (definite_addUsize _ _)).bind fun _ => ?_
  refine (definite_expandTo _).bind fun _ => ?_
  refine definite_memoryExpansionCost.bind fun _ => ?_
  apply definite_charged
  refine (definite_writeMemory _ _).bind fun _ => ?_
  exact definite_next _

theorem definite_opMstore8 : Keeps (definite (Machine T)) (opMstore8 : M T StepResult) := by
  refine definite_popUsize.bind fun _ => ?_
  refine definite_pop.bind fun _ => ?_
  refine (Keeps.get.bind fun _ => .ite (fun _ => (definite_lift (definite_addUsize _ _)).bind fun _ =>
    definite_expandTo _) fun _ => .pure _).bind fun _ => ?_
  refine definite_memoryExpansionCost.bind fun _ => ?_
  apply definite_charged
  refine (definite_writeMemory _ _).bind fun _ => ?_
  exact definite_next _

theorem definite_opMcopy : Keeps (definite (Machine T)) (opMcopy : M T StepResult) := by
  refine definite_popUsize.bind fun _ => ?_
  refine definite_popUsize.bind fun _ => ?_
  refine definite_popUsize.bind fun _ => ?_
  apply definite_charged
  refine .ite (fun _ => definite_next _) fun _ => ?_
  refine (definite_lift (definite_addUsize _ _)).bind fun _ => ?_
  refine (definite_lift (definite_addUsize _ _)).bind fun _ => ?_
  refine (Keeps.get.bind fun _ => .ite (fun _ => .ite (fun _ => definite_refuse _) fun _ => definite_growTo _) fun _ =>
    .pure _).bind fun _ => ?_
  refine (definite_readMemory _ _).bind fun _ => ?_
  refine definite_memoryExpansionCost.bind fun _ => ?_
  apply definite_charged
  refine (definite_writeMemory _ _).bind fun _ => ?_
  exact definite_next _

theorem definite_setOutput (offset size : Nat) : Keeps (definite (Machine T)) (setOutput offset size : M T Unit) := by
  refine .ite (fun _ => ?_) fun _ => definite_setRet _
  refine (definite_lift (definite_addUsize _ _)).bind fun _ => ?_
  refine (definite_expandTo _).bind fun _ => ?_
  refine (definite_readMemory _ _).bind fun _ => ?_
  exact definite_setRet _

theorem definite_opReturn [EventTracer T] (reverted : Bool) :
    Keeps (definite (Machine T)) (opReturn sc reverted : M T StepResult) := by
  refine (definite_modify _).bind fun _ => ?_
  refine definite_popUsize.bind fun _ => ?_
  refine definite_popUsize.bind fun _ => ?_
  refine (definite_setOutput _ _).bind fun _ => ?_
  refine definite_memoryExpansionCost.bind fun _ => ?_
  refine (Keeps.get.bind fun _ => definite_emit _ _ _).bind fun _ => ?_
  exact definite_next _

theorem definite_opStop [EventTracer T] : Keeps (definite (Machine T)) (opStop sc : M T StepResult) := by
  refine (definite_modify _).bind fun _ => ?_
  refine (definite_setRet _).bind fun _ => ?_
  refine (Keeps.get.bind fun _ => definite_emit _ _ _).bind fun _ => ?_
  exact .pure _

theorem definite_popTopics : ∀ n : Nat, Keeps (definite (Machine T)) (popTopics n : M T (List Word))
  | 0 => .pure _
  | n + 1 => definite_pop.bind fun _ => (definite_popTopics n).bind fun _ => .pure _

theorem definite_opLog : Keeps (definite (Machine T)) (opLog sc instruction : M T StepResult) := by
  have hdata : ∀ offset size, Keeps (definite (Machine T)) (logData offset size : M T Bytes) := by
    intro offset size
    refine (definite_lift (definite_addUsize _ _)).bind fun _ => ?_
    refine Keeps.get.bind fun _ => ?_
    refine .ite (fun _ => ?_) fun _ => definite_readMemory _ _
    exact .ite (fun _ => definite_refuse _) fun _ => .pure _
  refine .ite (fun _ => definite_refuse _) fun _ => ?_
  refine (definite_onEvm definite_peek2).bind fun _ => ?_
  refine (definite_lift (definite_asUsize _)).bind fun _ => ?_
  refine (definite_lift (definite_asUsize _)).bind fun _ => ?_
  refine (definite_lift (definite_logGas _ _)).bind fun _ => ?_
  apply definite_charged
  refine definite_pop.bind fun _ => ?_
  refine definite_pop.bind fun _ => ?_
  refine (definite_popTopics _).bind fun _ => ?_
  refine (hdata _ _).bind fun _ => ?_
  refine (definite_modify _).bind fun _ => ?_
  exact definite_next _

theorem definite_opTload : Keeps (definite (Machine T)) (opTload sc : M T StepResult) := by
  apply definite_charged
  refine definite_pop.bind fun _ => ?_
  refine Keeps.get.bind fun _ => ?_
  refine (definite_push _).bind fun _ => ?_
  exact definite_next _

theorem definite_opTstore : Keeps (definite (Machine T)) (opTstore sc : M T StepResult) := by
  apply definite_charged
  refine definite_pop.bind fun _ => ?_
  refine definite_pop.bind fun _ => ?_
  refine Keeps.get.bind fun _ => ?_
  refine (definite_modify _).bind fun _ => ?_
  refine (definite_touch _).bind fun _ => ?_
  exact definite_next _

variable [Crypto]

theorem definite_opBalance : Keeps (definite (Machine T)) (opBalance : M T StepResult) := by
  refine definite_pop.bind fun _ => ?_
  refine (definite_addressAccessCost _).bind fun _ => ?_
  apply definite_charged
  refine (definite_account _).bind fun _ => ?_
  refine (definite_touch _).bind fun _ => ?_
  refine (definite_push _).bind fun _ => ?_
  exact definite_next _

theorem definite_opSelfbalance : Keeps (definite (Machine T)) (opSelfbalance sc : M T StepResult) := by
  apply definite_charged
  refine (definite_account _).bind fun _ => ?_
  refine (definite_touch _).bind fun _ => ?_
  refine (definite_push _).bind fun _ => ?_
  exact definite_next _

theorem definite_opExtcodesize : Keeps (definite (Machine T)) (opExtcodesize : M T StepResult) := by
  refine definite_pop.bind fun _ => ?_
  refine (definite_addressAccessCost _).bind fun _ => ?_
  apply definite_charged
  refine (definite_touchCode _).bind fun _ => ?_
  refine (definite_push _).bind fun _ => ?_
  exact definite_next _

theorem definite_opExtcodecopy : Keeps (definite (Machine T)) (opExtcodecopy : M T StepResult) := by
  refine definite_pop.bind fun _ => ?_
  refine definite_popUsize.bind fun _ => ?_
  refine definite_popUsize.bind fun _ => ?_
  refine definite_popUsize.bind fun _ => ?_
  refine (definite_touchCode _).bind fun _ => ?_
  refine (definite_copyIn _ _ _ _).bind fun _ => ?_
  refine definite_memoryExpansionCost.bind fun _ => ?_
  refine (definite_addressAccessCost _).bind fun _ => ?_
  exact definite_next _

theorem definite_opExtcodehash : Keeps (definite (Machine T)) (opExtcodehash : M T StepResult) := by
  refine definite_pop.bind fun _ => ?_
  refine (definite_addressAccessCost _).bind fun _ => ?_
  apply definite_charged
  refine (definite_touchCode _).bind fun _ => ?_
  refine (definite_isEmpty _).bind fun _ => ?_
  refine (definite_push _).bind fun _ => ?_
  exact definite_next _

omit [Crypto] in
theorem definite_warmSlot (key : Word) : Keeps (definite (Machine T)) (warmSlot sc key : M T Bool) := by
  refine Keeps.get.bind fun _ => ?_
  refine .ite (fun _ => .pure _) fun _ => ?_
  refine (definite_onExt (definite_modify _)).bind fun _ => ?_
  exact .pure _

theorem definite_opSload [EventTracer T] : Keeps (definite (Machine T)) (opSload sc : M T StepResult) := by
  refine (definite_onEvm definite_peek1).bind fun _ => ?_
  refine (definite_warmSlot sc _).bind fun _ => ?_
  apply definite_charged
  refine definite_pop.bind fun _ => ?_
  refine (definite_orError (definite_get _ _)).bind fun _ => ?_
  refine (definite_push _).bind fun _ => ?_
  refine (definite_touch _).bind fun _ => ?_
  refine (definite_emit _ _ _).bind fun _ => ?_
  exact definite_next _

theorem definite_opSstore [EventTracer T] : Keeps (definite (Machine T)) (opSstore sc instruction : M T StepResult) := by
  refine .ite (fun _ => definite_refuse _) fun _ => ?_
  refine definite_pop.bind fun _ => ?_
  refine definite_pop.bind fun _ => ?_
  refine (definite_warmSlot sc _).bind fun _ => ?_
  refine (definite_orError (definite_get _ _)).bind fun _ => ?_
  refine Keeps.get.bind fun _ => ?_
  refine .ite (fun _ => ?_) fun _ => ?_
  · refine (definite_emit _ _ _).bind fun _ => ?_
    exact .pure _
  · refine .ite (fun _ => ?_) fun _ => ?_
    · refine (definite_emit _ _ _).bind fun _ => ?_
      exact .pure _
    · refine (definite_orError (definite_put _ _ _)).bind fun _ => ?_
      refine (definite_modify _).bind fun _ => ?_
      refine (definite_emit _ _ _).bind fun _ => ?_
      refine (definite_touch _).bind fun _ => ?_
      exact definite_next _

theorem definite_opSelfdestruct : Keeps (definite (Machine T)) (opSelfdestruct sc instruction : M T StepResult) := by
  refine .ite (fun _ => definite_refuse _) fun _ => ?_
  refine definite_pop.bind fun _ => ?_
  refine Keeps.get.bind fun _ => ?_
  refine (definite_isEmpty _).bind fun _ => ?_
  refine (definite_account _).bind fun _ => ?_
  refine (definite_onExt (definite_accountMut _ _)).bind fun _ => ?_
  refine (definite_onExt (definite_credit _ _)).bind fun _ => ?_
  refine (definite_modify _).bind fun _ => ?_
  exact definite_next _

end Arms

/-! ### The calls -/

section Calls

variable [Crypto] [EventTracer T] (sc : Scope) (instruction : Instruction)

omit [Crypto] [EventTracer T] in
theorem definite_callArgs : Keeps (definite (Machine T)) (callArgs sc : M T CallArgs) := by
  refine definite_pop.bind fun _ => ?_
  refine definite_pop.bind fun _ => ?_
  refine (Keeps.ite (fun _ => definite_pop) fun _ => .pure _).bind fun _ => ?_
  refine definite_popUsize.bind fun _ => ?_
  refine definite_popUsize.bind fun _ => ?_
  refine definite_popUsize.bind fun _ => ?_
  refine definite_popUsize.bind fun _ => ?_
  exact .pure _

omit [Crypto] [EventTracer T] in
theorem definite_callMemory (a : CallArgs) : Keeps (definite (Machine T)) (callMemory a : M T Int) := by
  refine (definite_lift (definite_rangeEnd _ _)).bind fun _ => ?_
  refine (definite_lift (definite_rangeEnd _ _)).bind fun _ => ?_
  refine (definite_expandTo _).bind fun _ => ?_
  exact definite_memoryExpansionCost

omit [EventTracer T] in
theorem definite_callCreateCost (a : CallArgs) : Keeps (definite (Machine T)) (callCreateCost a : M T Int) :=
  .ite (fun _ => .pure _) fun _ => (definite_isEmpty _).bind fun _ => .pure _

omit [EventTracer T] in
theorem definite_callTarget (address : Address) : Keeps (definite (Machine T)) (callTarget address : M T Target) := by
  refine (definite_touchCode _).bind fun code => ?_
  refine (definite_addressAccessCost _).bind fun _ => ?_
  cases delegation code.1 with
  | none => exact .pure _
  | some target => exact (definite_touchCode _).bind fun _ => (definite_addressAccessCost _).bind fun _ => .pure _

omit [Crypto] in
theorem definite_callOutOfGas : Keeps (definite (Machine T)) (callOutOfGas sc instruction : M T α) := by
  refine Keeps.get.bind fun _ => ?_
  refine (definite_emit _ _ _).bind fun _ => ?_
  refine (definite_modify _).bind fun _ => ?_
  refine (definite_push _).bind fun _ => ?_
  exact definite_refuse _

omit [Crypto] in
theorem definite_emitCall (depth : Nat) (cost : Int) :
    Keeps (definite (Machine T)) (emitCall depth instruction cost : M T Unit) := Keeps.get.bind fun _ => definite_emit _ _ _

omit [EventTracer T] in
theorem definite_runPrecompile (address : Address) (data : Bytes) :
    Keeps (definite (Machine T)) (runPrecompile address data : M T Word) := by
  unfold runPrecompile
  split
  · exact (definite_setRet _).bind fun _ => .pure _
  · exact .pure _
  · next f _ hf =>
    refine .throw fun _ => ?_
    rintro rfl
    exact Precompiles.definite_execute address data hf

theorem definite_callPrecompile (a : CallArgs) (data : Bytes) (traceCost : Int) :
    Keeps (definite (Machine T)) (callPrecompile sc instruction a data traceCost : M T Unit) := by
  refine (definite_runPrecompile _ _).bind fun _ => ?_
  refine (definite_emitCall _ _ _).bind fun _ => ?_
  refine (definite_readMemory _ _).bind fun _ => ?_
  refine Keeps.get.bind fun _ => ?_
  refine (definite_writeMemory _ _).bind fun _ => ?_
  refine (definite_push _).bind fun _ => ?_
  exact definite_takeGas _

omit [Crypto] in
theorem definite_moveValue (depth : Nat) (src dst : Address) (srcBalance dstBalance value : Word) :
    Keeps (definite (Machine T)) (moveValue depth src dst srcBalance dstBalance value : M T Unit) := by
  refine (definite_lift (definite_sub _ _)).bind fun _ => ?_
  refine (definite_onExt (definite_accountMut _ _)).bind fun _ => ?_
  refine (definite_touch _).bind fun _ => ?_
  refine (definite_emit _ _ _).bind fun _ => ?_
  refine (definite_lift (definite_add _ _)).bind fun _ => ?_
  refine (definite_onExt (definite_accountMut _ _)).bind fun _ => ?_
  refine (definite_touch _).bind fun _ => ?_
  exact definite_emit _ _ _

theorem definite_callTransfer (a : CallArgs) : Keeps (definite (Machine T)) (callTransfer sc a : M T Unit) := by
  refine (definite_account _).bind fun _ => ?_
  refine (definite_account _).bind fun _ => ?_
  exact .ite (fun _ => definite_moveValue _ _ _ _ _ _) fun _ => .pure _

omit [Crypto] in
theorem definite_newFrame (scope : Scope) (limit : Int) :
    Keeps (definite (Machine T)) (newFrame scope limit : M T (Inner T)) := Keeps.get.bind fun _ => .pure _

theorem definite_callEnter (a : CallArgs) (target : Target) (gas : CallGas) :
    Keeps (definite (Machine T)) (callEnter sc instruction a target gas : M T (Opened T)) := by
  refine (Keeps.ite (fun _ => definite_readMemory _ _) fun _ => .pure _).bind fun _ => ?_
  refine .ite (fun _ => ?_) fun _ => ?_
  · refine (definite_callPrecompile _ _ _ _ _).bind fun _ => ?_
    exact .pure _
  · refine (definite_callTransfer _ _).bind fun _ => ?_
    refine (definite_emit _ _ _).bind fun _ => ?_
    refine (definite_newFrame _ _).bind fun _ => ?_
    exact .pure _

theorem definite_callOpen : Keeps (definite (Machine T)) (callOpen sc instruction : M T (Opened T)) := by
  refine (definite_callArgs _).bind fun _ => ?_
  refine (definite_callMemory _).bind fun _ => ?_
  refine (definite_callCreateCost _).bind fun _ => ?_
  refine (definite_callTarget _).bind fun _ => ?_
  refine Keeps.bind (fun _ => wp_remaining.2 trivial) fun _ => ?_
  exact .ite (fun _ => definite_callOutOfGas _ _) fun _ => definite_callEnter _ _ _ _ _

theorem definite_bumpNonce (depth : Nat) (this : Address) :
    Keeps (definite (Machine T)) (bumpNonce depth this : M T Word) := by
  refine (definite_account _).bind fun _ => ?_
  refine (definite_lift (definite_add _ _)).bind fun _ => ?_
  refine (definite_onExt (definite_accountMut _ _)).bind fun _ => ?_
  refine (definite_lift (definite_asU64 _)).bind fun _ => ?_
  refine (definite_lift (.ite (.ok _) (.panic _))).bind fun _ => ?_
  refine (definite_touch _).bind fun _ => ?_
  refine (definite_emit _ _ _).bind fun _ => ?_
  exact .pure _

theorem definite_createOpen : Keeps (definite (Machine T)) (createOpen sc : M T (Opened T)) := by
  have hinit : ∀ offset size, Keeps (definite (Machine T)) (initCode offset size : M T (Bytes × Int)) := by
    intro offset size
    refine (definite_lift (definite_addUsize _ _)).bind fun _ => ?_
    refine (definite_expandTo _).bind fun _ => ?_
    refine definite_memoryExpansionCost.bind fun _ => ?_
    refine (definite_readMemory _ _).bind fun _ => ?_
    exact .pure _
  have hopen : ∀ created, Keeps (definite (Machine T)) (openAccount created : M T Unit) := fun _ =>
    (definite_modify _).bind fun _ => (definite_warmTouch _).bind fun _ => definite_modify _
  refine definite_pop.bind fun _ => ?_
  refine definite_popUsize.bind fun _ => ?_
  refine definite_popUsize.bind fun _ => ?_
  refine (Keeps.ite (fun _ => definite_pop) fun _ => .pure _).bind fun _ => ?_
  refine (hinit _ _).bind fun _ => ?_
  refine (definite_bumpNonce _ _).bind fun _ => ?_
  refine (hopen _).bind fun _ => ?_
  refine Keeps.bind (fun _ => wp_remaining.2 trivial) fun _ => ?_
  exact .ite (fun _ => .throw fun _ => nofun) fun _ => (definite_newFrame _ _).bind fun _ => .pure _

theorem definite_openFrame : Keeps (definite (Machine T)) (openFrame sc instruction : M T (Opened T)) := by
  unfold openFrame
  split
  · exact definite_createOpen _
  · exact definite_createOpen _
  · exact definite_callOpen _ _

omit [Crypto] [EventTracer T] in
theorem definite_revert (evm : Evm) : Keeps (definite Ext) evm.revert :=
  .forM _ fun τ _ => fun e => by
    unfold Evm.revertTouch
    cases τ <;> simp [Ext.wp_accountMut, definite]

omit [Crypto] [EventTracer T] in
theorem definite_dropFrame (inner : Evm) : Keeps (definite (Machine T)) (dropFrame inner : M T Unit) := by
  refine (definite_push _).bind fun _ => ?_
  refine (definite_onExt (definite_revert _)).bind fun _ => ?_
  exact definite_modify _

omit [Crypto] in
theorem definite_callClose (retOffset retSize : Nat) (stipend traceCost : Int) (out : Output T) :
    Keeps (definite (Machine T)) (callClose sc instruction retOffset retSize stipend traceCost out : M T Unit) := by
  refine (definite_emitCall _ _ _).bind fun _ => ?_
  refine (definite_modify _).bind fun _ => ?_
  refine (Keeps.ite (fun _ => definite_writeMemory _ _) fun _ => .pure _).bind fun _ => ?_
  refine (definite_modify _).bind fun _ => ?_
  refine .ite (fun _ => ?_) fun _ => ?_
  · refine (definite_modify _).bind fun _ => ?_
    refine (definite_setRet _).bind fun _ => ?_
    exact definite_dropFrame _
  · refine (definite_modify _).bind fun _ => ?_
    refine (definite_setRet _).bind fun _ => ?_
    exact definite_push _

theorem definite_deploy (created : Address) (value : Word) (code : Bytes) :
    Keeps (definite (Machine T)) (deploy sc created value code : M T Unit) := by
  refine (definite_account _).bind fun _ => ?_
  refine (definite_onExt (definite_accountMut _ _)).bind fun _ => ?_
  refine ((definite_account _).bind fun _ => (definite_account _).bind fun _ =>
    .ite (fun _ => definite_moveValue _ _ _ _ _ _) fun _ => .pure _).bind fun _ => ?_
  refine (definite_touch _).bind fun _ => ?_
  exact definite_emit _ _ _

theorem definite_closeFrame (pending : Pending) (out : Output T) :
    Keeps (definite (Machine T)) (closeFrame sc instruction pending out : M T Int) := by
  cases pending with
  | call gas retOffset retSize stipend traceCost => exact (definite_callClose _ _ _ _ _ _ _).bind fun _ => .pure _
  | create baseCost forwarded created value =>
    refine Keeps.bind ?_ fun _ => .pure _
    refine (definite_emitCall _ _ _).bind fun _ => ?_
    refine (definite_modify _).bind fun _ => ?_
    refine .ite (fun _ => ?_) fun _ => ?_
    · refine (definite_modify _).bind fun _ => ?_
      exact definite_dropFrame _
    · refine (definite_modify _).bind fun _ => ?_
      refine .ite (fun _ => definite_dropFrame _) fun _ => ?_
      refine (definite_deploy _ _ _ _).bind fun _ => ?_
      refine (definite_modify _).bind fun _ => ?_
      exact definite_push _

omit [Crypto] [EventTracer T] in
theorem definite_guardStatic : Keeps (definite (Machine T)) (guardStatic sc instruction : M T Unit) := by
  refine .ite (fun _ => .pure _) fun _ => ?_
  split
  · refine Keeps.get.bind fun s => ?_
    split
    · exact definite_refuse _
    · exact .ite (fun _ => definite_refuse _) fun _ => .pure _
  · exact definite_refuse _
  · exact definite_refuse _
  · exact .pure _

end Calls

/-! ## Instructions with their frames -/

section Frames

variable [Crypto] [EventTracer T] {exec exec' : Exec T} {sc : Scope} {instruction : Instruction} {s t : Machine T}

/-- The run of the frame that an instruction opens, by `exec`, lacks fuel. -/
def InnerLacks (exec : Exec T) (sc : Scope) (instruction : Instruction) (s : Machine T) : Prop :=
  ∃ inner pending opened, openedFrame sc instruction s = some (inner, pending, opened) ∧
    ∃ t, exec inner.scope (inner.machine opened.ext) = .error .fuel t

/-- Two bounds run the frame that an instruction opens alike. -/
def InnerAgree (exec exec' : Exec T) (sc : Scope) (instruction : Instruction) (s : Machine T) : Prop :=
  ∀ inner pending opened, openedFrame sc instruction s = some (inner, pending, opened) →
    exec inner.scope (inner.machine opened.ext) = exec' inner.scope (inner.machine opened.ext)

omit [Crypto] [EventTracer T] in
theorem runInner_congr {inner : Inner T}
    (h : exec inner.scope (inner.machine s.ext) = exec' inner.scope (inner.machine s.ext)) :
    runInner exec inner s = runInner exec' inner s := by
  unfold Inner.machine at h
  unfold runInner
  rw [h]

omit [Crypto] [EventTracer T] in
theorem runInner_fuel {inner : Inner T} (h : runInner exec inner s = .error .fuel t) :
    ∃ t, exec inner.scope (inner.machine s.ext) = .error .fuel t := by
  unfold runInner at h
  unfold Inner.machine
  cases hrun : exec inner.scope ⟨inner.exe, inner.evm, s.ext⟩ with
  | ok ret i =>
    rw [hrun] at h
    cases h
  | error f i =>
    rw [hrun] at h
    cases h
    exact ⟨i, rfl⟩

theorem callFrame_fuel (hcall : instruction.op.isCall = true) (hg : guardStatic sc instruction s = .ok ⟨⟩ s)
    (h : callFrame exec sc instruction s = .error .fuel t) : InnerLacks exec sc instruction s := by
  unfold callFrame at h
  rcases bind_error h with ho | ⟨o, u, ho, h⟩
  · exact absurd rfl ((definite_openFrame sc instruction).error ho)
  · cases o with
    | done gas => cases h
    | frame inner pending =>
      have hopened : openedFrame sc instruction s = some (inner, pending, u) := by
        simp only [openedFrame, hcall, if_true, hg, ho]
      refine ⟨inner, pending, u, hopened, ?_⟩
      rcases bind_error h with hrun | ⟨out, v, -, hclose⟩
      · exact runInner_fuel hrun
      · exact absurd rfl ((definite_closeFrame sc instruction pending out).error hclose)

theorem callFrame_congr (hcall : instruction.op.isCall = true) (hg : guardStatic sc instruction s = .ok ⟨⟩ s)
    (h : InnerAgree exec exec' sc instruction s) : callFrame exec sc instruction s = callFrame exec' sc instruction s := by
  unfold callFrame
  refine bind_congr rfl fun o u ho => ?_
  cases o with
  | done gas => rfl
  | frame inner pending =>
    have hopened : openedFrame sc instruction s = some (inner, pending, u) := by
      simp only [openedFrame, hcall, if_true, hg, ho]
    exact bind_congr (runInner_congr (h inner pending u hopened)) fun _ _ _ => rfl

omit [EventTracer T] [Crypto] in
theorem caught_fuel {m : M T Int} (h : caught m s = .error .fuel t) : m s = .error .fuel t := by
  unfold caught at h
  split at h
  · cases h
  · cases h
  · next hm =>
    cases h
    exact hm

/-- A creation passes an error of its frame on, a message call catches it. -/
theorem opCall_cases (exec : Exec T) (sc : Scope) (instruction : Instruction) :
    opCall exec sc instruction = (do guardStatic sc instruction; next (← callFrame exec sc instruction)) ∨
    opCall exec sc instruction = (do guardStatic sc instruction; caught (callFrame exec sc instruction)) := by
  unfold opCall
  cases instruction.op <;> simp

theorem opCall_fuel (hcall : instruction.op.isCall = true) (h : opCall exec sc instruction s = .error .fuel t) :
    InnerLacks exec sc instruction s := by
  rcases guardStatic_cases sc instruction s with ⟨r, hr⟩ | ⟨hg, -⟩
  · rcases opCall_cases exec sc instruction with he | he <;> rw [he] at h <;>
      simp only [bind, EStateM.bind, hr] at h <;> cases h
  · refine callFrame_fuel (t := t) hcall hg ?_
    rcases opCall_cases exec sc instruction with he | he <;> rw [he] at h <;>
      rcases bind_error h with hguard | ⟨_, u, hguard, h⟩
    · exact absurd rfl ((definite_guardStatic sc instruction).error hguard)
    · rw [hg] at hguard
      cases hguard
      rcases bind_error h with hframe | ⟨gas, v, -, hnext⟩
      · exact hframe
      · exact absurd rfl ((definite_next gas).error hnext)
    · exact absurd rfl ((definite_guardStatic sc instruction).error hguard)
    · rw [hg] at hguard
      cases hguard
      exact caught_fuel h

theorem opCall_congr (hcall : instruction.op.isCall = true) (h : InnerAgree exec exec' sc instruction s) :
    opCall exec sc instruction s = opCall exec' sc instruction s := by
  have hframe : guardStatic sc instruction s = .ok ⟨⟩ s →
      callFrame exec sc instruction s = callFrame exec' sc instruction s := fun hg => callFrame_congr hcall hg h
  have hguarded : ∀ _u t, guardStatic sc instruction s = .ok _u t →
      callFrame exec sc instruction t = callFrame exec' sc instruction t := fun _ t hguard => by
    rcases guardStatic_cases sc instruction s with ⟨r, hr⟩ | ⟨hg, -⟩
    · rw [hr] at hguard
      cases hguard
    · rw [hg] at hguard
      cases hguard
      exact hframe hg
  unfold opCall
  refine bind_congr rfl fun u t hguard => ?_
  have ht := hguarded u t hguard
  cases instruction.op
  case create | create2 => exact bind_congr ht fun _ _ _ => rfl
  all_goals
    show caught _ _ = caught _ _
    unfold caught
    rw [ht]

/-- Only the calls run other frames. -/
theorem definite_executeInstruction (hcall : instruction.op.isCall = false) :
    Keeps (definite (Machine T)) (executeInstruction exec sc instruction) := by
  unfold executeInstruction
  cases hop : instruction.op
  case create | call | callcode | delegatecall | create2 | staticcall => simp [hop, Op.isCall] at hcall
  case stop => exact definite_opStop sc
  case return_ => exact definite_opReturn sc false
  case revert => exact definite_opReturn sc true
  case jump => exact definite_opJump sc
  case jumpi => exact definite_opJumpi sc
  case invalid => exact definite_next 0
  case smod => exact definite_binary _ .ok fun _ _ => .ite (.ok _) (definite_signedRem _ _)
  case addmod => exact definite_ternary _ fun _ _ _ => .ite (.ok _) (definite_addModulo _ _ _)
  case mulmod => exact definite_ternary _ definite_mulModulo
  case exp => exact definite_opExp
  case signextend => exact definite_binary _ definite_asUsize definite_signextend
  case byte => exact definite_binary _ definite_asUsize fun _ _ => .ok _
  case shl => exact definite_binary _ definite_asUsize fun _ _ => .ok _
  case shr => exact definite_binary _ definite_asUsize fun _ _ => .ok _
  case sar => exact definite_binary _ definite_asUsize fun _ _ => definite_signedShr _ _
  case sha3 => exact definite_opSha3 sc
  case balance => exact definite_opBalance
  case calldataload => exact definite_opCalldataload sc
  case calldatacopy => exact definite_opCalldatacopy sc
  case codecopy => exact definite_opCodecopy sc
  case extcodesize => exact definite_opExtcodesize
  case extcodecopy => exact definite_opExtcodecopy
  case returndatacopy => exact definite_opReturndatacopy
  case extcodehash => exact definite_opExtcodehash
  case blockhash => exact definite_opBlockhash
  case selfbalance => exact definite_opSelfbalance sc
  case blobhash =>
    apply definite_charged
    refine definite_pop.bind fun _ => ?_
    refine (definite_push _).bind fun _ => ?_
    exact definite_next _
  case blobbasefee => exact definite_pushing _ fun _ => definite_blobGasPrice _
  case pop => exact definite_charged <| definite_pop.bind fun _ => definite_next _
  case mload => exact definite_opMload
  case mstore => exact definite_opMstore
  case mstore8 => exact definite_opMstore8
  case sload => exact definite_opSload sc
  case sstore => exact definite_opSstore sc instruction
  case jumpdest => exact definite_charged (definite_next _)
  case tload => exact definite_opTload sc
  case tstore => exact definite_opTstore sc
  case mcopy => exact definite_opMcopy
  case push => exact definite_opPush instruction
  case dup => exact definite_opDup instruction
  case swap => exact definite_opSwap instruction
  case log => exact definite_opLog sc instruction
  case selfdestruct => exact definite_opSelfdestruct sc instruction
  case unknown => exact definite_refuse _
  all_goals
    first
    | exact definite_pushing _ fun _ => .ok _
    | exact definite_words _ _
    | exact definite_unary _ _

theorem executeInstruction_fuel (h : executeInstruction exec sc instruction s = .error .fuel t) :
    InnerLacks exec sc instruction s := by
  cases hcall : instruction.op.isCall with
  | false => exact absurd rfl ((definite_executeInstruction hcall).error h)
  | true =>
    rw [executeInstruction_call (x := ⟨sc, instruction, s⟩) hcall] at h
    exact opCall_fuel hcall h

theorem executeInstruction_congr (h : InnerAgree exec exec' sc instruction s) :
    executeInstruction exec sc instruction s = executeInstruction exec' sc instruction s := by
  cases hcall : instruction.op.isCall with
  | false =>
    unfold executeInstruction
    revert hcall
    cases instruction.op <;> simp [Op.isCall]
  | true =>
    have hop : ∀ exec : Exec T, executeInstruction exec sc instruction = opCall exec sc instruction := fun _ =>
      executeInstruction_call (x := ⟨sc, instruction, s⟩) hcall
    rw [hop, hop]
    exact opCall_congr hcall h

/-! ## Turns of the loop -/

omit [Crypto] [EventTracer T] in
theorem definite_attempt {m : M T α} (h : Keeps (definite (Machine T)) m) : Keeps (definite (Machine T)) (attempt m) :=
  fun s => wp_attempt m |>.2 <| wp_mono (h s) (fun _ _ _ => trivial) fun _ _ hf => ⟨fun _ _ => trivial, fun _ => hf⟩

omit [Crypto] in
theorem definite_haltFrame (reason : HaltReason) :
    Keeps (definite (Machine T)) (haltFrame sc reason : M T (Option Bytes)) :=
  (definite_modify _).bind fun _ => (definite_emit _ _ _).bind fun _ => .pure _

omit [Crypto] in
theorem definite_recordOp (cost : Int) (recorded : Bool) :
    Keeps (definite (Machine T)) (recordOp sc instruction cost recorded : M T Unit) := by
  refine .ite (fun _ => .pure _) fun _ => ?_
  refine Keeps.get.bind fun _ => ?_
  refine (definite_modify _).bind fun _ => ?_
  exact definite_emit _ _ _

omit [Crypto] in
theorem definite_settleStep (r : Option StepResult) :
    Keeps (definite (Machine T)) (settleStep sc instruction r : M T (Option Bytes)) := by
  cases r with
  | none =>
    refine (definite_modify _).bind fun _ => ?_
    refine Keeps.get.bind fun _ => ?_
    refine (definite_emit _ _ _).bind fun _ => ?_
    exact (definite_modify _).bind fun _ => .pure _
  | some r =>
    cases r with
    | halt cost =>
      refine (definite_modify _).bind fun _ => ?_
      refine (definite_recordOp _ _).bind fun _ => ?_
      refine (definite_modify _).bind fun _ => ?_
      exact definite_haltFrame _
    | ok cost =>
      refine (definite_recordOp _ _).bind fun _ => ?_
      refine .ite (fun _ => (definite_modify _).bind fun _ => definite_haltFrame _) fun _ => ?_
      refine (definite_attempt (definite_takeGas cost)).bind fun paid => ?_
      cases paid with
      | none => exact definite_haltFrame _
      | some _ => exact .pure _

theorem executeStep_fuel (h : executeStep exec sc instruction s = .error .fuel t) : InnerLacks exec sc instruction s := by
  unfold executeStep at h
  rcases bind_error h with hstep | ⟨r, u, -, hsettle⟩
  · unfold attempt at hstep
    split at hstep
    · cases hstep
    · cases hstep
    · next hinstruction =>
      cases hstep
      exact executeInstruction_fuel hinstruction
  · exact absurd rfl ((definite_settleStep r).error hsettle)

omit [Crypto] [EventTracer T] in
theorem runInner_lacks {inner : Inner T} (h : exec inner.scope (inner.machine s.ext) = .error .fuel t) :
    ∃ u, runInner exec inner s = .error .fuel u := by
  unfold Inner.machine at h
  unfold runInner
  rw [h]
  exact ⟨_, rfl⟩

/-- An instruction lacks fuel where the frame it opens does. -/
theorem executeStep_lacks (h : InnerLacks exec sc instruction s) :
    ∃ u, executeStep exec sc instruction s = .error .fuel u := by
  obtain ⟨inner, pending, opened, ho, t, ht⟩ := h
  obtain ⟨hcall, hg, hopens⟩ := openedFrame_some (x := ⟨sc, instruction, s⟩) ho
  obtain ⟨u, hu⟩ := runInner_lacks ht
  have hframe : callFrame exec sc instruction s = .error .fuel u := by
    unfold callFrame
    simp only [bind, EStateM.bind, show openFrame sc instruction s = _ from hopens, hu]
  have hop : executeInstruction exec sc instruction s = .error .fuel u := by
    rw [executeInstruction_call (x := ⟨sc, instruction, s⟩) hcall]
    have hg : guardStatic sc instruction s = .ok ⟨⟩ s := hg
    rcases opCall_cases exec sc instruction with he | he <;> rw [he] <;>
      simp only [bind, EStateM.bind, hg, caught, hframe]
  refine ⟨u, ?_⟩
  unfold executeStep attempt
  simp only [bind, EStateM.bind, hop]

theorem executeStep_congr (h : InnerAgree exec exec' sc instruction s) :
    executeStep exec sc instruction s = executeStep exec' sc instruction s := by
  have hstep : attempt (executeInstruction exec sc instruction) s = attempt (executeInstruction exec' sc instruction)
    s := by
    unfold attempt
    rw [executeInstruction_congr h]
  exact bind_congr hstep fun _ _ _ => rfl

/-! ## More fuel -/

/-- The bound of the recursion is not what ends the run. -/
def Finishes (exec : Exec T) (sc : Scope) (s : Machine T) : Prop := ∀ t, exec sc s ≠ .error .fuel t

omit [Crypto] in
/-- A frame that finishes does so in its loop. -/
theorem Finishes.entered {loop : Exec T} (h : Finishes (frameWith loop) sc s) (henter : enterFrame sc s = .ok ⟨⟩ t)
    (hdepth : sc.ctx.depth ≤ callDepthLimit) : Finishes loop sc t := by
  intro u hu
  refine h u ?_
  unfold frameWith
  simp only [bind, EStateM.bind, henter, if_neg (not_lt.2 hdepth)]
  exact hu

/-- In a loop that finishes so do the frames it opens, and the rest of the loop. -/
theorem Finishes.opened {fuel : Nat} {inner : Inner T} {pending : Pending} {opened : Machine T}
    (h : Finishes (executeLoop (fuel + 1)) sc s) (hi : currentInstruction sc s.evm = some instruction)
    (ho : openedFrame sc instruction s = some (inner, pending, opened)) :
    Finishes (executeWithContext fuel) inner.scope (inner.machine opened.ext) := by
  intro t ht
  obtain ⟨u, hu⟩ := executeStep_lacks ⟨inner, pending, opened, ho, t, ht⟩
  refine h u ?_
  rw [executeLoop_step hi, hu]

theorem Finishes.turn {fuel : Nat} (h : Finishes (executeLoop (fuel + 1)) sc s)
    (hi : currentInstruction sc s.evm = some instruction)
    (hstep : executeStep (executeWithContext fuel) sc instruction s = .ok none t) : Finishes (executeLoop fuel) sc t := by
  intro u hu
  refine h u ?_
  rw [executeLoop_step hi, hstep]
  exact hu

omit [Crypto] in
/-- What a frame does is what its loop does. -/
theorem frame_finishes {loop loop' : Exec T} (hloop : ∀ sc s, Finishes loop sc s → loop' sc s = loop sc s)
    (h : Finishes (frameWith loop) sc s) : frameWith loop' sc s = frameWith loop sc s := by
  refine bind_congr rfl fun _ t ht => ?_
  split
  · rfl
  · next hdepth => exact hloop sc t (h.entered ht (not_lt.1 hdepth))

/-- A run that finishes runs alike under every greater bound: by induction on the bound. -/
theorem executeLoop_finishes (fuel : Nat) : ∀ (sc : Scope) (s : Machine T), Finishes (executeLoop fuel) sc s →
    executeLoop (fuel + 1) sc s = executeLoop fuel sc s := by
  induction fuel with
  | zero =>
    intro sc s h
    exact absurd rfl (h s)
  | succ fuel ih =>
    intro sc s h
    cases hi : currentInstruction sc s.evm with
    | none => rw [executeLoop_done hi, executeLoop_done hi]
    | some instruction =>
      have hstep : executeStep (executeWithContext (fuel + 1)) sc instruction s =
          executeStep (executeWithContext fuel) sc instruction s :=
        executeStep_congr fun inner pending opened ho => frame_finishes ih (h.opened hi ho)
      rw [executeLoop_step hi, executeLoop_step hi, hstep]
      cases he : executeStep (executeWithContext fuel) sc instruction s with
      | error f t => rfl
      | ok o t =>
        cases o with
        | some ret => rfl
        | none => exact ih sc t (h.turn hi he)

theorem Finishes.at_least {fuel fuel' : Nat} (h : Finishes (executeWithContext fuel) sc s) (hle : fuel ≤ fuel') :
    executeWithContext fuel' sc s = executeWithContext fuel sc s := by
  induction fuel', hle using Nat.le_induction with
  | base => rfl
  | succ fuel' hle ih =>
    rw [← ih]
    refine frame_finishes (executeLoop_finishes fuel') fun t ht => h t ?_
    rw [← ih]
    exact ht

/-- An instruction that comes back is run alike by a loop that finishes. -/
theorem Finishes.step {fuel fuel' : Nat} {o : Option Bytes} (h : Finishes (executeLoop (fuel + 1)) sc s)
    (hi : currentInstruction sc s.evm = some instruction)
    (hstep : executeStep (executeWithContext fuel') sc instruction s = .ok o t) :
    executeStep (executeWithContext fuel) sc instruction s = .ok o t := by
  rw [← hstep]
  refine executeStep_congr fun inner pending opened ho => ?_
  have hhere : Finishes (executeWithContext fuel) inner.scope (inner.machine opened.ext) := h.opened hi ho
  have hthere : Finishes (executeWithContext fuel') inner.scope (inner.machine opened.ext) := by
    intro u hu
    obtain ⟨v, hv⟩ := executeStep_lacks ⟨inner, pending, opened, ho, u, hu⟩
    rw [hstep] at hv
    cases hv
  rw [← hhere.at_least (le_max_left fuel fuel'), ← hthere.at_least (le_max_right fuel fuel')]

/-! ## The history of a run that finishes -/

/-- Each state that a run reaches is one whose loop is in the history: by induction on how it
    is reached. -/
theorem Reaches.loops {fuel : Nat} {sc₀ : Scope} {s₀ : Machine T} (h : Reaches sc₀ s₀ sc s)
    (hfuel : Finishes (executeWithContext fuel) sc₀ s₀) :
    ∃ k, Finishes (executeLoop k) sc s ∧ (historyLoop k sc s).steps ⊆ (history fuel sc₀ s₀).steps := by
  induction h with
  | start enters depth =>
    refine ⟨fuel, hfuel.entered enters depth, ?_⟩
    unfold history
    rw [frameHistory_entered enters depth]
    exact List.Subset.refl _
  | @turn sc s t instruction fuel' h current step ih =>
    obtain ⟨_ | k, hfinishes, hsteps⟩ := ih
    · exact absurd rfl (hfinishes s)
    · have hstep := hfinishes.step current step
      refine ⟨k, hfinishes.turn current hstep, List.Subset.trans (fun x hx => ?_) hsteps⟩
      rw [historyLoop_step current, hstep]
      exact rest_subset_node hx
  | @inner sc s opened t instruction inner pending h current opens enters depth ih =>
    obtain ⟨_ | k, hfinishes, hsteps⟩ := ih
    · exact absurd rfl (hfinishes s)
    · refine ⟨k, (hfinishes.opened current opens).entered enters depth, List.Subset.trans (fun x hx => ?_) hsteps⟩
      rw [historyLoop_step current]
      refine callee_subset_node opens ?_
      rw [frameHistory_entered enters depth]
      exact hx

/-- A run that finishes comes to no instruction but those of its history. -/
theorem Reaches.mem_history {fuel : Nat} {sc₀ : Scope} {s₀ : Machine T} (h : Reaches sc₀ s₀ sc s)
    (hfuel : Finishes (executeWithContext fuel) sc₀ s₀) (hi : currentInstruction sc s.evm = some instruction) :
    ⟨sc, instruction, s⟩ ∈ (history fuel sc₀ s₀).steps := by
  obtain ⟨_ | k, hfinishes, hsteps⟩ := h.loops hfuel
  · exact absurd rfl (hfinishes s)
  · refine hsteps ?_
    rw [historyLoop_step hi]
    exact self_mem_node

/-- What the instructions of the history meet, those of the run meet. -/
theorem of_history {fuel : Nat} {sc₀ : Scope} {s₀ : Machine T} {P : Step T → Bool}
    (hrun : Sample.returns (executeWithContext fuel sc₀ s₀) (fun _ _ => (history fuel sc₀ s₀).steps.all P) = true)
    (h : Reaches sc₀ s₀ sc s) (hi : currentInstruction sc s.evm = some instruction) : P ⟨sc, instruction, s⟩ = true := by
  obtain ⟨ret, t, ht, hall⟩ := Sample.of_returns hrun
  refine List.all_eq_true.1 hall _ (h.mem_history (fun u hu => ?_) hi)
  rw [ht] at hu
  cases hu

end Frames

/-! ## Frames with no gas left -/

section Runs

variable [Crypto] [EventTracer T]

/-- A frame that has done nothing yet, under any limit. -/
structure Unused (s : Machine T) : Prop where
  memory : s.evm.memory = []
  memCost : s.evm.memCost = 0
  stack : s.evm.stack = []
  used : s.evm.gas.used = 0
  live : s.evm.reverted = false

omit [Crypto] [EventTracer T] in
theorem Unused.started {s : Machine T} (h : Unused s) (hlimit : 0 ≤ s.evm.gas.limit) : Started s :=
  ⟨h.memory, h.memCost, h.stack, h.used, hlimit, h.live⟩

omit [Crypto] [EventTracer T] in
theorem Unused.paid {s : Machine T} (h : Unused s) : Paid s.evm := by
  refine ⟨?_, ?_⟩
  · unfold Owing
    rw [h.memory, h.memCost]
    decide
  · rw [h.memory]
    decide

/-- A transaction may leave the top frame less than nothing. -/
structure Overdrawn (s : Machine T) : Prop where
  paid : Paid s.evm
  short : s.evm.gas.remaining < 0

variable {exec : Exec T} {x : Step T}

/-- An arm that is no call leaves the gas to the loop, and costs nothing negative. -/
theorem wp_arm_gas (hs : Paid x.before.evm) (hcall : x.op.isCall = false) :
    wp (executeInstruction exec x.scope x.instruction)
      (fun r t => ∀ cost, r = .ok cost → 0 ≤ cost ∧ t.evm.gas.remaining = x.before.evm.gas.remaining)
      (fun _ _ => True) x.before := by
  by_cases he : x.op.ends = true
  · refine wp_mono (wp_and (ends_instruction he x.before) (wp_stops hs he)) (fun r t ⟨hending, hstops⟩ cost hr => ?_)
      fun _ _ _ => trivial
    refine ⟨(hstops cost hr).cost, ?_⟩
    have hused : t.evm.gas.used = x.before.evm.gas.used := hending.used
    have hlimit : t.evm.gas.limit = x.before.evm.gas.limit := hending.limit
    rw [Gas.remaining, hlimit, hused]
    rfl
  · have he : x.op.ends = false := by simpa using he
    by_cases hj : x.op = .jump ∨ x.op = .jumpi
    · refine wp_mono (wp_jumps hs hj) (fun r t h cost hr => ⟨?_, ?_⟩) fun _ _ _ => trivial
      · have hcost := (h cost hr).cost
        omega
      · exact congrArg (fun c : Core => c.limit - c.used) (h cost hr).core
    · by_cases hinv : x.op = .invalid
      · rw [show executeInstruction exec x.scope x.instruction = next 0 by
          simp only [executeInstruction, show x.instruction.op = .invalid from hinv]]
        rw [wp_next]
        intro cost hr
        cases hr
        exact ⟨le_rfl, rfl⟩
      · refine wp_mono (wp_arm hs hcall he (fun h => hj (.inl h)) (fun h => hj (.inr h)) hinv)
          (fun r t h cost hr => ⟨?_, ?_⟩) fun _ _ _ => trivial
        · have hcost := (h cost hr).cost
          omega
        · exact congrArg (fun c : Core => c.limit - c.used) (h cost hr).core

/-- No frame is opened on less than nothing. -/
theorem Overdrawn.unopened (hs : Overdrawn x.before) : openedFrame x.scope x.instruction x.before = none := by
  cases ho : openedFrame x.scope x.instruction x.before with
  | none => rfl
  | some o =>
    obtain ⟨inner, pending, opened⟩ := o
    have hforwards := (opened_forwards hs.paid ho).1
    have hshort := hs.short
    have hdear := hforwards.dear
    have hcovered := hforwards.covered
    omega

/-- An instruction costs more than a frame has that has less than nothing. -/
theorem Overdrawn.costs (hs : Overdrawn x.before) :
    wp (executeInstruction exec x.scope x.instruction)
      (fun r t => ∀ cost, r = .ok cost → t.evm.gas.remaining < cost) (fun _ _ => True) x.before := by
  have hshort := hs.short
  by_cases hcall : x.op.isCall = true
  · have hframe : guardStatic x.scope x.instruction x.before = .ok ⟨⟩ x.before →
        wp (callFrame exec x.scope x.instruction) (fun gas t => t.evm.gas.remaining < gas) (fun _ _ => True) x.before := by
      intro hg
      unfold callFrame
      rw [wp_bind]
      refine wp_def.2 ⟨fun o t ho => ?_, fun _ _ _ => trivial⟩
      have hopens := ((wp_of_ok ho).1 (wp_openFrame_gas x hcall hs.paid)).1
      cases o with
      | done gas =>
        obtain ⟨hdear, hanswer⟩ := hopens
        have hspent := hanswer.spent
        refine (wp_pure _).2 ?_
        omega
      | frame inner pending =>
        have hopened := openedFrame_ok hcall hg ho
        rw [hs.unopened] at hopened
        cases hopened
    rw [executeInstruction_call hcall]
    refine wp_opCall_of (fun _ _ => trivial) fun hg =>
      wp_mono (hframe hg) (fun gas t hgas cost hcost => ?_) fun _ _ _ => ⟨trivial, fun _ _ _ hcost => (nomatch hcost)⟩
    cases hcost
    exact hgas
  · refine wp_mono (wp_arm_gas hs.paid (by simpa using hcall)) (fun r t h cost hr => ?_) fun _ _ h => h
    obtain ⟨hcost, hleft⟩ := h cost hr
    omega

/-- Its first instruction ends it. -/
theorem Overdrawn.ends {sc : Scope} {s t : Machine T} {instruction : Instruction} {o : Option Bytes} (hs : Overdrawn s)
    (h : executeStep exec sc instruction s = .ok o t) : o ≠ none := by
  have hstep : wp (executeStep exec sc instruction) (fun o _ => o ≠ none) (fun _ _ => True) s := by
    unfold executeStep
    rw [wp_bind, wp_attempt]
    refine wp_mono (Overdrawn.costs (x := ⟨sc, instruction, s⟩) hs) (fun r t hcosts => ?_)
      fun _ t _ => ⟨fun _ _ => ?_, fun _ => trivial⟩
    · refine wp_mono (wp_settleStep_gas sc instruction (some r) t) (fun o u hcharges => ?_) fun _ _ _ => trivial
      cases hcharges with
      | charged goes _ _ =>
        obtain ⟨cost, hr, hle, -⟩ := goes.cost
        have hlt := hcosts cost (by injection hr)
        omega
      | drained halts _ _ => exact halts
    · refine wp_mono (wp_settleStep_gas sc instruction none t) (fun o u hcharges => ?_) fun _ _ _ => trivial
      cases hcharges with
      | charged goes _ _ =>
        obtain ⟨_, hr, -⟩ := goes.cost
        cases hr
      | drained halts _ _ => exact halts
  exact (of_ok hstep h :)

/-! ## Whole runs -/

/-- What holds of a frame between two instructions, whatever its limit. -/
def Lives (s : Machine T) : Prop := Sound s ∨ Overdrawn s

omit [Crypto] [EventTracer T] in
theorem Unused.lives {s : Machine T} (h : Unused s) : Lives s := by
  by_cases hlimit : 0 ≤ s.evm.gas.limit
  · exact .inl (h.started hlimit).sound
  · refine .inr ⟨h.paid, ?_⟩
    have hused := h.used
    unfold Gas.remaining
    omega

theorem lives_enterFrame {sc : Scope} {s t : Machine T} (hs : Lives s) (h : enterFrame sc s = .ok ⟨⟩ t) :
    Lives t ∧ t.evm.core = s.evm.core := by
  rcases hs with hs | hs
  · obtain ⟨ht, hcore⟩ := sound_enterFrame hs h
    exact ⟨.inl ht, hcore⟩
  · have hsteady : Keeps steady (enterFrame sc : M T Unit) :=
      (steady_emit _ _ _).bind fun _ => .ite (fun _ => .pure _) fun _ => steady_warmTouch _
    have ht : Steady s t := hsteady.ok h
    refine ⟨.inr ⟨ht.paid hs.paid, ?_⟩, ht.core⟩
    rw [remaining_of_core ht.core]
    exact hs.short

/-- The frames an instruction opens start sound, with less gas than it has. -/
theorem Lives.opened {sc : Scope} {s opened : Machine T} {instruction : Instruction} {inner : Inner T}
    {pending : Pending} (hs : Lives s) (h : openedFrame sc instruction s = some (inner, pending, opened)) :
    Started (inner.machine opened.ext) ∧ inner.evm.gas.limit < s.evm.gas.remaining ∧ 0 ≤ inner.evm.gas.limit := by
  rcases hs with hs | hs
  · have hforwards := (opened_forwards (x := ⟨sc, instruction, s⟩) hs.paid h).1
    have hopens := opens_of_openedFrame (x := ⟨sc, instruction, s⟩) h
    have hmost := hforwards.most
    have hrepaid := hforwards.repaid
    have hfree : 0 ≤ inner.evm.gas.limit := hforwards.free.trans hforwards.least
    exact ⟨hopens.fresh.started hfree _, by dsimp only at hmost; omega, hfree⟩
  · rw [Overdrawn.unopened (x := ⟨sc, instruction, s⟩) hs] at h
    cases h

/-- A turn that goes on: the gas is less, unless the frame has stopped. -/
theorem Lives.turn {fuel : Nat} {sc : Scope} {s t : Machine T} {instruction : Instruction} (hs : Lives s)
    (hi : currentInstruction sc s.evm = some instruction)
    (h : executeStep (executeWithContext fuel) sc instruction s = .ok none t) :
    Sound s ∧ Sound t ∧ (t.evm.stopped = false → t.evm.gas.remaining < s.evm.gas.remaining) := by
  rcases hs with hs | hs
  · have hturns := hs.turns hi h
    exact ⟨hs, hturns.sound rfl, hturns.runs rfl⟩
  · exact absurd rfl (hs.ends h)

/-- A bound on the turns that a frame has left, and on how deep its calls still go. -/
def turnsLeft (s : Machine T) : Nat := if s.evm.stopped then 1 else s.evm.gas.remaining.toNat + 2

theorem frame_bounded {loop : Exec T} {bound : Nat} {sc : Scope} {s : Machine T} (hs : Lives s)
    (h : ∀ sc s, Lives s → turnsLeft s ≤ bound → Finishes loop sc s) (hbound : turnsLeft s ≤ bound) :
    Finishes (frameWith loop) sc s := by
  have henter : Keeps (definite (Machine T)) (enterFrame sc : M T Unit) :=
    (definite_emit _ _ _).bind fun _ => .ite (fun _ => .pure _) fun _ => definite_warmTouch _
  intro t ht
  rcases bind_error ht with he | ⟨_, u, he, hrest⟩
  · exact absurd rfl (henter.error he)
  · split at hrest
    · cases hrest
    · obtain ⟨hlives, hcore⟩ := lives_enterFrame hs he
      refine h sc u hlives ?_ t hrest
      unfold turnsLeft at hbound ⊢
      rw [remaining_of_core hcore, show u.evm.stopped = s.evm.stopped from congrArg Core.stopped hcore]
      exact hbound

/-- Enough fuel is enough at every depth: by induction on it, since a turn takes gas and an
    inner frame has less gas than its caller. -/
theorem executeLoop_bounded (fuel : Nat) : ∀ (sc : Scope) (s : Machine T), Lives s → turnsLeft s ≤ fuel →
    Finishes (executeLoop fuel) sc s := by
  induction fuel with
  | zero =>
    intro sc s _ hbound
    unfold turnsLeft at hbound
    split at hbound <;> omega
  | succ fuel ih =>
    intro sc s hs hbound t ht
    cases hi : currentInstruction sc s.evm with
    | none =>
      rw [executeLoop_done hi] at ht
      have hfinish : Keeps (definite (Machine T)) (finishFrame sc : M T Bytes) := by
        refine Keeps.get.bind fun _ => ?_
        refine (Keeps.ite (fun _ => definite_emit _ _ _) fun _ => .pure _).bind fun _ => ?_
        refine Keeps.get.bind fun _ => ?_
        exact .pure _
      exact absurd rfl (hfinish.error ht)
    | some instruction =>
      have hlive := currentInstruction_live hi
      simp only [turnsLeft, hlive, Bool.false_eq_true, if_false] at hbound
      rw [executeLoop_step hi] at ht
      cases he : executeStep (executeWithContext fuel) sc instruction s with
      | error f u =>
        rw [he] at ht
        cases ht
        obtain ⟨inner, pending, opened, ho, v, hv⟩ := executeStep_fuel he
        obtain ⟨hstarted, hless, hfree⟩ := hs.opened ho
        refine frame_bounded (.inl hstarted.sound) ih ?_ v hv
        have hremaining : (inner.machine opened.ext).evm.gas.remaining = inner.evm.gas.limit := by
          have hused := hstarted.used
          unfold Gas.remaining
          rw [hused]
          exact sub_zero _
        unfold turnsLeft
        rw [hremaining]
        split <;> omega
      | ok o u =>
        rw [he] at ht
        cases o with
        | some ret => cases ht
        | none =>
          obtain ⟨hsound, hnext, hless⟩ := hs.turn hi he
          refine ih sc u (.inl hnext) ?_ t ht
          have hcovered := hnext.covered
          unfold turnsLeft
          split
          · omega
          · next hrunning =>
            have hless := hless (by simpa using hrunning)
            omega

/-- In the run of a frame that has done nothing yet, every frame lives. -/
theorem Reaches.lives {sc₀ sc : Scope} {s₀ s : Machine T} (h : Reaches sc₀ s₀ sc s) (hs : Unused s₀) : Lives s := by
  induction h with
  | start enters _ => exact (lives_enterFrame hs.lives enters).1
  | turn h current step ih => exact .inl (ih.turn current step).2.1
  | inner h current opens enters _ ih => exact (lives_enterFrame (.inl (ih.opened opens).1.sound) enters).1

/-- Execution terminates: under every bound above the gas limit the run comes to the same
    result, which is no lack of fuel; for every instruction of every frame of the call tree
    that leaves its frame running has taken gas, and every frame it opens has less gas than
    its caller had left. -/
theorem execution_terminates {sc₀ : Scope} {s₀ : Machine T} (hs₀ : Unused s₀) :
    (∃ r, (∀ fuel, s₀.evm.gas.limit.toNat + 2 ≤ fuel → executeWithContext fuel sc₀ s₀ = r) ∧
      ∀ t, r ≠ .error .fuel t) ∧
    ∀ sc s instruction, Reaches sc₀ s₀ sc s → currentInstruction sc s.evm = some instruction →
      (∀ fuel t, executeStep (executeWithContext fuel) sc instruction s = .ok none t → t.evm.stopped = false →
        t.evm.gas.remaining < s.evm.gas.remaining) ∧
      ∀ inner pending opened, openedFrame sc instruction s = some (inner, pending, opened) →
        inner.evm.gas.limit < s.evm.gas.remaining := by
  have hbound : turnsLeft s₀ ≤ s₀.evm.gas.limit.toNat + 2 := by
    have hused := hs₀.used
    unfold turnsLeft Gas.remaining
    rw [hused, sub_zero]
    split <;> omega
  have henough : Finishes (executeWithContext (s₀.evm.gas.limit.toNat + 2)) sc₀ s₀ :=
    frame_bounded hs₀.lives (executeLoop_bounded _) hbound
  refine ⟨⟨executeWithContext (s₀.evm.gas.limit.toNat + 2) sc₀ s₀, fun fuel hfuel => henough.at_least hfuel, henough⟩,
    fun sc s instruction h hi => ⟨fun fuel t hstep => ?_, fun inner pending opened ho => ?_⟩⟩
  · exact ((h.lives hs₀).turn hi hstep).2.2
  · exact ((h.lives hs₀).opened ho).2.1

end Runs

open Sample in
/-- The run of a caller, whose inner frame goes on from its JUMPDEST on less gas. -/
theorem execution_terminates_caller :
    (∃ r, (∀ fuel, 100002 ≤ fuel → executeWithContext fuel (scope caller) callerMachine = r) ∧
      ∀ t, r ≠ .error .fuel t) ∧
    ∃ x ∈ (history 12 (scope caller) callerMachine).steps, x.scope.ctx.depth = 2 ∧ x.op = .jumpdest ∧
      ∀ fuel t, executeStep (executeWithContext fuel) x.scope x.instruction x.before = .ok none t →
        t.evm.stopped = false → t.evm.gas.remaining < x.before.evm.gas.remaining := by
  have hunused : Unused callerMachine := ⟨rfl, rfl, rfl, rfl, rfl⟩
  refine ⟨(execution_terminates hunused).1, ?_⟩
  obtain ⟨x, hx, hdepth, hop⟩ := callerMachine_inner
  obtain ⟨hreach, hcurrent⟩ := reaches_history hx
  exact ⟨x, hx, hdepth, hop, ((execution_terminates hunused).2 _ _ _ hreach hcurrent).1⟩

end Solenoid
