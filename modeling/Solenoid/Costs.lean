/-
  Solenoid.Costs — what an instruction costs, and that its memory is paid for.

  `memCost` is what a frame has paid for its memory. While it runs it is the price of the
  memory it has (`Paid`); inside an instruction that grows the memory it may lag behind
  (`Owing`) until `memoryExpansionCost` catches up, so that an expansion never costs less
  than nothing. `Priced m` says that the arm `m` of `execute_instruction` then ends paid
  for and one instruction further, at a cost of at least 1.
-/
import Solenoid.Loop

namespace Solenoid

open Hoare

variable {T α β : Type}

/-! ## Memory -/

/-- What decides whether a frame goes on, and where. -/
structure Core where
  pc : Nat
  limit : Int
  used : Int
  stopped : Bool
  reverted : Bool

def Evm.core (e : Evm) : Core := ⟨e.pc, e.gas.limit, e.gas.used, e.stopped, e.reverted⟩

theorem remaining_of_core {e e' : Evm} (h : e'.core = e.core) : e'.gas.remaining = e.gas.remaining :=
  congrArg (fun c : Core => c.limit - c.used) h

theorem divCeil_mono {m n : Nat} (h : m ≤ n) (d : Nat) : divCeil m d ≤ divCeil n d :=
  Nat.div_le_div_right (by omega)

/-- What `len` bytes of memory cost in all. -/
def memPrice (len : Nat) : Nat := divCeil len 32 * divCeil len 32 / 512 + 3 * divCeil len 32

theorem memPrice_mono {m n : Nat} (h : m ≤ n) : memPrice m ≤ memPrice n := by
  have hw := divCeil_mono h 32
  have hsq : divCeil m 32 * divCeil m 32 / 512 ≤ divCeil n 32 * divCeil n 32 / 512 :=
    Nat.div_le_div_right (Nat.mul_le_mul hw hw)
  unfold memPrice
  omega

/-- No more has been paid for the memory than it costs. -/
def Owing (e : Evm) : Prop := e.memCost ≤ memPrice e.memory.length

/-- The memory's price was computed, so it was not too large for that. -/
structure Paid (e : Evm) : Prop where
  owing : Owing e
  small : divCeil e.memory.length 32 * divCeil e.memory.length 32 < 2 ^ 63

theorem Paid.length {e : Evm} (h : Paid e) : e.memory.length < 2 ^ 37 := by
  have hsmall := h.small
  have hle : e.memory.length ≤ 32 * divCeil e.memory.length 32 := by
    unfold divCeil
    omega
  have hwords : divCeil e.memory.length 32 < 2 ^ 32 := by
    by_contra hlt
    have hge : 2 ^ 32 ≤ divCeil e.memory.length 32 := not_lt.1 hlt
    have := Nat.mul_le_mul hge hge
    omega
  omega

/-- Whatever became of the memory, it is paid for. -/
structure Covered (s t : Machine T) : Prop where
  paid : Paid t.evm
  core : t.evm.core = s.evm.core

theorem Covered.trans {s t u : Machine T} (h : Covered s t) (h' : Covered t u) : Covered s u :=
  ⟨h'.paid, h'.core.trans h.core⟩

/-- `memoryExpansionCost` of a frame that owes: nothing negative, and it is paid. -/
theorem wp_memoryExpansionCost {Q : Int → Machine T → Prop} {E : Fault → Machine T → Prop} {s : Machine T}
    (h : Owing s.evm) (hE : ∀ f, E f s) (hQ : ∀ cost t, 0 ≤ cost → Covered s t → Q cost t) :
    wp memoryExpansionCost Q E s := by
  simp only [memoryExpansionCost, Evm.memoryExpansionCost, wp_onEvm, wp_bind, wp_get, wp_lift, wp_set, wp_pure]
  refine ⟨fun square hsq => ?_, fun f _ => hE f⟩
  unfold checkI64 at hsq
  split at hsq
  · next hroom =>
    cases hsq
    have hprice : ((divCeil s.evm.memory.length 32 : Nat) * (divCeil s.evm.memory.length 32 : Nat) : Int) / 512 +
        3 * (divCeil s.evm.memory.length 32 : Nat) = memPrice s.evm.memory.length := by
      unfold memPrice
      omega
    refine hQ _ _ ?_ ⟨⟨hprice.le, ?_⟩, rfl⟩
    · unfold Owing at h
      omega
    · show divCeil s.evm.memory.length 32 * divCeil s.evm.memory.length 32 < 2 ^ 63
      omega
  · cases hsq

/-! ## What keeps the memory's price -/

/-- Neither the memory's size nor what was paid for it changes, and no gas is taken. -/
structure Steady (s t : Machine T) : Prop where
  memory : t.evm.memory.length = s.evm.memory.length
  memCost : t.evm.memCost = s.evm.memCost
  core : t.evm.core = s.evm.core

/-- The memory may have grown. -/
structure Growing (s t : Machine T) : Prop where
  memory : s.evm.memory.length ≤ t.evm.memory.length
  memCost : t.evm.memCost = s.evm.memCost
  core : t.evm.core = s.evm.core

def steady : Frame Fault (Machine T) where
  ok := Steady
  err _ _ _ := True
  refl _ := ⟨rfl, rfl, rfl⟩
  trans h h' := ⟨h'.memory.trans h.memory, h'.memCost.trans h.memCost, h'.core.trans h.core⟩
  fail _ _ := trivial

def growing : Frame Fault (Machine T) where
  ok := Growing
  err _ _ _ := True
  refl _ := ⟨le_rfl, rfl, rfl⟩
  trans h h' := ⟨h.memory.trans h'.memory, h'.memCost.trans h.memCost, h'.core.trans h.core⟩
  fail _ _ := trivial

theorem Steady.paid {s t : Machine T} (h : Steady s t) (hp : Paid s.evm) : Paid t.evm := by
  refine ⟨?_, ?_⟩
  · have := hp.owing
    unfold Owing at *
    rw [h.memory, h.memCost]
    exact this
  · rw [h.memory]
    exact hp.small

theorem Steady.covered {s t : Machine T} (h : Steady s t) (hp : Paid s.evm) : Covered s t :=
  ⟨h.paid hp, h.core⟩

theorem Growing.owing {s t : Machine T} (h : Growing s t) (ho : Owing s.evm) : Owing t.evm := by
  have := memPrice_mono h.memory
  unfold Owing at *
  rw [h.memCost]
  omega

theorem grows {m : M T α} (h : Keeps steady m) : Keeps growing m :=
  h.mono (fun h => ⟨h.memory.ge, h.memCost, h.core⟩) fun _ => trivial

/-! ## Primitives -/

theorem steady_modify {f : Machine T → Machine T} (h : ∀ s, Steady s (f s)) : Keeps steady (modify f : M T Unit) :=
  .modify h

theorem steady_lift (e : Except Fault α) : Keeps steady (lift e : M T α) := fun _ =>
  (wp_lift e).2 ⟨fun _ _ => ⟨rfl, rfl, rfl⟩, fun _ _ => trivial⟩

theorem steady_refuse (r : Report) : Keeps steady (refuse r : M T α) := .throw fun _ => trivial

theorem steady_push (v : Word) : Keeps steady (push v : M T Unit) := fun _ =>
  (wp_push v).2 ⟨fun _ => ⟨rfl, rfl, rfl⟩, fun _ => trivial⟩

theorem steady_pop : Keeps steady (pop : M T Word) := fun _ =>
  wp_pop.2 ⟨fun _ _ _ => ⟨rfl, rfl, rfl⟩, fun _ => trivial⟩

theorem steady_popUsize : Keeps steady (popUsize : M T Nat) := steady_pop.bind fun _ => steady_lift _

theorem steady_peek1 : Keeps steady (onEvm Evm.peek1 : M T Word) := fun s => by
  rw [wp_onEvm, Evm.peek1, wp_bind, wp_get]
  split
  · exact (wp_pure _).2 ⟨rfl, rfl, rfl⟩
  · exact (wp_error _).2 trivial

theorem steady_onExt (m : Run Ext α) : Keeps steady (onExt m : M T α) := fun _ =>
  (wp_onExt m).2 (wp_def.2 ⟨fun _ _ _ => ⟨rfl, rfl, rfl⟩, fun _ _ _ => trivial⟩)

theorem steady_orError (m : Run Ext α) : Keeps steady (orError m : M T α) := fun s => by
  refine wp_def.2 ⟨fun a t h => ?_, fun _ _ _ => trivial⟩
  unfold orError at h
  split at h
  · cases h
    exact ⟨rfl, rfl, rfl⟩
  · cases h
  · cases h

theorem steady_touch (τ : AccountTouch) : Keeps steady (touch τ : M T Unit) := steady_modify fun _ => ⟨rfl, rfl, rfl⟩

theorem steady_setRet (ret : Bytes) : Keeps steady (setRet ret : M T Unit) := steady_modify fun _ => ⟨rfl, rfl, rfl⟩

theorem steady_emit [EventTracer T] (depth : Nat) (reverted : Bool) (data : EventData) :
    Keeps steady (emit depth reverted data : M T Unit) := steady_modify fun _ => ⟨rfl, rfl, rfl⟩

theorem steady_readMemory (start till : Nat) : Keeps steady (readMemory start till : M T Bytes) :=
  Keeps.get.bind fun _ => steady_lift _

theorem copyFromSlice_length {b data out : Bytes} {start : Nat} (h : copyFromSlice b start data = .ok out) :
    out.length = b.length := by
  unfold copyFromSlice at h
  split at h
  · cases h
    simp
    omega
  · cases h

theorem steady_writeMemory (start : Nat) (data : Bytes) : Keeps steady (writeMemory start data : M T Unit) :=
  fun s => by
    simp only [writeMemory, wp_bind, wp_get, wp_lift, wp_modify]
    exact ⟨fun memory h => ⟨copyFromSlice_length h, rfl, rfl⟩, fun _ _ => trivial⟩

theorem steady_warmTouch (address : Address) : Keeps steady (warmTouch address : M T Unit) :=
  (steady_onExt _).bind fun _ => .ite (fun _ => steady_touch _) fun _ => .pure _

theorem resize_length {b out : Bytes} {n : Nat} (h : resize b n = .ok out) : out.length = n := by
  unfold resize at h
  split at h
  · cases h
    simp
    omega
  · cases h

/-- Growing to what the memory does not reach. -/
theorem wp_growTo {Q : Unit → Machine T → Prop} {till : Nat} {s : Machine T} (h : s.evm.memory.length < till)
    (hQ : ∀ t, Growing s t → Q () t) : wp (growTo till) Q (fun _ _ => True) s := by
  simp only [growTo, wp_bind, wp_get, wp_lift, wp_modify]
  refine ⟨fun memory hm => hQ _ ⟨?_, rfl, rfl⟩, fun _ _ => trivial⟩
  have := resize_length hm
  show s.evm.memory.length ≤ memory.length
  omega

theorem growing_expandTo (till : Nat) : Keeps growing (expandTo till : M T Unit) := fun s => by
  simp only [expandTo, wp_bind, wp_get, wp_ite, wp_pure]
  exact ⟨fun h => ⟨fun _ => (wp_refuse _).2 trivial, fun _ => wp_growTo h fun _ h => h⟩, fun _ => growing.refl s⟩

theorem growing_mcopyGrow (destTill till : Nat) : Keeps growing (mcopyGrow destTill till : M T Unit) := fun s => by
  simp only [mcopyGrow, wp_bind, wp_get, wp_ite, wp_pure]
  exact ⟨fun h => ⟨fun _ => (wp_refuse _).2 trivial, fun _ => wp_growTo h fun _ h => h⟩, fun _ => growing.refl s⟩

theorem growing_expandAt (offset : Nat) : Keeps growing (expandAt offset : M T Unit) := by
  refine Keeps.get.bind fun _ => ?_
  refine .ite (fun _ => ?_) fun _ => .pure ()
  refine (grows (steady_lift _)).bind fun _ => ?_
  exact growing_expandTo _

theorem growing_copyIn (source : Bytes) (destOffset offset size : Nat) :
    Keeps growing (copyIn source destOffset offset size : M T Unit) := by
  refine (grows (steady_lift _)).bind fun _ => ?_
  refine (growing_expandTo _).bind fun _ => ?_
  refine (grows ((steady_lift _).bind fun _ => .ite (fun _ => steady_refuse _) fun _ => .pure _)).bind fun _ => ?_
  exact grows (steady_writeMemory _ _)

theorem growing_setOutput (offset size : Nat) : Keeps growing (setOutput offset size : M T Unit) := by
  refine .ite (fun _ => ?_) fun _ => grows (steady_setRet _)
  refine (grows (steady_lift _)).bind fun _ => ?_
  refine (growing_expandTo _).bind fun _ => ?_
  refine (grows (steady_readMemory _ _)).bind fun _ => ?_
  exact grows (steady_setRet _)

/-! ## Priced instructions -/

/-- How an arm ends that returned its cost: at the next instruction. -/
structure Prices (s : Machine T) (cost : Int) (t : Machine T) : Prop where
  cost : 1 ≤ cost
  paid : Paid t.evm
  core : t.evm.core = { s.evm.core with pc := s.evm.pc + 1 }

def Priced (m : M T StepResult) : Prop :=
  ∀ s, Paid s.evm → wp m (fun r t => ∀ cost, r = .ok cost → Prices s cost t) (fun _ _ => True) s

/-- The same from memory that is not paid for yet. -/
def Owed (m : M T StepResult) : Prop :=
  ∀ s, Owing s.evm → wp m (fun r t => ∀ cost, r = .ok cost → Prices s cost t) (fun _ _ => True) s

theorem Prices.after {s t u : Machine T} {cost : Int} (h : Prices t cost u) (hcore : t.evm.core = s.evm.core) :
    Prices s cost u := by
  have hpc : t.evm.pc = s.evm.pc := congrArg Core.pc hcore
  refine ⟨h.cost, h.paid, ?_⟩
  rw [h.core, hcore, hpc]

theorem priced_next {gas : Int} (h : 1 ≤ gas) : Priced (next gas : M T StepResult) := fun s hs => by
  rw [wp_next]
  intro cost hcost
  cases hcost
  exact ⟨h, ⟨hs.owing, hs.small⟩, rfl⟩

theorem priced_charged {gas : Int} {k : M T StepResult} (h : Priced k) : Priced (charged gas k) := fun s hs => by
  rw [wp_charged]
  exact ⟨fun _ cost hcost => (nomatch hcost), fun _ => h s hs⟩

theorem priced_never {m : M T StepResult} (h : ∀ s, Paid s.evm → wp m (fun _ _ => False) (fun _ _ => True) s) :
    Priced m := fun s hs => wp_mono (h s hs) (fun _ _ h => h.elim) fun _ _ h => h

theorem priced_error (r : Report) : Priced (onEvm (Evm.error r) : M T StepResult) :=
  priced_never fun _ _ => (wp_onEvm _).2 <| (wp_error r).2 trivial

theorem priced_refuse (r : Report) : Priced (refuse r : M T StepResult) :=
  priced_never fun _ _ => (wp_refuse r).2 trivial

theorem priced_ite {c : Prop} [Decidable c] {m m' : M T StepResult} (h : c → Priced m) (h' : ¬c → Priced m') :
    Priced (if c then m else m') := by
  split
  · next hc => exact h hc
  · next hc => exact h' hc

/-- A steady first part, with what its result is known to be. -/
theorem priced_step {R : α → Prop} {m : M T α} {f : α → M T StepResult}
    (hm : ∀ s, Paid s.evm → wp m (fun a t => R a ∧ Steady s t) (fun _ _ => True) s) (hf : ∀ a, R a → Priced (f a)) :
    Priced (m >>= f) := fun s hs => by
  rw [wp_bind]
  refine wp_mono (hm s hs) (fun a t ⟨ha, ht⟩ => ?_) fun _ _ h => h
  exact wp_mono (hf a ha t (ht.paid hs)) (fun r u h cost hc => (h cost hc).after ht.core) fun _ _ h => h

theorem priced_lift {e : Except Fault α} {f : α → M T StepResult} (h : ∀ a, e = .ok a → Priced (f a)) :
    Priced (lift e >>= f) :=
  priced_step (fun _ _ => (wp_lift e).2 ⟨fun _ ha => ⟨ha, rfl, rfl, rfl⟩, fun _ _ => trivial⟩) h

theorem Owed.priced {m : M T StepResult} (h : Owed m) : Priced m := fun s hs => h s hs.owing

theorem owed_ite {c : Prop} [Decidable c] {m m' : M T StepResult} (h : Owed m) (h' : Owed m') :
    Owed (if c then m else m') := by
  split
  · exact h
  · exact h'

/-- The expansion is where the memory is paid for. -/
theorem owed_expansion {f : Int → M T StepResult} (hf : ∀ cost, 0 ≤ cost → Priced (f cost)) :
    Owed (memoryExpansionCost >>= f) := fun s hs => by
  rw [wp_bind]
  refine wp_memoryExpansionCost hs (fun _ => trivial) fun cost t hcost ht => ?_
  exact wp_mono (hf cost hcost t ht.paid) (fun r u h c hc => (h c hc).after ht.core) fun _ _ h => h

end Solenoid

namespace Hoare.Keeps

open Solenoid

variable {T α : Type} {m : M T α} {f : α → M T StepResult}

theorem priced (hm : Keeps steady m) (hf : ∀ a, Priced (f a)) : Priced (m >>= f) :=
  priced_step (fun s _ => wp_mono (hm s) (fun _ _ h => ⟨trivial, h⟩) fun _ _ h => h) fun a _ => hf a

theorem owed (hm : Keeps growing m) (hf : ∀ a, Owed (f a)) : Owed (m >>= f) := fun s hs => by
  rw [wp_bind]
  refine wp_mono (hm s) (fun a t ht => ?_) fun _ _ h => h
  exact wp_mono (hf a t (ht.owing hs)) (fun r u h cost hc => (h cost hc).after ht.core) fun _ _ h => h

end Hoare.Keeps

namespace Solenoid

open Hoare

variable {T α : Type}

/-! ## The arms -/

section Arms

variable (sc : Scope) (instruction : Instruction)

theorem priced_pushing {gas : Int} (h : 1 ≤ gas) (value : Machine T → Except Fault Word) :
    Priced (pushing gas value : M T StepResult) :=
  priced_charged <| Keeps.get.priced fun _ => (steady_lift _).priced fun _ => (steady_push _).priced fun _ =>
    priced_next h

theorem priced_unary {gas : Int} (h : 1 ≤ gas) (f : Word → Word) : Priced (unary gas f : M T StepResult) :=
  priced_charged <| steady_pop.priced fun _ => (steady_push _).priced fun _ => priced_next h

theorem priced_binary {gas : Int} (h : 1 ≤ gas) (conv : Word → Except Fault α) (f : α → Word → Except Fault Word) :
    Priced (binary gas conv f : M T StepResult) :=
  priced_charged <| steady_pop.priced fun _ => (steady_lift _).priced fun _ => steady_pop.priced fun _ =>
    (steady_lift _).priced fun _ => (steady_push _).priced fun _ => priced_next h

theorem priced_ternary {gas : Int} (h : 1 ≤ gas) (f : Word → Word → Word → Except Fault Word) :
    Priced (ternary gas f : M T StepResult) :=
  priced_charged <| steady_pop.priced fun _ => steady_pop.priced fun _ => steady_pop.priced fun _ =>
    (steady_lift _).priced fun _ => (steady_push _).priced fun _ => priced_next h

theorem priced_opExp : Priced (opExp : M T StepResult) :=
  steady_pop.priced fun _ => steady_pop.priced fun _ => priced_charged <| (steady_push _).priced fun _ =>
    priced_next (by omega)

theorem priced_opPop : Priced (opPop : M T StepResult) :=
  priced_charged <| steady_pop.priced fun _ => priced_next (by decide)

theorem priced_opDup : Priced (opDup instruction : M T StepResult) :=
  priced_charged <| Keeps.get.priced fun s => by
    cases s.evm.stack[instruction.opcode.n.toNat - 1]? with
    | none => exact priced_error _
    | some val => exact (steady_push val).priced fun _ => priced_next (by decide)

theorem priced_opSwap : Priced (opSwap instruction : M T StepResult) :=
  priced_charged <| Keeps.get.priced fun s => by
    cases swapTop instruction.opcode.n.toNat s.evm.stack with
    | none => exact priced_error _
    | some stack =>
      refine (steady_modify ?_).priced fun _ => priced_next (by decide)
      exact fun _ => ⟨rfl, rfl, rfl⟩

theorem priced_opBlobhash : Priced (opBlobhash : M T StepResult) :=
  priced_charged <| steady_pop.priced fun _ => (steady_push _).priced fun _ => priced_next (by decide)

theorem priced_opCalldataload : Priced (opCalldataload sc : M T StepResult) :=
  priced_charged <| steady_popUsize.priced fun _ => (steady_push _).priced fun _ => priced_next (by decide)

theorem priced_opBlockhash [Crypto] : Priced (opBlockhash : M T StepResult) := by
  apply priced_charged
  refine steady_pop.priced fun _ => ?_
  refine Keeps.priced (Keeps.get.bind fun _ => .ite (fun _ => .pure _) fun _ => steady_onExt _) fun _ => ?_
  exact (steady_push _).priced fun _ => priced_next (by decide)

theorem priced_opJumpdest : Priced (opJumpdest : M T StepResult) := priced_charged (priced_next (by decide))

theorem priced_opSha3 [Crypto] [EventTracer T] : Priced (opSha3 sc : M T StepResult) :=
  steady_popUsize.priced fun _ => steady_popUsize.priced fun _ => priced_ite
    (fun _ => (steady_lift _).priced fun _ => priced_refuse _) fun _ => Keeps.get.priced fun _ =>
      (steady_emit _ _ _).priced fun _ => priced_charged <| (steady_push _).priced fun _ => priced_next (by omega)

theorem copyGas_nonneg (size : Nat) : 0 ≤ copyGas size := by
  unfold copyGas
  omega

theorem priced_opCalldatacopy : Priced (opCalldatacopy sc : M T StepResult) :=
  steady_popUsize.priced fun _ => steady_popUsize.priced fun _ => steady_pop.priced fun w =>
    have rest : ∀ _ : Unit, Owed (_ : M T StepResult) := fun _ => owed_expansion fun cost hcost => priced_next (by
      have := copyGas_nonneg (min w.toNat (usizeMax >>> 1))
      omega)
    Owed.priced <| owed_ite ((growing_copyIn _ _ _ _).owed rest) (rest ())

theorem priced_opCodecopy : Priced (opCodecopy sc : M T StepResult) :=
  steady_popUsize.priced fun _ => steady_popUsize.priced fun _ => steady_popUsize.priced fun size => Owed.priced <|
    (growing_copyIn _ _ _ _).owed fun _ => owed_expansion fun cost hcost => priced_next (by
      have := copyGas_nonneg size
      omega)

theorem priced_opReturndatacopy : Priced (opReturndatacopy : M T StepResult) :=
  steady_popUsize.priced fun _ => steady_popUsize.priced fun _ => steady_popUsize.priced fun size => Owed.priced <|
    (grows (steady_lift _)).owed fun _ => (growing_expandTo _).owed fun _ => Keeps.get.owed fun _ =>
      (grows (steady_writeMemory _ _)).owed fun _ => owed_expansion fun cost hcost => priced_next (by
        have := copyGas_nonneg size
        omega)

theorem priced_opMload : Priced (opMload : M T StepResult) :=
  steady_popUsize.priced fun _ => (steady_lift _).priced fun _ => Owed.priced <| (growing_expandTo _).owed fun _ =>
    owed_expansion fun _ _ => priced_charged <| (steady_readMemory _ _).priced fun _ => (steady_push _).priced fun _ =>
      priced_next (by omega)

theorem priced_opMstore : Priced (opMstore : M T StepResult) :=
  steady_popUsize.priced fun _ => steady_pop.priced fun _ => (steady_lift _).priced fun _ => Owed.priced <|
    (growing_expandTo _).owed fun _ => owed_expansion fun _ _ => priced_charged <|
      (steady_writeMemory _ _).priced fun _ => priced_next (by omega)

theorem priced_opMstore8 : Priced (opMstore8 : M T StepResult) :=
  steady_popUsize.priced fun _ => steady_pop.priced fun _ => Owed.priced <| (growing_expandAt _).owed fun _ =>
    owed_expansion fun _ _ => priced_charged <| (steady_writeMemory _ _).priced fun _ => priced_next (by omega)

theorem priced_opMcopy : Priced (opMcopy : M T StepResult) :=
  steady_popUsize.priced fun _ => steady_popUsize.priced fun _ => steady_popUsize.priced fun size => by
    have := copyGas_nonneg size
    refine priced_charged <| priced_ite (fun _ => priced_next (by omega)) fun _ => ?_
    refine (steady_lift _).priced fun _ => (steady_lift _).priced fun _ => Owed.priced ?_
    refine (growing_mcopyGrow _ _).owed fun _ => (grows (steady_readMemory _ _)).owed fun _ => ?_
    exact owed_expansion fun _ _ => priced_charged <| (steady_writeMemory _ _).priced fun _ => priced_next (by omega)

theorem accessCost_pos (address : Address) (s : Machine T) :
    wp (addressAccessCost address) (fun cost t => 100 ≤ cost ∧ Steady s t) (fun _ _ => True) s := by
  simp only [addressAccessCost, Ext.warmAddress, wp_ite, wp_pure, wp_bind, wp_onExt, wp_get, wp_set, wp_touch]
  refine ⟨fun _ => ⟨by decide, rfl, rfl, rfl⟩, fun _ => ⟨fun _ => ⟨by decide, rfl, rfl, rfl⟩, fun _ => ?_⟩⟩
  exact ⟨by decide, rfl, rfl, rfl⟩

section Accounts

variable [Crypto]

theorem steady_touchCode (address : Address) : Keeps steady (touchCode address : M T (Bytes × Word)) :=
  (steady_onExt _).bind fun _ => (steady_touch _).bind fun _ => .pure _

theorem priced_opBalance : Priced (opBalance : M T StepResult) :=
  steady_pop.priced fun _ => priced_step (fun s _ => accessCost_pos _ s) fun gas hgas => priced_charged <|
    (steady_onExt _).priced fun _ => (steady_touch _).priced fun _ => (steady_push _).priced fun _ =>
      priced_next (by omega)

theorem priced_opSelfbalance : Priced (opSelfbalance sc : M T StepResult) :=
  priced_charged <| (steady_onExt _).priced fun _ => (steady_touch _).priced fun _ => (steady_push _).priced fun _ =>
    priced_next (by decide)

theorem priced_opExtcodesize : Priced (opExtcodesize : M T StepResult) :=
  steady_pop.priced fun _ => priced_step (fun s _ => accessCost_pos _ s) fun gas hgas => priced_charged <|
    (steady_touchCode _).priced fun _ => (steady_push _).priced fun _ => priced_next (by omega)

theorem priced_opExtcodecopy : Priced (opExtcodecopy : M T StepResult) :=
  steady_pop.priced fun _ => steady_popUsize.priced fun _ => steady_popUsize.priced fun _ =>
    steady_popUsize.priced fun size => (steady_touchCode _).priced fun _ => Owed.priced <|
      (growing_copyIn _ _ _ _).owed fun _ => owed_expansion fun expansion hexp =>
        priced_step (fun s _ => accessCost_pos _ s) fun access haccess => priced_next (by
          have := copyGas_nonneg size
          omega)

theorem priced_opExtcodehash : Priced (opExtcodehash : M T StepResult) :=
  steady_pop.priced fun _ => priced_step (fun s _ => accessCost_pos _ s) fun gas hgas => priced_charged <|
    (steady_touchCode _).priced fun _ => (steady_onExt _).priced fun _ => (steady_push _).priced fun _ =>
      priced_next (by omega)

omit [Crypto] in
theorem steady_warmSlot (key : Word) : Keeps steady (warmSlot sc key : M T Bool) :=
  Keeps.get.bind fun _ => .ite (fun _ => .pure _) fun _ => (steady_onExt _).bind fun _ => .pure _

theorem priced_opSload [EventTracer T] : Priced (opSload sc : M T StepResult) :=
  steady_peek1.priced fun _ => (steady_warmSlot sc _).priced fun isWarm => priced_charged <| steady_pop.priced fun _ =>
    (steady_orError _).priced fun _ => (steady_push _).priced fun _ => (steady_touch _).priced fun _ =>
      (steady_emit _ _ _).priced fun _ => priced_next (by cases isWarm <;> decide)

omit [Crypto] in
theorem sstoreCost_pos (original val new : Word) (isWarm : Bool) : 100 ≤ sstoreCost original val new isWarm := by
  unfold sstoreCost
  split <;> split <;> try split
  all_goals omega

theorem priced_storeSlot [EventTracer T] (key new : Word) (isWarm : Bool) :
    Priced (storeSlot sc instruction key new isWarm : M T StepResult) := by
  refine (steady_orError _).priced fun val => Keeps.get.priced fun s => ?_
  have hcost := sstoreCost_pos ((s.ext.original.lookup (sc.this, key)).getD 0) val new isWarm
  have hhalt : Priced (pure (.halt 0) : M T StepResult) := fun _ _ => (wp_pure _).2 fun _ h => nomatch h
  refine priced_ite (fun _ => (steady_emit _ _ _).priced fun _ => hhalt) fun _ => ?_
  refine priced_ite (fun _ => (steady_emit _ _ _).priced fun _ => hhalt) fun _ => ?_
  refine (steady_orError _).priced fun _ => (steady_modify ?_).priced fun _ => (steady_emit _ _ _).priced fun _ =>
    (steady_touch _).priced fun _ => priced_next (by omega)
  exact fun _ => ⟨rfl, rfl, rfl⟩

theorem priced_opSstore [EventTracer T] : Priced (opSstore sc instruction : M T StepResult) :=
  priced_ite (fun _ => priced_refuse _) fun _ => steady_pop.priced fun _ => steady_pop.priced fun _ =>
    (steady_warmSlot sc _).priced fun _ => priced_storeSlot sc instruction _ _ _

omit [Crypto] in
theorem priced_opTload : Priced (opTload sc : M T StepResult) :=
  priced_charged <| steady_pop.priced fun _ => Keeps.get.priced fun _ => (steady_push _).priced fun _ =>
    priced_next (by decide)

omit [Crypto] in
theorem priced_opTstore : Priced (opTstore sc : M T StepResult) := by
  refine priced_charged <| steady_pop.priced fun _ => steady_pop.priced fun _ => Keeps.get.priced fun _ =>
    (steady_modify ?_).priced fun _ => (steady_touch _).priced fun _ => priced_next (by decide)
  exact fun _ => ⟨rfl, rfl, rfl⟩

theorem priced_opSelfdestruct : Priced (opSelfdestruct sc instruction : M T StepResult) := by
  refine priced_ite (fun _ => priced_refuse _) fun _ => steady_pop.priced fun address => Keeps.get.priced fun s =>
    (steady_onExt _).priced fun isEmpty => (steady_onExt _).priced fun _ => (steady_onExt _).priced fun _ =>
      (steady_onExt _).priced fun _ => (steady_modify ?_).priced fun _ => priced_next ?_
  · exact fun _ => ⟨rfl, rfl, rfl⟩
  · split <;> split <;> omega

end Accounts

theorem steady_popTopics : ∀ n : Nat, Keeps steady (popTopics n : M T (List Word))
  | 0 => .pure _
  | n + 1 => steady_pop.bind fun _ => (steady_popTopics n).bind fun _ => .pure _

/-- Data that is logged fits in an `i64`: no memory reaches further, nor may it grow so far. -/
theorem wp_logData_small (offset size : Nat) {s : Machine T} (hs : Paid s.evm) :
    wp (logData offset size) (fun _ t => size < 2 ^ 63 ∧ Steady s t) (fun _ _ => True) s := by
  have hlen := hs.length
  simp only [logData, readMemory, wp_bind, wp_lift, wp_get, wp_ite, wp_refuse, wp_pure, implies_true, and_true]
  intro till ht
  obtain rfl := addUsize_ok ht
  refine ⟨fun _ => ⟨trivial, fun hsmall => ⟨?_, rfl, rfl, rfl⟩⟩, fun hle _ _ => ⟨by omega, rfl, rfl, rfl⟩⟩
  have : allocationSanityLimit < 2 ^ 63 := by decide
  omega

theorem logGas_pos {n size : Nat} {gas : Int} (hsize : size < 2 ^ 63) (h : logGas n size = .ok gas) : 1 ≤ gas := by
  have hcheck : ∀ {x y : Int}, checkI64 x = .ok y → y = x := by
    intro x y hx
    unfold checkI64 at hx
    split at hx <;> cases hx
    rfl
  unfold logGas at h
  cases h₁ : checkI64 (8 * usizeAsI64 size) with
  | error f => simp [h₁, bind, Except.bind] at h
  | ok data =>
    cases h₂ : checkI64 (375 * n + data) with
    | error f => simp [h₁, h₂, bind, Except.bind] at h
    | ok rest =>
      have hgas : checkI64 (375 + rest) = .ok gas := by simpa only [h₁, h₂, bind, Except.bind] using h
      have hdata := hcheck h₁
      have hrest := hcheck h₂
      have hgas := hcheck hgas
      unfold usizeAsI64 at hdata
      rw [if_pos hsize] at hdata
      omega

theorem steady_peek2 : Keeps steady (onEvm Evm.peek2 : M T (Word × Word)) := fun s => by
  rw [wp_onEvm, Evm.peek2, wp_bind, wp_get]
  split
  · exact (wp_pure _).2 ⟨rfl, rfl, rfl⟩
  · exact (wp_error _).2 trivial

theorem priced_opLog : Priced (opLog sc instruction : M T StepResult) := by
  refine priced_ite (fun _ => priced_refuse _) fun _ => steady_peek2.priced fun _ => (steady_lift _).priced fun _ =>
    (steady_lift _).priced fun size => priced_lift fun gas hgas => priced_charged <| steady_pop.priced fun _ =>
      steady_pop.priced fun _ => (steady_popTopics _).priced fun _ =>
        priced_step (fun s hs => wp_logData_small _ size hs) fun _ hsize => (steady_modify ?_).priced fun _ =>
          priced_next (logGas_pos hsize hgas)
  exact fun _ => ⟨rfl, rfl, rfl⟩

/-- How a jump ends, wherever it goes. -/
structure Jumps (s : Machine T) (cost : Int) (t : Machine T) : Prop where
  cost : 1 ≤ cost
  paid : Paid t.evm
  core : t.evm.core = { s.evm.core with pc := t.evm.pc }

theorem Jumps.after {s t u : Machine T} {cost : Int} (h : Jumps t cost u) (hcore : t.evm.core = s.evm.core) :
    Jumps s cost u := ⟨h.cost, h.paid, by rw [h.core, hcore]⟩

theorem wp_jumpTo_price {gas : Int} (hgas : 1 ≤ gas) (target : Option Nat) {s : Machine T} (hs : Paid s.evm) :
    wp (jumpTo gas target) (fun r t => ∀ cost, r = .ok cost → Jumps s cost t) (fun _ _ => True) s := by
  cases target with
  | none => exact (wp_pure _).2 fun _ h => nomatch h
  | some dest =>
    rw [jumpTo, wp_bind, wp_modify, wp_pure]
    intro cost hcost
    cases hcost
    exact ⟨hgas, ⟨hs.owing, hs.small⟩, rfl⟩

theorem price_opJump {s : Machine T} (hs : Paid s.evm) :
    wp (opJump sc) (fun r t => ∀ cost, r = .ok cost → Jumps s cost t) (fun _ _ => True) s := by
  unfold opJump
  rw [wp_charged]
  refine ⟨fun _ cost hcost => (nomatch hcost), fun _ => steady_popUsize.step (fun _ _ _ => trivial) fun dest t _ ht => ?_⟩
  exact wp_mono (wp_jumpTo_price (by decide) _ (ht.paid hs)) (fun _ _ h cost hc => (h cost hc).after ht.core)
    fun _ _ h => h

theorem price_opJumpi {s : Machine T} (hs : Paid s.evm) :
    wp (opJumpi sc) (fun r t => ∀ cost, r = .ok cost → Jumps s cost t) (fun _ _ => True) s := by
  unfold opJumpi
  rw [wp_charged]
  refine ⟨fun _ cost hcost => (nomatch hcost), fun _ => steady_popUsize.step (fun _ _ _ => trivial) fun dest t _ ht => ?_⟩
  refine steady_pop.step (fun _ _ _ => trivial) fun cond u _ hu => ?_
  have hsu : Steady s u := steady.trans ht hu
  have hpaid := hsu.paid hs
  rw [wp_ite]
  refine ⟨fun _ => ?_, fun _ => ?_⟩
  · exact wp_mono (wp_jumpTo_price (by decide) _ hpaid) (fun _ _ h cost hc => (h cost hc).after hsu.core) fun _ _ h => h
  · refine wp_mono (priced_next (by decide) u hpaid) (fun _ v h cost hc => ?_) fun _ _ h => h
    have hv := (h cost hc).after hsu.core
    exact ⟨hv.cost, hv.paid, by rw [hv.core, show v.evm.pc = _ from congrArg Core.pc hv.core]⟩

end Arms

/-! ## The arms that end a frame -/

/-- A frame that has stopped stays stopped. -/
def stopping : Frame Fault (Machine T) where
  ok s t := s.evm.stopped = true → t.evm.stopped = true
  err _ _ _ := True
  refl _ := id
  trans h h' := h' ∘ h
  fail _ _ := trivial

section Ends

variable [Crypto] [EventTracer T] (sc : Scope)

omit [EventTracer T] in
theorem stays_stopped {m : M T α} (h : Keeps (within Effect.never) m) : Keeps stopping m :=
  h.mono (fun h hs => (congrArg Regs.stopped h.regs).trans hs) fun _ => trivial

omit [EventTracer T] in
theorem stopping_setOutput (offset size : Nat) : Keeps stopping (setOutput offset size : M T Unit) := by
  refine .ite (fun _ => ?_) fun _ => .modify fun _ h => h
  refine (stays_stopped (keeps_lift _)).bind fun _ => ?_
  refine (stays_stopped (keeps_expandTo _)).bind fun _ => ?_
  refine (stays_stopped (keeps_readMemory _ _)).bind fun _ => ?_
  exact .modify fun _ h => h

/-- How an arm ends that ended its frame. -/
structure Stops (cost : Int) (t : Machine T) : Prop where
  cost : 0 ≤ cost
  paid : Paid t.evm
  stopped : t.evm.stopped = true

omit [Crypto] in
theorem price_opStop {s : Machine T} (hs : Paid s.evm) :
    wp (opStop sc) (fun r t => ∀ cost, r = .ok cost → Stops cost t) (fun _ _ => True) s := by
  simp only [opStop, emitReturn, wp_bind, wp_modify, wp_setRet, wp_get, wp_emit, wp_pure]
  intro cost hcost
  cases hcost
  exact ⟨le_rfl, ⟨hs.owing, hs.small⟩, rfl⟩

theorem price_opReturn (reverted : Bool) {s : Machine T} (hs : Paid s.evm) :
    wp (opReturn sc reverted) (fun r t => ∀ cost, r = .ok cost → Stops cost t) (fun _ _ => True) s := by
  unfold opReturn
  rw [wp_bind, wp_modify]
  have hstart : Paid { s with evm.stopped := true, evm.reverted := reverted }.evm := ⟨hs.owing, hs.small⟩
  have hpop : Keeps stopping (popUsize : M T Nat) := stays_stopped keeps_popUsize
  refine steady_popUsize.step (fun _ _ _ => trivial) fun offset t ht hsteady => ?_
  have htstop := hpop.ok ht rfl
  refine steady_popUsize.step (fun _ _ _ => trivial) fun size u hu hsteady' => ?_
  have hustop := hpop.ok hu htstop
  refine (growing_setOutput offset size).step (fun _ _ _ => trivial) fun _ v hv hgrowing => ?_
  have hvstop := (stopping_setOutput _ _).ok hv hustop
  have howing := hgrowing.owing (hsteady'.paid (hsteady.paid hstart)).owing
  rw [wp_bind]
  have hexp : wp (memoryExpansionCost : M T Int) (fun cost w => 0 ≤ cost ∧ Paid w.evm) (fun _ _ => True) v :=
    wp_memoryExpansionCost howing (fun _ => trivial) fun _ _ hcost hpaid => ⟨hcost, hpaid.paid⟩
  refine wp_mono (wp_and hexp (stays_stopped keeps_memoryExpansionCost v)) (fun gas w hw => ?_) fun _ _ _ => trivial
  simp only [emitReturn, wp_bind, wp_get, wp_emit, wp_next]
  intro cost hcost
  cases hcost
  exact ⟨hw.1.1, ⟨hw.1.2.owing, hw.1.2.small⟩, hw.2 hvstop⟩

end Ends

end Solenoid
