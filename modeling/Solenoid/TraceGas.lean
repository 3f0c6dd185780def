/-
  Solenoid.TraceGas — the gas that the events of instructions show.

  Eight places build such an event, before the price is charged or after, with all of it or
  part. Each reads the gas of its moment, so the two numbers it shows make up the limit; that
  what is left is not negative needs the price to be covered there (`wp_callOpen_shows`,
  `wp_closeFrame_shows`), or the frame to be sound.
-/
import Solenoid.Flags

namespace Solenoid

open Hoare

/-- What the gas of an instruction's event adds up to, in the events of one depth; the others lie
    deeper. -/
def Shows (depth : Nat) (limit : Int) (e : Event) : Prop :=
  depth ≤ e.depth ∧ (e.depth = depth → ∀ op, e.data = .opCode op → op.gasUsed + op.gasLeft = limit ∧ 0 ≤ op.gasLeft)

theorem shows_note {depth : Nat} {limit : Int} {data : EventData} {reverted : Bool} (h : ∀ op, data ≠ .opCode op) :
    Shows depth limit ⟨data, depth, reverted⟩ := ⟨le_rfl, fun _ op hop => absurd hop (h op)⟩

theorem shows_op {depth : Nat} {limit : Int} {instruction : Instruction} {evm : Evm} {cost used left back : Int}
    {reverted : Bool}
    (hsum : used + left = limit) (hleft : 0 ≤ left) :
    Shows depth limit ⟨opCodeEvent instruction evm cost used left back, depth, reverted⟩ :=
  ⟨le_rfl, fun _ op hop => by cases hop; exact ⟨hsum, hleft⟩⟩

/-! ## The gas of a frame, and what it traced -/

/-- The limit stays, and the events show it. -/
structure Gauged (depth : Nat) (limit : Int) (s t : Machine LoggingTracer) : Prop where
  same : t.evm.gas.limit = s.evm.gas.limit
  adds : Adds (Shows depth limit) s t

theorem Gauged.refl (depth : Nat) (limit : Int) (s : Machine LoggingTracer) : Gauged depth limit s s := ⟨rfl, .of_eq rfl⟩

theorem Gauged.trans {depth : Nat} {limit : Int} {s t u : Machine LoggingTracer} (h : Gauged depth limit s t)
    (h' : Gauged depth limit t u) : Gauged depth limit s u := ⟨h'.same.trans h.same, h.adds.trans h'.adds⟩

/-- Any part of a step. -/
def gauging (depth : Nat) (limit : Int) : Frame Fault (Machine LoggingTracer) where
  ok := Gauged depth limit
  err _ := Gauged depth limit
  refl := .refl depth limit
  trans := .trans
  fail := .trans

/-- A part that spends nothing, unless it fails with all the gas gone. -/
def idling (depth : Nat) (limit : Int) : Frame Fault (Machine LoggingTracer) where
  ok s t := Gauged depth limit s t ∧ t.evm.gas.used = s.evm.gas.used
  err _ s t := Gauged depth limit s t ∧ (t.evm.gas.used = s.evm.gas.used ∨ t.evm.gas.used = t.evm.gas.limit)
  refl s := ⟨.refl depth limit s, rfl⟩
  trans h h' := ⟨h.1.trans h'.1, h'.2.trans h.2⟩
  fail h h' := ⟨h.1.trans h'.1, h'.2.imp_left (·.trans h.2)⟩

section

variable {depth : Nat} {limit : Int}

theorem gauged_emit {reverted : Bool} {data : EventData} (h : Shows depth limit ⟨data, depth, reverted⟩) :
    Keeps (gauging depth limit) (emit depth reverted data) :=
  .modify fun _ => ⟨rfl, [⟨data, depth, reverted⟩], rfl, fun e he => by
    rw [List.mem_singleton.1 he]
    exact h⟩

theorem idle_emit {reverted : Bool} {data : EventData} (h : Shows depth limit ⟨data, depth, reverted⟩) :
    Keeps (idling depth limit) (emit depth reverted data) :=
  .modify fun _ => ⟨⟨rfl, [⟨data, depth, reverted⟩], rfl, fun e he => by
    rw [List.mem_singleton.1 he]
    exact h⟩, rfl⟩

theorem shows_of_isNote {reverted : Bool} {data : EventData} (h : data.isNote = true) :
    Shows depth limit ⟨data, depth, reverted⟩ := shows_note fun op hop => by rw [hop] at h; cases h

theorem listens_gauging : Listens (gauging depth limit) depth where
  ok h := ⟨h.limit, .of_eq h.tracer⟩
  err h := ⟨h.limit, .of_eq h.tracer⟩
  note h := gauged_emit (shows_of_isNote h)
  said := Keeps.get.bind fun _ => gauged_emit (shows_note fun _ hop => nomatch hop)

theorem listens_idling : Listens (idling depth limit) depth where
  ok h := ⟨⟨h.limit, .of_eq h.tracer⟩, h.used⟩
  err h := ⟨⟨h.limit, .of_eq h.tracer⟩, h.used⟩
  note h := idle_emit (shows_of_isNote h)
  said := Keeps.get.bind fun _ => idle_emit (shows_note fun _ hop => nomatch hop)

end

/-! ## The events of calls and of an SSTORE -/

/-- A machine under the limit, with gas that is not overdrawn. -/
structure Solvent (limit : Int) (s : Machine LoggingTracer) : Prop where
  limit : s.evm.gas.limit = limit
  covered : 0 ≤ s.evm.gas.remaining

namespace Solvent

variable {depth : Nat} {limit : Int} {s t : Machine LoggingTracer}

/-- What was used and what remains make up the limit. -/
theorem sum (h : Solvent limit s) : s.evm.gas.used + s.evm.gas.remaining = limit := by
  rw [← h.limit, Gas.remaining]
  omega

theorem idle (h : Solvent limit s) (ht : (idling depth limit).ok s t) : Solvent limit t := by
  refine ⟨ht.1.same.trans h.limit, ?_⟩
  have hcovered := h.covered
  rw [Gas.remaining] at hcovered ⊢
  rw [ht.1.same, ht.2]
  exact hcovered

/-- It is solvent where a part that spends nothing failed. -/
theorem failed {f : Fault} (h : Solvent limit s) (ht : (idling depth limit).err f s t) : Solvent limit t := by
  refine ⟨ht.1.same.trans h.limit, ?_⟩
  have hcovered := h.covered
  rcases ht.2 with hused | hused
  · rw [Gas.remaining] at hcovered ⊢
    rw [ht.1.same, hused]
    exact hcovered
  · rw [Gas.remaining, hused]
    omega

end Solvent

section

variable {sc : Scope} {limit : Int} {s : Machine LoggingTracer}

theorem wp_emitCall_shows (hs : Solvent limit s) {cost : Int} (hcost : cost ≤ s.evm.gas.remaining)
    (instruction : Instruction) :
    wp (emitCall sc.ctx.depth instruction cost) (fun _ => (idling sc.ctx.depth limit).ok s) (fun _ _ => False) s := by
  have hsum := hs.sum
  unfold emitCall
  rw [wp_bind, wp_get, wp_emit]
  exact ⟨⟨rfl, [_], rfl, fun e he => by
    rw [List.mem_singleton.1 he]
    exact shows_op (by omega) (by omega)⟩, rfl⟩

theorem wp_callOutOfGas_shows {α : Type} (hs : Solvent limit s) (instruction : Instruction) :
    wp (callOutOfGas sc instruction : M LoggingTracer α) (fun _ => (idling sc.ctx.depth limit).ok s)
      (fun f => (idling sc.ctx.depth limit).err f s) s := by
  have hsum := hs.sum
  unfold callOutOfGas
  rw [wp_bind, wp_get]
  have hevent : Keeps (idling sc.ctx.depth limit) (emit sc.ctx.depth false
    (opCodeEvent instruction s.evm s.evm.gas.remaining
      (s.evm.gas.used + s.evm.gas.remaining) 0 0)) := idle_emit (shows_op (by omega) le_rfl)
  refine (hevent.bind fun _ => Keeps.bind (listens_idling.same ?_) fun _ => (listens_idling.pushed _).bind fun _ =>
    listens_idling.refused _) s
  exact fun _ => ⟨rfl, rfl, rfl, rfl, rfl⟩

variable [Crypto]

theorem wp_callPrecompile_shows (hs : Solvent limit s) (instruction : Instruction) (a : CallArgs) (data : Bytes)
    {cost : Int}
    (hcost : cost ≤ s.evm.gas.remaining) :
    wp (callPrecompile sc instruction a data cost) (fun _ => Gauged sc.ctx.depth limit s)
      (fun f => (idling sc.ctx.depth limit).err f s) s := by
  have hl : Listens (idling sc.ctx.depth limit) sc.ctx.depth := listens_idling
  unfold callPrecompile
  refine (hl.runPrecompile _ _).step (fun _ _ h => h) fun result t _ ht => ?_
  have hleft : t.evm.gas.remaining = s.evm.gas.remaining := by
    rw [Gas.remaining, Gas.remaining, ht.1.same, ht.2]
  rw [wp_bind]
  refine wp_mono (wp_emitCall_shows (hs.idle ht) (hleft ▸ hcost) instruction) (fun _ u hu => ?_) fun _ _ h => h.elim
  have hu := (idling sc.ctx.depth limit).trans ht hu
  have hrest : ∀ v : Machine LoggingTracer, (idling sc.ctx.depth limit).ok s v →
    wp (takeGas (Precompiles.gasCost a.address data))
      (fun _ => Gauged sc.ctx.depth limit s) (fun f => (idling sc.ctx.depth limit).err f s) v := fun v hv => by
    unfold takeGas Evm.takeGas
    simp only [wp_onEvm, wp_bind, wp_get, wp_modify, wp_ite, wp_pure, wp_error]
    refine ⟨fun _ => hv.1.trans ⟨?_, .of_eq rfl⟩, fun _ => ⟨hv.1.trans ⟨?_, .of_eq rfl⟩, .inr (halt_used _)⟩⟩
    all_goals
      unfold Gas.sub
      split <;> rfl
  refine (hl.readMemory _ _).step (fun _ _ h => (idling _ _).fail hu h) fun _ v _ hv => ?_
  have hv := (idling sc.ctx.depth limit).trans hu hv
  rw [wp_bind, wp_get]
  refine (hl.writeMemory _ _).step (fun _ _ h => (idling _ _).fail hv h) fun _ w _ hw => ?_
  have hw := (idling sc.ctx.depth limit).trans hv hw
  exact (hl.pushed result).step (fun _ _ h => (idling _ _).fail hw h) fun _ z _ hz =>
    hrest z ((idling sc.ctx.depth limit).trans hw hz)

/-- What the part of a call-type instruction before its frame leaves. -/
def Opened.Shows (depth : Nat) (limit : Int) (s : Machine LoggingTracer) :
    Opened LoggingTracer → Machine LoggingTracer → Prop
  | .done _, t => Gauged depth limit s t
  | .frame .., t => (idling depth limit).ok s t

omit [Crypto] in
theorem Opened.Shows.after {depth : Nat} {t u : Machine LoggingTracer} {o : Opened LoggingTracer}
    (h : (idling depth limit).ok s t) (ho : o.Shows depth limit t u) : o.Shows depth limit s u := by
  cases o with
  | done gas => exact h.1.trans ho
  | frame inner pending => exact (idling depth limit).trans h ho

omit [Crypto] in
theorem idle_value (depth : Nat) (a : Address) (val new : Word) :
    Keeps (idling depth limit) (emit depth false (.account (.setValue a val new))) :=
  idle_emit (shows_note fun _ hop => nomatch hop)

omit [Crypto] in
theorem gauged_value (depth : Nat) (a : Address) (val new : Word) :
    Keeps (gauging depth limit) (emit depth false (.account (.setValue a val new))) :=
  gauged_emit (shows_note fun _ hop => nomatch hop)

theorem wp_callEnter_shows (hs : Solvent limit s) (instruction : Instruction) (a : CallArgs) (target : Target)
    {gas : CallGas}
    (hcost : gas.base + gas.forwarded - gas.stipend ≤ s.evm.gas.remaining) :
    wp (callEnter sc instruction a target gas) (fun o => o.Shows sc.ctx.depth limit s)
      (fun f => (idling sc.ctx.depth limit).err f s) s := by
  have hl : Listens (idling sc.ctx.depth limit) sc.ctx.depth := listens_idling
  unfold callEnter
  refine (hl.callData a).step (fun _ _ h => h) fun data t _ ht => ?_
  have hleft : t.evm.gas.remaining = s.evm.gas.remaining := by
    rw [Gas.remaining, Gas.remaining, ht.1.same, ht.2]
  refine wp_ite.2 ⟨fun _ => ?_, fun _ => ?_⟩
  · rw [wp_bind]
    exact wp_mono (wp_callPrecompile_shows (hs.idle ht) instruction a data (hleft ▸ hcost))
      (fun _ u hu => (wp_pure _).2 (ht.1.trans hu)) fun _ _ h => (idling _ _).fail ht h
  · refine (hl.callTransfer (idle_value _) a).step (fun _ _ h => (idling _ _).fail ht h) fun _ u _ hu => ?_
    refine (hl.note (by rfl)).step (fun _ _ h => (idling _ _).fail ((idling _ _).trans ht hu) h) fun _ v _ hv => ?_
    simp only [newFrame, wp_bind, wp_get, wp_pure]
    exact (idling sc.ctx.depth limit).trans ht ((idling sc.ctx.depth limit).trans hu hv)

theorem wp_callOpen_shows (hs : Solvent limit s) (instruction : Instruction) :
    wp (callOpen sc instruction) (fun o => o.Shows sc.ctx.depth limit s)
      (fun f => (idling sc.ctx.depth limit).err f s) s := by
  have hl : Listens (idling sc.ctx.depth limit) sc.ctx.depth := listens_idling
  unfold callOpen
  refine hl.callArgs.step (fun _ _ h => h) fun a t _ ht => ?_
  refine (hl.callMemory a).step (fun _ _ h => (idling _ _).fail ht h) fun memory u _ hu => ?_
  have hu := (idling sc.ctx.depth limit).trans ht hu
  refine (hl.callCreateCost a).step (fun _ _ h => (idling _ _).fail hu h) fun create v _ hv => ?_
  have hv := (idling sc.ctx.depth limit).trans hu hv
  refine (hl.callTarget a.address).step (fun _ _ h => (idling _ _).fail hv h) fun target w _ hw => ?_
  have hw := (idling sc.ctx.depth limit).trans hv hw
  have hsolvent := hs.idle hw
  rw [wp_bind, wp_remaining, wp_ite]
  refine ⟨fun _ => ?_, fun hleft => ?_⟩
  · exact wp_mono (wp_callOutOfGas_shows hsolvent instruction) (fun o z hz => .after hw (by
      cases o with
      | done gas => exact hz.1
      | frame inner pending => exact hz)) fun _ _ h => (idling _ _).fail hw h
  · refine wp_mono (wp_callEnter_shows hsolvent instruction a target ?_) (fun o z hz => hz.after hw)
      fun _ _ h => (idling _ _).fail hw h
    unfold callGas at hleft ⊢
    dsimp only at hleft ⊢
    omega

theorem wp_openFrame_shows (hs : Solvent limit s) (instruction : Instruction) :
    wp (openFrame sc instruction) (fun o => o.Shows sc.ctx.depth limit s)
      (fun f => (idling sc.ctx.depth limit).err f s) s := by
  have hdepth := depth_inContext sc instruction.op
  have hcreate : wp (createOpen (sc.inContext instruction.op)) (fun o => o.Shows sc.ctx.depth limit s)
      (fun f => (idling sc.ctx.depth limit).err f s) s := by
    have hl : Listens (idling (sc.inContext instruction.op).ctx.depth limit) (sc.inContext instruction.op).ctx.depth :=
      listens_idling
    rw [← hdepth]
    refine hl.createOpen.run (fun _ _ h => h) fun o t _ ht => ?_
    cases o with
    | done gas => exact ht.1
    | frame inner pending => exact ht
  unfold openFrame
  split
  · exact hcreate
  · exact hcreate
  · rw [← hdepth]
    exact wp_callOpen_shows hs instruction

/-! ## The part after the frame -/

omit [Crypto] in
theorem gauged_spend (gas : Int) : Keeps (gauging sc.ctx.depth limit) (spend gas : M LoggingTracer Unit) :=
  .modify fun _ => ⟨rfl, .of_eq rfl⟩

omit [Crypto] in
/-- The inner frame's events lie deeper. -/
theorem gauged_joinTracer {out : Output LoggingTracer} (hdeep : ∀ e ∈ out.tracer.events, sc.ctx.depth < e.depth) :
    Keeps (gauging sc.ctx.depth limit) (joinTracer out : M LoggingTracer Unit) :=
  .modify fun s => ⟨rfl, out.tracer.events.map (Event.flagged out.evm.reverted), join_events _ _ _, fun e he => by
    obtain ⟨e', he', rfl⟩ := List.mem_map.1 he
    have hlt : sc.ctx.depth < e'.depth := hdeep e' he'
    exact ⟨hlt.le, fun heq => absurd heq hlt.ne'⟩⟩

theorem wp_closeFrame_shows (hs : Solvent limit s) (instruction : Instruction) {pending : Pending}
    {out : Output LoggingTracer}
    (hcost : pending.traced ≤ s.evm.gas.remaining) (hdeep : ∀ e ∈ out.tracer.events, sc.ctx.depth < e.depth) :
    wp (closeFrame sc instruction pending out) (fun _ => Gauged sc.ctx.depth limit s)
      (fun _ => Gauged sc.ctx.depth limit s) s := by
  rw [← depth_inContext sc instruction.op] at hdeep ⊢
  have hl : Listens (gauging (sc.inContext instruction.op).ctx.depth limit) (sc.inContext instruction.op).ctx.depth :=
    listens_gauging
  have hemit : ∀ {cost : Int}, cost ≤ s.evm.gas.remaining → ∀ {α : Type} {k : M LoggingTracer α},
      Keeps (gauging (sc.inContext instruction.op).ctx.depth limit) k →
      wp (do
        emitCall (sc.inContext instruction.op).ctx.depth instruction cost
        k) (fun _ => Gauged (sc.inContext instruction.op).ctx.depth limit s)
        (fun _ => Gauged (sc.inContext instruction.op).ctx.depth limit s) s := fun hcost _ _ hk => by
    rw [wp_bind]
    refine wp_mono (wp_emitCall_shows hs hcost instruction) (fun _ t ht => ?_) fun _ _ h => h.elim
    exact hk.run (fun _ _ h => ht.1.trans h) fun _ _ _ h => ht.1.trans h
  have hdrop := hl.dropFrame out.evm
  unfold closeFrame
  cases pending with
  | call gas retOffset retSize stipend traceCost =>
    unfold callClose
    rw [wp_bind]
    refine wp_mono (hemit hcost (k := do
      joinTracer out
      copyBack retOffset (out.ret.take retSize)
      spend (out.evm.gas.used - stipend)
      if out.evm.reverted then mergeReverted out
      else
        mergeKept out
        setRet out.ret
        push 1) ?_) (fun _ _ h => (wp_pure _).2 h) fun _ _ h => h
    refine (gauged_joinTracer hdeep).bind fun _ => ?_
    refine (hl.copyBack _ _).bind fun _ => ?_
    refine (gauged_spend _).bind fun _ => ?_
    refine .ite (fun _ => hl.mergeReverted out) fun _ => ?_
    refine (hl.mergeKept out).bind fun _ => ?_
    refine (hl.returned _).bind fun _ => ?_
    exact hl.pushed _
  | create baseCost forwarded created value =>
    unfold createClose
    rw [wp_bind]
    refine wp_mono (hemit hcost ?_) (fun _ _ h => (wp_pure _).2 h) fun _ _ h => h
    refine (gauged_joinTracer hdeep).bind fun _ => ?_
    refine .ite (fun _ => ?_) fun _ => ?_
    · refine (gauged_spend _).bind fun _ => ?_
      exact hdrop
    · refine (gauged_spend _).bind fun _ => ?_
      refine .ite (fun _ => hdrop) fun _ => ?_
      refine (hl.deploy (gauged_value _) _ _ _).bind fun _ => ?_
      refine (hl.mergeKept _).bind fun _ => ?_
      exact hl.pushed _

/-! ## The step -/

theorem wp_opSstore_shows (hs : Solvent limit s) (instruction : Instruction) :
    wp (opSstore sc instruction : M LoggingTracer StepResult) (fun _ => (idling sc.ctx.depth limit).ok s)
      (fun f => (idling sc.ctx.depth limit).err f s) s := by
  have hl : Listens (idling sc.ctx.depth limit) sc.ctx.depth := listens_idling
  unfold opSstore
  refine wp_ite.2 ⟨fun _ => hl.refused _ s, fun _ => ?_⟩
  refine hl.popped.step (fun _ _ h => h) fun key s₁ _ h₁ => ?_
  refine hl.popped.step (fun _ _ h => (idling _ _).fail h₁ h) fun new s₂ _ h₂ => ?_
  have h₂ := (idling sc.ctx.depth limit).trans h₁ h₂
  refine (hl.warmSlot key).step (fun _ _ h => (idling _ _).fail h₂ h) fun isWarm s₃ _ h₃ => ?_
  have h₃ := (idling sc.ctx.depth limit).trans h₂ h₃
  unfold storeSlot
  refine (hl.orError _).step (fun _ _ h => (idling _ _).fail h₃ h) fun val s₄ _ h₄ => ?_
  have h₄ := (idling sc.ctx.depth limit).trans h₃ h₄
  have hsum := (hs.idle h₄).sum
  have hcovered := (hs.idle h₄).covered
  have hhalts : ∀ {data : EventData}, Shows sc.ctx.depth limit ⟨data, sc.ctx.depth, true⟩ → wp (do
      emit sc.ctx.depth true data
      return .halt 0 : M LoggingTracer StepResult) (fun _ => (idling sc.ctx.depth limit).ok s)
        (fun f => (idling sc.ctx.depth limit).err f s) s₄ := fun hdata => by
    exact ((idle_emit hdata).bind fun _ => .pure _).run (fun _ _ h => (idling _ _).fail h₄ h)
      fun _ _ _ h => (idling sc.ctx.depth limit).trans h₄ h
  rw [wp_bind, wp_get]
  refine wp_ite.2 ⟨fun _ => hhalts (shows_op hsum hcovered), fun _ =>
    wp_ite.2 ⟨fun _ => hhalts (shows_op (by omega) le_rfl), fun _ => ?_⟩⟩
  exact (hl.stored key val new isWarm _ _).run (fun _ _ h => (idling _ _).fail h₄ h)
    fun _ _ _ h => (idling sc.ctx.depth limit).trans h₄ h

/-- An instruction that opens no frame. -/
theorem wp_unopened_shows {exec : Exec LoggingTracer} (hs : Solvent limit s) {instruction : Instruction}
    (hnone : openedFrame sc instruction s = none) :
    wp (executeInstruction exec sc instruction) (fun _ => Gauged sc.ctx.depth limit s)
      (fun f => (idling sc.ctx.depth limit).err f s) s := by
  by_cases hcall : instruction.op.isCall = true
  · rw [executeInstruction_call (x := ⟨sc, instruction, s⟩) hcall]
    refine wp_opCall_of (fun _ _ => ⟨.refl _ _ s, .inl rfl⟩) fun hg => ?_
    have hopen : wp (openFrame sc instruction) (fun o => o.Shows sc.ctx.depth limit s)
        (fun f => (idling sc.ctx.depth limit).err f s) s := wp_openFrame_shows hs instruction
    unfold callFrame
    rw [wp_bind]
    refine wp_def.2 ⟨fun o t ho => ?_, fun f t ho => ⟨(wp_of_error ho).1 hopen, fun _ _ => ((wp_of_error ho).1 hopen).1⟩⟩
    have hopened := openedFrame_ok (x := ⟨sc, instruction, s⟩) hcall hg ho
    rw [hnone] at hopened
    cases o with
    | frame inner pending => cases hopened
    | done gas =>
      have ht : Gauged sc.ctx.depth limit s t := (wp_of_ok ho).1 hopen
      exact (wp_pure _).2 (ht.trans ⟨rfl, .of_eq rfl⟩)
  · have hcall : instruction.op.isCall = false := by simpa using hcall
    by_cases hstore : instruction.op = .sstore
    · have hop : executeInstruction exec sc instruction = opSstore sc instruction := by
        unfold executeInstruction
        simp only [hstore]
      rw [hop]
      exact wp_mono (wp_opSstore_shows hs instruction) (fun _ _ ht => ht.1) fun _ _ h => h
    · have hkeeps : Keeps (idling sc.ctx.depth limit) (executeInstruction exec sc instruction) :=
        listens_idling.instruction exec hcall (fun h => absurd h hstore) fun _ _ _ _ => ⟨⟨rfl, .of_eq rfl⟩, rfl⟩
      exact hkeeps.run (fun _ _ h => h) fun _ _ _ ht => ht.1

/-! ## What the loop traces itself -/

omit [Crypto]

theorem gauged_haltFrame (reason : HaltReason) :
    Keeps (gauging sc.ctx.depth limit) (haltFrame sc reason : M LoggingTracer (Option Bytes)) := by
  have hsaid : Keeps (gauging sc.ctx.depth limit) (emit sc.ctx.depth true (.halt reason)) :=
    gauged_emit (shows_note fun _ h => nomatch h)
  refine Keeps.bind (.modify ?_) fun _ => hsaid.bind fun _ => .pure _
  exact fun _ => ⟨rfl, .of_eq rfl⟩

theorem gauged_drainGas : Keeps (gauging sc.ctx.depth limit) (drainGas : M LoggingTracer Unit) :=
  .modify fun _ => ⟨rfl, .of_eq rfl⟩

theorem gauged_attempted (cost : Int) :
    Keeps (gauging sc.ctx.depth limit) (attempt (takeGas cost) : M LoggingTracer (Option Unit)) := fun u => by
  have hsub : (u.evm.gas.sub cost).1.limit = u.evm.gas.limit := by
    unfold Gas.sub
    split <;> rfl
  simp only [wp_attempt, takeGas, Evm.takeGas, wp_onEvm, wp_bind, wp_get, wp_modify, wp_ite, wp_pure, wp_error]
  exact ⟨fun _ => ⟨hsub, .of_eq rfl⟩, fun _ => ⟨fun _ _ => ⟨hsub, .of_eq rfl⟩, fun h => absurd rfl (h _)⟩⟩

/-- It shows no more than remains, whatever the cost. -/
theorem wp_recordOp_shows (hs : s.evm.gas.limit = limit) (instruction : Instruction) (cost : Int) (recorded : Bool) :
    wp (recordOp sc instruction cost recorded : M LoggingTracer Unit) (fun _ => Gauged sc.ctx.depth limit s)
      (fun _ => Gauged sc.ctx.depth limit s) s := by
  have hsum : s.evm.gas.used + s.evm.gas.remaining = limit := by
    rw [← hs, Gas.remaining]
    omega
  unfold recordOp
  refine wp_ite.2 ⟨fun _ => (wp_pure _).2 (.refl _ _ s), fun _ => ?_⟩
  simp only [wp_bind, wp_get, wp_modify, wp_emit]
  refine ⟨rfl, [_], rfl, fun e he => ?_⟩
  rw [List.mem_singleton.1 he]
  exact shows_op (by omega) (by omega)

theorem wp_settleStep_shows (hs : s.evm.gas.limit = limit) (instruction : Instruction) (r : Option StepResult)
    (hfailed : r = none → 0 ≤ s.evm.gas.remaining) :
    wp (settleStep sc instruction r : M LoggingTracer (Option Bytes)) (fun _ => Gauged sc.ctx.depth limit s)
      (fun _ => Gauged sc.ctx.depth limit s) s := by
  cases r with
  | none =>
    have hsum := (Solvent.mk hs (hfailed rfl)).sum
    unfold settleStep
    rw [wp_bind, halted, wp_modify, wp_bind, wp_get, wp_bind, wp_emit, wp_bind, drainGas, wp_modify, wp_pure]
    refine ⟨rfl, [_], rfl, fun e he => ?_⟩
    rw [List.mem_singleton.1 he]
    exact shows_op hsum (hfailed rfl)
  | some r =>
    cases r with
    | halt cost =>
      unfold settleStep
      rw [wp_bind, halted, wp_modify, wp_bind]
      have hhalted : Gauged sc.ctx.depth limit s { s with evm.stopped := true, evm.reverted := true } := ⟨rfl, .of_eq rfl⟩
      refine wp_mono (wp_recordOp_shows ?_ instruction cost _) (fun _ t ht => ?_) fun _ _ h => hhalted.trans h
      · exact hs
      have ht := hhalted.trans ht
      exact (gauged_drainGas.bind fun _ => gauged_haltFrame _).run (fun _ _ h => ht.trans h) fun _ _ _ h => ht.trans h
    | ok cost =>
      unfold settleStep
      rw [wp_bind]
      refine wp_mono (wp_recordOp_shows hs instruction cost _) (fun _ t ht => ?_) fun _ _ h => h
      refine Keeps.run (F := gauging sc.ctx.depth limit) ?_ (fun _ _ h => ht.trans h) fun _ _ _ h => ht.trans h
      refine .ite (fun _ => gauged_drainGas.bind fun _ => gauged_haltFrame _) fun _ =>
        (gauged_attempted cost).bind fun charged => ?_
      cases charged with
      | none => exact gauged_haltFrame _
      | some _ => exact .pure _

theorem wp_finishFrame_shows (hs : Solvent limit s) :
    wp (finishFrame sc : M LoggingTracer Bytes) (fun _ => Gauged sc.ctx.depth limit s)
      (fun _ => Gauged sc.ctx.depth limit s) s := by
  have hsum := hs.sum
  unfold finishFrame emitStop
  simp only [wp_bind, wp_get, wp_ite, wp_emit, wp_pure]
  refine ⟨fun _ => ⟨rfl, [_], rfl, fun e he => ?_⟩, fun _ => .refl _ _ s⟩
  rw [List.mem_singleton.1 he]
  exact shows_op hsum hs.covered

end

/-! ## Runs -/

section

variable [Crypto] {sc : Scope} {s : Machine LoggingTracer} {instruction : Instruction} {exec : Exec LoggingTracer}

/-- Every run of a frame shows its gas, also one that fails. -/
def Showing (exec : Exec LoggingTracer) : Prop :=
  ∀ sc s, Sound s → wp (exec sc) (fun _ => Gauged sc.ctx.depth s.evm.gas.limit s)
    (fun _ => Gauged sc.ctx.depth s.evm.gas.limit s) s

omit [Crypto] in
theorem Sound.solvent (hs : Sound s) : Solvent s.evm.gas.limit s := ⟨rfl, hs.covered⟩

/-- An instruction that opens a frame: what the frame traced lies deeper. -/
theorem wp_opened_shows {hist : Scope → Machine LoggingTracer → History LoggingTracer} (tracks : Tracks exec hist)
    (showing : Showing exec) (hs : Sound s) {inner : Inner LoggingTracer} {pending : Pending}
    {opened : Machine LoggingTracer}
    (hopened : openedFrame sc instruction s = some (inner, pending, opened)) :
    wp (executeInstruction exec sc instruction) (fun _ => Gauged sc.ctx.depth s.evm.gas.limit s)
      (fun f t => Gauged sc.ctx.depth s.evm.gas.limit s t ∧ ∀ r, f ≠ .report r) s := by
  obtain ⟨hcall, hg, ho⟩ := openedFrame_some (x := ⟨sc, instruction, s⟩) hopened
  have hopens := opens_of_openedFrame (x := ⟨sc, instruction, s⟩) hopened
  have hforwards := (opened_forwards (x := ⟨sc, instruction, s⟩) hs.paid hopened).1
  have hnests := openedFrame_nested hopened
  have hopening : (idling sc.ctx.depth s.evm.gas.limit).ok s opened :=
    (wp_of_ok ho).1 (wp_openFrame_shows hs.solvent instruction)
  have hran : ∀ e : Ext, Gauged sc.ctx.depth s.evm.gas.limit s { opened with ext := e } := fun e =>
    hopening.1.trans ⟨rfl, .of_eq rfl⟩
  rw [executeInstruction_call (x := ⟨sc, instruction, s⟩) hcall]
  refine wp_opCall_of (fun r hr => ?_) fun _ => ?_
  · rw [hg] at hr
    cases hr
  unfold callFrame
  rw [wp_bind, wp_of_ok ho, wp_bind, wp_runInner]
  have hinner := showing inner.scope (inner.machine opened.ext)
    (hopens.fresh.started (hforwards.free.trans hforwards.least) opened.ext).sound
  refine wp_def.2 ⟨fun ret i he => ?_, fun f i he => ?_⟩
  · have hdeep : ∀ e ∈ i.exe.tracer.events, sc.ctx.depth < e.depth := fun e hmem => by
      obtain ⟨es, hevents, hshows⟩ := ((wp_of_ok he).1 hinner).adds
      have hempty : (inner.machine opened.ext).events = [] := by
        show inner.exe.tracer.events = []
        rw [hnests.tracer]
        rfl
      rw [hempty, List.nil_append] at hevents
      have hdepth := (hshows e (hevents ▸ hmem)).1
      rw [hnests.depth] at hdepth
      exact hdepth
    have hsolvent : Solvent s.evm.gas.limit ({ opened with ext := i.ext } : Machine LoggingTracer) :=
      hs.solvent.idle ⟨hran i.ext, hopening.2⟩
    have hcost : pending.traced ≤ opened.evm.gas.remaining := by
      have hleft : opened.evm.gas.remaining = s.evm.gas.remaining := by
        rw [Gas.remaining, Gas.remaining, hopening.1.same, hopening.2]
      have hmost := hforwards.most
      rw [hnests.traced, hleft]
      dsimp only at hmost
      omega
    have hext : opened.ext.Extends i.ext := tracks.extends hopens.fresh he
    have hsilent : wp (closeFrame sc instruction pending ⟨i.exe.tracer, ret, i.evm⟩) (fun _ _ => True)
      (fun f _ => ∀ r, f ≠ .report r)
        { opened with ext := i.ext } := wp_mono (wp_closeFrame hopens hs.stack rfl hext)
          (fun _ _ _ => trivial) fun _ _ h => h
    refine wp_mono (wp_and hsilent (wp_closeFrame_shows hsolvent instruction hcost hdeep)) (fun _ t ht => ?_)
      fun f t ht => ⟨⟨(hran _).trans ht.2, ht.1⟩, fun r hr => absurd hr (ht.1 r)⟩
    exact ((hran _).trans ht.2).trans ⟨rfl, .of_eq rfl⟩
  · have hsilent := (tracks.silent _).error he
    exact ⟨⟨hran _, hsilent⟩, fun r hr => absurd hr (hsilent r)⟩

theorem wp_executeStep_shows {hist : Scope → Machine LoggingTracer → History LoggingTracer} (tracks : Tracks exec hist)
    (showing : Showing exec) (hs : Sound s) :
    wp (executeStep exec sc instruction) (fun _ => Gauged sc.ctx.depth s.evm.gas.limit s)
      (fun _ => Gauged sc.ctx.depth s.evm.gas.limit s) s := by
  have hsettles : ∀ (r : Option StepResult) (t : Machine LoggingTracer), Gauged sc.ctx.depth s.evm.gas.limit s t →
      (r = none → 0 ≤ t.evm.gas.remaining) → wp (settleStep sc instruction r)
        (fun _ => Gauged sc.ctx.depth s.evm.gas.limit s)
        (fun _ => Gauged sc.ctx.depth s.evm.gas.limit s) t := fun r t ht hfailed =>
    wp_mono (wp_settleStep_shows ht.same instruction r hfailed) (fun _ _ h => ht.trans h) fun _ _ h => ht.trans h
  unfold executeStep
  rw [wp_bind, wp_attempt]
  cases ho : openedFrame sc instruction s with
  | none =>
    exact wp_mono (wp_unopened_shows hs.solvent ho) (fun r t ht => hsettles _ t ht (nomatch ·))
      fun f t ht => ⟨fun _ _ => hsettles none t ht.1 fun _ => (hs.solvent.failed ht).covered, fun _ => ht.1⟩
  | some node =>
    obtain ⟨inner, pending, opened⟩ := node
    exact wp_mono (wp_opened_shows tracks showing hs ho) (fun r t ht => hsettles _ t ht (nomatch ·))
      fun f t ⟨ht, hsilent⟩ => ⟨fun r hr => absurd hr (hsilent r), fun _ => ht⟩

theorem frame_showing (h : Showing exec) : Showing (frameWith exec) := by
  intro sc s hs
  have henter : Keeps (gauging sc.ctx.depth s.evm.gas.limit) (enterFrame sc : M LoggingTracer Unit) :=
    (listens_gauging.note rfl).bind fun _ => .ite (fun _ => .pure _) fun _ => listens_gauging.warmTouch _
  unfold frameWith
  refine henter.step (fun _ _ h => h) fun _ t he ht => wp_ite.2 ⟨fun _ => ?_, fun _ => ?_⟩
  · rw [wp_bind, halted, wp_modify, wp_pure]
    exact ht.trans ⟨rfl, .of_eq rfl⟩
  · have hrest := h sc t (sound_enterFrame hs he).1
    rw [ht.same] at hrest
    exact wp_mono hrest (fun _ _ h => ht.trans h) fun _ _ h => ht.trans h

theorem loop_showing (fuel : Nat) : Showing (executeLoop fuel) := by
  induction fuel with
  | zero => exact fun sc s _ => (wp_throw _).2 (.refl _ _ s)
  | succ fuel ih =>
    intro sc s hs
    cases hi : currentInstruction sc s.evm with
    | none =>
      rw [wp_def, executeLoop_done hi]
      exact wp_def.1 (wp_finishFrame_shows hs.solvent)
    | some instruction =>
      have hstep : wp (executeStep (executeWithContext fuel) sc instruction)
        (fun _ => Gauged sc.ctx.depth s.evm.gas.limit s)
          (fun _ => Gauged sc.ctx.depth s.evm.gas.limit s) s := wp_executeStep_shows (tracks_run fuel) (frame_showing ih) hs
      rw [wp_def, executeLoop_step hi]
      cases he : executeStep (executeWithContext fuel) sc instruction s with
      | error f t =>
        have ht : Gauged sc.ctx.depth s.evm.gas.limit s t := (wp_of_error he).1 hstep
        exact ⟨fun _ _ h => (nomatch h), fun _ _ h => by cases h; exact ht⟩
      | ok o t =>
        have ht : Gauged sc.ctx.depth s.evm.gas.limit s t := (wp_of_ok he).1 hstep
        cases o with
        | some ret => exact ⟨fun _ _ h => by cases h; exact ht, fun _ _ h => (nomatch h)⟩
        | none =>
          have hrest := ih sc t ((hs.turns hi he).sound rfl)
          rw [ht.same] at hrest
          exact wp_def.1 (wp_mono hrest (fun _ _ h => ht.trans h) fun _ _ h => ht.trans h)

theorem run_showing (fuel : Nat) : Showing (executeWithContext fuel) := frame_showing (loop_showing fuel)

/-- The frames of a call tree, each where it starts. -/
inductive Starts (sc₀ : Scope) (s₀ : Machine LoggingTracer) : Scope → Machine LoggingTracer → Prop
  | top : Starts sc₀ s₀ sc₀ s₀
  | inner {sc : Scope} {s opened : Machine LoggingTracer} {instruction : Instruction} {inner : Inner LoggingTracer}
      {pending : Pending} (h : Reaches sc₀ s₀ sc s) (current : currentInstruction sc s.evm = some instruction)
      (opens : openedFrame sc instruction s = some (inner, pending, opened)) :
      Starts sc₀ s₀ inner.scope (inner.machine opened.ext)

theorem Starts.started {sc₀ sc : Scope} {s₀ s : Machine LoggingTracer} (hs₀ : Started s₀) (h : Starts sc₀ s₀ sc s) :
    Started s := by
  cases h with
  | top => exact hs₀
  | inner h _ opens =>
    have hopens := opens_of_openedFrame (x := ⟨_, _, _⟩) opens
    have hforwards := (opened_forwards (x := ⟨_, _, _⟩) (h.sound hs₀).paid opens).1
    exact hopens.fresh.started (hforwards.free.trans hforwards.least) _

/-- The gas of a trace is consistent: however a frame of the call tree ends, in each event of an
    instruction that it emits itself the gas used and the gas left make up its limit, and the
    gas left is not negative. -/
theorem trace_gas {sc₀ sc : Scope} {s₀ s t : Machine LoggingTracer} {fuel : Nat} (hs₀ : Started s₀) (h : Starts sc₀ s₀ sc s)
    (hrun : (∃ ret, executeWithContext fuel sc s = .ok ret t) ∨ ∃ f, executeWithContext fuel sc s = .error f t) :
    ∃ es, t.events = s.events ++ es ∧ ∀ e ∈ es, sc.ctx.depth ≤ e.depth ∧
      (e.depth = sc.ctx.depth → ∀ op, e.data = .opCode op →
      op.gasUsed + op.gasLeft = s.evm.gas.limit ∧ 0 ≤ op.gasLeft) := by
  have hshows := run_showing fuel sc s (h.started hs₀).sound
  rcases hrun with ⟨ret, hrun⟩ | ⟨f, hrun⟩
  · exact ((wp_of_ok hrun).1 hshows).adds
  · exact ((wp_of_error hrun).1 hshows).adds

end

namespace Sample

/-- The caller's run, traced. -/
def tracedCaller : Machine LoggingTracer := ⟨.withTracer {} ⟨[]⟩, { gas := .new 100000 }, callerMachine.ext⟩

def isOpCode : EventData → Bool
  | .opCode _ => true
  | _ => false

end Sample

open Sample in
theorem trace_gas_caller : ∃ ret t, executeWithContext 12 (scope caller) tracedCaller = .ok ret t ∧
    (t.events.filter fun e => e.depth = 1 && isOpCode e.data).length = 9 ∧
    ∀ e ∈ t.events, e.depth = 1 → ∀ op, e.data = .opCode op → op.gasUsed + op.gasLeft = 100000 ∧ 0 ≤ op.gasLeft := by
  have hrun : returns (executeWithContext 12 (scope caller) tracedCaller)
      (fun _ t => decide ((t.events.filter fun e => e.depth = 1 && isOpCode e.data).length = 9)) := by decide +kernel
  obtain ⟨ret, t, hrun, hcount⟩ := of_returns hrun
  obtain ⟨es, ht, hes⟩ := trace_gas ⟨rfl, rfl, rfl, rfl, by decide, rfl⟩ .top (.inl ⟨ret, hrun⟩)
  refine ⟨ret, t, hrun, of_decide_eq_true hcount, fun e he hdepth op hop => ?_⟩
  rw [ht] at he
  exact (hes e he).2 hdepth op hop

end Solenoid
