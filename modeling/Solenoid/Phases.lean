/-
  Solenoid.Phases — what a transaction does around its frame, part by part.

  A relation between machines that the parts of a phase keep, the phase keeps. Looking at an
  account is one thing (`Looks`, `Reads`), writing its balance or its nonce is another
  (`Values`, `Earns`, `Bills`, `Counts`), and so is the gas the frame starts with (`Fuels`).
  Each phase is taken apart here, for every such relation at once; what a relation says of
  accounts, touches or gas is proved of the parts alone.
-/
import Solenoid.Effects
import Solenoid.Runner

namespace Solenoid

open Hoare

variable {T : Type} [Crypto] {F G : Frame Fault (Machine T)}

/-! ## The parts -/

/-- An account may be looked at. -/
structure Looks (F : Frame Fault (Machine T)) : Prop where
  lifted : ∀ {α : Type} (e : Except Fault α), Keeps F (lift e : M T α)
  pulled : ∀ a, Keeps F (onExt (Ext.pull a) : M T Account)

/-- It may be warmed too, and a touch may say that it was read. -/
structure Reads (F : Frame Fault (Machine T)) : Prop extends Looks F where
  warmed : ∀ a, Keeps F (onExt (Ext.warmAddress a) : M T Bool)
  warmTouch : ∀ a, Keeps F (warmTouch a : M T Unit)
  touchCode : ∀ a, Keeps F (touchCode a : M T (Bytes × Word))
  listed : Keeps F (onExt Ext.applyAccessList : M T Unit)

/-- The balance of an account may be set. -/
structure Values (F : Frame Fault (Machine T)) (a : Address) : Prop where
  valued : ∀ v, Keeps F (onExt (Ext.accountMut a fun x => { x with value := v }) : M T Unit)
  noted : ∀ old new, Keeps F (touch (.setValue a old new) : M T Unit)

/-- An account may be credited. -/
structure Earns (F : Frame Fault (Machine T)) (a : Address) : Prop where
  credited : ∀ v, Keeps F (onExt (Ext.credit a v) : M T Unit)
  noted : ∀ old new, Keeps F (touch (.setValue a old new) : M T Unit)

/-- The gas may be settled with an account. -/
structure Bills (F : Frame Fault (Machine T)) (a : Address) : Prop where
  valued : ∀ v, Keeps F (onExt (Ext.accountMut a fun x => { x with value := v }) : M T Unit)
  noted : ∀ old new, Keeps F (touch (.feePay a old new) : M T Unit)

/-- The nonce of an account may be set. -/
structure Counts (F : Frame Fault (Machine T)) (a : Address) : Prop where
  counted : ∀ n, Keeps F (onExt (Ext.accountMut a fun x => { x with nonce := n }) : M T Unit)
  noted : ∀ val new, Keeps F (touch (.setNonce a val new) : M T Unit)

/-- The frame may get its gas, or be stopped before it starts. -/
structure Fuels (F : Frame Fault (Machine T)) : Prop where
  fuelled : ∀ gas, Keeps F (modify fun s => { s with evm.gas := .new gas } : M T Unit)
  stopped : Keeps F (modify fun s => { s with evm.stopped := true, evm.reverted := false } : M T Unit)

/-- The trace may tell of it. -/
def Announces [EventTracer T] (F : Frame Fault (Machine T)) : Prop := ∀ data, Keeps F (emit 1 false data : M T Unit)

omit [Crypto] in
theorem keeps_warmTouch_of {a : Address} (hw : Keeps F (onExt (Ext.warmAddress a) : M T Bool))
    (ht : Keeps F (touch (.warmUp a) : M T Unit)) : Keeps F (warmTouch a : M T Unit) :=
  hw.bind fun _ => .ite (fun _ => ht) fun _ => .pure _

theorem keeps_read_of {β : Type} {a : Address} (hp : Keeps F (onExt (Ext.pull a) : M T Account)) (f : Account → β) :
    Keeps F (onExt (do return f (← Ext.pull a)) : M T β) := by
  rw [onExt_bind]
  exact hp.bind fun _ s => (wp_onExt _).2 ((wp_pure _).2 (F.refl s))

theorem keeps_touchCode_of {a : Address} (hp : Keeps F (onExt (Ext.pull a) : M T Account))
    (ht : ∀ hash code, Keeps F (touch (.getCode a hash code) : M T Unit)) : Keeps F (touchCode a : M T (Bytes × Word)) :=
  (keeps_read_of hp _).bind fun _ => (ht _ _).bind fun _ => .pure _

omit [Crypto] in
theorem Fuels.stopTransfer (h : Fuels F) (isTransferOnly : Bool) : Keeps F (stopTransfer isTransferOnly : M T Unit) :=
  .ite (fun _ => h.stopped) fun _ => .pure _

/-! ## Phases that look at accounts and write some -/

namespace Looks

variable (h : Looks F)

include h

theorem read {β : Type} (a : Address) (f : Account → β) : Keeps F (onExt (do return f (← Ext.pull a)) : M T β) :=
  keeps_read_of (h.pulled a) f

theorem prepayGas {call : Call} (hfrom : Values F call.from_) : Keeps F (Solenoid.prepayGas call : M T (Word × Word)) := by
  refine Keeps.get.bind fun _ => ?_
  refine (h.lifted _).bind fun _ => ?_
  refine (h.read _ _).bind fun _ => ?_
  exact Keeps.bind (.ite (fun _ => .pure _) fun _ => hfrom.valued _) fun _ => .pure _

theorem fundCreated {r : Runner} {created : Address} (hfrom : Values F r.call.from_) (hcreated : Values F created) :
    Keeps F (r.fundCreated created : M T Unit) := by
  refine .ite (fun _ => .pure _) fun _ => ?_
  refine (h.read _ _).bind fun _ => ?_
  refine (h.read _ _).bind fun _ => ?_
  refine .ite (fun _ => .pure _) fun _ => ?_
  refine (h.lifted _).bind fun _ => ?_
  refine (h.lifted _).bind fun _ => ?_
  refine (hfrom.valued _).bind fun _ => ?_
  refine (hcreated.valued _).bind fun _ => ?_
  refine (hfrom.noted _ _).bind fun _ => ?_
  exact hcreated.noted _ _

theorem prepareCreated (hopen : ∀ a, Keeps F (openAccount a : M T Unit)) (r : Runner) :
    Keeps F (r.prepareCreated : M T Address) := by
  refine (h.pulled _).bind fun _ => ?_
  exact (hopen _).bind fun _ => .pure _

theorem settleSender {call : Call} (hfrom : Bills F call.from_) (gasPrepayment senderBalance : Word) (gas : Int) :
    Keeps F (Solenoid.settleSender call gasPrepayment senderBalance gas : M T Word) := by
  have hrefund : ∀ refund, Keeps F (refundGas call.from_ refund : M T Unit) := fun refund => by
    refine .ite (fun _ => .pure _) fun _ => ?_
    refine (h.read _ _).bind fun _ => ?_
    exact (h.lifted _).bind fun _ => hfrom.valued _
  refine Keeps.get.bind fun _ => ?_
  refine (h.lifted _).bind fun _ => ?_
  refine (h.lifted _).bind fun _ => ?_
  refine (h.lifted _).bind fun _ => ?_
  refine (h.lifted _).bind fun _ => ?_
  refine (hrefund _).bind fun _ => ?_
  refine (h.read _ _).bind fun _ => ?_
  exact (hfrom.noted _ _).bind fun _ => .pure _

theorem rebumpReverted {sender : Address} (hs : Counts F sender) : Keeps F (Runner.rebumpReverted sender : M T Unit) := by
  refine Keeps.get.bind fun s => ?_
  refine .ite (fun _ => .pure _) fun _ => ?_
  cases s.ext.state.lookup sender with
  | some account => exact (h.lifted _).bind fun _ => hs.counted _
  | none => exact h.lifted _

theorem countSender {sender : Address} (hs : Counts F sender) : Keeps F (Runner.countSender sender : M T Unit) := by
  refine Keeps.get.bind fun s => ?_
  cases s.ext.state.lookup sender with
  | some account =>
    refine (h.lifted _).bind fun _ => ?_
    refine (hs.counted _).bind fun _ => ?_
    refine (h.lifted _).bind fun _ => ?_
    refine (h.lifted _).bind fun _ => ?_
    exact hs.noted _ _
  | none => exact h.lifted _

theorem payCreated {r : Runner} (hc : Bills F r.header.miner) (gas : Int) : Keeps F (r.payCreated gas : M T Unit) := by
  refine .ite (fun _ => .pure _) fun _ => ?_
  refine Keeps.get.bind fun _ => ?_
  refine (h.lifted _).bind fun _ => ?_
  refine (h.lifted _).bind fun _ => ?_
  refine (h.lifted _).bind fun _ => ?_
  refine .ite (fun _ => .pure _) fun _ => ?_
  refine (h.pulled _).bind fun _ => ?_
  refine (h.lifted _).bind fun _ => ?_
  exact (hc.valued _).bind fun _ => hc.noted _ _

theorem chargeSender {r : Runner} (hfrom : Bills F r.call.from_) (gas : Int) :
    Keeps F (r.chargeSender gas : M T Unit) := by
  refine (h.lifted _).bind fun _ => ?_
  refine Keeps.get.bind fun _ => ?_
  refine (h.lifted _).bind fun _ => ?_
  refine (h.read _ _).bind fun _ => ?_
  exact (hfrom.valued _).bind fun _ => hfrom.noted _ _

theorem finalise {r : Runner} (hundo : ∀ evm : Evm, Keeps F (onExt evm.revert : M T Unit)) (hfrom : Counts F r.call.from_)
    (created : Address) {code : Bytes} (hinstall : Keeps F (Runner.install created code : M T Unit)) :
    Keeps F (r.finalise created code : M T Unit) := by
  refine Keeps.get.bind fun _ => ?_
  refine .ite (fun _ => ?_) fun _ => ?_
  · exact (hundo _).bind fun _ => h.countSender hfrom
  · refine (h.pulled _).bind fun _ => ?_
    refine (h.pulled _).bind fun _ => ?_
    exact (h.countSender hfrom).bind fun _ => hinstall

variable [EventTracer T] (htold : Announces F)

include htold

theorem bumpNonce {a : Address} (ha : Counts F a) : Keeps F (Solenoid.bumpNonce 1 a : M T Word) := by
  refine (h.read _ _).bind fun _ => ?_
  refine (h.lifted _).bind fun _ => ?_
  refine (ha.counted _).bind fun _ => ?_
  refine (h.lifted _).bind fun _ => ?_
  refine (h.lifted _).bind fun _ => ?_
  refine (ha.noted _ _).bind fun _ => ?_
  exact (htold _).bind fun _ => .pure _

theorem transferValue {call : Call} (hfrom : Values F call.from_) (hto : Earns F call.to_) :
    Keeps F (Solenoid.transferValue call : M T Unit) := by
  refine (h.read _ _).bind fun _ => ?_
  refine (h.read _ _).bind fun _ => ?_
  refine .ite (fun _ => .pure _) fun _ => ?_
  refine (hfrom.valued _).bind fun _ => ?_
  refine (hfrom.noted _ _).bind fun _ => ?_
  refine (htold _).bind fun _ => ?_
  refine (hto.credited _).bind fun _ => ?_
  refine (h.lifted _).bind fun _ => ?_
  refine (hto.noted _ _).bind fun _ => ?_
  refine (h.lifted _).bind fun _ => ?_
  exact htold _

theorem creditCoinbase {coinbase : Address} (hc : Bills F coinbase) (current total : Word) :
    Keeps F (Solenoid.creditCoinbase coinbase current total : M T Unit) := by
  refine .ite (fun _ => hc.noted _ _) fun _ => ?_
  refine (h.lifted _).bind fun _ => ?_
  refine (hc.valued _).bind fun _ => ?_
  refine (htold _).bind fun _ => ?_
  exact hc.noted _ _

/-- The coinbase that is paid is the one of the machine's block. -/
theorem payCoinbase {s : Machine T} (hc : Bills F s.exe.header.miner) (gas : Int) :
    wp (Solenoid.payCoinbase gas) (fun _ => F.ok s) (fun e => F.err e s) s := by
  unfold Solenoid.payCoinbase
  rw [wp_bind, wp_get, wp_ite]
  refine ⟨fun _ => (wp_pure _).2 (F.refl s), fun _ => ?_⟩
  refine (?_ : Keeps F _) s
  refine (h.lifted _).bind fun _ => ?_
  refine (h.lifted _).bind fun _ => ?_
  refine (h.lifted _).bind fun _ => ?_
  refine (h.read _ _).bind fun _ => ?_
  refine (h.creditCoinbase htold hc _ _).bind fun _ => ?_
  exact (h.lifted _).bind fun _ => .pure _

theorem settle (hundo : ∀ evm : Evm, Keeps F (onExt evm.revert : M T Unit)) (hb : ∀ a, Bills F a) (call : Call)
    (gasPrepayment senderBalance : Word) (dataCost : Int) (ret : Bytes) :
    Keeps F (Solenoid.settle call gasPrepayment senderBalance dataCost ret : M T Unit) := by
  refine Keeps.get.bind fun _ => ?_
  refine Keeps.bind (.ite (fun _ => hundo _) fun _ => .pure _) fun _ => ?_
  refine (h.settleSender (hb _) _ _ _).bind fun _ => ?_
  refine Keeps.bind (fun _ => h.payCoinbase htold (hb _) _) fun _ => ?_
  exact (h.lifted _).bind fun _ => htold _

end Looks

/-! ## Phases that warm -/

namespace Reads

variable (h : Reads F)

include h

theorem warmRecipient (to_ : Address) : Keeps F (Solenoid.warmRecipient to_ : M T Unit) := by
  refine .ite (fun _ => .pure _) fun _ => ?_
  refine (h.warmTouch _).bind fun _ => ?_
  refine (h.touchCode _).bind fun code => ?_
  cases delegation code.1 with
  | none => exact .pure _
  | some target => exact h.warmTouch target

theorem prewarm (call : Call) : Keeps F (Solenoid.prewarm call : M T Unit) := by
  refine (h.warmTouch _).bind fun _ => ?_
  refine (h.warmRecipient _).bind fun _ => ?_
  refine Keeps.get.bind fun _ => ?_
  exact .ite (fun _ => .pure _) fun _ => h.warmTouch _

theorem prepare [EventTracer T] (hfuels : Fuels F) (code : Bytecode) {call : Call} (hfrom : Values F call.from_)
    (htransfer : Keeps F (transferValue call : M T Unit)) (hbump : Keeps F (bumpNonce 1 call.from_ : M T Word)) :
    Keeps F (Solenoid.prepare code call : M T (Word × Word × Int × Word)) := by
  refine (h.prewarm call).bind fun _ => ?_
  refine (h.prepayGas hfrom).bind fun _ => ?_
  refine Keeps.get.bind fun _ => ?_
  refine (h.lifted _).bind fun _ => ?_
  refine h.listed.bind fun _ => ?_
  refine (hfuels.fuelled _).bind fun _ => ?_
  refine htransfer.bind fun _ => ?_
  refine hbump.bind fun _ => ?_
  exact (hfuels.stopTransfer _).bind fun _ => .pure _

theorem givenCode (r : Runner) : Keeps F (r.givenCode : M T Bytes) :=
  .ite (fun _ => .pure _) fun _ => (h.touchCode _).bind fun _ => .pure _

theorem resolveCode (r : Runner) : Keeps F (r.resolveCode : M T Bytecode) := by
  refine (h.givenCode r).bind fun code => ?_
  cases delegation code with
  | none => exact .pure _
  | some target => exact (h.touchCode _).bind fun _ => .pure _

theorem warmCoinbase (r : Runner) : Keeps F (r.warmCoinbase : M T Unit) :=
  .ite (fun _ => .pure _) fun _ => (h.warmed _).bind fun _ => .pure _

theorem startGas (hfuels : Fuels F) (r : Runner) : Keeps F (r.startGas : M T Int) := by
  refine Keeps.get.bind fun _ => ?_
  refine h.listed.bind fun _ => ?_
  refine (h.lifted _).bind fun _ => ?_
  exact (hfuels.fuelled _).bind fun _ => .pure _

theorem start (hfuels : Fuels F) (hopen : ∀ a, Keeps F (openAccount a : M T Unit)) {r : Runner}
    (hfund : ∀ created, Keeps F (r.fundCreated created : M T Unit)) :
    Keeps F (r.start : M T (Bytecode × Int × Address)) := by
  refine (h.warmCoinbase r).bind fun _ => ?_
  refine (h.resolveCode r).bind fun _ => ?_
  refine (h.startGas hfuels r).bind fun _ => ?_
  refine (h.prepareCreated hopen r).bind fun _ => ?_
  exact (hfund _).bind fun _ => .pure _

end Reads

/-! ## Relations that admit all of it -/

/-- Any account may be written, and any touch may be left. -/
structure Works (F : Frame Fault (Machine T)) : Prop extends Reads F where
  valued : ∀ a v, Keeps F (onExt (Ext.accountMut a fun x => { x with value := v }) : M T Unit)
  credited : ∀ a v, Keeps F (onExt (Ext.credit a v) : M T Unit)
  counted : ∀ a n, Keeps F (onExt (Ext.accountMut a fun x => { x with nonce := n }) : M T Unit)
  touched : ∀ τ, Keeps F (touch τ : M T Unit)

namespace Works

variable (h : Works F)

/-- A relation that admits more is kept too. -/
theorem mono (h : Works F) (hok : ∀ {s t}, F.ok s t → G.ok s t) (herr : ∀ {e s t}, F.err e s t → G.err e s t) :
    Works G where
  lifted e := (h.lifted e).mono hok herr
  pulled a := (h.pulled a).mono hok herr
  warmed a := (h.warmed a).mono hok herr
  warmTouch a := (h.warmTouch a).mono hok herr
  touchCode a := (h.touchCode a).mono hok herr
  listed := h.listed.mono hok herr
  valued a v := (h.valued a v).mono hok herr
  credited a v := (h.credited a v).mono hok herr
  counted a n := (h.counted a n).mono hok herr
  touched τ := (h.touched τ).mono hok herr

include h

theorem values (a : Address) : Values F a := ⟨h.valued a, fun _ _ => h.touched _⟩

theorem earns (a : Address) : Earns F a := ⟨h.credited a, fun _ _ => h.touched _⟩

theorem bills (a : Address) : Bills F a := ⟨h.valued a, fun _ _ => h.touched _⟩

theorem counts (a : Address) : Counts F a := ⟨h.counted a, fun _ _ => h.touched _⟩

theorem prepayGas (call : Call) : Keeps F (Solenoid.prepayGas call : M T (Word × Word)) := h.toReads.prepayGas (h.values _)

theorem fundCreated (r : Runner) (created : Address) : Keeps F (r.fundCreated created : M T Unit) :=
  h.toReads.fundCreated (h.values _) (h.values _)

theorem start (hfuels : Fuels F) (hopen : ∀ a, Keeps F (openAccount a : M T Unit)) (r : Runner) :
    Keeps F (r.start : M T (Bytecode × Int × Address)) := h.toReads.start hfuels hopen (h.fundCreated r)

theorem settleSender (call : Call) (gasPrepayment senderBalance : Word) (gas : Int) :
    Keeps F (Solenoid.settleSender call gasPrepayment senderBalance gas : M T Word) :=
  h.toReads.settleSender (h.bills _) _ _ _

theorem rebumpReverted (sender : Address) : Keeps F (Runner.rebumpReverted sender : M T Unit) :=
  h.toReads.rebumpReverted (h.counts _)

theorem countSender (sender : Address) : Keeps F (Runner.countSender sender : M T Unit) :=
  h.toReads.countSender (h.counts _)

theorem payCreated (r : Runner) (gas : Int) : Keeps F (r.payCreated gas : M T Unit) :=
  h.toReads.payCreated (h.bills _) gas

theorem chargeSender (r : Runner) (gas : Int) : Keeps F (r.chargeSender gas : M T Unit) :=
  h.toReads.chargeSender (h.bills _) gas

theorem finalise (hundo : ∀ evm : Evm, Keeps F (onExt evm.revert : M T Unit)) (r : Runner) (created : Address)
    {code : Bytes} (hinstall : Keeps F (Runner.install created code : M T Unit)) :
    Keeps F (r.finalise created code : M T Unit) := h.toReads.finalise hundo (h.counts _) created hinstall

variable [EventTracer T] (htold : Announces F)

include htold

theorem bumpNonce (a : Address) : Keeps F (Solenoid.bumpNonce 1 a : M T Word) := h.toReads.bumpNonce htold (h.counts a)

theorem transferValue (call : Call) : Keeps F (Solenoid.transferValue call : M T Unit) :=
  h.toReads.transferValue htold (h.values _) (h.earns _)

theorem prepare (hfuels : Fuels F) (code : Bytecode) (call : Call) :
    Keeps F (Solenoid.prepare code call : M T (Word × Word × Int × Word)) :=
  h.toReads.prepare hfuels code (h.values _) (h.transferValue htold call) (h.bumpNonce htold _)

theorem payCoinbase (gas : Int) : Keeps F (Solenoid.payCoinbase gas : M T Unit) := fun _ =>
  h.toReads.payCoinbase htold (h.bills _) gas

theorem settle (hundo : ∀ evm : Evm, Keeps F (onExt evm.revert : M T Unit)) (call : Call)
    (gasPrepayment senderBalance : Word) (dataCost : Int) (ret : Bytes) :
    Keeps F (Solenoid.settle call gasPrepayment senderBalance dataCost ret : M T Unit) :=
  h.toReads.settle htold hundo h.bills _ _ _ _ _

end Works

end Solenoid
