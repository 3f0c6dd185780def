/-
  Solenoid.Runner — a transaction from the outside (`solenoid.rs`): `Runner::apply` and the
  gas it reports.

  A call goes through `execute`; a creation runs its code with `execute_with_context` and is
  settled here, by the same rules written once more. Which of the two it is shows in the
  recipient: a creation's is zero.
-/
import Solenoid.Executor

namespace Solenoid

structure GasResult where
  gasMax : Int
  gasUse : Int
  gasFee : Word
  deriving DecidableEq

structure CallResult (T : Type) where
  evm : Evm
  ret : Bytes
  tracer : T
  gas : GasResult

structure Runner where
  header : Header
  call : Call
  code : Bytes

/-- A creation, as it is asked for. -/
structure CreateBuilder where
  header : Header
  from_ : Address
  value : Word
  gas : Word
  code : Bytes

/-- The code is handed to the runner as such: the call carries no data. -/
def CreateBuilder.ready (b : CreateBuilder) : Runner where
  header := b.header
  call := { from_ := b.from_, to_ := 0, value := b.value, gas := b.gas }
  code := b.code

namespace Runner

variable {T : Type} [EventTracer T] [Crypto]

/-- The code of the recipient, or the one to be deployed. -/
def givenCode (r : Runner) : M T Bytes := do
  if r.call.to_ = 0 then return r.code else return (← touchCode r.call.to_).1

/-- A delegation is followed once. -/
def resolveCode (r : Runner) : M T Bytecode := do
  let code ← r.givenCode
  match delegation code with
  | some target => return decode (← touchCode target).1
  | none => return decode code

/-- What the transaction costs before its first instruction, without the access list. -/
def intrinsicGas (call : Call) : Int :=
  if call.to_ = 0 then dataCost call.data + 32000 + callCost + 2 * divCeil call.data.length 32
  else callCost + dataCost call.data

/-- The gas the transaction starts with. -/
def startGas (r : Runner) : M T Int := do
  let reduction := intrinsicGas r.call + (← get).ext.txCtx.accessListCost
  onExt Ext.applyAccessList
  let gas ← lift r.call.gas.asI64
  modify fun s => { s with evm.gas := .new (gas - reduction) }
  return reduction

/-- The address a creation by the sender gets is prepared for a call too. -/
def prepareCreated (r : Runner) : M T Address := do
  let sender ← onExt (Ext.pull r.call.from_)
  let created := r.call.from_.create sender.nonce
  openAccount created
  return created

/-- The value of a creation moves before its code runs, if the sender has it. -/
def fundCreated (r : Runner) (created : Address) : M T Unit := do
  if r.call.to_ ≠ 0 ∨ r.call.value = 0 then return ()
  else
    let senderBalance ← onExt (Ext.balance r.call.from_)
    let createdBalance ← onExt (Ext.balance created)
    if senderBalance.toNat < r.call.value.toNat then return ()
    else
      let newSender ← lift (senderBalance.sub r.call.value)
      let newCreated ← lift (createdBalance.add r.call.value)
      onExt (Ext.accountMut r.call.from_ fun a => { a with value := newSender })
      onExt (Ext.accountMut created fun a => { a with value := newCreated })
      touch (.setValue r.call.from_ senderBalance newSender)
      touch (.setValue created createdBalance newCreated)

/-- EIP-3651: the coinbase is warm, and no touch says so. -/
def warmCoinbase (r : Runner) : M T Unit := do
  if r.header.miner = 0 then return ()
  else
    let _ ← onExt (Ext.warmAddress r.header.miner)

/-- `apply` up to the branch on the recipient. -/
def start (r : Runner) : M T (Bytecode × Int × Address) := do
  r.warmCoinbase
  let code ← r.resolveCode
  let reduction ← r.startGas
  let created ← r.prepareCreated
  r.fundCreated created
  return (code, reduction, created)

def gasResult (call : Call) (gas : Int) : M T GasResult := do
  let gasMax ← lift call.gas.asI64
  let gasFee ← lift ((← lift (Word.ofI64 gas)).mul (← get).ext.txCtx.gasPrice)
  return { gasMax, gasUse := gas, gasFee }

def result (ret : Bytes) (gas : GasResult) : M T (CallResult T) := do
  let s ← get
  return { evm := s.evm, ret, tracer := s.exe.tracer, gas }

/-- The nonce of a reverted call's sender is bumped again. -/
def rebumpReverted (sender : Address) : M T Unit := do
  let s ← get
  if !s.evm.reverted then return ()
  else
    match s.ext.state.lookup sender with
    | some account =>
      let nonce ← lift (account.nonce.add 1)
      onExt (Ext.accountMut sender fun a => { a with nonce })
    | none => lift (panic "missing account")

/-- A transaction to an account. -/
def applyCall (fuel : Nat) (r : Runner) (code : Bytecode) (reduction : Int) : M T (CallResult T) := do
  let ret ← execute fuel code r.call
  rebumpReverted r.call.from_
  let evm := (← get).evm
  let gas ← gasResult r.call (evm.gas.finalized reduction evm.reverted)
  result ret gas

/-- `nonce + 1`, with its touch. -/
def countSender (sender : Address) : M T Unit := do
  match (← get).ext.state.lookup sender with
  | some account =>
    let bumped ← lift (account.nonce.add 1)
    onExt (Ext.accountMut sender fun a => { a with nonce := bumped })
    let val ← lift account.nonce.asU64
    let new ← lift (if val < 2 ^ 64 - 1 then .ok (val + 1) else panic "attempt to add with overflow")
    touch (.setNonce sender val new)
  | none => lift (panic "missing account")

/-- The gas a creation is settled with. Without the gas for its code it is reverted. -/
def createdGas (r : Runner) (reduction : Int) (ret : Bytes) : M T (Bytes × Int) := do
  let deployedCodeCost : Int := 200 * ret.length
  let evm := (← get).evm
  if !evm.reverted && evm.gas.remaining < deployedCodeCost then
    modify fun s => { s with evm.reverted := true }
    let gasLimit ← lift r.call.gas.asI64
    let _ ← attempt (takeGas gasLimit)
    return ([], gasLimit)
  else return (ret, evm.gas.finalized (reduction + deployedCodeCost) evm.reverted)

/-- The coinbase gets the priority fee of a creation. -/
def payCreated (r : Runner) (gas : Int) : M T Unit := do
  if r.header.miner = 0 then return ()
  else
    let price ← lift (coinbaseGasPrice (← get).ext.txCtx r.header.baseFee)
    let priorityFeeTotal ← lift ((← lift (Word.ofI64 gas)).mul price)
    if priorityFeeTotal = 0 then return ()
    else
      let coinbase ← onExt (Ext.pull r.header.miner)
      let newBalance ← lift (coinbase.value.add priorityFeeTotal)
      onExt (Ext.accountMut r.header.miner fun a => { a with value := newBalance })
      touch (.feePay r.header.miner coinbase.value newBalance)

/-- The new account gets its code and nonce 1. -/
def install (created : Address) (code : Bytes) : M T Unit := do
  let hash := Crypto.keccak256 code
  onExt (Ext.accountMut created fun a => { a with code := (code, hash) })
  onExt (Ext.accountMut created fun a => { a with nonce := 1 })
  touch (.create created 0 1 code hash)

/-- A creation that was reverted is undone, one that was not is finalised. -/
def finalise (r : Runner) (created : Address) (code : Bytes) : M T Unit := do
  let evm := (← get).evm
  if evm.reverted then
    onExt evm.revert
    countSender r.call.from_
  else
    let _ ← onExt (Ext.pull created)
    let _ ← onExt (Ext.pull r.call.from_)
    countSender r.call.from_
    install created code

/-- The sender of a creation pays at the end. -/
def chargeSender (r : Runner) (gas : Int) : M T Unit := do
  let gasFee ← lift ((← lift (Word.ofI64 gas)).mul (← get).ext.txCtx.gasPrice)
  let senderBalance ← onExt (Ext.balance r.call.from_)
  let newBalance := senderBalance.saturatingSub gasFee
  onExt (Ext.accountMut r.call.from_ fun a => { a with value := newBalance })
  touch (.feePay r.call.from_ senderBalance newBalance)

/-- The top frame of a creation, in the context `apply` gives it. -/
def createScope (r : Runner) (code : Bytecode) (created : Address) : Scope :=
  ⟨code, r.call, { created, callType := .create, depth := 1 }⟩

/-- A transaction to zero. -/
def applyCreate (fuel : Nat) (r : Runner) (code : Bytecode) (reduction : Int) (created : Address) :
    M T (CallResult T) := do
  let ret ← executeWithContext fuel (r.createScope code created)
  let (ret, gas) ← r.createdGas reduction ret
  r.payCreated gas
  r.finalise created ret
  r.chargeSender gas
  result ret (← gasResult r.call gas)

/-- The machine `apply` starts on: a new executor and a new `Evm`. -/
def machine (r : Runner) (ext : Ext) : Machine T := ⟨.withTracer r.header default, {}, ext⟩

def run (fuel : Nat) (r : Runner) : M T (CallResult T) := do
  let (code, reduction, created) ← r.start
  if r.call.to_ ≠ 0 then r.applyCall fuel code reduction else r.applyCreate fuel code reduction created

/-- `Runner::apply`. -/
def apply (fuel : Nat) (r : Runner) : Run Ext (CallResult T) := fun ext =>
  match r.run fuel (r.machine ext) with
  | .ok result s => .ok result s.ext
  | .error f s => .error f s.ext

end Runner

end Solenoid
