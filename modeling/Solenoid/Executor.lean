/-
  Solenoid.Executor — the interpreter: `execute_instruction`, the loop of
  `execute_with_context`, and `execute` for a transaction.

  The loop and the frames it opens recurse through each other, so both run on one bound,
  `fuel`: a frame's loop at `n + 1` runs its next turn and its inner frames at `n`. Where
  the source's run ends some bound is enough; the model's `Fault.fuel` says it was not.
-/
import Solenoid.Calls

namespace Solenoid

variable {T : Type} [EventTracer T] [Crypto]

/-! ## One instruction -/

def executeInstruction (exec : Exec T) (sc : Scope) (instruction : Instruction) : M T StepResult :=
  match instruction.op with
  | .stop => opStop sc
  | .add => opAdd
  | .mul => opMul
  | .sub => opSub
  | .div => opDiv
  | .sdiv => opSdiv
  | .mod => opMod
  | .smod => opSmod
  | .addmod => opAddmod
  | .mulmod => opMulmod
  | .exp => opExp
  | .signextend => opSignextend
  | .lt => opLt
  | .gt => opGt
  | .slt => opSlt
  | .sgt => opSgt
  | .eq => opEq
  | .iszero => opIszero
  | .and => opAnd
  | .or => opOr
  | .xor => opXor
  | .not => opNot
  | .byte => opByte
  | .shl => opShl
  | .shr => opShr
  | .sar => opSar
  | .clz => opClz
  | .sha3 => opSha3 sc
  | .address => opAddress sc
  | .balance => opBalance
  | .origin => opOrigin sc
  | .caller => opCaller sc
  | .callvalue => opCallvalue sc
  | .calldataload => opCalldataload sc
  | .calldatasize => opCalldatasize sc
  | .calldatacopy => opCalldatacopy sc
  | .codesize => opCodesize sc
  | .codecopy => opCodecopy sc
  | .gasprice => opGasprice
  | .extcodesize => opExtcodesize
  | .extcodecopy => opExtcodecopy
  | .returndatasize => opReturndatasize
  | .returndatacopy => opReturndatacopy
  | .extcodehash => opExtcodehash
  | .blockhash => opBlockhash
  | .coinbase => opCoinbase
  | .timestamp => opTimestamp
  | .number => opNumber
  | .prevrandao => opPrevrandao
  | .gaslimit => opGaslimit
  | .chainid => opChainid
  | .selfbalance => opSelfbalance sc
  | .basefee => opBasefee
  | .blobhash => opBlobhash
  | .blobbasefee => opBlobbasefee
  | .pop => opPop
  | .mload => opMload
  | .mstore => opMstore
  | .mstore8 => opMstore8
  | .sload => opSload sc
  | .sstore => opSstore sc instruction
  | .jump => opJump sc
  | .jumpi => opJumpi sc
  | .pc => opPc instruction
  | .msize => opMsize
  | .gas => opGas
  | .jumpdest => opJumpdest
  | .tload => opTload sc
  | .tstore => opTstore sc
  | .mcopy => opMcopy
  | .push0 => opPush0
  | .push => opPush instruction
  | .dup => opDup instruction
  | .swap => opSwap instruction
  | .log => opLog sc instruction
  | .return_ => opReturn sc false
  | .revert => opReturn sc true
  | .invalid => next 0
  | .selfdestruct => opSelfdestruct sc instruction
  | .unknown => refuse (.unknownOpcode instruction.opcode.code)
  | .create | .call | .callcode | .delegatecall | .create2 | .staticcall => opCall exec sc instruction

/-! ## The loop -/

/-- A report is the `Err(_)` the loop matches on. -/
def attempt {α : Type} (m : M T α) : M T (Option α) := fun s =>
  match m s with
  | .ok a s => .ok (some a) s
  | .error (.report _) s => .ok none s
  | .error f s => .error f s

def halted : M T Unit := modify fun s => { s with evm.stopped := true, evm.reverted := true }

/-- `evm.gas.sub(evm.gas.remaining())`. -/
def drainGas : M T Unit := modify fun s => { s with evm.gas.used := s.evm.gas.used + s.evm.gas.remaining }

/-- The event of an instruction that returned its cost, unless it has emitted its own. -/
def recordOp (sc : Scope) (instruction : Instruction) (cost : Int) (recorded : Bool) : M T Unit := do
  if recorded then return ()
  else
    let evm := (← get).evm
    let chargedCost := min cost evm.gas.remaining
    modify fun s => { s with evm.refund := evm.gas.refund }
    emit sc.ctx.depth false (opCodeEvent instruction evm chargedCost (evm.gas.used + chargedCost)
      (evm.gas.remaining - chargedCost) (evm.gas.refund - evm.refund))

/-- A frame that halts returns nothing. -/
def haltFrame (sc : Scope) (reason : HaltReason) : M T (Option Bytes) := do
  halted
  emit sc.ctx.depth true (.halt reason)
  return some []

/-- What follows `execute_instruction` in the loop: `some` is the output the frame
    returns with, `none` is the next turn. -/
def settleStep (sc : Scope) (instruction : Instruction) : Option StepResult → M T (Option Bytes)
  | none => do
    halted
    let evm := (← get).evm
    emit sc.ctx.depth true (opCodeEvent instruction evm 0 evm.gas.used evm.gas.remaining (evm.gas.refund - evm.refund))
    drainGas
    return some []
  | some (.halt cost) => do
    halted
    recordOp sc instruction cost (instruction.isCall || instruction.opcode.name == "SSTORE")
    drainGas
    haltFrame sc (if instruction.opcode.code = 0xfe then .invalidOpcode else .outOfGas)
  | some (.ok cost) => do
    recordOp sc instruction cost instruction.isCall
    if instruction.opcode.code = 0xfe then
      drainGas
      haltFrame sc .invalidOpcode
    else
      match ← attempt (takeGas cost) with
      | none => haltFrame sc .outOfGas
      | some () => return if instruction.opcode.code = 0xff then some [] else none

def executeStep (exec : Exec T) (sc : Scope) (instruction : Instruction) : M T (Option Bytes) := do
  settleStep sc instruction (← attempt (executeInstruction exec sc instruction))

def emitStop (sc : Scope) (evm : Evm) : M T Unit :=
  if !evm.stopped && !sc.code.instructions.isEmpty then
    emit sc.ctx.depth false (opCodeEvent ⟨⟨0x00, "STOP", 0⟩, evm.pc, none⟩ evm 0 evm.gas.used evm.gas.remaining 0)
  else return ()

/-- Past the last instruction: an implicit STOP, which returns the return buffer. -/
def finishFrame (sc : Scope) : M T Bytes := do
  emitStop sc (← get).evm
  return (← get).exe.ret

/-- The instruction the loop's condition lets through. -/
def currentInstruction (sc : Scope) (evm : Evm) : Option Instruction :=
  if evm.stopped then none else sc.code.instructions[evm.pc]?

/-- One turn of the loop and, through `rest`, the turns after it. -/
def turn (exec rest : Exec T) (sc : Scope) : M T Bytes := do
  match currentInstruction sc (← get).evm with
  | none => finishFrame sc
  | some instruction =>
    match ← executeStep exec sc instruction with
    | some ret => return ret
    | none => rest sc

/-- `execute_with_context` up to its loop: the CALL event, and the caller made warm. -/
def enterFrame (sc : Scope) : M T Unit := do
  emit sc.ctx.depth false (.call sc.call.data sc.call.value sc.call.from_ sc.call.to_ sc.call.gas sc.ctx.callType)
  if sc.call.from_ = 0 then return () else warmTouch sc.call.from_

/-- `execute_with_context`, given its loop. -/
def frameWith (loop : Exec T) (sc : Scope) : M T Bytes := do
  enterFrame sc
  if callDepthLimit < sc.ctx.depth then
    halted
    return []
  else loop sc

def executeLoop : Nat → Exec T
  | 0 => fun _ => throw .fuel
  | fuel + 1 => turn (frameWith (executeLoop fuel)) (executeLoop fuel)

def executeWithContext (fuel : Nat) : Exec T := frameWith (executeLoop fuel)

/-! ## Transactions -/

/-- The recipient is warm from the start, and so is the account it delegates to (EIP-7702). -/
def warmRecipient (to_ : Address) : M T Unit := do
  if to_ = 0 then return ()
  else
    warmTouch to_
    let code ← touchCode to_
    match delegation code.1 with
    | some target => warmTouch target
    | none => return ()

/-- The accounts warm from the start (EIP-2929, EIP-3651). -/
def prewarm (call : Call) : M T Unit := do
  warmTouch call.from_
  warmRecipient call.to_
  let coinbase := (← get).exe.header.miner
  if coinbase = 0 then return () else warmTouch coinbase

def takePrepayment (sender : Address) (balance gasPrepayment : Word) : M T Unit :=
  if gasPrepayment = 0 then return ()
  else onExt (Ext.accountMut sender fun a => { a with value := balance.saturatingSub gasPrepayment })

/-- The prepayment for all the gas, taken but not yet given to anyone. -/
def prepayGas (call : Call) : M T (Word × Word) := do
  let gasPrepayment ← lift (call.gas.mul (← get).ext.txCtx.gasPrice)
  let senderBalance ← onExt (Ext.balance call.from_)
  takePrepayment call.from_ senderBalance gasPrepayment
  return (gasPrepayment, senderBalance)

def dataCost (data : Bytes) : Int :=
  let nonzero := (data.filter (· ≠ 0)).length
  nonzero * 16 + (data.length - nonzero) * 4

def callCost : Int := 21000

/-- The value goes to the recipient before the code runs. The second event carries the
    sender's balance. -/
def transferValue (call : Call) : M T Unit := do
  let src ← onExt (Ext.balance call.from_)
  let dst ← onExt (Ext.balance call.to_)
  if call.value = 0 ∨ call.to_ = 0 then return ()
  else
    let updated := src.saturatingSub call.value
    onExt (Ext.accountMut call.from_ fun a => { a with value := updated })
    touch (.setValue call.from_ src updated)
    emit 1 false (.account (.setValue call.from_ src updated))
    onExt (Ext.credit call.to_ call.value)
    touch (.setValue call.to_ dst (← lift (dst.add call.value)))
    emit 1 false (.account (.setValue call.to_ src (← lift (src.add call.value))))

/-- A mere transfer runs no code. -/
def stopTransfer (isTransferOnly : Bool) : M T Unit :=
  if isTransferOnly then modify fun s => { s with evm.stopped := true, evm.reverted := false } else return ()

/-- `execute` up to the frame: its result is the prepayment, the sender's balance before
    it, the cost of the data and the sender's nonce. -/
def prepare (code : Bytecode) (call : Call) : M T (Word × Word × Int × Word) := do
  prewarm call
  let prepaid ← prepayGas call
  let accessListCost := (← get).ext.txCtx.accessListCost
  let gas ← lift call.gas.asI64
  onExt Ext.applyAccessList
  let dataCost := dataCost call.data
  modify fun s => { s with evm.gas := .new (gas - callCost - accessListCost - dataCost) }
  transferValue call
  let nonce ← bumpNonce 1 call.from_
  stopTransfer (code.bytecode = [] ∧ call.data = [] ∧ call.to_ ≠ 0)
  return (prepaid.1, prepaid.2, dataCost, nonce)

/-- The top frame runs in an executor of its own, on the transaction's `Evm`. -/
def runTop (exec : Exec T) (sc : Scope) : M T Bytes := fun s =>
  match exec sc ⟨.withTracer s.exe.header (EventTracer.fork s.exe.tracer), s.evm, s.ext⟩ with
  | .ok ret i =>
    .ok ret ⟨{ s.exe with tracer := EventTracer.join s.exe.tracer i.exe.tracer i.evm.reverted }, i.evm, i.ext⟩
  | .error f i => .error f ⟨s.exe, i.evm, i.ext⟩

/-- EIP-7623: the least gas the call data costs. -/
def gasFloor (data : Bytes) : Int :=
  let zeros := (data.filter (· = 0)).length
  callCost + 10 * (zeros + (data.length - zeros) * 4)

def gasCosts (tx : TxContext) (call : Call) (dataCost : Int) (ret : Bytes) : Int :=
  if call.to_ ≠ 0 then callCost + dataCost + tx.accessListCost
  else callCost + dataCost + 32000 + 2 * divCeil call.data.length 32 + 200 * ret.length + tx.accessListCost

/-- The gas the transaction is settled with. -/
def gasFinal (tx : TxContext) (call : Call) (dataCost : Int) (ret : Bytes) (evm : Evm) : Int :=
  max (evm.gas.finalized (gasCosts tx call dataCost ret) evm.reverted) (gasFloor call.data)

def effectiveGasPrice (tx : TxContext) (baseFee : Word) : Except Fault Word := do
  if tx.gasMaxPriorityFee = 0 then return tx.gasPrice
  else
    let basePlusPriority ← baseFee.add tx.gasMaxPriorityFee
    return if tx.gasMaxFee.toNat ≤ basePlusPriority.toNat then tx.gasMaxFee else basePlusPriority

def coinbaseGasPrice (tx : TxContext) (baseFee : Word) : Except Fault Word :=
  return (← effectiveGasPrice tx baseFee).saturatingSub baseFee

def refundGas (sender : Address) (gasRefund : Word) : M T Unit := do
  if gasRefund = 0 then return ()
  else
    let src ← onExt (Ext.balance sender)
    let newBalance ← lift (src.add gasRefund)
    onExt (Ext.accountMut sender fun a => { a with value := newBalance })

/-- The sender gets back what it prepaid beyond the fee; its result is the fee. -/
def settleSender (call : Call) (gasPrepayment senderBalance : Word) (gas : Int) : M T Word := do
  let s ← get
  let price ← lift (effectiveGasPrice s.ext.txCtx s.exe.header.baseFee)
  let gasUsedFee ← lift ((← lift (Word.ofI64 gas)).mul price)
  let gasRefund ← lift (gasPrepayment.sub gasUsedFee)
  refundGas call.from_ gasRefund
  let balanceAfter ← onExt (Ext.balance call.from_)
  touch (.feePay call.from_ senderBalance balanceAfter)
  return gasUsedFee

def creditCoinbase (coinbase : Address) (current priorityFeeTotal : Word) : M T Unit := do
  if priorityFeeTotal = 0 then touch (.feePay coinbase current current)
  else
    let newBalance ← lift (current.add priorityFeeTotal)
    onExt (Ext.accountMut coinbase fun a => { a with value := newBalance })
    emit 1 false (.account (.setValue coinbase current newBalance))
    touch (.feePay coinbase current newBalance)

/-- EIP-4844: computed, and charged to nobody. -/
def blobFee (tx : TxContext) (header : Header) : Except Fault Word := do
  if tx.blobGasUsed = 0 then return 0
  else
    let price ← header.blobGasPrice
    Word.mul (BitVec.ofNat 256 tx.blobGasUsed) (if price.toNat ≤ tx.blobMaxFee.toNat then price else tx.blobMaxFee)

/-- The coinbase gets the priority fee. -/
def payCoinbase (gas : Int) : M T Unit := do
  let s ← get
  let coinbase := s.exe.header.miner
  if coinbase = 0 then return ()
  else
    let price ← lift (coinbaseGasPrice s.ext.txCtx s.exe.header.baseFee)
    let priorityFeeTotal ← lift ((← lift (Word.ofI64 gas)).mul price)
    let current ← onExt (Ext.balance coinbase)
    creditCoinbase coinbase current priorityFeeTotal
    let _ ← lift (blobFee s.ext.txCtx s.exe.header)

def undoReverted (evm : Evm) : M T Unit := if evm.reverted then onExt evm.revert else return ()

/-- `execute` from the frame's end. -/
def settle (call : Call) (gasPrepayment senderBalance : Word) (dataCost : Int) (ret : Bytes) : M T Unit := do
  let s ← get
  undoReverted s.evm
  let gas := gasFinal s.ext.txCtx call dataCost ret s.evm
  let gasUsedFee ← settleSender call gasPrepayment senderBalance gas
  payCoinbase gas
  emit 1 false (.fee (← lift (Word.ofI64 gas)) s.ext.txCtx.gasPrice gasUsedFee)

def topScope (code : Bytecode) (call : Call) (nonce : Word) : Scope :=
  ⟨code, call, { created := call.from_.create nonce, origin := call.from_, depth := 1 }⟩

def execute (fuel : Nat) (code : Bytecode) (call : Call) : M T Bytes := do
  let (gasPrepayment, senderBalance, dataCost, nonce) ← prepare code call
  let ret ← runTop (executeWithContext fuel) (topScope code call nonce)
  settle call gasPrepayment senderBalance dataCost ret
  return ret

/-! ## Concrete runs -/

namespace Sample

/-- Keccak-256 of what the concrete runs hash: no bytes at all, and the addresses that 0xaa and
    0xca create with nonce 0. -/
def digests : List (Bytes × Word) :=
  [([], 0xc5d2460186f7233c927e7db2dcc703c0e500b653ca82273b7bfad8045d85a470),
    (0xd6 :: 0x94 :: (List.replicate 19 0 ++ [0xaa, 0x80]),
      0xd68d495fb2fa5bb7374a515845eb6484d76cfe3f45708b91f5af8ce495134fac),
    (0xd6 :: 0x94 :: (List.replicate 19 0 ++ [0xca, 0x80]),
      0xe4e2558910c66799e33368520df8e22177567f0ae77e5a0ed75c81bceb2c311c)]

/-- The third-party functions, as far as the concrete runs reach them. -/
scoped instance crypto : Crypto where
  keccak256 b := (digests.lookup b).getD 0
  sha256 _ := []
  ripemd160 _ := []
  recoverFromPrehash _ _ _ _ := none
  p256Verify _ _ _ _ _ := false
  g1Add _ _ := none
  g1Mul _ _ := none
  g2Valid _ := false
  multiPairingIsOne _ := false
  kzgVerify _ _ _ _ := none

/-- A top frame of `code` at account 0xaa. -/
def scope (code : Bytes) : Scope := ⟨decode code, { from_ := 0xca, to_ := 0xaa, gas := 100000 }, { depth := 1 }⟩

/-- A frame's start, on accounts given by address, balance and code. -/
def machine (accounts : List (Address × Word × Bytes)) : Machine NoopTracer :=
  ⟨.withTracer {} ⟨⟩, { gas := .new 100000 },
    { state := accounts.foldl (fun m a => m.insert a.1 { value := a.2.1, code := (a.2.2, 0) }) ∅ }⟩

/-- The run returns, in `p`. -/
def returns {σ α : Type} (r : EStateM.Result Fault σ α) (p : α → σ → Bool) : Bool :=
  match r with
  | .ok a t => p a t
  | .error _ _ => false

omit [Crypto] in
theorem of_returns {σ α : Type} {r : EStateM.Result Fault σ α} {p : α → σ → Bool} (h : returns r p = true) :
    ∃ a t, r = .ok a t ∧ p a t = true := by
  unfold returns at h
  split at h
  · next a t => exact ⟨a, t, rfl, h⟩
  · cases h

end Sample

end Solenoid
