/-
  Solenoid.Instructions — the arms of `execute_instruction`, but for the CALL family and
  the creations (see `Solenoid.Calls`).

  Near-identical arms are one definition with parameters (`pushing`, `unary`, `binary`,
  `ternary`); each opcode then is that definition at its own cost and function. The order
  of pops, casts, gas checks and state changes is the source's: an arm that fails keeps
  what it did before. A `halt` is the source's `StepResult::Halt`, a `refuse` its
  `return Err(..)` and an `Evm::error` the failure of a stack operation.
-/
import Solenoid.Evm

namespace Solenoid

/-- What a frame's instructions share: its code, its `Call` and its `Context`. -/
structure Scope where
  code : Bytecode
  call : Call
  ctx : Context

/-- The executing account. -/
def Scope.this (sc : Scope) : Address := if sc.call.to_ = 0 then sc.ctx.created else sc.call.to_

inductive StepResult where
  | ok (cost : Int)
  | halt (cost : Int)

variable {T : Type}

/-- `evm.pc += 1; Ok(StepResult::Ok(gas))`. -/
def next (gas : Int) : M T StepResult := do
  modify fun s => { s with evm.pc := s.evm.pc + 1 }
  return .ok gas

/-- `if evm.gas.remaining() < gas { return Ok(StepResult::Halt(gas)) }`. -/
def charged (gas : Int) (k : M T StepResult) : M T StepResult := do
  if (← remaining) < gas then return .halt gas else k

/-- Memory at least `till` bytes long, or `InvalidAllocation`. -/
def expandTo (till : Nat) : M T Unit := do
  if (← get).evm.memory.length < till then
    if allocationSanityLimit < till then refuse (.invalidAllocation till) else growTo till
  else return ()

/-! ## Stack operations -/

def pushing (gas : Int) (value : Machine T → Except Fault Word) : M T StepResult :=
  charged gas do
    push (← lift (value (← get)))
    next gas

def unary (gas : Int) (f : Word → Word) : M T StepResult :=
  charged gas do
    push (f (← pop))
    next gas

/-- The first operand is converted before the second is popped. -/
def binary {α : Type} (gas : Int) (conv : Word → Except Fault α) (f : α → Word → Except Fault Word) :
    M T StepResult :=
  charged gas do
    let a ← lift (conv (← pop))
    let b ← pop
    push (← lift (f a b))
    next gas

def ternary (gas : Int) (f : Word → Word → Word → Except Fault Word) : M T StepResult :=
  charged gas do
    let a ← pop
    let b ← pop
    let m ← pop
    push (← lift (f a b m))
    next gas

def words (gas : Int) (f : Word → Word → Word) : M T StepResult := binary gas .ok fun a b => .ok (f a b)

def opAdd : M T StepResult := words 3 (· + ·)
def opMul : M T StepResult := words 5 (· * ·)
def opSub : M T StepResult := words 3 (· - ·)
def opDiv : M T StepResult := words 5 fun a b => if b = 0 ∨ a = 0 then 0 else a / b
def opSdiv : M T StepResult := words 5 fun a b =>
  if b = 0 then 0 else if a = BitVec.intMin 256 ∧ b = -1 then BitVec.intMin 256 else Word.signedDiv a b
def opMod : M T StepResult := words 5 fun a b => if b = 0 then 0 else a % b
def opSmod : M T StepResult := binary 5 .ok fun a b => if b = 0 then .ok 0 else Word.signedRem a b
def opAddmod : M T StepResult := ternary 8 fun a b m => if m = 0 then .ok 0 else Word.addModulo a b m
def opMulmod : M T StepResult := ternary 8 fun a b m => Word.mulModulo a b m

def opExp : M T StepResult := do
  let base ← pop
  let exponent ← pop
  let expBytes := (exponent.intoBytes.dropWhile (· == 0)).length
  let gas : Int := 10 + expBytes * 50
  charged gas do
    push (base.pow exponent)
    next gas

/-- `(x + 1) << 3` drops the bits past 64. -/
def signextend (x : Nat) (b : Word) : Except Fault Word := do
  let shifted := ((← addUsize x 1) <<< 3) % 2 ^ 64
  if shifted = 0 then panic "attempt to subtract with overflow"
  else
    let bit := shifted - 1
    let neg ← b.bit bit
    let mask : Word := BitVec.allOnes 256 <<< (bit + 1)
    return if neg then b ||| mask else b &&& ~~~mask

def opSignextend : M T StepResult := binary 5 Word.asUsize signextend

def opLt : M T StepResult := words 3 fun a b => Word.ofBool (a.ult b)
def opGt : M T StepResult := words 3 fun a b => Word.ofBool (b.ult a)
def opSlt : M T StepResult := words 3 fun a b => Word.ofBool (a.slt b)
def opSgt : M T StepResult := words 3 fun a b => Word.ofBool (b.slt a)
def opEq : M T StepResult := words 3 fun a b => Word.ofBool (a == b)
def opIszero : M T StepResult := unary 3 fun a => Word.ofBool (a == 0)
def opAnd : M T StepResult := words 3 (· &&& ·)
def opOr : M T StepResult := words 3 (· ||| ·)
def opXor : M T StepResult := words 3 (· ^^^ ·)
def opNot : M T StepResult := unary 3 (~~~ ·)

def opByte : M T StepResult := binary 3 Word.asUsize fun index value =>
  .ok (if index < 32 then BitVec.ofNat 256 (value.intoBytes.getD index 0).toNat else 0)

def opShl : M T StepResult := binary 3 Word.asUsize fun shift value => .ok (value <<< shift)
def opShr : M T StepResult := binary 3 Word.asUsize fun shift value => .ok (value >>> shift)
def opSar : M T StepResult := binary 3 Word.asUsize fun shift value => value.signedShr shift

/-- The leading zero bits of big-endian bytes, the first that is not zero ending the count. -/
def clzBytes : Bytes → Nat
  | [] => 0
  | byte :: rest => if byte = 0 then 8 + clzBytes rest else Precompiles.leadingZeros byte

def opClz : M T StepResult := unary 5 fun value =>
  if value = 0 then 256 else BitVec.ofNat 256 (clzBytes value.intoBytes)

def opPop : M T StepResult :=
  charged 2 do
    let _ ← pop
    next 2

def opPush0 : M T StepResult := pushing 2 fun _ => .ok 0

def opPush (instruction : Instruction) : M T StepResult := pushing 3 fun _ =>
  match instruction.argument with
  | some arg => .ok (Word.fromBytes arg)
  | none => bail .missingData

/-- The table's `n` is at least 1. -/
def opDup (instruction : Instruction) : M T StepResult :=
  charged 3 do
    match (← get).evm.stack[instruction.opcode.n.toNat - 1]? with
    | some val =>
      push val
      next 3
    | none => onEvm (Evm.error .stackUnderflow)

def swapTop (n : Nat) (stack : List Word) : Option (List Word) :=
  match stack.head?, stack[n]? with
  | some a, some b => some ((stack.set 0 b).set n a)
  | _, _ => none

def opSwap (instruction : Instruction) : M T StepResult :=
  charged 3 do
    match swapTop instruction.opcode.n.toNat (← get).evm.stack with
    | some stack =>
      modify fun s => { s with evm.stack := stack }
      next 3
    | none => onEvm (Evm.error .stackUnderflow)

/-! ## Frame and block information -/

variable (sc : Scope)

def opAddress : M T StepResult := pushing 2 fun _ => .ok sc.this.toWord
def opOrigin : M T StepResult := pushing 2 fun _ => .ok sc.ctx.origin.toWord
def opCaller : M T StepResult := pushing 2 fun _ => .ok sc.call.from_.toWord
def opCallvalue : M T StepResult := pushing 2 fun _ =>
  .ok (if sc.ctx.callType = .static then 0 else sc.call.value)
def opCalldatasize : M T StepResult := pushing 2 fun _ => .ok (BitVec.ofNat 256 sc.call.data.length)
def opCodesize : M T StepResult := pushing 2 fun _ => .ok (BitVec.ofNat 256 sc.code.bytecode.length)
def opGasprice : M T StepResult := pushing 2 fun s => .ok s.ext.txCtx.gasPrice
def opReturndatasize : M T StepResult := pushing 2 fun s => .ok (BitVec.ofNat 256 s.exe.ret.length)
def opCoinbase : M T StepResult := pushing 2 fun s => .ok s.exe.header.miner.toWord
def opTimestamp : M T StepResult := pushing 2 fun s => .ok s.exe.header.timestamp
def opNumber : M T StepResult := pushing 2 fun s => .ok s.exe.header.number
def opPrevrandao : M T StepResult := pushing 2 fun _ => .ok 0
def opGaslimit : M T StepResult := pushing 2 fun s => .ok s.exe.header.gasLimit
def opChainid : M T StepResult := pushing 2 fun _ => .ok 1
def opBasefee : M T StepResult := pushing 2 fun s => .ok s.exe.header.baseFee
def opBlobbasefee : M T StepResult := pushing 2 fun s => s.exe.header.blobGasPrice
def opPc (instruction : Instruction) : M T StepResult := pushing 2 fun _ =>
  .ok (BitVec.ofNat 256 instruction.offset)
def opMsize : M T StepResult := pushing 2 fun s => .ok (BitVec.ofNat 256 s.evm.memory.length)
def opGas : M T StepResult := pushing 2 fun s => .ok (BitVec.ofInt 256 (s.evm.gas.remaining - 2))

def opBlobhash : M T StepResult :=
  charged 3 do
    let _ ← pop
    push 0
    next 3

def opCalldataload : M T StepResult :=
  charged 3 do
    let offset ← popUsize
    push (if sc.call.data.length < offset then 0 else Word.fromBytes (window sc.call.data offset 32))
    next 3

/-- The hash of one of the last 256 blocks, else zero. -/
def blockHash (blockNumber : Word) : M T Word := do
  let number := (← get).exe.header.number
  if number.toNat ≤ blockNumber.toNat ∨ 256 < (number - blockNumber).toNat then return 0
  else onExt (Ext.getBlockHash blockNumber)

def opBlockhash : M T StepResult :=
  charged 20 do
    push (← blockHash (← pop))
    next 20

/-! ## Control flow -/

/-- STOP, and how RETURN and REVERT report their output. -/
def emitReturn [EventTracer T] (depth : Nat) : M T Unit := do
  let s ← get
  emit depth s.evm.reverted (.return_ (!s.evm.reverted) s.exe.ret s.evm.gas.used
    (if s.evm.reverted then decodeErrorString s.exe.ret else none))

def opStop [EventTracer T] : M T StepResult := do
  modify fun s => { s with evm.pc := sc.code.instructions.length, evm.stopped := true, evm.reverted := false }
  setRet []
  emitReturn sc.ctx.depth
  return .ok 0

/-- The instruction `dest` resolves to, if JUMP may continue there. -/
def jumpTarget (dest : Nat) (accept : Nat → Instruction → Bool) : Option Nat :=
  match sc.code.resolveJump dest with
  | none => none
  | some dest =>
    match sc.code.instructions[dest]? with
    | none => none
    | some instruction => if accept dest instruction then some dest else none

def jumpTo (gas : Int) (target : Option Nat) : M T StepResult :=
  match target with
  | none => return .halt gas
  | some dest => do
    modify fun s => { s with evm.pc := dest }
    return .ok gas

def opJump : M T StepResult :=
  charged 8 do
    let dest ← popUsize
    jumpTo 8 (jumpTarget sc dest fun _ i => i.opcode.code == 0x5b)

def opJumpi : M T StepResult :=
  charged 10 do
    let dest ← popUsize
    let cond ← pop
    if cond ≠ 0 then jumpTo 10 (jumpTarget sc dest fun dest i => i.opcode.code == 0x5b || dest == 0)
    else next 10

def opJumpdest : M T StepResult := charged 1 (next 1)

/-! ## Memory -/

variable [Crypto]

def opSha3 [EventTracer T] : M T StepResult := do
  let offset ← popUsize
  let size ← popUsize
  if allocationSanityLimit < size then refuse (.invalidAllocation (← lift (addUsize offset size)))
  else
    let data := window (← get).evm.memory offset size
    let hash := Crypto.keccak256 data
    emit sc.ctx.depth false (.hash data hash.intoBytes)
    let gas : Int := 30 + 6 * (divCeil size 32 : Int)
    charged gas do
      push hash
      next gas

def copyGas (size : Nat) : Int := 3 * (divCeil size 32 : Int)

/-- `source[offset..offset + size]`, zero-extended, for a range inside the sanity limit. -/
def copySource (source : Bytes) (offset size : Nat) : M T Bytes := do
  let till ← lift (addUsize offset size)
  if source.length < till ∧ allocationSanityLimit < till then refuse (.invalidAllocation till)
  else return window source offset size

/-- The memory and source part of a copy. -/
def copyIn (source : Bytes) (destOffset offset size : Nat) : M T Unit := do
  expandTo (← lift (addUsize destOffset size))
  writeMemory destOffset (← copySource source offset size)

/-- Of the copies only this one skips an empty range. -/
def opCalldatacopy : M T StepResult := do
  let destOffset ← popUsize
  let offset ← popUsize
  -- cut to `usize::MAX >> 1` before the cast, so it fits
  let size := min (← pop).toNat (usizeMax >>> 1)
  if 0 < size then copyIn sc.call.data destOffset offset size else pure ()
  let expansion ← memoryExpansionCost
  next (3 + copyGas size + expansion)

def opCodecopy : M T StepResult := do
  let destOffset ← popUsize
  let offset ← popUsize
  let size ← popUsize
  copyIn sc.code.bytecode destOffset offset size
  let expansion ← memoryExpansionCost
  next (3 + copyGas size + expansion)

/-- The return buffer is read zero-extended: it has no bound check. -/
def opReturndatacopy : M T StepResult := do
  let destOffset ← popUsize
  let offset ← popUsize
  let size ← popUsize
  expandTo (← lift (addUsize destOffset size))
  writeMemory destOffset (window (← get).exe.ret offset size)
  let expansion ← memoryExpansionCost
  next (3 + copyGas size + expansion)

def opMload : M T StepResult := do
  let offset ← popUsize
  let till ← lift (addUsize offset 32)
  expandTo till
  let expansion ← memoryExpansionCost
  charged (3 + expansion) do
    push (Word.fromBytes (← readMemory offset till))
    next (3 + expansion)

def opMstore : M T StepResult := do
  let offset ← popUsize
  let value ← pop
  expandTo (← lift (addUsize offset 32))
  let expansion ← memoryExpansionCost
  charged (3 + expansion) do
    writeMemory offset value.intoBytes
    next (3 + expansion)

/-- Memory that holds the byte at `offset`. -/
def expandAt (offset : Nat) : M T Unit := do
  if (← get).evm.memory.length ≤ offset then expandTo (← lift (addUsize offset 1)) else return ()

def opMstore8 : M T StepResult := do
  let offset ← popUsize
  let value ← pop
  expandAt offset
  let expansion ← memoryExpansionCost
  charged (3 + expansion) do
    writeMemory offset [UInt8.ofNat value.toNat]
    next (3 + expansion)

/-- Only the destination is held to the sanity limit. -/
def mcopyGrow (destTill till : Nat) : M T Unit := do
  if (← get).evm.memory.length < max destTill till then
    if allocationSanityLimit < destTill then refuse (.invalidAllocation destTill) else growTo (max destTill till)
  else return ()

/-- Once the memory covers both ranges the source range lies inside it. -/
def opMcopy : M T StepResult := do
  let destOffset ← popUsize
  let offset ← popUsize
  let size ← popUsize
  let gas := 3 + copyGas size
  charged gas do
    if size = 0 then next gas
    else
      let destTill ← lift (addUsize destOffset size)
      let till ← lift (addUsize offset size)
      mcopyGrow destTill till
      let buffer ← readMemory offset till
      let gas := gas + (← memoryExpansionCost)
      charged gas do
        writeMemory destOffset buffer
        next gas

/-- `self.ret = memory[offset..offset + size]`, grown to fit. -/
def setOutput (offset size : Nat) : M T Unit := do
  if 0 < size then
    let till ← lift (addUsize offset size)
    expandTo till
    setRet (← readMemory offset till)
  else setRet []

/-- RETURN and REVERT. -/
def opReturn [EventTracer T] (reverted : Bool) : M T StepResult := do
  modify fun s => { s with evm.stopped := true, evm.reverted := reverted }
  let offset ← popUsize
  let size ← popUsize
  setOutput offset size
  let gas ← memoryExpansionCost
  emitReturn sc.ctx.depth
  next gas

/-! ## Accounts -/

def opBalance : M T StepResult := do
  let addr := Address.ofWord (← pop)
  let gas ← addressAccessCost addr
  charged gas do
    let value ← onExt (Ext.balance addr)
    touch (.getValue addr value)
    push value
    next gas

def opSelfbalance : M T StepResult :=
  charged 5 do
    let balance ← onExt (Ext.balance sc.this)
    touch (.getValue sc.this balance)
    push balance
    next 5

/-- `ext.code`, with its touch. -/
def touchCode (address : Address) : M T (Bytes × Word) := do
  let code ← onExt (Ext.code address)
  touch (.getCode address code.2 code.1)
  return code

def opExtcodesize : M T StepResult := do
  let address := Address.ofWord (← pop)
  let gas ← addressAccessCost address
  charged gas do
    let code ← touchCode address
    push (BitVec.ofNat 256 code.1.length)
    next gas

def opExtcodecopy : M T StepResult := do
  let address := Address.ofWord (← pop)
  let destOffset ← popUsize
  let offset ← popUsize
  let size ← popUsize
  let code ← touchCode address
  copyIn code.1 destOffset offset size
  let expansion ← memoryExpansionCost
  let access ← addressAccessCost address
  next (copyGas size + expansion + access)

def opExtcodehash : M T StepResult := do
  let address := Address.ofWord (← pop)
  let gas ← addressAccessCost address
  charged gas do
    let code ← touchCode address
    let isEmpty ← onExt (Ext.isEmpty address)
    push (if isEmpty then 0 else code.2)
    next gas

/-! ## Storage -/

/-- The warming shared by SLOAD and SSTORE: whether the slot was warm. -/
def warmSlot (key : Word) : M T Bool := do
  if (← get).ext.isStorageWarm sc.this key then return true
  else
    onExt (Ext.warmStorage sc.this key)
    return false

def opSload [EventTracer T] : M T StepResult := do
  let key ← onEvm Evm.peek1
  let isWarm ← warmSlot sc key
  let gas : Int := if isWarm then 100 else 2100
  charged gas do
    let _ ← pop
    let val ← orError (Ext.get sc.this key)
    push val
    touch (.getState sc.this key val isWarm)
    emit sc.ctx.depth false (.state (.get sc.this key val))
    next gas

def sstoreCost (original val new : Word) (isWarm : Bool) : Int :=
  (if val = new then 100 else if val = original then (if original = 0 then 20000 else 2900) else 100) +
    if isWarm then 0 else 2100

def sstoreRefund (original val new : Word) : Int :=
  if new = val then 0
  else if val = original then (if original ≠ 0 ∧ new = 0 then 4800 else 0)
  else
    (if original ≠ 0 then (if val = 0 then -4800 else if new = 0 then 4800 else 0) else 0) +
      if new = original then (if original = 0 then 20000 - 100 else 5000 - 2100 - 100) else 0

/-- The event of an instruction, at the costs given. -/
def opCodeEvent (instruction : Instruction) (evm : Evm) (gasCost gasUsed gasLeft gasBack : Int) : EventData :=
  .opCode {
    pc := instruction.offset, op := instruction.opcode.code, name := instruction.opcode.fullName
    data := instruction.argument, gasCost, gasUsed, gasLeft, gasBack
    stack := evm.stack.reverse, memory := evm.memoryWords }

/-- SSTORE once its slot is warm. -/
def storeSlot [EventTracer T] (instruction : Instruction) (key new : Word) (isWarm : Bool) : M T StepResult := do
  let val ← orError (Ext.get sc.this key)
  let s ← get
  let original := (s.ext.original.lookup (sc.this, key)).getD 0
  let gasCost := sstoreCost original val new isWarm
  let gasRefund := sstoreRefund original val new
  let left := s.evm.gas.remaining
  if left + gasRefund < 0 then
    emit sc.ctx.depth true (opCodeEvent instruction s.evm 0 s.evm.gas.used left 0)
    return .halt 0
  else if left < gasCost then
    emit sc.ctx.depth true (opCodeEvent instruction s.evm left (s.evm.gas.used + left) 0 0)
    return .halt 0
  else
    orError (Ext.put sc.this key new)
    modify fun s => { s with evm.gas := s.evm.gas.addRefund gasRefund }
    emit sc.ctx.depth false (.state (.put sc.this key val new gasRefund))
    touch (.setState sc.this key val new isWarm)
    next gasCost

def opSstore [EventTracer T] (instruction : Instruction) : M T StepResult := do
  if sc.ctx.isStaticCall then refuse (.staticCallViolation instruction.opcode.code)
  else
    let key ← pop
    let new ← pop
    let isWarm ← warmSlot sc key
    storeSlot sc instruction key new isWarm

def opTload : M T StepResult :=
  charged 100 do
    let key ← pop
    push (((← get).ext.transient.lookup (sc.this, key)).getD 0)
    next 100

/-- TSTORE has no static check. -/
def opTstore : M T StepResult :=
  charged 100 do
    let key ← pop
    let val ← pop
    let old := ((← get).ext.transient.lookup (sc.this, key)).getD 0
    modify fun s => { s with ext.transient := s.ext.transient.insert (sc.this, key) val }
    touch (.setTransientState sc.this key old val)
    next 100

/-! ## Logs and destruction -/

def popTopics : Nat → M T (List Word)
  | 0 => return []
  | n + 1 => do
    let topic ← pop
    return topic :: (← popTopics n)

/-- Past the end of memory the data is the whole memory, grown to the end of the range. -/
def logData (offset size : Nat) : M T Bytes := do
  let till ← lift (addUsize offset size)
  let memory := (← get).evm.memory
  if memory.length < till then
    if allocationSanityLimit < till then refuse (.invalidAllocation till) else return window memory 0 till
  else readMemory offset till

/-- `375 + 375 * n as i64 + 8 * size as i64`. -/
def logGas (n size : Nat) : Except Fault Int := do
  let data ← checkI64 (8 * usizeAsI64 size)
  checkI64 (375 + (← checkI64 (375 * n + data)))

def opLog (instruction : Instruction) : M T StepResult := do
  if sc.ctx.callType = .static then refuse (.staticCallViolation instruction.opcode.code)
  else
    let n := instruction.opcode.n.toNat
    let range ← onEvm Evm.peek2
    let offset ← lift range.1.asUsize
    let size ← lift range.2.asUsize
    let gas ← lift (logGas n size)
    charged gas do
      let _ ← pop
      let _ ← pop
      let topics := (← popTopics n).reverse
      let data ← logData offset size
      modify fun s => { s with evm.logs := s.evm.logs ++ [⟨sc.this, topics, data⟩] }
      next gas

def opSelfdestruct (instruction : Instruction) : M T StepResult := do
  if sc.ctx.callType = .static then refuse (.staticCallViolation instruction.opcode.code)
  else
    let address := Address.ofWord (← pop)
    let accessCost : Int := if (← get).ext.isAddressWarm address then 0 else 2600
    let isEmpty ← onExt (Ext.isEmpty address)
    let createCost : Int := if isEmpty then 25000 else 0
    let balance ← onExt (Ext.balance sc.this)
    onExt (Ext.accountMut sc.this fun a => { a with value := 0 })
    onExt (Ext.credit address balance)
    modify fun s => { s with ext.destroyedAccounts := s.ext.destroyedAccounts ++ [sc.this] }
    next (5000 + accessCost + createCost)

end Solenoid
