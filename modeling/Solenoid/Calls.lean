/-
  Solenoid.Calls — `Executor::call` and `Executor::create`.

  Each is cut where it awaits the inner frame: the part before (`callOpen`, `createOpen`)
  either finishes by itself (a precompile) or gives the inner frame and what the caller
  keeps for later; the part after (`callClose`, `createClose`) takes the inner frame's
  output. `execute_with_context` of the inner frame is a parameter, `Exec`.
-/
import Solenoid.Instructions

namespace Solenoid

/-- `execute_with_context`, on a machine whose `exe` and `evm` are the frame's own. -/
abbrev Exec (T : Type) := Scope → M T Bytes

/-- An inner frame about to run. -/
structure Inner (T : Type) where
  scope : Scope
  exe : Executor T
  evm : Evm

/-- What comes back from it. -/
structure Output (T : Type) where
  tracer : T
  ret : Bytes
  evm : Evm

/-- What the caller keeps while the inner frame runs. -/
inductive Pending where
  | call (gas : Int) (retOffset retSize : Nat) (stipend traceCost : Int)
  | create (baseCost forwarded : Int) (created : Address) (value : Word)

inductive Opened (T : Type) where
  | done (gas : Int)
  | frame (inner : Inner T) (pending : Pending)

variable {T : Type}

def runInner (exec : Exec T) (inner : Inner T) : M T (Output T) := fun s =>
  match exec inner.scope ⟨inner.exe, inner.evm, s.ext⟩ with
  | .ok ret i => .ok ⟨i.exe.tracer, ret, i.evm⟩ { s with ext := i.ext }
  | .error f i => .error f { s with ext := i.ext }

/-- Whether the context lets a value move (`!matches!(call_type, Static | Delegate)`). -/
def Context.movesValue (ctx : Context) : Bool := ctx.callType ≠ .static && ctx.callType ≠ .delegate

variable [EventTracer T]

/-- An inner frame starts with a forked tracer, an empty return buffer and a fresh `Evm`. -/
def newFrame (scope : Scope) (limit : Int) : M T (Inner T) := do
  let exe := (← get).exe
  return { scope, exe := .withTracer exe.header (EventTracer.fork exe.tracer), evm := { gas := .new limit } }

/-- The two writes of a value transfer, each with its touch and its event. -/
def moveValue (depth : Nat) (src dst : Address) (srcBalance dstBalance value : Word) : M T Unit := do
  let newSrc ← lift (srcBalance.sub value)
  onExt (Ext.accountMut src fun a => { a with value := newSrc })
  touch (.setValue src srcBalance newSrc)
  emit depth false (.account (.setValue src srcBalance newSrc))
  let newDst ← lift (dstBalance.add value)
  onExt (Ext.accountMut dst fun a => { a with value := newDst })
  touch (.setValue dst dstBalance newDst)
  emit depth false (.account (.setValue dst dstBalance newDst))

/-- Merge a frame that reverted: undo it, keep the touches that survive. -/
def dropFrame (inner : Evm) : M T Unit := do
  push 0
  onExt inner.revert
  modify fun s => { s with evm.touches := s.evm.touches ++ inner.touches.filter (·.survivesRevert) }

/-! ## CALL, CALLCODE, DELEGATECALL, STATICCALL -/

structure CallArgs where
  callGas : Nat
  address : Address
  value : Word
  argsOffset : Nat
  argsSize : Nat
  retOffset : Nat
  retSize : Nat

omit [EventTracer T] in
/-- The value operand; DELEGATECALL passes its frame's own on, STATICCALL passes none. -/
def popValue (sc : Scope) : M T Word :=
  if sc.ctx.movesValue then pop else pure (if sc.ctx.callType = .static then 0 else sc.call.value)

omit [EventTracer T] in
def callArgs (sc : Scope) : M T CallArgs := do
  let callGas := min (← pop).toNat (2 ^ 63 - 1)
  let address := Address.ofWord (← pop)
  let value ← popValue sc
  let argsOffset ← popUsize
  let argsSize ← popUsize
  let retOffset ← popUsize
  let retSize ← popUsize
  return { callGas, address, value, argsOffset, argsSize, retOffset, retSize }

def rangeEnd (offset size : Nat) : Except Fault Nat := if 0 < size then addUsize offset size else .ok 0

/-- Memory for the arguments and for the output, and its price. -/
def callMemory (a : CallArgs) : M T Int := do
  let argsMax ← lift (rangeEnd a.argsOffset a.argsSize)
  let retMax ← lift (rangeEnd a.retOffset a.retSize)
  expandTo (max argsMax retMax)
  memoryExpansionCost

/-- EIP-7702: `0xef0100` and an address. -/
def delegation (code : Bytes) : Option Address :=
  if code.length = 23 ∧ code.take 3 = [0xef, 0x01, 0x00] then some (.fromBytes (code.drop 3)) else none

/-- The code a call runs, the hash of the callee's own, and the price of reaching it. -/
structure Target where
  code : Bytes
  codehash : Word
  accessCost : Int

variable [Crypto]

def callTarget (address : Address) : M T Target := do
  let code ← touchCode address
  let accessCost ← addressAccessCost address
  match delegation code.1 with
  | none => return ⟨code.1, code.2, accessCost⟩
  | some target =>
    let targetCode ← touchCode target
    let targetCost ← addressAccessCost target
    return ⟨targetCode.1, code.2, accessCost + 100 + (targetCost - 100)⟩

/-- 25000 when value goes to an account that is empty. -/
def callCreateCost (a : CallArgs) : M T Int :=
  if Precompiles.isPrecompile a.address then return 0
  else do
    let isEmpty ← onExt (Ext.isEmpty a.address)
    return if a.value ≠ 0 ∧ isEmpty then 25000 else 0

omit [Crypto] in
/-- A call that cannot pay its base cost. -/
def callOutOfGas {α : Type} (sc : Scope) (instruction : Instruction) : M T α := do
  let evm := (← get).evm
  let left := evm.gas.remaining
  emit sc.ctx.depth false (opCodeEvent instruction evm left (evm.gas.used + left) 0 0)
  modify fun s => { s with evm.refund := s.evm.gas.refund }
  push 0
  refuse .outOfGas

omit [Crypto] in
/-- The event of a call that could: `cost` includes the gas forwarded. -/
def emitCall (depth : Nat) (instruction : Instruction) (cost : Int) : M T Unit := do
  let evm := (← get).evm
  emit depth false (opCodeEvent instruction evm cost (evm.gas.used + cost) (evm.gas.remaining - cost) 0)

/-- The result a call to a precompile pushes. The output replaces `self.ret` only if there
    is one. -/
def runPrecompile (address : Address) (data : Bytes) : M T Word :=
  match Precompiles.execute address data with
  | .ok ret => do
    setRet ret
    return 1
  | .error (.report _) => return 0
  | .error f => throw f

/-- A call to a precompile; the arguments and the output are sliced even when empty. -/
def callPrecompile (sc : Scope) (instruction : Instruction) (a : CallArgs) (data : Bytes) (traceCost : Int) :
    M T Unit := do
  let result ← runPrecompile a.address data
  emitCall sc.ctx.depth instruction traceCost
  -- `call.input` of the event's `debug`
  let _ ← readMemory a.argsOffset (a.argsOffset + a.argsSize)
  let ret := (← get).exe.ret
  writeMemory a.retOffset (ret.take a.retSize)
  push result
  takeGas (Precompiles.gasCost a.address data)

/-- The value moves before the callee runs; without the funds it does not, and the callee
    runs all the same. -/
def callTransfer (sc : Scope) (a : CallArgs) : M T Unit := do
  let senderBalance ← onExt (Ext.balance sc.this)
  let receiverBalance ← onExt (Ext.balance a.address)
  if a.value ≠ 0 ∧ sc.ctx.movesValue ∧ a.value.toNat ≤ senderBalance.toNat ∧ sc.this ≠ a.address then
    moveValue sc.ctx.depth sc.this a.address senderBalance receiverBalance a.value
  else pure ()

/-- DELEGATECALL and CALLCODE run in the caller's account. -/
def innerCall (sc : Scope) (a : CallArgs) (data : Bytes) (gas : Int) : Call :=
  let inPlace := sc.ctx.callType = .delegate ∨ sc.ctx.callType = .callcode
  { data, value := a.value
    from_ := if inPlace then sc.call.from_ else sc.this
    to_ := if inPlace then sc.this else a.address
    gas := BitVec.ofInt 256 gas }

omit [Crypto] [EventTracer T] in
def callData (a : CallArgs) : M T Bytes :=
  if 0 < a.argsSize then readMemory a.argsOffset (a.argsOffset + a.argsSize) else return []

/-- The prices of a call: what it costs itself, what it forwards of `left`, and what of
    that is the stipend. -/
structure CallGas where
  base : Int
  forwarded : Int
  stipend : Int

/-- A stipend comes with a value. -/
def callGas (sc : Scope) (a : CallArgs) (base left : Int) : CallGas :=
  let moving := sc.ctx.movesValue ∧ a.value ≠ 0
  let base := base + if moving then 9000 else 0
  let stipend : Int := if moving then 2300 else 0
  let remainingGas := left - base
  let allButOne64th := remainingGas - remainingGas / 64
  { base, forwarded := min (a.callGas : Int) allButOne64th + stipend, stipend }

/-- The call proper, once its base cost is known to be covered. -/
def callEnter (sc : Scope) (instruction : Instruction) (a : CallArgs) (target : Target) (gas : CallGas) :
    M T (Opened T) := do
  let traceCost := gas.base + gas.forwarded - gas.stipend
  let data ← callData a
  if Precompiles.isPrecompile a.address then
    callPrecompile sc instruction a data traceCost
    return .done gas.base
  else
    callTransfer sc a
    let code := decode target.code
    emit sc.ctx.depth false (.account (.getCode a.address target.codehash code.bytecode))
    let inner ← newFrame ⟨code, innerCall sc a data gas.forwarded, { sc.ctx with depth := sc.ctx.depth + 1 }⟩
      gas.forwarded
    return .frame inner (.call gas.base a.retOffset a.retSize gas.stipend traceCost)

/-- `Executor::call` up to the inner frame, in the context the opcode gives it. -/
def callOpen (sc : Scope) (instruction : Instruction) : M T (Opened T) := do
  let a ← callArgs sc
  let memoryExpansionCost ← callMemory a
  let createCost ← callCreateCost a
  let target ← callTarget a.address
  let left ← remaining
  let gas := callGas sc a (target.accessCost + memoryExpansionCost + createCost) left
  if left < gas.base then callOutOfGas sc instruction else callEnter sc instruction a target gas

omit [Crypto] in
/-- The caller's side of a call that reverted. -/
def mergeReverted (out : Output T) : M T Unit := do
  modify fun s => { s with evm.refund := s.evm.gas.refund }
  setRet out.ret
  dropFrame out.evm

omit [Crypto] in
/-- The refund and the touches of a frame that is kept become the caller's. -/
def mergeKept (out : Output T) : M T Unit :=
  modify fun s => { s with
    evm.gas.refund := s.evm.gas.refund + out.evm.gas.refund
    evm.refund := s.evm.gas.refund + out.evm.gas.refund
    evm.touches := s.evm.touches ++ out.evm.touches }

omit [Crypto] in
def joinTracer (out : Output T) : M T Unit :=
  modify fun s => { s with exe.tracer := EventTracer.join s.exe.tracer out.tracer out.evm.reverted }

omit [Crypto] [EventTracer T] in
/-- What fits of the output goes to memory. -/
def copyBack (retOffset : Nat) (copied : Bytes) : M T Unit :=
  if copied ≠ [] then writeMemory retOffset copied else return ()

omit [Crypto] [EventTracer T] in
def spend (gas : Int) : M T Unit := modify fun s => { s with evm.gas.used := s.evm.gas.used + gas }

omit [Crypto] in
/-- `Executor::call` from the inner frame's end: the caller pays what it used, less the
    stipend. -/
def callClose (sc : Scope) (instruction : Instruction) (retOffset retSize : Nat) (stipend traceCost : Int)
    (out : Output T) : M T Unit := do
  emitCall sc.ctx.depth instruction traceCost
  joinTracer out
  copyBack retOffset (out.ret.take retSize)
  spend (out.evm.gas.used - stipend)
  if out.evm.reverted then mergeReverted out
  else
    mergeKept out
    setRet out.ret
    push 1

/-! ## CREATE, CREATE2 -/

omit [Crypto] [EventTracer T] in
/-- The init code: memory grown only for a range that is not empty, then sliced. -/
def initCode (offset size : Nat) : M T (Bytes × Int) := do
  let till ← lift (addUsize offset size)
  expandTo (if 0 < size then till else 0)
  let expansion ← memoryExpansionCost
  let bytecode ← readMemory offset till
  return (bytecode, expansion)

/-- The creator's nonce is bumped before the address is derived. -/
def bumpNonce (depth : Nat) (this : Address) : M T Word := do
  let nonce ← onExt (Ext.nonce this)
  let bumped ← lift (nonce.add 1)
  onExt (Ext.accountMut this fun a => { a with nonce := bumped })
  let val ← lift nonce.asU64
  let new ← lift (if val < 2 ^ 64 - 1 then .ok (val + 1) else panic "attempt to add with overflow")
  touch (.setNonce this val new)
  emit depth false (.account (.setNonce this val new))
  return nonce

omit [Crypto] [EventTracer T] in
/-- The new account is marked created, warmed, and given an entry. -/
def openAccount (created : Address) : M T Unit := do
  modify fun s => { s with ext.createdAccounts := s.ext.createdAccounts ++ [created] }
  warmTouch created
  modify fun s => { s with ext.state := s.ext.state.insert created (s.ext.orDefault created) }

omit [Crypto] [EventTracer T] in
def popSalt (isCreate2 : Bool) : M T Word := if isCreate2 then pop else return 0

/-- The creation proper, once the new account is there. -/
def createEnter (sc : Scope) (code : Bytes) (base : Int) (created : Address) (value : Word) : M T (Opened T) := do
  let remainingGas := (← remaining) - base
  if remainingGas ≤ 0 then throw (.panic "remaining gas <= 0")
  else
    let gasToForward := remainingGas - remainingGas / 64
    let inner ← newFrame ⟨decode code, { value, from_ := sc.this, gas := BitVec.ofInt 256 gasToForward },
      { sc.ctx with created, depth := sc.ctx.depth + 1 }⟩ gasToForward
    return .frame inner (.create base gasToForward created value)

/-- `Executor::create` up to the inner frame. CREATE2 is told by the context's call type. -/
def createOpen (sc : Scope) : M T (Opened T) := do
  let isCreate2 := sc.ctx.callType == .create2
  let value ← pop
  let offset ← popUsize
  let size ← popUsize
  let salt ← popSalt isCreate2
  let code ← initCode offset size
  let wordSize : Int := divCeil code.1.length 32
  let initCodeCost := 2 * wordSize + if isCreate2 then 6 * wordSize else 0
  let nonce ← bumpNonce sc.ctx.depth sc.this
  let created := if isCreate2 then sc.this.create2 salt code.1 else sc.this.create nonce
  openAccount created
  createEnter sc code.1 (code.2 + 32000 + initCodeCost) created value

/-- The value of a creation goes to the new account, if the creator has it. -/
def createTransfer (sc : Scope) (created : Address) (value : Word) : M T Unit := do
  let senderBalance ← onExt (Ext.balance sc.this)
  let receiverBalance ← onExt (Ext.balance created)
  if value ≠ 0 ∧ sc.ctx.movesValue ∧ value.toNat ≤ senderBalance.toNat then
    moveValue sc.ctx.depth sc.this created senderBalance receiverBalance value
  else return ()

/-- The new account gets its code and nonce 1, then the value it was created with. -/
def deploy (sc : Scope) (created : Address) (value : Word) (code : Bytes) : M T Unit := do
  let hash := Crypto.keccak256 code
  let _ ← onExt (Ext.code created)
  onExt (Ext.accountMut created fun a => { a with code := (code, hash), nonce := 1 })
  createTransfer sc created value
  touch (.create created value 1 code hash)
  emit sc.ctx.depth false (.account (.create created sc.this 1 value hash code))

/-- `Executor::create` from the inner frame's end. `self.ret` is left as it was. -/
def createClose (sc : Scope) (instruction : Instruction) (baseCost forwarded : Int) (created : Address)
    (value : Word) (out : Output T) : M T Unit := do
  let deployedCodeCost : Int := if out.evm.reverted then 0 else 200 * out.ret.length
  emitCall sc.ctx.depth instruction (baseCost + forwarded)
  joinTracer out
  if forwarded < out.evm.gas.used + deployedCodeCost then
    spend (baseCost + forwarded)
    dropFrame out.evm
  else
    spend (baseCost + deployedCodeCost + out.evm.gas.used)
    if out.evm.reverted then dropFrame out.evm
    else
      deploy sc created value out.ret
      mergeKept out
      push created.toWord

/-! ## Dispatch -/

/-- The context a call-type opcode runs `call` or `create` in; CREATE keeps the frame's. -/
def callContext (ctx : Context) : Op → Context
  | .call => { ctx with callType := .call }
  | .callcode => { ctx with callType := .callcode }
  | .delegatecall => { ctx with callType := .delegate }
  | .staticcall => { ctx with callType := .static, isStaticCall := true }
  | .create2 => { ctx with callType := .create2 }
  | _ => ctx

omit [Crypto] [EventTracer T] in
/-- The static checks in front of CALL, CREATE and CREATE2. -/
def guardStatic (sc : Scope) (instruction : Instruction) : M T Unit := do
  if sc.ctx.callType ≠ .static then return ()
  else
    match instruction.op with
    | .call =>
      match (← get).evm.stack[2]? with
      | none => refuse .stackUnderflow
      | some value => if value ≠ 0 then refuse (.staticCallViolation instruction.opcode.code) else return ()
    | .create | .create2 => refuse (.staticCallViolation instruction.opcode.code)
    | _ => return ()

def Scope.inContext (sc : Scope) (op : Op) : Scope := { sc with ctx := callContext sc.ctx op }

/-- The part of a call-type instruction before its frame. -/
def openFrame (sc : Scope) (instruction : Instruction) : M T (Opened T) :=
  match instruction.op with
  | .create | .create2 => createOpen (sc.inContext instruction.op)
  | op => callOpen (sc.inContext op) instruction

/-- The part after; its result is the cost the interpreter's loop charges. -/
def closeFrame (sc : Scope) (instruction : Instruction) (pending : Pending) (out : Output T) : M T Int := do
  let sc := sc.inContext instruction.op
  match pending with
  | .call gas retOffset retSize stipend traceCost =>
    callClose sc instruction retOffset retSize stipend traceCost out
    return gas
  | .create baseCost forwarded created value =>
    createClose sc instruction baseCost forwarded created value out
    return 0

def callFrame (exec : Exec T) (sc : Scope) (instruction : Instruction) : M T Int := do
  match ← openFrame sc instruction with
  | .done gas => return gas
  | .frame inner pending => closeFrame sc instruction pending (← runInner exec inner)

omit [Crypto] [EventTracer T] in
/-- An error of `call` is a halt of the frame, at the price of all its gas. -/
def caught (m : M T Int) : M T StepResult := fun s =>
  match m s with
  | .ok gas s => next gas s
  | .error (.report _) s => .ok (.halt s.evm.gas.remaining) s
  | .error f s => .error f s

/-- The arms of the CALL family and of the creations. -/
def opCall (exec : Exec T) (sc : Scope) (instruction : Instruction) : M T StepResult := do
  guardStatic sc instruction
  match instruction.op with
  | .create | .create2 => next (← callFrame exec sc instruction)
  | _ => caught (callFrame exec sc instruction)

end Solenoid
