/-
  Solenoid.Evm — the state of one frame (`executor.rs`: `AccountTouch`, `Log`, `Gas`,
  `Evm`, `Context`), the undo of its touch list, and the monad an instruction runs in.

  Gas amounts (`i64`) are exact integers: they stay below the limit the frame was given.
  Where an operand decides the size of an `i64` product (the quadratic memory cost, the
  size of a LOG) the product is checked. The top of the stack is the head of the list.
-/
import Solenoid.Decoder
import Solenoid.Event
import Solenoid.Ext
import Solenoid.Precompiles

namespace Solenoid

def stackLimit : Nat := 1024

def callDepthLimit : Nat := 1024

def allocationSanityLimit : Nat := 2 * 1024 * 1024

/-! ## Touches -/

inductive AccountTouch where
  | noop
  | warmUp (address : Address)
  | feePay (address : Address) (val new : Word)
  | getNonce (address : Address) (val : Nat)
  | getValue (address : Address) (val : Word)
  | getCode (address : Address) (codehash : Word) (code : Bytes)
  | getState (address : Address) (key val : Word) (isWarm : Bool)
  | setNonce (address : Address) (val new : Nat)
  | setValue (address : Address) (val new : Word)
  | setState (address : Address) (key val new : Word) (isWarm : Bool)
  | setTransientState (address : Address) (key val new : Word)
  | create (address : Address) (value nonce : Word) (code : Bytes) (hash : Word)
  deriving DecidableEq

namespace AccountTouch

def isReadOnly : AccountTouch → Bool
  | getCode .. | getState .. | getNonce .. | getValue .. => true
  | _ => false

def isFeePay : AccountTouch → Bool
  | feePay .. => true
  | _ => false

def isCreate : AccountTouch → Bool
  | create .. => true
  | _ => false

/-- Kept in the caller's list even when the call reverts. -/
def survivesRevert (t : AccountTouch) : Bool := t.isReadOnly || t.isFeePay || t.isCreate

end AccountTouch

structure Log where
  address : Address
  topics : List Word
  data : Bytes
  deriving DecidableEq

/-! ## Gas -/

structure Gas where
  limit : Int := 0
  used : Int := 0
  refund : Int := 0
  deriving DecidableEq

namespace Gas

def new (limit : Int) : Gas := { limit }

def remaining (g : Gas) : Int := g.limit - g.used

def finalized (g : Gas) (callCost : Int) (reverted : Bool) : Int :=
  if reverted then g.used + callCost
  else
    let used := g.used + callCost
    used - min g.refund (used.tdiv 5)

def addRefund (g : Gas) (gas : Int) : Gas := { g with refund := g.refund + gas }

/-- `Gas::sub`: the new gas, and whether the charge was covered. -/
def sub (g : Gas) (gas : Int) : Gas × Bool :=
  if g.remaining < gas then ({ g with used := g.used + min gas g.remaining }, false)
  else ({ g with used := g.used + gas }, true)

end Gas

/-! ## Evm -/

structure Call where
  data : Bytes := []
  value : Word := 0
  from_ : Address := 0
  to_ : Address := 0
  gas : Word := 0
  deriving DecidableEq

structure Context where
  created : Address := 0
  origin : Address := 0
  depth : Nat := 0
  callType : CallType := .call
  isStaticCall : Bool := false
  deriving DecidableEq

structure Evm where
  memory : Bytes := []
  stack : List Word := []
  gas : Gas := {}
  pc : Nat := 0
  stopped : Bool := false
  reverted : Bool := false
  logs : List Log := []
  touches : List AccountTouch := []
  memCost : Int := 0
  refund : Int := 0

namespace Evm

/-- On an exceptional halt all remaining gas is consumed. -/
def error {α : Type} (r : Report) : Run Evm α := do
  modify fun e => { e with stopped := true, reverted := true, gas.used := e.gas.used + e.gas.remaining }
  throw (.report r)

def push (value : Word) : Run Evm Unit := do
  if stackLimit ≤ (← get).stack.length then error .stackOverflow
  else modify fun e => { e with stack := value :: e.stack }

def pop : Run Evm Word := do
  match (← get).stack with
  | word :: rest =>
    modify fun e => { e with stack := rest }
    return word
  | [] => error .stackUnderflow

/-- `let [a] = evm.peek()`. -/
def peek1 : Run Evm Word := do
  match (← get).stack with
  | a :: _ => return a
  | [] => error .stackUnderflow

/-- `let [a, b] = evm.peek()`. -/
def peek2 : Run Evm (Word × Word) := do
  match (← get).stack with
  | a :: b :: _ => return (a, b)
  | _ => error .stackUnderflow

/-- `Evm::gas`. -/
def takeGas (cost : Int) : Run Evm Unit := do
  let charge := (← get).gas.sub cost
  modify fun e => { e with gas := charge.1 }
  if charge.2 then return () else error .outOfGas

def memoryExpansionCost : Run Evm Int := do
  let e ← get
  let memLen : Int := divCeil e.memory.length 32
  let memCost := (← lift (checkI64 (memLen * memLen))) / 512 + 3 * memLen
  set { e with memCost }
  return memCost - e.memCost

/-- `evm.memory.chunks(32).map(Word::from_bytes)`. -/
def chunks (fuel : Nat) (b : Bytes) : List Word :=
  match fuel, b with
  | fuel + 1, _ :: _ => Word.fromBytes (b.take 32) :: chunks fuel (b.drop 32)
  | _, _ => []

def memoryWords (e : Evm) : List Word := chunks e.memory.length e.memory

/-- The undo of one touch. -/
def revertTouch : AccountTouch → Run Ext Unit
  | .setState address key val _ isWarm => do
    modify fun e => e.insertSlot address key val
    if !isWarm then modify fun e => { e with accessedStorage := e.accessedStorage.erase (address, key) }
  | .setTransientState address key val _ =>
    modify fun e => { e with transient := e.transient.insert (address, key) val }
  | .getState address key _ isWarm =>
    if !isWarm then modify fun e => { e with accessedStorage := e.accessedStorage.erase (address, key) }
    else pure ()
  | .setNonce addr val _ => Ext.accountMut addr fun a => { a with nonce := BitVec.ofNat 256 val }
  | .setValue addr val _ => Ext.accountMut addr fun a => { a with value := val }
  | .create addr .. => Ext.accountMut addr fun a => { a with code := ([], emptyHash), nonce := 0, value := 0 }
  | .warmUp addr => modify fun e => { e with accessedAddresses := e.accessedAddresses.erase addr }
  | _ => pure ()

/-- `Evm::revert`: the touches undone, last first. -/
def revert (e : Evm) : Run Ext Unit := e.touches.reverse.forM revertTouch

end Evm

/-! ## The machine -/

/-- `Executor`, without the `log` switch (it only prints). -/
structure Executor (T : Type) where
  header : Header
  tracer : T
  ret : Bytes

def Executor.withTracer {T : Type} (header : Header) (tracer : T) : Executor T := ⟨header, tracer, []⟩

/-- What an instruction reads and writes: `self`, `evm` and `ext`. -/
structure Machine (T : Type) where
  exe : Executor T
  evm : Evm
  ext : Ext

abbrev M (T α : Type) := EStateM Fault (Machine T) α

variable {T : Type}

def onEvm {α : Type} (m : Run Evm α) : M T α := fun s =>
  match m s.evm with
  | .ok a evm => .ok a { s with evm }
  | .error f evm => .error f { s with evm }

def onExt {α : Type} (m : Run Ext α) : M T α := fun s =>
  match m s.ext with
  | .ok a ext => .ok a { s with ext }
  | .error f ext => .error f { s with ext }

/-- `return Err(r.into())`: unlike `Evm::error` it leaves the frame as it is. -/
def refuse {α : Type} (r : Report) : M T α := throw (.report r)

def push (value : Word) : M T Unit := onEvm (Evm.push value)

def pop : M T Word := onEvm Evm.pop

/-- `evm.pop()?.as_usize()`. -/
def popUsize : M T Nat := do lift (← pop).asUsize

def takeGas (cost : Int) : M T Unit := onEvm (Evm.takeGas cost)

def memoryExpansionCost : M T Int := onEvm Evm.memoryExpansionCost

def remaining : M T Int := return (← get).evm.gas.remaining

/-- `Evm::get` and `Evm::put`: a failure of `Ext` halts the frame. -/
def orError {α : Type} (m : Run Ext α) : M T α := fun s =>
  match m s.ext with
  | .ok a ext => .ok a { s with ext }
  | .error (.report r) ext => onEvm (Evm.error r) { s with ext }
  | .error f ext => .error f { s with ext }

def touch (t : AccountTouch) : M T Unit := modify fun s => { s with evm.touches := s.evm.touches ++ [t] }

def setRet (ret : Bytes) : M T Unit := modify fun s => { s with exe.ret := ret }

/-- Grow the memory to the next multiple of 32 that covers `till`. -/
def growTo (till : Nat) : M T Unit := do
  let memory ← lift (resize (← get).evm.memory (till + (32 - till % 32) % 32))
  modify fun s => { s with evm.memory := memory }

/-- `evm.memory[start..till].to_vec()`. -/
def readMemory (start till : Nat) : M T Bytes := do
  lift (slice (← get).evm.memory start till)

/-- `evm.memory[start..start + data.len()].copy_from_slice(data)`. -/
def writeMemory (start : Nat) (data : Bytes) : M T Unit := do
  let memory ← lift (copyFromSlice (← get).evm.memory start data)
  modify fun s => { s with evm.memory := memory }

/-- `if ext.warm_address(&addr) { evm.touches.push(AccountTouch::WarmUp(addr)) }`. -/
def warmTouch (address : Address) : M T Unit := do
  if ← onExt (Ext.warmAddress address) then touch (.warmUp address) else return ()

/-- `Evm::address_access_cost` (EIP-2929). -/
def addressAccessCost (address : Address) : M T Int := do
  if Precompiles.isPrecompile address then return 100
  else
    if ← onExt (Ext.warmAddress address) then
      touch (.warmUp address)
      return 2600
    else return 100

variable [EventTracer T]

def emit (depth : Nat) (reverted : Bool) (data : EventData) : M T Unit :=
  modify fun s => { s with exe.tracer := EventTracer.push s.exe.tracer ⟨data, depth, reverted⟩ }

end Solenoid
