/-
  Solenoid.Event — the trace events the executor emits (evm-event) and the tracers
  (`tracer.rs`).

  The executor never emits `Tag`, `Created`, `SelfDestruct` or `Log`, so they are left
  out, as is the `debug` value of an `OpCode` event (nothing reads it; where computing it
  can abort, the executor's model keeps the computation).
-/
import Solenoid.Word

namespace Solenoid

inductive CallType where
  | call
  | create
  | create2
  | static
  | delegate
  | callcode
  deriving DecidableEq, Repr, Inhabited

inductive HaltReason where
  | invalidOpcode
  | outOfGas
  deriving DecidableEq

inductive StateEvent where
  | get (address : Address) (key val : Word)
  | put (address : Address) (key val new : Word) (gasRefund : Int)
  deriving DecidableEq

inductive AccountEvent where
  | getCode (address : Address) (codehash : Word) (bytecode : Bytes)
  | create (address creator : Address) (nonce value codehash : Word) (bytecode : Bytes)
  | setNonce (address : Address) (val new : Nat)
  | setValue (address : Address) (val new : Word)
  deriving DecidableEq

structure OpCodeEvent where
  pc : Nat
  op : UInt8
  name : String
  data : Option Bytes
  gasCost : Int
  gasUsed : Int
  gasLeft : Int
  gasBack : Int
  /-- Bottom first, as the `Vec` is. -/
  stack : List Word
  memory : List Word
  deriving DecidableEq

inductive EventData where
  | halt (reason : HaltReason)
  | opCode (op : OpCodeEvent)
  | hash (data hash : Bytes)
  | state (e : StateEvent)
  | account (e : AccountEvent)
  | call (data : Bytes) (value : Word) (src dst : Address) (gas : Word) (type : CallType)
  | return_ (ok : Bool) (data : Bytes) (gasUsed : Int) (error : Option String)
  | fee (gas price total : Word)
  deriving DecidableEq

structure Event where
  data : EventData
  depth : Nat
  reverted : Bool
  deriving DecidableEq

/-! ## Tracers -/

class EventTracer (T : Type) extends Inhabited T where
  push : T → Event → T := fun t _ => t
  peek : T → List Event := fun _ => []
  take : T → List Event × T := fun t => ([], t)

namespace EventTracer

variable {T : Type} [EventTracer T]

def fork (_ : T) : T := default

def join (t other : T) (reverted : Bool) : T :=
  (take other).1.foldl (fun t event => push t { event with reverted }) t

end EventTracer

structure NoopTracer where
  deriving Inhabited

instance : EventTracer NoopTracer where

structure LoggingTracer where
  events : List Event
  deriving Inhabited

instance : EventTracer LoggingTracer where
  default := ⟨[]⟩
  push t event := ⟨t.events ++ [event]⟩
  peek t := t.events
  take t := (t.events, ⟨[]⟩)

end Solenoid
