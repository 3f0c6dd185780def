/-
  Solenoid.Block — what the executor reads of a block header (`block.rs`) and the blob gas
  price.
-/
import Solenoid.Word

namespace Solenoid

structure AccessListItem where
  address : Address
  storageKeys : List Word
  deriving DecidableEq

structure Header where
  number : Word := 0
  timestamp : Word := 0
  baseFee : Word := 0
  gasLimit : Word := 0
  excessBlobGas : Word := 0
  miner : Address := 0
  deriving DecidableEq

def u128Max : Nat := 2 ^ 128 - 1

/-- `BLOB_GASPRICE_UPDATE_FRACTION`. -/
def blobGaspriceUpdateFraction : Nat := 3338477

/-- The loop of `fake_exponential`. A running sum past `u128::MAX` aborts; until then every
    turn adds a positive numerator to it. -/
def fakeExponentialLoop (factor denominator output numerator i : Nat) : Except Fault Nat :=
  if numerator = 0 then .ok output
  else if u128Max < output + numerator then panic "attempt to add with overflow"
  else if u128Max < i + 1 then panic "attempt to add with overflow"
  else
    fakeExponentialLoop factor denominator (output + numerator)
      (min (numerator * factor) u128Max / min (denominator * i) u128Max) (i + 1)
termination_by u128Max - output
decreasing_by omega

/-- `fake_exponential`, for a denominator that is not zero. -/
def fakeExponential (factor denominator : Nat) : Except Fault Word :=
  return BitVec.ofNat 256 ((← fakeExponentialLoop factor denominator 0 denominator 1) / denominator)

def Header.blobGasPrice (h : Header) : Except Fault Word := do
  if h.excessBlobGas = 0 then return 1
  fakeExponential (← h.excessBlobGas.asU64) blobGaspriceUpdateFraction

end Solenoid
