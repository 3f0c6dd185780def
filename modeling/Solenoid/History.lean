/-
  Solenoid.History — the tree of a run: the instructions a frame executed, in order, each
  with the machine it found, and for those that opened a frame the history of that frame.

  `historyLoop` follows `executeLoop` turn by turn, at the same bound. A frame's own steps
  are `own`, those of every depth `steps`. A frame that was opened is kept when the caller
  merges it as a success (`Pending.keeps`): it did not revert and, for a creation, the code
  deposit was paid.
-/
import Solenoid.Executor
import Solenoid.Lib.Hoare

namespace Solenoid

/-- An executed instruction, with the machine it was executed on. -/
structure Step (T : Type) where
  scope : Scope
  instruction : Instruction
  before : Machine T

namespace Step

variable {T : Type}

def op (x : Step T) : Op := x.instruction.op

/-- The executing account. -/
def this (x : Step T) : Address := x.scope.this

/-- The `i`-th operand from the top. -/
def operand (x : Step T) (i : Nat) : Word := x.before.evm.stack.getD i 0

def has (x : Step T) (n : Nat) : Prop := n ≤ x.before.evm.stack.length

/-- The account a call names. -/
def target (x : Step T) : Address := .ofWord (x.operand 1)

/-- The value operand of a call or creation; the other instructions have none. -/
def value (x : Step T) : Word :=
  match x.op with
  | .call | .callcode => x.operand 2
  | .create | .create2 => x.operand 0
  | _ => 0

def isCreation (x : Step T) : Prop := x.op = .create ∨ x.op = .create2

/-- The log a LOG emits. -/
def log (x : Step T) : Log :=
  let offset := (x.operand 0).toNat
  let size := (x.operand 1).toNat
  let memory := x.before.evm.memory
  { address := x.this
    topics := ((x.before.evm.stack.drop 2).take x.instruction.opcode.n.toNat).reverse
    data := if memory.length < offset + size then window memory 0 (offset + size) else (memory.drop offset).take size }

end Step

/-- How an inner frame came back: what it returned, and its machine then. -/
structure Ended (T : Type) where
  ret : Bytes
  machine : Machine T

namespace Ended

variable {T : Type}

def output (r : Ended T) : Output T := ⟨r.machine.exe.tracer, r.ret, r.machine.evm⟩

def reverted (r : Ended T) : Bool := r.machine.evm.reverted

end Ended

/-- The callee's effects stay: the caller pushes something other than 0. -/
def Pending.keeps {T : Type} (p : Pending) (out : Output T) : Bool :=
  match p with
  | .call .. => !out.evm.reverted
  | .create _ forwarded _ _ => !out.evm.reverted && out.evm.gas.used + 200 * out.ret.length ≤ forwarded

/-- What the caller pushes. -/
def Pending.result {T : Type} (p : Pending) (out : Output T) : Word :=
  if p.keeps out then
    match p with
    | .call .. => 1
    | .create _ _ created _ => created.toWord
  else 0

/-- The account a pending creation is for. -/
def Pending.created? : Pending → Option Address
  | .call .. => none
  | .create _ _ created _ => some created

inductive History (T : Type) where
  /-- No instruction was left. -/
  | done
  /-- The step before ended the frame, or the run broke off. -/
  | cut
  | step (x : Step T) (rest : History T)
  /-- `opened` is the caller as the frame starts; `ended` is missing when the frame's run
      aborted. -/
  | call (x : Step T) (inner : Inner T) (pending : Pending) (opened : Machine T) (callee : History T)
      (ended : Option (Ended T)) (rest : History T)

namespace History

variable {T : Type}

/-- The steps of the frame itself. -/
def own : History T → List (Step T)
  | done | cut => []
  | step x rest => x :: rest.own
  | call x _ _ _ _ _ rest => x :: rest.own

/-- The steps of the frame and of every frame below it. -/
def steps : History T → List (Step T)
  | done | cut => []
  | step x rest => x :: rest.steps
  | call x _ _ _ callee _ rest => x :: (callee.steps ++ rest.steps)

/-- The accounts created by the kept creations of the tree. -/
def created : History T → List Address
  | done | cut => []
  | step _ rest => rest.created
  | call _ _ pending _ callee ended rest =>
    (match ended with
      | some r => if pending.keeps r.output then pending.created?.toList else []
      | none => []) ++ callee.created ++ rest.created

/-- The steps of the frame and of the frames below it that were kept, in the order they were
    executed. -/
def kept : History T → List (Step T)
  | done | cut => []
  | step x rest => x :: rest.kept
  | call x _ pending _ callee ended rest =>
    x :: ((match ended with
      | some r => if pending.keeps r.output then callee.kept else []
      | none => []) ++ rest.kept)

/-- Nothing follows. -/
def isCut : History T → Bool
  | cut => true
  | _ => false

/-- The frame came to its end without a failure: only a SELFDESTRUCT cuts it. -/
def Completed : History T → Prop
  | done => True
  | cut => False
  | step x rest => if rest.isCut then x.op = .selfdestruct else rest.Completed
  | call _ _ _ _ _ _ rest => rest.Completed

/-- Every step of the tree is in `P`, and every frame that came back in `N`. -/
def All (P : Step T → Prop)
    (N : Step T → Inner T → Pending → Machine T → History T → Ended T → Prop) : History T → Prop
  | done | cut => True
  | step x rest => P x ∧ rest.All P N
  | call x inner pending opened callee ended rest =>
    P x ∧ callee.All P N ∧ (∀ r, ended = some r → N x inner pending opened callee r) ∧ rest.All P N

instance decidableAll {P : Step T → Prop} [DecidablePred P]
    {N : Step T → Inner T → Pending → Machine T → History T → Ended T → Prop}
    [∀ x inner pending opened callee r, Decidable (N x inner pending opened callee r)] :
    (h : History T) → Decidable (h.All P N)
  | done | cut => .isTrue trivial
  | step x rest =>
    have := decidableAll (P := P) (N := N) rest
    inferInstanceAs (Decidable (P x ∧ rest.All P N))
  | call x inner pending opened callee ended rest =>
    have := decidableAll (P := P) (N := N) callee
    have := decidableAll (P := P) (N := N) rest
    inferInstanceAs (Decidable (P x ∧ callee.All P N ∧ (∀ r ∈ ended, N x inner pending opened callee r) ∧ rest.All P N))

end History

variable {T : Type} [EventTracer T] [Crypto]

/-- The frame an instruction opens, and the machine it leaves its caller. -/
def openedFrame (sc : Scope) (instruction : Instruction) (s : Machine T) : Option (Inner T × Pending × Machine T) :=
  if instruction.op.isCall then
    match guardStatic sc instruction s with
    | .ok _ s =>
      match openFrame sc instruction s with
      | .ok (.frame inner pending) s => some (inner, pending, s)
      | _ => none
    | _ => none
  else none

omit [Crypto] in
/-- The machine an inner frame starts on. -/
def Inner.machine (inner : Inner T) (ext : Ext) : Machine T := ⟨inner.exe, inner.evm, ext⟩

def ended : EStateM.Result Fault (Machine T) Bytes → Option (Ended T)
  | .ok ret machine => some ⟨ret, machine⟩
  | .error _ _ => none

def frameHistory (loop : Scope → Machine T → History T) (sc : Scope) (s : Machine T) : History T :=
  match enterFrame sc s with
  | .ok _ s => if callDepthLimit < sc.ctx.depth then .cut else loop sc s
  | .error _ _ => .cut

/-- The node of one step: `exec` runs the inner frame, `hist` is its history. -/
def historyNode (exec : Exec T) (hist : Scope → Machine T → History T) (x : Step T) (rest : History T) : History T :=
  match openedFrame x.scope x.instruction x.before with
  | none => .step x rest
  | some (inner, pending, s) =>
    .call x inner pending s (hist inner.scope (inner.machine s.ext))
      (ended (exec inner.scope (inner.machine s.ext))) rest

def historyLoop : Nat → Scope → Machine T → History T
  | 0, _, _ => .cut
  | fuel + 1, sc, s =>
    match currentInstruction sc s.evm with
    | none => .done
    | some instruction =>
      historyNode (executeWithContext fuel) (frameHistory (historyLoop fuel)) ⟨sc, instruction, s⟩
        (match executeStep (executeWithContext fuel) sc instruction s with
        | .ok none s => historyLoop fuel sc s
        | _ => .cut)

/-- The history of `executeWithContext fuel sc` from `s`. -/
def history (fuel : Nat) (sc : Scope) (s : Machine T) : History T := frameHistory (historyLoop fuel) sc s

/-! ## Turn by turn -/

theorem executeLoop_done {fuel : Nat} {sc : Scope} {s : Machine T} (h : currentInstruction sc s.evm = none) :
    executeLoop (fuel + 1) sc s = finishFrame sc s := by
  simp only [executeLoop, turn, Hoare.get_bind, h]

theorem executeLoop_step {fuel : Nat} {sc : Scope} {s : Machine T} {instruction : Instruction}
    (h : currentInstruction sc s.evm = some instruction) :
    executeLoop (fuel + 1) sc s =
      match executeStep (executeWithContext fuel) sc instruction s with
      | .ok (some ret) t => .ok ret t
      | .ok none t => executeLoop fuel sc t
      | .error f t => .error f t := by
  simp only [executeLoop, turn, Hoare.get_bind, h]
  change EStateM.bind (executeStep (executeWithContext fuel) sc instruction) _ s = _
  unfold EStateM.bind
  cases executeStep (executeWithContext fuel) sc instruction s with
  | error f t => rfl
  | ok o t => cases o <;> rfl

theorem historyLoop_done {fuel : Nat} {sc : Scope} {s : Machine T} (h : currentInstruction sc s.evm = none) :
    historyLoop (fuel + 1) sc s = .done := by
  simp only [historyLoop, h]

theorem historyLoop_step {fuel : Nat} {sc : Scope} {s : Machine T} {instruction : Instruction}
    (h : currentInstruction sc s.evm = some instruction) :
    historyLoop (fuel + 1) sc s =
      historyNode (executeWithContext fuel) (frameHistory (historyLoop fuel)) ⟨sc, instruction, s⟩
        (match executeStep (executeWithContext fuel) sc instruction s with
        | .ok none t => historyLoop fuel sc t
        | _ => .cut) := by
  simp only [historyLoop, h]

/-- The instructions of a node: its own, those of the frame it opens, and those after it. -/
theorem mem_historyNode {exec : Exec T} {hist : Scope → Machine T → History T} {x y : Step T} {rest : History T}
    (h : y ∈ (historyNode exec hist x rest).steps) :
    y = x ∨ (∃ inner pending opened, openedFrame x.scope x.instruction x.before = some (inner, pending, opened) ∧
      y ∈ (hist inner.scope (inner.machine opened.ext)).steps) ∨ y ∈ rest.steps := by
  unfold historyNode at h
  split at h
  · exact (List.mem_cons.1 h).imp_right .inr
  · next inner pending opened hopened =>
    exact (List.mem_cons.1 h).imp_right fun h => (List.mem_append.1 h).imp_left fun h =>
      ⟨inner, pending, opened, hopened, h⟩

section Nodes

variable {exec : Exec T} {hist hloop : Scope → Machine T → History T} {x : Step T} {rest : History T}

theorem self_mem_node : x ∈ (historyNode exec hist x rest).steps := by
  unfold historyNode
  split <;> exact List.mem_cons_self

theorem rest_subset_node : rest.steps ⊆ (historyNode exec hist x rest).steps := by
  intro y hy
  unfold historyNode
  split
  · exact List.mem_cons_of_mem _ hy
  · exact List.mem_cons_of_mem _ (List.mem_append_right _ hy)

theorem callee_subset_node {inner : Inner T} {pending : Pending} {opened : Machine T}
    (ho : openedFrame x.scope x.instruction x.before = some (inner, pending, opened)) :
    (hist inner.scope (inner.machine opened.ext)).steps ⊆ (historyNode exec hist x rest).steps := by
  intro y hy
  unfold historyNode
  rw [ho]
  exact List.mem_cons_of_mem _ (List.mem_append_left _ hy)

omit [Crypto] in
theorem frameHistory_entered {sc : Scope} {s u : Machine T} (he : enterFrame sc s = .ok ⟨⟩ u)
    (hdepth : sc.ctx.depth ≤ callDepthLimit) : frameHistory hloop sc s = hloop sc u := by
  unfold frameHistory
  rw [he]
  exact if_neg (not_lt.2 hdepth)

end Nodes

/-! ## Concrete calls -/

namespace Sample

/-- The first instruction of `code`, on these operands and accounts. -/
def step (code : Bytes) (stack : List Word) (accounts : List (Address × Word × Bytes)) : Step NoopTracer :=
  ⟨scope code, ((decode code).instructions.head?).getD ⟨⟨0, "STOP", 0⟩, 0, none⟩,
    { machine accounts with evm := { stack, gas := .new 100000 } }⟩

/-- The instruction opens a frame that comes back, and returns itself, in `p`. -/
def calls (fuel : Nat) (x : Step T) (p : Inner T → Pending → Machine T → Machine T → Machine T → Bool) : Bool :=
  match openedFrame x.scope x.instruction x.before with
  | none => false
  | some (inner, pending, opened) =>
    returns (executeWithContext fuel inner.scope (inner.machine opened.ext)) fun _ m =>
      returns (executeInstruction (executeWithContext fuel) x.scope x.instruction x.before) fun _ u =>
        p inner pending opened m u

theorem of_calls {fuel : Nat} {x : Step T} {p : Inner T → Pending → Machine T → Machine T → Machine T → Bool}
    (h : calls fuel x p = true) : ∃ inner pending opened ret m r u,
      openedFrame x.scope x.instruction x.before = some (inner, pending, opened) ∧
      executeWithContext fuel inner.scope (inner.machine opened.ext) = .ok ret m ∧
      executeInstruction (executeWithContext fuel) x.scope x.instruction x.before = .ok r u ∧
      p inner pending opened m u = true := by
  unfold calls at h
  split at h
  · cases h
  · next inner pending opened ho =>
    obtain ⟨ret, m, hrun, h⟩ := of_returns h
    obtain ⟨r, u, hu, h⟩ := of_returns h
    exact ⟨inner, pending, opened, ret, m, r, u, ho, hrun, hu, h⟩

end Sample

end Solenoid
