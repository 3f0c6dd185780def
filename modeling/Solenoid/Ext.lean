/-
  Solenoid.Ext — the state an execution runs on (`ext.rs`): the accounts loaded or written
  so far, over an optional remote pinned at a block.

  `Remote` is the node's answers at the pinned block, fixed functions of their arguments
  (`none` is a failed request). A map is a `Finmap`, a set a `Finset`. Every operation is
  a state transformer that can report an error or panic; on either the state reached so
  far is kept, as behind a `&mut`. `put` is the one of the default build (feature
  `tracing`), which reads the slot back.
-/
import Solenoid.Block

namespace Solenoid

abbrev Storage := Finmap fun _ : Word => Word

structure Account where
  value : Word := 0
  nonce : Word := 0
  /-- The code and its hash. -/
  code : Bytes × Word := ([], 0)
  state : Storage := ∅

structure Remote where
  balance : Address → Option Word
  nonce : Address → Option Word
  code : Address → Option Bytes
  storage : Address → Word → Option Word
  blockHash : Word → Option Word

structure TxContext where
  gasPrice : Word := 0
  gasMaxFee : Word := 0
  blobMaxFee : Word := 0
  gasMaxPriorityFee : Word := 0
  blobGasUsed : Nat := 0
  accessList : List AccessListItem := []

def TxContext.accessListCost (tx : TxContext) : Int :=
  tx.accessList.foldl (fun cost item => cost + 2400 + 1900 * (item.storageKeys.length : Int)) 0

abbrev Accounts := Finmap fun _ : Address => Account
abbrev Slots := Finmap fun _ : Address × Word => Word

structure Ext where
  remote : Option Remote := none
  state : Accounts := ∅
  original : Slots := ∅
  transient : Slots := ∅
  accessedAddresses : Finset Address := ∅
  accessedStorage : Finset (Address × Word) := ∅
  createdAccounts : List Address := []
  destroyedAccounts : List Address := []
  txCtx : TxContext := {}

/-- A computation that may report or panic, and keeps its state either way. -/
abbrev Run (σ α : Type) := EStateM Fault σ α

def lift {σ α : Type} (e : Except Fault α) : Run σ α := fun s =>
  match e with
  | .ok a => .ok a s
  | .error f => .error f s

/-- `entry(k).or_insert(v)`. -/
def orInsert {κ : Type} [DecidableEq κ] {ν : Type} (m : Finmap fun _ : κ => ν) (k : κ) (v : ν) :
    Finmap fun _ : κ => ν :=
  if (m.lookup k).isSome then m else m.insert k v

/-- The answer of a remote request. -/
def answer {α : Type} : Option α → Except Fault α
  | some a => .ok a
  | none => bail .rpc

namespace Ext

def isAddressWarm (e : Ext) (addr : Address) : Bool := addr ∈ e.accessedAddresses

def isStorageWarm (e : Ext) (addr : Address) (key : Word) : Bool := (addr, key) ∈ e.accessedStorage

/-- `warm_address`: whether the address was cold. -/
def warmAddress (addr : Address) : Run Ext Bool := do
  let e ← get
  set { e with accessedAddresses := insert addr e.accessedAddresses }
  return !e.isAddressWarm addr

def warmStorage (addr : Address) (key : Word) : Run Ext Unit :=
  modify fun e => { e with accessedStorage := insert (addr, key) e.accessedStorage }

def applyAccessList : Run Ext Unit :=
  modify fun e => e.txCtx.accessList.foldl (fun e item =>
    { e with
      accessedAddresses := insert item.address e.accessedAddresses
      accessedStorage := item.storageKeys.foldl (fun ks key => insert (item.address, key) ks) e.accessedStorage }) e

/-- Between transactions: what the last one destroyed goes, and so does all that was kept for
    it. -/
def reset (e : Ext) (txCtx : TxContext) : Ext :=
  { e with
    txCtx, original := ∅, transient := ∅, accessedAddresses := ∅, accessedStorage := ∅, createdAccounts := []
    destroyedAccounts := [], state := e.destroyedAccounts.foldl (fun m addr => m.erase addr) e.state }

variable [Crypto]

def pull (addr : Address) : Run Ext Account := do
  let e ← get
  match e.state.lookup addr with
  | some account => return account
  | none =>
    match e.remote with
    | some remote =>
      let value ← lift (answer (remote.balance addr))
      let nonce ← lift (answer (remote.nonce addr))
      let code ← lift (answer (remote.code addr))
      let account : Account := { value, nonce, code := (code, Crypto.keccak256 code) }
      set { e with state := e.state.insert addr account }
      return account
    | none => throw (.report (.failedToPull addr))

def code (addr : Address) : Run Ext (Bytes × Word) := return (← pull addr).code

def balance (addr : Address) : Run Ext Word := return (← pull addr).value

def nonce (addr : Address) : Run Ext Word := return (← pull addr).nonce

def isEmpty (addr : Address) : Run Ext Bool := do
  let balance ← balance addr
  let nonce ← nonce addr
  let code ← code addr
  return balance == 0 && nonce == 0 && code.1.isEmpty

def get (addr : Address) (key : Word) : Run Ext Word := do
  let account ← pull addr
  let e ← EStateM.get
  match account.state.lookup key with
  | some val =>
    set { e with original := orInsert e.original (addr, key) val }
    return val
  | none =>
    match e.remote with
    | some remote =>
      let val ← lift (answer (remote.storage addr key))
      set { e with
        state := e.state.insert addr { account with state := account.state.insert key val }
        original := orInsert e.original (addr, key) val }
      return val
    | none => return 0

/-- `state.entry(addr).or_default()`. -/
def orDefault (e : Ext) (addr : Address) : Account := (e.state.lookup addr).getD {}

/-- `state.entry(addr).or_default().state.insert(key, val)`. -/
def insertSlot (e : Ext) (addr : Address) (key val : Word) : Ext :=
  { e with state := e.state.insert addr { e.orDefault addr with state := (e.orDefault addr).state.insert key val } }

def put (addr : Address) (key val : Word) : Run Ext Unit := do
  modify fun e => e.insertSlot addr key val
  let _ ← get addr key

def getBlockHash (blockNumber : Word) : Run Ext Word := do
  match (← EStateM.get).remote with
  | some remote => lift (answer (remote.blockHash blockNumber))
  | none => return 0

/-- A write through `account_mut`. -/
def accountMut (addr : Address) (f : Account → Account) : Run Ext Unit := do
  let e ← EStateM.get
  match e.state.lookup addr with
  | some account => set { e with state := e.state.insert addr (f account) }
  | none => throw (.panic "missing account")

/-- `account_mut(addr).value += amount`. -/
def credit (addr : Address) (amount : Word) : Run Ext Unit := do
  let e ← EStateM.get
  match e.state.lookup addr with
  | some account =>
    let value ← lift (account.value.add amount)
    set { e with state := e.state.insert addr { account with value } }
  | none => throw (.panic "missing account")

end Ext

end Solenoid
