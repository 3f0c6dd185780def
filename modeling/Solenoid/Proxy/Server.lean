/-
  Solenoid.Proxy.Server — `handle_jsonrpc` of `rpc-proxy/src/main.rs`.

  The upstream is a function of the method and the parameters of a request; it may also fail.
  The arms of the cached methods differ in what they look up and what they store, which is
  `Query.lookup` and `Query.onResult`. A handler that panics gives no response: its connection
  is closed, and the cache is as it was. The log is left out.
-/
import Solenoid.Proxy.Cache

namespace Solenoid.Proxy

/-! ## JSON -/

/-- `serde_json::Value`; a number is its text. -/
inductive Value where
  | null
  | bool (b : Bool)
  | number (text : String)
  | string (s : String)
  | array (items : List Value)
  | object (fields : List (String × Value))

namespace Value

def get (v : Value) (key : String) : Option Value :=
  match v with
  | object fields => fields.lookup key
  | _ => none

def asStr : Value → Option String
  | string s => some s
  | _ => none

def asArray : Value → Option (List Value)
  | array items => some items
  | _ => none

def isNull : Value → Bool
  | null => true
  | _ => false

end Value

/-- `serde_json::to_string` and `from_str`. -/
class Serde where
  toString : Value → String
  fromStr : String → Option Value

/-! ## Requests and responses -/

/-- What `handle_jsonrpc` takes out of a body. -/
structure Request where
  method : String
  params : Value
  id : Value

/-- A body that is no object has none of it. -/
def Request.ofBody (body : Value) : Option Request :=
  match body with
  | .object _ => some
    { method := ((body.get "method").bind Value.asStr).getD ""
      params := (body.get "params").getD (.array [])
      id := (body.get "id").getD .null }
  | _ => none

/-- The members of a JSON-RPC response. -/
structure Reply where
  result : Option Value := none
  error : Option Value := none

def Reply.toBody (r : Reply) (id : Value) : Value :=
  .object ([("jsonrpc", .string "2.0"), ("id", id)] ++ (r.result.map ("result", ·)).toList ++
    (r.error.map ("error", ·)).toList)

/-- What is at the upstream URL: its answer to a request, by method and parameters, and to
    anything else; an error is a transport's. -/
structure Upstream where
  single : String → Value → Except String Reply
  other : Value → Except String Value

structure AppState where
  upstream : Upstream
  offline : Bool := false
  empty : Bool := false

/-- `StatusCode` and `Json`. -/
structure Response where
  status : Nat
  body : Value

variable (state : AppState)

def forward (body : Value) : Except String Value :=
  match Request.ofBody body with
  | some r => (state.upstream.single r.method r.params).map (·.toBody r.id)
  | none => state.upstream.other body

def errorResponse (message : String) : Response :=
  ⟨502, .object [("jsonrpc", .string "2.0"),
    ("error", .object [("code", .number "-32000"), ("message", .string message)]), ("id", .null)]⟩

def jsonrpcOk (id result : Value) : Response := ⟨200, .object [("jsonrpc", .string "2.0"), ("id", id), ("result", result)]⟩

def jsonrpcErr (id : Value) (code message : String) : Response :=
  ⟨200, .object [("jsonrpc", .string "2.0"), ("id", id),
    ("error", .object [("code", .number code), ("message", .string message)])]⟩

def forwardAndRespond (body : Value) : Response :=
  match forward state body with
  | .ok resp => ⟨200, resp⟩
  | .error err => errorResponse err

/-- A result that comes without an error is stored, before there is a response. -/
def cacheMissAndForward (body id : Value) (onResult : Value → Cache → Option Cache) (c : Cache) : Option Response × Cache :=
  if state.offline then (some (jsonrpcErr id "-32001" "Server running in offline mode"), c)
  else
    match forward state body with
    | .ok resp =>
      let stored :=
        match resp.get "error", resp.get "result" with
        | none, some result => onResult result c
        | _, _ => some c
      (stored.map fun _ => ⟨200, resp⟩, stored.getD c)
    | .error err => (some (errorResponse err), c)

/-! ## The cached methods -/

/-- A request for a cached method, with the parameters its arm takes. -/
inductive Query where
  | storageAt (address slot block : String)
  | balance (address block : String)
  | transactionCount (address block : String)
  | code (address block : String)
  | blockByHash (hash : String)
  | blockByNumber (number : String)
  | transactionByHash (hash : String)
  | transactionReceipt (hash : String)

/-- The other parameters are not looked at. -/
def query? (method : String) (params : Value) : Option Query :=
  let p := fun i => ((params.asArray.bind (·[i]?)).bind Value.asStr)
  match method with
  | "eth_getStorageAt" => do return .storageAt (← p 0) (← p 1) (← p 2)
  | "eth_getBalance" => do return .balance (← p 0) (← p 1)
  | "eth_getTransactionCount" => do return .transactionCount (← p 0) (← p 1)
  | "eth_getCode" => do return .code (← p 0) (← p 1)
  | "eth_getBlockByHash" => do return .blockByHash (← p 0)
  | "eth_getBlockByNumber" => do return .blockByNumber (← p 0)
  | "eth_getTransactionByHash" => do return .transactionByHash (← p 0)
  | "eth_getTransactionReceipt" => do return .transactionReceipt (← p 0)
  | _ => none

def zero32 : String := "0x0000000000000000000000000000000000000000000000000000000000000000"

section

variable [Serde] [Lowercase]

def Query.lookup (c : Cache) : Query → Option (Option Value)
  | .storageAt address slot block => do return (← c.getStorageAt address slot block).map .string
  | .balance address block => do return (← c.getBalance address block).map .string
  | .transactionCount address block => do return (← c.getTxCount address block).map .string
  | .code address _ => some ((c.getCode address).map .string)
  | .blockByHash hash => some ((c.getBlockByHash hash).bind Serde.fromStr)
  | .blockByNumber number => some ((c.getBlockByNumber number).bind Serde.fromStr)
  | .transactionByHash hash => some ((c.getTx hash).bind Serde.fromStr)
  | .transactionReceipt hash => some ((c.getReceipt hash).bind Serde.fromStr)

/-- A block is stored under its own hash and number. -/
def storeBlock (result : Value) (c : Cache) : Cache :=
  match (result.get "hash").bind Value.asStr, (result.get "number").bind Value.asStr with
  | some hash, some number => c.putBlock hash number (Serde.toString result)
  | _, _ => c

/-- A balance, a nonce or code is stored if it is a string. -/
def storeString (put : String → Option Cache) (result : Value) (c : Cache) : Option Cache :=
  match result.asStr with
  | some val => put val
  | none => some c

/-- A transaction or a receipt is stored unless it is null. -/
def storeDocument (put : String → Cache) (result : Value) (c : Cache) : Cache :=
  if !result.isNull then put (Serde.toString result) else c

def Query.onResult (result : Value) (c : Cache) : Query → Option Cache
  | .storageAt address slot block => c.putStorageAt address slot block (result.asStr.getD zero32)
  | .balance address block => storeString (c.putBalance address block) result c
  | .transactionCount address block => storeString (c.putTxCount address block) result c
  | .code address _ => storeString (fun val => some (c.putCode address val)) result c
  | .blockByHash _ => some (storeBlock result c)
  | .blockByNumber _ => some (storeBlock result c)
  | .transactionByHash hash => some (storeDocument (c.putTx hash) result c)
  | .transactionReceipt hash => some (storeDocument (c.putReceipt hash) result c)

/-- The first parameter is a tag. -/
def isLatest (params : Value) : Bool :=
  match (params.asArray.bind (·.head?)).bind Value.asStr with
  | some s => s == "latest" || s == "pending" || s == "earliest"
  | none => false

/-- The query of a request that goes to the cache. -/
def AppState.cached? (r : Request) : Option Query :=
  if !state.empty && !isLatest r.params then query? r.method r.params else none

def handleJsonrpc (body : Value) (c : Cache) : Option Response × Cache :=
  match body with
  | .array _ => (some (forwardAndRespond state body), c)
  | _ =>
    match Request.ofBody body with
    | none =>
      (some ⟨400, .object [("jsonrpc", .string "2.0"),
        ("error", .object [("code", .number "-32600"), ("message", .string "Invalid Request")]), ("id", .null)]⟩, c)
    | some r =>
      match state.cached? r with
      | none => (some (forwardAndRespond state body), c)
      | some q =>
        match q.lookup c with
        | none => (none, c)
        | some (some val) => (some (jsonrpcOk r.id val), c)
        | some none => cacheMissAndForward state body r.id (fun result c => q.onResult result c) c

end

end Solenoid.Proxy
