/-
  Solenoid.Proxy.Transparency — when the caching proxy cannot be told from its upstream.

  A request that goes to the cache looks at one place; a request that misses leaves its
  result at a place, which for a block is under the block's own hash, with a link from its
  number. The requests of a set are coherent when nothing one of them leaves where another
  looks differs from what the upstream returns for that other.
  - `caching_transparent`: all runs of requests of a set get the upstream's results if and
    only if the set is coherent. Code is looked up by address whatever the block, blocks
    whether or not they have their transactions; a null slot is kept as zero; quantities
    and words are kept as numbers; and only the first digits of long parameters count.
-/
import Solenoid.Lib.ReadThrough
import Solenoid.Proxy.Server

namespace Solenoid.Proxy

/-! ## Runs -/

/-- The body of a request. -/
def Request.body (r : Request) : Value :=
  .object [("jsonrpc", .string "2.0"), ("id", r.id), ("method", .string r.method), ("params", r.params)]

@[simp] theorem Request.ofBody_body (r : Request) : Request.ofBody r.body = some r := rfl

def Response.result (r : Response) : Option Value := r.body.get "result"

section

variable [Serde] [Lowercase] (state : AppState)

/-- What the proxy answers to one request after the other; a handler that panics answers nothing. -/
def serve : List Request → Cache → List (Option Response)
  | [], _ => []
  | r :: run, c =>
    let (response, c) := handleJsonrpc state r.body c
    response :: serve run c

namespace AppState

omit [Serde] [Lowercase]

/-- What the upstream returns for exactly that request. -/
def result (r : Request) : Option Value :=
  match state.upstream.single r.method r.params with
  | .ok reply => reply.result
  | .error _ => none

/-- What of it is stored. -/
def kept (r : Request) : Option Value :=
  match state.upstream.single r.method r.params with
  | .ok ⟨result, none⟩ => result
  | _ => none

end AppState

/-- Nobody can tell the proxy from its upstream. -/
def Transparent (run : List Request) : Prop := (serve state run {}).map (·.bind Response.result) = run.map state.result

/-! ## Places -/

/-- Where a request looks. -/
inductive Place where
  | storage (address : String) (key : Bytes)
  | balance (key : Bytes)
  | nonce (key : Bytes)
  | code (address : String)
  | block (hash : String)
  | number (number : String)
  | tx (hash : String)
  | receipt (hash : String)
  deriving DecidableEq

/-- A key whose text is cut inside of a character is none. -/
def Query.place : Query → Option Place
  | .storageAt address slot block => (storageKey slot block).map (.storage (normalizeHex address))
  | .balance address block => (addressBlockKey address block).map .balance
  | .transactionCount address block => (addressBlockKey address block).map .nonce
  | .code address _ => some (.code (normalizeHex address))
  | .blockByHash hash => some (.block (normalizeHex hash))
  | .blockByNumber number => some (.number (normalizeHex number))
  | .transactionByHash hash => some (.tx (normalizeHex hash))
  | .transactionReceipt hash => some (.receipt (normalizeHex hash))

/-- The hash and the number a block is stored under. -/
def blockNames (result : Value) : Option (String × String) := do
  return (normalizeHex (← (result.get "hash").bind Value.asStr), normalizeHex (← (result.get "number").bind Value.asStr))

/-- What a result is once it has been stored, and where: a word or a quantity is put in its
    canonical form, and what is no word is zero. -/
def Query.leaves (result : Value) (q : Query) : Option (Place × Value) :=
  match q with
  | .storageAt .. => q.place.bind fun p => (pad32 (result.asStr.getD zero32)).map fun b => (p, .string (encodeData32 b))
  | .balance .. | .transactionCount .. =>
    q.place.bind fun p => result.asStr.map fun s => (p, .string (encodeQuantity (decodeHexCompact s)))
  | .code .. => q.place.bind fun p => result.asStr.map fun s => (p, .string s)
  | .blockByHash _ | .blockByNumber _ => (blockNames result).map fun names => (.block names.1, result)
  | .transactionByHash _ | .transactionReceipt _ => if result.isNull then none else q.place.map fun p => (p, result)

/-- A word is stored unless its text is cut inside of a character. -/
def Query.storable (result : Value) : Query → Bool
  | .storageAt .. => (pad32 (result.asStr.getD zero32)).isSome
  | _ => true

/-- The handler panics: there is no key, or no word to store. -/
def AppState.breaks (r : Request) : Bool :=
  (state.cached? r).any fun q => q.place.isNone || (!state.offline && (state.kept r).any fun v => !q.storable v)

/-- The number a block links to its hash. -/
def Query.links (result : Value) : Query → Option (String × String)
  | .blockByHash _ | .blockByNumber _ => blockNames result
  | _ => none

section

omit [Serde]

variable (S : Set Request)

/-- What requests of `S` may leave at a place. A number may come with any of the blocks that
    its hash may have. -/
inductive Leaves : Place → Value → Prop
  | entry {r : Request} {q : Query} {v w : Value} {p : Place} (mem : r ∈ S) (query : state.cached? r = some q)
      (kept : state.kept r = some v) (leaves : q.leaves v = some (p, w)) : Leaves p w
  | linked {r : Request} {q : Query} {v w : Value} {hash number : String} (mem : r ∈ S) (query : state.cached? r = some q)
      (kept : state.kept r = some v) (links : q.links v = some (hash, number)) (block : Leaves (.block hash) w) :
      Leaves (.number number) w

/-- Nothing that requests of `S` leave where one of them looks differs from its result. -/
structure Coherent : Prop where
  entries : ∀ r ∈ S, ∀ q, state.cached? r = some q → ∀ p, q.place = some p → ∀ w, Leaves state S p w →
    state.result r = some w
  /-- What gets no answer has no result. -/
  broken : ∀ r ∈ S, state.breaks r → state.result r = none
  /-- A cached method has no result when there is no upstream to ask. -/
  online : state.offline = true → ∀ r ∈ S, ∀ q, state.cached? r = some q → state.result r = none

/-- What the upstream returns is read back as it was written. -/
def Survives : Prop := ∀ r ∈ S, ∀ v, state.kept r = some v → Serde.fromStr (Serde.toString v) = some v

end

/-! ## What is at a place -/

/-- What a look at the place gives. -/
def Cache.at (c : Cache) : Place → Option Value
  | .storage address key => (c.storage (address, key)).map fun b => .string (encodeData32 b)
  | .balance key => (c.balance key).map fun b => .string (encodeQuantity b)
  | .nonce key => (c.nonce key).map fun b => .string (encodeQuantity b)
  | .code address => (c.code address).map .string
  | .block hash => (c.blocks hash).bind Serde.fromStr
  | .number number => ((c.links number).bind c.blocks).bind Serde.fromStr
  | .tx hash => (c.txs hash).bind Serde.fromStr
  | .receipt hash => (c.receipts hash).bind Serde.fromStr

section

variable {c c' : Cache} {q : Query} {v w : Value} {p : Place}

theorem lookup_eq (q : Query) (c : Cache) : q.lookup c = q.place.map c.at := by
  cases q with
  | storageAt address slot block =>
    simp only [Query.lookup, Cache.getStorageAt, Query.place]
    cases storageKey slot block with
    | none => rfl
    | some key => simp [Cache.at, Function.comp_def]
  | balance address block =>
    simp only [Query.lookup, Cache.getBalance, Query.place]
    cases addressBlockKey address block with
    | none => rfl
    | some key => simp [Cache.at, Function.comp_def]
  | transactionCount address block =>
    simp only [Query.lookup, Cache.getTxCount, Query.place]
    cases addressBlockKey address block with
    | none => rfl
    | some key => simp [Cache.at, Function.comp_def]
  | code address block => simp [Query.lookup, Query.place, Cache.at, Cache.getCode]
  | _ => rfl

omit [Serde] in
theorem putStorageAt_eq {address slot block value : String} (h : c.putStorageAt address slot block value = some c') :
    ∃ key word, storageKey slot block = some key ∧ pad32 value = some word ∧
      c' = { c with storage := c.storage.insert (normalizeHex address, key) word } := by
  simp only [Cache.putStorageAt, bind, Option.bind_eq_some_iff, pure, Option.some.injEq] at h
  obtain ⟨key, hkey, word, hword, rfl⟩ := h
  exact ⟨key, word, hkey, hword, rfl⟩

omit [Serde] [Lowercase] in
theorem putBalance_eq {address block value : String} (h : c.putBalance address block value = some c') :
    ∃ key, addressBlockKey address block = some key ∧
      c' = { c with balance := c.balance.insert key (decodeHexCompact value) } := by
  simp only [Cache.putBalance, bind, Option.bind_eq_some_iff, pure, Option.some.injEq] at h
  obtain ⟨key, hkey, rfl⟩ := h
  exact ⟨key, hkey, rfl⟩

omit [Serde] [Lowercase] in
theorem putTxCount_eq {address block value : String} (h : c.putTxCount address block value = some c') :
    ∃ key, addressBlockKey address block = some key ∧
      c' = { c with nonce := c.nonce.insert key (decodeHexCompact value) } := by
  simp only [Cache.putTxCount, bind, Option.bind_eq_some_iff, pure, Option.some.injEq] at h
  obtain ⟨key, hkey, rfl⟩ := h
  exact ⟨key, hkey, rfl⟩

theorem storeBlock_eq (v : Value) (c : Cache) : storeBlock v c =
    match blockNames v with
    | some (hash, number) =>
      { c with
        blocks := c.blocks.insert hash (Serde.toString v)
        links := c.links.insert number hash }
    | none => c := by
  unfold storeBlock blockNames
  cases (v.get "hash").bind Value.asStr with
  | none => rfl
  | some hash =>
    cases (v.get "number").bind Value.asStr with
    | none => rfl
    | some number => rfl

omit [Serde] [Lowercase] in
@[simp] theorem insert_self {κ ν : Type} [DecidableEq κ] (s : Store κ ν) (k : κ) (v : ν) : s.insert k v k = some v :=
  Function.update_self ..

omit [Serde] [Lowercase] in
@[simp] theorem insert_ne {κ ν : Type} [DecidableEq κ] {s : Store κ ν} {k k' : κ} {v : ν} (h : k' ≠ k) :
    s.insert k v k' = s k' :=
  Function.update_of_ne h ..

/-- A result is stored if there is a key, and for a slot a word. -/
theorem exists_onResult (hp : q.place = some p) (hv : q.storable v) (c : Cache) : ∃ c', q.onResult v c = some c' := by
  have hstring : ∀ {put : String → Option Cache}, (∀ s, ∃ c', put s = some c') → ∃ c', storeString put v c = some c' := by
    intro put hput
    unfold storeString
    split
    · exact hput _
    · exact ⟨c, rfl⟩
  cases q with
  | storageAt address slot block =>
    obtain ⟨key, hkey, -⟩ := Option.map_eq_some_iff.1 hp
    obtain ⟨word, hword⟩ := Option.isSome_iff_exists.1 hv
    exact ⟨_, by rw [Query.onResult, Cache.putStorageAt, hkey, hword]; rfl⟩
  | balance address block =>
    obtain ⟨key, hkey, -⟩ := Option.map_eq_some_iff.1 hp
    exact hstring fun s => ⟨_, by rw [Cache.putBalance, hkey]; rfl⟩
  | transactionCount address block =>
    obtain ⟨key, hkey, -⟩ := Option.map_eq_some_iff.1 hp
    exact hstring fun s => ⟨_, by rw [Cache.putTxCount, hkey]; rfl⟩
  | code => exact hstring fun s => ⟨_, rfl⟩
  | _ => exact ⟨_, rfl⟩

/-- A word that cannot be cut is not stored. -/
theorem onResult_eq_none (hv : q.storable v = false) (c : Cache) : q.onResult v c = none := by
  cases q with
  | storageAt address slot block =>
    have hword : pad32 (v.asStr.getD zero32) = none := Option.isSome_eq_false_iff.1 hv |> Option.isNone_iff_eq_none.1
    rw [Query.onResult, Cache.putStorageAt, hword]
    cases storageKey slot block <;> rfl
  | _ => cases hv

/-- Without a key nothing is stored. -/
theorem onResult_of_no_place (hp : q.place = none) (v : Value) (c : Cache) : (q.onResult v c).getD c = c := by
  have hstring : ∀ {put : String → Option Cache}, (∀ s, put s = none) → (storeString put v c).getD c = c := by
    intro put hput
    unfold storeString
    split
    · rw [hput]
      rfl
    · rfl
  cases q with
  | storageAt address slot block =>
    rw [Query.onResult, Cache.putStorageAt, Option.map_eq_none_iff.1 hp]
    rfl
  | balance address block => exact hstring fun s => by rw [Cache.putBalance, Option.map_eq_none_iff.1 hp]; rfl
  | transactionCount address block => exact hstring fun s => by rw [Cache.putTxCount, Option.map_eq_none_iff.1 hp]; rfl
  | _ => cases hp

/-- A result that is stored is found where it was left. -/
theorem at_leaves (hv : Serde.fromStr (Serde.toString v) = some v) (hc : q.onResult v c = some c')
    (h : q.leaves v = some (p, w)) : c'.at p = some w := by
  have hstring : ∀ (place : Option Place) {put : String → Option Cache} {f : String → Value},
      (place.bind fun p => v.asStr.map fun s => (p, f s)) = some (p, w) → storeString put v c = some c' →
      (∀ s, place = some p → put s = some c' → c'.at p = some (f s)) → c'.at p = some w := by
    intro place put f h hc hput
    obtain ⟨p', hp', h⟩ := Option.bind_eq_some_iff.1 h
    obtain ⟨s, hs, hpw⟩ := Option.map_eq_some_iff.1 h
    cases hpw
    rw [storeString, hs] at hc
    exact hput s hp' hc
  have hdocument : ∀ (put : String → Cache) {place : Place}, (if v.isNull then none else some (place, v)) = some (p, w) →
      (put (Serde.toString v)).at place = Serde.fromStr (Serde.toString v) → (storeDocument put v c).at p = some w := by
    intro put place h hput
    cases hnull : v.isNull <;> simp only [hnull, Bool.false_eq_true, if_true, if_false] at h
    · cases h
      rw [storeDocument, hnull, ← hv]
      exact hput
    · cases h
  have hblock : ((blockNames v).map fun names => (Place.block names.1, v)) = some (p, w) →
    (storeBlock v c).at p = some w := by
    intro h
    obtain ⟨names, hnames, hpw⟩ := Option.map_eq_some_iff.1 h
    cases hpw
    rw [storeBlock_eq, hnames]
    simp [Cache.at, hv]
  cases q with
  | storageAt address slot block =>
    obtain ⟨key, word, hkey, hword, rfl⟩ := putStorageAt_eq hc
    simp only [Query.leaves, Query.place, hkey, hword, Option.map_some, Option.bind_some] at h
    cases h
    simp [Cache.at]
  | balance address block =>
    refine hstring _ h hc fun s hp hput => ?_
    obtain ⟨key, hkey, rfl⟩ := putBalance_eq hput
    rw [Query.place, hkey] at hp
    cases hp
    simp [Cache.at]
  | transactionCount address block =>
    refine hstring _ h hc fun s hp hput => ?_
    obtain ⟨key, hkey, rfl⟩ := putTxCount_eq hput
    rw [Query.place, hkey] at hp
    cases hp
    simp [Cache.at]
  | code address block =>
    refine hstring (Query.code address block).place h hc fun s hp hput => ?_
    cases hp
    cases hput
    simp [Cache.putCode, Cache.at]
  | blockByHash hash =>
    cases hc
    exact hblock h
  | blockByNumber number =>
    cases hc
    exact hblock h
  | transactionByHash hash =>
    cases hc
    exact hdocument _ h (by simp [Cache.putTx, Cache.at])
  | transactionReceipt hash =>
    cases hc
    exact hdocument _ h (by simp [Cache.putReceipt, Cache.at])

/-- Nothing else is left anywhere, but under the numbers. -/
theorem at_other (hp : ∀ n, p ≠ .number n) (hc : q.onResult v c = some c') (h : ∀ w, q.leaves v ≠ some (p, w)) :
    c'.at p = c.at p := by
  have hstring : ∀ (place : Option Place) {put : String → Option Cache} {f : String → Value},
      (∀ w, (place.bind fun p => v.asStr.map fun s => (p, f s)) ≠ some (p, w)) → storeString put v c = some c' →
      (∀ s, place ≠ some p → put s = some c' → c'.at p = c.at p) → c'.at p = c.at p := by
    intro place put f h hc hput
    unfold storeString at hc
    cases hs : v.asStr with
    | none =>
      rw [hs] at hc
      cases hc
      rfl
    | some s =>
      rw [hs] at hc
      refine hput s (fun hplace => h (f s) ?_) hc
      rw [hs, hplace]
      rfl
  have hdocument : ∀ (put : String → Cache) {place : Place},
    (∀ w, (if v.isNull then none else some (place, v)) ≠ some (p, w)) →
      (∀ s, p ≠ place → (put s).at p = c.at p) → (storeDocument put v c).at p = c.at p := by
    intro put place h hput
    unfold storeDocument
    cases hnull : v.isNull with
    | true => rfl
    | false =>
      refine hput _ fun hplace => h v ?_
      rw [hnull, hplace]
      rfl
  have hblock : (∀ w, ((blockNames v).map fun names => (Place.block names.1, v)) ≠ some (p, w)) →
      (storeBlock v c).at p = c.at p := by
    intro h
    rw [storeBlock_eq]
    cases hnames : blockNames v with
    | none => rfl
    | some names =>
      have hplace : p ≠ .block names.1 := fun hplace => h v (by rw [hnames, hplace]; rfl)
      cases p with
      | block hash =>
        have hne : hash ≠ names.1 := fun hne => hplace (by rw [hne])
        simp [Cache.at, hne]
      | number n => exact absurd rfl (hp n)
      | _ => rfl
  cases q with
  | storageAt address slot block =>
    obtain ⟨key, word, hkey, hword, rfl⟩ := putStorageAt_eq hc
    have hplace : p ≠ .storage (normalizeHex address) key := fun hplace => by
      refine h (.string (encodeData32 word)) ?_
      simp only [Query.leaves, Query.place, hkey, hword, Option.map_some, Option.bind_some, hplace]
    cases p with
    | storage a key' =>
      have hne : (a, key') ≠ (normalizeHex address, key) := fun hne => hplace (by cases hne; rfl)
      simp only [Cache.at, insert_ne hne]
    | _ => rfl
  | balance address block =>
    refine hstring _ h hc fun s hplace hput => ?_
    obtain ⟨key, hkey, rfl⟩ := putBalance_eq hput
    cases p with
    | balance key' =>
      have hne : key' ≠ key := fun hne => hplace (by rw [Query.place, hkey, hne]; rfl)
      simp only [Cache.at, insert_ne hne]
    | _ => rfl
  | transactionCount address block =>
    refine hstring _ h hc fun s hplace hput => ?_
    obtain ⟨key, hkey, rfl⟩ := putTxCount_eq hput
    cases p with
    | nonce key' =>
      have hne : key' ≠ key := fun hne => hplace (by rw [Query.place, hkey, hne]; rfl)
      simp only [Cache.at, insert_ne hne]
    | _ => rfl
  | code address block =>
    refine hstring (Query.code address block).place h hc fun s hplace hput => ?_
    cases hput
    cases p with
    | code a =>
      have hne : a ≠ normalizeHex address := fun hne => hplace (by rw [hne]; rfl)
      simp only [Cache.putCode, Cache.at, insert_ne hne]
    | _ => rfl
  | blockByHash hash =>
    cases hc
    exact hblock h
  | blockByNumber number =>
    cases hc
    exact hblock h
  | transactionByHash hash =>
    cases hc
    refine hdocument _ h fun s hplace => ?_
    cases p with
    | tx a =>
      have hne : a ≠ normalizeHex hash := fun hne => hplace (by rw [hne])
      simp only [Cache.putTx, Cache.at, insert_ne hne]
    | _ => rfl
  | transactionReceipt hash =>
    cases hc
    refine hdocument _ h fun s hplace => ?_
    cases p with
    | receipt a =>
      have hne : a ≠ normalizeHex hash := fun hne => hplace (by rw [hne])
      simp only [Cache.putReceipt, Cache.at, insert_ne hne]
    | _ => rfl

/-- A block links its number to its hash. -/
theorem links_onResult (hc : q.onResult v c = some c') : c'.links =
    match q.links v with
    | some (hash, number) => c.links.insert number hash
    | none => c.links := by
  have hstring : ∀ {put : String → Option Cache}, storeString put v c = some c' →
      (∀ s, put s = some c' → c'.links = c.links) → c'.links = c.links := by
    intro put hc hput
    unfold storeString at hc
    split at hc
    · exact hput _ hc
    · cases hc
      rfl
  have hdocument : ∀ put : String → Cache, (∀ s, (put s).links = c.links) → (storeDocument put v c).links = c.links := by
    intro put hput
    unfold storeDocument
    split
    · exact hput _
    · rfl
  have hblock : (storeBlock v c).links =
      match blockNames v with
      | some (hash, number) => c.links.insert number hash
      | none => c.links := by
    rw [storeBlock_eq]
    split <;> rfl
  cases q with
  | storageAt =>
    obtain ⟨_, _, -, -, rfl⟩ := putStorageAt_eq hc
    rfl
  | balance =>
    refine hstring hc fun s hput => ?_
    obtain ⟨_, -, rfl⟩ := putBalance_eq hput
    rfl
  | transactionCount =>
    refine hstring hc fun s hput => ?_
    obtain ⟨_, -, rfl⟩ := putTxCount_eq hput
    rfl
  | code =>
    refine hstring hc fun s hput => ?_
    cases hput
    rfl
  | blockByHash =>
    cases hc
    exact hblock
  | blockByNumber =>
    cases hc
    exact hblock
  | transactionByHash =>
    cases hc
    exact hdocument _ fun _ => rfl
  | transactionReceipt =>
    cases hc
    exact hdocument _ fun _ => rfl

end

/-! ## What the proxy answers -/

namespace AppState

/-- The cache as a store that is filled by what it could not answer. -/
def readThrough : ReadThrough Request Value Cache where
  read r c := (state.cached? r).bind fun q => (q.lookup c).join
  fetch r := if state.breaks r ∨ (state.offline ∧ (state.cached? r).isSome) then none else state.result r
  fill r c :=
    match state.cached? r, state.kept r with
    | some q, some v => if state.offline then c else (q.onResult v c).getD c
    | _, _ => c

variable {state} {r : Request} {q : Query} {v : Value} {c : Cache}

omit [Serde] [Lowercase] in
theorem result_of_kept (h : state.kept r = some v) : state.result r = some v := by
  unfold kept at h
  unfold result
  split at h
  · next heq =>
    rw [heq]
    exact h
  · cases h

omit [Serde] [Lowercase] in
theorem get_toBody (reply : Reply) (id : Value) :
    (reply.toBody id).get "result" = reply.result ∧ (reply.toBody id).get "error" = reply.error := by
  obtain ⟨result, error⟩ := reply
  cases result <;> cases error <;> exact ⟨rfl, rfl⟩

omit [Serde] [Lowercase] in
theorem forward_body (r : Request) :
    forward state r.body = (state.upstream.single r.method r.params).map (·.toBody r.id) := rfl

omit [Serde] [Lowercase] in
theorem forwarded_result (r : Request) : (forwardAndRespond state r.body).result = state.result r := by
  unfold forwardAndRespond result
  rw [forward_body]
  cases state.upstream.single r.method r.params with
  | ok reply => exact (get_toBody _ _).1
  | error err => rfl

theorem handle_body (r : Request) (c : Cache) : handleJsonrpc state r.body c =
    match state.cached? r with
    | none => (some (forwardAndRespond state r.body), c)
    | some q =>
      match q.lookup c with
      | none => (none, c)
      | some (some val) => (some (jsonrpcOk r.id val), c)
      | some none => cacheMissAndForward state r.body r.id (fun result c => q.onResult result c) c := rfl

/-- A miss gets what fetching gives, and leaves what is kept of it. -/
theorem miss_eq {p : Place} (hq : state.cached? r = some q) (hp : q.place = some p) (c : Cache) :
    ((cacheMissAndForward state r.body r.id (fun result c => q.onResult result c) c).1.bind Response.result =
        state.readThrough.fetch r) ∧
      (cacheMissAndForward state r.body r.id (fun result c => q.onResult result c) c).2 = state.readThrough.fill r c := by
  simp only [cacheMissAndForward, readThrough, breaks, hq, hp, Option.any_some, Option.isNone_some, Bool.false_or,
    Option.isSome_some, and_true, forward_body, result, kept]
  by_cases hoffline : state.offline = true
  · simp only [hoffline, if_true]
    refine ⟨by simp [Response.result, jsonrpcErr, Value.get], ?_⟩
    split <;> rfl
  · simp only [hoffline]
    cases state.upstream.single r.method r.params with
    | error err => exact ⟨by simp [Response.result, errorResponse, Value.get, Except.map], rfl⟩
    | ok reply =>
      obtain ⟨result, error⟩ := reply
      have hget := get_toBody ⟨result, error⟩ r.id
      have hresult : Response.result ⟨200, Reply.toBody ⟨result, error⟩ r.id⟩ = result := hget.1
      simp only [Except.map, hget]
      cases error with
      | some why => simp [hresult]
      | none =>
        cases result with
        | none => simp [hresult]
        | some v =>
          cases hstorable : q.storable v with
          | false => simp [onResult_eq_none hstorable, hstorable]
          | true =>
            obtain ⟨c', hc'⟩ := exists_onResult hp hstorable c
            simp [hc', hstorable, hresult]

/-- What a request gets, and what it leaves. -/
theorem handle_eq (r : Request) (c : Cache) :
    (handleJsonrpc state r.body c).1.bind Response.result = (state.readThrough.serve r c).1 ∧
      (handleJsonrpc state r.body c).2 = (state.readThrough.serve r c).2 := by
  rw [handle_body]
  cases hq : state.cached? r with
  | none =>
    have hread : state.readThrough.read r c = none := by simp [readThrough, hq]
    rw [ReadThrough.serve_miss hread]
    simp [readThrough, breaks, hq, forwarded_result]
  | some q =>
    have hread : state.readThrough.read r c = (q.lookup c).join := by simp [readThrough, hq]
    dsimp only
    rw [lookup_eq] at hread ⊢
    cases hp : q.place with
    | none =>
      -- there is no key, and the handler ends where it would look
      rw [hp] at hread
      rw [ReadThrough.serve_miss hread]
      refine ⟨by simp [readThrough, breaks, hq, hp], ?_⟩
      simp only [readThrough, hq, Option.map_none]
      split
      · next v hsome _ =>
        cases hsome
        split
        · rfl
        · exact (onResult_of_no_place hp v c).symm
      · rfl
    | some p =>
      rw [hp, Option.map_some, Option.join_some] at hread
      cases hat : c.at p with
      | some val =>
        rw [ReadThrough.serve_hit (hread.trans hat)]
        simp only [Option.map_some, hat]
        exact ⟨rfl, trivial⟩
      | none =>
        rw [ReadThrough.serve_miss (hread.trans hat)]
        simp only [Option.map_some, hat]
        exact miss_eq hq hp c

end AppState

theorem serve_eq (run : List Request) (c : Cache) :
    (serve state run c).map (·.bind Response.result) = state.readThrough.answers run c := by
  induction run generalizing c with
  | nil => rfl
  | cons r run ih =>
    have hhandle : (handleJsonrpc state r.body c).1.bind Response.result = (state.readThrough.serve r c).1 ∧
        (handleJsonrpc state r.body c).2 = (state.readThrough.serve r c).2 := AppState.handle_eq r c
    obtain ⟨hresult, hcache⟩ := hhandle
    show (handleJsonrpc state r.body c).1.bind Response.result ::
      (serve state run (handleJsonrpc state r.body c).2).map _ = _
    rw [hresult, hcache, ih]
    rfl

/-! ## Coherent requests -/

section

variable {state} {S : Set Request} {c c' : Cache}

omit [Serde] in
theorem leaves_block {q : Query} {v w : Value} {hash : String} (h : q.leaves v = some (.block hash, w)) :
    w = v ∧ ∃ number, q.links v = some (hash, number) := by
  have hblock : ((blockNames v).map fun names => (Place.block names.1, v)) = some (.block hash, w) →
      w = v ∧ ∃ number, blockNames v = some (hash, number) := by
    intro h
    obtain ⟨⟨hash', number⟩, hnames, hpw⟩ := Option.map_eq_some_iff.1 h
    cases hpw
    exact ⟨rfl, number, hnames⟩
  cases q with
  | blockByHash => exact hblock h
  | blockByNumber => exact hblock h
  | transactionByHash | transactionReceipt =>
    simp only [Query.leaves] at h
    split at h <;> cases h
  | code =>
    obtain ⟨s, -, hpw⟩ := Option.map_eq_some_iff.1 h
    cases hpw
  | storageAt | balance | transactionCount =>
    obtain ⟨p, hp, h⟩ := Option.bind_eq_some_iff.1 h
    obtain ⟨s, -, hpw⟩ := Option.map_eq_some_iff.1 h
    obtain ⟨key, -, rfl⟩ := Option.map_eq_some_iff.1 hp
    cases hpw

omit [Serde] in
theorem leaves_of_links {q : Query} {v : Value} {hash number : String} (h : q.links v = some (hash, number)) :
    q.leaves v = some (.block hash, v) := by
  cases q with
  | blockByHash =>
    have h : blockNames v = some (hash, number) := h
    simp only [Query.leaves, h]
    rfl
  | blockByNumber =>
    have h : blockNames v = some (hash, number) := h
    simp only [Query.leaves, h]
    rfl
  | _ => cases h

omit [Lowercase] in
theorem at_number {number hash : String} (h : c.links number = some hash) : c.at (.number number) = c.at (.block hash) := by
  simp only [Cache.at, h, Option.bind_some]

/-- Everything in the cache was left by requests of `S`. -/
structure Filled (state : AppState) (S : Set Request) (c : Cache) : Prop where
  entries : ∀ p w, (∀ n, p ≠ .number n) → c.at p = some w → Leaves state S p w
  links : ∀ number hash, c.links number = some hash → ∃ r ∈ S, ∃ q v, state.cached? r = some q ∧ state.kept r = some v ∧
    q.links v = some (hash, number)

theorem Filled.at (h : Filled state S c) {p : Place} {w : Value} (hw : c.at p = some w) : Leaves state S p w := by
  by_cases hp : ∀ n, p ≠ .number n
  · exact h.entries p w hp hw
  · simp only [not_forall, not_not] at hp
    obtain ⟨number, rfl⟩ := hp
    cases hlink : c.links number with
    | none =>
      simp only [Cache.at, hlink] at hw
      cases hw
    | some hash =>
      obtain ⟨r, hr, q, v, hq, hkept, hlinks⟩ := h.links number hash hlink
      rw [at_number hlink] at hw
      exact .linked hr hq hkept hlinks (h.entries _ _ nofun hw)

theorem filled_empty : Filled state S {} where
  entries p w _ h := by cases p <;> cases h
  links _ _ h := nomatch h

theorem Filled.onResult (h : Filled state S c) (hsurvives : Survives state S) {r : Request} {q : Query} {v : Value}
    (hr : r ∈ S) (hq : state.cached? r = some q) (hkept : state.kept r = some v) (hc : q.onResult v c = some c') :
    Filled state S c' where
  entries p w hp hw := by
    by_cases hleaves : ∃ w', q.leaves v = some (p, w')
    · obtain ⟨w', hleaves⟩ := hleaves
      rw [at_leaves (hsurvives r hr v hkept) hc hleaves] at hw
      cases hw
      exact .entry hr hq hkept hleaves
    · rw [at_other hp hc fun w' h' => hleaves ⟨w', h'⟩] at hw
      exact h.entries p w hp hw
  links number hash hlink := by
    rw [links_onResult hc] at hlink
    split at hlink
    · next hash' number' hlinks =>
      by_cases hnumber : number = number'
      · subst hnumber
        rw [insert_self] at hlink
        cases hlink
        exact ⟨r, hr, q, v, hq, hkept, hlinks⟩
      · rw [insert_ne hnumber] at hlink
        exact h.links number hash hlink
    · exact h.links number hash hlink

theorem filled_of_reach (hsurvives : Survives state S) (h : state.readThrough.Reach S {} c) : Filled state S c := by
  refine h.induct filled_empty fun c r hc hr _ => ?_
  unfold AppState.readThrough
  simp only
  split
  · next q v hq hkept =>
    split
    · exact hc
    · cases hput : q.onResult v c with
      | none => exact hc
      | some c' => exact hc.onResult hsurvives hr hq hkept hput
  · exact hc

/-- A result that is kept was fetched, so the server was not offline, and it was stored. -/
theorem fill_kept (hfetch : ∀ r ∈ S, state.readThrough.fetch r = state.result r) {r : Request} {q : Query} {v : Value}
    (hr : r ∈ S) (hq : state.cached? r = some q) (hkept : state.kept r = some v) (c : Cache) :
    q.onResult v c = some (state.readThrough.fill r c) := by
  have hresult := (hfetch r hr).trans (AppState.result_of_kept hkept)
  simp only [AppState.readThrough, AppState.breaks, hq, hkept, Option.any_some, Option.isSome_some, and_true] at hresult ⊢
  split at hresult
  · cases hresult
  · next hbroken =>
    simp only [Bool.or_eq_true, Bool.and_eq_true, Bool.not_eq_true', not_or] at hbroken
    obtain ⟨⟨hplace, hstorable⟩, hoffline⟩ := hbroken
    obtain ⟨p, hp⟩ : ∃ p, q.place = some p := Option.ne_none_iff_exists'.1 fun hnone => hplace (by rw [hnone]; rfl)
    have honline : state.offline = false := by simpa using hoffline
    obtain ⟨c', hc'⟩ := exists_onResult hp (by simpa [honline] using hstorable) c
    simp [honline, hc']

theorem read_eq {r : Request} {q : Query} {p : Place} (hq : state.cached? r = some q) (hp : q.place = some p) (c : Cache) :
    state.readThrough.read r c = c.at p := by
  simp [AppState.readThrough, hq, lookup_eq, hp]

theorem read_without_place {r : Request} {q : Query} (hq : state.cached? r = some q) (hp : q.place = none) (c : Cache) :
    state.readThrough.read r c = none := by
  simp [AppState.readThrough, hq, lookup_eq, hp]

omit [Lowercase] in
theorem at_empty (p : Place) : ({} : Cache).at p = none := by
  cases p <;> rfl

theorem read_empty (r : Request) : state.readThrough.read r {} = none := by
  cases hq : state.cached? r with
  | none => simp [AppState.readThrough, hq]
  | some q =>
    cases hp : q.place with
    | none => exact read_without_place hq hp {}
    | some p => rw [read_eq hq hp, at_empty]

omit [Serde] in
/-- A request for a block looks at a hash or at a number. -/
theorem links_place {q : Query} {v : Value} {names : String × String} (h : q.links v = some names) :
    ∃ p, q.place = some p ∧ ((∃ hash, p = .block hash) ∨ ∃ number, p = .number number) := by
  cases q with
  | blockByHash hash => exact ⟨_, rfl, .inl ⟨_, rfl⟩⟩
  | blockByNumber number => exact ⟨_, rfl, .inr ⟨_, rfl⟩⟩
  | _ => cases h

/-- The first block in a cache is the only one there is to find. -/
theorem at_first {q : Query} {v w : Value} {p : Place} {hash number : String}
    (hv : Serde.fromStr (Serde.toString v) = some v) (hlinks : q.links v = some (hash, number))
    (hp : (∃ hash, p = .block hash) ∨ ∃ number, p = .number number) (hc : q.onResult v {} = some c) (hw : c.at p = some w) :
    w = v := by
  have hleaves := leaves_of_links hlinks
  have hat := at_leaves hv hc hleaves
  have hblock : ∀ hash', c.at (.block hash') = some w → w = v := by
    intro hash' hw
    by_cases hhash : hash' = hash
    · rw [hhash, hat] at hw
      exact (Option.some.inj hw).symm
    · have hother : ∀ w', q.leaves v ≠ some (.block hash', w') := fun w' hw' => by
        rw [hleaves, Option.some.injEq, Prod.mk.injEq, Place.block.injEq] at hw'
        exact hhash hw'.1.symm
      rw [at_other (fun _ h => by cases h) hc hother, at_empty] at hw
      cases hw
  rcases hp with ⟨hash', rfl⟩ | ⟨number', rfl⟩
  · exact hblock hash' hw
  · cases hlink : c.links number' with
    | none =>
      simp only [Cache.at, hlink] at hw
      cases hw
    | some hash' =>
      rw [at_number hlink] at hw
      exact hblock hash' hw

/-- Where no cache that requests of `S` reach answers otherwise than the upstream, whatever
    they may leave at a place is found there in one of these caches. -/
theorem exists_reach (hsurvives : Survives state S) (hfetch : ∀ r ∈ S, state.readThrough.fetch r = state.result r)
    (hagrees : ∀ c, state.readThrough.Reach S {} c → state.readThrough.Agrees S c) {p : Place} {w : Value}
    (h : Leaves state S p w) : ∃ c, state.readThrough.Reach S {} c ∧ c.at p = some w := by
  cases h with
  | @entry r q v w p hr hq hkept hleaves =>
    refine ⟨_, ReadThrough.Reach.start.fill hr (read_empty r), ?_⟩
    exact at_leaves (hsurvives r hr v hkept) (fill_kept hfetch hr hq hkept {}) hleaves
  | @linked r q v w hash number hr hq hkept hlinks hblock =>
    cases hblock with
    | @entry r' q' v' _ _ hr' hq' hkept' hleaves' =>
      obtain ⟨rfl, number', hlinks'⟩ := leaves_block hleaves'
      have hreach : state.readThrough.Reach S {} (state.readThrough.fill r {}) :=
        ReadThrough.Reach.start.fill hr (read_empty r)
      obtain ⟨c, hc⟩ : ∃ c, c = state.readThrough.fill r {} := ⟨_, rfl⟩
      have hput : q.onResult v {} = some c := hc ▸ fill_kept hfetch hr hq hkept {}
      rw [← hc] at hreach
      have hlink : c.links = (({} : Cache).links.insert number hash) := by rw [links_onResult hput, hlinks]
      have hat : c.at (.block hash) = some v := at_leaves (hsurvives r hr v hkept) hput (leaves_of_links hlinks)
      cases hread : state.readThrough.read r' c with
      | none =>
        refine ⟨_, hreach.fill hr' hread, ?_⟩
        have hput' := fill_kept hfetch hr' hq' hkept' c
        have hlink' : (state.readThrough.fill r' c).links number = some hash := by
          rw [links_onResult hput', hlinks']
          by_cases hnumber : number = number'
          · rw [hnumber]
            exact insert_self ..
          · simp only
            rw [insert_ne hnumber, hlink]
            exact insert_self ..
        rw [at_number hlink']
        exact at_leaves (hsurvives r' hr' w hkept') hput' hleaves'
      | some a =>
        -- the second request was answered with the first one's block, so both have the same
        have hsame := hagrees c hreach r' hr' a hread
        rw [hfetch r' hr', AppState.result_of_kept hkept'] at hsame
        cases hsame
        obtain ⟨p, hp, hplace⟩ := links_place hlinks'
        rw [read_eq hq' hp] at hread
        obtain rfl := at_first (hsurvives r hr v hkept) hlinks hplace hput hread
        refine ⟨c, hreach, ?_⟩
        have hlink' : c.links number = some hash := by
          rw [hlink]
          exact insert_self ..
        rw [at_number hlink']
        exact hat

/-- All runs of requests of `S` get the upstream's results if and only if `S` is coherent. -/
theorem caching_transparent (hsurvives : Survives state S) :
    (∀ run, (∀ r ∈ run, r ∈ S) → Transparent state run) ↔ Coherent state S := by
  have hcompare : (∀ r ∈ S, state.readThrough.fetch r = state.result r) → ∀ run, (∀ r ∈ run, r ∈ S) →
      (Transparent state run ↔ state.readThrough.Transparent run {}) := by
    intro hfetch run hrun
    unfold Transparent ReadThrough.Transparent
    rw [serve_eq, List.map_congr_left fun r hr => (hfetch r (hrun r hr)).symm]
  constructor
  · intro h
    have hfetch : ∀ r ∈ S, state.readThrough.fetch r = state.result r := by
      intro r hr
      have hsingle := h [r] fun r' hr' => by rwa [List.mem_singleton.1 hr']
      unfold Transparent at hsingle
      rw [serve_eq, ReadThrough.answers, ReadThrough.serve_miss (read_empty r)] at hsingle
      exact (List.cons.inj hsingle).1
    have hagrees := ReadThrough.transparent_iff.1 fun run hrun => (hcompare hfetch run hrun).1 (h run hrun)
    refine ⟨fun r hr q hq p hp w hw => ?_, fun r hr hbroken => ?_, fun hoffline r hr q hq => ?_⟩
    · obtain ⟨c, hreach, hat⟩ := exists_reach hsurvives hfetch hagrees hw
      rw [← hfetch r hr]
      exact hagrees c hreach r hr w ((read_eq hq hp c).trans hat)
    · rw [← hfetch r hr]
      simp [AppState.readThrough, hbroken]
    · rw [← hfetch r hr]
      simp [AppState.readThrough, hoffline, hq]
  · intro h
    have hfetch : ∀ r ∈ S, state.readThrough.fetch r = state.result r := by
      intro r hr
      unfold AppState.readThrough
      simp only
      split
      · next hc =>
        rcases hc with hbroken | ⟨hoffline, hcached⟩
        · exact (h.broken r hr hbroken).symm
        · obtain ⟨q, hq⟩ := Option.isSome_iff_exists.1 hcached
          exact (h.online hoffline r hr q hq).symm
      · rfl
    have hagrees : ∀ c, state.readThrough.Reach S {} c → state.readThrough.Agrees S c := by
      intro c hreach r hr w hw
      cases hq : state.cached? r with
      | none => simp [AppState.readThrough, hq] at hw
      | some q =>
        cases hp : q.place with
        | none =>
          rw [read_without_place hq hp] at hw
          cases hw
        | some p =>
          rw [read_eq hq hp] at hw
          rw [hfetch r hr]
          exact h.entries r hr q hq p hp w ((filled_of_reach hsurvives hreach).at hw)
    exact fun run hrun => (hcompare hfetch run hrun).2 (ReadThrough.transparent_iff.2 hagrees run hrun)

end

end

namespace Chain

/-- `serde_json`, as far as the concrete runs reach it. -/
scoped instance serde : Serde where
  toString
    | .string s => "\"" ++ s ++ "\""
    | _ => "null"
  fromStr s := if s = "\"0x\"" then some (.string "0x") else none

/-- `str::to_lowercase`, as the concrete runs see it. -/
scoped instance lowercase : Lowercase where
  toLowercase s := s.map Char.toLower
  ascii _ _ := rfl

/-- Nodes that have code for every account from block 2 on. -/
def upstream : Upstream where
  single _ params :=
    .ok { result := some (.string (if (params.asArray.bind (·[1]?)).bind Value.asStr = some "0x1" then "0x" else "0x60")) }
  other _ := .error ""

def codeAt (block : String) : Request :=
  { method := "eth_getCode"
    params := .array [.string "0x00000000000000000000000000000000000000aa", .string block]
    id := .number "1" }

def state : AppState := { upstream }

theorem cached_code : ∀ r ∈ ({codeAt "0x1"} : Set Request),
    state.cached? r = some (.code "0x00000000000000000000000000000000000000aa" "0x1") ∧
      state.kept r = some (.string "0x") := by
  rintro r rfl
  exact ⟨rfl, rfl⟩

theorem survives_code : Survives state {codeAt "0x1"} := by
  intro r hr v hv
  rw [(cached_code r hr).2, Option.some.injEq] at hv
  subst hv
  rfl

/-- Asked for at one block only, the code is coherent. -/
theorem coherent_code : Coherent state {codeAt "0x1"} := by
  have hleft : ∀ p w, Leaves state {codeAt "0x1"} p w → w = .string "0x" := by
    intro p w hw
    induction hw with
    | entry hr hq hkept hleaves =>
      rw [(cached_code _ hr).1, Option.some.injEq] at hq
      rw [(cached_code _ hr).2, Option.some.injEq] at hkept
      subst hq hkept
      exact (Prod.mk.inj (Option.some.inj hleaves)).2.symm
    | linked _ _ _ _ _ ih => exact ih
  refine ⟨fun r hr q _ p _ w hw => ?_, fun r hr hbroken => ?_, fun hoffline => absurd hoffline (by decide)⟩
  · rw [AppState.result_of_kept (cached_code r hr).2, hleft _ w hw]
  · obtain rfl := hr
    exact absurd hbroken (by decide)

end Chain

open Chain in
/-- Asked again at the same block, the code is the upstream's. -/
theorem caching_transparent_code : Transparent state [codeAt "0x1", codeAt "0x1"] :=
  (caching_transparent survives_code).2 coherent_code _ (by simp)

open Chain in
/-- The code at block 2 is the code that was asked for at block 1. -/
theorem caching_transparent_fails : ¬Transparent state [codeAt "0x1", codeAt "0x2"] := by
  intro h
  have hsecond : (((serve state [codeAt "0x1", codeAt "0x2"] {}).map (·.bind Response.result))[1]?.join.bind Value.asStr) =
      some "0x60" := by
    rw [h]
    decide
  exact absurd hsecond (by decide)

end Solenoid.Proxy
