/-
  Solenoid.Proxy.Client — `Ext` reading its chain through the proxy.

  The client pins a block by an object, which the proxy does not take for a block: what it
  asks about accounts and slots goes to the upstream, whatever the cache has, and leaves
  nothing in it. Only the headers it asks for by number are cached.
  - `remote_behind_proxy`: for an upstream whose headers are coherent with whatever else is
    asked at the same time, what `Ext` reads through the proxy is what it would read from
    the upstream.
-/
import Solenoid.Eth
import Solenoid.Proxy.Concurrency

namespace Solenoid.Proxy

open Eth

section

variable [Serde] [Lowercase] (state : AppState)

/-- The client's URL is the proxy's. A handler that panics closes the connection. -/
def throughProxy (c : Cache) : Http := fun body =>
  match (handleJsonrpc state body c).1 with
  | some response => .ok response
  | none => .error "connection closed before message completed"

omit [Serde] [Lowercase] in
/-- The client's URL is the upstream's. -/
def direct : Http := fun body => (forward state body).map (⟨200, ·⟩)

/-- A response has a result or an error, which is an object. -/
def Upstream.Proper (upstream : Upstream) : Prop :=
  ∀ method params reply, upstream.single method params = .ok reply →
    (∃ v, reply = { result := some v }) ∨ ∃ fields, reply = { error := some (.object fields) }

/-- A body of the client as the proxy takes it. -/
def clientRequest (method : String) (params : List Value) : Request := ⟨method, .array params, .number "0"⟩

/-- What the client asks for a header. -/
def headerRequest (number : Word) : Request :=
  clientRequest "eth_getBlockByNumber" [.string (wordText number), .bool true]

variable {state} {c : Cache} {method : String} {params : List Value}

theorem handle_request (method : String) (params : List Value) (c : Cache) :
    handleJsonrpc state (request method params) c = handleJsonrpc state (clientRequest method params).body c := rfl

omit [Serde] [Lowercase] in
theorem direct_request (method : String) (params : List Value) : direct state (request method params) =
    ((state.upstream.single method (.array params)).map (·.toBody (.number "0"))).map (⟨200, ·⟩) := rfl

/-! ## What is not cached -/

/-- A response that is the upstream's reads the same; a failed request is another failure. -/
theorem read_forwarded {α : Type} {body : Value} {read : Value → Except EthError α}
    (h : throughProxy state c body = .ok (forwardAndRespond state body)) :
    (do read (← rpc (throughProxy state c) body) : Except EthError α).toOption =
      (do read (← rpc (direct state) body) : Except EthError α).toOption := by
  unfold rpc
  rw [h, forwardAndRespond, direct]
  cases forward state body <;> rfl

/-- What goes past the cache leaves nothing in it. -/
theorem handle_uncached (hcached : state.cached? (clientRequest method params) = none) :
    handleJsonrpc state (request method params) c = (some (forwardAndRespond state (request method params)), c) := by
  rw [handle_request, AppState.handle_body, hcached]
  rfl

theorem read_uncached {α : Type} {read : Value → Except EthError α}
    (hcached : state.cached? (clientRequest method params) = none) :
    (do read (← rpc (throughProxy state c) (request method params)) : Except EthError α).toOption =
      (do read (← rpc (direct state) (request method params)) : Except EthError α).toOption :=
  read_forwarded (by rw [throughProxy, handle_uncached hcached])

omit [Serde] [Lowercase] in
/-- A block that is given by an object is no cached query. -/
theorem cached_pinned {blockHash s t : String} :
    state.cached? (clientRequest "eth_getBalance" [.string s, atBlock blockHash]) = none ∧
      state.cached? (clientRequest "eth_getTransactionCount" [.string s, atBlock blockHash]) = none ∧
      state.cached? (clientRequest "eth_getCode" [.string s, atBlock blockHash]) = none ∧
      state.cached? (clientRequest "eth_getStorageAt" [.string s, .string t, atBlock blockHash]) = none := by
  refine ⟨?_, ?_, ?_, ?_⟩ <;> exact ite_eq_right_iff.2 fun _ => rfl

/-! ## What is cached -/

variable {S : Set Request}

omit [Serde] [Lowercase] in
theorem rpc_of_result {v : Value} (hproper : state.upstream.Proper)
    (hresult : state.result (clientRequest method params) = some v) : rpc (direct state)
    (request method params) = .ok v := by
  rw [rpc, direct_request]
  unfold AppState.result at hresult
  cases hsingle : state.upstream.single method (.array params) with
  | error why => simp [clientRequest, hsingle] at hresult
  | ok reply =>
    simp only [clientRequest, hsingle] at hresult
    rcases hproper _ _ _ hsingle with ⟨v', rfl⟩ | ⟨fields, rfl⟩
    · cases hresult
      rfl
    · cases hresult

omit [Serde] [Lowercase] in
theorem rpc_of_no_result (hproper : state.upstream.Proper) (hresult : state.result (clientRequest method params) = none) :
    ∃ e, rpc (direct state) (request method params) = .error e := by
  rw [rpc, direct_request]
  unfold AppState.result at hresult
  cases hsingle : state.upstream.single method (.array params) with
  | error why => exact ⟨_, rfl⟩
  | ok reply =>
    simp only [clientRequest, hsingle] at hresult
    rcases hproper _ _ _ hsingle with ⟨v', rfl⟩ | ⟨fields, rfl⟩
    · cases hresult
    · exact ⟨_, rfl⟩

omit [Serde] [Lowercase] in
/-- A header is asked for by its number. -/
theorem cached_header {number : Word} {q : Query} (h : state.cached? (headerRequest number) = some q) :
    q = .blockByNumber (wordText number) := by
  unfold AppState.cached? at h
  split at h
  · exact (Option.some.inj h).symm
  · cases h

/-- A header is the upstream's, from the cache or past it. -/
theorem read_header (hsurvives : Survives state S) (hcoherent : Coherent state S) (hproper : state.upstream.Proper)
    {u : Interleaving.Server Request (Option Response) Write Cache} (hreach : state.interleaving.Reach S {} u)
    {number : Word}
    (hmem : headerRequest number ∈ S) {headerHash : Value → Option Word} :
    (getBlockHeader (throughProxy state u.store) headerHash number).toOption =
      (getBlockHeader (direct state) headerHash number).toOption := by
  have hread : ∀ {http : Http} {v : Value}, rpc http (blockRequest (.string (wordText number)) true) = .ok v →
      (getBlockHeader http headerHash number).toOption = headerHash v := by
    intro http v h
    unfold getBlockHeader
    simp only [h, bind, Except.bind]
    cases headerHash v <;> rfl
  have hfails : ∀ {http : Http} {e : EthError}, rpc http (blockRequest (.string (wordText number)) true) = .error e →
      (getBlockHeader http headerHash number).toOption = none := by
    intro http e h
    unfold getBlockHeader
    rw [h]
    rfl
  cases hq : state.cached? (headerRequest number) with
  | none => exact read_uncached hq
  | some q =>
    obtain rfl := cached_header hq
    have hhandle : ∀ {response : Response}, (handleJsonrpc state (headerRequest number).body u.store).1 = some response →
        throughProxy state u.store (blockRequest (.string (wordText number)) true) = .ok response := by
      intro response h
      have hbody : (handleJsonrpc state (blockRequest (.string (wordText number)) true) u.store).1 = some response := h
      rw [throughProxy, hbody]
    obtain ⟨p, hp⟩ : ∃ p, (Query.blockByNumber (wordText number)).place = some p := ⟨_, rfl⟩
    rw [AppState.handle_body, hq] at hhandle
    dsimp only at hhandle
    rw [lookup_eq, hp, Option.map_some] at hhandle
    cases hat : u.store.at p with
    | some w =>
      have hresult := hcoherent.entries _ hmem _ hq p hp w ((filled_of_server hsurvives hreach).at hat)
      rw [hat] at hhandle
      have hproxy : rpc (throughProxy state u.store) (blockRequest (.string (wordText number)) true) = .ok w := by
        rw [rpc, hhandle rfl]
        rfl
      rw [hread hproxy, hread (rpc_of_result hproper hresult)]
    | none =>
      rw [hat] at hhandle
      by_cases hoffline : state.offline = true
      · obtain ⟨e, he⟩ := rpc_of_no_result hproper (hcoherent.online hoffline _ hmem _ hq)
        have hproxy : ∃ e, rpc (throughProxy state u.store) (blockRequest (.string (wordText number)) true) = .error e := by
          refine ⟨.rpc (.object [("code", .number "-32001"), ("message", .string "Server running in offline mode")]), ?_⟩
          simp only [cacheMissAndForward, hoffline, if_true] at hhandle
          rw [rpc, hhandle rfl]
          rfl
        obtain ⟨e', he'⟩ := hproxy
        rw [hfails he, hfails he']
      · -- a miss gives what the upstream gives
        have hproxy : throughProxy state u.store (blockRequest (.string (wordText number)) true) =
            .ok (forwardAndRespond state (blockRequest (.string (wordText number)) true)) := by
          refine hhandle ?_
          have hforward : forward state (headerRequest number).body =
              forward state (blockRequest (.string (wordText number)) true) := rfl
          rw [forwardAndRespond]
          simp only [cacheMissAndForward, hoffline, hforward]
          cases forward state (blockRequest (.string (wordText number)) true) with
          | error err => rfl
          | ok resp =>
            cases herror : resp.get "error" <;> cases hfound : resp.get "result" <;> simp [herror, hfound, Query.onResult]
        exact read_forwarded hproxy

/-- Behind the proxy `Ext` reads its chain as without it: balances, nonces, code and slots
    whatever is cached, and block hashes for any requests that are coherent with those for the
    headers, however they are interleaved. -/
theorem remote_behind_proxy (hsurvives : Survives state S) (hcoherent : Coherent state S) (hproper : state.upstream.Proper)
    (hheaders : ∀ number, headerRequest number ∈ S) {u : Interleaving.Server Request (Option Response) Write Cache}
    (hreach : state.interleaving.Reach S {} u) (headerHash : Value → Option Word) (blockHash : String) :
    remote (throughProxy state u.store) headerHash blockHash = remote (direct state) headerHash blockHash := by
  unfold remote
  congr 1
  · exact funext fun addr => read_uncached (cached_pinned (t := "")).1
  · exact funext fun addr => read_uncached (cached_pinned (t := "")).2.1
  · exact funext fun addr => read_uncached (cached_pinned (t := "")).2.2.1
  · exact funext fun addr => funext fun key => read_uncached cached_pinned.2.2.2
  · exact funext fun number => read_header hsurvives hcoherent hproper hreach (hheaders number)

end

namespace Headers

/-- A block that has its number for a hash. -/
def blockOf (s : String) : Value := .object [("hash", .string s), ("number", .string s)]

/-- `serde_json`, as far as it concerns such blocks. -/
scoped instance serde : Serde where
  toString v := ((v.get "number").bind Value.asStr).getD ""
  fromStr s := some (blockOf s)

scoped instance lowercase : Lowercase := Chain.lowercase

def upstream : Upstream where
  single _ params := .ok { result := some (blockOf (((params.asArray.bind (·[0]?)).bind Value.asStr).getD "")) }
  other _ := .error ""

def state : AppState := { upstream }

theorem kept_header (number : Word) : state.kept (headerRequest number) = some (blockOf (wordText number)) := rfl

theorem normalizeHex_wordText (number : Word) : normalizeHex (wordText number) = .ofList (lowerHex number) := by
  obtain ⟨hall, -, -, -, -⟩ := lowerHex_digits number
  have hlower : ∀ c ∈ lowerHex number, c.toLower = c := by
    intro c hc
    have hdigit : c = '0' ∨ c ∈ hexEncode number.intoBytes := by
      unfold lowerHex at hc
      dsimp only at hc
      split at hc
      · exact .inl (List.mem_singleton.1 hc)
      · exact .inr ((List.dropWhile_sublist _).subset hc)
    have hall : ∀ k < 16, (hexDigit (UInt8.ofNat k)).toLower = hexDigit (UInt8.ofNat k) := by decide
    have hof : ∀ {k : UInt8}, k < 16 → (hexDigit k).toLower = hexDigit k := fun {k} hk => by
      have h := hall k.toNat hk
      rwa [UInt8.ofNat_toNat] at h
    rcases hdigit with rfl | hc
    · rfl
    · obtain ⟨byte, -, hc⟩ := List.mem_flatMap.1 hc
      rcases List.mem_cons.1 hc with rfl | hc
      · exact hof (high_lt byte)
      · obtain rfl := List.mem_singleton.1 hc
        exact hof (low_lt byte)
  have hclean : clean (wordText number) = lowerHex number := by
    rw [clean, wordText, toList_prefixed, trimStart0x, trimStart0x_digits hall]
  have hlowered : (lowerHex number).map Char.toLower = lowerHex number := by
    rw [List.map_congr_left hlower, List.map_id']
  rw [normalizeHex, hclean]
  exact congrArg _ hlowered

/-- A block is left under its number only. -/
theorem leaves_header {p : Place} {w : Value} (h : Leaves state (Set.range headerRequest) p w) :
    ∃ number, w = blockOf (wordText number) ∧
      (p = .block (normalizeHex (wordText number)) ∨ p = .number (normalizeHex (wordText number))) := by
  induction h with
  | entry hr hq hkept hleaves =>
    obtain ⟨number, rfl⟩ := hr
    obtain rfl := cached_header hq
    rw [kept_header, Option.some.injEq] at hkept
    subst hkept
    cases hleaves
    exact ⟨number, rfl, .inl rfl⟩
  | @linked r q v w hash name hr hq hkept hlinks _ ih =>
    obtain ⟨number, rfl⟩ := hr
    obtain rfl := cached_header hq
    rw [kept_header, Option.some.injEq] at hkept
    subst hkept
    have hlinks : some (normalizeHex (wordText number), normalizeHex (wordText number)) = some (hash, name) := hlinks
    rw [Option.some.injEq, Prod.mk.injEq] at hlinks
    obtain ⟨rfl, rfl⟩ := hlinks
    obtain ⟨number', rfl, hp | hp⟩ := ih
    · exact ⟨number', rfl, .inr (by rw [Place.block.inj hp])⟩
    · cases hp

theorem coherent_headers : Coherent state (Set.range headerRequest) := by
  refine ⟨?_, ?_, fun hoffline => absurd hoffline (by decide)⟩
  · rintro _ ⟨number, rfl⟩ q hq p hp w hw
    obtain rfl := cached_header hq
    cases hp
    obtain ⟨number', rfl, hp | hp⟩ := leaves_header hw
    · cases hp
    · have hsame := Place.number.inj hp
      rw [normalizeHex_wordText, normalizeHex_wordText] at hsame
      rw [AppState.result_of_kept (kept_header number), wordText, wordText, String.ofList_injective hsame]
  · rintro _ ⟨number, rfl⟩ hbroken
    unfold AppState.breaks at hbroken
    cases hq : state.cached? (headerRequest number) with
    | none => simp [hq] at hbroken
    | some q =>
      obtain rfl := cached_header hq
      simp [hq, Query.place, Query.storable] at hbroken

theorem survives_headers : Survives state (Set.range headerRequest) := by
  rintro _ ⟨number, rfl⟩ v hv
  rw [kept_header, Option.some.injEq] at hv
  subst hv
  rfl

end Headers

open Headers in
/-- With the header of block 1 in the cache. -/
theorem remote_behind_proxy_cached : ∃ u, state.interleaving.Reach (Set.range headerRequest) {} u ∧
    u.store = state.readThrough.fill (headerRequest 1) {} ∧
    remote (throughProxy state u.store) (fun _ => some 1) "0xab" = remote (direct state) (fun _ => some 1) "0xab" := by
  have hone : headerRequest 1 ∈ Set.range headerRequest := ⟨1, rfl⟩
  obtain ⟨u, hreach, hstore, -⟩ := Interleaving.Reach.start.alone hone (AppState.storeAll_fill (headerRequest 1) {})
  refine ⟨u, hreach, hstore, remote_behind_proxy survives_headers coherent_headers ?_ (fun number =>
    ⟨number, rfl⟩) hreach _ _⟩
  intro method params reply hreply
  cases hreply
  exact .inl ⟨_, rfl⟩

end Solenoid.Proxy
