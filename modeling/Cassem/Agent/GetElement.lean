import Cassem.Agent.Cache
import Cassem.Coord.Read

/-!
# Reading elements through the agent

`GetElement` serves from the cache what it has and reads the rest from the store. The HTTP
front end asks for one key at a time and looks at the answer once more.
-/

namespace Cassem.Agent

open Cassem.Concept Cassem.Coord

/-! ## Access -/

structure TokenTarget where
  App : String
  Env : String
  deriving DecidableEq, Repr

def tokenChar (c : Char) : Bool := c.isAlphanum || "-._~+/=".toList.contains c

/-- The token in the values of the `authorization` header. -/
def bearerToken (values : List String) : Except GoError String :=
  match values with
  | [value] =>
      -- the scheme is what comes before the first space, the token what comes after it
      match value.toList.dropWhile (· ≠ ' ') with
      | [] => .error (.concept Err_UNAUTHENTICATED)
      | _ :: token =>
          let scheme := value.toList.takeWhile (· ≠ ' ')
          if scheme.map Char.toLower = "bearer".toList ∧ token ≠ [] ∧ token.all tokenChar = true then
            .ok (String.ofList token)
          else .error (.concept Err_UNAUTHENTICATED)
  | _ => .error (.concept Err_UNAUTHENTICATED)

structure GetElementReq where
  App : String
  Env : String
  Keys : List String
  deriving DecidableEq, Repr

/-- What an agent is set up with: the authorizer of tokens, if there is one, and the texts
in which violations of the rules for requests are reported. -/
structure AgentApp where
  authorizer : Option (String → List TokenTarget → Option GoError)
  violation : GetElementReq → String

def AgentApp.authorize (d : AgentApp) (authorization : List String) (targets : List TokenTarget) :
    Option GoError :=
  match bearerToken authorization with
  | .error err => some err
  | .ok token =>
      match d.authorizer with
      | none => some (.concept Err_UNAUTHENTICATED)
      | some AuthorizeToken => AuthorizeToken token targets

/-! ## GetElement -/

/-- The rules for an app and an environment: 3 to 30 characters of an identifier. -/
def validName (name : String) : Bool :=
  3 ≤ name.length && name.length ≤ 30 && Adm.isIdentifier name

def GetElementReq.valid (req : GetElementReq) : Bool :=
  validName req.App && validName req.Env && 1 ≤ req.Keys.length && req.Keys.length ≤ 100 &&
    decide req.Keys.Nodup && req.Keys.all Adm.isIdentifier

/-- An answer, the cache that the lookups leave, and the elements that `updateCache` is then
started with. -/
structure Answer where
  resp : Except Fault (List Element)
  cache : AppPool
  refresh : List Element

def AgentApp.GetElement (d : AgentApp) (kv : KVState) (now : String → Int) (cache : AppPool)
    (authorization : List String) (req : GetElementReq) : Answer :=
  if req.valid = false then
    ⟨.error (.error (.concept ⟨.invalidArgument, d.violation req⟩)), cache, []⟩
  else
    match d.authorize authorization [⟨req.App, req.Env⟩] with
    | some err => ⟨.error (.error err), cache, []⟩
    | none =>
        let (cr, cache) := queryFromCache now cache req.App req.Env req.Keys
        if cr.miss = [] then ⟨.ok cr.elems, cache, []⟩
        else
          match getElementsByKeys kv req.App req.Env cr.miss with
          | .error fault => ⟨.error fault, cache, []⟩
          | .ok elements => ⟨.ok (cr.elems ++ elements), cache, elements⟩

/-! ## HTTP -/

/-- `GET /api/apps/{appId}/envs/{env}/elements`, with the values of the query parameter `key`
where the query can be parsed. -/
structure HTTPRequest where
  appId : String
  env : String
  key : Option (List String)
  authorization : List String

/-- A panic is answered with status 500. -/
inductive HTTPResult where
  | failure (status : Nat) (err : GoError)
  | panicked (msg : String)
  | element (elem : Element)

def errDeadlineExceeded : GoError := .text "context deadline exceeded"

def errCanceled : GoError := .text "context canceled"

def agentHTTPStatus (err : GoError) : Nat :=
  let code :=
    match err.fromError with
    | some e => e.code
    | none =>
        if err.errorsIs errDeadlineExceeded then .deadlineExceeded
        else if err.errorsIs errCanceled then .cancelled
        else .unknown
  match code with
  | .unauthenticated => 401
  | .permissionDenied => 403
  | .invalidArgument | .outOfRange | .failedPrecondition => 400
  | .notFound => 404
  | .alreadyExists | .aborted => 409
  | .resourceExhausted => 429
  | .unavailable => 503
  | .deadlineExceeded => 504
  | .cancelled => 408
  | _ => 500

def AgentApp.getElementsHTTP (d : AgentApp) (kv : KVState) (now : String → Int) (cache : AppPool)
    (r : HTTPRequest) : HTTPResult :=
  match r.key with
  | none => .failure 400 (.concept Err_INVALID_ARGUMENT)
  | some keys =>
      if keys.length ≠ 1 then
        .failure 400 (.concept ⟨.invalidArgument,
          "HTTP fetch accepts exactly one key; request each key separately"⟩)
      else
        match (d.GetElement kv now cache r.authorization ⟨r.appId, r.env, keys⟩).resp with
        | .error (.panic msg) => .panicked msg
        | .error (.error err) => .failure (agentHTTPStatus err) err
        | .ok [] =>
            .failure 404 (.concept ⟨.notFound, "configuration key not found or unpublished"⟩)
        | .ok [elem] =>
            if elem.Published = true then .element elem
            else .failure 404 (.concept ⟨.notFound, "configuration key not found or unpublished"⟩)
        | .ok _ =>
            .failure 500 (.errorf "HTTP fetch returned multiple elements for one key: "
              (.concept Err_INTERNAL))

def elementHTTPContentType (elem : Element) : String :=
  match (elem.Metadata.map (·.ContentType)).getD 0 with
  | 1 => "application/json"
  | 2 => "application/toml"
  | 3 | 4 => "text/plain; charset=utf-8"
  | _ => "application/octet-stream"

/-- The headers of the answer; the body is the raw value of the element. -/
def HTTPResult.header : HTTPResult → List (String × String)
  | .failure status _ =>
      ("Cache-Control", "no-store") :: if status = 401 then [("WWW-Authenticate", "Bearer")] else []
  | .panicked _ => [("Cache-Control", "no-store")]
  | .element elem =>
      [("Cache-Control", "no-store"), ("Content-Type", elementHTTPContentType elem),
        ("Content-Disposition", "inline"), ("X-CASSEM-Key", metadataKeyOf elem),
        ("X-CASSEM-Version", toString elem.Version),
        ("X-CASSEM-Published", if elem.Published then "true" else "false")]

/-! ## Requests and their answers -/

inductive ReadRequest where
  | grpc (authorization : List String) (req : GetElementReq)
  | http (r : HTTPRequest)

def ReadRequest.target : ReadRequest → TokenTarget
  | .grpc _ req => ⟨req.App, req.Env⟩
  | .http r => ⟨r.appId, r.env⟩

/-- The elements that a caller is given. -/
def AgentApp.returned (d : AgentApp) (kv : KVState) (now : String → Int) (cache : AppPool) :
    ReadRequest → List Element
  | .grpc authorization req =>
      match (d.GetElement kv now cache authorization req).resp with
      | .ok elems => elems
      | .error _ => []
  | .http r =>
      match d.getElementsHTTP kv now cache r with
      | .element elem => [elem]
      | _ => []

/-! ## What the cache was filled from -/

/-- The element is a version of app/env/key that the store has. -/
def VersionOf (kv : KVState) (app env key : String) (elem : Element) : Prop :=
  ∃ ele, kv (versionKey (joint ["cassem/elements", app, env, key]) elem.Version) =
    some (.element ele) ∧ elem = { ele with Metadata := elem.Metadata }

/-- The caches that lookups and the updates after reads make of an empty one, with the stores
that elements were read from. -/
inductive Filled (d : AgentApp) (md5 : KV.Bytes → String) (size : Nat) : List KVState → AppPool → Prop
  | new {cache : AppPool} (h : NewCache size = some cache) : Filled d md5 size [] cache
  | query {kvs : List KVState} {cache : AppPool} (h : Filled d md5 size kvs cache) (now : Int)
      (app env key : String) : Filled d md5 size kvs (cache.Query now app env key).2
  | update {kvs : List KVState} {cache cache' asked : AppPool} (h : Filled d md5 size kvs cache)
      {kv : KVState} (hkv : Reachable md5 kv) {clock : String → Int} {authorization : List String}
      {req : GetElementReq} {elem : Element}
      (helem : elem ∈ (d.GetElement kv clock asked authorization req).refresh) (now : Int)
      (hset : cache.Set now req.App req.Env (metadataKeyOf elem) elem = some cache') :
      Filled d md5 size (kv :: kvs) cache'

/-! ## Published versions only -/

section Published

variable {d : AgentApp} {md5 : KV.Bytes → String} {kv : KVState} {now : String → Int} {cache : AppPool}
  {authorization : List String} {req : GetElementReq}

structure GetElementReq.Valid (req : GetElementReq) : Prop where
  app : Adm.isIdentifier req.App = true
  env : Adm.isIdentifier req.Env = true
  keys : ∀ key ∈ req.Keys, Adm.isIdentifier key = true

theorem GetElementReq.valid_iff (h : req.valid = true) : req.Valid := by
  unfold GetElementReq.valid validName at h
  simp only [Bool.and_eq_true, List.all_eq_true] at h
  exact ⟨h.1.1.1.1.1.2, h.1.1.1.1.2.2, h.2⟩

/-- The key of an element of the app and the environment that the request names. -/
def GetElementReq.elementKey (req : GetElementReq) (key : String) : String :=
  joint ["cassem/elements", req.App, req.Env, key]

/-- The request is neither refused nor denied. -/
structure AgentApp.Admits (d : AgentApp) (authorization : List String) (req : GetElementReq) : Prop where
  valid : req.valid = true
  authorized : d.authorize authorization [⟨req.App, req.Env⟩] = none

/-- The copy that the cache has of an element. -/
def copyOf (cache : AppPool) (now : String → Int) (req : GetElementReq) (key : String) :
    Option Element := (cache.Query (now key) req.App req.Env key).1

/-- What a request that is admitted is answered: the copies, and what the store shows of the
other keys. -/
theorem GetElement_resp (hkv : Reachable md5 kv) (h : d.Admits authorization req) :
    (d.GetElement kv now cache authorization req).resp =
      .ok (req.Keys.filterMap (copyOf cache now req) ++
        (req.Keys.filter fun key => (copyOf cache now req key).isNone).filterMap fun key =>
          shown (contentAt kv (req.elementKey key))) := by
  have hvalid := GetElementReq.valid_iff h.valid
  obtain ⟨helems, hmiss⟩ := queryFromCache_spec now cache req.App req.Env req.Keys
  have hread : getElementsByKeys kv req.App req.Env
      (queryFromCache now cache req.App req.Env req.Keys).1.miss = _ :=
    getElementsByKeys_eq hkv hvalid.app hvalid.env fun key hkey =>
      hvalid.keys key (List.mem_of_mem_filter (hmiss ▸ hkey))
  unfold AgentApp.GetElement
  rw [if_neg (by rw [h.valid]; exact Bool.noConfusion), h.authorized]
  dsimp only
  rw [hread, helems, hmiss]
  split
  · next hnil =>
    have hcopies : (req.Keys.filter fun key => (copyOf cache now req key).isNone) = [] := hnil
    rw [hcopies, List.filterMap_nil, List.append_nil]
    rfl
  · rfl

/-- The elements that the cache is updated with are what the store shows of keys that the
request names. -/
theorem refresh_shown (hkv : Reachable md5 kv) {elem : Element}
    (h : elem ∈ (d.GetElement kv now cache authorization req).refresh) :
    req.Valid ∧ ∃ key ∈ req.Keys, shown (contentAt kv (req.elementKey key)) = some elem := by
  obtain ⟨-, hmiss⟩ := queryFromCache_spec now cache req.App req.Env req.Keys
  unfold AgentApp.GetElement at h
  split at h
  · exact absurd h List.not_mem_nil
  · next hvalid =>
    have hvalid := GetElementReq.valid_iff (Bool.not_eq_false _ ▸ hvalid)
    split at h
    · exact absurd h List.not_mem_nil
    · dsimp only at h
      split at h
      · exact absurd h List.not_mem_nil
      · rw [getElementsByKeys_eq hkv hvalid.app hvalid.env fun key hkey =>
          hvalid.keys key (List.mem_of_mem_filter (hmiss ▸ hkey))] at h
        obtain ⟨key, hkey, helem⟩ := List.mem_filterMap.mp h
        exact ⟨hvalid, key, List.mem_of_mem_filter (hmiss ▸ hkey), helem⟩

/-- What is shown is a version that the store has, with the metadata of its element. -/
theorem versionOf_shown (hkv : Reachable md5 kv) (hreq : req.Valid) {key : String}
    (hkey : key ∈ req.Keys) {elem : Element}
    (h : shown (contentAt kv (req.elementKey key)) = some elem) :
    VersionOf kv req.App req.Env key elem ∧ metadataKeyOf elem = key := by
  obtain ⟨hwf, hlabel⟩ := wellFormed_of_reachable hkv
    (n := nameOf hreq.app hreq.env (hreq.keys key hkey)) ⟨hreq.app, hreq.env, hreq.keys key hkey⟩
  unfold shown at h
  split at h
  · next md hmd =>
    split at h
    · next ele hele =>
      cases h
      have hcount := (hwf.numbered hmd).counted _ _ hele
      obtain ⟨ele', hele', hver⟩ := (hwf.numbered hmd).stored _ hcount.1 hcount.2
      cases hele.symm.trans hele'
      refine ⟨⟨ele, ?_, rfl⟩, (hlabel.named md hmd).2.2⟩
      show kv (versionKey _ ele.Version) = _
      rw [hver]
      exact hele
    · cases h
  · cases h

theorem filled_versions {size : Nat} {kvs : List KVState} (h : Filled d md5 size kvs cache) :
    cache.All fun app env key elem => ∃ kv ∈ kvs, VersionOf kv app env key elem := by
  induction h with
  | new h => exact .new h
  | query _ now app env key ih => exact ih.Query
  | @update kvs cache cache' asked _ kv hkv clock authorization req elem helem now hset ih =>
    obtain ⟨hreq, key, hkey, hshown⟩ := refresh_shown hkv helem
    obtain ⟨hversion, hnamed⟩ := versionOf_shown hkv hreq hkey hshown
    rw [hnamed] at hset
    refine AppPool.All.Set (ih.mono ?_) ⟨kv, List.mem_cons_self, hversion⟩ hset
    intro app env key elem ⟨kv', hmem, hof⟩
    exact ⟨kv', List.mem_cons_of_mem _ hmem, hof⟩

/-- Each element in an answer is a copy of the cache or shown by the store, under a key that
the request names. -/
theorem mem_resp (hkv : Reachable md5 kv) {elems : List Element}
    (h : (d.GetElement kv now cache authorization req).resp = .ok elems) {elem : Element}
    (helem : elem ∈ elems) :
    d.Admits authorization req ∧ ∃ key ∈ req.Keys, copyOf cache now req key = some elem ∨
      copyOf cache now req key = none ∧ shown (contentAt kv (req.elementKey key)) = some elem := by
  by_cases hadmits : d.Admits authorization req
  · cases (GetElement_resp hkv hadmits).symm.trans h
    refine ⟨hadmits, ?_⟩
    rcases List.mem_append.mp helem with hcopy | hshown
    · obtain ⟨key, hkey, hcopy⟩ := List.mem_filterMap.mp hcopy
      exact ⟨key, hkey, .inl hcopy⟩
    · obtain ⟨key, hkey, hshown⟩ := List.mem_filterMap.mp hshown
      obtain ⟨hkey, hnone⟩ := List.mem_filter.mp hkey
      exact ⟨key, hkey, .inr ⟨Option.isNone_iff_eq_none.mp hnone, hshown⟩⟩
  · unfold AgentApp.GetElement at h
    split at h
    · cases h
    · next hvalid =>
      split at h
      · cases h
      · next hauth => exact absurd ⟨Bool.not_eq_false _ ▸ hvalid, hauth⟩ hadmits

/-- Every element in an answer is a version of the store, or of one that the cache was filled
from. -/
theorem versionOf_resp {size : Nat} {kvs : List KVState} (hfilled : Filled d md5 size kvs cache)
    (hkv : Reachable md5 kv) {elems : List Element}
    (h : (d.GetElement kv now cache authorization req).resp = .ok elems) {elem : Element}
    (helem : elem ∈ elems) :
    ∃ store ∈ kv :: kvs, ∃ key, VersionOf store req.App req.Env key elem := by
  rcases mem_resp hkv h helem with ⟨hadmits, key, hkey, hcopy | ⟨-, hshown⟩⟩
  · obtain ⟨store, hmem, hof⟩ := (filled_versions hfilled).Query_found hcopy
    exact ⟨store, List.mem_cons_of_mem _ hmem, key, hof⟩
  · have hreq := GetElementReq.valid_iff hadmits.valid
    exact ⟨kv, List.mem_cons_self, key, (versionOf_shown hkv hreq hkey hshown).1⟩

theorem mem_getElementsHTTP {r : HTTPRequest} {elem : Element}
    (h : d.getElementsHTTP kv now cache r = .element elem) :
    elem.Published = true ∧ ∃ keys elems, elem ∈ elems ∧
      (d.GetElement kv now cache r.authorization ⟨r.appId, r.env, keys⟩).resp = .ok elems := by
  unfold AgentApp.getElementsHTTP at h
  split at h
  · cases h
  · next keys _ =>
    split at h
    · cases h
    · split at h
      · cases h
      · cases h
      · cases h
      · next e hresp =>
        split at h
        · next hpub =>
          cases h
          exact ⟨hpub, keys, [elem], List.mem_cons_self, hresp⟩
        · cases h
      · cases h

/-- For a request over gRPC that is admitted: the copy of each key, or what the store shows of
it where there is no copy, has been published. -/
def OnlyPublished (d : AgentApp) (kv : KVState) (now : String → Int) (cache : AppPool) :
    ReadRequest → Prop
  | .http _ => True
  | .grpc authorization req => d.Admits authorization req → ∀ key ∈ req.Keys,
      match copyOf cache now req key with
      | some elem => elem.Published = true
      | none => ShowsPublished (contentAt kv (req.elementKey key))

theorem shown_published (hkv : Reachable md5 kv) (hreq : req.Valid) {key : String}
    (hkey : key ∈ req.Keys) :
    (∀ elem, shown (contentAt kv (req.elementKey key)) = some elem → elem.Published = true) ↔
      ShowsPublished (contentAt kv (req.elementKey key)) :=
  shown_published_iff hkv (n := nameOf hreq.app hreq.env (hreq.keys key hkey))
    ⟨hreq.app, hreq.env, hreq.keys key hkey⟩

/-- What the agent returns is stored as published, whatever the cache was filled from, exactly
where the keys asked for over gRPC show nothing else. -/
theorem returned_published_iff (d : AgentApp) (md5 : KV.Bytes → String) (size : Nat)
    (kvs : List KVState) (cache : AppPool) (hfilled : Filled d md5 size kvs cache) (kv : KVState)
    (hkv : Reachable md5 kv) (now : String → Int) (r : ReadRequest) :
    (∀ elem ∈ d.returned kv now cache r, ∃ store ∈ kv :: kvs, ∃ key,
      VersionOf store r.target.App r.target.Env key elem ∧ elem.Published = true) ↔
      OnlyPublished d kv now cache r := by
  cases r with
  | http r =>
    refine iff_of_true (fun elem helem => ?_) trivial
    unfold AgentApp.returned at helem
    dsimp only at helem
    split at helem
    · next e he =>
      cases List.mem_singleton.mp helem
      obtain ⟨hpub, keys, elems, hmem, hresp⟩ := mem_getElementsHTTP he
      obtain ⟨store, hstore, key, hof⟩ := versionOf_resp hfilled hkv hresp hmem
      exact ⟨store, hstore, key, hof, hpub⟩
    · exact absurd helem List.not_mem_nil
  | grpc authorization req =>
    constructor
    · intro hall hadmits key hkey
      have hreq := GetElementReq.valid_iff hadmits.valid
      have hmem : ∀ elem, (copyOf cache now req key = some elem ∨ copyOf cache now req key = none ∧
          shown (contentAt kv (req.elementKey key)) = some elem) → elem.Published = true := by
        intro elem helem
        have hin : elem ∈ d.returned kv now cache (.grpc authorization req) := by
          unfold AgentApp.returned
          dsimp only
          rw [GetElement_resp hkv hadmits]
          refine List.mem_append.mpr ?_
          rcases helem with hcopy | ⟨hnone, hshown⟩
          · exact .inl (List.mem_filterMap.mpr ⟨key, hkey, hcopy⟩)
          · exact .inr (List.mem_filterMap.mpr ⟨key,
              List.mem_filter.mpr ⟨hkey, Option.isNone_iff_eq_none.mpr hnone⟩, hshown⟩)
        obtain ⟨-, -, -, -, hpub⟩ := hall elem hin
        exact hpub
      split
      · next elem hcopy => exact hmem elem (.inl hcopy)
      · next hnone =>
        exact (shown_published hkv hreq hkey).mp fun elem hshown => hmem elem (.inr ⟨hnone, hshown⟩)
    · intro honly elem helem
      unfold AgentApp.returned at helem
      dsimp only at helem
      split at helem
      · next elems hresp =>
        obtain ⟨store, hstore, key, hof⟩ := versionOf_resp hfilled hkv hresp helem
        refine ⟨store, hstore, key, hof, ?_⟩
        obtain ⟨hadmits, key, hkey, hfound⟩ := mem_resp hkv hresp helem
        have hpub := honly hadmits key hkey
        rcases hfound with hcopy | ⟨hnone, hshown⟩
        · rw [hcopy] at hpub
          exact hpub
        · rw [hnone] at hpub
          exact (shown_published hkv (GetElementReq.valid_iff hadmits.valid) hkey).mpr hpub elem hshown
      · exact absurd helem List.not_mem_nil

end Published

def openAgent : AgentApp := ⟨some fun _ _ => none, fun _ => "invalid request"⟩

def coldCache : AppPool := ⟨fun _ _ _ => none, ⟨2, 2000, [], 1000, []⟩⟩

/-- The element `demo/prod/config`, created and never published. -/
def draftStore : KVState :=
  (Lib.Program.run serveKV (fun _ => none) (Call.program (fun _ => "") "demo" "prod" "config"
    ⟨.create [1] 1, none, 3⟩)).1

theorem draftStore_reachable : Reachable (fun _ => "") draftStore :=
  .call .empty (n := ⟨"demo", "prod", "config", by decide⟩) (by decide) ⟨.create [1] 1, none, 3⟩

theorem coldCache_filled : Filled openAgent (fun _ => "") 1000 [] coldCache := .new rfl

theorem draftStore_returned_iff :
    (∀ elem ∈ openAgent.returned draftStore (fun _ => 0) coldCache
        (.grpc ["Bearer t"] ⟨"demo", "prod", ["config"]⟩),
      ∃ store ∈ [draftStore], ∃ key, VersionOf store "demo" "prod" key elem ∧
        elem.Published = true) ↔
      OnlyPublished openAgent draftStore (fun _ => 0) coldCache
        (.grpc ["Bearer t"] ⟨"demo", "prod", ["config"]⟩) :=
  returned_published_iff openAgent (fun _ => "") 1000 [] coldCache coldCache_filled draftStore
    draftStore_reachable (fun _ => 0) (.grpc ["Bearer t"] ⟨"demo", "prod", ["config"]⟩)

theorem draft_returned :
    Reachable (fun _ => "") draftStore ∧ Filled openAgent (fun _ => "") 1000 [] coldCache ∧
      ¬ ∀ elem ∈ openAgent.returned draftStore (fun _ => 0) coldCache
          (.grpc ["Bearer t"] ⟨"demo", "prod", ["config"]⟩),
        ∃ store ∈ [draftStore], ∃ key, VersionOf store "demo" "prod" key elem ∧
          elem.Published = true := by
  refine ⟨draftStore_reachable, coldCache_filled, fun hall => ?_⟩
  have hdraft : openAgent.returned draftStore (fun _ => 0) coldCache
      (.grpc ["Bearer t"] ⟨"demo", "prod", ["config"]⟩) =
        [⟨[1], 1, false, some ⟨"config", "demo", "prod", 1, 1, 0, "", 1⟩⟩] := by decide +kernel
  obtain ⟨-, -, -, -, hpub⟩ := hall _ (hdraft ▸ List.mem_cons_self)
  exact Bool.noConfusion hpub

end Cassem.Agent
