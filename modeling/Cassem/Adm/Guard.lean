import Cassem.Adm.Scope
import Cassem.Adm.Session

/-!
# The guard of the admin API

The routes that `mountAPIRoute` mounts are listed in one place, what has to be enforced on them
in `defMapping`. A route that the second list lacks is served to everyone.
-/

namespace Cassem.Adm

open Lib Cassem.Concept

/-! ## The mounted routes -/

structure Mount where
  method : String
  pattern : String
  deriving DecidableEq, Repr

/-- The calls of `mountAPIRoute` in `mountAdminRoutes`. -/
def apiRoutes : List Mount :=
  [⟨"GET", "/api/account/users"⟩,
   ⟨"GET", "/api/account/users/{account}/acl"⟩,
   ⟨"POST", "/api/account/users/{account}/tokens"⟩,
   ⟨"GET", "/api/account/users/{account}/tokens"⟩,
   ⟨"DELETE", "/api/account/users/{account}/tokens/{tokenId}"⟩,
   ⟨"POST", "/api/account/add"⟩,
   ⟨"GET", "/api/account/disable"⟩,
   ⟨"GET", "/api/account/reset"⟩,
   ⟨"POST", "/api/account/reset"⟩,
   ⟨"GET", "/api/account/acl/domains"⟩,
   ⟨"GET", "/api/account/acl/assign"⟩,
   ⟨"GET", "/api/account/acl/revoke"⟩,
   ⟨"GET", "/api/admin/retention"⟩,
   ⟨"GET", "/api/apps"⟩,
   ⟨"GET", "/api/apps/{appId}"⟩,
   ⟨"POST", "/api/apps/{appId}"⟩,
   ⟨"DELETE", "/api/apps/{appId}"⟩,
   ⟨"GET", "/api/apps/{appId}/envs"⟩,
   ⟨"POST", "/api/apps/{appId}/envs/{env}"⟩,
   ⟨"DELETE", "/api/apps/{appId}/envs/{env}"⟩,
   ⟨"GET", "/api/apps/{appId}/envs/{env}/elements"⟩,
   ⟨"GET", "/api/apps/{appId}/envs/{env}/elements/{key}"⟩,
   ⟨"POST", "/api/apps/{appId}/envs/{env}/elements/{key}"⟩,
   ⟨"PUT", "/api/apps/{appId}/envs/{env}/elements/{key}"⟩,
   ⟨"DELETE", "/api/apps/{appId}/envs/{env}/elements/{key}"⟩,
   ⟨"GET", "/api/apps/{appId}/envs/{env}/elements/{key}/versions"⟩,
   ⟨"POST", "/api/apps/{appId}/envs/{env}/elements/{key}/rollback"⟩,
   ⟨"POST", "/api/apps/{appId}/envs/{env}/elements/{key}/publish"⟩,
   ⟨"GET", "/api/apps/{appId}/envs/{env}/elements/{key}/operations"⟩,
   ⟨"GET", "/api/cluster/topology"⟩,
   ⟨"GET", "/api/cluster/agents"⟩,
   ⟨"GET", "/api/cluster/instances"⟩,
   ⟨"GET", "/api/cluster/instances/detail/{insId}"⟩,
   ⟨"GET", "/api/cluster/instances/filter"⟩]

def topologyRoute : Mount := ⟨"GET", "/api/cluster/topology"⟩

/-- The definition that `withRouteAuth` finds for the route. -/
def Mount.def? (route : Mount) : Option ObjectDef :=
  defMapping.lookup (route.method ++ chiPatternToAuthPattern route.pattern)

/-- The routes that name an app are mounted as they are here. -/
theorem appRoutes_mounted : ∀ route ∈ appRoutes, ⟨route.method, route.pattern⟩ ∈ apiRoutes := by
  decide +kernel

theorem def?_isSome_iff : ∀ route ∈ apiRoutes, route.def?.isSome = true ↔ route ≠ topologyRoute := by
  decide +kernel

/-! ## What comes through to the handler -/

/-- The users, the policies and the clock, and sessions as they are encoded. -/
structure AdminAuth where
  codec : SessionCodec
  sessionSecret : String
  GetUser : (account : String) → Option User
  Enforce : (subject domain object act : String) → Except GoError Bool
  now : Int

def AdminAuth.toAuth (d : AdminAuth) : Auth where
  parseSession header := d.codec.parseSession (Utf8.encode header) d.sessionSecret
  GetUser := d.GetUser
  Enforce := d.Enforce
  now := d.now

/-- The session in the context that `withRouteAuth` calls the handler with: of a route without
a definition there is none. -/
def admitted (auth : Auth) (route : Mount) (r : Request) : Except Refusal (Option Session) :=
  match route.def? with
  | none => .ok none
  | some d =>
      match authorizeRequest auth r with
      | none => .error .unauthenticated
      | some sess =>
          match auth.Enforce sess.Account (requestDomainHTTP r) d.object d.act with
          | .error err => .error (.enforce err)
          | .ok false => .error .permissionDenied
          | .ok true => .ok (some sess)

/-- Whatever the handler is, it runs on what is admitted and on nothing else. -/
theorem withRouteAuth_eq_admitted (auth : Auth) (route : Mount)
    (next : String → Request → Except BindError Call) (r : Request) :
    withRouteAuth auth route.method (chiPatternToAuthPattern route.pattern) next r =
      (admitted auth route r).bind fun sess =>
        (next (OperatorFromContext (sess.map Session.Account)) r).mapError .request := by
  unfold withRouteAuth admitted Mount.def?
  cases defMapping.lookup (route.method ++ chiPatternToAuthPattern route.pattern) with
  | none => rfl
  | some d =>
    dsimp only
    cases authorizeRequest auth r with
    | none => rfl
    | some sess =>
      dsimp only
      match auth.Enforce sess.Account (requestDomainHTTP r) d.object d.act with
      | .error err => rfl
      | .ok false => rfl
      | .ok true => rfl

def HandlerRuns (d : AdminAuth) (route : Mount) (r : Request) : Prop :=
  ∃ sess, admitted d.toAuth route r = .ok sess

/-- The request carries a session of the user: signed, not expired, and the user is in order and
has still the salt of the session. -/
structure Authenticated (d : AdminAuth) (r : Request) (sess : Session) (user : User) : Prop where
  header : d.codec.Verifies d.sessionSecret (Utf8.encode r.session) sess
  unexpired : d.now < sess.ExpiredAt
  exists_user : d.GetUser sess.Account = some user
  normal : user.status = .NORMAL
  salt : user.salt = sess.Salt

/-- The user of the session is allowed what the route is defined as, in the domain of the
path. -/
def Permitted (d : AdminAuth) (route : Mount) (r : Request) : Prop :=
  ∃ sess user odef, Authenticated d r sess user ∧ route.def? = some odef ∧
    d.Enforce sess.Account (domainFromParams (r.URLParam "appId") (r.URLParam "env"))
      odef.object odef.act = .ok true

/-- The route has a definition, and its handler runs only on what is permitted. -/
def Guarded (d : AdminAuth) (route : Mount) (r : Request) : Prop :=
  route.def?.isSome = true ∧ (HandlerRuns d route r → Permitted d route r)

theorem authorizeRequest_iff {d : AdminAuth} {r : Request} {sess : Session} :
    authorizeRequest d.toAuth r = some sess ↔ ∃ user, Authenticated d r sess user := by
  unfold authorizeRequest
  constructor
  · intro h
    obtain ⟨_, -, h⟩ := Option.bind_eq_some_iff.mp h
    obtain ⟨sess', hsess, h⟩ := Option.bind_eq_some_iff.mp h
    obtain ⟨user, huser, h⟩ := Option.bind_eq_some_iff.mp h
    obtain ⟨_, hguard, h⟩ := Option.bind_eq_some_iff.mp h
    cases h
    have hvalid : validSession sess user d.now = true := (Option.guard_eq_some' _).mp hguard
    simp only [validSession, Bool.and_eq_true, decide_eq_true_eq] at hvalid
    obtain ⟨⟨hnormal, hsalt⟩, hnow⟩ := hvalid
    have hverifies := SessionCodec.parseSession_eq_some.mp hsess
    exact ⟨user, hverifies, by omega, huser, hnormal, hsalt⟩
  · rintro ⟨user, hheader, hnow, huser, hnormal, hsalt⟩
    have hsess := SessionCodec.parseSession_eq_some.mpr hheader
    have hne : r.session ≠ "" := by
      intro hnil
      rw [hnil] at hsess
      exact Option.some_ne_none _ hsess.symm
    have hvalid : validSession sess user d.now = true := by
      have hexpired : d.now - sess.ExpiredAt < 0 := by omega
      simp [validSession, hnormal, hsalt, hexpired]
    simp [AdminAuth.toAuth, hne, hsess, huser, hvalid]

/-- Where the route has a definition, the handler runs on what is permitted exactly. -/
theorem handlerRuns_iff {d : AdminAuth} {route : Mount} {r : Request} {odef : ObjectDef}
    (hdef : route.def? = some odef) : HandlerRuns d route r ↔ Permitted d route r := by
  constructor
  · rintro ⟨sess, h⟩
    simp only [admitted, hdef] at h
    split at h
    · cases h
    · next sess hsess =>
      obtain ⟨user, hauth⟩ := authorizeRequest_iff.mp hsess
      split at h
      · cases h
      · cases h
      · next hallow => exact ⟨sess, user, odef, hauth, hdef, hallow⟩
  · rintro ⟨sess, user, odef', hauth, hdef', hallow⟩
    cases hdef.symm.trans hdef'
    have hsess := authorizeRequest_iff.mpr ⟨user, hauth⟩
    refine ⟨some sess, ?_⟩
    have hallow : d.toAuth.Enforce sess.Account (requestDomainHTTP r) odef.object odef.act =
      .ok true := hallow
    simp only [admitted, hdef, hsess, hallow]

/-- All the mounted routes are guarded but that of the topology. -/
theorem guarded_iff {route : Mount} (hroute : route ∈ apiRoutes) (d : AdminAuth) (r : Request) :
    Guarded d route r ↔ route ≠ topologyRoute := by
  rw [← def?_isSome_iff route hroute]
  refine ⟨fun h => h.1, fun h => ⟨h, fun hruns => ?_⟩⟩
  obtain ⟨odef, hdef⟩ := Option.isSome_iff_exists.mp h
  exact (handlerRuns_iff hdef).mp hruns

/-! ## A request with a session, and one without -/

def annSession : Session := ⟨"ann@x.io", "aaaaaaaa", 1700086400⟩

/-- Ann may read the users. Of the signatures under the secret `s3cret` only that of her session is
given. -/
def annAuth : AdminAuth where
  codec := JSONText.codec fun _ message =>
    if message = Utf8.encode (String.ofList (JSONText.sessionText annSession)) then
      [122, 87, 177, 164, 144, 64, 221, 125, 136, 216, 224, 156, 196, 103, 218, 29, 213, 160, 124,
        54, 138, 185, 163, 57, 252, 226, 170, 198, 213, 88, 74, 9]
    else []
  sessionSecret := "s3cret"
  GetUser account := if account = "ann@x.io" then some ⟨.NORMAL, "aaaaaaaa"⟩ else none
  Enforce subject domain object act :=
    .ok (subject = "ann@x.io" ∧ domain = "cluster" ∧ object = "user" ∧ act = "r")
  now := 1700000000

def annRequest : Request where
  session := "eyJBY2NvdW50IjoiYW5uQHguaW8iLCJTYWx0IjoiYWFhYWFhYWEiLCJFeHBpcmVkQXQiOjE3MDAwODY0MDB9." ++
    "elexpJBA3X2I2OCcxGfaHdWgfDaKuaM5_OKqxtVYSgk"
  URLParams := []
  query := []
  body := .noBody

theorem annRequest_authenticated :
    Authenticated annAuth annRequest annSession ⟨.NORMAL, "aaaaaaaa"⟩ where
  header := SessionCodec.verifies_encode (by decide +kernel)
  unexpired := by decide
  exists_user := rfl
  normal := rfl
  salt := rfl

theorem guarded_iff_users :
    HandlerRuns annAuth ⟨"GET", "/api/account/users"⟩ annRequest ∧
      (Guarded annAuth ⟨"GET", "/api/account/users"⟩ annRequest ↔
        (⟨"GET", "/api/account/users"⟩ : Mount) ≠ topologyRoute) := by
  have hdef : (⟨"GET", "/api/account/users"⟩ : Mount).def? = some ⟨"user", "r"⟩ := by
    decide +kernel
  refine ⟨(handlerRuns_iff hdef).mpr ?_, ?_⟩
  · exact ⟨annSession, _, _, annRequest_authenticated, hdef, congrArg Except.ok (by decide)⟩
  · exact guarded_iff (List.mem_of_getElem? (rfl : apiRoutes[0]? = some _)) annAuth annRequest

/-- Nobody is known and nothing is allowed. -/
def closedAuth : AdminAuth where
  codec := JSONText.codec fun _ _ => []
  sessionSecret := "secret"
  GetUser _ := none
  Enforce _ _ _ _ := .ok false
  now := 0

def bareRequest : Request where
  session := ""
  URLParams := []
  query := []
  body := .noBody

/-- The topology is handed out without a session. -/
theorem topology_unguarded :
    topologyRoute ∈ apiRoutes ∧ topologyRoute.def? = none ∧
    HandlerRuns closedAuth topologyRoute bareRequest ∧
    ¬ Permitted closedAuth topologyRoute bareRequest ∧
    ¬ ∀ (d : AdminAuth) (route : Mount), route ∈ apiRoutes → ∀ r, Guarded d route r := by
  have hmem : topologyRoute ∈ apiRoutes := List.mem_of_getElem? (rfl : apiRoutes[29]? = some _)
  have hdef : topologyRoute.def? = none := by decide +kernel
  have hpermitted : ¬ Permitted closedAuth topologyRoute bareRequest := by
    rintro ⟨sess, user, odef, -, hsome, -⟩
    rw [hdef] at hsome
    cases hsome
  refine ⟨hmem, hdef, ⟨none, ?_⟩, hpermitted, fun h => ?_⟩
  · simp only [admitted, hdef]
  · have hsome := (h closedAuth topologyRoute hmem bareRequest).1
    rw [hdef] at hsome
    cases hsome

end Cassem.Adm
