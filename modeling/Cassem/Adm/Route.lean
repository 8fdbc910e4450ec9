import Cassem.Adm.Bind

/-!
# The routes that name an app

The request types of the handlers, what each handler passes to the aggregate, and
the authorization in front of them. The domain that is enforced comes from the
router's path parameters, what the handler acts on from the struct it has bound.
Sessions are decoded and users and policies looked up by parameters of the model.
-/

namespace Cassem.Adm

open Cassem.Concept

/-! ## Request types -/

def commonAppEnvRequest : List StructField :=
  [{ Name := "AppId", type := .string, uri := "appId", binding := [.required, .identifier] },
   { Name := "Env", type := .string, uri := "env", binding := [.required, .identifier] }]

def commonAppEnvEltRequest : List StructField :=
  [{ Name := "AppId", type := .string, uri := "appId", form := "app",
     binding := [.required, .identifier] },
   { Name := "Env", type := .string, uri := "env", form := "env",
     binding := [.required, .identifier] },
   { Name := "ElementKey", type := .string, uri := "key", form := "key",
     binding := [.required, .identifier] }]

def commonPagingRequest : List StructField :=
  [{ Name := "Limit", type := .int 64, form := "limit,default=100" },
   { Name := "Seek", type := .string, form := "seek" }]

def getAppEnvElementsReq : List StructField :=
  commonAppEnvRequest ++ commonPagingRequest ++
  [{ Name := "ElementKeys", type := .strings, form := "key",
     binding := [.omitempty, .dive, .identifier] },
   { Name := "Query", type := .string, form := "query" }]

def createAppEnvElementReq : List StructField :=
  commonAppEnvEltRequest ++
  [{ Name := "Raw", type := .string, json := "raw", binding := [.required] },
   { Name := "ContentType", type := .contentTypeParam, json := "contentType",
     binding := [.required, .oneof [1, 2, 3, 4]] }]

def updateAppEnvElementReq : List StructField :=
  commonAppEnvEltRequest ++
  [{ Name := "Raw", type := .string, json := "raw", binding := [.required] }]

def getAppEnvElementReq : List StructField :=
  commonAppEnvEltRequest ++ [{ Name := "Version", type := .uint 64, form := "version" }]

def getAppEnvElementVersionsReq : List StructField :=
  commonAppEnvEltRequest ++ commonPagingRequest ++
  [{ Name := "Versions", type := .uints 64, form := "version" }]

def getAppEnvElementOperationsReq : List StructField :=
  commonAppEnvEltRequest ++ commonPagingRequest

def deleteAppEnvElementsReq : List StructField := commonAppEnvEltRequest

def createAppUriReq : List StructField :=
  [{ Name := "App", type := .string, uri := "appId", binding := [.required, .identifier] }]

def createAppReq : List StructField :=
  [{ Name := "Name", type := .string, json := "name", binding := [.required] },
   { Name := "Description", type := .string, json := "description", binding := [.required] }]

def deleteAppReq : List StructField :=
  [{ Name := "App", type := .string, uri := "appId", binding := [.required, .identifier] }]

def getAppReq : List StructField :=
  [{ Name := "App", type := .string, uri := "appId", binding := [.required, .identifier] }]

def getAppEnvsReq : List StructField :=
  commonPagingRequest ++
  [{ Name := "App", type := .string, uri := "appId", binding := [.required, .identifier] }]

def createAppEnvReq : List StructField := commonAppEnvRequest

def deleteAppEnvReq : List StructField := commonAppEnvRequest

def rollbackAppEnvElementReq : List StructField :=
  commonAppEnvEltRequest ++
  [{ Name := "RollbackTo", type := .uint 32, form := "version", json := "version",
     binding := [.required] }]

def publishAppEnvElementReq : List StructField :=
  commonAppEnvEltRequest ++
  [{ Name := "Publish", type := .uint 32, form := "version", json := "version",
     binding := [.required] },
   { Name := "AgentIds", type := .strings, form := "agentId", json := "agentId" },
   { Name := "InstanceIds", type := .strings, form := "instanceId", json := "instanceId" },
   { Name := "PublishMode", type := .uint 8, form := "publishMode,default=2",
     json := "publishMode", binding := [.required, .oneof [1, 2]] }]

/-! ## Handlers -/

structure AppMetadata where
  Id : String
  Description : String
  Creator : String
  Owner : String
  deriving DecidableEq, Repr

/-- A call of the aggregate. -/
inductive Call where
  | GetApp (app : String)
  | CreateApp (md : AppMetadata)
  | DeleteApp (app : String)
  | GetEnvironments (app seek : String) (limit : Int)
  | CreateEnvironment (app env : String)
  | DeleteEnvironment (app env : String)
  | GetElementsByKeys (app env : String) (keys : List String)
  | GetElements (app env seek : String) (limit : Int) (query : String)
  | GetElementWithVersion (app env key : String) (version : Int)
  | CreateElement (app env key raw : String) (contentType : Int)
  | UpdateElement (app env key raw : String)
  | DeleteElement (app env key : String)
  | GetElementVersions (app env key seek : String) (limit : Int)
  | GetElementOperations (app env key seek : String) (limit : Int)
  | RollbackElementVersion (app env key : String) (version : Int)
  | PublishElementVersion (app env key : String) (version : Int)
  deriving DecidableEq, Repr

/-- The app and, where the call has one, the environment that the call acts on. -/
def Call.scope : Call → String × Option String
  | .GetApp app | .DeleteApp app | .GetEnvironments app _ _ => (app, none)
  | .CreateApp md => (md.Id, none)
  | .CreateEnvironment app env | .DeleteEnvironment app env | .GetElementsByKeys app env _
  | .GetElements app env _ _ _ | .GetElementWithVersion app env _ _
  | .CreateElement app env _ _ _ | .UpdateElement app env _ _ | .DeleteElement app env _
  | .GetElementVersions app env _ _ _ | .GetElementOperations app env _ _ _
  | .RollbackElementVersion app env _ _ | .PublishElementVersion app env _ _ =>
      (app, some env)

/-- A handler: the type of its request, and the call it makes once that is bound. -/
structure Handler where
  request : List StructField
  call : (operator : String) → Struct → Call

def Handler.ServeHTTP (h : Handler) (operator : String) (r : Request) : Except BindError Call :=
  do return h.call operator (← bindRequest r h.request)

def GetAppHTTP : Handler where
  request := getAppReq
  call _ req := .GetApp (req.string "App")

def CreateAppHTTP : Handler where
  request := createAppUriReq ++ createAppReq
  call operator req := .CreateApp ⟨req.string "App", req.string "Description", operator, operator⟩

def DeleteAppHTTP : Handler where
  request := deleteAppReq
  call _ req := .DeleteApp (req.string "App")

def GetAppEnvironmentsHTTP : Handler where
  request := getAppEnvsReq
  call _ req := .GetEnvironments (req.string "App") (req.string "Seek") (req.number "Limit")

def CreateAppEnvironmentHTTP : Handler where
  request := createAppEnvReq
  call _ req := .CreateEnvironment (req.string "AppId") (req.string "Env")

def DeleteAppEnvironmentHTTP : Handler where
  request := deleteAppEnvReq
  call _ req := .DeleteEnvironment (req.string "AppId") (req.string "Env")

def GetAppEnvElementsHTTP : Handler where
  request := getAppEnvElementsReq
  call _ req :=
    if req.strings "ElementKeys" ≠ [] then
      .GetElementsByKeys (req.string "AppId") (req.string "Env") (req.strings "ElementKeys")
    else
      .GetElements (req.string "AppId") (req.string "Env") (req.string "Seek")
        (req.number "Limit") (req.string "Query")

def GetAppEnvElementHTTP : Handler where
  request := getAppEnvElementReq
  -- the version goes through `int`
  call _ req := .GetElementWithVersion (req.string "AppId") (req.string "Env")
    (req.string "ElementKey") ((req.number "Version").bmod (2 ^ 64))

def CreateAppEnvElementHTTP : Handler where
  request := createAppEnvElementReq
  call _ req := .CreateElement (req.string "AppId") (req.string "Env") (req.string "ElementKey")
    (req.string "Raw") (req.number "ContentType")

def UpdateAppEnvElementHTTP : Handler where
  request := updateAppEnvElementReq
  call _ req := .UpdateElement (req.string "AppId") (req.string "Env") (req.string "ElementKey")
    (req.string "Raw")

def DeleteAppEnvElementHTTP : Handler where
  request := deleteAppEnvElementsReq
  call _ req := .DeleteElement (req.string "AppId") (req.string "Env") (req.string "ElementKey")

def GetAppEnvElementAllVersionsHTTP : Handler where
  request := getAppEnvElementVersionsReq
  call _ req := .GetElementVersions (req.string "AppId") (req.string "Env")
    (req.string "ElementKey") (req.string "Seek") (req.number "Limit")

def GetAppEnvElementOperationsHTTP : Handler where
  request := getAppEnvElementOperationsReq
  call _ req := .GetElementOperations (req.string "AppId") (req.string "Env")
    (req.string "ElementKey") (req.string "Seek") (req.number "Limit")

def RollbackAppEnvElementHTTP : Handler where
  request := rollbackAppEnvElementReq
  call _ req := .RollbackElementVersion (req.string "AppId") (req.string "Env")
    (req.string "ElementKey") (req.number "RollbackTo")

def PublishAppEnvElementHTTP : Handler where
  request := publishAppEnvElementReq
  call _ req := .PublishElementVersion (req.string "AppId") (req.string "Env")
    (req.string "ElementKey") (req.number "Publish")

/-! ## Authorization -/

structure ObjectDef where
  object : String
  act : String
  deriving DecidableEq, Repr

/-- `defMapping`, with the strings of the `Object_` and `Action_` constants. -/
def defMapping : List (String × ObjectDef) :=
  [("GET/api/apps", ⟨"app", "r"⟩),
   ("GET/api/apps/:appId", ⟨"app", "r"⟩),
   ("POST/api/apps/:appId", ⟨"app", "w"⟩),
   ("DELETE/api/apps/:appId", ⟨"app", "d"⟩),
   ("GET/api/apps/:appId/envs", ⟨"app", "r"⟩),
   ("POST/api/apps/:appId/envs/:env", ⟨"app", "w"⟩),
   ("DELETE/api/apps/:appId/envs/:env", ⟨"app", "w"⟩),
   ("GET/api/apps/:appId/envs/:env/elements", ⟨"app", "r"⟩),
   ("GET/api/apps/:appId/envs/:env/elements/:key", ⟨"elem", "r"⟩),
   ("POST/api/apps/:appId/envs/:env/elements/:key", ⟨"elem", "w"⟩),
   ("PUT/api/apps/:appId/envs/:env/elements/:key", ⟨"elem", "w"⟩),
   ("DELETE/api/apps/:appId/envs/:env/elements/:key", ⟨"elem", "d"⟩),
   ("GET/api/apps/:appId/envs/:env/elements/:key/versions", ⟨"elem", "r"⟩),
   ("GET/api/apps/:appId/envs/:env/elements/:key/operations", ⟨"elem", "r"⟩),
   ("POST/api/apps/:appId/envs/:env/elements/:key/rollback", ⟨"elem", "p"⟩),
   ("POST/api/apps/:appId/envs/:env/elements/:key/publish", ⟨"elem", "p"⟩),
   ("GET/api/account/users", ⟨"user", "r"⟩),
   ("GET/api/account/users/:account/acl", ⟨"acl", "r"⟩),
   ("POST/api/account/add", ⟨"user", "w"⟩),
   ("GET/api/account/disable", ⟨"user", "w"⟩),
   ("GET/api/account/reset", ⟨"user", "w"⟩),
   ("POST/api/account/reset", ⟨"user", "w"⟩),
   ("GET/api/account/acl/domains", ⟨"acl", "r"⟩),
   ("GET/api/account/acl/assign", ⟨"acl", "w"⟩),
   ("GET/api/account/acl/revoke", ⟨"acl", "w"⟩),
   ("GET/api/account/users/:account/tokens", ⟨"acl", "r"⟩),
   ("POST/api/account/users/:account/tokens", ⟨"acl", "w"⟩),
   ("DELETE/api/account/users/:account/tokens/:tokenId", ⟨"acl", "w"⟩),
   ("GET/api/admin/retention", ⟨"cluster", "r"⟩),
   ("GET/api/cluster/agents", ⟨"cluster", "r"⟩),
   ("GET/api/cluster/instances", ⟨"cluster", "r"⟩),
   ("GET/api/cluster/instances/filter", ⟨"cluster", "r"⟩),
   ("GET/api/cluster/instances/detail/:insId", ⟨"cluster", "r"⟩)]

structure Session where
  Account : String
  Salt : String
  ExpiredAt : Int
  deriving DecidableEq, Repr

inductive UserStatus where
  | NORMAL
  | FORBIDDEN
  deriving DecidableEq, Repr

structure User where
  status : UserStatus
  salt : String
  deriving DecidableEq, Repr

/-- What authorization asks of the session codec, the user store, the policies and
the clock. -/
structure Auth where
  parseSession : String → Option Session
  GetUser : (account : String) → Option User
  Enforce : (subject domain object act : String) → Except GoError Bool
  now : Int

inductive Refusal where
  | unauthenticated
  | enforce (err : GoError)
  | permissionDenied
  | request (err : BindError)

def domainFromParams (appID env : String) : String :=
  if appID ≠ "" ∧ env ≠ "" then appID ++ "/" ++ env
  else if appID ≠ "" then appID ++ "/*"
  else "cluster"

def requestDomainHTTP (r : Request) : String :=
  domainFromParams (r.URLParam "appId") (r.URLParam "env")

def validSession (sess : Session) (user : User) (now : Int) : Bool :=
  user.status = .NORMAL && user.salt = sess.Salt && now - sess.ExpiredAt < 0

def authorizeRequest (auth : Auth) (r : Request) : Option Session := do
  guard (r.session ≠ "")
  let sess ← auth.parseSession r.session
  let user ← auth.GetUser sess.Account
  guard (validSession sess user auth.now)
  return sess

def withRouteAuth (auth : Auth) (method authPattern : String)
    (next : (operator : String) → Request → Except BindError Call) (r : Request) :
    Except Refusal Call :=
  match defMapping.lookup (method ++ authPattern) with
  | none => (next (OperatorFromContext none) r).mapError .request
  | some d =>
      match authorizeRequest auth r with
      | none => .error .unauthenticated
      | some sess =>
          match auth.Enforce sess.Account (requestDomainHTTP r) d.object d.act with
          | .error err => .error (.enforce err)
          | .ok false => .error .permissionDenied
          | .ok true => (next (OperatorFromContext (some sess.Account)) r).mapError .request

/-! ## Routes -/

structure Route where
  method : String
  pattern : String
  handler : Handler

def Route.parts (route : Route) : List String :=
  (route.pattern.toList.splitOn '/').map String.ofList

def authPart (part : List Char) : List Char :=
  if part.head? = some '{' ∧ part.getLast? = some '}' then ':' :: part.tail.dropLast else part

def chiPatternToAuthPattern (pattern : String) : String :=
  String.ofList (['/'].intercalate ((pattern.toList.splitOn '/').map authPart))

/-- The routes of `mountAdminRoutes` whose path names an app. -/
def appRoutes : List Route :=
  [⟨"GET", "/api/apps/{appId}", GetAppHTTP⟩,
   ⟨"POST", "/api/apps/{appId}", CreateAppHTTP⟩,
   ⟨"DELETE", "/api/apps/{appId}", DeleteAppHTTP⟩,
   ⟨"GET", "/api/apps/{appId}/envs", GetAppEnvironmentsHTTP⟩,
   ⟨"POST", "/api/apps/{appId}/envs/{env}", CreateAppEnvironmentHTTP⟩,
   ⟨"DELETE", "/api/apps/{appId}/envs/{env}", DeleteAppEnvironmentHTTP⟩,
   ⟨"GET", "/api/apps/{appId}/envs/{env}/elements", GetAppEnvElementsHTTP⟩,
   ⟨"GET", "/api/apps/{appId}/envs/{env}/elements/{key}", GetAppEnvElementHTTP⟩,
   ⟨"POST", "/api/apps/{appId}/envs/{env}/elements/{key}", CreateAppEnvElementHTTP⟩,
   ⟨"PUT", "/api/apps/{appId}/envs/{env}/elements/{key}", UpdateAppEnvElementHTTP⟩,
   ⟨"DELETE", "/api/apps/{appId}/envs/{env}/elements/{key}", DeleteAppEnvElementHTTP⟩,
   ⟨"GET", "/api/apps/{appId}/envs/{env}/elements/{key}/versions",
     GetAppEnvElementAllVersionsHTTP⟩,
   ⟨"POST", "/api/apps/{appId}/envs/{env}/elements/{key}/rollback", RollbackAppEnvElementHTTP⟩,
   ⟨"POST", "/api/apps/{appId}/envs/{env}/elements/{key}/publish", PublishAppEnvElementHTTP⟩,
   ⟨"GET", "/api/apps/{appId}/envs/{env}/elements/{key}/operations",
     GetAppEnvElementOperationsHTTP⟩]

/-- The handler as `mountAPIRoute` mounts it. -/
def Route.serve (route : Route) (auth : Auth) (r : Request) : Except Refusal Call :=
  withRouteAuth auth route.method (chiPatternToAuthPattern route.pattern)
    route.handler.ServeHTTP r

end Cassem.Adm
