import Cassem.Adm.Route
import Cassem.Lib.Fold
import Mathlib.Data.List.Nodup

/-!
# Authorized scope and acted scope

The path parameters, from which the enforced domain is computed, are only the first
of three writers of the fields that the handlers act on. A later writer is the query,
where the field has a `form` tag, and the last is the body, whose members reach every
field by its name. So the two scopes agree exactly when what query and body put over a
path parameter is the parameter itself.
-/

namespace Cassem.Adm

open Lib Cassem.Concept

/-! ## What query and body put over a field -/

/-- The last string that the body gives under the name, letter case aside. -/
def Body.given (body : Body) (name : String) : Option String :=
  match body with
  | .json (.object members) =>
      (members.filterMap fun m =>
        if foldName m.1 = foldName name then m.2.string? else none).getLast?
  | _ => none

/-- The last value in the query under the `form` name of the field. -/
def StructField.queried (f : StructField) (r : Request) : Option String :=
  let name := (parseBindTag f.form).1
  if name = "" ∨ name = "-" then none else lastUnder name r.query

def Request.override (r : Request) (f : StructField) : Option String :=
  (r.body.given f.jsonName).or (f.queried r)

/-- The field of the handler's request that a path parameter is bound to. -/
def Handler.param? (h : Handler) (param : String) : Option StructField :=
  h.request.find? (·.uri = param)

def Handler.Untouched (h : Handler) (r : Request) (param : String) : Prop :=
  ∀ f, h.param? param = some f → ∀ v, r.override f = some v → v = r.URLParam param

/-- Neither query nor body changes the app or the environment of the path. -/
def Handler.ScopeUntouched (h : Handler) (r : Request) : Prop :=
  h.Untouched r "appId" ∧ h.Untouched r "env"

/-- The app and, where the path names one, the environment of the path. -/
def Route.pathScope (route : Route) (r : Request) : String × Option String :=
  (r.URLParam "appId", if "{env}" ∈ route.parts then some (r.URLParam "env") else none)

/-! ## One field through the three binders -/

/-- Field names that neither binder confuses. -/
def Distinct (fields : List StructField) : Prop :=
  (fields.map StructField.Name).Nodup ∧ (fields.map fun f => foldName f.jsonName).Nodup

instance (fields : List StructField) : Decidable (Distinct fields) :=
  inferInstanceAs (Decidable (_ ∧ _))

theorem Distinct.eq_of_name {fields : List StructField} (hd : Distinct fields)
    {f g : StructField} (hf : f ∈ fields) (hg : g ∈ fields) (h : g.Name = f.Name) : g = f :=
  List.inj_on_of_nodup_map hd.1 hg hf h

theorem Distinct.eq_of_folded {fields : List StructField} (hd : Distinct fields)
    {f g : StructField} (hf : f ∈ fields) (hg : g ∈ fields)
    (h : foldName g.jsonName = foldName f.jsonName) : g = f :=
  List.inj_on_of_nodup_map hd.2 hg hf h

theorem newStruct_string {fields : List StructField} (hd : Distinct fields) {f : StructField}
    (hf : f ∈ fields) (htype : f.type = .string) : newStruct fields f.Name = .string "" := by
  unfold newStruct
  cases hg : fields.find? (·.Name = f.Name) with
  | none => rfl
  | some g =>
    have hname := List.find?_some hg
    have heq := hd.eq_of_name hf (List.mem_of_find?_eq_some hg) (by simpa using hname)
    simp only [heq, htype, Kind.zero]

/-- What a binder without a default puts into a string field. -/
def StructField.put (f : StructField) (values : Values) (tagName : TagName) : Option Value :=
  let name := (parseBindTag (f.Get tagName)).1
  if name = "" ∨ name = "-" then none else (values name).getLast?.map .string

theorem bindField_ok {values : Values} {tagName : TagName} {obj obj' : Struct}
    {f : StructField} (h : bindField values tagName obj f = .ok obj') :
    rawValues values (f.Get tagName) = [] ∧ obj' = obj ∨
      rawValues values (f.Get tagName) ≠ [] ∧
        ∃ v, setFieldValue f.type (rawValues values (f.Get tagName)) = some v ∧
          obj' = Function.update obj f.Name v := by
  unfold bindField at h
  split at h
  · next hraw => cases h; exact .inl ⟨hraw, rfl⟩
  · next hraw =>
    split at h
    · next v hv => cases h; exact .inr ⟨hraw, v, hv, rfl⟩
    · cases h

theorem bindField_other {values : Values} {tagName : TagName} {obj obj' : Struct}
    {f : StructField} {name : String} (hne : f.Name ≠ name)
    (h : bindField values tagName obj f = .ok obj') : obj' name = obj name := by
  rcases bindField_ok h with ⟨-, rfl⟩ | ⟨-, v, -, rfl⟩
  · rfl
  · exact Function.update_of_ne hne.symm _ _

theorem rawValues_noDefault {values : Values} {tag : String} (h : (parseBindTag tag).2 = "") :
    rawValues values tag =
      if (parseBindTag tag).1 = "" ∨ (parseBindTag tag).1 = "-" then []
      else values (parseBindTag tag).1 := by
  unfold rawValues
  simp only [h, ne_eq, not_true_eq_false, and_false, if_false]

theorem bindField_string {values : Values} {tagName : TagName} {obj obj' : Struct}
    {f : StructField} (htype : f.type = .string) (hdefault : (parseBindTag (f.Get tagName)).2 = "")
    (h : bindField values tagName obj f = .ok obj') :
    obj' f.Name = (f.put values tagName).getD (obj f.Name) := by
  have hput : f.put values tagName =
      (rawValues values (f.Get tagName)).getLast?.map Value.string := by
    rw [rawValues_noDefault hdefault, StructField.put]
    split <;> rfl
  rw [hput]
  rcases bindField_ok h with ⟨hraw, rfl⟩ | ⟨hraw, v, hv, rfl⟩
  · rw [hraw]; rfl
  · rw [htype] at hv
    have hlast := List.getLast?_eq_some_getLast hraw
    simp only [setFieldValue, setScalarValue, hlast, Option.getD_some] at hv
    cases hv
    rw [hlast, Function.update_self]
    rfl

theorem findField_some {fields : List StructField} {key : String} {g : StructField}
    (h : findField fields key = some g) : g ∈ fields ∧ foldName g.jsonName = foldName key := by
  rcases Option.or_eq_some_iff.mp h with hexact | ⟨-, hfolded⟩
  · have hname := List.find?_some hexact
    exact ⟨List.mem_of_find?_eq_some hexact, congrArg foldName (by simpa using hname)⟩
  · have hname := List.find?_some hfolded
    exact ⟨List.mem_of_find?_eq_some hfolded, by simpa using hname⟩

theorem findField_none {fields : List StructField} {key : String}
    (h : findField fields key = none) {f : StructField} (hf : f ∈ fields) :
    foldName f.jsonName ≠ foldName key := by
  have hfolded := (Option.or_eq_none_iff.mp h).2
  simpa using List.find?_eq_none.mp hfolded f hf

theorem decodeValue_string {v : JSON} {held x : Value} (h : decodeValue .string v held = some x) :
    x = (v.string?.map Value.string).getD held := by
  cases v <;> cases h <;> rfl

/-- Decoding a string leaves no cells beyond it. -/
theorem heldCells_string (s : Option String) (held : Value) :
    heldCells held ((s.map Value.string).getD held) = (s.map Value.string).getD held := by
  cases s with
  | some s => cases held <;> rfl
  | none =>
    cases held with
    | string s => rfl
    | number n => rfl
    | strings l => cases l <;> simp [heldCells]
    | numbers l => cases l <;> simp [heldCells]

section Binders

variable {fields : List StructField} (hd : Distinct fields) {f : StructField} (hf : f ∈ fields)
  (htype : f.type = .string)
include hd hf htype

theorem bindStructValue_string {values : Values} {tagName : TagName} {obj obj' : Struct}
    (hdefault : (parseBindTag (f.Get tagName)).2 = "")
    (h : bindStructValue fields values tagName obj = .ok obj') :
    obj' f.Name = (f.put values tagName).getD (obj f.Name) := by
  refine Fold.foldlM_at (fun obj : Struct => obj f.Name) hf ?_ ?_ h
  · intro g hg hne s s' hs
    exact bindField_other (fun hname => hne (hd.eq_of_name hf hg hname)) hs
  · intro s s' hs
    exact bindField_string htype hdefault hs

theorem decodeMember_string {d d' : Decoding} {m : String × JSON}
    (h : decodeMember fields d m = .ok d') :
    d'.cells f.Name = ((if foldName m.1 = foldName f.jsonName then m.2.string? else none).map
        Value.string).getD (d.cells f.Name) ∧
      (d.obj f.Name = d.cells f.Name → d'.obj f.Name = d'.cells f.Name) := by
  unfold decodeMember at h
  cases hfind : findField fields m.1 with
  | none =>
    have hne := findField_none hfind hf
    rw [hfind] at h
    cases h
    rw [if_neg hne.symm]
    exact ⟨rfl, id⟩
  | some g =>
    obtain ⟨hg, hname⟩ := findField_some hfind
    simp only [hfind] at h
    split at h
    · next v hv =>
      cases h
      by_cases hkey : foldName m.1 = foldName f.jsonName
      · have hgf := hd.eq_of_folded hf hg (hname.trans hkey)
        subst hgf
        rw [htype] at hv
        rw [if_pos hkey, Decoding.obj_set, Decoding.cells_set, Function.update_self,
          Function.update_self, decodeValue_string hv, heldCells_string]
        exact ⟨rfl, fun _ => rfl⟩
      · have hne : f.Name ≠ g.Name := fun h =>
          hkey (hd.eq_of_name hf hg h.symm ▸ hname.symm)
        rw [if_neg hkey, Decoding.obj_set, Decoding.cells_set, Function.update_of_ne hne,
          Function.update_of_ne hne]
        exact ⟨rfl, id⟩
    · cases h

theorem bindRequestJSON_string {r : Request} {obj obj' : Struct}
    (h : bindRequestJSON r fields obj = .ok obj') :
    obj' f.Name = ((r.body.given f.jsonName).map Value.string).getD (obj f.Name) := by
  unfold bindRequestJSON at h
  split at h
  case h_5 members hbody =>
    obtain ⟨d, hfold, rfl⟩ := Fold.map_eq_ok h
    have hcells := Fold.foldlM_keeps (fun m _ s s' hs hstep =>
      (decodeMember_string hd hf htype hstep).2 hs) rfl hfold
    have hlast := Fold.foldlM_last (fun d : Decoding => d.cells f.Name)
      (fun m => (if foldName m.1 = foldName f.jsonName then m.2.string? else none).map Value.string)
      (fun m _ s s' hs => (decodeMember_string hd hf htype hs).1) hfold
    rw [hcells, hlast, hbody, Body.given, ← List.map_filterMap, List.getLast?_map]
  -- the other bodies decode nothing, or fail
  all_goals cases h
  all_goals next hbody => rw [hbody]; rfl

end Binders

/-! ## The value a path parameter ends with -/

theorem lastUnder_cons (key : String) (kv : String × String) (pairs : List (String × String)) :
    lastUnder key (kv :: pairs) =
      (lastUnder key pairs).or (if kv.1 = key then some kv.2 else none) := by
  unfold lastUnder
  rw [List.filterMap_cons]
  by_cases hkey : kv.1 = key
  · simp only [hkey, if_true, List.getLast?_cons]
    cases (pairs.filterMap fun kv => if kv.1 = key then some kv.2 else none).getLast? <;> rfl
  · simp only [hkey, if_false, Option.or_none]

/-- Whether a pair replaces the values under its key or is added to them, it is the
last one there. -/
theorem getLast?_foldl {step : Values → String × String → Values} {key : String}
    (hstep : ∀ values kv, (step values kv key).getLast? =
      (if kv.1 = key then some kv.2 else none).or (values key).getLast?)
    (pairs : List (String × String)) (values : Values) :
    (pairs.foldl step values key).getLast? =
      (lastUnder key pairs).or (values key).getLast? := by
  induction pairs generalizing values with
  | nil => rfl
  | cons kv pairs ih => rw [List.foldl_cons, ih, hstep, lastUnder_cons, Option.or_assoc]

theorem getLast?_Set (values : Values) (kv : String × String) (key : String) :
    (values.Set kv.1 kv.2 key).getLast? =
      (if kv.1 = key then some kv.2 else none).or (values key).getLast? := by
  unfold Values.Set
  by_cases hkey : kv.1 = key
  · rw [if_pos hkey, ← hkey, Function.update_self]
    rfl
  · rw [if_neg hkey, Function.update_of_ne (Ne.symm hkey), Option.none_or]

theorem getLast?_Add (values : Values) (kv : String × String) (key : String) :
    (values.Add kv.1 kv.2 key).getLast? =
      (if kv.1 = key then some kv.2 else none).or (values key).getLast? := by
  unfold Values.Add
  by_cases hkey : kv.1 = key
  · rw [if_pos hkey, ← hkey, Function.update_self, List.getLast?_append]
    rfl
  · rw [if_neg hkey, Function.update_of_ne (Ne.symm hkey), Option.none_or]

theorem Query_getLast? (r : Request) (key : String) :
    (r.Query key).getLast? = lastUnder key r.query := by
  rw [Request.Query, getLast?_foldl fun values kv => getLast?_Add values kv key]
  exact Option.or_none

section Bound

variable {r : Request} {fields : List StructField} {obj obj' : Struct} (hd : Distinct fields)
  {f : StructField} (hf : f ∈ fields) (htype : f.type = .string)
include hd hf htype

theorem bindRequestURIParams_string {param : String} (hparam : param ≠ "" ∧ param ≠ "-")
    (huri : parseBindTag f.uri = (param, ""))
    (h : bindRequestURIParams r fields (newStruct fields) = .ok obj) :
    obj f.Name = .string (r.URLParam param) := by
  have hdefault : (parseBindTag (f.Get .uri)).2 = "" := by rw [StructField.Get, huri]
  rw [bindStructValue_string hd hf htype hdefault h, newStruct_string hd hf htype,
    StructField.put, StructField.Get, huri]
  simp only [hparam.1, hparam.2, or_self, if_false]
  rw [getLast?_foldl fun values kv => getLast?_Set values kv param, Request.URLParam]
  cases lastUnder param r.URLParams <;> rfl

theorem bindQuery_string (hform : (parseBindTag (f.Get .form)).2 = "")
    (h : bindStructValue fields r.Query .form obj = .ok obj') :
    obj' f.Name = ((f.queried r).map Value.string).getD (obj f.Name) := by
  rw [bindStructValue_string hd hf htype hform h, StructField.put, StructField.queried]
  simp only [StructField.Get, Query_getLast?]
  by_cases hname : (parseBindTag f.form).1 = "" ∨ (parseBindTag f.form).1 = "-"
  · rw [if_pos hname, if_pos hname]
    rfl
  · rw [if_neg hname, if_neg hname]

theorem bindRequest_string {param : String} (hparam : param ≠ "" ∧ param ≠ "-")
    (huri : parseBindTag f.uri = (param, "")) (hform : (parseBindTag (f.Get .form)).2 = "")
    (h : bindRequest r fields = .ok obj) :
    obj f.Name = .string ((r.override f).getD (r.URLParam param)) := by
  obtain ⟨obj₁, h₁, h⟩ := Fold.bind_eq_ok h
  obtain ⟨obj₂, h₂, h⟩ := Fold.bind_eq_ok h
  obtain ⟨obj₃, h₃, h⟩ := Fold.bind_eq_ok h
  obtain ⟨-, -, h⟩ := Fold.bind_eq_ok h
  cases h
  rw [bindRequestJSON_string hd hf htype h₃, bindQuery_string hd hf htype hform h₂,
    bindRequestURIParams_string hd hf htype hparam huri h₁, Request.override]
  cases r.body.given f.jsonName <;> cases f.queried r <;> rfl

end Bound

/-! ## The routes -/

/-- The scope fields of a handler are plain strings under their parameters' names. -/
def Handler.Checked (h : Handler) (param : String) : Prop :=
  ∀ f ∈ h.param? param, f.type = .string ∧ parseBindTag f.uri = (param, "") ∧
    (parseBindTag (f.Get .form)).2 = ""

instance (h : Handler) (param : String) : Decidable (h.Checked param) :=
  inferInstanceAs (Decidable (∀ f ∈ h.param? param, _))

/-- What a handler's call acts on is what the fields of the path parameters hold. -/
def Handler.ActsOnParams (h : Handler) : Prop :=
  ∃ app, h.param? "appId" = some app ∧ ∀ operator req,
    (h.call operator req).scope =
      (req.string app.Name, (h.param? "env").map fun env => req.string env.Name)

theorem appRoutes_checked : ∀ route ∈ appRoutes, Distinct route.handler.request ∧
    route.handler.Checked "appId" ∧ route.handler.Checked "env" := by
  decide +kernel

theorem appRoutes_parts : ∀ route ∈ appRoutes,
    ("{env}" ∈ route.parts ↔ (route.handler.param? "env").isSome = true) := by
  decide +kernel

/-- Every route that names an app is in `defMapping`. -/
theorem appRoutes_mapped : ∀ route ∈ appRoutes,
    (defMapping.lookup (route.method ++ chiPatternToAuthPattern route.pattern)).isSome = true := by
  decide +kernel

theorem appRoutes_actsOnParams : ∀ route ∈ appRoutes, route.handler.ActsOnParams := by
  simp only [appRoutes, List.forall_mem_cons]
  refine ⟨⟨_, rfl, fun _ _ => rfl⟩, ⟨_, rfl, fun _ _ => rfl⟩, ⟨_, rfl, fun _ _ => rfl⟩,
    ⟨_, rfl, fun _ _ => rfl⟩, ⟨_, rfl, fun _ _ => rfl⟩, ⟨_, rfl, fun _ _ => rfl⟩,
    ⟨_, rfl, fun operator req => ?_⟩, ⟨_, rfl, fun _ _ => rfl⟩, ⟨_, rfl, fun _ _ => rfl⟩,
    ⟨_, rfl, fun _ _ => rfl⟩, ⟨_, rfl, fun _ _ => rfl⟩, ⟨_, rfl, fun _ _ => rfl⟩,
    ⟨_, rfl, fun _ _ => rfl⟩, ⟨_, rfl, fun _ _ => rfl⟩, ⟨_, rfl, fun _ _ => rfl⟩, ?_⟩
  · dsimp only [GetAppEnvElementsHTTP]
    split <;> rfl
  · exact fun _ h => absurd h List.not_mem_nil

/-- A mapped route is served to those allowed on the domain of its path alone. -/
theorem withRouteAuth_ok {auth : Auth} {method authPattern : String}
    {next : String → Request → Except BindError Call} {r : Request} {call : Call}
    (hmapped : (defMapping.lookup (method ++ authPattern)).isSome = true)
    (h : withRouteAuth auth method authPattern next r = .ok call) :
    ∃ (sess : Session) (d : ObjectDef), authorizeRequest auth r = some sess ∧
      defMapping.lookup (method ++ authPattern) = some d ∧
      auth.Enforce sess.Account (requestDomainHTTP r) d.object d.act = .ok true ∧
      next (OperatorFromContext (some sess.Account)) r = .ok call := by
  obtain ⟨d, hd⟩ := Option.isSome_iff_exists.mp hmapped
  simp only [withRouteAuth, hd] at h
  split at h
  · cases h
  · next sess hsess =>
    split at h
    · cases h
    · cases h
    · next hallow => exact ⟨sess, d, hsess, hd, hallow, Fold.mapError_ok h⟩

/-- The value that a handler reads where the path has a parameter. -/
theorem param_string {h : Handler} {param : String} (hd : Distinct h.request)
    (hchecked : h.Checked param) (hparam : param ≠ "" ∧ param ≠ "-") {f : StructField}
    (hf : h.param? param = some f) {r : Request} {req : Struct}
    (hbind : bindRequest r h.request = .ok req) :
    req.string f.Name = (r.override f).getD (r.URLParam param) := by
  obtain ⟨htype, huri, hform⟩ := hchecked f hf
  have hvalue := bindRequest_string hd (List.mem_of_find?_eq_some hf) htype hparam huri hform hbind
  rw [Struct.string, hvalue]

theorem untouched_iff {h : Handler} {param : String} {f : StructField}
    (hf : h.param? param = some f) (r : Request) :
    (r.override f).getD (r.URLParam param) = r.URLParam param ↔ h.Untouched r param := by
  unfold Handler.Untouched
  rw [hf]
  cases hover : r.override f with
  | none => simp [hover]
  | some v => simp [hover]

/-- Whoever reaches the aggregate through a route that names an app has a session under which the
route is allowed on the app and environment of the path; the call acts on these exactly when neither
the query nor the body has put another value over one of them. -/
theorem serve_scope_iff {auth : Auth} {route : Route} (hroute : route ∈ appRoutes) {r : Request}
    {call : Call} (h : route.serve auth r = .ok call) :
    (∃ (sess : Session) (d : ObjectDef), authorizeRequest auth r = some sess ∧
      defMapping.lookup (route.method ++ chiPatternToAuthPattern route.pattern) = some d ∧
      auth.Enforce sess.Account (domainFromParams (r.URLParam "appId") (r.URLParam "env"))
        d.object d.act = .ok true) ∧
    (call.scope = route.pathScope r ↔ route.handler.ScopeUntouched r) := by
  obtain ⟨sess, d, hsess, hd, hallow, hserve⟩ := withRouteAuth_ok (appRoutes_mapped route hroute) h
  refine ⟨⟨sess, d, hsess, hd, hallow⟩, ?_⟩
  obtain ⟨req, hbind, hcall⟩ := Fold.bind_eq_ok hserve
  cases hcall
  obtain ⟨hd, happId, henv⟩ := appRoutes_checked route hroute
  obtain ⟨app, happ, hscope⟩ := appRoutes_actsOnParams route hroute
  have hparts := appRoutes_parts route hroute
  have happValue := param_string hd happId (by decide) happ hbind
  rw [hscope, Route.pathScope, Prod.mk.injEq, happValue, untouched_iff happ]
  refine and_congr_right fun _ => ?_
  cases hparam : route.handler.param? "env" with
  | none =>
    rw [if_neg (by simp [hparts, hparam])]
    simp [Handler.Untouched, hparam]
  | some env =>
    rw [if_pos (by simp [hparts, hparam])]
    have henvValue := param_string hd henv (by decide) hparam hbind
    rw [Option.map_some, Option.some_inj, henvValue, untouched_iff hparam]

/-! ## A request that leaves its scope -/

def publishRoute : Route :=
  ⟨"POST", "/api/apps/{appId}/envs/{env}/elements/{key}/publish", PublishAppEnvElementHTTP⟩

theorem publishRoute_mem : publishRoute ∈ appRoutes :=
  List.mem_of_getElem? (rfl : appRoutes[13]? = some publishRoute)

/-- Bob is allowed on the environment `e` of the app `a`, and nowhere else. -/
def ownerAuth : Auth where
  parseSession s := if s = "bob" then some ⟨"bob", "salt", 10⟩ else none
  GetUser _ := some ⟨.NORMAL, "salt"⟩
  Enforce _ domain _ _ := .ok (domain = "a/e")
  now := 0

/-- `POST /api/apps/a/envs/e/elements/k/publish?version=1` with more query pairs. -/
def publishRequest (more : List (String × String)) : Request where
  session := "bob"
  URLParams := [("appId", "a"), ("env", "e"), ("key", "k")]
  query := ("version", "1") :: more
  body := .noBody

theorem ok_of_toOption {ε α : Type} {x : Except ε α} {a : α} (h : x.toOption = some a) :
    x = .ok a := by
  cases x with
  | error e => cases h
  | ok b => cases h; rfl

theorem publish_served :
    publishRoute.serve ownerAuth (publishRequest []) =
      .ok (.PublishElementVersion "a" "e" "k" 1) :=
  ok_of_toOption (by decide +kernel)

theorem serve_scope_iff_own :
    ((∃ (sess : Session) (d : ObjectDef), authorizeRequest ownerAuth (publishRequest []) = some sess ∧
      defMapping.lookup (publishRoute.method ++ chiPatternToAuthPattern publishRoute.pattern) =
        some d ∧
      ownerAuth.Enforce sess.Account (domainFromParams ((publishRequest []).URLParam "appId")
        ((publishRequest []).URLParam "env")) d.object d.act = .ok true) ∧
    (Call.scope (.PublishElementVersion "a" "e" "k" 1) = publishRoute.pathScope (publishRequest []) ↔
      publishRoute.handler.ScopeUntouched (publishRequest []))) :=
  serve_scope_iff publishRoute_mem publish_served

/-- With `app=b` in the query, Bob publishes in an app he is not allowed on. -/
theorem publish_leaves_scope :
    publishRoute.serve ownerAuth (publishRequest [("app", "b")]) =
      .ok (.PublishElementVersion "b" "e" "k" 1) ∧
    publishRoute.pathScope (publishRequest [("app", "b")]) = ("a", some "e") ∧
    ownerAuth.Enforce "bob" (domainFromParams "b" "e") "elem" "p" = .ok false ∧
    ¬ ∀ (auth : Auth) (route : Route), route ∈ appRoutes → ∀ (r : Request) (call : Call),
      route.serve auth r = .ok call → call.scope = route.pathScope r := by
  have hserve : publishRoute.serve ownerAuth (publishRequest [("app", "b")]) =
      .ok (.PublishElementVersion "b" "e" "k" 1) := ok_of_toOption (by decide +kernel)
  have hpath : publishRoute.pathScope (publishRequest [("app", "b")]) = ("a", some "e") := by
    decide
  refine ⟨hserve, hpath, congrArg Except.ok (by decide), fun h => ?_⟩
  have hscope := h ownerAuth publishRoute publishRoute_mem _ _ hserve
  rw [hpath] at hscope
  exact absurd hscope (by decide)

end Cassem.Adm
