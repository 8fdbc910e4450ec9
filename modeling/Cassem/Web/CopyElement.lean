import Cassem.Adm.Route
import Cassem.Coord.ValueLimit

/-!
# Copying an element

`CopyEnvDialog` copies an element of one environment to another: it asks for the element, and posts
what it was given. The content goes through the encodings of JSON on its way. What is given is the
document that the storage has, and what is posted makes a document of the same content and type, if
the content is a text.
-/

namespace Cassem.Web

open Lib Cassem.Concept
open Adm (JSON Body)
open Coord (Codecs Ctx Journal ElementName Document GetElementWithVersion serveLimited)
open KV (Bytes)

/-! ## Elements in JSON -/

structure Metadata where
  key : String
  usingVersion : Int
  contentType : JSON

structure Element where
  metadata : Option Metadata
  raw : String

/-- An enumeration is written by name, or as a number that has none. -/
def contentTypeJSON (contentType : Int) : JSON :=
  match ContentType_value.find? (·.2 = contentType) with
  | some value => .string value.1
  | none => .number (toString contentType)

def rawJSON (raw : Bytes) : String := Utf8.ascii (Base64.encodeStd raw)

def elementJSON (ele : Concept.Element) : Element where
  metadata := ele.Metadata.map fun md => ⟨md.Key, md.UsingVersion, contentTypeJSON md.ContentType⟩
  raw := rawJSON ele.Raw

/-- `TextDecoder`, which takes a byte order mark off. -/
def decodeText (bs : Bytes) : Option String :=
  Utf8.decode (if [0xEF, 0xBB, 0xBF] <+: bs then bs.drop 3 else bs)

def decodeRaw (raw : String) : String :=
  if raw = "" then ""
  else ((Base64.decodeForgiving (Utf8.encode raw)).bind decodeText).getD raw

def contentTypes : List (Int × String) := [(1, "JSON"), (2, "TOML"), (3, "INI"), (4, "PLAINTEXT")]

def normalizeContentType : JSON → JSON
  | .number literal => .number literal
  | .string label =>
      match contentTypes.find? (·.2 = String.ofList (label.toList.map Char.toUpper)) with
      | some option => .number (toString option.1)
      | none => .string label
  | _ => .number "1"

/-- Without metadata this throws. -/
def isElementEmpty (element : Element) : Option Bool :=
  element.metadata.map fun md => md.usingVersion = 0 || element.raw = ""

/-! ## The copy of one element -/

/-- What a request throws. -/
inductive Failure where
  | api (message : String)
  | other

inductive CopyResultStatus where
  | success
  | skipped
  | failed
  deriving DecidableEq, Repr

structure CopyResult where
  key : String
  status : CopyResultStatus
  message : Option String := none
  messageKey : Option String := none
  deriving DecidableEq, Repr

inductive EmptyElementStrategy where
  | skip
  | copy
  deriving DecidableEq, Repr

inductive ApiRequest where
  | requestElement (appId env key : String)
  | createElement (appId env key : String) (element : Element)

abbrev ApiRequest.Answer : ApiRequest → Type
  | .requestElement _ _ _ => Except Failure Element
  | .createElement _ _ _ _ => Except Failure Unit

def failedResult (key : String) : Failure → CopyResult
  | .api message => { key := key, status := .failed, message := some message }
  | .other =>
      { key := key, status := .failed, message := some ""
        messageKey := some "management.copy.elementFailed" }

/-- What is to be copied where. -/
structure CopyTask where
  appId : String
  sourceEnv : String
  targetEnv : String
  emptyStrategy : EmptyElementStrategy

/-- The result once the element was posted, or was not. -/
def postResult (key : String) : Except Failure Unit → CopyResult
  | .error err => failedResult key err
  | .ok () => { key := key, status := .success }

/-- What is done with an element that was given. -/
def copyDetail (task : CopyTask) (key : String) (detail : Element) :
    Program ApiRequest.Answer CopyResult :=
  match isElementEmpty detail with
  | none => .done (failedResult key .other)
  | some empty =>
      if empty = true ∧ task.emptyStrategy = .skip then
        .done { key := key, status := .skipped, messageKey := some "management.copy.emptySkipped" }
      else
        .call (.createElement task.appId task.targetEnv key detail) fun r =>
          .done (postResult key r)

def copyElement (task : CopyTask) (key : String) : Program ApiRequest.Answer CopyResult :=
  .call (.requestElement task.appId task.sourceEnv key) fun
    | .error err => .done (failedResult key err)
    | .ok detail => copyDetail task key detail

/-! ## The server -/

def elementRequest (session appId env key : String) (body : Body) : Adm.Request where
  session := session
  URLParams := [("appId", appId), ("env", env), ("key", key)]
  query := []
  body := body

def createBody (element : Element) : Body :=
  .json (.object
    [("raw", .string (decodeRaw element.raw)),
      ("contentType",
        (element.metadata.map (·.contentType)).elim (.number "1") normalizeContentType)])

section Server

variable (c : Codecs) (md5 : Bytes → String) (violation : Bytes → String)

/-- The handler of the route, with what the aggregate answers; errors are answered as such. -/
def getElement (ops : Journal) (session operator appId env key : String) (clock : Nat → Int) :
    Option Element :=
  match Adm.GetAppEnvElementHTTP.ServeHTTP operator
      (elementRequest session appId env key .noBody) with
  | .ok (.GetElementWithVersion app env key version) =>
      match (Program.run (serveLimited c md5 violation clock) (0, ops.storeLimited c md5 violation)
          (GetElementWithVersion app env key version)).2 with
      | .ok ele => some (elementJSON ele)
      | .error _ => none
  | _ => none

/-- What is written is written in one go, at a time of its own. -/
def postElement (ops : Journal) (session operator appId env key : String) (element : Element)
    (ctx : Ctx) (clock : Nat → Int) : Journal × Bool :=
  match Adm.CreateAppEnvElementHTTP.ServeHTTP operator
      (elementRequest session appId env key (createBody element)) with
  | .ok (.CreateElement app env key raw contentType) =>
      if h : app = "" ∨ env = "" ∨ key = "" then (ops, false)
      else
        let call : Coord.Call := ⟨.create (Utf8.encode raw) contentType, ctx⟩
        (ops ++ [(.element ⟨app, env, key, h⟩ call, clock)],
          (Program.run (serveLimited c md5 violation clock) (0, ops.storeLimited c md5 violation)
            (call.program md5 app env key)).2.isOk)
  | _ => (ops, false)

end Server

/-- The admin server, and the keys whose requests went wrong on the way. -/
structure Server where
  ops : Journal
  lost : List String := []

/-- An answer to a request. The server carries out one operation after another, each whole, at a
time of its own, and with records that are within the limit. A request may be lost, or its answer
once it was carried out. -/
inductive Serves (c : Codecs) (md5 : Bytes → String) (violation : Bytes → String) (s : Server) :
    (q : ApiRequest) → q.Answer → Server → Prop
  | got {appId env key session operator : String} {clock : Nat → Int} {element : Element}
      (h : getElement c md5 violation s.ops session operator appId env key clock = some element) :
      Serves c md5 violation s (.requestElement appId env key) (.ok element) s
  | notGot {appId env key session operator : String} {clock : Nat → Int} (message : String)
      (h : getElement c md5 violation s.ops session operator appId env key clock = none) :
      Serves c md5 violation s (.requestElement appId env key) (.error (.api message)) s
  | getLost {appId env key : String} (err : Failure) :
      Serves c md5 violation s (.requestElement appId env key) (.error err)
        { s with lost := key :: s.lost }
  | posted {appId env key session operator : String} {element : Element} {ctx : Ctx}
      {clock : Nat → Int} {ops : Journal} (hctx : ctx.Fits)
      (hfree : ∀ n, ctx.operatedAt ∉ s.ops.recordTimes n) (hwithin : ops.Within c md5)
      (h : postElement c md5 violation s.ops session operator appId env key element ctx clock =
        (ops, true)) :
      Serves c md5 violation s (.createElement appId env key element) (.ok ()) { s with ops := ops }
  | notPosted {appId env key session operator : String} {element : Element} {ctx : Ctx}
      {clock : Nat → Int} {ops : Journal} (message : String) (hctx : ctx.Fits)
      (hfree : ∀ n, ctx.operatedAt ∉ s.ops.recordTimes n) (hwithin : ops.Within c md5)
      (h : postElement c md5 violation s.ops session operator appId env key element ctx clock =
        (ops, false)) :
      Serves c md5 violation s (.createElement appId env key element) (.error (.api message))
        { s with ops := ops }
  | postLost {appId env key : String} {element : Element} (err : Failure) :
      Serves c md5 violation s (.createElement appId env key element) (.error err)
        { s with lost := key :: s.lost }
  | answerLost {appId env key session operator : String} {element : Element} {ctx : Ctx}
      {clock : Nat → Int} {ops : Journal} {done : Bool} (err : Failure) (hctx : ctx.Fits)
      (hfree : ∀ n, ctx.operatedAt ∉ s.ops.recordTimes n) (hwithin : ops.Within c md5)
      (h : postElement c md5 violation s.ops session operator appId env key element ctx clock =
        (ops, done)) :
      Serves c md5 violation s (.createElement appId env key element) (.error err)
        { ops := ops, lost := key :: s.lost }

/-- The operation may change the elements of the environment. -/
def Touches (appId env : String) : Coord.Operation → Prop
  | .element n _ | .deleteElement n => n.app = appId ∧ n.env = env
  | .deleteEnvironment app env' => app = appId ∧ env' = env
  | .deleteApp app => app = appId
  | _ => False

/-- What others do on the server, outside the environment and within the limit, each operation
whole. -/
inductive Others (c : Codecs) (md5 : Bytes → String) (appId env : String) (s : Server) :
    Server → Prop
  | operation {op : Coord.Operation} (hop : op.Valid) (hwithin : op.Within c md5 s.ops.shelf)
      (hspare : ¬ Touches appId env op) (clock : Nat → Int) :
      Others c md5 appId env s { s with ops := s.ops ++ [(op, clock)] }

/-! ## What the server binds -/

theorem bindRequestURIParams_element (session appId env key : String) (body : Body)
    (more : List Adm.StructField) (hmore : ∀ f ∈ more, f.uri = "") (obj : Adm.Struct) :
    Adm.bindRequestURIParams (elementRequest session appId env key body)
        (Adm.commonAppEnvEltRequest ++ more) obj =
      .ok (Function.update (Function.update (Function.update obj "AppId" (.string appId)) "Env"
        (.string env)) "ElementKey" (.string key)) := by
  have happ : Adm.parseBindTag "appId" = ("appId", "") := by decide
  have henv : Adm.parseBindTag "env" = ("env", "") := by decide
  have hkey : Adm.parseBindTag "key" = ("key", "") := by decide
  have hempty : Adm.parseBindTag "" = ("", "") := by decide
  have hrest : ∀ (values : Adm.Values) (obj : Adm.Struct),
      more.foldlM (Adm.bindField values .uri) obj = .ok obj := by
    intro values obj
    induction more with
    | nil => rfl
    | cons f more ih =>
      have hf : Adm.bindField values .uri obj f = .ok obj := by
        simp [Adm.bindField, Adm.rawValues, Adm.StructField.Get, hmore f List.mem_cons_self, hempty]
      rw [List.foldlM_cons, hf]
      exact ih fun f hf => hmore f (List.mem_cons_of_mem _ hf)
  unfold Adm.bindRequestURIParams Adm.bindStructValue
  rw [List.foldlM_append]
  simp [Adm.commonAppEnvEltRequest, Adm.bindField, Adm.rawValues, Adm.StructField.Get, happ, henv,
    hkey, elementRequest, Adm.Values.Set, Adm.setFieldValue, Adm.setScalarValue, hrest,
    Function.update]
  rfl

theorem validateStruct_ok_iff {fields : List Adm.StructField} {obj : Adm.Struct} :
    Adm.validateStruct fields obj = .ok () ↔
      ∀ f ∈ fields, Adm.checkRules f.binding (obj f.Name) = true := by
  have hnil : (fields.filter fun f => !Adm.checkRules f.binding (obj f.Name)) = [] ↔
      ∀ f ∈ fields, Adm.checkRules f.binding (obj f.Name) = true := by
    simp [List.filter_eq_nil_iff]
  rw [← hnil, Adm.validateStruct]
  split
  · next h => exact iff_of_true rfl h
  · next hne => exact iff_of_false (fun h => by cases h) (hne ·)

/-- Nothing is bound from an empty query, where there are no defaults. -/
theorem bindStructValue_nil (fields : List Adm.StructField) (tagName : Adm.TagName)
    (hdefault : ∀ f ∈ fields, (Adm.parseBindTag (f.Get tagName)).2 = "") (obj : Adm.Struct) :
    Adm.bindStructValue fields (fun _ => []) tagName obj = .ok obj := by
  unfold Adm.bindStructValue
  induction fields with
  | nil => rfl
  | cons f fields ih =>
    have hf : Adm.bindField (fun _ => []) tagName obj f = .ok obj := by
      simp [Adm.bindField, Adm.rawValues, hdefault f List.mem_cons_self]
    rw [List.foldlM_cons, hf]
    exact ih fun f hf => hdefault f (List.mem_cons_of_mem _ hf)

/-- The struct once the path is bound. -/
def boundPath (fields : List Adm.StructField) (appId env key : String) : Adm.Struct :=
  Function.update (Function.update (Function.update (Adm.newStruct fields) "AppId" (.string appId))
    "Env" (.string env)) "ElementKey" (.string key)

theorem bindRequest_element (session appId env key : String) (body : Body)
    (more : List Adm.StructField) (hmore : ∀ f ∈ more, f.uri = "")
    (hdefault : ∀ f ∈ Adm.commonAppEnvEltRequest ++ more,
      (Adm.parseBindTag (f.Get .form)).2 = "") :
    Adm.bindRequest (elementRequest session appId env key body)
        (Adm.commonAppEnvEltRequest ++ more) =
      (Adm.bindRequestJSON (elementRequest session appId env key body)
        (Adm.commonAppEnvEltRequest ++ more)
        (boundPath (Adm.commonAppEnvEltRequest ++ more) appId env key)).bind fun obj =>
          (Adm.validateStruct (Adm.commonAppEnvEltRequest ++ more) obj).map fun _ => obj := by
  unfold Adm.bindRequest
  rw [bindRequestURIParams_element session appId env key body more hmore]
  have hquery : (elementRequest session appId env key body).Query = fun _ => [] := rfl
  rw [hquery]
  show (Adm.bindStructValue _ _ _ _ >>= _) = _
  rw [bindStructValue_nil _ _ hdefault]
  show (Adm.bindRequestJSON _ _ _ >>= _) = _
  rw [boundPath]
  cases Adm.bindRequestJSON (elementRequest session appId env key body)
    (Adm.commonAppEnvEltRequest ++ more) _ with
  | error err => rfl
  | ok obj =>
    show (Adm.validateStruct _ obj >>= _) = (Adm.validateStruct _ obj).map _
    cases Adm.validateStruct (Adm.commonAppEnvEltRequest ++ more) obj <;> rfl

section Bound

variable {appId env key : String} (happ : Adm.isIdentifier appId = true)
  (henv : Adm.isIdentifier env = true) (hkey : Adm.isIdentifier key = true)
include happ henv hkey

theorem GetAppEnvElementHTTP_bound (operator session : String) :
    Adm.GetAppEnvElementHTTP.ServeHTTP operator (elementRequest session appId env key .noBody) =
      .ok (.GetElementWithVersion appId env key 0) := by
  have happ' := Coord.isIdentifier_ne_empty happ
  have henv' := Coord.isIdentifier_ne_empty henv
  have hkey' := Coord.isIdentifier_ne_empty hkey
  have hbound := bindRequest_element session appId env key .noBody
    [{ Name := "Version", type := .uint 64, form := "version" }] (by decide) (by decide)
  have hrequest : Adm.GetAppEnvElementHTTP.request = Adm.commonAppEnvEltRequest ++
      [{ Name := "Version", type := .uint 64, form := "version" }] := rfl
  unfold Adm.Handler.ServeHTTP
  rw [hrequest, hbound]
  simp [Adm.bindRequestJSON, elementRequest, Except.bind, Adm.validateStruct,
    Adm.commonAppEnvEltRequest, boundPath, Adm.checkRules, Adm.Value.hasValue, happ, henv, hkey,
    happ', henv', hkey', Function.update, Except.map, bind, pure, Except.pure,
    Adm.GetAppEnvElementHTTP, Adm.Struct.string, Adm.Struct.number, Adm.newStruct, Adm.Kind.zero]

/-- The content type that a request ends up with, if it can be read. -/
def contentTypeOf (v : JSON) : Option Int :=
  match Adm.unmarshalContentType v with
  | some (.number n) => some n
  | _ => none

omit happ henv hkey in
theorem unmarshalContentType_eq (v : JSON) :
    Adm.unmarshalContentType v = (contentTypeOf v).map .number := by
  have hnumber : ∀ n : Option Int, n.map Adm.Value.number =
      (match n.map Adm.Value.number with
        | some (.number n) => some n
        | _ => none).map .number := by
    intro n
    cases n <;> rfl
  unfold contentTypeOf Adm.unmarshalContentType
  split <;> first | rfl | exact hnumber _

omit happ henv hkey in
theorem contentTypeOf_number (literal : String) :
    contentTypeOf (.number literal) = Adm.ParseInt literal 32 :=
  (Option.map_injective (fun _ _ h => Adm.Value.number.inj h)
    (unmarshalContentType_eq (.number literal))).symm

theorem CreateAppEnvElementHTTP_bound (operator session text : String) (contentType : JSON) :
    (Adm.CreateAppEnvElementHTTP.ServeHTTP operator (elementRequest session appId env key
        (.json (.object [("raw", .string text), ("contentType", contentType)])))).toOption =
      (contentTypeOf contentType).bind fun n =>
        if text ≠ "" ∧ n ∈ [1, 2, 3, 4] then some (.CreateElement appId env key text n)
        else none := by
  have happ' := Coord.isIdentifier_ne_empty happ
  have henv' := Coord.isIdentifier_ne_empty henv
  have hkey' := Coord.isIdentifier_ne_empty hkey
  have hbound := bindRequest_element session appId env key
    (.json (.object [("raw", .string text), ("contentType", contentType)]))
    [{ Name := "Raw", type := .string, json := "raw", binding := [.required] },
      { Name := "ContentType", type := .contentTypeParam, json := "contentType",
        binding := [.required, .oneof [1, 2, 3, 4]] }] (by decide) (by decide)
  have hrequest : Adm.CreateAppEnvElementHTTP.request = Adm.createAppEnvElementReq := rfl
  have hfields : Adm.createAppEnvElementReq = Adm.commonAppEnvEltRequest ++
      [{ Name := "Raw", type := .string, json := "raw", binding := [.required] },
        { Name := "ContentType", type := .contentTypeParam, json := "contentType",
          binding := [.required, .oneof [1, 2, 3, 4]] }] := rfl
  have hraw : Adm.findField Adm.createAppEnvElementReq "raw" =
      some { Name := "Raw", type := .string, json := "raw", binding := [.required] } := by
    decide
  have htype : Adm.findField Adm.createAppEnvElementReq "contentType" =
      some { Name := "ContentType", type := .contentTypeParam, json := "contentType",
             binding := [.required, .oneof [1, 2, 3, 4]] } := by
    decide
  rw [← hfields] at hbound
  have hjson : Adm.bindRequestJSON (elementRequest session appId env key
      (.json (.object [("raw", .string text), ("contentType", contentType)])))
      Adm.createAppEnvElementReq (boundPath Adm.createAppEnvElementReq appId env key) =
        ((contentTypeOf contentType).map fun n =>
          Except.ok (Function.update (Function.update
            (boundPath Adm.createAppEnvElementReq appId env key) "Raw" (.string text))
            "ContentType" (.number n))).getD (.error .json) := by
    have hvalue : ∀ held, Adm.decodeValue .contentTypeParam contentType held =
        (contentTypeOf contentType).map .number := fun _ => unmarshalContentType_eq contentType
    show ([("raw", JSON.string text), ("contentType", contentType)].foldlM
      (Adm.decodeMember Adm.createAppEnvElementReq) _).map _ = _
    simp only [List.foldlM_cons, List.foldlM_nil, Adm.decodeMember, hraw, htype, hvalue]
    cases contentTypeOf contentType <;> rfl
  unfold Adm.Handler.ServeHTTP
  rw [hrequest, hbound, hjson]
  cases contentTypeOf contentType with
  | none => rfl
  | some n =>
    rw [Option.map_some, Option.getD_some, Option.bind_some]
    generalize hobj : Function.update (Function.update
      (boundPath Adm.createAppEnvElementReq appId env key) "Raw" (Adm.Value.string text))
      "ContentType" (Adm.Value.number n) = obj
    have happId : obj "AppId" = .string appId := by rw [← hobj]; rfl
    have henvId : obj "Env" = .string env := by rw [← hobj]; rfl
    have helement : obj "ElementKey" = .string key := by rw [← hobj]; rfl
    have hrawValue : obj "Raw" = .string text := by rw [← hobj]; rfl
    have htypeValue : obj "ContentType" = .number n := by rw [← hobj]; rfl
    have hvalid : Adm.validateStruct Adm.createAppEnvElementReq obj = .ok () ↔
        text ≠ "" ∧ n ∈ [1, 2, 3, 4] := by
      rw [validateStruct_ok_iff]
      simp only [Adm.createAppEnvElementReq, Adm.commonAppEnvEltRequest, List.cons_append,
        List.nil_append, List.forall_mem_cons, happId, henvId, helement, hrawValue, htypeValue]
      simp [Adm.checkRules, Adm.Value.hasValue, happ, henv, hkey, happ', henv', hkey']
      omega
    show ((Except.ok obj >>= fun obj => (Adm.validateStruct Adm.createAppEnvElementReq obj).map
      fun _ => obj) >>= fun req => Except.ok (Adm.CreateAppEnvElementHTTP.call operator req)).toOption
        = _
    have hcall : Adm.CreateAppEnvElementHTTP.call operator obj =
        .CreateElement appId env key text n := by
      simp [Adm.CreateAppEnvElementHTTP, Adm.Struct.string, Adm.Struct.number, happId, henvId,
        helement, hrawValue, htypeValue]
    by_cases hok : text ≠ "" ∧ n ∈ [1, 2, 3, 4]
    · rw [if_pos hok, ← hcall]
      show ((Adm.validateStruct Adm.createAppEnvElementReq obj).map _ >>= _).toOption = _
      rw [hvalid.mpr hok]
      rfl
    · rw [if_neg hok]
      show ((Adm.validateStruct Adm.createAppEnvElementReq obj).map _ >>= _).toOption = _
      cases hvalidate : Adm.validateStruct Adm.createAppEnvElementReq obj with
      | error err => rfl
      | ok _ => exact absurd (hvalid.mp hvalidate) hok

end Bound

/-! ## What arrives of an element -/

/-- The text that is posted for a content. -/
def copiedText (raw : Bytes) : String := decodeRaw (rawJSON raw)

theorem rawJSON_eq_empty {raw : Bytes} : rawJSON raw = "" ↔ raw = [] := by
  constructor
  · intro h
    have hbytes := congrArg Utf8.encode h
    rw [rawJSON, Utf8.encode_ascii fun b hb => Base64.encodeStd_lt hb] at hbytes
    have hdecoded := Base64.decodeForgiving_encodeStd raw
    rw [hbytes] at hdecoded
    exact (Option.some.inj hdecoded).symm
  · rintro rfl
    rfl

/-- A content arrives as it was exactly if it is a text that has no byte order mark. Other contents
arrive as the text of their encoding, and a mark is lost. -/
theorem copied_unchanged_iff (raw : Bytes) : Utf8.encode (copiedText raw) = raw ↔
    (∃ text, Utf8.encode text = raw) ∧ ¬ [0xEF, 0xBB, 0xBF] <+: raw := by
  by_cases hempty : raw = []
  · subst hempty
    exact iff_of_true rfl ⟨⟨"", rfl⟩, by decide⟩
  have hascii : Utf8.encode (rawJSON raw) = Base64.encodeStd raw :=
    Utf8.encode_ascii fun b hb => Base64.encodeStd_lt hb
  have hcopied : copiedText raw = (decodeText raw).getD (rawJSON raw) := by
    have hne : rawJSON raw ≠ "" := fun h => hempty (rawJSON_eq_empty.mp h)
    rw [copiedText, decodeRaw, if_neg hne, hascii, Base64.decodeForgiving_encodeStd, Option.bind_some]
  rw [hcopied]
  by_cases hmark : [0xEF, 0xBB, 0xBF] <+: raw
  · refine iff_of_false (fun heq => ?_) fun h => h.2 hmark
    cases htext : decodeText raw with
    | some text =>
      rw [htext, Option.getD_some] at heq
      rw [decodeText, if_pos hmark] at htext
      have hlen := congrArg List.length ((Utf8.decode_eq_some.mp htext).symm.trans heq)
      have hle := hmark.length_le
      rw [List.length_drop] at hlen
      simp only [List.length_cons, List.length_nil] at hle
      omega
    | none =>
      rw [htext, Option.getD_none, hascii] at heq
      exact absurd (Base64.encodeStd_lt (heq ▸ hmark.subset List.mem_cons_self)) (by decide)
  · have hplain : decodeText raw = Utf8.decode raw := by rw [decodeText, if_neg hmark]
    rw [hplain]
    constructor
    · intro heq
      exact ⟨⟨_, heq⟩, hmark⟩
    · rintro ⟨⟨text, rfl⟩, -⟩
      rw [Utf8.decode_encode, Option.getD_some]

theorem parseInt_toString {bits : Nat} {t n : Int} (h : Adm.ParseInt (toString t) bits = some n) :
    n = t := by
  have hdigits : ∀ k, Adm.decimal? (Nat.toDigits 10 k) = some k := Decimal.parseDigits_toDigits
  unfold Adm.ParseInt at h
  rw [Coord.toList_decimal] at h
  by_cases hneg : t < 0
  · rw [if_pos hneg] at h
    have hmatch : (Adm.decimal? (Nat.toDigits 10 t.natAbs)).bind (fun n =>
        if n ≤ 2 ^ (bits - 1) then some (-(n : Int)) else none) = some n := h
    rw [hdigits, Option.bind_some] at hmatch
    split at hmatch
    · cases hmatch
      omega
    · cases hmatch
  · rw [if_neg hneg, List.nil_append] at h
    split at h
    · next heq => exact absurd (heq ▸ List.mem_cons_self) (Decimal.not_mem_toDigits (by decide) _)
    · next heq => exact absurd (heq ▸ List.mem_cons_self) (Decimal.not_mem_toDigits (by decide) _)
    · rw [hdigits, Option.bind_some] at h
      split at h
      · cases h
        omega
      · cases h

/-- A content type survives, if it has a name among the options; others are refused. -/
theorem contentTypeOf_copied (contentType : Int) :
    (contentType ∈ [1, 2, 3, 4] →
      contentTypeOf (normalizeContentType (contentTypeJSON contentType)) = some contentType) ∧
    ∀ n, contentTypeOf (normalizeContentType (contentTypeJSON contentType)) = some n →
      n = contentType := by
  by_cases hnamed : contentType ∈ [0, 1, 2, 3, 4]
  · have hall : ∀ contentType ∈ ([0, 1, 2, 3, 4] : List Int), (contentType ∈ [1, 2, 3, 4] →
        contentTypeOf (normalizeContentType (contentTypeJSON contentType)) = some contentType) ∧
        contentTypeOf (normalizeContentType (contentTypeJSON contentType)) = some contentType := by
      decide
    refine ⟨(hall contentType hnamed).1, fun n hn => ?_⟩
    rw [(hall contentType hnamed).2] at hn
    exact (Option.some.inj hn).symm
  · have hnumber : contentTypeJSON contentType = .number (toString contentType) := by
      have hnone : ContentType_value.find? (·.2 = contentType) = none := by
        rw [List.find?_eq_none]
        intro value hvalue heq
        refine hnamed (of_decide_eq_true heq ▸ ?_)
        have hnames : ∀ value ∈ ContentType_value, value.2 ∈ ([0, 1, 2, 3, 4] : List Int) := by
          decide
        exact hnames value hvalue
      rw [contentTypeJSON, hnone]
    rw [hnumber]
    refine ⟨fun hmem => absurd (List.mem_cons_of_mem 0 hmem) hnamed, fun n hn => ?_⟩
    have hliteral : contentTypeOf (.number (toString contentType)) = some n := hn
    rw [contentTypeOf_number] at hliteral
    exact parseInt_toString hliteral

/-! ## What comes of a request -/

/-- The document of an element, by the parts of its name. -/
def documentAt (ops : Journal) (appId env key : String) : Option Document :=
  if h : appId = "" ∨ env = "" ∨ key = "" then none else ops.shelf ⟨appId, env, key, h⟩

theorem documentAt_eq (ops : Journal) (n : ElementName) :
    documentAt ops n.app n.env n.key = ops.shelf n := dif_neg n.nonempty

/-- The content in use, if there is any. -/
def rawInUse (d : Document) : Bytes := ((d.revision? d.inUse).map (·.raw)).getD []

def documentEmpty (d : Document) : Bool := d.inUse = 0 || rawInUse d = []

/-- What the server makes of the copy of an element. -/
def copyOf (d : Document) : Option Document :=
  if copiedText (rawInUse d) ≠ "" ∧ d.contentType ∈ [1, 2, 3, 4] then
    some (Document.create (Utf8.encode (copiedText (rawInUse d))) d.contentType)
  else none

section Requests

variable {c : Codecs} {md5 : Bytes → String} {violation : Bytes → String} {ops : Journal}
  (hops : ops.Accepted c md5) {n : ElementName} (hn : n.Valid) (session operator : String)
  (clock : Nat → Int)

/-- The element that is given of a document. -/
def detailOf (key : String) (d : Document) : Element where
  metadata := some ⟨key, d.inUse, contentTypeJSON d.contentType⟩
  raw := rawJSON (rawInUse d)

theorem isElementEmpty_detailOf (key : String) (d : Document) :
    isElementEmpty (detailOf key d) = some (documentEmpty d) := by
  simp [isElementEmpty, detailOf, documentEmpty, rawJSON_eq_empty]

include hops hn in
theorem getElement_eq : getElement c md5 violation ops session operator n.app n.env n.key clock =
    (ops.shelf n).map (detailOf n.key) := by
  obtain ⟨served, hrun⟩ := Coord.read_limited (Coord.keeps_limited c md5 violation hops) hn
    (by decide : (0 : Int) < 2 ^ 63) clock
  unfold getElement
  rw [GetAppEnvElementHTTP_bound hn.app hn.env hn.key]
  dsimp only
  rw [hrun]
  cases ops.shelf n with
  | none => rfl
  | some d =>
    have hversion : d.readVersion 0 = d.inUse := rfl
    dsimp only
    rw [Document.read, hversion]
    by_cases hzero : d.inUse = 0
    · rw [if_pos hzero]
      simp [elementJSON, detailOf, rawInUse, hzero, Document.metadata]
    · obtain ⟨r, hr⟩ := Document.exists_revision_iff.mpr ⟨Nat.pos_of_ne_zero hzero, d.inUse_le⟩
      rw [if_neg hzero, hr]
      simp [elementJSON, detailOf, rawInUse, hr, Document.metadata, Document.element]

theorem CreateAppEnvElementHTTP_copied (hn : n.Valid) (key : String) (d : Document) :
    (Adm.CreateAppEnvElementHTTP.ServeHTTP operator
        (elementRequest session n.app n.env n.key (createBody (detailOf key d)))).toOption =
      if copiedText (rawInUse d) ≠ "" ∧ d.contentType ∈ [1, 2, 3, 4] then
        some (.CreateElement n.app n.env n.key (copiedText (rawInUse d)) d.contentType)
      else none := by
  have hbody : createBody (detailOf key d) = .json (.object
      [("raw", .string (copiedText (rawInUse d))),
        ("contentType", normalizeContentType (contentTypeJSON d.contentType))]) := rfl
  rw [hbody, CreateAppEnvElementHTTP_bound hn.app hn.env hn.key]
  obtain ⟨hnamed, honly⟩ := contentTypeOf_copied d.contentType
  by_cases hmem : d.contentType ∈ [1, 2, 3, 4]
  · rw [hnamed hmem, Option.bind_some]
  · rw [if_neg fun h => hmem h.2]
    cases htype : contentTypeOf (normalizeContentType (contentTypeJSON d.contentType)) with
    | none => rfl
    | some k =>
      rw [Option.bind_some, honly k htype, if_neg fun h => hmem h.2]

/-- What is posted of a document is one call, if the content is a text and the type one of those
offered. -/
theorem postElement_copied (hn : n.Valid) (ctx : Ctx) (key : String) (d : Document) :
    postElement c md5 violation ops session operator n.app n.env n.key (detailOf key d) ctx clock =
      if copiedText (rawInUse d) ≠ "" ∧ d.contentType ∈ [1, 2, 3, 4] then
        (ops ++ [(.element n ⟨.create (Utf8.encode (copiedText (rawInUse d))) d.contentType, ctx⟩,
            clock)],
          (Program.run (serveLimited c md5 violation clock) (0, ops.storeLimited c md5 violation)
            (Coord.Call.program md5 n.app n.env n.key
              ⟨.create (Utf8.encode (copiedText (rawInUse d))) d.contentType, ctx⟩)).2.isOk)
      else (ops, false) := by
  have hbound := CreateAppEnvElementHTTP_copied session operator hn key d
  unfold postElement
  by_cases hok : copiedText (rawInUse d) ≠ "" ∧ d.contentType ∈ [1, 2, 3, 4]
  · rw [if_pos hok] at hbound
    have hcall : Adm.CreateAppEnvElementHTTP.ServeHTTP operator
        (elementRequest session n.app n.env n.key (createBody (detailOf key d))) =
          .ok (.CreateElement n.app n.env n.key (copiedText (rawInUse d)) d.contentType) := by
      cases hserve : Adm.CreateAppEnvElementHTTP.ServeHTTP operator
          (elementRequest session n.app n.env n.key (createBody (detailOf key d))) with
      | error err =>
        rw [hserve] at hbound
        cases hbound
      | ok call =>
        rw [hserve] at hbound
        exact congrArg _ (Option.some.inj hbound)
    rw [hcall, if_pos hok]
    dsimp only
    rw [dif_neg n.nonempty]
  · rw [if_neg hok] at hbound
    rw [if_neg hok]
    cases hserve : Adm.CreateAppEnvElementHTTP.ServeHTTP operator
        (elementRequest session n.app n.env n.key (createBody (detailOf key d))) with
    | error err => rfl
    | ok call =>
      rw [hserve] at hbound
      cases hbound

/-- It makes a copy of the document where nothing stands yet. -/
theorem postElement_eq (hops : ops.Accepted c md5) (hn : n.Valid) {ctx : Ctx} (hctx : ctx.Fits)
    (hfree : ctx.operatedAt ∉ ops.recordTimes n) (key : String) (d : Document)
    (hwithin : Journal.Within c md5 (postElement c md5 violation ops session operator n.app n.env
      n.key (detailOf key d) ctx clock).1) :
    ∃ ops', postElement c md5 violation ops session operator n.app n.env n.key (detailOf key d) ctx
        clock = (ops', (copyOf d).isSome && (ops.shelf n).isNone) ∧
      ((copyOf d = none ∧ ops' = ops) ∨ ∃ raw contentType, copyOf d = some (.create raw contentType) ∧
        ops' = ops ++ [(.element n ⟨.create raw contentType, ctx⟩, clock)]) := by
  rw [postElement_copied session operator clock hn ctx key d] at hwithin ⊢
  unfold copyOf
  by_cases hok : copiedText (rawInUse d) ≠ "" ∧ d.contentType ∈ [1, 2, 3, 4]
  · rw [if_pos hok] at hwithin
    rw [if_pos hok, if_pos hok]
    refine ⟨_, Prod.ext rfl ?_, Or.inr ⟨_, _, rfl, rfl⟩⟩
    have hctx' : (⟨.create (Utf8.encode (copiedText (rawInUse d))) d.contentType, ctx⟩ :
        Coord.Call).ctx.Fits := hctx
    have hsucceeds : ∀ {r : Except Fault (Option Concept.Element)},
        r.isOk = true ↔ ∃ res, r = .ok res := by
      intro r
      cases r <;> simp [Except.isOk, Except.toBool]
    rw [Bool.eq_iff_iff]
    refine (hsucceeds.trans (Coord.call_limited_iff (Coord.keeps_limited c md5 violation hops) hn
      hctx' hfree (hwithin ops _ List.prefix_rfl) clock)).trans ?_
    cases ops.shelf n <;> simp [Document.apply]
  · rw [if_neg hok, if_neg hok]
    exact ⟨ops, rfl, Or.inl ⟨rfl, rfl⟩⟩

end Requests

end Cassem.Web
