import Mathlib.Data.List.Basic
import Mathlib.Logic.Function.Basic
import Cassem.Concept.Element

/-!
# Binding a request to a struct

`bindRequest` fills a request struct by reflection three times over, from the path
parameters (tag `uri`), from the query (tag `form`) and from a JSON body (by field
name), and then validates it. A struct type is the list of its fields, those of an
anonymous struct in its place; a struct is what each field holds. Path parameters,
query pairs and the JSON value are as chi, `net/url` and `encoding/json` parse them.
-/

namespace Cassem.Adm

open Cassem.Concept

/-! ## Struct types and values -/

inductive Kind where
  | string
  | int (bits : Nat)
  | uint (bits : Nat)
  | strings
  | uints (bits : Nat)
  | contentTypeParam
  deriving DecidableEq, Repr

inductive Value where
  | string (s : String)
  | number (n : Int)
  | strings (l : List String)
  | numbers (l : List Int)
  deriving DecidableEq, Repr

/-- The rules of a `binding` tag. -/
inductive Rule where
  | required
  | identifier
  | oneof (allowed : List Int)
  | omitempty
  | dive
  deriving DecidableEq, Repr

structure StructField where
  Name : String
  type : Kind
  uri : String := ""
  form : String := ""
  json : String := ""
  binding : List Rule := []
  deriving DecidableEq, Repr

inductive TagName where
  | uri
  | form
  deriving DecidableEq, Repr

def StructField.Get (f : StructField) : TagName → String
  | .uri => f.uri
  | .form => f.form

def Kind.zero : Kind → Value
  | .string => .string ""
  | .int _ | .uint _ | .contentTypeParam => .number 0
  | .strings => .strings []
  | .uints _ => .numbers []

abbrev Struct := String → Value

def newStruct (fields : List StructField) : Struct := fun name =>
  match fields.find? (·.Name = name) with
  | some f => f.type.zero
  | none => .string ""

namespace Struct

def string (obj : Struct) (name : String) : String :=
  match obj name with
  | .string s => s
  | _ => ""

def number (obj : Struct) (name : String) : Int :=
  match obj name with
  | .number n => n
  | _ => 0

def strings (obj : Struct) (name : String) : List String :=
  match obj name with
  | .strings l => l
  | _ => []

end Struct

/-! ## Requests -/

/-- `url.Values`; a key is present when it has a value. -/
abbrev Values := String → List String

def Values.Set (values : Values) (key value : String) : Values :=
  Function.update values key [value]

def Values.Add (values : Values) (key value : String) : Values :=
  Function.update values key (values key ++ [value])

inductive JSON where
  | null
  | bool (b : Bool)
  | number (literal : String)
  | string (s : String)
  | array (items : List JSON)
  | object (members : List (String × JSON))

inductive Body where
  | noBody
  | eof
  | malformed
  | json (v : JSON)

structure Request where
  session : String
  URLParams : List (String × String)
  query : List (String × String)
  body : Body

def lastUnder (key : String) (pairs : List (String × String)) : Option String :=
  (pairs.filterMap fun kv => if kv.1 = key then some kv.2 else none).getLast?

/-- `r.URL.Query()`. -/
def Request.Query (r : Request) : Values :=
  r.query.foldl (fun values kv => values.Add kv.1 kv.2) fun _ => []

/-- `chi.URLParam`: the last value under the key. -/
def Request.URLParam (r : Request) (key : String) : String :=
  (lastUnder key r.URLParams).getD ""

inductive BindError where
  | bind (field : String)
  | json
  | validation (fields : List String)
  deriving DecidableEq, Repr

/-! ## Scalars -/

def decimal? (digits : List Char) : Option Nat :=
  if digits ≠ [] ∧ digits.all Char.isDigit then
    some (digits.foldl (fun n c => 10 * n + (c.toNat - '0'.toNat)) 0)
  else none

/-- `strconv.ParseUint(s, 10, bits)`. -/
def ParseUint (s : String) (bits : Nat) : Option Int :=
  (decimal? s.toList).bind fun n => if n < 2 ^ bits then some n else none

/-- `strconv.ParseInt(s, 10, bits)`. -/
def ParseInt (s : String) (bits : Nat) : Option Int :=
  match s.toList with
  | '-' :: digits =>
      (decimal? digits).bind fun n => if n ≤ 2 ^ (bits - 1) then some (-n) else none
  | '+' :: digits => (decimal? digits).bind fun n => if n < 2 ^ (bits - 1) then some n else none
  | digits => (decimal? digits).bind fun n => if n < 2 ^ (bits - 1) then some n else none

/-! ## Path parameters and query -/

/-- The name and the `default=` of a `uri` or `form` tag. -/
def parseBindTag (tag : String) : String × String :=
  match (tag.toList.splitOn ',').map String.ofList with
  | [] => ("", "")
  | name :: parts =>
      (name, parts.foldl (fun defaultValue part =>
        if "default=".toList.isPrefixOf part.toList then
          String.ofList (part.toList.drop "default=".length)
        else defaultValue) "")

def setScalarValue : Kind → String → Option Value
  | .string, value => some (.string value)
  | .int bits, value => (ParseInt value bits).map .number
  | .uint bits, value => (ParseUint value bits).map .number
  | .contentTypeParam, value => (ParseInt value 32).map .number
  | .strings, _ | .uints _, _ => none

def setFieldValue (kind : Kind) (values : List String) : Option Value :=
  match kind with
  | .strings => some (.strings values)
  | .uints bits => (values.mapM fun item => ParseUint item bits).map .numbers
  | kind => setScalarValue kind (values.getLast?.getD "")

/-- The values a field is set from: those under the name of its tag, else the default. -/
def rawValues (values : Values) (tag : String) : List String :=
  let (name, defaultValue) := parseBindTag tag
  if name = "" ∨ name = "-" then []
  else if values name = [] ∧ defaultValue ≠ "" then [defaultValue]
  else values name

def bindField (values : Values) (tagName : TagName) (obj : Struct) (f : StructField) :
    Except BindError Struct :=
  match rawValues values (f.Get tagName) with
  | [] => .ok obj
  | raw =>
      match setFieldValue f.type raw with
      | some v => .ok (Function.update obj f.Name v)
      | none => .error (.bind f.Name)

def bindStructValue (fields : List StructField) (values : Values) (tagName : TagName)
    (obj : Struct) : Except BindError Struct :=
  fields.foldlM (bindField values tagName) obj

def bindRequestURIParams (r : Request) (fields : List StructField) (obj : Struct) :
    Except BindError Struct :=
  let values : Values := r.URLParams.foldl (fun values kv => values.Set kv.1 kv.2) fun _ => []
  bindStructValue fields values .uri obj

/-! ## JSON -/

/-- The smallest rune that `unicode.SimpleFold` reaches. Runes that fold to no ASCII
letter are left alone: field names are ASCII. -/
def foldRune (c : Char) : Char :=
  if 'a' ≤ c ∧ c ≤ 'z' then c.toUpper
  else if c.toNat = 0x212A then 'K'
  else if c.toNat = 0x017F then 'S'
  else c

def foldName (name : String) : List Char := name.toList.map foldRune

/-- The name `encoding/json` looks for. -/
def StructField.jsonName (f : StructField) : String := if f.json = "" then f.Name else f.json

def findField (fields : List StructField) (key : String) : Option StructField :=
  (fields.find? (·.jsonName = key)).or
    (fields.find? fun f => foldName f.jsonName = foldName key)

/-- `unicode.ToUpper`, which also takes dotless i and long s to ASCII letters. -/
def toUpperRune (c : Char) : Char :=
  if c.toNat = 0x0131 then 'I' else if c.toNat = 0x017F then 'S' else c.toUpper

/-- The `UnmarshalJSON` of `contentTypeParam`. -/
def unmarshalContentType : JSON → Option Value
  | .null => some (.number 0)
  | .number literal => (ParseInt literal 32).map .number
  | .string name =>
      (ContentType_value.lookup (String.ofList (name.toList.map toUpperRune))).map .number
  | _ => none

/-- Decodes the items of an array over the cells of the slice. -/
def decodeItems {α : Type} (item : JSON → Option α) (zero : α) :
    List JSON → List α → Option (List α)
  | [], _ => some []
  | .null :: items, held => (decodeItems item zero items held.tail).map (held.headD zero :: ·)
  | v :: items, held =>
      (item v).bind fun x => (decodeItems item zero items held.tail).map (x :: ·)

def JSON.string? : JSON → Option String
  | .string s => some s
  | _ => none

def JSON.uint? (bits : Nat) : JSON → Option Int
  | .number literal => ParseUint literal bits
  | _ => none

/-- The value of a field after decoding into it. Of a slice, `held` has all the cells, those beyond
its length with them: decoding an array makes them part of it again. -/
def decodeValue (kind : Kind) (v : JSON) (held : Value) : Option Value :=
  match kind, v with
  | .contentTypeParam, v => unmarshalContentType v
  | .strings, .null => some (.strings [])
  | .uints _, .null => some (.numbers [])
  | _, .null => some held
  | .string, .string s => some (.string s)
  | .int bits, .number literal => (ParseInt literal bits).map .number
  | .uint bits, .number literal => (ParseUint literal bits).map .number
  | .strings, .array items =>
      let heldItems := match held with
        | .strings l => l
        | _ => []
      (decodeItems JSON.string? "" items heldItems).map .strings
  | .uints bits, .array items =>
      let heldItems := match held with
        | .numbers l => l
        | _ => []
      (decodeItems (JSON.uint? bits) 0 items heldItems).map .numbers
  | _, _ => none

/-- The cells after decoding. An array without items gets cells of its own. -/
def heldCells : (held v : Value) → Value
  | .strings held, .strings (s :: l) => .strings (s :: l ++ held.drop (l.length + 1))
  | .numbers held, .numbers (n :: l) => .numbers (n :: l ++ held.drop (l.length + 1))
  | _, v => v

/-- The object, and in `cells` what the cells of its slices hold. -/
structure Decoding where
  obj : Struct
  cells : Struct

def Decoding.set (d : Decoding) (name : String) (v : Value) : Decoding where
  obj := Function.update d.obj name v
  cells := Function.update d.cells name (heldCells (d.cells name) v)

theorem Decoding.obj_set (d : Decoding) (name : String) (v : Value) :
    (d.set name v).obj = Function.update d.obj name v := rfl

theorem Decoding.cells_set (d : Decoding) (name : String) (v : Value) :
    (d.set name v).cells = Function.update d.cells name (heldCells (d.cells name) v) := rfl

def decodeMember (fields : List StructField) (d : Decoding) (member : String × JSON) :
    Except BindError Decoding :=
  match findField fields member.1 with
  | none => .ok d
  | some f =>
      match decodeValue f.type member.2 (d.cells f.Name) with
      | some v => .ok (d.set f.Name v)
      | none => .error .json

def bindRequestJSON (r : Request) (fields : List StructField) (obj : Struct) :
    Except BindError Struct :=
  match r.body with
  | .noBody | .eof => .ok obj
  | .malformed => .error .json
  | .json .null => .ok obj
  | .json (.object members) => (members.foldlM (decodeMember fields) ⟨obj, obj⟩).map (·.obj)
  | .json _ => .error .json

/-! ## Validation -/

/-- The pattern `^[A-Za-z0-9][A-Za-z0-9_-]*$`. -/
def isIdentifier (value : String) : Bool :=
  match value.toList with
  | [] => false
  | c :: cs => c.isAlphanum && cs.all fun c => c.isAlphanum || c = '_' || c = '-'

def Value.hasValue : Value → Bool
  | .string s => s ≠ ""
  | .number n => n ≠ 0
  | .strings l => l ≠ []
  | .numbers l => l ≠ []

def checkRules : List Rule → Value → Bool
  | [], _ => true
  | .required :: rules, v => v.hasValue && checkRules rules v
  | .omitempty :: rules, v => !v.hasValue || checkRules rules v
  | .identifier :: rules, .string s => isIdentifier s && checkRules rules (.string s)
  | .oneof allowed :: rules, .number n => allowed.contains n && checkRules rules (.number n)
  | .dive :: rules, .strings l => l.all fun s => checkRules rules (.string s)
  | _, _ => false

/-- `requestValidator.Struct`, with the names of the fields that fail. -/
def validateStruct (fields : List StructField) (obj : Struct) : Except BindError Unit :=
  match fields.filter fun f => !checkRules f.binding (obj f.Name) with
  | [] => .ok ()
  | failed => .error (.validation (failed.map StructField.Name))

def bindRequest (r : Request) (fields : List StructField) : Except BindError Struct := do
  let obj ← bindRequestURIParams r fields (newStruct fields)
  let obj ← bindStructValue fields r.Query .form obj
  let obj ← bindRequestJSON r fields obj
  validateStruct fields obj
  return obj

end Cassem.Adm
