import Cassem.Concept.ElementKey
import Cassem.Lib.Program

/-!
# Writing an element

The write operations of `kvWriteOnly` on one element, as programs over the KV service:
each reads what it needs, and then makes a series of writes that ends with a record of
the operation. Nothing ties the reads and writes of one call together.
-/

namespace Cassem.Coord

open Lib Cassem.Concept
open KV (Bytes int32)

/-! ## The KV service -/

inductive KVReq where
  | GetKV (key : String)
  | SetKV (key : String) (val : Record) (overwrite : Bool)

abbrev KVReq.Resp : KVReq → Type
  | .GetKV _ => Except GoError Record
  | .SetKV _ _ _ => Except GoError Unit

abbrev KVState := String → Option Record

def serveKV (kv : KVState) : (q : KVReq) → KVState × q.Resp
  | .GetKV key =>
      (kv, match kv key with
        | some val => .ok val
        | none => .error (.concept Err_NOT_FOUND))
  | .SetKV key val overwrite =>
      if overwrite = false ∧ (kv key).isSome = true then
        (kv, .error (.concept Err_ALREADY_EXISTS))
      else (Function.update kv key (some val), .ok ())

/-- What a client of the KV service does, up to an error or a panic. -/
abbrev KVCall (α : Type) := ExceptT Fault (Program KVReq.Resp) α

def getKV (key : String) : KVCall Record :=
  ExceptT.mk (.call (.GetKV key) fun r => .done (r.mapError .error))

def saveRaw (key : String) (val : Record) (overwrite : Bool) : KVCall Unit :=
  ExceptT.mk (.call (.SetKV key val overwrite) fun r =>
    .done (r.mapError fun err => .error (.errorf "kvWrite.saveRaw: " err)))

/-! ## The operations -/

/-- The context of a call, and the time at which it records its operation. -/
structure Ctx where
  operator : Option String
  operatedAt : Int
  deriving DecidableEq, Repr

def errUnmarshal : Fault := .error (.text "proto: cannot parse invalid wire-format data")

def getElementWithoutMetadata (key : String) (version : Nat) : KVCall Element := do
  if version = 0 then
    throw (.error (.errorf "version could not be 0: " (.concept Err_INVALID_ARGUMENT)))
  match ← getKV (← WithVersion key version) with
  | .element ele => return ele
  | _ => throw errUnmarshal

def getElementMetadata (key : String) : KVCall ElementMetadata := do
  match ← getKV (WithMetadataSuffix key) with
  | .metadata md => return md
  | _ => throw errUnmarshal

def saveElementOperation (ctx : Ctx) (app env key : String) (op : ElementOperation_Op)
    (lastVersion currentVersion : Int) (remark : String) : KVCall Unit :=
  saveRaw (GenElementOperationKey app env key ctx.operatedAt)
    (.operation
      { Operator := OperatorFromContext ctx.operator, OperatedAt := ctx.operatedAt
        OperatedKey := key, Op := op, LastVersion := lastVersion
        CurrentVersion := currentVersion, Remark := remark })
    false

def CreateElement (ctx : Ctx) (app env key : String) (raw : Bytes) (contentTyp : Int) :
    KVCall Unit := do
  let k ← GenElementKey app env key
  let version : Int := 1
  let md : ElementMetadata :=
    { Key := key, App := app, Env := env, LatestVersion := version
      UnpublishedVersion := version, UsingVersion := 0, UsingFingerprint := ""
      ContentType := contentTyp }
  saveRaw (WithMetadataSuffix k) (.metadata md) false
  let ele : Element := { Raw := raw, Version := version, Published := false }
  saveRaw (← WithVersion k version) (.element ele) false
  saveElementOperation ctx app env key .SET 0 version ""

def UpdateElement (ctx : Ctx) (app env key : String) (raw : Bytes) : KVCall Unit := do
  let k ← GenElementKey app env key
  let md ← getElementMetadata k
  if md.UnpublishedVersion ≠ 0 then
    throw (.error (.errorf ("unpublished version: " ++ toString md.UnpublishedVersion ++ ": ")
      (.concept Err_ALREADY_EXISTS)))
  let lastVersion := md.LatestVersion
  let version := int32 (md.LatestVersion + 1)
  let md := { md with LatestVersion := version, UnpublishedVersion := version }
  let ele : Element := { Raw := raw, Version := version, Published := false }
  saveRaw (← WithVersion k version) (.element ele) false
  saveRaw (WithMetadataSuffix k) (.metadata md) true
  saveElementOperation ctx app env key .SET lastVersion version ""

/-- The `uint32` conversion of Go. -/
def uint32 (x : Int) : Nat := (x % 2 ^ 32).toNat

section Using

variable (md5 : Bytes → String)

def RollbackElementVersion (ctx : Ctx) (app env key : String) (rollbackVersion : UInt32) :
    KVCall Unit := do
  let k ← GenElementKey app env key
  let md ← getElementMetadata k
  let rollback ← getElementWithoutMetadata k rollbackVersion.toNat
  if md.UsingVersion ≤ int32 rollbackVersion.toNat then
    throw (.error (.errorf "rollback version lte using version: " (.concept Err_INVALID_ARGUMENT)))
  let lastUsingVersion := md.UsingVersion
  let md := { md with UsingVersion := rollback.Version, UsingFingerprint := md5 rollback.Raw }
  saveRaw (WithMetadataSuffix k) (.metadata md) true
  saveElementOperation ctx app env key .PUBLISH lastUsingVersion rollback.Version
    ("rollback to version " ++ toString rollbackVersion.toNat)

/-- The version that is published: the one named, or the unpublished one in place of 0. -/
def publishedVersion (md : ElementMetadata) (publishVersion : UInt32) : Nat :=
  if publishVersion = 0 ∧ md.UnpublishedVersion ≠ 0 then uint32 md.UnpublishedVersion
  else publishVersion.toNat

def PublishElementVersion (ctx : Ctx) (app env key : String) (publishVersion : UInt32) :
    KVCall (Option Element) := do
  let k ← GenElementKey app env key
  let md ← getElementMetadata k
  let publishVersion := publishedVersion md publishVersion
  if publishVersion = 0 then
    return none
  let publish ← getElementWithoutMetadata k publishVersion
  let lastUsingVersion := md.UsingVersion
  let md :=
    { md with
      UsingVersion := publish.Version, UsingFingerprint := md5 publish.Raw
      UnpublishedVersion := 0 }
  saveRaw (WithMetadataSuffix k) (.metadata md) true
  let publish := { publish with Published := true }
  saveRaw (← WithVersion k publishVersion) (.element publish) true
  let publish := { publish with Metadata := some md }
  saveElementOperation ctx app env key .PUBLISH lastUsingVersion publish.Version ""
  return some publish

/-! ## Calls -/

inductive Op where
  | create (raw : Bytes) (contentTyp : Int)
  | update (raw : Bytes)
  | publish (version : UInt32)
  | rollback (version : UInt32)
  deriving DecidableEq

structure Call where
  op : Op
  ctx : Ctx
  deriving DecidableEq

/-- A call on the element; what PublishElementVersion returns, and nothing of the others. -/
def Call.program (app env key : String) (c : Call) : KVCall (Option Element) :=
  match c.op with
  | .create raw contentTyp => do CreateElement c.ctx app env key raw contentTyp; return none
  | .update raw => do UpdateElement c.ctx app env key raw; return none
  | .publish version => PublishElementVersion md5 c.ctx app env key version
  | .rollback version => do
      RollbackElementVersion md5 c.ctx app env key version
      return none

end Using

end Cassem.Coord
