import Cassem.Adm.RetentionGC
import Cassem.Adm.Route
import Cassem.Coord.Store
import Cassem.KV.Sequential
import Cassem.Lib.Protobuf

/-!
# Elements and apps in the storage

The records as they are marshalled under their keys, and what each operation on elements,
environments and apps makes of the storage when it runs alone.
-/

namespace Cassem.Coord

open Lib Lib.Protobuf Cassem.Concept
open Adm (AppMetadata)
open KV (Bytes Entity Store)

/-! ## Records and bytes -/

instance : Inhabited ElementMetadata := ⟨"", "", "", 0, 0, 0, "", 0⟩

instance : Inhabited Element := ⟨{ Raw := [], Version := 0, Published := false }⟩

instance : Inhabited ElementOperation := ⟨"", 0, "", .INVALID, 0, 0, ""⟩

instance : Inhabited AppMetadata := ⟨"", "", "", ""⟩

/-- The kinds of records. -/
inductive RecordKind where
  | metadata
  | element
  | operation
  deriving DecidableEq, Repr

def kindOf : Record → RecordKind
  | .metadata _ => .metadata
  | .element _ => .element
  | .operation _ => .operation

/-- What a client takes the value under a key for. -/
def kindAt (path : List String) : RecordKind :=
  if path[1]? = some "operations" then .operation
  else if path.getLast? = some "metadata" then .metadata
  else .element

/-- The marshalling of the messages that are stored. -/
structure Codecs where
  metadata : Codec ElementMetadata
  element : Codec Element
  operation : Codec ElementOperation
  app : Codec AppMetadata

namespace Codecs

variable (c : Codecs)

def marshal : Record → Bytes
  | .metadata md => c.metadata.marshal md
  | .element ele => c.element.marshal ele
  | .operation op => c.operation.marshal op

/-- Bytes that are no message of the kind are taken for a record of another kind, with which no
client goes on. -/
def unmarshal (val : Bytes) : RecordKind → Record
  | .metadata => ((c.metadata.unmarshal val).map .metadata).getD (.operation default)
  | .element => ((c.element.unmarshal val).map .element).getD (.operation default)
  | .operation => ((c.operation.unmarshal val).map .operation).getD (.metadata default)

theorem unmarshal_marshal (val : Record) : c.unmarshal (c.marshal val) (kindOf val) = val := by
  cases val with
  | metadata md => simp [unmarshal, marshal, kindOf, c.metadata.unmarshal_marshal]
  | element ele => simp [unmarshal, marshal, kindOf, c.element.unmarshal_marshal]
  | operation op => simp [unmarshal, marshal, kindOf, c.operation.unmarshal_marshal]

/-- The record in a cell, if it has a value. -/
def recordOf (kind : RecordKind) : Option (Cell Entity) → Option Record
  | some (.val e) => some (c.unmarshal e.val kind)
  | _ => none

theorem recordOf_eq_none {cell : Option (Cell Entity)} (h : ∀ e, cell ≠ some (.val e))
    (kind : RecordKind) : c.recordOf kind cell = none := by
  match cell, h with
  | none, _ => rfl
  | some .dir, _ => rfl
  | some (.val e), h => exact absurd rfl (h e)

theorem isSome_recordOf {cell : Option (Cell Entity)} (h : cell ≠ some .dir) (kind : RecordKind) :
    (c.recordOf kind cell).isSome = true ↔ cell ≠ none := by
  match cell, h with
  | none, _ => simp [recordOf]
  | some .dir, h => exact absurd rfl h
  | some (.val e), _ => simp [recordOf]

/-- What clients find under the keys of a store. -/
def records (store : Store) : KVState := fun key =>
  c.recordOf (kindAt (KV.keyPath key)) (store.look (KV.keyPath key))

end Codecs

/-! ## The KV service -/

/-- An error as it reaches the client, with its code. -/
def statusError (err : GoError) : GoError :=
  if err.errorsIs (.concept Err_NOT_FOUND) then .concept Err_NOT_FOUND
  else if err.errorsIs (.concept Err_ALREADY_EXISTS) then .concept Err_ALREADY_EXISTS
  else err

section Service

variable (c : Codecs) (md5 : Bytes → String) (clock : Nat → Int)

/-- The service on the storage. The first part of the state counts the requests; the n-th one is
served at `clock n`. -/
def serveStore : Nat × Store → (q : KVReq) → (Nat × Store) × q.Resp
  | (n, store), .GetKV key =>
      let r := KV.GetKV (clock n) store key
      ((n + 1, r.1), match r.2 with
        | .ok e => .ok (c.unmarshal e.val (kindAt (KV.keyPath key)))
        | .error err => .error (statusError err))
  | (n, store), .SetKV key val overwrite =>
      let r := KV.SetKV md5 (clock n) store ⟨key, false, 0, c.marshal val, overwrite, KV.int32_zero⟩
      ((n + 1, r.1), match r.2 with
        | none => .ok ()
        | some err => .error (statusError err))

/-! ## Operations -/

/-- What comes next, unless there was an error. -/
def whenDone (r : Store × Option GoError) (next : Store → Store × Option GoError) :
    Store × Option GoError :=
  match r with
  | (store, some err) => (store, some err)
  | (store, none) => next store

def deleteOperationPrefix (store : Store) (key : String) : Store × Option GoError :=
  match KV.UnsetKV store key true with
  | (store, some err) => (store, some (.errorf "kvWrite.deleteOperationPrefix: " err))
  | (store, none) => (store, none)

def GenAppKey (app : String) : String := joint ["cassem/apps", app]

def GenAppOperationKey (app : String) : String := joint ["cassem/operations", app]

def GenAppEnvOperationKey (app env : String) : String := joint ["cassem/operations", app, env]

def DeleteElement (store : Store) (n : ElementName) : Store × Option GoError :=
  whenDone (KV.UnsetKV store n.elementKey true) fun store =>
    deleteOperationPrefix store (GenElementOperationKeyPrefix n.app n.env n.key)

def CreateEnvironment (store : Store) (app env : String) : Store × Option GoError :=
  KV.SetKV md5 (clock 0) store
    ⟨Adm.Retention.GenAppElementEnvKey app env, true, 0, [], false, KV.int32_zero⟩

def DeleteEnvironment (store : Store) (app env : String) : Store × Option GoError :=
  whenDone (KV.UnsetKV store (Adm.Retention.GenAppElementEnvKey app env) true) fun store =>
    deleteOperationPrefix store (GenAppEnvOperationKey app env)

def CreateApp (store : Store) (md : AppMetadata) : Store × Option GoError :=
  KV.SetKV md5 (clock 0) store ⟨GenAppKey md.Id, false, 0, c.app.marshal md, false, KV.int32_zero⟩

def DeleteApp (store : Store) (appId : String) : Store × Option GoError :=
  whenDone (KV.UnsetKV store (Adm.Retention.GenAppElementKey appId) true) fun store =>
    whenDone (KV.UnsetKV store (GenAppKey appId) false) fun store =>
      deleteOperationPrefix store (GenAppOperationKey appId)

/-- The operations on elements, environments and apps. -/
inductive Operation where
  | element (n : ElementName) (call : Call)
  | deleteElement (n : ElementName)
  | createEnvironment (app env : String)
  | deleteEnvironment (app env : String)
  | createApp (md : AppMetadata)
  | deleteApp (appId : String)

/-- The names are those that the requests accept, and the time of an operation is an `int64`. -/
def Operation.Valid : Operation → Prop
  | .element n call => n.Valid ∧ -2 ^ 63 ≤ call.ctx.operatedAt ∧ call.ctx.operatedAt < 2 ^ 63
  | .deleteElement n => n.Valid
  | .createEnvironment app env | .deleteEnvironment app env =>
      Adm.isIdentifier app = true ∧ Adm.isIdentifier env = true
  | .createApp md => Adm.isIdentifier md.Id = true
  | .deleteApp appId => Adm.isIdentifier appId = true

/-- The store once the operation has come to its end, with whatever result. -/
def Operation.exec (store : Store) : Operation → Store
  | .element n call =>
      (Program.run (serveStore c md5 clock) (0, store) (call.program md5 n.app n.env n.key)).1.2
  | .deleteElement n => (DeleteElement store n).1
  | .createEnvironment app env => (CreateEnvironment md5 clock store app env).1
  | .deleteEnvironment app env => (DeleteEnvironment store app env).1
  | .createApp md => (CreateApp c md5 clock store md).1
  | .deleteApp appId => (DeleteApp store appId).1

/-- The stores that complete operations leave, one after another. -/
inductive Written : Store → Prop
  | empty : Written Tree.empty
  | operation {store : Store} (h : Written store) {op : Operation} (hop : op.Valid)
      (clock : Nat → Int) : Written (op.exec c md5 clock store)

end Service

/-! ## The messages as they are written -/

def text (s : String) : Value := .bytes (Utf8.encode s)

def metadataCodec : Codec ElementMetadata :=
  .ofValues
    (fun md => [(1, text md.Key), (2, text md.App), (3, text md.Env),
      (4, .number md.LatestVersion), (5, .number md.UnpublishedVersion),
      (6, .number md.UsingVersion), (7, text md.UsingFingerprint), (8, .number md.ContentType)])
    (fun wires => do
      return ⟨← textAt wires 1, ← textAt wires 2, ← textAt wires 3, ← numberAt wires 4,
        ← numberAt wires 5, ← numberAt wires 6, ← textAt wires 7, ← numberAt wires 8⟩)
    (by simp) (by simp)
    (fun md wires h => by
      simp only [List.forall_mem_cons] at h
      obtain ⟨h1, h2, h3, h4, h5, h6, h7, h8, -⟩ := h
      simp [textAt_eq h1, textAt_eq h2, textAt_eq h3, numberAt_eq h4, numberAt_eq h5,
        numberAt_eq h6, textAt_eq h7, numberAt_eq h8])
    rfl

def elementCodec : Codec Element :=
  .ofValues
    (fun ele => [(1, .message (ele.Metadata.map metadataCodec.marshal)), (2, .bytes ele.Raw),
      (3, .number ele.Version), (4, .number ele.Published.toInt)])
    (fun wires => do
      let md ← (← messageAt wires 1).mapM metadataCodec.unmarshal
      return { Raw := ← bytesAt wires 2, Version := ← numberAt wires 3,
               Published := (← numberAt wires 4) ≠ 0, Metadata := md })
    (by simp) (by simp)
    (fun ele wires h => by
      simp only [List.forall_mem_cons] at h
      obtain ⟨h1, h2, h3, h4, -⟩ := h
      obtain ⟨raw, version, published, md⟩ := ele
      rw [messageAt_eq h1, bytesAt_eq h2, numberAt_eq h3, numberAt_eq h4]
      cases md <;> cases published <;> simp [metadataCodec.unmarshal_marshal])
    rfl

def operationCodec : Codec ElementOperation :=
  .ofValues
    (fun op => [(1, text op.Operator), (2, .number op.OperatedAt), (3, text op.OperatedKey),
      (4, .number (match op.Op with
        | .INVALID => 0
        | .SET => 1
        | .UNSET => 2
        | .PUBLISH => 3)),
      (5, .number op.LastVersion), (6, .number op.CurrentVersion), (7, text op.Remark)])
    (fun wires => do
      let op : ElementOperation_Op := match ← numberAt wires 4 with
        | 1 => .SET
        | 2 => .UNSET
        | 3 => .PUBLISH
        | _ => .INVALID
      return ⟨← textAt wires 1, ← numberAt wires 2, ← textAt wires 3, op, ← numberAt wires 5,
        ← numberAt wires 6, ← textAt wires 7⟩)
    (by simp) (by simp)
    (fun op wires h => by
      simp only [List.forall_mem_cons] at h
      obtain ⟨h1, h2, h3, h4, h5, h6, h7, -⟩ := h
      obtain ⟨operator, operatedAt, operatedKey, op, lastVersion, currentVersion, remark⟩ := op
      rw [textAt_eq h1, numberAt_eq h2, textAt_eq h3, numberAt_eq h4, numberAt_eq h5,
        numberAt_eq h6, textAt_eq h7]
      cases op <;> rfl)
    rfl

def appCodec : Codec AppMetadata :=
  .ofValues
    (fun md => [(1, text md.Id), (2, text md.Description), (4, text md.Creator),
      (5, text md.Owner)])
    (fun wires => do
      return ⟨← textAt wires 1, ← textAt wires 2, ← textAt wires 4, ← textAt wires 5⟩)
    (by simp) (by simp)
    (fun md wires h => by
      simp only [List.forall_mem_cons] at h
      obtain ⟨h1, h2, h4, h5, -⟩ := h
      simp [textAt_eq h1, textAt_eq h2, textAt_eq h4, textAt_eq h5])
    rfl

def codecs : Codecs := ⟨metadataCodec, elementCodec, operationCodec, appCodec⟩

end Cassem.Coord
