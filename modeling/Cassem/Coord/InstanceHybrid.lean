import Cassem.Agent.Dispatch
import Cassem.Coord.Compaction

/-!
# Instances in the store

An instance is stored under its id, and its id once more under each key that it watches, in the
directory of that key. Each operation is a sequence of requests to the KV service.
-/

namespace Cassem.Coord

open Lib Cassem.Concept
open Cassem.Agent (Watching InstanceID)

structure Instance where
  ClientId : String := ""
  AgentId : String := ""
  ClientIp : String := ""
  Watching : List Watching := []
  LastRenewTimestamp : Int := 0
  deriving DecidableEq, Repr

def Instance.insId (ins : Instance) : String := InstanceID ins.ClientId ins.ClientIp

/-! ## Keys -/

def insPrefix : String := "cassem/instances"

def GenInstanceNormalKey (insId : String) : String := joint [insPrefix, "normalized", insId]

def GenInstanceReversedKey (app env key : String) : String :=
  joint [insPrefix, "reversed", app ++ "@@@" ++ env ++ "@@@" ++ key]

def GenInstanceReversedKeyWithInsId (app env key insId : String) : String :=
  joint [insPrefix, "reversed", app ++ "@@@" ++ env ++ "@@@" ++ key, insId]

/-! ## The service -/

/-- The values that are stored: a marshalled instance, or an id. -/
inductive InsRecord where
  | detail (ins : Instance)
  | id (insId : String)
  deriving DecidableEq, Repr

/-- The bytes as a text. -/
def InsRecord.text : InsRecord → String
  | .id insId => insId
  | .detail _ => ""

/-- What the bytes are unmarshalled to, the error aside. -/
def InsRecord.instance : InsRecord → Instance
  | .detail ins => ins
  | .id _ => {}

inductive InsReq where
  | GetKV (key : String)
  | GetKVs (keys : List String)
  | Range (key seek : String) (limit : Nat)
  | SetKV (key : String) (ttl : Int) (val : InsRecord) (overwrite : Bool)
  | UnsetKV (key : String)
  deriving DecidableEq

structure InsPage where
  entities : List InsRecord
  hasMore : Bool
  nextSeekKey : String

abbrev InsReq.Resp : InsReq → Type
  | .GetKV _ => Except GoError InsRecord
  | .GetKVs _ => Except GoError (List InsRecord × List String)
  | .Range _ _ _ => Except GoError InsPage
  | .SetKV _ _ _ _ => Except GoError Unit
  | .UnsetKV _ => Except GoError Unit

/-- The records in the order of their keys. -/
abbrev InsRows := List (String × InsRecord)

/-- The records directly below a directory, in their order. -/
def below (rows : InsRows) (dir : String) : List (String × InsRecord) :=
  rows.filterMap fun e => (leafBelow dir e.1).map fun leaf => (leaf, e.2)

/-- The requests, where none fails and no record expires. -/
def serveIns (rows : InsRows) : (q : InsReq) → InsRows × q.Resp
  | .GetKV key =>
      (rows, match SortedMap.lookup key rows with
        | some val => .ok val
        | none => .error (.concept Err_NOT_FOUND))
  | .GetKVs keys =>
      (rows, .ok (keys.filterMap fun key => SortedMap.lookup key rows,
        keys.filter fun key => (SortedMap.lookup key rows).isNone))
  | .Range key seek limit =>
      let page := (below rows key).filter fun e => seek = "" || !(e.1 < seek : Bool)
      let rest := page.drop limit
      (rows, .ok
        { entities := (page.take limit).map (·.2)
          hasMore := rest ≠ []
          nextSeekKey := (rest.head?.map (·.1)).getD "" })
  | .SetKV key _ val overwrite =>
      if overwrite = false ∧ (SortedMap.lookup key rows).isSome = true then
        (rows, .error (.concept Err_ALREADY_EXISTS))
      else (SortedMap.insert key val rows, .ok ())
  | .UnsetKV key => (SortedMap.erase key rows, .ok ())

/-! ## The operations -/

abbrev InsCall (α : Type) := Program InsReq.Resp (Except GoError α)

structure GetInstancesResult where
  HasMore : Bool
  NextSeek : String
  Instances : List Instance

def GetInstancesByElement (app env key : String) : InsCall GetInstancesResult :=
  let k := GenInstanceReversedKey app env key
  .call (.Range k "" 100) fun
    | .error err => .done (.error (.errorf "instanceHybrid.GetInstances: " err))
    | .ok r =>
        if r.entities = [] then .done (.ok ⟨r.hasMore, r.nextSeekKey, []⟩)
        else
          let insIds := r.entities.map fun v => GenInstanceNormalKey v.text
          .call (.GetKVs insIds) fun
            | .error err => .done (.error (.errorf "instanceHybrid.GetInstances: " err))
            | .ok (entities, missing) =>
                match getKVsErrors missing true with
                | some err => .done (.error (.errorf "instanceHybrid.GetInstances.details: " err))
                | none => .done (.ok ⟨r.hasMore, r.nextSeekKey, entities.map InsRecord.instance⟩)

/-- The reversed keys of an instance, watching after watching. -/
def reversedKeys (insId : String) (ins : Instance) : List String :=
  ins.Watching.flatMap fun w => w.WatchKeys.map fun key =>
    GenInstanceReversedKeyWithInsId w.App w.Env key insId

/-- The loop over the reversed keys: an error does not end it. -/
def setReversed (insId : String) : List String → List GoError → InsCall Unit
  | [], reversedErrs =>
      .done (if reversedErrs = [] then .ok () else .error
        (.errorf "instanceHybrid.setInstanceInfo reversed index errors: " (.join reversedErrs)))
  | k2 :: rest, reversedErrs =>
      .call (.SetKV k2 120 (.id insId) true) fun
        | .ok () => setReversed insId rest reversedErrs
        | .error err => setReversed insId rest
            (reversedErrs ++ [.errorf ("set reversed key " ++ k2 ++ ": ") err])

def setInstanceInfo (ins : Instance) : InsCall Unit :=
  let k := GenInstanceNormalKey ins.insId
  .call (.SetKV k 120 (.detail ins) true) fun
    | .error err => .done (.error (.errorf "instanceHybrid.setInstanceInfo.normalized: " err))
    | .ok () => setReversed ins.insId (reversedKeys ins.insId ins) []

/-- The seconds of the zero time, which is not that of a timestamp 0. -/
def zeroTimeUnix : Int := -62135596800

def stamped (now : Int) (ins : Instance) : Instance :=
  if ins.LastRenewTimestamp = zeroTimeUnix then { ins with LastRenewTimestamp := now } else ins

def RegisterInstance (now : Int) (ins : Instance) : InsCall Unit :=
  .call (.GetKV (GenInstanceNormalKey ins.insId)) fun
    | .ok _ => .done (.error (.concept ⟨.alreadyExists, "instance has already been registered"⟩))
    | .error err =>
        if err.errorsIs (.concept Err_NOT_FOUND) then setInstanceInfo (stamped now ins)
        else .done (.error err)

def RenewInstance (ins : Instance) : InsCall Unit := setInstanceInfo ins

def unsetReversed : List String → List GoError → InsCall Unit
  | [], reversedErrs =>
      .done (if reversedErrs = [] then .ok () else .error
        (.errorf "instanceHybrid.UnregisterInstance reversed index errors: " (.join reversedErrs)))
  | k2 :: rest, reversedErrs =>
      .call (.UnsetKV k2) fun
        | .ok () => unsetReversed rest reversedErrs
        | .error err => unsetReversed rest
            (reversedErrs ++ [.errorf ("delete reversed key " ++ k2 ++ ": ") err])

def UnregisterInstance (insId : String) : InsCall Unit :=
  let k := GenInstanceNormalKey insId
  .call (.GetKV k) fun
    | .error err =>
        if err.errorsIs (.concept Err_NOT_FOUND) then .done (.ok ())
        else .done (.error (.errorf "instanceHybrid.UnregisterInstance: " err))
    | .ok (.id _) => .done (.error (.errorf "instanceHybrid.UnregisterInstance: "
        (.text "proto: cannot parse invalid wire-format data")))
    | .ok (.detail ins) =>
        .call (.UnsetKV k) fun
          | .error err =>
              .done (.error (.errorf "instanceHybrid.UnregisterInstance.normalized: " err))
          | .ok () => unsetReversed (reversedKeys insId ins) []

end Cassem.Coord
