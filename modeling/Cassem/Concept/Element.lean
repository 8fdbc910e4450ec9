import Cassem.Concept.Error
import Cassem.KV.Entity

/-!
# The records of an element

What the coordinator keeps of an element: its metadata, one record for each of its
versions, and one for each operation on it.
-/

namespace Cassem.Concept

open KV (Bytes)

def ContentType_value : List (String × Int) :=
  [("UNKNOWN", 0), ("JSON", 1), ("TOML", 2), ("INI", 3), ("PLAINTEXT", 4)]

/-- `OperatorFromContext`, of the account the context was given. -/
def OperatorFromContext (operator : Option String) : String :=
  match operator with
  | none => "system"
  | some account => if account = "" then "system" else account

structure ElementMetadata where
  Key : String
  App : String
  Env : String
  LatestVersion : Int
  UnpublishedVersion : Int
  UsingVersion : Int
  UsingFingerprint : String
  ContentType : Int
  deriving DecidableEq, Repr

structure Element where
  Raw : Bytes
  Version : Int
  Published : Bool
  Metadata : Option ElementMetadata := none
  deriving DecidableEq, Repr

inductive ElementOperation_Op where
  | INVALID
  | SET
  | UNSET
  | PUBLISH
  deriving DecidableEq, Repr

structure ElementOperation where
  Operator : String
  OperatedAt : Int
  OperatedKey : String
  Op : ElementOperation_Op
  LastVersion : Int
  CurrentVersion : Int
  Remark : String
  deriving DecidableEq, Repr

/-- A record as it is stored, of one of the three kinds. -/
inductive Record where
  | metadata (md : ElementMetadata)
  | element (ele : Element)
  | operation (op : ElementOperation)
  deriving DecidableEq, Repr

/-- What ends a call early: an error that it returns, or a panic. -/
inductive Fault where
  | error (err : GoError)
  | panic (msg : String)
  deriving Repr

end Cassem.Concept
