import Cassem.Lib.SortedMap
import Cassem.KV.Storage

/-!
# Commands, and the requests waiting for them

The data that `raftNodeImpl` puts into the log and sends to its watchers, and its
table of pending requests: a request registers a fresh id and a channel, and the
apply loop resolves the id of every command that it applies. The type `χ`
identifies acknowledgement channels.
-/

namespace Cassem.KV

open Lib

inductive MutateOp where
  | OP_UNKNOWN
  | SET
  | UNSET
  deriving DecidableEq, Repr

structure MutateCommand where
  requestId : Nat
  op : MutateOp
  key : String
  isDir : Bool
  value : Option Entity := none
  deriving DecidableEq, Repr

inductive LogAction where
  | UNKNOWN
  | Mutate
  deriving DecidableEq, Repr

/-- A decoded log entry; `command` is `none` when its bytes do not decode. -/
structure LogEntry where
  action : LogAction
  command : Option MutateCommand

inductive ChangeOp where
  | Set
  | Unset
  deriving DecidableEq, Repr

structure Change where
  op : ChangeOp
  key : String
  last : Option Entity
  current : Option Entity
  deriving DecidableEq, Repr

/-- A message on the change channel: the change under its key, or under the
topic of its parent directory. -/
inductive Notification where
  | kv (change : Change)
  | directory (change : Change) (specificTopic : String)
  deriving DecidableEq, Repr

/-- The fields of `raftNodeImpl` that requests and the apply loop share. `acks`
lists what has been sent on acknowledgement channels, `changeC` what has been
sent on the change channel. -/
structure RaftNode (χ : Type) where
  kvstore : Store := default
  pending : List (Nat × χ) := []
  nextRequestID : Nat := 0
  shuttingDown : Bool := false
  acks : List (χ × Option GoError) := []
  changeC : List Notification := []

def ErrShuttingDown : GoError := .text "raft node shutting down"

namespace RaftNode

variable {χ : Type}

/-- `registerPending`: the id and the node, or nothing on a node shutting down. The
counter is a `uint64`. -/
def registerPending (r : RaftNode χ) (ch : χ) : Option (Nat × RaftNode χ) :=
  if r.shuttingDown then none
  else
    let id := (r.nextRequestID + 1) % 2 ^ 64
    some (id, { r with nextRequestID := id, pending := SortedMap.insert id ch r.pending })

/-- The cleanup function that `registerPending` returns. -/
def cleanup (r : RaftNode χ) (id : Nat) : RaftNode χ :=
  { r with pending := SortedMap.erase id r.pending }

def resolvePending (r : RaftNode χ) (id : Nat) (err : Option GoError) : RaftNode χ :=
  if id = 0 then r
  else match SortedMap.lookup id r.pending with
    | none => r
    | some ch =>
        { r with pending := SortedMap.erase id r.pending, acks := r.acks ++ [(ch, err)] }

/-- The channel that resolving an id answers. -/
def resolved (r : RaftNode χ) (id : Nat) : Option χ :=
  if id = 0 then none else SortedMap.lookup id r.pending

def failAllPending (r : RaftNode χ) (err : GoError) : RaftNode χ :=
  { r with pending := [], acks := r.acks ++ r.pending.map fun e => (e.2, some err) }

def shutdown (r : RaftNode χ) : RaftNode χ :=
  if r.shuttingDown then r
  else failAllPending { r with shuttingDown := true } ErrShuttingDown

@[simp] theorem resolvePending_kvstore (r : RaftNode χ) (id : Nat) (err : Option GoError) :
    (r.resolvePending id err).kvstore = r.kvstore := by
  unfold resolvePending
  split
  · rfl
  · split <;> rfl

theorem resolvePending_withStore (r : RaftNode χ) (db : Store) (id : Nat) (err : Option GoError) :
    resolvePending { r with kvstore := db } id err =
      { r.resolvePending id err with kvstore := db } := by
  unfold resolvePending
  split
  · rfl
  · dsimp only
    split <;> rfl

theorem resolvePending_acks (r : RaftNode χ) (id : Nat) (err : Option GoError) :
    (r.resolvePending id err).acks = r.acks ++ (r.resolved id).toList.map fun ch => (ch, err) := by
  unfold resolvePending resolved
  split
  · simp
  · cases SortedMap.lookup id r.pending <;> simp

theorem lookup_of_resolvePending {r : RaftNode χ} {id id' : Nat} {err : Option GoError} {ch : χ}
    (h : SortedMap.lookup id' (r.resolvePending id err).pending = some ch) :
    SortedMap.lookup id' r.pending = some ch := by
  unfold resolvePending at h
  split at h
  · exact h
  · split at h
    · exact h
    · rw [SortedMap.lookup_erase] at h
      split at h
      · cases h
      · exact h

theorem resolvePending_counter (r : RaftNode χ) (id : Nat) (err : Option GoError) :
    (r.resolvePending id err).nextRequestID = r.nextRequestID := by
  unfold resolvePending
  split
  · rfl
  · split <;> rfl

end RaftNode

end Cassem.KV
