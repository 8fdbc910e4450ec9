import Mathlib.Logic.Function.Basic
import Cassem.KV.Apply

/-!
# The raft event loop

`serveChannels` takes one Ready batch at a time: it saves and announces a received
snapshot, hands the data of the committed entries to the apply goroutine over an
unbuffered channel, and may then save a snapshot of the store. Both goroutines of
every node run at their own pace. What raft commits is one log for all nodes, and a
snapshot that a node receives is one that some node has saved.
-/

namespace Cassem.KV.EventLoop

/-- An entry of the raft log: data, no data, or a configuration change with the node it
removes, if any. -/
inductive EntryType where
  | normal (data : Option LogEntry)
  | empty
  | confChange (removed : Option Nat)

structure Entry where
  Index : Nat
  type : EntryType

structure Snapshot where
  Index : Nat
  Data : Store

/-- Where the event loop stands. -/
inductive Loop where
  | select
  /-- Sending nil, with the committed entries of the batch still to come. -/
  | publishSnapshot (index : Nat) (ents : List Entry)
  | publish (data : List (Option LogEntry)) (last : Nat)
  /-- In `maybeTriggerSnapshot`, with the completion channel it was given. -/
  | trigger (applyDoneC : Option Nat)
  | stopped

/-- Where the apply goroutine stands. -/
inductive Applying where
  | receiving
  | loading
  | batch (rest : List (Option LogEntry))
  | failed

/-- A node. `disk` is the newest snapshot file, `handed` counts the batches sent to the
apply goroutine, each with a completion channel of that number, and `closed` the
channels that it has closed. -/
structure Node (χ : Type) where
  impl : RaftNode χ := {}
  loop : Loop := .select
  applying : Applying := .receiving
  appliedIndex : Nat := 0
  snapshotIndex : Nat := 0
  disk : Option Snapshot := none
  stopc : Bool := false
  handed : Nat := 0
  closed : Nat := 0

/-- `saved` lists every snapshot that `maybeTriggerSnapshot` has saved on some node. -/
structure System (χ : Type) where
  nodes : Nat → Node χ := fun _ => {}
  log : List EntryType := []
  saved : List Snapshot := []

variable {χ : Type}

/-! ## The event loop -/

/-- The part of the batch above `appliedIndex`, or nothing where the node gives up. -/
def entriesToApply (appliedIndex : Nat) (ents : List Entry) : Option (List Entry) :=
  match ents with
  | [] => some []
  | e :: _ =>
      let firstIdx := e.Index
      if (appliedIndex + 1) % 2 ^ 64 < firstIdx then none
      else
        let skip := (appliedIndex + 2 ^ 64 - firstIdx + 1) % 2 ^ 64
        if skip < ents.length then some (ents.drop skip) else some []

/-- The loop of `publishEntries`, on node `id`; nothing where the node is removed. -/
def entriesData (id : Nat) : List Entry → Option (List (Option LogEntry))
  | [] => some []
  | e :: ents =>
      match e.type with
      | .normal data => (entriesData id ents).map (data :: ·)
      | .empty => entriesData id ents
      | .confChange removed => if removed = some id then none else entriesData id ents

def Node.publishEntries (id : Nat) (n : Node χ) (ents : List Entry) : Node χ :=
  match entriesToApply n.appliedIndex ents with
  | none => { n with loop := .stopped }
  | some [] => { n with loop := .trigger none }
  | some (e :: es) =>
      let last := ((e :: es).getLast (List.cons_ne_nil e es)).Index
      match entriesData id (e :: es) with
      | none => { n with loop := .stopped }
      | some [] => { n with appliedIndex := last, loop := .trigger none }
      | some (d :: data) => { n with loop := .publish (d :: data) last }

/-- A Ready batch, up to the first send on the commit channel. -/
def Node.ready (id : Nat) (n : Node χ) (snapshot : Option Snapshot) (ents : List Entry) :
    Node χ :=
  match snapshot with
  | none => n.publishEntries id ents
  | some snap =>
      if snap.Index = 0 then n.publishEntries id ents
      else if snap.Index ≤ n.appliedIndex then { n with disk := some snap, loop := .stopped }
      else { n with disk := some snap, loop := .publishSnapshot snap.Index ents }

/-- The nil is taken: `publishSnapshot` returns and the batch goes on. -/
def Node.sendNil (id : Nat) (n : Node χ) : Option (Node χ) :=
  match n.loop, n.applying with
  | .publishSnapshot index ents, .receiving =>
      some (Node.publishEntries id
        { n with applying := .loading, snapshotIndex := index, appliedIndex := index } ents)
  | _, _ => none

/-- The commit is taken. -/
def Node.send (n : Node χ) : Option (Node χ) :=
  match n.loop, n.applying with
  | .publish data last, .receiving =>
      some { n with
        applying := .batch data, appliedIndex := last, handed := n.handed + 1
        loop := .trigger (some (n.handed + 1)) }
  | _, _ => none

def defaultSnapshotCount : Nat := 10000

/-- The comparison that `maybeTriggerSnapshot` starts with. -/
def Node.due (snapCount : Nat) (n : Node χ) : Bool :=
  let snapCount := if snapCount = 0 then defaultSnapshotCount else snapCount
  snapCount < (n.appliedIndex + 2 ^ 64 - n.snapshotIndex) % 2 ^ 64

def Node.doneClosed (n : Node χ) : Option Nat → Bool
  | none => true
  | some k => k ≤ n.closed

/-- `maybeTriggerSnapshot`, where it saves one. -/
def Node.save (snapCount : Nat) (n : Node χ) : Option (Node χ × Snapshot) :=
  match n.loop with
  | .trigger applyDoneC =>
      if n.due snapCount ∧ n.doneClosed applyDoneC then
        let snapshot : Snapshot := ⟨n.appliedIndex, n.impl.kvstore⟩
        some ({ n with
          disk := some snapshot, snapshotIndex := n.appliedIndex, loop := .select }, snapshot)
      else none
  | _ => none

/-- `maybeTriggerSnapshot`, where none is due or the node is stopping. -/
def Node.pass (snapCount : Nat) (n : Node χ) : Option (Node χ) :=
  match n.loop with
  | .trigger applyDoneC =>
      if n.due snapCount = false ∨ applyDoneC.isSome ∧ n.stopc then
        some { n with loop := .select }
      else none
  | _ => none

/-- The event loop ends, on `stopc` or on an error of the transport. -/
def Node.stop (n : Node χ) (transportError : Bool) : Option (Node χ) :=
  match n.loop with
  | .select => if n.stopc ∨ transportError then some { n with loop := .stopped } else none
  | .publish _ _ => if n.stopc then some { n with loop := .stopped } else none
  | _ => none

/-! ## The apply goroutine -/

/-- One entry of a batch, the end of a batch, or the loading of the newest snapshot. -/
def Node.apply (n : Node χ) : Option (Node χ) :=
  match n.applying with
  | .loading =>
      let impl := match n.disk with
        | none => n.impl
        | some snap => { n.impl with kvstore := snap.Data }
      some { n with impl := impl, applying := .receiving }
  | .batch [] => some { n with closed := n.closed + 1, applying := .receiving }
  | .batch (data :: rest) =>
      match applyCommitData n.impl data with
      | (impl, none) => some { n with impl := impl, applying := .batch rest }
      | (impl, some _) =>
          some { n with impl := impl, closed := n.closed + 1, applying := .failed }
  | .receiving | .failed => none

/-! ## The system -/

/-- The committed entries of the log from an index on. -/
def committed (log : List EntryType) (first : Nat) : Nat → List Entry
  | 0 => []
  | count + 1 =>
      match log[first - 1]? with
      | none => []
      | some type => ⟨first, type⟩ :: committed log (first + 1) count

inductive Label (χ : Type) where
  | commit (e : EntryType)
  /-- Raft has a batch: a saved snapshot, if any, and the committed entries from `first` on. -/
  | ready (n : Nat) (snapshot : Option Nat) (first count : Nat)
  | sendNil (n : Nat)
  | send (n : Nat)
  | save (n : Nat)
  | pass (n : Nat)
  | stop (n : Nat) (transportError : Bool)
  | apply (n : Nat)
  | registerPending (n : Nat) (ch : χ)
  | cleanup (n : Nat) (id : Nat)
  | shutdown (n : Nat)
  | closeStopc (n : Nat)
  /-- The process of a node starts, on empty directories or from a saved snapshot. -/
  | start (n : Nat) (snapshot : Option Nat)

def Node.starting (snapshot : Option Snapshot) : Node χ :=
  match snapshot with
  | none => {}
  | some snap =>
      { impl := { kvstore := snap.Data }, appliedIndex := snap.Index
        snapshotIndex := snap.Index, disk := some snap }

def System.put (s : System χ) (n : Nat) (node : Node χ) : System χ :=
  { s with nodes := Function.update s.nodes n node }

/-- The snapshot a label names: none, or one of those saved. -/
def System.snapshot? (s : System χ) : Option Nat → Option (Option Snapshot)
  | none => some none
  | some k => s.saved[k]?.map some

def step (snapCount : Nat → Nat) (s : System χ) : Label χ → Option (System χ)
  | .commit e => if s.log.length + 1 < 2 ^ 64 then some { s with log := s.log ++ [e] } else none
  | .ready n snapshot first count =>
      match (s.nodes n).loop, s.snapshot? snapshot with
      | .select, some snap =>
          if 1 ≤ first ∧ first - 1 + count ≤ s.log.length then
            some (s.put n ((s.nodes n).ready n snap (committed s.log first count)))
          else none
      | _, _ => none
  | .sendNil n => ((s.nodes n).sendNil n).map (s.put n)
  | .send n => (s.nodes n).send.map (s.put n)
  | .save n =>
      ((s.nodes n).save (snapCount n)).map fun (node, snap) =>
        { s.put n node with saved := s.saved ++ [snap] }
  | .pass n => ((s.nodes n).pass (snapCount n)).map (s.put n)
  | .stop n transportError => ((s.nodes n).stop transportError).map (s.put n)
  | .apply n => (s.nodes n).apply.map (s.put n)
  | .registerPending n ch =>
      ((s.nodes n).impl.registerPending ch).map fun (_, impl) =>
        s.put n { s.nodes n with impl := impl }
  | .cleanup n id => some (s.put n { s.nodes n with impl := (s.nodes n).impl.cleanup id })
  | .shutdown n => some (s.put n { s.nodes n with impl := (s.nodes n).impl.shutdown })
  | .closeStopc n =>
      if (s.nodes n).impl.shuttingDown then some (s.put n { s.nodes n with stopc := true })
      else none
  | .start n snapshot => (s.snapshot? snapshot).map fun snap => s.put n (Node.starting snap)

end Cassem.KV.EventLoop
