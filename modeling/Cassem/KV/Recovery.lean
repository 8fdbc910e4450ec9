import Cassem.KV.Apply

/-!
# Restart and replay

A node that starts again opens the bolt file it left, replaces it by the latest
snapshot if there is one, and applies the entries of the write-ahead log after
that snapshot. Without a snapshot the log is replayed over the store it already
made, so an entry may find a name of the other kind left by a later one.
-/

namespace Cassem.KV

open Lib Lib.HierMap

variable {χ : Type}

/-- `setup`: the contents of the latest snapshot, if any, replace the store. -/
def setup (r : RaftNode χ) (snapshot : Option Store) : RaftNode χ :=
  match snapshot with
  | none => r
  | some data => { r with kvstore := data }

/-- `replayWAL`: the entries after the latest snapshot, or all of them. -/
def replayWAL (snapshotIndex : Option Nat) (wal : List MutateCommand) : List MutateCommand :=
  match snapshotIndex with
  | none => wal
  | some index => wal.drop index

/-- The node starts again from the bolt file left by `log`, with a snapshot taken
at `snapshotIndex`: in whatever batches the entries after it are committed again,
all of them apply and the store ends as it was. -/
def Recovers (first : RaftNode χ) (log : List MutateCommand) (snapshotIndex : Option Nat) : Prop :=
  ∀ batches : List (List MutateCommand), batches.flatten = replayWAL snapshotIndex log →
    ∃ r, applyCommits
        (setup ({ kvstore := (applyEach first log).kvstore } : RaftNode χ)
          (snapshotIndex.map fun index => (applyEach first (log.take index)).kvstore))
        (batches.map commitOf) = (r, none) ∧
      r.kvstore = (applyEach first log).kvstore

/-- No entry of the log needs, at a path that no earlier entry touches, the other
kind than `file` has there. -/
def Reapplicable (file : Store) (log : List MutateCommand) : Prop :=
  ∃ ops, log.map commandOp = ops.map some ∧ NoLeftover file.look ops

theorem recovers_iff (first : RaftNode χ) (log : List MutateCommand) (snapshotIndex : Option Nat) :
    Recovers first log snapshotIndex ↔
      let db := (setup ({ kvstore := (applyEach first log).kvstore } : RaftNode χ)
        (snapshotIndex.map fun index => (applyEach first (log.take index)).kvstore)).kvstore
      AcceptsEach db (replayWAL snapshotIndex log) ∧
        replay db (replayWAL snapshotIndex log) = (applyEach first log).kvstore := by
  dsimp only
  constructor
  · intro h
    obtain ⟨r, hr, hstore⟩ := h [replayWAL snapshotIndex log] (by simp)
    have hacc := (applyCommits_none_iff _ _).2 (by rw [hr])
    rw [(applyCommits_none_iff _ _).1 hacc] at hr
    rw [← (Prod.mk.inj hr).1, applyEach_kvstore] at hstore
    simp only [List.flatten_cons, List.flatten_nil, List.append_nil] at hacc hstore
    exact ⟨hacc, hstore⟩
  · rintro ⟨hacc, hstore⟩ batches hb
    rw [← hb] at hacc hstore
    exact ⟨_, (applyCommits_none_iff _ _).1 hacc, by rw [applyEach_kvstore, hstore]⟩

/-- Replaying a log over the store it left: accepted exactly when no leftover is
in the way, and then the store is the same. -/
theorem replay_over_iff {db : Store} {log : List MutateCommand} (h : AcceptsEach db log) :
    (AcceptsEach (replay db log) log ∧ replay (replay db log) log = replay db log) ↔
      Reapplicable (replay db log) log := by
  obtain ⟨ops, hops, hacc⟩ := (acceptsEach_iff_logFits db log).mp h
  have hlook := replay_look hops hacc
  have hsame : ∀ ops', log.map commandOp = ops'.map some → ops' = ops := fun ops' h' =>
    List.map_injective_iff.mpr (Option.some_injective _) (h'.symm.trans hops)
  rw [acceptsEach_iff_logFits]
  constructor
  · rintro ⟨⟨ops', hops', hacc'⟩, -⟩
    rw [hsame ops' hops', hlook] at hacc'
    exact ⟨ops, hops, hlook ▸ (accepted_after_iff hacc).mp hacc'⟩
  · rintro ⟨ops', hops', hno⟩
    rw [hsame ops' hops', hlook] at hno
    have hacc' := (accepted_after_iff hacc).mpr hno
    rw [← hlook] at hacc'
    refine ⟨⟨ops, hops, hacc'⟩, Tree.ext_of_look fun p => ?_⟩
    rw [replay_look hops hacc', hlook, after_after]

/-- A snapshot is followed by exactly the entries that made the rest of the store. -/
theorem replay_after_snapshot {db : Store} {log : List MutateCommand} (h : AcceptsEach db log)
    (index : Nat) :
    AcceptsEach (replay db (log.take index)) (log.drop index) ∧
      replay (replay db (log.take index)) (log.drop index) = replay db log := by
  rw [← List.take_append_drop index log, acceptsEach_append] at h
  refine ⟨h.2, ?_⟩
  rw [← replay_append, List.take_append_drop]

theorem acceptsEach_of_applied {first : RaftNode χ} {log : List MutateCommand}
    (h : (applyCommits first [commitOf log]).2 = none) : AcceptsEach first.kvstore log := by
  have hacc := (applyCommits_none_iff first [log]).2 h
  simpa using hacc

/-- Restart after a log that the node applied without error recovers the store
from any snapshot, and without one exactly when the log is re-applicable to the
store it left. -/
theorem recovers_iff_reapplicable (first : RaftNode χ) (log : List MutateCommand)
    (happlied : (applyCommits first [commitOf log]).2 = none) (snapshotIndex : Option Nat) :
    Recovers first log snapshotIndex ↔
      (snapshotIndex = none → Reapplicable (applyEach first log).kvstore log) := by
  have h := acceptsEach_of_applied happlied
  rw [recovers_iff]
  cases snapshotIndex with
  | none =>
    simp only [Option.map_none, setup, replayWAL, true_implies, applyEach_kvstore]
    exact replay_over_iff h
  | some index =>
    simp only [Option.map_some, setup, replayWAL, applyEach_kvstore]
    exact ⟨fun _ h => absurd h (by simp), fun _ => replay_after_snapshot h index⟩

/-- A value is written over, one in a directory is removed, and the directory stays. -/
def rewrittenLog : List MutateCommand :=
  [⟨1, .SET, "a/b", false, some { key := "a/b", val := [1] }⟩,
    ⟨2, .SET, "a/d", true, some { key := "a/d" }⟩,
    ⟨3, .SET, "a/d/e", false, some { key := "a/d/e" }⟩,
    ⟨4, .SET, "a/b", false, some { key := "a/b", val := [2] }⟩,
    ⟨5, .UNSET, "a/d/e", false, none⟩]

theorem rewrittenLog_recovers : Recovers ({} : RaftNode Nat) rewrittenLog none := by
  refine (recovers_iff_reapplicable {} rewrittenLog rfl none).mpr fun _ => ?_
  have honce : AcceptsEach ({} : RaftNode Nat).kvstore rewrittenLog := acceptsEach_of_applied rfl
  have hagain : AcceptsEach ({ kvstore := replay ({} : RaftNode Nat).kvstore rewrittenLog } :
      RaftNode Nat).kvstore rewrittenLog := acceptsEach_of_applied rfl
  rw [applyEach_kvstore]
  exact (replay_over_iff honce).mp ⟨hagain, rfl⟩

/-- A value is written, removed, and replaced by a directory of the same name. -/
def kindChangeLog : List MutateCommand :=
  [⟨1, .SET, "a/b", false, some { key := "a/b" }⟩, ⟨2, .UNSET, "a/b", false, none⟩,
    ⟨3, .SET, "a/b", true, some { key := "a/b" }⟩]

/-- The node applies the log without error, and cannot start again from it: the
first entry meets the directory that the last one left. -/
theorem kindChangeLog_not_recovered :
    (applyCommits ({} : RaftNode Nat) [commitOf kindChangeLog]).2 = none ∧
    ¬ Recovers ({} : RaftNode Nat) kindChangeLog none := by
  refine ⟨rfl, fun h => ?_⟩
  obtain ⟨r, hr, -⟩ := h [kindChangeLog] (by simp [replayWAL])
  have herr : (applyCommits (setup ({ kvstore := (applyEach ({} : RaftNode Nat) kindChangeLog).kvstore } :
      RaftNode Nat) none) [commitOf kindChangeLog]).2.isNone = false := by decide
  rw [show ([kindChangeLog].map commitOf) = [commitOf kindChangeLog] from rfl, Option.map_none] at hr
  rw [hr] at herr
  exact Bool.noConfusion herr

end Cassem.KV
