import Cassem.KV.SnapshotConsistency
import Cassem.Lib.Replay

/-!
# Replicas and their directories

A node keeps its bolt file, its snapshot files and, in the write-ahead log, a record of each
snapshot, written after the file. It may stop between any two of these writes, and starts again
from what it finds: the store from the newest snapshot file, or as it was left, and raft from the
newest snapshot that the log records, which may be an older one. So entries are applied again over
a store that already had them.
-/

namespace Cassem.KV.EventLoop

open Lib Lib.HierMap Lib.Replay Lib.Transition

variable {χ : Type}

/-! ## The directories of a node -/

/-- The snapshot files, the latest written first, the indices that the log has a record of, and
the one whose record is still to be written. -/
structure Directories where
  files : List Snapshot := []
  records : List Nat := []
  saving : Option Nat := none

/-- `snapshotter.Load`: the newest file by name. A file is written over one of its index. -/
def newest : List Snapshot → Option Snapshot
  | [] => none
  | file :: files =>
      match newest files with
      | none => some file
      | some other => if other.Index ≤ file.Index then some file else some other

/-- `raftNode.loadSnapshot`: the newest file that the log has a record of. -/
def Directories.loadSnapshot (d : Directories) : Option Snapshot :=
  newest (d.files.filter fun file => file.Index ∈ d.records)

/-- The file of `saveSnap`; the record comes after it. -/
def Directories.saveSnap (d : Directories) (snap : Snapshot) : Directories :=
  { d with files := snap :: d.files, saving := some snap.Index }

def Directories.saveRecord (d : Directories) : Option Directories :=
  d.saving.map fun index => { d with records := index :: d.records, saving := none }

/-- The process starts: `setup` on the bolt file as it was left, and `startRaft`. -/
def Directories.restart (d : Directories) (kvstore : Store) : Node χ :=
  let index := d.loadSnapshot.elim 0 Snapshot.Index
  { impl := { kvstore := (newest d.files).elim kvstore Snapshot.Data }
    appliedIndex := index, snapshotIndex := index, disk := newest d.files }

/-! ## The cluster -/

/-- The nodes with their directories. `known` is a history variable: how much was committed when
a node last started or took in a snapshot. -/
structure Cluster (χ : Type) where
  base : System χ := {}
  dirs : Nat → Directories := fun _ => {}
  known : Nat → Nat := fun _ => 0

inductive Move (χ : Type) where
  | event (l : Label χ)
  /-- The log gets the record of the snapshot just saved. -/
  | record (n : Nat)
  /-- The process of a node ends at any moment, and starts again. -/
  | restart (n : Nat)

/-- The event loop that takes the step, if one does. -/
def Label.loop? : Label χ → Option Nat
  | .ready n _ _ _ | .sendNil n | .send n | .save n | .pass n | .stop n _ => some n
  | .commit _ | .apply _ | .registerPending _ _ | .cleanup _ _ | .shutdown _ | .closeStopc _
  | .start _ _ => none

/-- The snapshot that the step saves a file of: the node's own, or one received. -/
def Label.snapshot? (s : System χ) : Label χ → Option (Nat × Snapshot)
  | .save n => some (n, ⟨(s.nodes n).appliedIndex, (s.nodes n).impl.kvstore⟩)
  | .ready n (some k) _ _ =>
      (s.saved[k]?.filter fun snap => snap.Index ≠ 0).map fun snap => (n, snap)
  | _ => none

def Label.receives : Label χ → Bool
  | .ready _ _ _ _ => true
  | _ => false

/-- A snapshot file more; the loop goes on when the log has its record. -/
def Cluster.saveSnap (c : Cluster χ) (n : Nat) (snap : Snapshot) (received : Bool) : Cluster χ :=
  let dirs := (c.dirs n).saveSnap snap
  { base := c.base.put n { c.base.nodes n with disk := newest dirs.files }
    dirs := Function.update c.dirs n dirs
    known := if received then Function.update c.known n c.base.log.length else c.known }

def Cluster.event (snapCount : Nat → Nat) (c : Cluster χ) (l : Label χ) : Option (Cluster χ) :=
  (step snapCount c.base l).map fun base =>
    match l.snapshot? c.base with
    | none => { c with base := base }
    | some (n, snap) => { c with base := base }.saveSnap n snap l.receives

/-- The loop of a node waits for the record of its snapshot; a process starts by `restart`. -/
def Label.ready? (c : Cluster χ) : Label χ → Bool
  | .start _ _ => false
  | l => l.loop?.all fun n => (c.dirs n).saving.isNone

def move (snapCount : Nat → Nat) (c : Cluster χ) : Move χ → Option (Cluster χ)
  | .event l => if l.ready? c then c.event snapCount l else none
  | .record n => (c.dirs n).saveRecord.map fun dirs =>
      { c with dirs := Function.update c.dirs n dirs }
  | .restart n => some
      { base := c.base.put n ((c.dirs n).restart (c.base.nodes n).impl.kvstore)
        dirs := Function.update c.dirs n { c.dirs n with saving := none }
        known := Function.update c.known n c.base.log.length }

/-! ## What is asked of a run -/

/-- A committed entry that is a command keeps to the layout. -/
def EntryType.Respects (layout : Layout String) : EntryType → Prop
  | .normal (some ⟨.Mutate, some cmd⟩) =>
      ∃ o, commandOp cmd = some o ∧ Replay.Respects layout o
  | .normal (some ⟨.UNKNOWN, _⟩) => True
  | .normal _ => False
  | .empty | .confChange _ => True

/-- What is committed keeps to the layout. -/
def Move.Respects (layout : Layout String) : Move χ → Prop
  | .event (.commit e) => e.Respects layout
  | _ => True

/-- Every save finds the apply goroutine caught up. -/
def SavesInTime (c : Cluster χ) (m : Move χ) (_ : Cluster χ) : Prop :=
  match m with
  | .event (.save n) => (c.base.nodes n).CaughtUp = true
  | _ => True

instance (c : Cluster χ) (c' : Cluster χ) : ∀ m, Decidable (SavesInTime c m c')
  | .event (.save n) => inferInstanceAs (Decidable ((c.base.nodes n).CaughtUp = true))
  | .event (.commit _) | .event (.ready _ _ _ _) | .event (.sendNil _) | .event (.send _)
  | .event (.pass _) | .event (.stop _ _) | .event (.apply _) | .event (.registerPending _ _)
  | .event (.cleanup _ _) | .event (.shutdown _) | .event (.closeStopc _) | .event (.start _ _)
  | .record _ | .restart _ => isTrue trivial

/-! ## The history of a log -/

/-- What stands at every path after the entries up to an index. -/
def states (log : List EntryType) (index : Nat) : Shape String Entity := (effects log index).look

/-- No entry above `i` and up to `a` is a command. -/
structure Quiet (log : List EntryType) (i a : Nat) : Prop where
  le : i ≤ a
  none : normalData ((log.drop i).take (a - i)) = []

theorem states_append {log : List EntryType} {i : Nat} (hi : i ≤ log.length)
    (more : List EntryType) : states (log ++ more) i = states log i := by
  rw [states, effects_append hi, states]

theorem Quiet.refl (log : List EntryType) (i : Nat) : Quiet log i i :=
  ⟨le_rfl, by rw [Nat.sub_self, List.take_zero]; rfl⟩

theorem Quiet.trans {log : List EntryType} {i a b : Nat} (h : Quiet log i a) (h' : Quiet log a b) :
    Quiet log i b := by
  obtain ⟨m, rfl⟩ := Nat.exists_eq_add_of_le h.le
  obtain ⟨m', rfl⟩ := Nat.exists_eq_add_of_le h'.le
  refine ⟨by omega, ?_⟩
  have hnone := h.none
  have hnone' := h'.none
  rw [Nat.add_sub_cancel_left] at hnone hnone'
  rw [Nat.add_assoc, Nat.add_sub_cancel_left, List.take_add, normalData, List.filterMap_append,
    List.drop_drop]
  exact List.append_eq_nil_iff.mpr ⟨hnone, hnone'⟩

theorem Quiet.states {log : List EntryType} {i a : Nat} (h : Quiet log i a) {j : Nat} (hij : i ≤ j)
    (hja : j ≤ a) : states log j = states log a := by
  have hnone : ∀ m ≤ a - i, normalData ((log.drop i).take m) = [] := by
    intro m hm
    have hsub : ((log.drop i).take m).Sublist ((log.drop i).take (a - i)) :=
      (List.take_prefix_take_left hm).sublist
    exact List.eq_nil_of_sublist_nil (h.none ▸ hsub.filterMap _)
  have heffects : ∀ b, i ≤ b → b ≤ a → effects log b = effects log i := by
    intro b hib hba
    obtain ⟨m, rfl⟩ := Nat.exists_eq_add_of_le hib
    rw [effects_add, hnone m (by omega), List.foldl_nil]
  rw [EventLoop.states, EventLoop.states, heffects j hij hja, heffects a h.le le_rfl]

/-! ## One command -/

section Commands

variable {layout : Layout String}

/-- A command that keeps to the layout is applied without error to a store that does, and
overwrites some paths, whatever the store is. -/
theorem applyCommitData_spec {data : Option LogEntry}
    (hdata : (EntryType.normal data).Respects layout) :
    ∃ f : Shape String Entity → Shape String Entity, Overwrites f ∧
      (∀ s, Conforms layout s → Conforms layout (f s)) ∧
      ∀ r : RaftNode χ, Conforms layout r.kvstore.look →
        (applyCommitData r data).2 = none ∧ (applied r.kvstore data).look = f r.kvstore.look := by
  match data, hdata with
  | some ⟨.UNKNOWN, _⟩, _ => exact ⟨id, overwrites_id, fun _ h => h, fun _ _ => ⟨rfl, rfl⟩⟩
  | some ⟨.Mutate, some cmd⟩, ⟨o, ho, hrespects⟩ =>
    refine ⟨o.effect, overwrites_effect o, fun _ h => hrespects.conforms h, fun r hr => ?_⟩
    have hfit := hrespects.fits hr
    refine ⟨(applyMutateLogEntry_none_iff r cmd).mpr ⟨o, ho, hfit⟩, ?_⟩
    have hstore : applied r.kvstore (some ⟨.Mutate, some cmd⟩) = applyStore r.kvstore cmd :=
      applyMutateLogEntry_kvstore ({ kvstore := r.kvstore } : RaftNode Unit) cmd
    rw [hstore, applyStore_of_accepts ho hfit]

/-- A command keeps to a layout in which its path is of the command's kind, below directories. -/
theorem respects_of_kind {cmd : MutateCommand} {o : Op String Entity}
    (ho : commandOp cmd = some o) (hnodes : firstEmpty (keySplitter cmd.key).1 = none)
    (hdirs : DirsTo layout (keySplitter cmd.key).1)
    (hkind : layout (keyPath cmd.key) = some cmd.isDir) :
    (EntryType.normal (some ⟨.Mutate, some cmd⟩)).Respects layout := by
  refine ⟨o, ho, ?_⟩
  rcases commandOp_cases ho with ⟨-, hdir, rfl⟩ | ⟨-, hdir, -, rfl⟩ | ⟨-, hdir, rfl⟩ |
    ⟨-, hdir, rfl⟩ | ⟨-, hempty, -⟩
  · refine respects_mkdir fun q hq => ?_
    rcases List.prefix_concat_iff.mp hq with rfl | hpre
    · rw [← hdir]
      exact hkind
    · exact hdirs q hpre
  · rw [hdir] at hkind
    exact respects_put hdirs hkind
  · refine respects_rmdir ?_
    rw [hkind, hdir]
    decide
  · refine respects_del ?_
    rw [hkind, hdir]
    decide
  · exact absurd hnodes hempty

theorem respects_of_mem {log : List EntryType} (h : ∀ e ∈ log, e.Respects layout)
    {data : Option LogEntry} (hdata : data ∈ normalData log) :
    (EntryType.normal data).Respects layout := by
  obtain ⟨e, he, hnormal⟩ := List.mem_filterMap.mp hdata
  cases e with
  | normal d =>
    cases hnormal
    exact h _ he
  | empty => cases hnormal
  | confChange removed => cases hnormal

theorem conforms_foldl {datas : List (Option LogEntry)}
    (h : ∀ data ∈ datas, (EntryType.normal data).Respects layout) {db : Store}
    (hdb : Conforms layout db.look) : Conforms layout (datas.foldl applied db).look := by
  induction datas generalizing db with
  | nil => exact hdb
  | cons data datas ih =>
    obtain ⟨f, -, hconforms, hf⟩ := applyCommitData_spec (χ := Unit) (h data List.mem_cons_self)
    have hlook := (hf { kvstore := db } hdb).2
    refine ih (fun d hd => h d (List.mem_cons_of_mem _ hd)) ?_
    rw [hlook]
    exact hconforms _ hdb

/-- Every state of the log keeps to the layout. -/
theorem conforms_states (hroot : layout [] = some true) {log : List EntryType}
    (h : ∀ e ∈ log, e.Respects layout) (i : Nat) : Conforms layout (states log i) := by
  refine conforms_foldl (fun data hdata => ?_) ?_
  · exact respects_of_mem (fun e he => h e (List.mem_of_mem_take he)) hdata
  · intro q c hq
    have hempty := (Tree.look_empty q).symm.trans hq
    split at hempty
    · next hnil =>
      cases hempty
      rw [hnil]
      exact hroot
    · cases hempty

end Commands

/-! ## What a node follows -/

/-- A snapshot file: at every path it has what some index from its own on leaves there, and none
above both its own and what was known. -/
structure Snapshot.Sound (log : List EntryType) (known : Nat) (snap : Snapshot) : Prop where
  index_le : snap.Index ≤ log.length
  state : Within (states log) snap.Index (max snap.Index known) snap.Data.look

/-- The newest file, which the apply goroutine is to load in place of a snapshot at `index`. -/
def Node.Loads (log : List EntryType) (known : Nat) (n : Node χ) (index : Nat) : Prop :=
  ∃ snap, n.disk = some snap ∧ snap.Sound log known ∧ index ≤ snap.Index ∧ snap.Index ≤ known

/-- Where the apply goroutine stands in the log, and what the store has of it. It never fails. -/
def Node.Follows (log : List EntryType) (known : Nat) (n : Node χ) : Prop :=
  match n.applying with
  | .receiving => Within (states log) n.appliedIndex (max n.appliedIndex known) n.impl.kvstore.look
  | .loading => ∃ i, n.Loads log known i ∧ Quiet log i n.appliedIndex
  | .batch rest => ∃ i, i ≤ n.appliedIndex ∧
      rest = normalData ((log.drop i).take (n.appliedIndex - i)) ∧
      Within (states log) i (max i known) n.impl.kvstore.look
  | .failed => False

def Node.LoopFollows (log : List EntryType) (known : Nat) (n : Node χ) : Prop :=
  match n.loop with
  | .publishSnapshot index ents => n.Loads log known index ∧ index ≤ log.length ∧
      ∃ i count, i + count ≤ log.length ∧ ents = committed log (i + 1) count
  | .publish data last => ∃ m, last = n.appliedIndex + m ∧ last ≤ log.length ∧
      data = normalData ((log.drop n.appliedIndex).take m)
  | .trigger (some k) => k = n.handed ∧ n.applying ≠ .loading
  | .select | .trigger none | .stopped => True

structure Node.InStep (log : List EntryType) (known : Nat) (n : Node χ) : Prop where
  applied_le : n.appliedIndex ≤ log.length
  counts : n.closed + n.applying.inFlight = n.handed
  follows : n.Follows log known
  loop : n.LoopFollows log known

section Follows

variable {log : List EntryType} {known : Nat} {n n' : Node χ}

/-- Entries that are no commands are passed without the apply goroutine. -/
theorem Node.Follows.pass (h : n.Follows log known) {a : Nat} (hquiet : Quiet log n.appliedIndex a) :
    Node.Follows log known { n with appliedIndex := a } := by
  unfold Node.Follows at h ⊢
  cases happlying : n.applying with
  | receiving =>
    rw [happlying] at h
    refine (h.pass fun j hj hja => hquiet.states hj hja).mono le_rfl ?_
    have hle := hquiet.le
    dsimp only
    omega
  | loading =>
    rw [happlying] at h
    obtain ⟨i, hloads, hi⟩ := h
    exact ⟨i, hloads, hi.trans hquiet⟩
  | batch rest =>
    rw [happlying] at h
    obtain ⟨i, hi, hrest, hwithin⟩ := h
    refine ⟨i, hi.trans hquiet.le, ?_, hwithin⟩
    obtain ⟨m, hm⟩ := Nat.exists_eq_add_of_le hi
    obtain ⟨m', rfl⟩ := Nat.exists_eq_add_of_le hquiet.le
    have hnone := hquiet.none
    rw [Nat.add_sub_cancel_left] at hnone
    rw [hrest, hm, Nat.add_sub_cancel_left, Nat.add_assoc, Nat.add_sub_cancel_left, List.take_add,
      List.drop_drop, normalData, normalData, List.filterMap_append]
    rw [hm, normalData] at hnone
    rw [hnone, List.append_nil]
  | failed =>
    rw [happlying] at h
    exact h

theorem Snapshot.Sound.mono {snap : Snapshot} (h : snap.Sound log known) (more : List EntryType)
    {known' : Nat} (hknown : known ≤ known') (hle : known ≤ log.length) :
    snap.Sound (log ++ more) known' := by
  have hlen : log.length ≤ (log ++ more).length := by simp
  have hindex := h.index_le
  refine ⟨hindex.trans hlen, ?_⟩
  refine (h.state.congr fun j hj => states_append ?_ more).mono le_rfl ?_
  · omega
  · omega

theorem Node.Loads.mono {index : Nat} (h : n.Loads log known index) (more : List EntryType)
    {known' : Nat} (hknown : known ≤ known') (hle : known ≤ log.length) :
    n.Loads (log ++ more) known' index := by
  obtain ⟨snap, hdisk, hsound, hindex, hsnap⟩ := h
  exact ⟨snap, hdisk, hsound.mono more hknown hle, hindex, hsnap.trans hknown⟩

theorem drop_take_append {i m : Nat} (h : i + m ≤ log.length) (more : List EntryType) :
    ((log ++ more).drop i).take m = (log.drop i).take m := by
  rw [List.drop_append_of_le_length (by omega),
    List.take_append_of_le_length (by rw [List.length_drop]; omega)]

/-- More is committed, or known to be. -/
theorem Node.InStep.mono (h : n.InStep log known) (more : List EntryType) {known' : Nat}
    (hknown : known ≤ known') (hle : known ≤ log.length) : n.InStep (log ++ more) known' := by
  have hlen : log.length ≤ (log ++ more).length := by simp
  have happlied := h.applied_le
  refine ⟨happlied.trans hlen, h.counts, ?_, ?_⟩
  · have hfollows := h.follows
    unfold Node.Follows at hfollows ⊢
    cases happlying : n.applying with
    | receiving =>
      rw [happlying] at hfollows
      refine (hfollows.congr fun j hj => states_append ?_ more).mono le_rfl ?_
      · omega
      · omega
    | loading =>
      rw [happlying] at hfollows
      obtain ⟨i, hloads, hquiet⟩ := hfollows
      have hi := hquiet.le
      refine ⟨i, hloads.mono more hknown hle, hi, ?_⟩
      rw [drop_take_append (by omega)]
      exact hquiet.none
    | batch rest =>
      rw [happlying] at hfollows
      obtain ⟨i, hi, hrest, hwithin⟩ := hfollows
      refine ⟨i, hi, ?_, (hwithin.congr fun j hj => states_append ?_ more).mono le_rfl ?_⟩
      · rw [drop_take_append (by omega)]
        exact hrest
      · omega
      · omega
    | failed =>
      rw [happlying] at hfollows
      exact hfollows
  · have hloop := h.loop
    unfold Node.LoopFollows at hloop ⊢
    split at hloop
    · obtain ⟨hloads, hindex, i, count, hcount, rfl⟩ := hloop
      exact ⟨hloads.mono more hknown hle, hindex.trans hlen, i, count, hcount.trans hlen,
        (committed_append hcount more).symm⟩
    · obtain ⟨m, rfl, hlast, hdata⟩ := hloop
      exact ⟨m, rfl, hlast.trans hlen, by rw [drop_take_append hlast, hdata]⟩
    · exact hloop
    · trivial
    · trivial
    · trivial

/-! ## The steps of the event loop -/

theorem publishEntries_inStep (id : Nat) (hlog : log.length < 2 ^ 64) {i count : Nat}
    (hcount : i + count ≤ log.length) (hle : n.appliedIndex ≤ log.length)
    (hcounts : n.closed + n.applying.inFlight = n.handed) (hfollows : n.Follows log known) :
    (n.publishEntries id (committed log (i + 1) count)).InStep log known := by
  unfold Node.publishEntries
  split
  · exact ⟨hle, hcounts, hfollows, trivial⟩
  · exact ⟨hle, hcounts, hfollows, trivial⟩
  · next e es hents =>
    obtain ⟨m, hm, hcommitted⟩ := entriesToApply_committed hlog hle hcount hents
    have hlast := committed_last hm (by
      rw [← hcommitted]
      exact List.getLast?_eq_some_getLast (List.cons_ne_nil e es))
    dsimp only
    rw [hlast]
    split
    · exact ⟨hle, hcounts, hfollows, trivial⟩
    · next hdata =>
      rw [hcommitted] at hdata
      have hquiet : Quiet log n.appliedIndex (n.appliedIndex + m) := by
        refine ⟨Nat.le_add_right _ m, ?_⟩
        rw [Nat.add_sub_cancel_left]
        exact (entriesData_committed hm hdata).symm
      exact ⟨hm, hcounts, hfollows.pass hquiet, trivial⟩
    · next hdata =>
      rw [hcommitted] at hdata
      exact ⟨hle, hcounts, hfollows, m, rfl, hm, entriesData_committed hm hdata⟩

/-- A batch whose snapshot has been saved: `disk` is the newest file then. -/
theorem ready_inStep (id : Nat) {i count : Nat}
    (hcount : i + count ≤ log.length) (h : n.InStep log known) {snap file : Snapshot}
    (hzero : snap.Index ≠ 0) (hindex : snap.Index ≤ log.length)
    (hfile : file.Sound log known ∧ snap.Index ≤ file.Index ∧ file.Index ≤ known)
    (hdisk : ∀ old, n.disk = some old → old.Index ≤ file.Index) :
    Node.InStep log known
      { n.ready id (some snap) (committed log (i + 1) count) with disk := some file } := by
  have hfollows : Node.Follows log known { n with disk := some file } := by
    have hfollows := h.follows
    unfold Node.Follows at hfollows ⊢
    cases happlying : n.applying with
    | loading =>
      rw [happlying] at hfollows
      obtain ⟨j, ⟨old, hold, -, hj, -⟩, hquiet⟩ := hfollows
      exact ⟨j, ⟨file, rfl, hfile.1, hj.trans (hdisk old hold), hfile.2.2⟩, hquiet⟩
    | receiving | batch rest | failed =>
      rw [happlying] at hfollows
      exact hfollows
  unfold Node.ready
  dsimp only
  rw [if_neg hzero]
  split
  · exact ⟨h.applied_le, h.counts, hfollows, trivial⟩
  · exact ⟨h.applied_le, h.counts, hfollows, ⟨file, rfl, hfile⟩, hindex, i, count, hcount, rfl⟩

theorem sendNil_inStep (id : Nat) (hlog : log.length < 2 ^ 64) (h : n.InStep log known)
    (hstep : n.sendNil id = some n') : n'.InStep log known := by
  unfold Node.sendNil at hstep
  split at hstep
  · next index ents hloop happlying =>
    cases hstep
    have hpublish := h.loop
    rw [Node.LoopFollows, hloop] at hpublish
    obtain ⟨hloads, hindex, i, count, hcount, rfl⟩ := hpublish
    have hcounts := h.counts
    rw [happlying] at hcounts
    exact publishEntries_inStep id hlog hcount hindex hcounts ⟨index, hloads, Quiet.refl log index⟩
  · cases hstep

theorem send_inStep (h : n.InStep log known) (hstep : n.send = some n') : n'.InStep log known := by
  unfold Node.send at hstep
  split at hstep
  · next data last hloop happlying =>
    cases hstep
    have hpublish := h.loop
    rw [Node.LoopFollows, hloop] at hpublish
    obtain ⟨m, rfl, hle, rfl⟩ := hpublish
    have hcounts := h.counts
    have hfollows := h.follows
    rw [happlying] at hcounts
    rw [Node.Follows, happlying] at hfollows
    refine ⟨hle, congrArg (· + 1) hcounts, ⟨n.appliedIndex, Nat.le_add_right _ m, ?_, hfollows⟩,
      rfl, fun hne => ?_⟩
    · dsimp only
      rw [Nat.add_sub_cancel_left]
    · cases hne
  · cases hstep

/-- Where the goroutine has caught up it is at the channel, and the store is past the index. -/
theorem save_inStep {snapCount : Nat} (h : n.InStep log known) {snap : Snapshot}
    (hstep : n.save snapCount = some (n', snap)) (hcaught : n.CaughtUp = true)
    (disk : Option Snapshot) :
    Node.InStep log known { n' with disk := disk } ∧ snap.Sound log known ∧
      snap = ⟨n.appliedIndex, n.impl.kvstore⟩ := by
  unfold Node.save at hstep
  split at hstep
  · next applyDoneC hloop =>
    split at hstep
    · next hdue =>
      cases hstep
      have hsound := h.loop
      rw [Node.LoopFollows, hloop] at hsound
      have hcounts := h.counts
      have hreceiving : n.applying = .receiving := by
        unfold Node.CaughtUp at hcaught
        rw [hloop] at hcaught
        cases happlying : n.applying with
        | receiving => rfl
        | failed => simp [happlying] at hcaught
        | loading =>
          cases applyDoneC with
          | none => simp [happlying] at hcaught
          | some k => exact absurd happlying hsound.2
        | batch rest =>
          cases applyDoneC with
          | none => simp [happlying] at hcaught
          | some k =>
            obtain ⟨rfl, -⟩ := hsound
            have hclosed : n.handed ≤ n.closed := of_decide_eq_true hdue.2
            rw [happlying, Applying.inFlight] at hcounts
            omega
      have hfollows := h.follows
      rw [Node.Follows, hreceiving] at hfollows
      refine ⟨⟨h.applied_le, hcounts, ?_, trivial⟩, ⟨h.applied_le, hfollows⟩, rfl⟩
      show Node.Follows log known _
      rw [Node.Follows, hreceiving]
      exact hfollows
    · cases hstep
  · cases hstep

theorem pass_inStep {snapCount : Nat} (h : n.InStep log known)
    (hstep : n.pass snapCount = some n') : n'.InStep log known := by
  unfold Node.pass at hstep
  split at hstep
  · split at hstep <;> cases hstep
    exact ⟨h.applied_le, h.counts, h.follows, trivial⟩
  · cases hstep

theorem stop_inStep {transportError : Bool} (h : n.InStep log known)
    (hstep : n.stop transportError = some n') : n'.InStep log known := by
  unfold Node.stop at hstep
  split at hstep
  · split at hstep <;> cases hstep
    exact ⟨h.applied_le, h.counts, h.follows, trivial⟩
  · split at hstep <;> cases hstep
    exact ⟨h.applied_le, h.counts, h.follows, trivial⟩
  · cases hstep

/-! ## The steps of the apply goroutine -/

/-- A step that the event loop does not take part in. -/
theorem Node.InStep.aside (h : n.InStep log known) (hindex : n'.appliedIndex = n.appliedIndex)
    (hdisk : n'.disk = n.disk) (hloop : n'.loop = n.loop) (hhanded : n'.handed = n.handed)
    (hloading : n.applying ≠ .loading → n'.applying ≠ .loading)
    (hcounts : n'.closed + n'.applying.inFlight = n.closed + n.applying.inFlight)
    (hfollows : n'.Follows log known) : n'.InStep log known := by
  refine ⟨hindex ▸ h.applied_le, by rw [hcounts, h.counts, hhanded], hfollows, ?_⟩
  have hsound := h.loop
  unfold Node.LoopFollows Node.Loads at hsound ⊢
  rw [hloop, hdisk, hindex, hhanded]
  split at hsound
  · exact hsound
  · exact hsound
  · exact ⟨hsound.1, hloading hsound.2⟩
  · trivial
  · trivial
  · trivial

/-- The entries from `i` to `a`, of which the first command is `data`: it is at some index, with
nothing before it. -/
theorem exists_quiet_of_cons {i a : Nat} {data : Option LogEntry} {rest : List (Option LogEntry)}
    (ha : a ≤ log.length) (h : data :: rest = normalData ((log.drop i).take (a - i))) :
    ∃ b, Quiet log i b ∧ b < a ∧ effects log (b + 1) = applied (effects log b) data ∧
      rest = normalData ((log.drop (b + 1)).take (a - (b + 1))) := by
  obtain ⟨m, hm⟩ : ∃ m, a = i + m := by
    refine ⟨a - i, ?_⟩
    by_contra hlt
    rw [show a - i = 0 by omega, List.take_zero] at h
    cases h
  subst hm
  rw [Nat.add_sub_cancel_left] at h
  induction m generalizing i with
  | zero => cases h
  | succ m ih =>
    have hi : i < log.length := by omega
    rw [List.drop_eq_getElem_cons hi, List.take_succ_cons, normalData, List.filterMap_cons] at h
    cases hentry : log[i].data? with
    | some d =>
      rw [hentry] at h
      obtain ⟨rfl, hrest⟩ := List.cons.inj h
      refine ⟨i, Quiet.refl log i, by omega, ?_, ?_⟩
      · rw [effects_add, List.drop_eq_getElem_cons hi, List.take_succ_cons, List.take_zero,
          normalData, List.filterMap_cons, hentry]
        rfl
      · rw [hrest, show i + (m + 1) - (i + 1) = m by omega]
        rfl
    | none =>
      rw [hentry] at h
      obtain ⟨b, hquiet, hlt, heffects, hrest⟩ := ih (by omega) h
      refine ⟨b, Quiet.trans ⟨Nat.le_add_right i 1, ?_⟩ hquiet, by omega, heffects, ?_⟩
      · rw [Nat.add_sub_cancel_left, List.drop_eq_getElem_cons hi, List.take_succ_cons,
          List.take_zero, normalData, List.filterMap_cons, hentry]
        rfl
      · rw [hrest, show i + 1 + m = i + (m + 1) by omega]

variable {layout : Layout String}

theorem apply_inStep (hroot : layout [] = some true) (hlog : ∀ e ∈ log, e.Respects layout)
    (h : n.InStep log known) (hstep : n.apply = some n') : n'.InStep log known := by
  have hfollows := h.follows
  unfold Node.Follows at hfollows
  unfold Node.apply at hstep
  split at hstep
  · next happlying =>
    cases hstep
    rw [happlying] at hfollows
    obtain ⟨i, ⟨snap, hdisk, hsound, hi, hknown⟩, hquiet⟩ := hfollows
    refine h.aside rfl rfl rfl rfl (fun hne => absurd happlying hne) (by rw [happlying]; rfl) ?_
    rw [Node.Follows, hdisk]
    have hwithin := (hsound.state.mono hi le_rfl).pass fun j hj hja => hquiet.states hj hja
    refine hwithin.mono le_rfl ?_
    dsimp only
    omega
  · next happlying =>
    cases hstep
    rw [happlying] at hfollows
    obtain ⟨i, hi, hrest, hwithin⟩ := hfollows
    refine h.aside rfl rfl rfl rfl (fun _ => by simp) (by rw [happlying]; rfl) ?_
    have hquiet : Quiet log i n.appliedIndex := ⟨hi, hrest.symm⟩
    refine (hwithin.pass fun j hj hja => hquiet.states hj hja).mono le_rfl ?_
    dsimp only
    omega
  · next data rest happlying =>
    rw [happlying] at hfollows
    obtain ⟨i, hi, hrest, hwithin⟩ := hfollows
    obtain ⟨b, hquiet, hlt, heffects, hrest'⟩ := exists_quiet_of_cons h.applied_le hrest
    have hmem : data ∈ normalData log := by
      have hmem : data ∈ normalData ((log.drop i).take (n.appliedIndex - i)) :=
        hrest ▸ List.mem_cons_self
      obtain ⟨e, he, hdata⟩ := List.mem_filterMap.mp hmem
      exact List.mem_filterMap.mpr ⟨e, List.mem_of_mem_drop (List.mem_of_mem_take he), hdata⟩
    obtain ⟨f, hoverwrites, -, hf⟩ := applyCommitData_spec (χ := χ) (respects_of_mem hlog hmem)
    have hconforms : Conforms layout n.impl.kvstore.look := fun q c hc =>
      hwithin.forall (P := fun q x => ∀ c, x = some c → layout q = some c.isDir)
        (fun j q c hc => conforms_states hroot hlog j q c hc) q c hc
    obtain ⟨hnone, hlook⟩ := hf n.impl hconforms
    have hstore := applyCommitData_kvstore n.impl data
    cases hres : applyCommitData n.impl data with
    | mk impl err =>
      rw [hres] at hnone hstore hstep
      dsimp only at hnone hstore
      subst hnone
      cases hstep
      refine h.aside rfl rfl rfl rfl (fun _ => by simp) (by rw [happlying]; rfl) ?_
      refine ⟨b + 1, hlt, hrest', ?_⟩
      have hstate : states log (b + 1) = f (states log b) := by
        have hb := (hf { kvstore := effects log b } (conforms_states hroot hlog b)).2
        rw [states, heffects]
        exact hb
      have hnext := (hwithin.pass fun j hj hja => hquiet.states hj hja).step hoverwrites hstate
      dsimp only
      rw [hstore, hlook]
      have hib := hquiet.le
      exact hnext.mono le_rfl (by omega)
  · cases hstep
  · cases hstep

/-- Requests come and go beside the store. -/
theorem impl_inStep (h : n.InStep log known) {impl : RaftNode χ} {stopc : Bool}
    (hstore : impl.kvstore = n.impl.kvstore) :
    Node.InStep log known { n with impl := impl, stopc := stopc } := by
  refine h.aside rfl rfl rfl rfl id rfl ?_
  have hfollows := h.follows
  unfold Node.Follows Node.Loads at hfollows ⊢
  rw [← hstore] at hfollows
  exact hfollows

/-! ## Only a snapshot changes the newest file -/

theorem publishEntries_disk (id : Nat) (n : Node χ) (ents : List Entry) :
    (n.publishEntries id ents).disk = n.disk := by
  unfold Node.publishEntries
  split
  · rfl
  · rfl
  · dsimp only
    split <;> rfl

theorem sendNil_disk {id : Nat} (h : n.sendNil id = some n') : n'.disk = n.disk := by
  unfold Node.sendNil at h
  split at h
  · cases h
    exact publishEntries_disk id _ _
  · cases h

theorem send_disk (h : n.send = some n') : n'.disk = n.disk := by
  unfold Node.send at h
  split at h <;> cases h
  rfl

theorem pass_disk {snapCount : Nat} (h : n.pass snapCount = some n') : n'.disk = n.disk := by
  unfold Node.pass at h
  split at h
  · split at h <;> cases h
    rfl
  · cases h

theorem stop_disk {transportError : Bool} (h : n.stop transportError = some n') :
    n'.disk = n.disk := by
  unfold Node.stop at h
  split at h
  · split at h <;> cases h
    rfl
  · split at h <;> cases h
    rfl
  · cases h

theorem apply_disk (h : n.apply = some n') : n'.disk = n.disk := by
  unfold Node.apply at h
  split at h
  · cases h
    rfl
  · cases h
    rfl
  · split at h <;> cases h
    · rfl
    · rfl
  · cases h
  · cases h

end Follows

/-! ## The directories -/

theorem newest_mem {files : List Snapshot} {file : Snapshot} (h : newest files = some file) :
    file ∈ files := by
  induction files with
  | nil => cases h
  | cons f files ih =>
    unfold newest at h
    split at h
    · cases h
      exact List.mem_cons_self
    · next other hother =>
      split at h
      · cases h
        exact List.mem_cons_self
      · cases h
        exact List.mem_cons_of_mem f (ih hother)

theorem exists_newest {files : List Snapshot} {file : Snapshot} (h : file ∈ files) :
    ∃ top, newest files = some top ∧ file.Index ≤ top.Index := by
  induction files with
  | nil => cases h
  | cons f files ih =>
    unfold newest
    rcases List.mem_cons.mp h with rfl | hmem
    · cases hrest : newest files with
      | none => exact ⟨file, rfl, le_rfl⟩
      | some other =>
        dsimp only
        split
        · exact ⟨file, rfl, le_rfl⟩
        · exact ⟨other, rfl, by omega⟩
    · obtain ⟨top, htop, hle⟩ := ih hmem
      rw [htop]
      dsimp only
      split
      · exact ⟨f, rfl, by omega⟩
      · exact ⟨top, rfl, hle⟩

theorem loadSnapshot_le (d : Directories) {file : Snapshot} (h : newest d.files = some file) :
    d.loadSnapshot.elim 0 Snapshot.Index ≤ file.Index := by
  unfold Directories.loadSnapshot
  cases hload : newest (d.files.filter fun file => file.Index ∈ d.records) with
  | none => exact Nat.zero_le _
  | some recorded =>
    obtain ⟨top, htop, hle⟩ := exists_newest (List.mem_of_mem_filter (newest_mem hload))
    rw [h] at htop
    cases htop
    exact hle

/-! ## Runs -/

/-- What holds of the cluster at any moment. -/
structure Cluster.InSync (layout : Layout String) (c : Cluster χ) : Prop where
  bound : c.base.log.length < 2 ^ 64
  respects : ∀ e ∈ c.base.log, e.Respects layout
  known_le : ∀ n, c.known n ≤ c.base.log.length
  saved : ∀ snap ∈ c.base.saved, snap.Sound c.base.log c.base.log.length
  files : ∀ n, ∀ file ∈ (c.dirs n).files, file.Sound c.base.log (c.known n)
  disk : ∀ n, (c.base.nodes n).disk = newest (c.dirs n).files
  nodes : ∀ n, (c.base.nodes n).InStep c.base.log (c.known n)

section Moves

variable {layout : Layout String} {c : Cluster χ}

/-- Nothing more is known to be committed than is. -/
theorem Snapshot.Sound.widen {log : List EntryType} {known : Nat} {snap : Snapshot}
    (h : snap.Sound log known) (hknown : known ≤ log.length) : snap.Sound log log.length := by
  have hmono := h.mono [] hknown hknown
  rwa [List.append_nil] at hmono

theorem Node.InStep.widen {log : List EntryType} {known : Nat} {n : Node χ}
    (h : n.InStep log known) (hknown : known ≤ log.length) : n.InStep log log.length := by
  have hmono := h.mono [] hknown hknown
  rwa [List.append_nil] at hmono

theorem put_self (s : System χ) (n : Nat) (node : Node χ) : (s.put n node).nodes n = node :=
  Function.update_self ..

theorem put_of_ne (s : System χ) {n m : Nat} (hm : m ≠ n) (node : Node χ) :
    (s.put n node).nodes m = s.nodes m := Function.update_of_ne hm ..

/-- A step that changes one node, and perhaps adds a snapshot to those that can be received. -/
theorem Cluster.InSync.elsewhere (h : c.InSync layout) {c' : Cluster χ} (n : Nat)
    (hlog : c'.base.log = c.base.log)
    (hsaved : ∀ snap ∈ c'.base.saved, snap.Sound c.base.log c.base.log.length)
    (hrest : ∀ m, m ≠ n → c'.base.nodes m = c.base.nodes m ∧ c'.dirs m = c.dirs m ∧
      c'.known m = c.known m)
    (hknown : c'.known n ≤ c.base.log.length)
    (hfiles : ∀ file ∈ (c'.dirs n).files, file.Sound c.base.log (c'.known n))
    (hdisk : (c'.base.nodes n).disk = newest (c'.dirs n).files)
    (hnode : (c'.base.nodes n).InStep c.base.log (c'.known n)) : c'.InSync layout := by
  have hat : ∀ m, c'.known m ≤ c.base.log.length ∧
      (∀ file ∈ (c'.dirs m).files, file.Sound c.base.log (c'.known m)) ∧
      (c'.base.nodes m).disk = newest (c'.dirs m).files ∧
      (c'.base.nodes m).InStep c.base.log (c'.known m) := by
    intro m
    by_cases hm : m = n
    · subst hm
      exact ⟨hknown, hfiles, hdisk, hnode⟩
    · obtain ⟨hnodes, hdirs, hknowns⟩ := hrest m hm
      rw [hnodes, hdirs, hknowns]
      exact ⟨h.known_le m, h.files m, h.disk m, h.nodes m⟩
  refine ⟨hlog ▸ h.bound, hlog ▸ h.respects, ?_, hlog ▸ hsaved, ?_, fun m => (hat m).2.2.1, ?_⟩
  · rw [hlog]
    exact fun m => (hat m).1
  · rw [hlog]
    exact fun m => (hat m).2.1
  · rw [hlog]
    exact fun m => (hat m).2.2.2

/-- A step of one node that writes no file. -/
theorem Cluster.InSync.put (h : c.InSync layout) (n : Nat) {node : Node χ}
    (hdisk : node.disk = (c.base.nodes n).disk) (hnode : node.InStep c.base.log (c.known n)) :
    Cluster.InSync layout { c with base := c.base.put n node } := by
  refine h.elsewhere n rfl h.saved (fun m hm => ⟨put_of_ne _ hm node, rfl, rfl⟩) (h.known_le n)
    (h.files n) ?_ ?_
  · rw [put_self, hdisk]
    exact h.disk n
  · rw [put_self]
    exact hnode

/-- The store as a process leaves it that has no snapshot file. -/
theorem Node.InStep.left {log : List EntryType} {known : Nat} {n : Node χ}
    (h : n.InStep log known) (hknown : known ≤ log.length) (hdisk : n.disk = none) :
    Within (states log) 0 log.length n.impl.kvstore.look := by
  have hfollows := h.follows
  have happlied := h.applied_le
  unfold Node.Follows at hfollows
  cases happlying : n.applying with
  | receiving =>
    rw [happlying] at hfollows
    exact hfollows.mono (Nat.zero_le _) (by omega)
  | loading =>
    rw [happlying] at hfollows
    obtain ⟨i, ⟨snap, hsnap, -⟩, -⟩ := hfollows
    rw [hdisk] at hsnap
    cases hsnap
  | batch rest =>
    rw [happlying] at hfollows
    obtain ⟨i, hi, -, hwithin⟩ := hfollows
    exact hwithin.mono (Nat.zero_le _) (by omega)
  | failed =>
    rw [happlying] at hfollows
    exact hfollows.elim

theorem Cluster.InSync.restart (h : c.InSync layout) (n : Nat) :
    Cluster.InSync layout
      { base := c.base.put n ((c.dirs n).restart (c.base.nodes n).impl.kvstore)
        dirs := Function.update c.dirs n { c.dirs n with saving := none }
        known := Function.update c.known n c.base.log.length } := by
  have hfiles : ∀ file ∈ (c.dirs n).files, file.Sound c.base.log c.base.log.length :=
    fun file hfile => (h.files n file hfile).widen (h.known_le n)
  refine h.elsewhere n rfl h.saved (fun m hm => ⟨put_of_ne _ hm _, Function.update_of_ne hm ..,
    Function.update_of_ne hm ..⟩) ?_ ?_ ?_ ?_
  all_goals simp only [Function.update_self, put_self]
  · exact le_rfl
  · exact hfiles
  · rfl
  unfold Directories.restart
  cases hnewest : newest (c.dirs n).files with
  | none =>
    have hload : (c.dirs n).loadSnapshot = none := by
      cases hload : (c.dirs n).loadSnapshot with
      | none => rfl
      | some file =>
        obtain ⟨top, htop, -⟩ := exists_newest (List.mem_of_mem_filter (newest_mem hload))
        rw [hnewest] at htop
        cases htop
    rw [hload]
    refine ⟨Nat.zero_le _, rfl, ?_, trivial⟩
    exact ((h.nodes n).left (h.known_le n) ((h.disk n).trans hnewest)).mono le_rfl
      (le_max_right _ _)
  | some top =>
    have hsound := hfiles top (newest_mem hnewest)
    have hindex := hsound.index_le
    have hle := loadSnapshot_le (c.dirs n) hnewest
    exact ⟨hle.trans hindex, rfl, hsound.state.mono hle (by dsimp only; omega), trivial⟩

/-- A step that one node makes by itself. -/
theorem Cluster.InSync.own (h : c.InSync layout) (n : Nat) {node? : Option (Node χ)}
    {base : System χ} (hstep : node?.map (c.base.put n) = some base)
    (hdisk : ∀ node, node? = some node → node.disk = (c.base.nodes n).disk)
    (hnode : ∀ node, node? = some node → node.InStep c.base.log (c.known n)) :
    Cluster.InSync layout { c with base := base } := by
  obtain ⟨node, hsome, rfl⟩ := Option.map_eq_some_iff.mp hstep
  exact h.put n (hdisk node hsome) (hnode node hsome)

theorem Cluster.InSync.impl (h : c.InSync layout) (n : Nat) {impl : RaftNode χ} {stopc : Bool}
    (hstore : impl.kvstore = (c.base.nodes n).impl.kvstore) :
    Cluster.InSync layout
      { c with base := c.base.put n { c.base.nodes n with impl := impl, stopc := stopc } } :=
  h.put n rfl (impl_inStep (h.nodes n) hstore)

theorem Cluster.InSync.commit (h : c.InSync layout) {e : EntryType}
    (hlt : c.base.log.length + 1 < 2 ^ 64) (he : e.Respects layout) :
    Cluster.InSync layout { c with base := { c.base with log := c.base.log ++ [e] } } where
  bound := by
    rw [List.length_append]
    exact hlt
  respects entry hentry := by
    rcases List.mem_append.mp hentry with hold | hnew
    · exact h.respects entry hold
    · rw [List.mem_singleton.mp hnew]
      exact he
  known_le n := by
    have hle := h.known_le n
    rw [List.length_append]
    exact Nat.le_add_right_of_le hle
  saved snap hsnap := by
    rw [List.length_append]
    exact (h.saved snap hsnap).mono [e] (Nat.le_add_right _ _) le_rfl
  files n file hfile := (h.files n file hfile).mono [e] le_rfl (h.known_le n)
  disk := h.disk
  nodes n := (h.nodes n).mono [e] le_rfl (h.known_le n)

theorem saved_cons {log : List EntryType} {known : Nat} {snap : Snapshot} {files : List Snapshot}
    (hsnap : snap.Sound log known) (hfiles : ∀ file ∈ files, file.Sound log known) :
    ∀ file ∈ snap :: files, file.Sound log known := by
  intro file hfile
  rcases List.mem_cons.mp hfile with rfl | hold
  · exact hsnap
  · exact hfiles file hold

/-- A node has saved a snapshot, which others may receive. -/
theorem Cluster.InSync.save {snapCount : Nat} (h : c.InSync layout) (n : Nat) {node : Node χ}
    {snap : Snapshot} (hsave : (c.base.nodes n).save snapCount = some (node, snap))
    (hcaught : (c.base.nodes n).CaughtUp = true) :
    Cluster.InSync layout (Cluster.saveSnap
      { c with base := { c.base.put n node with saved := c.base.saved ++ [snap] } } n snap false) := by
  obtain ⟨hnode, hsnap, -⟩ := save_inStep (h.nodes n) hsave hcaught
    (newest (snap :: (c.dirs n).files))
  refine h.elsewhere n rfl ?_ (fun m hm => ?_) (h.known_le n) ?_ ?_ ?_
  · intro other hother
    rcases List.mem_append.mp hother with hold | hnew
    · exact h.saved other hold
    · rw [List.mem_singleton.mp hnew]
      exact hsnap.widen (h.known_le n)
  · exact ⟨(put_of_ne _ hm _).trans (put_of_ne c.base hm node), Function.update_of_ne hm .., rfl⟩
  · show ∀ file ∈ (Function.update c.dirs n _ n).files, _
    rw [Function.update_self]
    exact saved_cons hsnap (h.files n)
  · show (System.nodes (System.put _ n _) n).disk = newest (Function.update c.dirs n _ n).files
    rw [put_self, Function.update_self]
  · show (System.nodes (System.put _ n _) n).InStep _ _
    rw [put_self]
    show Node.InStep _ _ { (c.base.put n node).nodes n with disk := _ }
    rw [put_self]
    exact hnode

/-- A batch without a snapshot. -/
theorem Cluster.InSync.publish (h : c.InSync layout) (n : Nat) {i count : Nat}
    (hcount : i + count ≤ c.base.log.length) :
    Cluster.InSync layout
      { c with
        base := c.base.put n
          ((c.base.nodes n).publishEntries n (committed c.base.log (i + 1) count)) } :=
  h.put n (publishEntries_disk n _ _) (publishEntries_inStep n h.bound hcount
    (h.nodes n).applied_le (h.nodes n).counts (h.nodes n).follows)

theorem newest_eq_le {files : List Snapshot} {top file : Snapshot} (htop : newest files = some top)
    (hfile : file ∈ files) : file.Index ≤ top.Index := by
  obtain ⟨other, hother, hle⟩ := exists_newest hfile
  rw [htop] at hother
  cases hother
  exact hle

/-- A batch whose snapshot has been saved. All that is committed is known then. -/
theorem Cluster.InSync.receive (h : c.InSync layout) (n : Nat) {snap : Snapshot}
    (hsnap : snap ∈ c.base.saved) (hzero : snap.Index ≠ 0) {i count : Nat}
    (hcount : i + count ≤ c.base.log.length) :
    Cluster.InSync layout (Cluster.saveSnap
      { c with base := c.base.put n ((c.base.nodes n).ready n (some snap)
        (committed c.base.log (i + 1) count)) } n snap true) := by
  have hsound := h.saved snap hsnap
  have hfiles := saved_cons hsound fun file hfile =>
    (h.files n file hfile).widen (h.known_le n)
  obtain ⟨top, htop, hle⟩ := exists_newest (List.mem_cons_self : snap ∈ snap :: (c.dirs n).files)
  have hnewest := hfiles top (newest_mem htop)
  have hnode := ready_inStep n hcount ((h.nodes n).widen (h.known_le n)) hzero hsound.index_le
    ⟨hnewest, hle, hnewest.index_le⟩ fun old hold => by
      rw [h.disk n] at hold
      exact newest_eq_le htop (List.mem_cons_of_mem snap (newest_mem hold))
  refine h.elsewhere n rfl h.saved (fun m hm => ?_) ?_ ?_ ?_ ?_
  · exact ⟨(put_of_ne _ hm _).trans (put_of_ne c.base hm _), Function.update_of_ne hm ..,
      Function.update_of_ne hm ..⟩
  · show Function.update c.known n _ n ≤ _
    rw [Function.update_self]
    exact le_rfl
  · show ∀ file ∈ (Function.update c.dirs n _ n).files,
      file.Sound c.base.log (Function.update c.known n _ n)
    rw [Function.update_self, Function.update_self]
    exact hfiles
  · show (System.nodes (System.put _ n _) n).disk = newest (Function.update c.dirs n _ n).files
    rw [put_self, Function.update_self]
  · show (System.nodes (System.put _ n _) n).InStep _ (Function.update c.known n _ n)
    rw [put_self, Function.update_self]
    show Node.InStep _ _ { System.nodes (System.put c.base n _) n with
      disk := newest (snap :: (c.dirs n).files) }
    rw [put_self, htop]
    exact hnode

/-- The log has the record of a snapshot. -/
theorem Cluster.InSync.record (h : c.InSync layout) (n : Nat) {dirs : Directories}
    (hrecord : (c.dirs n).saveRecord = some dirs) :
    Cluster.InSync layout { c with dirs := Function.update c.dirs n dirs } := by
  obtain ⟨index, -, rfl⟩ := Option.map_eq_some_iff.mp hrecord
  refine h.elsewhere n rfl h.saved (fun m hm => ⟨rfl, Function.update_of_ne hm .., rfl⟩)
    (h.known_le n) ?_ ?_ (h.nodes n)
  all_goals simp only [Function.update_self]
  · exact h.files n
  · exact h.disk n

/-- Every step of the processes keeps it, if a save finds the goroutine caught up. -/
theorem Cluster.InSync.event {snapCount : Nat → Nat} {c' : Cluster χ} {l : Label χ}
    (hroot : layout [] = some true) (h : c.InSync layout) (hm : Move.Respects layout (.event l))
    (hsave : SavesInTime c (.event l) c') (hready : l.ready? c = true)
    (hevent : c.event snapCount l = some c') : c'.InSync layout := by
  obtain ⟨base, hstep, rfl⟩ := Option.map_eq_some_iff.mp hevent
  cases l with
  | commit e =>
    simp only [step] at hstep
    split at hstep
    · next hlt =>
      cases hstep
      exact h.commit hlt hm
    · cases hstep
  | ready n snapshot first count =>
    simp only [step] at hstep
    split at hstep
    · next snap hselect hsnap =>
      split at hstep
      · next hrange =>
        cases hstep
        obtain ⟨i, rfl⟩ := Nat.exists_eq_add_of_le' hrange.1
        rw [Nat.add_sub_cancel] at hrange
        cases snapshot with
        | none =>
          cases hsnap
          exact h.publish n hrange.2
        | some k =>
          obtain ⟨received, hk, rfl⟩ := Option.map_eq_some_iff.mp hsnap
          dsimp only [Label.snapshot?]
          rw [hk]
          by_cases hzero : received.Index = 0
          · rw [Option.filter_some_neg (by simpa using hzero)]
            dsimp only [Node.ready, Option.map_none]
            rw [if_pos hzero]
            exact h.publish n hrange.2
          · rw [Option.filter_some_pos (by simpa using hzero)]
            exact h.receive n (List.mem_of_getElem? hk) hzero hrange.2
      · cases hstep
    · cases hstep
  | sendNil n =>
    exact h.own n hstep (fun _ hnode => sendNil_disk hnode) fun _ hnode =>
      sendNil_inStep n h.bound (h.nodes n) hnode
  | send n =>
    exact h.own n hstep (fun _ hnode => send_disk hnode) fun _ hnode =>
      send_inStep (h.nodes n) hnode
  | save n =>
    obtain ⟨⟨node, snap⟩, hnode, rfl⟩ := Option.map_eq_some_iff.mp hstep
    have hsaved := (save_inStep (h.nodes n) hnode hsave none).2.2
    have hput := h.save n hnode hsave
    rw [hsaved] at hput
    rw [hsaved]
    exact hput
  | pass n =>
    exact h.own n hstep (fun _ hnode => pass_disk hnode) fun _ hnode =>
      pass_inStep (h.nodes n) hnode
  | stop n transportError =>
    exact h.own n hstep (fun _ hnode => stop_disk hnode) fun _ hnode =>
      stop_inStep (h.nodes n) hnode
  | apply n =>
    exact h.own n hstep (fun _ hnode => apply_disk hnode) fun _ hnode =>
      apply_inStep hroot h.respects (h.nodes n) hnode
  | registerPending n ch =>
    obtain ⟨⟨id, impl⟩, hreg, rfl⟩ := Option.map_eq_some_iff.mp hstep
    exact h.impl n (registerPending_kvstore hreg)
  | cleanup n id =>
    cases hstep
    exact h.impl n rfl
  | shutdown n =>
    cases hstep
    exact h.impl n (shutdown_kvstore _)
  | closeStopc n =>
    simp only [step] at hstep
    split at hstep
    · cases hstep
      exact h.impl n rfl
    · cases hstep
  | start n snapshot => cases hready

theorem inSync_step {snapCount : Nat → Nat} {c' : Cluster χ} {m : Move χ}
    (hroot : layout [] = some true) (h : c.InSync layout) (hm : m.Respects layout)
    (hsave : SavesInTime c m c') (hmove : move snapCount c m = some c') : c'.InSync layout := by
  cases m with
  | event l =>
    simp only [move] at hmove
    split at hmove
    · next hready => exact h.event hroot hm hsave hready hmove
    · cases hmove
  | record n =>
    obtain ⟨dirs, hrecord, rfl⟩ := Option.map_eq_some_iff.mp hmove
    exact h.record n hrecord
  | restart n =>
    cases hmove
    exact h.restart n

end Moves

theorem inSync_initial (layout : Layout String) : Cluster.InSync layout ({} : Cluster χ) where
  bound := by simp
  respects _ he := absurd he List.not_mem_nil
  known_le _ := le_rfl
  saved _ hsnap := absurd hsnap List.not_mem_nil
  files _ _ hfile := absurd hfile List.not_mem_nil
  disk _ := rfl
  nodes _ := by
    have hstart : Within (states []) 0 (max 0 0) (states [] 0) :=
      within_point le_rfl (Nat.zero_le _)
    exact ⟨le_rfl, rfl, hstart, trivial⟩

/-- No apply goroutine has failed. The store of a node that waits for more, and has applied what
was committed when it started or took in a snapshot, is what the log makes it. -/
structure Cluster.Agrees (c : Cluster χ) : Prop where
  running : ∀ n, (c.base.nodes n).applying ≠ .failed
  store : ∀ n, (c.base.nodes n).applying = .receiving → c.known n ≤ (c.base.nodes n).appliedIndex →
    (c.base.nodes n).impl.kvstore.look = states c.base.log (c.base.nodes n).appliedIndex

theorem Cluster.InSync.agrees {layout : Layout String} {c : Cluster χ} (h : c.InSync layout) :
    c.Agrees := by
  have hfollows := fun n => (h.nodes n).follows
  refine ⟨fun n hfailed => ?_, fun n hreceiving hknown => ?_⟩
  · have hn := hfollows n
    rw [Node.Follows, hfailed] at hn
    exact hn
  · have hn := hfollows n
    rw [Node.Follows, hreceiving] at hn
    exact hn.eq_point (max_le le_rfl hknown)

/-- Where what is committed keeps to a layout, and every snapshot is saved by a node whose apply
goroutine has caught up, the nodes agree, wherever their processes end and start again. -/
theorem replicas_agree (snapCount : Nat → Nat) {layout : Layout String}
    (hroot : layout [] = some true) {ms : List (Move χ)} (hms : ∀ m ∈ ms, m.Respects layout)
    (hsaves : EachStep (move snapCount) SavesInTime ({} : Cluster χ) ms) :
    EachState (move snapCount) Cluster.Agrees {} ms := by
  have hkept : EachStep (move snapCount) (fun _ m _ => Move.Respects layout m)
      ({} : Cluster χ) ms := eachStep_of_forall (fun m hm _ _ => hms m hm) _
  refine (eachState_of_eachStep (Cluster.InSync layout) (fun c m c' h hP hmove => ?_)
    (inSync_initial layout) (hkept.and hsaves)).mono fun c h => h.agrees
  exact inSync_step hroot h hP.1 hP.2 hmove

/-! ## A file without its record -/

def putEntry (key : String) (val : Bytes) : EntryType :=
  .normal (some ⟨.Mutate, some ⟨0, .SET, key, false, some { key := key, val := val }⟩⟩)

def unsetEntry (key : String) : EntryType :=
  .normal (some ⟨.Mutate, some ⟨0, .UNSET, key, false, none⟩⟩)

/-- Two values in one directory. -/
def twoValues : Layout String := fun q =>
  if q = [] ∨ q = ["a"] then some true else if q = ["a", "b"] ∨ q = ["a", "c"] then some false
  else none

theorem twoValues_dirs : DirsTo twoValues ["a"] := by
  intro q hq
  rcases List.prefix_cons_iff.mp hq with rfl | ⟨t, rfl, ht⟩
  · rfl
  · rw [List.prefix_nil.mp ht]
    rfl

/-- The process of the first node ends after the file of its snapshot, and before the record: it
starts on the store of the snapshot and applies everything again. The second node takes the
snapshot in. -/
def endedBeforeRecord : List (Move Unit) :=
  [.event (.commit (putEntry "a/b" [1])), .event (.commit (putEntry "a/c" [2])),
    .event (.ready 0 none 1 2), .event (.send 0), .event (.apply 0), .event (.apply 0),
    .event (.apply 0), .event (.save 0), .restart 0,
    .event (.commit (putEntry "a/b" [3])), .event (.commit (unsetEntry "a/c")),
    .event (.ready 0 none 1 4), .event (.send 0), .event (.apply 0), .event (.apply 0),
    .event (.apply 0), .event (.apply 0), .event (.apply 0), .event (.save 0), .record 0,
    .event (.ready 1 (some 0) 3 2), .record 1, .event (.sendNil 1), .event (.apply 1),
    .event (.send 1), .event (.apply 1), .event (.apply 1), .event (.apply 1)]

theorem endedBeforeRecord_respects : ∀ m ∈ endedBeforeRecord, m.Respects twoValues := by
  have hkept : ∀ cmd : MutateCommand, (commandOp cmd).isSome = true ∧
      (keySplitter cmd.key).1 = ["a"] ∧ twoValues (keyPath cmd.key) = some cmd.isDir →
      (EntryType.normal (some ⟨.Mutate, some cmd⟩)).Respects twoValues := by
    rintro cmd ⟨hsome, hnodes, hkind⟩
    obtain ⟨o, ho⟩ := Option.isSome_iff_exists.mp hsome
    refine respects_of_kind ho ?_ ?_ hkind
    · rw [hnodes]
      decide
    · rw [hnodes]
      exact twoValues_dirs
  have hfirst : (putEntry "a/b" [1]).Respects twoValues := hkept _ (by decide +kernel)
  have hsecond : (putEntry "a/c" [2]).Respects twoValues := hkept _ (by decide +kernel)
  have hthird : (putEntry "a/b" [3]).Respects twoValues := hkept _ (by decide +kernel)
  have hfourth : (unsetEntry "a/c").Respects twoValues := hkept _ (by decide +kernel)
  simp only [endedBeforeRecord, List.forall_mem_cons, List.not_mem_nil, false_implies, implies_true,
    Move.Respects, true_and, and_true]
  exact ⟨hfirst, hsecond, hthird, hfourth⟩

theorem endedBeforeRecord_agrees :
    ((run (move fun _ => 1) ({} : Cluster Unit) endedBeforeRecord).map fun c =>
      ([0, 1].map fun n => ((c.base.nodes n).appliedIndex, c.known n),
        [0, 1].flatMap fun n => [["a", "b"], ["a", "c"]].map (c.base.nodes n).impl.kvstore.look)) =
      some ([(4, 2), (4, 4)],
        [some (.val { key := "a/b", val := [3] }), none,
          some (.val { key := "a/b", val := [3] }), none]) ∧
    EachState (move fun _ => 1) Cluster.Agrees ({} : Cluster Unit) endedBeforeRecord :=
  ⟨by decide +kernel, replicas_agree (fun _ => 1) rfl endedBeforeRecord_respects (by decide +kernel)⟩

end Cassem.KV.EventLoop
