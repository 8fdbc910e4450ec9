import Cassem.KV.EventLoop
import Cassem.Lib.Transition

/-!
# Consistent snapshots

What the event loop has handed over and what the store holds differ by what the apply
goroutine still owes. `maybeTriggerSnapshot` waits for the batch it was called with, and
only where that batch had normal entries; so a snapshot is that of its index when the
goroutine owes nothing at the save, and not in general.
-/

namespace Cassem.KV.EventLoop

open Lib.Transition

variable {χ : Type}

/-! ## The effects of a log -/

/-- What the data of one entry makes of the store. -/
def applied (db : Store) (data : Option LogEntry) : Store :=
  (applyCommitData ({ kvstore := db } : RaftNode Unit) data).1.kvstore

def EntryType.data? : EntryType → Option (Option LogEntry)
  | .normal data => some data
  | .empty | .confChange _ => none

def normalData (ents : List EntryType) : List (Option LogEntry) := ents.filterMap EntryType.data?

/-- The store with the effects of the normal entries up to an index. -/
def effects (log : List EntryType) (index : Nat) : Store :=
  (normalData (log.take index)).foldl applied default

/-- Every snapshot saved at index `i` holds the effects of the committed normal entries
up to `i`, and no others. -/
def System.Consistent (s : System χ) : Prop :=
  ∀ snap ∈ s.saved, snap.Data = effects s.log snap.Index

/-- The apply goroutine has not failed, and where the batch gives `maybeTriggerSnapshot`
nothing to wait for, it is back at the commit channel. -/
def Node.CaughtUp (n : Node χ) : Bool :=
  match n.loop, n.applying with
  | _, .failed => false
  | .trigger none, .receiving => true
  | .trigger none, _ => false
  | _, _ => true

/-- Every save finds the apply goroutine caught up. -/
def SavesCaughtUp (s : System χ) (l : Label χ) (_ : System χ) : Prop :=
  match l with
  | .save n => (s.nodes n).CaughtUp = true
  | _ => True

instance (s : System χ) (l : Label χ) (s' : System χ) : Decidable (SavesCaughtUp s l s') :=
  match l with
  | .save n => inferInstanceAs (Decidable ((s.nodes n).CaughtUp = true))
  | .commit _ | .ready _ _ _ _ | .sendNil _ | .send _ | .pass _ | .stop _ _ | .apply _
  | .registerPending _ _ | .cleanup _ _ | .shutdown _ | .closeStopc _ | .start _ _ =>
      isTrue trivial

theorem applyCommitData_kvstore (r : RaftNode χ) (data : Option LogEntry) :
    (applyCommitData r data).1.kvstore = applied r.kvstore data := by
  unfold applied
  match data with
  | none => rfl
  | some ⟨.UNKNOWN, _⟩ => rfl
  | some ⟨.Mutate, none⟩ => rfl
  | some ⟨.Mutate, some cmd⟩ =>
    exact (applyMutateLogEntry_kvstore r cmd).trans
      (applyMutateLogEntry_kvstore ({ kvstore := r.kvstore } : RaftNode Unit) cmd).symm

theorem effects_add (log : List EntryType) (i m : Nat) :
    effects log (i + m) = (normalData ((log.drop i).take m)).foldl applied (effects log i) := by
  rw [effects, effects, ← List.foldl_append, normalData, List.take_add, List.filterMap_append]
  rfl

theorem effects_append {log : List EntryType} {i : Nat} (hi : i ≤ log.length)
    (more : List EntryType) : effects (log ++ more) i = effects log i := by
  rw [effects, List.take_append_of_le_length hi, effects]

/-! ## Batches of committed entries -/

theorem committed_succ {log : List EntryType} {i : Nat} (hi : i < log.length) (count : Nat) :
    committed log (i + 1) (count + 1) = ⟨i + 1, log[i]⟩ :: committed log (i + 2) count := by
  rw [committed, Nat.add_sub_cancel, List.getElem?_eq_getElem hi]

theorem committed_length {log : List EntryType} {i count : Nat} (h : i + count ≤ log.length) :
    (committed log (i + 1) count).length = count := by
  induction count generalizing i with
  | zero => rfl
  | succ count ih =>
    rw [committed_succ (by omega), List.length_cons, ih (by omega)]

theorem committed_drop {log : List EntryType} {i count k : Nat} (h : i + count ≤ log.length)
    (hk : k ≤ count) :
    (committed log (i + 1) count).drop k = committed log (i + k + 1) (count - k) := by
  induction k generalizing i count with
  | zero => rfl
  | succ k ih =>
    obtain ⟨count, rfl⟩ := Nat.exists_eq_succ_of_ne_zero (show count ≠ 0 by omega)
    rw [committed_succ (by omega), List.drop_succ_cons, ih (by omega) (by omega)]
    congr 1 <;> omega

theorem committed_append {log : List EntryType} {i count : Nat} (h : i + count ≤ log.length)
    (more : List EntryType) :
    committed (log ++ more) (i + 1) count = committed log (i + 1) count := by
  induction count generalizing i with
  | zero => rfl
  | succ count ih =>
    have hi : i < log.length := by omega
    rw [committed_succ hi, committed_succ (by rw [List.length_append]; omega),
      List.getElem_append_left hi, ih (by omega)]

theorem committed_last {log : List EntryType} {i count : Nat} (h : i + count ≤ log.length)
    {e : Entry} (he : (committed log (i + 1) count).getLast? = some e) : e.Index = i + count := by
  induction count generalizing i e with
  | zero => cases he
  | succ count ih =>
    rw [committed_succ (by omega), List.getLast?_cons, Option.some_inj] at he
    cases hlast : (committed log (i + 2) count).getLast? with
    | none =>
      have hlen := committed_length (show i + 1 + count ≤ log.length by omega)
      rw [List.getLast?_eq_none_iff.mp hlast, List.length_nil] at hlen
      rw [hlast, Option.getD_none] at he
      have hindex := congrArg Entry.Index he
      dsimp only at hindex
      omega
    | some e' =>
      rw [hlast, Option.getD_some] at he
      have hindex := ih (show i + 1 + count ≤ log.length by omega) hlast
      rw [← he]
      omega

theorem entriesData_committed {id : Nat} {log : List EntryType} {i count : Nat}
    (h : i + count ≤ log.length) {data : List (Option LogEntry)}
    (hdata : entriesData id (committed log (i + 1) count) = some data) :
    data = normalData ((log.drop i).take count) := by
  induction count generalizing i data with
  | zero => cases hdata; rfl
  | succ count ih =>
    have hi : i < log.length := by omega
    rw [committed_succ hi, entriesData] at hdata
    rw [List.drop_eq_getElem_cons hi, List.take_succ_cons, normalData]
    have hrest : i + 1 + count ≤ log.length := by omega
    cases hlog : log[i] with
    | normal d =>
      simp only [hlog] at hdata
      obtain ⟨rest, hmap, rfl⟩ := Option.map_eq_some_iff.mp hdata
      exact congrArg (d :: ·) (ih hrest hmap)
    | empty =>
      simp only [hlog] at hdata
      exact ih hrest hdata
    | confChange removed =>
      simp only [hlog] at hdata
      split at hdata
      · cases hdata
      · exact ih hrest hdata

theorem entriesToApply_committed {log : List EntryType} {a i count : Nat}
    (hlog : log.length < 2 ^ 64) (ha : a ≤ log.length) (h : i + count ≤ log.length)
    {ents : List Entry} (hents : entriesToApply a (committed log (i + 1) count) = some ents) :
    ∃ m, a + m ≤ log.length ∧ ents = committed log (a + 1) m := by
  cases count with
  | zero => cases hents; exact ⟨0, ha, rfl⟩
  | succ count =>
    have hlt : i < log.length := by omega
    have hcons := committed_succ hlt count
    have hlen := committed_length h
    rw [hcons] at hents hlen
    unfold entriesToApply at hents
    dsimp only at hents
    split at hents
    · cases hents
    · next hfirst =>
      have hskip : (a + 2 ^ 64 - (i + 1) + 1) % 2 ^ 64 = a - i := by omega
      rw [hskip, hlen] at hents
      split at hents
      · next hlt =>
        cases hents
        refine ⟨count + 1 - (a - i), by omega, ?_⟩
        rw [← hcons, committed_drop h (by omega)]
        congr 2
        omega
      · cases hents
        exact ⟨0, ha, rfl⟩

/-! ## What a node owes -/

/-- Once the apply goroutine is done with what it has taken, the store has the effects of
everything handed over; nothing is known of it after a failure. -/
def Node.Owes (log : List EntryType) (n : Node χ) : Prop :=
  match n.applying with
  | .receiving => n.impl.kvstore = effects log n.appliedIndex
  | .loading => n.disk.map Snapshot.Data = some (effects log n.appliedIndex)
  | .batch rest => rest.foldl applied n.impl.kvstore = effects log n.appliedIndex
  | .failed => True

def Applying.inFlight : Applying → Nat
  | .batch _ => 1
  | _ => 0

def Node.LoopSound (log : List EntryType) (n : Node χ) : Prop :=
  match n.loop with
  | .select | .trigger none => n.Owes log
  | .publishSnapshot index ents =>
      n.disk.map Snapshot.Data = some (effects log index) ∧ index ≤ log.length ∧
        ∃ i count, i + count ≤ log.length ∧ ents = committed log (i + 1) count
  | .publish data last =>
      n.Owes log ∧ ∃ m, last = n.appliedIndex + m ∧ last ≤ log.length ∧
        data = normalData ((log.drop n.appliedIndex).take m)
  | .trigger (some k) => n.Owes log ∧ k = n.handed ∧ n.applying ≠ .loading
  | .stopped => True

structure Node.Sound (log : List EntryType) (n : Node χ) : Prop where
  applied_le : n.appliedIndex ≤ log.length
  counts : n.closed + n.applying.inFlight = n.handed
  loop : n.LoopSound log

theorem Node.Owes.congr {log log' : List EntryType} {n n' : Node χ}
    (hstore : n'.impl.kvstore = n.impl.kvstore) (happlying : n'.applying = n.applying)
    (hdisk : n'.disk = n.disk)
    (heffects : effects log' n'.appliedIndex = effects log n.appliedIndex) (h : n.Owes log) :
    n'.Owes log' := by
  unfold Node.Owes at h ⊢
  rw [hstore, happlying, hdisk, heffects]
  exact h

theorem Node.Sound.mono {log : List EntryType} {n : Node χ} (h : n.Sound log)
    (more : List EntryType) : n.Sound (log ++ more) := by
  have hlen : log.length ≤ (log ++ more).length := by simp
  have howes : n.Owes log → n.Owes (log ++ more) :=
    Node.Owes.congr rfl rfl rfl (effects_append h.applied_le more)
  refine ⟨h.applied_le.trans hlen, h.counts, ?_⟩
  have hloop := h.loop
  unfold Node.LoopSound at hloop ⊢
  split at hloop
  · exact howes hloop
  · exact howes hloop
  · obtain ⟨hdisk, hindex, i, count, hcount, hents⟩ := hloop
    refine ⟨by rw [hdisk, effects_append hindex], hindex.trans hlen, i, count,
      hcount.trans hlen, by rw [hents, committed_append hcount]⟩
  · obtain ⟨ho, m, hlast, hle, hdata⟩ := hloop
    refine ⟨howes ho, m, hlast, hle.trans hlen, ?_⟩
    rw [hdata, List.drop_append_of_le_length h.applied_le,
      List.take_append_of_le_length (by rw [List.length_drop]; omega)]
  · exact ⟨howes hloop.1, hloop.2⟩
  · trivial

/-! ## The steps of one node -/

section Steps

variable {log : List EntryType} {n : Node χ}

theorem publishEntries_sound (id : Nat) (hlog : log.length < 2 ^ 64) {i count : Nat}
    (hcount : i + count ≤ log.length) (hle : n.appliedIndex ≤ log.length)
    (hcounts : n.closed + n.applying.inFlight = n.handed) (howes : n.Owes log) :
    (n.publishEntries id (committed log (i + 1) count)).Sound log := by
  unfold Node.publishEntries
  split
  · exact ⟨hle, hcounts, trivial⟩
  · exact ⟨hle, hcounts, howes⟩
  · next e es hents =>
    obtain ⟨m, hm, hcommitted⟩ := entriesToApply_committed hlog hle hcount hents
    have hlast := committed_last hm (by
      rw [← hcommitted]
      exact List.getLast?_eq_some_getLast (List.cons_ne_nil e es))
    dsimp only
    rw [hlast]
    split
    · exact ⟨hle, hcounts, trivial⟩
    · next hdata =>
      rw [hcommitted] at hdata
      have hnone := entriesData_committed hm hdata
      refine ⟨hm, hcounts, ?_⟩
      show Node.Owes log _
      refine Node.Owes.congr (n := n) rfl rfl rfl ?_ howes
      rw [effects_add, ← hnone, List.foldl_nil]
    · next hdata =>
      rw [hcommitted] at hdata
      exact ⟨hle, hcounts, howes, m, rfl, hm, entriesData_committed hm hdata⟩

theorem ready_sound (id : Nat) (hlog : log.length < 2 ^ 64) {i count : Nat}
    (hcount : i + count ≤ log.length) (h : n.Sound log) (hselect : n.loop = .select)
    {snapshot : Option Snapshot} (hsnap : ∀ snap, snapshot = some snap →
      snap.Index ≤ log.length ∧ snap.Data = effects log snap.Index) :
    (n.ready id snapshot (committed log (i + 1) count)).Sound log := by
  have howes : n.Owes log := by
    have hloop := h.loop
    rwa [Node.LoopSound, hselect] at hloop
  have hpublish := publishEntries_sound id hlog hcount h.applied_le h.counts howes
  unfold Node.ready
  split
  · exact hpublish
  · next snap =>
    obtain ⟨hindex, hdata⟩ := hsnap snap rfl
    split
    · exact hpublish
    · split
      · exact ⟨h.applied_le, h.counts, trivial⟩
      · exact ⟨h.applied_le, h.counts, congrArg some hdata, hindex, i, count, hcount, rfl⟩

theorem sendNil_sound (id : Nat) (hlog : log.length < 2 ^ 64) (h : n.Sound log) {n' : Node χ}
    (hstep : n.sendNil id = some n') : n'.Sound log := by
  unfold Node.sendNil at hstep
  split at hstep
  · next index ents hloop happlying =>
    cases hstep
    have hsound := h.loop
    rw [Node.LoopSound, hloop] at hsound
    obtain ⟨hdisk, hindex, i, count, hcount, rfl⟩ := hsound
    have hcounts := h.counts
    rw [happlying] at hcounts
    exact publishEntries_sound id hlog hcount hindex hcounts hdisk
  · cases hstep

theorem send_sound (h : n.Sound log) {n' : Node χ} (hstep : n.send = some n') :
    n'.Sound log := by
  unfold Node.send at hstep
  split at hstep
  · next data last hloop happlying =>
    cases hstep
    have hsound := h.loop
    rw [Node.LoopSound, hloop] at hsound
    obtain ⟨howes, m, rfl, hle, hdata⟩ := hsound
    have hcounts := h.counts
    rw [happlying] at hcounts
    rw [Node.Owes, happlying] at howes
    refine ⟨hle, congrArg (· + 1) hcounts, ?_, rfl, nofun⟩
    rw [Node.Owes, effects_add, ← howes, hdata]
  · cases hstep

/-- Where the goroutine has caught up, what is saved is the effects of the log. -/
theorem save_sound {snapCount : Nat} (h : n.Sound log) {n' : Node χ} {snap : Snapshot}
    (hstep : n.save snapCount = some (n', snap)) (hcaught : n.CaughtUp = true) :
    n'.Sound log ∧ snap.Index ≤ log.length ∧ snap.Data = effects log snap.Index := by
  unfold Node.save at hstep
  split at hstep
  · next applyDoneC hloop =>
    split at hstep
    · next hdue =>
      cases hstep
      have hsound := h.loop
      rw [Node.LoopSound, hloop] at hsound
      have hcounts := h.counts
      have hreceiving : n.applying = .receiving := by
        unfold Node.CaughtUp at hcaught
        rw [hloop] at hcaught
        cases happlying : n.applying with
        | receiving => rfl
        | failed => simp [happlying] at hcaught
        | loading =>
          cases applyDoneC with
          | none => simp [happlying] at hcaught
          | some k => exact absurd happlying hsound.2.2
        | batch rest =>
          cases applyDoneC with
          | none => simp [happlying] at hcaught
          | some k =>
            -- the batch in flight is the one waited for, and its channel is not closed
            obtain ⟨-, rfl, -⟩ := hsound
            have hclosed : n.handed ≤ n.closed := of_decide_eq_true hdue.2
            rw [happlying, Applying.inFlight] at hcounts
            omega
      have howes : n.Owes log := by
        cases applyDoneC with
        | none => exact hsound
        | some k => exact hsound.1
      have hstore := howes
      rw [Node.Owes, hreceiving] at hstore
      refine ⟨⟨h.applied_le, hcounts, ?_⟩, h.applied_le, hstore⟩
      show Node.Owes log _
      rw [Node.Owes, hreceiving]
      exact hstore
    · cases hstep
  · cases hstep

theorem pass_sound {snapCount : Nat} (h : n.Sound log) {n' : Node χ}
    (hstep : n.pass snapCount = some n') : n'.Sound log := by
  unfold Node.pass at hstep
  split at hstep
  · next applyDoneC hloop =>
    split at hstep
    · cases hstep
      have hsound := h.loop
      rw [Node.LoopSound, hloop] at hsound
      have howes : n.Owes log := by
        cases applyDoneC with
        | none => exact hsound
        | some k => exact hsound.1
      exact ⟨h.applied_le, h.counts, howes⟩
    · cases hstep
  · cases hstep

theorem stop_sound {transportError : Bool} (h : n.Sound log) {n' : Node χ}
    (hstep : n.stop transportError = some n') : n'.Sound log := by
  unfold Node.stop at hstep
  split at hstep
  · split at hstep <;> cases hstep
    exact ⟨h.applied_le, h.counts, trivial⟩
  · split at hstep <;> cases hstep
    exact ⟨h.applied_le, h.counts, trivial⟩
  · cases hstep

/-- A step that the event loop does not take part in. -/
theorem Node.Sound.aside {n' : Node χ} (h : n.Sound log) (hindex : n'.appliedIndex = n.appliedIndex)
    (hdisk : n'.disk = n.disk) (hloop : n'.loop = n.loop) (hhanded : n'.handed = n.handed)
    (hloading : n.applying ≠ .loading → n'.applying ≠ .loading)
    (hcounts : n'.closed + n'.applying.inFlight = n.closed + n.applying.inFlight)
    (howes : n.Owes log → n'.Owes log) : n'.Sound log := by
  refine ⟨hindex ▸ h.applied_le, by rw [hcounts, h.counts, hhanded], ?_⟩
  have hsound := h.loop
  unfold Node.LoopSound at hsound ⊢
  rw [hloop, hdisk, hindex, hhanded]
  split at hsound
  · exact howes hsound
  · exact howes hsound
  · exact hsound
  · exact ⟨howes hsound.1, hsound.2⟩
  · exact ⟨howes hsound.1, hsound.2.1, hloading hsound.2.2⟩
  · trivial

theorem apply_sound (h : n.Sound log) {n' : Node χ} (hstep : n.apply = some n') :
    n'.Sound log := by
  unfold Node.apply at hstep
  split at hstep
  · next happlying =>
    cases hstep
    refine h.aside rfl rfl rfl rfl (fun hne => absurd happlying hne) (by rw [happlying]; rfl)
      fun howes => ?_
    rw [Node.Owes, happlying] at howes
    obtain ⟨snap, hsnap, hdata⟩ := Option.map_eq_some_iff.mp howes
    rw [Node.Owes, hsnap]
    exact hdata
  · next happlying =>
    cases hstep
    refine h.aside rfl rfl rfl rfl (fun _ => nofun) (by rw [happlying]; rfl) fun howes => ?_
    rw [Node.Owes, happlying] at howes
    exact howes
  · next data rest happlying =>
    have hkv := applyCommitData_kvstore n.impl data
    split at hstep
    · next impl hres =>
      cases hstep
      refine h.aside rfl rfl rfl rfl (fun _ => nofun) (by rw [happlying]; rfl) fun howes => ?_
      rw [Node.Owes, happlying] at howes
      have hrest : rest.foldl applied (applied n.impl.kvstore data) = effects log n.appliedIndex :=
        howes
      rw [← hkv, hres] at hrest
      exact hrest
    · cases hstep
      exact h.aside rfl rfl rfl rfl (fun _ => nofun) (by rw [happlying]; rfl) fun _ => trivial
  · cases hstep
  · cases hstep

/-- Requests come and go beside the store. -/
theorem impl_sound (h : n.Sound log) {impl : RaftNode χ} {stopc : Bool}
    (hstore : impl.kvstore = n.impl.kvstore) :
    Node.Sound log { n with impl := impl, stopc := stopc } :=
  h.aside rfl rfl rfl rfl id rfl (Node.Owes.congr hstore rfl rfl rfl)

theorem starting_sound {snapshot : Option Snapshot} (hsnap : ∀ snap, snapshot = some snap →
    snap.Index ≤ log.length ∧ snap.Data = effects log snap.Index) :
    (Node.starting snapshot : Node χ).Sound log := by
  cases snapshot with
  | none => exact ⟨Nat.zero_le _, rfl, rfl⟩
  | some snap => exact ⟨(hsnap snap rfl).1, rfl, (hsnap snap rfl).2⟩

end Steps

/-! ## Runs -/

structure Inv (s : System χ) : Prop where
  bound : s.log.length < 2 ^ 64
  nodes : ∀ n, (s.nodes n).Sound s.log
  saved : ∀ snap ∈ s.saved, snap.Index ≤ s.log.length ∧ snap.Data = effects s.log snap.Index

theorem Inv.put {s : System χ} (h : Inv s) (n : Nat) {node : Node χ} (hnode : node.Sound s.log) :
    Inv (s.put n node) := by
  refine ⟨h.bound, fun m => ?_, h.saved⟩
  show (Function.update s.nodes n node m).Sound s.log
  by_cases hm : m = n
  · subst hm
    rw [Function.update_self]
    exact hnode
  · rw [Function.update_of_ne hm]
    exact h.nodes m

theorem Inv.snapshot {s : System χ} (h : Inv s) {k : Option Nat} {snapshot : Option Snapshot}
    (hk : s.snapshot? k = some snapshot) : ∀ snap, snapshot = some snap →
      snap.Index ≤ s.log.length ∧ snap.Data = effects s.log snap.Index := by
  rintro snap rfl
  cases k with
  | none => cases hk
  | some k =>
    obtain ⟨snap', hget, heq⟩ := Option.map_eq_some_iff.mp hk
    cases heq
    exact h.saved snap (List.mem_of_getElem? hget)

theorem shutdown_kvstore (r : RaftNode χ) : r.shutdown.kvstore = r.kvstore := by
  unfold RaftNode.shutdown
  split <;> rfl

theorem registerPending_kvstore {r r' : RaftNode χ} {ch : χ} {id : Nat}
    (h : r.registerPending ch = some (id, r')) : r'.kvstore = r.kvstore := by
  unfold RaftNode.registerPending at h
  split at h
  · cases h
  · cases h; rfl

/-- Every step keeps the invariant, if a save finds the goroutine caught up. -/
theorem inv_step (snapCount : Nat → Nat) {s s' : System χ} {l : Label χ} (h : Inv s)
    (hcaught : SavesCaughtUp s l s') (hstep : step snapCount s l = some s') : Inv s' := by
  cases l with
  | commit e =>
    simp only [step] at hstep
    split at hstep
    · next hlt =>
      cases hstep
      refine ⟨by rw [List.length_append]; exact hlt, fun n => (h.nodes n).mono [e], ?_⟩
      intro snap hsnap
      obtain ⟨hindex, hdata⟩ := h.saved snap hsnap
      refine ⟨by rw [List.length_append]; omega, ?_⟩
      rw [hdata, effects_append hindex]
    · cases hstep
  | ready n snapshot first count =>
    simp only [step] at hstep
    split at hstep
    · next snap hselect hsnap =>
      split at hstep
      · next hrange =>
        cases hstep
        obtain ⟨i, rfl⟩ := Nat.exists_eq_add_of_le' hrange.1
        rw [Nat.add_sub_cancel] at hrange
        exact h.put n (ready_sound n h.bound hrange.2 (h.nodes n) hselect (h.snapshot hsnap))
      · cases hstep
    · cases hstep
  | sendNil n =>
    obtain ⟨node, hnode, rfl⟩ := Option.map_eq_some_iff.mp hstep
    exact h.put n (sendNil_sound n h.bound (h.nodes n) hnode)
  | send n =>
    obtain ⟨node, hnode, rfl⟩ := Option.map_eq_some_iff.mp hstep
    exact h.put n (send_sound (h.nodes n) hnode)
  | save n =>
    obtain ⟨⟨node, snap⟩, hsave, rfl⟩ := Option.map_eq_some_iff.mp hstep
    obtain ⟨hnode, hsnap⟩ := save_sound (h.nodes n) hsave hcaught
    have hput := h.put n hnode
    refine ⟨hput.bound, hput.nodes, fun snap' hmem => ?_⟩
    rcases List.mem_append.mp hmem with hold | hnew
    · exact h.saved snap' hold
    · rw [List.mem_singleton.mp hnew]
      exact hsnap
  | pass n =>
    obtain ⟨node, hnode, rfl⟩ := Option.map_eq_some_iff.mp hstep
    exact h.put n (pass_sound (h.nodes n) hnode)
  | stop n transportError =>
    obtain ⟨node, hnode, rfl⟩ := Option.map_eq_some_iff.mp hstep
    exact h.put n (stop_sound (h.nodes n) hnode)
  | apply n =>
    obtain ⟨node, hnode, rfl⟩ := Option.map_eq_some_iff.mp hstep
    exact h.put n (apply_sound (h.nodes n) hnode)
  | registerPending n ch =>
    obtain ⟨⟨id, impl⟩, hreg, rfl⟩ := Option.map_eq_some_iff.mp hstep
    exact h.put n (impl_sound (h.nodes n) (registerPending_kvstore hreg))
  | cleanup n id =>
    cases hstep
    exact h.put n (impl_sound (h.nodes n) rfl)
  | shutdown n =>
    cases hstep
    exact h.put n (impl_sound (h.nodes n) (shutdown_kvstore _))
  | closeStopc n =>
    simp only [step] at hstep
    split at hstep
    · cases hstep
      exact h.put n (impl_sound (h.nodes n) rfl)
    · cases hstep
  | start n snapshot =>
    obtain ⟨snap, hsnap, rfl⟩ := Option.map_eq_some_iff.mp hstep
    exact h.put n (starting_sound (h.snapshot hsnap))

theorem inv_initial : Inv ({} : System χ) :=
  ⟨by simp, fun _ => ⟨Nat.le_refl 0, rfl, rfl⟩, fun _ h => absurd h List.not_mem_nil⟩

/-- In every run in which each save finds the apply goroutine caught up, with no entry
rejected, every snapshot saved holds the effects of exactly the entries up to its index. -/
theorem consistent_of_savesCaughtUp (snapCount : Nat → Nat) {ls : List (Label χ)}
    (h : EachStep (step snapCount) SavesCaughtUp ({} : System χ) ls) :
    EachState (step snapCount) System.Consistent ({} : System χ) ls := by
  have hinv : EachState (step snapCount) Inv ({} : System χ) ls :=
    eachState_of_eachStep Inv (P := SavesCaughtUp)
      (fun _ _ _ hi hp hs => inv_step snapCount hi hp hs) inv_initial h
  exact hinv.mono fun s hi snap hsnap => (hi.saved snap hsnap).2

/-! ## A snapshot that misses an entry -/

def setEntry (key : String) : EntryType :=
  .normal (some ⟨.Mutate, some ⟨0, .SET, key, false, some { key := key }⟩⟩)

/-- Two entries in one batch, which is applied to its end before the snapshot is saved. -/
def savedInTime : List (Label Unit) :=
  [.commit (setEntry "a/b"), .commit (setEntry "a/c"), .ready 0 none 1 2, .send 0,
    .apply 0, .apply 0, .apply 0, .save 0]

theorem savedInTime_consistent :
    (run (step fun _ => 1) ({} : System Unit) savedInTime).map (fun s => s.saved.length) = some 1 ∧
    EachState (step fun _ => 1) System.Consistent ({} : System Unit) savedInTime :=
  ⟨by decide, consistent_of_savesCaughtUp (fun _ => 1) (by decide)⟩

/-- An entry is handed over; the next batch holds an empty entry alone, and a snapshot is
due before the first is applied. -/
def savedTooEarly : List (Label Unit) :=
  [.commit (setEntry "a/b"), .commit .empty, .ready 0 none 1 1, .send 0, .pass 0,
    .ready 0 none 2 1, .save 0]

/-- The snapshot saved at index 2 holds nothing of entry 1. -/
theorem savedTooEarly_not_consistent :
    ¬ EachState (step fun _ => 1) System.Consistent ({} : System Unit) savedTooEarly := by
  intro h
  have hrun : ((run (step fun _ => 1) ({} : System Unit) savedTooEarly).map fun s =>
      (s.saved[0]?.map fun snap => (snap.Index, snap.Data.look ["a", "b"]),
        (effects s.log 2).look ["a", "b"])) =
      some (some (2, none), some (.val { key := "a/b" })) := by decide
  obtain ⟨s, hs, heq⟩ := Option.map_eq_some_iff.mp hrun
  simp only [Prod.mk.injEq] at heq
  obtain ⟨hsnap, heffects⟩ := heq
  obtain ⟨snap, hget, hpair⟩ := Option.map_eq_some_iff.mp hsnap
  obtain ⟨hindex, hlook⟩ := Prod.mk.inj hpair
  have hdata := h.of_run hs snap (List.mem_of_getElem? hget)
  rw [hdata, hindex, heffects] at hlook
  cases hlook

end Cassem.KV.EventLoop
