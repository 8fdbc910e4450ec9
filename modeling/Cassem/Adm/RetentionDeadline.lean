import Cassem.Adm.RetentionCycle

/-!
# A retention run and its deadline

The cursor is saved by a request under the deadline of the run. Where the deadline fires before
that request is done, the next run begins where this one began, and what this one has compacted is
compacted again.
-/

namespace Cassem.Adm.Retention

open Lib Lib.Paging
open KV (Store)

/-- The elements of those visited whose compaction was started before the deadline. -/
def Deadline.started (d : Deadline) (visited : List retentionElementRef) :
    List retentionElementRef :=
  ((visited.zipIdx 1).filter fun x => d.startedBy x.2).map (·.1)

/-- How many compactions a run of a limit can start before its deadline. -/
def Deadline.starts (d : Deadline) (limit : Nat) : Nat :=
  match d with
  | .load => 0
  | .scan starts _ _ => min starts limit
  | _ => limit

/-- The next run goes on after those that were started, or begins a new cycle if they were all. -/
def Resumes (kv kv' : Service) (started : List retentionElementRef) : Prop :=
  let left := elementsFrom kv.store (loadCursor kv.cursor)
  left = started ++ elementsFrom kv'.store (loadCursor kv'.cursor) ∨
    (started = left ∧ loadCursor kv'.cursor = {})

instance (kv kv' : Service) (started : List retentionElementRef) :
    Decidable (Resumes kv kv' started) := by
  unfold Resumes
  infer_instance

section Started

variable {deadline : Deadline} {refs left : List retentionElementRef} {limit : Nat}

theorem filter_zipIdx_le {α : Type} (l : List α) (n k : Nat) :
    ((l.zipIdx (k + 1)).filter fun x => x.2 ≤ n).map (·.1) = l.take (n - k) := by
  induction l generalizing k with
  | nil => simp
  | cons a l ih =>
    have hrest := ih (k + 1)
    rw [List.zipIdx_cons, List.filter_cons]
    by_cases hk : k + 1 ≤ n
    · have hn : n - k = (n - (k + 1)) + 1 := by omega
      rw [if_pos (decide_eq_true hk), List.map_cons, hrest, hn, List.take_succ_cons]
    · have hn : n - k = 0 := by omega
      have hn' : n - (k + 1) = 0 := by omega
      rw [hn'] at hrest
      rw [if_neg (by simp [hk]), hrest, hn, List.take_zero, List.take_zero]

theorem started_scan (starts : Nat) (cut : Bool) (fetched : String → String → Bool)
    (refs : List retentionElementRef) :
    (Deadline.scan starts cut fetched).started refs = refs.take starts :=
  filter_zipIdx_le refs starts 0

/-- A deadline that lets every compaction be started. -/
theorem started_all (h : ∀ n, deadline.startedBy n = true) (refs : List retentionElementRef) :
    deadline.started refs = refs := by
  have hall : ((refs.zipIdx 1).filter fun x => deadline.startedBy x.2) = refs.zipIdx 1 :=
    List.filter_eq_self.mpr fun x _ => h x.2
  rw [Deadline.started, hall]
  exact List.zipIdx_map_fst 1 refs

theorem not_expires (h : ∀ n root seek, deadline.fetches n root seek = true) (started : Nat) :
    ¬ Expires deadline started := fun ⟨root, seek, hfails⟩ => by
  cases (h started root seek).symm.trans hfails

/-- What a sweep has started is as much of what was left as it could. -/
theorem started_eq_take
    (hwithin : refs <+: left.take limit)
    (hwhole : refs = left.take limit ∨ Expires deadline refs.length) :
    deadline.started refs = left.take (deadline.starts limit) := by
  cases deadline with
  | load =>
    have hnone : ((refs.zipIdx 1).filter fun x => Deadline.load.startedBy x.2) = [] :=
      List.filter_eq_nil_iff.mpr fun x _ => Bool.false_ne_true
    rw [Deadline.started, hnone]
    exact List.take_zero.symm
  | scan starts cut fetched =>
    rw [started_scan, Deadline.starts, ← List.take_take]
    rcases hwhole with rfl | ⟨root, seek, hfails⟩
    · rfl
    · have hlen : starts ≤ refs.length := by
        by_contra hlt
        simp [Deadline.fetches, not_le.mp hlt] at hfails
      obtain ⟨rest, hrest⟩ := hwithin
      rw [← hrest, List.take_append_of_le_length hlen]
  | save landed =>
    rw [started_all fun _ => rfl]
    exact hwhole.resolve_right (not_expires (fun _ _ _ => rfl) _)
  | saved =>
    rw [started_all fun _ => rfl]
    exact hwhole.resolve_right (not_expires (fun _ _ _ => rfl) _)
  | never =>
    rw [started_all fun _ => rfl]
    exact hwhole.resolve_right (not_expires (fun _ _ _ => rfl) _)

end Started

section Run

variable {config : RetentionConfig} {deadline : Deadline} {now : Int} {kv kv' : Service}
  {s' : Sweep} {ended : Bool} {visited : List retentionElementRef}

theorem saves_cases (h : deadline.saves = true) :
    (∀ n, deadline.startedBy n = true) ∧
      (∀ n root seek, deadline.fetches n root seek = true) ∧
      ∀ kv, startCursor deadline kv = loadCursor kv.cursor := by
  cases deadline with
  | load => cases h
  | scan starts cut fetched => cases h
  | save landed => exact ⟨fun _ => rfl, fun _ _ _ => rfl, fun _ => rfl⟩
  | saved => exact ⟨fun _ => rfl, fun _ _ _ => rfl, fun _ => rfl⟩
  | never => exact ⟨fun _ => rfl, fun _ _ _ => rfl, fun _ => rfl⟩

/-- The cursor that is saved is where the next run is to go on. -/
theorem resumes_saved (hconfig : Usable config) (hreg : Registry kv.store)
    (hsaves : deadline.saves = true)
    (hcursor : kv'.cursor = some (.json (if ended then {} else s'.nextCursor)))
    (hsame : SameElements kv.store kv'.store)
    (hran : Ran config.MaxElementsPerRunValue.toNat deadline (Sweep.first deadline now kv) s' ended
      visited) :
    Resumes kv kv' (deadline.started visited) := by
  have hlimit := hconfig.limited
  obtain ⟨hstarted, hfetches, hstart⟩ := saves_cases hsaves
  have hnever := not_expires hfetches visited.length
  have hleft : (Sweep.first deadline now kv).left = elementsFrom kv.store (loadCursor kv.cursor) :=
    congrArg (elementsFrom kv.store) (hstart kv)
  rw [started_all hstarted]
  cases ended with
  | true => exact .inr ⟨hleft ▸ hran.all rfl, congrArg loadCursor hcursor⟩
  | false =>
    left
    have hmore := (hran.more rfl).resolve_right hnever
    have hvisited := hran.whole.resolve_right hnever
    rw [hleft] at hmore hvisited
    obtain ⟨refs, last, hlast, hmem⟩ := exists_last (by omega) hmore hvisited
    have hcursor : kv'.cursor = some (.json (.after last)) := by
      rw [hcursor, hran.swept.cursor, hlast]
      simp
    have hrest := elementsFrom_visited (List.take_append_drop config.MaxElementsPerRunValue.toNat
      (elementsFrom kv.store (loadCursor kv.cursor))).symm
    rw [← hvisited, hlast, List.getLast?_append, List.getLast?_singleton] at hrest
    have hrest : elementsFrom kv.store (.after last) = _ := hrest
    rw [hcursor, (loadCursor_after hreg hmem).1, hsame.elementsFrom, hrest, hvisited,
      List.take_append_drop]

/-- A cursor that is kept is where the next run is to go on only if nothing was started, or all
was by a run that began a cycle. -/
theorem resumes_kept (hcursor : kv'.cursor = kv.cursor) (hsame : SameElements kv.store kv'.store)
    (started : List retentionElementRef) :
    Resumes kv kv' started ↔ started = [] ∨
      (started = elementsFrom kv.store (loadCursor kv.cursor) ∧ loadCursor kv.cursor = {}) := by
  rw [Resumes, hcursor, hsame.elementsFrom]
  refine or_congr_left ⟨fun heq => ?_, fun hnil => by rw [hnil, List.nil_append]⟩
  have hlen := congrArg List.length heq
  rw [List.length_append] at hlen
  exact List.length_eq_zero_iff.mp (by omega)

end Run

/-- A run comes to its end at every deadline, and the next one goes on after the elements that it
has started exactly if the cursor could be saved in time, or nothing was to be started in time, or
the run began a cycle and could start all of it. -/
theorem runOnce_resumes_iff {config : RetentionConfig} (hconfig : Usable config) {kv : Service}
    (hreg : Registry kv.store) (compact : Nat → retentionElementRef → Outcome)
    (deadline : Deadline) (now finish : Int) :
    let left := elementsFrom kv.store (loadCursor kv.cursor)
    let starts := deadline.starts config.MaxElementsPerRunValue.toNat
    ∃ kv' summary visited fuel,
      (∀ more, fuel ≤ more → runOnce config compact deadline now more finish kv =
        some (kv', summary, visited)) ∧
      (Resumes kv kv' (deadline.started visited) ↔
        deadline.saves = true ∨ starts = 0 ∨ left = [] ∨
          (loadCursor kv.cursor = {} ∧ left.length ≤ starts)) := by
  intro left starts
  obtain ⟨⟨kv', summary, visited⟩, fuel, hruns⟩ :=
    runOnce_returns compact deadline now finish hconfig hreg
  refine ⟨kv', summary, visited, fuel, hruns, ?_⟩
  obtain ⟨s', ended, hstore, hcursor, -, hran⟩ := ran_of_runOnce hconfig hreg (hruns fuel le_rfl)
  have hsame : SameElements kv.store kv'.store := hstore ▸ hran.swept.same
  cases hsaves : deadline.saves with
  | true =>
    rw [if_pos hsaves] at hcursor
    exact iff_of_true (resumes_saved hconfig hreg hsaves hcursor hsame hran) (.inl rfl)
  | false =>
    rw [if_neg (by simp [hsaves])] at hcursor
    have hstarted : deadline.started visited = left.take starts := by
      rw [started_eq_take hran.within hran.whole]
      cases deadline <;> rfl
    rw [resumes_kept hcursor hsame, hstarted, List.take_eq_nil_iff, List.take_eq_self_iff]
    simp only [Bool.false_eq_true, false_or, or_assoc]
    exact or_congr_right (or_congr_right and_comm)

/-- Two elements, with a limit that allows both. -/
def twoElements : Service := ⟨registered ["prod/a", "prod/b"], none, none⟩

theorem runOnce_resumes_twoElements :
    let left := elementsFrom twoElements.store (loadCursor twoElements.cursor)
    let starts := (Deadline.saved).starts 20
    ∃ kv' summary visited fuel,
      (∀ more, fuel ≤ more → runOnce {} allKept .saved 0 more 30 twoElements =
        some (kv', summary, visited)) ∧
      (Resumes twoElements kv' (Deadline.saved.started visited) ↔
        Deadline.saved.saves = true ∨ starts = 0 ∨ left = [] ∨
          (loadCursor twoElements.cursor = {} ∧ left.length ≤ starts)) :=
  runOnce_resumes_iff (by decide) (by decide +kernel) allKept .saved 0 30

def whileFirst : Deadline := .scan 1 true fun _ _ => false

/-- The deadline fires while the first of two elements is compacted: the next run begins with it
again. -/
theorem runOnce_begins_again :
    ∃ kv' summary visited,
      runOnce {} allKept whileFirst 0 3 30 twoElements = some (kv', summary, visited) ∧
      whileFirst.started visited = [⟨"shop", "prod", "a"⟩] ∧
      elementsFrom kv'.store (loadCursor kv'.cursor) =
        [⟨"shop", "prod", "a"⟩, ⟨"shop", "prod", "b"⟩] ∧
      ¬ Resumes twoElements kv' (whileFirst.started visited) := by
  have hrun : ((runOnce {} allKept whileFirst 0 3 30 twoElements).map fun r =>
      (whileFirst.started r.2.2, elementsFrom r.1.store (loadCursor r.1.cursor),
        decide (Resumes twoElements r.1 (whileFirst.started r.2.2)))) =
      some ([⟨"shop", "prod", "a"⟩], [⟨"shop", "prod", "a"⟩, ⟨"shop", "prod", "b"⟩], false) := by
    decide +kernel
  obtain ⟨⟨kv', summary, visited⟩, hrun, heq⟩ := Option.map_eq_some_iff.mp hrun
  simp only [Prod.mk.injEq, decide_eq_false_iff_not] at heq
  exact ⟨kv', summary, visited, hrun, heq⟩

end Cassem.Adm.Retention
