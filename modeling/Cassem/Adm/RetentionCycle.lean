import Cassem.Adm.RetentionRun
import Cassem.Lib.ResumedScan
import Cassem.Lib.Transition

/-!
# Cycles of the retention garbage collector

A cycle lasts from one reset of the cursor to the next, for as many runs as it takes, and apps,
environments and elements are created and deleted between them. Without errors and deadlines the
runs are one resumed scan of the elements, so a cycle visits what is there all the while once, and
in order.
-/

namespace Cassem.Adm.Retention

open Lib Lib.Paging
open KV (Store)

/-- The service between runs. `seen` was visited since the cursor was last reset, and `steady` has
been in the tree since then. -/
structure Cycle where
  kv : Service
  seen : List retentionElementRef
  steady : List retentionElementRef

/-- The cycle that begins where the service has its cursor. -/
def Cycle.startAt (kv : Service) : Cycle where
  kv := kv
  seen := []
  steady := elementsFrom kv.store (loadCursor kv.cursor)

inductive Act where
  /-- The tree becomes another, between two runs. -/
  | change (store : Store) (registry : Registry store)
  | run (fuel : Nat) (now finish : Int) (compact : Nat → retentionElementRef → Outcome)

def step (config : RetentionConfig) (c : Cycle) : Act → Option Cycle
  | .change store _ => some {
      c with
      kv := { c.kv with store }
      steady := c.steady.filter fun ref => ref ∈ elements store }
  | .run fuel now finish compact =>
      (runOnce config compact .never now fuel finish c.kv).map fun (kv, _, visited) =>
        if kv.cursor = some (.json {}) then Cycle.startAt kv
        else { c with kv, seen := c.seen ++ visited }

/-- The elements of the tree that are not before the cursor, in the order of the keys. -/
def Cycle.left (c : Cycle) : List retentionElementRef :=
  (elements c.kv.store).filter fun ref => (loadCursor c.kv.cursor).pos ≤ ref.pos

/-- What is to hold of a run in a cycle. -/
structure Covers (limit : Nat) (c : Cycle) (kv : Service) (summary : retentionRunSummary)
    (visited : List retentionElementRef) : Prop where
  /-- It visits what is left in the tree from the cursor on, up to the limit of a run. -/
  visits : visited = c.left.take limit
  /-- It resets the cursor exactly if that was all, -/
  resets : kv.cursor = some (.json {}) ↔ c.left.length ≤ limit
  /-- and otherwise leaves it just past what it has visited. -/
  advances : limit < c.left.length →
    ∃ last, visited.getLast? = some last ∧ loadCursor kv.cursor = .after last
  /-- Nothing is visited again, and all in the order of the keys. -/
  ordered : (c.seen ++ visited).Pairwise fun a b => a.pos < b.pos
  /-- When the cursor is reset, all that was there since the last time has been visited. -/
  once : kv.cursor = some (.json {}) → ∀ ref ∈ c.steady, (c.seen ++ visited).count ref = 1
  /-- It is reset only if no element lies after where the run has come to. -/
  rest : kv.cursor = some (.json {}) → ∀ ref ∈ elements kv.store,
    ref.pos < ((visited.getLast?.map retentionCursor.after).getD (loadCursor c.kv.cursor)).pos
  counted : summary.ScannedElements =
    summary.CleanedElements + summary.PartialElements + summary.FailedElements

def Terminates (config : RetentionConfig) (c : Cycle) : Prop :=
  ∀ now finish compact, ∃ r fuel, ∀ more, fuel ≤ more →
    runOnce config compact .never now more finish c.kv = some r

/-- Each run of a step covers its part of the cycle. -/
def Covered (config : RetentionConfig) (c : Cycle) : Act → Cycle → Prop
  | .change _ _, _ => True
  | .run fuel now finish compact, _ => ∀ kv summary visited,
      runOnce config compact .never now fuel finish c.kv = some (kv, summary, visited) →
        Covers config.MaxElementsPerRunValue.toNat c kv summary visited

/-! ## The scan that the runs make -/

abbrev Pos := String ×ₗ String ×ₗ String

def Cycle.scan (c : Cycle) : ResumedScan Pos where
  items := (elements c.kv.store).map (·.pos)
  sorted := List.pairwise_map.mpr (pairwise_elements c.kv.store)
  seek := (loadCursor c.kv.cursor).pos
  seen := c.seen.map (·.pos)
  steady := c.steady.map (·.pos)

def nextPos (p : Pos) : Pos := toLex ((ofLex p).1, toLex ((ofLex (ofLex p).2).1,
  nextSeekAfter (ofLex (ofLex p).2).2))

theorem nextPos_le (x y : Pos) : nextPos x ≤ y ↔ x < y :=
  have hafter (ref ref' : retentionElementRef) :
      (retentionCursor.after ref).pos ≤ ref'.pos ↔ ref.pos < ref'.pos := pos_after_le
  hafter ⟨(ofLex x).1, (ofLex (ofLex x).2).1, (ofLex (ofLex x).2).2⟩
    ⟨(ofLex y).1, (ofLex (ofLex y).2).1, (ofLex (ofLex y).2).2⟩

theorem left_scan (c : Cycle) :
    c.scan.left = (elementsFrom c.kv.store (loadCursor c.kv.cursor)).map (·.pos) := by
  rw [elementsFrom_eq]
  exact List.filter_map

theorem mem_elements {store : Store} {ref : retentionElementRef} (h : ref ∈ elements store) :
    ref.App ∈ appsOf store ∧ ref.Env ∈ envsOf store ref.App ∧
      ref.Key ∈ keysOf store ref.App ref.Env := by
  obtain ⟨app, happ, h⟩ := List.mem_flatMap.mp h
  obtain ⟨env, henv, h⟩ := List.mem_flatMap.mp h
  obtain ⟨key, hkey, rfl⟩ := List.mem_map.mp h
  exact ⟨happ, henv, hkey⟩

theorem elementsFrom_first (store : Store) : elementsFrom store {} = elements store := by
  rw [elementsFrom_eq, List.filter_eq_self]
  exact fun ref _ => decide_eq_true (bot_le : (⊥ : Pos) ≤ ref.pos)

/-- The cursor after an element is read again as it was saved, and is no reset. -/
theorem loadCursor_after {store : Store} (h : Registry store) {ref : retentionElementRef}
    (href : ref ∈ elements store) :
    loadCursor (some (.json (.after ref))) = .after ref ∧ retentionCursor.after ref ≠ {} := by
  obtain ⟨happ, henv, hkey⟩ := mem_elements href
  have happ' := plain_of_registry h happ
  have henv' := plain_env_of_registry h happ henv
  have hkey' := plain_key_of_registry h happ henv hkey
  have hvalid : validRetentionCursor (.after ref) = true := by
    simp [validRetentionCursor, retentionCursor.after, nextSeekAfter, happ'.ne_empty,
      henv'.ne_empty, happ'.slash, henv'.slash, hkey'.slash]
  refine ⟨if_pos hvalid, fun heq => ?_⟩
  exact happ'.ne_empty (congrArg retentionCursor.App heq)

/-! ## A step is one of the scan -/

section Step

variable {config : RetentionConfig} {c : Cycle}

theorem scan_change (c : Cycle) (store : Store) :
    Cycle.scan {
      c with
      kv := { c.kv with store }
      steady := c.steady.filter fun ref => ref ∈ elements store } =
      c.scan.change ((elements store).map (·.pos)) (List.pairwise_map.mpr (pairwise_elements store)) := by
  refine ResumedScan.ext rfl rfl rfl ?_
  change List.map _ _ = (c.steady.map (·.pos)).filter _
  rw [List.filter_map]
  refine congrArg _ (List.filter_congr fun ref _ => ?_)
  simp [retentionElementRef.pos_injective.eq_iff]

/-- What a run without a deadline does to the scan. -/
theorem ran_never {limit : Nat} {now : Int} {kv : Service} {s' : Sweep} {ended : Bool}
    {refs : List retentionElementRef}
    (h : Ran limit .never (Sweep.first .never now kv) s' ended refs) :
    refs = (elementsFrom kv.store (loadCursor kv.cursor)).take limit ∧
      (ended = true ↔ (elementsFrom kv.store (loadCursor kv.cursor)).length ≤ limit) := by
  have hnever : ¬ Expires .never refs.length := fun ⟨_, _, hfails⟩ => Bool.noConfusion hfails
  have hrefs := h.whole.resolve_right hnever
  refine ⟨hrefs, fun hend => ?_, fun hle => ?_⟩
  · have hlen := congrArg List.length (hrefs.symm.trans (h.all hend))
    rw [List.length_take] at hlen
    change min limit (elementsFrom kv.store (loadCursor kv.cursor)).length = _ at hlen
    change _ = (elementsFrom kv.store (loadCursor kv.cursor)).length at hlen
    omega
  · by_contra hgo
    have hmore := (h.more (Bool.eq_false_iff.mpr hgo)).resolve_right hnever
    exact absurd hmore (not_lt.mpr hle)

/-- What a run visits that leaves elements for the next is not nothing. -/
theorem exists_last {store : Store} {cursor : retentionCursor}
    {visited : List retentionElementRef} {limit : Nat} (hlimit : 0 < limit)
    (hmore : limit < (elementsFrom store cursor).length)
    (hvisited : visited = (elementsFrom store cursor).take limit) :
    ∃ refs last, visited = refs ++ [last] ∧ last ∈ elements store := by
  obtain ⟨refs, last, hlast⟩ : ∃ refs last, visited = refs ++ [last] := by
    refine (List.eq_nil_or_concat' visited).resolve_left fun hnil => ?_
    rw [hnil] at hvisited
    have hlen := congrArg List.length hvisited
    rw [List.length_take, List.length_nil] at hlen
    omega
  have hmem : last ∈ visited := by rw [hlast]; simp
  rw [hvisited, elementsFrom_eq] at hmem
  exact ⟨refs, last, hlast, (List.mem_filter.mp (List.mem_of_mem_take hmem)).1⟩

/-- A run that leaves elements for the next leaves the cursor past the last that it visited. -/
theorem cursor_of_more {limit : Nat} (hlimit : 0 < limit) {kv : Service} (hreg : Registry kv.store)
    {now : Int} {s' : Sweep} {refs : List retentionElementRef}
    (h : Ran limit .never (Sweep.first .never now kv) s' false refs)
    (hmore : limit < (elementsFrom kv.store (loadCursor kv.cursor)).length) :
    ∃ last, refs.getLast? = some last ∧ s'.nextCursor = .after last ∧
      loadCursor (some (.json (.after last))) = .after last ∧ retentionCursor.after last ≠ {} := by
  obtain ⟨hvisited, -⟩ := ran_never h
  obtain ⟨before, last, hlast, hmem⟩ := exists_last hlimit hmore hvisited
  obtain ⟨hload, hother⟩ := loadCursor_after hreg hmem
  refine ⟨last, by rw [hlast]; simp, ?_, hload, hother⟩
  rw [h.swept.cursor, hlast]
  simp

theorem scan_run (hconfig : Usable config) (hreg : Registry c.kv.store) {fuel : Nat}
    {now finish : Int} {compact : Nat → retentionElementRef → Outcome} {kv : Service}
    {summary : retentionRunSummary} {visited : List retentionElementRef}
    (h : runOnce config compact .never now fuel finish c.kv = some (kv, summary, visited)) :
    Registry kv.store ∧
      (c.seen ++ visited).map (·.pos) = c.scan.cycle config.MaxElementsPerRunValue.toNat ∧
      (kv.cursor = some (.json {}) ↔ c.scan.left.length ≤ config.MaxElementsPerRunValue.toNat) ∧
      (if kv.cursor = some (.json {}) then Cycle.startAt kv
        else { c with kv, seen := c.seen ++ visited }).scan =
        c.scan.advance nextPos config.MaxElementsPerRunValue.toNat := by
  have hlimit := hconfig.limited
  obtain ⟨s', ended, hstore, hcursor, -, hran⟩ := ran_of_runOnce hconfig hreg h
  obtain ⟨hvisited, hended⟩ := ran_never hran
  have hsame : SameElements c.kv.store kv.store := hstore ▸ hran.swept.same
  have hitems : (elements kv.store).map (·.pos) = c.scan.items :=
    congrArg (List.map _) hsame.elements
  have hleft := left_scan c
  have hseen : (c.seen ++ visited).map (·.pos) =
      c.scan.cycle config.MaxElementsPerRunValue.toNat := by
    rw [ResumedScan.cycle, hleft, List.map_append, hvisited, List.map_take]
    rfl
  have hlen : c.scan.left.length = (elementsFrom c.kv.store (loadCursor c.kv.cursor)).length := by
    rw [hleft, List.length_map]
  refine ⟨hsame.registry hreg, hseen, ?_⟩
  rw [hlen, ResumedScan.advance, hlen]
  cases ended with
  | true =>
    have hle := hended.mp rfl
    have hcursor : kv.cursor = some (.json {}) := hcursor
    rw [if_pos hcursor, if_pos hle]
    refine ⟨iff_of_true hcursor hle, ResumedScan.ext hitems ?_ rfl ?_⟩
    · change (loadCursor kv.cursor).pos = ⊥
      rw [hcursor]
      rfl
    · change (elementsFrom kv.store (loadCursor kv.cursor)).map (·.pos) = upFrom c.scan.items ⊥
      rw [hcursor, upFrom_bot, ← hitems]
      exact congrArg (List.map _) (elementsFrom_first kv.store)
  | false =>
    have hmore : ¬ (elementsFrom c.kv.store (loadCursor c.kv.cursor)).length ≤
        config.MaxElementsPerRunValue.toNat := fun hle => by cases hended.mpr hle
    obtain ⟨last, hlast, hnext, hload, hother⟩ :=
      cursor_of_more (by omega) hreg hran (not_le.mp hmore)
    have hcursor : kv.cursor = some (.json (.after last)) := by
      rw [hcursor, hnext]
      rfl
    have hreset : ¬ kv.cursor = some (.json {}) := by
      rw [hcursor]
      simpa using hother
    rw [if_neg hreset, if_neg hmore]
    refine ⟨iff_of_false hreset hmore, ResumedScan.ext hitems ?_ hseen rfl⟩
    change (loadCursor kv.cursor).pos =
      (((c.scan.left.take config.MaxElementsPerRunValue.toNat).getLast?.map nextPos).getD c.scan.seek)
    rw [hleft, ← List.map_take, ← hvisited, List.getLast?_map, hlast, hcursor, hload]
    rfl

/-- A cycle between runs: its tree is registered, and it stands as a resumed scan does. -/
structure Cycle.Inv (c : Cycle) : Prop where
  registry : Registry c.kv.store
  scan : c.scan.Inv

theorem inv_startAt {kv : Service} (h : Registry kv.store) : (Cycle.startAt kv).Inv where
  registry := h
  scan := by
    have hsorted := List.pairwise_map.mpr (pairwise_elements kv.store)
    have heq : (Cycle.startAt kv).scan = ResumedScan.startAt _ hsorted (loadCursor kv.cursor).pos :=
      ResumedScan.ext rfl rfl rfl (left_scan (Cycle.startAt kv)).symm
    rw [heq]
    exact ResumedScan.inv_startAt _ hsorted _

theorem inv_step (hconfig : Usable config) {c' : Cycle} {act : Act} (h : c.Inv)
    (hstep : step config c act = some c') : c'.Inv := by
  cases act with
  | change store registry =>
    cases hstep
    exact ⟨registry, scan_change c store ▸ h.scan.change _ _⟩
  | run fuel now finish compact =>
    have hlimit := hconfig.limited
    obtain ⟨⟨kv, summary, visited⟩, hrun, rfl⟩ := Option.map_eq_some_iff.mp hstep
    obtain ⟨hreg, -, -, hscan⟩ := scan_run hconfig h.registry hrun
    refine ⟨?_, hscan ▸ h.scan.advance nextPos_le (by omega)⟩
    dsimp only
    split
    · exact hreg
    · exact hreg

theorem covers_run (hconfig : Usable config) (h : c.Inv) {fuel : Nat} {now finish : Int}
    {compact : Nat → retentionElementRef → Outcome} {kv : Service} {summary : retentionRunSummary}
    {visited : List retentionElementRef}
    (hrun : runOnce config compact .never now fuel finish c.kv = some (kv, summary, visited)) :
    Covers config.MaxElementsPerRunValue.toNat c kv summary visited := by
  have hlimit := hconfig.limited
  obtain ⟨-, hcycle, hreset, -⟩ := scan_run hconfig h.registry hrun
  obtain ⟨s', ended, hstore, hcursor, rfl, hran⟩ := ran_of_runOnce hconfig h.registry hrun
  obtain ⟨hvisited, -⟩ := ran_never hran
  have hordered : (c.seen ++ visited).Pairwise fun a b => a.pos < b.pos := by
    have hcycle' := h.scan.cycle_ordered config.MaxElementsPerRunValue.toNat
    rw [← hcycle] at hcycle'
    exact List.pairwise_map.mp hcycle'
  have hleft : c.left = elementsFrom c.kv.store (loadCursor c.kv.cursor) :=
    (elementsFrom_eq _ _).symm
  refine ⟨hleft ▸ hvisited, ?_, fun hmore => ?_, hordered, fun heq ref href => ?_,
    fun heq ref href => ?_, ?_⟩
  · rw [hreset, left_scan, List.length_map, hleft]
  · rw [hleft] at hmore
    have hended : ended = false := Bool.eq_false_iff.mpr fun hend =>
      absurd ((ran_never hran).2.mp hend) (not_le.mpr hmore)
    subst hended
    obtain ⟨last, hlast, hnext, hload, -⟩ := cursor_of_more (by omega) h.registry hran hmore
    refine ⟨last, hlast, ?_⟩
    rw [hcursor, hnext]
    exact hload
  · have hmem := h.scan.cycle_covers (hreset.mp heq) (List.mem_map_of_mem href)
    rw [← hcycle] at hmem
    have hnodup : (c.seen ++ visited).Nodup := by
      refine hordered.imp fun hlt heq => ?_
      rw [heq] at hlt
      exact lt_irrefl _ hlt
    exact List.count_eq_one_of_mem hnodup
      ((List.mem_map_of_injective retentionElementRef.pos_injective).mp hmem)
  · have hle := hreset.mp heq
    rw [left_scan, List.length_map] at hle
    have hsame : SameElements c.kv.store kv.store := hstore ▸ hran.swept.same
    have hafter := elementsFrom_visited (List.take_append_drop config.MaxElementsPerRunValue.toNat
      (elementsFrom c.kv.store (loadCursor c.kv.cursor))).symm
    rw [← hvisited, List.drop_eq_nil_of_le hle, elementsFrom_eq, List.filter_eq_nil_iff] at hafter
    rw [hsame.elements] at href
    exact not_le.mp fun hnot => hafter ref href (decide_eq_true hnot)
  · have hscanned := hran.swept.scanned
    have hcounted := hran.swept.counted
    change _ = 0 + 0 + 0 + visited.length at hcounted
    change _ = 0 + visited.length at hscanned
    dsimp only
    omega

end Step

/-- Runs without errors and deadlines, and whatever is created and deleted between them: each comes
to its end, and in each cycle what is there throughout is visited once and in order. -/
theorem run_covers {config : RetentionConfig} (hconfig : Usable config) {kv : Service}
    (hreg : Registry kv.store) (acts : List Act) :
    Transition.EachState (step config) (Terminates config) (Cycle.startAt kv) acts ∧
      Transition.EachStep (step config) (Covered config) (Cycle.startAt kv) acts := by
  have hinv := inv_startAt hreg
  have hsteps : Transition.EachStep (step config) (fun _ _ _ => True) (Cycle.startAt kv) acts :=
    Transition.eachStep_true _ _
  constructor
  · have hstates := Transition.eachState_of_eachStep Cycle.Inv
      (fun c act c' h _ hstep => inv_step hconfig h hstep) hinv hsteps
    exact hstates.mono fun c h now finish compact =>
      runOnce_returns compact .never now finish hconfig h.registry
  · refine Transition.eachStep_imp Cycle.Inv (fun c act c' h hstep => inv_step hconfig h hstep)
      (fun c act c' h _ _ => ?_) hinv hsteps
    cases act with
    | change store registry => trivial
    | run fuel now finish compact => exact fun kv summary visited => covers_run hconfig h

/-- The elements of one app, each with its metadata. -/
def registered (elements : List String) : Store :=
  KV.stores (.set "cassem/apps/shop" { key := "cassem/apps/shop", ttl := KV.NeverExpired } false ::
    elements.map fun key =>
      let metadata := "cassem/elements/shop/" ++ key ++ "/metadata"
      .set metadata { key := metadata, ttl := KV.NeverExpired } false)

def onePerRun : RetentionConfig := { MaxElementsPerRun := some 1, ElementPageSize := some 1 }

/-- Nothing of the elements is deleted. -/
def allKept : Nat → retentionElementRef → Outcome :=
  fun _ _ => ⟨[], .ok { ScannedVersions := 0, ScannedOperations := 0, FailedKeys := [] }⟩

/-- The element at the cursor is deleted, and one is created behind the cursor. -/
theorem run_covers_changed :
    let acts := [
      Act.run 3 0 0 allKept,
      .change (registered ["prod/c", "prod/a", "test/a"]) (by decide +kernel),
      .run 3 1 1 allKept, .run 3 2 2 allKept]
    let start := Cycle.startAt ⟨registered ["prod/b", "prod/c", "test/a"], none, none⟩
    Transition.EachState (step onePerRun) (Terminates onePerRun) start acts ∧
      Transition.EachStep (step onePerRun) (Covered onePerRun) start acts :=
  run_covers (by decide) (by decide +kernel) _

end Cassem.Adm.Retention
