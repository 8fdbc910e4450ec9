import Cassem.Adm.RetentionScan

/-!
# What a retention run comes to

A run asks for the compaction of the elements from its cursor on, one after another, up to its
limit or to a page that it cannot fetch. Its cursor stands after the last of them, and each counts
once in the summary.
-/

namespace Cassem.Adm.Retention

open Lib Lib.Paging Cassem.Concept
open KV (Store)

/-- What the compactions of `refs`, one after another, leave of a sweep. -/
structure Swept (s s' : Sweep) (refs : List retentionElementRef) : Prop where
  same : SameElements s.store s'.store
  visited : s'.visited = s.visited ++ refs
  scanned : s'.summary.ScannedElements = s.summary.ScannedElements + refs.length
  cursor : s'.nextCursor = (refs.getLast?.map retentionCursor.after).getD s.nextCursor
  counted : s'.summary.CleanedElements + s'.summary.PartialElements + s'.summary.FailedElements =
    s.summary.CleanedElements + s.summary.PartialElements + s.summary.FailedElements + refs.length

section Sweep

variable {config : RetentionConfig} {compact : Nat → retentionElementRef → Outcome}
  {deadline : Deadline} {now : Int} {s s' s'' : Sweep} {refs refs' : List retentionElementRef}

theorem Swept.refl (s : Sweep) : Swept s s [] where
  same _ _ := rfl
  visited := (List.append_nil _).symm
  scanned := rfl
  cursor := rfl
  counted := rfl

theorem Swept.append (h : Swept s s' refs) (h' : Swept s' s'' refs') :
    Swept s s'' (refs ++ refs') where
  same q hq := (h'.same q hq).trans (h.same q hq)
  visited := by rw [h'.visited, h.visited, List.append_assoc]
  scanned := by rw [h'.scanned, h.scanned, List.length_append, Nat.add_assoc]
  cursor := by
    rw [h'.cursor, h.cursor, List.getLast?_append]
    cases refs'.getLast? <;> rfl
  counted := by
    have hfirst := h.counted
    have hrest := h'.counted
    rw [List.length_append]
    omega

theorem look_compactElement (compact : Nat → retentionElementRef → Outcome) (deadline : Deadline)
    (number : Nat) (ref : retentionElementRef) (store : Store) :
    SameElements store (compactElement compact deadline number ref store).1 := by
  intro q hq
  rw [compactElement]
  split
  · exact look_applyTo _ ref store hq
  · split
    · exact look_applyTo _ ref store hq
    · rfl

theorem swept_visit (ref : retentionElementRef) (s : Sweep) :
    Swept s (visit config compact deadline now ref s).1 [ref] := by
  have hsame := look_compactElement compact deadline
    (s.summary.ScannedElements + 1) ref s.store
  rw [visit]
  dsimp only
  generalize compactElement compact deadline (s.summary.ScannedElements + 1) ref s.store = r at hsame
  obtain ⟨store, reply⟩ := r
  cases reply with
  | error err => exact ⟨hsame, rfl, rfl, rfl, by simp; omega⟩
  | ok resp =>
    dsimp only
    split
    · exact ⟨hsame, rfl, rfl, rfl, by simp; omega⟩
    · exact ⟨hsame, rfl, rfl, rfl, by simp; omega⟩

theorem visit_more (ref : retentionElementRef) (s : Sweep) :
    (visit config compact deadline now ref s).2 =
      decide ((s.summary.ScannedElements + 1 : Int) < config.MaxElementsPerRunValue) := by
  rw [visit]
  dsimp only
  generalize compactElement compact deadline (s.summary.ScannedElements + 1) ref s.store = r
  obtain ⟨store, reply⟩ := r
  cases reply with
  | error err => rfl
  | ok resp =>
    dsimp only
    split <;> rfl

theorem swept_foldl (refs : List retentionElementRef) (s : Sweep) :
    Swept s (refs.foldl (fun s ref => (visit config compact deadline now ref s).1) s) refs := by
  induction refs generalizing s with
  | nil => exact .refl s
  | cons ref refs ih => exact (swept_visit ref s).append (ih _)

/-- A sweep goes on to its limit. -/
theorem visitAll_visit (compact : Nat → retentionElementRef → Outcome) (deadline : Deadline)
    (now : Int) (hlimit : (s.summary.ScannedElements : Int) < config.MaxElementsPerRunValue)
    (refs : List retentionElementRef) :
    ∃ s', visitAll (visit config compact deadline now) refs s = (s', decide
        (refs.length < config.MaxElementsPerRunValue.toNat - s.summary.ScannedElements)) ∧
      Swept s s' (refs.take
        (config.MaxElementsPerRunValue.toNat - s.summary.ScannedElements)) := by
  have hcount : ∀ ref t, (fun s : Sweep => s.summary.ScannedElements)
      (visit config compact deadline now ref t).1 = t.summary.ScannedElements + 1 :=
    fun ref t => (swept_visit ref t).scanned
  have hstop : ∀ ref (t : Sweep), (visit config compact deadline now ref t).2 =
      decide (t.summary.ScannedElements + 1 < config.MaxElementsPerRunValue.toNat) := by
    intro ref t
    rw [visit_more, decide_eq_decide]
    omega
  have hlt : s.summary.ScannedElements < config.MaxElementsPerRunValue.toNat := by omega
  exact ⟨_, visitAll_counted hcount hstop refs hlt, swept_foldl _ s⟩

end Sweep

/-! ## The pages of a sweep -/

/-- Some page is not fetched in time, when so many compactions have been started. -/
def Expires (deadline : Deadline) (started : Nat) : Prop :=
  ∃ root seek, deadline.fetches started root seek = false

section Pages

variable {config : RetentionConfig} {deadline : Deadline} {now : Int} {store : Store} {σ : Type}
  {sweepOf : σ → Sweep}

theorem plain_of_registry (h : Registry store) {app : String} (happ : app ∈ appsOf store) :
    KV.Plain app := by
  obtain ⟨row, hrow, rfl⟩ := List.mem_map.mp happ
  exact (h.apps row hrow).plain

theorem plain_env_of_registry (h : Registry store) {app env : String} (happ : app ∈ appsOf store)
    (henv : env ∈ envsOf store app) : KV.Plain env := by
  obtain ⟨row, hrow, rfl⟩ := List.mem_map.mp henv
  exact (h.envs app happ row hrow).plain

theorem plain_key_of_registry (h : Registry store) {app env key : String}
    (happ : app ∈ appsOf store) (henv : env ∈ envsOf store app) (hkey : key ∈ keysOf store app env) :
    KV.Plain key := by
  obtain ⟨row, hrow, rfl⟩ := List.mem_map.mp hkey
  exact (h.keys app happ env henv row hrow).plain

/-- A sweep fetches the pages of the tree that it began with. -/
theorem fetch_listing (front : List String) (leaf : String) {root : String} (hfront : front ≠ [])
    (hplain : ∀ s ∈ front ++ [leaf], KV.Plain s) (hlen : (front ++ [leaf]).length ≤ 4)
    (hrows : ∀ row ∈ store.kids (front ++ [leaf]), KV.Listed (front ++ [leaf]) row)
    (hroot : root = "/".intercalate (front ++ [leaf])) (seek : String) (t : σ)
    (hsame : SameElements store (sweepOf t).store) :
    fetch (fun t => (sweepOf t).range config deadline now) root t seek =
        some (pageOf (KV.listing store (front ++ [leaf])) config.ElementPageSizeValue.toNat seek) ∨
      (fetch (fun t => (sweepOf t).range config deadline now) root t seek = none ∧
        Expires deadline (sweepOf t).summary.ScannedElements) := by
  have hkids := hsame.kids hlen
  have hlisting : KV.listing (sweepOf t).store (front ++ [leaf]) = KV.listing store (front ++ [leaf]) :=
    congrArg (List.map _) hkids
  rw [fetch, Sweep.range]
  cases htime : deadline.fetches (sweepOf t).summary.ScannedElements root seek with
  | false =>
    right
    exact ⟨rfl, root, seek, htime⟩
  | true =>
    left
    obtain ⟨page, hpage, heq⟩ := rangeLeaves_listing (n := config.ElementPageSizeValue.toNat)
      hfront hplain (hkids ▸ hrows) now seek
    rw [hroot, hpage]
    exact congrArg some (heq.trans (by rw [hlisting]))

theorem elementKey_segments (app : String) :
    GenAppElementKey app = "/".intercalate (["cassem", "elements"] ++ [app]) := by
  have hroot : "/".intercalate ["cassem", "elements"] = "cassem/elements" := by decide
  rw [KV.intercalate_snoc (List.cons_ne_nil _ _), hroot, GenAppElementKey, joint_pair,
    String.append_assoc]

theorem envKey_segments (app env : String) :
    GenAppElementEnvKey app env = "/".intercalate (["cassem", "elements", app] ++ [env]) := by
  have happ := elementKey_segments app
  rw [List.cons_append, List.singleton_append] at happ
  rw [KV.intercalate_snoc (List.cons_ne_nil _ _), ← happ, GenAppElementEnvKey, GenAppElementKey,
    joint_pair, joint, String.intercalate_cons_of_ne_nil (List.cons_ne_nil _ _), ← joint, joint_pair]
  simp only [String.append_assoc]

theorem paged_sweep (sweepOf : σ → Sweep) (config : RetentionConfig) (deadline : Deadline)
    (now : Int) (h : Registry store) :
    Paged (fun t : σ => (sweepOf t).range config deadline now)
      (fun t => Expires deadline (sweepOf t).summary.ScannedElements)
      (fun t => SameElements store (sweepOf t).store) store config.ElementPageSizeValue.toNat where
  apps seek t hsame :=
    fetch_listing ["cassem"] "apps" (List.cons_ne_nil _ _) (by decide) (by decide) h.apps (by decide)
      seek t hsame
  envs app happ seek t hsame := by
    refine fetch_listing ["cassem", "elements"] app (List.cons_ne_nil _ _) ?_ (by simp)
      (h.envs app happ) (elementKey_segments app) seek t hsame
    have hdirs : KV.Plain "cassem" ∧ KV.Plain "elements" := by decide
    simp [hdirs, plain_of_registry h happ]
  keys app happ env henv seek t hsame := by
    refine fetch_listing ["cassem", "elements", app] env (List.cons_ne_nil _ _) ?_ (by simp)
      (h.keys app happ env henv) (envKey_segments app env) seek t hsame
    have hdirs : KV.Plain "cassem" ∧ KV.Plain "elements" := by decide
    simp [hdirs, plain_of_registry h happ, plain_env_of_registry h happ henv]

end Pages

/-! ## The end of a sweep -/

section Sweep

variable {config : RetentionConfig} {compact : Nat → retentionElementRef → Outcome}
  {deadline : Deadline} {now : Int} {store : Store} {cursor : retentionCursor} {s : Sweep} {fuel : Nat}

/-- The fields of a configuration that a request of the KV service accepts, and a limit that lets a
run begin. -/
structure Usable (config : RetentionConfig) : Prop where
  enabled : config.EnabledValue = true
  paged : 1 ≤ config.ElementPageSizeValue ∧ config.ElementPageSizeValue ≤ 100
  limited : 1 ≤ config.MaxElementsPerRunValue

instance (config : RetentionConfig) : Decidable (Usable config) :=
  decidable_of_iff (config.EnabledValue = true ∧
      (1 ≤ config.ElementPageSizeValue ∧ config.ElementPageSizeValue ≤ 100) ∧
      1 ≤ config.MaxElementsPerRunValue)
    ⟨fun ⟨enabled, paged, limited⟩ => ⟨enabled, paged, limited⟩,
      fun h => ⟨h.enabled, h.paged, h.limited⟩⟩

/-- The scan that looks for one more element. -/
theorem hasElement_spec (deadline : Deadline) (now : Int) (hconfig : Usable config) (hreg : Registry store)
    (hfuel : Enough store fuel) (hsame : SameElements store s.store) (cursor : retentionCursor) :
    ∃ found ok, hasElementAtOrAfterCursor config deadline now fuel cursor s = some (found, ok) ∧
      (ok = true → (found = true ↔ elementsFrom store cursor ≠ [])) ∧
      (ok = false → Expires deadline s.summary.ScannedElements) := by
  have hpage := hconfig.paged
  obtain ⟨r, hr, hreads⟩ := scanElements_reads (fun _ (t : Sweep × Bool) => ((t.1, true), false))
    (fun t => SameElements store t.1.store) (fun _ _ h => h)
    (paged_sweep Prod.fst config deadline now hreg) (by omega) hfuel cursor (s := (s, false)) hsame
  rw [hasElementAtOrAfterCursor, hr]
  rcases hreads with rfl | ⟨bs, -, hall, rfl, hfail⟩
  · cases helements : elementsFrom store cursor with
    | nil => exact ⟨false, true, rfl, by simp, nofun⟩
    | cons ref refs => exact ⟨true, true, rfl, by simp, nofun⟩
  · cases bs with
    | nil => exact ⟨false, false, rfl, nofun, fun _ => hfail⟩
    | cons ref bs => cases hall

def Sweep.left (s : Sweep) : List retentionElementRef := elementsFrom s.store s.nextCursor

/-- A sweep visits what is left, up to the limit or to a page that it cannot fetch, and has ended
only if that was all. -/
structure Ran (limit : Nat) (deadline : Deadline) (s s' : Sweep) (ended : Bool)
    (refs : List retentionElementRef) : Prop where
  swept : Swept s s' refs
  within : refs <+: s.left.take limit
  all : ended = true → refs = s.left
  more : ended = false → limit < s.left.length ∨ Expires deadline refs.length
  whole : refs = s.left.take limit ∨ Expires deadline refs.length

theorem sweep_spec (compact : Nat → retentionElementRef → Outcome) (deadline : Deadline) (now : Int)
    (hconfig : Usable config) (hreg : Registry s.store)
    (hfuel : Enough s.store fuel) (hstart : s.summary.ScannedElements = 0) :
    ∃ s' ended refs, sweep config compact deadline now fuel s.nextCursor s = some (s', ended) ∧
      Ran config.MaxElementsPerRunValue.toNat deadline s s' ended refs := by
  have hpage := hconfig.paged
  have hlimit := hconfig.limited
  obtain ⟨r, hr, hreads⟩ := scanElements_reads (visit config compact deadline now)
    (fun t => SameElements s.store t.store)
    (fun ref t h q hq => ((swept_visit ref t).same q hq).trans (h q hq))
    (paged_sweep id config deadline now hreg) (by omega) hfuel s.nextCursor (s := s) (fun _ _ => rfl)
  change Reads _ _ s.left _ _ at hreads
  have hr : scanElements (Sweep.range config deadline now) (visit config compact deadline now) fuel
      s.nextCursor s = some r := hr
  rw [sweep, hr]
  have hlt : (s.summary.ScannedElements : Int) < config.MaxElementsPerRunValue := by omega
  rcases hreads with rfl | ⟨refs, hpre, hall, rfl, hfail⟩
  · obtain ⟨s', hs', hswept⟩ := visitAll_visit compact deadline now hlt s.left
    rw [hstart, Nat.sub_zero] at hs' hswept
    have hscanned := hswept.scanned
    rw [hstart, List.length_take] at hscanned
    rw [hs']
    by_cases hshort : s.left.length < config.MaxElementsPerRunValue.toNat
    · have hwhole := List.take_of_length_le hshort.le
      refine ⟨s', true, _, ?_, hswept, List.prefix_rfl, fun _ => hwhole, nofun, .inl rfl⟩
      simp [hshort]
    · have hmax : (s'.summary.ScannedElements : Int) = config.MaxElementsPerRunValue := by omega
      have hrest : elementsFrom s.store s'.nextCursor =
          s.left.drop config.MaxElementsPerRunValue.toNat := by
        rw [hswept.cursor]
        exact elementsFrom_visited (List.take_append_drop _ _).symm
      obtain ⟨found, ok, hfound, hok, hfail⟩ := hasElement_spec deadline now hconfig hreg hfuel hswept.same s'.nextCursor
      rw [hrest] at hok
      have hscanned' : s'.summary.ScannedElements =
          (s.left.take config.MaxElementsPerRunValue.toNat).length := by
        rw [List.length_take]
        omega
      refine ⟨s', ok && !found, _, ?_, hswept, List.prefix_rfl, fun hend => ?_, fun hgo => ?_,
        .inl rfl⟩
      · simp [hshort, hmax, hfound]
      · obtain ⟨hyes, hno⟩ := Bool.and_eq_true_iff.mp hend
        have hnil : ¬ s.left.drop config.MaxElementsPerRunValue.toNat ≠ [] :=
          fun hne => by simp [(hok hyes).mpr hne] at hno
        have hlen := congrArg List.length (not_not.mp hnil)
        rw [List.length_drop, List.length_nil] at hlen
        exact List.take_of_length_le (by omega)
      · cases ok with
        | false => exact .inr (hscanned' ▸ hfail rfl)
        | true =>
          have hne := (hok rfl).mp (by simpa using hgo)
          have hlen := List.length_pos_iff.mpr hne
          rw [List.length_drop] at hlen
          exact .inl (by omega)
  · obtain ⟨s', hs', hswept⟩ := visitAll_visit compact deadline now hlt refs
    rw [hstart, Nat.sub_zero] at hs' hswept
    rw [hs'] at hall hfail ⊢
    have hshort : refs.length < config.MaxElementsPerRunValue.toNat := of_decide_eq_true hall
    rw [List.take_of_length_le hshort.le] at hswept
    have hscanned : s'.summary.ScannedElements = refs.length := by
      rw [hswept.scanned, hstart, Nat.zero_add]
    have hother : (s'.summary.ScannedElements : Int) ≠ config.MaxElementsPerRunValue := by omega
    have hexpires : Expires deadline refs.length := hscanned ▸ hfail
    refine ⟨s', false, refs, ?_, hswept, List.prefix_take_iff.mpr ⟨hpre, hshort.le⟩, nofun,
      fun _ => .inr hexpires, .inr hexpires⟩
    simp [hother]

/-- The cursor that a run begins at. -/
def startCursor (deadline : Deadline) (kv : Service) : retentionCursor :=
  match deadline with
  | .load => {}
  | _ => loadCursor kv.cursor

def Sweep.first (deadline : Deadline) (now : Int) (kv : Service) : Sweep :=
  ⟨kv.store, { StartedAt := now }, startCursor deadline kv, [], []⟩

theorem runOnce_eq (compact : Nat → retentionElementRef → Outcome) (deadline : Deadline) (now : Int)
    (fuel : Nat) (hconfig : Usable config) (finish : Int) (kv : Service) :
    runOnce config compact deadline now fuel finish kv =
      (sweep config compact deadline now fuel (Sweep.first deadline now kv).nextCursor
        (Sweep.first deadline now kv)).map fun (s', ended) =>
          (⟨s'.store,
            if deadline.saves then some (.json (if ended then {} else s'.nextCursor)) else kv.cursor,
            match deadline with
              | .never => some { s'.summary with FinishedAt := finish }
              | _ => kv.latest⟩, { s'.summary with FinishedAt := finish }, s'.visited) := by
  have hlimit := hconfig.limited
  have hpositive : ¬ config.MaxElementsPerRunValue ≤ 0 := by omega
  have henabled : ¬ (!config.EnabledValue) = true := by simp [hconfig.enabled]
  unfold runOnce
  rw [if_neg henabled, if_neg hpositive]
  cases deadline <;> rfl

theorem sweep_stable {more : Nat} (hle : fuel ≤ more) {r : Sweep × Bool}
    (h : sweep config compact deadline now fuel cursor s = some r) :
    sweep config compact deadline now more cursor s = some r := by
  rw [sweep] at h ⊢
  cases hscan : scanElements (Sweep.range config deadline now) (visit config compact deadline now)
      fuel cursor s with
  | none =>
    rw [hscan] at h
    cases h
  | some r' =>
    obtain ⟨s', reachedEnd⟩ := r'
    rw [hscan] at h
    rw [scanElements_stable hle hscan]
    dsimp only at h ⊢
    split at h
    · next hend =>
      rw [if_pos hend]
      obtain ⟨r', hr', rfl⟩ := Option.map_eq_some_iff.mp h
      obtain ⟨t, ht, rfl⟩ := Option.map_eq_some_iff.mp hr'
      rw [hasElementAtOrAfterCursor, scanElements_stable hle ht]
      rfl
    · next hend =>
      rw [if_neg hend]
      exact h

theorem runOnce_stable (hconfig : Usable config) {more : Nat} (hle : fuel ≤ more) {finish : Int}
    {kv : Service} {r : Service × retentionRunSummary × List retentionElementRef}
    (h : runOnce config compact deadline now fuel finish kv = some r) :
    runOnce config compact deadline now more finish kv = some r := by
  rw [runOnce_eq compact deadline now _ hconfig] at h ⊢
  obtain ⟨r', hr', rfl⟩ := Option.map_eq_some_iff.mp h
  exact Option.map_eq_some_iff.mpr ⟨r', sweep_stable hle hr', rfl⟩

/-- A run comes to its end. -/
theorem runOnce_returns (compact : Nat → retentionElementRef → Outcome) (deadline : Deadline)
    (now finish : Int) (hconfig : Usable config) {kv : Service} (hreg : Registry kv.store) :
    ∃ r fuel, ∀ more, fuel ≤ more →
      runOnce config compact deadline now more finish kv = some r := by
  obtain ⟨fuel, hfuel⟩ := exists_enough kv.store
  obtain ⟨s', ended, refs, hs', -⟩ := sweep_spec compact deadline now
    (s := Sweep.first deadline now kv) hconfig hreg hfuel rfl
  have hrun := runOnce_eq compact deadline now fuel hconfig finish kv
  rw [hs', Option.map_some] at hrun
  exact ⟨_, fuel, fun more hle => runOnce_stable hconfig hle hrun⟩

/-- What a run leaves: a tree with the same elements, the summary of its sweep, and a cursor if it
was saved. -/
theorem ran_of_runOnce (hconfig : Usable config) {kv kv' : Service} (hreg : Registry kv.store)
    {finish : Int} {summary : retentionRunSummary} {refs : List retentionElementRef}
    (h : runOnce config compact deadline now fuel finish kv = some (kv', summary, refs)) :
    ∃ s' ended, kv'.store = s'.store ∧
      kv'.cursor = (if deadline.saves then some (.json (if ended then {} else s'.nextCursor))
        else kv.cursor) ∧
      summary = { s'.summary with FinishedAt := finish } ∧
      Ran config.MaxElementsPerRunValue.toNat deadline (Sweep.first deadline now kv) s' ended
        refs := by
  obtain ⟨enough, henough⟩ := exists_enough kv.store
  obtain ⟨s', ended, refs', hs', hran⟩ := sweep_spec compact deadline now
    (s := Sweep.first deadline now kv) hconfig hreg (henough.mono (Nat.le_max_left enough fuel)) rfl
  have hrun := runOnce_eq compact deadline now (max enough fuel) hconfig finish kv
  rw [hs', Option.map_some] at hrun
  have hsame := (runOnce_stable hconfig (Nat.le_max_right enough fuel) h).symm.trans hrun
  obtain ⟨rfl, rfl, rfl⟩ := Prod.mk.injEq _ _ _ _ ▸ Option.some.inj hsame
  have hvisited : s'.visited = refs' := by rw [hran.swept.visited]; rfl
  exact ⟨s', ended, rfl, rfl, rfl, hvisited ▸ hran⟩

end Sweep

end Cassem.Adm.Retention
