import Cassem.KV.RangePaging

/-!
# Which keys Range lists

A key without empty segments is listed as the directory that it names, or as nothing, with each
child as it should be where `path.Join` keeps the names and no time wraps. `Range` takes the error
of an empty segment for the one of a key without a parent, so it looks for a bucket of the whole
key, and answers that nothing is there.
-/

namespace Cassem.KV

open Lib

/-- A response has the first live children from the seek key on, as many as the limit allows, and
says where it has stopped. -/
def ListsFrom (now : Int) (req : RangeReq) (rows : List (String × Cell Entity))
    (resp : RangeResp) : Prop :=
  ∃ read rest, (rows.filter fun row => req.seek ≤ row.1) = read ++ rest ∧
    List.Forall₂ (Shown req.key) (read.filter (LiveAt now ·.2)) resp.entities ∧
    resp.entities.length ≤ req.limit ∧ (rest ≠ [] → resp.entities.length = req.limit) ∧
    resp.hasMore = decide (rest ≠ []) ∧ resp.nextSeekKey = (rest.head?.map (·.1)).getD ""

/-- What is to come of a key of two segments or more. -/
structure Classifies (times : Set Int) (store : Store) (key : String) : Prop where
  rejected : Malformed key → ∀ now seek limit, ∃ err,
    Range now store ⟨key, seek, limit⟩ = .error err ∧
      err.errorsIs (.concept Concept.Err_INVALID_ARGUMENT) = true
  missing : ¬ Malformed key → store.look (keyPath key) ≠ some .dir → ∀ now seek limit,
    Range now store ⟨key, seek, limit⟩ = .ok emptyRangeResp
  listed : ¬ Malformed key → store.look (keyPath key) = some .dir → ∀ now ∈ times, ∀ seek limit,
    ∃ resp, Range now store ⟨key, seek, limit⟩ = .ok resp ∧
      ListsFrom now ⟨key, seek, limit⟩ (store.kids (keyPath key)) resp

section Range

variable {now : Int} {store : Store} {req : RangeReq}

theorem Range_of_error {err : GoError} (h : rangeRows store req.key req.seek = .error err)
    (hnotFound : err.errorsIs (.concept Concept.Err_NOT_FOUND) = true) :
    Range now store req = .ok emptyRangeResp := by
  rw [Range, h]
  exact if_pos hnotFound

/-- The error of an empty segment is taken for another, or is not met. -/
theorem locateBucket_malformed {key : String} (hnodes : (keySplitter key).1 ≠ [])
    (h : Malformed key) (store : Store) :
    ∃ err, locateBucket store key false = .error err ∧
      (err.errorsIs ErrNoParentBucket = true ∨ err = ErrNoSuchBucket) := by
  cases hleaf : isEmptyLeaf (keySplitter key).2 with
  | true => exact ⟨ErrEmptyLeaf, by simp [locateBucket, hnodes, hleaf], .inl (by decide)⟩
  | false =>
    have hnode := h.resolve_left (by rw [hleaf]; exact Bool.false_ne_true)
    obtain ⟨i, hi⟩ := Option.isSome_iff_exists.mp (mem_iff_firstEmpty.mp hnode)
    have hlocate := locateBucket_read (t := store) hnodes hleaf
    rw [hi] at hlocate
    dsimp only at hlocate
    split at hlocate
    · exact ⟨ErrEmptyNode, hlocate, .inl (by decide)⟩
    · exact ⟨ErrNoSuchBucket, hlocate, .inr rfl⟩

/-- A key with an empty segment is answered without an error. -/
theorem Range_malformed (hnodes : (keySplitter req.key).1 ≠ []) (h : Malformed req.key) :
    ∃ resp, Range now store req = .ok resp := by
  rcases locateBucket_malformed hnodes h store with ⟨err, hlocate, htaken | rfl⟩
  · cases hbucket : Bolt.bucket store [] req.key with
    | none =>
      have hrows : rangeRows store req.key req.seek =
          .error (.errorf "range.locateLeafBuck: " ErrNoSuchBucket) := by
        simp [rangeRows, hlocate, htaken, hbucket]
      exact ⟨emptyRangeResp, Range_of_error hrows (by decide)⟩
    | some bucket =>
      have hrows : rangeRows store req.key req.seek = .ok ((Bolt.cursor store bucket).dropWhile
          fun row => req.seek ≠ "" && row.1 < req.seek) := by
        simp [rangeRows, hlocate, htaken, hbucket]
      exact ⟨_, by rw [Range, hrows]⟩
  · have hother : ErrNoSuchBucket.errorsIs ErrNoParentBucket = false := by decide
    have hrows : rangeRows store req.key req.seek =
        .error (.errorf "range.locateBucket: " ErrNoSuchBucket) := by
      simp [rangeRows, hlocate, hother]
    exact ⟨emptyRangeResp, Range_of_error hrows (by decide)⟩

end Range

section Classifies

variable {now : Int} {store : Store} {key seek : String} {limit : Nat}
  {rows : List (String × Cell Entity)}

theorem listsFrom_of_faithful (hsorted : SortedMap.Sorted rows) (hkey : "" ∉ split key)
    (hslash : ∀ row ∈ rows, '/' ∉ row.1.toList) (hfaithful : Faithful key rows now)
    (hrows : rangeRows store key seek =
      .ok (rows.dropWhile fun row => seek ≠ "" && row.1 < seek)) :
    ∃ resp, Range now store ⟨key, seek, limit⟩ = .ok resp ∧
      ListsFrom now ⟨key, seek, limit⟩ rows resp := by
  rw [dropWhile_itemsFrom hsorted] at hrows
  obtain ⟨read, hread, hitems, hlen, -, hfull⟩ :=
    rangeScan_reads key now limit (Paging.itemsFrom (·.1) rows seek)
  have hmem : ∀ row ∈ read, row ∈ rows := fun row hrow =>
    (List.mem_filter.mp (hread ▸ List.mem_append_left _ hrow :
      row ∈ Paging.itemsFrom (·.1) rows seek)).1
  refine ⟨_, by rw [Range, hrows], read, _, hread, ?_, hlen, hfull, rfl, rfl⟩
  dsimp only [rangeResult]
  rw [hitems]
  exact forall₂_shown hkey (fun row hrow => hslash row (hmem row hrow))
    ⟨fun k hk => hfaithful.names k (hmem _ hk), fun k e he => hfaithful.times k e (hmem _ he)⟩

/-- A page that is large enough shows the whole directory. -/
theorem shown_of_listsFrom {resp : RangeResp} (hmore : resp.hasMore = false)
    (h : ListsFrom now ⟨key, "", limit⟩ rows resp) :
    List.Forall₂ (Shown key) (rows.filter (LiveAt now ·.2)) resp.entities := by
  obtain ⟨read, rest, hread, hshown, -, -, hstopped, -⟩ := h
  have hrest : rest = [] := by
    by_contra hne
    rw [hmore, decide_eq_true hne] at hstopped
    cases hstopped
  have hall : rows.filter (fun row => decide ("" ≤ row.1)) = rows := Paging.itemsFrom_bot _ rows
  dsimp only at hread
  rw [hall, hrest, List.append_nil] at hread
  rw [hread]
  exact hshown

end Classifies

/-- Range classifies a key as it should exactly if no segment of it is empty, and what is below it
is faithful at the times at which it is read. -/
theorem classifies_iff {log : List Write} (hlog : ∀ w ∈ log, w.Own) {key : String}
    (hnodes : (keySplitter key).1 ≠ []) (times : Set Int) :
    Classifies times (stores log) key ↔ ¬ Malformed key ∧
      ∀ now ∈ times, Faithful key ((stores log).kids (keyPath key)) now := by
  have hwritten := written_stores hlog
  have hsorted := (stores log).sorted_kids (keyPath key)
  constructor
  · intro h
    have hformed : ¬ Malformed key := by
      intro hmalformed
      obtain ⟨err, herr, -⟩ := h.rejected hmalformed 0 "" 0
      obtain ⟨resp, hresp⟩ : ∃ resp, Range 0 (stores log) ⟨key, "", 0⟩ = .ok resp :=
        Range_malformed hnodes hmalformed
      cases herr.symm.trans hresp
    refine ⟨hformed, fun now hnow => ?_⟩
    rcases rangeRows_of_not_malformed hnodes hformed (stores log) "" with ⟨hdir, hrows⟩ | ⟨hdir, -⟩
    · rw [dropWhile_itemsFrom hsorted] at hrows
      replace hrows := hrows.trans (congrArg Except.ok (Paging.itemsFrom_bot _ _))
      obtain ⟨resp, hresp, hlists⟩ := h.listed hformed hdir now hnow ""
        (((stores log).kids (keyPath key)).length + 1)
      have hpage := listPages_whole hrows now 0
      rw [listPages, hresp] at hpage
      dsimp only at hpage
      split at hpage
      · simp [listPages] at hpage
      · next hmore =>
        have heq := (List.cons.inj (Except.ok.inj (Option.some.inj hpage))).1
        have hresp : resp = _ := congrArg PageRead.resp heq
        have hshown := shown_of_listsFrom (Bool.eq_false_of_not_eq_true hmore) hlists
        rw [hresp] at hshown
        rw [keyPath_eq_split] at hshown hdir hsorted ⊢
        refine faithful_of_forall₂_shown (hwritten.filled hdir) (hwritten.ownRows key) ?_ hshown
        exact List.pairwise_map.mpr (hsorted.imp fun hlt => hlt.ne)
    · rw [kids_of_not_dir hdir]
      exact ⟨fun _ hk => absurd hk List.not_mem_nil, fun _ _ he => absurd he List.not_mem_nil⟩
  · rintro ⟨hformed, hfaithful⟩
    refine ⟨fun hmalformed => absurd hmalformed hformed, fun _ hno now seek limit => ?_,
      fun _ hyes now hnow seek limit => ?_⟩
    · rcases rangeRows_of_not_malformed hnodes hformed (stores log) seek with
        ⟨hdir, -⟩ | ⟨-, err, herr, hnotFound⟩
      · exact absurd hdir hno
      · exact Range_of_error herr hnotFound
    · rcases rangeRows_of_not_malformed hnodes hformed (stores log) seek with
        ⟨-, hrows⟩ | ⟨hdir, -⟩
      · have hdir := hyes
        rw [keyPath_eq_split] at hdir
        have hslash := (hwritten.ownRows key).slash
        rw [← keyPath_eq_split] at hslash
        exact listsFrom_of_faithful hsorted (hwritten.filled hdir) hslash (hfaithful now hnow) hrows
      · exact absurd hyes hdir

def oneApp : List Write :=
  [.set "cassem/apps/shop" { key := "cassem/apps/shop", ttl := NeverExpired } false]

theorem classifies_apps : Classifies {0, 1} (stores oneApp) "cassem/apps" ↔
    ¬ Malformed "cassem/apps" ∧
      ∀ now ∈ ({0, 1} : Set Int), Faithful "cassem/apps" ((stores oneApp).kids ["cassem", "apps"]) now :=
  classifies_iff (by simp [oneApp, Write.Own]) (by decide) {0, 1}

/-- An empty leaf: GetKV says that the argument is invalid, and Range that nothing is there. -/
theorem Range_of_empty_leaf :
    getKV (stores oneApp) "cassem/apps/" true = .error ErrEmptyLeaf ∧
      ErrEmptyLeaf.errorsIs (.concept Concept.Err_INVALID_ARGUMENT) = true ∧
      Range 0 (stores oneApp) ⟨"cassem/apps/", "", 10⟩ = .ok emptyRangeResp ∧
      ¬ Classifies {0} (stores oneApp) "cassem/apps/" := by
  refine ⟨by rfl, by decide, by rfl, fun h => ?_⟩
  obtain ⟨err, herr, -⟩ := h.rejected (by decide) 0 "" 10
  cases herr

end Cassem.KV
