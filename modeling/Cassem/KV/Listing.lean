import Cassem.Adm.Bind
import Cassem.KV.Cluster
import Cassem.KV.WatchStream
import Cassem.Lib.Paging
import Mathlib.Data.List.DropRight

/-!
# What Range lists

A directory whose entries have plain names, and whose values have their own keys and no time to
live, is listed by `Range` in pages of its names. The last element of the path of each entry is
its name.
-/

namespace Cassem.KV

open Lib Lib.Paging

instance instOrderBotString : OrderBot String where
  bot := ""
  bot_le s := by
    rw [String.le_iff_toList_le]
    exact not_lt.mp (List.not_lt_nil s.toList)

/-- `path.Base`. -/
def pathBase (path : String) : String :=
  if path = "" then "."
  else
    let base := (split (String.ofList (path.toList.rdropWhile (· = '/')))).getLastD ""
    if base = "" then "/" else base

/-- `raftNodeImpl.Range`, at `now` on the store of a node. -/
def Range (now : Int) (store : Store) (req : RangeReq) : Except GoError RangeResp :=
  match rangeRows store req.key req.seek with
  | .error err =>
      if err.errorsIs (.concept Concept.Err_NOT_FOUND) then .ok emptyRangeResp
      else .error (.errorf "raftNodeImpl.Range: " err)
  | .ok rows =>
      let result := rangeResult now req.key req.limit rows
      .ok ⟨result.items, result.hasMore, result.nextSeekKey⟩

/-- A segment that a path keeps as it is. -/
structure Plain (s : String) : Prop where
  filled : isEmptyLeaf s = false
  slash : '/' ∉ s.toList
  dot : s ≠ "."
  dots : s ≠ ".."

instance (s : String) : Decidable (Plain s) :=
  decidable_of_iff (isEmptyLeaf s = false ∧ '/' ∉ s.toList ∧ s ≠ "." ∧ s ≠ "..")
    ⟨fun ⟨filled, slash, dot, dots⟩ => ⟨filled, slash, dot, dots⟩,
      fun h => ⟨h.filled, h.slash, h.dot, h.dots⟩⟩

theorem Plain.ne_empty {s : String} (h : Plain s) : s ≠ "" := by
  rintro rfl
  exact absurd h.filled (by decide)

/-- The identifiers of requests are plain. -/
theorem plain_of_isIdentifier {s : String} (h : Adm.isIdentifier s = true) : Plain s := by
  unfold Adm.isIdentifier at h
  split at h
  · cases h
  · next c cs heq =>
    obtain ⟨hc, hcs⟩ := Bool.and_eq_true_iff.mp h
    have hne : ∀ d : Char, d.isAlphanum = false → c ≠ d := by
      rintro d hd rfl
      rw [hd] at hc
      cases hc
    have hspace : isSpace c = false := by
      delta Char.isAlphanum Char.isAlpha Char.isUpper Char.isLower Char.isDigit at hc
      simp only [Bool.or_eq_true, Bool.and_eq_true, decide_eq_true_eq, ge_iff_le,
        UInt32.le_iff_toNat_le] at hc
      simp [isSpace, UInt32.le_iff_toNat_le, ← UInt32.toNat_inj]
      simp at hc
      omega
    refine ⟨?_, ?_, ?_, ?_⟩
    · rw [isEmptyLeaf, heq, List.all_cons, hspace, Bool.false_and]
    · rw [heq]
      intro hmem
      rcases List.mem_cons.mp hmem with hmem | hmem
      · exact hne '/' (by decide) hmem.symm
      · exact absurd (List.all_eq_true.mp hcs _ hmem) (by decide)
    · rintro rfl
      exact hne '.' (by decide) (List.cons.inj heq).1.symm
    · rintro rfl
      exact hne '.' (by decide) (List.cons.inj heq).1.symm

/-! ## Paths of plain segments -/

variable {segs : List String} {root k : String}

theorem cleanParts_plain (h : ∀ s ∈ segs, Plain s) (rooted : Bool) (kept : List String) :
    cleanParts rooted kept segs = kept.reverse ++ segs := by
  induction segs generalizing kept with
  | nil => simp [cleanParts]
  | cons s segs ih =>
    have hs := h s List.mem_cons_self
    have hrest := ih (fun s' hs' => h s' (List.mem_cons_of_mem _ hs')) (s :: kept)
    simp only [cleanParts, hs.ne_empty, hs.dot, hs.dots, or_self, if_false, hrest]
    simp

theorem split_plain (hne : segs ≠ []) (h : ∀ s ∈ segs, Plain s) :
    split ("/".intercalate segs) = segs :=
  split_intercalate hne fun s hs => (h s hs).slash

/-- A key of plain segments does not begin with a slash. -/
theorem head_plain (hne : segs ≠ []) (h : ∀ s ∈ segs, Plain s) :
    ∃ c cs, ("/".intercalate segs).toList = c :: cs ∧ c ≠ '/' := by
  cases segs with
  | nil => exact absurd rfl hne
  | cons s segs =>
    have hs := h s List.mem_cons_self
    obtain ⟨c, cs, hcs⟩ := List.exists_cons_of_ne_nil
      (fun hnil => hs.ne_empty (String.toList_eq_nil_iff.mp hnil))
    have hc : c ≠ '/' := fun heq => hs.slash (by rw [hcs, heq]; exact List.mem_cons_self)
    have hchars : ∃ rest, ("/".intercalate (s :: segs)).toList = s.toList ++ rest := by
      cases segs with
      | nil => exact ⟨[], by rw [String.intercalate_singleton, List.append_nil]⟩
      | cons t segs =>
        rw [String.intercalate_cons_of_ne_nil (List.cons_ne_nil t segs), String.append_assoc,
          String.toList_append]
        exact ⟨_, rfl⟩
    obtain ⟨rest, hrest⟩ := hchars
    exact ⟨c, cs ++ rest, by rw [hrest, hcs, List.cons_append], hc⟩

theorem pathClean_plain (hne : segs ≠ []) (h : ∀ s ∈ segs, Plain s) :
    pathClean ("/".intercalate segs) = "/".intercalate segs := by
  obtain ⟨c, cs, hchars, hc⟩ := head_plain hne h
  have hfilled : "/".intercalate segs ≠ "" := by
    intro hempty
    rw [hempty] at hchars
    cases hchars
  have hparts := cleanParts_plain h false []
  rw [List.reverse_nil, List.nil_append] at hparts
  unfold pathClean
  simp [hchars, hc, split_plain hne h, hparts, hfilled]

theorem intercalate_snoc (hne : segs ≠ []) :
    "/".intercalate (segs ++ [k]) = "/".intercalate segs ++ "/" ++ k := by
  rw [String.intercalate_append_of_ne_nil hne (List.cons_ne_nil k []),
    String.intercalate_singleton]

theorem two_le_length_plain {front : List String} {leaf : String} (hfront : front ≠ [])
    (h : ∀ s ∈ front ++ [leaf], Plain s) : 2 ≤ ("/".intercalate (front ++ [leaf])).length := by
  obtain ⟨c, cs, hchars, -⟩ := head_plain hfront fun s hs => h s (List.mem_append_left _ hs)
  have hslash : "/".toList.length = 1 := rfl
  rw [intercalate_snoc hfront, ← String.length_toList]
  simp only [String.toList_append, hchars, List.length_append, List.length_cons]
  omega

theorem pathJoin_plain (hne : segs ≠ []) (h : ∀ s ∈ segs, Plain s) (hk : Plain k) :
    pathJoin ("/".intercalate segs) k = "/".intercalate (segs ++ [k]) := by
  obtain ⟨c, cs, hchars, -⟩ := head_plain hne h
  have hfilled : "/".intercalate segs ≠ "" := by
    intro hempty
    rw [hempty] at hchars
    cases hchars
  have hall : ∀ s ∈ segs ++ [k], Plain s := by
    intro s hs
    rcases List.mem_append.mp hs with hs | hs
    · exact h s hs
    · exact List.mem_singleton.mp hs ▸ hk
  have hclean := pathClean_plain (List.append_ne_nil_of_left_ne_nil hne [k]) hall
  rw [intercalate_snoc hne] at hclean ⊢
  rw [pathJoin]
  have hfilter : ["/".intercalate segs, k].filter (· ≠ "") = ["/".intercalate segs, k] := by
    simp [hfilled, hk.ne_empty]
  simp only [hfilter]
  rw [String.intercalate_cons_of_ne_nil (List.cons_ne_nil k []), String.intercalate_singleton]
  exact hclean

theorem pathBase_plain (h : ∀ s ∈ segs, Plain s) (hk : Plain k) :
    pathBase ("/".intercalate (segs ++ [k])) = k := by
  have hall : ∀ s ∈ segs ++ [k], Plain s := by
    intro s hs
    rcases List.mem_append.mp hs with hs | hs
    · exact h s hs
    · exact List.mem_singleton.mp hs ▸ hk
  have hsplit := split_plain (List.append_ne_nil_of_right_ne_nil segs (List.cons_ne_nil k [])) hall
  -- the name is what the key ends in
  have hchars : ∃ front, ("/".intercalate (segs ++ [k])).toList = front ++ k.toList := by
    by_cases hne : segs = []
    · refine ⟨[], ?_⟩
      rw [hne, List.nil_append, String.intercalate_singleton, List.nil_append]
    · rw [intercalate_snoc hne, String.toList_append]
      exact ⟨_, rfl⟩
  have hfilled : "/".intercalate (segs ++ [k]) ≠ "" := by
    intro hempty
    rw [hempty] at hsplit
    have hmem : k ∈ split "" := by rw [hsplit]; simp
    exact hk.ne_empty (List.mem_singleton.mp hmem)
  generalize "/".intercalate (segs ++ [k]) = path at hsplit hchars hfilled
  obtain ⟨front, hchars⟩ := hchars
  have hlast : path.toList.rdropWhile (· = '/') = path.toList := by
    rw [hchars, List.rdropWhile_eq_self_iff]
    intro hnil hslash
    have hk' : k.toList ≠ [] := fun hnil => hk.ne_empty (String.toList_eq_nil_iff.mp hnil)
    rw [List.getLast_append_of_ne_nil _ hk'] at hslash
    exact hk.slash (of_decide_eq_true hslash ▸ List.getLast_mem hk')
  rw [pathBase, if_neg hfilled, hlast, String.ofList_toList, hsplit]
  simp [hk.ne_empty]

/-! ## Rows -/

/-- An entry of a directory: a value has its own key and no time to live. -/
structure Listed (dir : List String) (row : String × Cell Entity) : Prop where
  plain : Plain row.1
  own : ∀ e, row.2 = .val e → e.key = "/".intercalate (dir ++ [row.1]) ∧ e.ttl = NeverExpired

/-- The same of a cell, to be evaluated. -/
def ownCell (dir : List String) (k : String) : Cell Entity → Bool
  | .dir => true
  | .val e => e.key = "/".intercalate (dir ++ [k]) && e.ttl = NeverExpired

instance (dir : List String) (row : String × Cell Entity) : Decidable (Listed dir row) :=
  decidable_of_iff (Plain row.1 ∧ ownCell dir row.1 row.2 = true) <| by
    obtain ⟨k, c⟩ := row
    cases c with
    | dir => exact ⟨fun h => ⟨h.1, nofun⟩, fun h => ⟨h.plain, rfl⟩⟩
    | val e =>
      constructor
      · intro h
        refine ⟨h.1, fun e' he => ?_⟩
        cases he
        simpa [ownCell] using h.2
      · intro h
        exact ⟨h.plain, by simpa [ownCell] using h.own e rfl⟩

def listing (store : Store) (dir : List String) : List String := (store.kids dir).map (·.1)

variable {store : Store} {dir : List String} {rows : List (String × Cell Entity)} {now : Int}

theorem pairwise_listing (store : Store) (dir : List String) :
    (listing store dir).Pairwise (· < ·) :=
  List.pairwise_map.mpr (store.sorted_kids dir)

theorem mem_listing : k ∈ listing store dir ↔ store.look (dir ++ [k]) ≠ none := by
  rw [← Tree.lookup_kids, listing, List.mem_map]
  constructor
  · rintro ⟨⟨k', c⟩, hmem, rfl⟩
    rw [SortedMap.lookup_of_mem (store.sorted_kids dir) hmem]
    exact Option.some_ne_none c
  · intro hne
    obtain ⟨c, hc⟩ := Option.ne_none_iff_exists'.mp hne
    exact ⟨(k, c), SortedMap.mem_of_lookup hc, rfl⟩

theorem kids_of_not_dir (h : store.look dir ≠ some .dir) : store.kids dir = [] := by
  refine SortedMap.ext_of_lookup (store.sorted_kids dir) SortedMap.sorted_nil fun k => ?_
  rw [Tree.lookup_kids, look_none_below h (List.cons_ne_nil k [])]
  rfl

/-- No row is expired, and each has the key that the directory gives it. -/
theorem rangeScan_listed (now : Int) (hne : dir ≠ []) (hdir : ∀ s ∈ dir, Plain s)
    (h : ∀ row ∈ rows, Listed dir row) (limit : Nat) :
    (rangeScan now ("/".intercalate dir) limit rows).1.map (·.key) =
        (rows.take limit).map (fun row => "/".intercalate (dir ++ [row.1])) ∧
      (rangeScan now ("/".intercalate dir) limit rows).2.2 = rows.drop limit := by
  induction rows generalizing limit with
  | nil => simp [rangeScan]
  | cons row rows ih =>
    obtain ⟨k, c⟩ := row
    have hrow := h (k, c) List.mem_cons_self
    cases limit with
    | zero => simp [rangeScan]
    | succ limit =>
      obtain ⟨hkeys, hrest⟩ := ih (fun row hm => h row (List.mem_cons_of_mem _ hm)) limit
      cases c with
      | dir =>
        have hjoin := pathJoin_plain hne hdir hrow.plain
        simp [rangeScan, hkeys, hrest, hjoin]
      | val e =>
        obtain ⟨hkey, httl⟩ := hrow.own e rfl
        have hlive : entityExpired now e = (false, e) := if_pos httl
        simp [rangeScan, hlive, hkeys, hrest, hkey]

theorem dropWhile_itemsFrom (h : SortedMap.Sorted rows) (seek : String) :
    (rows.dropWhile fun row => seek ≠ "" && row.1 < seek) = itemsFrom (·.1) rows seek := by
  induction rows with
  | nil => rfl
  | cons row rows ih =>
    obtain ⟨hrow, hrows⟩ := List.pairwise_cons.mp h
    rw [List.dropWhile_cons, itemsFrom, List.filter_cons]
    by_cases hlt : row.1 < seek
    · have hne : seek ≠ "" := by
        rintro rfl
        exact absurd hlt (not_lt.mpr bot_le)
      have hle : ¬ seek ≤ row.1 := not_le.mpr hlt
      simpa [itemsFrom, hlt, hne, hle] using ih hrows
    · have hle : seek ≤ row.1 := not_lt.mp hlt
      have hall : rows.filter (fun row' => decide (seek ≤ row'.1)) = rows := by
        rw [List.filter_eq_self]
        intro row' hrow'
        exact decide_eq_true (hle.trans (hrow row' hrow').le)
      simp [hlt, hle, hall]

theorem dropWhile_rows (h : SortedMap.Sorted rows) (seek : String) :
    (rows.dropWhile fun row => seek ≠ "" && row.1 < seek).map (·.1) =
      upFrom (rows.map (·.1)) seek := by
  rw [dropWhile_itemsFrom h, itemsFrom, upFrom, List.filter_map]
  rfl

/-- A key with an empty segment: a blank leaf, or an empty node. -/
def Malformed (key : String) : Prop :=
  isEmptyLeaf (keySplitter key).2 = true ∨ "" ∈ (keySplitter key).1

instance (key : String) : Decidable (Malformed key) := by
  unfold Malformed
  infer_instance

theorem firstEmpty_of_not_malformed {key : String} (h : ¬ Malformed key) :
    isEmptyLeaf (keySplitter key).2 = false ∧ firstEmpty (keySplitter key).1 = none := by
  rw [Malformed, not_or, Bool.not_eq_true] at h
  refine ⟨h.1, ?_⟩
  by_contra hempty
  exact h.2 (mem_iff_firstEmpty.mpr (Option.isSome_iff_ne_none.mpr hempty))

/-- The rows of the directory that a key names, or an error that it is not found. -/
theorem rangeRows_of_not_malformed {key : String} (hnodes : (keySplitter key).1 ≠ [])
    (h : ¬ Malformed key) (store : Store) (seek : String) :
    (store.look (keyPath key) = some .dir ∧ rangeRows store key seek =
      .ok ((store.kids (keyPath key)).dropWhile fun row => seek ≠ "" && row.1 < seek)) ∨
    (store.look (keyPath key) ≠ some .dir ∧ ∃ err, rangeRows store key seek = .error err ∧
      err.errorsIs (.concept Concept.Err_NOT_FOUND) = true) := by
  obtain ⟨hleaf, hfilled⟩ := firstEmpty_of_not_malformed h
  have hlocate := locateBucket_read (t := store) hnodes hleaf
  simp only [hfilled] at hlocate
  rw [keyPath]
  by_cases hparent : store.look (keySplitter key).1 = some .dir
  · rw [if_pos hparent] at hlocate
    by_cases hdir : store.look ((keySplitter key).1 ++ [(keySplitter key).2]) = some .dir
    · left
      simp [rangeRows, hlocate, Bolt.bucket, Bolt.cursor, hdir]
    · right
      refine ⟨hdir, .errorf "range.locateLeafBuck: " ErrNoSuchBucket, ?_, by decide⟩
      simp [rangeRows, hlocate, Bolt.bucket, hdir]
  · right
    rw [if_neg hparent] at hlocate
    have hdir : store.look ((keySplitter key).1 ++ [(keySplitter key).2]) ≠ some .dir := by
      simp [look_none_below hparent (List.cons_ne_nil _ [])]
    have hother : ErrNoSuchBucket.errorsIs ErrNoParentBucket = false := by decide
    refine ⟨hdir, .errorf "range.locateBucket: " ErrNoSuchBucket, ?_, by decide⟩
    simp [rangeRows, hlocate, hother]

section Key

variable {front : List String} {leaf : String} (h : ∀ s ∈ front ++ [leaf], Plain s)
include h

theorem keySplitter_plain : keySplitter ("/".intercalate (front ++ [leaf])) = (front, leaf) := by
  have hsplit := split_plain (List.append_ne_nil_of_right_ne_nil front (List.cons_ne_nil leaf [])) h
  simp [keySplitter, hsplit]

theorem keyPath_plain : keyPath ("/".intercalate (front ++ [leaf])) = front ++ [leaf] := by
  rw [keyPath, keySplitter_plain h]

theorem not_malformed_plain : ¬ Malformed ("/".intercalate (front ++ [leaf])) := by
  rw [Malformed, keySplitter_plain h, not_or, Bool.not_eq_true]
  refine ⟨(h leaf (by simp)).filled, fun hmem => ?_⟩
  exact (h "" (List.mem_append_left _ hmem)).ne_empty rfl

theorem rangeRows_listed (hfront : front ≠ []) (store : Store) (seek : String) :
    (store.look (front ++ [leaf]) = some .dir ∧
      rangeRows store ("/".intercalate (front ++ [leaf])) seek =
        .ok ((store.kids (front ++ [leaf])).dropWhile fun row => seek ≠ "" && row.1 < seek)) ∨
    (store.look (front ++ [leaf]) ≠ some .dir ∧
      ∃ err, rangeRows store ("/".intercalate (front ++ [leaf])) seek = .error err ∧
        err.errorsIs (.concept Concept.Err_NOT_FOUND) = true) := by
  have hnodes : (keySplitter ("/".intercalate (front ++ [leaf]))).1 ≠ [] := by
    rw [keySplitter_plain h]
    exact hfront
  have hrows := rangeRows_of_not_malformed hnodes (not_malformed_plain h) store seek
  rw [keyPath_plain h] at hrows
  exact hrows

end Key

/-- A page of the listing. A directory that is not there has none. -/
theorem Range_listing {front : List String} {leaf : String} (hfront : front ≠ [])
    (h : ∀ s ∈ front ++ [leaf], Plain s)
    (hrows : ∀ row ∈ store.kids (front ++ [leaf]), Listed (front ++ [leaf]) row)
    (now : Int) (seek : String) (n : Nat) :
    ∃ resp, Range now store ⟨"/".intercalate (front ++ [leaf]), seek, n⟩ = .ok resp ∧
      resp.entities.map (·.key) =
        ((upFrom (listing store (front ++ [leaf])) seek).take n).map
          (fun k => "/".intercalate (front ++ [leaf] ++ [k])) ∧
      (resp.hasMore = true ↔ (upFrom (listing store (front ++ [leaf])) seek).drop n ≠ []) ∧
      resp.nextSeekKey =
        ((upFrom (listing store (front ++ [leaf])) seek).drop n).head?.getD "" := by
  have hne := List.append_ne_nil_of_left_ne_nil hfront [leaf]
  rcases rangeRows_listed h hfront store seek with ⟨-, hok⟩ | ⟨hdir, err, herr, hnotFound⟩
  · have hnames := dropWhile_rows (store.sorted_kids (front ++ [leaf])) seek
    rw [Range, hok]
    dsimp only
    refine ⟨_, rfl, ?_⟩
    generalize hrows' : (store.kids (front ++ [leaf])).dropWhile
      (fun row => seek ≠ "" && row.1 < seek) = rows at hnames
    have hlisted : ∀ row ∈ rows, Listed (front ++ [leaf]) row := by
      intro row hrow
      rw [← hrows'] at hrow
      exact hrows row (List.dropWhile_subset _ hrow)
    obtain ⟨hkeys, hrest⟩ := rangeScan_listed now hne h hlisted n
    rw [listing, ← hnames, ← List.map_take, ← List.map_drop, List.map_map]
    simp only [rangeResult, hkeys, hrest]
    refine ⟨rfl, ?_, ?_⟩
    · simp
    · rw [List.head?_map]
  · have hnil := kids_of_not_dir hdir
    refine ⟨emptyRangeResp, ?_, ?_⟩
    · rw [Range, herr]
      exact if_pos hnotFound
    · simp [listing, hnil, emptyRangeResp, upFrom]

end Cassem.KV
