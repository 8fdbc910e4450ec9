import Cassem.KV.Children
import Mathlib.Data.Set.Basic

/-!
# Listing a directory page by page

`Range` is called from the empty seek key on and then from the next seek key of each page, until a
page has no more. Each page is read at a time of its own. What is live all the while is listed
once and in order, and nothing that has expired when its page is read: in every directory whose
name is not blank, where `path.Join` keeps the names and no time wraps.
-/

namespace Cassem.KV

open Lib

structure PageRead where
  now : Int
  resp : RangeResp

/-- The pages from a seek key on, the first of them read at `clock n`. With too little fuel the
listing does not come to its end. -/
def listPages (clock : Nat → Int) (store : Store) (key : String) (limit : Nat) :
    Nat → Nat → String → Option (Except GoError (List PageRead))
  | 0, _, _ => none
  | fuel + 1, n, seek =>
      match Range (clock n) store ⟨key, seek, limit⟩ with
      | .error err => some (.error err)
      | .ok resp =>
          if resp.hasMore then
            (listPages clock store key limit fuel (n + 1) resp.nextSeekKey).map
              (Except.map (⟨clock n, resp⟩ :: ·))
          else some (.ok [⟨clock n, resp⟩])

/-- A page shows these children, all of them live when it was read. -/
structure Yields (key : String) (limit : Nat) (rows : List (String × Cell Entity)) (page : PageRead)
    (children : List (String × Cell Entity)) : Prop where
  shown : List.Forall₂ (Shown key) children page.resp.entities
  live : ∀ child ∈ children, child ∈ rows ∧ LiveAt page.now child.2
  bounded : page.resp.entities.length ≤ limit

/-- The listing of a directory comes to its end. Every child that is live all the while is on one
page, the names are in order, and what a page has was live when it was read. -/
def CompleteListing (clock : Nat → Int) (store : Store) (key : String) (limit : Nat) : Prop :=
  ∃ pages fuel, (∀ more, fuel ≤ more →
      listPages clock store key limit more 0 "" = some (.ok pages)) ∧
    ∃ children, List.Forall₂ (Yields key limit (store.kids (split key))) pages children ∧
      (children.flatten.map (·.1)).Pairwise (· < ·) ∧
      ∀ row ∈ store.kids (split key), (∀ page ∈ pages, LiveAt page.now row.2) →
        row ∈ children.flatten

/-- What a page has of the rows that it reads. -/
structure ReadsPart (clock : Nat → Int) (key : String) (limit : Nat) (page : PageRead)
    (part : List (String × Cell Entity)) : Prop where
  read : ∃ n, page.now = clock n
  entities : page.resp.entities = part.filterMap (item key page.now)
  bounded : page.resp.entities.length ≤ limit

section Scan

variable {key : String} {now : Int} {limit : Nat} {rows : List (String × Cell Entity)}

/-- A page reads a first part of the rows, and one of them at least. It stops ahead of others only
when it is full. -/
theorem rangeScan_reads (key : String) (now : Int) (limit : Nat)
    (rows : List (String × Cell Entity)) :
    ∃ read, rows = read ++ (rangeScan now key limit rows).2.2 ∧
      (rangeScan now key limit rows).1 = read.filterMap (item key now) ∧
      (rangeScan now key limit rows).1.length ≤ limit ∧
      (0 < limit → rows ≠ [] → read ≠ []) ∧
      ((rangeScan now key limit rows).2.2 ≠ [] →
        (rangeScan now key limit rows).1.length = limit) := by
  induction rows generalizing limit with
  | nil => exact ⟨[], rfl, rfl, Nat.zero_le _, fun _ h => absurd rfl h, fun h => absurd rfl h⟩
  | cons row rows ih =>
    obtain ⟨k, c⟩ := row
    cases limit with
    | zero => exact ⟨[], rfl, rfl, Nat.zero_le _, fun h => absurd h (lt_irrefl 0), fun _ => rfl⟩
    | succ limit =>
      cases c with
      | dir =>
        obtain ⟨read, hrows, hitems, hlen, -, hfull⟩ := ih limit
        refine ⟨(k, .dir) :: read, ?_, ?_, ?_, fun _ _ => List.cons_ne_nil _ _, ?_⟩
        · simpa [rangeScan] using hrows
        · simpa [rangeScan, item] using hitems
        · simpa [rangeScan] using hlen
        · simpa [rangeScan] using hfull
      | val e =>
        cases hexp : entityExpired now e with
        | mk expired e' =>
          cases expired with
          | true =>
            obtain ⟨read, hrows, hitems, hlen, -, hfull⟩ := ih (limit + 1)
            refine ⟨(k, .val e) :: read, ?_, ?_, ?_, fun _ _ => List.cons_ne_nil _ _, ?_⟩
            · simpa [rangeScan, hexp] using hrows
            · simpa [rangeScan, item, hexp] using hitems
            · simpa [rangeScan, hexp] using hlen
            · simpa [rangeScan, hexp] using hfull
          | false =>
            obtain ⟨read, hrows, hitems, hlen, -, hfull⟩ := ih limit
            refine ⟨(k, .val e) :: read, ?_, ?_, ?_, fun _ _ => List.cons_ne_nil _ _, ?_⟩
            · simpa [rangeScan, hexp] using hrows
            · simpa [rangeScan, item, hexp] using hitems
            · simpa [rangeScan, hexp] using hlen
            · simpa [rangeScan, hexp] using hfull

end Scan

/-! ## The rows from a seek key on -/

section Rows

variable {store : Store} {key : String} {rows : List (String × Cell Entity)}

/-- The seek key only decides where the cursor begins. -/
theorem rangeRows_seek (h : rangeRows store key "" = .ok rows) :
    SortedMap.Sorted rows ∧ ∀ seek, rangeRows store key seek =
      .ok (rows.dropWhile fun row => seek ≠ "" && row.1 < seek) := by
  unfold rangeRows at h
  dsimp only at h
  split at h
  · cases h
  · cases h
  · next bucket hlocated =>
    have hrows := Except.ok.inj h
    have hwhole : (Bolt.cursor store bucket).dropWhile
        (fun row => decide (("" : String) ≠ "") && decide (row.1 < "")) = Bolt.cursor store bucket := by
      cases Bolt.cursor store bucket with
      | nil => rfl
      | cons row rest => simp
    rw [hwhole] at hrows
    subst hrows
    refine ⟨Tree.sorted_kids store bucket, fun seek => ?_⟩
    unfold rangeRows
    dsimp only
    rw [hlocated]

theorem dropWhile_seek {done left : List (String × Cell Entity)} {k : String} {c : Cell Entity}
    (hsorted : SortedMap.Sorted (done ++ (k, c) :: left)) (hdone : done ≠ []) :
    (done ++ (k, c) :: left).dropWhile (fun row => k ≠ "" && row.1 < k) = (k, c) :: left := by
  obtain ⟨-, -, hcross⟩ := List.pairwise_append.mp hsorted
  have hbelow : ∀ row ∈ done, row.1 < k := fun row hrow => hcross row hrow _ List.mem_cons_self
  have hk : k ≠ "" := by
    obtain ⟨row, hrow⟩ := List.exists_mem_of_ne_nil done hdone
    rintro rfl
    exact absurd (hbelow row hrow) (not_lt.mpr (bot_le : (⊥ : String) ≤ row.1))
  have hall : ∀ row ∈ done, (decide (k ≠ "") && decide (row.1 < k)) = true := by
    intro row hrow
    simp [hk, hbelow row hrow]
  rw [List.dropWhile_append_of_pos hall, List.dropWhile_cons_of_neg (by simp)]

/-- The pages read the rows in parts, one after another. -/
theorem listPages_reads (h : rangeRows store key "" = .ok rows) (clock : Nat → Int) {limit : Nat}
    (hlimit : 0 < limit) (left done : List (String × Cell Entity)) (n : Nat) (seek : String)
    (hdone : rows = done ++ left)
    (hseek : rows.dropWhile (fun row => seek ≠ "" && row.1 < seek) = left) :
    ∃ pages parts, (∀ fuel, left.length < fuel →
        listPages clock store key limit fuel n seek = some (.ok pages)) ∧
      parts.flatten = left ∧ List.Forall₂ (ReadsPart clock key limit) pages parts := by
  obtain ⟨hsorted, hrows⟩ := rangeRows_seek h
  obtain ⟨read, hleft, hitems, hlen, hread, -⟩ := rangeScan_reads key (clock n) limit left
  have hrange : Range (clock n) store ⟨key, seek, limit⟩ =
      .ok ⟨(rangeScan (clock n) key limit left).1, (rangeScan (clock n) key limit left).2.2 ≠ [],
        ((rangeScan (clock n) key limit left).2.2.head?.map (·.1)).getD ""⟩ := by
    rw [Range, hrows seek, hseek]
    rfl
  generalize rangeScan (clock n) key limit left = scan at hleft hitems hlen hrange
  obtain ⟨items, expired, rest⟩ := scan
  dsimp only at hleft hitems hlen hrange
  cases hrest : rest with
  | nil =>
    rw [hrest, List.append_nil] at hleft
    refine ⟨[⟨clock n, ⟨items, false, ""⟩⟩], [read], fun fuel hfuel => ?_, ?_, ?_⟩
    · obtain ⟨fuel, rfl⟩ : ∃ m, fuel = m + 1 := ⟨fuel - 1, by omega⟩
      simp [listPages, hrange, hrest]
    · simp [hleft]
    · exact .cons ⟨⟨n, rfl⟩, hitems, hlen⟩ .nil
  | cons row rest' =>
    obtain ⟨k, c⟩ := row
    rw [hrest] at hleft hrange
    have hne : read ≠ [] := hread hlimit (hleft ▸ List.append_ne_nil_of_right_ne_nil _ (List.cons_ne_nil _ _))
    have hshorter : ((k, c) :: rest').length < left.length := by
      have hpos := List.length_pos_iff.mpr hne
      rw [hleft, List.length_append]
      omega
    have hall : rows = (done ++ read) ++ (k, c) :: rest' := by
      rw [hdone, hleft, List.append_assoc]
    have hnext := dropWhile_seek (hall ▸ hsorted) (List.append_ne_nil_of_right_ne_nil done hne)
    obtain ⟨pages, parts, hpages, hflat, hparts⟩ := listPages_reads h clock hlimit ((k, c) :: rest')
      (done ++ read) (n + 1) k hall (hall ▸ hnext)
    refine ⟨⟨clock n, ⟨items, true, k⟩⟩ :: pages, read :: parts, fun fuel hfuel => ?_, ?_, ?_⟩
    · obtain ⟨fuel, rfl⟩ : ∃ m, fuel = m + 1 := ⟨fuel - 1, by omega⟩
      simp [listPages, hrange, hpages fuel (by omega), Except.map]
    · rw [List.flatten_cons, hflat, hleft]
    · exact .cons ⟨⟨n, rfl⟩, hitems, hlen⟩ hparts
  termination_by left.length

theorem rangeRows_error {err : GoError} (h : rangeRows store key "" = .error err) (seek : String) :
    rangeRows store key seek = .error err := by
  unfold rangeRows at h ⊢
  dsimp only at h ⊢
  split at h
  · exact h
  · exact h
  · cases h

/-- From any seek key the pages come to an end, if the directory can be read. -/
theorem listPages_ends (store : Store) (key seek : String) (clock : Nat → Int) {limit : Nat}
    (hlimit : 0 < limit) :
    (∃ err, ∀ now, Range now store ⟨key, seek, limit⟩ = .error err) ∨
      ∃ pages fuel, ∀ more, fuel ≤ more →
        listPages clock store key limit more 0 seek = some (.ok pages) := by
  cases h : rangeRows store key "" with
  | error err =>
    have hseek := rangeRows_error h seek
    cases hnotFound : err.errorsIs (.concept Concept.Err_NOT_FOUND) with
    | false => exact .inl ⟨_, fun now => by rw [Range, hseek]; exact if_neg (by simp [hnotFound])⟩
    | true =>
      refine .inr ⟨[⟨clock 0, emptyRangeResp⟩], 1, fun more hmore => ?_⟩
      obtain ⟨more, rfl⟩ : ∃ m, more = m + 1 := ⟨more - 1, by omega⟩
      simp [listPages, Range, hseek, hnotFound, emptyRangeResp]
  | ok rows =>
    obtain ⟨pages, -, hpages, -⟩ := listPages_reads h clock hlimit _ _ 0 seek
      (List.takeWhile_append_dropWhile (p := fun row => seek ≠ "" && row.1 < seek)).symm rfl
    exact .inr ⟨pages, _, fun more hmore => hpages more (Nat.lt_of_succ_le hmore)⟩

end Rows

section Children

variable {key : String} {limit : Nat} {clock : Nat → Int} {rows : List (String × Cell Entity)}

/-- The children of the pages, when these read parts of the rows. -/
theorem children_of_parts (hkey : "" ∉ split key) (hslash : ∀ row ∈ rows, '/' ∉ row.1.toList)
    (hfaithful : ∀ n, Faithful key rows (clock n)) {pages : List PageRead}
    {parts : List (List (String × Cell Entity))}
    (h : List.Forall₂ (ReadsPart clock key limit) pages parts)
    (hrows : ∀ row ∈ parts.flatten, row ∈ rows) :
    ∃ children, List.Forall₂ (Yields key limit rows) pages children ∧
      children.flatten.Sublist parts.flatten ∧
      ∀ row ∈ parts.flatten, (∀ page ∈ pages, LiveAt page.now row.2) → row ∈ children.flatten := by
  induction h with
  | nil => exact ⟨[], .nil, List.Sublist.refl _, nofun⟩
  | @cons page part pages parts hpage _ ih =>
    rw [List.flatten_cons] at hrows
    obtain ⟨children, hyields, hsub, hlive⟩ :=
      ih fun row hrow => hrows row (List.mem_append_right _ hrow)
    have hpart : ∀ row ∈ part, row ∈ rows := fun row hrow =>
      hrows row (List.mem_append_left _ hrow)
    obtain ⟨n, hn⟩ := hpage.read
    have hkept : Faithful key part page.now := by
      rw [hn]
      exact ⟨fun k hk => (hfaithful n).names k (hpart _ hk),
        fun k e he => (hfaithful n).times k e (hpart _ he)⟩
    refine ⟨part.filter (LiveAt page.now ·.2) :: children, .cons ⟨?_, ?_, hpage.bounded⟩ hyields,
      ?_, ?_⟩
    · rw [hpage.entities]
      exact forall₂_shown hkey (fun row hrow => hslash row (hpart row hrow)) hkept
    · intro child hchild
      obtain ⟨hmem, hlive⟩ := List.mem_filter.mp hchild
      exact ⟨hpart child hmem, of_decide_eq_true hlive⟩
    · rw [List.flatten_cons, List.flatten_cons]
      exact List.filter_sublist.append hsub
    · intro row hrow hall
      rw [List.flatten_cons] at hrow ⊢
      rcases List.mem_append.mp hrow with hrow | hrow
      · have hnow := hall page List.mem_cons_self
        exact List.mem_append_left _ (List.mem_filter.mpr ⟨hrow, decide_eq_true hnow⟩)
      · exact List.mem_append_right _
          (hlive row hrow fun page' hpage' => hall page' (List.mem_cons_of_mem _ hpage'))

end Children

section Complete

variable {store : Store} {key : String} {limit : Nat} {clock : Nat → Int}

/-- Without a deadline and with clean names, or in time, a listing is complete. -/
theorem completeListing_of_faithful (hrows : rangeRows store key "" = .ok (store.kids (split key)))
    (hkey : "" ∉ split key) (hslash : ∀ row ∈ store.kids (split key), '/' ∉ row.1.toList)
    (hfaithful : ∀ n, Faithful key (store.kids (split key)) (clock n)) (hlimit : 0 < limit) :
    CompleteListing clock store key limit := by
  obtain ⟨hsorted, hseek⟩ := rangeRows_seek hrows
  have hwhole := Except.ok.inj ((hseek "").symm.trans hrows)
  obtain ⟨pages, parts, hpages, hflat, hparts⟩ :=
    listPages_reads hrows clock hlimit _ [] 0 "" rfl hwhole
  have hmem : ∀ row ∈ parts.flatten, row ∈ store.kids (split key) := by
    intro row hrow
    rwa [hflat] at hrow
  obtain ⟨children, hyields, hsub, hlive⟩ :=
    children_of_parts hkey hslash hfaithful hparts hmem
  rw [hflat] at hsub hlive
  exact ⟨pages, _, fun more hmore => hpages more (Nat.lt_of_succ_le hmore), children, hyields,
    List.pairwise_map.mpr (hsorted.sublist hsub), hlive⟩

/-- A page that is large enough has the whole directory. -/
theorem listPages_whole {rows : List (String × Cell Entity)}
    (hrows : rangeRows store key "" = .ok rows) (now : Int) (fuel : Nat) :
    listPages (fun _ => now) store key (rows.length + 1) (fuel + 1) 0 "" =
      some (.ok [⟨now, ⟨rows.filterMap (item key now), false, ""⟩⟩]) := by
  obtain ⟨read, hread, hitems, -, -, hfull⟩ := rangeScan_reads key now (rows.length + 1) rows
  have hrest : (rangeScan now key (rows.length + 1) rows).2.2 = [] := by
    by_contra hne
    have hlen := hfull hne
    rw [hitems] at hlen
    have hle := List.length_filterMap_le (item key now) read
    have hall := congrArg List.length hread
    rw [List.length_append] at hall
    omega
  rw [hrest, List.append_nil] at hread
  rw [listPages, Range, hrows]
  simp [rangeResult, hrest, hitems, ← hread]

/-- What a listing in one page has, if it is complete. -/
theorem shown_of_completeListing {now : Int} {resp : RangeResp}
    (hpage : ∀ fuel, listPages (fun _ => now) store key limit (fuel + 1) 0 "" =
      some (.ok [⟨now, resp⟩])) (h : CompleteListing (fun _ => now) store key limit) :
    List.Forall₂ (Shown key) ((store.kids (split key)).filter (LiveAt now ·.2)) resp.entities := by
  obtain ⟨pages, fuel, hpages, children, hyields, hordered, hall⟩ := h
  cases Except.ok.inj (Option.some.inj ((hpages (fuel + 1) (by omega)).symm.trans (hpage fuel)))
  obtain ⟨part, rest, hyield, hnil, rfl⟩ := List.forall₂_cons_left_iff.mp hyields
  obtain rfl := List.forall₂_nil_left_iff.mp hnil
  rw [List.flatten_singleton] at hordered hall
  have hsorted : SortedMap.Sorted part := List.pairwise_map.mp hordered
  have hsame : (store.kids (split key)).filter (LiveAt now ·.2) = part := by
    refine SortedMap.ext_of_mem ((store.sorted_kids (split key)).filter _) hsorted fun row => ?_
    rw [List.mem_filter, decide_eq_true_eq]
    constructor
    · rintro ⟨hrow, hlive⟩
      refine hall row hrow fun page hpage => ?_
      rw [List.mem_singleton.mp hpage]
      exact hlive
    · exact hyield.live row
  rw [hsame]
  exact hyield.shown

end Complete

/-- What has a directory listed as it should: its name is not blank, or nothing in it is live; and
otherwise no name below it is cleaned and no time wraps. -/
structure Listable (times : Set Int) (store : Store) (key : String) : Prop where
  blank : BlankLeaf key → ∀ row ∈ store.kids (split key), ∀ now ∈ times, ¬ LiveAt now row.2
  faithful : ¬ BlankLeaf key → ∀ now ∈ times, Faithful key (store.kids (split key)) now

/-- Listings of a directory at some times are complete, with every limit, exactly if it is
listable at these times. -/
theorem listPages_complete_iff {log : List Write} (hlog : ∀ w ∈ log, w.Own) {key : String}
    (hdir : (stores log).look (split key) = some .dir) (times : Set Int) :
    (∀ limit, 0 < limit → ∀ clock : Nat → Int, (∀ n, clock n ∈ times) →
      CompleteListing clock (stores log) key limit) ↔ Listable times (stores log) key := by
  have hwritten := written_stores hlog
  have hkey := hwritten.filled hdir
  have hown := hwritten.ownRows key
  by_cases hblank : BlankLeaf key
  · have hempty : ∀ now limit, Range now (stores log) ⟨key, "", limit⟩ = .ok emptyRangeResp := by
      intro now limit
      rw [Range, rangeRows_of_blank hwritten hblank]
      exact if_pos (by decide)
    have hpage : ∀ (clock : Nat → Int) limit fuel,
        listPages clock (stores log) key limit (fuel + 1) 0 "" =
          some (.ok [⟨clock 0, emptyRangeResp⟩]) := by
      intro clock limit fuel
      rw [listPages, hempty]
      rfl
    constructor
    · refine fun h => ⟨fun _ row hrow now hnow hlive => ?_, fun hno => absurd hblank hno⟩
      have hshown := shown_of_completeListing (hpage (fun _ => now) 1)
        (h 1 Nat.one_pos (fun _ => now) fun _ => hnow)
      have hnone := List.forall₂_nil_right_iff.mp hshown
      exact List.filter_eq_nil_iff.mp hnone row hrow (decide_eq_true hlive)
    · intro h limit _ clock hclock
      have hyields : Yields key limit ((stores log).kids (split key)) ⟨clock 0, emptyRangeResp⟩ [] :=
        ⟨.nil, fun _ hchild => absurd hchild List.not_mem_nil, Nat.zero_le limit⟩
      refine ⟨_, 1, fun more hmore => ?_, [[]], .cons hyields .nil, .nil, ?_⟩
      · obtain ⟨fuel, rfl⟩ : ∃ m, more = m + 1 := ⟨more - 1, by omega⟩
        exact hpage clock limit fuel
      · intro row hrow hlive
        exact absurd (hlive _ List.mem_cons_self) (h.blank hblank row hrow _ (hclock 0))
  · have hrows : rangeRows (stores log) key "" = .ok ((stores log).kids (split key)) := by
      rw [rangeRows_of_dir hwritten hdir hblank, dropWhile_itemsFrom (Tree.sorted_kids _ _)]
      exact congrArg _ (Paging.itemsFrom_bot _ _)
    constructor
    · refine fun h => ⟨fun hyes => absurd hyes hblank, fun _ now hnow => ?_⟩
      have hshown := shown_of_completeListing (listPages_whole hrows now)
        (h _ (Nat.succ_pos _) (fun _ => now) fun _ => hnow)
      refine faithful_of_forall₂_shown hkey hown ?_ hshown
      exact List.pairwise_map.mpr ((Tree.sorted_kids _ _).imp fun hlt => hlt.ne)
    · intro h limit hlimit clock hclock
      exact completeListing_of_faithful hrows hkey hown.slash
        (fun n => h.faithful hblank _ (hclock n)) hlimit

/-- A value without a deadline, one that expires between the first page and the second, and a
directory. -/
def mixed : List Write :=
  [.set "a/b/x" { key := "a/b/x", ttl := NeverExpired } false,
    .set "a/b/y" { key := "a/b/y", ttl := 5 } false, .set "a/b/z/w" { key := "a/b/z/w", ttl := 9 } false]

theorem listPages_complete_mixed :
    (∀ limit, 0 < limit → ∀ clock : Nat → Int, (∀ n, clock n ∈ ({4, 5} : Set Int)) →
      CompleteListing clock (stores mixed) "a/b" limit) ↔ Listable {4, 5} (stores mixed) "a/b" :=
  listPages_complete_iff (by simp [mixed, Write.Own]) (by decide) {4, 5}

def dots : Store := stores [.set "a/b/../x" { key := "a/b/../x", ttl := NeverExpired } false]

/-- The one child of a directory is named by two dots: GetKV knows it by its key, and the listing
shows the key of another directory. -/
theorem listPages_dots :
    dots.kids ["a", "b"] = [("..", .dir)] ∧
      getKV dots "a/b/.." true = .ok { key := "a/b/.." } ∧
      (∀ fuel, listPages (fun _ => 0) dots "a/b" 10 (fuel + 1) 0 "" =
        some (.ok [⟨0, ⟨[{ key := "a" }], false, ""⟩⟩])) ∧
      ¬ CompleteListing (fun _ => 0) dots "a/b" 10 := by
  have hrange : Range 0 dots ⟨"a/b", "", 10⟩ = .ok ⟨[{ key := "a" }], false, ""⟩ := by rfl
  have hpage : ∀ fuel, listPages (fun _ => 0) dots "a/b" 10 (fuel + 1) 0 "" =
      some (.ok [⟨0, ⟨[{ key := "a" }], false, ""⟩⟩]) := by
    intro fuel
    rw [listPages, hrange]
    rfl
  refine ⟨by rfl, by rfl, hpage, fun h => ?_⟩
  have hshown := shown_of_completeListing hpage h
  have hchild : (dots.kids (split "a/b")).filter (LiveAt 0 ·.2) = [("..", .dir)] := by rfl
  rw [hchild] at hshown
  have hkey : "a" = "a/b" ++ "/" ++ ".." := congrArg Entity.key (List.forall₂_cons.mp hshown).1
  exact absurd hkey (by decide)

/-! ## Rows without a deadline -/

section Listed

variable {store : Store} {dir front : List String} {leaf key : String} {limit : Nat}

/-- What a row without a deadline yields, at any time. -/
def entityOf (key : String) : String × Cell Entity → Entity
  | (k, .dir) => { key := pathJoin key k }
  | (_, .val e) => e

theorem item_of_listed {row : String × Cell Entity} (h : Listed dir row) (key : String)
    (now : Int) : item key now row = some (entityOf key row) := by
  obtain ⟨k, c⟩ := row
  cases c with
  | dir => rfl
  | val e =>
    obtain ⟨-, httl⟩ := h.own e rfl
    have hlive : entityExpired now e = (false, e) := if_pos httl
    simp [item, entityOf, hlive]

theorem entities_of_parts {pages : List PageRead} {parts : List (List (String × Cell Entity))}
    {clock : Nat → Int} (h : List.Forall₂ (ReadsPart clock key limit) pages parts)
    (hrows : ∀ row ∈ parts.flatten, Listed dir row) :
    (pages.flatMap fun page => page.resp.entities) = parts.flatten.map (entityOf key) := by
  induction h with
  | nil => rfl
  | @cons page part pages parts hpage _ ih =>
    rw [List.flatten_cons] at hrows
    have hpart : part.filterMap (item key page.now) = part.map (entityOf key) := by
      rw [← List.filterMap_eq_map]
      exact List.filterMap_congr fun row hrow =>
        item_of_listed (hrows row (List.mem_append_left _ hrow)) key page.now
    have hrest := ih fun row hrow => hrows row (List.mem_append_right _ hrow)
    rw [List.flatMap_cons, List.flatten_cons, List.map_append, hpage.entities, hpart, hrest]

/-- The pages from a seek key on have the rest of the rows, whenever they are read. -/
theorem listPages_listed (hfront : front ≠ []) (h : ∀ s ∈ front ++ [leaf], Plain s)
    (hrows : ∀ row ∈ store.kids (front ++ [leaf]), Listed (front ++ [leaf]) row)
    (clock : Nat → Int) (hlimit : 0 < limit) (seek : String) :
    ∃ pages, (∀ fuel, (store.kids (front ++ [leaf])).length < fuel →
        listPages clock store ("/".intercalate (front ++ [leaf])) limit fuel 0 seek =
          some (.ok pages)) ∧
      (pages.flatMap fun page => page.resp.entities) =
        (Paging.itemsFrom (·.1) (store.kids (front ++ [leaf])) seek).map
          (entityOf ("/".intercalate (front ++ [leaf]))) := by
  have hsorted := store.sorted_kids (front ++ [leaf])
  rcases rangeRows_listed h hfront store "" with ⟨-, hok⟩ | ⟨hdir, err, herr, hnotFound⟩
  · rw [dropWhile_itemsFrom hsorted] at hok
    have hall : Paging.itemsFrom (·.1) (store.kids (front ++ [leaf])) "" =
        store.kids (front ++ [leaf]) := Paging.itemsFrom_bot _ _
    rw [hall] at hok
    have hleft := dropWhile_itemsFrom hsorted seek
    obtain ⟨pages, parts, hpages, hflat, hparts⟩ := listPages_reads hok clock hlimit _ _ 0 seek
      (List.takeWhile_append_dropWhile (p := fun row => seek ≠ "" && row.1 < seek)).symm rfl
    rw [hleft] at hflat hpages
    refine ⟨pages, fun fuel hfuel => hpages fuel ?_, ?_⟩
    · exact (List.length_filter_le _ _).trans_lt hfuel
    · rw [← hflat]
      refine entities_of_parts hparts fun row hrow => hrows row ?_
      rw [hflat] at hrow
      exact (List.mem_filter.mp hrow).1
  · have hnil := kids_of_not_dir hdir
    refine ⟨[⟨clock 0, emptyRangeResp⟩], fun fuel hfuel => ?_, ?_⟩
    · obtain ⟨fuel, rfl⟩ : ∃ m, fuel = m + 1 := ⟨fuel - 1, by omega⟩
      have herr' := rangeRows_error herr seek
      simp [listPages, Range, herr', hnotFound, emptyRangeResp]
    · simp [hnil, Paging.itemsFrom, emptyRangeResp]

end Listed

end Cassem.KV
