import Cassem.KV.HierarchicalMap
import Cassem.KV.Listing
import Mathlib.Data.List.Forall2

/-!
# The children of a directory

What a listing is to have of a child while it is live: of a value what is stored, apart from the
time to live, and of a directory its key. `Range` joins the names of directories to its key with
`path.Join`, which cleans what it joins, and takes the elapsed time off in an `int32`. It shows a
child as it should exactly where neither changes anything.
-/

namespace Cassem.KV

open Lib

/-! ## Names that path.Join keeps -/

/-- No segment is empty or a dot, and two dots stand in front of all others only. -/
def Clean (segs : List String) : Prop :=
  (∀ s ∈ segs, s ≠ "" ∧ s ≠ ".") ∧ ".." ∉ segs.dropWhile (· = "..")

instance (segs : List String) : Decidable (Clean segs) := inferInstanceAs (Decidable (_ ∧ _))

section Clean

variable {segs kept : List String} {s last key k k' : String}

/-- A segment is skipped, takes the one before it back, or is kept. -/
theorem cleanParts_cases (kept : List String) (s : String) (segs : List String) :
    ((s = "" ∨ s = ".") ∧ cleanParts false kept (s :: segs) = cleanParts false kept segs) ∨
    (∃ last kept', kept = last :: kept' ∧ last ≠ ".." ∧ s = ".." ∧
      cleanParts false kept (s :: segs) = cleanParts false kept' segs) ∨
    ((s ≠ "" ∧ s ≠ ".") ∧ (s = ".." → ∀ last ∈ kept.head?, last = "..") ∧
      cleanParts false kept (s :: segs) = cleanParts false (s :: kept) segs) := by
  by_cases hskip : s = "" ∨ s = "."
  · exact .inl ⟨hskip, by simp [cleanParts, hskip]⟩
  · have hfilled : s ≠ "" ∧ s ≠ "." := not_or.mp hskip
    by_cases hup : s = ".."
    · subst hup
      cases kept with
      | nil => exact .inr (.inr ⟨hfilled, fun _ _ h => (Option.not_mem_none _ h).elim, rfl⟩)
      | cons last kept =>
        by_cases hlast : last = ".."
        · refine .inr (.inr ⟨hfilled, fun _ last' h => ?_, by simp [cleanParts, hlast]⟩)
          exact (Option.some.inj h).symm.trans hlast
        · exact .inr (.inl ⟨last, kept, rfl, hlast, rfl, by simp [cleanParts, hlast]⟩)
    · exact .inr (.inr ⟨hfilled, fun h => absurd h hup, by simp [cleanParts, hskip, hup]⟩)

theorem length_cleanParts_le (segs kept : List String) :
    (cleanParts false kept segs).length ≤ kept.length + segs.length := by
  induction segs generalizing kept with
  | nil => simp [cleanParts]
  | cons s segs ih =>
    rcases cleanParts_cases kept s segs with ⟨-, h⟩ | ⟨last, kept', rfl, -, -, h⟩ | ⟨-, -, h⟩
    · have hrest := ih kept
      rw [h, List.length_cons]
      omega
    · have hrest := ih kept'
      rw [h, List.length_cons, List.length_cons]
      omega
    · have hrest := ih (s :: kept)
      rw [List.length_cons] at hrest
      rw [h, List.length_cons]
      omega

theorem mem_cleanParts (h : s ∈ cleanParts false kept segs) : s ∈ kept ∨ s ∈ segs := by
  induction segs generalizing kept with
  | nil => exact .inl (List.mem_reverse.mp h)
  | cons part segs ih =>
    rcases cleanParts_cases kept part segs with ⟨-, heq⟩ | ⟨last, kept', rfl, -, -, heq⟩ | ⟨-, -, heq⟩
    · exact (ih (heq ▸ h)).imp_right (List.mem_cons_of_mem part)
    · exact (ih (heq ▸ h)).imp (List.mem_cons_of_mem last) (List.mem_cons_of_mem part)
    · rcases ih (heq ▸ h) with h | h
      · rcases List.mem_cons.mp h with rfl | h
        · exact .inr List.mem_cons_self
        · exact .inl h
      · exact .inr (List.mem_cons_of_mem part h)

/-- Where a segment is skipped or taken back, one is missing in the end. -/
theorem cleanParts_ne {whole : List String} (h : kept.length + segs.length < whole.length) :
    cleanParts false kept segs ≠ whole := fun heq => by
  have hle := length_cleanParts_le segs kept
  rw [heq] at hle
  omega

/-- Below a segment that can be taken back, two dots take it back. -/
theorem cleanParts_below_iff (hlast : last ≠ "..") :
    cleanParts false (last :: kept) segs = (last :: kept).reverse ++ segs ↔
      ∀ s ∈ segs, (s ≠ "" ∧ s ≠ ".") ∧ s ≠ ".." := by
  induction segs generalizing last kept with
  | nil => simp [cleanParts]
  | cons s segs ih =>
    rw [List.forall_mem_cons]
    rcases cleanParts_cases (last :: kept) s segs with
      ⟨hskip, h⟩ | ⟨last', kept', heq, -, rfl, h⟩ | ⟨hfilled, hfront, h⟩
    · rw [h]
      refine iff_of_false (cleanParts_ne ?_) fun hall => hskip.elim hall.1.1.1 hall.1.1.2
      simp only [List.length_append, List.length_reverse, List.length_cons]
      omega
    · obtain ⟨-, rfl⟩ := List.cons.inj heq
      rw [h]
      refine iff_of_false (cleanParts_ne ?_) fun hall => hall.1.2 rfl
      simp only [List.length_append, List.length_reverse, List.length_cons]
      omega
    · have hup : s ≠ ".." := fun hup => hlast (hfront hup last rfl)
      have hrest : cleanParts false (s :: last :: kept) segs = (s :: last :: kept).reverse ++ segs ↔
          ∀ s ∈ segs, (s ≠ "" ∧ s ≠ ".") ∧ s ≠ ".." := ih hup
      rw [List.reverse_cons, List.append_assoc, List.singleton_append] at hrest
      rw [h, hrest]
      exact (and_iff_right ⟨hfilled, hup⟩).symm

theorem cleanParts_iff (hkept : ∀ last ∈ kept.head?, last = "..") :
    cleanParts false kept segs = kept.reverse ++ segs ↔ Clean segs := by
  induction segs generalizing kept with
  | nil => simp [cleanParts, Clean]
  | cons s segs ih =>
    rcases cleanParts_cases kept s segs with
      ⟨hskip, h⟩ | ⟨last, kept', rfl, hlast, -, -⟩ | ⟨hfilled, -, h⟩
    · rw [h]
      refine iff_of_false (cleanParts_ne (by simp)) fun hclean => ?_
      have hs := hclean.1 s List.mem_cons_self
      exact hskip.elim hs.1 hs.2
    · exact absurd (hkept last rfl) hlast
    · have hpush : kept.reverse ++ s :: segs = (s :: kept).reverse ++ segs := by
        rw [List.reverse_cons, List.append_assoc, List.singleton_append]
      rw [h, hpush, Clean, List.forall_mem_cons, and_iff_right (a := s ≠ "" ∧ s ≠ ".") hfilled]
      by_cases hup : s = ".."
      · rw [List.dropWhile_cons_of_pos (p := fun s => s = "..") (decide_eq_true hup)]
        exact ih fun last hlast => (Option.some.inj hlast).symm.trans hup
      · rw [cleanParts_below_iff hup, List.dropWhile_cons_of_neg (by simpa using hup),
          List.mem_cons, not_or]
        constructor
        · intro hall
          exact ⟨fun s' hs' => (hall s' hs').1, fun heq => hup heq.symm,
            fun hmem => (hall _ hmem).2 rfl⟩
        · rintro ⟨hall, -, hdots⟩ s' hs'
          exact ⟨hall s' hs', fun heq => hdots (heq ▸ hs')⟩

/-- A path that keeps as many segments keeps them all. -/
theorem cleanParts_of_length (h : (cleanParts false kept segs).length = kept.length + segs.length) :
    cleanParts false kept segs = kept.reverse ++ segs := by
  induction segs generalizing kept with
  | nil => simp [cleanParts]
  | cons s segs ih =>
    rw [List.length_cons] at h
    rcases cleanParts_cases kept s segs with ⟨-, heq⟩ | ⟨last, kept', rfl, -, -, heq⟩ | ⟨-, -, heq⟩
    · have hle := length_cleanParts_le segs kept
      rw [heq] at h
      omega
    · have hle := length_cleanParts_le segs kept'
      rw [heq, List.length_cons] at h
      omega
    · rw [heq] at h ⊢
      rw [ih (by rw [h, List.length_cons]; omega), List.reverse_cons, List.append_assoc,
        List.singleton_append]

theorem cleanParts_blank (kept segs : List String) :
    cleanParts false kept (segs ++ [""]) = cleanParts false kept segs := by
  induction segs generalizing kept with
  | nil => simp [cleanParts]
  | cons s segs ih =>
    unfold cleanParts
    rw [List.cons_append]
    simp only [ih]

/-- The key does not begin with a slash. -/
theorem head_of_filled (hkey : "" ∉ split key) : key ≠ "" ∧ key.toList.head? ≠ some '/' := by
  refine ⟨?_, fun hslash => hkey ?_⟩
  · rintro rfl
    exact hkey (List.mem_singleton_self "")
  · obtain ⟨cs, hcs⟩ := List.head?_eq_some_iff.mp hslash
    rw [split, hcs, splitChars, if_pos rfl]
    exact List.mem_cons_self

theorem pathJoin_eq (hkey : "" ∉ split key) (hk : '/' ∉ k.toList) :
    pathJoin key k =
      if "/".intercalate (cleanParts false [] (split key ++ [k])) = "" then "."
      else "/".intercalate (cleanParts false [] (split key ++ [k])) := by
  obtain ⟨hne, hhead⟩ := head_of_filled hkey
  by_cases hblank : k = ""
  · have hfilter : [key, k].filter (· ≠ "") = [key] := by simp [hne, hblank]
    rw [pathJoin, hfilter, hblank, cleanParts_blank]
    simp only [pathClean, String.intercalate_singleton, decide_eq_false hhead, if_neg hhead]
  · have hfilter : [key, k].filter (· ≠ "") = [key, k] := by simp [hne, hblank]
    have hjoin : "/".intercalate [key, k] = key ++ "/" ++ k := by
      rw [String.intercalate_cons_of_ne_nil (List.cons_ne_nil k []), String.intercalate_singleton]
    have hhead' : (key ++ "/" ++ k).toList.head? ≠ some '/' := by
      obtain ⟨c, cs, hcs⟩ := List.exists_cons_of_ne_nil (mt String.toList_eq_nil_iff.mp hne)
      rw [hcs] at hhead
      rw [String.toList_append, String.toList_append, hcs]
      exact hhead
    rw [pathJoin, hfilter]
    simp only [hjoin, pathClean, decide_eq_false hhead', if_neg hhead', split_slash,
      split_of_notMem hk]

/-- The path of a name is kept as it is exactly if all of it is clean; and no other name is made
into it. -/
theorem pathJoin_eq_iff (hkey : "" ∉ split key) (hk : '/' ∉ k.toList) (hk' : '/' ∉ k'.toList) :
    pathJoin key k = key ++ "/" ++ k' ↔ k = k' ∧ Clean (split key ++ [k]) := by
  have hsplit : split (key ++ "/" ++ k') = split key ++ [k'] := by
    rw [split_slash, split_of_notMem hk']
  have hkept : cleanParts false [] (split key ++ [k]) = split key ++ [k] ↔ Clean (split key ++ [k]) :=
    cleanParts_iff fun last hlast => absurd hlast (Option.not_mem_none last)
  rw [pathJoin_eq hkey hk, ← hkept]
  generalize hparts : cleanParts false [] (split key ++ [k]) = parts
  constructor
  · intro h
    split at h
    · have hone : split "." = split key ++ [k'] := by rw [h, hsplit]
      have hlen : [k'].length = (split key ++ [k']).length := by
        rw [← hone]
        rfl
      rw [List.length_append, Nat.right_eq_add] at hlen
      exact absurd (List.length_eq_zero_iff.mp hlen) (split_ne_nil key)
    · next hfilled =>
      have hslash : ∀ s ∈ parts, '/' ∉ s.toList := by
        intro s hs
        rw [← hparts] at hs
        rcases List.mem_append.mp ((mem_cleanParts hs).resolve_left List.not_mem_nil) with hs | hs
        · exact slash_notMem_split hs
        · exact List.mem_singleton.mp hs ▸ hk
      have hne : parts ≠ [] := by
        rintro rfl
        exact hfilled rfl
      have heq : parts = split key ++ [k'] := by
        rw [← split_intercalate hne hslash, h, hsplit]
      have hall : parts = split key ++ [k] := by
        have hlen : (cleanParts false [] (split key ++ [k])).length =
            ([] : List String).length + (split key ++ [k]).length := by
          rw [hparts, heq]
          simp
        rw [← hparts]
        exact cleanParts_of_length hlen
      exact ⟨List.singleton_inj.mp (List.append_cancel_left (hall.symm.trans heq)), hall⟩
  · rintro ⟨rfl, hall⟩
    have hpath : "/".intercalate parts = key ++ "/" ++ k := by
      rw [hall, intercalate_snoc (split_ne_nil key), intercalate_split]
    rw [hpath, if_neg fun hempty => ?_]
    have hchars := congrArg (fun s : String => s.toList.length) hempty
    simp at hchars

end Clean

/-! ## Live children -/

/-- Whole turns of an `int32` apart, less than `2 ^ 31` seconds are left to a deadline ahead, and at
most as many have gone by since one that has passed. -/
def InReach (left : Int) : Prop :=
  (0 < left → 0 < left % 2 ^ 32 ∧ left % 2 ^ 32 < 2 ^ 31) ∧ (left ≤ 0 → -left % 2 ^ 32 ≤ 2 ^ 31)

instance (left : Int) : Decidable (InReach left) := inferInstanceAs (Decidable (_ ∧ _))

theorem inReach_iff {left : Int} : InReach left ↔ (0 < int32 left ↔ 0 < left) := by
  unfold InReach int32
  rw [Int.bmod_def]
  constructor
  · rintro ⟨hahead, hpast⟩
    omega
  · intro h
    constructor <;> omega

/-- A value is kept for ever, or it is read within reach of its deadline; one stored with the mark
of an expired one is not read before it was updated. -/
def Timely (e : Entity) (now : Int) : Prop :=
  e.ttl = NeverExpired ∨
  (e.ttl = Expired ∧ e.updatedAt + Expired ≤ now) ∨
  (e.ttl ≠ Expired ∧ InReach (e.updatedAt + e.ttl - now))

instance (e : Entity) (now : Int) : Decidable (Timely e now) :=
  inferInstanceAs (Decidable (_ ∨ _))

/-- `EntityExpired` tells live from expired exactly then. -/
theorem timely_iff {e : Entity} {now : Int} :
    Timely e now ↔ ((entityExpired now e).1 = false ↔ e.Live now) := by
  unfold Timely Entity.Live entityExpired
  by_cases hnever : e.ttl = NeverExpired
  · simp [hnever]
  · by_cases hexpired : e.ttl = Expired
    · have hmarks : ¬ Expired = NeverExpired := by decide
      have hpast : e.updatedAt + Expired ≤ now ↔ Expired ≤ now - e.updatedAt := by omega
      simp only [hexpired, hmarks, ne_eq, not_true_eq_false, false_or, or_false, false_and,
        true_and, if_false, if_true, Bool.true_eq_false, false_iff, not_lt, hpast]
    · have hleft : int32 (e.ttl - int32 (now - e.updatedAt)) =
          int32 (e.updatedAt + e.ttl - now) := by
        unfold int32
        rw [Int.sub_bmod_bmod]
        congr 1
        omega
      have hverdict : remainingTTL now e = Expired ↔ ¬ 0 < int32 (e.updatedAt + e.ttl - now) := by
        rw [remainingTTL, hleft]
        split
        · next hle => exact iff_of_true rfl (not_lt.mpr hle)
        · next hpos =>
          refine iff_of_false (fun heq => hpos ?_) (not_not.mpr (not_le.mp hpos))
          rw [heq]
          decide
      have hlive : now - e.updatedAt < e.ttl ↔ 0 < e.updatedAt + e.ttl - now := by omega
      simp only [hnever, hexpired, if_false, false_or, false_and, ne_eq, not_false_eq_true,
        true_and, decide_eq_false_iff_not, hverdict, not_not, hlive, inReach_iff]

/-- A directory, or a value whose time to live has not elapsed. -/
def LiveAt (now : Int) : Cell Entity → Prop
  | .dir => True
  | .val e => e.Live now

instance (now : Int) : ∀ c, Decidable (LiveAt now c)
  | .dir => isTrue trivial
  | .val e => inferInstanceAs (Decidable (e.Live now))

/-- What is shown of a child: its own key, and of a value all but the time that is left. -/
def Shown (key : String) : String × Cell Entity → Entity → Prop
  | (k, .dir), entity => entity = { key := key ++ "/" ++ k }
  | (_, .val e), entity => { entity with ttl := e.ttl } = e

/-- What the loop of `Range` makes of a row: nothing if it has expired. -/
def item (key : String) (now : Int) : String × Cell Entity → Option Entity
  | (k, .dir) => some { key := pathJoin key k }
  | (_, .val e) =>
      match entityExpired now e with
      | (true, _) => none
      | (false, e') => some e'

/-- Names are segments, and values have the keys that they stand under. -/
structure OwnRows (key : String) (rows : List (String × Cell Entity)) : Prop where
  slash : ∀ row ∈ rows, '/' ∉ row.1.toList
  own : ∀ k e, (k, .val e) ∈ rows → e.key = key ++ "/" ++ k

/-- No name is cleaned, and no time wraps, when the children are read. -/
structure Faithful (key : String) (rows : List (String × Cell Entity)) (now : Int) : Prop where
  names : ∀ k, (k, Cell.dir) ∈ rows → Clean (split key ++ [k])
  times : ∀ k e, (k, Cell.val e) ∈ rows → Timely e now

section Shown

variable {key : String} {now : Int} {rows : List (String × Cell Entity)}

theorem entityExpired_ttl (now : Int) (e : Entity) :
    { (entityExpired now e).2 with ttl := e.ttl } = e := by
  unfold entityExpired
  split
  · rfl
  · split <;> rfl

theorem item_val (key k : String) (now : Int) (e : Entity) : item key now (k, .val e) =
    if (entityExpired now e).1 = false then some (entityExpired now e).2 else none := by
  unfold item
  cases hexp : entityExpired now e with
  | mk expired e' => cases expired <;> simp [hexp]

theorem filterMap_item_val (k : String) (e : Entity) :
    ((k, .val e) :: rows).filterMap (item key now) =
      if (entityExpired now e).1 = false
        then (entityExpired now e).2 :: rows.filterMap (item key now)
      else rows.filterMap (item key now) := by
  rw [List.filterMap_cons, item_val]
  by_cases h : (entityExpired now e).1 = false
  · rw [if_pos h, if_pos h]
  · rw [if_neg h, if_neg h]

theorem filter_live_dir (k : String) :
    ((k, .dir) :: rows).filter (LiveAt now ·.2) = (k, .dir) :: rows.filter (LiveAt now ·.2) :=
  List.filter_cons_of_pos (decide_eq_true (p := LiveAt now .dir) trivial)

theorem filter_live_val (k : String) (e : Entity) :
    ((k, .val e) :: rows).filter (LiveAt now ·.2) =
      if e.Live now then (k, .val e) :: rows.filter (LiveAt now ·.2)
      else rows.filter (LiveAt now ·.2) := by
  by_cases h : e.Live now
  · rw [if_pos h]
    exact List.filter_cons_of_pos (decide_eq_true (p := LiveAt now (.val e)) h)
  · rw [if_neg h]
    exact List.filter_cons_of_neg (mt (of_decide_eq_true (p := LiveAt now (.val e))) h)

/-- The live rows are shown one by one. -/
theorem forall₂_shown (hkey : "" ∉ split key) (hslash : ∀ row ∈ rows, '/' ∉ row.1.toList)
    (h : Faithful key rows now) :
    List.Forall₂ (Shown key) (rows.filter (LiveAt now ·.2)) (rows.filterMap (item key now)) := by
  induction rows with
  | nil => exact .nil
  | cons row rows ih =>
    obtain ⟨k, c⟩ := row
    obtain ⟨hk, hslash⟩ := List.forall_mem_cons.mp hslash
    have hrest := ih hslash ⟨fun k' hk' => h.names k' (List.mem_cons_of_mem _ hk'),
      fun k' e he => h.times k' e (List.mem_cons_of_mem _ he)⟩
    cases c with
    | dir =>
      have hname := (pathJoin_eq_iff hkey hk hk).mpr ⟨rfl, h.names k List.mem_cons_self⟩
      rw [filter_live_dir]
      exact .cons (congrArg (fun key => ({ key } : Entity)) hname) hrest
    | val e =>
      have htime := timely_iff.mp (h.times k e List.mem_cons_self)
      rw [filter_live_val, filterMap_item_val]
      by_cases hlive : e.Live now
      · rw [if_pos (htime.mpr hlive), if_pos hlive]
        exact .cons (entityExpired_ttl now e) hrest
      · rw [if_neg (mt htime.mp hlive), if_neg hlive]
        exact hrest

/-- The key of what is made of a row is that of no other row. -/
theorem item_key_ne (hkey : "" ∉ split key) (hrows : OwnRows key rows) {k : String}
    (hk : '/' ∉ k.toList) (hnew : ∀ row ∈ rows, row.1 ≠ k) {entity : Entity}
    (h : entity ∈ rows.filterMap (item key now)) : entity.key ≠ key ++ "/" ++ k := by
  obtain ⟨⟨k', c⟩, hmem, hitem⟩ := List.mem_filterMap.mp h
  have hne : k' ≠ k := hnew _ hmem
  cases c with
  | dir =>
    cases hitem
    exact fun heq => hne ((pathJoin_eq_iff hkey (hrows.slash _ hmem) hk).mp heq).1
  | val e =>
    rw [item_val] at hitem
    split at hitem
    · cases hitem
      have hown := congrArg Entity.key (entityExpired_ttl now e)
      intro heq
      refine hne ?_
      have hsame := (hrows.own k' e hmem).symm.trans (hown.symm.trans heq)
      simpa using hsame
    · cases hitem

/-- What is shown of a row has the key of the row. -/
theorem key_of_shown (hrows : OwnRows key rows) {row : String × Cell Entity} (hrow : row ∈ rows)
    {entity : Entity} (h : Shown key row entity) : entity.key = key ++ "/" ++ row.1 := by
  obtain ⟨k, c⟩ := row
  cases c with
  | dir => exact congrArg Entity.key h
  | val e => exact (congrArg Entity.key h).trans (hrows.own k e hrow)

/-- Only where no name is cleaned and no time wraps. -/
theorem faithful_of_forall₂_shown (hkey : "" ∉ split key) (hrows : OwnRows key rows)
    (hnames : (rows.map (·.1)).Nodup)
    (h : List.Forall₂ (Shown key) (rows.filter (LiveAt now ·.2)) (rows.filterMap (item key now))) :
    Faithful key rows now := by
  induction rows with
  | nil => exact ⟨fun _ hk => absurd hk List.not_mem_nil, fun _ _ he => absurd he List.not_mem_nil⟩
  | cons row rows ih =>
    obtain ⟨k, c⟩ := row
    rw [List.map_cons, List.nodup_cons] at hnames
    obtain ⟨hk, hslash⟩ := List.forall_mem_cons.mp hrows.slash
    have hrest : OwnRows key rows :=
      ⟨hslash, fun k' e he => hrows.own k' e (List.mem_cons_of_mem _ he)⟩
    have hnew : ∀ row ∈ rows, row.1 ≠ k := fun row hrow heq =>
      hnames.1 (List.mem_map.mpr ⟨row, hrow, heq⟩)
    cases c with
    | dir =>
      rw [filter_live_dir] at h
      have hsome : ((k, Cell.dir) :: rows).filterMap (item key now) =
          { key := pathJoin key k } :: rows.filterMap (item key now) := rfl
      rw [hsome] at h
      obtain ⟨hshown, htail⟩ := List.forall₂_cons.mp h
      have hall := ih hrest hnames.2 htail
      refine ⟨fun k' hk' => ?_, fun k' e he => ?_⟩
      · rcases List.mem_cons.mp hk' with heq | hk'
        · cases heq
          exact ((pathJoin_eq_iff hkey hk hk).mp (congrArg Entity.key hshown)).2
        · exact hall.names k' hk'
      · rcases List.mem_cons.mp he with heq | he
        · cases heq
        · exact hall.times k' e he
    | val e =>
      have hown : e.key = key ++ "/" ++ k := hrows.own k e List.mem_cons_self
      have hsplit : Timely e now ∧ List.Forall₂ (Shown key) (rows.filter (LiveAt now ·.2))
          (rows.filterMap (item key now)) := by
        rw [timely_iff]
        rw [filter_live_val, filterMap_item_val] at h
        by_cases hlive : e.Live now
        · rw [if_pos hlive] at h
          by_cases hcode : (entityExpired now e).1 = false
          · rw [if_pos hcode] at h
            exact ⟨iff_of_true hcode hlive, (List.forall₂_cons.mp h).2⟩
          · -- another row would have to stand for it
            rw [if_neg hcode] at h
            obtain ⟨entity, rest, hshown, -, heq⟩ := List.forall₂_cons_left_iff.mp h
            have hmem : entity ∈ rows.filterMap (item key now) := heq ▸ List.mem_cons_self
            refine absurd ?_ (item_key_ne hkey hrest hk hnew hmem)
            exact (congrArg Entity.key hshown).trans hown
        · rw [if_neg hlive] at h
          by_cases hcode : (entityExpired now e).1 = false
          · -- it would have to stand for another row
            rw [if_pos hcode] at h
            obtain ⟨row, rest, hshown, -, heq⟩ := List.forall₂_cons_right_iff.mp h
            have hmem : row ∈ rows :=
              (List.mem_filter.mp (heq ▸ List.mem_cons_self : row ∈ rows.filter _)).1
            have hkeys := key_of_shown hrest hmem hshown
            have hsame := (congrArg Entity.key (entityExpired_ttl now e)).trans hown
            refine absurd ?_ (hnew row hmem)
            simpa using hkeys.symm.trans hsame
          · rw [if_neg hcode] at h
            exact ⟨iff_of_false hcode hlive, h⟩
      have hall := ih hrest hnames.2 hsplit.2
      refine ⟨fun k' hk' => ?_, fun k' e' he => ?_⟩
      · rcases List.mem_cons.mp hk' with heq | hk'
        · cases heq
        · exact hall.names k' hk'
      · rcases List.mem_cons.mp he with heq | he
        · cases heq
          exact hsplit.1
        · exact hall.times k' e' he

end Shown

/-! ## Stores that are written -/

/-- A value is set under its own key. -/
def Write.Own : Write → Prop
  | .set key val dir => dir = false → val.key = key
  | .unset _ _ => True

/-- Paths are made of segments, and values have their own keys. -/
structure Written (t : Store) : Prop where
  segments : ∀ p, t.look p ≠ none → ∀ s ∈ p, s ≠ "" ∧ '/' ∉ s.toList
  own : ∀ p e, t.look p = some (.val e) → e.key = "/".intercalate p

section Written

variable {t : Store} {w : Write} {key : String}

theorem segments_of_filled (hleaf : isEmptyLeaf (keySplitter key).2 = false)
    (hnodes : "" ∉ (keySplitter key).1) : ∀ s ∈ keyPath key, s ≠ "" ∧ '/' ∉ s.toList := by
  intro s hs
  refine ⟨?_, slash_notMem_split (keyPath_eq_split key ▸ hs)⟩
  rintro rfl
  rcases List.mem_append.mp hs with hs | hs
  · exact hnodes hs
  · rw [← List.mem_singleton.mp hs] at hleaf
    cases hleaf

/-- What a call leaves where it writes. -/
theorem Write.leaves_own (hw : w.Own) {o : Lib.HierMap.Op String Entity} (ho : w.op = some o)
    {p : List String} (hp : o.touches p) {c : Cell Entity} (hc : o.leaves p = some c) :
    (∀ s ∈ p, s ≠ "" ∧ '/' ∉ s.toList) ∧ ∀ e, c = .val e → e.key = "/".intercalate p := by
  cases w with
  | set key val dir =>
    dsimp only [Write.op, setOp] at ho
    split at ho
    · cases ho
    · next hfilled =>
      obtain ⟨-, hleaf, hnodes⟩ := not_or.mp hfilled |>.imp_right not_or.mp
      have hsegs := segments_of_filled (Bool.eq_false_of_not_eq_true hleaf) hnodes
      split at ho
      · cases ho
        cases hc
        exact ⟨fun s hs => hsegs s (List.IsPrefix.subset hp hs), fun e he => by cases he⟩
      · next hdir =>
        split at ho
        · cases ho
        · cases ho
          refine ⟨fun s hs => hsegs s (List.IsPrefix.subset hp hs), fun e he => ?_⟩
          subst he
          dsimp only [HierMap.Op.leaves] at hc
          split at hc
          · next heq =>
            cases hc
            rw [heq, keyPath_eq_split, intercalate_split]
            exact hw (Bool.eq_false_of_not_eq_true hdir)
          · cases hc
  | unset key dir =>
    dsimp only [Write.op, unsetOp] at ho
    split at ho
    · cases ho
    · split at ho
      · cases ho
        exact hp.elim
      · split at ho <;> cases ho <;> cases hc

theorem written_empty : Written (Tree.empty : Store) := by
  refine ⟨fun p hp s hs => ?_, fun p e hp => ?_⟩
  · rw [Tree.look_empty] at hp
    split at hp
    · next hnil => exact absurd (hnil ▸ hs) List.not_mem_nil
    · exact absurd rfl hp
  · rw [Tree.look_empty] at hp
    split at hp <;> cases hp

theorem written_exec (h : Written t) (hw : w.Own) : Written (w.exec t).1 := by
  by_cases hfit : ∃ o, w.op = some o ∧ o.Fits t.look
  · obtain ⟨-, hlook⟩ := (w.exec_refines t).1 hfit
    obtain ⟨o, ho, -⟩ := hfit
    have hlook := hlook o ho
    refine ⟨fun p hp => ?_, fun p e hp => ?_⟩
    · rw [hlook, HierMap.Op.effect] at hp
      split at hp
      · next htouch =>
        obtain ⟨c, hc⟩ := Option.ne_none_iff_exists'.mp hp
        exact (Write.leaves_own hw ho htouch hc).1
      · exact h.segments p hp
    · rw [hlook, HierMap.Op.effect] at hp
      split at hp
      · next htouch => exact (Write.leaves_own hw ho htouch hp).2 e rfl
      · exact h.own p e hp
  · have hsame := ((w.exec_refines t).2 fun o ho hf => hfit ⟨o, ho, hf⟩).2
    rw [hsame]
    exact h

theorem written_stores {log : List Write} (hlog : ∀ w ∈ log, w.Own) : Written (stores log) := by
  have hall : ∀ (log : List Write) (t : Store), (∀ w ∈ log, w.Own) → Written t →
      Written (log.foldl (fun t w => (w.exec t).1) t) := by
    intro log
    induction log with
    | nil => exact fun _ _ h => h
    | cons w log ih =>
      intro t hlog h
      obtain ⟨hw, hlog⟩ := List.forall_mem_cons.mp hlog
      exact ih _ hlog (written_exec h hw)
  exact hall log _ hlog written_empty

/-! ## The directory that a key names -/

theorem Written.filled (h : Written t) (hdir : t.look (split key) = some .dir) :
    "" ∉ split key := fun hmem =>
  (h.segments _ (by rw [hdir]; exact Option.some_ne_none _) "" hmem).1 rfl

theorem Written.ownRows (h : Written t) (key : String) : OwnRows key (t.kids (split key)) := by
  refine ⟨fun row hrow => ?_, fun k e he => ?_⟩
  · have hlook := Tree.look_of_mem_kids hrow
    exact (h.segments _ (by rw [hlook]; exact Option.some_ne_none _) row.1 (by simp)).2
  · rw [h.own _ e (Tree.look_of_mem_kids he), intercalate_snoc (split_ne_nil key),
      intercalate_split]

/-- The key of a directory below another one ends in a segment of spaces. -/
def BlankLeaf (key : String) : Prop :=
  (keySplitter key).1 ≠ [] ∧ isEmptyLeaf (keySplitter key).2 = true

instance (key : String) : Decidable (BlankLeaf key) := inferInstanceAs (Decidable (_ ∧ _))

/-- The rows of a directory, unless its name is blank. -/
theorem rangeRows_of_dir (h : Written t) (hdir : t.look (split key) = some .dir)
    (hblank : ¬ BlankLeaf key) (seek : String) : rangeRows t key seek =
      .ok ((t.kids (split key)).dropWhile fun row => seek ≠ "" && row.1 < seek) := by
  by_cases hnodes : (keySplitter key).1 = []
  · have hone : split key = [key] := by
      have hsplit := keyPath_eq_split key
      rw [keyPath, hnodes, List.nil_append] at hsplit
      have hkey := intercalate_split key
      rw [← hsplit, String.intercalate_singleton] at hkey
      rw [← hsplit, hkey]
    have htaken : ErrNoParentBucket.errorsIs ErrNoParentBucket = true := by decide
    have hbucket : Bolt.bucket t [] key = some [key] := if_pos (by rw [hone] at hdir; exact hdir)
    simp [rangeRows, locateBucket, hnodes, htaken, hbucket, Bolt.cursor, hone]
  · have hfilled := h.filled hdir
    have hmalformed : ¬ Malformed key := by
      rintro (hleaf | hnode)
      · exact hblank ⟨hnodes, hleaf⟩
      · rw [← keyPath_eq_split] at hfilled
        exact hfilled (List.mem_append_left _ hnode)
    rw [← keyPath_eq_split] at hdir ⊢
    rcases rangeRows_of_not_malformed hnodes hmalformed t seek with ⟨-, hrows⟩ | ⟨hno, -⟩
    · exact hrows
    · exact absurd hdir hno

/-- A directory with a blank name is not found. -/
theorem rangeRows_of_blank (h : Written t) (hblank : BlankLeaf key) (seek : String) :
    rangeRows t key seek = .error (.errorf "range.locateLeafBuck: " ErrNoSuchBucket) := by
  obtain ⟨hnodes, hleaf⟩ := hblank
  have htaken : ErrEmptyLeaf.errorsIs ErrNoParentBucket = true := by decide
  have hbucket : Bolt.bucket t [] key = none := by
    refine if_neg fun hdir => hnodes ?_
    have hslash := (h.segments _ (by rw [hdir]; exact Option.some_ne_none _) key (by simp)).2
    rw [keySplitter, split_of_notMem hslash]
    rfl
  simp [rangeRows, locateBucket, hnodes, hleaf, htaken, hbucket]

end Written

end Cassem.KV
