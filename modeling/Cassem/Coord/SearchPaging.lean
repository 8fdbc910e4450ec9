import Cassem.Coord.ElementHistory
import Cassem.Coord.Search

/-!
# Following the pages of a search

Each page of a search is a part of the matches in the whole listing, however these lie on the pages
of the listing. Followed from the first page on, a search finds each match once and in order.
-/

namespace Cassem.Coord

open Lib Lib.Paging Cassem.Concept
open Adm (AppMetadata)
open KV (Bytes Entity PageRead Plain Store)

/-! ## One search -/

section Loop

variable {μ : Type} {found : Entity → Option μ} {limit : Nat}

theorem collect_eq {matched : List μ} (h : matched.length ≤ limit) (es : List Entity) :
    collect found limit matched es = (matched ++ es.filterMap found).take (limit + 1) := by
  induction es generalizing matched with
  | nil =>
    rw [collect, List.filterMap_nil, List.append_nil, List.take_of_length_le (by omega)]
  | cons v rest ih =>
    unfold collect
    cases hv : found v with
    | none =>
      rw [List.filterMap_cons_none hv]
      exact ih h
    | some m =>
      have hsplit : matched ++ (v :: rest).filterMap found =
          (matched ++ [m]) ++ rest.filterMap found := by
        rw [List.filterMap_cons_some hv, List.append_assoc]
        rfl
      have hlen : (matched ++ [m]).length = matched.length + 1 := List.length_append
      rw [hsplit]
      dsimp only
      split
      · next hfull =>
        have hexact : limit + 1 = (matched ++ [m]).length := by omega
        rw [hexact, List.take_left]
      · next hroom => exact ih (by omega)

/-- The search finds what matches on all the pages, up to one match too many. -/
theorem searchIn_eq (pages : List PageRead) {matched : List μ} (h : matched.length ≤ limit) :
    searchIn found limit pages matched =
      ((matched ++ (pages.flatMap fun page => page.resp.entities).filterMap found).take (limit + 1),
        decide ((matched ++ (pages.flatMap fun page => page.resp.entities).filterMap found).length ≤
          limit)) := by
  induction pages generalizing matched with
  | nil =>
    simp only [searchIn, List.flatMap_nil, List.filterMap_nil, List.append_nil, h, decide_true]
    rw [List.take_of_length_le (by omega)]
  | cons page pages ih =>
    rw [searchIn, collect_eq h, List.flatMap_cons, List.filterMap_append, ← List.append_assoc]
    generalize matched ++ page.resp.entities.filterMap found = hits
    split
    · next hfull =>
      have hlong : limit + 1 ≤ hits.length := by
        rw [List.length_take] at hfull
        omega
      rw [List.take_append_of_le_length hlong, decide_eq_false]
      rw [List.length_append]
      omega
    · next hroom =>
      have hshort : hits.length ≤ limit := by
        rw [List.length_take] at hroom
        omega
      rw [List.take_of_length_le (by omega)]
      exact ih hshort

end Loop

section Pager

variable {μ : Type} {name : μ → String} {limit : Nat} {hits : List μ}

/-- Where the next page begins, if there is one. -/
def CommonPager.next (pager : CommonPager) : Option String :=
  if pager.HasMore then some pager.NextSeek else none

/-- The pager of the first hits. -/
def pagerOf (name : μ → String) (limit : Nat) (hits : List μ) : CommonPager :=
  match hits.drop limit with
  | [] => ⟨false, ""⟩
  | m :: _ => ⟨true, name m⟩

theorem next_pagerOf : (pagerOf name limit hits).next = (hits.drop limit).head?.map name := by
  unfold pagerOf
  cases hits.drop limit <;> rfl

theorem pagerOf_ended (h : hits.length ≤ limit) : pagerOf name limit hits = ⟨false, ""⟩ := by
  rw [pagerOf, List.drop_of_length_le h]

theorem pagerOf_full {m : μ} (h : hits[limit]? = some m) :
    pagerOf name limit hits = ⟨true, name m⟩ := by
  obtain ⟨hlt, rfl⟩ := List.getElem?_eq_some_iff.mp h
  rw [pagerOf, List.drop_eq_getElem_cons hlt]

end Pager

namespace Searcher

variable (s : Searcher)

/-- What matches of a directory. -/
def hits {μ : Type} (found : Entity → Option μ) (front : List String) (leaf : String) : List μ :=
  (s.store.kids (front ++ [leaf])).filterMap fun row =>
    found (KV.entityOf ("/".intercalate (front ++ [leaf])) row)

section Listing

variable {μ ρ : Type} {found : Entity → Option μ} {front : List String} {leaf : String}
  {name : μ → String} (hname : ∀ row ∈ s.store.kids (front ++ [leaf]), ∀ m,
    found (KV.entityOf ("/".intercalate (front ++ [leaf])) row) = some m → name m = row.1)
include hname

theorem pairwise_hits : (s.hits found front leaf).Pairwise fun m m' => name m < name m' := by
  refine List.pairwise_filterMap.mpr ((s.store.sorted_kids _).imp_of_mem ?_)
  intro row row' hrow hrow' hlt m hm m' hm'
  rw [hname row hrow m hm, hname row' hrow' m' hm']
  exact hlt

variable (hfront : front ≠ []) (hplain : ∀ seg ∈ front ++ [leaf], Plain seg)
  (hrows : ∀ row ∈ s.store.kids (front ++ [leaf]), KV.Listed (front ++ [leaf]) row)
  {limit : Int64} {n : Nat} (hn : limit.toInt = n) (hlimit : 1 ≤ n ∧ n ≤ 100) (hroom : n < s.maxCap)
include hfront hplain hrows hn hlimit hroom

/-- A search makes its result of the matches from the seek key on, and one is too many. -/
theorem search_hits (result : Except GoError (List μ × Bool) → Except SearchFault ρ)
    (seek : String) {fuel : Nat} (hfuel : (s.store.kids (front ++ [leaf])).length < fuel) :
    s.search found ("/".intercalate (front ++ [leaf])) seek limit result fuel =
      some (result (.ok ((itemsFrom name (s.hits found front leaf) seek).take (n + 1),
        decide ((itemsFrom name (s.hits found front leaf) seek).length ≤ n)))) := by
  have hsize : limit.toInt32.toInt = n := by
    rw [Int64.toInt_toInt32, hn]
    exact Int.bmod_eq_of_le (by omega) (by omega)
  have hmake : makeslice s.maxCap (limit + 1).toInt = .ok () := by
    rw [capacity_eq (by omega), makeslice, if_neg (by omega)]
  have hserve : ∀ i seek, s.range i ⟨"/".intercalate (front ++ [leaf]), seek, limit.toInt32⟩ =
      KV.Range (s.clock i) s.store ⟨"/".intercalate (front ++ [leaf]), seek, n⟩ := by
    intro i seek
    have hsized : 1 ≤ limit.toInt32.toInt ∧ limit.toInt32.toInt ≤ 100 := by omega
    have haccepted := KV.serveRange_accepts s.violation
      ⟨"/".intercalate (front ++ [leaf]), seek, limit.toInt32⟩
      (KV.two_le_length_plain hfront hplain) hsized (s.clock i) s.store
    rw [range, haccepted]
    dsimp only
    rw [hsize, Int.toNat_natCast]
  obtain ⟨pages, hpages, hentities⟩ := KV.listPages_listed hfront hplain hrows s.clock hlimit.1 seek
  have hmatches : (pages.flatMap fun page => page.resp.entities).filterMap found =
      itemsFrom name (s.hits found front leaf) seek := by
    rw [hentities, List.filterMap_map]
    exact filterMap_itemsFrom hname seek
  have hstart : ¬ limit.toInt < ([] : List μ).length := by
    rw [hn, List.length_nil]
    omega
  rw [search, hmake]
  dsimp only
  rw [searchPages_of_listPages hserve (hpages fuel hfuel) hstart, hn,
    searchIn_eq pages (Nat.zero_le n), List.nil_append, hmatches]
  rfl

end Listing

/-! ## The results -/

/-- With a match too many, the first ones are returned and that one is the next. -/
theorem cut_full {μ : Type} {limit : Int} {n : Nat} (hn : limit = n) {hits : List μ}
    (h : n < hits.length) :
    ∃ m, hits[n]? = some m ∧ indexAt limit (hits.take (n + 1)) = .ok m ∧
      sliceTo limit (hits.take (n + 1)) = .ok (hits.take n) := by
  have hlen : (hits.take (n + 1)).length = n + 1 := by
    rw [List.length_take]
    omega
  have hpos : 0 ≤ limit := by omega
  have hlt : limit < (hits.take (n + 1)).length := by omega
  obtain ⟨m, hm, hindex⟩ := indexAt_ok hpos hlt
  have hslice := sliceTo_ok hpos hlt
  rw [hn, Int.toNat_natCast] at hm hslice
  rw [List.getElem?_take_of_lt (Nat.lt_succ_self n)] at hm
  rw [List.take_take, Nat.min_eq_left (Nat.le_succ n)] at hslice
  exact ⟨m, hm, hindex, hn ▸ hslice⟩

theorem elementsResult_eq (app env : String) {limit : Int64} {n : Nat} (hn : limit.toInt = n)
    (hits : List String) :
    s.elementsResult app env limit (.ok (hits.take (n + 1), decide (hits.length ≤ n))) =
      (s.getElementsByKeys app env (hits.take n)).map fun elements =>
        ⟨pagerOf id n hits, elements⟩ := by
  by_cases hle : hits.length ≤ n
  · rw [decide_eq_true hle, List.take_of_length_le (Nat.le_succ_of_le hle),
      List.take_of_length_le hle, pagerOf_ended hle]
    simp only [elementsResult]
    cases s.getElementsByKeys app env hits <;> rfl
  · obtain ⟨m, hm, hindex, hslice⟩ := cut_full hn (not_le.mp hle)
    rw [decide_eq_false hle, pagerOf_full hm]
    simp only [elementsResult, hindex, hslice]
    show (s.getElementsByKeys app env (hits.take n) >>= _) = _
    cases s.getElementsByKeys app env (hits.take n) <;> rfl

theorem appsResult_eq {limit : Int64} {n : Nat} (hn : limit.toInt = n) (hits : List AppMetadata) :
    appsResult limit (.ok (hits.take (n + 1), decide (hits.length ≤ n))) =
      .ok ⟨pagerOf (·.Id) n hits, hits.take n⟩ := by
  by_cases hle : hits.length ≤ n
  · rw [decide_eq_true hle, List.take_of_length_le (Nat.le_succ_of_le hle),
      List.take_of_length_le hle, pagerOf_ended hle]
    rfl
  · obtain ⟨m, hm, hindex, hslice⟩ := cut_full hn (not_le.mp hle)
    rw [decide_eq_false hle, pagerOf_full hm]
    simp only [appsResult, hindex, hslice]
    rfl

end Searcher

/-! ## All the pages -/

/-- Pages of no more than `limit` items each, which are `all` of them together. -/
structure Paged {ρ α : Type} (items : ρ → List α) (limit : Nat) (all : List α) (pages : List ρ) :
    Prop where
  bounded : ∀ page ∈ pages, (items page).length ≤ limit
  together : pages.flatMap items = all

/-- Followed from the first page on, the pages have what is made of all the hits. -/
theorem paged_of_follow {μ ρ α ε : Type} {name : μ → String} {hits : List μ}
    (hsorted : hits.Pairwise fun m m' => name m < name m') {limit : Nat} (hlimit : 0 < limit)
    {f : μ → Option α} (page : String → ρ) {pager : ρ → CommonPager} {items : ρ → List α}
    (hpager : ∀ seek, pager (page seek) = pagerOf name limit (itemsFrom name hits seek))
    (hitems : ∀ seek, items (page seek) = ((itemsFrom name hits seek).take limit).filterMap f)
    {read : Nat → Nat → String → Option (Except ε ρ)} {bound : Nat}
    (hread : ∀ fuel, bound < fuel → ∀ n seek, read fuel n seek = some (.ok (page seek))) :
    ∃ pages, Ends (fun fuel => follow (read fuel) (fun r => (pager r).next) fuel 0 "") (.ok pages) ∧
      Paged items limit (hits.filterMap f) pages := by
  have hnext : ∀ seek, (pager (page seek)).next =
      ((itemsFrom name hits seek).drop limit).head?.map name := fun seek => by
    rw [hpager, next_pagerOf]
  have hall : itemsFrom name hits "" = hits := itemsFrom_bot name hits
  obtain ⟨seeks, hseeks, htogether⟩ := @follow_complete String ρ ε μ _ name hits hsorted limit
    hlimit page (fun r => (pager r).next) hnext ""
  rw [hall] at hseeks htogether
  refine ⟨seeks.map page, ⟨max bound hits.length + 1, fun more hmore => ?_⟩, ?_, ?_⟩
  · exact hseeks (read more) (hread more (by omega)) more 0 (by omega)
  · intro r hr
    obtain ⟨seek, -, rfl⟩ := List.mem_map.mp hr
    rw [hitems]
    exact (List.length_filterMap_le f _).trans (List.length_take_le limit _)
  · rw [List.flatMap_map, ← htogether, List.filterMap_flatMap]
    exact List.flatMap_congr fun seek _ => hitems seek

/-! ## What is listed -/

section Listing

variable {c : Codecs} {md5 : Bytes → String} {store : Store}

/-- A directory is higher than the values in its tree. -/
theorem Laid.lt_depth (h : Laid store) {p : List String} (hdir : store.look p = some .dir)
    (hlong : 1 < p.length) : p.length < depth p := by
  obtain ⟨q, hq, ⟨r, rfl⟩, hne⟩ := h.dir p hdir
  have htree : (p ++ r)[1]? = p[1]? := List.getElem?_append_left hlong
  have hlen := hq.length_eq
  rw [depth, htree, ← depth] at hlen
  have hr : r ≠ [] := fun hr => hne (by rw [hr, List.append_nil])
  have hpos := List.length_pos_iff.mpr hr
  rw [List.length_append] at hlen
  omega

theorem Target.OfContent.front_eq {n : ElementName} {t : Target} (h : t.OfContent) :
    t.front n = n.path := by
  cases t with
  | operation operatedAt => exact h.elim
  | metadata => rfl
  | version v => rfl

namespace InOrder

variable (h : InOrder c md5 store)
include h

/-- In the directory of an environment are those of its elements. -/
theorem element_row {app env k : String}
    (hk : store.look ["cassem", "elements", app, env, k] ≠ none) :
    store.look ["cassem", "elements", app, env, k] = some .dir ∧ Adm.isIdentifier k = true := by
  obtain ⟨cell, hcell⟩ := Option.ne_none_iff_exists'.mp hk
  cases cell with
  | val e =>
    have hlen := (h.laid.value _ e hcell).1.length_eq
    cases hlen
  | dir =>
    refine ⟨hcell, ?_⟩
    obtain ⟨q, hq, ⟨r, hr⟩, -⟩ := h.laid.dir _ hcell
    cases hq with
    | @record n hn t ht =>
      cases t with
      | operation operatedAt =>
        have htree := congrArg (fun p : List String => p[1]?) hr
        simp [Target.path, Target.front, ElementName.operationPath] at htree
      | metadata =>
        have hkey := congrArg (fun p : List String => p[4]?) hr
        cases hkey
        exact hn.key
      | version v =>
        have hkey := congrArg (fun p : List String => p[4]?) hr
        cases hkey
        exact hn.key
    | app happ =>
      have hlen := congrArg List.length hr
      simp at hlen

theorem look_element {n : ElementName} (hn : n.Valid) :
    store.look n.path ≠ none ↔ (stored n (c.records store)).metadata ≠ none := by
  constructor
  · intro hne hmd
    obtain ⟨leaf, hleaf⟩ := h.laid.filled n hn hne
    obtain ⟨cell, hcell⟩ := Option.ne_none_iff_exists'.mp hleaf
    cases cell with
    | dir =>
      have hlow := h.laid.lt_depth hcell (by simp [ElementName.path])
      exact absurd hlow (by simp [ElementName.path, depth])
    | val e =>
      obtain ⟨t, hcontent, ht, rfl⟩ := (h.laid.value _ e hcell).1.exists_target
      have hnone : c.records store (t.key n) = none := by
        cases t with
        | operation operatedAt => exact hcontent.elim
        | metadata => exact (stored_metadata n _).symm.trans hmd
        | version v =>
          exact (stored_versions n _ v).symm.trans ((h.element n hn).wellFormed.versions_none hmd v)
      rw [records_key hn t, Target.path, hcontent.front_eq, hcell] at hnone
      cases hnone
  · intro hmd hnone
    have hdir : store.look n.path ≠ some .dir := by simp [hnone]
    have hbelow : store.look (Target.path n .metadata) = none :=
      KV.look_none_below hdir (List.cons_ne_nil _ _)
    refine hmd ?_
    rw [stored_metadata, records_key hn .metadata, hbelow]
    rfl

end InOrder

end Listing

/-! ## The elements of an environment -/

theorem extractPureKey_plain {segs : List String} {k : String} (h : ∀ s ∈ segs ++ [k], Plain s) :
    ExtractPureKey ("/".intercalate (segs ++ [k])) = k := by
  have hne : segs ++ [k] ≠ [] := List.append_ne_nil_of_right_ne_nil segs (List.cons_ne_nil k [])
  rw [ExtractPureKey, KV.split_plain hne h]
  simp

/-- The keys of the elements of an environment that contain the text, whatever the case of their
letters, in order. -/
structure KeysWith (s : Searcher) (app env text : String) (keys : List String) : Prop where
  ordered : keys.Pairwise (· < ·)
  mem : ∀ key, key ∈ keys ↔ ∃ n : ElementName, n.Valid ∧ n.app = app ∧ n.env = env ∧ n.key = key ∧
    (stored n s.kv).metadata ≠ none ∧ contains (s.toLower key) (s.toLower text) = true

/-- What is shown of an element of an environment. -/
def Searcher.shownAt (s : Searcher) (app env key : String) : Option Element :=
  shown (contentAt s.kv (joint ["cassem/elements", app, env, key]))

/-- A searcher of the records in its store. -/
structure Searcher.OfStore (s : Searcher) (c : Codecs) : Prop where
  records : s.kv = c.records s.store
  unmarshal : ∀ md, s.unmarshalApp (c.app.marshal md) = md

section Elements

variable {c : Codecs} {md5 : Bytes → String} {s : Searcher} (h : InOrder c md5 s.store)
  (hs : s.OfStore c) {app env : String} (happ : Adm.isIdentifier app = true)
  (henv : Adm.isIdentifier env = true)

/-- The keys of an environment that match. -/
def Searcher.elementKeys (s : Searcher) (app env needle : String) : List String :=
  s.hits (s.elementFound needle) ["cassem", "elements", app] env

include happ henv in
theorem plain_env : ∀ seg ∈ ["cassem", "elements", app] ++ [env], Plain seg := by
  have happ' := KV.plain_of_isIdentifier happ
  have henv' := KV.plain_of_isIdentifier henv
  have hroots : Plain "cassem" ∧ Plain "elements" := by decide
  simpa using ⟨hroots.1, hroots.2, happ', henv'⟩

include h

theorem element_rows {row : String × Cell Entity}
    (hrow : row ∈ s.store.kids (["cassem", "elements", app] ++ [env])) :
    row.2 = .dir ∧ Adm.isIdentifier row.1 = true := by
  obtain ⟨k, cell⟩ := row
  have hlook := Tree.look_of_mem_kids hrow
  have hne : s.store.look ["cassem", "elements", app, env, k] ≠ none := by
    show s.store.look (["cassem", "elements", app] ++ [env] ++ [k]) ≠ none
    rw [hlook]
    nofun
  obtain ⟨hdir, hid⟩ := h.element_row hne
  exact ⟨Option.some.inj (hlook.symm.trans hdir), hid⟩

theorem element_listed {row : String × Cell Entity}
    (hrow : row ∈ s.store.kids (["cassem", "elements", app] ++ [env])) :
    KV.Listed (["cassem", "elements", app] ++ [env]) row := by
  obtain ⟨hdir, hid⟩ := element_rows h hrow
  refine ⟨KV.plain_of_isIdentifier hid, fun e he => ?_⟩
  rw [hdir] at he
  cases he

include happ henv

theorem elementFound_row (needle : String) {row : String × Cell Entity}
    (hrow : row ∈ s.store.kids (["cassem", "elements", app] ++ [env])) :
    s.elementFound needle
        (KV.entityOf ("/".intercalate (["cassem", "elements", app] ++ [env])) row) =
      if contains (s.toLower row.1) needle then some row.1 else none := by
  obtain ⟨k, cell⟩ := row
  obtain ⟨hdir, hid⟩ := element_rows h hrow
  have hk : Plain k := KV.plain_of_isIdentifier hid
  have hplain := plain_env happ henv
  have hne : ["cassem", "elements", app] ++ [env] ≠ [] := List.cons_ne_nil _ _
  cases hdir
  have hkey : ExtractPureKey
      (KV.pathJoin ("/".intercalate (["cassem", "elements", app] ++ [env])) k) = k := by
    rw [KV.pathJoin_plain hne hplain hk]
    refine extractPureKey_plain fun s hs => ?_
    rcases List.mem_append.mp hs with hs | hs
    · exact hplain s hs
    · exact List.mem_singleton.mp hs ▸ hk
  rw [Searcher.elementFound, KV.entityOf]
  dsimp only
  rw [hkey]

theorem elementFound_name (needle : String) :
    ∀ row ∈ s.store.kids (["cassem", "elements", app] ++ [env]), ∀ key, s.elementFound needle
      (KV.entityOf ("/".intercalate (["cassem", "elements", app] ++ [env])) row) = some key →
        id key = row.1 := by
  intro row hrow key hkey
  rw [elementFound_row h happ henv _ hrow] at hkey
  split at hkey
  · exact (Option.some.inj hkey).symm
  · cases hkey

include hs

theorem keysWith_elementKeys (text : String) :
    KeysWith s app env text (s.elementKeys app env (s.toLower text)) where
  ordered := s.pairwise_hits (elementFound_name h happ henv _)
  mem key := by
    unfold Searcher.elementKeys Searcher.hits
    rw [List.mem_filterMap]
    constructor
    · rintro ⟨row, hrow, hfound⟩
      obtain ⟨hdir, hid⟩ := element_rows h hrow
      rw [elementFound_row h happ henv _ hrow] at hfound
      split at hfound
      · next hmatch =>
        cases hfound
        have hn : (nameOf happ henv hid).Valid := ⟨happ, henv, hid⟩
        refine ⟨nameOf happ henv hid, hn, rfl, rfl, rfl, ?_, hmatch⟩
        rw [hs.records]
        refine (h.look_element hn).mp ?_
        have hlook := Tree.look_of_mem_kids hrow
        show s.store.look (["cassem", "elements", app] ++ [env] ++ [row.1]) ≠ none
        rw [hlook]
        nofun
      · cases hfound
    · rintro ⟨n, hn, rfl, rfl, rfl, hmd, hmatch⟩
      rw [hs.records] at hmd
      obtain ⟨cell, hcell⟩ := Option.ne_none_iff_exists'.mp ((h.look_element hn).mpr hmd)
      have hrow : (n.key, cell) ∈ s.store.kids (["cassem", "elements", n.app] ++ [n.env]) :=
        SortedMap.mem_of_lookup ((s.store.lookup_kids _ _).trans hcell)
      refine ⟨(n.key, cell), hrow, ?_⟩
      rw [elementFound_row h hn.app hn.env _ hrow, if_pos hmatch]

theorem elementKeys_inForm {text key : String}
    (hkey : key ∈ s.elementKeys app env (s.toLower text)) :
    ∃ n : ElementName, n.app = app ∧ n.env = env ∧ n.key = key ∧ InForm md5 n (stored n s.kv) ∧
      (stored n s.kv).metadata ≠ none := by
  obtain ⟨n, hn, hnapp, hnenv, hnkey, hmd, -⟩ :=
    ((keysWith_elementKeys h hs happ henv text).mem key).mp hkey
  have hform := h.element n hn
  rw [← hs.records] at hform
  exact ⟨n, hnapp, hnenv, hnkey, hform, hmd⟩

/-- Every match is shown. -/
theorem map_shownAt (text : String) :
    ((s.elementKeys app env (s.toLower text)).filterMap (s.shownAt app env)).map some =
      (s.elementKeys app env (s.toLower text)).map (s.shownAt app env) := by
  rw [List.map_filterMap, ← List.filterMap_eq_map]
  refine List.filterMap_congr fun key hkey => ?_
  obtain ⟨n, rfl, rfl, rfl, hform, hmd⟩ := elementKeys_inForm h hs happ henv hkey
  obtain ⟨ele, hele⟩ := hform.exists_shown hmd
  have hshown : s.shownAt n.app n.env n.key = some ele := hele
  rw [hshown, Function.comp_apply, hshown]
  rfl

theorem getElementsByKeys_hits (text : String) {keys : List String}
    (hkeys : keys ⊆ s.elementKeys app env (s.toLower text)) :
    s.getElementsByKeys app env keys = .ok (keys.filterMap (s.shownAt app env)) := by
  have hgen : ∀ key ∈ keys,
      GenElementKey app env key = .ok (joint ["cassem/elements", app, env, key]) := by
    intro key hkey
    obtain ⟨n, rfl, rfl, rfl, -⟩ := elementKeys_inForm h hs happ henv (hkeys hkey)
    exact n.genElementKey
  have hat : ∀ key ∈ keys, AtKey md5 s.kv (joint ["cassem/elements", app, env, key]) := by
    intro key hkey
    obtain ⟨n, rfl, rfl, rfl, hform, -⟩ := elementKeys_inForm h hs happ henv (hkeys hkey)
    exact atKey_of_wellFormed hform.wellFormed
  rw [Searcher.getElementsByKeys, getElementsByKeys_of_atKey hgen hat]
  rfl

/-- The page of the matches from a seek key on. -/
def Searcher.elementsPage (s : Searcher) (app env needle : String) (limit : Nat) (seek : String) :
    GetElementsResult where
  CommonPager := pagerOf id limit (itemsFrom id (s.elementKeys app env needle) seek)
  Elements := ((itemsFrom id (s.elementKeys app env needle) seek).take limit).filterMap
    (s.shownAt app env)

variable {limit : Int64} {n : Nat} (hn : limit.toInt = n) (hlimit : 1 ≤ n ∧ n ≤ 100)
  (hroom : n < s.maxCap) {query : String} (hquery : trimSpace query ≠ "")
include hn hlimit hroom hquery

theorem GetElements_page (seek : String) {fuel : Nat}
    (hfuel : (s.store.kids (["cassem", "elements", app] ++ [env])).length < fuel) :
    s.GetElements app env seek limit query fuel =
      some (.ok (s.elementsPage app env (s.toLower (trimSpace query)) n seek)) := by
  have hsearch := s.search_hits (elementFound_name h happ henv (s.toLower (trimSpace query)))
    (List.cons_ne_nil _ _) (plain_env happ henv) (fun row hrow => element_listed h hrow) hn hlimit
    hroom (s.elementsResult app env limit) seek hfuel
  have hhits : (itemsFrom id (s.elementKeys app env (s.toLower (trimSpace query))) seek).take n ⊆
      s.elementKeys app env (s.toLower (trimSpace query)) :=
    fun key hkey => (List.mem_filter.mp (List.mem_of_mem_take hkey)).1
  have hget := getElementsByKeys_hits h hs happ henv (trimSpace query) hhits
  unfold Searcher.GetElements
  dsimp only
  rw [if_neg hquery, envElementKey_split, hsearch, s.elementsResult_eq app env hn]
  exact congrArg (fun r => some (Except.map _ r)) hget

/-- The pages of `GetElements` from the first on; the n-th call finds its times in `clock n`. -/
def Searcher.followElements (s : Searcher) (clock : Nat → Nat → Int) (app env : String)
    (limit : Int64) (query : String) (fuel : Nat) :
    Option (Except SearchFault (List GetElementsResult)) :=
  follow (fun n seek => { s with clock := clock n }.GetElements app env seek limit query fuel)
    (fun r => r.CommonPager.next) fuel 0 ""

theorem followElements_paged (clock : Nat → Nat → Int) :
    ∃ pages, Ends (s.followElements clock app env limit query) (.ok pages) ∧
      Paged (·.Elements) n ((s.elementKeys app env (s.toLower (trimSpace query))).filterMap
        (s.shownAt app env)) pages :=
  paged_of_follow (s.pairwise_hits (elementFound_name h happ henv _)) hlimit.1
    (s.elementsPage app env (s.toLower (trimSpace query)) n) (fun _ => rfl) (fun _ => rfl)
    fun fuel (hfuel : (s.store.kids (["cassem", "elements", app] ++ [env])).length < fuel) i seek =>
      @GetElements_page c md5 { s with clock := clock i } h ⟨hs.1, hs.2⟩ app env happ henv limit n
        hn hlimit hroom query hquery seek fuel hfuel

end Elements

/-! ## The apps -/

/-- The stored apps with an id or a description that contains the text, whatever the case of their
letters, in the order of their ids. -/
structure AppsWith (s : Searcher) (c : Codecs) (text : String) (apps : List AppMetadata) :
    Prop where
  ordered : apps.Pairwise fun md md' => md.Id < md'.Id
  mem : ∀ md, md ∈ apps ↔
    (∃ e, s.store.look ["cassem", "apps", md.Id] = some (.val e) ∧ e.val = c.app.marshal md) ∧
      (contains (s.toLower md.Id) (s.toLower text) = true ∨
        contains (s.toLower md.Description) (s.toLower text) = true)

section Apps

variable {c : Codecs} {md5 : Bytes → String} {s : Searcher} (h : InOrder c md5 s.store)
  (hs : s.OfStore c)

/-- The apps that match. -/
def Searcher.appHits (s : Searcher) (needle : String) : List AppMetadata :=
  s.hits (s.appFound needle) ["cassem"] "apps"

include h

theorem app_rows {row : String × Cell Entity}
    (hrow : row ∈ s.store.kids (["cassem"] ++ ["apps"])) :
    Adm.isIdentifier row.1 = true ∧ ∃ e md, row.2 = .val e ∧
      s.store.look ["cassem", "apps", row.1] = some (.val e) ∧ e.val = c.app.marshal md ∧
        md.Id = row.1 := by
  obtain ⟨k, cell⟩ := row
  have hlook : s.store.look ["cassem", "apps", k] = some cell := Tree.look_of_mem_kids hrow
  cases cell with
  | dir =>
    have hlow := h.laid.lt_depth hlook (by simp)
    exact absurd hlow (by simp [depth])
  | val e =>
    obtain ⟨md, hval, hid⟩ := h.app k e hlook
    have hslot := (h.laid.value _ e hlook).1
    generalize hp : ["cassem", "apps", k] = p at hslot
    cases hslot with
    | @record n hn t ht =>
      have hlen := congrArg List.length hp
      cases t <;>
        simp [Target.path, Target.front, ElementName.path, ElementName.operationPath] at hlen
    | app happ =>
      cases hp
      exact ⟨happ, e, md, rfl, hlook, hval, hid⟩

theorem app_listed {row : String × Cell Entity}
    (hrow : row ∈ s.store.kids (["cassem"] ++ ["apps"])) :
    KV.Listed (["cassem"] ++ ["apps"]) row := by
  obtain ⟨happ, e, md, hcell, hlook, -, -⟩ := app_rows h hrow
  refine ⟨KV.plain_of_isIdentifier happ, fun e' he' => ?_⟩
  cases hcell.symm.trans he'
  exact (h.laid.value _ e hlook).2

include hs

theorem appFound_row (needle : String) {row : String × Cell Entity}
    (hrow : row ∈ s.store.kids (["cassem"] ++ ["apps"])) {md : AppMetadata} :
    s.appFound needle (KV.entityOf ("/".intercalate (["cassem"] ++ ["apps"])) row) = some md ↔
      (∃ e, s.store.look ["cassem", "apps", row.1] = some (.val e) ∧ e.val = c.app.marshal md) ∧
        md.Id = row.1 ∧ (contains (s.toLower md.Id) needle = true ∨
          contains (s.toLower md.Description) needle = true) := by
  obtain ⟨-, e, md', hcell, hlook, hval, hid⟩ := app_rows h hrow
  obtain ⟨k, cell⟩ := row
  cases hcell
  have hunmarshal : s.unmarshalApp e.val = md' := by rw [hval, hs.unmarshal]
  rw [Searcher.appFound, KV.entityOf]
  dsimp only
  rw [hunmarshal]
  constructor
  · intro hfound
    split at hfound
    · next hmatch =>
      cases hfound
      exact ⟨⟨e, hlook, hval⟩, hid, Bool.or_eq_true_iff.mp hmatch⟩
    · cases hfound
  · rintro ⟨⟨e', hlook', hval'⟩, -, hmatch⟩
    cases hlook.symm.trans hlook'
    have hsame : md' = md := by
      rw [← hs.unmarshal md', ← hs.unmarshal md, ← hval, hval']
    subst hsame
    exact if_pos (Bool.or_eq_true_iff.mpr hmatch)

theorem appFound_name (needle : String) :
    ∀ row ∈ s.store.kids (["cassem"] ++ ["apps"]), ∀ md, s.appFound needle
      (KV.entityOf ("/".intercalate (["cassem"] ++ ["apps"])) row) = some md → md.Id = row.1 :=
  fun _ hrow _ hfound => ((appFound_row h hs needle hrow).mp hfound).2.1

theorem appsWith_appHits (text : String) : AppsWith s c text (s.appHits (s.toLower text)) where
  ordered := s.pairwise_hits (appFound_name h hs _)
  mem md := by
    unfold Searcher.appHits Searcher.hits
    rw [List.mem_filterMap]
    constructor
    · rintro ⟨row, hrow, hfound⟩
      obtain ⟨hstored, hid, hmatch⟩ := (appFound_row h hs _ hrow).mp hfound
      rw [← hid] at hstored
      exact ⟨hstored, hmatch⟩
    · rintro ⟨⟨e, hlook, hval⟩, hmatch⟩
      have hrow : (md.Id, Cell.val e) ∈ s.store.kids (["cassem"] ++ ["apps"]) :=
        SortedMap.mem_of_lookup ((s.store.lookup_kids _ _).trans hlook)
      exact ⟨_, hrow, (appFound_row h hs _ hrow).mpr ⟨⟨e, hlook, hval⟩, rfl, hmatch⟩⟩

/-- The page of the matches from a seek key on. -/
def Searcher.appsPage (s : Searcher) (needle : String) (limit : Nat) (seek : String) :
    GetAppsResult where
  CommonPager := pagerOf (·.Id) limit (itemsFrom (·.Id) (s.appHits needle) seek)
  Apps := (itemsFrom (·.Id) (s.appHits needle) seek).take limit

variable {limit : Int64} {n : Nat} (hn : limit.toInt = n) (hlimit : 1 ≤ n ∧ n ≤ 100)
  (hroom : n < s.maxCap) {query : String} (hquery : trimSpace query ≠ "")
include hn hlimit hroom hquery

theorem GetApps_page (seek : String) {fuel : Nat}
    (hfuel : (s.store.kids (["cassem"] ++ ["apps"])).length < fuel) :
    s.GetApps seek limit query fuel =
      some (.ok (s.appsPage (s.toLower (trimSpace query)) n seek)) := by
  have hsearch := s.search_hits (appFound_name h hs (s.toLower (trimSpace query)))
    (List.cons_ne_nil _ _) (by decide) (fun row hrow => app_listed h hrow) hn hlimit hroom
    (Searcher.appsResult limit) seek hfuel
  have hkey : "/".intercalate (["cassem"] ++ ["apps"]) = "cassem/apps" := by decide
  unfold Searcher.GetApps
  dsimp only
  rw [if_neg hquery, ← hkey, hsearch, Searcher.appsResult_eq hn]
  rfl

/-- The pages of `GetApps` from the first on. -/
def Searcher.followApps (s : Searcher) (clock : Nat → Nat → Int) (limit : Int64) (query : String)
    (fuel : Nat) : Option (Except SearchFault (List GetAppsResult)) :=
  follow (fun n seek => { s with clock := clock n }.GetApps seek limit query fuel)
    (fun r => r.CommonPager.next) fuel 0 ""

theorem followApps_paged (clock : Nat → Nat → Int) :
    ∃ pages, Ends (s.followApps clock limit query) (.ok pages) ∧
      Paged (·.Apps) n (s.appHits (s.toLower (trimSpace query))) pages := by
  have hall : (s.appHits (s.toLower (trimSpace query))).filterMap some =
      s.appHits (s.toLower (trimSpace query)) := List.filterMap_some
  rw [← hall]
  exact paged_of_follow (s.pairwise_hits (appFound_name h hs _)) hlimit.1
    (s.appsPage (s.toLower (trimSpace query)) n) (fun _ => rfl) (fun _ => List.filterMap_some.symm)
    fun fuel (hfuel : (s.store.kids (["cassem"] ++ ["apps"])).length < fuel) i seek =>
      @GetApps_page c md5 { s with clock := clock i } h ⟨hs.1, hs.2⟩ limit n hn hlimit hroom query
        hquery seek fuel hfuel

end Apps

/-! ## Both searches -/

/-- On a store that complete operations have left, the pages of a search for something that is not
blank, followed from the first on, are together what contains the query without the white space
around it: each match once, in the order of the keys, and no more on a page than the limit. -/
theorem searches_filter {c : Codecs} {md5 : Bytes → String} {s : Searcher}
    (h : Written c md5 s.store) (hs : s.OfStore c) {app env : String}
    (happ : Adm.isIdentifier app = true) (henv : Adm.isIdentifier env = true) {limit : Int64}
    (hlimit : 1 ≤ limit.toInt ∧ limit.toInt ≤ 100) (hroom : limit.toInt < s.maxCap) {query : String}
    (hquery : trimSpace query ≠ "") (clock : Nat → Nat → Int) :
    (∃ keys elements pages, KeysWith s app env (trimSpace query) keys ∧
      elements.map some = keys.map (s.shownAt app env) ∧
      Ends (s.followElements clock app env limit query) (.ok pages) ∧
      Paged (·.Elements) limit.toInt.toNat elements pages) ∧
    ∃ apps pages, AppsWith s c (trimSpace query) apps ∧
      Ends (s.followApps clock limit query) (.ok pages) ∧
      Paged (·.Apps) limit.toInt.toNat apps pages := by
  have hin := inOrder_of_written h
  have hn : limit.toInt = limit.toInt.toNat := by omega
  have hbounds : 1 ≤ limit.toInt.toNat ∧ limit.toInt.toNat ≤ 100 := by omega
  have hfits : limit.toInt.toNat < s.maxCap := by omega
  obtain ⟨pages, hends, hpaged⟩ :=
    followElements_paged hin hs happ henv hn hbounds hfits hquery clock
  obtain ⟨pages', hends', hpaged'⟩ := followApps_paged hin hs hn hbounds hfits hquery clock
  exact ⟨⟨_, _, pages, keysWith_elementKeys hin hs happ henv (trimSpace query),
      map_shownAt hin hs happ henv (trimSpace query), hends, hpaged⟩,
    _, pages', appsWith_appHits hin hs (trimSpace query), hends', hpaged'⟩

theorem contains_toLower (s : Searcher) (text substr : String) :
    contains (s.toLower text) (s.toLower substr) =
      decide (substr.toList.map s.lower <:+: text.toList.map s.lower) := by
  rw [contains, Searcher.toLower, Searcher.toLower, String.toList_map, String.toList_map]

/-- A searcher of what operations make of a store without anything. -/
def searcherOf (ops : List Operation) : Searcher :=
  let store :=
    ops.foldl (fun store op => op.exec codecs (fun _ => "") (fun _ => 0) store) Tree.empty
  { Searcher.nothing with
    store
    kv := codecs.records store
    unmarshalApp := fun val => (appCodec.unmarshal val).getD default }

theorem searcherOf_ofStore (ops : List Operation) : (searcherOf ops).OfStore codecs :=
  ⟨rfl, fun md => congrArg (·.getD default) (appCodec.unmarshal_marshal md)⟩

theorem written_searcherOf {ops : List Operation} (hops : ∀ op ∈ ops, op.Valid) :
    Written codecs (fun _ => "") (searcherOf ops).store := by
  have hfold : ∀ {store : Store}, Written codecs (fun _ => "") store →
      Written codecs (fun _ => "")
        (ops.foldl (fun store op => op.exec codecs (fun _ => "") (fun _ => 0) store) store) := by
    induction ops with
    | nil => exact fun h => h
    | cons op ops ih =>
      intro store h
      exact ih (fun op hop => hops op (List.mem_cons_of_mem _ hop))
        (h.operation (hops op List.mem_cons_self) fun _ => 0)
  exact hfold .empty

def shop : AppMetadata := ⟨"shop", "colors", "", ""⟩

def shopColor : Operation :=
  .element ⟨"shop", "prod", "color", by decide⟩ ⟨.create [49] 4, ⟨none, 1⟩⟩

theorem searches_filter_shop :
    (∃ keys elements pages,
      KeysWith (searcherOf [.createApp shop, shopColor]) "shop" "prod" (trimSpace " Color") keys ∧
      elements.map some =
        keys.map ((searcherOf [.createApp shop, shopColor]).shownAt "shop" "prod") ∧
      Ends ((searcherOf [.createApp shop, shopColor]).followElements (fun _ _ => 0) "shop" "prod" 1
        " Color") (.ok pages) ∧
      Paged (·.Elements) (1 : Int64).toInt.toNat elements pages) ∧
    ∃ apps pages,
      AppsWith (searcherOf [.createApp shop, shopColor]) codecs (trimSpace " Color") apps ∧
      Ends ((searcherOf [.createApp shop, shopColor]).followApps (fun _ _ => 0) 1 " Color")
        (.ok pages) ∧
      Paged (·.Apps) (1 : Int64).toInt.toNat apps pages := by
  have hops : ∀ op ∈ [.createApp shop, shopColor], op.Valid := by
    intro op hop
    simp only [List.mem_cons, List.not_mem_nil, or_false] at hop
    rcases hop with rfl | rfl
    · exact (by decide : Adm.isIdentifier "shop" = true)
    · exact ⟨by decide, by decide, by decide⟩
  have hroom : (1 : Int64).toInt < ((searcherOf [.createApp shop, shopColor]).maxCap : Int) :=
    (by decide : (1 : Int64).toInt < ((2 ^ 40 : Nat) : Int))
  exact searches_filter (written_searcherOf hops) (searcherOf_ofStore _) (by decide) (by decide)
    (by decide) hroom (by decide) _

/-- A blank before the query makes no difference, though no id and no description contains it. -/
theorem blank_ignored :
    Written codecs (fun _ => "") (searcherOf [.createApp shop]).store ∧ trimSpace " shop" ≠ "" ∧
      ¬ ∃ apps pages, AppsWith (searcherOf [.createApp shop]) codecs " shop" apps ∧
        Ends ((searcherOf [.createApp shop]).followApps (fun _ _ => 0) 10 " shop") (.ok pages) ∧
        Paged (·.Apps) 10 apps pages := by
  have hvalid : Adm.isIdentifier shop.Id = true := by decide
  have hops : ∀ op ∈ [Operation.createApp shop], op.Valid := by
    intro op hop
    rw [List.mem_singleton.mp hop]
    exact hvalid
  have hwritten := written_searcherOf hops
  have hquery : trimSpace " shop" ≠ "" := by decide
  have hs := searcherOf_ofStore [.createApp shop]
  refine ⟨hwritten, hquery, ?_⟩
  rintro ⟨apps, pages, hwith, hends, hpaged⟩
  have hin := inOrder_of_written hwritten
  have hroom : 10 < (searcherOf [.createApp shop]).maxCap := (by decide : 10 < 2 ^ 40)
  have hn : (10 : Int64).toInt = (10 : Nat) := by decide
  obtain ⟨pages', hends', hpaged'⟩ :=
    followApps_paged hin hs hn ⟨by decide, by decide⟩ hroom hquery fun _ _ => 0
  cases hends.unique hends'
  have hsame := hpaged.together.symm.trans hpaged'.together
  -- the app is found without the blank
  have hstored : ∃ e, (searcherOf [.createApp shop]).store.look ["cassem", "apps", shop.Id] =
      some (.val e) ∧ e.val = codecs.app.marshal shop := by
    obtain ⟨-, hnone | hsize⟩ | ⟨store', e, hstore', -, hval, -, hlook⟩ :=
      (inOrder_empty codecs fun _ => "").createApp_spec hvalid fun _ => 0
    · exact absurd (Tree.look_empty _) hnone
    · exact absurd hsize (by decide)
    · refine ⟨e, ?_, hval⟩
      have hstore : (searcherOf [.createApp shop]).store = store' := congrArg Prod.fst hstore'
      rw [hstore]
      exact (hlook _).trans (if_pos rfl)
  have hfound := ((appsWith_appHits hin hs (trimSpace " shop")).mem shop).mpr
    ⟨hstored, .inl ((contains_toLower _ _ _).trans (by decide))⟩
  rw [← hsame] at hfound
  have hmatch := ((hwith.mem shop).mp hfound).2
  rw [contains_toLower, contains_toLower] at hmatch
  exact absurd hmatch (by decide)

end Cassem.Coord
