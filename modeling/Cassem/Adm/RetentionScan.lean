import Cassem.Adm.RetentionGC
import Mathlib.Data.Prod.Lex

/-!
# What a retention scan visits

Compactions delete values below the elements only, so the listings of apps, environments and
elements stay as they are during a run. A scan from a cursor visits the elements from it on, in the
order of app, environment and key.
-/

namespace Cassem.Adm.Retention

open Lib Lib.Paging Cassem.Concept
open KV (Store Entity Plain Listed listing pathBase)

/-! ## What compactions leave alone -/

theorem length_keyPath (key : String) :
    (KV.keyPath key).length = key.toList.count '/' + 1 := by
  rw [KV.keyPath_eq_split, KV.split, List.length_map, KV.length_splitChars]

theorem count_joint (a b : String) :
    (joint [a, b]).toList.count '/' = a.toList.count '/' + b.toList.count '/' + 1 := by
  rw [joint_pair, String.toList_append, String.toList_append, List.count_append,
    List.count_append]
  have hslash : ("/" : String).toList.count '/' = 1 := by decide
  omega

theorem joint_four (a b c d : String) : joint [a, b, c, d] = joint [joint [joint [a, b], c], d] := by
  simp only [joint_pair]
  simp [joint, String.intercalate_cons_of_ne_nil, String.append_assoc]

/-- What is removed lies below the elements. -/
theorem Removed.deep (ref : retentionElementRef) (removed : Removed) :
    5 < (KV.keyPath (removed.key ref)).length := by
  have helements : ("cassem/elements" : String).toList.count '/' = 1 := by decide
  have hoperations : ("cassem/operations" : String).toList.count '/' = 1 := by decide
  rw [length_keyPath]
  cases removed with
  | version number =>
    rw [Removed.key, versionKey, joint_four]
    simp only [count_joint, helements]
    omega
  | operation time =>
    rw [Removed.key, GenElementOperationKey, GenElementOperationDirKey,
      GenElementOperationKeyPrefix, joint_four]
    simp only [count_joint, hoperations]
    omega

theorem look_unset (store : Store) {key : String} {q : List String} (h : q ≠ KV.keyPath key) :
    (unset store key).look q = store.look q := by
  rw [unset]
  rcases KV.unsetKV_ends store key false with ⟨o, store', hop, hfit, hok, hlook⟩ | ⟨-, err, herr⟩
  · rw [hok]
    dsimp only
    rw [hlook]
    refine HierMap.Op.effect_of_not_touches ?_
    unfold KV.unsetOp at hop
    dsimp only at hop
    split at hop
    · cases hop
    · split at hop
      · cases hop
        exact fun htouch => htouch
      · cases hop
        exact h
  · rw [herr]

theorem look_applyTo (outcome : Outcome) (ref : retentionElementRef) (store : Store)
    {q : List String} (hq : q.length ≤ 5) :
    (outcome.applyTo ref store).look q = store.look q := by
  rw [Outcome.applyTo]
  induction outcome.removed generalizing store with
  | nil => rfl
  | cons removed rest ih =>
    have hother : q ≠ KV.keyPath (removed.key ref) := by
      have hdeep := removed.deep ref
      rintro rfl
      omega
    rw [List.map_cons, List.foldl_cons, ih, look_unset store hother]

/-- Two trees that have the same apps, environments and elements. -/
def SameElements (store store' : Store) : Prop :=
  ∀ q : List String, q.length ≤ 5 → store'.look q = store.look q

theorem SameElements.kids {store store' : Store} (h : SameElements store store')
    {dir : List String} (hdir : dir.length ≤ 4) : store'.kids dir = store.kids dir := by
  refine SortedMap.ext_of_lookup (store'.sorted_kids dir) (store.sorted_kids dir) fun k => ?_
  rw [Tree.lookup_kids, Tree.lookup_kids]
  refine h _ ?_
  rw [List.length_append, List.length_singleton]
  omega

/-! ## The elements -/

def appsOf (store : Store) : List String := listing store ["cassem", "apps"]

def envsOf (store : Store) (app : String) : List String := listing store ["cassem", "elements", app]

def keysOf (store : Store) (app env : String) : List String :=
  listing store ["cassem", "elements", app, env]

/-- The elements of the apps, in the order of app, environment and key. -/
def elements (store : Store) : List retentionElementRef :=
  (appsOf store).flatMap fun app =>
    (envsOf store app).flatMap fun env => (keysOf store app env).map fun key => ⟨app, env, key⟩

/-- Every entry of the three kinds of directories is as the service lists it. -/
structure Registry (store : Store) : Prop where
  apps : ∀ row ∈ store.kids ["cassem", "apps"], Listed ["cassem", "apps"] row
  envs : ∀ app ∈ appsOf store, ∀ row ∈ store.kids ["cassem", "elements", app],
    Listed ["cassem", "elements", app] row
  keys : ∀ app ∈ appsOf store, ∀ env ∈ envsOf store app,
    ∀ row ∈ store.kids ["cassem", "elements", app, env], Listed ["cassem", "elements", app, env] row

instance (store : Store) : Decidable (Registry store) :=
  decidable_of_iff ((∀ row ∈ store.kids ["cassem", "apps"], Listed ["cassem", "apps"] row) ∧
      (∀ app ∈ appsOf store, ∀ row ∈ store.kids ["cassem", "elements", app],
        Listed ["cassem", "elements", app] row) ∧
      ∀ app ∈ appsOf store, ∀ env ∈ envsOf store app,
        ∀ row ∈ store.kids ["cassem", "elements", app, env],
          Listed ["cassem", "elements", app, env] row)
    ⟨fun ⟨apps, envs, keys⟩ => ⟨apps, envs, keys⟩, fun h => ⟨h.apps, h.envs, h.keys⟩⟩

def retentionElementRef.pos (ref : retentionElementRef) : String ×ₗ String ×ₗ String :=
  toLex (ref.App, toLex (ref.Env, ref.Key))

def retentionCursor.pos (cursor : retentionCursor) : String ×ₗ String ×ₗ String :=
  toLex (cursor.App, toLex (cursor.Env, cursor.Element))

theorem retentionElementRef.pos_injective : Function.Injective retentionElementRef.pos := by
  intro a b h
  cases a
  cases b
  simp only [pos, EmbeddingLike.apply_eq_iff_eq, Prod.mk.injEq] at h
  obtain ⟨rfl, rfl, rfl⟩ := h
  rfl

/-- `nextSeekAfter` is the least name after a name. -/
theorem nextSeekAfter_le (value k : String) : nextSeekAfter value ≤ k ↔ value < k := by
  rw [nextSeekAfter, ← not_lt, String.lt_iff_toList_lt, String.lt_iff_toList_lt,
    String.toList_push]
  generalize value.toList = cs
  generalize k.toList = ds
  induction cs generalizing ds with
  | nil =>
    cases ds with
    | nil => simp
    | cons d ds =>
      have hd : ¬ d < Char.ofNat 0 := fun h => Nat.not_lt_zero _ (UInt32.lt_iff_toNat_lt.mp h)
      simp [List.cons_lt_cons_iff, hd]
  | cons c cs ih =>
    cases ds with
    | nil => simp
    | cons d ds =>
      have hrest := ih ds
      rw [List.cons_append, List.cons_lt_cons_iff, List.cons_lt_cons_iff]
      by_cases heq : c = d
      · subst heq
        simpa using hrest
      · have htotal := lt_or_gt_of_ne heq
        have hanti : c < d → ¬ d < c := fun h => not_lt.mpr h.le
        have hsymm : d ≠ c := Ne.symm heq
        simp only [heq, hsymm, false_and, or_false]
        tauto

section Order

variable {cursor : retentionCursor} {ref ref' : retentionElementRef}

theorem pos_le_iff : cursor.pos ≤ ref.pos ↔ cursor.App < ref.App ∨ cursor.App = ref.App ∧
    (cursor.Env < ref.Env ∨ cursor.Env = ref.Env ∧ cursor.Element ≤ ref.Key) := by
  rw [retentionCursor.pos, retentionElementRef.pos, Prod.Lex.toLex_le_toLex,
    Prod.Lex.toLex_le_toLex]

theorem pos_lt_iff : ref.pos < ref'.pos ↔ ref.App < ref'.App ∨ ref.App = ref'.App ∧
    (ref.Env < ref'.Env ∨ ref.Env = ref'.Env ∧ ref.Key < ref'.Key) := by
  rw [retentionElementRef.pos, retentionElementRef.pos, Prod.Lex.toLex_lt_toLex,
    Prod.Lex.toLex_lt_toLex]

/-- A cursor after an element is behind it and before all later ones. -/
theorem pos_after_le : (retentionCursor.after ref).pos ≤ ref'.pos ↔ ref.pos < ref'.pos := by
  rw [pos_le_iff, pos_lt_iff]
  simp only [retentionCursor.after, nextSeekAfter_le]

end Order

section Elements

variable {store store' : Store}

theorem SameElements.appsOf (h : SameElements store store') : appsOf store' = appsOf store :=
  congrArg (List.map _) (h.kids (by decide))

theorem SameElements.envsOf (h : SameElements store store') (app : String) :
    envsOf store' app = envsOf store app :=
  congrArg (List.map _) (h.kids (by simp))

theorem SameElements.keysOf (h : SameElements store store') (app env : String) :
    keysOf store' app env = keysOf store app env :=
  congrArg (List.map _) (h.kids (by simp))

theorem SameElements.elements (h : SameElements store store') :
    elements store' = elements store := by
  simp only [Retention.elements, h.appsOf, h.envsOf, h.keysOf]

theorem SameElements.registry (h : SameElements store store') (hstore : Registry store) :
    Registry store' where
  apps := by
    rw [h.kids (by decide)]
    exact hstore.apps
  envs := by
    intro app happ
    rw [h.kids (by simp)]
    exact hstore.envs app (h.appsOf ▸ happ)
  keys := by
    intro app happ env henv
    rw [h.kids (by simp)]
    exact hstore.keys app (h.appsOf ▸ happ) env (h.envsOf app ▸ henv)

theorem pairwise_elements (store : Store) :
    (elements store).Pairwise fun a b => a.pos < b.pos := by
  refine List.pairwise_flatMap.mpr ⟨fun app _ => List.pairwise_flatMap.mpr ⟨fun env _ => ?_, ?_⟩, ?_⟩
  · refine List.pairwise_map.mpr ((KV.pairwise_listing _ _).imp fun hlt => ?_)
    exact pos_lt_iff.mpr (by simp [hlt])
  · refine (KV.pairwise_listing _ _).imp fun {env env'} hlt a ha b hb => ?_
    obtain ⟨key, -, rfl⟩ := List.mem_map.mp ha
    obtain ⟨key', -, rfl⟩ := List.mem_map.mp hb
    exact pos_lt_iff.mpr (by simp [hlt])
  · refine (KV.pairwise_listing _ _).imp fun {app app'} hlt a ha b hb => ?_
    obtain ⟨env, -, ha⟩ := List.mem_flatMap.mp ha
    obtain ⟨env', -, hb⟩ := List.mem_flatMap.mp hb
    obtain ⟨key, -, rfl⟩ := List.mem_map.mp ha
    obtain ⟨key', -, rfl⟩ := List.mem_map.mp hb
    exact pos_lt_iff.mpr (by simp [hlt])

end Elements

/-! ## The elements from a cursor on -/

/-- Where the scan of an environment begins, when the cursor is handed on to its app. -/
def elementSeek (app : String) (active : retentionCursor) (env : String) : String :=
  if app = active.App ∧ env = active.Env then active.Element else ""

def envCursor (active : retentionCursor) (app : String) : retentionCursor :=
  if app = active.App then active else {}

def keysFrom (store : Store) (app : String) (active : retentionCursor) (env : String) :
    List retentionElementRef :=
  (upFrom (keysOf store app env) (elementSeek app active env)).map fun key => ⟨app, env, key⟩

def envsFrom (store : Store) (active : retentionCursor) (app : String) :
    List retentionElementRef :=
  (upFrom (envsOf store app) (envCursor active app).Env).flatMap
    (keysFrom store app (envCursor active app))

def elementsFrom (store : Store) (cursor : retentionCursor) : List retentionElementRef :=
  (upFrom (appsOf store) cursor.App).flatMap (envsFrom store cursor)

theorem upFrom_first (names : List String) : upFrom names "" = names := upFrom_bot names

theorem flatMap_upFrom {β : Type} (names : List String) (seek : String) (f : String → List β) :
    (upFrom names seek).flatMap f = names.flatMap fun k => if seek ≤ k then f k else [] := by
  induction names with
  | nil => rfl
  | cons k names ih =>
    rw [upFrom, List.filter_cons, List.flatMap_cons, ← ih]
    by_cases hk : seek ≤ k
    · rw [if_pos (decide_eq_true hk), if_pos hk, List.flatMap_cons]
      rfl
    · rw [if_neg (by simp [hk]), if_neg hk]
      rfl

theorem keysFrom_eq (store : Store) (cursor : retentionCursor) (env : String)
    (henv : cursor.Env ≤ env) :
    keysFrom store cursor.App cursor env =
      ((keysOf store cursor.App env).map fun key => ⟨cursor.App, env, key⟩).filter
        fun ref => cursor.pos ≤ ref.pos := by
  rw [keysFrom, upFrom, List.filter_map]
  refine congrArg (List.map _) (List.filter_congr fun key _ => ?_)
  rw [Function.comp_apply, decide_eq_decide, pos_le_iff, elementSeek]
  by_cases heq : env = cursor.Env
  · have hirrefl : ¬ cursor.Env < env := not_lt.mpr heq.le
    simp [heq]
  · have hlt : cursor.Env < env := lt_of_le_of_ne henv (Ne.symm heq)
    have hbot : "" ≤ key := (bot_le : (⊥ : String) ≤ key)
    simp [heq, hlt, hbot]

/-- They are the elements that the cursor does not lie behind. -/
theorem elementsFrom_eq (store : Store) (cursor : retentionCursor) :
    elementsFrom store cursor = (elements store).filter fun ref => cursor.pos ≤ ref.pos := by
  rw [elementsFrom, elements, flatMap_upFrom, List.filter_flatMap]
  refine List.flatMap_congr fun app _ => ?_
  rw [List.filter_flatMap]
  by_cases happ : cursor.App ≤ app
  · rw [if_pos happ, envsFrom, flatMap_upFrom]
    refine List.flatMap_congr fun env _ => ?_
    by_cases heq : app = cursor.App
    · subst heq
      rw [envCursor, if_pos rfl]
      by_cases henv : cursor.Env ≤ env
      · rw [if_pos henv, keysFrom_eq store cursor env henv]
      · rw [if_neg henv]
        symm
        rw [List.filter_eq_nil_iff]
        intro ref href hle
        obtain ⟨key, -, rfl⟩ := List.mem_map.mp href
        rcases pos_le_iff.mp (of_decide_eq_true hle) with hlt | ⟨-, hlt | ⟨heq, -⟩⟩
        · exact lt_irrefl _ hlt
        · exact henv hlt.le
        · exact henv heq.le
    · have hlt : cursor.App < app := lt_of_le_of_ne happ (Ne.symm heq)
      have hseek : elementSeek app {} env = "" := ite_self ""
      have hbot : ({} : retentionCursor).Env ≤ env := (bot_le : (⊥ : String) ≤ env)
      rw [envCursor, if_neg heq, if_pos hbot, keysFrom, hseek, upFrom_first,
        List.filter_eq_self.mpr]
      intro ref href
      obtain ⟨key, -, rfl⟩ := List.mem_map.mp href
      exact decide_eq_true (pos_le_iff.mpr (.inl hlt))
  · rw [if_neg happ]
    symm
    refine List.flatMap_eq_nil_iff.mpr fun env _ => ?_
    rw [List.filter_eq_nil_iff]
    intro ref href hle
    obtain ⟨key, -, rfl⟩ := List.mem_map.mp href
    rcases pos_le_iff.mp (of_decide_eq_true hle) with hlt | ⟨heq, -⟩
    · exact happ hlt.le
    · exact happ heq.le

theorem pairwise_elementsFrom (store : Store) (cursor : retentionCursor) :
    (elementsFrom store cursor).Pairwise fun a b => a.pos < b.pos := by
  rw [elementsFrom_eq]
  exact (pairwise_elements store).filter _

theorem SameElements.elementsFrom {store store' : Store} (h : SameElements store store')
    (cursor : retentionCursor) : elementsFrom store' cursor = elementsFrom store cursor := by
  rw [elementsFrom_eq, elementsFrom_eq, h.elements]

/-- After one of them lie those that follow it. -/
theorem elementsFrom_after {store : Store} {cursor : retentionCursor}
    {as bs : List retentionElementRef} {last : retentionElementRef}
    (h : elementsFrom store cursor = as ++ last :: bs) :
    elementsFrom store (.after last) = bs := by
  have hsorted := pairwise_elementsFrom store cursor
  have hmem : last ∈ elementsFrom store cursor := by
    rw [h]
    exact List.mem_append_right _ List.mem_cons_self
  have hle : cursor.pos ≤ last.pos := by
    rw [elementsFrom_eq] at hmem
    exact of_decide_eq_true (List.mem_filter.mp hmem).2
  have htwice : elementsFrom store (.after last) =
      (elementsFrom store cursor).filter fun ref => last.pos < ref.pos := by
    rw [elementsFrom_eq, elementsFrom_eq, List.filter_filter]
    refine List.filter_congr fun ref _ => ?_
    by_cases hlt : last.pos < ref.pos
    · simp [pos_after_le, hlt, hle.trans hlt.le]
    · simp [pos_after_le, hlt]
  rw [h] at hsorted
  obtain ⟨-, hrest, hcross⟩ := List.pairwise_append.mp hsorted
  have hbefore : as.filter (fun ref => last.pos < ref.pos) = [] := by
    rw [List.filter_eq_nil_iff]
    intro ref href hlt
    exact absurd (of_decide_eq_true hlt) (hcross ref href last List.mem_cons_self).not_gt
  have hfrom : bs.filter (fun ref => last.pos < ref.pos) = bs :=
    List.filter_eq_self.mpr fun ref href =>
      decide_eq_true ((List.pairwise_cons.mp hrest).1 ref href)
  rw [htwice, h, List.filter_append, hbefore, List.filter_cons_of_neg (by simp), hfrom,
    List.nil_append]

/-- What is left when some of them have been visited. -/
theorem elementsFrom_visited {store : Store} {cursor : retentionCursor}
    {refs rest : List retentionElementRef} (h : elementsFrom store cursor = refs ++ rest) :
    elementsFrom store ((refs.getLast?.map retentionCursor.after).getD cursor) = rest := by
  rcases List.eq_nil_or_concat' refs with rfl | ⟨as, last, rfl⟩
  · exact h
  · rw [List.append_assoc, List.singleton_append] at h
    rw [List.getLast?_append]
    exact elementsFrom_after h

/-! ## Pages of the tree -/

section Pages

variable {store : Store} {n : Nat}

theorem leafOf_plain {segs : List String} {k : String} (h : ∀ s ∈ segs, Plain s) (hk : Plain k) :
    leafOf ("/".intercalate (segs ++ [k])) = some k := by
  have hslash : k ≠ "/" := by
    rintro rfl
    exact hk.slash (by decide)
  rw [leafOf, KV.pathBase_plain h hk]
  simp [hk.ne_empty, hk.dot, hslash]

theorem pathBase_name {k : String} (hk : Plain k) : pathBase k = k := by
  have hbase : pathBase ("/".intercalate ([] ++ [k])) = k := KV.pathBase_plain nofun hk
  rwa [List.nil_append, String.intercalate_singleton] at hbase

/-- A page that is fetched in time is one of the listing. -/
theorem rangeLeaves_listing {front : List String} {leaf : String} (hfront : front ≠ [])
    (hplain : ∀ s ∈ front ++ [leaf], Plain s)
    (hrows : ∀ row ∈ store.kids (front ++ [leaf]), Listed (front ++ [leaf]) row) (now : Int)
    (seek : String) :
    ∃ page, rangeLeavesPageWithError n now store true ("/".intercalate (front ++ [leaf])) seek =
        .ok page ∧
      page.page = pageOf (listing store (front ++ [leaf])) n seek := by
  obtain ⟨resp, hok, hkeys, hmore, hnext⟩ := KV.Range_listing hfront hplain hrows now seek n
  have hname : ∀ k ∈ upFrom (listing store (front ++ [leaf])) seek, Plain k := by
    intro k hk
    obtain ⟨row, hrow, rfl⟩ := List.mem_map.mp (List.mem_filter.mp hk).1
    exact (hrows row hrow).plain
  simp only [rangeLeavesPageWithError, if_true, hok, hkeys]
  refine ⟨_, rfl, ?_⟩
  rw [LeafPage.page, pageOf]
  generalize upFrom (listing store (front ++ [leaf])) seek = names at hname hmore hnext ⊢
  have hleaves : ((names.take n).map fun k => "/".intercalate (front ++ [leaf] ++ [k])).filterMap
      leafOf = names.take n := by
    rw [List.filterMap_map]
    refine (List.filterMap_congr fun k hk => ?_).trans List.filterMap_some
    exact leafOf_plain hplain (hname k (List.mem_of_mem_take hk))
  rw [hleaves]
  cases hdrop : names.drop n with
  | nil =>
    have hlast : resp.hasMore = false := Bool.eq_false_iff.mpr fun h => hmore.mp h hdrop
    simp [hlast]
  | cons k rest =>
    have hk : Plain k := hname k (List.mem_of_mem_drop (hdrop ▸ List.mem_cons_self))
    have hmore : resp.hasMore = true := hmore.mpr (hdrop ▸ List.cons_ne_nil k rest)
    have hseek : resp.nextSeekKey = k := by rw [hnext, hdrop]; rfl
    simp [hmore, hseek, hk.ne_empty, pathBase_name hk]

end Pages

/-! ## The scan -/

/-- What is fetched is a page of the tree, or the fetch fails. -/
structure Paged {σ : Type} (range : σ → String → String → Except GoError LeafPage)
    (fails I : σ → Prop) (store : Store) (n : Nat) : Prop where
  apps : ∀ seek s, I s → fetch range GenAppDirKey s seek = some (pageOf (appsOf store) n seek) ∨
    (fetch range GenAppDirKey s seek = none ∧ fails s)
  envs : ∀ app ∈ appsOf store, ∀ seek s, I s →
    fetch range (GenAppElementKey app) s seek = some (pageOf (envsOf store app) n seek) ∨
      (fetch range (GenAppElementKey app) s seek = none ∧ fails s)
  keys : ∀ app ∈ appsOf store, ∀ env ∈ envsOf store app, ∀ seek s, I s →
    fetch range (GenAppElementEnvKey app env) s seek = some (pageOf (keysOf store app env) n seek) ∨
      (fetch range (GenAppElementEnvKey app env) s seek = none ∧ fails s)

/-- As many pages as this are enough for every listing. -/
structure Enough (store : Store) (fuel : Nat) : Prop where
  apps : (appsOf store).length < fuel
  envs : ∀ app ∈ appsOf store, (envsOf store app).length < fuel
  keys : ∀ app ∈ appsOf store, ∀ env ∈ envsOf store app, (keysOf store app env).length < fuel

theorem Enough.mono {store : Store} {fuel more : Nat} (h : Enough store fuel) (hle : fuel ≤ more) :
    Enough store more where
  apps := h.apps.trans_le hle
  envs app happ := (h.envs app happ).trans_le hle
  keys app happ env henv := (h.keys app happ env henv).trans_le hle

theorem exists_enough (store : Store) : ∃ fuel, Enough store fuel := by
  have hbound : ∀ (names : List String) (f : String → Nat), ∃ n, ∀ k ∈ names, f k ≤ n := by
    intro names f
    induction names with
    | nil => exact ⟨0, nofun⟩
    | cons k names ih =>
      obtain ⟨n, hn⟩ := ih
      refine ⟨f k + n, fun k' hk' => ?_⟩
      rcases List.mem_cons.mp hk' with rfl | hk'
      · omega
      · exact (hn k' hk').trans (Nat.le_add_left n _)
  have hkeys : ∀ app, ∃ n, ∀ env ∈ envsOf store app, (keysOf store app env).length ≤ n :=
    fun app => hbound (envsOf store app) fun env => (keysOf store app env).length
  choose bound hbounds using hkeys
  obtain ⟨m, hm⟩ := hbound (appsOf store) fun app => (envsOf store app).length
  obtain ⟨n, hn⟩ := hbound (appsOf store) bound
  refine ⟨(appsOf store).length + m + n + 1, by omega, fun app happ => ?_, fun app happ env henv => ?_⟩
  · have henvs := hm app happ
    omega
  · have hkeys := (hbounds app env henv).trans (hn app happ)
    omega

theorem length_upFrom_le (names : List String) (seek : String) :
    (upFrom names seek).length ≤ names.length := List.length_filter_le _ _

section Stable

variable {σ : Type} {range : σ → String → String → Except GoError LeafPage}
  {visit : retentionElementRef → σ → σ × Bool} {fuel more : Nat} (hle : fuel ≤ more)

include hle

theorem scanElementKeys_stable {app env seek : String} {s : σ} {r : σ × Bool}
    (h : scanElementKeys range visit fuel app env seek s = some r) :
    scanElementKeys range visit more app env seek s = some r :=
  scanPages_stable (fun _ _ _ _ h => h) hle h

theorem scanEnvs_stable {app seek : String} {cursor : retentionCursor} {s : σ} {r : σ × Bool}
    (h : scanEnvs range visit fuel app seek cursor s = some r) :
    scanEnvs range visit more app seek cursor s = some r := by
  refine scanPages_stable (fun active env s r hr => ?_) hle h
  obtain ⟨r', hr', rfl⟩ := Option.map_eq_some_iff.mp hr
  exact Option.map_eq_some_iff.mpr ⟨r', scanElementKeys_stable hle hr', rfl⟩

theorem scanElements_stable {cursor : retentionCursor} {s : σ} {r : σ × Bool}
    (h : scanElements range visit fuel cursor s = some r) :
    scanElements range visit more cursor s = some r := by
  refine scanPages_stable (fun active app s r hr => ?_) hle h
  obtain ⟨r', hr', rfl⟩ := Option.map_eq_some_iff.mp hr
  exact Option.map_eq_some_iff.mpr ⟨r', scanEnvs_stable hle hr', rfl⟩

end Stable

section Scan

variable {σ : Type} {range : σ → String → String → Except GoError LeafPage}
  {visit : retentionElementRef → σ → σ × Bool} {fails I : σ → Prop} {store : Store} {n fuel : Nat}
  (hinv : ∀ ref s, I s → I (visit ref s).1) (hpaged : Paged range fails I store n) (hn : 0 < n)
  (hfuel : Enough store fuel)

include hinv hpaged hn hfuel

theorem scanElementKeys_reads {app env : String} (happ : app ∈ appsOf store)
    (henv : env ∈ envsOf store app) (seek : String) {s : σ} (hs : I s) :
    ∃ r, scanElementKeys range visit fuel app env seek s = some r ∧
      Reads visit fails ((upFrom (keysOf store app env) seek).map fun key => ⟨app, env, key⟩) s r := by
  have hleaf : LeafReads visit fails I
      (fun _ key s => some ((visit ⟨app, env, key⟩ s).1,
        if (visit ⟨app, env, key⟩ s).2 then some () else none))
      (fun _ key => [⟨app, env, key⟩]) (fun _ _ => ()) (keysOf store app env) := by
    intro _ key _ s _
    refine ⟨visit ⟨app, env, key⟩ s, rfl, .inl ?_⟩
    rw [visitAll]
    by_cases hmore : (visit ⟨app, env, key⟩ s).2 = true
    · rw [if_pos hmore, visitAll, ← hmore]
    · rw [if_neg hmore]
  have hlen := (length_upFrom_le (keysOf store app env) seek).trans_lt (hfuel.keys app happ env henv)
  obtain ⟨r, hr, hreads⟩ := scanPages_reads hinv hleaf (fun _ _ _ _ _ => rfl)
    (KV.pairwise_listing _ _) hn (hpaged.keys app happ env henv) hlen (fun _ _ => rfl) hs
  rw [← List.map_eq_flatMap] at hreads
  exact ⟨r, hr, hreads⟩

theorem scanEnvs_reads {app : String} (happ : app ∈ appsOf store) (cursor : retentionCursor) {s : σ}
    (hs : I s) :
    ∃ r, scanEnvs range visit fuel app cursor.Env cursor s = some r ∧
      Reads visit fails ((upFrom (envsOf store app) cursor.Env).flatMap (keysFrom store app cursor))
        s r := by
  have hnext : ∀ active k, Spent (keysFrom store app) {} active k →
      Spent (keysFrom store app) {} (if app = active.App ∧ k = active.Env then {} else active) k := by
    intro active k hspent
    split
    · exact fun _ _ => rfl
    · exact hspent
  have hspent : Spent (keysFrom store app) {} cursor cursor.Env := by
    intro env hlt
    have hother : ¬ (app = cursor.App ∧ env = cursor.Env) := fun h => absurd h.2 (ne_of_gt hlt)
    rw [keysFrom, keysFrom, elementSeek, elementSeek, if_neg hother, ite_self]
  have hlen := (length_upFrom_le (envsOf store app) cursor.Env).trans_lt (hfuel.envs app happ)
  unfold scanEnvs
  refine scanPages_reads hinv ?_ hnext (KV.pairwise_listing _ _) hn (hpaged.envs app happ) hlen
    hspent hs
  intro active env henv s hs
  obtain ⟨r, hr, hreads⟩ := scanElementKeys_reads hinv hpaged hn hfuel happ henv
    (elementSeek app active env) hs
  exact ⟨r, congrArg (Option.map _) hr, hreads⟩

variable (visit I) in
/-- A scan visits the elements from the cursor on, up to a page that fails. -/
theorem scanElements_reads (cursor : retentionCursor) {s : σ} (hs : I s) :
    ∃ r, scanElements range visit fuel cursor s = some r ∧
      Reads visit fails (elementsFrom store cursor) s r := by
  have hnext : ∀ active k, Spent (envsFrom store) {} active k →
      Spent (envsFrom store) {} (if k = active.App then {} else active) k := by
    intro active k hspent
    split
    · exact fun _ _ => rfl
    · exact hspent
  have hspent : Spent (envsFrom store) {} cursor cursor.App := by
    intro app hlt
    rw [envsFrom, envsFrom, envCursor, envCursor, if_neg (ne_of_gt hlt), ite_self]
  have hlen := (length_upFrom_le (appsOf store) cursor.App).trans_lt hfuel.apps
  unfold scanElements
  refine scanPages_reads hinv ?_ hnext (KV.pairwise_listing _ _) hn hpaged.apps hlen hspent hs
  intro active app happ s hs
  obtain ⟨r, hr, hreads⟩ := scanEnvs_reads hinv hpaged hn hfuel happ (envCursor active app) hs
  exact ⟨r, congrArg (Option.map _) hr, hreads⟩

end Scan

end Cassem.Adm.Retention
