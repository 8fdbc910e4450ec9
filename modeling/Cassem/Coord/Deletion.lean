import Cassem.Coord.KeyCodec

/-!
# Deleting apps, environments and elements

What is deleted is gone from all its directories, and whatever belongs to anything else stays as
it was.
-/

namespace Cassem.Coord

open Lib Cassem.Concept
open KV (Store Plain)

/-! ## What is deleted -/

/-- An app, an environment or an element, by its names. -/
inductive Named where
  | application (appId : String)
  | environment (app env : String)
  | element (n : ElementName)

namespace Named

def Valid : Named → Prop
  | .application appId => Adm.isIdentifier appId = true
  | .environment app env => Adm.isIdentifier app = true ∧ Adm.isIdentifier env = true
  | .element n => n.Valid

def names : Named → List String
  | .application appId => [appId]
  | .environment app env => [app, env]
  | .element n => [n.app, n.env, n.key]

/-- The directories in which it lies, and the key of an app. -/
def directories : Named → List String
  | .application appId =>
      [Adm.Retention.GenAppElementKey appId, GenAppKey appId, GenAppOperationKey appId]
  | .environment app env =>
      [Adm.Retention.GenAppElementEnvKey app env, GenAppEnvOperationKey app env]
  | .element n => [n.elementKey, GenElementOperationKeyPrefix n.app n.env n.key]

def delete (store : Store) : Named → Store × Option GoError
  | .application appId => DeleteApp store appId
  | .environment app env => DeleteEnvironment store app env
  | .element n => DeleteElement store n

/-- The paths of the directories. -/
def paths : Named → List (List String)
  | .application appId =>
      [["cassem", "elements", appId], ["cassem", "apps", appId], ["cassem", "operations", appId]]
  | .environment app env => [["cassem", "elements", app, env], ["cassem", "operations", app, env]]
  | .element n =>
      [["cassem", "elements", n.app, n.env, n.key], ["cassem", "operations", n.app, n.env, n.key]]

theorem names_of_mem_paths {x : Named} {path : List String} (h : path ∈ x.paths) :
    ∃ root, path = "cassem" :: root :: x.names := by
  cases x <;> simp only [paths, List.mem_cons, List.not_mem_nil, or_false] at h
  case application =>
    rcases h with rfl | rfl | rfl
    · exact ⟨"elements", rfl⟩
    · exact ⟨"apps", rfl⟩
    · exact ⟨"operations", rfl⟩
  case environment | element =>
    rcases h with rfl | rfl
    · exact ⟨"elements", rfl⟩
    · exact ⟨"operations", rfl⟩

/-- A key lies in the directories of two only if one of them is in the other. -/
theorem comparable {x y : Named} {path path' q : List String} (hpath : path ∈ x.paths)
    (hpath' : path' ∈ y.paths) (h : path <+: q) (h' : path' <+: q) :
    x.names <+: y.names ∨ y.names <+: x.names := by
  obtain ⟨root, rfl⟩ := names_of_mem_paths hpath
  obtain ⟨root', rfl⟩ := names_of_mem_paths hpath'
  rcases List.prefix_or_prefix_of_prefix h h' with hpre | hpre
  · exact Or.inl (List.cons_prefix_cons.mp (List.cons_prefix_cons.mp hpre).2).2
  · exact Or.inr (List.cons_prefix_cons.mp (List.cons_prefix_cons.mp hpre).2).2

theorem keyPath_directories {x : Named} (hx : x.Valid) :
    x.directories.map KV.keyPath = x.paths := by
  have hroots : Plain "cassem" ∧ Plain "elements" ∧ Plain "operations" ∧ Plain "apps" := by decide
  obtain ⟨hcassem, helements, hoperations, happs⟩ := hroots
  have hpath : ∀ {key : String} {segs : List String}, key = "/".intercalate segs → segs ≠ [] →
      (∀ s ∈ segs, Plain s) → KV.keyPath key = segs := by
    intro key segs hkey hne hplain
    rw [hkey, KV.keyPath_eq_split]
    exact KV.split_plain hne hplain
  cases x with
  | application appId =>
    have happ := KV.plain_of_isIdentifier hx
    have hdir : KV.keyPath (Adm.Retention.GenAppElementKey appId) = ["cassem", "elements", appId] :=
      hpath (appElementKey_split _) (List.cons_ne_nil _ _) (by simp [*])
    have hkey : KV.keyPath (GenAppKey appId) = ["cassem", "apps", appId] :=
      hpath (appKey_split _) (List.cons_ne_nil _ _) (by simp [*])
    have hops : KV.keyPath (GenAppOperationKey appId) = ["cassem", "operations", appId] :=
      hpath (appOperationKey_split _) (List.cons_ne_nil _ _) (by simp [*])
    simp only [directories, paths, List.map_cons, List.map_nil, hdir, hkey, hops]
  | environment app env =>
    have happ := KV.plain_of_isIdentifier hx.1
    have henv := KV.plain_of_isIdentifier hx.2
    have hdir : KV.keyPath (Adm.Retention.GenAppElementEnvKey app env) =
        ["cassem", "elements", app, env] :=
      hpath (envElementKey_split _ _) (List.cons_ne_nil _ _) (by simp [*])
    have hops : KV.keyPath (GenAppEnvOperationKey app env) = ["cassem", "operations", app, env] :=
      hpath (envOperationKey_split _ _) (List.cons_ne_nil _ _) (by simp [*])
    simp only [directories, paths, List.map_cons, List.map_nil, hdir, hops]
  | element n =>
    have happ := KV.plain_of_isIdentifier hx.app
    have henv := KV.plain_of_isIdentifier hx.env
    have hkey := KV.plain_of_isIdentifier hx.key
    have hdir : KV.keyPath n.elementKey = ["cassem", "elements", n.app, n.env, n.key] :=
      hpath (elementKey_split _) (List.cons_ne_nil _ _) (by simp [*])
    have hops : KV.keyPath (GenElementOperationKeyPrefix n.app n.env n.key) =
        ["cassem", "operations", n.app, n.env, n.key] :=
      hpath (elementOperationKey_split _) (List.cons_ne_nil _ _) (by simp [*])
    simp only [directories, paths, List.map_cons, List.map_nil, hdir, hops]

end Named

namespace StorageKey

/-- The names of what a key belongs to. -/
def owner : StorageKey → Option (List String)
  | .metadata app env key | .version app env key _ | .operation app env key _ =>
      some [app, env, key]
  | .application app => some [app]
  | .environment app env => some [app, env]
  | .reversed _ _ _ | .reversedInstance _ _ _ _ => none

/-- The key is one of the app, the environment or the element, or of something in it. -/
def BelongsTo (k : StorageKey) (x : Named) : Prop := ∃ names ∈ k.owner, x.names <+: names

instance (k : StorageKey) (x : Named) : Decidable (k.BelongsTo x) :=
  inferInstanceAs (Decidable (∃ names ∈ k.owner, x.names <+: names))

/-- A key lies in the directories of what it belongs to, and of nothing else. -/
theorem belongsTo_iff (k : StorageKey) (x : Named) :
    k.BelongsTo x ↔ ∃ path ∈ x.paths, path <+: k.segments := by
  unfold BelongsTo
  cases x <;> cases k <;>
    simp [owner, segments, Named.names, Named.paths, List.cons_prefix_cons]

end StorageKey

/-! ## What a deletion leaves -/

/-- What lies at one of the paths or below it is gone, and all else is as before. -/
def Cleared (paths : List (List String)) (store store' : Store) : Prop :=
  ∀ q, store'.look q = if ∃ path ∈ paths, path <+: q then none else store.look q

section Cleared

variable {store store' store'' : Store} {paths paths' : List (List String)}

theorem Cleared.trans (h : Cleared paths store store') (h' : Cleared paths' store' store'') :
    Cleared (paths ++ paths') store store'' := by
  intro q
  rw [h' q, h q]
  by_cases hq : ∃ path ∈ paths', path <+: q
  · obtain ⟨path, hpath, hpre⟩ := hq
    rw [if_pos ⟨path, hpath, hpre⟩, if_pos ⟨path, List.mem_append_right _ hpath, hpre⟩]
  · rw [if_neg hq]
    refine if_congr ?_ rfl rfl
    constructor
    · rintro ⟨path, hpath, hpre⟩
      exact ⟨path, List.mem_append_left _ hpath, hpre⟩
    · rintro ⟨path, hpath, hpre⟩
      rcases List.mem_append.mp hpath with hpath | hpath
      · exact ⟨path, hpath, hpre⟩
      · exact absurd ⟨path, hpath, hpre⟩ hq

theorem cleared_unsetKV {key : String} {front : List String} {leaf : String}
    (hkey : key = "/".intercalate (front ++ [leaf])) (hfront : front ≠ [])
    (hplain : ∀ s ∈ front ++ [leaf], Plain s) {isDir : Bool}
    (h : (KV.UnsetKV store key isDir).2 = none) :
    Cleared [front ++ [leaf]] store (KV.UnsetKV store key isDir).1 := by
  subst hkey
  intro q
  rw [KV.UnsetKV_ok hfront hplain h]
  simp

theorem cleared_deleteOperationPrefix {key : String} {front : List String} {leaf : String}
    (hkey : key = "/".intercalate (front ++ [leaf])) (hfront : front ≠ [])
    (hplain : ∀ s ∈ front ++ [leaf], Plain s) (h : (deleteOperationPrefix store key).2 = none) :
    Cleared [front ++ [leaf]] store (deleteOperationPrefix store key).1 := by
  unfold deleteOperationPrefix at h ⊢
  cases hunset : KV.UnsetKV store key true with
  | mk store' err =>
    rw [hunset] at h
    cases err with
    | some err => cases h
    | none =>
      have hcleared := cleared_unsetKV hkey hfront hplain (congrArg Prod.snd hunset)
      rwa [hunset] at hcleared

/-- Both steps have succeeded. -/
theorem cleared_whenDone {r : Store × Option GoError} {next : Store → Store × Option GoError}
    {path : List String} (hr : r.2 = none → Cleared [path] store r.1)
    (hnext : ∀ store, (next store).2 = none → Cleared paths' store (next store).1)
    (h : (whenDone r next).2 = none) : Cleared (path :: paths') store (whenDone r next).1 := by
  obtain ⟨store', err⟩ := r
  cases err with
  | some err => cases h
  | none => exact (hr rfl).trans (hnext store' h)

end Cleared

theorem ne_nil_of_root {root : String} {segs : List String} : "cassem" :: root :: segs ≠ [] :=
  List.cons_ne_nil _ _

theorem plain_roots :
    Plain "cassem" ∧ Plain "elements" ∧ Plain "operations" ∧ Plain "apps" := by decide

theorem cleared_DeleteApp {appId : String} (hid : Adm.isIdentifier appId = true) {store : Store}
    (h : (DeleteApp store appId).2 = none) :
    Cleared (Named.application appId).paths store (DeleteApp store appId).1 := by
  obtain ⟨hcassem, helements, hoperations, happs⟩ := plain_roots
  have happ := KV.plain_of_isIdentifier hid
  unfold DeleteApp at h ⊢
  rw [appElementKey_split, appKey_split, appOperationKey_split] at h ⊢
  refine cleared_whenDone (fun h => ?_) (fun store h => ?_) h
  · exact cleared_unsetKV rfl ne_nil_of_root (by simp [*]) h
  · refine cleared_whenDone (fun h => ?_) (fun store h => ?_) h
    · exact cleared_unsetKV rfl ne_nil_of_root (by simp [*]) h
    · exact cleared_deleteOperationPrefix rfl ne_nil_of_root (by simp [*]) h

theorem cleared_DeleteEnvironment {app env : String} (hidApp : Adm.isIdentifier app = true)
    (hidEnv : Adm.isIdentifier env = true) {store : Store}
    (h : (DeleteEnvironment store app env).2 = none) :
    Cleared (Named.environment app env).paths store (DeleteEnvironment store app env).1 := by
  obtain ⟨hcassem, helements, hoperations, happs⟩ := plain_roots
  have happ := KV.plain_of_isIdentifier hidApp
  have henv := KV.plain_of_isIdentifier hidEnv
  unfold DeleteEnvironment at h ⊢
  rw [envElementKey_split, envOperationKey_split] at h ⊢
  refine cleared_whenDone (fun h => ?_) (fun store h => ?_) h
  · exact cleared_unsetKV rfl ne_nil_of_root (by simp [*]) h
  · exact cleared_deleteOperationPrefix rfl ne_nil_of_root (by simp [*]) h

theorem cleared_DeleteElement {n : ElementName} (hn : n.Valid) {store : Store}
    (h : (DeleteElement store n).2 = none) :
    Cleared (Named.element n).paths store (DeleteElement store n).1 := by
  obtain ⟨hcassem, helements, hoperations, happs⟩ := plain_roots
  have happ := KV.plain_of_isIdentifier hn.app
  have henv := KV.plain_of_isIdentifier hn.env
  have hkey := KV.plain_of_isIdentifier hn.key
  unfold DeleteElement at h ⊢
  rw [elementKey_split, elementOperationKey_split] at h ⊢
  refine cleared_whenDone (fun h => ?_) (fun store h => ?_) h
  · exact cleared_unsetKV rfl ne_nil_of_root (by simp [*]) h
  · exact cleared_deleteOperationPrefix rfl ne_nil_of_root (by simp [*]) h

theorem cleared_delete {x : Named} (hx : x.Valid) {store : Store}
    (h : (x.delete store).2 = none) : Cleared x.paths store (x.delete store).1 := by
  cases x with
  | application appId => exact cleared_DeleteApp hx h
  | environment app env => exact cleared_DeleteEnvironment hx.1 hx.2 h
  | element n => exact cleared_DeleteElement hx h

/-- Nothing is left in the directories of what is deleted, whether a key was written by a builder
or not. All other keys are as before: among them those of any other app, environment or element,
unless one of the two is in the other. -/
theorem delete_exact {x : Named} (hx : x.Valid) {store : Store} (h : (x.delete store).2 = none) :
    (∀ dir ∈ x.directories, ∀ key, KV.keyPath dir <+: KV.keyPath key →
      (x.delete store).1.look (KV.keyPath key) = none) ∧
    (∀ key, (∀ dir ∈ x.directories, ¬ KV.keyPath dir <+: KV.keyPath key) →
      (x.delete store).1.look (KV.keyPath key) = store.look (KV.keyPath key)) ∧
    (∀ y : Named, y.Valid → ¬ x.names <+: y.names → ¬ y.names <+: x.names →
      ∀ dir ∈ y.directories, ∀ key, KV.keyPath dir <+: KV.keyPath key →
        (x.delete store).1.look (KV.keyPath key) = store.look (KV.keyPath key)) ∧
    ∀ k : StorageKey, k.Valid → ∃ key, k.gen = .ok key ∧
      (x.delete store).1.look (KV.keyPath key) =
        if k.BelongsTo x then none else store.look (KV.keyPath key) := by
  have hcleared := cleared_delete hx h
  have hpaths := Named.keyPath_directories hx
  refine ⟨fun dir hdir key hbelow => ?_, fun key hout => ?_,
    fun y hy hxy hyx dir hdir key hbelow => ?_, fun k hk => ?_⟩
  · have hmem : KV.keyPath dir ∈ x.paths := hpaths ▸ List.mem_map_of_mem hdir
    rw [hcleared, if_pos ⟨_, hmem, hbelow⟩]
  · rw [hcleared, if_neg]
    intro hin
    obtain ⟨path, hpath, hbelow⟩ := hin
    rw [← hpaths] at hpath
    obtain ⟨dir, hdir, rfl⟩ := List.mem_map.mp hpath
    exact hout dir hdir hbelow
  · rw [hcleared, if_neg]
    intro hin
    obtain ⟨path, hpath, hpre⟩ := hin
    have hmem : KV.keyPath dir ∈ y.paths :=
      Named.keyPath_directories hy ▸ List.mem_map_of_mem hdir
    rcases Named.comparable hpath hmem hpre hbelow with hin | hin
    · exact hxy hin
    · exact hyx hin
  · obtain ⟨key, hgen, hsplit⟩ := StorageKey.gen_spec hk
    refine ⟨key, hgen, ?_⟩
    rw [hcleared, KV.keyPath_eq_split, hsplit]
    exact if_congr (StorageKey.belongsTo_iff k x).symm rfl rfl

/-- Two apps, the name of one of which begins with that of the other. -/
def shops : Store :=
  ["cassem/apps/shop", "cassem/apps/shop2", "cassem/elements/shop/dev/theme/metadata",
    "cassem/elements/shop2/dev/theme/metadata", "cassem/operations/shop/dev/theme/operations/1",
    "cassem/operations/shop2/dev/theme/operations/1"].foldl
    (fun store key => (KV.SetKV (fun _ => "") 0 store
      ⟨key, false, 0, [1], false, KV.int32_zero⟩).1) Tree.empty

theorem delete_exact_shops :
    (∀ dir ∈ (Named.application "shop").directories, ∀ key, KV.keyPath dir <+: KV.keyPath key →
      ((Named.application "shop").delete shops).1.look (KV.keyPath key) = none) ∧
    (∀ key, (∀ dir ∈ (Named.application "shop").directories,
        ¬ KV.keyPath dir <+: KV.keyPath key) →
      ((Named.application "shop").delete shops).1.look (KV.keyPath key) =
        shops.look (KV.keyPath key)) ∧
    (∀ y : Named, y.Valid → ¬ (Named.application "shop").names <+: y.names →
      ¬ y.names <+: (Named.application "shop").names →
      ∀ dir ∈ y.directories, ∀ key, KV.keyPath dir <+: KV.keyPath key →
        ((Named.application "shop").delete shops).1.look (KV.keyPath key) =
          shops.look (KV.keyPath key)) ∧
    ∀ k : StorageKey, k.Valid → ∃ key, k.gen = .ok key ∧
      ((Named.application "shop").delete shops).1.look (KV.keyPath key) =
        if k.BelongsTo (Named.application "shop") then none else shops.look (KV.keyPath key) :=
  delete_exact (show (Named.application "shop").Valid by unfold Named.Valid; decide)
    (Option.isNone_iff_eq_none.mp (by decide +kernel))

end Cassem.Coord
