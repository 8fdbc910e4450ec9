import Mathlib.Data.List.Sort
import Cassem.Agent.PoolIndex
import Cassem.Lib.Interleave

/-!
# What an agent is sent, and whom it is for

Elements that are enqueued for an agent are delivered in batches. A batch is grouped by the
instances that its elements are for, joined into one text, and each group is a request of its
own. The agent hands the elements of a request to the instances that watch their keys.
-/

namespace Cassem.Adm

open Lib Lib.Interleave Cassem.Concept Cassem.Agent

/-! ## Batches and requests -/

/-- An element, with its place among those that were enqueued. -/
structure Posted where
  seq : Nat
  elem : Element
  deriving DecidableEq

structure AgentDispatchItem where
  elem : Posted
  instanceIds : List String
  deriving DecidableEq

structure DispatchReq where
  Elems : List Posted
  InstanceIds : List String
  deriving DecidableEq

def normalizeInstanceIds (instanceIds : List String) : String :=
  if instanceIds = [] then "" else ",".intercalate (instanceIds.insertionSort (· ≤ ·))

/-- The loop of `delivery` over a batch. -/
def groupItem (grouped : List (String × DispatchReq)) (item : AgentDispatchItem) :
    List (String × DispatchReq) :=
  let key := normalizeInstanceIds item.instanceIds
  if key ∈ grouped.map (·.1) then
    grouped.map fun g =>
      if g.1 = key then (g.1, { g.2 with Elems := g.2.Elems ++ [item.elem] }) else g
  else grouped ++ [(key, ⟨[item.elem], item.instanceIds⟩)]

def grouped (batch : List AgentDispatchItem) : List (String × DispatchReq) :=
  batch.foldl groupItem []

def AgentDispatchItem.key (item : AgentDispatchItem) : String :=
  normalizeInstanceIds item.instanceIds

/-- The keys of a batch, in the order in which they first occur. -/
def keysOf (batch : List AgentDispatchItem) : List String :=
  (batch.map (·.key)).foldl Fold.addNew []

/-- The instances of a group are those of its first element. -/
def targetsOf (batch : List AgentDispatchItem) (key : String) : List String :=
  ((batch.find? (·.key = key)).map (·.instanceIds)).getD []

def groupOf (batch : List AgentDispatchItem) (key : String) : DispatchReq :=
  ⟨(batch.filter (·.key = key)).map (·.elem), targetsOf batch key⟩

variable {batch : List AgentDispatchItem} {item : AgentDispatchItem} {key : String}

theorem mem_keysOf : key ∈ keysOf batch ↔ ∃ item ∈ batch, item.key = key := by
  unfold keysOf
  rw [Fold.mem_foldl_addNew, List.mem_map]
  exact or_iff_right List.not_mem_nil

theorem keysOf_append : keysOf (batch ++ [item]) = Fold.addNew (keysOf batch) item.key := by
  unfold keysOf
  rw [List.map_append, List.foldl_append]
  rfl

theorem nodup_keysOf (batch : List AgentDispatchItem) : (keysOf batch).Nodup := by
  induction batch using List.reverseRecOn with
  | nil => exact List.nodup_nil
  | append_singleton batch item ih =>
    rw [keysOf_append]
    exact Fold.nodup_addNew ih _

theorem targetsOf_append (h : key ∈ keysOf batch) :
    targetsOf (batch ++ [item]) key = targetsOf batch key := by
  obtain ⟨first, hfirst, hkey⟩ := mem_keysOf.mp h
  unfold targetsOf
  cases hfind : batch.find? (·.key = key) with
  | none => exact absurd hkey (by simpa using List.find?_eq_none.mp hfind first hfirst)
  | some found => rw [List.find?_append, hfind, Option.some_or]

/-- Each group has the elements of its key, in the order of the batch. -/
theorem grouped_eq (batch : List AgentDispatchItem) :
    grouped batch = (keysOf batch).map fun key => (key, groupOf batch key) := by
  induction batch using List.reverseRecOn with
  | nil => rfl
  | append_singleton batch item ih =>
    have hstep : grouped (batch ++ [item]) = groupItem (grouped batch) item := by
      unfold grouped
      rw [List.foldl_append]
      rfl
    have hkeys : (grouped batch).map (·.1) = keysOf batch := by
      rw [ih, List.map_map]
      exact List.map_id _
    rw [hstep, keysOf_append, groupItem]
    dsimp only
    rw [hkeys]
    change (if item.key ∈ keysOf batch then _ else _) = _
    unfold Fold.addNew
    by_cases hmem : item.key ∈ keysOf batch
    · rw [if_pos hmem, if_pos hmem, ih, List.map_map]
      refine List.map_congr_left fun key hkey => ?_
      have htargets : targetsOf (batch ++ [item]) key = targetsOf batch key := targetsOf_append hkey
      simp only [Function.comp_apply, groupOf, htargets]
      by_cases heq : key = item.key
      · subst heq
        simp [AgentDispatchItem.key, List.filter_append]
      · have hne : item.key ≠ key := Ne.symm heq
        rw [if_neg (show ¬ key = normalizeInstanceIds item.instanceIds from heq)]
        simp [List.filter_append, hne]
    · rw [if_neg hmem, if_neg hmem, ih, List.map_append]
      congr 1
      · refine List.map_congr_left fun key hkey => ?_
        have hne : item.key ≠ key := fun heq => hmem (heq ▸ hkey)
        simp [groupOf, targetsOf_append hkey, List.filter_append, hne]
      · have hnone : batch.filter (·.key = item.key) = [] := by
          refine List.filter_eq_nil_iff.mpr fun other hother => ?_
          simpa using fun heq => hmem (mem_keysOf.mpr ⟨other, hother, heq⟩)
        have hfind : batch.find? (·.key = item.key) = none := by
          refine List.find?_eq_none.mpr fun other hother => ?_
          simpa using fun heq => hmem (mem_keysOf.mpr ⟨other, hother, heq⟩)
        simp [groupOf, targetsOf, List.filter_append, List.find?_append, hnone, hfind]
        rfl

/-! ## The instances that watch -/

/-- The streams of an agent, one for each instance. -/
structure Watchers where
  reqs : List WatchReq
  nodup : (reqs.map fun req => InstanceID req.ClientId req.ClientIp).Nodup

namespace Watchers

variable {w : Watchers} {ins : String} {elem : Posted}

def ids (w : Watchers) : List String := w.reqs.map fun req => InstanceID req.ClientId req.ClientIp

/-- What the streams register, one watching after another. -/
def registrations (w : Watchers) : List (String × List String) :=
  w.reqs.flatMap fun req => req.Watching.map fun watching =>
    (InstanceID req.ClientId req.ClientIp,
      watching.WatchKeys.map (genWatchingKey watching.App watching.Env))

def poolOf (registrations : List (String × List String)) : InstancePool × Nat :=
  registrations.foldl (fun (p, made) r => ((p.register r.1 r.2 made).1, made + 1)) ({}, 0)

def pool (w : Watchers) : InstancePool := (poolOf w.registrations).1

/-- The instance has asked for the key of the element. -/
def asked (w : Watchers) (ins : String) (elem : Posted) : Bool :=
  w.reqs.any fun req => InstanceID req.ClientId req.ClientIp = ins &&
    req.allowed (metadataAppOf elem.elem) (metadataEnvOf elem.elem) (metadataKeyOf elem.elem)

def listWatching (w : Watchers) (elem : Posted) : List String :=
  w.pool.ListWatchingInstances (metadataAppOf elem.elem) (metadataEnvOf elem.elem)
    (metadataKeyOf elem.elem)

theorem poolOf_append (rs : List (String × List String)) (r : String × List String) :
    (poolOf (rs ++ [r])).1 = ((poolOf rs).1.register r.1 r.2 (poolOf rs).2).1 := by
  unfold poolOf
  rw [List.foldl_append]
  rfl

theorem poolOf_spec (rs : List (String × List String)) :
    (∀ key, ((poolOf rs).1.watchingSet key).Nodup) ∧
      (∀ key i, i ∈ (poolOf rs).1.watchingSet key ↔ ∃ r ∈ rs, r.1 = i ∧ key ∈ r.2) ∧
      ∀ r ∈ rs, (poolOf rs).1.instances r.1 ≠ none := by
  induction rs using List.reverseRecOn with
  | nil => exact ⟨fun _ => List.nodup_nil, by simp [poolOf], by simp⟩
  | append_singleton rs r ih =>
    obtain ⟨hnodup, hmem, hnode⟩ := ih
    rw [poolOf_append]
    refine ⟨fun key => InstancePool.nodup_register (hnodup key), fun key i => ?_,
      fun other hother => ?_⟩
    · rw [InstancePool.mem_register, hmem]
      simp only [List.mem_append, List.mem_singleton, or_and_right, exists_or, exists_eq_left]
      rw [eq_comm (a := i)]
    · rw [InstancePool.register_instances]
      split
      · exact Option.some_ne_none _
      · next hne =>
        rcases List.mem_append.mp hother with hother | hother
        · exact hnode other hother
        · exact absurd (congrArg Prod.fst (List.mem_singleton.mp hother)) hne

theorem nodup_listWatching (w : Watchers) (elem : Posted) : (w.listWatching elem).Nodup :=
  (poolOf_spec w.registrations).1 _

theorem mem_listWatching (h : w.asked ins elem = true) : ins ∈ w.listWatching elem := by
  obtain ⟨req, hreq, hasked⟩ := List.any_eq_true.mp h
  simp only [Bool.and_eq_true, decide_eq_true_eq] at hasked
  obtain ⟨watching, hwatching, hkey⟩ := List.any_eq_true.mp hasked.2
  simp only [Bool.and_eq_true, decide_eq_true_eq, List.contains_iff_mem] at hkey
  refine ((poolOf_spec w.registrations).2.1 _ _).mpr ⟨(InstanceID req.ClientId req.ClientIp,
    watching.WatchKeys.map (genWatchingKey watching.App watching.Env)), ?_, hasked.1, ?_⟩
  · exact List.mem_flatMap.mpr ⟨req, hreq, List.mem_map_of_mem hwatching⟩
  · rw [← hkey.1.1, ← hkey.1.2]
    exact List.mem_map_of_mem hkey.2

/-- Whoever is listed has a node. -/
theorem instances_of_listed (h : ins ∈ w.listWatching elem) : w.pool.instances ins ≠ none := by
  obtain ⟨-, hmem, hnode⟩ := poolOf_spec w.registrations
  obtain ⟨r, hr, rfl, -⟩ := (hmem _ _).mp h
  exact hnode r hr

end Watchers

end Cassem.Adm
