import Cassem.Agent.Dispatch
import Cassem.Lib.Fold

/-!
# What the pool of instances lists

The pool finds the instances of a key in `watchingSet`, and what to remove of an instance in its
node. The node keeps the keys of the registration that made it, and the three parts of a key are
joined by a character that they may contain.
-/

namespace Cassem.Agent

open Lib

/-! ## The joined key -/

/-- An app, an environment and a key. -/
abbrev Triple := String × String × String

def Triple.join (t : Triple) : String := genWatchingKey t.1 t.2.1 t.2.2

/-- No part contains the character that joins them. -/
structure Triple.Dashless (t : Triple) : Prop where
  app : '-' ∉ t.1.toList
  env : '-' ∉ t.2.1.toList
  key : '-' ∉ t.2.2.toList

theorem join_toList (t : Triple) :
    t.join.toList = t.1.toList ++ '-' :: (t.2.1.toList ++ '-' :: t.2.2.toList) := by
  unfold Triple.join genWatchingKey
  simp [String.toList_append]

theorem join_eq_iff {t t' : Triple} : t.join = t'.join ↔
    t.1.toList ++ '-' :: (t.2.1.toList ++ '-' :: t.2.2.toList) =
      t'.1.toList ++ '-' :: (t'.2.1.toList ++ '-' :: t'.2.2.toList) := by
  rw [← join_toList, ← join_toList]
  exact ⟨fun h => congrArg _ h, fun h => String.toList_injective h⟩

/-- A key without other dashes is the key of one triple. -/
theorem join_inj {t t' : Triple} (ht : t.Dashless) (h : t.join = t'.join) : t = t' := by
  have hlist := join_eq_iff.mp h
  have hcount := congrArg (List.count '-') hlist
  simp only [List.count_append, List.count_cons_self, List.count_eq_zero.mpr ht.app,
    List.count_eq_zero.mpr ht.env, List.count_eq_zero.mpr ht.key] at hcount
  have happ : '-' ∉ t'.1.toList := List.count_eq_zero.mp (by omega)
  have henv : '-' ∉ t'.2.1.toList := List.count_eq_zero.mp (by omega)
  obtain ⟨h1, hrest⟩ := Concept.cons_inj_of_notMem ht.app happ hlist
  obtain ⟨h2, h3⟩ := Concept.cons_inj_of_notMem ht.env henv hrest
  exact Prod.ext (String.toList_injective h1)
    (Prod.ext (String.toList_injective h2) (String.toList_injective h3))

/-- A dash in a part can be taken for the one between two others. -/
theorem exists_collision {t : Triple} (ht : ¬ t.Dashless) :
    ∃ t' : Triple, t'.join = t.join ∧ ¬ t'.Dashless ∧ ¬ (t'.1 = t.1 ∧ t'.2.1 = t.2.1) := by
  obtain ⟨app, env, key⟩ := t
  by_cases happ : '-' ∈ app.toList
  · obtain ⟨left, right, hsplit⟩ := List.append_of_mem happ
    refine ⟨(String.ofList left, String.ofList (right ++ '-' :: env.toList), key), ?_, ?_, ?_⟩
    · rw [join_eq_iff]
      simp [hsplit]
    · exact fun h => h.env (by simp)
    · rintro ⟨hsame, -⟩
      have hleft := congrArg String.toList hsame
      simp [hsplit] at hleft
  · by_cases henv : '-' ∈ env.toList
    · obtain ⟨left, right, hsplit⟩ := List.append_of_mem henv
      refine ⟨(String.ofList (app.toList ++ '-' :: left), String.ofList right, key), ?_, ?_, ?_⟩
      · rw [join_eq_iff]
        simp [hsplit]
      · exact fun h => h.app (by simp)
      · rintro ⟨hsame, -⟩
        have hlength := congrArg String.length hsame
        simp at hlength
    · have hkey : '-' ∈ key.toList := by
        by_contra hkey
        exact ht ⟨happ, henv, hkey⟩
      obtain ⟨left, right, hsplit⟩ := List.append_of_mem hkey
      refine ⟨(app, String.ofList (env.toList ++ '-' :: left), String.ofList right), ?_, ?_, ?_⟩
      · rw [join_eq_iff]
        simp [hsplit]
      · exact fun h => h.env (by simp)
      · rintro ⟨-, hsame⟩
        have hlength := congrArg String.length hsame
        simp at hlength

/-! ## The reverse index -/

namespace InstancePool

variable {p : InstancePool} {insId i : String} {keys : List String} {ch : Nat} {key : String}

theorem register_instances (p : InstancePool) (insId : String) (keys : List String) (ch : Nat)
    (other : String) : (p.register insId keys ch).1.instances other =
      if other = insId then some ((p.instances insId).getD ⟨ch, keys⟩) else p.instances other :=
  Function.update_apply ..

theorem unregister_instances (p : InstancePool) (insId other : String) :
    (p.unregister insId).1.instances other =
      if other = insId then none else p.instances other := by
  unfold unregister
  split
  · next hnone =>
    split
    · next hother => rw [hother, hnone]
    · rfl
  · exact Function.update_apply ..

/-- What a registration leaves under a key. -/
theorem register_watchingSet : (p.register insId keys ch).1.watchingSet key =
    if key ∈ keys then Fold.addNew (p.watchingSet key) insId else p.watchingSet key := by
  unfold register
  dsimp only
  generalize p.watchingSet = watchingSet
  induction keys generalizing watchingSet with
  | nil => rfl
  | cons first keys ih =>
    rw [List.foldl_cons, ih]
    by_cases hkey : key = first
    · subst hkey
      rw [Function.update_self, if_pos List.mem_cons_self]
      show (if key ∈ keys then Fold.addNew (Fold.addNew _ insId) insId else _) = _
      rw [Fold.addNew_addNew]
      exact ite_self _
    · rw [Function.update_of_ne hkey]
      simp [hkey]

theorem mem_register : i ∈ (p.register insId keys ch).1.watchingSet key ↔
    i ∈ p.watchingSet key ∨ i = insId ∧ key ∈ keys := by
  rw [register_watchingSet]
  split
  · next hkey => rw [Fold.mem_addNew, and_iff_left hkey]
  · next hkey => exact (or_iff_left fun h => hkey h.2).symm

theorem nodup_register (h : (p.watchingSet key).Nodup) :
    ((p.register insId keys ch).1.watchingSet key).Nodup := by
  rw [register_watchingSet]
  split
  · exact Fold.nodup_addNew h insId
  · exact h

/-- What a removal leaves under a key. -/
theorem unregister_watchingSet {node : InstanceNode} (hnode : p.instances insId = some node) :
    (p.unregister insId).1.watchingSet key =
      if key ∈ node.watchingSetKeys then (p.watchingSet key).filter (· ≠ insId)
      else p.watchingSet key := by
  unfold unregister
  rw [hnode]
  dsimp only
  generalize p.watchingSet = watchingSet
  induction node.watchingSetKeys generalizing watchingSet with
  | nil => rfl
  | cons first keys ih =>
    rw [List.foldl_cons, ih]
    by_cases hkey : key = first
    · subst hkey
      rw [Function.update_self, if_pos List.mem_cons_self, List.filter_filter]
      simp
    · rw [Function.update_of_ne hkey]
      simp [hkey]

end InstancePool

/-! ## Runs -/

/-- The pool and, for each registered instance, what it has registered since its last
`Unregister`. -/
structure Registry where
  pool : InstancePool := {}
  made : Nat := 0
  live : String → Option (List Triple) := fun _ => none

namespace Registry

inductive Step where
  | Register (insId app env : String) (watchingKeys : List String)
  | Unregister (insId : String)
  deriving DecidableEq, Repr

def step (s : Registry) : Step → Option Registry
  | .Register insId app env watchingKeys =>
      some {
        pool := (s.pool.register insId (watchingKeys.map (genWatchingKey app env)) s.made).1
        made := s.made + 1
        live := Function.update s.live insId
          (some ((s.live insId).getD [] ++ watchingKeys.map fun key => (app, env, key))) }
  | .Unregister insId =>
      some { s with
        pool := (s.pool.unregister insId).1
        live := Function.update s.live insId none }

/-- The instance is registered, and has registered the triple since its last `Unregister`. -/
def Watches (s : Registry) (insId : String) (t : Triple) : Prop :=
  ∃ ts, s.live insId = some ts ∧ t ∈ ts

/-- The pool lists the watching instances of every triple, each once. -/
def Exact (s : Registry) : Prop :=
  ∀ app env key, (s.pool.ListWatchingInstances app env key).Nodup ∧
    ∀ insId, insId ∈ s.pool.ListWatchingInstances app env key ↔ s.Watches insId (app, env, key)

/-- What is registered has no dashes in it; and an instance that is removed has registered nothing
that the registration that made its node had not. -/
def Tidy (s : Registry) (l : Step) (_ : Registry) : Prop :=
  match l with
  | .Register _ app env watchingKeys => ∀ key ∈ watchingKeys, Triple.Dashless (app, env, key)
  | .Unregister insId =>
      ∀ node, s.pool.instances insId = some node →
        ∀ t, s.Watches insId t → t.join ∈ node.watchingSetKeys

/-- While the pool is exact: the instances with a node are the live ones, no key lists an instance
twice, and no dash was registered. -/
structure Kept (s : Registry) : Prop where
  node : ∀ insId, (s.pool.instances insId).isSome = (s.live insId).isSome
  nodup : ∀ key, (s.pool.watchingSet key).Nodup
  dashless : ∀ insId t, s.Watches insId t → t.Dashless

variable {s s' : Registry} {insId app env : String} {watchingKeys : List String}

theorem watches_update {ts : Option (List Triple)} {pool : InstancePool} {made : Nat} {i : String}
    {t : Triple} : Watches ⟨pool, made, Function.update s.live insId ts⟩ i t ↔
      if i = insId then ∃ l, ts = some l ∧ t ∈ l else s.Watches i t := by
  show (∃ l, Function.update s.live insId ts i = some l ∧ t ∈ l) ↔ _
  rw [Function.update_apply]
  split <;> exact Iff.rfl

theorem exact_iff : s.Exact ↔ ∀ t : Triple,
    (s.pool.watchingSet t.join).Nodup ∧ ∀ i, i ∈ s.pool.watchingSet t.join ↔ s.Watches i t :=
  ⟨fun h t => h t.1 t.2.1 t.2.2, fun h app env key => h (app, env, key)⟩

theorem watches_register (hs : step s (.Register insId app env watchingKeys) = some s')
    (i : String) (t : Triple) : s'.Watches i t ↔
      s.Watches i t ∨ i = insId ∧ ∃ key ∈ watchingKeys, (app, env, key) = t := by
  cases hs
  rw [watches_update]
  by_cases hi : i = insId
  · subst hi
    rw [if_pos rfl]
    unfold Watches
    cases hlive : s.live i with
    | none => simp
    | some ts => simp
  · simp [hi]

/-- A registration keeps the pool exact where it has no dashes. -/
theorem exact_register (hkept : s.Kept) (h : s.Exact)
    (hs : step s (.Register insId app env watchingKeys) = some s') :
    s'.Exact ↔ ∀ key ∈ watchingKeys, Triple.Dashless (app, env, key) := by
  have hwatches := watches_register hs
  have hlisted : ∀ i (t : Triple), i ∈ s'.pool.watchingSet t.join ↔
      i ∈ s.pool.watchingSet t.join ∨
        i = insId ∧ ∃ key ∈ watchingKeys, Triple.join (app, env, key) = t.join := by
    cases hs
    intro i t
    rw [← List.mem_map]
    exact InstancePool.mem_register
  have hnodup : ∀ key, (s'.pool.watchingSet key).Nodup := by
    cases hs
    exact fun key => InstancePool.nodup_register (hkept.nodup key)
  have hmem := fun t => (exact_iff.mp h t).2
  constructor
  · intro h' key hkey
    by_contra hdash
    -- another triple with the same key is listed, too
    obtain ⟨t, hjoin, htdash, hother⟩ := exists_collision hdash
    have hlist := (hlisted insId t).mpr (.inr ⟨rfl, key, hkey, hjoin.symm⟩)
    rw [(exact_iff.mp h' t).2, hwatches] at hlist
    rcases hlist with hwatched | ⟨-, key', -, heq⟩
    · exact htdash (hkept.dashless insId t hwatched)
    · exact hother (heq ▸ ⟨rfl, rfl⟩)
  · intro hdashless
    refine exact_iff.mpr fun t => ⟨hnodup t.join, fun i => ?_⟩
    rw [hlisted, hwatches, hmem t i]
    refine or_congr_right (and_congr_right fun _ => exists_congr fun key => ?_)
    exact and_congr_right fun hkey => ⟨join_inj (hdashless key hkey), fun heq => heq ▸ rfl⟩

/-- A removal keeps the pool exact where the node has the keys of all that was registered. -/
theorem exact_unregister (hkept : s.Kept) (h : s.Exact)
    (hs : step s (.Unregister insId) = some s') :
    s'.Exact ↔ ∀ node, s.pool.instances insId = some node →
      ∀ t, s.Watches insId t → t.join ∈ node.watchingSetKeys := by
  have hmem := fun t => (exact_iff.mp h t).2
  have hwatches : ∀ i t, s'.Watches i t ↔ i ≠ insId ∧ s.Watches i t := by
    cases hs
    intro i t
    rw [watches_update]
    by_cases hi : i = insId
    · simp [hi]
    · simp [hi]
  cases hnode : s.pool.instances insId with
  | none =>
    have hlive : s.live insId = none := by
      have hsome := hkept.node insId
      rw [hnode] at hsome
      exact Option.isNone_iff_eq_none.mp (Option.isSome_eq_false_iff.mp hsome.symm)
    have hpool : s'.pool = s.pool := by
      cases hs
      show (s.pool.unregister insId).1 = s.pool
      unfold InstancePool.unregister
      rw [hnode]
    refine iff_of_true (exact_iff.mpr fun t => ?_) fun node hsome => by cases hsome
    rw [hpool]
    refine ⟨hkept.nodup t.join, fun i => ?_⟩
    rw [hmem, hwatches]
    refine (and_iff_right_of_imp ?_).symm
    rintro ⟨ts, hts, -⟩ rfl
    cases hlive.symm.trans hts
  | some node =>
    have hlist : ∀ key, s'.pool.watchingSet key = if key ∈ node.watchingSetKeys then
        (s.pool.watchingSet key).filter (· ≠ insId) else s.pool.watchingSet key := by
      cases hs
      exact fun key => InstancePool.unregister_watchingSet hnode
    have hone : ∀ t : Triple, ((s'.pool.watchingSet t.join).Nodup ∧
        ∀ i, i ∈ s'.pool.watchingSet t.join ↔ s'.Watches i t) ↔
          (s.Watches insId t → t.join ∈ node.watchingSetKeys) := by
      intro t
      rw [hlist]
      by_cases hkey : t.join ∈ node.watchingSetKeys
      · rw [if_pos hkey]
        refine iff_of_true ⟨(hkept.nodup t.join).filter _, fun i => ?_⟩ fun _ => hkey
        rw [List.mem_filter, decide_eq_true_eq, hmem, hwatches, and_comm]
      · rw [if_neg hkey]
        constructor
        · intro hexact hwatched
          have hstale := (hexact.2 insId).mp ((hmem t insId).mpr hwatched)
          exact absurd rfl ((hwatches insId t).mp hstale).1
        · intro hnone
          refine ⟨hkept.nodup t.join, fun i => ?_⟩
          rw [hmem, hwatches]
          refine (and_iff_right_of_imp ?_).symm
          rintro hwatched rfl
          exact hkey (hnone hwatched)
    rw [exact_iff]
    refine (forall_congr' hone).trans ⟨?_, ?_⟩
    · intro hall node' hsome
      cases hsome
      exact hall
    · exact fun hall => hall node rfl

theorem kept_register (hkept : s.Kept)
    (hs : step s (.Register insId app env watchingKeys) = some s')
    (hdashless : ∀ key ∈ watchingKeys, Triple.Dashless (app, env, key)) : s'.Kept := by
  have hwatches := watches_register hs
  cases hs
  refine ⟨fun i => ?_, fun key => InstancePool.nodup_register (hkept.nodup key), fun i t hwatched => ?_⟩
  · show ((s.pool.register insId _ s.made).1.instances i).isSome =
      (Function.update s.live insId (some _) i).isSome
    rw [InstancePool.register_instances, Function.update_apply]
    split
    · rfl
    · exact hkept.node i
  · rcases (hwatches i t).mp hwatched with hwatched | ⟨-, key, hkey, rfl⟩
    · exact hkept.dashless i t hwatched
    · exact hdashless key hkey

theorem kept_unregister (hkept : s.Kept) (hs : step s (.Unregister insId) = some s') : s'.Kept := by
  cases hs
  refine ⟨fun i => ?_, fun key => ?_, fun i t hwatched => ?_⟩
  · show ((s.pool.unregister insId).1.instances i).isSome = (Function.update s.live insId none i).isSome
    rw [InstancePool.unregister_instances, Function.update_apply]
    split
    · rfl
    · exact hkept.node i
  · show ((s.pool.unregister insId).1.watchingSet key).Nodup
    cases hnode : s.pool.instances insId with
    | none =>
      unfold InstancePool.unregister
      rw [hnode]
      exact hkept.nodup key
    | some node =>
      rw [InstancePool.unregister_watchingSet hnode]
      split
      · exact (hkept.nodup key).filter _
      · exact hkept.nodup key
  · rw [watches_update] at hwatched
    split at hwatched
    · obtain ⟨l, hnone, -⟩ := hwatched
      cases hnone
    · exact hkept.dashless i t hwatched

/-- One step on an exact pool. -/
theorem exact_step {l : Step} (hkept : s.Kept) (h : s.Exact) (hs : step s l = some s') :
    s'.Exact ↔ s.Tidy l s' := by
  cases l with
  | Register insId app env watchingKeys => exact exact_register hkept h hs
  | Unregister insId => exact exact_unregister hkept h hs

theorem kept_step {l : Step} (hkept : s.Kept) (h : s.Exact) (hs : step s l = some s')
    (h' : s'.Exact) : s'.Kept := by
  cases l with
  | Register insId app env watchingKeys =>
    exact kept_register hkept hs ((exact_register hkept h hs).mp h')
  | Unregister insId => exact kept_unregister hkept hs

/-- The pool lists exactly the watching instances in every state of a run exactly when every step
of it is tidy. -/
theorem listed_iff (ls : List Step) : Transition.EachState step Exact {} ls ↔
    Transition.EachStep step Tidy {} ls := by
  have hempty : ∀ insId t, ¬ Watches {} insId t := by
    rintro insId t ⟨ts, hts, -⟩
    cases hts
  refine Transition.eachState_iff_eachStep_within Kept
    (fun s l s' hkept h hs h' => kept_step hkept h hs h')
    (fun s l s' hkept h hs => exact_step hkept h hs) ?_ ?_ ls
  · exact ⟨fun _ => rfl, fun _ => List.nodup_nil, fun insId t h => absurd h (hempty insId t)⟩
  · refine exact_iff.mpr fun t => ⟨List.nodup_nil, fun i => ?_⟩
    exact iff_of_false List.not_mem_nil (hempty i t)

/-! ## An instance that stays after its removal -/

/-- Two registrations of one instance, as a stream with two watchings makes them, and its
removal. -/
def twoApps : List Step :=
  [.Register "cli-1@10.0.0.1" "shop" "prod" ["db"], .Register "cli-1@10.0.0.1" "pay" "prod" ["db"],
    .Unregister "cli-1@10.0.0.1"]

/-- The removal leaves the instance under the key of the second; and a dash makes the key of one
app that of another. -/
theorem removed_listed :
    (Transition.run step {} twoApps).map (fun s => s.pool.ListWatchingInstances "pay" "prod" "db") =
      some ["cli-1@10.0.0.1"] ∧
    (Transition.run step {} [.Register "cli-1@10.0.0.1" "shop-eu" "prod" ["db"]]).map
      (fun s => s.pool.ListWatchingInstances "shop" "eu-prod" "db") = some ["cli-1@10.0.0.1"] ∧
    ¬ ∀ ls, Transition.EachState step Exact {} ls := by
  have hstale : (Transition.run step {} twoApps).map
      (fun s => (s.pool.ListWatchingInstances "pay" "prod" "db", (s.live "cli-1@10.0.0.1").isSome)) =
        some (["cli-1@10.0.0.1"], false) := by
    decide +kernel
  refine ⟨by decide +kernel, by decide +kernel, fun h => ?_⟩
  obtain ⟨s, hs, heq⟩ := Option.map_eq_some_iff.mp hstale
  have hlisted := (Prod.mk.inj heq).1
  have hlive := (Prod.mk.inj heq).2
  have hexact := ((h twoApps).of_run hs "pay" "prod" "db").2 "cli-1@10.0.0.1"
  rw [hlisted] at hexact
  obtain ⟨ts, hts, -⟩ := hexact.mp List.mem_cons_self
  rw [hts] at hlive
  cases hlive

end Registry

end Cassem.Agent
