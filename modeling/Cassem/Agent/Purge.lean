import Cassem.Agent.LRUK
import Cassem.Lib.LRUKCapacity

/-!
# A purge of LRU-K

`Purge` takes every entry out of both lists and leaves the counts of the room in them as they were:
what was in use stays lost. With more keys than the room that is left the cache does not behave
as a new one.
-/

namespace Cassem.Agent.Linked.LRU

open Lib Lib.LRUK

variable {α β : Type} [DecidableEq α]

/-- The keys of each map come in the order in which `range` happens to give them. With the cache
come the entries that `onEvict` is called with. -/
def Purge (c : LRU α β) (keys historyKeys : List α) : List (α × β) × LRU α β :=
  let calls := keys.filterMap fun k => do
    let v ← c.cacheItems k
    let ent ← c.cache.value v
    return (k, ent.2)
  let deleted := fun (items : α → Option Nat) (keys : List α) =>
    keys.foldl (fun items k => Function.update items k none) items
  (calls, { c with
    cacheItems := deleted c.cacheItems keys
    cache := c.cache.init
    historyItems := deleted c.historyItems historyKeys
    history := c.history.init })

/-- The keys of a map, each once. -/
structure Ranges (items : α → Option Nat) (keys : List α) : Prop where
  nodup : keys.Nodup
  mem : ∀ key, key ∈ keys ↔ items key ≠ none

/-- The two return the same in every run of calls, without a nil dereference, and have the same
length after it. -/
def Alike (c c' : LRU α β) : Prop :=
  ∀ ops, ∃ outcomes d d', c.run ops = some (outcomes, d) ∧ c'.run ops = some (outcomes, d') ∧
    d.Len = d'.Len

variable {K size bound : Nat} {c : LRU α β} {r : Reference α β}

/-! ## What a purge leaves -/

theorem delete_keys {items : α → Option Nat} {keys : List α}
    (h : ∀ key, items key ≠ none → key ∈ keys) :
    keys.foldl (fun items k => Function.update items k none) items = fun _ => none := by
  induction keys generalizing items with
  | nil => exact funext fun key => by_contra fun hne => List.not_mem_nil (h key hne)
  | cons key keys ih =>
    refine ih fun key' hne => ?_
    by_cases heq : key' = key
    · exact absurd (heq ▸ Function.update_self ..) hne
    · dsimp only at hne
      rw [Function.update_of_ne heq] at hne
      exact (List.mem_cons.mp (h key' hne)).resolve_left heq

/-- `onEvict` is called once with each entry of the cache. -/
theorem Purge_calls (h : c.Indexed) {keys historyKeys : List α} (hkeys : Ranges c.cacheItems keys) :
    (c.Purge keys historyKeys).1.Perm c.cache.values := by
  have hmem : ∀ ent, ent ∈ (c.Purge keys historyKeys).1 ↔ ent ∈ c.cache.values := by
    intro ent
    refine List.mem_filterMap.trans ⟨?_, fun hent => ?_⟩
    · rintro ⟨k, -, hk⟩
      obtain ⟨v, hv, hk⟩ := Option.bind_eq_some_iff.mp hk
      obtain ⟨ent', hvalue, heq⟩ := Option.bind_eq_some_iff.mp hk
      obtain ⟨w, hw, rfl, hw'⟩ := h.cache.value hv
      cases heq
      obtain rfl : w = ent' := Option.some.inj (hw.symm.trans hvalue)
      exact hw'
    · obtain ⟨⟨item, ent⟩, hitem, rfl⟩ := List.mem_map.mp hent
      have hindex := h.cache.of_mem hitem
      refine ⟨ent.1, (hkeys.mem _).mpr (by rw [hindex]; exact Option.some_ne_none _), ?_⟩
      simp [hindex, LinkedList.value_eq_some.mpr hitem]
  have hkeysOf : (c.Purge keys historyKeys).1.Nodup := by
    refine hkeys.nodup.filterMap fun k k' ent hk hk' => ?_
    obtain ⟨v, -, hk⟩ := Option.bind_eq_some_iff.mp (Option.mem_def.mp hk)
    obtain ⟨w, -, hw⟩ := Option.bind_eq_some_iff.mp hk
    obtain ⟨v', -, hk'⟩ := Option.bind_eq_some_iff.mp (Option.mem_def.mp hk')
    obtain ⟨w', -, hw'⟩ := Option.bind_eq_some_iff.mp hk'
    exact congrArg Prod.fst ((Option.some.inj hw).trans (Option.some.inj hw').symm)
  exact (List.perm_ext_iff_of_nodup hkeysOf (List.Nodup.of_map _ h.cache.nodup_keys)).mpr hmem

/-- A purged cache is empty, with the room that was left before. -/
theorem Purge_eq {keys historyKeys : List α} (hkeys : Ranges c.cacheItems keys)
    (hhistoryKeys : Ranges c.historyItems historyKeys) :
    (c.Purge keys historyKeys).2 = { c with
      cacheItems := fun _ => none, cache := c.cache.init
      historyItems := fun _ => none, history := c.history.init } := by
  unfold Purge
  dsimp only
  rw [delete_keys fun key => (hkeys.mem key).mpr, delete_keys fun key => (hhistoryKeys.mem key).mpr]

/-- It stands as a new cache of the sizes that are the room left. -/
theorem Purge_follows (hK : c.K = K) {keys historyKeys : List α}
    (hkeys : Ranges c.cacheItems keys) (hhistoryKeys : Ranges c.historyItems historyKeys) :
    (c.Purge keys historyKeys).2.Follows K c.size c.hSize ({} : Reference α β) := by
  rw [Purge_eq hkeys hhistoryKeys]
  exact ⟨⟨.init _ _, .init _ _⟩, hK, .empty _ _, .empty _ _, rfl, rfl, fun _ => .inl rfl⟩

omit [DecidableEq α] in
theorem Follows.len (h : c.Follows K size bound r) : r.cache.keys.encard = c.Len := by
  have hlength : c.cache.values.length = c.Len := List.length_map ..
  rw [← hlength]
  exact h.contents.cache.encard_keys

omit [DecidableEq α] in
theorem Follows.empty (h : c.Follows K size bound ({} : Reference α β)) :
    c.cache.values = [] ∧ c.history.values = [] ∧ c.size = size ∧ c.hSize = bound := by
  have hcache : c.cache.values = [] :=
    List.eq_nil_iff_forall_not_mem.mpr fun v hv => by
      obtain ⟨t, ht⟩ := h.contents.cache.of_mem hv
      cases ht
  have hhistory : c.history.values = [] :=
    List.eq_nil_iff_forall_not_mem.mpr fun v hv => by
      obtain ⟨t, ht⟩ := h.contents.history.of_mem hv
      cases ht
  have hsize : c.size + c.cache.values.length = size := h.contents.size
  have hbound : c.hSize + c.history.values.length = bound := h.contents.hSize
  rw [hcache] at hsize
  rw [hhistory] at hbound
  exact ⟨hcache, hhistory, hsize, hbound⟩

/-! ## Where there is no room at all -/

/-- The put that admits a key evicts from the cache, where there is nothing. -/
theorem Put_nil (h : c.Indexed) (hsize : c.size = 0) (hcache : c.cache.values = [])
    (hEnt : HistoryEntry α β) (hmem : hEnt ∈ c.history.values) (hK : c.K ≤ hEnt.Visited + 1)
    (value : β) : c.Put hEnt.Key value = none := by
  have hnone : c.cacheItems hEnt.Key = none :=
    h.cache.eq_none_iff.mpr fun v hv => absurd hv (hcache ▸ List.not_mem_nil)
  obtain ⟨⟨item, hEnt⟩, hitem, rfl⟩ := List.mem_map.mp hmem
  have hvalue := LinkedList.value_eq_some.mpr hitem
  have hback : c.cache.back = none := by
    have helements : c.cache.elements = [] := List.map_eq_nil_iff.mp hcache
    unfold LinkedList.back
    rw [helements]
    rfl
  unfold Put
  rw [hnone, h.history.of_mem hitem]
  simp only [hvalue, Option.bind_eq_bind, Option.bind_some, if_pos hK, removeHistoryElement]
  unfold addElement
  simp [hsize, hback, removeElement]

theorem run_nil_of_size (n : Nat) (h : c.Indexed) (hsize : c.size = 0)
    (hcache : c.cache.values = []) (hEnt : HistoryEntry α β) (hhistory : c.history.values = [hEnt])
    (hlt : hEnt.Visited < c.K) (hK : c.K = hEnt.Visited + n) (value : β) :
    c.run (List.replicate n (.put hEnt.Key value)) = none := by
  induction n generalizing c hEnt with
  | zero => omega
  | succ n ih =>
    by_cases hlast : c.K ≤ hEnt.Visited + 1
    · have hput := Put_nil h hsize hcache hEnt (by rw [hhistory]; simp) hlast value
      simp [List.replicate_succ, run, step, hput]
    · have hd : c.contents.Put hEnt.Key value = some (false, none,
          { c.contents with history := [{ hEnt with Visited := hEnt.Visited + 1 }] }) := by
        unfold Agent.LRU.Put Agent.LRU.has
        simp [contents, hcache, hhistory, hlast]
      obtain ⟨c', hput, hindexed, hcontents⟩ := Put_spec h hd
      have hrest := ih hindexed ((congrArg Agent.LRU.size hcontents).trans hsize)
        ((congrArg Agent.LRU.cache hcontents).trans hcache)
        { hEnt with Visited := hEnt.Visited + 1 } (congrArg Agent.LRU.history hcontents)
        (by rw [show c'.K = c.K from congrArg Agent.LRU.K hcontents]; dsimp only; omega)
        (by rw [show c'.K = c.K from congrArg Agent.LRU.K hcontents]; dsimp only; omega)
      simp [List.replicate_succ, run, step, hput, hrest]

/-- An empty cache without room in one of its lists dereferences a nil element in some run. -/
theorem run_nil (hfollows : c.Follows K size bound {}) (hK : 2 ≤ K) (hroom : size = 0 ∨ bound = 0)
    (key : α) (value : β) : c.run (List.replicate K (.put key value)) = none := by
  obtain ⟨hcache, hhistory, hsize, hbound⟩ := hfollows.empty
  have h := hfollows.indexed
  have hcK : c.K = K := hfollows.contents.K
  rw [← hsize, ← hbound] at hroom
  obtain ⟨n, rfl⟩ : ∃ n, K = n + 1 := ⟨K - 1, by omega⟩
  have hnone : c.cacheItems key = none :=
    h.cache.eq_none_iff.mpr fun v hv => absurd hv (hcache ▸ List.not_mem_nil)
  have hnone' : c.historyItems key = none :=
    h.history.eq_none_iff.mpr fun v hv => absurd hv (hhistory ▸ List.not_mem_nil)
  rw [List.replicate_succ]
  by_cases hfull : c.hSize = 0
  · have hback : c.history.back = none := by
      have helements : c.history.elements = [] := List.map_eq_nil_iff.mp hhistory
      unfold LinkedList.back
      rw [helements]
      rfl
    have hput : c.Put key value = none := by
      unfold Put
      rw [hnone, hnone']
      simp [addHistoryElement, hfull, hback, removeHistoryElement]
    simp [run, step, hput]
  · have hd : c.contents.Put key value = some (false, none,
        { c.contents with hSize := c.hSize - 1, history := [⟨key, value, 1⟩] }) := by
      unfold Agent.LRU.Put Agent.LRU.has Agent.LRU.addHistoryElement
      simp [contents, hcache, hhistory, hfull]
    obtain ⟨c', hput, hindexed, hcontents⟩ := Put_spec h hd
    have hrest := run_nil_of_size n hindexed
      ((congrArg Agent.LRU.size hcontents).trans (hroom.resolve_right hfull))
      ((congrArg Agent.LRU.cache hcontents).trans hcache) ⟨key, value, 1⟩
      (congrArg Agent.LRU.history hcontents)
      (by rw [show c'.K = c.K from congrArg Agent.LRU.K hcontents, hcK]; exact hK)
      (by rw [show c'.K = c.K from congrArg Agent.LRU.K hcontents, hcK, Nat.add_comm]) value
    simp [run, step, hput, hrest]

/-! ## When it is as a new one -/

/-- Two empty caches, the second with at least the room of the first, are alike exactly if what it
has more makes no difference. -/
theorem alike_iff [Nonempty α] [Nonempty β] {c₀ : LRU α β} {size₀ bound₀ : Nat} (hK : 2 ≤ K)
    (hc : c.Follows K size bound {}) (hc₀ : c₀.Follows K size₀ bound₀ {}) (hsize : size ≤ size₀)
    (hbound : bound ≤ bound₀) :
    c.Alike c₀ ↔ 0 < size ∧ 0 < bound ∧ SameRoom α size size₀ ∧ SameRoom α bound bound₀ := by
  constructor
  · intro halike
    obtain ⟨key⟩ := ‹Nonempty α›
    obtain ⟨value⟩ := ‹Nonempty β›
    have hroom : ¬ (size = 0 ∨ bound = 0) := by
      intro hroom
      obtain ⟨outcomes, d, d₀, hrun, -, -⟩ := halike (List.replicate K (.put key value))
      cases (run_nil hc hK hroom key value).symm.trans hrun
    obtain ⟨hpos, hpos'⟩ : 0 < size ∧ 0 < bound := by omega
    have hsame : ∀ ops : List (Op α β),
        (Reference.run K size bound {} ops).1 = (Reference.run K size₀ bound₀ {} ops).1 := by
      intro ops
      obtain ⟨outcomes, d, d₀, hrun, hrun₀, -⟩ := halike ops
      obtain ⟨e, he, -⟩ := run_follows hK hpos hpos' hc ops
      obtain ⟨e₀, he₀, -⟩ := run_follows hK (by omega) (by omega) hc₀ ops
      have hout := congrArg (Option.map Prod.fst) (he.symm.trans hrun)
      have hout₀ := congrArg (Option.map Prod.fst) (he₀.symm.trans hrun₀)
      exact (Option.some.inj hout).trans (Option.some.inj hout₀).symm
    refine ⟨hpos, hpos', ?_, ?_⟩
    · -- otherwise one key more than the first has room for tells them apart
      by_contra hne
      obtain ⟨hne, hcard⟩ := not_or.mp hne
      have hlt : (size : ENat) < ENat.card α := lt_of_not_ge fun hle =>
        hcard ⟨hle, le_trans hle (Nat.cast_le.mpr hsize)⟩
      obtain ⟨keys, hnodup, hlength⟩ := exists_keys hlt
      obtain ⟨d, -, hd⟩ := run_follows hK hpos hpos' hc
        (keys.flatMap fun key => List.replicate K (.put key value))
      have hlen : d.Len ≤ size := hd.sound.len
      obtain ⟨ops, hops⟩ : ∃ ops : List (Op α β), (Reference.run K size bound {} ops).1 ≠
          (Reference.run K size₀ bound₀ {} ops).1 :=
        Reference.run_ne_of_cache hK (by omega) hnodup (by omega) value (by
          rw [hd.len, hlength]
          exact Nat.cast_lt.mpr (Nat.lt_succ_of_le hlen))
      exact hops (hsame ops)
    · by_contra hne
      obtain ⟨hne, hcard⟩ := not_or.mp hne
      have hlt : (bound : ENat) < ENat.card α := lt_of_not_ge fun hle =>
        hcard ⟨hle, le_trans hle (Nat.cast_le.mpr hbound)⟩
      obtain ⟨keys, hnodup, hlength⟩ := exists_keys hlt
      obtain ⟨d, -, hd⟩ := run_follows hK hpos hpos' hc (keys.map (.put · value))
      have hlen := hd.sound.historyLen
      obtain ⟨ops, hops⟩ : ∃ ops : List (Op α β), (Reference.run K size bound {} ops).1 ≠
          (Reference.run K size₀ bound₀ {} ops).1 :=
        Reference.run_ne_of_history hK hnodup (by omega) value (by
          rw [hd.contents.history.encard_keys, hlength]
          exact Nat.cast_lt.mpr (Nat.lt_succ_of_le hlen))
      exact hops (hsame ops)
  · rintro ⟨hpos, hpos', hsizes, hbounds⟩ ops
    obtain ⟨d, hrun, hd⟩ := run_follows hK hpos hpos' hc ops
    obtain ⟨d₀, hrun₀, hd₀⟩ := run_follows hK (by omega) (by omega) hc₀ ops
    rw [← Reference.run_congr hsizes hbounds] at hrun₀ hd₀
    refine ⟨_, d, d₀, hrun, hrun₀, ?_⟩
    have hlen := hd.len.symm.trans hd₀.len
    exact_mod_cast hlen

/-- A purged cache behaves as a new one exactly if no entry was in its lists, or room for every
key is left. -/
theorem Purge_fresh_iff (α β : Type) [DecidableEq α] [Nonempty α] [Nonempty β]
    (k size hSize : Nat) (hrange : size < 2 ^ 64) {c₀ c : LRU α β} {ops : List (Op α β)}
    {outcomes : List (Outcome α β)} (hnew : NewLRUK α β k size hSize = some c₀)
    (hrun : c₀.run ops = some (outcomes, c)) {keys historyKeys : List α}
    (hkeys : Ranges c.cacheItems keys) (hhistoryKeys : Ranges c.historyItems historyKeys) :
    (c.Purge keys historyKeys).2.Alike c₀ ↔
      1 ≤ size ∧ (c.cache.values = [] ∨ ENat.card α ≤ c.size) ∧
        (c.history.values = [] ∨ ENat.card α ≤ c.hSize) := by
  obtain ⟨hK, hstart⟩ := NewLRUK_follows hnew
  rcases Nat.eq_zero_or_pos size with hzero | hsize
  · refine iff_of_false (fun halike => ?_) fun h => absurd h.1 (by omega)
    obtain ⟨key⟩ := ‹Nonempty α›
    obtain ⟨value⟩ := ‹Nonempty β›
    obtain ⟨outcomes', d, d₀, -, hrun₀, -⟩ := halike (List.replicate k (.put key value))
    cases (run_nil hstart hK (.inl hzero) key value).symm.trans hrun₀
  · have hbound := historyBound_pos hsize hrange hSize
    obtain ⟨c', hc', hfollows⟩ := run_follows hK hsize hbound hstart ops
    obtain rfl : c = c' := congrArg Prod.snd (Option.some.inj (hrun.symm.trans hc'))
    have hroom : c.size + c.cache.values.length = size := hfollows.contents.size
    have hhistoryRoom : c.hSize + c.history.values.length = historyBound size hSize :=
      hfollows.contents.hSize
    have hcard : ∀ n : Nat, ENat.card α ≤ n → 0 < n := fun n hn =>
      Nat.cast_pos.mp (lt_of_lt_of_le (ENat.card_pos) hn)
    rw [alike_iff hK (Purge_follows hfollows.contents.K hkeys hhistoryKeys) hstart (by omega)
      (by omega), sameRoom_iff hroom, sameRoom_iff hhistoryRoom, List.length_eq_zero_iff,
      List.length_eq_zero_iff]
    refine ⟨fun ⟨_, _, hrest⟩ => ⟨hsize, hrest⟩, fun ⟨_, hcache, hhistory⟩ =>
      ⟨?_, ?_, hcache, hhistory⟩⟩
    · rcases hcache with hnil | hle
      · rw [hnil, List.length_nil] at hroom
        omega
      · exact hcard c.size hle
    · rcases hhistory with hnil | hle
      · rw [hnil, List.length_nil] at hhistoryRoom
        omega
      · exact hcard c.hSize hle

/-- A key that was admitted and removed again takes no room. -/
theorem Purge_fresh_removed :
    ∃ c₀ c outcomes, NewLRUK String Nat 2 1 4 = some c₀ ∧
      c₀.run [.put "a" 1, .put "a" 2, .remove "a"] = some (outcomes, c) ∧
      (c.Purge [] []).2.Alike c₀ := by
  obtain ⟨c₀, c, hnew, hrun, -, hsound⟩ := run_refines String Nat 2 1 4 (by omega) (by omega)
    (by omega) [.put "a" 1, .put "a" 2, .remove "a"]
  have hlists : ((NewLRUK String Nat 2 1 4).bind fun c =>
      (c.run [.put "a" 1, .put "a" 2, .remove "a"]).map fun r =>
        (r.2.cache.elements.length, r.2.history.elements.length)) = some (0, 0) := by
    decide +kernel
  rw [hnew, Option.bind_some, hrun, Option.map_some] at hlists
  obtain ⟨hcache, hhistory⟩ := Prod.mk.inj (Option.some.inj hlists)
  have hcacheValues : c.cache.values = [] := by
    rw [LinkedList.values, List.eq_nil_of_length_eq_zero hcache, List.map_nil]
  have hhistoryValues : c.history.values = [] := by
    rw [LinkedList.values, List.eq_nil_of_length_eq_zero hhistory, List.map_nil]
  refine ⟨c₀, c, _, hnew, hrun, (Purge_fresh_iff String Nat 2 1 4 (by omega) hnew hrun
    ⟨.nil, fun key => ?_⟩ ⟨.nil, fun key => ?_⟩).mpr
    ⟨le_refl 1, .inl hcacheValues, .inl hhistoryValues⟩⟩
  · rw [hsound.cacheItems, hcacheValues, List.map_nil]
  · rw [hsound.historyItems, hhistoryValues, List.map_nil]

/-- With room for one, a key that is admitted after a purge is to evict the last of no elements. -/
theorem Purge_nil_dereference :
    ∃ c₀ c outcomes, NewLRUK String Nat 2 1 4 = some c₀ ∧
      c₀.run [.put "a" 1, .put "a" 2] = some (outcomes, c) ∧
      Ranges c.cacheItems ["a"] ∧ Ranges c.historyItems [] ∧
      (c.Purge ["a"] []).2.run [.put "b" 3, .put "b" 4] = none ∧
      (c₀.run [.put "b" 3, .put "b" 4]).map Prod.fst =
        some [.put false false [], .put true false []] := by
  obtain ⟨c₀, c, hnew, hrun, -, hsound⟩ := run_refines String Nat 2 1 4 (by omega) (by omega)
    (by omega) [.put "a" 1, .put "a" 2]
  have hlists : ((NewLRUK String Nat 2 1 4).bind fun c =>
      (c.run [.put "a" 1, .put "a" 2]).map fun r =>
        (r.2.cache.elements.map fun e => e.2.1, r.2.history.elements.map fun e => e.2.Key)) =
      some (["a"], []) := by
    decide +kernel
  have hnil : ((NewLRUK String Nat 2 1 4).bind fun c =>
      (c.run [.put "a" 1, .put "a" 2]).map fun r =>
        ((r.2.Purge ["a"] []).2.run [.put "b" 3, .put "b" 4]).isSome) = some false := by
    decide +kernel
  have hfresh : ((NewLRUK String Nat 2 1 4).bind fun c =>
      (c.run [.put "b" 3, .put "b" 4]).map Prod.fst) =
      some [.put false false [], .put true false []] := by
    decide +kernel
  rw [hnew, Option.bind_some] at hlists hnil hfresh
  rw [hrun, Option.map_some] at hlists hnil
  obtain ⟨hcache, hhistory⟩ := Prod.mk.inj (Option.some.inj hlists)
  refine ⟨c₀, c, _, hnew, hrun, ⟨List.nodup_singleton _, fun key => ?_⟩,
    ⟨.nil, fun key => ?_⟩, by simpa using Option.some.inj hnil, hfresh⟩
  · rw [hsound.cacheItems, LinkedList.values, List.map_map]
    exact hcache ▸ Iff.rfl
  · rw [hsound.historyItems, LinkedList.values, List.map_map]
    exact hhistory ▸ Iff.rfl

end Cassem.Agent.Linked.LRU
