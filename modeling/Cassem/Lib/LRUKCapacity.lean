import Cassem.Lib.LRUK
import Mathlib.Data.Set.Card

/-!
# The capacities of LRU-K

How many entries a table may have does not show in what the calls return while there is room for
every key. With more keys than that, it does: a table that has to give one up misses it later.
-/

namespace Cassem.Lib.LRUK

variable {α β γ : Type} [DecidableEq α] {n n' : Nat} {f : Timed α γ} {key : α}

/-- The two capacities are one, or either has room for every key. -/
def SameRoom (α : Type) (n n' : Nat) : Prop :=
  n = n' ∨ (ENat.card α ≤ n ∧ ENat.card α ≤ n')

omit [DecidableEq α] in
theorem sameRoom_iff {used : Nat} (h : n + used = n') :
    SameRoom α n n' ↔ used = 0 ∨ ENat.card α ≤ n := by
  have hle : (n : ENat) ≤ n' := Nat.cast_le.mpr (by omega)
  exact or_congr (by omega) ⟨fun hcard => hcard.1, fun hcard => ⟨hcard, hcard.trans hle⟩⟩

theorem makeRoom_of_lt (h : f.keys.encard < n) : makeRoom n f = (none, f) := if_pos h

theorem makeRoom_of_card (hcard : ENat.card α ≤ n) (hkey : f key = none) :
    makeRoom n f = (none, f) := by
  rw [← Set.encard_univ] at hcard
  have hfinite : (Set.univ : Set α).Finite := Set.finite_of_encard_le_coe hcard
  have hproper : f.keys ⊂ Set.univ :=
    Set.ssubset_univ_iff.mpr fun heq => (heq ▸ Set.mem_univ key : key ∈ f.keys) hkey
  have hlt := (hfinite.subset (Set.subset_univ f.keys)).encard_lt_encard hproper
  exact makeRoom_of_lt (lt_of_lt_of_le hlt hcard)

theorem makeRoom_congr (h : SameRoom α n n') (hkey : f key = none) :
    makeRoom n f = makeRoom n' f := by
  rcases h with rfl | ⟨hcard, hcard'⟩
  · rfl
  · rw [makeRoom_of_card hcard hkey, makeRoom_of_card hcard' hkey]

/-- Nothing comes into a table when room is made in it. -/
theorem makeRoom_eq (n : Nat) (f : Timed α γ) (key : α) :
    (makeRoom n f).2 key = none ∨ (makeRoom n f).2 key = f key := by
  unfold makeRoom
  split
  · exact .inr rfl
  · split
    · exact .inr rfl
    · next oldest _ =>
      by_cases heq : key = oldest
      · exact .inl (heq ▸ Function.update_self ..)
      · exact .inr (Function.update_of_ne heq ..)

/-- More keys than a table has cannot all be in it. -/
theorem exists_missing {keys : List α} (hnodup : keys.Nodup)
    (hlt : f.keys.encard < keys.length) : ∃ key ∈ keys, f key = none := by
  by_contra hall
  have hsub : (keys.toFinset : Set α) ⊆ f.keys := fun key hkey hnone =>
    hall ⟨key, List.mem_toFinset.mp hkey, hnone⟩
  have hle := Set.encard_le_encard hsub
  rw [Set.encard_coe_eq_coe_finsetCard, List.toFinset_card_of_nodup hnodup] at hle
  exact absurd hlt (not_lt_of_ge hle)

omit [DecidableEq α] in
/-- A table that differs under one key alone has one more at the most. -/
theorem encard_keys_le {g : Timed α γ} (h : f.keys.encard ≤ n)
    (hothers : ∀ key', key' ≠ key → g key' = f key') : g.keys.encard ≤ (n + 1 : Nat) := by
  have hsub : g.keys ⊆ insert key f.keys := by
    intro key' hkey'
    by_cases heq : key' = key
    · exact .inl heq
    · exact .inr fun hnone => hkey' ((hothers key' heq).trans hnone)
  calc g.keys.encard
      ≤ (insert key f.keys).encard := Set.encard_le_encard hsub
    _ ≤ f.keys.encard + 1 := Set.encard_insert_le ..
    _ ≤ n + 1 := by gcongr
    _ = (n + 1 : Nat) := by norm_cast

omit [DecidableEq α] in
/-- There are as many distinct keys as a list of that length needs. -/
theorem exists_keys (hlt : (n : ENat) < ENat.card α) :
    ∃ keys : List α, keys.Nodup ∧ keys.length = n + 1 := by
  rw [← Set.encard_univ] at hlt
  have hle : ((n + 1 : Nat) : ENat) ≤ (Set.univ : Set α).encard := by
    rw [Nat.cast_add, Nat.cast_one]
    exact Order.add_one_le_of_lt hlt
  obtain ⟨s, -, hs⟩ := Set.exists_subset_encard_eq hle
  have hfinite : s.Finite := Set.finite_of_encard_eq_coe hs
  refine ⟨hfinite.toFinset.toList, Finset.nodup_toList _, ?_⟩
  rw [Finset.length_toList]
  rw [hfinite.encard_eq_coe_toFinset_card] at hs
  exact_mod_cast hs

namespace Reference

variable {K size size' bound bound' : Nat} {r : Reference α β} {value : β}

/-! ## Capacities that do not show -/

theorem step_congr (hsize : SameRoom α size size') (hbound : SameRoom α bound bound')
    (r : Reference α β) (op : Op α β) : r.step K size bound op = r.step K size' bound' op := by
  cases op with
  | get key => rfl
  | remove key => rfl
  | put key value =>
    show r.put K size bound key value = r.put K size' bound' key value
    unfold put
    cases hcache : r.cache key with
    | some e => rfl
    | none =>
      dsimp only
      rw [makeRoom_congr hsize hcache]
      cases hhistory : r.history key with
      | some e => rfl
      | none => rw [makeRoom_congr hbound hhistory]

theorem run_congr (hsize : SameRoom α size size') (hbound : SameRoom α bound bound')
    (r : Reference α β) (ops : List (Op α β)) :
    r.run K size bound ops = r.run K size' bound' ops := by
  induction ops generalizing r with
  | nil => rfl
  | cons op ops ih =>
    unfold run
    rw [step_congr hsize hbound]
    dsimp only
    rw [ih]

/-! ## The puts of one key -/

theorem run_append (r : Reference α β) (ops ops' : List (Op α β)) :
    r.run K size bound (ops ++ ops') =
      ((r.run K size bound ops).1 ++ ((r.run K size bound ops).2.run K size bound ops').1,
        ((r.run K size bound ops).2.run K size bound ops').2) := by
  induction ops generalizing r with
  | nil => rfl
  | cons op ops ih =>
    simp only [List.cons_append, run]
    rw [ih]

/-- How many puts of a key are counted in the history. -/
def visits (r : Reference α β) (key : α) : Nat := ((r.history key).map (·.1)).getD 0

omit [DecidableEq α] in
theorem visits_of_none (h : r.history key = none) : r.visits key = 0 := by
  unfold visits
  rw [h]
  rfl

/-- There is room in the history for one more put of the key. -/
def HasRoom (bound : Nat) (r : Reference α β) (key : α) : Prop :=
  r.history key ≠ none ∨ r.history.keys.encard < bound

/-- So many puts of a key are counted, and it is not admitted. -/
structure Counted (bound : Nat) (key : α) (n : Nat) (r r' : Reference α β) : Prop where
  cache : r'.cache = r.cache
  visits : r'.visits key = r.visits key + n
  dropped : ∀ key', key' ≠ key → r'.history key' = none ∨ r'.history key' = r.history key'
  others : r.HasRoom bound key → ∀ key', key' ≠ key → r'.history key' = r.history key'

theorem put_counts (size bound : Nat) (hcache : r.cache key = none) (hlt : r.visits key + 1 < K) (value : β) :
    (r.put K size bound key value).1 = .put false false [] ∧
      Counted bound key 1 r (r.put K size bound key value).2 ∧
      (r.put K size bound key value).2.history key ≠ none := by
  have hput : r.put K size bound key value = (.put false false [], { r with
      now := r.now + 1
      history := Function.update
        (if (r.history key).isSome then r.history else (makeRoom bound r.history).2)
        key (some (r.visits key + 1, r.now)) }) := by
    unfold put
    rw [hcache]
    exact if_neg (Nat.not_le.mpr hlt)
  rw [hput]
  refine ⟨rfl, ⟨rfl, ?_, fun key' hne => ?_, fun hroom key' hne => ?_⟩, ?_⟩
  · unfold visits
    dsimp only
    rw [Function.update_self]
    rfl
  · dsimp only
    rw [Function.update_of_ne hne]
    split
    · exact .inr rfl
    · exact makeRoom_eq bound r.history key'
  · dsimp only
    rw [Function.update_of_ne hne]
    split
    · rfl
    · next hnone =>
      have hlt := hroom.resolve_left fun hsome => hnone (Option.isSome_iff_ne_none.mpr hsome)
      rw [makeRoom_of_lt hlt]
  · dsimp only
    rw [Function.update_self]
    exact Option.some_ne_none _

/-- The put that is the `K`-th admits the key. -/
theorem put_admits (size bound : Nat) (hcache : r.cache key = none) (hK : K ≤ r.visits key + 1) (value : β) :
    r.put K size bound key value =
      (.put true (makeRoom size r.cache).1.isSome (makeRoom size r.cache).1.toList,
        { now := r.now + 1, history := Function.update r.history key none
          cache := Function.update (makeRoom size r.cache).2 key (some (value, r.now)) }) := by
  unfold put
  rw [hcache]
  exact if_pos hK

theorem run_counts (size bound n : Nat) (hcache : r.cache key = none) (hlt : r.visits key + n < K)
    (value : β) :
    Counted bound key n r (r.run K size bound (List.replicate n (.put key value))).2 := by
  induction n generalizing r with
  | zero => exact ⟨rfl, rfl, fun _ _ => .inr rfl, fun _ _ _ => rfl⟩
  | succ n ih =>
    obtain ⟨-, hput, hseen⟩ :=
      put_counts size bound hcache (by omega : r.visits key + 1 < K) value
    have hcount := hput.visits
    have hrest := ih (r := (r.put K size bound key value).2) (by rw [hput.cache, hcache])
      (by rw [hcount]; omega)
    refine ⟨hrest.cache.trans hput.cache, ?_, fun key' hne => ?_, fun hroom key' hne => ?_⟩
    · have hvisits := hrest.visits
      rw [hcount, Nat.add_assoc, Nat.add_comm 1] at hvisits
      exact hvisits
    · rcases hrest.dropped key' hne with hgone | hsame
      · exact .inl hgone
      · exact (hput.dropped key' hne).imp hsame.trans hsame.trans
    · exact (hrest.others (.inl hseen) key' hne).trans (hput.others hroom key' hne)

/-! ## What a full history forgets -/

/-- Keys that are put once each, all new, are in the history if it has room for them. -/
theorem run_each (hK : 2 ≤ K) (keys : List α) (hnodup : keys.Nodup)
    (hcache : ∀ key ∈ keys, r.cache key = none) (hnew : ∀ key ∈ keys, r.history key = none)
    (value : β) :
    let r' := (r.run K size bound (keys.map (.put · value))).2
    r'.cache = r.cache ∧
      ∀ n : Nat, r.history.keys.encard ≤ n → n + keys.length ≤ bound →
        ∀ key, r'.visits key = if key ∈ keys then 1 else r.visits key := by
  induction keys generalizing r with
  | nil => exact ⟨rfl, fun _ _ _ _ => rfl⟩
  | cons key keys ih =>
    obtain ⟨hfresh, hnodup⟩ := List.nodup_cons.mp hnodup
    have hzero := visits_of_none (hnew key (List.mem_cons_self ..))
    obtain ⟨-, hput, -⟩ := put_counts size bound
      (hcache key (List.mem_cons_self ..)) (by omega : r.visits key + 1 < K) value
    have hne : ∀ key' ∈ keys, key' ≠ key := fun key' hmem heq => hfresh (heq ▸ hmem)
    obtain ⟨hcache', hvisits'⟩ := ih (r := (r.put K size bound key value).2) hnodup
      (fun key' hmem => by rw [hput.cache]; exact hcache key' (List.mem_cons_of_mem _ hmem))
      (fun key' hmem => (hput.dropped key' (hne key' hmem)).elim id fun hsame =>
        hsame.trans (hnew key' (List.mem_cons_of_mem _ hmem)))
    refine ⟨hcache'.trans hput.cache, fun n hn hroom key' => ?_⟩
    rw [List.length_cons] at hroom
    have hlt : r.history.keys.encard < bound :=
      lt_of_le_of_lt hn (Nat.cast_lt.mpr (by omega))
    have hothers := hput.others (.inr hlt)
    refine (hvisits' (n + 1) (encard_keys_le hn hothers) (by omega) key').trans ?_
    by_cases heq : key' = key
    · subst heq
      rw [if_neg hfresh, if_pos (List.mem_cons_self ..), hput.visits, hzero]
    · have hsame : (r.put K size bound key value).2.visits key' = r.visits key' :=
        congrArg (fun e => (Option.map Prod.fst e).getD 0) (hothers key' heq)
      simp only [List.mem_cons, heq, false_or, hsame]

/-- A smaller history forgets one of the keys put once each, which the puts that follow show. -/
theorem run_ne_of_history (hK : 2 ≤ K) {keys : List α} (hnodup : keys.Nodup)
    (hbound : keys.length ≤ bound) (value : β)
    (hlost : (run K size' bound' {} (keys.map (.put · value))).2.history.keys.encard < keys.length) :
    ∃ ops, (run K size' bound' ({} : Reference α β) ops).1 ≠ (run K size bound {} ops).1 := by
  obtain ⟨key, hmem, hnone⟩ := exists_missing hnodup hlost
  have heach : ∀ size bound, (run K size bound ({} : Reference α β) (keys.map (.put · value))).2.cache
      = fun _ => none := fun _ _ =>
    (run_each hK keys hnodup (fun _ _ => rfl) (fun _ _ => rfl) value).1
  have hone : (run K size bound ({} : Reference α β) (keys.map (.put · value))).2.visits key = 1 := by
    have hempty : (({} : Reference α β).history.keys).encard ≤ (0 : Nat) := by
      simp [Timed.keys]
    rw [(run_each hK keys hnodup (fun _ _ => rfl) (fun _ _ => rfl) value).2 0 hempty (by omega),
      if_pos hmem]
  have hzero := visits_of_none hnone
  have hcounts := run_counts (K := K) size bound (K - 2)
    (congrFun (heach size bound) key) (by omega) value
  have hcounts' := run_counts (K := K) size' bound' (K - 2)
    (congrFun (heach size' bound') key) (by omega) value
  -- one more put is the last that admits the key in one of them only
  refine ⟨keys.map (.put · value) ++ List.replicate (K - 2) (.put key value) ++ [.put key value],
    fun heq => ?_⟩
  rw [run_append, run_append, run_append, run_append] at heq
  have hlast := congrArg List.getLast? heq
  simp only [run, step, List.getLast?_append, List.getLast?_singleton, Option.some_or] at hlast
  have hcache := hcounts.cache.trans (heach size bound)
  have hput := put_admits (K := K) size bound (congrFun hcache key)
    (by rw [hcounts.visits, hone]; omega) value
  have hput' := (put_counts (K := K) size' bound'
    (congrFun (hcounts'.cache.trans (heach size' bound')) key)
    (by rw [hcounts'.visits, hzero]; omega) value).1
  rw [hput, hput'] at hlast
  cases hlast

/-! ## What a full cache gives up -/

/-- In an empty history the puts of a key that is not in the cache admit it. -/
theorem run_admits (hK : 2 ≤ K) (hbound : 0 < bound) (hhistory : r.history = fun _ => none)
    (hcache : r.cache key = none) (hroom : r.cache.keys.encard < size) (value : β) :
    let r' := (r.run K size bound (List.replicate K (.put key value))).2
    r'.history = (fun _ => none) ∧
      ∃ t, r'.cache = Function.update r.cache key (some (value, t)) := by
  obtain ⟨n, rfl⟩ : ∃ n, K = n + 1 := ⟨K - 1, by omega⟩
  have hzero : r.visits key = 0 := visits_of_none (congrFun hhistory key)
  have hcounts := run_counts (K := n + 1) size bound n hcache (by omega) value
  rw [List.replicate_succ', run_append]
  have hput := put_admits (K := n + 1) size bound
    (by rw [hcounts.cache]; exact hcache) (by rw [hcounts.visits]; omega) value
  have hempty : r.history.keys.encard < bound := by
    rw [hhistory]
    simpa [Timed.keys] using hbound
  have hothers := hcounts.others (.inr hempty)
  dsimp only [run, step]
  rw [hput, hcounts.cache, makeRoom_of_lt hroom]
  refine ⟨funext fun key' => ?_, _, rfl⟩
  by_cases heq : key' = key
  · rw [heq]
    exact Function.update_self ..
  · dsimp only
    rw [Function.update_of_ne heq, hothers key' heq, hhistory]

theorem run_admits_each (hK : 2 ≤ K) (hbound : 0 < bound) (keys : List α) (hnodup : keys.Nodup)
    (hhistory : r.history = fun _ => none) (hcache : ∀ key ∈ keys, r.cache key = none) {n : Nat}
    (hn : r.cache.keys.encard ≤ n) (hroom : n + keys.length ≤ size) (value : β) (key : α)
    (hkey : key ∈ keys ∨ r.cache key ≠ none) :
    (r.run K size bound (keys.flatMap fun key => List.replicate K (.put key value))).2.cache key ≠
      none := by
  induction keys generalizing r n with
  | nil => exact hkey.resolve_left (List.not_mem_nil)
  | cons first keys ih =>
    obtain ⟨hfresh, hnodup⟩ := List.nodup_cons.mp hnodup
    rw [List.length_cons] at hroom
    have hlt : r.cache.keys.encard < size := lt_of_le_of_lt hn (Nat.cast_lt.mpr (by omega))
    obtain ⟨hhistory', t, hcache'⟩ :=
      run_admits hK hbound hhistory (hcache first (List.mem_cons_self ..)) hlt value
    have hothers : ∀ key', key' ≠ first →
        (r.run K size bound (List.replicate K (.put first value))).2.cache key' = r.cache key' :=
      fun key' hne => by rw [hcache', Function.update_of_ne hne]
    rw [List.flatMap_cons, run_append]
    refine ih hnodup hhistory' (fun key' hmem => ?_) (encard_keys_le hn hothers) (by omega) ?_
    · have hne : key' ≠ first := fun heq => hfresh (heq ▸ hmem)
      rw [hothers key' hne]
      exact hcache key' (List.mem_cons_of_mem _ hmem)
    · by_cases heq : key = first
      · refine .inr ?_
        rw [hcache', heq, Function.update_self]
        exact Option.some_ne_none _
      · refine hkey.imp (fun hmem => (List.mem_cons.mp hmem).resolve_left heq) fun hne => ?_
        rw [hothers key heq]
        exact hne

/-- A smaller cache gives up one of the keys admitted one after the other, which a look shows. -/
theorem run_ne_of_cache (hK : 2 ≤ K) (hbound : 0 < bound) {keys : List α} (hnodup : keys.Nodup)
    (hsize : keys.length ≤ size) (value : β)
    (hlost : (run K size' bound' {} (keys.flatMap fun key =>
      List.replicate K (.put key value))).2.cache.keys.encard < keys.length) :
    ∃ ops, (run K size' bound' ({} : Reference α β) ops).1 ≠ (run K size bound {} ops).1 := by
  obtain ⟨key, hmem, hnone⟩ := exists_missing hnodup hlost
  have hempty : (({} : Reference α β).cache.keys).encard ≤ (0 : Nat) := by simp [Timed.keys]
  have hroom : 0 + keys.length ≤ size := by omega
  have hsome := run_admits_each (r := ({} : Reference α β)) hK hbound keys hnodup rfl
    (fun _ _ => rfl) hempty hroom value key (.inl hmem)
  refine ⟨(keys.flatMap fun key => List.replicate K (.put key value)) ++ [.get key],
    fun heq => ?_⟩
  rw [run_append, run_append] at heq
  have hlast := congrArg List.getLast? heq
  simp only [run, step, List.getLast?_append, List.getLast?_singleton, Option.some_or] at hlast
  unfold get at hlast
  obtain ⟨e, he⟩ := Option.ne_none_iff_exists'.mp hsome
  rw [hnone, he] at hlast
  cases hlast

end Reference

end Cassem.Lib.LRUK
