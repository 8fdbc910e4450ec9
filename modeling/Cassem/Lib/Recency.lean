import Mathlib.Data.Finset.Card
import Mathlib.Data.Set.Card
import Mathlib.Data.List.Nodup

/-!
# Tables with the time of each use

A table says of each key what stands under it and when it was last used. Nothing but these times
decides which entry is the oldest. A list with the entry used last at its front represents such a
table: its last entry is the oldest one, a use of a key moves it to the front.
-/

namespace Cassem.Lib

variable {α γ : Type}

/-- What stands under a key, and the time of its last use. -/
abbrev Timed (α γ : Type) := α → Option (γ × Nat)

namespace Timed

def keys (f : Timed α γ) : Set α := {key | f key ≠ none}

/-- No entry was used before that of the key. -/
def Oldest (f : Timed α γ) (key : α) : Prop :=
  ∃ x t, f key = some (x, t) ∧ ∀ key' x' t', f key' = some (x', t') → t ≤ t'

open Classical in
noncomputable def oldest (f : Timed α γ) : Option α :=
  if h : ∃ key, f.Oldest key then some h.choose else none

/-- The list has the entries of the table, that used last at its front, all used before `now`. -/
structure Listed (f : Timed α γ) (now : Nat) (l : List (α × γ × Nat)) : Prop where
  sorted : l.Pairwise fun a b => b.2.2 < a.2.2
  past : ∀ e ∈ l, e.2.2 < now
  mem : ∀ key x t, (key, x, t) ∈ l ↔ f key = some (x, t)

namespace Listed

variable {f : Timed α γ} {now : Nat} {l : List (α × γ × Nat)}

theorem empty (now : Nat) : Listed (fun _ : α => (none : Option (γ × Nat))) now [] :=
  ⟨.nil, fun e he => (by cases he), fun key x t => ⟨fun h => (by cases h), fun h => (by cases h)⟩⟩

theorem nodup_keys (h : Listed f now l) : (l.map (·.1)).Nodup := by
  refine List.pairwise_map.mpr (h.sorted.imp_of_mem ?_)
  rintro ⟨key, x, t⟩ ⟨key', x', t'⟩ ha hb hlt rfl
  have heq := ((h.mem key x t).mp ha).symm.trans ((h.mem key x' t').mp hb)
  have htime : t = t' := congrArg Prod.snd (Option.some.inj heq)
  exact Nat.lt_irrefl t (htime ▸ hlt)

/-- Two entries of one time are the same. -/
theorem eq_of_time (h : Listed f now l) {a b : α × γ × Nat} (ha : a ∈ l) (hb : b ∈ l)
    (ht : a.2.2 = b.2.2) : a = b := by
  have hnodup : (l.map (·.2.2)).Nodup :=
    List.pairwise_map.mpr (h.sorted.imp fun hlt => Nat.ne_of_gt hlt)
  exact List.inj_on_of_nodup_map hnodup ha hb ht

theorem encard_keys (h : Listed f now l) : f.keys.encard = l.length := by
  classical
  have hkeys : f.keys = ((l.map (·.1)).toFinset : Set α) := by
    ext key
    rw [List.coe_toFinset]
    constructor
    · intro hkey
      obtain ⟨⟨x, t⟩, hx⟩ := Option.ne_none_iff_exists'.mp hkey
      exact List.mem_map.mpr ⟨(key, x, t), (h.mem key x t).mpr hx, rfl⟩
    · intro hkey hnone
      obtain ⟨⟨_, x, t⟩, he, rfl⟩ := List.mem_map.mp hkey
      cases hnone.symm.trans ((h.mem _ x t).mp he)
  rw [hkeys, Set.encard_coe_eq_coe_finsetCard, List.toFinset_card_of_nodup h.nodup_keys,
    List.length_map]

/-- The oldest entry is the last of the list. -/
theorem oldest_eq (h : Listed f now l) : f.oldest = l.getLast?.map (·.1) := by
  have hlast : ∀ e, l.getLast? = some e → ∀ e' ∈ l, e.2.2 ≤ e'.2.2 := by
    intro e he e' he'
    obtain ⟨init, rfl⟩ := List.getLast?_eq_some_iff.mp he
    rcases List.mem_append.mp he' with hmem | hmem
    · exact Nat.le_of_lt ((List.pairwise_append.mp h.sorted).2.2 e' hmem e (List.mem_singleton_self e))
    · exact Nat.le_of_eq (congrArg (·.2.2) (List.mem_singleton.mp hmem).symm)
  unfold oldest
  cases hl : l.getLast? with
  | none =>
    have hnil : l = [] := List.getLast?_eq_none_iff.mp hl
    refine dif_neg ?_
    rintro ⟨key, x, t, hx, -⟩
    have hmem := (h.mem key x t).mpr hx
    rw [hnil] at hmem
    cases hmem
  | some e =>
    have he := List.mem_of_getLast? hl
    have hex : ∃ key, f.Oldest key :=
      ⟨e.1, e.2.1, e.2.2, (h.mem _ _ _).mp he, fun key' x' t' h' =>
        hlast e hl (key', x', t') ((h.mem key' x' t').mpr h')⟩
    obtain ⟨x, t, hx, hmin⟩ := hex.choose_spec
    have hmem := (h.mem _ x t).mpr hx
    have hle := hmin e.1 e.2.1 e.2.2 ((h.mem _ _ _).mp he)
    have hge := hlast e hl _ hmem
    have heq := h.eq_of_time hmem he (Nat.le_antisymm hle hge)
    rw [dif_pos hex, Option.map_some]
    exact congrArg some (congrArg Prod.fst heq)

theorem later (h : Listed f now l) {now' : Nat} (hle : now ≤ now') : Listed f now' l :=
  ⟨h.sorted, fun e he => Nat.lt_of_lt_of_le (h.past e he) hle, h.mem⟩

variable [DecidableEq α]

theorem erase (h : Listed f now l) (key : α) :
    Listed (Function.update f key none) now (l.filter fun e => e.1 ≠ key) := by
  refine ⟨h.sorted.filter _, fun e he => h.past e (List.mem_of_mem_filter he), fun key' x t => ?_⟩
  rw [List.mem_filter, h.mem]
  by_cases hkey : key' = key
  · subst hkey
    simp
  · simp [hkey]

/-- A use of the key at the present time puts its entry at the front. -/
theorem use (h : Listed f now l) (key : α) (x : γ) :
    Listed (Function.update f key (some (x, now))) (now + 1)
      ((key, x, now) :: l.filter fun e => e.1 ≠ key) := by
  have herase := h.erase key
  refine ⟨List.pairwise_cons.mpr ⟨herase.past, herase.sorted⟩, fun e he => ?_, fun key' x' t => ?_⟩
  · rcases List.mem_cons.mp he with rfl | he
    · exact Nat.lt_succ_self _
    · exact Nat.lt_succ_of_lt (herase.past e he)
  · rw [List.mem_cons, herase.mem]
    by_cases hkey : key' = key
    · subst hkey
      simp [eq_comm]
    · simp [hkey]

end Listed

/-! ## Lists without the times -/

variable {δ : Type} (f : δ → α × γ)

/-- The entries that `f` sees in the list are those of the table, in the order of their times. -/
def Represents (l : List δ) (g : Timed α γ) (now : Nat) : Prop :=
  ∃ entries, g.Listed now entries ∧ l.map f = entries.map fun e => (e.1, e.2.1)

namespace Represents

variable {f} {l : List δ} {g : Timed α γ} {now : Nat} {key : α}

theorem empty (f : δ → α × γ) (now : Nat) : Represents f [] (fun _ => none) now :=
  ⟨[], .empty now, rfl⟩

theorem later (h : Represents f l g now) {now' : Nat} (hle : now ≤ now') :
    Represents f l g now' := by
  obtain ⟨entries, hlisted, hmap⟩ := h
  exact ⟨entries, hlisted.later hle, hmap⟩

theorem nodup_keys (h : Represents f l g now) : (l.map fun v => (f v).1).Nodup := by
  obtain ⟨entries, hlisted, hmap⟩ := h
  have hkeys := congrArg (List.map Prod.fst) hmap
  rw [List.map_map, List.map_map] at hkeys
  exact hkeys ▸ hlisted.nodup_keys

theorem encard_keys (h : Represents f l g now) : g.keys.encard = l.length := by
  obtain ⟨entries, hlisted, hmap⟩ := h
  have hlength := congrArg List.length hmap
  rw [List.length_map, List.length_map] at hlength
  rw [hlisted.encard_keys, hlength]

theorem of_mem (h : Represents f l g now) {v : δ} (hv : v ∈ l) :
    ∃ t, g (f v).1 = some ((f v).2, t) := by
  obtain ⟨entries, hlisted, hmap⟩ := h
  have hmem : f v ∈ entries.map fun e => (e.1, e.2.1) := hmap ▸ List.mem_map_of_mem hv
  obtain ⟨e, he, heq⟩ := List.mem_map.mp hmem
  exact ⟨e.2.2, heq ▸ (hlisted.mem e.1 e.2.1 e.2.2).mp he⟩

theorem exists_mem (h : Represents f l g now) {x : γ} {t : Nat} (hx : g key = some (x, t)) :
    ∃ v ∈ l, f v = (key, x) := by
  obtain ⟨entries, hlisted, hmap⟩ := h
  have hmem : (key, x) ∈ l.map f :=
    hmap ▸ List.mem_map.mpr ⟨_, (hlisted.mem key x t).mpr hx, rfl⟩
  obtain ⟨v, hv, heq⟩ := List.mem_map.mp hmem
  exact ⟨v, hv, heq⟩

/-- The last of the list is the oldest entry. -/
theorem oldest_eq (h : Represents f l g now) : g.oldest = l.getLast?.map fun v => (f v).1 := by
  obtain ⟨entries, hlisted, hmap⟩ := h
  have hlast := congrArg (fun l => l.getLast?.map Prod.fst) hmap
  simp only [List.getLast?_map, Option.map_map] at hlast
  rw [hlisted.oldest_eq]
  exact hlast.symm

variable [DecidableEq α]

/-- What is found under a key in the list is what stands under it in the table. -/
theorem find? (h : Represents f l g now) (key : α) :
    (g key = none ∧ (l.find? fun v => (f v).1 = key) = none) ∨
    ∃ v t, (l.find? fun v => (f v).1 = key) = some v ∧ v ∈ l ∧ (f v).1 = key ∧
      g key = some ((f v).2, t) := by
  cases hfind : l.find? fun v => decide ((f v).1 = key) with
  | none =>
    refine .inl ⟨?_, rfl⟩
    by_contra hne
    obtain ⟨⟨x, t⟩, hx⟩ := Option.ne_none_iff_exists'.mp hne
    obtain ⟨v, hv, heq⟩ := h.exists_mem hx
    exact List.find?_eq_none.mp hfind v hv (decide_eq_true (congrArg Prod.fst heq))
  | some v =>
    have hmem := List.mem_of_find?_eq_some hfind
    have hkey : (f v).1 = key := by simpa using List.find?_some hfind
    obtain ⟨t, ht⟩ := h.of_mem hmem
    exact .inr ⟨v, t, rfl, hmem, hkey, hkey ▸ ht⟩

theorem filter_map {entries : List (α × γ × Nat)}
    (h : l.map f = entries.map fun e => (e.1, e.2.1)) (key : α) :
    (l.filter fun v => (f v).1 ≠ key).map f =
      (entries.filter fun e => e.1 ≠ key).map fun e => (e.1, e.2.1) := by
  have hleft : (l.filter fun v => (f v).1 ≠ key).map f = (l.map f).filter fun e => e.1 ≠ key := by
    rw [List.filter_map]
    rfl
  rw [hleft, h, List.filter_map]
  rfl

theorem erase (h : Represents f l g now) (key : α) :
    Represents f (l.filter fun v => (f v).1 ≠ key) (Function.update g key none) now := by
  obtain ⟨entries, hlisted, hmap⟩ := h
  exact ⟨_, hlisted.erase key, filter_map hmap key⟩

/-- A use of the key at the present time puts its value at the front. -/
theorem use (h : Represents f l g now) {v : δ} {x : γ} (hv : f v = (key, x)) :
    Represents f (v :: l.filter fun v => (f v).1 ≠ key)
      (Function.update g key (some (x, now))) (now + 1) := by
  obtain ⟨entries, hlisted, hmap⟩ := h
  refine ⟨_, hlisted.use key x, ?_⟩
  rw [List.map_cons, List.map_cons, filter_map hmap, hv]

theorem filter_of_none (h : Represents f l g now) (hkey : g key = none) :
    (l.filter fun v => (f v).1 ≠ key) = l := by
  refine List.filter_eq_self.mpr fun v hv => decide_eq_true fun heq => ?_
  obtain ⟨t, ht⟩ := h.of_mem hv
  cases hkey.symm.trans (heq ▸ ht)

theorem length_erase (h : Represents f l g now) {e : γ × Nat} (hkey : g key = some e) :
    (l.filter fun v => (f v).1 ≠ key).length + 1 = l.length := by
  obtain ⟨v, hv, hfv⟩ := h.exists_mem (x := e.1) (t := e.2) hkey
  have hmem : key ∈ l.map fun v => (f v).1 := List.mem_map.mpr ⟨v, hv, congrArg Prod.fst hfv⟩
  have hcount := List.count_eq_one_of_mem h.nodup_keys hmem
  have hsplit := List.length_eq_length_filter_add (l := l) fun v => decide ((f v).1 ≠ key)
  have hone : (l.filter fun v => !decide ((f v).1 ≠ key)).length = 1 := by
    rw [← hcount, List.count, List.countP_map, List.countP_eq_length_filter]
    refine congrArg List.length (List.filter_congr fun v _ => ?_)
    simp [beq_eq_decide]
  omega

end Represents

end Timed

end Cassem.Lib
