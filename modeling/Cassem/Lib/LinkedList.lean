import Mathlib.Data.List.Nodup
import Mathlib.Logic.Function.Basic

/-!
# Linked lists

A list whose elements keep their identity, a number, while they are moved or given another value,
as those of a doubly linked list do for who holds a pointer to them.
-/

namespace Cassem.Lib

structure LinkedList (V : Type) where
  elements : List (Nat × V)
  made : Nat
  nodup : (elements.map Prod.fst).Nodup
  bounded : ∀ e ∈ elements, e.1 < made

namespace LinkedList

variable {V : Type}

def empty : LinkedList V := ⟨[], 0, .nil, fun e he => by cases he⟩

/-- The list without its elements. -/
def init (l : LinkedList V) : LinkedList V := ⟨[], l.made, .nil, fun e he => by cases he⟩

def values (l : LinkedList V) : List V := l.elements.map Prod.snd

/-- The value of an element of the list. -/
def value (l : LinkedList V) (item : Nat) : Option V :=
  (l.elements.find? fun e => e.1 = item).map Prod.snd

def back (l : LinkedList V) : Option Nat := l.elements.getLast?.map Prod.fst

/-- The new element is `l.made`. -/
def pushFront (l : LinkedList V) (v : V) : LinkedList V where
  elements := (l.made, v) :: l.elements
  made := l.made + 1
  nodup := by
    refine List.nodup_cons.mpr ⟨fun hmem => ?_, l.nodup⟩
    obtain ⟨e, he, heq⟩ := List.mem_map.mp hmem
    exact Nat.lt_irrefl _ (heq ▸ l.bounded e he)
  bounded e he := by
    rcases List.mem_cons.mp he with rfl | he
    · exact Nat.lt_succ_self _
    · exact Nat.lt_succ_of_lt (l.bounded e he)

def remove (l : LinkedList V) (item : Nat) : LinkedList V where
  elements := l.elements.filter fun e => e.1 ≠ item
  made := l.made
  nodup := l.nodup.sublist (List.filter_sublist.map Prod.fst)
  bounded e he := l.bounded e (List.mem_of_mem_filter he)

/-- The element gets the value and goes to the front. -/
def moveToFront (l : LinkedList V) (item : Nat) (v : V) : LinkedList V :=
  if h : item < l.made then
    { elements := (item, v) :: (l.remove item).elements
      made := l.made
      nodup := by
        refine List.nodup_cons.mpr ⟨fun hmem => ?_, (l.remove item).nodup⟩
        obtain ⟨e, he, heq⟩ := List.mem_map.mp hmem
        exact of_decide_eq_true (List.mem_filter.mp he).2 heq
      bounded := fun e he => by
        rcases List.mem_cons.mp he with rfl | he
        · exact h
        · exact (l.remove item).bounded e he }
  else l

variable {l : LinkedList V} {item : Nat} {v : V}

theorem eq_of_mem {e e' : Nat × V} (he : e ∈ l.elements) (he' : e' ∈ l.elements)
    (h : e.1 = e'.1) : e = e' :=
  List.inj_on_of_nodup_map l.nodup he he' h

theorem value_eq_some : l.value item = some v ↔ (item, v) ∈ l.elements := by
  unfold value
  constructor
  · intro h
    obtain ⟨e, he, rfl⟩ := Option.map_eq_some_iff.mp h
    have hitem : e.1 = item := by simpa using List.find?_some he
    exact hitem ▸ List.mem_of_find?_eq_some he
  · intro h
    obtain ⟨e, he⟩ : ∃ e, l.elements.find? (fun e => decide (e.1 = item)) = some e :=
      Option.isSome_iff_exists.mp (List.find?_isSome.mpr ⟨_, h, decide_eq_true rfl⟩)
    have hitem : e.1 = item := by simpa using List.find?_some he
    rw [he, Option.map_some, eq_of_mem (List.mem_of_find?_eq_some he) h hitem]

theorem moveToFront_elements (h : (item, v) ∈ l.elements) (v' : V) :
    (l.moveToFront item v').elements = (item, v') :: (l.remove item).elements := by
  unfold moveToFront
  rw [dif_pos (l.bounded _ h)]

/-- What is said of the values picks out one element if it is true of its value alone. -/
theorem remove_values {p : V → Prop} [DecidablePred p]
    (h : ∀ e ∈ l.elements, e.1 = item ↔ p e.2) :
    (l.remove item).values = l.values.filter fun v => ¬ p v := by
  unfold values remove
  rw [List.filter_map]
  refine congrArg (List.map Prod.snd) (List.filter_congr fun e he => ?_)
  exact decide_eq_decide.mpr (not_congr (h e he))

/-! ## An index by a key of the values -/

/-- The map has the element of each key, and of no other key one. -/
def Index {α : Type} (key : V → α) (l : LinkedList V) (items : α → Option Nat) : Prop :=
  ∀ k item, items k = some item ↔ ∃ v, (item, v) ∈ l.elements ∧ key v = k

namespace Index

variable {α : Type} {key : V → α} {items : α → Option Nat} {k : α}

theorem empty (key : V → α) : Index key empty fun _ => none :=
  fun _ _ => ⟨fun h => (by cases h), fun ⟨_, h, _⟩ => (by cases h)⟩

theorem init (key : V → α) (l : LinkedList V) : Index key l.init fun _ => none :=
  fun _ _ => ⟨fun h => (by cases h), fun ⟨_, h, _⟩ => (by cases h)⟩

theorem of_mem (h : Index key l items) (hmem : (item, v) ∈ l.elements) :
    items (key v) = some item :=
  (h _ _).mpr ⟨v, hmem, rfl⟩

theorem value (h : Index key l items) (hk : items k = some item) :
    ∃ v, l.value item = some v ∧ key v = k ∧ v ∈ l.values := by
  obtain ⟨v, hmem, hv⟩ := (h k item).mp hk
  exact ⟨v, value_eq_some.mpr hmem, hv, List.mem_map.mpr ⟨_, hmem, rfl⟩⟩

theorem eq_none_iff (h : Index key l items) : items k = none ↔ ∀ v ∈ l.values, key v ≠ k := by
  constructor
  · intro hk v hv heq
    obtain ⟨⟨item, w⟩, hmem, rfl⟩ := List.mem_map.mp hv
    cases hk.symm.trans (heq ▸ h.of_mem hmem)
  · intro hall
    by_contra hne
    obtain ⟨item, hitem⟩ := Option.ne_none_iff_exists'.mp hne
    obtain ⟨v, -, hv, hmem⟩ := h.value hitem
    exact hall v hmem hv

theorem nodup_keys (h : Index key l items) : (l.values.map key).Nodup := by
  rw [values, List.map_map]
  refine List.pairwise_map.mpr ((List.pairwise_map.mp l.nodup).imp_of_mem ?_)
  rintro ⟨item, v⟩ ⟨item', v'⟩ hv hv' hne heq
  have heq' : key v = key v' := heq
  exact hne (Option.some.inj ((h.of_mem hv).symm.trans (heq' ▸ h.of_mem hv')))

/-- The last value of the list is under the key that the map has for the last element. -/
theorem back (h : Index key l items) :
    (l.back = none ∧ l.values.getLast? = none) ∨
    ∃ item v, l.back = some item ∧ l.values.getLast? = some v ∧ l.value item = some v ∧
      items (key v) = some item := by
  unfold LinkedList.back values
  rw [List.getLast?_map]
  cases hlast : l.elements.getLast? with
  | none => exact .inl ⟨rfl, rfl⟩
  | some e =>
    have hmem := List.mem_of_getLast? hlast
    exact .inr ⟨e.1, e.2, rfl, rfl, value_eq_some.mpr hmem, h.of_mem hmem⟩

/-- The element of a key is the one whose value has the key. -/
theorem picks (h : Index key l items) (hk : items k = some item) :
    ∀ e ∈ l.elements, e.1 = item ↔ key e.2 = k := by
  intro e he
  obtain ⟨v, hmem, hv⟩ := (h k item).mp hk
  constructor
  · intro hitem
    rw [eq_of_mem he hmem hitem]
    exact hv
  · intro heq
    have hitem := h.of_mem he
    rw [heq, hk] at hitem
    exact (Option.some.inj hitem).symm

variable [DecidableEq α]

theorem remove (h : Index key l items) (hk : items k = some item) :
    Index key (l.remove item) (Function.update items k none) ∧
      (l.remove item).values = l.values.filter fun v => ¬ key v = k := by
  refine ⟨fun k' item' => ?_, remove_values (h.picks hk)⟩
  have hkept : (∃ v, (item', v) ∈ (l.remove item).elements ∧ key v = k') ↔
      k' ≠ k ∧ ∃ v, (item', v) ∈ l.elements ∧ key v = k' := by
    constructor
    · rintro ⟨v, hmem, rfl⟩
      obtain ⟨hmem, hne⟩ := List.mem_filter.mp hmem
      refine ⟨fun heq => ?_, v, hmem, rfl⟩
      exact of_decide_eq_true hne ((h.picks hk _ hmem).mpr heq)
    · rintro ⟨hne, v, hmem, rfl⟩
      refine ⟨v, List.mem_filter.mpr ⟨hmem, decide_eq_true fun heq => ?_⟩, rfl⟩
      exact hne ((h.picks hk _ hmem).mp heq)
  rw [hkept]
  by_cases hk' : k' = k
  · subst hk'
    simp
  · rw [Function.update_of_ne hk', h k' item']
    exact ⟨fun h => ⟨hk', h⟩, fun h => h.2⟩

theorem pushFront (h : Index key l items) (hk : items (key v) = none) :
    Index key (l.pushFront v) (Function.update items (key v) (some l.made)) ∧
      (l.pushFront v).values = v :: l.values := by
  refine ⟨fun k' item' => ?_, rfl⟩
  have hmem : ∀ w, (item', w) ∈ (l.pushFront v).elements ↔
      (item' = l.made ∧ w = v) ∨ (item', w) ∈ l.elements := by
    intro w
    show (item', w) ∈ (l.made, v) :: l.elements ↔ _
    rw [List.mem_cons, Prod.mk.injEq]
  simp only [hmem]
  by_cases hk' : k' = key v
  · subst hk'
    rw [Function.update_self]
    constructor
    · intro heq
      exact ⟨v, .inl ⟨(Option.some.inj heq).symm, rfl⟩, rfl⟩
    · rintro ⟨w, ⟨rfl, -⟩ | hold, hw⟩
      · rfl
      · cases hk.symm.trans (hw ▸ h.of_mem hold)
  · rw [Function.update_of_ne hk', h k' item']
    constructor
    · rintro ⟨w, hold, hw⟩
      exact ⟨w, .inr hold, hw⟩
    · rintro ⟨w, ⟨-, rfl⟩ | hold, hw⟩
      · exact absurd hw.symm hk'
      · exact ⟨w, hold, hw⟩

theorem moveToFront (h : Index key l items) (hk : items (key v) = some item) :
    Index key (l.moveToFront item v) items ∧
      (l.moveToFront item v).values = v :: l.values.filter fun w => ¬ key w = key v := by
  obtain ⟨hremoved, hvalues⟩ := h.remove hk
  obtain ⟨w, hmem, -⟩ := (h _ item).mp hk
  have helements := moveToFront_elements hmem v
  refine ⟨fun k' item' => ?_, ?_⟩
  · rw [helements]
    simp only [List.mem_cons, Prod.mk.injEq]
    by_cases hk' : k' = key v
    · subst hk'
      constructor
      · intro hitem
        rw [hk] at hitem
        exact ⟨v, .inl ⟨(Option.some.inj hitem).symm, rfl⟩, rfl⟩
      · rintro ⟨w, ⟨rfl, -⟩ | hold, hw⟩
        · exact hk
        · have hgone := hremoved.of_mem hold
          rw [hw, Function.update_self] at hgone
          cases hgone
    · have hother := hremoved k' item'
      rw [Function.update_of_ne hk'] at hother
      rw [hother]
      constructor
      · rintro ⟨w, hold, hw⟩
        exact ⟨w, .inr hold, hw⟩
      · rintro ⟨w, ⟨-, rfl⟩ | hold, hw⟩
        · exact absurd hw.symm hk'
        · exact ⟨w, hold, hw⟩
  · rw [values, helements, List.map_cons, ← hvalues]
    rfl

end Index

end LinkedList

end Cassem.Lib
