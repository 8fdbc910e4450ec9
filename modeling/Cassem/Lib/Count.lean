import Mathlib.Algebra.GroupWithZero.Nat
import Mathlib.Algebra.Order.BigOperators.Group.List
import Mathlib.Algebra.Order.Ring.Nat
import Mathlib.Data.List.Basic
import Mathlib.Data.List.Sort

/-!
# Counting the elements of a list that have a property

How the count, or the sum of a measure, changes when one element is replaced or removed, and
what a count of at most one says about two elements that are counted. A list that is the image of
itself under a function that makes nothing heavier has every element's weight kept. The first of a
list in decreasing order are those with few above them.
-/

namespace Cassem.Lib.Count

universe u

variable {α : Type u} {p : α → Bool}

theorem countP_set {l : List α} {i : Nat} {a : α} (h : l[i]? = some a) (b : α) :
    (l.set i b).countP p + (if p a then 1 else 0) = l.countP p + (if p b then 1 else 0) := by
  induction l generalizing i with
  | nil => cases h
  | cons c l ih =>
    cases i with
    | zero =>
      cases h
      simp only [List.set_cons_zero, List.countP_cons]
      omega
    | succ i =>
      have := ih (i := i) h
      simp only [List.set_cons_succ, List.countP_cons]
      omega

theorem countP_eraseIdx {l : List α} {i : Nat} {a : α} (h : l[i]? = some a) :
    (l.eraseIdx i).countP p + (if p a then 1 else 0) = l.countP p := by
  induction l generalizing i with
  | nil => cases h
  | cons c l ih =>
    cases i with
    | zero =>
      cases h
      simp only [List.eraseIdx_cons_zero, List.countP_cons]
    | succ i =>
      have := ih (i := i) h
      simp only [List.eraseIdx_cons_succ, List.countP_cons]
      omega

theorem countP_pos {l : List α} {i : Nat} {a : α} (h : l[i]? = some a) (ha : p a = true) :
    0 < l.countP p :=
  List.countP_pos_iff.mpr ⟨a, List.mem_of_getElem? h, ha⟩

/-- If at most one element is counted, two that are counted stand at one place. -/
theorem index_unique {l : List α} (hl : l.countP p ≤ 1) {i j : Nat} {a b : α}
    (hi : l[i]? = some a) (hj : l[j]? = some b) (ha : p a = true) (hb : p b = true) : i = j := by
  induction l generalizing i j with
  | nil => cases hi
  | cons c l ih =>
    rw [List.countP_cons] at hl
    cases i with
    | zero =>
      cases j with
      | zero => rfl
      | succ j =>
        cases hi
        have := countP_pos (p := p) (i := j) (l := l) hj hb
        rw [if_pos ha] at hl
        omega
    | succ i =>
      cases j with
      | zero =>
        cases hj
        have := countP_pos (p := p) (i := i) (l := l) hi ha
        rw [if_pos hb] at hl
        omega
      | succ j => rw [ih (by omega) (i := i) (j := j) hi hj]

theorem sum_map_set (f : α → Nat) {l : List α} {i : Nat} {a : α} (h : l[i]? = some a) (b : α) :
    ((l.set i b).map f).sum + f a = (l.map f).sum + f b := by
  induction l generalizing i with
  | nil => cases h
  | cons c l ih =>
    cases i with
    | zero =>
      cases h
      simp only [List.set_cons_zero, List.map_cons, List.sum_cons]
      omega
    | succ i =>
      have := ih (i := i) h
      simp only [List.set_cons_succ, List.map_cons, List.sum_cons]
      omega

/-! ## A list that a partial function maps onto itself -/

section FilterMap

variable {f : α → Option α} {l : List α} (w : α → Nat)

/-- What the image of an element weighs. -/
def imageWeight (f : α → Option α) (a : α) : Nat := (f a).elim 0 w

theorem sum_filterMap (f : α → Option α) (l : List α) :
    ((l.filterMap f).map w).sum = (l.map (imageWeight w f)).sum := by
  induction l with
  | nil => rfl
  | cons a l ih =>
    rw [List.filterMap_cons, List.map_cons, List.sum_cons, ← ih]
    cases hf : f a with
    | none => simp [imageWeight, hf]
    | some b => simp [imageWeight, hf]

/-- No image weighs more than its element, so each weighs as much. -/
theorem imageWeight_eq (hperm : (l.filterMap f).Perm l)
    (hle : ∀ a ∈ l, ∀ b, f a = some b → w b ≤ w a) : ∀ a ∈ l, imageWeight w f a = w a := by
  have hpoint : ∀ a ∈ l, imageWeight w f a ≤ w a := by
    intro a ha
    unfold imageWeight
    cases hf : f a with
    | none => exact Nat.zero_le _
    | some b => exact hle a ha b hf
  have hsum : (l.map (imageWeight w f)).sum = (l.map w).sum := by
    rw [← sum_filterMap]
    exact (hperm.map w).sum_eq
  clear hperm hle
  induction l with
  | nil =>
    intro a ha
    cases ha
  | cons a l ih =>
    have hhead := hpoint a List.mem_cons_self
    have htail := fun b (hb : b ∈ l) => hpoint b (List.mem_cons_of_mem _ hb)
    have hrest := List.sum_le_sum htail
    simp only [List.map_cons, List.sum_cons] at hsum
    intro b hb
    rcases List.mem_cons.mp hb with rfl | hb
    · omega
    · exact ih htail (by omega) b hb

theorem exists_image (hperm : (l.filterMap f).Perm l) {a : α} (ha : a ∈ l) :
    ∃ b, f a = some b := by
  have hone := imageWeight_eq (fun _ => 1) hperm (fun _ _ _ _ => le_refl _) a ha
  unfold imageWeight at hone
  cases hf : f a with
  | none =>
    rw [hf] at hone
    cases hone
  | some b => exact ⟨b, rfl⟩

theorem image_eq (hperm : (l.filterMap f).Perm l)
    (hle : ∀ a ∈ l, ∀ b, f a = some b → w b ≤ w a) {a b : α} (ha : a ∈ l) (hf : f a = some b) :
    w b = w a := by
  have heq := imageWeight_eq w hperm hle a ha
  unfold imageWeight at heq
  rw [hf] at heq
  exact heq

end FilterMap

section Rank

variable {β : Type*} [LinearOrder β] {f : α → β}

/-- Of a list in decreasing order, the first `k` are those with fewer than `k` above them. -/
theorem mem_take_iff_countP {l : List α} (h : l.Pairwise fun a b => f b < f a) {a : α} (ha : a ∈ l)
    (k : Nat) : a ∈ l.take k ↔ l.countP (fun b => f a < f b) < k := by
  induction l generalizing k with
  | nil => cases ha
  | cons c l ih =>
    obtain ⟨hbelow, hrest⟩ := List.pairwise_cons.mp h
    cases k with
    | zero => simp
    | succ k =>
      rw [List.take_succ_cons, List.mem_cons, List.countP_cons]
      rcases List.mem_cons.mp ha with rfl | ha
      · have hnone : l.countP (fun b => decide (f a < f b)) = 0 :=
          List.countP_eq_zero.mpr fun b hb hlt => lt_asymm (of_decide_eq_true hlt) (hbelow b hb)
        simp [hnone]
      · have hne : a ≠ c := fun heq => lt_irrefl _ (heq ▸ hbelow a ha)
        rw [if_pos (decide_eq_true (hbelow a ha)), Nat.add_lt_add_iff_right, ← ih hrest ha k]
        exact or_iff_right hne

/-- Where no two are equal, a list and its decreasing order have the same ones in front. -/
theorem mem_take_sort {l : List α} {r : α → α → Prop} [DecidableRel r] [Std.Total r] [IsTrans α r]
    (hr : ∀ a b, r a b ↔ f b ≤ f a) (hdistinct : (l.map f).Nodup) {a : α} (ha : a ∈ l) (k : Nat) :
    a ∈ (l.insertionSort r).take k ↔ l.countP (fun b => f a < f b) < k := by
  have hperm := l.perm_insertionSort r
  have hsorted : (l.insertionSort r).Pairwise fun a b => f b < f a := by
    have hne := List.pairwise_map.mp ((hperm.map f).nodup_iff.mpr hdistinct)
    refine ((l.pairwise_insertionSort r).and hne).imp fun h => ?_
    exact lt_of_le_of_ne ((hr _ _).mp h.1) (Ne.symm h.2)
  rw [mem_take_iff_countP hsorted (hperm.mem_iff.mpr ha) k, hperm.countP_eq]

end Rank

end Cassem.Lib.Count
