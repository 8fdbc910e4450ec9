import Mathlib.Order.Lattice

/-!
# Association lists sorted by key

A finite map kept as a list of pairs in increasing key order. Lookup, insertion
and erasure need no ordering hypothesis; sortedness makes the list canonical, so
that two sorted lists with the same lookups are equal.
-/

namespace Cassem.Lib.SortedMap

universe u v

variable {κ : Type u} {β : Type v} [LinearOrder κ]

def lookup (k : κ) : List (κ × β) → Option β
  | [] => none
  | (k', b) :: m => if k = k' then some b else lookup k m

/-- Insert in key order, replacing an entry of the same key. -/
def insert (k : κ) (b : β) : List (κ × β) → List (κ × β)
  | [] => [(k, b)]
  | (k', b') :: m =>
      if k < k' then (k, b) :: (k', b') :: m
      else if k = k' then (k, b) :: m
      else (k', b') :: insert k b m

def erase (k : κ) (m : List (κ × β)) : List (κ × β) :=
  m.filter (fun e => e.1 ≠ k)

def Sorted (m : List (κ × β)) : Prop := m.Pairwise (fun a b => a.1 < b.1)

@[simp] theorem lookup_nil (k : κ) : lookup k ([] : List (κ × β)) = none := rfl

theorem lookup_cons (k k' : κ) (b : β) (m : List (κ × β)) :
    lookup k ((k', b) :: m) = if k = k' then some b else lookup k m := rfl

theorem lookup_insert (k k' : κ) (b : β) (m : List (κ × β)) :
    lookup k' (insert k b m) = if k' = k then some b else lookup k' m := by
  induction m with
  | nil => rfl
  | cons e m ih =>
    obtain ⟨k₁, b₁⟩ := e
    by_cases hlt : k < k₁
    · simp only [insert, if_pos hlt, lookup_cons]
    · by_cases heq : k = k₁
      · subst heq
        simp only [insert, lt_self_iff_false, ↓reduceIte, lookup_cons]
        split <;> rfl
      · simp only [insert, if_neg hlt, if_neg heq, lookup_cons, ih]
        by_cases h : k' = k₁
        · have hk : k' ≠ k := fun h' => heq (h'.symm.trans h)
          rw [if_pos h, if_neg hk, if_pos h]
        · simp [h]

theorem lookup_erase (k k' : κ) (m : List (κ × β)) :
    lookup k' (erase k m) = if k' = k then none else lookup k' m := by
  induction m with
  | nil => simp [erase]
  | cons e m ih =>
    obtain ⟨k₁, b₁⟩ := e
    by_cases h₁ : k₁ = k
    · have : erase k ((k₁, b₁) :: m) = erase k m := by simp [erase, h₁]
      rw [this, ih, lookup_cons, h₁]
      split <;> rfl
    · have : erase k ((k₁, b₁) :: m) = (k₁, b₁) :: erase k m := by simp [erase, h₁]
      rw [this, lookup_cons, lookup_cons, ih]
      by_cases h : k' = k₁
      · simp [h, h₁]
      · simp [h]

theorem mem_of_lookup {k : κ} {b : β} {m : List (κ × β)} (h : lookup k m = some b) :
    (k, b) ∈ m := by
  induction m with
  | nil => simp at h
  | cons e m ih =>
    obtain ⟨k₁, b₁⟩ := e
    rw [lookup_cons] at h
    split at h
    · next hk => simp_all
    · exact List.mem_cons_of_mem _ (ih h)

theorem lookup_eq_none_of_lt {k : κ} {m : List (κ × β)} (h : ∀ e ∈ m, k < e.1) :
    lookup k m = none := by
  cases hl : lookup k m with
  | none => rfl
  | some b => exact absurd (h _ (mem_of_lookup hl)) (lt_irrefl k)

theorem lookup_of_mem {k : κ} {b : β} {m : List (κ × β)} (hs : Sorted m) (h : (k, b) ∈ m) :
    lookup k m = some b := by
  induction m with
  | nil => simp at h
  | cons e m ih =>
    obtain ⟨hlt, hs'⟩ := List.pairwise_cons.mp hs
    rcases List.mem_cons.mp h with rfl | hm
    · simp [lookup_cons]
    · have hne : k ≠ e.1 := ne_of_gt (hlt _ hm)
      rw [show e = (e.1, e.2) from rfl, lookup_cons, if_neg hne]
      exact ih hs' hm

theorem mem_insert {k : κ} {b : β} {m : List (κ × β)} {e : κ × β} (h : e ∈ insert k b m) :
    e = (k, b) ∨ e ∈ m := by
  induction m with
  | nil => exact Or.inl (by simpa [insert] using h)
  | cons e₁ m ih =>
    obtain ⟨k₁, b₁⟩ := e₁
    simp only [insert] at h
    split at h
    · exact (List.mem_cons.mp h).imp_right id
    · split at h
      · exact (List.mem_cons.mp h).imp_right (List.mem_cons_of_mem _)
      · rcases List.mem_cons.mp h with rfl | h
        · exact Or.inr (List.mem_cons_self ..)
        · exact (ih h).imp_right (List.mem_cons_of_mem _)

theorem sorted_nil : Sorted ([] : List (κ × β)) := List.Pairwise.nil

theorem sorted_insert {k : κ} {b : β} {m : List (κ × β)} (hs : Sorted m) :
    Sorted (insert k b m) := by
  induction m with
  | nil => simp [insert, Sorted]
  | cons e m ih =>
    obtain ⟨k₁, b₁⟩ := e
    obtain ⟨hlt, hs'⟩ := List.pairwise_cons.mp hs
    simp only [insert]
    split
    · next hk =>
      refine List.pairwise_cons.mpr ⟨?_, hs⟩
      intro e he
      rcases List.mem_cons.mp he with rfl | he
      · exact hk
      · exact hk.trans (hlt e he)
    · next hk =>
      split
      · next heq =>
        subst heq
        exact List.pairwise_cons.mpr ⟨hlt, hs'⟩
      · next hne =>
        refine List.pairwise_cons.mpr ⟨?_, ih hs'⟩
        intro e he
        rcases mem_insert he with rfl | he
        · exact lt_of_le_of_ne (not_lt.mp hk) (Ne.symm hne)
        · exact hlt e he

/-- What is put in takes the place of what was there. -/
theorem perm_insert {k : κ} {b : β} {m : List (κ × β)} (hs : Sorted m) :
    (insert k b m).Perm ((k, b) :: erase k m) := by
  induction m with
  | nil => exact .refl _
  | cons e m ih =>
    obtain ⟨hlt, hrest⟩ := List.pairwise_cons.mp hs
    have hne : ∀ k', (∀ e ∈ m, k' < e.1) → m.filter (fun e => decide (e.1 ≠ k')) = m := fun k' h =>
      List.filter_eq_self.mpr fun e he => decide_eq_true (ne_of_gt (h e he))
    unfold insert erase
    split
    · next hk =>
      have hall : ∀ e' ∈ e :: m, k < e'.1 := by
        intro e' he'
        rcases List.mem_cons.mp he' with rfl | he'
        · exact hk
        · exact hk.trans (hlt e' he')
      rw [List.filter_eq_self.mpr fun e' he' => decide_eq_true (ne_of_gt (hall e' he'))]
    · split
      · next hk =>
        subst hk
        rw [List.filter_cons_of_neg (by simp), hne _ hlt]
      · next hk =>
        rw [List.filter_cons_of_pos (by simpa using Ne.symm hk)]
        exact ((ih hrest).cons e).trans (.swap _ _ _)

theorem sorted_erase {k : κ} {m : List (κ × β)} (hs : Sorted m) : Sorted (erase k m) :=
  List.Pairwise.filter _ hs

theorem length_insert_le (k : κ) (b : β) (m : List (κ × β)) :
    (insert k b m).length ≤ m.length + 1 := by
  induction m with
  | nil => exact le_rfl
  | cons e m ih =>
    simp only [insert]
    split
    · exact le_rfl
    · split
      · exact Nat.le_succ _
      · exact Nat.succ_le_succ ih

theorem length_erase_le (k : κ) (m : List (κ × β)) : (erase k m).length ≤ m.length :=
  List.length_filter_le _ _

variable [DecidableEq β]

/-- Inserting adds one value, and may drop another. -/
theorem count_insert_le (k : κ) (b b' : β) (m : List (κ × β)) :
    ((insert k b m).map Prod.snd).count b' ≤
      (m.map Prod.snd).count b' + if b = b' then 1 else 0 := by
  induction m with
  | nil => simp [insert, List.count_singleton]
  | cons e m ih =>
    obtain ⟨k₁, b₁⟩ := e
    simp only [insert]
    split
    · simp [List.count_cons]
    · split
      · simp only [List.map_cons, List.count_cons, beq_iff_eq]
        omega
      · simp only [List.map_cons, List.count_cons, beq_iff_eq] at ih ⊢
        omega

theorem count_erase_le (k : κ) (b : β) (m : List (κ × β)) :
    ((erase k m).map Prod.snd).count b ≤ (m.map Prod.snd).count b :=
  (List.filter_sublist.map _).count_le _

/-- Erasing a key removes its value. -/
theorem count_erase_of_lookup {k : κ} {b : β} (b' : β) {m : List (κ × β)}
    (h : lookup k m = some b) :
    ((erase k m).map Prod.snd).count b' + (if b = b' then 1 else 0) ≤
      (m.map Prod.snd).count b' := by
  induction m with
  | nil => cases h
  | cons e m ih =>
    obtain ⟨k₁, b₁⟩ := e
    rw [lookup_cons] at h
    by_cases hk : k = k₁
    · rw [if_pos hk] at h
      have herase : erase k ((k₁, b₁) :: m) = erase k m := by simp [erase, hk]
      have hle := count_erase_le k b' m
      rw [herase, Option.some.inj h, List.map_cons, List.count_cons]
      simp only [beq_iff_eq]
      omega
    · rw [if_neg hk] at h
      have herase : erase k ((k₁, b₁) :: m) = (k₁, b₁) :: erase k m := by simp [erase, Ne.symm hk]
      have hle := ih h
      rw [herase, List.map_cons, List.map_cons, List.count_cons, List.count_cons]
      omega

omit [DecidableEq β]

/-- Sorted association lists are determined by their lookups. -/
theorem ext_of_lookup {m m' : List (κ × β)} (hs : Sorted m) (hs' : Sorted m')
    (h : ∀ k, lookup k m = lookup k m') : m = m' := by
  induction m generalizing m' with
  | nil =>
    cases m' with
    | nil => rfl
    | cons e m' =>
      have := h e.1
      rw [show e = (e.1, e.2) from rfl, lookup_cons] at this
      simp at this
  | cons e m ih =>
    cases m' with
    | nil =>
      have := h e.1
      rw [show e = (e.1, e.2) from rfl, lookup_cons] at this
      simp at this
    | cons e' m' =>
      obtain ⟨k, b⟩ := e
      obtain ⟨k', b'⟩ := e'
      obtain ⟨hlt, hs⟩ := List.pairwise_cons.mp hs
      obtain ⟨hlt', hs₁⟩ := List.pairwise_cons.mp hs'
      -- the smallest key of each list is a key of the other
      have hle : ¬ k < k' := by
        intro hk
        have hnone : lookup k ((k', b') :: m') = none :=
          lookup_eq_none_of_lt (by
            intro e he
            rcases List.mem_cons.mp he with rfl | he
            · exact hk
            · exact hk.trans (hlt' e he))
        rw [← h k, lookup_cons, if_pos rfl] at hnone
        simp at hnone
      have hge : ¬ k' < k := by
        intro hk
        have hnone : lookup k' ((k, b) :: m) = none :=
          lookup_eq_none_of_lt (by
            intro e he
            rcases List.mem_cons.mp he with rfl | he
            · exact hk
            · exact hk.trans (hlt e he))
        rw [h k', lookup_cons, if_pos rfl] at hnone
        simp at hnone
      have hkk : k = k' := le_antisymm (not_lt.mp hge) (not_lt.mp hle)
      subst hkk
      have hb : b = b' := by
        have := h k
        simpa [lookup_cons] using this
      subst hb
      have hrest : m = m' := by
        refine ih hs hs₁ fun k₁ => ?_
        by_cases hk : k₁ = k
        · subst hk
          rw [lookup_eq_none_of_lt hlt, lookup_eq_none_of_lt hlt']
        · have := h k₁
          simpa [lookup_cons, hk] using this
      rw [hrest]

theorem ext_of_mem {m m' : List (κ × β)} (hs : Sorted m) (hs' : Sorted m')
    (h : ∀ e, e ∈ m ↔ e ∈ m') : m = m' := by
  refine ext_of_lookup hs hs' fun k => Option.ext fun b => ⟨fun hb => ?_, fun hb => ?_⟩
  · exact lookup_of_mem hs' ((h (k, b)).mp (mem_of_lookup hb))
  · exact lookup_of_mem hs ((h (k, b)).mpr (mem_of_lookup hb))

end Cassem.Lib.SortedMap
