import Mathlib.Data.List.Nodup

/-!
# Folds

A fold whose steps may fail, seen through one component of its state. When each
step either replaces the component or leaves it alone, the fold ends with the
last replacement, or with the component as it was. And the fold that adds to a list
what is not in it.
-/

namespace Cassem.Lib.Fold

universe u

variable {ε σ α β : Type u}

theorem bind_eq_ok {x : Except ε α} {f : α → Except ε β} {b : β} (h : x >>= f = .ok b) :
    ∃ a, x = .ok a ∧ f a = .ok b := by
  cases x with
  | error e => cases h
  | ok a => exact ⟨a, rfl, h⟩

theorem map_eq_ok {x : Except ε α} {f : α → β} {b : β} (h : x.map f = .ok b) :
    ∃ a, x = .ok a ∧ f a = b := by
  cases x with
  | error e => cases h
  | ok a => exact ⟨a, rfl, Except.ok.inj h⟩

theorem mapError_ok {ε ε' α : Type*} {f : ε → ε'} {x : Except ε α} {a : α}
    (h : x.mapError f = .ok a) : x = .ok a := by
  cases x with
  | error e => cases h
  | ok b => cases h; rfl

theorem forM_ok {α : Type u} {f : α → Except ε PUnit} {l : List α} :
    l.forM f = .ok ⟨⟩ ↔ ∀ a ∈ l, f a = .ok ⟨⟩ := by
  induction l with
  | nil => exact iff_of_true rfl (List.forall_mem_nil _)
  | cons a l ih =>
    rw [List.forall_mem_cons, ← ih]
    show (f a >>= fun _ => l.forM f) = _ ↔ _
    cases f a with
    | error e => simp [bind, Except.bind]
    | ok u => simp [bind, Except.bind]

theorem foldlM_last {f : σ → α → Except ε σ} (π : σ → β) (put : α → Option β) {l : List α}
    (hstep : ∀ a ∈ l, ∀ s s', f s a = .ok s' → π s' = (put a).getD (π s)) {s s' : σ}
    (h : l.foldlM f s = .ok s') : π s' = (l.filterMap put).getLast?.getD (π s) := by
  induction l generalizing s with
  | nil => cases h; rfl
  | cons a l ih =>
    rw [List.foldlM_cons] at h
    obtain ⟨s₁, h₁, hrest⟩ := bind_eq_ok h
    have hhead := hstep a List.mem_cons_self s s₁ h₁
    have htail := ih (fun x hx => hstep x (List.mem_cons_of_mem _ hx)) hrest
    rw [htail, hhead]
    cases ha : put a with
    | none => rw [List.filterMap_cons_none ha, Option.getD_none]
    | some b => rw [List.filterMap_cons_some ha, List.getLast?_cons, Option.getD_some, Option.getD_some]

theorem foldlM_keeps {f : σ → α → Except ε σ} {Inv : σ → Prop} {l : List α}
    (hstep : ∀ a ∈ l, ∀ s s', Inv s → f s a = .ok s' → Inv s') {s s' : σ} (hs : Inv s)
    (h : l.foldlM f s = .ok s') : Inv s' := by
  induction l generalizing s with
  | nil =>
    cases h
    exact hs
  | cons a l ih =>
    rw [List.foldlM_cons] at h
    obtain ⟨s₁, h₁, hrest⟩ := bind_eq_ok h
    exact ih (fun x hx => hstep x (List.mem_cons_of_mem _ hx))
      (hstep a List.mem_cons_self s s₁ hs h₁) hrest

/-- The component that only one element of the list writes. -/
theorem foldlM_at [DecidableEq α] {f : σ → α → Except ε σ} (π : σ → β) {l : List α} {a : α}
    {b : Option β} (ha : a ∈ l)
    (hkeep : ∀ x ∈ l, x ≠ a → ∀ s s', f s x = .ok s' → π s' = π s)
    (hput : ∀ s s', f s a = .ok s' → π s' = b.getD (π s)) {s s' : σ}
    (h : l.foldlM f s = .ok s') : π s' = b.getD (π s) := by
  have hlast := foldlM_last π (fun x => if x = a then b else none)
    (fun x hx s s' hs => ?_) h
  · rw [hlast]
    cases b with
    | none => simp
    | some b =>
      have hall : ∀ y ∈ l.filterMap (fun x => if x = a then some b else none), y = b := by
        intro y hy
        obtain ⟨x, -, hx⟩ := List.mem_filterMap.mp hy
        split at hx <;> cases hx
        rfl
      have hmem : b ∈ l.filterMap (fun x => if x = a then some b else none) :=
        List.mem_filterMap.mpr ⟨a, ha, if_pos rfl⟩
      have hne := List.ne_nil_of_mem hmem
      rw [List.getLast?_eq_some_getLast hne, hall _ (List.getLast_mem hne)]
  · by_cases hxa : x = a
    · subst hxa
      rw [if_pos rfl]
      exact hput s s' hs
    · rw [if_neg hxa]
      exact hkeep x hx hxa s s' hs

/-! ## Adding what is new -/

section AddNew

variable {α : Type u} [DecidableEq α]

def addNew (l : List α) (a : α) : List α := if a ∈ l then l else l ++ [a]

theorem mem_addNew {l : List α} {a b : α} : b ∈ addNew l a ↔ b ∈ l ∨ b = a := by
  unfold addNew
  split
  · next h => exact ⟨.inl, fun hb => hb.elim id fun heq => heq ▸ h⟩
  · rw [List.mem_append, List.mem_singleton]

theorem addNew_addNew (l : List α) (a : α) : addNew (addNew l a) a = addNew l a := by
  have hmem : a ∈ addNew l a := mem_addNew.mpr (.inr rfl)
  rw [addNew, if_pos hmem]

theorem nodup_addNew {l : List α} (h : l.Nodup) (a : α) : (addNew l a).Nodup := by
  unfold addNew
  split
  · exact h
  · next hnew =>
    exact List.nodup_append.mpr ⟨h, List.nodup_singleton _, fun b hb c hc heq =>
      hnew (List.mem_singleton.mp hc ▸ heq ▸ hb)⟩

theorem mem_foldl_addNew {as l : List α} {b : α} :
    b ∈ as.foldl addNew l ↔ b ∈ l ∨ b ∈ as := by
  induction as generalizing l with
  | nil => simp
  | cons a as ih => rw [List.foldl_cons, ih, mem_addNew, or_assoc, List.mem_cons]

/-- Nothing is left out of a list without duplicates. -/
theorem foldl_addNew_of_nodup {as l : List α} (h : (l ++ as).Nodup) :
    as.foldl addNew l = l ++ as := by
  induction as generalizing l with
  | nil => exact (List.append_nil l).symm
  | cons a as ih =>
    have hnew : a ∉ l := fun hmem =>
      (List.nodup_append.mp h).2.2 a hmem a List.mem_cons_self rfl
    rw [List.foldl_cons, addNew, if_neg hnew, ih (by rwa [List.append_assoc]), List.append_assoc]
    rfl

end AddNew

end Cassem.Lib.Fold
