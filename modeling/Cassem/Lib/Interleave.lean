import Mathlib.Data.List.Pairwise
import Mathlib.Data.List.Nodup

/-!
# Sequences that are taken from side by side

Several sequences are each taken from the front, in any order. What was taken and what is left
have the same entries together as the sequences had. Where only one of them has any entries, they
are taken in its order.
-/

namespace Cassem.Lib.Interleave

variable {α : Type*} {slots slots' : List (List α)} {out total : List α}

/-- What is taken from the front of one of the sequences, and what it leaves; in between they may
be rearranged. -/
inductive Pull (slots : List (List α)) : List α → List (List α) → Prop
  | rearrange {slots' : List (List α)} (h : slots.Perm slots') : Pull slots [] slots'
  | take {slots' rest : List (List α)} {out l : List α}
      (h : slots.Perm ((out ++ l) :: rest)) (h' : slots'.Perm (l :: rest)) : Pull slots out slots'

theorem Pull.perm (h : Pull slots out slots') : slots.flatten.Perm (out ++ slots'.flatten) := by
  cases h with
  | rearrange h => exact h.flatten
  | @take _ rest _ l h h' =>
    have hbefore := h.flatten
    have hafter := h'.flatten
    rw [List.flatten_cons, List.append_assoc] at hbefore
    rw [List.flatten_cons] at hafter
    exact hbefore.trans (hafter.symm.append_left out)

theorem Pull.append_left (h : Pull slots out slots') (more : List (List α)) :
    Pull (more ++ slots) out (more ++ slots') := by
  cases h with
  | rearrange h => exact .rearrange (h.append_left more)
  | @take _ rest _ l h h' =>
    have hbefore := (h.append_left more).trans List.perm_middle
    have hafter := (h'.append_left more).trans List.perm_middle
    exact .take hbefore hafter

/-- Taking from the sequence at a place. -/
theorem Pull.set {k : Nat} {l : List α} (h : slots[k]? = some (out ++ l)) :
    Pull slots out (slots.set k l) := by
  obtain ⟨hk, hget⟩ := List.getElem?_eq_some_iff.mp h
  have hsplit : slots = slots.take k ++ (out ++ l) :: slots.drop (k + 1) := by
    rw [← hget, ← List.drop_eq_getElem_cons hk, List.take_append_drop]
  have hset : slots.set k l = slots.take k ++ l :: slots.drop (k + 1) := by
    rw [List.set_eq_take_append_cons_drop, if_pos hk]
  have hbefore := (List.Perm.of_eq hsplit).trans List.perm_middle
  have hafter := (List.Perm.of_eq hset).trans List.perm_middle
  exact .take hbefore hafter

/-! ## One sequence alone -/

/-- At most one of the sequences has any entries. -/
def Lone (slots : List (List α)) : Prop := slots.Pairwise fun l l' => l = [] ∨ l' = []

theorem lone_map_iff {κ : Type*} {keys : List κ} (hnodup : keys.Nodup) {f : κ → List α} :
    Lone (keys.map f) ↔ ∀ key ∈ keys, ∀ key' ∈ keys, f key ≠ [] → f key' ≠ [] → key = key' := by
  unfold Lone
  rw [List.pairwise_map]
  constructor
  · intro h key hkey key' hkey' hne hne'
    by_contra hdiff
    have hsymm : Std.Symm fun key key' => f key = [] ∨ f key' = [] := ⟨fun _ _ hor => hor.symm⟩
    exact (h.forall hkey hkey' hdiff).elim hne hne'
  · intro h
    refine hnodup.pairwise_of_forall_ne fun key hkey key' hkey' hdiff => ?_
    by_contra hboth
    obtain ⟨hne, hne'⟩ := not_or.mp hboth
    exact hdiff (h key hkey key' hkey' hne hne')

theorem Lone.of_perm (h : Lone slots) (hperm : slots.Perm slots') : Lone slots' :=
  (hperm.pairwise_iff fun h => h.symm).mp h

theorem Lone.flatten_perm (h : Lone slots) (hperm : slots.Perm slots') :
    slots.flatten = slots'.flatten := by
  induction hperm with
  | nil => rfl
  | cons l hperm ih => rw [List.flatten_cons, List.flatten_cons, ih (List.pairwise_cons.mp h).2]
  | swap l l' rest =>
    have hone := (List.pairwise_cons.mp h).1 l List.mem_cons_self
    rcases hone with rfl | rfl <;> simp
  | trans hfirst _ ih ih' => exact (ih h).trans (ih' (h.of_perm hfirst))

theorem Lone.pull (h : Lone slots) (hpull : Pull slots out slots') :
    Lone slots' ∧ slots.flatten = out ++ slots'.flatten := by
  cases hpull with
  | rearrange hperm => exact ⟨h.of_perm hperm, h.flatten_perm hperm⟩
  | @take _ rest _ l hbefore hafter =>
    have hcons := List.pairwise_cons.mp (h.of_perm hbefore)
    have hleft : Lone (l :: rest) := by
      refine List.pairwise_cons.mpr ⟨fun l' hl' => ?_, hcons.2⟩
      exact (hcons.1 l' hl').imp_left fun hnil => (List.append_eq_nil_iff.mp hnil).2
    refine ⟨hleft.of_perm hafter.symm, ?_⟩
    rw [h.flatten_perm hbefore, ← hleft.flatten_perm hafter.symm, List.flatten_cons,
      List.flatten_cons, List.append_assoc]

theorem Lone.flatten_of_mem (h : Lone slots) {l : List α} (hl : l ∈ slots) (hne : l ≠ []) :
    slots.flatten = l := by
  obtain ⟨before, after, rfl⟩ := List.append_of_mem hl
  have hperm : (before ++ l :: after).Perm (l :: (before ++ after)) := List.perm_middle
  have hcons := (List.pairwise_cons.mp (h.of_perm hperm)).1
  have hnil : (before ++ after).flatten = [] :=
    List.flatten_eq_nil_iff.mpr fun l' hl' => (hcons l' hl').resolve_left hne
  rw [h.flatten_perm hperm, List.flatten_cons, hnil, List.append_nil]

/-- An entry is in one sequence only. -/
theorem eq_of_mem_flatten (hnodup : slots.flatten.Nodup) {l l' : List α} {a : α}
    (hl : l ∈ slots) (hl' : l' ∈ slots) (ha : a ∈ l) (ha' : a ∈ l') : l = l' := by
  by_contra hdiff
  have hsymm : Std.Symm (List.Disjoint (α := α)) := ⟨fun _ _ h _ ha ha' => h ha' ha⟩
  exact (List.nodup_flatten.mp hnodup).2.forall hl hl' hdiff ha ha'

/-- Sequences without common entries that can each come first. -/
theorem lone_of_first (hnodup : slots.flatten.Nodup)
    (h : ∀ l ∈ slots, ∃ first, first.Perm l ∧ first <+: total) : Lone slots := by
  refine (List.nodup_flatten.mp hnodup).2.imp_of_mem fun {l l'} hl hl' hdisjoint => ?_
  obtain ⟨first, hperm, rest, hrest⟩ := h l hl
  obtain ⟨first', hperm', rest', hrest'⟩ := h l' hl'
  cases first with
  | nil => exact .inl hperm.nil_eq.symm
  | cons a first =>
    cases first' with
    | nil => exact .inr hperm'.nil_eq.symm
    | cons a' first' =>
      obtain rfl : a = a' := List.head_eq_of_cons_eq (hrest.trans hrest'.symm)
      exact absurd (hperm'.mem_iff.mp List.mem_cons_self)
        fun hmem => hdisjoint (hperm.mem_iff.mp List.mem_cons_self) hmem

end Cassem.Lib.Interleave
