import Cassem.Lib.Paging
import Mathlib.Order.BoundedOrder.Basic
import Mathlib.Order.Lattice

/-!
# Scans that are resumed

An ordered listing is read a few entries at a time, each time from where the last time ended, and
changes in between. A cycle begins at the bottom and ends when nothing is left; what is in the
listing all the while is read once in it.
-/

namespace Cassem.Lib

open Paging

universe u

/-- `seek` is where the scan goes on; `seen` is what was read in the current cycle, and `steady`
what has been in the listing since it began. -/
@[ext]
structure ResumedScan (α : Type u) [LinearOrder α] where
  items : List α
  sorted : items.Pairwise (· < ·)
  seek : α
  seen : List α
  steady : List α

namespace ResumedScan

variable {α : Type u} [LinearOrder α]

/-- A scan that begins a cycle at a seek. -/
def startAt (items : List α) (sorted : items.Pairwise (· < ·)) (seek : α) : ResumedScan α where
  items := items
  sorted := sorted
  seek := seek
  seen := []
  steady := upFrom items seek

def left (r : ResumedScan α) : List α := upFrom r.items r.seek

/-- The cycle with what is read now. -/
def cycle (r : ResumedScan α) (limit : Nat) : List α := r.seen ++ r.left.take limit

def change (r : ResumedScan α) (items : List α) (sorted : items.Pairwise (· < ·)) :
    ResumedScan α :=
  { r with items, sorted, steady := r.steady.filter fun x => x ∈ items }

/-- Read up to `limit` entries: begin again if they are the last, else go on after them. -/
def advance [OrderBot α] (next : α → α) (limit : Nat) (r : ResumedScan α) : ResumedScan α :=
  if r.left.length ≤ limit then startAt r.items r.sorted ⊥
  else {
    r with
    seek := ((r.left.take limit).getLast?.map next).getD r.seek
    seen := r.cycle limit }

structure Inv (r : ResumedScan α) : Prop where
  ordered : r.seen.Pairwise (· < ·)
  below : ∀ x ∈ r.seen, x < r.seek
  present : ∀ x ∈ r.steady, x ∈ r.items
  covered : ∀ x ∈ r.steady, x < r.seek → x ∈ r.seen

variable {r : ResumedScan α} {limit : Nat}

theorem inv_startAt (items : List α) (sorted : items.Pairwise (· < ·)) (seek : α) :
    Inv (startAt items sorted seek) where
  ordered := List.Pairwise.nil
  below _ h := absurd h List.not_mem_nil
  present _ h := (List.mem_filter.mp h).1
  covered _ h hlt := absurd hlt (not_lt.mpr (le_of_mem_upFrom h))

theorem Inv.change (h : Inv r) (items : List α) (sorted : items.Pairwise (· < ·)) :
    Inv (r.change items sorted) where
  ordered := h.ordered
  below := h.below
  present _ hx := of_decide_eq_true (List.mem_filter.mp hx).2
  covered x hx hlt := h.covered x (List.mem_filter.mp hx).1 hlt

/-- Nothing is read twice in a cycle, and all in order. -/
theorem Inv.cycle_ordered (h : Inv r) (limit : Nat) : (r.cycle limit).Pairwise (· < ·) := by
  refine List.pairwise_append.mpr ⟨h.ordered, ?_, fun x hx y hy => ?_⟩
  · exact (pairwise_upFrom r.sorted r.seek).sublist (List.take_sublist limit _)
  · exact (h.below x hx).trans_le (le_of_mem_upFrom (List.mem_of_mem_take hy))

/-- When nothing is left the cycle has all that was there throughout. -/
theorem Inv.cycle_covers (h : Inv r) (hend : r.left.length ≤ limit) {x : α} (hx : x ∈ r.steady) :
    x ∈ r.cycle limit := by
  refine List.mem_append.mpr ?_
  by_cases hlt : x < r.seek
  · exact .inl (h.covered x hx hlt)
  · have hleft : x ∈ r.left :=
      List.mem_filter.mpr ⟨h.present x hx, decide_eq_true (not_lt.mp hlt)⟩
    rw [List.take_of_length_le hend]
    exact .inr hleft

/-- What is read of the rest is what lies up to the last of it. -/
theorem mem_taken_iff {as : List α} {last x : α} (hlast : r.left.take limit = as ++ [last])
    (hx : x ∈ r.left) : x ∈ r.left.take limit ↔ x ≤ last := by
  have hsorted : r.left.Pairwise (· < ·) := pairwise_upFrom r.sorted r.seek
  constructor
  · intro hx
    have htaken := hsorted.sublist (List.take_sublist limit _)
    rw [hlast] at hx htaken
    rcases List.mem_append.mp hx with hx | hx
    · exact ((List.pairwise_append.mp htaken).2.2 x hx last List.mem_cons_self).le
    · exact (List.mem_singleton.mp hx).le
  · intro hle
    have hmem : last ∈ r.left.take limit := by rw [hlast]; simp
    rw [← List.take_append_drop limit r.left] at hx hsorted
    rcases List.mem_append.mp hx with hx | hx
    · exact hx
    · have hgt := (List.pairwise_append.mp hsorted).2.2 last hmem x hx
      exact absurd hgt (not_lt.mpr hle)

theorem Inv.advance [OrderBot α] {next : α → α} (hnext : ∀ x y, next x ≤ y ↔ x < y)
    (hlimit : 0 < limit) (h : Inv r) : Inv (r.advance next limit) := by
  have hafter : ∀ {x y}, y < next x ↔ y ≤ x := by
    intro x y
    rw [← not_le, hnext, not_lt]
  unfold ResumedScan.advance
  split
  · exact inv_startAt r.items r.sorted ⊥
  · next hmore =>
    have hne : r.left.take limit ≠ [] := by
      intro hnil
      have hlen := congrArg List.length hnil
      rw [List.length_take, List.length_nil] at hlen
      omega
    obtain ⟨as, last, hlast⟩ := (List.eq_nil_or_concat' (r.left.take limit)).resolve_left hne
    have hget : (r.left.take limit).getLast? = some last := by rw [hlast]; simp
    have hseek : r.seek ≤ last := by
      have hmem : last ∈ r.left.take limit := by rw [hlast]; simp
      exact le_of_mem_upFrom (List.mem_of_mem_take hmem)
    rw [hget]
    refine ⟨h.cycle_ordered limit, fun x hx => hafter.mpr ?_, h.present, fun x hx hlt => ?_⟩
    · rcases List.mem_append.mp hx with hx | hx
      · exact ((h.below x hx).trans_le hseek).le
      · exact (mem_taken_iff hlast (List.mem_of_mem_take hx)).mp hx
    · have hle : x ≤ last := hafter.mp hlt
      refine List.mem_append.mpr ?_
      by_cases hbefore : x < r.seek
      · exact .inl (h.covered x hx hbefore)
      · have hleft : x ∈ r.left :=
          List.mem_filter.mpr ⟨h.present x hx, decide_eq_true (not_lt.mp hbefore)⟩
        exact .inr ((mem_taken_iff hlast hleft).mpr hle)

end ResumedScan

end Cassem.Lib
