import Mathlib.Order.Lattice
import Cassem.Lib.HierMap

/-!
# Replay over a later state

A history gives the state at every point. An operation that overwrites some places, with
contents that do not depend on what stood there, can be replayed over a state in which later
operations have already left their marks: at each place stands what some point not before the
replay left there. When the replay has passed all these points, the state is the history's.

For hierarchical maps, where an operation must also fit what it meets, a layout says of every
path which kind may stand there. What keeps to the layout always fits.
-/

namespace Cassem.Lib.Replay

universe u v

section Histories

variable {Q : Type u} {X : Type v}

/-- At every place the function keeps what stands there or puts something of its own. -/
def Overwrites (f : (Q → X) → Q → X) : Prop := ∀ q, (∀ s, f s q = s q) ∨ ∃ x, ∀ s, f s q = x

/-- At every place stands what the history leaves there at some point from `lo` to `hi`. -/
def Within (e : Nat → Q → X) (lo hi : Nat) (s : Q → X) : Prop :=
  ∀ q, ∃ j, lo ≤ j ∧ j ≤ hi ∧ s q = e j q

theorem overwrites_id : Overwrites (id : (Q → X) → Q → X) := fun _ => .inl fun _ => rfl

variable {e : Nat → Q → X} {lo hi : Nat} {s : Q → X}

theorem within_point {j : Nat} (hlo : lo ≤ j) (hhi : j ≤ hi) : Within e lo hi (e j) :=
  fun _ => ⟨j, hlo, hhi, rfl⟩

theorem Within.mono (h : Within e lo hi s) {lo' hi' : Nat} (hlo : lo' ≤ lo) (hhi : hi ≤ hi') :
    Within e lo' hi' s := fun q => by
  obtain ⟨j, hj, hj', hq⟩ := h q
  exact ⟨j, hlo.trans hj, hj'.trans hhi, hq⟩

/-- Between a point and itself there is only the state of the history. -/
theorem Within.eq_point (h : Within e lo hi s) (hle : hi ≤ lo) : s = e lo := by
  funext q
  obtain ⟨j, hj, hj', hq⟩ := h q
  obtain rfl : j = lo := by omega
  exact hq

theorem Within.congr (h : Within e lo hi s) {e' : Nat → Q → X} (heq : ∀ j ≤ hi, e' j = e j) :
    Within e' lo hi s := fun q => by
  obtain ⟨j, hj, hj', hq⟩ := h q
  exact ⟨j, hj, hj', by rw [hq, heq j hj']⟩

/-- What holds of every place at every point holds of the state. -/
theorem Within.forall (h : Within e lo hi s) {P : Q → X → Prop} (hP : ∀ j q, P q (e j q)) (q : Q) :
    P q (s q) := by
  obtain ⟨j, -, -, hq⟩ := h q
  rw [hq]
  exact hP j q

/-- Points at which nothing changes can be passed. -/
theorem Within.pass (h : Within e lo hi s) {a : Nat}
    (hquiet : ∀ j, lo ≤ j → j ≤ a → e j = e a) : Within e a (max a hi) s := fun q => by
  obtain ⟨j, hj, hj', hq⟩ := h q
  rcases Nat.le_total a j with haj | hja
  · exact ⟨j, haj, hj'.trans (le_max_right _ _), hq⟩
  · exact ⟨a, le_rfl, le_max_left a hi, by rw [hq, hquiet j hj hja]⟩

/-- The next operation, replayed, takes the state past its own point. -/
theorem Within.step (h : Within e lo hi s) {f : (Q → X) → Q → X} (hf : Overwrites f)
    (hnext : e (lo + 1) = f (e lo)) : Within e (lo + 1) (max (lo + 1) hi) (f s) := by
  intro q
  rcases hf q with hkeep | ⟨x, hx⟩
  · obtain ⟨j, hj, hj', hq⟩ := h q
    rcases Nat.eq_or_lt_of_le hj with rfl | hlt
    · exact ⟨lo + 1, le_rfl, le_max_left _ _, by rw [hkeep, hq, hnext, hkeep]⟩
    · exact ⟨j, hlt, hj'.trans (le_max_right _ _), by rw [hkeep, hq]⟩
  · exact ⟨lo + 1, le_rfl, le_max_left _ _, by rw [hx, hnext, hx]⟩

end Histories

/-! ## Layouts of a hierarchical map -/

section Layouts

open HierMap

variable {κ : Type u} {α : Type v} [DecidableEq κ]

/-- What may stand at a path: a directory, a value, or nothing. -/
abbrev Layout (κ : Type u) := List κ → Option Bool

/-- Everything in the shape is of the kind its path allows. -/
def Conforms (layout : Layout κ) (s : Shape κ α) : Prop :=
  ∀ q c, s q = some c → layout q = some c.isDir

/-- The operation asks no path for the kind the layout excludes, and leaves nothing of it. -/
structure Respects (layout : Layout κ) (o : Op κ α) : Prop where
  needs : ∀ q b, o.needs q = some b → layout q ≠ some (!b)
  leaves : ∀ q c, o.touches q → o.leaves q = some c → layout q = some c.isDir

theorem overwrites_effect (o : Op κ α) : Overwrites o.effect := fun q => by
  by_cases hq : o.touches q
  · exact .inr ⟨o.leaves q, fun s => Op.effect_of_touches hq⟩
  · exact .inl fun s => Op.effect_of_not_touches hq

variable {layout : Layout κ} {s : Shape κ α} {o : Op κ α} {p : List κ} {v : α}

theorem Respects.fits (ho : Respects layout o) (hs : Conforms layout s) : o.Fits s := by
  intro q b c hq hc
  have hno := ho.needs q b hq
  rw [hs q c hc] at hno
  cases b <;> cases h : c.isDir <;> simp_all

theorem Respects.conforms (ho : Respects layout o) (hs : Conforms layout s) : Conforms layout (o.effect s) := by
  intro q c hc
  by_cases hq : o.touches q
  · rw [Op.effect_of_touches hq] at hc
    exact ho.leaves q c hq hc
  · rw [Op.effect_of_not_touches hq] at hc
    exact hs q c hc

/-- Directories all the way down to the path. -/
def DirsTo (layout : Layout κ) (p : List κ) : Prop := ∀ q, q <+: p → layout q = some true

theorem respects_mkdir (h : DirsTo layout p) : Respects layout (.mkdir p : Op κ α) where
  needs q b hq := by
    simp only [Op.needs] at hq
    split at hq
    · next hpre =>
      cases hq
      rw [h q hpre]
      decide
    · cases hq
  leaves q c hq hc := by
    cases hc
    exact h q hq

theorem respects_put {k : κ} (h : DirsTo layout p) (hvalue : layout (p ++ [k]) = some false) :
    Respects layout (.put (p ++ [k]) v : Op κ α) where
  needs q b hq := by
    simp only [Op.needs] at hq
    split at hq
    · next heq =>
      cases hq
      rw [heq, hvalue]
      decide
    · next hne =>
      split at hq
      · next hpre =>
        cases hq
        rw [h q ((List.prefix_concat_iff.mp hpre).resolve_left hne)]
        decide
      · cases hq
  leaves q c hq hc := by
    simp only [Op.leaves] at hc
    split at hc
    · next heq =>
      cases hc
      rw [heq, hvalue]
      rfl
    · next hne =>
      cases hc
      exact h q ((List.prefix_concat_iff.mp hq).resolve_left hne)

theorem respects_del (h : layout p ≠ some true) : Respects layout (.del p : Op κ α) where
  needs q b hq := by
    simp only [Op.needs] at hq
    split at hq
    · next heq =>
      cases hq
      rwa [heq]
    · cases hq
  leaves q c _ hc := by cases hc

theorem respects_rmdir (h : layout p ≠ some false) : Respects layout (.rmdir p : Op κ α) where
  needs q b hq := by
    simp only [Op.needs] at hq
    split at hq
    · next heq =>
      cases hq
      rwa [heq]
    · cases hq
  leaves q c _ hc := by cases hc

end Layouts

end Cassem.Lib.Replay
