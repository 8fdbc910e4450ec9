import Cassem.Lib.Tree

/-!
# Operations on a hierarchical map

A shape says what stands at every path. Each operation needs certain paths to be
directories or values, or not to exist; where the needs are met it overwrites the
paths it touches by cells that do not depend on the shape. A log of operations
is therefore determined, path by path, by the last operation touching the path.
-/

namespace Cassem.Lib.HierMap

universe u v

variable {κ : Type u} {α : Type v} [DecidableEq κ]

abbrev Shape (κ : Type u) (α : Type v) := List κ → Option (Cell α)

/-- The root is a directory, and only directories have descendants. -/
structure Closed (s : Shape κ α) : Prop where
  root : s [] = some .dir
  parent : ∀ p q, q ≠ [] → s (p ++ q) ≠ none → s p = some .dir

inductive Op (κ : Type u) (α : Type v) where
  /-- Write a value, creating the directories above it. -/
  | put (p : List κ) (v : α)
  /-- Create a directory and those above it. -/
  | mkdir (p : List κ)
  /-- Delete a value. -/
  | del (p : List κ)
  /-- Delete a directory with all that is below it. -/
  | rmdir (p : List κ)
  /-- Change nothing, but insist that no directory stands at the path. -/
  | probe (p : List κ)
  deriving DecidableEq

namespace Op

/-- The kind an operation insists on where something stands at the path:
`some true` for a directory, `some false` for a value. -/
def needs : Op κ α → List κ → Option Bool
  | put p _, q => if q = p then some false else if q <+: p then some true else none
  | mkdir p, q => if q <+: p then some true else none
  | del p, q => if q = p then some false else none
  | rmdir p, q => if q = p then some true else none
  | probe p, q => if q = p then some false else none

def touches : Op κ α → List κ → Prop
  | put p _, q => q <+: p
  | mkdir p, q => q <+: p
  | del p, q => q = p
  | rmdir p, q => p <+: q
  | probe _, _ => False

instance (o : Op κ α) (q : List κ) : Decidable (o.touches q) := by
  cases o <;> unfold touches <;> infer_instance

/-- What stands at a touched path afterwards. -/
def leaves : Op κ α → List κ → Option (Cell α)
  | put p v, q => if q = p then some (.val v) else some .dir
  | mkdir _, _ => some .dir
  | del _, _ => none
  | rmdir _, _ => none
  | probe _, _ => none

def effect (o : Op κ α) (s : Shape κ α) : Shape κ α :=
  fun q => if o.touches q then o.leaves q else s q

/-- Whatever stands at a path the operation needs is of the kind it needs. -/
def Fits (o : Op κ α) (s : Shape κ α) : Prop :=
  ∀ q b c, o.needs q = some b → s q = some c → c.isDir = b

theorem effect_of_touches {o : Op κ α} {s : Shape κ α} {q : List κ} (h : o.touches q) :
    o.effect s q = o.leaves q := if_pos h

theorem effect_of_not_touches {o : Op κ α} {s : Shape κ α} {q : List κ} (h : ¬ o.touches q) :
    o.effect s q = s q := if_neg h

theorem effect_put (p : List κ) (v : α) (s : Shape κ α) (q : List κ) :
    (put p v).effect s q =
      if q = p then some (.val v) else if q <+: p then some .dir else s q := by
  by_cases h : (put p v : Op κ α).touches q
  · have h' : q <+: p := h
    rw [effect_of_touches h]
    simp [leaves, h']
  · have h' : ¬ q <+: p := h
    rw [effect_of_not_touches h, if_neg h', if_neg]
    rintro rfl
    exact h' List.prefix_rfl

theorem effect_mkdir (p : List κ) (s : Shape κ α) (q : List κ) :
    (mkdir p).effect s q = if q <+: p then some .dir else s q := by
  by_cases h : (mkdir p : Op κ α).touches q
  · exact (effect_of_touches h).trans (if_pos h).symm
  · exact (effect_of_not_touches h).trans (if_neg h).symm

theorem effect_del (p : List κ) (s : Shape κ α) (q : List κ) :
    (del p).effect s q = if q = p then none else s q := by
  by_cases h : (del p : Op κ α).touches q
  · exact (effect_of_touches h).trans (if_pos h).symm
  · exact (effect_of_not_touches h).trans (if_neg h).symm

theorem effect_rmdir (p : List κ) (s : Shape κ α) (q : List κ) :
    (rmdir p).effect s q = if p <+: q then none else s q := by
  by_cases h : (rmdir p : Op κ α).touches q
  · exact (effect_of_touches h).trans (if_pos h).symm
  · exact (effect_of_not_touches h).trans (if_neg h).symm

theorem effect_probe (p : List κ) (s : Shape κ α) : (probe p).effect s = s :=
  funext fun _ => effect_of_not_touches (fun h => h)

theorem mkdir_fits_iff {s : Shape κ α} {p : List κ} :
    (mkdir p : Op κ α).Fits s ↔ ∀ q v, q <+: p → s q ≠ some (.val v) := by
  constructor
  · intro h q v hq hs
    have := h q true (.val v) (by simp [needs, hq]) hs
    simp [Cell.isDir] at this
  · intro h q b c hq hs
    cases c with
    | dir =>
      simp only [needs] at hq
      split at hq
      · simpa [Cell.isDir] using hq
      · simp at hq
    | val v =>
      simp only [needs] at hq
      split at hq
      · next hp => exact absurd hs (h q v hp)
      · simp at hq

theorem put_fits_iff {s : Shape κ α} {p : List κ} {k : κ} {v : α} :
    (put (p ++ [k]) v).Fits s ↔ (mkdir p : Op κ α).Fits s ∧ s (p ++ [k]) ≠ some .dir := by
  constructor
  · intro h
    refine ⟨mkdir_fits_iff.mpr fun q w hq hs => ?_, fun hs => ?_⟩
    · have hne : q ≠ p ++ [k] := by
        rintro rfl
        exact Tree.not_snoc_prefix p k hq
      have hpre : q <+: p ++ [k] := hq.trans (List.prefix_append p [k])
      have := h q true (.val w) (by simp [needs, hne, hpre]) hs
      simp [Cell.isDir] at this
    · have := h (p ++ [k]) false .dir (by simp [needs]) hs
      simp [Cell.isDir] at this
  · rintro ⟨hdirs, hleaf⟩ q b c hq hs
    simp only [needs] at hq
    split at hq
    · next hp =>
      subst hp
      cases c with
      | dir => exact absurd hs hleaf
      | val w => simpa [Cell.isDir] using hq
    · next hp =>
      split at hq
      · next hpre =>
        have hqp : q <+: p := (List.prefix_concat_iff.mp hpre).resolve_left hp
        cases c with
        | dir => simpa [Cell.isDir] using hq
        | val w => exact absurd hs (mkdir_fits_iff.mp hdirs q w hqp)
      · simp at hq

theorem del_fits_iff {s : Shape κ α} {p : List κ} :
    (del p : Op κ α).Fits s ↔ s p ≠ some .dir := by
  constructor
  · intro h hs
    have := h p false .dir (by simp [needs]) hs
    simp [Cell.isDir] at this
  · intro h q b c hq hs
    simp only [needs] at hq
    split at hq
    · next hp =>
      subst hp
      cases c with
      | dir => exact absurd hs h
      | val w => simpa [Cell.isDir] using hq
    · simp at hq

theorem probe_fits_iff {s : Shape κ α} {p : List κ} :
    (probe p : Op κ α).Fits s ↔ s p ≠ some .dir :=
  del_fits_iff

theorem rmdir_fits_iff {s : Shape κ α} {p : List κ} :
    (rmdir p : Op κ α).Fits s ↔ ∀ v, s p ≠ some (.val v) := by
  constructor
  · intro h v hs
    have := h p true (.val v) (by simp [needs]) hs
    simp [Cell.isDir] at this
  · intro h q b c hq hs
    simp only [needs] at hq
    split at hq
    · next hp =>
      subst hp
      cases c with
      | dir => simpa [Cell.isDir] using hq
      | val w => exact absurd hs (h w)
    · simp at hq

theorem effect_put_snoc (p : List κ) (k : κ) (v : α) (s : Shape κ α) (q : List κ) :
    (put (p ++ [k]) v).effect s q =
      if q = p ++ [k] then some (.val v) else (mkdir p).effect s q := by
  rw [effect_put, effect_mkdir]
  by_cases hq : q = p ++ [k]
  · rw [if_pos hq, if_pos hq]
  · rw [if_neg hq, if_neg hq]
    simp only [List.prefix_concat_iff, hq, false_or]

theorem effect_mkdir_snoc (p : List κ) (k : κ) (s : Shape κ α) (q : List κ) :
    (mkdir (p ++ [k])).effect s q =
      if q = p ++ [k] then some .dir else (mkdir p).effect s q := by
  rw [effect_mkdir, effect_mkdir]
  by_cases hq : q = p ++ [k]
  · simp [hq]
  · simp only [List.prefix_concat_iff, hq, false_or, if_false]

theorem mkdir_snoc_fits_iff {s : Shape κ α} {p : List κ} {k : κ} :
    (mkdir (p ++ [k]) : Op κ α).Fits s ↔
      (mkdir p : Op κ α).Fits s ∧ ∀ v, s (p ++ [k]) ≠ some (.val v) := by
  simp only [mkdir_fits_iff, List.prefix_concat_iff]
  constructor
  · intro h
    exact ⟨fun q v hq => h q v (Or.inr hq), fun v => h _ v (Or.inl rfl)⟩
  · rintro ⟨hp, hk⟩ q v (rfl | hq)
    · exact hk v
    · exact hp q v hq

/-- An operation that fits and touches a value writes it again or removes it. -/
theorem of_touches_value {o : Op κ α} {s : Shape κ α} {q : List κ} {v : α} (hfit : o.Fits s)
    (hq : s q = some (.val v)) (ht : o.touches q) :
    (∃ w, o = put q w) ∨ o = del q ∨ ∃ p, o = rmdir p := by
  cases o with
  | put p w =>
    by_cases hp : q = p
    · exact .inl ⟨w, by rw [hp]⟩
    · have hpre : q <+: p := ht
      have := hfit q true (.val v) (by simp [needs, hp, hpre]) hq
      cases this
  | mkdir p =>
    have hpre : q <+: p := ht
    have := hfit q true (.val v) (by simp [needs, hpre]) hq
    cases this
  | del p =>
    have hp : q = p := ht
    exact .inr (.inl (by rw [hp]))
  | rmdir p => exact .inr (.inr ⟨p, rfl⟩)
  | probe p => exact ht.elim

/-- The operation writes or deletes the value at the path. -/
def OnValue (p : List κ) : Op κ α → Prop
  | put q _ => q = p
  | del q => q = p
  | mkdir _ | rmdir _ | probe _ => False

/-- It needs directories above the value. -/
theorem OnValue.needs_above {o : Op κ α} {p q : List κ} {b : Bool} (h : o.OnValue p)
    (hq : o.needs q = some b) : q <+: p ∧ (q ≠ p → b = true) := by
  cases o with
  | put p' v =>
    obtain rfl : p' = p := h
    rw [needs] at hq
    split at hq
    · next heq => exact ⟨heq ▸ List.prefix_rfl, fun hne => absurd heq hne⟩
    · split at hq
      · next hpre => exact ⟨hpre, fun _ => (Option.some.inj hq).symm⟩
      · cases hq
  | del p' =>
    obtain rfl : p' = p := h
    rw [needs] at hq
    split at hq
    · next heq => exact ⟨heq ▸ List.prefix_rfl, fun hne => absurd heq hne⟩
    · cases hq
  | mkdir _ | rmdir _ | probe _ => cases h

theorem OnValue.leaves_above {o : Op κ α} {p q : List κ} {c : Cell α} (h : o.OnValue p)
    (hq : o.touches q) (hc : o.leaves q = some c) : q <+: p ∧ (q ≠ p → c = .dir) := by
  cases o with
  | put p' v =>
    obtain rfl : p' = p := h
    refine ⟨hq, fun hne => ?_⟩
    rw [leaves, if_neg hne] at hc
    exact (Option.some.inj hc).symm
  | del p' => cases hc
  | mkdir _ | rmdir _ | probe _ => cases h

/-- An operation on one value is no obstacle to one on another, unless one of them is above the
other. -/
theorem Fits.effect_of_apart {o o' : Op κ α} {s : Shape κ α} {p p' : List κ} (hfit : o.Fits s)
    (ho : o.OnValue p) (ho' : o'.OnValue p') (h : ¬ p <+: p') (h' : ¬ p' <+: p) :
    o.Fits (o'.effect s) := by
  intro q b c hneeds hs
  by_cases ht : o'.touches q
  · rw [effect_of_touches ht] at hs
    obtain ⟨hpre, hb⟩ := ho.needs_above hneeds
    obtain ⟨hpre', hc⟩ := ho'.leaves_above ht hs
    rw [hb fun heq => h (heq ▸ hpre'), hc fun heq => h' (heq ▸ hpre)]
    rfl
  · rw [effect_of_not_touches ht] at hs
    exact hfit q b c hneeds hs

end Op

/-- The shape a log leaves. -/
def after (s : Shape κ α) (log : List (Op κ α)) : Shape κ α :=
  log.foldl (fun s o => o.effect s) s

/-- Every operation of the log fits the shape it meets. -/
def Accepted (s : Shape κ α) (log : List (Op κ α)) : Prop :=
  ∀ pre o post, log = pre ++ o :: post → o.Fits (after s pre)

@[simp] theorem after_nil (s : Shape κ α) : after s [] = s := rfl

@[simp] theorem after_cons (s : Shape κ α) (o : Op κ α) (log : List (Op κ α)) :
    after s (o :: log) = after (o.effect s) log := rfl

theorem accepted_cons (s : Shape κ α) (o : Op κ α) (log : List (Op κ α)) :
    Accepted s (o :: log) ↔ o.Fits s ∧ Accepted (o.effect s) log := by
  constructor
  · intro h
    refine ⟨h [] o log rfl, fun pre o' post hl => ?_⟩
    exact h (o :: pre) o' post (by rw [hl]; rfl)
  · rintro ⟨ho, h⟩ pre o' post hl
    cases pre with
    | nil =>
      obtain ⟨rfl, rfl⟩ := List.cons.inj hl
      exact ho
    | cons o₁ pre =>
      obtain ⟨rfl, htail⟩ := List.cons.inj hl
      exact h pre o' post htail

/-- A path no operation touches keeps what it had. -/
theorem after_untouched {s : Shape κ α} {log : List (Op κ α)} {q : List κ}
    (h : ∀ o ∈ log, ¬ o.touches q) : after s log q = s q := by
  induction log generalizing s with
  | nil => rfl
  | cons o log ih =>
    rw [after_cons, ih (fun o' ho' => h o' (List.mem_cons_of_mem _ ho'))]
    exact Op.effect_of_not_touches (h o (List.mem_cons_self ..))

/-- A touched path forgets the shape the log started from. -/
theorem after_touched (s s' : Shape κ α) {log : List (Op κ α)} {q : List κ}
    (h : ∃ o ∈ log, o.touches q) : after s log q = after s' log q := by
  induction log generalizing s s' with
  | nil => simp at h
  | cons o log ih =>
    by_cases hlog : ∃ o' ∈ log, o'.touches q
    · exact ih _ _ hlog
    · have ho : o.touches q := by
        obtain ⟨o', ho', hq⟩ := h
        rcases List.mem_cons.mp ho' with rfl | ho'
        · exact hq
        · exact absurd ⟨o', ho', hq⟩ hlog
      have hno : ∀ o' ∈ log, ¬ o'.touches q := fun o' ho' hq => hlog ⟨o', ho', hq⟩
      rw [after_cons, after_cons, after_untouched hno, after_untouched hno,
        Op.effect_of_touches ho, Op.effect_of_touches ho]

/-- Running a log again over the shape it left changes nothing. -/
theorem after_after (s : Shape κ α) (log : List (Op κ α)) :
    after (after s log) log = after s log := by
  funext q
  by_cases h : ∃ o ∈ log, o.touches q
  · exact after_touched _ _ h
  · exact after_untouched fun o ho hq => h ⟨o, ho, hq⟩

/-- No operation of the log finds, at a path it needs and that no earlier
operation has touched, a cell of the other kind left by the whole log. -/
def NoLeftover (final : Shape κ α) (log : List (Op κ α)) : Prop :=
  ∀ pre o post q b c, log = pre ++ o :: post → o.needs q = some b → final q = some c →
    c.isDir ≠ b → ∃ o' ∈ pre, o'.touches q

/-- An accepted log is accepted again by the shape it left exactly when no
leftover of the other kind is in its way. -/
theorem accepted_after_iff {s : Shape κ α} {log : List (Op κ α)} (h : Accepted s log) :
    Accepted (after s log) log ↔ NoLeftover (after s log) log := by
  constructor
  · intro hr pre o post q b c hl hq hc hne
    by_contra hno
    have hun : ∀ o' ∈ pre, ¬ o'.touches q := fun o' ho' ht => hno ⟨o', ho', ht⟩
    have hq' : after (after s log) pre q = some c := by rw [after_untouched hun, hc]
    exact hne (hr pre o post hl q b c hq hq')
  · intro hr pre o post hl q b c hq hc
    by_cases ht : ∃ o' ∈ pre, o'.touches q
    · exact h pre o post hl q b c hq (by rw [after_touched s (after s log) ht, hc])
    · have hun : ∀ o' ∈ pre, ¬ o'.touches q := fun o' ho' hq' => ht ⟨o', ho', hq'⟩
      rw [after_untouched hun] at hc
      by_contra hne
      exact ht (hr pre o post q b c hl hq hc hne)

end Cassem.Lib.HierMap
