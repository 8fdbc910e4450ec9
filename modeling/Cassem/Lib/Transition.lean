import Mathlib.Data.List.Basic

/-!
# Runs of a labelled transition system

A step function takes a state and a label to the next state, or refuses the
label. A run is a list of labels. `EachStep` and `EachState` say that something
holds of all the steps, or of all the states, that a run goes through, up to the
first label that is refused.
-/

namespace Cassem.Lib.Transition

universe u v

variable {σ : Type u} {ℓ : Type v}

/-- The state a run ends in, if no label is refused. -/
def run (step : σ → ℓ → Option σ) (s : σ) : List ℓ → Option σ
  | [] => some s
  | l :: ls => (step s l).bind fun s' => run step s' ls

def EachStep (step : σ → ℓ → Option σ) (P : σ → ℓ → σ → Prop) (s : σ) : List ℓ → Prop
  | [] => True
  | l :: ls => ∀ s', step s l = some s' → P s l s' ∧ EachStep step P s' ls

def EachState (step : σ → ℓ → Option σ) (P : σ → Prop) (s : σ) : List ℓ → Prop
  | [] => P s
  | l :: ls => P s ∧ ∀ s', step s l = some s' → EachState step P s' ls

/-- Some run leads to a state with the property. -/
def Reaches (step : σ → ℓ → Option σ) (P : σ → Prop) (s : σ) : Prop :=
  ∃ ls s', run step s ls = some s' ∧ P s'

instance EachStep.decidable (step : σ → ℓ → Option σ) (P : σ → ℓ → σ → Prop)
    [∀ s l s', Decidable (P s l s')] : ∀ (s : σ) (ls : List ℓ), Decidable (EachStep step P s ls)
  | _, [] => isTrue trivial
  | s, l :: ls =>
      match hs : step s l with
      | none => isTrue fun s' h => by rw [hs] at h; cases h
      | some s' =>
          have := EachStep.decidable step P s' ls
          decidable_of_iff (P s l s' ∧ EachStep step P s' ls)
            ⟨fun h s₁ hs₁ => by rw [hs] at hs₁; cases hs₁; exact h, fun h => h s' hs⟩

variable {step : σ → ℓ → Option σ} {P Q : σ → ℓ → σ → Prop} (Inv : σ → Prop)

theorem run_cons {s s' : σ} {l : ℓ} (h : step s l = some s') (ls : List ℓ) :
    run step s (l :: ls) = run step s' ls := by
  rw [run, h, Option.bind_some]

theorem run_append {s s' : σ} {ls : List ℓ} (h : run step s ls = some s') (ms : List ℓ) :
    run step s (ls ++ ms) = run step s' ms := by
  induction ls generalizing s with
  | nil =>
    cases h
    rfl
  | cons l ls ih =>
    obtain ⟨s₁, hs, hrest⟩ := Option.bind_eq_some_iff.mp h
    rw [List.cons_append, run_cons hs]
    exact ih hrest

theorem Reaches.now {P : σ → Prop} {s : σ} (h : P s) : Reaches step P s := ⟨[], s, rfl, h⟩

theorem Reaches.after {P : σ → Prop} {s s' : σ} {l : ℓ} (hs : step s l = some s')
    (h : Reaches step P s') : Reaches step P s := by
  obtain ⟨ls, s₁, hrun, hP⟩ := h
  exact ⟨l :: ls, s₁, (run_cons hs ls).trans hrun, hP⟩

theorem Reaches.trans {P Q : σ → Prop} {s : σ} (h : Reaches step P s)
    (hPQ : ∀ s', P s' → Reaches step Q s') : Reaches step Q s := by
  obtain ⟨ls, s₁, hrun, hP⟩ := h
  obtain ⟨ms, s₂, hrun', hQ⟩ := hPQ s₁ hP
  exact ⟨ls ++ ms, s₂, (run_append hrun ms).trans hrun', hQ⟩

/-- Steps that preserve an invariant where they meet a condition keep it along
every run whose steps all meet the condition. -/
theorem eachState_of_eachStep (hstep : ∀ s l s', Inv s → P s l s' → step s l = some s' → Inv s')
    {s : σ} {ls : List ℓ} (hinv : Inv s) (h : EachStep step P s ls) : EachState step Inv s ls := by
  induction ls generalizing s with
  | nil => exact hinv
  | cons l ls ih =>
    refine ⟨hinv, fun s' hs => ?_⟩
    obtain ⟨hP, hrest⟩ := h s' hs
    exact ih (hstep s l s' hinv hP hs) hrest

/-- A property that a step keeps exactly when it meets a condition holds along a run
exactly when all its steps meet the condition. The invariant is one of states reached
while the property holds. -/
theorem eachState_iff_eachStep_within {S : σ → Prop}
    (hinv : ∀ s l s', Inv s → S s → step s l = some s' → S s' → Inv s')
    (hstep : ∀ s l s', Inv s → S s → step s l = some s' → (S s' ↔ P s l s'))
    {s : σ} (hs : Inv s) (hS : S s) (ls : List ℓ) : EachState step S s ls ↔ EachStep step P s ls := by
  induction ls generalizing s with
  | nil => exact ⟨fun _ => trivial, fun _ => hS⟩
  | cons l ls ih =>
    constructor
    · intro h s' hl
      have hS' : S s' := by
        have hrest := h.2 s' hl
        cases ls with
        | nil => exact hrest
        | cons l' ls => exact hrest.1
      have hinv' := hinv s l s' hs hS hl hS'
      exact ⟨(hstep s l s' hs hS hl).mp hS', (ih hinv' hS').mp (h.2 s' hl)⟩
    · intro h
      refine ⟨hS, fun s' hl => ?_⟩
      have hS' := (hstep s l s' hs hS hl).mpr (h s' hl).1
      exact (ih (hinv s l s' hs hS hl hS') hS').mpr (h s' hl).2

theorem eachState_iff_eachStep {S : σ → Prop}
    (hinv : ∀ s l s', Inv s → step s l = some s' → Inv s')
    (hstep : ∀ s l s', Inv s → S s → step s l = some s' → (S s' ↔ P s l s'))
    {s : σ} (hs : Inv s) (hS : S s) (ls : List ℓ) :
    EachState step S s ls ↔ EachStep step P s ls :=
  eachState_iff_eachStep_within Inv (fun s l s' hi _ hl _ => hinv s l s' hi hl) hstep hs hS ls

/-- What implies another condition step by step, on states of an invariant that it keeps,
implies it along every run. -/
theorem eachStep_of_eachStep (hstep : ∀ s l s', Inv s → P s l s' → step s l = some s' → Inv s')
    (himp : ∀ s l s', Inv s → step s l = some s' → P s l s' → Q s l s')
    {s : σ} {ls : List ℓ} (hinv : Inv s) (h : EachStep step P s ls) : EachStep step Q s ls := by
  induction ls generalizing s with
  | nil => trivial
  | cons l ls ih =>
    intro s' hs
    obtain ⟨hP, hrest⟩ := h s' hs
    exact ⟨himp s l s' hinv hs hP, ih (hstep s l s' hinv hP hs) hrest⟩

theorem eachStep_imp (hstep : ∀ s l s', Inv s → step s l = some s' → Inv s')
    (himp : ∀ s l s', Inv s → step s l = some s' → P s l s' → Q s l s')
    {s : σ} {ls : List ℓ} (hinv : Inv s) (h : EachStep step P s ls) : EachStep step Q s ls :=
  eachStep_of_eachStep Inv (fun s l s' hi _ hs => hstep s l s' hi hs) himp hinv h

theorem eachStep_iff (hstep : ∀ s l s', Inv s → step s l = some s' → Inv s')
    (hiff : ∀ s l s', Inv s → step s l = some s' → (P s l s' ↔ Q s l s'))
    {s : σ} (hinv : Inv s) (ls : List ℓ) : EachStep step P s ls ↔ EachStep step Q s ls :=
  ⟨eachStep_imp Inv hstep (fun s l s' hi hs => (hiff s l s' hi hs).mp) hinv,
    eachStep_imp Inv hstep (fun s l s' hi hs => (hiff s l s' hi hs).mpr) hinv⟩

theorem EachStep.cons {s s' : σ} {l : ℓ} {ls : List ℓ} (h : step s l = some s') (hP : P s l s')
    (hrest : EachStep step P s' ls) : EachStep step P s (l :: ls) := by
  intro s₁ h₁
  cases h.symm.trans h₁
  exact ⟨hP, hrest⟩

theorem eachStep_true (s : σ) (ls : List ℓ) : EachStep step (fun _ _ _ => True) s ls := by
  induction ls generalizing s with
  | nil => trivial
  | cons l ls ih => exact fun s' _ => ⟨trivial, ih s'⟩

/-- A condition that the label alone meets. -/
theorem eachStep_of_forall {ls : List ℓ} (h : ∀ l ∈ ls, ∀ s s', P s l s') (s : σ) :
    EachStep step P s ls := by
  induction ls generalizing s with
  | nil => trivial
  | cons l ls ih =>
    exact fun s' _ => ⟨h l List.mem_cons_self s s', ih (fun l' hl' => h l' (.tail l hl')) s'⟩

theorem EachStep.and {s : σ} {ls : List ℓ} (hP : EachStep step P s ls)
    (hQ : EachStep step Q s ls) : EachStep step (fun s l s' => P s l s' ∧ Q s l s') s ls := by
  induction ls generalizing s with
  | nil => trivial
  | cons l ls ih =>
    intro s' hs
    obtain ⟨hp, hP⟩ := hP s' hs
    obtain ⟨hq, hQ⟩ := hQ s' hs
    exact ⟨⟨hp, hq⟩, ih hP hQ⟩

theorem EachStep.last {s s₁ s₂ : σ} {ls : List ℓ} {l : ℓ} (h : EachStep step P s (ls ++ [l]))
    (hrun : run step s ls = some s₁) (hl : step s₁ l = some s₂) : P s₁ l s₂ := by
  induction ls generalizing s with
  | nil =>
    cases hrun
    exact (h s₂ hl).1
  | cons l' ls ih =>
    obtain ⟨s', hs, hrest⟩ := Option.bind_eq_some_iff.mp hrun
    exact ih (h s' hs).2 hrest

theorem EachState.of_run {P : σ → Prop} {s s' : σ} {ls : List ℓ} (h : EachState step P s ls)
    (hrun : run step s ls = some s') : P s' := by
  induction ls generalizing s with
  | nil =>
    cases hrun
    exact h
  | cons l ls ih =>
    obtain ⟨s₁, hs, hrest⟩ := Option.bind_eq_some_iff.mp hrun
    exact ih (h.2 s₁ hs) hrest

theorem EachState.mono {P Q : σ → Prop} (himp : ∀ s, P s → Q s) {s : σ} {ls : List ℓ}
    (h : EachState step P s ls) : EachState step Q s ls := by
  induction ls generalizing s with
  | nil => exact himp s h
  | cons l ls ih => exact ⟨himp s h.1, fun s' hs => ih (h.2 s' hs)⟩

end Cassem.Lib.Transition
