import Cassem.Coord.Superadmin

/-!
# What a role change that returns nil has stored

A call changes the rules in memory and then saves all of them. When the save fails the memory
stays changed, and the next call for the same rule finds nothing to do and saves nothing.
-/

namespace Cassem.Coord

open Lib Cassem.Concept

/-! ## Rules of a record -/

/-- The record contains the grouping rule: one of its lines is the line of the rule, and the line
has room for all of it. -/
def HasRule (lines : List Casbin_Policy) (rule : Rule) : Prop :=
  rule.length ≤ 6 ∧ savePolicyLine "g" rule ∈ lines

instance (lines : List Casbin_Policy) (rule : Rule) : Decidable (HasRule lines rule) :=
  inferInstanceAs (Decidable (_ ∧ _))

theorem hasRule_policyLines {m : Model} {rule : Rule} : HasRule (policyLines m) rule ↔
    rule.length ≤ 6 ∧ ∃ other ∈ m.g, savePolicyLine "g" other = savePolicyLine "g" rule := by
  refine and_congr_right fun _ => ?_
  have hp : savePolicyLine "g" rule ∉ m.p.map (savePolicyLine "p") := by
    intro hmem
    obtain ⟨other, -, heq⟩ := List.mem_map.mp hmem
    have hptype := congrArg Casbin_Policy.Ptype heq
    exact absurd hptype (by decide : "p" ≠ "g")
  unfold policyLines
  rw [List.mem_append, or_iff_right hp, List.mem_map]

/-! ## When a call returns nil -/

namespace Acl

variable {a : Acl} {call : String} {change : Model × Except GoError Bool} {save : Save}

/-- The change was made and saved. -/
def Saved (change : Model × Except GoError Bool) (save : Save) : Prop :=
  change.2 = .ok true ∧ save = .done

theorem changed_nil_iff : (a.changed call change save).2 = .ok () ↔
    change.2 = .ok false ∨ Saved change save := by
  obtain ⟨model, res⟩ := change
  unfold Saved Acl.changed
  match res with
  | .error err => simp
  | .ok false => simp
  | .ok true =>
    cases save with
    | done => simp [SavePolicy, Except.mapError]
    | refused err => simp [SavePolicy, Except.mapError]
    | unanswered err => simp [SavePolicy, Except.mapError]

theorem changed_stored_of_none (h : change.2 = .ok false) :
    (a.changed call change save).1.stored = a.stored := by
  unfold Acl.changed
  rw [h]

theorem changed_stored_of_saved (h : Saved change save) :
    (a.changed call change save).1.stored = policyLines change.1 := by
  obtain ⟨hres, rfl⟩ := h
  unfold Acl.changed
  rw [hres]
  rfl

theorem linked_eq_true {link : Option GoError} : Model.linked link = .ok true ↔ link = none := by
  cases link <;> simp [Model.linked]

theorem linked_ne_false {link : Option GoError} : Model.linked link ≠ .ok false := by
  cases link <;> simp [Model.linked]

/-! ## Runs -/

/-- A grant that returns nil is in the record, a revocation that returns nil is not. -/
def Persisted (a : Acl) (l : Step) (a' : Acl) : Prop :=
  match l with
  | .AssignRole account role domain link save =>
      (Coord.AssignRole a account role domain link save).2 = .ok () →
        HasRule a'.stored (account :: rbacRole role :: domain)
  | .RevokeRole account role domain link save =>
      (Coord.RevokeRole a account role domain link save).2 = .ok () →
        ¬ HasRule a'.stored (account :: rbacRole role :: domain)

/-- Another rule in memory has the same line. -/
def SameLine (m : Model) (rule : Rule) : Prop :=
  rule.length ≤ 6 ∧ ∃ other ∈ m.g, other ≠ rule ∧ savePolicyLine "g" other = savePolicyLine "g" rule

/-- A call that is not refused and finds nothing to change in memory finds the record as the
memory; and what is saved fits its line and, once removed, is no other rule's line. -/
def Synced (a : Acl) (l : Step) (_ : Acl) : Prop :=
  match l with
  | .AssignRole account role domain link save =>
      normalizeRole role ≠ "superadmin" →
        let rule := account :: rbacRole role :: domain
        (rule ∈ a.model.g → HasRule a.stored rule) ∧
        (rule ∉ a.model.g → link = none → save = .done → rule.length ≤ 6)
  | .RevokeRole account role domain link save =>
      userHasRole a.model account "superadmin" = false →
        let rule := account :: rbacRole role :: domain
        (rule ∉ a.model.g → ¬ HasRule a.stored rule) ∧
        (rule ∈ a.model.g → link = none → save = .done → ¬ SameLine a.model rule)

theorem persisted_add (rule : Rule) (link : Option GoError) :
    ((a.changed call (a.model.AddRoleForUser rule link) save).2 = .ok () →
      HasRule (a.changed call (a.model.AddRoleForUser rule link) save).1.stored rule) ↔
    (rule ∈ a.model.g → HasRule a.stored rule) ∧
      (rule ∉ a.model.g → link = none → save = .done → rule.length ≤ 6) := by
  by_cases hmem : rule ∈ a.model.g
  · have hres : (a.model.AddRoleForUser rule link).2 = .ok false := by
      unfold Model.AddRoleForUser
      rw [if_pos hmem]
    rw [changed_nil_iff, changed_stored_of_none hres]
    simp [hres, hmem]
  · have hres : (a.model.AddRoleForUser rule link).2 = Model.linked link := by
      unfold Model.AddRoleForUser
      rw [if_neg hmem]
    have hg : (a.model.AddRoleForUser rule link).1.g = a.model.g ++ [rule] := by
      rw [AddRoleForUser_model]
      exact if_neg hmem
    rw [changed_nil_iff, hres, or_iff_right linked_ne_false]
    constructor
    · intro h
      refine ⟨fun h => absurd h hmem, fun _ hlink hsave => ?_⟩
      exact (h ⟨hres.trans (linked_eq_true.mpr hlink), hsave⟩).1
    · rintro ⟨-, hfits⟩ hsaved
      have hlength := hfits hmem (linked_eq_true.mp (hres.symm.trans hsaved.1)) hsaved.2
      rw [changed_stored_of_saved hsaved, hasRule_policyLines, hg]
      exact ⟨hlength, rule, List.mem_append_right _ List.mem_cons_self, rfl⟩

theorem persisted_remove (rule : Rule) (link : Option GoError) :
    ((a.changed call (a.model.DeleteRoleForUser rule link) save).2 = .ok () →
      ¬ HasRule (a.changed call (a.model.DeleteRoleForUser rule link) save).1.stored rule) ↔
    (rule ∉ a.model.g → ¬ HasRule a.stored rule) ∧
      (rule ∈ a.model.g → link = none → save = .done → ¬ SameLine a.model rule) := by
  by_cases hmem : rule ∈ a.model.g
  · have hres : (a.model.DeleteRoleForUser rule link).2 = Model.linked link := by
      unfold Model.DeleteRoleForUser
      rw [if_pos hmem]
    have hlines : HasRule (policyLines (a.model.DeleteRoleForUser rule link).1) rule ↔
        SameLine a.model rule := by
      rw [hasRule_policyLines, DeleteRoleForUser_g]
      simp [SameLine, and_assoc]
    rw [changed_nil_iff, hres, or_iff_right linked_ne_false]
    constructor
    · intro h
      refine ⟨fun hnot => absurd hmem hnot, fun _ hlink hsave => ?_⟩
      have hsaved : Saved (a.model.DeleteRoleForUser rule link) save :=
        ⟨hres.trans (linked_eq_true.mpr hlink), hsave⟩
      have hnot := h hsaved
      rw [changed_stored_of_saved hsaved, hlines] at hnot
      exact hnot
    · rintro ⟨-, hother⟩ hsaved
      rw [changed_stored_of_saved hsaved, hlines]
      exact hother hmem (linked_eq_true.mp (hres.symm.trans hsaved.1)) hsaved.2
  · have hres : (a.model.DeleteRoleForUser rule link).2 = .ok false := by
      unfold Model.DeleteRoleForUser
      rw [if_neg hmem]
    rw [changed_nil_iff, changed_stored_of_none hres]
    simp [hres, hmem]

theorem RevokeRole_of_accepted {account role : String} {domain : List String}
    {link : Option GoError} (h : userHasRole a.model account "superadmin" = false) :
    Coord.RevokeRole a account role domain link save = a.changed "RevokeRole"
      (a.model.DeleteRoleForUser (account :: rbacRole role :: domain) link) save := by
  unfold Coord.RevokeRole
  rw [h]
  rfl

theorem persisted_step {a a' : Acl} {l : Step} (hs : step a l = some a') :
    Persisted a l a' ↔ Synced a l a' := by
  cases l with
  | AssignRole account role domain link save =>
    cases hs
    unfold Persisted Synced Coord.AssignRole assignRole
    by_cases hrole : normalizeRole role = "superadmin"
    · simp [hrole]
    · simp only [hrole, false_and, if_false]
      exact (persisted_add _ link).trans (imp_iff_right hrole).symm
  | RevokeRole account role domain link save =>
    cases hs
    unfold Persisted Synced
    dsimp only
    cases hhas : userHasRole a.model account "superadmin" with
    | true => simp [Coord.RevokeRole, AccountEnv.rejectSuperadminTarget, hhas]
    | false =>
      rw [RevokeRole_of_accepted hhas, imp_iff_right rfl]
      exact persisted_remove _ link

/-- In a run every call that returns nil has stored what it says exactly when the record is in
step at every call. -/
theorem persisted_iff (a : Acl) (ls : List Step) :
    Transition.EachStep step Persisted a ls ↔ Transition.EachStep step Synced a ls :=
  Transition.eachStep_iff (P := Persisted) (Q := Synced) (fun _ => True) (fun _ _ _ _ _ => trivial)
    (fun _ _ _ _ hs => persisted_step hs) trivial ls

/-! ## A grant that is tried again -/

def refusedGrant : Step :=
  .AssignRole "bob@x.io" "visitor" ["shop/prod"] none (.refused (.concept Err_INTERNAL))

/-- The first call fails to save, the second returns nil. -/
theorem retried_not_persisted :
    (Coord.AssignRole (Coord.AssignRole empty "bob@x.io" "visitor" ["shop/prod"] none
      (.refused (.concept Err_INTERNAL))).1 "bob@x.io" "visitor" ["shop/prod"] none .done).2 =
        .ok () ∧
    (Transition.run step empty [refusedGrant,
      .AssignRole "bob@x.io" "visitor" ["shop/prod"] none .done]).map Acl.stored = some [] ∧
    ¬ ∀ (a : Acl) (ls : List Step), Transition.EachStep step Persisted a ls := by
  have hnil : (Coord.AssignRole (Coord.AssignRole empty "bob@x.io" "visitor" ["shop/prod"] none
      (.refused (.concept Err_INTERNAL))).1 "bob@x.io" "visitor" ["shop/prod"] none .done).2 =
        .ok () := rfl
  have hstored : (Transition.run step empty [refusedGrant,
      .AssignRole "bob@x.io" "visitor" ["shop/prod"] none .done]).map Acl.stored = some [] := rfl
  refine ⟨hnil, hstored, fun h => ?_⟩
  have hsecond := ((h empty [refusedGrant,
    .AssignRole "bob@x.io" "visitor" ["shop/prod"] none .done] _ rfl).2 _ rfl).1
  exact List.not_mem_nil (hsecond hnil).2

end Acl

end Cassem.Coord
