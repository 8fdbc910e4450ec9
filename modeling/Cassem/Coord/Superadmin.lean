import Cassem.Coord.Acl
import Cassem.Lib.Transition
import Mathlib.Data.Set.Insert

/-!
# Who is bound to the superadmin role

The check in front of a grant compares the role as it is asked for, what is stored is the role
with its prefix. A role that is asked for with the prefix passes the check and is stored as the
one that the check is there to refuse.
-/

namespace Cassem.Coord

open Lib Cassem.Concept

/-- The accounts that some rule binds to the stored superadmin role. -/
def Superadmins (m : Model) : Set String :=
  { account | ∃ domain, account :: "role:superadmin" :: domain ∈ m.g }

/-! ## Roles as they are stored -/

theorem normalizeRole_eq_superadmin {role : String} :
    normalizeRole role = "superadmin" ↔ role = "superadmin" := by
  unfold normalizeRole
  split
  · next h =>
    subst h
    decide
  · rfl

theorem rbacRole_eq_superadmin {role : String} :
    rbacRole role = "role:superadmin" ↔ role = "superadmin" ∨ role = "role:superadmin" := by
  unfold rbacRole normalizeRole
  split
  · next h =>
    subst h
    decide
  · dsimp only
    split
    · next hprefix =>
      refine ⟨.inr, fun h => h.resolve_left ?_⟩
      rintro rfl
      exact absurd hprefix (by decide)
    · next hprefix =>
      have hsplit : "role:superadmin" = "role:" ++ "superadmin" := by decide
      rw [hsplit, String.append_right_inj]
      refine ⟨.inl, fun h => h.resolve_right ?_⟩
      rintro rfl
      exact hprefix (by decide)

/-! ## Grants and revocations in memory -/

section Change

variable (m : Model) (account role : String) (domain : List String) (link : Option GoError)

theorem superadmins_add :
    Superadmins (m.AddRoleForUser (account :: role :: domain) link).1 =
      if role = "role:superadmin" then insert account (Superadmins m) else Superadmins m := by
  have hmem : ∀ rule, rule ∈ (m.AddRoleForUser (account :: role :: domain) link).1.g ↔
      rule ∈ m.g ∨ rule = account :: role :: domain := by
    intro rule
    rw [AddRoleForUser_model, Fold.mem_addNew]
  ext other
  show (∃ rest, other :: "role:superadmin" :: rest ∈ _) ↔ _
  simp only [hmem, List.cons.injEq, exists_or, exists_and_left]
  split
  · next hrole =>
    rw [Set.mem_insert_iff, or_comm]
    exact or_congr_left ⟨fun h => h.1, fun h => ⟨h, hrole.symm, domain, rfl⟩⟩
  · next hrole => exact or_iff_left fun h => hrole h.2.1.symm

/-- No rule but this one binds its account to the superadmin role. -/
def OnlyBinding (rule : Rule) : Prop :=
  rule ∈ m.g ∧ ∀ rest, account :: "role:superadmin" :: rest ∈ m.g →
    account :: "role:superadmin" :: rest = rule

theorem superadmins_remove :
    Superadmins (m.DeleteRoleForUser (account :: role :: domain) link).1 = Superadmins m ↔
      ¬ (role = "role:superadmin" ∧ OnlyBinding m account (account :: role :: domain)) := by
  have hmem : ∀ other, other ∈ Superadmins (m.DeleteRoleForUser (account :: role :: domain) link).1 ↔
      ∃ rest, other :: "role:superadmin" :: rest ∈ m.g ∧
        other :: "role:superadmin" :: rest ≠ account :: role :: domain := by
    intro other
    show (∃ rest, other :: "role:superadmin" :: rest ∈ _) ↔ _
    simp only [DeleteRoleForUser_g, List.mem_filter, decide_eq_true_eq]
  constructor
  · rintro heq ⟨rfl, hrule, honly⟩
    have hbound : account ∈ Superadmins m := ⟨domain, hrule⟩
    rw [← heq] at hbound
    obtain ⟨rest, hrest, hne⟩ := (hmem account).mp hbound
    exact hne (honly rest hrest)
  · intro hkept
    ext other
    rw [hmem]
    refine ⟨fun ⟨rest, hrest, _⟩ => ⟨rest, hrest⟩, fun ⟨rest, hrest⟩ => ?_⟩
    by_cases hrule : other :: "role:superadmin" :: rest = account :: role :: domain
    · -- the rule goes, another one of the account stays
      by_contra hnone
      rw [not_exists] at hnone
      obtain ⟨rfl, hrole, rfl⟩ : other = account ∧ "role:superadmin" = role ∧ rest = domain := by
        simpa using hrule
      refine hkept ⟨hrole.symm, hrule ▸ hrest, fun rest' hrest' => ?_⟩
      by_contra hne
      exact hnone rest' ⟨hrest', hne⟩
    · exact ⟨rest, hrest, hrule⟩

end Change

/-- `BootstrapAdmin` binds its account. -/
theorem superadmins_bootstrap {env : AccountEnv} {users users' : UserStore} {a a' : Acl}
    {account nickname password salt : String} {link : Option GoError} {save : Save}
    (h : BootstrapAdmin env users a account nickname password salt link save =
      (users', a', .ok ())) : Superadmins a'.model = insert account (Superadmins a.model) := by
  have hassign : Superadmins (assignRole a account "superadmin" true ["*"] link save).1.model =
      insert account (Superadmins a.model) := by
    unfold assignRole
    rw [if_neg (by decide), changed_model, superadmins_add, if_pos (by decide)]
  have hmodel : ∀ {res : Acl × Except GoError Unit}, res = (a', .ok ()) →
      Superadmins a'.model = Superadmins res.1.model := by
    rintro res rfl
    rfl
  unfold BootstrapAdmin at h
  split at h
  · exact (hmodel (Prod.mk.inj h).2).trans hassign
  · split at h
    · cases h
    · split at h
      · cases h
      · exact (hmodel (Prod.mk.inj h).2).trans hassign

/-! ## What the check sees -/

theorem mem_of_distinctBindings {seen : List String} {bs : List RoleBinding} {b : RoleBinding}
    (h : b ∈ distinctBindings seen bs) : b ∈ bs := by
  fun_induction distinctBindings seen bs with
  | case1 => exact h
  | case2 seen c bs hseen ih => exact List.mem_cons_of_mem _ (ih h)
  | case3 seen c bs hseen ih =>
    rcases List.mem_cons.mp h with rfl | h
    · exact List.mem_cons_self
    · exact List.mem_cons_of_mem _ (ih h)

/-- Of the bindings with one key the first is listed. -/
theorem distinctBindings_key {seen : List String} {bs : List RoleBinding} {b : RoleBinding}
    (h : b ∈ bs) : b.key ∈ seen ∨ ∃ b' ∈ distinctBindings seen bs, b'.key = b.key := by
  fun_induction distinctBindings seen bs with
  | case1 => cases h
  | case2 seen c bs hseen ih =>
    rcases List.mem_cons.mp h with rfl | h
    · exact .inl hseen
    · exact ih h
  | case3 seen c bs hseen ih =>
    rcases List.mem_cons.mp h with rfl | h
    · exact .inr ⟨b, List.mem_cons_self, rfl⟩
    · rcases ih h with hkey | ⟨b', hb', hkey⟩
      · rcases List.mem_cons.mp hkey with hkey | hkey
        · exact .inr ⟨c, List.mem_cons_self, hkey.symm⟩
        · exact .inl hkey
      · exact .inr ⟨b', List.mem_cons_of_mem _ hb', hkey⟩

/-- A superadmin is recognised where no role of the account has a NUL in it. -/
theorem userHasRole_superadmin {m : Model} {account : String} (h : account ∈ Superadmins m)
    (hnul : ∀ b ∈ (m.GetFilteredGroupingPolicy account).filterMap bindingOf,
      '\x00' ∉ b.Role.toList) : userHasRole m account "superadmin" = true := by
  obtain ⟨domain, hrule⟩ := h
  let bindings := (m.GetFilteredGroupingPolicy account).filterMap bindingOf
  have hlisted : account :: "role:superadmin" :: domain ∈ m.GetFilteredGroupingPolicy account := by
    unfold Model.GetFilteredGroupingPolicy
    exact List.mem_filter.mpr ⟨hrule, by simp⟩
  obtain ⟨b, hb, hrole⟩ : ∃ b ∈ bindings, b.Role = "superadmin" :=
    ⟨_, List.mem_filterMap.mpr ⟨_, hlisted, rfl⟩,
      (by decide : normalizeRole (String.ofList
        (trimPrefix "role:superadmin".toList "role:".toList)) = "superadmin")⟩
  have hfirst : b.key ∈ [] ∨ ∃ b' ∈ distinctBindings [] bindings, b'.key = b.key :=
    distinctBindings_key hb
  rcases hfirst with hseen | ⟨b', hb', hkey⟩
  · cases hseen
  · have hlist := congrArg String.toList hkey
    simp only [RoleBinding.key, String.toList_append, List.append_assoc] at hlist
    have hnul' := hnul b' (mem_of_distinctBindings hb')
    obtain ⟨hsame, -⟩ := cons_inj_of_notMem hnul' (hnul b hb) hlist
    refine List.any_eq_true.mpr ⟨b', hb', decide_eq_true ?_⟩
    rw [String.toList_injective hsame, hrole]

/-! ## Runs -/

namespace Acl

/-- A call, with what becomes of the role links and the save. -/
inductive Step where
  | AssignRole (account role : String) (domain : List String) (link : Option GoError) (save : Save)
  | RevokeRole (account role : String) (domain : List String) (link : Option GoError) (save : Save)

def step (a : Acl) : Step → Option Acl
  | .AssignRole account role domain link save =>
      some (Coord.AssignRole a account role domain link save).1
  | .RevokeRole account role domain link save =>
      some (Coord.RevokeRole a account role domain link save).1

/-- The call does not grant the prefixed superadmin role to an account that has it not, and does
not revoke the one superadmin binding of an account that its check does not see. -/
def Harmless (a : Acl) (l : Step) (_ : Acl) : Prop :=
  match l with
  | .AssignRole account role _ _ _ =>
      ¬ (role = "role:superadmin" ∧ account ∉ Superadmins a.model)
  | .RevokeRole account role domain _ _ =>
      ¬ (userHasRole a.model account "superadmin" = false ∧
        rbacRole role = "role:superadmin" ∧
        OnlyBinding a.model account (account :: rbacRole role :: domain))

theorem superadmins_step {a a' : Acl} {l : Step} (hs : step a l = some a') :
    Superadmins a'.model = Superadmins a.model ↔ Harmless a l a' := by
  cases l with
  | AssignRole account role domain link save =>
    cases hs
    unfold Harmless Coord.AssignRole assignRole
    split
    · next hrefused =>
      have hrole := normalizeRole_eq_superadmin.mp hrefused.1
      simp [hrole]
    · next haccepted =>
      have hrole : role ≠ "superadmin" := fun h =>
        haccepted ⟨normalizeRole_eq_superadmin.mpr h, rfl⟩
      have hstored : rbacRole role = "role:superadmin" ↔ role = "role:superadmin" :=
        rbacRole_eq_superadmin.trans (or_iff_right hrole)
      rw [changed_model, superadmins_add]
      simp only [hstored]
      split
      · next h => simp [h, Set.insert_eq_self]
      · next h => simp [h]
  | RevokeRole account role domain link save =>
    cases hs
    unfold Harmless Coord.RevokeRole
    cases hhas : userHasRole a.model account "superadmin" with
    | true => simp [AccountEnv.rejectSuperadminTarget, hhas]
    | false =>
      show Superadmins (a.changed _ _ save).1.model = _ ↔ _
      rw [changed_model, superadmins_remove]
      simp [hhas]

/-- The superadmins stay the same through a run exactly when every call of it is harmless. -/
theorem superadmins_iff (a : Acl) (ls : List Step) :
    Transition.EachState step (fun a' => Superadmins a'.model = Superadmins a.model) a ls ↔
      Transition.EachStep step Harmless a ls :=
  Transition.eachState_iff_eachStep (S := fun a' : Acl => Superadmins a'.model = Superadmins a.model)
    (fun _ => True) (fun _ _ _ _ _ => trivial)
    (fun _ _ _ _ hsame hs => hsame ▸ superadmins_step hs) trivial rfl ls

/-! ## A grant with the prefix -/

def empty : Acl := ⟨{}, []⟩

theorem prefixed_granted :
    Superadmins empty.model = ∅ ∧
    Superadmins (Coord.AssignRole empty "eve@x.io" "role:superadmin" ["*"] none .done).1.model =
      {"eve@x.io"} ∧
    ¬ ∀ (a : Acl) (ls : List Step),
      Transition.EachState step (fun a' => Superadmins a'.model = Superadmins a.model) a ls := by
  have hnone : Superadmins empty.model = ∅ := by
    ext account
    simp [Superadmins, empty]
  refine ⟨hnone, ?_, fun h => ?_⟩
  · unfold Coord.AssignRole assignRole
    rw [if_neg (by decide), changed_model, superadmins_add, if_pos (by decide), hnone,
      insert_empty_eq]
  · have hrun := h empty [.AssignRole "eve@x.io" "role:superadmin" ["*"] none .done]
    have hkept := (superadmins_iff _ _).mp hrun _ rfl
    exact hkept.1 ⟨rfl, by rw [hnone]; exact id⟩

end Acl

end Cassem.Coord
