import Cassem.Coord.Superadmin
import Cassem.KV.Storage
import Cassem.Lib.CSV
import Cassem.Lib.Count
import Mathlib.Data.List.DropRight

/-!
# Reading the policy back

`SavePolicy` writes each rule into six columns. One reader makes a line of text of them and leaves
it to casbin, which reads the line as comma-separated values. The other hands the columns over,
without the empty ones at the end. What is read back is what was saved only for rules that both
can represent.
-/

namespace Cassem.Coord

open Lib Cassem.Concept

/-! ## The readers -/

/-- What casbin says of a rule that is loaded and of the role links of a policy. -/
structure Casbin where
  invalid : (ptype : String) → Rule → Option GoError
  links : Model → Option GoError

def policyDialect : CSV.Dialect where
  comma := ','
  comment := '#'
  isSpace := KV.isSpace
  comma_ne := by decide
  comma_not_space := by decide
  blank_space := by decide

/-- The six columns, as `loadPolicyLine` takes them. -/
def lineValues (policy : Casbin_Policy) : List String :=
  let v0 := if policy.Ptype = "p" ∧ policy.V0 ≠ "" then rbacRole policy.V0 else policy.V0
  let v1 := if policy.Ptype = "g" ∧ policy.V1 ≠ "" then rbacRole policy.V1 else policy.V1
  [v0, v1, policy.V2, policy.V3, policy.V4, policy.V5]

def lineText (policy : Casbin_Policy) : String :=
  (lineValues policy).foldl (fun text value => if value ≠ "" then text ++ ", " ++ value else text)
    policy.Ptype

/-- The columns, as `currentPolicy` takes them. -/
def columns (policy : Casbin_Policy) : Except GoError (List String) :=
  if policy.Ptype = "p" then
    .ok ("p" :: [rbacRole policy.V0, policy.V1, policy.V2, policy.V3, policy.V4,
      policy.V5].rdropWhile (· = ""))
  else if policy.Ptype = "g" then
    .ok ("g" :: [policy.V0, rbacRole policy.V1, policy.V2, policy.V3, policy.V4,
      policy.V5].rdropWhile (· = ""))
  else .error (.errorf "invalid ACL policy type: " (.concept Err_INTERNAL))

namespace Casbin

variable (c : Casbin)

/-- A rule that is there already is skipped. -/
def LoadPolicyArray (m : Model) : List String → Except GoError Model
  | ptype :: rule =>
      if ptype = "p" then
        match c.invalid "p" rule with
        | some err => .error err
        | none => .ok (m.AddPolicy rule).1
      else if ptype = "g" then
        match c.invalid "g" rule with
        | some err => .error err
        | none => .ok (m.AddRoleForUser rule none).1
      else .error (.text "missing required section")
  | [] => .error (.text "missing required section")

/-- None where it returns an error; the one caller writes it to the log. -/
def LoadPolicyLine (m : Model) (line : String) : Option Model :=
  if line = "" ∨ hasPrefix "#" line then some m
  else
    match policyDialect.read line with
    | .error _ => none
    | .ok tokens => (c.LoadPolicyArray m tokens).toOption

def loadPolicyLine (policy : Casbin_Policy) (m : Model) : Model :=
  (c.LoadPolicyLine m (lineText policy)).getD m

def loadLines (m : Model) (lines : List Casbin_Policy) : Model :=
  lines.foldl (fun m policy => c.loadPolicyLine policy m) m

/-- `cassemAdapter.LoadPolicy`, of what the KV store answers. -/
def LoadPolicy (m : Model) : Except GoError (List Casbin_Policy) → Except GoError Model
  | .error err =>
      if err.errorsIs (.concept Err_NOT_FOUND) = true then .ok m
      else .error (.errorf "cassemAdapter.LoadPolicy: " err)
  | .ok lines => .ok (c.loadLines m lines)

def currentRules (m : Model) : List Casbin_Policy → Except GoError Model
  | [] => .ok m
  | policy :: rest => do
      let values ← columns policy
      let m ← (c.LoadPolicyArray m values).mapError fun _ =>
        .errorf "invalid ACL policy rule: " (.concept Err_INTERNAL)
      currentRules m rest

/-- Of what the KV store answers; none for a record that cannot be decoded. -/
def currentPolicy : Except GoError (Option (List Casbin_Policy)) → Except GoError Model
  | .error err =>
      if err.errorsIs (.concept Err_NOT_FOUND) = true then .error (.concept Err_PERMISSION_DENIED)
      else .error (.errorf "AuthorizeToken.loadPolicy: " err)
  | .ok none => .error (.errorf "invalid ACL policy record: " (.concept Err_INTERNAL))
  | .ok (some lines) => do
      let m ← c.currentRules {} lines
      match c.links m with
      | some _ => .error (.errorf "AuthorizeToken.roleLinks: " (.concept Err_INTERNAL))
      | none => .ok m

end Casbin

/-! ## What the process can hold -/

/-- A change of the rules in memory, with what becomes of the role links and the save. -/
inductive Change where
  | AutoMigrate (save : Save)
  | assignRole (account role : String) (allowSuperadmin : Bool) (domain : List String)
      (link : Option GoError) (save : Save)
  | RevokeRole (account role : String) (domain : List String) (link : Option GoError) (save : Save)

def Change.apply (a : Acl) : Change → Acl
  | .AutoMigrate save => (Coord.AutoMigrate a save).1
  | .assignRole account role allowSuperadmin domain link save =>
      (Coord.assignRole a account role allowSuperadmin domain link save).1
  | .RevokeRole account role domain link save =>
      (Coord.RevokeRole a account role domain link save).1

/-- What a process that starts on an empty store holds after the changes. -/
def build (changes : List Change) : Acl := changes.foldl Change.apply Acl.empty

/-- The policies are built-in ones, the groupings are of stored roles, and none is there twice. -/
structure Model.Filed (m : Model) : Prop where
  p_nodup : m.p.Nodup
  p_builtin : ∀ rule ∈ m.p, rule ∈ builtinPolicies
  g_nodup : m.g.Nodup
  g_role : ∀ rule ∈ m.g, ∃ account role domain, rule = account :: rbacRole role :: domain

namespace Model.Filed

variable {m : Model}

theorem addPolicy {rule : Rule} (h : m.Filed) (hrule : rule ∈ builtinPolicies) :
    (m.AddPolicy rule).1.Filed := by
  rw [AddPolicy_model]
  refine { h with p_nodup := Fold.nodup_addNew h.p_nodup rule, p_builtin := ?_ }
  intro r hr
  rcases Fold.mem_addNew.mp hr with hr | hr
  · exact h.p_builtin r hr
  · exact hr ▸ hrule

theorem addBuiltin (h : m.Filed) : (addBuiltin m).1.Filed := by
  refine List.foldlRecOn (motive := fun s : Model × Bool => s.1.Filed) builtinPolicies _ h ?_
  intro s hs rule hrule
  exact hs.addPolicy hrule

theorem addRole {account role : String} {domain : List String} (link : Option GoError)
    (h : m.Filed) : (m.AddRoleForUser (account :: rbacRole role :: domain) link).1.Filed := by
  rw [AddRoleForUser_model]
  refine { h with g_nodup := Fold.nodup_addNew h.g_nodup _, g_role := ?_ }
  intro r hr
  rcases Fold.mem_addNew.mp hr with hr | hr
  · exact h.g_role r hr
  · exact ⟨account, role, domain, hr⟩

theorem deleteRole {rule : Rule} (link : Option GoError) (h : m.Filed) :
    (m.DeleteRoleForUser rule link).1.Filed := by
  unfold Model.DeleteRoleForUser
  split
  · exact { h with
      g_nodup := h.g_nodup.filter _
      g_role := fun r hr => h.g_role r (List.mem_of_mem_filter hr) }
  · exact h

end Model.Filed

theorem AutoMigrate_model (a : Acl) (save : Save) :
    (AutoMigrate a save).1.model = (addBuiltin a.model).1 := by
  unfold AutoMigrate
  generalize addBuiltin a.model = added
  obtain ⟨model, changed⟩ := added
  dsimp only
  split
  · rfl
  · exact SavePolicy_model _ save

theorem filed_apply {a : Acl} (h : a.model.Filed) (change : Change) :
    (change.apply a).model.Filed := by
  cases change with
  | AutoMigrate save =>
    rw [Change.apply, AutoMigrate_model]
    exact h.addBuiltin
  | assignRole account role allowSuperadmin domain link save =>
    rw [Change.apply]
    unfold Coord.assignRole
    split
    · exact h
    · rw [changed_model]
      exact h.addRole link
  | RevokeRole account role domain link save =>
    rw [Change.apply]
    unfold Coord.RevokeRole
    split
    · exact h
    · rw [changed_model]
      exact h.deleteRole link

theorem filed_build (changes : List Change) : (build changes).model.Filed := by
  have hempty : Acl.empty.model.Filed := by
    refine ⟨List.nodup_nil, ?_, List.nodup_nil, ?_⟩
    · intro rule h
      cases h
    · intro rule h
      cases h
  exact List.foldlRecOn (motive := fun a : Acl => a.model.Filed) changes _ hempty
    fun _ ha change _ => filed_apply ha change

end Cassem.Coord
