import Cassem.Coord.Account
import Cassem.Lib.Fold

/-!
# Roles

The RBAC of `aclImpl`: the rules that the enforcer of one process holds in memory, and the record
they are saved to. Of casbin it is taken that a rule is added or removed in memory, which reports
false where nothing changes, and that the role links are built after that, which may fail.
-/

namespace Cassem.Coord

open Lib Cassem.Concept

/-! ## Names -/

def hasPrefix (pre s : String) : Bool := pre.toList.isPrefixOf s.toList

def normalizeRole (role : String) : String :=
  if role = "developer" then "appdeveloper" else role

def rbacRole (role : String) : String :=
  let role := normalizeRole role
  if hasPrefix "role:" role then role else "role:" ++ role

/-! ## The rules in memory -/

abbrev Rule := List String

/-- The policies and the groupings, in the order in which they were added. -/
structure Model where
  p : List Rule := []
  g : List Rule := []
  deriving DecidableEq, Repr

namespace Model

/-- What adding or removing a rule reports, of the error of building the role links. -/
def linked (link : Option GoError) : Except GoError Bool :=
  match link with
  | some err => .error err
  | none => .ok true

def AddPolicy (m : Model) (rule : Rule) : Model × Bool :=
  if rule ∈ m.p then (m, false) else ({ m with p := m.p ++ [rule] }, true)

def AddRoleForUser (m : Model) (rule : Rule) (link : Option GoError) : Model × Except GoError Bool :=
  if rule ∈ m.g then (m, .ok false) else ({ m with g := m.g ++ [rule] }, linked link)

def DeleteRoleForUser (m : Model) (rule : Rule) (link : Option GoError) :
    Model × Except GoError Bool :=
  if rule ∈ m.g then ({ m with g := m.g.filter (· ≠ rule) }, linked link) else (m, .ok false)

/-- `GetFilteredGroupingPolicy` on the first field; an empty value matches every rule. -/
def GetFilteredGroupingPolicy (m : Model) (account : String) : List Rule :=
  m.g.filter fun rule => account = "" || rule.head? = some account

end Model

structure RoleBinding where
  Role : String
  Domain : String
  deriving DecidableEq, Repr

/-- The binding that a grouping rule stands for. -/
def bindingOf : Rule → Option RoleBinding
  | _ :: role :: rest =>
      let domain := match rest with
        | d :: _ => if d = "" then "cluster" else d
        | [] => "cluster"
      some ⟨normalizeRole (String.ofList (trimPrefix role.toList "role:".toList)), domain⟩
  | _ => none

def RoleBinding.key (b : RoleBinding) : String := b.Role ++ "\x00" ++ b.Domain

/-- One binding after the other, but none with a key that was seen before. -/
def distinctBindings (seen : List String) : List RoleBinding → List RoleBinding
  | [] => []
  | b :: bs =>
      if b.key ∈ seen then distinctBindings seen bs
      else b :: distinctBindings (b.key :: seen) bs

def GetUserRoleBindings (m : Model) (account : String) : List RoleBinding :=
  distinctBindings [] ((m.GetFilteredGroupingPolicy account).filterMap bindingOf)

def userHasRole (m : Model) (account role : String) : Bool :=
  (GetUserRoleBindings m account).any (·.Role = role)

/-! ## The record -/

/-- `pb.Casbin_Policy`. -/
structure Casbin_Policy where
  Ptype : String
  V0 : String
  V1 : String
  V2 : String
  V3 : String
  V4 : String
  V5 : String
  deriving DecidableEq, Repr

def savePolicyLine (ptype : String) (rule : Rule) : Casbin_Policy where
  Ptype := ptype
  V0 := rule.getD 0 ""
  V1 := rule.getD 1 ""
  V2 := rule.getD 2 ""
  V3 := rule.getD 3 ""
  V4 := rule.getD 4 ""
  V5 := rule.getD 5 ""

def policyLines (m : Model) : List Casbin_Policy :=
  m.p.map (savePolicyLine "p") ++ m.g.map (savePolicyLine "g")

/-- What becomes of a save: it is done, it is refused, or it is done and its answer is lost. -/
inductive Save where
  | done
  | refused (err : GoError)
  | unanswered (err : GoError)
  deriving Repr

/-- What one process holds in memory, and the record in the KV store. -/
structure Acl where
  model : Model
  stored : List Casbin_Policy

def SavePolicy (a : Acl) : Save → Acl × Except GoError Unit
  | .done => ({ a with stored := policyLines a.model }, .ok ())
  | .refused err => (a, .error (.errorf "cassemAdapter.SavePolicy: " err))
  | .unanswered err =>
      ({ a with stored := policyLines a.model }, .error (.errorf "cassemAdapter.SavePolicy: " err))

/-! ## Roles of users -/

/-- The rest of a call that has changed the rules in memory, or found nothing to change. -/
def Acl.changed (a : Acl) (call : String) (change : Model × Except GoError Bool) (save : Save) :
    Acl × Except GoError Unit :=
  let a := { a with model := change.1 }
  match change.2 with
  | .error err => (a, .error (.errorf ("aclImpl." ++ call ++ ": ") err))
  | .ok false => (a, .ok ())
  | .ok true =>
      let (a, res) := SavePolicy a save
      (a, res.mapError (.errorf ("aclImpl." ++ call ++ ".savePolicy: ")))

def assignRole (a : Acl) (account role : String) (allowSuperadmin : Bool) (domain : List String)
    (link : Option GoError) (save : Save) : Acl × Except GoError Unit :=
  if normalizeRole role = "superadmin" ∧ allowSuperadmin = false then
    (a, .error (.errorf "could not assign superadmin: " (.concept Err_PERMISSION_DENIED)))
  else
    a.changed "AssignRole" (a.model.AddRoleForUser (account :: rbacRole role :: domain) link) save

def AssignRole (a : Acl) (account role : String) (domain : List String) (link : Option GoError)
    (save : Save) : Acl × Except GoError Unit := assignRole a account role false domain link save

def RevokeRole (a : Acl) (account role : String) (domain : List String) (link : Option GoError)
    (save : Save) : Acl × Except GoError Unit :=
  match AccountEnv.rejectSuperadminTarget (.ok (userHasRole a.model account "superadmin"))
    "revoke" with
  | .error err => (a, .error err)
  | .ok () =>
      a.changed "RevokeRole" (a.model.DeleteRoleForUser (account :: rbacRole role :: domain) link)
        save

/-- The built-in permissions. -/
def builtinPolicies : List Rule :=
  [[rbacRole "superadmin", "*", "*", "*"],
   [rbacRole "admin", "*", "*", "r"],
   [rbacRole "admin", "*", "*", "w"],
   [rbacRole "appowner", "*", "app", "r"],
   [rbacRole "appowner", "*", "app", "w"],
   [rbacRole "appowner", "*", "elem", "r"],
   [rbacRole "appowner", "*", "elem", "w"],
   [rbacRole "appowner", "*", "elem", "d"],
   [rbacRole "appowner", "*", "elem", "p"],
   [rbacRole "appdeveloper", "*", "app", "r"],
   [rbacRole "appdeveloper", "*", "elem", "r"],
   [rbacRole "appdeveloper", "*", "elem", "w"],
   [rbacRole "visitor", "*", "app", "r"],
   [rbacRole "visitor", "*", "elem", "r"]]

/-- The policies with the built-in ones, and whether one of them was missing. -/
def addBuiltin (m : Model) : Model × Bool :=
  builtinPolicies.foldl (fun (m, changed) rule =>
    let (m, added) := m.AddPolicy rule
    (m, changed || added)) (m, false)

def AutoMigrate (a : Acl) (save : Save) : Acl × Except GoError Unit :=
  let (model, changed) := addBuiltin a.model
  let a := { a with model := model }
  if changed = false then (a, .ok ()) else SavePolicy a save

def BootstrapAdmin (env : AccountEnv) (users : UserStore) (a : Acl)
    (account nickname password salt : String) (link : Option GoError) (save : Save) :
    UserStore × Acl × Except GoError Unit :=
  match env.GetUser users account with
  | .ok _ => (users, assignRole a account "superadmin" true ["*"] link save)
  | .error err =>
      if err.errorsIs (.concept Err_NOT_FOUND) = false then
        (users, a, .error (.errorf "aclImpl.BootstrapAdmin: " err))
      else
        match env.AddUser users ⟨account, nickname, password, "", .NORMAL⟩ salt with
        | .error err => (users, a, .error (.errorf "aclImpl.BootstrapAdmin: " err))
        | .ok users => (users, assignRole a account "superadmin" true ["*"] link save)

/-! ## What a call leaves in memory -/

@[simp] theorem SavePolicy_model (a : Acl) (save : Save) : (SavePolicy a save).1.model = a.model := by
  cases save <;> rfl

@[simp] theorem changed_model (a : Acl) (call : String) (change : Model × Except GoError Bool)
    (save : Save) : (a.changed call change save).1.model = change.1 := by
  unfold Acl.changed
  match change.2 with
  | .error err => rfl
  | .ok false => rfl
  | .ok true => exact SavePolicy_model _ save

theorem AddPolicy_model (m : Model) (rule : Rule) :
    (m.AddPolicy rule).1 = { m with p := Fold.addNew m.p rule } := by
  unfold Model.AddPolicy Fold.addNew
  split <;> rfl

theorem AddRoleForUser_model (m : Model) (rule : Rule) (link : Option GoError) :
    (m.AddRoleForUser rule link).1 = { m with g := Fold.addNew m.g rule } := by
  unfold Model.AddRoleForUser Fold.addNew
  split <;> rfl

theorem DeleteRoleForUser_g (m : Model) (rule : Rule) (link : Option GoError) :
    (m.DeleteRoleForUser rule link).1.g = m.g.filter (· ≠ rule) := by
  unfold Model.DeleteRoleForUser
  split
  · rfl
  · next hrule =>
    have hkept : ∀ r ∈ m.g, decide (r ≠ rule) = true := by
      intro r hr
      rw [decide_eq_true_eq]
      rintro rfl
      exact hrule hr
    exact (List.filter_eq_self.mpr hkept).symm

end Cassem.Coord
