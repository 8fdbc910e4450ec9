import Cassem.Adm.Route
import Cassem.Concept.ElementKey
import Cassem.Lib.Fold
import Mathlib.Logic.Function.Basic

/-!
# Accounts

The operations of `aclImpl` on the records of users. The hash of a password and the answer of
the KV client to a request without a key are parameters; whether an account is bound to the
superadmin role is asked of the policies, which these operations leave alone.
-/

namespace Cassem.Coord

open Lib Cassem.Concept
open Adm (UserStatus)

/-- `pb.User`. -/
structure User where
  Account : String
  Nickname : String
  HashedPassword : String
  Salt : String
  Status : UserStatus
  deriving DecidableEq, Repr

def GenUserKey (account : String) : String :=
  if account = "" then "" else joint ["cassem/acl/users", account]

/-- The KV records below `cassem/acl/users`, by their whole keys. -/
abbrev UserStore := String → Option User

structure AccountEnv where
  WithSalt : (password salt : String) → String
  violation : GoError

namespace AccountEnv

variable (env : AccountEnv) (users : UserStore)

def getKV (key : String) : Except GoError User :=
  if key = "" then .error env.violation
  else
    match users key with
    | none => .error (.concept Err_NOT_FOUND)
    | some u => .ok u

def setKV (key : String) (u : User) (overwrite : Bool) : Except GoError UserStore :=
  if key = "" then .error env.violation
  else if overwrite = false ∧ (users key).isSome = true then .error (.concept Err_ALREADY_EXISTS)
  else .ok (Function.update users key (some u))

def GetUser (account : String) : Except GoError User :=
  (env.getKV users (GenUserKey account)).mapError (.errorf "aclImpl.GetUser: ")

def AddUser (u : User) (salt : String) : Except GoError UserStore :=
  let u := { u with Salt := salt, HashedPassword := env.WithSalt u.HashedPassword salt }
  (env.setKV users (GenUserKey u.Account) u false).mapError (.errorf "aclImpl.AddUser: ")

def saveUser (u : User) : Except GoError UserStore :=
  (env.setKV users (GenUserKey u.Account) u true).mapError (.errorf "aclImpl.saveUser: ")

/-- `rejectSuperadminTarget`, of what `userHasRole` returns. -/
def rejectSuperadminTarget (hasRole : Except GoError Bool) (action : String) :
    Except GoError Unit :=
  match hasRole with
  | .error err => .error (.errorf ("aclImpl." ++ action ++ "Superadmin: ") err)
  | .ok true =>
      .error (.errorf ("could not " ++ action ++ " superadmin: ") (.concept Err_PERMISSION_DENIED))
  | .ok false => .ok ()

def DisableUser (hasRole : Except GoError Bool) (account : String) : Except GoError UserStore := do
  rejectSuperadminTarget hasRole "disable"
  let u ← (env.getKV users (GenUserKey account)).mapError (.errorf "aclImpl.DisableUser: ")
  env.saveUser users { u with Status := .FORBIDDEN }

def ResetUser (hasRole : Except GoError Bool) (account password salt : String) :
    Except GoError UserStore := do
  rejectSuperadminTarget hasRole "reset"
  let u ← (env.getKV users (GenUserKey account)).mapError (.errorf "aclImpl.ResetUser: ")
  env.saveUser users
    { u with Salt := salt, HashedPassword := env.WithSalt password salt, Status := .NORMAL }

end AccountEnv

/-! ## What the operations do to a record -/

theorem GenUserKey_eq_empty {account : String} : GenUserKey account = "" ↔ account = "" := by
  unfold GenUserKey
  split
  · next h => simp [h]
  · next h =>
    refine ⟨fun hkey => ?_, fun haccount => absurd haccount h⟩
    rw [joint_pair] at hkey
    have hlen := congrArg String.length hkey
    simp [String.length_append] at hlen

theorem GenUserKey_inj {account account' : String} (h : GenUserKey account = GenUserKey account')
    (hne : account ≠ "") : account = account' := by
  have hkey : GenUserKey account' ≠ "" := h ▸ fun hempty => hne (GenUserKey_eq_empty.mp hempty)
  have hne' : account' ≠ "" := fun hempty => hkey (GenUserKey_eq_empty.mpr hempty)
  unfold GenUserKey at h
  rw [if_neg hne, if_neg hne', joint_pair, joint_pair, String.append_right_inj,
    String.append_right_inj] at h
  exact h

/-- The record of the account. -/
def userOf (users : UserStore) (account : String) : Option User := users (GenUserKey account)

/-- The user exists and is in order. -/
def Usable (users : UserStore) (account : String) : Prop :=
  ∃ u, userOf users account = some u ∧ u.Status = .NORMAL

def put (users : UserStore) (u : User) : UserStore :=
  Function.update users (GenUserKey u.Account) (some u)

section Written

variable {env : AccountEnv} {users users' : UserStore} {account : String} {u : User}

theorem getKV_ok (h : env.getKV users (GenUserKey account) = .ok u) :
    userOf users account = some u := by
  unfold AccountEnv.getKV at h
  split at h
  · cases h
  · split at h
    · cases h
    · next hu => cases h; exact hu

theorem setKV_ok {overwrite : Bool} (h : env.setKV users (GenUserKey u.Account) u overwrite =
    .ok users') : u.Account ≠ "" ∧ (overwrite = false → userOf users u.Account = none) ∧
      users' = put users u := by
  unfold AccountEnv.setKV at h
  split at h
  · cases h
  · next hkey =>
    split at h
    · cases h
    · next hfree =>
      cases h
      refine ⟨fun hempty => hkey (GenUserKey_eq_empty.mpr hempty), fun hover => ?_, rfl⟩
      rw [not_and, Bool.not_eq_true, Option.isSome_eq_false_iff, Option.isNone_iff_eq_none] at hfree
      exact hfree hover

theorem AddUser_ok {salt : String} (h : env.AddUser users u salt = .ok users') :
    u.Account ≠ "" ∧ userOf users u.Account = none ∧
      users' = put users
        { u with Salt := salt, HashedPassword := env.WithSalt u.HashedPassword salt } := by
  obtain ⟨hne, hfree, heq⟩ := setKV_ok (Fold.mapError_ok h)
  exact ⟨hne, hfree rfl, heq⟩

theorem DisableUser_ok {hasRole : Except GoError Bool}
    (h : env.DisableUser users hasRole account = .ok users') :
    ∃ u, userOf users account = some u ∧ u.Account ≠ "" ∧
      users' = put users { u with Status := .FORBIDDEN } := by
  obtain ⟨-, -, h⟩ := Fold.bind_eq_ok h
  obtain ⟨u, hu, h⟩ := Fold.bind_eq_ok h
  obtain ⟨hne, -, heq⟩ := setKV_ok (Fold.mapError_ok h)
  exact ⟨u, getKV_ok (Fold.mapError_ok hu), hne, heq⟩

theorem ResetUser_ok {hasRole : Except GoError Bool} {password salt : String}
    (h : env.ResetUser users hasRole account password salt = .ok users') :
    ∃ u, userOf users account = some u ∧ u.Account ≠ "" ∧ users' = put users
      { u with Salt := salt, HashedPassword := env.WithSalt password salt, Status := .NORMAL } := by
  obtain ⟨-, -, h⟩ := Fold.bind_eq_ok h
  obtain ⟨u, hu, h⟩ := Fold.bind_eq_ok h
  obtain ⟨hne, -, heq⟩ := setKV_ok (Fold.mapError_ok h)
  exact ⟨u, getKV_ok (Fold.mapError_ok hu), hne, heq⟩

end Written

/-- Every record lies under the key of its account. -/
def Filed (users : UserStore) : Prop :=
  ∀ key u, users key = some u → key = GenUserKey u.Account ∧ u.Account ≠ ""

namespace Filed

variable {users : UserStore} (h : Filed users)
include h

theorem account_eq {account : String} {u : User} (hu : userOf users account = some u) :
    u.Account = account := by
  obtain ⟨hkey, hne⟩ := h _ u hu
  exact GenUserKey_inj hkey.symm hne

theorem put {u : User} (hne : u.Account ≠ "") : Filed (put users u) := by
  intro key u' hu'
  unfold Coord.put at hu'
  by_cases hkey : key = GenUserKey u.Account
  · rw [hkey, Function.update_self] at hu'
    cases hu'
    exact ⟨hkey, hne⟩
  · rw [Function.update_of_ne hkey] at hu'
    exact h key u' hu'

end Filed

/-- The record of the written account is the new one, those of the others stay. -/
theorem userOf_put {users : UserStore} {u : User} (hne : u.Account ≠ "") (account : String) :
    userOf (put users u) account = if account = u.Account then some u else userOf users account := by
  unfold userOf put
  split
  · next h => rw [h, Function.update_self]
  · next h =>
    refine Function.update_of_ne (fun hkey => ?_) ..
    exact h (GenUserKey_inj hkey.symm hne).symm

end Cassem.Coord
