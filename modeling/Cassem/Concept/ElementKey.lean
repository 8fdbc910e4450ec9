import Mathlib
import Cassem.Concept.Element

/-!
# The keys of an element

An element is named by its app, its environment and its own key. Below that name lie
its metadata and its versions, and in another tree the operations on it; no two of
these keys are the same.
-/

namespace Cassem.Concept

def joint (keys : List String) : String := "/".intercalate keys

def GenElementKey (app env key : String) : Except Fault String :=
  if app = "" ∨ env = "" ∨ key = "" then .error (.panic "empty string could not be accepted")
  else .ok (joint ["cassem/elements", app, env, key])

def versionKey (key : String) (version : Int) : String := joint [key, "v" ++ toString version]

def WithVersion (key : String) (version : Int) : Except Fault String :=
  if version < 1 then .error (.panic ("invalid version: " ++ toString version))
  else .ok (versionKey key version)

def WithMetadataSuffix (key : String) : String := key ++ "/metadata"

def GenElementOperationKeyPrefix (app env key : String) : String :=
  joint ["cassem/operations", app, env, key]

def GenElementOperationDirKey (app env key : String) : String :=
  joint [GenElementOperationKeyPrefix app env key, "operations"]

def GenElementOperationKey (app env key : String) (operatedAt : Int) : String :=
  joint [GenElementOperationDirKey app env key, toString operatedAt]

/-- `strings.TrimPrefix`. -/
def trimPrefix (s pre : List Char) : List Char := if pre <+: s then s.drop pre.length else s

theorem trimPrefix_append (pre s : List Char) : trimPrefix (pre ++ s) pre = s := by
  rw [trimPrefix, if_pos (List.prefix_append pre s), List.drop_left]

/-- A separator that neither part before it contains splits a list in one way. -/
theorem cons_inj_of_notMem {α : Type} {c : α} {xs ys as bs : List α} (hx : c ∉ xs) (hy : c ∉ ys)
    (h : xs ++ c :: as = ys ++ c :: bs) : xs = ys ∧ as = bs := by
  induction xs generalizing ys with
  | nil =>
    cases ys with
    | nil => exact ⟨rfl, (List.cons.inj h).2⟩
    | cons y ys => exact absurd ((List.cons.inj h).1 ▸ List.mem_cons_self) hy
  | cons x xs ih =>
    cases ys with
    | nil => exact absurd ((List.cons.inj h).1 ▸ List.mem_cons_self) hx
    | cons y ys =>
      obtain ⟨hhead, htail⟩ := List.cons.inj h
      obtain ⟨heq, hrest⟩ := ih (fun hm => hx (List.mem_cons_of_mem _ hm))
        (fun hm => hy (List.mem_cons_of_mem _ hm)) htail
      exact ⟨by rw [hhead, heq], hrest⟩

theorem joint_pair (a b : String) : joint [a, b] = a ++ ("/" ++ b) :=
  String.append_assoc

theorem versionKey_inj {key : String} {m n : Int} :
    versionKey key m = versionKey key n ↔ m = n := by
  rw [versionKey, versionKey, joint_pair, joint_pair, String.append_right_inj,
    String.append_right_inj, String.append_right_inj]
  exact Int.repr_inj

theorem operationKey_inj {app env key : String} {s t : Int} :
    GenElementOperationKey app env key s = GenElementOperationKey app env key t ↔ s = t := by
  rw [GenElementOperationKey, GenElementOperationKey, joint_pair, joint_pair,
    String.append_right_inj, String.append_right_inj]
  exact Int.repr_inj

theorem metadata_ne_version (key : String) (n : Int) :
    WithMetadataSuffix key ≠ versionKey key n := by
  rw [WithMetadataSuffix, versionKey, joint_pair, Ne, String.append_right_inj]
  intro h
  have hlist := congrArg (fun s : String => s.toList[1]?) h
  simp at hlist

/-- Operations lie in a tree of their own: the first names differ at their eighth character. -/
theorem operationDir_ne_element (app env key below app' env' key' suffix : String) :
    GenElementOperationDirKey app env key ++ below ≠
      joint ["cassem/elements", app', env', key'] ++ suffix := by
  intro h
  have hlist := congrArg (fun s : String => s.toList[7]?) h
  simp [GenElementOperationDirKey, GenElementOperationKeyPrefix, joint] at hlist

theorem operationKey_ne_element (app env key : String) (operatedAt : Int)
    (app' env' key' suffix : String) :
    GenElementOperationKey app env key operatedAt ≠
      joint ["cassem/elements", app', env', key'] ++ suffix := by
  rw [GenElementOperationKey, joint_pair]
  exact operationDir_ne_element app env key _ app' env' key' suffix

end Cassem.Concept
