import Cassem.KV.HierarchicalMap
import Cassem.KV.Listing

/-!
# Calls one at a time

What `SetKV`, `UnsetKV` and `GetKV` make of the store of a node where the command of a call is
applied before the next call begins.
-/

namespace Cassem.KV

open Lib Lib.HierMap

/-- Propose a command, and wait until it has been applied. -/
def commit (store : Store) (cmd : MutateCommand) : Store × Option GoError :=
  match mutateStore store cmd with
  | .error err => (store, some err)
  | .ok (store, _) => (store, none)

def UnsetKV (store : Store) (key : String) (isDir : Bool) : Store × Option GoError :=
  commit store (unsetCommand key isDir)

/-- A last value that has expired is removed first; whether that fails is not asked. -/
def SetKV (md5 : Bytes → String) (now : Int) (store : Store) (req : SetKVReq) :
    Store × Option GoError :=
  match getKV store req.key req.isDir with
  | .error _ => commit store (setCommand md5 now req none)
  | .ok last =>
      match entityExpired now last with
      | (true, _) => commit (UnsetKV store last.key false).1 (setCommand md5 now req none)
      | (false, last) =>
          if req.overwrite then commit store (setCommand md5 now req (some last))
          else (store, some ErrExists)

def GetKV (now : Int) (store : Store) (key : String) : Store × Except GoError Entity :=
  match getKV store key false with
  | .error err => (store, .error err)
  | .ok val =>
      match entityExpired now val with
      | (true, _) => ((UnsetKV store val.key false).1, .error ErrNotFound)
      | (false, val) => (store, .ok val)

/-! ## Commands -/

section Commit

variable {store : Store} {cmd : MutateCommand}

theorem commit_of_fits {o : Op String Entity} (ho : commandOp cmd = some o)
    (hfit : o.Fits store.look) :
    ∃ store', commit store cmd = (store', none) ∧ store'.look = o.effect store.look := by
  obtain ⟨store', cur, hstore, hlook⟩ := (mutateStore_spec store cmd).1 o ho hfit
  exact ⟨store', by rw [commit, hstore], hlook⟩

theorem commit_of_rejected (h : ¬ Accepts store cmd) :
    ∃ err, commit store cmd = (store, some err) := by
  obtain ⟨err, herr⟩ := (mutateStore_spec store cmd).2 h
  exact ⟨err, by rw [commit, herr]⟩

/-- The store after a command, whether it is accepted or not. -/
theorem commit_cases (store : Store) (cmd : MutateCommand) :
    (commit store cmd).1 = store ∨ ∃ o, commandOp cmd = some o ∧ o.Fits store.look ∧
      (commit store cmd).1.look = o.effect store.look := by
  by_cases h : Accepts store cmd
  · obtain ⟨o, ho, hfit⟩ := h
    obtain ⟨store', hcommit, hlook⟩ := commit_of_fits ho hfit
    exact .inr ⟨o, ho, hfit, by rw [hcommit, hlook]⟩
  · obtain ⟨err, herr⟩ := commit_of_rejected h
    exact .inl (by rw [herr])

end Commit

/-! ## Keys of plain segments -/

section Key

variable {front : List String} {leaf : String} (hfront : front ≠ [])
  (h : ∀ s ∈ front ++ [leaf], Plain s)
include hfront h

theorem setOp_plain (val : Entity) (dir : Bool) :
    setOp ("/".intercalate (front ++ [leaf])) val dir =
      if dir then some (.mkdir (front ++ [leaf]))
      else if Bolt.MaxKeySize < leaf.utf8ByteSize then none
      else some (.put (front ++ [leaf]) val) := by
  have hmalformed := not_malformed_plain h
  rw [Malformed, keySplitter_plain h] at hmalformed
  unfold setOp
  rw [keyPath_plain h, keySplitter_plain h]
  dsimp only
  rw [if_neg (not_or.mpr ⟨hfront, hmalformed⟩)]

theorem unsetOp_plain (dir : Bool) :
    unsetOp ("/".intercalate (front ++ [leaf])) dir =
      some (if dir then .rmdir (front ++ [leaf]) else .del (front ++ [leaf])) := by
  obtain ⟨hleaf, hempty⟩ := firstEmpty_of_not_malformed (not_malformed_plain h)
  rw [keySplitter_plain h] at hleaf hempty
  dsimp only at hleaf hempty
  unfold unsetOp
  rw [keyPath_plain h, keySplitter_plain h]
  dsimp only
  rw [if_neg (by simp [hfront, hleaf]), hempty]
  cases dir <;> rfl

theorem valueKey_plain : ValueKey ("/".intercalate (front ++ [leaf])) := by
  obtain ⟨hleaf, hempty⟩ := firstEmpty_of_not_malformed (not_malformed_plain h)
  refine ⟨?_, hleaf, hempty⟩
  rw [keySplitter_plain h]
  exact hfront

/-- What is removed is gone with all that was below it, and nothing else changes. -/
theorem UnsetKV_ok {store : Store} {dir : Bool}
    (hok : (UnsetKV store ("/".intercalate (front ++ [leaf])) dir).2 = none) (q : List String) :
    (UnsetKV store ("/".intercalate (front ++ [leaf])) dir).1.look q =
      if front ++ [leaf] <+: q then none else store.look q := by
  have hop := unsetOp_plain hfront h dir
  unfold UnsetKV at hok ⊢
  by_cases haccepts : Accepts store (unsetCommand ("/".intercalate (front ++ [leaf])) dir)
  · obtain ⟨o, ho, hfit⟩ := haccepts
    obtain ⟨store', hcommit, hlook⟩ := commit_of_fits ho hfit
    cases hop.symm.trans ho
    rw [hcommit]
    cases dir with
    | true => exact (congrFun hlook q).trans (Op.effect_rmdir _ _ q)
    | false =>
      have hnot : store.look (front ++ [leaf]) ≠ some .dir := Op.del_fits_iff.mp hfit
      refine (congrFun hlook q).trans ((Op.effect_del _ _ q).trans ?_)
      by_cases hq : q = front ++ [leaf]
      · rw [if_pos hq, if_pos (hq ▸ List.prefix_rfl)]
      · rw [if_neg hq]
        split
        · next hpre =>
          obtain ⟨r, rfl⟩ := hpre
          exact look_none_below hnot fun hr => hq (by rw [hr, List.append_nil])
        · rfl
  · obtain ⟨err, herr⟩ := commit_of_rejected haccepts
    rw [herr] at hok
    cases hok

end Key

/-! ## Values without a time to live -/

/-- What stands at the path is a value that does not expire, if anything. -/
def Steady (store : Store) (path : List String) : Prop :=
  ∀ c, store.look path = some c → ∃ e, c = .val e ∧ e.ttl = NeverExpired

section Value

variable {store : Store} {front : List String} {leaf : String} (hfront : front ≠ [])
  (h : ∀ s ∈ front ++ [leaf], Plain s) (hsteady : Steady store (front ++ [leaf])) (now : Int)
include hfront h hsteady

/-- The value is read as it is stored, and nothing is removed. -/
theorem GetKV_steady :
    ∃ r, GetKV now store ("/".intercalate (front ++ [leaf])) = (store, r) ∧
      match store.look (front ++ [leaf]) with
      | some (.val e) => r = .ok e
      | _ => ∃ err, r = .error err ∧ err.errorsIs (.concept Concept.Err_NOT_FOUND) = true := by
  have hget := getKV_eq (valueKey_plain hfront h) store false
  rw [keyPath_plain h, keySplitter_plain h] at hget
  unfold GetKV
  cases hlook : store.look (front ++ [leaf]) with
  | none =>
    rw [hlook] at hget
    rw [hget]
    refine ⟨_, rfl, _, rfl, ?_⟩
    dsimp only
    split <;> decide
  | some c =>
    obtain ⟨e, rfl, httl⟩ := hsteady c hlook
    rw [hlook] at hget
    rw [hget]
    have hlive : entityExpired now e = (false, e) := if_pos httl
    dsimp only
    rw [hlive]
    exact ⟨.ok e, rfl, rfl⟩

/-- Without overwriting, what stands there stays; else the new value takes its place. -/
theorem SetKV_steady (md5 : Bytes → String) (req : SetKVReq)
    (hkey : req.key = "/".intercalate (front ++ [leaf])) (hdir : req.isDir = false)
    (httl : req.ttl = 0) (hsize : leaf.utf8ByteSize ≤ Bolt.MaxKeySize)
    (hparents : ∀ q v, q <+: front → store.look q ≠ some (.val v)) :
    if req.overwrite = false ∧ store.look (front ++ [leaf]) ≠ none then
      SetKV md5 now store req = (store, some ErrExists)
    else ∃ store' e, SetKV md5 now store req = (store', none) ∧
      e.key = req.key ∧ e.val = req.val ∧ e.ttl = NeverExpired ∧
      ∀ q, store'.look q = if q = front ++ [leaf] then some (.val e)
        else if q <+: front then some .dir else store.look q := by
  have hget := getKV_eq (valueKey_plain hfront h) store false
  rw [keyPath_plain h, keySplitter_plain h, ← hkey] at hget
  -- the command is a put that fits
  have hput : ∀ last, ∃ store' e, commit store (setCommand md5 now req last) = (store', none) ∧
      e.key = req.key ∧ e.val = req.val ∧ e.ttl = NeverExpired ∧
      ∀ q, store'.look q = if q = front ++ [leaf] then some (.val e)
        else if q <+: front then some .dir else store.look q := by
    intro last
    let e := (setCommand md5 now req last).value.getD default
    have hset := setOp_plain hfront h e false
    rw [if_neg Bool.false_ne_true, if_neg (not_lt.mpr hsize), ← hkey, ← hdir] at hset
    have ho : commandOp (setCommand md5 now req last) = some (.put (front ++ [leaf]) e) := hset
    have hfit : (Op.put (front ++ [leaf]) e).Fits store.look := by
      refine Op.put_fits_iff.mpr ⟨Op.mkdir_fits_iff.mpr hparents, fun hlook => ?_⟩
      obtain ⟨e, he, -⟩ := hsteady .dir hlook
      cases he
    obtain ⟨store', hstore, hlook⟩ := commit_of_fits ho hfit
    refine ⟨store', e, hstore, rfl, rfl, if_pos httl, fun q => ?_⟩
    rw [hlook, Op.effect_put_snoc, Op.effect_mkdir]
  unfold SetKV
  rw [hdir]
  cases hlook : store.look (front ++ [leaf]) with
  | none =>
    rw [hlook] at hget
    rw [if_neg (by simp), hget]
    exact hput none
  | some c =>
    obtain ⟨e, rfl, hnever⟩ := hsteady c hlook
    rw [hlook] at hget
    have hlive : entityExpired now e = (false, e) := if_pos hnever
    rw [hget]
    dsimp only
    rw [hlive]
    cases hover : req.overwrite with
    | false => simp
    | true => simpa using hput (some e)

/-- What has too long a name is not stored, and nothing else changes. -/
theorem SetKV_oversize (md5 : Bytes → String) (req : SetKVReq)
    (hkey : req.key = "/".intercalate (front ++ [leaf])) (hdir : req.isDir = false)
    (hover : req.overwrite = false) (hsize : Bolt.MaxKeySize < leaf.utf8ByteSize) :
    (SetKV md5 now store req).1 = store := by
  have hget := getKV_eq (valueKey_plain hfront h) store false
  rw [keyPath_plain h, keySplitter_plain h, ← hkey] at hget
  unfold SetKV
  rw [hdir]
  cases hlook : store.look (front ++ [leaf]) with
  | none =>
    rw [hlook] at hget
    rw [hget]
    have hset := setOp_plain hfront h ((setCommand md5 now req none).value.getD default) false
    rw [if_neg Bool.false_ne_true, if_pos hsize, ← hkey, ← hdir] at hset
    have hnone : commandOp (setCommand md5 now req none) = none := hset
    have hrejected : ¬ Accepts store (setCommand md5 now req none) := by
      intro haccepts
      obtain ⟨o, ho, -⟩ := haccepts
      rw [hnone] at ho
      cases ho
    obtain ⟨err, herr⟩ := commit_of_rejected hrejected
    exact congrArg Prod.fst herr
  | some c =>
    obtain ⟨e, rfl, hnever⟩ := hsteady c hlook
    rw [hlook] at hget
    have hlive : entityExpired now e = (false, e) := if_pos hnever
    rw [hget]
    dsimp only
    rw [hlive, hover]
    rfl

end Value

end Cassem.KV
