import Cassem.Coord.InstanceHybrid
import Cassem.Lib.Transition

/-!
# The index of the instances of a key

What `GetInstancesByElement` finds is what lies in the directory of the key, a page of it. The
operations write and delete there what one list says: the one that the instance has, or had last.
-/

namespace Cassem.Coord

open Lib Cassem.Concept
open Cassem.Agent (Watching InstanceID)

/-! ## Keys -/

/-- The last parts of two keys, and what comes before them. -/
theorem append_slash_inj {a b x y : List Char} (hx : '/' ∉ x) (hy : '/' ∉ y)
    (h : a ++ '/' :: x = b ++ '/' :: y) : a = b ∧ x = y := by
  have hrev := congrArg List.reverse h
  simp only [List.reverse_append, List.reverse_cons, List.append_assoc, List.singleton_append]
    at hrev
  obtain ⟨hlast, hfirst⟩ := cons_inj_of_notMem (by simpa using hx) (by simpa using hy) hrev
  exact ⟨List.reverse_injective hfirst, List.reverse_injective hlast⟩

theorem normalKey_toList (insId : String) : (GenInstanceNormalKey insId).toList =
    "cassem/instances/normalized".toList ++ '/' :: insId.toList := by
  unfold GenInstanceNormalKey joint
  simp [insPrefix]

theorem reversedKey_toList (app env key insId : String) :
    (GenInstanceReversedKeyWithInsId app env key insId).toList =
      (GenInstanceReversedKey app env key).toList ++ '/' :: insId.toList := by
  unfold GenInstanceReversedKeyWithInsId GenInstanceReversedKey joint
  simp [insPrefix]

theorem reversedDir_toList (app env key : String) :
    (GenInstanceReversedKey app env key).toList = "cassem/instances/reversed/".toList ++
      (app.toList ++ ('@' :: '@' :: '@' :: (env.toList ++ ('@' :: '@' :: '@' :: key.toList)))) := by
  unfold GenInstanceReversedKey joint
  simp [insPrefix]

theorem normalKey_inj {id id' : String} (h : GenInstanceNormalKey id = GenInstanceNormalKey id') :
    id = id' := by
  have hlist := congrArg String.toList h
  rw [normalKey_toList, normalKey_toList] at hlist
  exact String.toList_injective (List.cons.inj (List.append_cancel_left hlist)).2

theorem reversedKey_ne_normal (app env key insId insId' : String) :
    GenInstanceReversedKeyWithInsId app env key insId ≠ GenInstanceNormalKey insId' := by
  intro h
  have hlist : (GenInstanceReversedKeyWithInsId app env key insId).toList[17]? =
      (GenInstanceNormalKey insId').toList[17]? := by rw [h]
  rw [reversedKey_toList, reversedDir_toList, normalKey_toList] at hlist
  simp at hlist

theorem leafBelow_normal (app env key insId : String) :
    leafBelow (GenInstanceReversedKey app env key) (GenInstanceNormalKey insId) = none := by
  cases hleaf : leafBelow (GenInstanceReversedKey app env key) (GenInstanceNormalKey insId) with
  | none => rfl
  | some leaf =>
    have hlist : (GenInstanceNormalKey insId).toList[17]? =
        ((GenInstanceReversedKey app env key).toList ++ '/' :: leaf.toList)[17]? := by
      rw [(leafBelow_iff.mp hleaf).1]
    rw [reversedDir_toList, normalKey_toList] at hlist
    simp at hlist

theorem at_notMem {s : String} (h : Adm.isIdentifier s = true) : '@' ∉ s.toList :=
  notMem_of_isIdentifier h (by decide)

/-- The directories of identifiers are nobody else's. -/
theorem reversedDir_inj {app env key app' env' key' : String} (happ : Adm.isIdentifier app = true)
    (henv : Adm.isIdentifier env = true) (hkey : Adm.isIdentifier key = true)
    (h : GenInstanceReversedKey app env key = GenInstanceReversedKey app' env' key') :
    app = app' ∧ env = env' ∧ key = key' := by
  have hlist := congrArg String.toList h
  rw [reversedDir_toList, reversedDir_toList] at hlist
  replace hlist := List.append_cancel_left hlist
  have hcount := congrArg (List.count '@') hlist
  simp only [List.count_append, List.count_cons_self, List.count_eq_zero.mpr (at_notMem happ),
    List.count_eq_zero.mpr (at_notMem henv), List.count_eq_zero.mpr (at_notMem hkey)] at hcount
  have happ' : '@' ∉ app'.toList := List.count_eq_zero.mp (by omega)
  have henv' : '@' ∉ env'.toList := List.count_eq_zero.mp (by omega)
  obtain ⟨h1, hrest⟩ := cons_inj_of_notMem (at_notMem happ) happ' hlist
  obtain ⟨-, hrest⟩ := List.cons.inj hrest
  obtain ⟨-, hrest⟩ := List.cons.inj hrest
  obtain ⟨h2, hrest⟩ := cons_inj_of_notMem (at_notMem henv) henv' hrest
  obtain ⟨-, hrest⟩ := List.cons.inj hrest
  obtain ⟨-, h3⟩ := List.cons.inj hrest
  exact ⟨String.toList_injective h1, String.toList_injective h2, String.toList_injective h3⟩

/-! ## What the operations write -/

/-- The id is set under each of the keys. -/
def setKeys (insId : String) (rows : InsRows) (keys : List String) : InsRows :=
  keys.foldl (fun rows key => SortedMap.insert key (.id insId) rows) rows

def unsetKeys (rows : InsRows) (keys : List String) : InsRows :=
  keys.foldl (fun rows key => SortedMap.erase key rows) rows

section Run

variable {rows : InsRows} {insId key : String} {keys : List String} {ins : Instance}

theorem run_setReversed : Program.run serveIns rows (setReversed insId keys []) =
    (setKeys insId rows keys, .ok ()) := by
  induction keys generalizing rows with
  | nil => rfl
  | cons key keys ih =>
    unfold setReversed Program.run serveIns
    dsimp only
    rw [if_neg (by simp)]
    exact ih

theorem run_unsetReversed : Program.run serveIns rows (unsetReversed keys []) =
    (unsetKeys rows keys, .ok ()) := by
  induction keys generalizing rows with
  | nil => rfl
  | cons key keys ih => exact ih

theorem lookup_setKeys : SortedMap.lookup key (setKeys insId rows keys) =
    if key ∈ keys then some (.id insId) else SortedMap.lookup key rows := by
  unfold setKeys
  induction keys generalizing rows with
  | nil => rfl
  | cons first keys ih =>
    rw [List.foldl_cons, ih, SortedMap.lookup_insert]
    by_cases hkey : key ∈ keys
    · simp [hkey]
    · simp [hkey]

theorem lookup_unsetKeys : SortedMap.lookup key (unsetKeys rows keys) =
    if key ∈ keys then none else SortedMap.lookup key rows := by
  unfold unsetKeys
  induction keys generalizing rows with
  | nil => rfl
  | cons first keys ih =>
    rw [List.foldl_cons, ih, SortedMap.lookup_erase]
    by_cases hkey : key ∈ keys
    · simp [hkey]
    · simp [hkey]

theorem sorted_setKeys (h : SortedMap.Sorted rows) : SortedMap.Sorted (setKeys insId rows keys) := by
  unfold setKeys
  induction keys generalizing rows with
  | nil => exact h
  | cons first keys ih => exact ih (SortedMap.sorted_insert h)

theorem sorted_unsetKeys (h : SortedMap.Sorted rows) : SortedMap.Sorted (unsetKeys rows keys) := by
  unfold unsetKeys
  induction keys generalizing rows with
  | nil => exact h
  | cons first keys ih => exact ih (SortedMap.sorted_erase h)

/-- The rows that a registration or a renewal leaves. -/
def written (rows : InsRows) (ins : Instance) : InsRows :=
  setKeys ins.insId (SortedMap.insert (GenInstanceNormalKey ins.insId) (.detail ins) rows)
    (reversedKeys ins.insId ins)

theorem run_setInstanceInfo : Program.run serveIns rows (setInstanceInfo ins) =
    (written rows ins, .ok ()) := by
  unfold setInstanceInfo Program.run serveIns
  dsimp only
  rw [if_neg (by simp)]
  exact run_setReversed

theorem run_RegisterInstance (now : Int) : Program.run serveIns rows (RegisterInstance now ins) =
    match SortedMap.lookup (GenInstanceNormalKey ins.insId) rows with
    | some _ =>
        (rows, .error (.concept ⟨.alreadyExists, "instance has already been registered"⟩))
    | none => (written rows (stamped now ins), .ok ()) := by
  have hget : serveIns rows (.GetKV (GenInstanceNormalKey ins.insId)) =
      (rows, match SortedMap.lookup (GenInstanceNormalKey ins.insId) rows with
        | some val => .ok val
        | none => .error (.concept Err_NOT_FOUND)) := rfl
  unfold RegisterInstance Program.run
  rw [hget]
  cases SortedMap.lookup (GenInstanceNormalKey ins.insId) rows with
  | some val => rfl
  | none =>
    have hnotFound : (GoError.concept Err_NOT_FOUND).errorsIs (.concept Err_NOT_FOUND) = true := by
      decide
    dsimp only
    rw [if_pos hnotFound]
    exact run_setInstanceInfo

theorem run_UnregisterInstance : Program.run serveIns rows (UnregisterInstance insId) =
    match SortedMap.lookup (GenInstanceNormalKey insId) rows with
    | some (.detail ins) => (unsetKeys (SortedMap.erase (GenInstanceNormalKey insId) rows)
        (reversedKeys insId ins), .ok ())
    | some (.id _) => (rows, .error (.errorf "instanceHybrid.UnregisterInstance: "
        (.text "proto: cannot parse invalid wire-format data")))
    | none => (rows, .ok ()) := by
  have hget : serveIns rows (.GetKV (GenInstanceNormalKey insId)) =
      (rows, match SortedMap.lookup (GenInstanceNormalKey insId) rows with
        | some val => .ok val
        | none => .error (.concept Err_NOT_FOUND)) := rfl
  unfold UnregisterInstance Program.run
  rw [hget]
  cases SortedMap.lookup (GenInstanceNormalKey insId) rows with
  | none =>
    have hnotFound : (GoError.concept Err_NOT_FOUND).errorsIs (.concept Err_NOT_FOUND) = true := by
      decide
    dsimp only
    rw [if_pos hnotFound]
    rfl
  | some val =>
    cases val with
    | id other => rfl
    | detail ins => exact run_unsetReversed

end Run

theorem insId_stamped (now : Int) (ins : Instance) : (stamped now ins).insId = ins.insId := by
  unfold stamped
  split <;> rfl

theorem watching_stamped (now : Int) (ins : Instance) :
    (stamped now ins).Watching = ins.Watching := by
  unfold stamped
  split <;> rfl

/-! ## Runs -/

/-- The store, and of each registered instance its latest registration or renewal. -/
structure Index where
  rows : InsRows := []
  live : List (String × Instance) := []

namespace Index

inductive Call where
  | Register (now : Int) (ins : Instance)
  | Renew (ins : Instance)
  | Unregister (insId : String)

def step (s : Index) : Call → Option Index
  | .Register now ins =>
      let (rows, r) := Program.run serveIns s.rows (RegisterInstance now ins)
      some { rows, live := match r with
        | .ok _ => SortedMap.insert ins.insId (stamped now ins) s.live
        | .error _ => s.live }
  | .Renew ins =>
      let (rows, r) := Program.run serveIns s.rows (RenewInstance ins)
      some { rows, live := match r with
        | .ok _ => SortedMap.insert ins.insId ins s.live
        | .error _ => s.live }
  | .Unregister insId =>
      let (rows, r) := Program.run serveIns s.rows (UnregisterInstance insId)
      some { rows, live := match r with
        | .ok _ => SortedMap.erase insId s.live
        | .error _ => s.live }

def watches (ins : Instance) (app env key : String) : Bool :=
  ins.Watching.any fun w => w.App = app && w.Env = env && w.WatchKeys.contains key

/-- The registered instances that watch the key. -/
def watchers (s : Index) (app env key : String) : List (String × Instance) :=
  s.live.filter fun e => watches e.2 app env key

/-- The lookup finds the instances that watch the key, each once. -/
def Exact (s : Index) : Prop :=
  ∀ app env key, ∃ res, Program.run serveIns s.rows (GetInstancesByElement app env key) =
    (s.rows, .ok res) ∧ res.Instances.Perm ((s.watchers app env key).map (·.2))

/-! ### When it does -/

/-- The names are identifiers, and the id is one part of a key. -/
structure Named (ins : Instance) : Prop where
  whole : '/' ∉ ins.insId.toList
  valid : ins.Watching.all Watching.valid = true

/-- The new list has all the keys of the old one. -/
def Keeps (s : Index) (ins : Instance) : Prop :=
  ∀ old, SortedMap.lookup ins.insId s.live = some old →
    ∀ app env key, watches old app env key = true → watches ins app env key = true

/-- Fewer than 100 others watch a key of the instance. -/
def Room (s : Index) (ins : Instance) : Prop :=
  ∀ app env key, watches ins app env key = true →
    ((s.watchers app env key).filter (·.1 ≠ ins.insId)).length < 100

/-- The list of an instance that stays registered does not shrink, and a page has room for all
the instances of each key. -/
def Tidy (s : Index) (c : Call) (_ : Index) : Prop :=
  match c with
  | .Register _ ins =>
      Named ins ∧ (SortedMap.lookup ins.insId s.live = none → Room s ins)
  | .Renew ins => Named ins ∧ Keeps s ins ∧ Room s ins
  | .Unregister _ => True

/-! ### The invariant -/

/-- What the store has of the instances that are registered. -/
inductive Entry (live : List (String × Instance)) : String → InsRecord → Prop
  | detail {id : String} {ins : Instance} (h : SortedMap.lookup id live = some ins) :
      Entry live (GenInstanceNormalKey id) (.detail ins)
  | watching {id app env key : String} {ins : Instance} (h : SortedMap.lookup id live = some ins)
      (hw : watches ins app env key = true) :
      Entry live (GenInstanceReversedKeyWithInsId app env key id) (.id id)

structure Indexed (s : Index) : Prop where
  rows : SortedMap.Sorted s.rows
  live : SortedMap.Sorted s.live
  entries : ∀ key val, SortedMap.lookup key s.rows = some val ↔ Entry s.live key val
  named : ∀ id ins, SortedMap.lookup id s.live = some ins → ins.insId = id ∧ Named ins
  room : ∀ app env key, (s.watchers app env key).length ≤ 100

variable {s s' : Index} {c : Call} {ins : Instance} {insId app env key : String}

theorem watches_iff : watches ins app env key = true ↔
    ∃ w ∈ ins.Watching, w.App = app ∧ w.Env = env ∧ key ∈ w.WatchKeys := by
  unfold watches
  simp [and_assoc]

theorem mem_reversedKeys {k : String} : k ∈ reversedKeys insId ins ↔
    ∃ app env key, watches ins app env key = true ∧
      GenInstanceReversedKeyWithInsId app env key insId = k := by
  unfold reversedKeys
  simp only [List.mem_flatMap, List.mem_map, watches_iff]
  constructor
  · rintro ⟨w, hw, key, hkey, rfl⟩
    exact ⟨w.App, w.Env, key, ⟨w, hw, rfl, rfl, hkey⟩, rfl⟩
  · rintro ⟨app, env, key, ⟨w, hw, rfl, rfl, hkey⟩, rfl⟩
    exact ⟨w, hw, key, hkey, rfl⟩

theorem identifiers_of_watches (h : ins.Watching.all Watching.valid = true)
    (hw : watches ins app env key = true) :
    Adm.isIdentifier app = true ∧ Adm.isIdentifier env = true ∧ Adm.isIdentifier key = true := by
  obtain ⟨w, hmem, rfl, rfl, hkey⟩ := watches_iff.mp hw
  have hvalid := List.all_eq_true.mp h w hmem
  unfold Watching.valid at hvalid
  simp only [Bool.and_eq_true] at hvalid
  exact ⟨hvalid.1.1, hvalid.1.2, List.all_eq_true.mp hvalid.2 key hkey⟩

/-- Different instances have different keys. -/
theorem reversedKey_id_inj {app' env' key' id id' : String} (hid : '/' ∉ id.toList)
    (hid' : '/' ∉ id'.toList) (h : GenInstanceReversedKeyWithInsId app env key id =
      GenInstanceReversedKeyWithInsId app' env' key' id') : id = id' := by
  have hlist := congrArg String.toList h
  rw [reversedKey_toList, reversedKey_toList] at hlist
  exact String.toList_injective (append_slash_inj hid hid' hlist).2

/-- The record of the instance in the store. -/
theorem Indexed.lookup_normal (h : s.Indexed) (id : String) :
    SortedMap.lookup (GenInstanceNormalKey id) s.rows =
      (SortedMap.lookup id s.live).map .detail := by
  cases hlive : SortedMap.lookup id s.live with
  | some ins => exact (h.entries _ _).mpr (.detail hlive)
  | none =>
    cases hrow : SortedMap.lookup (GenInstanceNormalKey id) s.rows with
    | none => rfl
    | some val =>
      generalize hkey : GenInstanceNormalKey id = key at hrow
      cases (h.entries _ _).mp hrow with
      | detail hlive' =>
        rw [normalKey_inj hkey] at hlive
        cases hlive.symm.trans hlive'
      | watching _ _ => exact absurd hkey.symm (reversedKey_ne_normal _ _ _ _ _)

/-- The keys of one instance are not those of another. -/
theorem reversedKey_notMem {id : String} (hid : '/' ∉ id.toList) (hins : '/' ∉ insId.toList)
    (hne : id ≠ insId) :
    GenInstanceReversedKeyWithInsId app env key id ∉ reversedKeys insId ins := by
  intro hmem
  obtain ⟨app', env', key', -, heq⟩ := mem_reversedKeys.mp hmem
  exact hne (reversedKey_id_inj hins hid heq).symm

theorem normalKey_notMem {id : String} : GenInstanceNormalKey id ∉ reversedKeys insId ins := by
  intro hmem
  obtain ⟨app, env, key, -, heq⟩ := mem_reversedKeys.mp hmem
  exact reversedKey_ne_normal _ _ _ _ _ heq

theorem lookup_written {k : String} : SortedMap.lookup k (written s.rows ins) =
    if k ∈ reversedKeys ins.insId ins then some (.id ins.insId)
    else if k = GenInstanceNormalKey ins.insId then some (.detail ins)
    else SortedMap.lookup k s.rows := by
  unfold written
  rw [lookup_setKeys, SortedMap.lookup_insert]

/-- Where the list does not shrink, a registration or a renewal leaves an index. -/
theorem Indexed.set (h : s.Indexed) (hnamed : Named ins) (hkeeps : s.Keeps ins)
    (hroom : s.Room ins) :
    Indexed ⟨written s.rows ins, SortedMap.insert ins.insId ins s.live⟩ := by
  have hown : SortedMap.lookup ins.insId (SortedMap.insert ins.insId ins s.live) = some ins := by
    rw [SortedMap.lookup_insert, if_pos rfl]
  have hother : ∀ id, id ≠ ins.insId →
      SortedMap.lookup id (SortedMap.insert ins.insId ins s.live) =
        SortedMap.lookup id s.live := fun id hne => by
    rw [SortedMap.lookup_insert, if_neg hne]
  refine ⟨sorted_setKeys (SortedMap.sorted_insert h.rows), SortedMap.sorted_insert h.live,
    fun k val => ?_, fun id ins' hlive => ?_, fun app env key => ?_⟩
  · rw [lookup_written]
    dsimp only
    constructor
    · intro hval
      split at hval
      · next hmem =>
        cases hval
        obtain ⟨app, env, key, hw, rfl⟩ := mem_reversedKeys.mp hmem
        exact .watching hown hw
      · next hmem =>
        split at hval
        · next hnormal =>
          cases hval
          exact hnormal ▸ .detail hown
        · next hnormal =>
          cases (h.entries _ _).mp hval with
          | @detail id ins' hlive =>
            exact .detail ((hother id fun heq => hnormal (heq ▸ rfl)).trans hlive)
          | @watching id app env key ins' hlive hw =>
            refine .watching ((hother id fun heq => hmem ?_).trans hlive) hw
            subst heq
            exact mem_reversedKeys.mpr ⟨app, env, key, hkeeps ins' hlive app env key hw, rfl⟩
    · intro hentry
      cases hentry with
      | @detail id ins' hlive =>
        rw [if_neg normalKey_notMem]
        by_cases hid : id = ins.insId
        · subst hid
          cases hown.symm.trans hlive
          rw [if_pos rfl]
        · rw [if_neg fun heq => hid (normalKey_inj heq)]
          exact (h.entries _ _).mpr (.detail ((hother id hid).symm.trans hlive))
      | @watching id app env key ins' hlive hw =>
        by_cases hid : id = ins.insId
        · subst hid
          cases hown.symm.trans hlive
          rw [if_pos (mem_reversedKeys.mpr ⟨app, env, key, hw, rfl⟩)]
        · have hlive' := (hother id hid).symm.trans hlive
          obtain ⟨rfl, hwhole⟩ := (h.named id ins' hlive').imp_right Named.whole
          rw [if_neg (reversedKey_notMem hwhole hnamed.whole hid),
            if_neg (reversedKey_ne_normal _ _ _ _ _)]
          exact (h.entries _ _).mpr (.watching hlive' hw)
  · by_cases hid : id = ins.insId
    · subst hid
      cases hown.symm.trans hlive
      exact ⟨rfl, hnamed⟩
    · exact h.named id ins' ((hother id hid).symm.trans hlive)
  · have hperm := (SortedMap.perm_insert (k := ins.insId) (b := ins) h.live).filter
      fun e => watches e.2 app env key
    have herase : (SortedMap.erase ins.insId s.live).filter (fun e => watches e.2 app env key) =
        (s.watchers app env key).filter (·.1 ≠ ins.insId) := by
      unfold SortedMap.erase watchers
      rw [List.filter_filter, List.filter_filter]
      exact List.filter_congr fun e _ => Bool.and_comm _ _
    unfold watchers
    dsimp only
    rw [hperm.length_eq, List.filter_cons, herase]
    cases hw : watches ins app env key with
    | true => exact hroom app env key hw
    | false => exact (List.length_filter_le _ _).trans (h.room app env key)

theorem Indexed.unset (h : s.Indexed) (hlive : SortedMap.lookup insId s.live = some ins) :
    Indexed ⟨unsetKeys (SortedMap.erase (GenInstanceNormalKey insId) s.rows)
      (reversedKeys insId ins), SortedMap.erase insId s.live⟩ := by
  have hwhole : '/' ∉ insId.toList := by
    obtain ⟨rfl, hnamed⟩ := h.named _ _ hlive
    exact hnamed.whole
  have hother : ∀ id ins', SortedMap.lookup id (SortedMap.erase insId s.live) = some ins' →
      id ≠ insId ∧ SortedMap.lookup id s.live = some ins' := fun id ins' hid => by
    rw [SortedMap.lookup_erase] at hid
    exact Option.ite_none_left_eq_some.mp hid
  refine ⟨sorted_unsetKeys (SortedMap.sorted_erase h.rows), SortedMap.sorted_erase h.live,
    fun k val => ?_, fun id ins' hid => h.named id ins' (hother id ins' hid).2,
    fun app env key => ?_⟩
  · dsimp only
    rw [lookup_unsetKeys, SortedMap.lookup_erase]
    constructor
    · intro hval
      obtain ⟨hmem, hval⟩ := Option.ite_none_left_eq_some.mp hval
      obtain ⟨hnormal, hval⟩ := Option.ite_none_left_eq_some.mp hval
      cases (h.entries _ _).mp hval with
      | @detail id ins' hid =>
        have hne : id ≠ insId := fun heq => hnormal (heq ▸ rfl)
        exact .detail (by rw [SortedMap.lookup_erase, if_neg hne, hid])
      | @watching id app env key ins' hid hw =>
        have hne : id ≠ insId := by
          rintro rfl
          cases hlive.symm.trans hid
          exact hmem (mem_reversedKeys.mpr ⟨app, env, key, hw, rfl⟩)
        exact .watching (by rw [SortedMap.lookup_erase, if_neg hne, hid]) hw
    · intro hentry
      cases hentry with
      | @detail id ins' hid =>
        obtain ⟨hne, hid⟩ := hother id ins' hid
        rw [if_neg normalKey_notMem, if_neg fun heq => hne (normalKey_inj heq)]
        exact (h.entries _ _).mpr (.detail hid)
      | @watching id app env key ins' hid hw =>
        obtain ⟨hne, hid⟩ := hother id ins' hid
        obtain ⟨rfl, hnamed⟩ := h.named id ins' hid
        rw [if_neg (reversedKey_notMem hnamed.whole hwhole hne),
          if_neg (reversedKey_ne_normal _ _ _ _ _)]
        exact (h.entries _ _).mpr (.watching hid hw)
  · have hsub : List.Sublist ((SortedMap.erase insId s.live).filter fun e =>
        watches e.2 app env key) (s.watchers app env key) := List.filter_sublist.filter _
    exact hsub.length_le.trans (h.room app env key)

theorem Indexed.step (h : s.Indexed) (ht : s.Tidy c s') (hs : step s c = some s') :
    s'.Indexed := by
  cases c with
  | Register now ins =>
    obtain ⟨hnamed, hroom⟩ := ht
    unfold Index.step at hs
    dsimp only at hs
    rw [run_RegisterInstance, h.lookup_normal] at hs
    cases hlive : SortedMap.lookup ins.insId s.live with
    | some old =>
      rw [hlive] at hs
      cases hs
      exact h
    | none =>
      rw [hlive] at hs
      cases hs
      have hid := insId_stamped now ins
      have hsame : ∀ app env key,
          watches (stamped now ins) app env key = watches ins app env key := fun app env key => by
        unfold watches
        rw [watching_stamped]
      have hstamped : Named (stamped now ins) :=
        ⟨by rw [hid]; exact hnamed.whole, by rw [watching_stamped]; exact hnamed.valid⟩
      have hset := h.set hstamped
        (fun old hold => by rw [hid, hlive] at hold; cases hold)
        (fun app env key hw => by
          rw [hid]
          exact hroom hlive app env key ((hsame app env key).symm.trans hw))
      rw [hid] at hset
      exact hset
  | Renew ins =>
    obtain ⟨hnamed, hkeeps, hroom⟩ := ht
    unfold Index.step at hs
    dsimp only at hs
    rw [show RenewInstance ins = setInstanceInfo ins from rfl, run_setInstanceInfo] at hs
    cases hs
    exact h.set hnamed hkeeps hroom
  | Unregister insId =>
    unfold Index.step at hs
    dsimp only at hs
    rw [run_UnregisterInstance, h.lookup_normal] at hs
    cases hlive : SortedMap.lookup insId s.live with
    | some ins =>
      rw [hlive] at hs
      cases hs
      exact h.unset hlive
    | none =>
      rw [hlive] at hs
      cases hs
      have herase : SortedMap.erase insId s.live = s.live := by
        refine SortedMap.ext_of_lookup (SortedMap.sorted_erase h.live) h.live fun id => ?_
        rw [SortedMap.lookup_erase]
        split
        · next heq => rw [heq, hlive]
        · rfl
      dsimp only [Option.map_none]
      rw [herase]
      exact h

/-! ### The lookup -/

theorem insId_ne_empty (ins : Instance) : ins.insId ≠ "" := by
  unfold Instance.insId InstanceID
  intro h
  have hlist := congrArg String.toList h
  split at hlist
  · simp at hlist
  · simp at hlist

/-- A watching instance in the store. -/
theorem mem_watchers (h : s.Indexed) {e : String × Instance} : e ∈ s.watchers app env key ↔
    SortedMap.lookup e.1 s.live = some e.2 ∧ watches e.2 app env key = true := by
  unfold watchers
  rw [List.mem_filter]
  exact and_congr_left fun _ => ⟨SortedMap.lookup_of_mem h.live, SortedMap.mem_of_lookup⟩

/-- What lies in the directory of a key. -/
theorem mem_below (h : s.Indexed) {leaf : String} {val : InsRecord} :
    (leaf, val) ∈ below s.rows (GenInstanceReversedKey app env key) ↔
      ∃ e ∈ s.watchers app env key, (e.1, InsRecord.id e.1) = (leaf, val) := by
  unfold below
  simp only [List.mem_filterMap, Option.map_eq_some_iff, Prod.mk.injEq]
  constructor
  · rintro ⟨⟨k, val'⟩, hmem, leaf', hleaf, rfl, rfl⟩
    dsimp only at hleaf ⊢
    cases (h.entries _ _).mp (SortedMap.lookup_of_mem h.rows hmem) with
    | detail _ =>
      rw [leafBelow_normal] at hleaf
      cases hleaf
    | @watching id app' env' key' ins hlive hw =>
      obtain ⟨hid, hnamed⟩ := h.named id ins hlive
      obtain ⟨hkey, -, hslash⟩ := leafBelow_iff.mp hleaf
      rw [reversedKey_toList] at hkey
      obtain ⟨hdir, hsame⟩ := append_slash_inj (hid ▸ hnamed.whole) hslash hkey
      obtain ⟨happ, henv, hk⟩ := identifiers_of_watches hnamed.valid hw
      obtain ⟨rfl, rfl, rfl⟩ := reversedDir_inj happ henv hk (String.toList_injective hdir)
      obtain rfl := String.toList_injective hsame
      exact ⟨(id, ins), (mem_watchers h).mpr ⟨hlive, hw⟩, rfl, rfl⟩
  · rintro ⟨e, he, rfl, rfl⟩
    obtain ⟨hlive, hw⟩ := (mem_watchers h).mp he
    obtain ⟨hid, hnamed⟩ := h.named _ _ hlive
    refine ⟨_, SortedMap.mem_of_lookup ((h.entries _ _).mpr (.watching hlive hw)), e.1, ?_, rfl,
      rfl⟩
    refine leafBelow_iff.mpr ⟨reversedKey_toList _ _ _ _, ?_, ?_⟩
    · rw [← hid]
      exact insId_ne_empty _
    · rw [← hid]
      exact hnamed.whole

theorem nodup_of_sorted {β : Type} {m : List (String × β)} (h : SortedMap.Sorted m) : m.Nodup :=
  h.imp fun hlt heq => absurd (congrArg Prod.fst heq) (ne_of_lt hlt)

theorem below_perm (h : s.Indexed) (app env key : String) :
    (below s.rows (GenInstanceReversedKey app env key)).Perm
      ((s.watchers app env key).map fun e => (e.1, InsRecord.id e.1)) := by
  refine (List.perm_ext_iff_of_nodup ?_ ?_).mpr fun e => ?_
  · refine (nodup_of_sorted h.rows).filterMap fun e e' entry hentry hentry' => ?_
    obtain ⟨leaf, hleaf, rfl⟩ := Option.map_eq_some_iff.mp hentry
    obtain ⟨leaf', hleaf', heq⟩ := Option.map_eq_some_iff.mp hentry'
    obtain ⟨hsame, hval⟩ := Prod.mk.inj heq
    have hkey := (leafBelow_iff.mp hleaf).1
    rw [← hsame, ← (leafBelow_iff.mp hleaf').1] at hkey
    exact Prod.ext (String.toList_injective hkey) hval.symm
  · have hids : ((s.watchers app env key).map (·.1)).Nodup := by
      rw [List.Nodup, List.pairwise_map]
      exact (h.live.filter _).imp ne_of_lt
    have hmap : (s.watchers app env key).map (fun e => (e.1, InsRecord.id e.1)) =
        ((s.watchers app env key).map (·.1)).map fun id => (id, InsRecord.id id) := by
      rw [List.map_map]
      rfl
    rw [hmap]
    exact hids.map fun id id' heq => congrArg Prod.fst heq
  · rw [mem_below h, List.mem_map]

/-- The ids of a page, and the records under them. -/
theorem details_perm (h : s.Indexed) (app env key : String) {entities : List InsRecord}
    (hentities : entities.Perm ((s.watchers app env key).map fun e => InsRecord.id e.1)) :
    ((entities.map fun v => GenInstanceNormalKey v.text).filterMap fun k =>
        SortedMap.lookup k s.rows).Perm ((s.watchers app env key).map fun e => .detail e.2) ∧
      (entities.map fun v => GenInstanceNormalKey v.text).filter (fun k =>
        (SortedMap.lookup k s.rows).isNone) = [] := by
  have hfound : ∀ e ∈ s.watchers app env key,
      SortedMap.lookup (GenInstanceNormalKey e.1) s.rows = some (.detail e.2) := fun e he =>
    (h.entries _ _).mpr (.detail ((mem_watchers h).mp he).1)
  constructor
  · refine ((hentities.map _).filterMap _).trans (.of_eq ?_)
    rw [List.map_map, List.filterMap_map, ← List.filterMap_eq_map]
    exact List.filterMap_congr fun e he => hfound e he
  · refine List.filter_eq_nil_iff.mpr fun k hk => ?_
    obtain ⟨v, hv, rfl⟩ := List.mem_map.mp hk
    obtain ⟨e, he, rfl⟩ := List.mem_map.mp (hentities.mem_iff.mp hv)
    show ¬ (SortedMap.lookup (GenInstanceNormalKey e.1) s.rows).isNone = true
    rw [hfound e he]
    exact Bool.false_ne_true

/-- An index answers the lookup. -/
theorem Indexed.exact (h : s.Indexed) : s.Exact := by
  intro app env key
  have hperm := below_perm h app env key
  have hshort : (below s.rows (GenInstanceReversedKey app env key)).length ≤ 100 := by
    rw [hperm.length_eq, List.length_map]
    exact h.room app env key
  have hrange : serveIns s.rows (.Range (GenInstanceReversedKey app env key) "" 100) = (s.rows,
      .ok ⟨(below s.rows (GenInstanceReversedKey app env key)).map (·.2), false, ""⟩) := by
    have hall : (below s.rows (GenInstanceReversedKey app env key)).filter
        (fun e => ("" : String) = "" || !(e.1 < "" : Bool)) =
          below s.rows (GenInstanceReversedKey app env key) :=
      List.filter_eq_self.mpr fun e _ => rfl
    unfold serveIns
    dsimp only
    rw [hall, List.take_of_length_le hshort, List.drop_of_length_le hshort]
    rfl
  have hentities := hperm.map (·.2)
  rw [List.map_map] at hentities
  unfold GetInstancesByElement Program.run
  rw [hrange]
  dsimp only
  split
  · next hnil =>
    refine ⟨_, rfl, ?_⟩
    have hnone : s.watchers app env key = [] := by
      rw [hnil] at hentities
      exact List.map_eq_nil_iff.mp hentities.symm.eq_nil
    rw [hnone]
    exact .refl _
  · obtain ⟨hdetails, hmissing⟩ := details_perm h app env key hentities
    unfold Program.run serveIns
    dsimp only
    rw [hmissing]
    refine ⟨_, rfl, ?_⟩
    refine (hdetails.map InsRecord.instance).trans (.of_eq ?_)
    rw [List.map_map]
    rfl

/-- In every run in which lists do not shrink and no key has more than 100 instances, the lookup
is exact in every state. -/
theorem exact_of_tidy (calls : List Call) (h : Transition.EachStep step Tidy {} calls) :
    Transition.EachState step Exact {} calls := by
  have hempty : Indexed {} := by
    refine ⟨SortedMap.sorted_nil, SortedMap.sorted_nil, fun key val => ?_, nofun, fun _ _ _ => ?_⟩
    · refine iff_of_false nofun fun hentry => ?_
      cases hentry with
      | detail hlive => cases hlive
      | watching hlive _ => cases hlive
    · exact Nat.zero_le _
  have hstep : ∀ s c s', Indexed s → Tidy s c s' → step s c = some s' → Indexed s' :=
    fun s c s' hi ht hs => hi.step ht hs
  exact (Transition.eachState_of_eachStep Indexed hstep hempty h).mono fun _ => Indexed.exact

/-- Whatever the store has: a lookup is one page. -/
theorem length_instances_le (rows : InsRows) (app env key : String) (res : GetInstancesResult)
    (h : Program.run serveIns rows (GetInstancesByElement app env key) = (rows, .ok res)) :
    res.Instances.length ≤ 100 := by
  have hshort : ∀ page : List (String × InsRecord), ((page.take 100).map (·.2)).length ≤ 100 :=
    fun page => by
      rw [List.length_map, List.length_take]
      exact Nat.min_le_left _ _
  have hrange : ∃ entities hasMore next, entities.length ≤ 100 ∧
      serveIns rows (.Range (GenInstanceReversedKey app env key) "" 100) =
        (rows, .ok ⟨entities, hasMore, next⟩) := ⟨_, _, _, hshort _, rfl⟩
  obtain ⟨entities, hasMore, next, hentities, hpage⟩ := hrange
  unfold GetInstancesByElement Program.run at h
  rw [hpage] at h
  dsimp only at h
  split at h
  · cases h
    exact Nat.zero_le _
  · have hdetails : ∀ keys, serveIns rows (.GetKVs keys) = (rows, .ok
        (keys.filterMap fun key => SortedMap.lookup key rows,
          keys.filter fun key => (SortedMap.lookup key rows).isNone)) := fun _ => rfl
    unfold Program.run at h
    rw [hdetails] at h
    dsimp only at h
    split at h
    · cases h
    · cases h
      dsimp only
      rw [List.length_map]
      refine (List.length_filterMap_le _ _).trans ?_
      rw [List.length_map]
      exact hentities

/-! ### A list that shrinks -/

def shopClient (keys : List String) : Instance :=
  { ClientId := "client-1", ClientIp := "10.0.0.1", Watching := [⟨"shop", "prod", keys⟩] }

instance (ins : Instance) : Decidable (Named ins) :=
  decidable_of_iff ('/' ∉ ins.insId.toList ∧ ins.Watching.all Watching.valid = true)
    ⟨fun h => ⟨h.1, h.2⟩, fun h => ⟨h.whole, h.valid⟩⟩

theorem room_of_length {s : Index} (h : s.live.length < 100) (ins : Instance) : s.Room ins :=
  fun _ _ _ _ => ((List.length_filter_le _ _).trans (List.length_filter_le _ _)).trans_lt h

/-- A second key is added, and the instance leaves. -/
theorem exact_of_tidy_grown : Transition.EachState step Exact {}
    [.Register 0 (shopClient ["db"]), .Renew (shopClient ["db", "mq"]),
      .Unregister "client-1@10.0.0.1"] := by
  refine exact_of_tidy _ ?_
  refine .cons rfl ⟨by decide, fun _ => room_of_length (by decide) _⟩ ?_
  refine .cons rfl ⟨by decide, fun old hold app env key hw => ?_, room_of_length (by decide) _⟩ ?_
  · have hsame : old = shopClient ["db"] := by
      have hlive : some (shopClient ["db"]) = some old := hold
      exact (Option.some.inj hlive).symm
    subst hsame
    obtain ⟨w, hmem, rfl, rfl, hkey⟩ := watches_iff.mp hw
    obtain rfl := List.mem_singleton.mp hmem
    obtain rfl := List.mem_singleton.mp hkey
    decide
  · exact .cons rfl trivial trivial

/-- A renewal without the key leaves the instance in the index of the key. -/
theorem shrunk_listed : ¬ Transition.EachState step Exact {}
    [.Register 0 (shopClient ["db"]), .Renew (shopClient [])] := by
  intro h
  have hend : (Transition.run step {} [.Register 0 (shopClient ["db"]),
      .Renew (shopClient [])]).map (fun s =>
        ((Program.run serveIns s.rows (GetInstancesByElement "shop" "prod" "db")).2.toOption.map
          (·.Instances), s.watchers "shop" "prod" "db")) = some (some [shopClient []], []) := by
    decide +kernel
  obtain ⟨s, hs, heq⟩ := Option.map_eq_some_iff.mp hend
  obtain ⟨hfound, hnone⟩ := Prod.mk.inj heq
  obtain ⟨res, hrun, hperm⟩ := h.of_run hs "shop" "prod" "db"
  rw [hrun] at hfound
  have hone : res.Instances = [shopClient []] := Option.some.inj hfound
  rw [hnone, hone] at hperm
  cases hperm.eq_nil

end Index

end Cassem.Coord
