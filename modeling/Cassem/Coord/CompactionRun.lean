import Cassem.Coord.Compaction
import Cassem.Lib.Count

/-!
# What a compaction by itself deletes

The compaction is run to its end with nothing else at work. It gives up what the retention
policy does not keep, and reports what it has read, deleted and failed on.
-/

namespace Cassem.Coord

open Lib Cassem.Concept
open KV (int32)

/-! ## The run -/

/-- The record that the compaction tries to delete next. -/
def Compaction.deleting : Compaction → Option String
  | .deleteVersions (version :: _) _ _ => some version.key
  | .deleteOperations (operation :: _) _ => some operation.key
  | _ => none

/-- What has come of a compaction: the records it tried to delete, those that are left, and
what it returned. -/
structure Compacted where
  tried : List String
  rows : Rows
  result : Except GoError CompactElementHistoryResp

/-- The compaction from where it stands to its end. What it reads is served, and its deletes
fail as `refuse` says. With too little fuel it does not come to its end. -/
def compactAlone (req : CompactElementHistoryReq) (now : Int) (refuse : String → Option GoError) :
    Nat → Rows → Compaction → Option Compacted
  | 0, _, _ => none
  | fuel + 1, rows, compaction =>
      match compaction with
      | .returned r => some ⟨[], rows, r⟩
      | _ =>
          (compactElementHistory req now (compaction.deleting.bind refuse) rows compaction).bind
            fun (rows', next, _) => (compactAlone req now refuse fuel rows' next).map fun c =>
              { c with tried := compaction.deleting.toList ++ c.tried }

/-! ## The policy -/

def isBelow (dir seek key : String) : Bool :=
  match leafBelow dir key with
  | none => false
  | some leaf => seek = "" || !(leaf < seek : Bool)

/-- The records directly below a directory, from a name on. -/
def rowsBelow (rows : Rows) (dir seek : String) : Rows := rows.filter fun e => isBelow dir seek e.1

def operationDir (md : ElementMetadata) : String := GenElementOperationDirKey md.App md.Env md.Key

/-- The versions of an element, and the keys beside them that are none. -/
def storedVersions (rows : Rows) (root : String) : List CompactVersion × List String :=
  pageVersions root (rowsBelow rows root "v")

/-- The operations on an element, and the keys of those that cannot be read. -/
def storedOperations (rows : Rows) (md : ElementMetadata) : List CompactOperation × List String :=
  pageOperations (rowsBelow rows (operationDir md) "")

/-- A period below 0 is none, and one that is too long keeps everything. -/
def retentionCutoff (now period unit : Int) : Int :=
  let retention := max 0 period * unit
  if now < retention ∨ maxInt64 < retention then 0 else now - retention

section Policy

variable (req : CompactElementHistoryReq) (now : Int) (md : ElementMetadata)

/-- A version that is not in use, is not about to be, is too old and has enough newer ones. -/
def Outdated (versions : List CompactVersion) (version : CompactVersion) : Prop :=
  version.version ≠ md.UsingVersion ∧ version.version ≠ md.UnpublishedVersion ∧
    version.createdAt < retentionCutoff (now / 10 ^ 9) req.KeepVersionSeconds 1 ∧
    req.KeepVersionCount ≤ versions.countP (fun other => version.version < other.version)

instance (versions : List CompactVersion) :
    DecidablePred (Outdated req now md versions) :=
  fun _ => inferInstanceAs (Decidable (_ ∧ _ ∧ _ ∧ _))

/-- The keys of the versions that are given up. -/
def outdatedVersions (versions : List CompactVersion) : List String :=
  (versions.filter fun version => Outdated req now md versions version).map (·.key)

def outdatedOperations (operations : List CompactOperation) : List String :=
  (operations.filter fun operation =>
    operation.operatedAt < retentionCutoff now req.KeepOperationSeconds (10 ^ 9)).map (·.key)

end Policy

/-! ## Deletes some of which fail -/

def refused (refuse : String → Option GoError) (keys : List String) : List String :=
  keys.filter fun key => (refuse key).isSome

/-- The records that are left when those of the keys are deleted. -/
def Rows.without (refuse : String → Option GoError) (rows : Rows) (keys : List String) : Rows :=
  rows.filter fun e => e.1 ∉ keys ∨ (refuse e.1).isSome

/-- What a compaction makes of a history that it has read, when it gives up these versions and
operations. The counters have 32 bits. -/
def compactedTo (refuse : String → Option GoError) (rows : Rows)
    (versions : List CompactVersion × List String)
    (operations : List CompactOperation × List String)
    (doomedVersions doomedOperations : List String) : Compacted :=
  let tried := doomedVersions ++ doomedOperations
  let failed := versions.2 ++ operations.2 ++ refused refuse tried
  { tried := tried
    rows := rows.without refuse tried
    result := .ok
      { ScannedVersions := int32 (versions.1.length + versions.2.length : Nat)
        ScannedOperations := int32 (operations.1.length + operations.2.length : Nat)
        DeletedVersions := int32 (doomedVersions.countP fun key => (refuse key).isNone)
        DeletedOperations := int32 (doomedOperations.countP fun key => (refuse key).isNone)
        FailedKeys := failed
        Error := if failed ≠ [] then "partial cleanup failure" else "" } }

/-! ## What is kept, by the code and by the policy -/

theorem safeRetentionCutoff_eq {now period unit : Int} (hunit : 0 < unit)
    (h : 0 ≤ now ∨ 0 < period) :
    safeRetentionCutoff now period unit = retentionCutoff now period unit := by
  have hoverflow : maxInt64 / unit < period ↔ maxInt64 < period * unit :=
    Int.ediv_lt_iff_lt_mul hunit
  unfold safeRetentionCutoff retentionCutoff
  dsimp only
  by_cases hp : period ≤ 0
  · have hnow : 0 ≤ now := h.resolve_right (not_lt.mpr hp)
    have hmax : ¬ maxInt64 < 0 := by decide
    simp [hp, hmax, not_lt.mpr hnow]
  · rw [if_neg hp, max_eq_right (not_le.mp hp).le]
    by_cases hlong : maxInt64 < period * unit
    · rw [if_pos (hoverflow.mpr hlong), if_pos (.inr hlong)]
    · rw [if_neg (hoverflow.not.mpr hlong)]
      simp only [hlong, or_false]

/-- Before 1970 and without a period nothing is old enough for either. -/
theorem lt_safeRetentionCutoff {t now period unit : Int} (ht : 0 ≤ t) (hunit : 0 < unit) :
    t < safeRetentionCutoff now period unit ↔ t < retentionCutoff now period unit := by
  by_cases h : 0 ≤ now ∨ 0 < period
  · rw [safeRetentionCutoff_eq hunit h]
  · obtain ⟨hnow, hp⟩ := not_or.mp h
    have hperiod := not_lt.mp hp
    have hcode : safeRetentionCutoff now period unit = now := if_pos hperiod
    have hpolicy : retentionCutoff now period unit = 0 := by
      unfold retentionCutoff
      rw [max_eq_left hperiod, zero_mul]
      exact if_pos (.inl (not_le.mp hnow))
    rw [hcode, hpolicy]
    exact iff_of_false (fun hlt => hnow (ht.trans hlt.le)) (not_lt.mpr ht)

theorem versionFromStorageKey_pos {root key : String} {v : Int}
    (h : versionFromStorageKey root key = some v) : 0 < v := by
  unfold versionFromStorageKey at h
  dsimp only at h
  split at h
  · cases h
  · split at h
    · cases h
    · split at h
      · cases h
      · next hpos =>
        cases h
        exact not_le.mp hpos

section Kept

variable {req : CompactElementHistoryReq} {now : Int} {md : ElementMetadata}
  {versions : List CompactVersion} {version : CompactVersion}

theorem notMem_inUse (hpos : 0 < version.version) :
    version.version ∉ [md.UsingVersion, md.UnpublishedVersion].filter (0 < ·) ↔
      version.version ≠ md.UsingVersion ∧ version.version ≠ md.UnpublishedVersion := by
  simp [List.mem_filter, hpos]

/-- A version is in a part of them if its number is the number of one of the part. -/
theorem mem_map_version (hdistinct : (versions.map (·.version)).Nodup) (hmem : version ∈ versions)
    {part : List CompactVersion} (hpart : ∀ v ∈ part, v ∈ versions) :
    version.version ∈ part.map (·.version) ↔ version ∈ part := by
  refine ⟨fun h => ?_, List.mem_map_of_mem⟩
  obtain ⟨v, hv, heq⟩ := List.mem_map.mp h
  rwa [← List.inj_on_of_nodup_map hdistinct (hpart v hv) hmem heq]

theorem notMem_retainedVersionSet (hdistinct : (versions.map (·.version)).Nodup)
    (hmem : version ∈ versions) (hpos : 0 < version.version) (hcreated : 0 ≤ version.createdAt) :
    version.version ∉ retainedVersionSet md versions req.KeepVersionCount
        (safeRetentionCutoff (now / 10 ^ 9) req.KeepVersionSeconds 1) ↔
      Outdated req now md versions version := by
  have hrecent : version ∈ versions.filter (fun v =>
      safeRetentionCutoff (now / 10 ^ 9) req.KeepVersionSeconds 1 ≤ v.createdAt) ↔
      ¬ version.createdAt < retentionCutoff (now / 10 ^ 9) req.KeepVersionSeconds 1 := by
    rw [← lt_safeRetentionCutoff hcreated Int.one_pos, not_lt]
    simp [List.mem_filter, hmem]
  have htop : version ∈ (versions.insertionSort fun a b => a.version ≥ b.version).take
      (if req.KeepVersionCount < 0 then 0 else req.KeepVersionCount).toNat ↔
      ¬ req.KeepVersionCount ≤ versions.countP (fun other => version.version < other.version) := by
    rw [Count.mem_take_sort (f := CompactVersion.version) (fun _ _ => Iff.rfl) hdistinct hmem]
    split <;> omega
  unfold retainedVersionSet Outdated
  rw [List.mem_append, not_or, notMem_inUse hpos, List.map_append, List.mem_append,
    mem_map_version hdistinct hmem fun v hv => (List.mem_filter.mp hv).1,
    mem_map_version hdistinct hmem fun v hv =>
      (List.mem_insertionSort _).mp (List.mem_of_mem_take hv),
    hrecent, htop, not_or, not_not, not_not, and_assoc]

end Kept

/-! ## Pages -/

section Pages

variable {rows : Rows} {dir seek : String}

theorem empty_le (leaf : String) : "" ≤ leaf := by
  rw [← not_lt, String.lt_iff_toList_lt]
  exact List.not_lt_nil _

theorem isBelow_iff {key : String} :
    isBelow dir seek key = true ↔ ∃ leaf, leafBelow dir key = some leaf ∧ seek ≤ leaf := by
  unfold isBelow
  cases leafBelow dir key with
  | none => simp
  | some leaf =>
    dsimp only
    rw [Bool.or_eq_true, decide_eq_true_iff, Bool.not_eq_true', decide_eq_false_iff_not, not_lt]
    constructor
    · rintro (rfl | hle)
      · exact ⟨leaf, rfl, empty_le leaf⟩
      · exact ⟨leaf, rfl, hle⟩
    · rintro ⟨l, hl, hle⟩
      cases hl
      exact .inr hle

theorem mem_rowsBelow {e : String × Row} :
    e ∈ rowsBelow rows dir seek ↔ e ∈ rows ∧ ∃ leaf, leafBelow dir e.1 = some leaf ∧ seek ≤ leaf := by
  rw [rowsBelow, List.mem_filter, isBelow_iff]

/-- Keys below a directory are in the order of their names. -/
theorem leaf_lt_of_key_lt {key key' leaf leaf' : String} (h : leafBelow dir key = some leaf)
    (h' : leafBelow dir key' = some leaf') (hlt : key < key') : leaf < leaf' := by
  rw [leafBelow_eq_some h, leafBelow_eq_some h', String.lt_iff_toList_lt, String.toList_append,
    String.toList_append (t := leaf')] at hlt
  rw [String.lt_iff_toList_lt]
  by_contra hge
  rcases (not_lt.mp hge).eq_or_lt with heq | hlt'
  · rw [heq] at hlt
    exact lt_irrefl _ hlt
  · exact lt_asymm hlt (List.append_left_lt hlt')

/-- The records from a name on that is met on the way. -/
theorem rowsBelow_of_append (hsorted : SortedMap.Sorted rows) {as bs : Rows} {e : String × Row}
    (h : rowsBelow rows dir seek = as ++ e :: bs) {leaf : String}
    (hleaf : leafBelow dir e.1 = some leaf) : rowsBelow rows dir leaf = e :: bs := by
  have hmem : ∀ x ∈ as ++ e :: bs, ∃ l, leafBelow dir x.1 = some l ∧ seek ≤ l := fun x hx =>
    (mem_rowsBelow.mp (h ▸ hx)).2
  have horder : (as ++ e :: bs).Pairwise fun a b => a.1 < b.1 := h ▸ hsorted.filter _
  obtain ⟨-, hrest, hcross⟩ := List.pairwise_append.mp horder
  have hseek : seek ≤ leaf := by
    obtain ⟨l, hl, hle⟩ := hmem e (List.mem_append_right _ List.mem_cons_self)
    cases hleaf.symm.trans hl
    exact hle
  have htwice : rowsBelow rows dir leaf = rowsBelow (rowsBelow rows dir seek) dir leaf := by
    unfold rowsBelow
    rw [List.filter_filter]
    refine List.filter_congr fun x _ => ?_
    rw [Bool.eq_iff_iff, Bool.and_eq_true, isBelow_iff, isBelow_iff]
    exact ⟨fun ⟨l, hl, hle⟩ => ⟨⟨l, hl, hle⟩, l, hl, hseek.trans hle⟩, And.left⟩
  have hbefore : rowsBelow as dir leaf = [] := by
    rw [List.eq_nil_iff_forall_not_mem]
    rintro x hx
    obtain ⟨hxas, l, hl, hle⟩ := mem_rowsBelow.mp hx
    exact absurd (leaf_lt_of_key_lt hl hleaf (hcross x hxas e List.mem_cons_self)) (not_lt.mpr hle)
  have hfrom : rowsBelow (e :: bs) dir leaf = e :: bs := by
    refine List.filter_eq_self.mpr fun x hx => (List.mem_filter.mp (mem_rowsBelow.mpr ⟨hx, ?_⟩)).2
    rcases List.mem_cons.mp hx with rfl | hbs
    · exact ⟨leaf, hleaf, le_rfl⟩
    · obtain ⟨l, hl, -⟩ := hmem x (List.mem_append_right _ hx)
      have hlt := (List.pairwise_cons.mp hrest).1 x hbs
      exact ⟨l, hl, (leaf_lt_of_key_lt hleaf hl hlt).le⟩
  rw [htwice, h, rowsBelow, List.filter_append]
  exact (congrArg₂ _ hbefore hfrom).trans (List.nil_append _)

/-- A page is the last one, or the next begins with what is left. -/
theorem iterate_rowsBelow (hsorted : SortedMap.Sorted rows) (dir seek : String) {limit : Nat}
    (hlimit : 0 < limit) :
    iterate rows dir seek limit = ⟨rowsBelow rows dir seek, false, ""⟩ ∨
      ∃ entities leaf, iterate rows dir seek limit = ⟨entities, true, leaf⟩ ∧ leaf ≠ "" ∧
        entities ++ rowsBelow rows dir leaf = rowsBelow rows dir seek ∧
        (rowsBelow rows dir leaf).length < (rowsBelow rows dir seek).length := by
  have hpage : iterate rows dir seek limit =
      ⟨(rowsBelow rows dir seek).take limit, (rowsBelow rows dir seek).drop limit ≠ [],
        (((rowsBelow rows dir seek).drop limit).head?.bind fun e => leafBelow dir e.1).getD ""⟩ := rfl
  have hsplit := List.take_append_drop limit (rowsBelow rows dir seek)
  rw [hpage]
  cases hdrop : (rowsBelow rows dir seek).drop limit with
  | nil =>
    rw [hdrop, List.append_nil] at hsplit
    exact .inl (by rw [hsplit]; rfl)
  | cons e bs =>
    rw [hdrop] at hsplit
    have hmem : e ∈ rowsBelow rows dir seek := hsplit ▸ List.mem_append_right _ List.mem_cons_self
    obtain ⟨-, leaf, hleaf, -⟩ := mem_rowsBelow.mp hmem
    have hnext := rowsBelow_of_append hsorted hsplit.symm hleaf
    have hlen := congrArg List.length hdrop
    rw [List.length_drop, List.length_cons] at hlen
    refine .inr ⟨_, leaf, ?_, (leafBelow_iff.mp hleaf).2.1, hnext ▸ hsplit, ?_⟩
    · simp [hleaf]
    · rw [hnext, List.length_cons]
      omega

end Pages

/-! ## The parts of a run -/

theorem pageVersions_append (root : String) (as bs : List (String × Row)) :
    pageVersions root (as ++ bs) = ((pageVersions root as).1 ++ (pageVersions root bs).1,
      (pageVersions root as).2 ++ (pageVersions root bs).2) := by
  simp only [pageVersions, List.filterMap_append, List.filter_append, List.map_append]

theorem pageOperations_append (as bs : List (String × Row)) :
    pageOperations (as ++ bs) = ((pageOperations as).1 ++ (pageOperations bs).1,
      (pageOperations as).2 ++ (pageOperations bs).2) := by
  simp only [pageOperations, List.filterMap_append, List.filter_append, List.map_append]

theorem pageSizeOf_pos (req : CompactElementHistoryReq) : 0 < pageSizeOf req := by
  unfold pageSizeOf
  split <;> omega

theorem int32_succ (x : Int) : int32 (int32 x + 1) = int32 (x + 1) := Int.bmod_add_bmod

namespace Rows

variable {refuse : String → Option GoError} (rows : Rows) {key : String} (keys : List String)

theorem without_nil : rows.without refuse [] = rows :=
  List.filter_eq_self.mpr fun _ _ => decide_eq_true (.inl List.not_mem_nil)

theorem without_cons_of_some {err : GoError} (h : refuse key = some err) :
    rows.without refuse (key :: keys) = rows.without refuse keys := by
  refine List.filter_congr fun e _ => decide_eq_decide.mpr ?_
  by_cases hkey : e.1 = key
  · simp [hkey, h]
  · simp [hkey]

theorem without_cons_of_none (h : refuse key = none) :
    rows.without refuse (key :: keys) = Rows.without refuse (SortedMap.erase key rows) keys := by
  unfold without SortedMap.erase
  rw [List.filter_filter]
  refine List.filter_congr fun e _ => ?_
  by_cases hkey : e.1 = key
  · simp [hkey, h]
  · simp [hkey]

end Rows

section Run

variable (req : CompactElementHistoryReq) (now : Int) (refuse : String → Option GoError)

/-- The compaction comes to its end, and with this. -/
def Compacts (rows : Rows) (compaction : Compaction) (c : Compacted) : Prop :=
  ∃ fuel, ∀ more, fuel ≤ more → compactAlone req now refuse more rows compaction = some c

variable {req now refuse} {rows : Rows} {compaction : Compaction} {c : Compacted}

theorem Compacts.returned (rows : Rows) (r : Except GoError CompactElementHistoryResp) :
    Compacts req now refuse rows (.returned r) ⟨[], rows, r⟩ := by
  refine ⟨1, fun more hmore => ?_⟩
  obtain ⟨more, rfl⟩ : ∃ m, more = m + 1 := ⟨more - 1, by omega⟩
  rfl

theorem Compacts.step {rows' : Rows} {next : Compaction}
    (h : (compactElementHistory req now (compaction.deleting.bind refuse) rows compaction).map
      (fun r => (r.1, r.2.1)) = some (rows', next)) (hnext : Compacts req now refuse rows' next c) :
    Compacts req now refuse rows compaction
      { c with tried := compaction.deleting.toList ++ c.tried } := by
  obtain ⟨fuel, hfuel⟩ := hnext
  refine ⟨fuel + 1, fun more hmore => ?_⟩
  obtain ⟨more, rfl⟩ : ∃ m, more = m + 1 := ⟨more - 1, by omega⟩
  have hrest := hfuel more (by omega)
  obtain ⟨⟨_, _, q⟩, hserved, hr⟩ := Option.map_eq_some_iff.mp h
  cases hr
  cases compaction with
  | returned r => cases h
  | _ =>
    unfold compactAlone
    dsimp only
    rw [hserved, Option.bind_some, hrest]
    rfl

/-- A request that is no delete is served. -/
theorem Compacts.move (hread : compaction.deleting = none) {rows' : Rows} {next : Compaction}
    (h : (compactElementHistory req now none rows compaction).map (fun r => (r.1, r.2.1)) =
      some (rows', next))
    (hnext : Compacts req now refuse rows' next c) : Compacts req now refuse rows compaction c := by
  have hstep : Compacts req now refuse rows compaction _ := .step (by rw [hread]; exact h) hnext
  rwa [hread] at hstep

/-! Each of the two loops of deletes begins with what the response has so far. -/

theorem compacts_deleteOperations (rest : List CompactOperation) (rows : Rows) (deleted : Nat)
    (resp : CompactElementHistoryResp) (hdeleted : resp.DeletedOperations = int32 deleted) :
    Compacts req now refuse rows (.deleteOperations rest resp)
      { tried := rest.map (·.key)
        rows := rows.without refuse (rest.map (·.key))
        result := .ok
          { resp with
            DeletedOperations :=
              int32 (deleted + (rest.map (·.key)).countP fun key => (refuse key).isNone : Nat)
            FailedKeys := resp.FailedKeys ++ refused refuse (rest.map (·.key))
            Error := if resp.FailedKeys ++ refused refuse (rest.map (·.key)) ≠ [] then
              "partial cleanup failure" else "" } } := by
  induction rest generalizing rows deleted resp with
  | nil =>
    have hend : Compacts req now refuse rows (.deleteOperations [] resp) _ :=
      .move rfl rfl (.returned rows _)
    simpa [refused, Rows.without_nil, ← hdeleted] using hend
  | cons operation rest ih =>
    cases hrefuse : refuse operation.key with
    | some err =>
      have hnext := ih rows deleted
        { resp with FailedKeys := resp.FailedKeys ++ [operation.key] } hdeleted
      have hstep : Compacts req now refuse rows (.deleteOperations (operation :: rest) resp) _ := .step
        (by simp only [Compaction.deleting, Option.bind_some, hrefuse]; rfl) hnext
      simpa [refused, Rows.without_cons_of_some _ _ hrefuse, hrefuse, Compaction.deleting] using hstep
    | none =>
      have hnext := ih (SortedMap.erase operation.key rows) (deleted + 1)
        { resp with DeletedOperations := int32 (resp.DeletedOperations + 1) }
        (by rw [hdeleted, int32_succ, Nat.cast_succ])
      have hstep : Compacts req now refuse rows (.deleteOperations (operation :: rest) resp) _ := .step
        (by simp only [Compaction.deleting, Option.bind_some, hrefuse]; rfl) hnext
      simpa [refused, Rows.without_cons_of_none _ _ hrefuse, hrefuse, Compaction.deleting,
        Nat.add_assoc, Nat.add_comm] using hstep

theorem compacts_deleteVersions (rest : List CompactVersion) (operations : List CompactOperation)
    (rows : Rows) (deleted : Nat) (resp : CompactElementHistoryResp)
    (hversions : resp.DeletedVersions = int32 deleted) (hoperations : resp.DeletedOperations = 0) :
    Compacts req now refuse rows (.deleteVersions rest operations resp)
      { tried := rest.map (·.key) ++ operations.map (·.key)
        rows := rows.without refuse (rest.map (·.key) ++ operations.map (·.key))
        result := .ok
          { resp with
            DeletedVersions :=
              int32 (deleted + (rest.map (·.key)).countP fun key => (refuse key).isNone : Nat)
            DeletedOperations :=
              int32 ((operations.map (·.key)).countP fun key => (refuse key).isNone)
            FailedKeys :=
              resp.FailedKeys ++ refused refuse (rest.map (·.key) ++ operations.map (·.key))
            Error :=
              if resp.FailedKeys ++ refused refuse (rest.map (·.key) ++ operations.map (·.key)) ≠ []
              then "partial cleanup failure" else "" } } := by
  induction rest generalizing rows deleted resp with
  | nil =>
    have hend : Compacts req now refuse rows (.deleteVersions [] operations resp) _ :=
      .move rfl rfl (compacts_deleteOperations operations rows 0 resp (by rw [hoperations]; rfl))
    simpa [← hversions] using hend
  | cons version rest ih =>
    cases hrefuse : refuse version.key with
    | some err =>
      have hnext := ih rows deleted
        { resp with FailedKeys := resp.FailedKeys ++ [version.key] } hversions hoperations
      have hstep : Compacts req now refuse rows (.deleteVersions (version :: rest) operations resp) _ := .step
        (by simp only [Compaction.deleting, Option.bind_some, hrefuse]; rfl) hnext
      simpa [refused, Rows.without_cons_of_some _ _ hrefuse, hrefuse, Compaction.deleting] using hstep
    | none =>
      have hnext := ih (SortedMap.erase version.key rows) (deleted + 1)
        { resp with DeletedVersions := int32 (resp.DeletedVersions + 1) }
        (by rw [hversions, int32_succ, Nat.cast_succ]) hoperations
      have hstep : Compacts req now refuse rows (.deleteVersions (version :: rest) operations resp) _ := .step
        (by simp only [Compaction.deleting, Option.bind_some, hrefuse]; rfl) hnext
      simpa [refused, Rows.without_cons_of_none _ _ hrefuse, hrefuse, Compaction.deleting,
        Nat.add_assoc, Nat.add_comm] using hstep

/-! The loops that read come to the end of their directory. -/

theorem compacts_loadOperations (hsorted : SortedMap.Sorted rows) {md : ElementMetadata}
    {versions : List CompactVersion} {failed : List String} {seek : String}
    {operations : List CompactOperation} {failedOps : List String}
    (hnext : Compacts req now refuse rows (startDeleting req now md versions failed
      (operations ++ (pageOperations (rowsBelow rows (operationDir md) seek)).1)
      (failedOps ++ (pageOperations (rowsBelow rows (operationDir md) seek)).2)) c) :
    Compacts req now refuse rows (.loadOperations md versions failed seek operations failedOps) c := by
  obtain hpage | ⟨entities, leaf, hpage, hleaf, hsplit, hless⟩ :=
    iterate_rowsBelow hsorted (operationDir md) seek (pageSizeOf_pos req)
  · refine .move rfl ?_ hnext
    unfold operationDir at hpage
    simp only [compactElementHistory, hpage, operationDir, true_or, if_true]
    rfl
  · rw [← hsplit, pageOperations_append] at hnext
    simp only [← List.append_assoc] at hnext
    refine .move rfl ?_ (compacts_loadOperations hsorted hnext)
    unfold operationDir at hpage
    simp only [compactElementHistory, hpage, hleaf, Bool.true_eq_false, or_self, if_false]
    rfl
  termination_by (rowsBelow rows (operationDir md) seek).length

theorem compacts_loadVersions (hsorted : SortedMap.Sorted rows) {md : ElementMetadata}
    {seek : String} {versions : List CompactVersion} {failed : List String}
    (hnext : Compacts req now refuse rows (.loadOperations md
      (versions ++ (pageVersions req.ElementKey (rowsBelow rows req.ElementKey seek)).1)
      (failed ++ (pageVersions req.ElementKey (rowsBelow rows req.ElementKey seek)).2) "" [] []) c) :
    Compacts req now refuse rows (.loadVersions md seek versions failed) c := by
  obtain hpage | ⟨entities, leaf, hpage, hleaf, hsplit, hless⟩ :=
    iterate_rowsBelow hsorted req.ElementKey seek (pageSizeOf_pos req)
  · refine .move rfl ?_ hnext
    simp only [compactElementHistory, hpage, true_or, if_true]
    rfl
  · rw [← hsplit, pageVersions_append] at hnext
    simp only [← List.append_assoc] at hnext
    refine .move rfl ?_ (compacts_loadVersions hsorted hnext)
    simp only [compactElementHistory, hpage, hleaf, Bool.true_eq_false, or_self, if_false]
    rfl
  termination_by (rowsBelow rows req.ElementKey seek).length

variable (req now refuse) in
/-- A compaction of an element whose metadata is stored comes to its end. -/
theorem compacts_loadMetadata (hsorted : SortedMap.Sorted rows) (hkey : req.ElementKey ≠ "")
    {md : ElementMetadata}
    (hmd : rows.kv (WithMetadataSuffix req.ElementKey) = some (.metadata md)) :
    Compacts req now refuse rows .loadMetadata
      (compactedTo refuse rows (storedVersions rows req.ElementKey) (storedOperations rows md)
        (((storedVersions rows req.ElementKey).1.filter fun version =>
          version.version ∉ retainedVersionSet md (storedVersions rows req.ElementKey).1
            req.KeepVersionCount (safeRetentionCutoff (now / 10 ^ 9) req.KeepVersionSeconds 1)).map
              (·.key))
        (((storedOperations rows md).1.filter fun operation =>
          operation.operatedAt < safeRetentionCutoff now req.KeepOperationSeconds (10 ^ 9)).map
            (·.key))) := by
  have hload : Compacts req now refuse rows (.loadVersions md "v" [] []) _ :=
    compacts_loadVersions hsorted (compacts_loadOperations hsorted
      (compacts_deleteVersions _ _ rows 0 _ rfl rfl))
  simp only [List.nil_append, Nat.zero_add, ← Nat.cast_add] at hload
  refine .move rfl ?_ hload
  simp only [compactElementHistory, if_neg hkey, hmd, Content.answer_some]
  rfl

end Run

/-! ## The compaction follows the policy -/

/-- An element with its history: each version has a number of its own, and no time is
before 1970. -/
structure History (rows : Rows) (root : String) (md : ElementMetadata) : Prop where
  sorted : SortedMap.Sorted rows
  named : root ≠ ""
  metadata : rows.kv (WithMetadataSuffix root) = some (.metadata md)
  distinct : ((storedVersions rows root).1.map (·.version)).Nodup
  created : ∀ e ∈ rows, 0 ≤ e.2.createdAt
  operated : ∀ e ∈ rows, ∀ op, e.2.val = .operation op → 0 ≤ op.OperatedAt

section Exact

variable {rows : Rows} {root : String} {md : ElementMetadata}

theorem mem_storedVersions {version : CompactVersion} (h : version ∈ (storedVersions rows root).1) :
    0 < version.version ∧ ∃ e ∈ rows, version.createdAt = e.2.createdAt := by
  obtain ⟨e, he, hversion⟩ := List.mem_filterMap.mp h
  obtain ⟨v, hv, rfl⟩ := Option.map_eq_some_iff.mp hversion
  exact ⟨versionFromStorageKey_pos hv, e, (mem_rowsBelow.mp he).1, rfl⟩

theorem mem_storedOperations {operation : CompactOperation}
    (h : operation ∈ (storedOperations rows md).1) :
    ∃ e ∈ rows, ∃ op, e.2.val = .operation op ∧ operation.operatedAt = op.OperatedAt := by
  obtain ⟨e, he, hoperation⟩ := List.mem_filterMap.mp h
  have hmem := (mem_rowsBelow.mp he).1
  split at hoperation
  · next op hop =>
    cases hoperation
    exact ⟨e, hmem, op, hop, rfl⟩
  · cases hoperation

/-! What the calls write under their keys is what the compaction reads. -/

theorem toList_toString (k : Nat) : (toString (k : Int)).toList = Nat.toDigits 10 k := Nat.toList_repr

theorem isBelow_versionKey (root : String) (k : Nat) : isBelow root "v" (versionKey root k) = true := by
  refine isBelow_iff.mpr ⟨"v" ++ toString (k : Int), leafBelow_iff.mpr ⟨?_, by simp, ?_⟩, ?_⟩
  · rw [versionKey, joint_pair, String.toList_append, String.toList_append]
    rfl
  · rw [String.toList_append, toList_toString, List.mem_append, not_or]
    exact ⟨by decide, Decimal.not_mem_toDigits (by decide) k⟩
  · rw [← not_lt, String.lt_iff_toList_lt, String.toList_append]
    simp

theorem isBelow_operationKey (md : ElementMetadata) (k : Nat) :
    isBelow (operationDir md) "" (GenElementOperationKey md.App md.Env md.Key k) = true := by
  refine isBelow_iff.mpr ⟨toString (k : Int), leafBelow_iff.mpr ⟨?_, ?_, ?_⟩, empty_le _⟩
  · rw [GenElementOperationKey, joint_pair, String.toList_append, String.toList_append]
    rfl
  · intro hempty
    exact Nat.toDigits_ne_nil ((toList_toString k).symm.trans (congrArg String.toList hempty))
  · rw [toList_toString]
    exact Decimal.not_mem_toDigits (by decide) k

theorem storedVersions_of_written {k : Nat} (hpos : 0 < k) (hlt : k < 2 ^ 31) {row : Row}
    (h : (versionKey root k, row) ∈ rows) :
    ⟨versionKey root k, k, row.createdAt⟩ ∈ (storedVersions rows root).1 := by
  refine List.mem_filterMap.mpr ⟨_, List.mem_filter.mpr ⟨h, isBelow_versionKey root k⟩, ?_⟩
  rw [versionFromStorageKey_written root hpos hlt]
  rfl

theorem storedOperations_of_written {k : Nat} {op : ElementOperation} {t : Int}
    (h : (GenElementOperationKey md.App md.Env md.Key k, ⟨.operation op, t⟩) ∈ rows) :
    ⟨GenElementOperationKey md.App md.Env md.Key k, op.OperatedAt⟩ ∈ (storedOperations rows md).1 :=
  List.mem_filterMap.mpr ⟨_, List.mem_filter.mpr ⟨h, isBelow_operationKey md k⟩, rfl⟩

/-- The compaction comes to its end. It tries to delete what the policy gives up and nothing
else, and reports what it has scanned and deleted, in counters of 32 bits, and the keys that
it could not read or delete. -/
theorem compacts_exact (req : CompactElementHistoryReq) (now : Int)
    (refuse : String → Option GoError) (h : History rows req.ElementKey md) :
    Compacts req now refuse rows .loadMetadata
      (compactedTo refuse rows (storedVersions rows req.ElementKey) (storedOperations rows md)
        (outdatedVersions req now md (storedVersions rows req.ElementKey).1)
        (outdatedOperations req now (storedOperations rows md).1)) := by
  have hrun := compacts_loadMetadata req now refuse h.sorted h.named h.metadata
  have hversions : ∀ version ∈ (storedVersions rows req.ElementKey).1,
      (version.version ∉ retainedVersionSet md (storedVersions rows req.ElementKey).1
        req.KeepVersionCount (safeRetentionCutoff (now / 10 ^ 9) req.KeepVersionSeconds 1) ↔
      Outdated req now md (storedVersions rows req.ElementKey).1 version) := by
    intro version hmem
    obtain ⟨hpos, e, he, hcreated⟩ := mem_storedVersions hmem
    exact notMem_retainedVersionSet h.distinct hmem hpos (hcreated ▸ h.created e he)
  have hoperations : ∀ operation ∈ (storedOperations rows md).1,
      (operation.operatedAt < safeRetentionCutoff now req.KeepOperationSeconds (10 ^ 9) ↔
        operation.operatedAt < retentionCutoff now req.KeepOperationSeconds (10 ^ 9)) := by
    intro operation hmem
    obtain ⟨e, he, op, hop, hoperated⟩ := mem_storedOperations hmem
    exact lt_safeRetentionCutoff (hoperated ▸ h.operated e he op hop) (by decide)
  rw [List.filter_congr fun v hv => decide_eq_decide.mpr (hversions v hv),
    List.filter_congr fun o ho => decide_eq_decide.mpr (hoperations o ho)] at hrun
  exact hrun

end Exact

/-- The version that is not in use is given up. -/
theorem compacts_exact_oldVersion :
    Compacts keepNewest (10 ^ 18) (fun _ => none) oldVersionRows .loadMetadata
      (compactedTo (fun _ => none) oldVersionRows
        ([⟨"cassem/elements/a/e/k/v1", 1, 0⟩, ⟨"cassem/elements/a/e/k/v2", 2, 0⟩], []) ([], [])
        ["cassem/elements/a/e/k/v1"] []) := by
  have hversions : storedVersions oldVersionRows keepNewest.ElementKey =
      ([⟨"cassem/elements/a/e/k/v1", 1, 0⟩, ⟨"cassem/elements/a/e/k/v2", 2, 0⟩], []) := by
    decide +kernel
  have hoperations : storedOperations oldVersionRows ⟨"k", "a", "e", 2, 0, 2, "", 1⟩ = ([], []) := by
    decide +kernel
  have hhistory : History oldVersionRows keepNewest.ElementKey ⟨"k", "a", "e", 2, 0, 2, "", 1⟩ :=
    { sorted := by unfold SortedMap.Sorted; decide +kernel
      named := by decide
      metadata := by decide +kernel
      distinct := by decide +kernel
      created := by decide +kernel
      operated := by
        intro e he op hop
        simp only [oldVersionRows, List.mem_cons, List.not_mem_nil, or_false] at he
        rcases he with rfl | rfl | rfl <;> cases hop }
  have hrun := compacts_exact keepNewest (10 ^ 18) (fun _ => none) hhistory
  rw [hversions, hoperations] at hrun
  exact hrun

/-! The counters have 32 bits, so that 2³¹ operations are not counted right. -/

/-- Everything below the directory is scanned. -/
theorem length_pageOperations (entities : List (String × Row)) :
    (pageOperations entities).1.length + (pageOperations entities).2.length = entities.length := by
  induction entities with
  | nil => rfl
  | cons e entities ih =>
    obtain ⟨key, val, createdAt⟩ := e
    have happend := pageOperations_append [(key, ⟨val, createdAt⟩)] entities
    rw [List.singleton_append] at happend
    rw [happend, List.length_append, List.length_append, List.length_cons, ← ih]
    cases val <;> simp [pageOperations] <;> omega

def operationRow (t : Nat) : String × Row :=
  (GenElementOperationKey "a" "e" "k" t, ⟨.operation ⟨"", t, "k", .SET, 0, 1, ""⟩, 0⟩)

def crowdedMetadata : ElementMetadata := ⟨"k", "a", "e", 0, 0, 0, "", 1⟩

/-- An element without a version, and with `n` operations. -/
def crowded (n : Nat) : Rows :=
  (("cassem/elements/a/e/k/metadata", ⟨.metadata crowdedMetadata, 0⟩) ::
    (List.range n).map operationRow).insertionSort fun a b => a.1 ≤ b.1

section Crowded

variable (n : Nat)

theorem perm_crowded : (crowded n).Perm
    (("cassem/elements/a/e/k/metadata", ⟨.metadata crowdedMetadata, 0⟩) ::
      (List.range n).map operationRow) := List.perm_insertionSort ..

theorem operationRow_ne_element (t : Nat) (suffix : String) :
    (operationRow t).1 ≠ "cassem/elements/a/e/k" ++ suffix :=
  operationKey_ne_element "a" "e" "k" t "a" "e" "k" suffix

theorem sorted_crowded : SortedMap.Sorted (crowded n) := by
  have hdistinct : ((crowded n).map (·.1)).Nodup := by
    rw [((perm_crowded n).map _).nodup_iff, List.map_cons, List.nodup_cons, List.map_map]
    constructor
    · intro h
      obtain ⟨t, -, ht⟩ := List.mem_map.mp h
      exact operationRow_ne_element t "/metadata" ht
    · refine List.nodup_range.map fun s t h => ?_
      exact Int.ofNat_inj.mp (operationKey_inj.mp h)
  have hle : (crowded n).Pairwise fun a b => a.1 ≤ b.1 := List.pairwise_insertionSort ..
  exact (hle.and (List.pairwise_map.mp hdistinct)).imp fun h => lt_of_le_of_ne h.1 h.2

theorem rowsBelow_crowded_versions :
    rowsBelow (crowded n) "cassem/elements/a/e/k" "v" = [] := by
  rw [List.eq_nil_iff_forall_not_mem]
  intro e he
  obtain ⟨hmem, leaf, hleaf, hle⟩ := mem_rowsBelow.mp he
  rcases List.mem_cons.mp ((perm_crowded n).mem_iff.mp hmem) with rfl | hmem
  · have hname : leafBelow "cassem/elements/a/e/k" "cassem/elements/a/e/k/metadata" =
        some "metadata" := by decide +kernel
    cases hname.symm.trans hleaf
    exact absurd hle (by decide)
  · obtain ⟨t, -, rfl⟩ := List.mem_map.mp hmem
    refine operationRow_ne_element t ("/" ++ leaf) ?_
    rw [leafBelow_eq_some hleaf, String.append_assoc]

theorem length_rowsBelow_crowded :
    (rowsBelow (crowded n) (operationDir crowdedMetadata) "").length = n := by
  have hmetadata : isBelow (operationDir crowdedMetadata) "" "cassem/elements/a/e/k/metadata" =
      false := by decide +kernel
  have hrows := ((perm_crowded n).filter fun e =>
    isBelow (operationDir crowdedMetadata) "" e.1).length_eq
  have hall : ((List.range n).map operationRow).filter
      (fun e => isBelow (operationDir crowdedMetadata) "" e.1) = (List.range n).map operationRow := by
    refine List.filter_eq_self.mpr fun e he => ?_
    obtain ⟨t, -, rfl⟩ := List.mem_map.mp he
    exact isBelow_operationKey crowdedMetadata t
  rw [List.filter_cons_of_neg (by simp [hmetadata]), hall, List.length_map,
    List.length_range] at hrows
  exact hrows

theorem history_crowded : History (crowded n) "cassem/elements/a/e/k" crowdedMetadata where
  sorted := sorted_crowded n
  named := by decide
  metadata := by
    have hmem := (perm_crowded n).mem_iff.mpr List.mem_cons_self
    unfold Rows.kv
    exact congrArg _ (SortedMap.lookup_of_mem (sorted_crowded n) hmem)
  distinct := by
    rw [storedVersions, rowsBelow_crowded_versions]
    exact List.nodup_nil
  created e he := by
    rcases List.mem_cons.mp ((perm_crowded n).mem_iff.mp he) with rfl | he
    · decide
    · obtain ⟨t, -, rfl⟩ := List.mem_map.mp he
      exact le_rfl
  operated e he op hop := by
    rcases List.mem_cons.mp ((perm_crowded n).mem_iff.mp he) with rfl | he
    · cases hop
    · obtain ⟨t, -, rfl⟩ := List.mem_map.mp he
      cases hop
      exact Int.natCast_nonneg t

theorem scanned_crowded :
    ∃ c resp, Compacts keepNewest (10 ^ 18) (fun _ => none) (crowded n) .loadMetadata c ∧
      c.result = .ok resp ∧ resp.ScannedOperations = int32 n := by
  have hhistory := history_crowded n
  have hscanned : (storedOperations (crowded n) crowdedMetadata).1.length +
      (storedOperations (crowded n) crowdedMetadata).2.length = n :=
    (length_pageOperations _).trans (length_rowsBelow_crowded n)
  have hrun := compacts_loadMetadata keepNewest (10 ^ 18) (fun _ => none) hhistory.sorted
    hhistory.named hhistory.metadata
  refine ⟨_, _, hrun, rfl, ?_⟩
  dsimp only
  rw [hscanned]

end Crowded

/-- 2³¹ operations are reported as -2³¹. -/
theorem crowded_miscounted :
    History (crowded (2 ^ 31)) keepNewest.ElementKey crowdedMetadata ∧
      (rowsBelow (crowded (2 ^ 31)) (operationDir crowdedMetadata) "").length = 2 ^ 31 ∧
      ∃ c resp, Compacts keepNewest (10 ^ 18) (fun _ => none) (crowded (2 ^ 31)) .loadMetadata c ∧
        c.result = .ok resp ∧ resp.ScannedOperations = -2 ^ 31 := by
  obtain ⟨c, resp, hrun, hresult, hscanned⟩ := scanned_crowded (2 ^ 31)
  have hwrap : int32 (2 ^ 31 : Nat) = -2 ^ 31 := by decide
  exact ⟨history_crowded _, length_rowsBelow_crowded _, c, resp, hrun, hresult,
    hscanned.trans hwrap⟩

end Cassem.Coord
