import Cassem.Coord.Serialise
import Cassem.Lib.Decimal
import Cassem.Lib.SortedMap

/-!
# Compaction of the history of an element

`compactElementHistory` reads the metadata once, pages through the versions and the
operations, and then deletes those that the retention policy gives up, one by one. Publish
and rollback calls on the element go on meanwhile. A version that the metadata names is
never deleted as long as the compaction and the calls do not overlap on it.
-/

namespace Cassem.Coord

open Lib Cassem.Concept
open KV (Bytes int32)
open Program (Pool)

/-! ## The service, with the times of creation -/

/-- A record as the service stores it. None of an element has a time to live. -/
structure Row where
  val : Record
  createdAt : Int
  deriving DecidableEq, Repr

abbrev Rows := List (String × Row)

def Rows.kv (rows : Rows) : KVState := fun key => (SortedMap.lookup key rows).map (·.val)

/-- A request of a call. A record that is overwritten keeps its time of creation. -/
def serveRows (now : Int) (rows : Rows) : (q : KVReq) → Rows × q.Resp
  | .GetKV key => (rows, Content.answer (rows.kv key))
  | .SetKV key val overwrite =>
      match SortedMap.lookup key rows with
      | none => (SortedMap.insert key ⟨val, now⟩ rows, .ok ())
      | some row =>
          if overwrite then (SortedMap.insert key ⟨val, row.createdAt⟩ rows, .ok ())
          else (rows, .error (.concept Err_ALREADY_EXISTS))

/-- The name of a key directly below another. -/
def leafBelow (dir key : String) : Option String :=
  if (dir ++ "/").toList <+: key.toList then
    let leaf := String.ofList (key.toList.drop (dir ++ "/").toList.length)
    if leaf = "" ∨ '/' ∈ leaf.toList then none else some leaf
  else none

structure RangePage where
  entities : List (String × Row)
  hasMore : Bool
  nextSeekKey : String

def iterate (rows : Rows) (key seek : String) (limit : Nat) : RangePage :=
  let below := rows.filter fun e =>
    match leafBelow key e.1 with
    | none => false
    | some leaf => seek = "" || !(leaf < seek : Bool)
  let rest := below.drop limit
  { entities := below.take limit
    hasMore := rest ≠ []
    nextSeekKey := ((rest.head?.bind fun e => leafBelow key e.1).getD "") }

/-! ## What is kept -/

structure CompactElementHistoryReq where
  ElementKey : String
  KeepVersionCount : Int
  KeepVersionSeconds : Int
  KeepOperationSeconds : Int
  PageSize : Int

structure CompactElementHistoryResp where
  ScannedVersions : Int
  ScannedOperations : Int
  DeletedVersions : Int := 0
  DeletedOperations : Int := 0
  FailedKeys : List String
  Error : String := ""
  deriving DecidableEq, Repr

structure CompactVersion where
  key : String
  version : Int
  createdAt : Int
  deriving DecidableEq, Repr

structure CompactOperation where
  key : String
  operatedAt : Int
  deriving DecidableEq, Repr

def maxInt64 : Int := 2 ^ 63 - 1

def safeRetentionCutoff (nowValue keepSeconds unit : Int) : Int :=
  if keepSeconds ≤ 0 then nowValue
  else if maxInt64 / unit < keepSeconds then 0
  else if nowValue < keepSeconds * unit then 0
  else nowValue - keepSeconds * unit

/-- The versions that are not to be deleted. -/
def retainedVersionSet (metadata : ElementMetadata) (versions : List CompactVersion)
    (keepCount keepCreatedAfter : Int) : List Int :=
  let keepCount := if keepCount < 0 then 0 else keepCount
  let inUse := [metadata.UsingVersion, metadata.UnpublishedVersion].filter (0 < ·)
  let recent := versions.filter fun version => keepCreatedAfter ≤ version.createdAt
  let sorted := versions.insertionSort fun a b => a.version ≥ b.version
  inUse ++ (recent ++ sorted.take keepCount.toNat).map (·.version)

def versionFromStorageKey (root key : String) : Option Int :=
  let leaf := trimPrefix key.toList (root ++ "/").toList
  if ¬ ['v'] <+: leaf ∨ '/' ∈ leaf then none
  else match Decimal.parseInt 32 (trimPrefix leaf ['v']) with
    | none => none
    | some version => if version ≤ 0 then none else some version

/-! ## The compaction -/

/-- A request as the service sees it: of a call, or of the compaction. -/
inductive Request where
  | kv (q : KVReq)
  | getKV (key : String)
  | iterate (key seek : String)
  | unsetKV (key : String)

/-- Where the compaction stands: the request it is to make next, with what it has read. -/
inductive Compaction where
  | loadMetadata
  | loadVersions (metadata : ElementMetadata) (seek : String) (versions : List CompactVersion)
      (failed : List String)
  | loadOperations (metadata : ElementMetadata) (versions : List CompactVersion)
      (failed : List String) (seek : String) (operations : List CompactOperation)
      (failedOps : List String)
  | deleteVersions (rest : List CompactVersion) (operations : List CompactOperation)
      (resp : CompactElementHistoryResp)
  | deleteOperations (rest : List CompactOperation) (resp : CompactElementHistoryResp)
  | returned (r : Except GoError CompactElementHistoryResp)

def pageSizeOf (req : CompactElementHistoryReq) : Nat :=
  if req.PageSize ≤ 0 then 100 else req.PageSize.toNat

/-- One page of versions: those with a version in their key, and the other keys. -/
def pageVersions (root : String) (entities : List (String × Row)) :
    List CompactVersion × List String :=
  (entities.filterMap fun e => (versionFromStorageKey root e.1).map fun version =>
      ⟨e.1, version, e.2.createdAt⟩,
    (entities.filter fun e => (versionFromStorageKey root e.1).isNone).map (·.1))

def pageOperations (entities : List (String × Row)) : List CompactOperation × List String :=
  (entities.filterMap fun e => match e.2.val with
      | .operation op => some ⟨e.1, op.OperatedAt⟩
      | _ => none,
    (entities.filter fun e => match e.2.val with
      | .operation _ => false
      | _ => true).map (·.1))

section Steps

variable (req : CompactElementHistoryReq) (now : Int)

def startDeleting (metadata : ElementMetadata) (versions : List CompactVersion)
    (failed : List String) (operations : List CompactOperation) (failedOps : List String) :
    Compaction :=
  let keep := retainedVersionSet metadata versions req.KeepVersionCount
    (safeRetentionCutoff (now / 10 ^ 9) req.KeepVersionSeconds 1)
  let cutoff := safeRetentionCutoff now req.KeepOperationSeconds (10 ^ 9)
  .deleteVersions (versions.filter fun version => version.version ∉ keep)
    (operations.filter fun operation => operation.operatedAt < cutoff)
    { ScannedVersions := int32 (versions.length + failed.length)
      ScannedOperations := int32 (operations.length + failedOps.length)
      FailedKeys := failed ++ failedOps }

/-- One request of the compaction that was started at `now` (in nanoseconds), refused with
`err` or served; a loop that has come to its end makes none. -/
def compactElementHistory (err : Option GoError) (rows : Rows) :
    Compaction → Option (Rows × Compaction × Option Request)
  | .loadMetadata =>
      if req.ElementKey = "" then
        some (rows, .returned (.error (.text "compact element history: empty element key")), none)
      else
        let key := WithMetadataSuffix req.ElementKey
        let next := match err, Content.answer (rows.kv key) with
          | some err, _ | none, .error err => .returned (.error
              (.errorf ("load compact metadata " ++ req.ElementKey.quote ++ ": ") err))
          | none, .ok (.metadata metadata) => .loadVersions metadata "v" [] []
          | none, .ok _ => .returned (.error
              (.errorf ("unmarshal compact metadata " ++ req.ElementKey.quote ++ ": ")
                (.text "proto: cannot parse invalid wire-format data")))
        some (rows, next, some (.getKV key))
  | .loadVersions metadata seek versions failed =>
      let page := iterate rows req.ElementKey seek (pageSizeOf req)
      let (found, others) := pageVersions req.ElementKey page.entities
      let next := match err with
        | some err => .returned (.error
            (.errorf ("range compact versions " ++ req.ElementKey.quote ++ ": ") err))
        | none =>
            if page.hasMore = false ∨ page.nextSeekKey = "" then
              .loadOperations metadata (versions ++ found) (failed ++ others) "" [] []
            else .loadVersions metadata page.nextSeekKey (versions ++ found) (failed ++ others)
      some (rows, next, some (.iterate req.ElementKey seek))
  | .loadOperations metadata versions failed seek operations failedOps =>
      let dir := GenElementOperationDirKey metadata.App metadata.Env metadata.Key
      let page := iterate rows dir seek (pageSizeOf req)
      let (found, others) := pageOperations page.entities
      let next := match err with
        | some err => .returned (.error
            (.errorf ("range compact operations " ++ dir.quote ++ ": ") err))
        | none =>
            if page.hasMore = false ∨ page.nextSeekKey = "" then
              startDeleting req now metadata versions failed (operations ++ found)
                (failedOps ++ others)
            else .loadOperations metadata versions failed page.nextSeekKey (operations ++ found)
              (failedOps ++ others)
      some (rows, next, some (.iterate dir seek))
  | .deleteVersions [] operations resp => some (rows, .deleteOperations operations resp, none)
  | .deleteVersions (version :: rest) operations resp =>
      match err with
      | some _ => some (rows, .deleteVersions rest operations
          { resp with FailedKeys := resp.FailedKeys ++ [version.key] }, none)
      | none => some (SortedMap.erase version.key rows, .deleteVersions rest operations
          { resp with DeletedVersions := int32 (resp.DeletedVersions + 1) },
          some (.unsetKV version.key))
  | .deleteOperations [] resp =>
      let error := if resp.FailedKeys ≠ [] then "partial cleanup failure" else ""
      some (rows, .returned (.ok { resp with Error := error }), none)
  | .deleteOperations (operation :: rest) resp =>
      match err with
      | some _ => some (rows, .deleteOperations rest
          { resp with FailedKeys := resp.FailedKeys ++ [operation.key] }, none)
      | none => some (SortedMap.erase operation.key rows, .deleteOperations rest
          { resp with DeletedOperations := int32 (resp.DeletedOperations + 1) },
          some (.unsetKV operation.key))
  | .returned _ => none

end Steps

/-! ## The compaction among the calls -/

/-- `trace` has the requests that were served, the last one first: the compaction is 0 and
call `i` is `i + 1`. -/
structure Compacting where
  rows : Rows
  calls : List (Program KVReq.Resp (Except Fault (Option Element)))
  compaction : Compaction := .loadMetadata
  clock : Int := 0
  trace : List (Nat × Request) := []

inductive Turn where
  | call (i : Nat)
  | compact (err : Option GoError)
  | tick (now : Int)

def Compacting.step (req : CompactElementHistoryReq) (now : Int) (s : Compacting) :
    Turn → Option Compacting
  | .call i =>
      match s.calls[i]? with
      | some (.call q next) =>
          some { s with
            rows := (serveRows s.clock s.rows q).1
            calls := s.calls.set i (next (serveRows s.clock s.rows q).2)
            trace := (i + 1, .kv q) :: s.trace }
      | _ => none
  | .compact err =>
      (compactElementHistory req now err s.rows s.compaction).map fun (rows, compaction, q) =>
        { s with
          rows := rows, compaction := compaction
          trace := q.toList.map (fun q => (0, q)) ++ s.trace }
  | .tick now => some { s with clock := now }

/-! ## Names and overlaps -/

/-- The versions that the metadata names. -/
def namedBy (md : ElementMetadata) : List Int :=
  [md.UsingVersion, md.UnpublishedVersion].filter (0 < ·)

def readsMetadata (n : ElementName) : Request → Bool
  | .kv (.GetKV key) => decide (key = WithMetadataSuffix n.elementKey)
  | .getKV key => decide (key = WithMetadataSuffix n.elementKey)
  | _ => false

def deletes (key : String) : Request → Bool
  | .unsetKV k => decide (k = key)
  | _ => false

/-- The metadata is written so as to name version `v`. -/
def writesName (v : Int) : Request → Bool
  | .kv (.SetKV _ (.metadata md) _) => decide (v ∈ namedBy md)
  | _ => false

/-- The versions that a write of a call is about: those that new metadata names, or the
one that is written, by their keys. -/
def concerns (n : ElementName) : KVReq → List String
  | .SetKV _ (.metadata md) _ => (namedBy md).map (versionKey n.elementKey)
  | .SetKV key (.element _) _ => [key]
  | _ => []

/-- The compaction has deleted the record under `key`. -/
def Compacting.Deleted (s : Compacting) (key : String) : Prop :=
  ∃ q ∈ s.trace, deletes key q.2 = true

/-- Since call `i` read the metadata, the compaction has not deleted `key`. -/
abbrev Compacting.Untouched (n : ElementName) (s : Compacting) (i : Nat) (key : String) : Prop :=
  Pool.Fresh (readsMetadata n) (deletes key) (i + 1) s.trace

/-- Since the compaction read the metadata, no call has written metadata that names `v`. -/
abbrev Compacting.Unnamed (n : ElementName) (s : Compacting) (v : Int) : Prop :=
  Pool.Fresh (readsMetadata n) (writesName v) 0 s.trace

/-- What the next request of call `i` is about. -/
def Compacting.atStake (n : ElementName) (s : Compacting) (i : Nat) : List String :=
  match s.calls[i]? with
  | some (.call q _) => concerns n q
  | _ => []

/-- The version that the compaction deletes next. -/
def Compaction.doomed : Compaction → List Int
  | .deleteVersions (version :: _) _ _ => [version.version]
  | _ => []

/-- A call that writes what is about some versions finds that none of them has been deleted
since it read the metadata, and the compaction deletes a version only if no metadata that
names it has been written since it read the metadata. -/
def Apart (n : ElementName) (s : Compacting) : Turn → Prop
  | .call i => ∀ key ∈ s.atStake n i, s.Untouched n i key
  | .compact _ => ∀ v ∈ s.compaction.doomed, s.Unnamed n v
  | .tick _ => True

instance (n : ElementName) (s : Compacting) : ∀ t : Turn, Decidable (Apart n s t)
  | .call i => inferInstanceAs (Decidable (∀ key ∈ s.atStake n i, s.Untouched n i key))
  | .compact _ => inferInstanceAs (Decidable (∀ v ∈ s.compaction.doomed, s.Unnamed n v))
  | .tick _ => isTrue trivial

/-- The metadata names no version that the compaction has deleted. -/
def NamesKept (n : ElementName) (s : Compacting) : Prop :=
  ∀ md, (stored n s.rows.kv).metadata = some (.metadata md) →
    ∀ v ∈ namedBy md, ¬ s.Deleted (versionKey n.elementKey v)

/-! ## Keys -/

theorem leafBelow_iff {dir key leaf : String} :
    leafBelow dir key = some leaf ↔
      key.toList = dir.toList ++ '/' :: leaf.toList ∧ leaf ≠ "" ∧ '/' ∉ leaf.toList := by
  unfold leafBelow
  have hdir : (dir ++ "/").toList = dir.toList ++ ['/'] := by simp
  rw [hdir]
  constructor
  · intro h
    split at h
    · next hprefix =>
      obtain ⟨rest, hrest⟩ := hprefix
      rw [← hrest, List.drop_left] at h
      dsimp only at h
      split at h
      · cases h
      · next hleaf =>
        obtain ⟨hne, hslash⟩ := not_or.mp hleaf
        cases h
        refine ⟨?_, hne, hslash⟩
        rw [← hrest, String.toList_ofList, List.append_assoc, List.singleton_append]
    · cases h
  · rintro ⟨hkey, hne, hslash⟩
    have hwhole : key.toList = (dir.toList ++ ['/']) ++ leaf.toList := by simp [hkey]
    rw [hwhole, if_pos (List.prefix_append _ _), List.drop_left]
    dsimp only
    rw [String.ofList_toList, if_neg (not_or.mpr ⟨hne, hslash⟩)]

theorem leafBelow_eq_some {dir key leaf : String} (h : leafBelow dir key = some leaf) :
    key = dir ++ "/" ++ leaf := by
  apply String.toList_injective
  simpa using (leafBelow_iff.mp h).1

theorem toList_versionKey (root : String) (k : Nat) :
    (versionKey root k).toList = (root ++ "/").toList ++ ('v' :: Nat.toDigits 10 k) := by
  have hrepr : (toString (k : Int)).toList = Nat.toDigits 10 k := Nat.toList_repr
  rw [versionKey, joint_pair, ← String.append_assoc, String.toList_append,
    String.toList_append (s := "v"), hrepr]
  rfl

/-- The compaction reads the number of a version off its key. -/
theorem versionFromStorageKey_versionKey {root : String} {v v' : Int} (hv : 0 < v)
    (h : versionFromStorageKey root (versionKey root v) = some v') : v' = v := by
  obtain ⟨k, rfl⟩ := Int.eq_ofNat_of_zero_le hv.le
  unfold versionFromStorageKey at h
  rw [toList_versionKey, trimPrefix_append] at h
  dsimp only at h
  have htrim : trimPrefix ('v' :: Nat.toDigits 10 k) ['v'] = Nat.toDigits 10 k :=
    trimPrefix_append ['v'] _
  rw [htrim] at h
  split at h
  · cases h
  · cases hp : Decimal.parseInt 32 (Nat.toDigits 10 k) with
    | none => rw [hp] at h; cases h
    | some u =>
      rw [hp] at h
      dsimp only at h
      split at h
      · cases h
      · cases h
        exact Decimal.parseInt_of_toDigits hp

theorem versionFromStorageKey_written (root : String) {k : Nat} (hpos : 0 < k) (hlt : k < 2 ^ 31) :
    versionFromStorageKey root (versionKey root k) = some (k : Int) := by
  have hslash : '/' ∉ 'v' :: Nat.toDigits 10 k := by
    rw [List.mem_cons, not_or]
    exact ⟨by decide, Decimal.not_mem_toDigits (by decide) k⟩
  have htrim : trimPrefix ('v' :: Nat.toDigits 10 k) ['v'] = Nat.toDigits 10 k :=
    trimPrefix_append ['v'] _
  have hfirst : ['v'] <+: 'v' :: Nat.toDigits 10 k := ⟨_, rfl⟩
  unfold versionFromStorageKey
  rw [toList_versionKey, trimPrefix_append]
  dsimp only
  rw [if_neg (by simp [hfirst, hslash]), htrim, Decimal.parseInt_toDigits, if_pos hlt]
  exact if_neg (by omega)

/-! ## The records -/

namespace Rows

theorem kv_insert (rows : Rows) (key : String) (row : Row) :
    Rows.kv (SortedMap.insert key row rows) = Function.update rows.kv key (some row.val) := by
  funext k
  unfold Rows.kv
  rw [SortedMap.lookup_insert]
  by_cases h : k = key
  · rw [if_pos h, h, Function.update_self]
    rfl
  · rw [if_neg h, Function.update_of_ne h]

theorem kv_erase (rows : Rows) (key k : String) :
    Rows.kv (SortedMap.erase key rows) k = if k = key then none else rows.kv k := by
  unfold Rows.kv
  rw [SortedMap.lookup_erase]
  split <;> rfl

end Rows

/-- The times of creation apart, a call meets the service that it meets alone. -/
theorem serveRows_kv (now : Int) (rows : Rows) (q : KVReq) :
    ((serveRows now rows q).1.kv, (serveRows now rows q).2) = serveKV rows.kv q := by
  cases q with
  | GetKV key => rfl
  | SetKV key val overwrite =>
    have hkey : rows.kv key = (SortedMap.lookup key rows).map (·.val) := rfl
    unfold serveRows serveKV
    dsimp only
    rw [hkey]
    cases hrow : SortedMap.lookup key rows with
    | none =>
      dsimp only [Option.map_none]
      rw [if_neg (by simp), Rows.kv_insert]
    | some row =>
      dsimp only [Option.map_some]
      cases overwrite with
      | true => simp [Rows.kv_insert]
      | false => simp

/-! ## The calls -/

abbrev Trace := List (Nat × Request)

/-- If call `i` has read the metadata since, `key` has never been deleted. -/
def KeptFor (n : ElementName) (trace : Trace) (i : Nat) (key : String) : Prop :=
  Pool.Fresh (readsMetadata n) (deletes key) (i + 1) trace → ∀ q ∈ trace, deletes key q.2 = false

/-- A write of a call, with the record that its target takes. -/
inductive Write.Fits : Write → Prop
  | metadata (md : ElementMetadata) (overwrite : Bool) : Fits ⟨.metadata, .metadata md, overwrite⟩
  | version {v : Int} {ele : Element} (hv : ele.Version = v) (overwrite : Bool) :
      Fits ⟨.version v, .element ele, overwrite⟩
  | operation (t : Int) (op : ElementOperation) (overwrite : Bool) :
      Fits ⟨.operation t, .operation op, overwrite⟩

def Write.request (n : ElementName) (w : Write) : KVReq := .SetKV (w.target.key n) w.val w.overwrite

/-- How far a publish or rollback call has come. -/
inductive Standing (md5 : Bytes → String) (n : ElementName) (trace : Trace) (i : Nat) :
    Program KVReq.Resp (Except Fault (Option Element)) → Prop
  | start {c : Call} (hop : (∃ version, c.op = .publish version) ∨ ∃ version, c.op = .rollback version) :
      Standing md5 n trace i (.call (.GetKV (Target.key n .metadata)) (c.withMetadata md5 n))
  | reading {c : Call} (hop : (∃ version, c.op = .publish version) ∨ ∃ version, c.op = .rollback version)
      {md : ElementMetadata} {version : Nat}
      (hkept : ∀ v ∈ namedBy md, KeptFor n trace i (versionKey n.elementKey v)) :
      Standing md5 n trace i
        (.call (.GetKV (Target.key n (.version version))) (c.withElement md5 n md version))
  | writing {res : Option Element} {ws : List Write} (hfits : ∀ w ∈ ws, w.Fits)
      (hkept : ∀ w ∈ ws, ∀ key ∈ concerns n (w.request n), KeptFor n trace i key) :
      Standing md5 n trace i (writeSeq n res ws)
  | failed (fault : Fault) : Standing md5 n trace i (.done (.error fault))

section Calls

variable {md5 : Bytes → String} {n : ElementName} {trace : Trace} {i a : Nat} {key : String}
  {q : Request} {t : Program KVReq.Resp (Except Fault (Option Element))}

theorem KeptFor.cons (h : KeptFor n trace i key) (hq : a = i + 1 → readsMetadata n q = false) :
    KeptFor n ((a, q) :: trace) i key := by
  rintro ⟨hdel, hread⟩ e he
  rcases hread with ⟨ha, hq'⟩ | hfresh
  · rw [hq ha] at hq'
    cases hq'
  · rcases List.mem_cons.mp he with rfl | he
    · exact hdel
    · exact h hfresh e he

theorem KeptFor.of_kept (h : ∀ e ∈ trace, deletes key e.2 = false) (hq : deletes key q = false) :
    KeptFor n ((a, q) :: trace) i key := by
  intro _ e he
  rcases List.mem_cons.mp he with rfl | he
  · exact hq
  · exact h e he

theorem Standing.cons (h : Standing md5 n trace i t) (hq : a = i + 1 → readsMetadata n q = false) :
    Standing md5 n ((a, q) :: trace) i t := by
  rcases h with hop | ⟨hop, hkept⟩ | ⟨hfits, hkept⟩ | fault
  · exact .start hop
  · exact .reading hop fun v hv => (hkept v hv).cons hq
  · exact .writing hfits fun w hw key hkey => (hkept w hw key hkey).cons hq
  · exact .failed fault

theorem Standing.ended (res : Option Element) : Standing md5 n trace i (writeSeq n res []) :=
  .writing (fun _ hw => absurd hw List.not_mem_nil) fun _ hw => absurd hw List.not_mem_nil

/-- A call that has read the metadata. -/
theorem standing_withMetadata {c : Call}
    (hop : (∃ version, c.op = .publish version) ∨ ∃ version, c.op = .rollback version)
    (val : Option Record) (hval : ∀ md, val = some (.metadata md) →
      ∀ v ∈ namedBy md, KeptFor n trace i (versionKey n.elementKey v)) :
    Standing md5 n trace i (c.withMetadata md5 n (Content.answer val)) := by
  match val with
  | none => exact .failed _
  | some (.element ele) => exact .failed _
  | some (.operation op) => exact .failed _
  | some (.metadata md) =>
    have hkept := hval md rfl
    rw [Content.answer_some, Call.withMetadata]
    have hop' := hop
    rcases hop with ⟨version, hversion⟩ | ⟨version, hversion⟩
    · by_cases hzero : publishedVersion md version = 0
      · have hafter : c.afterMetadata n md = .plan (.ok ([], none)) := by
          simp only [Call.afterMetadata, hversion, if_pos hzero]
        rw [hafter]
        exact .ended none
      · have hafter : c.afterMetadata n md = .read (publishedVersion md version) := by
          simp only [Call.afterMetadata, hversion, if_neg hzero]
        rw [hafter]
        exact .reading hop' hkept
    · by_cases hzero : version.toNat = 0
      · have hafter : c.afterMetadata n md = .plan (.error (.error (.errorf
            "version could not be 0: " (.concept Err_INVALID_ARGUMENT)))) := by
          simp only [Call.afterMetadata, hversion, if_pos hzero]
        rw [hafter]
        exact .failed _
      · have hafter : c.afterMetadata n md = .read version.toNat := by
          simp only [Call.afterMetadata, hversion, if_neg hzero]
        rw [hafter]
        exact .reading hop' hkept

theorem concerns_metadata (md : ElementMetadata) (overwrite : Bool) :
    concerns n (Write.request n ⟨.metadata, .metadata md, overwrite⟩) =
      (namedBy md).map (versionKey n.elementKey) := rfl

theorem concerns_version (v : Int) (ele : Element) (overwrite : Bool) :
    concerns n (Write.request n ⟨.version v, .element ele, overwrite⟩) =
      [versionKey n.elementKey v] := rfl

theorem concerns_operation (t : Int) (op : ElementOperation) (overwrite : Bool) :
    concerns n (Write.request n ⟨.operation t, .operation op, overwrite⟩) = [] := rfl

/-- A call that has read the version it is to use, which is stored. -/
theorem standing_withElement {c : Call}
    (hop : (∃ version, c.op = .publish version) ∨ ∃ version, c.op = .rollback version)
    {md : ElementMetadata} {version : Nat}
    (hkept : ∀ v ∈ namedBy md, KeptFor n trace i (versionKey n.elementKey v))
    (val : Option Record) (hval : ∀ ele, val = some (.element ele) → ele.Version = version ∧
      KeptFor n trace i (versionKey n.elementKey version)) :
    Standing md5 n trace i (c.withElement md5 n md version (Content.answer val)) := by
  match val with
  | none => exact .failed _
  | some (.metadata md) => exact .failed _
  | some (.operation op) => exact .failed _
  | some (.element ele) =>
    obtain ⟨hversion, hthis⟩ := hval ele rfl
    obtain ⟨op, ctx⟩ := c
    rw [Content.answer_some, Call.withElement]
    rcases hop with ⟨v, hv⟩ | ⟨v, hv⟩
    · cases hv
      show Standing md5 n trace i (writeSeq n _ _)
      refine .writing (fun w hw => ?_) fun w hw key hkey => ?_
      · simp only [List.mem_cons, List.not_mem_nil, or_false] at hw
        rcases hw with rfl | rfl | rfl
        · exact .metadata _ _
        · refine .version ?_ _
          exact hversion
        · exact .operation _ _ _
      · simp only [List.mem_cons, List.not_mem_nil, or_false] at hw
        rcases hw with rfl | rfl | rfl
        · rw [concerns_metadata] at hkey
          obtain ⟨u, hu, rfl⟩ := List.mem_map.mp hkey
          have hu' : u = version := by
            simp [namedBy, published, hversion] at hu
            omega
          rw [hu']
          exact hthis
        · rw [concerns_version, List.mem_singleton] at hkey
          rw [hkey]
          exact hthis
        · rw [operationWrite, concerns_operation] at hkey
          cases hkey
    · cases hv
      rw [Call.afterElement, rollbackPlan]
      by_cases hle : md.UsingVersion ≤ int32 version
      · rw [if_pos hle]
        exact .failed _
      · rw [if_neg hle]
        refine .writing (fun w hw => ?_) fun w hw key hkey => ?_
        · simp only [List.mem_cons, List.not_mem_nil, or_false] at hw
          rcases hw with rfl | rfl
          · exact .metadata _ _
          · exact .operation _ _ _
        · simp only [List.mem_cons, List.not_mem_nil, or_false] at hw
          rcases hw with rfl | rfl
          · rw [concerns_metadata] at hkey
            obtain ⟨u, hu, rfl⟩ := List.mem_map.mp hkey
            have hu' : u = version ∨ u ∈ namedBy md := by
              simp only [namedBy, rolledBack, hversion, List.mem_filter, List.mem_cons,
                List.not_mem_nil, or_false, decide_eq_true_eq] at hu ⊢
              omega
            rcases hu' with rfl | hu'
            · exact hthis
            · exact hkept u hu'
          · rw [operationWrite, concerns_operation] at hkey
            cases hkey

end Calls

/-! ## The compaction -/

/-- No metadata that names `v` has been written since, or what names it now named it when
the compaction read the metadata. -/
def Spared (n : ElementName) (trace : Trace) (k : Content) (md : ElementMetadata) : Prop :=
  ∀ v, Pool.Fresh (readsMetadata n) (writesName v) 0 trace →
    ∀ md', k.metadata = some (.metadata md') → v ∈ namedBy md' → v ∈ namedBy md

/-- The keys of the operations lie below those of some element. -/
def OperationKeys (operations : List CompactOperation) : Prop :=
  ∀ operation ∈ operations, ∃ app env key suffix,
    operation.key = GenElementOperationDirKey app env key ++ "/" ++ suffix

def VersionKeys (root : String) (versions : List CompactVersion) : Prop :=
  ∀ version ∈ versions, versionFromStorageKey root version.key = some version.version

/-- What the compaction relies on where it stands. -/
def Sparing (n : ElementName) (trace : Trace) (k : Content) : Compaction → Prop
  | .loadMetadata => True
  | .loadVersions md _ versions _ => Spared n trace k md ∧ VersionKeys n.elementKey versions
  | .loadOperations md versions _ _ operations _ =>
      Spared n trace k md ∧ VersionKeys n.elementKey versions ∧ OperationKeys operations
  | .deleteVersions rest operations _ =>
      (∀ version ∈ rest, versionFromStorageKey n.elementKey version.key = some version.version ∧
        (Pool.Fresh (readsMetadata n) (writesName version.version) 0 trace →
          ∀ md, k.metadata = some (.metadata md) → version.version ∉ namedBy md)) ∧
      OperationKeys operations
  | .deleteOperations rest _ => OperationKeys rest
  | .returned _ => True

section Compaction

variable {n : ElementName} {trace : Trace} {k k' : Content}

/-- A request that does not write metadata, or one whose metadata is now stored. -/
theorem Sparing.step {compaction : Compaction} (h : Sparing n trace k compaction)
    {a : Nat} {q : Request} (ha : a = 0 → readsMetadata n q = false)
    (hq : k'.metadata = k.metadata ∨ ∀ v md, k'.metadata = some (.metadata md) →
      v ∈ namedBy md → writesName v q = true) :
    Sparing n ((a, q) :: trace) k' compaction := by
  have hnamed : ∀ v md, Pool.Fresh (readsMetadata n) (writesName v) 0 ((a, q) :: trace) →
      k'.metadata = some (.metadata md) → v ∈ namedBy md →
      Pool.Fresh (readsMetadata n) (writesName v) 0 trace ∧ k.metadata = some (.metadata md) := by
    rintro v md ⟨hwrite, hread⟩ hmd hv
    rcases hq with hsame | hnew
    · refine ⟨hread.resolve_left fun hr => ?_, hsame ▸ hmd⟩
      rw [ha hr.1] at hr
      cases hr.2
    · rw [hnew v md hmd hv] at hwrite
      cases hwrite
  have hspared : ∀ md, Spared n trace k md → Spared n ((a, q) :: trace) k' md := by
    intro md hmd v hfresh md' hmd' hv
    obtain ⟨hfresh', hmd''⟩ := hnamed v md' hfresh hmd' hv
    exact hmd v hfresh' md' hmd'' hv
  match compaction, h with
  | .loadMetadata, _ => trivial
  | .loadVersions md _ versions _, h => exact ⟨hspared md h.1, h.2⟩
  | .loadOperations md versions _ _ operations _, h => exact ⟨hspared md h.1, h.2⟩
  | .deleteVersions rest operations _, h =>
    refine ⟨fun version hversion => ⟨(h.1 version hversion).1, fun hfresh md hmd hv => ?_⟩, h.2⟩
    obtain ⟨hfresh', hmd'⟩ := hnamed _ md hfresh hmd hv
    exact (h.1 version hversion).2 hfresh' md hmd' hv
  | .deleteOperations rest _, h => exact h
  | .returned _, _ => trivial

theorem namedBy_subset_retained (md : ElementMetadata) (versions : List CompactVersion)
    (keepCount keepCreatedAfter : Int) {v : Int} (hv : v ∈ namedBy md) :
    v ∈ retainedVersionSet md versions keepCount keepCreatedAfter :=
  List.mem_append_left _ hv

/-- What the compaction starts to delete it may delete. -/
theorem sparing_startDeleting (req : CompactElementHistoryReq) (now : Int) {md : ElementMetadata}
    {versions : List CompactVersion} {operations : List CompactOperation}
    (hmd : Spared n trace k md) (hversions : VersionKeys n.elementKey versions)
    (hoperations : OperationKeys operations) (failed failedOps : List String) :
    Sparing n trace k (startDeleting req now md versions failed operations failedOps) := by
  refine ⟨fun version hversion => ?_, fun operation hoperation => ?_⟩
  · obtain ⟨hmem, hkeep⟩ := List.mem_filter.mp hversion
    refine ⟨hversions version hmem, fun hfresh md' hmd' hv => ?_⟩
    have hretained := namedBy_subset_retained md versions req.KeepVersionCount
      (safeRetentionCutoff (now / 10 ^ 9) req.KeepVersionSeconds 1)
      (hmd _ hfresh md' hmd' hv)
    exact absurd hretained (of_decide_eq_true hkeep)
  · exact hoperations operation (List.mem_filter.mp hoperation).1

theorem versionKeys_append {versions : List CompactVersion} (h : VersionKeys n.elementKey versions)
    (entities : List (String × Row)) :
    VersionKeys n.elementKey (versions ++ (pageVersions n.elementKey entities).1) := by
  intro version hversion
  rcases List.mem_append.mp hversion with hversion | hversion
  · exact h version hversion
  · obtain ⟨e, -, he⟩ := List.mem_filterMap.mp hversion
    obtain ⟨v, hv, rfl⟩ := Option.map_eq_some_iff.mp he
    exact hv

theorem operationKeys_append {operations : List CompactOperation} (h : OperationKeys operations)
    (rows : Rows) (app env key seek : String) (limit : Nat) :
    OperationKeys (operations ++ (pageOperations
      (iterate rows (GenElementOperationDirKey app env key) seek limit).entities).1) := by
  intro operation hoperation
  rcases List.mem_append.mp hoperation with hoperation | hoperation
  · exact h operation hoperation
  · obtain ⟨e, hmem, he⟩ := List.mem_filterMap.mp hoperation
    have hbelow := (List.mem_filter.mp (List.mem_of_mem_take hmem)).2
    have hkey : operation.key = e.1 := by
      split at he
      · cases he
        rfl
      · cases he
    cases hleaf : leafBelow (GenElementOperationDirKey app env key) e.1 with
    | none => rw [hleaf] at hbelow; cases hbelow
    | some leaf => exact ⟨app, env, key, leaf, hkey.trans (leafBelow_eq_some hleaf)⟩

end Compaction

/-! ## What every step keeps -/

/-- Versions are stored under their own numbers, what was deleted is gone, and nobody who
has read of it is to bring it back. -/
structure Kept (md5 : Bytes → String) (n : ElementName) (s : Compacting) : Prop where
  own : ∀ v ele, (stored n s.rows.kv).versions v = some (.element ele) → ele.Version = v
  gone : ∀ v, s.Deleted (versionKey n.elementKey v) → (stored n s.rows.kv).versions v = none
  names : NamesKept n s
  calls : ∀ (i : Nat) (t : Program KVReq.Resp (Except Fault (Option Element))),
    s.calls[i]? = some t → Standing md5 n s.trace i t
  compaction : Sparing n s.trace (stored n s.rows.kv) s.compaction

section Steps

variable {md5 : Bytes → String} {n : ElementName} {s s' : Compacting}
  {req : CompactElementHistoryReq} {now : Int}

theorem not_deleted {key : String} (h : ¬ s.Deleted key) : ∀ q ∈ s.trace, deletes key q.2 = false :=
  fun q hq => by
    cases hdel : deletes key q.2
    · rfl
    · exact absurd ⟨q, hq, hdel⟩ h

theorem deleted_cons {rows : Rows} {compaction : Compaction} {a : Nat} {q : Request}
    {calls : List (Program KVReq.Resp (Except Fault (Option Element)))} {clock : Int}
    {key : String} (hq : deletes key q = false) :
    Compacting.Deleted ⟨rows, calls, compaction, clock, (a, q) :: s.trace⟩ key ↔ s.Deleted key := by
  constructor
  · rintro ⟨e, he, hdel⟩
    rcases List.mem_cons.mp he with rfl | he
    · rw [hq] at hdel
      cases hdel
    · exact ⟨e, he, hdel⟩
  · rintro ⟨e, he, hdel⟩
    exact ⟨e, List.mem_cons_of_mem _ he, hdel⟩

theorem calls_set {trace : Trace} {i : Nat} {q : Request}
    {calls : List (Program KVReq.Resp (Except Fault (Option Element)))}
    {next : Program KVReq.Resp (Except Fault (Option Element))}
    (h : ∀ j t, calls[j]? = some t → Standing md5 n trace j t)
    (hnext : Standing md5 n ((i + 1, q) :: trace) i next) (j : Nat)
    (t : Program KVReq.Resp (Except Fault (Option Element)))
    (ht : (calls.set i next)[j]? = some t) : Standing md5 n ((i + 1, q) :: trace) j t := by
  by_cases hij : i = j
  · subst hij
    obtain ⟨hlt, -⟩ := List.getElem?_eq_some_iff.mp ht
    rw [List.length_set] at hlt
    rw [List.getElem?_set_self hlt] at ht
    cases ht
    exact hnext
  · rw [List.getElem?_set_ne hij] at ht
    exact (h j t ht).cons fun hji => absurd (by omega) hij

theorem stored_write (now : Int) (rows : Rows) (w : Write) :
    stored n (serveRows now rows (w.request n)).1.kv = stored n rows.kv ∨
      stored n (serveRows now rows (w.request n)).1.kv = (stored n rows.kv).put w := by
  have hserve := congrArg Prod.fst (serveRows_kv now rows (w.request n))
  dsimp only at hserve
  rw [hserve, Write.request, serveKV_set]
  split
  · exact .inr (stored_update rows.kv w)
  · exact .inl rfl

/-- After a read the store is what it was. -/
theorem Kept.read (h : Kept md5 n s) {i : Nat} {key : String}
    {next : Program KVReq.Resp (Except Fault (Option Element))}
    (hnext : Standing md5 n ((i + 1, .kv (.GetKV key)) :: s.trace) i next) :
    Kept md5 n ⟨s.rows, s.calls.set i next, s.compaction, s.clock,
      (i + 1, .kv (.GetKV key)) :: s.trace⟩ where
  own := h.own
  gone v hv := h.gone v ((deleted_cons rfl).mp hv)
  names md hmd v hv hdel := h.names md hmd v hv ((deleted_cons rfl).mp hdel)
  calls := calls_set h.calls hnext
  compaction := h.compaction.step (fun ha => absurd ha (by omega)) (.inl rfl)

/-- A call writes: what it is about has not been deleted. -/
theorem Kept.write (h : Kept md5 n s) {i : Nat} {w : Write} (hfits : w.Fits)
    (hfree : ∀ key ∈ concerns n (w.request n), ¬ s.Deleted key)
    {next : Program KVReq.Resp (Except Fault (Option Element))}
    (hnext : Standing md5 n ((i + 1, .kv (w.request n)) :: s.trace) i next) :
    Kept md5 n ⟨(serveRows s.clock s.rows (w.request n)).1, s.calls.set i next, s.compaction,
      s.clock, (i + 1, .kv (w.request n)) :: s.trace⟩ := by
  have hcalls := calls_set h.calls hnext
  have hdel : ∀ key, deletes key (.kv (w.request n)) = false := fun _ => rfl
  have hsame : stored n (serveRows s.clock s.rows (w.request n)).1.kv = stored n s.rows.kv →
      Kept md5 n ⟨(serveRows s.clock s.rows (w.request n)).1, s.calls.set i next, s.compaction,
        s.clock, (i + 1, .kv (w.request n)) :: s.trace⟩ := fun heq =>
    { own := fun v ele hele => h.own v ele (heq ▸ hele)
      gone := fun v hv => by
        show (stored n (serveRows s.clock s.rows (w.request n)).1.kv).versions v = none
        rw [heq]
        exact h.gone v ((deleted_cons (hdel _)).mp hv)
      names := fun md hmd v hv hd =>
        h.names md (heq ▸ hmd) v hv ((deleted_cons (hdel _)).mp hd)
      calls := hcalls
      compaction := h.compaction.step (fun ha => absurd ha (by omega))
        (.inl (congrArg Content.metadata heq)) }
  rcases stored_write s.clock s.rows w with heq | heq
  · exact hsame heq
  · rcases hfits with ⟨md, overwrite⟩ | ⟨hv, overwrite⟩ | ⟨t, op, overwrite⟩
    · refine ⟨fun v ele hele => ?_, fun v hv => ?_, fun md' hmd' v hv hd => ?_, hcalls,
        h.compaction.step (fun ha => absurd ha (by omega)) (.inr fun v md' hmd' hv => ?_)⟩
      · rw [heq] at hele
        exact h.own v ele hele
      · show (stored n (serveRows _ _ _).1.kv).versions v = none
        rw [heq]
        exact h.gone v ((deleted_cons rfl).mp hv)
      · rw [heq] at hmd'
        cases hmd'
        exact hfree _ (List.mem_map_of_mem hv) ((deleted_cons rfl).mp hd)
      · rw [heq] at hmd'
        cases hmd'
        exact decide_eq_true hv
    · rename_i v ele
      refine ⟨fun u e he => ?_, fun u hu => ?_, fun md hmd u hu hd => ?_, hcalls,
        h.compaction.step (fun ha => absurd ha (by omega)) (.inl ?_)⟩
      · rw [heq] at he
        by_cases huv : u = v
        · rw [huv] at he ⊢
          have hput : ((stored n s.rows.kv).put ⟨.version v, .element ele, overwrite⟩).versions v =
              some (.element ele) := Function.update_self ..
          cases hput.symm.trans he
          exact hv
        · exact h.own u e ((Function.update_of_ne huv ..).symm.trans he)
      · show (stored n (serveRows _ _ _).1.kv).versions u = none
        have hdeleted := (deleted_cons rfl).mp hu
        have huv : u ≠ v := by
          rintro rfl
          exact hfree _ (List.mem_singleton_self _) hdeleted
        rw [heq]
        exact (Function.update_of_ne huv ..).trans (h.gone u hdeleted)
      · rw [heq] at hmd
        exact h.names md hmd u hu ((deleted_cons rfl).mp hd)
      · rw [heq]
        rfl
    · exact hsame heq

theorem atStake_of_call {i : Nat} {q : KVReq}
    {next : q.Resp → Program KVReq.Resp (Except Fault (Option Element))}
    (h : s.calls[i]? = some (.call q next)) : s.atStake n i = concerns n q := by
  rw [Compacting.atStake, h]

theorem kept_call (h : Kept md5 n s) {i : Nat} (hapart : Apart n s (.call i))
    (hstep : s.step req now (.call i) = some s') : Kept md5 n s' := by
  unfold Compacting.step at hstep
  dsimp only at hstep
  cases hget : s.calls[i]? with
  | none => rw [hget] at hstep; cases hstep
  | some t =>
    rw [hget] at hstep
    have hstanding := h.calls i t hget
    rcases hstanding with ⟨hop⟩ | ⟨hop, hkept⟩ | @⟨res, ws, hfits, hkept⟩ | fault
    · cases hstep
      refine h.read (standing_withMetadata hop _ fun md hmd v hv => ?_)
      exact .of_kept (not_deleted (h.names md hmd v hv)) rfl
    · cases hstep
      rename_i c md version
      have hread : readsMetadata n (.kv (.GetKV (Target.key n (.version version)))) = false :=
        decide_eq_false (metadata_ne_version _ _).symm
      refine h.read (standing_withElement hop (fun v hv => (hkept v hv).cons fun _ => hread) _
        fun ele hele => ⟨h.own version ele hele, .of_kept (not_deleted fun hdel => ?_) rfl⟩)
      cases (h.gone version hdel).symm.trans hele
    · rcases ws with - | ⟨w, ws⟩
      · cases hstep
      · cases hstep
        have hw := hfits w List.mem_cons_self
        have hfree : ∀ key ∈ concerns n (w.request n), ¬ s.Deleted key := by
          rintro key hkey ⟨q, hq, hdel⟩
          have hstake : s.atStake n i = concerns n (w.request n) := atStake_of_call hget
          have hfresh : s.Untouched n i key := hapart key (by rw [hstake]; exact hkey)
          rw [hkept w List.mem_cons_self key hkey hfresh q hq] at hdel
          cases hdel
        refine h.write hw hfree ?_
        match (serveRows s.clock s.rows (w.request n)).2 with
        | .error err => exact .failed _
        | .ok () =>
          refine Standing.cons ?_ fun _ => rfl
          exact .writing (fun w hw => hfits w (List.mem_cons_of_mem _ hw)) fun w hw =>
            hkept w (List.mem_cons_of_mem _ hw)
    · cases hstep

/-- A request of the compaction that changes nothing. -/
theorem Kept.scan (h : Kept md5 n s) {q : Request} (hdel : ∀ key, deletes key q = false)
    {compaction : Compaction}
    (hnext : Sparing n ((0, q) :: s.trace) (stored n s.rows.kv) compaction) :
    Kept md5 n ⟨s.rows, s.calls, compaction, s.clock, (0, q) :: s.trace⟩ where
  own := h.own
  gone v hv := h.gone v ((deleted_cons (hdel _)).mp hv)
  names md hmd v hv hd := h.names md hmd v hv ((deleted_cons (hdel _)).mp hd)
  calls i t ht := (h.calls i t ht).cons fun ha => absurd ha (by omega)
  compaction := hnext

theorem Kept.move (h : Kept md5 n s) {compaction : Compaction}
    (hnext : Sparing n s.trace (stored n s.rows.kv) compaction) :
    Kept md5 n ⟨s.rows, s.calls, compaction, s.clock, s.trace⟩ :=
  ⟨h.own, h.gone, h.names, h.calls, hnext⟩

/-- The compaction deletes a record that the metadata does not name. -/
theorem Kept.delete (h : Kept md5 n s) {key : String}
    (hkey : ∀ md, (stored n s.rows.kv).metadata = some (.metadata md) →
      ∀ v ∈ namedBy md, versionKey n.elementKey v ≠ key)
    {compaction : Compaction} (hnext : Sparing n s.trace (stored n s.rows.kv) compaction) :
    Kept md5 n ⟨SortedMap.erase key s.rows, s.calls, compaction, s.clock,
      (0, .unsetKV key) :: s.trace⟩ := by
  have hversions : ∀ v, (stored n (Rows.kv (SortedMap.erase key s.rows))).versions v =
      if versionKey n.elementKey v = key then none else (stored n s.rows.kv).versions v :=
    fun v => Rows.kv_erase s.rows key _
  have hmetadata : (stored n (Rows.kv (SortedMap.erase key s.rows))).metadata =
      if WithMetadataSuffix n.elementKey = key then none else (stored n s.rows.kv).metadata :=
    Rows.kv_erase s.rows key _
  have hdeleted : ∀ k, Compacting.Deleted ⟨SortedMap.erase key s.rows, s.calls, compaction,
      s.clock, (0, .unsetKV key) :: s.trace⟩ k → k = key ∨ s.Deleted k := by
    rintro k ⟨e, he, hdel⟩
    rcases List.mem_cons.mp he with rfl | he
    · exact .inl (of_decide_eq_true hdel).symm
    · exact .inr ⟨e, he, hdel⟩
  refine ⟨fun v ele hele => ?_, fun v hv => ?_, fun md hmd v hv hd => ?_, fun i t ht => ?_,
    hnext.step (fun _ => rfl) ?_⟩
  · rw [hversions] at hele
    split at hele
    · cases hele
    · exact h.own v ele hele
  · show (stored n (Rows.kv (SortedMap.erase key s.rows))).versions v = none
    rw [hversions]
    split
    · rfl
    · next hne => exact h.gone v ((hdeleted _ hv).resolve_left hne)
  · rw [hmetadata] at hmd
    split at hmd
    · cases hmd
    · exact h.names md hmd v hv ((hdeleted _ hd).resolve_left (hkey md hmd v hv))
  · exact (h.calls i t ht).cons fun ha => absurd ha (by omega)
  · by_cases hself : WithMetadataSuffix n.elementKey = key
    · refine .inr fun v md hmd _ => ?_
      rw [hmetadata, if_pos hself] at hmd
      cases hmd
    · exact .inl (hmetadata.trans (if_neg hself))

theorem kept_compact (hreq : req.ElementKey = n.elementKey) (h : Kept md5 n s)
    {err : Option GoError} (hapart : Apart n s (.compact err))
    (hstep : s.step req now (.compact err) = some s') : Kept md5 n s' := by
  obtain ⟨⟨rows, next, q⟩, hnext, rfl⟩ := Option.map_eq_some_iff.mp hstep
  have hsparing := h.compaction
  cases hc : s.compaction with
  | loadMetadata =>
    rw [hc, compactElementHistory] at hnext
    split at hnext
    · cases hnext
      exact h.move trivial
    · cases hnext
      refine h.scan (fun _ => rfl) ?_
      rw [hreq]
      cases err with
      | some err => trivial
      | none =>
        cases hmd : s.rows.kv (WithMetadataSuffix n.elementKey) with
        | none => trivial
        | some val =>
          match val with
          | .element ele => trivial
          | .operation op => trivial
          | .metadata md =>
            refine ⟨fun v _ md' hmd' hv => ?_, fun version hversion => ?_⟩
            · cases hmd.symm.trans hmd'
              exact hv
            · cases hversion
  | loadVersions md seek versions failed =>
    rw [hc] at hnext hsparing
    cases hnext
    refine h.scan (fun _ => rfl) (Sparing.step ?_ (fun _ => rfl) (.inl rfl))
    cases err with
    | some err => trivial
    | none =>
      have hversions := versionKeys_append hsparing.2
        (iterate s.rows n.elementKey seek (pageSizeOf req)).entities
      rw [hreq]
      dsimp only
      split
      · exact ⟨hsparing.1, hversions, fun operation hoperation => absurd hoperation List.not_mem_nil⟩
      · exact ⟨hsparing.1, hversions⟩
  | loadOperations md versions failed seek operations failedOps =>
    rw [hc] at hnext hsparing
    cases hnext
    refine h.scan (fun _ => rfl) (Sparing.step ?_ (fun _ => rfl) (.inl rfl))
    cases err with
    | some err => trivial
    | none =>
      have hoperations := operationKeys_append hsparing.2.2 s.rows md.App md.Env md.Key seek
        (pageSizeOf req)
      dsimp only
      split
      · exact sparing_startDeleting req now hsparing.1 hsparing.2.1 hoperations _ _
      · exact ⟨hsparing.1, hsparing.2.1, hoperations⟩
  | deleteVersions rest operations resp =>
    rw [hc] at hnext hsparing
    match rest, err with
    | [], _ =>
      cases hnext
      exact h.move hsparing.2
    | version :: rest, some err =>
      cases hnext
      exact h.move ⟨fun v hv => hsparing.1 v (List.mem_cons_of_mem _ hv), hsparing.2⟩
    | version :: rest, none =>
      cases hnext
      obtain ⟨hnumber, hspare⟩ := hsparing.1 version List.mem_cons_self
      have hfresh : s.Unnamed n version.version := hapart _ (by rw [hc]; exact List.mem_cons_self)
      refine h.delete (fun md hmd v hv hkey => ?_)
        ⟨fun v hv => hsparing.1 v (List.mem_cons_of_mem _ hv), hsparing.2⟩
      have hpos : 0 < v := of_decide_eq_true (List.mem_filter.mp hv).2
      rw [← hkey] at hnumber
      have hsame := versionFromStorageKey_versionKey hpos hnumber
      exact hspare hfresh md hmd (hsame ▸ hv)
  | deleteOperations rest resp =>
    rw [hc] at hnext hsparing
    match rest, err with
    | [], _ =>
      cases hnext
      exact h.move trivial
    | operation :: rest, some err =>
      cases hnext
      exact h.move fun o ho => hsparing o (List.mem_cons_of_mem _ ho)
    | operation :: rest, none =>
      cases hnext
      obtain ⟨app, env, key, suffix, hbelow⟩ := hsparing operation List.mem_cons_self
      refine h.delete (fun md hmd v hv hkey => ?_) fun o ho => hsparing o (List.mem_cons_of_mem _ ho)
      refine operationDir_ne_element app env key ("/" ++ suffix) n.app n.env n.key
        ("/" ++ ("v" ++ toString v)) ?_
      rw [← String.append_assoc, ← hbelow, ← hkey]
      exact joint_pair _ _
  | returned r =>
    rw [hc] at hnext
    cases hnext

theorem kept_step (hreq : req.ElementKey = n.elementKey) (h : Kept md5 n s) {turn : Turn}
    (hapart : Apart n s turn) (hstep : s.step req now turn = some s') : Kept md5 n s' := by
  cases turn with
  | call i => exact kept_call h hapart hstep
  | compact err => exact kept_compact hreq h hapart hstep
  | tick clock =>
    cases hstep
    exact ⟨h.own, h.gone, h.names, h.calls, h.compaction⟩

end Steps

/-! ## Runs -/

/-- A compaction and some calls before any of them has made a request. -/
def compacting (md5 : Bytes → String) (n : ElementName) (rows : Rows) (calls : List Call) :
    Compacting :=
  { rows := rows, calls := calls.map fun c => c.program md5 n.app n.env n.key }

theorem kept_compacting {md5 : Bytes → String} {n : ElementName} {rows : Rows} {calls : List Call}
    (hown : ∀ v ele, (stored n rows.kv).versions v = some (.element ele) → ele.Version = v)
    (hcalls : ∀ c ∈ calls, (∃ version, c.op = .publish version) ∨ ∃ version, c.op = .rollback version) :
    Kept md5 n (compacting md5 n rows calls) where
  own := hown
  gone _ h := by
    obtain ⟨q, hq, -⟩ := h
    cases hq
  names _ _ _ _ h := by
    obtain ⟨q, hq, -⟩ := h
    cases hq
  calls i t ht := by
    obtain ⟨c, hc, rfl⟩ := List.mem_map.mp (List.mem_of_getElem? ht)
    have hop := hcalls c hc
    obtain ⟨op, ctx⟩ := c
    rcases hop with ⟨version, hv⟩ | ⟨version, hv⟩
    · cases hv
      rw [publish_program]
      exact .start (.inl ⟨version, rfl⟩)
    · cases hv
      rw [rollback_program]
      exact .start (.inr ⟨version, rfl⟩)
  compaction := trivial

/-- In a run in which the compaction and the calls stay apart on every version, the metadata
never names a version that the compaction has deleted. -/
theorem namesKept_of_apart (md5 : Bytes → String) (n : ElementName)
    (req : CompactElementHistoryReq) (hreq : req.ElementKey = n.elementKey) (now : Int)
    (rows : Rows)
    (hown : ∀ v ele, (stored n rows.kv).versions v = some (.element ele) → ele.Version = v)
    (calls : List Call)
    (hcalls : ∀ c ∈ calls, (∃ version, c.op = .publish version) ∨ ∃ version, c.op = .rollback version)
    (turns : List Turn)
    (h : Transition.EachStep (Compacting.step req now) (fun s turn _ => Apart n s turn)
      (compacting md5 n rows calls) turns) :
    Transition.EachState (Compacting.step req now) (NamesKept n)
      (compacting md5 n rows calls) turns := by
  have hkept : Transition.EachState (Compacting.step req now) (Kept md5 n)
      (compacting md5 n rows calls) turns := by
    refine Transition.eachState_of_eachStep (Kept md5 n) (fun s turn s' hk hapart hstep => ?_)
      (kept_compacting hown hcalls) h
    exact kept_step hreq hk hapart hstep
  exact hkept.mono fun _ hk => hk.names

/-- Version 2 is in use, version 1 is old. -/
def oldVersionRows : Rows :=
  [("cassem/elements/a/e/k/metadata", ⟨.metadata ⟨"k", "a", "e", 2, 0, 2, "", 1⟩, 0⟩),
    ("cassem/elements/a/e/k/v1", ⟨.element { Raw := [1], Version := 1, Published := true }, 0⟩),
    ("cassem/elements/a/e/k/v2", ⟨.element { Raw := [2], Version := 2, Published := true }, 0⟩)]

def keepNewest : CompactElementHistoryReq := ⟨"cassem/elements/a/e/k", 1, 0, 0, 100⟩

/-- The rollback to version 1 has read it when the compaction deletes it. -/
def rollbackTurns : List Turn :=
  [.compact none, .compact none, .compact none, .call 0, .call 0, .compact none, .call 0]

/-- The rollback comes after the compaction. -/
def lateTurns : List Turn :=
  [.compact none, .compact none, .compact none, .compact none, .compact none, .call 0, .call 0]

theorem oldVersionRows_own (v : Int) (ele : Element)
    (h : (stored ⟨"a", "e", "k", by decide⟩ oldVersionRows.kv).versions v = some (.element ele)) :
    ele.Version = v := by
  have hkey : ∀ k : String, oldVersionRows.kv k = if k = "cassem/elements/a/e/k/metadata" then
      some (.metadata ⟨"k", "a", "e", 2, 0, 2, "", 1⟩) else if k = "cassem/elements/a/e/k/v1" then
      some (.element { Raw := [1], Version := 1, Published := true }) else if
      k = "cassem/elements/a/e/k/v2" then
      some (.element { Raw := [2], Version := 2, Published := true }) else none := by
    intro k
    simp only [Rows.kv, oldVersionRows, SortedMap.lookup]
    split
    · rfl
    · split
      · rfl
      · split <;> rfl
  have hv := (hkey (versionKey "cassem/elements/a/e/k" v)).symm.trans h
  split at hv
  · cases hv
  · split at hv
    · next h1 =>
      cases hv
      exact versionKey_inj.mp (show versionKey "cassem/elements/a/e/k" 1 = _ from h1.symm)
    · split at hv
      · next h2 =>
        cases hv
        exact versionKey_inj.mp (show versionKey "cassem/elements/a/e/k" 2 = _ from h2.symm)
      · cases hv

theorem lateTurns_namesKept :
    Transition.EachState (Compacting.step keepNewest (10 ^ 18)) (NamesKept ⟨"a", "e", "k", by decide⟩)
      (compacting (fun _ => "") ⟨"a", "e", "k", by decide⟩ oldVersionRows [⟨.rollback 1, none, 3⟩])
      lateTurns :=
  namesKept_of_apart _ _ _ (by decide) _ _ oldVersionRows_own _ (by
    intro c hc
    rw [List.mem_singleton.mp hc]
    exact .inr ⟨1, rfl⟩) _ (by decide +kernel)

theorem rollback_names_deleted :
    ¬ Transition.EachState (Compacting.step keepNewest (10 ^ 18))
      (NamesKept ⟨"a", "e", "k", by decide⟩)
      (compacting (fun _ => "") ⟨"a", "e", "k", by decide⟩ oldVersionRows [⟨.rollback 1, none, 3⟩])
      rollbackTurns := by
  intro h
  have hend : (Transition.run (Compacting.step keepNewest (10 ^ 18))
      (compacting (fun _ => "") ⟨"a", "e", "k", by decide⟩ oldVersionRows [⟨.rollback 1, none, 3⟩])
      rollbackTurns).map (fun s => (s.rows.kv "cassem/elements/a/e/k/metadata",
        s.trace.any fun q => deletes "cassem/elements/a/e/k/v1" q.2)) =
      some (some (.metadata ⟨"k", "a", "e", 2, 0, 1, "", 1⟩), true) := by decide +kernel
  obtain ⟨s, hrun, hs⟩ := Option.map_eq_some_iff.mp hend
  obtain ⟨hmd, hdel⟩ := Prod.mk.inj hs
  obtain ⟨q, hq, hdel⟩ := List.any_eq_true.mp hdel
  exact h.of_run hrun ⟨"k", "a", "e", 2, 0, 1, "", 1⟩ hmd 1 (by decide) ⟨q, hq, hdel⟩

end Cassem.Coord
