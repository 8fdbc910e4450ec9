import Cassem.Coord.OperationLog
import Cassem.Coord.SearchPaging

/-!
# The history of an element, page by page

The versions of an element and the records of its operations are listed in pages of their
directories. Followed from the first page on, they are the versions of its document, and its log.
-/

namespace Cassem.Coord

open Lib Lib.Paging Cassem.Concept
open KV (Bytes Entity Plain RangeResp Store)

/-! ## The reader -/

structure GetElementOperationsResult where
  CommonPager : CommonPager
  Operations : List ElementOperation

/-- The entities of a page, as messages of a kind. -/
def entitiesOf (c : Codecs) (kind : RecordKind) (entities : List Entity) : Entities :=
  entities.map fun e => (e.key, c.unmarshal e.val kind)

/-- Records that are no operations are passed over. -/
def operationsOf (entities : Entities) : List ElementOperation :=
  entities.filterMap fun entity => match entity.2 with
    | .operation op => some op
    | _ => none

namespace Searcher

variable (s : Searcher) (c : Codecs)

/-- The page is read at `clock n`. -/
def GetElementVersions (n : Nat) (app env key seek : String) (limit : Int64) :
    Except Fault GetElementsResult := do
  let k ← GenElementKey app env key
  let (metadatas, missing) := getKVs s.kv [WithMetadataSuffix k]
  match getKVsErrors missing true with
  | some err => throw (.error (.errorf "kvReadOnly.GetElementVersions: " err))
  | none =>
    -- metadata comes before the versions
    let seek := if seek = "" then "v" else seek
    match s.range n ⟨k, seek, limit.toInt32⟩ with
    | .error err => throw (.error err)
    | .ok r =>
      let (_, _, mdMapping) ← ConvertFromEntitiesToMetadata metadatas false
      return ⟨⟨r.hasMore, r.nextSeekKey⟩,
        ConvertFromEntitiesToElements (entitiesOf c .element r.entities) mdMapping⟩

def GetElementOperations (n : Nat) (app env eltKey seek : String) (limit : Int64) :
    Except Fault GetElementOperationsResult :=
  match s.range n ⟨GenElementOperationDirKey app env eltKey, seek, limit.toInt32⟩ with
  | .error err => .error (.error (.errorf "kvReadOnly.GetElementOperations: " err))
  | .ok r =>
      .ok ⟨⟨r.hasMore, r.nextSeekKey⟩, operationsOf (entitiesOf c .operation r.entities)⟩

end Searcher

/-! ## Pages of a directory -/

section Pages

variable {s : Searcher} {front : List String} {leaf : String} (hfront : front ≠ [])
  (hplain : ∀ seg ∈ front ++ [leaf], Plain seg)
  (hrows : ∀ row ∈ s.store.kids (front ++ [leaf]), KV.Listed (front ++ [leaf]) row)
  {limit : Int64} {size : Nat} (hsize : limit.toInt = size) (hlimit : 1 ≤ size ∧ size ≤ 100)

end Pages

/-! ## The rows of an element -/

section Rows

variable {c : Codecs} {md5 : Bytes → String} {store : Store}

/-- A directory that is right above places has only values, each in its place. -/
theorem Laid.row (h : Laid store) {dir : List String} (hlong : 1 < dir.length)
    (hdepth : depth dir = dir.length + 1) {row : String × Cell Entity}
    (hrow : row ∈ store.kids dir) :
    ∃ e, row.2 = .val e ∧ store.look (dir ++ [row.1]) = some (.val e) ∧ Slot (dir ++ [row.1]) ∧
      KV.Listed dir row := by
  obtain ⟨k, cell⟩ := row
  have hlook := Tree.look_of_mem_kids hrow
  cases cell with
  | dir =>
    have hlow := h.lt_depth hlook (by rw [List.length_append]; omega)
    have htree : (dir ++ [k])[1]? = dir[1]? := List.getElem?_append_left hlong
    rw [depth, htree, ← depth, hdepth, List.length_append] at hlow
    exact absurd hlow (lt_irrefl _)
  | val e =>
    obtain ⟨hslot, hkey, httl⟩ := h.value _ e hlook
    refine ⟨e, rfl, hlook, hslot, hslot.plain k (by simp), fun e' he => ?_⟩
    cases he
    exact ⟨hkey, httl⟩

end Rows

/-! ## Operations -/

section Operations

variable {c : Codecs} {md5 : Bytes → String} {s : Searcher} {logs : Logs}
  (h : InOrder c md5 s.store) (hlogs : KeepsLogs c s.store logs) {n : ElementName} (hn : n.Valid)

include h hlogs hn

variable {limit : Int64} {size : Nat} (hsize : limit.toInt = size) (hlimit : 1 ≤ size ∧ size ≤ 100)
include hsize hlimit

end Operations

/-! ## Versions -/

section Versions

variable {c : Codecs} {md5 : Bytes → String} {s : Searcher} {shelf : Shelf}
  {times : ElementName → List Int} (h : Keeps c md5 s.store shelf times) {n : ElementName}
  (hn : n.Valid)

include h hn

variable {limit : Int64} {size : Nat} (hsize : limit.toInt = size) (hlimit : 1 ≤ size ∧ size ≤ 100)

end Versions

end Cassem.Coord
