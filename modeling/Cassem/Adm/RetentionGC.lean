import Cassem.Coord.Compaction
import Cassem.KV.HierarchicalMap
import Cassem.KV.Listing

/-!
# The retention garbage collector

`retentionGC.runOnce` over the KV service: it scans apps, environments and elements page by page
from a stored cursor, asks for the compaction of each element up to a limit, and stores where it
stopped. Its record under the cursor's key is kept apart from the tree it scans. A run has a
deadline, and no request of it is answered after that.
-/

namespace Cassem.Adm.Retention

open Lib Lib.Paging Cassem.Concept
open KV (Store Range pathBase int32)
open Coord (CompactElementHistoryReq CompactElementHistoryResp)

/-! ## Keys -/

def GenAppDirKey : String := "cassem/apps"

def GenAppElementKey (app : String) : String := joint ["cassem/elements", app]

def GenAppElementEnvKey (app env : String) : String := joint ["cassem/elements", app, env]

/-! ## Configuration -/

/-- The fields of `RetentionConfig` that a run reads. -/
structure RetentionConfig where
  Enabled : Option Bool := none
  MaxElementsPerRun : Option Int := none
  ElementPageSize : Option Int := none
  KeepVersionCount : Option Int := none
  KeepVersionDays : Option Int := none
  KeepOperationDays : Option Int := none

namespace RetentionConfig

def EnabledValue (c : RetentionConfig) : Bool := c.Enabled.getD true
def MaxElementsPerRunValue (c : RetentionConfig) : Int := c.MaxElementsPerRun.getD 20
def ElementPageSizeValue (c : RetentionConfig) : Int := c.ElementPageSize.getD 100
def KeepVersionCountValue (c : RetentionConfig) : Int := c.KeepVersionCount.getD 20
def KeepVersionDaysValue (c : RetentionConfig) : Int := c.KeepVersionDays.getD 30
def KeepOperationDaysValue (c : RetentionConfig) : Int := c.KeepOperationDays.getD 180

end RetentionConfig

def retentionPolicyFromConfig (c : RetentionConfig) (key : String) : CompactElementHistoryReq where
  ElementKey := key
  KeepVersionCount := int32 c.KeepVersionCountValue
  KeepVersionSeconds := c.KeepVersionDaysValue * 86400
  KeepOperationSeconds := c.KeepOperationDaysValue * 86400
  PageSize := int32 c.ElementPageSizeValue

/-! ## Records -/

structure retentionElementRef where
  App : String
  Env : String
  Key : String
  deriving DecidableEq, Repr

structure retentionCursor where
  App : String := ""
  Env : String := ""
  Element : String := ""
  deriving DecidableEq, Repr

structure retentionRunSummary where
  StartedAt : Int
  FinishedAt : Int := 0
  ScannedElements : Nat := 0
  CleanedElements : Nat := 0
  DeletedVersions : Int := 0
  DeletedOperations : Int := 0
  PartialElements : Nat := 0
  FailedElements : Nat := 0
  deriving DecidableEq, Repr

structure retentionFailureRecord where
  App : String
  Env : String
  Key : String
  Error : String
  FailedKeys : List String
  OccurredAt : Int
  deriving DecidableEq, Repr

/-- What stands under the key of the cursor: JSON of a cursor, or bytes that are not. -/
inductive Saved where
  | json (cursor : retentionCursor)
  | garbled
  deriving DecidableEq, Repr

/-- The service as a run uses it. -/
structure Service where
  store : Store
  cursor : Option Saved := none
  latest : Option retentionRunSummary := none

/-! ## What the service does for an element -/

/-- A value that a compaction of the element deletes. -/
inductive Removed where
  | version (number : Int)
  | operation (operatedAt : Int)
  deriving DecidableEq, Repr

def Removed.key (ref : retentionElementRef) : Removed → String
  | .version number => versionKey (joint ["cassem/elements", ref.App, ref.Env, ref.Key]) number
  | .operation time => GenElementOperationKey ref.App ref.Env ref.Key time

/-- What the service deletes of an element, and what it answers. -/
structure Outcome where
  removed : List Removed
  reply : Except GoError CompactElementHistoryResp

def unset (store : Store) (key : String) : Store :=
  match KV.unsetKV store key false with
  | .ok store => store
  | .error _ => store

def Outcome.applyTo (outcome : Outcome) (ref : retentionElementRef) (store : Store) : Store :=
  (outcome.removed.map (Removed.key ref)).foldl unset store

/-! ## The deadline -/

def DeadlineExceeded : GoError :=
  .text "rpc error: code = DeadlineExceeded desc = context deadline exceeded"

/-- Where in a run its deadline fires: before the cursor was loaded; when `starts` compactions have
been started, before the last of them was answered (`cut`) or after that and the fetches of pages
that are still `fetched`; while the cursor is saved, which is then `landed` or not; after that;
or not at all. -/
inductive Deadline where
  | load
  | scan (starts : Nat) (cut : Bool) (fetched : String → String → Bool)
  | save (landed : Bool)
  | saved
  | never

namespace Deadline

/-- The compaction, counted from 1, is started before the deadline. -/
def startedBy (d : Deadline) (number : Nat) : Bool :=
  match d with
  | .load => false
  | .scan starts _ _ => number ≤ starts
  | _ => true

def answeredBy (d : Deadline) (number : Nat) : Bool :=
  match d with
  | .load => false
  | .scan starts cut _ => number < starts || (number == starts && !cut)
  | _ => true

/-- A page is fetched in time, when so many compactions have been started. -/
def fetches (d : Deadline) (started : Nat) (root seek : String) : Bool :=
  match d with
  | .load => false
  | .scan starts cut fetched => started < starts || (started == starts && !cut && fetched root seek)
  | _ => true

def saves (d : Deadline) : Bool :=
  match d with
  | .load | .scan _ _ _ => false
  | .save landed => landed
  | _ => true

end Deadline

/-! ## The scan -/

structure LeafPage where
  leaves : List String
  hasMore : Bool
  nextSeek : String

/-- The next page: none, the one from a seek on, or one that cannot be asked for. -/
def LeafPage.page (p : LeafPage) : Page String where
  leaves := p.leaves
  after := if !p.hasMore then .last else if p.nextSeek = "" then .stuck else .more p.nextSeek

def leafOf (key : String) : Option String :=
  let leaf := pathBase key
  if leaf = "" ∨ leaf = "." ∨ leaf = "/" then none else some leaf

def rangeLeavesPageWithError (pageSize : Nat) (now : Int) (store : Store) (inTime : Bool)
    (root seek : String) : Except GoError LeafPage :=
  match if inTime then Range now store ⟨root, seek, pageSize⟩ else .error DeadlineExceeded with
  | .error err => .error (.errorf ("range " ++ root ++ ": ") err)
  | .ok resp => .ok {
      leaves := (resp.entities.map (·.key)).filterMap leafOf
      hasMore := resp.hasMore
      nextSeek := if resp.nextSeekKey ≠ "" then pathBase resp.nextSeekKey else "" }

section Scan

variable {σ : Type} (range : σ → String → String → Except GoError LeafPage)
  (visit : retentionElementRef → σ → σ × Bool) (fuel : Nat)

/-- A page in a scan; an error ends it. -/
def fetch (root : String) (s : σ) (seek : String) : Option (Page String) :=
  match range s root seek with
  | .error _ => none
  | .ok page => some page.page

def scanElementKeys (appID env elementSeek : String) (s : σ) : Option (σ × Bool) :=
  scanPages (fetch range (GenAppElementEnvKey appID env))
    (fun _ key s =>
      let (s, more) := visit ⟨appID, env, key⟩ s
      some (s, if more then some () else none))
    () fuel elementSeek () s

def scanEnvs (appID envSeek : String) (cursor : retentionCursor) (s : σ) : Option (σ × Bool) :=
  scanPages (fetch range (GenAppElementKey appID))
    (fun active env s =>
      let here := appID = active.App ∧ env = active.Env
      let elementSeek := if here then active.Element else ""
      (scanElementKeys range visit fuel appID env elementSeek s).map fun (s, more) =>
        (s, if more then some (if here then {} else active) else none))
    ({} : retentionCursor) fuel envSeek cursor s

def scanElements (cursor : retentionCursor) (s : σ) : Option (σ × Bool) :=
  scanPages (fetch range GenAppDirKey)
    (fun active appID s =>
      let envCursor := if appID = active.App then active else {}
      (scanEnvs range visit fuel appID envCursor.Env envCursor s).map fun (s, more) =>
        (s, if more then some (if appID = active.App then {} else active) else none))
    ({} : retentionCursor) fuel cursor.App cursor s

end Scan

/-! ## A run -/

def nextSeekAfter (value : String) : String := value.push (Char.ofNat 0)

def retentionCursor.after (ref : retentionElementRef) : retentionCursor :=
  ⟨ref.App, ref.Env, nextSeekAfter ref.Key⟩

def validRetentionCursor (cursor : retentionCursor) : Bool :=
  if cursor.App = "" then cursor.Env = "" && cursor.Element = ""
  else if cursor.Env = "" then cursor.Element = ""
  else !cursor.App.toList.contains '/' && !cursor.Env.toList.contains '/' &&
    !cursor.Element.toList.contains '/'

/-- `loadCursor`, with what the service has under the key, if it answers. -/
def loadCursor (saved : Option Saved) : retentionCursor :=
  match saved with
  | some (.json cursor) => if validRetentionCursor cursor then cursor else {}
  | _ => {}

/-- What a run has come to: the tree, its summary, where to go on, the failures it has recorded,
and the elements whose compaction it has asked for. -/
structure Sweep where
  store : Store
  summary : retentionRunSummary
  nextCursor : retentionCursor
  failures : List retentionFailureRecord := []
  visited : List retentionElementRef := []

section Run

variable (config : RetentionConfig) (compact : Nat → retentionElementRef → Outcome)
  (deadline : Deadline) (now : Int)

def Sweep.range (s : Sweep) (root seek : String) : Except GoError LeafPage :=
  rangeLeavesPageWithError config.ElementPageSizeValue.toNat now s.store
    (deadline.fetches s.summary.ScannedElements root seek) root seek

/-- `compactElement` as the run's compaction of this number: what is left of the tree, and the
answer. What the service has begun it may have done. -/
def compactElement (number : Nat) (ref : retentionElementRef) (store : Store) :
    Store × Except GoError CompactElementHistoryResp :=
  let outcome := compact number ref
  if deadline.answeredBy number then (outcome.applyTo ref store, outcome.reply)
  else if deadline.startedBy number then (outcome.applyTo ref store, .error DeadlineExceeded)
  else (store, .error DeadlineExceeded)

def failureOf (ref : retentionElementRef) (message : String) (failedKeys : List String) :
    retentionFailureRecord :=
  ⟨ref.App, ref.Env, ref.Key, message, failedKeys, now⟩

/-- The function that `runOnce` scans with. -/
def visit (ref : retentionElementRef) (s : Sweep) : Sweep × Bool :=
  let number := s.summary.ScannedElements + 1
  let (store, reply) := compactElement compact deadline number ref s.store
  let summary := { s.summary with ScannedElements := number }
  let s := { s with
    store := store, nextCursor := .after ref, visited := s.visited ++ [ref] }
  let more := decide ((number : Int) < config.MaxElementsPerRunValue)
  match reply with
  | .error err =>
      ({ s with
        summary := { summary with FailedElements := summary.FailedElements + 1 }
        failures := s.failures ++ [failureOf now ref err.message []] }, more)
  | .ok resp =>
      let summary := { summary with
        DeletedVersions := int32 (summary.DeletedVersions + resp.DeletedVersions)
        DeletedOperations := int32 (summary.DeletedOperations + resp.DeletedOperations) }
      if resp.Error ≠ "" ∨ resp.FailedKeys ≠ [] then
        ({ s with
          summary := { summary with PartialElements := summary.PartialElements + 1 }
          failures := s.failures ++ [failureOf now ref resp.Error resp.FailedKeys] }, more)
      else
        ({ s with summary := { summary with CleanedElements := summary.CleanedElements + 1 } }, more)

/-- Whether there is an element, and whether that is known. -/
def hasElementAtOrAfterCursor (fuel : Nat) (cursor : retentionCursor) (s : Sweep) :
    Option (Bool × Bool) :=
  (scanElements (fun (t : Sweep × Bool) => t.1.range config deadline now)
    (fun _ t => ((t.1, true), false)) fuel cursor (s, false)).map fun ((_, found), reachedEnd) =>
      if found then (true, true) else (false, reachedEnd)

/-- The scan of a run, with whether it is over. -/
def sweep (fuel : Nat) (cursor : retentionCursor) (s : Sweep) : Option (Sweep × Bool) :=
  match scanElements (Sweep.range config deadline now) (visit config compact deadline now) fuel
      cursor s with
  | none => none
  | some (s, reachedEnd) =>
      if !reachedEnd ∧ (s.summary.ScannedElements : Int) = config.MaxElementsPerRunValue then
        (hasElementAtOrAfterCursor config deadline now fuel s.nextCursor s).map
          fun (hasMoreElements, ok) => (s, ok && !hasMoreElements)
      else some (s, reachedEnd)

/-- `runOnce` from `now` to `finish`: the service after it, the summary, and the elements it has
asked compactions for. With too little fuel it does not come to its end. -/
def runOnce (fuel : Nat) (finish : Int) (kv : Service) :
    Option (Service × retentionRunSummary × List retentionElementRef) :=
  let summary : retentionRunSummary := { StartedAt := now }
  if !config.EnabledValue then some (kv, { summary with FinishedAt := finish }, [])
  else if config.MaxElementsPerRunValue ≤ 0 then
    let summary := { summary with FinishedAt := finish }
    some ({ kv with latest := some summary }, summary, [])
  else
    let cursor := match deadline with
      | .load => {}
      | _ => loadCursor kv.cursor
    (sweep config compact deadline now fuel cursor ⟨kv.store, summary, cursor, [], []⟩).map
      fun (s, reachedEnd) =>
        let nextCursor := if reachedEnd then {} else s.nextCursor
        let summary := { s.summary with FinishedAt := finish }
        ({ store := s.store
           cursor := if deadline.saves then some (.json nextCursor) else kv.cursor
           latest := match deadline with
             | .never => some summary
             | _ => kv.latest }, summary, s.visited)

end Run

end Cassem.Adm.Retention
