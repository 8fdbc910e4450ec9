import Mathlib.Logic.Function.Basic
import Cassem.KV.Recovery

/-!
# The cluster

Nodes, each with its store, its table of pending requests and its apply loop; the
threads that serve calls on them; the proposals in flight; and the log that raft
commits, which every node applies from its start, entry by entry. A thread stops
at every point where another one can act. Which request proposed an entry, what a
read observed before it proposed a removal, and which requests a node has applied
are kept as history: no step of the program looks at them.
-/

namespace Cassem.KV

open Lib

structure SetKVReq where
  key : String
  isDir : Bool
  ttl : Int
  val : Bytes
  overwrite : Bool
  ttl_int32 : int32 ttl = ttl

structure RangeReq where
  key : String
  seek : String
  limit : Nat

structure RangeResp where
  entities : List Entity
  hasMore : Bool
  nextSeekKey : String
  deriving DecidableEq, Repr

def emptyRangeResp : RangeResp := ⟨[], false, ""⟩

/-- Which entry of the log was the last to touch a path. -/
abbrev Touched := List String → Option Nat

/-- What a read found, and the entry that had put it there. -/
structure Observation where
  writer : Option Nat
  entity : Entity

/-- What a thread does when its SetKV or UnsetKV has returned. -/
inductive Then where
  | reply
  | probed (req : SetKVReq)
  | notFound
  | sweep (expired : List Observation)

inductive Reply where
  | ack (err : Option GoError)
  | entity (res : Except GoError Entity)
  | range (res : Except GoError RangeResp)

/-- Where a thread stands: what it is about to do. -/
inductive Pc where
  /-- `SetKV`: load the last value. -/
  | setKV (req : SetKVReq)
  /-- `SetKV`: probe the last value, check the overwrite flag. -/
  | setProbe (req : SetKVReq) (last : Option Observation)
  /-- `SetKV`: build the new entity. -/
  | setBuild (req : SetKVReq) (last : Option Entity)
  | getKV (key : String)
  | getProbe (val : Observation)
  | range (req : RangeReq)
  | rangeProbe (req : RangeReq) (touched : Touched) (rows : List (String × Cell Entity))
  /-- Register a pending request for the command. -/
  | mutate (cmd : MutateCommand) (observed : Option Observation) (next : Then)
  | propose (request : Nat) (cmd : MutateCommand) (observed : Option Observation) (next : Then)
  | waitPending (request : Nat) (cmd : MutateCommand) (next : Then)
  | returned (reply : Reply)
  | stopped

structure Thread (ν : Type) where
  node : ν
  pc : Pc

/-- A proposal, or a committed entry, and the request that proposed it. -/
structure Entry where
  cmd : MutateCommand
  request : Nat
  observed : Option Observation

/-- A registration: by which node, in which of its runs, and as which one of that run. -/
structure Request (ν : Type) where
  node : ν
  incarnation : Nat
  seq : Nat
  cmd : MutateCommand

structure Snapshot where
  index : Nat
  data : Store
  touched : Touched

/-- A node: the state of its process, how far it has applied the log, and its latest
snapshot; and of its history, which entries made its store, how often it was started,
how many requests this run has registered, and which it has applied. -/
structure Member where
  impl : RaftNode Nat := {}
  applied : Nat := 0
  looping : Bool := true
  snapshot : Option Snapshot := none
  touched : Touched := fun _ => none
  incarnation : Nat := 0
  registered : Nat := 0
  done : List Nat := []

structure Cluster (ν : Type) where
  nodes : ν → Member := fun _ => {}
  threads : List (Thread ν) := []
  requests : List (Request ν) := []
  proposed : List Entry := []
  log : List Entry := []
  /-- The results that SetKV and UnsetKV have returned for a request. -/
  returns : List (Nat × Option GoError) := []
  now : Int := 0

/-! ## Threads -/

inductive Call where
  | setKV (req : SetKVReq)
  | unsetKV (key : String) (isDir : Bool)
  | getKV (key : String)
  | range (req : RangeReq)

def unsetCommand (key : String) (isDir : Bool) : MutateCommand :=
  { requestId := 0, op := .UNSET, key := key, isDir := isDir }

def Call.start : Call → Pc
  | .setKV req => .setKV req
  | .unsetKV key isDir => .mutate (unsetCommand key isDir) none .reply
  | .getKV key => .getKV key
  | .range req => .range req

/-- `UnsetKV` of an expired entity, as `probeRemoveExpired` and `Range` call it. -/
def removeExpired (o : Observation) (next : Then) : Pc :=
  .mutate (unsetCommand o.entity.key false) (some o) next

/-- The part of `SetKV` after the load, up to the check of the overwrite flag. -/
def setProbe (now : Int) (req : SetKVReq) : Option Observation → Pc
  | none => .setBuild req none
  | some o =>
      match entityExpired now o.entity with
      | (true, _) => removeExpired o (.probed req)
      | (false, last) =>
          if req.overwrite then .setBuild req (some last) else .returned (.ack (some ErrExists))

/-- The command of a SetKV. The last value's time to live is reduced once more. -/
def setCommand (md5 : Bytes → String) (now : Int) (req : SetKVReq) (last : Option Entity) :
    MutateCommand :=
  let createdAt := match last with
    | some e => if (entityExpired now e).1 then now else e.createdAt
    | none => now
  { requestId := 0, op := .SET, key := req.key, isDir := req.isDir
    value := some (newEntityWithCreated md5 now req.key req.val req.ttl createdAt) }

def getProbe (now : Int) (o : Observation) : Pc :=
  match entityExpired now o.entity with
  | (true, _) => removeExpired o .notFound
  | (false, val) => .returned (.entity (.ok val))

def rangeFail (err : GoError) : Reply :=
  if err.errorsIs (.concept Concept.Err_NOT_FOUND) then .range (.ok emptyRangeResp)
  else .range (.error (.errorf "raftNodeImpl.Range: " err))

def rangeReply (now : Int) (req : RangeReq) (rows : List (String × Cell Entity)) : Reply :=
  let result := rangeResult now req.key req.limit rows
  .range (.ok ⟨result.items, result.hasMore, result.nextSeekKey⟩)

/-- The goroutine that `Range` starts, at its next expired key. -/
def sweep : List Observation → Pc
  | [] => .stopped
  | o :: rest => removeExpired o (.sweep rest)

/-- An entity as it is read from the store of a node. -/
def observe (touched : Touched) (e : Entity) : Observation := ⟨touched (keyPath e.key), e⟩

/-- A step that reads the store or the clock and changes only its own thread: where
it leads, and the goroutine it starts. -/
def Pc.advance (md5 : Bytes → String) (now : Int) (node : Member) : Pc → Option (Pc × Option Pc)
  | .setKV req =>
      match KV.getKV node.impl.kvstore req.key req.isDir with
      | .ok last => some (.setProbe req (some (observe node.touched last)), none)
      | .error _ => some (.setProbe req none, none)
  | .setProbe req last => some (KV.setProbe now req last, none)
  | .setBuild req last => some (.mutate (setCommand md5 now req last) none .reply, none)
  | .getKV key =>
      match KV.getKV node.impl.kvstore key false with
      | .ok val => some (.getProbe (observe node.touched val), none)
      | .error err => some (.returned (.entity (.error err)), none)
  | .getProbe val => some (KV.getProbe now val, none)
  | .range req =>
      match rangeRows node.impl.kvstore req.key req.seek with
      | .ok rows => some (.rangeProbe req node.touched rows, none)
      | .error err => some (.returned (rangeFail err), none)
  | .rangeProbe req touched rows =>
      let expired := (rangeScan now req.key req.limit rows).2.1
      some (.returned (rangeReply now req rows),
        if expired = [] then none else some (KV.sweep (expired.map (observe touched))))
  | _ => none

section Advance

variable (md5 : Bytes → String) (now : Int) (node : Member)

/-- The ways in which a call goes on alone: from where, to where, and what it starts. -/
inductive Advance : Pc → Pc → Option Pc → Prop
  | loaded {req : SetKVReq} {last : Entity}
      (hget : KV.getKV node.impl.kvstore req.key req.isDir = .ok last) :
      Advance (.setKV req) (.setProbe req (some (observe node.touched last))) none
  | notLoaded {req : SetKVReq} {err : GoError}
      (hget : KV.getKV node.impl.kvstore req.key req.isDir = .error err) :
      Advance (.setKV req) (.setProbe req none) none
  | create (req : SetKVReq) : Advance (.setProbe req none) (.setBuild req none) none
  | setExpired {req : SetKVReq} {o : Observation} (hexp : (entityExpired now o.entity).1 = true) :
      Advance (.setProbe req (some o)) (removeExpired o (.probed req)) none
  | overwrite {req : SetKVReq} {o : Observation} (last : Entity)
      (hexp : (entityExpired now o.entity).1 = false) (how : req.overwrite = true) :
      Advance (.setProbe req (some o)) (.setBuild req (some last)) none
  | present {req : SetKVReq} {o : Observation} (hexp : (entityExpired now o.entity).1 = false)
      (how : ¬ req.overwrite = true) :
      Advance (.setProbe req (some o)) (.returned (.ack (some ErrExists))) none
  | setBuild (req : SetKVReq) (last : Option Entity) :
      Advance (.setBuild req last) (.mutate (setCommand md5 now req last) none .reply) none
  | read {key : String} {val : Entity} (hget : KV.getKV node.impl.kvstore key false = .ok val) :
      Advance (.getKV key) (.getProbe (observe node.touched val)) none
  | notRead (key : String) (err : GoError) :
      Advance (.getKV key) (.returned (.entity (.error err))) none
  | getExpired {o : Observation} (hexp : (entityExpired now o.entity).1 = true) :
      Advance (.getProbe o) (removeExpired o .notFound) none
  | found (o : Observation) (val : Entity) :
      Advance (.getProbe o) (.returned (.entity (.ok val))) none
  | ranged {req : RangeReq} {rows : List (String × Cell Entity)}
      (hrows : rangeRows node.impl.kvstore req.key req.seek = .ok rows) :
      Advance (.range req) (.rangeProbe req node.touched rows) none
  | notRanged (req : RangeReq) (err : GoError) :
      Advance (.range req) (.returned (rangeFail err)) none
  | answer (req : RangeReq) (touched : Touched) (rows : List (String × Cell Entity)) :
      Advance (.rangeProbe req touched rows) (.returned (rangeReply now req rows)) none
  | sweep (req : RangeReq) (touched : Touched) (rows : List (String × Cell Entity)) :
      Advance (.rangeProbe req touched rows) (.returned (rangeReply now req rows))
        (some (KV.sweep ((rangeScan now req.key req.limit rows).2.1.map (observe touched))))

variable {md5 now node}

theorem Pc.advance_cases {pc pc' : Pc} {spawned : Option Pc}
    (h : pc.advance md5 now node = some (pc', spawned)) : Advance md5 now node pc pc' spawned := by
  cases pc with
  | setKV req =>
    dsimp only [Pc.advance] at h
    split at h <;> cases h
    · next hget => exact .loaded hget
    · next hget => exact .notLoaded hget
  | setProbe req last =>
    dsimp only [Pc.advance] at h
    cases h
    cases last with
    | none => exact .create req
    | some o =>
      dsimp only [KV.setProbe]
      split
      · next hexp => exact .setExpired (congrArg Prod.fst hexp)
      · next last hexp =>
        split
        · next how => exact .overwrite last (congrArg Prod.fst hexp) how
        · next how => exact .present (congrArg Prod.fst hexp) how
  | setBuild req last =>
    cases h
    exact .setBuild req last
  | getKV key =>
    dsimp only [Pc.advance] at h
    split at h <;> cases h
    · next hget => exact .read hget
    · next err _ => exact .notRead key err
  | getProbe o =>
    dsimp only [Pc.advance] at h
    cases h
    dsimp only [KV.getProbe]
    split
    · next hexp => exact .getExpired (congrArg Prod.fst hexp)
    · next val _ => exact .found o val
  | range req =>
    dsimp only [Pc.advance] at h
    split at h <;> cases h
    · next hrows => exact .ranged hrows
    · next err _ => exact .notRanged req err
  | rangeProbe req touched rows =>
    dsimp only [Pc.advance] at h
    cases h
    split
    · exact .answer req touched rows
    · exact .sweep req touched rows
  | mutate cmd observed next => cases h
  | propose request cmd observed next => cases h
  | waitPending request cmd next => cases h
  | returned reply => cases h
  | stopped => cases h

end Advance

/-- Where a thread goes on when its SetKV or UnsetKV returns. -/
def Then.resume (err : Option GoError) : Then → Pc
  | .reply => .returned (.ack err)
  | .probed req => .setBuild req none
  | .notFound => .returned (.entity (.error ErrNotFound))
  | .sweep rest => KV.sweep rest

/-- `fmt.Errorf` around an error of `propose`. -/
def proposeError (cmd : MutateCommand) (err : GoError) : GoError :=
  if cmd.op = .SET then .errorf "raftNodeImpl.SetKV: " err
  else .errorf "raftNodeImpl.UnsetKV: " err

/-- Which entries have made the store, once the one at `index` has been applied. -/
def touchedAfter (touched : Touched) (index : Nat) (cmd : MutateCommand) : Touched := fun p =>
  match commandOp cmd with
  | none => touched p
  | some o => if o.touches p then some index else touched p

/-- The apply loop of a node takes the next entry of the log. -/
def Member.applyEntry (m : Member) (e : Entry) : Member :=
  match applyMutateLogEntry m.impl e.cmd with
  | (impl, some _) => { m with impl := impl, looping := false }
  | (impl, none) =>
      { m with
        impl := impl
        applied := m.applied + 1
        touched := touchedAfter m.touched m.applied e.cmd
        done := m.done ++ [e.request] }

/-! ## Steps -/

namespace Cluster

variable {ν : Type} [DecidableEq ν]

def setNode (s : Cluster ν) (n : ν) (m : Member) : Cluster ν :=
  { s with nodes := Function.update s.nodes n m }

def setPc (s : Cluster ν) (t : Nat) (th : Thread ν) (pc : Pc) : Cluster ν :=
  { s with threads := s.threads.set t { th with pc := pc } }

def spawn (s : Cluster ν) (n : ν) (pc : Option Pc) : Cluster ν :=
  { s with threads := s.threads ++ pc.toList.map (Thread.mk n) }

/-- A step that spawns no thread, or names no observation, asks nothing of one. -/
theorem of_none {α : Type} {P : α → Prop} : ∀ a, (none : Option α) = some a → P a := by
  intro a h
  cases h

theorem setNode_nodes (s : Cluster ν) (n k : ν) (m : Member) :
    (s.setNode n m).nodes k = if k = n then m else s.nodes k :=
  Function.update_apply s.nodes n m k

omit [DecidableEq ν] in
theorem mem_threads_setPc {s : Cluster ν} {t : Nat} {th th' : Thread ν} {pc : Pc}
    (h : th' ∈ (s.setPc t th pc).threads) : th' ∈ s.threads ∨ th' = { th with pc := pc } :=
  List.mem_or_eq_of_mem_set h

omit [DecidableEq ν] in
theorem mem_threads_spawn {s : Cluster ν} {n : ν} {pc : Option Pc} {th : Thread ν}
    (h : th ∈ (s.spawn n pc).threads) : th ∈ s.threads ∨ ∃ pc', pc = some pc' ∧ th = ⟨n, pc'⟩ := by
  rcases List.mem_append.mp h with h | h
  · exact .inl h
  · obtain ⟨pc', hpc, rfl⟩ := List.mem_map.mp h
    exact .inr ⟨pc', Option.mem_toList.mp hpc, rfl⟩

/-- `registerPending`; on a node that shuts down the call returns at once. -/
def register (s : Cluster ν) (t : Nat) (th : Thread ν) (cmd : MutateCommand)
    (observed : Option Observation) (next : Then) : Cluster ν :=
  let node := s.nodes th.node
  match node.impl.registerPending s.requests.length with
  | none => s.setPc t th (next.resume (some ErrShuttingDown))
  | some (id, impl) =>
      let cmd := { cmd with requestId := id }
      let s := s.setPc t th (.propose s.requests.length cmd observed next)
      { s.setNode th.node { node with impl := impl, registered := node.registered + 1 } with
        requests := s.requests ++ [⟨th.node, node.incarnation, node.registered + 1, cmd⟩] }

/-- A SetKV or UnsetKV returns, and its cleanup forgets the request. -/
def finish (s : Cluster ν) (t : Nat) (th : Thread ν) (request : Nat) (cmd : MutateCommand)
    (next : Then) (err : Option GoError) : Cluster ν :=
  let node := s.nodes th.node
  let s := s.setPc t th (next.resume err)
  { s.setNode th.node { node with impl := node.impl.cleanup cmd.requestId } with
    returns := s.returns ++ [(request, err)] }

def runThread (md5 : Bytes → String) (s : Cluster ν) (t : Nat) (th : Thread ν) :
    Option (Cluster ν) :=
  match th.pc with
  | .mutate cmd observed next => some (s.register t th cmd observed next)
  | .propose request cmd observed next =>
      if (s.nodes th.node).impl.shuttingDown then
        some (s.finish t th request cmd next (some (proposeError cmd ErrShuttingDown)))
      else
        some { s.setPc t th (.waitPending request cmd next) with
          proposed := s.proposed ++ [⟨cmd, request, observed⟩] }
  | .waitPending request cmd next =>
      ((s.nodes th.node).impl.acks.find? (·.1 = request)).map fun ack =>
        s.finish t th request cmd next ack.2
  | pc =>
      (pc.advance md5 s.now (s.nodes th.node)).map fun r =>
        (s.setPc t th r.1).spawn th.node r.2

/-- The caller's context is done, or raft refuses the proposal. -/
def cancelThread (s : Cluster ν) (t : Nat) (th : Thread ν) (err : GoError) : Option (Cluster ν) :=
  match th.pc with
  | .propose request cmd _ next =>
      some (s.finish t th request cmd next (some (proposeError cmd err)))
  | .waitPending request cmd next => some (s.finish t th request cmd next (some err))
  | _ => none

/-- A node crashes and starts again from its files. -/
def restart (s : Cluster ν) (n : ν) : Cluster ν :=
  let node := s.nodes n
  { s.setNode n { node with
      impl := setup { kvstore := node.impl.kvstore } (node.snapshot.map (·.data))
      applied := (node.snapshot.map (·.index)).getD 0
      touched := (node.snapshot.map (·.touched)).getD node.touched
      looping := true
      incarnation := node.incarnation + 1
      registered := 0 } with
    threads := s.threads.map fun th => if th.node = n then { th with pc := .stopped } else th }

/-- A node saves its store. -/
def saveSnapshot (s : Cluster ν) (n : ν) : Cluster ν :=
  let node := s.nodes n
  s.setNode n { node with snapshot := some ⟨node.applied, node.impl.kvstore, node.touched⟩ }

/-- A node saves and loads a snapshot that another one has sent. -/
def install (s : Cluster ν) (n : ν) (snap : Snapshot) : Cluster ν :=
  let node := s.nodes n
  s.setNode n { node with
    impl := { node.impl with kvstore := snap.data }
    applied := snap.index
    touched := snap.touched
    snapshot := some snap }

inductive Label (ν : Type) where
  | call (n : ν) (c : Call)
  | run (t : Nat)
  | cancel (t : Nat) (err : GoError)
  | commit (i : Nat)
  | drop (i : Nat)
  | apply (n : ν)
  | tick (seconds : Nat)
  | shutdown (n : ν)
  | restart (n : ν)
  | snapshot (n : ν)
  | install (n from_ : ν)

def step (md5 : Bytes → String) (s : Cluster ν) : Label ν → Option (Cluster ν)
  | .call n c => some (s.spawn n (some c.start))
  | .run t => s.threads[t]?.bind fun th => s.runThread md5 t th
  | .cancel t err => s.threads[t]?.bind fun th => s.cancelThread t th err
  | .commit i => s.proposed[i]?.map fun e =>
      { s with proposed := s.proposed.eraseIdx i, log := s.log ++ [e] }
  | .drop i => s.proposed[i]?.map fun _ => { s with proposed := s.proposed.eraseIdx i }
  | .apply n =>
      if (s.nodes n).looping then s.log[(s.nodes n).applied]?.map fun e =>
        s.setNode n ((s.nodes n).applyEntry e)
      else none
  | .tick seconds => some { s with now := s.now + seconds }
  | .shutdown n => some (s.setNode n { s.nodes n with impl := (s.nodes n).impl.shutdown })
  | .restart n => some (s.restart n)
  | .snapshot n => some (s.saveSnapshot n)
  | .install n m =>
      match (s.nodes m).snapshot with
      | none => none
      | some snap =>
          if (s.nodes n).looping ∧ (s.nodes n).applied < snap.index then some (s.install n snap)
          else none

/-- Why a SetKV or UnsetKV returns with `err`: its context or its proposal failed, or
it received its acknowledgement. -/
def EndsWith (s : Cluster ν) (th : Thread ν) (request : Nat) (cmd : MutateCommand) (next : Then)
    (err : Option GoError) : Prop :=
  (∃ observed, th.pc = .propose request cmd observed next ∧ err ≠ none) ∨
  (th.pc = .waitPending request cmd next ∧
    (err ≠ none ∨ (request, err) ∈ (s.nodes th.node).impl.acks))

/-- What a step can do, with what it needs. -/
inductive Moves (md5 : Bytes → String) (s : Cluster ν) : Label ν → Cluster ν → Prop
  | call (n : ν) (c : Call) : Moves md5 s (.call n c) (s.spawn n (some c.start))
  | advance {t th pc spawned} (hth : s.threads[t]? = some th)
      (hpc : th.pc.advance md5 s.now (s.nodes th.node) = some (pc, spawned)) :
      Moves md5 s (.run t) ((s.setPc t th pc).spawn th.node spawned)
  | register {t th cmd observed next} (hth : s.threads[t]? = some th)
      (hpc : th.pc = .mutate cmd observed next) :
      Moves md5 s (.run t) (s.register t th cmd observed next)
  | propose {t th request cmd observed next} (hth : s.threads[t]? = some th)
      (hpc : th.pc = .propose request cmd observed next) :
      Moves md5 s (.run t) { s.setPc t th (.waitPending request cmd next) with
        proposed := s.proposed ++ [⟨cmd, request, observed⟩] }
  | finish {l t th request cmd next err} (hth : s.threads[t]? = some th)
      (hl : l = .run t ∨ ∃ err', l = .cancel t err')
      (hend : s.EndsWith th request cmd next err) :
      Moves md5 s l (s.finish t th request cmd next err)
  | commit {i e} (he : s.proposed[i]? = some e) :
      Moves md5 s (.commit i) { s with proposed := s.proposed.eraseIdx i, log := s.log ++ [e] }
  | drop {i e} (he : s.proposed[i]? = some e) :
      Moves md5 s (.drop i) { s with proposed := s.proposed.eraseIdx i }
  | apply {n e} (hloop : (s.nodes n).looping) (he : s.log[(s.nodes n).applied]? = some e) :
      Moves md5 s (.apply n) (s.setNode n ((s.nodes n).applyEntry e))
  | tick (seconds : Nat) : Moves md5 s (.tick seconds) { s with now := s.now + seconds }
  | shutdown (n : ν) :
      Moves md5 s (.shutdown n) (s.setNode n { s.nodes n with impl := (s.nodes n).impl.shutdown })
  | restart (n : ν) : Moves md5 s (.restart n) (s.restart n)
  | snapshot (n : ν) : Moves md5 s (.snapshot n) (s.saveSnapshot n)
  | install {n m snap} (hsnap : (s.nodes m).snapshot = some snap)
      (hnew : (s.nodes n).applied < snap.index) : Moves md5 s (.install n m) (s.install n snap)

theorem moves_of_runThread {md5 : Bytes → String} {s s' : Cluster ν} {t : Nat} {th : Thread ν}
    (hth : s.threads[t]? = some th) (h : s.runThread md5 t th = some s') :
    Moves md5 s (.run t) s' := by
  unfold runThread at h
  split at h
  · next cmd observed next hpc =>
    cases h
    exact .register hth hpc
  · next request cmd observed next hpc =>
    split at h
    · cases h
      exact .finish hth (.inl rfl) (.inl ⟨observed, hpc, by simp⟩)
    · cases h
      exact .propose hth hpc
  · next request cmd next hpc =>
    obtain ⟨ack, hack, rfl⟩ := Option.map_eq_some_iff.mp h
    have hmem := List.mem_of_find?_eq_some hack
    have hreq : ack.1 = request := by simpa using List.find?_some hack
    exact .finish hth (.inl rfl) (.inr ⟨hpc, .inr (by rw [← hreq]; exact hmem)⟩)
  · obtain ⟨⟨pc, spawned⟩, hpc, rfl⟩ := Option.map_eq_some_iff.mp h
    exact .advance hth hpc

theorem moves_of_cancelThread {md5 : Bytes → String} {s s' : Cluster ν} {t : Nat} {th : Thread ν}
    {err : GoError} (hth : s.threads[t]? = some th) (h : s.cancelThread t th err = some s') :
    Moves md5 s (.cancel t err) s' := by
  unfold cancelThread at h
  split at h
  · next request cmd observed next hpc =>
    cases h
    exact .finish hth (.inr ⟨err, rfl⟩) (.inl ⟨observed, hpc, by simp⟩)
  · next request cmd next hpc =>
    cases h
    exact .finish hth (.inr ⟨err, rfl⟩) (.inr ⟨hpc, .inl (by simp)⟩)
  · cases h

/-- Every step is one of the moves. -/
theorem moves_of_step {md5 : Bytes → String} {s s' : Cluster ν} {l : Label ν}
    (h : step md5 s l = some s') : Moves md5 s l s' := by
  cases l with
  | call n c =>
    cases h
    exact .call n c
  | run t =>
    obtain ⟨th, hth, hrun⟩ := Option.bind_eq_some_iff.mp h
    exact moves_of_runThread hth hrun
  | cancel t err =>
    obtain ⟨th, hth, hrun⟩ := Option.bind_eq_some_iff.mp h
    exact moves_of_cancelThread hth hrun
  | commit i =>
    obtain ⟨e, he, rfl⟩ := Option.map_eq_some_iff.mp h
    exact .commit he
  | drop i =>
    obtain ⟨e, he, rfl⟩ := Option.map_eq_some_iff.mp h
    exact .drop he
  | apply n =>
    rw [step] at h
    split at h
    · next hloop =>
      obtain ⟨e, he, rfl⟩ := Option.map_eq_some_iff.mp h
      exact .apply hloop he
    · cases h
  | tick seconds =>
    cases h
    exact .tick seconds
  | shutdown n =>
    cases h
    exact .shutdown n
  | restart n =>
    cases h
    exact .restart n
  | snapshot n =>
    cases h
    exact .snapshot n
  | install n m =>
    simp only [step] at h
    split at h
    · cases h
    · next snap hsnap =>
      split at h
      · next hnew =>
        cases h
        exact .install hsnap hnew.2
      · cases h

end Cluster

end Cassem.KV
