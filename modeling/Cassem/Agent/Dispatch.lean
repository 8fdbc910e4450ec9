import Cassem.Agent.GetElement
import Cassem.Lib.Chan
import Cassem.Lib.Transition

/-!
# Elements that are pushed through the agent

The public listener of an agent serves `GetElement` and `Watch`, which ask for a token, and
`Dispatch` and `Unregister`, which do not. What `Dispatch` carries goes to the streams that watch
the key it names, and from there into the cache.
-/

namespace Cassem.Agent

open Lib Cassem.Concept Cassem.Coord

/-! ## The pool of instances -/

/-- `ch` is the address of the channel. -/
structure InstanceNode where
  ch : Nat
  watchingSetKeys : List String
  deriving DecidableEq, Repr

/-- A key without an entry in `watchingSet` has no instances. -/
structure InstancePool where
  instances : String → Option InstanceNode := fun _ => none
  watchingSet : String → List String := fun _ => []

def genWatchingKey (app env key : String) : String := "-".intercalate [app, env, key]

namespace InstancePool

/-- The address is for the channel of a new node. A node that exists keeps its channel and the
keys it was made with. -/
def register (p : InstancePool) (insId : String) (keys : List String) (ch : Nat) :
    InstancePool × Nat :=
  let node := (p.instances insId).getD ⟨ch, keys⟩
  let watchingSet := keys.foldl (fun watchingSet key =>
    Function.update watchingSet key
      (if insId ∈ watchingSet key then watchingSet key else watchingSet key ++ [insId])) p.watchingSet
  (⟨Function.update p.instances insId (some node), watchingSet⟩, node.ch)

/-- The pool without the instance, and the channel that is closed. -/
def unregister (p : InstancePool) (insId : String) : InstancePool × Option Nat :=
  match p.instances insId with
  | none => (p, none)
  | some node =>
      let watchingSet := node.watchingSetKeys.foldl (fun watchingSet key =>
        Function.update watchingSet key ((watchingSet key).filter (· ≠ insId))) p.watchingSet
      (⟨Function.update p.instances insId none, watchingSet⟩, some node.ch)

def ListWatchingInstances (p : InstancePool) (app env key : String) : List String :=
  p.watchingSet (genWatchingKey app env key)

end InstancePool

/-- `InstanceID`, of a client id and an address. -/
def InstanceID (clientId clientIp : String) : String :=
  if clientId = "" then "cassem@" ++ clientIp else clientId ++ "@" ++ clientIp

/-! ## Requests -/

structure Watching where
  App : String
  Env : String
  WatchKeys : List String
  deriving DecidableEq, Repr

structure WatchReq where
  Watching : List Watching
  ClientId : String
  ClientIp : String
  deriving DecidableEq, Repr

/-- What the validator takes for an IP address, and how it reports a violation. -/
structure Validator where
  ip : String → Bool
  violation : WatchReq → String

def Validator.client (v : Validator) (clientId clientIp : String) : Bool :=
  5 ≤ clientId.length && clientId.length ≤ 64 && v.ip clientIp

def Watching.valid (w : Watching) : Bool :=
  Adm.isIdentifier w.App && Adm.isIdentifier w.Env && w.WatchKeys.all Adm.isIdentifier

def Validator.watch (v : Validator) (req : WatchReq) : Bool :=
  v.client req.ClientId req.ClientIp && req.Watching.all Watching.valid

/-- The rules for the elements of a `DispatchReq`: its own fields have none. -/
def validElem (elem : Element) : Bool :=
  match elem.Metadata with
  | none => true
  | some md => Adm.isIdentifier md.Key && Adm.isIdentifier md.App && Adm.isIdentifier md.Env

def WatchReq.targets (req : WatchReq) : List TokenTarget :=
  req.Watching.map fun w => ⟨w.App, w.Env⟩

def WatchReq.allowed (req : WatchReq) (app env key : String) : Bool :=
  req.Watching.any fun w => w.App = app && w.Env = env && w.WatchKeys.contains key

/-- `elem.GetMetadata().GetApp()`. -/
def metadataAppOf (elem : Element) : String := (elem.Metadata.map (·.App)).getD ""

def metadataEnvOf (elem : Element) : String := (elem.Metadata.map (·.Env)).getD ""

/-! ## The goroutines of the listener -/

/-- Where a call of `Watch` stands. Before it has registered anything its channel is one that
nobody sends on. -/
inductive WatchPc where
  | registering (rest : List Watching) (ch : Option Nat)
  | renewing (ch : Option Nat)
  | streaming (ch : Option Nat)
  | leaving (err : Option GoError)
  | ended (err : Option GoError)

structure WatchCall where
  authorization : List String
  req : WatchReq
  pc : WatchPc

def WatchCall.insId (w : WatchCall) : String := InstanceID w.req.ClientId w.req.ClientIp

/-- The goroutine of a `Dispatch`: the elements it has not come to, and the one it is at with the
instances it has still to notify. -/
structure Dispatching where
  elems : List Element
  targets : List String
  notifying : Option (Element × List String)

/-- An element as it is given out, for one app, environment and key. -/
structure Given where
  app : String
  env : String
  key : String
  elem : Element
  deriving DecidableEq, Repr

/-- The agent and the KV store. Of its history: the stores that there have been, the elements that
calls of `Dispatch` have carried, and the elements that were sent on streams or served from the
cache. -/
structure Listener where
  agent : AgentApp
  kv : KVState := fun _ => none
  cache : AppPool
  pool : InstancePool := {}
  chans : Nat → Chan Element := fun _ => { cap := 10 }
  made : Nat := 0
  watches : List WatchCall := []
  dispatches : List Dispatching := []
  updates : List (String × String × Element) := []
  stores : List KVState := [fun _ => none]
  dispatched : List Element := []
  given : List Given := []

namespace Listener

/-- What a caller, or a goroutine, does next. `Register` and `Renew` write records of instances,
which nothing here reads. The HTTP front end asks `GetElement`. -/
inductive Step where
  | write (n : ElementName) (c : Coord.Call)
  | setAuthorizer (authorizer : Option (String → List TokenTarget → Option GoError))
  | GetElement (now : String → Int) (authorization : List String) (req : GetElementReq)
  | updateCache (k : Nat) (now : Int)
  | Dispatch (elems : List Element) (instanceIds : List String)
  | list (k : Nat) (insIds : List String)
  | notify (k : Nat)
  | Unregister (clientId clientIp : String)
  | Watch (authorization : List String) (req : WatchReq)
  | register (k : Nat)
  | renew (k : Nat) (err : Option GoError)
  | receive (k : Nat) (sendErr : Option GoError)
  | quit (k : Nat)
  | unregister (k : Nat)

def setWatch (s : Listener) (k : Nat) (w : WatchCall) (pc : WatchPc) : Listener :=
  { s with watches := s.watches.set k { w with pc := pc } }

/-- `Unregister` of the pool. -/
def unregisterInstance (s : Listener) (insId : String) : Listener :=
  let (pool, closed) := s.pool.unregister insId
  match closed with
  | none => { s with pool := pool }
  | some ch => { s with pool := pool, chans := Function.update s.chans ch (s.chans ch).close }

/-- `Notify`: the send has a default branch. -/
def push (s : Listener) (insId : String) (elem : Element) : Listener :=
  match s.pool.instances insId with
  | none => s
  | some node => { s with chans := Function.update s.chans node.ch ((s.chans node.ch).offer elem) }

/-- What a request is served from the cache. -/
def servedFromCache (cache : AppPool) (now : String → Int) (req : GetElementReq) : List Given :=
  req.Keys.filterMap fun key =>
    (copyOf cache now req key).map fun elem => ⟨req.App, req.Env, key, elem⟩

variable (md5 : KV.Bytes → String) (v : Validator)

def step (s : Listener) : Step → Option Listener
  | .write n c =>
      if n.Valid then
        let kv := (Program.run serveKV s.kv (c.program md5 n.app n.env n.key)).1
        some { s with kv := kv, stores := kv :: s.stores }
      else none
  | .setAuthorizer authorizer => some { s with agent := { s.agent with authorizer := authorizer } }
  | .GetElement now authorization req =>
      let answer := s.agent.GetElement s.kv now s.cache authorization req
      let served :=
        match answer.resp with
        | .ok _ => servedFromCache s.cache now req
        | .error _ => []
      some { s with
        cache := answer.cache
        updates := s.updates ++ answer.refresh.map fun elem => (req.App, req.Env, elem)
        given := s.given ++ served }
  | .updateCache k now =>
      match s.updates[k]? with
      | some (app, env, elem) =>
          (s.cache.Set now app env (metadataKeyOf elem) elem).map fun cache =>
            { s with cache := cache, updates := s.updates.eraseIdx k }
      | none => none
  | .Dispatch elems instanceIds =>
      if elems.all validElem then
        some { s with
          dispatches := s.dispatches ++ [⟨elems, instanceIds, none⟩]
          dispatched := s.dispatched ++ elems }
      else some s
  | .list k insIds =>
      match s.dispatches[k]? with
      | some ⟨elem :: elems, targets, none⟩ =>
          let watching := s.pool.ListWatchingInstances (metadataAppOf elem) (metadataEnvOf elem)
            (metadataKeyOf elem)
          if insIds.Perm watching then
            let insIds := if targets = [] then insIds else insIds.filter (· ∈ targets)
            some { s with dispatches := s.dispatches.set k ⟨elems, targets, some (elem, insIds)⟩ }
          else none
      | _ => none
  | .notify k =>
      match s.dispatches[k]? with
      | some ⟨elems, targets, some (elem, insId :: insIds)⟩ =>
          some { s.push insId elem with
            dispatches := s.dispatches.set k ⟨elems, targets, some (elem, insIds)⟩ }
      | some ⟨elems, targets, some (_, [])⟩ =>
          some { s with dispatches := s.dispatches.set k ⟨elems, targets, none⟩ }
      | _ => none
  | .Unregister clientId clientIp =>
      if v.client clientId clientIp then some (s.unregisterInstance (InstanceID clientId clientIp))
      else some s
  | .Watch authorization req =>
      let pc : WatchPc :=
        if v.watch req = false then .ended (some (.concept ⟨.invalidArgument, v.violation req⟩))
        else
          match s.agent.authorize authorization req.targets with
          | some err => .ended (some err)
          | none => .registering req.Watching none
      some { s with watches := s.watches ++ [⟨authorization, req, pc⟩] }
  | .register k =>
      match s.watches[k]? with
      | some w =>
          match w.pc with
          | .registering [] ch => some (s.setWatch k w (.renewing ch))
          | .registering (watching :: rest) _ =>
              let keys := watching.WatchKeys.map (genWatchingKey watching.App watching.Env)
              let (pool, ch) := s.pool.register w.insId keys s.made
              some { s.setWatch k w (.registering rest (some ch)) with
                pool := pool, made := s.made + 1 }
          | _ => none
      | none => none
  | .renew k err =>
      match s.watches[k]? with
      | some w =>
          match w.pc with
          | .renewing ch =>
              match err with
              | none => some (s.setWatch k w (.streaming ch))
              | some err => some (s.setWatch k w (.leaving (some err)))
          | _ => none
      | none => none
  | .receive k sendErr =>
      match s.watches[k]? with
      | some w =>
          match w.pc with
          | .streaming (some ch) =>
              match (s.chans ch).take with
              | none => if (s.chans ch).closed then some (s.setWatch k w (.leaving none)) else none
              | some (elem, c) =>
                  let s := { s with chans := Function.update s.chans ch c }
                  let (app, env, key) := (metadataAppOf elem, metadataEnvOf elem, metadataKeyOf elem)
                  if w.req.allowed app env key = false then some s
                  else
                    match s.agent.authorize w.authorization w.req.targets with
                    | some err => some (s.setWatch k w (.leaving (some err)))
                    | none =>
                        let s := { s with updates := s.updates ++ [(app, env, elem)] }
                        match sendErr with
                        | some err =>
                            some (s.setWatch k w (.leaving (some (.errorf "app.Watch.send: " err))))
                        | none => some { s with given := s.given ++ [⟨app, env, key, elem⟩] }
          | _ => none
      | none => none
  | .quit k =>
      match s.watches[k]? with
      | some w =>
          match w.pc with
          | .streaming _ => some (s.setWatch k w (.leaving none))
          | _ => none
      | none => none
  | .unregister k =>
      match s.watches[k]? with
      | some w =>
          match w.pc with
          | .leaving err => some ((s.unregisterInstance w.insId).setWatch k w (.ended err))
          | _ => none
      | none => none

/-- A version of app/env/key that some store has had, or what a `Dispatch` has carried under that
name. -/
def Known (stores : List KVState) (dispatched : List Element) (app env key : String)
    (elem : Element) : Prop :=
  (∃ kv ∈ stores, VersionOf kv app env key elem) ∨
    elem ∈ dispatched ∧ metadataAppOf elem = app ∧ metadataEnvOf elem = env ∧ metadataKeyOf elem = key

/-- Every element given out is known. -/
def Accounted (s : Listener) : Prop :=
  ∀ g ∈ s.given, Known s.stores s.dispatched g.app g.env g.key g.elem

variable {md5 v}

/-! ## What a step does -/

variable (md5 v) in
/-- The outcomes of each step: what it needs and what it leaves. -/
inductive Effect (s : Listener) : Step → Listener → Prop
  | write {n : ElementName} {c : Coord.Call} {kv : KVState} (hn : n.Valid)
      (hkv : kv = (Program.run serveKV s.kv (c.program md5 n.app n.env n.key)).1) :
      Effect s (.write n c) { s with kv := kv, stores := kv :: s.stores }
  | setAuthorizer (authorizer : Option (String → List TokenTarget → Option GoError)) :
      Effect s (.setAuthorizer authorizer)
        { s with agent := { s.agent with authorizer := authorizer } }
  | GetElement {now : String → Int} {authorization : List String} {req : GetElementReq}
      {served : List Given} (hserved : served ⊆ servedFromCache s.cache now req) :
      Effect s (.GetElement now authorization req) { s with
        cache := (s.agent.GetElement s.kv now s.cache authorization req).cache
        updates := s.updates ++ (s.agent.GetElement s.kv now s.cache authorization req).refresh.map
          fun elem => (req.App, req.Env, elem)
        given := s.given ++ served }
  | updateCache {k : Nat} {now : Int} {app env : String} {elem : Element} {cache : AppPool}
      (hk : s.updates[k]? = some (app, env, elem))
      (hset : s.cache.Set now app env (metadataKeyOf elem) elem = some cache) :
      Effect s (.updateCache k now) { s with cache := cache, updates := s.updates.eraseIdx k }
  | dispatch (elems : List Element) (targets : List String) :
      Effect s (.Dispatch elems targets) { s with
        dispatches := s.dispatches ++ [⟨elems, targets, none⟩]
        dispatched := s.dispatched ++ elems }
  | dispatchRefused (elems : List Element) (targets : List String) :
      Effect s (.Dispatch elems targets) s
  | list {k : Nat} {insIds targets : List String} {elem : Element} {elems : List Element}
      (insIds' : List String) (hk : s.dispatches[k]? = some ⟨elem :: elems, targets, none⟩) :
      Effect s (.list k insIds)
        { s with dispatches := s.dispatches.set k ⟨elems, targets, some (elem, insIds')⟩ }
  | notify {k : Nat} {elems : List Element} {targets : List String} {elem : Element}
      {insId : String} {insIds : List String}
      (hk : s.dispatches[k]? = some ⟨elems, targets, some (elem, insId :: insIds)⟩) :
      Effect s (.notify k) { s.push insId elem with
        dispatches := s.dispatches.set k ⟨elems, targets, some (elem, insIds)⟩ }
  | notified {k : Nat} {elems : List Element} {targets : List String} {elem : Element}
      (hk : s.dispatches[k]? = some ⟨elems, targets, some (elem, [])⟩) :
      Effect s (.notify k) { s with dispatches := s.dispatches.set k ⟨elems, targets, none⟩ }
  | Unregister {clientId clientIp : String} (hvalid : v.client clientId clientIp = true) :
      Effect s (.Unregister clientId clientIp) (s.unregisterInstance (InstanceID clientId clientIp))
  | unregisterRefused {clientId clientIp : String} (hinvalid : ¬ v.client clientId clientIp = true) :
      Effect s (.Unregister clientId clientIp) s
  | Watch {authorization : List String} {req : WatchReq} {pc : WatchPc}
      (hpc : pc = .registering req.Watching none ∨ ∃ err, pc = .ended err) :
      Effect s (.Watch authorization req)
        { s with watches := s.watches ++ [⟨authorization, req, pc⟩] }
  | register {k : Nat} {w : WatchCall} {watching : Watching} {rest : List Watching}
      {ch : Option Nat} (hk : s.watches[k]? = some w)
      (hpc : w.pc = .registering (watching :: rest) ch) :
      Effect s (.register k) { s.setWatch k w (.registering rest (some (s.pool.register w.insId
          (watching.WatchKeys.map (genWatchingKey watching.App watching.Env)) s.made).2)) with
        pool := (s.pool.register w.insId
          (watching.WatchKeys.map (genWatchingKey watching.App watching.Env)) s.made).1
        made := s.made + 1 }
  | registered {k : Nat} {w : WatchCall} {ch : Option Nat} (hk : s.watches[k]? = some w)
      (hpc : w.pc = .registering [] ch) :
      Effect s (.register k) (s.setWatch k w (.renewing ch))
  | renew {k : Nat} {w : WatchCall} {ch : Option Nat} (hk : s.watches[k]? = some w)
      (hpc : w.pc = .renewing ch) : Effect s (.renew k none) (s.setWatch k w (.streaming ch))
  | renewFailed {k : Nat} {w : WatchCall} (err : GoError) (hk : s.watches[k]? = some w) :
      Effect s (.renew k (some err)) (s.setWatch k w (.leaving (some err)))
  | closed {k : Nat} {w : WatchCall} (sendErr : Option GoError) (hk : s.watches[k]? = some w) :
      Effect s (.receive k sendErr) (s.setWatch k w (.leaving none))
  | skipped {k ch : Nat} {elem : Element} {c : Chan Element} (sendErr : Option GoError)
      (htake : (s.chans ch).take = some (elem, c)) :
      Effect s (.receive k sendErr) { s with chans := Function.update s.chans ch c }
  | dropped {k ch : Nat} {w : WatchCall} {elem : Element} {c : Chan Element}
      (sendErr : Option GoError) (err : GoError) (hk : s.watches[k]? = some w)
      (htake : (s.chans ch).take = some (elem, c)) :
      Effect s (.receive k sendErr)
        ({ s with chans := Function.update s.chans ch c }.setWatch k w (.leaving (some err)))
  | sendFailed {k ch : Nat} {w : WatchCall} {elem : Element} {c : Chan Element} (err : GoError)
      (hk : s.watches[k]? = some w) (htake : (s.chans ch).take = some (elem, c)) :
      Effect s (.receive k (some err)) ({ s with
        chans := Function.update s.chans ch c
        updates := s.updates ++ [(metadataAppOf elem, metadataEnvOf elem, elem)] }.setWatch k w
          (.leaving (some (.errorf "app.Watch.send: " err))))
  | sent {k ch : Nat} {elem : Element} {c : Chan Element}
      (htake : (s.chans ch).take = some (elem, c)) :
      Effect s (.receive k none) { s with
        chans := Function.update s.chans ch c
        updates := s.updates ++ [(metadataAppOf elem, metadataEnvOf elem, elem)]
        given := s.given ++ [⟨metadataAppOf elem, metadataEnvOf elem, metadataKeyOf elem, elem⟩] }
  | quit {k : Nat} {w : WatchCall} (hk : s.watches[k]? = some w) :
      Effect s (.quit k) (s.setWatch k w (.leaving none))
  | unregister {k : Nat} {w : WatchCall} {err : Option GoError} (hk : s.watches[k]? = some w)
      (hpc : w.pc = .leaving err) :
      Effect s (.unregister k) ((s.unregisterInstance w.insId).setWatch k w (.ended err))

theorem step_effect {s s' : Listener} {l : Step} (hs : step md5 v s l = some s') :
    Effect md5 v s l s' := by
  cases l with
  | write n c =>
    dsimp only [step] at hs
    split at hs <;> cases hs
    next hn => exact .write hn rfl
  | setAuthorizer authorizer =>
    cases hs
    exact .setAuthorizer authorizer
  | GetElement now authorization req =>
    cases hs
    refine .GetElement ?_
    split
    · exact List.Subset.refl _
    · exact List.nil_subset _
  | updateCache k now =>
    dsimp only [step] at hs
    split at hs
    · next app env elem hk =>
      obtain ⟨cache, hset, rfl⟩ := Option.map_eq_some_iff.mp hs
      exact .updateCache hk hset
    · cases hs
  | Dispatch elems instanceIds =>
    dsimp only [step] at hs
    split at hs <;> cases hs
    · exact .dispatch elems instanceIds
    · exact .dispatchRefused elems instanceIds
  | list k insIds =>
    dsimp only [step] at hs
    split at hs
    · next elem elems targets hk =>
      split at hs <;> cases hs
      exact .list _ hk
    · cases hs
  | notify k =>
    dsimp only [step] at hs
    split at hs <;> cases hs
    · next hk => exact .notify hk
    · next hk => exact .notified hk
  | Unregister clientId clientIp =>
    dsimp only [step] at hs
    split at hs <;> cases hs
    · next hvalid => exact .Unregister hvalid
    · next hinvalid => exact .unregisterRefused hinvalid
  | Watch authorization req =>
    cases hs
    refine .Watch ?_
    split
    · exact .inr ⟨_, rfl⟩
    · split
      · exact .inr ⟨_, rfl⟩
      · exact .inl rfl
  | register k =>
    dsimp only [step] at hs
    split at hs
    · next w hk =>
      split at hs <;> cases hs
      · next hpc => exact .registered hk hpc
      · next hpc => exact .register hk hpc
    · cases hs
  | renew k err =>
    dsimp only [step] at hs
    split at hs
    · next w hk =>
      split at hs
      · next ch hpc =>
        split at hs <;> cases hs
        · exact .renew hk hpc
        · exact .renewFailed _ hk
      · cases hs
    · cases hs
  | receive k sendErr =>
    dsimp only [step] at hs
    split at hs
    · next w hk =>
      split at hs
      · next ch hpc =>
        split at hs
        · split at hs <;> cases hs
          exact .closed sendErr hk
        · next elem c htake =>
          split at hs
          · cases hs
            exact .skipped sendErr htake
          · split at hs
            · cases hs
              exact .dropped sendErr _ hk htake
            · split at hs <;> cases hs
              · exact .sendFailed _ hk htake
              · exact .sent htake
      · cases hs
    · cases hs
  | quit k =>
    dsimp only [step] at hs
    split at hs
    · next w hk =>
      split at hs <;> cases hs
      exact .quit hk
    · cases hs
  | unregister k =>
    dsimp only [step] at hs
    split at hs
    · next w hk =>
      split at hs <;> cases hs
      next hpc => exact .unregister hk hpc
    · cases hs

theorem push_eq (s : Listener) (insId : String) (elem : Element) :
    s.push insId elem = { s with chans := (s.push insId elem).chans } := by
  unfold push
  split <;> rfl

theorem unregisterInstance_eq (s : Listener) (insId : String) :
    s.unregisterInstance insId = { s with
      pool := (s.pool.unregister insId).1, chans := (s.unregisterInstance insId).chans } := by
  unfold unregisterInstance
  dsimp only
  split <;> rfl

/-! ## Where elements come from -/

theorem Known.mono {stores stores' : List KVState} {dispatched dispatched' : List Element}
    (hstores : stores ⊆ stores') (hdispatched : dispatched ⊆ dispatched')
    {app env key : String} {elem : Element} (h : Known stores dispatched app env key elem) :
    Known stores' dispatched' app env key elem :=
  h.imp (fun ⟨kv, hkv, hof⟩ => ⟨kv, hstores hkv, hof⟩) fun ⟨hmem, hnamed⟩ =>
    ⟨hdispatched hmem, hnamed⟩

/-- The elements that the goroutine of a `Dispatch` has still to do with. -/
def Dispatching.Holds (d : Dispatching) (elem : Element) : Prop :=
  elem ∈ d.elems ∨ ∃ insIds, d.notifying = some (elem, insIds)

variable (md5) in
structure Sound (s : Listener) : Prop where
  kv : Reachable md5 s.kv
  current : s.kv ∈ s.stores
  cache : s.cache.All (Known s.stores s.dispatched)
  updates : ∀ u ∈ s.updates,
    Known s.stores s.dispatched u.1 u.2.1 (metadataKeyOf u.2.2) u.2.2
  pushed : ∀ ch, ∀ elem ∈ (s.chans ch).waiting, elem ∈ s.dispatched
  dispatching : ∀ d ∈ s.dispatches, ∀ elem, Dispatching.Holds d elem → elem ∈ s.dispatched
  given : s.Accounted

theorem queryFromCache_all {P : String → String → String → Element → Prop} (now : String → Int)
    {cache : AppPool} (h : cache.All P) (app env : String) (keys : List String) :
    (queryFromCache now cache app env keys).2.All P := by
  induction keys generalizing cache with
  | nil => exact h
  | cons key keys ih =>
    have hlooked : (cache.Query (now key) app env key).2.All P := h.Query
    have hrest := ih hlooked
    unfold queryFromCache
    dsimp only
    split <;> exact hrest

theorem GetElement_cache {P : String → String → String → Element → Prop} {d : AgentApp}
    {kv : KVState} {now : String → Int} {cache : AppPool} (h : cache.All P)
    (authorization : List String) (req : GetElementReq) :
    (d.GetElement kv now cache authorization req).cache.All P := by
  have hquery := queryFromCache_all now h req.App req.Env req.Keys
  unfold AgentApp.GetElement
  split
  · exact h
  · split
    · exact h
    · dsimp only
      split
      · exact hquery
      · split <;> exact hquery

theorem mem_servedFromCache {cache : AppPool} {now : String → Int} {req : GetElementReq} {g : Given}
    (h : g ∈ servedFromCache cache now req) :
    ∃ key ∈ req.Keys, copyOf cache now req key = some g.elem ∧
      g.app = req.App ∧ g.env = req.Env ∧ g.key = key := by
  obtain ⟨key, hkey, hg⟩ := List.mem_filterMap.mp h
  obtain ⟨elem, hcopy, rfl⟩ := Option.map_eq_some_iff.mp hg
  exact ⟨key, hkey, hcopy, rfl, rfl, rfl⟩

/-- A step that gives nothing out and moves no element. -/
theorem Sound.unmoved {s s' : Listener} (h : Sound md5 s) (hkv : s'.kv = s.kv)
    (hcache : s'.cache = s.cache) (hupdates : s'.updates = s.updates)
    (hchans : ∀ ch, ∀ elem ∈ (s'.chans ch).waiting, elem ∈ (s.chans ch).waiting)
    (hdispatches : s'.dispatches = s.dispatches) (hstores : s'.stores = s.stores)
    (hdispatched : s'.dispatched = s.dispatched) (hgiven : s'.given = s.given) : Sound md5 s' where
  kv := hkv ▸ h.kv
  current := hkv ▸ hstores ▸ h.current
  cache := hcache ▸ hstores ▸ hdispatched ▸ h.cache
  updates := hupdates ▸ hstores ▸ hdispatched ▸ h.updates
  pushed ch elem helem := hdispatched ▸ h.pushed ch elem (hchans ch elem helem)
  dispatching := hdispatches ▸ hdispatched ▸ h.dispatching
  given := by
    unfold Accounted
    rw [hgiven, hstores, hdispatched]
    exact h.given

/-- More stores and more dispatched elements take nothing away. -/
theorem Sound.grown {s : Listener} (h : Sound md5 s) {kv : KVState} {stores : List KVState}
    {dispatched : List Element} {dispatches : List Dispatching} (hkv : Reachable md5 kv)
    (hcurrent : kv ∈ stores) (hstores : s.stores ⊆ stores) (hdispatched : s.dispatched ⊆ dispatched)
    (hdispatches : ∀ d ∈ dispatches, ∀ elem, Dispatching.Holds d elem → elem ∈ dispatched) :
    Sound md5 { s with
      kv := kv, stores := stores, dispatched := dispatched, dispatches := dispatches } where
  kv := hkv
  current := hcurrent
  cache := h.cache.mono fun _ _ _ _ hknown => hknown.mono hstores hdispatched
  updates u hu := (h.updates u hu).mono hstores hdispatched
  pushed ch elem helem := hdispatched (h.pushed ch elem helem)
  dispatching := hdispatches
  given g hg := (h.given g hg).mono hstores hdispatched

/-- Closing the channel of an instance takes nothing out of it. -/
theorem unregisterInstance_waiting (s : Listener) (insId : String) (ch : Nat) :
    ((s.unregisterInstance insId).chans ch).waiting = (s.chans ch).waiting := by
  unfold unregisterInstance
  dsimp only
  split
  · rfl
  · next closed _ =>
    show (Function.update s.chans closed (s.chans closed).close ch).waiting = _
    by_cases hch : ch = closed
    · rw [hch, Function.update_self]
      rfl
    · rw [Function.update_of_ne hch]

theorem Sound.unregisterInstance {s : Listener} (h : Sound md5 s) (insId : String) :
    Sound md5 (s.unregisterInstance insId) := by
  have hwaiting := unregisterInstance_waiting s insId
  rw [unregisterInstance_eq]
  exact h.unmoved rfl rfl rfl (fun ch elem helem => hwaiting ch ▸ helem) rfl rfl rfl rfl

theorem Sound.setWatch {s : Listener} (h : Sound md5 s) (k : Nat) (w : WatchCall) (pc : WatchPc) :
    Sound md5 (s.setWatch k w pc) :=
  h.unmoved rfl rfl rfl (fun _ _ helem => helem) rfl rfl rfl rfl

/-- A dispatched element is sent to an instance. -/
theorem Sound.push {s : Listener} (h : Sound md5 s) (insId : String) {elem : Element}
    (helem : elem ∈ s.dispatched) : Sound md5 (s.push insId elem) := by
  unfold Listener.push
  split
  · exact h
  · next node _ =>
    refine ⟨h.kv, h.current, h.cache, h.updates, fun ch e he => ?_, h.dispatching, h.given⟩
    change e ∈ (Function.update s.chans node.ch ((s.chans node.ch).offer elem) ch).waiting at he
    by_cases hch : ch = node.ch
    · rw [hch, Function.update_self] at he
      unfold Chan.offer at he
      split at he
      · rcases List.mem_append.mp he with he | he
        · exact h.pushed node.ch e he
        · exact List.mem_singleton.mp he ▸ helem
      · exact h.pushed node.ch e he
    · rw [Function.update_of_ne hch] at he
      exact h.pushed ch e he

theorem Sound.pushed_of_take {s : Listener} (h : Sound md5 s) {ch : Nat} {elem : Element}
    {c : Chan Element} (htake : (s.chans ch).take = some (elem, c)) : elem ∈ s.dispatched := by
  refine h.pushed ch elem ?_
  rw [(Chan.take_eq_some htake).1]
  exact List.mem_cons_self

/-- A stream takes an element from its channel. -/
theorem Sound.took {s : Listener} (h : Sound md5 s) {ch : Nat} {elem : Element}
    {c : Chan Element} (htake : (s.chans ch).take = some (elem, c)) :
    Sound md5 { s with chans := Function.update s.chans ch c } := by
  refine h.unmoved rfl rfl rfl (fun ch' e he => ?_) rfl rfl rfl rfl
  change e ∈ (Function.update s.chans ch c ch').waiting at he
  by_cases hch : ch' = ch
  · rw [hch, Function.update_self] at he
    rw [hch, (Chan.take_eq_some htake).1]
    exact List.mem_cons_of_mem _ he
  · rw [Function.update_of_ne hch] at he
    exact he

/-- The goroutine of a `Dispatch` goes on. -/
theorem Sound.setDispatch {s : Listener} (h : Sound md5 s) (k : Nat) {d d' : Dispatching}
    (hk : s.dispatches[k]? = some d)
    (hd : ∀ elem, Dispatching.Holds d' elem → Dispatching.Holds d elem) :
    Sound md5 { s with dispatches := s.dispatches.set k d' } := by
  refine ⟨h.kv, h.current, h.cache, h.updates, h.pushed, fun e he elem hheld => ?_, h.given⟩
  rcases List.mem_or_eq_of_mem_set he with he | rfl
  · exact h.dispatching e he elem hheld
  · exact h.dispatching d (List.mem_of_getElem? hk) elem (hd elem hheld)

theorem Sound.updated {s : Listener} (h : Sound md5 s) (updates : List (String × String × Element))
    (hupdates : ∀ u ∈ updates, Known s.stores s.dispatched u.1 u.2.1 (metadataKeyOf u.2.2) u.2.2) :
    Sound md5 { s with updates := s.updates ++ updates } := by
  refine ⟨h.kv, h.current, h.cache, fun u hu => ?_, h.pushed, h.dispatching, h.given⟩
  exact (List.mem_append.mp hu).elim (h.updates u) (hupdates u)

/-- A stream's own goroutine updates the cache with what it took, whether or not the send
succeeds. -/
theorem Sound.received {s : Listener} (h : Sound md5 s) {ch : Nat} {elem : Element}
    {c : Chan Element} (htake : (s.chans ch).take = some (elem, c)) : Sound md5 { s with
      chans := Function.update s.chans ch c
      updates := s.updates ++ [(metadataAppOf elem, metadataEnvOf elem, elem)] } := by
  refine (h.took htake).updated [(metadataAppOf elem, metadataEnvOf elem, elem)] fun u hu => ?_
  rw [List.mem_singleton.mp hu]
  exact .inr ⟨h.pushed_of_take htake, rfl, rfl, rfl⟩

theorem Sound.gave {s : Listener} (h : Sound md5 s) {given : List Given}
    (hgiven : ∀ g ∈ given, Known s.stores s.dispatched g.app g.env g.key g.elem) :
    Sound md5 { s with given := s.given ++ given } := by
  refine ⟨h.kv, h.current, h.cache, h.updates, h.pushed, h.dispatching, fun g hg => ?_⟩
  exact (List.mem_append.mp hg).elim (h.given g) (hgiven g)

/-- What a request is served from the cache is known, and so is what the cache is then updated
with. -/
theorem sound_getElement {s : Listener} (h : Sound md5 s) (now : String → Int)
    (authorization : List String) (req : GetElementReq) {served : List Given}
    (hserved : served ⊆ servedFromCache s.cache now req) :
    Sound md5 { s with
      cache := (s.agent.GetElement s.kv now s.cache authorization req).cache
      updates := s.updates ++ (s.agent.GetElement s.kv now s.cache authorization req).refresh.map
        fun elem => (req.App, req.Env, elem)
      given := s.given ++ served } := by
  have hgave : Sound md5 { s with given := s.given ++ served } := by
    refine h.gave fun g hg => ?_
    obtain ⟨key, -, hcopy, happ, henv, hkey⟩ := mem_servedFromCache (hserved hg)
    rw [happ, henv, hkey]
    exact h.cache.Query_found hcopy
  have hupdated := hgave.updated
    ((s.agent.GetElement s.kv now s.cache authorization req).refresh.map
      fun elem => (req.App, req.Env, elem)) fun u hu => by
    obtain ⟨elem, helem, rfl⟩ := List.mem_map.mp hu
    obtain ⟨hreq, key, hkey, hshown⟩ := refresh_shown h.kv helem
    obtain ⟨hversion, hnamed⟩ := versionOf_shown h.kv hreq hkey hshown
    exact .inl ⟨s.kv, h.current, hnamed ▸ hversion⟩
  exact ⟨hupdated.kv, hupdated.current, GetElement_cache h.cache authorization req,
    hupdated.updates, hupdated.pushed, hupdated.dispatching, hupdated.given⟩

theorem sound_step {s s' : Listener} {l : Step} (h : Sound md5 s)
    (hs : step md5 v s l = some s') : Sound md5 s' := by
  cases step_effect hs with
  | write hn hkv =>
    subst hkv
    exact h.grown (.call h.kv hn _) List.mem_cons_self (List.subset_cons_self _ _)
      (List.Subset.refl _) h.dispatching
  | setAuthorizer authorizer =>
    exact h.unmoved rfl rfl rfl (fun _ _ helem => helem) rfl rfl rfl rfl
  | GetElement hserved => exact sound_getElement h _ _ _ hserved
  | updateCache hk hset =>
    have hknown := h.updates _ (List.mem_of_getElem? hk)
    exact ⟨h.kv, h.current, h.cache.Set hknown hset,
      fun u hu => h.updates u (List.mem_of_mem_eraseIdx hu), h.pushed, h.dispatching, h.given⟩
  | dispatch elems targets =>
    refine h.grown h.kv h.current (List.Subset.refl _) (List.subset_append_left _ _)
      fun d hd elem hheld => ?_
    rcases List.mem_append.mp hd with hd | hd
    · exact List.mem_append_left _ (h.dispatching d hd elem hheld)
    · rw [List.mem_singleton.mp hd] at hheld
      rcases hheld with helem | ⟨insIds, hnone⟩
      · exact List.mem_append_right _ helem
      · cases hnone
  | dispatchRefused elems targets => exact h
  | list insIds hk =>
    refine h.setDispatch _ hk fun e he => ?_
    rcases he with he | ⟨ids, he⟩
    · exact .inl (List.mem_cons_of_mem _ he)
    · cases he
      exact .inl List.mem_cons_self
  | @notify k elems targets elem insId insIds hk =>
    have helem := h.dispatching _ (List.mem_of_getElem? hk) elem (.inr ⟨_, rfl⟩)
    have hpushed : (s.push insId elem).dispatches = s.dispatches := by rw [push_eq]
    rw [← hpushed] at hk ⊢
    refine (h.push insId helem).setDispatch k hk fun e he => ?_
    rcases he with he | ⟨ids, he⟩
    · exact .inl he
    · cases he
      exact .inr ⟨_, rfl⟩
  | notified hk =>
    refine h.setDispatch _ hk fun e he => ?_
    rcases he with he | ⟨ids, he⟩
    · exact .inl he
    · cases he
  | Unregister hvalid => exact h.unregisterInstance _
  | unregisterRefused hinvalid => exact h
  | Watch hpc => exact h.unmoved rfl rfl rfl (fun _ _ helem => helem) rfl rfl rfl rfl
  | register hk hpc => exact h.unmoved rfl rfl rfl (fun _ _ helem => helem) rfl rfl rfl rfl
  | registered hk hpc => exact h.setWatch _ _ _
  | renew hk hpc => exact h.setWatch _ _ _
  | renewFailed err hk => exact h.setWatch _ _ _
  | closed sendErr hk => exact h.setWatch _ _ _
  | skipped sendErr htake => exact h.took htake
  | dropped sendErr err hk htake => exact (h.took htake).setWatch _ _ _
  | sendFailed err hk htake => exact (h.received htake).setWatch _ _ _
  | sent htake =>
    refine (h.received htake).gave fun g hg => ?_
    rw [List.mem_singleton.mp hg]
    exact .inr ⟨h.pushed_of_take htake, rfl, rfl, rfl⟩
  | quit hk => exact h.setWatch _ _ _
  | unregister hk hpc => exact (h.unregisterInstance _).setWatch _ _ _

/-! ## Runs -/

/-- The listener as the agent starts with it. -/
def started (agent : AgentApp) (cache : AppPool) : Listener := { agent := agent, cache := cache }

theorem sound_started (md5 : KV.Bytes → String) (agent : AgentApp) {size : Nat} {cache : AppPool}
    (hcache : NewCache size = some cache) : Sound md5 (started agent cache) where
  kv := .empty
  current := List.mem_singleton.mpr rfl
  cache := .new hcache
  updates _ hu := absurd hu List.not_mem_nil
  pushed _ _ helem := absurd helem List.not_mem_nil
  dispatching _ hd := absurd hd List.not_mem_nil
  given _ hg := absurd hg List.not_mem_nil

/-- What is given out is a version of its app, environment and key that some store has had. -/
def Stored (s : Listener) : Prop :=
  ∀ g ∈ s.given, ∃ kv ∈ s.stores, VersionOf kv g.app g.env g.key g.elem

/-- An element that is a version, under the name in its metadata, of some store so far. -/
def Genuine (stores : List KVState) (elem : Element) : Prop :=
  ∃ kv ∈ stores, VersionOf kv (metadataAppOf elem) (metadataEnvOf elem) (metadataKeyOf elem) elem

def GenuineDispatch (s : Listener) : Step → Prop
  | .Dispatch elems _ => ∀ elem ∈ elems, Genuine s.stores elem
  | _ => True

/-- Stores are only added, and elements that are dispatched only by `Dispatch`. -/
def Recorded (s : Listener) (l : Step) (s' : Listener) : Prop :=
  s.stores ⊆ s'.stores ∧ ∀ elem ∈ s'.dispatched,
    elem ∈ s.dispatched ∨ ∃ elems instanceIds, l = .Dispatch elems instanceIds ∧ elem ∈ elems

theorem recorded_of_eq {s s' : Listener} {l : Step} (hstores : s'.stores = s.stores)
    (hdispatched : s'.dispatched = s.dispatched) : Recorded s l s' :=
  ⟨hstores ▸ List.Subset.refl _, fun _ helem => .inl (hdispatched ▸ helem)⟩

theorem recorded_step {s s' : Listener} {l : Step} (hs : step md5 v s l = some s') :
    Recorded s l s' := by
  cases step_effect hs with
  | write hn hkv => exact ⟨List.subset_cons_self _ _, fun _ helem => .inl helem⟩
  | dispatch elems targets =>
    exact ⟨List.Subset.refl _, fun elem helem => (List.mem_append.mp helem).imp id fun helem =>
      ⟨elems, targets, rfl, helem⟩⟩
  | notify hk =>
    rw [push_eq]
    exact recorded_of_eq rfl rfl
  | Unregister hvalid =>
    rw [unregisterInstance_eq]
    exact recorded_of_eq rfl rfl
  | unregister hk hpc =>
    rw [unregisterInstance_eq]
    exact recorded_of_eq rfl rfl
  | _ => exact recorded_of_eq rfl rfl

/-- All that was dispatched is genuine. -/
def AllGenuine (s : Listener) : Prop := ∀ elem ∈ s.dispatched, Genuine s.stores elem

theorem allGenuine_step {s s' : Listener} {l : Step} (h : AllGenuine s) (hl : GenuineDispatch s l)
    (hs : step md5 v s l = some s') : AllGenuine s' := by
  obtain ⟨hstores, hdispatched⟩ := recorded_step hs
  intro elem helem
  have hgenuine : Genuine s.stores elem := by
    rcases hdispatched elem helem with helem | ⟨elems, instanceIds, rfl, helem⟩
    · exact h elem helem
    · exact hl elem helem
  obtain ⟨kv, hkv, hof⟩ := hgenuine
  exact ⟨kv, hstores hkv, hof⟩

theorem stored_of_genuine {s : Listener} (h : Accounted s) (hgenuine : AllGenuine s) : Stored s := by
  intro g hg
  rcases h g hg with hversion | ⟨helem, happ, henv, hkey⟩
  · exact hversion
  · rw [← happ, ← henv, ← hkey]
    exact hgenuine g.elem helem

/-- In a run whose dispatches are all genuine, what the agent gives out has been stored. -/
theorem stored_of_genuineDispatch (agent : AgentApp) {size : Nat} {cache : AppPool}
    (hcache : NewCache size = some cache) {ls : List Step}
    (h : Lib.Transition.EachStep (step md5 v) (fun s l _ => GenuineDispatch s l)
      (started agent cache) ls) :
    Lib.Transition.EachState (step md5 v) Stored (started agent cache) ls := by
  have hinv := Lib.Transition.eachState_of_eachStep (fun s => Sound md5 s ∧ AllGenuine s)
    (fun s l s' hs hl hstep => ⟨sound_step hs.1 hstep, allGenuine_step hs.2 hl hstep⟩)
    ⟨sound_started md5 agent hcache, fun _ helem => absurd helem List.not_mem_nil⟩ h
  exact hinv.mono fun s hs => stored_of_genuine hs.1.given hs.2

/-! ## A forged element, and a copy that is out of date -/

def openValidator : Validator := ⟨fun _ => true, fun _ => "invalid request"⟩

def watchConfig : WatchReq := ⟨[⟨"demo", "prod", ["config"]⟩], "client", "10.0.0.1"⟩

/-- An element that no call has written. -/
def forged : Element := ⟨[9], 1, true, some ⟨"config", "demo", "prod", 1, 0, 1, "", 1⟩⟩

/-- A stream with a token, and a `Dispatch` that needs none. -/
def forgedRun : List Step :=
  [.Watch ["Bearer t"] watchConfig, .register 0, .register 0, .renew 0 none,
    .Dispatch [forged] [], .list 0 ["client@10.0.0.1"], .notify 0, .receive 0 none]

def configName : ElementName := ⟨"demo", "prod", "config", by decide⟩

def configVersion : String := versionKey (joint ["cassem/elements", "demo", "prod", "config"]) 1

def draft : Element := ⟨[1], 1, false, some ⟨"config", "demo", "prod", 1, 1, 0, "", 1⟩⟩

def askConfig : Step := .GetElement (fun _ => 0) ["Bearer t"] ⟨"demo", "prod", ["config"]⟩

/-- A draft is asked for until it is in the cache, then it is published. -/
def staleRun : List Step :=
  [.write configName ⟨.create [1] 1, none, 3⟩, askConfig, .updateCache 0 0, askConfig,
    .updateCache 0 0, .write configName ⟨.publish 1, none, 4⟩, askConfig]

/-- Whatever callers with or without a token ask for, what the agent gives out is a version of
some store or was dispatched under the name it is given out for. -/
theorem accounted (md5 : KV.Bytes → String) (v : Validator) (agent : AgentApp) (size : Nat)
    (cache : AppPool) (hcache : NewCache size = some cache) (ls : List Step) :
    Lib.Transition.EachState (step md5 v) Accounted (started agent cache) ls :=
  (Lib.Transition.eachState_of_eachStep (Sound md5) (fun _ _ _ h _ hs => sound_step h hs)
    (sound_started md5 agent hcache) (Lib.Transition.eachStep_true _ ls)).mono fun _ h => h.given

theorem accounted_forgedRun :
    NewCache 1000 = some coldCache ∧
      Lib.Transition.EachState (step (fun _ => "") openValidator) Accounted
        (started openAgent coldCache) forgedRun :=
  ⟨rfl, accounted (fun _ => "") openValidator openAgent 1000 coldCache rfl forgedRun⟩

/-- An element that no call has written is sent on a stream, and the copy of a draft is served
when the store has the published version only. -/
theorem forged_given :
    (∃ s, Lib.Transition.run (step (fun _ => "") openValidator) (started openAgent coldCache)
        forgedRun = some s ∧ ¬ Stored s) ∧
      ∃ s, Lib.Transition.run (step (fun _ => "") openValidator) (started openAgent coldCache)
        staleRun = some s ∧ ∃ g ∈ s.given, ¬ VersionOf s.kv g.app g.env g.key g.elem := by
  constructor
  · have hrun : (Lib.Transition.run (step (fun _ => "") openValidator) (started openAgent coldCache)
        forgedRun).map (fun s => (s.given, s.stores.map fun kv => kv configVersion)) =
          some ([⟨"demo", "prod", "config", forged⟩], [none]) := by decide +kernel
    obtain ⟨s, hs, hend⟩ := Option.map_eq_some_iff.mp hrun
    obtain ⟨hgiven, hstores⟩ := Prod.mk.inj hend
    refine ⟨s, hs, fun hstored => ?_⟩
    obtain ⟨kv, hkv, ele, hele, -⟩ := hstored _ (hgiven ▸ List.mem_cons_self)
    have hmem : kv configVersion ∈ [none] := hstores ▸ List.mem_map_of_mem hkv
    exact Option.some_ne_none _ (hele.symm.trans (List.mem_singleton.mp hmem))
  · have hrun : (Lib.Transition.run (step (fun _ => "") openValidator) (started openAgent coldCache)
        staleRun).map (fun s => (s.given, s.kv configVersion)) =
          some ([⟨"demo", "prod", "config", draft⟩], some (.element ⟨[1], 1, true, none⟩)) := by
      decide +kernel
    obtain ⟨s, hs, hend⟩ := Option.map_eq_some_iff.mp hrun
    obtain ⟨hgiven, hkv⟩ := Prod.mk.inj hend
    refine ⟨s, hs, _, hgiven ▸ List.mem_cons_self, fun hof => ?_⟩
    obtain ⟨ele, hele, hdraft⟩ := hof
    cases hkv.symm.trans hele
    exact Bool.noConfusion (congrArg (fun elem : Element => elem.Published) hdraft)

end Listener

end Cassem.Agent
