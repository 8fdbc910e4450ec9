import Cassem.Agent.Dispatch
import Cassem.Lib.Chan
import Cassem.Lib.Transition

/-!
# The Go client

A client after `New` has registered it: the callers of `Watch` and `Close`, the goroutines that
receive from streams, the renew loop and the callbacks of caller contexts. They meet in one mutex;
what one of them does while it holds it is a single step, as is every read or call outside it.
-/

namespace Cassem.Sdk

open Lib
open Cassem.Agent (Watching WatchReq)

def ErrClosed : GoError := .text "cassem: client is closed"

def ErrWatchActive : GoError :=
  .text "cassem: client already has a watch; use a separate client with a unique ID"

structure BackgroundError where
  Operation : String
  App : String := ""
  Env : String := ""
  Err : GoError

structure RegisterReq where
  ClientId : String
  ClientIp : String
  Watching : List Watching := []
  deriving DecidableEq, Repr

/-! ## Where the goroutines stand -/

/-- A function given to `context.AfterFunc`: it waits for the context, runs, was stopped before
that, or has run. -/
inductive Callback where
  | armed
  | running
  | stopped
  | ran
  deriving DecidableEq, Repr

def Callback.fire : Callback → Callback
  | .armed => .running
  | c => c

def Callback.stop : Callback → Callback
  | .armed => .stopped
  | c => c

/-- A call of `Watch` and then its `receiveWatch`. -/
inductive WatchPc where
  | opening
  | failed (err : GoError)
  | receiving
  | handling
  | reporting (err : GoError)
  | ending
  | ended

/-- `cancelled` says that the context of the stream is. -/
structure WatchState where
  parent : Nat
  intent : Watching
  cancelled : Bool := false
  stopCancellation : Callback := .armed
  pc : WatchPc := .opening

namespace WatchState

/-- The stream has been asked for, and neither the request for it nor its receiver has ended. -/
def IsOpen (w : WatchState) : Prop :=
  match w.pc with
  | .failed _ | .ended => False
  | _ => True

def cancel (w : WatchState) : WatchState := { w with cancelled := true }

/-- `stopCancellation` and `cancel`. -/
def stop (w : WatchState) : WatchState :=
  { w with cancelled := true, stopCancellation := w.stopCancellation.stop }

def fire (ctx : Nat) (w : WatchState) : WatchState :=
  if w.parent = ctx then { w with stopCancellation := w.stopCancellation.fire } else w

end WatchState

/-- `renewLoop`, in its select or in `renewSelf`. -/
inductive RenewPc where
  | waiting
  | building
  | calling
  | reporting (err : GoError)
  | ended

/-- The function that `closeOnce` runs. -/
inductive ClosePc where
  | idle
  | waiting
  | unregistered
  | connClosed
  | finished
  deriving DecidableEq, Repr

/-- One call of `Close`. -/
inductive Closer where
  | waiting
  | returned (err : Option GoError)

/-- What has happened, for the order of it. A renewal is built with the watch whose intent it
carries, if there is one, and the context of that watch. -/
inductive Event where
  | watch (req : WatchReq)
  | watchReturned (err : Option GoError)
  | cancelled (ctx : Nat)
  | built (req : RegisterReq) (carried : Option (Nat × Nat))
  | sent (err : BackgroundError)
  | renewEnded
  | closeBegan
  | unregister
  | closedErrors

/-- The contexts of callers are known by numbers, and `ctxErr` is the `Err` of each. `ctxDone` is
that the client's own context is cancelled; the log has the last event first. -/
structure Client where
  clientID : String
  clientIP : String
  closed : Bool := false
  ctxDone : Bool := false
  ctxErr : Nat → Option GoError := fun _ => none
  watches : List WatchState := []
  watching : Option Nat := none
  renew : RenewPc := .waiting
  renewDone : Bool := false
  errors : Chan BackgroundError := { cap := 16 }
  close : ClosePc := .idle
  closeErr : Option GoError := none
  closers : List Closer := []
  log : List Event := []

namespace Client

def record (s : Client) (e : Event) : Client := { s with log := e :: s.log }

def setWatch (s : Client) (w : Nat) (ws : WatchState) : Client :=
  { s with watches := s.watches.set w ws }

/-! ## Watch -/

/-- `Watch` up to its request: what it returns before that, or the client with a new watch. -/
def Watch (s : Client) (ctx : Option Nat) (app env : String) (fn : Bool) (keys : List String) :
    Except (Option GoError) Client :=
  if s.closed then .error (some ErrClosed)
  else if keys.isEmpty then .error none
  else
    match ctx, fn with
    | some ctx, true =>
        match s.ctxErr ctx, s.watching with
        | some err, _ => .error (some (.errorf "cassem: watch: " err))
        | none, some _ => .error (some ErrWatchActive)
        | none, none =>
            .ok {
              s with
              watches := s.watches ++ [{ parent := ctx, intent := ⟨app, env, keys⟩ }]
              watching := some s.watches.length
              log := .watch ⟨[⟨app, env, keys⟩], s.clientID, s.clientIP⟩ :: s.log }
    | _, _ => .error (some (.text "cassem: Watch requires a context and handler"))

def removeWatching (s : Client) (w : Nat) : Client :=
  if s.watching = some w then
    { s with watches := s.watches.modify w WatchState.stop, watching := none }
  else s

/-- The context of a caller, or that of the client, is done. -/
def doneFor (s : Client) (ws : WatchState) : Bool := (s.ctxErr ws.parent).isSome || s.ctxDone

/-- What `receiveWatch` does with an error of the stream. -/
def recvError (s : Client) (ws : WatchState) (err : GoError) : WatchPc :=
  if s.doneFor ws then .ending else .reporting err

/-- What it does with a response, that has an element or has none. -/
def recv (s : Client) (ws : WatchState) (element : Bool) : WatchPc :=
  if s.doneFor ws then .ending else if element then .handling else .receiving

/-- A send on a closed channel does not wait for room. -/
def report (s : Client) (err : BackgroundError) : Client :=
  if s.closed then s
  else if s.errors.HasRoom ∨ s.errors.closed then
    { s with errors := s.errors.push err, log := .sent err :: s.log }
  else s

/-! ## Renewal -/

/-- The watch of the client, if its context is not done. -/
def carried (s : Client) : Option (Nat × WatchState) :=
  match s.watching with
  | none => none
  | some w =>
      match s.watches[w]? with
      | none => none
      | some ws => if (s.ctxErr ws.parent).isNone then some (w, ws) else none

def renewReq (s : Client) : RegisterReq where
  ClientId := s.clientID
  ClientIp := s.clientIP
  Watching := (s.carried.map fun c => c.2.intent).toList

/-- `renewSelf` up to its request. -/
def build (s : Client) : Client :=
  if s.closed then { s with renew := .waiting }
  else {
    s with
    renew := .calling
    log := .built s.renewReq (s.carried.map fun c => (c.1, c.2.parent)) :: s.log }

/-- The end of a renewal. -/
def renewReturn (s : Client) (err : Option GoError) : RenewPc :=
  match err, s.ctxDone with
  | some err, false => .reporting err
  | _, _ => .waiting

/-! ## Close -/

/-- What `Close` does first, once. -/
def beginClose (s : Client) : Client :=
  { s with
    closed := true
    ctxDone := true
    watches := match s.watching with
      | some w => s.watches.modify w WatchState.stop
      | none => s.watches
    watching := none
    close := .waiting
    log := .closeBegan :: s.log }

/-- A call of `Close`: the first begins to close the client, and all of them wait for the end. -/
def Close (s : Client) : Client :=
  match s.close with
  | .idle => { s.beginClose with closers := s.closers ++ [.waiting] }
  | _ => { s with closers := s.closers ++ [.waiting] }

def unregisterErr (err : Option GoError) : Option GoError :=
  err.map (GoError.errorf "cassem: unregister: ")

/-- `errors.Join` leaves out what is nil. -/
def closeConnErr (closeErr err : Option GoError) : Option GoError :=
  match err with
  | none => closeErr
  | some err => some (.join (closeErr.toList ++ [.errorf "cassem: close connection: " err]))

/-! ## Steps -/

/-- A step of a caller, of a goroutine, or of the world: the end of a context, the answer to a
request. The `w` is the place of a watch, the `k` of a call of `Close`. -/
inductive Act where
  | watch (ctx : Option Nat) (app env : String) (fn : Bool) (keys : List String)
  | opened (w : Nat) (err : Option GoError)
  | openFailed (w : Nat)
  | cancel (ctx : Nat) (err : GoError)
  | propagate (w : Nat)
  | callback (w : Nat)
  | recv (w : Nat) (element : Bool)
  | recvError (w : Nat) (err : GoError)
  | handled (w : Nat)
  | reportWatch (w : Nat)
  | endReceive (w : Nat)
  | tick
  | build
  | renewReturn (err : Option GoError)
  | reportRenew
  | endRenew
  | takeError
  | close
  | unregister (err : Option GoError)
  | closeConn (err : Option GoError)
  | closeErrors
  | closeReturn (k : Nat)

/-- The steps of a watch after `Watch` has made it. -/
def stepWatch (s : Client) (w : Nat) (ws : WatchState) : Act → Option Client
  | .opened _ err =>
      match ws.pc, err with
      | .opening, none =>
          some ((s.setWatch w { ws with pc := .receiving }).record (.watchReturned none))
      | .opening, some err => some (s.setWatch w { ws with pc := .failed err })
      | _, _ => none
  | .openFailed _ =>
      match ws.pc with
      | .failed err =>
          some (((s.setWatch w { ws with pc := .ended }).removeWatching w).record
            (.watchReturned (some (.errorf "cassem: watch: " err))))
      | _ => none
  | .propagate _ => if (s.ctxErr ws.parent).isSome then some (s.setWatch w ws.cancel) else none
  | .callback _ =>
      match ws.stopCancellation with
      | .running => some ((s.setWatch w { ws with stopCancellation := .ran }).removeWatching w)
      | _ => none
  | .recv _ element =>
      match ws.pc with
      | .receiving => some (s.setWatch w { ws with pc := s.recv ws element })
      | _ => none
  | .recvError _ err =>
      match ws.pc with
      | .receiving => some (s.setWatch w { ws with pc := s.recvError ws err })
      | _ => none
  | .handled _ =>
      match ws.pc with
      | .handling => some (s.setWatch w { ws with pc := .receiving })
      | _ => none
  | .reportWatch _ =>
      match ws.pc with
      | .reporting err =>
          some ((s.setWatch w { ws with pc := .ending }).report
            ⟨"watch", ws.intent.App, ws.intent.Env, err⟩)
      | _ => none
  | .endReceive _ =>
      match ws.pc with
      | .ending => some (s.setWatch w { ws.cancel with pc := .ended })
      | _ => none
  | _ => none

def stepRenew (s : Client) : Act → Option Client
  | .tick =>
      match s.renew with
      | .waiting => some { s with renew := .building }
      | _ => none
  | .build =>
      match s.renew with
      | .building => some s.build
      | _ => none
  | .renewReturn err =>
      match s.renew with
      | .calling => some { s with renew := s.renewReturn err }
      | _ => none
  | .reportRenew =>
      match s.renew with
      | .reporting err => some { s.report { Operation := "renew", Err := err } with renew := .waiting }
      | _ => none
  | .endRenew =>
      match s.renew with
      | .waiting =>
          if s.ctxDone then
            some { s with renew := .ended, renewDone := true, log := .renewEnded :: s.log }
          else none
      | _ => none
  | _ => none

def stepClose (s : Client) : Act → Option Client
  | .unregister err =>
      match s.close with
      | .waiting =>
          if s.renewDone then
            some {
              s with
              close := .unregistered
              closeErr := unregisterErr err
              log := .unregister :: s.log }
          else none
      | _ => none
  | .closeConn err =>
      match s.close with
      | .unregistered => some { s with close := .connClosed, closeErr := closeConnErr s.closeErr err }
      | _ => none
  | .closeErrors =>
      match s.close with
      | .connClosed =>
          some {
            s with close := .finished, errors := s.errors.close, log := .closedErrors :: s.log }
      | _ => none
  | .closeReturn k =>
      match s.close, s.closers[k]? with
      | .finished, some .waiting => some { s with closers := s.closers.set k (.returned s.closeErr) }
      | _, _ => none
  | _ => none

def Act.watchOf : Act → Option Nat
  | .opened w _ | .openFailed w | .propagate w | .callback w | .recv w _ | .recvError w _
  | .handled w | .reportWatch w | .endReceive w => some w
  | _ => none

def step (s : Client) (act : Act) : Option Client :=
  match act with
  | .watch ctx app env fn keys =>
      match s.Watch ctx app env fn keys with
      | .error err => some (s.record (.watchReturned err))
      | .ok s => some s
  | .cancel ctx err =>
      match s.ctxErr ctx with
      | some _ => none
      | none =>
          some {
            s with
            ctxErr := Function.update s.ctxErr ctx (some err)
            watches := s.watches.map (WatchState.fire ctx)
            log := .cancelled ctx :: s.log }
  | .takeError => s.errors.take.map fun e => { s with errors := e.2 }
  | .close => some s.Close
  | .tick | .build | .renewReturn _ | .reportRenew | .endRenew => s.stepRenew act
  | .unregister _ | .closeConn _ | .closeErrors | .closeReturn _ => s.stepClose act
  | _ => act.watchOf.bind fun w => s.watches[w]?.bind fun ws => s.stepWatch w ws act

/-! ## What holds of a run -/

/-- What may come after which events. -/
def Allowed (earlier : List Event) : Event → Prop
  | .sent _ | .closedErrors => .closedErrors ∉ earlier
  | .built _ (some (_, ctx)) => .closeBegan ∉ earlier ∧ .cancelled ctx ∉ earlier
  | .built req none => req.Watching = []
  | .unregister => .renewEnded ∈ earlier ∧ .unregister ∉ earlier
  | _ => True

def Proper : List Event → Prop
  | [] => True
  | e :: earlier => Allowed earlier e ∧ Proper earlier

def Event.isUnregister : Event → Bool
  | .unregister => true
  | _ => false

def Act.isClose : Act → Bool
  | .close => true
  | _ => false

/-- The instance is unregistered, once, the channel of errors closed, and every call of `Close` has
returned. -/
structure Shut (s : Client) : Prop where
  unregistered : s.log.countP Event.isUnregister = 1
  closedErrors : .closedErrors ∈ s.log
  returned : ∀ c ∈ s.closers, ∃ err, c = .returned err

/-- At most one stream is open and not cancelled, the events are in order, and a call of `Close`
that has returned has seen to its two ends. -/
structure Lifecycle (s : Client) : Prop where
  oneOpen : ∀ (w w' : Nat) (ws ws' : WatchState),
    s.watches[w]? = some ws → s.watches[w']? = some ws' →
    ws.IsOpen → ws.cancelled = false → ws'.IsOpen → ws'.cancelled = false → w = w'
  proper : Proper s.log
  returned : ∀ err, .returned err ∈ s.closers →
    s.log.countP Event.isUnregister = 1 ∧ .closedErrors ∈ s.log

/-- What has come of the calls of `Close` in a run: each is there, the first has begun to close the
client, the instance is unregistered at most once, and all of them can come to return. -/
structure Closes (acts : List Act) (s : Client) : Prop where
  calls : s.closers.length = acts.countP Act.isClose
  begun : .closeBegan ∈ s.log ↔ 0 < acts.countP Act.isClose
  once : s.log.countP Event.isUnregister ≤ 1
  canReturn : 0 < acts.countP Act.isClose → Transition.Reaches step Shut s

end Client

end Cassem.Sdk
