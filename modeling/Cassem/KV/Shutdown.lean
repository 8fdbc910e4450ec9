import Cassem.Lib.Chan
import Cassem.Lib.Count
import Cassem.Lib.Transition
import Cassem.KV.RaftNode
import Mathlib.Data.List.Nodup

/-!
# Shutting down while requests are in flight

The goroutines of one process: the callers of `SetKV` and `UnsetKV`, the one that hands proposals
to raft, the apply loop and `Shutdown`. A caller registers a pending request, proposes its command
and waits; `Shutdown` fails what is pending and closes the channel of proposals. Every point at
which another goroutine can act is a step of its own.
-/

namespace Cassem.KV

open Lib

namespace Process

/-! ## Callers -/

/-- One `registerPending`, `propose` and `waitPending`; `lasting` says that its context never
ends. -/
structure Round where
  op : MutateOp
  lasting : Bool
  deriving DecidableEq, Repr

/-- The calls that propose commands. The one of `SetKV` has the last value, if there is one, as
expired or not; `sweep` is the goroutine in which `Range` removes expired keys. -/
inductive Call where
  | SetKV (last : Option Bool) (overwrite lasting : Bool)
  | UnsetKV (lasting : Bool)
  | probeRemoveExpired
  | sweep (expiredKeys : Nat)
  deriving DecidableEq, Repr

/-- The rounds of a call: removals on the way have the background context. -/
def Call.rounds : Call → List Round
  | .SetKV (some true) _ lasting => [⟨.UNSET, true⟩, ⟨.SET, lasting⟩]
  | .SetKV (some false) false _ => []
  | .SetKV _ _ lasting => [⟨.SET, lasting⟩]
  | .UnsetKV lasting => [⟨.UNSET, lasting⟩]
  | .probeRemoveExpired => [⟨.UNSET, true⟩]
  | .sweep expiredKeys => List.replicate expiredKeys ⟨.UNSET, true⟩

/-- What a call without a round returns. -/
def Call.reply : Call → Option GoError
  | .SetKV (some false) false _ => some ErrExists
  | _ => none

/-- Where a caller stands. A request is known by its number; its id is the number as a `uint64`,
and its channels are its own. -/
inductive CallPc where
  | load
  | number
  | insert (request : Nat)
  | check (request : Nat)
  | send (request : Nat)
  | await (request : Nat)
  | wait (request : Nat)
  | cleanup (request : Nat) (err : Option GoError)
  | returned (err : Option GoError)
  | panicked

/-- The rounds that are left, with the one it is in. -/
structure Caller where
  rounds : List Round
  pc : CallPc

/-- The next round, or the end of the call. -/
def Caller.next (rounds : List Round) (err : Option GoError) : Caller :=
  match rounds with
  | [] => ⟨[], .returned err⟩
  | _ :: _ => ⟨rounds, .load⟩

def Caller.start (call : Call) : Caller := .next call.rounds call.reply

/-- The caller waits for the answer to the proposal of `request`, in a context that never ends. -/
def Caller.stays (c : Caller) (request : Nat) : Bool :=
  match c.pc with
  | .await n => n == request && c.rounds.head?.any Round.lasting
  | _ => false

/-- A failed `propose` as the call returns it. -/
def Caller.wrapped (rounds : List Round) (err : GoError) : GoError :=
  match rounds.head?.map Round.op with
  | some .SET => .errorf "raftNodeImpl.SetKV: " err
  | _ => .errorf "raftNodeImpl.UnsetKV: " err

/-! ## The other goroutines -/

/-- `sendProposals`. -/
inductive Sender where
  | receiving
  | proposing (request : Nat)
  | answering (request : Nat)
  | ended
  deriving DecidableEq, Repr

/-- The apply loop, in `resolvePending`. -/
inductive Applier where
  | idle
  | acking (request : Nat) (err : Option GoError)
  | closing (request : Nat)

/-- `Shutdown`, with the requests that `failAllPending` has still to fail. -/
inductive ShutdownPc where
  | notCalled
  | stored
  | failing (rest : List Nat)
  | closing (request : Nat) (rest : List Nat)
  | done
  deriving DecidableEq, Repr

end Process

open Process in
/-- `impl` has what the goroutines share and, with `ackClosed`, what was done to the channels of
the requests; `registered` counts the requests. Raft, which holds a proposal back as long as it
knows of no leader, accepts or refuses the `answered` ones in the end, and the others never. -/
structure Process where
  answered : Nat → Bool := fun _ => true
  impl : RaftNode Nat := {}
  proposeC : Chan Nat := { cap := 4 }
  callers : List Caller := []
  sender : Sender := .receiving
  applier : Applier := .idle
  shutdown : ShutdownPc := .notCalled
  ackClosed : List Nat := []
  registered : Nat := 0

namespace Process

def requestId (request : Nat) : Nat := request % 2 ^ 64

/-- A step of a goroutine, or of the world outside: a call, the end of a context, an applied
entry. The `k` is the place of the caller, `rest` the order in which a map gives its entries. -/
inductive Step where
  | call (c : Call)
  | ctxDone (k : Nat) (err : GoError)
  | load (k : Nat)
  | number (k : Nat)
  | insert (k : Nat)
  | check (k : Nat)
  | send (k : Nat)
  | answer (k : Nat) (err : Option GoError)
  | receive (k : Nat)
  | cleanup (k : Nat)
  | take
  | takeClosed
  | propose
  | resolve (id : Nat) (err : Option GoError)
  | ack
  | closeAck
  | Shutdown
  | swap (rest : List Nat)
  | fail
  | closeFailed
  | closeProposeC

/-- `Propose` comes back: raft answers, or the context of the proposal ends. -/
def ProposeReturns (s : Process) (request : Nat) : Prop :=
  s.answered request = true ∨ ∀ c ∈ s.callers, c.stays request = false

instance (s : Process) (request : Nat) : Decidable (s.ProposeReturns request) :=
  inferInstanceAs (Decidable (_ ∨ _))

def setCaller (s : Process) (k : Nat) (rounds : List Round) (pc : CallPc) : Process :=
  { s with callers := s.callers.set k ⟨rounds, pc⟩ }

def step (s : Process) : Step → Option Process
  | .call c => some { s with callers := s.callers ++ [.start c] }
  | .ctxDone k err =>
      match s.callers[k]? with
      | some ⟨round :: rounds, pc⟩ =>
          if round.lasting then none
          else
            match pc with
            | .send request | .await request =>
                let wrapped := Caller.wrapped (round :: rounds) err
                some (s.setCaller k (round :: rounds) (.cleanup request (some wrapped)))
            | .wait request => some (s.setCaller k (round :: rounds) (.cleanup request (some err)))
            | _ => none
      | _ => none
  | .load k =>
      match s.callers[k]? with
      | some ⟨rounds, .load⟩ =>
          if s.impl.shuttingDown then
            some { s with callers := s.callers.set k (.next rounds.tail (some ErrShuttingDown)) }
          else some (s.setCaller k rounds .number)
      | _ => none
  | .number k =>
      match s.callers[k]? with
      | some ⟨rounds, .number⟩ =>
          some { s.setCaller k rounds (.insert (s.registered + 1)) with
            impl := { s.impl with nextRequestID := (s.impl.nextRequestID + 1) % 2 ^ 64 }
            registered := s.registered + 1 }
      | _ => none
  | .insert k =>
      match s.callers[k]? with
      | some ⟨rounds, .insert request⟩ =>
          some { s.setCaller k rounds (.check request) with
            impl := { s.impl with
              pending := SortedMap.insert (requestId request) request s.impl.pending } }
      | _ => none
  | .check k =>
      match s.callers[k]? with
      | some ⟨rounds, .check request⟩ =>
          if s.impl.shuttingDown then
            some (s.setCaller k rounds
              (.cleanup request (some (Caller.wrapped rounds ErrShuttingDown))))
          else some (s.setCaller k rounds (.send request))
      | _ => none
  | .send k =>
      match s.callers[k]? with
      | some ⟨rounds, .send request⟩ =>
          if s.proposeC.closed then some (s.setCaller k rounds .panicked)
          else if s.proposeC.HasRoom then
            some { s.setCaller k rounds (.await request) with proposeC := s.proposeC.push request }
          else none
      | _ => none
  | .answer k err =>
      match s.callers[k]?, s.sender with
      | some ⟨rounds, .await request⟩, .answering request' =>
          if request = request' then
            let pc := match err with
              | none => .wait request
              | some err => .cleanup request (some (Caller.wrapped rounds err))
            some { s.setCaller k rounds pc with sender := .receiving }
          else none
      | _, _ => none
  | .receive k =>
      match s.callers[k]? with
      | some ⟨rounds, .wait request⟩ =>
          match s.impl.acks.find? fun ack => ack.1 = request with
          | some ack => some (s.setCaller k rounds (.cleanup request ack.2))
          | none => none
      | _ => none
  | .cleanup k =>
      match s.callers[k]? with
      | some ⟨rounds, .cleanup request err⟩ =>
          some { s with
            callers := s.callers.set k (.next rounds.tail err)
            impl := s.impl.cleanup (requestId request) }
      | _ => none
  | .take =>
      match s.sender, s.proposeC.take with
      | .receiving, some (request, proposeC) =>
          some { s with sender := .proposing request, proposeC := proposeC }
      | _, _ => none
  | .takeClosed =>
      match s.sender, s.proposeC.take with
      | .receiving, none => if s.proposeC.closed then some { s with sender := .ended } else none
      | _, _ => none
  | .propose =>
      match s.sender with
      | .proposing request =>
          if s.ProposeReturns request then some { s with sender := .answering request } else none
      | _ => none
  | .resolve id err =>
      match s.applier with
      | .idle =>
          match s.impl.resolved id with
          | none => some s
          | some request =>
              some { s with
                impl := { s.impl with pending := SortedMap.erase id s.impl.pending }
                applier := .acking request err }
      | _ => none
  | .ack =>
      match s.applier with
      | .acking request err =>
          some { s with
            impl := { s.impl with acks := s.impl.acks ++ [(request, err)] }
            applier := .closing request }
      | _ => none
  | .closeAck =>
      match s.applier with
      | .closing request => some { s with applier := .idle, ackClosed := s.ackClosed ++ [request] }
      | _ => none
  | .Shutdown =>
      match s.shutdown with
      | .notCalled =>
          some { s with impl := { s.impl with shuttingDown := true }, shutdown := .stored }
      | _ => some s
  | .swap rest =>
      match s.shutdown with
      | .stored =>
          if rest.Perm (s.impl.pending.map Prod.snd) then
            some { s with impl := { s.impl with pending := [] }, shutdown := .failing rest }
          else none
      | _ => none
  | .fail =>
      match s.shutdown with
      | .failing (request :: rest) =>
          some { s with
            impl := { s.impl with acks := s.impl.acks ++ [(request, some ErrShuttingDown)] }
            shutdown := .closing request rest }
      | _ => none
  | .closeFailed =>
      match s.shutdown with
      | .closing request rest =>
          some { s with shutdown := .failing rest, ackClosed := s.ackClosed ++ [request] }
      | _ => none
  | .closeProposeC =>
      match s.shutdown with
      | .failing [] => some { s with proposeC := s.proposeC.close, shutdown := .done }
      | _ => none

/-! ## What a step does -/

/-- The outcomes of each step: what it needs and what it leaves. -/
inductive Effect (s : Process) : Step → Process → Prop
  | call (c : Call) : Effect s (.call c) { s with callers := s.callers ++ [.start c] }
  | interrupted {k request : Nat} {rounds : List Round} {pc : CallPc} {err : GoError}
      (err' : Option GoError) (hk : s.callers[k]? = some ⟨rounds, pc⟩)
      (hpc : pc = .send request ∨ pc = .await request ∨ pc = .wait request) :
      Effect s (.ctxDone k err) (s.setCaller k rounds (.cleanup request err'))
  | loadRefused {k : Nat} {rounds : List Round} (hk : s.callers[k]? = some ⟨rounds, .load⟩) :
      Effect s (.load k)
        { s with callers := s.callers.set k (.next rounds.tail (some ErrShuttingDown)) }
  | load {k : Nat} {rounds : List Round} (hk : s.callers[k]? = some ⟨rounds, .load⟩) :
      Effect s (.load k) (s.setCaller k rounds .number)
  | number {k : Nat} {rounds : List Round} (hk : s.callers[k]? = some ⟨rounds, .number⟩) :
      Effect s (.number k) { s.setCaller k rounds (.insert (s.registered + 1)) with
        impl := { s.impl with nextRequestID := (s.impl.nextRequestID + 1) % 2 ^ 64 }
        registered := s.registered + 1 }
  | insert {k request : Nat} {rounds : List Round}
      (hk : s.callers[k]? = some ⟨rounds, .insert request⟩) :
      Effect s (.insert k) { s.setCaller k rounds (.check request) with
        impl := { s.impl with
          pending := SortedMap.insert (requestId request) request s.impl.pending } }
  | checkRefused {k request : Nat} {rounds : List Round}
      (hk : s.callers[k]? = some ⟨rounds, .check request⟩) :
      Effect s (.check k) (s.setCaller k rounds
        (.cleanup request (some (Caller.wrapped rounds ErrShuttingDown))))
  | check {k request : Nat} {rounds : List Round}
      (hk : s.callers[k]? = some ⟨rounds, .check request⟩)
      (hrunning : ¬ s.impl.shuttingDown = true) :
      Effect s (.check k) (s.setCaller k rounds (.send request))
  | panic {k request : Nat} {rounds : List Round}
      (hk : s.callers[k]? = some ⟨rounds, .send request⟩) (hclosed : s.proposeC.closed = true) :
      Effect s (.send k) (s.setCaller k rounds .panicked)
  | send {k request : Nat} {rounds : List Round}
      (hk : s.callers[k]? = some ⟨rounds, .send request⟩) (hopen : ¬ s.proposeC.closed = true) :
      Effect s (.send k)
        { s.setCaller k rounds (.await request) with proposeC := s.proposeC.push request }
  | answer {k request : Nat} {rounds : List Round}
      (hk : s.callers[k]? = some ⟨rounds, .await request⟩)
      (hsender : s.sender = .answering request) :
      Effect s (.answer k none) { s.setCaller k rounds (.wait request) with sender := .receiving }
  | answerFailed {k request : Nat} {rounds : List Round} (err : GoError)
      (hk : s.callers[k]? = some ⟨rounds, .await request⟩)
      (hsender : s.sender = .answering request) :
      Effect s (.answer k (some err))
        { s.setCaller k rounds (.cleanup request (some (Caller.wrapped rounds err))) with
          sender := .receiving }
  | receive {k request : Nat} {rounds : List Round} (err : Option GoError)
      (hk : s.callers[k]? = some ⟨rounds, .wait request⟩) :
      Effect s (.receive k) (s.setCaller k rounds (.cleanup request err))
  | cleanup {k request : Nat} {rounds : List Round} {err : Option GoError}
      (hk : s.callers[k]? = some ⟨rounds, .cleanup request err⟩) :
      Effect s (.cleanup k) { s with
        callers := s.callers.set k (.next rounds.tail err)
        impl := s.impl.cleanup (requestId request) }
  | take {request : Nat} {proposeC : Chan Nat} (hsender : s.sender = .receiving)
      (htake : s.proposeC.take = some (request, proposeC)) :
      Effect s .take { s with sender := .proposing request, proposeC := proposeC }
  | takeClosed (hsender : s.sender = .receiving) (htake : s.proposeC.take = none)
      (hclosed : s.proposeC.closed = true) : Effect s .takeClosed { s with sender := .ended }
  | propose {request : Nat} (hsender : s.sender = .proposing request) :
      Effect s .propose { s with sender := .answering request }
  | unknown (id : Nat) (err : Option GoError) : Effect s (.resolve id err) s
  | resolve {id request : Nat} (err : Option GoError) (happ : s.applier = .idle)
      (hlook : SortedMap.lookup id s.impl.pending = some request) :
      Effect s (.resolve id err) { s with
        impl := { s.impl with pending := SortedMap.erase id s.impl.pending }
        applier := .acking request err }
  | ack {request : Nat} {err : Option GoError} (happ : s.applier = .acking request err) :
      Effect s .ack { s with
        impl := { s.impl with acks := s.impl.acks ++ [(request, err)] }
        applier := .closing request }
  | closeAck {request : Nat} (happ : s.applier = .closing request) :
      Effect s .closeAck { s with applier := .idle, ackClosed := s.ackClosed ++ [request] }
  | Shutdown (hsd : s.shutdown = .notCalled) :
      Effect s .Shutdown { s with impl := { s.impl with shuttingDown := true }, shutdown := .stored }
  | calledAgain : Effect s .Shutdown s
  | swap {rest : List Nat} (hsd : s.shutdown = .stored)
      (hperm : rest.Perm (s.impl.pending.map Prod.snd)) :
      Effect s (.swap rest)
        { s with impl := { s.impl with pending := [] }, shutdown := .failing rest }
  | fail {request : Nat} {rest : List Nat} (hsd : s.shutdown = .failing (request :: rest)) :
      Effect s .fail { s with
        impl := { s.impl with acks := s.impl.acks ++ [(request, some ErrShuttingDown)] }
        shutdown := .closing request rest }
  | closeFailed {request : Nat} {rest : List Nat} (hsd : s.shutdown = .closing request rest) :
      Effect s .closeFailed
        { s with shutdown := .failing rest, ackClosed := s.ackClosed ++ [request] }
  | closeProposeC (hsd : s.shutdown = .failing []) :
      Effect s .closeProposeC { s with proposeC := s.proposeC.close, shutdown := .done }

theorem ctxDone_effect {s s' : Process} {k : Nat} {err : GoError}
    (hs : step s (.ctxDone k err) = some s') : Effect s (.ctxDone k err) s' := by
  dsimp only [step] at hs
  split at hs
  · next round rounds pc hk =>
    split at hs
    · cases hs
    · split at hs <;> cases hs
      · exact .interrupted _ hk (.inl rfl)
      · exact .interrupted _ hk (.inr (.inl rfl))
      · exact .interrupted _ hk (.inr (.inr rfl))
  · cases hs

theorem check_effect {s s' : Process} {k : Nat}
    (hs : step s (.check k) = some s') : Effect s (.check k) s' := by
  dsimp only [step] at hs
  split at hs
  · next hk =>
    split at hs <;> cases hs
    · exact .checkRefused hk
    · next hrunning => exact .check hk hrunning
  · cases hs

theorem send_effect {s s' : Process} {k : Nat}
    (hs : step s (.send k) = some s') : Effect s (.send k) s' := by
  dsimp only [step] at hs
  split at hs
  · next hk =>
    split at hs
    · next hclosed =>
      cases hs
      exact .panic hk hclosed
    · next hopen =>
      split at hs <;> cases hs
      exact .send hk hopen
  · cases hs

theorem answer_effect {s s' : Process} {k : Nat} {err : Option GoError}
    (hs : step s (.answer k err) = some s') : Effect s (.answer k err) s' := by
  dsimp only [step] at hs
  split at hs
  · next rounds request request' hk hsender =>
    split at hs
    · next heq =>
      subst heq
      cases err with
      | none =>
        cases hs
        exact .answer hk hsender
      | some err =>
        cases hs
        exact .answerFailed err hk hsender
    · cases hs
  · cases hs

theorem step_effect {s s' : Process} {l : Step} (hs : step s l = some s') : Effect s l s' := by
  cases l with
  | call c =>
    cases hs
    exact .call c
  | ctxDone k err => exact ctxDone_effect hs
  | load k =>
    dsimp only [step] at hs
    split at hs
    · next hk =>
      split at hs <;> cases hs
      · exact .loadRefused hk
      · exact .load hk
    · cases hs
  | number k =>
    dsimp only [step] at hs
    split at hs <;> cases hs
    next hk => exact .number hk
  | insert k =>
    dsimp only [step] at hs
    split at hs <;> cases hs
    next hk => exact .insert hk
  | check k => exact check_effect hs
  | send k => exact send_effect hs
  | answer k err => exact answer_effect hs
  | receive k =>
    dsimp only [step] at hs
    split at hs
    · next hk =>
      split at hs <;> cases hs
      exact .receive _ hk
    · cases hs
  | cleanup k =>
    dsimp only [step] at hs
    split at hs <;> cases hs
    next hk => exact .cleanup hk
  | take =>
    dsimp only [step] at hs
    split at hs <;> cases hs
    next hsender htake => exact .take hsender htake
  | takeClosed =>
    dsimp only [step] at hs
    split at hs
    · next hsender htake =>
      split at hs <;> cases hs
      next hclosed => exact .takeClosed hsender htake hclosed
    · cases hs
  | propose =>
    dsimp only [step] at hs
    split at hs
    · next hsender =>
      split at hs <;> cases hs
      exact .propose hsender
    · cases hs
  | resolve id err =>
    dsimp only [step] at hs
    split at hs
    · next happ =>
      split at hs <;> cases hs
      · exact .unknown id err
      · next hres => exact .resolve err happ (Option.ite_none_left_eq_some.mp hres).2
    · cases hs
  | ack =>
    dsimp only [step] at hs
    split at hs <;> cases hs
    next happ => exact .ack happ
  | closeAck =>
    dsimp only [step] at hs
    split at hs <;> cases hs
    next happ => exact .closeAck happ
  | Shutdown =>
    dsimp only [step] at hs
    split at hs <;> cases hs
    · next hsd => exact .Shutdown hsd
    · exact .calledAgain
  | swap rest =>
    dsimp only [step] at hs
    split at hs
    · next hsd =>
      split at hs <;> cases hs
      next hperm => exact .swap hsd hperm
    · cases hs
  | fail =>
    dsimp only [step] at hs
    split at hs <;> cases hs
    next hsd => exact .fail hsd
  | closeFailed =>
    dsimp only [step] at hs
    split at hs <;> cases hs
    next hsd => exact .closeFailed hsd
  | closeProposeC =>
    dsimp only [step] at hs
    split at hs <;> cases hs
    next hsd => exact .closeProposeC hsd

/-! ## Goroutines that are alone -/

theorem counter_step {s s' : Process} {l : Step}
    (h : s.impl.nextRequestID = requestId s.registered) (hs : step s l = some s') :
    s'.impl.nextRequestID = requestId s'.registered := by
  cases step_effect hs with
  | number hk =>
    show (s.impl.nextRequestID + 1) % 2 ^ 64 = (s.registered + 1) % 2 ^ 64
    rw [h, requestId]
    omega
  | _ => exact h

/-- A caller that nobody interrupts does what `registerPending` says. -/
theorem register_alone {s : Process} {k id : Nat} {rounds : List Round} {impl : RaftNode Nat}
    (hk : s.callers[k]? = some ⟨rounds, .load⟩)
    (hcounter : s.impl.nextRequestID = requestId s.registered)
    (h : s.impl.registerPending (s.registered + 1) = some (id, impl)) :
    ∃ s', Transition.run step s [.load k, .number k, .insert k] = some s' ∧ s'.impl = impl ∧
      s'.callers[k]? = some ⟨rounds, .check (s.registered + 1)⟩ ∧
        id = requestId (s.registered + 1) := by
  unfold RaftNode.registerPending at h
  have hid : (s.impl.nextRequestID + 1) % 2 ^ 64 = requestId (s.registered + 1) := by
    rw [hcounter, requestId, requestId]
    omega
  split at h
  · cases h
  · next hrunning =>
    cases h
    have hset : ∀ c : Caller, (s.callers.set k c)[k]? = some c := fun c =>
      List.getElem?_set_self (List.getElem?_eq_some_iff.mp hk).1
    have hload : step s (.load k) = some (s.setCaller k rounds .number) := by
      simp only [step, hk, if_neg hrunning]
    rw [Transition.run_cons hload]
    simp only [Transition.run, step, setCaller, hset, List.set_set, Option.bind_some, hid]
    exact ⟨_, rfl, rfl, hset _, trivial⟩

/-- So does the apply loop in `resolvePending`. -/
theorem resolve_alone {s : Process} (happ : s.applier = .idle) {id request : Nat}
    (h : s.impl.resolved id = some request) (err : Option GoError) :
    ∃ s', Transition.run step s [.resolve id err, .ack, .closeAck] = some s' ∧
      s'.impl = s.impl.resolvePending id err ∧ s'.ackClosed = s.ackClosed ++ [request] ∧
        s'.applier = .idle := by
  have hres := h
  unfold RaftNode.resolved at hres
  obtain ⟨hid, hlook⟩ := Option.ite_none_left_eq_some.mp hres
  simp [Transition.run, step, happ, h, RaftNode.resolvePending, hid, hlook]

/-! ## Safety and return -/

/-- A step of one of the goroutines; `propose` is the return from raft's `Propose`. -/
def Step.Internal : Step → Prop
  | .call _ | .ctxDone _ _ | .resolve _ _ | .Shutdown => False
  | _ => True

/-- No goroutine can go on by itself. -/
def Quiescent (s : Process) : Prop := ∀ l : Step, l.Internal → step s l = none

def CallPc.work : CallPc → Nat
  | .load => 14
  | .number => 13
  | .insert _ => 12
  | .check _ => 9
  | .send _ => 8
  | .await _ => 3
  | .wait _ => 2
  | .cleanup _ _ => 1
  | .returned _ | .panicked => 0

def Caller.work (c : Caller) : Nat := c.pc.work + 15 * c.rounds.tail.length

def Sender.work : Sender → Nat
  | .receiving => 1
  | .proposing _ => 3
  | .answering _ => 2
  | .ended => 0

def Applier.work : Applier → Nat
  | .idle => 0
  | .acking _ _ => 2
  | .closing _ => 1

def ShutdownPc.work : ShutdownPc → Nat
  | .notCalled | .done => 0
  | .stored => 2
  | .failing rest => 1 + 2 * rest.length
  | .closing _ rest => 2 + 2 * rest.length

/-- A bound on the steps that the goroutines can still take by themselves. -/
def work (s : Process) : Nat :=
  (s.callers.map Caller.work).sum + 3 * s.proposeC.waiting.length + s.sender.work +
    s.applier.work + 2 * s.impl.pending.length + s.shutdown.work

/-- No send on the closed channel of proposals, one acknowledgement and one close for each
request at the most; and after `Shutdown` the goroutines come to rest, and when they have, every
call has returned. -/
structure Safe (s : Process) : Prop where
  unpanicked : ∀ c ∈ s.callers, c.pc ≠ .panicked
  acked : (s.impl.acks.map Prod.fst).Nodup
  closed : s.ackClosed.Nodup
  returned : s.shutdown ≠ .notCalled → s.Quiescent → ∀ c ∈ s.callers, ∃ err, c.pc = .returned err
  rests : ∀ l s', Step.Internal l → step s l = some s' → s'.work < s.work

def CallPc.request? : CallPc → Option Nat
  | .insert n | .check n | .send n | .await n | .wait n | .cleanup n _ => some n
  | _ => none

def CallPc.inserting? : CallPc → Option Nat
  | .insert n => some n
  | _ => none

def CallPc.sending? : CallPc → Option Nat
  | .send n => some n
  | _ => none

def CallPc.awaiting? : CallPc → Option Nat
  | .await n => some n
  | _ => none

/-- The proposal channel is closed when no caller is between its check of `shuttingDown` and its
send; no caller leaves while `sendProposals` has or will have an answer for it; raft's `Propose`
comes back for each proposal it is handed; and the id that a request gets is not that of an
unfinished one. -/
def Orderly (s : Process) : Step → Prop
  | .take => ∀ p ∈ s.proposeC.take, s.ProposeReturns p.1
  | .closeProposeC => ∀ c ∈ s.callers, c.pc.sending? = none
  | .ctxDone k _ => ∀ c ∈ s.callers[k]?, c.pc.awaiting? = none
  | .number _ => ∀ c ∈ s.callers, c.pc.request?.map requestId ≠ some (requestId (s.registered + 1))
  | _ => True

/-! ## How many callers are at a place -/

/-- How many callers have `n` at a place. -/
def held (at? : CallPc → Option Nat) (callers : List Caller) (n : Nat) : Nat :=
  callers.countP fun c => at? c.pc = some n

theorem held_set (at? : CallPc → Option Nat) {callers : List Caller} {k : Nat} {c : Caller}
    (hk : callers[k]? = some c) (c' : Caller) (n : Nat) :
    held at? (callers.set k c') n + (if at? c.pc = some n then 1 else 0) =
      held at? callers n + if at? c'.pc = some n then 1 else 0 := by
  have h := Count.countP_set (p := fun c => at? c.pc = some n) hk c'
  simp only [decide_eq_true_eq] at h
  exact h

theorem held_set_same (at? : CallPc → Option Nat) {callers : List Caller} {k : Nat} {c : Caller}
    (hk : callers[k]? = some c) (c' : Caller) (h : at? c'.pc = at? c.pc) (n : Nat) :
    held at? (callers.set k c') n = held at? callers n := by
  have hset := held_set at? hk c' n
  rw [h] at hset
  exact Nat.add_right_cancel hset

theorem held_set_leave (at? : CallPc → Option Nat) {callers : List Caller} {k m : Nat}
    {c : Caller} (hk : callers[k]? = some c) (c' : Caller) (hc : at? c.pc = some m)
    (hc' : at? c'.pc = none) (n : Nat) :
    held at? (callers.set k c') n + (if m = n then 1 else 0) = held at? callers n := by
  have hset := held_set at? hk c' n
  rw [hc, hc', if_neg (Option.some_ne_none n).symm] at hset
  simpa only [Option.some.injEq, Nat.add_zero] using hset

theorem held_set_enter (at? : CallPc → Option Nat) {callers : List Caller} {k m : Nat}
    {c : Caller} (hk : callers[k]? = some c) (c' : Caller) (hc : at? c.pc = none)
    (hc' : at? c'.pc = some m) (n : Nat) :
    held at? (callers.set k c') n = held at? callers n + if m = n then 1 else 0 := by
  have hset := held_set at? hk c' n
  rw [hc, hc', if_neg (Option.some_ne_none n).symm] at hset
  simpa only [Option.some.injEq, Nat.add_zero] using hset

theorem held_append {at? : CallPc → Option Nat} (callers : List Caller) {c : Caller}
    (hc : at? c.pc = none) (n : Nat) : held at? (callers ++ [c]) n = held at? callers n := by
  unfold held
  rw [List.countP_append, List.countP_singleton, hc]
  simp

theorem held_pos {at? : CallPc → Option Nat} {callers : List Caller} {n : Nat} :
    0 < held at? callers n ↔ ∃ c ∈ callers, at? c.pc = some n := by
  unfold held
  rw [List.countP_pos_iff]
  simp only [decide_eq_true_eq]

/-! ## Acknowledgements -/

def Applier.toAck : Applier → List Nat
  | .acking n _ => [n]
  | _ => []

def Applier.toClose : Applier → List Nat
  | .closing n => [n]
  | _ => []

def ShutdownPc.toAck : ShutdownPc → List Nat
  | .failing rest | .closing _ rest => rest
  | _ => []

def ShutdownPc.toClose : ShutdownPc → List Nat
  | .closing n _ => [n]
  | _ => []

/-- The requests that somebody has taken out of the table to acknowledge them. -/
def taken (s : Process) : List Nat := s.applier.toAck ++ s.shutdown.toAck

def acked (s : Process) : List Nat := s.impl.acks.map Prod.fst

def pendings (s : Process) : List Nat := s.impl.pending.map Prod.snd

/-- At how many places a request is: about to be registered, pending, taken or acknowledged. -/
def copies (s : Process) (n : Nat) : Nat :=
  held CallPc.inserting? s.callers n + s.pendings.count n + s.taken.count n + s.acked.count n

structure Acks (s : Process) : Prop where
  place : ∀ n, s.copies n ≤ if n ≤ s.registered then 1 else 0
  closes : ∀ n, s.acked.count n = s.ackClosed.count n +
    (s.applier.toClose ++ s.shutdown.toClose).count n

theorem Acks.acked_nodup {s : Process} (h : Acks s) : s.acked.Nodup := by
  refine List.nodup_iff_count_le_one.mpr fun n => ?_
  have hplace : s.copies n ≤ _ := h.place n
  have hle : s.acked.count n ≤ s.copies n := Nat.le_add_left _ _
  split at hplace <;> omega

theorem Acks.closed_nodup {s : Process} (h : Acks s) : s.ackClosed.Nodup := by
  refine List.nodup_iff_count_le_one.mpr fun n => ?_
  have hacked := List.nodup_iff_count_le_one.mp h.acked_nodup n
  have hcloses := h.closes n
  omega

/-- What was taken from one place has come to another. -/
theorem Acks.moved {s s' : Process} (h : Acks s) (hreg : s'.registered = s.registered)
    (hcopies : ∀ n, s'.copies n ≤ s.copies n)
    (hcloses : ∀ n, s'.acked.count n = s'.ackClosed.count n +
      (s'.applier.toClose ++ s'.shutdown.toClose).count n) : Acks s' :=
  ⟨fun n => hreg ▸ (hcopies n).trans (h.place n), hcloses⟩

/-- A step of a caller that is not about to register and moves nothing else. -/
theorem Acks.set {s : Process} (h : Acks s) {k : Nat} {c c' : Caller} (hk : s.callers[k]? = some c)
    (hc : c'.pc.inserting? = none) : Acks { s with callers := s.callers.set k c' } := by
  refine h.moved rfl (fun n => ?_) h.closes
  have hset := held_set CallPc.inserting? hk c' n
  rw [hc, if_neg (Option.some_ne_none n).symm] at hset
  show held _ (s.callers.set k c') n + s.pendings.count n + s.taken.count n + s.acked.count n ≤
    held _ s.callers n + s.pendings.count n + s.taken.count n + s.acked.count n
  omega

@[simp] theorem Caller.next_inserting (rounds : List Round) (err : Option GoError) :
    (Caller.next rounds err).pc.inserting? = none := by
  unfold Caller.next
  split <;> rfl

theorem count_acks_append {s : Process} {n request : Nat} {err : Option GoError} :
    ((s.impl.acks ++ [(request, err)]).map Prod.fst).count n =
      s.acked.count n + if request = n then 1 else 0 := by
  rw [List.map_append, List.count_append, List.map_singleton, List.count_singleton]
  simp only [beq_iff_eq]
  rfl

section Acks

variable {s : Process} (h : Acks s) {k request : Nat} {rounds : List Round} {rest : List Nat}
  {err : Option GoError}
include h

theorem Acks.number (hk : s.callers[k]? = some ⟨rounds, .number⟩) :
    Acks { s.setCaller k rounds (.insert (s.registered + 1)) with
      impl := { s.impl with nextRequestID := (s.impl.nextRequestID + 1) % 2 ^ 64 }
      registered := s.registered + 1 } := by
  refine ⟨fun n => ?_, h.closes⟩
  have hset := held_set_enter CallPc.inserting? hk
    ⟨rounds, .insert (s.registered + 1)⟩ rfl rfl n
  have hplace : s.copies n ≤ _ := h.place n
  unfold copies at hplace
  show held _ (s.callers.set k _) n + s.pendings.count n + s.taken.count n + s.acked.count n ≤
    if n ≤ s.registered + 1 then 1 else 0
  split at hset <;> split at hplace <;> split <;> omega

theorem Acks.insert (hk : s.callers[k]? = some ⟨rounds, .insert request⟩) :
    Acks { s.setCaller k rounds (.check request) with
      impl := { s.impl with
        pending := SortedMap.insert (requestId request) request s.impl.pending } } := by
  refine h.moved rfl (fun n => ?_) h.closes
  have hset := held_set_leave CallPc.inserting? hk ⟨rounds, .check request⟩ rfl rfl n
  have hinsert := SortedMap.count_insert_le (requestId request) request n s.impl.pending
  show held _ (s.callers.set k _) n +
    ((SortedMap.insert (requestId request) request s.impl.pending).map Prod.snd).count n +
    s.taken.count n + s.acked.count n ≤ held _ s.callers n +
      (s.impl.pending.map Prod.snd).count n + s.taken.count n + s.acked.count n
  omega

theorem Acks.cleanup (hk : s.callers[k]? = some ⟨rounds, .cleanup request err⟩) : Acks { s with
      callers := s.callers.set k (.next rounds.tail err)
      impl := s.impl.cleanup (requestId request) } := by
  have hset : Acks { s with callers := s.callers.set k (.next rounds.tail err) } :=
    h.set hk (Caller.next_inserting _ _)
  refine hset.moved rfl (fun n => ?_) h.closes
  have herase := SortedMap.count_erase_le (requestId request) n s.impl.pending
  show held _ (s.callers.set k _) n +
    ((SortedMap.erase (requestId request) s.impl.pending).map Prod.snd).count n +
    s.taken.count n + s.acked.count n ≤ held _ (s.callers.set k _) n +
      (s.impl.pending.map Prod.snd).count n + s.taken.count n + s.acked.count n
  omega

theorem Acks.resolve {id : Nat} (happ : s.applier = .idle)
    (hlook : SortedMap.lookup id s.impl.pending = some request) : Acks { s with
      impl := { s.impl with pending := SortedMap.erase id s.impl.pending }
      applier := .acking request err } := by
  have htaken : s.taken = s.shutdown.toAck := by rw [taken, happ]; rfl
  refine h.moved rfl (fun n => ?_) fun n => ?_
  · have herase := SortedMap.count_erase_of_lookup n hlook
    show held _ s.callers n + ((SortedMap.erase id s.impl.pending).map Prod.snd).count n +
      (request :: s.shutdown.toAck).count n + s.acked.count n ≤ held _ s.callers n +
        (s.impl.pending.map Prod.snd).count n + s.taken.count n + s.acked.count n
    rw [htaken, List.count_cons]
    simp only [beq_iff_eq]
    omega
  · have hcloses := h.closes n
    rw [happ] at hcloses
    exact hcloses

theorem Acks.ack (happ : s.applier = .acking request err) : Acks { s with
      impl := { s.impl with acks := s.impl.acks ++ [(request, err)] }
      applier := .closing request } := by
  have htaken : s.taken = request :: s.shutdown.toAck := by rw [taken, happ]; rfl
  refine h.moved rfl (fun n => ?_) fun n => ?_
  · show held _ s.callers n + s.pendings.count n + s.shutdown.toAck.count n +
      ((s.impl.acks ++ [(request, err)]).map Prod.fst).count n ≤ held _ s.callers n +
        s.pendings.count n + s.taken.count n + s.acked.count n
    rw [htaken, List.count_cons, count_acks_append]
    simp only [beq_iff_eq]
    omega
  · have hcloses : s.acked.count n = s.ackClosed.count n + _ := h.closes n
    rw [happ] at hcloses
    show ((s.impl.acks ++ [(request, err)]).map Prod.fst).count n = s.ackClosed.count n +
      (request :: s.shutdown.toClose).count n
    rw [count_acks_append, hcloses, List.count_cons]
    simp only [Applier.toClose, List.nil_append, beq_iff_eq]
    omega

theorem Acks.closeAck (happ : s.applier = .closing request) :
    Acks { s with applier := .idle, ackClosed := s.ackClosed ++ [request] } := by
  have htaken : s.taken = s.shutdown.toAck := by rw [taken, happ]; rfl
  refine h.moved rfl (fun n => ?_) fun n => ?_
  · show held _ s.callers n + s.pendings.count n + s.shutdown.toAck.count n + s.acked.count n ≤
      held _ s.callers n + s.pendings.count n + s.taken.count n + s.acked.count n
    rw [htaken]
  · have hcloses := h.closes n
    rw [happ] at hcloses
    show s.acked.count n = (s.ackClosed ++ [request]).count n + s.shutdown.toClose.count n
    rw [hcloses, List.count_append, List.count_append]
    simp only [Applier.toClose]
    omega

theorem Acks.swap (hsd : s.shutdown = .stored) (hperm : rest.Perm (s.impl.pending.map Prod.snd)) :
    Acks { s with impl := { s.impl with pending := [] }, shutdown := .failing rest } := by
  have htaken : s.taken = s.applier.toAck := by rw [taken, hsd]; exact List.append_nil _
  refine h.moved rfl (fun n => ?_) fun n => ?_
  · show held _ s.callers n + ([] : List Nat).count n + (s.applier.toAck ++ rest).count n +
      s.acked.count n ≤ held _ s.callers n + s.pendings.count n + s.taken.count n +
        s.acked.count n
    rw [htaken, List.count_append, hperm.count_eq, List.count_nil]
    simp only [pendings]
    omega
  · have hcloses := h.closes n
    rw [hsd] at hcloses
    exact hcloses

theorem Acks.fail (hsd : s.shutdown = .failing (request :: rest)) : Acks { s with
      impl := { s.impl with acks := s.impl.acks ++ [(request, some ErrShuttingDown)] }
      shutdown := .closing request rest } := by
  have htaken : s.taken = s.applier.toAck ++ request :: rest := by rw [taken, hsd]; rfl
  refine h.moved rfl (fun n => ?_) fun n => ?_
  · show held _ s.callers n + s.pendings.count n + (s.applier.toAck ++ rest).count n +
      ((s.impl.acks ++ [(request, some ErrShuttingDown)]).map Prod.fst).count n ≤
        held _ s.callers n + s.pendings.count n + s.taken.count n + s.acked.count n
    rw [htaken, List.count_append, List.count_append, List.count_cons, count_acks_append]
    simp only [beq_iff_eq]
    omega
  · have hcloses : s.acked.count n = s.ackClosed.count n + _ := h.closes n
    rw [hsd] at hcloses
    show ((s.impl.acks ++ [(request, some ErrShuttingDown)]).map Prod.fst).count n =
      s.ackClosed.count n + (s.applier.toClose ++ [request]).count n
    rw [count_acks_append, hcloses, List.count_append, List.count_append, List.count_singleton]
    simp only [ShutdownPc.toClose, List.count_nil, beq_iff_eq]
    omega

theorem Acks.closeFailed (hsd : s.shutdown = .closing request rest) :
    Acks { s with shutdown := .failing rest, ackClosed := s.ackClosed ++ [request] } := by
  have htaken : s.taken = s.applier.toAck ++ rest := by rw [taken, hsd]; rfl
  refine h.moved rfl (fun n => ?_) fun n => ?_
  · show held _ s.callers n + s.pendings.count n + (s.applier.toAck ++ rest).count n +
      s.acked.count n ≤ held _ s.callers n + s.pendings.count n + s.taken.count n +
        s.acked.count n
    rw [htaken]
  · have hcloses := h.closes n
    rw [hsd] at hcloses
    show s.acked.count n = (s.ackClosed ++ [request]).count n +
      (s.applier.toClose ++ []).count n
    rw [hcloses, List.count_append, List.count_append, List.count_append, List.count_nil]
    simp only [ShutdownPc.toClose]
    omega

end Acks

theorem acks_step {s s' : Process} {l : Step} (h : Acks s) (hs : step s l = some s') : Acks s' := by
  cases step_effect hs with
  | call c =>
    refine h.moved rfl (fun n => ?_) h.closes
    have hstart := held_append s.callers (Caller.next_inserting c.rounds c.reply) n
    show held _ (s.callers ++ [_]) n + s.pendings.count n + s.taken.count n + s.acked.count n ≤ _
    rw [Caller.start, hstart]
    exact le_rfl
  | interrupted err' hk hpc => exact h.set hk rfl
  | loadRefused hk => exact h.set hk (Caller.next_inserting _ _)
  | load hk => exact h.set hk rfl
  | number hk => exact h.number hk
  | insert hk => exact h.insert hk
  | checkRefused hk => exact h.set hk rfl
  | check hk hrunning => exact h.set hk rfl
  | panic hk hclosed => exact h.set hk rfl
  | @send k request rounds hk hopen =>
    have hset : Acks (s.setCaller k rounds (.await request)) := h.set hk rfl
    exact ⟨hset.place, hset.closes⟩
  | @answer k request rounds hk hsender =>
    have hset : Acks (s.setCaller k rounds (.wait request)) := h.set hk rfl
    exact ⟨hset.place, hset.closes⟩
  | @answerFailed k request rounds err hk hsender =>
    have hset : Acks (s.setCaller k rounds
      (.cleanup request (some (Caller.wrapped rounds err)))) := h.set hk rfl
    exact ⟨hset.place, hset.closes⟩
  | receive err hk => exact h.set hk rfl
  | cleanup hk => exact h.cleanup hk
  | take hsender htake => exact ⟨h.place, h.closes⟩
  | takeClosed hsender htake hclosed => exact ⟨h.place, h.closes⟩
  | propose hsender => exact ⟨h.place, h.closes⟩
  | unknown id err => exact h
  | resolve err happ hlook => exact h.resolve happ hlook
  | ack happ => exact h.ack happ
  | closeAck happ => exact h.closeAck happ
  | Shutdown hsd =>
    have hplace := h.place
    have hcloses := h.closes
    simp only [copies, taken, hsd] at hplace hcloses
    exact ⟨hplace, hcloses⟩
  | calledAgain => exact h
  | swap hsd hperm => exact h.swap hsd hperm
  | fail hsd => exact h.fail hsd
  | closeFailed hsd => exact h.closeFailed hsd
  | closeProposeC hsd =>
    have hplace := h.place
    have hcloses := h.closes
    simp only [copies, taken, hsd] at hplace hcloses
    exact ⟨hplace, hcloses⟩

/-! ## Proposals -/

/-- The request of a caller that has put it into the table of pending ones. -/
def CallPc.pending? : CallPc → Option Nat
  | .check n | .send n | .await n | .wait n => some n
  | _ => none

/-- The request of a caller that has found the node running after that. -/
def CallPc.proposed? : CallPc → Option Nat
  | .send n | .await n | .wait n => some n
  | _ => none

theorem CallPc.request_of_pending {pc : CallPc} {n : Nat} (h : pc.pending? = some n) :
    pc.request? = some n := by
  cases pc <;> first | exact h | exact absurd h (Option.some_ne_none n).symm

theorem CallPc.pending_of_proposed {pc : CallPc} {n : Nat} (h : pc.proposed? = some n) :
    pc.pending? = some n := by
  cases pc <;> first | exact h | exact absurd h (Option.some_ne_none n).symm

def Sender.current : Sender → List Nat
  | .proposing n | .answering n => [n]
  | _ => []

def ShutdownPc.Swapped : ShutdownPc → Prop
  | .notCalled | .stored => False
  | _ => True

def heldId (callers : List Caller) (id : Nat) : Nat :=
  held (fun pc => pc.request?.map requestId) callers id

structure Proposals (s : Process) : Prop where
  ids : ∀ id, heldId s.callers id ≤ 1
  delivered : ∀ c ∈ s.callers, ∀ n, c.pc.pending? = some n →
    SortedMap.lookup (requestId n) s.impl.pending = some n ∨ n ∈ s.taken ++ s.acked
  failed : s.shutdown.Swapped → ∀ c ∈ s.callers, ∀ n, c.pc.proposed? = some n →
    n ∈ s.taken ++ s.acked
  flag : s.impl.shuttingDown = true ↔ s.shutdown ≠ .notCalled
  closed : s.proposeC.closed = true ↔ s.shutdown = .done
  unsent : s.shutdown = .done → ∀ c ∈ s.callers, c.pc.sending? = none
  queued : ∀ n, held CallPc.awaiting? s.callers n =
    (s.proposeC.waiting ++ s.sender.current).count n
  ended : s.sender = .ended → s.shutdown = .done ∧ s.proposeC.waiting = []
  unpanicked : ∀ c ∈ s.callers, c.pc ≠ .panicked

theorem proposals_init (answered : Nat → Bool) : Proposals { answered } where
  ids _ := Nat.zero_le _
  delivered _ hc := absurd hc List.not_mem_nil
  failed h := h.elim
  flag := by simp
  closed := by simp
  unsent h := ShutdownPc.noConfusion h
  queued _ := rfl
  ended h := Sender.noConfusion h
  unpanicked _ hc := absurd hc List.not_mem_nil

theorem forall_set {P : Caller → Prop} {callers : List Caller} {c' : Caller}
    (h : ∀ c ∈ callers, P c) (hc' : P c') (k : Nat) : ∀ c ∈ callers.set k c', P c := fun c hc =>
  (List.mem_or_eq_of_mem_set hc).elim (h c) fun heq => heq ▸ hc'

/-- What a caller may become without the table: it stays with its request or drops it, has put it
into the table already, and is not about to send on a closed channel. -/
structure Caller.Follows (s : Process) (c c' : Caller) : Prop where
  request : ∀ n, c'.pc.request? = some n → c.pc.request? = some n
  pending : ∀ n, c'.pc.pending? = some n → c.pc.pending? = some n
  proposed : s.shutdown.Swapped → ∀ n, c'.pc.proposed? = some n → c.pc.proposed? = some n
  sending : s.shutdown = .done → c'.pc.sending? = none
  unpanicked : c'.pc ≠ .panicked

theorem heldId_set_le {callers : List Caller} {k : Nat} {c c' : Caller}
    (hk : callers[k]? = some c) (h : ∀ n, c'.pc.request? = some n → c.pc.request? = some n)
    (id : Nat) : heldId (callers.set k c') id ≤ heldId callers id := by
  have hset := held_set (fun pc => pc.request?.map requestId) hk c' id
  unfold heldId
  by_cases hid : c'.pc.request?.map requestId = some id
  · obtain ⟨n, hn, hn'⟩ := Option.map_eq_some_iff.mp hid
    have hc : c.pc.request?.map requestId = some id :=
      Option.map_eq_some_iff.mpr ⟨n, h n hn, hn'⟩
    rw [if_pos hid, if_pos hc] at hset
    omega
  · rw [if_neg hid] at hset
    omega

theorem Proposals.follow {s : Process} (h : Proposals s) {k : Nat} {c c' : Caller}
    (hk : s.callers[k]? = some c) (hc : c.Follows s c') (proposeC : Chan Nat) (sender : Sender)
    (hclosed : proposeC.closed = s.proposeC.closed)
    (hqueued : ∀ n, held CallPc.awaiting? (s.callers.set k c') n =
      (proposeC.waiting ++ sender.current).count n)
    (hended : sender = .ended → s.shutdown = .done ∧ proposeC.waiting = []) :
    Proposals { s with callers := s.callers.set k c', proposeC := proposeC, sender := sender } where
  ids id := (heldId_set_le hk hc.request id).trans (h.ids id)
  delivered := forall_set h.delivered
    (fun n hn => h.delivered c (List.mem_of_getElem? hk) n (hc.pending n hn)) k
  failed hsw := forall_set (h.failed hsw)
    (fun n hn => h.failed hsw c (List.mem_of_getElem? hk) n (hc.proposed hsw n hn)) k
  flag := h.flag
  closed := by rw [hclosed, h.closed]
  unsent hdone := forall_set (h.unsent hdone) (hc.sending hdone) k
  queued := hqueued
  ended := hended
  unpanicked := forall_set h.unpanicked hc.unpanicked k

/-- A step of a caller on its own. -/
theorem Proposals.set {s : Process} (h : Proposals s) {k : Nat} {c c' : Caller}
    (hk : s.callers[k]? = some c) (hc : c.Follows s c')
    (hawait : c'.pc.awaiting? = c.pc.awaiting?) :
    Proposals { s with callers := s.callers.set k c' } :=
  h.follow hk hc s.proposeC s.sender rfl
    (fun n => (held_set_same CallPc.awaiting? hk c' hawait n).trans (h.queued n)) h.ended

theorem Caller.next_pc (rounds : List Round) (err : Option GoError) :
    (Caller.next rounds err).pc = .load ∨ (Caller.next rounds err).pc = .returned err := by
  cases rounds with
  | nil => exact .inr rfl
  | cons round rounds => exact .inl rfl

/-- A caller that has no request. -/
theorem Caller.follows_idle {s : Process} {c c' : Caller} (h : c'.pc.request? = none)
    (hc' : c'.pc ≠ .panicked) : c.Follows s c' := by
  have hpending := fun n (hn : c'.pc.pending? = some n) =>
    h.symm.trans (CallPc.request_of_pending hn)
  have hproposed := fun n (hn : c'.pc.proposed? = some n) =>
    hpending n (CallPc.pending_of_proposed hn)
  refine ⟨fun n hn => ?_, fun n hn => ?_, fun _ n hn => ?_, fun _ => ?_, hc'⟩
  · exact absurd (h.symm.trans hn) (Option.some_ne_none n).symm
  · exact absurd (hpending n hn) (Option.some_ne_none n).symm
  · exact absurd (hproposed n hn) (Option.some_ne_none n).symm
  · generalize c'.pc = pc at h
    cases pc <;> first | rfl | cases h

theorem Caller.next_idle (rounds : List Round) (err : Option GoError) :
    (Caller.next rounds err).pc.request? = none ∧ (Caller.next rounds err).pc.awaiting? = none ∧
      (Caller.next rounds err).pc ≠ .panicked := by
  rcases Caller.next_pc rounds err with h | h
  all_goals
    rw [h]
    exact ⟨rfl, rfl, CallPc.noConfusion⟩

/-- A caller that gives its request up. -/
theorem Caller.follows_cleanup {s : Process} {c : Caller} {n : Nat} (hn : c.pc.request? = some n)
    (rounds : List Round) (err : Option GoError) : c.Follows s ⟨rounds, .cleanup n err⟩ where
  request _ h := hn.trans h
  pending _ h := absurd h (Option.some_ne_none _).symm
  proposed _ _ h := absurd h (Option.some_ne_none _).symm
  sending _ := rfl
  unpanicked := CallPc.noConfusion

/-- Two callers have different ids. -/
theorem Proposals.other {s : Process} (h : Proposals s) {k : Nat} {c c' d : Caller}
    (hk : s.callers[k]? = some c) {request : Nat} (hc : c.pc.request? = some request)
    (hd : d ∈ s.callers.set k c') : d = c' ∨ d ∈ s.callers ∧
      ∀ n, d.pc.request? = some n → requestId n ≠ requestId request := by
  obtain ⟨j, hj⟩ := List.mem_iff_getElem?.mp hd
  rw [List.getElem?_set] at hj
  by_cases hkj : k = j
  · rw [if_pos hkj] at hj
    split at hj
    · exact .inl (Option.some.inj hj).symm
    · cases hj
  · rw [if_neg hkj] at hj
    refine .inr ⟨List.mem_of_getElem? hj, fun n hn heq => hkj ?_⟩
    have hle : s.callers.countP (fun c => c.pc.request?.map requestId = some (requestId n)) ≤ 1 :=
      h.ids (requestId n)
    refine Count.index_unique hle hk hj (decide_eq_true ?_) (decide_eq_true ?_)
    · rw [hc, heq]
      rfl
    · rw [hn]
      rfl

/-- A step of the apply loop or of `Shutdown`: what leaves the table is taken, and what is taken
is acknowledged. -/
theorem Proposals.moved {s s' : Process} (h : Proposals s) (hcallers : s'.callers = s.callers)
    (hproposeC : s'.proposeC = s.proposeC) (hsender : s'.sender = s.sender)
    (hflag : s'.impl.shuttingDown = true ↔ s'.shutdown ≠ .notCalled)
    (hdone : s'.shutdown = .done ↔ s.shutdown = .done)
    (hmem : ∀ n, n ∈ s.taken ++ s.acked → n ∈ s'.taken ++ s'.acked)
    (hlook : ∀ n, SortedMap.lookup (requestId n) s.impl.pending = some n →
      SortedMap.lookup (requestId n) s'.impl.pending = some n ∨ n ∈ s'.taken ++ s'.acked)
    (hswap : s'.shutdown.Swapped → s.shutdown.Swapped ∨
      ∀ n, SortedMap.lookup (requestId n) s.impl.pending = some n → n ∈ s'.taken ++ s'.acked) :
    Proposals s' where
  ids := hcallers ▸ h.ids
  delivered c hc n hn := by
    rw [hcallers] at hc
    exact (h.delivered c hc n hn).elim (hlook n) fun ht => .inr (hmem n ht)
  failed hsw c hc n hn := by
    rw [hcallers] at hc
    rcases hswap hsw with hsw | hall
    · exact hmem n (h.failed hsw c hc n hn)
    · exact (h.delivered c hc n (CallPc.pending_of_proposed hn)).elim (hall n) (hmem n)
  flag := hflag
  closed := by rw [hproposeC, hdone, h.closed]
  unsent hd := by
    rw [hcallers]
    exact h.unsent (hdone.mp hd)
  queued n := by rw [hcallers, hproposeC, hsender, h.queued n]
  ended he := by
    rw [hsender] at he
    rw [hdone, hproposeC]
    exact h.ended he
  unpanicked := hcallers ▸ h.unpanicked

theorem Proposals.running {s : Process} (h : Proposals s) (hs : ¬ s.impl.shuttingDown = true) :
    s.shutdown = .notCalled := by
  by_contra hne
  exact hs (h.flag.mpr hne)

theorem mem_acks_append {s : Process} {n request : Nat} {err : Option GoError} :
    n ∈ (s.impl.acks ++ [(request, err)]).map Prod.fst ↔ n ∈ s.acked ∨ n = request := by
  rw [List.map_append, List.mem_append, List.map_singleton, List.mem_singleton]
  exact Iff.rfl

section Caller

variable {s : Process} {k request : Nat} {rounds : List Round} (h : Proposals s)
include h

theorem Proposals.call (c : Call) : Proposals { s with callers := s.callers ++ [.start c] } := by
  obtain ⟨hreq, hawait, hpanic⟩ := Caller.next_idle c.rounds c.reply
  have hidle : (Caller.start c).Follows s (.start c) := Caller.follows_idle hreq hpanic
  have happend : ∀ {P : Caller → Prop}, (∀ d ∈ s.callers, P d) → P (.start c) →
      ∀ d ∈ s.callers ++ [.start c], P d := fun hold hnew d hd =>
    (List.mem_append.mp hd).elim (hold d) fun hd => List.mem_singleton.mp hd ▸ hnew
  refine ⟨fun id => ?_, happend h.delivered fun n hn => ?_,
    fun hsw => happend (h.failed hsw) fun n hn => ?_, h.flag, h.closed,
    fun hdone => happend (h.unsent hdone) (hidle.sending hdone), fun n => ?_, h.ended,
    happend h.unpanicked hpanic⟩
  · refine (held_append s.callers ?_ id).trans_le (h.ids id)
    exact congrArg (Option.map requestId) hreq
  · have hn := CallPc.request_of_pending hn
    exact absurd (hreq.symm.trans hn) (Option.some_ne_none n).symm
  · have hn := CallPc.request_of_pending (CallPc.pending_of_proposed hn)
    exact absurd (hreq.symm.trans hn) (Option.some_ne_none n).symm
  · exact (held_append s.callers hawait n).trans (h.queued n)

/-- A caller takes a number whose id no other has. -/
theorem Proposals.number (hk : s.callers[k]? = some ⟨rounds, .number⟩)
    (hfree : heldId s.callers (requestId (s.registered + 1)) = 0) :
    Proposals { s.setCaller k rounds (.insert (s.registered + 1)) with
      impl := { s.impl with nextRequestID := (s.impl.nextRequestID + 1) % 2 ^ 64 }
      registered := s.registered + 1 } := by
  refine ⟨fun id => ?_, forall_set h.delivered (fun n hn => ?_) k,
    fun hsw => forall_set (h.failed hsw) (fun n hn => ?_) k, h.flag, h.closed,
    fun hdone => forall_set (h.unsent hdone) rfl k, fun n => ?_, h.ended,
    forall_set h.unpanicked CallPc.noConfusion k⟩
  · have hset := held_set_enter (fun pc => pc.request?.map requestId) hk
      ⟨rounds, .insert (s.registered + 1)⟩ rfl rfl id
    have hold := h.ids id
    show held _ (s.callers.set k _) id ≤ 1
    unfold heldId at hold hfree
    by_cases hid : requestId (s.registered + 1) = id
    · rw [if_pos hid] at hset
      rw [hid] at hfree
      omega
    · rw [if_neg hid] at hset
      omega
  · exact absurd hn (Option.some_ne_none n).symm
  · exact absurd hn (Option.some_ne_none n).symm
  · have hsame := held_set_same CallPc.awaiting? hk ⟨rounds, .insert (s.registered + 1)⟩ rfl n
    exact hsame.trans (h.queued n)

theorem Proposals.insert (hk : s.callers[k]? = some ⟨rounds, .insert request⟩) :
    Proposals { s.setCaller k rounds (.check request) with
      impl := { s.impl with
        pending := SortedMap.insert (requestId request) request s.impl.pending } } := by
  have hle : ∀ id, heldId (s.callers.set k ⟨rounds, .check request⟩) id ≤ heldId s.callers id :=
    heldId_set_le hk fun n hn => hn
  refine ⟨fun id => (hle id).trans (h.ids id), fun d hd n hn => ?_,
    fun hsw => forall_set (h.failed hsw) (fun n hn => ?_) k, h.flag, h.closed,
    fun hdone => forall_set (h.unsent hdone) rfl k, fun n => ?_, h.ended,
    forall_set h.unpanicked CallPc.noConfusion k⟩
  · show SortedMap.lookup (requestId n)
      (SortedMap.insert (requestId request) request s.impl.pending) = some n ∨ _
    rw [SortedMap.lookup_insert]
    rcases h.other hk rfl hd with rfl | ⟨hd, hother⟩
    · cases hn
      exact .inl (if_pos rfl)
    · rw [if_neg (hother n (CallPc.request_of_pending hn))]
      exact h.delivered d hd n hn
  · exact absurd hn (Option.some_ne_none n).symm
  · exact (held_set_same CallPc.awaiting? hk ⟨rounds, .check request⟩ rfl n).trans (h.queued n)

/-- A caller that finds the flag down is ahead of `Shutdown`. -/
theorem Proposals.check (hk : s.callers[k]? = some ⟨rounds, .check request⟩)
    (hrunning : ¬ s.impl.shuttingDown = true) :
    Proposals (s.setCaller k rounds (.send request)) := by
  have hnot : s.shutdown = .notCalled := h.running hrunning
  refine h.set hk ⟨fun n hn => hn, fun n hn => hn, fun hsw => ?_, fun hdone => ?_,
    CallPc.noConfusion⟩ rfl
  · rw [hnot] at hsw
    exact hsw.elim
  · rw [hnot] at hdone
    exact ShutdownPc.noConfusion hdone

theorem Proposals.send (hk : s.callers[k]? = some ⟨rounds, .send request⟩)
    (hopen : ¬ s.proposeC.closed = true) : Proposals
      { s.setCaller k rounds (.await request) with proposeC := s.proposeC.push request } := by
  have hfollows : Caller.Follows s ⟨rounds, .send request⟩ ⟨rounds, .await request⟩ :=
    ⟨fun n hn => hn, fun n hn => hn, fun _ n hn => hn, fun _ => rfl, CallPc.noConfusion⟩
  refine h.follow hk hfollows (s.proposeC.push request) s.sender rfl (fun n => ?_) fun he => ?_
  · have hset := held_set_enter CallPc.awaiting? hk ⟨rounds, .await request⟩ rfl rfl n
    have hold := h.queued n
    show held _ (s.callers.set k _) n =
      ((s.proposeC.waiting ++ [request]) ++ s.sender.current).count n
    rw [List.count_append] at hold
    rw [List.count_append, List.count_append, List.count_singleton]
    simp only [beq_iff_eq]
    omega
  · exact absurd (h.closed.mpr (h.ended he).1) hopen

/-- A caller has the answer to its proposal. -/
theorem Proposals.answered (hk : s.callers[k]? = some ⟨rounds, .await request⟩)
    (hsender : s.sender = .answering request) {pc : CallPc} (hpc : pc.awaiting? = none)
    (hfollows : Caller.Follows s ⟨rounds, .await request⟩ ⟨rounds, pc⟩) :
    Proposals { s.setCaller k rounds pc with sender := .receiving } := by
  refine h.follow hk hfollows s.proposeC .receiving rfl (fun n => ?_) Sender.noConfusion
  have hset := held_set_leave CallPc.awaiting? hk ⟨rounds, pc⟩ rfl hpc n
  have hold := h.queued n
  rw [hsender, List.count_append] at hold
  show held _ (s.callers.set k _) n = (s.proposeC.waiting ++ []).count n
  rw [List.append_nil]
  simp only [Sender.current, List.count_singleton, beq_iff_eq] at hold
  omega

theorem Proposals.cleanup {err : Option GoError}
    (hk : s.callers[k]? = some ⟨rounds, .cleanup request err⟩) : Proposals { s with
      callers := s.callers.set k (.next rounds.tail err)
      impl := s.impl.cleanup (requestId request) } := by
  obtain ⟨hreq, hawait, hpanic⟩ := Caller.next_idle rounds.tail err
  have hset := h.set hk (Caller.follows_idle hreq hpanic) hawait
  refine ⟨hset.ids, fun d hd n hn => ?_, hset.failed, hset.flag, hset.closed, hset.unsent,
    hset.queued, hset.ended, hset.unpanicked⟩
  show SortedMap.lookup (requestId n)
    (SortedMap.erase (requestId request) s.impl.pending) = some n ∨ _
  rw [SortedMap.lookup_erase]
  rcases h.other hk rfl hd with rfl | ⟨hd, hother⟩
  · rcases Caller.next_pc rounds.tail err with hpc | hpc
    all_goals
      rw [hpc] at hn
      exact absurd hn (Option.some_ne_none n).symm
  · rw [if_neg (hother n (CallPc.request_of_pending hn))]
    exact h.delivered d hd n hn

end Caller

section Others

variable {s : Process} (h : Proposals s) {request : Nat} {rest : List Nat} {err : Option GoError}
include h

theorem Proposals.take {proposeC : Chan Nat} (hsender : s.sender = .receiving)
    (htake : s.proposeC.take = some (request, proposeC)) :
    Proposals { s with sender := .proposing request, proposeC := proposeC } := by
  obtain ⟨hwaiting, -, hclosed⟩ := Chan.take_eq_some htake
  refine ⟨h.ids, h.delivered, h.failed, h.flag, ?_, h.unsent, fun n => ?_, Sender.noConfusion,
    h.unpanicked⟩
  · rw [hclosed]
    exact h.closed
  · have hold := h.queued n
    rw [hsender, hwaiting, List.count_append, List.count_cons] at hold
    simp only [Sender.current, List.count_append, List.count_singleton, List.count_nil] at hold ⊢
    omega

theorem Proposals.takeClosed (hsender : s.sender = .receiving) (htake : s.proposeC.take = none)
    (hclosed : s.proposeC.closed = true) : Proposals { s with sender := .ended } := by
  refine ⟨h.ids, h.delivered, h.failed, h.flag, h.closed, h.unsent, fun n => ?_,
    fun _ => ⟨h.closed.mp hclosed, ?_⟩, h.unpanicked⟩
  · have hold := h.queued n
    rw [hsender] at hold
    exact hold
  · unfold Chan.take at htake
    split at htake
    · assumption
    · cases htake

theorem Proposals.resolve {id : Nat} (happ : s.applier = .idle)
    (hlook : SortedMap.lookup id s.impl.pending = some request) : Proposals { s with
      impl := { s.impl with pending := SortedMap.erase id s.impl.pending }
      applier := .acking request err } := by
  have htaken : s.taken = s.shutdown.toAck := by rw [taken, happ]; rfl
  refine h.moved rfl rfl rfl h.flag Iff.rfl (fun n hn => ?_) (fun n hn => ?_) .inl
  · rw [htaken] at hn
    exact List.mem_cons_of_mem _ hn
  · show SortedMap.lookup (requestId n) (SortedMap.erase id s.impl.pending) = some n ∨ _
    rw [SortedMap.lookup_erase]
    by_cases hid : requestId n = id
    · rw [hid] at hn
      cases hlook.symm.trans hn
      exact .inr List.mem_cons_self
    · rw [if_neg hid]
      exact .inl hn

theorem Proposals.ack (happ : s.applier = .acking request err) : Proposals { s with
      impl := { s.impl with acks := s.impl.acks ++ [(request, err)] }
      applier := .closing request } := by
  have htaken : s.taken = request :: s.shutdown.toAck := by rw [taken, happ]; rfl
  refine h.moved rfl rfl rfl h.flag Iff.rfl (fun n hn => ?_) (fun n hn => .inl hn) .inl
  rw [htaken, List.mem_append, List.mem_cons] at hn
  show n ∈ s.shutdown.toAck ++ (s.impl.acks ++ [(request, err)]).map Prod.fst
  rw [List.mem_append, mem_acks_append]
  tauto

theorem Proposals.closeAck (happ : s.applier = .closing request) :
    Proposals { s with applier := .idle, ackClosed := s.ackClosed ++ [request] } := by
  have htaken : s.taken = s.shutdown.toAck := by rw [taken, happ]; rfl
  refine h.moved rfl rfl rfl h.flag Iff.rfl (fun n hn => ?_) (fun n hn => .inl hn) .inl
  rw [htaken] at hn
  exact hn

theorem Proposals.Shutdown (hsd : s.shutdown = .notCalled) : Proposals
    { s with impl := { s.impl with shuttingDown := true }, shutdown := .stored } := by
  have htaken : s.taken = s.applier.toAck := by rw [taken, hsd]; exact List.append_nil _
  refine h.moved rfl rfl rfl ⟨fun _ => ShutdownPc.noConfusion, fun _ => rfl⟩ ?_ (fun n hn => ?_)
    (fun n hn => .inl hn) False.elim
  · rw [hsd]
    exact ⟨ShutdownPc.noConfusion, ShutdownPc.noConfusion⟩
  · rw [htaken] at hn
    show n ∈ (s.applier.toAck ++ []) ++ s.acked
    rw [List.append_nil]
    exact hn

theorem Proposals.swap (hsd : s.shutdown = .stored)
    (hperm : rest.Perm (s.impl.pending.map Prod.snd)) :
    Proposals { s with impl := { s.impl with pending := [] }, shutdown := .failing rest } := by
  have htaken : s.taken = s.applier.toAck := by rw [taken, hsd]; exact List.append_nil _
  have hrest : ∀ n, SortedMap.lookup (requestId n) s.impl.pending = some n →
      n ∈ (s.applier.toAck ++ rest) ++ s.acked := by
    intro n hn
    have hmem := List.mem_map_of_mem (f := Prod.snd) (SortedMap.mem_of_lookup hn)
    exact List.mem_append_left _ (List.mem_append_right _ (hperm.mem_iff.mpr hmem))
  refine h.moved rfl rfl rfl ⟨fun _ => ShutdownPc.noConfusion, fun _ => ?_⟩ ?_ (fun n hn => ?_)
    (fun n hn => .inr (hrest n hn)) fun _ => .inr hrest
  · exact h.flag.mpr (hsd ▸ ShutdownPc.noConfusion)
  · rw [hsd]
    exact ⟨ShutdownPc.noConfusion, ShutdownPc.noConfusion⟩
  · rw [htaken] at hn
    exact (List.mem_append.mp hn).elim
      (fun hn => List.mem_append_left _ (List.mem_append_left _ hn)) (List.mem_append_right _)

theorem Proposals.fail (hsd : s.shutdown = .failing (request :: rest)) : Proposals { s with
      impl := { s.impl with acks := s.impl.acks ++ [(request, some ErrShuttingDown)] }
      shutdown := .closing request rest } := by
  have htaken : s.taken = s.applier.toAck ++ request :: rest := by rw [taken, hsd]; rfl
  refine h.moved rfl rfl rfl ⟨fun _ => ShutdownPc.noConfusion, fun _ => ?_⟩ ?_ (fun n hn => ?_)
    (fun n hn => .inl hn) fun _ => .inl (hsd ▸ trivial)
  · exact h.flag.mpr (hsd ▸ ShutdownPc.noConfusion)
  · rw [hsd]
    exact ⟨ShutdownPc.noConfusion, ShutdownPc.noConfusion⟩
  · rw [htaken, List.mem_append, List.mem_append, List.mem_cons] at hn
    show n ∈ (s.applier.toAck ++ rest) ++
      (s.impl.acks ++ [(request, some ErrShuttingDown)]).map Prod.fst
    rw [List.mem_append, List.mem_append, mem_acks_append]
    tauto

theorem Proposals.closeFailed (hsd : s.shutdown = .closing request rest) :
    Proposals { s with shutdown := .failing rest, ackClosed := s.ackClosed ++ [request] } := by
  have htaken : s.taken = s.applier.toAck ++ rest := by rw [taken, hsd]; rfl
  refine h.moved rfl rfl rfl ⟨fun _ => ShutdownPc.noConfusion, fun _ => ?_⟩ ?_ (fun n hn => ?_)
    (fun n hn => .inl hn) fun _ => .inl (hsd ▸ trivial)
  · exact h.flag.mpr (hsd ▸ ShutdownPc.noConfusion)
  · rw [hsd]
    exact ⟨ShutdownPc.noConfusion, ShutdownPc.noConfusion⟩
  · rw [htaken] at hn
    exact hn

/-- The channel is closed when nobody is about to send. -/
theorem Proposals.closeProposeC (hsd : s.shutdown = .failing [])
    (hl : ∀ c ∈ s.callers, c.pc.sending? = none) :
    Proposals { s with proposeC := s.proposeC.close, shutdown := .done } := by
  have htaken : s.taken = s.applier.toAck := by rw [taken, hsd]; exact List.append_nil _
  have htaken' : s.applier.toAck ++ [] ++ s.acked = s.taken ++ s.acked := by
    rw [htaken, List.append_nil]
  have hsw : s.shutdown.Swapped := hsd ▸ trivial
  refine ⟨h.ids, fun c hc n hn => ?_, fun _ c hc n hn => ?_,
    ⟨fun _ => ShutdownPc.noConfusion, fun _ => ?_⟩, ⟨fun _ => rfl, fun _ => rfl⟩, fun _ => hl,
    h.queued, fun he => ⟨rfl, (h.ended he).2⟩, h.unpanicked⟩
  · have hold := h.delivered c hc n hn
    rw [← htaken'] at hold
    exact hold
  · have hold := h.failed hsw c hc n hn
    rw [← htaken'] at hold
    exact hold
  · exact h.flag.mpr (hsd ▸ ShutdownPc.noConfusion)

end Others

theorem proposals_step {s s' : Process} {l : Step} (h : Proposals s) (hl : s.Orderly l)
    (hs : step s l = some s') : Proposals s' := by
  cases step_effect hs with
  | call c => exact h.call c
  | interrupted err' hk hpc =>
    have hnot := hl _ hk
    rcases hpc with rfl | rfl | rfl
    · exact h.set hk (Caller.follows_cleanup rfl _ _) rfl
    · cases hnot
    · exact h.set hk (Caller.follows_cleanup rfl _ _) rfl
  | @loadRefused k rounds hk =>
    obtain ⟨hreq, hawait, hpanic⟩ := Caller.next_idle rounds.tail (some ErrShuttingDown)
    exact h.set hk (Caller.follows_idle hreq hpanic) hawait
  | load hk => exact h.set hk (Caller.follows_idle rfl CallPc.noConfusion) rfl
  | number hk =>
    refine h.number hk (Nat.eq_zero_of_not_pos fun hpos => ?_)
    obtain ⟨c, hc, hid⟩ := held_pos.mp hpos
    exact hl c hc hid
  | insert hk => exact h.insert hk
  | checkRefused hk => exact h.set hk (Caller.follows_cleanup rfl _ _) rfl
  | check hk hrunning => exact h.check hk hrunning
  | @panic k request rounds hk hclosed =>
    have hunsent := h.unsent (h.closed.mp hclosed) _ (List.mem_of_getElem? hk)
    exact absurd hunsent (Option.some_ne_none request)
  | send hk hopen => exact h.send hk hopen
  | answer hk hsender =>
    exact h.answered hk hsender rfl
      ⟨fun n hn => hn, fun n hn => hn, fun _ n hn => hn, fun _ => rfl, CallPc.noConfusion⟩
  | answerFailed err hk hsender =>
    exact h.answered hk hsender rfl (Caller.follows_cleanup rfl _ _)
  | receive err hk => exact h.set hk (Caller.follows_cleanup rfl _ _) rfl
  | cleanup hk => exact h.cleanup hk
  | take hsender htake => exact h.take hsender htake
  | takeClosed hsender htake hclosed => exact h.takeClosed hsender htake hclosed
  | propose hsender =>
    refine ⟨h.ids, h.delivered, h.failed, h.flag, h.closed, h.unsent, fun n => ?_,
      Sender.noConfusion, h.unpanicked⟩
    have hold := h.queued n
    rw [hsender] at hold
    exact hold
  | unknown id err => exact h
  | resolve err happ hlook => exact h.resolve happ hlook
  | ack happ => exact h.ack happ
  | closeAck happ => exact h.closeAck happ
  | Shutdown hsd => exact h.Shutdown hsd
  | calledAgain => exact h
  | swap hsd hperm => exact h.swap hsd hperm
  | fail hsd => exact h.fail hsd
  | closeFailed hsd => exact h.closeFailed hsd
  | closeProposeC hsd => exact h.closeProposeC hsd hl

/-! ## Raft's answers -/

/-- `Propose` comes back for the proposal that raft has. -/
def Returning (s : Process) : Prop :=
  ∀ request, s.sender = .proposing request → s.ProposeReturns request

theorem ProposeReturns.follow {s s' : Process} {n : Nat} (h : s.ProposeReturns n)
    (hanswered : s'.answered = s.answered)
    (hcallers : ∀ c ∈ s'.callers, c ∈ s.callers ∨ c.stays n = false) : s'.ProposeReturns n := by
  rcases h with h | h
  · exact .inl (hanswered ▸ h)
  · exact .inr fun c hc => (hcallers c hc).elim (h c) id

/-- A step of a caller that does not begin to wait for an answer. -/
theorem Returning.set {s : Process} (h : Returning s) {c' : Caller}
    (hc : ∀ n, c'.stays n = false) (k : Nat) :
    Returning { s with callers := s.callers.set k c' } := by
  refine fun n hn => (h n hn).follow rfl fun d hd => ?_
  rcases List.mem_or_eq_of_mem_set hd with hd | rfl
  · exact .inl hd
  · exact .inr (hc n)

theorem Caller.next_stays (rounds : List Round) (err : Option GoError) (n : Nat) :
    (Caller.next rounds err).stays n = false := by
  unfold Caller.stays
  rcases Caller.next_pc rounds err with h | h <;> rw [h]

/-- What a caller is about to send is not the proposal that raft has. -/
theorem Proposals.sending_ne {s : Process} (h : Proposals s) {k request n : Nat}
    {rounds : List Round} (hk : s.callers[k]? = some ⟨rounds, .send request⟩)
    (hsender : s.sender = .proposing n) : request ≠ n := by
  rintro rfl
  have hpos : 0 < held CallPc.awaiting? s.callers request := by
    rw [h.queued request, hsender, List.count_append]
    simp [Sender.current]
  obtain ⟨d, hd, hawait⟩ := held_pos.mp hpos
  obtain ⟨j, hj⟩ := List.mem_iff_getElem?.mp hd
  have hreq : d.pc.request? = some request := by
    generalize d.pc = pc at hawait
    cases pc <;> first | exact hawait | cases hawait
  have hle : s.callers.countP
      (fun c => c.pc.request?.map requestId = some (requestId request)) ≤ 1 :=
    h.ids (requestId request)
  have hkj := Count.index_unique hle hk hj (decide_eq_true rfl) (decide_eq_true (by rw [hreq]; rfl))
  rw [← hkj, hk] at hj
  cases Option.some.inj hj
  cases hawait

theorem returning_step {s s' : Process} {l : Step} (h : Proposals s) (hr : Returning s)
    (hl : s.Orderly l) (hs : step s l = some s') : Returning s' := by
  cases step_effect hs with
  | call c =>
    refine fun n hn => (hr n hn).follow rfl fun c' hc' => ?_
    refine (List.mem_append.mp hc').imp_right fun hstart => ?_
    rw [List.mem_singleton.mp hstart]
    exact Caller.next_stays _ _ n
  | interrupted err' hk hpc => exact hr.set (fun _ => rfl) _
  | loadRefused hk => exact hr.set (Caller.next_stays _ _) _
  | load hk => exact hr.set (fun _ => rfl) _
  | number hk =>
    refine hr.set (fun _ => ?_) _
    rfl
  | insert hk =>
    refine hr.set (fun _ => ?_) _
    rfl
  | checkRefused hk => exact hr.set (fun _ => rfl) _
  | check hk hrunning => exact hr.set (fun _ => rfl) _
  | panic hk hclosed => exact hr.set (fun _ => rfl) _
  | @send k request rounds hk hopen =>
    refine fun n hn => (hr n hn).follow rfl fun c' hc' => ?_
    refine (List.mem_or_eq_of_mem_set hc').imp_right fun heq => ?_
    have hne : request ≠ n := h.sending_ne hk hn
    rw [heq]
    simp [Caller.stays, hne]
  | receive err hk => exact hr.set (fun _ => rfl) _
  | cleanup hk => exact hr.set (Caller.next_stays _ _) _
  | take hsender htake =>
    intro n hn
    cases hn
    exact hl _ htake
  | answer hk hsender | answerFailed err hk hsender | takeClosed hsender htake hclosed
  | propose hsender =>
    intro n hn
    cases hn
  | unknown id err | resolve err happ hlook | ack happ | closeAck happ | Shutdown hsd
  | calledAgain | swap hsd hperm | fail hsd | closeFailed hsd | closeProposeC hsd => exact hr

/-! ## Coming to rest -/

theorem Caller.work_next (rounds : List Round) (err : Option GoError) :
    (Caller.next rounds err).work ≤ 15 * rounds.length := by
  cases rounds with
  | nil => exact Nat.zero_le _
  | cons round rounds =>
    simp only [next, Caller.work, CallPc.work, List.tail_cons, List.length_cons]
    omega

/-- A caller's own step that leaves it less to do. -/
theorem work_set {s : Process} {k : Nat} {c c' : Caller} (hk : s.callers[k]? = some c)
    (hc : c'.work < c.work) : work { s with callers := s.callers.set k c' } < s.work := by
  have hset := Count.sum_map_set Caller.work hk c'
  simp only [work]
  omega

theorem work_setPc {s : Process} {k : Nat} {rounds : List Round} {pc pc' : CallPc}
    (hk : s.callers[k]? = some ⟨rounds, pc⟩) (hpc : pc'.work < pc.work) :
    work (s.setCaller k rounds pc') < s.work :=
  work_set hk (Nat.add_lt_add_right hpc _)

theorem work_answered {s : Process} {k request : Nat} {rounds : List Round} {pc : CallPc}
    (hk : s.callers[k]? = some ⟨rounds, .await request⟩) (hsender : s.sender = .answering request)
    (hpc : pc.work ≤ 2) : work { s.setCaller k rounds pc with sender := .receiving } < s.work := by
  have hset : _ + (3 + 15 * rounds.tail.length) = _ + (pc.work + 15 * rounds.tail.length) :=
    Count.sum_map_set Caller.work hk ⟨rounds, pc⟩
  simp only [work, setCaller]
  rw [hsender]
  simp only [Sender.work]
  omega

theorem work_step {s s' : Process} {l : Step} (hl : l.Internal) (hs : step s l = some s') :
    s'.work < s.work := by
  cases step_effect hs with
  | call c => exact hl.elim
  | interrupted err' hk hpc => exact hl.elim
  | @loadRefused k rounds hk =>
    refine work_set hk ?_
    have hnext := Caller.work_next rounds.tail (some ErrShuttingDown)
    have hload : Caller.work ⟨rounds, .load⟩ = 14 + 15 * rounds.tail.length := rfl
    omega
  | load hk => exact work_setPc hk (by simp [CallPc.work])
  | number hk => exact work_setPc hk (by simp [CallPc.work])
  | @insert k request rounds hk =>
    have hset : _ + (12 + 15 * rounds.tail.length) = _ + (9 + 15 * rounds.tail.length) :=
      Count.sum_map_set Caller.work hk ⟨rounds, .check request⟩
    have hlen := SortedMap.length_insert_le (requestId request) request s.impl.pending
    simp only [work, setCaller]
    omega
  | checkRefused hk => exact work_setPc hk (by simp [CallPc.work])
  | check hk hrunning => exact work_setPc hk (by simp [CallPc.work])
  | panic hk hclosed => exact work_setPc hk (by simp [CallPc.work])
  | @send k request rounds hk hopen =>
    have hset : _ + (8 + 15 * rounds.tail.length) = _ + (3 + 15 * rounds.tail.length) :=
      Count.sum_map_set Caller.work hk ⟨rounds, .await request⟩
    simp only [work, setCaller, Chan.push, List.length_append, List.length_singleton]
    omega
  | answer hk hsender => exact work_answered hk hsender le_rfl
  | answerFailed err hk hsender => exact work_answered hk hsender (Nat.le_succ 1)
  | receive err hk => exact work_setPc hk (by simp [CallPc.work])
  | @cleanup k request rounds err hk =>
    have hset : _ + (1 + 15 * rounds.tail.length) = _ + (Caller.next rounds.tail err).work :=
      Count.sum_map_set Caller.work hk _
    have hnext := Caller.work_next rounds.tail err
    have hlen := SortedMap.length_erase_le (requestId request) s.impl.pending
    simp only [work, RaftNode.cleanup]
    omega
  | take hsender htake =>
    simp only [work, hsender, Sender.work, (Chan.take_eq_some htake).1, List.length_cons]
    omega
  | takeClosed hsender htake hclosed =>
    simp only [work, hsender, Sender.work]
    omega
  | propose hsender =>
    simp only [work, hsender, Sender.work]
    omega
  | unknown id err => exact hl.elim
  | resolve err happ hlook => exact hl.elim
  | ack happ =>
    simp only [work, happ, Applier.work]
    omega
  | closeAck happ =>
    simp only [work, happ, Applier.work]
    omega
  | Shutdown hsd => exact hl.elim
  | calledAgain => exact hl.elim
  | swap hsd hperm =>
    have hlen := hperm.length_eq
    rw [List.length_map] at hlen
    simp only [work, hsd, ShutdownPc.work, List.length_nil]
    omega
  | fail hsd =>
    simp only [work, hsd, ShutdownPc.work, List.length_cons]
    omega
  | closeFailed hsd =>
    simp only [work, hsd, ShutdownPc.work]
    omega
  | closeProposeC hsd =>
    simp only [work, hsd, ShutdownPc.work, Chan.close, List.length_nil]
    omega

/-- After `Shutdown`, when no goroutine can go on, it is `Shutdown` and `sendProposals` that have
ended, and everything that was taken has been acknowledged. -/
theorem ended_of_quiescent {s : Process} (h : Proposals s) (hr : Returning s)
    (hcalled : s.shutdown ≠ .notCalled) (hq : s.Quiescent) : s.shutdown = .done ∧ s.taken = [] ∧ s.sender = .ended := by
  have hdone : s.shutdown = .done := by
    cases hsd : s.shutdown with
    | notCalled => exact absurd hsd hcalled
    | stored =>
      have hswap := hq (.swap s.pendings) trivial
      simp [step, hsd, pendings] at hswap
    | failing rest =>
      cases rest with
      | nil =>
        have hclose := hq .closeProposeC trivial
        simp [step, hsd] at hclose
      | cons request rest =>
        have hfail := hq .fail trivial
        simp [step, hsd] at hfail
    | closing request rest =>
      have hclose := hq .closeFailed trivial
      simp [step, hsd] at hclose
    | done => rfl
  have hidle : s.applier = .idle := by
    cases happ : s.applier with
    | idle => rfl
    | acking request err =>
      have hack := hq .ack trivial
      simp [step, happ] at hack
    | closing request =>
      have hclose := hq .closeAck trivial
      simp [step, happ] at hclose
  refine ⟨hdone, by rw [taken, hidle, hdone]; rfl, ?_⟩
  cases hsender : s.sender with
  | receiving =>
    cases htake : s.proposeC.take with
    | none =>
      have hend := hq .takeClosed trivial
      simp [step, hsender, htake, h.closed.mpr hdone] at hend
    | some p =>
      have hrecv := hq .take trivial
      simp [step, hsender, htake] at hrecv
  | proposing request =>
    have hpropose := hq .propose trivial
    simp [step, hsender, hr request hsender] at hpropose
  | answering request =>
    have hpos : 0 < held CallPc.awaiting? s.callers request := by
      rw [h.queued request, hsender, List.count_append]
      simp [Sender.current]
    obtain ⟨c, hc, hawait⟩ := held_pos.mp hpos
    obtain ⟨k, hk⟩ := List.mem_iff_getElem?.mp hc
    obtain ⟨rounds, pc⟩ := c
    cases pc <;> simp only [CallPc.awaiting?, reduceCtorEq, Option.some.injEq] at hawait
    have hanswer := hq (.answer k none) trivial
    simp [step, hk, hsender, hawait] at hanswer
  | ended => rfl

theorem returned_of_quiescent {s : Process} (h : Proposals s) (hr : Returning s)
    (hcalled : s.shutdown ≠ .notCalled) (hq : s.Quiescent) :
    ∀ c ∈ s.callers, ∃ err, c.pc = .returned err := by
  obtain ⟨hdone, htaken, hended⟩ := ended_of_quiescent h hr hcalled hq
  intro c hc
  obtain ⟨k, hk⟩ := List.mem_iff_getElem?.mp hc
  obtain ⟨rounds, pc⟩ := c
  cases pc with
  | load =>
    have hload := hq (.load k) trivial
    simp only [step, hk] at hload
    split at hload <;> cases hload
  | number =>
    have hnumber := hq (.number k) trivial
    simp [step, hk] at hnumber
  | insert request =>
    have hinsert := hq (.insert k) trivial
    simp [step, hk] at hinsert
  | check request =>
    have hcheck := hq (.check k) trivial
    simp only [step, hk] at hcheck
    split at hcheck <;> cases hcheck
  | send request => exact absurd (h.unsent hdone _ hc) (Option.some_ne_none request)
  | await request =>
    have hpos : 0 < held CallPc.awaiting? s.callers request := held_pos.mpr ⟨_, hc, rfl⟩
    rw [h.queued request, (h.ended hended).2, hended] at hpos
    exact absurd hpos (Nat.lt_irrefl 0)
  | wait request =>
    have hacked : request ∈ s.taken ++ s.acked := h.failed (hdone ▸ trivial) _ hc request rfl
    rw [htaken, List.nil_append] at hacked
    obtain ⟨ack, hack, hfst⟩ := List.mem_map.mp hacked
    have hreceive := hq (.receive k) trivial
    simp only [step, hk] at hreceive
    split at hreceive
    · cases hreceive
    · next hnone =>
      exact absurd (decide_eq_true hfst) (List.find?_eq_none.mp hnone ack hack)
  | cleanup request err =>
    have hcleanup := hq (.cleanup k) trivial
    simp [step, hk] at hcleanup
  | returned err => exact ⟨err, rfl⟩
  | panicked => exact absurd rfl (h.unpanicked _ hc)

/-- In every run whose steps all meet the condition, no caller sends on the closed channel of
proposals, requests are acknowledged and their channels closed once, and after `Shutdown` every
call returns. -/
theorem safe_of_orderly (answered : Nat → Bool) (ls : List Step)
    (h : Transition.EachStep step (fun s l _ => s.Orderly l) { answered } ls) :
    Transition.EachState step Safe { answered } ls := by
  refine (Transition.eachState_of_eachStep (fun s => Acks s ∧ Proposals s ∧ Returning s)
    (fun s l s' hi hl hs => ?_) ⟨?_, proposals_init answered, ?_⟩ h).mono fun s hs => ?_
  · exact ⟨acks_step hi.1 hs, proposals_step hi.2.1 hl hs, returning_step hi.2.1 hi.2.2 hl hs⟩
  · refine ⟨fun n => ?_, fun _ => rfl⟩
    exact Nat.zero_le _
  · exact fun _ hn => Sender.noConfusion hn
  · exact ⟨hs.2.1.unpanicked, hs.1.acked_nodup, hs.1.closed_nodup,
      returned_of_quiescent hs.2.1 hs.2.2, fun l s' hl hs => work_step hl hs⟩

instance (s : Process) : ∀ l, Decidable (s.Orderly l)
  | .closeProposeC => inferInstanceAs (Decidable (∀ c ∈ s.callers, c.pc.sending? = none))
  | .ctxDone k _ => inferInstanceAs (Decidable (∀ c ∈ s.callers[k]?, c.pc.awaiting? = none))
  | .number _ => inferInstanceAs (Decidable (∀ c ∈ s.callers,
      c.pc.request?.map requestId ≠ some (requestId (s.registered + 1))))
  | .take => inferInstanceAs (Decidable (∀ p ∈ s.proposeC.take, s.ProposeReturns p.1))
  | .call _ | .load _ | .insert _ | .check _ | .send _ | .answer _ _ | .receive _ | .cleanup _
  | .takeClosed | .propose | .resolve _ _ | .ack | .closeAck | .Shutdown | .swap _ | .fail
  | .closeFailed => isTrue trivial

/-- A call removes an expired value and is applied, gives its own request up and returns; another
is waiting and a third is about to look at the flag when the node is shut down. -/
def inFlight : List Step :=
  [.call (.SetKV (some true) true false), .call (.UnsetKV true), .call (.sweep 1), .load 0,
    .number 0, .insert 0, .check 0, .send 0, .take, .propose, .answer 0 none, .resolve 1 none, .ack,
    .receive 0, .closeAck, .cleanup 0, .load 1, .number 1, .insert 1, .check 1, .send 1, .take,
    .load 0, .number 0, .insert 0, .check 0, .ctxDone 0 (.text "context canceled"), .cleanup 0,
    .load 2, .number 2, .insert 2, .Shutdown, .check 2, .swap [4, 2], .fail, .closeFailed, .fail,
    .closeFailed, .closeProposeC, .propose, .answer 1 none, .takeClosed, .cleanup 2, .receive 1,
    .cleanup 1]

theorem inFlight_safe : Transition.EachState step Safe { answered := (· ≤ 2) } inFlight :=
  safe_of_orderly (· ≤ 2) inFlight (by decide +kernel)

/-- The node is shut down when a caller has seen that it is not shutting down. -/
def closedBeforeSend : List Step :=
  [.call (.UnsetKV true), .load 0, .number 0, .insert 0, .check 0, .Shutdown, .swap [1], .fail,
    .closeFailed, .closeProposeC, .send 0]

theorem closedBeforeSend_not_safe : ¬ Transition.EachState step Safe {} closedBeforeSend := by
  intro h
  have hend : (Transition.run step {} closedBeforeSend).map
      (fun s => s.callers.map fun c => c.pc matches .panicked) = some [true] := by decide +kernel
  obtain ⟨s, hrun, hs⟩ := Option.map_eq_some_iff.mp hend
  have hsafe : s.Safe := h.of_run hrun
  obtain ⟨c, hc, hpc⟩ := List.mem_map.mp (hs ▸ List.mem_singleton_self true)
  refine hsafe.unpanicked c hc ?_
  cases hcpc : c.pc <;> rw [hcpc] at hpc <;> first | rfl | cases hpc

end Process

end Cassem.KV
