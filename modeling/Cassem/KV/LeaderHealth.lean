import Cassem.Lib.Chan
import Cassem.Lib.Transition
import Mathlib.Logic.Function.Basic

/-!
# The health status of the leader

The event loop sends the states of raft to a goroutine that passes on, to every channel that has
been registered, whether the node is the leader; a channel without room is passed over. The health
consumer registers its channel, asks for the state once, and then follows its channel.
-/

namespace Cassem.KV

open Lib

inductive StateType where
  | StateFollower
  | StateCandidate
  | StateLeader
  | StatePreCandidate
  deriving DecidableEq, Repr

def StateType.isLeader (state : StateType) : Bool := state = .StateLeader

inductive ServingStatus where
  | SERVING
  | NOT_SERVING
  deriving DecidableEq, Repr

/-! ## The health server -/

def services : List String := ["cassem.api.kv.KV", "cassem.api.kv.Cluster"]

def gRPCHealthService : String := "cassemkv.RaftLeader"

def servingStatus (isLeader : Bool) : ServingStatus := if isLeader then .SERVING else .NOT_SERVING

abbrev Health := String → Option ServingStatus

def Health.SetServingStatus (h : Health) (svc : String) (status : ServingStatus) : Health :=
  Function.update h svc (some status)

def updateServingStatus (h : Health) (services : List String) (isLeader : Bool) : Health :=
  (services.foldl (fun h svc => h.SetServingStatus svc (servingStatus isLeader)) h).SetServingStatus
    gRPCHealthService (servingStatus isLeader)

/-! ## The goroutines -/

/-- What is registered for the fan-out: the nil channels of its first length, and the channel of
the health consumer. -/
inductive FanOutChan where
  | nil
  | leadershipC
  deriving DecidableEq, Repr

inductive FanOut where
  | waiting
  | received (state : StateType)
  | stored (state : StateType)
  | offering (beLeader : Bool) (rest : List FanOutChan)
  deriving DecidableEq, Repr

/-- `servingAPI` and the goroutine that it starts. -/
inductive HealthConsumer where
  | start
  | registered
  | asked (isLeader : Bool)
  | following
  | received (beLeader : Bool)
  deriving DecidableEq, Repr

/-- `emitted` is the last state that the event loop has sent. -/
structure LeaderHealth where
  emitted : StateType := .StateFollower
  raftStateChangeC : Chan StateType := { cap := 4 }
  raftState : StateType := .StateFollower
  fanOut : FanOut := .waiting
  leadershipFanOutC : List FanOutChan := List.replicate 4 .nil
  leadershipC : Chan Bool := { cap := 4 }
  consumer : HealthConsumer := .start
  health : Health := fun _ => none

namespace LeaderHealth

inductive Step where
  | emit (state : StateType)
  | take
  | store
  | range
  | offer
  | done
  | LeaderChangeCh
  | IsLeader
  | setup
  | receive
  | update
  deriving DecidableEq, Repr

def step (s : LeaderHealth) : Step → Option LeaderHealth
  | .emit state =>
      if s.raftStateChangeC.HasRoom then
        some { s with raftStateChangeC := s.raftStateChangeC.push state, emitted := state }
      else none
  | .take =>
      match s.fanOut, s.raftStateChangeC.take with
      | .waiting, some (state, raftStateChangeC) =>
          some { s with raftStateChangeC := raftStateChangeC, fanOut := .received state }
      | _, _ => none
  | .store =>
      match s.fanOut with
      | .received state => some { s with raftState := state, fanOut := .stored state }
      | _ => none
  | .range =>
      match s.fanOut with
      | .stored state => some { s with fanOut := .offering state.isLeader s.leadershipFanOutC }
      | _ => none
  | .offer =>
      match s.fanOut with
      | .offering beLeader (.nil :: rest) => some { s with fanOut := .offering beLeader rest }
      | .offering beLeader (.leadershipC :: rest) =>
          some { s with leadershipC := s.leadershipC.offer beLeader, fanOut := .offering beLeader rest }
      | _ => none
  | .done =>
      match s.fanOut with
      | .offering _ [] => some { s with fanOut := .waiting }
      | _ => none
  | .LeaderChangeCh =>
      match s.consumer with
      | .start =>
          some { s with
            leadershipFanOutC := s.leadershipFanOutC ++ [.leadershipC], consumer := .registered }
      | _ => none
  | .IsLeader =>
      match s.consumer with
      | .registered => some { s with consumer := .asked s.raftState.isLeader }
      | _ => none
  | .setup =>
      match s.consumer with
      | .asked isLeader =>
          some { s with health := updateServingStatus s.health services isLeader, consumer := .following }
      | _ => none
  | .receive =>
      match s.consumer, s.leadershipC.take with
      | .following, some (beLeader, leadershipC) =>
          some { s with leadershipC := leadershipC, consumer := .received beLeader }
      | _, _ => none
  | .update =>
      match s.consumer with
      | .received beLeader =>
          some { s with health := updateServingStatus s.health services beLeader, consumer := .following }
      | _ => none

/-- Only the event loop has something left to do. -/
def Quiescent (s : LeaderHealth) : Prop := ∀ l : Step, (∀ state, l ≠ .emit state) → step s l = none

/-- Every service is served as the last emitted state says. -/
def Served (s : LeaderHealth) : Prop :=
  ∀ svc ∈ gRPCHealthService :: services, s.health svc = some (servingStatus s.emitted.isLeader)

/-- At rest the health status is that of the last state. -/
def Converged (s : LeaderHealth) : Prop := s.Quiescent → s.Served

/-- The consumer's channel has room for the value offered, or the newest value in it is the
same. -/
def Heard (s : LeaderHealth) : Step → Prop
  | .offer => ∀ beLeader rest, s.fanOut = .offering beLeader (.leadershipC :: rest) →
      s.leadershipC.HasRoom ∨ s.leadershipC.waiting.getLast? = some beLeader
  | _ => True

/-! ## The value that the consumer comes to -/

/-- Without another offer the consumer ends up with this value. -/
def Follows (s : LeaderHealth) (beLeader : Bool) : Prop :=
  match s.leadershipC.waiting.getLast? with
  | some newest => newest = beLeader
  | none =>
      match s.consumer with
      | .start => True
      | .registered => s.raftState.isLeader = beLeader
      | .asked value | .received value => value = beLeader
      | .following => ∀ svc ∈ gRPCHealthService :: services, s.health svc = some (servingStatus beLeader)

/-- Where the fan-out stands with the state it has stored. -/
def Fanned (s : LeaderHealth) : Prop :=
  match s.fanOut with
  | .waiting | .received _ => s.Follows s.raftState.isLeader
  | .stored state => state = s.raftState
  | .offering beLeader rest => beLeader = s.raftState.isLeader ∧
      (.leadershipC ∈ rest ∨ s.Follows s.raftState.isLeader)

/-- The state that the fan-out has taken and not stored, or the one it has stored. -/
def newest (fanOut : FanOut) (raftState : StateType) : StateType :=
  match fanOut with
  | .received state => state
  | _ => raftState

structure Tracks (s : LeaderHealth) : Prop where
  emitted : s.raftStateChangeC.waiting.getLast?.getD (newest s.fanOut s.raftState) = s.emitted
  listed : s.consumer = .start ∧ s.leadershipC.waiting = [] ∨ .leadershipC ∈ s.leadershipFanOutC
  ranged : ∀ beLeader rest, s.fanOut = .offering beLeader rest → .leadershipC ∈ rest →
    .leadershipC ∈ s.leadershipFanOutC
  fanned : s.Fanned

theorem tracks_init : Tracks {} :=
  ⟨rfl, .inl ⟨rfl, rfl⟩, fun _ _ h => FanOut.noConfusion h, trivial⟩

theorem updateServingStatus_served (h : Health) (isLeader : Bool) :
    ∀ svc ∈ gRPCHealthService :: services,
      updateServingStatus h services isLeader svc = some (servingStatus isLeader) := by
  intro svc hsvc
  simp only [services, List.mem_cons, List.not_mem_nil, or_false] at hsvc
  rcases hsvc with rfl | rfl | rfl <;> rfl

/-- The consumer goes on, and comes to the same value. -/
theorem Fanned.consumer {s s' : LeaderHealth} (h : s.Fanned) (hfan : s'.fanOut = s.fanOut)
    (hraft : s'.raftState = s.raftState)
    (hfollows : s.Follows s.raftState.isLeader → s'.Follows s.raftState.isLeader) : s'.Fanned := by
  unfold Fanned at h ⊢
  rw [hfan, hraft]
  cases hf : s.fanOut with
  | waiting | received _ =>
    rw [hf] at h
    exact hfollows h
  | stored state =>
    rw [hf] at h
    exact h
  | offering beLeader rest =>
    rw [hf] at h
    exact ⟨h.1, h.2.imp_right hfollows⟩

/-- An offer that is heard leaves its value the newest. -/
theorem follows_of_heard {s : LeaderHealth} {beLeader : Bool} (fanOut : FanOut)
    (h : s.leadershipC.HasRoom ∨ s.leadershipC.waiting.getLast? = some beLeader) :
    Follows { s with leadershipC := s.leadershipC.offer beLeader, fanOut := fanOut } beLeader := by
  have hlast : (s.leadershipC.offer beLeader).waiting.getLast? = some beLeader := by
    unfold Chan.offer
    split
    · exact List.getLast?_concat
    · next hroom => exact h.resolve_left hroom
  unfold Follows
  rw [hlast]

theorem Tracks.consumes {s : LeaderHealth} (h : Tracks s) (hstart : s.consumer ≠ .start)
    {leadershipC : Chan Bool} {consumer : HealthConsumer} {health : Health}
    (hfollows : s.Follows s.raftState.isLeader →
      Follows { s with leadershipC := leadershipC, consumer := consumer, health := health }
        s.raftState.isLeader) :
    Tracks { s with leadershipC := leadershipC, consumer := consumer, health := health } :=
  ⟨h.emitted, .inr (h.listed.resolve_left fun hl => hstart hl.1), h.ranged,
    h.fanned.consumer rfl rfl hfollows⟩

/-- The consumer updates the health status with the value that it has come to. -/
theorem Tracks.updates {s : LeaderHealth} (h : Tracks s) {value : Bool}
    (hvalue : s.consumer = .asked value ∨ s.consumer = .received value) :
    Tracks { s with
      health := updateServingStatus s.health services value, consumer := .following } := by
  have hstart : s.consumer ≠ .start := by
    rcases hvalue with heq | heq
    all_goals
      rw [heq]
      exact HealthConsumer.noConfusion
  refine h.consumes hstart fun hf => ?_
  have hlast : s.leadershipC.waiting.getLast? = none → value = s.raftState.isLeader := by
    intro hnone
    unfold Follows at hf
    rw [hnone] at hf
    rcases hvalue with heq | heq
    all_goals
      rw [heq] at hf
      exact hf
  unfold Follows at hf ⊢
  dsimp only
  cases hnewest : s.leadershipC.waiting.getLast? with
  | none =>
    rw [← hlast hnewest]
    exact updateServingStatus_served _ _
  | some newest =>
    rw [hnewest] at hf
    exact hf

theorem Tracks.take {s s' : LeaderHealth} (h : Tracks s)
    (hs : step s .take = some s') : Tracks s' := by
  dsimp only [step] at hs
  split at hs
  · next state raftStateChangeC hfan htake =>
    cases hs
    have hemitted := h.emitted
    have hfanned := h.fanned
    rw [(Chan.take_eq_some htake).1, List.getLast?_cons, Option.getD_some] at hemitted
    rw [Fanned, hfan] at hfanned
    exact ⟨hemitted, h.listed, fun _ _ h => FanOut.noConfusion h, hfanned⟩
  · cases hs

theorem Tracks.range {s s' : LeaderHealth} (h : Tracks s)
    (hs : step s .range = some s') : Tracks s' := by
  dsimp only [step] at hs
  split at hs
  · next state hfan =>
    cases hs
    have hemitted := h.emitted
    have hfanned : state = s.raftState := by
      have hfanned := h.fanned
      rw [Fanned, hfan] at hfanned
      exact hfanned
    rw [hfan] at hemitted
    refine ⟨hemitted, h.listed, fun _ _ heq hmem => (FanOut.offering.inj heq).2 ▸ hmem,
      congrArg StateType.isLeader hfanned, ?_⟩
    rcases h.listed with ⟨hstart, hempty⟩ | hmem
    · right
      unfold Follows
      dsimp only
      rw [hempty, hstart]
      exact trivial
    · exact .inl hmem
  · cases hs

theorem Tracks.offer {s s' : LeaderHealth} (h : Tracks s) (hl : s.Heard .offer)
    (hs : step s .offer = some s') : Tracks s' := by
  dsimp only [step] at hs
  split at hs
  · next beLeader rest hfan =>
    cases hs
    have hemitted := h.emitted
    have hfanned := h.fanned
    rw [hfan] at hemitted
    rw [Fanned, hfan] at hfanned
    refine ⟨hemitted, h.listed, fun _ _ heq hmem => ?_, hfanned.1,
      hfanned.2.imp_left fun hmem => ?_⟩
    · rw [← (FanOut.offering.inj heq).2] at hmem
      exact h.ranged beLeader _ hfan (List.mem_cons_of_mem _ hmem)
    · exact (List.mem_cons.mp hmem).resolve_left FanOutChan.noConfusion
  · next beLeader rest hfan =>
    cases hs
    have hemitted := h.emitted
    have hfanned := h.fanned
    rw [hfan] at hemitted
    rw [Fanned, hfan] at hfanned
    have hheard := hl beLeader rest hfan
    have hlisted := h.ranged beLeader _ hfan List.mem_cons_self
    exact ⟨hemitted, .inr hlisted, fun _ _ _ _ => hlisted, hfanned.1,
      .inr (hfanned.1 ▸ follows_of_heard _ hheard)⟩
  · cases hs

theorem Tracks.LeaderChangeCh {s s' : LeaderHealth} (h : Tracks s)
    (hs : step s .LeaderChangeCh = some s') : Tracks s' := by
  dsimp only [step] at hs
  split at hs
  · cases hs
    have hlisted : FanOutChan.leadershipC ∈ s.leadershipFanOutC ++ [.leadershipC] :=
      List.mem_append_right _ (List.mem_singleton_self _)
    refine ⟨h.emitted, .inr hlisted, fun _ _ _ _ => hlisted, h.fanned.consumer rfl rfl fun hf => ?_⟩
    unfold Follows at hf ⊢
    dsimp only
    split at hf
    · exact hf
    · rfl
  · cases hs

theorem Tracks.receive {s s' : LeaderHealth} (h : Tracks s)
    (hs : step s .receive = some s') : Tracks s' := by
  dsimp only [step] at hs
  split at hs
  · next beLeader leadershipC hfollowing htake =>
    cases hs
    obtain ⟨hwaiting, -, -⟩ := Chan.take_eq_some htake
    refine h.consumes (hfollowing ▸ HealthConsumer.noConfusion) fun hf => ?_
    unfold Follows at hf ⊢
    rw [hwaiting, List.getLast?_cons] at hf
    dsimp only at hf ⊢
    cases hrest : leadershipC.waiting.getLast? with
    | none =>
      rw [hrest] at hf
      exact hf
    | some newest =>
      rw [hrest] at hf
      exact hf
  · cases hs

theorem tracks_step {s s' : LeaderHealth} {l : Step} (h : Tracks s) (hl : s.Heard l)
    (hs : step s l = some s') : Tracks s' := by
  cases l with
  | emit state =>
    dsimp only [step] at hs
    split at hs
    · cases hs
      refine ⟨?_, h.listed, h.ranged, h.fanned⟩
      show (s.raftStateChangeC.waiting ++ [state]).getLast?.getD _ = state
      rw [List.getLast?_concat, Option.getD_some]
    · cases hs
  | take => exact h.take hs
  | store =>
    dsimp only [step] at hs
    split at hs
    · next state hfan =>
      cases hs
      have hemitted := h.emitted
      rw [hfan] at hemitted
      exact ⟨hemitted, h.listed, fun _ _ h => FanOut.noConfusion h, rfl⟩
    · cases hs
  | range => exact h.range hs
  | offer => exact h.offer hl hs
  | done =>
    dsimp only [step] at hs
    split at hs
    · next beLeader hfan =>
      cases hs
      have hemitted := h.emitted
      have hfanned := h.fanned
      rw [hfan] at hemitted
      rw [Fanned, hfan] at hfanned
      exact ⟨hemitted, h.listed, fun _ _ h => FanOut.noConfusion h,
        hfanned.2.resolve_left List.not_mem_nil⟩
    · cases hs
  | LeaderChangeCh => exact h.LeaderChangeCh hs
  | IsLeader =>
    dsimp only [step] at hs
    split at hs
    · next hreg =>
      cases hs
      refine h.consumes (hreg ▸ HealthConsumer.noConfusion) fun hf => ?_
      unfold Follows at hf ⊢
      rw [hreg] at hf
      exact hf
    · cases hs
  | setup =>
    dsimp only [step] at hs
    split at hs
    · next isLeader hasked =>
      cases hs
      exact h.updates (.inl hasked)
    · cases hs
  | receive => exact h.receive hs
  | update =>
    dsimp only [step] at hs
    split at hs
    · next beLeader hreceived =>
      cases hs
      exact h.updates (.inr hreceived)
    · cases hs

/-! ## At rest -/

/-- At rest the fan-out has stored the last state, and the consumer has taken every value. -/
theorem rests_of_quiescent {s : LeaderHealth} (hq : s.Quiescent) :
    s.fanOut = .waiting ∧ s.raftStateChangeC.waiting = [] ∧ s.consumer = .following ∧
      s.leadershipC.waiting = [] := by
  have hfan : s.fanOut = .waiting := by
    cases hf : s.fanOut with
    | waiting => rfl
    | received state =>
      have hstore := hq .store fun _ => Step.noConfusion
      simp [step, hf] at hstore
    | stored state =>
      have hrange := hq .range fun _ => Step.noConfusion
      simp [step, hf] at hrange
    | offering beLeader rest =>
      cases rest with
      | nil =>
        have hdone := hq .done fun _ => Step.noConfusion
        simp [step, hf] at hdone
      | cons c rest =>
        have hoffer := hq .offer fun _ => Step.noConfusion
        cases c <;> simp [step, hf] at hoffer
  have hconsumer : s.consumer = .following := by
    cases hc : s.consumer with
    | start =>
      have hregister := hq .LeaderChangeCh fun _ => Step.noConfusion
      simp [step, hc] at hregister
    | registered =>
      have hask := hq .IsLeader fun _ => Step.noConfusion
      simp [step, hc] at hask
    | asked isLeader =>
      have hsetup := hq .setup fun _ => Step.noConfusion
      simp [step, hc] at hsetup
    | following => rfl
    | received beLeader =>
      have hupdate := hq .update fun _ => Step.noConfusion
      simp [step, hc] at hupdate
  refine ⟨hfan, ?_, hconsumer, ?_⟩
  · cases hw : s.raftStateChangeC.waiting with
    | nil => rfl
    | cons state rest =>
      have htake := hq .take fun _ => Step.noConfusion
      simp [step, hfan, Chan.take, hw] at htake
  · cases hw : s.leadershipC.waiting with
    | nil => rfl
    | cons beLeader rest =>
      have hreceive := hq .receive fun _ => Step.noConfusion
      simp [step, hconsumer, Chan.take, hw] at hreceive

theorem Tracks.converged {s : LeaderHealth} (h : Tracks s) : s.Converged := by
  intro hq
  obtain ⟨hfan, hstates, hconsumer, hvalues⟩ := rests_of_quiescent hq
  have hemitted := h.emitted
  have hfanned := h.fanned
  rw [hstates, hfan] at hemitted
  rw [Fanned, hfan] at hfanned
  have hserved : Follows s s.raftState.isLeader := hfanned
  rw [Follows, hvalues, hconsumer] at hserved
  have hlast : s.raftState = s.emitted := hemitted
  rw [hlast] at hserved
  exact hserved

/-- In every run in which the consumer hears every offer that differs from what it has heard last,
the health status at rest is that of the last raft state. -/
theorem converged_of_heard (ls : List Step)
    (h : Transition.EachStep step (fun s l _ => s.Heard l) {} ls) :
    Transition.EachState step Converged {} ls := by
  refine (Transition.eachState_of_eachStep Tracks (fun s l s' hi hl hs => ?_) tracks_init h).mono
    fun s hs => hs.converged
  exact tracks_step hi hl hs

instance (s : LeaderHealth) : ∀ l, Decidable (s.Heard l)
  | .offer =>
      match hf : s.fanOut with
      | .offering beLeader (.leadershipC :: _) =>
          decidable_of_iff
            (s.leadershipC.HasRoom ∨ s.leadershipC.waiting.getLast? = some beLeader)
            ⟨fun h _ _ heq => (FanOut.offering.inj (hf.symm.trans heq)).1 ▸ h, fun h => h _ _ hf⟩
      | .offering _ [] | .offering _ (.nil :: _) =>
          isTrue fun _ _ heq => by rw [hf] at heq; cases heq
      | .waiting | .received _ | .stored _ => isTrue fun _ _ heq => by rw [hf] at heq; cases heq
  | .emit _ | .take | .store | .range | .done | .LeaderChangeCh | .IsLeader | .setup | .receive
  | .update => isTrue trivial

/-- The fan-out passes one state on. -/
def passOn : List Step :=
  [.take, .store, .range, .offer, .offer, .offer, .offer, .offer, .done]

/-- The node is elected while the consumer registers, and steps down and is elected again before
it has looked. -/
def elections : List Step :=
  List.flatten [
    [.emit .StateCandidate, .emit .StateLeader, .take, .store, .LeaderChangeCh, .range, .offer,
      .offer, .offer, .offer, .IsLeader, .offer, .done], passOn,
    [.setup, .emit .StateFollower, .emit .StateLeader], passOn, [.receive, .update], passOn,
    [.receive, .update, .receive, .update, .receive, .update]]

theorem elections_converged : Transition.EachState step Converged {} elections :=
  converged_of_heard elections (by decide +kernel)

/-- Five changes before the consumer looks at its channel. -/
def fiveChanges : List Step :=
  List.flatten [
    [.LeaderChangeCh, .IsLeader, .setup, .emit .StateLeader], passOn, [.emit .StateFollower],
    passOn, [.emit .StateLeader], passOn, [.emit .StateFollower], passOn, [.emit .StateLeader],
    passOn, [.receive, .update, .receive, .update, .receive, .update, .receive, .update]]

theorem fiveChanges_not_converged : ¬ Transition.EachState step Converged {} fiveChanges := by
  intro h
  have hend : (Transition.run step {} fiveChanges).map (fun s => decide (s.fanOut = .waiting ∧
      s.raftStateChangeC.waiting = [] ∧ s.consumer = .following ∧ s.leadershipC.waiting = [] ∧
        s.emitted = .StateLeader ∧ s.health "cassem.api.kv.KV" = some .NOT_SERVING)) =
      some true := by decide +kernel
  obtain ⟨s, hrun, hs⟩ := Option.map_eq_some_iff.mp hend
  obtain ⟨hfan, hstates, hconsumer, hvalues, hemitted, hhealth⟩ := of_decide_eq_true hs
  have hconv : s.Converged := h.of_run hrun
  have hq : s.Quiescent := by
    intro l hl
    cases l with
    | emit state => exact absurd rfl (hl state)
    | _ => simp [step, hfan, hconsumer, Chan.take, hstates, hvalues]
  have hserved := hconv hq "cassem.api.kv.KV" (by decide)
  rw [hhealth, hemitted] at hserved
  exact absurd hserved (by decide)

end LeaderHealth

end Cassem.KV
