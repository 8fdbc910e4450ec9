import Cassem.Lib.Chan
import Cassem.KV.WatchStream
import Mathlib.Data.List.Nodup

/-!
# The watcher and the channels of its observers

The watcher's loop sends a notification to the observers that its topic has at one moment.
Observers come and go meanwhile: one that leaves, or is too slow on one of its topics, has its
channel closed, whatever other topics still know it.
-/

namespace Cassem.KV

open Lib

/-! ## Observers -/

/-- `builtinObserver` as it is made. -/
structure BuiltinObserver where
  id : String
  keys : List String

/-- Every key once, in the order of the keys. -/
def BuiltinObserver.Topics (ob : BuiltinObserver) : List String := ob.keys.eraseDups

/-- The `once` of an observer and its channel, how often the channel has been closed, and how
often somebody has tried to send on it when it was closed. -/
structure ObserverState where
  once : Bool := false
  ch : Chan Notification := { cap := 2 }
  closes : Nat := 0
  sentClosed : Nat := 0

def ObserverState.Close (o : ObserverState) : ObserverState :=
  if o.once then o else { o with once := true, ch := o.ch.close, closes := o.closes + 1 }

/-! ## The watcher -/

inductive WatcherLoop where
  | waiting
  | received (notify : Notification)
  | found (notify : Notification)
  | sending (notify : Notification) (rest : List Nat)
  | slow (notify : Notification) (observer : Nat) (rest : List Nat)
  | panicked
  deriving DecidableEq, Repr

/-- The observers that the distribution under way has still to send to. -/
def WatcherLoop.rest : WatcherLoop → List Nat
  | .sending _ rest | .slow _ _ rest => rest
  | _ => []

/-- A call of `Unsubscribe`: the topics it has still to look up, and the one whose bucket it
has found. -/
structure Leaving where
  observer : Nat
  fetched : Option String
  topics : List String
  deriving DecidableEq, Repr

/-- Observers are known by their addresses. `locked` is the `Subscribe` that holds `mu`, with
the topics it has still to add its observer to. -/
structure ChannelWatcher where
  ch : Chan Notification
  buckets : String → Option (List Nat) := fun _ => none
  locked : Option (Nat × List String) := none
  leaving : List Leaving := []
  loop : WatcherLoop := .waiting
  observer : Nat → ObserverState := fun _ => {}

def newChannelWatcher (bufferSize : Nat) : ChannelWatcher := { ch := { cap := bufferSize } }

-- `objs` has the observer of every address.
variable (objs : Nat → BuiltinObserver)

def topicBucketAdd (observers : List Nat) (observer : Nat) : List Nat :=
  observers.filter (fun o => (objs o).id ≠ (objs observer).id) ++ [observer]

def topicBucketRemove (observers : List Nat) (observer : Nat) : List Nat :=
  observers.filter fun o => (objs o).id ≠ (objs observer).id

namespace ChannelWatcher

def setObserver (w : ChannelWatcher) (ob : Nat) (o : ObserverState) : ChannelWatcher :=
  { w with observer := Function.update w.observer ob o }

/-- `remove` of the topic's bucket. -/
def remove (w : ChannelWatcher) (topic : String) (ob : Nat) : ChannelWatcher :=
  { w with
    buckets := Function.update w.buckets topic
      ((w.buckets topic).map fun observers => topicBucketRemove objs observers ob)
    observer := Function.update w.observer ob (w.observer ob).Close }

/-- `snapshot` has the observers in the order in which the map gives them. -/
inductive Step where
  | ChangeNotify (notify : Notification)
  | receive
  | lookup
  | snapshot (observers : List Nat)
  | send
  | timeout
  | removeSlow
  | next
  | restart
  | Subscribe (observer : Nat)
  | add
  | unlock
  | Unsubscribe (observer : Nat)
  | fetch (k : Nat)
  | remove (k : Nat)
  | Outbound (observer : Nat)
  deriving DecidableEq, Repr

def step (w : ChannelWatcher) : Step → Option ChannelWatcher
  | .ChangeNotify notify => if w.ch.HasRoom then some { w with ch := w.ch.push notify } else none
  | .receive =>
      match w.loop, w.ch.take with
      | .waiting, some (notify, ch) => some { w with ch := ch, loop := .received notify }
      | _, _ => none
  | .lookup =>
      match w.loop, w.locked with
      | .received notify, none =>
          match w.buckets notify.topic with
          | some _ => some { w with loop := .found notify }
          | none => some { w with loop := .waiting }
      | _, _ => none
  | .snapshot observers =>
      match w.loop with
      | .found notify =>
          if observers.Perm ((w.buckets notify.topic).getD []) then
            some { w with loop := .sending notify observers }
          else none
      | _ => none
  | .send =>
      match w.loop with
      | .sending notify (ob :: rest) =>
          let o := w.observer ob
          if o.ch.closed then
            some { w.setObserver ob { o with sentClosed := o.sentClosed + 1 } with loop := .panicked }
          else if o.ch.HasRoom then
            some { w.setObserver ob { o with ch := o.ch.push notify } with
              loop := .sending notify rest }
          else none
      | _ => none
  | .timeout =>
      match w.loop with
      | .sending notify (ob :: rest) =>
          let o := w.observer ob
          if o.ch.closed = false ∧ ¬ o.ch.HasRoom then some { w with loop := .slow notify ob rest }
          else none
      | _ => none
  | .removeSlow =>
      match w.loop with
      | .slow notify ob rest =>
          some { w.remove objs notify.topic ob with loop := .sending notify rest }
      | _ => none
  | .next =>
      match w.loop with
      | .sending _ [] => some { w with loop := .waiting }
      | _ => none
  | .restart =>
      match w.loop with
      | .panicked => some { w with loop := .waiting }
      | _ => none
  | .Subscribe ob =>
      if (objs ob).id = "" then some w
      else
        match w.locked with
        | none => some { w with locked := some (ob, (objs ob).Topics) }
        | some _ => none
  | .add =>
      match w.locked with
      | some (ob, topic :: topics) =>
          some { w with
            buckets := Function.update w.buckets topic
              (some (topicBucketAdd objs ((w.buckets topic).getD []) ob))
            locked := some (ob, topics) }
      | _ => none
  | .unlock =>
      match w.locked with
      | some (_, []) => some { w with locked := none }
      | _ => none
  | .Unsubscribe ob =>
      if (objs ob).id = "" then some w
      else some { w with leaving := w.leaving ++ [⟨ob, none, (objs ob).Topics⟩] }
  | .fetch k =>
      match w.leaving[k]?, w.locked with
      | some ⟨ob, none, topic :: topics⟩, none =>
          let fetched := (w.buckets topic).map fun _ => topic
          some { w with leaving := w.leaving.set k ⟨ob, fetched, topics⟩ }
      | _, _ => none
  | .remove k =>
      match w.leaving[k]? with
      | some ⟨ob, some topic, topics⟩ =>
          some { w.remove objs topic ob with leaving := w.leaving.set k ⟨ob, none, topics⟩ }
      | _ => none
  | .Outbound ob =>
      let o := w.observer ob
      match o.ch.take with
      | some (_, ch) => some (w.setObserver ob { o with ch := ch })
      | none => none

/-- No value was sent on the closed channel, and it was closed once at the most. -/
def Safe (w : ChannelWatcher) : Prop :=
  ∀ ob, (w.observer ob).sentClosed = 0 ∧ (w.observer ob).closes ≤ 1

/-- An observer that leaves is not one that the distribution under way has still to send to, and
no observer in the snapshot of a bucket has been closed. -/
def Apart (w : ChannelWatcher) : Step → Prop
  | .remove k => ∀ l ∈ w.leaving[k]?, l.observer ∉ w.loop.rest
  | .snapshot observers => ∀ ob ∈ observers, (w.observer ob).once = false
  | _ => True

end ChannelWatcher

/-! ## One observer -/

structure ObserverState.Sound (o : ObserverState) : Prop where
  closed : o.ch.closed = o.once
  closes : o.closes = if o.once then 1 else 0

theorem ObserverState.Close_sentClosed (o : ObserverState) : o.Close.sentClosed = o.sentClosed := by
  unfold Close
  split <;> rfl

theorem ObserverState.Sound.Close {o : ObserverState} (h : o.Sound) : o.Close.Sound := by
  unfold ObserverState.Close
  split
  · exact h
  · next ho =>
    have hcloses : o.closes = 0 := h.closes.trans (if_neg ho)
    exact ⟨rfl, congrArg (· + 1) hcloses⟩

theorem ObserverState.Sound.closes_le {o : ObserverState} (h : o.Sound) : o.closes ≤ 1 := by
  rw [h.closes]
  split <;> omega

/-! ## Buckets -/

/-- A bucket holds one observer for each identity. -/
def Distinct (observers : List Nat) : Prop := (observers.map fun ob => (objs ob).id).Nodup

variable {objs}

theorem Distinct.nodup {observers : List Nat} (h : Distinct objs observers) : observers.Nodup :=
  List.Nodup.of_map _ h

theorem Distinct.remove {observers : List Nat} (h : Distinct objs observers) (ob : Nat) :
    Distinct objs (topicBucketRemove objs observers ob) :=
  List.Nodup.sublist (List.filter_sublist.map _) h

theorem Distinct.add {observers : List Nat} (h : Distinct objs observers) (ob : Nat) :
    Distinct objs (topicBucketAdd objs observers ob) := by
  have hrest : Distinct objs (topicBucketRemove objs observers ob) := h.remove ob
  unfold Distinct topicBucketAdd
  rw [List.map_append, List.map_singleton, List.nodup_append]
  refine ⟨hrest, List.nodup_singleton _, fun id hid id' hid' => ?_⟩
  obtain ⟨o, ho, rfl⟩ := List.mem_map.mp hid
  rw [List.mem_singleton.mp hid']
  exact of_decide_eq_true (List.mem_filter.mp ho).2

/-! ## The invariant -/

/-- The observers that the distribution under way has not done with. -/
def WatcherLoop.pending : WatcherLoop → List Nat
  | .sending _ rest => rest
  | .slow _ ob rest => ob :: rest
  | _ => []

namespace ChannelWatcher

variable (objs) in
structure Served (w : ChannelWatcher) : Prop where
  sound : ∀ ob, (w.observer ob).Sound
  distinct : ∀ topic, Distinct objs ((w.buckets topic).getD [])
  nodup : w.loop.pending.Nodup
  opened : ∀ ob ∈ w.loop.rest, (w.observer ob).once = false
  unsent : ∀ ob, (w.observer ob).sentClosed = 0

theorem served_new (bufferSize : Nat) : Served objs (newChannelWatcher bufferSize) :=
  ⟨fun _ => ⟨rfl, rfl⟩, fun _ => List.nodup_nil, List.nodup_nil, fun _ h => absurd h List.not_mem_nil,
    fun _ => rfl⟩

theorem Served.safe {w : ChannelWatcher} (h : Served objs w) : w.Safe := fun ob =>
  ⟨h.unsent ob, (h.sound ob).closes_le⟩

/-- What holds of an observer's new state and of all the others holds of all. -/
theorem forall_update {P : Nat → ObserverState → Prop} {w : ChannelWatcher} {ob : Nat}
    {o : ObserverState} (ho : P ob o) (h : ∀ o', o' ≠ ob → P o' (w.observer o')) (o' : Nat) :
    P o' (Function.update w.observer ob o o') := by
  by_cases heq : o' = ob
  · rw [heq, Function.update_self]
    exact ho
  · rw [Function.update_of_ne heq]
    exact h o' heq

/-- Removing an observer is safe where nothing has still to be sent to it. -/
theorem Served.remove {w : ChannelWatcher} (h : Served objs w) (topic : String) {ob : Nat}
    (hob : ob ∉ w.loop.rest) : Served objs (w.remove objs topic ob) := by
  refine ⟨forall_update (h.sound ob).Close fun o _ => h.sound o, fun t => ?_, h.nodup, ?_, ?_⟩
  · show Distinct objs ((Function.update w.buckets topic _ t).getD [])
    by_cases ht : t = topic
    · rw [ht, Function.update_self]
      have hbucket := h.distinct topic
      cases hb : w.buckets topic with
      | none => exact List.nodup_nil
      | some observers =>
        rw [hb] at hbucket
        exact hbucket.remove ob
    · rw [Function.update_of_ne ht]
      exact h.distinct t
  · intro o ho
    have hne : o ≠ ob := fun heq => hob (heq ▸ ho)
    show (Function.update w.observer ob _ o).once = false
    rw [Function.update_of_ne hne]
    exact h.opened o ho
  · refine forall_update (P := fun _ o => o.sentClosed = 0) ?_ fun o _ => h.unsent o
    rw [ObserverState.Close_sentClosed]
    exact h.unsent ob

/-- Using an observer's channel changes nothing that the invariant looks at. -/
theorem Served.setCh {w : ChannelWatcher} (h : Served objs w) (ob : Nat) (ch : Chan Notification)
    (hch : ch.closed = (w.observer ob).ch.closed) :
    Served objs (w.setObserver ob { w.observer ob with ch := ch }) := by
  refine ⟨forall_update ?_ fun o _ => h.sound o, h.distinct, h.nodup, ?_, ?_⟩
  · exact ⟨hch.trans (h.sound ob).closed, (h.sound ob).closes⟩
  · exact forall_update (P := fun o s => o ∈ w.loop.rest → s.once = false) (h.opened ob)
      fun o _ => h.opened o
  · exact forall_update (P := fun _ o => o.sentClosed = 0) (h.unsent ob) fun o _ => h.unsent o

theorem Served.setLoop {w : ChannelWatcher} (h : Served objs w) {loop : WatcherLoop}
    (hnodup : loop.pending.Nodup) (hrest : ∀ ob ∈ loop.rest, (w.observer ob).once = false) :
    Served objs { w with loop := loop } :=
  ⟨h.sound, h.distinct, hnodup, hrest, h.unsent⟩

theorem Served.send {w w' : ChannelWatcher} (h : Served objs w)
    (hs : step objs w .send = some w') : Served objs w' := by
  dsimp only [step] at hs
  split at hs
  · next notify ob rest hloop =>
    have hopen : (w.observer ob).once = false :=
      h.opened ob (by rw [hloop]; exact List.mem_cons_self)
    have hclosed : (w.observer ob).ch.closed = false := (h.sound ob).closed.trans hopen
    have hnodup : rest.Nodup := by
      have := h.nodup
      rw [hloop] at this
      exact (List.nodup_cons.mp this).2
    rw [if_neg (Bool.eq_false_iff.mp hclosed)] at hs
    split at hs
    · cases hs
      have hpush := h.setCh ob ((w.observer ob).ch.push notify) rfl
      refine hpush.setLoop hnodup fun o ho => hpush.opened o ?_
      show o ∈ w.loop.rest
      rw [hloop]
      exact List.mem_cons_of_mem _ ho
    · cases hs
  · cases hs

theorem Served.timeout {w w' : ChannelWatcher} (h : Served objs w)
    (hs : step objs w .timeout = some w') : Served objs w' := by
  dsimp only [step] at hs
  split at hs
  · next notify ob rest hloop =>
    split at hs
    · cases hs
      refine h.setLoop ?_ fun o ho => h.opened o ?_
      · have := h.nodup
        rw [hloop] at this
        exact this
      · rw [hloop]
        exact List.mem_cons_of_mem _ ho
    · cases hs
  · cases hs

theorem Served.removeSlow {w w' : ChannelWatcher} (h : Served objs w)
    (hs : step objs w .removeSlow = some w') : Served objs w' := by
  dsimp only [step] at hs
  split at hs
  · next notify ob rest hloop =>
    cases hs
    have hnodup : (ob :: rest).Nodup := by
      have := h.nodup
      rw [hloop] at this
      exact this
    have hremoved : Served objs (w.remove objs notify.topic ob) := by
      refine h.remove _ ?_
      rw [hloop]
      exact (List.nodup_cons.mp hnodup).1
    refine hremoved.setLoop (List.nodup_cons.mp hnodup).2 fun o ho => hremoved.opened o ?_
    show o ∈ w.loop.rest
    rw [hloop]
    exact ho
  · cases hs

theorem Served.add {w w' : ChannelWatcher} (h : Served objs w)
    (hs : step objs w .add = some w') : Served objs w' := by
  dsimp only [step] at hs
  split at hs
  · next ob topic topics _ =>
    cases hs
    refine ⟨h.sound, fun t => ?_, h.nodup, h.opened, h.unsent⟩
    show Distinct objs ((Function.update w.buckets topic _ t).getD [])
    by_cases ht : t = topic
    · rw [ht, Function.update_self]
      exact (h.distinct topic).add ob
    · rw [Function.update_of_ne ht]
      exact h.distinct t
  · cases hs

theorem served_step {w w' : ChannelWatcher} {l : Step} (h : Served objs w) (hl : w.Apart l)
    (hs : step objs w l = some w') : Served objs w' := by
  cases l with
  | ChangeNotify notify =>
    dsimp only [step] at hs
    split at hs
    · cases hs
      exact ⟨h.sound, h.distinct, h.nodup, h.opened, h.unsent⟩
    · cases hs
  | receive =>
    dsimp only [step] at hs
    split at hs
    · cases hs
      exact ⟨h.sound, h.distinct, List.nodup_nil, fun _ h => absurd h List.not_mem_nil, h.unsent⟩
    · cases hs
  | lookup =>
    dsimp only [step] at hs
    split at hs
    · split at hs
      · cases hs
        exact h.setLoop List.nodup_nil fun _ h => absurd h List.not_mem_nil
      · cases hs
        exact h.setLoop List.nodup_nil fun _ h => absurd h List.not_mem_nil
    · cases hs
  | snapshot observers =>
    dsimp only [step] at hs
    split at hs
    · next notify _ =>
      split at hs
      · next hperm =>
        cases hs
        exact h.setLoop (hperm.nodup_iff.mpr (h.distinct notify.topic).nodup) hl
      · cases hs
    · cases hs
  | send => exact h.send hs
  | timeout => exact h.timeout hs
  | removeSlow => exact h.removeSlow hs
  | next =>
    dsimp only [step] at hs
    split at hs
    · cases hs
      exact h.setLoop List.nodup_nil fun _ h => absurd h List.not_mem_nil
    · cases hs
  | restart =>
    dsimp only [step] at hs
    split at hs
    · cases hs
      exact h.setLoop List.nodup_nil fun _ h => absurd h List.not_mem_nil
    · cases hs
  | Subscribe ob =>
    dsimp only [step] at hs
    split at hs
    · cases hs
      exact h
    · split at hs
      · cases hs
        exact ⟨h.sound, h.distinct, h.nodup, h.opened, h.unsent⟩
      · cases hs
  | add => exact h.add hs
  | unlock =>
    dsimp only [step] at hs
    split at hs
    · cases hs
      exact ⟨h.sound, h.distinct, h.nodup, h.opened, h.unsent⟩
    · cases hs
  | Unsubscribe ob =>
    dsimp only [step] at hs
    split at hs
    · cases hs
      exact h
    · cases hs
      exact ⟨h.sound, h.distinct, h.nodup, h.opened, h.unsent⟩
  | fetch k =>
    dsimp only [step] at hs
    split at hs
    · cases hs
      exact ⟨h.sound, h.distinct, h.nodup, h.opened, h.unsent⟩
    · cases hs
  | remove k =>
    dsimp only [step] at hs
    split at hs
    · next ob topic topics hk =>
      cases hs
      have hremoved := h.remove topic (hl _ hk)
      exact ⟨hremoved.sound, hremoved.distinct, hremoved.nodup, hremoved.opened, hremoved.unsent⟩
    · cases hs
  | Outbound ob =>
    dsimp only [step] at hs
    split at hs
    · next x ch htake =>
      cases hs
      exact h.setCh ob _ (Chan.take_eq_some htake).2.2
    · cases hs

/-- In a run in which nobody leaves a distribution that has still to send to it, and no snapshot
finds a closed observer, the watcher never sends on a closed channel, and it closes each channel
once at the most. -/
theorem safe_of_apart (objs : Nat → BuiltinObserver) (bufferSize : Nat) (ls : List Step)
    (h : Transition.EachStep (step objs) (fun w l _ => w.Apart l) (newChannelWatcher bufferSize) ls) :
    Transition.EachState (step objs) Safe (newChannelWatcher bufferSize) ls := by
  refine (Transition.eachState_of_eachStep (Served objs) (fun w l w' hi hl hs => ?_)
    (served_new bufferSize) h).mono fun _ hw => hw.safe
  exact served_step hi hl hs

instance (w : ChannelWatcher) : ∀ l, Decidable (w.Apart l)
  | .remove k => inferInstanceAs (Decidable (∀ l ∈ w.leaving[k]?, l.observer ∉ w.loop.rest))
  | .snapshot observers =>
      inferInstanceAs (Decidable (∀ ob ∈ observers, (w.observer ob).once = false))
  | .ChangeNotify _ | .receive | .lookup | .send | .timeout | .removeSlow | .next | .restart
  | .Subscribe _ | .add | .unlock | .Unsubscribe _ | .fetch _ | .Outbound _ => isTrue trivial

/-- Two observers, one on two topics. -/
def twoObservers (ob : Nat) : BuiltinObserver :=
  if ob = 0 then { id := "o", keys := ["a", "b"] } else { id := "p", keys := ["a"] }

def onTopic (key : String) : Notification := .kv { op := .Unset, key := key, last := none, current := none }

/-- The first observer takes nothing and is removed from one topic, and leaves both before
anything happens on the other. -/
def slowObserver : List Step :=
  let served : List Step := [.ChangeNotify (onTopic "a"), .receive, .lookup, .snapshot [1, 0],
    .send, .send, .next, .Outbound 1]
  List.flatten [
    [.Subscribe 0, .add, .add, .unlock, .Subscribe 1, .add, .unlock], served, served,
    [.ChangeNotify (onTopic "a"), .receive, .lookup, .snapshot [0, 1], .timeout, .removeSlow, .send,
      .next, .Unsubscribe 0, .fetch 0, .remove 0, .fetch 0, .remove 0, .ChangeNotify (onTopic "b"),
      .receive, .lookup, .snapshot [], .next]]

theorem slowObserver_safe :
    Transition.EachState (step twoObservers) Safe (newChannelWatcher 100) slowObserver :=
  safe_of_apart twoObservers 100 slowObserver (by decide +kernel)

/-- The observer leaves while the watcher is about to send to it. -/
def leavesBeforeSend : List Step :=
  [.Subscribe 0, .add, .add, .unlock, .ChangeNotify (onTopic "a"), .receive, .lookup,
    .snapshot [0], .Unsubscribe 0, .fetch 0, .remove 0, .send]

theorem leavesBeforeSend_not_safe :
    ¬ Transition.EachState (step twoObservers) Safe (newChannelWatcher 100) leavesBeforeSend := by
  intro h
  have hend : (Transition.run (step twoObservers) (newChannelWatcher 100) leavesBeforeSend).map
      (fun w => ((w.observer 0).sentClosed, w.loop)) = some (1, .panicked) := by decide +kernel
  obtain ⟨w, hrun, hw⟩ := Option.map_eq_some_iff.mp hend
  have hsafe : w.Safe := h.of_run hrun
  have hsent : (w.observer 0).sentClosed = 1 := (Prod.mk.inj hw).1
  exact absurd (hsent.symm.trans (hsafe 0).1) (by decide)

end ChannelWatcher

end Cassem.KV
