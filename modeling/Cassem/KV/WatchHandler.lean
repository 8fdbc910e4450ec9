import Cassem.KV.Watcher

/-!
# The handler of a watch

`Watch` subscribes an observer for the keys of its request and sends on what comes through the
observer's channel, until the channel is closed, the client is gone or the server quits; then it
takes the observer out of the buckets of its topics, one after the other. The watcher and the
other streams go on meanwhile.
-/

namespace Cassem.KV

open Lib

/-! ## What a step of the watcher does to its buckets -/

namespace ChannelWatcher

variable {objs : Nat → BuiltinObserver} {w w' : ChannelWatcher}

/-- The steps that change a bucket, the lock or the calls of `Unsubscribe`. -/
inductive Effect (objs : Nat → BuiltinObserver) (w w' : ChannelWatcher) : Step → Prop
  | quiet (l : Step) (hbuckets : w'.buckets = w.buckets) (hlocked : w'.locked = w.locked)
      (hleaving : w'.leaving = w.leaving) : Effect objs w w' l
  | removeSlow (topic : String) (ob : Nat)
      (hbuckets : w'.buckets = Function.update w.buckets topic
        ((w.buckets topic).map fun observers => topicBucketRemove objs observers ob))
      (hlocked : w'.locked = w.locked) (hleaving : w'.leaving = w.leaving) :
      Effect objs w w' .removeSlow
  | Subscribe (ob : Nat) (hid : (objs ob).id ≠ "") (hbuckets : w'.buckets = w.buckets)
      (hlocked : w'.locked = some (ob, (objs ob).Topics)) (hleaving : w'.leaving = w.leaving) :
      Effect objs w w' (.Subscribe ob)
  | add (ob : Nat) (topic : String) (topics : List String)
      (hlock : w.locked = some (ob, topic :: topics))
      (hbuckets : w'.buckets = Function.update w.buckets topic
        (some (topicBucketAdd objs ((w.buckets topic).getD []) ob)))
      (hlocked : w'.locked = some (ob, topics)) (hleaving : w'.leaving = w.leaving) :
      Effect objs w w' .add
  | unlock (hbuckets : w'.buckets = w.buckets) (hlocked : w'.locked = none)
      (hleaving : w'.leaving = w.leaving) : Effect objs w w' .unlock
  | Unsubscribe (ob : Nat) (hid : (objs ob).id ≠ "") (hbuckets : w'.buckets = w.buckets)
      (hlocked : w'.locked = w.locked)
      (hleaving : w'.leaving = w.leaving ++ [⟨ob, none, (objs ob).Topics⟩]) :
      Effect objs w w' (.Unsubscribe ob)
  | fetch (k ob : Nat) (topic : String) (topics : List String)
      (hk : w.leaving[k]? = some ⟨ob, none, topic :: topics⟩) (hbuckets : w'.buckets = w.buckets)
      (hlocked : w'.locked = w.locked)
      (hleaving : w'.leaving =
        w.leaving.set k ⟨ob, (w.buckets topic).map fun _ => topic, topics⟩) :
      Effect objs w w' (.fetch k)
  | remove (k ob : Nat) (topic : String) (topics : List String)
      (hk : w.leaving[k]? = some ⟨ob, some topic, topics⟩)
      (hbuckets : w'.buckets = Function.update w.buckets topic
        ((w.buckets topic).map fun observers => topicBucketRemove objs observers ob))
      (hlocked : w'.locked = w.locked) (hleaving : w'.leaving = w.leaving.set k ⟨ob, none, topics⟩) :
      Effect objs w w' (.remove k)

theorem effect_of_step {l : Step} (hs : step objs w l = some w') : Effect objs w w' l := by
  cases l with
  | ChangeNotify notify | receive | lookup | snapshot observers | send | timeout | next | restart
  | Outbound ob =>
    dsimp only [step] at hs
    repeat' split at hs
    all_goals cases hs
    all_goals exact .quiet _ rfl rfl rfl
  | removeSlow =>
    dsimp only [step] at hs
    split at hs
    · next notify ob rest _ =>
      cases hs
      exact .removeSlow notify.topic ob rfl rfl rfl
    · cases hs
  | Subscribe ob =>
    dsimp only [step] at hs
    split at hs
    · cases hs
      exact .quiet _ rfl rfl rfl
    · next hid =>
      split at hs
      · cases hs
        exact .Subscribe ob hid rfl rfl rfl
      · cases hs
  | add =>
    dsimp only [step] at hs
    split at hs
    · next ob topic topics hlock =>
      cases hs
      exact .add ob topic topics hlock rfl rfl rfl
    · cases hs
  | unlock =>
    dsimp only [step] at hs
    split at hs
    · cases hs
      exact .unlock rfl rfl rfl
    · cases hs
  | Unsubscribe ob =>
    dsimp only [step] at hs
    split at hs
    · cases hs
      exact .quiet _ rfl rfl rfl
    · next hid =>
      cases hs
      exact .Unsubscribe ob hid rfl rfl rfl
  | fetch k =>
    dsimp only [step] at hs
    split at hs
    · next ob topic topics hk _ =>
      cases hs
      exact .fetch k ob topic topics hk rfl rfl rfl
    · cases hs
  | remove k =>
    dsimp only [step] at hs
    split at hs
    · next ob topic topics hk =>
      cases hs
      exact .remove k ob topic topics hk rfl rfl rfl
    · cases hs

end ChannelWatcher

/-! ## The handler -/

def newTopicObserver (id : String) (keys : List String) : BuiltinObserver := ⟨id, keys⟩

def translateChange : Notification → Option Change
  | .kv change => some change
  | .directory change _ => some change

/-- One call of `Watch` with the keys of its request. The observer that is made for it gets the
address and a random identity, the others are those of `objs`. -/
structure WatchCall where
  objs : Nat → BuiltinObserver
  address : Nat
  id : String
  keys : List String

def WatchCall.objects (c : WatchCall) : Nat → BuiltinObserver :=
  Function.update c.objs c.address (newTopicObserver c.id c.keys)

/-- Where the handler stands. It has its observer, unless that is nil, and the error that it would
return. -/
inductive WatchHandler where
  | called
  | subscribing
  | looping (ob : Option Nat) (err : Option GoError)
  | selecting (err : Option GoError)
  | sending (change : Notification) (err : Option GoError)
  | cancelling (k : Nat) (err : Option GoError)
  | returned (err : Option GoError)
  | panicked

structure WatchServer where
  watcher : ChannelWatcher
  handler : WatchHandler := .called

namespace WatchServer

inductive Step where
  | watcher (l : ChannelWatcher.Step)
  | watch
  | subscribed
  | select
  | change
  | closed
  | Send (err : Option GoError)
  | Done
  | quit
  | cancelled

/-- A step of the watcher or of another stream. -/
def Others (c : WatchCall) : ChannelWatcher.Step → Prop
  | .Subscribe ob | .Unsubscribe ob | .Outbound ob => ob ≠ c.address
  | _ => True

instance (c : WatchCall) : ∀ l, Decidable (Others c l)
  | .Subscribe ob | .Unsubscribe ob | .Outbound ob => inferInstanceAs (Decidable (ob ≠ c.address))
  | .ChangeNotify _ | .receive | .lookup | .snapshot _ | .send | .timeout | .removeSlow | .next
  | .restart | .add | .unlock | .fetch _ | .remove _ => isTrue trivial

/-- The deferred `cancel`. Without an identity `Unsubscribe` returns at once. -/
def cancel (c : WatchCall) (s : WatchServer) (err : Option GoError) : Option WatchServer :=
  (ChannelWatcher.step c.objects s.watcher (.Unsubscribe c.address)).map fun w =>
    ⟨w, if c.id = "" then .returned err else .cancelling s.watcher.leaving.length err⟩

/-- No interceptor stands before the handler of a stream, and none recovers from its panic. -/
def step (c : WatchCall) (s : WatchServer) : Step → Option WatchServer
  | .watcher l =>
      if Others c l then
        (ChannelWatcher.step c.objects s.watcher l).map fun w => { s with watcher := w }
      else none
  | .watch =>
      match s.handler with
      | .called =>
          if c.keys = [] then some { s with handler := .looping none none }
          else
            (ChannelWatcher.step c.objects s.watcher (.Subscribe c.address)).map fun w =>
              ⟨w, .subscribing⟩
      | _ => none
  | .subscribed =>
      match s.handler with
      | .subscribing =>
          if (s.watcher.locked.map Prod.fst) = some c.address then none
          else some { s with handler := .looping (some c.address) none }
      | _ => none
  | .select =>
      -- the channels of all cases are evaluated first, `ob.Outbound()` among them
      match s.handler with
      | .looping none _ => some { s with handler := .panicked }
      | .looping (some _) err => some { s with handler := .selecting err }
      | _ => none
  | .change =>
      match s.handler, (s.watcher.observer c.address).ch.take with
      | .selecting err, some (change, _) =>
          (ChannelWatcher.step c.objects s.watcher (.Outbound c.address)).map fun w =>
            ⟨w, .sending change err⟩
      | _, _ => none
  | .closed =>
      let ch := (s.watcher.observer c.address).ch
      match s.handler with
      | .selecting err => if ch.closed ∧ ch.waiting = [] then s.cancel c err else none
      | _ => none
  | .Send sent =>
      match s.handler with
      | .sending change err =>
          match translateChange change with
          | none => some { s with handler := .looping (some c.address) err }
          | some _ => some { s with handler := .looping (some c.address) sent }
      | _ => none
  | .Done | .quit =>
      match s.handler with
      | .selecting err => s.cancel c err
      | _ => none
  | .cancelled =>
      match s.handler with
      | .cancelling k err =>
          match s.watcher.leaving[k]? with
          | some ⟨_, none, []⟩ => some { s with handler := .returned err }
          | _ => none
      | _ => none

def start (bufferSize : Nat) : WatchServer := { watcher := newChannelWatcher bufferSize }

/-- The handler has not dereferenced a nil observer, and when it has returned no bucket holds its
observer. -/
structure Handled (c : WatchCall) (s : WatchServer) : Prop where
  served : s.handler ≠ .panicked
  gone : ∀ err, s.handler = .returned err →
    ∀ topic, c.address ∉ (s.watcher.buckets topic).getD []

/-! ## Where the observer can be -/

variable {c : WatchCall} {w w' : ChannelWatcher} {T T' : String → Prop}

theorem objects_address (c : WatchCall) : c.objects c.address = newTopicObserver c.id c.keys :=
  Function.update_self ..

/-- The observer is in the buckets of these topics only, and is being added to no others. -/
structure Within (c : WatchCall) (w : ChannelWatcher) (T : String → Prop) : Prop where
  buckets : ∀ topic, c.address ∈ (w.buckets topic).getD [] → T topic
  locked : ∀ topics, w.locked = some (c.address, topics) → ∀ topic ∈ topics, T topic

/-- The observer is not being added to buckets. -/
def Free (c : WatchCall) (w : ChannelWatcher) : Prop :=
  ∀ topics, w.locked ≠ some (c.address, topics)

theorem Free.of_eq (h : Free c w) (hlocked : w'.locked = w.locked) : Free c w' :=
  fun topics => hlocked ▸ h topics

theorem Within.mono (h : Within c w T) (hT : ∀ topic, T topic → T' topic) : Within c w T' :=
  ⟨fun topic hmem => hT topic (h.buckets topic hmem),
    fun topics hlocked topic hmem => hT topic (h.locked topics hlocked topic hmem)⟩

theorem Within.of_eq (h : Within c w T) (hbuckets : w'.buckets = w.buckets)
    (hlocked : w'.locked = w.locked) : Within c w' T :=
  ⟨hbuckets ▸ h.buckets, hlocked ▸ h.locked⟩

/-- A bucket that is changed still has the observer only if it had it or is one that it may be in. -/
theorem Within.update (h : Within c w T) {topic : String} {observers : Option (List Nat)}
    (hobservers : c.address ∈ observers.getD [] → c.address ∈ (w.buckets topic).getD [] ∨ T topic)
    (hbuckets : w'.buckets = Function.update w.buckets topic observers) (topic' : String)
    (hmem : c.address ∈ (w'.buckets topic').getD []) : T topic' := by
  rw [hbuckets] at hmem
  by_cases heq : topic' = topic
  · subst heq
    rw [Function.update_self] at hmem
    exact (hobservers hmem).elim (h.buckets topic') id
  · rw [Function.update_of_ne heq] at hmem
    exact h.buckets topic' hmem

theorem mem_of_mem_remove {observers : Option (List Nat)} {objs : Nat → BuiltinObserver}
    {ob a : Nat} (h : a ∈ (observers.map fun os => topicBucketRemove objs os ob).getD []) :
    a ∈ observers.getD [] ∧ (objs a).id ≠ (objs ob).id := by
  cases observers with
  | none => cases h
  | some os =>
    obtain ⟨hmem, hne⟩ := List.mem_filter.mp h
    exact ⟨hmem, of_decide_eq_true hne⟩

/-- Whatever the watcher and the other streams do, the observer comes to no further bucket. -/
theorem Within.others (h : Within c w T) {l : ChannelWatcher.Step} (hl : Others c l)
    (hs : ChannelWatcher.step c.objects w l = some w') : Within c w' T := by
  cases ChannelWatcher.effect_of_step hs with
  | quiet l hbuckets hlocked _ => exact h.of_eq hbuckets hlocked
  | removeSlow topic ob hbuckets hlocked _ =>
    exact ⟨h.update (fun hmem => .inl (mem_of_mem_remove hmem).1) hbuckets, hlocked ▸ h.locked⟩
  | Subscribe ob _ hbuckets hlocked _ =>
    refine ⟨hbuckets ▸ h.buckets, fun topics heq => ?_⟩
    exact absurd (Prod.mk.inj (Option.some.inj (hlocked.symm.trans heq))).1 hl
  | add ob topic topics hlock hbuckets hlocked _ =>
    have hlocked' : ∀ rest, w'.locked = some (c.address, rest) → ob = c.address ∧ topics = rest :=
      fun rest heq => Prod.mk.inj (Option.some.inj (hlocked.symm.trans heq))
    refine ⟨h.update (fun hmem => ?_) hbuckets, fun rest heq => ?_⟩
    · rcases List.mem_append.mp hmem with hold | hnew
      · exact .inl (List.mem_of_mem_filter hold)
      · obtain rfl := List.mem_singleton.mp hnew
        exact .inr (h.locked _ hlock topic (List.mem_cons_self ..))
    · obtain ⟨rfl, rfl⟩ := hlocked' rest heq
      exact fun topic' hmem => h.locked _ hlock topic' (List.mem_cons_of_mem _ hmem)
  | unlock hbuckets hlocked _ =>
    exact ⟨hbuckets ▸ h.buckets, fun topics heq => by cases hlocked.symm.trans heq⟩
  | Unsubscribe ob _ hbuckets hlocked _ => exact h.of_eq hbuckets hlocked
  | fetch k ob topic topics _ hbuckets hlocked _ => exact h.of_eq hbuckets hlocked
  | remove k ob topic topics _ hbuckets hlocked _ =>
    exact ⟨h.update (fun hmem => .inl (mem_of_mem_remove hmem).1) hbuckets, hlocked ▸ h.locked⟩

theorem Free.others (h : Free c w) {l : ChannelWatcher.Step} (hl : Others c l)
    (hs : ChannelWatcher.step c.objects w l = some w') : Free c w' := by
  cases ChannelWatcher.effect_of_step hs with
  | quiet l _ hlocked _ | removeSlow topic ob _ hlocked _ | Unsubscribe ob _ _ hlocked _
  | fetch k ob topic topics _ _ hlocked _ | remove k ob topic topics _ _ hlocked _ =>
    exact h.of_eq hlocked
  | Subscribe ob _ _ hlocked _ =>
    exact fun topics heq => hl (Prod.mk.inj (Option.some.inj (hlocked.symm.trans heq))).1
  | add ob topic topics hlock _ hlocked _ =>
    intro rest heq
    obtain ⟨rfl, -⟩ := Prod.mk.inj (Option.some.inj (hlocked.symm.trans heq))
    exact h _ hlock
  | unlock _ hlocked _ => exact fun topics heq => by cases hlocked.symm.trans heq

/-! ## The call of `Unsubscribe` -/

/-- The call numbered `k` has still to take the observer out of the buckets that have it. -/
structure Leaves (c : WatchCall) (w : ChannelWatcher) (k : Nat) : Prop where
  free : Free c w
  call : ∃ l : Leaving, w.leaving[k]? = some l ∧ l.observer = c.address ∧
    ∀ topic, c.address ∈ (w.buckets topic).getD [] → topic ∈ l.topics ∨ l.fetched = some topic

theorem Leaves.within {k : Nat} (h : Leaves c w k) {l : Leaving} (hk : w.leaving[k]? = some l) :
    Within c w fun topic => topic ∈ l.topics ∨ l.fetched = some topic := by
  obtain ⟨l', hl', -, hbuckets⟩ := h.call
  obtain rfl : l' = l := Option.some.inj (hl'.symm.trans hk)
  exact ⟨hbuckets, fun topics heq => absurd heq (h.free topics)⟩

theorem Leaves.others {k : Nat} (h : Leaves c w k) {l : ChannelWatcher.Step} (hl : Others c l)
    (hs : ChannelWatcher.step c.objects w l = some w') : Leaves c w' k := by
  obtain ⟨r, hr, hob, -⟩ := h.call
  have hwithin := (h.within hr).others hl hs
  have hk : k < w.leaving.length := (List.getElem?_eq_some_iff.mp hr).1
  refine ⟨h.free.others hl hs, ?_⟩
  -- the call goes on itself, or stays as it is
  have hsame : w'.leaving[k]? = w.leaving[k]? → ∃ l : Leaving, w'.leaving[k]? = some l ∧
      l.observer = c.address ∧
      ∀ topic, c.address ∈ (w'.buckets topic).getD [] → topic ∈ l.topics ∨ l.fetched = some topic :=
    fun heq => ⟨r, heq.trans hr, hob, hwithin.buckets⟩
  cases ChannelWatcher.effect_of_step hs with
  | quiet l _ _ hleaving | removeSlow topic ob _ _ hleaving | Subscribe ob _ _ _ hleaving
  | add ob topic topics _ _ _ hleaving | unlock _ _ hleaving =>
    exact hsame (by rw [hleaving])
  | Unsubscribe ob _ _ _ hleaving =>
    exact hsame (by rw [hleaving, List.getElem?_append_left hk])
  | fetch k' ob topic topics hk' hbuckets _ hleaving =>
    by_cases heq : k' = k
    · subst heq
      obtain rfl : r = ⟨ob, none, topic :: topics⟩ := Option.some.inj (hr.symm.trans hk')
      refine ⟨⟨ob, (w.buckets topic).map fun _ => topic, topics⟩,
        by rw [hleaving]; exact List.getElem?_set_self hk, hob, fun topic' hmem => ?_⟩
      rcases hwithin.buckets topic' hmem with hmem' | hnone
      · rcases List.mem_cons.mp hmem' with rfl | hrest
        · rw [hbuckets] at hmem
          cases hbucket : w.buckets topic' with
          | none => rw [hbucket] at hmem; cases hmem
          | some observers => exact .inr rfl
        · exact .inl hrest
      · cases hnone
    · exact hsame (by rw [hleaving, List.getElem?_set_ne heq])
  | remove k' ob topic topics hk' hbuckets _ hleaving =>
    by_cases heq : k' = k
    · subst heq
      obtain rfl : r = ⟨ob, some topic, topics⟩ := Option.some.inj (hr.symm.trans hk')
      obtain rfl : ob = c.address := hob
      refine ⟨⟨c.address, none, topics⟩, by rw [hleaving]; exact List.getElem?_set_self hk, rfl,
        fun topic' hmem => ?_⟩
      rcases hwithin.buckets topic' hmem with hrest | hsome
      · exact .inl hrest
      · cases hsome
        rw [hbuckets, Function.update_self] at hmem
        exact absurd rfl (mem_of_mem_remove hmem).2
    · exact hsame (by rw [hleaving, List.getElem?_set_ne heq])

/-! ## Every run -/

/-- The topics in whose buckets the observer is put. -/
def subscribedTo (c : WatchCall) (topic : String) : Prop :=
  c.id ≠ "" ∧ topic ∈ (newTopicObserver c.id c.keys).Topics

def InvAt (c : WatchCall) (w : ChannelWatcher) : WatchHandler → Prop
  | .called => Within c w fun _ => False
  | .subscribing => Within c w (subscribedTo c)
  | .looping ob _ => ob ≠ none ∧ Within c w (subscribedTo c) ∧ Free c w
  | .selecting _ | .sending _ _ => Within c w (subscribedTo c) ∧ Free c w
  | .cancelling k _ => Leaves c w k
  | .returned _ => Within c w fun _ => False
  | .panicked => False

def Inv (c : WatchCall) (s : WatchServer) : Prop := InvAt c s.watcher s.handler

theorem InvAt.others {handler : WatchHandler} (h : InvAt c w handler) {l : ChannelWatcher.Step}
    (hl : Others c l) (hs : ChannelWatcher.step c.objects w l = some w') : InvAt c w' handler := by
  cases handler with
  | called => exact Within.others h hl hs
  | subscribing => exact Within.others h hl hs
  | looping ob err => exact ⟨h.1, h.2.1.others hl hs, h.2.2.others hl hs⟩
  | selecting err => exact ⟨h.1.others hl hs, h.2.others hl hs⟩
  | sending change err => exact ⟨h.1.others hl hs, h.2.others hl hs⟩
  | cancelling k err => exact Leaves.others h hl hs
  | returned err => exact Within.others h hl hs
  | panicked => exact h

theorem Inv.handled {s : WatchServer} (h : Inv c s) : Handled c s := by
  refine ⟨fun hpanic => ?_, fun err hreturned topic hmem => ?_⟩
  · rw [Inv, hpanic] at h
    exact h
  · rw [Inv, hreturned] at h
    exact h.buckets topic hmem

theorem inv_start (c : WatchCall) (bufferSize : Nat) : Inv c (start bufferSize) := by
  show Within c (newChannelWatcher bufferSize) fun _ => False
  exact ⟨fun _ hmem => absurd hmem List.not_mem_nil, fun _ hlocked => by cases hlocked⟩

theorem inv_cancel {s s' : WatchServer} (h : Within c s.watcher (subscribedTo c))
    (hfree : Free c s.watcher) {err : Option GoError} (hs : s.cancel c err = some s') :
    Inv c s' := by
  obtain ⟨w, hw, rfl⟩ := Option.map_eq_some_iff.mp hs
  dsimp only [ChannelWatcher.step] at hw
  rw [objects_address] at hw
  by_cases hid : c.id = ""
  · rw [if_pos (show (newTopicObserver c.id c.keys).id = "" from hid)] at hw
    cases hw
    rw [if_pos hid]
    exact h.mono fun _ hT => hT.1 hid
  · rw [if_neg (show ¬ (newTopicObserver c.id c.keys).id = "" from hid)] at hw
    cases hw
    rw [if_neg hid]
    exact ⟨hfree, _, List.getElem?_concat_length, rfl, fun topic hmem =>
      .inl (h.buckets topic hmem).2⟩

theorem inv_watch {s s' : WatchServer} (hkeys : c.keys ≠ [])
    (h : Within c s.watcher fun _ => False) (hcalled : s.handler = .called)
    (hs : step c s .watch = some s') : Inv c s' := by
  dsimp only [step] at hs
  rw [hcalled] at hs
  dsimp only at hs
  rw [if_neg hkeys] at hs
  obtain ⟨w, hw, rfl⟩ := Option.map_eq_some_iff.mp hs
  show Within c w (subscribedTo c)
  have hwithin : Within c s.watcher (subscribedTo c) := h.mono fun _ => False.elim
  dsimp only [ChannelWatcher.step] at hw
  rw [objects_address] at hw
  split at hw
  · cases hw
    exact hwithin
  · next hid =>
    split at hw
    · cases hw
      refine ⟨hwithin.buckets, fun topics hlocked topic hmem => ⟨hid, ?_⟩⟩
      obtain ⟨-, rfl⟩ := Prod.mk.inj (Option.some.inj hlocked)
      exact hmem
    · cases hw

theorem inv_step {s s' : WatchServer} (hkeys : c.keys ≠ []) (h : Inv c s) (l : Step)
    (hs : step c s l = some s') : Inv c s' := by
  cases l with
  | watcher l =>
    dsimp only [step] at hs
    split at hs
    · next hl =>
      obtain ⟨w, hw, rfl⟩ := Option.map_eq_some_iff.mp hs
      exact InvAt.others h hl hw
    · cases hs
  | watch =>
    have hcalled : s.handler = .called := by
      dsimp only [step] at hs
      split at hs
      · next heq => exact heq
      · cases hs
    rw [Inv, hcalled] at h
    exact inv_watch hkeys h hcalled hs
  | subscribed =>
    dsimp only [step] at hs
    split at hs
    · next heq =>
      rw [Inv, heq] at h
      split at hs
      · cases hs
      · next hfree =>
        cases hs
        exact ⟨Option.some_ne_none _, h, fun topics hlocked => hfree (by rw [hlocked]; rfl)⟩
    · cases hs
  | select =>
    dsimp only [step] at hs
    split at hs
    · next heq =>
      rw [Inv, heq] at h
      exact absurd rfl h.1
    · next heq =>
      rw [Inv, heq] at h
      cases hs
      exact h.2
    · cases hs
  | change =>
    dsimp only [step] at hs
    split at hs
    · next err change ch heq _ =>
      rw [Inv, heq] at h
      obtain ⟨w, hw, rfl⟩ := Option.map_eq_some_iff.mp hs
      dsimp only [ChannelWatcher.step] at hw
      split at hw
      · cases hw
        exact ⟨h.1.of_eq rfl rfl, h.2.of_eq rfl⟩
      · cases hw
    · cases hs
  | closed =>
    dsimp only [step] at hs
    split at hs
    · next err heq =>
      rw [Inv, heq] at h
      split at hs
      · exact inv_cancel h.1 h.2 hs
      · cases hs
    · cases hs
  | Send sent =>
    dsimp only [step] at hs
    split at hs
    · next change err heq =>
      rw [Inv, heq] at h
      split at hs <;> cases hs <;> exact ⟨Option.some_ne_none _, h⟩
    · cases hs
  | Done | quit =>
    dsimp only [step] at hs
    split at hs
    · next err heq =>
      rw [Inv, heq] at h
      exact inv_cancel h.1 h.2 hs
    · cases hs
  | cancelled =>
    dsimp only [step] at hs
    split at hs
    · next k err heq =>
      rw [Inv, heq] at h
      split at hs
      · next ob hk =>
        cases hs
        refine (h.within hk).mono fun topic hT => ?_
        rcases hT with hmem | hnone
        · cases hmem
        · cases hnone
      · cases hs
    · cases hs

/-- A watch of at least one key never dereferences a nil observer, and when it has ended no bucket
holds its observer. A watch of no key panics. -/
theorem Watch_handled_iff (c : WatchCall) (bufferSize : Nat) :
    (∀ ls, Transition.EachState (step c) (Handled c) (start bufferSize) ls) ↔ c.keys ≠ [] := by
  constructor
  · intro h hkeys
    have hwatch : step c (start bufferSize) .watch =
        some { start bufferSize with handler := .looping none none } := if_pos hkeys
    have hend : Transition.run (step c) (start bufferSize) [.watch, .select] =
        some { start bufferSize with handler := .panicked } := by
      rw [Transition.run_cons hwatch]
      rfl
    exact ((h [.watch, .select]).of_run hend).served rfl
  · intro hkeys ls
    have hrun := Transition.eachState_of_eachStep (Inv c)
      (fun s l s' hi _ hs => inv_step hkeys hi l hs) (inv_start c bufferSize)
      (Transition.eachStep_true _ ls)
    exact hrun.mono fun _ hs => hs.handled

/-- A call with the only observer there is. -/
def onlyWatch (keys : List String) : WatchCall where
  objs := fun _ => newTopicObserver "" []
  address := 0
  id := "qwertyui"
  keys := keys

theorem Watch_nil_observer :
    ¬ Transition.EachState (step (onlyWatch [])) (Handled (onlyWatch [])) (start 100)
      [.watch, .select] := by
  intro h
  have hend : Transition.run (step (onlyWatch [])) (start 100) [.watch, .select] =
      some { start 100 with handler := .panicked } := rfl
  exact (h.of_run hend).served rfl

/-- A client that asks for a key twice and goes away. -/
example : (Transition.run (step (onlyWatch ["a", "a"])) (start 100)
      [.watch, .watcher .add, .watcher .unlock, .subscribed, .select, .Done, .watcher (.fetch 0),
        .watcher (.remove 0), .cancelled]).map
    (fun s => (s.handler matches .returned none, s.watcher.buckets "a")) = some (true, some []) := by
  decide +kernel

end WatchServer

end Cassem.KV
