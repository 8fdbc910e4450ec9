import Cassem.Agent.PoolIndex

/-!
# Streams of one instance

The pool knows a stream by the identity of its client alone: streams with one identity share a
node and its channel, and the end of any of them removes the node and closes the channel. A
channel in the pool is open, so that no send meets a closed one and none is closed twice; but a
stream keeps its place only as long as nobody else removes its instance.
-/

namespace Cassem.Agent

open Lib Cassem.Concept Cassem.Coord

/-! ## What a stream has registered -/

/-- The identity, the channel and the watchings that are registered, of a call that has registered
some and has not ended. -/
def WatchCall.attached (w : WatchCall) : Option (String × Nat × List Watching) :=
  match w.pc with
  | .registering rest (some ch) =>
      some (w.insId, ch, w.req.Watching.take (w.req.Watching.length - rest.length))
  | .renewing (some ch) | .streaming (some ch) => some (w.insId, ch, w.req.Watching)
  | _ => none

/-- What is left to register is the rest of the request, and all of it before the first. -/
def WatchCall.Staged (w : WatchCall) : Prop :=
  match w.pc with
  | .registering rest none => rest = w.req.Watching
  | .registering rest (some _) => rest <:+ w.req.Watching
  | _ => True

namespace Listener

def attached (s : Listener) (k : Nat) : Option (String × Nat × List Watching) :=
  s.watches[k]?.bind WatchCall.attached

/-- Stream `k`, as far as it has registered and not ended, is in the pool under its keys, with an
open channel. -/
def Attached (k : Nat) (s : Listener) : Prop :=
  ∀ insId ch watchings, s.attached k = some (insId, ch, watchings) →
    (∃ node, s.pool.instances insId = some node ∧ node.ch = ch) ∧ (s.chans ch).closed = false ∧
    ∀ watching ∈ watchings, ∀ key ∈ watching.WatchKeys,
      insId ∈ s.pool.ListWatchingInstances watching.App watching.Env key

variable (v : Validator)

/-- The step removes the instance from the pool: an RPC, or the end of a stream. -/
def Removes (s : Listener) (l : Step) (insId : String) : Prop :=
  match l with
  | .Unregister clientId clientIp =>
      v.client clientId clientIp = true ∧ insId = InstanceID clientId clientIp
  | .unregister k => ∃ w err, s.watches[k]? = some w ∧ w.pc = .leaving err ∧ insId = w.insId
  | _ => False

/-- The step does not remove the instance of stream `k`. -/
def Spared (k : Nat) (s : Listener) (l : Step) (_ : Listener) : Prop :=
  ∀ insId ch watchings, s.attached k = some (insId, ch, watchings) → ¬ Removes v s l insId

/-- No send on a closed channel, no close of one. -/
def ChannelSafe (s : Listener) (l : Step) (_ : Listener) : Prop :=
  (∀ k elems targets elem insId insIds node, l = .notify k →
    s.dispatches[k]? = some ⟨elems, targets, some (elem, insId :: insIds)⟩ →
    s.pool.instances insId = some node → (s.chans node.ch).closed = false) ∧
  ∀ insId ch, Removes v s l insId → (s.pool.unregister insId).2 = some ch →
    (s.chans ch).closed = false

/-! ## What a step does to the pool and the streams -/

/-- The pool stays, and a stream keeps what it has registered or ends. -/
structure Quiet (s s' : Listener) : Prop where
  pool : s'.pool = s.pool
  made : s'.made = s.made
  closed : ∀ ch, (s'.chans ch).closed = (s.chans ch).closed
  attached : ∀ k, s'.attached k = none ∨ s'.attached k = s.attached k
  staged : (∀ w ∈ s.watches, w.Staged) → ∀ w ∈ s'.watches, w.Staged

/-- Stream `k` registers one more watching. -/
structure Registers (s s' : Listener) : Prop where
  made : s'.made = s.made + 1
  chans : s'.chans = s.chans
  changed : ∃ insId watching, ∃ k ch watchings,
    s'.pool = (s.pool.register insId
      (watching.WatchKeys.map (genWatchingKey watching.App watching.Env)) s.made).1 ∧
    ch = (s.pool.register insId
      (watching.WatchKeys.map (genWatchingKey watching.App watching.Env)) s.made).2 ∧
    s'.attached k = some (insId, ch, watchings ++ [watching]) ∧
    ((s.attached k = none ∧ watchings = []) ∨ ∃ ch', s.attached k = some (insId, ch', watchings)) ∧
    ∀ j, j ≠ k → s'.attached j = s.attached j
  staged : ∀ w ∈ s'.watches, w.Staged

/-- The instance is removed. -/
structure Removal (s s' : Listener) (insId : String) : Prop where
  pool : s'.pool = (s.pool.unregister insId).1
  made : s'.made = s.made
  chans : s'.chans = (s.unregisterInstance insId).chans
  attached : ∀ k, s'.attached k = s.attached k
  staged : (∀ w ∈ s.watches, w.Staged) → ∀ w ∈ s'.watches, w.Staged

variable {v} {md5 : KV.Bytes → String} {s s' : Listener} {k : Nat} {w : WatchCall} {pc : WatchPc}

theorem setWatch_attached (hk : s.watches[k]? = some w) (j : Nat) :
    (s.setWatch k w pc).attached j =
      if j = k then WatchCall.attached { w with pc := pc } else s.attached j := by
  unfold attached setWatch
  dsimp only
  by_cases hj : j = k
  · subst hj
    rw [if_pos rfl, List.getElem?_set_self (List.getElem?_eq_some_iff.mp hk).1]
    rfl
  · rw [if_neg hj, List.getElem?_set_ne (Ne.symm hj)]

theorem attached_of_getElem (hk : s.watches[k]? = some w) : s.attached k = w.attached := by
  unfold attached
  rw [hk]
  rfl

theorem setWatch_staged (h : ∀ w ∈ s.watches, w.Staged)
    (hpc : WatchCall.Staged { w with pc := pc }) : ∀ w' ∈ (s.setWatch k w pc).watches, w'.Staged := by
  intro w' hw'
  rcases List.mem_or_eq_of_mem_set hw' with hw' | rfl
  · exact h w' hw'
  · exact hpc

/-- A stream goes on to where it has registered the same, or nothing. -/
theorem Quiet.setWatch (hk : s.watches[k]? = some w)
    (hattached : WatchCall.attached { w with pc := pc } = none ∨
      WatchCall.attached { w with pc := pc } = w.attached)
    (hstaged : w.Staged → WatchCall.Staged { w with pc := pc }) : Quiet s (s.setWatch k w pc) where
  pool := rfl
  made := rfl
  closed _ := rfl
  attached j := by
    rw [setWatch_attached hk]
    split
    · next hj =>
      rw [hj, attached_of_getElem hk]
      exact hattached
    · exact .inr rfl
  staged h := setWatch_staged h (hstaged (h w (List.mem_of_getElem? hk)))

/-- A step that touches neither the pool nor a stream. -/
theorem Quiet.of_eq (hpool : s'.pool = s.pool) (hmade : s'.made = s.made)
    (hclosed : ∀ ch, (s'.chans ch).closed = (s.chans ch).closed)
    (hwatches : s'.watches = s.watches) : Quiet s s' where
  pool := hpool
  made := hmade
  closed := hclosed
  attached k := by
    unfold Listener.attached
    rw [hwatches]
    exact .inr rfl
  staged h := hwatches ▸ h

theorem Quiet.trans {s₁ : Listener} (h : Quiet s s₁) (h' : Quiet s₁ s') : Quiet s s' where
  pool := h'.pool.trans h.pool
  made := h'.made.trans h.made
  closed ch := (h'.closed ch).trans (h.closed ch)
  attached k := by
    rcases h'.attached k with hnone | heq
    · exact .inl hnone
    · rw [heq]
      exact h.attached k
  staged hw := h'.staged (h.staged hw)

/-- A stream that leaves or has ended holds nothing. -/
theorem Quiet.leaves (hk : s.watches[k]? = some w) (err : Option GoError) :
    Quiet s (s.setWatch k w (.leaving err)) :=
  .setWatch hk (.inl rfl) fun _ => trivial

theorem Quiet.push (s : Listener) (insId : String) (elem : Element) :
    Quiet s (s.push insId elem) := by
  unfold Listener.push
  split
  · exact .of_eq rfl rfl (fun _ => rfl) rfl
  · next node _ =>
    refine .of_eq rfl rfl (fun ch => ?_) rfl
    show (Function.update s.chans node.ch _ ch).closed = _
    by_cases hch : ch = node.ch
    · rw [hch, Function.update_self]
      unfold Chan.offer
      split <;> rfl
    · rw [Function.update_of_ne hch]

theorem Quiet.took {ch : Nat} {elem : Element} {c : Chan Element}
    (htake : (s.chans ch).take = some (elem, c)) :
    Quiet s { s with chans := Function.update s.chans ch c } := by
  refine .of_eq rfl rfl (fun ch' => ?_) rfl
  show (Function.update s.chans ch c ch').closed = _
  by_cases hch : ch' = ch
  · rw [hch, Function.update_self]
    exact (Chan.take_eq_some htake).2.2
  · rw [Function.update_of_ne hch]

/-- A stream updates the cache with what it took. -/
theorem Quiet.received {ch : Nat} {elem : Element} {c : Chan Element}
    (htake : (s.chans ch).take = some (elem, c)) : Quiet s { s with
      chans := Function.update s.chans ch c
      updates := s.updates ++ [(metadataAppOf elem, metadataEnvOf elem, elem)] } :=
  (Quiet.took htake).trans (.of_eq rfl rfl (fun _ => rfl) rfl)

/-- A call of `Watch` begins. -/
theorem Quiet.begins {authorization : List String} {req : WatchReq}
    (hpc : pc = .registering req.Watching none ∨ ∃ err, pc = .ended err) :
    Quiet s { s with watches := s.watches ++ [⟨authorization, req, pc⟩] } where
  pool := rfl
  made := rfl
  closed _ := rfl
  attached k := by
    show (s.watches ++ [_])[k]?.bind WatchCall.attached = none ∨
      (s.watches ++ [_])[k]?.bind WatchCall.attached = s.watches[k]?.bind WatchCall.attached
    rcases Nat.lt_or_ge k s.watches.length with hlt | hge
    · rw [List.getElem?_append_left hlt]
      exact .inr rfl
    · rw [List.getElem?_append_right hge]
      cases hidx : k - s.watches.length with
      | zero => obtain rfl | ⟨err, rfl⟩ := hpc <;> exact .inl rfl
      | succ n => exact .inl rfl
  staged h w hw := by
    rcases List.mem_append.mp hw with hw | hw
    · exact h w hw
    · rw [List.mem_singleton.mp hw]
      rcases hpc with rfl | ⟨err, rfl⟩
      · exact rfl
      · exact trivial

theorem registers_step {watching : Watching} {rest : List Watching} {ch : Option Nat}
    (hstaged : ∀ w ∈ s.watches, w.Staged) (hk : s.watches[k]? = some w)
    (hpc : w.pc = .registering (watching :: rest) ch) :
    Registers s { s.setWatch k w (.registering rest (some (s.pool.register w.insId
        (watching.WatchKeys.map (genWatchingKey watching.App watching.Env)) s.made).2)) with
      pool := (s.pool.register w.insId
        (watching.WatchKeys.map (genWatchingKey watching.App watching.Env)) s.made).1
      made := s.made + 1 } := by
  have hw := hstaged w (List.mem_of_getElem? hk)
  unfold WatchCall.Staged at hw
  rw [hpc] at hw
  obtain ⟨done, hreq, hfirst⟩ : ∃ done, w.req.Watching = done ++ watching :: rest ∧
      (ch = none → done = []) := by
    cases ch with
    | none => exact ⟨[], hw.symm, fun _ => rfl⟩
    | some ch =>
      obtain ⟨done, hdone⟩ := hw
      exact ⟨done, hdone.symm, fun h => by cases h⟩
  have htake : w.req.Watching.take (w.req.Watching.length - rest.length) = done ++ [watching] := by
    have hsplit : w.req.Watching = (done ++ [watching]) ++ rest := by simp [hreq]
    have hlength : w.req.Watching.length - rest.length = (done ++ [watching]).length := by
      rw [hsplit, List.length_append]
      omega
    rw [hlength, hsplit, List.take_left]
  have hbefore : w.req.Watching.take (w.req.Watching.length - (watching :: rest).length) = done := by
    have hlength : w.req.Watching.length - (watching :: rest).length = done.length := by
      rw [hreq, List.length_append]
      omega
    rw [hlength, hreq, List.take_left]
  refine ⟨rfl, rfl, ⟨w.insId, watching, k, _, done, rfl, rfl, ?_, ?_, ?_⟩, ?_⟩
  · refine (setWatch_attached hk k).trans ?_
    rw [if_pos rfl]
    show some (w.insId, _, w.req.Watching.take (w.req.Watching.length - rest.length)) = _
    rw [htake]
  · rw [attached_of_getElem hk]
    unfold WatchCall.attached
    rw [hpc]
    cases ch with
    | none => exact .inl ⟨rfl, hfirst rfl⟩
    | some ch =>
      refine .inr ⟨ch, ?_⟩
      dsimp only
      rw [hbefore]
  · intro j hj
    refine (setWatch_attached hk j).trans ?_
    rw [if_neg hj]
  · refine setWatch_staged hstaged ?_
    exact ⟨done ++ [watching], by simp [hreq]⟩

theorem removal_of_eq {insId : String} (hwatches : s'.watches = s.watches)
    (hpool : s'.pool = (s.pool.unregister insId).1) (hmade : s'.made = s.made)
    (hchans : s'.chans = (s.unregisterInstance insId).chans) : Removal s s' insId where
  pool := hpool
  made := hmade
  chans := hchans
  attached k := by
    unfold attached
    rw [hwatches]
  staged h := hwatches ▸ h

/-- Every step is quiet, a registration, or a removal. -/
theorem step_cases {l : Step} (hstaged : ∀ w ∈ s.watches, w.Staged)
    (hs : step md5 v s l = some s') :
    (Quiet s s' ∧ ∀ insId, ¬ Removes v s l insId) ∨
    (Registers s s' ∧ ∀ insId, ¬ Removes v s l insId) ∨
    ∃ insId, Removal s s' insId ∧ ∀ other, Removes v s l other ↔ other = insId := by
  cases step_effect hs with
  | @notify k elems targets elem insId insIds hk =>
    have hquiet := Quiet.push s insId elem
    refine .inl ⟨hquiet.trans ?_, fun _ => id⟩
    exact .of_eq rfl rfl (fun _ => rfl) rfl
  | @Unregister clientId clientIp hvalid =>
    refine .inr (.inr ⟨InstanceID clientId clientIp, ?_, ?_⟩)
    · rw [unregisterInstance_eq]
      exact removal_of_eq rfl rfl rfl rfl
    · exact fun other => and_iff_right hvalid
  | unregisterRefused hinvalid =>
    exact .inl ⟨.of_eq rfl rfl (fun _ => rfl) rfl, fun _ h => hinvalid h.1⟩
  | Watch hpc => exact .inl ⟨.begins hpc, fun _ => id⟩
  | register hk hpc => exact .inr (.inl ⟨registers_step hstaged hk hpc, fun _ => id⟩)
  | @registered k w ch hk hpc =>
    refine .inl ⟨.setWatch hk (.inr ?_) fun _ => trivial, fun _ => id⟩
    unfold WatchCall.attached
    rw [hpc]
    cases ch with
    | none => rfl
    | some ch => exact congrArg (fun ws => some (w.insId, ch, ws)) List.take_length.symm
  | @renew k w ch hk hpc =>
    refine .inl ⟨.setWatch hk (.inr ?_) fun _ => trivial, fun _ => id⟩
    unfold WatchCall.attached
    rw [hpc]
    cases ch <;> rfl
  | renewFailed err hk => exact .inl ⟨.leaves hk _, fun _ => id⟩
  | closed sendErr hk => exact .inl ⟨.leaves hk _, fun _ => id⟩
  | skipped sendErr htake => exact .inl ⟨.took htake, fun _ => id⟩
  | dropped sendErr err hk htake =>
    refine .inl ⟨(Quiet.took htake).trans (.leaves ?_ _), fun _ => id⟩
    exact hk
  | sendFailed err hk htake =>
    refine .inl ⟨(Quiet.received htake).trans (.leaves ?_ _), fun _ => id⟩
    exact hk
  | sent htake =>
    exact .inl ⟨(Quiet.received htake).trans (.of_eq rfl rfl (fun _ => rfl) rfl), fun _ => id⟩
  | quit hk => exact .inl ⟨.leaves hk _, fun _ => id⟩
  | @unregister n w err hk hpc =>
    have hwatches : (s.unregisterInstance w.insId).watches = s.watches := by
      rw [unregisterInstance_eq]
    have hpool : (s.unregisterInstance w.insId).pool = (s.pool.unregister w.insId).1 := by
      rw [unregisterInstance_eq]
    have hmade : (s.unregisterInstance w.insId).made = s.made := by rw [unregisterInstance_eq]
    have hk' : (s.unregisterInstance w.insId).watches[n]? = some w := by rw [hwatches, hk]
    have hgone : w.attached = none := by
      unfold WatchCall.attached
      rw [hpc]
    refine .inr (.inr ⟨w.insId, ?_, fun other => ?_⟩)
    · refine ⟨hpool, hmade, rfl, fun j => ?_, fun h => ?_⟩
      · rw [setWatch_attached hk']
        split
        · next hj =>
          rw [hj, attached_of_getElem hk, hgone]
          rfl
        · exact congrArg (fun ws : List WatchCall => ws[j]?.bind WatchCall.attached) hwatches
      · exact setWatch_staged (hwatches ▸ h) trivial
    · constructor
      · rintro ⟨w', err', hw', -, rfl⟩
        cases hk.symm.trans hw'
        rfl
      · rintro rfl
        exact ⟨w, err, hk, hpc, rfl⟩
  | _ => exact .inl ⟨.of_eq rfl rfl (fun _ => rfl) rfl, fun _ => id⟩

/-! ## Channels of the pool -/

/-- Every node has an open channel of its own, and the addresses that were not given out yet have
open ones. -/
structure Wired (s : Listener) : Prop where
  node : ∀ insId node, s.pool.instances insId = some node →
    node.ch < s.made ∧ (s.chans node.ch).closed = false
  own : ∀ insId insId' node node', s.pool.instances insId = some node →
    s.pool.instances insId' = some node' → node.ch = node'.ch → insId = insId'
  fresh : ∀ ch, s.made ≤ ch → (s.chans ch).closed = false
  staged : ∀ w ∈ s.watches, w.Staged

/-- The removal closes the channel of the node and no other. -/
theorem unregisterInstance_closed (s : Listener) (insId : String) (ch : Nat) :
    ((s.unregisterInstance insId).chans ch).closed = false ↔ (s.chans ch).closed = false ∧
      ∀ node, s.pool.instances insId = some node → node.ch ≠ ch := by
  unfold unregisterInstance InstancePool.unregister
  cases hnode : s.pool.instances insId with
  | none => simp
  | some node =>
    show (Function.update s.chans node.ch (s.chans node.ch).close ch).closed = false ↔ _
    by_cases hch : ch = node.ch
    · subst hch
      rw [Function.update_self]
      simp
    · rw [Function.update_of_ne hch]
      simp [Ne.symm hch]

theorem Wired.quiet (h : s.Wired) (hq : Quiet s s') : s'.Wired where
  node insId node hnode := by
    rw [hq.pool] at hnode
    rw [hq.made, hq.closed]
    exact h.node insId node hnode
  own insId insId' node node' hnode hnode' := by
    rw [hq.pool] at hnode hnode'
    exact h.own insId insId' node node' hnode hnode'
  fresh ch hch := by
    rw [hq.made] at hch
    rw [hq.closed]
    exact h.fresh ch hch
  staged := hq.staged h.staged

/-- The node that a registration leaves. -/
theorem Wired.registered (h : s.Wired) (insId : String) (keys : List String) :
    ∃ node, (s.pool.register insId keys s.made).1.instances insId = some node ∧
      (s.pool.register insId keys s.made).2 = node.ch ∧ (s.chans node.ch).closed = false ∧
      (s.pool.instances insId = some node ∨ s.pool.instances insId = none ∧ node.ch = s.made) := by
  refine ⟨(s.pool.instances insId).getD ⟨s.made, keys⟩, ?_, rfl, ?_⟩
  · rw [InstancePool.register_instances, if_pos rfl]
  · cases hnode : s.pool.instances insId with
    | none => exact ⟨h.fresh s.made (Nat.le_refl _), .inr ⟨rfl, rfl⟩⟩
    | some node => exact ⟨(h.node insId node hnode).2, .inl rfl⟩

theorem Wired.registers (h : s.Wired) (hr : Registers s s') : s'.Wired := by
  obtain ⟨insId, watching, k, ch, watchings, hpool, -, -, -, -⟩ := hr.changed
  obtain ⟨node, hnode, -, hopen, hold⟩ := h.registered insId
    (watching.WatchKeys.map (genWatchingKey watching.App watching.Env))
  have hinstances : ∀ other, s'.pool.instances other =
      if other = insId then some node else s.pool.instances other := by
    intro other
    rw [hpool, InstancePool.register_instances]
    split
    · rw [← hnode, InstancePool.register_instances, if_pos rfl]
    · rfl
  have hch : node.ch < s.made ∨ node.ch = s.made :=
    hold.imp (fun hold => (h.node insId node hold).1) fun hnew => hnew.2
  have hown : ∀ other node', other ≠ insId → s.pool.instances other = some node' →
      node'.ch ≠ node.ch := by
    intro other node' hother hnode' heq
    rcases hold with hold | ⟨-, hmade⟩
    · exact hother (h.own other insId node' node hnode' hold heq)
    · have hlt := (h.node other node' hnode').1
      omega
  refine ⟨fun other node' hnode' => ?_, fun i j ni nj hi hj heq => ?_, fun ch' hch' => ?_, hr.staged⟩
  · rw [hinstances] at hnode'
    rw [hr.made, hr.chans]
    split at hnode'
    · cases hnode'
      exact ⟨by omega, hopen⟩
    · have hkept := h.node other node' hnode'
      exact ⟨by omega, hkept.2⟩
  · rw [hinstances] at hi hj
    split at hi
    · next hii =>
      split at hj
      · next hji => exact hii.trans hji.symm
      · next hji =>
        cases hi
        exact absurd heq.symm (hown j nj hji hj)
    · next hii =>
      split at hj
      · next hji =>
        cases hj
        exact absurd heq (hown i ni hii hi)
      · exact h.own i j ni nj hi hj heq
  · rw [hr.made] at hch'
    rw [hr.chans]
    exact h.fresh ch' (by omega)

theorem Removal.closed {insId : String} (hr : Removal s s' insId) (ch : Nat) :
    (s'.chans ch).closed = false ↔ (s.chans ch).closed = false ∧
      ∀ node, s.pool.instances insId = some node → node.ch ≠ ch := by
  rw [hr.chans]
  exact unregisterInstance_closed s insId ch

theorem Removal.instances {insId : String} (hr : Removal s s' insId) (other : String) :
    s'.pool.instances other = if other = insId then none else s.pool.instances other := by
  rw [hr.pool]
  exact InstancePool.unregister_instances s.pool insId other

theorem Wired.removal {insId : String} (h : s.Wired) (hr : Removal s s' insId) : s'.Wired := by
  refine ⟨fun other node hnode => ?_, fun i j ni nj hi hj heq => ?_, fun ch hch => ?_,
    hr.staged h.staged⟩
  · rw [hr.instances] at hnode
    split at hnode
    · cases hnode
    · next hother =>
      have hkept := h.node other node hnode
      rw [hr.made, hr.closed]
      refine ⟨hkept.1, hkept.2, fun node' hnode' heq => ?_⟩
      exact hother (h.own other insId node node' hnode hnode' heq.symm)
  · rw [hr.instances] at hi hj
    split at hi
    · cases hi
    · split at hj
      · cases hj
      · exact h.own i j ni nj hi hj heq
  · rw [hr.made] at hch
    rw [hr.closed]
    refine ⟨h.fresh ch hch, fun node hnode heq => ?_⟩
    have hlt := (h.node insId node hnode).1
    omega

theorem wired_step {l : Step} (h : s.Wired) (hs : step md5 v s l = some s') : s'.Wired := by
  rcases step_cases h.staged hs with ⟨hq, -⟩ | ⟨hr, -⟩ | ⟨insId, hr, -⟩
  · exact h.quiet hq
  · exact h.registers hr
  · exact h.removal hr

/-- With every node's channel open a step neither sends on a closed channel nor closes one. -/
theorem channelSafe_of_wired (h : s.Wired) (l : Step) : ChannelSafe v s l s' := by
  constructor
  · intro k elems targets elem insId insIds node _ _ hnode
    exact (h.node insId node hnode).2
  · intro insId ch _ hclosed
    unfold InstancePool.unregister at hclosed
    split at hclosed
    · cases hclosed
    · next node hnode =>
      cases hclosed
      exact (h.node insId node hnode).2

/-! ## Streams in the pool -/

theorem listed_register {insId i : String} {keys : List String} {ch : Nat}
    {watchings : List Watching} {p : InstancePool}
    (h : ∀ watching ∈ watchings, ∀ key ∈ watching.WatchKeys,
      i ∈ p.ListWatchingInstances watching.App watching.Env key) :
    ∀ watching ∈ watchings, ∀ key ∈ watching.WatchKeys,
      i ∈ (p.register insId keys ch).1.ListWatchingInstances watching.App watching.Env key :=
  fun watching hwatching key hkey =>
    InstancePool.mem_register.mpr (.inl (h watching hwatching key hkey))

theorem attached_quiet (hq : Quiet s s') (h : Attached k s) : Attached k s' := by
  intro insId ch watchings hattached
  rcases hq.attached k with hnone | hsame
  · cases hnone.symm.trans hattached
  · rw [hsame] at hattached
    obtain ⟨hnode, hopen, hlisted⟩ := h insId ch watchings hattached
    rw [hq.pool, hq.closed]
    exact ⟨hnode, hopen, hlisted⟩

theorem attached_registers (hw : s.Wired) (hr : Registers s s') (h : Attached k s) :
    Attached k s' := by
  obtain ⟨insId, watching, j, ch, watchings, hpool, hch, hnew, hold, hothers⟩ := hr.changed
  obtain ⟨node, hnode, hnodech, hopen, hfrom⟩ := hw.registered insId
    (watching.WatchKeys.map (genWatchingKey watching.App watching.Env))
  intro insId' ch' watchings' hattached
  rw [hpool, hr.chans]
  by_cases hk : k = j
  · rw [hk, hnew] at hattached
    cases hattached
    refine ⟨⟨node, hnode, (hch.trans hnodech).symm⟩, ?_, fun w hmem key hkey => ?_⟩
    · rw [hch, hnodech]
      exact hopen
    · rcases List.mem_append.mp hmem with hmem | hmem
      · rcases hold with ⟨-, rfl⟩ | ⟨ch₀, hbefore⟩
        · cases hmem
        · obtain ⟨-, -, hlisted⟩ := h insId ch₀ watchings (hk ▸ hbefore)
          exact listed_register hlisted w hmem key hkey
      · rw [List.mem_singleton.mp hmem] at hkey ⊢
        exact InstancePool.mem_register.mpr (.inr ⟨rfl, List.mem_map_of_mem hkey⟩)
  · rw [hothers k hk] at hattached
    obtain ⟨⟨node', hnode', hch'⟩, hopen', hlisted⟩ := h insId' ch' watchings' hattached
    refine ⟨⟨node', ?_, hch'⟩, hopen', listed_register hlisted⟩
    rw [InstancePool.register_instances]
    split
    · next hsame =>
      rw [hsame] at hnode'
      rw [hnode']
      rfl
    · exact hnode'

/-- A removal leaves exactly the streams of other instances. -/
theorem attached_removal {insId : String} (hw : s.Wired) (hr : Removal s s' insId)
    (h : Attached k s) : Attached k s' ↔
      ∀ id ch watchings, s.attached k = some (id, ch, watchings) → id ≠ insId := by
  constructor
  · rintro h' id ch watchings hattached rfl
    obtain ⟨⟨node, hnode, -⟩, -, -⟩ := h' id ch watchings ((hr.attached k).trans hattached)
    rw [hr.instances, if_pos rfl] at hnode
    cases hnode
  · intro hother id ch watchings hattached
    rw [hr.attached] at hattached
    have hne := hother id ch watchings hattached
    obtain ⟨⟨node, hnode, hch⟩, hopen, hlisted⟩ := h id ch watchings hattached
    refine ⟨⟨node, ?_, hch⟩, ?_, fun w hmem key hkey => ?_⟩
    · rw [hr.instances, if_neg hne]
      exact hnode
    · rw [hr.closed]
      refine ⟨hopen, fun node' hnode' heq => ?_⟩
      exact hne (hw.own id insId node node' hnode hnode' (hch.trans heq.symm))
    · have hmem' := hlisted w hmem key hkey
      rw [hr.pool]
      unfold InstancePool.ListWatchingInstances at hmem' ⊢
      cases hremoved : s.pool.instances insId with
      | none =>
        unfold InstancePool.unregister
        rw [hremoved]
        exact hmem'
      | some node' =>
        rw [InstancePool.unregister_watchingSet hremoved]
        split
        · exact List.mem_filter.mpr ⟨hmem', decide_eq_true hne⟩
        · exact hmem'

theorem attached_step {l : Step} (hw : s.Wired) (h : Attached k s)
    (hs : step md5 v s l = some s') : Attached k s' ↔ Spared v k s l s' := by
  rcases step_cases hw.staged hs with ⟨hq, hnone⟩ | ⟨hr, hnone⟩ | ⟨insId, hr, hremoves⟩
  · exact iff_of_true (attached_quiet hq h) fun id _ _ _ => hnone id
  · exact iff_of_true (attached_registers hw hr h) fun id _ _ _ => hnone id
  · rw [attached_removal hw hr h]
    unfold Spared
    simp only [hremoves, ne_eq]

theorem wired_started (agent : AgentApp) (cache : AppPool) : (started agent cache).Wired where
  node _ _ hnode := by cases hnode
  own _ _ _ _ hnode := by cases hnode
  fresh _ _ := rfl
  staged _ hw := by cases hw

/-- In every run no send meets a closed channel and no channel is closed twice, and each stream
keeps its place in the pool exactly as long as nobody else removes its instance. -/
theorem streams_run (md5 : KV.Bytes → String) (v : Validator) (agent : AgentApp) (cache : AppPool)
    (ls : List Step) :
    Lib.Transition.EachStep (step md5 v) (ChannelSafe v) (started agent cache) ls ∧
    ∀ k, Lib.Transition.EachState (step md5 v) (Attached k) (started agent cache) ls ↔
      Lib.Transition.EachStep (step md5 v) (Spared v k) (started agent cache) ls := by
  have hwired := wired_started agent cache
  constructor
  · exact Lib.Transition.eachStep_imp Wired (fun s l s' h hs => wired_step h hs)
      (fun s l s' h _ _ => channelSafe_of_wired h l) hwired (Lib.Transition.eachStep_true _ ls)
  · intro k
    refine Lib.Transition.eachState_iff_eachStep Wired (fun s l s' h hs => wired_step h hs)
      (fun s l s' h hk hs => attached_step h hk hs) hwired ?_ ls
    intro insId ch watchings hattached
    cases hattached

/-! ## A stream that outlives another of its instance -/

/-- Two streams of one client, of which the first ends. -/
def overlapping : List Step :=
  [.Watch ["Bearer t"] watchConfig, .register 0, .register 0, .renew 0 none,
    .Watch ["Bearer t"] watchConfig, .register 1, .register 1, .renew 1 none, .quit 0, .unregister 0]

/-- The second stream goes on, out of the pool and on a closed channel. -/
theorem overlapping_removed :
    (Lib.Transition.run (step (fun _ => "") openValidator) (started openAgent coldCache)
      overlapping).map (fun s =>
        (s.attached 1, (s.pool.instances "client@10.0.0.1").isSome, (s.chans 0).closed)) =
      some (some ("client@10.0.0.1", 0, watchConfig.Watching), false, true) ∧
    ¬ ∀ ls k, Lib.Transition.EachState (step (fun _ => "") openValidator) (Attached k)
      (started openAgent coldCache) ls := by
  have hrun : (Lib.Transition.run (step (fun _ => "") openValidator) (started openAgent coldCache)
      overlapping).map (fun s =>
        (s.attached 1, (s.pool.instances "client@10.0.0.1").isSome, (s.chans 0).closed)) =
      some (some ("client@10.0.0.1", 0, watchConfig.Watching), false, true) := by
    decide +kernel
  refine ⟨hrun, fun h => ?_⟩
  obtain ⟨s, hs, heq⟩ := Option.map_eq_some_iff.mp hrun
  obtain ⟨hattached, hrest⟩ := Prod.mk.inj heq
  obtain ⟨-, hopen, -⟩ := (h overlapping 1).of_run hs _ _ _ hattached
  cases hopen.symm.trans (Prod.mk.inj hrest).2

end Listener

end Cassem.Agent
