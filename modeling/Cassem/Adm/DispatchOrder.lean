import Cassem.Adm.AgentDelivery
import Cassem.Lib.Transition

/-!
# In which order elements are handed out

The requests of a batch are sent one after another, in any order, and the agent handles each
request in a goroutine of its own. So two elements keep their order only within one request.
-/

namespace Cassem.Adm

open Lib Lib.Interleave Lib.Transition Cassem.Concept Cassem.Agent

/-! ## Deliveries in flight -/

/-- A goroutine of the agent: the elements it has not come to, and the one it is at with the
instances it has still to notify. -/
structure Dispatching where
  elems : List Posted
  targets : List String
  notifying : Option (Posted × List String) := none

/-- The batches to come, the requests of the last batch that are not sent yet, the goroutines of
the agent, and what was put on the channel of each instance. -/
structure Delivery where
  rest : List (List AgentDispatchItem)
  sending : List DispatchReq := []
  dispatches : List Dispatching := []
  chans : String → List Posted := fun _ => []

namespace Delivery

inductive Act where
  | deliver
  | send (k : Nat)
  | list (k : Nat) (insIds : List String)
  | notify (k : Nat)

/-- `Notify`. -/
def push (w : Watchers) (s : Delivery) (insId : String) (elem : Posted) : Delivery :=
  match w.pool.instances insId with
  | none => s
  | some _ => { s with chans := Function.update s.chans insId (s.chans insId ++ [elem]) }

def step (w : Watchers) (s : Delivery) (act : Act) : Option Delivery :=
  match act with
  | .deliver =>
      match s.rest, s.sending with
      | batch :: rest, [] => some { s with rest, sending := (grouped batch).map (·.2) }
      | _, _ => none
  | .send k =>
      (s.sending[k]?).map fun req =>
        { s with
          sending := s.sending.eraseIdx k
          dispatches := s.dispatches ++ [⟨req.Elems, req.InstanceIds, none⟩] }
  | .list k insIds =>
      match s.dispatches[k]? with
      | some ⟨elem :: elems, targets, none⟩ =>
          if insIds.Perm (w.listWatching elem) then
            let insIds := if targets = [] then insIds else insIds.filter (· ∈ targets)
            some { s with dispatches := s.dispatches.set k ⟨elems, targets, some (elem, insIds)⟩ }
          else none
      | _ => none
  | .notify k =>
      match s.dispatches[k]? with
      | some ⟨elems, targets, some (elem, insId :: insIds)⟩ =>
          some { push w s insId elem with
            dispatches := s.dispatches.set k ⟨elems, targets, some (elem, insIds)⟩ }
      | some ⟨elems, targets, some (_, [])⟩ =>
          some { s with dispatches := s.dispatches.set k ⟨elems, targets, none⟩ }
      | _ => none

def Finished (s : Delivery) : Prop :=
  s.rest = [] ∧ s.sending = [] ∧ ∀ d ∈ s.dispatches, d.elems = [] ∧ d.notifying = none

/-- What the stream of the instance sends: it drops what was not asked for. -/
def handed (w : Watchers) (s : Delivery) (ins : String) : List Posted :=
  (s.chans ins).filter (w.asked ins)

/-! ## What is still to be handed out -/

def admits (targets : List String) (ins : String) : Bool := targets = [] || ins ∈ targets

/-- The part of a request that is for the instance. -/
def share (w : Watchers) (ins : String) (elems : List Posted) (targets : List String) :
    List Posted :=
  elems.filter fun elem => w.asked ins elem && admits targets ins

/-- What a goroutine has still to hand to the instance. -/
def togo (w : Watchers) (ins : String) (d : Dispatching) : List Posted :=
  (match d.notifying with
    | some (elem, insIds) => if ins ∈ insIds ∧ w.asked ins elem = true then [elem] else []
    | none => []) ++ share w ins d.elems d.targets

def shareOf (w : Watchers) (ins : String) (req : DispatchReq) : List Posted :=
  share w ins req.Elems req.InstanceIds

/-- Each request of a batch, sent or not, and each goroutine has its part for the instance. -/
def shares (w : Watchers) (ins : String) (batches : List (List AgentDispatchItem)) :
    List (List Posted) :=
  batches.flatMap fun batch => (keysOf batch).map fun key => shareOf w ins (groupOf batch key)

def slots (w : Watchers) (ins : String) (s : Delivery) : List (List Posted) :=
  shares w ins s.rest ++ (s.sending.map (shareOf w ins) ++ s.dispatches.map (togo w ins))

/-- No instance is notified twice of an element, and all that are notified have a node. -/
def Inv (w : Watchers) (s : Delivery) : Prop :=
  ∀ d ∈ s.dispatches, ∀ elem insIds, d.notifying = some (elem, insIds) →
    insIds.Nodup ∧ ∀ insId ∈ insIds, w.pool.instances insId ≠ none

variable {w : Watchers} {s s' : Delivery} {act : Act} {ins : String}

theorem push_of_node {insId : String} (h : w.pool.instances insId ≠ none) (elem : Posted) :
    push w s insId elem =
      { s with chans := Function.update s.chans insId (s.chans insId ++ [elem]) } := by
  unfold push
  cases hnode : w.pool.instances insId with
  | none => exact absurd hnode h
  | some node => rfl

theorem handed_push {insId : String} {elem : Posted} {dispatches : List Dispatching} :
    handed w { s with
        chans := Function.update s.chans insId (s.chans insId ++ [elem]), dispatches } ins =
      handed w s ins ++ if ins = insId ∧ w.asked ins elem = true then [elem] else [] := by
  unfold handed
  dsimp only
  by_cases hins : ins = insId
  · subst hins
    rw [Function.update_self, List.filter_append]
    cases hasked : w.asked ins elem <;> simp [hasked]
  · rw [Function.update_of_ne hins]
    simp [hins]

/-- The share of an element that is listed. -/
theorem togo_listed {elem : Posted} {elems : List Posted} {targets insIds : List String}
    (hperm : insIds.Perm (w.listWatching elem)) :
    togo w ins ⟨elems, targets, some (elem, if targets = [] then insIds
      else insIds.filter (· ∈ targets))⟩ = togo w ins ⟨elem :: elems, targets, none⟩ := by
  have hlisted : (ins ∈ (if targets = [] then insIds else insIds.filter (· ∈ targets)) ∧
      w.asked ins elem = true) ↔ (w.asked ins elem && admits targets ins) = true := by
    rw [Bool.and_eq_true, and_comm]
    refine and_congr_right fun hasked => ?_
    have hmem : ins ∈ insIds := hperm.mem_iff.mpr (Watchers.mem_listWatching hasked)
    unfold admits
    split
    · next hall => simp [hmem, hall]
    · next hsome => simp [hmem, hsome]
  unfold togo share
  dsimp only
  rw [List.filter_cons]
  by_cases hfor : (w.asked ins elem && admits targets ins) = true
  · rw [if_pos (hlisted.mpr hfor), if_pos hfor]
    rfl
  · rw [if_neg fun h => hfor (hlisted.mp h), if_neg hfor]

theorem map_set_togo {k : Nat} {d d' : Dispatching} {out : List Posted}
    (hk : s.dispatches[k]? = some d) (htogo : togo w ins d = out ++ togo w ins d') :
    Pull (s.dispatches.map (togo w ins)) out ((s.dispatches.set k d').map (togo w ins)) := by
  rw [List.map_set]
  refine .set ?_
  rw [List.getElem?_map, hk, ← htogo]
  rfl

/-- A goroutine goes on to elements that keep the promise. -/
theorem Inv.set_dispatch (h : Inv w s) {k : Nat} {d : Dispatching}
    (hnew : ∀ elem insIds, d.notifying = some (elem, insIds) →
      insIds.Nodup ∧ ∀ insId ∈ insIds, w.pool.instances insId ≠ none) :
    Inv w { s with dispatches := s.dispatches.set k d } := by
  intro d' hd' elem insIds hnotifying
  rcases List.mem_or_eq_of_mem_set hd' with hd' | hd'
  · exact h d' hd' elem insIds hnotifying
  · subst hd'
    exact hnew elem insIds hnotifying

/-- Every step takes what it hands out from one of the parts. -/
theorem step_pull (hinv : Inv w s) (hstep : step w s act = some s') :
    Inv w s' ∧ ∀ ins, ∃ out, Pull (slots w ins s) out (slots w ins s') ∧
      handed w s' ins = handed w s ins ++ out := by
  cases act with
  | deliver =>
    unfold step at hstep
    dsimp only at hstep
    split at hstep
    · next batch rest hrest hsending =>
      cases hstep
      refine ⟨hinv, fun ins => ⟨[], .rearrange ?_, (List.append_nil _).symm⟩⟩
      unfold slots
      dsimp only
      rw [hrest, hsending, grouped_eq, shares, List.flatMap_cons, List.map_nil, List.nil_append,
        List.map_map, List.map_map, List.append_assoc]
      exact List.perm_append_comm_assoc _ _ _
    · cases hstep
  | send k =>
    obtain ⟨req, hreq, hs'⟩ := Option.map_eq_some_iff.mp hstep
    subst hs'
    refine ⟨fun d hd elem insIds hnotifying => ?_, fun ins => ⟨[], .rearrange ?_,
      (List.append_nil _).symm⟩⟩
    · rcases List.mem_append.mp hd with hd | hd
      · exact hinv d hd elem insIds hnotifying
      · rw [List.mem_singleton.mp hd] at hnotifying
        cases hnotifying
    · unfold slots
      dsimp only
      refine List.Perm.append_left _ ?_
      obtain ⟨hk, hget⟩ := List.getElem?_eq_some_iff.mp hreq
      have herase : s.sending.Perm (req :: s.sending.eraseIdx k) := by
        rw [← hget]
        exact (List.getElem_cons_eraseIdx_perm hk).symm
      have hnew : togo w ins ⟨req.Elems, req.InstanceIds, none⟩ = shareOf w ins req := rfl
      rw [List.map_append, List.map_singleton, hnew]
      refine ((herase.map _).append_right _).trans ?_
      rw [List.map_cons, List.cons_append, ← List.append_assoc]
      exact (List.perm_append_singleton _ _).symm
  | list k insIds =>
    unfold step at hstep
    dsimp only at hstep
    split at hstep
    · next elem elems targets hk =>
      split at hstep
      · next hperm =>
        cases hstep
        refine ⟨hinv.set_dispatch fun elem' insIds' hnotifying => ?_, fun ins => ⟨[], ?_,
          (List.append_nil _).symm⟩⟩
        · cases hnotifying
          have hnodup := hperm.nodup_iff.mpr (w.nodup_listWatching elem)
          split
          · exact ⟨hnodup, fun insId hid =>
              Watchers.instances_of_listed (hperm.mem_iff.mp hid)⟩
          · exact ⟨hnodup.filter _, fun insId hid =>
              Watchers.instances_of_listed (hperm.mem_iff.mp (List.mem_filter.mp hid).1)⟩
        · exact ((map_set_togo hk (togo_listed hperm).symm).append_left _).append_left _
      · cases hstep
    · cases hstep
  | notify k =>
    unfold step at hstep
    dsimp only at hstep
    split at hstep
    · next elems targets elem insId insIds hk =>
      obtain ⟨hnodup, hnode⟩ := hinv _ (List.mem_of_getElem? hk) elem _ rfl
      obtain ⟨hnot, hnodup'⟩ := List.nodup_cons.mp hnodup
      rw [push_of_node (hnode insId List.mem_cons_self)] at hstep
      cases hstep
      refine ⟨Inv.set_dispatch (s := { s with chans := _ }) hinv fun elem' insIds' hnotifying => ?_,
        fun ins => ⟨_, ?_, handed_push⟩⟩
      · cases hnotifying
        exact ⟨hnodup', fun i hi => hnode i (List.mem_cons_of_mem _ hi)⟩
      · refine ((map_set_togo hk ?_).append_left _).append_left _
        unfold togo
        dsimp only
        by_cases hins : ins = insId
        · subst hins
          cases hasked : w.asked ins elem <;> simp [hnot]
        · simp [hins]
    · next elems targets elem hk =>
      cases hstep
      refine ⟨hinv.set_dispatch fun elem' insIds' hnotifying => ?_, fun ins => ⟨[], ?_,
        (List.append_nil _).symm⟩⟩
      · cases hnotifying
      · refine ((map_set_togo hk ?_).append_left _).append_left _
        simp [togo]
    · cases hstep

/-! ## Runs -/

/-- What a run hands out comes from the parts, and in their order where one of them is alone. -/
theorem run_pull {acts : List Act} (hinv : Inv w s) (hrun : run (step w) s acts = some s') :
    Inv w s' ∧ ∀ ins,
      (handed w s ins ++ (slots w ins s).flatten).Perm
        (handed w s' ins ++ (slots w ins s').flatten) ∧
      handed w s ins <+: handed w s' ins ∧
      (Lone (slots w ins s) → Lone (slots w ins s') ∧
        handed w s ins ++ (slots w ins s).flatten =
          handed w s' ins ++ (slots w ins s').flatten) := by
  induction acts generalizing s with
  | nil =>
    cases hrun
    exact ⟨hinv, fun ins => ⟨.refl _, List.prefix_rfl, fun h => ⟨h, rfl⟩⟩⟩
  | cons act acts ih =>
    obtain ⟨s₁, hstep, hrest⟩ := Option.bind_eq_some_iff.mp hrun
    obtain ⟨hinv₁, hpull⟩ := step_pull hinv hstep
    obtain ⟨hinv', hall⟩ := ih hinv₁ hrest
    refine ⟨hinv', fun ins => ?_⟩
    obtain ⟨out, hout, hhanded⟩ := hpull ins
    obtain ⟨hperm, hprefix, hlone⟩ := hall ins
    rw [hhanded, List.append_assoc] at hperm hlone
    refine ⟨(hout.perm.append_left _).trans hperm, ?_, fun h => ?_⟩
    · exact (hhanded ▸ List.prefix_append _ _).trans hprefix
    · obtain ⟨hlone₁, hflatten⟩ := h.pull hout
      rw [hflatten]
      exact hlone hlone₁

def started (batches : List (List AgentDispatchItem)) : Delivery := { rest := batches }

theorem slots_started (batches : List (List AgentDispatchItem)) :
    slots w ins (started batches) = shares w ins batches := by
  unfold slots started
  simp

theorem slots_finished (h : s.Finished) : (slots w ins s).flatten = [] := by
  obtain ⟨hrest, hsending, hdone⟩ := h
  unfold slots
  rw [hrest, hsending]
  refine List.flatten_eq_nil_iff.mpr fun l hl => ?_
  simp only [shares, List.flatMap_nil, List.map_nil, List.nil_append] at hl
  obtain ⟨d, hd, rfl⟩ := List.mem_map.mp hl
  obtain ⟨helems, hnotifying⟩ := hdone d hd
  unfold togo share
  rw [helems, hnotifying]
  rfl

/-- What a whole run has handed out. -/
theorem run_finished {acts : List Act} {batches : List (List AgentDispatchItem)}
    (hrun : run (step w) (started batches) acts = some s) (hfinished : s.Finished) :
    (shares w ins batches).flatten.Perm (handed w s ins) ∧
      (Lone (shares w ins batches) → (shares w ins batches).flatten = handed w s ins) := by
  have hnone : handed w (started batches) ins = [] := rfl
  obtain ⟨hperm, -, hlone⟩ := (run_pull (fun d hd => absurd hd List.not_mem_nil) hrun).2 ins
  rw [hnone, slots_started, slots_finished hfinished, List.append_nil, List.nil_append] at hperm
  rw [hnone, slots_started, slots_finished hfinished, List.append_nil, List.nil_append] at hlone
  exact ⟨hperm, fun h => (hlone h).2⟩

/-! ## A run for every order of the goroutines -/

/-- Only the goroutine at the place has moved. -/
structure Moves (w : Watchers) (s : Delivery) (k : Nat) (d : Dispatching) (s' : Delivery) :
    Prop where
  run : ∃ acts, run (step w) s acts = some s'
  rest : s'.rest = s.rest
  sending : s'.sending = s.sending
  dispatches : s'.dispatches = s.dispatches.set k d

theorem Moves.trans {s₁ : Delivery} {k : Nat} {d d' : Dispatching} (h : Moves w s k d s₁)
    (h' : Moves w s₁ k d' s') : Moves w s k d' s' := by
  obtain ⟨acts, hacts⟩ := h.run
  obtain ⟨more, hmore⟩ := h'.run
  refine ⟨⟨acts ++ more, ?_⟩, h'.rest.trans h.rest, h'.sending.trans h.sending, ?_⟩
  · rw [run_append hacts, hmore]
  · rw [h'.dispatches, h.dispatches, List.set_set]

theorem push_fields (w : Watchers) (s : Delivery) (insId : String) (elem : Posted) :
    (push w s insId elem).rest = s.rest ∧ (push w s insId elem).sending = s.sending := by
  unfold push
  split <;> exact ⟨rfl, rfl⟩

theorem getElem?_set_moved {k : Nat} {d d' : Dispatching} (hk : s.dispatches[k]? = some d) :
    (s.dispatches.set k d')[k]? = some d' :=
  List.getElem?_set_self (List.getElem?_eq_some_iff.mp hk).1

/-- A goroutine can notify all that are left. -/
theorem exists_notified {k : Nat} {elems : List Posted} {targets insIds : List String}
    {elem : Posted} (hk : s.dispatches[k]? = some ⟨elems, targets, some (elem, insIds)⟩) :
    ∃ s', Moves w s k ⟨elems, targets, none⟩ s' := by
  induction insIds generalizing s with
  | nil =>
    refine ⟨{ s with dispatches := s.dispatches.set k ⟨elems, targets, none⟩ },
      ⟨[.notify k], ?_⟩, rfl, rfl, rfl⟩
    simp only [run, step, hk, Option.bind_some]
  | cons insId insIds ih =>
    obtain ⟨hrest, hsending⟩ := push_fields w s insId elem
    have hmoved : Moves w s k ⟨elems, targets, some (elem, insIds)⟩
        { push w s insId elem with
          dispatches := s.dispatches.set k ⟨elems, targets, some (elem, insIds)⟩ } := by
      refine ⟨⟨[.notify k], ?_⟩, hrest, hsending, rfl⟩
      simp only [run, step, hk, Option.bind_some]
    obtain ⟨s', hs'⟩ := ih (s := { push w s insId elem with
      dispatches := s.dispatches.set k ⟨elems, targets, some (elem, insIds)⟩ })
      (getElem?_set_moved hk)
    exact ⟨s', hmoved.trans hs'⟩

/-- A goroutine can come to its end. -/
theorem exists_ended {k : Nat} {elems : List Posted} {targets : List String}
    (hk : s.dispatches[k]? = some ⟨elems, targets, none⟩) :
    ∃ s', Moves w s k ⟨[], targets, none⟩ s' := by
  induction elems generalizing s with
  | nil =>
    refine ⟨s, ⟨[], rfl⟩, rfl, rfl, ?_⟩
    obtain ⟨hlt, hget⟩ := List.getElem?_eq_some_iff.mp hk
    rw [← hget, List.set_getElem_self]
  | cons elem elems ih =>
    have hlisted : Moves w s k ⟨elems, targets, some (elem, if targets = []
        then w.listWatching elem else (w.listWatching elem).filter (· ∈ targets))⟩
        { s with dispatches := s.dispatches.set k ⟨elems, targets, some (elem, if targets = []
          then w.listWatching elem else (w.listWatching elem).filter (· ∈ targets))⟩ } := by
      refine ⟨⟨[.list k (w.listWatching elem)], ?_⟩, rfl, rfl, rfl⟩
      simp only [run, step, hk, Option.bind_some, if_pos (List.Perm.refl _)]
    obtain ⟨s₁, hs₁⟩ := exists_notified (w := w) (s := { s with dispatches := _ })
      (getElem?_set_moved hk)
    have hk₁ : s₁.dispatches[k]? = some ⟨elems, targets, none⟩ := by
      rw [hs₁.dispatches, List.set_set]
      exact getElem?_set_moved hk
    obtain ⟨s', hs'⟩ := ih hk₁
    exact ⟨s', (hlisted.trans hs₁).trans hs'⟩

/-- All the goroutines can come to their ends. -/
theorem exists_finished (hrest : s.rest = []) (hsending : s.sending = [])
    (hwaiting : ∀ d ∈ s.dispatches, d.notifying = none) :
    ∃ acts s', run (step w) s acts = some s' ∧ s'.Finished := by
  have hsome : ∀ n ≤ s.dispatches.length, ∃ acts s', run (step w) s acts = some s' ∧
      s'.rest = [] ∧ s'.sending = [] ∧ s'.dispatches.length = s.dispatches.length ∧
      (∀ d ∈ s'.dispatches, d.notifying = none) ∧
      ∀ k < n, ∀ d, s'.dispatches[k]? = some d → d.elems = [] := by
    intro n hn
    induction n with
    | zero => exact ⟨[], s, rfl, hrest, hsending, rfl, hwaiting, fun k hk => absurd hk (by omega)⟩
    | succ n ih =>
      obtain ⟨acts, s₁, hrun, hrest₁, hsending₁, hlength, hwaiting₁, hdone⟩ := ih (by omega)
      obtain ⟨d, hd⟩ : ∃ d, s₁.dispatches[n]? = some d :=
        ⟨_, List.getElem?_eq_getElem (by omega)⟩
      obtain ⟨elems, targets, notifying⟩ := d
      obtain rfl : notifying = none := hwaiting₁ _ (List.mem_of_getElem? hd)
      obtain ⟨s', hs'⟩ := exists_ended (w := w) hd
      obtain ⟨more, hmore⟩ := hs'.run
      refine ⟨acts ++ more, s', (run_append hrun more).trans hmore, hs'.rest.trans hrest₁,
        hs'.sending.trans hsending₁, ?_, fun d hd' => ?_, fun k hk d hd' => ?_⟩
      · rw [hs'.dispatches, List.length_set, hlength]
      · rw [hs'.dispatches] at hd'
        rcases List.mem_or_eq_of_mem_set hd' with hd' | rfl
        · exact hwaiting₁ d hd'
        · rfl
      · rw [hs'.dispatches] at hd'
        by_cases heq : k = n
        · subst heq
          rw [getElem?_set_moved hd] at hd'
          cases hd'
          rfl
        · rw [List.getElem?_set_ne (Ne.symm heq)] at hd'
          exact hdone k (by omega) d hd'
  obtain ⟨acts, s', hrun, hrest', hsending', hlength, hwaiting', hdone⟩ := hsome _ (Nat.le_refl _)
  refine ⟨acts, s', hrun, hrest', hsending', fun d hd => ⟨?_, hwaiting' d hd⟩⟩
  obtain ⟨k, hk⟩ := List.getElem?_of_mem hd
  exact hdone k (hlength ▸ (List.getElem?_eq_some_iff.mp hk).1) d hk

/-- The goroutine that a request is handled in. -/
def handling (req : DispatchReq) : Dispatching := ⟨req.Elems, req.InstanceIds, none⟩

theorem exists_sent (reqs : List DispatchReq) (hsending : s.sending = reqs) :
    ∃ acts s', run (step w) s acts = some s' ∧ s'.rest = s.rest ∧ s'.sending = [] ∧
      s'.dispatches = s.dispatches ++ reqs.map handling ∧ s'.chans = s.chans := by
  induction reqs generalizing s with
  | nil => exact ⟨[], s, rfl, rfl, hsending, (List.append_nil _).symm, rfl⟩
  | cons req reqs ih =>
    obtain ⟨acts, s', hrun, hrest, hnone, hdispatches, hchans⟩ := ih (s := { s with
      sending := reqs, dispatches := s.dispatches ++ [handling req] }) rfl
    refine ⟨.send 0 :: acts, s', ?_, hrest, hnone, ?_, hchans⟩
    · have hstep : step w s (.send 0) = some { s with
          sending := reqs, dispatches := s.dispatches ++ [handling req] } := by
        simp only [step, hsending, List.getElem?_cons_zero, Option.map_some, List.eraseIdx_zero,
          List.tail_cons]
        rfl
      rw [run_cons hstep, hrun]
    · rw [hdispatches, List.append_assoc]
      rfl

/-- All the requests can be sent before any goroutine has begun. -/
theorem exists_allSent (batches : List (List AgentDispatchItem)) (hrest : s.rest = batches)
    (hsending : s.sending = []) :
    ∃ acts s', run (step w) s acts = some s' ∧ s'.rest = [] ∧ s'.sending = [] ∧
      s'.dispatches = s.dispatches ++ batches.flatMap (fun batch =>
        (keysOf batch).map fun key => handling (groupOf batch key)) ∧ s'.chans = s.chans := by
  induction batches generalizing s with
  | nil => exact ⟨[], s, rfl, hrest, hsending, (List.append_nil _).symm, rfl⟩
  | cons batch batches ih =>
    obtain ⟨acts, s₁, hrun, hrest₁, hsending₁, hdispatches₁, hchans₁⟩ := exists_sent (w := w)
      (s := { s with rest := batches, sending := (grouped batch).map (·.2) }) _ rfl
    obtain ⟨more, s', hmore, hrest', hsending', hdispatches, hchans⟩ := ih hrest₁ hsending₁
    refine ⟨.deliver :: (acts ++ more), s', ?_, hrest', hsending', ?_, hchans.trans hchans₁⟩
    · have hstep : step w s .deliver =
          some { s with rest := batches, sending := (grouped batch).map (·.2) } := by
        simp only [step, hrest, hsending]
      rw [run_cons hstep, run_append hrun, hmore]
    · rw [hdispatches, hdispatches₁, grouped_eq, List.map_map, List.map_map, List.flatMap_cons,
        List.append_assoc]
      rfl

/-! ## What is due -/

/-- The element is for the instance. -/
def IsDue (w : Watchers) (ins : String) (item : AgentDispatchItem) : Prop :=
  w.asked ins item.elem = true ∧ admits item.instanceIds ins = true

instance (w : Watchers) (ins : String) (item : AgentDispatchItem) : Decidable (IsDue w ins item) :=
  inferInstanceAs (Decidable (_ ∧ _))

/-- The elements for the instance, in the order in which they were enqueued. -/
def due (w : Watchers) (ins : String) (items : List AgentDispatchItem) : List Posted :=
  (items.filter (IsDue w ins ·)).map (·.elem)

/-- The places are those of the elements in the order in which they were enqueued. -/
def Enqueued (batches : List (List AgentDispatchItem)) : Prop :=
  batches.flatten.Pairwise fun item item' => item.elem.seq < item'.elem.seq

/-- All that is due to the instance lies in one request, and each request with an element that it
asked for is for the instance where the element is. -/
structure Separate (w : Watchers) (ins : String) (batches : List (List AgentDispatchItem)) :
    Prop where
  targets : ∀ batch ∈ batches, ∀ item ∈ batch, w.asked ins item.elem = true →
    admits (targetsOf batch item.key) ins = admits item.instanceIds ins
  group : ∀ batch ∈ batches, ∀ item ∈ batch, ∀ item' ∈ batch, IsDue w ins item →
    IsDue w ins item' → item.key = item'.key
  batch : batches.Pairwise fun batch batch' =>
    (∀ item ∈ batch, ¬ IsDue w ins item) ∨ ∀ item ∈ batch', ¬ IsDue w ins item

variable {batches : List (List AgentDispatchItem)} {batch : List AgentDispatchItem} {key : String}

theorem shareOf_eq (htargets : ∀ item ∈ batch, w.asked ins item.elem = true →
    admits (targetsOf batch item.key) ins = admits item.instanceIds ins) (key : String) :
    shareOf w ins (groupOf batch key) =
      (batch.filter fun item => item.key = key ∧ IsDue w ins item).map (·.elem) := by
  unfold shareOf share groupOf
  dsimp only
  rw [List.filter_map, List.filter_filter]
  refine congrArg _ (List.filter_congr fun item hitem => ?_)
  by_cases hkey : item.key = key
  · subst hkey
    cases hasked : w.asked ins item.elem with
    | false => simp [IsDue, hasked]
    | true => simp [IsDue, hasked, htargets item hitem hasked]
  · simp [hkey]

/-- The parts that are not empty belong to what is due. -/
theorem shareOf_ne_nil (htargets : ∀ item ∈ batch, w.asked ins item.elem = true →
    admits (targetsOf batch item.key) ins = admits item.instanceIds ins) :
    shareOf w ins (groupOf batch key) ≠ [] ↔ ∃ item ∈ batch, item.key = key ∧ IsDue w ins item := by
  rw [shareOf_eq htargets, Ne, List.map_eq_nil_iff, List.filter_eq_nil_iff]
  simp

/-- The parts of the requests of one batch. -/
theorem lone_batch_iff (htargets : ∀ item ∈ batch, w.asked ins item.elem = true →
    admits (targetsOf batch item.key) ins = admits item.instanceIds ins) :
    Lone ((keysOf batch).map fun key => shareOf w ins (groupOf batch key)) ↔
      ∀ item ∈ batch, ∀ item' ∈ batch, IsDue w ins item → IsDue w ins item' →
        item.key = item'.key := by
  rw [lone_map_iff (nodup_keysOf batch)]
  constructor
  · intro h item hitem item' hitem' hdue hdue'
    exact h _ (mem_keysOf.mpr ⟨item, hitem, rfl⟩) _ (mem_keysOf.mpr ⟨item', hitem', rfl⟩)
      ((shareOf_ne_nil htargets).mpr ⟨item, hitem, rfl, hdue⟩)
      ((shareOf_ne_nil htargets).mpr ⟨item', hitem', rfl, hdue'⟩)
  · intro h key _ key' _ hne hne'
    obtain ⟨item, hitem, rfl, hdue⟩ := (shareOf_ne_nil htargets).mp hne
    obtain ⟨item', hitem', rfl, hdue'⟩ := (shareOf_ne_nil htargets).mp hne'
    exact h item hitem item' hitem' hdue hdue'

theorem shares_batch_nil_iff (htargets : ∀ item ∈ batch, w.asked ins item.elem = true →
    admits (targetsOf batch item.key) ins = admits item.instanceIds ins) :
    (∀ l ∈ (keysOf batch).map fun key => shareOf w ins (groupOf batch key), l = []) ↔
      ∀ item ∈ batch, ¬ IsDue w ins item := by
  constructor
  · intro h item hitem hdue
    have hkey := mem_keysOf.mpr ⟨item, hitem, rfl⟩
    exact (shareOf_ne_nil htargets).mpr ⟨item, hitem, rfl, hdue⟩
      (h _ (List.mem_map_of_mem hkey))
  · intro h l hl
    obtain ⟨key, -, rfl⟩ := List.mem_map.mp hl
    by_contra hne
    obtain ⟨item, hitem, -, hdue⟩ := (shareOf_ne_nil htargets).mp hne
    exact h item hitem hdue

theorem lone_shares_iff (htargets : ∀ batch ∈ batches, ∀ item ∈ batch,
    w.asked ins item.elem = true →
      admits (targetsOf batch item.key) ins = admits item.instanceIds ins) :
    Lone (shares w ins batches) ↔
      (∀ batch ∈ batches, ∀ item ∈ batch, ∀ item' ∈ batch, IsDue w ins item →
        IsDue w ins item' → item.key = item'.key) ∧
      batches.Pairwise fun batch batch' =>
        (∀ item ∈ batch, ¬ IsDue w ins item) ∨ ∀ item ∈ batch', ¬ IsDue w ins item := by
  unfold Lone shares
  rw [List.pairwise_flatMap]
  refine and_congr ?_ ?_
  · exact forall₂_congr fun batch hbatch => lone_batch_iff (htargets batch hbatch)
  · refine List.Pairwise.iff_of_mem fun {batch batch'} hbatch hbatch' => ?_
    rw [← shares_batch_nil_iff (htargets batch hbatch),
      ← shares_batch_nil_iff (htargets batch' hbatch')]
    constructor
    · intro h
      by_contra hboth
      obtain ⟨hleft, hright⟩ := not_or.mp hboth
      push Not at hleft hright
      obtain ⟨l, hl, hne⟩ := hleft
      obtain ⟨l', hl', hne'⟩ := hright
      exact (h l hl l' hl').elim hne hne'
    · rintro (h | h) l hl l' hl'
      · exact .inl (h l hl)
      · exact .inr (h l' hl')

theorem flatten_batch (htargets : ∀ item ∈ batch, w.asked ins item.elem = true →
      admits (targetsOf batch item.key) ins = admits item.instanceIds ins)
    (hgroup : ∀ item ∈ batch, ∀ item' ∈ batch, IsDue w ins item → IsDue w ins item' →
      item.key = item'.key) :
    ((keysOf batch).map fun key => shareOf w ins (groupOf batch key)).flatten =
      due w ins batch := by
  by_cases hnone : ∀ item ∈ batch, ¬ IsDue w ins item
  · have hdue : batch.filter (IsDue w ins ·) = [] :=
      List.filter_eq_nil_iff.mpr fun item hitem => by simpa using hnone item hitem
    rw [due, hdue]
    exact List.flatten_eq_nil_iff.mpr ((shares_batch_nil_iff htargets).mpr hnone)
  · push Not at hnone
    obtain ⟨item, hitem, hdue⟩ := hnone
    have hkey : item.key ∈ keysOf batch := mem_keysOf.mpr ⟨item, hitem, rfl⟩
    have hne := (shareOf_ne_nil htargets).mpr ⟨item, hitem, rfl, hdue⟩
    rw [((lone_batch_iff htargets).mpr hgroup).flatten_of_mem (List.mem_map_of_mem hkey) hne,
      shareOf_eq htargets, due]
    refine congrArg _ (List.filter_congr fun item' hitem' => ?_)
    refine decide_eq_decide.mpr (and_iff_right_of_imp fun hdue' => ?_)
    exact hgroup item' hitem' item hitem hdue' hdue

/-- Where all is separate, the parts are what is due. -/
theorem flatten_shares (htargets : ∀ batch ∈ batches, ∀ item ∈ batch,
      w.asked ins item.elem = true →
        admits (targetsOf batch item.key) ins = admits item.instanceIds ins)
    (hgroup : ∀ batch ∈ batches, ∀ item ∈ batch, ∀ item' ∈ batch, IsDue w ins item →
      IsDue w ins item' → item.key = item'.key) :
    (shares w ins batches).flatten = due w ins batches.flatten := by
  induction batches with
  | nil => rfl
  | cons batch batches ih =>
    have hrest := ih (fun b hb => htargets b (List.mem_cons_of_mem _ hb))
      fun b hb => hgroup b (List.mem_cons_of_mem _ hb)
    have hfirst := flatten_batch (htargets batch List.mem_cons_self)
      (hgroup batch List.mem_cons_self)
    have hshares : shares w ins (batch :: batches) =
        ((keysOf batch).map fun key => shareOf w ins (groupOf batch key)) ++
          shares w ins batches := rfl
    rw [hshares, List.flatten_append, hfirst, hrest, List.flatten_cons, due, due, due,
      List.filter_append, List.map_append]

/-! ## Every run -/

/-- Every run hands the instances what is due to them. -/
def Delivers (w : Watchers) (ins : String) (batches : List (List AgentDispatchItem)) : Prop :=
  ∀ acts s, run (step w) (started batches) acts = some s → s.Finished →
    handed w s ins = due w ins batches.flatten

theorem delivers_of_separate (h : Separate w ins batches) : Delivers w ins batches := by
  intro acts s hrun hfinished
  have hlone := (lone_shares_iff h.targets).mpr ⟨h.group, h.batch⟩
  rw [← (run_finished hrun hfinished).2 hlone]
  exact flatten_shares h.targets h.group

theorem nodup_of_enqueued (h : Enqueued batches) : (batches.flatten.map (·.elem)).Nodup := by
  rw [List.Nodup, List.pairwise_map]
  exact h.imp fun hlt heq => absurd (congrArg Posted.seq heq) (Nat.ne_of_lt hlt)

theorem nodup_due (h : Enqueued batches) : (due w ins batches.flatten).Nodup :=
  (nodup_of_enqueued h).sublist (List.filter_sublist.map _)

theorem mem_flatten_shares {elem : Posted} : elem ∈ (shares w ins batches).flatten ↔
    ∃ batch ∈ batches, ∃ item ∈ batch, item.elem = elem ∧ w.asked ins elem = true ∧
      admits (targetsOf batch item.key) ins = true := by
  unfold shares shareOf share groupOf
  simp only [List.mem_flatten, List.mem_flatMap, List.mem_map]
  constructor
  · rintro ⟨l, ⟨batch, hbatch, key, -, rfl⟩, helem⟩
    rw [List.mem_filter, Bool.and_eq_true, List.mem_map] at helem
    obtain ⟨⟨item, hfound, heq⟩, hasked, hadmits⟩ := helem
    obtain ⟨hitem, hkey⟩ := List.mem_filter.mp hfound
    obtain rfl : item.key = key := of_decide_eq_true hkey
    exact ⟨batch, hbatch, item, hitem, heq, hasked, hadmits⟩
  · rintro ⟨batch, hbatch, item, hitem, rfl, hasked, hadmits⟩
    refine ⟨_, ⟨batch, hbatch, item.key, mem_keysOf.mpr ⟨item, hitem, rfl⟩, rfl⟩, ?_⟩
    rw [List.mem_filter, Bool.and_eq_true]
    refine ⟨List.mem_map_of_mem (List.mem_filter.mpr ⟨hitem, ?_⟩), hasked, hadmits⟩
    exact decide_eq_true rfl

/-- All the requests sent, and no goroutine begun. -/
theorem exists_waiting (w : Watchers) (batches : List (List AgentDispatchItem)) :
    ∃ acts s, run (step w) (started batches) acts = some s ∧ Inv w s ∧ s.rest = [] ∧
      s.sending = [] ∧ s.chans = (fun _ => []) ∧ s.dispatches = batches.flatMap fun batch =>
        (keysOf batch).map fun key => handling (groupOf batch key) := by
  obtain ⟨acts, s, hrun, hrest, hsending, hdispatches, hchans⟩ :=
    exists_allSent (w := w) (s := started batches) batches rfl rfl
  exact ⟨acts, s, hrun, (run_pull (fun d hd => absurd hd List.not_mem_nil) hrun).1, hrest,
    hsending, hchans, hdispatches⟩

/-- Each part can be handed out before all the others. -/
theorem exists_first {l : List Posted} (hl : l ∈ shares w ins batches) :
    ∃ acts s, run (step w) (started batches) acts = some s ∧ s.Finished ∧
      ∃ first, first.Perm l ∧ first <+: handed w s ins := by
  obtain ⟨acts, s₁, hrun, hinv, hrest, hsending, hchans, hdispatches⟩ := exists_waiting w batches
  obtain ⟨batch, hbatch, hkeys⟩ := List.mem_flatMap.mp hl
  obtain ⟨key, hkey, rfl⟩ := List.mem_map.mp hkeys
  have hmem : handling (groupOf batch key) ∈ s₁.dispatches :=
    hdispatches ▸ List.mem_flatMap.mpr ⟨batch, hbatch, List.mem_map_of_mem hkey⟩
  obtain ⟨k, hk⟩ := List.getElem?_of_mem hmem
  obtain ⟨s₂, hs₂⟩ := exists_ended (w := w) hk
  obtain ⟨alone, halone⟩ := hs₂.run
  have hwaiting : ∀ d ∈ s₂.dispatches, d.notifying = none := by
    intro d hd
    rw [hs₂.dispatches] at hd
    rcases List.mem_or_eq_of_mem_set hd with hd | rfl
    · rw [hdispatches] at hd
      obtain ⟨batch', -, hkeys⟩ := List.mem_flatMap.mp hd
      obtain ⟨key', -, rfl⟩ := List.mem_map.mp hkeys
      rfl
    · rfl
  obtain ⟨more, s, hmore, hfinished⟩ :=
    exists_finished (w := w) (hs₂.rest.trans hrest) (hs₂.sending.trans hsending) hwaiting
  refine ⟨acts ++ (alone ++ more), s, ?_, hfinished, handed w s₂ ins, ?_, ?_⟩
  · rw [run_append hrun, run_append halone, hmore]
  · -- what this goroutine has left is what the others have
    have hperm := ((run_pull hinv halone).2 ins).1
    have hnone : handed w s₁ ins = [] := by
      unfold handed
      rw [hchans]
      rfl
    have hslots : ∀ s : Delivery, s.rest = [] → s.sending = [] →
        slots w ins s = s.dispatches.map (togo w ins) := by
      intro s hrest hsending
      unfold slots shares
      rw [hrest, hsending]
      rfl
    rw [hnone, hslots s₁ hrest hsending, hslots s₂ (hs₂.rest.trans hrest)
      (hs₂.sending.trans hsending), hs₂.dispatches, List.nil_append] at hperm
    have htook : Pull (s₁.dispatches.map (togo w ins)) (shareOf w ins (groupOf batch key))
        ((s₁.dispatches.set k ⟨[], (groupOf batch key).InstanceIds, none⟩).map (togo w ins)) :=
      map_set_togo hk (List.append_nil _).symm
    exact (List.perm_append_right_iff _).mp (hperm.symm.trans htook.perm)
  · exact ((run_pull (run_pull hinv halone).1 hmore).2 ins).2.1

theorem separate_of_delivers (henqueued : Enqueued batches) (h : Delivers w ins batches) :
    Separate w ins batches := by
  have hperm : (shares w ins batches).flatten.Perm (due w ins batches.flatten) := by
    obtain ⟨acts, s₁, hrun, -, hrest, hsending, -, hdispatches⟩ := exists_waiting w batches
    have hwaiting : ∀ d ∈ s₁.dispatches, d.notifying = none := by
      intro d hd
      rw [hdispatches] at hd
      obtain ⟨batch', -, hkeys⟩ := List.mem_flatMap.mp hd
      obtain ⟨key', -, rfl⟩ := List.mem_map.mp hkeys
      rfl
    obtain ⟨more, s, hmore, hfinished⟩ := exists_finished (w := w) hrest hsending hwaiting
    have hwhole := (run_append hrun more).trans hmore
    exact h _ s hwhole hfinished ▸ (run_finished hwhole hfinished).1
  have hinj := nodup_of_enqueued henqueued
  have hitems : batches.flatten.Nodup := hinj.of_map _
  have hsame : ∀ item ∈ batches.flatten, ∀ item' ∈ batches.flatten,
      item.elem = item'.elem → item = item' :=
    fun item hitem item' hitem' heq => List.inj_on_of_nodup_map hinj hitem hitem' heq
  have hlone : Lone (shares w ins batches) := by
    have hfirst : ∀ l ∈ shares w ins batches,
        ∃ first, first.Perm l ∧ first <+: due w ins batches.flatten := by
      intro l hl
      obtain ⟨acts, s, hrun, hfinished, first, hfirst, hprefix⟩ := exists_first hl
      exact ⟨first, hfirst, h acts s hrun hfinished ▸ hprefix⟩
    exact lone_of_first (hperm.nodup_iff.mpr (nodup_due henqueued)) hfirst
  have htargets : ∀ batch ∈ batches, ∀ item ∈ batch, w.asked ins item.elem = true →
      admits (targetsOf batch item.key) ins = admits item.instanceIds ins := by
    intro batch hbatch item hitem hasked
    have hin : item ∈ batches.flatten := List.mem_flatten_of_mem hbatch hitem
    refine Bool.eq_iff_iff.mpr ⟨fun hadmits => ?_, fun hadmits => ?_⟩
    · have hmem := hperm.mem_iff.mp
        (mem_flatten_shares.mpr ⟨batch, hbatch, item, hitem, rfl, hasked, hadmits⟩)
      obtain ⟨item', hitem', heq⟩ := List.mem_map.mp hmem
      obtain ⟨hin', hdue⟩ := List.mem_filter.mp hitem'
      obtain rfl := hsame item' hin' item hin heq
      exact (of_decide_eq_true hdue).2
    · have hdue : item.elem ∈ due w ins batches.flatten := List.mem_map_of_mem
        (List.mem_filter.mpr ⟨hin, decide_eq_true ⟨hasked, hadmits⟩⟩)
      obtain ⟨batch', hbatch', item', hitem', heq, -, hadmits'⟩ :=
        mem_flatten_shares.mp (hperm.mem_iff.mpr hdue)
      obtain rfl := hsame item' (List.mem_flatten_of_mem hbatch' hitem') item hin heq
      obtain rfl := eq_of_mem_flatten hitems hbatch' hbatch hitem' hitem
      exact hadmits'
  obtain ⟨hgroup, hbatch⟩ := (lone_shares_iff htargets).mp hlone
  exact ⟨htargets, hgroup, hbatch⟩

/-- Whatever was enqueued, and however it was cut into batches: every run hands the instance what
is due to it exactly when all that is due lies in one request, and no request mixes elements that
are for the instance with others. -/
theorem delivers_iff (w : Watchers) (ins : String) (batches : List (List AgentDispatchItem))
    (henqueued : Enqueued batches) : Delivers w ins batches ↔ Separate w ins batches :=
  ⟨separate_of_delivers henqueued, delivers_of_separate⟩

/-- Two instances that watch one key. -/
def twoWatchers : Watchers where
  reqs := [⟨[⟨"shop", "prod", ["db"]⟩], "other", "10.0.0.1"⟩,
    ⟨[⟨"shop", "prod", ["db"]⟩], "n,other", "10.0.0.1"⟩]
  nodup := by decide

def postedDb (seq version : Nat) : Posted :=
  ⟨seq, ⟨[UInt8.ofNat version], version, true, some ⟨"db", "shop", "prod", version, 0, version, "", 1⟩⟩⟩

/-- Two versions for all instances, in one batch. -/
theorem delivers_iff_oneBatch :
    Delivers twoWatchers "other@10.0.0.1" [[⟨postedDb 0 1, []⟩, ⟨postedDb 1 2, []⟩]] := by
  refine (delivers_iff twoWatchers _ _ ?_).mpr ⟨?_, ?_, ?_⟩
  · unfold Enqueued
    decide
  · decide
  · decide
  · decide

/-- Two versions in two batches can arrive the other way round. And a text that two lists of
targets are joined into leaves the second without its element. -/
theorem versions_overtake :
    ¬ Delivers twoWatchers "other@10.0.0.1" [[⟨postedDb 0 1, []⟩], [⟨postedDb 1 2, []⟩]] ∧
      ¬ Delivers twoWatchers "n,other@10.0.0.1"
        [[⟨postedDb 0 1, ["n", "other@10.0.0.1"]⟩, ⟨postedDb 1 2, ["n,other@10.0.0.1"]⟩]] := by
  constructor
  · intro h
    have hhanded := h [.deliver, .send 0, .deliver, .send 0,
      .list 1 ["other@10.0.0.1", "n,other@10.0.0.1"], .notify 1, .notify 1, .notify 1,
      .list 0 ["other@10.0.0.1", "n,other@10.0.0.1"], .notify 0, .notify 0, .notify 0] _ rfl
      ⟨rfl, rfl, by decide⟩
    exact absurd hhanded (by decide)
  · intro h
    have hhanded := h [.deliver, .send 0,
      .list 0 ["other@10.0.0.1", "n,other@10.0.0.1"], .notify 0, .notify 0,
      .list 0 ["other@10.0.0.1", "n,other@10.0.0.1"], .notify 0, .notify 0] _ rfl
      ⟨rfl, rfl, by decide⟩
    exact absurd hhanded (by decide)

end Delivery

end Cassem.Adm
