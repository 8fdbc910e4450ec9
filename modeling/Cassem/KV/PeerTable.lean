import Cassem.KV.Membership

/-!
# The table of peers under concurrent calls

`addPeer` enters the address before its change is proposed and takes it out again when that fails;
`removePeer` clears the slot once its change is proposed. The table is locked for each of these
steps, not for a call. A failed call that takes its address out does not see that another one may
have counted on it.
-/

namespace Cassem.KV

open Lib Cassem.Concept

/-! ## Calls -/

/-- Where a call stands; `refused` is the error that its change meets. -/
inductive PeerCall where
  | addPeer (peer : String) (refused : Option GoError)
  | proposedAdd (peer : String) (refused : Option GoError) (nodeID : Nat) (tried : List String)
      (newlyAdded : Bool)
  | rollingBack (peer : String) (nodeID : Nat) (tried : List String) (err : GoError)
  | addReturned (peer : String) (nodeID : Nat) (tried : List String) (err : Option GoError)
  | removePeer (nodeID : Nat) (refused : Option GoError)
  | proposedRemove (nodeID : Nat) (refused : Option GoError) (nodeAddr : String)
  | clearing (nodeID : Nat) (nodeAddr : String)
  | removeReturned (nodeID : Nat) (err : Option Fault)

namespace PeerCall

def addError (err : GoError) : GoError :=
  .errorf "raftNode failed to add peer: " (.errorf "raftNode failed to changeConf: " err)

def removeError (err : GoError) : GoError :=
  .errorf "raftNode failed to remove peer: " (.errorf "raftNode failed to changeConf: " err)

/-- The next step of the call, and the table that it leaves. -/
def next (peers : List String) : PeerCall → Option (List String × PeerCall)
  | addPeer peer refused =>
      let (nodeID, tried, newlyAdded) := tryAdd peers peer
      some (tried, proposedAdd peer refused nodeID tried newlyAdded)
  | proposedAdd peer none nodeID tried _ => some (peers, addReturned peer nodeID tried none)
  | proposedAdd peer (some err) nodeID tried newlyAdded =>
      if newlyAdded then some (peers, rollingBack peer nodeID tried err)
      else some (peers, addReturned peer nodeID tried (some (addError err)))
  | rollingBack peer nodeID tried err =>
      some (rollback peers nodeID peer, addReturned peer nodeID tried (some (addError err)))
  | removePeer nodeID refused =>
      if nodeID = 0 then
        some (peers, removeReturned nodeID (some (.error (.text "invalid nodeID"))))
      else if 2 ^ 63 ≤ nodeID - 1 then
        some (peers, removeReturned nodeID (some (.panic "index out of range")))
      else
        match peers[nodeID - 1]? with
        | none => some (peers, removeReturned nodeID (some (.error (.text "invalid nodeID"))))
        | some nodeAddr => some (peers, proposedRemove nodeID refused nodeAddr)
  | proposedRemove nodeID none nodeAddr => some (peers, clearing nodeID nodeAddr)
  | proposedRemove nodeID (some err) _ =>
      some (peers, removeReturned nodeID (some (.error (removeError err))))
  | clearing nodeID nodeAddr =>
      -- the check is that of a rollback
      some (rollback peers nodeID nodeAddr, removeReturned nodeID none)
  | addReturned _ _ _ _ | removeReturned _ _ => none

/-- The step is made under the lock of the table. -/
def locks : PeerCall → Bool
  | addPeer _ _ | rollingBack _ _ _ _ | removePeer _ _ | clearing _ _ => true
  | _ => false

/-- The call has panicked between the lock and the unlock. -/
def crashed : PeerCall → Bool
  | removeReturned _ (some (.panic _)) => true
  | _ => false

/-- What a call begins with: `addNode` has refused an empty address. -/
def asked : PeerCall → Bool
  | addPeer peer _ => peer ≠ ""
  | removePeer _ _ => true
  | _ => false

/-- An add of the empty address that has not begun. -/
def blank : PeerCall → Bool
  | addPeer peer _ => peer = ""
  | _ => false

def returned : PeerCall → Bool
  | addReturned _ _ _ _ | removeReturned _ _ => true
  | _ => false

/-- The address and the id of an add that has entered it, and whose change does not fail. -/
def settles : PeerCall → Option (String × Nat)
  | proposedAdd peer none nodeID _ _ | addReturned peer nodeID _ none => some (peer, nodeID)
  | _ => none

end PeerCall

/-- The table, the calls, and those adds whose address no removal has taken out since. -/
structure PeerTable where
  peers : List String
  calls : List PeerCall := []
  standing : List Nat := []

/-- A new call, or the next step of one. -/
inductive PeerStep where
  | begin (c : PeerCall)
  | next (i : Nat)

namespace PeerTable

def settled (s : PeerTable) (i : Nat) : Option (String × Nat) := s.calls[i]?.bind PeerCall.settles

/-- The adds that are left standing by a step of the call. -/
def stands (s : PeerTable) (i : Nat) : PeerCall → List Nat
  | .addPeer _ _ => s.standing ++ [i]
  | .clearing nodeID nodeAddr =>
      if s.peers[nodeID - 1]? = some nodeAddr then
        s.standing.filter fun j => s.settled j ≠ some (nodeAddr, nodeID)
      else s.standing
  | _ => s.standing

def step (s : PeerTable) : PeerStep → Option PeerTable
  | .begin c => if c.asked then some { s with calls := s.calls ++ [c] } else none
  | .next i =>
      match s.calls[i]? with
      | none => none
      | some c =>
          if c.locks && s.calls.any PeerCall.crashed then none
          else
            (c.next s.peers).map fun (peers, c') =>
              ⟨peers, s.calls.set i c', s.stands i c⟩

end PeerTable

/-! ## Entries -/

/-- The address is in the table under the id. -/
def PeerEntry (peers : List String) (id : Nat) (addr : String) : Prop :=
  addr ≠ "" ∧ id ≠ 0 ∧ peers[id - 1]? = some addr

theorem mem_of_entry {peers : List String} {id : Nat} {addr : String}
    (h : PeerEntry peers id addr) : addr ∈ peers := List.mem_of_getElem? h.2.2

theorem entry_rollback {peers : List String} {nodeID id : Nat} {peer addr : String} :
    PeerEntry (rollback peers nodeID peer) id addr ↔
      PeerEntry peers id addr ∧ ¬ (id = nodeID ∧ addr = peer) := by
  unfold rollback PeerEntry
  split
  · next h =>
    obtain ⟨hnode, hat⟩ := h
    have hlt := (List.getElem?_eq_some_iff.mp hat).1
    constructor
    · rintro ⟨haddr, hid, hget⟩
      have hne : id ≠ nodeID := by
        rintro rfl
        rw [List.getElem?_set_self hlt] at hget
        exact haddr (Option.some.inj hget).symm
      rw [List.getElem?_set_ne (by omega)] at hget
      exact ⟨⟨haddr, hid, hget⟩, fun hsame => hne hsame.1⟩
    · rintro ⟨⟨haddr, hid, hget⟩, hother⟩
      have hne : id ≠ nodeID := by
        rintro rfl
        exact hother ⟨rfl, Option.some.inj (hget.symm.trans hat)⟩
      refine ⟨haddr, hid, ?_⟩
      rwa [List.getElem?_set_ne (by omega)]
  · next h =>
    refine (and_iff_left_of_imp ?_).symm
    rintro ⟨-, hid, hget⟩ ⟨rfl, rfl⟩
    exact h ⟨hid, hget⟩

/-- One free slot is filled. -/
theorem entry_of_slot {peers tried : List String} {idx : Nat} {peer : String} (hpeer : peer ≠ "")
    (hfree : peers[idx]? = some "" ∨ peers[idx]? = none) (hslot : tried[idx]? = some peer)
    (hother : ∀ k, k ≠ idx → tried[k]? = peers[k]?) {id : Nat} {addr : String} :
    PeerEntry tried id addr ↔ PeerEntry peers id addr ∨ id = idx + 1 ∧ addr = peer := by
  constructor
  · rintro ⟨haddr, hid, hget⟩
    by_cases hidx : id - 1 = idx
    · rw [hidx, hslot] at hget
      exact Or.inr ⟨by omega, (Option.some.inj hget).symm⟩
    · rw [hother _ hidx] at hget
      exact Or.inl ⟨haddr, hid, hget⟩
  · rintro (⟨haddr, hid, hget⟩ | ⟨rfl, rfl⟩)
    · have hidx : id - 1 ≠ idx := by
        rintro rfl
        rw [hget] at hfree
        rcases hfree with hempty | hnone
        · exact haddr (Option.some.inj hempty)
        · cases hnone
      exact ⟨haddr, hid, (hother _ hidx).trans hget⟩
    · exact ⟨hpeer, Nat.succ_ne_zero _, hslot⟩

/-- The address is in the table afterwards, under its id. Where it was not there before, it is the
only new one. -/
theorem entry_tryAdd {peers : List String} {peer : String} (hpeer : peer ≠ "") {id : Nat}
    {addr : String} : PeerEntry (tryAdd peers peer).2.1 id addr ↔
      PeerEntry peers id addr ∨ peer ∉ peers ∧ id = (tryAdd peers peer).1 ∧ addr = peer := by
  unfold tryAdd
  split
  · next idx hidx =>
    obtain ⟨hlt, hat, -⟩ := List.idxOf?_eq_some_iff.mp hidx
    have hmem : peer ∈ peers := hat ▸ List.getElem_mem hlt
    simp [hmem]
  · next hnone =>
    have hnew : peer ∉ peers := List.idxOf?_eq_none_iff.mp hnone
    rw [and_iff_right hnew]
    split
    · next idx hidx =>
      obtain ⟨hlt, hat, -⟩ := List.idxOf?_eq_some_iff.mp hidx
      refine entry_of_slot hpeer (Or.inl (by rw [List.getElem?_eq_getElem hlt, hat])) ?_ ?_
      · exact List.getElem?_set_self hlt
      · exact fun k hk => List.getElem?_set_ne hk.symm
    · refine entry_of_slot hpeer (Or.inr (List.getElem?_eq_none le_rfl)) ?_ ?_
      · exact List.getElem?_concat_length
      · intro k hk
        rw [List.getElem?_append]
        split
        · rfl
        · rw [List.getElem?_eq_none (by simp; omega), List.getElem?_eq_none (by omega)]

theorem entry_tried {peers : List String} {peer : String} (hpeer : peer ≠ "") :
    PeerEntry (tryAdd peers peer).2.1 (tryAdd peers peer).1 peer := by
  by_cases hmem : peer ∈ peers
  · obtain ⟨idx, hid, hslot⟩ := tryAdd_slot peers peer
    rcases hslot with ⟨hat, -⟩ | ⟨hnew, -⟩
    · exact (entry_tryAdd hpeer).mpr (Or.inl ⟨hpeer, by omega, by rw [hid]; exact hat⟩)
    · exact absurd hmem hnew
  · exact (entry_tryAdd hpeer).mpr (Or.inr ⟨hmem, rfl, rfl⟩)

/-! ## Steps -/

namespace PeerTable

variable {s s' : PeerTable} {l : PeerStep}

/-- All that a step of a call can do. -/
theorem next_cases {peers peers' : List String} {c c' : PeerCall}
    (h : c.next peers = some (peers', c')) :
    (∃ peer refused, c = .addPeer peer refused ∧ peers' = (tryAdd peers peer).2.1 ∧
      (c'.settles = none ∨ c'.settles = some (peer, (tryAdd peers peer).1))) ∨
    (∃ peer nodeID tried err, c = .rollingBack peer nodeID tried err ∧
      peers' = rollback peers nodeID peer ∧ c'.settles = none) ∨
    (∃ nodeID nodeAddr, c = .clearing nodeID nodeAddr ∧
      peers' = rollback peers nodeID nodeAddr ∧ c'.settles = none) ∨
    (peers' = peers ∧ (c'.settles = none ∨ c'.settles = c.settles) ∧
      ∀ (s : PeerTable) i, s.stands i c = s.standing) := by
  cases c with
  | addPeer peer refused =>
    obtain ⟨rfl, rfl⟩ := Prod.mk.inj (Option.some.inj h)
    refine Or.inl ⟨peer, refused, rfl, rfl, ?_⟩
    cases refused with
    | none => exact Or.inr rfl
    | some err => exact Or.inl rfl
  | rollingBack peer nodeID tried err =>
    obtain ⟨rfl, rfl⟩ := Prod.mk.inj (Option.some.inj h)
    exact Or.inr (Or.inl ⟨peer, nodeID, tried, err, rfl, rfl, rfl⟩)
  | clearing nodeID nodeAddr =>
    obtain ⟨rfl, rfl⟩ := Prod.mk.inj (Option.some.inj h)
    exact Or.inr (Or.inr (Or.inl ⟨nodeID, nodeAddr, rfl, rfl, rfl⟩))
  | proposedAdd peer refused nodeID tried newlyAdded =>
    refine Or.inr (Or.inr (Or.inr ?_))
    cases refused with
    | none =>
      obtain ⟨rfl, rfl⟩ := Prod.mk.inj (Option.some.inj h)
      exact ⟨rfl, Or.inr rfl, fun s i => rfl⟩
    | some err =>
      cases newlyAdded with
      | true =>
        obtain ⟨rfl, rfl⟩ := Prod.mk.inj (Option.some.inj h)
        exact ⟨rfl, Or.inl rfl, fun s i => rfl⟩
      | false =>
        obtain ⟨rfl, rfl⟩ := Prod.mk.inj (Option.some.inj h)
        exact ⟨rfl, Or.inl rfl, fun s i => rfl⟩
  | removePeer nodeID refused =>
    refine Or.inr (Or.inr (Or.inr ?_))
    unfold PeerCall.next at h
    dsimp only at h
    split at h
    · obtain ⟨rfl, rfl⟩ := Prod.mk.inj (Option.some.inj h)
      exact ⟨rfl, Or.inl rfl, fun s i => rfl⟩
    · split at h
      · obtain ⟨rfl, rfl⟩ := Prod.mk.inj (Option.some.inj h)
        exact ⟨rfl, Or.inl rfl, fun s i => rfl⟩
      · split at h
        · obtain ⟨rfl, rfl⟩ := Prod.mk.inj (Option.some.inj h)
          exact ⟨rfl, Or.inl rfl, fun s i => rfl⟩
        · obtain ⟨rfl, rfl⟩ := Prod.mk.inj (Option.some.inj h)
          exact ⟨rfl, Or.inl rfl, fun s i => rfl⟩
  | proposedRemove nodeID refused nodeAddr =>
    refine Or.inr (Or.inr (Or.inr ?_))
    cases refused with
    | none =>
      obtain ⟨rfl, rfl⟩ := Prod.mk.inj (Option.some.inj h)
      exact ⟨rfl, Or.inl rfl, fun s i => rfl⟩
    | some err =>
      obtain ⟨rfl, rfl⟩ := Prod.mk.inj (Option.some.inj h)
      exact ⟨rfl, Or.inl rfl, fun s i => rfl⟩
  | addReturned peer nodeID tried err => cases h
  | removeReturned nodeID err => cases h

/-- A step begins a call, or a call goes on. -/
theorem step_cases (hs : step s l = some s') :
    (∃ c, l = .begin c ∧ c.asked = true ∧ s' = { s with calls := s.calls ++ [c] }) ∨
    ∃ i c peers c', l = .next i ∧ s.calls[i]? = some c ∧ c.next s.peers = some (peers, c') ∧
      s' = ⟨peers, s.calls.set i c', s.stands i c⟩ := by
  cases l with
  | begin c =>
    unfold step at hs
    dsimp only at hs
    split at hs
    · next hasked => exact Or.inl ⟨c, rfl, hasked, (Option.some.inj hs).symm⟩
    · cases hs
  | next i =>
    unfold step at hs
    dsimp only at hs
    split at hs
    · cases hs
    · next c hc =>
      split at hs
      · cases hs
      · obtain ⟨⟨peers, c'⟩, hnext, rfl⟩ := Option.map_eq_some_iff.mp hs
        exact Or.inr ⟨i, c, peers, c', rfl, hc, hnext, rfl⟩

theorem blank_of_next {peers peers' : List String} {c c' : PeerCall}
    (h : c.next peers = some (peers', c')) : c'.blank = false := by
  unfold PeerCall.next at h
  repeat' split at h
  all_goals
    cases h
    try rfl

/-! ## One call alone -/

/-- Without other calls in between, an add is the one that the members take for one step. -/
theorem addPeer_alone (peers : List String) (peer : String) (refused : Option GoError) :
    Transition.Reaches step (fun s => s.peers = (KV.addPeer peers peer refused).peers ∧
      s.calls = [.addReturned peer (KV.addPeer peers peer refused).nodeID
        (KV.addPeer peers peer refused).returned (KV.addPeer peers peer refused).err])
      ⟨peers, [.addPeer peer refused], []⟩ := by
  have hentered : Transition.run step ⟨peers, [.addPeer peer refused], []⟩ [.next 0] =
      some ⟨(tryAdd peers peer).2.1, [.proposedAdd peer refused (tryAdd peers peer).1
        (tryAdd peers peer).2.1 (tryAdd peers peer).2.2], [0]⟩ := rfl
  unfold KV.addPeer
  generalize tryAdd peers peer = r at hentered ⊢
  obtain ⟨nodeID, tried, newlyAdded⟩ := r
  refine Transition.Reaches.trans ⟨_, _, hentered, rfl⟩ fun s hs => ?_
  subst hs
  cases refused with
  | none => exact ⟨[.next 0], _, rfl, rfl, rfl⟩
  | some err =>
    cases newlyAdded with
    | true => exact ⟨[.next 0, .next 0], _, rfl, rfl, rfl⟩
    | false => exact ⟨[.next 0], _, rfl, rfl, rfl⟩

theorem removePeer_alone (peers : List String) (nodeID : Nat) (refused : Option GoError) :
    Transition.Reaches step (fun s => s.peers = (KV.removePeer peers nodeID refused).2.1 ∧
      s.calls = [.removeReturned nodeID (KV.removePeer peers nodeID refused).1])
      ⟨peers, [.removePeer nodeID refused], []⟩ := by
  have hread : ∀ c, (PeerCall.removePeer nodeID refused).next peers = some (peers, c) →
      step ⟨peers, [.removePeer nodeID refused], []⟩ (.next 0) = some ⟨peers, [c], []⟩ := by
    intro c hc
    show Option.map _ ((PeerCall.removePeer nodeID refused).next peers) = _
    rw [hc]
    rfl
  unfold PeerCall.next at hread
  dsimp only at hread
  unfold KV.removePeer
  by_cases hzero : nodeID = 0
  · rw [if_pos hzero] at hread ⊢
    exact .after (hread _ rfl) (.now ⟨rfl, rfl⟩)
  rw [if_neg hzero] at hread ⊢
  dsimp only
  by_cases hbig : 2 ^ 63 ≤ nodeID - 1
  · rw [if_pos hbig] at hread ⊢
    exact .after (hread _ rfl) (.now ⟨rfl, rfl⟩)
  rw [if_neg hbig] at hread ⊢
  by_cases hlen : peers.length ≤ nodeID - 1
  · rw [List.getElem?_eq_none hlen] at hread
    rw [if_pos hlen]
    exact .after (hread _ rfl) (.now ⟨rfl, rfl⟩)
  rw [List.getElem?_eq_getElem (Nat.lt_of_not_le hlen)] at hread
  rw [if_neg hlen]
  refine .after (hread _ rfl) ?_
  cases refused with
  | some err => exact ⟨[.next 0], _, rfl, rfl, rfl⟩
  | none =>
    refine ⟨[.next 0, .next 0], _, rfl, ?_, rfl⟩
    exact if_pos ⟨hzero, List.getElem?_eq_getElem (Nat.lt_of_not_le hlen)⟩
/-! ## Ids -/

/-- The call clears the slot: it removes the address, or it has failed to add it. -/
def TakesOut (s : PeerTable) (l : PeerStep) (id : Nat) (addr : String) : Prop :=
  ∃ i, l = .next i ∧ (s.calls[i]? = some (.clearing id addr) ∨
    ∃ tried err, s.calls[i]? = some (.rollingBack addr id tried err))

/-- An address keeps its id until it is taken out, and gets an id only where it has none. -/
def Steady (s : PeerTable) (l : PeerStep) (s' : PeerTable) : Prop :=
  (∀ id addr, PeerEntry s.peers id addr → PeerEntry s'.peers id addr ∨ TakesOut s l id addr) ∧
    ∀ id addr, PeerEntry s'.peers id addr → PeerEntry s.peers id addr ∨ addr ∉ s.peers

/-- Whatever is under two ids was under them in the table that the node started with. -/
def Unrepeated (start peers : List String) : Prop :=
  ∀ addr id id', id ≠ id' → PeerEntry peers id addr → PeerEntry peers id' addr →
    PeerEntry start id addr ∧ PeerEntry start id' addr

/-- What a step makes of the entries: one is new, or some are taken out. -/
theorem step_entries (hfilled : ∀ c ∈ s.calls, c.blank = false) (hs : step s l = some s') :
    (∃ peer nodeID, peer ∉ s.peers ∧ ∀ id addr, PeerEntry s'.peers id addr ↔
      PeerEntry s.peers id addr ∨ id = nodeID ∧ addr = peer) ∨
    (∀ id addr, PeerEntry s'.peers id addr → PeerEntry s.peers id addr) ∧
      ∀ id addr, PeerEntry s.peers id addr → PeerEntry s'.peers id addr ∨ TakesOut s l id addr := by
  rcases step_cases hs with ⟨c, rfl, -, rfl⟩ | ⟨i, c, peers, c', rfl, hc, hnext, rfl⟩
  · exact Or.inr ⟨fun id addr h => h, fun id addr h => Or.inl h⟩
  · rcases next_cases hnext with ⟨peer, refused, rfl, rfl, -⟩ |
      ⟨peer, nodeID, tried, err, rfl, rfl, -⟩ | ⟨nodeID, nodeAddr, rfl, rfl, -⟩ | ⟨rfl, -, -⟩
    · have hpeer : peer ≠ "" :=
        of_decide_eq_false (hfilled _ (List.mem_of_getElem? hc))
      by_cases hmem : peer ∈ s.peers
      · have hsame : ∀ id addr,
            PeerEntry (tryAdd s.peers peer).2.1 id addr ↔ PeerEntry s.peers id addr := by
          intro id addr
          rw [entry_tryAdd hpeer]
          exact or_iff_left fun h => h.1 hmem
        exact Or.inr ⟨fun id addr h => (hsame id addr).mp h,
          fun id addr h => Or.inl ((hsame id addr).mpr h)⟩
      · refine Or.inl ⟨peer, (tryAdd s.peers peer).1, hmem, fun id addr => ?_⟩
        rw [entry_tryAdd hpeer, and_iff_right hmem]
    · refine Or.inr ⟨fun id addr h => (entry_rollback.mp h).1, fun id addr h => ?_⟩
      by_cases hout : id = nodeID ∧ addr = peer
      · obtain ⟨rfl, rfl⟩ := hout
        exact Or.inr ⟨i, rfl, Or.inr ⟨tried, err, hc⟩⟩
      · exact Or.inl (entry_rollback.mpr ⟨h, hout⟩)
    · refine Or.inr ⟨fun id addr h => (entry_rollback.mp h).1, fun id addr h => ?_⟩
      by_cases hout : id = nodeID ∧ addr = nodeAddr
      · obtain ⟨rfl, rfl⟩ := hout
        exact Or.inr ⟨i, rfl, Or.inl hc⟩
      · exact Or.inl (entry_rollback.mpr ⟨h, hout⟩)
    · exact Or.inr ⟨fun id addr h => h, fun id addr h => Or.inl h⟩

theorem steady_step (hfilled : ∀ c ∈ s.calls, c.blank = false) (hs : step s l = some s') :
    Steady s l s' := by
  rcases step_entries hfilled hs with ⟨peer, nodeID, hnew, hiff⟩ | ⟨hold, hkept⟩
  · refine ⟨fun id addr h => Or.inl ((hiff id addr).mpr (Or.inl h)), fun id addr h => ?_⟩
    rcases (hiff id addr).mp h with h | ⟨-, rfl⟩
    · exact Or.inl h
    · exact Or.inr hnew
  · exact ⟨hkept, fun id addr h => Or.inl (hold id addr h)⟩

theorem unrepeated_step {start : List String} (hfilled : ∀ c ∈ s.calls, c.blank = false)
    (hs : step s l = some s') (h : Unrepeated start s.peers) : Unrepeated start s'.peers := by
  intro addr id id' hne hid hid'
  rcases step_entries hfilled hs with ⟨peer, nodeID, hnew, hiff⟩ | ⟨hold, -⟩
  · rcases (hiff id addr).mp hid with hid | ⟨rfl, rfl⟩
    · rcases (hiff id' addr).mp hid' with hid' | ⟨-, rfl⟩
      · exact h addr id id' hne hid hid'
      · exact absurd (mem_of_entry hid) hnew
    · rcases (hiff id' addr).mp hid' with hid' | ⟨rfl, -⟩
      · exact absurd (mem_of_entry hid') hnew
      · exact absurd rfl hne
  · exact h addr id id' hne (hold id addr hid) (hold id' addr hid')

/-! ## Adds that stand -/

/-- An add that has returned nil, and that no removal has undone, is in the table. -/
def Settled (s : PeerTable) : Prop :=
  ∀ i ∈ s.standing, ∀ peer nodeID tried,
    s.calls[i]? = some (.addReturned peer nodeID tried none) → PeerEntry s.peers nodeID peer

/-- A failed add takes the address out only where no other add of it counts on the entry: none that
stands has entered it or found it there, and does not fail. -/
def Sole (s : PeerTable) (l : PeerStep) (_ : PeerTable) : Prop :=
  match l with
  | .next i =>
      match s.calls[i]? with
      | some (.rollingBack peer nodeID _ _) =>
          s.peers[nodeID - 1]? = some peer → ∀ j ∈ s.standing, s.settled j ≠ some (peer, nodeID)
      | _ => True
  | .begin _ => True

instance (s : PeerTable) (l : PeerStep) (s' : PeerTable) : Decidable (Sole s l s') := by
  unfold Sole
  cases l with
  | begin c => infer_instance
  | next i =>
    dsimp only
    split <;> infer_instance

structure Inv (start : List String) (s : PeerTable) : Prop where
  filled : ∀ c ∈ s.calls, c.blank = false
  begun : ∀ i ∈ s.standing, i < s.calls.length
  held : ∀ i ∈ s.standing, ∀ peer nodeID, s.settled i = some (peer, nodeID) →
    PeerEntry s.peers nodeID peer
  unrepeated : Unrepeated start s.peers

theorem settled_begin {c : PeerCall} {j : Nat} (hj : j < s.calls.length) :
    settled { s with calls := s.calls ++ [c] } j = s.settled j := by
  unfold settled
  rw [List.getElem?_append_left hj]

theorem settled_set {i j : Nat} {c c' : PeerCall} {peers : List String} {standing : List Nat}
    (hc : s.calls[i]? = some c) : settled ⟨peers, s.calls.set i c', standing⟩ j =
      if j = i then c'.settles else s.settled j := by
  unfold settled
  by_cases hj : j = i
  · subst hj
    rw [if_pos rfl, List.getElem?_set_self (List.getElem?_eq_some_iff.mp hc).1, Option.bind_some]
  · rw [if_neg hj, List.getElem?_set_ne (Ne.symm hj)]

theorem begun_stands {i j : Nat} {c : PeerCall} (hbegun : ∀ i ∈ s.standing, i < s.calls.length)
    (hi : i < s.calls.length) (hj : j ∈ s.stands i c) : j < s.calls.length := by
  unfold stands at hj
  split at hj
  · rcases List.mem_append.mp hj with hj | hj
    · exact hbegun j hj
    · exact List.mem_singleton.mp hj ▸ hi
  · split at hj
    · exact hbegun j (List.mem_of_mem_filter hj)
    · exact hbegun j hj
  · exact hbegun j hj

/-- A step of a call keeps the entries that are counted on. -/
theorem Inv.held_next {start : List String} (h : Inv start s) {i : Nat} {c c' : PeerCall}
    {peers : List String} (hc : s.calls[i]? = some c)
    (hnext : c.next s.peers = some (peers, c')) (hsole : Sole s (.next i) s') {j : Nat}
    (hj : j ∈ s.stands i c) {addr : String} {id : Nat}
    (hsettled : (if j = i then c'.settles else s.settled j) = some (addr, id)) :
    PeerEntry peers id addr := by
  rcases next_cases hnext with ⟨peer, refused, rfl, rfl, hset⟩ |
    ⟨peer, nodeID, tried, err, rfl, rfl, hset⟩ | ⟨nodeID, nodeAddr, rfl, rfl, hset⟩ |
    ⟨rfl, hset, hstands⟩
  · -- the address is entered, or was there
    have hpeer : peer ≠ "" := of_decide_eq_false (h.filled _ (List.mem_of_getElem? hc))
    by_cases hji : j = i
    · rw [if_pos hji] at hsettled
      rcases hset with hset | hset
      · rw [hset] at hsettled
        cases hsettled
      · rw [hset] at hsettled
        obtain ⟨rfl, rfl⟩ := Prod.mk.inj (Option.some.inj hsettled)
        exact entry_tried hpeer
    · rw [if_neg hji] at hsettled
      have hold : j ∈ s.standing := (List.mem_append.mp hj).resolve_right fun hmem =>
        hji (List.mem_singleton.mp hmem)
      exact (entry_tryAdd hpeer).mpr (Or.inl (h.held j hold addr id hsettled))
  · by_cases hji : j = i
    · rw [if_pos hji, hset] at hsettled
      cases hsettled
    · rw [if_neg hji] at hsettled
      have hentry := h.held j hj addr id hsettled
      refine entry_rollback.mpr ⟨hentry, ?_⟩
      rintro ⟨rfl, rfl⟩
      unfold Sole at hsole
      dsimp only at hsole
      rw [hc] at hsole
      exact hsole hentry.2.2 j hj hsettled
  · by_cases hji : j = i
    · rw [if_pos hji, hset] at hsettled
      cases hsettled
    · rw [if_neg hji] at hsettled
      have hold : j ∈ s.standing := by
        unfold stands at hj
        dsimp only at hj
        split at hj
        · exact List.mem_of_mem_filter hj
        · exact hj
      have hentry := h.held j hold addr id hsettled
      refine entry_rollback.mpr ⟨hentry, ?_⟩
      rintro ⟨rfl, rfl⟩
      -- the removal has ended the standing of the add
      unfold stands at hj
      dsimp only at hj
      rw [if_pos hentry.2.2] at hj
      exact of_decide_eq_true (List.mem_filter.mp hj).2 hsettled
  · rw [hstands] at hj
    by_cases hji : j = i
    · rw [if_pos hji] at hsettled
      rcases hset with hset | hset
      · rw [hset] at hsettled
        cases hsettled
      · refine h.held j hj addr id ?_
        rw [settled, hji, hc, Option.bind_some, ← hset]
        exact hsettled
    · rw [if_neg hji] at hsettled
      exact h.held j hj addr id hsettled

theorem Inv.step {start : List String} (h : Inv start s) (hsole : Sole s l s')
    (hs : step s l = some s') : Inv start s' := by
  have hunrepeated := unrepeated_step h.filled hs h.unrepeated
  rcases step_cases hs with ⟨c, rfl, hasked, rfl⟩ | ⟨i, c, peers, c', rfl, hc, hnext, rfl⟩
  · refine ⟨fun d hd => ?_, fun j hj => ?_, fun j hj addr id hsettled => ?_, hunrepeated⟩
    · rcases List.mem_append.mp hd with hd | hd
      · exact h.filled d hd
      · rw [List.mem_singleton.mp hd]
        cases c with
        | addPeer peer refused => simpa [PeerCall.asked, PeerCall.blank] using hasked
        | removePeer nodeID refused => rfl
        | _ => cases hasked
    · exact (h.begun j hj).trans_le (by simp)
    · rw [settled_begin (h.begun j hj)] at hsettled
      exact h.held j hj addr id hsettled
  · refine ⟨fun d hd => ?_, fun j hj => ?_, fun j hj addr id hsettled => ?_, hunrepeated⟩
    · rcases List.mem_or_eq_of_mem_set hd with hd | rfl
      · exact h.filled d hd
      · exact blank_of_next hnext
    · rw [List.length_set]
      exact begun_stands h.begun (List.getElem?_eq_some_iff.mp hc).1 hj
    · rw [settled_set hc] at hsettled
      exact h.held_next hc hnext hsole hj hsettled

theorem Inv.settled {start : List String} (h : Inv start s) : Settled s := by
  intro i hi peer nodeID tried hcall
  refine h.held i hi peer nodeID ?_
  rw [PeerTable.settled, hcall]
  rfl

theorem inv_started (start : List String) : Inv start ⟨start, [], []⟩ where
  filled _ hc := by cases hc
  begun _ hi := by cases hi
  held _ hi := by cases hi
  unrepeated _ _ _ _ hid hid' := ⟨hid, hid'⟩

/-! ## Runs -/

/-- In a run in which no failed add takes out what another one counts on, no address comes to be
under two ids, each keeps its id until it is taken out, and what has been added and not removed is
there. -/
theorem table_kept (start : List String) {ls : List PeerStep}
    (h : Transition.EachStep step Sole ⟨start, [], []⟩ ls) :
    Transition.EachState step (fun s => Unrepeated start s.peers ∧ Settled s) ⟨start, [], []⟩ ls ∧
      Transition.EachStep step Steady ⟨start, [], []⟩ ls := by
  have hstep : ∀ s l s', Inv start s → Sole s l s' → step s l = some s' → Inv start s' :=
    fun s l s' hi hsole hs => hi.step hsole hs
  have hsteady : ∀ s l s', Inv start s → step s l = some s' → Sole s l s' → Steady s l s' :=
    fun s l s' hi hs _ => steady_step hi.filled hs
  constructor
  · exact (Transition.eachState_of_eachStep (Inv start) hstep (inv_started start) h).mono
      fun s hi => ⟨hi.unrepeated, hi.settled⟩
  · exact Transition.eachStep_of_eachStep (Inv start) hstep hsteady (inv_started start) h

/-- Two adds of different addresses and a removal take turns; one add fails and is rolled back. -/
def turns : List PeerStep :=
  [.begin (.addPeer "10.0.0.2:3021" (some (.text "raft: proposal dropped"))),
    .begin (.addPeer "10.0.0.3:3021" none), .begin (.removePeer 1 none), .next 0, .next 1, .next 2,
    .next 0, .next 1, .next 2, .next 0, .next 2]

theorem table_kept_turns :
    Transition.EachState step (fun s => Unrepeated ["10.0.0.1:3021"] s.peers ∧ Settled s)
      ⟨["10.0.0.1:3021"], [], []⟩ turns ∧
      Transition.EachStep step Steady ⟨["10.0.0.1:3021"], [], []⟩ turns :=
  table_kept ["10.0.0.1:3021"] (by decide)

/-- Two adds of one address: the second finds it and succeeds, then the first fails and takes it
out. -/
def shared : List PeerStep :=
  [.begin (.addPeer "10.0.0.2:3021" (some (.text "raft: proposal dropped"))),
    .begin (.addPeer "10.0.0.2:3021" none), .next 0, .next 1, .next 1, .next 0, .next 0]

theorem shared_lost : ∃ s, Transition.run step ⟨["10.0.0.1:3021"], [], []⟩ shared = some s ∧
    (∀ c ∈ s.calls, c.returned = true) ∧
    s.calls[1]? = some (.addReturned "10.0.0.2:3021" 2 ["10.0.0.1:3021", "10.0.0.2:3021"] none) ∧
    s.standing = [0, 1] ∧ s.peers = ["10.0.0.1:3021", ""] ∧ ¬ Settled s := by
  refine ⟨_, rfl, by decide, rfl, rfl, rfl, fun h => ?_⟩
  have hentry := h 1 (by decide) "10.0.0.2:3021" 2 _ rfl
  exact absurd hentry.2.2 (by decide)

end PeerTable

end Cassem.KV
