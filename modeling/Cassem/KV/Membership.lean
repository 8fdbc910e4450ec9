import Cassem.Concept.Element
import Cassem.Lib.Transition
import Cassem.KV.Storage
import Mathlib.Data.List.Nodup

/-!
# The members of the cluster

Raft replicates which nodes are members. The id that an address gets is made up by the node
that serves the request, from a table of peers of its own that starts as its configuration
and that no commit and no other node changes.
-/

namespace Cassem.KV

open Lib Cassem.Concept

/-! ## The table of peers -/

/-- The id of the address, the table, and whether the address is new in it. -/
def tryAdd (peers : List String) (peer : String) : Nat × List String × Bool :=
  match peers.idxOf? peer with
  | some idx => (idx + 1, peers, false)
  | none =>
      -- reuse empty slots
      match peers.idxOf? "" with
      | some idx => (idx + 1, peers.set idx peer, true)
      | none => (peers.length + 1, peers ++ [peer], true)

/-- `Context` is the address of the node. -/
inductive ConfChange where
  | AddNode (NodeID : Nat) (Context : String)
  | RemoveNode (NodeID : Nat)
  deriving DecidableEq, Repr

def rollback (peers : List String) (nodeID : Nat) (peer : String) : List String :=
  if nodeID ≠ 0 ∧ peers[nodeID - 1]? = some peer then peers.set (nodeID - 1) "" else peers

structure AddResult where
  nodeID : Nat
  returned : List String
  err : Option GoError
  peers : List String
  change : Option ConfChange

/-- What `addPeer` returns, the table it leaves, and what it proposes; `refused` is the error
of the proposal. -/
def addPeer (peers : List String) (peer : String) (refused : Option GoError) : AddResult :=
  let (nodeID, tried, newlyAdded) := tryAdd peers peer
  match refused with
  | none => ⟨nodeID, tried, none, tried, some (.AddNode nodeID peer)⟩
  | some err =>
      ⟨nodeID, tried,
        some (.errorf "raftNode failed to add peer: " (.errorf "raftNode failed to changeConf: " err)),
        if newlyAdded then rollback tried nodeID peer else tried, none⟩

/-- What `removePeer` returns, the table it leaves, and what it proposes. An id above `2^63`
makes a negative index. -/
def removePeer (peers : List String) (nodeID : Nat) (refused : Option GoError) :
    Option Fault × List String × Option ConfChange :=
  if nodeID = 0 then (some (.error (.text "invalid nodeID")), peers, none)
  else
    let idx := nodeID - 1
    if 2 ^ 63 ≤ idx then (some (.panic "index out of range"), peers, none)
    else if peers.length ≤ idx then (some (.error (.text "invalid nodeID")), peers, none)
    else
      match refused with
      | none => (none, peers.set idx "", some (.RemoveNode nodeID))
      | some err =>
          (some (.error (.errorf "raftNode failed to remove peer: "
            (.errorf "raftNode failed to changeConf: " err))), peers, none)

/-- The slot that the address gets is the first that holds it, or none does and the slot is
free. -/
theorem tryAdd_slot (peers : List String) (peer : String) :
    ∃ idx, (tryAdd peers peer).1 = idx + 1 ∧
      (peers[idx]? = some peer ∧ idx = peers.idxOf peer ∨
        peer ∉ peers ∧ (peers[idx]? = some "" ∨ peers[idx]? = none)) := by
  unfold tryAdd
  split
  · next idx hidx =>
    obtain ⟨hlt, hat, -⟩ := List.idxOf?_eq_some_iff.mp hidx
    refine ⟨idx, rfl, .inl ⟨?_, ?_⟩⟩
    · rw [List.getElem?_eq_getElem hlt, hat]
    · rw [List.idxOf_eq_getD_idxOf?, hidx, Option.getD_some]
  · next hnone =>
    have hnew : peer ∉ peers := List.idxOf?_eq_none_iff.mp hnone
    split
    · next idx hidx =>
      obtain ⟨hlt, hat, -⟩ := List.idxOf?_eq_some_iff.mp hidx
      exact ⟨idx, rfl, .inr ⟨hnew, .inl (by rw [List.getElem?_eq_getElem hlt, hat])⟩⟩
    · exact ⟨peers.length, rfl, .inr ⟨hnew, .inr (List.getElem?_eq_none le_rfl)⟩⟩

/-! ## The replicated membership -/

abbrev Membership := List (Nat × String)

def Membership.apply (m : Membership) : ConfChange → Membership
  | .AddNode id addr => if (id, addr) ∈ m then m else m ++ [(id, addr)]
  | .RemoveNode id => m.filter fun p => p.1 ≠ id

/-- The members that the nodes of a new cluster start with: one for each address, by its place
in the list. -/
def Membership.initial (cluster : List String) : Membership :=
  cluster.mapIdx fun idx addr => (idx + 1, addr)

/-! ## Nodes and requests -/

/-- The configuration of a node, its `Cluster` split at the commas. -/
structure RaftConfig where
  Bind : String
  Cluster : List String

/-- The addresses that `Fix` leaves in place of an empty cluster. -/
def RaftConfig.peers (cfg : RaftConfig) : List String :=
  if cfg.Cluster = [""] then [cfg.Bind] else cfg.Cluster

def RaftConfig.NodeID (cfg : RaftConfig) : Option Nat :=
  if cfg.Bind = "" then none else (cfg.peers.idxOf? cfg.Bind).map (· + 1)

/-- A running node: its table of peers, how much of the log it has applied, and whether it
has shut down after its own removal. -/
structure RaftPeer where
  peers : List String
  applied : Nat
  stopped : Bool

/-- The nodes, the committed configuration changes, and those proposed but not committed. -/
structure Members (σ : Type) where
  node : σ → RaftPeer
  log : List ConfChange
  proposed : List ConfChange

inductive MemberStep (σ : Type) where
  | AddNode (s : σ) (addr : String) (refused : Option GoError)
  | RemoveNode (s : σ) (nodeID : Nat) (refused : Option GoError)
  | commit (k : Nat)
  | lose (k : Nat)
  | deliver (s : σ)
  | restart (s : σ) (applied : Nat)

namespace Members

variable {σ : Type} [DecidableEq σ]

def start (cfg : σ → RaftConfig) : Members σ :=
  ⟨fun s => ⟨(cfg s).peers, 0, false⟩, [], []⟩

def membership (cluster : List String) (c : Members σ) : Membership :=
  c.log.foldl Membership.apply (.initial cluster)

/-- The node runs and is a member. -/
def serves (cfg : σ → RaftConfig) (cluster : List String) (c : Members σ) (s : σ) : Bool :=
  !(c.node s).stopped && (c.membership cluster).any fun p => some p.1 = (cfg s).NodeID

def setPeers (c : Members σ) (s : σ) (peers : List String) : Members σ :=
  { c with node := Function.update c.node s { c.node s with peers := peers } }

def propose (c : Members σ) (change : Option ConfChange) : Members σ :=
  { c with proposed := c.proposed ++ change.toList }

/-- `cluster` is what the first members are configured with. A proposal may be committed at
any time, or lost; `addNode` refuses an empty address before it asks raft. -/
def step (cfg : σ → RaftConfig) (cluster : List String) (c : Members σ) :
    MemberStep σ → Option (Members σ)
  | .AddNode s addr refused =>
      if c.serves cfg cluster s then
        if addr = "" then some c
        else
          let r := addPeer (c.node s).peers addr refused
          some ((c.setPeers s r.peers).propose r.change)
      else none
  | .RemoveNode s nodeID refused =>
      if c.serves cfg cluster s then
        let (_, peers, change) := removePeer (c.node s).peers nodeID refused
        some ((c.setPeers s peers).propose change)
      else none
  | .commit k =>
      (c.proposed[k]?).map fun change =>
        { c with log := c.log ++ [change], proposed := c.proposed.eraseIdx k }
  | .lose k =>
      if k < c.proposed.length then some { c with proposed := c.proposed.eraseIdx k } else none
  | .deliver s =>
      let n := c.node s
      if n.stopped then none
      else
        -- publishEntries tells raft and the transport, not the table
        (c.log[n.applied]?).map fun change =>
          let removed := match change with
            | .AddNode _ _ => false
            | .RemoveNode id => (cfg s).NodeID = some id
          { c with node := Function.update c.node s ⟨n.peers, n.applied + 1, removed⟩ }
  | .restart s applied =>
      if applied ≤ (c.node s).applied then
        some { c with node := Function.update c.node s ⟨(cfg s).peers, applied, false⟩ }
      else none

/-! ## Identity -/

/-- An id belongs to one address, and an address has one id. -/
def Identified (m : Membership) : Prop := ∀ p ∈ m, ∀ q ∈ m, p.1 = q.1 ↔ p.2 = q.2

def added : ConfChange → Option (Nat × String)
  | .AddNode id addr => some (id, addr)
  | .RemoveNode _ => none

/-- The members, and those that may become members by what is proposed. -/
def known (cluster : List String) (c : Members σ) : Membership :=
  c.membership cluster ++ c.proposed.filterMap added

/-- The table has each of them in the slot of its id, and the address asked for in no slot
before that of its id. -/
def Aware (peers : List String) (known : Membership) (addr : String) : Prop :=
  ∀ p ∈ known, 1 ≤ p.1 ∧ peers[p.1 - 1]? = some p.2 ∧ (p.2 = addr → p.1 = peers.idxOf addr + 1)

instance (peers : List String) (known : Membership) (addr : String) :
    Decidable (Aware peers known addr) :=
  inferInstanceAs (Decidable (∀ p ∈ known, _))

/-- An address is only added by a node that is aware of the members. -/
def AddedAware (cluster : List String) (c : Members σ) (l : MemberStep σ) (_ : Members σ) : Prop :=
  match l with
  | .AddNode s addr _ => Aware (c.node s).peers (c.known cluster) addr
  | _ => True

instance (cluster : List String) (c : Members σ) (l : MemberStep σ) (c' : Members σ) :
    Decidable (AddedAware cluster c l c') := by
  unfold AddedAware
  cases l <;> infer_instance

/-- What the members and the proposals keep. -/
structure Named (cluster : List String) (c : Members σ) : Prop where
  identified : Identified (c.known cluster)
  nonempty : ∀ p ∈ c.known cluster, p.2 ≠ ""

variable {cfg : σ → RaftConfig} {cluster : List String} {c c' : Members σ} {l : MemberStep σ}

theorem mem_apply {m : Membership} {change : ConfChange} {p : Nat × String}
    (h : p ∈ m.apply change) : p ∈ m ∨ added change = some p := by
  cases change with
  | AddNode id addr =>
    dsimp only [Membership.apply] at h
    split at h
    · exact .inl h
    · rcases List.mem_append.mp h with hmem | hnew
      · exact .inl hmem
      · exact .inr (congrArg some (List.mem_singleton.mp hnew).symm)
  | RemoveNode id => exact .inl (List.mem_of_mem_filter h)

omit [DecidableEq σ] in
theorem mem_known {p : Nat × String} : p ∈ c.known cluster ↔
    p ∈ c.membership cluster ∨ ∃ change ∈ c.proposed, added change = some p := by
  rw [known, List.mem_append, List.mem_filterMap]

omit [DecidableEq σ] in
/-- A step that proposes nothing adds nothing to what is known. -/
theorem known_of_subset {p : Nat × String} (hp : p ∈ c'.known cluster) (hlog : c'.log = c.log)
    (hproposed : ∀ x ∈ c'.proposed, x ∈ c.proposed) : p ∈ c.known cluster := by
  rw [mem_known, membership, hlog] at hp
  exact mem_known.mpr (hp.imp id fun ⟨change, hmem, hadd⟩ => ⟨change, hproposed change hmem, hadd⟩)

/-- What a step adds to the members and the proposals: the address that is asked for, under the
id that the table gives it. -/
theorem known_step (h : step cfg cluster c l = some c') {p : Nat × String}
    (hp : p ∈ c'.known cluster) : p ∈ c.known cluster ∨
      ∃ s addr refused, l = .AddNode s addr refused ∧ addr ≠ "" ∧
        p = ((tryAdd (c.node s).peers addr).1, addr) := by
  cases l with
  | AddNode s addr refused =>
    dsimp only [step] at h
    split at h
    · split at h
      · cases h
        exact .inl hp
      · next hne =>
        cases h
        rcases mem_known.mp hp with hmem | ⟨change, hchange, hadd⟩
        · exact .inl (mem_known.mpr (.inl hmem))
        · rcases List.mem_append.mp hchange with hold | hnew
          · exact .inl (mem_known.mpr (.inr ⟨change, hold, hadd⟩))
          · refine .inr ⟨s, addr, refused, rfl, hne, ?_⟩
            cases refused with
            | none =>
              rw [List.mem_singleton.mp hnew] at hadd
              exact (Option.some.inj hadd).symm
            | some err => exact absurd hnew List.not_mem_nil
    · cases h
  | RemoveNode s nodeID refused =>
    dsimp only [step] at h
    split at h
    · cases h
      rcases mem_known.mp hp with hmem | ⟨change, hchange, hadd⟩
      · exact .inl (mem_known.mpr (.inl hmem))
      · rcases List.mem_append.mp hchange with hold | hnew
        · exact .inl (mem_known.mpr (.inr ⟨change, hold, hadd⟩))
        · have hnone : added change = none := by
            unfold removePeer at hnew
            split at hnew
            · exact absurd hnew List.not_mem_nil
            · dsimp only at hnew
              split at hnew
              · exact absurd hnew List.not_mem_nil
              · split at hnew
                · exact absurd hnew List.not_mem_nil
                · cases refused with
                  | none => rw [List.mem_singleton.mp hnew, added]
                  | some err => exact absurd hnew List.not_mem_nil
          exact absurd (hnone.symm.trans hadd) (Option.some_ne_none p).symm
    · cases h
  | commit k =>
    obtain ⟨change, hk, rfl⟩ := Option.map_eq_some_iff.mp h
    left
    rcases mem_known.mp hp with hmem | ⟨x, hx, hadd⟩
    · rw [membership, List.foldl_append] at hmem
      rcases mem_apply hmem with hold | hadd
      · exact mem_known.mpr (.inl hold)
      · exact mem_known.mpr (.inr ⟨change, List.mem_of_getElem? hk, hadd⟩)
    · exact mem_known.mpr (.inr ⟨x, List.mem_of_mem_eraseIdx hx, hadd⟩)
  | lose k =>
    dsimp only [step] at h
    split at h
    · cases h
      exact .inl (known_of_subset hp rfl fun x hx => List.mem_of_mem_eraseIdx hx)
    · cases h
  | deliver s =>
    dsimp only [step] at h
    split at h
    · cases h
    · obtain ⟨change, -, rfl⟩ := Option.map_eq_some_iff.mp h
      exact .inl (known_of_subset hp rfl fun x hx => hx)
  | restart s applied =>
    dsimp only [step] at h
    split at h
    · cases h
      exact .inl (known_of_subset hp rfl fun x hx => hx)
    · cases h

/-- A member that is new was proposed. -/
theorem membership_step (h : step cfg cluster c l = some c') {p : Nat × String}
    (hp : p ∈ c'.membership cluster) : p ∈ c.known cluster := by
  have hold : c'.log = c.log → p ∈ c.known cluster := fun hlog =>
    mem_known.mpr (.inl (by rw [membership, hlog] at hp; exact hp))
  cases l with
  | commit k =>
    obtain ⟨change, hk, rfl⟩ := Option.map_eq_some_iff.mp h
    rw [membership, List.foldl_append] at hp
    rcases mem_apply hp with hmem | hadd
    · exact mem_known.mpr (.inl hmem)
    · exact mem_known.mpr (.inr ⟨change, List.mem_of_getElem? hk, hadd⟩)
  | AddNode s addr refused =>
    dsimp only [step] at h
    split at h
    · split at h <;> cases h <;> exact hold rfl
    · cases h
  | RemoveNode s nodeID refused =>
    dsimp only [step] at h
    split at h <;> cases h
    exact hold rfl
  | lose k =>
    dsimp only [step] at h
    split at h <;> cases h
    exact hold rfl
  | deliver s =>
    dsimp only [step] at h
    split at h
    · cases h
    · obtain ⟨change, -, rfl⟩ := Option.map_eq_some_iff.mp h
      exact hold rfl
  | restart s applied =>
    dsimp only [step] at h
    split at h <;> cases h
    exact hold rfl

/-- The id that an aware table gives is that of the address, or of no one. -/
theorem Aware.fresh {peers : List String} {m : Membership} {addr : String}
    (h : Aware peers m addr) (hne : ∀ p ∈ m, p.2 ≠ "") {p : Nat × String} (hp : p ∈ m) :
    p.1 = (tryAdd peers addr).1 ↔ p.2 = addr := by
  obtain ⟨hpos, hat, hfirst⟩ := h p hp
  obtain ⟨idx, hid, hslot⟩ := tryAdd_slot peers addr
  rw [hid]
  constructor
  · intro heq
    have hidx : p.1 - 1 = idx := by omega
    rw [hidx] at hat
    rcases hslot with ⟨hheld, -⟩ | ⟨-, hfree | hend⟩
    · exact Option.some.inj (hat.symm.trans hheld)
    · exact absurd (Option.some.inj (hat.symm.trans hfree)) (hne p hp)
    · exact absurd (hat.symm.trans hend) (Option.some_ne_none _)
  · intro haddr
    rcases hslot with ⟨-, hidx⟩ | ⟨hnew, -⟩
    · rw [hidx]
      exact hfirst haddr
    · exact absurd (haddr ▸ List.mem_of_getElem? hat) hnew

theorem Named.step (hi : Named cluster c) (hP : AddedAware cluster c l c')
    (h : Members.step cfg cluster c l = some c') : Named cluster c' := by
  have hfresh : ∀ p ∈ c.known cluster, ∀ s addr refused, l = .AddNode s addr refused →
      (p.1 = (tryAdd (c.node s).peers addr).1 ↔ p.2 = addr) := by
    intro p hp s addr refused hl
    subst hl
    exact Aware.fresh hP hi.nonempty hp
  refine ⟨fun p hp q hq => ?_, fun p hp => ?_⟩
  · rcases known_step h hp with hp | ⟨s, addr, refused, hl, -, rfl⟩
    · rcases known_step h hq with hq | ⟨s, addr, refused, hl, -, rfl⟩
      · exact hi.identified p hp q hq
      · exact hfresh p hp s addr refused hl
    · rcases known_step h hq with hq | ⟨s', addr', refused', hl', -, rfl⟩
      · exact eq_comm.trans ((hfresh q hq s addr refused hl).trans eq_comm)
      · cases hl.symm.trans hl'
        exact iff_of_true rfl rfl
  · rcases known_step h hp with hp | ⟨s, addr, refused, -, hne, rfl⟩
    · exact hi.nonempty p hp
    · exact hne

/-- An address that stays a member keeps its id. -/
def IdKept (cluster : List String) (c : Members σ) (_ : MemberStep σ) (c' : Members σ) : Prop :=
  ∀ p ∈ c.membership cluster, ∀ q ∈ c'.membership cluster, p.2 = q.2 → p.1 = q.1

omit [DecidableEq σ] in
theorem named_start (hnodup : cluster.Nodup) (hne : "" ∉ cluster) : Named cluster (start cfg) := by
  have hplace : ∀ p ∈ (start cfg).known cluster, ∃ i, ∃ h : i < cluster.length,
      p = (i + 1, cluster[i]) := by
    intro p hp
    rcases mem_known.mp hp with hmem | ⟨change, hchange, -⟩
    · obtain ⟨i, hi, heq⟩ := List.mem_mapIdx.mp hmem
      exact ⟨i, hi, heq.symm⟩
    · exact absurd hchange List.not_mem_nil
  refine ⟨fun p hp q hq => ?_, fun p hp hempty => ?_⟩
  · obtain ⟨i, hi, rfl⟩ := hplace p hp
    obtain ⟨j, hj, rfl⟩ := hplace q hq
    dsimp only
    rw [hnodup.getElem_inj_iff]
    omega
  · obtain ⟨i, hi, rfl⟩ := hplace p hp
    exact hne (hempty ▸ List.getElem_mem hi)

/-- In a run in which addresses are only added by nodes that are aware of the members, ids and
addresses of the members stay tied to each other. -/
theorem identified_of_addedAware (cfg : σ → RaftConfig) (cluster : List String)
    (hnodup : cluster.Nodup) (hne : "" ∉ cluster) (ls : List (MemberStep σ))
    (h : Transition.EachStep (step cfg cluster) (AddedAware cluster) (start cfg) ls) :
    Transition.EachState (step cfg cluster) (fun c => Identified (c.membership cluster))
        (start cfg) ls ∧
      Transition.EachStep (step cfg cluster) (IdKept cluster) (start cfg) ls := by
  have hsub : ∀ c : Members σ, ∀ p ∈ c.membership cluster, p ∈ c.known cluster :=
    fun c p hp => mem_known.mpr (.inl hp)
  have hinit : Named cluster (start cfg) := named_start hnodup hne
  constructor
  · refine (Transition.eachState_of_eachStep (Named cluster)
      (fun c l c' hi hP hs => ?_) hinit h).mono fun c hi => ?_
    · exact hi.step hP hs
    · exact fun p hp q hq => hi.identified p (hsub c p hp) q (hsub c q hq)
  · refine Transition.eachStep_of_eachStep (Named cluster)
      (fun c l c' hi hP hs => ?_) (fun c l c' hi hs _ => ?_) hinit h
    · exact hi.step hP hs
    · intro p hp q hq haddr
      exact (hi.identified p (hsub c p hp) q (membership_step hs hq)).mpr haddr

/-! Three nodes; the first adds a fourth, and then the second, whose table still has three
slots, adds another. -/

def threeNodes (s : Fin 3) : RaftConfig := ⟨["n1", "n2", "n3"].getD s "", ["n1", "n2", "n3"]⟩

def sameId : List (MemberStep (Fin 3)) :=
  [.AddNode 0 "n4" none, .commit 0, .deliver 0, .deliver 1, .deliver 2, .AddNode 1 "n5" none,
    .commit 0]

def ownTable : List (MemberStep (Fin 3)) :=
  [.AddNode 0 "n4" none, .commit 0, .deliver 1, .AddNode 0 "n5" none, .commit 0, .restart 1 0,
    .RemoveNode 1 2 none, .commit 0, .deliver 1]

theorem ownTable_identified :
    Transition.EachState (step threeNodes ["n1", "n2", "n3"])
        (fun c => Identified (c.membership ["n1", "n2", "n3"])) (start threeNodes) ownTable ∧
      Transition.EachStep (step threeNodes ["n1", "n2", "n3"]) (IdKept ["n1", "n2", "n3"])
        (start threeNodes) ownTable :=
  identified_of_addedAware threeNodes ["n1", "n2", "n3"] (by decide) (by decide) ownTable
    (by decide +kernel)

theorem sameId_not_identified :
    ¬ Transition.EachState (step threeNodes ["n1", "n2", "n3"])
      (fun c => Identified (c.membership ["n1", "n2", "n3"])) (start threeNodes) sameId := by
  intro h
  have hend : (Transition.run (step threeNodes ["n1", "n2", "n3"]) (start threeNodes) sameId).map
      (fun c => c.membership ["n1", "n2", "n3"]) =
        some [(1, "n1"), (2, "n2"), (3, "n3"), (4, "n4"), (4, "n5")] := by decide +kernel
  obtain ⟨c, hrun, hc⟩ := Option.map_eq_some_iff.mp hend
  have hid : Identified (c.membership ["n1", "n2", "n3"]) := h.of_run hrun
  rw [hc] at hid
  exact absurd ((hid (4, "n4") (by decide) (4, "n5") (by decide)).mp rfl) (by decide)

end Members

/-! ## A failed addNode -/

/-- `strings.TrimSpace(s) == ""`. -/
def blank (s : String) : Bool := s.toList.all isSpace

/-- The error of encoding the record of a member. -/
def encodeClusterMemberRecord (nodeID : Nat) (raftAddr grpcEndpoint : String) : Option GoError :=
  if nodeID = 0 then some (.text "node id is required")
  else if blank raftAddr then some (.text "raft addr is required")
  else if blank grpcEndpoint then some (.text "grpc endpoint is required")
  else none

/-- `saved` is the error of `SetKV`. -/
def upsertClusterMember (nodeID : Nat) (raftAddr grpcEndpoint : String) (saved : Option GoError) :
    Option GoError :=
  match encodeClusterMemberRecord nodeID raftAddr grpcEndpoint with
  | some err => some err
  | none => saved

/-- What `addNode` returns, the table and the configuration changes it leaves, and the outcome
of the compensating removal where that is tried. -/
structure AddNodeResult where
  nodeID : Nat
  returned : List String
  err : Option Fault
  peers : List String
  changes : List ConfChange
  removal : Option (Option Fault)

/-- `proposed`, `saved` and `removed` are the errors of the two proposals and of the write. -/
def addNode (peers : List String) (raftAddr grpcEndpoint : String)
    (proposed saved removed : Option GoError) : AddNodeResult :=
  if raftAddr = "" then
    ⟨0, [], some (.error (.text "raft addr is required")), peers, [], none⟩
  else if grpcEndpoint = "" then
    ⟨0, [], some (.error (.text "grpc endpoint is required")), peers, [], none⟩
  else
    let r := addPeer peers raftAddr proposed
    match r.err with
    | some err => ⟨r.nodeID, r.returned, some (.error err), r.peers, r.change.toList, none⟩
    | none =>
        match upsertClusterMember r.nodeID raftAddr grpcEndpoint saved with
        | none => ⟨r.nodeID, r.returned, none, r.peers, r.change.toList, none⟩
        | some err =>
            let (failed, left, change) := removePeer r.peers r.nodeID removed
            let err : Fault :=
              match failed with
              | none => .error (.errorf
                  "raft peer added but cluster member metadata was not updated; membership rolled back: " err)
              | some (.error rollbackErr) => .error (.wrap
                  ("raft peer added but cluster member metadata was not updated: " ++ err.message ++
                    "; rollback failed: " ++ rollbackErr.message) err)
              | some (.panic msg) => .panic msg
            ⟨r.nodeID, r.returned, some err, left, r.change.toList ++ change.toList, some failed⟩

/-- If the call fails, and the removal does not where it is tried, the members are those from
before. -/
def FailsClean (m : Membership) (r : AddNodeResult) : Prop :=
  r.err ≠ none → (∀ f, r.removal ≠ some (some f)) → r.changes.foldl Membership.apply m = m

/-- The removal that makes up for a lost metadata write removes a member. -/
structure RemovesMember (m : Membership) (peers : List String) (raftAddr grpcEndpoint : String)
    (proposed saved removed : Option GoError) : Prop where
  given : raftAddr ≠ "" ∧ grpcEndpoint ≠ ""
  added : proposed = none
  unsaved : blank raftAddr = true ∨ blank grpcEndpoint = true ∨ saved ≠ none
  removed : removed = none
  member : ∃ p ∈ m, p.1 = (tryAdd peers raftAddr).1

theorem tryAdd_lt (peers : List String) (peer : String) :
    ∃ idx, (tryAdd peers peer).1 = idx + 1 ∧ idx < (tryAdd peers peer).2.1.length ∧
      idx ≤ peers.length := by
  unfold tryAdd
  split
  · next idx hidx =>
    obtain ⟨hlt, -⟩ := List.idxOf?_eq_some_iff.mp hidx
    exact ⟨idx, rfl, hlt, hlt.le⟩
  · split
    · next idx hidx =>
      obtain ⟨hlt, -⟩ := List.idxOf?_eq_some_iff.mp hidx
      refine ⟨idx, rfl, ?_, hlt.le⟩
      show idx < (peers.set idx peer).length
      rw [List.length_set]
      exact hlt
    · refine ⟨peers.length, rfl, ?_, le_rfl⟩
      show peers.length < (peers ++ [peer]).length
      rw [List.length_append]
      exact Nat.lt_succ_self _

theorem removePeer_slot {peers : List String} {idx : Nat} (hlt : idx < peers.length)
    (hsmall : idx < 2 ^ 63) (refused : Option GoError) :
    ∃ left, removePeer peers (idx + 1) refused = match refused with
      | none => (none, left, some (.RemoveNode (idx + 1)))
      | some err => (some (.error (.errorf "raftNode failed to remove peer: "
          (.errorf "raftNode failed to changeConf: " err))), left, none) := by
  unfold removePeer
  rw [if_neg (Nat.succ_ne_zero idx)]
  dsimp only
  rw [Nat.add_sub_cancel, if_neg (by omega), if_neg (by omega)]
  cases refused with
  | none => exact ⟨_, rfl⟩
  | some err => exact ⟨_, rfl⟩

theorem upsertClusterMember_eq_none {idx : Nat} {raftAddr grpcEndpoint : String}
    {saved : Option GoError} : upsertClusterMember (idx + 1) raftAddr grpcEndpoint saved = none ↔
      ¬ (blank raftAddr = true ∨ blank grpcEndpoint = true ∨ saved ≠ none) := by
  unfold upsertClusterMember encodeClusterMemberRecord
  rw [if_neg (Nat.succ_ne_zero idx)]
  by_cases hr : blank raftAddr = true
  · simp [hr]
  · by_cases hg : blank grpcEndpoint = true
    · simp [hr, hg]
    · simp [hr, hg]

/-- An addition and the removal of the same id leave the members as they are, unless there was
one with that id. -/
theorem add_remove_iff (m : Membership) (id : Nat) (addr : String) :
    [ConfChange.AddNode id addr, .RemoveNode id].foldl Membership.apply m = m ↔
      ¬ ∃ p ∈ m, p.1 = id := by
  have heq : [ConfChange.AddNode id addr, .RemoveNode id].foldl Membership.apply m =
      m.filter fun p => p.1 ≠ id := by
    simp only [List.foldl_cons, List.foldl_nil, Membership.apply]
    split
    · rfl
    · rw [List.filter_append]
      simp
  rw [heq, List.filter_eq_self]
  constructor
  · rintro hall ⟨p, hp, hid⟩
    exact of_decide_eq_true (hall p hp) hid
  · intro hnone p hp
    exact decide_eq_true fun hid => hnone ⟨p, hp, hid⟩

/-- A failed `addNode` leaves the members as they were unless it removes, for a metadata write
that is lost, an id that a member has. -/
theorem failsClean_iff (m : Membership) (peers : List String) (hlen : peers.length < 2 ^ 63)
    (raftAddr grpcEndpoint : String) (proposed saved removed : Option GoError) :
    FailsClean m (addNode peers raftAddr grpcEndpoint proposed saved removed) ↔
      ¬ RemovesMember m peers raftAddr grpcEndpoint proposed saved removed := by
  have hclean : ∀ {r : AddNodeResult}, r.changes = [] → FailsClean m r :=
    fun hnil _ _ => by rw [hnil]; rfl
  unfold addNode
  by_cases hr : raftAddr = ""
  · rw [if_pos hr]
    exact iff_of_true (hclean rfl) fun h => h.given.1 hr
  rw [if_neg hr]
  by_cases hg : grpcEndpoint = ""
  · rw [if_pos hg]
    exact iff_of_true (hclean rfl) fun h => h.given.2 hg
  rw [if_neg hg]
  cases proposed with
  | some err => exact iff_of_true (hclean rfl) fun h => Option.some_ne_none _ h.added
  | none =>
    obtain ⟨idx, hid, hlt, hle⟩ := tryAdd_lt peers raftAddr
    dsimp only [addPeer]
    rw [hid]
    cases hsaved : upsertClusterMember (idx + 1) raftAddr grpcEndpoint saved with
    | none =>
      refine iff_of_true (fun herr => absurd rfl herr) fun h => ?_
      exact upsertClusterMember_eq_none.mp hsaved h.unsaved
    | some err =>
      have hunsaved : blank raftAddr = true ∨ blank grpcEndpoint = true ∨ saved ≠ none := by
        by_contra hno
        rw [upsertClusterMember_eq_none.mpr hno] at hsaved
        exact Option.some_ne_none err hsaved.symm
      obtain ⟨left, hremove⟩ := removePeer_slot hlt (hle.trans_lt hlen) removed
      dsimp only
      rw [hremove]
      cases removed with
      | some failed =>
        exact iff_of_true (fun _ hok => absurd rfl (hok _)) fun h => Option.some_ne_none _ h.removed
      | none =>
        constructor
        · intro hfails hmember
          have hsame := hfails (Option.some_ne_none _) fun f hf =>
            Option.some_ne_none f (Option.some.inj hf).symm
          exact (add_remove_iff m (idx + 1) raftAddr).mp hsame (hid ▸ hmember.member)
        · intro hno _ _
          refine (add_remove_iff m (idx + 1) raftAddr).mpr fun hmember => hno ?_
          exact ⟨⟨hr, hg⟩, rfl, hunsaved, rfl, hid ▸ hmember⟩

theorem newNode_failsClean_iff :
    FailsClean [(1, "n1"), (2, "n2")]
        (addNode ["n1", "n2"] "n3" "g3" none (some (.text "timeout")) none) ↔
      ¬ RemovesMember [(1, "n1"), (2, "n2")] ["n1", "n2"] "n3" "g3" none (some (.text "timeout"))
        none :=
  failsClean_iff [(1, "n1"), (2, "n2")] ["n1", "n2"] (by decide) "n3" "g3" none
    (some (.text "timeout")) none

/-- The address is that of a member, and the endpoint is blank. -/
theorem member_removed :
    ¬ FailsClean [(1, "n1"), (2, "n2")] (addNode ["n1", "n2"] "n2" " " none none none) := by
  intro h
  have hsame := h (Option.some_ne_none _) fun f hf => Option.some_ne_none f (Option.some.inj hf).symm
  have hleft : (addNode ["n1", "n2"] "n2" " " none none none).changes.foldl Membership.apply
      [(1, "n1"), (2, "n2")] = [(1, "n1")] := by decide
  exact absurd (hleft.symm.trans hsame) (by decide)

end Cassem.KV
