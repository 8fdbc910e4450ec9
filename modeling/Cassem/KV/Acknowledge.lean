import Cassem.Lib.Transition
import Cassem.KV.Cluster
import Mathlib.Data.Fintype.Basic

/-!
# Acknowledgements

A request is pending under an id that its node drew from its own counter, and the
log carries only the id. `resolvePending` looks it up on every node that applies
the entry, so an acknowledgement answers the request that proposed the entry
exactly as long as no entry of another node, or of an earlier run of the node,
carries an id that is pending there: it does as long as every id that is drawn is
that of no entry its node has still to apply, and pending nowhere else.
-/

namespace Cassem.KV

open Lib Lib.Transition

theorem getElem?_concat_iff {α : Type} {l : List α} {a b : α} {i : Nat} :
    (l ++ [a])[i]? = some b ↔ l[i]? = some b ∨ (i = l.length ∧ b = a) := by
  rw [List.getElem?_append]
  split
  · next hi => simp [Nat.ne_of_lt hi]
  · next hi =>
    have hnone : l[i]? = none := List.getElem?_eq_none (Nat.le_of_not_lt hi)
    rw [List.getElem?_singleton, hnone]
    constructor
    · intro h
      split at h
      · exact .inr ⟨by omega, (Option.some.inj h).symm⟩
      · cases h
    · rintro (h | ⟨rfl, rfl⟩)
      · cases h
      · simp

/-- Nothing is registered, and no pending request is added. -/
structure Member.Keeps (m m' : Member) : Prop where
  incarnation : m'.incarnation = m.incarnation
  registered : m'.registered = m.registered
  counter : m'.impl.nextRequestID = m.impl.nextRequestID
  pending : ∀ id q, SortedMap.lookup id m'.impl.pending = some q →
    SortedMap.lookup id m.impl.pending = some q

theorem Member.Keeps.refl (m : Member) : m.Keeps m := ⟨rfl, rfl, rfl, fun _ _ h => h⟩

/-- What applying an entry does to a node, as far as its requests are concerned. -/
theorem Member.applyEntry_spec (m : Member) (e : Entry) :
    ∃ err, (m.applyEntry e).impl.acks =
        m.impl.acks ++ (m.impl.resolved e.cmd.requestId).toList.map (fun q => (q, err)) ∧
      m.Keeps (m.applyEntry e) ∧
      (m.applyEntry e).done = m.done ++ if err = none then [e.request] else [] := by
  obtain ⟨err, hnone, hpend, hacks, hcount⟩ := applyMutateLogEntry_resolves m.impl e.cmd
  have hkeeps : ∀ id q, SortedMap.lookup id (applyMutateLogEntry m.impl e.cmd).1.pending = some q →
      SortedMap.lookup id m.impl.pending = some q := by
    intro id q hq
    rw [hpend] at hq
    exact RaftNode.lookup_of_resolvePending hq
  rw [RaftNode.resolvePending_acks] at hacks
  refine ⟨err, ?_⟩
  unfold Member.applyEntry
  rcases hr : applyMutateLogEntry m.impl e.cmd with ⟨impl, _ | ret⟩
  · rw [hr] at hnone hkeeps hacks hcount
    exact ⟨hacks, ⟨rfl, rfl, hcount, hkeeps⟩, by simp [hnone.mpr rfl]⟩
  · rw [hr] at hnone hkeeps hacks hcount
    have herr : err ≠ none := fun h => absurd (hnone.mp h) (by simp)
    exact ⟨hacks, ⟨rfl, rfl, hcount, hkeeps⟩, by simp [herr]⟩

namespace Cluster

variable {ν : Type}

/-- The acknowledgements that applying an entry sends answer its own request. -/
def ResolvesOwn (s : Cluster ν) (l : Label ν) (s' : Cluster ν) : Prop :=
  ∀ n e, l = .apply n → s.log[(s.nodes n).applied]? = some e →
    ∃ new, (s'.nodes n).impl.acks = (s.nodes n).impl.acks ++ new ∧
      ∀ ack ∈ new, ack.1 = e.request

/-- A request is answered without error only when its very command has been
committed, and applied by its node. -/
def AcksApplied (s : Cluster ν) : Prop :=
  ∀ q, (q, none) ∈ s.returns → ∃ r e, s.requests[q]? = some r ∧
    e ∈ s.log ∧ e.request = q ∧ e.cmd = r.cmd ∧ q ∈ (s.nodes r.node).done

/-- An entry whose id is pending on the node that applies it was proposed by that
node in its present run, less than a full turn of the counter ago. -/
def ProposedHere (s : Cluster ν) (l : Label ν) (_ : Cluster ν) : Prop :=
  ∀ n e, l = .apply n → s.log[(s.nodes n).applied]? = some e →
    ((s.nodes n).impl.resolved e.cmd.requestId).isSome →
    ∃ r, s.requests[e.request]? = some r ∧ r.node = n ∧
      r.incarnation = (s.nodes n).incarnation ∧ (s.nodes n).registered < r.seq + 2 ^ 64

instance [DecidableEq ν] (s : Cluster ν) (l : Label ν) (s' : Cluster ν) :
    Decidable (ProposedHere s l s') := by
  cases l with
  | apply n =>
    exact decidable_of_iff (∀ e ∈ s.log[(s.nodes n).applied]?,
        ((s.nodes n).impl.resolved e.cmd.requestId).isSome →
          ∃ r ∈ s.requests[e.request]?, r.node = n ∧ r.incarnation = (s.nodes n).incarnation ∧
            (s.nodes n).registered < r.seq + 2 ^ 64)
      ⟨fun h _ e hl he => by cases hl; exact h e he, fun h e he => h n e rfl he⟩
  | _ => exact isTrue fun _ _ hl => nomatch hl

/-! ## Pending requests -/

/-- The request stands for the command in a proposal, in the log, or in a thread
about to propose it. -/
def Holds (s : Cluster ν) (q : Nat) (cmd : MutateCommand) : Prop :=
  (∃ e, (e ∈ s.proposed ∨ e ∈ s.log) ∧ e.request = q ∧ e.cmd = cmd) ∨
  ∃ th ∈ s.threads, ∃ observed next, th.pc = .propose q cmd observed next

structure Registered (s : Cluster ν) : Prop where
  counter : ∀ n, (s.nodes n).impl.nextRequestID = (s.nodes n).registered % 2 ^ 64
  pending : ∀ n id q, SortedMap.lookup id (s.nodes n).impl.pending = some q →
    ∃ r, s.requests[q]? = some r ∧ r.node = n ∧ r.incarnation = (s.nodes n).incarnation ∧
      r.seq % 2 ^ 64 = id ∧ (s.nodes n).registered < r.seq + 2 ^ 64
  bounded : ∀ (q : Nat) (r : Request ν), s.requests[q]? = some r →
    r.cmd.requestId = r.seq % 2 ^ 64 ∧ r.incarnation ≤ (s.nodes r.node).incarnation ∧
      (r.incarnation = (s.nodes r.node).incarnation → r.seq ≤ (s.nodes r.node).registered)
  unique : ∀ (q q' : Nat) (r r' : Request ν), s.requests[q]? = some r → s.requests[q']? = some r' →
    r.node = r'.node → r.incarnation = r'.incarnation → r.seq = r'.seq → q = q'
  holds : ∀ q cmd, s.Holds q cmd → ∃ r, s.requests[q]? = some r ∧ r.cmd = cmd

theorem Registered.of_keeps {s s' : Cluster ν} (h : s.Registered)
    (hnodes : ∀ n, (s.nodes n).Keeps (s'.nodes n)) (hreq : s'.requests = s.requests)
    (hholds : ∀ q cmd, s'.Holds q cmd → s.Holds q cmd) : s'.Registered where
  counter n := by rw [(hnodes n).counter, (hnodes n).registered, h.counter]
  pending n id q hq := by
    rw [hreq, (hnodes n).incarnation, (hnodes n).registered]
    exact h.pending n id q ((hnodes n).pending id q hq)
  bounded q r hr := by
    rw [(hnodes _).incarnation, (hnodes _).registered]
    exact h.bounded q r (hreq ▸ hr)
  unique q q' r r' hr hr' := h.unique q q' r r' (hreq ▸ hr) (hreq ▸ hr')
  holds q cmd hq := by
    rw [hreq]
    exact h.holds q cmd (hholds q cmd hq)

theorem resume_not_propose (err : Option GoError) (next : Then) (q : Nat) (cmd : MutateCommand)
    (observed : Option Observation) (next' : Then) :
    next.resume err ≠ .propose q cmd observed next' := by
  cases next with
  | sweep rest => cases rest <;> exact nofun
  | _ => exact nofun

theorem advance_not_propose {md5 : Bytes → String} {now : Int} {node : Member} {pc pc' : Pc}
    {spawned : Option Pc} (h : pc.advance md5 now node = some (pc', spawned)) (q : Nat)
    (cmd : MutateCommand) (observed : Option Observation) (next : Then) :
    pc' ≠ .propose q cmd observed next ∧ spawned ≠ some (.propose q cmd observed next) := by
  cases Pc.advance_cases h with
  | sweep req touched rows =>
    exact ⟨nofun, fun heq =>
      resume_not_propose none (.sweep _) q cmd observed next (Option.some.inj heq)⟩
  | _ => exact ⟨nofun, nofun⟩

theorem holds_setPc {s : Cluster ν} {t : Nat} {th : Thread ν} {pc : Pc} {q : Nat}
    {cmd : MutateCommand} (hpc : ∀ observed next, pc ≠ .propose q cmd observed next)
    (h : (s.setPc t th pc).Holds q cmd) : s.Holds q cmd := by
  refine h.imp_right ?_
  rintro ⟨th', hth', observed, next, hp⟩
  rcases mem_threads_setPc hth' with hmem | rfl
  · exact ⟨th', hmem, observed, next, hp⟩
  · exact absurd hp (hpc observed next)

theorem holds_spawn {s : Cluster ν} {n : ν} {pc : Option Pc} {q : Nat} {cmd : MutateCommand}
    (hpc : ∀ observed next, pc ≠ some (.propose q cmd observed next))
    (h : (s.spawn n pc).Holds q cmd) : s.Holds q cmd := by
  refine h.imp_right ?_
  rintro ⟨th, hth, observed, next, hp⟩
  rcases mem_threads_spawn hth with hmem | ⟨pc', hpc', rfl⟩
  · exact ⟨th, hmem, observed, next, hp⟩
  · exact absurd (by rw [hpc']; exact congrArg some hp) (hpc observed next)

theorem registered_init : (({} : Cluster ν)).Registered where
  counter _ := rfl
  pending _ _ _ h := by simp at h
  bounded _ _ h := by simp at h
  unique _ _ _ _ h := by simp at h
  holds _ _ h := by simp [Holds] at h

variable [DecidableEq ν]

/-- What relates every member to itself relates the nodes before and after the update
of one of them. -/
theorem forall_setNode {R : Member → Member → Prop} (hrefl : ∀ m, R m m) {s : Cluster ν} {n : ν}
    {m : Member} (h : R (s.nodes n) m) (k : ν) : R (s.nodes k) ((s.setNode n m).nodes k) := by
  rw [setNode_nodes]
  split
  · next hk => exact hk ▸ h
  · exact hrefl _

theorem keeps_setNode {s : Cluster ν} {n : ν} {m : Member} (h : (s.nodes n).Keeps m) (k : ν) :
    (s.nodes k).Keeps ((s.setNode n m).nodes k) :=
  forall_setNode .refl h k

/-- A registration on a node that serves: the next id, and one more request. -/
theorem register_of_serving {s : Cluster ν} (h : s.Registered) {t : Nat} {th : Thread ν}
    (hup : (s.nodes th.node).impl.shuttingDown = false) (cmd : MutateCommand)
    (observed : Option Observation) (next : Then) :
    let node := s.nodes th.node
    let id := (node.registered + 1) % 2 ^ 64
    s.register t th cmd observed next =
      { (s.setPc t th (.propose s.requests.length { cmd with requestId := id } observed next)).setNode
          th.node { node with
            impl := { node.impl with
              nextRequestID := id
              pending := SortedMap.insert id s.requests.length node.impl.pending }
            registered := node.registered + 1 } with
        requests := s.requests ++
          [⟨th.node, node.incarnation, node.registered + 1, { cmd with requestId := id }⟩] } := by
  have hid : ((s.nodes th.node).impl.nextRequestID + 1) % 2 ^ 64 =
      ((s.nodes th.node).registered + 1) % 2 ^ 64 := by
    rw [h.counter]
    omega
  simp only [register, RaftNode.registerPending, hup, Bool.false_eq_true, ↓reduceIte, hid]
  rfl

theorem registered_register {s : Cluster ν} (h : s.Registered) {t : Nat} {th : Thread ν}
    (cmd : MutateCommand) (observed : Option Observation) (next : Then) :
    (s.register t th cmd observed next).Registered := by
  cases hup : (s.nodes th.node).impl.shuttingDown with
  | true =>
    simp only [register, RaftNode.registerPending, hup, ↓reduceIte]
    exact h.of_keeps (fun n => .refl _) rfl
      (fun q cmd' => holds_setPc (resume_not_propose _ next q cmd'))
  | false =>
    rw [register_of_serving h hup]
    generalize hid : ((s.nodes th.node).registered + 1) % 2 ^ 64 = id
    refine ⟨fun n => ?_, fun n id' q hq => ?_, fun q r hr => ?_, fun q q' r r' hr hr' => ?_,
      fun q cmd' hq => ?_⟩
    · dsimp only
      rw [setNode_nodes]
      split
      · exact hid.symm
      · exact h.counter n
    · dsimp only at hq ⊢
      rw [setNode_nodes] at hq ⊢
      split at hq
      · next hn =>
        simp only [hn, ↓reduceIte]
        dsimp only at hq
        rw [SortedMap.lookup_insert] at hq
        split at hq
        · next hid' =>
          cases hq
          exact ⟨_, getElem?_concat_iff.mpr (.inr ⟨rfl, rfl⟩), rfl, rfl, hid.trans hid'.symm, by
            dsimp only
            omega⟩
        · next hid' =>
          obtain ⟨r, hr, hnode, hinc, hseq, hturn⟩ := h.pending th.node id' q hq
          refine ⟨r, getElem?_concat_iff.mpr (.inl hr), hnode, hinc, hseq, ?_⟩
          have : (s.nodes th.node).registered + 1 ≠ r.seq + 2 ^ 64 := by
            intro heq
            apply hid'
            rw [← hseq, ← hid, heq]
            omega
          omega
      · next hn =>
        simp only [hn, ↓reduceIte]
        obtain ⟨r, hr, hrest⟩ := h.pending n id' q hq
        exact ⟨r, getElem?_concat_iff.mpr (.inl hr), hrest⟩
    · dsimp only
      rw [setNode_nodes]
      rcases getElem?_concat_iff.mp hr with hr | ⟨-, rfl⟩
      · obtain ⟨hcmd, hinc, hseq⟩ := h.bounded q r hr
        refine ⟨hcmd, ?_⟩
        split
        · next hn =>
          dsimp only
          rw [← hn]
          exact ⟨hinc, fun hi => (hseq hi).trans (Nat.le_succ _)⟩
        · exact ⟨hinc, hseq⟩
      · exact ⟨hid.symm, by simp⟩
    · have hlt : ∀ {q : Nat} {r : Request ν}, s.requests[q]? = some r → r.node = th.node →
          r.incarnation = (s.nodes th.node).incarnation →
          r.seq ≠ (s.nodes th.node).registered + 1 := by
        intro q r hr hn hi
        have := (h.bounded q r hr).2.2 (by rw [hn, hi])
        rw [hn] at this
        omega
      rcases getElem?_concat_iff.mp hr with hr | ⟨rfl, rfl⟩
      · rcases getElem?_concat_iff.mp hr' with hr' | ⟨rfl, rfl⟩
        · exact h.unique q q' r r' hr hr'
        · exact fun hn hi hs => absurd hs (hlt hr hn hi)
      · rcases getElem?_concat_iff.mp hr' with hr' | ⟨rfl, -⟩
        · exact fun hn hi hs => absurd hs.symm (hlt hr' hn.symm hi.symm)
        · exact fun _ _ _ => rfl
    · rcases hq with ⟨e, he, hqe⟩ | ⟨th', hth', observed', next', hp⟩
      · obtain ⟨r, hr, hcmd⟩ := h.holds q cmd' (.inl ⟨e, he, hqe⟩)
        exact ⟨r, getElem?_concat_iff.mpr (.inl hr), hcmd⟩
      · rcases mem_threads_setPc hth' with hmem | rfl
        · obtain ⟨r, hr, hcmd⟩ := h.holds q cmd' (.inr ⟨th', hmem, observed', next', hp⟩)
          exact ⟨r, getElem?_concat_iff.mpr (.inl hr), hcmd⟩
        · cases hp
          exact ⟨_, getElem?_concat_iff.mpr (.inr ⟨rfl, rfl⟩), rfl⟩

theorem setup_fresh (db : Store) (snapshot : Option Store) :
    (setup ({ kvstore := db } : RaftNode Nat) snapshot).pending = [] ∧
    (setup ({ kvstore := db } : RaftNode Nat) snapshot).nextRequestID = 0 ∧
    (setup ({ kvstore := db } : RaftNode Nat) snapshot).acks = [] := by
  cases snapshot <;> exact ⟨rfl, rfl, rfl⟩

/-- A new run of a node starts with nothing pending, and its requests are told from
those of earlier runs. -/
theorem registered_restart {s : Cluster ν} (h : s.Registered) (n : ν) :
    (s.restart n).Registered := by
  obtain ⟨hpend, hcount, -⟩ := setup_fresh (s.nodes n).impl.kvstore
    ((s.nodes n).snapshot.map (·.data))
  unfold restart
  refine ⟨fun k => ?_, fun k id q hq => ?_, fun q r hr => ?_, h.unique, fun q cmd hq => ?_⟩
  · dsimp only
    rw [setNode_nodes]
    split
    · exact hcount
    · exact h.counter k
  · dsimp only at hq ⊢
    rw [setNode_nodes] at hq ⊢
    split at hq
    · simp [hpend] at hq
    · next hk =>
      simp only [hk, ↓reduceIte]
      exact h.pending k id q hq
  · obtain ⟨hcmd, hinc, hseq⟩ := h.bounded q r hr
    dsimp only
    rw [setNode_nodes]
    refine ⟨hcmd, ?_⟩
    split
    · next hn =>
      rw [← hn]
      dsimp only
      exact ⟨by omega, fun hi => by omega⟩
    · exact ⟨hinc, hseq⟩
  · refine h.holds q cmd (hq.imp_right ?_)
    rintro ⟨th, hth, observed, next, hp⟩
    obtain ⟨th', hth', rfl⟩ := List.mem_map.mp hth
    split at hp
    · cases hp
    · exact ⟨th', hth', observed, next, hp⟩

theorem finish_keeps (s : Cluster ν) (t : Nat) (th : Thread ν) (q : Nat) (cmd : MutateCommand)
    (next : Then) (err : Option GoError) (k : ν) :
    (s.nodes k).Keeps ((s.finish t th q cmd next err).nodes k) := by
  refine keeps_setNode (m := { s.nodes th.node with
    impl := (s.nodes th.node).impl.cleanup cmd.requestId }) ⟨rfl, rfl, rfl, fun id q' hq => ?_⟩ k
  rw [RaftNode.cleanup, SortedMap.lookup_erase] at hq
  split at hq
  · cases hq
  · exact hq

theorem registered_step {md5 : Bytes → String} {s s' : Cluster ν} {l : Label ν}
    (h : s.Registered) (hs : step md5 s l = some s') : s'.Registered := by
  cases moves_of_step hs with
  | call n c =>
    refine h.of_keeps (fun _ => .refl _) rfl fun q cmd => holds_spawn fun observed next => ?_
    cases c <;> exact nofun
  | advance hth hpc =>
    refine h.of_keeps (fun _ => .refl _) rfl fun q cmd hq => ?_
    have hno := advance_not_propose hpc q cmd
    exact holds_setPc (fun o n => (hno o n).1) (holds_spawn (fun o n => (hno o n).2) hq)
  | register hth hpc => exact registered_register h _ _ _
  | @propose t th request cmd observed next hth hpc =>
    refine h.of_keeps (fun _ => .refl _) rfl fun q cmd' hq => ?_
    rcases hq with ⟨e, he, rfl, rfl⟩ | hq
    · rcases he with he | he
      · rcases List.mem_append.mp he with he | he
        · exact .inl ⟨e, .inl he, rfl, rfl⟩
        · rw [List.mem_singleton.mp he]
          exact .inr ⟨th, List.mem_of_getElem? hth, observed, next, hpc⟩
      · exact .inl ⟨e, .inr he, rfl, rfl⟩
    · have hq' : (s.setPc t th (.waitPending request cmd next)).Holds q cmd' := .inr hq
      exact holds_setPc (fun _ _ heq => by cases heq) hq'
  | finish hth hl hend =>
    refine h.of_keeps (finish_keeps s _ _ _ _ _ _) rfl fun q cmd' hq => ?_
    exact holds_setPc (resume_not_propose _ _ q cmd') hq
  | commit he =>
    refine h.of_keeps (fun _ => .refl _) rfl fun q cmd hq => hq.imp_left ?_
    rintro ⟨e', he', hqe⟩
    rcases he' with he' | he'
    · exact ⟨e', .inl (List.mem_of_mem_eraseIdx he'), hqe⟩
    · rcases List.mem_append.mp he' with he' | he'
      · exact ⟨e', .inr he', hqe⟩
      · rw [List.mem_singleton.mp he'] at hqe
        exact ⟨_, .inl (List.mem_of_getElem? he), hqe⟩
  | drop he =>
    refine h.of_keeps (fun _ => .refl _) rfl fun q cmd hq => hq.imp_left ?_
    rintro ⟨e', he', hqe⟩
    exact ⟨e', he'.imp_left List.mem_of_mem_eraseIdx, hqe⟩
  | @apply n e hloop he =>
    obtain ⟨err, -, hkeeps, -⟩ := Member.applyEntry_spec (s.nodes n) e
    exact h.of_keeps (keeps_setNode hkeeps) rfl fun q cmd hq => hq
  | tick seconds => exact h.of_keeps (fun _ => .refl _) rfl fun q cmd hq => hq
  | shutdown n =>
    refine h.of_keeps (keeps_setNode ⟨rfl, rfl, ?_, ?_⟩) rfl fun q cmd hq => hq
    · unfold RaftNode.shutdown
      split <;> rfl
    · intro id q hq
      unfold RaftNode.shutdown at hq
      split at hq
      · exact hq
      · simp [RaftNode.failAllPending] at hq
  | restart n => exact registered_restart h n
  | snapshot n => exact h.of_keeps (keeps_setNode ⟨rfl, rfl, rfl, fun _ _ hq => hq⟩) rfl fun _ _ hq => hq
  | install hsnap hnew =>
    exact h.of_keeps (keeps_setNode ⟨rfl, rfl, rfl, fun _ _ hq => hq⟩) rfl fun _ _ hq => hq

/-! ## Whose request an entry resolves -/

omit [DecidableEq ν] in
/-- A pending request is the one that proposed the entry exactly when that one was
registered by the same run of the same node, in the same turn of its counter. -/
theorem resolved_own_iff {s : Cluster ν} (h : s.Registered) {n : ν} {e : Entry} (he : e ∈ s.log)
    {q : Nat} (hq : (s.nodes n).impl.resolved e.cmd.requestId = some q) :
    q = e.request ↔ ∃ r, s.requests[e.request]? = some r ∧ r.node = n ∧
      r.incarnation = (s.nodes n).incarnation ∧ (s.nodes n).registered < r.seq + 2 ^ 64 := by
  have hlookup : SortedMap.lookup e.cmd.requestId (s.nodes n).impl.pending = some q := by
    unfold RaftNode.resolved at hq
    split at hq
    · cases hq
    · exact hq
  obtain ⟨r, hr, hnode, hinc, hseq, hturn⟩ := h.pending n _ q hlookup
  constructor
  · rintro rfl
    exact ⟨r, hr, hnode, hinc, hturn⟩
  · rintro ⟨r', hr', hnode', hinc', hturn'⟩
    obtain ⟨r₀, hr₀, hcmd⟩ := h.holds e.request e.cmd (.inl ⟨e, .inr he, rfl, rfl⟩)
    rw [hr'] at hr₀
    cases hr₀
    obtain ⟨hid', -, hle'⟩ := h.bounded e.request r' hr'
    obtain ⟨-, -, hle⟩ := h.bounded q r hr
    have hle' := hle' (by rw [hinc', hnode'])
    have hle := hle (by rw [hinc, hnode])
    rw [hnode'] at hle'
    rw [hnode] at hle
    rw [hcmd] at hid'
    -- both numbers lie within one turn of the counter and give the same id
    have hsame : r.seq = r'.seq := by omega
    exact h.unique q e.request r r' hr hr' (hnode.trans hnode'.symm) (hinc.trans hinc'.symm) hsame

theorem apply_target {md5 : Bytes → String} {s s' : Cluster ν} {n : ν} {e : Entry}
    (hs : step md5 s (.apply n) = some s') (he : s.log[(s.nodes n).applied]? = some e) :
    s' = s.setNode n ((s.nodes n).applyEntry e) := by
  cases moves_of_step hs with
  | apply hloop he' =>
    rw [he] at he'
    cases he'
    rfl
  | finish hth hl hend =>
    rcases hl with hl | ⟨err, hl⟩
    · cases hl
    · cases hl

theorem resolvesOwn_iff {md5 : Bytes → String} {s s' : Cluster ν} {l : Label ν}
    (h : s.Registered) (hs : step md5 s l = some s') :
    ResolvesOwn s l s' ↔ ProposedHere s l s' := by
  have hnew : ∀ n e, l = .apply n → s.log[(s.nodes n).applied]? = some e →
      ∃ err, (s'.nodes n).impl.acks = (s.nodes n).impl.acks ++
        ((s.nodes n).impl.resolved e.cmd.requestId).toList.map (fun q => (q, err)) := by
    rintro n e rfl he
    obtain ⟨err, hacks, -⟩ := Member.applyEntry_spec (s.nodes n) e
    refine ⟨err, ?_⟩
    rw [apply_target hs he, setNode_nodes, if_pos rfl, hacks]
  constructor
  · intro hown n e hl he hsome
    obtain ⟨q, hq⟩ := Option.isSome_iff_exists.mp hsome
    obtain ⟨err, hacks⟩ := hnew n e hl he
    obtain ⟨new, hacks', hall⟩ := hown n e hl he
    rw [hacks, List.append_cancel_left_eq, hq] at hacks'
    have hmine : q = e.request := hall (q, err) (by rw [← hacks']; simp)
    exact (resolved_own_iff h (List.mem_of_getElem? he) hq).mp hmine
  · intro hhere n e hl he
    obtain ⟨err, hacks⟩ := hnew n e hl he
    refine ⟨_, hacks, fun ack hack => ?_⟩
    obtain ⟨q, hq, rfl⟩ := List.mem_map.mp hack
    have hq' := Option.mem_toList.mp hq
    exact (resolved_own_iff h (List.mem_of_getElem? he) hq').mpr
      (hhere n e hl he (by rw [hq']; rfl))

/-! ## Returning without error -/

structure Acked (s : Cluster ν) : Prop where
  acks : ∀ n q, (q, none) ∈ (s.nodes n).impl.acks →
    (∃ r, s.requests[q]? = some r ∧ r.node = n) ∧ q ∈ (s.nodes n).done
  returns : ∀ q, (q, none) ∈ s.returns →
    ∃ r, s.requests[q]? = some r ∧ q ∈ (s.nodes r.node).done
  done : ∀ n q, q ∈ (s.nodes n).done → ∃ e ∈ s.log, e.request = q

omit [DecidableEq ν] in
theorem acked_init : ({} : Cluster ν).Acked where
  acks _ _ h := by simp at h
  returns _ h := by simp at h
  done _ _ h := by simp at h

/-- Nothing is acknowledged without error, and nothing is applied. -/
def KeepsAcks (m m' : Member) : Prop :=
  (∀ q, (q, none) ∈ m'.impl.acks → (q, none) ∈ m.impl.acks) ∧ m'.done = m.done

omit [DecidableEq ν] in
theorem Acked.of_keeps {s s' : Cluster ν} (h : s.Acked)
    (hnodes : ∀ n, KeepsAcks (s.nodes n) (s'.nodes n))
    (hreq : ∀ (q : Nat) (r : Request ν), s.requests[q]? = some r → s'.requests[q]? = some r)
    (hlog : ∀ e ∈ s.log, e ∈ s'.log)
    (hret : ∀ q, (q, none) ∈ s'.returns →
      (q, none) ∈ s.returns ∨ ∃ n, (q, none) ∈ (s.nodes n).impl.acks) : s'.Acked where
  acks n q hq := by
    obtain ⟨⟨r, hr, hn⟩, hdone⟩ := h.acks n q ((hnodes n).1 q hq)
    exact ⟨⟨r, hreq q r hr, hn⟩, by rw [(hnodes n).2]; exact hdone⟩
  returns q hq := by
    rcases hret q hq with hq | ⟨n, hq⟩
    · obtain ⟨r, hr, hdone⟩ := h.returns q hq
      exact ⟨r, hreq q r hr, by rw [(hnodes _).2]; exact hdone⟩
    · obtain ⟨⟨r, hr, rfl⟩, hdone⟩ := h.acks n q hq
      exact ⟨r, hreq q r hr, by rw [(hnodes _).2]; exact hdone⟩
  done n q hq := by
    rw [(hnodes n).2] at hq
    obtain ⟨e, he, hreq⟩ := h.done n q hq
    exact ⟨e, hlog e he, hreq⟩

theorem keepsAcks_refl (m : Member) : KeepsAcks m m := ⟨fun _ h => h, rfl⟩

/-- Applying an entry acknowledges its own request, which the node has then applied. -/
theorem acked_apply {s : Cluster ν} (h : s.Acked) (hreg : s.Registered) {n : ν} {e : Entry}
    (he : s.log[(s.nodes n).applied]? = some e)
    (hown : ∀ q, (s.nodes n).impl.resolved e.cmd.requestId = some q → q = e.request) :
    (s.setNode n ((s.nodes n).applyEntry e)).Acked := by
  obtain ⟨err, hacks, -, hdone⟩ := Member.applyEntry_spec (s.nodes n) e
  have hkept : ∀ k q, q ∈ (s.nodes k).done →
      q ∈ ((s.setNode n ((s.nodes n).applyEntry e)).nodes k).done := by
    intro k q hq
    rw [setNode_nodes]
    split
    · next hk => exact hdone ▸ List.mem_append_left _ (hk ▸ hq)
    · exact hq
  refine ⟨fun k q hq => ?_, fun q hq => ?_, fun k q hq => ?_⟩
  · rw [setNode_nodes] at hq
    split at hq
    · next hk =>
      subst hk
      rw [hacks] at hq
      rcases List.mem_append.mp hq with hq | hq
      · exact ⟨(h.acks k q hq).1, hkept k q (h.acks k q hq).2⟩
      · obtain ⟨q', hq', heq⟩ := List.mem_map.mp hq
        cases heq
        have hres := Option.mem_toList.mp hq'
        obtain ⟨r, hr, hn, -⟩ := (resolved_own_iff hreg (List.mem_of_getElem? he) hres).mp
          (hown q hres)
        rw [← hown q hres] at hr
        refine ⟨⟨r, hr, hn⟩, ?_⟩
        rw [setNode_nodes, if_pos rfl, hdone, hown q hres]
        simp
    · exact ⟨(h.acks k q hq).1, hkept k q (h.acks k q hq).2⟩
  · obtain ⟨r, hr, hq⟩ := h.returns q hq
    exact ⟨r, hr, hkept r.node q hq⟩
  · rw [setNode_nodes] at hq
    split at hq
    · rw [hdone] at hq
      rcases List.mem_append.mp hq with hq | hq
      · exact h.done n q hq
      · split at hq
        · exact ⟨e, List.mem_of_getElem? he, (List.mem_singleton.mp hq).symm⟩
        · cases hq
    · exact h.done k q hq

theorem acked_step {md5 : Bytes → String} {s s' : Cluster ν} {l : Label ν} (h : s.Acked)
    (hreg : s.Registered) (hown : ResolvesOwn s l s') (hs : step md5 s l = some s') :
    s'.Acked := by
  have hsame : ∀ n, KeepsAcks (s.nodes n) (s.nodes n) := fun n => keepsAcks_refl _
  cases moves_of_step hs with
  | call n c => exact h.of_keeps hsame (fun _ _ hr => hr) (fun _ he => he) fun _ hq => .inl hq
  | advance hth hpc =>
    exact h.of_keeps hsame (fun _ _ hr => hr) (fun _ he => he) fun _ hq => .inl hq
  | @register t th cmd observed next hth hpc =>
    cases hup : (s.nodes th.node).impl.shuttingDown with
    | true =>
      simp only [register, RaftNode.registerPending, hup, ↓reduceIte]
      exact h.of_keeps hsame (fun _ _ hr => hr) (fun _ he => he) fun _ hq => .inl hq
    | false =>
      rw [register_of_serving hreg hup]
      exact h.of_keeps (forall_setNode keepsAcks_refl ⟨fun _ hq => hq, rfl⟩)
        (fun _ _ hr => getElem?_concat_iff.mpr (.inl hr)) (fun _ he => he) fun _ hq => .inl hq
  | propose hth hpc =>
    exact h.of_keeps hsame (fun _ _ hr => hr) (fun _ he => he) fun _ hq => .inl hq
  | @finish _ t th request cmd next err hth hl hend =>
    refine h.of_keeps (forall_setNode keepsAcks_refl ⟨fun _ hq => hq, rfl⟩) (fun _ _ hr => hr)
      (fun _ he => he) fun q hq => ?_
    rcases List.mem_append.mp hq with hq | hq
    · exact .inl hq
    · cases List.mem_singleton.mp hq
      rcases hend with ⟨_, -, hne⟩ | ⟨-, hne | hack⟩
      · exact absurd rfl hne
      · exact absurd rfl hne
      · exact .inr ⟨th.node, hack⟩
  | commit he =>
    exact h.of_keeps hsame (fun _ _ hr => hr) (fun _ he => List.mem_append_left _ he)
      fun _ hq => .inl hq
  | drop he => exact h.of_keeps hsame (fun _ _ hr => hr) (fun _ he => he) fun _ hq => .inl hq
  | @apply n e hloop he =>
    have hhere := (resolvesOwn_iff hreg hs).mp hown
    refine acked_apply h hreg he fun q hq => ?_
    exact (resolved_own_iff hreg (List.mem_of_getElem? he) hq).mpr
      (hhere n e rfl he (by rw [hq]; rfl))
  | tick seconds => exact h.of_keeps hsame (fun _ _ hr => hr) (fun _ he => he) fun _ hq => .inl hq
  | shutdown n =>
    refine h.of_keeps (forall_setNode keepsAcks_refl ⟨fun q hq => ?_, rfl⟩) (fun _ _ hr => hr)
      (fun _ he => he) fun _ hq => .inl hq
    unfold RaftNode.shutdown at hq
    split at hq
    · exact hq
    · rcases List.mem_append.mp hq with hq | hq
      · exact hq
      · obtain ⟨_, -, heq⟩ := List.mem_map.mp hq
        cases heq
  | restart n =>
    refine h.of_keeps (forall_setNode keepsAcks_refl ⟨fun q hq => ?_, rfl⟩) (fun _ _ hr => hr)
      (fun _ he => he) fun _ hq => .inl hq
    rw [(setup_fresh _ _).2.2] at hq
    cases hq
  | snapshot n =>
    exact h.of_keeps (forall_setNode keepsAcks_refl ⟨fun _ hq => hq, rfl⟩) (fun _ _ hr => hr)
      (fun _ he => he) fun _ hq => .inl hq
  | install hsnap hnew =>
    exact h.of_keeps (forall_setNode keepsAcks_refl ⟨fun _ hq => hq, rfl⟩) (fun _ _ hr => hr)
      (fun _ he => he) fun _ hq => .inl hq

omit [DecidableEq ν] in
theorem acksApplied_of_acked {s : Cluster ν} (h : s.Acked) (hreg : s.Registered) :
    s.AcksApplied := by
  intro q hq
  obtain ⟨r, hr, hdone⟩ := h.returns q hq
  obtain ⟨e, he, rfl⟩ := h.done r.node q hdone
  obtain ⟨r', hr', hcmd⟩ := hreg.holds e.request e.cmd (.inl ⟨e, .inr he, rfl, rfl⟩)
  rw [hr] at hr'
  cases hr'
  exact ⟨r, e, hr, he, rfl, hcmd.symm, hdone⟩

/-- In a run of the cluster from its start, every acknowledgement answers the request
that proposed the applied entry, and no call returns nil before its command has been
committed and applied by its node. -/
structure AcknowledgesCorrectly (md5 : Bytes → String) (ls : List (Label ν)) : Prop where
  own : EachStep (step md5) ResolvesOwn {} ls
  applied : EachState (step md5) AcksApplied {} ls

/-- Acknowledgements are correct exactly along the runs in which an entry whose id is
pending on the node that applies it was always proposed by that node, in its present
run and within one turn of its counter. -/
theorem acknowledgesCorrectly_iff (md5 : Bytes → String) (ls : List (Label ν)) :
    AcknowledgesCorrectly md5 ls ↔ EachStep (step md5) ProposedHere ({} : Cluster ν) ls := by
  have hiff : EachStep (step md5) ResolvesOwn ({} : Cluster ν) ls ↔
      EachStep (step md5) ProposedHere ({} : Cluster ν) ls :=
    eachStep_iff Registered (fun _ _ _ h hs => registered_step h hs)
      (fun _ _ _ h hs => resolvesOwn_iff h hs) registered_init ls
  refine ⟨fun h => hiff.mp h.own, fun h => ⟨hiff.mpr h, ?_⟩⟩
  have hall := eachState_of_eachStep (fun s => Registered s ∧ Acked s)
    (fun s l s' hinv hown hs => ⟨registered_step hinv.1 hs, acked_step hinv.2 hinv.1 hown hs⟩)
    ⟨registered_init, acked_init⟩ (hiff.mpr h)
  exact hall.mono fun s hs => acksApplied_of_acked hs.2 hs.1

/-! ## The ids that are drawn -/

end Cluster

/-- The request of a thread that is about to propose, and its id. -/
def Pc.proposing? : Pc → Option (Nat × Nat)
  | .propose request cmd _ _ => some (request, cmd.requestId)
  | _ => none

def Pc.isMutate : Pc → Bool
  | .mutate _ _ _ => true
  | _ => false

theorem Pc.proposing_resume (err : Option GoError) (next : Then) :
    (next.resume err).proposing? = none := by
  cases next with
  | sweep rest => cases rest <;> rfl
  | _ => rfl

theorem Pc.proposing_advance {md5 : Bytes → String} {now : Int} {node : Member} {pc pc' : Pc}
    {spawned : Option Pc} (h : pc.advance md5 now node = some (pc', spawned)) :
    pc'.proposing? = none ∧ ∀ pc₁, spawned = some pc₁ → pc₁.proposing? = none := by
  cases Pc.advance_cases h with
  | sweep req touched rows =>
    refine ⟨rfl, fun pc₁ hpc => ?_⟩
    cases hpc
    exact Pc.proposing_resume none (.sweep _)
  | _ => exact ⟨rfl, Cluster.of_none⟩

namespace Cluster

variable {ν : Type}

/-- The requests, with their ids, whose commands `n` has still to apply: about to be proposed,
proposed, or in the log ahead of it. -/
def ahead (s : Cluster ν) (n : ν) : List (Nat × Nat) :=
  s.threads.filterMap (fun th => th.pc.proposing?) ++
    (s.proposed ++ s.log.drop (s.nodes n).applied).map fun e => (e.request, e.cmd.requestId)

/-- The id that `n` draws next is not that of a command it has still to apply, whoever proposed
it, and it is pending on no other node. -/
def DrawsFresh (s : Cluster ν) (n : ν) : Prop :=
  let id := ((s.nodes n).impl.nextRequestID + 1) % 2 ^ 64
  (∀ p ∈ s.ahead n, p.2 ≠ id) ∧
    ∀ m, m ≠ n → SortedMap.lookup id (s.nodes m).impl.pending = none

/-- A request that is registered draws a fresh id. -/
def IdsApart (s : Cluster ν) : Label ν → Prop
  | .run t => ∀ th ∈ s.threads[t]?, th.pc.isMutate = true →
      (s.nodes th.node).impl.shuttingDown = false → s.DrawsFresh th.node
  | _ => True

/-- A command that a node has still to apply has an id that is pending there only when its own
request is. -/
def Apart (s : Cluster ν) : Prop :=
  ∀ n id q, SortedMap.lookup id (s.nodes n).impl.pending = some q →
    ∀ p ∈ s.ahead n, p.2 = id → p.1 = q

theorem mem_ahead {s : Cluster ν} {n : ν} {p : Nat × Nat} : p ∈ s.ahead n ↔
    (∃ th ∈ s.threads, th.pc.proposing? = some p) ∨
      ∃ e, (e ∈ s.proposed ∨ e ∈ s.log.drop (s.nodes n).applied) ∧
        (e.request, e.cmd.requestId) = p := by
  unfold ahead
  rw [List.mem_append, List.mem_filterMap, List.mem_map]
  simp only [List.mem_append]

/-- What a step needs to leave the ids apart: nothing more is pending, and nothing more is ahead
of a node on which something is. -/
theorem Apart.follow {s s' : Cluster ν} (h : s.Apart)
    (hstep : ∀ n id q, SortedMap.lookup id (s'.nodes n).impl.pending = some q →
      SortedMap.lookup id (s.nodes n).impl.pending = some q ∧
        ∀ p ∈ s'.ahead n, p ∈ s.ahead n) : s'.Apart := by
  intro n id q hq p hp
  obtain ⟨hold, hle⟩ := hstep n id q hq
  exact h n id q hold p (hle p hp)

/-- The part of the log that is ahead of a node does not grow when the node goes on. -/
theorem ahead_le {s s' : Cluster ν} {n : ν}
    (hthreads : ∀ th ∈ s'.threads, th ∈ s.threads ∨ th.pc.proposing? = none)
    (hproposed : ∀ e ∈ s'.proposed, e ∈ s.proposed) (hlog : s'.log = s.log)
    (happlied : (s.nodes n).applied ≤ (s'.nodes n).applied) :
    ∀ p ∈ s'.ahead n, p ∈ s.ahead n := by
  intro p hp
  rw [mem_ahead] at hp ⊢
  rcases hp with ⟨th, hth, hreq⟩ | ⟨e, he, hreq⟩
  · rcases hthreads th hth with hth | hnone
    · exact .inl ⟨th, hth, hreq⟩
    · exact absurd (hnone.symm.trans hreq) (Option.some_ne_none p).symm
  · refine .inr ⟨e, he.imp (hproposed e) fun he => ?_, hreq⟩
    rw [hlog] at he
    exact List.drop_subset_drop_left s.log happlied he

theorem apart_init : ({} : Cluster ν).Apart := by
  intro n id q hq
  cases hq

theorem threads_setPc {s : Cluster ν} {t : Nat} {th th' : Thread ν} {pc : Pc}
    (hpc : pc.proposing? = none) (h : th' ∈ (s.setPc t th pc).threads) :
    th' ∈ s.threads ∨ th'.pc.proposing? = none :=
  (mem_threads_setPc h).imp_right fun heq => by rw [heq]; exact hpc

theorem threads_spawn {s : Cluster ν} {n : ν} {pc : Option Pc} {th : Thread ν}
    (hpc : ∀ pc₁, pc = some pc₁ → pc₁.proposing? = none) (h : th ∈ (s.spawn n pc).threads) :
    th ∈ s.threads ∨ th.pc.proposing? = none := by
  rcases mem_threads_spawn h with hmem | ⟨pc₁, hpc₁, rfl⟩
  · exact .inl hmem
  · exact .inr (hpc pc₁ hpc₁)

variable [DecidableEq ν]

/-- A node draws a fresh id: nothing ahead of it has the id, and no other node waits for it. -/
theorem apart_register {s : Cluster ν} (h : s.Apart) (hreg : s.Registered) {t : Nat}
    {th : Thread ν} (cmd : MutateCommand) (observed : Option Observation) (next : Then)
    (hfresh : (s.nodes th.node).impl.shuttingDown = false → s.DrawsFresh th.node) :
    (s.register t th cmd observed next).Apart := by
  cases hup : (s.nodes th.node).impl.shuttingDown with
  | true =>
    simp only [register, RaftNode.registerPending, hup, ↓reduceIte]
    refine h.follow fun n id q hq => ⟨hq, ahead_le (fun th' hth' => ?_) (fun _ he => he) rfl le_rfl⟩
    exact threads_setPc (Pc.proposing_resume _ next) hth'
  | false =>
    obtain ⟨hahead, helse⟩ := hfresh hup
    have hid : ((s.nodes th.node).impl.nextRequestID + 1) % 2 ^ 64 =
        ((s.nodes th.node).registered + 1) % 2 ^ 64 := by
      rw [hreg.counter]
      omega
    rw [hid] at hahead helse
    rw [register_of_serving hreg hup]
    generalize ((s.nodes th.node).registered + 1) % 2 ^ 64 = new at hahead helse
    intro n id q hq p hp hpid
    -- what is ahead now was ahead before, or is the new request
    have hcases : p ∈ s.ahead n ∨ p = (s.requests.length, new) := by
      rw [mem_ahead] at hp ⊢
      rcases hp with ⟨th', hth', hreq⟩ | ⟨e, he, hreq⟩
      · rcases mem_threads_setPc hth' with hth' | rfl
        · exact .inl (.inl ⟨th', hth', hreq⟩)
        · exact .inr (Option.some.inj hreq).symm
      · refine .inl (.inr ⟨e, he.imp_right fun he => ?_, hreq⟩)
        dsimp only at he
        rw [setNode_nodes] at he
        split at he
        · next hn => exact hn ▸ he
        · exact he
    dsimp only at hq
    rw [setNode_nodes] at hq
    split at hq
    · next hn =>
      dsimp only at hq
      rw [SortedMap.lookup_insert] at hq
      split at hq
      · next hnew =>
        cases hq
        rcases hcases with hp | rfl
        · exact absurd (hpid.trans hnew) (hahead p (hn ▸ hp))
        · rfl
      · next hne =>
        rcases hcases with hp | rfl
        · exact h n id q (hn ▸ hq) p hp hpid
        · exact absurd hpid.symm hne
    · next hn =>
      rcases hcases with hp | rfl
      · exact h n id q hq p hp hpid
      · subst hpid
        exact absurd ((helse n hn).symm.trans hq) (Option.some_ne_none q).symm

theorem Apart.setNode {s : Cluster ν} (h : s.Apart) {n : ν} {m : Member}
    (hpending : ∀ id q, SortedMap.lookup id m.impl.pending = some q →
      SortedMap.lookup id (s.nodes n).impl.pending = some q ∧ (s.nodes n).applied ≤ m.applied) :
    (s.setNode n m).Apart := by
  refine h.follow fun k id q hq => ?_
  have hk : SortedMap.lookup id (s.nodes k).impl.pending = some q ∧
      (s.nodes k).applied ≤ ((s.setNode n m).nodes k).applied := by
    rw [setNode_nodes] at hq ⊢
    split at hq
    · next hkn =>
      rw [if_pos hkn, hkn]
      exact hpending id q hq
    · next hkn =>
      rw [if_neg hkn]
      exact ⟨hq, le_rfl⟩
  exact ⟨hk.1, ahead_le (fun _ hth => .inl hth) (fun _ he => he) rfl hk.2⟩

theorem apart_step {md5 : Bytes → String} {s s' : Cluster ν} {l : Label ν} (h : s.Apart)
    (hreg : s.Registered) (hl : s.IdsApart l) (hs : step md5 s l = some s') : s'.Apart := by
  cases moves_of_step hs with
  | call n c =>
    refine h.follow fun k id q hq => ⟨hq, ahead_le (fun th hth => ?_) (fun _ he => he) rfl le_rfl⟩
    refine threads_spawn (fun pc₁ hpc₁ => ?_) hth
    cases hpc₁
    cases c <;> rfl
  | advance hth hpc =>
    obtain ⟨hnone, hspawned⟩ := Pc.proposing_advance hpc
    refine h.follow fun k id q hq => ⟨hq, ahead_le (fun th hth => ?_) (fun _ he => he) rfl le_rfl⟩
    exact (threads_spawn hspawned hth).elim (threads_setPc hnone) .inr
  | @register t th cmd observed next hth hpc =>
    exact apart_register h hreg cmd observed next (hl th hth (by rw [hpc]; rfl))
  | @propose t th request cmd observed next hth hpc =>
    refine h.follow fun k id q hq => ⟨hq, fun p hp => ?_⟩
    rw [mem_ahead] at hp ⊢
    rcases hp with ⟨th', hth', hreq⟩ | ⟨e, he | he, hreq⟩
    · rcases threads_setPc rfl hth' with hth' | hnone
      · exact .inl ⟨th', hth', hreq⟩
      · exact absurd (hnone.symm.trans hreq) (Option.some_ne_none p).symm
    · rcases List.mem_append.mp he with he | he
      · exact .inr ⟨e, .inl he, hreq⟩
      · rw [List.mem_singleton.mp he] at hreq
        exact .inl ⟨th, List.mem_of_getElem? hth, by rw [hpc, ← hreq]; rfl⟩
    · exact .inr ⟨e, .inr he, hreq⟩
  | @finish _ t th request cmd next err hth hl hend =>
    refine h.follow fun k id q hq => ⟨?_, ?_⟩
    · exact (finish_keeps s t th request cmd next err k).pending id q hq
    · refine ahead_le (fun th' hth' => ?_) (fun _ he => he) rfl ?_
      · exact threads_setPc (Pc.proposing_resume err next) hth'
      · exact forall_setNode (R := fun m m' => m.applied ≤ m'.applied) (fun _ => le_rfl)
          (m := { s.nodes th.node with impl := (s.nodes th.node).impl.cleanup cmd.requestId })
          le_rfl k
  | @commit i e he =>
    refine h.follow fun k id q hq => ⟨hq, fun p hp => ?_⟩
    rw [mem_ahead] at hp ⊢
    refine hp.imp_right fun ⟨e', he', hreq⟩ => ⟨e', ?_, hreq⟩
    rcases he' with he' | he'
    · exact .inl (List.mem_of_mem_eraseIdx he')
    · rw [List.drop_append] at he'
      rcases List.mem_append.mp he' with he' | he'
      · exact .inr he'
      · rw [List.mem_singleton.mp (List.mem_of_mem_drop he')]
        exact .inl (List.mem_of_getElem? he)
  | drop he =>
    refine h.follow fun k id q hq => ⟨hq, ?_⟩
    exact ahead_le (fun _ hth => .inl hth) (fun _ he => List.mem_of_mem_eraseIdx he) rfl le_rfl
  | @apply n e hloop he =>
    obtain ⟨err, -, hkeeps, -⟩ := Member.applyEntry_spec (s.nodes n) e
    refine h.setNode fun id q hq => ⟨hkeeps.pending id q hq, ?_⟩
    unfold Member.applyEntry
    split
    · exact le_rfl
    · exact Nat.le_succ _
  | tick seconds => exact h.follow fun k id q hq => ⟨hq, fun _ hp => hp⟩
  | shutdown n =>
    refine h.setNode fun id q hq => ⟨?_, le_rfl⟩
    unfold RaftNode.shutdown at hq
    split at hq
    · exact hq
    · cases hq
  | restart n =>
    refine h.follow fun k id q hq => ?_
    have hne : k ≠ n := by
      rintro rfl
      have hnone : SortedMap.lookup id ((s.restart k).nodes k).impl.pending = none := by
        unfold restart
        dsimp only
        rw [setNode_nodes, if_pos rfl]
        dsimp only
        rw [(setup_fresh _ _).1]
        rfl
      rw [hnone] at hq
      cases hq
    have hsame : (s.restart n).nodes k = s.nodes k := by
      unfold restart
      dsimp only
      rw [setNode_nodes, if_neg hne]
    rw [hsame] at hq
    refine ⟨hq, ahead_le (fun th hth => ?_) (fun _ he => he) rfl (hsame ▸ le_rfl)⟩
    obtain ⟨th', hth', rfl⟩ := List.mem_map.mp hth
    split
    · exact .inr rfl
    · exact .inl hth'
  | snapshot n => exact h.setNode fun id q hq => ⟨hq, le_rfl⟩
  | install hsnap hnew => exact h.setNode fun id q hq => ⟨hq, hnew.le⟩

omit [DecidableEq ν] in
/-- An entry that resolves a request, where ids are apart, is that request's. -/
theorem Apart.proposedHere {s s' : Cluster ν} {l : Label ν} (h : s.Apart) (hreg : s.Registered) :
    ProposedHere s l s' := by
  rintro n e - he hsome
  obtain ⟨q, hq⟩ := Option.isSome_iff_exists.mp hsome
  refine (resolved_own_iff hreg (List.mem_of_getElem? he) hq).mp (Eq.symm ?_)
  refine h n _ q (Option.ite_none_left_eq_some.mp hq).2 (e.request, e.cmd.requestId) ?_ rfl
  refine mem_ahead.mpr (.inr ⟨e, .inr ?_, rfl⟩)
  rw [List.mem_iff_getElem?]
  exact ⟨0, by rw [List.getElem?_drop, Nat.add_zero, he]⟩

instance [Fintype ν] (s : Cluster ν) (n : ν) : Decidable (s.DrawsFresh n) :=
  inferInstanceAs (Decidable (_ ∧ _))

instance [Fintype ν] (s : Cluster ν) : ∀ l, Decidable (s.IdsApart l)
  | .run t => inferInstanceAs (Decidable (∀ th ∈ s.threads[t]?, th.pc.isMutate = true →
      (s.nodes th.node).impl.shuttingDown = false → s.DrawsFresh th.node))
  | .call _ _ | .cancel _ _ | .commit _ | .drop _ | .apply _ | .tick _ | .shutdown _
  | .restart _ | .snapshot _ | .install _ _ => isTrue trivial

/-- Along a run in which every request draws an id that no entry its node has still to apply
carries, and that is pending on no other node, acknowledgements are correct. -/
theorem acknowledgesCorrectly_of_idsApart (md5 : Bytes → String) (ls : List (Label ν))
    (h : EachStep (step md5) (fun s l _ => s.IdsApart l) ({} : Cluster ν) ls) :
    AcknowledgesCorrectly md5 ls := by
  refine (acknowledgesCorrectly_iff md5 ls).mpr ?_
  exact eachStep_of_eachStep (fun s => Registered s ∧ Apart s)
    (fun s l s' hi hl hs => ⟨registered_step hi.1 hs, apart_step hi.2 hi.1 hl hs⟩)
    (fun s l s' hi _ _ => hi.2.proposedHere hi.1) ⟨registered_init, apart_init⟩ h

/-- The digest of the empty value. -/
def md5Empty : Bytes → String := fun _ => "d41d8cd98f00b204e9800998ecf8427e"

/-- Both nodes draw the same id in turn, and one of them again when it has started anew and has
read the log up to its end. -/
def inTurn : List (Label Bool) :=
  [.call true (.setKV ⟨"a/b", false, 0, [], true, int32_zero⟩), .run 0, .run 0, .run 0, .run 0,
    .run 0, .commit 0, .apply true, .run 0, .apply false, .call false (.unsetKV "a/b" false),
    .run 1, .run 1, .commit 0, .apply false, .run 1, .apply true, .restart true, .apply true,
    .apply true, .call true (.unsetKV "c/d" false), .run 2, .run 2, .commit 0, .apply true, .run 2]

theorem inTurn_acknowledged : AcknowledgesCorrectly md5Empty inTurn :=
  acknowledgesCorrectly_of_idsApart md5Empty inTurn (by decide +kernel)

/-- A SET on one node and an UNSET on another, both the first request of their node;
the UNSET is committed, and applied by the node that waits for its SET. -/
def stolenAck : List (Label Bool) :=
  [.call true (.setKV ⟨"a/b", false, 0, [], true, int32_zero⟩), .call false (.unsetKV "c/d" false),
    .run 0, .run 0, .run 0, .run 0, .run 0, .run 1, .run 1, .commit 1, .apply true, .run 0]

/-- The SET returns nil although it is not committed. -/
theorem stolenAck_not_acknowledged : ¬ AcknowledgesCorrectly md5Empty stolenAck := by
  intro h
  have hrun : (run (step md5Empty) ({} : Cluster Bool) stolenAck).map
      (fun s => (s.returns.map (fun r => (r.1, r.2.isNone)), s.log.map (·.request))) =
        some ([(0, true)], [1]) := by decide
  obtain ⟨s, hs, heq⟩ := Option.map_eq_some_iff.mp hrun
  obtain ⟨hret, hlog⟩ := Prod.mk.inj heq
  obtain ⟨⟨q, err⟩, hmem, hq⟩ := List.mem_map.mp (hret ▸ List.mem_singleton_self (0, true))
  obtain ⟨rfl, herr⟩ := Prod.mk.inj hq
  cases err with
  | some _ => cases herr
  | none =>
    obtain ⟨_, e, -, he, hreq, -⟩ := h.applied.of_run hs 0 hmem
    have hone : e.request ∈ s.log.map (·.request) := List.mem_map_of_mem he
    rw [hlog, hreq] at hone
    simp at hone

end Cluster

end Cassem.KV
