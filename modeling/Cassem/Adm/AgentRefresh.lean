import Cassem.Adm.AgentPool
import Cassem.Lib.Transition

/-!
# Refreshing the pool of agents

Now and then the pool is set to what a listing of the agents says. The listing is taken first, the
nodes are copied, each listed agent gets its node, and the maps are swapped at the end; the stream
of changes is processed all along. What the pool is set to knows nothing of the changes that were
processed after the listing.
-/

namespace Cassem.Adm

open Cassem.Coord Lib.Transition

/-- Where `updateAgentNodesManually` is; `rest` is what its loop has not come to. -/
inductive Refresh where
  | idle
  | listed (agents : List AgentInstance)
  | reconciling (agents rest : List AgentInstance) (existing newNodes : String → Option Nat)
      (newAgentIds : String → Bool)

/-- The last change of each agent since the listing is kept beside the pool. -/
structure Refreshed where
  pool : AgentPool := {}
  refresh : Refresh := .idle
  since : String → Option ChangeOp := fun _ => none

namespace Refreshed

inductive Act where
  | list (agents : Option (List AgentInstance))
  | copy
  | reconcile
  | swap
  | process (change : AgentInstanceChange)

/-- The agent is new and has no address. -/
def skips (p : AgentPool) (ins : AgentInstance) : Bool :=
  ins.Addr = "" && (p.nodes ins.AgentId).isNone

def sinceChange (s : Refreshed) (change : AgentInstanceChange) : String → Option ChangeOp :=
  match change.Ins with
  | none => s.since
  | some ins =>
      match change.Op with
      | .NEW | .UPDATE =>
          if skips s.pool ins then s.since
          else Function.update s.since ins.AgentId (some change.Op)
      | .DELETE => Function.update s.since ins.AgentId (some .DELETE)
      | .UNDEFINED => s.since

/-- One round of the loop over the listed agents. -/
def reconcileAgent (p : AgentPool) (existing newNodes : String → Option Nat)
    (newAgentIds : String → Bool) (ins : AgentInstance) :
    AgentPool × (String → Option Nat) × (String → Bool) :=
  let agentId := ins.AgentId
  match existing agentId with
  | some node =>
      (p.updateInstance node ins, Function.update newNodes agentId (some node),
        Function.update newAgentIds agentId true)
  | none =>
      match p.newAgentNode ins with
      | none => (p, newNodes, newAgentIds)
      | some (node, p) =>
          (p, Function.update newNodes agentId (some node),
            Function.update newAgentIds agentId true)

/-- A listing that fails ends the refresh. -/
def step (s : Refreshed) (act : Act) : Option Refreshed :=
  match act, s.refresh with
  | .list none, .idle => some s
  | .list (some agents), .idle =>
      some { s with refresh := .listed agents, since := fun _ => none }
  | .copy, .listed agents =>
      some { s with
        refresh := .reconciling agents agents s.pool.nodes (fun _ => none) fun _ => false }
  | .reconcile, .reconciling agents (ins :: rest) existing newNodes newAgentIds =>
      let (pool, newNodes, newAgentIds) := reconcileAgent s.pool existing newNodes newAgentIds ins
      some { s with pool, refresh := .reconciling agents rest existing newNodes newAgentIds }
  | .swap, .reconciling _ [] _ newNodes newAgentIds =>
      some { s with
        pool := { s.pool with nodes := newNodes, allAgentIds := newAgentIds }, refresh := .idle }
  | .process change, _ =>
      some { s with pool := s.pool.updateAgentInstance change, since := s.sinceChange change }
  | _, _ => none

/-- The two maps of the pool have the same keys, and the last change of an agent since the listing
still counts. -/
structure Kept (s : Refreshed) : Prop where
  listed : s.pool.Listed
  stays : ∀ id op, s.since id = some op → op ≠ .DELETE → s.pool.has id
  gone : ∀ id, s.since id = some .DELETE → ¬ s.pool.has id

/-- The listing brings a node for the agent. -/
def Brings (agents : List AgentInstance) (existing : String → Option Nat) (id : String) : Prop :=
  ∃ ins ∈ agents, ins.AgentId = id ∧ (ins.Addr ≠ "" ∨ existing id ≠ none)

/-- What is swapped in brings the agents whose last change was no removal, and none of the
others. -/
def Covers (s : Refreshed) (act : Act) (_ : Refreshed) : Prop :=
  match act, s.refresh with
  | .swap, .reconciling agents _ existing _ _ =>
      ∀ id op, s.since id = some op → (Brings agents existing id ↔ op ≠ .DELETE)
  | _, _ => True

/-- What the loop has made so far, from the agents that it has come to. -/
structure Reconciled (agents rest : List AgentInstance) (existing newNodes : String → Option Nat)
    (newAgentIds : String → Bool) : Prop where
  ids : ∀ id, newAgentIds id = true ↔ newNodes id ≠ none
  nodes : ∃ done, agents = done ++ rest ∧ ∀ id, newNodes id ≠ none ↔ Brings done existing id

structure Inv (s : Refreshed) : Prop where
  listed : s.pool.Listed
  loop : ∀ agents rest existing newNodes newAgentIds,
    s.refresh = .reconciling agents rest existing newNodes newAgentIds →
      Reconciled agents rest existing newNodes newAgentIds

variable {s s' : Refreshed} {act : Act} {p : AgentPool} {ins : AgentInstance} {id : String}
  {agents rest : List AgentInstance} {existing newNodes : String → Option Nat}
  {newAgentIds : String → Bool}

/-! ## One step -/

theorem brings_append : Brings (agents ++ [ins]) existing id ↔
    Brings agents existing id ∨ ins.AgentId = id ∧ (ins.Addr ≠ "" ∨ existing id ≠ none) := by
  unfold Brings
  constructor
  · rintro ⟨other, hmem, hother⟩
    rcases List.mem_append.mp hmem with hmem | hmem
    · exact .inl ⟨other, hmem, hother⟩
    · obtain rfl := List.mem_singleton.mp hmem
      exact .inr hother
  · rintro (⟨other, hmem, hother⟩ | hown)
    · exact ⟨other, List.mem_append_left _ hmem, hother⟩
    · exact ⟨ins, List.mem_append_right _ (List.mem_singleton_self _), hown⟩

/-- A round of the loop leaves the maps of the pool, and makes an entry unless the agent is new
and has no address. -/
theorem reconcileAgent_spec (p : AgentPool) (existing newNodes : String → Option Nat)
    (newAgentIds : String → Bool) (ins : AgentInstance) :
    let r := reconcileAgent p existing newNodes newAgentIds ins
    (r.1.nodes = p.nodes ∧ r.1.allAgentIds = p.allAgentIds) ∧
      ((r.2 = (newNodes, newAgentIds) ∧ ins.Addr = "" ∧ existing ins.AgentId = none) ∨
        (ins.Addr ≠ "" ∨ existing ins.AgentId ≠ none) ∧ ∃ node,
          r.2 = (Function.update newNodes ins.AgentId (some node),
            Function.update newAgentIds ins.AgentId true)) := by
  cases hnode : existing ins.AgentId with
  | some node =>
    have hround : reconcileAgent p existing newNodes newAgentIds ins =
        (p.updateInstance node ins, Function.update newNodes ins.AgentId (some node),
          Function.update newAgentIds ins.AgentId true) := by
      simp only [reconcileAgent, hnode]
    rw [hround]
    exact ⟨⟨rfl, rfl⟩, .inr ⟨.inr nofun, node, rfl⟩⟩
  | none =>
    by_cases haddr : ins.Addr = ""
    · have hnew : p.newAgentNode ins = none := if_pos haddr
      have hround : reconcileAgent p existing newNodes newAgentIds ins =
          (p, newNodes, newAgentIds) := by
        simp only [reconcileAgent, hnode, hnew]
      rw [hround]
      exact ⟨⟨rfl, rfl⟩, .inl ⟨rfl, haddr, rfl⟩⟩
    · have hnew : p.newAgentNode ins = some
          (p.made, { p with ins := Function.update p.ins p.made ins, made := p.made + 1 }) :=
        if_neg haddr
      have hround : reconcileAgent p existing newNodes newAgentIds ins =
          ({ p with ins := Function.update p.ins p.made ins, made := p.made + 1 },
            Function.update newNodes ins.AgentId (some p.made),
            Function.update newAgentIds ins.AgentId true) := by
        simp only [reconcileAgent, hnode, hnew]
      rw [hround]
      exact ⟨⟨rfl, rfl⟩, .inr ⟨.inl haddr, p.made, rfl⟩⟩

/-- A round of the loop comes to one more agent of the listing. -/
theorem Reconciled.reconciled
    (h : Reconciled agents (ins :: rest) existing newNodes newAgentIds) (p : AgentPool) :
    let r := reconcileAgent p existing newNodes newAgentIds ins
    Reconciled agents rest existing r.2.1 r.2.2 := by
  obtain ⟨done, hdone, hnodes⟩ := h.nodes
  have hmore : agents = (done ++ [ins]) ++ rest := by simpa using hdone
  obtain ⟨-, ⟨hsame, haddr, hnew⟩ | ⟨hmade, node, hnext⟩⟩ :=
    reconcileAgent_spec p existing newNodes newAgentIds ins
  · simp only [hsame]
    refine ⟨h.ids, done ++ [ins], hmore, fun id => ?_⟩
    rw [hnodes, brings_append]
    refine (or_iff_left ?_).symm
    rintro ⟨rfl, hany⟩
    exact hany.elim (fun hne => hne haddr) fun hne => hne hnew
  · simp only [hnext]
    refine ⟨fun id => ?_, done ++ [ins], hmore, fun id => ?_⟩
    · by_cases hid : id = ins.AgentId
      · simp [hid]
      · simpa [hid] using h.ids id
    · rw [brings_append, ← hnodes]
      by_cases hid : id = ins.AgentId
      · subst hid
        simp [hmade]
      · simp [hid, Ne.symm hid]

/-- Every step keeps the invariant. -/
theorem Inv.step (h : s.Inv) (hstep : s.step act = some s') : s'.Inv := by
  unfold Refreshed.step at hstep
  split at hstep
  · cases hstep
    exact h
  · cases hstep
    exact ⟨h.listed, nofun⟩
  · cases hstep
    refine ⟨h.listed, fun agents rest existing newNodes newAgentIds heq => ?_⟩
    cases heq
    exact ⟨fun id => by simp, [], rfl, fun id => by simp [Brings]⟩
  · next agents ins rest existing newNodes newAgentIds hrefresh =>
    have hround := (h.loop _ _ _ _ _ hrefresh).reconciled s.pool
    have hpool := (reconcileAgent_spec s.pool existing newNodes newAgentIds ins).1
    generalize reconcileAgent s.pool existing newNodes newAgentIds ins = r at hstep hround hpool
    cases hstep
    refine ⟨fun id => ?_, fun agents rest existing newNodes newAgentIds heq => ?_⟩
    · unfold AgentPool.has
      rw [hpool.1, hpool.2]
      exact h.listed id
    · cases heq
      exact hround
  · next agents existing newNodes newAgentIds hrefresh =>
    cases hstep
    exact ⟨(h.loop _ _ _ _ _ hrefresh).ids, nofun⟩
  · cases hstep
    exact ⟨h.listed.updated _, h.loop⟩
  · cases hstep

/-- A change that is processed is in the pool. -/
theorem Kept.processed (h : s.Kept) (change : AgentInstanceChange) :
    Kept { s with
      pool := s.pool.updateAgentInstance change, since := s.sinceChange change } := by
  have hlisted := h.listed.updated change
  rcases change with ⟨_ | ins, op⟩
  · exact h
  · by_cases hop : op = .NEW ∨ op = .UPDATE
    · have hsince : s.sinceChange ⟨some ins, op⟩ = if skips s.pool ins then s.since
          else Function.update s.since ins.AgentId (some op) := by
        rcases hop with rfl | rfl <;> rfl
      have hdelete : op ≠ .DELETE := by
        rcases hop with rfl | rfl <;> decide
      obtain ⟨hsame, haddr, hnew⟩ | ⟨hany, hhas, -⟩ :=
        AgentPool.updated_cases s.pool ins hop
      · have hskips : skips s.pool ins = true := by
          simpa [skips, haddr, AgentPool.has] using hnew
        rw [hskips, if_pos rfl] at hsince
        rw [hsince, hsame]
        exact h
      · have hskips : skips s.pool ins = false := by
          simp only [skips, Bool.and_eq_false_iff, decide_eq_false_iff_not,
            Option.isNone_eq_false_iff, Option.isSome_iff_ne_none]
          exact hany
        rw [hskips, if_neg Bool.false_ne_true] at hsince
        rw [hsince]
        refine ⟨hlisted, fun id op' hid hop' => (hhas id).mpr ?_, fun id hid => ?_⟩ <;>
          dsimp only at hid
        · by_cases heq : id = ins.AgentId
          · exact .inl heq
          · rw [Function.update_of_ne heq] at hid
            exact .inr (h.stays id op' hid hop')
        · have heq : id ≠ ins.AgentId := by
            rintro rfl
            rw [Function.update_self] at hid
            exact hdelete (Option.some.inj hid)
          rw [Function.update_of_ne heq] at hid
          exact fun hhas' => h.gone id hid (((hhas id).mp hhas').resolve_left heq)
    · cases op with
      | UNDEFINED => exact h
      | NEW => exact absurd (.inl rfl) hop
      | UPDATE => exact absurd (.inr rfl) hop
      | DELETE =>
        have hsince : s.sinceChange ⟨some ins, .DELETE⟩ =
            Function.update s.since ins.AgentId (some .DELETE) := rfl
        rw [hsince]
        refine ⟨hlisted, fun id op hid hop' => ?_, fun id hid hhas => ?_⟩ <;> dsimp only at hid
        · have heq : id ≠ ins.AgentId := by
            rintro rfl
            rw [Function.update_self] at hid
            exact hop' (Option.some.inj hid).symm
          rw [Function.update_of_ne heq] at hid
          exact AgentPool.has_delete.mpr ⟨heq, h.stays id op hid hop'⟩
        · obtain ⟨heq, hhas⟩ := AgentPool.has_delete.mp hhas
          rw [Function.update_of_ne heq] at hid
          exact h.gone id hid hhas

/-- A step keeps what the stream has brought exactly where its swap covers it. -/
theorem step_kept_iff (hinv : s.Inv) (h : s.Kept) (hstep : s.step act = some s') :
    s'.Kept ↔ s.Covers act s' := by
  have hlisted := (hinv.step hstep).listed
  unfold Refreshed.step at hstep
  unfold Covers
  split at hstep
  · cases hstep
    exact iff_of_true h trivial
  · cases hstep
    exact iff_of_true ⟨h.listed, nofun, nofun⟩ trivial
  · cases hstep
    exact iff_of_true ⟨h.listed, h.stays, h.gone⟩ trivial
  · next agents ins rest existing newNodes newAgentIds hrefresh =>
    have hpool := (reconcileAgent_spec s.pool existing newNodes newAgentIds ins).1
    generalize reconcileAgent s.pool existing newNodes newAgentIds ins = r at hstep hpool
    cases hstep
    have hhas : ∀ id, r.1.has id ↔ s.pool.has id := fun id => by
      unfold AgentPool.has
      rw [hpool.1]
    exact iff_of_true ⟨hlisted, fun id op hid hop => (hhas id).mpr (h.stays id op hid hop),
      fun id hid hin => h.gone id hid ((hhas id).mp hin)⟩ trivial
  · next agents existing newNodes newAgentIds hrefresh =>
    cases hstep
    rw [hrefresh]
    obtain ⟨done, hdone, hnodes⟩ := (hinv.loop _ _ _ _ _ hrefresh).nodes
    obtain rfl : agents = done := by simpa using hdone
    constructor
    · intro hkept id op hid
      rw [← hnodes]
      refine ⟨fun hin hop => ?_, fun hop => hkept.stays id op hid hop⟩
      subst hop
      exact hkept.gone id hid hin
    · intro hcovers
      refine ⟨hlisted, fun id op hid hop => (hnodes id).mpr ((hcovers id op hid).mpr hop),
        fun id hid hin => (hcovers id _ hid).mp ((hnodes id).mp hin) rfl⟩
  · cases hstep
    exact iff_of_true (h.processed _) trivial
  · cases hstep

/-! ## Every run -/

theorem started (h : p.Listed) : Inv { pool := p } ∧ Kept { pool := p } :=
  ⟨⟨h, nofun⟩, h, nofun, nofun⟩

/-- Every state of a run keeps what the stream has brought exactly when each swap of the run
covers the changes that were processed since its listing. -/
theorem refresh_keeps_iff (p : AgentPool) (h : p.Listed) (acts : List Act) :
    EachState step Kept { pool := p } acts ↔ EachStep step Covers { pool := p } acts :=
  eachState_iff_eachStep Inv (fun _ _ _ hinv hstep => hinv.step hstep)
    (fun _ _ _ hinv hkept hstep => step_kept_iff hinv hkept hstep) (started h).1 (started h).2 acts

def agentOne : AgentInstance := { AgentId := "agent-1", Addr := "10.0.0.1:20219" }

/-- The agent joins while the listing that has it is reconciled, and stays in the pool. -/
theorem refresh_keeps_iff_joining :
    EachState step Kept { pool := {} }
      [.list (some [agentOne]), .process ⟨some agentOne, .NEW⟩, .copy, .reconcile, .swap] := by
  refine (refresh_keeps_iff {} (fun id => by simp [AgentPool.has]) _).mpr ?_
  refine .cons rfl trivial (.cons rfl trivial (.cons rfl trivial (.cons rfl trivial ?_)))
  refine .cons rfl (fun id op hid => ?_) trivial
  have hsince : Function.update (fun _ => none) "agent-1" (some .NEW) id = some op := hid
  by_cases hone : id = "agent-1"
  · subst hone
    rw [Function.update_self] at hsince
    cases hsince
    exact iff_of_true ⟨agentOne, List.mem_cons_self, rfl, .inl (by decide)⟩ nofun
  · rw [Function.update_of_ne hone] at hsince
    cases hsince

/-- A refresh that has listed before the agent came takes it out of the pool again, and one that
has listed before the agent left brings it back. -/
theorem refresh_undoes_stream :
    ¬ EachState step Kept { pool := {} }
        [.list (some []), .process ⟨some agentOne, .NEW⟩, .copy, .swap] ∧
      ¬ EachState step Kept { pool := {} }
        [.process ⟨some agentOne, .NEW⟩, .list (some [agentOne]),
          .process ⟨some agentOne, .DELETE⟩, .copy, .reconcile, .swap] := by
  constructor
  · intro h
    exact (h.of_run rfl).stays "agent-1" .NEW rfl nofun rfl
  · intro h
    exact (h.of_run rfl).gone "agent-1" rfl nofun

end Refreshed

end Cassem.Adm
