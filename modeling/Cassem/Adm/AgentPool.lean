import Cassem.Coord.AgentHybrid

/-!
# The pool of agents behind the store

The pool has a node for each agent that it knows. It is kept by the changes of the agents
directory, one after another: the change that the state machine builds for a command, read by the
watcher of the directory, is turned into a change of an agent.
-/

namespace Cassem.Adm

open Cassem.Coord Lib.Protobuf

/-! ## The pool -/

/-- A node is a pointer; `ins` has what each node was last given. -/
structure AgentPool where
  nodes : String → Option Nat := fun _ => none
  allAgentIds : String → Bool := fun _ => false
  ins : Nat → AgentInstance := fun _ => {}
  made : Nat := 0

namespace AgentPool

/-- The address that does not parse is only logged. -/
def newAgentNode (p : AgentPool) (ins : AgentInstance) : Option (Nat × AgentPool) :=
  if ins.Addr = "" then none
  else some (p.made, { p with ins := Function.update p.ins p.made ins, made := p.made + 1 })

def updateInstance (p : AgentPool) (node : Nat) (ins : AgentInstance) : AgentPool :=
  { p with ins := Function.update p.ins node ins }

/-- The loop of `updateAgentInstanceFromCh`, at one change. -/
def updateAgentInstance (p : AgentPool) (change : AgentInstanceChange) : AgentPool :=
  match change.Ins with
  | none => p
  | some ins =>
      let agentId := ins.AgentId
      match change.Op with
      | .NEW | .UPDATE =>
          match p.nodes agentId with
          | none =>
              match p.newAgentNode ins with
              | none => p
              | some (node, p) =>
                  { p with
                    nodes := Function.update p.nodes agentId (some node)
                    allAgentIds := Function.update p.allAgentIds agentId true }
          | some node =>
              let p := p.updateInstance node ins
              { p with allAgentIds := Function.update p.allAgentIds agentId true }
      | .DELETE =>
          { p with
            nodes := Function.update p.nodes agentId none
            allAgentIds := Function.update p.allAgentIds agentId false }
      | .UNDEFINED => p

def updateAgentInstanceFromCh (p : AgentPool) (changes : List AgentInstanceChange) : AgentPool :=
  changes.foldl updateAgentInstance p

def has (p : AgentPool) (agentId : String) : Prop := p.nodes agentId ≠ none

/-- The ids that the pool lists are those of its nodes. -/
def Listed (p : AgentPool) : Prop := ∀ id, p.allAgentIds id = true ↔ p.has id

variable {p : AgentPool} {ins : AgentInstance} {op : ChangeOp} {id : String}

/-- A change to an agent that has an address, or a node. -/
theorem updated_cases (p : AgentPool) (ins : AgentInstance) (hop : op = .NEW ∨ op = .UPDATE) :
    (p.updateAgentInstance ⟨some ins, op⟩ = p ∧ ins.Addr = "" ∧ ¬ p.has ins.AgentId) ∨
    ((ins.Addr ≠ "" ∨ p.has ins.AgentId) ∧
      (∀ id, (p.updateAgentInstance ⟨some ins, op⟩).has id ↔ id = ins.AgentId ∨ p.has id) ∧
      (p.updateAgentInstance ⟨some ins, op⟩).allAgentIds =
        Function.update p.allAgentIds ins.AgentId true) := by
  have hmatch : p.updateAgentInstance ⟨some ins, op⟩ = match p.nodes ins.AgentId with
      | none =>
          match p.newAgentNode ins with
          | none => p
          | some (node, p) =>
              { p with
                nodes := Function.update p.nodes ins.AgentId (some node)
                allAgentIds := Function.update p.allAgentIds ins.AgentId true }
      | some node =>
          { p.updateInstance node ins with
            allAgentIds := Function.update p.allAgentIds ins.AgentId true } := by
    rcases hop with rfl | rfl <;> rfl
  rw [hmatch]
  cases hnode : p.nodes ins.AgentId with
  | none =>
    have hhas : ¬ p.has ins.AgentId := fun h => h hnode
    by_cases haddr : ins.Addr = ""
    · have hnew : p.newAgentNode ins = none := if_pos haddr
      rw [hnew]
      exact .inl ⟨rfl, haddr, hhas⟩
    · have hnew : p.newAgentNode ins = some
          (p.made, { p with ins := Function.update p.ins p.made ins, made := p.made + 1 }) :=
        if_neg haddr
      rw [hnew]
      refine .inr ⟨.inl haddr, fun id => ?_, rfl⟩
      unfold has
      dsimp only
      by_cases hid : id = ins.AgentId
      · simp [hid]
      · simp [hid]
  | some node =>
    have hhas : p.has ins.AgentId := fun h => by cases hnode.symm.trans h
    refine .inr ⟨.inr hhas, fun id => (or_iff_right_of_imp ?_).symm, rfl⟩
    rintro rfl
    exact hhas

theorem has_update (hop : op = .NEW ∨ op = .UPDATE) :
    (p.updateAgentInstance ⟨some ins, op⟩).has id ↔
      p.has id ∨ id = ins.AgentId ∧ ins.Addr ≠ "" := by
  rcases updated_cases p ins hop with ⟨hsame, haddr, -⟩ | ⟨hany, hhas, -⟩
  · rw [hsame]
    simp [haddr]
  · rw [hhas]
    constructor
    · rintro (rfl | hid)
      · exact hany.symm.imp_right fun haddr => ⟨rfl, haddr⟩
      · exact .inl hid
    · rintro (hid | ⟨hid, -⟩)
      · exact .inr hid
      · exact .inl hid

theorem has_delete : (p.updateAgentInstance ⟨some ins, .DELETE⟩).has id ↔
    id ≠ ins.AgentId ∧ p.has id := by
  unfold has updateAgentInstance
  dsimp only
  by_cases hid : id = ins.AgentId
  · simp [hid]
  · simp [hid]

/-- Every change keeps the list of ids. -/
theorem Listed.updated (h : p.Listed) (change : AgentInstanceChange) :
    (p.updateAgentInstance change).Listed := by
  rcases change with ⟨_ | ins, op⟩
  · exact h
  · by_cases hop : op = .NEW ∨ op = .UPDATE
    · rcases updated_cases p ins hop with ⟨hsame, -, -⟩ | ⟨-, hhas, hids⟩
      · rw [hsame]
        exact h
      · intro id
        rw [hhas, hids]
        by_cases hid : id = ins.AgentId
        · simp [hid]
        · simpa [hid] using h id
    · cases op with
      | UNDEFINED => exact h
      | NEW => exact absurd (.inl rfl) hop
      | UPDATE => exact absurd (.inr rfl) hop
      | DELETE =>
        intro id
        rw [has_delete]
        show Function.update p.allAgentIds ins.AgentId false id = true ↔ _
        by_cases hid : id = ins.AgentId
        · simp [hid]
        · simpa [hid] using h id

end AgentPool

/-! ## The changes that reach it -/

def translateChange : KV.Notification → KV.Change
  | .kv change => change
  | .directory change _ => change

/-- What a watcher of the agents directory is sent, as changes of agents. -/
def delivered (c : Codec AgentInstance) (sent : List KV.Notification) :
    List AgentInstanceChange :=
  (sent.filter fun n => n.topic = agentPrefix).filterMap fun n =>
    ConvertChangeToChange c (translateChange n)

/-- A command on a record is delivered as the one change that is built for it. -/
theorem delivered_announced {c : Codec AgentInstance} {agentId : String} {cmd : KV.MutateCommand}
    (h : OnAgent c agentId cmd) (db : KV.Store) :
    delivered c (KV.announced db cmd) =
      ((KV.buildChange cmd (KV.getKV db cmd.key cmd.isDir).toOption (KV.currentOf cmd)).bind
        (ConvertChangeToChange c)).toList := by
  unfold KV.announced
  cases hbuild : KV.buildChange cmd (KV.getKV db cmd.key cmd.isDir).toOption (KV.currentOf cmd) with
  | none => rfl
  | some change =>
    have hkey : change.key = WithAgentPrefix agentId := by
      have hchange := (Option.ite_none_left_eq_some.mp hbuild).2
      exact (congrArg KV.Change.key (Option.some.inj hchange)).symm.trans h.key
    have hparent : KV.parentDirectoryChanges change = [.directory change agentPrefix] := by
      unfold KV.parentDirectoryChanges
      rw [hkey, keySplitter_WithAgentPrefix h.name.whole]
      rfl
    have hne : WithAgentPrefix agentId ≠ agentPrefix := by
      intro heq
      have hsplit := split_WithAgentPrefix h.name.whole
      rw [heq] at hsplit
      cases hsplit
    have htopic : (KV.Notification.kv change).topic ≠ agentPrefix := fun heq =>
      hne (hkey.symm.trans heq)
    dsimp only
    rw [hparent, delivered, List.filter_cons_of_neg (by simpa using htopic),
      List.filter_cons_of_pos (by simp [KV.Notification.topic]), List.filter_nil]
    cases hconvert : ConvertChangeToChange c change <;>
      simp [translateChange, hconvert]

/-! ## A state machine and a pool that follows it -/

structure Watched (χ : Type) where
  node : KV.RaftNode χ := {}
  pool : AgentPool := {}

namespace Watched

variable {χ : Type} {c : Codec AgentInstance} {s : Watched χ} {agentId id : String}
  {cmd : KV.MutateCommand}

/-- A committed command is applied, and the pool reads what it sent. -/
def apply (c : Codec AgentInstance) (s : Watched χ) (cmd : KV.MutateCommand) : Watched χ :=
  let node := (KV.applyMutateLogEntry s.node cmd).1
  let sent := node.changeC.drop s.node.changeC.length
  { node, pool := s.pool.updateAgentInstanceFromCh (delivered c sent) }

def run (c : Codec AgentInstance) (s : Watched χ) (cmds : List KV.MutateCommand) : Watched χ :=
  cmds.foldl (apply c) s

/-- The pool has a node for each agent of the store, and for no other. -/
def Agrees (s : Watched χ) : Prop := ∀ id, s.pool.has id ↔ Registered s.node.kvstore id

/-- The pool has a node for each agent of the store. -/
structure Behind (s : Watched χ) : Prop where
  covers : ∀ id, Registered s.node.kvstore id → s.pool.has id
  named : ∀ id, s.pool.has id → AgentName id

theorem Agrees.behind (h : s.Agrees) : s.Behind :=
  ⟨fun id hreg => (h id).mpr hreg, fun id hhas => ((h id).mp hhas).1⟩

theorem apply_of_accepts (h : KV.Accepts s.node.kvstore cmd) (honAgent : OnAgent c agentId cmd) :
    (s.apply c cmd).pool = s.pool.updateAgentInstanceFromCh
      ((KV.buildChange cmd (KV.getKV s.node.kvstore cmd.key cmd.isDir).toOption
        (KV.currentOf cmd)).bind (ConvertChangeToChange c)).toList := by
  unfold apply
  dsimp only
  rw [KV.changeC_of_accepts h, List.drop_left, delivered_announced honAgent]

theorem apply_of_rejected (h : ¬ KV.Accepts s.node.kvstore cmd) :
    (s.apply c cmd).pool = s.pool ∧ (s.apply c cmd).node.kvstore = s.node.kvstore := by
  obtain ⟨err, ret, heq⟩ := KV.applyMutateLogEntry_of_rejected h
  unfold apply
  dsimp only
  rw [heq, KV.resolvePending_changeC, List.drop_length]
  exact ⟨rfl, KV.RaftNode.resolvePending_kvstore _ _ _⟩

/-- An accepted command leaves the store its storage call makes. -/
theorem apply_kvstore (hacc : KV.Accepts s.node.kvstore cmd) :
    ∃ cur, KV.mutateStore s.node.kvstore cmd = .ok ((s.apply c cmd).node.kvstore, cur) := by
  obtain ⟨o, ho, hfit⟩ := hacc
  obtain ⟨db, cur, hdb, -⟩ := (KV.mutateStore_spec s.node.kvstore cmd).1 o ho hfit
  refine ⟨cur, ?_⟩
  show _ = Except.ok ((KV.applyMutateLogEntry s.node cmd).1.kvstore, cur)
  rw [KV.applyMutateLogEntry_kvstore, KV.applyStore, hdb]

/-- A record that is set brings its agent into the pool. -/
theorem apply_set (hb : s.Behind) (h : OnAgent c agentId cmd) (hop : cmd.op = .SET)
    (hacc : KV.Accepts s.node.kvstore cmd) :
    (∀ id, (s.apply c cmd).pool.has id ↔ s.pool.has id ∨ id = agentId) ∧
      ∀ id, Registered (s.apply c cmd).node.kvstore id ↔
        id = agentId ∨ Registered s.node.kvstore id := by
  rcases h.value with hunset | ⟨-, ins, e, hvalue, hval, hins, haddr⟩
  · cases hop.symm.trans hunset
  have hcur : KV.currentOf cmd = some e := by
    unfold KV.currentOf
    rw [hop]
    exact hvalue
  constructor
  · intro id
    rw [apply_of_accepts hacc h, hcur, h.key, h.record]
    cases hbuild : KV.buildChange cmd
        (KV.getKV s.node.kvstore (WithAgentPrefix agentId) false).toOption (some e) with
    | none =>
      -- the record is there with this value already
      refine (or_iff_left_of_imp ?_).symm
      rintro rfl
      refine hb.covers id ⟨h.name, ?_⟩
      cases hget : KV.getKV s.node.kvstore (WithAgentPrefix id) false with
      | ok last => exact ⟨last, rfl⟩
      | error err =>
        rw [hget] at hbuild
        cases hbuild
    | some change =>
      have hchange := Option.some.inj (Option.ite_none_left_eq_some.mp hbuild).2
      rw [if_neg (by rw [hop]; exact nofun)] at hchange
      rw [Option.bind_some, ← hchange, convert_set c hval, Option.toList_some,
        AgentPool.updateAgentInstanceFromCh, List.foldl_cons, List.foldl_nil,
        AgentPool.has_update (by split <;> simp), hins]
      simp [haddr]
  · intro id
    obtain ⟨cur, hdb⟩ := apply_kvstore hacc
    have hset := (KV.mutateStore_set hop hdb).1
    rw [hvalue, h.key, h.record] at hset
    exact registered_of_set h.name hset

/-- A record that is removed leaves its agent in the pool. -/
theorem apply_unset (hb : s.Behind) (h : OnAgent c agentId cmd) (hop : cmd.op = .UNSET)
    (hacc : KV.Accepts s.node.kvstore cmd) :
    (∀ id, (s.apply c cmd).pool.has id ↔ s.pool.has id) ∧
      ∀ id, Registered (s.apply c cmd).node.kvstore id ↔
        id ≠ agentId ∧ Registered s.node.kvstore id := by
  have hcur : KV.currentOf cmd = none := by
    unfold KV.currentOf
    rw [hop]
  constructor
  · intro id
    have hbuild : ∀ last, KV.buildChange cmd last none = some ⟨.Unset, cmd.key, last, none⟩ := by
      intro last
      unfold KV.buildChange
      rw [hop]
      cases last <;> rfl
    rw [apply_of_accepts hacc h, hcur, hbuild, Option.bind_some, convert_unset, Option.toList_some,
      AgentPool.updateAgentInstanceFromCh, List.foldl_cons, List.foldl_nil, AgentPool.has_delete]
    exact and_iff_right_of_imp fun hhas => (hb.named id hhas).ne_empty
  · intro id
    obtain ⟨cur, hdb⟩ := apply_kvstore hacc
    have hunset := (KV.mutateStore_unset hop hdb).1
    rw [h.key, h.record] at hunset
    exact registered_of_unset h.name hunset

/-- One command: the pool loses nobody, and an agent that leaves the store was removed from it. -/
theorem apply_spec (hb : s.Behind) (h : OnAgent c agentId cmd) :
    (s.apply c cmd).Behind ∧ (∀ id, s.pool.has id → (s.apply c cmd).pool.has id) ∧
      (∀ id, (s.apply c cmd).pool.has id →
        s.pool.has id ∨ Registered (s.apply c cmd).node.kvstore id) ∧
      ∀ id, Registered s.node.kvstore id → ¬ Registered (s.apply c cmd).node.kvstore id →
        cmd.op = .UNSET ∧ cmd.key = WithAgentPrefix id := by
  by_cases hacc : KV.Accepts s.node.kvstore cmd
  · cases hop : cmd.op with
    | OP_UNKNOWN => obtain hunset | ⟨hset, -⟩ := h.value <;> simp_all
    | SET =>
      obtain ⟨hpool, hreg⟩ := apply_set hb h hop hacc
      refine ⟨⟨fun id hid => ?_, fun id hid => ?_⟩, fun id hid => (hpool id).mpr (.inl hid),
        fun id hid => ?_, fun id hid hnot => absurd ((hreg id).mpr (.inr hid)) hnot⟩
      · exact (hpool id).mpr (((hreg id).mp hid).symm.imp_left (hb.covers id))
      · rcases (hpool id).mp hid with hid | rfl
        · exact hb.named id hid
        · exact h.name
      · exact ((hpool id).mp hid).imp_right fun heq => (hreg id).mpr (.inl heq)
    | UNSET =>
      obtain ⟨hpool, hreg⟩ := apply_unset hb h hop hacc
      refine ⟨⟨fun id hid => ?_, fun id hid => ?_⟩, fun id hid => (hpool id).mpr hid,
        fun id hid => .inl ((hpool id).mp hid), fun id hid hnot => ⟨rfl, ?_⟩⟩
      · exact (hpool id).mpr (hb.covers id ((hreg id).mp hid).2)
      · exact hb.named id ((hpool id).mp hid)
      · by_contra hkey
        exact hnot ((hreg id).mpr ⟨fun heq => hkey (heq ▸ h.key), hid⟩)
  · obtain ⟨hpool, hstore⟩ := apply_of_rejected hacc (c := c)
    refine ⟨⟨fun id hid => ?_, fun id hid => ?_⟩, fun id hid => ?_, fun id hid => ?_,
      fun id hid hnot => ?_⟩
    · rw [hpool]
      exact hb.covers id (hstore ▸ hid)
    · exact hb.named id (hpool ▸ hid)
    · rwa [hpool]
    · exact .inl (hpool ▸ hid)
    · rw [hstore] at hnot
      exact absurd hid hnot

/-! ## Every sequence of commands -/

/-- Each agent whose record is removed has a record again in the end. -/
def Returning (s : Watched χ) (c : Codec AgentInstance) (cmds : List KV.MutateCommand) : Prop :=
  ∀ pre cmd post, cmds = pre ++ cmd :: post → cmd.op = .UNSET →
    ∀ id, cmd.key = WithAgentPrefix id → Registered (s.run c pre).node.kvstore id →
      Registered (s.run c cmds).node.kvstore id

theorem run_append (cmds more : List KV.MutateCommand) :
    s.run c (cmds ++ more) = (s.run c cmds).run c more := List.foldl_append

theorem run_behind (hb : s.Behind) {cmds : List KV.MutateCommand}
    (h : ∀ cmd ∈ cmds, ∃ agentId, OnAgent c agentId cmd) :
    (s.run c cmds).Behind ∧ ∀ id, s.pool.has id → (s.run c cmds).pool.has id := by
  induction cmds generalizing s with
  | nil => exact ⟨hb, fun id hid => hid⟩
  | cons cmd cmds ih =>
    obtain ⟨agentId, honAgent⟩ := h cmd List.mem_cons_self
    obtain ⟨hb', hkeep, -, -⟩ := apply_spec hb honAgent
    obtain ⟨hb'', hkeep'⟩ := ih hb' fun cmd hcmd => h cmd (List.mem_cons_of_mem _ hcmd)
    exact ⟨hb'', fun id hid => hkeep' id (hkeep id hid)⟩

/-- An agent that only the pool still has was removed from the store by one of the commands. -/
theorem removed_of_run (hagree : s.Agrees) {cmds : List KV.MutateCommand}
    (h : ∀ cmd ∈ cmds, ∃ agentId, OnAgent c agentId cmd) (hid : (s.run c cmds).pool.has id) :
    Registered (s.run c cmds).node.kvstore id ∨
      ∃ pre cmd post, cmds = pre ++ cmd :: post ∧ cmd.op = .UNSET ∧
        cmd.key = WithAgentPrefix id ∧ Registered (s.run c pre).node.kvstore id := by
  induction cmds using List.reverseRecOn with
  | nil => exact .inl ((hagree id).mp hid)
  | append_singleton cmds cmd ih =>
    have hbefore : ∀ cmd ∈ cmds, ∃ agentId, OnAgent c agentId cmd :=
      fun cmd hcmd => h cmd (List.mem_append_left _ hcmd)
    obtain ⟨agentId, honAgent⟩ := h cmd (List.mem_append_right _ (List.mem_singleton_self _))
    obtain ⟨-, -, hpool, hremoved⟩ := apply_spec (run_behind hagree.behind hbefore).1 honAgent
    rw [run_append] at hid ⊢
    by_cases hreg : Registered ((s.run c cmds).run c [cmd]).node.kvstore id
    · exact .inl hreg
    · refine .inr ?_
      rcases hpool id hid with hid | hreg'
      · rcases ih hbefore hid with hreg' | ⟨pre, cmd', post, rfl, hop, hkey, hpre⟩
        · obtain ⟨hop, hkey⟩ := hremoved id hreg' hreg
          exact ⟨cmds, cmd, [], rfl, hop, hkey, hreg'⟩
        · exact ⟨pre, cmd', post ++ [cmd], by simp, hop, hkey, hpre⟩
      · exact absurd hreg' hreg

/-- After any commands on agents, the pool agrees with the store exactly when every agent that was
removed is there again. -/
theorem run_agrees_iff (c : Codec AgentInstance) (s : Watched χ) (hagree : s.Agrees)
    (cmds : List KV.MutateCommand) (h : ∀ cmd ∈ cmds, ∃ agentId, OnAgent c agentId cmd) :
    (s.run c cmds).Agrees ↔ s.Returning c cmds := by
  obtain ⟨hbehind, -⟩ := run_behind hagree.behind h
  constructor
  · rintro hend pre cmd post rfl hop id hkey hreg
    have hpre : ∀ cmd ∈ pre, ∃ agentId, OnAgent c agentId cmd :=
      fun cmd hcmd => h cmd (List.mem_append_left _ hcmd)
    have hpost : ∀ cmd' ∈ cmd :: post, ∃ agentId, OnAgent c agentId cmd' :=
      fun cmd hcmd => h cmd (List.mem_append_right _ hcmd)
    have hthen := (run_behind hagree.behind hpre).1
    have hkept := (run_behind hthen hpost).2 id (hthen.covers id hreg)
    rw [← run_append] at hkept
    exact (hend id).mp hkept
  · intro hreturning id
    refine ⟨fun hid => ?_, hbehind.covers id⟩
    rcases removed_of_run hagree h hid with hreg | ⟨pre, cmd, post, hsplit, hop, hkey, hreg⟩
    · exact hreg
    · exact hreturning pre cmd post hsplit hop id hkey hreg

/-! ## An agent that comes and goes -/

theorem agrees_empty : ({} : Watched Unit).Agrees := by
  refine fun id => iff_of_false (fun h => h rfl) fun h => ?_
  obtain ⟨hname, e, he⟩ := h
  have hkey : KV.ValueKey (WithAgentPrefix id) := by
    refine (KV.valueKey_iff hname.key_filled).mpr ?_
    rw [keySplitter_WithAgentPrefix hname.whole]
    exact ⟨List.cons_ne_nil _ _, hname.filled⟩
  have hlook : ∀ v, (default : KV.Store).look (KV.keyPath (WithAgentPrefix id)) ≠ some (.val v) := by
    intro v
    rw [show (default : KV.Store) = Lib.Tree.empty from rfl, Lib.Tree.look_empty]
    split <;> simp
  rw [KV.getKV_of_no_value hkey hlook] at he
  cases he

/-- A record that stays until it is removed. -/
def registerCmd : KV.MutateCommand :=
  KV.setCommand (fun _ => "") 0
    (agentReq agentCodec { AgentId := "agent-1", Addr := "10.0.0.1:20219" } 0 rfl true) none

def unregisterCmd : KV.MutateCommand := KV.unsetCommand (WithAgentPrefix "agent-1") false

theorem onAgent_register : OnAgent agentCodec "agent-1" registerCmd := by
  have hname : AgentName "agent-1" := ⟨by decide, by decide⟩
  have haddr : ({ AgentId := "agent-1", Addr := "10.0.0.1:20219" } : AgentInstance).Addr ≠ "" := by
    decide
  exact onAgent_set agentCodec hname haddr 0 rfl true _ _ _

theorem onAgent_unregister : OnAgent agentCodec "agent-1" unregisterCmd :=
  onAgent_unset agentCodec ⟨by decide, by decide⟩

theorem accepts_of_isOk {db : KV.Store} {cmd : KV.MutateCommand}
    (h : (KV.mutateStore db cmd).isOk = true) : KV.Accepts db cmd := by
  by_contra hrejected
  obtain ⟨err, herr⟩ := (KV.mutateStore_spec db cmd).2 hrejected
  rw [herr] at h
  cases h

theorem registered_then_removed :
    let s := ({} : Watched Unit).run agentCodec [registerCmd, unregisterCmd]
    s.Behind ∧ s.pool.has "agent-1" ∧ ¬ Registered s.node.kvstore "agent-1" := by
  have hset := apply_spec agrees_empty.behind onAgent_register
  have hhas := (apply_set agrees_empty.behind onAgent_register rfl
    (accepts_of_isOk (by decide))).1 "agent-1"
  have hunset := apply_spec hset.1 onAgent_unregister
  have hgone := (apply_unset hset.1 onAgent_unregister rfl
    (accepts_of_isOk (by decide +kernel))).2 "agent-1"
  exact ⟨hunset.1, hunset.2.1 _ (hhas.mpr (.inr rfl)), fun hreg => (hgone.mp hreg).1 rfl⟩

/-- The agent has left, and the pool still has its node. -/
theorem run_unregistered_stays :
    ({} : Watched Unit).Agrees ∧
      (∀ cmd ∈ [registerCmd, unregisterCmd], ∃ agentId, OnAgent agentCodec agentId cmd) ∧
      ¬ (({} : Watched Unit).run agentCodec [registerCmd, unregisterCmd]).Agrees := by
  refine ⟨agrees_empty, ?_, fun hagree => ?_⟩
  · simp only [List.forall_mem_cons, List.not_mem_nil, false_implies, implies_true, and_true]
    exact ⟨⟨_, onAgent_register⟩, _, onAgent_unregister⟩
  · obtain ⟨-, hhas, hgone⟩ := registered_then_removed
    exact hgone ((hagree "agent-1").mp hhas)

/-- The agent comes back, and the pool agrees with the store. -/
theorem run_agrees_iff_back :
    (({} : Watched Unit).run agentCodec [registerCmd, unregisterCmd, registerCmd]).Agrees := by
  have hall : ∀ cmd ∈ [registerCmd, unregisterCmd, registerCmd],
      ∃ agentId, OnAgent agentCodec agentId cmd := by
    simp only [List.forall_mem_cons, List.not_mem_nil, false_implies, implies_true, and_true]
    exact ⟨⟨_, onAgent_register⟩, ⟨_, onAgent_unregister⟩, _, onAgent_register⟩
  refine (run_agrees_iff agentCodec {} agrees_empty _ hall).mpr ?_
  intro pre cmd post hsplit hop id hkey hreg
  have hback := (apply_set registered_then_removed.1 onAgent_register rfl
    (accepts_of_isOk (by decide +kernel))).2 id
  refine hback.mpr (.inl ?_)
  -- all the commands are on this one agent
  have hcmd : cmd ∈ [registerCmd, unregisterCmd, registerCmd] := by
    rw [hsplit]
    exact List.mem_append_right _ List.mem_cons_self
  have hkeys : cmd.key = WithAgentPrefix "agent-1" := by
    simp only [List.mem_cons, List.not_mem_nil, or_false] at hcmd
    rcases hcmd with rfl | rfl | rfl <;> rfl
  exact WithAgentPrefix_inj hreg.1.whole (by decide) (hkey.symm.trans hkeys)

end Watched

end Cassem.Adm
