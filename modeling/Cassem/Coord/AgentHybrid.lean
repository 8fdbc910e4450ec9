import Cassem.Concept.ElementKey
import Cassem.KV.Cluster
import Cassem.KV.HierarchicalMap
import Cassem.Lib.Protobuf

/-!
# Agents in the store

An agent keeps its record under its id, in the agents directory. The changes of that directory
are turned into changes of agents: what a change is about is read from the value that it leaves.
-/

namespace Cassem.Coord

open Cassem.Concept Lib.Protobuf

structure AgentInstance where
  AgentId : String := ""
  Addr : String := ""
  deriving DecidableEq, Repr, Inhabited

inductive ChangeOp where
  | UNDEFINED
  | NEW
  | UPDATE
  | DELETE
  deriving DecidableEq, Repr

structure AgentInstanceChange where
  Ins : Option AgentInstance
  Op : ChangeOp
  deriving DecidableEq, Repr

def agentPrefix : String := "cassem/agents"

def WithAgentPrefix (agentId : String) : String := joint [agentPrefix, agentId]

/-- The requests of `Register` and `Renew`, which differ in whether they overwrite. -/
def agentReq (c : Codec AgentInstance) (ins : AgentInstance) (ttl : Int)
    (httl : KV.int32 ttl = ttl) (overwrite : Bool) : KV.SetKVReq :=
  { key := WithAgentPrefix ins.AgentId, isDir := false, ttl, val := c.marshal ins, overwrite
    ttl_int32 := httl }

/-- The value of a change that leaves none is empty, and empty bytes are read, too. -/
def ConvertChangeToChange (c : Codec AgentInstance) (c1 : KV.Change) :
    Option AgentInstanceChange :=
  let op := match c1.op with
    | .Set => if c1.last.isNone then ChangeOp.NEW else .UPDATE
    | .Unset => .DELETE
  (c.unmarshal ((c1.current.map (·.val)).getD [])).map fun ins => ⟨some ins, op⟩

/-- The id and the address, as they are written. -/
def agentCodec : Codec AgentInstance where
  marshal ins := marshalTexts [(1, ins.AgentId), (2, ins.Addr)]
  unmarshal bytes := do
    let fields ← readFields bytes.length bytes
    return { AgentId := ← textOf fields 1, Addr := ← textOf fields 2 }
  unmarshal_marshal ins := by
    have hnodup : ([(1, ins.AgentId), (2, ins.Addr)].map (·.1)).Nodup := by simp
    have hsmall : ∀ t ∈ [(1, ins.AgentId), (2, ins.Addr)], t.1 < 16 := by simp
    have hread := readFields_marshalTexts hsmall
    have hid : textOf (fieldsOf [(1, ins.AgentId), (2, ins.Addr)]) 1 = some ins.AgentId :=
      textOf_fieldsOf hnodup (by simp)
    have haddr : textOf (fieldsOf [(1, ins.AgentId), (2, ins.Addr)]) 2 = some ins.Addr :=
      textOf_fieldsOf hnodup (by simp)
    simp only [hread, hid, haddr, Option.bind_eq_bind, Option.bind_some]
    rfl
  unmarshal_nil := by decide

/-- What a removal is turned into names no agent. -/
theorem convert_unset (c : Codec AgentInstance) (key : String) (last : Option KV.Entity) :
    ConvertChangeToChange c ⟨.Unset, key, last, none⟩ = some ⟨some {}, .DELETE⟩ := by
  unfold ConvertChangeToChange
  simp only [Option.map_none, Option.getD_none, c.unmarshal_nil]
  rfl

theorem convert_set (c : Codec AgentInstance) {key : String} {last : Option KV.Entity}
    {e : KV.Entity} {ins : AgentInstance} (h : e.val = c.marshal ins) :
    ConvertChangeToChange c ⟨.Set, key, last, some e⟩ =
      some ⟨some ins, if last.isNone then .NEW else .UPDATE⟩ := by
  unfold ConvertChangeToChange
  simp only [Option.map_some, Option.getD_some, h, c.unmarshal_marshal]

/-! ## Keys of agents -/

/-- An id that is one segment of a key. -/
structure AgentName (agentId : String) : Prop where
  whole : '/' ∉ agentId.toList
  filled : KV.isEmptyLeaf agentId = false

theorem split_WithAgentPrefix {agentId : String} (h : '/' ∉ agentId.toList) :
    KV.split (WithAgentPrefix agentId) = ["cassem", "agents", agentId] := by
  have hkey : WithAgentPrefix agentId = "/".intercalate ["cassem", "agents", agentId] := by
    apply String.toList_injective
    simp [WithAgentPrefix, joint, agentPrefix]
  rw [hkey]
  refine KV.split_intercalate (List.cons_ne_nil _ _) fun s hs => ?_
  simp only [List.mem_cons, List.not_mem_nil, or_false] at hs
  rcases hs with rfl | rfl | rfl
  · decide
  · decide
  · exact h

theorem keySplitter_WithAgentPrefix {agentId : String} (h : '/' ∉ agentId.toList) :
    KV.keySplitter (WithAgentPrefix agentId) = (["cassem", "agents"], agentId) := by
  rw [KV.keySplitter, split_WithAgentPrefix h]
  rfl

theorem WithAgentPrefix_inj {id id' : String} (h : '/' ∉ id.toList) (h' : '/' ∉ id'.toList)
    (heq : WithAgentPrefix id = WithAgentPrefix id') : id = id' := by
  have hsplit := keySplitter_WithAgentPrefix h
  rw [heq, keySplitter_WithAgentPrefix h'] at hsplit
  exact (congrArg Prod.snd hsplit).symm

theorem AgentName.ne_empty {agentId : String} (h : AgentName agentId) : agentId ≠ "" := by
  rintro rfl
  cases h.filled

theorem AgentName.key_filled {agentId : String} (h : AgentName agentId) :
    KV.Filled (WithAgentPrefix agentId) := by
  unfold KV.Filled
  rw [split_WithAgentPrefix h.whole]
  simp [h.ne_empty.symm]

/-! ## Who is registered -/

/-- The store has a record of the agent. -/
def Registered (db : KV.Store) (agentId : String) : Prop :=
  AgentName agentId ∧ ∃ e, KV.getKV db (WithAgentPrefix agentId) false = .ok e

/-- A command on the record of the agent; a record that is set has an address. -/
structure OnAgent (c : Codec AgentInstance) (agentId : String) (cmd : KV.MutateCommand) :
    Prop where
  name : AgentName agentId
  key : cmd.key = WithAgentPrefix agentId
  record : cmd.isDir = false
  value : cmd.op = .UNSET ∨ cmd.op = .SET ∧ ∃ ins e, cmd.value = some e ∧
    e.val = c.marshal ins ∧ ins.AgentId = agentId ∧ ins.Addr ≠ ""

/-- The commands of `Register` and `Renew`. -/
theorem onAgent_set (c : Codec AgentInstance) {ins : AgentInstance} (hname : AgentName ins.AgentId)
    (haddr : ins.Addr ≠ "") (ttl : Int) (httl : KV.int32 ttl = ttl) (overwrite : Bool)
    (md5 : KV.Bytes → String) (now : Int) (last : Option KV.Entity) :
    OnAgent c ins.AgentId (KV.setCommand md5 now (agentReq c ins ttl httl overwrite) last) :=
  ⟨hname, rfl, rfl, .inr ⟨rfl, ins, _, rfl, rfl, rfl, haddr⟩⟩

/-- The command of `Unregister`, and of the removal of a record that has expired. -/
theorem onAgent_unset (c : Codec AgentInstance) {agentId : String} (hname : AgentName agentId) :
    OnAgent c agentId (KV.unsetCommand (WithAgentPrefix agentId) false) :=
  ⟨hname, rfl, rfl, .inl rfl⟩

section Registered

variable {db db' : KV.Store} {agentId id : String} {e : KV.Entity}

theorem registered_of_set (hname : AgentName agentId)
    (h : KV.setKV db (WithAgentPrefix agentId) e false = .ok db') :
    Registered db' id ↔ id = agentId ∨ Registered db id := by
  have hbound := KV.bound_of_setKV h
  by_cases hid : id = agentId
  · subst hid
    exact iff_of_true ⟨hname, e, hbound.own⟩ (.inl rfl)
  · rw [or_iff_right hid]
    refine and_congr_right fun hidname => ?_
    have hkey : ¬ (WithAgentPrefix id = WithAgentPrefix agentId ∧ false = false) :=
      fun heq => hid (WithAgentPrefix_inj hidname.whole hname.whole heq.1)
    obtain hsame | ⟨-, -, herr, herr'⟩ :=
      hbound.others _ false hidname.key_filled hkey fun hdir => Bool.false_ne_true hdir.1
    · rw [hsame]
    · rw [herr, herr']
      exact iff_of_false (fun ⟨e, he⟩ => by cases he) fun ⟨e, he⟩ => by cases he

theorem registered_of_unset (hname : AgentName agentId)
    (h : KV.unsetKV db (WithAgentPrefix agentId) false = .ok db') :
    Registered db' id ↔ id ≠ agentId ∧ Registered db id := by
  have hunbound := KV.unbound_of_unsetKV hname.key_filled h
  by_cases hid : id = agentId
  · subst hid
    refine iff_of_false (fun hreg => ?_) fun hreg => hreg.1 rfl
    obtain ⟨e, he⟩ := hreg.2
    obtain ⟨err, herr⟩ := hunbound.gone _ false hname.key_filled ⟨rfl, rfl⟩
    cases he.symm.trans herr
  · rw [and_iff_right hid]
    refine and_congr_right fun hidname => ?_
    have hkey : ¬ (WithAgentPrefix id = WithAgentPrefix agentId ∧ false = false) :=
      fun heq => hid (WithAgentPrefix_inj hidname.whole hname.whole heq.1)
    rw [hunbound.others _ false hidname.key_filled hkey]

end Registered

end Cassem.Coord
