import Cassem.KV.Acknowledge

/-!
# Where stored values come from

Every path of a node's store stands as the last entry that touched it left it, and
that entry is no older than any entry touching the path which the node's present
run, or the snapshot it loaded, has applied. It may be younger: a node that starts
again without a snapshot replays the log over the store that the log has made.
-/

namespace Cassem.KV

open Lib Lib.HierMap

/-- Only a SET of a value names the writing of a value. -/
theorem commandOp_put {cmd : MutateCommand} {p : List String} {v : Entity}
    (h : commandOp cmd = some (.put p v)) :
    cmd.op = .SET ∧ p = keyPath cmd.key ∧ v = cmd.value.getD default := by
  rcases commandOp_cases h with ⟨-, -, ho⟩ | ⟨hop, -, -, ho⟩ | ⟨-, -, ho⟩ | ⟨-, -, ho⟩ | ⟨-, -, q, ho⟩
  · cases ho
  · cases ho
    exact ⟨hop, rfl, rfl⟩
  · cases ho
  · cases ho
  · cases ho

theorem put_of_leaves {o : Op String Entity} {p : List String} {v : Entity}
    (h : o.leaves p = some (.val v)) : o = .put p v := by
  cases o with
  | put q w =>
    simp only [Op.leaves] at h
    split at h
    · next hq =>
      cases h
      rw [hq]
    · cases h
  | _ => cases h

/-- The store is what entries of the log have made of the empty one: `touched` tells
which, and covers the first `applied` ones. -/
structure Made (log : List Entry) (store : Store) (applied : Nat) (touched : Touched) : Prop where
  bound : applied ≤ log.length
  writer : ∀ p i, touched p = some i → ∃ e o, log[i]? = some e ∧ commandOp e.cmd = some o ∧
    o.touches p ∧ store.look p = o.leaves p
  untouched : ∀ p, touched p = none → store.look p = (default : Store).look p
  latest : ∀ p i e o, i < applied → log[i]? = some e → commandOp e.cmd = some o → o.touches p →
    ∃ j, touched p = some j ∧ i ≤ j

namespace Made

variable {log : List Entry} {store : Store} {applied : Nat} {touched : Touched}

theorem init : Made [] default 0 (fun _ => none) where
  bound := Nat.le_refl _
  writer _ _ h := by cases h
  untouched _ _ := rfl
  latest _ _ _ _ h := absurd h (Nat.not_lt_zero _)

theorem append (h : Made log store applied touched) (e : Entry) :
    Made (log ++ [e]) store applied touched where
  bound := by
    rw [List.length_append]
    exact h.bound.trans (Nat.le_add_right _ _)
  writer p i hi := by
    obtain ⟨e', o, he', hrest⟩ := h.writer p i hi
    exact ⟨e', o, getElem?_concat_iff.mpr (.inl he'), hrest⟩
  untouched := h.untouched
  latest p i e' o hi he' := by
    rcases getElem?_concat_iff.mp he' with he' | ⟨rfl, -⟩
    · exact h.latest p i e' o hi he'
    · exact absurd h.bound (by omega)

/-- The log may be replayed from its start over the store it has made. -/
theorem rewind (h : Made log store applied touched) : Made log store 0 touched where
  bound := Nat.zero_le _
  writer := h.writer
  untouched := h.untouched
  latest _ _ _ _ hi := absurd hi (Nat.not_lt_zero _)

theorem apply (h : Made log store applied touched) {e : Entry} {o : Op String Entity}
    {store' : Store} (he : log[applied]? = some e) (ho : commandOp e.cmd = some o)
    (hlook : store'.look = o.effect store.look) :
    Made log store' (applied + 1) (touchedAfter touched applied e.cmd) where
  bound := (List.getElem?_eq_some_iff.mp he).1
  writer p i hi := by
    simp only [touchedAfter, ho] at hi
    rw [hlook]
    split at hi
    · next ht =>
      cases hi
      exact ⟨e, o, he, ho, ht, Op.effect_of_touches ht⟩
    · next ht =>
      obtain ⟨e', o', he', ho', ht', hl'⟩ := h.writer p i hi
      exact ⟨e', o', he', ho', ht', by rw [Op.effect_of_not_touches ht, hl']⟩
  untouched p hp := by
    simp only [touchedAfter, ho] at hp
    split at hp
    · cases hp
    · next ht => rw [hlook, Op.effect_of_not_touches ht, h.untouched p hp]
  latest p i e' o' hi he' ho' ht' := by
    simp only [touchedAfter, ho]
    split
    · exact ⟨applied, rfl, Nat.le_of_lt_succ hi⟩
    · next ht =>
      rcases Nat.lt_succ_iff_lt_or_eq.mp hi with hi | rfl
      · exact h.latest p i e' o' hi he' ho' ht'
      · rw [he] at he'
        cases he'
        rw [ho] at ho'
        cases ho'
        exact absurd ht' ht

/-- A stored value was written by the entry that touched its path last. -/
theorem put_of_look (h : Made log store applied touched) {p : List String} {v : Entity}
    (hv : store.look p = some (.val v)) :
    ∃ i e, touched p = some i ∧ log[i]? = some e ∧ commandOp e.cmd = some (.put p v) := by
  cases ht : touched p with
  | none =>
    rw [h.untouched p ht] at hv
    rw [show (default : Store) = Tree.empty from rfl, Tree.look_empty] at hv
    split at hv <;> cases hv
  | some i =>
    obtain ⟨e, o, he, ho, -, hl⟩ := h.writer p i ht
    rw [hv] at hl
    exact ⟨i, e, rfl, he, by rw [ho, put_of_leaves hl.symm]⟩

end Made

/-- What applying an entry does to the store of a node. -/
theorem Member.applyEntry_store (m : Member) (e : Entry) :
    (∃ o, commandOp e.cmd = some o ∧ o.Fits m.impl.kvstore.look ∧
      (m.applyEntry e).impl.kvstore.look = o.effect m.impl.kvstore.look ∧
      (m.applyEntry e).applied = m.applied + 1 ∧
      (m.applyEntry e).touched = touchedAfter m.touched m.applied e.cmd ∧
      (m.applyEntry e).snapshot = m.snapshot) ∨
    (¬ Accepts m.impl.kvstore e.cmd ∧
      (m.applyEntry e).impl.kvstore = m.impl.kvstore ∧ (m.applyEntry e).applied = m.applied ∧
      (m.applyEntry e).touched = m.touched ∧ (m.applyEntry e).snapshot = m.snapshot) := by
  have hiff := applyMutateLogEntry_none_iff m.impl e.cmd
  have hstore := applyMutateLogEntry_kvstore m.impl e.cmd
  unfold Member.applyEntry
  rcases hr : applyMutateLogEntry m.impl e.cmd with ⟨impl, _ | err⟩
  · obtain ⟨o, ho, hfit⟩ := hiff.mp (by rw [hr])
    rw [hr] at hstore
    refine .inl ⟨o, ho, hfit, ?_, rfl, rfl, rfl⟩
    dsimp only
    rw [hstore, applyStore_of_accepts ho hfit]
  · have hno : ¬ Accepts m.impl.kvstore e.cmd := fun h => by
      have := hiff.mpr h
      rw [hr] at this
      cases this
    rw [hr] at hstore
    exact .inr ⟨hno, by rw [hstore, applyStore_of_rejected hno], rfl, rfl, rfl⟩

namespace Cluster

variable {ν : Type}

/-- The store and the snapshot of every node are made by the log. -/
structure Grounded (s : Cluster ν) : Prop where
  nodes : ∀ n, Made s.log (s.nodes n).impl.kvstore (s.nodes n).applied (s.nodes n).touched
  snapshots : ∀ n snap, (s.nodes n).snapshot = some snap →
    Made s.log snap.data snap.index snap.touched

theorem grounded_init : ({} : Cluster ν).Grounded where
  nodes _ := .init
  snapshots _ _ h := by cases h

/-- The node's store and snapshot are left alone. -/
structure KeepsStore (m m' : Member) : Prop where
  kvstore : m'.impl.kvstore = m.impl.kvstore
  applied : m'.applied = m.applied
  touched : m'.touched = m.touched
  snapshot : m'.snapshot = m.snapshot

theorem KeepsStore.refl (m : Member) : KeepsStore m m := ⟨rfl, rfl, rfl, rfl⟩

theorem Grounded.of_keeps {s s' : Cluster ν} (h : s.Grounded)
    (hnodes : ∀ n, KeepsStore (s.nodes n) (s'.nodes n)) (hlog : s'.log = s.log) :
    s'.Grounded where
  nodes n := by
    rw [(hnodes n).kvstore, (hnodes n).applied, (hnodes n).touched, hlog]
    exact h.nodes n
  snapshots n snap hs := by
    rw [(hnodes n).snapshot] at hs
    rw [hlog]
    exact h.snapshots n snap hs

variable [DecidableEq ν]

/-- One node changes; what is made by the log stays made by it. -/
theorem Grounded.of_setNode {s : Cluster ν} (h : s.Grounded) {n : ν} {m : Member}
    (hm : Made s.log m.impl.kvstore m.applied m.touched)
    (hsnap : ∀ snap, m.snapshot = some snap → Made s.log snap.data snap.index snap.touched) :
    (s.setNode n m).Grounded where
  nodes k := by
    rw [setNode_nodes]
    split
    · exact hm
    · exact h.nodes k
  snapshots k snap hs := by
    rw [setNode_nodes] at hs
    split at hs
    · exact hsnap snap hs
    · exact h.snapshots k snap hs

theorem register_keepsStore (s : Cluster ν) (t : Nat) (th : Thread ν) (cmd : MutateCommand)
    (observed : Option Observation) (next : Then) (n : ν) :
    KeepsStore (s.nodes n) ((s.register t th cmd observed next).nodes n) := by
  unfold register RaftNode.registerPending
  cases hup : (s.nodes th.node).impl.shuttingDown with
  | true =>
    simp only [hup, ↓reduceIte]
    exact .refl _
  | false =>
    simp only [hup, Bool.false_eq_true, ↓reduceIte, setNode_nodes]
    split
    · next hn =>
      rw [hn]
      exact ⟨rfl, rfl, rfl, rfl⟩
    · exact .refl _

/-- What a registration leaves alone, and where it takes its thread. -/
theorem register_rest (s : Cluster ν) (t : Nat) (th : Thread ν) (cmd : MutateCommand)
    (observed : Option Observation) (next : Then) :
    (s.register t th cmd observed next).log = s.log ∧
    (s.register t th cmd observed next).proposed = s.proposed ∧
    (s.register t th cmd observed next).now = s.now ∧
    ∃ pc, (s.register t th cmd observed next).threads = (s.setPc t th pc).threads ∧
      (pc = next.resume (some ErrShuttingDown) ∨
        ∃ id, pc = .propose s.requests.length { cmd with requestId := id } observed next) := by
  unfold register RaftNode.registerPending
  cases hup : (s.nodes th.node).impl.shuttingDown with
  | true =>
    simp only [hup, ↓reduceIte]
    exact ⟨rfl, rfl, rfl, _, rfl, .inl rfl⟩
  | false =>
    simp only [hup, Bool.false_eq_true, ↓reduceIte]
    exact ⟨rfl, rfl, rfl, _, rfl, .inr ⟨_, rfl⟩⟩

theorem grounded_step {md5 : Bytes → String} {s s' : Cluster ν} {l : Label ν} (h : s.Grounded)
    (hs : step md5 s l = some s') : s'.Grounded := by
  cases moves_of_step hs with
  | call n c => exact h.of_keeps (fun _ => .refl _) rfl
  | advance hth hpc => exact h.of_keeps (fun _ => .refl _) rfl
  | register hth hpc => exact h.of_keeps (register_keepsStore s _ _ _ _ _) (register_rest s _ _ _ _ _).1
  | propose hth hpc => exact h.of_keeps (fun _ => .refl _) rfl
  | finish hth hl hend =>
    exact h.of_keeps (forall_setNode KeepsStore.refl ⟨rfl, rfl, rfl, rfl⟩) rfl
  | commit he =>
    exact ⟨fun n => (h.nodes n).append _, fun n snap hsnap => (h.snapshots n snap hsnap).append _⟩
  | drop he => exact h.of_keeps (fun _ => .refl _) rfl
  | @apply n e hloop he =>
    rcases (s.nodes n).applyEntry_store e with
      ⟨o, ho, -, hlook, happ, htou, hsnap⟩ | ⟨-, hkv, happ, htou, hsnap⟩
    · refine h.of_setNode ?_ fun snap hs => h.snapshots n snap (hsnap ▸ hs)
      rw [happ, htou]
      exact (h.nodes n).apply he ho hlook
    · exact h.of_keeps (forall_setNode KeepsStore.refl ⟨hkv, happ, htou, hsnap⟩) rfl
  | tick seconds => exact h.of_keeps (fun _ => .refl _) rfl
  | shutdown n =>
    refine h.of_keeps (forall_setNode KeepsStore.refl ⟨?_, rfl, rfl, rfl⟩) rfl
    unfold RaftNode.shutdown
    split <;> rfl
  | restart n =>
    refine ⟨fun k => ?_, fun k snap hk => ?_⟩
    · simp only [restart, setNode_nodes]
      split
      · cases hsnap : (s.nodes n).snapshot with
        | none => exact (h.nodes n).rewind
        | some snap => exact h.snapshots n snap hsnap
      · exact h.nodes k
    · simp only [restart, setNode_nodes] at hk
      split at hk
      · exact h.snapshots n snap hk
      · exact h.snapshots k snap hk
  | snapshot n =>
    refine h.of_setNode (h.nodes n) fun snap hsnap => ?_
    cases hsnap
    exact h.nodes n
  | @install n m snap hsnap hnew =>
    have hmade := h.snapshots m snap hsnap
    refine h.of_setNode hmade fun snap' hsnap' => ?_
    cases hsnap'
    exact hmade

end Cluster

end Cassem.KV
