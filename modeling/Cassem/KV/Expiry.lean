import Cassem.KV.Origin

/-!
# Removing expired values

A read that finds an expired entity starts an UNSET of its key. The entity was put
there by an entry of the log, and once expired it stays expired; but the UNSET says
nothing about which entity it means, so what it deletes is expired exactly as long
as no later SET with a running time to live is the last command on the key that
the deleting node has applied.
-/

namespace Cassem.KV

open Lib Lib.HierMap Lib.Transition

/-- Written by `now`, with an `int32` time to live. -/
def Entity.WrittenBy (e : Entity) (now : Int) : Prop := e.updatedAt ≤ now ∧ e.ttl < 2 ^ 31

/-- Not live at `now`, nor ever after. -/
def Entity.Stale (e : Entity) (now : Int) : Prop := ∀ later, now ≤ later → ¬ e.Live later

/-- A SET carries an entity under its own key. -/
def MutateCommand.WrittenBy (cmd : MutateCommand) (now : Int) : Prop :=
  cmd.op = .SET → ∃ v, cmd.value = some v ∧ v.key = cmd.key ∧ v.WrittenBy now

/-- The writer of the observation left the entity at its key, or a directory there. -/
def Observation.FromLog (o : Observation) (log : List Entry) : Prop :=
  ∃ i e op, o.writer = some i ∧ log[i]? = some e ∧ commandOp e.cmd = some op ∧
    op.touches (keyPath o.entity.key) ∧
    (op.leaves (keyPath o.entity.key) = some (.val o.entity) ∨
      op.leaves (keyPath o.entity.key) = some .dir)

/-- The command removes the entity that was observed and found expired. -/
structure Removes (cmd : MutateCommand) (o : Observation) (log : List Entry) (now : Int) :
    Prop where
  fromLog : o.FromLog log
  stale : o.entity.Stale now
  op : cmd.op = .UNSET
  key : cmd.key = o.entity.key
  isDir : cmd.isDir = false

/-- What is known of a command and of the observation that led to it. -/
def Caused (log : List Entry) (now : Int) (cmd : MutateCommand) (observed : Option Observation) :
    Prop :=
  cmd.WrittenBy now ∧ ∀ o, observed = some o → Removes cmd o log now

def Then.Sound (log : List Entry) (now : Int) : Then → Prop
  | .sweep rest => ∀ o ∈ rest, o.FromLog log ∧ o.entity.Stale now
  | _ => True

def Pc.Sound (log : List Entry) (now : Int) : Pc → Prop
  | .setProbe _ last => ∀ o, last = some o → o.FromLog log ∧ o.entity.WrittenBy now
  | .getProbe o => o.FromLog log ∧ o.entity.WrittenBy now
  | .rangeProbe _ touched rows =>
      ∀ k e, (k, .val e) ∈ rows → (observe touched e).FromLog log ∧ e.WrittenBy now
  | .mutate cmd observed next => Caused log now cmd observed ∧ next.Sound log now
  | .propose _ cmd observed next => Caused log now cmd observed ∧ next.Sound log now
  | .waitPending _ _ next => next.Sound log now
  | _ => True

/-! ## Later logs and later times -/

theorem Entity.WrittenBy.mono {e : Entity} {now later : Int} (h : e.WrittenBy now)
    (hle : now ≤ later) : e.WrittenBy later := ⟨h.1.trans hle, h.2⟩

theorem MutateCommand.WrittenBy.mono {cmd : MutateCommand} {now later : Int}
    (h : cmd.WrittenBy now) (hle : now ≤ later) : cmd.WrittenBy later := by
  intro hop
  obtain ⟨v, hv, hkey, hw⟩ := h hop
  exact ⟨v, hv, hkey, hw.mono hle⟩

theorem Entity.Stale.mono {e : Entity} {now later : Int} (h : e.Stale now) (hle : now ≤ later) :
    e.Stale later := fun t ht => h t (hle.trans ht)

section Later

variable {log log' : List Entry} {now now' : Int} (hlog : log <+: log') (hnow : now ≤ now')
include hlog

theorem Observation.FromLog.mono {o : Observation} (h : o.FromLog log) : o.FromLog log' := by
  obtain ⟨i, e, op, hi, he, hrest⟩ := h
  refine ⟨i, e, op, hi, ?_, hrest⟩
  obtain ⟨more, rfl⟩ := hlog
  rw [List.getElem?_append_left (List.getElem?_eq_some_iff.mp he).1, he]

include hnow

theorem Caused.mono {cmd : MutateCommand} {observed : Option Observation}
    (h : Caused log now cmd observed) : Caused log' now' cmd observed :=
  ⟨h.1.mono hnow, fun o ho =>
    let r := h.2 o ho
    ⟨r.fromLog.mono hlog, r.stale.mono hnow, r.op, r.key, r.isDir⟩⟩

theorem Then.Sound.mono {next : Then} (h : next.Sound log now) : next.Sound log' now' := by
  cases next with
  | sweep rest => exact fun o ho => ⟨(h o ho).1.mono hlog, (h o ho).2.mono hnow⟩
  | _ => trivial

theorem Pc.Sound.mono {pc : Pc} (h : pc.Sound log now) : pc.Sound log' now' := by
  cases pc with
  | setProbe req last => exact fun o ho => ⟨(h o ho).1.mono hlog, (h o ho).2.mono hnow⟩
  | getProbe o => exact ⟨h.1.mono hlog, h.2.mono hnow⟩
  | rangeProbe req touched rows =>
    exact fun k e hm => ⟨(h k e hm).1.mono hlog, (h k e hm).2.mono hnow⟩
  | mutate cmd observed next => exact ⟨h.1.mono hlog hnow, h.2.mono hlog hnow⟩
  | propose q cmd observed next => exact ⟨h.1.mono hlog hnow, h.2.mono hlog hnow⟩
  | waitPending q cmd next => exact Then.Sound.mono hlog hnow h
  | _ => trivial

end Later

/-! ## Threads -/

theorem stale_of_expired {e : Entity} {now : Int} (hw : e.WrittenBy now)
    (h : (entityExpired now e).1 = true) : e.Stale now :=
  fun _ hle => not_live_of_expired hw.1 hw.2 hle h

theorem removeExpired_sound {log : List Entry} {now : Int} {o : Observation} {next : Then}
    (hlog : o.FromLog log) (hstale : o.entity.Stale now) (hnext : next.Sound log now) :
    (removeExpired o next).Sound log now := by
  refine ⟨⟨fun h => absurd h MutateOp.noConfusion, fun o' ho => ?_⟩, hnext⟩
  cases ho
  exact ⟨hlog, hstale, rfl, rfl, rfl⟩

theorem resume_sound {log : List Entry} {now : Int} (next : Then) (h : next.Sound log now)
    (err : Option GoError) : (next.resume err).Sound log now := by
  cases next with
  | sweep rest =>
    cases rest with
    | nil => exact True.intro
    | cons o rest =>
      obtain ⟨ho, hrest⟩ := List.forall_mem_cons.mp h
      exact removeExpired_sound ho.1 ho.2 hrest
  | _ => exact True.intro

theorem int32_lt (x : Int) : int32 x < 2 ^ 31 := by
  unfold int32
  rw [Int.bmod_def]
  omega

theorem setCommand_writtenBy (md5 : Bytes → String) (now : Int) (req : SetKVReq)
    (last : Option Entity) : (setCommand md5 now req last).WrittenBy now := by
  intro _
  refine ⟨_, rfl, rfl, Int.le_refl _, ?_⟩
  have hreq := int32_lt req.ttl
  rw [req.ttl_int32] at hreq
  simp only [newEntityWithCreated]
  split
  · unfold NeverExpired
    omega
  · exact hreq

section Reading

variable {log : List Entry} {m : Member} {now : Int}
  (hmade : Made log m.impl.kvstore m.applied m.touched)
  (hcmds : ∀ e ∈ log, e.cmd.WrittenBy now)
include hmade hcmds

/-- A value in the store of a node was written, under the key it carries, by the last
entry that touched that key. -/
theorem observe_of_look {p : List String} {v : Entity}
    (hv : m.impl.kvstore.look p = some (.val v)) :
    (observe m.touched v).FromLog log ∧ v.WrittenBy now ∧ keyPath v.key = p := by
  obtain ⟨i, e, hi, he, hop⟩ := hmade.put_of_look hv
  obtain ⟨hset, hp, hval⟩ := commandOp_put hop
  obtain ⟨w, hw, hkey, hwritten⟩ := hcmds e (List.mem_of_getElem? he) hset
  rw [hw, Option.getD_some] at hval
  subst hval
  have hpath : keyPath v.key = p := by rw [hkey, hp]
  refine ⟨⟨i, e, _, ?_, he, hop, ?_, .inl ?_⟩, hwritten, hpath⟩
  · rw [observe, hpath, hi]
  · rw [observe, hpath]
    exact List.prefix_rfl
  · rw [observe, hpath]
    simp [Op.leaves]

omit hcmds in
theorem observe_of_dir {key : String} (hd : m.impl.kvstore.look (keyPath key) = some .dir) :
    (observe m.touched { key := key }).FromLog log := by
  cases ht : m.touched (keyPath key) with
  | none =>
    rw [hmade.untouched _ ht, show (default : Store) = Tree.empty from rfl, Tree.look_empty] at hd
    split at hd
    · next h => simp [keyPath] at h
    · cases hd
  | some i =>
    obtain ⟨e, o, he, ho, hto, hl⟩ := hmade.writer _ i ht
    exact ⟨i, e, o, ht, he, ho, hto, .inr (hl.symm.trans hd)⟩

theorem advance_sound {md5 : Bytes → String} (hnow : 0 ≤ now) {pc pc' : Pc}
    {spawned : Option Pc} (hpc : pc.Sound log now)
    (h : pc.advance md5 now m = some (pc', spawned)) :
    pc'.Sound log now ∧ ∀ sp, spawned = some sp → sp.Sound log now := by
  cases Pc.advance_cases h with
  | @loaded req last hget =>
    refine ⟨fun o ho => ?_, Cluster.of_none⟩
    cases ho
    cases hdir : req.isDir with
    | false =>
      obtain ⟨hfrom, hw, -⟩ := observe_of_look hmade hcmds (look_of_getKV (hdir ▸ hget))
      exact ⟨hfrom, hw⟩
    | true =>
      obtain ⟨rfl, hd⟩ := look_of_getKV_dir (hdir ▸ hget)
      exact ⟨observe_of_dir hmade hd, hnow, by simp [observe]⟩
  | notLoaded hget => exact ⟨Cluster.of_none, Cluster.of_none⟩
  | setExpired hexp =>
    obtain ⟨hfrom, hw⟩ := hpc _ rfl
    exact ⟨removeExpired_sound hfrom (stale_of_expired hw hexp) True.intro, Cluster.of_none⟩
  | setBuild req last =>
    exact ⟨⟨⟨setCommand_writtenBy md5 now req last, Cluster.of_none⟩, True.intro⟩,
      Cluster.of_none⟩
  | read hget =>
    obtain ⟨hfrom, hw, -⟩ := observe_of_look hmade hcmds (look_of_getKV hget)
    exact ⟨⟨hfrom, hw⟩, Cluster.of_none⟩
  | getExpired hexp =>
    exact ⟨removeExpired_sound hpc.1 (stale_of_expired hpc.2 hexp) True.intro, Cluster.of_none⟩
  | ranged hrows =>
    obtain ⟨b, hb⟩ := look_of_rangeRows hrows
    refine ⟨fun k e hm => ?_, Cluster.of_none⟩
    obtain ⟨hfrom, hw, -⟩ := observe_of_look hmade hcmds (hb k _ hm)
    exact ⟨hfrom, hw⟩
  | sweep req touched rows =>
    refine ⟨True.intro, fun sp hsp => ?_⟩
    cases hsp
    refine resume_sound (.sweep _) (fun o ho => ?_) none
    obtain ⟨e, he, rfl⟩ := List.mem_map.mp ho
    obtain ⟨⟨k, hk⟩, hexp⟩ := mem_of_rangeScan he
    obtain ⟨hfrom, hw⟩ := hpc k e hk
    exact ⟨hfrom, stale_of_expired hw hexp⟩
  | _ => exact ⟨True.intro, Cluster.of_none⟩

end Reading

/-- An UNSET of a value names the deletion of its key, or nothing that changes the
store. -/
theorem commandOp_unset {cmd : MutateCommand} {o : Op String Entity} (hop : cmd.op = .UNSET)
    (hdir : cmd.isDir = false) (h : commandOp cmd = some o) :
    o = .del (keyPath cmd.key) ∨ ∃ q, o = .probe q := by
  rcases commandOp_cases h with ⟨hset, -⟩ | ⟨hset, -⟩ | ⟨-, htrue, -⟩ | ⟨-, -, rfl⟩ | ⟨-, -, hprobe⟩
  · cases hop.symm.trans hset
  · cases hop.symm.trans hset
  · cases hdir.symm.trans htrue
  · exact .inl rfl
  · exact .inr hprobe

theorem keySplitter_of_keyPath {key key' : String} (h : keyPath key = keyPath key') :
    keySplitter key = keySplitter key' := by
  obtain ⟨h₁, h₂⟩ := List.append_inj' h rfl
  exact Prod.ext h₁ (List.singleton_inj.mp h₂)

/-- A value can stand where a SET writes one. -/
theorem valueKey_of_put {cmd : MutateCommand} {key : String} {v : Entity}
    (h : commandOp cmd = some (.put (keyPath key) v)) : ValueKey key := by
  rcases commandOp_cases h with ⟨-, -, ho⟩ | ⟨-, -, hkey, ho⟩ | ⟨-, -, ho⟩ | ⟨-, -, ho⟩ | ⟨-, -, q, ho⟩
  · cases ho
  · have hsplit := keySplitter_of_keyPath (Op.put.inj ho).1
    obtain ⟨hnodes, hleaf, hfilled⟩ := hkey
    rw [← hsplit] at hnodes hleaf hfilled
    exact ⟨hnodes, hleaf, hfilled⟩
  · cases ho
  · cases ho
  · cases ho

/-- The UNSET of a key that a SET has written names its deletion. -/
theorem commandOp_unset_of_put {cmd cmd' : MutateCommand} {v : Entity} (hop : cmd.op = .UNSET)
    (hdir : cmd.isDir = false) (h : commandOp cmd' = some (.put (keyPath cmd.key) v)) :
    commandOp cmd = some (.del (keyPath cmd.key)) := by
  have hkey := valueKey_of_put h
  unfold commandOp unsetOp
  rw [hop, hdir]
  dsimp only
  rw [if_neg (by simp [hkey.nodes, hkey.leaf]), hkey.filled]
  rfl

namespace Cluster

variable {ν : Type}

structure Expiring (s : Cluster ν) : Prop where
  clock : 0 ≤ s.now
  threads : ∀ th ∈ s.threads, th.pc.Sound s.log s.now
  entries : ∀ e, e ∈ s.proposed ∨ e ∈ s.log → Caused s.log s.now e.cmd e.observed
  /-- What an entry was caused by was put into the log before it. -/
  order : ∀ (k : Nat) (e : Entry) o i, s.log[k]? = some e → e.observed = some o → o.writer = some i → i < k

theorem expiring_init : ({} : Cluster ν).Expiring where
  clock := Int.le_refl _
  threads _ h := by cases h
  entries _ h := by simp at h
  order _ _ _ _ h := by simp at h

/-- One thread moves on, others may start, and no entry is new. -/
theorem Expiring.of_threads {s s' : Cluster ν} (h : s.Expiring) (hlog : s'.log = s.log)
    (hnow : s'.now = s.now) (hprop : s'.proposed = s.proposed)
    (hthr : ∀ th ∈ s'.threads, th ∈ s.threads ∨ th.pc.Sound s.log s.now) : s'.Expiring where
  clock := hnow ▸ h.clock
  threads th hth := by
    rw [hlog, hnow]
    exact (hthr th hth).elim (h.threads th) id
  entries e he := by
    rw [hlog, hnow]
    rw [hprop, hlog] at he
    exact h.entries e he
  order := by
    rw [hlog]
    exact h.order

theorem expiring_setPc {s s' : Cluster ν} (h : s.Expiring) {t : Nat} {th : Thread ν} {pc : Pc}
    (hpc : pc.Sound s.log s.now) (hlog : s'.log = s.log) (hnow : s'.now = s.now)
    (hprop : s'.proposed = s.proposed) (hthr : s'.threads = (s.setPc t th pc).threads) :
    s'.Expiring :=
  h.of_threads hlog hnow hprop fun th' hth' => by
    rcases mem_threads_setPc (hthr ▸ hth') with hmem | rfl
    · exact .inl hmem
    · exact .inr hpc

variable [DecidableEq ν]

theorem expiring_register {s : Cluster ν} (h : s.Expiring) {t : Nat} {th : Thread ν}
    {cmd : MutateCommand} {observed : Option Observation} {next : Then}
    (hpc : (Pc.mutate cmd observed next).Sound s.log s.now) :
    (s.register t th cmd observed next).Expiring := by
  obtain ⟨hlog, hprop, hnow, pc, hthr, hpc'⟩ := register_rest s t th cmd observed next
  refine expiring_setPc h ?_ hlog hnow hprop hthr
  rcases hpc' with rfl | ⟨id, rfl⟩
  · exact resume_sound next hpc.2 _
  · refine ⟨⟨hpc.1.1, fun o ho => ?_⟩, hpc.2⟩
    obtain ⟨hfrom, hstale, hop, hkey, hdir⟩ := hpc.1.2 o ho
    exact ⟨hfrom, hstale, hop, hkey, hdir⟩

theorem expiring_step {md5 : Bytes → String} {s s' : Cluster ν} {l : Label ν} (h : s.Expiring)
    (hg : s.Grounded) (hs : step md5 s l = some s') : s'.Expiring := by
  have hcmds : ∀ e ∈ s.log, e.cmd.WrittenBy s.now := fun e he => (h.entries e (.inr he)).1
  cases moves_of_step hs with
  | call n c =>
    refine h.of_threads rfl rfl rfl fun th hth => ?_
    rcases mem_threads_spawn hth with hmem | ⟨pc, hpc, rfl⟩
    · exact .inl hmem
    · cases hpc
      refine .inr ?_
      cases c with
      | unsetKV key isDir =>
        exact ⟨⟨fun h => absurd h MutateOp.noConfusion, fun _ h => nomatch h⟩, True.intro⟩
      | _ => exact True.intro
  | @advance t th pc spawned hth hpc =>
    obtain ⟨hpc', hsp⟩ := advance_sound (hg.nodes th.node) hcmds h.clock
      (h.threads th (List.mem_of_getElem? hth)) hpc
    refine h.of_threads rfl rfl rfl fun th' hth' => ?_
    rcases mem_threads_spawn hth' with hmem | ⟨sp, rfl, rfl⟩
    · rcases mem_threads_setPc hmem with hmem | rfl
      · exact .inl hmem
      · exact .inr hpc'
    · exact .inr (hsp sp rfl)
  | @register t th cmd observed next hth hpc =>
    have hsound := h.threads th (List.mem_of_getElem? hth)
    rw [hpc] at hsound
    exact expiring_register h hsound
  | @propose t th request cmd observed next hth hpc =>
    have hsound := h.threads th (List.mem_of_getElem? hth)
    rw [hpc] at hsound
    have hpc' : (Pc.waitPending request cmd next).Sound s.log s.now := hsound.2
    have hwait : (s.setPc t th (.waitPending request cmd next)).Expiring :=
      expiring_setPc h hpc' rfl rfl rfl rfl
    refine ⟨hwait.clock, hwait.threads, fun e he => ?_, hwait.order⟩
    rcases he with he | he
    · rcases List.mem_append.mp he with he | he
      · exact h.entries e (.inl he)
      · rw [List.mem_singleton.mp he]
        exact hsound.1
    · exact h.entries e (.inr he)
  | @finish _ t th request cmd next err hth hl hend =>
    have hsound := h.threads th (List.mem_of_getElem? hth)
    have hnext : next.Sound s.log s.now := by
      rcases hend with ⟨observed, hpc, -⟩ | ⟨hpc, -⟩
      · rw [hpc] at hsound
        exact hsound.2
      · rw [hpc] at hsound
        exact hsound
    exact expiring_setPc h (resume_sound next hnext err) rfl rfl rfl rfl
  | @commit i e he =>
    have hlater : s.log <+: s.log ++ [e] := List.prefix_append _ _
    refine ⟨h.clock, fun th hth => (h.threads th hth).mono hlater (Int.le_refl _),
      fun e' he' => ?_, fun k e' o j hk ho hj => ?_⟩
    · refine Caused.mono hlater (Int.le_refl _) (h.entries e' ?_)
      rcases he' with he' | he'
      · exact .inl (List.mem_of_mem_eraseIdx he')
      · rcases List.mem_append.mp he' with he' | he'
        · exact .inr he'
        · rw [List.mem_singleton.mp he']
          exact .inl (List.mem_of_getElem? he)
    · rcases getElem?_concat_iff.mp hk with hk | ⟨rfl, rfl⟩
      · exact h.order k e' o j hk ho hj
      · obtain ⟨i', e₀, -, hi', he₀, -⟩ :=
          ((h.entries e' (.inl (List.mem_of_getElem? he))).2 o ho).fromLog
        rw [hj] at hi'
        cases hi'
        exact (List.getElem?_eq_some_iff.mp he₀).1
  | drop he =>
    refine ⟨h.clock, h.threads, fun e' he' => h.entries e' ?_, h.order⟩
    exact he'.imp_left List.mem_of_mem_eraseIdx
  | apply hloop he => exact h.of_threads rfl rfl rfl fun th hth => .inl hth
  | tick seconds =>
    have hle : s.now ≤ s.now + seconds := by omega
    exact ⟨h.clock.trans hle, fun th hth => (h.threads th hth).mono List.prefix_rfl hle,
      fun e he => (h.entries e he).mono List.prefix_rfl hle, h.order⟩
  | shutdown n => exact h.of_threads rfl rfl rfl fun th hth => .inl hth
  | restart n =>
    refine h.of_threads rfl rfl rfl fun th hth => ?_
    obtain ⟨th', hth', rfl⟩ := List.mem_map.mp hth
    split
    · exact .inr True.intro
    · exact .inl hth'
  | snapshot n => exact h.of_threads rfl rfl rfl fun th hth => .inl hth
  | install hsnap hnew => exact h.of_threads rfl rfl rfl fun th hth => .inl hth

/-! ## What an expiry-driven UNSET deletes -/

/-- Applying an UNSET that a read of an expired entity has started deletes no value
whose time to live is running. -/
def SparesLive (s : Cluster ν) (l : Label ν) (s' : Cluster ν) : Prop :=
  ∀ n e o, l = .apply n → s.log[(s.nodes n).applied]? = some e → e.observed = some o →
    ∀ p v, (s.nodes n).impl.kvstore.look p = some (.val v) →
      (s'.nodes n).impl.kvstore.look p ≠ some (.val v) → ¬ v.Live s.now

/-- Where a node applies such an UNSET, the last command on its key that the node has
applied is no SET later than the one observed whose time to live is running. -/
def NotRenewed (s : Cluster ν) (l : Label ν) (_ : Cluster ν) : Prop :=
  ∀ n e o, l = .apply n → s.log[(s.nodes n).applied]? = some e → e.observed = some o →
    ∀ w i e' v, o.writer = some w → w < i → (s.nodes n).touched (keyPath e.cmd.key) = some i →
      s.log[i]? = some e' → commandOp e'.cmd = some (.put (keyPath e.cmd.key) v) →
      ¬ v.Live s.now

/-- What an expiry-driven UNSET deletes is the observed entity, or a later one. -/
theorem sparesLive_iff {md5 : Bytes → String} {s s' : Cluster ν} {l : Label ν} (h : s.Expiring)
    (hg : s.Grounded) (hs : step md5 s l = some s') : SparesLive s l s' ↔ NotRenewed s l s' := by
  constructor
  · rintro hspares n e o rfl he ho w i e' v hw hlt htou he' hput
    have hrem := (h.entries e (.inr (List.mem_of_getElem? he))).2 o ho
    have hlook : (s.nodes n).impl.kvstore.look (keyPath e.cmd.key) = some (.val v) := by
      obtain ⟨e₁, o₁, he₁, ho₁, -, hl⟩ := (hg.nodes n).writer _ i htou
      rw [he'] at he₁
      cases he₁
      rw [hput] at ho₁
      cases ho₁
      rw [hl]
      simp [Op.leaves]
    have hdel := commandOp_unset_of_put hrem.op hrem.isDir hput
    refine hspares n e o rfl he ho _ v hlook ?_
    rw [apply_target hs he, setNode_nodes, if_pos rfl]
    rcases (s.nodes n).applyEntry_store e with ⟨o', ho', -, heff, -⟩ | ⟨hno, -⟩
    · rw [hdel] at ho'
      cases ho'
      rw [heff, Op.effect_del, if_pos rfl]
      simp
    · exact absurd ⟨_, hdel, Op.del_fits_iff.mpr (by rw [hlook]; simp)⟩ hno
  · rintro hnot n e o rfl he ho p v hlook hgone
    have hrem := (h.entries e (.inr (List.mem_of_getElem? he))).2 o ho
    obtain ⟨w, e₀, op₀, hw, he₀, hop₀, htou₀, hleft⟩ := hrem.fromLog
    rw [← hrem.key] at htou₀ hleft
    have horder := h.order _ e o w he ho hw
    rw [apply_target hs he, setNode_nodes, if_pos rfl] at hgone
    have hp : p = keyPath e.cmd.key := by
      rcases (s.nodes n).applyEntry_store e with ⟨o', ho', -, heff, -⟩ | ⟨-, hsame, -⟩
      · rcases commandOp_unset hrem.op hrem.isDir ho' with rfl | ⟨q, rfl⟩
        · rw [heff, Op.effect_del] at hgone
          split at hgone
          · assumption
          · exact absurd hlook hgone
        · rw [heff, Op.effect_probe] at hgone
          exact absurd hlook hgone
      · rw [hsame] at hgone
        exact absurd hlook hgone
    subst hp
    obtain ⟨i, e', hi, he', hput⟩ := (hg.nodes n).put_of_look hlook
    obtain ⟨j, hj, hle⟩ := (hg.nodes n).latest _ w e₀ op₀ horder he₀ hop₀ htou₀
    rw [hi] at hj
    cases hj
    rcases Nat.lt_or_eq_of_le hle with hlt | rfl
    · exact hnot n e o rfl he ho w i e' v hw hlt hi he' hput
    · rw [he₀] at he'
      cases he'
      rw [hop₀] at hput
      cases hput
      -- the value that stands there is the one that was observed
      have hsame : v = o.entity := by
        rcases hleft with hleft | hleft
        · simpa [Op.leaves] using hleft
        · simp [Op.leaves] at hleft
      rw [hsame]
      exact hrem.stale s.now (Int.le_refl _)

/-- Along every run of the cluster from its start, expiry deletes no live value exactly
where no SET of the key with a running time to live has come, in the log, between the
observed entity and the UNSET, and is still the last command on it. -/
theorem sparesLive_run_iff (md5 : Bytes → String) (ls : List (Label ν)) :
    EachStep (step md5) SparesLive ({} : Cluster ν) ls ↔
      EachStep (step md5) NotRenewed ({} : Cluster ν) ls :=
  eachStep_iff (fun s => Expiring s ∧ Grounded s)
    (fun _ _ _ h hs => ⟨expiring_step h.1 h.2 hs, grounded_step h.2 hs⟩)
    (fun _ _ _ h hs => sparesLive_iff h.1 h.2 hs) ⟨expiring_init, grounded_init⟩ ls

/-- A key is set for one second and then for a hundred; before the second SET is
committed its time is up, and a read starts to remove the first value. -/
def lostRenewal : List (Label Unit) :=
  [.call () (.setKV ⟨"a/b", false, 1, [], true, rfl⟩), .run 0, .run 0, .run 0, .run 0, .run 0,
    .commit 0, .apply (),
    .call () (.setKV ⟨"a/b", false, 100, [], true, rfl⟩), .run 1, .run 1, .run 1, .run 1, .tick 5,
    .call () (.getKV "a/b"), .run 2, .run 2, .run 1, .run 2, .run 2, .commit 0, .commit 0, .apply ()]

/-- The removal, ordered after the second SET, deletes what that one wrote. -/
theorem lostRenewal_not_spared :
    ¬ EachStep (step md5Empty) SparesLive ({} : Cluster Unit) (lostRenewal ++ [.apply ()]) := by
  intro h
  let renewed := newEntityWithCreated md5Empty 0 "a/b" [] 100 0
  have hrun : ((run (step md5Empty) ({} : Cluster Unit) lostRenewal).bind fun s =>
      (step md5Empty s (.apply ())).map fun s' =>
        ((s.log[(s.nodes ()).applied]?).map (·.observed.isSome),
          (s.nodes ()).impl.kvstore.look ["a", "b"], (s'.nodes ()).impl.kvstore.look ["a", "b"],
          s.now)) = some (some true, some (.val renewed), none, 5) := by decide
  obtain ⟨s, hs, hlast⟩ := Option.bind_eq_some_iff.mp hrun
  obtain ⟨s', hs', heq⟩ := Option.map_eq_some_iff.mp hlast
  simp only [Prod.mk.injEq] at heq
  obtain ⟨hobs, hbefore, hafter, hnow⟩ := heq
  obtain ⟨e, he, hsome⟩ := Option.map_eq_some_iff.mp hobs
  obtain ⟨o, ho⟩ := Option.isSome_iff_exists.mp hsome
  have hspared := h.last hs hs' () e o rfl he ho _ renewed hbefore (by rw [hafter]; simp)
  rw [hnow] at hspared
  exact hspared (by decide)

end Cluster

end Cassem.KV
