import Cassem.Lib.Count
import Cassem.KV.Expiry

/-!
# Creating a key

SetKV without `overwrite` looks for the key in its node's own store and then writes
it through the log, where nothing is checked again. A create is therefore exclusive
as long as it finds nothing only when no other create of the key is under way, or
is in the log beyond what its node has applied.
-/

namespace Cassem.KV

open Lib Lib.HierMap Lib.Transition Lib.Count

def MutateCommand.creates (path : List String) (cmd : MutateCommand) : Bool :=
  cmd.op = .SET && keyPath cmd.key = path

/-- A thread past its load without having found the key, and before its command is
proposed. -/
def Pc.creating (path : List String) : Pc → Bool
  | .setProbe req none => keyPath req.key = path
  | .setBuild req _ => keyPath req.key = path
  | .mutate cmd _ _ => cmd.creates path
  | .propose _ cmd _ _ => cmd.creates path
  | _ => false

/-- An UNSET leaves the path alone. -/
def MutateCommand.Spares (path : List String) (cmd : MutateCommand) : Prop :=
  cmd.op = .UNSET → ∀ o, commandOp cmd = some o → ¬ o.touches path

/-- A SetKV at the path is the create of a value. -/
def SetKVReq.IsCreate (path : List String) (req : SetKVReq) : Prop :=
  keyPath req.key = path → req.overwrite = false ∧ req.isDir = false

def MutateCommand.Tame (path : List String) (cmd : MutateCommand) : Prop :=
  cmd.Spares path ∧ (cmd.creates path → cmd.isDir = false)

instance (path : List String) (cmd : MutateCommand) : Decidable (cmd.Spares path) :=
  inferInstanceAs (Decidable (_ → ∀ o ∈ commandOp cmd, ¬ o.touches path))

instance (path : List String) (req : SetKVReq) : Decidable (req.IsCreate path) :=
  inferInstanceAs (Decidable (_ → _))

def Then.Tame (path : List String) : Then → Prop
  | .probed req => keyPath req.key ≠ path ∧ req.IsCreate path
  | _ => True

def Pc.Tame (path : List String) : Pc → Prop
  | .setKV req => req.IsCreate path
  | .setProbe req _ => req.IsCreate path
  | .setBuild req _ => req.IsCreate path
  | .mutate cmd _ next => cmd.Tame path ∧ next.Tame path
  | .propose _ cmd _ next => cmd.Tame path ∧ next.Tame path
  | .waitPending _ _ next => next.Tame path
  | _ => True

/-- A registration about to be made spares the path, if it is an UNSET. -/
def Pc.Spares (path : List String) (pc : Pc) : Prop :=
  ∀ cmd observed next, pc = .mutate cmd observed next → cmd.Spares path

instance (path : List String) (pc : Pc) : Decidable (pc.Spares path) := by
  cases pc with
  | mutate cmd observed next =>
    exact decidable_of_iff (cmd.Spares path)
      ⟨fun h _ _ _ heq => by cases heq; exact h, fun h => h cmd observed next rfl⟩
  | _ => exact isTrue fun _ _ _ heq => nomatch heq

theorem creates_iff (path : List String) (cmd : MutateCommand) :
    cmd.creates path = true ↔ cmd.op = .SET ∧ keyPath cmd.key = path := by
  unfold MutateCommand.creates
  rw [Bool.and_eq_true, decide_eq_true_iff, decide_eq_true_iff]

theorem removeExpired_tame {path : List String} {o : Observation} {next : Then}
    (hsp : (removeExpired o next).Spares path) (hnext : next.Tame path) :
    (removeExpired o next).Tame path :=
  ⟨⟨hsp _ _ _ rfl, fun h => by simp [MutateCommand.creates, unsetCommand] at h⟩, hnext⟩

theorem resume_tame {path : List String} (next : Then) (err : Option GoError)
    (hnext : next.Tame path) (hsp : (next.resume err).Spares path) :
    (next.resume err).Tame path ∧ (next.resume err).creating path = false := by
  cases next with
  | reply => exact ⟨True.intro, rfl⟩
  | probed req => exact ⟨hnext.2, decide_eq_false hnext.1⟩
  | notFound => exact ⟨True.intro, rfl⟩
  | sweep rest =>
    cases rest with
    | nil => exact ⟨True.intro, rfl⟩
    | cons o rest => exact ⟨removeExpired_tame hsp True.intro, rfl⟩

theorem advance_tame {path : List String} {md5 : Bytes → String} {now : Int} {m : Member}
    {pc pc' : Pc} {spawned : Option Pc} (htame : pc.Tame path)
    (hexp : ∀ req o, pc = .setProbe req (some o) → keyPath req.key = path →
      (entityExpired now o.entity).1 = false)
    (hsp : pc'.Spares path) (hsp' : ∀ sp, spawned = some sp → sp.Spares path)
    (h : pc.advance md5 now m = some (pc', spawned)) :
    pc'.Tame path ∧ ∀ sp, spawned = some sp → sp.Tame path ∧ sp.creating path = false := by
  cases Pc.advance_cases h with
  | loaded hget => exact ⟨htame, Cluster.of_none⟩
  | notLoaded hget => exact ⟨htame, Cluster.of_none⟩
  | create req => exact ⟨htame, Cluster.of_none⟩
  | overwrite last hlive how => exact ⟨htame, Cluster.of_none⟩
  | @setExpired req o hdead =>
    refine ⟨removeExpired_tame hsp ⟨fun hpath => ?_, htame⟩, Cluster.of_none⟩
    have hlive := hexp req o rfl hpath
    rw [hdead] at hlive
    cases hlive
  | setBuild req last =>
    refine ⟨⟨⟨hsp _ _ _ rfl, fun hc => ?_⟩, True.intro⟩, Cluster.of_none⟩
    exact (htame ((creates_iff _ _).mp hc).2).2
  | getExpired hdead => exact ⟨removeExpired_tame hsp True.intro, Cluster.of_none⟩
  | sweep req touched rows =>
    refine ⟨True.intro, fun sp heq => ?_⟩
    have hspares := hsp' sp heq
    cases heq
    exact resume_tame (.sweep _) none True.intro hspares
  | _ => exact ⟨True.intro, Cluster.of_none⟩

/-- Only a load that finds nothing starts a create. -/
theorem advance_creating {path : List String} {md5 : Bytes → String} {now : Int} {m : Member}
    {pc pc' : Pc} {spawned : Option Pc} (htame : pc.Tame path)
    (h : pc.advance md5 now m = some (pc', spawned)) (hc : pc'.creating path = true) :
    pc.creating path = true ∨ ∃ req err, pc = .setKV req ∧ keyPath req.key = path ∧
      getKV m.impl.kvstore req.key req.isDir = .error err := by
  cases Pc.advance_cases h with
  | notLoaded hget => exact .inr ⟨_, _, rfl, of_decide_eq_true hc, hget⟩
  | create req => exact .inl hc
  | overwrite last hlive how =>
    have hno := (htame (of_decide_eq_true hc)).1
    rw [hno] at how
    cases how
  | setBuild req last =>
    exact .inl (decide_eq_true ((creates_iff path (setCommand md5 now req last)).mp hc).2)
  | setExpired hdead => simp [removeExpired, Pc.creating, MutateCommand.creates, unsetCommand] at hc
  | getExpired hdead => simp [removeExpired, Pc.creating, MutateCommand.creates, unsetCommand] at hc
  | _ => cases hc

/-! ## The store -/

/-- The value that the command writes stands at the path. -/
structure Stands (path : List String) (store : Store) (cmd : MutateCommand) : Prop where
  op : commandOp cmd = some (.put path (cmd.value.getD default))
  look : store.look path = some (.val (cmd.value.getD default))

/-- So it does for every create among the first `applied` entries. -/
def Standing (path : List String) (log : List Entry) (store : Store) (applied : Nat) : Prop :=
  ∀ i e, i < applied → log[i]? = some e → e.cmd.creates path = true → Stands path store e.cmd

/-- A key whose value stands there is read. -/
theorem Stands.getKV {path : List String} {store : Store} {cmd : MutateCommand}
    (h : Stands path store cmd) {key : String} (hkey : keyPath key = path) :
    getKV store key false = .ok (cmd.value.getD default) := by
  subst hkey
  have hkey := valueKey_of_put h.op
  exact getKV_of_look hkey.nodes hkey.leaf hkey.filled h.look

theorem Standing.append {path : List String} {log : List Entry} {store : Store} {applied : Nat}
    (h : Standing path log store applied) (hle : applied ≤ log.length) (e : Entry) :
    Standing path (log ++ [e]) store applied := by
  intro i e' hi he'
  rcases getElem?_concat_iff.mp he' with he' | ⟨rfl, -⟩
  · exact h i e' hi he'
  · omega

/-- A SET at the path that names an operation writes its value there. -/
theorem commandOp_of_creates {path : List String} {cmd : MutateCommand} {o : Op String Entity}
    (htame : cmd.Tame path) (hc : cmd.creates path = true) (ho : commandOp cmd = some o) :
    o = .put path (cmd.value.getD default) := by
  obtain ⟨hset, hkey⟩ := (creates_iff _ _).mp hc
  rcases commandOp_cases ho with ⟨-, hdir, -⟩ | ⟨-, -, -, rfl⟩ | ⟨hop, -⟩ | ⟨hop, -⟩ | ⟨hop, -⟩
  · cases (htame.2 hc).symm.trans hdir
  · rw [hkey]
  · cases hset.symm.trans hop
  · cases hset.symm.trans hop
  · cases hset.symm.trans hop

/-- What names an operation on another path, and is no UNSET of this one, leaves a value
at this one alone. -/
theorem spares_value {path : List String} {s : Shape String Entity} {cmd : MutateCommand}
    {o : Op String Entity} {v : Entity} (htame : cmd.Tame path) (hc : cmd.creates path = false)
    (ho : commandOp cmd = some o) (hfit : o.Fits s) (hv : s path = some (.val v)) :
    ¬ o.touches path := by
  intro ht
  rcases commandOp_cases ho with ⟨-, -, rfl⟩ | ⟨hop, -, -, rfl⟩ | ⟨hop, -⟩ | ⟨hop, -⟩ | ⟨hop, -⟩
  · exact Op.mkdir_fits_iff.mp hfit path v ht hv
  · rcases Op.of_touches_value hfit hv ht with ⟨w, hput⟩ | hdel | ⟨p, hrmdir⟩
    · have hcreates := (creates_iff _ _).mpr ⟨hop, (Op.put.inj hput).1⟩
      rw [hc] at hcreates
      cases hcreates
    · cases hdel
    · cases hrmdir
  · exact htame.1 hop o ho ht
  · exact htame.1 hop o ho ht
  · exact htame.1 hop o ho ht

theorem Standing.apply {path : List String} {log : List Entry} {store store' : Store}
    {applied : Nat} {e : Entry} {o : Op String Entity} (h : Standing path log store applied)
    (hone : log.countP (fun e => e.cmd.creates path) ≤ 1) (htame : e.cmd.Tame path)
    (he : log[applied]? = some e) (ho : commandOp e.cmd = some o) (hfit : o.Fits store.look)
    (hlook : store'.look = o.effect store.look) : Standing path log store' (applied + 1) := by
  intro i e' hi he' hc'
  rcases Nat.lt_succ_iff_lt_or_eq.mp hi with hi | rfl
  · obtain ⟨hop, hstands⟩ := h i e' hi he' hc'
    refine ⟨hop, ?_⟩
    cases hc : e.cmd.creates path with
    | true =>
      have := index_unique (p := fun e => e.cmd.creates path) hone he' he hc' hc
      omega
    | false =>
      rw [hlook, Op.effect_of_not_touches (spares_value htame hc ho hfit hstands), hstands]
  · rw [he] at he'
    cases he'
    have hput := commandOp_of_creates htame hc' ho
    refine ⟨by rw [ho, hput], ?_⟩
    rw [hlook, hput, Op.effect_put, if_pos rfl]

/-! ## One create at a time -/

namespace Cluster

variable {ν : Type}

/-- The SetKV that a label calls. -/
def Label.called : Label ν → Option SetKVReq
  | .call _ (.setKV req) => some req
  | _ => none

/-- The SetKV whose last value a label probes. -/
def probing (s : Cluster ν) : Label ν → Option (SetKVReq × Observation)
  | .run t => s.threads[t]?.bind fun th =>
      match th.pc with
      | .setProbe req (some o) => some (req, o)
      | _ => none
  | _ => none

/-- The SetKV that a label lets load the last value, and its node. -/
def loading (s : Cluster ν) : Label ν → Option (ν × SetKVReq)
  | .run t => s.threads[t]?.bind fun th =>
      match th.pc with
      | .setKV req => some (th.node, req)
      | _ => none
  | _ => none

/-- Only creates write the path: no UNSET of it is started, and no SetKV finds it
expired. -/
structure OnlyCreates (path : List String) (s : Cluster ν) (l : Label ν) (s' : Cluster ν) :
    Prop where
  calls : ∀ req ∈ l.called, req.IsCreate path
  unexpired : ∀ r ∈ s.probing l, keyPath r.1.key = path →
    (entityExpired s.now r.2.entity).1 = false
  spared : ∀ th ∈ s'.threads, th.pc.Spares path

/-- A create that does not find its key is the only one: no other is under way, and
none is in the part of the log that its node has not applied. -/
def FirstCreate (path : List String) (s : Cluster ν) (l : Label ν) (_ : Cluster ν) : Prop :=
  ∀ r ∈ s.loading l, keyPath r.2.key = path →
    (getKV (s.nodes r.1).impl.kvstore r.2.key r.2.isDir).toOption = none →
    (∀ th ∈ s.threads, th.pc.creating path = false) ∧
    (∀ e ∈ s.proposed, e.cmd.creates path = false) ∧
    ∀ e ∈ s.log.drop (s.nodes r.1).applied, e.cmd.creates path = false

instance (path : List String) (s : Cluster ν) (l : Label ν) (s' : Cluster ν) :
    Decidable (OnlyCreates path s l s') :=
  decidable_of_iff ((∀ req ∈ l.called, req.IsCreate path) ∧
      (∀ r ∈ s.probing l, keyPath r.1.key = path →
        (entityExpired s.now r.2.entity).1 = false) ∧
      ∀ th ∈ s'.threads, th.pc.Spares path)
    ⟨fun h => ⟨h.1, h.2.1, h.2.2⟩, fun h => ⟨h.calls, h.unexpired, h.spared⟩⟩

instance (path : List String) (s : Cluster ν) (l : Label ν) (s' : Cluster ν) :
    Decidable (FirstCreate path s l s') := by
  unfold FirstCreate
  infer_instance

def underWay (path : List String) (s : Cluster ν) : Nat :=
  s.threads.countP (fun th => th.pc.creating path) +
    s.proposed.countP (fun e => e.cmd.creates path)

def created (path : List String) (s : Cluster ν) : Nat :=
  s.log.countP (fun e => e.cmd.creates path)

structure AtMostOne (path : List String) (s : Cluster ν) : Prop where
  threads : ∀ th ∈ s.threads, th.pc.Tame path
  entries : ∀ e, e ∈ s.proposed ∨ e ∈ s.log → e.cmd.Tame path
  one : s.underWay path + s.created path ≤ 1
  nodes : ∀ n, Standing path s.log (s.nodes n).impl.kvstore (s.nodes n).applied
  snapshots : ∀ n snap, (s.nodes n).snapshot = some snap →
    Standing path s.log snap.data snap.index

theorem atMostOne_init (path : List String) : ({} : Cluster ν).AtMostOne path where
  threads _ h := by cases h
  entries _ h := by simp at h
  one := Nat.zero_le _
  nodes _ _ _ h := absurd h (Nat.not_lt_zero _)
  snapshots _ _ h := by cases h

theorem AtMostOne.of_threads {path : List String} {s s' : Cluster ν} (h : s.AtMostOne path)
    (hnodes : ∀ n, KeepsStore (s.nodes n) (s'.nodes n)) (hlog : s'.log = s.log)
    (hprop : s'.proposed = s.proposed) (hthr : ∀ th ∈ s'.threads, th.pc.Tame path)
    (hone : s'.underWay path + s.created path ≤ 1) : s'.AtMostOne path where
  threads := hthr
  entries e he := by
    rw [hprop, hlog] at he
    exact h.entries e he
  one := by rwa [created, hlog]
  nodes n := by
    rw [hlog, (hnodes n).kvstore, (hnodes n).applied]
    exact h.nodes n
  snapshots n snap hs := by
    rw [(hnodes n).snapshot] at hs
    rw [hlog]
    exact h.snapshots n snap hs

/-- One thread moves from a place that starts no create. -/
theorem AtMostOne.of_setPc {path : List String} {s s' : Cluster ν} (h : s.AtMostOne path)
    {t : Nat} {th : Thread ν} {pc : Pc} (hth : s.threads[t]? = some th)
    (hnodes : ∀ n, KeepsStore (s.nodes n) (s'.nodes n)) (hlog : s'.log = s.log)
    (hprop : s'.proposed = s.proposed) (hthr : s'.threads = (s.setPc t th pc).threads)
    (htame : pc.Tame path) (hcre : pc.creating path = true → th.pc.creating path = true) :
    s'.AtMostOne path := by
  refine h.of_threads hnodes hlog hprop (fun th' hth' => ?_) ?_
  · rcases mem_threads_setPc (hthr ▸ hth') with hmem | rfl
    · exact h.threads th' hmem
    · exact htame
  · have hone := h.one
    have hcount := countP_set (p := fun th => th.pc.creating path) hth { th with pc := pc }
    rw [underWay, hprop, hthr, setPc]
    dsimp only
    unfold underWay at hone
    cases hc : pc.creating path with
    | true =>
      simp only [hc, hcre hc, ↓reduceIte] at hcount
      omega
    | false =>
      simp only [hc, Bool.false_eq_true, ↓reduceIte] at hcount
      omega

/-- A create that found nothing is the first to be counted. -/
theorem none_before {path : List String} {s : Cluster ν} (h : s.AtMostOne path) {n : ν}
    {req : SetKVReq} {err : GoError} (hkey : keyPath req.key = path) (hdir : req.isDir = false)
    (hget : getKV (s.nodes n).impl.kvstore req.key req.isDir = .error err)
    (hfirst : (∀ th ∈ s.threads, th.pc.creating path = false) ∧
      (∀ e ∈ s.proposed, e.cmd.creates path = false) ∧
      ∀ e ∈ s.log.drop (s.nodes n).applied, e.cmd.creates path = false) :
    s.underWay path + s.created path = 0 := by
  obtain ⟨hthr, hprop, hlog⟩ := hfirst
  have h₁ : s.threads.countP (fun th => th.pc.creating path) = 0 :=
    List.countP_eq_zero.mpr fun th' hth' => by simp [hthr th' hth']
  have h₂ : s.proposed.countP (fun e => e.cmd.creates path) = 0 :=
    List.countP_eq_zero.mpr fun e he => by simp [hprop e he]
  have h₃ : s.created path = 0 := by
    refine List.countP_eq_zero.mpr fun e he hc => ?_
    obtain ⟨i, hi⟩ := List.getElem?_of_mem he
    have hlt : i < (s.nodes n).applied := by
      by_contra hge
      have hmem : e ∈ s.log.drop (s.nodes n).applied := by
        refine List.mem_of_getElem? (i := i - (s.nodes n).applied) ?_
        rw [List.getElem?_drop, ← hi]
        congr 1
        omega
      rw [hlog e hmem] at hc
      cases hc
    have hstands := h.nodes n i e hlt hi hc
    rw [hdir, hstands.getKV hkey] at hget
    cases hget
  rw [underWay]
  omega

/-! ## What each step keeps -/

theorem start_tame {path : List String} {c : Call} (hreq : ∀ req, c = .setKV req → req.IsCreate path)
    (hsp : c.start.Spares path) : c.start.Tame path ∧ c.start.creating path = false := by
  cases c with
  | setKV req => exact ⟨hreq req rfl, rfl⟩
  | unsetKV key isDir =>
    refine ⟨⟨⟨hsp _ _ _ rfl, fun hc => ?_⟩, True.intro⟩, ?_⟩
    · cases ((creates_iff _ _).mp hc).1
    · exact Bool.eq_false_iff.mpr fun hc => by cases ((creates_iff _ _).mp hc).1
  | getKV key => exact ⟨True.intro, rfl⟩
  | range req => exact ⟨True.intro, rfl⟩

section Step

variable {path : List String} {s : Cluster ν} {t : Nat} {th : Thread ν} {e : Entry}
  (h : s.AtMostOne path)
include h

theorem AtMostOne.spawn {n : ν} {pc : Pc} (htame : pc.Tame path)
    (hcre : pc.creating path = false) : (s.spawn n (some pc)).AtMostOne path := by
  have hone := h.one
  unfold underWay at hone
  refine h.of_threads (fun _ => .refl _) rfl rfl (fun th hth => ?_) ?_
  · rcases mem_threads_spawn hth with hmem | ⟨pc', hpc, rfl⟩
    · exact h.threads th hmem
    · cases hpc
      exact htame
  · simp only [underWay, Cluster.spawn, Option.toList_some, List.map_cons, List.map_nil,
      List.countP_append, List.countP_singleton, hcre, Bool.false_eq_true, ↓reduceIte]
    omega

/-- A thread goes on alone; it starts a create only where none is counted. -/
theorem AtMostOne.advance {pc : Pc} {spawned : Option Pc} (hth : s.threads[t]? = some th)
    (htame : pc.Tame path)
    (hspawned : ∀ sp, spawned = some sp → sp.Tame path ∧ sp.creating path = false)
    (hcre : pc.creating path = true →
      th.pc.creating path = true ∨ s.underWay path + s.created path = 0) :
    ((s.setPc t th pc).spawn th.node spawned).AtMostOne path := by
  have hspawn : (spawned.toList.map (Thread.mk th.node)).countP
      (fun th => th.pc.creating path) = 0 := by
    refine List.countP_eq_zero.mpr fun th' hth' => ?_
    obtain ⟨sp, hsp', rfl⟩ := List.mem_map.mp hth'
    simp [(hspawned sp (Option.mem_toList.mp hsp')).2]
  refine h.of_threads (fun _ => .refl _) rfl rfl (fun th' hth' => ?_) ?_
  · rcases mem_threads_spawn hth' with hth' | ⟨sp, hsp', rfl⟩
    · rcases mem_threads_setPc hth' with hth' | rfl
      · exact h.threads th' hth'
      · exact htame
    · exact (hspawned sp hsp').1
  · have hone := h.one
    have hcount := countP_set (p := fun th => th.pc.creating path) hth { th with pc := pc }
    simp only [underWay, Cluster.spawn, setPc, List.countP_append, hspawn]
    cases hc : pc.creating path with
    | false =>
      simp only [hc, Bool.false_eq_true, ↓reduceIte] at hcount
      unfold underWay at hone
      omega
    | true =>
      rcases hcre hc with hold | hzero
      · simp only [hc, hold, ↓reduceIte] at hcount
        unfold underWay at hone
        omega
      · unfold underWay at hzero
        simp only [hc, ↓reduceIte] at hcount
        split at hcount <;> omega

/-- A command is proposed: what was under way in a thread is now under way in raft. -/
theorem AtMostOne.propose {request : Nat} {cmd : MutateCommand} {observed : Option Observation}
    {next : Then} (hth : s.threads[t]? = some th) (hpc : th.pc = .propose request cmd observed next) :
    AtMostOne path { s.setPc t th (.waitPending request cmd next) with
      proposed := s.proposed ++ [⟨cmd, request, observed⟩] } := by
  have htame := h.threads th (List.mem_of_getElem? hth)
  rw [hpc] at htame
  have hone := h.one
  have hcount := countP_set (p := fun th => th.pc.creating path) hth
    { th with pc := .waitPending request cmd next }
  refine ⟨fun th' hth' => ?_, fun e he => ?_, ?_, h.nodes, h.snapshots⟩
  · rcases mem_threads_setPc hth' with hth' | rfl
    · exact h.threads th' hth'
    · exact htame.2
  · rcases he with he | he
    · rcases List.mem_append.mp he with he | he
      · exact h.entries e (.inl he)
      · rw [List.mem_singleton.mp he]
        exact htame.1
    · exact h.entries e (.inr he)
  · have hold : th.pc.creating path = cmd.creates path := by rw [hpc, Pc.creating]
    have hnew : (Pc.waitPending request cmd next).creating path = false := rfl
    simp only [hold, hnew, Bool.false_eq_true, ↓reduceIte] at hcount
    simp only [underWay, created, setPc, List.countP_append, List.countP_singleton]
    unfold underWay created at hone
    omega

theorem AtMostOne.commit (hg : s.Grounded) {i : Nat} (he : s.proposed[i]? = some e) :
    AtMostOne path { s with proposed := s.proposed.eraseIdx i, log := s.log ++ [e] } := by
  have hone := h.one
  have hcount := countP_eraseIdx (p := fun e => e.cmd.creates path) he
  refine ⟨h.threads, fun e' he' => ?_, ?_, fun n => ?_, fun n snap hsnap => ?_⟩
  · rcases he' with he' | he'
    · exact h.entries e' (.inl (List.mem_of_mem_eraseIdx he'))
    · rcases List.mem_append.mp he' with he' | he'
      · exact h.entries e' (.inr he')
      · rw [List.mem_singleton.mp he']
        exact h.entries e (.inl (List.mem_of_getElem? he))
  · simp only [underWay, created, List.countP_append, List.countP_singleton]
    unfold underWay created at hone
    omega
  · exact (h.nodes n).append (hg.nodes n).bound e
  · exact (h.snapshots n snap hsnap).append (hg.snapshots n snap hsnap).bound e

theorem AtMostOne.drop {i : Nat} (he : s.proposed[i]? = some e) :
    AtMostOne path { s with proposed := s.proposed.eraseIdx i } := by
  have hone := h.one
  have hcount := countP_eraseIdx (p := fun e => e.cmd.creates path) he
  refine ⟨h.threads, fun e' he' => h.entries e' (he'.imp_left List.mem_of_mem_eraseIdx), ?_,
    h.nodes, h.snapshots⟩
  simp only [underWay, created]
  unfold underWay created at hone
  omega

variable [DecidableEq ν]

/-- A node that is replaced stands as far as it has applied the log, and so does its snapshot. -/
theorem AtMostOne.of_setNode {n : ν} {m : Member} (hnode : Standing path s.log m.impl.kvstore m.applied)
    (hsnap : ∀ snap, m.snapshot = some snap → Standing path s.log snap.data snap.index) :
    (s.setNode n m).AtMostOne path := by
  refine ⟨h.threads, h.entries, h.one, fun k => ?_, fun k snap hk => ?_⟩
  · rw [setNode_nodes]
    split
    · exact hnode
    · exact h.nodes k
  · rw [setNode_nodes] at hk
    split at hk
    · exact hsnap snap hk
    · exact h.snapshots k snap hk

theorem AtMostOne.apply {n : ν} (he : s.log[(s.nodes n).applied]? = some e) :
    (s.setNode n ((s.nodes n).applyEntry e)).AtMostOne path := by
  have hone : s.log.countP (fun e => e.cmd.creates path) ≤ 1 :=
    (Nat.le_add_left _ _).trans h.one
  have htame := h.entries e (.inr (List.mem_of_getElem? he))
  rcases (s.nodes n).applyEntry_store e with
    ⟨o, ho, hfit, hlook, happ, htou, hsnap⟩ | ⟨-, hkv, happ, htou, hsnap⟩
  · refine h.of_setNode ?_ fun snap hk => h.snapshots n snap (hsnap ▸ hk)
    rw [happ]
    exact (h.nodes n).apply hone htame he ho hfit hlook
  · exact h.of_threads (forall_setNode KeepsStore.refl ⟨hkv, happ, htou, hsnap⟩) rfl rfl
      h.threads h.one

/-- A restart ends the threads of the node and loses what it had not saved. -/
theorem AtMostOne.restart (n : ν) : (s.restart n).AtMostOne path := by
  have hone := h.one
  refine ⟨fun th hth => ?_, h.entries, ?_, fun k => ?_, fun k snap hk => ?_⟩
  · obtain ⟨th', hth', rfl⟩ := List.mem_map.mp hth
    split
    · exact True.intro
    · exact h.threads th' hth'
  · have hle : (s.restart n).threads.countP (fun th => th.pc.creating path) ≤
        s.threads.countP (fun th => th.pc.creating path) := by
      rw [Cluster.restart]
      dsimp only
      rw [List.countP_map]
      refine List.countP_mono_left fun th _ hc => ?_
      simp only [Function.comp_apply] at hc
      split at hc
      · cases hc
      · exact hc
    unfold underWay created at hone ⊢
    exact (Nat.add_le_add_right (Nat.add_le_add_right hle _) _).trans hone
  · simp only [Cluster.restart, setNode_nodes]
    split
    · cases hsnap : (s.nodes n).snapshot with
      | none => exact fun _ _ hi => absurd hi (Nat.not_lt_zero _)
      | some snap => exact h.snapshots n snap hsnap
    · exact h.nodes k
  · simp only [Cluster.restart, setNode_nodes] at hk
    split at hk
    · exact h.snapshots n snap hk
    · exact h.snapshots k snap hk

end Step

variable [DecidableEq ν]

theorem atMostOne_step {path : List String} {md5 : Bytes → String} {s s' : Cluster ν}
    {l : Label ν} (h : s.AtMostOne path) (hg : s.Grounded) (hscene : OnlyCreates path s l s')
    (hfirst : FirstCreate path s l s') (hs : step md5 s l = some s') : s'.AtMostOne path := by
  cases moves_of_step hs with
  | call n c =>
    have hth : (⟨n, c.start⟩ : Thread ν) ∈ (s.spawn n (some c.start)).threads :=
      List.mem_append_right _ (List.mem_singleton_self _)
    have hreq : ∀ req, c = .setKV req → req.IsCreate path := by
      rintro req rfl
      exact hscene.calls req rfl
    have hstart := start_tame hreq (hscene.spared _ hth)
    exact h.spawn hstart.1 hstart.2
  | @advance t th pc spawned hth hpc =>
    have hmem := List.mem_of_getElem? hth
    have hlt := (List.getElem?_eq_some_iff.mp hth).1
    have hin : { th with pc := pc } ∈ ((s.setPc t th pc).spawn th.node spawned).threads :=
      List.mem_append_left _ (List.mem_set hlt _)
    have hsp : ∀ sp, spawned = some sp → sp.Spares path := by
      rintro sp rfl
      exact hscene.spared ⟨th.node, sp⟩ (List.mem_append_right _ (by simp))
    obtain ⟨htame, htame'⟩ := advance_tame (h.threads th hmem)
      (fun req o heq => hscene.unexpired (req, o) (by simp [probing, hth, heq]))
      (hscene.spared _ hin) hsp hpc
    refine h.advance hth htame htame' fun hc => ?_
    refine (advance_creating (h.threads th hmem) hpc hc).imp_right ?_
    rintro ⟨req, err, hreq, hkey, hget⟩
    -- the load found nothing: by hypothesis nothing was counted before
    have hreq' := h.threads th hmem
    rw [hreq] at hreq'
    exact none_before h hkey (hreq' hkey).2 hget
      (hfirst (th.node, req) (by simp [loading, hth, hreq]) hkey (by rw [hget]; rfl))
  | @register t th cmd observed next hth hpc =>
    obtain ⟨hlog, hprop, -, pc, hthr, hpc'⟩ := register_rest s t th cmd observed next
    have htame := h.threads th (List.mem_of_getElem? hth)
    rw [hpc] at htame
    have hlt := (List.getElem?_eq_some_iff.mp hth).1
    have hspares : pc.Spares path :=
      hscene.spared { th with pc := pc } (hthr ▸ List.mem_set hlt _)
    rcases hpc' with rfl | ⟨id, rfl⟩
    · obtain ⟨ht, hc⟩ := resume_tame next _ htame.2 hspares
      exact h.of_setPc hth (register_keepsStore s _ _ _ _ _) hlog hprop hthr ht
        (fun hc' => by rw [hc] at hc'; cases hc')
    · refine h.of_setPc hth (register_keepsStore s _ _ _ _ _) hlog hprop hthr ?_ fun hc => ?_
      · exact ⟨⟨htame.1.1, htame.1.2⟩, htame.2⟩
      · rw [hpc]
        exact hc
  | propose hth hpc => exact h.propose hth hpc
  | @finish _ t th request cmd next err hth hl hend =>
    have htame := h.threads th (List.mem_of_getElem? hth)
    have hnext : next.Tame path := by
      rcases hend with ⟨observed, hpc, -⟩ | ⟨hpc, -⟩
      · rw [hpc] at htame
        exact htame.2
      · rw [hpc] at htame
        exact htame
    have hlt := (List.getElem?_eq_some_iff.mp hth).1
    obtain ⟨ht, hc⟩ := resume_tame next err hnext
      (hscene.spared { th with pc := next.resume err } (List.mem_set hlt _))
    exact h.of_setPc hth (forall_setNode KeepsStore.refl ⟨rfl, rfl, rfl, rfl⟩) rfl rfl rfl ht
      (fun hc' => by rw [hc] at hc'; cases hc')
  | commit he => exact h.commit hg he
  | drop he => exact h.drop he
  | apply hloop he => exact h.apply he
  | tick seconds => exact h.of_threads (fun _ => .refl _) rfl rfl h.threads h.one
  | shutdown n =>
    refine h.of_threads (forall_setNode KeepsStore.refl ⟨?_, rfl, rfl, rfl⟩) rfl rfl h.threads h.one
    unfold RaftNode.shutdown
    split <;> rfl
  | restart n => exact h.restart n
  | snapshot n =>
    refine h.of_setNode (h.nodes n) fun snap hk => ?_
    cases hk
    exact h.nodes n
  | @install n m snap hsnap hnew =>
    refine h.of_setNode (h.snapshots m snap hsnap) fun snap' hk => ?_
    cases hk
    exact h.snapshots m snap hsnap

/-- The request is a SetKV of the key, and has returned nil. -/
structure Succeeded (path : List String) (s : Cluster ν) (q : Nat) (r : Request ν) : Prop where
  returned : (q, none) ∈ s.returns
  request : s.requests[q]? = some r
  creates : r.cmd.creates path = true

/-- At most one create of the key has succeeded, and its value is the one stored by
every node that has applied its entry. -/
structure Exclusive (key : String) (s : Cluster ν) : Prop where
  once : ∀ q q' r r', Succeeded (keyPath key) s q r → Succeeded (keyPath key) s q' r' → q = q'
  stored : ∀ q r, Succeeded (keyPath key) s q r →
    ∃ i e, s.log[i]? = some e ∧ e.request = q ∧ q ∈ (s.nodes r.node).done ∧
      ∀ n, i < (s.nodes n).applied →
        getKV (s.nodes n).impl.kvstore key false = .ok (r.cmd.value.getD default)

omit [DecidableEq ν] in
theorem exclusive_of_atMostOne {key : String} {s : Cluster ν} (h : s.AtMostOne (keyPath key))
    (hacks : s.AcksApplied) : s.Exclusive key where
  once q q' r r' hs hs' := by
    obtain ⟨_, e, hr, he, hreq, hcmd, -⟩ := hacks q hs.returned
    rw [hs.request] at hr
    cases hr
    obtain ⟨_, e', hr', he', hreq', hcmd', -⟩ := hacks q' hs'.returned
    rw [hs'.request] at hr'
    cases hr'
    obtain ⟨i, hi⟩ := List.getElem?_of_mem he
    obtain ⟨j, hj⟩ := List.getElem?_of_mem he'
    have hone : s.log.countP (fun e => e.cmd.creates (keyPath key)) ≤ 1 :=
      (Nat.le_add_left _ _).trans h.one
    have hij := index_unique (p := fun e => e.cmd.creates (keyPath key)) hone hi hj
      (by rw [hcmd]; exact hs.creates) (by rw [hcmd']; exact hs'.creates)
    rw [hij, hj] at hi
    cases hi
    exact hreq.symm.trans hreq'
  stored q r hs := by
    obtain ⟨_, e, hr, he, hreq, hcmd, hdone⟩ := hacks q hs.returned
    rw [hs.request] at hr
    cases hr
    obtain ⟨i, hi⟩ := List.getElem?_of_mem he
    refine ⟨i, e, hi, hreq, hdone, fun n hlt => ?_⟩
    rw [← hcmd]
    exact (h.nodes n i e hlt hi (by rw [hcmd]; exact hs.creates)).getKV rfl

/-- Among creates of one key, that nothing removes, at most one succeeds, and its value
is the one stored, along every run in which acknowledgements are not confused and a
create finds nothing only as the first one. -/
theorem exclusive_of_firstCreate (md5 : Bytes → String) (key : String) (ls : List (Label ν))
    (hscene : EachStep (step md5) (OnlyCreates (keyPath key)) {} ls)
    (hcond : EachStep (step md5)
      (fun s l s' => ProposedHere s l s' ∧ FirstCreate (keyPath key) s l s') {} ls) :
    EachState (step md5) (Exclusive key) ({} : Cluster ν) ls := by
  have hall := eachState_of_eachStep
    (fun s => (Registered s ∧ Acked s) ∧ Grounded s ∧ AtMostOne (keyPath key) s)
    (fun s l s' hinv hP hs => by
      obtain ⟨⟨hreg, hack⟩, hg, hone⟩ := hinv
      obtain ⟨hsc, hhere, hfirst⟩ := hP
      have hown := (resolvesOwn_iff hreg hs).mpr hhere
      exact ⟨⟨registered_step hreg hs, acked_step hack hreg hown hs⟩, grounded_step hg hs,
        atMostOne_step hone hg hsc hfirst hs⟩)
    ⟨⟨registered_init, acked_init⟩, grounded_init, atMostOne_init _⟩ (hscene.and hcond)
  exact hall.mono fun s hs => exclusive_of_atMostOne hs.2.2 (acksApplied_of_acked hs.1.2 hs.1.1)

/-- The digests of the values `a` and `b`. -/
def md5Letters : Bytes → String := fun bs =>
  if bs = [97] then "0cc175b9c0f1b6a831c399e269772661" else "92eb5ffee6ae2fec3ad71c777531578f"

/-- A create, and when it has returned another one, which finds the key. -/
def createTwice : List (Label Unit) :=
  [.call () (.setKV ⟨"a/b", false, 0, [97], false, int32_zero⟩), .run 0, .run 0, .run 0, .run 0, .run 0,
    .commit 0, .apply (), .run 0,
    .call () (.setKV ⟨"a/b", false, 0, [98], false, int32_zero⟩), .run 1, .run 1]

theorem createTwice_exclusive :
    EachState (step md5Letters) (Exclusive "a/b") ({} : Cluster Unit) createTwice :=
  exclusive_of_firstCreate md5Letters "a/b" createTwice (by decide) (by decide)

/-- Two creates that both look for the key before one of them is applied. -/
def createBoth : List (Label Unit) :=
  [.call () (.setKV ⟨"a/b", false, 0, [97], false, int32_zero⟩),
    .call () (.setKV ⟨"a/b", false, 0, [98], false, int32_zero⟩),
    .run 0, .run 1, .run 0, .run 0, .run 0, .run 0, .run 1, .run 1, .run 1, .run 1,
    .commit 0, .commit 0, .apply (), .apply (), .run 0, .run 1]

/-- Nothing else writes the key, and both return nil. -/
theorem createBoth_not_exclusive :
    EachStep (step md5Letters) (OnlyCreates (keyPath "a/b")) ({} : Cluster Unit) createBoth ∧
    ¬ EachState (step md5Letters) (Exclusive "a/b") ({} : Cluster Unit) createBoth := by
  refine ⟨by decide, fun h => ?_⟩
  have hrun : (run (step md5Letters) ({} : Cluster Unit) createBoth).map (fun s =>
      (s.returns.map (fun r => (r.1, r.2.isNone)),
        s.requests.map fun r => r.cmd.creates (keyPath "a/b"))) =
      some ([(0, true), (1, true)], [true, true]) := by decide
  obtain ⟨s, hs, heq⟩ := Option.map_eq_some_iff.mp hrun
  obtain ⟨hret, hreq⟩ := Prod.mk.inj heq
  have hsucc : ∀ q < 2, ∃ r, Succeeded (keyPath "a/b") s q r := by
    intro q hq
    have hmem : (q, true) ∈ s.returns.map (fun r => (r.1, r.2.isNone)) := by
      rw [hret]
      have : q = 0 ∨ q = 1 := by omega
      rcases this with rfl | rfl <;> simp
    obtain ⟨⟨q', err⟩, hret', hq'⟩ := List.mem_map.mp hmem
    obtain ⟨rfl, herr⟩ := Prod.mk.inj hq'
    have hcre : (s.requests.map fun r => r.cmd.creates (keyPath "a/b"))[q']? = some true := by
      rw [hreq]
      have : q' = 0 ∨ q' = 1 := by omega
      rcases this with rfl | rfl <;> rfl
    rw [List.getElem?_map] at hcre
    obtain ⟨r, hr, hc⟩ := Option.map_eq_some_iff.mp hcre
    cases err with
    | some _ => cases herr
    | none => exact ⟨r, hret', hr, hc⟩
  obtain ⟨r₀, h₀⟩ := hsucc 0 (by omega)
  obtain ⟨r₁, h₁⟩ := hsucc 1 (by omega)
  exact absurd ((h.of_run hs).once 0 1 r₀ r₁ h₀ h₁) (by omega)

end Cluster

end Cassem.KV
