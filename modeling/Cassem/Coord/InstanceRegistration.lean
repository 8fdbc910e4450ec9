import Cassem.Coord.InstanceIndex

/-!
# Registrations of one id

`RegisterInstance` asks for the record and then writes it, over whatever is there by then. Calls
with one id take turns with each other and with other clients, request by request.
-/

namespace Cassem.Coord

open Lib Cassem.Concept
open Program (Pool)

/-- The calls with the id, and those of them that have written its record since it was last
removed. -/
structure Registering where
  pool : Pool InsRows InsReq.Resp (Except GoError Unit)
  standing : List Nat := []

namespace Registering

/-- One of the calls goes on, or a request of somebody else is served. A record that expires is
removed. -/
inductive Act where
  | call (i : Nat)
  | other (q : InsReq)

def writes (insId : String) : InsReq → Bool
  | .SetKV key _ _ _ => decide (key = GenInstanceNormalKey insId)
  | _ => false

def removes (insId : String) : InsReq → Bool
  | .UnsetKV key => decide (key = GenInstanceNormalKey insId)
  | _ => false

def step (insId : String) (s : Registering) : Act → Option Registering
  | .call i =>
      match s.pool.threads[i]?, s.pool.step serveIns i with
      | some (.call q _), some pool =>
          some { pool, standing := if writes insId q then s.standing ++ [i] else s.standing }
      | _, _ => none
  | .other q =>
      some {
        pool := { s.pool with state := (serveIns s.pool.state q).1 }
        standing := if removes insId q then [] else s.standing }

def started (rows : InsRows) (calls : List (Int × Instance)) : Registering :=
  { pool := ⟨rows, calls.map fun c => RegisterInstance c.1 c.2, []⟩ }

/-- At most one call has returned success whose record has not been removed. -/
def Unique (s : Registering) : Prop :=
  ∀ i ∈ s.standing, ∀ j ∈ s.standing, s.pool.threads[i]? = some (.done (.ok ())) →
    s.pool.threads[j]? = some (.done (.ok ())) → i = j

/-- The next request of the call writes the record. -/
def Writing (insId : String) (s : Registering) (i : Nat) : Prop :=
  Pool.AboutTo (writes insId) s.pool i

/-- A call finds no record only while no other call is about to write it. -/
def Apart (insId : String) (s : Registering) (act : Act) (_ : Registering) : Prop :=
  match act with
  | .call i => ∀ next, s.pool.threads[i]? = some (.call (.GetKV (GenInstanceNormalKey insId)) next) →
      SortedMap.lookup (GenInstanceNormalKey insId) s.pool.state = none →
        ∀ j, j ≠ i → ¬ Writing insId s j
  | .other _ => True

/-! ## Where a call stands -/

/-- Before its check, before its write, or past it. -/
inductive Stage (insId : String) : Program InsReq.Resp (Except GoError Unit) → Prop
  | checking {now : Int} {ins : Instance} (h : ins.insId = insId) :
      Stage insId (RegisterInstance now ins)
  | writing {ins : Instance} (h : ins.insId = insId) : Stage insId (setInstanceInfo ins)
  | reversing {keys : List String} {errs : List GoError}
      (h : GenInstanceNormalKey insId ∉ keys) : Stage insId (setReversed insId keys errs)
  | refused {err : GoError} : Stage insId (.done (.error err))

structure Inv (insId : String) (s : Registering) : Prop where
  stage : ∀ t ∈ s.pool.threads, Stage insId t
  record : s.standing ≠ [] → SortedMap.lookup (GenInstanceNormalKey insId) s.pool.state ≠ none
  alone : ∀ i j, Writing insId s i → Writing insId s j → i = j
  before : ∀ i, Writing insId s i → s.standing = []
  one : s.standing.length ≤ 1

variable {insId : String} {s s' : Registering} {act : Act} {i : Nat}

/-- A request that does not remove the record leaves it there. -/
theorem record_served {rows : InsRows} {q : InsReq} (hq : removes insId q = false)
    (h : SortedMap.lookup (GenInstanceNormalKey insId) rows ≠ none) :
    SortedMap.lookup (GenInstanceNormalKey insId) (serveIns rows q).1 ≠ none := by
  cases q with
  | GetKV key => exact h
  | GetKVs keys => exact h
  | Range key seek limit => exact h
  | SetKV key ttl val overwrite =>
    unfold serveIns
    dsimp only
    split
    · exact h
    · rw [SortedMap.lookup_insert]
      split
      · exact Option.some_ne_none _
      · exact h
  | UnsetKV key =>
    have hne : GenInstanceNormalKey insId ≠ key := by
      rintro rfl
      simp [removes] at hq
    show SortedMap.lookup _ (SortedMap.erase key rows) ≠ none
    rw [SortedMap.lookup_erase, if_neg hne]
    exact h

theorem step_call (hs : step insId s (.call i) = some s') :
    ∃ q next, s.pool.threads[i]? = some (.call q next) ∧ s' =
      { pool := ⟨(serveIns s.pool.state q).1,
          s.pool.threads.set i (next (serveIns s.pool.state q).2), (i, q) :: s.pool.trace⟩
        standing := if writes insId q then s.standing ++ [i] else s.standing } := by
  unfold step at hs
  dsimp only at hs
  split at hs
  · next q next pool hthread hstep =>
    cases hs
    obtain ⟨q', next', hget, rfl⟩ := Pool.step_eq_some hstep
    cases hthread.symm.trans hget
    exact ⟨q, next, hget, rfl⟩
  · cases hs

/-- The next request of a program writes the record. -/
def AtWrite (insId : String) (t : Program InsReq.Resp (Except GoError Unit)) : Prop :=
  ∃ q next, t = .call q next ∧ writes insId q = true

theorem not_atWrite_done (r : Except GoError Unit) : ¬ AtWrite insId (.done r) := nofun

theorem not_atWrite_setReversed {keys : List String} {errs : List GoError}
    (h : GenInstanceNormalKey insId ∉ keys) : ¬ AtWrite insId (setReversed insId keys errs) := by
  rintro ⟨q, next, heq, hq⟩
  cases keys with
  | nil => cases heq
  | cons key keys =>
    cases heq
    exact h (of_decide_eq_true hq ▸ List.mem_cons_self)

/-- What serving the next request of a call does, by where it stands. -/
inductive Served (insId : String) (rows : InsRows) (q : InsReq)
    (t : Program InsReq.Resp (Except GoError Unit)) : Prop
  | found (hq : q = .GetKV (GenInstanceNormalKey insId))
      (hsome : SortedMap.lookup (GenInstanceNormalKey insId) rows ≠ none) {err : GoError}
      (ht : t = .done (.error err))
  | missing (hq : q = .GetKV (GenInstanceNormalKey insId))
      (hnone : SortedMap.lookup (GenInstanceNormalKey insId) rows = none) {ins : Instance}
      (hins : ins.insId = insId) (ht : t = setInstanceInfo ins)
  | wrote (hq : writes insId q = true)
      (hrecord : SortedMap.lookup (GenInstanceNormalKey insId) (serveIns rows q).1 ≠ none)
      {keys : List String} (hkeys : GenInstanceNormalKey insId ∉ keys)
      (ht : t = setReversed insId keys [])
  | reversed (hget : ∀ key, q ≠ .GetKV key) (hq : writes insId q = false)
      (hremoves : removes insId q = false)
      {keys : List String} {errs : List GoError} (hkeys : GenInstanceNormalKey insId ∉ keys)
      (ht : t = setReversed insId keys errs)

theorem Stage.served {q : InsReq} {next : q.Resp → Program InsReq.Resp (Except GoError Unit)}
    (h : Stage insId (.call q next)) (rows : InsRows) :
    Served insId rows q (next (serveIns rows q).2) := by
  generalize ht : Program.call q next = t at h
  cases h with
  | @checking now ins hins =>
    cases ht
    subst hins
    cases hlookup : SortedMap.lookup (GenInstanceNormalKey ins.insId) rows with
    | some val =>
      have hanswer : (serveIns rows (.GetKV (GenInstanceNormalKey ins.insId))).2 = .ok val := by
        simp only [serveIns, hlookup]
      exact .found rfl (by simp [hlookup]) (by rw [hanswer])
    | none =>
      have hnotFound : (GoError.concept Err_NOT_FOUND).errorsIs (.concept Err_NOT_FOUND) = true := by
        decide
      refine .missing rfl hlookup (insId_stamped now ins) ?_
      simp only [serveIns, hlookup]
      rw [if_pos hnotFound]
  | @writing ins hins =>
    cases ht
    subst hins
    have hkeys : GenInstanceNormalKey ins.insId ∉ reversedKeys ins.insId ins :=
      Index.normalKey_notMem
    refine .wrote (decide_eq_true rfl) ?_ hkeys ?_
    · simp [serveIns, SortedMap.lookup_insert]
    · simp [serveIns]
  | @reversing keys errs hkeys =>
    cases keys with
    | nil => cases ht
    | cons key keys =>
      cases ht
      have hne : key ≠ GenInstanceNormalKey insId := fun heq => hkeys (heq ▸ List.mem_cons_self)
      have hanswer : (serveIns rows (.SetKV key 120 (.id insId) true)).2 = .ok () := by simp [serveIns]
      have hrest : GenInstanceNormalKey insId ∉ keys := fun hmem =>
        hkeys (List.mem_cons_of_mem _ hmem)
      exact .reversed nofun (decide_eq_false hne) rfl hrest (by rw [hanswer])
  | refused => cases ht

/-- Who is about to write once a call has gone on. -/
theorem writing_set {t : Program InsReq.Resp (Except GoError Unit)} (hi : i < s.pool.threads.length)
    (hthreads : s'.pool.threads = s.pool.threads.set i t) (j : Nat) :
    Writing insId s' j ↔ j = i ∧ AtWrite insId t ∨ j ≠ i ∧ Writing insId s j := by
  unfold Writing Pool.AboutTo
  rw [hthreads]
  by_cases hj : j = i
  · subst hj
    rw [List.getElem?_set_self hi]
    simp [AtWrite]
  · rw [List.getElem?_set_ne (Ne.symm hj)]
    simp [hj]

/-- A call that goes on and does not come to its write, or write, the record. -/
theorem Inv.quiet (h : Inv insId s) (hi : i < s.pool.threads.length)
    {t : Program InsReq.Resp (Except GoError Unit)} {q : InsReq} (hq : removes insId q = false)
    (ht : Stage insId t) (hquiet : ¬ AtWrite insId t) :
    Inv insId { s with pool := ⟨(serveIns s.pool.state q).1, s.pool.threads.set i t,
      (i, q) :: s.pool.trace⟩ } := by
  have hwriting : ∀ j, Writing insId { s with pool := ⟨(serveIns s.pool.state q).1,
      s.pool.threads.set i t, (i, q) :: s.pool.trace⟩ } j → Writing insId s j := fun j hj =>
    ((writing_set hi rfl j).mp hj).elim (fun hown => absurd hown.2 hquiet) And.right
  refine ⟨fun t' ht' => ?_, fun hne => record_served hq (h.record hne),
    fun j k hj hk => h.alone j k (hwriting j hj) (hwriting k hk),
    fun j hj => h.before j (hwriting j hj), h.one⟩
  exact (List.mem_or_eq_of_mem_set ht').elim (h.stage t') fun heq => heq ▸ ht

theorem Inv.step (h : Inv insId s) (ha : Apart insId s act s') (hs : step insId s act = some s') :
    Inv insId s' := by
  cases act with
  | other q =>
    cases hs
    refine ⟨h.stage, fun hne => ?_, fun i j hi hj => h.alone i j hi hj, fun i hi => ?_, ?_⟩
    · cases hq : removes insId q with
      | true => simp [hq] at hne
      | false =>
        refine record_served hq (h.record ?_)
        simpa [hq] using hne
    · simp [h.before i hi]
    · dsimp only
      split
      · exact Nat.zero_le _
      · exact h.one
  | call i =>
    obtain ⟨q, next, hthread, rfl⟩ := step_call hs
    have hi : i < s.pool.threads.length := (List.getElem?_eq_some_iff.mp hthread).1
    have hserved := (h.stage _ (List.mem_of_getElem? hthread)).served s.pool.state
    generalize next (serveIns s.pool.state q).2 = t at hserved ⊢
    cases hserved with
    | found hq _ ht =>
      subst hq ht
      exact h.quiet hi rfl .refused (not_atWrite_done _)
    | reversed _ hq hremoves hkeys ht =>
      subst ht
      rw [hq]
      exact h.quiet hi hremoves (.reversing hkeys) (not_atWrite_setReversed hkeys)
    | @missing hq hnone ins hins ht =>
      subst hq ht
      -- no other call is about to write, and no record stands
      have hothers := ha next hthread hnone
      have hstanding : s.standing = [] := by
        by_contra hne
        exact h.record hne hnone
      have hself : ∀ s' : Registering, s'.pool.threads = s.pool.threads.set i (setInstanceInfo ins) →
          ∀ j, Writing insId s' j → j = i := fun s' hs' j hj =>
        ((writing_set hi hs' j).mp hj).elim And.left fun hother =>
          absurd hother.2 (hothers j hother.1)
      refine ⟨fun t' ht' => ?_, h.record, fun j k hj hk =>
        (hself _ rfl j hj).trans (hself _ rfl k hk).symm, fun _ _ => hstanding, h.one⟩
      exact (List.mem_or_eq_of_mem_set ht').elim (h.stage t') fun heq => heq ▸ .writing hins
    | @wrote hq hrecord keys hkeys ht =>
      subst ht
      have hown : Writing insId s i := ⟨q, next, hthread, hq⟩
      have hnobody : ∀ s' : Registering,
          s'.pool.threads = s.pool.threads.set i (setReversed insId keys []) →
            ∀ j, ¬ Writing insId s' j := fun s' hs' j hj =>
        ((writing_set hi hs' j).mp hj).elim
          (fun hself => not_atWrite_setReversed hkeys hself.2)
          fun hother => hother.1 (h.alone j i hother.2 hown)
      rw [hq, if_pos rfl, h.before i hown]
      refine ⟨fun t' ht' => ?_, fun _ => hrecord, fun j _ hj => absurd hj (hnobody _ rfl j),
        fun j hj => absurd hj (hnobody _ rfl j), Nat.le_refl 1⟩
      exact (List.mem_or_eq_of_mem_set ht').elim (h.stage t') fun heq => heq ▸ .reversing hkeys

theorem Inv.unique (h : Inv insId s) : s.Unique := by
  intro i hi j hj _ _
  have hone := h.one
  obtain ⟨k, hk⟩ : ∃ k, s.standing = [k] :=
    List.length_eq_one_iff.mp (by have := List.length_pos_of_mem hi; omega)
  rw [hk] at hi hj
  exact (List.mem_singleton.mp hi).trans (List.mem_singleton.mp hj).symm

theorem Inv.started (rows : InsRows) {calls : List (Int × Instance)}
    (h : ∀ c ∈ calls, c.2.insId = insId) : Inv insId (started rows calls) := by
  have hchecking : ∀ i, ¬ Writing insId (Registering.started rows calls) i := by
    rintro i ⟨q, next, hthread, hq⟩
    obtain ⟨c, hc, heq⟩ := List.mem_map.mp (List.mem_of_getElem? hthread)
    cases heq
    cases hq
  refine ⟨fun t ht => ?_, fun hne => absurd rfl hne, fun i _ hi => absurd hi (hchecking i),
    fun i hi => absurd hi (hchecking i), Nat.zero_le _⟩
  obtain ⟨c, hc, rfl⟩ := List.mem_map.mp ht
  exact .checking (h c hc)

/-- In every run in which no call finds the record missing while another is about to write it, at
most one registration that stands has succeeded. -/
theorem unique_of_apart (insId : String) (rows : InsRows) (calls : List (Int × Instance))
    (hcalls : ∀ c ∈ calls, c.2.insId = insId) (acts : List Act)
    (h : Transition.EachStep (step insId) (Apart insId) (started rows calls) acts) :
    Transition.EachState (step insId) Unique (started rows calls) acts := by
  have hstep : ∀ s act s', Inv insId s → Apart insId s act s' → step insId s act = some s' →
      Inv insId s' := fun s act s' hinv ha hs => hinv.step ha hs
  exact (Transition.eachState_of_eachStep (Inv insId) hstep (.started rows hcalls) h).mono
    fun _ => Inv.unique

def shopClient : Instance := { ClientId := "client-1", ClientIp := "10.0.0.1" }

/-- One call after the other: the second finds the record of the first. -/
theorem unique_of_apart_inTurn : Transition.EachState (step "client-1@10.0.0.1") Unique
    (started [] [(0, shopClient), (0, shopClient)]) [.call 0, .call 0, .call 1] := by
  refine unique_of_apart _ [] [(0, shopClient), (0, shopClient)] (by decide) _ ?_
  refine .cons rfl (fun next _ _ j hj hwriting => ?_) ?_
  · obtain ⟨q, next', hthread, hq⟩ := hwriting
    obtain rfl | ⟨j, rfl⟩ : j = 1 ∨ ∃ j', j = j' + 2 := by
      rcases j with _ | _ | j
      · exact absurd rfl hj
      · exact .inl rfl
      · exact .inr ⟨j, rfl⟩
    · cases hthread
      cases hq
    · cases hthread
  · refine .cons rfl (fun next hthread => by cases hthread) (.cons rfl (fun next _ hnone => ?_) trivial)
    exact absurd hnone (by decide)

/-- Two calls that both find no record both succeed. -/
theorem both_succeed : ¬ Transition.EachState (step "client-1@10.0.0.1") Unique
    (started [] [(0, shopClient), (0, shopClient)]) [.call 0, .call 1, .call 0, .call 1] := by
  intro h
  have hsame := h.of_run rfl 0 List.mem_cons_self 1 (List.mem_cons_of_mem _ List.mem_cons_self)
    rfl rfl
  cases hsame

/-! ## Calls that overlap -/

/-- A call that has written the record can come to its end. -/
theorem exists_reversed {keys : List String}
    (hi : s.pool.threads[i]? = some (setReversed insId keys []))
    (hkeys : GenInstanceNormalKey insId ∉ keys) :
    ∃ acts s', Transition.run (step insId) s acts = some s' ∧
      s'.pool.threads = s.pool.threads.set i (.done (.ok ())) ∧ s'.standing = s.standing := by
  induction keys generalizing s with
  | nil =>
    refine ⟨[], s, rfl, ?_, rfl⟩
    obtain ⟨hlt, hget⟩ := List.getElem?_eq_some_iff.mp hi
    have hdone : s.pool.threads[i] = .done (.ok ()) := hget
    rw [← hdone, List.set_getElem_self]
  | cons key keys ih =>
    have hlt := (List.getElem?_eq_some_iff.mp hi).1
    have hne : key ≠ GenInstanceNormalKey insId := fun heq => hkeys (heq ▸ List.mem_cons_self)
    have hstep : step insId s (.call i) = some { s with
        pool := ⟨SortedMap.insert key (.id insId) s.pool.state,
          s.pool.threads.set i (setReversed insId keys []),
          (i, .SetKV key 120 (.id insId) true) :: s.pool.trace⟩ } := by
      have hi' := hi
      simp only [setReversed] at hi'
      simp [step, Pool.step, hi', writes, hne, serveIns]
    obtain ⟨acts, s', hrun, hthreads, hstanding⟩ := ih (s := { s with
        pool := ⟨SortedMap.insert key (.id insId) s.pool.state,
          s.pool.threads.set i (setReversed insId keys []),
          (i, .SetKV key 120 (.id insId) true) :: s.pool.trace⟩ })
      (List.getElem?_set_self hlt) fun hmem => hkeys (List.mem_cons_of_mem _ hmem)
    refine ⟨.call i :: acts, s', (Transition.run_cons hstep _).trans hrun, ?_, hstanding⟩
    rw [hthreads, List.set_set]

/-- A call that has found no record can succeed. -/
theorem exists_registered {ins : Instance} (hins : ins.insId = insId)
    (hi : s.pool.threads[i]? = some (setInstanceInfo ins)) :
    ∃ acts s', Transition.run (step insId) s acts = some s' ∧
      s'.pool.threads = s.pool.threads.set i (.done (.ok ())) ∧
      s'.standing = s.standing ++ [i] := by
  subst hins
  have hlt := (List.getElem?_eq_some_iff.mp hi).1
  have hstep : step ins.insId s (.call i) = some {
      pool := ⟨SortedMap.insert (GenInstanceNormalKey ins.insId) (.detail ins) s.pool.state,
        s.pool.threads.set i (setReversed ins.insId (reversedKeys ins.insId ins) []),
        (i, .SetKV (GenInstanceNormalKey ins.insId) 120 (.detail ins) true) :: s.pool.trace⟩
      standing := s.standing ++ [i] } := by
    have hi' := hi
    simp only [setInstanceInfo] at hi'
    simp [step, Pool.step, hi', writes, serveIns]
  obtain ⟨acts, s', hrun, hthreads, hstanding⟩ := exists_reversed (s := {
      pool := ⟨SortedMap.insert (GenInstanceNormalKey ins.insId) (.detail ins) s.pool.state,
        s.pool.threads.set i (setReversed ins.insId (reversedKeys ins.insId ins) []),
        (i, .SetKV (GenInstanceNormalKey ins.insId) 120 (.detail ins) true) :: s.pool.trace⟩
      standing := s.standing ++ [i] })
    (List.getElem?_set_self hlt) Index.normalKey_notMem
  refine ⟨.call i :: acts, s', (Transition.run_cons hstep _).trans hrun, ?_, hstanding⟩
  rw [hthreads, List.set_set]

/-- A program that is about to write the record. -/
theorem Stage.eq_of_atWrite {t : Program InsReq.Resp (Except GoError Unit)}
    (h : Stage insId t) (ht : AtWrite insId t) :
    ∃ ins, ins.insId = insId ∧ t = setInstanceInfo ins := by
  cases h with
  | checking hins =>
    obtain ⟨q, next, heq, hq⟩ := ht
    cases heq
    cases hq
  | @writing ins hins => exact ⟨ins, hins, rfl⟩
  | reversing hkeys => exact absurd ht (not_atWrite_setReversed hkeys)
  | refused => exact absurd ht (not_atWrite_done _)

/-- Once a call finds the record missing while another is about to write it, both can succeed. -/
theorem overlap_fails (hinv : Inv insId s) (hs : step insId s act = some s')
    (hnot : ¬ Apart insId s act s') :
    ∃ acts, ¬ Transition.EachState (step insId) Unique s' acts := by
  cases act with
  | other q => exact absurd trivial hnot
  | call i =>
    obtain ⟨q, next, hthread, rfl⟩ := step_call hs
    unfold Apart at hnot
    push Not at hnot
    obtain ⟨next', hthread', hnone, j, hji, hj⟩ := hnot
    cases hthread.symm.trans hthread'
    have hserved := (hinv.stage _ (List.mem_of_getElem? hthread)).served s.pool.state
    obtain ⟨q, next, hthreadj, hq⟩ := hj
    obtain ⟨ins', hins', htj⟩ := (hinv.stage _ (List.mem_of_getElem? hthreadj)).eq_of_atWrite
      ⟨q, next, rfl, hq⟩
    rw [htj] at hthreadj
    generalize next' (serveIns s.pool.state _).2 = t at hserved ⊢
    cases hserved with
    | found _ hsome _ => exact absurd hnone hsome
    | wrote hq => cases hq
    | reversed hget => exact absurd rfl (hget _)
    | @missing _ _ ins hins ht =>
      subst ht
      -- both go on to their ends, one after the other
      have hlt := (List.getElem?_eq_some_iff.mp hthread).1
      obtain ⟨acts, s₁, hrun, hthreads, hstanding⟩ := exists_registered hins (i := i) (s := {
        pool := ⟨s.pool.state, s.pool.threads.set i (setInstanceInfo ins),
          (i, .GetKV (GenInstanceNormalKey insId)) :: s.pool.trace⟩
        standing := s.standing }) (List.getElem?_set_self hlt)
      have hj₁ : s₁.pool.threads[j]? = some (setInstanceInfo ins') := by
        rw [hthreads, List.set_set, List.getElem?_set_ne (Ne.symm hji), hthreadj]
      obtain ⟨more, s₂, hmore, hthreads₂, hstanding₂⟩ := exists_registered hins' hj₁
      refine ⟨acts ++ more, fun hall => hji ?_⟩
      have hend := hall.of_run ((Transition.run_append hrun more).trans hmore)
      refine hend j ?_ i ?_ ?_ ?_
      · simp [hstanding₂]
      · simp [hstanding₂, hstanding]
      · rw [hthreads₂, List.getElem?_set_self (List.getElem?_eq_some_iff.mp hj₁).1]
      · rw [hthreads₂, List.getElem?_set_ne hji, hthreads, List.set_set,
          List.getElem?_set_self hlt]

end Registering

end Cassem.Coord
