import Mathlib.Algebra.GroupWithZero.Nat
import Mathlib.Algebra.Order.BigOperators.Group.List
import Mathlib.Algebra.Order.Ring.Nat
import Mathlib.Data.List.Perm.Basic
import Mathlib.Data.List.Range
import Cassem.Lib.Program

/-!
# Workers that share a cursor

Workers take the items of a list one after the other, each wherever the cursor stands, and run a
program for the item against one service, request by request. Whatever the interleaving, and
whatever others do to the service in between, every item is taken at most once; when all workers
have stopped and were not told to leave, every item has its result. What a worker may rely on while
it is at an item is an outline of what holds of the item, which the others leave alone.
-/

namespace Cassem.Lib.SharedCursor

universe u

variable {σ : Type u} {Q : Type} {R : Q → Type} {ι β : Type}

/-! ## Steps -/

/-- A worker is between two items, or at the item of an index with the rest of its program. -/
inductive Worker (R : Q → Type) (β : Type) where
  | ready
  | busy (index : Nat) (rest : Program R β)
  | stopped

def Worker.index? : Worker R β → Option Nat
  | busy index _ => some index
  | _ => none

structure Crew (σ : Type u) (R : Q → Type) (β : Type) where
  state : σ
  cursor : Nat := 0
  workers : List (Worker R β)
  results : List (Nat × β) := []
  active : Bool := true

/-- So many workers that are about to begin. -/
def Crew.start (s : σ) (count : Nat) : Crew σ R β where
  state := s
  workers := List.replicate count .ready

section Steps

variable (items : List ι) (work : ι → Program R β) (Serves : σ → (q : Q) → R q → σ → Prop)
  (Other : σ → σ → Prop)

/-- A step of a worker, under its number, or of somebody else. -/
inductive Step (c : Crew σ R β) : Option Nat → Crew σ R β → Prop
  | take {i : Nat} {item : ι} (hi : c.workers[i]? = some .ready)
      (hitem : items[c.cursor]? = some item) :
      Step c (some i)
        { c with
          cursor := c.cursor + 1
          workers := c.workers.set i (.busy c.cursor (work item)) }
  | stop {i : Nat} (hi : c.workers[i]? = some .ready) (hend : items[c.cursor]? = none) :
      Step c (some i) { c with cursor := c.cursor + 1, workers := c.workers.set i .stopped }
  | serve {i index : Nat} {q : Q} {next : R q → Program R β} {r : R q} {s : σ}
      (hi : c.workers[i]? = some (.busy index (.call q next))) (hserves : Serves c.state q r s) :
      Step c (some i) { c with state := s, workers := c.workers.set i (.busy index (next r)) }
  | finish {i index : Nat} {b : β} (hi : c.workers[i]? = some (.busy index (.done b))) :
      Step c (some i)
        { c with
          results := c.results ++ [(index, b)]
          workers := c.workers.set i (if c.active then .ready else .stopped) }
  | leave : Step c none { c with active := false }
  | other {s : σ} (h : Other c.state s) : Step c none { c with state := s }

/-- The numbers of the workers whose steps they are, `none` for all others. -/
inductive Run (c : Crew σ R β) : List (Option Nat) → Crew σ R β → Prop
  | refl : Run c [] c
  | snoc {ls : List (Option Nat)} {l : Option Nat} {c' c'' : Crew σ R β} (h : Run c ls c')
      (hstep : Step items work Serves Other c' l c'') : Run c (ls ++ [l]) c''

end Steps

variable {items : List ι} {work : ι → Program R β} {Serves : σ → (q : Q) → R q → σ → Prop}
  {Other : σ → σ → Prop} {c c' c₀ : Crew σ R β} {l : Option Nat} {ls : List (Option Nat)}

/-! ## Every item is taken once -/

/-- The indices of the items that workers are at, or have a result for. -/
def Crew.taken (c : Crew σ R β) : List Nat :=
  c.results.map Prod.fst ++ c.workers.filterMap Worker.index?

theorem filterMap_set {workers : List (Worker R β)} {i : Nat} {w : Worker R β}
    (hi : workers[i]? = some w) (w' : Worker R β) :
    ∃ rest, (workers.filterMap Worker.index?).Perm (w.index?.toList ++ rest) ∧
      ((workers.set i w').filterMap Worker.index?).Perm (w'.index?.toList ++ rest) := by
  obtain ⟨hlt, hget⟩ := List.getElem?_eq_some_iff.mp hi
  have hcons : ∀ w (ws : List (Worker R β)), (w :: ws).filterMap Worker.index? =
      w.index?.toList ++ ws.filterMap Worker.index? := by
    intro w ws
    cases w <;> rfl
  refine ⟨(workers.eraseIdx i).filterMap Worker.index?, ?_, ?_⟩
  · have hperm := (List.getElem_cons_eraseIdx_perm hlt).symm.filterMap Worker.index?
    rwa [hget, hcons] at hperm
  · have hperm := (List.set_perm_cons_eraseIdx hlt w').filterMap Worker.index?
    rwa [hcons] at hperm

theorem taken_step (h : Step items work Serves Other c l c')
    (hc : c.taken.Perm (List.range (min c.cursor items.length))) :
    c'.taken.Perm (List.range (min c'.cursor items.length)) := by
  unfold Crew.taken at *
  cases h with
  | @take i item hi hitem =>
    have hlt := (List.getElem?_eq_some_iff.mp hitem).1
    obtain ⟨rest, hbefore, hafter⟩ := filterMap_set hi (.busy c.cursor (work item))
    have hmin : min (c.cursor + 1) items.length = min c.cursor items.length + 1 := by omega
    have hcursor : min c.cursor items.length = c.cursor := by omega
    dsimp only
    rw [hmin, List.range_succ, hcursor]
    rw [hcursor] at hc
    have hnew := (hafter.append_left (c.results.map Prod.fst)).trans List.perm_middle
    have hold := (hbefore.append_left (c.results.map Prod.fst)).symm.trans hc
    exact hnew.trans ((hold.cons c.cursor).trans (List.perm_append_singleton _ _).symm)
  | @stop i hi hend =>
    have hle := List.getElem?_eq_none_iff.mp hend
    obtain ⟨rest, hbefore, hafter⟩ := filterMap_set hi .stopped
    have hmin : min (c.cursor + 1) items.length = min c.cursor items.length := by omega
    dsimp only
    rw [hmin]
    exact ((hafter.trans hbefore.symm).append_left _).trans hc
  | @serve i index q next r s hi hserves =>
    obtain ⟨rest, hbefore, hafter⟩ := filterMap_set hi (.busy index (next r))
    exact ((hafter.trans hbefore.symm).append_left _).trans hc
  | @finish i index b hi =>
    obtain ⟨rest, hbefore, hafter⟩ := filterMap_set hi (if c.active then .ready else .stopped)
    have hnone : (if c.active then .ready else .stopped : Worker R β).index? = none := by
      split <;> rfl
    rw [hnone] at hafter
    dsimp only
    rw [List.map_append, List.append_assoc]
    exact ((hafter.append_left _).append_left _).trans ((hbefore.symm.append_left _).trans hc)
  | leave => exact hc
  | other h => exact hc

theorem taken_run {s : σ} {count : Nat} (h : Run items work Serves Other (.start s count) ls c) :
    c.taken.Perm (List.range (min c.cursor items.length)) := by
  induction h with
  | refl =>
    have hnone : (List.replicate count (.ready : Worker R β)).filterMap Worker.index? = [] :=
      List.filterMap_eq_nil_iff.mpr fun w hw => by rw [List.eq_of_mem_replicate hw]; rfl
    simp [Crew.taken, Crew.start, hnone]
  | snoc _ hstep ih => exact taken_step hstep ih

/-! ## The end -/

def Crew.Stopped (c : Crew σ R β) : Prop := ∀ w ∈ c.workers, w = .stopped

/-- A worker stops at the end of the items, or because it was told to leave. -/
theorem stopped_step (h : Step items work Serves Other c l c')
    (hc : .stopped ∈ c.workers → c.active = true → items.length ≤ c.cursor) :
    .stopped ∈ c'.workers → c'.active = true → items.length ≤ c'.cursor := by
  intro hmem hactive
  cases h with
  | @take i item hi hitem =>
    rcases List.mem_or_eq_of_mem_set hmem with hmem | heq
    · exact (hc hmem hactive).trans (Nat.le_succ _)
    · cases heq
  | @stop i hi hend => exact (List.getElem?_eq_none_iff.mp hend).trans (Nat.le_succ _)
  | @serve i index q next r s hi hserves =>
    rcases List.mem_or_eq_of_mem_set hmem with hmem | heq
    · exact hc hmem hactive
    · cases heq
  | @finish i index b hi =>
    rcases List.mem_or_eq_of_mem_set hmem with hmem | heq
    · exact hc hmem hactive
    · have hready : c.active = true := hactive
      rw [hready] at heq
      cases heq
  | leave => cases hactive
  | other h => exact hc hmem hactive

theorem workers_step (h : Step items work Serves Other c l c') :
    c'.workers.length = c.workers.length := by
  cases h <;> first | exact List.length_set | rfl

theorem workers_run (h : Run items work Serves Other c₀ ls c) :
    c.workers.length = c₀.workers.length := by
  induction h with
  | refl => rfl
  | snoc _ hstep ih => exact (workers_step hstep).trans ih

/-- When all workers have stopped and nobody told them to leave, every item has its result. -/
theorem all_taken {s : σ} {count : Nat} (h : Run items work Serves Other (.start s count) ls c)
    (hcount : count = 0 → items = []) (hstopped : c.Stopped) (hactive : c.active = true) :
    (c.results.map Prod.fst).Perm (List.range items.length) := by
  have hend : .stopped ∈ c.workers → c.active = true → items.length ≤ c.cursor := by
    clear hstopped hactive
    induction h with
    | refl =>
      intro hmem
      cases List.eq_of_mem_replicate hmem
    | snoc _ hstep ih => exact stopped_step hstep ih
  have hcursor : min c.cursor items.length = items.length := by
    refine min_eq_right ?_
    by_cases hzero : count = 0
    · rw [hcount hzero]
      exact Nat.zero_le _
    · have hlen : c.workers.length = count := (workers_run h).trans List.length_replicate
      obtain ⟨w, hw⟩ := List.exists_mem_of_length_pos (l := c.workers) (by omega)
      exact hend (hstopped w hw ▸ hw) hactive
  have htaken := taken_run h
  have hnone : c.workers.filterMap Worker.index? = [] :=
    List.filterMap_eq_nil_iff.mpr fun w hw => by rw [hstopped w hw]; rfl
  rwa [Crew.taken, hnone, List.append_nil, hcursor] at htaken

/-- As long as a worker has not stopped it can go on. -/
theorem exists_step (hserves : ∀ s q, ∃ r s', Serves s q r s') (hc : ¬ c.Stopped) :
    ∃ i c', Step items work Serves Other c (some i) c' := by
  obtain ⟨w, hw, hne⟩ : ∃ w ∈ c.workers, w ≠ .stopped := by
    by_contra hno
    exact hc fun w hw => not_not.mp fun hne => hno ⟨w, hw, hne⟩
  obtain ⟨i, hi⟩ := List.mem_iff_getElem?.mp hw
  match w with
  | .stopped => exact absurd rfl hne
  | .busy index (.done b) => exact ⟨i, _, .finish hi⟩
  | .busy index (.call q next) =>
    obtain ⟨r, s', hr⟩ := hserves c.state q
    exact ⟨i, _, .serve hi hr⟩
  | .ready =>
    cases hitem : items[c.cursor]? with
    | none => exact ⟨i, _, .stop hi hitem⟩
    | some item => exact ⟨i, _, .take hi hitem⟩

/-! ## How many steps there are -/

/-- The program makes at most so many requests. -/
def Within : Nat → Program R β → Prop
  | _, .done _ => True
  | 0, .call _ _ => False
  | n + 1, .call _ next => ∀ r, Within n (next r)

/-- What a worker still has to do before it is done with its item. -/
def Worker.Owes : Worker R β → Nat → Prop
  | .stopped, m => m = 0
  | .ready, m => m = 1
  | .busy _ rest, m => ∃ n, m = n + 2 ∧ Within n rest

/-- So many steps are left at most, where an item takes `n` requests. -/
def Crew.Owes (length n : Nat) (c : Crew σ R β) (m : Nat) : Prop :=
  ∃ ms : List Nat, List.Forall₂ Worker.Owes c.workers ms ∧
    m = (length - c.cursor) * (n + 2) + ms.sum

theorem forall₂_set {workers : List (Worker R β)} {ms : List Nat}
    (h : List.Forall₂ Worker.Owes workers ms) {i : Nat} {w : Worker R β}
    (hi : workers[i]? = some w) : ∃ m, w.Owes m ∧ ∀ w' m', w'.Owes m' →
      ∃ ms', List.Forall₂ Worker.Owes (workers.set i w') ms' ∧ ms'.sum + m = ms.sum + m' := by
  induction h generalizing i with
  | nil => cases hi
  | @cons w₀ m₀ workers ms hw₀ hrest ih =>
    cases i with
    | zero =>
      cases hi
      exact ⟨m₀, hw₀, fun w' m' hw' => ⟨m' :: ms, .cons hw' hrest, by simp [List.sum_cons]; omega⟩⟩
    | succ i =>
      obtain ⟨m, hm, hset⟩ := ih hi
      refine ⟨m, hm, fun w' m' hw' => ?_⟩
      obtain ⟨ms', hms', hsum⟩ := hset w' m' hw'
      exact ⟨m₀ :: ms', .cons hw₀ hms', by simp only [List.sum_cons]; omega⟩

theorem owes_step {n m : Nat} (hwork : ∀ item ∈ items, Within n (work item)) {i : Nat}
    (h : Step items work Serves Other c (some i) c') (hc : c.Owes items.length n m) :
    ∃ m', m' < m ∧ c'.Owes items.length n m' := by
  obtain ⟨ms, hms, rfl⟩ := hc
  cases h with
  | @take i item hi hitem =>
    have hlt := (List.getElem?_eq_some_iff.mp hitem).1
    obtain ⟨m, rfl, hset⟩ := forall₂_set hms hi
    obtain ⟨ms', hms', hsum⟩ := hset (.busy c.cursor (work item)) (n + 2)
      ⟨n, rfl, hwork item (List.mem_of_getElem? hitem)⟩
    refine ⟨_, ?_, ms', hms', rfl⟩
    have hleft : items.length - c.cursor = items.length - (c.cursor + 1) + 1 := by omega
    dsimp only
    rw [hleft, Nat.succ_mul]
    omega
  | @stop i hi hend =>
    have hle := List.getElem?_eq_none_iff.mp hend
    obtain ⟨m, rfl, hset⟩ := forall₂_set hms hi
    obtain ⟨ms', hms', hsum⟩ := hset .stopped 0 rfl
    refine ⟨_, ?_, ms', hms', rfl⟩
    have hleft : items.length - (c.cursor + 1) = items.length - c.cursor := by omega
    dsimp only
    rw [hleft]
    omega
  | @serve i index q next r s hi hserves =>
    obtain ⟨m, ⟨k, rfl, hk⟩, hset⟩ := forall₂_set hms hi
    cases k with
    | zero => exact hk.elim
    | succ k =>
      obtain ⟨ms', hms', hsum⟩ := hset (.busy index (next r)) (k + 2) ⟨k, rfl, hk r⟩
      exact ⟨_, by dsimp only; omega, ms', hms', rfl⟩
  | @finish i index b hi =>
    obtain ⟨m, ⟨k, rfl, hk⟩, hset⟩ := forall₂_set hms hi
    obtain ⟨m', hm', hlt⟩ : ∃ m', Worker.Owes (if c.active then .ready else .stopped : Worker R β) m' ∧
        m' < k + 2 := by
      split
      · exact ⟨1, rfl, by omega⟩
      · exact ⟨0, rfl, by omega⟩
    obtain ⟨ms', hms', hsum⟩ := hset _ m' hm'
    exact ⟨_, by dsimp only; omega, ms', hms', rfl⟩

theorem owes_other {n m : Nat} (h : Step items work Serves Other c none c')
    (hc : c.Owes items.length n m) : c'.Owes items.length n m := by
  cases h with
  | leave => exact hc
  | other h => exact hc

/-- Workers do not go on for ever. -/
theorem length_run_le {n : Nat} (hwork : ∀ item ∈ items, Within n (work item)) {s : σ} {count : Nat}
    (h : Run items work Serves Other (.start s count) ls c) :
    (ls.filter Option.isSome).length ≤ items.length * (n + 2) + count := by
  have hbound : ∃ m, c.Owes items.length n m ∧
      (ls.filter Option.isSome).length + m ≤ items.length * (n + 2) + count := by
    induction h with
    | refl =>
      refine ⟨_, ⟨List.replicate count 1, ?_, rfl⟩, ?_⟩
      · have hready : ∀ k, List.Forall₂ (Worker.Owes : Worker R β → Nat → Prop)
            (List.replicate k .ready) (List.replicate k 1) := by
          intro k
          induction k with
          | zero => exact .nil
          | succ k ih => exact .cons rfl ih
        exact hready count
      · simp [Crew.start]
    | @snoc ls l c c' _ hstep ih =>
      obtain ⟨m, hm, hle⟩ := ih
      cases l with
      | none => exact ⟨m, owes_other hstep hm, by simpa using hle⟩
      | some i =>
        obtain ⟨m', hlt, hm'⟩ := owes_step hwork hstep hm
        refine ⟨m', hm', ?_⟩
        rw [List.filter_append, List.length_append]
        have hone : ([some i].filter Option.isSome).length = 1 := rfl
        omega
  obtain ⟨m, -, hle⟩ := hbound
  omega

/-! ## What holds of the items -/

inductive Phase (R : Q → Type) (β : Type) where
  | waiting
  | working (rest : Program R β)
  | finished (b : β)

/-- What holds of each item before, during and after the work on it. Nobody but the worker at the
item changes it. -/
structure Outline (items : List ι) (work : ι → Program R β)
    (Serves : σ → (q : Q) → R q → σ → Prop) (Other : σ → σ → Prop)
    (Holds : Nat → Phase R β → σ → Prop) : Prop where
  begin : ∀ {index item s}, items[index]? = some item → Holds index .waiting s →
    Holds index (.working (work item)) s
  serve : ∀ {index q next s r s'}, Holds index (.working (.call q next)) s → Serves s q r s' →
    Holds index (.working (next r)) s'
  finish : ∀ {index b s}, Holds index (.working (.done b)) s → Holds index (.finished b) s
  frame : ∀ {index q next s r s'}, Holds index (.working (.call q next)) s → Serves s q r s' →
    ∀ {j phase}, j ≠ index → Holds j phase s → Holds j phase s'
  other : ∀ {s s'}, Other s s' → ∀ {j phase}, Holds j phase s → Holds j phase s'

/-- Every item is in the phase that the workers have it in. -/
structure InPhase (length : Nat) (Holds : Nat → Phase R β → σ → Prop) (c : Crew σ R β) : Prop where
  waiting : ∀ index, c.cursor ≤ index → index < length → Holds index .waiting c.state
  working : ∀ index rest, .busy index rest ∈ c.workers → Holds index (.working rest) c.state
  finished : ∀ index b, (index, b) ∈ c.results → Holds index (.finished b) c.state

variable {Holds : Nat → Phase R β → σ → Prop}

theorem mem_set {workers : List (Worker R β)} {i : Nat} {w : Worker R β} (hi : workers[i]? = some w)
    {w' x : Worker R β} : x ∈ workers.set i w' ↔ x = w' ∨ x ∈ workers.eraseIdx i :=
  (List.set_perm_cons_eraseIdx (List.getElem?_eq_some_iff.mp hi).1 w').mem_iff.trans List.mem_cons

/-- The item of a worker is nobody else's, and has no result yet. -/
theorem index_ne (hc : c.taken.Perm (List.range (min c.cursor items.length))) {i index : Nat}
    {rest : Program R β} (hi : c.workers[i]? = some (.busy index rest)) :
    index < c.cursor ∧ (∀ j rest', .busy j rest' ∈ c.workers.eraseIdx i → j ≠ index) ∧
      ∀ j b, (j, b) ∈ c.results → j ≠ index := by
  obtain ⟨hlt, hget⟩ := List.getElem?_eq_some_iff.mp hi
  have hsplit : c.taken.Perm
      (index :: (c.results.map Prod.fst ++ (c.workers.eraseIdx i).filterMap Worker.index?)) := by
    have hperm := (List.getElem_cons_eraseIdx_perm hlt).symm.filterMap Worker.index?
    rw [hget] at hperm
    exact (hperm.append_left _).trans List.perm_middle
  have hrange := hsplit.symm.trans hc
  have hnodup := List.nodup_cons.mp (hrange.nodup_iff.mpr List.nodup_range)
  have hmem : index ∈ List.range (min c.cursor items.length) :=
    hrange.mem_iff.mp List.mem_cons_self
  refine ⟨(List.mem_range.mp hmem).trans_le (min_le_left _ _), fun j rest' hj heq => ?_,
    fun j b hb heq => ?_⟩
  · exact hnodup.1 (List.mem_append_right _ (List.mem_filterMap.mpr ⟨_, hj, congrArg some heq⟩))
  · exact hnodup.1 (List.mem_append_left _ (List.mem_map.mpr ⟨_, hb, heq⟩))

theorem Outline.step (h : Outline items work Serves Other Holds)
    (htaken : c.taken.Perm (List.range (min c.cursor items.length)))
    (hc : InPhase items.length Holds c) (hstep : Step items work Serves Other c l c') :
    InPhase items.length Holds c' := by
  cases hstep with
  | @take i item hi hitem =>
    refine ⟨fun j hj hlt => hc.waiting j (Nat.le_of_succ_le hj) hlt, fun j rest hmem => ?_, hc.finished⟩
    rcases (mem_set hi).mp hmem with heq | hmem
    · cases heq
      have hlt := (List.getElem?_eq_some_iff.mp hitem).1
      exact h.begin hitem (hc.waiting _ le_rfl hlt)
    · exact hc.working j rest (List.mem_of_mem_eraseIdx hmem)
  | @stop i hi hend =>
    refine ⟨fun j hj hlt => hc.waiting j (Nat.le_of_succ_le hj) hlt, fun j rest hmem => ?_, hc.finished⟩
    rcases (mem_set hi).mp hmem with heq | hmem
    · cases heq
    · exact hc.working j rest (List.mem_of_mem_eraseIdx hmem)
  | @serve i index q next r s hi hserves =>
    obtain ⟨hcursor, hothers, hresults⟩ := index_ne htaken hi
    have hown := hc.working index _ (List.mem_of_getElem? hi)
    refine ⟨fun j hj hlt => ?_, fun j rest hmem => ?_, fun j b hb => ?_⟩
    · have hne : j ≠ index := (hcursor.trans_le hj).ne'
      exact h.frame hown hserves hne (hc.waiting j hj hlt)
    · rcases (mem_set hi).mp hmem with heq | hmem
      · cases heq
        exact h.serve hown hserves
      · exact h.frame hown hserves (hothers j rest hmem)
          (hc.working j rest (List.mem_of_mem_eraseIdx hmem))
    · exact h.frame hown hserves (hresults j b hb) (hc.finished j b hb)
  | @finish i index b hi =>
    refine ⟨hc.waiting, fun j rest hmem => ?_, fun j b' hb => ?_⟩
    · rcases (mem_set hi).mp hmem with heq | hmem
      · split at heq <;> cases heq
      · exact hc.working j rest (List.mem_of_mem_eraseIdx hmem)
    · rcases List.mem_append.mp hb with hb | hb
      · exact hc.finished j b' hb
      · cases List.mem_singleton.mp hb
        exact h.finish (hc.working index _ (List.mem_of_getElem? hi))
  | leave => exact ⟨hc.waiting, hc.working, hc.finished⟩
  | other hother =>
    exact ⟨fun j hj hlt => h.other hother (hc.waiting j hj hlt),
      fun j rest hmem => h.other hother (hc.working j rest hmem),
      fun j b hb => h.other hother (hc.finished j b hb)⟩

/-- Where an outline holds of all items at first, it holds throughout. -/
theorem Outline.run (h : Outline items work Serves Other Holds) {s : σ} {count : Nat}
    (hs : ∀ index < items.length, Holds index .waiting s)
    (hrun : Run items work Serves Other (.start s count) ls c) : InPhase items.length Holds c := by
  induction hrun with
  | refl =>
    refine ⟨fun j _ hlt => hs j hlt, fun j rest hmem => ?_, fun j b hb => absurd hb List.not_mem_nil⟩
    cases List.eq_of_mem_replicate hmem
  | snoc hbefore hstep ih => exact h.step (taken_run hbefore) ih hstep

end Cassem.Lib.SharedCursor
