import Mathlib.Data.List.Basic

/-!
# Programs that call a service

A program is what a client of a service does: it ends with a result, or sends a request
and goes on with the answer. It runs alone against the state of the service, or alone
with one of its writes refused, or in a pool of programs that take turns, request by
request, on one state.
-/

namespace Cassem.Lib

universe u

inductive Program {Q : Type} (R : Q → Type) (α : Type) where
  | done (a : α)
  | call (q : Q) (next : R q → Program R α)

namespace Program

variable {Q : Type} {R : Q → Type} {α β : Type} {σ : Type u}

def bind : Program R α → (α → Program R β) → Program R β
  | done a, f => f a
  | call q next, f => call q fun r => (next r).bind f

instance : Monad (Program R) where
  pure := done
  bind := bind

/-- The program has ended without an error. -/
def succeeded {ε : Type} : Program R (Except ε α) → Bool
  | done (.ok _) => true
  | _ => false

theorem succeeded_iff {ε : Type} {p : Program R (Except ε α)} :
    p.succeeded = true ↔ ∃ a, p = done (.ok a) := by
  match p with
  | done (.ok a) => simp [succeeded]
  | done (.error e) => simp [succeeded]
  | call q next => simp [succeeded]

section Runs

variable (serve : σ → (q : Q) → σ × R q)

/-- The program alone: the state it leaves, and its result. -/
def run (s : σ) : Program R α → σ × α
  | done a => (s, a)
  | call q next => run (serve s q).1 (next (serve s q).2)

/-- The number of writes of the run. -/
def writes (write : Q → Bool) (s : σ) : Program R α → Nat
  | done _ => 0
  | call q next => (if write q then 1 else 0) + writes write (serve s q).1 (next (serve s q).2)

/-- The program alone, its `n`-th write answered by `refuse` and not carried out. -/
def runRefusing (write : Q → Bool) (refuse : (q : Q) → R q) : Nat → σ → Program R α → σ × α
  | _, s, done a => (s, a)
  | n, s, call q next =>
      if write q then
        if n = 1 then run serve s (next (refuse q))
        else runRefusing write refuse (n - 1) (serve s q).1 (next (serve s q).2)
      else runRefusing write refuse n (serve s q).1 (next (serve s q).2)

/-- The program once it has made the reads that it begins with. -/
def afterReads (write : Q → Bool) (s : σ) : Program R α → Program R α
  | done a => done a
  | call q next => if write q then call q next else afterReads write s (next (serve s q).2)

section Reads

variable {serve} {write : Q → Bool} (hread : ∀ s q, write q = false → (serve s q).1 = s)
include hread

theorem run_afterReads (s : σ) (p : Program R α) :
    run serve s (afterReads serve write s p) = run serve s p := by
  induction p with
  | done a => rfl
  | call q next ih =>
    rw [afterReads]
    split
    · rfl
    · next hq => rw [ih, run, hread s q (by simpa using hq)]

theorem writes_afterReads (s : σ) (p : Program R α) :
    writes serve write s (afterReads serve write s p) = writes serve write s p := by
  induction p with
  | done a => rfl
  | call q next ih =>
    rw [afterReads]
    split
    · rfl
    · next hq => rw [ih, writes, hread s q (by simpa using hq), if_neg hq, Nat.zero_add]

theorem runRefusing_afterReads (refuse : (q : Q) → R q) (n : Nat) (s : σ) (p : Program R α) :
    runRefusing serve write refuse n s (afterReads serve write s p) =
      runRefusing serve write refuse n s p := by
  induction p with
  | done a => rfl
  | call q next ih =>
    rw [afterReads]
    split
    · rfl
    · next hq => rw [ih, runRefusing, if_neg hq, hread s q (by simpa using hq)]

end Reads

end Runs

/-! ## Two services -/

/-- Whatever the answers are, all requests of the program are of `P`. -/
def Asks (P : Q → Prop) : Program R α → Prop
  | done _ => True
  | call q next => P q ∧ ∀ r, Asks P (next r)

/-- On services that answer such requests alike and stay related, a program has one result, and
leaves related states. -/
theorem run_related {τ : Type u} {serve : σ → (q : Q) → σ × R q} {serve' : τ → (q : Q) → τ × R q}
    {P : Q → Prop} {related : σ → τ → Prop}
    (hserve : ∀ s t q, P q → related s t →
      (serve s q).2 = (serve' t q).2 ∧ related (serve s q).1 (serve' t q).1)
    (p : Program R α) (hp : p.Asks P) {s : σ} {t : τ} (h : related s t) :
    (run serve s p).2 = (run serve' t p).2 ∧ related (run serve s p).1 (run serve' t p).1 := by
  induction p generalizing s t with
  | done a => exact ⟨rfl, h⟩
  | call q next ih =>
    obtain ⟨hq, hnext⟩ := hp
    obtain ⟨hanswer, hrelated⟩ := hserve s t q hq h
    rw [run, run, ← hanswer]
    exact ih _ (hnext _) hrelated

/-! ## The requests of a run -/

/-- All requests that the program makes when it runs from `s` are of `P`. -/
def Makes (serve : σ → (q : Q) → σ × R q) (P : Q → Prop) : σ → Program R α → Prop
  | _, done _ => True
  | s, call q next => P q ∧ Makes serve P (serve s q).1 (next (serve s q).2)

section Makes

variable {serve serve' : σ → (q : Q) → σ × R q} {P : Q → Prop}

/-- A service that differs on other requests only makes no difference. -/
theorem run_congr (hserve : ∀ s q, P q → serve' s q = serve s q) (p : Program R α) {s : σ}
    (hp : p.Makes serve P s) : run serve' s p = run serve s p := by
  induction p generalizing s with
  | done a => rfl
  | call q next ih =>
    obtain ⟨hq, hnext⟩ := hp
    rw [run, run, hserve s q hq]
    exact ih _ hnext

theorem Asks.makes {p : Program R α} (hp : p.Asks P) (s : σ) : p.Makes serve P s := by
  induction p generalizing s with
  | done a => trivial
  | call q next ih => exact ⟨hp.1, ih _ (hp.2 _) _⟩

/-- Services that stay related have the same requests made of them. -/
theorem makes_related {τ : Type u} {serve' : τ → (q : Q) → τ × R q} {A : Q → Prop}
    {related : σ → τ → Prop}
    (hserve : ∀ s t q, A q → related s t →
      (serve s q).2 = (serve' t q).2 ∧ related (serve s q).1 (serve' t q).1)
    (p : Program R α) (hp : p.Asks A) {s : σ} {t : τ} (h : related s t)
    (hmakes : p.Makes serve' P t) : p.Makes serve P s := by
  induction p generalizing s t with
  | done a => trivial
  | call q next ih =>
    obtain ⟨hq, hnext⟩ := hp
    obtain ⟨hanswer, hrelated⟩ := hserve s t q hq h
    refine ⟨hmakes.1, ih _ (hnext _) hrelated ?_⟩
    rw [hanswer]
    exact hmakes.2

theorem makes_of_afterReads {write : Q → Bool} (hread : ∀ s q, write q = false → (serve s q).1 = s)
    (hfree : ∀ q, write q = false → P q) (p : Program R α) {s : σ}
    (hp : (p.afterReads serve write s).Makes serve P s) : p.Makes serve P s := by
  induction p with
  | done a => trivial
  | call q next ih =>
    rw [afterReads] at hp
    split at hp
    · exact hp
    · next hq =>
      have hq' : write q = false := by simpa using hq
      refine ⟨hfree q hq', ?_⟩
      rw [hread s q hq']
      exact ih _ hp

end Makes

/-! ## Pools -/

/-- Programs that take turns; `trace` has the requests served so far and whose they
were, the last one first. -/
structure Pool (σ : Type u) {Q : Type} (R : Q → Type) (α : Type) where
  state : σ
  threads : List (Program R α)
  trace : List (Nat × Q) := []

namespace Pool

/-- The `i`-th program has its next request served. -/
def step (serve : σ → (q : Q) → σ × R q) (p : Pool σ R α) (i : Nat) : Option (Pool σ R α) :=
  match p.threads[i]? with
  | some (call q next) =>
      some ⟨(serve p.state q).1, p.threads.set i (next (serve p.state q).2), (i, q) :: p.trace⟩
  | _ => none

/-- All programs have ended. -/
def Done (p : Pool σ R α) : Prop := ∀ t ∈ p.threads, ∃ a, t = done a

/-- Since program `i` last read the item, by a request `read`, nobody has written it. -/
def Fresh (read write : Q → Bool) (i : Nat) : List (Nat × Q) → Prop
  | [] => False
  | (j, q) :: trace =>
      write q = false ∧ (j = i ∧ read q = true ∨ Fresh read write i trace)

instance Fresh.decidable (read write : Q → Bool) (i : Nat) :
    ∀ trace : List (Nat × Q), Decidable (Fresh read write i trace)
  | [] => isFalse id
  | (_, _) :: trace =>
      have := Fresh.decidable read write i trace
      inferInstanceAs (Decidable (_ ∧ (_ ∨ _)))

theorem step_eq_some {serve : σ → (q : Q) → σ × R q} {p p' : Pool σ R α} {i : Nat}
    (h : p.step serve i = some p') :
    ∃ q next, p.threads[i]? = some (call q next) ∧
      p' = ⟨(serve p.state q).1, p.threads.set i (next (serve p.state q).2),
        (i, q) :: p.trace⟩ := by
  unfold step at h
  split at h
  · next q next hget => cases h; exact ⟨q, next, hget, rfl⟩
  · cases h

theorem fresh_cons_of_ne {read write : Q → Bool} {i j : Nat} {q : Q} {trace : List (Nat × Q)}
    (hij : i ≠ j) (hq : write q = false) :
    Fresh read write j ((i, q) :: trace) ↔ Fresh read write j trace := by
  rw [Fresh, hq]
  exact ⟨fun ⟨_, h⟩ => h.resolve_left fun h => hij h.1, fun h => ⟨rfl, .inr h⟩⟩

theorem not_fresh_cons {read write : Q → Bool} {i j : Nat} {q : Q} {trace : List (Nat × Q)}
    (hij : i ≠ j) (h : ¬ Fresh read write j trace) : ¬ Fresh read write j ((i, q) :: trace) :=
  fun ⟨_, hf⟩ => hf.elim (fun hf => hij hf.1) h

theorem not_fresh_of_write {read write : Q → Bool} {i j : Nat} {q : Q} {trace : List (Nat × Q)}
    (hq : write q = true) : ¬ Fresh read write j ((i, q) :: trace) :=
  fun ⟨hf, _⟩ => by rw [hq] at hf; cases hf

/-! Two programs that both are about to write the item, or one that is about to write it
after somebody else has: there is no way to end from here on which every write is fresh. -/

/-- The next request of program `i` is one of `write`. -/
def AboutTo (write : Q → Bool) (p : Pool σ R α) (i : Nat) : Prop :=
  ∃ q next, p.threads[i]? = some (call q next) ∧ write q = true

def Conflict (read write : Q → Bool) (p : Pool σ R α) : Prop :=
  ∃ i, AboutTo write p i ∧ (¬ Fresh read write i p.trace ∨ ∃ j, j ≠ i ∧ AboutTo write p j)

section Conflicts

variable {serve : σ → (q : Q) → σ × R q} {read write : Q → Bool} {p p' : Pool σ R α} {i j : Nat}

theorem threads_of_ne (h : p.step serve i = some p') (hij : i ≠ j) :
    p'.threads[j]? = p.threads[j]? := by
  obtain ⟨q, next, -, rfl⟩ := step_eq_some h
  exact List.getElem?_set_ne hij

theorem step_self {q : Q} {next : R q → Program R α} (h : p.step serve i = some p')
    (hget : p.threads[i]? = some (call q next)) :
    p'.state = (serve p.state q).1 ∧ p'.threads[i]? = some (next (serve p.state q).2) ∧
      p'.trace = (i, q) :: p.trace := by
  obtain ⟨q', next', hget', rfl⟩ := step_eq_some h
  cases hget.symm.trans hget'
  exact ⟨rfl, List.getElem?_set_self (List.getElem?_eq_some_iff.mp hget).1, rfl⟩

theorem AboutTo.of_ne (hj : AboutTo write p j) (h : p.step serve i = some p') (hij : i ≠ j) :
    AboutTo write p' j := by
  obtain ⟨q, next, hget, hq⟩ := hj
  exact ⟨q, next, (threads_of_ne h hij).trans hget, hq⟩

theorem not_fresh_step (hf : ¬ Fresh read write j p.trace) (h : p.step serve i = some p')
    (hij : i ≠ j) : ¬ Fresh read write j p'.trace := by
  obtain ⟨q, next, -, rfl⟩ := step_eq_some h
  exact not_fresh_cons hij hf

/-- Once somebody writes the item, whoever else is about to write it has a conflict. -/
theorem conflict_of_write (hi : AboutTo write p i) (h : p.step serve i = some p')
    (hj : AboutTo write p j) (hij : i ≠ j) : Conflict read write p' := by
  refine ⟨j, hj.of_ne h hij, .inl ?_⟩
  obtain ⟨q, next, hget, rfl⟩ := step_eq_some h
  obtain ⟨q', next', hget', hq⟩ := hi
  cases hget.symm.trans hget'
  exact not_fresh_of_write hq

theorem Conflict.step (hc : Conflict read write p) (h : p.step serve i = some p')
    (hsafe : AboutTo write p i → Fresh read write i p.trace) : Conflict read write p' := by
  rcases hc with ⟨j, hj, hstale | ⟨k, hkj, hk⟩⟩
  · by_cases hij : i = j
    · subst hij
      exact absurd (hsafe hj) hstale
    · exact ⟨j, hj.of_ne h hij, .inl (not_fresh_step hstale h hij)⟩
  · by_cases hij : i = j
    · subst hij
      exact conflict_of_write hj h hk hkj.symm
    · by_cases hik : i = k
      · subst hik
        exact conflict_of_write hk h hj hij
      · exact ⟨j, hj.of_ne h hij, .inr ⟨k, hkj, hk.of_ne h hik⟩⟩

theorem Done.not_conflict (hd : p.Done) : ¬ Conflict read write p := by
  rintro ⟨i, ⟨q, next, hget, -⟩, -⟩
  obtain ⟨a, ha⟩ := hd _ (List.mem_of_getElem? hget)
  cases ha

end Conflicts

end Pool

end Program

end Cassem.Lib
