import Cassem.Lib.Recency

/-!
# LRU-K

The replacement policy as a reference. A key is counted in the history at each put until the
`K`-th, which moves it to the cache; a table that is full makes room by giving up its oldest entry.
-/

namespace Cassem.Lib.LRUK

inductive Op (α β : Type) where
  | put (key : α) (value : β)
  | get (key : α)
  | remove (key : α)

/-- What a call returns, and the entries that the eviction callback is called with. -/
inductive Outcome (α β : Type) where
  | put (set evicted : Bool) (calls : List (α × β))
  | get (value : Option β)
  | remove (removed : Bool) (calls : List (α × β))
  deriving DecidableEq

/-- The history has the number of puts of each key in it, the cache the values. -/
structure Reference (α β : Type) where
  now : Nat := 0
  history : Timed α Nat := fun _ => none
  cache : Timed α β := fun _ => none

variable {α β γ : Type} [DecidableEq α]

open Classical in
/-- A table of at most `n` entries with room for one more, and the entry given up for it. -/
noncomputable def makeRoom (n : Nat) (f : Timed α γ) : Option (α × γ) × Timed α γ :=
  if f.keys.encard < n then (none, f)
  else
    match f.oldest with
    | none => (none, f)
    | some key => ((f key).map fun e => (key, e.1), Function.update f key none)

namespace Reference

noncomputable def put (K size bound : Nat) (r : Reference α β) (key : α) (value : β) :
    Outcome α β × Reference α β :=
  match r.cache key with
  | some _ =>
      (.put true false [],
        { r with now := r.now + 1, cache := Function.update r.cache key (some (value, r.now)) })
  | none =>
      let visits := ((r.history key).map (·.1)).getD 0 + 1
      if K ≤ visits then
        let (evicted, cache) := makeRoom size r.cache
        (.put true evicted.isSome evicted.toList,
          { now := r.now + 1, history := Function.update r.history key none
            cache := Function.update cache key (some (value, r.now)) })
      else
        let history := if (r.history key).isSome then r.history else (makeRoom bound r.history).2
        (.put false false [],
          { r with
            now := r.now + 1, history := Function.update history key (some (visits, r.now)) })

def get (r : Reference α β) (key : α) : Outcome α β × Reference α β :=
  match r.cache key with
  | none => (.get none, { r with now := r.now + 1 })
  | some (value, _) =>
      (.get (some value),
        { r with now := r.now + 1, cache := Function.update r.cache key (some (value, r.now)) })

def remove (r : Reference α β) (key : α) : Outcome α β × Reference α β :=
  match r.cache key with
  | none => (.remove false [], { r with now := r.now + 1 })
  | some (value, _) =>
      (.remove true [(key, value)],
        { r with now := r.now + 1, cache := Function.update r.cache key none })

noncomputable def step (K size bound : Nat) (r : Reference α β) :
    Op α β → Outcome α β × Reference α β
  | .put key value => r.put K size bound key value
  | .get key => r.get key
  | .remove key => r.remove key

noncomputable def run (K size bound : Nat) (r : Reference α β) :
    List (Op α β) → List (Outcome α β) × Reference α β
  | [] => ([], r)
  | op :: ops =>
      let (outcome, r) := r.step K size bound op
      let (outcomes, r) := r.run K size bound ops
      (outcome :: outcomes, r)

end Reference

/-- Room is made by taking the last entry off the list, if there are `n`. -/
theorem makeRoom_represented {δ : Type} {f : δ → α × γ} {l : List δ} {g : Timed α γ} {now n : Nat}
    (h : Timed.Represents f l g now) (hn : l.length ≤ n) (hpos : 0 < n) :
    (l.length < n ∧ makeRoom n g = (none, g)) ∨
    ∃ v ∈ l, l.length = n ∧ l.getLast? = some v ∧
      makeRoom n g = (some (f v), Function.update g (f v).1 none) := by
  unfold makeRoom
  rw [h.encard_keys, h.oldest_eq]
  rcases Nat.lt_or_eq_of_le hn with hlt | heq
  · exact .inl ⟨hlt, if_pos (Nat.cast_lt.mpr hlt)⟩
  · have hne : l ≠ [] := fun hnil => by
      rw [hnil] at heq
      exact absurd heq (Nat.ne_of_lt hpos)
    have hlast := List.getLast?_eq_some_getLast hne
    obtain ⟨t, ht⟩ := h.of_mem (List.getLast_mem hne)
    refine .inr ⟨l.getLast hne, List.getLast_mem hne, heq, hlast, ?_⟩
    rw [if_neg (by rw [heq]; exact lt_irrefl _), hlast, Option.map_some]
    dsimp only
    rw [ht]
    rfl

end Cassem.Lib.LRUK
