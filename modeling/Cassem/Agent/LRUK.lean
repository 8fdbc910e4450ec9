import Mathlib.Tactic.Linarith
import Mathlib.Tactic.NormNum.GCD
import Cassem.Agent.Cache
import Cassem.Lib.LinkedList
import Cassem.Lib.LRUK

/-!
# LRU-K over linked lists

`lru.LRU` as it is stored: two linked lists, a map into each of them, and the room left in each.
It does what the two lists alone say (`Agent.LRU`), and these do what the reference says.
-/

namespace Cassem.Agent

open Lib Lib.LRUK

/-! ## The lists and their maps -/

namespace Linked

structure LRU (α β : Type) where
  K : Nat
  hSize : Nat
  history : LinkedList (HistoryEntry α β)
  historyItems : α → Option Nat
  size : Nat
  cache : LinkedList (α × β)
  cacheItems : α → Option Nat

def NewLRUK (α β : Type) (k size hSize : Nat) : Option (LRU α β) :=
  if k < 2 then none
  else
    some
      { K := k, hSize := if hSize < size then uint64 (size * (size % 3 + 1)) else hSize
        history := .empty, historyItems := fun _ => none
        size := size, cache := .empty, cacheItems := fun _ => none }

namespace LRU

variable {α β : Type} [DecidableEq α]

/-- Nothing comes out where a nil element would be dereferenced, here and below. -/
def removeHistoryElement (c : LRU α β) (item : Option Nat) : Option (LRU α β) := do
  let item ← item
  let ent ← c.history.value item
  return { c with
    hSize := c.hSize + 1, history := c.history.remove item
    historyItems := Function.update c.historyItems ent.Key none }

def addHistoryElement (c : LRU α β) (hEnt : HistoryEntry α β) : Option (LRU α β) :=
  (if c.hSize = 0 then c.removeHistoryElement c.history.back else some c).map fun c =>
    { c with
      hSize := c.hSize - 1, history := c.history.pushFront hEnt
      historyItems := Function.update c.historyItems hEnt.Key (some c.history.made) }

/-- The entry that comes out is the one `onEvict` is called with. -/
def removeElement (c : LRU α β) (item : Option Nat) : Option ((α × β) × LRU α β) := do
  let item ← item
  let ent ← c.cache.value item
  return (ent, { c with
    size := c.size + 1, cache := c.cache.remove item
    cacheItems := Function.update c.cacheItems ent.1 none })

def addElement (c : LRU α β) (ent : α × β) : Option (Option (α × β) × LRU α β) :=
  (if c.size = 0 then (c.removeElement c.cache.back).map fun r => (some r.1, r.2)
    else some (none, c)).map fun r =>
      (r.1, { r.2 with
        size := r.2.size - 1, cache := r.2.cache.pushFront ent
        cacheItems := Function.update r.2.cacheItems ent.1 (some r.2.cache.made) })

def Put (c : LRU α β) (key : α) (value : β) : Option (Bool × Option (α × β) × LRU α β) :=
  match c.cacheItems key with
  | some item => do
      let ent ← c.cache.value item
      return (true, none, { c with cache := c.cache.moveToFront item (ent.1, value) })
  | none =>
      match c.historyItems key with
      | some item => do
          let hEnt ← c.history.value item
          let hEnt := { hEnt with Visited := hEnt.Visited + 1 }
          if c.K ≤ hEnt.Visited then
            let c ← c.removeHistoryElement (some item)
            let (evicted, c) ← c.addElement (key, value)
            return (true, evicted, c)
          return (false, none, { c with history := c.history.moveToFront item hEnt })
      | none => do
          let c ← c.addHistoryElement ⟨key, value, 1⟩
          return (false, none, c)

def Get (c : LRU α β) (key : α) : Option (Option β × LRU α β) :=
  match c.cacheItems key with
  | some item => do
      let ent ← c.cache.value item
      return (some ent.2, { c with cache := c.cache.moveToFront item ent })
  | none => some (none, c)

def Remove (c : LRU α β) (key : α) : Option (Option (α × β) × LRU α β) :=
  match c.cacheItems key with
  | some item => (c.removeElement (some item)).map fun r => (some r.1, r.2)
  | none => some (none, c)

def Len (c : LRU α β) : Nat := c.cache.elements.length

def step (c : LRU α β) : Op α β → Option (Outcome α β × LRU α β)
  | .put key value =>
      (c.Put key value).map fun r => (.put r.1 r.2.1.isSome r.2.1.toList, r.2.2)
  | .get key => (c.Get key).map fun r => (.get r.1, r.2)
  | .remove key => (c.Remove key).map fun r => (.remove r.1.isSome r.1.toList, r.2)

def run (c : LRU α β) : List (Op α β) → Option (List (Outcome α β) × LRU α β)
  | [] => some ([], c)
  | op :: ops => do
      let (outcome, c) ← c.step op
      let (outcomes, c) ← c.run ops
      return (outcome :: outcomes, c)

/-- The two lists alone. -/
def contents (c : LRU α β) : Agent.LRU α β where
  K := c.K
  hSize := c.hSize
  history := c.history.values
  size := c.size
  cache := c.cache.values

structure Indexed (c : LRU α β) : Prop where
  history : c.history.Index HistoryEntry.Key c.historyItems
  cache : c.cache.Index Prod.fst c.cacheItems

end LRU

end Linked

def LRU.Remove {α β : Type} [DecidableEq α] (c : LRU α β) (key : α) :
    Option (α × β) × LRU α β :=
  match c.cache.find? fun ent => ent.1 = key with
  | none => (none, c)
  | some ent => (some ent, c.removeElement key)

/-! ## The lists alone do the same -/

namespace Linked.LRU

variable {α β : Type} [DecidableEq α] {c : LRU α β} {key : α} {value : β}

theorem find?_of_nodup {γ : Type} {f : γ → α} {l : List γ} (hnodup : (l.map f).Nodup) {v : γ}
    (hv : v ∈ l) : (l.find? fun w => f w = f v) = some v := by
  obtain ⟨w, hw⟩ : ∃ w, (l.find? fun w => f w = f v) = some w :=
    Option.isSome_iff_exists.mp (List.find?_isSome.mpr ⟨v, hv, decide_eq_true rfl⟩)
  have heq : f w = f v := by simpa using List.find?_some hw
  rw [hw, List.inj_on_of_nodup_map hnodup (List.mem_of_find?_eq_some hw) hv heq]

/-- What a map says of a key, its list says. -/
theorem find?_of_index {γ : Type} {f : γ → α} {l : LinkedList γ} {items : α → Option Nat}
    (h : l.Index f items) (key : α) :
    (items key = none ∧ (l.values.find? fun v => f v = key) = none) ∨
    ∃ item v, items key = some item ∧ l.value item = some v ∧ f v = key ∧
      (l.values.find? fun v => f v = key) = some v := by
  cases hitems : items key with
  | none =>
    refine .inl ⟨rfl, List.find?_eq_none.mpr fun v hv => ?_⟩
    simpa using h.eq_none_iff.mp hitems v hv
  | some item =>
    obtain ⟨v, hvalue, rfl, hmem⟩ := h.value hitems
    exact .inr ⟨item, v, rfl, hvalue, rfl, find?_of_nodup h.nodup_keys hmem⟩

theorem has_iff (h : c.Indexed) (key : α) :
    c.contents.has key = (c.cacheItems key).isSome := by
  have hany : c.contents.has key = (c.cache.values.find? fun v => v.1 = key).isSome := by
    rw [Bool.eq_iff_iff, List.find?_isSome]
    exact List.any_eq_true
  rcases find?_of_index h.cache key with ⟨hitems, hfind⟩ | ⟨item, v, hitems, -, -, hfind⟩
  · rw [hany, hitems, hfind]; rfl
  · rw [hany, hitems, hfind]; rfl

theorem removeHistoryElement_spec (h : c.Indexed) {item : Nat}
    (hitem : c.historyItems key = some item) :
    ∃ c', c.removeHistoryElement (some item) = some c' ∧ c'.Indexed ∧
      c'.contents = c.contents.removeHistoryElement key ∧ c'.cacheItems = c.cacheItems ∧
      c'.historyItems = Function.update c.historyItems key none := by
  obtain ⟨hEnt, hvalue, rfl, -⟩ := h.history.value hitem
  obtain ⟨hindex, hvalues⟩ := h.history.remove hitem
  have heq : c.removeHistoryElement (some item) = some { c with
      hSize := c.hSize + 1, history := c.history.remove item
      historyItems := Function.update c.historyItems hEnt.Key none } := by
    simp [removeHistoryElement, hvalue]
  refine ⟨_, heq, ⟨hindex, h.cache⟩, ?_, rfl, rfl⟩
  simp [contents, Agent.LRU.removeHistoryElement, hvalues]

theorem addHistoryElement_spec (h : c.Indexed) (hEnt : HistoryEntry α β)
    (hnew : c.historyItems hEnt.Key = none) {d : Agent.LRU α β}
    (hd : c.contents.addHistoryElement hEnt = some d) :
    ∃ c', c.addHistoryElement hEnt = some c' ∧ c'.Indexed ∧ c'.contents = d := by
  unfold Agent.LRU.addHistoryElement at hd
  dsimp only at hd
  -- where there is room, what is pushed on
  have hpush : ∀ c₁ : LRU α β, c₁.Indexed → c₁.historyItems hEnt.Key = none →
      ((if c.hSize = 0 then c.removeHistoryElement c.history.back else some c) = some c₁) →
      ∃ c', c.addHistoryElement hEnt = some c' ∧ c'.Indexed ∧ c'.contents =
        { c₁.contents with
          hSize := c₁.contents.hSize - 1, history := hEnt :: c₁.contents.history } := by
    intro c₁ hindexed hnew₁ hroom
    obtain ⟨hindex, -⟩ := hindexed.history.pushFront hnew₁
    have heq : c.addHistoryElement hEnt = some { c₁ with
        hSize := c₁.hSize - 1, history := c₁.history.pushFront hEnt
        historyItems := Function.update c₁.historyItems hEnt.Key (some c₁.history.made) } := by
      unfold addHistoryElement
      rw [hroom]
      rfl
    exact ⟨_, heq, ⟨hindex, hindexed.cache⟩, rfl⟩
  by_cases hsize : c.hSize = 0
  · rw [if_pos hsize] at hpush
    rw [if_pos (show c.contents.hSize = 0 from hsize)] at hd
    rcases h.history.back with ⟨-, hlast⟩ | ⟨item, last, hback, hlast, -, hitem⟩
    · rw [show c.contents.history.getLast? = none from hlast] at hd
      cases hd
    · rw [show c.contents.history.getLast? = some last from hlast] at hd
      obtain ⟨c₁, hc₁, hindexed, hcontents, -, hitems⟩ := removeHistoryElement_spec h hitem
      have hnew₁ : c₁.historyItems hEnt.Key = none := by
        rw [hitems]
        by_cases heq : hEnt.Key = last.Key
        · rw [heq, Function.update_self]
        · rw [Function.update_of_ne heq, hnew]
      obtain ⟨c', hc', hindexed', hcontents'⟩ := hpush c₁ hindexed hnew₁ (hback ▸ hc₁)
      cases hd
      exact ⟨c', hc', hindexed', by rw [hcontents', hcontents]⟩
  · rw [if_neg hsize] at hpush
    rw [if_neg (show ¬ c.contents.hSize = 0 from hsize)] at hd
    cases hd
    exact hpush c h hnew rfl

theorem removeElement_spec (h : c.Indexed) {item : Nat} {ent : α × β}
    (hitem : c.cacheItems ent.1 = some item) (hvalue : c.cache.value item = some ent) :
    ∃ c', c.removeElement (some item) = some (ent, c') ∧ c'.Indexed ∧
      c'.contents = c.contents.removeElement ent.1 ∧
      c'.cacheItems = Function.update c.cacheItems ent.1 none := by
  obtain ⟨hindex, hvalues⟩ := h.cache.remove hitem
  have heq : c.removeElement (some item) = some (ent, { c with
      size := c.size + 1, cache := c.cache.remove item
      cacheItems := Function.update c.cacheItems ent.1 none }) := by
    simp [removeElement, hvalue]
  refine ⟨_, heq, ⟨h.history, hindex⟩, ?_, rfl⟩
  simp [contents, Agent.LRU.removeElement, hvalues]

theorem addElement_spec (h : c.Indexed) (ent : α × β) (hnew : c.cacheItems ent.1 = none)
    {evicted : Option (α × β)} {d : Agent.LRU α β}
    (hd : c.contents.addElement ent = some (evicted, d)) :
    ∃ c', c.addElement ent = some (evicted, c') ∧ c'.Indexed ∧ c'.contents = d := by
  unfold Agent.LRU.addElement at hd
  dsimp only at hd
  have hpush : ∀ (c₁ : LRU α β) (evicted : Option (α × β)), c₁.Indexed →
      c₁.cacheItems ent.1 = none →
      ((if c.size = 0 then (c.removeElement c.cache.back).map fun r => (some r.1, r.2)
        else some (none, c)) = some (evicted, c₁)) →
      ∃ c', c.addElement ent = some (evicted, c') ∧ c'.Indexed ∧ c'.contents =
        { c₁.contents with size := c₁.contents.size - 1, cache := ent :: c₁.contents.cache } := by
    intro c₁ evicted hindexed hnew₁ hroom
    obtain ⟨hindex, -⟩ := hindexed.cache.pushFront hnew₁
    have heq : c.addElement ent = some (evicted, { c₁ with
        size := c₁.size - 1, cache := c₁.cache.pushFront ent
        cacheItems := Function.update c₁.cacheItems ent.1 (some c₁.cache.made) }) := by
      unfold addElement
      rw [hroom]
      rfl
    exact ⟨_, heq, ⟨hindexed.history, hindex⟩, rfl⟩
  by_cases hsize : c.size = 0
  · simp only [if_pos hsize] at hpush
    rw [if_pos (show c.contents.size = 0 from hsize)] at hd
    rcases h.cache.back with ⟨-, hlast⟩ | ⟨item, last, hback, hlast, hvalue, hitem⟩
    · rw [show c.contents.cache.getLast? = none from hlast] at hd
      cases hd
    · rw [show c.contents.cache.getLast? = some last from hlast] at hd
      obtain ⟨c₁, hc₁, hindexed, hcontents, hitems⟩ := removeElement_spec h hitem hvalue
      have hnew₁ : c₁.cacheItems ent.1 = none := by
        rw [hitems]
        by_cases heq : ent.1 = last.1
        · rw [heq, Function.update_self]
        · rw [Function.update_of_ne heq, hnew]
      obtain ⟨c', hc', hindexed', hcontents'⟩ :=
        hpush c₁ (some last) hindexed hnew₁ (by rw [hback, hc₁]; rfl)
      cases hd
      exact ⟨c', hc', hindexed', by rw [hcontents', hcontents]⟩
  · simp only [if_neg hsize] at hpush
    rw [if_neg (show ¬ c.contents.size = 0 from hsize)] at hd
    cases hd
    exact hpush c none h hnew rfl

/-- An entry of the cache that is touched goes to the front. -/
theorem moveToFront_spec (h : c.Indexed) {item : Nat} (ent : α × β)
    (hitem : c.cacheItems ent.1 = some item) :
    let c' := { c with cache := c.cache.moveToFront item ent }
    c'.Indexed ∧ c'.contents =
      { c.contents with cache := ent :: c.contents.cache.filter fun e => e.1 ≠ ent.1 } := by
  obtain ⟨hindex, hvalues⟩ := h.cache.moveToFront hitem
  refine ⟨⟨h.history, hindex⟩, ?_⟩
  simp [contents, hvalues]

theorem Put_spec (h : c.Indexed) {isSet : Bool} {evicted : Option (α × β)} {d : Agent.LRU α β}
    (hd : c.contents.Put key value = some (isSet, evicted, d)) :
    ∃ c', c.Put key value = some (isSet, evicted, c') ∧ c'.Indexed ∧ c'.contents = d := by
  unfold Agent.LRU.Put at hd
  rw [has_iff h] at hd
  unfold Put
  rcases find?_of_index h.cache key with ⟨hitems, -⟩ | ⟨item, ent, hitems, hvalue, rfl, -⟩
  · rw [hitems] at hd ⊢
    simp only [Option.isSome_none, Bool.false_eq_true, ↓reduceIte] at hd
    obtain ⟨hhist, hfind⟩ | ⟨item, hEnt, hhist, hvalue, rfl, hfind⟩ := find?_of_index h.history key
    · rw [show (c.contents.history.find? fun e => e.Key = key) = none from hfind] at hd
      rw [hhist]
      obtain ⟨d', hd', heq⟩ := Option.map_eq_some_iff.mp hd
      obtain ⟨c', hc', hindexed, hcontents⟩ :=
        addHistoryElement_spec h ⟨key, value, 1⟩ hhist hd'
      cases heq
      exact ⟨c', by simp [hc'], hindexed, hcontents⟩
    · rw [show (c.contents.history.find? fun e => e.Key = hEnt.Key) = some hEnt from hfind] at hd
      rw [hhist]
      simp only [hvalue, Option.bind_eq_bind, Option.bind_some]
      dsimp only at hd
      by_cases hK : c.K ≤ hEnt.Visited + 1
      · rw [if_pos hK]
        rw [if_pos (show c.contents.K ≤ hEnt.Visited + 1 from hK)] at hd
        obtain ⟨c₁, hc₁, hindexed, hcontents, hcache, -⟩ := removeHistoryElement_spec h hhist
        rw [← hcontents] at hd
        obtain ⟨⟨evicted', d'⟩, hd', heq⟩ := Option.map_eq_some_iff.mp hd
        obtain ⟨c₂, hc₂, hindexed₂, hcontents₂⟩ :=
          addElement_spec hindexed (hEnt.Key, value) (by rw [hcache, hitems]) hd'
        cases heq
        exact ⟨c₂, by simp [hc₁, hc₂], hindexed₂, hcontents₂⟩
      · rw [if_neg hK]
        rw [if_neg (show ¬ c.contents.K ≤ hEnt.Visited + 1 from hK)] at hd
        cases hd
        obtain ⟨hindex, hvalues⟩ := h.history.moveToFront
          (v := { hEnt with Visited := hEnt.Visited + 1 }) hhist
        refine ⟨_, rfl, ⟨hindex, h.cache⟩, ?_⟩
        simp [contents, hvalues]
  · rw [hitems] at hd ⊢
    simp only [Option.isSome_some, ↓reduceIte] at hd
    cases hd
    obtain ⟨hindexed, hcontents⟩ := moveToFront_spec h (ent.1, value) hitems
    exact ⟨_, by simp [hvalue], hindexed, hcontents⟩

theorem Get_spec (h : c.Indexed) (key : α) :
    ∃ c', c.Get key = some ((c.contents.Get key).1, c') ∧ c'.Indexed ∧
      c'.contents = (c.contents.Get key).2 := by
  unfold Agent.LRU.Get Get
  rcases find?_of_index h.cache key with ⟨hitems, hfind⟩ | ⟨item, ent, hitems, hvalue, rfl, hfind⟩
  · rw [hitems, show (c.contents.cache.find? fun e => e.1 = key) = none from hfind]
    exact ⟨c, rfl, h, rfl⟩
  · rw [hitems, show (c.contents.cache.find? fun e => e.1 = ent.1) = some ent from hfind]
    obtain ⟨hindexed, hcontents⟩ := moveToFront_spec h ent hitems
    exact ⟨_, by simp [hvalue], hindexed, hcontents⟩

theorem Remove_spec (h : c.Indexed) (key : α) :
    ∃ c', c.Remove key = some ((c.contents.Remove key).1, c') ∧ c'.Indexed ∧
      c'.contents = (c.contents.Remove key).2 := by
  unfold Agent.LRU.Remove Remove
  rcases find?_of_index h.cache key with ⟨hitems, hfind⟩ | ⟨item, ent, hitems, hvalue, rfl, hfind⟩
  · rw [hitems, show (c.contents.cache.find? fun e => e.1 = key) = none from hfind]
    exact ⟨c, rfl, h, rfl⟩
  · rw [hitems, show (c.contents.cache.find? fun e => e.1 = ent.1) = some ent from hfind]
    obtain ⟨c', hc', hindexed, hcontents, -⟩ := removeElement_spec h hitems hvalue
    exact ⟨c', by simp [hc'], hindexed, hcontents⟩

end Linked.LRU

/-! ## The lists are those of the reference -/

namespace LRU

variable {α β : Type} [DecidableEq α]

def visits (hEnt : HistoryEntry α β) : α × Nat := (hEnt.Key, hEnt.Visited)

/-- The lists have the entries of the reference, and the room left in each is counted. -/
structure Follows (K size bound : Nat) (c : LRU α β) (r : Reference α β) : Prop where
  K : c.K = K
  cache : Timed.Represents id c.cache r.cache r.now
  history : Timed.Represents visits c.history r.history r.now
  size : c.size + c.cache.length = size
  hSize : c.hSize + c.history.length = bound
  apart : ∀ key, r.cache key = none ∨ r.history key = none

section Steps

variable {K size bound : Nat} {c : LRU α β} {r : Reference α β} {key : α}

theorem Follows.has_eq (h : c.Follows K size bound r) (key : α) :
    c.has key = (r.cache key).isSome := by
  have hany : c.has key = (c.cache.find? fun v => v.1 = key).isSome := by
    rw [Bool.eq_iff_iff, List.find?_isSome]
    exact List.any_eq_true
  rcases h.cache.find? key with ⟨hnone, hfind⟩ | ⟨v, t, hfind, -, -, hsome⟩
  · rw [hany, hnone, show (c.cache.find? fun v => v.1 = key) = none from hfind]; rfl
  · rw [hany, hsome, show (c.cache.find? fun v => v.1 = key) = some v from hfind]; rfl

/-- A cached key is used, and perhaps given a value. -/
theorem Follows.touch (h : c.Follows K size bound r) {e : β × Nat} (hkey : r.cache key = some e)
    (value : β) :
    Follows K size bound
      { c with cache := (key, value) :: c.cache.filter fun ent => ent.1 ≠ key }
      { r with now := r.now + 1, cache := Function.update r.cache key (some (value, r.now)) } where
  K := h.K
  cache := h.cache.use rfl
  history := h.history.later (Nat.le_succ _)
  size := by
    have hlength : (c.cache.filter fun ent => ent.1 ≠ key).length + 1 = c.cache.length :=
      h.cache.length_erase hkey
    have hsize := h.size
    simp only [List.length_cons]
    omega
  hSize := h.hSize
  apart key' := by
    by_cases heq : key' = key
    · exact .inr (heq ▸ (h.apart key).resolve_left (by rw [hkey]; exact Option.some_ne_none _))
    · dsimp only
      rw [Function.update_of_ne heq]
      exact h.apart key'

/-- The `K`-th put of a key. -/
theorem Follows.admit (hsize : 0 < size) (h : c.Follows K size bound r) (value : β)
    {n t : Nat} (hkey : r.history key = some (n, t)) :
    ∃ c', (c.removeHistoryElement key).addElement (key, value) =
        some ((makeRoom size r.cache).1, c') ∧
      c'.Follows K size bound
        { now := r.now + 1, history := Function.update r.history key none
          cache := Function.update (makeRoom size r.cache).2 key (some (value, r.now)) } := by
  have hnone : r.cache key = none :=
    (h.apart key).resolve_right (by rw [hkey]; exact Option.some_ne_none _)
  have hcounted : (c.history.filter fun hEnt => hEnt.Key ≠ key).length + 1 = c.history.length :=
    h.history.length_erase hkey
  have hroom := h.size
  have hhistory := h.hSize
  have hgone := (h.history.erase key).later (Nat.le_succ r.now)
  obtain ⟨hlt, hmake⟩ | ⟨v, hv, heq, hlast, hmake⟩ :=
    makeRoom_represented h.cache (by omega) hsize
  · have hne : (c.removeHistoryElement key).size ≠ 0 := by
      show c.size ≠ 0
      omega
    have hcache := h.cache.use (show ((key, value) : α × β) = (key, value) from rfl)
    rw [h.cache.filter_of_none hnone] at hcache
    refine ⟨_, by unfold addElement; rw [if_neg hne, hmake], ?_⟩
    rw [hmake]
    refine ⟨h.K, hcache, hgone, ?_, ?_, fun key' => ?_⟩
    · show c.size - 1 + (c.cache.length + 1) = size
      omega
    · show c.hSize + 1 + (c.history.filter fun hEnt => hEnt.Key ≠ key).length = bound
      omega
    · by_cases heq : key' = key
      · exact .inr (heq ▸ Function.update_self ..)
      · dsimp only
        rw [Function.update_of_ne heq, Function.update_of_ne heq]
        exact h.apart key'
  · have hzero : (c.removeHistoryElement key).size = 0 := by
      show c.size = 0
      omega
    obtain ⟨t', ht'⟩ := h.cache.of_mem hv
    have herase := h.cache.erase v.1
    have hlength : (c.cache.filter fun ent => ent.1 ≠ v.1).length + 1 = c.cache.length :=
      h.cache.length_erase ht'
    have hnone' : Function.update r.cache v.1 none key = none := by
      by_cases heq : key = v.1
      · rw [heq, Function.update_self]
      · rw [Function.update_of_ne heq, hnone]
    have hcache := herase.use (show ((key, value) : α × β) = (key, value) from rfl)
    rw [herase.filter_of_none hnone'] at hcache
    have hlast' : (c.removeHistoryElement key).cache.getLast? = some v := hlast
    refine ⟨_, by unfold addElement; rw [if_pos hzero, hlast', hmake]; rfl, ?_⟩
    rw [hmake]
    refine ⟨h.K, hcache, hgone, ?_, ?_, fun key' => ?_⟩
    · show c.size + 1 - 1 + ((c.cache.filter fun ent => ent.1 ≠ v.1).length + 1) = size
      omega
    · show c.hSize + 1 + (c.history.filter fun hEnt => hEnt.Key ≠ key).length = bound
      omega
    · by_cases heq : key' = key
      · exact .inr (heq ▸ Function.update_self ..)
      · dsimp only [id_eq]
        rw [Function.update_of_ne heq, Function.update_of_ne heq]
        by_cases hvictim : key' = v.1
        · exact .inl (by rw [hvictim]; exact Function.update_self ..)
        · rw [Function.update_of_ne hvictim]
          exact h.apart key'

/-- A put of a key that is not in the history yet. -/
theorem Follows.see (hbound : 0 < bound) (h : c.Follows K size bound r) (value : β)
    (hnone : r.cache key = none) (hkey : r.history key = none) :
    ∃ c', c.addHistoryElement ⟨key, value, 1⟩ = some c' ∧
      c'.Follows K size bound
        { r with
          now := r.now + 1
          history := Function.update (makeRoom bound r.history).2 key (some (1, r.now)) } := by
  have hhistory := h.hSize
  have hsize := h.size
  have hcache := h.cache.later (Nat.le_succ r.now)
  have hentry : visits (⟨key, value, 1⟩ : HistoryEntry α β) = (key, 1) := rfl
  have hapart : ∀ (f : Timed α Nat) key', (∀ key', f key' = none ∨ f key' = r.history key') →
      r.cache key' = none ∨ Function.update f key (some (1, r.now)) key' = none := by
    intro f key' hf
    by_cases heq : key' = key
    · exact .inl (heq ▸ hnone)
    · rw [Function.update_of_ne heq]
      rcases hf key' with hgone | hsame
      · exact .inr hgone
      · rw [hsame]
        exact h.apart key'
  obtain ⟨hlt, hmake⟩ | ⟨v, hv, heq, hlast, hmake⟩ :=
    makeRoom_represented h.history (by omega) hbound
  · have hne : c.hSize ≠ 0 := by omega
    have hused := h.history.use hentry
    rw [h.history.filter_of_none hkey] at hused
    refine ⟨_, by unfold addHistoryElement; rw [if_neg hne], ?_⟩
    rw [hmake]
    refine ⟨h.K, hcache, hused, hsize, ?_, fun key' => hapart _ key' fun _ => .inr rfl⟩
    show c.hSize - 1 + (c.history.length + 1) = bound
    omega
  · have hzero : c.hSize = 0 := by omega
    obtain ⟨t', ht'⟩ := h.history.of_mem hv
    have herase := h.history.erase v.Key
    have hlength : (c.history.filter fun hEnt => hEnt.Key ≠ v.Key).length + 1 = c.history.length :=
      h.history.length_erase ht'
    have hdropped : ∀ key', Function.update r.history v.Key none key' = none ∨
        Function.update r.history v.Key none key' = r.history key' := by
      intro key'
      by_cases heq : key' = v.Key
      · exact .inl (heq ▸ Function.update_self ..)
      · exact .inr (Function.update_of_ne heq ..)
    have hkey' : Function.update r.history v.Key none key = none :=
      (hdropped key).elim id fun hsame => hsame.trans hkey
    have hused := herase.use hentry
    rw [herase.filter_of_none hkey'] at hused
    refine ⟨_, by unfold addHistoryElement; rw [if_pos hzero, hlast], ?_⟩
    rw [hmake]
    refine ⟨h.K, hcache, hused, hsize, ?_, fun key' => hapart _ key' hdropped⟩
    show c.hSize + 1 - 1 + ((c.history.filter fun hEnt => hEnt.Key ≠ v.Key).length + 1) = bound
    omega

theorem Put_follows (hK : 2 ≤ K) (hsize : 0 < size) (hbound : 0 < bound)
    (h : c.Follows K size bound r) (key : α) (value : β) :
    ∃ isSet evicted c', c.Put key value = some (isSet, evicted, c') ∧
      (r.put K size bound key value).1 = .put isSet evicted.isSome evicted.toList ∧
      c'.Follows K size bound (r.put K size bound key value).2 := by
  unfold Put Reference.put
  rw [h.has_eq key]
  cases hcached : r.cache key with
  | some e => exact ⟨true, none, _, rfl, rfl, h.touch hcached value⟩
  | none =>
    simp only [Option.isSome_none, Bool.false_eq_true, ↓reduceIte]
    rcases h.history.find? key with ⟨hnone, hfind⟩ | ⟨hEnt, t, hfind, -, hkey, hsome⟩
    · rw [show (c.history.find? fun e => e.Key = key) = none from hfind, hnone]
      obtain ⟨c', hc', hfollows⟩ := h.see hbound value hcached hnone
      have hfirst : ¬ K ≤ ((none : Option (Nat × Nat)).map (·.1)).getD 0 + 1 := by
        show ¬ K ≤ 1
        omega
      rw [if_neg hfirst, hc']
      exact ⟨false, none, c', rfl, rfl, hfollows⟩
    · have hcount : ((r.history key).map (·.1)).getD 0 + 1 = hEnt.Visited + 1 := by
        rw [hsome]
        rfl
      have hseen : (r.history key).isSome = true := by
        rw [hsome]
        rfl
      rw [show (c.history.find? fun e => e.Key = key) = some hEnt from hfind, hcount, if_pos hseen]
      dsimp only
      rw [h.K]
      by_cases hlast : K ≤ hEnt.Visited + 1
      · rw [if_pos hlast, if_pos hlast]
        obtain ⟨c', hc', hfollows⟩ := h.admit hsize value hsome
        rw [hc']
        exact ⟨true, _, c', rfl, rfl, hfollows⟩
      · rw [if_neg hlast, if_neg hlast]
        refine ⟨false, none, _, rfl, rfl, ?_⟩
        have hentry : (hEnt.Key, hEnt.Visited + 1) = (key, hEnt.Visited + 1) := by
          rw [← hkey]
          rfl
        have hused := h.history.use (v := { hEnt with Visited := hEnt.Visited + 1 }) hentry
        have hlength : (c.history.filter fun e => e.Key ≠ key).length + 1 = c.history.length :=
          h.history.length_erase hsome
        have hhistory := h.hSize
        refine ⟨rfl, h.cache.later (Nat.le_succ _), hused, h.size, ?_, fun key' => ?_⟩
        · simp only [List.length_cons]
          omega
        · by_cases heq : key' = key
          · exact .inl (heq ▸ hcached)
          · dsimp only
            rw [Function.update_of_ne heq]
            exact h.apart key'

omit [DecidableEq α] in
/-- A call that changes nothing. -/
theorem Follows.idle (h : c.Follows K size bound r) :
    c.Follows K size bound { r with now := r.now + 1 } :=
  ⟨h.K, h.cache.later (Nat.le_succ _), h.history.later (Nat.le_succ _), h.size, h.hSize, h.apart⟩

theorem Get_follows (h : c.Follows K size bound r) (key : α) :
    (r.get key).1 = .get (c.Get key).1 ∧ (c.Get key).2.Follows K size bound (r.get key).2 := by
  unfold Get Reference.get
  rcases h.cache.find? key with ⟨hnone, hfind⟩ | ⟨ent, t, hfind, -, hkey, hsome⟩
  · rw [show (c.cache.find? fun e => e.1 = key) = none from hfind, hnone]
    exact ⟨rfl, h.idle⟩
  · rw [show (c.cache.find? fun e => e.1 = key) = some ent from hfind, hsome]
    have htouch := h.touch hsome ent.2
    have hent : ent = (key, ent.2) := Prod.ext hkey rfl
    rw [← hent] at htouch
    exact ⟨rfl, htouch⟩

theorem Remove_follows (h : c.Follows K size bound r) (key : α) :
    (r.remove key).1 = .remove (c.Remove key).1.isSome (c.Remove key).1.toList ∧
      (c.Remove key).2.Follows K size bound (r.remove key).2 := by
  unfold Remove Reference.remove
  rcases h.cache.find? key with ⟨hnone, hfind⟩ | ⟨ent, t, hfind, -, hkey, hsome⟩
  · rw [show (c.cache.find? fun e => e.1 = key) = none from hfind, hnone]
    exact ⟨rfl, h.idle⟩
  · rw [show (c.cache.find? fun e => e.1 = key) = some ent from hfind, hsome]
    have hent : ent = (key, ent.2) := Prod.ext hkey rfl
    have hlength : (c.cache.filter fun ent => ent.1 ≠ key).length + 1 = c.cache.length :=
      h.cache.length_erase hsome
    have hsize := h.size
    refine ⟨congrArg (fun e => Outcome.remove true [e]) hent.symm, h.K,
      (h.cache.erase key).later (Nat.le_succ _), h.history.later (Nat.le_succ _), ?_, h.hSize,
      fun key' => ?_⟩
    · show c.size + 1 + (c.cache.filter fun ent => ent.1 ≠ key).length = size
      omega
    · by_cases heq : key' = key
      · exact .inl (heq ▸ Function.update_self ..)
      · dsimp only
        rw [Function.update_of_ne heq]
        exact h.apart key'

end Steps

end LRU

/-! ## Every run -/

/-- The most entries that the history can have. -/
def historyBound (size hSize : Nat) : Nat :=
  if hSize < size then uint64 (size * (size % 3 + 1)) else hSize

/-- The product that the bound may be wraps around, but not to nothing. -/
theorem historyBound_pos {size : Nat} (hsize : 1 ≤ size) (hrange : size < 2 ^ 64) (hSize : Nat) :
    0 < historyBound size hSize := by
  unfold historyBound uint64
  split
  · have hpos : 0 ≤ (size * (size % 3 + 1) : Int) % 2 ^ 64 := Int.emod_nonneg _ (by norm_num)
    suffices hne : (size * (size % 3 + 1) : Int) % 2 ^ 64 ≠ 0 from
      Int.lt_toNat.mpr (lt_of_le_of_ne hpos hne.symm)
    intro hmod
    obtain ⟨q, hq⟩ := Int.dvd_of_emod_eq_zero hmod
    have hrange' : (size : Int) < 2 ^ 64 := by exact_mod_cast hrange
    have hthird : (size : Int) % 3 = 0 ∨ (size : Int) % 3 = 1 ∨ (size : Int) % 3 = 2 := by
      clear hq hmod hpos hrange hrange'
      omega
    -- of the multiples of `2 ^ 64` up to three times `size` none is the product
    rcases hthird with hm | hm | hm <;> rw [hm] at hq
    · have hlow : 0 < q := by linarith
      have hhigh : q < 1 := by linarith
      linarith
    · have hlow : 0 < q := by linarith
      have hhigh : q < 2 := by linarith
      obtain rfl : q = 1 := by linarith
      have hhalf : (size : Int) = 2 ^ 63 := by linarith
      rw [hhalf] at hm
      norm_num at hm
    · have hdvd : (3 : Int) ∣ 2 ^ 64 * q := ⟨size, by linarith⟩
      obtain ⟨p, rfl⟩ : (3 : Int) ∣ q := Int.dvd_of_dvd_mul_right_of_gcd_one hdvd (by norm_num)
      have hlow : 0 < p := by linarith
      have hhigh : p < 1 := by linarith
      linarith
  · omega

namespace Linked.LRU

variable {α β : Type} [DecidableEq α] {K size bound : Nat} {c : LRU α β} {r : Reference α β}

/-- The structure and the reference stand alike. -/
structure Follows (K size bound : Nat) (c : LRU α β) (r : Reference α β) : Prop where
  indexed : c.Indexed
  contents : c.contents.Follows K size bound r

theorem step_follows (hK : 2 ≤ K) (hsize : 0 < size) (hbound : 0 < bound)
    (h : c.Follows K size bound r) (op : Op α β) :
    ∃ c', c.step op = some ((r.step K size bound op).1, c') ∧
      c'.Follows K size bound (r.step K size bound op).2 := by
  cases op with
  | put key value =>
    obtain ⟨isSet, evicted, d, hput, hout, hfollows⟩ :=
      Agent.LRU.Put_follows hK hsize hbound h.contents key value
    obtain ⟨c', hc', hindexed, hcontents⟩ := Put_spec h.indexed hput
    refine ⟨c', ?_, hindexed, hcontents ▸ hfollows⟩
    simp only [step, Reference.step, hc', Option.map_some, hout]
  | get key =>
    obtain ⟨hout, hfollows⟩ := Agent.LRU.Get_follows h.contents key
    obtain ⟨c', hc', hindexed, hcontents⟩ := Get_spec h.indexed key
    refine ⟨c', ?_, hindexed, hcontents ▸ hfollows⟩
    simp only [step, Reference.step, hc', Option.map_some, hout]
  | remove key =>
    obtain ⟨hout, hfollows⟩ := Agent.LRU.Remove_follows h.contents key
    obtain ⟨c', hc', hindexed, hcontents⟩ := Remove_spec h.indexed key
    refine ⟨c', ?_, hindexed, hcontents ▸ hfollows⟩
    simp only [step, Reference.step, hc', Option.map_some, hout]

theorem run_follows (hK : 2 ≤ K) (hsize : 0 < size) (hbound : 0 < bound)
    (h : c.Follows K size bound r) (ops : List (Op α β)) :
    ∃ c', c.run ops = some ((r.run K size bound ops).1, c') ∧
      c'.Follows K size bound (r.run K size bound ops).2 := by
  induction ops generalizing c r with
  | nil => exact ⟨c, rfl, h⟩
  | cons op ops ih =>
    obtain ⟨c₁, hstep, h₁⟩ := step_follows hK hsize hbound h op
    obtain ⟨c₂, hrun, h₂⟩ := ih h₁
    refine ⟨c₂, ?_, h₂⟩
    simp only [run, hstep, hrun, Reference.run, Option.bind_eq_bind, Option.bind_some]
    rfl

/-- The lists keep to their bounds, no key is in both, and the maps have the keys of the lists. -/
structure Sound (size bound : Nat) (c : LRU α β) : Prop where
  len : c.Len ≤ size
  historyLen : c.history.values.length ≤ bound
  apart : ∀ key, c.cacheItems key = none ∨ c.historyItems key = none
  cacheItems : ∀ key, c.cacheItems key ≠ none ↔ key ∈ c.cache.values.map Prod.fst
  historyItems : ∀ key, c.historyItems key ≠ none ↔ key ∈ c.history.values.map HistoryEntry.Key

theorem Follows.sound (h : c.Follows K size bound r) : c.Sound size bound where
  len := by
    have hsize : c.size + c.cache.values.length = size := h.contents.size
    have hlength : c.cache.values.length = c.Len := List.length_map ..
    omega
  historyLen := by
    have hsize : c.hSize + c.history.values.length = bound := h.contents.hSize
    omega
  apart key := by
    refine (h.contents.apart key).imp (fun hcache => ?_) fun hhistory => ?_
    · have hhas := has_iff h.indexed key
      rw [h.contents.has_eq key, hcache] at hhas
      exact Option.isNone_iff_eq_none.mp (Option.isSome_eq_false_iff.mp hhas.symm)
    · refine h.indexed.history.eq_none_iff.mpr fun hEnt hmem heq => ?_
      obtain ⟨t, ht⟩ := h.contents.history.of_mem hmem
      have hkey : (LRU.visits hEnt).1 = key := heq
      rw [hkey, hhistory] at ht
      cases ht
  cacheItems key := by
    rw [ne_eq, h.indexed.cache.eq_none_iff]
    simp
  historyItems key := by
    rw [ne_eq, h.indexed.history.eq_none_iff]
    simp

omit [DecidableEq α] in
/-- A new cache is empty. -/
theorem NewLRUK_follows {k hSize : Nat} {c₀ : LRU α β} (hnew : NewLRUK α β k size hSize = some c₀) :
    2 ≤ k ∧ c₀.Follows k size (historyBound size hSize) {} := by
  unfold NewLRUK at hnew
  split at hnew
  · cases hnew
  · next hk =>
    cases hnew
    exact ⟨Nat.not_lt.mp hk, ⟨.empty _, .empty _⟩, rfl, .empty _ _, .empty _ _, rfl, rfl,
      fun _ => .inl rfl⟩

/-- LRU-K behaves as its reference in every run of calls, without a nil dereference. -/
theorem run_refines (α β : Type) [DecidableEq α] (k size hSize : Nat) (hk : 2 ≤ k)
    (hsize : 1 ≤ size) (hrange : size < 2 ^ 64) (ops : List (Op α β)) :
    ∃ c₀ c, NewLRUK α β k size hSize = some c₀ ∧
      c₀.run ops = some ((Reference.run k size (historyBound size hSize) {} ops).1, c) ∧
      c.Follows k size (historyBound size hSize)
        (Reference.run k size (historyBound size hSize) {} ops).2 ∧
      c.Sound size (historyBound size hSize) := by
  obtain ⟨c₀, hnew⟩ : ∃ c₀, NewLRUK α β k size hSize = some c₀ := ⟨_, if_neg (by omega)⟩
  obtain ⟨-, hstart⟩ := NewLRUK_follows hnew
  obtain ⟨c, hrun, hfollows⟩ :=
    run_follows hk hsize (historyBound_pos hsize hrange hSize) hstart ops
  exact ⟨_, c, hnew, hrun, hfollows, hfollows.sound⟩

def twoKeys : List (Op String Nat) :=
  [.put "a" 1, .put "a" 2, .put "b" 3, .put "b" 4, .get "a", .get "b"]

/-- In a cache of one the second key that is put twice takes the place of the first. -/
theorem run_refines_twoKeys :
    ∃ c₀ c, NewLRUK String Nat 2 1 4 = some c₀ ∧
      c₀.run twoKeys = some ([.put false false [], .put true false [], .put false false [],
        .put true true [("a", 2)], .get none, .get (some 4)], c) ∧
      c.Sound 1 (historyBound 1 4) := by
  obtain ⟨c₀, c, hnew, hrun, -, hsound⟩ :=
    run_refines String Nat 2 1 4 (by omega) (by omega) (by omega) twoKeys
  have hout : ((NewLRUK String Nat 2 1 4).bind fun c => (c.run twoKeys).map Prod.fst) =
      some [.put false false [], .put true false [], .put false false [],
        .put true true [("a", 2)], .get none, .get (some 4)] := by
    decide +kernel
  rw [hnew, Option.bind_some, hrun, Option.map_some] at hout
  exact ⟨c₀, c, hnew, by rw [hrun, Option.some.inj hout], hsound⟩

end Linked.LRU

end Cassem.Agent
