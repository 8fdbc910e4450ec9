import Cassem.Concept.Element

/-!
# The cache of the agent

The agent keeps elements in a pool by app, environment and key. What may be in the pool is
decided by an LRU-K over the joined names: a name is admitted at its K-th visit, and the
name used least recently has to leave when there is no room.
-/

namespace Cassem.Agent

open Cassem.Concept

/-! ## LRU-K -/

structure HistoryEntry (α β : Type) where
  Key : α
  Value : β
  Visited : Nat

/-- Both lists have the entry used last at the front, and a count of the room that is left. -/
structure LRU (α β : Type) where
  K : Nat
  hSize : Nat
  history : List (HistoryEntry α β)
  size : Nat
  cache : List (α × β)

/-- A `uint`. -/
def uint64 (n : Int) : Nat := (n % 2 ^ 64).toNat

def NewLRUK (α β : Type) (k size hSize : Nat) : Option (LRU α β) :=
  if k < 2 then none
  else
    some
      { K := k, hSize := if hSize < size then uint64 (size * (size % 3 + 1)) else hSize
        history := [], size := size, cache := [] }

namespace LRU

variable {α β : Type} [DecidableEq α]

def has (c : LRU α β) (key : α) : Bool := c.cache.any fun ent => ent.1 = key

def removeHistoryElement (c : LRU α β) (key : α) : LRU α β :=
  { c with hSize := c.hSize + 1, history := c.history.filter fun ent => ent.Key ≠ key }

/-- Nothing comes out where the last element of an empty list would have to be removed: the
call panics there. -/
def addHistoryElement (c : LRU α β) (hEnt : HistoryEntry α β) : Option (LRU α β) :=
  let pushed (c : LRU α β) : LRU α β :=
    { c with hSize := c.hSize - 1, history := hEnt :: c.history }
  if c.hSize = 0 then
    match c.history.getLast? with
    | none => none
    | some last => some (pushed (c.removeHistoryElement last.Key))
  else some (pushed c)

def removeElement (c : LRU α β) (key : α) : LRU α β :=
  { c with size := c.size + 1, cache := c.cache.filter fun ent => ent.1 ≠ key }

/-- The entry that is evicted, if any, is the one `onEvict` is called with. -/
def addElement (c : LRU α β) (ent : α × β) : Option (Option (α × β) × LRU α β) :=
  let pushed (c : LRU α β) : LRU α β := { c with size := c.size - 1, cache := ent :: c.cache }
  if c.size = 0 then
    match c.cache.getLast? with
    | none => none
    | some last => some (some last, pushed (c.removeElement last.1))
  else some (none, pushed c)

/-- Whether the key is in the cache afterwards, and the entry evicted for it. -/
def Put (c : LRU α β) (key : α) (value : β) : Option (Bool × Option (α × β) × LRU α β) :=
  if c.has key then
    some (true, none, { c with cache := (key, value) :: c.cache.filter fun ent => ent.1 ≠ key })
  else
    match c.history.find? fun ent => ent.Key = key with
    | some hEnt =>
        let hEnt := { hEnt with Visited := hEnt.Visited + 1 }
        if c.K ≤ hEnt.Visited then
          ((c.removeHistoryElement key).addElement (key, value)).map fun r => (true, r)
        else
          some (false, none,
            { c with history := hEnt :: c.history.filter fun ent => ent.Key ≠ key })
    | none =>
        (c.addHistoryElement ⟨key, value, 1⟩).map fun c => (false, none, c)

def Get (c : LRU α β) (key : α) : Option β × LRU α β :=
  match c.cache.find? fun ent => ent.1 = key with
  | none => (none, c)
  | some ent => (some ent.2, { c with cache := ent :: c.cache.filter fun ent => ent.1 ≠ key })

theorem find?_front (l : List (α × β)) (ent : α × β) (key : α)
    (hent : (l.find? fun x => x.1 = ent.1) = some ent) :
    ((ent :: l.filter fun x => x.1 ≠ ent.1).find? fun x => x.1 = key) =
      l.find? fun x => x.1 = key := by
  by_cases h : ent.1 = key
  · rw [List.find?_cons_of_pos (by simpa using h), ← h, hent]
  · rw [List.find?_cons_of_neg (by simpa using h), List.find?_filter]
    refine congrArg (List.find? · l) (funext fun x => ?_)
    by_cases hx : x.1 = key
    · simp [hx, Ne.symm h]
    · simp [hx]

/-- A look at one entry changes what is found of none. -/
theorem get_get (c : LRU α β) (key key' : α) : ((c.Get key).2.Get key').1 = (c.Get key').1 := by
  have hval : ∀ c : LRU α β, (c.Get key').1 = (c.cache.find? fun ent => ent.1 = key').map (·.2) := by
    intro c
    unfold Get
    split <;> next h => rw [h]; rfl
  rw [hval, hval]
  unfold Get
  split
  · rfl
  · next ent hent =>
    have hkey : ent.1 = key := by simpa using List.find?_some hent
    subst hkey
    dsimp only
    rw [find?_front _ _ _ hent]

end LRU

/-! ## The pool -/

/-- An element, and the time in nanoseconds at which it was put there. -/
structure Item where
  val : Element
  dirtyTime : Int

structure AppPool where
  pool : String → String → String → Option Item
  cp : LRU String Unit

namespace AppPool

def genKey (app env key : String) : String := app ++ "@" ++ env ++ "@" ++ key

def parseKey (k : String) : Option (String × String × String) :=
  match k.splitOn "@" with
  | [app, env, key] => some (app, env, key)
  | _ => none

def unset (p : AppPool) (app env key : String) : AppPool :=
  { p with pool := fun a e k => if a = app ∧ e = env ∧ k = key then none else p.pool a e k }

def set (now : Int) (p : AppPool) (app env key : String) (elem : Element) : AppPool :=
  { p with
    pool := fun a e k =>
      if a = app ∧ e = env ∧ k = key then some ⟨elem, now⟩ else p.pool a e k }

def evictCallback (p : AppPool) (k : String) : AppPool :=
  match parseKey k with
  | none => p
  | some (app, env, key) => p.unset app env key

/-- An item is ignored 10 s after it was put there. -/
def query (now : Int) (p : AppPool) (app env key : String) : Option Element :=
  match p.pool app env key with
  | none => none
  | some i => if now - i.dirtyTime > 10 * 10 ^ 9 then none else some i.val

def Query (now : Int) (p : AppPool) (app env key : String) : Option Element × AppPool :=
  match p.cp.Get (genKey app env key) with
  | (none, cp) => (none, { p with cp := cp })
  | (some _, cp) => (p.query now app env key, { p with cp := cp })

def Set (now : Int) (p : AppPool) (app env key : String) (elem : Element) : Option AppPool :=
  match p.cp.Put (genKey app env key) () with
  | none => none
  | some (isSet, evicted, cp) =>
      let p := (evicted.map fun ent => p.evictCallback ent.1).getD p
      let p := { p with cp := cp }
      some (if isSet then p.set now app env key elem else p)

end AppPool

def NewCache (size : Nat) : Option AppPool :=
  (NewLRUK String Unit 2 size (uint64 (size - 1))).map fun cp => ⟨fun _ _ _ => none, cp⟩

structure QueryCacheResult where
  elems : List Element
  miss : List String

/-- Each key is looked up at a time of its own. -/
def queryFromCache (now : String → Int) (cache : AppPool) (app env : String) :
    List String → QueryCacheResult × AppPool
  | [] => (⟨[], []⟩, cache)
  | k :: keys =>
      let (found, cache) := cache.Query (now k) app env k
      let (r, cache) := queryFromCache now cache app env keys
      match found with
      | none => ({ r with miss := k :: r.miss }, cache)
      | some elem => ({ r with elems := elem :: r.elems }, cache)

/-- `elem.GetMetadata().GetKey()`. -/
def metadataKeyOf (elem : Element) : String := (elem.Metadata.map (·.Key)).getD ""

def updateCache (now : Int) (cache : AppPool) (app env : String) (elems : List Element) :
    Option AppPool :=
  elems.foldlM (fun cache elem => cache.Set now app env (metadataKeyOf elem) elem) cache

/-! ## What is found -/

theorem Query_Query (now now' : Int) (p : AppPool) (app env key app' env' key' : String) :
    ((p.Query now app env key).2.Query now' app' env' key').1 =
      (p.Query now' app' env' key').1 := by
  have hfst : ∀ p : AppPool, (p.Query now' app' env' key').1 =
      match (p.cp.Get (AppPool.genKey app' env' key')).1 with
      | none => none
      | some _ => p.query now' app' env' key' := by
    intro p
    unfold AppPool.Query
    split <;> next h => rw [h]
  have hcp : (p.Query now app env key).2.cp = (p.cp.Get (AppPool.genKey app env key)).2 := by
    unfold AppPool.Query
    split <;> next h => rw [h]
  have hpool : (p.Query now app env key).2.pool = p.pool := by
    unfold AppPool.Query
    split <;> rfl
  have hquery : (p.Query now app env key).2.query now' app' env' key' = p.query now' app' env' key' := by
    unfold AppPool.query
    rw [hpool]
  rw [hfst, hfst, hcp, LRU.get_get, hquery]

/-- The copies that are found, and the keys of which there is none. -/
theorem queryFromCache_spec (now : String → Int) (p : AppPool) (app env : String)
    (keys : List String) :
    (queryFromCache now p app env keys).1.elems =
        keys.filterMap (fun k => (p.Query (now k) app env k).1) ∧
      (queryFromCache now p app env keys).1.miss =
        keys.filter fun k => (p.Query (now k) app env k).1.isNone := by
  induction keys generalizing p with
  | nil => exact ⟨rfl, rfl⟩
  | cons k keys ih =>
    obtain ⟨helems, hmiss⟩ := ih (p.Query (now k) app env k).2
    simp only [Query_Query] at helems hmiss
    unfold queryFromCache
    dsimp only
    rw [List.filterMap_cons, List.filter_cons]
    cases hfound : (p.Query (now k) app env k).1 with
    | none => exact ⟨helems, congrArg (k :: ·) hmiss⟩
    | some elem => exact ⟨congrArg (elem :: ·) helems, hmiss⟩

/-! ## What is kept -/

/-- All that is in the pool has the property, each item at its own place. -/
def AppPool.All (P : String → String → String → Element → Prop) (p : AppPool) : Prop :=
  ∀ app env key i, p.pool app env key = some i → P app env key i.val

namespace AppPool.All

variable {P : String → String → String → Element → Prop} {p : AppPool} {app env key : String}
  {elem : Element}

theorem new {size : Nat} (h : NewCache size = some p) : p.All P := by
  obtain ⟨cp, -, rfl⟩ := Option.map_eq_some_iff.mp h
  intro app env key i hi
  cases hi

theorem unset (h : p.All P) : (p.unset app env key).All P := by
  intro a e k i hi
  have hunset : (if a = app ∧ e = env ∧ k = key then none else p.pool a e k) = some i := hi
  split at hunset
  · exact (Option.some_ne_none i hunset.symm).elim
  · exact h a e k i hunset

theorem set {now : Int} (h : p.All P) (helem : P app env key elem) :
    (p.set now app env key elem).All P := by
  intro a e k i hi
  have hset : (if a = app ∧ e = env ∧ k = key then some ⟨elem, now⟩ else p.pool a e k) = some i := hi
  split at hset
  · next heq =>
    obtain ⟨rfl, rfl, rfl⟩ := heq
    exact Option.some.inj hset ▸ helem
  · exact h a e k i hset

theorem evictCallback (h : p.All P) (k : String) : (p.evictCallback k).All P := by
  unfold AppPool.evictCallback
  split
  · exact h
  · exact h.unset

theorem Query (h : p.All P) {now : Int} : (p.Query now app env key).2.All P := by
  unfold AppPool.Query
  split <;> exact h

theorem Query_found (h : p.All P) {now : Int} (hq : (p.Query now app env key).1 = some elem) :
    P app env key elem := by
  unfold AppPool.Query AppPool.query at hq
  split at hq
  · cases hq
  · dsimp only at hq
    split at hq
    · cases hq
    · next i hi =>
      split at hq
      · cases hq
      · cases hq
        exact h app env key i hi

theorem Set (h : p.All P) {now : Int} {p' : AppPool} (helem : P app env key elem)
    (hset : p.Set now app env key elem = some p') : p'.All P := by
  unfold AppPool.Set at hset
  split at hset
  · cases hset
  · next isSet evicted cp _ =>
    have hevict : ((evicted.map fun ent => p.evictCallback ent.1).getD p).All P := by
      cases evicted with
      | none => exact h
      | some ent => exact h.evictCallback ent.1
    cases hset
    split
    · exact AppPool.All.set (p := ⟨_, cp⟩) hevict helem
    · exact hevict

theorem mono {Q : String → String → String → Element → Prop} (h : p.All P)
    (hPQ : ∀ app env key elem, P app env key elem → Q app env key elem) : p.All Q :=
  fun app env key i hi => hPQ app env key i.val (h app env key i hi)

end AppPool.All

end Cassem.Agent
