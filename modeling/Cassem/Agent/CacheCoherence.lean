import Mathlib.Data.Set.Card
import Cassem.Agent.LRUK
import Cassem.Lib.Split
import Cassem.Lib.Transition

/-!
# Concurrent calls on the cache

`Set` visits the LRU and then, if the name is cached, stores the element; `Query` looks the name
up and then reads the pool. Calls interleave between these steps. An eviction takes the element of
another name out of the pool, and that element may not be stored yet.
-/

namespace Cassem.Agent

open Cassem.Concept Cassem.Lib

/-! ## What a visit does to the names -/

namespace LRU

variable {α β : Type} [DecidableEq α] {c : LRU α β} {key k : α} {value : β}

/-- The name that has to leave when the key is put: the oldest one, if the cache is full and this
is the `K`-th visit of a key that is not cached. -/
def victim (c : LRU α β) (key : α) : Option α :=
  if c.has key ∨ c.size ≠ 0 then none
  else
    match c.history.find? fun ent => ent.Key = key with
    | none => none
    | some hEnt => if c.K ≤ hEnt.Visited + 1 then c.cache.getLast?.map (·.1) else none

theorem has_iff : c.has k = true ↔ ∃ ent ∈ c.cache, ent.1 = k := by
  simp [has]

theorem has_front (c : LRU α β) (ent : α × β) (k : α) :
    has { c with cache := ent :: c.cache.filter fun e => e.1 ≠ ent.1 } k = true ↔
      k = ent.1 ∨ c.has k = true := by
  simp only [has_iff, List.mem_cons, List.mem_filter, decide_eq_true_eq]
  by_cases h : k = ent.1
  · exact iff_of_true ⟨ent, .inl rfl, h.symm⟩ (.inl h)
  · constructor
    · rintro ⟨e, rfl | ⟨he, -⟩, rfl⟩
      · exact .inl rfl
      · exact .inr ⟨e, he, rfl⟩
    · rintro (heq | ⟨e, he, rfl⟩)
      · exact absurd heq h
      · exact ⟨e, .inr ⟨he, h⟩, rfl⟩

theorem has_of_victim (h : c.victim key = some k) : c.has k = true := by
  unfold victim at h
  split at h
  · cases h
  · split at h
    · cases h
    · split at h
      · obtain ⟨ent, hlast, rfl⟩ := Option.map_eq_some_iff.mp h
        exact has_iff.mpr ⟨ent, List.mem_of_getLast? hlast, rfl⟩
      · cases h

theorem addElement_has {ent : α × β} {evicted : Option (α × β)} {c' : LRU α β}
    (h : c.addElement ent = some (evicted, c')) :
    (evicted.map (·.1) = if c.size = 0 then c.cache.getLast?.map (·.1) else none) ∧
      ∀ k, c'.has k = true ↔ k = ent.1 ∨ c.has k = true ∧ evicted.map (·.1) ≠ some k := by
  unfold addElement at h
  dsimp only at h
  split at h
  · next hsize =>
    split at h
    · cases h
    · next last hlast =>
      cases h
      rw [if_pos hsize, hlast]
      refine ⟨rfl, fun k => ?_⟩
      simp only [has_iff, removeElement, List.mem_cons, List.mem_filter, decide_eq_true_eq,
        Option.map_some, ne_eq, Option.some.injEq]
      constructor
      · rintro ⟨e, rfl | ⟨he, hne⟩, rfl⟩
        · exact .inl rfl
        · exact .inr ⟨⟨e, he, rfl⟩, fun heq => hne heq.symm⟩
      · rintro (rfl | ⟨⟨e, he, rfl⟩, hne⟩)
        · exact ⟨ent, .inl rfl, rfl⟩
        · exact ⟨e, .inr ⟨he, fun heq => hne heq.symm⟩, rfl⟩
  · next hsize =>
    cases h
    rw [if_neg hsize]
    refine ⟨rfl, fun k => ?_⟩
    simp only [has_iff, List.mem_cons]
    constructor
    · rintro ⟨e, rfl | he, rfl⟩
      · exact .inl rfl
      · exact .inr ⟨⟨e, he, rfl⟩, fun hnone => by cases hnone⟩
    · rintro (rfl | ⟨⟨e, he, rfl⟩, -⟩)
      · exact ⟨ent, .inl rfl, rfl⟩
      · exact ⟨e, .inr he, rfl⟩

/-- A visit that ends with the key in the cache takes only the victim out of it; any other visit
leaves the cache as it is. -/
theorem Put_has {isSet : Bool} {evicted : Option (α × β)} {c' : LRU α β}
    (h : c.Put key value = some (isSet, evicted, c')) :
    evicted.map (·.1) = c.victim key ∧
      if isSet then ∀ k, c'.has k = true ↔ k = key ∨ c.has k = true ∧ c.victim key ≠ some k
      else c.has key = false ∧ c.victim key = none ∧ ∀ k, c'.has k = c.has k := by
  unfold Put at h
  unfold victim
  by_cases hhas : c.has key = true
  · rw [if_pos hhas] at h
    rw [if_pos (.inl hhas)]
    cases h
    refine ⟨rfl, fun k => ?_⟩
    rw [has_front c (key, value)]
    simp
  · rw [if_neg hhas] at h
    cases hfind : c.history.find? fun ent => decide (ent.Key = key) with
    | none =>
      rw [hfind] at h
      obtain ⟨d, hd, heq⟩ := Option.map_eq_some_iff.mp h
      cases heq
      have hcache : c'.cache = c.cache := by
        unfold addHistoryElement at hd
        dsimp only at hd
        split at hd
        · split at hd <;> cases hd
          rfl
        · cases hd
          rfl
      rw [if_neg Bool.false_ne_true]
      exact ⟨(ite_self _).symm, Bool.eq_false_of_not_eq_true hhas, ite_self _,
        fun k => by rw [has, has, hcache]⟩
    | some hEnt =>
      rw [hfind] at h
      dsimp only at h
      by_cases hK : c.K ≤ hEnt.Visited + 1
      · rw [if_pos hK] at h
        obtain ⟨⟨evicted', d⟩, hd, heq⟩ := Option.map_eq_some_iff.mp h
        cases heq
        obtain ⟨holdest, hkeys⟩ := addElement_has hd
        have hevicted : evicted.map (·.1) =
            if c.size = 0 then c.cache.getLast?.map (·.1) else none := holdest
        have hvictim : evicted.map (·.1) = if c.has key = true ∨ c.size ≠ 0 then none
            else if c.K ≤ hEnt.Visited + 1 then c.cache.getLast?.map (·.1) else none := by
          rw [hevicted]
          by_cases hsize : c.size = 0
          · rw [if_pos hsize, if_neg (not_or.mpr ⟨hhas, not_not.mpr hsize⟩), if_pos hK]
          · rw [if_neg hsize, if_pos (.inr hsize)]
        refine ⟨hvictim, fun k => ?_⟩
        rw [hkeys, hvictim]
        rfl
      · rw [if_neg hK] at h
        cases h
        rw [if_neg Bool.false_ne_true]
        dsimp only
        rw [if_neg hK]
        exact ⟨(ite_self _).symm, Bool.eq_false_of_not_eq_true hhas, ite_self _, fun k => rfl⟩

theorem Get_has (c : LRU α β) (key k : α) : (c.Get key).2.has k = c.has k := by
  unfold Get
  cases hfind : c.cache.find? fun ent => decide (ent.1 = key) with
  | none => rfl
  | some ent =>
    have hkey : ent.1 = key := by simpa using List.find?_some hfind
    have hmem := List.mem_of_find?_eq_some hfind
    subst hkey
    rw [Bool.eq_iff_iff]
    refine (has_front c ent k).trans (or_iff_right_of_imp ?_)
    rintro rfl
    exact has_iff.mpr ⟨ent, hmem, rfl⟩

end LRU

/-! ## The names -/

/-- Where an element is in the pool. -/
structure Place where
  app : String
  env : String
  key : String
  deriving DecidableEq

namespace Place

def name (p : Place) : String := AppPool.genKey p.app p.env p.key

/-- No identifier has an `@` in it. -/
structure Plain (p : Place) : Prop where
  app : '@' ∉ p.app.toList
  env : '@' ∉ p.env.toList
  key : '@' ∉ p.key.toList

instance (p : Place) : Decidable p.Plain :=
  decidable_of_iff ('@' ∉ p.app.toList ∧ '@' ∉ p.env.toList ∧ '@' ∉ p.key.toList)
    ⟨fun h => ⟨h.1, h.2.1, h.2.2⟩, fun h => ⟨h.app, h.env, h.key⟩⟩

theorem parseKey_name {p : Place} (h : p.Plain) :
    AppPool.parseKey p.name = some (p.app, p.env, p.key) := by
  have hsplit : p.name.splitOn "@" = [p.app, p.env, p.key] := by
    have hname : p.name.toList =
        ['@'].intercalate [p.app.toList, p.env.toList, p.key.toList] := by
      simp [name, AppPool.genKey, List.intercalate, List.intersperse]
    have hfields : p.name.toList.splitOn '@' = [p.app.toList, p.env.toList, p.key.toList] := by
      rw [hname]
      refine List.splitOn_intercalate '@' (fun l hl => ?_) (List.cons_ne_nil _ _)
      simp only [List.mem_cons, List.not_mem_nil, or_false] at hl
      rcases hl with rfl | rfl | rfl
      · exact h.app
      · exact h.env
      · exact h.key
    have hsep : "@" = String.ofList ['@'] := rfl
    rw [hsep, splitOn_char, hfields]
    simp
  unfold AppPool.parseKey
  rw [hsplit]

theorem name_inj {p q : Place} (hp : p.Plain) (hq : q.Plain) (h : p.name = q.name) : p = q := by
  have hparse := (parseKey_name hp).symm.trans (h ▸ parseKey_name hq)
  cases p
  cases q
  cases hparse
  rfl

theorem eq_iff {p q : Place} : q.app = p.app ∧ q.env = p.env ∧ q.key = p.key ↔ q = p := by
  cases p
  cases q
  simp

end Place

/-! ## The calls -/

namespace AppPool

theorem set_pool (now : Int) (p : AppPool) (place q : Place) (elem : Element) :
    (p.set now place.app place.env place.key elem).pool q.app q.env q.key =
      if q = place then some ⟨elem, now⟩ else p.pool q.app q.env q.key := by
  simp only [set, Place.eq_iff]

theorem evictCallback_pool (p : AppPool) {place : Place} (h : place.Plain) (q : Place) :
    (p.evictCallback place.name).pool q.app q.env q.key =
      if q = place then none else p.pool q.app q.env q.key := by
  unfold evictCallback
  rw [Place.parseKey_name h]
  simp only [unset, Place.eq_iff]

/-- The first step of `Set`: whether the name is cached after this visit. -/
def put (p : AppPool) (place : Place) : Option (Bool × AppPool) :=
  (p.cp.Put place.name ()).map fun r =>
    (r.1, { (r.2.1.map fun ent => p.evictCallback ent.1).getD p with cp := r.2.2 })

/-- The first step of `Query`. -/
def look (p : AppPool) (place : Place) : Bool × AppPool :=
  ((p.cp.Get place.name).1.isSome, { p with cp := (p.cp.Get place.name).2 })

theorem Set_eq (now : Int) (p : AppPool) (place : Place) (elem : Element) :
    p.Set now place.app place.env place.key elem = (p.put place).map fun r =>
      if r.1 then r.2.set now place.app place.env place.key elem else r.2 := by
  unfold Set put Place.name
  cases p.cp.Put (genKey place.app place.env place.key) () <;> rfl

/-- A visit that ends with the name cached takes only the victim's name out of the cache. -/
theorem put_has {p cache : AppPool} {place : Place} {isSet : Bool}
    (h : p.put place = some (isSet, cache)) :
    if isSet then ∀ k, cache.cp.has k = true ↔
      k = place.name ∨ p.cp.has k = true ∧ p.cp.victim place.name ≠ some k
    else p.cp.has place.name = false ∧ p.cp.victim place.name = none ∧
      ∀ k, cache.cp.has k = p.cp.has k := by
  obtain ⟨⟨isSet, evicted, cp⟩, hPut, heq⟩ := Option.map_eq_some_iff.mp h
  cases heq
  exact (LRU.Put_has hPut).2

theorem put_lru {p cache : AppPool} {place : Place} {isSet : Bool} {K size bound : Nat}
    {r : LRUK.Reference String Unit} (hsize : 0 < size) (hbound : 0 < bound)
    (hr : p.cp.Follows K size bound r) (hK : 2 ≤ K) (h : p.put place = some (isSet, cache)) :
    ∃ r, cache.cp.Follows K size bound r := by
  obtain ⟨⟨isSet, evicted, cp⟩, hPut, heq⟩ := Option.map_eq_some_iff.mp h
  cases heq
  obtain ⟨isSet', evicted', cp', hPut', -, hfollows⟩ :=
    LRU.Put_follows hK hsize hbound hr place.name ()
  cases hPut'.symm.trans hPut
  exact ⟨_, hfollows⟩

theorem Query_eq (now : Int) (p : AppPool) (place : Place) :
    p.Query now place.app place.env place.key = (if (p.look place).1 then
      (p.look place).2.query now place.app place.env place.key else none, (p.look place).2) := by
  unfold Query look Place.name
  rcases p.cp.Get (genKey place.app place.env place.key) with ⟨_ | _, cp⟩ <;> rfl

end AppPool

/-- The step of a call that is next, or when its last step was. -/
inductive Stage where
  | cp
  | pool
  | done (t : Nat)
  deriving DecidableEq

structure SetCall where
  place : Place
  elem : Element
  began : Nat
  stage : Stage := .cp

/-- The other call began after the end of this one, and has ended. -/
def SetCall.Before (call other : SetCall) : Prop :=
  ∃ t t', call.stage = .done t ∧ other.stage = .done t' ∧ t < other.began

structure QueryCall where
  place : Place
  stage : Stage := .cp

/-- The cache, all calls that were made, and a count of the steps. -/
structure Cached where
  cache : AppPool
  sets : List SetCall := []
  queries : List QueryCall := []
  clock : Nat := 0

namespace Cached

/-- A call is made, or the call of an index takes its next step. -/
inductive Label where
  | Set (place : Place) (elem : Element)
  | put (i : Nat)
  | set (now : Int) (i : Nat)
  | Query (place : Place)
  | look (i : Nat)
  | query (i : Nat)

def step (w : Cached) : Label → Option Cached
  | .Set place elem =>
      if place.Plain then
        some { w with sets := w.sets ++ [⟨place, elem, w.clock, .cp⟩], clock := w.clock + 1 }
      else none
  | .put i => do
      let call ← w.sets[i]?
      if call.stage ≠ .cp then none
      let (isSet, cache) ← w.cache.put call.place
      let stage := if isSet then Stage.pool else .done w.clock
      return { w with cache, sets := w.sets.set i { call with stage }, clock := w.clock + 1 }
  | .set now i => do
      let call ← w.sets[i]?
      if call.stage ≠ .pool then none
      let cache := w.cache.set now call.place.app call.place.env call.place.key call.elem
      return { w with
        cache, sets := w.sets.set i { call with stage := .done w.clock }, clock := w.clock + 1 }
  | .Query place =>
      if place.Plain then
        some { w with queries := w.queries ++ [⟨place, .cp⟩], clock := w.clock + 1 }
      else none
  | .look i => do
      let call ← w.queries[i]?
      if call.stage ≠ .cp then none
      let (found, cache) := w.cache.look call.place
      let stage := if found then Stage.pool else .done w.clock
      return { w with cache, queries := w.queries.set i { call with stage }, clock := w.clock + 1 }
  | .query i => do
      let call ← w.queries[i]?
      if call.stage ≠ .pool then none
      return { w with
        queries := w.queries.set i { call with stage := .done w.clock }, clock := w.clock + 1 }

/-! ## What is kept -/

/-- The places that the pool has an element of. -/
def stored (w : Cached) : Set Place :=
  {place | w.cache.pool place.app place.env place.key ≠ none}

/-- A call has found the name cached and is yet to store its element. -/
def Storing (w : Cached) (place : Place) : Prop :=
  ∃ call ∈ w.sets, call.stage = .pool ∧ call.place = place

structure Idle (w : Cached) : Prop where
  sets : ∀ call ∈ w.sets, ∃ t, call.stage = .done t
  queries : ∀ call ∈ w.queries, ∃ t, call.stage = .done t

/-- The names of what is stored are those cached, no more than `size`; and what is found is the
element of a call that no other call of the same key came entirely after. -/
structure Coherent (size : Nat) (w : Cached) : Prop where
  keys : Set.BijOn Place.name w.stored {k | w.cache.cp.has k = true}
  bounded : w.stored.encard ≤ size
  fresh : ∀ (now : Int) (place : Place) (elem : Element),
    (w.cache.Query now place.app place.env place.key).1 = some elem →
      ∃ call ∈ w.sets, call.place = place ∧ call.elem = elem ∧
        ∀ other ∈ w.sets, other.place = place → ¬ call.Before other

/-- A visit does not evict a name whose element is yet to be stored. -/
def Undisturbed (w : Cached) (l : Label) (_ : Cached) : Prop :=
  match l with
  | .put i => ∀ call, w.sets[i]? = some call →
      ∀ k, w.cache.cp.victim call.place.name = some k →
        ∀ other ∈ w.sets, other.stage = .pool → other.place.name ≠ k
  | _ => True

/-- While no visit evicts such a name: a name is cached where its element is stored or about to
be, and no call that began after an element was stored has ended without storing another. -/
structure Kept (size : Nat) (w : Cached) : Prop where
  lru : ∃ r, w.cache.cp.Follows 2 size (historyBound size (uint64 (size - 1))) r
  plain : ∀ call ∈ w.sets, call.place.Plain
  began : ∀ call ∈ w.sets, call.began < w.clock
  named : ∀ k, w.cache.cp.has k = true → ∃ place : Place, place.Plain ∧ place.name = k
  cached : ∀ place : Place, place.Plain →
    (w.cache.cp.has place.name = true ↔ place ∈ w.stored ∨ w.Storing place)
  source : ∀ (place : Place) i, w.cache.pool place.app place.env place.key = some i →
    place.Plain ∧ ∃ call ∈ w.sets, call.place = place ∧ call.elem = i.val ∧
      ∃ t, call.stage = .done t ∧ ∀ other ∈ w.sets, other.place = place → t < other.began →
        ∀ t', other.stage ≠ .done t'

namespace Kept

variable {size : Nat} {w w' : Cached}

/-- What is stored when nothing runs. -/
theorem coherent (h : w.Kept size) (hidle : w.Idle) : w.Coherent size := by
  have hplain : ∀ place ∈ w.stored, place.Plain := by
    intro place hplace
    obtain ⟨i, hi⟩ := Option.ne_none_iff_exists'.mp hplace
    exact (h.source place i hi).1
  have hstored : ∀ place : Place, place.Plain →
      (w.cache.cp.has place.name = true ↔ place ∈ w.stored) := by
    intro place hp
    rw [h.cached place hp]
    refine or_iff_left fun hstoring => ?_
    obtain ⟨call, hcall, hstage, -⟩ := hstoring
    obtain ⟨t, ht⟩ := hidle.sets call hcall
    cases hstage.symm.trans ht
  have hkeys : Set.BijOn Place.name w.stored {k | w.cache.cp.has k = true} := by
    refine ⟨fun place hplace => (hstored place (hplain place hplace)).mpr hplace,
      fun p hp q hq heq => Place.name_inj (hplain p hp) (hplain q hq) heq, fun k hk => ?_⟩
    obtain ⟨place, hp, rfl⟩ := h.named k hk
    exact ⟨place, (hstored place hp).mp hk, rfl⟩
  refine ⟨hkeys, ?_, fun now place elem hfound => ?_⟩
  · have hcached : {k | w.cache.cp.has k = true} = ((w.cache.cp.cache.map (·.1)).toFinset : Set _) := by
      ext k
      simp [LRU.has]
    have hcount := List.toFinset_card_le (w.cache.cp.cache.map (·.1))
    obtain ⟨r, hr⟩ := h.lru
    have hroom := hr.size
    rw [← hkeys.injOn.encard_image, hkeys.image_eq, hcached, Set.encard_coe_eq_coe_finsetCard,
      Nat.cast_le]
    rw [List.length_map] at hcount
    omega
  · have hall : w.cache.All fun app env key elem => ∃ call ∈ w.sets, call.place = ⟨app, env, key⟩ ∧
        call.elem = elem ∧ ∀ other ∈ w.sets, other.place = ⟨app, env, key⟩ → ¬ call.Before other := by
      intro app env key i hi
      obtain ⟨-, call, hcall, hplace, helem, t, hstage, hlast⟩ := h.source ⟨app, env, key⟩ i hi
      refine ⟨call, hcall, hplace, helem, fun other hother hsame hbefore => ?_⟩
      obtain ⟨t₁, t₂, h₁, h₂, hlt⟩ := hbefore
      cases hstage.symm.trans h₁
      exact hlast other hother hsame hlt t₂ h₂
    exact hall.Query_found hfound

/-- Steps that leave the pool, the names and the `Set` calls as they are. -/
theorem frame (h : w.Kept size) (hpool : w'.cache.pool = w.cache.pool)
    (hhas : ∀ k, w'.cache.cp.has k = w.cache.cp.has k)
    (hlru : ∃ r, w'.cache.cp.Follows 2 size (historyBound size (uint64 (size - 1))) r)
    (hsets : w'.sets = w.sets) (hclock : w'.clock = w.clock + 1) : w'.Kept size := by
  have hstored : w'.stored = w.stored := by
    unfold stored
    rw [hpool]
  have hstoring : w'.Storing = w.Storing := by
    unfold Storing
    rw [hsets]
  refine ⟨hlru, hsets ▸ h.plain, fun call hcall => ?_, fun k hk => ?_, fun place hp => ?_, ?_⟩
  · have hbegan := h.began call (hsets ▸ hcall)
    omega
  · exact h.named k (hhas k ▸ hk)
  · rw [hhas, hstored, hstoring]
    exact h.cached place hp
  · rw [hpool, hsets]
    exact h.source

theorem step_Set (h : w.Kept size) {place : Place} {elem : Element}
    (hs : w.step (.Set place elem) = some w') : w'.Kept size := by
  simp only [step] at hs
  split at hs
  · next hp =>
    cases hs
    have hmem : ∀ call, call ∈ w.sets ++ [⟨place, elem, w.clock, .cp⟩] →
        call ∈ w.sets ∨ call = ⟨place, elem, w.clock, .cp⟩ := by
      intro call hcall
      simpa using hcall
    refine ⟨h.lru, fun call hcall => ?_, fun call hcall => ?_, h.named, fun place' hp' => ?_,
      fun place' i hi => ?_⟩
    · rcases hmem call hcall with hcall | rfl
      · exact h.plain call hcall
      · exact hp
    · show call.began < w.clock + 1
      rcases hmem call hcall with hcall | rfl
      · exact Nat.lt_succ_of_lt (h.began call hcall)
      · exact Nat.lt_succ_self _
    · refine (h.cached place' hp').trans (or_congr_right ?_)
      constructor
      · rintro ⟨call, hcall, hstage, hplace⟩
        exact ⟨call, List.mem_append_left _ hcall, hstage, hplace⟩
      · rintro ⟨call, hcall, hstage, hplace⟩
        rcases hmem call hcall with hcall | rfl
        · exact ⟨call, hcall, hstage, hplace⟩
        · cases hstage
    · obtain ⟨hp', call, hcall, hplace, helem, t, hstage, hlast⟩ := h.source place' i hi
      refine ⟨hp', call, List.mem_append_left _ hcall, hplace, helem, t, hstage, ?_⟩
      intro other hother hsame hlt
      rcases hmem other hother with hother | rfl
      · exact hlast other hother hsame hlt
      · exact fun t' ht' => by cases ht'
  · cases hs

/-- A call that moves on, and is not yet done, stays out of the way of all others. -/
theorem mem_set {call old new : SetCall} {i : Nat} (hold : w.sets[i]? = some old)
    (hcall : call ∈ w.sets) (hne : call.stage ≠ old.stage) : call ∈ w.sets.set i new := by
  obtain ⟨j, hj⟩ := List.mem_iff_getElem?.mp hcall
  have hij : i ≠ j := by
    rintro rfl
    cases hold.symm.trans hj
    exact hne rfl
  exact List.mem_iff_getElem?.mpr ⟨j, by rw [List.getElem?_set_ne hij, hj]⟩

theorem forall_set {P : SetCall → Prop} (h : ∀ call ∈ w.sets, P call) {new : SetCall} {i : Nat}
    (hnew : P new) : ∀ call ∈ w.sets.set i new, P call :=
  fun call hcall => (List.mem_or_eq_of_mem_set hcall).elim (h call) fun heq => heq ▸ hnew

theorem began_set (h : w.Kept size) {new : SetCall} {i : Nat} (hnew : new.began < w.clock) :
    ∀ call ∈ w.sets.set i new, call.began < w.clock + 1 :=
  forall_set (fun call hcall => Nat.lt_succ_of_lt (h.began call hcall)) (Nat.lt_succ_of_lt hnew)

theorem step_set (h : w.Kept size) {now : Int} {i : Nat} (hs : w.step (.set now i) = some w') :
    w'.Kept size := by
  obtain ⟨call, hcall, hs⟩ := Option.bind_eq_some_iff.mp hs
  by_cases hstage : call.stage = .pool
  · rw [if_neg (not_not.mpr hstage)] at hs
    cases hs
    have hin := List.mem_of_getElem? hcall
    have hmem := fun c => List.mem_or_eq_of_mem_set (l := w.sets) (i := i) (a := c)
      (b := { call with stage := .done w.clock })
    have hself : { call with stage := .done w.clock } ∈
        w.sets.set i { call with stage := .done w.clock } :=
      List.mem_set (List.getElem?_eq_some_iff.mp hcall).1 _
    have hpool := fun q => w.cache.set_pool now call.place q call.elem
    refine ⟨h.lru, forall_set h.plain (h.plain call hin), h.began_set (h.began call hin), h.named,
      fun place hp => ?_, fun place j hj => ?_⟩
    · refine (h.cached place hp).trans ?_
      show (w.cache.pool _ _ _ ≠ none ∨ _) ↔ ((w.cache.set ..).pool _ _ _ ≠ none ∨ _)
      rw [hpool]
      constructor
      · rintro (hstored | ⟨c, hc, hpending, rfl⟩)
        · refine .inl ?_
          split
          · exact Option.some_ne_none _
          · exact hstored
        · by_cases hsame : c.place = call.place
          · rw [if_pos hsame]
            exact .inl (Option.some_ne_none _)
          · obtain ⟨n, hn⟩ := List.mem_iff_getElem?.mp hc
            have hne : i ≠ n := by
              rintro rfl
              cases hcall.symm.trans hn
              exact hsame rfl
            refine .inr ⟨c, List.mem_iff_getElem?.mpr ⟨n, ?_⟩, hpending, rfl⟩
            rw [List.getElem?_set_ne hne, hn]
      · rintro (hstored | ⟨c, hc, hpending, rfl⟩)
        · split at hstored
          · next hsame => exact .inr ⟨call, hin, hstage, hsame.symm⟩
          · exact .inl hstored
        · rcases hmem c hc with hc | rfl
          · exact .inr ⟨c, hc, hpending, rfl⟩
          · cases hpending
    · dsimp only at hj
      rw [hpool] at hj
      split at hj
      · next hsame =>
        -- no call can have begun after this moment
        cases hj
        refine ⟨hsame ▸ h.plain call hin, _, hself, hsame.symm, rfl,
          w.clock, rfl, fun other hother _ hlt => ?_⟩
        rcases hmem other hother with hother | rfl
        · exact absurd hlt (Nat.lt_asymm (h.began other hother))
        · exact absurd hlt (Nat.lt_asymm (h.began call hin))
      · next hother =>
        obtain ⟨hp, c, hc, hplace, helem, t, hdone, hlast⟩ := h.source place j hj
        have hne : c.stage ≠ call.stage := by
          rw [hdone, hstage]
          exact Stage.noConfusion
        refine ⟨hp, c, mem_set hcall hc hne, hplace, helem, t, hdone, fun other hmem' hsame hlt => ?_⟩
        rcases hmem other hmem' with hin | rfl
        · exact hlast other hin hsame hlt
        · exact absurd hsame.symm hother
  · rw [if_pos hstage] at hs
    cases hs

/-- A visit takes what stands under the victim's name out of the pool. -/
theorem put_pool (h : w.Kept size) {place : Place} {isSet : Bool} {cache : AppPool}
    (hput : w.cache.put place = some (isSet, cache)) (q : Place) :
    cache.pool q.app q.env q.key =
      if w.cache.cp.victim place.name = some q.name then none
      else w.cache.pool q.app q.env q.key := by
  obtain ⟨⟨isSet, evicted, cp⟩, hPut, heq⟩ := Option.map_eq_some_iff.mp hput
  cases heq
  have hvictim := (LRU.Put_has hPut).1
  cases evicted with
  | none =>
    rw [← hvictim]
    exact (if_neg (by simp)).symm
  | some ent =>
    obtain ⟨v, hv, hname⟩ := h.named ent.1 (LRU.has_of_victim hvictim.symm)
    have hevict : (w.cache.evictCallback ent.1).pool q.app q.env q.key =
        if q = v then none else w.cache.pool q.app q.env q.key :=
      hname ▸ w.cache.evictCallback_pool hv q
    rw [← hvictim]
    refine hevict.trans ?_
    by_cases hq : q = v
    · rw [if_pos hq, if_pos (by rw [hq, hname]; rfl)]
    · rw [if_neg hq]
      split
      · next heq =>
        -- another place of that name is not plain, and nothing is stored there
        by_contra hsome
        obtain ⟨i, hi⟩ := Option.ne_none_iff_exists'.mp hsome
        have hsame : v.name = q.name := hname.trans (Option.some.inj heq)
        exact hq (Place.name_inj hv (h.source q i hi).1 hsame).symm
      · rfl

/-- After its visit a call is about to store its element, or done. -/
theorem storing_set {call : SetCall} {i : Nat} (hcall : w.sets[i]? = some call)
    (hstage : call.stage = .cp) (stage : Stage) (place : Place) :
    (∃ c ∈ w.sets.set i { call with stage }, c.stage = .pool ∧ c.place = place) ↔
      w.Storing place ∨ stage = .pool ∧ call.place = place := by
  constructor
  · rintro ⟨c, hc, hpending, hplace⟩
    rcases List.mem_or_eq_of_mem_set hc with hc | rfl
    · exact .inl ⟨c, hc, hpending, hplace⟩
    · exact .inr ⟨hpending, hplace⟩
  · rintro (⟨c, hc, hpending, hplace⟩ | ⟨hpending, hplace⟩)
    · refine ⟨c, mem_set hcall hc ?_, hpending, hplace⟩
      rw [hpending, hstage]
      exact Stage.noConfusion
    · exact ⟨_, List.mem_set (List.getElem?_eq_some_iff.mp hcall).1 _, hpending, hplace⟩

/-- A visit that is the last step of its call. -/
theorem put_missed (h : w.Kept size) {call : SetCall} {i : Nat} {cache : AppPool}
    (hcall : w.sets[i]? = some call) (hstage : call.stage = .cp)
    (hput : w.cache.put call.place = some (false, cache))
    (hlru : ∃ r, cache.cp.Follows 2 size (historyBound size (uint64 (size - 1))) r) :
    Kept size { w with
      cache, sets := w.sets.set i { call with stage := .done w.clock }, clock := w.clock + 1 } := by
  obtain ⟨hmiss, hvictim, hhas⟩ := AppPool.put_has hput
  have hpool : ∀ q : Place, cache.pool q.app q.env q.key = w.cache.pool q.app q.env q.key := by
    intro q
    rw [h.put_pool hput q, hvictim]
    exact if_neg (by simp)
  have hin := List.mem_of_getElem? hcall
  have hstoring := storing_set hcall hstage (.done w.clock)
  refine ⟨hlru, forall_set h.plain (h.plain call hin), h.began_set (h.began call hin),
    fun k hk => h.named k (hhas k ▸ hk), fun place hp => ?_, fun place j hj => ?_⟩
  · show cache.cp.has place.name = true ↔ cache.pool _ _ _ ≠ none ∨ ∃ c ∈ _, _
    rw [hhas, h.cached place hp, hpool, hstoring place]
    refine or_congr_right (or_iff_left ?_).symm
    rintro ⟨hnever, -⟩
    cases hnever
  · have hj : w.cache.pool place.app place.env place.key = some j := hpool place ▸ hj
    obtain ⟨hp, c, hc, hplace, helem, t, hdone, hlast⟩ := h.source place j hj
    have hne : c.stage ≠ call.stage := by
      rw [hdone, hstage]
      exact Stage.noConfusion
    refine ⟨hp, c, mem_set hcall hc hne, hplace, helem, t, hdone, fun other hother hsame hlt => ?_⟩
    rcases List.mem_or_eq_of_mem_set hother with hother | rfl
    · exact hlast other hother hsame hlt
    · -- nothing is stored under a name that is not cached
      have hcached := (h.cached place hp).mpr (.inl (by rw [stored, Set.mem_ofPred_eq, hj]; simp))
      rw [← hsame, hmiss] at hcached
      cases hcached

/-- A visit after which the element is to be stored. -/
theorem put_cached (h : w.Kept size) {call : SetCall} {i : Nat} {cache : AppPool}
    (hcall : w.sets[i]? = some call) (hstage : call.stage = .cp)
    (hput : w.cache.put call.place = some (true, cache))
    (hlru : ∃ r, cache.cp.Follows 2 size (historyBound size (uint64 (size - 1))) r)
    (hundisturbed : ∀ place, w.Storing place →
      w.cache.cp.victim call.place.name ≠ some place.name) :
    Kept size { w with
      cache, sets := w.sets.set i { call with stage := .pool }, clock := w.clock + 1 } := by
  have hhas := AppPool.put_has hput
  have hpool := h.put_pool hput
  have hin := List.mem_of_getElem? hcall
  have hstoring := storing_set hcall hstage .pool
  refine ⟨hlru, forall_set h.plain (h.plain call hin), h.began_set (h.began call hin),
    fun k hk => ?_, fun place hp => ?_, fun place j hj => ?_⟩
  · rcases (hhas k).mp hk with rfl | ⟨hk, -⟩
    · exact ⟨call.place, h.plain call hin, rfl⟩
    · exact h.named k hk
  · have hname : place.name = call.place.name ↔ call.place = place :=
      ⟨fun heq => Place.name_inj (h.plain call hin) hp heq.symm, fun heq => heq ▸ rfl⟩
    have hkept := hundisturbed place
    show cache.cp.has place.name = true ↔ cache.pool _ _ _ ≠ none ∨ ∃ c ∈ _, _
    rw [hhas, h.cached place hp, hname, hpool, hstoring place]
    by_cases hvictim : w.cache.cp.victim call.place.name = some place.name
    · have hpending : ¬ w.Storing place := fun hpending => hkept hpending hvictim
      simp [hvictim, hpending]
    · simp only [stored, Set.mem_ofPred_eq, hvictim, if_false, ne_eq, not_false_eq_true, and_true,
        true_and]
      rw [or_left_comm, or_comm (a := call.place = place)]
  · have hj' := hj
    dsimp only at hj'
    rw [hpool] at hj'
    split at hj'
    · cases hj'
    · obtain ⟨hp, c, hc, hplace, helem, t, hdone, hlast⟩ := h.source place j hj'
      have hne : c.stage ≠ call.stage := by
        rw [hdone, hstage]
        exact Stage.noConfusion
      refine ⟨hp, c, mem_set hcall hc hne, hplace, helem, t, hdone, fun other hother hsame hlt => ?_⟩
      rcases List.mem_or_eq_of_mem_set hother with hother | rfl
      · exact hlast other hother hsame hlt
      · exact fun t' ht' => by cases ht'

theorem step_put (hsize : 1 ≤ size) (hrange : size < 2 ^ 64) (h : w.Kept size) {i : Nat}
    (hs : w.step (.put i) = some w') (hundisturbed : w.Undisturbed (.put i) w') :
    w'.Kept size := by
  obtain ⟨call, hcall, hs⟩ := Option.bind_eq_some_iff.mp hs
  by_cases hstage : call.stage = .cp
  · rw [if_neg (not_not.mpr hstage)] at hs
    obtain ⟨⟨isSet, cache⟩, hput, hs⟩ := Option.bind_eq_some_iff.mp hs
    cases hs
    obtain ⟨r, hr⟩ := h.lru
    have hlru := AppPool.put_lru hsize (historyBound_pos hsize hrange _) hr (le_refl 2) hput
    cases isSet with
    | true =>
      refine h.put_cached hcall hstage hput hlru fun place hstoring hvictim => ?_
      obtain ⟨other, hother, hpending, rfl⟩ := hstoring
      exact hundisturbed call hcall _ hvictim other hother hpending rfl
    | false => exact h.put_missed hcall hstage hput hlru
  · rw [if_pos hstage] at hs
    cases hs

theorem step_look (h : w.Kept size) {i : Nat} (hs : w.step (.look i) = some w') :
    w'.Kept size := by
  obtain ⟨call, hcall, hs⟩ := Option.bind_eq_some_iff.mp hs
  by_cases hstage : call.stage = .cp
  · rw [if_neg (not_not.mpr hstage)] at hs
    cases hs
    obtain ⟨r, hr⟩ := h.lru
    exact h.frame rfl (fun k => LRU.Get_has w.cache.cp call.place.name k)
      ⟨_, (LRU.Get_follows hr call.place.name).2⟩ rfl rfl
  · rw [if_pos hstage] at hs
    cases hs

/-- One step, where no visit evicts a name whose element is yet to be stored. -/
theorem step (hsize : 1 ≤ size) (hrange : size < 2 ^ 64) (h : w.Kept size) {l : Label}
    (hs : w.step l = some w') (hundisturbed : w.Undisturbed l w') : w'.Kept size := by
  cases l with
  | Set place elem => exact h.step_Set hs
  | put i => exact h.step_put hsize hrange hs hundisturbed
  | set now i => exact h.step_set hs
  | Query place =>
    simp only [Cached.step] at hs
    split at hs
    · cases hs
      exact h.frame rfl (fun _ => rfl) h.lru rfl rfl
    · cases hs
  | look i => exact h.step_look hs
  | query i =>
    obtain ⟨call, hcall, hs⟩ := Option.bind_eq_some_iff.mp hs
    by_cases hstage : call.stage = .pool
    · rw [if_neg (not_not.mpr hstage)] at hs
      cases hs
      exact h.frame rfl (fun _ => rfl) h.lru rfl rfl
    · rw [if_pos hstage] at hs
      cases hs

/-- A new cache. -/
theorem new {cache : AppPool} (h : NewCache size = some cache) : Kept size { cache } := by
  obtain ⟨cp, hcp, rfl⟩ := Option.map_eq_some_iff.mp h
  cases hcp
  refine ⟨⟨{}, rfl, .empty _ _, .empty _ _, rfl, rfl, fun _ => .inl rfl⟩, fun call hcall => ?_,
    fun call hcall => ?_, fun k hk => ?_, fun place _ => ?_, fun place i hi => ?_⟩
  · cases hcall
  · cases hcall
  · cases hk
  · refine iff_of_false Bool.false_ne_true ?_
    rintro (hstored | ⟨call, hcall, -⟩)
    · exact hstored rfl
    · cases hcall
  · cases hi

end Kept

/-! ## Every run -/

/-- In every run in which no visit evicts a name whose element is yet to be stored, the pool and
the LRU agree whenever no call is running. -/
theorem idle_coherent {size : Nat} (hsize : 1 ≤ size) (hrange : size < 2 ^ 64) {cache : AppPool}
    (hnew : NewCache size = some cache) (ls : List Label)
    (h : Transition.EachStep step Undisturbed { cache } ls) :
    Transition.EachState step (fun w => w.Idle → w.Coherent size) { cache } ls := by
  refine (Transition.eachState_of_eachStep (Kept size) (fun w l w' hkept hundisturbed hs => ?_)
    (Kept.new hnew) h).mono fun w hkept => hkept.coherent
  exact hkept.step hsize hrange hs hundisturbed

instance (w : Cached) (l : Label) (w' : Cached) : Decidable (Undisturbed w l w') := by
  cases l with
  | put i =>
    exact inferInstanceAs (Decidable (∀ call ∈ w.sets[i]?,
      ∀ k ∈ w.cache.cp.victim call.place.name,
        ∀ other ∈ w.sets, other.stage = .pool → other.place.name ≠ k))
  | _ => exact isTrue trivial

def db : Place := ⟨"shop", "prod", "db"⟩

def log : Place := ⟨"shop", "prod", "log"⟩

def firstVersion : Element := { Raw := [49], Version := 1, Published := true }

/-- One call after another: the second visit of `log` takes the place of `db`. -/
def inTurn : List Label :=
  [.Set db firstVersion, .put 0, .Set db firstVersion, .put 1, .set 0 1,
    .Set log firstVersion, .put 2, .Set log firstVersion, .put 3, .set 0 3]

theorem idle_coherent_inTurn : ∃ cache, NewCache 1 = some cache ∧
    Transition.EachState step (fun w => w.Idle → w.Coherent 1) { cache } inTurn := by
  refine ⟨_, rfl, idle_coherent (le_refl 1) (by omega) rfl inTurn ?_⟩
  decide +kernel

/-- The second call for `db` has visited the LRU when `log` takes its place, and stores its element
after that. -/
def lateStore : List Label :=
  [.Set db firstVersion, .put 0, .Set db firstVersion, .put 1,
    .Set log firstVersion, .put 2, .Set log firstVersion, .put 3, .set 0 3, .set 0 1]

/-- The pool of a cache of one has two elements, and the LRU does not know the name of the one. -/
theorem lateStore_stays : ∃ cache w, NewCache 1 = some cache ∧
    Transition.run step { cache } lateStore = some w ∧ w.Idle ∧ db ∈ w.stored ∧ log ∈ w.stored ∧
      w.cache.cp.has db.name = false ∧ ¬ w.Coherent 1 := by
  have hend : ((NewCache 1).bind fun cache => Transition.run step { cache } lateStore).map (fun w =>
      (w.sets.map (·.stage), w.queries.length, (w.cache.pool "shop" "prod" "db").isSome,
        (w.cache.pool "shop" "prod" "log").isSome, w.cache.cp.has db.name)) =
      some ([.done 1, .done 9, .done 5, .done 8], 0, true, true, false) := by
    decide +kernel
  obtain ⟨w, hrun, hw⟩ := Option.map_eq_some_iff.mp hend
  obtain ⟨cache, hcache, hrun⟩ := Option.bind_eq_some_iff.mp hrun
  have hstages : w.sets.map (·.stage) = [.done 1, .done 9, .done 5, .done 8] :=
    congrArg Prod.fst hw
  have hqueries : w.queries = [] := List.length_eq_zero_iff.mp (congrArg (·.2.1) hw)
  have hdb : db ∈ w.stored := Option.isSome_iff_ne_none.mp (congrArg (·.2.2.1) hw)
  have hlog : log ∈ w.stored := Option.isSome_iff_ne_none.mp (congrArg (·.2.2.2.1) hw)
  have hhas : w.cache.cp.has db.name = false := congrArg (·.2.2.2.2) hw
  refine ⟨cache, w, hcache, hrun, ⟨fun call hcall => ?_, fun call hcall => ?_⟩, hdb, hlog, hhas,
    fun hcoherent => ?_⟩
  · have hmem : call.stage ∈ w.sets.map (·.stage) := List.mem_map_of_mem hcall
    rw [hstages] at hmem
    simp only [List.mem_cons, List.not_mem_nil, or_false] at hmem
    rcases hmem with h | h | h | h <;> exact ⟨_, h⟩
  · rw [hqueries] at hcall
    cases hcall
  · have hcached : w.cache.cp.has db.name = true := hcoherent.keys.mapsTo hdb
    rw [hhas] at hcached
    cases hcached

end Cached

end Cassem.Agent
