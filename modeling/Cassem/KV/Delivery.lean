import Cassem.KV.SnapshotConsistency

/-!
# What the event loop hands over

The messages on the commit channel over a sequence of Ready batches. Raft may hand an entry
over more than once, and a snapshot may stand for entries that were never handed over; what
is left of a batch is found by unsigned arithmetic on the indices.
-/

namespace Cassem.KV.EventLoop

open Lib

/-! ## Batches -/

/-- A Ready batch: the index of its snapshot, 0 where it has none, and the place of its committed
entries in the log. -/
structure Batch where
  snapshot : Nat
  first : Nat
  count : Nat
  deriving DecidableEq

/-- A message on the commit channel. -/
inductive Message where
  | nil
  | commit (data : List (Option LogEntry))

/-- How `serveChannels` ends early. -/
inductive Ending where
  | fatal
  | panic
  | removed
  deriving DecidableEq

structure Publisher where
  appliedIndex : Nat
  sent : List Message := []
  ended : Option Ending := none

/-- `ents[k:]`. -/
def sliceFrom (ents : List Entry) (k : Nat) : Except Ending (List Entry) :=
  if k ≤ ents.length then .ok (ents.drop k) else .error .panic

/-- `entriesToApply`, with the ways in which it does not return. -/
def trim (appliedIndex : Nat) (ents : List Entry) : Except Ending (List Entry) :=
  match ents with
  | [] => .ok []
  | e :: _ =>
      if (appliedIndex + 1) % 2 ^ 64 < e.Index then .error .fatal
      else
        let skip := (appliedIndex + 2 ^ 64 - e.Index + 1) % 2 ^ 64
        if skip < ents.length then sliceFrom ents skip else .ok []

def Publisher.publishSnapshot (p : Publisher) (index : Nat) : Publisher :=
  if index = 0 then p
  else if index ≤ p.appliedIndex then { p with ended := some .panic }
  else { p with appliedIndex := index, sent := p.sent ++ [.nil] }

def Publisher.publishEntries (id : Nat) (p : Publisher) (ents : List Entry) : Publisher :=
  match trim p.appliedIndex ents with
  | .error ending => { p with ended := some ending }
  | .ok [] => p
  | .ok (e :: es) =>
      let last := ((e :: es).getLast (List.cons_ne_nil e es)).Index
      match entriesData id (e :: es) with
      | none => { p with ended := some .removed }
      | some [] => { p with appliedIndex := last }
      | some (d :: data) => { p with appliedIndex := last, sent := p.sent ++ [.commit (d :: data)] }

/-- A batch of a node that is still serving; `log` is what raft has committed. -/
def Publisher.ready (id : Nat) (log : List EntryType) (p : Publisher) (b : Batch) :
    Option Publisher :=
  if p.ended = none then
    let p := p.publishSnapshot b.snapshot
    if p.ended = none then some (p.publishEntries id (committed log b.first b.count)) else some p
  else none

/-- What raft promises of a batch when everything up to an index is applied, and that the batch
does not remove the node. -/
structure Handed (id : Nat) (log : List EntryType) (appliedIndex : Nat) (b : Batch) : Prop where
  snapshot : b.snapshot = 0 ∨ appliedIndex < b.snapshot ∧ b.snapshot < 2 ^ 64
  first_pos : 1 ≤ b.first
  first_le : b.first ≤ max appliedIndex b.snapshot + 1
  committed : b.first - 1 + b.count ≤ log.length
  stays : ∀ type ∈ (log.drop (b.first - 1)).take b.count, type ≠ .confChange (some id)

/-- The index up to which everything is applied after a batch. -/
def Batch.settles (b : Batch) (appliedIndex : Nat) : Nat :=
  max (max appliedIndex b.snapshot) (b.first - 1 + b.count)

/-- What raft promises of the batches, one after another. -/
def HandedEach (id : Nat) (log : List EntryType) : Nat → List Batch → Prop
  | _, [] => True
  | appliedIndex, b :: bs =>
      Handed id log appliedIndex b ∧ HandedEach id log (b.settles appliedIndex) bs

/-! ## What is due -/

/-- An entry is handed over, or a snapshot at or above its index is published first. -/
inductive Fate where
  | handed
  | covered
  deriving DecidableEq

def Batch.fate (b : Batch) (index : Nat) : Option Fate :=
  if index ≤ b.snapshot then some .covered
  else if b.first ≤ index ∧ index < b.first + b.count then some .handed
  else none

/-- What comes of an index first. -/
def fateOf (bs : List Batch) (index : Nat) : Option Fate := bs.findSome? fun b => b.fate index

def dataAt (log : List EntryType) (index : Nat) : Option (Option LogEntry) :=
  (log[index - 1]?).bind EntryType.data?

/-- The data of the entries above `start`, up to `last`, that are handed over before a snapshot
covers them. -/
def dueData (log : List EntryType) (bs : List Batch) (start last : Nat) : List (Option LogEntry) :=
  ((List.range' (start + 1) (last - start)).filter fun i => fateOf bs i = some .handed).filterMap
    (dataAt log)

def Message.data : Message → List (Option LogEntry)
  | .nil => []
  | .commit data => data

def Publisher.data (p : Publisher) : List (Option LogEntry) := p.sent.flatMap Message.data

/-! ## What is left of a batch -/

section Batches

variable {id : Nat} {log : List EntryType}

theorem filterMap_dataAt {a m : Nat} (h : a + m ≤ log.length) :
    (List.range' (a + 1) m).filterMap (dataAt log) = normalData ((log.drop a).take m) := by
  induction m generalizing a with
  | zero => rfl
  | succ m ih =>
    have ha : a < log.length := by omega
    have hat : dataAt log (a + 1) = log[a].data? := by
      rw [dataAt, Nat.add_sub_cancel, List.getElem?_eq_getElem ha, Option.bind_some]
    have hrest := ih (show a + 1 + m ≤ log.length by omega)
    rw [List.drop_eq_getElem_cons ha, List.take_succ_cons, normalData, List.range'_succ,
      List.filterMap_cons, List.filterMap_cons, hat, hrest]
    rfl

/-- The unsigned expressions leave exactly what is above the applied index; the addition of one
wraps at the highest index only, and there nothing is left. -/
theorem trim_committed {a i count : Nat} (hlog : log.length < 2 ^ 64) (ha : a < 2 ^ 64)
    (hi : i ≤ a) (h : i + count ≤ log.length) :
    trim a (committed log (i + 1) count) =
      if a + 1 = 2 ^ 64 ∧ 0 < count then .error .fatal
      else .ok (committed log (a + 1) (i + count - a)) := by
  cases count with
  | zero =>
    rw [if_neg (by omega), show i + 0 - a = 0 by omega]
    rfl
  | succ count =>
    have hcons := committed_succ (show i < log.length by omega) count
    have hlen := committed_length h
    rw [hcons] at hlen ⊢
    unfold trim
    dsimp only
    by_cases hlast : a + 1 = 2 ^ 64
    · have hwrap : (a + 1) % 2 ^ 64 < i + 1 := by omega
      rw [if_pos hwrap, if_pos ⟨hlast, Nat.succ_pos count⟩]
    · have hle : ¬ (a + 1) % 2 ^ 64 < i + 1 := by omega
      have hskip : (a + 2 ^ 64 - (i + 1) + 1) % 2 ^ 64 = a - i := by omega
      have hroom : ¬ (a + 1 = 2 ^ 64 ∧ 0 < count + 1) := fun hc => hlast hc.1
      rw [if_neg hle, if_neg hroom, hskip, hlen]
      split
      · next hlt =>
        have hdrop := committed_drop h (show a - i ≤ count + 1 by omega)
        rw [sliceFrom, if_pos (by rw [hlen]; omega), ← hcons, hdrop]
        congr 2 <;> omega
      · next hge =>
        rw [show i + (count + 1) - a = 0 by omega]
        rfl

theorem entriesData_stays {a m : Nat} (h : a + m ≤ log.length)
    (hstays : ∀ type ∈ (log.drop a).take m, type ≠ .confChange (some id)) :
    entriesData id (committed log (a + 1) m) = some (normalData ((log.drop a).take m)) := by
  have hsome : (entriesData id (committed log (a + 1) m)).isSome = true := by
    induction m generalizing a with
    | zero => rfl
    | succ m ih =>
      have ha : a < log.length := by omega
      rw [List.drop_eq_getElem_cons ha, List.take_succ_cons] at hstays
      have hrest := ih (show a + 1 + m ≤ log.length by omega) fun type htype =>
        hstays type (List.mem_cons_of_mem _ htype)
      rw [committed_succ ha, entriesData]
      cases hlog : log[a] with
      | normal d =>
        rw [Option.isSome_map]
        exact hrest
      | empty => exact hrest
      | confChange removed =>
        dsimp only
        rw [if_neg]
        · exact hrest
        · rintro rfl
          exact hstays _ List.mem_cons_self hlog
  obtain ⟨data, hdata⟩ := Option.isSome_iff_exists.mp hsome
  rw [hdata, entriesData_committed h hdata]

theorem getLast_committed {a m : Nat} (h : a + m ≤ log.length) {e : Entry} {es : List Entry}
    (hcons : committed log (a + 1) m = e :: es) :
    ((e :: es).getLast (List.cons_ne_nil e es)).Index = a + m :=
  committed_last h (by rw [hcons]; exact List.getLast?_eq_some_getLast _)

/-- What a batch does to the applied index and to what is sent. -/
theorem publishEntries_spec {p : Publisher} {i count : Nat} (hlog : log.length < 2 ^ 64)
    (ha : p.appliedIndex < 2 ^ 64) (hi : i ≤ p.appliedIndex) (h : i + count ≤ log.length)
    (hstays : ∀ type ∈ (log.drop i).take count, type ≠ .confChange (some id))
    (hserving : p.ended = none) :
    let p' := p.publishEntries id (committed log (i + 1) count)
    p'.appliedIndex = max p.appliedIndex (i + count) ∧
      p'.data = p.data ++
        normalData ((log.drop p.appliedIndex).take (i + count - p.appliedIndex)) ∧
      (p'.ended = none ∨ p'.ended = some .fatal ∧ p'.appliedIndex + 1 = 2 ^ 64) := by
  intro p'
  have hp' : p' = p.publishEntries id (committed log (i + 1) count) := rfl
  unfold Publisher.publishEntries at hp'
  rw [trim_committed hlog ha hi h] at hp'
  by_cases hwrap : p.appliedIndex + 1 = 2 ^ 64 ∧ 0 < count
  · rw [if_pos hwrap] at hp'
    rw [hp', show i + count - p.appliedIndex = 0 by omega]
    refine ⟨?_, (List.append_nil _).symm, .inr ⟨rfl, hwrap.1⟩⟩
    show p.appliedIndex = _
    omega
  · rw [if_neg hwrap] at hp'
    dsimp only at hp'
    generalize hm : i + count - p.appliedIndex = m at hp' ⊢
    by_cases hzero : m = 0
    · subst hzero
      have hsame : p' = p := hp'
      rw [hsame]
      refine ⟨by omega, (List.append_nil _).symm, .inl hserving⟩
    · have hbound : p.appliedIndex + m ≤ log.length := by omega
      have hdata : entriesData id (committed log (p.appliedIndex + 1) m) =
          some (normalData ((log.drop p.appliedIndex).take m)) := by
        refine entriesData_stays hbound fun type htype => hstays type ?_
        have hdrop : (log.drop p.appliedIndex).take m =
            ((log.drop i).take count).drop (p.appliedIndex - i) := by
          rw [List.drop_take, List.drop_drop]
          congr 2 <;> omega
        rw [hdrop] at htype
        exact List.mem_of_mem_drop htype
      obtain ⟨k, rfl⟩ := Nat.exists_eq_succ_of_ne_zero hzero
      have hcons := committed_succ (show p.appliedIndex < log.length by omega) k
      have hlast := getLast_committed hbound hcons
      rw [hcons] at hp' hdata
      dsimp only at hp'
      rw [hlast, hdata] at hp'
      split at hp'
      · next heq => cases heq
      · next heq =>
        rw [Option.some.inj heq, hp']
        exact ⟨by show p.appliedIndex + _ = _; omega, (List.append_nil _).symm, .inl hserving⟩
      · next d data heq =>
        rw [Option.some.inj heq, hp']
        refine ⟨by show p.appliedIndex + _ = _; omega, ?_, .inl hserving⟩
        show (p.sent ++ [Message.commit (d :: data)]).flatMap Message.data = _
        rw [List.flatMap_append, List.flatMap_singleton]
        rfl

/-! ## Whole sequences of batches -/

/-- What has come of the indices so far, and what has been sent. -/
structure Delivered (log : List EntryType) (start : Nat) (bs : List Batch) (p : Publisher) :
    Prop where
  start_le : start ≤ p.appliedIndex
  applied_lt : p.appliedIndex < 2 ^ 64
  fated : ∀ i, start < i → (fateOf bs i ≠ none ↔ i ≤ p.appliedIndex)
  data : p.data = dueData log bs start p.appliedIndex
  ended : p.ended = none ∨ p.ended = some .fatal ∧ p.appliedIndex + 1 = 2 ^ 64

theorem fateOf_snoc (bs : List Batch) (b : Batch) (i : Nat) :
    fateOf (bs ++ [b]) i = (fateOf bs i).or (b.fate i) := by
  rw [fateOf, List.findSome?_append, List.findSome?_singleton]
  rfl

/-- With one more batch: what the snapshot covers adds nothing, the rest of the batch adds its
data. -/
theorem dueData_snoc {bs : List Batch} {b : Batch} {start a : Nat} (hstart : start ≤ a)
    (hfated : ∀ i, start < i → (fateOf bs i ≠ none ↔ i ≤ a)) (hfirst : 1 ≤ b.first)
    (hle : b.first ≤ max a b.snapshot + 1) (hcommitted : b.first - 1 + b.count ≤ log.length) :
    dueData log (bs ++ [b]) start (max (max a b.snapshot) (b.first - 1 + b.count)) =
      dueData log bs start a ++ normalData ((log.drop (max a b.snapshot)).take
        (b.first - 1 + b.count - max a b.snapshot)) := by
  generalize hmid : max a b.snapshot = mid at hle ⊢
  generalize hlast : b.first - 1 + b.count = last at hcommitted ⊢
  have hranges : List.range' (start + 1) (max mid last - start) =
      List.range' (start + 1) (a - start) ++
        (List.range' (a + 1) (mid - a) ++ List.range' (mid + 1) (last - mid)) := by
    rw [show a + 1 = start + 1 + (a - start) by omega, show mid + 1 = a + 1 + (mid - a) by omega]
    rw [show start + 1 + (a - start) = a + 1 by omega, List.range'_append_1]
    rw [show a + 1 = start + 1 + (a - start) by omega, List.range'_append_1]
    congr 1
    omega
  have hnew : ∀ i, a < i → fateOf (bs ++ [b]) i = b.fate i := by
    intro i hi
    have hnone : fateOf bs i = none := by
      by_contra hne
      have := (hfated i (by omega)).mp hne
      omega
    rw [fateOf_snoc, hnone, Option.none_or]
  have hold : (List.range' (start + 1) (a - start)).filter
      (fun i => fateOf (bs ++ [b]) i = some .handed) =
        (List.range' (start + 1) (a - start)).filter fun i => fateOf bs i = some .handed := by
    refine List.filter_congr fun i hi => ?_
    have hrange := List.mem_range'_1.mp hi
    have hsome := Option.ne_none_iff_exists'.mp ((hfated i (by omega)).mpr (by omega))
    obtain ⟨fate, hfate⟩ := hsome
    rw [fateOf_snoc, hfate, Option.some_or]
  have hcovered : (List.range' (a + 1) (mid - a)).filter
      (fun i => fateOf (bs ++ [b]) i = some .handed) = [] := by
    refine List.filter_eq_nil_iff.mpr fun i hi => ?_
    have hrange := List.mem_range'_1.mp hi
    rw [hnew i (by omega), Batch.fate, if_pos (by omega)]
    simp
  have hhanded : (List.range' (mid + 1) (last - mid)).filter
      (fun i => fateOf (bs ++ [b]) i = some .handed) = List.range' (mid + 1) (last - mid) := by
    refine List.filter_eq_self.mpr fun i hi => ?_
    have hrange := List.mem_range'_1.mp hi
    rw [hnew i (by omega), Batch.fate, if_neg (by omega), if_pos (by omega)]
    simp
  rw [dueData, hranges, List.filter_append, List.filter_append, hold, hcovered, hhanded,
    List.nil_append, List.filterMap_append]
  by_cases hempty : last ≤ mid
  · rw [show last - mid = 0 by omega]
    rfl
  · rw [filterMap_dataAt (by omega)]
    rfl

/-- A loop that is still serving takes the next batch. -/
theorem Delivered.ready {start : Nat} {bs : List Batch} {p : Publisher} {b : Batch}
    (hlog : log.length < 2 ^ 64) (h : Delivered log start bs p)
    (hb : Handed id log p.appliedIndex b) (hserving : p.ended = none) :
    ∃ p', p.ready id log b = some p' ∧ Delivered log start (bs ++ [b]) p' ∧
      p'.appliedIndex = b.settles p.appliedIndex := by
  cases hready : p.ready id log b with
  | none =>
    unfold Publisher.ready at hready
    rw [if_pos hserving] at hready
    dsimp only at hready
    split at hready <;> cases hready
  | some p' =>
    refine ⟨p', rfl, ?_⟩
    unfold Publisher.ready at hready
    rw [if_pos hserving] at hready
    have hsnap : ∃ mid, p.publishSnapshot b.snapshot = mid ∧ mid.ended = none ∧
        mid.appliedIndex = max p.appliedIndex b.snapshot ∧ mid.data = p.data := by
      refine ⟨_, rfl, ?_⟩
      unfold Publisher.publishSnapshot
      rcases hb.snapshot with hzero | ⟨hgt, -⟩
      · rw [if_pos hzero]
        exact ⟨hserving, by omega, rfl⟩
      · rw [if_neg (by omega), if_neg (by omega)]
        refine ⟨hserving, by show b.snapshot = _; omega, ?_⟩
        show (p.sent ++ [Message.nil]).flatMap Message.data = _
        rw [List.flatMap_append, List.flatMap_singleton, Message.data, List.append_nil]
        rfl
    obtain ⟨mid, hmid, hmidServing, hmidApplied, hmidData⟩ := hsnap
    rw [hmid, if_pos hmidServing] at hready
    cases hready
    have hmidLt : mid.appliedIndex < 2 ^ 64 := by
      have hlt := h.applied_lt
      rcases hb.snapshot with hzero | ⟨-, hsmall⟩ <;> omega
    have hpos := hb.first_pos
    have hle := hb.first_le
    have hspec := publishEntries_spec hlog hmidLt (show b.first - 1 ≤ mid.appliedIndex by omega)
      hb.committed hb.stays hmidServing
    rw [Nat.sub_add_cancel hpos, hmidApplied, hmidData] at hspec
    obtain ⟨happlied, hdata, hended⟩ := hspec
    have hstart := h.start_le
    have hcommitted := hb.committed
    refine ⟨⟨by omega, by omega, fun i hi => ?_, ?_, hended⟩, happlied⟩
    · rw [fateOf_snoc, happlied]
      by_cases hold : i ≤ p.appliedIndex
      · obtain ⟨fate, hfate⟩ := Option.ne_none_iff_exists'.mp ((h.fated i hi).mpr hold)
        rw [hfate, Option.some_or]
        exact iff_of_true (Option.some_ne_none fate) (by omega)
      · have hnone : fateOf bs i = none := not_not.mp fun hne => hold ((h.fated i hi).mp hne)
        rw [hnone, Option.none_or, Batch.fate]
        split
        · exact iff_of_true (Option.some_ne_none _) (by omega)
        · split
          · exact iff_of_true (Option.some_ne_none _) (by omega)
          · exact iff_of_false (fun hne => hne rfl) (by omega)
    · rw [hdata, h.data, happlied]
      exact (dueData_snoc hstart h.fated hpos hle hcommitted).symm

/-- The batches are taken one after another, until there are none or the loop has ended. -/
theorem delivered_run {start : Nat} {done bs : List Batch} {p : Publisher}
    (hlog : log.length < 2 ^ 64) (h : Delivered log start done p)
    (hbs : HandedEach id log p.appliedIndex bs) :
    ∃ taken rest p', bs = taken ++ rest ∧
      Transition.run (Publisher.ready id log) p taken = some p' ∧
      Delivered log start (done ++ taken) p' ∧ (rest = [] ∨ p'.ended ≠ none) := by
  induction bs generalizing done p with
  | nil => exact ⟨[], [], p, rfl, rfl, (List.append_nil done).symm ▸ h, .inl rfl⟩
  | cons b bs ih =>
    by_cases hserving : p.ended = none
    · obtain ⟨hb, hbs⟩ := hbs
      obtain ⟨mid, hstep, hmid, happlied⟩ := h.ready hlog hb hserving
      rw [← happlied] at hbs
      obtain ⟨taken, rest, p', rfl, hrun, hdelivered, hrest⟩ := ih hmid hbs
      refine ⟨b :: taken, rest, p', rfl, ?_, ?_, hrest⟩
      · rw [Transition.run_cons hstep]
        exact hrun
      · rw [List.append_cons]
        exact hdelivered
    · exact ⟨[], b :: bs, p, rfl, rfl, (List.append_nil done).symm ▸ h, .inr hserving⟩

theorem fateOf_append (bs bs' : List Batch) (i : Nat) :
    fateOf (bs ++ bs') i = (fateOf bs i).or (fateOf bs' i) := by
  rw [fateOf, List.findSome?_append]
  rfl

theorem handedEach_append {a : Nat} {bs bs' : List Batch} (h : HandedEach id log a (bs ++ bs')) :
    ∃ a', HandedEach id log a' bs' := by
  induction bs generalizing a with
  | nil => exact ⟨a, h⟩
  | cons b bs ih => exact ih h.2

/-- No batch says anything of an index that raft cannot have. -/
theorem fateOf_handed {a i : Nat} {bs : List Batch} (hlog : log.length < 2 ^ 64)
    (h : HandedEach id log a bs) (hi : 2 ^ 64 ≤ i) : fateOf bs i = none := by
  induction bs generalizing a with
  | nil => rfl
  | cons b bs ih =>
    obtain ⟨hb, hbs⟩ := h
    have hnone : b.fate i = none := by
      have hcommitted := hb.committed
      have hpos := hb.first_pos
      have hsnap : b.snapshot < 2 ^ 64 := by
        rcases hb.snapshot with hzero | ⟨-, hlt⟩
        · omega
        · exact hlt
      rw [Batch.fate, if_neg (by omega), if_neg (by omega)]
    rw [fateOf, List.findSome?_cons, hnone]
    exact ih hbs

/-- The loop takes every sequence of batches to its end, or to the highest index, where the bound
check wraps. The data sent is that of the normal entries above `start` that raft hands over before
a snapshot covers them, in the order of the log, and what comes of an index is settled up to the
applied index. -/
theorem sent_eq_dueData (id : Nat) (log : List EntryType) (hlog : log.length < 2 ^ 64) (start : Nat)
    (hstart : start < 2 ^ 64) (bs : List Batch) (hbs : HandedEach id log start bs) :
    ∃ taken rest p, bs = taken ++ rest ∧
      Transition.run (Publisher.ready id log) { appliedIndex := start } taken = some p ∧
      (rest = [] ∧ p.ended = none ∨ p.ended = some .fatal ∧ p.appliedIndex + 1 = 2 ^ 64) ∧
      p.data = dueData log bs start p.appliedIndex ∧
      ∀ i, start < i → (fateOf bs i ≠ none ↔ i ≤ p.appliedIndex) := by
  have hinit : Delivered log start [] { appliedIndex := start } := by
    refine ⟨le_rfl, hstart, fun i hi => iff_of_false (fun hne => hne rfl) hi.not_ge, ?_, .inl rfl⟩
    rw [dueData, Nat.sub_self]
    rfl
  obtain ⟨taken, rest, p, rfl, hrun, hdelivered, hrest⟩ := delivered_run hlog hinit hbs
  rw [List.nil_append] at hdelivered
  have hended : rest = [] ∧ p.ended = none ∨
      p.ended = some .fatal ∧ p.appliedIndex + 1 = 2 ^ 64 := by
    rcases hdelivered.ended with hnone | hfatal
    · exact .inl ⟨hrest.resolve_right (fun hne => hne hnone), hnone⟩
    · exact .inr hfatal
  -- what is left says nothing that is not settled
  have hfate : ∀ i, start < i → fateOf (taken ++ rest) i = fateOf taken i := by
    intro i hi
    rw [fateOf_append]
    rcases hended with ⟨rfl, -⟩ | ⟨-, htop⟩
    · exact Option.or_none
    · by_cases hle : i ≤ p.appliedIndex
      · obtain ⟨fate, hfate⟩ := Option.ne_none_iff_exists'.mp ((hdelivered.fated i hi).mpr hle)
        rw [hfate, Option.some_or]
      · obtain ⟨a, hleft⟩ := handedEach_append hbs
        rw [fateOf_handed hlog hleft (by omega), Option.or_none]
  refine ⟨taken, rest, p, rfl, hrun, hended, ?_, fun i hi => ?_⟩
  · rw [hdelivered.data, dueData, dueData]
    congr 1
    refine List.filter_congr fun i hi => ?_
    rw [hfate i (by have := List.mem_range'_1.mp hi; omega)]
  · rw [hfate i hi]
    exact hdelivered.fated i hi

/-! ## The event loop of a node -/

theorem entriesToApply_trim (a : Nat) (ents : List Entry) :
    entriesToApply a ents = (trim a ents).toOption := by
  unfold entriesToApply trim
  split
  · rfl
  · dsimp only
    split
    · rfl
    · split
      · next hlt =>
        rw [sliceFrom, if_pos hlt.le]
        rfl
      · rfl

/-- The event loop of a node is about to send what is sent here. -/
theorem publishEntries_loop {χ : Type} {n : Node χ} {p : Publisher} (ents : List Entry)
    (happlied : n.appliedIndex = p.appliedIndex) (hserving : p.ended = none) :
    let p' := p.publishEntries id ents
    match (n.publishEntries id ents).loop with
    | .stopped => p'.ended ≠ none
    | .trigger none => p'.sent = p.sent ∧
        (n.publishEntries id ents).appliedIndex = p'.appliedIndex ∧ p'.ended = none
    | .publish data last =>
        p'.sent = p.sent ++ [.commit data] ∧ last = p'.appliedIndex ∧ p'.ended = none
    | _ => False := by
  unfold Node.publishEntries Publisher.publishEntries
  rw [happlied, entriesToApply_trim]
  cases trim p.appliedIndex ents with
  | error ending => exact Option.some_ne_none ending
  | ok ents =>
    cases ents with
    | nil => exact ⟨rfl, rfl, hserving⟩
    | cons e es =>
      dsimp only [Except.toOption]
      cases entriesData id (e :: es) with
      | none => exact Option.some_ne_none _
      | some data =>
        cases data with
        | nil => exact ⟨rfl, rfl, hserving⟩
        | cons d data => exact ⟨rfl, rfl, hserving⟩

/-! The first two entries come again in the second batch; the third has a snapshot of index 3 and
hands entry 4 over after it. -/

def fourEntries : List EntryType :=
  [.normal none, .empty, .confChange none, .normal (some ⟨.UNKNOWN, none⟩)]

def threeBatches : List Batch := [⟨0, 1, 1⟩, ⟨0, 1, 2⟩, ⟨3, 3, 2⟩]

theorem threeBatches_sent :
    ∃ taken rest p, threeBatches = taken ++ rest ∧
      Transition.run (Publisher.ready 1 fourEntries) { appliedIndex := 0 } taken = some p ∧
      (rest = [] ∧ p.ended = none ∨ p.ended = some .fatal ∧ p.appliedIndex + 1 = 2 ^ 64) ∧
      p.data = dueData fourEntries threeBatches 0 p.appliedIndex ∧
      ∀ i, 0 < i → (fateOf threeBatches i ≠ none ↔ i ≤ p.appliedIndex) := by
  have hstays : ∀ type ∈ fourEntries, type ≠ .confChange (some 1) := by
    intro type htype heq
    subst heq
    simp [fourEntries] at htype
  have hhanded : ∀ a b, (b.snapshot = 0 ∨ a < b.snapshot ∧ b.snapshot < 2 ^ 64) →
      1 ≤ b.first → b.first ≤ max a b.snapshot + 1 → b.first - 1 + b.count ≤ 4 →
        Handed 1 fourEntries a b := fun a b hsnap hpos hle hin =>
    ⟨hsnap, hpos, hle, hin, fun type htype =>
      hstays type (List.mem_of_mem_drop (List.mem_of_mem_take htype))⟩
  refine sent_eq_dueData 1 fourEntries (by decide) 0 (by decide) threeBatches ?_
  exact ⟨hhanded _ _ (by decide) (by decide) (by decide) (by decide),
    hhanded _ _ (by decide) (by decide) (by decide) (by decide),
    hhanded _ _ (by decide) (by decide) (by decide) (by decide), trivial⟩

end Batches

end Cassem.KV.EventLoop
