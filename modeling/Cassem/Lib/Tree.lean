import Mathlib.Data.List.Infix
import Mathlib.Data.List.Basic
import Cassem.Lib.SortedMap

/-!
# Trees of named directories and values

A node is a value or a directory of named children. A path from a node selects
a descendant, and `look` reads the kind, and the value, found there. Updates go
through a directory of the tree and are described by what they do to `look`.
A `Tree` carries the proof that it is a directory and that every directory in it
is sorted, so two trees with the same `look` are equal.
-/

namespace Cassem.Lib

universe u v

inductive Node (κ : Type u) (α : Type v) where
  | value (v : α)
  | bucket (kids : List (κ × Node κ α))

/-- What stands at a path: a directory, or a value. -/
inductive Cell (α : Type v) where
  | dir
  | val (v : α)
  deriving DecidableEq, Repr

def Cell.isDir {α : Type v} : Cell α → Bool
  | .dir => true
  | .val _ => false

namespace Node

variable {κ : Type u} {α : Type v} [LinearOrder κ]

def cell : Node κ α → Cell α
  | .value v => .val v
  | .bucket _ => .dir

/-- A new node of the given kind. -/
def ofCell : Cell α → Node κ α
  | .dir => .bucket []
  | .val v => .value v

def find? : Node κ α → List κ → Option (Node κ α)
  | n, [] => some n
  | .value _, _ :: _ => none
  | .bucket kids, k :: ks =>
      match SortedMap.lookup k kids with
      | none => none
      | some c => c.find? ks

def look (n : Node κ α) (p : List κ) : Option (Cell α) := (n.find? p).map cell

/-- Rewrite the children of the directory at a path; no directory there, no change. -/
def atBucket (f : List (κ × Node κ α) → List (κ × Node κ α)) : Node κ α → List κ → Node κ α
  | .value v, _ => .value v
  | .bucket kids, [] => .bucket (f kids)
  | .bucket kids, k :: ks =>
      match SortedMap.lookup k kids with
      | none => .bucket kids
      | some c => .bucket (SortedMap.insert k (atBucket f c ks) kids)

/-- The names in a directory, in order, with what stands there. -/
def kids : Node κ α → List (κ × Cell α)
  | .value _ => []
  | .bucket kids => kids.map fun e => (e.1, e.2.cell)

mutual

/-- Every directory of the tree lists its children in increasing name order. -/
def WF : Node κ α → Prop
  | .value _ => True
  | .bucket kids => SortedMap.Sorted kids ∧ WFKids kids

def WFKids : List (κ × Node κ α) → Prop
  | [] => True
  | e :: es => e.2.WF ∧ WFKids es

end

@[simp] theorem look_nil (n : Node κ α) : n.look [] = some n.cell := by
  simp [look, find?]

@[simp] theorem look_value_cons (v : α) (k : κ) (ks : List κ) :
    (Node.value v : Node κ α).look (k :: ks) = none := by
  simp [look, find?]

theorem look_bucket_cons (kids : List (κ × Node κ α)) (k : κ) (ks : List κ) :
    (Node.bucket kids).look (k :: ks) = (SortedMap.lookup k kids).bind (fun c => c.look ks) := by
  simp only [look, find?]
  cases SortedMap.lookup k kids <;> rfl

theorem look_append (n : Node κ α) (p q : List κ) :
    n.look (p ++ q) = (n.find? p).bind (fun c => c.look q) := by
  induction p generalizing n with
  | nil => simp [find?]
  | cons k ks ih =>
    cases n with
    | value v => simp [find?]
    | bucket kids =>
      rw [List.cons_append, look_bucket_cons, find?]
      cases hk : SortedMap.lookup k kids with
      | none => rfl
      | some c => simpa [hk] using ih c

/-- Only a directory has descendants. -/
theorem look_dir_of_append {n : Node κ α} {p q : List κ} (hq : q ≠ [])
    (h : n.look (p ++ q) ≠ none) : n.look p = some .dir := by
  rw [look_append] at h
  obtain ⟨k, ks, rfl⟩ := List.exists_cons_of_ne_nil hq
  cases hf : n.find? p with
  | none => simp [hf] at h
  | some c =>
    cases c with
    | value v => simp [hf] at h
    | bucket kids => simp [look, hf, cell]

theorem wfKids_iff {kids : List (κ × Node κ α)} : WFKids kids ↔ ∀ e ∈ kids, e.2.WF := by
  induction kids with
  | nil => simp [WFKids]
  | cons e es ih => simp [WFKids, ih]

theorem wf_bucket_iff {kids : List (κ × Node κ α)} :
    (Node.bucket kids).WF ↔ SortedMap.Sorted kids ∧ ∀ e ∈ kids, e.2.WF := by
  rw [WF, wfKids_iff]

theorem wf_ofCell (c : Cell α) : (ofCell c : Node κ α).WF := by
  cases c with
  | dir => exact wf_bucket_iff.mpr ⟨SortedMap.sorted_nil, by simp⟩
  | val v => exact trivial

theorem look_ofCell (c : Cell α) (p : List κ) :
    (ofCell c : Node κ α).look p = if p = [] then some c else none := by
  cases p with
  | nil => cases c <;> rfl
  | cons k ks => cases c <;> rfl

theorem wf_lookup {kids : List (κ × Node κ α)} (h : (Node.bucket kids).WF) {k : κ}
    {c : Node κ α} (hk : SortedMap.lookup k kids = some c) : c.WF :=
  (wf_bucket_iff.mp h).2 _ (SortedMap.mem_of_lookup hk)

theorem wf_insert {kids : List (κ × Node κ α)} (h : (Node.bucket kids).WF) (k : κ)
    {c : Node κ α} (hc : c.WF) : (Node.bucket (SortedMap.insert k c kids)).WF := by
  obtain ⟨hs, hk⟩ := wf_bucket_iff.mp h
  refine wf_bucket_iff.mpr ⟨SortedMap.sorted_insert hs, fun e he => ?_⟩
  rcases SortedMap.mem_insert he with rfl | he
  · exact hc
  · exact hk e he

theorem wf_erase {kids : List (κ × Node κ α)} (h : (Node.bucket kids).WF) (k : κ) :
    (Node.bucket (SortedMap.erase k kids)).WF := by
  obtain ⟨hs, hk⟩ := wf_bucket_iff.mp h
  exact wf_bucket_iff.mpr ⟨SortedMap.sorted_erase hs, fun e he => hk e (List.mem_of_mem_filter he)⟩

theorem wf_atBucket {f : List (κ × Node κ α) → List (κ × Node κ α)}
    (hf : ∀ kids, (Node.bucket kids).WF → (Node.bucket (f kids)).WF)
    {n : Node κ α} (h : n.WF) (p : List κ) : (atBucket f n p).WF := by
  induction p generalizing n with
  | nil =>
    cases n with
    | value v => exact h
    | bucket kids => exact hf kids h
  | cons k ks ih =>
    cases n with
    | value v => exact h
    | bucket kids =>
      rw [atBucket]
      cases hk : SortedMap.lookup k kids with
      | none => exact h
      | some c => exact wf_insert h k (ih (wf_lookup h hk))

theorem wf_find {n m : Node κ α} (h : n.WF) {p : List κ} (hf : n.find? p = some m) : m.WF := by
  induction p generalizing n with
  | nil =>
    cases hf
    exact h
  | cons k ks ih =>
    cases n with
    | value v => simp [find?] at hf
    | bucket kids =>
      rw [find?] at hf
      cases hk : SortedMap.lookup k kids with
      | none => simp [hk] at hf
      | some c =>
        rw [hk] at hf
        exact ih (wf_lookup h hk) hf

theorem look_of_mem_kids {n : Node κ α} (h : n.WF) {k : κ} {c : Cell α}
    (hm : (k, c) ∈ n.kids) : n.look [k] = some c := by
  cases n with
  | value v => simp [kids] at hm
  | bucket kids =>
    obtain ⟨⟨k', m⟩, hmem, heq⟩ := List.mem_map.mp hm
    obtain ⟨rfl, rfl⟩ := Prod.mk.inj heq
    rw [look_bucket_cons, SortedMap.lookup_of_mem (wf_bucket_iff.mp h).1 hmem, Option.bind_some,
      look_nil]

theorem sorted_kids {n : Node κ α} (h : n.WF) : SortedMap.Sorted n.kids := by
  cases n with
  | value v => exact SortedMap.sorted_nil
  | bucket kids => exact List.pairwise_map.mpr (wf_bucket_iff.mp h).1

theorem lookup_kids (n : Node κ α) (k : κ) : SortedMap.lookup k n.kids = n.look [k] := by
  cases n with
  | value v => rfl
  | bucket kids =>
    rw [look_bucket_cons, Node.kids]
    induction kids with
    | nil => rfl
    | cons e kids ih =>
      obtain ⟨k', c⟩ := e
      rw [List.map_cons, SortedMap.lookup_cons, SortedMap.lookup_cons, ih]
      split
      · exact (look_nil c).symm
      · rfl

theorem cell_atBucket (f : List (κ × Node κ α) → List (κ × Node κ α)) (n : Node κ α)
    (p : List κ) : (atBucket f n p).cell = n.cell := by
  cases n with
  | value v => cases p <;> rfl
  | bucket kids =>
    cases p with
    | nil => rfl
    | cons k ks =>
      rw [atBucket]
      cases SortedMap.lookup k kids <;> rfl

/-- Reading through an update of the directory at `p`: below `p` the rewritten
children answer, elsewhere nothing changes. -/
theorem look_atBucket {f : List (κ × Node κ α) → List (κ × Node κ α)} {n : Node κ α}
    {p : List κ} {kids : List (κ × Node κ α)} (h : n.find? p = some (.bucket kids))
    (q : List κ) :
    (atBucket f n p).look q =
      if p <+: q then (Node.bucket (f kids)).look (q.drop p.length) else n.look q := by
  induction p generalizing n q with
  | nil =>
    simp only [find?, Option.some.injEq] at h
    subst h
    simp [atBucket]
  | cons k ks ih =>
    cases n with
    | value v => simp [find?] at h
    | bucket kids₀ =>
      rw [find?] at h
      rw [atBucket]
      cases hk : SortedMap.lookup k kids₀ with
      | none => simp [hk] at h
      | some c =>
        simp only [hk] at h ⊢
        cases q with
        | nil => simp [cell]
        | cons k' q =>
          rw [look_bucket_cons, SortedMap.lookup_insert]
          by_cases hkk : k' = k
          · subst hkk
            simp only [↓reduceIte, Option.bind_some, ih h q, List.cons_prefix_cons, true_and,
              List.length_cons, List.drop_succ_cons, look_bucket_cons, hk]
          · simp [hkk, look_bucket_cons, Ne.symm hkk]

/-- Sorted trees are determined by what stands at each path. -/
theorem ext_of_look : ∀ {n m : Node κ α}, n.WF → m.WF → (∀ p, n.look p = m.look p) → n = m
  | .value v, m, _, _, h => by
    have h0 := h []
    cases m with
    | value w => simpa [cell] using h0
    | bucket kids => simp [cell] at h0
  | .bucket kids, m, hn, hm, h => by
    cases m with
    | value w => have h0 := h []; simp [cell] at h0
    | bucket kids' =>
      have hlookup : ∀ k, SortedMap.lookup k kids = SortedMap.lookup k kids' := by
        intro k
        have hpath : ∀ p, (SortedMap.lookup k kids).bind (fun c => c.look p) =
            (SortedMap.lookup k kids').bind (fun c => c.look p) := by
          intro p
          simpa only [look_bucket_cons] using h (k :: p)
        cases hk : SortedMap.lookup k kids with
        | none =>
          cases hk' : SortedMap.lookup k kids' with
          | none => rfl
          | some c' => have := hpath []; simp [hk, hk'] at this
        | some c =>
          cases hk' : SortedMap.lookup k kids' with
          | none => have := hpath []; simp [hk, hk'] at this
          | some c' =>
            have hmem := SortedMap.mem_of_lookup hk
            have hc : c = c' := ext_of_look (wf_lookup hn hk) (wf_lookup hm hk')
              (fun p => by simpa [hk, hk'] using hpath p)
            rw [hc]
      rw [SortedMap.ext_of_lookup (wf_bucket_iff.mp hn).1 (wf_bucket_iff.mp hm).1 hlookup]
termination_by n => sizeOf n
decreasing_by
  have hlt := List.sizeOf_lt_of_mem hmem
  simp only [Prod.mk.sizeOf_spec, Node.bucket.sizeOf_spec] at hlt ⊢
  omega

end Node

/-- A directory whose directories are all sorted. -/
structure Tree (κ : Type u) (α : Type v) [LinearOrder κ] where
  root : Node κ α
  wf : root.WF
  isDir : root.cell = .dir

namespace Tree

variable {κ : Type u} {α : Type v} [LinearOrder κ]

def empty : Tree κ α where
  root := .bucket []
  wf := Node.wf_bucket_iff.mpr ⟨SortedMap.sorted_nil, by simp⟩
  isDir := rfl

instance : Inhabited (Tree κ α) := ⟨empty⟩

def look (t : Tree κ α) (p : List κ) : Option (Cell α) := t.root.look p

/-- Bind `k` to a new leaf or a new empty directory under the directory `p`. -/
def put (t : Tree κ α) (p : List κ) (k : κ) (c : Cell α) : Tree κ α where
  root := Node.atBucket (SortedMap.insert k (Node.ofCell c)) t.root p
  wf := Node.wf_atBucket (fun _ hk => Node.wf_insert hk k (Node.wf_ofCell c)) t.wf p
  isDir := by rw [Node.cell_atBucket]; exact t.isDir

/-- Remove the child `k` of the directory `p`, with all that is below it. -/
def remove (t : Tree κ α) (p : List κ) (k : κ) : Tree κ α where
  root := Node.atBucket (SortedMap.erase k) t.root p
  wf := Node.wf_atBucket (fun _ hk => Node.wf_erase hk k) t.wf p
  isDir := by rw [Node.cell_atBucket]; exact t.isDir

/-- What a directory lists, in name order. -/
def kids (t : Tree κ α) (p : List κ) : List (κ × Cell α) :=
  match t.root.find? p with
  | none => []
  | some n => n.kids

@[simp] theorem look_root (t : Tree κ α) : t.look [] = some .dir := by
  rw [look, Node.look_nil, t.isDir]

theorem look_empty (p : List κ) :
    (empty : Tree κ α).look p = if p = [] then some .dir else none := by
  cases p with
  | nil => simp
  | cons k ks => simp [look, empty, Node.look_bucket_cons]

theorem look_dir_of_append {t : Tree κ α} {p q : List κ} (hq : q ≠ [])
    (h : t.look (p ++ q) ≠ none) : t.look p = some .dir :=
  Node.look_dir_of_append hq h

theorem look_of_mem_kids {t : Tree κ α} {p : List κ} {k : κ} {c : Cell α}
    (h : (k, c) ∈ t.kids p) : t.look (p ++ [k]) = some c := by
  unfold kids at h
  cases hf : t.root.find? p with
  | none => simp [hf] at h
  | some n =>
    rw [hf] at h
    rw [look, Node.look_append, hf, Option.bind_some]
    exact Node.look_of_mem_kids (Node.wf_find t.wf hf) h

theorem sorted_kids (t : Tree κ α) (p : List κ) : SortedMap.Sorted (t.kids p) := by
  unfold kids
  split
  · exact SortedMap.sorted_nil
  · next n hf => exact Node.sorted_kids (Node.wf_find t.wf hf)

/-- A directory lists what is found below it. -/
theorem lookup_kids (t : Tree κ α) (p : List κ) (k : κ) :
    SortedMap.lookup k (t.kids p) = t.look (p ++ [k]) := by
  rw [look, Node.look_append]
  unfold kids
  split
  · next hf => rw [hf]; rfl
  · next n hf => rw [hf, Node.lookup_kids]; rfl

theorem find_of_dir {t : Tree κ α} {p : List κ} (h : t.look p = some .dir) :
    ∃ kids, t.root.find? p = some (.bucket kids) := by
  rw [look, Node.look] at h
  cases hf : t.root.find? p with
  | none => simp [hf] at h
  | some c =>
    cases c with
    | value v => simp [hf, Node.cell] at h
    | bucket kids => exact ⟨kids, rfl⟩

omit [LinearOrder κ] in
theorem not_snoc_prefix (p : List κ) (k : κ) : ¬ p ++ [k] <+: p := fun h => by
  have hlen := h.length_le
  rw [List.length_append, List.length_singleton] at hlen
  omega

omit [LinearOrder κ] in
theorem snoc_prefix_iff {p q : List κ} {k : κ} :
    p ++ [k] <+: q ↔ p <+: q ∧ ∃ r, q.drop p.length = k :: r := by
  constructor
  · rintro ⟨r, rfl⟩
    exact ⟨⟨k :: r, by simp⟩, r, by simp⟩
  · rintro ⟨⟨s, rfl⟩, r, hr⟩
    rw [List.drop_left] at hr
    exact ⟨r, by simp [hr]⟩

/-- Below a directory, the tree is seen through what stands in it. -/
theorem look_below {t : Tree κ α} {p : List κ} {kids : List (κ × Node κ α)}
    (hf : t.root.find? p = some (.bucket kids)) (k : κ) (q : List κ) :
    t.look (p ++ k :: q) = (SortedMap.lookup k kids).bind fun c => c.look q := by
  rw [look, Node.look_append, hf, Option.bind_some, Node.look_bucket_cons]

omit [LinearOrder κ] in
theorem not_snoc_prefix_of_ne {p q : List κ} {k k' : κ} (hk : k' ≠ k) :
    ¬ p ++ [k] <+: p ++ k' :: q := by
  rw [snoc_prefix_iff, List.drop_left]
  rintro ⟨_, r, hr⟩
  exact hk (List.cons.inj hr).1

theorem look_put {t : Tree κ α} {p : List κ} (h : t.look p = some .dir) (k : κ) (c : Cell α)
    (q : List κ) :
    (t.put p k c).look q =
      if p ++ [k] = q then some c else if p ++ [k] <+: q then none else t.look q := by
  obtain ⟨kids, hf⟩ := find_of_dir h
  change (Node.atBucket _ t.root p).look q = _
  rw [Node.look_atBucket hf]
  by_cases hp : p <+: q
  · obtain ⟨s, rfl⟩ := hp
    rw [if_pos ⟨s, rfl⟩, List.drop_left]
    cases s with
    | nil => simp [Node.cell, not_snoc_prefix, h]
    | cons k' s =>
      rw [Node.look_bucket_cons, SortedMap.lookup_insert]
      by_cases hk : k' = k
      · subst hk
        rw [if_pos rfl, Option.bind_some, Node.look_ofCell]
        cases s with
        | nil => simp
        | cons k₂ s =>
          have hpre : p ++ [k'] <+: p ++ k' :: k₂ :: s := ⟨k₂ :: s, by simp⟩
          simp [hpre]
      · have hne : ¬ p ++ [k] <+: p ++ k' :: s := not_snoc_prefix_of_ne hk
        have hne' : p ++ [k] ≠ p ++ k' :: s := fun he => hne (he ▸ List.prefix_rfl)
        rw [if_neg hk, if_neg hne', if_neg hne, look_below hf]
  · have hne : ¬ p ++ [k] <+: q := fun hpre => hp ((List.prefix_append p [k]).trans hpre)
    have hne' : p ++ [k] ≠ q := fun he => hne (he ▸ List.prefix_rfl)
    rw [if_neg hp, if_neg hne', if_neg hne, look]

theorem look_remove {t : Tree κ α} {p : List κ} (h : t.look p = some .dir) (k : κ)
    (q : List κ) :
    (t.remove p k).look q = if p ++ [k] <+: q then none else t.look q := by
  obtain ⟨kids, hf⟩ := find_of_dir h
  change (Node.atBucket _ t.root p).look q = _
  rw [Node.look_atBucket hf]
  by_cases hp : p <+: q
  · obtain ⟨s, rfl⟩ := hp
    rw [if_pos ⟨s, rfl⟩, List.drop_left]
    cases s with
    | nil => simp [Node.cell, not_snoc_prefix, h]
    | cons k' s =>
      rw [Node.look_bucket_cons, SortedMap.lookup_erase]
      by_cases hk : k' = k
      · subst hk
        have hpre : p ++ [k'] <+: p ++ k' :: s := ⟨s, by simp⟩
        simp [hpre]
      · have hne : ¬ p ++ [k] <+: p ++ k' :: s := not_snoc_prefix_of_ne hk
        rw [if_neg hk, if_neg hne, look_below hf]
  · have hne : ¬ p ++ [k] <+: q := fun hpre => hp ((List.prefix_append p [k]).trans hpre)
    rw [if_neg hp, if_neg hne, look]

theorem ext_of_look {t t' : Tree κ α} (h : ∀ p, t.look p = t'.look p) : t = t' := by
  obtain ⟨n, hn, hd⟩ := t
  obtain ⟨n', hn', hd'⟩ := t'
  have heq : n = n' := Node.ext_of_look hn hn' h
  subst heq
  rfl

end Tree

end Cassem.Lib
