import Mathlib.Data.List.Basic
import Mathlib.Order.BoundedOrder.Basic
import Mathlib.Order.Lattice

/-!
# Listings that are read page by page

A listing in increasing order is asked for from a seek on, and comes in pages that say where the
next one begins. What is done with the entries of all pages, until one of them makes it stop, is
what would be done with the rest of the listing at once.
-/

namespace Cassem.Lib.Paging

universe u v w x

/-! ## Visitors -/

section Visitor

variable {σ : Type u} {α : Type v} (visit : α → σ → σ × Bool)

/-- Visit one after another, up to the first that says to stop. -/
def visitAll : List α → σ → σ × Bool
  | [], s => (s, true)
  | a :: as, s => if (visit a s).2 then visitAll as (visit a s).1 else visit a s

theorem visitAll_append (as bs : List α) (s : σ) :
    visitAll visit (as ++ bs) s =
      if (visitAll visit as s).2 then visitAll visit bs (visitAll visit as s).1
      else visitAll visit as s := by
  induction as generalizing s with
  | nil => rfl
  | cons a as ih =>
    rw [List.cons_append, visitAll, visitAll]
    by_cases hv : (visit a s).2 = true
    · rw [if_pos hv, if_pos hv]
      exact ih _
    · rw [if_neg hv, if_neg hv, if_neg hv]

variable {visit}

theorem visitAll_invariant {I : σ → Prop} (hinv : ∀ a s, I s → I (visit a s).1) (as : List α)
    {s : σ} (hs : I s) : I (visitAll visit as s).1 := by
  induction as generalizing s with
  | nil => exact hs
  | cons a as ih =>
    rw [visitAll]
    split
    · exact ih (hinv a s hs)
    · exact hinv a s hs

/-- A visitor that counts, and stops at the limit, visits as many as are left to it. -/
theorem visitAll_counted {count : σ → Nat} {limit : Nat}
    (hcount : ∀ a s, count (visit a s).1 = count s + 1)
    (hstop : ∀ a s, (visit a s).2 = decide (count s + 1 < limit)) (as : List α) {s : σ}
    (hs : count s < limit) :
    visitAll visit as s = ((as.take (limit - count s)).foldl (fun s a => (visit a s).1) s,
      decide (as.length < limit - count s)) := by
  induction as generalizing s with
  | nil =>
    have hleft : 0 < limit - count s := by omega
    simp [visitAll, hleft]
  | cons a as ih =>
    have hc := hcount a s
    obtain ⟨n, hn⟩ : ∃ n, limit - count s = n + 1 := ⟨limit - count s - 1, by omega⟩
    rw [visitAll, hstop, hn, List.take_succ_cons, List.foldl_cons, List.length_cons]
    by_cases hlt : count s + 1 < limit
    · have hrest : limit - count (visit a s).1 = n := by omega
      rw [if_pos (decide_eq_true hlt), ih (by omega), hrest]
      simp
    · obtain rfl : n = 0 := by omega
      have hfalse : (visit a s).2 = false := by
        rw [hstop]
        exact decide_eq_false hlt
      rw [if_neg (by simp [hlt]), Prod.ext_iff]
      exact ⟨rfl, by simp [hfalse]⟩

end Visitor

/-! ## Pages -/

/-- What a page says about the rest: none is left, it begins here, or neither. -/
inductive After (κ : Type u) where
  | last
  | more (seek : κ)
  | stuck

structure Page (κ : Type u) where
  leaves : List κ
  after : After κ

section Scan

variable {σ : Type u} {κ : Type v} {γ : Type w}

/-- One entry after another, each with what the one before it hands on; an entry can stop the
scan, or can fail to come to an end. -/
def scanLeaves (leaf : γ → κ → σ → Option (σ × Option γ)) : List κ → γ → σ → Option (σ × Option γ)
  | [], active, s => some (s, some active)
  | k :: ks, active, s =>
      match leaf active k s with
      | none => none
      | some (s', none) => some (s', none)
      | some (s', some active') => scanLeaves leaf ks active' s'

/-- Page after page, from a seek on. The first begins with `active`, all others afresh. -/
def scanPages (range : σ → κ → Option (Page κ)) (leaf : γ → κ → σ → Option (σ × Option γ))
    (fresh : γ) : Nat → κ → γ → σ → Option (σ × Bool)
  | 0, _, _, _ => none
  | fuel + 1, seek, active, s =>
      match range s seek with
      | none => some (s, false)
      | some page =>
          match scanLeaves leaf page.leaves active s with
          | none => none
          | some (s', none) => some (s', false)
          | some (s', some _) =>
              match page.after with
              | .last => some (s', true)
              | .more seek' => scanPages range leaf fresh fuel seek' fresh s'
              | .stuck => some (s', false)

variable {range : σ → κ → Option (Page κ)} {leaf leaf' : γ → κ → σ → Option (σ × Option γ)}
  {fresh : γ}

theorem scanLeaves_stable
    (hleaf : ∀ active k s r, leaf active k s = some r → leaf' active k s = some r) {ks : List κ}
    {active : γ} {s : σ} {r : σ × Option γ} (h : scanLeaves leaf ks active s = some r) :
    scanLeaves leaf' ks active s = some r := by
  induction ks generalizing active s with
  | nil => exact h
  | cons k ks ih =>
    rw [scanLeaves] at h ⊢
    cases hk : leaf active k s with
    | none =>
      rw [hk] at h
      cases h
    | some r' =>
      obtain ⟨s', after⟩ := r'
      rw [hk] at h
      rw [hleaf active k s _ hk]
      cases after with
      | none => exact h
      | some active' => exact ih h

/-- A scan that has come to its end does so with more fuel, also for its entries. -/
theorem scanPages_stable
    (hleaf : ∀ active k s r, leaf active k s = some r → leaf' active k s = some r)
    {fuel more : Nat} (hle : fuel ≤ more) {seek : κ} {active : γ} {s : σ} {r : σ × Bool}
    (h : scanPages range leaf fresh fuel seek active s = some r) :
    scanPages range leaf' fresh more seek active s = some r := by
  induction fuel generalizing more seek active s with
  | zero => cases h
  | succ fuel ih =>
    obtain ⟨more, rfl⟩ : ∃ m, more = m + 1 := ⟨more - 1, by omega⟩
    rw [scanPages] at h ⊢
    cases hpage : range s seek with
    | none =>
      rw [hpage] at h
      exact h
    | some page =>
      rw [hpage] at h
      dsimp only at h ⊢
      cases hleaves : scanLeaves leaf page.leaves active s with
      | none =>
        rw [hleaves] at h
        cases h
      | some r' =>
        obtain ⟨s', after⟩ := r'
        rw [hleaves] at h
        rw [scanLeaves_stable hleaf hleaves]
        cases after with
        | none => exact h
        | some active' =>
          dsimp only at h ⊢
          cases hafter : page.after with
          | more seek' =>
            rw [hafter] at h
            exact ih (Nat.le_of_succ_le_succ hle) h
          | _ =>
            rw [hafter] at h
            exact h

end Scan

section Listing

variable {κ : Type v} {μ : Type w} [LinearOrder κ]

def upFrom (names : List κ) (seek : κ) : List κ := names.filter fun k => seek ≤ k

/-- The page of a listing in pages of `n`. -/
def pageOf (names : List κ) (n : Nat) (seek : κ) : Page κ where
  leaves := (upFrom names seek).take n
  after :=
    match (upFrom names seek).drop n with
    | [] => .last
    | k :: _ => .more k

/-- The same of items that have names. -/
def itemsFrom (name : μ → κ) (items : List μ) (seek : κ) : List μ :=
  items.filter fun m => seek ≤ name m

theorem le_of_mem_upFrom {names : List κ} {seek k : κ} (h : k ∈ upFrom names seek) : seek ≤ k :=
  of_decide_eq_true (List.mem_filter.mp h).2

theorem itemsFrom_bot [OrderBot κ] (name : μ → κ) (items : List μ) :
    itemsFrom name items ⊥ = items :=
  List.filter_eq_self.mpr fun _ _ => decide_eq_true bot_le

theorem upFrom_bot [OrderBot κ] (names : List κ) : upFrom names ⊥ = names := itemsFrom_bot id names

theorem pairwise_upFrom {names : List κ} (h : names.Pairwise (· < ·)) (seek : κ) :
    (upFrom names seek).Pairwise (· < ·) := h.filter _

/-- The items from one of them on. -/
theorem itemsFrom_eq_of_append {name : μ → κ} {items as bs : List μ} {m : μ}
    (h : items.Pairwise fun x y => name x < name y) {seek : κ}
    (heq : itemsFrom name items seek = as ++ m :: bs) :
    itemsFrom name items (name m) = m :: bs := by
  have hsorted : (itemsFrom name items seek).Pairwise fun x y => name x < name y := h.filter _
  have hmem : m ∈ itemsFrom name items seek := by
    rw [heq]
    exact List.mem_append_right _ List.mem_cons_self
  have htwice : itemsFrom name items (name m) =
      itemsFrom name (itemsFrom name items seek) (name m) := by
    unfold itemsFrom
    rw [List.filter_filter]
    refine List.filter_congr fun y _ => ?_
    have hle : seek ≤ name m := of_decide_eq_true (List.mem_filter.mp hmem).2
    by_cases hk : name m ≤ name y
    · simp [hk, hle.trans hk]
    · simp [hk]
  rw [heq] at hsorted
  obtain ⟨-, hrest, hcross⟩ := List.pairwise_append.mp hsorted
  rw [htwice, heq, itemsFrom, List.filter_append]
  have hbefore : as.filter (fun y => decide (name m ≤ name y)) = [] := by
    rw [List.filter_eq_nil_iff]
    intro y hy hk
    exact absurd (of_decide_eq_true hk) (not_le.mpr (hcross y hy m List.mem_cons_self))
  have hfrom : (m :: bs).filter (fun y => decide (name m ≤ name y)) = m :: bs := by
    rw [List.filter_eq_self]
    intro y hy
    rcases List.mem_cons.mp hy with rfl | hy
    · exact decide_eq_true le_rfl
    · exact decide_eq_true ((List.pairwise_cons.mp hrest).1 y hy).le
  rw [hbefore, hfrom, List.nil_append]

/-- What is made of the items and keeps their names. -/
theorem filterMap_itemsFrom {ν : Type x} {name : μ → κ} {name' : ν → κ} {f : μ → Option ν}
    {items : List μ} (hname : ∀ m ∈ items, ∀ m', f m = some m' → name' m' = name m) (seek : κ) :
    (itemsFrom name items seek).filterMap f = itemsFrom name' (items.filterMap f) seek := by
  unfold itemsFrom
  rw [List.filterMap_filter, List.filter_filterMap]
  refine List.filterMap_congr fun m hm => ?_
  cases hf : f m with
  | none => simp
  | some m' =>
    have hsame := hname m hm m' hf
    by_cases hle : seek ≤ name m <;> simp [Option.filter, hsame, hle]

theorem upFrom_eq_of_append {names as bs : List κ} {k : κ} (h : names.Pairwise (· < ·))
    {seek : κ} (heq : upFrom names seek = as ++ k :: bs) : upFrom names k = k :: bs :=
  have hid : itemsFrom id names seek = as ++ k :: bs := heq
  itemsFrom_eq_of_append h hid

end Listing

/-! ## Following the pages -/

section Follow

variable {κ : Type u} {ρ : Type v} {ε : Type w}

/-- Page after page, until one names no next. With too little fuel this does not come to its end. -/
def follow (read : Nat → κ → Option (Except ε ρ)) (next : ρ → Option κ) :
    Nat → Nat → κ → Option (Except ε (List ρ))
  | 0, _, _ => none
  | fuel + 1, n, seek =>
      match read n seek with
      | none => none
      | some (.error err) => some (.error err)
      | some (.ok page) =>
          match next page with
          | none => some (.ok [page])
          | some seek' => (follow read next fuel (n + 1) seek').map (Except.map (page :: ·))

/-- The pages that are read one after another have all the items from the first seek on, each page
those from its own seek on. -/
theorem follow_complete {μ : Type x} [LinearOrder κ] {name : μ → κ} {items : List μ}
    (hsorted : items.Pairwise fun x y => name x < name y) {limit : Nat} (hlimit : 0 < limit)
    {page : κ → ρ} {next : ρ → Option κ}
    (hnext : ∀ seek, next (page seek) = ((itemsFrom name items seek).drop limit).head?.map name)
    (seek : κ) :
    ∃ seeks : List κ, (∀ read : Nat → κ → Option (Except ε ρ),
        (∀ n seek, read n seek = some (.ok (page seek))) →
        ∀ fuel n, (itemsFrom name items seek).length < fuel →
          follow read next fuel n seek = some (.ok (seeks.map page))) ∧
      (seeks.flatMap fun s => (itemsFrom name items s).take limit) = itemsFrom name items seek := by
  have hsplit := List.take_append_drop limit (itemsFrom name items seek)
  cases hdrop : (itemsFrom name items seek).drop limit with
  | nil =>
    rw [hdrop, List.append_nil] at hsplit
    refine ⟨[seek], fun read hread fuel n hfuel => ?_, ?_⟩
    · obtain ⟨fuel, rfl⟩ : ∃ m, fuel = m + 1 := ⟨fuel - 1, by omega⟩
      simp [follow, hread, hnext, hdrop]
    · rw [List.flatMap_singleton, hsplit]
  | cons m bs =>
    rw [hdrop] at hsplit
    have hrest := itemsFrom_eq_of_append hsorted hsplit.symm
    have hshorter : (itemsFrom name items (name m)).length < (itemsFrom name items seek).length := by
      have hlen := congrArg List.length hdrop
      rw [List.length_drop, List.length_cons] at hlen
      rw [hrest, List.length_cons]
      omega
    obtain ⟨seeks, hseeks, hall⟩ := follow_complete hsorted hlimit hnext (name m)
    refine ⟨seek :: seeks, fun read hread fuel n hfuel => ?_, ?_⟩
    · obtain ⟨fuel, rfl⟩ : ∃ m, fuel = m + 1 := ⟨fuel - 1, by omega⟩
      have hlater := hseeks read hread fuel (n + 1) (by omega)
      simp [follow, hread, hnext, hdrop, hlater, Except.map]
    · rw [List.flatMap_cons, hall, hrest, hsplit]
  termination_by (itemsFrom name items seek).length

end Follow

/-! ## A scan of a listing -/

section Reads

variable {σ : Type u} {α : Type v} (visit : α → σ → σ × Bool) (fails : σ → Prop)

/-- The visits that a scan makes: all of them, or those before a page that failed. -/
def Reads (as : List α) (s : σ) (r : σ × Bool) : Prop :=
  r = visitAll visit as s ∨
    ∃ bs, bs <+: as ∧ (visitAll visit bs s).2 = true ∧ r = ((visitAll visit bs s).1, false) ∧
      fails r.1

variable {visit fails} {as bs : List α} {s : σ} {r r' : σ × Bool}

theorem Reads.failed (as : List α) (h : fails s) : Reads visit fails as s (s, false) :=
  .inr ⟨[], List.nil_prefix, rfl, rfl, h⟩

theorem Reads.stop (h : Reads visit fails as s r) (hstop : r.2 = false) (bs : List α) :
    Reads visit fails (as ++ bs) s r := by
  rcases h with rfl | ⟨cs, hcs, hrest⟩
  · left
    rw [visitAll_append, if_neg (by rw [hstop]; exact Bool.false_ne_true)]
  · exact .inr ⟨cs, hcs.trans (List.prefix_append as bs), hrest⟩

theorem Reads.append (h : Reads visit fails as s r) (hmore : r.2 = true)
    (h' : Reads visit fails bs r.1 r') : Reads visit fails (as ++ bs) s r' := by
  rcases h with rfl | ⟨cs, -, -, rfl, -⟩
  · rcases h' with rfl | ⟨cs, hcs, hall, hr, hfail⟩
    · left
      rw [visitAll_append, if_pos hmore]
    · refine .inr ⟨as ++ cs, (List.prefix_append_right_inj as).mpr hcs, ?_, ?_, hfail⟩
      · rw [visitAll_append, if_pos hmore]
        exact hall
      · rw [visitAll_append, if_pos hmore]
        exact hr
  · cases hmore

theorem Reads.invariant {I : σ → Prop} (hinv : ∀ a s, I s → I (visit a s).1) (hs : I s)
    (h : Reads visit fails as s r) : I r.1 := by
  rcases h with rfl | ⟨bs, -, -, rfl, -⟩
  · exact visitAll_invariant hinv as hs
  · exact visitAll_invariant hinv bs hs

end Reads

section Complete

variable {σ : Type u} {κ : Type v} {γ : Type w} {α : Type x} [LinearOrder κ]
  {visit : α → σ → σ × Bool} {fails I : σ → Prop} (hinv : ∀ a s, I s → I (visit a s).1)
  {leaf : γ → κ → σ → Option (σ × Option γ)} {items : γ → κ → List α} {next : γ → κ → γ} {fresh : γ}

/-- After `seek`, what is handed on makes no difference. -/
def Spent (items : γ → κ → List α) (fresh : γ) (active : γ) (seek : κ) : Prop :=
  ∀ k, seek < k → items active k = items fresh k

/-- Each entry that is listed is read as its items are. -/
def LeafReads (visit : α → σ → σ × Bool) (fails I : σ → Prop)
    (leaf : γ → κ → σ → Option (σ × Option γ)) (items : γ → κ → List α) (next : γ → κ → γ)
    (names : List κ) : Prop :=
  ∀ active, ∀ k ∈ names, ∀ s, I s → ∃ r,
    leaf active k s = some (r.1, if r.2 then some (next active k) else none) ∧
      Reads visit fails (items active k) s r

variable {names : List κ} (hleaf : LeafReads visit fails I leaf items next names)
  (hnext : ∀ active k, Spent items fresh active k → Spent items fresh (next active k) k)

include hinv hleaf hnext

theorem scanLeaves_reads {ks : List κ} (hnames : ∀ k ∈ ks, k ∈ names)
    (hsorted : ks.Pairwise (· < ·)) {active : γ} {seek : κ} (hseek : ∀ k ∈ ks, seek ≤ k)
    (hspent : Spent items fresh active seek) {s : σ} (hs : I s) :
    ∃ r active', scanLeaves leaf ks active s = some (r.1, if r.2 then some active' else none) ∧
      Reads visit fails (ks.flatMap (items active)) s r := by
  induction ks generalizing active seek s with
  | nil => exact ⟨(s, true), active, rfl, .inl rfl⟩
  | cons k ks ih =>
    obtain ⟨hk, hks⟩ := List.pairwise_cons.mp hsorted
    have hafter : Spent items fresh active k :=
      fun y hy => hspent y ((hseek k List.mem_cons_self).trans_lt hy)
    have hlater : ∀ y ∈ ks, items (next active k) y = items active y :=
      fun y hy => (hnext active k hafter y (hk y hy)).trans (hafter y (hk y hy)).symm
    have hmap : ks.flatMap (items (next active k)) = ks.flatMap (items active) :=
      List.flatMap_congr hlater
    obtain ⟨⟨s', more⟩, hr, hreads⟩ := hleaf active k (hnames k List.mem_cons_self) s hs
    rw [scanLeaves, hr, List.flatMap_cons]
    cases more with
    | true =>
      obtain ⟨r, active', heq, hrest⟩ := ih (fun y hy => hnames y (List.mem_cons_of_mem _ hy)) hks
        (fun y hy => (hk y hy).le) (hnext active k hafter) (hreads.invariant hinv hs)
      rw [hmap] at hrest
      exact ⟨r, active', heq, hreads.append rfl hrest⟩
    | false => exact ⟨(s', false), active, rfl, hreads.stop rfl _⟩

/-- A scan visits what the listing has from the seek on, up to a page that fails. It needs no
more pages than there are entries, and one. -/
theorem scanPages_reads {range : σ → κ → Option (Page κ)} {n : Nat}
    (hsorted : names.Pairwise (· < ·)) (hn : 0 < n)
    (hrange : ∀ seek s, I s → range s seek = some (pageOf names n seek) ∨
      (range s seek = none ∧ fails s))
    {fuel : Nat} {seek : κ} (hfuel : (upFrom names seek).length < fuel) {active : γ}
    (hspent : Spent items fresh active seek) {s : σ} (hs : I s) :
    ∃ r, scanPages range leaf fresh fuel seek active s = some r ∧
      Reads visit fails ((upFrom names seek).flatMap (items active)) s r := by
  induction fuel generalizing seek active s with
  | zero => exact absurd hfuel (Nat.not_lt_zero _)
  | succ fuel ih =>
    rw [scanPages]
    rcases hrange seek s hs with hpage | ⟨hnone, hfail⟩
    · have hup := pairwise_upFrom hsorted seek
      have hsplit := List.take_append_drop n (upFrom names seek)
      have hlisted : ∀ k ∈ (upFrom names seek).take n, k ∈ names :=
        fun k hk => (List.mem_filter.mp (List.mem_of_mem_take hk)).1
      have hfrom : ∀ k ∈ (upFrom names seek).take n, seek ≤ k :=
        fun k hk => le_of_mem_upFrom (List.mem_of_mem_take hk)
      obtain ⟨⟨s', more⟩, active', hleaves, hreads⟩ := scanLeaves_reads hinv hleaf hnext
        hlisted (hup.sublist (List.take_sublist n _)) hfrom hspent hs
      have hkept := hreads.invariant hinv hs
      rw [hpage, ← hsplit, List.flatMap_append]
      cases more with
      | false =>
        refine ⟨(s', false), ?_, hreads.stop rfl _⟩
        simp only [pageOf, hleaves, Bool.false_eq_true, if_false]
      | true =>
        have hstep : scanLeaves leaf ((upFrom names seek).take n) active s =
            some (s', some active') := hleaves
        simp only [pageOf, hstep]
        cases hdrop : (upFrom names seek).drop n with
        | nil => exact ⟨(s', true), rfl, hreads.append rfl (.inl rfl)⟩
        | cons k bs =>
          rw [hdrop] at hsplit
          have hrest := upFrom_eq_of_append hsorted hsplit.symm
          have hleft := congrArg List.length hdrop
          rw [List.length_drop, List.length_cons] at hleft
          have hlen : (upFrom names k).length < fuel := by
            rw [hrest, List.length_cons]
            omega
          -- the first page has an entry, so the later ones lie after the seek
          have hlater : ∀ y ∈ k :: bs, items fresh y = items active y := by
            intro y hy
            have hpos : 0 < ((upFrom names seek).take n).length := by
              rw [List.length_take]
              omega
            obtain ⟨x, hx⟩ := List.exists_mem_of_length_pos hpos
            rw [← hsplit] at hup
            have hlt := (List.pairwise_append.mp hup).2.2 x hx y hy
            exact (hspent y ((hfrom x hx).trans_lt hlt)).symm
          obtain ⟨r, heq, hreads'⟩ := ih hlen (fun _ _ => rfl) hkept
          rw [hrest, List.flatMap_congr hlater] at hreads'
          exact ⟨r, heq, hreads.append rfl hreads'⟩
    · rw [hnone]
      exact ⟨(s, false), rfl, .failed _ hfail⟩

end Complete

end Cassem.Lib.Paging
