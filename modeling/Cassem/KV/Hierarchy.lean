import Cassem.KV.Storage

/-!
# The bolt storage is a hierarchical map

A key and a kind name one operation of `Lib.HierMap`, or none when the key is
refused whatever the store holds. `getKV`, `setKV` and `unsetKV` are described
through the shape of the tree only; the loop of `locateBucket` is followed once
for reading and once for creating.
-/

namespace Cassem.KV

open Lib Lib.HierMap

theorem look_closed (t : Store) : Closed t.look where
  root := Tree.look_root t
  parent _ _ hq h := Tree.look_dir_of_append hq h

theorem look_none_below {t : Store} {p q : List String} (h : t.look p ≠ some .dir) (hq : q ≠ []) :
    t.look (p ++ q) = none := by
  by_contra hne
  exact h (Tree.look_dir_of_append hq hne)

/-- Binding a name that is no directory changes what stands there and nothing else. -/
theorem look_put_leaf {t : Store} {b : Bucket} {k : String} (hb : t.look b = some .dir)
    (hk : t.look (b ++ [k]) ≠ some .dir) (c : Cell Entity) (q : List String) :
    (t.put b k c).look q = if q = b ++ [k] then some c else t.look q := by
  rw [Tree.look_put hb]
  by_cases hq : b ++ [k] = q
  · simp [hq]
  · rw [if_neg hq, if_neg (Ne.symm hq)]
    split
    · next hpre =>
      obtain ⟨r, rfl⟩ := hpre
      have hr : r ≠ [] := fun h => hq (by simp [h])
      exact (look_none_below hk hr).symm
    · rfl

theorem look_remove_leaf {t : Store} {b : Bucket} {k : String} (hb : t.look b = some .dir)
    (hk : t.look (b ++ [k]) ≠ some .dir) (q : List String) :
    (t.remove b k).look q = if q = b ++ [k] then none else t.look q := by
  rw [Tree.look_remove hb]
  by_cases hq : q = b ++ [k]
  · simp [hq]
  · rw [if_neg hq]
    split
    · next hpre =>
      obtain ⟨r, rfl⟩ := hpre
      have hr : r ≠ [] := fun h => hq (by simp [h])
      exact (look_none_below hk hr).symm
    · rfl

/-- The path a key names. -/
def keyPath (key : String) : List String := (keySplitter key).1 ++ [(keySplitter key).2]

/-- The position of the first empty node. -/
def firstEmpty (nodes : List String) : Option Nat := nodes.findIdx? (fun n => n = "")

/-- The operation a SET names, if any. -/
def setOp (key : String) (val : Entity) (dir : Bool) : Option (Op String Entity) :=
  let (nodes, leaf) := keySplitter key
  if nodes = [] ∨ isEmptyLeaf leaf = true ∨ "" ∈ nodes then none
  else if dir then some (.mkdir (keyPath key))
  else if leaf.utf8ByteSize > Bolt.MaxKeySize then none
  else some (.put (keyPath key) val)

/-- The operation an UNSET names, if any. An empty node is only met when the
directory two names up exists; otherwise the walk ends before it. -/
def unsetOp (key : String) (dir : Bool) : Option (Op String Entity) :=
  let (nodes, leaf) := keySplitter key
  if nodes = [] ∨ isEmptyLeaf leaf = true then none
  else match firstEmpty nodes with
    | some i => some (.probe (nodes.take (i - 1)))
    | none => if dir then some (.rmdir (keyPath key)) else some (.del (keyPath key))

/-! ## The walk of `locateBucket` -/

/-- Past the first node the position no longer matters. -/
theorem locateNodes_idx (create : Bool) (t : Store) (buk : Option Bucket) (n m : Nat)
    (nodes : List String) :
    locateNodes create t buk (n + 1) nodes = locateNodes create t buk (m + 1) nodes := by
  induction nodes generalizing t buk n m with
  | nil => rfl
  | cons node rest ih =>
    simp only [locateNodes, Nat.add_eq_zero_iff, one_ne_zero, and_false, ↓reduceIte]
    split
    · rfl
    · cases buk with
      | none => rfl
      | some b =>
        dsimp only
        split
        · exact ih _ _ _ _
        · split
          · split
            · rfl
            · exact ih _ _ _ _
          · exact ih _ _ _ _

/-- The first node is looked up at the root. -/
theorem locateNodes_start (create : Bool) (t : Store) (node : String) (rest : List String) :
    locateNodes create t none 0 (node :: rest) = locateNodes create t (some []) 1 (node :: rest) := by
  simp only [locateNodes, ↓reduceIte, one_ne_zero]
  split
  · rfl
  · split
    · exact locateNodes_idx create t _ 0 1 rest
    · split
      · split
        · rfl
        · exact locateNodes_idx create _ _ 0 1 rest
      · exact locateNodes_idx create t _ 0 1 rest

/-- Without creation the walk reads: it stops with an error at an empty node it
meets, and otherwise finds the directory or nothing. -/
theorem locateNodes_read (t : Store) (b : Bucket) (n : Nat) (nodes : List String)
    (hb : t.look b = some .dir) :
    locateNodes false t (some b) (n + 1) nodes =
      match firstEmpty nodes with
      | some i =>
          if t.look (b ++ nodes.take (i - 1)) = some .dir then .error ErrEmptyNode
          else .ok (t, none)
      | none =>
          .ok (t, if t.look (b ++ nodes) = some .dir then some (b ++ nodes) else none) := by
  induction nodes generalizing b n with
  | nil => simp [locateNodes, firstEmpty, hb]
  | cons node rest ih =>
    by_cases hn : node = ""
    · simp [locateNodes, firstEmpty, hn, List.findIdx?_cons, hb]
    · have hfe : firstEmpty (node :: rest) = (firstEmpty rest).map (· + 1) := by
        simp [firstEmpty, List.findIdx?_cons, hn]
      by_cases hd : t.look (b ++ [node]) = some .dir
      · have hstep : locateNodes false t (some b) (n + 1) (node :: rest) =
            locateNodes false t (some (b ++ [node])) (n + 2) rest := by
          simp [locateNodes, hn, Bolt.bucket, hd]
        rw [hstep, ih (b ++ [node]) (n + 1) hd, hfe]
        cases hr : firstEmpty rest with
        | none => simp
        | some i =>
          cases i with
          | zero => simp [hd, hb]
          | succ i => simp
      · have hstep : locateNodes false t (some b) (n + 1) (node :: rest) =
            locateNodes false t none (n + 2) rest := by
          simp [locateNodes, hn, Bolt.bucket, hd]
        have hbelow : ∀ r, t.look (b ++ node :: r) ≠ some .dir := by
          intro r hr
          cases r with
          | nil => exact hd hr
          | cons k r =>
            have := look_none_below hd (q := k :: r) (by simp)
            simp only [List.append_assoc, List.singleton_append] at this
            rw [this] at hr
            exact Option.some_ne_none _ hr.symm
        rw [hstep, hfe]
        cases rest with
        | nil => simp [locateNodes, firstEmpty, hd]
        | cons k rest =>
          by_cases hk : k = ""
          · simp [locateNodes, firstEmpty, hk, List.findIdx?_cons, hb]
          · have hk' : firstEmpty (k :: rest) = (firstEmpty rest).map (· + 1) := by
              simp [firstEmpty, List.findIdx?_cons, hk]
            rw [hk']
            cases hr : firstEmpty rest with
            | none => simp [locateNodes, hk, hbelow]
            | some i => simp [locateNodes, hk, hbelow]

theorem mem_iff_firstEmpty {nodes : List String} : "" ∈ nodes ↔ (firstEmpty nodes).isSome := by
  simp [firstEmpty]

/-- Creation refuses every path with an empty node. -/
theorem locateNodes_create_empty (t : Store) (b : Bucket) (n : Nat) (nodes : List String)
    (h : "" ∈ nodes) : ∃ err, locateNodes true t (some b) (n + 1) nodes = .error err := by
  induction nodes generalizing t b n with
  | nil => simp at h
  | cons node rest ih =>
    by_cases hn : node = ""
    · exact ⟨ErrEmptyNode, by simp [locateNodes, hn]⟩
    · have hr : "" ∈ rest := by
        rcases List.mem_cons.mp h with h | h
        · exact absurd h.symm hn
        · exact h
      simp only [locateNodes, hn, ↓reduceIte, Nat.add_eq_zero_iff, one_ne_zero, and_false]
      split
      · exact ih _ _ _ hr
      · split
        · exact ⟨_, rfl⟩
        · exact ih _ _ _ hr

/-- With creation the walk is the creation of the whole path. -/
theorem locateNodes_create (t : Store) (b : Bucket) (n : Nat) (nodes : List String)
    (hb : t.look b = some .dir) (hne : "" ∉ nodes) :
    ((Op.mkdir (b ++ nodes) : Op String Entity).Fits t.look →
      ∃ t', locateNodes true t (some b) (n + 1) nodes = .ok (t', some (b ++ nodes)) ∧
        t'.look = (Op.mkdir (b ++ nodes)).effect t.look) ∧
    (¬ (Op.mkdir (b ++ nodes) : Op String Entity).Fits t.look →
      ∃ err, locateNodes true t (some b) (n + 1) nodes = .error err) := by
  induction nodes generalizing t b n with
  | nil =>
    have hdirs : ∀ q, q <+: b → t.look q = some .dir := by
      rintro q ⟨r, rfl⟩
      by_cases hr : r = []
      · simpa [hr] using hb
      · exact Tree.look_dir_of_append hr (by rw [hb]; simp)
    constructor
    · intro _
      refine ⟨t, by simp [locateNodes], ?_⟩
      funext q
      rw [Op.effect_mkdir]
      split
      · next hq => exact hdirs q (by simpa using hq)
      · rfl
    · intro h
      refine absurd (Op.mkdir_fits_iff.mpr fun q v hq => ?_) h
      rw [hdirs q (by simpa using hq)]
      simp
  | cons node rest ih =>
    have hn : node ≠ "" := fun h => hne (h ▸ List.mem_cons_self ..)
    have hrest : "" ∉ rest := fun h => hne (List.mem_cons_of_mem _ h)
    have hpath : b ++ node :: rest = (b ++ [node]) ++ rest := by simp
    rw [hpath]
    cases hl : t.look (b ++ [node]) with
    | none =>
      -- the directory is created, and the walk goes on in the new tree
      let t₁ := t.put b node .dir
      have hstep : locateNodes true t (some b) (n + 1) (node :: rest) =
          locateNodes true t₁ (some (b ++ [node])) (n + 2) rest := by
        simp [locateNodes, hn, Bolt.bucket, Bolt.createBucket, hl, t₁]
      have hlook : ∀ q, t₁.look q = if q = b ++ [node] then some .dir else t.look q :=
        look_put_leaf hb (by simp [hl]) .dir
      have hb₁ : t₁.look (b ++ [node]) = some .dir := by rw [hlook, if_pos rfl]
      have hfits : (Op.mkdir (b ++ [node] ++ rest) : Op String Entity).Fits t₁.look ↔
          (Op.mkdir (b ++ [node] ++ rest) : Op String Entity).Fits t.look := by
        rw [Op.mkdir_fits_iff, Op.mkdir_fits_iff]
        refine forall_congr' fun q => forall_congr' fun v => imp_congr_right fun _ => ?_
        rw [hlook]
        split
        · next hq => simp [hq, hl]
        · rfl
      have heff : (Op.mkdir (b ++ [node] ++ rest) : Op String Entity).effect t₁.look =
          (Op.mkdir (b ++ [node] ++ rest)).effect t.look := by
        funext q
        rw [Op.effect_mkdir, Op.effect_mkdir, hlook]
        split
        · rfl
        · next hq =>
          rw [if_neg]
          rintro rfl
          exact hq (List.prefix_append _ _)
      rw [hstep, ← hfits, ← heff]
      exact ih t₁ (b ++ [node]) (n + 1) hb₁ hrest
    | some c =>
      cases c with
      | dir =>
        have hstep : locateNodes true t (some b) (n + 1) (node :: rest) =
            locateNodes true t (some (b ++ [node])) (n + 2) rest := by
          simp [locateNodes, hn, Bolt.bucket, hl]
        rw [hstep]
        exact ih t (b ++ [node]) (n + 1) hl hrest
      | val v =>
        constructor
        · intro h
          exact absurd hl (Op.mkdir_fits_iff.mp h _ v (List.prefix_append _ _))
        · intro _
          exact ⟨Bolt.ErrIncompatibleValue, by
            simp [locateNodes, hn, Bolt.bucket, Bolt.createBucket, hl]⟩

/-! ## Reading -/

theorem locateBucket_read {t : Store} {key : String} (hn : (keySplitter key).1 ≠ [])
    (hl : isEmptyLeaf (keySplitter key).2 = false) :
    locateBucket t key false =
      match firstEmpty (keySplitter key).1 with
      | some i =>
          if t.look ((keySplitter key).1.take (i - 1)) = some .dir then .error ErrEmptyNode
          else .error ErrNoSuchBucket
      | none =>
          if t.look (keySplitter key).1 = some .dir
          then .ok (t, (keySplitter key).1, (keySplitter key).2)
          else .error ErrNoSuchBucket := by
  obtain ⟨node, rest, hnodes⟩ := List.exists_cons_of_ne_nil hn
  have hwalk := locateNodes_read t [] 0 (node :: rest) (Tree.look_root t)
  simp only [List.nil_append, zero_add] at hwalk
  simp only [locateBucket, hl, ↓reduceIte, Bool.false_eq_true, hnodes, locateNodes_start, hwalk]
  cases firstEmpty (node :: rest) with
  | none => by_cases hd : t.look (node :: rest) = some .dir <;> simp [hd]
  | some i => by_cases hd : t.look ((node :: rest).take (i - 1)) = some .dir <;> simp [hd]

/-- A key under which a value can stand. -/
structure ValueKey (key : String) : Prop where
  nodes : (keySplitter key).1 ≠ []
  leaf : isEmptyLeaf (keySplitter key).2 = false
  filled : firstEmpty (keySplitter key).1 = none

/-- A value key that is present is read as stored. -/
theorem getKV_of_look {t : Store} {key : String} {v : Entity}
    (hn : (keySplitter key).1 ≠ []) (hl : isEmptyLeaf (keySplitter key).2 = false)
    (he : firstEmpty (keySplitter key).1 = none) (h : t.look (keyPath key) = some (.val v)) :
    getKV t key false = .ok v := by
  have hd : t.look (keySplitter key).1 = some .dir :=
    Tree.look_dir_of_append (q := [(keySplitter key).2]) (by simp) (by
      rw [keyPath] at h
      simp [h])
  rw [keyPath] at h
  simp [getKV, locateBucket_read hn hl, he, hd, Bolt.get, h]

/-- What a read needs to get past the walk. -/
theorem locateBucket_ok {t tx : Store} {key leaf : String} {b : Bucket}
    (h : locateBucket t key false = .ok (tx, b, leaf)) :
    tx = t ∧ b = (keySplitter key).1 ∧ leaf = (keySplitter key).2 := by
  by_cases hn : (keySplitter key).1 = []
  · simp [locateBucket, hn] at h
  · cases hl : isEmptyLeaf (keySplitter key).2 with
    | true => simp [locateBucket, hn, hl] at h
    | false =>
      rw [locateBucket_read hn hl] at h
      split at h
      · split at h <;> cases h
      · split at h
        · cases h
          exact ⟨rfl, rfl, rfl⟩
        · cases h

/-- A value that is read stands at the key. -/
theorem look_of_getKV {t : Store} {key : String} {v : Entity} (h : getKV t key false = .ok v) :
    t.look (keyPath key) = some (.val v) := by
  unfold getKV at h
  split at h
  · cases h
  · next tx b leaf hloc =>
    obtain ⟨rfl, rfl, rfl⟩ := locateBucket_ok hloc
    simp only [Bool.false_eq_true, ↓reduceIte, Bolt.get] at h
    rw [keyPath]
    split at h
    · next hd =>
      cases h
      split at hd
      · next hv => rw [hv, Option.some.inj hd]
      · cases hd
    · cases h

/-- A directory is read as an entity that carries only the key. -/
theorem look_of_getKV_dir {t : Store} {key : String} {v : Entity} (h : getKV t key true = .ok v) :
    v = { key := key } ∧ t.look (keyPath key) = some .dir := by
  unfold getKV at h
  split at h
  · cases h
  · next tx b leaf hloc =>
    obtain ⟨rfl, rfl, rfl⟩ := locateBucket_ok hloc
    simp only [↓reduceIte, Bolt.bucket] at h
    split at h
    · next hb =>
      split at hb
      · next hd =>
        cases h
        exact ⟨rfl, hd⟩
      · cases hb
    · cases h

/-- The rows of a range stand in one directory. -/
theorem look_of_rangeRows {t : Store} {key seek : String} {rows : List (String × Cell Entity)}
    (h : rangeRows t key seek = .ok rows) :
    ∃ b, ∀ k c, (k, c) ∈ rows → t.look (b ++ [k]) = some c := by
  unfold rangeRows at h
  dsimp only at h
  split at h
  · cases h
  · cases h
  · next b _ =>
    cases h
    exact ⟨b, fun k c hm => Tree.look_of_mem_kids (List.dropWhile_subset _ hm)⟩

/-- The entities a range finds expired are among its rows. -/
theorem mem_of_rangeScan {now : Int} {key : String} {limit : Nat}
    {rows : List (String × Cell Entity)} {e : Entity}
    (h : e ∈ (rangeScan now key limit rows).2.1) :
    (∃ k, (k, .val e) ∈ rows) ∧ (entityExpired now e).1 = true := by
  induction rows generalizing limit with
  | nil => cases h
  | cons row rows ih =>
    obtain ⟨k, c⟩ := row
    have hlater : ∀ {m}, e ∈ (rangeScan now key m rows).2.1 →
        (∃ k', (k', .val e) ∈ (k, c) :: rows) ∧ (entityExpired now e).1 = true := by
      intro m hm
      obtain ⟨⟨k', hk'⟩, hexp⟩ := ih hm
      exact ⟨⟨k', List.mem_cons_of_mem _ hk'⟩, hexp⟩
    unfold rangeScan at h
    split at h
    · cases h
    · cases c with
      | dir => exact hlater h
      | val v =>
        dsimp only at h
        split at h
        · next hexp =>
          rcases List.mem_cons.mp h with rfl | h
          · exact ⟨⟨k, List.mem_cons_self ..⟩, by rw [hexp]⟩
          · exact hlater h
        · exact hlater h

/-- A read fails otherwise than with "not found" exactly for a key without
parents, with a blank leaf, or with an empty node met on the way. -/
def ReadBlocked (t : Store) (key : String) : Prop :=
  (keySplitter key).1 = [] ∨ isEmptyLeaf (keySplitter key).2 = true ∨
    ∃ i, firstEmpty (keySplitter key).1 = some i ∧
      t.look ((keySplitter key).1.take (i - 1)) = some .dir

theorem errorsIs_notFound :
    ErrNotFound.errorsIs ErrNotFound = true ∧ ErrNoSuchBucket.errorsIs ErrNotFound = true ∧
    ErrEmptyNode.errorsIs ErrNotFound = false ∧ ErrEmptyLeaf.errorsIs ErrNotFound = false ∧
    ErrNoParentBucket.errorsIs ErrNotFound = false := by decide

/-- A read that is not blocked succeeds or reports "not found". -/
theorem getKV_of_not_blocked {t : Store} {key : String} (h : ¬ ReadBlocked t key) (dir : Bool)
    {err : GoError} (he : getKV t key dir = .error err) : err.errorsIs ErrNotFound = true := by
  obtain ⟨hn, hl, hf⟩ : (keySplitter key).1 ≠ [] ∧ isEmptyLeaf (keySplitter key).2 = false ∧
      ∀ i, firstEmpty (keySplitter key).1 = some i →
        t.look ((keySplitter key).1.take (i - 1)) ≠ some .dir := by
    simp only [ReadBlocked, not_or, not_exists, not_and, Bool.not_eq_true] at h
    exact h
  rw [getKV, locateBucket_read hn hl] at he
  cases hfe : firstEmpty (keySplitter key).1 with
  | some i =>
    rw [hfe] at he
    simp only [if_neg (hf i hfe)] at he
    cases he
    exact errorsIs_notFound.2.1
  | none =>
    rw [hfe] at he
    by_cases hd : t.look (keySplitter key).1 = some .dir
    · simp only [hd, ↓reduceIte] at he
      cases dir with
      | true =>
        simp only [↓reduceIte] at he
        split at he
        · cases he
        · cases he
          exact errorsIs_notFound.2.1
      | false =>
        simp only [Bool.false_eq_true, ↓reduceIte] at he
        split at he
        · cases he
        · cases he
          exact errorsIs_notFound.1
    · simp only [hd, ↓reduceIte] at he
      cases he
      exact errorsIs_notFound.2.1

/-- A blocked read reports an error that is not "not found". -/
theorem getKV_of_blocked {t : Store} {key : String} (h : ReadBlocked t key) (dir : Bool) :
    ∃ err, getKV t key dir = .error err ∧ err.errorsIs ErrNotFound = false := by
  by_cases hn : (keySplitter key).1 = []
  · exact ⟨ErrNoParentBucket, by simp [getKV, locateBucket, hn], errorsIs_notFound.2.2.2.2⟩
  · cases hl : isEmptyLeaf (keySplitter key).2 with
    | true => exact ⟨ErrEmptyLeaf, by simp [getKV, locateBucket, hn, hl], errorsIs_notFound.2.2.2.1⟩
    | false =>
      obtain ⟨i, hi, hd⟩ := (h.resolve_left hn).resolve_left (by simp [hl])
      exact ⟨ErrEmptyNode, by simp [getKV, locateBucket_read hn hl, hi, hd], errorsIs_notFound.2.2.1⟩

/-! ## Writing -/

theorem emptyLeaf_empty : isEmptyLeaf "" = true := by decide

theorem createBucketIfNotExists_spec {t : Store} {b : Bucket} {name : String}
    (hb : t.look b = some .dir) (hne : name ≠ "") :
    ((∀ v, t.look (b ++ [name]) ≠ some (.val v)) →
      ∃ t', Bolt.createBucketIfNotExists t b name = .ok t' ∧
        ∀ q, t'.look q = if q = b ++ [name] then some .dir else t.look q) ∧
    ((∃ v, t.look (b ++ [name]) = some (.val v)) →
      ∃ err, Bolt.createBucketIfNotExists t b name = .error err) := by
  unfold Bolt.createBucketIfNotExists
  rw [if_neg hne]
  cases hc : t.look (b ++ [name]) with
  | none => exact ⟨fun _ => ⟨_, rfl, look_put_leaf hb (by simp [hc]) .dir⟩, by simp⟩
  | some c =>
    cases c with
    | val v => exact ⟨fun h => absurd rfl (h v), fun _ => ⟨_, rfl⟩⟩
    | dir =>
      refine ⟨fun _ => ⟨t, rfl, fun q => ?_⟩, by simp⟩
      split
      · next hq => rw [hq, hc]
      · rfl

theorem put_spec {t : Store} {b : Bucket} {k : String} (hb : t.look b = some .dir)
    (hne : k ≠ "") (hsize : ¬ k.utf8ByteSize > Bolt.MaxKeySize) (v : Entity) :
    (t.look (b ++ [k]) ≠ some .dir →
      ∃ t', Bolt.put t b k v = .ok t' ∧
        ∀ q, t'.look q = if q = b ++ [k] then some (.val v) else t.look q) ∧
    (t.look (b ++ [k]) = some .dir → ∃ err, Bolt.put t b k v = .error err) := by
  unfold Bolt.put
  rw [if_neg hne, if_neg hsize]
  constructor
  · intro hk
    refine ⟨t.put b k (.val v), ?_, look_put_leaf hb hk _⟩
    split
    · next hd => exact absurd hd hk
    · rfl
  · intro hd
    exact ⟨Bolt.ErrIncompatibleValue, by rw [hd]⟩

theorem setKV_unfold {t : Store} {key : String} {val : Entity} {dir : Bool}
    (hn : (keySplitter key).1 ≠ []) (hl : isEmptyLeaf (keySplitter key).2 = false) :
    setKV t key val dir =
      match locateNodes true t (some []) 1 (keySplitter key).1 with
      | .error err => .error err
      | .ok (_, none) => .error ErrNoSuchBucket
      | .ok (tx, some buk) =>
          if dir then Bolt.createBucketIfNotExists tx buk (keySplitter key).2
          else Bolt.put tx buk (keySplitter key).2 val := by
  obtain ⟨node, rest, hnodes⟩ := List.exists_cons_of_ne_nil hn
  simp only [setKV, locateBucket, hl, ↓reduceIte, Bool.false_eq_true, hnodes, locateNodes_start]
  rcases locateNodes true t (some []) 1 (node :: rest) with err | ⟨tx, _ | buk⟩ <;> rfl

/-- A SET of a well-formed key creates the directories above the leaf, and then
the leaf; the first of the two that meets the wrong kind fails. -/
theorem setKV_located (t : Store) {key : String} (val : Entity) (dir : Bool)
    (hn : (keySplitter key).1 ≠ []) (hl : isEmptyLeaf (keySplitter key).2 = false)
    (he : "" ∉ (keySplitter key).1) :
    ((Op.mkdir (keySplitter key).1 : Op String Entity).Fits t.look →
      ∃ t', t'.look = (Op.mkdir (keySplitter key).1).effect t.look ∧
        t'.look (keySplitter key).1 = some .dir ∧ t'.look (keyPath key) = t.look (keyPath key) ∧
        setKV t key val dir =
          if dir then Bolt.createBucketIfNotExists t' (keySplitter key).1 (keySplitter key).2
          else Bolt.put t' (keySplitter key).1 (keySplitter key).2 val) ∧
    (¬ (Op.mkdir (keySplitter key).1 : Op String Entity).Fits t.look →
      ∃ err, setKV t key val dir = .error err) := by
  obtain ⟨hwalk, hwalk'⟩ :=
    locateNodes_create t [] 0 (keySplitter key).1 (Tree.look_root t) he
  simp only [List.nil_append, zero_add] at hwalk hwalk'
  constructor
  · intro hdirs
    obtain ⟨t', ht', hlook⟩ := hwalk hdirs
    refine ⟨t', hlook, ?_, ?_, by rw [setKV_unfold hn hl, ht']⟩
    · rw [hlook, Op.effect_mkdir, if_pos List.prefix_rfl]
    · rw [hlook, Op.effect_mkdir, keyPath, if_neg (Tree.not_snoc_prefix _ _)]
  · intro hdirs
    obtain ⟨err, herr⟩ := hwalk' hdirs
    exact ⟨err, by rw [setKV_unfold hn hl, herr]⟩

/-- A SET either names no operation and fails, or is that operation: it succeeds
exactly where the operation fits, with its effect. -/
theorem setKV_spec (t : Store) (key : String) (val : Entity) (dir : Bool) :
    match setOp key val dir with
    | none => ∃ err, setKV t key val dir = .error err
    | some o =>
        (o.Fits t.look → ∃ t', setKV t key val dir = .ok t' ∧ t'.look = o.effect t.look) ∧
        (¬ o.Fits t.look → ∃ err, setKV t key val dir = .error err) := by
  unfold setOp
  dsimp only
  by_cases hn : (keySplitter key).1 = []
  · rw [if_pos (Or.inl hn)]
    exact ⟨ErrNoParentBucket, by simp [setKV, locateBucket, hn]⟩
  cases hl : isEmptyLeaf (keySplitter key).2 with
  | true =>
    rw [if_pos (Or.inr (Or.inl rfl))]
    exact ⟨ErrEmptyLeaf, by simp [setKV, locateBucket, hn, hl]⟩
  | false =>
    by_cases he : "" ∈ (keySplitter key).1
    · rw [if_pos (Or.inr (Or.inr he))]
      obtain ⟨err, herr⟩ := locateNodes_create_empty t [] 0 (keySplitter key).1 he
      exact ⟨err, by rw [setKV_unfold hn hl, ← zero_add 1, herr]⟩
    rw [if_neg (by simp [hn, he])]
    have hleaf : (keySplitter key).2 ≠ "" := by
      intro h
      rw [h, emptyLeaf_empty] at hl
      exact Bool.noConfusion hl
    obtain ⟨hset, hset'⟩ := setKV_located t val dir hn hl he
    cases dir with
    | true =>
      simp only [↓reduceIte] at hset ⊢
      rw [keyPath, Op.mkdir_snoc_fits_iff]
      constructor
      · rintro ⟨hdirs, hkind⟩
        obtain ⟨t₁, hlook, hd, hsame, heq⟩ := hset hdirs
        rw [keyPath] at hsame
        obtain ⟨t', ht', hl'⟩ :=
          (createBucketIfNotExists_spec hd hleaf).1 (by rw [hsame]; exact hkind)
        refine ⟨t', heq.trans ht', funext fun q => ?_⟩
        rw [hl', hlook, Op.effect_mkdir_snoc]
      · intro hfit
        by_cases hdirs : (Op.mkdir (keySplitter key).1 : Op String Entity).Fits t.look
        · obtain ⟨t₁, -, hd, hsame, heq⟩ := hset hdirs
          rw [keyPath] at hsame
          obtain ⟨err, herr⟩ := (createBucketIfNotExists_spec hd hleaf).2 (by
            rw [hsame]
            by_contra hno
            exact hfit ⟨hdirs, fun v hv => hno ⟨v, hv⟩⟩)
          exact ⟨err, heq.trans herr⟩
        · exact hset' hdirs
    | false =>
      simp only [Bool.false_eq_true, ↓reduceIte] at hset ⊢
      by_cases hsize : (keySplitter key).2.utf8ByteSize > Bolt.MaxKeySize
      · rw [if_pos hsize]
        dsimp only
        by_cases hdirs : (Op.mkdir (keySplitter key).1 : Op String Entity).Fits t.look
        · obtain ⟨t₁, -, -, -, heq⟩ := hset hdirs
          exact ⟨Bolt.ErrKeyTooLarge, heq.trans (by simp [Bolt.put, hleaf, hsize])⟩
        · exact hset' hdirs
      · rw [if_neg hsize]
        dsimp only
        rw [keyPath, Op.put_fits_iff]
        constructor
        · rintro ⟨hdirs, hkind⟩
          obtain ⟨t₁, hlook, hd, hsame, heq⟩ := hset hdirs
          rw [keyPath] at hsame
          obtain ⟨t', ht', hl'⟩ := (put_spec hd hleaf hsize val).1 (by rw [hsame]; exact hkind)
          refine ⟨t', heq.trans ht', funext fun q => ?_⟩
          rw [hl', hlook, Op.effect_put_snoc]
        · intro hfit
          by_cases hdirs : (Op.mkdir (keySplitter key).1 : Op String Entity).Fits t.look
          · obtain ⟨t₁, -, hd, hsame, heq⟩ := hset hdirs
            rw [keyPath] at hsame
            obtain ⟨err, herr⟩ := (put_spec hd hleaf hsize val).2 (by
              rw [hsame]
              by_contra hno
              exact hfit ⟨hdirs, hno⟩)
            exact ⟨err, heq.trans herr⟩
          · exact hset' hdirs

/-! ## Removing -/

theorem errorsIs_missing :
    ErrNoSuchBucket.errorsIs ErrNoSuchBucket = true ∧
    Bolt.ErrBucketNotFound.errorsIs Bolt.ErrBucketNotFound = true ∧
    (∀ err ∈ [ErrEmptyNode, ErrEmptyLeaf, ErrNoParentBucket, Bolt.ErrIncompatibleValue],
      err.errorsIs Bolt.ErrBucketNotFound = false ∧ err.errorsIs ErrNoSuchBucket = false) := by
  decide

theorem unsetKV_of_missing {t : Store} {key : String} {dir : Bool}
    (h : unsetBatch t key dir = .error ErrNoSuchBucket ∨
      unsetBatch t key dir = .error Bolt.ErrBucketNotFound) : unsetKV t key dir = .ok t := by
  rcases h with h | h
  · simp [unsetKV, h, errorsIs_missing.1]
  · simp [unsetKV, h, errorsIs_missing.2.1]

theorem unsetKV_of_error {t : Store} {key : String} {dir : Bool} {err : GoError}
    (hm : err ∈ [ErrEmptyNode, ErrEmptyLeaf, ErrNoParentBucket, Bolt.ErrIncompatibleValue])
    (h : unsetBatch t key dir = .error err) : unsetKV t key dir = .error err := by
  simp [unsetKV, h, errorsIs_missing.2.2 err hm]

/-- An UNSET either names no operation and fails, or is that operation. -/
theorem unsetKV_spec (t : Store) (key : String) (dir : Bool) :
    match unsetOp key dir with
    | none => ∃ err, unsetKV t key dir = .error err
    | some o =>
        (o.Fits t.look → ∃ t', unsetKV t key dir = .ok t' ∧ t'.look = o.effect t.look) ∧
        (¬ o.Fits t.look → ∃ err, unsetKV t key dir = .error err) := by
  unfold unsetOp
  dsimp only
  by_cases hn : (keySplitter key).1 = []
  · rw [if_pos (Or.inl hn)]
    exact ⟨ErrNoParentBucket, unsetKV_of_error (by simp) (by simp [unsetBatch, locateBucket, hn])⟩
  cases hl : isEmptyLeaf (keySplitter key).2 with
  | true =>
    rw [if_pos (Or.inr rfl)]
    exact ⟨ErrEmptyLeaf, unsetKV_of_error (by simp) (by simp [unsetBatch, locateBucket, hn, hl])⟩
  | false =>
    rw [if_neg (by simp [hn])]
    have hloc := locateBucket_read (t := t) hn hl
    cases he : firstEmpty (keySplitter key).1 with
    | some i =>
      simp only [he] at hloc
      dsimp only
      rw [Op.probe_fits_iff, Op.effect_probe]
      constructor
      · intro hd
        rw [if_neg hd] at hloc
        exact ⟨t, unsetKV_of_missing (Or.inl (by rw [unsetBatch, hloc])), rfl⟩
      · intro hd
        rw [if_pos (by simpa using hd)] at hloc
        exact ⟨ErrEmptyNode, unsetKV_of_error (by simp) (by rw [unsetBatch, hloc])⟩
    | none =>
      simp only [he] at hloc
      by_cases hd : t.look (keySplitter key).1 = some .dir
      · rw [if_pos hd] at hloc
        cases dir with
        | true =>
          have hbatch : unsetBatch t key true =
              Bolt.deleteBucket t (keySplitter key).1 (keySplitter key).2 := by
            simp [unsetBatch, hloc]
          simp only [↓reduceIte]
          rw [keyPath, Op.rmdir_fits_iff]
          unfold Bolt.deleteBucket at hbatch
          cases hc : t.look ((keySplitter key).1 ++ [(keySplitter key).2]) with
          | none =>
            simp only [hc] at hbatch
            refine ⟨fun _ => ⟨t, unsetKV_of_missing (Or.inr hbatch), funext fun q => ?_⟩, by simp⟩
            rw [Op.effect_rmdir]
            split
            · next hpre =>
              obtain ⟨r, rfl⟩ := hpre
              by_cases hr : r = []
              · simpa [hr] using hc
              · exact look_none_below (by simp [hc]) hr
            · rfl
          | some c =>
            cases c with
            | val v =>
              simp only [hc] at hbatch
              exact ⟨fun h => absurd rfl (h v), fun _ => ⟨_, unsetKV_of_error (by simp) hbatch⟩⟩
            | dir =>
              simp only [hc] at hbatch
              refine ⟨fun _ => ⟨t.remove _ _, by rw [unsetKV, hbatch], funext fun q => ?_⟩, by simp⟩
              rw [Tree.look_remove hd, Op.effect_rmdir]
        | false =>
          have hbatch : unsetBatch t key false =
              Bolt.delete t (keySplitter key).1 (keySplitter key).2 := by
            simp [unsetBatch, hloc]
          simp only [Bool.false_eq_true, ↓reduceIte]
          rw [keyPath, Op.del_fits_iff]
          unfold Bolt.delete at hbatch
          cases hc : t.look ((keySplitter key).1 ++ [(keySplitter key).2]) with
          | none =>
            simp only [hc] at hbatch
            refine ⟨fun _ => ⟨t, by rw [unsetKV, hbatch], funext fun q => ?_⟩, by simp⟩
            rw [Op.effect_del]
            split
            · next hq => rw [hq, hc]
            · rfl
          | some c =>
            cases c with
            | dir =>
              simp only [hc] at hbatch
              exact ⟨fun h => absurd rfl h, fun _ => ⟨_, unsetKV_of_error (by simp) hbatch⟩⟩
            | val v =>
              simp only [hc] at hbatch
              refine ⟨fun _ => ⟨t.remove _ _, by rw [unsetKV, hbatch], funext fun q => ?_⟩, by simp⟩
              rw [look_remove_leaf hd (by simp [hc]), Op.effect_del]
      · -- no parent directory: nothing stands at the key
        rw [if_neg hd] at hloc
        have hmiss : unsetKV t key dir = .ok t :=
          unsetKV_of_missing (Or.inl (by rw [unsetBatch, hloc]))
        have hnone : ∀ r, t.look (keyPath key ++ r) = none := by
          intro r
          rw [keyPath, List.append_assoc]
          exact look_none_below hd (by simp)
        have hleaf : t.look (keyPath key) = none := by simpa using hnone []
        cases dir with
        | true =>
          simp only [↓reduceIte]
          rw [Op.rmdir_fits_iff, hleaf]
          refine ⟨fun _ => ⟨t, hmiss, funext fun q => ?_⟩, by simp⟩
          rw [Op.effect_rmdir]
          split
          · next hpre =>
            obtain ⟨r, rfl⟩ := hpre
            exact hnone r
          · rfl
        | false =>
          simp only [Bool.false_eq_true, ↓reduceIte]
          rw [Op.del_fits_iff, hleaf]
          refine ⟨fun _ => ⟨t, hmiss, funext fun q => ?_⟩, by simp⟩
          rw [Op.effect_del]
          split
          · next hq => rw [hq, hleaf]
          · rfl

/-- A call that meets the operation its key names, read as the two ways it can end. -/
theorem ends_of_spec {o? : Option (Op String Entity)} {s : Shape String Entity}
    {r : Except GoError Store}
    (hspec : match o? with
      | none => ∃ err, r = .error err
      | some o =>
          (o.Fits s → ∃ t', r = .ok t' ∧ t'.look = o.effect s) ∧
          (¬ o.Fits s → ∃ err, r = .error err)) :
    (∃ o t', o? = some o ∧ o.Fits s ∧ r = .ok t' ∧ t'.look = o.effect s) ∨
      (∀ o, o? = some o → ¬ o.Fits s) ∧ ∃ err, r = .error err := by
  cases o? with
  | none => exact .inr ⟨nofun, hspec⟩
  | some o =>
    by_cases hfit : o.Fits s
    · obtain ⟨t', ht', hlook⟩ := hspec.1 hfit
      exact .inl ⟨o, t', rfl, hfit, ht', hlook⟩
    · refine .inr ⟨fun o' ho' => ?_, hspec.2 hfit⟩
      cases ho'
      exact hfit

theorem setKV_ends (t : Store) (key : String) (val : Entity) (dir : Bool) :
    (∃ o t', setOp key val dir = some o ∧ o.Fits t.look ∧ setKV t key val dir = .ok t' ∧
      t'.look = o.effect t.look) ∨
    (∀ o, setOp key val dir = some o → ¬ o.Fits t.look) ∧
      ∃ err, setKV t key val dir = .error err :=
  ends_of_spec (setKV_spec t key val dir)

theorem unsetKV_ends (t : Store) (key : String) (dir : Bool) :
    (∃ o t', unsetOp key dir = some o ∧ o.Fits t.look ∧ unsetKV t key dir = .ok t' ∧
      t'.look = o.effect t.look) ∨
    (∀ o, unsetOp key dir = some o → ¬ o.Fits t.look) ∧
      ∃ err, unsetKV t key dir = .error err :=
  ends_of_spec (unsetKV_spec t key dir)

end Cassem.KV
