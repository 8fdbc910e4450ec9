import Cassem.KV.WatchStream

/-!
# What the bolt storage keeps

The storage over any sequence of writes is a hierarchical map: a write that succeeds is the
operation that its key names, and a write that fails leaves the tree alone. What `GetKV` answers
of every key follows from the shape of the tree at the key and at its directory.
-/

namespace Cassem.KV

open Lib Lib.HierMap

/-! ## What a read depends on -/

/-- No segment of the key is empty. -/
def Filled (key : String) : Prop := "" ∉ split key

instance (key : String) : Decidable (Filled key) := inferInstanceAs (Decidable (_ ∉ _))

/-- What `GetKV` answers of a key that a value can stand under. -/
theorem getKV_eq {key : String} (h : ValueKey key) (t : Store) (dir : Bool) :
    getKV t key dir =
      match dir, t.look (keyPath key) with
      | true, some .dir => .ok { key := key }
      | true, _ => .error ErrNoSuchBucket
      | false, some (.val v) => .ok v
      | false, _ =>
          .error (if t.look (keySplitter key).1 = some .dir then ErrNotFound else ErrNoSuchBucket) := by
  by_cases hd : t.look (keySplitter key).1 = some .dir
  · have hlocate : locateBucket t key false = .ok (t, (keySplitter key).1, (keySplitter key).2) := by
      rw [locateBucket_read h.nodes h.leaf, h.filled]
      exact if_pos hd
    have hpath : (keySplitter key).1 ++ [(keySplitter key).2] = keyPath key := rfl
    simp only [getKV, hlocate, Bolt.bucket, Bolt.get, hpath]
    cases dir <;> rcases t.look (keyPath key) with _ | _ | _ <;> simp [hd]
  · have hlocate : locateBucket t key false = .error ErrNoSuchBucket := by
      rw [locateBucket_read h.nodes h.leaf, h.filled]
      exact if_neg hd
    have hnone : t.look (keyPath key) = none := look_none_below hd (List.cons_ne_nil _ _)
    simp only [getKV, hlocate, hnone]
    cases dir <;> simp [hd]

theorem getKV_dir {key : String} (h : ValueKey key) (t : Store) : getKV t key true =
    if t.look (keyPath key) = some .dir then .ok { key := key } else .error ErrNoSuchBucket := by
  rw [getKV_eq h]
  rcases t.look (keyPath key) with _ | _ | _ <;> simp

theorem getKV_of_no_value {key : String} (h : ValueKey key) {t : Store}
    (hleaf : ∀ v, t.look (keyPath key) ≠ some (.val v)) : getKV t key false =
      .error (if t.look (keySplitter key).1 = some .dir then ErrNotFound else ErrNoSuchBucket) := by
  rw [getKV_eq h]
  cases hc : t.look (keyPath key) with
  | none => rfl
  | some c =>
    cases c with
    | dir => rfl
    | val v => exact absurd hc (hleaf v)

theorem valueKey_iff {key : String} (h : Filled key) :
    ValueKey key ↔ (keySplitter key).1 ≠ [] ∧ isEmptyLeaf (keySplitter key).2 = false := by
  refine ⟨fun hkey => ⟨hkey.nodes, hkey.leaf⟩, fun hkey => ⟨hkey.1, hkey.2, ?_⟩⟩
  by_contra hempty
  have hmem := mem_iff_firstEmpty.mpr (Option.isSome_iff_ne_none.mpr hempty)
  have hpath : "" ∈ keyPath key := List.mem_append_left _ hmem
  exact h (keyPath_eq_split key ▸ hpath)

/-- A key of one segment, or with a blank leaf, is refused whatever the tree. -/
theorem getKV_malformed {key : String} (hkey : Filled key) (h : ¬ ValueKey key) :
    ∃ err, ∀ t dir, getKV t key dir = .error err := by
  by_cases hn : (keySplitter key).1 = []
  · exact ⟨ErrNoParentBucket, fun t dir => by simp [getKV, locateBucket, hn]⟩
  · cases hl : isEmptyLeaf (keySplitter key).2 with
    | true => exact ⟨ErrEmptyLeaf, fun t dir => by simp [getKV, locateBucket, hn, hl]⟩
    | false => exact absurd ((valueKey_iff hkey).mpr ⟨hn, hl⟩) h

/-- Trees that are alike at the key, and alike in having its directory, are read alike. -/
theorem getKV_congr {key : String} {t t' : Store} (hkey : Filled key)
    (hleaf : t'.look (keyPath key) = t.look (keyPath key))
    (hdir : t'.look (keySplitter key).1 = some .dir ↔ t.look (keySplitter key).1 = some .dir)
    (dir : Bool) : getKV t' key dir = getKV t key dir := by
  by_cases h : ValueKey key
  · rw [getKV_eq h, getKV_eq h, hleaf]
    simp only [hdir]
  · obtain ⟨err, herr⟩ := getKV_malformed hkey h
    rw [herr, herr]

/-! ## What a write leaves -/

/-- What is read after a value, or a directory, was set under the key. The one change for other
keys is that the directories above the key exist. -/
structure Bound (t t' : Store) (key : String) (val : Entity) (dir : Bool) : Prop where
  own : getKV t' key dir = .ok (if dir then { key := key } else val)
  parents : ∀ p, p <+: (keySplitter key).1 → t'.look p = some .dir
  parentKeys : ∀ key', ValueKey key' → keyPath key' <+: (keySplitter key).1 →
    getKV t' key' true = .ok { key := key' }
  others : ∀ key' dir', Filled key' → ¬ (key' = key ∧ dir' = dir) →
    ¬ (dir' = true ∧ keyPath key' <+: (keySplitter key).1) →
      getKV t' key' dir' = getKV t key' dir' ∨
        (t.look (keySplitter key').1 = none ∧ t'.look (keySplitter key').1 = some .dir ∧
          getKV t key' dir' = .error ErrNoSuchBucket ∧ getKV t' key' dir' = .error ErrNotFound)

/-- What is read after the value, or the directory with all below it, was removed. -/
structure Unbound (t t' : Store) (key : String) (dir : Bool) : Prop where
  gone : ∀ key' dir', Filled key' →
    (if dir then keyPath key <+: keyPath key' else key' = key ∧ dir' = false) →
      ∃ err, getKV t' key' dir' = .error err
  others : ∀ key' dir', Filled key' →
    ¬ (if dir then keyPath key <+: keyPath key' else key' = key ∧ dir' = false) →
      getKV t' key' dir' = getKV t key' dir'

section Set

variable {t t' : Store} {key : String} {val : Entity} {dir : Bool}

/-- The tree after a write that succeeded. -/
theorem look_of_setKV (h : setKV t key val dir = .ok t') :
    ValueKey key ∧ (∀ p v, p <+: (keySplitter key).1 → t.look p ≠ some (.val v)) ∧
      (if dir then ∀ v, t.look (keyPath key) ≠ some (.val v)
        else t.look (keyPath key) ≠ some .dir) ∧
      ∀ q, t'.look q =
        if q = keyPath key then some (if dir then .dir else .val val)
        else if q <+: (keySplitter key).1 then some .dir else t.look q := by
  rcases setKV_ends t key val dir with ⟨o, t₁, ho, hfit, ht₁, hlook⟩ | ⟨-, err, herr⟩
  · cases h.symm.trans ht₁
    unfold setOp at ho
    dsimp only at ho
    split at ho
    · cases ho
    · next hwell =>
      obtain ⟨hn, hl, he⟩ : (keySplitter key).1 ≠ [] ∧ ¬ isEmptyLeaf (keySplitter key).2 = true ∧
          "" ∉ (keySplitter key).1 := by simpa only [not_or] using hwell
      have hkey : ValueKey key := by
        refine ⟨hn, Bool.eq_false_of_not_eq_true hl, ?_⟩
        by_contra hempty
        exact he (mem_iff_firstEmpty.mpr (Option.isSome_iff_ne_none.mpr hempty))
      have hpath : keyPath key = (keySplitter key).1 ++ [(keySplitter key).2] := rfl
      cases dir with
      | true =>
        cases ho
        rw [hpath, Op.mkdir_snoc_fits_iff, Op.mkdir_fits_iff] at hfit
        refine ⟨hkey, fun p v hp => hfit.1 p v hp, hfit.2, fun q => ?_⟩
        rw [hlook, hpath, Op.effect_mkdir_snoc, Op.effect_mkdir]
        rfl
      | false =>
        rw [if_neg Bool.false_ne_true] at ho
        split at ho
        · cases ho
        · cases ho
          rw [hpath, Op.put_fits_iff, Op.mkdir_fits_iff] at hfit
          refine ⟨hkey, fun p v hp => hfit.1 p v hp, hfit.2, fun q => ?_⟩
          rw [hlook, hpath, Op.effect_put_snoc, Op.effect_mkdir]
          rfl
  · cases h.symm.trans herr

/-- A directory stays one, and where there is a new one nothing stood. -/
theorem dir_of_setKV (h : setKV t key val dir = .ok t') (p : List String) :
    (t'.look p = some .dir ↔ t.look p = some .dir) ∨
      (t.look p = none ∧ t'.look p = some .dir) := by
  obtain ⟨-, hparents, hown, hlook⟩ := look_of_setKV h
  cases hold : t.look p with
  | none =>
    by_cases hmade : t'.look p = some .dir
    · exact .inr ⟨rfl, hmade⟩
    · exact .inl (iff_of_false hmade (Option.some_ne_none _).symm)
  | some c =>
    refine .inl ?_
    rw [← hold, hlook]
    by_cases heq : p = keyPath key
    · subst heq
      rw [if_pos rfl]
      cases dir with
      | true =>
        cases c with
        | dir => simp [hold]
        | val v => exact absurd hold (hown v)
      | false => exact iff_of_false (fun hd => by cases hd) hown
    · rw [if_neg heq]
      split
      · next hp =>
        cases c with
        | dir => simp [hold]
        | val v => exact absurd hold (hparents p v hp)
      · exact Iff.rfl

/-- The values of other keys stay, and no other value appears. -/
theorem val_of_setKV (h : setKV t key val dir = .ok t') {p : List String}
    (hp : p = keyPath key → dir = true) (v : Entity) :
    t'.look p = some (.val v) ↔ t.look p = some (.val v) := by
  obtain ⟨-, hparents, hown, hlook⟩ := look_of_setKV h
  rw [hlook]
  by_cases heq : p = keyPath key
  · obtain rfl := hp heq
    rw [if_pos heq, heq]
    exact iff_of_false (fun hv => by cases hv) (hown v)
  · rw [if_neg heq]
    split
    · next hpre => exact iff_of_false (fun hv => by cases hv) (hparents p v hpre)
    · exact Iff.rfl

theorem bound_of_setKV (h : setKV t key val dir = .ok t') : Bound t t' key val dir := by
  obtain ⟨hkey, hparents, hown, hlook⟩ := look_of_setKV h
  have hdirs : ∀ p, p <+: (keySplitter key).1 → t'.look p = some .dir := by
    intro p hp
    have hne : p ≠ keyPath key := by
      rintro rfl
      exact Tree.not_snoc_prefix _ _ hp
    rw [hlook, if_neg hne, if_pos hp]
  refine ⟨?_, hdirs, fun key' hkey' hp => ?_, fun key' dir' hkey' hne hparent => ?_⟩
  · rw [getKV_eq hkey, hlook, if_pos rfl]
    cases dir <;> rfl
  · rw [getKV_dir hkey', if_pos (hdirs _ hp)]
  · by_cases hvalue : ValueKey key'
    · have hsame : keyPath key' = keyPath key → key' = key := fun heq => keyPath_injective heq
      cases dir' with
      | true =>
        refine .inl ?_
        rw [getKV_dir hvalue, getKV_dir hvalue, hlook]
        by_cases heq : keyPath key' = keyPath key
        · -- a value stands at the key, and no directory stood there
          have hdir : dir = false := by simpa [hsame heq] using hne
          subst hdir
          rw [if_pos heq, if_neg (fun hd => by cases hd), if_neg (heq ▸ hown)]
        · rw [if_neg heq, if_neg fun hp => hparent ⟨rfl, hp⟩]
      | false =>
        have hvals := val_of_setKV h (p := keyPath key') fun heq => by simpa [hsame heq] using hne
        by_cases hv : ∃ v, t.look (keyPath key') = some (.val v)
        · obtain ⟨v, hv⟩ := hv
          rw [getKV_of_look hvalue.nodes hvalue.leaf hvalue.filled hv,
            getKV_of_look hvalue.nodes hvalue.leaf hvalue.filled ((hvals v).mpr hv)]
          exact .inl rfl
        · have hnone : ∀ v, t.look (keyPath key') ≠ some (.val v) := fun v heq => hv ⟨v, heq⟩
          rw [getKV_of_no_value hvalue hnone,
            getKV_of_no_value hvalue fun v heq => hnone v ((hvals v).mp heq)]
          rcases dir_of_setKV h (keySplitter key').1 with hkept | ⟨hmissing, hmade⟩
          · exact .inl (by simp only [hkept])
          · exact .inr ⟨hmissing, hmade, by rw [if_neg (by rw [hmissing]; simp)],
              by rw [if_pos hmade]⟩
    · obtain ⟨err, herr⟩ := getKV_malformed hkey' hvalue
      exact .inl (by rw [herr, herr])

/-- The tree after a removal that succeeded. -/
theorem look_of_unsetKV (hkey : Filled key) (h : unsetKV t key dir = .ok t') :
    (dir = false → t.look (keyPath key) ≠ some .dir) ∧
      ∀ q, t'.look q =
        if (if dir then keyPath key <+: q else q = keyPath key) then none else t.look q := by
  have hfilled : firstEmpty (keySplitter key).1 = none := by
    by_contra hempty
    have hmem := mem_iff_firstEmpty.mpr (Option.isSome_iff_ne_none.mpr hempty)
    have hpath : "" ∈ keyPath key := List.mem_append_left _ hmem
    exact hkey (keyPath_eq_split key ▸ hpath)
  rcases unsetKV_ends t key dir with ⟨o, t₁, ho, hfit, ht₁, hlook⟩ | ⟨-, err, herr⟩
  · cases h.symm.trans ht₁
    unfold unsetOp at ho
    dsimp only at ho
    split at ho
    · cases ho
    · rw [hfilled] at ho
      cases dir with
      | true =>
        cases ho
        exact ⟨nofun, fun q => by rw [hlook, Op.effect_rmdir]; rfl⟩
      | false =>
        cases ho
        exact ⟨fun _ => Op.del_fits_iff.mp hfit, fun q => by rw [hlook, Op.effect_del]; rfl⟩
  · cases h.symm.trans herr

theorem unbound_of_unsetKV (hkey : Filled key) (h : unsetKV t key dir = .ok t') :
    Unbound t t' key dir := by
  obtain ⟨hown, hlook⟩ := look_of_unsetKV hkey h
  refine ⟨fun key' dir' hkey' hbelow => ?_, fun key' dir' hkey' hbelow => ?_⟩
  · by_cases hvalue : ValueKey key'
    · have hnone : t'.look (keyPath key') = none := by
        rw [hlook, if_pos]
        cases dir with
        | true => exact hbelow
        | false => exact congrArg keyPath hbelow.1
      cases dir' with
      | true => exact ⟨ErrNoSuchBucket, by rw [getKV_dir hvalue, hnone]; rfl⟩
      | false => exact ⟨_, getKV_of_no_value hvalue fun v => by rw [hnone]; exact nofun⟩
    · obtain ⟨err, herr⟩ := getKV_malformed hkey' hvalue
      exact ⟨err, herr t' dir'⟩
  · have hparent : (keySplitter key').1 <+: keyPath key' := List.prefix_append _ _
    cases dir with
    | true =>
      have hpath : ¬ keyPath key <+: keyPath key' := hbelow
      have hkept : ∀ q, q <+: keyPath key' → t'.look q = t.look q := fun q hq => by
        rw [hlook]
        exact if_neg fun hpre => hpath (List.IsPrefix.trans hpre hq)
      exact getKV_congr hkey' (hkept _ List.prefix_rfl) (by rw [hkept _ hparent]) dir'
    | false =>
      have hlook : ∀ q, t'.look q = if q = keyPath key then none else t.look q := hlook
      have hdirs : ∀ q, t'.look q = some .dir ↔ t.look q = some .dir := by
        intro q
        rw [hlook]
        split
        · next heq => exact iff_of_false nofun (heq ▸ hown rfl)
        · exact Iff.rfl
      by_cases heq : keyPath key' = keyPath key
      · -- the key itself, read as a directory
        have hsame : key' = key := keyPath_injective heq
        have hdir : dir' = true := Bool.eq_true_of_not_eq_false fun hf => hbelow ⟨hsame, hf⟩
        subst hdir
        by_cases hvalue : ValueKey key'
        · rw [getKV_dir hvalue, getKV_dir hvalue]
          simp only [hdirs]
        · obtain ⟨err, herr⟩ := getKV_malformed hkey' hvalue
          rw [herr, herr]
      · exact getKV_congr hkey' (by rw [hlook, if_neg heq]) (hdirs _) dir'

end Set

/-! ## Every run -/

/-- A call of `SetKV` or `UnsetKV`. -/
inductive Write where
  | set (key : String) (val : Entity) (dir : Bool)
  | unset (key : String) (dir : Bool)

namespace Write

def result (t : Store) : Write → Except GoError Store
  | set key val dir => setKV t key val dir
  | unset key dir => unsetKV t key dir

/-- The transaction of a call that fails is rolled back. -/
def exec (t : Store) (w : Write) : Store × Option GoError :=
  match w.result t with
  | .ok t' => (t', none)
  | .error err => (t, some err)

/-- The operation on the hierarchical map. -/
def op : Write → Option (Op String Entity)
  | set key val dir => setOp key val dir
  | unset key dir => unsetOp key dir

/-- A call fails exactly where its key names no operation or one that does not fit the map, which
then stays as it is; otherwise the map is changed as the operation says. -/
theorem exec_refines (t : Store) (w : Write) :
    ((∃ o, w.op = some o ∧ o.Fits t.look) → (w.exec t).2 = none ∧
      ∀ o, w.op = some o → (w.exec t).1.look = o.effect t.look) ∧
    ((∀ o, w.op = some o → ¬ o.Fits t.look) → (∃ err, (w.exec t).2 = some err) ∧
      (w.exec t).1 = t) := by
  have hends : (∃ o t', w.op = some o ∧ o.Fits t.look ∧ w.result t = .ok t' ∧
        t'.look = o.effect t.look) ∨
      (∀ o, w.op = some o → ¬ o.Fits t.look) ∧ ∃ err, w.result t = .error err := by
    cases w with
    | set key val dir => exact setKV_ends t key val dir
    | unset key dir => exact unsetKV_ends t key dir
  unfold exec
  rcases hends with ⟨o, t', ho, hfit, ht', hlook⟩ | ⟨hno, err, herr⟩
  · refine ⟨fun _ => ?_, fun hno => absurd hfit (hno o ho)⟩
    rw [ht']
    refine ⟨rfl, fun o' ho' => ?_⟩
    cases ho.symm.trans ho'
    exact hlook
  · refine ⟨fun hfits => ?_, fun _ => ?_⟩
    · obtain ⟨o, ho, hfit⟩ := hfits
      exact absurd hfit (hno o ho)
    · rw [herr]
      exact ⟨⟨err, rfl⟩, rfl⟩

end Write

/-- The store after a sequence of calls. -/
def stores (log : List Write) : Store := log.foldl (fun t w => (w.exec t).1) Tree.empty

/-- What a call changes for the reader, on every store that is reached. -/
theorem stores_refine (log : List Write) (key : String) (hkey : Filled key) :
    (∀ val dir, match (Write.set key val dir).exec (stores log) with
      | (t', none) => Bound (stores log) t' key val dir
      | (t', some _) => t' = stores log) ∧
    ∀ dir, match (Write.unset key dir).exec (stores log) with
      | (t', none) => Unbound (stores log) t' key dir
      | (t', some _) => t' = stores log := by
  refine ⟨fun val dir => ?_, fun dir => ?_⟩
  · unfold Write.exec
    cases hset : (Write.set key val dir).result (stores log) with
    | error err => rfl
    | ok t' => exact bound_of_setKV hset
  · unfold Write.exec
    cases hunset : (Write.unset key dir).result (stores log) with
    | error err => rfl
    | ok t' => exact unbound_of_unsetKV hkey hunset

def firstValue : Entity := { key := "cassem/apps/shop", val := [49] }

def secondValue : Entity := { key := "cassem/apps/shop", val := [50] }

/-- A value that is written over, and removed. -/
theorem stores_refine_overwritten :
    let log := [Write.set "cassem/apps/shop" firstValue false]
    let log' := log ++ [Write.set "cassem/apps/shop" secondValue false]
    Bound (stores log) (stores log') "cassem/apps/shop" secondValue false ∧
      Unbound (stores log') (stores (log' ++ [.unset "cassem/apps/shop" false]))
        "cassem/apps/shop" false :=
  ⟨(stores_refine [.set "cassem/apps/shop" firstValue false] "cassem/apps/shop" (by decide)).1
      secondValue false,
    (stores_refine [.set "cassem/apps/shop" firstValue false,
      .set "cassem/apps/shop" secondValue false] "cassem/apps/shop" (by decide)).2 false⟩

end Cassem.KV
