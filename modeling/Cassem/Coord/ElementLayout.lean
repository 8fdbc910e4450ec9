import Cassem.Coord.ElementStore

/-!
# Where the records lie

Each record of an element and each app has a place of its own in the storage, and no place is
above another. In a store where values stand at these places only, an operation that runs alone is
carried out as on a map from keys to records.
-/

namespace Cassem.Coord

open Lib Cassem.Concept
open KV (Bytes Entity Store Plain)

/-! ## Names with numbers -/

theorem toList_decimal (t : Int) : (toString t).toList =
    (if t < 0 then ['-'] else []) ++ Nat.toDigits 10 t.natAbs := by
  cases t with
  | ofNat m =>
    have hneg : ¬ Int.ofNat m < 0 := not_lt.mpr (Int.natCast_nonneg m)
    rw [if_neg hneg, List.nil_append]
    exact Nat.toList_repr
  | negSucc m =>
    rw [if_pos (Int.negSucc_lt_zero m)]
    exact String.toList_append.trans (congrArg _ Nat.toList_repr)

theorem mem_toString {t : Int} {c : Char} (hc : c ∈ (toString t).toList) :
    c.isDigit = true ∨ c = '-' := by
  rw [toList_decimal] at hc
  rcases List.mem_append.mp hc with hsign | hdigit
  · split at hsign
    · exact .inr (List.mem_singleton.mp hsign)
    · cases hsign
  · exact .inl (Nat.isDigit_of_mem_toDigits (by decide) (by decide) hdigit)

theorem plain_toString (t : Int) : Plain (toString t) := by
  have hnot : ∀ c : Char, c.isDigit = false → c ≠ '-' → c ∉ (toString t).toList := by
    intro c hdigit hsign hmem
    rcases mem_toString hmem with hc | hc
    · rw [hdigit] at hc
      cases hc
    · exact hsign hc
  have hdot : '.' ∉ (toString t).toList := hnot '.' (by decide) (by decide)
  refine ⟨?_, hnot '/' (by decide) (by decide), fun h => hdot (by rw [h]; decide),
    fun h => hdot (by rw [h]; decide)⟩
  obtain ⟨c, cs, hcs⟩ := List.exists_cons_of_ne_nil (Nat.toDigits_ne_nil (n := t.natAbs) (b := 10))
  have hdigit : c.isDigit = true := Nat.isDigit_of_mem_toDigits (n := t.natAbs) (b := 10) (by decide)
    (by decide) (hcs ▸ List.mem_cons_self)
  have hspace : KV.isSpace c = false := by
    have hplain := KV.plain_of_isIdentifier (s := String.ofList [c])
      (by simp [Adm.isIdentifier, Char.isAlphanum, hdigit])
    simpa [KV.isEmptyLeaf] using hplain.filled
  rw [KV.isEmptyLeaf, toList_decimal, hcs, List.all_append, List.all_cons, hspace,
    Bool.false_and, Bool.and_false]

theorem length_toString_le {t : Int} (h : t.natAbs ≤ 2 ^ 63) : (toString t).toList.length ≤ 21 := by
  have hdigits : (Nat.toDigits 10 t.natAbs).length ≤ 20 :=
    (Nat.length_toDigits_le_iff (by decide) (by decide)).mpr (by omega)
  rw [toList_decimal, List.length_append]
  split <;> simp only [List.length_singleton, List.length_nil] <;> omega

theorem size_le (s : String) : s.utf8ByteSize ≤ 4 * s.toList.length := by
  have hchars : ∀ cs : List Char, (String.ofList cs).utf8ByteSize ≤ 4 * cs.length := by
    intro cs
    induction cs with
    | nil => exact Nat.le_refl 0
    | cons c cs ih =>
      have hcons : String.ofList (c :: cs) = String.singleton c ++ String.ofList cs :=
        String.toList_injective (by simp)
      have hc := c.utf8Size_le_four
      rw [hcons, String.utf8ByteSize_append, String.utf8ByteSize_singleton, List.length_cons]
      omega
  have hs := hchars s.toList
  rwa [String.ofList_toList] at hs

/-! ## Paths -/

theorem joint_root (root : String) (segs : List String) :
    joint (("cassem/" ++ root) :: segs) = "/".intercalate ("cassem" :: root :: segs) := by
  cases segs with
  | nil =>
    rw [joint, String.intercalate_singleton,
      String.intercalate_cons_of_ne_nil (List.cons_ne_nil root []), String.intercalate_singleton]
    exact String.toList_injective (by simp)
  | cons s segs =>
    rw [joint, String.intercalate_cons_of_ne_nil (List.cons_ne_nil s segs),
      String.intercalate_cons_of_ne_nil (List.cons_ne_nil root (s :: segs)),
      String.intercalate_cons_of_ne_nil (List.cons_ne_nil s segs)]
    simp only [String.append_assoc]
    exact String.toList_injective (by simp)

/-! The keys of the service, each as a directory and a name in it. -/

theorem appKey_split (app : String) :
    GenAppKey app = "/".intercalate (["cassem", "apps"] ++ [app]) :=
  joint_root "apps" _

theorem appElementKey_split (app : String) :
    Adm.Retention.GenAppElementKey app = "/".intercalate (["cassem", "elements"] ++ [app]) :=
  joint_root "elements" _

theorem appOperationKey_split (app : String) :
    GenAppOperationKey app = "/".intercalate (["cassem", "operations"] ++ [app]) :=
  joint_root "operations" _

theorem envElementKey_split (app env : String) : Adm.Retention.GenAppElementEnvKey app env =
    "/".intercalate (["cassem", "elements", app] ++ [env]) :=
  joint_root "elements" _

theorem envOperationKey_split (app env : String) : GenAppEnvOperationKey app env =
    "/".intercalate (["cassem", "operations", app] ++ [env]) :=
  joint_root "operations" _

theorem elementKey_split (n : ElementName) : n.elementKey =
    "/".intercalate (["cassem", "elements", n.app, n.env] ++ [n.key]) :=
  joint_root "elements" _

theorem elementOperationKey_split (n : ElementName) :
    GenElementOperationKeyPrefix n.app n.env n.key =
      "/".intercalate (["cassem", "operations", n.app, n.env] ++ [n.key]) :=
  joint_root "operations" _

def ElementName.path (n : ElementName) : List String :=
  ["cassem", "elements", n.app, n.env, n.key]

def ElementName.operationPath (n : ElementName) : List String :=
  ["cassem", "operations", n.app, n.env, n.key, "operations"]

namespace Target

def front (n : ElementName) : Target → List String
  | .operation _ => n.operationPath
  | _ => n.path

def leaf : Target → String
  | .metadata => "metadata"
  | .version v => "v" ++ toString v
  | .operation operatedAt => toString operatedAt

def path (n : ElementName) (t : Target) : List String := t.front n ++ [t.leaf]

def kind : Target → RecordKind
  | .metadata => .metadata
  | .version _ => .element
  | .operation _ => .operation

/-- The numbers are no longer than those of the fields. -/
def Fits : Target → Prop
  | .metadata => True
  | .version v | .operation v => v.natAbs ≤ 2 ^ 63

end Target

theorem elementKey_eq (n : ElementName) : n.elementKey = "/".intercalate n.path :=
  joint_root "elements" _

theorem key_eq (n : ElementName) (t : Target) : t.key n = "/".intercalate (t.path n) := by
  have hne : n.path ≠ [] := List.cons_ne_nil _ _
  cases t with
  | metadata =>
    show WithMetadataSuffix n.elementKey = _
    rw [metadataKey_eq, elementKey_eq]
    exact (KV.intercalate_snoc hne).symm
  | version v =>
    show versionKey n.elementKey v = _
    rw [versionKey_eq, elementKey_eq]
    exact (KV.intercalate_snoc hne).symm
  | operation operatedAt =>
    have hprefix : GenElementOperationKeyPrefix n.app n.env n.key =
        "/".intercalate ["cassem", "operations", n.app, n.env, n.key] := joint_root "operations" _
    have hdir : GenElementOperationDirKey n.app n.env n.key = "/".intercalate n.operationPath := by
      rw [GenElementOperationDirKey, joint_pair, hprefix, ← String.append_assoc]
      exact (KV.intercalate_snoc (List.cons_ne_nil _ _)).symm
    show joint [GenElementOperationDirKey n.app n.env n.key, toString operatedAt] = _
    rw [joint_pair, hdir, ← String.append_assoc]
    exact (KV.intercalate_snoc (List.cons_ne_nil _ _)).symm

theorem plain_leaf (t : Target) : Plain t.leaf := by
  cases t with
  | metadata => decide
  | version v =>
    refine KV.plain_of_isIdentifier ?_
    have hlist : (Target.version v).leaf.toList = 'v' :: (toString v).toList :=
      String.toList_append
    unfold Adm.isIdentifier
    rw [hlist]
    refine Bool.and_eq_true_iff.mpr ⟨by decide, List.all_eq_true.mpr fun c hc => ?_⟩
    rcases mem_toString hc with hdigit | rfl
    · simp [Char.isAlphanum, hdigit]
    · decide
  | operation operatedAt => exact plain_toString operatedAt

theorem leaf_size_le {t : Target} (ht : t.Fits) : t.leaf.utf8ByteSize ≤ KV.Bolt.MaxKeySize := by
  have hsize := size_le t.leaf
  have hlen : t.leaf.toList.length ≤ 22 := by
    cases t with
    | metadata => decide
    | version v =>
      have hlist : (Target.version v).leaf.toList = 'v' :: (toString v).toList :=
        String.toList_append
      rw [hlist, List.length_cons]
      exact Nat.succ_le_succ (length_toString_le ht)
    | operation operatedAt => exact (length_toString_le ht).trans (by decide)
  unfold KV.Bolt.MaxKeySize
  omega

theorem kindAt_path (n : ElementName) (t : Target) : kindAt (t.path n) = t.kind := by
  cases t with
  | metadata => rfl
  | operation operatedAt => rfl
  | version v =>
    have hne : "v" ++ toString v ≠ "metadata" := fun h => by
      have hlist := congrArg (fun s : String => s.toList[0]?) h
      simp at hlist
    have hlast : (Target.path n (.version v)).getLast? = some ("v" ++ toString v) := rfl
    have htree : (Target.path n (.version v))[1]? = some "elements" := rfl
    rw [kindAt, htree, hlast, if_neg (by decide), if_neg fun h => hne (Option.some.inj h)]
    rfl

theorem plain_path {n : ElementName} (hn : n.Valid) (t : Target) : ∀ s ∈ t.path n, Plain s := by
  have happ := KV.plain_of_isIdentifier hn.app
  have henv := KV.plain_of_isIdentifier hn.env
  have hkey := KV.plain_of_isIdentifier hn.key
  have hroots : Plain "cassem" ∧ Plain "elements" ∧ Plain "operations" := by decide
  obtain ⟨hcassem, helements, hoperations⟩ := hroots
  have hfront : ∀ s ∈ t.front n, Plain s := by
    cases t <;> simp [Target.front, ElementName.path, ElementName.operationPath, *]
  intro s hs
  rcases List.mem_append.mp hs with hs | hs
  · exact hfront s hs
  · exact List.mem_singleton.mp hs ▸ plain_leaf t

/-! ## Places -/

/-- The places for values: the records of elements with valid names, and the apps. -/
inductive Slot : List String → Prop
  | record {n : ElementName} (hn : n.Valid) {t : Target} (ht : t.Fits) : Slot (t.path n)
  | app {appId : String} (happ : Adm.isIdentifier appId = true) : Slot ["cassem", "apps", appId]

/-- How long the places of a tree are, which its name tells. -/
def depth (path : List String) : Nat :=
  if path[1]? = some "elements" then 6 else if path[1]? = some "operations" then 7 else 3

theorem Slot.length_eq {p : List String} (h : Slot p) : p.length = depth p := by
  cases h with
  | record hn ht => rename_i t; cases t <;> rfl
  | app happ => rfl

/-- No place is above another. -/
theorem Slot.eq_of_below {p q : List String} (h : Slot p) (h' : Slot q) (hpre : p <+: q) :
    p = q := by
  have hlong : ∀ {p}, Slot p → 1 < p.length := by
    intro p h
    cases h with
    | record hn ht => rename_i t; cases t <;> simp [Target.path, Target.front, ElementName.path, ElementName.operationPath]
    | app happ => simp
  have htree : p[1]? = q[1]? := by
    obtain ⟨r, rfl⟩ := hpre
    exact (List.getElem?_append_left (hlong h)).symm
  refine hpre.eq_of_length ?_
  rw [h.length_eq, h'.length_eq, depth, depth, htree]

theorem Slot.plain {p : List String} (h : Slot p) : ∀ s ∈ p, Plain s := by
  cases h with
  | record hn ht => exact plain_path hn _
  | app happ =>
    have hid := KV.plain_of_isIdentifier happ
    have hroots : Plain "cassem" ∧ Plain "apps" := by decide
    simpa using ⟨hroots.1, hroots.2, hid⟩

/-- A place in the directory of an element is one of its records. -/
theorem Slot.exists_target {n : ElementName} {leaf : String} (h : Slot (n.path ++ [leaf])) :
    ∃ t : Target, t.OfContent ∧ t.Fits ∧ t.leaf = leaf := by
  generalize hp : n.path ++ [leaf] = p at h
  cases h with
  | @record n' hn t ht =>
    cases t with
    | operation operatedAt =>
      have htree := congrArg (fun p : List String => p[1]?) hp
      simp [ElementName.path, Target.path, Target.front, ElementName.operationPath] at htree
    | metadata =>
      have hleaf := List.append_inj_right' hp rfl
      exact ⟨.metadata, trivial, ht, (List.cons.inj hleaf).1.symm⟩
    | version v =>
      have hleaf := List.append_inj_right' hp rfl
      exact ⟨.version v, trivial, ht, (List.cons.inj hleaf).1.symm⟩
  | app happ =>
    have hlen := congrArg List.length hp
    simp [ElementName.path] at hlen

/-- Values stand in their places, and directories above them; the directory of an element is
never empty. -/
structure Laid (store : Store) : Prop where
  value : ∀ p e, store.look p = some (.val e) →
    Slot p ∧ e.key = "/".intercalate p ∧ e.ttl = KV.NeverExpired
  dir : ∀ p, store.look p = some .dir → ∃ q, Slot q ∧ p <+: q ∧ p ≠ q
  filled : ∀ n : ElementName, n.Valid → store.look n.path ≠ none →
    ∃ leaf, store.look (n.path ++ [leaf]) ≠ none

namespace Laid

variable {store store' : Store} (h : Laid store)
include h

theorem not_dir {p : List String} (hp : Slot p) : store.look p ≠ some .dir := by
  intro hdir
  obtain ⟨q, hq, hpre, hne⟩ := h.dir p hdir
  exact hne (hp.eq_of_below hq hpre)

theorem steady {p : List String} (hp : Slot p) : KV.Steady store p := by
  intro c hc
  cases c with
  | dir => exact absurd hc (h.not_dir hp)
  | val e => exact ⟨e, rfl, (h.value p e hc).2.2⟩

/-- What is above a place is no value. -/
theorem above {p q : List String} (hp : Slot p) (hpre : q <+: p) (hne : q ≠ p) (e : Entity) :
    store.look q ≠ some (.val e) :=
  fun hq => hne ((h.value q e hq).1.eq_of_below hp hpre)

section Put

variable {front : List String} {leaf : String} {e : Entity} (hslot : Slot (front ++ [leaf]))
  (hlook : ∀ q, store'.look q =
    if q = front ++ [leaf] then some (.val e) else if q <+: front then some .dir else store.look q)
include hslot hlook

theorem put (hkey : e.key = "/".intercalate (front ++ [leaf])) (httl : e.ttl = KV.NeverExpired) :
    Laid store' where
  value p e' he := by
    rw [hlook] at he
    split at he
    · next hp =>
      cases he
      rw [hp]
      exact ⟨hslot, hkey, httl⟩
    · split at he
      · cases he
      · exact h.value p e' he
  dir p hdir := by
    rw [hlook] at hdir
    split at hdir
    · cases hdir
    · next hne =>
      split at hdir
      · next hpre => exact ⟨_, hslot, hpre.trans (List.prefix_append front [leaf]), hne⟩
      · exact h.dir p hdir
  filled n hn hne := by
    have hkeeps : ∀ q, store.look q ≠ none → store'.look q ≠ none := by
      intro q hq
      rw [hlook]
      split
      · nofun
      · split
        · nofun
        · exact hq
    have hlen := hslot.length_eq
    rw [List.length_append, List.length_singleton] at hlen
    rw [hlook] at hne
    split at hne
    · next hp =>
      -- the directory of an element is no place
      rw [← hp] at hlen hslot
      have hshort := hslot.length_eq
      cases hshort
    · split at hne
      · next hpre =>
        obtain ⟨r, rfl⟩ := hpre
        have hdepth : depth (n.path ++ r ++ [leaf]) = 6 := rfl
        rw [hdepth, List.length_append] at hlen
        have hr : r = [] := List.length_eq_zero_iff.mp (by
          have hpath : n.path.length = 5 := rfl
          omega)
        subst hr
        refine ⟨leaf, ?_⟩
        rw [hlook, List.append_nil, if_pos rfl]
        nofun
      · obtain ⟨leaf', hleaf⟩ := h.filled n hn hne
        exact ⟨leaf', hkeeps _ hleaf⟩

end Put

/-- Where the directory of an element and what is in it can only go together. -/
theorem drop {gone : List String → Prop} (hgone : ∀ q, gone q → store'.look q = none)
    (hkept : ∀ q, ¬ gone q → store'.look q = store.look q)
    (helement : ∀ (n : ElementName) (leaf : String), gone (n.path ++ [leaf]) → gone n.path) :
    Laid store' where
  value p e he := by
    by_cases hp : gone p
    · rw [hgone p hp] at he
      cases he
    · exact h.value p e (hkept p hp ▸ he)
  dir p hdir := by
    by_cases hp : gone p
    · rw [hgone p hp] at hdir
      cases hdir
    · exact h.dir p (hkept p hp ▸ hdir)
  filled n hn hne := by
    have hp : ¬ gone n.path := fun hp => hne (hgone _ hp)
    rw [hkept _ hp] at hne
    obtain ⟨leaf, hleaf⟩ := h.filled n hn hne
    refine ⟨leaf, ?_⟩
    rw [hkept _ fun hleaf => hp (helement n leaf hleaf)]
    exact hleaf

/-- A directory above that of an element. -/
theorem mkdir {p : List String} (hlook : ∀ q, store'.look q = if q <+: p then some .dir else store.look q)
    (hlen : p.length < 5) {slot : List String} (hslot : Slot slot) (hpre : p <+: slot) (hne : p ≠ slot) :
    Laid store' where
  value q e he := by
    rw [hlook] at he
    split at he
    · cases he
    · exact h.value q e he
  dir q hdir := by
    rw [hlook] at hdir
    split at hdir
    · next hq =>
      refine ⟨slot, hslot, hq.trans hpre, fun heq => hne ?_⟩
      exact hpre.eq_of_length_le (heq ▸ hq.length_le)
    · exact h.dir q hdir
  filled n hn hne := by
    have hlong : ∀ rest, ¬ n.path ++ rest <+: p := by
      intro rest hq
      have hle := hq.length_le
      rw [List.length_append] at hle
      have hpath : n.path.length = 5 := rfl
      omega
    have hpath := hlong []
    rw [List.append_nil] at hpath
    rw [hlook, if_neg hpath] at hne
    obtain ⟨leaf, hleaf⟩ := h.filled n hn hne
    refine ⟨leaf, ?_⟩
    rw [hlook, if_neg (hlong [leaf])]
    exact hleaf

end Laid

theorem laid_empty : Laid Tree.empty where
  value p e he := by
    rw [Tree.look_empty] at he
    split at he <;> cases he
  dir p hdir := by
    rw [Tree.look_empty] at hdir
    split at hdir
    · next hp =>
      subst hp
      exact ⟨_, .app (show Adm.isIdentifier "a" = true by decide), List.nil_prefix, nofun⟩
    · cases hdir
  filled n hn hne := absurd rfl hne

end Cassem.Coord
