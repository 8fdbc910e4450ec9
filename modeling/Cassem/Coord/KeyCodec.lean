import Cassem.Coord.ElementService
import Cassem.Coord.InstanceIndex
import Cassem.Coord.Read

/-!
# Keys and their parts

The suffixes that the keys of an element are given come off again. The keys of records, apps,
environments and reversed instances have different segments, so they are different strings.
-/

namespace Cassem.Concept

open Lib

/-- `strings.HasPrefix(s, "v")`. -/
def isVersionLeaf (s : String) : Bool := decide (['v'] <+: s.toList)

/-- `trimVersion` of the concepts: the last segment goes if it begins with a `v`. -/
def trimVersion (key : String) : String :=
  let arr := KV.split key
  if arr.length ≤ 1 then key
  else if isVersionLeaf (arr.getLastD "") = false then key
  else joint arr.dropLast

/-- `strings.TrimSuffix`. -/
def trimSuffix (s suffix : String) : String :=
  if suffix.toList <:+ s.toList then
    String.ofList (s.toList.take (s.toList.length - suffix.toList.length))
  else s

def trimMetadata (key : String) : String := trimSuffix key "/metadata"

theorem trimSuffix_append (s suffix : String) : trimSuffix (s ++ suffix) suffix = s := by
  rw [trimSuffix, String.toList_append, if_pos (List.suffix_append _ _), List.length_append,
    Nat.add_sub_cancel, List.take_left, String.ofList_toList]

end Cassem.Concept

namespace Cassem.KV

theorem joint_split (key : String) : Concept.joint (split key) = key := intercalate_split key

end Cassem.KV

namespace Cassem.Coord

open Lib Cassem.Concept

/-! ## Suffixes -/

theorem split_leaf (t : Target) : KV.split t.leaf = [t.leaf] := by
  have hplain : ∀ s ∈ [t.leaf], KV.Plain s := fun s hs => List.mem_singleton.mp hs ▸ plain_leaf t
  have hsplit := KV.split_plain (List.cons_ne_nil _ []) hplain
  rwa [String.intercalate_singleton] at hsplit

theorem trimVersion_version (k : String) (n : Int) :
    Concept.trimVersion (versionKey k n) = k := by
  have hsplit : KV.split (versionKey k n) = KV.split k ++ ["v" ++ toString n] := by
    rw [versionKey_eq, KV.split_slash]
    exact congrArg _ (split_leaf (.version n))
  have hne : KV.split k ≠ [] := fun h => KV.splitChars_ne_nil _ (List.map_eq_nil_iff.mp h)
  have hlen : ¬ (KV.split k ++ ["v" ++ toString n]).length ≤ 1 := by
    have hpos := List.length_pos_iff.mpr hne
    rw [List.length_append, List.length_singleton]
    omega
  have hleaf : isVersionLeaf ("v" ++ toString n) = true := by
    have hlist : ("v" ++ toString n).toList = 'v' :: (toString n).toList := String.toList_append
    rw [isVersionLeaf, hlist]
    exact decide_eq_true (List.prefix_append ['v'] _)
  unfold Concept.trimVersion
  dsimp only
  rw [hsplit, if_neg hlen, List.getLastD_concat, hleaf, if_neg (by decide), List.dropLast_concat,
    KV.joint_split]

theorem trimMetadata_suffix (k : String) : Concept.trimMetadata (WithMetadataSuffix k) = k :=
  trimSuffix_append k "/metadata"

/-- The number of a version is read off its key. -/
theorem versionFromStorageKey_eq (root : String) {n : Int} (hlow : 1 ≤ n) (hhigh : n < 2 ^ 31) :
    versionFromStorageKey root (versionKey root n) = some n := by
  obtain ⟨m, rfl⟩ := Int.eq_ofNat_of_zero_le (show 0 ≤ n by omega)
  exact versionFromStorageKey_written root (by omega) (by omega)

/-! ## Segments -/

/-- The builders of keys, with their arguments. -/
inductive StorageKey where
  | metadata (app env key : String)
  | version (app env key : String) (n : Int)
  | operation (app env key : String) (operatedAt : Int)
  | application (app : String)
  | environment (app env : String)
  | reversed (app env key : String)
  | reversedInstance (app env key insId : String)
  deriving DecidableEq, Repr

namespace StorageKey

def gen : StorageKey → Except Fault String
  | .metadata app env key => (GenElementKey app env key).map WithMetadataSuffix
  | .version app env key n => do WithVersion (← GenElementKey app env key) n
  | .operation app env key operatedAt => .ok (GenElementOperationKey app env key operatedAt)
  | .application app => .ok (GenAppKey app)
  | .environment app env => .ok (Adm.Retention.GenAppElementEnvKey app env)
  | .reversed app env key => .ok (GenInstanceReversedKey app env key)
  | .reversedInstance app env key insId => .ok (GenInstanceReversedKeyWithInsId app env key insId)

/-- Identifiers of the pattern, and numbers from 1 to the largest `int32`. An instance may have any
id. -/
def Valid : StorageKey → Prop
  | .metadata app env key | .operation app env key _ | .reversed app env key
  | .reversedInstance app env key _ =>
      Adm.isIdentifier app = true ∧ Adm.isIdentifier env = true ∧ Adm.isIdentifier key = true
  | .version app env key n =>
      (Adm.isIdentifier app = true ∧ Adm.isIdentifier env = true ∧ Adm.isIdentifier key = true) ∧
        1 ≤ n ∧ n < 2 ^ 31
  | .application app => Adm.isIdentifier app = true
  | .environment app env => Adm.isIdentifier app = true ∧ Adm.isIdentifier env = true

def segments : StorageKey → List String
  | .metadata app env key => ["cassem", "elements", app, env, key, "metadata"]
  | .version app env key n => ["cassem", "elements", app, env, key, "v" ++ toString n]
  | .operation app env key operatedAt =>
      ["cassem", "operations", app, env, key, "operations", toString operatedAt]
  | .application app => ["cassem", "apps", app]
  | .environment app env => ["cassem", "elements", app, env]
  | .reversed app env key => ["cassem", "instances", "reversed", app ++ "@@@" ++ env ++ "@@@" ++ key]
  | .reversedInstance app env key insId =>
      ["cassem", "instances", "reversed", app ++ "@@@" ++ env ++ "@@@" ++ key] ++ KV.split insId

theorem metadata_ne_leaf (n : Int) : "metadata" ≠ "v" ++ toString n := fun h => by
  have hlist := congrArg (fun s : String => s.toList[0]?) h
  simp at hlist

/-- The joined name of a reversed key has the three identifiers in it. -/
theorem reversedName_inj {app env key app' env' key' : String}
    (h : Adm.isIdentifier app = true ∧ Adm.isIdentifier env = true ∧ Adm.isIdentifier key = true)
    (heq : app ++ "@@@" ++ env ++ "@@@" ++ key = app' ++ "@@@" ++ env' ++ "@@@" ++ key') :
    app = app' ∧ env = env' ∧ key = key' := by
  refine reversedDir_inj h.1 h.2.1 h.2.2 ?_
  rw [GenInstanceReversedKey, heq]
  rfl

theorem segments_injective {a b : StorageKey} (ha : a.Valid) (hb : b.Valid)
    (h : a.segments = b.segments) : a = b := by
  -- lists of other lengths, or with another name at the start, are told apart by simp
  cases a <;> cases b <;> simp [segments] at h
  case metadata.metadata =>
    obtain ⟨rfl, rfl, rfl⟩ := h
    rfl
  case metadata.version => exact absurd h.2.2.2 (metadata_ne_leaf _)
  case version.metadata => exact absurd h.2.2.2.symm (metadata_ne_leaf _)
  case version.version =>
    obtain ⟨rfl, rfl, rfl, rfl⟩ := h
    rfl
  case operation.operation =>
    obtain ⟨rfl, rfl, rfl, rfl⟩ := h
    rfl
  case application.application =>
    rw [h]
  case environment.environment =>
    obtain ⟨rfl, rfl⟩ := h
    rfl
  case reversed.reversed =>
    obtain ⟨rfl, rfl, rfl⟩ := reversedName_inj ha h
    rfl
  case reversed.reversedInstance => exact absurd h.2 (KV.split_ne_nil _)
  case reversedInstance.reversed => exact absurd h.2 (KV.split_ne_nil _)
  case reversedInstance.reversedInstance =>
    obtain ⟨rfl, rfl, rfl⟩ := reversedName_inj ha h.1
    rw [KV.split_injective h.2]

theorem split_record {n : ElementName} (hn : n.Valid) (t : Target) :
    KV.split (t.key n) = t.path n := by
  rw [← KV.keyPath_eq_split, keyPath_key hn t]

theorem split_reversed {app env key : String} (happ : Adm.isIdentifier app = true)
    (henv : Adm.isIdentifier env = true) (hkey : Adm.isIdentifier key = true) :
    KV.split (GenInstanceReversedKey app env key) =
      ["cassem", "instances", "reversed", app ++ "@@@" ++ env ++ "@@@" ++ key] := by
  have hname : '/' ∉ (app ++ "@@@" ++ env ++ "@@@" ++ key).toList := by
    simp [String.toList_append, slash_notMem happ, slash_notMem henv, slash_notMem hkey]
  have hjoint : GenInstanceReversedKey app env key = "/".intercalate
      ["cassem", "instances", "reversed", app ++ "@@@" ++ env ++ "@@@" ++ key] :=
    joint_root "instances" _
  rw [hjoint]
  refine KV.split_intercalate (List.cons_ne_nil _ _) fun s hs => ?_
  simp only [List.mem_cons, List.not_mem_nil, or_false] at hs
  rcases hs with rfl | rfl | rfl | rfl
  · decide
  · decide
  · decide
  · exact hname

/-- The builders do not panic, and the key has the segments. -/
theorem gen_spec {a : StorageKey} (ha : a.Valid) :
    ∃ k, a.gen = .ok k ∧ KV.split k = a.segments := by
  have hplain : ∀ {s}, Adm.isIdentifier s = true → KV.Plain s := KV.plain_of_isIdentifier
  have hroots : KV.Plain "cassem" ∧ KV.Plain "elements" ∧ KV.Plain "apps" := by decide
  cases a with
  | metadata app env key =>
    obtain ⟨happ, henv, hkey⟩ := ha
    have hn : (nameOf happ henv hkey).Valid := ⟨happ, henv, hkey⟩
    refine ⟨Target.key (nameOf happ henv hkey) .metadata, ?_, split_record hn .metadata⟩
    exact congrArg (Except.map WithMetadataSuffix) (nameOf happ henv hkey).genElementKey
  | version app env key n =>
    obtain ⟨⟨happ, henv, hkey⟩, hlow, -⟩ := ha
    have hn : (nameOf happ henv hkey).Valid := ⟨happ, henv, hkey⟩
    refine ⟨Target.key (nameOf happ henv hkey) (.version n), ?_, split_record hn (.version n)⟩
    exact (congrArg (· >>= (WithVersion · n)) (nameOf happ henv hkey).genElementKey).trans
      (if_neg (by omega))
  | operation app env key operatedAt =>
    obtain ⟨happ, henv, hkey⟩ := ha
    have hn : (nameOf happ henv hkey).Valid := ⟨happ, henv, hkey⟩
    exact ⟨Target.key (nameOf happ henv hkey) (.operation operatedAt), rfl,
      split_record hn (.operation operatedAt)⟩
  | application app =>
    have hjoint : GenAppKey app = "/".intercalate ["cassem", "apps", app] := joint_root "apps" _
    refine ⟨GenAppKey app, rfl, ?_⟩
    rw [hjoint]
    exact KV.split_plain (List.cons_ne_nil _ _) (by simpa using ⟨hroots.1, hroots.2.2, hplain ha⟩)
  | environment app env =>
    have hjoint : Adm.Retention.GenAppElementEnvKey app env =
        "/".intercalate ["cassem", "elements", app, env] := joint_root "elements" _
    refine ⟨Adm.Retention.GenAppElementEnvKey app env, rfl, ?_⟩
    rw [hjoint]
    exact KV.split_plain (List.cons_ne_nil _ _)
      (by simpa using ⟨hroots.1, hroots.2.1, hplain ha.1, hplain ha.2⟩)
  | reversed app env key => exact ⟨_, rfl, split_reversed ha.1 ha.2.1 ha.2.2⟩
  | reversedInstance app env key insId =>
    have hjoint : GenInstanceReversedKeyWithInsId app env key insId =
        GenInstanceReversedKey app env key ++ "/" ++ insId := by
      refine String.toList_injective ?_
      rw [reversedKey_toList]
      simp [String.toList_append]
    refine ⟨_, rfl, ?_⟩
    rw [hjoint, KV.split_slash, split_reversed ha.1 ha.2.1 ha.2.2]
    rfl

end StorageKey

/-- What is put on a key comes off again, and the keys of different arguments or of different kinds
are different. -/
theorem keys_faithful {app env key : String} (happ : Adm.isIdentifier app = true)
    (henv : Adm.isIdentifier env = true) (hkey : Adm.isIdentifier key = true) {n : Int}
    (hlow : 1 ≤ n) (hhigh : n ≤ 2 ^ 31 - 1) {a b : StorageKey} (ha : a.Valid) (hb : b.Valid)
    (hne : a ≠ b) :
    (∃ k kv, GenElementKey app env key = .ok k ∧ WithVersion k n = .ok kv ∧
      Concept.trimVersion kv = k ∧ trimVersion kv = k ∧
      Concept.trimMetadata (WithMetadataSuffix k) = k ∧ trimMetadata (WithMetadataSuffix k) = k ∧
      versionFromStorageKey k kv = some n) ∧
    ∃ k k', a.gen = .ok k ∧ b.gen = .ok k' ∧ k ≠ k' := by
  have hn := (nameOf happ henv hkey).genElementKey
  have hk : (nameOf happ henv hkey).elementKey ≠ "" := by
    intro hempty
    have hlist := congrArg (fun s : String => s.toList[0]?) hempty
    simp [ElementName.elementKey, joint] at hlist
  constructor
  · refine ⟨_, versionKey (nameOf happ henv hkey).elementKey n, hn, if_neg (by omega),
      trimVersion_version _ n, trimVersion_versionKey hk (by omega) (by omega),
      trimMetadata_suffix _, trimMetadata_metadata _, versionFromStorageKey_eq _ hlow (by omega)⟩
  · obtain ⟨k, hgen, hsplit⟩ := StorageKey.gen_spec ha
    obtain ⟨k', hgen', hsplit'⟩ := StorageKey.gen_spec hb
    refine ⟨k, k', hgen, hgen', fun heq => hne ?_⟩
    refine StorageKey.segments_injective ha hb ?_
    rw [← hsplit, ← hsplit', heq]

/-- Names that look like suffixes. -/
theorem keys_faithful_suffixes :
    (∃ k kv, GenElementKey "v1" "metadata" "operations" = .ok k ∧ WithVersion k 7 = .ok kv ∧
      Concept.trimVersion kv = k ∧ trimVersion kv = k ∧
      Concept.trimMetadata (WithMetadataSuffix k) = k ∧ trimMetadata (WithMetadataSuffix k) = k ∧
      versionFromStorageKey k kv = some 7) ∧
    ∃ k k', (StorageKey.metadata "v1" "metadata" "operations").gen = .ok k ∧
      (StorageKey.environment "v1" "metadata").gen = .ok k' ∧ k ≠ k' :=
  keys_faithful (by decide) (by decide) (by decide) (by decide) (by decide)
    (a := .metadata "v1" "metadata" "operations") (b := .environment "v1" "metadata")
    (by unfold StorageKey.Valid; decide) (by unfold StorageKey.Valid; decide) (by decide)

end Cassem.Coord
