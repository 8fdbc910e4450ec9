import Cassem.Coord.Store
import Cassem.Lib.Decimal
import Cassem.Lib.SortedMap

/-!
# Reading elements by their keys

`getElementsByKeys` reads the metadata of all the elements at once, and then one version of
each: the one in use, or the one that is not published yet where none is in use. Keys that
are not there are left out.
-/

namespace Cassem.Coord

open Lib Cassem.Concept
open KV (Bytes int32)

/-! ## Keys -/

/-- `strings.TrimSuffix(key, "/metadata")`. -/
def trimMetadata (key : String) : String :=
  if "/metadata".toList <:+ key.toList then
    String.ofList (key.toList.take (key.toList.length - "/metadata".toList.length))
  else key

/-- `strings.LastIndex(key, "/v")`. -/
def lastVersionIndex : List Char → Option Nat
  | [] => none
  | c :: cs =>
      match lastVersionIndex cs with
      | some idx => some (idx + 1)
      | none => if ['/', 'v'] <+: c :: cs then some 0 else none

def trimVersion (key : String) : String :=
  match lastVersionIndex key.toList with
  | none | some 0 => key
  | some idx =>
      if (Decimal.parseInt 64 (key.toList.drop (idx + 2))).isNone then key
      else String.ofList (key.toList.take idx)

/-! ## Conversions -/

abbrev Entities := List (String × Record)

/-- The key of the version that one record of metadata stands for. -/
def versionKeyOf (wipeUnpublish : Bool) (entity : String × Record) :
    Except Fault (Option String) :=
  match entity.2 with
  | .metadata md =>
      let k := trimMetadata entity.1
      if md.UsingVersion ≠ 0 then (WithVersion k md.UsingVersion).map some
      else if !wipeUnpublish ∧ md.UsingVersion ≤ 0 ∧ md.UnpublishedVersion ≠ 0 then
        (WithVersion k md.UnpublishedVersion).map some
      else .ok none
  | _ => .ok none

def mappingOf (mapping : List (String × ElementMetadata)) (entity : String × Record) :
    List (String × ElementMetadata) :=
  match entity.2 with
  | .metadata md => SortedMap.insert (trimMetadata entity.1) md mapping
  | _ => mapping

/-- The keys of the versions, the metadata, and the metadata by key. -/
def ConvertFromEntitiesToMetadata (entities : Entities) (wipeUnpublish : Bool) :
    Except Fault (List String × List ElementMetadata × List (String × ElementMetadata)) := do
  let keys ← entities.mapM (versionKeyOf wipeUnpublish)
  let arr := entities.filterMap fun entity => match entity.2 with
    | .metadata md => some md
    | _ => none
  return (keys.reduceOption, arr, entities.foldl mappingOf [])

def ConvertFromEntitiesToElements (entities : Entities)
    (mdMapping : List (String × ElementMetadata)) : List Element :=
  entities.filterMap fun entity => match entity.2 with
    | .element ele =>
        some { ele with Metadata := SortedMap.lookup (trimVersion entity.1) mdMapping }
    | _ => none

/-! ## Reading -/

/-- The records that are there, and the keys of those that are not. -/
def getKVs (kv : KVState) (keys : List String) : Entities × List String :=
  (keys.filterMap fun key => (kv key).map fun val => (key, val),
    keys.filter fun key => (kv key).isNone)

/-- Here a key can have no other error than that it is not there. -/
def getKVsErrors (missing : List String) (ignoreNotFound : Bool) : Option GoError :=
  if ignoreNotFound ∨ missing = [] then none
  else some (.join (missing.map fun key =>
    .join [.text ("key " ++ key ++ ": NotFound: NOT_FOUND"), .concept Err_NOT_FOUND]))

/-- The elements, over what the service answers to `GetKVs`. -/
def elementsByKeys (GetKVs : List String → Except GoError (Entities × List String))
    (app env : String) (keys : List String) : Except Fault (List Element) := do
  if keys = [] then
    return []
  let mdKeys ← keys.mapM fun key => (GenElementKey app env key).map WithMetadataSuffix
  match GetKVs mdKeys with
  | .error err => throw (.error (.text ("kvReadOnly.getElementsByKeys: " ++ err.message)))
  | .ok (metadatas, missing) =>
    match getKVsErrors missing true with
    | some err => throw (.error (.errorf "kvReadOnly.getElementsByKeys.metadata: " err))
    | none =>
      let (eleVersionKeys, _, metadataMapping) ← ConvertFromEntitiesToMetadata metadatas false
      if eleVersionKeys = [] then
        return []
      match GetKVs eleVersionKeys with
      | .error err => throw (.error (.text ("kvReadOnly.getElementsByKeys: " ++ err.message)))
      | .ok (elements, missing) =>
        match getKVsErrors missing false with
        | some err => throw (.error (.errorf "kvReadOnly.getElementsByKeys.version: " err))
        | none => return ConvertFromEntitiesToElements elements metadataMapping

/-- On requests that the rule of the service lets through. -/
def getElementsByKeys (kv : KVState) : String → String → List String → Except Fault (List Element) :=
  elementsByKeys fun keys => .ok (getKVs kv keys)

/-- What the service answers to `GetKVs`: the keys are to be different ones, a hundred at most. The
text of a violation is the validator's. -/
def serveGetKVs (violation : List String → String) (kv : KVState) (keys : List String) :
    Except GoError (Entities × List String) :=
  if keys = [] ∨ ¬ keys.Nodup ∨ 100 < keys.length then
    .error (.concept ⟨.invalidArgument, violation keys⟩)
  else .ok (getKVs kv keys)

def GetElementsByKeys (violation : List String → String) (kv : KVState) :
    String → String → List String → Except Fault (List Element) :=
  elementsByKeys (serveGetKVs violation kv)

/-! ## What is read -/

/-- The version that is read of an element: the one in use, or the unpublished one. -/
def shownVersion (md : ElementMetadata) : Int :=
  if md.UsingVersion ≠ 0 then md.UsingVersion else md.UnpublishedVersion

/-- What a client that asks for the element is given. -/
def shown (k : Content) : Option Element :=
  match k.metadata with
  | some (.metadata md) =>
      match k.versions (shownVersion md) with
      | some (.element ele) => some { ele with Metadata := some md }
      | _ => none
  | _ => none

/-- What is shown has been published: there is a version in use, and it was published, or
there is nothing to show. -/
structure ShowsPublished (k : Content) : Prop where
  inUse : ∀ md, k.metadata = some (.metadata md) → md.UsingVersion = 0 → md.UnpublishedVersion = 0
  published : UsesPublished k

theorem trimMetadata_metadata (k : String) : trimMetadata (WithMetadataSuffix k) = k := by
  have hlist : (WithMetadataSuffix k).toList = k.toList ++ "/metadata".toList :=
    String.toList_append
  rw [trimMetadata, hlist, if_pos (List.suffix_append _ _), List.length_append,
    Nat.add_sub_cancel, List.take_left, String.ofList_toList]

theorem lastVersionIndex_append {ds : List Char} (hds : '/' ∉ ds) (cs : List Char) :
    lastVersionIndex (cs ++ '/' :: 'v' :: ds) = some cs.length := by
  have hnone : ∀ l : List Char, '/' ∉ l → lastVersionIndex l = none := by
    intro l hl
    induction l with
    | nil => rfl
    | cons c l ih =>
      rw [lastVersionIndex, ih fun h => hl (List.mem_cons_of_mem _ h)]
      refine if_neg fun hpre => hl ?_
      exact (List.cons_prefix_cons.mp hpre).1 ▸ List.mem_cons_self
  induction cs with
  | nil =>
    have hv : lastVersionIndex ('v' :: ds) = none := hnone _ fun h => by
      rcases List.mem_cons.mp h with h | h
      · exact absurd h (by decide)
      · exact hds h
    rw [List.nil_append, lastVersionIndex, hv]
    exact if_pos (List.prefix_append ['/', 'v'] ds)
  | cons c cs ih => rw [List.cons_append, lastVersionIndex, ih, List.length_cons]

theorem trimVersion_versionKey {k : String} (hk : k ≠ "") {v : Int} (hlow : 0 < v)
    (hhigh : v < 2 ^ 31) : trimVersion (versionKey k v) = k := by
  obtain ⟨m, rfl⟩ := Int.eq_ofNat_of_zero_le hlow.le
  have hslash : '/' ∉ Nat.toDigits 10 m := Decimal.not_mem_toDigits (by decide) m
  have hlist : (versionKey k m).toList = k.toList ++ '/' :: 'v' :: Nat.toDigits 10 m := by
    have hrepr : (toString (m : Int)).toList = Nat.toDigits 10 m := Nat.toList_repr
    rw [versionKey_eq, String.toList_append, String.toList_append, String.toList_append, hrepr]
    simp
  have hparse : Decimal.parseInt 64 (Nat.toDigits 10 m) = some (m : Int) := by
    rw [Decimal.parseInt_toDigits, if_pos]
    have hm : (m : Int) < 2 ^ 31 := hhigh
    omega
  have hpos : k.toList.length ≠ 0 := fun h =>
    hk (String.toList_injective (List.length_eq_zero_iff.mp h))
  unfold trimVersion
  rw [hlist, lastVersionIndex_append hslash]
  split
  · next h => cases h
  · next h => exact absurd (Option.some.inj h) hpos
  · next idx _ h =>
    cases h
    rw [← List.drop_drop, List.drop_left, List.drop_succ_cons, List.drop_succ_cons,
      List.drop_zero, hparse, List.take_left]
    exact String.ofList_toList

/-! ## Reading from a reachable store -/

/-- The records below the key of an element. -/
def contentAt (kv : KVState) (k : String) : Content :=
  ⟨kv (WithMetadataSuffix k), fun v => kv (versionKey k v)⟩

theorem joint_key_inj {app env key key' : String}
    (h : joint ["cassem/elements", app, env, key] = joint ["cassem/elements", app, env, key']) :
    key = key' := by
  simp only [joint, String.intercalate_cons_cons, String.intercalate_singleton] at h
  exact String.toList_injective (by simpa using congrArg String.toList h)

theorem mapM_ok {α β : Type} {f : α → Except Fault β} {g : α → β} {l : List α}
    (h : ∀ a ∈ l, f a = .ok (g a)) : l.mapM f = .ok (l.map g) := by
  induction l with
  | nil => rfl
  | cons a l ih =>
    rw [List.mapM_cons, h a List.mem_cons_self, ih fun x hx => h x (List.mem_cons_of_mem _ hx)]
    rfl

/-- The last record of metadata under a key wins, and here there is only one. -/
theorem lookup_mapping {k : String} {md : ElementMetadata} {entities : Entities}
    (hall : ∀ e ∈ entities, trimMetadata e.1 = k → e.2 = .metadata md)
    {mapping : List (String × ElementMetadata)}
    (h : SortedMap.lookup k mapping = some md ∨ ∃ e ∈ entities, trimMetadata e.1 = k) :
    SortedMap.lookup k (entities.foldl mappingOf mapping) = some md := by
  induction entities generalizing mapping with
  | nil => exact h.resolve_right fun ⟨_, he, _⟩ => List.not_mem_nil he
  | cons e entities ih =>
    rw [List.foldl_cons]
    refine ih (fun x hx => hall x (List.mem_cons_of_mem _ hx)) ?_
    by_cases hk : trimMetadata e.1 = k
    · left
      rw [mappingOf, hall e List.mem_cons_self hk, SortedMap.lookup_insert, if_pos hk.symm]
    · refine h.imp (fun hlookup => ?_) fun ⟨x, hx, hxk⟩ => ⟨x, ?_, hxk⟩
      · unfold mappingOf
        split
        · rw [SortedMap.lookup_insert, if_neg (Ne.symm hk)]
          exact hlookup
        · exact hlookup
      · exact (List.mem_cons.mp hx).resolve_left fun hxe => hk (hxe ▸ hxk)

section Reads

variable {md5 : Bytes → String} {kv : KVState} {k : String} {md : ElementMetadata}

/-- The metadata of an element that is read, with its key. -/
def metadataAt (kv : KVState) (k : String) : Option (String × ElementMetadata) :=
  match kv (WithMetadataSuffix k) with
  | some (.metadata md) => some (k, md)
  | _ => none

theorem nodup_metadataAt {ks : List String} (h : ks.Nodup) :
    ((ks.filterMap (metadataAt kv)).map (·.1)).Nodup := by
  have hkey : ∀ k e, metadataAt kv k = some e → e.1 = k := by
    intro k e he
    unfold metadataAt at he
    split at he
    · cases he
      rfl
    · cases he
  rw [List.Nodup, List.pairwise_map]
  refine List.pairwise_filterMap.mpr (h.imp fun hne e he e' he' heq => hne ?_)
  rw [← hkey _ e he, heq, hkey _ e' he']

/-- An element of a reachable store, by its key. -/
structure AtKey (md5 : Bytes → String) (kv : KVState) (k : String) : Prop where
  nonempty : k ≠ ""
  wellFormed : WellFormed md5 (contentAt kv k)

theorem AtKey.metadata_eq (h : AtKey md5 kv k) : kv (WithMetadataSuffix k) =
    (metadataAt kv k).map fun e => .metadata e.2 := by
  have hkind : ∀ val, kv (WithMetadataSuffix k) = some val → ∃ md, val = .metadata md := by
    intro val hval
    rcases h.wellFormed with ⟨hmd, -⟩ | ⟨md, hmd, -⟩
    · cases hmd.symm.trans hval
    · cases hmd.symm.trans hval
      exact ⟨md, rfl⟩
  unfold metadataAt
  cases hval : kv (WithMetadataSuffix k) with
  | none => rfl
  | some val =>
    obtain ⟨md, rfl⟩ := hkind val hval
    rfl

theorem AtKey.numbered (h : AtKey md5 kv k) (hmd : kv (WithMetadataSuffix k) = some (.metadata md)) :
    Numbered md5 md (contentAt kv k).versions := h.wellFormed.numbered hmd

/-- The version shown is stored, if there is one. -/
theorem AtKey.shown_stored (h : AtKey md5 kv k)
    (hmd : kv (WithMetadataSuffix k) = some (.metadata md)) (hne : shownVersion md ≠ 0) :
    0 < shownVersion md ∧ shownVersion md < 2 ^ 31 ∧
      ∃ ele, kv (versionKey k (shownVersion md)) = some (.element ele) := by
  have hnum := h.numbered hmd
  have hrange : 1 ≤ shownVersion md ∧ shownVersion md ≤ md.LatestVersion := by
    have hlow := hnum.using_nonneg
    have hhigh := hnum.using_le
    have hun := hnum.unpublished
    have hpos := hnum.latest_pos
    unfold shownVersion at hne ⊢
    split at hne <;> split <;> omega
  have hlt := hnum.latest_lt
  obtain ⟨ele, hele, -⟩ := hnum.stored _ hrange.1 hrange.2
  exact ⟨by omega, by omega, ele, hele⟩

theorem AtKey.versionKeyOf_eq (h : AtKey md5 kv k)
    (hmd : kv (WithMetadataSuffix k) = some (.metadata md)) :
    versionKeyOf false (WithMetadataSuffix k, .metadata md) =
      .ok (if shownVersion md = 0 then none else some (versionKey k (shownVersion md))) := by
  have hnum := h.numbered hmd
  have hwith : ∀ v : Int, 0 < v → WithVersion k v = .ok (versionKey k v) :=
    fun v hv => if_neg (by omega)
  unfold versionKeyOf
  dsimp only
  rw [trimMetadata_metadata]
  by_cases hu : md.UsingVersion = 0
  · have hshown : shownVersion md = md.UnpublishedVersion := if_neg (not_not.mpr hu)
    rw [if_neg (not_not.mpr hu), hshown]
    by_cases hun : md.UnpublishedVersion = 0
    · rw [if_neg (fun hc => hc.2.2 hun), if_pos hun]
    · have hstored := h.shown_stored hmd (hshown ▸ hun)
      rw [if_pos ⟨rfl, hu.le, hun⟩, if_neg hun, hwith _ (hshown ▸ hstored.1)]
      rfl
  · have hshown : shownVersion md = md.UsingVersion := if_pos hu
    have hstored := h.shown_stored hmd (hshown ▸ hu)
    rw [if_pos hu, hshown, if_neg hu, hwith _ (hshown ▸ hstored.1)]
    rfl

/-- The key of the version shown. -/
def shownKey (e : String × ElementMetadata) : Option String :=
  if shownVersion e.2 = 0 then none else some (versionKey e.1 (shownVersion e.2))

def metadataEntity (e : String × ElementMetadata) : String × Record :=
  (WithMetadataSuffix e.1, .metadata e.2)

section Found

variable {found : List (String × ElementMetadata)}
  (hfound : ∀ e ∈ found, AtKey md5 kv e.1 ∧ kv (WithMetadataSuffix e.1) = some (.metadata e.2))
include hfound

theorem convert_found :
    ConvertFromEntitiesToMetadata (found.map metadataEntity) false =
      .ok (found.filterMap shownKey, found.map (·.2), (found.map metadataEntity).foldl mappingOf []) := by
  have hkeys : (found.map metadataEntity).mapM (versionKeyOf false) = .ok (found.map shownKey) := by
    rw [List.mapM_map]
    exact mapM_ok fun e he => (hfound e he).1.versionKeyOf_eq (hfound e he).2
  have harr : (found.map metadataEntity).filterMap (fun entity => match entity.2 with
      | .metadata md => some md
      | _ => none) = found.map (·.2) := by
    rw [List.filterMap_map]
    exact List.filterMap_eq_map.symm ▸ rfl
  unfold ConvertFromEntitiesToMetadata
  rw [hkeys]
  show Except.ok _ = _
  rw [harr, List.reduceOption, List.filterMap_map]
  rfl

theorem missing_found : (getKVs kv (found.filterMap shownKey)).2 = [] := by
  refine List.filter_eq_nil_iff.mpr fun key hkey => ?_
  obtain ⟨e, he, hshown⟩ := List.mem_filterMap.mp hkey
  unfold shownKey at hshown
  split at hshown
  · cases hshown
  · next hne =>
    cases hshown
    obtain ⟨-, -, ele, hele⟩ := (hfound e he).1.shown_stored (hfound e he).2 hne
    rw [hele]
    simp

theorem elements_found :
    ConvertFromEntitiesToElements (getKVs kv (found.filterMap shownKey)).1
      ((found.map metadataEntity).foldl mappingOf []) =
        found.filterMap fun e => shown (contentAt kv e.1) := by
  have hmapping : ∀ e ∈ found, SortedMap.lookup e.1 ((found.map metadataEntity).foldl mappingOf []) =
      some e.2 := by
    intro e he
    refine lookup_mapping (fun x hx hk => ?_) (.inr ⟨_, List.mem_map_of_mem he, trimMetadata_metadata _⟩)
    obtain ⟨y, hy, rfl⟩ := List.mem_map.mp hx
    rw [metadataEntity, trimMetadata_metadata] at hk
    have hsame := (hfound y hy).2
    rw [hk, (hfound e he).2] at hsame
    exact (Option.some.inj hsame).symm
  unfold ConvertFromEntitiesToElements getKVs
  rw [List.filterMap_filterMap, List.filterMap_filterMap]
  refine List.filterMap_congr fun e he => ?_
  obtain ⟨hat, hmd⟩ := hfound e he
  unfold shownKey shown contentAt
  rw [hmd]
  dsimp only
  by_cases hzero : shownVersion e.2 = 0
  · have hnone : (contentAt kv e.1).versions 0 = none := by
      by_contra hne
      obtain ⟨val, hval⟩ := Option.ne_none_iff_exists'.mp hne
      have hcounted := (hat.numbered hmd).counted 0 val hval
      omega
    have hnone' : kv (versionKey e.1 0) = none := hnone
    rw [if_pos hzero, hzero, hnone']
    rfl
  · obtain ⟨hlow, hhigh, ele, hele⟩ := hat.shown_stored hmd hzero
    rw [if_neg hzero, Option.bind_some, hele, Option.map_some, Option.bind_some]
    dsimp only
    rw [trimVersion_versionKey hat.nonempty hlow hhigh, hmapping e he]

/-- Different elements have different versions. -/
theorem nodup_shownKeys (h : (found.map (·.1)).Nodup) : (found.filterMap shownKey).Nodup := by
  have helement : ∀ e ∈ found, ∀ key, shownKey e = some key → trimVersion key = e.1 := by
    intro e he key hkey
    unfold shownKey at hkey
    split at hkey
    · cases hkey
    · next hne =>
      cases hkey
      obtain ⟨hat, hmd⟩ := hfound e he
      obtain ⟨hlow, hhigh, -⟩ := hat.shown_stored hmd hne
      exact trimVersion_versionKey hat.nonempty hlow hhigh
  rw [List.Nodup, List.pairwise_map] at h
  refine List.pairwise_filterMap.mpr (h.imp_of_mem fun he he' hne key hkey key' hkey' heq => hne ?_)
  rw [← helement _ he key hkey, heq, helement _ he' key' hkey']

end Found

/-! ## The metadata of the keys -/

theorem found_of_atKey {ks : List String} (hat : ∀ k ∈ ks, AtKey md5 kv k) :
    ∀ e ∈ ks.filterMap (metadataAt kv),
      AtKey md5 kv e.1 ∧ kv (WithMetadataSuffix e.1) = some (.metadata e.2) := by
  intro e he
  obtain ⟨k, hk, hmd⟩ := List.mem_filterMap.mp he
  have heq := (hat k hk).metadata_eq
  rw [hmd] at heq
  unfold metadataAt at hmd
  split at hmd
  · cases hmd
    exact ⟨hat k hk, heq⟩
  · cases hmd

theorem getKVs_metadatas {ks : List String} (hat : ∀ k ∈ ks, AtKey md5 kv k) :
    (getKVs kv (ks.map WithMetadataSuffix)).1 =
      (ks.filterMap (metadataAt kv)).map metadataEntity := by
  unfold getKVs
  rw [List.filterMap_map, List.map_filterMap]
  refine List.filterMap_congr fun k hk => ?_
  show (kv (WithMetadataSuffix k)).map _ = _
  rw [(hat k hk).metadata_eq]
  unfold metadataAt
  split <;> rfl

theorem shown_metadatas (kv : String → Option Record) (ks : List String) :
    (ks.filterMap (metadataAt kv)).filterMap (fun e => shown (contentAt kv e.1)) =
      ks.filterMap fun k => shown (contentAt kv k) := by
  rw [List.filterMap_filterMap]
  refine List.filterMap_congr fun k hk => ?_
  unfold metadataAt
  split
  · rfl
  · next hnot =>
    unfold shown contentAt
    dsimp only
    split
    · next md hmd => exact absurd hmd (hnot md)
    · rfl

/-- The elements at the keys that are there, with what is shown of them, where the service answers
requests for as many keys that are different when these are. -/
theorem elementsByKeys_of_atKey {app env : String} {keys : List String}
    {GetKVs : List String → Except GoError (Entities × List String)}
    (hserve : ∀ asked, asked ≠ [] → (keys.Nodup → asked.Nodup) → asked.length ≤ keys.length →
      GetKVs asked = .ok (getKVs kv asked))
    (hgen : ∀ key ∈ keys, GenElementKey app env key = .ok (joint ["cassem/elements", app, env, key]))
    (hat : ∀ key ∈ keys, AtKey md5 kv (joint ["cassem/elements", app, env, key])) :
    elementsByKeys GetKVs app env keys = .ok (keys.filterMap fun key =>
      shown (contentAt kv (joint ["cassem/elements", app, env, key]))) := by
  generalize hks : keys.map (fun key => joint ["cassem/elements", app, env, key]) = ks
  have hatk : ∀ k ∈ ks, AtKey md5 kv k := by
    rintro k hk
    rw [← hks] at hk
    obtain ⟨key, hkey, rfl⟩ := List.mem_map.mp hk
    exact hat key hkey
  have hresult : keys.filterMap (fun key =>
      shown (contentAt kv (joint ["cassem/elements", app, env, key]))) =
      ks.filterMap fun k => shown (contentAt kv k) := by
    rw [← hks, List.filterMap_map]
    rfl
  have hkeys : keys.mapM (fun key => (GenElementKey app env key).map WithMetadataSuffix) =
      .ok (ks.map WithMetadataSuffix) := by
    rw [← hks, List.map_map]
    exact mapM_ok fun key hkey => by rw [hgen key hkey]; rfl
  have hfound := found_of_atKey hatk
  have hlen : ks.length = keys.length := by
    rw [← hks, List.length_map]
  have hdistinct : keys.Nodup → ks.Nodup := fun h => by
    rw [← hks]
    exact h.map fun _ _ => joint_key_inj
  have hfirst : keys ≠ [] → GetKVs (ks.map WithMetadataSuffix) =
      .ok (getKVs kv (ks.map WithMetadataSuffix)) := by
    intro hne
    refine hserve _ ?_ (fun h => (hdistinct h).map fun k k' heq => ?_) ?_
    · rw [← hks]
      simpa using hne
    · rw [← trimMetadata_metadata k, heq, trimMetadata_metadata]
    · rw [List.length_map, hlen]
  have hsecond : (ks.filterMap (metadataAt kv)).filterMap shownKey ≠ [] →
      GetKVs ((ks.filterMap (metadataAt kv)).filterMap shownKey) =
        .ok (getKVs kv ((ks.filterMap (metadataAt kv)).filterMap shownKey)) := by
    intro hne
    refine hserve _ hne (fun h => nodup_shownKeys hfound ?_) ?_
    · exact nodup_metadataAt (hdistinct h)
    · exact (List.length_filterMap_le _ _).trans (hlen ▸ List.length_filterMap_le _ _)
  rw [hresult]
  unfold elementsByKeys
  by_cases hnil : keys = []
  · rw [if_pos hnil]
    rw [hnil] at hks
    rw [← hks]
    rfl
  · rw [if_neg hnil, hkeys]
    dsimp only [bind, Except.bind]
    rw [hfirst hnil]
    dsimp only [getKVsErrors]
    rw [if_pos (.inl rfl), getKVs_metadatas hatk, convert_found hfound]
    dsimp only
    rw [← shown_metadatas kv ks, ← elements_found hfound]
    split
    · next hempty =>
      rw [hempty]
      rfl
    · next hfilled =>
      have hmissing : ((ks.filterMap (metadataAt kv)).filterMap shownKey).filter
          (fun key => (kv key).isNone) = [] := missing_found hfound
      rw [hsecond hfilled]
      dsimp only [getKVs]
      rw [hmissing]
      rfl

theorem getElementsByKeys_of_atKey {app env : String} {keys : List String}
    (hgen : ∀ key ∈ keys, GenElementKey app env key = .ok (joint ["cassem/elements", app, env, key]))
    (hat : ∀ key ∈ keys, AtKey md5 kv (joint ["cassem/elements", app, env, key])) :
    getElementsByKeys kv app env keys = .ok (keys.filterMap fun key =>
      shown (contentAt kv (joint ["cassem/elements", app, env, key]))) :=
  elementsByKeys_of_atKey (fun _ _ _ _ => rfl) hgen hat

/-- Keys that repeat, or more than a hundred, are refused. -/
theorem GetElementsByKeys_of_atKey (violation : List String → String) {app env : String}
    {keys : List String}
    (hgen : ∀ key ∈ keys, GenElementKey app env key = .ok (joint ["cassem/elements", app, env, key]))
    (hat : ∀ key ∈ keys, AtKey md5 kv (joint ["cassem/elements", app, env, key])) :
    GetElementsByKeys violation kv app env keys =
      if keys.Nodup ∧ keys.length ≤ 100 then .ok (keys.filterMap fun key =>
        shown (contentAt kv (joint ["cassem/elements", app, env, key])))
      else .error (.error (.text ("kvReadOnly.getElementsByKeys: " ++ violation (keys.map fun key =>
        WithMetadataSuffix (joint ["cassem/elements", app, env, key]))))) := by
  by_cases hrule : keys.Nodup ∧ keys.length ≤ 100
  · rw [if_pos hrule]
    refine elementsByKeys_of_atKey (fun asked hne hnodup hlen => if_neg ?_) hgen hat
    have hfew := hlen.trans hrule.2
    simp [hne, hnodup hrule.1, hfew]
  · have hne : keys ≠ [] := by
      rintro rfl
      exact hrule ⟨List.nodup_nil, Nat.zero_le 100⟩
    have hkeys : keys.mapM (fun key => (GenElementKey app env key).map WithMetadataSuffix) =
        .ok (keys.map fun key => WithMetadataSuffix (joint ["cassem/elements", app, env, key])) :=
      mapM_ok fun key hkey => by rw [hgen key hkey]; rfl
    rw [if_neg hrule]
    unfold GetElementsByKeys elementsByKeys
    rw [if_neg hne, hkeys]
    dsimp only [bind, Except.bind]
    generalize hasked : keys.map (fun key =>
      WithMetadataSuffix (joint ["cassem/elements", app, env, key])) = asked
    have hrefused : serveGetKVs violation kv asked =
        .error (.concept ⟨.invalidArgument, violation asked⟩) := by
      refine if_pos (.inr ?_)
      by_contra hall
      rw [not_or, not_not, not_lt, ← hasked, List.length_map] at hall
      exact hrule ⟨hall.1.of_map _, hall.2⟩
    rw [hrefused]
    rfl

/-! ## From a reachable store -/

theorem atKey_of_wellFormed {n : ElementName} (h : WellFormed md5 (stored n kv)) :
    AtKey md5 kv n.elementKey where
  nonempty := fun hempty => by
    have hlist := congrArg (fun s : String => s.toList[0]?) hempty
    simp [ElementName.elementKey, joint] at hlist
  wellFormed := h

theorem atKey_of_reachable (h : Reachable md5 kv) {n : ElementName} (hn : n.Valid) :
    AtKey md5 kv n.elementKey := atKey_of_wellFormed (wellFormed_of_reachable h hn).1

theorem isIdentifier_ne_empty {s : String} (h : Adm.isIdentifier s = true) : s ≠ "" := by
  rintro rfl
  exact absurd h (by decide)

/-- The name that identifiers make. -/
def nameOf {app env key : String} (happ : Adm.isIdentifier app = true)
    (henv : Adm.isIdentifier env = true) (hkey : Adm.isIdentifier key = true) : ElementName :=
  ⟨app, env, key, fun h => h.elim (isIdentifier_ne_empty happ)
    fun h => h.elim (isIdentifier_ne_empty henv) (isIdentifier_ne_empty hkey)⟩

theorem getElementsByKeys_eq (h : Reachable md5 kv) {app env : String} {keys : List String}
    (happ : Adm.isIdentifier app = true) (henv : Adm.isIdentifier env = true)
    (hkeys : ∀ key ∈ keys, Adm.isIdentifier key = true) :
    getElementsByKeys kv app env keys = .ok (keys.filterMap fun key =>
      shown (contentAt kv (joint ["cassem/elements", app, env, key]))) :=
  getElementsByKeys_of_atKey (fun key hkey => (nameOf happ henv (hkeys key hkey)).genElementKey)
    fun key hkey => atKey_of_reachable (n := nameOf happ henv (hkeys key hkey)) h
      ⟨happ, henv, hkeys key hkey⟩

/-- What is shown is marked as published exactly where there is something published to show. -/
theorem shown_published_iff (h : Reachable md5 kv) {n : ElementName} (hn : n.Valid) :
    (∀ ele, shown (stored n kv) = some ele → ele.Published = true) ↔
      ShowsPublished (stored n kv) := by
  have hat := atKey_of_reachable h hn
  obtain ⟨-, hlabel⟩ := wellFormed_of_reachable h hn
  have heq : ∀ md, (stored n kv).metadata = some (.metadata md) →
      shown (stored n kv) = match (stored n kv).versions (shownVersion md) with
        | some (.element ele) => some { ele with Metadata := some md }
        | _ => none := fun md hmd => by rw [shown, hmd]
  constructor
  · refine fun hall => ⟨fun md hmd hzero => ?_, fun md ele hmd hele => ?_⟩
    · by_contra hne
      have hshown : shownVersion md = md.UnpublishedVersion := if_neg (not_not.mpr hzero)
      obtain ⟨-, -, ele, hele⟩ := hat.shown_stored hmd (hshown ▸ hne)
      have hele' : (stored n kv).versions (shownVersion md) = some (.element ele) := hele
      have hpub := hall { ele with Metadata := some md } (by rw [heq md hmd, hele'])
      rw [hshown] at hele'
      have hdraft := hlabel.draft md ele hmd hne hele'
      exact Bool.false_ne_true (hdraft.symm.trans hpub)
    · have hpos := (hat.numbered hmd).counted _ _ hele
      have hshown : shownVersion md = md.UsingVersion := if_pos (by omega)
      exact hall { ele with Metadata := some md } (by rw [heq md hmd, hshown, hele])
  · intro hshows ele hele
    unfold shown at hele
    split at hele
    · next md hmd =>
      split at hele
      · next e he =>
        cases hele
        by_cases hzero : md.UsingVersion = 0
        · have hshown : shownVersion md = 0 := by
            unfold shownVersion
            rw [if_neg (not_not.mpr hzero)]
            exact hshows.inUse md hmd hzero
          rw [hshown] at he
          have hcounted := (hat.numbered hmd).counted 0 _ he
          omega
        · have hshown : shownVersion md = md.UsingVersion := if_pos hzero
          rw [hshown] at he
          exact hshows.published md e hmd he
      · cases hele
    · cases hele

end Reads

end Cassem.Coord
