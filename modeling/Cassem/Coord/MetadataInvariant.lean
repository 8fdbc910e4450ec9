import Cassem.Coord.Outcome
import Cassem.Lib.Transition

/-!
# What the metadata says of the versions

The metadata of an element counts its versions and names the one in use. Every call keeps
the count right; that the version in use has been published holds as long as no rollback
goes to a version that has not.
-/

namespace Cassem.Coord

open Lib Cassem.Concept
open KV (Bytes int32)

variable (md5 : Bytes → String) (n : ElementName)

/-! ## Effects of the calls -/

def created (contentTyp : Int) : ElementMetadata :=
  ⟨n.key, n.app, n.env, 1, 1, 0, "", contentTyp⟩

def updated (md : ElementMetadata) : ElementMetadata :=
  { md with
    LatestVersion := int32 (md.LatestVersion + 1)
    UnpublishedVersion := int32 (md.LatestVersion + 1) }

/-- What a call does to the metadata and the versions, one case for each operation. -/
inductive Effect (k : Content) : Op → Content → Prop
  | nothing (op : Op) : Effect k op k
  | createHalf {raw : Bytes} {contentTyp : Int} (hmd : k.metadata = none)
      (hver : k.versions 1 ≠ none) :
      Effect k (.create raw contentTyp) ⟨some (.metadata (created n contentTyp)), k.versions⟩
  | create {raw : Bytes} {contentTyp : Int} (hmd : k.metadata = none) (hver : k.versions 1 = none) :
      Effect k (.create raw contentTyp)
        ⟨some (.metadata (created n contentTyp)), Function.update k.versions 1
          (some (.element { Raw := raw, Version := 1, Published := false }))⟩
  | update {raw : Bytes} {md : ElementMetadata} (hmd : k.metadata = some (.metadata md))
      (hun : md.UnpublishedVersion = 0) (hpos : 1 ≤ int32 (md.LatestVersion + 1))
      (hver : k.versions (int32 (md.LatestVersion + 1)) = none) :
      Effect k (.update raw)
        ⟨some (.metadata (updated md)), Function.update k.versions (int32 (md.LatestVersion + 1))
          (some (.element
            { Raw := raw, Version := int32 (md.LatestVersion + 1), Published := false }))⟩
  | publish {version : UInt32} {md : ElementMetadata} {ele : Element}
      (hmd : k.metadata = some (.metadata md)) (hversion : publishedVersion md version ≠ 0)
      (hele : k.versions (publishedVersion md version) = some (.element ele)) :
      Effect k (.publish version)
        ⟨some (.metadata (published md5 md ele)), Function.update k.versions
          (publishedVersion md version) (some (.element { ele with Published := true }))⟩
  | rollback {version : UInt32} {md : ElementMetadata} {ele : Element}
      (hmd : k.metadata = some (.metadata md)) (hversion : version.toNat ≠ 0)
      (hele : k.versions version.toNat = some (.element ele))
      (hlt : int32 version.toNat < md.UsingVersion) :
      Effect k (.rollback version) ⟨some (.metadata (rolledBack md5 md ele)), k.versions⟩

theorem effect_of_plan {c : Call} {k : Content} {p : List Write × Option Element}
    (h : c.plan md5 n k = .ok p) : c.effect md5 n k = k.carryOut p.1 := by
  rw [Call.effect, h]

theorem effect_spec (c : Call) (k : Content) : Effect md5 n k c.op (c.effect md5 n k) := by
  obtain ⟨op, ctx⟩ := c
  cases hplan : Call.plan md5 n ⟨op, ctx⟩ k with
  | error fault =>
    rw [Call.effect, hplan]
    exact .nothing op
  | ok p =>
    rw [effect_of_plan md5 n hplan]
    cases plan_eq_ok md5 n hplan with
    | create raw contentTyp h =>
      cases h
      by_cases hmd : k.metadata = none
      · by_cases hver : k.versions 1 = none
        · simpa [Content.carryOut, Content.Lands, Content.put, Content.look, operationWrite, hmd,
            hver, created] using Effect.create hmd hver
        · simpa [Content.carryOut, Content.Lands, Content.put, Content.look, operationWrite, hmd,
            hver, created] using Effect.createHalf hmd hver
      · simpa [Content.carryOut, Content.Lands, Content.look, hmd] using Effect.nothing _
    | update hmd h =>
      obtain ⟨hun, hpos, rfl⟩ := updatePlan_eq_ok n h
      rename_i md
      by_cases hver : k.versions (int32 (md.LatestVersion + 1)) = none
      · simpa [Content.carryOut, Content.Lands, Content.put, Content.look, operationWrite, hver,
          updated] using Effect.update hmd hun hpos hver
      · simpa [Content.carryOut, Content.Lands, Content.look, hver] using Effect.nothing _
    | idle hmd hversion => exact .nothing _
    | publish hmd hversion hele h =>
      cases h
      simpa [Content.carryOut, Content.Lands, Content.put, Content.look, operationWrite]
        using Effect.publish hmd hversion hele
    | rollback hmd hversion hele h =>
      obtain ⟨hlt, rfl⟩ := rollbackPlan_eq_ok md5 n h
      simpa [Content.carryOut, Content.Lands, Content.put, Content.look, operationWrite]
        using Effect.rollback hmd hversion hele hlt

/-! ## The count of versions -/

/-- The versions are those that the metadata counts, each under its own number. -/
structure Numbered (md : ElementMetadata) (versions : Int → Option Record) : Prop where
  latest_pos : 1 ≤ md.LatestVersion
  latest_lt : md.LatestVersion < 2 ^ 31
  unpublished : md.UnpublishedVersion = 0 ∨ md.UnpublishedVersion = md.LatestVersion
  using_nonneg : 0 ≤ md.UsingVersion
  using_le : md.UsingVersion ≤ md.LatestVersion
  stored : ∀ v, 1 ≤ v → v ≤ md.LatestVersion →
    ∃ ele, versions v = some (.element ele) ∧ ele.Version = v
  counted : ∀ v val, versions v = some val → 1 ≤ v ∧ v ≤ md.LatestVersion
  fingerprint : ∀ ele, versions md.UsingVersion = some (.element ele) →
    md.UsingFingerprint = md5 ele.Raw

/-- An element that was never created, or one whose versions are counted. -/
inductive WellFormed (k : Content) : Prop
  | absent (hmd : k.metadata = none) (hver : ∀ v, k.versions v = none)
  | counted (md : ElementMetadata) (hmd : k.metadata = some (.metadata md))
      (h : Numbered md5 md k.versions)

variable {md5 n} {k k' : Content} {md : ElementMetadata}

theorem WellFormed.numbered (h : WellFormed md5 k) (hmd : k.metadata = some (.metadata md)) :
    Numbered md5 md k.versions := by
  cases h with
  | absent hnone hver => rw [hnone] at hmd; cases hmd
  | counted md' hmd' h =>
    cases hmd'.symm.trans hmd
    exact h

theorem WellFormed.versions_none (h : WellFormed md5 k) (hmd : k.metadata = none) (v : Int) :
    k.versions v = none := by
  cases h with
  | absent _ hver => exact hver v
  | counted md' hmd' _ => rw [hmd] at hmd'; cases hmd'

theorem Numbered.at_version {versions : Int → Option Record} (h : Numbered md5 md versions)
    {v : Int} {ele : Element} (hele : versions v = some (.element ele)) :
    1 ≤ v ∧ v ≤ md.LatestVersion ∧ ele.Version = v := by
  obtain ⟨hlow, hhigh⟩ := h.counted v _ hele
  obtain ⟨ele', hele', hv⟩ := h.stored v hlow hhigh
  cases hele'.symm.trans hele
  exact ⟨hlow, hhigh, hv⟩

/-- The next version is the latest plus one, unless that is no `int32` any more. -/
theorem Numbered.next {versions : Int → Option Record} (h : Numbered md5 md versions)
    (hpos : 1 ≤ int32 (md.LatestVersion + 1)) :
    int32 (md.LatestVersion + 1) = md.LatestVersion + 1 ∧ md.LatestVersion + 1 < 2 ^ 31 := by
  have hlow := h.latest_pos
  have hhigh := h.latest_lt
  by_cases hlt : md.LatestVersion + 1 < 2 ^ 31
  · exact ⟨KV.int32_of_range (by omega) hlt, hlt⟩
  · have heq : md.LatestVersion + 1 = 2 ^ 31 := by omega
    rw [heq] at hpos
    exact absurd hpos (by decide)

theorem numbered_created (contentTyp : Int) (ele : Element) (hv : ele.Version = 1)
    {versions : Int → Option Record} (hnone : ∀ v, versions v = none) :
    Numbered md5 (created n contentTyp) (Function.update versions 1 (some (.element ele))) where
  latest_pos := le_refl 1
  latest_lt := show (1 : Int) < 2 ^ 31 by decide
  unpublished := .inr rfl
  using_nonneg := le_refl 0
  using_le := show (0 : Int) ≤ 1 by decide
  stored v hlow hhigh := by
    have hone : v = 1 := le_antisymm hhigh hlow
    rw [hone]
    exact ⟨ele, Function.update_self .., hv⟩
  counted v val h := by
    by_cases hone : v = 1
    · exact ⟨hone.ge, hone.le⟩
    · rw [Function.update_of_ne hone, hnone v] at h
      cases h
  fingerprint ele' h := by
    rw [created, Function.update_of_ne (show (0 : Int) ≠ 1 by decide), hnone] at h
    cases h

theorem Numbered.updated {versions : Int → Option Record} (h : Numbered md5 md versions)
    (hpos : 1 ≤ int32 (md.LatestVersion + 1)) {ele : Element}
    (hv : ele.Version = int32 (md.LatestVersion + 1)) :
    Numbered md5 (Coord.updated md)
      (Function.update versions (int32 (md.LatestVersion + 1)) (some (.element ele))) := by
  obtain ⟨hnext, hlt⟩ := h.next hpos
  have hlow := h.latest_pos
  have husing := h.using_le
  unfold Coord.updated
  rw [hnext] at hv ⊢
  refine ⟨by dsimp only; omega, hlt, .inr rfl, h.using_nonneg, by dsimp only; omega,
    fun v h1 h2 => ?_, fun v val hval => ?_, fun ele' hele => ?_⟩
  · by_cases hvn : v = md.LatestVersion + 1
    · rw [hvn]
      exact ⟨ele, Function.update_self .., hv⟩
    · rw [Function.update_of_ne hvn]
      exact h.stored v h1 (by dsimp only at h2; omega)
  · by_cases hvn : v = md.LatestVersion + 1
    · dsimp only
      omega
    · rw [Function.update_of_ne hvn] at hval
      have := h.counted v val hval
      dsimp only
      omega
  · rw [Function.update_of_ne (by dsimp only; omega)] at hele
    exact h.fingerprint ele' hele

/-- The version in use may be changed to any other that is stored. -/
theorem Numbered.use {versions versions' : Int → Option Record} (h : Numbered md5 md versions)
    {md' : ElementMetadata} (hlatest : md'.LatestVersion = md.LatestVersion)
    (hun : md'.UnpublishedVersion = 0 ∨ md'.UnpublishedVersion = md.UnpublishedVersion)
    (hsame : ∀ v, (versions' v = versions v) ∨ ∃ ele ele', versions v = some (.element ele) ∧
      versions' v = some (.element ele') ∧ ele'.Version = ele.Version)
    {ele : Element} (hele : versions' md'.UsingVersion = some (.element ele))
    (hfp : md'.UsingFingerprint = md5 ele.Raw) : Numbered md5 md' versions' := by
  have hcounted : ∀ v val, versions' v = some val → 1 ≤ v ∧ v ≤ md'.LatestVersion := by
    intro v val hval
    rw [hlatest]
    rcases hsame v with hv | ⟨e, e', hv, -, -⟩
    · exact h.counted v val (hv ▸ hval)
    · exact h.counted v _ hv
  have husing := hcounted _ _ hele
  refine ⟨hlatest ▸ h.latest_pos, hlatest ▸ h.latest_lt, ?_, by omega, by omega, fun v h1 h2 => ?_,
    hcounted, fun ele' hele' => ?_⟩
  · have := h.unpublished
    omega
  · obtain ⟨e, he, hve⟩ := h.stored v h1 (hlatest ▸ h2)
    rcases hsame v with hv | ⟨f, f', hf, hf', hvf⟩
    · exact ⟨e, hv.trans he, hve⟩
    · cases hf.symm.trans he
      exact ⟨f', hf', hvf.trans hve⟩
  · cases hele.symm.trans hele'
    exact hfp

theorem wellFormed_effect (h : WellFormed md5 k) {op : Op} (heff : Effect md5 n k op k') :
    WellFormed md5 k' := by
  cases heff with
  | nothing => exact h
  | createHalf hmd hver => exact absurd (h.versions_none hmd 1) hver
  | create hmd hver =>
    exact .counted _ rfl (numbered_created _ _ rfl (h.versions_none hmd))
  | update hmd hun hpos hver => exact .counted _ rfl ((h.numbered hmd).updated hpos rfl)
  | @publish version md ele hmd hversion hele =>
    have hnum := h.numbered hmd
    obtain ⟨-, -, hv⟩ := hnum.at_version hele
    have hused : Function.update k.versions (publishedVersion md version : Int)
        (some (.element { ele with Published := true })) (published md5 md ele).UsingVersion =
          some (.element { ele with Published := true }) := by
      dsimp only [published]
      rw [hv]
      exact Function.update_self ..
    refine .counted _ rfl (hnum.use rfl (.inl rfl) (fun v => ?_) hused rfl)
    by_cases hvp : v = publishedVersion md version
    · rw [hvp]
      exact .inr ⟨ele, { ele with Published := true }, hele, Function.update_self .., rfl⟩
    · exact .inl (Function.update_of_ne hvp ..)
  | @rollback version md ele hmd hversion hele hlt =>
    have hnum := h.numbered hmd
    obtain ⟨-, -, hv⟩ := hnum.at_version hele
    refine .counted _ rfl (hnum.use rfl (.inr rfl) (fun v => .inl rfl) ?_ rfl)
    rw [rolledBack, hv]
    exact hele

/-! ## The version in use -/

/-- What the metadata is to say of the versions. -/
def MetadataSound (md5 : Bytes → String) (k : Content) : Prop :=
  ∀ md, k.metadata = some (.metadata md) →
    (md.UnpublishedVersion = 0 ∨ md.UnpublishedVersion = md.LatestVersion) ∧
    md.UsingVersion ≤ md.LatestVersion ∧
    (∀ v, 1 ≤ v → v ≤ md.LatestVersion → ∃ ele, k.versions v = some (.element ele)) ∧
    (md.UsingVersion ≠ 0 → ∃ ele, k.versions md.UsingVersion = some (.element ele) ∧
      ele.Published = true ∧ md.UsingFingerprint = md5 ele.Raw)

def UsesPublished (k : Content) : Prop :=
  ∀ md ele, k.metadata = some (.metadata md) →
    k.versions md.UsingVersion = some (.element ele) → ele.Published = true

/-- A rollback that goes through names a version that has been published. -/
def NamesPublished (k : Content) (op : Op) : Prop :=
  ∀ version md ele, op = .rollback version → k.metadata = some (.metadata md) →
    k.versions version.toNat = some (.element ele) → int32 version.toNat < md.UsingVersion →
    ele.Published = true

theorem MetadataSound.uses (h : MetadataSound md5 k) (md : ElementMetadata) (ele : Element)
    (hmd : k.metadata = some (.metadata md)) (hne : md.UsingVersion ≠ 0)
    (hele : k.versions md.UsingVersion = some (.element ele)) : ele.Published = true := by
  obtain ⟨ele', hele', hpub, -⟩ := (h md hmd).2.2.2 hne
  cases hele'.symm.trans hele
  exact hpub

theorem metadataSound_iff (h : WellFormed md5 k) : MetadataSound md5 k ↔ UsesPublished k := by
  constructor
  · intro hsound md ele hmd hele
    obtain ⟨hpos, -, -⟩ := (h.numbered hmd).at_version hele
    exact hsound.uses md ele hmd (by omega) hele
  · intro huses md hmd
    have hnum := h.numbered hmd
    refine ⟨hnum.unpublished, hnum.using_le, fun v h1 h2 => ?_, fun hne => ?_⟩
    · obtain ⟨ele, hele, -⟩ := hnum.stored v h1 h2
      exact ⟨ele, hele⟩
    · have hnonneg := hnum.using_nonneg
      obtain ⟨ele, hele, -⟩ := hnum.stored md.UsingVersion (by omega) hnum.using_le
      exact ⟨ele, hele, huses md ele hmd hele, hnum.fingerprint ele hele⟩

theorem usesPublished_effect (h : WellFormed md5 k) (huses : UsesPublished k) {op : Op}
    (hnames : NamesPublished k op) (heff : Effect md5 n k op k') : UsesPublished k' := by
  intro md' ele' hmd' hele'
  cases heff with
  | nothing => exact huses md' ele' hmd' hele'
  | createHalf hmd hver => exact absurd (h.versions_none hmd 1) hver
  | create hmd hver =>
    cases hmd'
    dsimp only [created] at hele'
    rw [Function.update_of_ne (show (0 : Int) ≠ 1 by decide), h.versions_none hmd] at hele'
    cases hele'
  | @update raw md hmd hun hpos hver =>
    cases hmd'
    obtain ⟨hnext, -⟩ := (h.numbered hmd).next hpos
    have husing := (h.numbered hmd).using_le
    dsimp only [updated] at hele'
    rw [Function.update_of_ne (by omega)] at hele'
    exact huses md ele' hmd hele'
  | @publish version md ele hmd hversion hele =>
    cases hmd'
    obtain ⟨-, -, hv⟩ := (h.numbered hmd).at_version hele
    dsimp only [published] at hele'
    rw [hv, Function.update_self] at hele'
    cases hele'
    rfl
  | @rollback version md ele hmd hversion hele hlt =>
    cases hmd'
    obtain ⟨-, -, hv⟩ := (h.numbered hmd).at_version hele
    dsimp only [rolledBack] at hele'
    rw [hv, hele] at hele'
    cases hele'
    exact hnames version md ele' rfl hmd hele hlt

theorem effect_rollback {ctx : Ctx} {version : UInt32} {ele : Element}
    (hmd : k.metadata = some (.metadata md)) (hversion : version.toNat ≠ 0)
    (hele : k.versions version.toNat = some (.element ele))
    (hlt : int32 version.toNat < md.UsingVersion) :
    Call.effect md5 n ⟨.rollback version, ctx⟩ k =
      ⟨some (.metadata (rolledBack md5 md ele)), k.versions⟩ := by
  rw [Call.effect, plan_rollback md5 n hmd ctx hversion hele, rollbackPlan, if_neg (by omega)]
  simp [Content.carryOut, Content.Lands, Content.put, Content.look, operationWrite]

theorem namesPublished_of_effect (h : WellFormed md5 k) {c : Call}
    (huses : UsesPublished (c.effect md5 n k)) : NamesPublished k c.op := by
  obtain ⟨op, ctx⟩ := c
  intro version md ele hop hmd hele hlt
  cases hop
  obtain ⟨hpos, -, hv⟩ := (h.numbered hmd).at_version hele
  rw [effect_rollback hmd (by omega) hele hlt] at huses
  refine huses _ ele rfl ?_
  rw [rolledBack, hv]
  exact hele

/-! ## Runs -/

/-- A call made alone, the service carrying out all that it does not refuse. -/
def afterCall (md5 : Bytes → String) (n : ElementName) (kv : KVState) (c : Call) :
    Option KVState :=
  some (Program.run serveKV kv (c.program md5 n.app n.env n.key)).1

/-- What the service holds of the element. -/
def stored (n : ElementName) (kv : KVState) : Content := (view n kv).content

theorem stored_run (kv : KVState) (c : Call) :
    stored n (Program.run serveKV kv (c.program md5 n.app n.env n.key)).1 =
      c.effect md5 n (stored n kv) := by
  rw [stored, stored, ← content_outcome, ← seen_program]
  rfl

theorem stored_afterCall {kv kv' : KVState} {c : Call} (h : afterCall md5 n kv c = some kv') :
    stored n kv' = c.effect md5 n (stored n kv) := by
  cases h
  exact stored_run kv c

theorem wellFormed_afterCall {kv kv' : KVState} {c : Call} (hwf : WellFormed md5 (stored n kv))
    (h : afterCall md5 n kv c = some kv') : WellFormed md5 (stored n kv') := by
  rw [stored_afterCall h]
  exact wellFormed_effect hwf (effect_spec md5 n c (stored n kv))

/-- From an element that was never created on, the metadata is sound after every call if
and only if every rollback that goes through names a version that has been published. -/
theorem metadataSound_iff_namesPublished (md5 : Bytes → String) (n : ElementName) (kv : KVState)
    (hmd : (stored n kv).metadata = none) (hver : ∀ v, (stored n kv).versions v = none)
    (calls : List Call) :
    Transition.EachState (afterCall md5 n) (fun kv => MetadataSound md5 (stored n kv)) kv calls ↔
      Transition.EachStep (afterCall md5 n) (fun kv c _ => NamesPublished (stored n kv) c.op)
        kv calls := by
  refine Transition.eachState_iff_eachStep (fun kv => WellFormed md5 (stored n kv))
    (fun kv c kv' => wellFormed_afterCall) (fun kv c kv' hwf hsound h => ?_)
    (.absent hmd hver) (fun md h => ?_) calls
  · rw [metadataSound_iff (wellFormed_afterCall hwf h), stored_afterCall h]
    constructor
    · exact fun huses => namesPublished_of_effect hwf huses
    · intro hnames
      exact usesPublished_effect hwf ((metadataSound_iff hwf).mp hsound) hnames
        (effect_spec md5 n c (stored n kv))
  · rw [hmd] at h
    cases h

/-- Publishing version 1 again drops the draft of version 2, which a rollback then puts in
use. -/
def draftCalls : List Call :=
  [⟨.create [1] 1, none, 1⟩, ⟨.publish 1, none, 2⟩, ⟨.update [2], none, 3⟩, ⟨.publish 1, none, 4⟩,
    ⟨.update [3], none, 5⟩, ⟨.publish 3, none, 6⟩, ⟨.rollback 2, none, 7⟩]

theorem draftCalls_metadata_iff :
    Transition.EachState (afterCall (fun _ => "") ⟨"a", "e", "k", by decide⟩)
        (fun kv => MetadataSound (fun _ => "") (stored ⟨"a", "e", "k", by decide⟩ kv))
        (fun _ => none) draftCalls ↔
      Transition.EachStep (afterCall (fun _ => "") ⟨"a", "e", "k", by decide⟩)
        (fun kv c _ => NamesPublished (stored ⟨"a", "e", "k", by decide⟩ kv) c.op)
        (fun _ => none) draftCalls :=
  metadataSound_iff_namesPublished _ _ _ rfl (fun _ => rfl) _

theorem draft_in_use : ¬ Transition.EachState (afterCall (fun _ => "") ⟨"a", "e", "k", by decide⟩)
    (fun kv => MetadataSound (fun _ => "") (stored ⟨"a", "e", "k", by decide⟩ kv))
    (fun _ => none) draftCalls := by
  intro h
  have hpub := (h.of_run rfl).uses ⟨"k", "a", "e", 3, 0, 2, "", 1⟩
    { Raw := [2], Version := 2, Published := false } (by decide) (by decide) (by decide)
  cases hpub

end Cassem.Coord
