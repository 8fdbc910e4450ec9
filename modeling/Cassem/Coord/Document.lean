import Cassem.Coord.PartialFailure
import Cassem.Coord.Store

/-!
# Elements as versioned documents

What an element is for: a document of which every version stays, one version is in use, and the
latest may be a draft. The calls that write an element do to its records what the operations here
do to its document, and what is read of a version is what was written as it.
-/

namespace Cassem.Coord

open Lib Cassem.Concept
open KV (Bytes int32)

/-! ## Documents -/

/-- The content of a version, and whether it has ever been published. -/
structure Revision where
  raw : Bytes
  released : Bool
  deriving DecidableEq, Repr

/-- A document with its versions from 1 on. The version in use is 0 as long as there is none, and
until then the latest is a draft. -/
structure Document where
  contentType : Int
  revisions : List Revision
  inUse : Nat
  draft : Bool
  filled : revisions ≠ []
  bounded : revisions.length < 2 ^ 31
  inUse_le : inUse ≤ revisions.length
  draft_of_unused : inUse = 0 → draft = true

namespace Document

def latest (d : Document) : Nat := d.revisions.length

def revision? (d : Document) (version : Nat) : Option Revision :=
  if version = 0 then none else d.revisions[version - 1]?

def create (raw : Bytes) (contentType : Int) : Document where
  contentType := contentType
  revisions := [⟨raw, false⟩]
  inUse := 0
  draft := true
  filled := List.cons_ne_nil _ _
  bounded := show 1 < 2 ^ 31 by decide
  inUse_le := Nat.zero_le _
  draft_of_unused _ := rfl

/-- A new draft, unless there is one. -/
def update (d : Document) (raw : Bytes) : Option Document :=
  if h : d.draft = false ∧ d.latest + 1 < 2 ^ 31 then
    some
      { d with
        revisions := d.revisions ++ [⟨raw, false⟩]
        draft := true
        filled := List.append_ne_nil_of_left_ne_nil d.filled _
        bounded := by
          rw [List.length_append]
          exact h.2
        inUse_le := by
          rw [List.length_append]
          exact Nat.le_succ_of_le d.inUse_le
        draft_of_unused := fun _ => rfl }
  else none

/-- The version named, or the draft in place of 0. -/
def target (d : Document) (version : Nat) : Nat :=
  if version = 0 ∧ d.draft = true then d.latest else version

/-- The version comes into use; what was a draft is one no more, whichever version it is. -/
def publish (d : Document) (version : Nat) : Option Document :=
  if h : 1 ≤ version ∧ version ≤ d.latest then
    some
      { d with
        revisions := d.revisions.modify (version - 1) fun r => { r with released := true }
        inUse := version
        draft := false
        filled := by
          rw [← List.length_pos_iff, List.length_modify]
          exact List.length_pos_iff.mpr d.filled
        bounded := by
          rw [List.length_modify]
          exact d.bounded
        inUse_le := by
          rw [List.length_modify]
          exact h.2
        draft_of_unused := fun hzero => absurd hzero (Nat.ne_of_gt h.1) }
  else none

/-- An earlier version than that in use comes back. -/
def rollback (d : Document) (version : Nat) : Option Document :=
  if h : 1 ≤ version ∧ version < d.inUse then
    some
      { d with
        inUse := version
        inUse_le := h.2.le.trans d.inUse_le
        draft_of_unused := fun hzero => absurd hzero (Nat.ne_of_gt h.1) }
  else none

/-- The document after the operation, if it is accepted. -/
def apply : Option Document → Op → Option Document
  | none, .create raw contentTyp => some (create raw contentTyp)
  | some _, .create _ _ => none
  | none, _ => none
  | some d, .update raw => d.update raw
  | some d, .publish version =>
      if d.target version.toNat = 0 then some d else d.publish (d.target version.toNat)
  | some d, .rollback version => d.rollback version.toNat

def step (d : Option Document) (op : Op) : Option Document := (apply d op).or d

/-! ## The records of a document -/

variable (md5 : Bytes → String) (n : ElementName)

def metadata (d : Document) : ElementMetadata where
  Key := n.key
  App := n.app
  Env := n.env
  LatestVersion := d.latest
  UnpublishedVersion := if d.draft then d.latest else 0
  UsingVersion := d.inUse
  UsingFingerprint := (d.revision? d.inUse).elim "" fun r => md5 r.raw
  ContentType := d.contentType

def element (version : Nat) (r : Revision) : Element where
  Raw := r.raw
  Version := version
  Published := r.released

def content : Option Document → Content
  | none => ⟨none, fun _ => none⟩
  | some d =>
      ⟨some (.metadata (d.metadata md5 n)), fun v =>
        (d.revision? v.toNat).map fun r => .element (element v.toNat r)⟩

variable {md5 n} {d d' : Document}

/-! ## Versions -/

theorem latest_pos (d : Document) : 1 ≤ d.latest := List.length_pos_iff.mpr d.filled

@[simp] theorem revision?_zero (d : Document) : d.revision? 0 = none := rfl

theorem revision?_succ (d : Document) (i : Nat) : d.revision? (i + 1) = d.revisions[i]? := by
  rw [revision?, if_neg (Nat.succ_ne_zero i), Nat.add_sub_cancel]

theorem exists_revision_iff {version : Nat} :
    (∃ r, d.revision? version = some r) ↔ 1 ≤ version ∧ version ≤ d.latest := by
  cases version with
  | zero => simp
  | succ i =>
    simp only [revision?_succ, List.getElem?_eq_some_iff, latest]
    constructor
    · rintro ⟨-, hi, -⟩
      exact ⟨Nat.succ_pos i, hi⟩
    · rintro ⟨-, hi⟩
      exact ⟨_, hi, rfl⟩

theorem revision?_eq_none {version : Nat} :
    d.revision? version = none ↔ version = 0 ∨ d.latest < version := by
  rw [Option.eq_none_iff_forall_not_mem]
  have h := @exists_revision_iff d version
  simp only [Option.mem_def]
  rw [← not_exists, h]
  omega

@[simp] theorem content_none_metadata : (content md5 n none).metadata = none := rfl

@[simp] theorem content_none_versions (v : Int) : (content md5 n none).versions v = none := rfl

@[simp] theorem content_metadata :
    (content md5 n (some d)).metadata = some (.metadata (d.metadata md5 n)) := rfl

theorem content_versions (v : Int) : (content md5 n (some d)).versions v =
    (d.revision? v.toNat).map fun r => .element (element v.toNat r) := rfl

theorem content_version {version : Nat} {r : Revision} (h : d.revision? version = some r) :
    (content md5 n (some d)).versions version = some (.element (element version r)) := by
  rw [content_versions, Int.toNat_natCast, h]
  rfl

theorem publishedVersion_eq (version : UInt32) :
    publishedVersion (d.metadata md5 n) version = d.target version.toNat := by
  have hzero : version = 0 ↔ version.toNat = 0 := by
    rw [← UInt32.toNat_inj]
    rfl
  have hpos := d.latest_pos
  have hlt := d.bounded
  unfold publishedVersion target metadata
  dsimp only
  cases d.draft with
  | false => simp
  | true =>
    simp only [hzero, if_true, and_true]
    split
    · split
      · unfold uint32
        rw [latest] at hpos ⊢
        omega
      · omega
    · split
      · omega
      · rfl

/-! ## What the operations do to the versions -/

theorem update_eq_some {raw : Bytes} (h : d.update raw = some d') :
    d.draft = false ∧ d.latest + 1 < 2 ^ 31 ∧ d'.latest = d.latest + 1 ∧ d'.draft = true ∧
      d'.inUse = d.inUse ∧ d'.contentType = d.contentType ∧
      ∀ v, d'.revision? v = if v = d.latest + 1 then some ⟨raw, false⟩ else d.revision? v := by
  unfold update at h
  split at h
  · next hok =>
    cases h
    refine ⟨hok.1, hok.2, List.length_append, rfl, rfl, rfl, fun v => ?_⟩
    cases v with
    | zero => simp [revision?]
    | succ i =>
      rw [revision?_succ, revision?_succ]
      dsimp only
      split
      · next hi =>
        have hlast : i = d.revisions.length := Nat.succ.inj hi
        rw [hlast, List.getElem?_concat_length]
      · next hi =>
        have hne : i ≠ d.revisions.length := fun h => hi (congrArg Nat.succ h)
        rcases Nat.lt_or_gt_of_ne hne with hlt | hgt
        · rw [List.getElem?_append_left hlt]
        · rw [List.getElem?_eq_none (by rw [List.length_append]; exact hgt),
            List.getElem?_eq_none hgt.le]
  · cases h

theorem publish_eq_some {version : Nat} (h : d.publish version = some d') :
    1 ≤ version ∧ version ≤ d.latest ∧ d'.latest = d.latest ∧ d'.draft = false ∧ d'.inUse = version ∧
      d'.contentType = d.contentType ∧ ∀ v, d'.revision? v =
        (d.revision? v).map fun r => if v = version then { r with released := true } else r := by
  unfold publish at h
  split at h
  · next hok =>
    cases h
    refine ⟨hok.1, hok.2, List.length_modify .., rfl, rfl, rfl, fun v => ?_⟩
    cases v with
    | zero => rfl
    | succ i =>
      rw [revision?_succ, revision?_succ]
      dsimp only
      rw [List.getElem?_modify]
      have hi : version - 1 = i ↔ i + 1 = version := by omega
      simp only [hi]
      rfl
  · cases h

theorem rollback_eq_some {version : Nat} (h : d.rollback version = some d') :
    1 ≤ version ∧ version < d.inUse ∧ d'.revisions = d.revisions ∧ d'.draft = d.draft ∧
      d'.inUse = version ∧ d'.contentType = d.contentType := by
  unfold rollback at h
  split at h
  · next hok =>
    cases h
    exact ⟨hok.1, hok.2, rfl, rfl, rfl, rfl⟩
  · cases h

/-! ## What stays -/

/-- The versions are kept with their content, and what was published stays so. -/
structure Extends (d d' : Document) : Prop where
  contentType : d'.contentType = d.contentType
  kept : ∀ v r, d.revision? v = some r →
    ∃ r', d'.revision? v = some r' ∧ r'.raw = r.raw ∧ (r.released = true → r'.released = true)
  used : d.inUse ≠ 0 → d'.inUse ≠ 0

theorem Extends.refl (d : Document) : d.Extends d where
  contentType := rfl
  kept _ r h := ⟨r, h, rfl, id⟩
  used := id

theorem Extends.trans {d'' : Document} (h : d.Extends d') (h' : d'.Extends d'') :
    d.Extends d'' where
  contentType := h'.contentType.trans h.contentType
  kept v r hr := by
    obtain ⟨r', hr', hraw, hreleased⟩ := h.kept v r hr
    obtain ⟨r'', hr'', hraw', hreleased'⟩ := h'.kept v r' hr'
    exact ⟨r'', hr'', hraw'.trans hraw, hreleased' ∘ hreleased⟩
  used := h'.used ∘ h.used

theorem extends_update {raw : Bytes} (h : d.update raw = some d') : d.Extends d' := by
  obtain ⟨-, -, -, -, hinUse, htype, hrevision⟩ := update_eq_some h
  refine ⟨htype, fun v r hr => ⟨r, ?_, rfl, id⟩, fun hused => hinUse.trans_ne hused⟩
  have hle := (exists_revision_iff.mp ⟨r, hr⟩).2
  rw [hrevision, if_neg (Nat.ne_of_lt (Nat.lt_succ_of_le hle)), hr]

theorem extends_publish {version : Nat} (h : d.publish version = some d') : d.Extends d' := by
  obtain ⟨hpos, -, -, -, hinUse, htype, hrevision⟩ := publish_eq_some h
  refine ⟨htype, fun v r hr => ?_, fun _ => hinUse.trans_ne (Nat.ne_of_gt hpos)⟩
  refine ⟨_, by rw [hrevision, hr, Option.map_some], ?_, fun hreleased => ?_⟩
  · split <;> rfl
  · split
    · rfl
    · exact hreleased

theorem extends_rollback {version : Nat} (h : d.rollback version = some d') : d.Extends d' := by
  obtain ⟨hpos, -, hrevisions, -, hinUse, htype⟩ := rollback_eq_some h
  refine ⟨htype, fun v r hr => ⟨r, ?_, rfl, id⟩, fun _ => hinUse.trans_ne (Nat.ne_of_gt hpos)⟩
  rw [revision?, hrevisions]
  exact hr

/-- Whatever is asked of a document, it is extended. -/
theorem extends_step (d : Document) (op : Op) : ∃ d', step (some d) op = some d' ∧ d.Extends d' := by
  unfold step
  cases happly : apply (some d) op with
  | none => exact ⟨d, rfl, .refl d⟩
  | some d' =>
    refine ⟨d', rfl, ?_⟩
    cases op with
    | create raw contentTyp => cases happly
    | update raw => exact extends_update happly
    | rollback version => exact extends_rollback happly
    | publish version =>
      rw [apply] at happly
      split at happly
      · cases happly
        exact .refl d
      · exact extends_publish happly

/-! ## The calls do the same -/

section Calls

variable {ctx : Ctx}

theorem effect_update {raw : Bytes} (h : d.update raw = some d') :
    Call.Accepted md5 n ⟨.update raw, ctx⟩ (content md5 n (some d)) ∧
      Call.effect md5 n ⟨.update raw, ctx⟩ (content md5 n (some d)) = content md5 n (some d') := by
  obtain ⟨hdraft, hlt, hlatest, hdraft', hinUse, htype, hrevision⟩ := update_eq_some h
  have hpos := d.latest_pos
  have hun : (d.metadata md5 n).UnpublishedVersion = 0 := by
    rw [metadata, hdraft]
    rfl
  have hnext : int32 ((d.metadata md5 n).LatestVersion + 1) = (d.latest + 1 : Nat) :=
    KV.int32_of_range (by show -2 ^ 31 ≤ (d.latest : Int) + 1; omega)
      (by show (d.latest : Int) + 1 < 2 ^ 31; omega)
  have hfree : (content md5 n (some d)).versions ((d.latest + 1 : Nat) : Int) = none := by
    rw [content_versions, Int.toNat_natCast, revision?_eq_none.mpr (Or.inr (Nat.lt_succ_self _))]
    rfl
  have hone : (1 : Int) ≤ (d.latest + 1 : Nat) := by omega
  rw [← hnext] at hfree hone
  refine ⟨(accepted_update content_metadata).mpr ⟨hun, hone, hfree⟩, ?_⟩
  rw [Coord.effect_update content_metadata hun hone hfree]
  refine Content.ext ?_ (funext fun v => ?_)
  · have huse : d'.revision? d.inUse = d.revision? d.inUse := by
      rw [hrevision, if_neg]
      have hle := d.inUse_le
      rw [latest]
      omega
    rw [content_metadata]
    unfold updated
    rw [hnext]
    simp only [metadata, hlatest, hdraft', hinUse, huse, htype, if_true]
  · rw [hnext]
    dsimp only
    by_cases hv : v = (d.latest + 1 : Nat)
    · have hnew : d'.revision? (d.latest + 1) = some ⟨raw, false⟩ := by
        rw [hrevision, if_pos rfl]
      subst hv
      rw [Function.update_self, content_version hnew]
      rfl
    · rw [Function.update_of_ne hv, content_versions, content_versions, hrevision, if_neg]
      omega

theorem effect_create (raw : Bytes) (contentTyp : Int) :
    Call.Accepted md5 n ⟨.create raw contentTyp, ctx⟩ (content md5 n none) ∧
      Call.effect md5 n ⟨.create raw contentTyp, ctx⟩ (content md5 n none) =
        content md5 n (some (create raw contentTyp)) := by
  refine ⟨accepted_create.mpr ⟨rfl, rfl⟩, ?_⟩
  rw [Coord.effect_create rfl rfl]
  refine Content.ext rfl (funext fun v => ?_)
  dsimp only
  by_cases hv : v = 1
  · rw [hv, Function.update_self]
    rfl
  · have hnone : (create raw contentTyp).revision? v.toNat = none := by
      rw [revision?_eq_none]
      show v.toNat = 0 ∨ 1 < v.toNat
      omega
    rw [Function.update_of_ne hv, content_versions, hnone]
    rfl

theorem effect_publish {version : UInt32} (h : d.publish (d.target version.toNat) = some d') :
    Call.Accepted md5 n ⟨.publish version, ctx⟩ (content md5 n (some d)) ∧
      Call.effect md5 n ⟨.publish version, ctx⟩ (content md5 n (some d)) =
        content md5 n (some d') := by
  obtain ⟨hpos, hle, hlatest, hdraft, hinUse, htype, hrevision⟩ := publish_eq_some h
  obtain ⟨r, hr⟩ := exists_revision_iff.mpr ⟨hpos, hle⟩
  have heq : publishedVersion (d.metadata md5 n) version = d.target version.toNat :=
    publishedVersion_eq version
  have hversion : publishedVersion (d.metadata md5 n) version ≠ 0 :=
    heq.trans_ne (Nat.ne_of_gt hpos)
  have hele : (content md5 n (some d)).versions (publishedVersion (d.metadata md5 n) version : Nat) =
      some (.element (element (d.target version.toNat) r)) := by
    rw [heq]
    exact content_version hr
  refine ⟨accepted_publish content_metadata hversion hele, ?_⟩
  rw [Coord.effect_publish content_metadata hversion hele, heq]
  generalize d.target version.toNat = v₀ at *
  have hr' : d'.revision? v₀ = some { r with released := true } := by
    rw [hrevision, hr, Option.map_some, if_pos rfl]
  refine Content.ext ?_ (funext fun v => ?_)
  · rw [content_metadata]
    unfold published
    simp [metadata, element, hlatest, hdraft, hinUse, hr', htype]
  · dsimp only
    by_cases hv : v = (v₀ : Int)
    · rw [hv, Function.update_self, content_version hr']
      rfl
    · rw [Function.update_of_ne hv, content_versions, content_versions, hrevision, Option.map_map]
      refine Option.map_congr fun r' hr₀ => ?_
      have hne : v.toNat ≠ v₀ := by
        rintro rfl
        have hbound := (exists_revision_iff.mp ⟨r', hr₀⟩).1
        omega
      rw [Function.comp_apply, if_neg hne]

theorem effect_rollback {version : UInt32} (h : d.rollback version.toNat = some d') :
    Call.Accepted md5 n ⟨.rollback version, ctx⟩ (content md5 n (some d)) ∧
      Call.effect md5 n ⟨.rollback version, ctx⟩ (content md5 n (some d)) =
        content md5 n (some d') := by
  obtain ⟨hpos, hlt, hrevisions, hdraft, hinUse, htype⟩ := rollback_eq_some h
  have hle := d.inUse_le
  have hbound := d.bounded
  have hlatest : d'.latest = d.latest := congrArg List.length hrevisions
  have hrevision : ∀ v, d'.revision? v = d.revision? v := by
    intro v
    unfold revision?
    rw [hrevisions]
  obtain ⟨r, hr⟩ := exists_revision_iff.mpr ⟨hpos, hlt.le.trans hle⟩
  have hele := @content_version md5 n d _ _ hr
  have hint : int32 version.toNat = version.toNat := KV.int32_of_range (by omega) (by omega)
  have hlt' : int32 version.toNat < (d.metadata md5 n).UsingVersion := by
    rw [hint]
    exact Int.ofNat_lt.mpr hlt
  have hversion : version.toNat ≠ 0 := by omega
  constructor
  · have hplan := plan_rollback md5 n (@content_metadata md5 n d) ctx hversion hele
    rw [rollbackPlan, if_neg (not_le.mpr hlt')] at hplan
    exact ⟨_, _, hplan, .inl rfl, .inr rfl, trivial⟩
  · rw [Coord.effect_rollback content_metadata hversion hele hlt']
    refine Content.ext ?_ (funext fun v => ?_)
    · rw [content_metadata]
      unfold rolledBack
      simp [metadata, element, hlatest, hdraft, hinUse, hrevision, hr, htype]
    · rw [content_versions, content_versions, hrevision]

/-- Only the creation of an element comes to a plan where the document refuses the operation. -/
theorem plan_of_refused {d : Option Document} {op : Op} (h : apply d op = none)
    {p : List Write × Option Element}
    (hplan : Call.plan md5 n ⟨op, ctx⟩ (content md5 n d) = .ok p) :
    ∃ raw contentTyp, op = .create raw contentTyp := by
  have hplanned := plan_eq_ok md5 n hplan
  cases d with
  | none =>
    cases hplanned with
    | create raw contentTyp hp => exact ⟨raw, contentTyp, rfl⟩
    | update hmd => cases hmd
    | idle hmd => cases hmd
    | publish hmd => cases hmd
    | rollback hmd => cases hmd
  | some d =>
    have hbound := d.bounded
    have hle := d.inUse_le
    cases hplanned with
    | create raw contentTyp hp => exact ⟨raw, contentTyp, rfl⟩
    | @update raw md p hmd hp =>
      cases hmd
      obtain ⟨hun, hpos, -⟩ := updatePlan_eq_ok n hp
      have hdraft : d.draft = false := by
        have hlatest := d.latest_pos
        cases hdraft : d.draft with
        | false => rfl
        | true =>
          simp only [metadata, hdraft, if_true] at hun
          omega
      have hlt : d.latest + 1 < 2 ^ 31 := by
        by_contra hge
        have hlatest : ((d.latest : Int) + 1) = 2 ^ 31 := by
          rw [latest] at hge ⊢
          omega
        change 1 ≤ int32 ((d.latest : Int) + 1) at hpos
        rw [hlatest] at hpos
        exact absurd hpos (by decide)
      rw [apply, update, dif_pos ⟨hdraft, hlt⟩] at h
      cases h
    | @idle version md hmd hversion =>
      cases hmd
      rw [publishedVersion_eq] at hversion
      rw [apply, if_pos hversion] at h
      cases h
    | @publish version md ele p hmd hversion hele hp =>
      cases hmd
      rw [publishedVersion_eq] at hversion hele
      rw [apply, if_neg hversion, publish] at h
      split at h
      · cases h
      · next hover =>
        have hnone : d.revision? (d.target version.toNat) = none :=
          revision?_eq_none.mpr (by omega)
        rw [content_versions, Int.toNat_natCast, hnone] at hele
        cases hele
    | @rollback version md ele p hmd hversion hele hp =>
      cases hmd
      obtain ⟨hlt, -⟩ := rollbackPlan_eq_ok md5 n hp
      rw [content_versions, Int.toNat_natCast] at hele
      obtain ⟨r, hr, -⟩ := Option.map_eq_some_iff.mp hele
      have hstored := (exists_revision_iff.mp ⟨r, hr⟩).2
      rw [latest] at hstored
      have hint : int32 version.toNat = version.toNat :=
        KV.int32_of_range (by omega) (by omega)
      rw [hint] at hlt
      have hok : 1 ≤ version.toNat ∧ version.toNat < d.inUse :=
        ⟨Nat.pos_of_ne_zero hversion, Int.ofNat_lt.mp hlt⟩
      rw [apply, rollback, dif_pos hok] at h
      cases h

/-- An operation that the document refuses fails before its first write. -/
theorem effect_refused {d : Option Document} {op : Op} (h : apply d op = none) :
    ¬ Call.Accepted md5 n ⟨op, ctx⟩ (content md5 n d) ∧
      Call.effect md5 n ⟨op, ctx⟩ (content md5 n d) = content md5 n d := by
  cases hplan : Call.plan md5 n ⟨op, ctx⟩ (content md5 n d) with
  | error fault =>
    constructor
    · rintro ⟨ws, res, hok, -⟩
      cases hplan.symm.trans hok
    · rw [Call.effect, hplan]
  | ok p =>
    obtain ⟨raw, contentTyp, rfl⟩ := plan_of_refused h hplan
    cases d with
    | none => cases h
    | some d =>
      constructor
      · rw [accepted_create]
        rintro ⟨hmd, -⟩
        cases hmd
      · simp [Call.effect, Call.plan, createPlan, Content.carryOut, Content.Lands, Content.look]

/-- A call is accepted as the operation is on the document, and leaves its records. -/
theorem call_refines (d : Option Document) (c : Call) :
    (c.Accepted md5 n (content md5 n d) ↔ (apply d c.op).isSome = true) ∧
      c.effect md5 n (content md5 n d) = content md5 n (step d c.op) := by
  obtain ⟨op, ctx⟩ := c
  cases happly : apply d op with
  | none =>
    obtain ⟨hno, heff⟩ := @effect_refused md5 n ctx d op happly
    rw [step, happly]
    exact ⟨iff_of_false hno Bool.false_ne_true, heff⟩
  | some d' =>
    rw [step, happly]
    suffices h : Call.Accepted md5 n ⟨op, ctx⟩ (content md5 n d) ∧
        Call.effect md5 n ⟨op, ctx⟩ (content md5 n d) = content md5 n (some d') from
      ⟨iff_of_true h.1 rfl, h.2⟩
    cases d with
    | none =>
      cases op with
      | create raw contentTyp =>
        cases happly
        exact effect_create raw contentTyp
      | update raw => cases happly
      | publish version => cases happly
      | rollback version => cases happly
    | some d =>
      cases op with
      | create raw contentTyp => cases happly
      | update raw => exact effect_update happly
      | rollback version => exact effect_rollback happly
      | publish version =>
        rw [apply] at happly
        split at happly
        · next hzero =>
          cases happly
          have hversion := (@publishedVersion_eq md5 n d' version).trans hzero
          exact ⟨accepted_idle content_metadata hversion, effect_idle content_metadata hversion⟩
        · next hpos => exact effect_publish happly

end Calls

end Document

end Cassem.Coord
