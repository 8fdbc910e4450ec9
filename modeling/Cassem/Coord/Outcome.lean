import Cassem.Coord.Plan
import Cassem.Lib.Fold

/-!
# The outcome of a call

A call that runs alone comes to a plan, and the plan depends on the metadata and the
versions of its element only. It is carried out write after write, up to the first that
the service refuses.
-/

namespace Cassem.Coord

open Lib Cassem.Concept
open KV (Bytes int32)

/-! ## Metadata and versions -/

/-- What is stored of an element, the record of its operations apart. -/
@[ext]
structure Content where
  metadata : Option Record
  versions : Int → Option Record

namespace Content

/-- The answer of the service to a read. -/
def answer (val : Option Record) : Except GoError Record :=
  match val with
  | some val => .ok val
  | none => .error (.concept Err_NOT_FOUND)

@[simp] theorem answer_some (val : Record) : answer (some val) = .ok val := rfl

def put (k : Content) (w : Write) : Content :=
  match w.target with
  | .metadata => { k with metadata := some w.val }
  | .version v => { k with versions := Function.update k.versions v (some w.val) }
  | .operation _ => k

/-- The record at a target; nothing is known of the operations. -/
def look (k : Content) : Target → Option Record
  | .metadata => k.metadata
  | .version v => k.versions v
  | .operation _ => none

def Lands (k : Content) (w : Write) : Prop := w.overwrite = true ∨ k.look w.target = none

instance (k : Content) (w : Write) : Decidable (k.Lands w) := inferInstanceAs (Decidable (_ ∨ _))

/-- The writes one after the other, up to the first that is refused. -/
def carryOut (k : Content) : List Write → Content
  | [] => k
  | w :: ws => if k.Lands w then (k.put w).carryOut ws else k

end Content

namespace ElementState

def content (es : ElementState) : Content where
  metadata := es .metadata
  versions v := es (.version v)

@[simp] theorem content_metadata (es : ElementState) : es.content.metadata = es .metadata := rfl

@[simp] theorem content_versions (es : ElementState) (v : Int) :
    es.content.versions v = es (.version v) := rfl

/-- The service carries the write out. -/
def Lands (es : ElementState) (w : Write) : Prop := w.overwrite = true ∨ es w.target = none

instance (es : ElementState) (w : Write) : Decidable (es.Lands w) :=
  inferInstanceAs (Decidable (_ ∨ _))

def put (es : ElementState) (w : Write) : ElementState :=
  Function.update es w.target (some w.val)

def errExists : Fault := .error (.errorf "kvWrite.saveRaw: " (.concept Err_ALREADY_EXISTS))

/-- The writes one after the other, up to the first that is refused. -/
def carryOut (res : Option Element) (es : ElementState) :
    List Write → ElementState × Except Fault (Option Element)
  | [] => (es, .ok res)
  | w :: ws => if es.Lands w then carryOut res (es.put w) ws else (es, .error errExists)

theorem carryOut_of_lands (es : ElementState) (res : Option Element) {w : Write} (h : es.Lands w)
    (ws : List Write) : es.carryOut res (w :: ws) = (es.put w).carryOut res ws := if_pos h

theorem carryOut_of_refused (es : ElementState) (res : Option Element) {w : Write}
    (h : ¬ es.Lands w) (ws : List Write) : es.carryOut res (w :: ws) = (es, .error errExists) :=
  if_neg h

theorem content_put (es : ElementState) (w : Write) : (es.put w).content = es.content.put w := by
  obtain ⟨t, val, overwrite⟩ := w
  cases t with
  | metadata => simp [put, content, Content.put]
  | operation t => simp [put, content, Content.put]
  | version v =>
    refine Content.ext (by simp [put, content, Content.put]) (funext fun u => ?_)
    by_cases h : u = v
    · simp [put, content, Content.put, h]
    · simp [put, content, Content.put, Function.update_of_ne, h]

end ElementState

/-! ## Plans and outcomes -/

section Using

variable (md5 : Bytes → String) (n : ElementName)

/-- The plan of a call that begins with a read of the metadata. -/
def Call.readPlan (c : Call) (k : Content) : Plan :=
  match Content.answer k.metadata with
  | .error err => .error (.error err)
  | .ok (.metadata md) =>
      match c.afterMetadata n md with
      | .plan p => p
      | .read version =>
          elementOf (Content.answer (k.versions version)) >>= c.afterElement md5 n md version
  | .ok _ => .error errUnmarshal

/-- The plan a call comes to. -/
def Call.plan (c : Call) (k : Content) : Plan :=
  match c.op with
  | .create raw contentTyp => createPlan n c.ctx raw contentTyp
  | _ => c.readPlan md5 n k

def Plan.outcome (es : ElementState) : Plan → ElementState × Except Fault (Option Element)
  | .error fault => (es, .error fault)
  | .ok (ws, res) => es.carryOut res ws

/-- What the call does to the metadata and the versions. -/
def Call.effect (c : Call) (k : Content) : Content :=
  match c.plan md5 n k with
  | .error _ => k
  | .ok (ws, _) => k.carryOut ws

def Call.outcome (c : Call) (es : ElementState) : ElementState × Except Fault (Option Element) :=
  (c.plan md5 n es.content).outcome es

end Using

/-! ## Effects

The record of the operation comes last, so that metadata and versions are the same
whether the service carries it out or not. -/

/-- Only the last write may be the record of an operation. -/
def RecordedLast (ws : List Write) : Prop := ∀ w ∈ ws.dropLast, ∀ t, w.target ≠ .operation t

theorem Content.put_operation {w : Write} {t : Int} (h : w.target = .operation t) (k : Content) :
    k.put w = k := by
  rw [Content.put, h]

theorem ElementState.content_lands (es : ElementState) {w : Write}
    (h : ∀ t, w.target ≠ .operation t) : es.content.Lands w ↔ es.Lands w := by
  unfold Content.Lands Lands
  cases ht : w.target with
  | metadata => rfl
  | version v => rfl
  | operation t => exact absurd ht (h t)

theorem content_carryOut (res : Option Element) {ws : List Write} (hlast : RecordedLast ws)
    (es : ElementState) : (es.carryOut res ws).1.content = es.content.carryOut ws := by
  induction ws generalizing es with
  | nil => rfl
  | cons w ws ih =>
    by_cases hw : ∀ t, w.target ≠ .operation t
    · rw [Content.carryOut]
      by_cases hland : es.Lands w
      · rw [es.carryOut_of_lands res hland, if_pos ((es.content_lands hw).mpr hland),
          ← es.content_put]
        refine ih (fun x hx => hlast x ?_) _
        cases ws with
        | nil => cases hx
        | cons w' ws => exact List.mem_cons_of_mem _ hx
      · rw [es.carryOut_of_refused res hland, if_neg (mt (es.content_lands hw).mp hland)]
    · obtain ⟨t, ht⟩ := not_forall_not.mp hw
      cases ws with
      | nil =>
        rw [Content.carryOut, es.content.put_operation ht, Content.carryOut, ite_self]
        by_cases hland : es.Lands w
        · rw [es.carryOut_of_lands res hland, ElementState.carryOut, es.content_put,
            Content.put_operation ht]
        · rw [es.carryOut_of_refused res hland]
      | cons w' ws => exact absurd ht (hlast w (by simp) t)

section Using

variable (md5 : Bytes → String) (n : ElementName)

/-- A plan that makes writes has read the metadata and, except for an update, a version. -/
theorem readPlan_eq_ok {c : Call} {k : Content} {p : List Write × Option Element}
    (h : c.readPlan md5 n k = .ok p) : ∃ md, k.metadata = some (.metadata md) ∧
      (c.afterMetadata n md = .plan (.ok p) ∨
        ∃ version ele, c.afterMetadata n md = .read version ∧
          k.versions version = some (.element ele) ∧
          c.afterElement md5 n md version ele = .ok p) := by
  unfold Call.readPlan at h
  cases hmd : k.metadata with
  | none => rw [hmd] at h; cases h
  | some val =>
    rw [hmd] at h
    cases val with
    | element ele => cases h
    | operation op => cases h
    | metadata md =>
      refine ⟨md, rfl, ?_⟩
      dsimp only [Content.answer] at h
      cases hafter : c.afterMetadata n md with
      | plan q =>
        rw [hafter] at h
        exact .inl (congrArg _ h)
      | read version =>
        rw [hafter] at h
        obtain ⟨ele, hele, hp⟩ := Fold.bind_eq_ok h
        refine .inr ⟨version, ele, rfl, ?_, hp⟩
        cases hval : k.versions version with
        | none => rw [hval] at hele; cases hele
        | some val =>
          rw [hval] at hele
          cases val <;> cases hele
          rfl

theorem updatePlan_eq_ok {ctx : Ctx} {raw : Bytes} {md : ElementMetadata}
    {p : List Write × Option Element} (h : updatePlan n ctx raw md = .ok p) :
    md.UnpublishedVersion = 0 ∧ 1 ≤ int32 (md.LatestVersion + 1) ∧
      p = ([⟨.version (int32 (md.LatestVersion + 1)), .element
            { Raw := raw, Version := int32 (md.LatestVersion + 1), Published := false }, false⟩,
          ⟨.metadata, .metadata
            { md with
              LatestVersion := int32 (md.LatestVersion + 1)
              UnpublishedVersion := int32 (md.LatestVersion + 1) }, true⟩,
          operationWrite ctx n.key .SET md.LatestVersion (int32 (md.LatestVersion + 1)) ""],
        none) := by
  unfold updatePlan at h
  dsimp only at h
  by_cases hun : md.UnpublishedVersion = 0
  · rw [if_neg (not_not.mpr hun)] at h
    by_cases hver : int32 (md.LatestVersion + 1) < 1
    · rw [if_pos hver] at h
      cases h
    · rw [if_neg hver] at h
      exact ⟨hun, by omega, (Except.ok.inj h).symm⟩
  · rw [if_pos hun] at h
    cases h

theorem rollbackPlan_eq_ok {ctx : Ctx} {version : Nat} {md : ElementMetadata} {ele : Element}
    {p : List Write × Option Element} (h : rollbackPlan md5 n ctx version md ele = .ok p) :
    int32 version < md.UsingVersion ∧
      p = ([⟨.metadata, .metadata (rolledBack md5 md ele), true⟩,
          operationWrite ctx n.key .PUBLISH md.UsingVersion ele.Version
            ("rollback to version " ++ toString version)], none) := by
  unfold rollbackPlan at h
  by_cases hle : md.UsingVersion ≤ int32 version
  · rw [if_pos hle] at h
    cases h
  · rw [if_neg hle] at h
    exact ⟨by omega, (Except.ok.inj h).symm⟩

/-- The plans that make writes, one case for each operation. -/
inductive Planned (ctx : Ctx) (k : Content) : Op → List Write × Option Element → Prop
  | create (raw : Bytes) (contentTyp : Int) {p : List Write × Option Element}
      (h : createPlan n ctx raw contentTyp = .ok p) : Planned ctx k (.create raw contentTyp) p
  | update {raw : Bytes} {md : ElementMetadata} {p : List Write × Option Element}
      (hmd : k.metadata = some (.metadata md)) (h : updatePlan n ctx raw md = .ok p) :
      Planned ctx k (.update raw) p
  | idle {version : UInt32} {md : ElementMetadata} (hmd : k.metadata = some (.metadata md))
      (hversion : publishedVersion md version = 0) : Planned ctx k (.publish version) ([], none)
  | publish {version : UInt32} {md : ElementMetadata} {ele : Element}
      {p : List Write × Option Element} (hmd : k.metadata = some (.metadata md))
      (hversion : publishedVersion md version ≠ 0)
      (hele : k.versions (publishedVersion md version) = some (.element ele))
      (h : publishPlan md5 n ctx (publishedVersion md version) md ele = .ok p) :
      Planned ctx k (.publish version) p
  | rollback {version : UInt32} {md : ElementMetadata} {ele : Element}
      {p : List Write × Option Element} (hmd : k.metadata = some (.metadata md))
      (hversion : version.toNat ≠ 0) (hele : k.versions version.toNat = some (.element ele))
      (h : rollbackPlan md5 n ctx version.toNat md ele = .ok p) :
      Planned ctx k (.rollback version) p

theorem plan_eq_ok {c : Call} {k : Content} {p : List Write × Option Element}
    (h : c.plan md5 n k = .ok p) : Planned md5 n c.ctx k c.op p := by
  obtain ⟨op, ctx⟩ := c
  cases op with
  | create raw contentTyp => exact .create raw contentTyp h
  | update raw =>
    obtain ⟨md, hmd, hplan | ⟨version, ele, hread, -⟩⟩ :=
      readPlan_eq_ok md5 n (c := ⟨.update raw, ctx⟩) h
    · exact .update hmd (Next.plan.inj hplan)
    · cases hread
  | publish version =>
    obtain ⟨md, hmd, hplan | ⟨v, ele, hread, hele, hp⟩⟩ :=
      readPlan_eq_ok md5 n (c := ⟨.publish version, ctx⟩) h
    · dsimp only [Call.afterMetadata] at hplan
      split at hplan
      · next hzero =>
        cases hplan
        exact .idle hmd hzero
      · cases hplan
    · dsimp only [Call.afterMetadata] at hread
      split at hread
      · cases hread
      · next hzero =>
        cases hread
        exact .publish hmd hzero hele hp
  | rollback version =>
    obtain ⟨md, hmd, hplan | ⟨v, ele, hread, hele, hp⟩⟩ :=
      readPlan_eq_ok md5 n (c := ⟨.rollback version, ctx⟩) h
    · dsimp only [Call.afterMetadata] at hplan
      split at hplan <;> cases hplan
    · dsimp only [Call.afterMetadata] at hread
      split at hread
      · cases hread
      · next hzero =>
        cases hread
        exact .rollback hmd hzero hele hp

theorem after_element (f : Element → Plan) (ele : Element) :
    elementOf (Content.answer (some (.element ele))) >>= f = f ele := rfl

section

variable {k : Content} {md : ElementMetadata} (hmd : k.metadata = some (.metadata md)) (ctx : Ctx)
include hmd

theorem plan_update (raw : Bytes) :
    Call.plan md5 n ⟨.update raw, ctx⟩ k = updatePlan n ctx raw md := by
  rw [Call.plan, Call.readPlan, hmd]
  rfl

theorem plan_idle {version : UInt32} (hversion : publishedVersion md version = 0) :
    Call.plan md5 n ⟨.publish version, ctx⟩ k = .ok ([], none) := by
  rw [Call.plan, Call.readPlan, hmd]
  simp only [Content.answer_some, Call.afterMetadata, if_pos hversion]

theorem plan_publish {version : UInt32} {ele : Element}
    (hversion : publishedVersion md version ≠ 0)
    (hele : k.versions (publishedVersion md version) = some (.element ele)) :
    Call.plan md5 n ⟨.publish version, ctx⟩ k =
      publishPlan md5 n ctx (publishedVersion md version) md ele := by
  rw [Call.plan, Call.readPlan, hmd]
  simp only [Content.answer_some, Call.afterMetadata, if_neg hversion]
  rw [hele, after_element]
  rfl

theorem plan_rollback {version : UInt32} {ele : Element} (hversion : version.toNat ≠ 0)
    (hele : k.versions version.toNat = some (.element ele)) :
    Call.plan md5 n ⟨.rollback version, ctx⟩ k = rollbackPlan md5 n ctx version.toNat md ele := by
  rw [Call.plan, Call.readPlan, hmd]
  simp only [Content.answer_some, Call.afterMetadata, if_neg hversion]
  rw [hele, after_element]
  simp only [Call.afterElement]

end

theorem plan_recordedLast {c : Call} {k : Content} {ws : List Write} {res : Option Element}
    (h : c.plan md5 n k = .ok (ws, res)) : RecordedLast ws := by
  obtain ⟨op, ctx⟩ := c
  cases plan_eq_ok md5 n h with
  | create raw contentTyp h => cases h; simp [RecordedLast]
  | update hmd h => cases (updatePlan_eq_ok n h).2.2; simp [RecordedLast]
  | idle hmd hversion => simp [RecordedLast]
  | publish hmd hversion hele h => cases h; simp [RecordedLast]
  | rollback hmd hversion hele h => cases (rollbackPlan_eq_ok md5 n h).2; simp [RecordedLast]

theorem content_outcome (c : Call) (es : ElementState) :
    (c.outcome md5 n es).1.content = c.effect md5 n es.content := by
  unfold Call.outcome Call.effect
  cases hplan : c.plan md5 n es.content with
  | error fault => rfl
  | ok p => exact content_carryOut p.2 (plan_recordedLast md5 n hplan) es

end Using

/-! ## Runs -/

section Runs

variable (n : ElementName) (kv : KVState)

theorem serveKV_get (t : Target) :
    serveKV kv (.GetKV (t.key n)) = (kv, Content.answer (view n kv t)) := rfl

theorem serveKV_set (w : Write) :
    serveKV kv (.SetKV (w.target.key n) w.val w.overwrite) =
      if (view n kv).Lands w then (Function.update kv (w.target.key n) (some w.val), .ok ())
      else (kv, .error (.concept Err_ALREADY_EXISTS)) := by
  obtain ⟨t, val, overwrite⟩ := w
  unfold serveKV ElementState.Lands view
  cases overwrite with
  | true => simp
  | false => by_cases h : kv (t.key n) = none <;> simp [h, Option.isSome_iff_ne_none]

/-- What the service holds and what the program returned, seen from the element. -/
def seen (r : KVState × Except Fault (Option Element)) :
    ElementState × Except Fault (Option Element) := (view n r.1, r.2)

theorem seen_writeSeq (res : Option Element) (ws : List Write) :
    seen n (Program.run serveKV kv (writeSeq n res ws)) = (view n kv).carryOut res ws := by
  induction ws generalizing kv with
  | nil => rfl
  | cons w ws ih =>
    rw [writeSeq, Program.run, serveKV_set, ElementState.carryOut]
    split
    · rw [ElementState.put, ← view_update]
      exact ih _
    · rfl

theorem seen_plan (p : Plan) :
    seen n (Program.run serveKV kv (p.program n)) = p.outcome (view n kv) := by
  cases p with
  | error fault => rfl
  | ok p => exact seen_writeSeq n kv p.2 p.1

def isWrite : KVReq → Bool
  | .GetKV _ => false
  | .SetKV _ _ _ => true

theorem isWrite_set (key : String) (val : Record) (overwrite : Bool) :
    isWrite (.SetKV key val overwrite) = true := rfl

theorem serveKV_read (kv : KVState) (q : KVReq) (hq : isWrite q = false) :
    (serveKV kv q).1 = kv := by
  cases q with
  | GetKV key => rfl
  | SetKV key val overwrite => cases hq

theorem afterReads_get {α : Type} (t : Target)
    (next : Except GoError Record → Program KVReq.Resp α) :
    Program.afterReads serveKV isWrite kv (.call (.GetKV (t.key n)) next) =
      Program.afterReads serveKV isWrite kv (next (Content.answer (view n kv t))) := rfl

theorem afterReads_plan (p : Plan) :
    Program.afterReads serveKV isWrite kv (p.program n) = p.program n := by
  match p with
  | .error fault => rfl
  | .ok ([], res) => rfl
  | .ok (w :: ws, res) => rfl

variable (md5 : Bytes → String)

theorem afterReads_withElement (c : Call) (md : ElementMetadata) (version : Nat)
    (val : Option Record) :
    Program.afterReads serveKV isWrite kv (c.withElement md5 n md version (Content.answer val)) =
      Plan.program n (elementOf (Content.answer val) >>= c.afterElement md5 n md version) := by
  cases val with
  | none => rfl
  | some val =>
    cases val with
    | metadata md => rfl
    | operation op => rfl
    | element ele => exact afterReads_plan n kv (c.afterElement md5 n md version ele)

theorem afterReads_withMetadata (c : Call) :
    Program.afterReads serveKV isWrite kv
        (.call (.GetKV (Target.key n .metadata)) (c.withMetadata md5 n)) =
      (c.readPlan md5 n (view n kv).content).program n := by
  rw [afterReads_get]
  unfold Call.withMetadata Call.readPlan
  rw [ElementState.content_metadata]
  cases view n kv .metadata with
  | none => rfl
  | some val =>
    cases val with
    | element ele => rfl
    | operation op => rfl
    | metadata md =>
      dsimp only [Content.answer]
      cases c.afterMetadata n md with
      | plan p => exact afterReads_plan n kv p
      | read version =>
        dsimp only
        rw [afterReads_get]
        exact afterReads_withElement n kv md5 c md version _

/-- Once a call has made its reads it is the program of its plan. -/
theorem afterReads_program (c : Call) :
    Program.afterReads serveKV isWrite kv (c.program md5 n.app n.env n.key) =
      (c.plan md5 n (view n kv).content).program n := by
  obtain ⟨op, ctx⟩ := c
  cases op with
  | create raw contentTyp => rw [create_program]; exact afterReads_plan n kv _
  | update raw => rw [update_program]; exact afterReads_withMetadata n kv md5 _
  | publish version => rw [publish_program]; exact afterReads_withMetadata n kv md5 _
  | rollback version => rw [rollback_program]; exact afterReads_withMetadata n kv md5 _

theorem seen_program (c : Call) :
    seen n (Program.run serveKV kv (c.program md5 n.app n.env n.key)) =
      c.outcome md5 n (view n kv) := by
  rw [← Program.run_afterReads serveKV_read, afterReads_program, seen_plan, Call.outcome]

end Runs

end Cassem.Coord
