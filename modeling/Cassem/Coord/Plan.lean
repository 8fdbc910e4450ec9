import Cassem.Coord.Element

/-!
# What a call does

The programs of the write operations in one form: read the metadata, perhaps read a
version, then either end or make a series of writes that is fixed by what was read. The
records of one element are told apart by what they are for instead of by their keys.
-/

namespace Cassem.Coord

open Lib Cassem.Concept
open KV (Bytes int32)

/-! ## The records of one element -/

/-- The name of an element, none of its parts empty. -/
structure ElementName where
  app : String
  env : String
  key : String
  nonempty : ¬ (app = "" ∨ env = "" ∨ key = "")

namespace ElementName

def elementKey (n : ElementName) : String := joint ["cassem/elements", n.app, n.env, n.key]

theorem genElementKey (n : ElementName) :
    GenElementKey n.app n.env n.key = .ok n.elementKey := if_neg n.nonempty

end ElementName

/-- What a record of an element is for. -/
inductive Target where
  | metadata
  | version (n : Int)
  | operation (operatedAt : Int)
  deriving DecidableEq, Repr

def Target.key (n : ElementName) : Target → String
  | .metadata => WithMetadataSuffix n.elementKey
  | .version v => versionKey n.elementKey v
  | .operation operatedAt => GenElementOperationKey n.app n.env n.key operatedAt

theorem Target.key_injective (n : ElementName) : Function.Injective (Target.key n) := by
  have hop : ∀ (t : Int) (suffix : String),
      GenElementOperationKey n.app n.env n.key t ≠ n.elementKey ++ suffix :=
    fun t suffix => operationKey_ne_element n.app n.env n.key t n.app n.env n.key suffix
  intro s t h
  cases s with
  | metadata =>
    cases t with
    | metadata => rfl
    | version v => exact absurd h (metadata_ne_version _ v)
    | operation t => exact absurd h.symm (hop t _)
  | version u =>
    cases t with
    | metadata => exact absurd h.symm (metadata_ne_version _ u)
    | version v => exact congrArg _ (versionKey_inj.mp h)
    | operation t => exact absurd (h.symm.trans (joint_pair _ _)) (hop t _)
  | operation u =>
    cases t with
    | metadata => exact absurd h (hop u _)
    | version v => exact absurd (h.trans (joint_pair _ _)) (hop u _)
    | operation t => exact congrArg _ (operationKey_inj.mp h)

/-- The records of one element. -/
abbrev ElementState := Target → Option Record

def view (n : ElementName) (kv : KVState) : ElementState := fun t => kv (t.key n)

theorem view_update (n : ElementName) (kv : KVState) (t : Target) (val : Record) :
    view n (Function.update kv (t.key n) (some val)) =
      Function.update (view n kv) t (some val) := by
  funext t'
  unfold view
  by_cases h : t' = t
  · rw [h, Function.update_self, Function.update_self]
  · rw [Function.update_of_ne h, Function.update_of_ne ((Target.key_injective n).ne h)]

/-! ## Plans -/

structure Write where
  target : Target
  val : Record
  overwrite : Bool
  deriving DecidableEq, Repr

/-- The writes one after the other, up to the first that fails. -/
def writeSeq (n : ElementName) (res : Option Element) :
    List Write → Program KVReq.Resp (Except Fault (Option Element))
  | [] => .done (.ok res)
  | w :: ws => .call (.SetKV (w.target.key n) w.val w.overwrite) fun
      | .ok _ => writeSeq n res ws
      | .error err => .done (.error (.error (.errorf "kvWrite.saveRaw: " err)))

/-- What a call does once it has read all it reads: it fails, or makes some writes and
returns. -/
abbrev Plan := Except Fault (List Write × Option Element)

def Plan.program (n : ElementName) : Plan → Program KVReq.Resp (Except Fault (Option Element))
  | .error fault => .done (.error fault)
  | .ok (ws, res) => writeSeq n res ws

inductive Next where
  | plan (p : Plan)
  | read (version : Nat)

def operationWrite (ctx : Ctx) (key : String) (op : ElementOperation_Op)
    (lastVersion currentVersion : Int) (remark : String) : Write where
  target := .operation ctx.operatedAt
  val := .operation
    { Operator := OperatorFromContext ctx.operator, OperatedAt := ctx.operatedAt
      OperatedKey := key, Op := op, LastVersion := lastVersion
      CurrentVersion := currentVersion, Remark := remark }
  overwrite := false

def createPlan (n : ElementName) (ctx : Ctx) (raw : Bytes) (contentTyp : Int) : Plan :=
  .ok ([⟨.metadata, .metadata ⟨n.key, n.app, n.env, 1, 1, 0, "", contentTyp⟩, false⟩,
      ⟨.version 1, .element { Raw := raw, Version := 1, Published := false }, false⟩,
      operationWrite ctx n.key .SET 0 1 ""], none)

def updatePlan (n : ElementName) (ctx : Ctx) (raw : Bytes) (md : ElementMetadata) : Plan :=
  let version := int32 (md.LatestVersion + 1)
  if md.UnpublishedVersion ≠ 0 then
    .error (.error (.errorf ("unpublished version: " ++ toString md.UnpublishedVersion ++ ": ")
      (.concept Err_ALREADY_EXISTS)))
  else if version < 1 then .error (.panic ("invalid version: " ++ toString version))
  else
    .ok ([⟨.version version, .element { Raw := raw, Version := version, Published := false }, false⟩,
        ⟨.metadata, .metadata
          { md with LatestVersion := version, UnpublishedVersion := version }, true⟩,
        operationWrite ctx n.key .SET md.LatestVersion version ""], none)

section Using

variable (md5 : Bytes → String)

def rolledBack (md : ElementMetadata) (rollback : Element) : ElementMetadata :=
  { md with UsingVersion := rollback.Version, UsingFingerprint := md5 rollback.Raw }

def published (md : ElementMetadata) (publish : Element) : ElementMetadata :=
  { md with
    UsingVersion := publish.Version, UsingFingerprint := md5 publish.Raw
    UnpublishedVersion := 0 }

def rollbackPlan (n : ElementName) (ctx : Ctx) (rollbackVersion : Nat) (md : ElementMetadata)
    (rollback : Element) : Plan :=
  if md.UsingVersion ≤ int32 rollbackVersion then
    .error (.error (.errorf "rollback version lte using version: " (.concept Err_INVALID_ARGUMENT)))
  else
    .ok ([⟨.metadata, .metadata (rolledBack md5 md rollback), true⟩,
        operationWrite ctx n.key .PUBLISH md.UsingVersion rollback.Version
          ("rollback to version " ++ toString rollbackVersion)], none)

def publishPlan (n : ElementName) (ctx : Ctx) (publishVersion : Nat) (md : ElementMetadata)
    (publish : Element) : Plan :=
  .ok ([⟨.metadata, .metadata (published md5 md publish), true⟩,
      ⟨.version publishVersion, .element { publish with Published := true }, true⟩,
      operationWrite ctx n.key .PUBLISH md.UsingVersion publish.Version ""],
    some { publish with Published := true, Metadata := some (published md5 md publish) })

def Call.afterMetadata (n : ElementName) (c : Call) (md : ElementMetadata) : Next :=
  match c.op with
  | .create raw contentTyp => .plan (createPlan n c.ctx raw contentTyp)
  | .update raw => .plan (updatePlan n c.ctx raw md)
  | .publish version =>
      if publishedVersion md version = 0 then .plan (.ok ([], none))
      else .read (publishedVersion md version)
  | .rollback version =>
      if version.toNat = 0 then
        .plan (.error (.error (.errorf "version could not be 0: " (.concept Err_INVALID_ARGUMENT))))
      else .read version.toNat

def Call.afterElement (n : ElementName) (c : Call) (md : ElementMetadata) (version : Nat)
    (ele : Element) : Plan :=
  match c.op with
  | .rollback _ => rollbackPlan md5 n c.ctx version md ele
  | _ => publishPlan md5 n c.ctx version md ele

def Call.withElement (n : ElementName) (c : Call) (md : ElementMetadata) (version : Nat) :
    Except GoError Record → Program KVReq.Resp (Except Fault (Option Element))
  | .error err => .done (.error (.error err))
  | .ok (.element ele) => (c.afterElement md5 n md version ele).program n
  | .ok _ => .done (.error errUnmarshal)

def Call.withMetadata (n : ElementName) (c : Call) :
    Except GoError Record → Program KVReq.Resp (Except Fault (Option Element))
  | .error err => .done (.error (.error err))
  | .ok (.metadata md) =>
      match c.afterMetadata n md with
      | .plan p => p.program n
      | .read version =>
          .call (.GetKV (Target.key n (.version version))) (c.withElement md5 n md version)
  | .ok _ => .done (.error errUnmarshal)

end Using

/-! ## The programs have this form -/

theorem set_ext {key : String} {val : Record} {overwrite : Bool} {α : Type}
    {next next' : Except GoError Unit → Program KVReq.Resp α}
    (herr : ∀ err, next (.error err) = next' (.error err)) (hok : next (.ok ()) = next' (.ok ())) :
    (Program.call (.SetKV key val overwrite) next : Program KVReq.Resp α) =
      .call (.SetKV key val overwrite) next' :=
  congrArg _ (funext fun r => match r with
    | .error err => herr err
    | .ok () => hok)

theorem get_ext {key : String} {α : Type} {next next' : Except GoError Record → Program KVReq.Resp α}
    (herr : ∀ err, next (.error err) = next' (.error err))
    (hok : ∀ val, next (.ok val) = next' (.ok val)) :
    (Program.call (.GetKV key) next : Program KVReq.Resp α) = .call (.GetKV key) next' :=
  congrArg _ (funext fun r => match r with
    | .error err => herr err
    | .ok val => hok val)

variable (md5 : Bytes → String) (n : ElementName) (ctx : Ctx)

theorem create_program (raw : Bytes) (contentTyp : Int) :
    Call.program md5 n.app n.env n.key ⟨.create raw contentTyp, ctx⟩ =
      (createPlan n ctx raw contentTyp).program n := by
  unfold Call.program CreateElement
  rw [n.genElementKey]
  refine set_ext (fun _ => rfl) ?_
  refine set_ext (fun _ => rfl) ?_
  exact set_ext (fun _ => rfl) rfl

theorem update_program (raw : Bytes) :
    Call.program md5 n.app n.env n.key ⟨.update raw, ctx⟩ =
      .call (.GetKV (Target.key n .metadata)) (Call.withMetadata md5 n ⟨.update raw, ctx⟩) := by
  unfold Call.program UpdateElement
  rw [n.genElementKey]
  refine get_ext (fun _ => rfl) fun val => ?_
  cases val with
  | element ele => rfl
  | operation op => rfl
  | metadata md =>
    change Program.bind (ite (md.UnpublishedVersion ≠ 0) _ _) _ = _
    dsimp only [Call.withMetadata, Call.afterMetadata, updatePlan]
    split
    · rfl
    · unfold WithVersion
      split
      · rfl
      · refine set_ext (fun _ => rfl) ?_
        refine set_ext (fun _ => rfl) ?_
        exact set_ext (fun _ => rfl) rfl

theorem getElement_zero (key : String) :
    getElementWithoutMetadata key 0 =
      Program.done (.error (.error (.errorf "version could not be 0: "
        (.concept Err_INVALID_ARGUMENT)))) := rfl

theorem withVersion_of_ne_zero {key : String} {version : Nat} (h : version ≠ 0) :
    WithVersion key version = .ok (versionKey key version) := if_neg (by omega)

/-- What getElementWithoutMetadata makes of the answer of the service. -/
def elementOf : Except GoError Record → Except Fault Element
  | .error err => .error (.error err)
  | .ok (.element ele) => .ok ele
  | .ok _ => .error errUnmarshal

theorem getElement_of_ne_zero (key : String) {version : Nat} (h : version ≠ 0) :
    getElementWithoutMetadata key version =
      Program.call (.GetKV (versionKey key version)) fun r => .done (elementOf r) := by
  unfold getElementWithoutMetadata
  rw [if_neg h, withVersion_of_ne_zero h]
  exact get_ext (fun _ => rfl) fun val => by cases val <;> rfl

theorem rollback_program (version : UInt32) :
    Call.program md5 n.app n.env n.key ⟨.rollback version, ctx⟩ =
      .call (.GetKV (Target.key n .metadata)) (Call.withMetadata md5 n ⟨.rollback version, ctx⟩) := by
  unfold Call.program RollbackElementVersion
  rw [n.genElementKey]
  refine get_ext (fun _ => rfl) fun val => ?_
  cases val with
  | element ele => rfl
  | operation op => rfl
  | metadata md =>
    dsimp only [Call.withMetadata, Call.afterMetadata]
    change Program.bind (Program.bind
      (getElementWithoutMetadata n.elementKey version.toNat) _) _ = _
    by_cases hzero : version.toNat = 0
    · rw [if_pos hzero, hzero, getElement_zero]
      rfl
    · rw [if_neg hzero, getElement_of_ne_zero _ hzero]
      refine get_ext (fun _ => rfl) fun val => ?_
      cases val with
      | metadata md => rfl
      | operation op => rfl
      | element ele =>
        rw [Call.withElement, Call.afterElement, rollbackPlan]
        -- the comparison is decided first: unfolding would evaluate `int32`
        by_cases hle : md.UsingVersion ≤ int32 version.toNat
        · rw [if_pos hle]
          simp only [hle, if_true]
          rfl
        · rw [if_neg hle]
          simp only [hle, if_false]
          refine set_ext (fun _ => rfl) ?_
          exact set_ext (fun _ => rfl) rfl

theorem publish_program (version : UInt32) :
    Call.program md5 n.app n.env n.key ⟨.publish version, ctx⟩ =
      .call (.GetKV (Target.key n .metadata)) (Call.withMetadata md5 n ⟨.publish version, ctx⟩) := by
  unfold Call.program PublishElementVersion
  rw [n.genElementKey]
  refine get_ext (fun _ => rfl) fun val => ?_
  cases val with
  | element ele => rfl
  | operation op => rfl
  | metadata md =>
    dsimp only [Call.withMetadata, Call.afterMetadata]
    change ite (publishedVersion md version = 0) _ _ = _
    split
    · rfl
    · next hzero =>
      change Program.bind (getElementWithoutMetadata n.elementKey (publishedVersion md version)) _ = _
      rw [getElement_of_ne_zero _ hzero]
      refine get_ext (fun _ => rfl) fun val => ?_
      cases val with
      | metadata md => rfl
      | operation op => rfl
      | element ele =>
        refine set_ext (fun _ => rfl) ?_
        change (liftM (WithVersion _ _) >>= _ : KVCall (Option Element)) = _
        rw [withVersion_of_ne_zero hzero]
        refine set_ext (fun _ => rfl) ?_
        exact set_ext (fun _ => rfl) rfl

end Cassem.Coord
