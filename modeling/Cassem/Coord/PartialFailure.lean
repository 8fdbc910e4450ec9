import Cassem.Coord.MetadataInvariant

/-!
# A write that fails

One write of a call fails, the call returns the error, and the same call is made again. The
writes before the failed one stay. Which cuts leave the metadata right and let the second
call end where the first would have ended is said for each operation and each write.
-/

namespace Cassem.Coord

open Lib Cassem.Concept
open KV (Bytes int32)

/-! ## Calls that succeed -/

/-- Every write lands; the record of the operation is not looked at. -/
def Content.Accepts (k : Content) : List Write → Prop
  | [] => True
  | w :: ws => k.Lands w ∧ (k.put w).Accepts ws

theorem Content.accepts_of_ok {res r : Option Element} {ws : List Write} {es : ElementState}
    (h : (es.carryOut res ws).2 = .ok r) : es.content.Accepts ws := by
  induction ws generalizing es with
  | nil => trivial
  | cons w ws ih =>
    by_cases hland : es.Lands w
    · rw [es.carryOut_of_lands res hland] at h
      refine ⟨?_, es.content_put w ▸ ih h⟩
      by_cases hw : ∀ t, w.target ≠ .operation t
      · exact (es.content_lands hw).mpr hland
      · obtain ⟨t, ht⟩ := not_forall_not.mp hw
        exact .inr (by rw [ht]; rfl)
    · rw [es.carryOut_of_refused res hland] at h
      cases h

theorem ElementState.put_operation_of_ne {es : ElementState} {w : Write} {t : Int}
    (h : w.target ≠ .operation t) : es.put w (.operation t) = es (.operation t) :=
  Function.update_of_ne h.symm ..

theorem Content.ok_of_accepts (res : Option Element) {ws : List Write} (hlast : RecordedLast ws)
    {es : ElementState} (h : es.content.Accepts ws)
    (hfree : ∀ w ∈ ws, ∀ t, w.target = .operation t → es (.operation t) = none) :
    (es.carryOut res ws).2 = .ok res := by
  induction ws generalizing es with
  | nil => rfl
  | cons w ws ih =>
    have hland : es.Lands w := by
      by_cases hw : ∀ t, w.target ≠ .operation t
      · exact (es.content_lands hw).mp h.1
      · obtain ⟨t, ht⟩ := not_forall_not.mp hw
        refine .inr ?_
        rw [ht]
        exact hfree w List.mem_cons_self t ht
    rw [es.carryOut_of_lands res hland]
    cases ws with
    | nil => rfl
    | cons w' ws =>
      have hw : ∀ t, w.target ≠ .operation t := hlast w (by simp)
      refine ih (fun x hx => hlast x (List.mem_cons_of_mem _ hx)) (es.content_put w ▸ h.2)
        fun x hx t ht => ?_
      rw [ElementState.put_operation_of_ne (hw t)]
      exact hfree x (List.mem_cons_of_mem _ hx) t ht

section Using

variable (md5 : Bytes → String) (n : ElementName)

/-- The call makes all its writes, unless its operation was recorded before. -/
def Call.Accepted (c : Call) (k : Content) : Prop :=
  ∃ ws res, c.plan md5 n k = .ok (ws, res) ∧ k.Accepts ws

theorem plan_operation {c : Call} {k : Content} {ws : List Write} {res : Option Element}
    (h : c.plan md5 n k = .ok (ws, res)) {w : Write} (hw : w ∈ ws) {t : Int}
    (ht : w.target = .operation t) : t = c.ctx.operatedAt := by
  obtain ⟨op, ctx⟩ := c
  cases plan_eq_ok md5 n h with
  | create raw contentTyp h =>
    cases h
    simp only [List.mem_cons, List.not_mem_nil, or_false] at hw
    rcases hw with rfl | rfl | rfl <;> cases ht
    rfl
  | update hmd h =>
    cases (updatePlan_eq_ok n h).2.2
    simp only [List.mem_cons, List.not_mem_nil, or_false] at hw
    rcases hw with rfl | rfl | rfl <;> cases ht
    rfl
  | idle hmd hversion => cases hw
  | publish hmd hversion hele h =>
    cases h
    simp only [List.mem_cons, List.not_mem_nil, or_false] at hw
    rcases hw with rfl | rfl | rfl <;> cases ht
    rfl
  | rollback hmd hversion hele h =>
    cases (rollbackPlan_eq_ok md5 n h).2
    simp only [List.mem_cons, List.not_mem_nil, or_false] at hw
    rcases hw with rfl | rfl <;> cases ht
    rfl

theorem accepted_of_ok {kv : KVState} {c : Call} {res : Option Element}
    (h : (Program.run serveKV kv (c.program md5 n.app n.env n.key)).2 = .ok res) :
    c.Accepted md5 n (stored n kv) := by
  have hseen : (Program.run serveKV kv (c.program md5 n.app n.env n.key)).2 =
      ((c.plan md5 n (stored n kv)).outcome (view n kv)).2 :=
    congrArg Prod.snd (seen_program n kv md5 c)
  rw [hseen] at h
  cases hplan : c.plan md5 n (stored n kv) with
  | error fault =>
    rw [hplan] at h
    cases h
  | ok p =>
    rw [hplan] at h
    exact ⟨p.1, p.2, hplan, Content.accepts_of_ok h⟩

/-- A call succeeds when all its writes land and its operation is not on record yet. -/
theorem run_ok_iff {kv : KVState} {c : Call}
    (hfree : view n kv (.operation c.ctx.operatedAt) = none) :
    (∃ res, (Program.run serveKV kv (c.program md5 n.app n.env n.key)).2 = .ok res) ↔
      c.Accepted md5 n (stored n kv) := by
  have hseen : (Program.run serveKV kv (c.program md5 n.app n.env n.key)).2 =
      ((c.plan md5 n (stored n kv)).outcome (view n kv)).2 :=
    congrArg Prod.snd (seen_program n kv md5 c)
  refine ⟨fun ⟨res, h⟩ => accepted_of_ok md5 n h, fun ⟨ws, res, hplan, hacc⟩ => ?_⟩
  · rw [hseen, hplan]
    refine ⟨res, Content.ok_of_accepts res (plan_recordedLast md5 n hplan) hacc fun w hw t ht => ?_⟩
    rw [plan_operation md5 n hplan hw ht]
    exact hfree

/-! ## The failure -/

def failing (err : GoError) : (q : KVReq) → q.Resp
  | .GetKV _ => .error err
  | .SetKV _ _ _ => .error err

/-- What the service holds after the call, its `j`-th write failing with `err`. -/
def afterFailure (err : GoError) (j : Nat) (kv : KVState) (c : Call) : KVState :=
  (Program.runRefusing serveKV isWrite (failing err) j kv (c.program md5 n.app n.env n.key)).1

theorem view_runRefusing (err : GoError) (res : Option Element) (ws : List Write) (kv : KVState)
    {j : Nat} (h1 : 1 ≤ j) (hj : j ≤ ws.length) :
    view n (Program.runRefusing serveKV isWrite (failing err) j kv (writeSeq n res ws)).1 =
      ((view n kv).carryOut res (ws.take (j - 1))).1 := by
  induction ws generalizing kv j with
  | nil => simp at hj; omega
  | cons w ws ih =>
    rw [writeSeq, Program.runRefusing, if_pos (isWrite_set ..)]
    by_cases hone : j = 1
    · rw [if_pos hone, hone]
      rfl
    · obtain ⟨i, rfl⟩ : ∃ i, j = i + 2 := ⟨j - 2, by omega⟩
      rw [if_neg hone, serveKV_set, show i + 2 - 1 = i + 1 by omega, List.take_succ_cons]
      by_cases hland : (view n kv).Lands w
      · rw [ElementState.carryOut_of_lands _ res hland, if_pos hland, ElementState.put,
          ← view_update]
        exact ih _ (by omega) (by simpa using hj)
      · rw [ElementState.carryOut_of_refused _ res hland, if_neg hland]
        rfl

theorem writes_writeSeq (res : Option Element) (ws : List Write) (kv : KVState) :
    Program.writes serveKV isWrite kv (writeSeq n res ws) ≤ ws.length := by
  induction ws generalizing kv with
  | nil => exact le_refl 0
  | cons w ws ih =>
    rw [writeSeq, Program.writes, if_pos (isWrite_set ..), serveKV_set, List.length_cons]
    split
    · rw [Nat.add_comm]
      exact Nat.succ_le_succ (ih _)
    · exact Nat.le_add_left ..

section

variable {md5 n} {kv : KVState} {c : Call} {ws : List Write} {res : Option Element}
  (hplan : c.plan md5 n (stored n kv) = .ok (ws, res))
include hplan

theorem length_of_writes {j : Nat}
    (hj : j ≤ Program.writes serveKV isWrite kv (c.program md5 n.app n.env n.key)) :
    j ≤ ws.length := by
  rw [← Program.writes_afterReads serveKV_read, afterReads_program, ← stored, hplan] at hj
  exact hj.trans (writes_writeSeq n res ws kv)

variable {j : Nat} (h1 : 1 ≤ j) (hj : j ≤ ws.length) (err : GoError)
include h1 hj

theorem view_afterFailure : view n (afterFailure md5 n err j kv c) =
    ((view n kv).carryOut res (ws.take (j - 1))).1 := by
  rw [afterFailure, ← Program.runRefusing_afterReads serveKV_read, afterReads_program, ← stored,
    hplan]
  exact view_runRefusing n err res ws kv h1 hj

/-- The writes before the failed one, none of them the record of the operation. -/
theorem take_not_operation {w : Write} (hw : w ∈ ws.take (j - 1)) (t : Int) :
    w.target ≠ .operation t := by
  refine plan_recordedLast md5 n hplan w ?_ t
  rw [List.dropLast_eq_take]
  exact List.take_subset_take_left _ (by omega) hw

theorem stored_afterFailure : stored n (afterFailure md5 n err j kv c) =
    (stored n kv).carryOut (ws.take (j - 1)) := by
  rw [stored, view_afterFailure hplan h1 hj err]
  refine content_carryOut res (fun w hw => ?_) _
  exact take_not_operation hplan h1 hj (List.dropLast_subset _ hw)

theorem operation_afterFailure (t : Int) :
    view n (afterFailure md5 n err j kv c) (.operation t) = view n kv (.operation t) := by
  rw [view_afterFailure hplan h1 hj err]
  have hkeep : ∀ (ws' : List Write) (es : ElementState),
      (∀ w ∈ ws', w.target ≠ .operation t) →
        (es.carryOut res ws').1 (.operation t) = es (.operation t) := by
    intro ws' es hnot
    induction ws' generalizing es with
    | nil => rfl
    | cons w ws' ih =>
      by_cases hland : es.Lands w
      · rw [es.carryOut_of_lands res hland, ih _ fun x hx => hnot x (List.mem_cons_of_mem _ hx),
          ElementState.put_operation_of_ne (hnot w List.mem_cons_self)]
      · rw [es.carryOut_of_refused res hland]
  exact hkeep _ _ fun w hw => take_not_operation hplan h1 hj hw t

end

end Using

/-! ## Recovery -/

/-- The metadata names no version that is absent, and the one in use is published. -/
def Referenced (k : Content) : Prop :=
  ∀ md, k.metadata = some (.metadata md) →
    (∀ v ∈ [md.LatestVersion, md.UnpublishedVersion, md.UsingVersion], v ≠ 0 →
      ∃ ele, k.versions v = some (.element ele)) ∧
    (md.UsingVersion ≠ 0 → ∃ ele, k.versions md.UsingVersion = some (.element ele) ∧
      ele.Published = true)

/-- After the failure that left `kv'` the metadata is right, and making the call again
succeeds and ends where the call would have ended on `kv` without the failure. -/
def Recovers (md5 : Bytes → String) (n : ElementName) (kv kv' : KVState) (c again : Call) : Prop :=
  Referenced (stored n kv') ∧
  (∃ res, (Program.run serveKV kv' (again.program md5 n.app n.env n.key)).2 = .ok res) ∧
  stored n (Program.run serveKV kv' (again.program md5 n.app n.env n.key)).1 =
    stored n (Program.run serveKV kv (c.program md5 n.app n.env n.key)).1

/-- The version that a publish puts in use is published already. -/
def TargetPublished (k : Content) (version : UInt32) : Prop :=
  ∃ md ele, k.metadata = some (.metadata md) ∧
    k.versions (publishedVersion md version) = some (.element ele) ∧ ele.Published = true

/-- The failures that the operation recovers from. -/
def RecoverableAt (k : Content) (op : Op) (j : Nat) : Prop :=
  match op with
  | .create _ _ => j = 1
  | .update _ => j = 1 ∧ UsesPublished k
  | .publish version =>
      j = 1 ∧ UsesPublished k ∨ j = 2 ∧ TargetPublished k version ∨ j = 3
  | .rollback _ => False

variable {md5 : Bytes → String} {n : ElementName} {k : Content} {md : ElementMetadata}

theorem referenced_iff (h : WellFormed md5 k) : Referenced k ↔ UsesPublished k := by
  constructor
  · intro href md ele hmd hele
    obtain ⟨hpos, -, -⟩ := (h.numbered hmd).at_version hele
    obtain ⟨ele', hele', hpub⟩ := (href md hmd).2 (by omega)
    cases hele'.symm.trans hele
    exact hpub
  · intro huses md hmd
    have hnum := h.numbered hmd
    have hlow := hnum.latest_pos
    have hnonneg := hnum.using_nonneg
    have hle := hnum.using_le
    have hun := hnum.unpublished
    refine ⟨fun v hv hne => ?_, fun hne => ?_⟩
    · have hin : 1 ≤ v ∧ v ≤ md.LatestVersion := by
        simp only [List.mem_cons, List.not_mem_nil, or_false] at hv
        omega
      obtain ⟨ele, hele, -⟩ := hnum.stored v hin.1 hin.2
      exact ⟨ele, hele⟩
    · obtain ⟨ele, hele, -⟩ := hnum.stored md.UsingVersion (by omega) hle
      exact ⟨ele, hele, huses md ele hmd hele⟩

theorem recovers_iff_content {kv kv' : KVState} {c again : Call}
    (hfree : view n kv' (.operation again.ctx.operatedAt) = none) :
    Recovers md5 n kv kv' c again ↔
      Referenced (stored n kv') ∧ again.Accepted md5 n (stored n kv') ∧
        again.effect md5 n (stored n kv') = c.effect md5 n (stored n kv) := by
  rw [Recovers, run_ok_iff md5 n hfree, stored_run, stored_run]

section Calls

variable {ctx : Ctx}

theorem accepted_create {raw : Bytes} {contentTyp : Int} :
    Call.Accepted md5 n ⟨.create raw contentTyp, ctx⟩ k ↔
      k.metadata = none ∧ k.versions 1 = none := by
  constructor
  · rintro ⟨ws, res, hplan, hacc⟩
    cases hplan
    obtain ⟨hmd, hver, -⟩ := hacc
    simp only [Content.Lands, Content.look, Content.put, Bool.false_eq_true, false_or] at hmd hver
    exact ⟨hmd, hver⟩
  · rintro ⟨hmd, hver⟩
    exact ⟨_, _, rfl, .inr hmd, .inr hver, .inr rfl, trivial⟩

theorem effect_create {raw : Bytes} {contentTyp : Int} (hmd : k.metadata = none)
    (hver : k.versions 1 = none) : Call.effect md5 n ⟨.create raw contentTyp, ctx⟩ k =
      ⟨some (.metadata (created n contentTyp)), Function.update k.versions 1
        (some (.element { Raw := raw, Version := 1, Published := false }))⟩ := by
  simp [Call.effect, Call.plan, createPlan, Content.carryOut, Content.Lands, Content.put,
    Content.look, operationWrite, hmd, hver, created]

theorem accepted_update {raw : Bytes} (hmd : k.metadata = some (.metadata md)) :
    Call.Accepted md5 n ⟨.update raw, ctx⟩ k ↔ md.UnpublishedVersion = 0 ∧
      1 ≤ int32 (md.LatestVersion + 1) ∧ k.versions (int32 (md.LatestVersion + 1)) = none := by
  unfold Call.Accepted
  rw [plan_update md5 n hmd]
  constructor
  · rintro ⟨ws, res, hplan, hacc⟩
    obtain ⟨hun, hpos, hp⟩ := updatePlan_eq_ok n hplan
    cases hp
    obtain ⟨hver, -⟩ := hacc
    simp only [Content.Lands, Content.look, Bool.false_eq_true, false_or] at hver
    exact ⟨hun, hpos, hver⟩
  · rintro ⟨hun, hpos, hver⟩
    refine ⟨_, _, (if_neg (not_not.mpr hun)).trans (if_neg (by omega)), .inr hver, .inl rfl,
      .inr rfl, trivial⟩

theorem effect_update {raw : Bytes} (hmd : k.metadata = some (.metadata md))
    (hun : md.UnpublishedVersion = 0) (hpos : 1 ≤ int32 (md.LatestVersion + 1))
    (hver : k.versions (int32 (md.LatestVersion + 1)) = none) :
    Call.effect md5 n ⟨.update raw, ctx⟩ k =
      ⟨some (.metadata (updated md)), Function.update k.versions (int32 (md.LatestVersion + 1))
        (some (.element
          { Raw := raw, Version := int32 (md.LatestVersion + 1), Published := false }))⟩ := by
  have hplan : updatePlan n ctx raw md = _ :=
    (if_neg (not_not.mpr hun)).trans (if_neg (by omega))
  rw [Call.effect, plan_update md5 n hmd, hplan]
  simp [Content.carryOut, Content.Lands, Content.put, Content.look, operationWrite, hver, updated]

theorem accepted_publish {version : UInt32} {ele : Element} (hmd : k.metadata = some (.metadata md))
    (hversion : publishedVersion md version ≠ 0)
    (hele : k.versions (publishedVersion md version) = some (.element ele)) :
    Call.Accepted md5 n ⟨.publish version, ctx⟩ k :=
  ⟨_, _, plan_publish md5 n hmd ctx hversion hele, .inl rfl, .inl rfl, .inr rfl, trivial⟩

theorem effect_publish {version : UInt32} {ele : Element} (hmd : k.metadata = some (.metadata md))
    (hversion : publishedVersion md version ≠ 0)
    (hele : k.versions (publishedVersion md version) = some (.element ele)) :
    Call.effect md5 n ⟨.publish version, ctx⟩ k =
      ⟨some (.metadata (published md5 md ele)), Function.update k.versions
        (publishedVersion md version) (some (.element { ele with Published := true }))⟩ := by
  rw [Call.effect, plan_publish md5 n hmd ctx hversion hele]
  simp [publishPlan, Content.carryOut, Content.Lands, Content.put, Content.look, operationWrite]

theorem accepted_idle {version : UInt32} (hmd : k.metadata = some (.metadata md))
    (hversion : publishedVersion md version = 0) :
    Call.Accepted md5 n ⟨.publish version, ctx⟩ k :=
  ⟨_, _, plan_idle md5 n hmd ctx hversion, trivial⟩

theorem effect_idle {version : UInt32} (hmd : k.metadata = some (.metadata md))
    (hversion : publishedVersion md version = 0) :
    Call.effect md5 n ⟨.publish version, ctx⟩ k = k := by
  rw [Call.effect, plan_idle md5 n hmd ctx hversion]
  rfl

end Calls

/-- `Recovers` on metadata and versions alone. -/
def RecoversContent (md5 : Bytes → String) (n : ElementName) (k k' : Content) (c again : Call) :
    Prop :=
  Referenced k' ∧ again.Accepted md5 n k' ∧ again.effect md5 n k' = c.effect md5 n k

section Operations

variable {ctx ctx' : Ctx} {ws : List Write} {res : Option Element} {j : Nat}

theorem create_recovers_iff {raw : Bytes} {contentTyp : Int}
    (hplan : Call.plan md5 n ⟨.create raw contentTyp, ctx⟩ k = .ok (ws, res))
    (hacc : k.Accepts ws) (h1 : 1 ≤ j) (hj : j ≤ ws.length) :
    RecoversContent md5 n k (k.carryOut (ws.take (j - 1)))
      ⟨.create raw contentTyp, ctx⟩ ⟨.create raw contentTyp, ctx'⟩ ↔ j = 1 := by
  obtain ⟨hmd, hver⟩ := accepted_create.mp ⟨ws, res, hplan, hacc⟩
  cases hplan
  simp only [List.length_cons, List.length_nil] at hj
  obtain rfl | rfl | rfl : j = 1 ∨ j = 2 ∨ j = 3 := by omega
  · refine iff_of_true ⟨fun md h => ?_, accepted_create.mpr ⟨hmd, hver⟩, ?_⟩ rfl
    · rw [List.take_zero, Content.carryOut, hmd] at h
      cases h
    · rw [List.take_zero, Content.carryOut, effect_create hmd hver, effect_create hmd hver]
  · -- the metadata counts a version that is not there
    refine iff_of_false (fun h => ?_) (by decide)
    obtain ⟨ele, hele⟩ := (h.1 (created n contentTyp) (by
      simp [Content.carryOut, Content.Lands, Content.look, Content.put, hmd, created])).1 1
      (by simp [created]) (by decide)
    simp [Content.carryOut, Content.Lands, Content.look, Content.put, hmd, hver] at hele
  · -- the metadata is in the way
    refine iff_of_false (fun h => ?_) (by decide)
    have hnone := (accepted_create.mp h.2.1).1
    simp [Content.carryOut, Content.Lands, Content.look, Content.put, hmd, hver] at hnone

theorem update_recovers_iff {raw : Bytes} (hwf : WellFormed md5 k)
    (hplan : Call.plan md5 n ⟨.update raw, ctx⟩ k = .ok (ws, res))
    (hacc : k.Accepts ws) (h1 : 1 ≤ j) (hj : j ≤ ws.length) :
    RecoversContent md5 n k (k.carryOut (ws.take (j - 1)))
      ⟨.update raw, ctx⟩ ⟨.update raw, ctx'⟩ ↔ j = 1 ∧ UsesPublished k := by
  cases plan_eq_ok md5 n hplan with
  | @update raw md p hmd h =>
  obtain ⟨hun, hpos, hp⟩ := updatePlan_eq_ok n h
  obtain ⟨-, -, hver⟩ := (accepted_update hmd).mp ⟨ws, res, hplan, hacc⟩
  have hws : ws = [_, _, _] := congrArg Prod.fst hp
  rw [hws, List.length_cons, List.length_cons, List.length_cons, List.length_nil] at hj
  obtain rfl | rfl | rfl : j = 1 ∨ j = 2 ∨ j = 3 := by omega
  · rw [List.take_zero, Content.carryOut, RecoversContent, referenced_iff hwf]
    refine ⟨fun h => ⟨rfl, h.1⟩, fun h => ⟨h.2, (accepted_update hmd).mpr ⟨hun, hpos, hver⟩, ?_⟩⟩
    rw [effect_update hmd hun hpos hver, effect_update hmd hun hpos hver]
  · -- the version that the first call stored is in the way
    refine iff_of_false (fun h => ?_) (fun h => absurd h.1 (by decide))
    have hmd' : (k.carryOut (ws.take (2 - 1))).metadata = some (.metadata md) := by
      simp [hws, Content.carryOut, Content.Lands, Content.look, Content.put, hver, hmd]
    have hnone := ((accepted_update hmd').mp h.2.1).2.2
    simp [hws, Content.carryOut, Content.Lands, Content.look, Content.put, hver] at hnone
  · -- the metadata has a version that waits to be published
    refine iff_of_false (fun h => ?_) (fun h => absurd h.1 (by decide))
    have hmd' : (k.carryOut (ws.take (3 - 1))).metadata = some (.metadata (updated md)) := by
      simp [hws, Content.carryOut, Content.Lands, Content.look, Content.put, hver, updated]
    have hzero : int32 (md.LatestVersion + 1) = 0 := ((accepted_update hmd').mp h.2.1).1
    omega

/-- Publishing again what is in use and published changes nothing. -/
theorem publish_again {version : UInt32} {ele : Element} {k' : Content}
    (hmd : k'.metadata = some (.metadata (published md5 md ele)))
    (hversion : publishedVersion md version ≠ 0)
    (hele : k'.versions (publishedVersion md version) = some (.element ele))
    (hpub : ele.Published = true) :
    Call.Accepted md5 n ⟨.publish version, ctx'⟩ k' ∧
      Call.effect md5 n ⟨.publish version, ctx'⟩ k' = k' := by
  by_cases hzero : version = 0
  · have hidle : publishedVersion (published md5 md ele) version = 0 := by
      rw [publishedVersion, if_neg (fun h => h.2 rfl), hzero]
      rfl
    exact ⟨accepted_idle hmd hidle, effect_idle hmd hidle⟩
  · have hsame : publishedVersion (published md5 md ele) version = publishedVersion md version := by
      rw [publishedVersion, publishedVersion, if_neg (fun h => hzero h.1), if_neg (fun h => hzero h.1)]
    rw [← hsame] at hversion hele
    refine ⟨accepted_publish hmd hversion hele, ?_⟩
    rw [effect_publish hmd hversion hele]
    refine Content.ext hmd.symm ?_
    have hele' : ({ ele with Published := true } : Element) = ele := by rw [← hpub]
    rw [hele']
    exact Function.update_eq_self_iff.mpr hele.symm

/-- All of a publish but its record, and the publish again. -/
theorem published_recovers {version : UInt32} {ele : Element} (hwf : WellFormed md5 k)
    (hmd : k.metadata = some (.metadata md)) (hversion : publishedVersion md version ≠ 0)
    (hele : k.versions (publishedVersion md version) = some (.element ele)) :
    RecoversContent md5 n k (Call.effect md5 n ⟨.publish version, ctx⟩ k)
      ⟨.publish version, ctx⟩ ⟨.publish version, ctx'⟩ := by
  have hwf' := wellFormed_effect hwf (effect_spec md5 n ⟨.publish version, ctx⟩ k)
  obtain ⟨-, -, hv⟩ := (hwf.numbered hmd).at_version hele
  have hmd' : (Call.effect md5 n ⟨.publish version, ctx⟩ k).metadata =
      some (.metadata (published md5 md { ele with Published := true })) := by
    rw [effect_publish hmd hversion hele]
    rfl
  have hele' : (Call.effect md5 n ⟨.publish version, ctx⟩ k).versions (publishedVersion md version) =
      some (.element { ele with Published := true }) := by
    rw [effect_publish hmd hversion hele]
    exact Function.update_self ..
  refine ⟨(referenced_iff hwf').mpr fun md₁ ele₁ hmd₁ hele₁ => ?_,
    publish_again hmd' hversion hele' rfl⟩
  cases hmd'.symm.trans hmd₁
  dsimp only [published] at hele₁
  rw [hv, hele'] at hele₁
  cases hele₁
  rfl

theorem publish_recovers_iff {version : UInt32} (hwf : WellFormed md5 k)
    (hplan : Call.plan md5 n ⟨.publish version, ctx⟩ k = .ok (ws, res))
    (h1 : 1 ≤ j) (hj : j ≤ ws.length) :
    RecoversContent md5 n k (k.carryOut (ws.take (j - 1)))
      ⟨.publish version, ctx⟩ ⟨.publish version, ctx'⟩ ↔
        j = 1 ∧ UsesPublished k ∨ j = 2 ∧ TargetPublished k version ∨ j = 3 := by
  cases plan_eq_ok md5 n hplan with
  | idle hmd hversion =>
    rw [List.length_nil] at hj
    omega
  | @publish version md ele p hmd hversion hele h =>
  have hws : ws = [_, _, _] := congrArg Prod.fst (Except.ok.inj h).symm
  rw [hws, List.length_cons, List.length_cons, List.length_cons, List.length_nil] at hj
  obtain ⟨hpos, -, hv⟩ := (hwf.numbered hmd).at_version hele
  have hall : RecoversContent md5 n k (Call.effect md5 n ⟨.publish version, ctx⟩ k)
      ⟨.publish version, ctx⟩ ⟨.publish version, ctx'⟩ := published_recovers hwf hmd hversion hele
  rw [effect_publish hmd hversion hele] at hall
  obtain rfl | rfl | rfl : j = 1 ∨ j = 2 ∨ j = 3 := by omega
  · rw [List.take_zero, Content.carryOut, RecoversContent, referenced_iff hwf]
    refine ⟨fun h => .inl ⟨rfl, h.1⟩, fun h => ?_⟩
    have huses : UsesPublished k := by
      rcases h with h | ⟨h, -⟩ | h
      · exact h.2
      · cases h
      · cases h
    refine ⟨huses, accepted_publish hmd hversion hele, ?_⟩
    rw [effect_publish hmd hversion hele, effect_publish hmd hversion hele]
  · have hcut : k.carryOut (ws.take (2 - 1)) =
        ⟨some (.metadata (published md5 md ele)), k.versions⟩ := by
      simp [hws, Content.carryOut, Content.Lands, Content.put]
    rw [hcut]
    constructor
    · intro h
      obtain ⟨ele', hele', hpub⟩ := (h.1 _ rfl).2 (by dsimp only [published]; omega)
      dsimp only [published] at hele'
      rw [hv] at hele'
      exact .inr (.inl ⟨rfl, md, ele', hmd, hele', hpub⟩)
    · intro h
      rcases h with ⟨h, -⟩ | ⟨-, md', ele', hmd', hele', hpub⟩ | h
      · cases h
      · cases hmd'.symm.trans hmd
        cases hele'.symm.trans hele
        -- the flag is set already, so that the cut leaves what the whole call leaves
        have hsame : Function.update k.versions (publishedVersion md version : Int)
            (some (.element { ele with Published := true })) = k.versions := by
          refine Function.update_eq_self_iff.mpr ?_
          rw [hele, ← hpub]
        rw [hsame] at hall
        exact hall
      · cases h
  · refine iff_of_true ?_ (.inr (.inr rfl))
    have hcut : k.carryOut (ws.take (3 - 1)) = ⟨some (.metadata (published md5 md ele)),
        Function.update k.versions (publishedVersion md version)
          (some (.element { ele with Published := true }))⟩ := by
      simp [hws, Content.carryOut, Content.Lands, Content.put]
    rw [hcut]
    exact hall

end Operations

/-! ## The cuts that are recovered from -/

/-- From any state that complete calls reach, a call that would succeed and whose `j`-th
write fails recovers if and only if the cut is one of `RecoverableAt`. -/
theorem recovers_iff_recoverableAt (md5 : Bytes → String) (n : ElementName) (kv₀ kv : KVState)
    (hmd : (stored n kv₀).metadata = none) (hver : ∀ v, (stored n kv₀).versions v = none)
    (calls : List Call) (hreach : Transition.run (afterCall md5 n) kv₀ calls = some kv)
    (op : Op) (hop : ∀ version, op ≠ .rollback version) (ctx ctx' : Ctx) (res : Option Element)
    (hok : (Program.run serveKV kv (Call.program md5 n.app n.env n.key ⟨op, ctx⟩)).2 = .ok res)
    (err : GoError) (j : Nat) (h1 : 1 ≤ j)
    (hj : j ≤ Program.writes serveKV isWrite kv (Call.program md5 n.app n.env n.key ⟨op, ctx⟩))
    (hfree : view n kv (.operation ctx'.operatedAt) = none) :
    Recovers md5 n kv (afterFailure md5 n err j kv ⟨op, ctx⟩) ⟨op, ctx⟩ ⟨op, ctx'⟩ ↔
      RecoverableAt (stored n kv) op j := by
  have hwf : WellFormed md5 (stored n kv) :=
    (Transition.eachState_of_eachStep (fun kv => WellFormed md5 (stored n kv))
      (P := fun _ _ _ => True) (fun _ _ _ h _ hs => wellFormed_afterCall h hs)
      (.absent hmd hver) (Transition.eachStep_true kv₀ calls)).of_run hreach
  obtain ⟨ws, res', hplan, hacc⟩ := accepted_of_ok md5 n hok
  have hj' := length_of_writes hplan hj
  rw [recovers_iff_content (by rw [operation_afterFailure hplan h1 hj']; exact hfree),
    stored_afterFailure hplan h1 hj']
  cases op with
  | create raw contentTyp => exact create_recovers_iff hplan hacc h1 hj'
  | update raw => exact update_recovers_iff hwf hplan hacc h1 hj'
  | publish version => exact publish_recovers_iff hwf hplan h1 hj'
  | rollback version => exact absurd rfl (hop version)

theorem lastCut_recovers_iff :
    Recovers (fun _ => "") ⟨"a", "e", "k", by decide⟩
        (Program.run serveKV (fun _ => none)
          (Call.program (fun _ => "") "a" "e" "k" ⟨.create [1] 1, none, 1⟩)).1
        (afterFailure (fun _ => "") ⟨"a", "e", "k", by decide⟩ (.text "unavailable") 3
          (Program.run serveKV (fun _ => none)
            (Call.program (fun _ => "") "a" "e" "k" ⟨.create [1] 1, none, 1⟩)).1
          ⟨.publish 1, none, 2⟩)
        ⟨.publish 1, none, 2⟩ ⟨.publish 1, none, 3⟩ ↔
      RecoverableAt (stored ⟨"a", "e", "k", by decide⟩ (Program.run serveKV (fun _ => none)
        (Call.program (fun _ => "") "a" "e" "k" ⟨.create [1] 1, none, 1⟩)).1) (.publish 1) 3 :=
  recovers_iff_recoverableAt _ _ (fun _ => none) _ rfl (fun _ => rfl)
    [⟨.create [1] 1, none, 1⟩] rfl _ (fun _ => by simp) _ _
    (some { Raw := [1], Version := 1, Published := true
            Metadata := some ⟨"k", "a", "e", 1, 0, 1, "", 1⟩ }) rfl _ _
    (by decide) (by decide) (by decide)

/-- The element is created without its first version, and cannot be created again. -/
theorem createCut_not_recovered :
    ¬ Recovers (fun _ => "") ⟨"a", "e", "k", by decide⟩ (fun _ => none)
      (afterFailure (fun _ => "") ⟨"a", "e", "k", by decide⟩ (.text "unavailable") 2
        (fun _ => none) ⟨.create [1] 1, none, 1⟩)
      ⟨.create [1] 1, none, 1⟩ ⟨.create [1] 1, none, 2⟩ := by
  intro h
  obtain ⟨ele, hele⟩ := (h.1 ⟨"k", "a", "e", 1, 1, 0, "", 1⟩ (by decide)).1 1 (by decide) (by decide)
  have hnone : (stored ⟨"a", "e", "k", by decide⟩ (afterFailure (fun _ => "")
      ⟨"a", "e", "k", by decide⟩ (.text "unavailable") 2 (fun _ => none)
      ⟨.create [1] 1, none, 1⟩)).versions 1 = none := by decide
  cases hele.symm.trans hnone

end Cassem.Coord
