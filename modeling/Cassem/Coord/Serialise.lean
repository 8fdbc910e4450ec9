import Cassem.Coord.PartialFailure

/-!
# Calls that overlap

Update, publish and rollback calls on one element take turns, read by read and write by
write. A call takes effect when it writes the metadata. As long as no metadata is written
over a version of it that the writer has not read, what is stored in the end is what the
calls that succeeded store one after the other, in the order of those writes.
-/

namespace Cassem.Coord

open Lib Cassem.Concept
open KV (Bytes int32)
open Program (Pool)

/-! ## Requests -/

def readsAt (key : String) : KVReq → Bool
  | .GetKV k => decide (k = key)
  | .SetKV _ _ _ => false

def writesAt (key : String) : KVReq → Bool
  | .GetKV _ => false
  | .SetKV k _ _ => decide (k = key)

abbrev CallPool := Pool KVState KVReq.Resp (Except Fault (Option Element))

/-- No other call has written the metadata since call `i` read it. -/
abbrev MetadataFresh (n : ElementName) (p : CallPool) (i : Nat) : Prop :=
  Pool.Fresh (readsAt (Target.key n .metadata)) (writesAt (Target.key n .metadata)) i p.trace

/-- The next request of call `i` writes the metadata. -/
abbrev WritesMetadata (n : ElementName) (p : CallPool) (i : Nat) : Prop :=
  Pool.AboutTo (writesAt (Target.key n .metadata)) p i

abbrev MetadataConflict (n : ElementName) (p : CallPool) : Prop :=
  Pool.Conflict (readsAt (Target.key n .metadata)) (writesAt (Target.key n .metadata)) p

/-- The calls before any of them has made a request. -/
def callPool (md5 : Bytes → String) (n : ElementName) (kv : KVState) (calls : List Call) :
    CallPool :=
  ⟨kv, calls.map fun c => c.program md5 n.app n.env n.key, []⟩

/-- A metadata write replaces what its call has read, and the record of an operation finds
no other under its time. -/
def Undisturbed (n : ElementName) (p : CallPool) (i : Nat) : Prop :=
  ∀ q next, p.threads[i]? = some (.call q next) →
    (writesAt (Target.key n .metadata) q = true →
      MetadataFresh n p i) ∧
    ∀ t val overwrite, q = .SetKV (Target.key n (.operation t)) val overwrite →
      view n p.state (.operation t) = none

section Keys

variable {n : ElementName}

theorem writesAt_metadata (w : Write) :
    writesAt (Target.key n .metadata) (.SetKV (w.target.key n) w.val w.overwrite) = true ↔
      w.target = .metadata := by
  rw [writesAt, decide_eq_true_iff]
  exact (Target.key_injective n).eq_iff

theorem readsAt_metadata (t : Target) :
    readsAt (Target.key n .metadata) (.GetKV (t.key n)) = true ↔ t = .metadata := by
  rw [readsAt, decide_eq_true_iff]
  exact (Target.key_injective n).eq_iff

theorem stored_update (kv : KVState) (w : Write) :
    stored n (Function.update kv (w.target.key n) (some w.val)) = (stored n kv).put w := by
  rw [stored, view_update, stored, ← ElementState.content_put]
  rfl

end Keys

/-! ## The serial run -/

variable (md5 : Bytes → String) (n : ElementName) (kv : KVState) (calls : List Call)

/-- What the calls named, one after the other, make of the element. -/
def serial (order : List Nat) : Content :=
  (order.filterMap (calls[·]?)).foldl (fun k c => c.effect md5 n k) (stored n kv)

theorem serial_snoc {i : Nat} {c : Call} (h : calls[i]? = some c) (order : List Nat) :
    serial md5 n kv calls (order ++ [i]) = c.effect md5 n (serial md5 n kv calls order) := by
  rw [serial, List.filterMap_append, List.filterMap_cons_some h, List.filterMap_nil,
    List.foldl_append]
  rfl

/-! ## How far a call has come -/

/-- A call of which the others have not seen anything (`lin` does not hold), or that has
taken effect. `G` is what the calls so far make of the element in their order, `K` what is
stored, and `fresh` says that the metadata has not been written since the call read it. -/
inductive Stage (G K : Content) (fresh lin : Prop) (c : Call) :
    Program KVReq.Resp (Except Fault (Option Element)) → Prop
  | start (hlin : ¬ lin) :
      Stage G K fresh lin c (.call (.GetKV (Target.key n .metadata)) (c.withMetadata md5 n))
  | reading (hlin : ¬ lin) {md : ElementMetadata} {version : Nat}
      (hnext : c.afterMetadata n md = .read version)
      (hfresh : fresh → G.metadata = some (.metadata md)) :
      Stage G K fresh lin c
        (.call (.GetKV (Target.key n (.version version))) (c.withElement md5 n md version))
  | updating (hlin : ¬ lin) {raw : Bytes} {md : ElementMetadata} {ws : List Write}
      {res : Option Element} (hop : c.op = .update raw)
      (hplan : updatePlan n c.ctx raw md = .ok (ws, res))
      (hfresh : fresh → G.metadata = some (.metadata md)) :
      Stage G K fresh lin c (writeSeq n res ws)
  | committingUpdate (hlin : ¬ lin) {raw : Bytes} {w : Write} {ws : List Write}
      {res : Option Element} (hop : c.op = .update raw)
      (hplan : c.plan md5 n G = .ok (w :: ws, res)) (hG : G.look w.target = none)
      (hK : K.look w.target = some w.val) : Stage G K fresh lin c (writeSeq n res ws)
  | committing (hlin : ¬ lin) {ws : List Write} {res : Option Element}
      (hop : ∀ raw, c.op ≠ .update raw) (hplan : c.plan md5 n G = .ok (ws, res))
      (hws : ws ≠ []) : Stage G K fresh lin c (writeSeq n res ws)
  | marking (hlin : lin) {v : Int} {ele : Element} {t : Int} {w : Write} {res : Option Element}
      (hw : w.target = .operation t) (hpub : ele.Published = true)
      (hG : G.versions v = some (.element ele)) :
      Stage G K fresh lin c (writeSeq n res [⟨.version v, .element ele, true⟩, w])
  | recording (hlin : lin) {t : Int} {w : Write} {res : Option Element}
      (hw : w.target = .operation t) : Stage G K fresh lin c (writeSeq n res [w])
  | succeeded (hlin : lin) (res : Option Element) : Stage G K fresh lin c (.done (.ok res))
  | failed (hlin : ¬ lin) (fault : Fault) : Stage G K fresh lin c (.done (.error fault))

/-- A call about to make the update of version `v` known. -/
def Announces (p : CallPool) (G : Content) (v : Int) : Prop :=
  ∃ (i : Nat) (c : Call) (raw : Bytes) (md : ElementMetadata), calls[i]? = some c ∧ c.op = .update raw ∧ G.metadata = some (.metadata md) ∧
    v = int32 (md.LatestVersion + 1) ∧ WritesMetadata n p i

/-- A call about to mark version `v` published. -/
def Marks (p : CallPool) (v : Int) (ele : Element) : Prop :=
  ∃ (i : Nat) (res : Option Element) (ws : List Write), p.threads[i]? = some (writeSeq n res (⟨.version v, .element ele, true⟩ :: ws))

/-- A version is stored as the serial run has it, but for what is under way. -/
inductive Agrees (p : CallPool) (G : Content) (v : Int) : Prop
  | same (h : (stored n p.state).versions v = G.versions v)
  | marking (ele : Element) (hK : (stored n p.state).versions v = some (.element ele))
      (hG : G.versions v = some (.element { ele with Published := true }))
      (h : Marks n p v { ele with Published := true })
  | announcing (hG : G.versions v = none) (h : Announces n calls p G v)

/-- The pool serves the calls of `order` as the serial run does. -/
structure Serves (p : CallPool) (order : List Nat) : Prop where
  nodup : order.Nodup
  lt_length : ∀ i ∈ order, i < calls.length
  stage : ∀ i c, calls[i]? = some c → ∃ t, p.threads[i]? = some t ∧
    Stage md5 n (serial md5 n kv calls order) (stored n p.state) (MetadataFresh n p i) (i ∈ order) c t
  length_eq : p.threads.length = calls.length
  metadata : (stored n p.state).metadata = (serial md5 n kv calls order).metadata
  versions : ∀ v, Agrees n calls p (serial md5 n kv calls order) v

variable {md5 n kv calls} {p p' : CallPool} {order order' : List Nat} {i : Nat} {c : Call}
  {G G' K K' : Content} {fresh fresh' lin : Prop}
  {t : Program KVReq.Resp (Except Fault (Option Element))}

/-- The requests of other calls that leave the metadata alone do not disturb a call. -/
theorem Stage.keep (h : Stage md5 n G K fresh lin c t) (hfresh : fresh' → fresh)
    (hkeep : ∀ t val, G.look t = none → K.look t = some val → K'.look t = some val) :
    Stage md5 n G K' fresh' lin c t := by
  cases h with
  | start hlin => exact .start hlin
  | reading hlin hnext hf => exact .reading hlin hnext fun h => hf (hfresh h)
  | updating hlin hop hplan hf => exact .updating hlin hop hplan fun h => hf (hfresh h)
  | committingUpdate hlin hop hplan hG hK =>
    exact .committingUpdate hlin hop hplan hG (hkeep _ _ hG hK)
  | committing hlin hop hplan hws => exact .committing hlin hop hplan hws
  | marking hlin hw hpub hG => exact .marking hlin hw hpub hG
  | recording hlin hw => exact .recording hlin hw
  | succeeded hlin res => exact .succeeded hlin res
  | failed hlin fault => exact .failed hlin fault

/-- A call that is about to write the metadata. -/
def Commits (n : ElementName) (t : Program KVReq.Resp (Except Fault (Option Element))) : Prop :=
  ∃ (w : Write) (ws : List Write) (res : Option Element), w.target = .metadata ∧
    t = writeSeq n res (w :: ws)

theorem Commits.aboutTo (h : Commits n t) (hget : p.threads[i]? = some t) :
    WritesMetadata n p i := by
  obtain ⟨w, ws, res, hw, rfl⟩ := h
  exact ⟨_, _, hget, (writesAt_metadata w).mpr hw⟩

theorem commits_of_update {raw : Bytes} {w : Write} {ws : List Write} {res : Option Element}
    (hop : c.op = .update raw) (hplan : c.plan md5 n G = .ok (w :: ws, res)) :
    Commits n (writeSeq n res ws) := by
  obtain ⟨op, ctx⟩ := c
  cases hop
  cases plan_eq_ok md5 n hplan with
  | update hmd h =>
    cases (updatePlan_eq_ok n h).2.2
    exact ⟨_, _, _, rfl, rfl⟩

theorem commits_of_plan {ws : List Write} {res : Option Element} (hop : ∀ raw, c.op ≠ .update raw)
    (hplan : c.plan md5 n G = .ok (ws, res)) (hws : ws ≠ []) : Commits n (writeSeq n res ws) := by
  obtain ⟨op, ctx⟩ := c
  cases plan_eq_ok md5 n hplan with
  | create raw contentTyp h =>
    cases h
    exact ⟨_, _, _, rfl, rfl⟩
  | update hmd h => exact absurd rfl (hop _)
  | idle hmd hversion => exact absurd rfl hws
  | publish hmd hversion hele h =>
    cases h
    exact ⟨_, _, _, rfl, rfl⟩
  | rollback hmd hversion hele h =>
    cases (rollbackPlan_eq_ok md5 n h).2
    exact ⟨_, _, _, rfl, rfl⟩

/-- A write of the metadata leaves every other call, none of them about to write it, where
it was: none is fresh any more. -/
theorem Stage.overtaken (h : Stage md5 n G K fresh lin c t) (hfresh : ¬ fresh')
    (hnot : ¬ Commits n t)
    (hG : ∀ v ele, G.versions v = some (.element ele) → ele.Published = true →
      G'.versions v = some (.element ele)) : Stage md5 n G' K' fresh' lin c t := by
  cases h with
  | start hlin => exact .start hlin
  | reading hlin hnext hf => exact .reading hlin hnext fun h => absurd h hfresh
  | updating hlin hop hplan hf => exact .updating hlin hop hplan fun h => absurd h hfresh
  | committingUpdate hlin hop hplan hG' hK => exact absurd (commits_of_update hop hplan) hnot
  | committing hlin hop hplan hws => exact absurd (commits_of_plan hop hplan hws) hnot
  | marking hlin hw hpub hele => exact .marking hlin hw hpub (hG _ _ hele hpub)
  | recording hlin hw => exact .recording hlin hw
  | succeeded hlin res => exact .succeeded hlin res
  | failed hlin fault => exact .failed hlin fault

/-- What is to be shown of a step: the call that takes it, the others, and the store. -/
theorem Serves.of_step (hs : Serves md5 n kv calls p order)
    (h : p.step serveKV i = some p') (hc : calls[i]? = some c)
    (horder : order' = order ∨ order' = order ++ [i] ∧ i ∉ order)
    (hi : ∃ t, p'.threads[i]? = some t ∧ Stage md5 n (serial md5 n kv calls order')
      (stored n p'.state) (MetadataFresh n p' i) (i ∈ order') c t)
    (hothers : ∀ j c' t, j ≠ i → p.threads[j]? = some t → Stage md5 n (serial md5 n kv calls order)
        (stored n p.state) (MetadataFresh n p j) (j ∈ order) c' t →
      Stage md5 n (serial md5 n kv calls order') (stored n p'.state) (MetadataFresh n p' j)
        (j ∈ order) c' t)
    (hmd : (stored n p'.state).metadata = (serial md5 n kv calls order').metadata)
    (hvers : ∀ v, Agrees n calls p' (serial md5 n kv calls order') v) :
    Serves md5 n kv calls p' order' where
  nodup := by
    rcases horder with rfl | ⟨rfl, hnot⟩
    · exact hs.nodup
    · exact List.nodup_append.mpr ⟨hs.nodup, List.nodup_singleton i, by
        rintro j hj k hk rfl
        rw [List.mem_singleton.mp hk] at hj
        exact hnot hj⟩
  lt_length j hj := by
    rcases horder with rfl | ⟨rfl, -⟩
    · exact hs.lt_length j hj
    · rcases List.mem_append.mp hj with hj | hj
      · exact hs.lt_length j hj
      · rw [List.mem_singleton.mp hj]
        exact (List.getElem?_eq_some_iff.mp hc).1
  stage j c' hc' := by
    by_cases hji : j = i
    · subst hji
      cases hc.symm.trans hc'
      exact hi
    · obtain ⟨t, ht, hstage⟩ := hs.stage j c' hc'
      refine ⟨t, (Pool.threads_of_ne h (Ne.symm hji)).trans ht, ?_⟩
      have hmem : (j ∈ order') = (j ∈ order) := by
        rcases horder with rfl | ⟨rfl, -⟩
        · rfl
        · simp [hji]
      rw [hmem]
      exact hothers j c' t hji ht hstage
  length_eq := by
    obtain ⟨q, next, -, rfl⟩ := Pool.step_eq_some h
    rw [List.length_set]
    exact hs.length_eq
  metadata := hmd
  versions := hvers

/-! ## Steps that write no metadata -/

theorem Marks.step {v : Int} {ele : Element} (hm : Marks n p v ele)
    (h : p.step serveKV i = some p')
    (hi : ∀ res ws, p.threads[i]? ≠ some (writeSeq n res (⟨.version v, .element ele, true⟩ :: ws))) :
    Marks n p' v ele := by
  obtain ⟨j, res, ws, hget⟩ := hm
  have hij : i ≠ j := by
    rintro rfl
    exact hi res ws hget
  exact ⟨j, res, ws, (Pool.threads_of_ne h hij).trans hget⟩

theorem Announces.step {v : Int} (ha : Announces n calls p G v) (h : p.step serveKV i = some p')
    (hi : ¬ WritesMetadata n p i) : Announces n calls p' G v := by
  obtain ⟨j, c, raw, md, hc, hop, hmd, hv, habout⟩ := ha
  have hij : i ≠ j := by
    rintro rfl
    exact hi habout
  exact ⟨j, c, raw, md, hc, hop, hmd, hv, habout.of_ne h hij⟩

theorem Agrees.step {v : Int} (ha : Agrees n calls p G v) (h : p.step serveKV i = some p')
    (hK : (stored n p'.state).versions v = (stored n p.state).versions v)
    (hmark : ∀ ele res ws,
      p.threads[i]? ≠ some (writeSeq n res (⟨.version v, .element ele, true⟩ :: ws)))
    (hi : ¬ WritesMetadata n p i) : Agrees n calls p' G v := by
  cases ha with
  | same heq => exact .same (hK.trans heq)
  | marking ele hele hG hm => exact .marking ele (hK.trans hele) hG (hm.step h (hmark _))
  | announcing hG ha => exact .announcing hG (ha.step h hi)

/-- A step that changes nothing of the store: a read, or a write that is refused. -/
theorem Serves.quiet_step (hs : Serves md5 n kv calls p order) {q : KVReq}
    {next : q.Resp → Program KVReq.Resp (Except Fault (Option Element))}
    (hget : p.threads[i]? = some (.call q next)) (h : p.step serveKV i = some p')
    (hstate : (serveKV p.state q).1 = p.state) (hq : writesAt (Target.key n .metadata) q = false)
    (hmark : ∀ v val, q ≠ .SetKV (Target.key n (.version v)) val true)
    (hc : calls[i]? = some c) (horder : order' = order ∨ order' = order ++ [i] ∧ i ∉ order)
    (hserial : serial md5 n kv calls order' = serial md5 n kv calls order)
    (hi : Stage md5 n (serial md5 n kv calls order) (stored n p.state) (MetadataFresh n p' i)
      (i ∈ order') c (next (serveKV p.state q).2)) :
    Serves md5 n kv calls p' order' := by
  have hquiet : ¬ WritesMetadata n p i := by
    rintro ⟨q', next', hget', hq'⟩
    cases hget.symm.trans hget'
    rw [hq] at hq'
    cases hq'
  obtain ⟨hnew, hthread, htrace⟩ := Pool.step_self h hget
  have hsame : p'.state = p.state := hnew.trans hstate
  refine hs.of_step h hc horder ?_ (fun j c' t hji ht hstage => ?_) ?_ fun v => ?_
  · rw [hserial, hsame]
    exact ⟨_, hthread, hi⟩
  · rw [hserial, hsame]
    refine hstage.keep (fun hf => ?_) fun _ _ _ hval => hval
    rw [MetadataFresh, htrace] at hf
    exact (Pool.fresh_cons_of_ne (Ne.symm hji) hq).mp hf
  · rw [hserial, hsame]
    exact hs.metadata
  · rw [hserial]
    refine (hs.versions v).step h (by rw [hsame]) (fun ele res ws hm => ?_) hquiet
    cases hget.symm.trans hm
    exact hmark v (.element ele) rfl

theorem write_served {w : Write} {ws : List Write} {res : Option Element}
    (hget : p.threads[i]? = some (writeSeq n res (w :: ws))) (h : p.step serveKV i = some p')
    (hland : (view n p.state).Lands w) : stored n p'.state = (stored n p.state).put w ∧
      p'.threads[i]? = some (writeSeq n res ws) ∧
      p'.trace = (i, .SetKV (w.target.key n) w.val w.overwrite) :: p.trace := by
  have hserve : serveKV p.state (.SetKV (w.target.key n) w.val w.overwrite) =
      (Function.update p.state (w.target.key n) (some w.val), .ok ()) := by
    rw [serveKV_set, if_pos hland]
  obtain ⟨hstate, hthread, htrace⟩ := Pool.step_self h hget
  rw [hserve] at hstate hthread
  exact ⟨by rw [hstate, ← stored_update], hthread, htrace⟩

/-- A write that lands, of a version or the record of an operation. -/
theorem Serves.write_step (hs : Serves md5 n kv calls p order) {w : Write} {ws : List Write}
    {res : Option Element} (hget : p.threads[i]? = some (writeSeq n res (w :: ws)))
    (h : p.step serveKV i = some p') (hland : (view n p.state).Lands w)
    (hw : w.target ≠ .metadata) (hc : calls[i]? = some c)
    (hi : Stage md5 n (serial md5 n kv calls order) ((stored n p.state).put w)
      (MetadataFresh n p' i) (i ∈ order) c (writeSeq n res ws))
    (hkeep : ∀ t val, (serial md5 n kv calls order).look t = none →
      (stored n p.state).look t = some val → ((stored n p.state).put w).look t = some val)
    (hvers : ∀ v, Agrees n calls p' (serial md5 n kv calls order) v) :
    Serves md5 n kv calls p' order := by
  obtain ⟨hstored, hthread, htrace⟩ := write_served hget h hland
  have hq : writesAt (Target.key n .metadata) (.SetKV (w.target.key n) w.val w.overwrite) = false :=
    Bool.eq_false_iff.mpr (mt (writesAt_metadata w).mp hw)
  have hmd : ((stored n p.state).put w).metadata = (stored n p.state).metadata := by
    rw [Content.put]
    split
    · next ht => exact absurd ht hw
    · rfl
    · rfl
  refine hs.of_step h hc (.inl rfl) ?_ (fun j c' t hji ht hstage => ?_) ?_ hvers
  · rw [hstored]
    exact ⟨_, hthread, hi⟩
  · rw [hstored]
    refine hstage.keep (fun hf => ?_) hkeep
    rw [MetadataFresh, htrace] at hf
    exact (Pool.fresh_cons_of_ne (Ne.symm hji) hq).mp hf
  · rw [hstored, hmd]
    exact hs.metadata

/-! ## Reading the metadata -/

theorem stage_withMetadata (hc : ∀ raw contentTyp, c.op ≠ .create raw contentTyp) (hlin : ¬ lin) :
    Stage md5 n G K fresh lin c (c.withMetadata md5 n (Content.answer G.metadata)) ∨
      c.effect md5 n G = G ∧
        c.withMetadata md5 n (Content.answer G.metadata) = .done (.ok none) := by
  obtain ⟨op, ctx⟩ := c
  unfold Call.withMetadata
  cases hmd : G.metadata with
  | none => exact .inl (.failed hlin _)
  | some val =>
    cases val with
    | element ele => exact .inl (.failed hlin _)
    | operation op => exact .inl (.failed hlin _)
    | metadata md =>
      dsimp only [Content.answer]
      cases op with
      | create raw contentTyp => exact absurd rfl (hc raw contentTyp)
      | update raw =>
        refine .inl ?_
        change Stage md5 n G K fresh lin _ ((updatePlan n ctx raw md).program n)
        cases hplan : updatePlan n ctx raw md with
        | error fault => exact .failed hlin fault
        | ok p => exact .updating hlin rfl hplan fun _ => hmd
      | publish version =>
        dsimp only [Call.afterMetadata]
        by_cases hzero : publishedVersion md version = 0
        · rw [if_pos hzero]
          exact .inr ⟨effect_idle hmd hzero, rfl⟩
        · rw [if_neg hzero]
          exact .inl (.reading hlin (if_neg hzero) fun _ => hmd)
      | rollback version =>
        refine .inl ?_
        dsimp only [Call.afterMetadata]
        by_cases hzero : version.toNat = 0
        · rw [if_pos hzero]
          exact .failed hlin _
        · rw [if_neg hzero]
          exact .reading hlin (if_neg hzero) fun _ => hmd

/-! ## Reading a version -/

theorem afterElement_congr {md : ElementMetadata} {version : Nat} {ele ele' : Element}
    (h : ({ ele with Published := true } : Element) = { ele' with Published := true }) :
    c.afterElement md5 n md version ele = c.afterElement md5 n md version ele' := by
  obtain ⟨raw, v, published, metadata⟩ := ele
  obtain ⟨raw', v', published', metadata'⟩ := ele'
  cases h
  rfl

theorem plan_of_read {md : ElementMetadata} {version : Nat} {ele : Element}
    (hnext : c.afterMetadata n md = .read version) (hmd : G.metadata = some (.metadata md))
    (hele : G.versions version = some (.element ele)) :
    c.plan md5 n G = c.afterElement md5 n md version ele ∧ ∀ raw, c.op ≠ .update raw := by
  obtain ⟨op, ctx⟩ := c
  cases op with
  | create raw contentTyp => cases hnext
  | update raw => cases hnext
  | publish v =>
    dsimp only [Call.afterMetadata] at hnext
    split at hnext
    · cases hnext
    · next hne =>
      cases hnext
      exact ⟨plan_publish md5 n hmd ctx hne hele, by simp⟩
  | rollback v =>
    dsimp only [Call.afterMetadata] at hnext
    split at hnext
    · cases hnext
    · next hne =>
      cases hnext
      refine ⟨(plan_rollback md5 n hmd ctx hne hele).trans ?_, by simp⟩
      simp only [Call.afterElement]

theorem plan_of_update {raw : Bytes} {md : ElementMetadata} (hop : c.op = .update raw)
    (hmd : G.metadata = some (.metadata md)) : c.plan md5 n G = updatePlan n c.ctx raw md := by
  obtain ⟨op, ctx⟩ := c
  cases hop
  exact plan_update md5 n hmd ctx raw

theorem afterElement_ne_nil {md : ElementMetadata} {version : Nat} {ele : Element}
    {ws : List Write} {res : Option Element}
    (h : c.afterElement md5 n md version ele = .ok (ws, res)) :
    ∃ w ws', w.target = .metadata ∧ ws = w :: ws' := by
  unfold Call.afterElement at h
  split at h
  · cases (rollbackPlan_eq_ok md5 n h).2
    exact ⟨_, _, rfl, rfl⟩
  · cases h
    exact ⟨_, _, rfl, rfl⟩

variable (md5 n c) in
/-- A call that has read a version fails, or is about to write the metadata. -/
theorem withElement_cases (md : ElementMetadata) (version : Nat) (val : Option Record) :
    (∃ fault, c.withElement md5 n md version (Content.answer val) = .done (.error fault)) ∨
      ∃ ele ws res, val = some (.element ele) ∧ ws ≠ [] ∧
        c.afterElement md5 n md version ele = .ok (ws, res) ∧
        c.withElement md5 n md version (Content.answer val) = writeSeq n res ws ∧
        Commits n (writeSeq n res ws) := by
  cases val with
  | none => exact .inl ⟨_, rfl⟩
  | some val =>
    cases val with
    | metadata md => exact .inl ⟨_, rfl⟩
    | operation op => exact .inl ⟨_, rfl⟩
    | element ele =>
      cases hplan : c.afterElement md5 n md version ele with
      | error fault =>
        refine .inl ⟨fault, ?_⟩
        rw [Content.answer_some, Call.withElement, hplan]
        rfl
      | ok p =>
        obtain ⟨w, ws', hw, hws⟩ := afterElement_ne_nil hplan
        refine .inr ⟨ele, p.1, p.2, rfl, by simp [hws], hplan, ?_, ⟨w, ws', p.2, hw, by rw [hws]⟩⟩
        rw [Content.answer_some, Call.withElement, hplan]
        rfl

/-- The version read is the one of the serial run, but for the flag. -/
theorem stage_withElement {md : ElementMetadata} {version : Nat} {ele ele' : Element}
    {ws : List Write} {res : Option Element} (hlin : ¬ lin)
    (hnext : c.afterMetadata n md = .read version) (hmd : G.metadata = some (.metadata md))
    (hele' : G.versions version = some (.element ele'))
    (hsame : ({ ele with Published := true } : Element) = { ele' with Published := true })
    (hplan : c.afterElement md5 n md version ele = .ok (ws, res)) (hws : ws ≠ []) :
    Stage md5 n G K fresh lin c (writeSeq n res ws) := by
  obtain ⟨hG, hop⟩ : c.plan md5 n G = _ ∧ _ := plan_of_read hnext hmd hele'
  refine .committing hlin hop ?_ hws
  rw [hG, ← afterElement_congr hsame, hplan]

/-! ## One step for each stage -/

section Steps

variable (hs : Serves md5 n kv calls p order) (h : p.step serveKV i = some p')
  (hc : calls[i]? = some c)
include hs h hc

theorem Serves.step_start (hcreate : ∀ raw contentTyp, c.op ≠ .create raw contentTyp)
    (hlin : i ∉ order)
    (hget : p.threads[i]? =
      some (.call (.GetKV (Target.key n .metadata)) (c.withMetadata md5 n))) :
    ∃ order', Serves md5 n kv calls p' order' := by
  have hans : (serveKV p.state (.GetKV (Target.key n .metadata))).2 =
      Content.answer (serial md5 n kv calls order).metadata := by
    rw [serveKV_get, ← hs.metadata]
    rfl
  have hstage : Stage md5 n (serial md5 n kv calls order) (stored n p.state) (MetadataFresh n p' i)
      (i ∈ order) c _ ∨ _ := stage_withMetadata hcreate hlin
  rcases hstage with hstage | ⟨heff, hdone⟩
  · exact ⟨order, hs.quiet_step hget h rfl rfl (by simp) hc (.inl rfl) rfl (hans ▸ hstage)⟩
  · refine ⟨order ++ [i], hs.quiet_step hget h rfl rfl (by simp) hc (.inr ⟨rfl, hlin⟩)
      ((serial_snoc md5 n kv calls hc order).trans heff) ?_⟩
    rw [hans, hdone]
    exact .succeeded (by simp) none

theorem Serves.step_reading {md : ElementMetadata} {version : Nat} (hlin : i ∉ order)
    (hnext : c.afterMetadata n md = .read version)
    (hfresh : MetadataFresh n p i → (serial md5 n kv calls order).metadata = some (.metadata md))
    (hget : p.threads[i]? = some
      (.call (.GetKV (Target.key n (.version version))) (c.withElement md5 n md version))) :
    MetadataConflict n p' ∨ ∃ order', Serves md5 n kv calls p' order' := by
  have hans : (serveKV p.state (.GetKV (Target.key n (.version version)))).2 =
      Content.answer ((stored n p.state).versions version) := rfl
  obtain ⟨-, hthread, htrace⟩ := Pool.step_self h hget
  rw [hans] at hthread
  have hfresh' : MetadataFresh n p' i ↔ MetadataFresh n p i := by
    rw [MetadataFresh, htrace, Pool.Fresh]
    have hread : readsAt (Target.key n .metadata) (.GetKV (Target.key n (.version version))) ≠ true :=
      fun h => by cases (readsAt_metadata _).mp h
    exact ⟨fun hf => hf.2.resolve_left fun hf => hread hf.2, fun hf => ⟨rfl, .inr hf⟩⟩
  obtain ⟨fault, hfault⟩ | ⟨ele, ws, res, hele, hws, hplan, heq, hcommits⟩ :=
    withElement_cases md5 n c md version ((stored n p.state).versions version)
  · refine .inr ⟨order, hs.quiet_step hget h rfl rfl (by simp) hc (.inl rfl) rfl ?_⟩
    rw [hans, hfault]
    exact .failed hlin fault
  · rw [heq] at hthread
    by_cases hf : MetadataFresh n p i
    · cases hs.versions version with
      | same hsame =>
        refine .inr ⟨order, hs.quiet_step hget h rfl rfl (by simp) hc (.inl rfl) rfl ?_⟩
        rw [hans, heq]
        exact stage_withElement hlin hnext (hfresh hf) (hsame.symm.trans hele) rfl hplan hws
      | marking ele' hele' hG hm =>
        cases hele'.symm.trans hele
        refine .inr ⟨order, hs.quiet_step hget h rfl rfl (by simp) hc (.inl rfl) rfl ?_⟩
        rw [hans, heq]
        exact stage_withElement hlin hnext (hfresh hf) hG rfl hplan hws
      | announcing hG ha =>
        -- the version is one that another call has yet to make known
        obtain ⟨j, -, -, -, -, -, -, -, habout⟩ := ha
        have hij : i ≠ j := by
          rintro rfl
          obtain ⟨q, next, hget', hq⟩ := habout
          cases hget.symm.trans hget'
          cases hq
        exact .inl ⟨i, hcommits.aboutTo hthread, .inr ⟨j, hij.symm, habout.of_ne h hij⟩⟩
    · exact .inl ⟨i, hcommits.aboutTo hthread, .inl (mt hfresh'.mp hf)⟩

theorem Serves.step_updating {raw : Bytes} {md : ElementMetadata} {ws : List Write}
    {res : Option Element} (hlin : i ∉ order) (hop : c.op = .update raw)
    (hplan : updatePlan n c.ctx raw md = .ok (ws, res))
    (hfresh : MetadataFresh n p i → (serial md5 n kv calls order).metadata = some (.metadata md))
    (hget : p.threads[i]? = some (writeSeq n res ws)) :
    MetadataConflict n p' ∨ ∃ order', Serves md5 n kv calls p' order' := by
  obtain ⟨hun, hpos, hp⟩ := updatePlan_eq_ok n hplan
  cases hp
  have hquiet : ¬ WritesMetadata n p i := by
    rintro ⟨q, next, hget', hq⟩
    cases hget.symm.trans hget'
    cases (writesAt_metadata _).mp hq
  by_cases hver : (stored n p.state).versions (int32 (md.LatestVersion + 1)) = none
  · obtain ⟨hstored, hthread, htrace⟩ := write_served hget h (.inr hver)
    have habout : WritesMetadata n p' i := Commits.aboutTo ⟨_, _, _, rfl, rfl⟩ hthread
    by_cases hf : MetadataFresh n p i
    · have hG := hs.versions (int32 (md.LatestVersion + 1))
      cases hG with
      | same hsame =>
        have hnone : (serial md5 n kv calls order).versions (int32 (md.LatestVersion + 1)) = none :=
          hsame.symm.trans hver
        refine .inr ⟨order, hs.write_step hget h (.inr hver) (by simp) hc ?_ ?_ fun v => ?_⟩
        · exact .committingUpdate hlin hop ((plan_of_update hop (hfresh hf)).trans hplan) hnone
            (Function.update_self ..)
        · intro t val hGt hKt
          cases t with
          | metadata => exact hKt
          | operation t => exact hKt
          | version v =>
            refine (Function.update_of_ne ?_ ..).trans hKt
            rintro rfl
            cases hver.symm.trans hKt
        · by_cases hv : v = int32 (md.LatestVersion + 1)
          · rw [hv]
            exact .announcing hnone ⟨i, c, raw, md, hc, hop, hfresh hf, rfl, habout⟩
          · refine (hs.versions v).step h ?_ (fun ele res ws hm => ?_) hquiet
            · rw [hstored]
              exact Function.update_of_ne hv ..
            · have hkey := Option.some.inj (hget.symm.trans hm)
              simp [writeSeq] at hkey
      | marking ele hele => rw [hver] at hele; cases hele
      | announcing hnone ha =>
        obtain ⟨j, -, -, -, -, -, -, -, hj⟩ := ha
        have hij : i ≠ j := by
          rintro rfl
          exact hquiet hj
        exact .inl ⟨i, habout, .inr ⟨j, hij.symm, hj.of_ne h hij⟩⟩
    · refine .inl ⟨i, habout, .inl fun hf' => hf ?_⟩
      rw [htrace, Pool.Fresh] at hf'
      exact hf'.2.resolve_left fun h => by cases h.2
  · -- another update has stored the version first
    have hrefused : serveKV p.state (.SetKV (Target.key n (.version (int32 (md.LatestVersion + 1))))
        (.element { Raw := raw, Version := int32 (md.LatestVersion + 1), Published := false })
        false) = (p.state, .error (.concept Err_ALREADY_EXISTS)) :=
      (serveKV_set n p.state ⟨.version _, .element _, false⟩).trans
        (if_neg fun hl => hl.elim Bool.false_ne_true hver)
    refine .inr ⟨order, hs.quiet_step hget h (by rw [hrefused]) ?_ (by simp) hc (.inl rfl) rfl ?_⟩
    · exact Bool.eq_false_iff.mpr fun hq => by
        cases (writesAt_metadata ⟨.version _, .element _, false⟩).mp hq
    · rw [hrefused]
      exact .failed hlin _

theorem Serves.step_marking {v : Int} {ele : Element} {t : Int} {w : Write} {res : Option Element}
    (hlin : i ∈ order) (hw : w.target = .operation t)
    (hG : (serial md5 n kv calls order).versions v = some (.element ele))
    (hget : p.threads[i]? = some (writeSeq n res [⟨.version v, .element ele, true⟩, w])) :
    ∃ order', Serves md5 n kv calls p' order' := by
  obtain ⟨hstored, -, -⟩ := write_served hget h (.inl rfl)
  have hquiet : ¬ WritesMetadata n p i := by
    rintro ⟨q, next, hget', hq⟩
    cases hget.symm.trans hget'
    cases (writesAt_metadata ⟨.version _, .element _, true⟩).mp hq
  refine ⟨order, hs.write_step hget h (.inl rfl) (by simp) hc (.recording hlin hw)
    (fun u val hGu hKu => ?_) fun u => ?_⟩
  · cases u with
    | metadata => exact hKu
    | operation u => exact hKu
    | version u =>
      refine (Function.update_of_ne ?_ ..).trans hKu
      rintro rfl
      cases hG.symm.trans hGu
  · by_cases hu : u = v
    · subst hu
      refine .same ?_
      rw [hstored, hG]
      exact Function.update_self ..
    · refine (hs.versions u).step h ?_ (fun ele res ws hm => ?_) hquiet
      · rw [hstored]
        exact Function.update_of_ne hu ..
      · have hkey := Option.some.inj (hget.symm.trans hm)
        simp only [writeSeq, Program.call.injEq, KVReq.SetKV.injEq] at hkey
        exact hu (Target.version.inj (Target.key_injective n hkey.1.1)).symm

theorem Serves.step_recording {t : Int} {w : Write} {res : Option Element} (hlin : i ∈ order)
    (hw : w.target = .operation t) (hfree : view n p.state (.operation t) = none)
    (hget : p.threads[i]? = some (writeSeq n res [w])) :
    ∃ order', Serves md5 n kv calls p' order' := by
  have hland : (view n p.state).Lands w := .inr (by rw [hw]; exact hfree)
  obtain ⟨hstored, -, -⟩ := write_served hget h hland
  have hne : w.target ≠ .metadata := by rw [hw]; simp
  have hquiet : ¬ WritesMetadata n p i := by
    rintro ⟨q, next, hget', hq⟩
    cases hget.symm.trans hget'
    exact hne ((writesAt_metadata w).mp hq)
  have hput := (stored n p.state).put_operation hw
  refine ⟨order, hs.write_step hget h hland hne hc (.succeeded hlin res)
    (fun u val _ hKu => by rw [hput]; exact hKu) fun u => ?_⟩
  refine (hs.versions u).step h (by rw [hstored, hput]) (fun ele res ws hm => ?_) hquiet
  have hkey := Option.some.inj (hget.symm.trans hm)
  simp only [writeSeq, Program.call.injEq, KVReq.SetKV.injEq] at hkey
  have htarget := Target.key_injective n hkey.1.1
  rw [hw] at htarget
  cases htarget

end Steps

/-! ## The write of the metadata -/

theorem effect_published {v : Int} {ele : Element} (hele : G.versions v = some (.element ele))
    (hpub : ele.Published = true) : (c.effect md5 n G).versions v = some (.element ele) := by
  have heff := effect_spec md5 n c G
  generalize c.op = op at heff
  generalize c.effect md5 n G = G' at heff
  cases heff with
  | nothing => exact hele
  | createHalf hmd hver => exact hele
  | create hmd hver =>
    refine (Function.update_of_ne ?_ ..).trans hele
    rintro rfl
    cases hver.symm.trans hele
  | update hmd hun hpos hver =>
    refine (Function.update_of_ne ?_ ..).trans hele
    rintro rfl
    cases hver.symm.trans hele
  | @publish version md ele' hmd hversion hele' =>
    by_cases hv : v = publishedVersion md version
    · rw [hv] at hele ⊢
      cases hele'.symm.trans hele
      refine (Function.update_self ..).trans ?_
      rw [← hpub]
    · exact (Function.update_of_ne hv ..).trans hele
  | rollback hmd hversion hele' hlt => exact hele

/-- No version is announced by another call when this one is about to write the metadata. -/
theorem not_announces {v : Int} (hc : calls[i]? = some c) (hnot : ¬ MetadataConflict n p)
    (habout : WritesMetadata n p i) (ha : Announces n calls p G v) :
    ∃ raw md, c.op = .update raw ∧ G.metadata = some (.metadata md) ∧
      v = int32 (md.LatestVersion + 1) := by
  obtain ⟨j, c', raw, md, hc', hop, hmd, hv, hj⟩ := ha
  by_cases hij : j = i
  · subst hij
    cases hc.symm.trans hc'
    exact ⟨raw, md, hop, hmd, hv⟩
  · exact absurd ⟨i, habout, .inr ⟨j, hij, hj⟩⟩ hnot

theorem not_marking (habout : WritesMetadata n p i) (v : Int) (ele : Element) (res : Option Element)
    (ws : List Write) :
    p.threads[i]? ≠ some (writeSeq n res (⟨.version v, .element ele, true⟩ :: ws)) := by
  intro hm
  obtain ⟨q, next, hget, hq⟩ := habout
  cases hm.symm.trans hget
  cases (writesAt_metadata ⟨.version v, .element ele, true⟩).mp hq

section Commit

variable (hs : Serves md5 n kv calls p order) (h : p.step serveKV i = some p')
  (hc : calls[i]? = some c) (hnot : ¬ MetadataConflict n p) (hlin : i ∉ order)
include hs h hc hnot hlin

theorem Serves.commit_step {w : Write} {ws : List Write} {res : Option Element}
    (hget : p.threads[i]? = some (writeSeq n res (w :: ws))) (hw : w.target = .metadata)
    (hover : w.overwrite = true)
    (heff : (c.effect md5 n (serial md5 n kv calls order)).metadata = some w.val)
    (hi : Stage md5 n (c.effect md5 n (serial md5 n kv calls order)) (stored n p'.state)
      (MetadataFresh n p' i) True c (writeSeq n res ws))
    (hvers : ∀ v, Agrees n calls p' (c.effect md5 n (serial md5 n kv calls order)) v) :
    Serves md5 n kv calls p' (order ++ [i]) := by
  have habout : WritesMetadata n p i := Commits.aboutTo ⟨w, ws, res, hw, rfl⟩ hget
  obtain ⟨hstored, hthread, htrace⟩ := write_served hget h (.inl hover)
  have hserial := serial_snoc md5 n kv calls hc order
  refine hs.of_step h hc (.inr ⟨rfl, hlin⟩) ?_ (fun j c' t hji ht hstage => ?_) ?_ fun v => ?_
  · rw [hserial, show (i ∈ order ++ [i]) = True by simp]
    exact ⟨_, hthread, hi⟩
  · rw [hserial]
    refine hstage.overtaken ?_ (fun hcommits => hnot ?_) fun v ele => effect_published
    · rw [MetadataFresh, htrace]
      exact Pool.not_fresh_of_write ((writesAt_metadata w).mpr hw)
    · exact ⟨i, habout, .inr ⟨j, hji, hcommits.aboutTo ht⟩⟩
  · rw [hserial, heff, hstored, Content.put, hw]
  · rw [hserial]
    exact hvers v

theorem Serves.step_committingUpdate {raw : Bytes} {w : Write} {ws : List Write}
    {res : Option Element} (hop : c.op = .update raw)
    (hplan : c.plan md5 n (serial md5 n kv calls order) = .ok (w :: ws, res))
    (hG : (serial md5 n kv calls order).look w.target = none)
    (hK : (stored n p.state).look w.target = some w.val)
    (hget : p.threads[i]? = some (writeSeq n res ws)) :
    Serves md5 n kv calls p' (order ++ [i]) := by
  have hcommits := (commits_of_update hop hplan).aboutTo hget
  have hunmarked := not_marking hcommits
  obtain ⟨op, ctx⟩ := c
  cases hop
  cases plan_eq_ok md5 n hplan with
  | @update raw md _ hmd hp =>
  obtain ⟨hun, hpos, hws⟩ := updatePlan_eq_ok n hp
  cases hws
  have heff : Call.effect md5 n ⟨.update raw, ctx⟩ (serial md5 n kv calls order) = _ :=
    effect_update hmd hun hpos hG
  obtain ⟨hstored, -, -⟩ := write_served hget h (.inl rfl)
  refine hs.commit_step h hc hnot hlin hget rfl rfl (by rw [heff]; rfl)
    (.recording trivial rfl) fun v => ?_
  rw [heff]
  by_cases hv : v = int32 (md.LatestVersion + 1)
  · have hGv := Function.update_self (int32 (md.LatestVersion + 1)) (some (Record.element
      { Raw := raw, Version := int32 (md.LatestVersion + 1), Published := false }))
      (serial md5 n kv calls order).versions
    refine .same ?_
    rw [hstored, hv]
    exact hK.trans hGv.symm
  · have hsame : (stored n p'.state).versions v = (stored n p.state).versions v := by
      rw [hstored]
      rfl
    have hGv := Function.update_of_ne hv (some (Record.element
      { Raw := raw, Version := int32 (md.LatestVersion + 1), Published := false }))
      (serial md5 n kv calls order).versions
    cases hs.versions v with
    | same heq => exact .same (hsame.trans (heq.trans hGv.symm))
    | marking ele hele hGele hm =>
      exact .marking ele (hsame.trans hele) (hGv.trans hGele) (hm.step h (hunmarked _ _))
    | announcing hnone ha =>
      obtain ⟨raw', md', -, hmd', hv'⟩ := not_announces hc hnot hcommits ha
      cases hmd.symm.trans hmd'
      exact absurd hv' hv

theorem Serves.step_committing {ws : List Write} {res : Option Element}
    (hop : ∀ raw, c.op ≠ .update raw) (hcreate : ∀ raw contentTyp, c.op ≠ .create raw contentTyp)
    (hplan : c.plan md5 n (serial md5 n kv calls order) = .ok (ws, res)) (hne : ws ≠ [])
    (hget : p.threads[i]? = some (writeSeq n res ws)) :
    Serves md5 n kv calls p' (order ++ [i]) := by
  have hcommits := (commits_of_plan hop hplan hne).aboutTo hget
  have hquiet : ∀ v, ¬ Announces n calls p (serial md5 n kv calls order) v := by
    intro v ha
    obtain ⟨raw, -, hraw, -⟩ := not_announces hc hnot hcommits ha
    exact hop raw hraw
  have hunmarked := not_marking hcommits
  obtain ⟨op, ctx⟩ := c
  cases plan_eq_ok md5 n hplan with
  | create raw contentTyp hp => exact absurd rfl (hcreate _ _)
  | update hmd hp => exact absurd rfl (hop _)
  | idle hmd hversion => exact absurd rfl hne
  | @publish version md ele _ hmd hversion hele hp =>
    cases hp
    have heff : Call.effect md5 n ⟨.publish version, ctx⟩ (serial md5 n kv calls order) = _ :=
      effect_publish hmd hversion hele
    have hGself := Function.update_self (publishedVersion md version : Int)
      (some (Record.element { ele with Published := true })) (serial md5 n kv calls order).versions
    obtain ⟨hstored, hthread, -⟩ := write_served hget h (.inl rfl)
    have hsame : ∀ v, (stored n p'.state).versions v = (stored n p.state).versions v := fun v => by
      rw [hstored]
      rfl
    refine hs.commit_step h hc hnot hlin hget rfl rfl (by rw [heff]) ?_ fun v => ?_
    · rw [heff]
      exact .marking trivial (by rfl) rfl hGself
    rw [heff]
    by_cases hv : v = publishedVersion md version
    · subst hv
      have hmarks : Marks n p' (publishedVersion md version) { ele with Published := true } :=
        ⟨i, _, _, hthread⟩
      cases hs.versions (publishedVersion md version) with
      | same heq => exact .marking ele ((hsame _).trans (heq.trans hele)) hGself hmarks
      | marking ele' hele' hG' hm =>
        cases hele.symm.trans hG'
        exact .marking ele' ((hsame _).trans hele') hGself hmarks
      | announcing hnone ha => exact absurd ha (hquiet _)
    · have hGv := Function.update_of_ne hv (some (Record.element { ele with Published := true }))
        (serial md5 n kv calls order).versions
      cases hs.versions v with
      | same heq => exact .same ((hsame v).trans (heq.trans hGv.symm))
      | marking ele' hele' hG' hm =>
        refine .marking ele' ((hsame v).trans hele') (hGv.trans hG') (hm.step h (hunmarked v _))
      | announcing hnone ha => exact absurd ha (hquiet v)
  | @rollback version md ele _ hmd hversion hele hp =>
    obtain ⟨hlt, hws⟩ := rollbackPlan_eq_ok md5 n hp
    cases hws
    have heff : Call.effect md5 n ⟨.rollback version, ctx⟩ (serial md5 n kv calls order) = _ :=
      effect_rollback hmd hversion hele hlt
    obtain ⟨hstored, -, -⟩ := write_served hget h (.inl rfl)
    refine hs.commit_step h hc hnot hlin hget rfl rfl (by rw [heff]) (.recording trivial rfl)
      fun v => ?_
    rw [heff]
    have hsame : (stored n p'.state).versions v = (stored n p.state).versions v := by
      rw [hstored]
      rfl
    cases hs.versions v with
    | same heq => exact .same (hsame.trans heq)
    | marking ele' hele' hG' hm =>
      exact .marking ele' (hsame.trans hele') hG' (hm.step h (hunmarked v _))
    | announcing hnone ha => exact absurd ha (hquiet v)

end Commit

/-! ## Runs -/

/-- A step keeps the correspondence with a serial run, or leads into a conflict. -/
theorem Serves.step (hs : Serves md5 n kv calls p order) (hnot : ¬ MetadataConflict n p)
    (hcreate : ∀ c ∈ calls, ∀ raw contentTyp, c.op ≠ .create raw contentTyp)
    (h : p.step serveKV i = some p') (hsafe : Undisturbed n p i) :
    MetadataConflict n p' ∨ ∃ order', Serves md5 n kv calls p' order' := by
  obtain ⟨q, next, hget, -⟩ := Pool.step_eq_some h
  have hlt : i < calls.length := hs.length_eq ▸ (List.getElem?_eq_some_iff.mp hget).1
  have hc : calls[i]? = some calls[i] := List.getElem?_eq_getElem hlt
  have hnc := hcreate calls[i] (List.getElem_mem hlt)
  obtain ⟨t, ht, hstage⟩ := hs.stage i calls[i] hc
  cases hstage with
  | start hlin => exact .inr (hs.step_start h hc hnc hlin ht)
  | reading hlin hnext hfresh => exact hs.step_reading h hc hlin hnext hfresh ht
  | updating hlin hop hplan hfresh => exact hs.step_updating h hc hlin hop hplan hfresh ht
  | committingUpdate hlin hop hplan hG hK =>
    exact .inr ⟨_, hs.step_committingUpdate h hc hnot hlin hop hplan hG hK ht⟩
  | committing hlin hop hplan hne =>
    exact .inr ⟨_, hs.step_committing h hc hnot hlin hop hnc hplan hne ht⟩
  | marking hlin hw hpub hG => exact .inr (hs.step_marking h hc hlin hw hG ht)
  | @recording hlin t w res hw =>
    refine .inr (hs.step_recording h hc hlin hw ?_ ht)
    exact (hsafe _ _ ht).2 t w.val w.overwrite (by rw [hw])
  | succeeded hlin res => cases hget.symm.trans ht
  | failed hlin fault => cases hget.symm.trans ht

theorem serves_callPool (hcreate : ∀ c ∈ calls, ∀ raw contentTyp, c.op ≠ .create raw contentTyp) :
    Serves md5 n kv calls (callPool md5 n kv calls) [] where
  nodup := List.nodup_nil
  lt_length _ hi := by cases hi
  stage i c hc := by
    refine ⟨c.program md5 n.app n.env n.key, by simp [callPool, hc], ?_⟩
    have hnc := hcreate c (List.mem_of_getElem? hc)
    obtain ⟨op, ctx⟩ := c
    cases op with
    | create raw contentTyp => exact absurd rfl (hnc raw contentTyp)
    | update raw => rw [update_program]; exact .start (by simp)
    | publish version => rw [publish_program]; exact .start (by simp)
    | rollback version => rw [rollback_program]; exact .start (by simp)
  length_eq := List.length_map ..
  metadata := rfl
  versions _ := .same rfl

theorem stored_serial (md5 : Bytes → String) (n : ElementName) (kv : KVState) (cs : List Call) :
    ∃ kv', Transition.run (afterCall md5 n) kv cs = some kv' ∧
      stored n kv' = cs.foldl (fun k c => c.effect md5 n k) (stored n kv) := by
  induction cs generalizing kv with
  | nil => exact ⟨kv, rfl, rfl⟩
  | cons c cs ih =>
    obtain ⟨kv', hrun, hstored⟩ := ih (Program.run serveKV kv (c.program md5 n.app n.env n.key)).1
    exact ⟨kv', hrun, by rw [hstored, stored_run]; rfl⟩

theorem Commits.ne_done (h : Commits n t) (a : Except Fault (Option Element)) : t ≠ .done a := by
  obtain ⟨w, ws, res, -, rfl⟩ := h
  simp [writeSeq]

/-- A call that has returned succeeded if and only if it has taken effect. -/
theorem Stage.lin_iff (h : Stage md5 n G K fresh lin c t) {a : Except Fault (Option Element)}
    (ht : t = .done a) : lin ↔ ∃ res, a = .ok res := by
  cases h with
  | succeeded hlin res =>
    cases ht
    exact iff_of_true hlin ⟨res, rfl⟩
  | failed hlin fault =>
    cases ht
    exact iff_of_false hlin (by simp)
  | start hlin => cases ht
  | reading hlin hnext hfresh => cases ht
  | updating hlin hop hplan hfresh =>
    cases (updatePlan_eq_ok n hplan).2.2
    cases ht
  | committingUpdate hlin hop hplan hG hK => exact absurd ht ((commits_of_update hop hplan).ne_done a)
  | committing hlin hop hplan hws => exact absurd ht ((commits_of_plan hop hplan hws).ne_done a)
  | marking hlin hw hpub hG => cases ht
  | recording hlin hw => cases ht

/-- Once all calls have returned, the calls that succeeded are those that took effect. -/
theorem Serves.of_done (hs : Serves md5 n kv calls p order) (hd : p.Done) :
    (∀ i, i ∈ order ↔ ∃ res, p.threads[i]? = some (.done (.ok res))) ∧
      stored n p.state = serial md5 n kv calls order := by
  have hended : ∀ (i : Nat) (t : Program KVReq.Resp (Except Fault (Option Element))),
      p.threads[i]? = some t → ∃ a, t = .done a := fun i t ht => hd t (List.mem_of_getElem? ht)
  refine ⟨fun i => ?_, Content.ext hs.metadata (funext fun v => ?_)⟩
  · by_cases hlt : i < calls.length
    · obtain ⟨t, ht, hstage⟩ := hs.stage i calls[i] (List.getElem?_eq_getElem hlt)
      obtain ⟨a, rfl⟩ := hended i t ht
      rw [hstage.lin_iff rfl, ht]
      simp
    · refine iff_of_false (fun hi => hlt (hs.lt_length i hi)) ?_
      rintro ⟨res, hres⟩
      exact hlt (hs.length_eq ▸ (List.getElem?_eq_some_iff.mp hres).1)
  · cases hs.versions v with
    | same heq => exact heq
    | marking ele hele hG hm =>
      obtain ⟨i, res, ws, hget⟩ := hm
      obtain ⟨a, ha⟩ := hended i _ hget
      cases ha
    | announcing hG ha =>
      obtain ⟨i, -, -, -, -, -, -, -, q, next, hget, -⟩ := ha
      obtain ⟨a, ha⟩ := hended i _ hget
      cases ha

/-- What is stored is what the calls that returned without an error store one after the
other, in some order. -/
def Serialised (md5 : Bytes → String) (n : ElementName) (kv : KVState) (calls : List Call)
    (p : CallPool) : Prop :=
  ∃ order : List Nat, order.Nodup ∧
    (∀ i, i ∈ order ↔ ∃ res, p.threads[i]? = some (.done (.ok res))) ∧
    ∃ kv', Transition.run (afterCall md5 n) kv (order.filterMap (calls[·]?)) = some kv' ∧
      stored n p.state = stored n kv'

/-- Of every run whose steps are undisturbed, once all calls have returned. -/
theorem serialised_of_undisturbed (md5 : Bytes → String) (n : ElementName) (kv : KVState)
    (calls : List Call) (hcreate : ∀ c ∈ calls, ∀ raw contentTyp, c.op ≠ .create raw contentTyp)
    (turns : List Nat)
    (hsafe : Transition.EachStep (Pool.step serveKV) (fun p i _ => Undisturbed n p i)
      (callPool md5 n kv calls) turns) :
    Transition.EachState (Pool.step serveKV) (fun p => p.Done → Serialised md5 n kv calls p)
      (callPool md5 n kv calls) turns := by
  have hinv : Transition.EachState (Pool.step serveKV)
      (fun p => MetadataConflict n p ∨ ∃ order, Serves md5 n kv calls p order)
      (callPool md5 n kv calls) turns := by
    refine Transition.eachState_of_eachStep _ (fun p i p' hp hsafe h => ?_)
      (.inr ⟨[], serves_callPool hcreate⟩) hsafe
    by_cases hconflict : MetadataConflict n p
    · refine .inl (hconflict.step h ?_)
      rintro ⟨q, next, hget, hq⟩
      exact (hsafe q next hget).1 hq
    · obtain ⟨order, hs⟩ := hp.resolve_left hconflict
      exact hs.step hconflict hcreate h hsafe
  refine hinv.mono fun p hp hd => ?_
  obtain ⟨order, hs⟩ := hp.resolve_left hd.not_conflict
  obtain ⟨hreturned, hstored⟩ := hs.of_done hd
  obtain ⟨kv', hrun, hkv'⟩ := stored_serial md5 n kv (order.filterMap (calls[·]?))
  exact ⟨order, hs.nodup, hreturned, kv', hrun, hstored.trans hkv'.symm⟩

/-- Enough for a step to be undisturbed, and decidable. -/
def Unhindered (n : ElementName) (p : CallPool) (i : Nat) : Prop :=
  match p.threads[i]? with
  | some (.call (.SetKV key _ _) _) =>
      key = Target.key n .metadata ∧ MetadataFresh n p i ∨
        key ≠ Target.key n .metadata ∧ p.state key = none
  | _ => True

instance (n : ElementName) (p : CallPool) (i : Nat) : Decidable (Unhindered n p i) := by
  unfold Unhindered
  split
  · exact inferInstanceAs (Decidable (_ ∨ _))
  · exact inferInstanceAs (Decidable True)

theorem Unhindered.undisturbed (h : Unhindered n p i) : Undisturbed n p i := by
  intro q next hget
  unfold Unhindered at h
  rw [hget] at h
  cases q with
  | GetKV key => exact ⟨by simp [writesAt], by simp⟩
  | SetKV key val overwrite =>
    rcases h with ⟨hkey, hfresh⟩ | ⟨hkey, hnone⟩
    · refine ⟨fun _ => hfresh, fun t val overwrite hq => ?_⟩
      cases Target.key_injective n ((KVReq.SetKV.inj hq).1.symm.trans hkey)
    · refine ⟨fun hq => absurd (by simpa [writesAt] using hq) hkey, fun t val overwrite hq => ?_⟩
      rw [view, ← (KVReq.SetKV.inj hq).1]
      exact hnone

theorem returned_iff (p : CallPool) (i : Nat) :
    (∃ res, p.threads[i]? = some (.done (.ok res))) ↔
      (p.threads.map Program.succeeded)[i]? = some true := by
  rw [List.getElem?_map, Option.map_eq_some_iff]
  constructor
  · rintro ⟨res, h⟩
    exact ⟨_, h, rfl⟩
  · rintro ⟨t, h, ht⟩
    obtain ⟨a, rfl⟩ := Program.succeeded_iff.mp ht
    exact ⟨a, h⟩

theorem done_of_succeeded {p : CallPool} (h : p.threads.map Program.succeeded = [true, true]) :
    p.Done := by
  intro t ht
  have hmem : t.succeeded ∈ [true, true] := h ▸ List.mem_map_of_mem ht
  obtain ⟨a, rfl⟩ := Program.succeeded_iff.mp (by simpa using hmem)
  exact ⟨_, rfl⟩

/-- An element of which version 2 is in use. -/
def twoVersions : KVState := fun key =>
  if key = "cassem/elements/a/e/k/metadata" then
    some (.metadata ⟨"k", "a", "e", 2, 0, 2, "", 1⟩)
  else if key = "cassem/elements/a/e/k/v1" then
    some (.element { Raw := [1], Version := 1, Published := true })
  else if key = "cassem/elements/a/e/k/v2" then
    some (.element { Raw := [2], Version := 2, Published := true })
  else none

/-- The rollback reads the metadata after the update has written it. -/
theorem overlapping_serialised :
    Transition.EachState (Pool.step serveKV)
      (fun p => p.Done → Serialised (fun _ => "") ⟨"a", "e", "k", by decide⟩ twoVersions
        [⟨.update [3], none, 1⟩, ⟨.rollback 1, none, 2⟩] p)
      (callPool (fun _ => "") ⟨"a", "e", "k", by decide⟩ twoVersions
        [⟨.update [3], none, 1⟩, ⟨.rollback 1, none, 2⟩])
      [0, 0, 0, 1, 0, 1, 1, 1] := by
  refine serialised_of_undisturbed _ _ _ _ (by simp) _ ?_
  have hfree : Transition.EachStep (Pool.step serveKV)
      (fun p i _ => Unhindered ⟨"a", "e", "k", by decide⟩ p i)
      (callPool (fun _ => "") ⟨"a", "e", "k", by decide⟩ twoVersions
        [⟨.update [3], none, 1⟩, ⟨.rollback 1, none, 2⟩])
      [0, 0, 0, 1, 0, 1, 1, 1] := by decide +kernel
  exact Transition.eachStep_imp (fun _ => True) (fun _ _ _ _ _ => trivial)
    (fun _ _ _ _ _ h => h.undisturbed) trivial hfree

/-- The update has read the metadata that the rollback then replaces. -/
theorem lostRollback_not_serialised :
    ¬ Transition.EachState (Pool.step serveKV)
      (fun p => p.Done → Serialised (fun _ => "") ⟨"a", "e", "k", by decide⟩ twoVersions
        [⟨.update [3], none, 1⟩, ⟨.rollback 1, none, 2⟩] p)
      (callPool (fun _ => "") ⟨"a", "e", "k", by decide⟩ twoVersions
        [⟨.update [3], none, 1⟩, ⟨.rollback 1, none, 2⟩])
      [0, 1, 1, 1, 1, 0, 0, 0] := by
  intro h
  have hend : (Transition.run (Pool.step serveKV) (callPool (fun _ => "")
      ⟨"a", "e", "k", by decide⟩ twoVersions [⟨.update [3], none, 1⟩, ⟨.rollback 1, none, 2⟩])
      [0, 1, 1, 1, 1, 0, 0, 0]).map (fun p => (p.threads.map Program.succeeded,
        (stored ⟨"a", "e", "k", by decide⟩ p.state).metadata)) =
      some ([true, true], some (.metadata ⟨"k", "a", "e", 3, 3, 2, "", 1⟩)) := by decide +kernel
  obtain ⟨p, hp, hend⟩ := Option.map_eq_some_iff.mp hend
  obtain ⟨hok, hmd⟩ := Prod.mk.inj hend
  obtain ⟨order, hnodup, hmem, kv', hrun, hstored⟩ := h.of_run hp (done_of_succeeded hok)
  rw [hstored] at hmd
  -- in either order the rollback leaves version 1 in use
  have hserial : ∀ order ∈ [[0, 1], [1, 0]],
      (Transition.run (afterCall (fun _ => "") ⟨"a", "e", "k", by decide⟩) twoVersions
        (order.filterMap ([⟨.update [3], none, 1⟩, ⟨.rollback 1, none, 2⟩][·]?))).map
          (fun kv => (stored ⟨"a", "e", "k", by decide⟩ kv).metadata) =
        some (some (.metadata ⟨"k", "a", "e", 3, 3, 1, "", 1⟩)) := by decide +kernel
  have hperm : order.Perm [0, 1] := by
    refine (List.perm_ext_iff_of_nodup hnodup (by decide)).mpr fun i => (hmem i).trans ?_
    rw [returned_iff, hok]
    match i with
    | 0 => decide
    | 1 => decide
    | i + 2 => simp
  have horder : order ∈ [[0, 1], [1, 0]] := by
    obtain ⟨a, b, rfl⟩ := List.length_eq_two.mp hperm.length_eq
    have ha : a ∈ [0, 1] := hperm.mem_iff.mp (by simp)
    have hb : b ∈ [0, 1] := hperm.mem_iff.mp (by simp)
    simp only [List.mem_cons, List.not_mem_nil, or_false] at ha hb
    rcases ha with rfl | rfl <;> rcases hb with rfl | rfl <;> simp at hnodup ⊢
  have hused := hserial order horder
  rw [hrun] at hused
  cases hmd.symm.trans (Option.some.inj hused)

end Cassem.Coord
