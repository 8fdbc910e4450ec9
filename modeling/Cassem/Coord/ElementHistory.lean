import Cassem.Coord.ElementService
import Cassem.Coord.Read

/-!
# What the operations leave

Whatever operations were completed, the elements in the storage are well formed, and every one has
a version to show; every app is stored under its own id.
-/

namespace Cassem.Coord

open Lib Cassem.Concept
open Adm (AppMetadata)
open KV (Bytes Entity Store Plain int32)

/-! ## One element -/

/-- The element has a version to show, if it has metadata. -/
def Shows (k : Content) : Prop := ∀ md, k.metadata = some (.metadata md) → shownVersion md ≠ 0

/-- What is stored of an element whenever no call is on its way. -/
structure InForm (md5 : Bytes → String) (n : ElementName) (k : Content) : Prop where
  wellFormed : WellFormed md5 k
  labelled : Labelled n k
  shows : Shows k

section Element

variable {md5 : Bytes → String} {n : ElementName} {k k' : Content}

theorem inForm_absent {k : Content} (hmd : k.metadata = none) (hver : ∀ v, k.versions v = none) :
    InForm md5 n k where
  wellFormed := .absent hmd hver
  labelled := by
    constructor
    · intro md h
      rw [hmd] at h
      cases h
    · intro md ele h
      rw [hmd] at h
      cases h
  shows md h := by
    rw [hmd] at h
    cases h

theorem shows_effect (hwf : WellFormed md5 k) (h : Shows k) {op : Op}
    (heff : Effect md5 n k op k') : Shows k' := by
  have hused : ∀ (v : Int) (ele : Element), k.versions v = some (.element ele) →
      ∀ md md', k.metadata = some (.metadata md) → md'.UsingVersion = ele.Version →
        shownVersion md' ≠ 0 := by
    intro v ele hele md md' hmd husing
    obtain ⟨hpos, -, hv⟩ := (hwf.numbered hmd).at_version hele
    have hne : md'.UsingVersion ≠ 0 := by omega
    rw [shownVersion, if_pos hne]
    exact hne
  intro md' hmd'
  cases heff with
  | nothing => exact h md' hmd'
  | createHalf hmd hver => exact absurd (hwf.versions_none hmd 1) hver
  | create hmd hver =>
    cases hmd'
    exact one_ne_zero
  | @update raw md hmd hun hpos hver =>
    cases hmd'
    unfold shownVersion updated
    dsimp only
    split
    · assumption
    · omega
  | publish hmd hversion hele =>
    cases hmd'
    exact hused _ _ hele _ _ hmd rfl
  | rollback hmd hversion hele hlt =>
    cases hmd'
    exact hused _ _ hele _ _ hmd rfl

theorem InForm.effect (h : InForm md5 n k) (call : Call) : InForm md5 n (call.effect md5 n k) where
  wellFormed := wellFormed_effect h.wellFormed (effect_spec md5 n call k)
  labelled := labelled_effect h.wellFormed h.labelled (effect_spec md5 n call k)
  shows := shows_effect h.wellFormed h.shows (effect_spec md5 n call k)

/-- An element that is there has something to show. -/
theorem InForm.exists_shown {kv : KVState} (h : InForm md5 n (stored n kv))
    (hmd : (stored n kv).metadata ≠ none) : ∃ ele, shown (stored n kv) = some ele := by
  rcases h.wellFormed with hnone | ⟨md, hval, hnum⟩
  · exact absurd hnone hmd
  · obtain ⟨-, -, ele, hele⟩ :=
      (atKey_of_wellFormed h.wellFormed).shown_stored hval (h.shows md hval)
    have hversion : (stored n kv).versions (shownVersion md) = some (.element ele) := hele
    refine ⟨{ ele with Metadata := some md }, ?_⟩
    rw [shown, hval]
    dsimp only
    rw [hversion]

end Element

/-! ## The storage -/

/-- The storage whenever no operation is on its way. -/
structure InOrder (c : Codecs) (md5 : Bytes → String) (store : Store) : Prop where
  laid : Laid store
  element : ∀ n : ElementName, n.Valid → InForm md5 n (stored n (c.records store))
  app : ∀ (appId : String) (e : Entity), store.look ["cassem", "apps", appId] = some (.val e) →
    ∃ md, e.val = c.app.marshal md ∧ md.Id = appId

section Store

variable {c : Codecs} {md5 : Bytes → String} {store store' : Store}

@[simp] theorem stored_metadata (n : ElementName) (kv : KVState) :
    (stored n kv).metadata = kv (Target.key n .metadata) := rfl

@[simp] theorem stored_versions (n : ElementName) (kv : KVState) (v : Int) :
    (stored n kv).versions v = kv (Target.key n (.version v)) := rfl

theorem inForm_of_none {n : ElementName} {kv : KVState}
    (h : ∀ t : Target, t.front n = n.path → kv (t.key n) = none) : InForm md5 n (stored n kv) := by
  refine inForm_absent ?_ fun v => ?_
  · rw [stored_metadata, h .metadata rfl]
  · rw [stored_versions, h (.version v) rfl]

theorem inOrder_empty (c : Codecs) (md5 : Bytes → String) : InOrder c md5 Tree.empty := by
  have hnone : ∀ {p : List String}, p ≠ [] → (Tree.empty : Store).look p = none := by
    intro p hp
    rw [Tree.look_empty, if_neg hp]
  refine ⟨laid_empty, fun n hn => inForm_of_none fun t ht => ?_, fun appId e he => ?_⟩
  · rw [records_key hn t, Target.path,
      hnone (List.append_ne_nil_of_left_ne_nil (front_ne_nil n t) [t.leaf])]
    rfl
  · rw [hnone (List.cons_ne_nil _ _)] at he
    cases he

/-- What is stored of an element lies in its directory. -/
theorem stored_congr {n : ElementName} (hn : n.Valid)
    (h : ∀ leaf, store'.look (n.path ++ [leaf]) = store.look (n.path ++ [leaf])) :
    stored n (c.records store') = stored n (c.records store) := by
  have hrecord : ∀ t : Target, t.front n = n.path →
      c.records store' (t.key n) = c.records store (t.key n) := by
    intro t ht
    rw [records_key hn t, records_key hn t, Target.path, ht, h]
  refine Content.ext ?_ (funext fun v => ?_)
  · rw [stored_metadata, stored_metadata, hrecord .metadata rfl]
  · rw [stored_versions, stored_versions, hrecord (.version v) rfl]

namespace InOrder

variable (h : InOrder c md5 store)
include h

/-- What is removed takes the whole of an element or nothing of it. -/
theorem drop (gone : List String → Prop) (hgone : ∀ q, gone q → store'.look q = none)
    (hkept : ∀ q, ¬ gone q → store'.look q = store.look q)
    (helement : ∀ (n : ElementName) (leaf : String), gone (n.path ++ [leaf]) → gone n.path) :
    InOrder c md5 store' where
  laid := h.laid.drop hgone hkept helement
  element n hn := by
    by_cases hn' : gone n.path
    · have hdir : store'.look n.path ≠ some .dir := by
        rw [hgone _ hn']
        nofun
      refine inForm_of_none fun t ht => ?_
      rw [records_key hn t, Target.path, ht, KV.look_none_below hdir (List.cons_ne_nil _ _)]
      rfl
    · rw [stored_congr hn fun leaf => hkept _ fun hleaf => hn' (helement n leaf hleaf)]
      exact h.element n hn
  app appId e he := by
    by_cases happ : gone ["cassem", "apps", appId]
    · rw [hgone _ happ] at he
      cases he
    · exact h.app appId e (hkept _ happ ▸ he)

theorem unsetKV {front : List String} {leaf : String} (hfront : front ≠ [])
    (hplain : ∀ s ∈ front ++ [leaf], Plain s) (hlen : (front ++ [leaf]).length ≤ 5) (isDir : Bool) :
    InOrder c md5 (KV.UnsetKV store ("/".intercalate (front ++ [leaf])) isDir).1 := by
  have hnot : ∀ (n : ElementName) (leaf' : String), n.path ++ [leaf'] ≠ front ++ [leaf] := by
    intro n leaf' heq
    rw [← heq] at hlen
    exact absurd hlen (by simp [ElementName.path])
  obtain hsame | ⟨o, ho, -, hlook⟩ :=
    KV.commit_cases store (KV.unsetCommand ("/".intercalate (front ++ [leaf])) isDir)
  · rw [KV.UnsetKV, hsame]
    exact h
  · have hop := (KV.unsetOp_plain hfront hplain isDir).symm.trans ho
    cases hop
    cases isDir with
    | true =>
      have heff := fun q => (congrFun hlook q).trans (HierMap.Op.effect_rmdir _ _ q)
      refine h.drop (fun q => front ++ [leaf] <+: q) (fun q hq => (heff q).trans (if_pos hq))
        (fun q hq => (heff q).trans (if_neg hq)) fun n leaf' hpre => ?_
      exact (List.prefix_concat_iff.mp hpre).resolve_left fun heq => hnot n leaf' heq.symm
    | false =>
      have heff := fun q => (congrFun hlook q).trans (HierMap.Op.effect_del _ _ q)
      exact h.drop (fun q => q = front ++ [leaf]) (fun q hq => (heff q).trans (if_pos hq))
        (fun q hq => (heff q).trans (if_neg hq)) fun n leaf' heq => absurd heq (hnot n leaf')

/-- The directory of an environment. -/
theorem mkdir {app env : String} (happ : Adm.isIdentifier app = true)
    (henv : Adm.isIdentifier env = true)
    (hlook : ∀ q, store'.look q =
      if q <+: ["cassem", "elements", app, env] then some .dir else store.look q) :
    InOrder c md5 store' where
  laid := by
    have ha : Adm.isIdentifier "a" = true := by decide
    have hn : (nameOf happ henv ha).Valid := ⟨happ, henv, ha⟩
    have hpre : ["cassem", "elements", app, env] <+: Target.path (nameOf happ henv ha) .metadata :=
      ⟨["a", "metadata"], rfl⟩
    have hlen : ["cassem", "elements", app, env].length < 5 := Nat.lt_succ_self 4
    refine h.laid.mkdir hlook hlen (.record hn (t := .metadata) trivial) hpre fun heq => ?_
    cases congrArg List.length heq
  element n hn := by
    rw [stored_congr hn fun leaf => ?_]
    · exact h.element n hn
    · rw [hlook, if_neg]
      intro hpre
      exact absurd hpre.length_le (by simp [ElementName.path])
  app appId e he := by
    rw [hlook] at he
    split at he
    · cases he
    · exact h.app appId e he

theorem createEnvironment {app env : String} (happ : Adm.isIdentifier app = true)
    (henv : Adm.isIdentifier env = true) (clock : Nat → Int) :
    InOrder c md5 (CreateEnvironment md5 clock store app env).1 := by
  have hfront : ["cassem", "elements", app] ≠ [] := List.cons_ne_nil _ _
  have hplain : ∀ s ∈ ["cassem", "elements", app] ++ [env], Plain s := by
    have happ' := KV.plain_of_isIdentifier happ
    have henv' := KV.plain_of_isIdentifier henv
    have hroots : Plain "cassem" ∧ Plain "elements" := by decide
    simpa using ⟨hroots.1, hroots.2, happ', henv'⟩
  have hkey := envElementKey_split app env
  -- the command makes a directory, if anything
  have hcommit : ∀ {store : Store}, InOrder c md5 store → ∀ last, InOrder c md5 (KV.commit store
      (KV.setCommand md5 (clock 0) ⟨Adm.Retention.GenAppElementEnvKey app env, true, 0, [], false,
        KV.int32_zero⟩ last)).1 := by
    intro store h last
    obtain hsame | ⟨o, ho, -, hlook⟩ := KV.commit_cases store (KV.setCommand md5 (clock 0)
      ⟨Adm.Retention.GenAppElementEnvKey app env, true, 0, [], false, KV.int32_zero⟩ last)
    · rw [hsame]
      exact h
    · have ho' : KV.setOp (Adm.Retention.GenAppElementEnvKey app env) _ true = some o := ho
      rw [hkey] at ho'
      have hop := (KV.setOp_plain hfront hplain _ true).symm.trans ho'
      cases hop
      exact h.mkdir happ henv fun q =>
        (congrFun hlook q).trans (HierMap.Op.effect_mkdir _ _ q)
  unfold CreateEnvironment KV.SetKV
  dsimp only
  cases hget : KV.getKV store (Adm.Retention.GenAppElementEnvKey app env) true with
  | error err => exact hcommit h none
  | ok last =>
    have hlast : last.key = Adm.Retention.GenAppElementEnvKey app env := by
      rw [hkey] at hget ⊢
      rw [KV.getKV_dir (KV.valueKey_plain hfront hplain)] at hget
      split at hget
      · cases hget
        rfl
      · cases hget
    dsimp only
    cases hexpired : KV.entityExpired (clock 0) last with
    | mk expired last' =>
      cases expired with
      | false => exact h
      | true =>
        refine hcommit ?_ none
        rw [hlast, hkey]
        exact h.unsetKV hfront hplain (Nat.le_succ 4) false

/-- An app under its id. -/
theorem putApp {appId : String} (happ : Adm.isIdentifier appId = true) {md : AppMetadata}
    (hmd : md.Id = appId) {e : Entity} (hval : e.val = c.app.marshal md)
    (hkey : e.key = "/".intercalate (["cassem", "apps"] ++ [appId]))
    (httl : e.ttl = KV.NeverExpired)
    (hlook : ∀ q, store'.look q = if q = ["cassem", "apps"] ++ [appId] then some (.val e)
      else if q <+: ["cassem", "apps"] then some .dir else store.look q) :
    InOrder c md5 store' where
  laid := h.laid.put (.app happ) hlook hkey httl
  element n hn := by
    rw [stored_congr hn fun leaf => ?_]
    · exact h.element n hn
    · rw [hlook, if_neg, if_neg]
      · intro hpre
        exact absurd hpre.length_le (by simp [ElementName.path])
      · intro heq
        exact absurd (congrArg List.length heq) (by simp [ElementName.path])
  app appId' e' he := by
    rw [hlook] at he
    split at he
    · next heq =>
      cases he
      cases heq
      exact ⟨md, hval, hmd⟩
    · split at he
      · cases he
      · exact h.app appId' e' he

/-- An app is stored where there is none yet, under a name that the storage takes. -/
theorem createApp_spec {md : AppMetadata} (happ : Adm.isIdentifier md.Id = true)
    (clock : Nat → Int) :
    ((CreateApp c md5 clock store md).1 = store ∧
      (store.look ["cassem", "apps", md.Id] ≠ none ∨ KV.Bolt.MaxKeySize < md.Id.utf8ByteSize)) ∨
    ∃ store' e, CreateApp c md5 clock store md = (store', none) ∧ e.key = GenAppKey md.Id ∧
      e.val = c.app.marshal md ∧ e.ttl = KV.NeverExpired ∧
      ∀ q, store'.look q = if q = ["cassem", "apps"] ++ [md.Id] then some (.val e)
        else if q <+: ["cassem", "apps"] then some .dir else store.look q := by
  have hslot : Slot (["cassem", "apps"] ++ [md.Id]) := .app happ
  have hfront : ["cassem", "apps"] ≠ [] := List.cons_ne_nil _ _
  have hkey := appKey_split md.Id
  by_cases hsize : md.Id.utf8ByteSize ≤ KV.Bolt.MaxKeySize
  · have hset := KV.SetKV_steady hfront hslot.plain (h.laid.steady hslot) (clock 0) md5
      ⟨GenAppKey md.Id, false, 0, c.app.marshal md, false, KV.int32_zero⟩ hkey rfl rfl hsize
      fun q v hq => h.laid.above hslot (hq.trans (List.prefix_append _ _))
        (fun heq => Tree.not_snoc_prefix _ _ (heq ▸ hq)) v
    split at hset
    · next hthere => exact .inl ⟨congrArg Prod.fst hset, .inl hthere.2⟩
    · exact .inr hset
  · have hset := KV.SetKV_oversize hfront hslot.plain (h.laid.steady hslot) (clock 0) md5
      ⟨GenAppKey md.Id, false, 0, c.app.marshal md, false, KV.int32_zero⟩ hkey rfl rfl
      (not_le.mp hsize)
    exact .inl ⟨hset, .inr (not_le.mp hsize)⟩

theorem createApp {md : AppMetadata} (happ : Adm.isIdentifier md.Id = true) (clock : Nat → Int) :
    InOrder c md5 (CreateApp c md5 clock store md).1 := by
  obtain ⟨hsame, -⟩ | ⟨store', e, hstore', hkey, hval, httl, hlook⟩ :=
    h.createApp_spec happ clock
  · rw [hsame]
    exact h
  · rw [hstore']
    exact h.putApp happ rfl hval (hkey.trans (appKey_split _)) httl hlook

/-- A call on an element, whatever its outcome. -/
theorem callElement {n : ElementName} (hn : n.Valid) {call : Call} (hctx : call.ctx.Fits)
    (clock : Nat → Int) : InOrder c md5 (Operation.exec c md5 clock store (.element n call)) := by
  obtain ⟨op, ctx⟩ := call
  have hrun := run_program_related (c := c) md5 clock hn h.laid hctx op
  refine ⟨hrun.laid, fun n' hn' => ?_, fun appId e he => ?_⟩
  · have hrecords : c.records (Operation.exec c md5 clock store (.element n ⟨op, ctx⟩)) =
        (Program.run serveKV (c.records store)
          (Call.program md5 n.app n.env n.key ⟨op, ctx⟩)).1 := hrun.records
    rw [hrecords]
    by_cases hne : n' = n
    · subst hne
      rw [stored_run]
      exact (h.element n' hn').effect ⟨op, ctx⟩
    · rw [stored_of_ne hn' hn hne]
      exact h.element n' hn'
  · exact h.app appId e ((hrun.apps _ rfl).symm.trans he)

theorem deleteOperationPrefix {front : List String} {leaf : String} (hfront : front ≠ [])
    (hplain : ∀ s ∈ front ++ [leaf], Plain s) (hlen : (front ++ [leaf]).length ≤ 5) :
    InOrder c md5 (Coord.deleteOperationPrefix store ("/".intercalate (front ++ [leaf]))).1 := by
  have hunset := h.unsetKV hfront hplain hlen true
  unfold Coord.deleteOperationPrefix
  split <;> simp_all

omit h in
theorem whenDone {r : Store × Option GoError} {next : Store → Store × Option GoError}
    (hr : InOrder c md5 r.1)
    (hnext : ∀ {store}, InOrder c md5 store → InOrder c md5 (next store).1) :
    InOrder c md5 (Coord.whenDone r next).1 := by
  obtain ⟨store, err⟩ := r
  cases err with
  | some err => exact hr
  | none => exact hnext hr

end InOrder

/-- Every operation leaves the storage in order, whether it succeeds or not. -/
theorem InOrder.exec (h : InOrder c md5 store) {op : Operation} (hop : op.Valid)
    (clock : Nat → Int) : InOrder c md5 (op.exec c md5 clock store) := by
  have hroots : Plain "cassem" ∧ Plain "elements" ∧ Plain "operations" ∧ Plain "apps" := by decide
  obtain ⟨hcassem, helements, hoperations, happs⟩ := hroots
  have hne : ∀ {root : String} {segs : List String}, "cassem" :: root :: segs ≠ [] :=
    List.cons_ne_nil _ _
  cases op with
  | element n call => exact h.callElement hop.1 hop.2 clock
  | createEnvironment app env => exact h.createEnvironment hop.1 hop.2 clock
  | createApp md => exact h.createApp hop clock
  | deleteElement n =>
    have happ := KV.plain_of_isIdentifier hop.app
    have henv := KV.plain_of_isIdentifier hop.env
    have hkey := KV.plain_of_isIdentifier hop.key
    show InOrder c md5 (DeleteElement store n).1
    unfold DeleteElement
    rw [elementKey_split, elementOperationKey_split]
    exact .whenDone (h.unsetKV hne (by simp [*]) (by simp) true) fun h =>
      h.deleteOperationPrefix hne (by simp [*]) (by simp)
  | deleteEnvironment app env =>
    have happ := KV.plain_of_isIdentifier hop.1
    have henv := KV.plain_of_isIdentifier hop.2
    show InOrder c md5 (DeleteEnvironment store app env).1
    unfold DeleteEnvironment
    rw [envElementKey_split, envOperationKey_split]
    exact .whenDone (h.unsetKV hne (by simp [*]) (by simp) true) fun h =>
      h.deleteOperationPrefix hne (by simp [*]) (by simp)
  | deleteApp appId =>
    have happ := KV.plain_of_isIdentifier hop
    show InOrder c md5 (DeleteApp store appId).1
    unfold DeleteApp
    rw [appElementKey_split, appKey_split, appOperationKey_split]
    exact .whenDone (h.unsetKV hne (by simp [*]) (by simp) true) fun h =>
      .whenDone (h.unsetKV hne (by simp [*]) (by simp) false) fun h =>
        h.deleteOperationPrefix hne (by simp [*]) (by simp)

theorem inOrder_of_written (h : Written c md5 store) : InOrder c md5 store := by
  induction h with
  | empty => exact inOrder_empty c md5
  | operation _ hop clock ih => exact ih.exec hop clock

end Store

end Cassem.Coord
