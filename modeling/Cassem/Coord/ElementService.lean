import Cassem.Coord.ElementLayout

/-!
# The service on the storage

On a store where the records lie in their places, the service answers the calls on an element as
the service on records does, so what holds of elements there holds of the storage.
-/

namespace Cassem.Coord

open Lib Cassem.Concept
open KV (Bytes Entity Store int32)

/-! ## The requests of a call -/

/-- Reads and writes of the records of the element, each under its key. -/
inductive Asked (n : ElementName) : KVReq → Prop
  | GetKV {t : Target} (ht : t.Fits) : Asked n (.GetKV (t.key n))
  | SetKV {t : Target} (ht : t.Fits) {val : Record} (hval : kindOf val = t.kind)
      (overwrite : Bool) : Asked n (.SetKV (t.key n) val overwrite)

/-- A write of a record of the kind of its target. -/
def Write.InPlace (w : Write) : Prop := w.target.Fits ∧ kindOf w.val = w.target.kind

/-- The time of an operation is an `int64`. -/
def Ctx.Fits (ctx : Ctx) : Prop := -2 ^ 63 ≤ ctx.operatedAt ∧ ctx.operatedAt < 2 ^ 63

instance (ctx : Ctx) : Decidable ctx.Fits := inferInstanceAs (Decidable (_ ∧ _))

section Asks

variable {n : ElementName} {ctx : Ctx} (hctx : ctx.Fits)

theorem asks_writeSeq {ws : List Write} (hws : ∀ w ∈ ws, w.InPlace) (res : Option Element) :
    (writeSeq n res ws).Asks (Asked n) := by
  induction ws with
  | nil => trivial
  | cons w ws ih =>
    obtain ⟨ht, hval⟩ := hws w List.mem_cons_self
    refine ⟨.SetKV ht hval w.overwrite, fun r => ?_⟩
    cases r with
    | error err => trivial
    | ok _ => exact ih fun w hw => hws w (List.mem_cons_of_mem _ hw)

theorem asks_plan {p : Plan} (hp : ∀ ws res, p = .ok (ws, res) → ∀ w ∈ ws, w.InPlace) :
    (p.program n).Asks (Asked n) := by
  match p with
  | .error fault => trivial
  | .ok (ws, res) => exact asks_writeSeq (hp ws res rfl) res

theorem fits_version {v : Nat} (hv : v < 2 ^ 32) : (Target.version v).Fits := by
  show (v : Int).natAbs ≤ 2 ^ 63
  omega

theorem uint32_lt (x : Int) : uint32 x < 2 ^ 32 := by
  have hlow := Int.emod_nonneg x (show (2 : Int) ^ 32 ≠ 0 by decide)
  have hhigh := Int.emod_lt_of_pos x (show (0 : Int) < 2 ^ 32 by decide)
  unfold uint32
  omega

theorem publishedVersion_lt (md : ElementMetadata) (version : UInt32) :
    publishedVersion md version < 2 ^ 32 := by
  unfold publishedVersion
  split
  · exact uint32_lt _
  · exact version.toNat_lt

include hctx

theorem fits_operation (key : String) (op : ElementOperation_Op) (last current : Int)
    (remark : String) : (operationWrite ctx key op last current remark).InPlace := by
  obtain ⟨hlow, hhigh⟩ := hctx
  refine ⟨?_, rfl⟩
  show ctx.operatedAt.natAbs ≤ 2 ^ 63
  omega

theorem fits_createPlan (raw : Bytes) (contentTyp : Int) (ws : List Write) (res : Option Element)
    (h : createPlan n ctx raw contentTyp = .ok (ws, res)) : ∀ w ∈ ws, w.InPlace := by
  cases h
  have hop := fits_operation hctx n.key .SET 0 1 ""
  have hversion : (Target.version 1).Fits := fits_version (v := 1) (by decide)
  have hmd : Target.Fits .metadata := trivial
  simp only [List.mem_cons, List.not_mem_nil, or_false, forall_eq_or_imp, forall_eq]
  exact ⟨⟨hmd, rfl⟩, ⟨hversion, rfl⟩, hop⟩

theorem fits_updatePlan (raw : Bytes) (md : ElementMetadata) (ws : List Write)
    (res : Option Element) (h : updatePlan n ctx raw md = .ok (ws, res)) : ∀ w ∈ ws, w.InPlace := by
  obtain ⟨-, hpos, hp⟩ := updatePlan_eq_ok n h
  cases hp
  have hop := fits_operation hctx n.key .SET md.LatestVersion (int32 (md.LatestVersion + 1)) ""
  have hversion : (Target.version (int32 (md.LatestVersion + 1))).Fits := by
    have hlow := Int.le_bmod (x := md.LatestVersion + 1) (show 0 < 2 ^ 32 by decide)
    have hhigh := Int.bmod_lt (x := md.LatestVersion + 1) (show 0 < 2 ^ 32 by decide)
    show (Int.bmod (md.LatestVersion + 1) (2 ^ 32)).natAbs ≤ 2 ^ 63
    omega
  have hmd : Target.Fits .metadata := trivial
  simp only [List.mem_cons, List.not_mem_nil, or_false, forall_eq_or_imp, forall_eq]
  exact ⟨⟨hversion, rfl⟩, ⟨hmd, rfl⟩, hop⟩

theorem fits_rollbackPlan (md5 : Bytes → String) (version : Nat) (md : ElementMetadata)
    (ele : Element) (ws : List Write) (res : Option Element)
    (h : rollbackPlan md5 n ctx version md ele = .ok (ws, res)) : ∀ w ∈ ws, w.InPlace := by
  obtain ⟨-, hp⟩ := rollbackPlan_eq_ok md5 n h
  cases hp
  have hop := fits_operation hctx n.key .PUBLISH md.UsingVersion ele.Version
    ("rollback to version " ++ toString version)
  have hmd : Target.Fits .metadata := trivial
  simp only [List.mem_cons, List.not_mem_nil, or_false, forall_eq_or_imp, forall_eq]
  exact ⟨⟨hmd, rfl⟩, hop⟩

theorem fits_publishPlan (md5 : Bytes → String) {version : Nat} (hlt : version < 2 ^ 32)
    (md : ElementMetadata) (ele : Element) (ws : List Write) (res : Option Element)
    (h : publishPlan md5 n ctx version md ele = .ok (ws, res)) : ∀ w ∈ ws, w.InPlace := by
  cases h
  have hop := fits_operation hctx n.key .PUBLISH md.UsingVersion ele.Version ""
  have hversion := fits_version hlt
  have hmd : Target.Fits .metadata := trivial
  simp only [List.mem_cons, List.not_mem_nil, or_false, forall_eq_or_imp, forall_eq]
  exact ⟨⟨hmd, rfl⟩, ⟨hversion, rfl⟩, hop⟩

/-- The version read is below `2 ^ 32`, and the plan that follows fits. -/
theorem asks_withElement (md5 : Bytes → String) {c : Call} (hc : c.ctx = ctx) {version : Nat}
    (hlt : version < 2 ^ 32) (md : ElementMetadata) (r : Except GoError Record) :
    (c.withElement md5 n md version r).Asks (Asked n) := by
  subst hc
  match r with
  | .error err => trivial
  | .ok (.metadata md) => trivial
  | .ok (.operation op) => trivial
  | .ok (.element ele) =>
    refine asks_plan fun ws res h => ?_
    unfold Call.afterElement at h
    split at h
    · exact fits_rollbackPlan hctx md5 version md ele ws res h
    · exact fits_publishPlan hctx md5 hlt md ele ws res h

theorem asks_withMetadata (md5 : Bytes → String) (op : Op) (r : Except GoError Record) :
    (Call.withMetadata md5 n ⟨op, ctx⟩ r).Asks (Asked n) := by
  match r with
  | .error err => trivial
  | .ok (.element ele) => trivial
  | .ok (.operation op) => trivial
  | .ok (.metadata md) =>
    have hread : ∀ version : Nat, version < 2 ^ 32 →
        (.call (.GetKV (Target.key n (.version version)))
          (Call.withElement md5 n ⟨op, ctx⟩ md version) :
          Program KVReq.Resp (Except Fault (Option Element))).Asks (Asked n) := by
      intro version hlt
      refine ⟨.GetKV (fits_version hlt), fun r => ?_⟩
      exact asks_withElement hctx md5 rfl hlt md r
    cases op with
    | create raw contentTyp => exact asks_plan (fits_createPlan hctx raw contentTyp)
    | update raw => exact asks_plan (fits_updatePlan hctx raw md)
    | publish version =>
      unfold Call.withMetadata Call.afterMetadata
      by_cases hzero : publishedVersion md version = 0
      · simp only [if_pos hzero]
        trivial
      · simp only [if_neg hzero]
        exact hread _ (publishedVersion_lt md version)
    | rollback version =>
      unfold Call.withMetadata Call.afterMetadata
      by_cases hzero : version.toNat = 0
      · simp only [if_pos hzero]
        trivial
      · simp only [if_neg hzero]
        exact hread _ version.toNat_lt

theorem asks_program (md5 : Bytes → String) (op : Op) :
    (Call.program md5 n.app n.env n.key ⟨op, ctx⟩).Asks (Asked n) := by
  have hmd : Asked n (.GetKV (Target.key n .metadata)) := .GetKV trivial
  cases op with
  | create raw contentTyp =>
    rw [create_program]
    exact asks_plan (fits_createPlan hctx raw contentTyp)
  | update raw =>
    rw [update_program]
    exact ⟨hmd, asks_withMetadata hctx md5 _⟩
  | publish version =>
    rw [publish_program]
    exact ⟨hmd, asks_withMetadata hctx md5 _⟩
  | rollback version =>
    rw [rollback_program]
    exact ⟨hmd, asks_withMetadata hctx md5 _⟩

end Asks

/-! ## The service on the storage -/

section Service

variable {c : Codecs} {store store' : Store}

theorem slot_key {n : ElementName} (hn : n.Valid) {t : Target} (ht : t.Fits) :
    Slot (t.front n ++ [t.leaf]) := .record hn ht

theorem keyPath_key {n : ElementName} (hn : n.Valid) (t : Target) :
    KV.keyPath (t.key n) = t.path n := by
  rw [key_eq]
  exact KV.keyPath_plain (plain_path hn t)

theorem records_key {n : ElementName} (hn : n.Valid) (t : Target) :
    c.records store (t.key n) = c.recordOf t.kind (store.look (t.path n)) := by
  rw [Codecs.records, keyPath_key hn t, kindAt_path]

/-- A value put in its place is put under its key. -/
theorem records_put (h : Laid store) {n : ElementName} (hn : n.Valid) {t : Target} (ht : t.Fits)
    {val : Record} (hval : kindOf val = t.kind) {e : Entity} (he : e.val = c.marshal val)
    (hlook : ∀ q, store'.look q = if q = t.front n ++ [t.leaf] then some (.val e)
      else if q <+: t.front n then some .dir else store.look q) :
    c.records store' = Function.update (c.records store) (t.key n) (some val) := by
  funext key
  by_cases hkey : key = t.key n
  · have hself : store'.look (t.path n) = some (.val e) := (hlook _).trans (if_pos rfl)
    rw [hkey, Function.update_self, records_key hn t, hself, Codecs.recordOf, he, ← hval,
      c.unmarshal_marshal]
  · have hpath : KV.keyPath key ≠ t.front n ++ [t.leaf] := fun hpath =>
      hkey (KV.keyPath_injective (hpath.trans (keyPath_key hn t).symm))
    rw [Function.update_of_ne hkey, Codecs.records, Codecs.records, hlook, if_neg hpath]
    by_cases hpre : KV.keyPath key <+: t.front n
    · rw [if_pos hpre]
      have habove := h.above (slot_key hn ht) (hpre.trans (List.prefix_append _ _)) hpath
      cases hcell : store.look (KV.keyPath key) with
      | none => rfl
      | some cell =>
        cases cell with
        | dir => rfl
        | val e' => exact absurd hcell (habove e')
    · rw [if_neg hpre]

/-- A service on a laid out storage, and one on the records in it. The apps are those of the store
at first. -/
structure Related (c : Codecs) (first : Store) (s : Nat × Store) (kv : KVState) : Prop where
  laid : Laid s.2
  records : c.records s.2 = kv
  apps : ∀ p : List String, p[1]? = some "apps" → s.2.look p = first.look p

variable {first : Store} {s : Nat × Store} {kv : KVState} {n : ElementName} {t : Target}

theorem not_app (n : ElementName) (t : Target) {p : List String} (hp : p[1]? = some "apps") :
    p ≠ t.front n ++ [t.leaf] ∧ ¬ p <+: t.front n := by
  have hfront : (t.front n)[1]? ≠ some "apps" := by
    cases t <;> simp [Target.front, ElementName.path, ElementName.operationPath]
  have hpre : ¬ p <+: t.front n ++ [t.leaf] := by
    rintro ⟨r, hr⟩
    have hlong : 1 < (t.front n).length := by
      cases t <;> simp [Target.front, ElementName.path, ElementName.operationPath]
    have htree := congrArg (fun p : List String => p[1]?) hr
    have hp' : 1 < p.length := (List.getElem?_eq_some_iff.mp hp).1
    rw [List.getElem?_append_left hp', List.getElem?_append_left hlong, hp] at htree
    exact hfront htree.symm
  exact ⟨fun h => hpre (h ▸ List.prefix_rfl), fun h => hpre (h.trans (List.prefix_append _ _))⟩

theorem front_ne_nil (n : ElementName) (t : Target) : t.front n ≠ [] := by
  cases t <;> exact List.cons_ne_nil _ _

section Serve

variable (md5 : Bytes → String) (clock : Nat → Int) (i : Nat) (hlaid : Laid store) (hn : n.Valid)
  (ht : t.Fits)
include hlaid hn ht

/-- A record is read as it is stored. -/
theorem serveStore_GetKV : serveStore c md5 clock (i, store) (.GetKV (t.key n)) =
    ((i + 1, store), Content.answer (c.records store (t.key n))) := by
  have hslot := slot_key hn ht
  obtain ⟨r, hr, hanswer⟩ :=
    KV.GetKV_steady (front_ne_nil n t) hslot.plain (hlaid.steady hslot) (clock i)
  rw [← Target.path, ← key_eq] at hr
  simp only [serveStore]
  rw [keyPath_key hn t, kindAt_path, records_key hn t, hr]
  refine Prod.ext rfl ?_
  dsimp only [Target.path]
  split at hanswer
  · next e he =>
    rw [hanswer, he]
    rfl
  · next hnone =>
    obtain ⟨err, rfl, herr⟩ := hanswer
    rw [c.recordOf_eq_none hnone]
    exact congrArg Except.error (if_pos herr)

/-- A record is written as on the records alone. -/
theorem serveStore_SetKV {val : Record} (hval : kindOf val = t.kind) (overwrite : Bool) :
    ∃ store', serveStore c md5 clock (i, store) (.SetKV (t.key n) val overwrite) =
        ((i + 1, store'), (serveKV (c.records store) (.SetKV (t.key n) val overwrite)).2) ∧
      Laid store' ∧
      c.records store' = (serveKV (c.records store) (.SetKV (t.key n) val overwrite)).1 ∧
      ∀ p : List String, p[1]? = some "apps" → store'.look p = store.look p := by
  have hslot := slot_key hn ht
  have hset := KV.SetKV_steady (front_ne_nil n t) hslot.plain (hlaid.steady hslot) (clock i) md5
    ⟨t.key n, false, 0, c.marshal val, overwrite, KV.int32_zero⟩ (key_eq n t) rfl rfl
    (leaf_size_le ht) fun q v hq => hlaid.above hslot (hq.trans (List.prefix_append _ _))
      (fun heq => Tree.not_snoc_prefix _ _ (heq ▸ hq)) v
  have htaken : (c.records store (t.key n)).isSome = true ↔
      store.look (t.front n ++ [t.leaf]) ≠ none := by
    rw [records_key hn t]
    exact c.isSome_recordOf (hlaid.not_dir hslot) t.kind
  simp only [serveStore]
  split at hset
  · next hrefused =>
    have hkv : serveKV (c.records store) (.SetKV (t.key n) val overwrite) =
        (c.records store, .error (.concept Err_ALREADY_EXISTS)) :=
      if_pos ⟨hrefused.1, htaken.mpr hrefused.2⟩
    rw [hset, hkv]
    exact ⟨store, rfl, hlaid, rfl, fun _ _ => rfl⟩
  · next hlands =>
    obtain ⟨store', e, hstore', hkey, he, httl, hlook⟩ := hset
    have hkv : serveKV (c.records store) (.SetKV (t.key n) val overwrite) =
        (Function.update (c.records store) (t.key n) (some val), .ok ()) :=
      if_neg fun h => hlands ⟨h.1, htaken.mp h.2⟩
    rw [hstore', hkv]
    refine ⟨store', rfl, hlaid.put hslot hlook (hkey.trans (key_eq n t)) httl,
      records_put hlaid hn ht hval he hlook, fun p hp => ?_⟩
    obtain ⟨hnot, hnotpre⟩ := not_app n t hp
    rw [hlook, if_neg hnot, if_neg hnotpre]

end Serve

/-- Both services answer the requests of a call on an element alike. -/
theorem serveStore_related (md5 : Bytes → String) (clock : Nat → Int) (hn : n.Valid)
    (h : Related c first s kv) {q : KVReq} (hq : Asked n q) :
    (serveStore c md5 clock s q).2 = (serveKV kv q).2 ∧
      Related c first (serveStore c md5 clock s q).1 (serveKV kv q).1 := by
  obtain ⟨i, store⟩ := s
  obtain ⟨hlaid, rfl, happs⟩ := h
  cases hq with
  | GetKV ht =>
    rw [serveStore_GetKV md5 clock i hlaid hn ht]
    exact ⟨rfl, hlaid, rfl, happs⟩
  | SetKV ht hval overwrite =>
    obtain ⟨store', hserve, hlaid', hrecords, hkept⟩ :=
      serveStore_SetKV md5 clock i hlaid hn ht hval overwrite
    rw [hserve]
    exact ⟨rfl, hlaid', hrecords, fun p hp => (hkept p hp).trans (happs p hp)⟩

/-- A call on an element makes of the storage what it makes of the records. -/
theorem run_program_related (md5 : Bytes → String) (clock : Nat → Int) (hn : n.Valid)
    (hlaid : Laid store) {ctx : Ctx} (hctx : ctx.Fits) (op : Op) :
    Related c store
      (Program.run (serveStore c md5 clock) (0, store)
        (Call.program md5 n.app n.env n.key ⟨op, ctx⟩)).1
      (Program.run serveKV (c.records store) (Call.program md5 n.app n.env n.key ⟨op, ctx⟩)).1 := by
  have hfirst : Related c store (0, store) (c.records store) := ⟨hlaid, rfl, fun _ _ => rfl⟩
  have hserve : ∀ s kv q, Asked n q → Related c store s kv →
      (serveStore c md5 clock s q).2 = (serveKV kv q).2 ∧
        Related c store (serveStore c md5 clock s q).1 (serveKV kv q).1 :=
    fun s kv q hq h => serveStore_related md5 clock hn h hq
  exact (Program.run_related hserve _ (asks_program hctx md5 op) hfirst).2

end Service

end Cassem.Coord
