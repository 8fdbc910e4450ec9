import Cassem.Coord.Deletion
import Cassem.Coord.Document
import Cassem.Coord.ElementHistory

/-!
# The storage of documents

Whatever operations were completed, in whatever order, the storage holds for every element the
records of its document, and nothing else of it. What is written, and what is read of a version, is
what the document says.
-/

namespace Cassem.Coord

open Lib Cassem.Concept
open KV (Bytes Store Plain int32)

/-! ## Operations on documents -/

deriving instance DecidableEq for ElementName

/-- The documents by the names of their elements. -/
abbrev Shelf := ElementName → Option Document

def Operation.onShelf (shelf : Shelf) : Operation → Shelf
  | .element n call => fun n' => if n' = n then Document.step (shelf n) call.op else shelf n'
  | .deleteElement n => fun n' => if n' = n then none else shelf n'
  | .deleteEnvironment app env => fun n => if n.app = app ∧ n.env = env then none else shelf n
  | .deleteApp appId => fun n => if n.app = appId then none else shelf n
  | .createEnvironment _ _ | .createApp _ => shelf

/-- The operation removes the element, or what it is in. -/
def Operation.Removes (n : ElementName) : Operation → Prop
  | .deleteElement n' => n = n'
  | .deleteEnvironment app env => n.app = app ∧ n.env = env
  | .deleteApp appId => n.app = appId
  | _ => False

instance (n : ElementName) : (op : Operation) → Decidable (op.Removes n)
  | .deleteElement n' => inferInstanceAs (Decidable (n = n'))
  | .deleteEnvironment app env => inferInstanceAs (Decidable (n.app = app ∧ n.env = env))
  | .deleteApp appId => inferInstanceAs (Decidable (n.app = appId))
  | .element _ _ | .createEnvironment _ _ | .createApp _ => inferInstanceAs (Decidable False)

/-- The time at which the operation is recorded, if it is one on the element. -/
def Operation.recordTime (n : ElementName) : Operation → Option Int
  | .element n' call => if n' = n then some call.ctx.operatedAt else none
  | _ => none

/-- Operations, each with the times at which its requests are served. -/
abbrev Journal := List (Operation × (Nat → Int))

namespace Journal

def store (c : Codecs) (md5 : Bytes → String) (ops : Journal) : Store :=
  ops.foldl (fun store o => o.1.exec c md5 o.2 store) Tree.empty

def shelf (ops : Journal) : Shelf :=
  ops.foldl (fun shelf o => o.1.onShelf shelf) fun _ => none

def recordTimes (n : ElementName) (ops : Journal) : List Int :=
  ops.filterMap fun o => o.1.recordTime n

def Valid (ops : Journal) : Prop := ∀ o ∈ ops, o.1.Valid

theorem store_snoc (c : Codecs) (md5 : Bytes → String) (ops : Journal)
    (o : Operation × (Nat → Int)) :
    store c md5 (ops ++ [o]) = o.1.exec c md5 o.2 (store c md5 ops) := by
  rw [store, List.foldl_concat]
  rfl

theorem shelf_snoc (ops : Journal) (o : Operation × (Nat → Int)) :
    shelf (ops ++ [o]) = o.1.onShelf (shelf ops) := by
  rw [shelf, List.foldl_concat]
  rfl

theorem Valid.of_snoc {ops : Journal} {o : Operation × (Nat → Int)} (h : Valid (ops ++ [o])) :
    Valid ops ∧ o.1.Valid :=
  ⟨fun x hx => h x (List.mem_append_left _ hx), h o List.mem_concat_self⟩

end Journal

/-! ## Deletions -/

section Frames

variable {c : Codecs} {md5 : Bytes → String} {store : Store}

/-- A directory above the records of an element is removed, if it is there at all. -/
theorem unsetKV_directory (h : InOrder c md5 store) {n : ElementName} (hn : n.Valid) (root : String)
    (hroot : root = "elements" ∨ root = "operations") (names : List String) (leaf : String)
    (hpre : names ++ [leaf] <+: [n.app, n.env, n.key]) :
    (KV.UnsetKV store ("/".intercalate ("cassem" :: root :: names ++ [leaf])) true).2 = none ∧
      InOrder c md5
        (KV.UnsetKV store ("/".intercalate ("cassem" :: root :: names ++ [leaf])) true).1 := by
  obtain ⟨t, ht, hbelow⟩ : ∃ t : Target, t.Fits ∧
      "cassem" :: root :: [n.app, n.env, n.key] <+: t.front n := by
    rcases hroot with rfl | rfl
    · exact ⟨.metadata, trivial, List.prefix_rfl⟩
    · exact ⟨.operation 0, Nat.zero_le _, ⟨["operations"], rfl⟩⟩
  have hfront : "cassem" :: root :: names ++ [leaf] <+: t.front n :=
    (List.cons_prefix_cons.mpr ⟨rfl, List.cons_prefix_cons.mpr ⟨rfl, hpre⟩⟩).trans hbelow
  have hslot : Slot (t.path n) := .record hn ht
  have hplain : ∀ s ∈ "cassem" :: root :: names ++ [leaf], Plain s := fun s hs =>
    hslot.plain s ((hfront.trans (List.prefix_append _ _)).subset hs)
  have hlen : ("cassem" :: root :: names ++ [leaf]).length ≤ 5 :=
    Nat.succ_le_succ (Nat.succ_le_succ hpre.length_le)
  refine ⟨?_, h.unsetKV (List.cons_ne_nil _ _) hplain hlen true⟩
  have hop : KV.commandOp
      (KV.unsetCommand ("/".intercalate ("cassem" :: root :: names ++ [leaf])) true) =
        some (.rmdir ("cassem" :: root :: names ++ [leaf])) :=
    KV.unsetOp_plain (List.cons_ne_nil _ _) hplain true
  have hfit : (HierMap.Op.rmdir ("cassem" :: root :: names ++ [leaf])).Fits store.look := by
    refine HierMap.Op.rmdir_fits_iff.mpr fun e =>
      h.laid.above hslot (hfront.trans (List.prefix_append _ _)) (fun heq => ?_) e
    have hshort := hfront.length_le
    rw [heq, Target.path, List.length_append, List.length_singleton] at hshort
    exact absurd hshort (Nat.not_succ_le_self _)
  obtain ⟨store', hcommit, -⟩ := KV.commit_of_fits hop hfit
  exact congrArg Prod.snd hcommit

theorem whenDone_none {r : Store × Option GoError} {next : Store → Store × Option GoError}
    (hr : r.2 = none) (hnext : (next r.1).2 = none) : (whenDone r next).2 = none := by
  obtain ⟨store, err⟩ := r
  cases hr
  exact hnext

theorem deleteOperationPrefix_none {key : String} (h : (KV.UnsetKV store key true).2 = none) :
    (deleteOperationPrefix store key).2 = none := by
  unfold deleteOperationPrefix
  cases hunset : KV.UnsetKV store key true with
  | mk store' err =>
    rw [hunset] at h
    cases h
    rfl

/-- A deletion goes to its end, whether there is anything to delete or not. -/
theorem delete_none (h : InOrder c md5 store) {x : Named} (hx : x.Valid) :
    (x.delete store).2 = none := by
  have ha : Adm.isIdentifier "a" = true := by decide
  cases x with
  | element n =>
    have hn : n.Valid := hx
    show (DeleteElement store n).2 = none
    unfold DeleteElement
    rw [elementKey_split, elementOperationKey_split]
    obtain ⟨hdir, hleft⟩ := unsetKV_directory h hn "elements" (Or.inl rfl) [n.app, n.env] n.key
      List.prefix_rfl
    exact whenDone_none hdir (deleteOperationPrefix_none
      (unsetKV_directory hleft hn "operations" (Or.inr rfl) _ _ List.prefix_rfl).1)
  | environment app env =>
    have hn : (nameOf hx.1 hx.2 ha).Valid := ⟨hx.1, hx.2, ha⟩
    have hpre : [app] ++ [env] <+: [app, env, "a"] := ⟨["a"], rfl⟩
    show (DeleteEnvironment store app env).2 = none
    unfold DeleteEnvironment
    rw [envElementKey_split, envOperationKey_split]
    obtain ⟨hdir, hleft⟩ := unsetKV_directory h hn "elements" (Or.inl rfl) [app] env hpre
    exact whenDone_none hdir (deleteOperationPrefix_none
      (unsetKV_directory hleft hn "operations" (Or.inr rfl) _ _ hpre).1)
  | application appId =>
    have hn : (nameOf hx ha ha).Valid := ⟨hx, ha, ha⟩
    have hpre : [] ++ [appId] <+: [appId, "a", "a"] := ⟨["a", "a"], rfl⟩
    have hslot : Slot (["cassem", "apps"] ++ [appId]) := .app hx
    show (DeleteApp store appId).2 = none
    unfold DeleteApp
    rw [appElementKey_split, appKey_split, appOperationKey_split]
    obtain ⟨hdir, hleft⟩ := unsetKV_directory h hn "elements" (Or.inl rfl) [] appId hpre
    have hgone := hleft.unsetKV (List.cons_ne_nil _ _) hslot.plain (by simp) false
    refine whenDone_none hdir (whenDone_none ?_ (deleteOperationPrefix_none
      (unsetKV_directory hgone hn "operations" (Or.inr rfl) _ _ hpre).1))
    have hop : KV.commandOp
        (KV.unsetCommand ("/".intercalate (["cassem", "apps"] ++ [appId])) false) =
          some (.del (["cassem", "apps"] ++ [appId])) :=
      KV.unsetOp_plain (List.cons_ne_nil _ _) hslot.plain false
    obtain ⟨store', hcommit, -⟩ := KV.commit_of_fits hop
      (HierMap.Op.del_fits_iff.mpr (hleft.laid.not_dir hslot))
    exact congrArg Prod.snd hcommit

/-- The names of an element, from its app on. -/
def ElementName.names (n : ElementName) : List String := [n.app, n.env, n.key]

/-- What is deleted takes the records of its elements with it, and no others. -/
theorem records_delete (h : InOrder c md5 store) {x : Named} (hx : x.Valid) {n : ElementName}
    (hn : n.Valid) (t : Target) : c.records (x.delete store).1 (t.key n) =
      if x.names <+: n.names then none else c.records store (t.key n) := by
  have hin : (∃ path ∈ x.paths, path <+: t.path n) ↔ x.names <+: n.names := by
    cases x <;> cases t <;>
      simp [Named.paths, Named.names, Target.path, Target.front, ElementName.path,
        ElementName.operationPath, ElementName.names, List.cons_prefix_cons]
  rw [records_key hn t, records_key hn t, cleared_delete hx (delete_none h hx), if_congr hin rfl rfl]
  split <;> rfl

/-! ## Creations -/

/-- An environment is a directory; what is deeper in the tree is left alone. -/
theorem look_CreateEnvironment {app env : String} (happ : Adm.isIdentifier app = true)
    (henv : Adm.isIdentifier env = true) (clock : Nat → Int) {q : List String}
    (hq : 4 < q.length) : (CreateEnvironment md5 clock store app env).1.look q = store.look q := by
  have hfront : ["cassem", "elements", app] ≠ [] := List.cons_ne_nil _ _
  have hplain : ∀ s ∈ ["cassem", "elements", app] ++ [env], Plain s := by
    obtain ⟨hcassem, helements, -⟩ := plain_roots
    have happ' := KV.plain_of_isIdentifier happ
    have henv' := KV.plain_of_isIdentifier henv
    simp [*]
  have hkey := envElementKey_split app env
  have hcommit : ∀ (store : Store) last, (KV.commit store (KV.setCommand md5 (clock 0)
      ⟨Adm.Retention.GenAppElementEnvKey app env, true, 0, [], false, KV.int32_zero⟩ last)).1.look q =
        store.look q := by
    intro store last
    obtain hsame | ⟨o, ho, -, hlook⟩ := KV.commit_cases store (KV.setCommand md5 (clock 0)
      ⟨Adm.Retention.GenAppElementEnvKey app env, true, 0, [], false, KV.int32_zero⟩ last)
    · rw [hsame]
    · have ho' : KV.setOp (Adm.Retention.GenAppElementEnvKey app env) _ true = some o := ho
      rw [hkey] at ho'
      cases (KV.setOp_plain hfront hplain _ true).symm.trans ho'
      refine (congrFun hlook q).trans ((HierMap.Op.effect_mkdir _ _ q).trans (if_neg fun hpre => ?_))
      exact absurd hpre.length_le (not_le.mpr hq)
  unfold CreateEnvironment KV.SetKV
  dsimp only
  cases hget : KV.getKV store (Adm.Retention.GenAppElementEnvKey app env) true with
  | error err => exact hcommit store none
  | ok last =>
    have hlast : last.key = Adm.Retention.GenAppElementEnvKey app env := by
      rw [hkey] at hget ⊢
      rw [KV.getKV_dir (KV.valueKey_plain hfront hplain)] at hget
      split at hget
      · cases hget
        rfl
      · cases hget
    dsimp only
    cases hexpired : KV.entityExpired (clock 0) last with
    | mk expired last' =>
      cases expired with
      | false => rfl
      | true =>
        refine (hcommit _ none).trans ?_
        rw [hlast, hkey, KV.UnsetKV]
        obtain hsame | ⟨o, ho, -, hlook⟩ := KV.commit_cases store
          (KV.unsetCommand ("/".intercalate (["cassem", "elements", app] ++ [env])) false)
        · rw [hsame]
        · cases (KV.unsetOp_plain hfront hplain false).symm.trans ho
          refine (congrFun hlook q).trans ((HierMap.Op.effect_del _ _ q).trans (if_neg ?_))
          rintro rfl
          exact absurd hq (lt_irrefl 4)

theorem look_CreateApp (h : InOrder c md5 store) {md : Adm.AppMetadata}
    (happ : Adm.isIdentifier md.Id = true) (clock : Nat → Int) {q : List String}
    (hq : 4 < q.length) : (CreateApp c md5 clock store md).1.look q = store.look q := by
  obtain ⟨hsame, -⟩ | ⟨store', e, hstore', -, -, -, hlook⟩ := h.createApp_spec happ clock
  · rw [hsame]
  · rw [hstore', hlook, if_neg, if_neg]
    · intro hpre
      exact absurd (hpre.length_le.trans (by decide : 2 ≤ 4)) (not_le.mpr hq)
    · rintro rfl
      exact absurd hq (by simp)

theorem records_of_look {store' : Store} (hlook : ∀ q : List String, 4 < q.length →
    store'.look q = store.look q) {n : ElementName} (hn : n.Valid) (t : Target) :
    c.records store' (t.key n) = c.records store (t.key n) := by
  rw [records_key hn t, records_key hn t, hlook]
  cases t <;> simp [Target.path, Target.front, ElementName.path, ElementName.operationPath]

/-- An operation other than a call takes the records of the elements that it removes, and leaves
the others alone. -/
theorem records_exec (h : InOrder c md5 store) {op : Operation} (hop : op.Valid)
    (hcall : ∀ n call, op ≠ .element n call) (clock : Nat → Int) {n : ElementName} (hn : n.Valid)
    (t : Target) : c.records (op.exec c md5 clock store) (t.key n) =
      if op.Removes n then none else c.records store (t.key n) := by
  obtain ⟨app, env, key, hnonempty⟩ := n
  cases op with
  | element n call => exact absurd rfl (hcall n call)
  | createEnvironment app env =>
    exact records_of_look (fun q hq => look_CreateEnvironment hop.1 hop.2 clock hq) hn t
  | createApp md => exact records_of_look (fun q hq => look_CreateApp h hop clock hq) hn t
  | deleteElement n =>
    refine (records_delete h (x := .element n) hop hn t).trans (if_congr ?_ rfl rfl)
    obtain ⟨app', env', key', hnonempty'⟩ := n
    simp [Named.names, ElementName.names, List.cons_prefix_cons, Operation.Removes, eq_comm]
  | deleteEnvironment app env =>
    refine (records_delete h (x := .environment app env) hop hn t).trans (if_congr ?_ rfl rfl)
    simp [Named.names, ElementName.names, List.cons_prefix_cons, Operation.Removes, eq_comm]
  | deleteApp appId =>
    refine (records_delete h (x := .application appId) hop hn t).trans (if_congr ?_ rfl rfl)
    simp [Named.names, ElementName.names, List.cons_prefix_cons, Operation.Removes, eq_comm]

/-- Such an operation does the same to the documents. -/
theorem onShelf_of_not_call {op : Operation} (hcall : ∀ n call, op ≠ .element n call)
    (shelf : Shelf) (n : ElementName) :
    op.onShelf shelf n = if op.Removes n then none else shelf n := by
  cases op with
  | element n call => exact absurd rfl (hcall n call)
  | createEnvironment app env => rfl
  | createApp md => rfl
  | deleteElement n => rfl
  | deleteEnvironment app env => rfl
  | deleteApp appId => rfl

end Frames

/-! ## The records of a call -/

theorem carryOut_of_ne (res : Option Element) {t : Target} {ws : List Write}
    (hws : ∀ w ∈ ws, w.target ≠ t) (es : ElementState) : (es.carryOut res ws).1 t = es t := by
  induction ws generalizing es with
  | nil => rfl
  | cons w ws ih =>
    rw [ElementState.carryOut]
    split
    · rw [ih fun w hw => hws w (List.mem_cons_of_mem _ hw), ElementState.put,
        Function.update_of_ne (hws w List.mem_cons_self).symm]
    · rfl

/-- A call records one operation of its element, at its own time. -/
theorem operation_run (md5 : Bytes → String) {n n' : ElementName} (hn : n.Valid) (hn' : n'.Valid)
    (call : Call) (kv : KVState) {t : Int} (ht : n = n' → t ≠ call.ctx.operatedAt) :
    (Program.run serveKV kv (call.program md5 n'.app n'.env n'.key)).1
      (Target.key n (.operation t)) = kv (Target.key n (.operation t)) := by
  by_cases hne : n = n'
  · subst hne
    have hview := congrArg Prod.fst (seen_program n kv md5 call)
    refine (congrFun hview (.operation t)).trans ?_
    unfold Call.outcome
    cases hplan : call.plan md5 n (view n kv).content with
    | error fault => rfl
    | ok p =>
      refine carryOut_of_ne p.2 (fun w hw heq => ht rfl ?_) (view n kv)
      exact plan_operation md5 n hplan hw heq
  · refine run_program_frame (fun t' heq => hne ?_) call kv
    have hpath := congrArg KV.keyPath heq
    rw [keyPath_key hn', keyPath_key hn] at hpath
    obtain ⟨app, env, key, hnonempty⟩ := n
    obtain ⟨app', env', key', hnonempty'⟩ := n'
    cases t' <;>
      simp_all [Target.path, Target.front, ElementName.path, ElementName.operationPath]

/-! ## The storage keeps the documents -/

/-- The storage keeps the records of the documents, and operations of given times only. -/
structure Keeps (c : Codecs) (md5 : Bytes → String) (store : Store) (shelf : Shelf)
    (times : ElementName → List Int) : Prop where
  inOrder : InOrder c md5 store
  content : ∀ n : ElementName, n.Valid →
    stored n (c.records store) = Document.content md5 n (shelf n)
  recorded : ∀ n : ElementName, n.Valid → ∀ t,
    c.records store (Target.key n (.operation t)) ≠ none → t ∈ times n

section Keeps

variable {c : Codecs} {md5 : Bytes → String} {store store' : Store} {shelf shelf' : Shelf}
  {times times' : ElementName → List Int}

/-- Elements whose records are gone have no document any more. -/
theorem Keeps.restrict (h : Keeps c md5 store shelf times) (horder : InOrder c md5 store')
    (gone : ElementName → Prop) [DecidablePred gone]
    (hrecords : ∀ n : ElementName, n.Valid → ∀ t : Target,
      c.records store' (t.key n) = if gone n then none else c.records store (t.key n))
    (hshelf : ∀ n, shelf' n = if gone n then none else shelf n) :
    Keeps c md5 store' shelf' times where
  inOrder := horder
  content n hn := by
    rw [hshelf]
    by_cases hgone : gone n
    · rw [if_pos hgone]
      refine Content.ext ?_ (funext fun v => ?_)
      · rw [stored_metadata, hrecords n hn, if_pos hgone, Document.content_none_metadata]
      · rw [stored_versions, hrecords n hn, if_pos hgone, Document.content_none_versions]
    · rw [if_neg hgone, ← h.content n hn]
      refine Content.ext ?_ (funext fun v => ?_)
      · rw [stored_metadata, stored_metadata, hrecords n hn, if_neg hgone]
      · rw [stored_versions, stored_versions, hrecords n hn, if_neg hgone]
  recorded n hn t ht := by
    rw [hrecords n hn] at ht
    split at ht
    · exact absurd rfl ht
    · exact h.recorded n hn t ht

theorem Keeps.mono (h : Keeps c md5 store shelf times) (hsub : ∀ n, times n ⊆ times' n) :
    Keeps c md5 store shelf times' :=
  ⟨h.inOrder, h.content, fun n hn t ht => hsub n (h.recorded n hn t ht)⟩

theorem Keeps.call (h : Keeps c md5 store shelf times) {n : ElementName} (hn : n.Valid)
    {call : Call} (hctx : call.ctx.Fits) (clock : Nat → Int) (hsub : ∀ n, times n ⊆ times' n)
    (htime : call.ctx.operatedAt ∈ times' n) :
    Keeps c md5 (Operation.exec c md5 clock store (.element n call))
      ((Operation.element n call).onShelf shelf) times' := by
  obtain ⟨op, ctx⟩ := call
  have hrecords : c.records (Operation.exec c md5 clock store (.element n ⟨op, ctx⟩)) =
      (Program.run serveKV (c.records store) (Call.program md5 n.app n.env n.key ⟨op, ctx⟩)).1 :=
    (run_program_related (c := c) md5 clock hn h.inOrder.laid hctx op).records
  refine ⟨h.inOrder.callElement hn hctx clock, fun n' hn' => ?_, fun n' hn' t ht => ?_⟩
  · rw [hrecords, Operation.onShelf]
    dsimp only
    split
    · next heq =>
      rw [heq, stored_run, h.content n hn]
      exact (Document.call_refines (shelf n) ⟨op, ctx⟩).2
    · next hne =>
      rw [stored_of_ne hn' hn hne]
      exact h.content n' hn'
  · rw [hrecords] at ht
    by_cases hown : n' = n ∧ t = ctx.operatedAt
    · obtain ⟨rfl, rfl⟩ := hown
      exact htime
    · rw [operation_run md5 hn' hn _ _ fun heq ht => hown ⟨heq, ht⟩] at ht
      exact hsub n' (h.recorded n' hn' t ht)

theorem Keeps.exec (h : Keeps c md5 store shelf times) {op : Operation} (hop : op.Valid)
    (clock : Nat → Int) (hsub : ∀ n, times n ⊆ times' n)
    (htime : ∀ n t, op.recordTime n = some t → t ∈ times' n) :
    Keeps c md5 (op.exec c md5 clock store) (op.onShelf shelf) times' := by
  by_cases hcall : ∃ n call, op = .element n call
  · obtain ⟨n, call, rfl⟩ := hcall
    exact h.call hop.1 hop.2 clock hsub (htime n _ (if_pos rfl))
  · have hother : ∀ n call, op ≠ .element n call := fun n call heq => hcall ⟨n, call, heq⟩
    exact (h.mono hsub).restrict (h.inOrder.exec hop clock) op.Removes
      (fun n hn t => records_exec h.inOrder hop hother clock hn t)
      (onShelf_of_not_call hother shelf)

/-- After any operations the storage holds the documents that they make. -/
theorem keeps_journal (c : Codecs) (md5 : Bytes → String) {ops : Journal} (hops : ops.Valid) :
    Keeps c md5 (ops.store c md5) ops.shelf fun n => ops.recordTimes n := by
  induction ops using List.reverseRecOn with
  | nil =>
    have hnone : ∀ n : ElementName, n.Valid → ∀ t : Target,
        c.records (Tree.empty : Store) (t.key n) = none := by
      intro n hn t
      rw [records_key hn t, Target.path, Tree.look_empty,
        if_neg (List.append_ne_nil_of_left_ne_nil (front_ne_nil n t) [t.leaf])]
      rfl
    refine ⟨inOrder_empty c md5, fun n hn => ?_, fun n hn t ht => absurd (hnone n hn _) ht⟩
    refine Content.ext ?_ (funext fun v => ?_)
    · rw [stored_metadata]
      exact hnone n hn .metadata
    · rw [stored_versions]
      exact hnone n hn (.version v)
  | append_singleton ops o ih =>
    obtain ⟨hbefore, hop⟩ := hops.of_snoc
    rw [Journal.store_snoc, Journal.shelf_snoc]
    refine (ih hbefore).exec hop o.2 (fun n t ht => ?_) fun n t ht => ?_
    · rw [Journal.recordTimes, List.filterMap_append]
      exact List.mem_append_left _ ht
    · rw [Journal.recordTimes, List.filterMap_append]
      exact List.mem_append_right _ (List.mem_filterMap.mpr ⟨o, List.mem_singleton_self _, ht⟩)

end Keeps

/-! ## Reading a version -/

/-- 0 or less names the version in use; where there is none yet, there is only the metadata. -/
def GetElementWithVersion (app env key : String) (version : Int) : KVCall Element := do
  let k ← GenElementKey app env key
  let md ← getElementMetadata k
  let version := if version ≤ 0 then md.UsingVersion else version
  if version ≤ 0 then
    return { Raw := [], Version := 0, Published := false, Metadata := some md }
  match ← getKV (← WithVersion k version) with
  | .element elt => return { elt with Metadata := some md }
  | _ => throw errUnmarshal

/-- What GetElementWithVersion does with the answer to its first request. -/
def readWithMetadata (n : ElementName) (version : Int) :
    Except GoError Record → Program KVReq.Resp (Except Fault Element)
  | .error err => .done (.error (.error err))
  | .ok (.metadata md) =>
      let version := if version ≤ 0 then md.UsingVersion else version
      if version ≤ 0 then
        .done (.ok { Raw := [], Version := 0, Published := false, Metadata := some md })
      else
        .call (.GetKV (Target.key n (.version version))) fun r =>
          .done ((elementOf r).map fun elt => { elt with Metadata := some md })
  | .ok _ => .done (.error errUnmarshal)

theorem getElementWithVersion_program (n : ElementName) (version : Int) :
    GetElementWithVersion n.app n.env n.key version =
      Program.call (.GetKV (Target.key n .metadata)) (readWithMetadata n version) := by
  unfold GetElementWithVersion
  rw [n.genElementKey]
  refine get_ext (fun _ => rfl) fun val => ?_
  cases val with
  | element ele => rfl
  | operation op => rfl
  | metadata md =>
    change ite ((if version ≤ 0 then md.UsingVersion else version) ≤ 0) _ _ = _
    rw [readWithMetadata]
    generalize (if version ≤ 0 then md.UsingVersion else version) = v
    split
    · rfl
    · next hpos =>
      have hwith : WithVersion n.elementKey v = .ok (versionKey n.elementKey v) :=
        if_neg (by omega)
      change (liftM (WithVersion n.elementKey v) >>= _ : KVCall Element) = _
      rw [hwith]
      exact get_ext (fun _ => rfl) fun val => by cases val <;> rfl

namespace Document

/-- The version that is read in place of `version`. -/
def readVersion (d : Document) (version : Int) : Nat :=
  if version ≤ 0 then d.inUse else version.toNat

def errNotFound : Fault := .error (.concept Err_NOT_FOUND)

/-- What is read of a version of a document, with the metadata. -/
def read (md5 : Bytes → String) (n : ElementName) (version : Int) :
    Option Document → Except Fault Element
  | none => .error errNotFound
  | some d =>
      if d.readVersion version = 0 then
        .ok { Raw := [], Version := 0, Published := false, Metadata := some (d.metadata md5 n) }
      else
        match d.revision? (d.readVersion version) with
        | none => .error errNotFound
        | some r =>
            .ok { element (d.readVersion version) r with Metadata := some (d.metadata md5 n) }

/-- The version that clients are given: the one in use, or the draft as long as there is none. -/
def fetchedVersion (d : Document) : Nat := if d.inUse = 0 then d.latest else d.inUse

def fetch (md5 : Bytes → String) (n : ElementName) (d : Document) : Option Element :=
  (d.revision? d.fetchedVersion).map fun r =>
    { element d.fetchedVersion r with Metadata := some (d.metadata md5 n) }

theorem shown_content (md5 : Bytes → String) (n : ElementName) (d : Option Document) :
    shown (content md5 n d) = d.bind (fetch md5 n) := by
  cases d with
  | none => rfl
  | some d =>
    have hversion : shownVersion (d.metadata md5 n) = d.fetchedVersion := by
      unfold shownVersion fetchedVersion metadata
      by_cases hzero : d.inUse = 0
      · simp [hzero, d.draft_of_unused hzero]
      · simp [hzero]
    rw [shown, content_metadata]
    dsimp only
    rw [hversion, content_versions, Int.toNat_natCast, Option.bind_some, fetch]
    cases d.revision? d.fetchedVersion with
    | none => rfl
    | some r => rfl

end Document

/-- What clients are given of an element, by the parts of its name. -/
def Shelf.fetch (md5 : Bytes → String) (shelf : Shelf) (app env key : String) : Option Element :=
  if h : app = "" ∨ env = "" ∨ key = "" then none
  else (shelf ⟨app, env, key, h⟩).bind (Document.fetch md5 ⟨app, env, key, h⟩)

section Read

variable {c : Codecs} {md5 : Bytes → String} {store : Store} {shelf : Shelf}
  {times : ElementName → List Int}

theorem read_run (h : Keeps c md5 store shelf times) {n : ElementName} (hn : n.Valid)
    {version : Int} (hversion : version < 2 ^ 63) (clock : Nat → Int) :
    ∃ served, Program.run (serveStore c md5 clock) (0, store)
        (GetElementWithVersion n.app n.env n.key version) =
      ((served, store), Document.read md5 n version (shelf n)) := by
  rw [getElementWithVersion_program, Program.run]
  have hcontent := h.content n hn
  have hmetadata : c.records store (Target.key n .metadata) =
      (Document.content md5 n (shelf n)).metadata := by
    rw [← hcontent, stored_metadata]
  have hversions : ∀ v, c.records store (Target.key n (.version v)) =
      (Document.content md5 n (shelf n)).versions v := by
    intro v
    rw [← hcontent, stored_versions]
  rw [serveStore_GetKV md5 clock 0 h.inOrder.laid hn (t := .metadata) trivial, hmetadata]
  dsimp only
  cases hd : shelf n with
  | none => exact ⟨1, rfl⟩
  | some d =>
    rw [Document.content_metadata, Content.answer_some, readWithMetadata]
    have husing : (d.metadata md5 n).UsingVersion = d.inUse := rfl
    have hread : (if version ≤ 0 then (d.metadata md5 n).UsingVersion else version) =
        d.readVersion version := by
      rw [husing, Document.readVersion]
      split <;> omega
    have hfits : (Target.version (d.readVersion version)).Fits := by
      have hbound := d.bounded
      have hle := d.inUse_le
      show (d.readVersion version : Int).natAbs ≤ 2 ^ 63
      unfold Document.readVersion
      split <;> omega
    rw [hread, Document.read]
    by_cases hzero : d.readVersion version = 0
    · rw [if_pos (by omega), if_pos hzero]
      exact ⟨1, rfl⟩
    · rw [if_neg (by omega), if_neg hzero, Program.run,
        serveStore_GetKV md5 clock _ h.inOrder.laid hn hfits, hversions, hd,
        Document.content_versions, Int.toNat_natCast]
      dsimp only
      cases d.revision? (d.readVersion version) with
      | none => exact ⟨2, rfl⟩
      | some r => exact ⟨2, rfl⟩

/-- Clients are given the elements that are there, each as its document says. -/
theorem fetch_keys (h : Keeps c md5 store shelf times) {app env : String} {keys : List String}
    (happ : Adm.isIdentifier app = true) (henv : Adm.isIdentifier env = true)
    (hkeys : ∀ key ∈ keys, Adm.isIdentifier key = true) (violation : List String → String) :
    GetElementsByKeys violation (c.records store) app env keys =
      if keys.Nodup ∧ keys.length ≤ 100 then .ok (keys.filterMap (shelf.fetch md5 app env))
      else .error (.error (.text ("kvReadOnly.getElementsByKeys: " ++ violation (keys.map fun key =>
        WithMetadataSuffix (joint ["cassem/elements", app, env, key]))))) := by
  have hstored : ∀ key ∈ keys, ∃ n : ElementName, n.Valid ∧ n.app = app ∧ n.env = env ∧ n.key = key :=
    fun key hkey => ⟨nameOf happ henv (hkeys key hkey), ⟨happ, henv, hkeys key hkey⟩, rfl, rfl, rfl⟩
  rw [@GetElementsByKeys_of_atKey md5]
  · refine if_congr Iff.rfl (congrArg Except.ok (List.filterMap_congr fun key hkey => ?_)) rfl
    obtain ⟨n, hn, rfl, rfl, rfl⟩ := hstored key hkey
    have hshown : shown (stored n (c.records store)) = (shelf n).bind (Document.fetch md5 n) := by
      rw [h.content n hn, Document.shown_content]
    rw [Shelf.fetch, dif_neg n.nonempty]
    exact hshown
  · intro key hkey
    obtain ⟨n, -, rfl, rfl, rfl⟩ := hstored key hkey
    exact n.genElementKey
  · intro key hkey
    obtain ⟨n, hn, rfl, rfl, rfl⟩ := hstored key hkey
    exact atKey_of_wellFormed (h.inOrder.element n hn).wellFormed

/-- A call succeeds when the document accepts the operation. -/
theorem call_ok_iff (h : Keeps c md5 store shelf times) {n : ElementName} (hn : n.Valid)
    {call : Call} (hctx : call.ctx.Fits) (htime : call.ctx.operatedAt ∉ times n)
    (clock : Nat → Int) :
    (∃ res, (Program.run (serveStore c md5 clock) (0, store)
        (call.program md5 n.app n.env n.key)).2 = .ok res) ↔
      (Document.apply (shelf n) call.op).isSome = true := by
  obtain ⟨op, ctx⟩ := call
  have hserve : ∀ s kv q, Asked n q → Related c store s kv →
      (serveStore c md5 clock s q).2 = (serveKV kv q).2 ∧
        Related c store (serveStore c md5 clock s q).1 (serveKV kv q).1 :=
    fun s kv q hq h => serveStore_related md5 clock hn h hq
  have hfirst : Related c store (0, store) (c.records store) :=
    ⟨h.inOrder.laid, rfl, fun _ _ => rfl⟩
  have hanswer := (Program.run_related hserve _ (asks_program hctx md5 op) hfirst).1
  have hfree : c.records store (Target.key n (.operation ctx.operatedAt)) = none := by
    by_contra hne
    exact htime (h.recorded n hn ctx.operatedAt hne)
  rw [hanswer, @run_ok_iff md5 n (c.records store) ⟨op, ctx⟩ hfree, h.content n hn]
  exact (Document.call_refines (shelf n) ⟨op, ctx⟩).1

end Read

/-! ## Journals -/

/-- A version in use, and a draft. -/
def edited : Journal :=
  [(.element ⟨"a", "e", "k", by decide⟩ ⟨.create [120] 4, ⟨none, 1⟩⟩, fun _ => 0),
    (.element ⟨"a", "e", "k", by decide⟩ ⟨.publish 0, ⟨none, 2⟩⟩, fun _ => 0),
    (.element ⟨"a", "e", "k", by decide⟩ ⟨.update [121], ⟨none, 3⟩⟩, fun _ => 0)]

theorem valid_k : (⟨"a", "e", "k", by decide⟩ : ElementName).Valid := by
  constructor <;> decide

theorem edited_valid : edited.Valid := by
  intro o ho
  simp only [edited, List.mem_cons, List.not_mem_nil, or_false] at ho
  rcases ho with rfl | rfl | rfl <;> exact ⟨valid_k, by decide, by decide⟩

/-! ## What a journal keeps -/

theorem extends_onShelf {shelf : Shelf} {n : ElementName} {d : Document} (hd : shelf n = some d)
    {op : Operation} (hop : ¬ op.Removes n) : ∃ d', op.onShelf shelf n = some d' ∧ d.Extends d' := by
  cases op with
  | createEnvironment app env => exact ⟨d, hd, .refl d⟩
  | createApp md => exact ⟨d, hd, .refl d⟩
  | deleteElement n' => exact ⟨d, (if_neg hop).trans hd, .refl d⟩
  | deleteEnvironment app env => exact ⟨d, (if_neg hop).trans hd, .refl d⟩
  | deleteApp appId => exact ⟨d, (if_neg hop).trans hd, .refl d⟩
  | element n' call =>
    by_cases hn : n = n'
    · obtain ⟨d', hd', hext⟩ := Document.extends_step d call.op
      subst hn
      exact ⟨d', (if_pos rfl).trans ((congrArg (Document.step · call.op) hd).trans hd'), hext⟩
    · exact ⟨d, (if_neg hn).trans hd, .refl d⟩

theorem extends_journal {ops later : Journal} {n : ElementName} {d : Document}
    (hd : ops.shelf n = some d) (hlater : ∀ o ∈ later, ¬ o.1.Removes n) :
    ∃ d', Journal.shelf (ops ++ later) n = some d' ∧ d.Extends d' := by
  induction later using List.reverseRecOn with
  | nil => exact ⟨d, by rwa [List.append_nil], .refl d⟩
  | append_singleton later o ih =>
    obtain ⟨d', hd', hext⟩ := ih fun x hx => hlater x (List.mem_append_left _ hx)
    rw [← List.append_assoc, Journal.shelf_snoc]
    obtain ⟨d'', hd'', hext'⟩ := extends_onShelf hd' (hlater o List.mem_concat_self)
    exact ⟨d'', hd'', hext.trans hext'⟩

/-- What is read of a version of a document, as long as it is one that is named. -/
theorem read_eq_ok {md5 : Bytes → String} {n : ElementName} {version : Int} (hpos : 1 ≤ version)
    {d : Option Document} {ele : Element} : Document.read md5 n version d = .ok ele ↔
      ∃ d₀ r, d = some d₀ ∧ d₀.revision? version.toNat = some r ∧
        ele = { Document.element version.toNat r with Metadata := some (d₀.metadata md5 n) } := by
  cases d with
  | none => simp [Document.read]
  | some d =>
    have hversion : d.readVersion version = version.toNat := if_neg (by omega)
    rw [Document.read, hversion, if_neg (by omega)]
    cases hr : d.revision? version.toNat with
    | none => simp [hr]
    | some r => simp [hr, eq_comm]

/-- A version that could be read is read with the same content ever after, and stays published
once it was, until its element is deleted with all its versions. -/
theorem version_kept (c : Codecs) (md5 : Bytes → String) {ops later : Journal}
    (hops : Journal.Valid (ops ++ later)) {n : ElementName} (hn : n.Valid)
    (hlater : ∀ o ∈ later, ¬ o.1.Removes n) {version : Int} (hpos : 1 ≤ version)
    (hversion : version < 2 ^ 63) {clock : Nat → Int} {ele : Element}
    (hread : (Program.run (serveStore c md5 clock) (0, ops.store c md5)
      (GetElementWithVersion n.app n.env n.key version)).2 = .ok ele) (clock' : Nat → Int) :
    ∃ ele', (Program.run (serveStore c md5 clock') (0, Journal.store c md5 (ops ++ later))
        (GetElementWithVersion n.app n.env n.key version)).2 = .ok ele' ∧
      ele'.Raw = ele.Raw ∧ ele'.Version = ele.Version ∧
        (ele.Published = true → ele'.Published = true) := by
  have hbefore := keeps_journal c md5 fun o ho => hops o (List.mem_append_left _ ho)
  obtain ⟨served, hrun⟩ := read_run hbefore hn hversion clock
  obtain ⟨served', hrun'⟩ := read_run (keeps_journal c md5 hops) hn hversion clock'
  rw [hrun] at hread
  obtain ⟨d, r, hd, hr, rfl⟩ := (read_eq_ok hpos).mp hread
  obtain ⟨d', hd', hext⟩ := extends_journal hd hlater
  obtain ⟨r', hr', hraw, hreleased⟩ := hext.kept _ r hr
  rw [hrun']
  exact ⟨_, (read_eq_ok hpos).mpr ⟨d', r', hd', hr', rfl⟩, hraw, rfl, hreleased⟩

theorem version_kept_edited :
    ∃ ele', (Program.run (serveStore codecs (fun _ => "") fun _ => 0)
        (0, Journal.store codecs (fun _ => "") (edited.take 1 ++ edited.drop 1))
        (GetElementWithVersion "a" "e" "k" 1)).2 = .ok ele' ∧
      ele'.Raw = [120] ∧ ele'.Version = 1 ∧ (false = true → ele'.Published = true) := by
  have hread : (Program.run (serveStore codecs (fun _ => "") fun _ => 0)
      (0, Journal.store codecs (fun _ => "") (edited.take 1))
      (GetElementWithVersion "a" "e" "k" 1)).2 =
        .ok ⟨[120], 1, false, some ⟨"k", "a", "e", 1, 1, 0, "", 4⟩⟩ := by
    have hfirst : Journal.Valid (edited.take 1) := fun o ho =>
      edited_valid o (List.mem_of_mem_take ho)
    have hkeeps := keeps_journal codecs (fun _ => "") hfirst
    obtain ⟨served, hrun⟩ := read_run hkeeps valid_k (by decide : (1 : Int) < 2 ^ 63) fun _ => 0
    exact congrArg Prod.snd hrun
  have hlater : ∀ o ∈ edited.drop 1,
      ¬ o.1.Removes ⟨"a", "e", "k", by decide⟩ := by
    intro o ho
    simp only [edited, List.drop_succ_cons, List.drop_zero, List.mem_cons, List.not_mem_nil,
      or_false] at ho
    rcases ho with rfl | rfl <;> exact id
  have hall : Journal.Valid (edited.take 1 ++ edited.drop 1) :=
    (List.take_append_drop 1 edited).symm ▸ edited_valid
  exact version_kept codecs (fun _ => "") hall valid_k hlater (by decide) (by decide) hread
    fun _ => 0

end Cassem.Coord
