import Cassem.Coord.DocumentStore

/-!
# The log of operations

Every operation that is carried out on an element is recorded, under the time it was made at. What
the storage holds of these records is the log of the element since it was deleted last, and the log
explains its document: how the latest version came about, and how the one in use did.
-/

namespace Cassem.Coord

open Lib Cassem.Concept
open KV (Bytes Store int32)

/-! ## What is recorded -/

def operationRecord (n : ElementName) (ctx : Ctx) (op : ElementOperation_Op)
    (lastVersion currentVersion : Nat) (remark : String) : ElementOperation where
  Operator := OperatorFromContext ctx.operator
  OperatedAt := ctx.operatedAt
  OperatedKey := n.key
  Op := op
  LastVersion := lastVersion
  CurrentVersion := currentVersion
  Remark := remark

namespace Document

/-- What is recorded of an operation that is carried out; nothing where it changes nothing. -/
def recordOf (n : ElementName) (ctx : Ctx) : Option Document → Op → Option ElementOperation
  | none, _ => some (operationRecord n ctx .SET 0 1 "")
  | some d, .publish version =>
      if d.target version.toNat = 0 then none
      else some (operationRecord n ctx .PUBLISH d.inUse (d.target version.toNat) "")
  | some d, .rollback version =>
      some (operationRecord n ctx .PUBLISH d.inUse version.toNat
        ("rollback to version " ++ toString version.toNat))
  | some d, .create _ _ | some d, .update _ =>
      some (operationRecord n ctx .SET d.latest (d.latest + 1) "")

def entry (n : ElementName) (ctx : Ctx) (d : Option Document) (op : Op) :
    Option ElementOperation :=
  if (apply d op).isSome then recordOf n ctx d op else none

variable {n : ElementName} {ctx : Ctx} {op : Op} {d : Option Document}

theorem entry_of_refused (h : apply d op = none) : entry n ctx d op = none := by
  rw [entry, h]
  rfl

theorem entry_of_applied (h : (apply d op).isSome = true) :
    entry n ctx d op = recordOf n ctx d op := if_pos h

theorem operatedAt_of_entry {e : ElementOperation} (h : entry n ctx d op = some e) :
    e.OperatedAt = ctx.operatedAt := by
  unfold entry recordOf at h
  split at h
  · split at h
    · cases h
      rfl
    · split at h
      · cases h
      · cases h
        rfl
    · cases h
      rfl
    · cases h
      rfl
    · cases h
      rfl
  · cases h

end Document

/-! ## The record of a call -/

section Call

variable {md5 : Bytes → String} {n : ElementName} {ctx : Ctx}

/-- The writes of a call that is carried out end with its record. -/
theorem plan_entry {op : Op} {d : Option Document} {ws : List Write} {res : Option Element}
    (hplan : Call.plan md5 n ⟨op, ctx⟩ (Document.content md5 n d) = .ok (ws, res))
    (happly : (Document.apply d op).isSome = true) :
    (ws = [] ∧ Document.entry n ctx d op = none) ∨ ∃ init e,
      ws = init ++ [⟨.operation ctx.operatedAt, .operation e, false⟩] ∧
      (∀ w ∈ init, ∀ t, w.target ≠ .operation t) ∧ Document.entry n ctx d op = some e := by
  rw [Document.entry_of_applied happly]
  cases plan_eq_ok md5 n hplan with
  | create raw contentTyp hp =>
    cases hp
    cases d with
    | none =>
      exact Or.inr ⟨[⟨.metadata, .metadata ⟨n.key, n.app, n.env, 1, 1, 0, "", contentTyp⟩, false⟩,
        ⟨.version 1, .element { Raw := raw, Version := 1, Published := false }, false⟩], _, rfl,
        by simp, rfl⟩
    | some d => cases happly
  | @update raw md p hmd hp =>
    cases d with
    | none => cases hmd
    | some d =>
      cases hmd
      obtain ⟨d', hd'⟩ := Option.isSome_iff_exists.mp happly
      obtain ⟨-, hlt, -⟩ := Document.update_eq_some hd'
      have hnext : int32 ((d.metadata md5 n).LatestVersion + 1) = (d.latest + 1 : Nat) :=
        KV.int32_of_range (by show -2 ^ 31 ≤ (d.latest : Int) + 1; omega)
          (by show (d.latest : Int) + 1 < 2 ^ 31; omega)
      cases (updatePlan_eq_ok n hp).2.2
      rw [hnext]
      exact Or.inr ⟨[_, _], _, rfl, by simp, rfl⟩
  | @idle version md hmd hversion =>
    cases d with
    | none => cases hmd
    | some d =>
      cases hmd
      rw [Document.publishedVersion_eq] at hversion
      exact Or.inl ⟨rfl, if_pos hversion⟩
  | @publish version md ele p hmd hversion hele hp =>
    cases d with
    | none => cases hmd
    | some d =>
      cases hmd
      rw [Document.publishedVersion_eq] at hversion hele
      rw [Document.content_versions, Int.toNat_natCast] at hele
      obtain ⟨r, -, hr⟩ := Option.map_eq_some_iff.mp hele
      cases hr
      cases hp
      exact Or.inr ⟨[_, _], _, rfl, by simp, if_neg hversion⟩
  | @rollback version md ele p hmd hversion hele hp =>
    cases d with
    | none => cases hmd
    | some d =>
      cases hmd
      rw [Document.content_versions, Int.toNat_natCast] at hele
      obtain ⟨r, -, hr⟩ := Option.map_eq_some_iff.mp hele
      cases hr
      cases (rollbackPlan_eq_ok md5 n hp).2
      exact Or.inr ⟨[_], _, rfl, by simp, rfl⟩

/-- A record is kept where there is none of its time. -/
theorem carryOut_record {init : List Write} {t : Int} {val : Record}
    (hinit : ∀ w ∈ init, ∀ t, w.target ≠ .operation t) (res : Option Element) (es : ElementState)
    (h : es.content.Accepts (init ++ [⟨.operation t, val, false⟩])) (t' : Int) :
    (es.carryOut res (init ++ [⟨.operation t, val, false⟩])).1 (.operation t') =
      (es (.operation t')).or (if t' = t then some val else none) := by
  induction init generalizing es with
  | nil =>
    rw [List.nil_append]
    by_cases hfree : es (.operation t) = none
    · rw [es.carryOut_of_lands res (.inr hfree), ElementState.carryOut, ElementState.put]
      dsimp only
      by_cases ht : t' = t
      · subst ht
        rw [Function.update_self, if_pos rfl, hfree, Option.none_or]
      · rw [Function.update_of_ne fun heq => ht (Target.operation.inj heq), if_neg ht, Option.or_none]
    · rw [es.carryOut_of_refused res fun hland => hland.elim Bool.false_ne_true hfree]
      by_cases ht : t' = t
      · subst ht
        rw [Option.or_of_isSome (Option.isSome_iff_ne_none.mpr hfree)]
      · rw [if_neg ht, Option.or_none]
  | cons w init ih =>
    have hw := hinit w List.mem_cons_self
    rw [List.cons_append] at h ⊢
    rw [es.carryOut_of_lands res ((es.content_lands hw).mp h.1),
      ih (fun x hx => hinit x (List.mem_cons_of_mem _ hx)) _ (es.content_put w ▸ h.2),
      ElementState.put_operation_of_ne (hw t')]

/-- A call that is carried out on an element leaves its record; one that is refused leaves none. -/
theorem record_run {kv : KVState} {d : Option Document}
    (hd : stored n kv = Document.content md5 n d) (op : Op) (t : Int) :
    (Program.run serveKV kv (Call.program md5 n.app n.env n.key ⟨op, ctx⟩)).1
        (Target.key n (.operation t)) =
      (kv (Target.key n (.operation t))).or
        (if t = ctx.operatedAt then (Document.entry n ctx d op).map .operation else none) := by
  have hview := congrArg Prod.fst (seen_program n kv md5 ⟨op, ctx⟩)
  refine (congrFun hview (.operation t)).trans ?_
  have hcontent : (view n kv).content = Document.content md5 n d := hd
  have haccepted := (@Document.call_refines md5 n d ⟨op, ctx⟩).1
  have hunchanged : view n kv (.operation t) = (kv (Target.key n (.operation t))).or none :=
    Option.or_none.symm
  rw [Call.outcome, hcontent]
  by_cases happly : (Document.apply d op).isSome = true
  · obtain ⟨ws, res, hplan, haccepts⟩ := haccepted.mpr happly
    rw [hplan, Plan.outcome]
    obtain ⟨rfl, hnone⟩ | ⟨init, e, rfl, hinit, he⟩ := plan_entry hplan happly
    · rw [hnone, Option.map_none, ite_self]
      exact hunchanged
    · rw [he, Option.map_some]
      exact carryOut_record hinit res (view n kv) (hcontent ▸ haccepts) t
  · have hrefused : Document.apply d op = none := Option.not_isSome_iff_eq_none.mp happly
    rw [Document.entry_of_refused hrefused, Option.map_none, ite_self]
    cases hplan : Call.plan md5 n ⟨op, ctx⟩ (Document.content md5 n d) with
    | error fault => exact hunchanged
    | ok p =>
      obtain ⟨raw, contentTyp, rfl⟩ := Document.plan_of_refused hrefused hplan
      cases d with
      | none => cases hrefused
      | some d =>
        -- the metadata is there already, so that not even the first write is carried out
        have hmd : view n kv .metadata ≠ none := by
          have hsome := congrArg Content.metadata hcontent
          rw [Document.content_metadata] at hsome
          exact hsome.trans_ne (Option.some_ne_none _)
        cases hplan
        rw [Plan.outcome, ElementState.carryOut_of_refused _ _ fun hland =>
          hland.elim Bool.false_ne_true hmd]
        exact hunchanged

end Call

/-! ## The log -/

/-- The logs by the names of the elements. -/
abbrev Logs := ElementName → List ElementOperation

/-- A time is used for one record. -/
def enter (log : List ElementOperation) : Option ElementOperation → List ElementOperation
  | none => log
  | some e => if log.any (·.OperatedAt = e.OperatedAt) then log else log ++ [e]

def Operation.onLogs (shelf : Shelf) (logs : Logs) : Operation → Logs
  | .element n call => fun n' =>
      if n' = n then enter (logs n) (Document.entry n call.ctx (shelf n) call.op) else logs n'
  | .deleteElement n => fun n' => if n' = n then [] else logs n'
  | .deleteEnvironment app env => fun n => if n.app = app ∧ n.env = env then [] else logs n
  | .deleteApp appId => fun n => if n.app = appId then [] else logs n
  | .createEnvironment _ _ | .createApp _ => logs

namespace Journal

/-- The documents and the logs that operations make. -/
def books (ops : Journal) : Shelf × Logs :=
  ops.foldl (fun books o => (o.1.onShelf books.1, o.1.onLogs books.1 books.2))
    (fun _ => none, fun _ => [])

def log (ops : Journal) : Logs := ops.books.2

end Journal

/-- The record of a time. -/
def recordAt (log : List ElementOperation) (t : Int) : Option Record :=
  (log.find? (·.OperatedAt = t)).map .operation

theorem recordAt_enter {e : Option ElementOperation} {t₀ : Int}
    (he : ∀ e' ∈ e, e'.OperatedAt = t₀) (log : List ElementOperation) (t : Int) :
    recordAt (enter log e) t =
      (recordAt log t).or (if t = t₀ then e.map .operation else none) := by
  cases e with
  | none =>
    rw [Option.map_none, ite_self]
    exact Option.or_none.symm
  | some e =>
    cases he e rfl
    have hlook : recordAt [e] t = if t = e.OperatedAt then some (.operation e) else none := by
      by_cases ht : t = e.OperatedAt <;> simp [recordAt, ht, eq_comm]
    have happend : recordAt (log ++ [e]) t = (recordAt log t).or (recordAt [e] t) := by
      rw [recordAt, List.find?_append, Option.map_or]
      rfl
    rw [enter, Option.map_some]
    split
    · next hany =>
      obtain ⟨e', he', htime⟩ := List.any_eq_true.mp hany
      by_cases ht : t = e.OperatedAt
      · have hsome : (recordAt log t).isSome = true := by
          rw [recordAt, Option.isSome_map, List.find?_isSome, ht]
          exact ⟨e', he', htime⟩
        rw [Option.or_of_isSome hsome]
      · rw [if_neg ht, Option.or_none]
    · rw [happend, hlook]

/-! ## The storage keeps the logs -/

section Kept

variable {c : Codecs} {md5 : Bytes → String} {store store' : Store} {shelf : Shelf}
  {logs logs' : Logs} {times : ElementName → List Int}

/-- The records of operations are those of the logs. -/
def KeepsLogs (c : Codecs) (store : Store) (logs : Logs) : Prop :=
  ∀ n : ElementName, n.Valid → ∀ t,
    c.records store (Target.key n (.operation t)) = recordAt (logs n) t

theorem KeepsLogs.call (hkeeps : Keeps c md5 store shelf times) (h : KeepsLogs c store logs)
    {n : ElementName} (hn : n.Valid) {call : Call} (hctx : call.ctx.Fits) (clock : Nat → Int) :
    KeepsLogs c (Operation.exec c md5 clock store (.element n call))
      ((Operation.element n call).onLogs shelf logs) := by
  obtain ⟨op, ctx⟩ := call
  have hrecords : c.records (Operation.exec c md5 clock store (.element n ⟨op, ctx⟩)) =
      (Program.run serveKV (c.records store) (Call.program md5 n.app n.env n.key ⟨op, ctx⟩)).1 :=
    (run_program_related (c := c) md5 clock hn hkeeps.inOrder.laid hctx op).records
  intro n' hn' t
  rw [hrecords]
  show _ = recordAt (if n' = n then _ else _) t
  split
  · next heq =>
    subst heq
    rw [record_run (hkeeps.content n' hn) op t, h n' hn t,
      recordAt_enter fun e he => Document.operatedAt_of_entry he]
  · next hne =>
    rw [operation_run md5 hn' hn _ _ fun heq => absurd heq hne, h n' hn' t]

theorem onLogs_of_not_call {op : Operation} (hcall : ∀ n call, op ≠ .element n call)
    (shelf : Shelf) (logs : Logs) (n : ElementName) :
    op.onLogs shelf logs n = if op.Removes n then [] else logs n := by
  cases op with
  | element n call => exact absurd rfl (hcall n call)
  | createEnvironment app env => rfl
  | createApp md => rfl
  | deleteElement n => rfl
  | deleteEnvironment app env => rfl
  | deleteApp appId => rfl

theorem KeepsLogs.exec (hkeeps : Keeps c md5 store shelf times) (h : KeepsLogs c store logs)
    {op : Operation} (hop : op.Valid) (clock : Nat → Int) :
    KeepsLogs c (op.exec c md5 clock store) (op.onLogs shelf logs) := by
  by_cases hcall : ∃ n call, op = .element n call
  · obtain ⟨n, call, rfl⟩ := hcall
    exact h.call hkeeps hop.1 hop.2 clock
  · have hother : ∀ n call, op ≠ .element n call := fun n call heq => hcall ⟨n, call, heq⟩
    intro n hn t
    rw [records_exec hkeeps.inOrder hop hother clock hn, onLogs_of_not_call hother]
    split
    · rfl
    · exact h n hn t

end Kept

/-! ## What a log explains -/

def ofKind (op : ElementOperation_Op) (log : List ElementOperation) : List ElementOperation :=
  log.filter (·.Op = op)

/-- Each record goes on from where the one before it ended, from 0 on. -/
def Chained (log : List ElementOperation) (last : Nat) : Prop :=
  0 :: log.map (·.CurrentVersion) = log.map (·.LastVersion) ++ [(last : Int)]

/-- The records of new versions lead to the latest version, one version at a time, and those of
publications and rollbacks to the version in use. -/
structure Explains (log : List ElementOperation) (d : Option Document) : Prop where
  absent : d = none → log = []
  versions : Chained (ofKind .SET log) (d.elim 0 (·.latest))
  oneByOne : ∀ e ∈ ofKind .SET log, e.CurrentVersion = e.LastVersion + 1
  uses : Chained (ofKind .PUBLISH log) (d.elim 0 (·.inUse))

section Explain

variable {log : List ElementOperation} {n : ElementName} {ctx : Ctx}

theorem Chained.snoc {last : Nat} (h : Chained log last) {e : ElementOperation} {current : Nat}
    (hlast : e.LastVersion = last) (hcurrent : e.CurrentVersion = current) :
    Chained (log ++ [e]) current := by
  unfold Chained at *
  rw [List.map_append, List.map_append, ← List.cons_append, h, List.map_singleton,
    List.map_singleton, hlast, hcurrent]

theorem ofKind_snoc (op : ElementOperation_Op) (e : ElementOperation) :
    ofKind op (log ++ [e]) = ofKind op log ++ if e.Op = op then [e] else [] := by
  rw [ofKind, List.filter_append]
  by_cases hop : e.Op = op <;> simp [ofKind, hop]

/-- A new version. -/
theorem Explains.set {d : Option Document} (h : Explains log d) {d' : Document}
    {e : ElementOperation} (hop : e.Op = .SET) (hlast : e.LastVersion = d.elim 0 (·.latest))
    (hcurrent : e.CurrentVersion = d'.latest) (hlatest : d'.latest = d.elim 0 (·.latest) + 1)
    (hinUse : d'.inUse = d.elim 0 (·.inUse)) : Explains (log ++ [e]) (some d') where
  absent hnone := by cases hnone
  versions := by
    rw [ofKind_snoc, if_pos hop]
    exact h.versions.snoc hlast hcurrent
  oneByOne e' he' := by
    rw [ofKind_snoc, if_pos hop] at he'
    rcases List.mem_append.mp he' with he' | he'
    · exact h.oneByOne e' he'
    · cases List.mem_singleton.mp he'
      rw [hcurrent, hlatest, hlast]
      rfl
  uses := by
    rw [ofKind_snoc, if_neg (by rw [hop]; decide), List.append_nil]
    show Chained _ d'.inUse
    rw [hinUse]
    exact h.uses

/-- Another version in use. -/
theorem Explains.publish {d d' : Document} (h : Explains log (some d)) {e : ElementOperation}
    (hop : e.Op = .PUBLISH) (hlast : e.LastVersion = d.inUse) (hcurrent : e.CurrentVersion = d'.inUse)
    (hlatest : d'.latest = d.latest) : Explains (log ++ [e]) (some d') where
  absent hnone := by cases hnone
  versions := by
    rw [ofKind_snoc, if_neg (by rw [hop]; decide), List.append_nil]
    show Chained _ d'.latest
    rw [hlatest]
    exact h.versions
  oneByOne := by
    rw [ofKind_snoc, if_neg (by rw [hop]; decide), List.append_nil]
    exact h.oneByOne
  uses := by
    rw [ofKind_snoc, if_pos hop]
    exact h.uses.snoc hlast hcurrent

theorem enter_of_fresh {e : ElementOperation} (h : e.OperatedAt ∉ log.map (·.OperatedAt)) :
    enter log (some e) = log ++ [e] := by
  refine if_neg fun hany => h ?_
  obtain ⟨e', he', htime⟩ := List.any_eq_true.mp hany
  exact List.mem_map.mpr ⟨e', he', of_decide_eq_true htime⟩

/-- An operation at a time of its own. -/
theorem Explains.step {d : Option Document} (h : Explains log d) (op : Op)
    (hfresh : ctx.operatedAt ∉ log.map (·.OperatedAt)) :
    Explains (enter log (Document.entry n ctx d op)) (Document.step d op) := by
  cases happly : Document.apply d op with
  | none =>
    rw [Document.entry_of_refused happly, Document.step, happly]
    exact h
  | some d' =>
    have hentry := @Document.entry_of_applied n ctx op d (by rw [happly]; rfl)
    rw [hentry, Document.step, happly, Option.some_or]
    cases d with
    | none =>
      cases op with
      | create raw contentTyp =>
        cases happly
        rw [Document.recordOf, enter_of_fresh hfresh]
        exact h.set rfl rfl rfl rfl rfl
      | update raw => cases happly
      | publish version => cases happly
      | rollback version => cases happly
    | some d =>
      cases op with
      | create raw contentTyp => cases happly
      | update raw =>
        obtain ⟨-, -, hlatest, -, hinUse, -⟩ := Document.update_eq_some happly
        rw [Document.recordOf, enter_of_fresh hfresh]
        exact h.set rfl rfl (congrArg _ hlatest.symm) hlatest hinUse
      | rollback version =>
        obtain ⟨-, -, hrevisions, -, hinUse, -⟩ := Document.rollback_eq_some happly
        rw [Document.recordOf, enter_of_fresh hfresh]
        exact h.publish rfl rfl (congrArg _ hinUse.symm) (congrArg List.length hrevisions)
      | publish version =>
        rw [Document.apply] at happly
        by_cases hidle : d.target version.toNat = 0
        · rw [if_pos hidle] at happly
          cases happly
          rw [Document.recordOf, if_pos hidle]
          exact h
        · rw [if_neg hidle] at happly
          obtain ⟨-, -, hlatest, -, hinUse, -⟩ := Document.publish_eq_some happly
          rw [Document.recordOf, if_neg hidle, enter_of_fresh hfresh]
          exact h.publish rfl rfl (congrArg _ hinUse.symm) hlatest

end Explain

/-! ## The logs of journals -/

end Cassem.Coord
