import Cassem.Coord.DocumentStore

/-!
# The limit on values

The service refuses a value that is too long, and a request for keys that repeat or are too many.
As long as no record that an operation writes is over the limit, the storage keeps the documents
behind the limit as it does without it.
-/

namespace Cassem.Coord

open Lib Cassem.Concept
open KV (Bytes Store)

/-- The longest value that the service takes. -/
def maxValue : Nat := 262144

/-- The service takes the request. -/
def Limited (c : Codecs) : KVReq → Prop
  | .GetKV _ => True
  | .SetKV _ val _ => (c.marshal val).length ≤ maxValue

section Service

variable (c : Codecs) (md5 : Bytes → String) (violation : Bytes → String) (clock : Nat → Int)

/-- The service behind its rule on values; the text of a violation is the validator's. -/
def serveLimited : Nat × Store → (q : KVReq) → (Nat × Store) × q.Resp
  | s, .GetKV key => serveStore c md5 clock s (.GetKV key)
  | s, .SetKV key val overwrite =>
      if maxValue < (c.marshal val).length then
        (s, .error (.concept ⟨.invalidArgument, violation (c.marshal val)⟩))
      else serveStore c md5 clock s (.SetKV key val overwrite)

/-- The store once the operation has come to its end behind the rule. -/
def Operation.execLimited (store : Store) : Operation → Store
  | .element n call =>
      (Program.run (serveLimited c md5 violation clock) (0, store)
        (call.program md5 n.app n.env n.key)).1.2
  | .createApp md =>
      if maxValue < (c.app.marshal md).length then store
      else Operation.exec c md5 clock store (.createApp md)
  | op => op.exec c md5 clock store

theorem serveLimited_of_limited {q : KVReq} (hq : Limited c q) (s : Nat × Store) :
    serveLimited c md5 violation clock s q = serveStore c md5 clock s q := by
  cases q with
  | GetKV key => rfl
  | SetKV key val overwrite => exact if_neg (not_lt.mpr hq)

end Service

namespace Journal

def storeLimited (c : Codecs) (md5 : Bytes → String) (violation : Bytes → String) (ops : Journal) :
    Store :=
  ops.foldl (fun store o => o.1.execLimited c md5 violation o.2 store) Tree.empty

theorem storeLimited_snoc (c : Codecs) (md5 : Bytes → String) (violation : Bytes → String)
    (ops : Journal) (o : Operation × (Nat → Int)) :
    storeLimited c md5 violation (ops ++ [o]) =
      o.1.execLimited c md5 violation o.2 (storeLimited c md5 violation ops) := by
  rw [storeLimited, List.foldl_concat]
  rfl

end Journal

/-- No record that the call writes to the document is too long. -/
def Call.Within (c : Codecs) (md5 : Bytes → String) (n : ElementName) (d : Option Document)
    (call : Call) : Prop :=
  ∀ ws res, call.plan md5 n (Document.content md5 n d) = .ok (ws, res) →
    ∀ w ∈ ws, (c.marshal w.val).length ≤ maxValue

theorem Call.within_iff {c : Codecs} {md5 : Bytes → String} {n : ElementName} {d : Option Document}
    {call : Call} : call.Within c md5 n d ↔
      ∀ p ∈ (call.plan md5 n (Document.content md5 n d)).toOption, ∀ w ∈ p.1,
        (c.marshal w.val).length ≤ maxValue := by
  unfold Call.Within
  cases call.plan md5 n (Document.content md5 n d) with
  | error fault => simp [Except.toOption]
  | ok p =>
    obtain ⟨ws, res⟩ := p
    constructor
    · intro h p hp
      cases hp
      exact h ws res rfl
    · rintro h ws' res' ⟨⟩
      exact h (ws, res) rfl

instance (c : Codecs) (md5 : Bytes → String) (n : ElementName) (d : Option Document)
    (call : Call) : Decidable (call.Within c md5 n d) := decidable_of_iff _ Call.within_iff.symm

def Operation.Within (c : Codecs) (md5 : Bytes → String) (shelf : Shelf) : Operation → Prop
  | .element n call => call.Within c md5 n (shelf n)
  | .createApp md => (c.app.marshal md).length ≤ maxValue
  | _ => True

instance (c : Codecs) (md5 : Bytes → String) (shelf : Shelf) :
    (op : Operation) → Decidable (op.Within c md5 shelf)
  | .element n call => inferInstanceAs (Decidable (call.Within c md5 n (shelf n)))
  | .createApp md => inferInstanceAs (Decidable ((c.app.marshal md).length ≤ maxValue))
  | .deleteElement _ | .createEnvironment _ _ | .deleteEnvironment _ _ | .deleteApp _ =>
      isTrue trivial

/-- No operation writes a record that is too long. -/
def Journal.Within (c : Codecs) (md5 : Bytes → String) (ops : Journal) : Prop :=
  ∀ before o, before ++ [o] <+: ops → o.1.Within c md5 (Journal.shelf before)

/-- The service accepts the names and all records of the operations. -/
structure Journal.Accepted (c : Codecs) (md5 : Bytes → String) (ops : Journal) : Prop where
  valid : ops.Valid
  within : ops.Within c md5

theorem Journal.Accepted.of_snoc {c : Codecs} {md5 : Bytes → String} {ops : Journal}
    {o : Operation × (Nat → Int)} (h : Journal.Accepted c md5 (ops ++ [o])) :
    Journal.Accepted c md5 ops ∧ o.1.Valid ∧ o.1.Within c md5 (Journal.shelf ops) := by
  obtain ⟨hbefore, ho⟩ := h.valid.of_snoc
  refine ⟨⟨hbefore, fun before o' hpre => ?_⟩, ho, h.within ops o List.prefix_rfl⟩
  exact h.within before o' (hpre.trans (List.prefix_append _ _))

theorem Journal.Accepted.snoc {c : Codecs} {md5 : Bytes → String} {ops : Journal}
    {o : Operation × (Nat → Int)} (h : Journal.Accepted c md5 ops) (ho : o.1.Valid)
    (hwithin : o.1.Within c md5 (Journal.shelf ops)) : Journal.Accepted c md5 (ops ++ [o]) where
  valid x hx := by
    rcases List.mem_append.mp hx with hx | hx
    · exact h.valid x hx
    · exact List.mem_singleton.mp hx ▸ ho
  within before o' hpre := by
    rcases List.prefix_concat_iff.mp hpre with heq | hpre
    · obtain ⟨rfl, hlast⟩ := List.append_inj' heq rfl
      cases hlast
      exact hwithin
    · exact h.within before o' hpre

/-! ## Runs behind the limit -/

section Makes

variable {c : Codecs} {n : ElementName}

theorem makes_writeSeq {res : Option Element} {ws : List Write}
    (hws : ∀ w ∈ ws, (c.marshal w.val).length ≤ maxValue) (kv : KVState) :
    (writeSeq n res ws).Makes serveKV (Limited c) kv := by
  induction ws generalizing kv with
  | nil => trivial
  | cons w ws ih =>
    refine ⟨hws w List.mem_cons_self, ?_⟩
    cases (serveKV kv (.SetKV (w.target.key n) w.val w.overwrite)).2 with
    | error err => trivial
    | ok _ => exact ih (fun w' hw' => hws w' (List.mem_cons_of_mem _ hw')) _

theorem makes_program {md5 : Bytes → String} {d : Option Document} {call : Call}
    (hcall : call.Within c md5 n d) {kv : KVState} (hkv : stored n kv = Document.content md5 n d) :
    (call.program md5 n.app n.env n.key).Makes serveKV (Limited c) kv := by
  refine Program.makes_of_afterReads serveKV_read (fun q hq => ?_) _ ?_
  · cases q with
    | GetKV key => trivial
    | SetKV key val overwrite => cases hq
  · rw [afterReads_program, ← stored, hkv]
    cases hplan : call.plan md5 n (Document.content md5 n d) with
    | error fault => trivial
    | ok p => exact makes_writeSeq (hcall p.1 p.2 hplan) kv

end Makes

section Keeps

variable {c : Codecs} {md5 : Bytes → String} {violation : Bytes → String} {store : Store}
  {shelf : Shelf} {times : ElementName → List Int}

theorem run_limited (h : Keeps c md5 store shelf times) {n : ElementName} (hn : n.Valid)
    {call : Call} (hctx : call.ctx.Fits) (hcall : call.Within c md5 n (shelf n))
    (clock : Nat → Int) :
    Program.run (serveLimited c md5 violation clock) (0, store)
        (call.program md5 n.app n.env n.key) =
      Program.run (serveStore c md5 clock) (0, store) (call.program md5 n.app n.env n.key) := by
  obtain ⟨op, ctx⟩ := call
  have hfirst : Related c store (0, store) (c.records store) :=
    ⟨h.inOrder.laid, rfl, fun _ _ => rfl⟩
  have hserve : ∀ s kv q, Asked n q → Related c store s kv →
      (serveStore c md5 clock s q).2 = (serveKV kv q).2 ∧
        Related c store (serveStore c md5 clock s q).1 (serveKV kv q).1 :=
    fun s kv q hq h => serveStore_related md5 clock hn h hq
  refine Program.run_congr (P := Limited c)
    (fun s q hq => serveLimited_of_limited c md5 violation clock hq s) _ ?_
  exact Program.makes_related hserve _ (asks_program hctx md5 op) hfirst
    (makes_program hcall (h.content n hn))

theorem execLimited_eq (h : Keeps c md5 store shelf times) {op : Operation} (hop : op.Valid)
    (hwithin : op.Within c md5 shelf) (clock : Nat → Int) :
    op.execLimited c md5 violation clock store = op.exec c md5 clock store := by
  cases op with
  | element n call =>
    rw [Operation.execLimited, run_limited h hop.1 hop.2 hwithin clock]
    rfl
  | createApp md => exact if_neg (not_lt.mpr hwithin)
  | deleteElement n => rfl
  | createEnvironment app env => rfl
  | deleteEnvironment app env => rfl
  | deleteApp appId => rfl

/-- What is accepted leaves the same storage behind the limit as without it. -/
theorem storeLimited_eq (c : Codecs) (md5 : Bytes → String) (violation : Bytes → String)
    {ops : Journal} (hops : ops.Accepted c md5) :
    ops.storeLimited c md5 violation = ops.store c md5 := by
  induction ops using List.reverseRecOn with
  | nil => rfl
  | append_singleton ops o ih =>
    obtain ⟨hbefore, hop, hwithin⟩ := hops.of_snoc
    rw [Journal.storeLimited_snoc, Journal.store_snoc, ih hbefore]
    exact execLimited_eq (keeps_journal c md5 hbefore.valid) hop hwithin o.2

theorem keeps_limited (c : Codecs) (md5 : Bytes → String) (violation : Bytes → String)
    {ops : Journal} (hops : ops.Accepted c md5) :
    Keeps c md5 (ops.storeLimited c md5 violation) ops.shelf fun n => ops.recordTimes n := by
  rw [storeLimited_eq c md5 violation hops]
  exact keeps_journal c md5 hops.valid

/-! ## What is served -/

theorem asks_getElementWithVersion (c : Codecs) (n : ElementName) (version : Int) :
    (GetElementWithVersion n.app n.env n.key version).Asks (Limited c) := by
  rw [getElementWithVersion_program]
  refine ⟨trivial, fun r => ?_⟩
  match r with
  | .error err => trivial
  | .ok (.element ele) => trivial
  | .ok (.operation op) => trivial
  | .ok (.metadata md) =>
    simp only [readWithMetadata]
    generalize (if version ≤ 0 then md.UsingVersion else version) = v
    split
    · trivial
    · exact ⟨trivial, fun _ => trivial⟩

theorem read_limited (h : Keeps c md5 store shelf times) {n : ElementName} (hn : n.Valid)
    {version : Int} (hversion : version < 2 ^ 63) (clock : Nat → Int) :
    ∃ served, Program.run (serveLimited c md5 violation clock) (0, store)
        (GetElementWithVersion n.app n.env n.key version) =
      ((served, store), Document.read md5 n version (shelf n)) := by
  obtain ⟨served, hrun⟩ := read_run h hn hversion clock
  refine ⟨served, ?_⟩
  rw [← hrun]
  exact Program.run_congr (P := Limited c)
    (fun s q hq => serveLimited_of_limited c md5 violation clock hq s) _
    ((asks_getElementWithVersion c n version).makes _)

theorem call_limited_iff (h : Keeps c md5 store shelf times) {n : ElementName} (hn : n.Valid)
    {call : Call} (hctx : call.ctx.Fits) (htime : call.ctx.operatedAt ∉ times n)
    (hcall : call.Within c md5 n (shelf n)) (clock : Nat → Int) :
    (∃ res, (Program.run (serveLimited c md5 violation clock) (0, store)
        (call.program md5 n.app n.env n.key)).2 = .ok res) ↔
      (Document.apply (shelf n) call.op).isSome = true := by
  rw [run_limited h hn hctx hcall clock]
  exact call_ok_iff h hn hctx htime clock

end Keeps

/-- After any operations, a version is read as the document has it; clients are given of each element
what its document shows, if they ask for a hundred at most and for none twice; and a call succeeds
when the document accepts the operation. -/
theorem journal_served (c : Codecs) (md5 : Bytes → String) (violation : Bytes → String)
    {ops : Journal} (hops : ops.Accepted c md5) :
    (∀ n : ElementName, n.Valid → ∀ version : Int, version < 2 ^ 63 → ∀ clock, ∃ served,
      Program.run (serveLimited c md5 violation clock) (0, ops.storeLimited c md5 violation)
          (GetElementWithVersion n.app n.env n.key version) =
        ((served, ops.storeLimited c md5 violation), Document.read md5 n version (ops.shelf n))) ∧
    (∀ violationOfKeys app env keys, Adm.isIdentifier app = true → Adm.isIdentifier env = true →
      (∀ key ∈ keys, Adm.isIdentifier key = true) →
        GetElementsByKeys violationOfKeys (c.records (ops.storeLimited c md5 violation)) app env keys =
          if keys.Nodup ∧ keys.length ≤ 100 then .ok (keys.filterMap (ops.shelf.fetch md5 app env))
          else .error (.error (.text ("kvReadOnly.getElementsByKeys: " ++ violationOfKeys
            (keys.map fun key => WithMetadataSuffix (joint ["cassem/elements", app, env, key])))))) ∧
    ∀ n : ElementName, n.Valid → ∀ call : Call, call.ctx.Fits →
      call.ctx.operatedAt ∉ ops.recordTimes n → call.Within c md5 n (ops.shelf n) → ∀ clock,
        ((∃ res, (Program.run (serveLimited c md5 violation clock)
          (0, ops.storeLimited c md5 violation) (call.program md5 n.app n.env n.key)).2 = .ok res) ↔
            (Document.apply (ops.shelf n) call.op).isSome = true) := by
  have hkeeps := keeps_limited c md5 violation hops
  refine ⟨fun n hn version hversion clock => ?_, fun violationOfKeys app env keys happ henv hkeys => ?_,
    fun n hn call hctx htime hcall clock => ?_⟩
  · exact read_limited hkeeps hn hversion clock
  · exact fetch_keys hkeeps happ henv hkeys violationOfKeys
  · exact call_limited_iff hkeeps hn hctx htime hcall clock

theorem accepted_nil (c : Codecs) (md5 : Bytes → String) : Journal.Accepted c md5 [] where
  valid _ ho := absurd ho List.not_mem_nil
  within before o hpre := absurd (List.prefix_nil.mp hpre) (List.concat_ne_nil o before)

theorem edited_accepted : edited.Accepted codecs fun _ => "" := by
  have hvalid : ∀ call : Call, call.ctx.Fits →
      (Operation.element ⟨"a", "e", "k", by decide⟩ call).Valid := fun _ hctx => ⟨valid_k, hctx⟩
  refine (((accepted_nil _ _).snoc (hvalid _ ?_) ?_).snoc (hvalid _ ?_) ?_).snoc (hvalid _ ?_) ?_
  all_goals decide

theorem journal_served_edited :
    (∃ served, Program.run (serveLimited codecs (fun _ => "") (fun _ => "") fun _ => 0)
        (0, edited.storeLimited codecs (fun _ => "") fun _ => "")
        (GetElementWithVersion "a" "e" "k" 2) =
      ((served, edited.storeLimited codecs (fun _ => "") fun _ => ""), .ok
        { Raw := [121], Version := 2, Published := false
          Metadata := some ⟨"k", "a", "e", 2, 2, 1, "", 4⟩ })) ∧
    GetElementsByKeys (fun _ => "")
        (codecs.records (edited.storeLimited codecs (fun _ => "") fun _ => "")) "a" "e" ["k", "l"] =
      .ok [{ Raw := [120], Version := 1, Published := true
             Metadata := some ⟨"k", "a", "e", 2, 2, 1, "", 4⟩ }] ∧
    ((∃ res, (Program.run (serveLimited codecs (fun _ => "") (fun _ => "") fun _ => 0)
        (0, edited.storeLimited codecs (fun _ => "") fun _ => "")
        (Call.program (fun _ => "") "a" "e" "k" ⟨.update [122], ⟨none, 4⟩⟩)).2 = .ok res) ↔
      false = true) := by
  obtain ⟨hread, hfetch, hcall⟩ := journal_served codecs (fun _ => "") (fun _ => "") edited_accepted
  refine ⟨?_, ?_, ?_⟩
  · exact hread _ valid_k 2 (by decide) fun _ => 0
  · exact hfetch (fun _ => "") "a" "e" ["k", "l"] (by decide) (by decide) (by decide)
  · exact hcall _ valid_k ⟨.update [122], ⟨none, 4⟩⟩ ⟨by decide, by decide⟩ (by decide) (by decide)
      fun _ => 0

end Cassem.Coord
