import Cassem.Coord.PolicyRecord

/-!
# Which policies read back as they were saved
-/

namespace Cassem.Coord

open Lib Cassem.Concept

/-! ## The text of a saved rule -/

theorem rbacRole_of_prefix {role : String} (h : hasPrefix "role:" role = true) :
    rbacRole role = role := by
  have hnormal : normalizeRole role = role := by
    unfold normalizeRole
    split
    · next hdev =>
      rw [hdev] at h
      exact absurd h (by decide)
    · rfl
  unfold rbacRole
  rw [hnormal, if_pos h]

theorem hasPrefix_rbacRole (role : String) : hasPrefix "role:" (rbacRole role) = true := by
  unfold rbacRole
  dsimp only
  split
  · next h => exact h
  · unfold hasPrefix
    rw [String.toList_append, List.isPrefixOf_iff_prefix]
    exact List.prefix_append _ _

@[simp] theorem rbacRole_rbacRole (role : String) : rbacRole (rbacRole role) = rbacRole role :=
  rbacRole_of_prefix (hasPrefix_rbacRole role)

/-- The role of the rule, a subject of a policy or the second field of a grouping, is as it is
stored. -/
def Settled (ptype : String) (rule : Rule) : Prop :=
  (ptype = "p" ∧ rbacRole (rule.getD 0 "") = rule.getD 0 "") ∨
    (ptype = "g" ∧ rbacRole (rule.getD 1 "") = rule.getD 1 "")

theorem settled_g {account role : String} {domain : List String} :
    Settled "g" (account :: rbacRole role :: domain) := .inr ⟨rfl, rbacRole_rbacRole role⟩

theorem settled_p {rule : Rule} (h : rule ∈ builtinPolicies) : Settled "p" rule := by
  have hall : ∀ rule ∈ builtinPolicies, rbacRole (rule.getD 0 "") = rule.getD 0 "" := by
    decide +kernel
  exact .inl ⟨rfl, hall rule h⟩

/-- The columns of a rule. -/
def six (rule : Rule) : List String :=
  [rule.getD 0 "", rule.getD 1 "", rule.getD 2 "", rule.getD 3 "", rule.getD 4 "", rule.getD 5 ""]

/-- The columns that have something in them. -/
def cells (rule : Rule) : List String := (six rule).filter (· ≠ "")

theorem lineValues_saved {ptype : String} {rule : Rule} (h : Settled ptype rule) :
    lineValues (savePolicyLine ptype rule) = six rule := by
  unfold lineValues savePolicyLine six
  rcases h with ⟨rfl, hrole⟩ | ⟨rfl, hrole⟩
  · rw [List.getD_eq_getElem?_getD] at hrole
    simp [hrole]
  · rw [List.getD_eq_getElem?_getD] at hrole
    simp [hrole]

theorem cells_eq (rule : Rule) : cells rule = (rule.take 6).filter (· ≠ "") := by
  unfold cells six
  match rule with
  | [] => rfl
  | [_] => rfl
  | [_, _] => rfl
  | [_, _, _] => rfl
  | [_, _, _, _] => rfl
  | [_, _, _, _, _] => rfl
  | _ :: _ :: _ :: _ :: _ :: _ :: _ => rfl

theorem lineText_toList (policy : Casbin_Policy) :
    (lineText policy).toList = policy.Ptype.toList ++ CSV.following policyDialect
      (((lineValues policy).filter (· ≠ "")).map String.toList) := by
  unfold lineText
  generalize policy.Ptype = text
  induction lineValues policy generalizing text with
  | nil => rw [List.foldl_nil]; exact (List.append_nil _).symm
  | cons value values ih =>
    rw [List.foldl_cons, ih]
    by_cases hvalue : value = ""
    · simp [hvalue]
    · simp [hvalue, CSV.following, policyDialect]

/-- A rule is read from the text of its columns. -/
theorem read_saved {ptype : String} {rule : Rule} (h : Settled ptype rule) :
    policyDialect.read (lineText (savePolicyLine ptype rule)) =
      (policyDialect.fields (.plain ptype.toList) (CSV.following policyDialect
        ((cells rule).map String.toList))).map (·.map String.ofList) := by
  unfold CSV.Dialect.read
  rw [lineText_toList, lineValues_saved h]
  have hstart : ∀ cs : List Char, policyDialect.readRecord false (ptype.toList ++ cs) =
      policyDialect.fields (.plain ptype.toList) cs := by
    intro cs
    rcases h with ⟨rfl, -⟩ | ⟨rfl, -⟩
    · show policyDialect.readRecord false ('p' :: cs) = policyDialect.fields (.plain ['p']) cs
      rw [CSV.Dialect.readRecord, CSV.Dialect.fields]
      rfl
    · show policyDialect.readRecord false ('g' :: cs) = policyDialect.fields (.plain ['g']) cs
      rw [CSV.Dialect.readRecord, CSV.Dialect.fields]
      rfl
  rw [← hstart]
  rfl

/-! ## One rule, saved and read -/

/-- A rule that both readers can represent: it fits into the columns, none of its fields is empty
or begins with a space, and no character of it means something in the text. -/
structure PlainRule (rule : Rule) : Prop where
  length_le : rule.length ≤ 6
  ne_empty : ∀ field ∈ rule, field ≠ ""
  chars : ∀ field ∈ rule, ∀ ch ∈ field.toList, ch ≠ '"' ∧ ch ≠ ',' ∧ ch ≠ '\n'
  head : ∀ field ∈ rule, ∀ ch ∈ field.toList.head?, KV.isSpace ch = false
  last : ∀ field ∈ rule.getLast?, field.toList.getLast? ≠ some '\r'

theorem allPlain_rule {rule : Rule} : CSV.AllPlain policyDialect (rule.map String.toList) ↔
    (∀ field ∈ rule, field ≠ "") ∧
    (∀ field ∈ rule, ∀ ch ∈ field.toList, ch ≠ '"' ∧ ch ≠ ',' ∧ ch ≠ '\n') ∧
    (∀ field ∈ rule, ∀ ch ∈ field.toList.head?, KV.isSpace ch = false) ∧
    ∀ field ∈ rule.getLast?, field.toList.getLast? ≠ some '\r' := by
  show _ ↔ _ ∧ (∀ field ∈ rule, CSV.Inert policyDialect field.toList) ∧ _
  rw [CSV.allPlain_iff, List.getLast?_map]
  simp only [List.forall_mem_map, forall_and, Option.mem_map, ne_eq, String.toList_eq_nil_iff,
    forall_exists_index, and_imp, forall_apply_eq_imp_iff₂, and_assoc]
  rfl

theorem cells_of_plain {rule : Rule} (hlength : rule.length ≤ 6)
    (hne : ∀ field ∈ rule, field ≠ "") : cells rule = rule := by
  rw [cells_eq, List.take_of_length_le hlength]
  exact List.filter_eq_self.mpr fun field hfield => decide_eq_true (hne field hfield)

theorem cells_sublist (rule : Rule) : (cells rule).Sublist rule := by
  rw [cells_eq]
  exact List.filter_sublist.trans (List.take_sublist 6 rule)

theorem cells_ne_empty {rule : Rule} {field : String} (h : field ∈ cells rule) : field ≠ "" :=
  of_decide_eq_true (List.mem_filter.mp h).2

namespace Casbin

variable (c : Casbin)

/-- The rule that `loadPolicyLine` loads for a rule that was saved. -/
def reread (ptype : String) (rule : Rule) : Option Rule :=
  match policyDialect.read (lineText (savePolicyLine ptype rule)) with
  | .ok (_ :: fields) => if (c.invalid ptype fields).isNone then some fields else none
  | _ => none

variable {c} {ptype : String} {rule rule' : Rule}

theorem reread_eq_some (h : Settled ptype rule) : c.reread ptype rule = some rule' ↔
    c.invalid ptype rule' = none ∧
    policyDialect.fields (.plain ptype.toList)
      (CSV.following policyDialect ((cells rule).map String.toList)) =
        .ok (ptype.toList :: rule'.map String.toList) := by
  unfold reread
  rw [read_saved h]
  cases hfields : policyDialect.fields (.plain ptype.toList)
      (CSV.following policyDialect ((cells rule).map String.toList)) with
  | error err => simp [Except.map]
  | ok out =>
    obtain ⟨fields, rfl⟩ := CSV.fields_following_eq hfields
    have hback : fields.map String.ofList = rule' ↔ fields = rule'.map String.toList := by
      constructor
      · rintro rfl
        simp
      · rintro rfl
        simp
    simp only [Except.map, List.map_cons, Except.ok.injEq, List.cons.injEq, true_and, ← hback]
    constructor
    · intro hsome
      split at hsome
      · next hvalid =>
        cases hsome
        exact ⟨Option.isNone_iff_eq_none.mp hvalid, rfl⟩
      · cases hsome
    · rintro ⟨hvalid, rfl⟩
      rw [if_pos (Option.isNone_iff_eq_none.mpr hvalid)]

/-- A plain rule is loaded as it is. -/
theorem reread_plain (h : Settled ptype rule) (hplain : PlainRule rule)
    (hvalid : c.invalid ptype rule = none) : c.reread ptype rule = some rule := by
  rw [reread_eq_some h, cells_of_plain hplain.length_le hplain.ne_empty]
  exact ⟨hvalid, CSV.fields_following
    (allPlain_rule.mpr ⟨hplain.ne_empty, hplain.chars, hplain.head, hplain.last⟩)⟩

end Casbin

/-! ## Rules that a policy gives back

Rules that are read back as the same rules, in whatever order: no rule gains quotes, without
quotes none gains commas, and without both none gains weight. So none loses any of these.
-/

/-- The characters of a rule. -/
def chars (rule : Rule) : List Char := (rule.map String.toList).flatten

theorem chars_cells_sublist (rule : Rule) : (chars (cells rule)).Sublist (chars rule) :=
  ((cells_sublist rule).map _).flatten

theorem rule_toList_injective {rule rule' : Rule}
    (h : rule.map String.toList = rule'.map String.toList) : rule = rule' :=
  List.map_injective_iff.mpr (fun _ _ => String.toList_injective) h

section Permuted

variable {c : Casbin} {rules : List Rule} {rule rule' : Rule}

theorem quote_notMem (hsettled : ∀ rule ∈ rules, Settled "g" rule)
    (hperm : (rules.filterMap (c.reread "g")).Perm rules) (hrule : rule ∈ rules) :
    '"' ∉ chars (cells rule) := by
  have hquotes : ∀ a ∈ rules, ∀ b, c.reread "g" a = some b →
      (chars b).count '"' ≤ (chars (cells a)).count '"' ∧
      ((chars b).count '"' = (chars (cells a)).count '"' → '"' ∉ chars (cells a)) :=
    fun a ha b hb => CSV.quotes_le ((Casbin.reread_eq_some (hsettled a ha)).mp hb).2
  obtain ⟨rule', h⟩ := Count.exists_image hperm hrule
  have heq := Count.image_eq (fun rule => (chars rule).count '"') hperm
    (fun a ha b hb => (hquotes a ha b hb).1.trans ((chars_cells_sublist a).count_le '"')) hrule h
  obtain ⟨hle, hnone⟩ := hquotes rule hrule rule' h
  have hkept := (chars_cells_sublist rule).count_le '"'
  exact hnone (by omega)

theorem comma_notMem (hsettled : ∀ rule ∈ rules, Settled "g" rule)
    (hperm : (rules.filterMap (c.reread "g")).Perm rules) (hrule : rule ∈ rules) :
    ',' ∉ chars rule := by
  have hzero : ∀ a ∈ rules, ∀ b, c.reread "g" a = some b → (chars b).count ',' = 0 := by
    intro a ha b hb
    have hread := ((Casbin.reread_eq_some (hsettled a ha)).mp hb).2
    have hcomma : policyDialect.comma ∉ "g".toList := by decide
    exact List.count_eq_zero.mpr
      (CSV.commas_eq_zero hcomma hread (quote_notMem hsettled hperm ha))
  obtain ⟨rule', h⟩ := Count.exists_image hperm hrule
  have heq := Count.image_eq (fun rule => (chars rule).count ',') hperm
    (fun a ha b hb => (hzero a ha b hb).trans_le (Nat.zero_le _)) hrule h
  exact List.count_eq_zero.mp (heq.symm.trans (hzero rule hrule rule' h))

theorem reread_weight (hsettled : ∀ rule ∈ rules, Settled "g" rule)
    (hperm : (rules.filterMap (c.reread "g")).Perm rules) (hrule : rule ∈ rules)
    (h : c.reread "g" rule = some rule') :
    CSV.weight (rule'.map String.toList) ≤ CSV.weight ((cells rule).map String.toList) ∧
      (CSV.weight (rule'.map String.toList) = CSV.weight ((cells rule).map String.toList) →
        CSV.AllPlain policyDialect ((cells rule).map String.toList)) := by
  have hinert : ∀ v ∈ (cells rule).map String.toList,
      v ≠ [] ∧ ∀ ch ∈ v, ch ≠ '"' ∧ ch ≠ policyDialect.comma := by
    intro v hv
    obtain ⟨field, hfield, heq⟩ := List.mem_map.mp hv
    refine ⟨fun hnil => cells_ne_empty hfield (String.toList_eq_nil_iff.mp (heq.trans hnil)), ?_⟩
    intro ch hch
    have hmem : ch ∈ chars (cells rule) := List.mem_flatten_of_mem hv hch
    constructor
    · intro hquote
      exact quote_notMem hsettled hperm hrule (hquote ▸ hmem)
    · intro (hcomma : ch = ',')
      exact comma_notMem hsettled hperm hrule ((chars_cells_sublist rule).subset (hcomma ▸ hmem))
  obtain ⟨hle, hplain⟩ :=
    CSV.weight_le ((Casbin.reread_eq_some (hsettled rule hrule)).mp h).2 hinert
  rw [CSV.weight_cons, CSV.weight_cons] at hle hplain
  exact ⟨by omega, fun heq => hplain (by omega)⟩

/-- Each of the rules is plain and taken by casbin. -/
theorem plain_of_perm (hsettled : ∀ rule ∈ rules, Settled "g" rule)
    (hperm : (rules.filterMap (c.reread "g")).Perm rules) (hrule : rule ∈ rules) :
    PlainRule rule ∧ c.invalid "g" rule = none := by
  obtain ⟨rule', h⟩ := Count.exists_image hperm hrule
  have hsublist (a : Rule) : ((cells a).map String.toList).Sublist (a.map String.toList) :=
    (cells_sublist a).map _
  have heq := Count.image_eq (fun rule => CSV.weight (rule.map String.toList)) hperm
    (fun a ha b hb => (reread_weight hsettled hperm ha hb).1.trans
      (CSV.weight_le_of_sublist (hsublist a))) hrule h
  obtain ⟨hle, hplain⟩ := reread_weight hsettled hperm hrule h
  have hkept := CSV.weight_le_of_sublist (hsublist rule)
  have hcells : cells rule = rule := by
    have hsame := CSV.eq_of_sublist (hsublist rule) (by omega)
    exact rule_toList_injective hsame
  have hall := hplain (by omega)
  obtain ⟨hvalid, hread⟩ := (Casbin.reread_eq_some (hsettled rule hrule)).mp h
  have hself := hread.symm.trans (CSV.fields_following hall)
  rw [hcells, Except.ok.injEq, List.cons.injEq] at hself
  have hrule' : rule' = rule := rule_toList_injective hself.2
  rw [hcells] at hall
  obtain ⟨hne, hchars, hhead, hlast⟩ := allPlain_rule.mp hall
  have hlength : rule.length ≤ 6 := by
    rw [← hcells, cells_eq]
    exact (List.length_filter_le _ _).trans (List.length_take_le 6 rule)
  exact ⟨⟨hlength, hne, hchars, hhead, hlast⟩, hrule' ▸ hvalid⟩

end Permuted

/-! ## A whole record -/

/-- The rule is added to its section. -/
def Model.load (ptype : String) (m : Model) (rule : Rule) : Model :=
  if ptype = "p" then (m.AddPolicy rule).1 else (m.AddRoleForUser rule none).1

section Load

variable {c : Casbin} {ptype : String} {rule : Rule} {rules : List Rule} {m : Model}

theorem LoadPolicyArray_eq (hptype : ptype = "p" ∨ ptype = "g") (fields : Rule) :
    c.LoadPolicyArray m (ptype :: fields) =
      match c.invalid ptype fields with
      | some err => .error err
      | none => .ok (m.load ptype fields) := by
  rcases hptype with rfl | rfl <;> rfl

theorem Settled.ptype_eq (h : Settled ptype rule) : ptype = "p" ∨ ptype = "g" :=
  h.imp And.left And.left

theorem loadPolicyLine_saved (h : Settled ptype rule) :
    c.loadPolicyLine (savePolicyLine ptype rule) m =
      ((c.reread ptype rule).map (m.load ptype)).getD m := by
  have hline : ¬ (lineText (savePolicyLine ptype rule) = "" ∨
      hasPrefix "#" (lineText (savePolicyLine ptype rule)) = true) := by
    unfold hasPrefix
    rw [← String.toList_eq_nil_iff, lineText_toList]
    rcases h.ptype_eq with rfl | rfl <;> simp [savePolicyLine]
  unfold Casbin.loadPolicyLine Casbin.LoadPolicyLine Casbin.reread
  rw [if_neg hline, read_saved h]
  cases hfields : policyDialect.fields (.plain ptype.toList)
      (CSV.following policyDialect ((cells rule).map String.toList)) with
  | error err => rfl
  | ok out =>
    obtain ⟨fields, rfl⟩ := CSV.fields_following_eq hfields
    simp only [Except.map, List.map_cons, String.ofList_toList]
    rw [LoadPolicyArray_eq h.ptype_eq]
    cases c.invalid ptype (fields.map String.ofList) with
    | some err => rfl
    | none => rfl

theorem loadLines_saved (h : ∀ rule ∈ rules, Settled ptype rule) :
    c.loadLines m (rules.map (savePolicyLine ptype)) =
      (rules.filterMap (c.reread ptype)).foldl (Model.load ptype) m := by
  unfold Casbin.loadLines
  induction rules generalizing m with
  | nil => rfl
  | cons rule rules ih =>
    rw [List.map_cons, List.foldl_cons, loadPolicyLine_saved (h rule List.mem_cons_self),
      ih fun r hr => h r (List.mem_cons_of_mem _ hr), List.filterMap_cons]
    cases c.reread ptype rule with
    | none => rfl
    | some rule' => rfl

theorem load_p (m : Model) (rules : List Rule) :
    rules.foldl (Model.load "p") m = { m with p := rules.foldl Fold.addNew m.p } := by
  induction rules generalizing m with
  | nil => rfl
  | cons rule rules ih =>
    have hload : m.load "p" rule = { m with p := Fold.addNew m.p rule } :=
      AddPolicy_model m rule
    rw [List.foldl_cons, List.foldl_cons, hload, ih]

theorem load_g (m : Model) (rules : List Rule) :
    rules.foldl (Model.load "g") m = { m with g := rules.foldl Fold.addNew m.g } := by
  induction rules generalizing m with
  | nil => rfl
  | cons rule rules ih =>
    have hload : m.load "g" rule = { m with g := Fold.addNew m.g rule } :=
      AddRoleForUser_model m rule none
    rw [List.foldl_cons, List.foldl_cons, hload, ih]

/-- What `loadPolicyLine` makes of a saved policy. -/
theorem loadLines_policyLines (hp : ∀ rule ∈ m.p, Settled "p" rule)
    (hg : ∀ rule ∈ m.g, Settled "g" rule) :
    c.loadLines {} (policyLines m) =
      ⟨(m.p.filterMap (c.reread "p")).foldl Fold.addNew [],
        (m.g.filterMap (c.reread "g")).foldl Fold.addNew []⟩ := by
  have happend : c.loadLines {} (policyLines m) =
      c.loadLines (c.loadLines {} (m.p.map (savePolicyLine "p"))) (m.g.map (savePolicyLine "g")) :=
    List.foldl_append
  rw [happend, loadLines_saved hp, loadLines_saved hg, load_p, load_g]

theorem six_eq (h : rule.length ≤ 6) :
    six rule = rule ++ List.replicate (6 - rule.length) "" := by
  match rule, h with
  | [], _ => rfl
  | [_], _ => rfl
  | [_, _], _ => rfl
  | [_, _, _], _ => rfl
  | [_, _, _, _], _ => rfl
  | [_, _, _, _, _], _ => rfl
  | [_, _, _, _, _, _], _ => rfl

/-- Only the columns that the rule does not fill are empty at the end. -/
theorem six_trimmed (h : PlainRule rule) : (six rule).rdropWhile (· = "") = rule := by
  have hdrop : ∀ n, (rule ++ List.replicate n "").rdropWhile (· = "") =
      rule.rdropWhile (· = "") := by
    intro n
    induction n with
    | zero => rw [List.replicate_zero, List.append_nil]
    | succ n ih =>
      rw [List.replicate_succ', ← List.append_assoc, List.rdropWhile_concat_pos _ _ _ (by simp), ih]
  rw [six_eq h.length_le, hdrop]
  exact List.rdropWhile_eq_self_iff.mpr fun hne => by
    simpa using h.ne_empty _ (List.getLast_mem hne)

theorem columns_saved (h : Settled ptype rule) (hplain : PlainRule rule) :
    columns (savePolicyLine ptype rule) = .ok (ptype :: rule) := by
  unfold columns savePolicyLine
  rcases h with ⟨rfl, hrole⟩ | ⟨rfl, hrole⟩
  · rw [if_pos rfl]
    dsimp only
    rw [hrole]
    exact congrArg (fun cs => Except.ok ("p" :: cs)) (six_trimmed hplain)
  · have hptype : "g" ≠ "p" := by decide
    rw [if_neg hptype, if_pos rfl]
    dsimp only
    rw [hrole]
    exact congrArg (fun cs => Except.ok ("g" :: cs)) (six_trimmed hplain)

theorem currentRules_saved (hsettled : ∀ rule ∈ rules, Settled ptype rule)
    (hrules : ∀ rule ∈ rules, PlainRule rule ∧ c.invalid ptype rule = none)
    (rest : List Casbin_Policy) : c.currentRules m (rules.map (savePolicyLine ptype) ++ rest) =
      c.currentRules (rules.foldl (Model.load ptype) m) rest := by
  induction rules generalizing m with
  | nil => rfl
  | cons rule rules ih =>
    obtain ⟨hplain, hvalid⟩ := hrules rule List.mem_cons_self
    have hrule := hsettled rule List.mem_cons_self
    rw [List.map_cons, List.cons_append, Casbin.currentRules, columns_saved hrule hplain]
    show ((c.LoadPolicyArray m (ptype :: rule)).mapError _ >>= fun m => _) = _
    rw [LoadPolicyArray_eq hrule.ptype_eq, hvalid]
    exact ih (fun r hr => hsettled r (List.mem_cons_of_mem _ hr))
      fun r hr => hrules r (List.mem_cons_of_mem _ hr)

end Load

/-! ## Which policies come back -/

/-- The same policies and the same groupings, in whatever order. -/
def SameRules (m m' : Model) : Prop :=
  (∀ rule, rule ∈ m.p ↔ rule ∈ m'.p) ∧ ∀ rule, rule ∈ m.g ↔ rule ∈ m'.g

/-- Both readers make of the saved record the rules that were saved. -/
def RoundTrips (c : Casbin) (m : Model) : Prop :=
  SameRules (c.loadLines {} (policyLines m)) m ∧
    ∃ m', c.currentPolicy (.ok (some (policyLines m))) = .ok m' ∧ SameRules m' m

/-- Every grouping is plain, casbin takes every rule and builds the role links. -/
structure Readable (c : Casbin) (m : Model) : Prop where
  policies : ∀ rule ∈ m.p, c.invalid "p" rule = none
  groupings : ∀ rule ∈ m.g, PlainRule rule ∧ c.invalid "g" rule = none
  links : c.links m = none

section RoundTrip

variable {c : Casbin} {m : Model} {rule : Rule}

/-- A character that means nothing in the text, wherever it stands. -/
def inertChar (ch : Char) : Bool :=
  ch ≠ '"' && ch ≠ ',' && ch ≠ '\n' && ch ≠ '\r' && !KV.isSpace ch

theorem plain_of_inert (hlength : rule.length ≤ 6) (hne : ∀ field ∈ rule, field ≠ "")
    (hinert : ∀ field ∈ rule, field.toList.all inertChar = true) : PlainRule rule := by
  have hchar : ∀ field ∈ rule, ∀ ch ∈ field.toList,
      (((ch ≠ '"' ∧ ch ≠ ',') ∧ ch ≠ '\n') ∧ ch ≠ '\r') ∧ KV.isSpace ch = false := by
    intro field hfield ch hch
    simpa [inertChar] using List.all_eq_true.mp (hinert field hfield) ch hch
  refine ⟨hlength, hne, fun field hfield ch hch => ?_, fun field hfield ch hch => ?_,
    fun field hfield hcr => ?_⟩
  · obtain ⟨⟨⟨⟨hquote, hcomma⟩, hnl⟩, -⟩, -⟩ := hchar field hfield ch hch
    exact ⟨hquote, hcomma, hnl⟩
  · exact (hchar field hfield ch (List.mem_of_mem_head? hch)).2
  · exact (hchar field (List.mem_of_mem_getLast? hfield) _ (List.mem_of_mem_getLast? hcr)).1.2 rfl

theorem builtin_plain (h : rule ∈ builtinPolicies) : PlainRule rule := by
  have hlength : ∀ rule ∈ builtinPolicies, rule.length ≤ 6 := by decide +kernel
  have hne : ∀ rule ∈ builtinPolicies, ∀ field ∈ rule, field ≠ "" := by decide +kernel
  have hinert : ∀ rule ∈ builtinPolicies, ∀ field ∈ rule, field.toList.all inertChar = true := by
    decide +kernel
  exact plain_of_inert (hlength rule h) (hne rule h) (hinert rule h)

theorem Model.Filed.settled_g (h : m.Filed) : ∀ rule ∈ m.g, Settled "g" rule := by
  intro rule hrule
  obtain ⟨account, role, domain, rfl⟩ := h.g_role rule hrule
  exact Coord.settled_g

theorem Model.Filed.settled_p (h : m.Filed) : ∀ rule ∈ m.p, Settled "p" rule :=
  fun rule hrule => Coord.settled_p (h.p_builtin rule hrule)

/-- What both readers read of a policy of plain rules that casbin takes. -/
theorem read_of_plain (hm : m.Filed) (hpolicies : ∀ rule ∈ m.p, c.invalid "p" rule = none)
    (hgroupings : ∀ rule ∈ m.g, PlainRule rule ∧ c.invalid "g" rule = none) :
    c.loadLines {} (policyLines m) = m ∧ c.currentRules {} (policyLines m) = .ok m := by
  have hplain : ∀ rule ∈ m.p, PlainRule rule ∧ c.invalid "p" rule = none := fun rule hrule =>
    ⟨builtin_plain (hm.p_builtin rule hrule), hpolicies rule hrule⟩
  have hmap : ∀ {ptype : String} {rules : List Rule}, (∀ rule ∈ rules, Settled ptype rule) →
      (∀ rule ∈ rules, PlainRule rule ∧ c.invalid ptype rule = none) →
      rules.filterMap (c.reread ptype) = rules := by
    intro ptype rules hsettled hrules
    have hsome := List.filterMap_congr fun rule hrule =>
      Casbin.reread_plain (hsettled rule hrule) (hrules rule hrule).1 (hrules rule hrule).2
    exact hsome.trans List.filterMap_some
  have hp : m.p.foldl Fold.addNew [] = m.p := Fold.foldl_addNew_of_nodup hm.p_nodup
  have hg : m.g.foldl Fold.addNew [] = m.g := Fold.foldl_addNew_of_nodup hm.g_nodup
  constructor
  · rw [loadLines_policyLines hm.settled_p hm.settled_g, hmap hm.settled_p hplain,
      hmap hm.settled_g hgroupings, hp, hg]
  · have hrest := currentRules_saved (m := ⟨m.p, []⟩) hm.settled_g hgroupings []
    rw [List.append_nil] at hrest
    unfold policyLines
    rw [currentRules_saved hm.settled_p hplain, load_p, hp, hrest, load_g, hg]
    rfl

theorem currentPolicy_of_rules {lines : List Casbin_Policy} {m' : Model}
    (h : c.currentRules {} lines = .ok m) :
    c.currentPolicy (.ok (some lines)) = .ok m' ↔ c.links m = none ∧ m' = m := by
  have hpolicy : c.currentPolicy (.ok (some lines)) =
      match c.links m with
      | some _ => .error (.errorf "AuthorizeToken.roleLinks: " (.concept Err_INTERNAL))
      | none => .ok m := by
    show (c.currentRules {} lines >>= _) = _
    rw [h]
    rfl
  rw [hpolicy]
  cases c.links m with
  | some err => simp
  | none => simp [eq_comm]

/-- A policy that changes to the empty one can build reads back exactly when it is readable. -/
theorem roundTrips_iff (c : Casbin) (changes : List Change) :
    RoundTrips c (build changes).model ↔ Readable c (build changes).model := by
  have hm := filed_build changes
  generalize (build changes).model = m at hm ⊢
  constructor
  · rintro ⟨⟨hp, hg⟩, m', hread, -⟩
    rw [loadLines_policyLines hm.settled_p hm.settled_g] at hp hg
    simp only [Fold.mem_foldl_addNew, List.not_mem_nil, false_or] at hp hg
    have hpolicies : ∀ rule ∈ m.p, c.invalid "p" rule = none := by
      intro rule hrule
      obtain ⟨saved, hsaved, hreread⟩ := List.mem_filterMap.mp ((hp rule).mpr hrule)
      exact ((Casbin.reread_eq_some (hm.settled_p saved hsaved)).mp hreread).1
    have hperm : (m.g.filterMap (c.reread "g")).Perm m.g := by
      have hsubperm := List.subperm_of_subset hm.g_nodup fun rule hrule => (hg rule).mpr hrule
      exact (hsubperm.perm_of_length_le (List.length_filterMap_le _ _)).symm
    have hgroupings : ∀ rule ∈ m.g, PlainRule rule ∧ c.invalid "g" rule = none :=
      fun rule hrule => plain_of_perm hm.settled_g hperm hrule
    have hrules := (read_of_plain hm hpolicies hgroupings).2
    exact ⟨hpolicies, hgroupings, ((currentPolicy_of_rules hrules).mp hread).1⟩
  · intro h
    obtain ⟨hload, hrules⟩ := read_of_plain hm h.policies h.groupings
    have hsame : SameRules m m := ⟨fun _ => Iff.rfl, fun _ => Iff.rfl⟩
    refine ⟨?_, m, (currentPolicy_of_rules hrules).mpr ⟨h.links, rfl⟩, hsame⟩
    rw [hload]
    exact hsame

end RoundTrip

/-! ## A domain with a comma -/

/-- Casbin, of the sizes of the rules. -/
def sized : Casbin where
  invalid ptype rule :=
    if ptype = "p" ∧ rule.length ≠ 4 ∨ ptype = "g" ∧ rule.length < 3 then
      some (.text "invalid policy rule size")
    else none
  links _ := none

def commaGrant : Change :=
  .assignRole "bob@x.io" "visitor" false ["shop/prod,eu"] none .done

/-- The grant succeeds, and one reader finds two fields where the other finds one. -/
theorem comma_not_roundTrips :
    (AssignRole Acl.empty "bob@x.io" "visitor" ["shop/prod,eu"] none .done).2 = .ok () ∧
    (sized.loadLines {} (build [commaGrant]).stored).g =
      [["bob@x.io", "role:visitor", "shop/prod", "eu"]] ∧
    (sized.currentPolicy (.ok (some (build [commaGrant]).stored))).map Model.g =
      .ok [["bob@x.io", "role:visitor", "shop/prod,eu"]] ∧
    ¬ ∀ changes, RoundTrips sized (build changes).model := by
  refine ⟨rfl, by decide +kernel, by rfl, fun h => ?_⟩
  have hplain := ((roundTrips_iff sized [commaGrant]).mp (h _)).groupings
    ["bob@x.io", "role:visitor", "shop/prod,eu"] (by decide)
  have hcomma := hplain.1.chars "shop/prod,eu" (by decide) ',' (by decide)
  exact hcomma.2.1 rfl

end Cassem.Coord
