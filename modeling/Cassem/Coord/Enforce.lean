import Cassem.Coord.RoleDomains
import Cassem.Coord.RoleMerge
import Cassem.KV.WatchStream

/-!
# What the policies allow

The matcher of `_casbinModel` over the policies that `AutoMigrate` puts in place. No call adds
another policy, and neither a save nor a load loses one, so what a process allows is a table of
roles, objects and actions, whatever the processes have done to the record before. Role links are
those that casbin has at the time.
-/

namespace Cassem.Coord

open Lib Cassem.Concept

/-! ## The matcher -/

/-- `r = sub, dom, obj, act`. -/
structure Access where
  sub : String
  dom : String
  obj : String
  act : String
  deriving DecidableEq, Repr

/-- `g` of the matcher. -/
abbrev RoleLinks := (name role domain : String) → Bool

def matchers (g : RoleLinks) (r : Access) : Rule → Bool
  | [sub, dom, obj, act] =>
      g r.sub sub r.dom && (dom = "*" || r.dom = dom) && (obj = "*" || r.obj = obj) &&
        (act = "*" || r.act = act)
  | _ => false

/-- An enforcer of casbin, of its rules and the links between them. -/
abbrev Enforce := Model → RoleLinks → Access → Except GoError Bool

/-- What casbin documents of the model: with policies that are all of the size of their
definition, a request is allowed that one of them matches. -/
def Documented (enforce : Enforce) : Prop :=
  ∀ (m : Model) (g : RoleLinks) (r : Access), m.p ≠ [] → (∀ rule ∈ m.p, rule.length = 4) →
    enforce m g r = .ok (m.p.any (matchers g r))

/-- What the documentation of the roles says. -/
def Permits (role obj act : String) : Prop :=
  role = "superadmin" ∨
  role = "admin" ∧ (act = "r" ∨ act = "w") ∨
  role = "appowner" ∧ (obj = "app" ∧ (act = "r" ∨ act = "w") ∨
    obj = "elem" ∧ (act = "r" ∨ act = "w" ∨ act = "d" ∨ act = "p")) ∨
  role = "appdeveloper" ∧ (obj = "app" ∧ act = "r" ∨ obj = "elem" ∧ (act = "r" ∨ act = "w")) ∨
  role = "visitor" ∧ (obj = "app" ∨ obj = "elem") ∧ act = "r"

instance (role obj act : String) : Decidable (Permits role obj act) :=
  inferInstanceAs (Decidable (_ ∨ _ ∧ _ ∨ _ ∧ _ ∨ _ ∧ _ ∨ _ ∧ _ ∧ _))

/-- The roles of the built-in permissions, with the objects and the actions. -/
def permissions : List (String × String × String) :=
  [("superadmin", "*", "*"), ("admin", "*", "r"), ("admin", "*", "w"), ("appowner", "app", "r"),
   ("appowner", "app", "w"), ("appowner", "elem", "r"), ("appowner", "elem", "w"),
   ("appowner", "elem", "d"), ("appowner", "elem", "p"), ("appdeveloper", "app", "r"),
   ("appdeveloper", "elem", "r"), ("appdeveloper", "elem", "w"), ("visitor", "app", "r"),
   ("visitor", "elem", "r")]

theorem builtinPolicies_eq : builtinPolicies =
    permissions.map fun p => ["role:" ++ p.1, "*", p.2.1, p.2.2] := by
  decide +kernel

theorem permits_iff {role obj act : String} : Permits role obj act ↔
    ∃ p ∈ permissions, p.1 = role ∧ (p.2.1 = "*" ∨ obj = p.2.1) ∧ (p.2.2 = "*" ∨ act = p.2.2) := by
  unfold Permits permissions
  simp only [List.mem_cons, List.not_mem_nil, or_false, exists_eq_or_imp, exists_eq_left]
  constructor
  · rintro (rfl | ⟨rfl, h⟩ | ⟨rfl, h⟩ | ⟨rfl, h⟩ | ⟨rfl, h⟩)
    all_goals simp
    all_goals grind
  · grind

theorem matchers_builtin {g : RoleLinks} {r : Access} :
    (∃ rule ∈ builtinPolicies, matchers g r rule = true) ↔
      ∃ role, g r.sub ("role:" ++ role) r.dom = true ∧ Permits role r.obj r.act := by
  rw [builtinPolicies_eq]
  simp only [List.mem_map, permits_iff]
  constructor
  · rintro ⟨rule, ⟨p, hp, rfl⟩, hmatch⟩
    simp only [matchers, Bool.and_eq_true, Bool.or_eq_true, decide_eq_true_eq] at hmatch
    obtain ⟨⟨⟨hlink, -⟩, hobj⟩, hact⟩ := hmatch
    exact ⟨p.1, hlink, p, hp, rfl, hobj, hact⟩
  · rintro ⟨role, hlink, p, hp, rfl, hobj, hact⟩
    refine ⟨_, ⟨p, hp, rfl⟩, ?_⟩
    simp only [matchers, Bool.and_eq_true, Bool.or_eq_true, decide_eq_true_eq]
    exact ⟨⟨⟨hlink, Or.inl trivial⟩, hobj⟩, hact⟩

/-! ## The built-in policies stay -/

/-- The policies in memory are the built-in ones. -/
def Model.Builtin (m : Model) : Prop := ∀ rule, rule ∈ m.p ↔ rule ∈ builtinPolicies

/-- The policies of the record are built-in ones, and all of them once it has been written. -/
structure Stocked (lines : List Casbin_Policy) : Prop where
  line : ∀ line ∈ lines, line.Ptype = "g" ∨ ∃ rule ∈ builtinPolicies, line = savePolicyLine "p" rule
  all : lines ≠ [] → ∀ rule ∈ builtinPolicies, savePolicyLine "p" rule ∈ lines

theorem stocked_nil : Stocked [] where
  line _ hline := absurd hline List.not_mem_nil
  all hne := absurd rfl hne

theorem stocked_policyLines {m : Model} (hm : m.Builtin) : Stocked (policyLines m) where
  line line hline := by
    rcases List.mem_append.mp hline with hp | hg
    · obtain ⟨rule, hrule, rfl⟩ := List.mem_map.mp hp
      exact Or.inr ⟨rule, (hm rule).mp hrule, rfl⟩
    · obtain ⟨rule, -, rfl⟩ := List.mem_map.mp hg
      exact Or.inl rfl
  all _ rule hrule := List.mem_append_left _ (List.mem_map_of_mem ((hm rule).mpr hrule))

/-- A grouping line is read as a grouping, if it is read at all. -/
theorem read_g {policy : Casbin_Policy} (h : policy.Ptype = "g") {tokens : List String}
    (hread : policyDialect.read (lineText policy) = .ok tokens) :
    ∃ fields, tokens = "g" :: fields := by
  have hstart : ∀ cs : List Char, policyDialect.readRecord false ('g' :: cs) =
      policyDialect.fields (.plain ['g']) cs := by
    intro cs
    rw [CSV.Dialect.readRecord, CSV.Dialect.fields]
    rfl
  unfold CSV.Dialect.read at hread
  rw [lineText_toList, h] at hread
  cases hout : policyDialect.readRecord false ('g' :: CSV.following policyDialect
      (((lineValues policy).filter (· ≠ "")).map String.toList)) with
  | error err =>
    rw [show "g".toList = ['g'] from rfl, List.singleton_append, hout] at hread
    cases hread
  | ok out =>
    rw [show "g".toList = ['g'] from rfl, List.singleton_append, hout] at hread
    cases hread
    obtain ⟨rest, rfl⟩ := CSV.fields_following_eq ((hstart _).symm.trans hout)
    exact ⟨rest.map String.ofList, rfl⟩

theorem loadPolicyLine_g (c : Casbin) {policy : Casbin_Policy} (h : policy.Ptype = "g")
    (m : Model) : (c.loadPolicyLine policy m).p = m.p := by
  unfold Casbin.loadPolicyLine Casbin.LoadPolicyLine
  split
  · rfl
  · split
    · rfl
    · next tokens hread =>
      obtain ⟨fields, rfl⟩ := read_g h hread
      rw [LoadPolicyArray_eq (Or.inr rfl)]
      cases c.invalid "g" fields with
      | some err => rfl
      | none =>
        show (m.AddRoleForUser fields none).1.p = m.p
        rw [AddRoleForUser_model]

theorem reread_builtin {c : Casbin} {rule rule' : Rule} (hrule : rule ∈ builtinPolicies)
    (h : c.reread "p" rule = some rule') : rule' = rule := by
  have hplain := builtin_plain hrule
  have hback := ((Casbin.reread_eq_some (settled_p hrule)).mp h).2
  rw [cells_of_plain hplain.length_le hplain.ne_empty, CSV.fields_following
    (allPlain_rule.mpr ⟨hplain.ne_empty, hplain.chars, hplain.head, hplain.last⟩)] at hback
  exact (rule_toList_injective (List.cons.inj (Except.ok.inj hback)).2).symm

/-- A load brings built-in policies only, though perhaps not all of them. -/
theorem loadLines_stocked (c : Casbin) {lines : List Casbin_Policy} (h : Stocked lines) :
    ∀ rule ∈ (c.loadLines {} lines).p, rule ∈ builtinPolicies := by
  refine List.foldlRecOn (motive := fun m : Model => ∀ rule ∈ m.p, rule ∈ builtinPolicies)
    lines _ (fun rule hrule => absurd hrule List.not_mem_nil) ?_
  intro m hm line hline
  rcases h.line line hline with hg | ⟨rule, hrule, rfl⟩
  · rwa [loadPolicyLine_g c hg]
  · rw [loadPolicyLine_saved (settled_p hrule)]
    cases hread : c.reread "p" rule with
    | none => exact hm
    | some rule' =>
      cases reread_builtin hrule hread
      show ∀ r ∈ (m.AddPolicy rule).1.p, _
      rw [AddPolicy_model]
      intro r hr
      rcases Fold.mem_addNew.mp hr with hr | rfl
      · exact hm r hr
      · exact hrule

/-- `AutoMigrate` brings the others. -/
theorem mem_addBuiltin {m : Model} {rule : Rule} :
    rule ∈ (addBuiltin m).1.p ↔ rule ∈ m.p ∨ rule ∈ builtinPolicies := by
  unfold addBuiltin
  generalize builtinPolicies = rules, false = changed
  induction rules generalizing m changed with
  | nil => simp
  | cons r rules ih =>
    rw [List.foldl_cons]
    dsimp only
    rw [ih, AddPolicy_model, List.mem_cons, ← or_assoc]
    exact or_congr_left Fold.mem_addNew

theorem builtin_addBuiltin {m : Model} (h : ∀ rule ∈ m.p, rule ∈ builtinPolicies) :
    (addBuiltin m).1.Builtin := by
  intro rule
  rw [mem_addBuiltin]
  exact ⟨fun hrule => hrule.elim (h rule) id, Or.inr⟩

/-- A line read for a token adds its own rule, to the section of its type. -/
theorem currentRules_cons {c : Casbin} {policy : Casbin_Policy} {rest : List Casbin_Policy}
    {m m' : Model} (h : c.currentRules m (policy :: rest) = .ok m') :
    ∃ values m₁, columns policy = .ok values ∧ c.LoadPolicyArray m values = .ok m₁ ∧
      c.currentRules m₁ rest = .ok m' := by
  rw [Casbin.currentRules] at h
  obtain ⟨values, hvalues, h⟩ := Fold.bind_eq_ok h
  obtain ⟨m₁, hload, h⟩ := Fold.bind_eq_ok h
  exact ⟨values, m₁, hvalues, Fold.mapError_ok hload, h⟩

theorem LoadPolicyArray_g {c : Casbin} {policy : Casbin_Policy} (h : policy.Ptype = "g")
    {values : List String} {m m' : Model} (hvalues : columns policy = .ok values)
    (hload : c.LoadPolicyArray m values = .ok m') : m'.p = m.p := by
  have hptype : "g" ≠ "p" := by decide
  unfold columns at hvalues
  rw [h, if_neg hptype, if_pos rfl] at hvalues
  cases hvalues
  rw [LoadPolicyArray_eq (Or.inr rfl)] at hload
  split at hload
  · cases hload
  · cases hload
    show (m.AddRoleForUser _ none).1.p = m.p
    rw [AddRoleForUser_model]

theorem builtin_line_inj {rule rule' : Rule} (h : rule ∈ builtinPolicies)
    (h' : rule' ∈ builtinPolicies) (heq : savePolicyLine "p" rule = savePolicyLine "p" rule') :
    rule = rule' := by
  have hcolumns : ∀ rule ∈ builtinPolicies, rule = [(savePolicyLine "p" rule).V0,
      (savePolicyLine "p" rule).V1, (savePolicyLine "p" rule).V2, (savePolicyLine "p" rule).V3] := by
    decide +kernel
  rw [hcolumns rule h, heq, ← hcolumns rule' h']

/-- What is read for a token has just the built-in policies that the record has. -/
theorem currentRules_stocked {c : Casbin} {lines : List Casbin_Policy}
    (h : ∀ line ∈ lines, line.Ptype = "g" ∨ ∃ rule ∈ builtinPolicies, line = savePolicyLine "p" rule)
    {m m' : Model} (hread : c.currentRules m lines = .ok m') (rule : Rule) :
    rule ∈ m'.p ↔ rule ∈ m.p ∨ rule ∈ builtinPolicies ∧ savePolicyLine "p" rule ∈ lines := by
  induction lines generalizing m with
  | nil =>
    cases hread
    simp
  | cons line lines ih =>
    obtain ⟨values, m₁, hvalues, hload, hrest⟩ := currentRules_cons hread
    rw [ih (fun l hl => h l (List.mem_cons_of_mem _ hl)) hrest]
    rcases h line List.mem_cons_self with hg | ⟨r, hr, rfl⟩
    · have hline : savePolicyLine "p" rule ≠ line := by
        rintro rfl
        exact absurd hg (by decide : "p" ≠ "g")
      rw [LoadPolicyArray_g hg hvalues hload, List.mem_cons, or_iff_right hline]
    · rw [columns_saved (settled_p hr) (builtin_plain hr)] at hvalues
      cases hvalues
      rw [LoadPolicyArray_eq (Or.inl rfl)] at hload
      split at hload
      · cases hload
      · cases hload
        show rule ∈ (m.AddPolicy r).1.p ∨ _ ↔ _
        rw [AddPolicy_model, List.mem_cons, and_or_left, ← or_assoc]
        refine or_congr_left ?_
        rw [Fold.mem_addNew]
        refine or_congr_right ⟨?_, fun ⟨hrule, heq⟩ => builtin_line_inj hrule hr heq⟩
        rintro rfl
        exact ⟨hr, rfl⟩

theorem builtin_of_currentPolicy {c : Casbin} {lines : List Casbin_Policy} (h : Stocked lines)
    (hne : lines ≠ []) {m : Model} (hread : c.currentPolicy (.ok (some lines)) = .ok m) :
    m.Builtin := by
  obtain ⟨m₁, hrules, hlinks⟩ := Fold.bind_eq_ok (show c.currentRules {} lines >>= _ = _ from hread)
  have hm : m₁ = m := by
    split at hlinks
    · cases hlinks
    · cases hlinks
      rfl
  intro rule
  rw [← hm, currentRules_stocked h.line hrules rule]
  constructor
  · rintro (hrule | hrule)
    · exact absurd hrule List.not_mem_nil
    · exact hrule.1
  · intro hrule
    exact Or.inr ⟨hrule, h.all hne rule hrule⟩

theorem DeleteRoleForUser_p (m : Model) (rule : Rule) (link : Option GoError) :
    (m.DeleteRoleForUser rule link).1.p = m.p := by
  unfold Model.DeleteRoleForUser
  split
  · rfl
  · rfl

/-! ## Runs -/

namespace Nodes

variable {ι κ : Type} [DecidableEq ι] [DecidableEq κ]

/-- The record, what the processes hold and what is on its way have the built-in policies. -/
structure Provided (s : Nodes ι κ) : Prop where
  stored : Stocked s.stored
  procs : ∀ i m, s.procs i = .up m → m.Builtin
  flights : ∀ k flight, s.flights k = some flight → flight.model.Builtin

section Provided

variable {s s' : Nodes ι κ}

omit [DecidableEq κ] in
theorem procs_update {procs : ι → Proc} (h : ∀ i m, procs i = .up m → m.Builtin) (i : ι)
    {proc : Proc} (hproc : ∀ m, proc = .up m → m.Builtin) :
    ∀ j m, Function.update procs i proc j = .up m → m.Builtin :=
  (Function.forall_update_iff procs fun _ p => ∀ m, p = .up m → m.Builtin).mpr
    ⟨hproc, fun j _ => h j⟩

omit [DecidableEq ι] in
theorem flights_update {flights : κ → Option (Flight ι)}
    (h : ∀ k flight, flights k = some flight → flight.model.Builtin) (k : κ)
    {next : Option (Flight ι)} (hnext : ∀ flight, next = some flight → flight.model.Builtin) :
    ∀ j flight, Function.update flights k next j = some flight → flight.model.Builtin :=
  (Function.forall_update_iff flights fun _ f => ∀ flight, f = some flight →
    flight.model.Builtin).mpr ⟨hnext, fun j _ => h j⟩

theorem Provided.start (h : s.Provided) (c : Casbin) (k : κ) (i : ι) :
    (s.start c k i).Provided := by
  have hm := builtin_addBuiltin (loadLines_stocked c h.stored)
  unfold Nodes.start
  dsimp only
  generalize addBuiltin (c.loadLines {} s.stored) = added at hm ⊢
  obtain ⟨m, missing⟩ := added
  have hup : ∀ m', Proc.up m = .up m' → m'.Builtin := by
    rintro _ ⟨⟩
    exact hm
  split
  · exact h
  · split
    · exact ⟨h.stored, procs_update h.procs i hup, h.flights⟩
    · refine ⟨h.stored, procs_update h.procs i ?_, flights_update h.flights k ?_⟩
      · intro m' hstarting
        cases hstarting
      · rintro flight ⟨⟩
        exact hm

theorem Provided.changed (h : s.Provided) (k : κ) (i : ι) (grant : Bool) (rule : Rule)
    {change : Model × Except GoError Bool} (hm : change.1.Builtin) :
    (s.changed k i grant rule change).Provided := by
  obtain ⟨m, res⟩ := change
  have hprocs : ∀ j m', Function.update s.procs i (.up m) j = .up m' → m'.Builtin := by
    refine procs_update h.procs i ?_
    rintro _ ⟨⟩
    exact hm
  match res with
  | .error err => exact ⟨h.stored, hprocs, h.flights⟩
  | .ok false => exact ⟨h.stored, hprocs, h.flights⟩
  | .ok true =>
    refine ⟨h.stored, hprocs, flights_update h.flights k ?_⟩
    rintro flight ⟨⟩
    exact hm

theorem Provided.land (h : s.Provided) (k : κ) {flight : Flight ι}
    (hm : flight.model.Builtin) (save : Save) : (s.land k flight save).Provided := by
  have hstored : Stocked (SavePolicy ⟨flight.model, s.stored⟩ save).1.stored := by
    cases save with
    | done => exact stocked_policyLines hm
    | refused err => exact h.stored
    | unanswered err => exact stocked_policyLines hm
  have hflights : ∀ j f, Function.update s.flights k none j = some f → f.model.Builtin := by
    refine flights_update h.flights k ?_
    intro f hnone
    cases hnone
  unfold Nodes.land
  generalize SavePolicy ⟨flight.model, s.stored⟩ save = saved at hstored ⊢
  obtain ⟨a, res⟩ := saved
  match flight, res with
  | .migration i m, .ok () =>
    refine ⟨hstored, procs_update h.procs i ?_, hflights⟩
    rintro _ ⟨⟩
    exact hm
  | .migration i _, .error _ =>
    refine ⟨hstored, procs_update h.procs i ?_, hflights⟩
    intro m hoff
    cases hoff
  | .change _ _ _, .ok () => exact ⟨hstored, h.procs, hflights⟩
  | .change _ _ _, .error _ => exact ⟨hstored, h.procs, hflights⟩

theorem provided_step {c : Casbin} {l : Step ι κ} (h : s.Provided)
    (hstep : Nodes.step c s l = some s') : s'.Provided := by
  cases l with
  | start k i =>
    dsimp only [Nodes.step] at hstep
    split at hstep
    · cases hstep
      exact h.start c k i
    · cases hstep
  | AssignRole k i account role domain link =>
    dsimp only [Nodes.step] at hstep
    split at hstep
    · next m hproc hflight =>
      split at hstep
      · cases hstep
        exact h
      · cases hstep
        refine h.changed k i true _ ?_
        rw [AddRoleForUser_model]
        exact h.procs i m hproc
    · cases hstep
  | RevokeRole k i account role domain link =>
    dsimp only [Nodes.step] at hstep
    split at hstep
    · next m hproc hflight =>
      split at hstep
      · cases hstep
        exact h
      · cases hstep
        refine h.changed k i false _ ?_
        rw [Model.Builtin, DeleteRoleForUser_p]
        exact h.procs i m hproc
    · cases hstep
  | land k save =>
    dsimp only [Nodes.step] at hstep
    split at hstep
    · next flight hflight =>
      cases hstep
      exact h.land k (h.flights k flight hflight) save
    · cases hstep

end Provided

theorem provided_run (c : Casbin) {stored : List Casbin_Policy} (hstored : Stocked stored)
    (ls : List (Step ι κ)) :
    Transition.EachState (step c) Provided (initial stored) ls := by
  have hstart : (initial stored : Nodes ι κ).Provided := by
    refine ⟨hstored, ?_, ?_⟩
    · intro i m hoff
      cases hoff
    · intro k flight hnone
      cases hnone
  exact Transition.eachState_of_eachStep Provided (fun _ _ _ h _ hstep => provided_step h hstep)
    hstart (Transition.eachStep_true _ ls)

end Nodes

/-! ## What is allowed -/

/-- The subject has a role by the links, and the role permits it. -/
def Allowed (g : RoleLinks) (r : Access) : Prop :=
  ∃ role, g r.sub ("role:" ++ role) r.dom = true ∧ Permits role r.obj r.act

/-- The rules in memory decide every request, whatever the links are. -/
def Decides (enforce : Enforce) (m : Model) : Prop :=
  ∀ g r, (enforce m g r = .ok true ↔ Allowed g r) ∧ (enforce m g r = .ok false ↔ ¬ Allowed g r)

theorem decides_of_builtin {enforce : Enforce} (hcasbin : Documented enforce) {m : Model}
    (hm : m.Builtin) : Decides enforce m := by
  have hsize : ∀ rule ∈ m.p, rule.length = 4 := by
    have hall : ∀ rule ∈ builtinPolicies, rule.length = 4 := by decide +kernel
    exact fun rule hrule => hall rule ((hm rule).mp hrule)
  have hne : m.p ≠ [] := List.ne_nil_of_mem ((hm _).mpr List.mem_cons_self)
  intro g r
  have hany : m.p.any (matchers g r) = true ↔ Allowed g r := by
    rw [List.any_eq_true, Allowed, ← matchers_builtin]
    exact exists_congr fun rule => and_congr_left' (hm rule)
  rw [hcasbin m g r hne hsize]
  cases hmatch : m.p.any (matchers g r) with
  | true => exact ⟨iff_of_true rfl (hany.mp hmatch), by simp [hany.mp hmatch]⟩
  | false =>
    have hno : ¬ Allowed g r := fun h => Bool.false_ne_true (hmatch.symm.trans (hany.mpr h))
    exact ⟨by simp [hno], iff_of_true rfl hno⟩

/-- The processes decide by the built-in permissions alone, and so does what is read of the
record for a token. -/
def PermissionsHold (enforce : Enforce) (c : Casbin) {ι κ : Type} (s : Nodes ι κ) : Prop :=
  (∀ i m, s.procs i = .up m → Decides enforce m) ∧
    ∀ m, s.stored ≠ [] → c.currentPolicy (.ok (some s.stored)) = .ok m → Decides enforce m

/-- However the processes of a cluster start, change roles and save them, whatever casbin drops of
a record, what is allowed stays the same for the same links. -/
theorem permissions_hold {enforce : Enforce} (hcasbin : Documented enforce) (c : Casbin)
    {ι κ : Type} [DecidableEq ι] [DecidableEq κ] {stored : List Casbin_Policy}
    (hstored : Stocked stored) (ls : List (Nodes.Step ι κ)) :
    Transition.EachState (Nodes.step c) (PermissionsHold enforce c) (Nodes.initial stored) ls := by
  refine (Nodes.provided_run c hstored ls).mono fun s h => ⟨fun i m hup => ?_, fun m hne hread => ?_⟩
  · exact decides_of_builtin hcasbin (h.procs i m hup)
  · exact decides_of_builtin hcasbin (builtin_of_currentPolicy h.stored hne hread)

/-- Some policy that matches allows; a policy of another size is an error. -/
def someAllow : Enforce := fun m g r =>
  if m.p.all (·.length = 4) then .ok (m.p.any (matchers g r))
  else .error (.text "invalid policy size")

theorem someAllow_documented : Documented someAllow := by
  intro m g r _ hsize
  exact if_pos (List.all_eq_true.mpr fun rule hrule => decide_eq_true (hsize rule hrule))

theorem permissions_hold_twoGrants :
    Transition.EachState (Nodes.step sized) (PermissionsHold someAllow sized)
      (Nodes.initial []) Nodes.twoGrants :=
  permissions_hold someAllow_documented sized stocked_nil Nodes.twoGrants

/-! ## What a domain covers -/

/-- The links are those of the groupings, by their first three fields. -/
def Linked (m : Model) (g : RoleLinks) : Prop :=
  ∀ name role domain, g name role domain = true ↔
    name = role ∨ ∃ rule ∈ m.g, ∃ p, rule.take 3 = [name, role, p] ∧ Covers p domain

instance (p r : String) : Decidable (Covers p r) := inferInstanceAs (Decidable (_ ∨ _))

/-- The links that one walk over the groupings finds. -/
def groupingLinks (m : Model) : RoleLinks := fun name role domain =>
  name = role || m.g.any fun rule => rule.take 2 = [name, role] &&
    (rule[2]?.any fun p => Covers p domain)

theorem groupingLinks_linked (m : Model) : Linked m (groupingLinks m) := by
  have htake : ∀ (rule : Rule) (name role domain : String), (rule.take 2 = [name, role] ∧
      rule[2]?.any (fun p => decide (Covers p domain)) = true) ↔
      ∃ p, rule.take 3 = [name, role, p] ∧ Covers p domain := by
    intro rule name role domain
    match rule with
    | [] => simp
    | [_] => simp
    | [_, _] => simp
    | account :: other :: p :: rest => simp [and_assoc]
  intro name role domain
  simp [groupingLinks, ← htake]

theorem rbacRole_permits {role obj act : String} (h : Permits role obj act) :
    rbacRole role = "role:" ++ role := by
  obtain ⟨p, hp, rfl, -⟩ := permits_iff.mp h
  have hall : ∀ p ∈ permissions, rbacRole p.1 = "role:" ++ p.1 := by decide +kernel
  exact hall p hp

theorem allowed_iff_holds {m : Model} {g : RoleLinks} (hlinks : Linked m g) {r : Access} :
    Allowed g r ↔ ∃ role, (r.sub = "role:" ++ role ∨ Holds m r.sub role r.dom) ∧
      Permits role r.obj r.act := by
  refine exists_congr fun role => and_congr_left fun hpermits => ?_
  rw [hlinks, Holds]
  simp only [Binds, rbacRole_permits hpermits]

/-- The domain of a binding, seen from a request for the app and the environment. -/
def Reaches (p app env : String) : Prop :=
  p = "*" ∨ ∃ sub rest, KV.split p = app :: sub :: rest ∧ (sub = "*" ∨ sub = env)

/-- A domain covers an environment of one app only, or of all; what it has after two segments
does not count. -/
theorem covers_iff {p app env : String} (happ : '/' ∉ app.toList) (henv : '/' ∉ env.toList) :
    Covers p (app ++ "/" ++ env) ↔ Reaches p app env := by
  have hsplit : KV.split (app ++ "/" ++ env) = [app, env] := by
    have hsegs : ∀ s ∈ [app, env], '/' ∉ s.toList := by simp [happ, henv]
    have h := KV.split_intercalate (List.cons_ne_nil app [env]) hsegs
    rwa [String.intercalate_cons_cons, String.intercalate_singleton] at h
  unfold Covers Reaches matchDomain
  by_cases hall : p = "*"
  · rw [if_pos hall]
    exact iff_of_true (Or.inr rfl) (Or.inl hall)
  rw [if_neg hall, or_iff_right hall]
  by_cases hcluster : p = "cluster"
  · subst hcluster
    have hone : KV.split "cluster" = ["cluster"] := by decide
    have hne : app ++ "/" ++ env ≠ "cluster" := by
      intro heq
      rw [heq, hone] at hsplit
      cases hsplit
    rw [if_pos rfl]
    refine iff_of_false ?_ ?_
    · rintro (heq | heq)
      · exact hne heq
      · exact hne (of_decide_eq_true heq)
    · rintro ⟨sub, rest, heq, -⟩
      rw [hone] at heq
      cases heq
  · rw [if_neg hcluster, hsplit]
    constructor
    · rintro (heq | hmatch)
      · rw [← heq, hsplit]
        exact ⟨env, [], rfl, Or.inr rfl⟩
      · split at hmatch
        · next pdomain psub rest rdomain rsub rest' hp hr =>
          cases hr
          split at hmatch
          · next hstar => exact ⟨psub, rest, by rw [hp, of_decide_eq_true hmatch], Or.inl hstar⟩
          · rw [Bool.and_eq_true, decide_eq_true_eq, decide_eq_true_eq] at hmatch
            exact ⟨psub, rest, by rw [hp, hmatch.1], Or.inr hmatch.2.symm⟩
        · cases hmatch
    · rintro ⟨sub, rest, hp, hsub⟩
      rw [hp]
      right
      dsimp only
      split
      · exact decide_eq_true rfl
      · next hstar =>
        rw [Bool.and_eq_true]
        exact ⟨decide_eq_true rfl, decide_eq_true ((or_iff_right hstar).mp hsub).symm⟩

theorem covers_cluster {p : String} : Covers p "cluster" ↔ p = "*" ∨ p = "cluster" := by
  have hone : KV.split "cluster" = ["cluster"] := by decide
  unfold Covers matchDomain
  split
  · next hall => exact iff_of_true (Or.inr rfl) (Or.inl hall)
  · next hall =>
    split
    · next hcluster => exact iff_of_true (Or.inl hcluster.symm) (Or.inr hcluster)
    · next hcluster =>
      rw [hone]
      simp [hall, hcluster, eq_comm]

end Cassem.Coord
