import Cassem.Coord.Acl
import Cassem.KV.Storage

/-!
# Roles in several domains

A call with several domains adds or removes one grouping rule that has them all, and what follows
the first domain counts for nothing. A grant reaches the other domains, and a revocation the rules
with more domains, only by chance.
-/

namespace Cassem.Coord

open Lib Cassem.Concept

/-! ## Domains -/

/-- The matching function of the domains: `r` is asked for, and `p` is in a rule. -/
def matchDomain (r p : String) : Bool :=
  if p = "*" then true
  else if p = "cluster" then decide (r = p)
  else
    match KV.split p, KV.split r with
    | pdomain :: psub :: _, rdomain :: rsub :: _ =>
        if psub = "*" then decide (pdomain = rdomain)
        else decide (pdomain = rdomain) && decide (rsub = psub)
    | _, _ => false

/-- A rule with the one domain is a rule for the other. -/
def Covers (p r : String) : Prop := r = p ∨ matchDomain r p = true

/-- The fields of the rule that count. -/
def Binds (account role domain : String) (rule : Rule) : Prop :=
  rule.take 3 = [account, rbacRole role, domain]

def Holds (m : Model) (account role domain : String) : Prop :=
  ∃ rule ∈ m.g, ∃ p, Binds account role p rule ∧ Covers p domain

/-! ## Requests -/

structure assignOrRevokeRoleReq where
  Account : String
  Role : String
  Domains : List String

def normalizeAccountRole (role : String) : String :=
  if role = "developer" then "appdeveloper" else role

/-- The domains of a request, of which there is at least one. -/
def assignOrRevokeRoleReq.domains (req : assignOrRevokeRoleReq) : List String :=
  if req.Domains.length = 0 then ["cluster"] else req.Domains

def AssignRoleHTTP (a : Acl) (req : assignOrRevokeRoleReq) (link : Option GoError) (save : Save) :
    Acl × Except GoError Unit :=
  AssignRole a req.Account (normalizeAccountRole req.Role) req.domains link save

def RevokeRoleHTTP (a : Acl) (req : assignOrRevokeRoleReq) (link : Option GoError) (save : Save) :
    Acl × Except GoError Unit :=
  RevokeRole a req.Account (normalizeAccountRole req.Role) req.domains link save

theorem normalizeRole_normalizeAccountRole (role : String) :
    normalizeRole (normalizeAccountRole role) = normalizeRole role := by
  unfold normalizeRole normalizeAccountRole
  split
  · rfl
  · rfl

/-- The handlers make the calls with the role as it was asked for. -/
theorem handlers_eq (a : Acl) (req : assignOrRevokeRoleReq) (link : Option GoError) (save : Save) :
    AssignRoleHTTP a req link save = AssignRole a req.Account req.Role req.domains link save ∧
      RevokeRoleHTTP a req link save = RevokeRole a req.Account req.Role req.domains link save := by
  have hrbac : rbacRole (normalizeAccountRole req.Role) = rbacRole req.Role := by
    unfold rbacRole
    rw [normalizeRole_normalizeAccountRole]
  constructor
  · unfold AssignRoleHTTP AssignRole assignRole
    rw [normalizeRole_normalizeAccountRole, hrbac]
  · unfold RevokeRoleHTTP RevokeRole
    rw [hrbac]

/-! ## Grants -/

/-- A call of `AssignRole`, with what becomes of the role links and the save. -/
structure Assignment where
  account : String
  role : String
  domain : List String
  link : Option GoError
  save : Save

namespace Assignment

def apply (a : Acl) (s : Assignment) : Acl :=
  (AssignRole a s.account s.role s.domain s.link s.save).1

def rule (s : Assignment) : Rule := s.account :: rbacRole s.role :: s.domain

/-- The superadmin role is not given. -/
def Accepted (s : Assignment) : Prop := normalizeRole s.role ≠ "superadmin"

end Assignment

theorem mem_assign (a : Acl) (s : Assignment) (rule : Rule) :
    rule ∈ (s.apply a).model.g ↔ rule ∈ a.model.g ∨ s.Accepted ∧ rule = s.rule := by
  unfold Assignment.apply AssignRole assignRole
  by_cases hrole : normalizeRole s.role = "superadmin"
  · rw [if_pos ⟨hrole, rfl⟩]
    simp [Assignment.Accepted, hrole]
  · rw [if_neg fun h => hrole h.1, changed_model, AddRoleForUser_model, Fold.mem_addNew]
    simp [Assignment.Accepted, hrole, Assignment.rule]

theorem mem_assigned (a : Acl) (ss : List Assignment) (rule : Rule) :
    rule ∈ (ss.foldl (fun a s => s.apply a) a).model.g ↔
      rule ∈ a.model.g ∨ ∃ s ∈ ss, s.Accepted ∧ rule = s.rule := by
  induction ss generalizing a with
  | nil => simp
  | cons s ss ih =>
    rw [List.foldl_cons, ih, mem_assign, or_assoc]
    simp only [List.mem_cons, exists_eq_or_imp]

theorem accepted_of_assign_ok {a : Acl} {s : Assignment}
    (h : (AssignRole a s.account s.role s.domain s.link s.save).2 = .ok ()) : s.Accepted := by
  intro hrole
  unfold AssignRole assignRole at h
  rw [if_pos ⟨hrole, rfl⟩] at h
  cases h

/-- A call that returns nil leaves all rules but the one that it names. -/
theorem mem_revoke {a : Acl} {account role : String} {domain : List String}
    {link : Option GoError} {save : Save}
    (h : (RevokeRole a account role domain link save).2 = .ok ()) (rule : Rule) :
    rule ∈ (RevokeRole a account role domain link save).1.model.g ↔
      rule ∈ a.model.g ∧ rule ≠ account :: rbacRole role :: domain := by
  unfold RevokeRole at h ⊢
  cases hhas : userHasRole a.model account "superadmin" with
  | true =>
    rw [hhas] at h
    cases h
  | false =>
    show rule ∈ (a.changed _ _ save).1.model.g ↔ _
    rw [changed_model, DeleteRoleForUser_g, List.mem_filter, decide_eq_true_eq]

theorem binds_cons {account account' role role' domain d : String} {rest : List String} :
    Binds account role domain (account' :: rbacRole role' :: d :: rest) ↔
      account' = account ∧ rbacRole role' = rbacRole role ∧ d = domain := by
  simp [Binds]

/-- The new rule gives the role in what its first domain covers. -/
theorem holds_assign {a : Acl} {account role d domain : String} {rest : List String}
    {link : Option GoError} {save : Save}
    (h : (AssignRole a account role (d :: rest) link save).2 = .ok ()) :
    Holds (AssignRole a account role (d :: rest) link save).1.model account role domain ↔
      Holds a.model account role domain ∨ Covers d domain := by
  let s : Assignment := ⟨account, role, d :: rest, link, save⟩
  have haccepted : s.Accepted := accepted_of_assign_ok h
  constructor
  · intro hholds
    obtain ⟨rule, hrule, p, hbinds, hcovers⟩ := hholds
    rcases (mem_assign a s rule).mp hrule with hold | ⟨-, rfl⟩
    · exact Or.inl ⟨rule, hold, p, hbinds, hcovers⟩
    · obtain ⟨-, -, rfl⟩ := binds_cons.mp hbinds
      exact Or.inr hcovers
  · intro hholds
    rcases hholds with ⟨rule, hold, hrest⟩ | hcovers
    · exact ⟨rule, (mem_assign a s rule).mpr (Or.inl hold), hrest⟩
    · exact ⟨s.rule, (mem_assign a s s.rule).mpr (Or.inr ⟨haccepted, rfl⟩), d,
        binds_cons.mpr ⟨rfl, rfl, rfl⟩, hcovers⟩

/-! ## Several domains -/

/-- A grant gives the role in all its domains if and only if the first one covers the others where
the account did not have it, and a revocation leaves no rule for its domain if and only if there
was none with more domains, whether from the start or from a grant. -/
theorem bindings_iff {a : Acl} {account role d : String} {rest : List String}
    {link : Option GoError} {save : Save}
    (hassign : (AssignRole a account role (d :: rest) link save).2 = .ok ())
    {b : Acl} {ss : List Assignment} {account' role' d' : String} {link' : Option GoError}
    {save' : Save} (hrevoke : (RevokeRole (ss.foldl (fun a s => s.apply a) b) account' role' [d']
      link' save').2 = .ok ()) :
    ((∀ domain ∈ d :: rest,
        Holds (AssignRole a account role (d :: rest) link save).1.model account role domain) ↔
      ∀ domain ∈ rest, Holds a.model account role domain ∨ Covers d domain) ∧
    ((∀ rule ∈ (RevokeRole (ss.foldl (fun a s => s.apply a) b) account' role' [d'] link'
        save').1.model.g, ¬ Binds account' role' d' rule) ↔
      (∀ rule ∈ b.model.g, Binds account' role' d' rule →
        rule = [account', rbacRole role', d']) ∧
      ∀ s ∈ ss, s.Accepted → Binds account' role' d' s.rule → s.domain = [d']) := by
  constructor
  · rw [List.forall_mem_cons]
    simp only [holds_assign hassign]
    exact and_iff_right (Or.inr (Or.inl rfl))
  · simp only [mem_revoke hrevoke, mem_assigned]
    constructor
    · intro h
      have hexact : ∀ rule, (rule ∈ b.model.g ∨ ∃ s ∈ ss, s.Accepted ∧ rule = s.rule) →
          Binds account' role' d' rule → rule = [account', rbacRole role', d'] := by
        intro rule hrule hbinds
        by_contra hne
        exact h rule ⟨hrule, hne⟩ hbinds
      refine ⟨fun rule hrule => hexact rule (Or.inl hrule), fun s hs haccepted hbinds => ?_⟩
      have hrule := hexact s.rule (Or.inr ⟨s, hs, haccepted, rfl⟩) hbinds
      exact (List.cons.inj (List.cons.inj hrule).2).2
    · rintro ⟨hstart, hgranted⟩ rule ⟨hrule, hne⟩ hbinds
      rcases hrule with hrule | ⟨s, hs, haccepted, rfl⟩
      · exact hne (hstart rule hrule hbinds)
      · have hdomain := hgranted s hs haccepted hbinds
        unfold Assignment.rule at hne hbinds
        rw [hdomain] at hne hbinds
        obtain ⟨haccount, hrole, -⟩ := binds_cons.mp hbinds
        exact hne (by rw [haccount, hrole])

/-- All environments of an app come first; a grant of one domain is revoked. -/
theorem bindings_iff_shop :
    ((∀ domain ∈ ["shop/*", "shop/prod"],
        Holds (AssignRole ⟨{}, []⟩ "bob@x.io" "visitor" ["shop/*", "shop/prod"] none
          .done).1.model "bob@x.io" "visitor" domain) ↔
      ∀ domain ∈ ["shop/prod"], Holds {} "bob@x.io" "visitor" domain ∨ Covers "shop/*" domain) ∧
    ((∀ rule ∈ (RevokeRole ([⟨"bob@x.io", "visitor", ["cluster"], none, .done⟩].foldl
        (fun a (s : Assignment) => s.apply a) ⟨{}, []⟩) "bob@x.io" "visitor" ["cluster"] none
        .done).1.model.g, ¬ Binds "bob@x.io" "visitor" "cluster" rule) ↔
      (∀ rule ∈ [], Binds "bob@x.io" "visitor" "cluster" rule →
        rule = ["bob@x.io", rbacRole "visitor", "cluster"]) ∧
      ∀ s ∈ ([⟨"bob@x.io", "visitor", ["cluster"], none, .done⟩] : List Assignment), s.Accepted →
        Binds "bob@x.io" "visitor" "cluster" s.rule → s.domain = ["cluster"]) :=
  bindings_iff (a := ⟨{}, []⟩) (b := ⟨{}, []⟩) rfl rfl

/-- Two environments in one request: the role is given in the first only, and the rule is still
there when the role has been revoked in it. -/
theorem second_domain_lost :
    (AssignRole ⟨{}, []⟩ "bob@x.io" "visitor" ["shop/dev", "shop/prod"] none .done).2 = .ok () ∧
    ¬ Holds (AssignRole ⟨{}, []⟩ "bob@x.io" "visitor" ["shop/dev", "shop/prod"] none
      .done).1.model "bob@x.io" "visitor" "shop/prod" ∧
    (RevokeRole (AssignRole ⟨{}, []⟩ "bob@x.io" "visitor" ["shop/dev", "shop/prod"] none
      .done).1 "bob@x.io" "visitor" ["shop/dev"] none .done).2 = .ok () ∧
    ∃ rule ∈ (RevokeRole (AssignRole ⟨{}, []⟩ "bob@x.io" "visitor" ["shop/dev", "shop/prod"] none
      .done).1 "bob@x.io" "visitor" ["shop/dev"] none .done).1.model.g,
      Binds "bob@x.io" "visitor" "shop/dev" rule := by
  refine ⟨rfl, ?_, rfl, ["bob@x.io", "role:visitor", "shop/dev", "shop/prod"], ?_, ?_⟩
  · rw [holds_assign rfl]
    rintro (⟨rule, hrule, -⟩ | hcovers)
    · cases hrule
    · exact absurd hcovers (by unfold Covers; decide)
  · decide
  · unfold Binds
    decide

end Cassem.Coord
