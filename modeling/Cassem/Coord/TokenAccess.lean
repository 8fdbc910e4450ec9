import Cassem.Coord.Enforce
import Cassem.Coord.TokenSoundness

/-!
# What a token gives access to

Tokens are checked against the record of the policies as it is at the time, by an enforcer that is
built for the one check: what an account may read through its tokens, and who may issue and revoke
the tokens of an account.
-/

namespace Cassem.Coord

open Lib Cassem.Concept
open KV (Bytes)

/-! ## The enforcer of one check -/

/-- The answer of the KV store for the record. -/
def recordOf (stored : List Casbin_Policy) : Except GoError (Option (List Casbin_Policy)) :=
  if stored = [] then .error (.concept Err_NOT_FOUND) else .ok (some stored)

/-- Casbin, as a check uses it: how it reads rules, what it decides, and the links that it builds. -/
structure Policies where
  casbin : Casbin
  enforce : Enforce
  links : Model → RoleLinks

/-- What casbin documents: the decision, and that the links it has built are the groupings. -/
structure Policies.Documented (c : Policies) : Prop where
  enforce : Coord.Documented c.enforce
  links : ∀ m, c.casbin.links m = none → Linked m (c.links m)

namespace Policies

variable (c : Policies)

def enforcer (m : Model) : Enforcer := fun subject domain object act =>
  c.enforce m (c.links m) ⟨subject, domain, object, act⟩

def currentPolicy (stored : List Casbin_Policy) : Except GoError Model :=
  c.casbin.currentPolicy (recordOf stored)

/-- The current policies as `AuthorizeToken` asks them. -/
def currentEnforcer (stored : List Casbin_Policy) : Except GoError Enforcer :=
  (c.currentPolicy stored).map c.enforcer

variable {c} {stored : List Casbin_Policy} {m : Model}

theorem currentPolicy_ok (h : c.currentPolicy stored = .ok m) :
    stored ≠ [] ∧ c.casbin.currentPolicy (.ok (some stored)) = .ok m := by
  unfold currentPolicy recordOf at h
  by_cases hnil : stored = []
  · rw [if_pos hnil] at h
    cases h
  · rw [if_neg hnil] at h
    exact ⟨hnil, h⟩

theorem links_none (h : c.currentPolicy stored = .ok m) : c.casbin.links m = none := by
  obtain ⟨m₁, -, hlinks⟩ := Fold.bind_eq_ok
    (show c.casbin.currentRules {} stored >>= _ = _ from (currentPolicy_ok h).2)
  split at hlinks
  · cases hlinks
  · next hnone =>
    cases hlinks
    exact hnone

/-- A binding of the record gives the account a role that permits the access, or the account has
the name of such a role. -/
theorem enforcer_ok (hcasbin : c.Documented) (hstored : Stocked stored)
    (h : c.currentPolicy stored = .ok m) (r : Access) :
    c.enforcer m r.sub r.dom r.obj r.act = .ok true ↔
      ∃ role, (r.sub = "role:" ++ role ∨ Holds m r.sub role r.dom) ∧
        Permits role r.obj r.act := by
  obtain ⟨hne, hread⟩ := currentPolicy_ok h
  have hdecides := decides_of_builtin hcasbin.enforce (builtin_of_currentPolicy hstored hne hread)
  rw [← allowed_iff_holds (hcasbin.links m (links_none h))]
  exact (hdecides (c.links m) r).1

end Policies

/-! ## Targets -/

/-- The target names an app and an environment, without a character that means something in a
domain. -/
def Proper (target : String × String) : Prop :=
  target.1 ≠ "" ∧ target.2 ≠ "" ∧
    ∀ ch ∈ target.1.toList ++ target.2.toList, ch ≠ '/' ∧ ch ≠ '\\' ∧ ch ≠ '*'

/-- Some role of the account reaches the target; every built-in role reads elements. -/
def Reads (m : Model) (account : String) (target : String × String) : Prop :=
  ∃ role ∈ ["superadmin", "admin", "appowner", "appdeveloper", "visitor"],
    account = "role:" ++ role ∨
      ∃ rule ∈ m.g, ∃ p, Binds account role p rule ∧ Reaches p target.1 target.2

theorem permits_read {role : String} : Permits role "elem" "r" ↔
    role ∈ ["superadmin", "admin", "appowner", "appdeveloper", "visitor"] := by
  simp [Permits]

theorem authorizeTarget_iff {enforcer : Enforcer} {account : String} {target : String × String} :
    TokenEnv.authorizeTarget enforcer account target = .ok () ↔
      Proper target ∧ enforcer account (target.1 ++ "/" ++ target.2) "elem" "r" = .ok true := by
  obtain ⟨app, env⟩ := target
  have hproper : Proper (app, env) ↔
      ¬ (app = "" ∨ env = "" ∨ (app ++ env).toList.any (['/', '\\', '*'].contains ·) = true) := by
    unfold Proper
    simp only [not_or, String.toList_append, Bool.not_eq_true, List.any_eq_false]
    simp
  unfold TokenEnv.authorizeTarget
  dsimp only
  rw [hproper]
  split
  · next hbad =>
    refine iff_of_false (fun h => by cases h) fun h => h.1 hbad
  · next hgood =>
    rw [and_iff_right hgood]
    split
    · next err herr => simp [herr]
    · next hno => simp [hno]
    · next hyes => simp [hyes]

theorem reads_iff {c : Policies} (hcasbin : c.Documented) {stored : List Casbin_Policy}
    (hstored : Stocked stored) {m : Model} (h : c.currentPolicy stored = .ok m) {account : String}
    {target : String × String} (htarget : Proper target) :
    c.enforcer m account (target.1 ++ "/" ++ target.2) "elem" "r" = .ok true ↔
      Reads m account target := by
  have happ : '/' ∉ target.1.toList := fun hmem =>
    (htarget.2.2 '/' (List.mem_append_left _ hmem)).1 rfl
  have henv : '/' ∉ target.2.toList := fun hmem =>
    (htarget.2.2 '/' (List.mem_append_right _ hmem)).1 rfl
  rw [c.enforcer_ok hcasbin hstored h ⟨account, target.1 ++ "/" ++ target.2, "elem", "r"⟩]
  unfold Reads Holds
  simp only [covers_iff happ henv, permits_read]
  exact exists_congr fun role => and_comm

/-! ## Authorization -/

section Authorize

variable {env : TokenEnv} {users : UserStore} {tokens : TokenStore}
  {policy : Except GoError Enforcer} {now : Int} {raw : Bytes}

/-- The policies are asked for every target, once the token itself is accepted. -/
theorem AuthorizeToken_targets {account : String} (haccount : env.tokenAccount raw = some account)
    {targets : List (String × String)} (hne : targets ≠ []) :
    env.AuthorizeToken users tokens policy now raw targets = .ok () ↔
      env.AuthorizeToken users tokens policy now raw [] = .ok () ∧
      ∃ enforcer, policy = .ok enforcer ∧
        ∀ target ∈ targets, TokenEnv.authorizeTarget enforcer account target = .ok () := by
  unfold TokenEnv.AuthorizeToken
  simp only [haccount, if_neg hne, if_true]
  split
  · next hnone => simp
  · next record hrecord =>
    split
    · next err herr => simp
    · next token htoken =>
      split
      · next hexpired => simp
      · next hlive =>
        split
        · next err herr => split <;> simp
        · next huser =>
          rw [and_iff_right rfl]
          simp only [← Fold.forM_ok]
          cases policy with
          | error err => simp [bind, Except.bind]
          | ok e => simp [bind, Except.bind]

end Authorize

namespace TokenService

/-- The string is that of the token, which is outstanding, has not expired, and whose account is in
order. -/
def Bears (t : TokenService) (raw : Bytes) (token : IssuedToken) : Prop :=
  Outstanding t.log token ∧ token.Token = raw ∧ t.clock.Unix < token.ExpiresAt ∧
    Usable t.users token.Account

theorem inv_run (env : TokenEnv) (clock : Clock) (ls : List Step) :
    Transition.EachState (step env) (Inv env) { clock := clock } ls := by
  have hstart : Inv env { clock := clock } := by
    refine ⟨?_, ?_, fun issued hmem => absurd hmem List.not_mem_nil⟩
    · intro key u hu
      cases hu
    · intro key token
      refine iff_of_false (fun hnone => by cases hnone) ?_
      rintro ⟨issued, hout, -, -⟩
      exact absurd hout.mem List.not_mem_nil
  exact Transition.eachState_of_eachStep (Inv env) (fun _ _ _ h _ hs => inv_step h hs) hstart
    (Transition.eachStep_true _ ls)

end TokenService

/-- What the bearer of a string may read: the token is borne, and its account reads each target by
the record of the policies as it is now. -/
def MayRead (c : Policies) (stored : List Casbin_Policy) (t : TokenService) (raw : Bytes)
    (targets : List (String × String)) : Prop :=
  ∃ token m, t.Bears raw token ∧ c.currentPolicy stored = .ok m ∧
    ∀ target ∈ targets, Proper target ∧ Reads m token.Account target

theorem authorize_step {c : Policies} (hcasbin : c.Documented) {stored : List Casbin_Policy}
    (hstored : Stocked stored) {env : TokenEnv} {t : TokenService} (ht : TokenService.Inv env t)
    {raw : Bytes} (hapart : t.Apart env raw) {targets : List (String × String)}
    (hne : targets ≠ []) :
    env.AuthorizeToken t.users t.tokens (c.currentEnforcer stored) t.clock.ns raw targets = .ok () ↔
      MayRead c stored t raw targets := by
  have hgood := TokenService.sound_of_inv ht raw (c.currentEnforcer stored) hapart
  have htargets : ∀ {m account}, c.currentPolicy stored = .ok m →
      ((∀ target ∈ targets, TokenEnv.authorizeTarget (c.enforcer m) account target = .ok ()) ↔
        ∀ target ∈ targets, Proper target ∧ Reads m account target) := by
    intro m account hm
    refine forall₂_congr fun target _ => ?_
    rw [authorizeTarget_iff]
    exact and_congr_right fun hproper => reads_iff hcasbin hstored hm hproper
  constructor
  · intro h
    cases haccount : env.tokenAccount raw with
    | none =>
      unfold TokenEnv.AuthorizeToken at h
      rw [haccount] at h
      cases h
    | some account =>
      obtain ⟨hbare, enforcer, hpolicy, hall⟩ := (AuthorizeToken_targets haccount hne).mp h
      obtain ⟨token, hout, hraw, hlive, huser⟩ := hgood.mp hbare
      have hsame : token.Account = account := by
        have hissued := (ht.issued token hout.mem).2.1
        rw [hraw, haccount] at hissued
        exact (Option.some.inj hissued).symm
      unfold Policies.currentEnforcer at hpolicy
      cases hm : c.currentPolicy stored with
      | error err =>
        rw [hm] at hpolicy
        cases hpolicy
      | ok m =>
        rw [hm] at hpolicy
        cases hpolicy
        exact ⟨token, m, ⟨hout, hraw, hlive, huser⟩, hm, hsame ▸ (htargets hm).mp hall⟩
  · rintro ⟨token, m, ⟨hout, rfl, hlive, huser⟩, hm, hall⟩
    have haccount := (ht.issued token hout.mem).2.1
    refine (AuthorizeToken_targets haccount hne).mpr ⟨hgood.mpr ⟨token, hout, rfl, hlive, huser⟩,
      c.enforcer m, ?_, (htargets hm).mpr hall⟩
    unfold Policies.currentEnforcer
    rw [hm]
    rfl

/-- In every state that the cluster and the tokens can be in, a string gives access to apps and
environments exactly where it is a token of an account that has a role there now. -/
theorem authorize_iff_mayRead {c : Policies} (hcasbin : c.Documented) {ι κ : Type} [DecidableEq ι]
    [DecidableEq κ] {stored : List Casbin_Policy} (hstored : Stocked stored)
    (ls : List (Nodes.Step ι κ)) (env : TokenEnv) (clock : Clock) (ms : List TokenService.Step) :
    Transition.EachState (Nodes.step c.casbin)
      (fun s => Transition.EachState (TokenService.step env)
        (fun t => ∀ raw targets, t.Apart env raw → targets ≠ [] →
          (env.AuthorizeToken t.users t.tokens (c.currentEnforcer s.stored) t.clock.ns raw targets =
            .ok () ↔ MayRead c s.stored t raw targets))
        { clock := clock } ms)
      (Nodes.initial stored) ls :=
  (Nodes.provided_run c.casbin hstored ls).mono fun _ hs =>
    (TokenService.inv_run env clock ms).mono fun _ ht _ _ hapart hne =>
      authorize_step hcasbin hs.stored ht hapart hne

def somePolicies : Policies where
  casbin := sized
  enforce := someAllow
  links := groupingLinks

theorem somePolicies_documented : somePolicies.Documented where
  enforce := someAllow_documented
  links m _ := groupingLinks_linked m

def aliceSecret : Secret := ⟨List.replicate 32 0, List.length_replicate⟩

def aliceToken : Bytes := rawToken "alice@x.io" aliceSecret

/-- The SHA-256 digest of the token. -/
def aliceDigest : Bytes :=
  [0, 210, 148, 183, 133, 125, 249, 97, 200, 147, 38, 129, 251, 75, 148, 65,
    72, 41, 200, 176, 27, 237, 150, 119, 147, 215, 59, 121, 141, 193, 157, 251]

/-- The digests are true for the one token only; an address has an at sign in it. -/
def someEnv : TokenEnv where
  WithSalt password salt := password ++ salt
  violation := .concept Err_INVALID_ARGUMENT
  sum256 raw := if raw = aliceToken then aliceDigest else List.replicate 32 0
  length_sum256 raw := by split <;> rfl
  ParseAddress account := if '@' ∈ account.toList then some account else none

def someClock : Clock := ⟨second.toNat, le_of_eq (by decide)⟩

/-- Ann administers the cluster, and Alice reads one environment. -/
def staffGrants : List (Nodes.Step Unit Unit) :=
  [.start () (), .land () .done,
    .AssignRole () () "ann@x.io" "admin" ["cluster"] none, .land () .done,
    .AssignRole () () "alice@x.io" "visitor" ["shop/prod"] none, .land () .done]

def staffUsers : List TokenService.Step :=
  [.AddUser ⟨"ann@x.io", "Ann", "pw", "", .NORMAL⟩ "s1",
    .AddUser ⟨"alice@x.io", "Alice", "pw", "", .NORMAL⟩ "s2"]

/-- Ann issues a token for Alice. -/
def aliceIssue : List TokenService.Step :=
  staffUsers ++
    [.IssueToken (some "ann@x.io") (.ok ()) "alice@x.io" " laptop " 0 (some aliceSecret), .pass 5]

def aliceIssued : IssuedToken where
  ID := hexString aliceDigest
  Account := "alice@x.io"
  Name := "laptop"
  CreatedAt := 1
  ExpiresAt := 1 + 30 * 24 * 3600
  Token := aliceToken

theorem isOk_iff {α : Type} {x : Except GoError α} : x.isOk = true ↔ ∃ a, x = .ok a := by
  cases x with
  | error err =>
    refine ⟨fun h => Bool.noConfusion h, ?_⟩
    rintro ⟨_, h⟩
    cases h
  | ok a => exact ⟨fun _ => ⟨a, rfl⟩, fun _ => rfl⟩

/-- What the one token is accepted for, once it has been issued. -/
theorem aliceToken_accepted :
    ((Transition.run (Nodes.step sized) (Nodes.initial []) staffGrants).bind fun s =>
      (Transition.run (TokenService.step someEnv) { clock := someClock } aliceIssue).map fun t =>
        (t.log, [[("shop", "prod")], [("shop", "dev")]].map fun targets =>
          (someEnv.AuthorizeToken t.users t.tokens (somePolicies.currentEnforcer s.stored)
            t.clock.ns aliceToken targets).isOk)) =
      some ([.issued aliceIssued], [true, false]) := by
  decide +kernel

theorem authorize_iff_mayRead_issued :
    Transition.EachState (Nodes.step sized)
      (fun s => Transition.EachState (TokenService.step someEnv)
        (fun t => ∀ raw targets, t.Apart someEnv raw → targets ≠ [] →
          (someEnv.AuthorizeToken t.users t.tokens (somePolicies.currentEnforcer s.stored)
            t.clock.ns raw targets = .ok () ↔ MayRead somePolicies s.stored t raw targets))
        { clock := someClock } aliceIssue)
      (Nodes.initial []) staffGrants ∧
    ∃ s t, Transition.run (Nodes.step sized) (Nodes.initial []) staffGrants = some s ∧
      Transition.run (TokenService.step someEnv) { clock := someClock } aliceIssue = some t ∧
      t.Apart someEnv aliceToken ∧ MayRead somePolicies s.stored t aliceToken [("shop", "prod")] ∧
      ¬ MayRead somePolicies s.stored t aliceToken [("shop", "dev")] := by
  have hall := authorize_iff_mayRead somePolicies_documented stocked_nil staffGrants someEnv
    someClock aliceIssue
  obtain ⟨s, hs, hrest⟩ := Option.bind_eq_some_iff.mp aliceToken_accepted
  obtain ⟨t, ht, hanswers⟩ := Option.map_eq_some_iff.mp hrest
  obtain ⟨hlog, hmay⟩ := Prod.mk.inj hanswers
  have hapart : t.Apart someEnv aliceToken := by
    intro token hmem _
    rw [hlog, List.mem_singleton] at hmem
    cases hmem
    rfl
  have hstate := ((hall.of_run hs).of_run ht) aliceToken
  obtain ⟨hprod, hdev⟩ := List.cons.inj hmay
  refine ⟨hall, s, t, hs, ht, hapart, (hstate _ hapart (List.cons_ne_nil _ _)).mp ?_, ?_⟩
  · obtain ⟨_, hok⟩ := isOk_iff.mp hprod
    exact hok
  · intro hread
    have hok := (hstate _ hapart (List.cons_ne_nil _ _)).mpr hread
    exact Bool.false_ne_true ((List.cons.inj hdev).1.symm.trans (isOk_iff.mpr ⟨(), hok⟩))

/-! ## Management -/

/-- An empty domain stands for any. -/
def hasSuperadminBinding (m : Model) (account domain : String) : Bool :=
  (m.GetFilteredGroupingPolicy account).any fun binding =>
    3 ≤ binding.length && binding[1]? = some (rbacRole "superadmin") &&
      (domain = "" || binding[2]? = some domain)

/-- What the current policies say about the operator and the account, in `authorizeManagement`. -/
def Policies.management (c : Policies) (stored : List Casbin_Policy)
    (operator account action : String) : Except GoError Unit := do
  let m ← c.currentPolicy stored
  match c.enforcer m operator "cluster" "acl" action with
  | .error _ => .error (.errorf "token management policy: " (.concept Err_INTERNAL))
  | .ok false => .error (.concept Err_PERMISSION_DENIED)
  | .ok true =>
      if action ≠ "w" then .ok ()
      else if hasSuperadminBinding m account "" = false then .ok ()
      else if hasSuperadminBinding m operator "*" = false then
        .error (.concept Err_PERMISSION_DENIED)
      else .ok ()

/-- The operator administers the whole cluster, and with it superadmins only if it is one in all
domains. -/
structure Administers (m : Model) (operator account : String) : Prop where
  cluster : ∃ role ∈ ["superadmin", "admin"], operator = "role:" ++ role ∨
    ∃ rule ∈ m.g, ∃ p, Binds operator role p rule ∧ (p = "*" ∨ p = "cluster")
  superadmin : (∃ rule ∈ m.g, ∃ p, Binds account "superadmin" p rule) →
    ∃ rule ∈ m.g, Binds operator "superadmin" "*" rule

theorem hasSuperadminBinding_iff {m : Model} {account : String} (h : account ≠ "")
    (domain : String) : hasSuperadminBinding m account domain = true ↔
      ∃ rule ∈ m.g, ∃ p, Binds account "superadmin" p rule ∧ (domain = "" ∨ p = domain) := by
  unfold hasSuperadminBinding Model.GetFilteredGroupingPolicy
  simp only [List.any_filter, List.any_eq_true]
  refine exists_congr fun rule => and_congr_right fun _ => ?_
  match rule with
  | [] => simp [Binds]
  | [_] => simp [Binds]
  | [_, _] => simp [Binds]
  | first :: role :: p :: rest => simp [Binds, h, and_assoc]

theorem permits_manage {role : String} : Permits role "acl" "w" ↔
    role ∈ ["superadmin", "admin"] := by
  simp [Permits]

theorem management_iff {c : Policies} (hcasbin : c.Documented) {stored : List Casbin_Policy}
    (hstored : Stocked stored) {operator account : String} (hoperator : operator ≠ "")
    (haccount : account ≠ "") :
    c.management stored operator account "w" = .ok () ↔
      ∃ m, c.currentPolicy stored = .ok m ∧ Administers m operator account := by
  unfold Policies.management
  cases hm : c.currentPolicy stored with
  | error err => simp [bind, Except.bind]
  | ok m =>
    have hcluster : c.enforcer m operator "cluster" "acl" "w" = .ok true ↔
        ∃ role ∈ ["superadmin", "admin"], operator = "role:" ++ role ∨
          ∃ rule ∈ m.g, ∃ p, Binds operator role p rule ∧ (p = "*" ∨ p = "cluster") := by
      rw [c.enforcer_ok hcasbin hstored hm ⟨operator, "cluster", "acl", "w"⟩]
      unfold Holds
      simp only [covers_cluster, permits_manage]
      exact exists_congr fun role => and_comm
    have htarget : hasSuperadminBinding m account "" = false ↔
        ¬ ∃ rule ∈ m.g, ∃ p, Binds account "superadmin" p rule := by
      rw [← Bool.not_eq_true, hasSuperadminBinding_iff haccount]
      simp
    have hglobal : hasSuperadminBinding m operator "*" = false ↔
        ¬ ∃ rule ∈ m.g, Binds operator "superadmin" "*" rule := by
      rw [← Bool.not_eq_true, hasSuperadminBinding_iff hoperator]
      simp
    have hadministers : Administers m operator account ↔
        c.enforcer m operator "cluster" "acl" "w" = .ok true ∧
          (hasSuperadminBinding m account "" = false ∨
            ¬ hasSuperadminBinding m operator "*" = false) := by
      rw [hcluster, htarget, hglobal, not_not, ← imp_iff_not_or]
      exact ⟨fun h => ⟨h.cluster, h.superadmin⟩, fun h => ⟨h.1, h.2⟩⟩
    simp only [Except.ok.injEq, exists_eq_left']
    rw [hadministers]
    dsimp only [bind, Except.bind]
    generalize c.enforcer m operator "cluster" "acl" "w" = answer
    match answer with
    | .error err => simp
    | .ok false => simp
    | .ok true =>
      dsimp only
      rw [and_iff_right rfl, if_neg (not_not_intro rfl)]
      by_cases hfree : hasSuperadminBinding m account "" = false
      · rw [if_pos hfree]
        exact iff_of_true rfl (Or.inl hfree)
      · rw [if_neg hfree, or_iff_right hfree]
        by_cases hnot : hasSuperadminBinding m operator "*" = false
        · rw [if_pos hnot]
          exact iff_of_false (fun h => by cases h) (not_not_intro hnot)
        · rw [if_neg hnot]
          exact iff_of_true rfl hnot

section Manage

variable {env : TokenEnv} {users : UserStore} {operator : Option String}

theorem OperatorFromContext_ne_empty (operator : Option String) :
    OperatorFromContext operator ≠ "" := by
  unfold OperatorFromContext
  split
  · decide
  · split
    · decide
    · next h => exact h

theorem authorizeManagement_iff (hfiled : Filed users) {policy : Except GoError Unit} :
    env.authorizeManagement users operator policy = .ok () ↔
      env.validTokenAccount (OperatorFromContext operator) = true ∧
        Usable users (OperatorFromContext operator) ∧ policy = .ok () := by
  unfold TokenEnv.authorizeManagement
  dsimp only
  rw [← validateUser_iff hfiled]
  cases env.validTokenAccount (OperatorFromContext operator) with
  | false => simp
  | true =>
    rw [if_neg (by decide), and_iff_right rfl]
    cases env.validateUser users (OperatorFromContext operator) with
    | error err => simp only; split <;> simp
    | ok _ => simp

/-- The arguments of a token are in order. -/
structure Issuable (env : TokenEnv) (account name : String) (expiresIn : Int) : Prop where
  account : env.validTokenAccount account = true
  name : trimSpace name ≠ "" ∧ (trimSpace name).length ≤ 100
  lifetime : expiresIn = 0 ∨ second ≤ expiresIn ∧ expiresIn ≤ tokenLifetimeMax

theorem issuable_iff {account name : String} {expiresIn : Int} :
    ¬ (env.validTokenAccount account = false ∨ trimSpace name = "" ∨
      100 < (trimSpace name).length ∨
      (if expiresIn = 0 then tokenLifetimeDefault else expiresIn) < second ∨
      tokenLifetimeMax < if expiresIn = 0 then tokenLifetimeDefault else expiresIn) ↔
    Issuable env account name expiresIn := by
  have hlifetime : ¬ (if expiresIn = 0 then tokenLifetimeDefault else expiresIn) < second ∧
      (¬ tokenLifetimeMax < if expiresIn = 0 then tokenLifetimeDefault else expiresIn) ↔
      expiresIn = 0 ∨ second ≤ expiresIn ∧ expiresIn ≤ tokenLifetimeMax := by
    unfold tokenLifetimeDefault tokenLifetimeMax second
    split
    · next h => simp [h]
    · next h => omega
  simp only [not_or, Bool.not_eq_false]
  rw [hlifetime, not_lt]
  exact ⟨fun ⟨haccount, hname, hlength, hlife⟩ => ⟨haccount, ⟨hname, hlength⟩, hlife⟩,
    fun ⟨haccount, ⟨hname, hlength⟩, hlife⟩ => ⟨haccount, hname, hlength, hlife⟩⟩

theorem IssueToken_iff (hfiled : Filed users) {tokens : TokenStore} {policy : Except GoError Unit}
    {account name : String} {expiresIn now : Int} {random : Option Secret} :
    (∃ result, env.IssueToken users tokens operator policy account name expiresIn random now =
      .ok result) ↔
    Issuable env account name expiresIn ∧
      env.authorizeManagement users operator policy = .ok () ∧ Usable users account ∧
      ∃ secret, random = some secret ∧
        tokens (tokenKey account (env.tokenDigest (rawToken account secret))) = none := by
  rw [← issuable_iff, ← validateUser_iff hfiled]
  unfold TokenEnv.IssueToken
  dsimp only
  generalize (if expiresIn = 0 then tokenLifetimeDefault else expiresIn) = lifetime
  split
  · next hbad => exact iff_of_false (fun ⟨_, h⟩ => by cases h) fun h => h.1 hbad
  · next hgood =>
    rw [and_iff_right hgood]
    cases env.authorizeManagement users operator policy with
    | error err => simp [bind, Except.bind]
    | ok _ =>
      cases env.validateUser users account with
      | error err => simp [bind, Except.bind, Except.mapError]
      | ok _ =>
        simp only [bind, Except.bind, Except.mapError, true_and]
        cases random with
        | none => simp
        | some secret =>
          simp only [Option.some.injEq, exists_eq_left']
          cases tokens (tokenKey account (env.tokenDigest (rawToken account secret))) with
          | none => simp
          | some token => simp

theorem RevokeToken_iff {tokens : TokenStore} {policy : Except GoError Unit} {account : String}
    {id : Bytes} :
    (∃ tokens', env.RevokeToken users tokens operator policy account id = .ok tokens') ↔
      env.validTokenAccount account = true ∧ validTokenID id = true ∧
        env.authorizeManagement users operator policy = .ok () := by
  unfold TokenEnv.RevokeToken
  split
  · next hbad =>
    refine iff_of_false (fun ⟨_, h⟩ => by cases h) fun ⟨haccount, hid, _⟩ => ?_
    rcases hbad with hbad | hbad
    · exact Bool.false_ne_true (hbad.symm.trans haccount)
    · exact Bool.false_ne_true (hbad.symm.trans hid)
  · next hgood =>
    simp only [not_or, Bool.not_eq_false] at hgood
    rw [and_iff_right hgood.1, and_iff_right hgood.2]
    cases env.authorizeManagement users operator policy with
    | error err => simp [bind, Except.bind]
    | ok _ => simp [bind, Except.bind, pure, Except.pure]

end Manage

/-- By the record as it is now, the operator may manage the tokens of the account. -/
def Manages (c : Policies) (stored : List Casbin_Policy) (env : TokenEnv) (users : UserStore)
    (operator : Option String) (account : String) : Prop :=
  env.validTokenAccount (OperatorFromContext operator) = true ∧
    Usable users (OperatorFromContext operator) ∧
    ∃ m, c.currentPolicy stored = .ok m ∧ Administers m (OperatorFromContext operator) account

/-- Who may issue a token for the account, and who may revoke one. -/
structure Managed (c : Policies) (stored : List Casbin_Policy) (env : TokenEnv)
    (t : TokenService) (operator : Option String) (account : String) : Prop where
  issue : ∀ name expiresIn random,
    (∃ result, env.IssueToken t.users t.tokens operator
      (c.management stored (OperatorFromContext operator) account "w") account name expiresIn
        random t.clock.ns = .ok result) ↔
      Issuable env account name expiresIn ∧ Manages c stored env t.users operator account ∧
        Usable t.users account ∧ ∃ secret, random = some secret ∧
          t.tokens (tokenKey account (env.tokenDigest (rawToken account secret))) = none
  revoke : ∀ id,
    (∃ tokens', env.RevokeToken t.users t.tokens operator
      (c.management stored (OperatorFromContext operator) account "w") account id = .ok tokens') ↔
      env.validTokenAccount account = true ∧ validTokenID id = true ∧
        Manages c stored env t.users operator account

theorem managed_step {c : Policies} (hcasbin : c.Documented) {stored : List Casbin_Policy}
    (hstored : Stocked stored) {env : TokenEnv} (hparse : env.ParseAddress "" = none)
    {t : TokenService} (ht : TokenService.Inv env t) (operator : Option String) (account : String) :
    Managed c stored env t operator account := by
  have hnonempty : env.validTokenAccount account = true → account ≠ "" := by
    rintro haccount rfl
    simp [TokenEnv.validTokenAccount, hparse] at haccount
  have hmanages : env.validTokenAccount account = true →
      (env.authorizeManagement t.users operator
        (c.management stored (OperatorFromContext operator) account "w") = .ok () ↔
        Manages c stored env t.users operator account) := by
    intro haccount
    rw [authorizeManagement_iff ht.filed, management_iff hcasbin hstored
      (OperatorFromContext_ne_empty operator) (hnonempty haccount)]
    exact Iff.rfl
  constructor
  · intro name expiresIn random
    rw [IssueToken_iff ht.filed]
    exact and_congr_right fun hissuable => and_congr_left' (hmanages hissuable.account)
  · intro id
    rw [RevokeToken_iff]
    exact and_congr_right fun haccount => and_congr_right fun _ => hmanages haccount

/-- In every state that the cluster and the tokens can be in, tokens are issued and revoked by the
administrators of the cluster alone, and those of a superadmin by superadmins alone. -/
theorem managed_run {c : Policies} (hcasbin : c.Documented) {ι κ : Type} [DecidableEq ι]
    [DecidableEq κ] {stored : List Casbin_Policy} (hstored : Stocked stored)
    (ls : List (Nodes.Step ι κ)) {env : TokenEnv} (hparse : env.ParseAddress "" = none)
    (clock : Clock) (ms : List TokenService.Step) :
    Transition.EachState (Nodes.step c.casbin)
      (fun s => Transition.EachState (TokenService.step env)
        (fun t => ∀ operator account, Managed c s.stored env t operator account)
        { clock := clock } ms)
      (Nodes.initial stored) ls :=
  (Nodes.provided_run c.casbin hstored ls).mono fun _ hs =>
    (TokenService.inv_run env clock ms).mono fun _ ht =>
      managed_step hcasbin hs.stored hparse ht

/-- Of the two, Ann can issue the token. -/
theorem aliceToken_issuable :
    ((Transition.run (Nodes.step sized) (Nodes.initial []) staffGrants).bind fun s =>
      (Transition.run (TokenService.step someEnv) { clock := someClock } staffUsers).map fun t =>
        ["ann@x.io", "alice@x.io"].map fun operator =>
          (someEnv.IssueToken t.users t.tokens (some operator)
            (somePolicies.management s.stored operator "alice@x.io" "w") "alice@x.io" " laptop " 0
            (some aliceSecret) t.clock.ns).isOk) = some [true, false] := by
  decide +kernel

theorem managed_run_issued :
    Transition.EachState (Nodes.step sized)
      (fun s => Transition.EachState (TokenService.step someEnv)
        (fun t => ∀ operator account, Managed somePolicies s.stored someEnv t operator account)
        { clock := someClock } staffUsers)
      (Nodes.initial []) staffGrants ∧
    ∃ s t, Transition.run (Nodes.step sized) (Nodes.initial []) staffGrants = some s ∧
      Transition.run (TokenService.step someEnv) { clock := someClock } staffUsers = some t ∧
      Manages somePolicies s.stored someEnv t.users (some "ann@x.io") "alice@x.io" ∧
      ¬ Manages somePolicies s.stored someEnv t.users (some "alice@x.io") "alice@x.io" := by
  have hparse : someEnv.ParseAddress "" = none := by decide +kernel
  have hall := managed_run somePolicies_documented stocked_nil staffGrants hparse someClock
    staffUsers
  obtain ⟨s, hs, hrest⟩ := Option.bind_eq_some_iff.mp aliceToken_issuable
  obtain ⟨t, ht, hanswers⟩ := Option.map_eq_some_iff.mp hrest
  obtain ⟨hann, halice⟩ := List.cons.inj hanswers
  have hstate := (hall.of_run hs).of_run ht
  obtain ⟨hissuable, hmanages, husable, hfresh⟩ :=
    ((hstate (some "ann@x.io") "alice@x.io").issue " laptop " 0 (some aliceSecret)).mp
      (isOk_iff.mp hann)
  refine ⟨hall, s, t, hs, ht, hmanages, fun hother => ?_⟩
  have hok := ((hstate (some "alice@x.io") "alice@x.io").issue " laptop " 0 (some aliceSecret)).mpr
    ⟨hissuable, hother, husable, hfresh⟩
  exact Bool.false_ne_true ((List.cons.inj halice).1.symm.trans (isOk_iff.mpr hok))

end Cassem.Coord
