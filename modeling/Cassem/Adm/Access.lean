import Cassem.Adm.Guard
import Cassem.Coord.Enforce

/-!
# Who may call what

The guard of the admin API over the policies of the process that serves it. What a request needs
is a binding, in a domain that the path of the request is in, of a role that permits what the
route is defined as.
-/

namespace Cassem.Adm

open Lib Cassem.Concept
open Coord (Model Nodes RoleLinks Binds Covers Reaches Permits Decides Allowed Linked)

/-- The API on a process that holds the policies. -/
def AdminAuth.enforcing (d : AdminAuth) (enforce : Coord.Enforce) (m : Model) (g : RoleLinks) :
    AdminAuth :=
  { d with Enforce := fun subject domain object act => enforce m g ⟨subject, domain, object, act⟩ }

theorem authenticated_enforcing {d : AdminAuth} {enforce : Coord.Enforce} {m : Model}
    {g : RoleLinks} {r : Request} {sess : Session} {user : User} :
    Authenticated (d.enforcing enforce m g) r sess user ↔ Authenticated d r sess user :=
  ⟨fun ⟨hheader, hnow, huser, hnormal, hsalt⟩ => ⟨hheader, hnow, huser, hnormal, hsalt⟩,
    fun ⟨hheader, hnow, huser, hnormal, hsalt⟩ => ⟨hheader, hnow, huser, hnormal, hsalt⟩⟩

/-- The domain of a binding, seen from the path of the request. -/
def InReach (r : Request) (p : String) : Prop :=
  if r.URLParam "appId" = "" then p = "*" ∨ p = "cluster"
  else Reaches p (r.URLParam "appId") (if r.URLParam "env" = "" then "*" else r.URLParam "env")

/-- The router cuts the path at its slashes. -/
def Segmented (r : Request) : Prop :=
  '/' ∉ (r.URLParam "appId").toList ∧ '/' ∉ (r.URLParam "env").toList

theorem covers_requestDomain {r : Request} (hr : Segmented r) {p : String} :
    Covers p (requestDomainHTTP r) ↔ InReach r p := by
  obtain ⟨happ, henv⟩ := hr
  have hall : '/' ∉ "*".toList := by decide
  unfold requestDomainHTTP domainFromParams InReach
  by_cases hnoapp : r.URLParam "appId" = ""
  · rw [if_neg fun h => h.1 hnoapp, if_neg fun h => h hnoapp, if_pos hnoapp]
    exact Coord.covers_cluster
  · rw [if_neg hnoapp]
    by_cases hnoenv : r.URLParam "env" = ""
    · rw [if_neg fun h => h.2 hnoenv, if_pos hnoapp, if_pos hnoenv]
      have hdomain : r.URLParam "appId" ++ "/*" = r.URLParam "appId" ++ "/" ++ "*" :=
        (String.append_assoc : _ ++ "/" ++ "*" = _ ++ ("/" ++ "*")).symm
      rw [hdomain]
      exact Coord.covers_iff happ hall
    · rw [if_pos ⟨hnoapp, hnoenv⟩, if_neg hnoenv]
      exact Coord.covers_iff happ henv

/-- The account has a binding in reach of the request, of a role that permits the route. An account
with the name of a role has that role everywhere. -/
def Entitled (m : Model) (route : Mount) (r : Request) (account : String) : Prop :=
  ∃ odef role, route.def? = some odef ∧ Permits role odef.object odef.act ∧
    (account = "role:" ++ role ∨ ∃ rule ∈ m.g, ∃ p, Binds account role p rule ∧ InReach r p)

theorem allowed_iff_entitled {m : Model} {g : RoleLinks} (hlinks : Linked m g) {route : Mount}
    {odef : ObjectDef} (hdef : route.def? = some odef) {r : Request} (hr : Segmented r)
    {account : String} :
    Allowed g ⟨account, requestDomainHTTP r, odef.object, odef.act⟩ ↔ Entitled m route r account := by
  rw [Coord.allowed_iff_holds hlinks]
  unfold Entitled Coord.Holds
  simp only [covers_requestDomain hr, hdef, Option.some.injEq]
  constructor
  · rintro ⟨role, hhas, hpermits⟩
    exact ⟨odef, role, rfl, hpermits, hhas⟩
  · rintro ⟨_, role, rfl, hpermits, hhas⟩
    exact ⟨role, hhas, hpermits⟩

/-- Whatever the processes of the cluster have done, a guarded handler of one of them runs exactly
for the session of a user who is entitled to the route. -/
theorem handlerRuns_iff_entitled {enforce : Coord.Enforce} (hcasbin : Coord.Documented enforce)
    (c : Coord.Casbin) {ι κ : Type} [DecidableEq ι] [DecidableEq κ]
    {stored : List Coord.Casbin_Policy} (hstored : Coord.Stocked stored)
    (ls : List (Nodes.Step ι κ)) :
    Transition.EachState (Nodes.step c)
      (fun s => ∀ i m, s.procs i = .up m → ∀ g, Linked m g → ∀ d : AdminAuth,
        ∀ route ∈ apiRoutes, route ≠ topologyRoute → ∀ r, Segmented r →
          (HandlerRuns (d.enforcing enforce m g) route r ↔
            ∃ sess user, Authenticated d r sess user ∧ Entitled m route r sess.Account))
      (Nodes.initial stored) ls := by
  refine (Nodes.provided_run c hstored ls).mono fun s h i m hup g hlinks d route hroute hne r hr => ?_
  obtain ⟨odef, hdef⟩ := Option.isSome_iff_exists.mp ((def?_isSome_iff route hroute).mpr hne)
  have hdecides : ∀ account, enforce m g ⟨account, requestDomainHTTP r, odef.object, odef.act⟩ =
      .ok true ↔ Entitled m route r account := by
    intro account
    rw [← allowed_iff_entitled hlinks hdef hr]
    exact (Coord.decides_of_builtin hcasbin (h.procs i m hup) g _).1
  rw [handlerRuns_iff hdef]
  constructor
  · rintro ⟨sess, user, odef', hauth, hdef', hallow⟩
    cases hdef.symm.trans hdef'
    exact ⟨sess, user, authenticated_enforcing.mp hauth, (hdecides sess.Account).mp hallow⟩
  · rintro ⟨sess, user, hauth, hentitled⟩
    exact ⟨sess, user, odef, authenticated_enforcing.mpr hauth, hdef,
      (hdecides sess.Account).mpr hentitled⟩

theorem handlerRuns_iff_entitled_twoGrants :
    Transition.EachState (Nodes.step Coord.sized)
      (fun s => ∀ i m, s.procs i = .up m → ∀ g, Linked m g → ∀ d : AdminAuth,
        ∀ route ∈ apiRoutes, route ≠ topologyRoute → ∀ r, Segmented r →
          (HandlerRuns (d.enforcing Coord.someAllow m g) route r ↔
            ∃ sess user, Authenticated d r sess user ∧ Entitled m route r sess.Account))
      (Nodes.initial []) Nodes.twoGrants :=
  handlerRuns_iff_entitled Coord.someAllow_documented Coord.sized Coord.stocked_nil Nodes.twoGrants

end Cassem.Adm
