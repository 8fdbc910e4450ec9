import Cassem.Coord.PolicyRoundTrip
import Cassem.Coord.RolePersistence

/-!
# Role changes on several admin processes

Each process loads the policy when it starts and keeps it; a save writes all of it over the record.
A change in memory and the marshalling of the rules are one step, the write of the record another,
so that loads, changes and writes of other processes may come between. What the calls that returned
nil have promised stays true exactly as long as nothing stale is written.
-/

namespace Cassem.Coord

open Lib Cassem.Concept

variable {ι κ : Type}

inductive Proc where
  | off
  | starting
  | up (m : Model)

/-- A save on its way, with the rules that it carries: that of `AutoMigrate` at the start of a
process, or that of a grant or a revocation. -/
inductive Flight (ι : Type) where
  | migration (i : ι) (m : Model)
  | change (grant : Bool) (rule : Rule) (m : Model)

def Flight.model : Flight ι → Model
  | migration _ m | change _ _ m => m

/-- The record and the processes. `last` keeps what was promised of a rule: that a call to grant it
(true) or to revoke it returned nil and no opposite call was made since. -/
structure Nodes (ι κ : Type) where
  stored : List Casbin_Policy
  procs : ι → Proc
  flights : κ → Option (Flight ι)
  last : Rule → Option Bool

namespace Nodes

/-- A record, before any process has started. -/
def initial (stored : List Casbin_Policy) : Nodes ι κ where
  stored := stored
  procs _ := .off
  flights _ := none
  last _ := none

inductive Step (ι κ : Type) where
  | start (k : κ) (i : ι)
  | AssignRole (k : κ) (i : ι) (account role : String) (domain : List String)
      (link : Option GoError)
  | RevokeRole (k : κ) (i : ι) (account role : String) (domain : List String)
      (link : Option GoError)
  /-- What becomes of the save of call `k`. -/
  | land (k : κ) (save : Save)

variable [DecidableEq ι] [DecidableEq κ]

/-- An opposite promise ends when the call is made. -/
def attempted (last : Rule → Option Bool) (grant : Bool) (rule : Rule) : Rule → Option Bool :=
  Function.update last rule (if last rule = some grant then some grant else none)

/-- A call has changed the rules of process `i`, or found nothing to change. -/
def changed (s : Nodes ι κ) (k : κ) (i : ι) (grant : Bool) (rule : Rule)
    (change : Model × Except GoError Bool) : Nodes ι κ :=
  let s := { s with
    procs := Function.update s.procs i (.up change.1)
    last := attempted s.last grant rule }
  match change.2 with
  | .error _ => s
  | .ok false => { s with last := Function.update s.last rule (some grant) }
  | .ok true =>
      { s with flights := Function.update s.flights k (some (.change grant rule change.1)) }

/-- `newRBAC`, up to the save of `AutoMigrate`. -/
def start (c : Casbin) (s : Nodes ι κ) (k : κ) (i : ι) : Nodes ι κ :=
  let loaded := c.loadLines {} s.stored
  match c.links loaded with
  | some _ => s
  | none =>
      let (m, missing) := addBuiltin loaded
      if missing = false then { s with procs := Function.update s.procs i (.up m) }
      else
        { s with
          procs := Function.update s.procs i .starting
          flights := Function.update s.flights k (some (.migration i m)) }

def land (s : Nodes ι κ) (k : κ) (flight : Flight ι) (save : Save) : Nodes ι κ :=
  let (a, res) := SavePolicy ⟨flight.model, s.stored⟩ save
  let s := { s with stored := a.stored, flights := Function.update s.flights k none }
  match flight, res with
  | .migration i m, .ok () => { s with procs := Function.update s.procs i (.up m) }
  | .migration i _, .error _ => { s with procs := Function.update s.procs i .off }
  | .change grant rule _, .ok () => { s with last := Function.update s.last rule (some grant) }
  | .change _ _ _, .error _ => s

def step (c : Casbin) (s : Nodes ι κ) : Step ι κ → Option (Nodes ι κ)
  | .start k i =>
      match s.procs i, s.flights k with
      | .off, none => some (s.start c k i)
      | _, _ => none
  | .AssignRole k i account role domain link =>
      match s.procs i, s.flights k with
      | .up m, none =>
          if normalizeRole role = "superadmin" then some s
          else
            let rule := account :: rbacRole role :: domain
            some (s.changed k i true rule (m.AddRoleForUser rule link))
      | _, _ => none
  | .RevokeRole k i account role domain link =>
      match s.procs i, s.flights k with
      | .up m, none =>
          match AccountEnv.rejectSuperadminTarget (.ok (userHasRole m account "superadmin"))
            "revoke" with
          | .error _ => some s
          | .ok () =>
              let rule := account :: rbacRole role :: domain
              some (s.changed k i false rule (m.DeleteRoleForUser rule link))
      | _, _ => none
  | .land k save =>
      match s.flights k with
      | some flight => some (s.land k flight save)
      | none => none

/-! ## What was promised -/

/-- What a promise says of the record. -/
def Keeps (lines : List Casbin_Policy) (grant : Bool) (rule : Rule) : Prop :=
  if grant = true then HasRule lines rule else ¬ HasRule lines rule

/-- Every grant that returned nil and was not revoked afterwards is in the record, and no
revocation that returned nil is undone. -/
def Acknowledged (s : Nodes ι κ) : Prop :=
  ∀ rule grant, s.last rule = some grant → Keeps s.stored grant rule

/-! ## When nothing stale is written -/

end Nodes

/-- The rule that is granted or revoked. -/
def Flight.rule? : Flight ι → Option Rule
  | migration _ _ => none
  | change _ rule _ => some rule

/-- The granted rule fits into a line; the revoked one has not the line of another rule. -/
def Flight.Fits : Flight ι → Prop
  | migration _ _ => True
  | change true rule _ => rule.length ≤ 6
  | change false rule m => ¬ Acl.SameLine m rule

namespace Nodes

variable [DecidableEq ι] [DecidableEq κ]

/-- What is written agrees with the record about the rule. -/
def Agrees (s : Nodes ι κ) (flight : Flight ι) (rule : Rule) : Prop :=
  HasRule (policyLines flight.model) rule ↔ HasRule s.stored rule

/-- A call that finds nothing to change finds the record agreeing with its memory; and a save that
is written agrees with the record about every other rule of which something is promised. -/
def Current (s : Nodes ι κ) (l : Step ι κ) (_ : Nodes ι κ) : Prop :=
  match l with
  | .start _ _ => True
  | .AssignRole _ i account role domain _ =>
      ∀ m, s.procs i = .up m → normalizeRole role ≠ "superadmin" →
        account :: rbacRole role :: domain ∈ m.g →
          HasRule s.stored (account :: rbacRole role :: domain)
  | .RevokeRole _ i account role domain _ =>
      ∀ m, s.procs i = .up m → userHasRole m account "superadmin" = false →
        account :: rbacRole role :: domain ∉ m.g →
          ¬ HasRule s.stored (account :: rbacRole role :: domain)
  | .land k .done =>
      ∀ flight, s.flights k = some flight → flight.Fits ∧
        ∀ rule, flight.rule? ≠ some rule → s.last rule ≠ none → s.Agrees flight rule
  | .land _ (.refused _) => True
  | .land k (.unanswered _) =>
      ∀ flight, s.flights k = some flight → ∀ rule, s.last rule ≠ none → s.Agrees flight rule

/-- A save carries its rule exactly when it is a grant's. -/
def Marshalled (s : Nodes ι κ) : Prop :=
  ∀ k grant rule m, s.flights k = some (.change grant rule m) → (rule ∈ m.g ↔ grant = true)

section Promises

variable {s s' : Nodes ι κ} {k : κ} {i : ι} {grant : Bool} {rule : Rule} {m : Model}
  {change : Model × Except GoError Bool}

/-- The promises, after a new one. -/
theorem promises_update {last : Rule → Option Bool} {Q : Rule → Bool → Prop} :
    (∀ other b, Function.update last rule (some grant) other = some b → Q other b) ↔
      Q rule grant ∧ ∀ other b, other ≠ rule → last other = some b → Q other b := by
  constructor
  · intro h
    refine ⟨h rule grant (Function.update_self ..), fun other b hother hlast => ?_⟩
    exact h other b ((Function.update_of_ne hother ..).trans hlast)
  · rintro ⟨hnew, hrest⟩ other b hlast
    by_cases hother : other = rule
    · rw [hother, Function.update_self] at hlast
      cases hlast
      exact hother ▸ hnew
    · rw [Function.update_of_ne hother] at hlast
      exact hrest other b hother hlast

theorem attempted_eq_some {last : Rule → Option Bool} {other : Rule} {b : Bool}
    (h : attempted last grant rule other = some b) : last other = some b := by
  unfold attempted at h
  by_cases hother : other = rule
  · rw [hother, Function.update_self] at h
    split at h
    · next hlast =>
      rw [hother, hlast, h]
    · cases h
  · rwa [Function.update_of_ne hother] at h

omit [DecidableEq ι] [DecidableEq κ] in
/-- What was promised is kept by a save exactly when it agrees with the record. -/
theorem keeps_iff (h : s.Acknowledged) (flight : Flight ι) (P : Rule → Prop) :
    (∀ rule grant, P rule → s.last rule = some grant →
      Keeps (policyLines flight.model) grant rule) ↔
    ∀ rule, P rule → s.last rule ≠ none → s.Agrees flight rule := by
  have hone : ∀ rule grant, s.last rule = some grant →
      (Keeps (policyLines flight.model) grant rule ↔ s.Agrees flight rule) := by
    intro rule grant hlast
    have hkept := h rule grant hlast
    unfold Keeps at hkept ⊢
    unfold Agrees
    cases grant with
    | true =>
      rw [if_pos rfl] at hkept ⊢
      exact (iff_true_right hkept).symm
    | false =>
      rw [if_neg Bool.false_ne_true] at hkept ⊢
      exact (iff_false_right hkept).symm
  constructor
  · intro hall rule hP hne
    obtain ⟨grant, hlast⟩ := Option.ne_none_iff_exists'.mp hne
    exact (hone rule grant hlast).mp (hall rule grant hP hlast)
  · intro hall rule grant hP hlast
    exact (hone rule grant hlast).mpr (hall rule hP (by rw [hlast]; exact Option.some_ne_none _))

/-- Where the call changed something, or failed, nothing new is promised yet. -/
theorem acknowledged_changed (h : s.Acknowledged) :
    (s.changed k i grant rule change).Acknowledged ↔
      (change.2 = .ok false → Keeps s.stored grant rule) := by
  have hold : ∀ other b, attempted s.last grant rule other = some b → Keeps s.stored b other :=
    fun other b hlast => h other b (attempted_eq_some hlast)
  obtain ⟨m, res⟩ := change
  match res with
  | .error err => exact iff_of_true hold fun hres => by cases hres
  | .ok true => exact iff_of_true hold fun hres => by cases hres
  | .ok false =>
    show (∀ other b, Function.update (attempted s.last grant rule) rule (some grant) other = some b →
      Keeps s.stored b other) ↔ _
    rw [promises_update]
    exact ⟨fun hall _ => hall.1, fun hkept => ⟨hkept rfl, fun other b _ => hold other b⟩⟩

omit [DecidableEq ι] [DecidableEq κ] in
/-- The lines of a save keep what its own call promises where it fits. -/
theorem keeps_change (hm : rule ∈ m.g ↔ grant = true) :
    Keeps (policyLines m) grant rule ↔ (Flight.change grant rule m : Flight ι).Fits := by
  unfold Keeps Flight.Fits
  cases grant with
  | true =>
    rw [if_pos rfl, hasRule_policyLines]
    exact and_iff_left ⟨rule, hm.mpr rfl, rfl⟩
  | false =>
    have hnot : rule ∉ m.g := fun hmem => Bool.false_ne_true (hm.mp hmem)
    rw [if_neg Bool.false_ne_true, hasRule_policyLines]
    refine not_congr (and_congr_right fun _ => exists_congr fun other => ?_)
    exact and_congr_right fun hother =>
      (and_iff_right fun heq : other = rule => hnot (heq ▸ hother)).symm

theorem acknowledged_land (h : s.Acknowledged) (hs : s.Marshalled) {flight : Flight ι}
    (hflight : s.flights k = some flight) (save : Save) :
    (s.land k flight save).Acknowledged ↔ s.Current (.land k save) (s.land k flight save) := by
  have hflights : ∀ {Q : Flight ι → Prop},
      (∀ flight, s.flights k = some flight → Q flight) ↔ Q flight := by
    intro Q
    constructor
    · exact fun hall => hall flight hflight
    · intro hQ other hother
      cases hflight.symm.trans hother
      exact hQ
  have hall := s.keeps_iff h flight fun _ => True
  have hothers := s.keeps_iff h flight fun rule => flight.rule? ≠ some rule
  cases save with
  | refused err =>
    refine iff_of_true ?_ trivial
    cases flight with
    | migration i m => exact h
    | change grant rule m => exact h
  | unanswered err =>
    show _ ↔ ∀ flight, s.flights k = some flight → _
    rw [hflights]
    simp only [true_imp_iff] at hall
    cases flight with
    | migration i m => exact hall
    | change grant rule m => exact hall
  | done =>
    show _ ↔ ∀ flight, s.flights k = some flight → _
    rw [hflights]
    cases flight with
    | migration i m =>
      rw [← hothers]
      show (∀ rule grant, s.last rule = some grant → Keeps (policyLines m) grant rule) ↔ _
      simp [Flight.Fits, Flight.rule?, Flight.model]
    | change grant rule m =>
      show (∀ other b, Function.update s.last rule (some grant) other = some b →
        Keeps (policyLines m) b other) ↔ _
      have hne : ∀ other, (Flight.change grant rule m : Flight ι).rule? ≠ some other ↔
          other ≠ rule := by
        intro other
        simp [Flight.rule?, eq_comm]
      have hkept : Keeps (policyLines m) grant rule ↔
          (Flight.change grant rule m : Flight ι).Fits :=
        keeps_change (hs k grant rule m hflight)
      rw [promises_update, hkept, ← hothers]
      simp only [hne]
      rfl

/-! ## Runs -/

omit [DecidableEq ι] in
theorem marshalled_update {flight : Option (Flight ι)} (hs : s.Marshalled)
    (hflights : s'.flights = Function.update s.flights k flight)
    (hnew : ∀ grant rule m, flight = some (.change grant rule m) → (rule ∈ m.g ↔ grant = true)) :
    s'.Marshalled := by
  intro k' grant rule m hflight
  rw [hflights] at hflight
  by_cases hk : k' = k
  · rw [hk, Function.update_self] at hflight
    exact hnew grant rule m hflight
  · rw [Function.update_of_ne hk] at hflight
    exact hs k' grant rule m hflight

theorem marshalled_changed (hs : s.Marshalled) (hchange : change.2 = .ok true →
    (rule ∈ change.1.g ↔ grant = true)) : (s.changed k i grant rule change).Marshalled := by
  unfold changed
  obtain ⟨m, res⟩ := change
  match res with
  | .error err => exact hs
  | .ok false => exact hs
  | .ok true =>
    refine marshalled_update hs rfl fun grant' rule' m' hnew => ?_
    cases hnew
    exact hchange rfl

theorem marshalled_start {c : Casbin} (hs : s.Marshalled) : (s.start c k i).Marshalled := by
  unfold start
  dsimp only
  split
  · exact hs
  · split
    · exact hs
    · exact marshalled_update hs rfl fun grant rule m hnew => by cases hnew

theorem marshalled_land (hs : s.Marshalled) (flight : Flight ι) (save : Save) :
    (s.land k flight save).Marshalled := by
  have hflights : (s.land k flight save).flights = Function.update s.flights k none := by
    unfold land
    cases flight <;> cases save <;> rfl
  exact marshalled_update hs hflights fun grant rule m hnew => by cases hnew

theorem AddRoleForUser_ok_false (rule : Rule) (link : Option GoError) :
    (m.AddRoleForUser rule link).2 = .ok false ↔ rule ∈ m.g := by
  unfold Model.AddRoleForUser
  split
  · next h => exact iff_of_true rfl h
  · next h => exact iff_of_false Acl.linked_ne_false h

theorem DeleteRoleForUser_ok_false (rule : Rule) (link : Option GoError) :
    (m.DeleteRoleForUser rule link).2 = .ok false ↔ rule ∉ m.g := by
  unfold Model.DeleteRoleForUser
  split
  · next h => exact iff_of_false Acl.linked_ne_false (not_not_intro h)
  · next h => exact iff_of_true rfl h

omit [DecidableEq ι] [DecidableEq κ] in
theorem forall_up {Q : Model → Prop} {i : ι} {m : Model} (hproc : s.procs i = .up m) :
    (∀ m', s.procs i = .up m' → Q m') ↔ Q m := by
  simp [hproc]

/-- One step, on a state that keeps its promises. -/
theorem step_iff {c : Casbin} {l : Step ι κ} (hs : s.Marshalled) (hstep : step c s l = some s') :
    s'.Marshalled ∧ (s.Acknowledged → (s'.Acknowledged ↔ s.Current l s')) := by
  cases l with
  | start k i =>
    dsimp only [step] at hstep
    split at hstep
    · cases hstep
      refine ⟨marshalled_start hs, fun h => iff_of_true ?_ trivial⟩
      unfold start
      dsimp only
      split
      · exact h
      · split
        · exact h
        · exact h
    · cases hstep
  | AssignRole k i account role domain link =>
    dsimp only [step] at hstep
    split at hstep
    · next m hproc hflight =>
      show _ ∧ (_ → (_ ↔ ∀ m, s.procs i = .up m → _))
      rw [forall_up hproc]
      split at hstep
      · next hrole =>
        cases hstep
        exact ⟨hs, fun h => iff_of_true h fun hne => absurd hrole hne⟩
      · next hrole =>
        cases hstep
        refine ⟨marshalled_changed hs fun _ => ?_, fun h => ?_⟩
        · rw [AddRoleForUser_model]
          exact iff_of_true (Fold.mem_addNew.mpr (.inr rfl)) rfl
        · rw [acknowledged_changed h, AddRoleForUser_ok_false, imp_iff_right hrole]
          exact Iff.rfl
    · cases hstep
  | RevokeRole k i account role domain link =>
    dsimp only [step] at hstep
    split at hstep
    · next m hproc hflight =>
      show _ ∧ (_ → (_ ↔ ∀ m, s.procs i = .up m → _))
      rw [forall_up hproc]
      cases hhas : userHasRole m account "superadmin" with
      | true =>
        rw [hhas] at hstep
        cases hstep
        exact ⟨hs, fun h => iff_of_true h fun hfalse => by cases hfalse⟩
      | false =>
        rw [hhas] at hstep
        cases hstep
        refine ⟨marshalled_changed hs fun _ => ?_, fun h => ?_⟩
        · rw [DeleteRoleForUser_g]
          simp
        · rw [acknowledged_changed h, DeleteRoleForUser_ok_false, imp_iff_right rfl]
          exact Iff.rfl
    · cases hstep
  | land k save =>
    dsimp only [step] at hstep
    split at hstep
    · next flight hflight =>
      cases hstep
      exact ⟨marshalled_land hs flight save, fun h => acknowledged_land h hs hflight save⟩
    · cases hstep

end Promises

/-- From any record, what calls that returned nil have promised holds in every state of a run
exactly when every step of it is current. -/
theorem acknowledged_iff (c : Casbin) (stored : List Casbin_Policy) (ls : List (Step ι κ)) :
    Transition.EachState (step c) Acknowledged (initial stored) ls ↔
      Transition.EachStep (step c) Current (initial stored) ls :=
  Transition.eachState_iff_eachStep Marshalled
    (fun _ _ _ hs hstep => (step_iff hs hstep).1)
    (fun _ _ _ hs h hstep => (step_iff hs hstep).2 h)
    (fun _ _ _ _ h => by cases h) (fun _ _ h => by cases h) ls

/-- A change whose save lands next does what the call does on one process. -/
theorem changed_land (s : Nodes ι κ) (k : κ) (i : ι) (grant : Bool) (rule : Rule) (a : Acl)
    (ha : a.stored = s.stored) (call : String) {change : Model × Except GoError Bool}
    (hres : change.2 = .ok true) (save : Save) :
    ∃ flight, (s.changed k i grant rule change).flights k = some flight ∧
      ((s.changed k i grant rule change).land k flight save).procs i =
        .up (a.changed call change save).1.model ∧
      ((s.changed k i grant rule change).land k flight save).stored =
        (a.changed call change save).1.stored := by
  obtain ⟨m, res⟩ := change
  cases hres
  refine ⟨.change grant rule m, Function.update_self .., ?_⟩
  rw [changed_model]
  cases save with
  | done => exact ⟨Function.update_self .., rfl⟩
  | refused err => exact ⟨Function.update_self .., ha.symm⟩
  | unanswered err => exact ⟨Function.update_self .., rfl⟩

/-! ## Two processes -/

/-- Both processes start on an empty record, then each makes a grant. -/
def twoGrants : List (Step Bool Bool) :=
  [.start false false, .start true true, .land false .done, .land true .done,
    .AssignRole false false "alice@x.io" "visitor" ["shop/prod"] none, .land false .done,
    .AssignRole true true "bob@x.io" "visitor" ["shop/prod"] none, .land true .done]

/-- Both grants return nil, and the record has only the second. -/
theorem grant_lost :
    ((Transition.run (step sized) (initial [] : Nodes Bool Bool) twoGrants).map fun s =>
      (s.last ["alice@x.io", "role:visitor", "shop/prod"],
        decide (HasRule s.stored ["alice@x.io", "role:visitor", "shop/prod"]),
        decide (HasRule s.stored ["bob@x.io", "role:visitor", "shop/prod"]))) =
      some (some true, false, true) ∧
    ¬ ∀ ls, Transition.EachState (step sized) Acknowledged
      (initial [] : Nodes Bool Bool) ls := by
  have hrun : ((Transition.run (step sized) (initial [] : Nodes Bool Bool) twoGrants).map
      fun s => (s.last ["alice@x.io", "role:visitor", "shop/prod"],
        decide (HasRule s.stored ["alice@x.io", "role:visitor", "shop/prod"]),
        decide (HasRule s.stored ["bob@x.io", "role:visitor", "shop/prod"]))) =
      some (some true, false, true) := by
    decide +kernel
  refine ⟨hrun, fun h => ?_⟩
  obtain ⟨s, hs, heq⟩ := Option.map_eq_some_iff.mp hrun
  have hlast := (Prod.mk.inj heq).1
  have hlost := (Prod.mk.inj (Prod.mk.inj heq).2).1
  have hkept := (h twoGrants).of_run hs _ true hlast
  rw [Keeps, if_pos rfl] at hkept
  exact of_decide_eq_false hlost hkept

end Nodes

end Cassem.Coord
