import Cassem.Agent.Dispatch

/-!
# The checks in front of what is read

A call of `GetElement` and the loop of a `Watch` stream, with a step for each point at which
tokens can be revoked, elements dispatched or the store written: before and after the check of the
token, the look into the cache and the send. All else is as the listener does it.
-/

namespace Cassem.Agent

open Lib Cassem.Concept Cassem.Coord

/-! ## Calls and what is recorded of them -/

inductive GetPc where
  | begun
  | authorized
  | looked (cr : QueryCacheResult)
  | ended (resp : Except Fault (List Element))

structure GetCall where
  authorization : List String
  req : GetElementReq
  pc : GetPc

inductive Caller where
  | get (j : Nat)
  | watch (k : Nat)
  deriving DecidableEq, Repr

/-- A call begins, `AuthorizeToken` returns nil, a call is answered, a stream takes an update from
its channel and sends it. -/
inductive Event where
  | asked (j : Nat)
  | authorized (caller : Caller) (token : String) (targets : List TokenTarget)
  | answered (j : Nat) (elems : List Element)
  | received (k : Nat) (elem : Element)
  | sent (k : Nat) (elem : Element)
  deriving DecidableEq

/-- The update that a stream is at, and whether its token has been checked for it. -/
structure Held where
  elem : Element
  checked : Bool

/-- The listener, the calls of `GetElement`, what the streams are at, and the events, the last
first. -/
structure ReadAccess where
  base : Listener
  gets : List GetCall := []
  held : Nat → Option Held := fun _ => none
  log : List Event := []

namespace ReadAccess

inductive Step where
  | base (l : Listener.Step)
  | ask (authorization : List String) (req : GetElementReq)
  | authorizeGet (j : Nat)
  | lookUp (j : Nat) (now : String → Int)
  | answer (j : Nat)
  | take (k : Nat)
  | authorizeWatch (k : Nat)
  | send (k : Nat) (err : Option GoError)

/-- The steps of the listener that have no finer ones here, and that no stream makes while it is
at an update. -/
def Other (s : ReadAccess) : Listener.Step → Bool
  | .GetElement _ _ _ | .receive _ _ => false
  | .quit k => (s.held k).isNone
  | _ => true

def setGet (s : ReadAccess) (j : Nat) (c : GetCall) (pc : GetPc) : ReadAccess :=
  { s with gets := s.gets.set j { c with pc := pc } }

def setHeld (s : ReadAccess) (k : Nat) (h : Option Held) : ReadAccess :=
  { s with held := Function.update s.held k h }

def record (s : ReadAccess) (e : Event) : ReadAccess := { s with log := e :: s.log }

/-- The token that `bearerToken` finds. -/
def tokenOf (authorization : List String) : String :=
  match bearerToken authorization with
  | .ok token => token
  | .error _ => ""

variable (md5 : KV.Bytes → String) (v : Validator)

def step (s : ReadAccess) : Step → Option ReadAccess
  | .base l =>
      if s.Other l then (s.base.step md5 v l).map fun base => { s with base := base } else none
  | .ask authorization req =>
      let pc : GetPc :=
        if req.valid = false then
          .ended (.error (.error (.concept ⟨.invalidArgument, s.base.agent.violation req⟩)))
        else .begun
      let c : GetCall := ⟨authorization, req, pc⟩
      some ({ s with gets := s.gets ++ [c] }.record (.asked s.gets.length))
  | .authorizeGet j =>
      match s.gets[j]? with
      | some ⟨authorization, req, .begun⟩ =>
          let targets : List TokenTarget := [⟨req.App, req.Env⟩]
          match s.base.agent.authorize authorization targets with
          | some err => some (s.setGet j ⟨authorization, req, .begun⟩ (.ended (.error (.error err))))
          | none =>
              some ((s.setGet j ⟨authorization, req, .begun⟩ .authorized).record
                (.authorized (.get j) (tokenOf authorization) targets))
      | _ => none
  | .lookUp j now =>
      match s.gets[j]? with
      | some ⟨authorization, req, .authorized⟩ =>
          let (cr, cache) := queryFromCache now s.base.cache req.App req.Env req.Keys
          some { s.setGet j ⟨authorization, req, .authorized⟩ (.looked cr) with
            base := { s.base with cache := cache } }
      | _ => none
  | .answer j =>
      match s.gets[j]? with
      | some ⟨authorization, req, .looked cr⟩ =>
          let c : GetCall := ⟨authorization, req, .looked cr⟩
          if cr.miss = [] then
            some ((s.setGet j c (.ended (.ok cr.elems))).record (.answered j cr.elems))
          else
            match getElementsByKeys s.base.kv req.App req.Env cr.miss with
            | .error fault => some (s.setGet j c (.ended (.error fault)))
            | .ok elements =>
                let updates := elements.map fun elem => (req.App, req.Env, elem)
                some ({ s.setGet j c (.ended (.ok (cr.elems ++ elements))) with
                  base := { s.base with updates := s.base.updates ++ updates } }.record
                    (.answered j (cr.elems ++ elements)))
      | _ => none
  | .take k =>
      match s.base.watches[k]?, s.held k with
      | some ⟨authorization, req, .streaming (some ch)⟩, none =>
          let w : WatchCall := ⟨authorization, req, .streaming (some ch)⟩
          match (s.base.chans ch).take with
          | none =>
              if (s.base.chans ch).closed then
                some { s with base := s.base.setWatch k w (.leaving none) }
              else none
          | some (elem, c) =>
              let s := { s with
                base := { s.base with chans := Function.update s.base.chans ch c } }
              let s := s.record (.received k elem)
              if req.allowed (metadataAppOf elem) (metadataEnvOf elem) (metadataKeyOf elem) then
                some (s.setHeld k (some ⟨elem, false⟩))
              else some s
      | _, _ => none
  | .authorizeWatch k =>
      match s.base.watches[k]?, s.held k with
      | some w, some ⟨elem, false⟩ =>
          match s.base.agent.authorize w.authorization w.req.targets with
          | some err =>
              some { s.setHeld k none with base := s.base.setWatch k w (.leaving (some err)) }
          | none =>
              let update := (metadataAppOf elem, metadataEnvOf elem, elem)
              some (({ s.setHeld k (some ⟨elem, true⟩) with
                base := { s.base with updates := s.base.updates ++ [update] } }).record
                  (.authorized (.watch k) (tokenOf w.authorization) w.req.targets))
      | _, _ => none
  | .send k err =>
      match s.base.watches[k]?, s.held k with
      | some w, some ⟨elem, true⟩ =>
          match err with
          | some err =>
              some { s.setHeld k none with
                base := s.base.setWatch k w
                  (.leaving (some (.errorf "app.Watch.send: " err))) }
          | none =>
              let given : Given :=
                ⟨metadataAppOf elem, metadataEnvOf elem, metadataKeyOf elem, elem⟩
              some ({ s.setHeld k none with
                base := { s.base with given := s.base.given ++ [given] } }.record (.sent k elem))
      | _, _ => none

/-! ## What was authorized when -/

/-- The event is one with which the caller begins a call or comes to an update. -/
def Event.Opens : Caller → Event → Prop
  | .get j, .asked j' => j' = j
  | .watch k, .received k' _ => k' = k
  | _, _ => False

/-- The last event with which the caller began something is `start`. -/
def Opened (log : List Event) (start : Event) (caller : Caller) : Prop :=
  ∃ later earlier, log = later ++ start :: earlier ∧ ∀ e ∈ later, ¬ Event.Opens caller e

/-- Since then the caller's token has been authorized for the target. -/
def AuthorizedSince (log : List Event) (start : Event) (caller : Caller) (token : String)
    (target : TokenTarget) : Prop :=
  ∃ later earlier, log = later ++ start :: earlier ∧ (∀ e ∈ later, ¬ Event.Opens caller e) ∧
    ∃ targets, .authorized caller token targets ∈ later ∧ target ∈ targets

def getOf (s : ReadAccess) (j : Nat) : Option (List String × GetElementReq) :=
  s.gets[j]?.map fun c => (c.authorization, c.req)

def watchOf (s : ReadAccess) (k : Nat) : Option (List String × WatchReq) :=
  s.base.watches[k]?.map fun w => (w.authorization, w.req)

/-- What has to be so when an answer or an update is given out: the token of the call was
authorized during the call for what it names, the token of the stream after the update was
received, and the stream asked for what the update names. -/
def Justified (s : ReadAccess) : Event → List Event → Prop
  | .answered j _, log => ∃ authorization req token, s.getOf j = some (authorization, req) ∧
      bearerToken authorization = .ok token ∧
      AuthorizedSince log (.asked j) (.get j) token ⟨req.App, req.Env⟩
  | .sent k elem, log => ∃ authorization req token, s.watchOf k = some (authorization, req) ∧
      bearerToken authorization = .ok token ∧
      req.allowed (metadataAppOf elem) (metadataEnvOf elem) (metadataKeyOf elem) = true ∧
      AuthorizedSince log (.received k elem) (.watch k) token
        ⟨metadataAppOf elem, metadataEnvOf elem⟩
  | _, _ => True

def Authorized (s : ReadAccess) : Prop :=
  ∀ later e earlier, s.log = later ++ e :: earlier → s.Justified e earlier

theorem Opened.cons {log : List Event} {start : Event} {caller : Caller}
    (h : Opened log start caller) {e : Event} (he : ¬ Event.Opens caller e) :
    Opened (e :: log) start caller := by
  obtain ⟨later, earlier, rfl, hlater⟩ := h
  exact ⟨e :: later, earlier, rfl, List.forall_mem_cons.mpr ⟨he, hlater⟩⟩

theorem opened_self (log : List Event) (start : Event) (caller : Caller) :
    Opened (start :: log) start caller :=
  ⟨[], log, rfl, fun _ he => absurd he List.not_mem_nil⟩

theorem AuthorizedSince.cons {log : List Event} {start : Event} {caller : Caller}
    {token : String} {target : TokenTarget}
    (h : AuthorizedSince log start caller token target) {e : Event}
    (he : ¬ Event.Opens caller e) : AuthorizedSince (e :: log) start caller token target := by
  obtain ⟨later, earlier, rfl, hlater, targets, hmem, htarget⟩ := h
  exact ⟨e :: later, earlier, rfl, List.forall_mem_cons.mpr ⟨he, hlater⟩, targets,
    List.mem_cons_of_mem _ hmem, htarget⟩

theorem Opened.authorized {log : List Event} {start : Event} {caller : Caller}
    (h : Opened log start caller) (token : String) {target : TokenTarget}
    {targets : List TokenTarget} (htarget : target ∈ targets) :
    AuthorizedSince (.authorized caller token targets :: log) start caller token target := by
  obtain ⟨later, earlier, rfl, hlater⟩ := h
  refine ⟨_ :: later, earlier, rfl, List.forall_mem_cons.mpr ⟨?_, hlater⟩, targets,
    List.mem_cons_self, htarget⟩
  cases caller <;> exact id

theorem authorize_eq_none {d : AgentApp} {authorization : List String}
    {targets : List TokenTarget} (h : d.authorize authorization targets = none) :
    bearerToken authorization = .ok (tokenOf authorization) ∧
      ∃ AuthorizeToken, d.authorizer = some AuthorizeToken ∧
        AuthorizeToken (tokenOf authorization) targets = none := by
  unfold AgentApp.authorize at h
  unfold tokenOf
  split at h
  · cases h
  · next token htoken =>
    split at h
    · cases h
    · next AuthorizeToken hauth =>
      rw [htoken]
      exact ⟨rfl, AuthorizeToken, hauth, h⟩

/-- A stream that asks for a key has the key's app and environment among its targets. -/
theorem target_of_allowed {req : WatchReq} {app env key : String}
    (h : req.allowed app env key = true) : ⟨app, env⟩ ∈ req.targets := by
  unfold WatchReq.allowed at h
  obtain ⟨w, hw, hmatch⟩ := List.any_eq_true.mp h
  simp only [Bool.and_eq_true, decide_eq_true_eq] at hmatch
  obtain ⟨⟨rfl, rfl⟩, -⟩ := hmatch
  exact List.mem_map.mpr ⟨w, hw, rfl⟩

/-! ## What every step keeps -/

/-- What is known of the token of a call, by how far the call has come. -/
def GetCall.Cleared (log : List Event) (j : Nat) (c : GetCall) : Prop :=
  match c.pc with
  | .begun => Opened log (.asked j) (.get j)
  | .authorized | .looked _ => ∃ token, bearerToken c.authorization = .ok token ∧
      AuthorizedSince log (.asked j) (.get j) token ⟨c.req.App, c.req.Env⟩
  | .ended _ => True

/-- What is known of the update that a stream is at. -/
structure Held.Cleared (log : List Event) (k : Nat) (authorization : List String)
    (req : WatchReq) (h : Held) : Prop where
  allowed : req.allowed (metadataAppOf h.elem) (metadataEnvOf h.elem) (metadataKeyOf h.elem) = true
  received : Opened log (.received k h.elem) (.watch k)
  checked : h.checked = true → ∃ token, bearerToken authorization = .ok token ∧
    AuthorizedSince log (.received k h.elem) (.watch k) token
      ⟨metadataAppOf h.elem, metadataEnvOf h.elem⟩

structure Inv (s : ReadAccess) : Prop where
  log : s.Authorized
  gets : ∀ j c, s.gets[j]? = some c → GetCall.Cleared s.log j c
  held : ∀ k h, s.held k = some h → ∃ authorization req,
    s.watchOf k = some (authorization, req) ∧ Held.Cleared s.log k authorization req h

theorem GetCall.Cleared.cons {log : List Event} {j : Nat} {c : GetCall}
    (h : GetCall.Cleared log j c) {e : Event} (he : ¬ Event.Opens (.get j) e) :
    GetCall.Cleared (e :: log) j c := by
  unfold GetCall.Cleared at h ⊢
  split at h
  · exact h.cons he
  · obtain ⟨token, htoken, hsince⟩ := h
    exact ⟨token, htoken, hsince.cons he⟩
  · obtain ⟨token, htoken, hsince⟩ := h
    exact ⟨token, htoken, hsince.cons he⟩
  · trivial

theorem Held.Cleared.cons {log : List Event} {k : Nat} {authorization : List String}
    {req : WatchReq} {h : Held} (hc : Held.Cleared log k authorization req h) {e : Event}
    (he : ¬ Event.Opens (.watch k) e) : Held.Cleared (e :: log) k authorization req h where
  allowed := hc.allowed
  received := hc.received.cons he
  checked hchecked := by
    obtain ⟨token, htoken, hsince⟩ := hc.checked hchecked
    exact ⟨token, htoken, hsince.cons he⟩

/-- Calls and streams are added and keep their tokens and what they ask for. -/
structure Extends (s s' : ReadAccess) : Prop where
  getOf : ∀ j x, s.getOf j = some x → s'.getOf j = some x
  watchOf : ∀ k x, s.watchOf k = some x → s'.watchOf k = some x

theorem Justified.extends {s s' : ReadAccess} (hs : Extends s s') {e : Event} {log : List Event}
    (h : s.Justified e log) : s'.Justified e log := by
  cases e with
  | answered j elems =>
    obtain ⟨authorization, req, token, hof, hrest⟩ := h
    exact ⟨authorization, req, token, hs.getOf j _ hof, hrest⟩
  | sent k elem =>
    obtain ⟨authorization, req, token, hof, hrest⟩ := h
    exact ⟨authorization, req, token, hs.watchOf k _ hof, hrest⟩
  | asked _ => trivial
  | authorized _ _ _ => trivial
  | received _ _ => trivial

/-- An event at which everything given out so far stays justified. -/
theorem authorized_cons {s s' : ReadAccess} (h : s.Authorized) (hs : Extends s s') {e : Event}
    (hlog : s'.log = e :: s.log) (he : s'.Justified e s.log) : s'.Authorized := by
  intro later e' earlier heq
  rw [hlog] at heq
  cases later with
  | nil =>
    cases heq
    exact he
  | cons e'' later =>
    exact Justified.extends hs (h later e' earlier (List.cons.inj heq).2)

theorem authorized_same {s s' : ReadAccess} (h : s.Authorized) (hs : Extends s s')
    (hlog : s'.log = s.log) : s'.Authorized := fun later e earlier heq =>
  Justified.extends hs (h later e earlier (hlog ▸ heq))

/-- A step of the listener. -/
theorem Inv.setBase {s : ReadAccess} (h : Inv s) {base : Listener}
    (hwatch : ∀ k x, s.watchOf k = some x → { s with base := base }.watchOf k = some x) :
    Inv { s with base := base } where
  log := authorized_same h.log ⟨fun _ _ hof => hof, hwatch⟩ rfl
  gets := h.gets
  held k held hk := by
    obtain ⟨authorization, req, hof, hcleared⟩ := h.held k held hk
    exact ⟨authorization, req, hwatch k _ hof, hcleared⟩

/-- An event that nothing under way begins anew with. -/
theorem Inv.record {s : ReadAccess} (h : Inv s) {e : Event} (he : s.Justified e s.log)
    (hget : ∀ j, ¬ Event.Opens (.get j) e) (hwatch : ∀ k, s.held k ≠ none → ¬ Event.Opens (.watch k) e) :
    Inv (s.record e) where
  log := authorized_cons h.log ⟨fun _ _ hof => hof, fun _ _ hof => hof⟩ rfl he
  gets j c hj := (h.gets j c hj).cons (hget j)
  held k held hk := by
    obtain ⟨authorization, req, hof, hcleared⟩ := h.held k held hk
    exact ⟨authorization, req, hof, hcleared.cons (hwatch k (hk ▸ Option.some_ne_none held))⟩

theorem getOf_setGet {s : ReadAccess} {j : Nat} {c : GetCall} (hj : s.gets[j]? = some c)
    (pc : GetPc) (i : Nat) : (s.setGet j c pc).getOf i = s.getOf i := by
  show ((s.gets.set j _)[i]?).map _ = (s.gets[i]?).map _
  rw [List.getElem?_set]
  by_cases hij : j = i
  · subst hij
    rw [if_pos rfl, if_pos (List.getElem?_eq_some_iff.mp hj).1, hj]
    rfl
  · rw [if_neg hij]

/-- A call goes on. -/
theorem Inv.setGet {s : ReadAccess} (h : Inv s) {j : Nat} {c : GetCall}
    (hj : s.gets[j]? = some c) {pc : GetPc} (hpc : GetCall.Cleared s.log j { c with pc := pc }) :
    Inv (s.setGet j c pc) where
  log := authorized_same h.log ⟨fun i x hof => (getOf_setGet hj pc i).trans hof,
    fun _ _ hof => hof⟩ rfl
  gets i c' hi := by
    change (s.gets.set j _)[i]? = some c' at hi
    rw [List.getElem?_set] at hi
    split at hi
    · next hij =>
      subst hij
      split at hi
      · cases hi
        exact hpc
      · cases hi
    · exact h.gets i c' hi
  held := h.held

/-- A stream comes to an update, goes on with it or leaves it. -/
theorem Inv.setHeld {s : ReadAccess} (h : Inv s) (k : Nat) (held : Option Held)
    (hheld : ∀ h', held = some h' → ∃ authorization req, s.watchOf k = some (authorization, req) ∧
      Held.Cleared s.log k authorization req h') : Inv (s.setHeld k held) where
  log := authorized_same h.log ⟨fun _ _ hof => hof, fun _ _ hof => hof⟩ rfl
  gets := h.gets
  held i h' hi := by
    change Function.update s.held k held i = some h' at hi
    by_cases hik : i = k
    · subst hik
      rw [Function.update_self] at hi
      exact hheld h' hi
    · rw [Function.update_of_ne hik] at hi
      exact h.held i h' hi

/-! ## Steps of the listener -/

/-- The streams so far, with their tokens and requests, and perhaps more. -/
def WatchesKept (b b' : Listener) : Prop :=
  ∀ (k : Nat) (w : WatchCall), b.watches[k]? = some w →
    ∃ pc, b'.watches[k]? = some { w with pc := pc }

theorem watchesKept_of_eq {b b' : Listener} (h : b'.watches = b.watches) : WatchesKept b b' :=
  fun _ w hk => ⟨w.pc, h ▸ hk⟩

theorem watchesKept_set {b b' : Listener} {k : Nat} {w : WatchCall} (hk : b.watches[k]? = some w)
    {pc : WatchPc} (h : b'.watches = b.watches.set k { w with pc := pc }) : WatchesKept b b' := by
  intro i w' hi
  rw [h, List.getElem?_set]
  by_cases hki : k = i
  · subst hki
    cases hk.symm.trans hi
    rw [if_pos rfl, if_pos (List.getElem?_eq_some_iff.mp hk).1]
    exact ⟨pc, rfl⟩
  · rw [if_neg hki]
    exact ⟨w'.pc, hi⟩

variable {md5 v}

theorem watchesKept_step {b b' : Listener} {l : Listener.Step}
    (hs : b.step md5 v l = some b') : WatchesKept b b' := by
  cases Listener.step_effect hs with
  | notify hk =>
    rw [Listener.push_eq]
    exact watchesKept_of_eq rfl
  | Unregister hvalid =>
    rw [Listener.unregisterInstance_eq]
    exact watchesKept_of_eq rfl
  | Watch hpc =>
    intro k w hk
    refine ⟨w.pc, ?_⟩
    have hlt := (List.getElem?_eq_some_iff.mp hk).1
    exact (List.getElem?_append_left hlt).trans hk
  | register hk hpc => exact watchesKept_set hk rfl
  | registered hk hpc => exact watchesKept_set hk rfl
  | renew hk hpc => exact watchesKept_set hk rfl
  | renewFailed err hk => exact watchesKept_set hk rfl
  | closed sendErr hk => exact watchesKept_set hk rfl
  | dropped sendErr err hk htake => exact watchesKept_set hk rfl
  | sendFailed err hk htake => exact watchesKept_set hk rfl
  | quit hk => exact watchesKept_set hk rfl
  | unregister hk hpc =>
    rw [Listener.unregisterInstance_eq]
    exact watchesKept_set hk rfl
  | _ => exact watchesKept_of_eq rfl

theorem watchOf_of_kept {s : ReadAccess} {base : Listener} (h : WatchesKept s.base base)
    (k : Nat) (x : List String × WatchReq) (hof : s.watchOf k = some x) :
    { s with base := base }.watchOf k = some x := by
  obtain ⟨w, hw, rfl⟩ := Option.map_eq_some_iff.mp hof
  obtain ⟨pc, hw'⟩ := h k w hw
  exact Option.map_eq_some_iff.mpr ⟨_, hw', rfl⟩

/-! ## Every step -/

theorem getElem?_append_singleton {α : Type} {l : List α} {a b : α} {i : Nat}
    (h : (l ++ [a])[i]? = some b) : l[i]? = some b ∨ i = l.length ∧ a = b := by
  rcases Nat.lt_or_ge i l.length with hlt | hge
  · exact .inl ((List.getElem?_append_left hlt).symm.trans h)
  · rw [List.getElem?_append_right hge] at h
    obtain ⟨hzero, hab⟩ := Option.ite_none_right_eq_some.mp (List.getElem?_singleton ▸ h)
    exact .inr ⟨by omega, Option.some.inj hab⟩

theorem Inv.ask {s s' : ReadAccess} (h : Inv s) {authorization : List String} {req : GetElementReq}
    (hs : step md5 v s (.ask authorization req) = some s') : Inv s' := by
  cases hs
  refine ⟨authorized_cons h.log ⟨fun j x hof => ?_, fun _ _ hof => hof⟩ rfl trivial,
    fun j c hj => ?_, fun k held hk => ?_⟩
  · obtain ⟨c, hc, rfl⟩ := Option.map_eq_some_iff.mp hof
    have hlt := (List.getElem?_eq_some_iff.mp hc).1
    exact Option.map_eq_some_iff.mpr ⟨c, (List.getElem?_append_left hlt).trans hc, rfl⟩
  · rcases getElem?_append_singleton hj with hold | ⟨rfl, hnew⟩
    · have hlt := (List.getElem?_eq_some_iff.mp hold).1
      exact (h.gets j c hold).cons hlt.ne'
    · rw [← hnew]
      by_cases hvalid : req.valid = false
      · rw [if_pos hvalid]
        trivial
      · rw [if_neg hvalid]
        exact opened_self _ _ _
  · obtain ⟨authorization, req, hof, hcleared⟩ := h.held k held hk
    exact ⟨authorization, req, hof, hcleared.cons id⟩

theorem Inv.answer {s s' : ReadAccess} (h : Inv s) {j : Nat}
    (hs : step md5 v s (.answer j) = some s') : Inv s' := by
  dsimp only [step] at hs
  split at hs
  · next authorization req cr hj =>
    obtain ⟨token, htoken, hsince⟩ := h.gets j _ hj
    have hof : s.getOf j = some (authorization, req) := Option.map_eq_some_iff.mpr ⟨_, hj, rfl⟩
    have hrecord : ∀ elems, Inv (s.record (.answered j elems)) := fun elems =>
      h.record ⟨authorization, req, token, hof, htoken, hsince⟩ (fun _ => id) fun _ _ => id
    split at hs
    · cases hs
      exact (hrecord cr.elems).setGet hj trivial
    · split at hs
      · cases hs
        exact h.setGet hj trivial
      · next elements _ =>
        cases hs
        have hset : Inv ((s.record (.answered j (cr.elems ++ elements))).setGet j
            ⟨authorization, req, .looked cr⟩ (.ended (.ok (cr.elems ++ elements)))) :=
          (hrecord _).setGet hj trivial
        exact hset.setBase fun _ _ hof => hof
  · cases hs

theorem Inv.take {s s' : ReadAccess} (h : Inv s) {k : Nat}
    (hs : step md5 v s (.take k) = some s') : Inv s' := by
  dsimp only [step] at hs
  split at hs
  · next authorization req ch hk hheld =>
    split at hs
    · split at hs <;> cases hs
      exact h.setBase (watchOf_of_kept (watchesKept_set hk rfl))
    · next elem c htake =>
      have hbase : Inv { s with
          base := { s.base with chans := Function.update s.base.chans ch c } } :=
        h.setBase fun _ _ hof => hof
      have hrecord := hbase.record (e := .received k elem) trivial (fun _ => id)
        fun i hi hik => hi (hik ▸ hheld)
      split at hs
      · next hallowed =>
        cases hs
        refine hrecord.setHeld k _ fun h' hh' => ?_
        cases hh'
        exact ⟨authorization, req, Option.map_eq_some_iff.mpr ⟨_, hk, rfl⟩, hallowed,
          opened_self _ _ _, Bool.noConfusion⟩
      · cases hs
        exact hrecord
  · cases hs

theorem Inv.authorizeWatch {s s' : ReadAccess} (h : Inv s) {k : Nat}
    (hs : step md5 v s (.authorizeWatch k) = some s') : Inv s' := by
  dsimp only [step] at hs
  split at hs
  · next w elem hk hheld =>
    split at hs
    · cases hs
      have hset := h.setHeld k none fun _ hh' => absurd hh' (Option.some_ne_none _).symm
      exact hset.setBase (watchOf_of_kept (watchesKept_set hk rfl))
    · next hauth =>
      cases hs
      obtain ⟨htoken, -⟩ := authorize_eq_none hauth
      obtain ⟨authorization, req, hof, hcleared⟩ := h.held k _ hheld
      cases (Option.map_eq_some_iff.mpr ⟨w, hk, rfl⟩ : s.watchOf k = _).symm.trans hof
      have hrecord : Inv (s.record (.authorized (.watch k) (tokenOf w.authorization)
          w.req.targets)) := h.record trivial (fun _ => id) fun _ _ => id
      have hset := hrecord.setHeld k (some ⟨elem, true⟩) fun h' hh' => by
        cases hh'
        have hsince := hcleared.received.authorized (tokenOf w.authorization)
          (target_of_allowed hcleared.allowed)
        exact ⟨w.authorization, w.req, hof, hcleared.allowed, hcleared.received.cons id,
          fun _ => ⟨tokenOf w.authorization, htoken, hsince⟩⟩
      exact hset.setBase fun _ _ hof => hof
  · cases hs

theorem Inv.send {s s' : ReadAccess} (h : Inv s) {k : Nat} {err : Option GoError}
    (hs : step md5 v s (.send k err) = some s') : Inv s' := by
  dsimp only [step] at hs
  split at hs
  · next w elem hk hheld =>
    have hset := h.setHeld k none fun _ hh' => absurd hh' (Option.some_ne_none _).symm
    split at hs
    · cases hs
      exact hset.setBase (watchOf_of_kept (watchesKept_set hk rfl))
    · cases hs
      obtain ⟨authorization, req, hof, hcleared⟩ := h.held k _ hheld
      obtain ⟨token, htoken, hsince⟩ := hcleared.checked rfl
      have hsent : Inv ((s.setHeld k none).record (.sent k elem)) :=
        hset.record ⟨authorization, req, token, hof, htoken, hcleared.allowed, hsince⟩
          (fun _ => id) fun _ _ => id
      exact hsent.setBase fun _ _ hof => hof
  · cases hs

theorem inv_step {s s' : ReadAccess} {l : Step} (h : Inv s) (hs : step md5 v s l = some s') :
    Inv s' := by
  cases l with
  | base l =>
    dsimp only [step] at hs
    split at hs
    · obtain ⟨base, hbase, rfl⟩ := Option.map_eq_some_iff.mp hs
      exact h.setBase (watchOf_of_kept (watchesKept_step hbase))
    · cases hs
  | ask authorization req => exact h.ask hs
  | authorizeGet j =>
    dsimp only [step] at hs
    split at hs
    · next authorization req hj =>
      split at hs
      · cases hs
        exact h.setGet hj trivial
      · next hauth =>
        cases hs
        obtain ⟨htoken, -⟩ := authorize_eq_none hauth
        have hrecord : Inv (s.record (.authorized (.get j) (tokenOf authorization)
            [⟨req.App, req.Env⟩])) := h.record trivial (fun _ => id) fun _ _ => id
        refine hrecord.setGet hj ⟨tokenOf authorization, htoken, ?_⟩
        have hopened : Opened s.log (.asked j) (.get j) := h.gets j _ hj
        exact hopened.authorized _ (List.mem_singleton.mpr rfl)
    · cases hs
  | lookUp j now =>
    dsimp only [step] at hs
    split at hs
    · next authorization req hj =>
      cases hs
      have hcleared := h.gets j _ hj
      have hset : Inv (s.setGet j ⟨authorization, req, .authorized⟩ (.looked
        (queryFromCache now s.base.cache req.App req.Env req.Keys).1)) := h.setGet hj hcleared
      exact hset.setBase fun _ _ hof => hof
    · cases hs
  | answer j => exact h.answer hs
  | take k => exact h.take hs
  | authorizeWatch k => exact h.authorizeWatch hs
  | send k err => exact h.send hs

/-! ## Callers that nobody interrupts -/

/-- The steps of a call of `GetElement` are, alone, what the listener does at once. -/
theorem getElement_alone (s : ReadAccess) (now : String → Int) (authorization : List String)
    (req : GetElementReq) :
    let answer := s.base.agent.GetElement s.base.kv now s.base.cache authorization req
    ∃ ls s', Transition.run (step md5 v) s (.ask authorization req :: ls) = some s' ∧
      s'.gets[s.gets.length]? = some ⟨authorization, req, .ended answer.resp⟩ ∧
      s'.base.cache = answer.cache ∧
      s'.base.updates =
        s.base.updates ++ answer.refresh.map fun elem => (req.App, req.Env, elem) := by
  intro answer
  have hset : ∀ c c' : GetCall, (s.gets ++ [c]).set s.gets.length c' = s.gets ++ [c'] := by
    intro c c'
    rw [List.set_append_right _ _ (Nat.le_refl _), Nat.sub_self, List.set_cons_zero]
  by_cases hvalid : req.valid = false
  · refine ⟨[], _, rfl, ?_⟩
    simp [record, answer, AgentApp.GetElement, hvalid]
  · cases hauth : s.base.agent.authorize authorization [⟨req.App, req.Env⟩] with
    | some err =>
      let refused : GetCall := ⟨authorization, req, .ended (.error (.error err))⟩
      refine ⟨[.authorizeGet s.gets.length],
        { s with gets := s.gets ++ [refused], log := .asked s.gets.length :: s.log }, ?_⟩
      simp [Transition.run, step, record, setGet, answer, AgentApp.GetElement, hvalid, hauth, hset,
        refused]
    | none =>
      let cr := (queryFromCache now s.base.cache req.App req.Env req.Keys).1
      let cache := (queryFromCache now s.base.cache req.App req.Env req.Keys).2
      let asked : List Event := .authorized (.get s.gets.length) (tokenOf authorization)
        [⟨req.App, req.Env⟩] :: .asked s.gets.length :: s.log
      refine ⟨[.authorizeGet s.gets.length, .lookUp s.gets.length now, .answer s.gets.length], ?_⟩
      by_cases hmiss : cr.miss = []
      · let served : ReadAccess := { s with
          base := { s.base with cache := cache }
          gets := s.gets ++ [⟨authorization, req, .ended (.ok cr.elems)⟩]
          log := .answered s.gets.length cr.elems :: asked }
        refine ⟨served, ?_⟩
        simp [Transition.run, step, record, setGet, answer, AgentApp.GetElement, hvalid, hauth, hset,
          hmiss, served, cr, cache, asked]
      · cases hread : getElementsByKeys s.base.kv req.App req.Env cr.miss with
        | error fault =>
          let failed : ReadAccess := { s with
            base := { s.base with cache := cache }
            gets := s.gets ++ [⟨authorization, req, .ended (.error fault)⟩]
            log := asked }
          refine ⟨failed, ?_⟩
          simp [Transition.run, step, record, setGet, answer, AgentApp.GetElement, hvalid, hauth,
            hset, hmiss, hread, failed, cr, cache, asked]
        | ok elements =>
          let served : ReadAccess := { s with
            base := { s.base with cache := cache
                                  updates := s.base.updates ++
                                    elements.map fun elem => (req.App, req.Env, elem) }
            gets := s.gets ++ [⟨authorization, req, .ended (.ok (cr.elems ++ elements))⟩]
            log := .answered s.gets.length (cr.elems ++ elements) :: asked }
          refine ⟨served, ?_⟩
          simp [Transition.run, step, record, setGet, answer, AgentApp.GetElement, hvalid, hauth,
            hset, hmiss, hread, served, cr, cache, asked]

/-- So are the steps of a stream that takes an update. -/
theorem receive_alone {s : ReadAccess} {k : Nat} (hheld : s.held k = none) {err : Option GoError}
    {base : Listener} (h : s.base.step md5 v (.receive k err) = some base) :
    ∃ ls s', Transition.run (step md5 v) s (.take k :: ls) = some s' ∧ s'.base = base ∧
      s'.held = s.held := by
  have hfree : ∀ x, Function.update (Function.update s.held k x) k none = s.held := by
    intro x
    rw [Function.update_idem, ← hheld, Function.update_eq_self]
  dsimp only [Listener.step] at h
  split at h
  · next w hk =>
    obtain ⟨authorization, req, pc⟩ := w
    dsimp only at h
    split at h
    · next ch =>
      split at h
      · next htake =>
        split at h
        · next hclosed =>
          cases h
          refine ⟨[], ?_⟩
          simp [Transition.run, step, hk, hheld, htake, hclosed]
        · cases h
      · next elem c htake =>
        split at h
        · next hallowed =>
          cases h
          refine ⟨[], ?_⟩
          simp [Transition.run, step, hk, hheld, htake, hallowed, record]
        · next hallowed =>
          split at h
          · next authErr hauth =>
            cases h
            refine ⟨[.authorizeWatch k], ?_⟩
            simp [Transition.run, step, hk, hheld, htake, hallowed, record, setHeld, hauth, hfree]
          · next hauth =>
            refine ⟨[.authorizeWatch k, .send k err], ?_⟩
            split at h
            · cases h
              simp [Transition.run, step, hk, hheld, htake, hallowed, record, setHeld, hauth, hfree]
            · cases h
              simp [Transition.run, step, hk, hheld, htake, hallowed, record, setHeld, hauth, hfree]
    · cases h
  · cases h

/-! ## Runs -/

def opened (agent : AgentApp) (cache : AppPool) : ReadAccess where
  base := Listener.started agent cache

theorem inv_opened (agent : AgentApp) (cache : AppPool) : Inv (opened agent cache) where
  log later e earlier heq := absurd heq (by simp [opened])
  gets j c hj := absurd hj (by simp [opened])
  held k h hk := absurd hk (Option.some_ne_none h).symm

/-- In every run, what is answered and what is sent was authorized in time: the token of a call
during the call, the token of a stream after it received the update. -/
theorem authorized_run (md5 : KV.Bytes → String) (v : Validator) (agent : AgentApp)
    (cache : AppPool) (ls : List Step) :
    Transition.EachState (step md5 v) Authorized (opened agent cache) ls :=
  (Transition.eachState_of_eachStep Inv (fun _ _ _ h _ hs => inv_step h hs) (inv_opened agent cache)
    (Transition.eachStep_true _ ls)).mono fun _ h => h.log

end ReadAccess

end Cassem.Agent
