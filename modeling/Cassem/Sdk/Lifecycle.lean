import Cassem.Sdk.Client

/-!
# The life of a client

A watch that is not the client's is cancelled, and `Close` leaves the client without one. The
events that order others each go with a flag or a stage of the client.
-/

namespace Cassem.Sdk.Client

open Lib

/-- The stages of `Close` from its request on. -/
def Unregistered (s : Client) : Prop :=
  s.close = .unregistered ∨ s.close = .connClosed ∨ s.close = .finished

structure Inv (s : Client) : Prop where
  current : ∀ (w : Nat) (ws : WatchState), s.watches[w]? = some ws → ws.cancelled = false →
    s.watching = some w
  quiet : s.closed = true → s.watching = none
  ctxDone : s.ctxDone = s.closed
  closed : s.closed = true ↔ s.close ≠ .idle
  ended : s.renew = .ended → s.renewDone = true
  waiting : s.closers ≠ [] → s.close ≠ .idle
  returned : ∀ err, .returned err ∈ s.closers → s.close = .finished
  began : .closeBegan ∈ s.log → s.closed = true
  gone : ∀ ctx, .cancelled ctx ∈ s.log → (s.ctxErr ctx).isSome = true
  renewEnded : s.renewDone = true → .renewEnded ∈ s.log
  unregistered : .unregister ∈ s.log ↔ s.Unregistered
  closedErrors : .closedErrors ∈ s.log ↔ s.close = .finished
  proper : Proper s.log

variable {s s' : Client} {w : Nat} {ws ws' : WatchState} {act : Act}

theorem inv_init (clientID clientIP : String) : Inv { clientID, clientIP } where
  current w ws h := by cases h
  quiet h := by cases h
  ctxDone := rfl
  closed := by simp
  ended h := by cases h
  waiting h := absurd rfl h
  returned err h := by cases h
  began h := by cases h
  gone ctx h := by cases h
  renewEnded h := by cases h
  unregistered := by simp [Unregistered]
  closedErrors := by simp
  proper := trivial

/-! ## Parts of steps -/

/-- An event that no flag goes with. -/
def Event.Plain : Event → Prop
  | .watch _ | .watchReturned _ | .built _ _ | .sent _ => True
  | _ => False

theorem Inv.record (h : Inv s) {e : Event} (hp : Event.Plain e) (he : Allowed s.log e) :
    Inv (s.record e) := by
  have hmem : ∀ e', ¬ Event.Plain e' → (e' ∈ e :: s.log ↔ e' ∈ s.log) := by
    intro e' hn
    have hne : e' ≠ e := fun heq => hn (heq ▸ hp)
    simp [hne]
  refine { h with
    began := fun hb => h.began ((hmem _ id).mp hb)
    gone := fun ctx hg => h.gone ctx ((hmem _ id).mp hg)
    renewEnded := fun hd => List.mem_cons_of_mem _ (h.renewEnded hd)
    unregistered := (hmem _ id).trans h.unregistered
    closedErrors := (hmem _ id).trans h.closedErrors
    proper := ⟨he, h.proper⟩ }

theorem Inv.setWatch (h : Inv s) (hw : s.watches[w]? = some ws)
    (hc : ws'.cancelled = false → ws.cancelled = false) : Inv (s.setWatch w ws') := by
  refine { h with current := fun v vs hv hcv => ?_ }
  change (s.watches.set w ws')[v]? = some vs at hv
  rw [List.getElem?_set] at hv
  split at hv
  · next heq =>
    subst heq
    split at hv
    · cases hv
      exact h.current w ws hw (hc hcv)
    · cases hv
  · exact h.current v vs hv hcv

theorem stop_cancelled (ws : WatchState) : ws.stop.cancelled = true := rfl

/-- Without its watch the client has only cancelled ones. -/
theorem Inv.cancelled_stopped (h : Inv s) (hw : s.watching = some w) {v : Nat} {vs : WatchState}
    (hv : (s.watches.modify w WatchState.stop)[v]? = some vs) : vs.cancelled = true := by
  rw [List.getElem?_modify] at hv
  obtain ⟨vs₀, hv₀, heq⟩ := Option.map_eq_some_iff.mp hv
  by_cases hvw : w = v
  · rw [if_pos hvw] at heq
    rw [← heq, stop_cancelled]
  · rw [if_neg hvw] at heq
    subst heq
    by_contra hc
    have hcur := h.current v vs₀ hv₀ (Bool.eq_false_of_not_eq_true hc)
    exact hvw (Option.some.inj (hw.symm.trans hcur))

theorem Inv.removeWatching (h : Inv s) (w : Nat) : Inv (s.removeWatching w) := by
  unfold Client.removeWatching
  split
  · next hw =>
    refine { h with
      current := fun v vs hv hcv => ?_
      quiet := fun _ => rfl }
    have hc := h.cancelled_stopped hw hv
    rw [hc] at hcv
    cases hcv
  · exact h

theorem Inv.idle (h : Inv s) (hc : s.closed = false) : s.close = .idle := by
  by_contra hne
  rw [h.closed.mpr hne] at hc
  cases hc

/-- While the client is not closed, neither is its channel of errors. -/
theorem Inv.open (h : Inv s) (hc : s.closed = false) : .closedErrors ∉ s.log := by
  intro hmem
  have hfin := h.closedErrors.mp hmem
  rw [h.idle hc] at hfin
  cases hfin

theorem Inv.report (h : Inv s) (err : BackgroundError) : Inv (s.report err) := by
  unfold Client.report
  split
  · exact h
  · next hc =>
    split
    · have hopen := h.open (Bool.eq_false_of_not_eq_true hc)
      exact { h.record (e := .sent err) trivial hopen with }
    · exact h

theorem live_of_carried {c : Nat × WatchState} (h : s.carried = some c) :
    s.ctxErr c.2.parent = none := by
  unfold carried at h
  split at h
  · cases h
  · split at h
    · cases h
    · split at h
      · next hlive =>
        cases h
        exact Option.isNone_iff_eq_none.mp hlive
      · cases h

theorem Inv.build (h : Inv s) : Inv s.build := by
  unfold Client.build
  split
  · exact { h with ended := nofun }
  · next hc =>
    have hallowed : Allowed s.log (.built s.renewReq (s.carried.map fun c => (c.1, c.2.parent))) := by
      cases hcar : s.carried with
      | none => simp [Allowed, renewReq, hcar]
      | some c =>
        refine ⟨fun hmem => hc (h.began hmem), fun hgone => ?_⟩
        have hdone := h.gone _ hgone
        rw [live_of_carried hcar] at hdone
        cases hdone
    exact { h.record (e := .built _ _) trivial hallowed with ended := nofun }

/-! ## Each step -/

theorem Inv.watch (h : Inv s) {ctx : Option Nat} {app env : String} {fn : Bool}
    {keys : List String} (hs : s.Watch ctx app env fn keys = .ok s') : Inv s' := by
  unfold Client.Watch at hs
  split at hs
  · cases hs
  · split at hs
    · cases hs
    · split at hs
      · next hc _ _ _ ctx =>
        split at hs
        · cases hs
        · cases hs
        · next hnone =>
          cases hs
          refine { h.record (e := .watch _) trivial trivial with
            current := fun v vs hv hcv => ?_
            quiet := fun hcl => absurd hcl hc }
          rw [List.getElem?_append] at hv
          split at hv
          · have hcur := h.current v vs hv hcv
            rw [hnone] at hcur
            cases hcur
          · next hge =>
            have hv0 : v - s.watches.length = 0 := by
              by_contra hne
              rw [List.getElem?_eq_none (by simp; omega)] at hv
              cases hv
            have heq : v = s.watches.length := by omega
            rw [heq]
      · cases hs

theorem fire_cancelled (ctx : Nat) (ws : WatchState) :
    (ws.fire ctx).cancelled = ws.cancelled := by
  unfold WatchState.fire
  split <;> rfl

theorem Inv.cancel (h : Inv s) (ctx : Nat) (err : GoError) :
    Inv { s with
      ctxErr := Function.update s.ctxErr ctx (some err)
      watches := s.watches.map (WatchState.fire ctx)
      log := .cancelled ctx :: s.log } := by
  refine { h with
    current := fun v vs hv hcv => ?_
    began := fun hb => ?_
    gone := fun ctx' hg => ?_
    renewEnded := fun hd => List.mem_cons_of_mem _ (h.renewEnded hd)
    unregistered := ?_
    closedErrors := ?_
    proper := ⟨trivial, h.proper⟩ }
  · rw [List.getElem?_map] at hv
    obtain ⟨vs₀, hv₀, rfl⟩ := Option.map_eq_some_iff.mp hv
    rw [fire_cancelled] at hcv
    exact h.current v vs₀ hv₀ hcv
  · have hmem : .closeBegan ∈ s.log := by simpa using hb
    exact h.began hmem
  · show (Function.update s.ctxErr ctx (some err) ctx').isSome = true
    rw [Function.update_apply]
    split
    · rfl
    · next hne =>
      have hmem : .cancelled ctx' ∈ s.log := by simpa [hne] using hg
      exact h.gone ctx' hmem
  · simpa [Unregistered] using h.unregistered
  · simpa using h.closedErrors

theorem Inv.beginClose (h : Inv s) (hi : s.close = .idle) : Inv s.beginClose := by
  have hnot : ¬ s.Unregistered := by
    unfold Unregistered
    rw [hi]
    decide
  refine { h with
    current := fun v vs hv hcv => ?_
    quiet := fun _ => rfl
    ctxDone := rfl
    closed := ⟨fun _ => nofun, fun _ => rfl⟩
    waiting := fun _ => nofun
    returned := fun err hr => ?_
    began := fun _ => rfl
    gone := fun ctx hg => h.gone ctx (by simpa [Client.beginClose] using hg)
    renewEnded := fun hd => List.mem_cons_of_mem _ (h.renewEnded hd)
    unregistered := ?_
    closedErrors := ?_
    proper := ⟨trivial, h.proper⟩ }
  · have hcancelled : vs.cancelled = true := by
      unfold Client.beginClose at hv
      dsimp only at hv
      split at hv
      · next w hw => exact h.cancelled_stopped hw hv
      · next hnone =>
        by_contra hc
        have hcur := h.current v vs hv (Bool.eq_false_of_not_eq_true hc)
        rw [hnone] at hcur
        cases hcur
    rw [hcancelled] at hcv
    cases hcv
  · have hfin := h.returned err hr
    rw [hi] at hfin
    cases hfin
  · have hlog : .unregister ∉ s.log := fun hmem => hnot (h.unregistered.mp hmem)
    simp [Client.beginClose, Unregistered, hlog]
  · have hlog : .closedErrors ∉ s.log := by
      intro hmem
      have hfin := h.closedErrors.mp hmem
      rw [hi] at hfin
      cases hfin
    simp [Client.beginClose, hlog]

theorem Inv.addCloser (h : Inv s) (hc : s.close ≠ .idle) :
    Inv { s with closers := s.closers ++ [.waiting] } := by
  refine { h with
    waiting := fun _ => hc
    returned := fun err hr => h.returned err ?_ }
  simpa using hr

theorem Inv.close (h : Inv s) : Inv s.Close := by
  unfold Client.Close
  split
  · next hi => exact (h.beginClose hi).addCloser nofun
  · next hne => exact h.addCloser hne

theorem Inv.stepWatch (h : Inv s) (hw : s.watches[w]? = some ws)
    (hs : s.stepWatch w ws act = some s') : Inv s' := by
  have hset : ∀ ws', ws'.cancelled = ws.cancelled → Inv (s.setWatch w ws') :=
    fun ws' heq => h.setWatch hw fun hc => heq.symm.trans hc
  cases act with
  | opened _ err =>
    dsimp only [Client.stepWatch] at hs
    split at hs
    · cases hs
      exact (hset { ws with pc := .receiving } rfl).record (e := .watchReturned none) trivial trivial
    · cases hs
      exact hset _ rfl
    · cases hs
  | openFailed _ =>
    dsimp only [Client.stepWatch] at hs
    split at hs
    · cases hs
      have hremoved := (hset { ws with pc := .ended } rfl).removeWatching w
      exact hremoved.record (e := .watchReturned _) trivial trivial
    · cases hs
  | propagate _ =>
    dsimp only [Client.stepWatch] at hs
    split at hs
    · cases hs
      exact h.setWatch hw nofun
    · cases hs
  | callback _ =>
    dsimp only [Client.stepWatch] at hs
    split at hs
    · cases hs
      exact (hset { ws with stopCancellation := .ran } rfl).removeWatching w
    · cases hs
  | recv _ element =>
    dsimp only [Client.stepWatch] at hs
    split at hs
    · cases hs
      exact hset _ rfl
    · cases hs
  | recvError _ err =>
    dsimp only [Client.stepWatch] at hs
    split at hs
    · cases hs
      exact hset _ rfl
    · cases hs
  | handled _ =>
    dsimp only [Client.stepWatch] at hs
    split at hs
    · cases hs
      exact hset _ rfl
    · cases hs
  | reportWatch _ =>
    dsimp only [Client.stepWatch] at hs
    split at hs
    · cases hs
      exact (hset { ws with pc := .ending } rfl).report _
    · cases hs
  | endReceive _ =>
    dsimp only [Client.stepWatch] at hs
    split at hs
    · cases hs
      exact h.setWatch hw nofun
    · cases hs
  | _ => cases hs

theorem Inv.stepRenew (h : Inv s) (hs : s.stepRenew act = some s') : Inv s' := by
  cases act with
  | tick =>
    dsimp only [Client.stepRenew] at hs
    split at hs
    · cases hs
      exact { h with ended := nofun }
    · cases hs
  | build =>
    dsimp only [Client.stepRenew] at hs
    split at hs
    · cases hs
      exact h.build
    · cases hs
  | renewReturn err =>
    dsimp only [Client.stepRenew] at hs
    split at hs
    · cases hs
      refine { h with ended := fun he => ?_ }
      change s.renewReturn err = .ended at he
      unfold Client.renewReturn at he
      split at he <;> cases he
    · cases hs
  | reportRenew =>
    dsimp only [Client.stepRenew] at hs
    split at hs
    · cases hs
      exact { h.report _ with ended := nofun }
    · cases hs
  | endRenew =>
    dsimp only [Client.stepRenew] at hs
    split at hs
    · split at hs
      · cases hs
        exact { h with
          ended := fun _ => rfl
          began := fun hb => h.began (by simpa using hb)
          gone := fun ctx hg => h.gone ctx (by simpa using hg)
          renewEnded := fun _ => List.mem_cons_self
          unregistered := by simpa [Unregistered] using h.unregistered
          closedErrors := by simpa using h.closedErrors
          proper := ⟨trivial, h.proper⟩ }
      · cases hs
    · cases hs
  | _ => cases hs

theorem Inv.stepClose (h : Inv s) (hs : s.stepClose act = some s') : Inv s' := by
  cases act with
  | unregister err =>
    dsimp only [Client.stepClose] at hs
    split at hs
    · next hstage =>
      split at hs
      · next hd =>
        cases hs
        have hlog : .unregister ∉ s.log := by
          intro hmem
          have hun := h.unregistered.mp hmem
          rw [Unregistered, hstage] at hun
          revert hun
          decide
        exact { h with
          closed := by simp [h.closed, hstage]
          waiting := fun _ => nofun
          returned := fun err hr => by
            have hfin := h.returned err hr
            rw [hstage] at hfin
            cases hfin
          began := fun hb => h.began (by simpa using hb)
          gone := fun ctx hg => h.gone ctx (by simpa using hg)
          renewEnded := fun hd => List.mem_cons_of_mem _ (h.renewEnded hd)
          unregistered := ⟨fun _ => .inl rfl, fun _ => List.mem_cons_self⟩
          closedErrors := by simpa [hstage] using h.closedErrors
          proper := ⟨⟨h.renewEnded hd, hlog⟩, h.proper⟩ }
      · cases hs
    · cases hs
  | closeConn err =>
    dsimp only [Client.stepClose] at hs
    split at hs
    · next hstage =>
      cases hs
      have hlog : .unregister ∈ s.log := h.unregistered.mpr (.inl hstage)
      exact { h with
        closed := by simp [h.closed, hstage]
        waiting := fun _ => nofun
        returned := fun err hr => by
          have hfin := h.returned err hr
          rw [hstage] at hfin
          cases hfin
        unregistered := ⟨fun _ => .inr (.inl rfl), fun _ => hlog⟩
        closedErrors := by simpa [hstage] using h.closedErrors }
    · cases hs
  | closeErrors =>
    dsimp only [Client.stepClose] at hs
    split at hs
    · next hstage =>
      cases hs
      have hlog : .unregister ∈ s.log := h.unregistered.mpr (.inr (.inl hstage))
      have hopen : .closedErrors ∉ s.log := by
        intro hmem
        have hfin := h.closedErrors.mp hmem
        rw [hstage] at hfin
        cases hfin
      exact { h with
        closed := by simp [h.closed, hstage]
        waiting := fun _ => nofun
        returned := fun _ _ => rfl
        began := fun hb => h.began (by simpa using hb)
        gone := fun ctx hg => h.gone ctx (by simpa using hg)
        renewEnded := fun hd => List.mem_cons_of_mem _ (h.renewEnded hd)
        unregistered := ⟨fun _ => .inr (.inr rfl), fun _ => List.mem_cons_of_mem _ hlog⟩
        closedErrors := ⟨fun _ => rfl, fun _ => List.mem_cons_self⟩
        proper := ⟨hopen, h.proper⟩ }
    · cases hs
  | closeReturn k =>
    dsimp only [Client.stepClose] at hs
    split at hs
    · next hfin hk =>
      cases hs
      exact { h with
        waiting := fun _ => by simp [hfin]
        returned := fun _ _ => hfin }
    · cases hs
  | _ => cases hs

theorem watch_step (hw : act.watchOf = some w) (hs : step s act = some s') :
    ∃ ws, s.watches[w]? = some ws ∧ s.stepWatch w ws act = some s' := by
  cases act <;> cases hw <;> exact Option.bind_eq_some_iff.mp hs

theorem Inv.step (h : Inv s) (hs : step s act = some s') : Inv s' := by
  cases hwatch : act.watchOf with
  | some w =>
    obtain ⟨ws, hw, hstep⟩ := watch_step hwatch hs
    exact h.stepWatch hw hstep
  | none =>
    cases act with
    | watch ctx app env fn keys =>
      dsimp only [Client.step] at hs
      split at hs
      · cases hs
        exact h.record (e := .watchReturned _) trivial trivial
      · next hok =>
        cases hs
        exact h.watch hok
    | cancel ctx err =>
      dsimp only [Client.step] at hs
      split at hs
      · cases hs
      · cases hs
        exact h.cancel ctx err
    | takeError =>
      obtain ⟨e, -, rfl⟩ := Option.map_eq_some_iff.mp hs
      exact { h with }
    | close =>
      cases hs
      exact h.close
    | tick => exact h.stepRenew (show s.stepRenew .tick = some s' from hs)
    | build => exact h.stepRenew (show s.stepRenew .build = some s' from hs)
    | renewReturn err => exact h.stepRenew (show s.stepRenew (.renewReturn err) = some s' from hs)
    | reportRenew => exact h.stepRenew (show s.stepRenew .reportRenew = some s' from hs)
    | endRenew => exact h.stepRenew (show s.stepRenew .endRenew = some s' from hs)
    | unregister err => exact h.stepClose (show s.stepClose (.unregister err) = some s' from hs)
    | closeConn err => exact h.stepClose (show s.stepClose (.closeConn err) = some s' from hs)
    | closeErrors => exact h.stepClose (show s.stepClose .closeErrors = some s' from hs)
    | closeReturn k => exact h.stepClose (show s.stepClose (.closeReturn k) = some s' from hs)
    | _ => cases hwatch

/-! ## Closing comes to an end -/

theorem report_frame (s : Client) (err : BackgroundError) :
    (s.report err).ctxDone = s.ctxDone ∧ (s.report err).close = s.close := by
  unfold Client.report
  split
  · exact ⟨rfl, rfl⟩
  · split <;> exact ⟨rfl, rfl⟩

/-- The renew loop has ended, and `Close` is where it was. -/
def RenewOver (stage : ClosePc) (s : Client) : Prop :=
  Inv s ∧ s.renewDone = true ∧ s.close = stage

theorem reaches_renewOver_of_waiting (h : Inv s) (hd : s.ctxDone = true)
    (hr : s.renew = .waiting) : Transition.Reaches Client.step (RenewOver s.close) s := by
  have hs : step s .endRenew =
      some { s with renew := .ended, renewDone := true, log := .renewEnded :: s.log } := by
    dsimp only [Client.step, Client.stepRenew]
    rw [hr, hd]
    rfl
  exact .after hs (.now ⟨h.step hs, rfl, rfl⟩)

/-- With the client's context done the loop ends, wherever it is. -/
theorem reaches_renewOver (h : Inv s) (hd : s.ctxDone = true) :
    Transition.Reaches Client.step (RenewOver s.close) s := by
  cases hr : s.renew with
  | waiting => exact reaches_renewOver_of_waiting h hd hr
  | building =>
    have hs : step s .build = some { s with renew := .waiting } := by
      have hc : s.closed = true := h.ctxDone.symm.trans hd
      dsimp only [Client.step, Client.stepRenew]
      rw [hr]
      simp [Client.build, hc]
    exact .after hs (reaches_renewOver_of_waiting (h.step hs) hd rfl)
  | calling =>
    have hs : step s (.renewReturn none) = some { s with renew := .waiting } := by
      dsimp only [Client.step, Client.stepRenew]
      rw [hr]
      rfl
    exact .after hs (reaches_renewOver_of_waiting (h.step hs) hd rfl)
  | reporting err =>
    obtain ⟨hdone, hclose⟩ := report_frame s { Operation := "renew", Err := err }
    have hs : step s .reportRenew =
        some { s.report { Operation := "renew", Err := err } with renew := .waiting } := by
      dsimp only [Client.step, Client.stepRenew]
      rw [hr]
    have hover := reaches_renewOver_of_waiting (h.step hs) (hdone.trans hd) rfl
    rw [← hclose]
    exact .after hs hover
  | ended => exact .now ⟨h, h.ended hr, rfl⟩

def Finished (s : Client) : Prop := Inv s ∧ s.close = .finished

theorem reaches_finished_of_connClosed (h : Inv s) (hc : s.close = .connClosed) :
    Transition.Reaches Client.step Finished s := by
  have hs : step s .closeErrors = some {
      s with close := .finished, errors := s.errors.close, log := .closedErrors :: s.log } := by
    dsimp only [Client.step, Client.stepClose]
    rw [hc]
  exact .after hs (.now ⟨h.step hs, rfl⟩)

theorem reaches_finished_of_unregistered (h : Inv s) (hc : s.close = .unregistered) :
    Transition.Reaches Client.step Finished s := by
  have hs : step s (.closeConn none) =
      some { s with close := .connClosed, closeErr := closeConnErr s.closeErr none } := by
    dsimp only [Client.step, Client.stepClose]
    rw [hc]
  exact .after hs (reaches_finished_of_connClosed (h.step hs) rfl)

theorem reaches_finished (h : Inv s) (hc : s.close ≠ .idle) :
    Transition.Reaches Client.step Finished s := by
  cases hclose : s.close with
  | idle => exact absurd hclose hc
  | waiting =>
    have hd : s.ctxDone = true := h.ctxDone.trans (h.closed.mpr hc)
    refine (reaches_renewOver h hd).trans fun s₁ hover => ?_
    obtain ⟨hinv, hdone, hstage⟩ := hover
    rw [hclose] at hstage
    have hs : step s₁ (.unregister none) = some {
        s₁ with
        close := .unregistered
        closeErr := unregisterErr none
        log := .unregister :: s₁.log } := by
      dsimp only [Client.step, Client.stepClose]
      rw [hstage, hdone]
      rfl
    exact .after hs (reaches_finished_of_unregistered (hinv.step hs) rfl)
  | unregistered => exact reaches_finished_of_unregistered h hclose
  | connClosed => exact reaches_finished_of_connClosed h hclose
  | finished => exact .now ⟨h, hclose⟩

/-- The first `n` of `total` calls of `Close` have returned. -/
def ReturnedUpTo (total n : Nat) (s : Client) : Prop :=
  Finished s ∧ s.closers.length = total ∧
    ∀ k < n, ∀ c, s.closers[k]? = some c → ∃ err, c = .returned err

theorem reaches_returned (h : Finished s) (n : Nat) :
    Transition.Reaches Client.step (ReturnedUpTo s.closers.length n) s := by
  induction n with
  | zero => exact .now ⟨h, rfl, fun k hk => absurd hk (Nat.not_lt_zero k)⟩
  | succ n ih =>
    refine ih.trans fun s₁ hupto => ?_
    obtain ⟨⟨hinv, hfin⟩, hlen, hbelow⟩ := hupto
    by_cases hn : s₁.closers[n]? = some .waiting
    · have hs : step s₁ (.closeReturn n) =
          some { s₁ with closers := s₁.closers.set n (.returned s₁.closeErr) } := by
        dsimp only [Client.step, Client.stepClose]
        rw [hfin, hn]
      refine .after hs (.now ⟨⟨hinv.step hs, hfin⟩, ?_, fun k hk c hget => ?_⟩)
      · rw [← hlen]
        exact List.length_set
      · change (s₁.closers.set n (.returned s₁.closeErr))[k]? = some c at hget
        rw [List.getElem?_set] at hget
        split at hget
        · split at hget
          · exact ⟨_, (Option.some.inj hget).symm⟩
          · cases hget
        · next hne => exact hbelow k (by omega) c hget
    · refine .now ⟨⟨hinv, hfin⟩, hlen, fun k hk c hget => ?_⟩
      by_cases hkn : k = n
      · subst hkn
        cases c with
        | waiting => exact absurd hget hn
        | returned err => exact ⟨err, rfl⟩
      · exact hbelow k (by omega) c hget

/-- In a proper log the instance is unregistered once, if at all. -/
theorem countP_unregister {log : List Event} (h : Proper log) :
    log.countP Event.isUnregister ≤ 1 ∧
      (.unregister ∈ log → log.countP Event.isUnregister = 1) := by
  have hzero : ∀ log : List Event, .unregister ∉ log → log.countP Event.isUnregister = 0 := by
    intro log hnot
    refine List.countP_eq_zero.mpr fun e he htrue => ?_
    cases e <;> first | exact hnot he | cases htrue
  induction log with
  | nil => exact ⟨Nat.zero_le 1, fun hmem => absurd hmem List.not_mem_nil⟩
  | cons e earlier ih =>
    obtain ⟨hallowed, hproper⟩ := h
    obtain ⟨hle, hone⟩ := ih hproper
    rw [List.countP_cons]
    cases e with
    | unregister =>
      have hnone := hzero earlier hallowed.2
      rw [hnone]
      exact ⟨le_rfl, fun _ => rfl⟩
    | _ =>
      refine ⟨hle, fun hmem => hone ?_⟩
      simpa using hmem

theorem reaches_shut (h : Inv s) (hc : s.close ≠ .idle) :
    Transition.Reaches Client.step Shut s := by
  refine (reaches_finished h hc).trans fun s₁ hfin => ?_
  refine (reaches_returned hfin s₁.closers.length).trans fun s₂ hupto => ?_
  obtain ⟨⟨hinv, hstage⟩, hlen, hall⟩ := hupto
  have hmem := hinv.unregistered.mpr (.inr (.inr hstage))
  refine .now ⟨(countP_unregister hinv.proper).2 hmem, hinv.closedErrors.mpr hstage, ?_⟩
  intro c hmem
  obtain ⟨k, hk⟩ := List.mem_iff_getElem?.mp hmem
  have hlt := (List.getElem?_eq_some_iff.mp hk).1
  exact hall k (by omega) c hk

theorem Inv.lifecycle (h : Inv s) : Lifecycle s where
  oneOpen w w' ws ws' hw hw' _ hc _ hc' := by
    have hcur := h.current w ws hw hc
    have hcur' := h.current w' ws' hw' hc'
    exact Option.some.inj (hcur.symm.trans hcur')
  proper := h.proper
  returned err hr := by
    have hfin := h.returned err hr
    have hmem := h.unregistered.mpr (.inr (.inr hfin))
    exact ⟨(countP_unregister h.proper).2 hmem, h.closedErrors.mpr hfin⟩

/-! ## The calls of Close -/

/-- What the calls of `Close` show in the client. -/
structure Closers (n : Nat) (s : Client) : Prop where
  length : s.closers.length = n
  begun : .closeBegan ∈ s.log ↔ 0 < n
  idle : s.close = .idle ↔ n = 0

/-- A step that is no call of `Close` leaves what they show. -/
theorem Closers.aside {n : Nat} (h : Closers n s) (hlength : s'.closers.length = s.closers.length)
    (hlog : .closeBegan ∈ s'.log ↔ .closeBegan ∈ s.log)
    (hclose : s'.close = .idle ↔ s.close = .idle) : Closers n s' :=
  ⟨hlength.trans h.length, hlog.trans h.begun, hclose.trans h.idle⟩

theorem Closers.removeWatching {n : Nat} (h : Closers n s) (w : Nat) :
    Closers n (s.removeWatching w) := by
  unfold Client.removeWatching
  split
  · exact h.aside rfl .rfl .rfl
  · exact h

theorem Closers.report {n : Nat} (h : Closers n s) (err : BackgroundError) :
    Closers n (s.report err) := by
  unfold Client.report
  split
  · exact h
  · split
    · exact h.aside rfl (by simp) .rfl
    · exact h

theorem Closers.record {n : Nat} (h : Closers n s) {e : Event} (he : .closeBegan ≠ e) :
    Closers n (s.record e) :=
  h.aside rfl (List.mem_cons.trans (or_iff_right he)) .rfl

theorem Closers.stepWatch {n : Nat} (h : Closers n s) (hs : s.stepWatch w ws act = some s') :
    Closers n s' := by
  have hset : ∀ ws', Closers n (s.setWatch w ws') := fun ws' => h.aside rfl .rfl .rfl
  cases act with
  | opened _ err =>
    dsimp only [Client.stepWatch] at hs
    split at hs
    · cases hs
      exact (hset _).record Event.noConfusion
    · cases hs
      exact hset _
    · cases hs
  | openFailed _ =>
    dsimp only [Client.stepWatch] at hs
    split at hs
    · cases hs
      exact ((hset _).removeWatching w).record Event.noConfusion
    · cases hs
  | callback _ =>
    dsimp only [Client.stepWatch] at hs
    split at hs
    · cases hs
      exact (hset _).removeWatching w
    · cases hs
  | reportWatch _ =>
    dsimp only [Client.stepWatch] at hs
    split at hs
    · cases hs
      exact (hset _).report _
    · cases hs
  | propagate _ | recv _ element | recvError _ err | handled _ | endReceive _ =>
    dsimp only [Client.stepWatch] at hs
    split at hs
    · cases hs
      exact hset _
    · cases hs
  | _ => cases hs

theorem Closers.stepRenew {n : Nat} (h : Closers n s) (hs : s.stepRenew act = some s') :
    Closers n s' := by
  cases act with
  | build =>
    dsimp only [Client.stepRenew] at hs
    split at hs
    · cases hs
      unfold Client.build
      split
      · exact h.aside rfl .rfl .rfl
      · exact h.aside rfl (by simp) .rfl
    · cases hs
  | reportRenew =>
    dsimp only [Client.stepRenew] at hs
    split at hs
    · cases hs
      exact (h.report _).aside rfl .rfl .rfl
    · cases hs
  | endRenew =>
    dsimp only [Client.stepRenew] at hs
    split at hs
    · split at hs
      · cases hs
        exact h.aside rfl (by simp) .rfl
      · cases hs
    · cases hs
  | tick | renewReturn err =>
    dsimp only [Client.stepRenew] at hs
    split at hs
    · cases hs
      exact h.aside rfl .rfl .rfl
    · cases hs
  | _ => cases hs

theorem Closers.stepClose {n : Nat} (h : Closers n s) (hs : s.stepClose act = some s') :
    Closers n s' := by
  cases act with
  | unregister err =>
    dsimp only [Client.stepClose] at hs
    split at hs
    · next hstage =>
      split at hs
      · cases hs
        exact h.aside rfl (by simp) (by simp [hstage])
      · cases hs
    · cases hs
  | closeConn err | closeErrors =>
    dsimp only [Client.stepClose] at hs
    split at hs
    · next hstage =>
      cases hs
      exact h.aside rfl (by simp) (by simp [hstage])
    · cases hs
  | closeReturn k =>
    dsimp only [Client.stepClose] at hs
    split at hs
    · cases hs
      exact h.aside List.length_set .rfl .rfl
    · cases hs
  | _ => cases hs

/-- Each call of `Close` is one more, and the first begins to close the client. -/
theorem Closers.close {n : Nat} (h : Closers n s) : Closers (n + 1) s.Close := by
  unfold Client.Close
  split
  · next hidle =>
    obtain rfl := h.idle.mp hidle
    refine ⟨?_, iff_of_true List.mem_cons_self Nat.one_pos, iff_of_false ?_ (by decide)⟩
    · rw [List.length_append, List.length_singleton, h.length]
    · exact ClosePc.noConfusion
  · next hne =>
    have hpos : 0 < n := Nat.pos_of_ne_zero fun hn => hne (h.idle.mpr hn)
    refine ⟨?_, iff_of_true (h.begun.mpr hpos) (by omega), iff_of_false hne (by omega)⟩
    rw [List.length_append, List.length_singleton, h.length]

theorem Closers.step {n : Nat} (h : Closers n s) (hs : step s act = some s') :
    Closers (n + if act.isClose then 1 else 0) s' := by
  cases hwatch : act.watchOf with
  | some w =>
    obtain ⟨ws, -, hstep⟩ := watch_step hwatch hs
    have hno : act.isClose = false := by cases act <;> first | rfl | cases hwatch
    rw [hno]
    exact h.stepWatch hstep
  | none =>
    cases act with
    | watch ctx app env fn keys =>
      dsimp only [Client.step] at hs
      split at hs
      · cases hs
        exact h.aside rfl (by simp [Client.record]) .rfl
      · next hok =>
        cases hs
        unfold Client.Watch at hok
        repeat' split at hok
        all_goals cases hok
        exact h.aside rfl (by simp) .rfl
    | cancel ctx err =>
      dsimp only [Client.step] at hs
      split at hs
      · cases hs
      · cases hs
        exact h.aside rfl (by simp) .rfl
    | takeError =>
      obtain ⟨e, -, rfl⟩ := Option.map_eq_some_iff.mp hs
      exact h.aside rfl .rfl .rfl
    | close =>
      cases hs
      exact h.close
    | tick => exact h.stepRenew (show s.stepRenew .tick = some s' from hs)
    | build => exact h.stepRenew (show s.stepRenew .build = some s' from hs)
    | renewReturn err => exact h.stepRenew (show s.stepRenew (.renewReturn err) = some s' from hs)
    | reportRenew => exact h.stepRenew (show s.stepRenew .reportRenew = some s' from hs)
    | endRenew => exact h.stepRenew (show s.stepRenew .endRenew = some s' from hs)
    | unregister err => exact h.stepClose (show s.stepClose (.unregister err) = some s' from hs)
    | closeConn err => exact h.stepClose (show s.stepClose (.closeConn err) = some s' from hs)
    | closeErrors => exact h.stepClose (show s.stepClose .closeErrors = some s' from hs)
    | closeReturn k => exact h.stepClose (show s.stepClose (.closeReturn k) = some s' from hs)
    | _ => cases hwatch

theorem Closers.run {n : Nat} {acts : List Act} (h : Closers n s)
    (hrun : Transition.run Client.step s acts = some s') :
    Closers (n + acts.countP Act.isClose) s' := by
  induction acts generalizing s n with
  | nil =>
    cases hrun
    exact h
  | cons act acts ih =>
    obtain ⟨s₁, hs, hrest⟩ := Option.bind_eq_some_iff.mp hrun
    have hcount := ih (h.step hs) hrest
    rwa [List.countP_cons, Nat.add_comm (acts.countP _), ← Nat.add_assoc]

/-- The watch lifecycle holds in every state of every run of a new client, and every call of
`Close` in the run comes to its end. -/
theorem run_lifecycle (clientID clientIP : String) (acts : List Act) :
    Transition.EachState step Lifecycle { clientID, clientIP } acts ∧
      ∀ s, Transition.run step { clientID, clientIP } acts = some s → Closes acts s := by
  have hrun : Transition.EachState Client.step Inv { clientID, clientIP } acts :=
    Transition.eachState_of_eachStep Inv (P := fun _ _ _ => True)
      (fun s act s' h _ hs => h.step hs) (inv_init clientID clientIP)
      (Transition.eachStep_true _ acts)
  refine ⟨hrun.mono fun s h => h.lifecycle, fun s hs => ?_⟩
  have hinit : Closers 0 { clientID, clientIP } := ⟨rfl, by simp, by simp⟩
  have hclosers := hinit.run hs
  rw [Nat.zero_add] at hclosers
  have hinv := hrun.of_run hs
  refine ⟨hclosers.length, hclosers.begun, (countP_unregister hinv.proper).1, fun hpos => ?_⟩
  exact reaches_shut hinv fun hidle => Nat.ne_of_gt hpos (hclosers.idle.mp hidle)

/-- A watch, two calls of `Close`, and the return of the second. -/
def closedTwice : List Act :=
  [.watch (some 0) "shop" "prod" true ["db"], .opened 0 none, .tick, .close, .close, .build,
    .endRenew, .unregister none, .closeConn none, .closeErrors, .closeReturn 1]

theorem run_lifecycle_closedTwice :
    Transition.EachState step Lifecycle { clientID := "cli-1", clientIP := "10.0.0.1" }
        closedTwice ∧
      ∃ s, Transition.run step { clientID := "cli-1", clientIP := "10.0.0.1" } closedTwice =
        some s ∧ Closes closedTwice s :=
  ⟨(run_lifecycle "cli-1" "10.0.0.1" closedTwice).1, _, rfl,
    (run_lifecycle "cli-1" "10.0.0.1" closedTwice).2 _ rfl⟩

end Cassem.Sdk.Client
