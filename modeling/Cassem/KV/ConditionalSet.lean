import Cassem.KV.Expiry

/-!
# SetKV without overwriting

A key that is there is to be refused. Whether it is there is decided by the expiry of what `GetKV`
answers, and for a directory that is an entity with nothing but a key: a time to live of 0 that was
written at 0. It counts as expired until the seconds exceed 31 bits, and `SetKV` removes it and
goes on.
-/

namespace Cassem.KV

open Lib Lib.Transition

namespace Cluster

variable {ν : Type} [DecidableEq ν]

/-- The key names a live value, or a directory, on the node. -/
def Names (s : Cluster ν) (n : ν) (req : SetKVReq) : Prop :=
  ∃ e, KV.getKV (s.nodes n).impl.kvstore req.key req.isDir = .ok e ∧
    (req.isDir = false → e.Live s.now)

def withThread (s : Cluster ν) (n : ν) (pc : Pc) : Cluster ν :=
  { s with threads := s.threads ++ [⟨n, pc⟩] }

/-- The call is refused, and nothing else has changed: no store, no proposal, no request. -/
def Refuses (md5 : Bytes → String) (s : Cluster ν) (n : ν) (req : SetKVReq) : Prop :=
  run (step md5) s [.call n (.setKV req), .run s.threads.length, .run s.threads.length] =
    some (s.withThread n (.returned (.ack (some ErrExists))))

section Run

variable {md5 : Bytes → String} {s : Cluster ν} {n : ν} {req : SetKVReq} {e : Entity}

omit [DecidableEq ν] in
theorem withThread_inj {pc pc' : Pc} (h : s.withThread n pc = s.withThread n pc') : pc = pc' := by
  have hthreads := congrArg threads h
  simpa [withThread] using hthreads

/-- A step of the last thread by itself. -/
theorem step_last {pc pc' : Pc} (hadvance : pc.advance md5 s.now (s.nodes n) = some (pc', none)) :
    step md5 (s.withThread n pc) (.run s.threads.length) = some (s.withThread n pc') := by
  have hlast : (s.withThread n pc).threads[s.threads.length]? = some ⟨n, pc⟩ := by
    simp [withThread]
  have hrun : (s.withThread n pc).runThread md5 s.threads.length ⟨n, pc⟩ =
      (pc.advance md5 s.now (s.nodes n)).map fun r =>
        ((s.withThread n pc).setPc s.threads.length ⟨n, pc⟩ r.1).spawn n r.2 := by
    cases pc with
    | mutate cmd observed next => cases hadvance
    | propose request cmd observed next => cases hadvance
    | waitPending request cmd next => cases hadvance
    | _ => rfl
  rw [step, hlast, Option.bind_some, hrun, hadvance, Option.map_some]
  simp [setPc, spawn, withThread]

/-- Where a SetKV stands when it has read and probed the last value. -/
theorem run_setKV (hget : KV.getKV (s.nodes n).impl.kvstore req.key req.isDir = .ok e) :
    run (step md5) s [.call n (.setKV req), .run s.threads.length, .run s.threads.length] =
      some (s.withThread n
        (KV.setProbe s.now req (some (observe (s.nodes n).touched e)))) := by
  have hcall : step md5 s (.call n (.setKV req)) = some (s.withThread n (.setKV req)) := rfl
  have hload : (Pc.setKV req).advance md5 s.now (s.nodes n) =
      some (.setProbe req (some (observe (s.nodes n).touched e)), none) := by
    simp [Pc.advance, hget]
  rw [run_cons hcall, run_cons (step_last hload), run_cons (step_last rfl)]
  rfl

theorem refuses_iff_live (hget : KV.getKV (s.nodes n).impl.kvstore req.key req.isDir = .ok e)
    (how : req.overwrite = false) : Refuses md5 s n req ↔ (entityExpired s.now e).1 = false := by
  rw [Refuses, run_setKV hget, Option.some_inj]
  have hprobe : KV.setProbe s.now req (some (observe (s.nodes n).touched e)) =
      if (entityExpired s.now e).1 then
        removeExpired (observe (s.nodes n).touched e) (.probed req)
      else .returned (.ack (some ErrExists)) := by
    rw [KV.setProbe, observe]
    dsimp only
    cases hexp : entityExpired s.now e with
    | mk expired last => cases expired <;> simp [how]
  rw [hprobe]
  cases hexp : (entityExpired s.now e).1 with
  | false => exact iff_of_true rfl rfl
  | true =>
    refine iff_of_false (fun h => ?_) Bool.noConfusion
    cases withThread_inj h

/-- What `GetKV` answers for a directory expires with the clock. -/
theorem directory_expired (now : Int) (key : String) :
    (entityExpired now { key := key }).1 = false ↔ 2 ^ 31 < now % 2 ^ 32 := by
  have hverdict : (entityExpired now { key := key }).1 = decide (remainingTTL now { key := key } = Expired) :=
    rfl
  rw [hverdict, decide_eq_false_iff_not, remainingTTL]
  dsimp only
  have hleft : int32 (0 - int32 (now - 0)) = Int.bmod (-now) (2 ^ 32) := by
    unfold int32
    simp
  rw [hleft, Int.bmod_def, Expired]
  omega

end Run

/-- On every store that is reached, at every time, a SetKV that is not to overwrite refuses a key
that is there exactly if this is a value, or the clock is in the upper half of its 32 bits. -/
theorem refuses_iff {md5 : Bytes → String} {ls : List (Label ν)} {s : Cluster ν}
    (hrun : run (step md5) ({} : Cluster ν) ls = some s) {n : ν} {req : SetKVReq}
    (how : req.overwrite = false) (hnames : s.Names n req) :
    Refuses md5 s n req ↔ req.isDir = false ∨ 2 ^ 31 < s.now % 2 ^ 32 := by
  have hinv : s.Expiring ∧ s.Grounded :=
    (eachState_of_eachStep (fun s => Expiring s ∧ Grounded s)
      (fun _ _ _ h _ hs => ⟨expiring_step h.1 h.2 hs, grounded_step h.2 hs⟩)
      ⟨expiring_init, grounded_init⟩ (eachStep_true _ ls)).of_run hrun
  obtain ⟨e, hget, hlive⟩ := hnames
  rw [refuses_iff_live hget how]
  cases hdir : req.isDir with
  | false =>
    refine iff_of_true ?_ (.inl rfl)
    have hcmds : ∀ entry ∈ s.log, entry.cmd.WrittenBy s.now :=
      fun entry hentry => (hinv.1.entries entry (.inr hentry)).1
    obtain ⟨-, hwritten, -⟩ :=
      observe_of_look (hinv.2.nodes n) hcmds (look_of_getKV (hdir ▸ hget))
    exact entityExpired_of_live hwritten.1 hwritten.2 (hlive hdir)
  | true =>
    obtain ⟨rfl, -⟩ := look_of_getKV_dir (hdir ▸ hget)
    rw [directory_expired]
    simp

/-- A directory is created, and then created again without overwriting. -/
def directoryMade : List (Label Unit) :=
  [.call () (.setKV ⟨"a/d", true, 0, [], true, int32_zero⟩), .run 0, .run 0, .run 0, .run 0, .run 0,
    .commit 0, .apply (), .run 0]

def makeAgain : SetKVReq := ⟨"a/d", true, 0, [], false, int32_zero⟩

theorem directoryMade_names :
    ∃ s, run (step md5Empty) ({} : Cluster Unit) directoryMade = some s ∧
      s.Names () makeAgain ∧ s.now = 0 ∧
      (run (step md5Empty) s [.call () (.setKV makeAgain), .run 1, .run 1, .run 1, .run 1]).map
        (fun s => s.proposed.map fun e => (e.cmd.op, e.cmd.key)) = some [(.UNSET, "a/d")] := by
  have hmade : ((run (step md5Empty) ({} : Cluster Unit) directoryMade).map fun s =>
      ((KV.getKV (s.nodes ()).impl.kvstore "a/d" true).toOption, s.now,
        (run (step md5Empty) s [.call () (.setKV makeAgain), .run 1, .run 1, .run 1, .run 1]).map
          fun s => s.proposed.map fun e => (e.cmd.op, e.cmd.key))) =
      some (some { key := "a/d" }, 0, some [(.UNSET, "a/d")]) := by decide +kernel
  obtain ⟨s, hs, heq⟩ := Option.map_eq_some_iff.mp hmade
  simp only [Prod.mk.injEq] at heq
  obtain ⟨hget, hnow, hproposed⟩ := heq
  cases hread : KV.getKV (s.nodes ()).impl.kvstore "a/d" true with
  | error err =>
    rw [hread] at hget
    cases hget
  | ok e => exact ⟨s, hs, ⟨e, hread, nofun⟩, hnow, hproposed⟩

theorem refuses_iff_directory :
    ∃ s, run (step md5Empty) ({} : Cluster Unit) directoryMade = some s ∧
      (Refuses md5Empty s () makeAgain ↔ makeAgain.isDir = false ∨ 2 ^ 31 < s.now % 2 ^ 32) := by
  obtain ⟨s, hs, hnames, -⟩ := directoryMade_names
  exact ⟨s, hs, refuses_iff hs rfl hnames⟩

/-- The directory is not refused: its removal is proposed. -/
theorem directory_not_refused :
    ∃ s, run (step md5Empty) ({} : Cluster Unit) directoryMade = some s ∧
      s.Names () makeAgain ∧ ¬ Refuses md5Empty s () makeAgain ∧
      (run (step md5Empty) s [.call () (.setKV makeAgain), .run 1, .run 1, .run 1, .run 1]).map
        (fun s => s.proposed.map fun e => (e.cmd.op, e.cmd.key)) = some [(.UNSET, "a/d")] := by
  obtain ⟨s, hs, hnames, hnow, hproposed⟩ := directoryMade_names
  refine ⟨s, hs, hnames, fun hrefuses => ?_, hproposed⟩
  obtain ⟨e, hget, -⟩ := hnames
  have hlive := (refuses_iff_live hget rfl).mp hrefuses
  obtain ⟨rfl, -⟩ := look_of_getKV_dir hget
  rw [hnow, directory_expired] at hlive
  exact absurd hlive (by decide)

end Cluster

end Cassem.KV
