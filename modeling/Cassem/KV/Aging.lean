import Cassem.KV.Acknowledge
import Mathlib.Data.List.TakeWhile

/-!
# Expiry that is evaluated again

`EntityExpired` takes the elapsed time off the time to live of the entity that it is given, and
leaves the time of the update as it is. A second evaluation takes off the time that had elapsed at
the first one again. `SetKV` evaluates the last value twice, before it takes its creation time.
-/

namespace Cassem.KV

/-- The verdicts of evaluations one after another on one loaded entity. -/
def verdicts (e : Entity) : List Int → List Bool
  | [] => []
  | t :: ts => (entityExpired t e).1 :: verdicts (entityExpired t e).2 ts

/-- The times that have elapsed at each evaluation, added up. -/
def elapsed (updatedAt : Int) (ts : List Int) : Int := (ts.map (· - updatedAt)).sum

/-- At each evaluation before the deadline the elapsed times so far add up to less than the time
to live; at the first one that is not, they do not. -/
structure InTime (ttl updatedAt : Int) (ts : List Int) : Prop where
  live : ∀ before, before <+: ts → before ≠ [] → (∀ t ∈ before, t - updatedAt < ttl) →
    Below ttl (elapsed updatedAt before)
  late : ∀ before t, before ++ [t] <+: ts → (∀ t' ∈ before, t' - updatedAt < ttl) →
    ttl ≤ t - updatedAt → ¬ Below ttl (elapsed updatedAt (before ++ [t]))

section Verdicts

variable {e : Entity} {ts : List Int} {t : Int}

theorem int32_sub_sub (ttl spent d : Int) :
    int32 (int32 (ttl - spent) - int32 d) = int32 (ttl - (spent + d)) := by
  unfold int32
  rw [Int.bmod_sub_bmod, Int.sub_bmod_bmod, Int.sub_sub]

theorem elapsed_cons (updatedAt t : Int) (ts : List Int) :
    elapsed updatedAt (t :: ts) = (t - updatedAt) + elapsed updatedAt ts := by
  simp [elapsed]

theorem elapsed_append (updatedAt : Int) (ts ts' : List Int) :
    elapsed updatedAt (ts ++ ts') = elapsed updatedAt ts + elapsed updatedAt ts' := by
  simp [elapsed]

theorem elapsed_nonneg {updatedAt : Int} (h : ∀ t ∈ ts, updatedAt ≤ t) :
    0 ≤ elapsed updatedAt ts := by
  induction ts with
  | nil => exact le_rfl
  | cons t ts ih =>
    obtain ⟨ht, hts⟩ := List.forall_mem_cons.mp h
    have hrest := ih hts
    rw [elapsed_cons]
    omega

theorem verdicts_expired (h : e.ttl = Expired) (ts : List Int) :
    verdicts e ts = ts.map fun _ => true := by
  have hstep : ∀ t, entityExpired t e = (true, e) := by
    intro t
    rw [entityExpired, if_neg (by rw [h]; decide), if_pos h]
  induction ts with
  | nil => rfl
  | cons t ts ih =>
    rw [verdicts, hstep t, List.map_cons]
    exact congrArg (true :: ·) ih

theorem entityExpired_positive (h : 0 < e.ttl) (t : Int) :
    entityExpired t e = if 0 < int32 (e.ttl - int32 (t - e.updatedAt))
      then (false, { e with ttl := int32 (e.ttl - int32 (t - e.updatedAt)) })
      else (true, { e with ttl := Expired }) := by
  have hnever : ¬ e.ttl = NeverExpired := by unfold NeverExpired; omega
  have hexpired : ¬ e.ttl = Expired := by unfold Expired; omega
  rw [entityExpired, if_neg hnever, if_neg hexpired, remainingTTL]
  by_cases hleft : int32 (e.ttl - int32 (t - e.updatedAt)) ≤ 0
  · rw [if_pos hleft, if_neg (not_lt.mpr hleft)]
    simp
  · have hother : int32 (e.ttl - int32 (t - e.updatedAt)) ≠ Expired := by unfold Expired; omega
    rw [if_neg hleft, if_pos (not_le.mp hleft)]
    simp [hother]

/-- The evaluations one by one, once some time has been taken off. -/
def InTimeAfter (ttl updatedAt spent : Int) (ts : List Int) : Prop :=
  ∀ before t, before ++ [t] <+: ts → (∀ t' ∈ before, t' - updatedAt < ttl) →
    (0 < int32 (ttl - (spent + elapsed updatedAt (before ++ [t]))) ↔ t - updatedAt < ttl)

theorem inTime_iff_after {ttl updatedAt : Int} :
    InTime ttl updatedAt ts ↔ InTimeAfter ttl updatedAt 0 ts := by
  simp only [InTimeAfter, zero_add, ← below_iff]
  constructor
  · intro h before t hpre hbefore
    by_cases hlt : t - updatedAt < ttl
    · refine iff_of_true (h.live _ hpre (by simp) fun t' ht' => ?_) hlt
      rcases List.mem_append.mp ht' with ht' | ht'
      · exact hbefore t' ht'
      · exact List.mem_singleton.mp ht' ▸ hlt
    · exact iff_of_false (h.late before t hpre hbefore (not_lt.mp hlt)) hlt
  · intro h
    refine ⟨fun before hpre hne hbefore => ?_, fun before t hpre hbefore hle => ?_⟩
    · have hlast := List.dropLast_append_getLast hne
      rw [← hlast] at hpre ⊢
      refine (h _ _ hpre fun t ht => hbefore t (List.mem_of_mem_dropLast ht)).mpr ?_
      exact hbefore _ (List.getLast_mem hne)
    · exact fun hbelow => absurd ((h before t hpre hbefore).mp hbelow) (not_lt.mpr hle)

theorem inTimeAfter_cons {ttl updatedAt spent t : Int} {ts : List Int} :
    InTimeAfter ttl updatedAt spent (t :: ts) ↔
      (0 < int32 (ttl - (spent + (t - updatedAt))) ↔ t - updatedAt < ttl) ∧
        (t - updatedAt < ttl → InTimeAfter ttl updatedAt (spent + (t - updatedAt)) ts) := by
  constructor
  · intro h
    refine ⟨?_, fun hlt before t' hpre hbefore => ?_⟩
    · have hfirst := h [] t (by simp) nofun
      simpa [elapsed] using hfirst
    · have hnext := h (t :: before) t' (by simpa using hpre) (by simpa [hlt] using hbefore)
      rw [List.cons_append, elapsed_cons, ← add_assoc] at hnext
      exact hnext
  · rintro ⟨hfirst, hrest⟩ before t' hpre hbefore
    cases before with
    | nil =>
      obtain ⟨rfl, -⟩ := List.cons_prefix_cons.mp hpre
      simpa [elapsed] using hfirst
    | cons t₁ before =>
      obtain ⟨rfl, hlater⟩ := List.cons_prefix_cons.mp hpre
      have hlt := hbefore t₁ List.mem_cons_self
      have hnext := hrest hlt before t' hlater fun t'' ht => hbefore t'' (List.mem_cons_of_mem _ ht)
      rw [List.cons_append, elapsed_cons, ← add_assoc]
      exact hnext

/-- The verdicts, when `spent` has been taken off the stored time to live. -/
theorem verdicts_iff_after {ttl spent : Int} (hleft : e.ttl = int32 (ttl - spent)) (hpos : 0 < e.ttl)
    (hsorted : ts.Pairwise (· ≤ ·)) :
    verdicts e ts = ts.map (fun t => decide (ttl ≤ t - e.updatedAt)) ↔
      InTimeAfter ttl e.updatedAt spent ts := by
  induction ts generalizing e spent with
  | nil => exact iff_of_true rfl fun before t hpre => by simp at hpre
  | cons t ts ih =>
    obtain ⟨hafter, hsorted⟩ := List.pairwise_cons.mp hsorted
    have hnow : int32 (e.ttl - int32 (t - e.updatedAt)) =
        int32 (ttl - (spent + (t - e.updatedAt))) := by
      rw [hleft, int32_sub_sub]
    rw [verdicts, List.map_cons, inTimeAfter_cons, entityExpired_positive hpos t, hnow]
    by_cases hlive : 0 < int32 (ttl - (spent + (t - e.updatedAt)))
    · rw [if_pos hlive, List.cons.injEq, ih rfl hlive hsorted]
      by_cases hlt : t - e.updatedAt < ttl
      · simp [hlive, hlt, not_le.mpr hlt]
      · simp [hlive, hlt, not_lt.mp hlt]
    · rw [if_neg hlive, List.cons.injEq]
      by_cases hlt : t - e.updatedAt < ttl
      · simp [hlive, hlt, not_le.mpr hlt]
      · have hle := not_lt.mp hlt
        have hrest : verdicts { e with ttl := Expired } ts =
            ts.map fun t => decide (ttl ≤ t - e.updatedAt) := by
          rw [verdicts_expired rfl]
          refine List.map_congr_left fun t' ht' => ?_
          have hlater := hafter t' ht'
          exact (decide_eq_true (by omega)).symm
        simp [hlive, hlt, hle, hrest]

theorem verdicts_iff (hint32 : int32 e.ttl = e.ttl) (hpos : 0 < e.ttl)
    (hsorted : ts.Pairwise (· ≤ ·)) :
    verdicts e ts = ts.map (fun t => decide (e.ttl ≤ t - e.updatedAt)) ↔
      InTime e.ttl e.updatedAt ts := by
  have hleft : e.ttl = int32 (e.ttl - 0) := by rw [sub_zero, hint32]
  rw [verdicts_iff_after hleft hpos hsorted, inTime_iff_after]

/-- The evaluations before the deadline come first. -/
theorem filter_eq_takeWhile {ttl updatedAt : Int} (hsorted : ts.Pairwise (· ≤ ·)) :
    ts.filter (fun t => t - updatedAt < ttl) = ts.takeWhile fun t => t - updatedAt < ttl := by
  induction ts with
  | nil => rfl
  | cons t ts ih =>
    obtain ⟨hafter, hsorted⟩ := List.pairwise_cons.mp hsorted
    rw [List.filter_cons, List.takeWhile_cons]
    split
    · rw [ih hsorted]
    · next hlt =>
      refine List.filter_eq_nil_iff.mpr fun t' ht' => ?_
      have hle := hafter t' ht'
      simp only [decide_eq_true_eq] at hlt ⊢
      omega

section Forward

variable {ttl updatedAt : Int} (hfrom : ∀ t ∈ ts, updatedAt ≤ t)
include hfrom

theorem below_prefix_iff (hrange : elapsed updatedAt ts ≤ ttl + 2 ^ 31) (hpos : 0 < ttl)
    (hint32 : ttl < 2 ^ 31) {p : List Int} (hp : p <+: ts) :
    Below ttl (elapsed updatedAt p) ↔ elapsed updatedAt p < ttl := by
  obtain ⟨rest, rfl⟩ := hp
  have hp := elapsed_nonneg fun t ht => hfrom t (List.mem_append_left _ ht)
  have hrest := elapsed_nonneg fun t ht => hfrom t (List.mem_append_right _ ht)
  rw [elapsed_append] at hrange
  exact below_iff_lt (by omega) (by omega)

/-- For a clock that has not gone back behind the update, and elapsed times that stay within the
`int32`, it is the sum of those before the deadline that counts. -/
theorem inTime_iff_sum (hsorted : ts.Pairwise (· ≤ ·))
    (hrange : elapsed updatedAt ts ≤ ttl + 2 ^ 31) (hpos : 0 < ttl) (hint32 : ttl < 2 ^ 31) :
    InTime ttl updatedAt ts ↔
      elapsed updatedAt (ts.filter fun t => t - updatedAt < ttl) < ttl := by
  rw [filter_eq_takeWhile hsorted]
  have hbelow : ∀ p, p <+: ts → (Below ttl (elapsed updatedAt p) ↔ elapsed updatedAt p < ttl) :=
    fun p hp => below_prefix_iff hfrom hrange hpos hint32 hp
  have hbefore := List.takeWhile_prefix (fun t => decide (t - updatedAt < ttl)) (l := ts)
  constructor
  · intro h
    by_cases hnil : ts.takeWhile (fun t => decide (t - updatedAt < ttl)) = []
    · rw [hnil]
      exact hpos
    · refine (hbelow _ hbefore).mp (h.live _ hbefore hnil fun t ht => ?_)
      exact of_decide_eq_true (List.mem_takeWhile_imp (p := fun t => t - updatedAt < ttl) ht)
  · intro hlt
    refine ⟨fun before hpre _ hlive => (hbelow before hpre).mpr ?_,
      fun before t hpre _ hle hbelow' => ?_⟩
    · obtain ⟨rest, rfl⟩ := hpre
      rw [List.takeWhile_append_of_pos fun t ht => decide_eq_true (hlive t ht),
        elapsed_append] at hlt
      have hrest : 0 ≤ elapsed updatedAt (rest.takeWhile fun t => t - updatedAt < ttl) :=
        elapsed_nonneg fun t ht => hfrom t
          (List.mem_append_right _ ((List.takeWhile_prefix _).subset ht))
      omega
    · have hsum := (hbelow _ hpre).mp hbelow'
      have hnonneg := elapsed_nonneg fun t' ht' => hfrom t'
        (hpre.subset (List.mem_append_left _ ht'))
      rw [elapsed_append] at hsum
      simp only [elapsed, List.map_cons, List.map_nil, List.sum_cons, List.sum_nil] at hsum hnonneg
      omega

end Forward

end Verdicts

/-! ## The creation time of a SetKV -/

/-- What a SetKV proposes that probes its last value at `t₁` and builds the new one at `t₂`: a
removal that the probe has started has returned in between. -/
def setProposes (md5 : Bytes → String) (t₁ t₂ : Int) (node : Member) (req : SetKVReq)
    (last : Observation) : Option MutateCommand :=
  let build : Pc → Option MutateCommand := fun pc =>
    match pc.advance md5 t₂ node with
    | some (.mutate cmd _ _, _) => some cmd
    | _ => none
  match (Pc.setProbe req (some last)).advance md5 t₁ node with
  | some (.mutate _ _ next, _) => build (next.resume none)
  | some (pc, _) => build pc
  | none => none

/-- The last value's creation time is kept if the value is live when the new one is built, and
otherwise that is the creation time. -/
def KeepsCreated (md5 : Bytes → String) (t₁ t₂ : Int) (node : Member) (req : SetKVReq)
    (last : Observation) : Prop :=
  ∃ cmd v, setProposes md5 t₁ t₂ node req last = some cmd ∧ cmd.value = some v ∧
    v.createdAt = if last.entity.Live t₂ then last.entity.createdAt else t₂

section SetKV

variable {md5 : Bytes → String} {t₁ t₂ : Int} {node : Member} {req : SetKVReq} {last : Observation}

theorem setProposes_eq (how : req.overwrite = true) :
    setProposes md5 t₁ t₂ node req last = some (setCommand md5 t₂ req
      (if (entityExpired t₁ last.entity).1 then none else some (entityExpired t₁ last.entity).2)) := by
  have hprobe : (Pc.setProbe req (some last)).advance md5 t₁ node =
      some (setProbe t₁ req (some last), none) := rfl
  rw [setProposes, hprobe, setProbe]
  cases hexp : entityExpired t₁ last.entity with
  | mk expired e =>
    cases expired with
    | true => rfl
    | false =>
      simp only [how, if_true]
      rfl

/-- The creation time is kept if neither evaluation has found the value expired. -/
theorem createdAt_setCommand (md5 : Bytes → String) (t₁ t₂ : Int) (node : Member)
    (last : Observation) (how : req.overwrite = true) :
    ∃ cmd v, setProposes md5 t₁ t₂ node req last = some cmd ∧ cmd.value = some v ∧
      v.createdAt = if verdicts last.entity [t₁, t₂] = [false, false] then last.entity.createdAt
        else t₂ := by
  refine ⟨_, _, setProposes_eq how, rfl, ?_⟩
  have hcreated : (entityExpired t₁ last.entity).2.createdAt = last.entity.createdAt := by
    rw [entityExpired]
    split
    · rfl
    · split <;> rfl
  simp only [newEntityWithCreated, verdicts]
  by_cases hfirst : (entityExpired t₁ last.entity).1 = true
  · simp [hfirst]
  · by_cases hsecond : (entityExpired t₂ (entityExpired t₁ last.entity).2).1 = true
    · simp [hfirst, hsecond]
    · simp [hfirst, hsecond, hcreated]

theorem verdicts_live_iff {e : Entity} (hint32 : int32 e.ttl = e.ttl) (hpos : 0 < e.ttl) :
    verdicts e [t₁, t₂] = [false, false] ↔
      0 < int32 (e.ttl - elapsed e.updatedAt [t₁]) ∧
        0 < int32 (e.ttl - elapsed e.updatedAt [t₁, t₂]) := by
  have hfirst : int32 (e.ttl - int32 (t₁ - e.updatedAt)) =
      int32 (e.ttl - elapsed e.updatedAt [t₁]) := by
    have hsub := int32_sub_sub e.ttl 0 (t₁ - e.updatedAt)
    rw [sub_zero, hint32, zero_add] at hsub
    rw [hsub]
    simp [elapsed]
  have hsecond : int32 (int32 (e.ttl - elapsed e.updatedAt [t₁]) - int32 (t₂ - e.updatedAt)) =
      int32 (e.ttl - elapsed e.updatedAt [t₁, t₂]) := by
    rw [int32_sub_sub]
    simp [elapsed]
  rw [verdicts, verdicts, verdicts, entityExpired_positive hpos t₁, hfirst]
  by_cases hleft : 0 < int32 (e.ttl - elapsed e.updatedAt [t₁])
  · rw [if_pos hleft, entityExpired_positive hleft t₂]
    dsimp only
    rw [hsecond]
    by_cases hlater : 0 < int32 (e.ttl - elapsed e.updatedAt [t₁, t₂])
    · simp [hleft, hlater]
    · simp [hlater]
  · simp [hleft]

/-- If the value is live when the new one is built, the times elapsed at both evaluations add up
to less than its time to live; if it is not, they do not. -/
structure SetInTime (ttl updatedAt t₁ t₂ : Int) : Prop where
  live : t₂ - updatedAt < ttl →
    Below ttl (elapsed updatedAt [t₁]) ∧ Below ttl (elapsed updatedAt [t₁, t₂])
  late : ttl ≤ t₂ - updatedAt →
    Below ttl (elapsed updatedAt [t₁]) → ¬ Below ttl (elapsed updatedAt [t₁, t₂])

theorem keepsCreated_iff (hint32 : int32 last.entity.ttl = last.entity.ttl)
    (hpos : 0 < last.entity.ttl) (how : req.overwrite = true) :
    KeepsCreated md5 t₁ t₂ node req last ↔ t₂ = last.entity.createdAt ∨
      SetInTime last.entity.ttl last.entity.updatedAt t₁ t₂ := by
  obtain ⟨cmd, v, hcmd, hv, hcreated⟩ := createdAt_setCommand md5 t₁ t₂ node last how
  have hkept : KeepsCreated md5 t₁ t₂ node req last ↔
      v.createdAt = if last.entity.Live t₂ then last.entity.createdAt else t₂ := by
    refine ⟨?_, fun h => ⟨cmd, v, hcmd, hv, h⟩⟩
    rintro ⟨cmd', v', hcmd', hv', hkept⟩
    cases hcmd.symm.trans hcmd'
    cases hv.symm.trans hv'
    exact hkept
  have hlive : last.entity.Live t₂ ↔ t₂ - last.entity.updatedAt < last.entity.ttl := by
    unfold Entity.Live NeverExpired
    omega
  have hfalse : verdicts last.entity [t₁, t₂] = [false, false] ↔
      Below last.entity.ttl (elapsed last.entity.updatedAt [t₁]) ∧
        Below last.entity.ttl (elapsed last.entity.updatedAt [t₁, t₂]) := by
    rw [below_iff, below_iff]
    exact verdicts_live_iff hint32 hpos
  rw [hkept, hcreated]
  by_cases hlt : t₂ - last.entity.updatedAt < last.entity.ttl
  · rw [if_pos (hlive.mpr hlt)]
    split
    · next h =>
      have hbelow := hfalse.mp h
      exact iff_of_true rfl (.inr ⟨fun _ => hbelow, fun hle => absurd hlt (not_lt.mpr hle)⟩)
    · next h => exact (or_iff_left fun hin => h (hfalse.mpr (hin.live hlt))).symm
  · rw [if_neg fun h => hlt (hlive.mp h)]
    split
    · next h =>
      obtain ⟨hone, htwo⟩ := hfalse.mp h
      rw [or_iff_left fun hin : SetInTime _ _ _ _ => hin.late (not_lt.mp hlt) hone htwo]
      exact eq_comm
    · next h =>
      refine iff_of_true rfl (.inr ⟨fun h' => absurd h' hlt, fun _ hone htwo => h ?_⟩)
      exact hfalse.mpr ⟨hone, htwo⟩

/-- For such clocks and times again, only a live value can go wrong. -/
theorem setInTime_iff_sum {ttl updatedAt : Int} (hfrom : updatedAt ≤ t₁) (hle : t₁ ≤ t₂)
    (hrange : elapsed updatedAt [t₁, t₂] ≤ ttl + 2 ^ 31) (hpos : 0 < ttl) (hint32 : ttl < 2 ^ 31) :
    SetInTime ttl updatedAt t₁ t₂ ↔
      (t₂ - updatedAt < ttl → elapsed updatedAt [t₁, t₂] < ttl) := by
  have hfrom' : ∀ t ∈ [t₁, t₂], updatedAt ≤ t := by simp [hfrom, hfrom.trans hle]
  have hone := below_prefix_iff hfrom' hrange hpos hint32 (p := [t₁]) ⟨[t₂], rfl⟩
  have htwo := below_prefix_iff hfrom' hrange hpos hint32 (p := [t₁, t₂]) ⟨[], rfl⟩
  have hsum : elapsed updatedAt [t₁, t₂] = (t₁ - updatedAt) + (t₂ - updatedAt) := by simp [elapsed]
  have hsum' : elapsed updatedAt [t₁] = t₁ - updatedAt := by simp [elapsed]
  constructor
  · exact fun h hlt => htwo.mp (h.live hlt).2
  · refine fun h => ⟨fun hlt => ⟨hone.mpr ?_, htwo.mpr (h hlt)⟩, fun hlate _ hbelow => ?_⟩
    · have hlt' := h hlt
      omega
    · have hlt := htwo.mp hbelow
      omega

end SetKV

/-- Each verdict is what the stored entity and the time say. -/
def AsStored (e : Entity) (ts : List Int) : Prop :=
  verdicts e ts = ts.map fun t => decide (e.ttl ≤ t - e.updatedAt)

instance (e : Entity) (ts : List Int) : Decidable (AsStored e ts) :=
  inferInstanceAs (Decidable (_ = _))

/-- The clock has not gone back behind the update, and the elapsed times stay in the `int32`. -/
structure Regular (e : Entity) (ts : List Int) : Prop where
  after : ∀ t ∈ ts, e.updatedAt ≤ t
  range : elapsed e.updatedAt ts ≤ e.ttl + 2 ^ 31

/-- The verdicts of a chain of evaluations are those of the stored entity exactly if the elapsed
times add up to less than the time to live at each evaluation before the deadline, and no longer
at the first one after it: for a regular clock, exactly if those before the deadline add up to
less. A SetKV keeps or resets the creation time as it is to exactly if they do so for its two
evaluations. -/
theorem evaluated_again_iff {e : Entity} (hint32 : int32 e.ttl = e.ttl) (hpos : 0 < e.ttl) :
    (∀ ts : List Int, ts.Pairwise (· ≤ ·) →
      (AsStored e ts ↔ InTime e.ttl e.updatedAt ts) ∧
      (Regular e ts → (AsStored e ts ↔
        elapsed e.updatedAt (ts.filter fun t => t - e.updatedAt < e.ttl) < e.ttl))) ∧
    ∀ md5 t₁ t₂ node (req : SetKVReq) writer, req.overwrite = true →
      (KeepsCreated md5 t₁ t₂ node req ⟨writer, e⟩ ↔
        t₂ = e.createdAt ∨ SetInTime e.ttl e.updatedAt t₁ t₂) ∧
      (Regular e [t₁, t₂] → t₁ ≤ t₂ → (KeepsCreated md5 t₁ t₂ node req ⟨writer, e⟩ ↔
        t₂ = e.createdAt ∨ (t₂ - e.updatedAt < e.ttl → elapsed e.updatedAt [t₁, t₂] < e.ttl))) := by
  have hmax : e.ttl < 2 ^ 31 := by
    rw [← hint32, int32, Int.bmod_def]
    omega
  constructor
  · intro ts hsorted
    have hiff : AsStored e ts ↔ InTime e.ttl e.updatedAt ts := verdicts_iff hint32 hpos hsorted
    refine ⟨hiff, fun hreg => hiff.trans ?_⟩
    exact inTime_iff_sum hreg.after hsorted hreg.range hpos hmax
  · intro md5 t₁ t₂ node req writer how
    have hiff : KeepsCreated md5 t₁ t₂ node req ⟨writer, e⟩ ↔
        t₂ = e.createdAt ∨ SetInTime e.ttl e.updatedAt t₁ t₂ := keepsCreated_iff hint32 hpos how
    refine ⟨hiff, fun hreg hle => hiff.trans (or_congr_right ?_)⟩
    exact setInTime_iff_sum (hreg.after t₁ List.mem_cons_self) hle hreg.range hpos hmax

def tenSeconds : Entity := { key := "a/b", ttl := 10 }

def setAgain : SetKVReq := ⟨"a/b", false, 10, [], true, rfl⟩

theorem evaluated_again_iff_tenSeconds :
    (AsStored tenSeconds [2, 3, 12, 12] ↔
      elapsed 0 ([2, 3, 12, 12].filter fun t => t - 0 < 10) < 10) ∧
    (KeepsCreated (fun _ => "") 2 3 {} setAgain ⟨none, tenSeconds⟩ ↔
      (3 : Int) = 0 ∨ ((3 : Int) - 0 < 10 → elapsed 0 [2, 3] < 10)) :=
  have h := evaluated_again_iff (e := tenSeconds) (by decide) (by decide)
  ⟨(h.1 [2, 3, 12, 12] (by decide)).2 ⟨by decide, by decide⟩,
    (h.2 (fun _ => "") 2 3 {} setAgain none rfl).2 ⟨by decide, by decide⟩ (by decide)⟩

/-- After six of ten seconds the second evaluation finds the value expired, and a SetKV resets its
creation time. -/
theorem evaluated_again_expired :
    verdicts tenSeconds [6, 6] = [false, true] ∧ ¬ AsStored tenSeconds [6, 6] ∧
      ¬ KeepsCreated (fun _ => "") 6 6 {} setAgain ⟨none, tenSeconds⟩ := by
  refine ⟨by decide, by decide, fun h => ?_⟩
  rcases (keepsCreated_iff (by decide) (by decide) rfl).mp h with h | h
  · exact absurd h (by decide)
  · exact below_iff.not.mpr (by decide) (h.live (by decide)).2

end Cassem.KV
