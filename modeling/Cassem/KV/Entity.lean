import Mathlib.Data.Int.ModEq

/-!
# Stored entities and their time to live

`pb.Entity` as the storage layer builds and ages it. Times are Unix seconds and
the time to live is an `int32`, so its updates go through `int32`, which wraps.
The fingerprint function stands for the hexadecimal MD5 digest.
-/

namespace Cassem.KV

abbrev Bytes := List UInt8

/-- The `int32` conversion of Go: two's complement on 32 bits. -/
def int32 (x : Int) : Int := Int.bmod x (2 ^ 32)

inductive EntityType where
  | unknown
  | elt
  | dir
  deriving DecidableEq, Repr

structure Entity where
  fingerprint : String := ""
  key : String := ""
  val : Bytes := []
  createdAt : Int := 0
  updatedAt : Int := 0
  ttl : Int := 0
  typ : EntityType := .unknown
  deriving DecidableEq, Repr, Inhabited

/-- Marks an entity with no expiration deadline. -/
def NeverExpired : Int := -2

/-- Marks an entity whose time to live has elapsed. -/
def Expired : Int := -1

/-- `NewEntityWithCreated`, at the time `now`. -/
def newEntityWithCreated (md5 : Bytes → String) (now : Int) (key : String) (val : Bytes)
    (ttl created : Int) : Entity where
  fingerprint := md5 val
  key := key
  val := val
  createdAt := created
  updatedAt := now
  ttl := if ttl = 0 then NeverExpired else ttl
  typ := .elt

/-- The time to live that `EntityExpired` writes back: what is left of the one it
finds, or the expired mark. -/
def remainingTTL (now : Int) (e : Entity) : Int :=
  let ttl := int32 (e.ttl - int32 (now - e.updatedAt))
  if ttl ≤ 0 then Expired else ttl

/-- `EntityExpired` evaluated at `now`: the verdict and the entity it leaves,
whose time to live has been reduced in place. -/
def entityExpired (now : Int) (e : Entity) : Bool × Entity :=
  if e.ttl = NeverExpired then (false, e)
  else if e.ttl = Expired then (true, e)
  else (remainingTTL now e = Expired, { e with ttl := remainingTTL now e })

/-- The value has no deadline, or its time to live has not elapsed at `now`. -/
def Entity.Live (e : Entity) (now : Int) : Prop :=
  e.ttl = NeverExpired ∨ now - e.updatedAt < e.ttl

instance (e : Entity) (now : Int) : Decidable (e.Live now) := by
  unfold Entity.Live; infer_instance

theorem int32_zero : int32 0 = 0 := rfl

theorem int32_of_range {x : Int} (hl : -2 ^ 31 ≤ x) (hu : x < 2 ^ 31) : int32 x = x := by
  unfold int32
  rw [Int.bmod_def]
  omega

/-- An elapsed time is less than the time to live, as an `int32` has it: by less than `2 ^ 31`, up
to whole turns. -/
def Below (ttl elapsed : Int) : Prop :=
  ∃ turns : Int, ttl - 2 ^ 31 < elapsed + 2 ^ 32 * turns ∧ elapsed + 2 ^ 32 * turns < ttl

theorem below_iff {ttl elapsed : Int} : Below ttl elapsed ↔ 0 < int32 (ttl - elapsed) := by
  unfold Below int32
  rw [Int.bmod_def]
  constructor
  · rintro ⟨turns, hl, hu⟩
    omega
  · intro h
    exact ⟨(ttl - elapsed) / 2 ^ 32, by omega, by omega⟩

instance (ttl elapsed : Int) : Decidable (Below ttl elapsed) :=
  decidable_of_iff _ below_iff.symm

/-- Where the `int32` does not wrap, this is the order of the integers. -/
theorem below_iff_lt {ttl elapsed : Int} (hl : ttl - 2 ^ 31 < elapsed)
    (hu : elapsed ≤ ttl + 2 ^ 31) : Below ttl elapsed ↔ elapsed < ttl := by
  rw [below_iff, int32, Int.bmod_def]
  omega

theorem remainingTTL_of_live {e : Entity} {now : Int} (hw : e.updatedAt ≤ now)
    (hr : e.ttl < 2 ^ 31) (hl : now - e.updatedAt < e.ttl) :
    remainingTTL now e = e.ttl - (now - e.updatedAt) := by
  have hd : int32 (now - e.updatedAt) = now - e.updatedAt := int32_of_range (by omega) (by omega)
  have ht : int32 (e.ttl - (now - e.updatedAt)) = e.ttl - (now - e.updatedAt) :=
    int32_of_range (by omega) (by omega)
  unfold remainingTTL
  simp only [hd, ht]
  rw [if_neg (by omega)]

/-- A live entity, not written in the future of `now`, is not called expired. -/
theorem entityExpired_of_live {e : Entity} {now : Int} (hw : e.updatedAt ≤ now)
    (hr : e.ttl < 2 ^ 31) (hl : e.Live now) : (entityExpired now e).1 = false := by
  unfold entityExpired
  by_cases hn : e.ttl = NeverExpired
  · rw [if_pos hn]
  · have hlive : now - e.updatedAt < e.ttl := hl.resolve_left hn
    have hx : e.ttl ≠ Expired := by
      unfold Expired
      omega
    rw [if_neg hn, if_neg hx, remainingTTL_of_live hw hr hlive]
    unfold Expired
    exact decide_eq_false (by omega)

/-- Once a time to live has elapsed it stays elapsed. -/
theorem live_antitone {e : Entity} {now later : Int} (hle : now ≤ later) (hl : e.Live later) :
    e.Live now :=
  hl.imp_right fun h => by omega

/-- What the code calls expired at some time is not live then or later. -/
theorem not_live_of_expired {e : Entity} {now later : Int} (hw : e.updatedAt ≤ now)
    (hr : e.ttl < 2 ^ 31) (hle : now ≤ later) (h : (entityExpired now e).1 = true) :
    ¬ e.Live later := fun hl => by
  rw [entityExpired_of_live hw hr (live_antitone hle hl)] at h
  exact Bool.false_ne_true h

end Cassem.KV
