import Cassem.KV.Expiry
import Cassem.KV.Sequential
import Cassem.Lib.Transition
import Mathlib.Data.List.Pairwise

/-!
# The distributed lock

A lock is a value without content that is created if there is none, and expires. It does not say
whose it is, and a release removes whatever stands there. Each call is taken to be one step, as if
a create were exclusive.
-/

namespace Cassem.KV

open Lib Lib.HierMap

structure distributedLock where
  key : String
  ttl : Int

def newLock (key : String) (ttl : Int) : distributedLock := ⟨key, ttl⟩

namespace distributedLock

/-- The time to live that is asked for: ten seconds by default, and two days at most. -/
def lockTTL (l : distributedLock) : Int :=
  let ttl := if l.ttl ≤ 0 then 10 else l.ttl
  if 2 * 24 * 3600 < ttl then 2 * 24 * 3600 else ttl

theorem lockTTL_range (l : distributedLock) : 0 < l.lockTTL ∧ l.lockTTL ≤ 172800 := by
  unfold lockTTL
  dsimp only
  split
  · split <;> omega
  · split <;> omega

def acquireReq (l : distributedLock) : SetKVReq where
  key := l.key
  isDir := false
  ttl := l.lockTTL
  val := []
  overwrite := false
  ttl_int32 := by
    have hrange := l.lockTTL_range
    exact int32_of_range (by omega) (by omega)

def Acquire (md5 : Bytes → String) (now : Int) (store : Store) (l : distributedLock) :
    Store × Option GoError := SetKV md5 now store l.acquireReq

def Release (store : Store) (l : distributedLock) : Store × Option GoError :=
  UnsetKV store l.key false

end distributedLock

/-! ## One call -/

section Calls

variable {md5 : Bytes → String} {now : Int} {store : Store} {l : distributedLock} {e : Entity}

/-- The value of a command that is accepted stands at its key. -/
theorem look_of_commit_set (req : SetKVReq) {last : Option Entity} (hdir : req.isDir = false)
    (h : (commit store (setCommand md5 now req last)).2 = none) :
    ValueKey req.key ∧ ∃ e, (commit store (setCommand md5 now req last)).1.look (keyPath req.key) =
      some (.val e) ∧ e.updatedAt = now ∧ e.ttl = if req.ttl = 0 then NeverExpired else req.ttl := by
  have haccepts : Accepts store (setCommand md5 now req last) := by
    by_contra hrejected
    obtain ⟨err, herr⟩ := commit_of_rejected hrejected
    rw [herr] at h
    cases h
  obtain ⟨o, ho, hfit⟩ := haccepts
  obtain ⟨store', hcommit, hlook⟩ := commit_of_fits ho hfit
  have hop : setOp req.key ((setCommand md5 now req last).value.getD default) req.isDir = some o := ho
  unfold setOp at hop
  rw [hdir] at hop
  dsimp only at hop
  split at hop
  · cases hop
  · next hformed =>
    rw [if_neg (by decide)] at hop
    split at hop
    · cases hop
    · obtain rfl := Option.some.inj hop
      obtain ⟨hnodes, hleaf, hempty⟩ : (keySplitter req.key).1 ≠ [] ∧
          isEmptyLeaf (keySplitter req.key).2 ≠ true ∧ "" ∉ (keySplitter req.key).1 := by
        simpa only [not_or] using hformed
      have hfilled : firstEmpty (keySplitter req.key).1 = none := by
        rw [firstEmpty, List.findIdx?_eq_none_iff]
        intro node hnode
        exact decide_eq_false fun heq => hempty (heq ▸ hnode)
      refine ⟨⟨hnodes, Bool.eq_false_iff.mpr hleaf, hfilled⟩,
        (setCommand md5 now req last).value.getD default, ?_, rfl, rfl⟩
      rw [hcommit, hlook, Op.effect_put, if_pos rfl]

/-- A lock is created where nothing stands, or something that has expired. -/
theorem Acquire_ok (h : (l.Acquire md5 now store).2 = none) : ValueKey l.key ∧
    (∀ e, store.look (keyPath l.key) = some (.val e) → (entityExpired now e).1 = true) ∧
    ∃ e, (l.Acquire md5 now store).1.look (keyPath l.key) = some (.val e) ∧
      e.updatedAt = now ∧ e.ttl = l.lockTTL := by
  have hne : l.lockTTL ≠ 0 := by
    have hrange := l.lockTTL_range
    omega
  have hstored : ∀ {store last}, (commit store (setCommand md5 now l.acquireReq last)).2 = none →
      ValueKey l.key ∧ ∃ e, (commit store (setCommand md5 now l.acquireReq last)).1.look
        (keyPath l.key) = some (.val e) ∧ e.updatedAt = now ∧ e.ttl = l.lockTTL := by
    intro store last h
    obtain ⟨hkey, e, hlook, hat, httl⟩ := look_of_commit_set l.acquireReq rfl h
    exact ⟨hkey, e, hlook, hat, httl.trans (if_neg hne)⟩
  unfold distributedLock.Acquire SetKV at h ⊢
  cases hget : getKV store l.acquireReq.key l.acquireReq.isDir with
  | error err =>
    rw [hget] at h
    obtain ⟨hkey, hstands⟩ := hstored h
    refine ⟨hkey, fun e hlook => ?_, hstands⟩
    have hfound := getKV_eq hkey store false
    rw [hlook] at hfound
    cases hget.symm.trans hfound
  | ok last =>
    rw [hget] at h
    dsimp only at h ⊢
    cases hexpired : entityExpired now last with
    | mk expired aged =>
      rw [hexpired] at h
      cases expired with
      | true =>
        obtain ⟨hkey, hstands⟩ := hstored h
        refine ⟨hkey, fun e hlook => ?_, hstands⟩
        obtain rfl := Cell.val.inj (Option.some.inj ((look_of_getKV hget).symm.trans hlook))
        rw [hexpired]
      | false => cases h

/-- A value that has not expired is not created again. -/
theorem Acquire_of_live (hkey : ValueKey l.key)
    (hlook : store.look (keyPath l.key) = some (.val e))
    (hlive : (entityExpired now e).1 = false) :
    l.Acquire md5 now store = (store, some ErrExists) := by
  have hget : getKV store l.acquireReq.key l.acquireReq.isDir = .ok e := by
    have hfound := getKV_eq hkey store false
    rwa [hlook] at hfound
  have hexpired : entityExpired now e = (false, (entityExpired now e).2) := by
    rw [← hlive]
  unfold distributedLock.Acquire SetKV
  rw [hget]
  dsimp only
  rw [hexpired]
  rfl

theorem GetKV_of_live {key : String} (hkey : ValueKey key)
    (hlook : store.look (keyPath key) = some (.val e))
    (hlive : (entityExpired now e).1 = false) : (GetKV now store key).1 = store := by
  have hget := getKV_eq hkey store false
  rw [hlook] at hget
  have hexpired : entityExpired now e = (false, (entityExpired now e).2) := by
    rw [← hlive]
  unfold GetKV
  rw [hget]
  dsimp only
  rw [hexpired]

/-- A release that succeeds leaves nothing where a value can stand; one that fails changes
nothing. -/
theorem Release_cases (store : Store) (hkey : ValueKey l.key) :
    ((l.Release store).2 = none ∧ (l.Release store).1.look (keyPath l.key) = none) ∨
      (l.Release store).2 ≠ none ∧ (l.Release store).1 = store ∧
        store.look (keyPath l.key) = some .dir := by
  have hop : commandOp (unsetCommand l.key false) = some (.del (keyPath l.key)) := by
    show unsetOp l.key false = _
    unfold unsetOp
    dsimp only
    rw [if_neg (by simp [hkey.nodes, hkey.leaf]), hkey.filled]
    rfl
  unfold distributedLock.Release UnsetKV
  by_cases hdir : store.look (keyPath l.key) = some .dir
  · have hrejected : ¬ Accepts store (unsetCommand l.key false) := by
      rintro ⟨o, ho, hfit⟩
      cases hop.symm.trans ho
      exact Op.del_fits_iff.mp hfit hdir
    obtain ⟨err, herr⟩ := commit_of_rejected hrejected
    rw [herr]
    exact Or.inr ⟨nofun, rfl, hdir⟩
  · obtain ⟨store', hcommit, hlook⟩ := commit_of_fits hop (Op.del_fits_iff.mpr hdir)
    rw [hcommit]
    refine Or.inl ⟨rfl, ?_⟩
    rw [hlook, Op.effect_del, if_pos rfl]

end Calls

/-! ## Holders -/

/-- An `Acquire` that has returned nil, and whose holder has not released it. -/
structure Hold (α : Type) where
  holder : α
  acquiredAt : Int
  ttl : Int
  deriving DecidableEq

/-- The time to live has not elapsed. -/
def Hold.Live {α : Type} (now : Int) (hold : Hold α) : Prop := now - hold.acquiredAt < hold.ttl

/-- The store, the clock, and the locks that are held. -/
structure Locking (α : Type) where
  store : Store
  now : Int
  holds : List (Hold α) := []

/-- Time passes, somebody reads the key, or a holder makes a call. The answer to an `Acquire` may be
lost. -/
inductive LockStep (α : Type) where
  | tick (seconds : Nat)
  | read
  | acquire (holder : α) (answered : Bool)
  | release (holder : α)

namespace Locking

variable {α : Type}

section Steps

variable [DecidableEq α] (md5 : Bytes → String) (key : String) (ttl : α → Int)

/-- Each holder has a lock of its own on the key. -/
def step (s : Locking α) : LockStep α → Option (Locking α)
  | .tick seconds => some { s with now := s.now + seconds }
  | .read => some { s with store := (GetKV s.now s.store key).1 }
  | .acquire holder answered =>
      let l := newLock key (ttl holder)
      let r := l.Acquire md5 s.now s.store
      some { s with
        store := r.1
        holds := if r.2.isNone && answered then ⟨holder, s.now, l.lockTTL⟩ :: s.holds else s.holds }
  | .release holder =>
      let r := (newLock key (ttl holder)).Release s.store
      some { s with
        store := r.1
        holds := if r.2.isNone then s.holds.filter (·.holder ≠ holder) else s.holds }

end Steps

/-- No two locks are held at a time. -/
def Exclusive (s : Locking α) : Prop :=
  s.holds.Pairwise fun a b => ¬ (a.Live s.now ∧ b.Live s.now)

/-- What the `Acquire` has written stands in the store. -/
def Stands (key : String) (s : Locking α) (hold : Hold α) : Prop :=
  ∃ e, s.store.look (keyPath key) = some (.val e) ∧ e.updatedAt = hold.acquiredAt ∧ e.ttl = hold.ttl

/-- A release leaves what others hold. -/
def Own (key : String) (s : Locking α) (l : LockStep α) (s' : Locking α) : Prop :=
  ∀ holder, l = .release holder → ∀ hold ∈ s.holds, hold.holder ≠ holder → hold.Live s.now →
    s'.Stands key hold

/-- A holder calls `Release` before the time to live of its own lock has elapsed, or while nobody
holds the lock. -/
def Timely (s : Locking α) (l : LockStep α) (_ : Locking α) : Prop :=
  ∀ holder, l = .release holder → (∃ hold ∈ s.holds, hold.holder = holder ∧ hold.Live s.now) ∨
    ∀ hold ∈ s.holds, ¬ hold.Live s.now

/-- What a lock that is held implies. -/
structure Inv (key : String) (s : Locking α) : Prop where
  exclusive : s.Exclusive
  valueKey : s.holds ≠ [] → ValueKey key
  begun : ∀ hold ∈ s.holds, hold.acquiredAt ≤ s.now ∧ 0 < hold.ttl ∧ hold.ttl < 2 ^ 31
  stands : ∀ hold ∈ s.holds, hold.Live s.now → s.Stands key hold

variable {md5 : Bytes → String} {key : String} {ttl : α → Int} {s s' : Locking α} {l : LockStep α}

/-- The store has the value of a lock that is held, and it has not expired. -/
theorem Inv.unexpired (h : Inv key s) {hold : Hold α} (hmem : hold ∈ s.holds)
    (hlive : hold.Live s.now) : ValueKey key ∧ ∃ e, s.store.look (keyPath key) = some (.val e) ∧
      (entityExpired s.now e).1 = false := by
  obtain ⟨e, hlook, hat, httl⟩ := h.stands hold hmem hlive
  obtain ⟨hbegun, hpos, hshort⟩ := h.begun hold hmem
  have hwritten : e.updatedAt ≤ s.now := by
    rw [hat]
    exact hbegun
  have hrange : e.ttl < 2 ^ 31 := by
    rw [httl]
    exact hshort
  have hvalue : e.Live s.now := by
    refine Or.inr ?_
    rw [hat, httl]
    exact hlive
  exact ⟨h.valueKey (List.ne_nil_of_mem hmem), e, hlook,
    entityExpired_of_live hwritten hrange hvalue⟩

/-- Where no lock is held, whatever is in the store is as good as anything else. -/
theorem Inv.of_none_live (h : Inv key s) {store : Store} {holds : List (Hold α)}
    (hsub : holds.Sublist s.holds) (hnone : ∀ hold ∈ holds, ¬ hold.Live s.now) :
    Inv key ⟨store, s.now, holds⟩ where
  exclusive := h.exclusive.sublist hsub
  valueKey hne := h.valueKey fun hnil => hne (List.sublist_nil.mp (hnil ▸ hsub))
  begun hold hmem := h.begun hold (hsub.subset hmem)
  stands hold hmem hlive := absurd hlive (hnone hold hmem)

theorem Inv.tick (h : Inv key s) (seconds : Nat) : Inv key { s with now := s.now + seconds } := by
  have hearlier : ∀ hold : Hold α, hold.Live (s.now + seconds) → hold.Live s.now := by
    intro hold hlive
    unfold Hold.Live at hlive ⊢
    omega
  refine ⟨h.exclusive.imp fun hnot hboth => hnot ⟨hearlier _ hboth.1, hearlier _ hboth.2⟩,
    h.valueKey, fun hold hmem => ?_, fun hold hmem hlive => ?_⟩
  · obtain ⟨hbegun, hrange⟩ := h.begun hold hmem
    refine ⟨?_, hrange⟩
    show hold.acquiredAt ≤ s.now + seconds
    omega
  · exact h.stands hold hmem (hearlier hold hlive)

/-- A change of the store that spares a value that has not expired. -/
theorem Inv.set_store (h : Inv key s) {store : Store}
    (hsame : ∀ e, ValueKey key → s.store.look (keyPath key) = some (.val e) →
      (entityExpired s.now e).1 = false → store = s.store) : Inv key { s with store := store } := by
  by_cases hheld : ∃ hold ∈ s.holds, hold.Live s.now
  · obtain ⟨hold, hmem, hlive⟩ := hheld
    obtain ⟨hkey, e, hlook, hexpired⟩ := h.unexpired hmem hlive
    rw [hsame e hkey hlook hexpired]
    exact h
  · exact h.of_none_live (List.Sublist.refl _) fun hold hmem hlive => hheld ⟨hold, hmem, hlive⟩

theorem Inv.acquire (h : Inv key s) (holder : α) (answered : Bool) {lock : distributedLock}
    (hlock : lock.key = key) : Inv key ⟨(lock.Acquire md5 s.now s.store).1, s.now,
      if (lock.Acquire md5 s.now s.store).2.isNone && answered then
        ⟨holder, s.now, lock.lockTTL⟩ :: s.holds else s.holds⟩ := by
  subst hlock
  cases hr : (lock.Acquire md5 s.now s.store).2 with
  | some err =>
    refine h.set_store fun e hkey hlook hexpired => ?_
    rw [Acquire_of_live hkey hlook hexpired]
  | none =>
    obtain ⟨hkey, hexpired, e, hlook, hat, httl⟩ := Acquire_ok hr
    have hnone : ∀ hold ∈ s.holds, ¬ hold.Live s.now := by
      intro hold hmem hlive
      obtain ⟨-, e, hlook, hlive⟩ := h.unexpired hmem hlive
      rw [hexpired e hlook] at hlive
      cases hlive
    cases answered with
    | false => exact h.of_none_live (List.Sublist.refl _) hnone
    | true =>
      have hrange := lock.lockTTL_range
      have hshort : lock.lockTTL < 2 ^ 31 := by omega
      refine ⟨List.pairwise_cons.mpr ⟨fun hold hmem hboth => hnone hold hmem hboth.2, h.exclusive⟩,
        fun _ => hkey, fun hold hmem => ?_, fun hold hmem hlive => ?_⟩
      · rcases List.mem_cons.mp hmem with rfl | hmem
        · exact ⟨le_rfl, hrange.1, hshort⟩
        · exact h.begun hold hmem
      · rcases List.mem_cons.mp hmem with rfl | hmem
        · exact ⟨e, hlook, hat, httl⟩
        · exact absurd hlive (hnone hold hmem)

/-- A release in time is one of the only lock that is held, if any is. -/
theorem Timely.others_not_live {holder : α} (htimely : Timely s (.release holder) s')
    (h : Inv key s) : ∀ hold ∈ s.holds, hold.holder ≠ holder → ¬ hold.Live s.now := by
  intro hold hmem hother hlive
  rcases htimely holder rfl with ⟨own, hown, rfl, hownLive⟩ | hnone
  · have hsymm : Std.Symm fun a b : Hold α => ¬ (a.Live s.now ∧ b.Live s.now) :=
      ⟨fun _ _ hnot hboth => hnot hboth.symm⟩
    have hne : hold ≠ own := fun heq => hother (heq ▸ rfl)
    have hpairwise : s.holds.Pairwise _ := h.exclusive
    exact hpairwise.forall hmem hown hne ⟨hlive, hownLive⟩
  · exact hnone hold hmem hlive

theorem inv_start (store : Store) (now : Int) : Inv key (⟨store, now, []⟩ : Locking α) where
  exclusive := List.Pairwise.nil
  valueKey hne := absurd rfl hne
  begun hold hmem := by cases hmem
  stands hold hmem := by cases hmem

variable [DecidableEq α]

theorem Inv.release (h : Inv key s) {holder : α} (htimely : Timely s (.release holder) s')
    {lock : distributedLock} (hlock : lock.key = key) : Inv key ⟨(lock.Release s.store).1, s.now,
      if (lock.Release s.store).2.isNone then s.holds.filter (·.holder ≠ holder) else s.holds⟩ := by
  subst hlock
  cases hr : (lock.Release s.store).2 with
  | none =>
    refine h.of_none_live List.filter_sublist fun hold hmem => ?_
    obtain ⟨hmem, hother⟩ := List.mem_filter.mp hmem
    exact htimely.others_not_live h hold hmem (of_decide_eq_true hother)
  | some err =>
    refine h.set_store fun e hkey hlook hexpired => ?_
    rcases Release_cases s.store hkey with ⟨hok, -⟩ | ⟨-, hsame, -⟩
    · rw [hr] at hok
      cases hok
    · exact hsame

theorem Inv.step (h : Inv key s) (htimely : Timely s l s')
    (hs : Locking.step md5 key ttl s l = some s') : Inv key s' := by
  cases l with
  | tick seconds =>
    obtain rfl := Option.some.inj hs
    exact h.tick seconds
  | read =>
    obtain rfl := Option.some.inj hs
    refine h.set_store fun e hkey hlook hexpired => ?_
    exact GetKV_of_live hkey hlook hexpired
  | acquire holder answered =>
    obtain rfl := Option.some.inj hs
    exact h.acquire holder answered rfl
  | release holder =>
    obtain rfl := Option.some.inj hs
    exact h.release htimely rfl

/-- What somebody else holds is left alone exactly when the release is in time. -/
theorem own_iff (h : Inv key s) (hs : Locking.step md5 key ttl s l = some s') :
    Own key s l s' ↔ Timely s l s' := by
  constructor
  · intro hown holder hl
    by_contra hlate
    rw [not_or] at hlate
    obtain ⟨hold, hmem, hlive⟩ : ∃ hold ∈ s.holds, hold.Live s.now := by
      by_contra hnone
      exact hlate.2 fun hold hmem hlive => hnone ⟨hold, hmem, hlive⟩
    have hother : hold.holder ≠ holder := fun heq => hlate.1 ⟨hold, hmem, heq, hlive⟩
    obtain ⟨hkey, e, hlook, -⟩ := h.unexpired hmem hlive
    obtain ⟨e', hlook', -⟩ := hown holder hl hold hmem hother hlive
    subst hl
    obtain rfl := Option.some.inj hs
    have hlock : ValueKey (newLock key (ttl holder)).key := hkey
    rcases Release_cases s.store hlock with ⟨-, hgone⟩ | ⟨-, -, hdir⟩
    · cases hgone.symm.trans hlook'
    · cases hdir.symm.trans hlook
  · intro htimely holder hl hold hmem hother hlive
    subst hl
    exact absurd hlive (htimely.others_not_live h hold hmem hother)

/-! ## Runs -/

/-- The lock is held by one at a time, and no release takes it from another holder, exactly in the
runs in which each release comes before its own lock has expired, or while nobody holds it. -/
theorem exclusive_iff_timely (md5 : Bytes → String) (key : String) (ttl : α → Int) (store : Store)
    (now : Int) (ls : List (LockStep α)) :
    (Transition.EachState (Locking.step md5 key ttl) Exclusive ⟨store, now, []⟩ ls ∧
      Transition.EachStep (Locking.step md5 key ttl) (Own key) ⟨store, now, []⟩ ls) ↔
    Transition.EachStep (Locking.step md5 key ttl) Timely ⟨store, now, []⟩ ls := by
  have hstep : ∀ s l s', Inv key s → Timely s l s' →
      Locking.step md5 key ttl s l = some s' → Inv key s' := fun s l s' h htimely hs =>
    h.step htimely hs
  constructor
  · intro h
    exact Transition.eachStep_of_eachStep (Inv key)
      (fun s l s' hi hown hs => hi.step ((own_iff hi hs).mp hown) hs)
      (fun s l s' hi hs hown => (own_iff hi hs).mp hown) (inv_start store now) h.2
  · intro h
    constructor
    · exact (Transition.eachState_of_eachStep (Inv key) hstep (inv_start store now) h).mono
        fun s hi => hi.exclusive
    · exact Transition.eachStep_of_eachStep (Inv key) hstep
        (fun s l s' hi hs htimely => (own_iff hi hs).mpr htimely) (inv_start store now) h

/-- One holder releases its lock after it has expired, when another one has the lock: a third one
gets it too. -/
def lateRelease : List (LockStep String) :=
  [.acquire "a" true, .tick 10, .acquire "b" true, .release "a", .acquire "c" true]

theorem lateRelease_shared :
    ∃ s, Transition.run (Locking.step (fun _ => "") "locks/job" fun _ : String => 10)
      ⟨Tree.empty, 0, []⟩ lateRelease = some s ∧ ¬ s.Exclusive := by
  have hrun : (Transition.run (Locking.step (fun _ => "") "locks/job" fun _ : String => 10)
      ⟨Tree.empty, 0, []⟩ lateRelease).map (fun s => (s.now, s.holds)) =
      some (10, [⟨"c", 10, 10⟩, ⟨"b", 10, 10⟩]) := by decide +kernel
  obtain ⟨s, hs, heq⟩ := Option.map_eq_some_iff.mp hrun
  obtain ⟨hnow, hholds⟩ := Prod.mk.inj heq
  refine ⟨s, hs, fun h => ?_⟩
  unfold Exclusive at h
  rw [hnow, hholds] at h
  exact (List.pairwise_cons.mp h).1 _ List.mem_cons_self
    ⟨show (10 : Int) - 10 < 10 by decide, show (10 : Int) - 10 < 10 by decide⟩

end Locking

end Cassem.KV
