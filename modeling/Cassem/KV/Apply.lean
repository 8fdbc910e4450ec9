import Cassem.KV.Hierarchy
import Cassem.KV.RaftNode

/-!
# Applying committed entries

The consumer side of `raftNodeImpl`: `applyCommits` takes batches from the commit
channel and `applyMutateLogEntry` carries out one command, resolves the pending
request of its id, and emits the change. An entry that the storage rejects resolves its request with the error
and then ends the loop.
-/

namespace Cassem.KV

open Lib Lib.HierMap

/-- What the commit channel carries: nil, with the snapshot the store then loads,
or the data of a batch, `none` standing for data that does not decode. -/
inductive Commit where
  | nil (loaded : Option Store)
  | batch (data : List (Option LogEntry))

variable {χ : Type}

def buildChange (cmd : MutateCommand) (last cur : Option Entity) : Option Change :=
  let unchanged := match last, cur with
    | some l, some c => cmd.op = MutateOp.SET && l.fingerprint = c.fingerprint
    | _, _ => false
  if unchanged then none
  else some ⟨if cmd.op = MutateOp.UNSET then .Unset else .Set, cmd.key, last, cur⟩

def parentDirectoryChanges (change : Change) : List Notification :=
  let paths := (keySplitter change.key).1
  if paths = [] then [] else [.directory change ("/".intercalate paths)]

def emitChange (r : RaftNode χ) (change : Change) : RaftNode χ :=
  { r with changeC := r.changeC ++ .kv change :: parentDirectoryChanges change }

/-- The storage call of a command, and the value it leaves current. -/
def mutateStore (db : Store) (cmd : MutateCommand) : Except GoError (Store × Option Entity) :=
  match cmd.op with
  | .SET => (setKV db cmd.key (cmd.value.getD default) cmd.isDir).map fun db => (db, cmd.value)
  | .UNSET => (unsetKV db cmd.key cmd.isDir).map fun db => (db, none)
  | .OP_UNKNOWN => .error (.text "unsupported mutate op: OP_UNKNOWN")

def applyMutation (r : RaftNode χ) (cmd : MutateCommand) (last : Option Entity) :
    RaftNode χ × Option GoError :=
  match mutateStore r.kvstore cmd with
  | .error err => (r.resolvePending cmd.requestId (some err), some err)
  | .ok (db, cur) =>
      let r := { r with kvstore := db }.resolvePending cmd.requestId none
      match buildChange cmd last cur with
      | none => (r, none)
      | some change => (emitChange r change, none)

/-- `applyMutateLogEntry` on a decoded command, with the error it returns. -/
def applyMutateLogEntry (r : RaftNode χ) (cmd : MutateCommand) : RaftNode χ × Option GoError :=
  match getKV r.kvstore cmd.key cmd.isDir with
  | .ok last => applyMutation r cmd (some last)
  | .error err =>
      if err.errorsIs ErrNotFound then applyMutation r cmd none
      else (r.resolvePending cmd.requestId (some err),
        some (.errorf "raftNodeImpl.applyCommits.load previous value: " err))

def applyCommitData (r : RaftNode χ) (data : Option LogEntry) : RaftNode χ × Option GoError :=
  match data with
  | none => (r, some (.text "raftNodeImpl.applyCommits.decode log entry"))
  | some entry =>
      match entry.action with
      | .UNKNOWN => (r, none)
      | .Mutate =>
          match entry.command with
          | none => (r, some (.text "raftNodeImpl.applyCommits.decode mutate command"))
          | some cmd => applyMutateLogEntry r cmd

def applyBatch (r : RaftNode χ) : List (Option LogEntry) → RaftNode χ × Option GoError
  | [] => (r, none)
  | data :: rest =>
      match applyCommitData r data with
      | (r, some err) => (r, some err)
      | (r, none) => applyBatch r rest

def applyCommit (r : RaftNode χ) : Commit → RaftNode χ × Option GoError
  | .nil none => (r, none)
  | .nil (some snapshot) => ({ r with kvstore := snapshot }, none)
  | .batch data => applyBatch r data

/-- `applyCommits` over the commits received so far: `none` while it is still
receiving, or the error with which it returned. -/
def applyCommits (r : RaftNode χ) : List Commit → RaftNode χ × Option GoError
  | [] => (r, none)
  | c :: cs =>
      match applyCommit r c with
      | (r, some err) => (r, some err)
      | (r, none) => applyCommits r cs

/-! ## One command -/

/-- The hierarchical-map operation a command names, if any. -/
def commandOp (cmd : MutateCommand) : Option (Op String Entity) :=
  match cmd.op with
  | .SET => setOp cmd.key (cmd.value.getD default) cmd.isDir
  | .UNSET => unsetOp cmd.key cmd.isDir
  | .OP_UNKNOWN => none

/-- The operation that a command names, one case for each kind of command. -/
theorem commandOp_cases {cmd : MutateCommand} {o : Op String Entity}
    (ho : commandOp cmd = some o) :
    (cmd.op = .SET ∧ cmd.isDir = true ∧ o = .mkdir (keyPath cmd.key)) ∨
    (cmd.op = .SET ∧ cmd.isDir = false ∧ ValueKey cmd.key ∧
      o = .put (keyPath cmd.key) (cmd.value.getD default)) ∨
    (cmd.op = .UNSET ∧ cmd.isDir = true ∧ o = .rmdir (keyPath cmd.key)) ∨
    (cmd.op = .UNSET ∧ cmd.isDir = false ∧ o = .del (keyPath cmd.key)) ∨
    (cmd.op = .UNSET ∧ firstEmpty (keySplitter cmd.key).1 ≠ none ∧ ∃ q, o = .probe q) := by
  unfold commandOp at ho
  split at ho
  · next hop =>
    unfold setOp at ho
    dsimp only at ho
    split at ho
    · cases ho
    · next hwf =>
      simp only [not_or, Bool.not_eq_true] at hwf
      have hfilled : firstEmpty (keySplitter cmd.key).1 = none := by
        by_contra hne
        exact hwf.2.2 (mem_iff_firstEmpty.mpr (Option.isSome_iff_ne_none.mpr hne))
      split at ho
      · next hdir =>
        cases ho
        exact .inl ⟨hop, hdir, rfl⟩
      · next hdir =>
        split at ho
        · cases ho
        · cases ho
          exact .inr (.inl ⟨hop, Bool.eq_false_iff.mpr hdir, ⟨hwf.1, hwf.2.1, hfilled⟩, rfl⟩)
  · next hop =>
    unfold unsetOp at ho
    dsimp only at ho
    split at ho
    · cases ho
    · split at ho
      · next i hi =>
        cases ho
        exact .inr (.inr (.inr (.inr ⟨hop, by rw [hi]; exact Option.some_ne_none i, _, rfl⟩)))
      · split at ho
        · next hdir =>
          cases ho
          exact .inr (.inr (.inl ⟨hop, hdir, rfl⟩))
        · next hdir =>
          cases ho
          exact .inr (.inr (.inr (.inl ⟨hop, Bool.eq_false_iff.mpr hdir, rfl⟩)))
  · cases ho

/-- The command names an operation, and the operation fits the store: its key is
well formed and no name on its way is of the other kind. -/
def Accepts (db : Store) (cmd : MutateCommand) : Prop :=
  ∃ o, commandOp cmd = some o ∧ o.Fits db.look

@[simp] theorem emitChange_kvstore (r : RaftNode χ) (change : Change) :
    (emitChange r change).kvstore = r.kvstore := rfl

theorem mutateStore_set {db db' : Store} {cmd : MutateCommand} {cur : Option Entity}
    (hop : cmd.op = .SET) (h : mutateStore db cmd = .ok (db', cur)) :
    setKV db cmd.key (cmd.value.getD default) cmd.isDir = .ok db' ∧ cur = cmd.value := by
  unfold mutateStore at h
  rw [hop] at h
  cases hset : setKV db cmd.key (cmd.value.getD default) cmd.isDir with
  | error err =>
    rw [hset] at h
    cases h
  | ok db =>
    rw [hset] at h
    cases h
    exact ⟨rfl, rfl⟩

theorem mutateStore_unset {db db' : Store} {cmd : MutateCommand} {cur : Option Entity}
    (hop : cmd.op = .UNSET) (h : mutateStore db cmd = .ok (db', cur)) :
    unsetKV db cmd.key cmd.isDir = .ok db' ∧ cur = none := by
  unfold mutateStore at h
  rw [hop] at h
  cases hunset : unsetKV db cmd.key cmd.isDir with
  | error err =>
    rw [hunset] at h
    cases h
  | ok db =>
    rw [hunset] at h
    cases h
    exact ⟨rfl, rfl⟩

/-- The storage call of a command is its hierarchical-map operation. -/
theorem mutateStore_spec (db : Store) (cmd : MutateCommand) :
    (∀ o, commandOp cmd = some o → o.Fits db.look →
      ∃ db' cur, mutateStore db cmd = .ok (db', cur) ∧ db'.look = o.effect db.look) ∧
    (¬ Accepts db cmd → ∃ err, mutateStore db cmd = .error err) := by
  have hends : (∃ o db' cur, commandOp cmd = some o ∧ o.Fits db.look ∧
        mutateStore db cmd = .ok (db', cur) ∧ db'.look = o.effect db.look) ∨
      (∀ o, commandOp cmd = some o → ¬ o.Fits db.look) ∧
        ∃ err, mutateStore db cmd = .error err := by
    cases hop : cmd.op with
    | OP_UNKNOWN =>
      simp only [commandOp, mutateStore, hop]
      exact .inr ⟨fun o ho => absurd ho (by simp), _, rfl⟩
    | SET =>
      simp only [commandOp, mutateStore, hop]
      rcases setKV_ends db cmd.key (cmd.value.getD default) cmd.isDir with
        ⟨o, db', ho, hfit, hdb, hlook⟩ | ⟨hno, err, herr⟩
      · exact .inl ⟨o, db', cmd.value, ho, hfit, by rw [hdb]; rfl, hlook⟩
      · exact .inr ⟨hno, err, by rw [herr]; rfl⟩
    | UNSET =>
      simp only [commandOp, mutateStore, hop]
      rcases unsetKV_ends db cmd.key cmd.isDir with
        ⟨o, db', ho, hfit, hdb, hlook⟩ | ⟨hno, err, herr⟩
      · exact .inl ⟨o, db', none, ho, hfit, by rw [hdb]; rfl, hlook⟩
      · exact .inr ⟨hno, err, by rw [herr]; rfl⟩
  rcases hends with ⟨o, db', cur, ho, hfit, hdb, hlook⟩ | ⟨hno, herr⟩
  · refine ⟨fun o' ho' _ => ?_, fun hrejected => absurd ⟨o, ho, hfit⟩ hrejected⟩
    cases ho.symm.trans ho'
    exact ⟨db', cur, hdb, hlook⟩
  · exact ⟨fun o ho hfit => absurd hfit (hno o ho), fun _ => herr⟩

/-- A command the storage accepts is not stopped by the read before it. -/
theorem not_blocked_of_accepts {db : Store} {cmd : MutateCommand} (h : Accepts db cmd) :
    ¬ ReadBlocked db cmd.key := by
  obtain ⟨o, ho, hfit⟩ := h
  rintro (hn | hl | ⟨i, hi, hd⟩)
  · cases hop : cmd.op <;> simp [commandOp, setOp, unsetOp, hop, hn] at ho
  · cases hop : cmd.op <;> simp [commandOp, setOp, unsetOp, hop, hl] at ho
  · cases hop : cmd.op with
    | OP_UNKNOWN => simp [commandOp, hop] at ho
    | SET =>
      have hmem : "" ∈ (keySplitter cmd.key).1 := mem_iff_firstEmpty.mpr (by simp [hi])
      simp [commandOp, setOp, hop, hmem] at ho
    | UNSET =>
      simp only [commandOp, unsetOp, hop, hi] at ho
      split at ho
      · cases ho
      · cases ho
        exact Op.probe_fits_iff.mp hfit hd

theorem applyMutation_of_error {r : RaftNode χ} {cmd : MutateCommand} {err : GoError}
    (h : mutateStore r.kvstore cmd = .error err) (last : Option Entity) :
    applyMutation r cmd last = (r.resolvePending cmd.requestId (some err), some err) := by
  rw [applyMutation, h]

theorem applyMutation_of_ok {r : RaftNode χ} {cmd : MutateCommand} {db : Store}
    {cur : Option Entity} (h : mutateStore r.kvstore cmd = .ok (db, cur)) (last : Option Entity) :
    (applyMutation r cmd last).2 = none ∧ (applyMutation r cmd last).1.kvstore = db := by
  rw [applyMutation, h]
  dsimp only
  split <;> simp

/-- The read before an accepted command does not stop it: it gives the last value, if any. -/
theorem applyMutateLogEntry_eq_applyMutation {r : RaftNode χ} {cmd : MutateCommand}
    (h : Accepts r.kvstore cmd) :
    applyMutateLogEntry r cmd =
      applyMutation r cmd (getKV r.kvstore cmd.key cmd.isDir).toOption := by
  have hfree := not_blocked_of_accepts h
  unfold applyMutateLogEntry
  cases hget : getKV r.kvstore cmd.key cmd.isDir with
  | ok last => rfl
  | error err =>
    simp only [getKV_of_not_blocked hfree cmd.isDir hget, ↓reduceIte]
    rfl

/-- An accepted command carries out its operation and returns no error. -/
theorem applyMutateLogEntry_of_accepts {r : RaftNode χ} {cmd : MutateCommand}
    {o : Op String Entity} (ho : commandOp cmd = some o) (hfit : o.Fits r.kvstore.look) :
    (applyMutateLogEntry r cmd).2 = none ∧
    (applyMutateLogEntry r cmd).1.kvstore.look = o.effect r.kvstore.look := by
  obtain ⟨db, cur, hdb, hlook⟩ := (mutateStore_spec r.kvstore cmd).1 o ho hfit
  rw [applyMutateLogEntry_eq_applyMutation ⟨o, ho, hfit⟩]
  obtain ⟨herr, hstore⟩ := applyMutation_of_ok hdb (getKV r.kvstore cmd.key cmd.isDir).toOption
  exact ⟨herr, by rw [hstore, hlook]⟩

/-- A command that is not accepted resolves its own request with an error, does
nothing else, and returns an error. -/
theorem applyMutateLogEntry_of_rejected {r : RaftNode χ} {cmd : MutateCommand}
    (h : ¬ Accepts r.kvstore cmd) :
    ∃ err ret, applyMutateLogEntry r cmd =
      (r.resolvePending cmd.requestId (some err), some ret) := by
  obtain ⟨err, herr⟩ := (mutateStore_spec r.kvstore cmd).2 h
  unfold applyMutateLogEntry
  cases hg : getKV r.kvstore cmd.key cmd.isDir with
  | ok last => exact ⟨err, err, applyMutation_of_error herr (some last)⟩
  | error err' =>
    dsimp only
    split
    · exact ⟨err, err, applyMutation_of_error herr none⟩
    · exact ⟨err', _, rfl⟩

theorem applyMutateLogEntry_none_iff (r : RaftNode χ) (cmd : MutateCommand) :
    (applyMutateLogEntry r cmd).2 = none ↔ Accepts r.kvstore cmd := by
  constructor
  · intro h
    by_contra hno
    obtain ⟨err, ret, heq⟩ := applyMutateLogEntry_of_rejected hno
    rw [heq] at h
    cases h
  · rintro ⟨o, ho, hfit⟩
    exact (applyMutateLogEntry_of_accepts ho hfit).1

/-- Whatever becomes of an entry, the pending requests are those that resolving its id
leaves, and the id is resolved without error exactly when the loop goes on. -/
theorem applyMutateLogEntry_resolves (r : RaftNode χ) (cmd : MutateCommand) :
    ∃ err, (err = none ↔ (applyMutateLogEntry r cmd).2 = none) ∧
      (applyMutateLogEntry r cmd).1.pending = (r.resolvePending cmd.requestId err).pending ∧
      (applyMutateLogEntry r cmd).1.acks = (r.resolvePending cmd.requestId err).acks ∧
      (applyMutateLogEntry r cmd).1.nextRequestID = r.nextRequestID := by
  by_cases h : Accepts r.kvstore cmd
  · have hnone := (applyMutateLogEntry_none_iff r cmd).mpr h
    refine ⟨none, by simp [hnone], ?_⟩
    rw [applyMutateLogEntry_eq_applyMutation h]
    obtain ⟨o, ho, hfit⟩ := h
    obtain ⟨db, cur, hdb, -⟩ := (mutateStore_spec r.kvstore cmd).1 o ho hfit
    rw [applyMutation, hdb]
    dsimp only
    rw [RaftNode.resolvePending_withStore]
    split
    · exact ⟨rfl, rfl, RaftNode.resolvePending_counter _ _ _⟩
    · exact ⟨rfl, rfl, RaftNode.resolvePending_counter _ _ _⟩
  · obtain ⟨err, ret, heq⟩ := applyMutateLogEntry_of_rejected h
    rw [heq]
    exact ⟨some err, by simp, rfl, rfl, RaftNode.resolvePending_counter _ _ _⟩

/-! ## The store alone -/

/-- What one command makes of the store. -/
def applyStore (db : Store) (cmd : MutateCommand) : Store :=
  match mutateStore db cmd with
  | .error _ => db
  | .ok (db', _) => db'

/-- What a log makes of the store, whatever is rejected on the way. -/
def replay (db : Store) (cmds : List MutateCommand) : Store := cmds.foldl applyStore db

/-- Every command of the log is accepted by the store it meets. -/
def AcceptsEach : Store → List MutateCommand → Prop
  | _, [] => True
  | db, cmd :: cmds => Accepts db cmd ∧ AcceptsEach (applyStore db cmd) cmds

/-- The commands name operations that fit the shape one after another. -/
def LogFits (s : Shape String Entity) (cmds : List MutateCommand) : Prop :=
  ∃ ops, cmds.map commandOp = ops.map some ∧ Accepted s ops

theorem applyStore_of_accepts {db : Store} {cmd : MutateCommand} {o : Op String Entity}
    (ho : commandOp cmd = some o) (hfit : o.Fits db.look) :
    (applyStore db cmd).look = o.effect db.look := by
  obtain ⟨db', cur, hdb, hlook⟩ := (mutateStore_spec db cmd).1 o ho hfit
  rw [applyStore, hdb, hlook]

theorem applyStore_of_rejected {db : Store} {cmd : MutateCommand} (h : ¬ Accepts db cmd) :
    applyStore db cmd = db := by
  obtain ⟨err, herr⟩ := (mutateStore_spec db cmd).2 h
  rw [applyStore, herr]

/-- The node's store moves as the store alone does. -/
theorem applyMutateLogEntry_kvstore (r : RaftNode χ) (cmd : MutateCommand) :
    (applyMutateLogEntry r cmd).1.kvstore = applyStore r.kvstore cmd := by
  by_cases h : Accepts r.kvstore cmd
  · obtain ⟨o, ho, hfit⟩ := h
    apply Tree.ext_of_look
    intro p
    rw [(applyMutateLogEntry_of_accepts ho hfit).2, applyStore_of_accepts ho hfit]
  · obtain ⟨err, ret, heq⟩ := applyMutateLogEntry_of_rejected h
    rw [heq, applyStore_of_rejected h, RaftNode.resolvePending_kvstore]

@[simp] theorem replay_nil (db : Store) : replay db [] = db := rfl

@[simp] theorem replay_cons (db : Store) (cmd : MutateCommand) (cmds : List MutateCommand) :
    replay db (cmd :: cmds) = replay (applyStore db cmd) cmds := rfl

theorem replay_append (db : Store) (as bs : List MutateCommand) :
    replay db (as ++ bs) = replay (replay db as) bs := by
  simp [replay]

theorem acceptsEach_append (db : Store) (as bs : List MutateCommand) :
    AcceptsEach db (as ++ bs) ↔ AcceptsEach db as ∧ AcceptsEach (replay db as) bs := by
  induction as generalizing db with
  | nil => simp [AcceptsEach]
  | cons a as ih => rw [List.cons_append, AcceptsEach, AcceptsEach, ih, replay_cons, and_assoc]

/-- A log that is accepted throughout leaves the shape its operations leave. -/
theorem replay_look {db : Store} {cmds : List MutateCommand} {ops : List (Op String Entity)}
    (hops : cmds.map commandOp = ops.map some) (h : Accepted db.look ops) :
    (replay db cmds).look = after db.look ops := by
  induction cmds generalizing db ops with
  | nil =>
    cases ops with
    | nil => rfl
    | cons o ops => cases hops
  | cons cmd cmds ih =>
    cases ops with
    | nil => cases hops
    | cons o ops =>
      obtain ⟨ho, hops⟩ := List.cons.inj hops
      obtain ⟨hfit, hrest⟩ := (accepted_cons _ _ _).mp h
      rw [← applyStore_of_accepts ho hfit] at hrest
      rw [replay_cons, after_cons, ih hops hrest, applyStore_of_accepts ho hfit]

theorem acceptsEach_iff_logFits (db : Store) (cmds : List MutateCommand) :
    AcceptsEach db cmds ↔ LogFits db.look cmds := by
  induction cmds generalizing db with
  | nil =>
    refine ⟨fun _ => ⟨[], rfl, ?_⟩, fun _ => trivial⟩
    intro pre o post h
    simp at h
  | cons cmd cmds ih =>
    rw [AcceptsEach, ih]
    constructor
    · rintro ⟨⟨o, ho, hfit⟩, ops, hops, hacc⟩
      rw [applyStore_of_accepts ho hfit] at hacc
      exact ⟨o :: ops, by simp [ho, hops], (accepted_cons _ _ _).mpr ⟨hfit, hacc⟩⟩
    · rintro ⟨ops, hops, hacc⟩
      cases ops with
      | nil => cases hops
      | cons o ops =>
        obtain ⟨ho, hops⟩ := List.cons.inj hops
        obtain ⟨hfit, hrest⟩ := (accepted_cons _ _ _).mp hacc
        rw [← applyStore_of_accepts ho hfit] at hrest
        exact ⟨⟨o, ho, hfit⟩, ops, hops, hrest⟩

/-! ## The whole log -/

/-- A batch of mutate commands, as it is committed. -/
def commitOf (cmds : List MutateCommand) : Commit :=
  .batch (cmds.map fun cmd => some ⟨.Mutate, some cmd⟩)

/-- Every command in turn, whatever the one before it returned. -/
def applyEach (r : RaftNode χ) (cmds : List MutateCommand) : RaftNode χ :=
  cmds.foldl (fun r cmd => (applyMutateLogEntry r cmd).1) r

/-- The loop goes through the whole log and is still receiving; an entry that the
storage rejects only resolves its own request with an error. -/
structure ProcessesEvery (r : RaftNode χ) (log : List (List MutateCommand)) : Prop where
  survives : applyCommits r (log.map commitOf) = (applyEach r log.flatten, none)
  rejected : ∀ pre cmd post, log.flatten = pre ++ cmd :: post →
    ¬ Accepts (applyEach r pre).kvstore cmd →
    ∃ err, applyEach r (pre ++ [cmd]) = (applyEach r pre).resolvePending cmd.requestId (some err)

@[simp] theorem applyEach_nil (r : RaftNode χ) : applyEach r [] = r := rfl

@[simp] theorem applyEach_cons (r : RaftNode χ) (cmd : MutateCommand)
    (cmds : List MutateCommand) :
    applyEach r (cmd :: cmds) = applyEach (applyMutateLogEntry r cmd).1 cmds := rfl

theorem applyEach_append (r : RaftNode χ) (as bs : List MutateCommand) :
    applyEach r (as ++ bs) = applyEach (applyEach r as) bs := by
  simp [applyEach]

theorem applyEach_kvstore (r : RaftNode χ) (cmds : List MutateCommand) :
    (applyEach r cmds).kvstore = replay r.kvstore cmds := by
  induction cmds generalizing r with
  | nil => rfl
  | cons cmd cmds ih => rw [applyEach_cons, ih, applyMutateLogEntry_kvstore, replay_cons]

/-- One batch ends without error exactly when each of its commands is accepted,
and has then carried out all of them. -/
theorem applyBatch_none_iff (r : RaftNode χ) (cmds : List MutateCommand) :
    (AcceptsEach r.kvstore cmds → applyCommit r (commitOf cmds) = (applyEach r cmds, none)) ∧
    ((applyCommit r (commitOf cmds)).2 = none → AcceptsEach r.kvstore cmds) := by
  induction cmds generalizing r with
  | nil => exact ⟨fun _ => rfl, fun _ => trivial⟩
  | cons cmd cmds ih =>
    have hunfold : applyCommit r (commitOf (cmd :: cmds)) =
        match applyMutateLogEntry r cmd with
        | (r, some err) => (r, some err)
        | (r, none) => applyCommit r (commitOf cmds) := rfl
    have hstore := applyMutateLogEntry_kvstore r cmd
    have hnone := applyMutateLogEntry_none_iff r cmd
    rw [hunfold, AcceptsEach, applyEach_cons, ← hstore, ← hnone]
    rcases applyMutateLogEntry r cmd with ⟨r', _ | err⟩
    · exact ⟨fun h => (ih r').1 h.2, fun h => ⟨rfl, (ih r').2 h⟩⟩
    · exact ⟨fun h => absurd h.1 (by simp), fun h => absurd h (by simp)⟩

theorem applyCommits_none_iff (r : RaftNode χ) (log : List (List MutateCommand)) :
    (AcceptsEach r.kvstore log.flatten →
      applyCommits r (log.map commitOf) = (applyEach r log.flatten, none)) ∧
    ((applyCommits r (log.map commitOf)).2 = none → AcceptsEach r.kvstore log.flatten) := by
  induction log generalizing r with
  | nil => exact ⟨fun _ => rfl, fun _ => trivial⟩
  | cons cmds log ih =>
    obtain ⟨hok, herr⟩ := applyBatch_none_iff r cmds
    rw [List.flatten_cons, acceptsEach_append, applyEach_append, List.map_cons, applyCommits,
      ← applyEach_kvstore]
    constructor
    · rintro ⟨h₁, h₂⟩
      rw [hok h₁]
      exact (ih _).1 h₂
    · intro h
      rcases hc : applyCommit r (commitOf cmds) with ⟨r', _ | err⟩
      · have h₁ := herr (by rw [hc])
        have hr' : r' = applyEach r cmds := congrArg Prod.fst (hc.symm.trans (hok h₁))
        rw [hc] at h
        exact ⟨h₁, hr' ▸ (ih r').2 h⟩
      · rw [hc] at h
        cases h

/-- The apply loop goes through the whole log exactly when its commands name
operations that fit the store one after another: a rejected entry is the last one
applied. -/
theorem processesEvery_iff (r : RaftNode χ) (log : List (List MutateCommand)) :
    ProcessesEvery r log ↔ LogFits r.kvstore.look log.flatten := by
  obtain ⟨hok, herr⟩ := applyCommits_none_iff r log
  rw [← acceptsEach_iff_logFits]
  constructor
  · intro h
    exact herr (by rw [h.survives])
  · intro h
    refine ⟨hok h, fun pre cmd post hl hno => ?_⟩
    obtain ⟨err, ret, heq⟩ := applyMutateLogEntry_of_rejected hno
    exact ⟨err, by rw [applyEach_append, applyEach_cons, heq, applyEach_nil]⟩

/-- The validation of the KV service on the keys of SET and UNSET requests. -/
def RequestValid (cmd : MutateCommand) : Prop :=
  2 ≤ cmd.key.length ∧ (cmd.op = .SET → '/' ∈ cmd.key.toList)

/-- An UNSET of the key `ab`, and after it a SET of `a/b` by another request. -/
def haltingLog : List (List MutateCommand) :=
  [[⟨1, .UNSET, "ab", false, none⟩], [⟨2, .SET, "a/b", false, some { key := "a/b" }⟩]]

/-- Both requests pass the validation, yet the first one, rejected for having no
parent bucket, ends the loop and the second is never applied. -/
theorem haltingLog_not_processed :
    (∀ cmd ∈ haltingLog.flatten, RequestValid cmd ∧ cmd.op ≠ .OP_UNKNOWN) ∧
    ¬ ProcessesEvery ({ pending := [(1, 1), (2, 2)] } : RaftNode Nat) haltingLog := by
  refine ⟨by unfold RequestValid; decide, fun h => ?_⟩
  have hlook := congrArg (fun x => x.1.kvstore.look ["a", "b"]) h.survives
  revert hlook
  decide

end Cassem.KV
