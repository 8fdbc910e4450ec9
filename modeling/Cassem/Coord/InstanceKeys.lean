import Cassem.Coord.KeyCodec
import Cassem.KV.Sequential

/-!
# The keys of instances

The client id is free text, and it is part of the keys of an instance as it is. The keys keep to
their directories, and those of two instances are apart, exactly when there is no separator of the
store in it and its parts are not taken for those of the address.
-/

namespace Cassem.Coord

open Lib Cassem.Concept
open Cassem.Agent (Watching InstanceID Validator)
open KV (Store MutateCommand ValueKey keySplitter keyPath)

/-! ## Requests -/

structure RegisterReq where
  ClientId : String
  ClientIp : String
  Watching : List Watching
  deriving DecidableEq, Repr

/-- The rules for a `RegisterReq`. -/
def RegisterReq.valid (v : Validator) (req : RegisterReq) : Bool :=
  v.client req.ClientId req.ClientIp && req.Watching.all Agent.Watching.valid

/-- The instance that `Register` and `Renew` write for the request. -/
def RegisterReq.instance (agentId : String) (now : Int) (req : RegisterReq) : Instance :=
  ⟨req.ClientId, agentId, req.ClientIp, req.Watching, now⟩

def GenInstanceNormalDirKey : String := joint [insPrefix, "normalized"]

/-- The keys of an instance, each after its directory. -/
def Instance.entries (ins : Instance) : List (String × String) :=
  (GenInstanceNormalDirKey, GenInstanceNormalKey ins.insId) ::
    ins.Watching.flatMap fun w => w.WatchKeys.map fun key =>
      (GenInstanceReversedKey w.App w.Env key,
        GenInstanceReversedKeyWithInsId w.App w.Env key ins.insId)

theorem entries_keys (ins : Instance) : ins.entries.map Prod.snd =
    GenInstanceNormalKey ins.insId :: reversedKeys ins.insId ins := by
  simp [Instance.entries, reversedKeys, List.map_flatMap, Function.comp_def]

theorem asks_setReversed {P : InsReq → Prop} {insId : String} {keys : List String}
    (h : ∀ key ∈ keys, P (.SetKV key 120 (.id insId) true)) (errs : List GoError) :
    (setReversed insId keys errs).Asks P := by
  induction keys generalizing errs with
  | nil => trivial
  | cons key keys ih =>
    have hrest := ih fun key' hmem => h key' (List.mem_cons_of_mem _ hmem)
    refine ⟨h key List.mem_cons_self, fun r => ?_⟩
    cases r with
    | ok _ => exact hrest errs
    | error err => exact hrest _

theorem asks_unsetReversed {P : InsReq → Prop} {keys : List String}
    (h : ∀ key ∈ keys, P (.UnsetKV key)) (errs : List GoError) :
    (unsetReversed keys errs).Asks P := by
  induction keys generalizing errs with
  | nil => trivial
  | cons key keys ih =>
    have hrest := ih fun key' hmem => h key' (List.mem_cons_of_mem _ hmem)
    refine ⟨h key List.mem_cons_self, fun r => ?_⟩
    cases r with
    | ok _ => exact hrest errs
    | error err => exact hrest _

/-- The keys are all that an instance writes. -/
theorem asks_setInstanceInfo (ins : Instance) : (setInstanceInfo ins).Asks fun q =>
    ∃ entry ∈ ins.entries, ∃ val, q = .SetKV entry.2 120 val true := by
  have hkey : ∀ key ∈ GenInstanceNormalKey ins.insId :: reversedKeys ins.insId ins,
      ∃ entry ∈ ins.entries, entry.2 = key := by
    intro key hmem
    rw [← entries_keys] at hmem
    exact List.mem_map.mp hmem
  obtain ⟨entry, hentry, hnormal⟩ := hkey _ List.mem_cons_self
  refine ⟨⟨entry, hentry, .detail ins, by rw [hnormal]⟩, fun r => ?_⟩
  cases r with
  | error err => trivial
  | ok _ =>
    refine asks_setReversed (fun key hmem => ?_) []
    obtain ⟨entry, hentry, rfl⟩ := hkey key (List.mem_cons_of_mem _ hmem)
    exact ⟨entry, hentry, _, rfl⟩

/-! ## Leaves -/

/-- The value lies directly below the directory. -/
def SingleLeaf (dir key : String) : Prop := (keySplitter key).1 = KV.split dir ∧ ValueKey key

theorem keySplitter_slash (dir leaf : String) : keySplitter (dir ++ "/" ++ leaf) =
    (KV.split dir ++ (KV.split leaf).dropLast, (KV.split leaf).getLastD "") := by
  have hne : KV.split leaf ≠ [] := KV.split_ne_nil leaf
  unfold keySplitter
  dsimp only
  rw [KV.split_slash, List.dropLast_append_of_ne_nil hne, List.getLastD_eq_getLast?,
    List.getLast?_append_of_ne_nil _ hne, ← List.getLastD_eq_getLast?]

theorem dropLast_split_eq_nil {s : String} : (KV.split s).dropLast = [] ↔ '/' ∉ s.toList := by
  constructor
  · intro h
    have hlen := congrArg List.length h
    rw [List.length_dropLast, KV.split, List.length_map, KV.length_splitChars, List.length_nil] at hlen
    exact List.count_eq_zero.mp (by omega)
  · intro h
    rw [KV.split_of_notMem h]
    rfl

theorem singleLeaf_iff {dir leaf : String} (hdir : KV.firstEmpty (KV.split dir) = none)
    (hleaf : '@' ∈ leaf.toList) : SingleLeaf dir (dir ++ "/" ++ leaf) ↔ '/' ∉ leaf.toList := by
  have hne : KV.split dir ≠ [] := KV.split_ne_nil dir
  constructor
  · intro h
    have hnodes := h.1
    rw [keySplitter_slash] at hnodes
    exact dropLast_split_eq_nil.mp (List.append_right_eq_self.mp hnodes)
  · intro h
    have hkey : keySplitter (dir ++ "/" ++ leaf) = (KV.split dir, leaf) := by
      rw [keySplitter_slash, KV.split_of_notMem h]
      exact congrArg (·, leaf) (List.append_nil _)
    have hfilled : KV.isEmptyLeaf leaf = false := by
      rw [Bool.eq_false_iff]
      intro hblank
      exact absurd (List.all_eq_true.mp hblank '@' hleaf) (by decide)
    refine ⟨congrArg Prod.fst hkey, ?_, ?_, ?_⟩
    · rwa [hkey]
    · rwa [hkey]
    · rwa [hkey]

/-! ## Ids -/

/-- A part of one id is taken for the end of the client id of another. -/
def RegisterReq.Shifted (a b : RegisterReq) : Prop :=
  ∃ part, b.ClientId = a.ClientId ++ "@" ++ part ∧ a.ClientIp = part ++ "@" ++ b.ClientIp

/-- There is no separator of the store in the client id or in the address. -/
def RegisterReq.Unseparated (req : RegisterReq) : Prop :=
  '/' ∉ req.ClientId.toList ∧ '/' ∉ req.ClientIp.toList

section Ids

variable {a b : RegisterReq}

theorem append_at_eq_iff {l m l' m' : List Char} : l ++ '@' :: m = l' ++ '@' :: m' ↔
    (l = l' ∧ m = m') ∨ (∃ part, l' = l ++ '@' :: part ∧ m = part ++ '@' :: m') ∨
      ∃ part, l = l' ++ '@' :: part ∧ m' = part ++ '@' :: m := by
  constructor
  · intro h
    rcases List.append_eq_append_iff.mp h with ⟨part, rfl, hrest⟩ | ⟨part, rfl, hrest⟩
    · cases part with
      | nil => exact Or.inl ⟨(List.append_nil _).symm, (List.cons.inj hrest).2⟩
      | cons c part =>
        obtain ⟨rfl, hm⟩ := List.cons.inj hrest
        exact Or.inr (Or.inl ⟨part, rfl, hm⟩)
    · cases part with
      | nil => exact Or.inl ⟨List.append_nil _, (List.cons.inj hrest).2.symm⟩
      | cons c part =>
        obtain ⟨rfl, hm⟩ := List.cons.inj hrest
        exact Or.inr (Or.inr ⟨part, rfl, hm⟩)
  · rintro (⟨rfl, rfl⟩ | ⟨part, rfl, rfl⟩ | ⟨part, rfl, rfl⟩)
    · rfl
    · simp
    · simp

theorem shifted_iff : a.Shifted b ↔ ∃ part, b.ClientId.toList = a.ClientId.toList ++ '@' :: part ∧
    a.ClientIp.toList = part ++ '@' :: b.ClientIp.toList := by
  constructor
  · intro h
    obtain ⟨part, hid, hip⟩ := h
    refine ⟨part.toList, ?_, ?_⟩
    · simp [hid, String.toList_append]
    · simp [hip, String.toList_append]
  · intro h
    obtain ⟨part, hid, hip⟩ := h
    refine ⟨String.ofList part, String.toList_injective ?_, String.toList_injective ?_⟩
    · simp [hid, String.toList_append]
    · simp [hip, String.toList_append]

theorem insId_toList (h : a.ClientId ≠ "") :
    (InstanceID a.ClientId a.ClientIp).toList =
      a.ClientId.toList ++ '@' :: a.ClientIp.toList := by
  rw [InstanceID, if_neg h]
  simp [String.toList_append]

theorem insId_eq_iff (ha : a.ClientId ≠ "") (hb : b.ClientId ≠ "")
    (hne : (a.ClientId, a.ClientIp) ≠ (b.ClientId, b.ClientIp)) :
    InstanceID a.ClientId a.ClientIp = InstanceID b.ClientId b.ClientIp ↔
      a.Shifted b ∨ b.Shifted a := by
  rw [← String.toList_inj, insId_toList ha, insId_toList hb, append_at_eq_iff, shifted_iff,
    shifted_iff]
  refine or_iff_right fun h => hne ?_
  rw [String.toList_inj.mp h.1, String.toList_inj.mp h.2]

theorem slash_notMem_insId (ha : a.ClientId ≠ "") :
    '/' ∉ (InstanceID a.ClientId a.ClientIp).toList ↔ a.Unseparated := by
  rw [insId_toList ha, RegisterReq.Unseparated]
  simp

end Ids

/-! ## Commands -/

/-- A write or a delete of the value at `key`, accepted before, is refused after one at `key'`. -/
def Blocks (key' key : String) : Prop :=
  ∃ (store : Store) (cmd' cmd : MutateCommand), (cmd'.key = key' ∧ cmd'.isDir = false) ∧
    (cmd.key = key ∧ cmd.isDir = false) ∧ (KV.commit store cmd).2 = none ∧
    (KV.commit (KV.commit store cmd').1 cmd).2 ≠ none

theorem onValue_of_command {cmd : MutateCommand} (hdir : cmd.isDir = false)
    (hkey : ValueKey cmd.key) {o : HierMap.Op String KV.Entity} (ho : KV.commandOp cmd = some o) :
    o.OnValue (keyPath cmd.key) := by
  unfold KV.commandOp at ho
  cases hop : cmd.op with
  | SET =>
    rw [hop, hdir] at ho
    unfold KV.setOp at ho
    dsimp only at ho
    split at ho
    · cases ho
    · rw [if_neg (by decide)] at ho
      split at ho
      · cases ho
      · obtain rfl := Option.some.inj ho
        rfl
  | UNSET =>
    rw [hop, hdir] at ho
    unfold KV.unsetOp at ho
    dsimp only at ho
    rw [if_neg (by simp [hkey.nodes, hkey.leaf]), hkey.filled] at ho
    obtain rfl := Option.some.inj ho
    rfl
  | OP_UNKNOWN =>
    rw [hop] at ho
    cases ho

theorem not_blocks {key' key : String} (hkey' : ValueKey key') (hkey : ValueKey key)
    (h : ¬ keyPath key <+: keyPath key') (h' : ¬ keyPath key' <+: keyPath key) :
    ¬ Blocks key' key := by
  intro hblocks
  obtain ⟨store, cmd', cmd, ⟨rfl, hdir'⟩, ⟨rfl, hdir⟩, hbefore, hafter⟩ := hblocks
  have haccepts : KV.Accepts store cmd := by
    by_contra hrejected
    obtain ⟨err, herr⟩ := KV.commit_of_rejected hrejected
    rw [herr] at hbefore
    cases hbefore
  rcases KV.commit_cases store cmd' with hsame | ⟨o', ho', -, hlook⟩
  · rw [hsame] at hafter
    exact hafter hbefore
  · obtain ⟨o, ho, hfit⟩ := haccepts
    have hfit' : o.Fits (KV.commit store cmd').1.look := by
      rw [hlook]
      exact hfit.effect_of_apart (onValue_of_command hdir hkey ho)
        (onValue_of_command hdir' hkey' ho') h h'
    obtain ⟨store', hcommit, -⟩ := KV.commit_of_fits ho hfit'
    rw [hcommit] at hafter
    exact hafter rfl

/-! ## Entries -/

section Entries

variable {v : Validator} {req : RegisterReq} {agentId : String} {now : Int}
  {entry : String × String}

theorem clientId_ne_empty (h : req.valid v = true) : req.ClientId ≠ "" := by
  intro hempty
  simp [RegisterReq.valid, Validator.client, hempty] at h

/-- A directory of instances, which is not in another one. -/
def InsDir (dir : String) : Prop :=
  KV.split dir = ["cassem", "instances", "normalized"] ∨
    ∃ name, name ≠ "" ∧ KV.split dir = ["cassem", "instances", "reversed", name]

theorem InsDir.filled {dir : String} (h : InsDir dir) : KV.firstEmpty (KV.split dir) = none := by
  rcases h with h | ⟨name, hname, h⟩
  · rw [h]
    decide
  · rw [h]
    simp [KV.firstEmpty, List.findIdx?_cons, hname]

/-- The paths of leaves of other names are apart. -/
theorem InsDir.not_below {dir dir' leaf leaf' : String} (h : InsDir dir) (h' : InsDir dir')
    (hne : leaf ≠ leaf') : ¬ KV.split dir ++ [leaf] <+: KV.split dir' ++ [leaf'] := by
  rcases h with h | ⟨name, -, h⟩
  all_goals
    rcases h' with h' | ⟨name', -, h'⟩
    all_goals
      rw [h, h']
      simp [List.cons_prefix_cons, hne]

theorem entry_spec (h : req.valid v = true)
    (hentry : entry ∈ (req.instance agentId now).entries) :
    InsDir entry.1 ∧ entry.2 = entry.1 ++ "/" ++ InstanceID req.ClientId req.ClientIp := by
  rcases List.mem_cons.mp hentry with rfl | hentry
  · refine ⟨Or.inl (show KV.split GenInstanceNormalDirKey = _ by decide +kernel),
      String.toList_injective ?_⟩
    rw [normalKey_toList]
    simp [GenInstanceNormalDirKey, joint, insPrefix, RegisterReq.instance, Instance.insId]
  · obtain ⟨w, hw, hentry⟩ := List.mem_flatMap.mp hentry
    obtain ⟨key, hkey, rfl⟩ := List.mem_map.mp hentry
    have hwatch : Agent.Watching.valid w = true := by
      rw [RegisterReq.valid, Bool.and_eq_true] at h
      exact List.all_eq_true.mp h.2 w hw
    rw [Agent.Watching.valid, Bool.and_eq_true, Bool.and_eq_true] at hwatch
    have hidentifier := List.all_eq_true.mp hwatch.2 key hkey
    refine ⟨Or.inr ⟨_, ?_, StorageKey.split_reversed hwatch.1.1 hwatch.1.2 hidentifier⟩,
      String.toList_injective ?_⟩
    · intro hempty
      have hlist := congrArg String.toList hempty
      simp [String.toList_append] at hlist
    · rw [reversedKey_toList]
      simp [String.toList_append, RegisterReq.instance, Instance.insId]

end Entries

/-! ## Two instances -/

/-- The keys of both are single leaves, none is a key of both, and what is done to one of them is no
obstacle to a write or a delete of another. -/
structure KeptApart (a b : Instance) : Prop where
  leaves : ∀ ins ∈ [a, b], ∀ entry ∈ ins.entries, SingleLeaf entry.1 entry.2
  distinct : ∀ entry ∈ a.entries, ∀ entry' ∈ b.entries, entry.2 ≠ entry'.2
  unblocked : ∀ entry ∈ a.entries, ∀ entry' ∈ b.entries,
    ¬ Blocks entry.2 entry'.2 ∧ ¬ Blocks entry'.2 entry.2

section Pair

variable {v : Validator} {a b : RegisterReq} {agentId agentId' : String} {now now' : Int}

theorem leaf_iff (h : a.valid v = true) {entry : String × String}
    (hentry : entry ∈ (a.instance agentId now).entries) :
    SingleLeaf entry.1 entry.2 ↔ a.Unseparated := by
  have hid := clientId_ne_empty h
  obtain ⟨hdir, hkey⟩ := entry_spec h hentry
  rw [hkey, singleLeaf_iff hdir.filled, slash_notMem_insId hid]
  rw [insId_toList hid]
  simp

/-- The path of a key that is a single leaf. -/
theorem keyPath_entry (h : a.valid v = true) {entry : String × String}
    (hentry : entry ∈ (a.instance agentId now).entries) (hplain : a.Unseparated) :
    keyPath entry.2 = KV.split entry.1 ++ [InstanceID a.ClientId a.ClientIp] := by
  have hslash := (slash_notMem_insId (clientId_ne_empty h)).mpr hplain
  rw [(entry_spec h hentry).2, KV.keyPath_eq_split, KV.split_slash, KV.split_of_notMem hslash]

/-- Instances of other ids or addresses are kept apart in the store if and only if there is no
separator in what they are named by, and they are not named alike. -/
theorem keptApart_iff (ha : a.valid v = true) (hb : b.valid v = true)
    (hne : (a.ClientId, a.ClientIp) ≠ (b.ClientId, b.ClientIp)) :
    KeptApart (a.instance agentId now) (b.instance agentId' now') ↔
      (a.Unseparated ∧ b.Unseparated) ∧ ¬ a.Shifted b ∧ ¬ b.Shifted a := by
  have hsame := insId_eq_iff (clientId_ne_empty ha) (clientId_ne_empty hb) hne
  constructor
  · intro h
    have hfirst : ∀ ins : Instance,
        (GenInstanceNormalDirKey, GenInstanceNormalKey ins.insId) ∈ ins.entries :=
      fun ins => List.mem_cons_self
    refine ⟨⟨?_, ?_⟩, not_or.mp fun hshifted => ?_⟩
    · have hentry := hfirst (a.instance agentId now)
      exact (leaf_iff ha hentry).mp (h.leaves _ List.mem_cons_self _ hentry)
    · have hentry := hfirst (b.instance agentId' now')
      exact (leaf_iff hb hentry).mp (h.leaves _ (List.mem_cons_of_mem _ List.mem_cons_self) _ hentry)
    · exact h.distinct _ (hfirst _) _ (hfirst _)
        (congrArg GenInstanceNormalKey (hsame.mpr hshifted))
  · rintro ⟨⟨hplain, hplain'⟩, hshifted⟩
    have hids : InstanceID a.ClientId a.ClientIp ≠ InstanceID b.ClientId b.ClientIp :=
      fun heq => not_or.mpr hshifted (hsame.mp heq)
    have hleaf : ∀ entry ∈ (a.instance agentId now).entries, SingleLeaf entry.1 entry.2 :=
      fun entry hentry => (leaf_iff ha hentry).mpr hplain
    have hleaf' : ∀ entry ∈ (b.instance agentId' now').entries, SingleLeaf entry.1 entry.2 :=
      fun entry hentry => (leaf_iff hb hentry).mpr hplain'
    have hpre : ∀ entry ∈ (a.instance agentId now).entries,
        ∀ entry' ∈ (b.instance agentId' now').entries,
          ¬ keyPath entry.2 <+: keyPath entry'.2 ∧ ¬ keyPath entry'.2 <+: keyPath entry.2 := by
      intro entry hentry entry' hentry'
      rw [keyPath_entry ha hentry hplain, keyPath_entry hb hentry' hplain']
      have hdir := (entry_spec ha hentry).1
      have hdir' := (entry_spec hb hentry').1
      exact ⟨hdir.not_below hdir' hids, hdir'.not_below hdir hids.symm⟩
    refine ⟨?_, fun entry hentry entry' hentry' heq => ?_,
      fun entry hentry entry' hentry' => ?_⟩
    · intro ins hins
      rcases List.mem_cons.mp hins with rfl | hins
      · exact hleaf
      · rw [List.mem_singleton.mp hins]
        exact hleaf'
    · exact (hpre entry hentry entry' hentry').1 (heq ▸ List.prefix_rfl)
    · obtain ⟨h, h'⟩ := hpre entry hentry entry' hentry'
      have hvalue := (hleaf entry hentry).2
      have hvalue' := (hleaf' entry' hentry').2
      exact ⟨not_blocks hvalue hvalue' h' h, not_blocks hvalue' hvalue h h'⟩

end Pair

/-- Ids with a colon and an at sign, and a key that both watch. -/
theorem keptApart_named :
    KeptApart
        (RegisterReq.instance "agent" 7 ⟨"edge:1", "10.0.0.1", [⟨"shop", "dev", ["theme"]⟩]⟩)
        (RegisterReq.instance "agent" 8 ⟨"edge@1", "10.0.0.1", [⟨"shop", "dev", ["theme"]⟩]⟩) ↔
      (RegisterReq.Unseparated ⟨"edge:1", "10.0.0.1", [⟨"shop", "dev", ["theme"]⟩]⟩ ∧
        RegisterReq.Unseparated ⟨"edge@1", "10.0.0.1", [⟨"shop", "dev", ["theme"]⟩]⟩) ∧
      ¬ RegisterReq.Shifted ⟨"edge:1", "10.0.0.1", [⟨"shop", "dev", ["theme"]⟩]⟩
        ⟨"edge@1", "10.0.0.1", [⟨"shop", "dev", ["theme"]⟩]⟩ ∧
      ¬ RegisterReq.Shifted ⟨"edge@1", "10.0.0.1", [⟨"shop", "dev", ["theme"]⟩]⟩
        ⟨"edge:1", "10.0.0.1", [⟨"shop", "dev", ["theme"]⟩]⟩ :=
  keptApart_iff (v := ⟨fun ip => ip == "10.0.0.1", fun _ => ""⟩) (by decide) (by decide)
    (by decide)

def outerClient : RegisterReq := ⟨"alpha", "10.0.0.1", []⟩

/-- The client id begins with the id of another instance, and goes on with a separator. -/
def nestedClient : RegisterReq := ⟨"alpha@10.0.0.1/beta", "10.0.0.1", []⟩

/-- Both requests are valid. One key of the two lies below the other, and while the one is stored
the other cannot be written. -/
theorem nested_refused :
    (outerClient.valid ⟨fun ip => ip == "10.0.0.1", fun _ => ""⟩ = true ∧
      nestedClient.valid ⟨fun ip => ip == "10.0.0.1", fun _ => ""⟩ = true ∧
      (outerClient.ClientId, outerClient.ClientIp) ≠ (nestedClient.ClientId, nestedClient.ClientIp)) ∧
    ¬ SingleLeaf GenInstanceNormalDirKey (GenInstanceNormalKey (nestedClient.instance "" 0).insId) ∧
    Blocks (GenInstanceNormalKey (outerClient.instance "" 0).insId)
      (GenInstanceNormalKey (nestedClient.instance "" 0).insId) := by
  refine ⟨by decide, fun hleaf => ?_, Tree.empty,
    KV.setCommand (fun _ => "") 0
      ⟨GenInstanceNormalKey (outerClient.instance "" 0).insId, false, 120, [], true, rfl⟩ none,
    KV.setCommand (fun _ => "") 0
      ⟨GenInstanceNormalKey (nestedClient.instance "" 0).insId, false, 120, [], true, rfl⟩ none,
    ⟨rfl, rfl⟩, ⟨rfl, rfl⟩, ?_, ?_⟩
  · have hnodes : ¬ (keySplitter (GenInstanceNormalKey (nestedClient.instance "" 0).insId)).1 =
        KV.split GenInstanceNormalDirKey := by decide +kernel
    exact hnodes hleaf.1
  · exact Option.isNone_iff_eq_none.mp (by decide +kernel)
  · exact Option.isSome_iff_ne_none.mp (by decide +kernel)

end Cassem.Coord
