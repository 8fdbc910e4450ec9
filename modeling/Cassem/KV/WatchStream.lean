import Cassem.KV.Origin

/-!
# What a watcher of a key learns

Every applied command is announced by one change under its own key. Somebody who follows the
changes under one key knows its value as long as no directory is removed from above it; the
keys below a directory that is removed are not announced.
-/

namespace Cassem.KV

open Lib Lib.HierMap

variable {χ : Type}

/-! ## Topics and values -/

def Notification.topic : Notification → String
  | .kv change => change.key
  | .directory _ specificTopic => specificTopic

/-- The value as a follower of the key has it after one more notification; a directory change
tells of another key. -/
def follow (cur : Option Bytes) : Notification → Option Bytes
  | .directory _ _ => cur
  | .kv change =>
      match change.op with
      | .Set => change.current.map Entity.val
      | .Unset => none

def followed (key : String) (init : Option Bytes) (ns : List Notification) : Option Bytes :=
  (ns.filter fun n => n.topic = key).foldl follow init

def storedVal (db : Store) (key : String) : Option Bytes :=
  match getKV db key false with
  | .ok e => some e.val
  | .error _ => none

/-! ## Keys and their paths -/

theorem splitChars_ne_nil (cs : List Char) : splitChars cs ≠ [] := by
  cases cs with
  | nil => exact List.cons_ne_nil _ _
  | cons c cs =>
    unfold splitChars
    split
    · exact List.cons_ne_nil _ _
    · split <;> exact List.cons_ne_nil _ _

theorem intercalate_splitChars (cs : List Char) : ['/'].intercalate (splitChars cs) = cs := by
  induction cs with
  | nil => rfl
  | cons c cs ih =>
    unfold splitChars
    have hne := splitChars_ne_nil cs
    split
    · next hc =>
      rw [List.intercalate_cons_of_ne_nil hne, ih, hc]
      rfl
    · cases hs : splitChars cs with
      | nil => exact absurd hs hne
      | cons w ws =>
        rw [hs] at ih
        dsimp only
        cases ws with
        | nil =>
          rw [List.intercalate_singleton] at ih ⊢
          rw [ih]
        | cons w' ws =>
          rw [List.intercalate_cons_of_ne_nil (List.cons_ne_nil _ _)] at ih ⊢
          rw [List.cons_append, List.cons_append, ih]

theorem split_injective : Function.Injective split := by
  intro s s' h
  have hchars : splitChars s.toList = splitChars s'.toList :=
    List.map_injective_iff.mpr (fun _ _ h => String.ofList_injective h) h
  refine String.toList_injective ?_
  rw [← intercalate_splitChars s.toList, hchars, intercalate_splitChars]

theorem length_splitChars (cs : List Char) : (splitChars cs).length = cs.count '/' + 1 := by
  induction cs with
  | nil => rfl
  | cons c cs ih =>
    rw [splitChars]
    by_cases hc : c = '/'
    · rw [if_pos hc, List.length_cons, ih, hc, List.count_cons_self]
    · rw [if_neg hc, List.count_cons_of_ne hc]
      cases hcs : splitChars cs with
      | nil => exact absurd hcs (splitChars_ne_nil cs)
      | cons p ps =>
        rw [hcs, List.length_cons] at ih
        rw [List.length_cons, ih]

theorem splitChars_append {l : List Char} (hl : '/' ∉ l) (rest : List Char) :
    splitChars (l ++ '/' :: rest) = l :: splitChars rest := by
  induction l with
  | nil => simp [splitChars]
  | cons c l ih =>
    have hc : c ≠ '/' := fun h => hl (h ▸ List.mem_cons_self)
    rw [List.cons_append, splitChars, if_neg hc, ih fun h => hl (List.mem_cons_of_mem _ h)]

theorem splitChars_intercalate {ls : List (List Char)} (hne : ls ≠ []) (h : ∀ l ∈ ls, '/' ∉ l) :
    splitChars (['/'].intercalate ls) = ls := by
  induction ls with
  | nil => exact absurd rfl hne
  | cons l ls ih =>
    have hl := h l List.mem_cons_self
    cases ls with
    | nil =>
      rw [List.intercalate_singleton]
      clear ih h hne
      induction l with
      | nil => rfl
      | cons c l ih =>
        have hc : c ≠ '/' := fun h => hl (h ▸ List.mem_cons_self)
        rw [splitChars, if_neg hc, ih fun h => hl (List.mem_cons_of_mem _ h)]
    | cons l' ls =>
      have hrest := ih (List.cons_ne_nil _ _) fun l hmem => h l (List.mem_cons_of_mem _ hmem)
      rw [List.intercalate_cons_of_ne_nil (List.cons_ne_nil _ _), List.append_assoc,
        List.singleton_append, splitChars_append hl, hrest]

/-- Segments without a slash are found again in the key that they are joined to. -/
theorem split_intercalate {segs : List String} (hne : segs ≠ []) (h : ∀ s ∈ segs, '/' ∉ s.toList) :
    split ("/".intercalate segs) = segs := by
  have hchars : ("/".intercalate segs).toList = ['/'].intercalate (segs.map String.toList) := by
    rw [String.toList_intercalate]
    rfl
  have hsegs : ∀ l ∈ segs.map String.toList, '/' ∉ l := by
    intro l hl
    obtain ⟨s, hs, rfl⟩ := List.mem_map.mp hl
    exact h s hs
  rw [split, hchars, splitChars_intercalate (fun hnil => hne (List.map_eq_nil_iff.mp hnil)) hsegs]
  simp

theorem splitChars_slash (l rest : List Char) :
    splitChars (l ++ '/' :: rest) = splitChars l ++ splitChars rest := by
  induction l with
  | nil => simp [splitChars]
  | cons c l ih =>
    rw [List.cons_append, splitChars, splitChars, ih]
    split
    · rfl
    · cases hl : splitChars l with
      | nil => exact absurd hl (splitChars_ne_nil l)
      | cons w ws => rfl

theorem split_slash (a b : String) : split (a ++ "/" ++ b) = split a ++ split b := by
  have hlist : (a ++ "/" ++ b).toList = a.toList ++ '/' :: b.toList := by
    simp [String.toList_append]
  rw [split, hlist, splitChars_slash, List.map_append]
  rfl

theorem intercalate_split (key : String) : "/".intercalate (split key) = key := by
  refine String.toList_injective ?_
  have hmap : (split key).map String.toList = splitChars key.toList := by
    simp [split, Function.comp_def]
  rw [String.toList_intercalate, hmap]
  exact intercalate_splitChars key.toList

theorem split_ne_nil (key : String) : split key ≠ [] := fun h =>
  splitChars_ne_nil _ (List.map_eq_nil_iff.mp h)

theorem slash_notMem_splitChars {cs l : List Char} (h : l ∈ splitChars cs) : '/' ∉ l := by
  induction cs generalizing l with
  | nil =>
    rw [List.mem_singleton.mp h]
    exact List.not_mem_nil
  | cons c cs ih =>
    unfold splitChars at h
    split at h
    · rcases List.mem_cons.mp h with rfl | h
      · exact List.not_mem_nil
      · exact ih h
    · next hc =>
      split at h
      · next hnil => exact absurd hnil (splitChars_ne_nil cs)
      · next w ws hcs =>
        rw [hcs] at ih
        rcases List.mem_cons.mp h with rfl | h
        · rintro (_ | ⟨_, hmem⟩)
          · exact hc rfl
          · exact ih List.mem_cons_self hmem
        · exact ih (List.mem_cons_of_mem w h)

/-- A segment of a key has no slash. -/
theorem slash_notMem_split {key s : String} (h : s ∈ split key) : '/' ∉ s.toList := by
  obtain ⟨l, hl, rfl⟩ := List.mem_map.mp h
  rw [String.toList_ofList]
  exact slash_notMem_splitChars hl

theorem split_of_notMem {s : String} (h : '/' ∉ s.toList) : split s = [s] := by
  have hsplit := split_intercalate (List.cons_ne_nil s []) fun t ht => List.mem_singleton.mp ht ▸ h
  rwa [String.intercalate_singleton] at hsplit

theorem keyPath_eq_split (key : String) : keyPath key = split key := by
  have hne : split key ≠ [] := fun h => splitChars_ne_nil _ (List.map_eq_nil_iff.mp h)
  rw [keyPath, keySplitter]
  dsimp only
  rw [List.getLastD_eq_getLast?, List.getLast?_eq_some_getLast hne, Option.getD_some,
    List.dropLast_append_getLast hne]

theorem keyPath_injective : Function.Injective keyPath := by
  intro key key' h
  rw [keyPath_eq_split, keyPath_eq_split] at h
  exact split_injective h

theorem valueKey_of_getKV {db : Store} {key : String} {e : Entity}
    (h : getKV db key false = .ok e) : ValueKey key := by
  have hfree : ¬ ReadBlocked db key := by
    intro hb
    obtain ⟨err, herr, -⟩ := getKV_of_blocked hb false
    cases herr.symm.trans h
  have hnodes : (keySplitter key).1 ≠ [] := fun hn => hfree (.inl hn)
  have hleaf : isEmptyLeaf (keySplitter key).2 = false :=
    Bool.eq_false_iff.mpr fun hl => hfree (.inr (.inl hl))
  refine ⟨hnodes, hleaf, ?_⟩
  cases hempty : firstEmpty (keySplitter key).1 with
  | none => rfl
  | some i =>
    have hdir : db.look ((keySplitter key).1.take (i - 1)) ≠ some .dir :=
      fun hd => hfree (.inr (.inr ⟨i, hempty, hd⟩))
    rw [getKV, locateBucket_read hnodes hleaf, hempty] at h
    simp only [if_neg hdir] at h
    cases h

theorem storedVal_eq_some {db : Store} {key : String} {x : Bytes} : storedVal db key = some x ↔
    ValueKey key ∧ ∃ e, db.look (keyPath key) = some (.val e) ∧ e.val = x := by
  unfold storedVal
  constructor
  · intro h
    split at h
    · next e he =>
      cases h
      exact ⟨valueKey_of_getKV he, e, look_of_getKV he, rfl⟩
    · cases h
  · rintro ⟨hkey, e, hlook, rfl⟩
    rw [getKV_of_look hkey.nodes hkey.leaf hkey.filled hlook]

/-- No value stands at the key. -/
theorem storedVal_eq_none {db : Store} {key : String}
    (h : ∀ e, db.look (keyPath key) ≠ some (.val e)) : storedVal db key = none := by
  by_contra hne
  obtain ⟨x, hx⟩ := Option.ne_none_iff_exists'.mp hne
  obtain ⟨-, e, hlook, -⟩ := storedVal_eq_some.mp hx
  exact h e hlook

theorem storedVal_congr {db db' : Store} {key : String}
    (h : ∀ e, db.look (keyPath key) = some (.val e) ↔ db'.look (keyPath key) = some (.val e)) :
    storedVal db key = storedVal db' key := by
  refine Option.ext fun x => ?_
  rw [storedVal_eq_some, storedVal_eq_some]
  simp only [h]

/-! ## What one command announces -/

theorem resolvePending_changeC (r : RaftNode χ) (id : Nat) (err : Option GoError) :
    (r.resolvePending id err).changeC = r.changeC := by
  unfold RaftNode.resolvePending
  split
  · rfl
  · split <;> rfl

/-- The value that a command leaves current. -/
def currentOf (cmd : MutateCommand) : Option Entity :=
  match cmd.op with
  | .SET => cmd.value
  | _ => none

def announced (db : Store) (cmd : MutateCommand) : List Notification :=
  match buildChange cmd (getKV db cmd.key cmd.isDir).toOption (currentOf cmd) with
  | none => []
  | some change => .kv change :: parentDirectoryChanges change

theorem mutateStore_current {db db' : Store} {cmd : MutateCommand} {cur : Option Entity}
    (h : mutateStore db cmd = .ok (db', cur)) : cur = currentOf cmd := by
  unfold currentOf
  cases hop : cmd.op with
  | SET => exact (mutateStore_set hop h).2
  | UNSET => exact (mutateStore_unset hop h).2
  | OP_UNKNOWN =>
    unfold mutateStore at h
    rw [hop] at h
    cases h

/-- An accepted command sends what it announces and nothing else. -/
theorem changeC_of_accepts {r : RaftNode χ} {cmd : MutateCommand} (h : Accepts r.kvstore cmd) :
    (applyMutateLogEntry r cmd).1.changeC = r.changeC ++ announced r.kvstore cmd := by
  rw [applyMutateLogEntry_eq_applyMutation h, announced]
  obtain ⟨o, ho, hfit⟩ := h
  obtain ⟨db, cur, hdb, -⟩ := (mutateStore_spec r.kvstore cmd).1 o ho hfit
  rw [applyMutation, hdb]
  dsimp only
  rw [mutateStore_current hdb]
  cases buildChange cmd (getKV r.kvstore cmd.key cmd.isDir).toOption (currentOf cmd) with
  | none =>
    rw [resolvePending_changeC]
    exact (List.append_nil _).symm
  | some change =>
    show (RaftNode.resolvePending _ _ _).changeC ++ _ = _
    rw [resolvePending_changeC]

theorem followed_append (key : String) (init : Option Bytes) (ns more : List Notification) :
    followed key init (ns ++ more) = followed key (followed key init ns) more := by
  rw [followed, List.filter_append, List.foldl_append]
  rfl

/-- Only the change itself counts, under its own key. -/
theorem followed_announced (key : String) (cur : Option Bytes) (db : Store) (cmd : MutateCommand) :
    followed key cur (announced db cmd) =
      match buildChange cmd (getKV db cmd.key cmd.isDir).toOption (currentOf cmd) with
      | none => cur
      | some change => if change.key = key then follow cur (.kv change) else cur := by
  have hdirs : ∀ change cur, followed key cur (parentDirectoryChanges change) = cur := by
    intro change cur
    unfold parentDirectoryChanges followed
    dsimp only
    split
    · rfl
    · rw [List.filter_singleton]
      cases decide (_ = key) <;> rfl
  unfold announced
  split
  · rfl
  · next change _ =>
    have hcons : followed key cur (.kv change :: parentDirectoryChanges change) =
        followed key (followed key cur [.kv change]) (parentDirectoryChanges change) :=
      followed_append key cur [.kv change] _
    rw [hcons, hdirs]
    unfold followed
    rw [List.filter_singleton]
    by_cases hkey : change.key = key
    · rw [if_pos hkey]
      simp [Notification.topic, hkey]
    · rw [if_neg hkey]
      simp [Notification.topic, hkey]

/-! ## One command -/

/-- A directory is removed from above the value of the key, or made in its place. -/
def OutOfSight (key : String) (db : Store) (cmd : MutateCommand) : Prop :=
  cmd.isDir = true ∧ (cmd.op = .SET ∧ cmd.key = key ∨
    cmd.op = .UNSET ∧ keyPath cmd.key <+: keyPath key ∧ storedVal db key ≠ none)

instance (key : String) (db : Store) (cmd : MutateCommand) : Decidable (OutOfSight key db cmd) := by
  unfold OutOfSight
  infer_instance

/-- The values of the store, and those of the command, carry their own fingerprints. -/
def Fingerprinted (md5 : Bytes → String) (db : Store) : Prop :=
  ∀ p e, db.look p = some (.val e) → e.fingerprint = md5 e.val

def MutateCommand.Fingerprinted (md5 : Bytes → String) (cmd : MutateCommand) : Prop :=
  cmd.op = .SET → ∃ e, cmd.value = some e ∧ e.fingerprint = md5 e.val

section OneCommand

variable {md5 : Bytes → String} {key : String} {db db' : Store} {cmd : MutateCommand}
  {o : Op String Entity}

theorem fingerprinted_effect (hdb : Fingerprinted md5 db) (hcmd : cmd.Fingerprinted md5)
    (ho : commandOp cmd = some o) (hlook : db'.look = o.effect db.look) :
    Fingerprinted md5 db' := by
  intro p e he
  rw [hlook] at he
  by_cases ht : o.touches p
  · rw [Op.effect_of_touches ht] at he
    have hput := put_of_leaves he
    rw [hput] at ho
    obtain ⟨hset, -, hvalue⟩ := commandOp_put ho
    obtain ⟨v, hv, hfp⟩ := hcmd hset
    rw [hv, Option.getD_some] at hvalue
    rw [hvalue]
    exact hfp
  · rw [Op.effect_of_not_touches ht] at he
    exact hdb p e he

/-- A command on another key, unless the change is out of sight, leaves the value alone. -/
theorem storedVal_of_other (ho : commandOp cmd = some o) (hfit : o.Fits db.look)
    (hlook : db'.look = o.effect db.look) (hkey : cmd.key ≠ key)
    (hsight : ¬ OutOfSight key db cmd) : storedVal db' key = storedVal db key := by
  have hpath : keyPath key ≠ keyPath cmd.key := fun h => hkey (keyPath_injective h).symm
  by_cases ht : o.touches (keyPath key)
  · have hcell : db'.look (keyPath key) = o.leaves (keyPath key) := by
      rw [hlook, Op.effect_of_touches ht]
    obtain ⟨-, -, rfl⟩ | ⟨-, -, -, rfl⟩ | ⟨hop, hdir, rfl⟩ | ⟨-, -, rfl⟩ | ⟨-, -, q, rfl⟩ :=
      commandOp_cases ho
    · have hbefore : ∀ e, db.look (keyPath key) ≠ some (.val e) :=
        fun e => Op.mkdir_fits_iff.mp hfit (keyPath key) e ht
      rw [storedVal_eq_none hbefore, storedVal_eq_none]
      intro e he
      cases hcell.symm.trans he
    · have hbefore : ∀ e, db.look (keyPath key) ≠ some (.val e) := by
        intro e he
        rcases Op.of_touches_value hfit he ht with ⟨w, hput⟩ | hdel | ⟨p, hrmdir⟩
        · exact hpath (Op.put.inj hput).1.symm
        · cases hdel
        · cases hrmdir
      rw [storedVal_eq_none hbefore, storedVal_eq_none]
      intro e he
      have hdir : Op.leaves (.put (keyPath cmd.key) (cmd.value.getD default)) (keyPath key) =
          some .dir := if_neg hpath
      cases (hcell.trans hdir).symm.trans he
    · have hbefore : storedVal db key = none := by
        by_contra hne
        exact hsight ⟨hdir, .inr ⟨hop, ht, hne⟩⟩
      rw [hbefore, storedVal_eq_none]
      intro e he
      cases hcell.symm.trans he
    · exact absurd ht hpath
    · exact ht.elim
  · refine storedVal_congr fun e => ?_
    rw [hlook, Op.effect_of_not_touches ht]

theorem buildChange_key {last cur : Option Entity} {change : Change}
    (h : buildChange cmd last cur = some change) : change.key = cmd.key := by
  unfold buildChange at h
  obtain ⟨-, heq⟩ := Option.ite_none_left_eq_some.mp h
  rw [← Option.some.inj heq]

theorem buildChange_unset (hop : cmd.op = .UNSET) (last : Option Entity) :
    buildChange cmd last (currentOf cmd) = some ⟨.Unset, cmd.key, last, none⟩ := by
  have hcur : currentOf cmd = none := by rw [currentOf, hop]
  unfold buildChange
  rw [hcur, hop]
  cases last <;> rfl

/-- What a SET leaves is announced, or its content is that of the last value. -/
theorem buildChange_set {e : Entity} (hop : cmd.op = .SET) (hvalue : cmd.value = some e)
    (last : Option Entity) :
    buildChange cmd last (currentOf cmd) = some ⟨.Set, cmd.key, last, some e⟩ ∨
      buildChange cmd last (currentOf cmd) = none ∧
        ∃ l, last = some l ∧ l.fingerprint = e.fingerprint := by
  have hcur : currentOf cmd = some e := by rw [currentOf, hop]; exact hvalue
  unfold buildChange
  rw [hcur, hop]
  cases last with
  | none => exact .inl rfl
  | some l =>
    by_cases hsame : l.fingerprint = e.fingerprint
    · exact .inr ⟨by simp [hsame], l, rfl, hsame⟩
    · exact .inl (by simp [hsame])

/-- A change under the key itself tells its value. -/
theorem follow_own (hmd5 : Function.Injective md5) (hdb : Fingerprinted md5 db)
    (hcmd : cmd.Fingerprinted md5) (ho : commandOp cmd = some o)
    (hlook : db'.look = o.effect db.look) (hsight : ¬ OutOfSight cmd.key db cmd) :
    (match buildChange cmd (getKV db cmd.key cmd.isDir).toOption (currentOf cmd) with
      | none => storedVal db cmd.key
      | some change => follow (storedVal db cmd.key) (.kv change)) = storedVal db' cmd.key := by
  have hgone : cmd.op = .UNSET → storedVal db' cmd.key = none →
      (match buildChange cmd (getKV db cmd.key cmd.isDir).toOption (currentOf cmd) with
      | none => storedVal db cmd.key
      | some change => follow (storedVal db cmd.key) (.kv change)) = storedVal db' cmd.key := by
    intro hop hnone
    rw [buildChange_unset hop, hnone]
    rfl
  have htouched : o.touches (keyPath cmd.key) → o.leaves (keyPath cmd.key) = none →
      storedVal db' cmd.key = none := by
    intro ht hleaves
    refine storedVal_eq_none fun e he => ?_
    rw [hlook, Op.effect_of_touches ht, hleaves] at he
    cases he
  obtain ⟨hop, hdir, -⟩ | ⟨hop, hdir, hkey, rfl⟩ | ⟨hop, -, rfl⟩ | ⟨hop, -, rfl⟩ |
    ⟨hop, hempty, q, rfl⟩ := commandOp_cases ho
  · exact absurd ⟨hdir, .inl ⟨hop, rfl⟩⟩ hsight
  · obtain ⟨e, hvalue, hfp⟩ := hcmd hop
    have hafter : storedVal db' cmd.key = some e.val := by
      refine storedVal_eq_some.mpr ⟨hkey, e, ?_, rfl⟩
      rw [hlook, Op.effect_put, if_pos rfl, hvalue, Option.getD_some]
    rw [hafter, hdir]
    obtain hset | ⟨hnone, l, hlast, hsame⟩ :=
      buildChange_set hop hvalue (getKV db cmd.key false).toOption
    · rw [hset]
      rfl
    · rw [hnone]
      have hget : getKV db cmd.key false = .ok l := by
        cases hg : getKV db cmd.key false with
        | error err => rw [hg] at hlast; cases hlast
        | ok l' => rw [hg] at hlast; cases hlast; rfl
      have hval : l.val = e.val := by
        refine hmd5 ?_
        rw [← hdb _ l (look_of_getKV hget), hsame, hfp]
      show storedVal db cmd.key = _
      rw [storedVal, hget, ← hval]
  · exact hgone hop (htouched List.prefix_rfl rfl)
  · exact hgone hop (htouched rfl rfl)
  · refine hgone hop ?_
    by_contra hne
    obtain ⟨x, hx⟩ := Option.ne_none_iff_exists'.mp hne
    exact hempty (storedVal_eq_some.mp hx).1.filled

end OneCommand

/-! ## Runs -/

/-- A command that is applied; one that is rejected ends the loop. -/
def applied? (r : RaftNode χ) (cmd : MutateCommand) : Option (RaftNode χ) :=
  match applyMutateLogEntry r cmd with
  | (r, none) => some r
  | (_, some _) => none

/-- Who follows the key from its initial value has the value that is stored. -/
def Follows (key : String) (init : Option Bytes) (r : RaftNode χ) : Prop :=
  followed key init r.changeC = storedVal r.kvstore key

theorem accepts_of_applied {r r' : RaftNode χ} {cmd : MutateCommand} (h : applied? r cmd = some r') :
    Accepts r.kvstore cmd ∧ r' = (applyMutateLogEntry r cmd).1 := by
  unfold applied? at h
  split at h
  · next r'' heq =>
    cases h
    exact ⟨(applyMutateLogEntry_none_iff r cmd).mp (by rw [heq]), by rw [heq]⟩
  · cases h

theorem follows_step {md5 : Bytes → String} (hmd5 : Function.Injective md5) {key : String}
    {init : Option Bytes} {r r' : RaftNode χ} {cmd : MutateCommand}
    (hfp : Fingerprinted md5 r.kvstore) (hf : Follows key init r) (hcmd : cmd.Fingerprinted md5)
    (hsight : ¬ OutOfSight key r.kvstore cmd) (h : applied? r cmd = some r') :
    Fingerprinted md5 r'.kvstore ∧ Follows key init r' := by
  obtain ⟨hacc, rfl⟩ := accepts_of_applied h
  have hchanges := changeC_of_accepts hacc
  obtain ⟨o, ho, hfit⟩ := hacc
  have hlook := (applyMutateLogEntry_of_accepts ho hfit).2
  refine ⟨fingerprinted_effect hfp hcmd ho hlook, ?_⟩
  rw [Follows, hchanges, followed_append, show followed key init r.changeC = _ from hf,
    followed_announced]
  by_cases hkey : cmd.key = key
  · subst hkey
    rw [← follow_own hmd5 hfp hcmd ho hlook hsight]
    split
    · rfl
    · next change hchange =>
      rw [if_pos (buildChange_key hchange)]
  · rw [storedVal_of_other ho hfit hlook hkey hsight]
    split
    · rfl
    · next change hchange =>
      rw [if_neg (buildChange_key hchange ▸ hkey)]

/-- In a run in which nothing happens out of sight of the key, its follower has the value that is
stored, in every state. -/
theorem follows_of_inSight (md5 : Bytes → String) (hmd5 : Function.Injective md5) (key : String)
    (r : RaftNode χ) (hstart : r.changeC = []) (hstore : Fingerprinted md5 r.kvstore)
    (cmds : List MutateCommand) (hcmds : ∀ cmd ∈ cmds, cmd.Fingerprinted md5)
    (h : Transition.EachStep applied? (fun r cmd _ => ¬ OutOfSight key r.kvstore cmd) r cmds) :
    Transition.EachState applied? (Follows key (storedVal r.kvstore key)) r cmds := by
  have hinit : Follows key (storedVal r.kvstore key) r := by
    rw [Follows, hstart]
    rfl
  generalize storedVal r.kvstore key = init at hinit
  clear hstart
  induction cmds generalizing r with
  | nil => exact hinit
  | cons cmd cmds ih =>
    refine ⟨hinit, fun r' hr => ?_⟩
    obtain ⟨hsight, hrest⟩ := h r' hr
    obtain ⟨hfp, hf⟩ := follows_step hmd5 hstore hinit (hcmds cmd List.mem_cons_self) hsight hr
    exact ih r' hfp (fun cmd hcmd => hcmds cmd (List.mem_cons_of_mem _ hcmd)) hrest hf

/-- The content itself in place of its digest. -/
def plainDigest (val : Bytes) : String := String.ofList (val.map fun b => Char.ofNat b.toNat)

def setElement (key : String) (val : Bytes) : MutateCommand :=
  { requestId := 0, op := .SET, key := key, isDir := false
    value := some { fingerprint := plainDigest val, key := key, val := val } }

theorem plainDigest_injective : Function.Injective plainDigest := by
  have hbyte : Function.Injective fun b : UInt8 => Char.ofNat b.toNat := by
    intro b c h
    have hvalid (b : UInt8) : (Char.ofNat b.toNat).toNat = b.toNat := by
      have h : b.toNat.isValidChar := .inl (b.toNat_lt.trans (by decide))
      rw [Char.ofNat, dif_pos h]
      rfl
    exact UInt8.toNat_inj.mp ((hvalid b).symm.trans ((congrArg Char.toNat h).trans (hvalid c)))
  exact fun x y h => List.map_injective_iff.mpr hbyte (String.ofList_injective h)

theorem setElement_fingerprinted (key : String) (val : Bytes) :
    (setElement key val).Fingerprinted plainDigest := fun _ => ⟨_, rfl, rfl⟩

theorem unsetCommand_fingerprinted (md5 : Bytes → String) (key : String) (isDir : Bool) :
    (unsetCommand key isDir).Fingerprinted md5 := fun h => MutateOp.noConfusion h

theorem fingerprinted_empty (md5 : Bytes → String) : Fingerprinted md5 default := by
  intro p e he
  have hlook : (default : Store).look p = if p = [] then some .dir else none := Tree.look_empty p
  rw [hlook] at he
  split at he <;> cases he

/-- The value is set twice, its sibling is removed with a directory, and then it is removed. -/
def inSight : List MutateCommand :=
  [setElement "a/b/k" [1], setElement "a/b/k" [2], setElement "a/c/k" [3], unsetCommand "a/c" true,
    unsetCommand "a/b/k" false]

theorem inSight_follows :
    Transition.EachState applied? (Follows "a/b/k" (storedVal default "a/b/k"))
      ({} : RaftNode Unit) inSight := by
  refine follows_of_inSight plainDigest plainDigest_injective "a/b/k" {} rfl
    (fingerprinted_empty plainDigest) inSight (fun cmd hcmd => ?_) (by decide +kernel)
  simp only [inSight, List.mem_cons, List.not_mem_nil, or_false] at hcmd
  rcases hcmd with rfl | rfl | rfl | rfl | rfl
  · exact setElement_fingerprinted _ _
  · exact setElement_fingerprinted _ _
  · exact setElement_fingerprinted _ _
  · exact unsetCommand_fingerprinted _ _ _
  · exact unsetCommand_fingerprinted _ _ _

def directoryAbove : List MutateCommand := [setElement "a/b/k" [1], unsetCommand "a/b" true]

theorem directoryAbove_not_followed :
    Function.Injective plainDigest ∧ Fingerprinted plainDigest default ∧
      (∀ cmd ∈ directoryAbove, cmd.Fingerprinted plainDigest) ∧
      ¬ Transition.EachState applied? (Follows "a/b/k" (storedVal default "a/b/k"))
        ({} : RaftNode Unit) directoryAbove := by
  refine ⟨plainDigest_injective, fingerprinted_empty plainDigest, fun cmd hcmd => ?_, fun h => ?_⟩
  · simp only [directoryAbove, List.mem_cons, List.not_mem_nil, or_false] at hcmd
    rcases hcmd with rfl | rfl
    · exact setElement_fingerprinted _ _
    · exact unsetCommand_fingerprinted _ _ _
  · have hend : (Transition.run applied? ({} : RaftNode Unit) directoryAbove).map (fun r =>
        (followed "a/b/k" (storedVal default "a/b/k") r.changeC, storedVal r.kvstore "a/b/k")) =
          some (some [1], none) := by decide +kernel
    obtain ⟨r, hrun, hr⟩ := Option.map_eq_some_iff.mp hend
    obtain ⟨hfollowed, hstored⟩ := Prod.mk.inj hr
    have hsame : Follows "a/b/k" (storedVal default "a/b/k") r := h.of_run hrun
    rw [Follows, hfollowed, hstored] at hsame
    exact Option.some_ne_none _ hsame

end Cassem.KV
