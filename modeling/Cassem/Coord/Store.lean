import Cassem.Adm.Bind
import Cassem.Coord.MetadataInvariant

/-!
# Stores of many elements

The records of different elements lie under different keys, so a call on one of them leaves
the others alone. What is reachable by complete calls is, for every element, what the calls
on it make of nothing.
-/

namespace Cassem.Coord

open Lib Cassem.Concept
open KV (Bytes int32)

/-- The names that the requests for writing accept. -/
structure ElementName.Valid (n : ElementName) : Prop where
  app : Adm.isIdentifier n.app = true
  env : Adm.isIdentifier n.env = true
  key : Adm.isIdentifier n.key = true

instance (n : ElementName) : Decidable n.Valid :=
  decidable_of_iff (Adm.isIdentifier n.app = true ∧ Adm.isIdentifier n.env = true ∧
      Adm.isIdentifier n.key = true)
    ⟨fun h => ⟨h.1, h.2.1, h.2.2⟩, fun h => ⟨h.app, h.env, h.key⟩⟩

/-! ## Keys -/

/-- Other characters than those of the pattern. -/
theorem notMem_of_isIdentifier {s : String} (h : Adm.isIdentifier s = true) {c : Char}
    (hc : (c.isAlphanum || c = '_' || c = '-') = false) : c ∉ s.toList := by
  unfold Adm.isIdentifier at h
  split at h
  · next heq => rw [heq]; exact List.not_mem_nil
  · next first cs heq =>
    rw [heq]
    intro hmem
    obtain ⟨hfirst, hcs⟩ := Bool.and_eq_true_iff.mp h
    rcases List.mem_cons.mp hmem with rfl | hmem
    · rw [hfirst] at hc
      cases hc
    · exact absurd (List.all_eq_true.mp hcs _ hmem) (by rw [hc]; decide)

theorem slash_notMem {s : String} (h : Adm.isIdentifier s = true) : '/' ∉ s.toList :=
  notMem_of_isIdentifier h (by decide)

theorem elementKey_toList (n : ElementName) (rest : String) :
    (n.elementKey ++ "/" ++ rest).toList = "cassem/elements/".toList ++ (n.app.toList ++ '/' ::
      (n.env.toList ++ '/' :: (n.key.toList ++ '/' :: rest.toList))) := by
  unfold ElementName.elementKey joint
  simp [String.toList_append]

/-- What lies below different elements differs. -/
theorem elementKey_inj {n n' : ElementName} (hn : n.Valid) (hn' : n'.Valid) {rest rest' : String}
    (h : n.elementKey ++ "/" ++ rest = n'.elementKey ++ "/" ++ rest') : n = n' := by
  have hlist := congrArg String.toList h
  rw [elementKey_toList, elementKey_toList] at hlist
  obtain ⟨happ, hlist⟩ := cons_inj_of_notMem (slash_notMem hn.app) (slash_notMem hn'.app)
    (List.append_cancel_left hlist)
  obtain ⟨henv, hlist⟩ := cons_inj_of_notMem (slash_notMem hn.env) (slash_notMem hn'.env) hlist
  obtain ⟨hkey, -⟩ := cons_inj_of_notMem (slash_notMem hn.key) (slash_notMem hn'.key) hlist
  obtain ⟨app, env, key, hne⟩ := n
  obtain ⟨app', env', key', hne'⟩ := n'
  cases String.toList_injective happ
  cases String.toList_injective henv
  cases String.toList_injective hkey
  rfl

theorem metadataKey_eq (k : String) : WithMetadataSuffix k = k ++ "/" ++ "metadata" := by
  rw [WithMetadataSuffix, String.append_assoc]
  rfl

theorem versionKey_eq (k : String) (v : Int) : versionKey k v = k ++ "/" ++ ("v" ++ toString v) := by
  rw [versionKey, joint_pair, String.append_assoc]

/-- The metadata and the versions, not the operations. -/
def Target.OfContent : Target → Prop
  | .operation _ => False
  | _ => True

theorem content_key_ne {n n' : ElementName} (hn : n.Valid) (hn' : n'.Valid) (hne : n ≠ n')
    {t t' : Target} (ht : t.OfContent) : t.key n ≠ t'.key n' := by
  have hop : ∀ (s : Int) (rest : String),
      GenElementOperationKey n'.app n'.env n'.key s ≠ n.elementKey ++ rest := fun s rest =>
    operationKey_ne_element n'.app n'.env n'.key s n.app n.env n.key rest
  intro h
  cases t with
  | metadata =>
    cases t' with
    | metadata => exact hne (elementKey_inj hn hn' ((metadataKey_eq _).symm.trans
        (h.trans (metadataKey_eq _))))
    | version v => exact hne (elementKey_inj hn hn' ((metadataKey_eq _).symm.trans
        (h.trans (versionKey_eq _ v))))
    | operation s => exact hop s _ h.symm
  | version u =>
    cases t' with
    | metadata => exact hne (elementKey_inj hn hn' ((versionKey_eq _ u).symm.trans
        (h.trans (metadataKey_eq _))))
    | version v => exact hne (elementKey_inj hn hn' ((versionKey_eq _ u).symm.trans
        (h.trans (versionKey_eq _ v))))
    | operation s => exact hop s _ (h.symm.trans (joint_pair _ _))
  | operation s => exact ht

/-! ## A call leaves other elements alone -/

variable {md5 : Bytes → String}

theorem run_writeSeq_frame {n : ElementName} {key : String} (hkey : ∀ t : Target, t.key n ≠ key)
    (res : Option Element) (ws : List Write) (kv : KVState) :
    (Program.run serveKV kv (writeSeq n res ws)).1 key = kv key := by
  induction ws generalizing kv with
  | nil => rfl
  | cons w ws ih =>
    rw [writeSeq, Program.run, serveKV_set]
    split
    · exact (ih _).trans (Function.update_of_ne (hkey w.target).symm ..)
    · rfl

theorem run_program_frame {n : ElementName} {key : String} (hkey : ∀ t : Target, t.key n ≠ key)
    (c : Call) (kv : KVState) :
    (Program.run serveKV kv (c.program md5 n.app n.env n.key)).1 key = kv key := by
  rw [← Program.run_afterReads serveKV_read, afterReads_program]
  match c.plan md5 n (view n kv).content with
  | .error fault => rfl
  | .ok (ws, res) => exact run_writeSeq_frame hkey res ws kv

theorem stored_of_ne {n n' : ElementName} (hn : n.Valid) (hn' : n'.Valid) (hne : n ≠ n') (c : Call)
    (kv : KVState) :
    stored n (Program.run serveKV kv (c.program md5 n'.app n'.env n'.key)).1 = stored n kv := by
  refine Content.ext ?_ (funext fun v => ?_)
  · exact run_program_frame (fun t => (content_key_ne hn hn' hne (t := .metadata) trivial).symm) c kv
  · exact run_program_frame (fun t => (content_key_ne hn hn' hne (t := .version v) trivial).symm) c kv

/-! ## Reachable stores -/

/-- The stores that complete calls leave, each on an element with a valid name. -/
inductive Reachable (md5 : Bytes → String) : KVState → Prop
  | empty : Reachable md5 fun _ => none
  | call {kv : KVState} (h : Reachable md5 kv) {n : ElementName} (hn : n.Valid) (c : Call) :
      Reachable md5 (Program.run serveKV kv (c.program md5 n.app n.env n.key)).1

/-- The metadata carries the name of its element, and what it calls unpublished is. -/
structure Labelled (n : ElementName) (k : Content) : Prop where
  named : ∀ md, k.metadata = some (.metadata md) → md.App = n.app ∧ md.Env = n.env ∧ md.Key = n.key
  draft : ∀ md ele, k.metadata = some (.metadata md) → md.UnpublishedVersion ≠ 0 →
    k.versions md.UnpublishedVersion = some (.element ele) → ele.Published = false

theorem labelled_effect {n : ElementName} {k k' : Content} {op : Op} (hwf : WellFormed md5 k)
    (h : Labelled n k) (heff : Effect md5 n k op k') : Labelled n k' := by
  obtain op | ⟨hmd, hver⟩ | ⟨hmd, hver⟩ | ⟨hmd, hun, hpos, hver⟩ | ⟨hmd, hversion, hele⟩ |
    ⟨hmd, hversion, hele, hlt⟩ := heff
  · exact h
  · exact absurd (hwf.versions_none hmd 1) hver
  · refine ⟨fun md hmd' => ?_, fun md ele hmd' hne hele => ?_⟩
    · cases hmd'
      exact ⟨rfl, rfl, rfl⟩
    · cases hmd'
      have hself := (Function.update_self (1 : Int) _ k.versions).symm.trans hele
      cases hself
      rfl
  · refine ⟨fun md hmd' => ?_, fun md ele hmd' hne hele => ?_⟩
    · cases hmd'
      have hnamed := h.named _ hmd
      exact hnamed
    · cases hmd'
      have hself := (Function.update_self _ _ k.versions).symm.trans hele
      cases hself
      rfl
  · refine ⟨fun md hmd' => ?_, fun md ele hmd' hne hele => ?_⟩
    · cases hmd'
      have hnamed := h.named _ hmd
      exact hnamed
    · cases hmd'
      exact absurd rfl hne
  · refine ⟨fun md hmd' => ?_, fun md ele hmd' hne hele' => ?_⟩
    · cases hmd'
      have hnamed := h.named _ hmd
      exact hnamed
    · cases hmd'
      exact h.draft _ ele hmd hne hele'

theorem wellFormed_of_reachable {kv : KVState} (h : Reachable md5 kv) {n : ElementName}
    (hn : n.Valid) : WellFormed md5 (stored n kv) ∧ Labelled n (stored n kv) := by
  induction h with
  | empty => exact ⟨.absent rfl fun _ => rfl, ⟨fun _ h => (Option.some_ne_none _ h.symm).elim,
      fun _ _ h => (Option.some_ne_none _ h.symm).elim⟩⟩
  | @call kv h n' hn' c ih =>
    by_cases hne : n = n'
    · subst hne
      rw [stored_run]
      exact ⟨wellFormed_effect ih.1 (effect_spec md5 n c _),
        labelled_effect ih.1 ih.2 (effect_spec md5 n c _)⟩
    · rw [stored_of_ne hn hn' hne]
      exact ih

end Cassem.Coord
