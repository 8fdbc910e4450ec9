import Cassem.Lib.SharedCursor
import Cassem.Web.CopyElement

/-!
# Copying an environment

Up to four workers of `CopyEnvDialog` take the elements to copy from a shared cursor. Others may use
the server meanwhile, and requests and answers may be lost.
-/

namespace Cassem.Web

open Lib Cassem.Concept
open Coord (Ctx Codecs Journal ElementName Document)
open KV (Bytes)

/-! ## What comes of a copy -/

section Copy

variable (task : CopyTask) (base : Journal)

/-- At some moment since the copy began the element to copy was so. -/
def Seen (s : Server) (key : String) (P : Option Document → Prop) : Prop :=
  ∃ ops, base <+: ops ∧ ops <+: s.ops ∧ P (documentAt ops task.appId task.sourceEnv key)

/-- In the target environment there is what there was at first. -/
def Untouched (s : Server) (key : String) : Prop :=
  documentAt s.ops task.appId task.targetEnv key =
    documentAt base task.appId task.targetEnv key

/-- Where nothing was there is now a copy of what was in use at some moment. -/
def Copied (s : Server) (key : String) : Prop :=
  documentAt base task.appId task.targetEnv key = none ∧
    ∃ d d', Seen task base s key (· = some d) ∧ documentEmpty d = false ∧ copyOf d = some d' ∧
      documentAt s.ops task.appId task.targetEnv key = some d'

/-- What a result says, one case for each way to come to it. -/
inductive Outcome (s : Server) (key : String) : CopyResultStatus → Prop
  | success (h : Copied task base s key) : Outcome s key .success
  | skipped {d : Document} (hstrategy : task.emptyStrategy = .skip)
      (hseen : Seen task base s key (· = some d)) (hempty : documentEmpty d = true)
      (hsame : Untouched task base s key) : Outcome s key .skipped
  | missing (hseen : Seen task base s key (· = none)) (hsame : Untouched task base s key) :
      Outcome s key .failed
  | refused {d : Document} (hseen : Seen task base s key (· = some d))
      (hno : copyOf d = none ∨ documentAt base task.appId task.targetEnv key ≠ none)
      (hsame : Untouched task base s key) : Outcome s key .failed
  | lost (hlost : key ∈ s.lost) (h : Untouched task base s key ∨ Copied task base s key) :
      Outcome s key .failed

/-- How the copy of an element stands. -/
def Stands (s : Server) (key : String) :
    SharedCursor.Phase ApiRequest.Answer CopyResult → Prop
  | .waiting => Untouched task base s key
  | .working p =>
      (p = copyElement task key ∧ Untouched task base s key) ∨
      (∃ d, p = .call (.createElement task.appId task.targetEnv key (detailOf key d))
          (fun r => .done (postResult key r)) ∧ Untouched task base s key ∧
        Seen task base s key (· = some d)) ∨
      ∃ result, p = .done result ∧ result.key = key ∧ Outcome task base s key result.status
  | .finished result => result.key = key ∧ Outcome task base s key result.status

structure Ongoing (c : Codecs) (md5 : Bytes → String) (s : Server) : Prop where
  grown : base <+: s.ops
  accepted : s.ops.Accepted c md5

variable {c : Codecs} {md5 : Bytes → String} {task base} {s s' : Server} {key : String}

theorem Seen.mono {P : Option Document → Prop} (h : Seen task base s key P)
    (hgrown : s.ops <+: s'.ops) : Seen task base s' key P := by
  obtain ⟨ops, hbase, hops, hP⟩ := h
  exact ⟨ops, hbase, hops.trans hgrown, hP⟩

theorem Ongoing.seen (h : Ongoing base c md5 s) {P : Option Document → Prop}
    (hP : P (documentAt s.ops task.appId task.sourceEnv key)) : Seen task base s key P :=
  ⟨s.ops, h.grown, List.prefix_rfl, hP⟩

/-- Nothing about an element changes as long as its place in the target environment does not. -/
structure Keeps (task : CopyTask) (key : String) (s s' : Server) : Prop where
  grown : s.ops <+: s'.ops
  lost : s.lost ⊆ s'.lost
  target : documentAt s'.ops task.appId task.targetEnv key =
    documentAt s.ops task.appId task.targetEnv key

theorem Keeps.untouched (h : Keeps task key s s') (hs : Untouched task base s key) :
    Untouched task base s' key := h.target.trans hs

theorem Keeps.copied (h : Keeps task key s s') (hs : Copied task base s key) :
    Copied task base s' key := by
  obtain ⟨hnone, d, d', hseen, hempty, hcopy, htarget⟩ := hs
  exact ⟨hnone, d, d', hseen.mono h.grown, hempty, hcopy, h.target.trans htarget⟩

theorem Keeps.outcome (h : Keeps task key s s') {status : CopyResultStatus}
    (hs : Outcome task base s key status) : Outcome task base s' key status := by
  cases hs with
  | success hcopied => exact .success (h.copied hcopied)
  | skipped hstrategy hseen hempty hsame =>
    exact .skipped hstrategy (hseen.mono h.grown) hempty (h.untouched hsame)
  | missing hseen hsame => exact .missing (hseen.mono h.grown) (h.untouched hsame)
  | refused hseen hno hsame => exact .refused (hseen.mono h.grown) hno (h.untouched hsame)
  | lost hlost hor => exact .lost (h.lost hlost) (hor.imp h.untouched h.copied)

theorem Keeps.stands (h : Keeps task key s s')
    {phase : SharedCursor.Phase ApiRequest.Answer CopyResult}
    (hs : Stands task base s key phase) : Stands task base s' key phase := by
  cases phase with
  | waiting => exact h.untouched hs
  | finished result => exact ⟨hs.1, h.outcome hs.2⟩
  | working p =>
    obtain ⟨hp, hsame⟩ | ⟨d, hp, hsame, hseen⟩ | ⟨result, hp, hkey, hout⟩ := hs
    · exact Or.inl ⟨hp, h.untouched hsame⟩
    · exact Or.inr (Or.inl ⟨d, hp, h.untouched hsame, hseen.mono h.grown⟩)
    · exact Or.inr (Or.inr ⟨result, hp, hkey, h.outcome hout⟩)

end Copy


/-! ## Requests, one by one -/

section Steps

variable {c : Codecs} {md5 violation : Bytes → String} {task : CopyTask} {base : Journal}
  {s s' : Server} {key : String}

/-- What may come of posting a document under a name. -/
structure Posted (c : Codecs) (md5 : Bytes → String) (d : Document) (n : ElementName)
    (s s' : Server) (r : Except Failure Unit) : Prop where
  grown : s.ops <+: s'.ops
  accepted : s'.ops.Accepted c md5
  lost : s.lost ⊆ s'.lost
  others : ∀ n', n' ≠ n → s'.ops.shelf n' = s.ops.shelf n'
  same_or_copy : s'.ops.shelf n = s.ops.shelf n ∨
    s.ops.shelf n = none ∧ ∃ d', copyOf d = some d' ∧ s'.ops.shelf n = some d'
  done : r = .ok () → s.ops.shelf n = none ∧ ∃ d', copyOf d = some d' ∧ s'.ops.shelf n = some d'
  failed : ∀ err, r = .error err → n.key ∈ s'.lost ∨
    s'.ops.shelf n = s.ops.shelf n ∧ (copyOf d = none ∨ s.ops.shelf n ≠ none)

theorem posted_ops {ops : Journal} (hops : ops.Accepted c md5) {n : ElementName} (hn : n.Valid)
    {session operator : String} {ctx : Ctx} (hctx : ctx.Fits)
    (hfree : ctx.operatedAt ∉ ops.recordTimes n) {clock : Nat → Int} {d : Document} {ops' : Journal}
    (hwithin : ops'.Within c md5) {ok : Bool}
    (h : postElement c md5 violation ops session operator n.app n.env n.key (detailOf n.key d) ctx
      clock = (ops', ok)) :
    ops <+: ops' ∧ ops'.Accepted c md5 ∧ (∀ n', n' ≠ n → ops'.shelf n' = ops.shelf n') ∧
      (ok = true → ops.shelf n = none ∧ ∃ d', copyOf d = some d' ∧ ops'.shelf n = some d') ∧
      (ok = false → ops'.shelf n = ops.shelf n ∧ (copyOf d = none ∨ ops.shelf n ≠ none)) := by
  obtain ⟨posted, heq, hor⟩ := postElement_eq session operator clock hops hn hctx hfree n.key d
    (by rw [h]; exact hwithin)
  obtain ⟨rfl, rfl⟩ := Prod.mk.inj (h.symm.trans heq)
  rcases hor with ⟨hnone, rfl⟩ | ⟨raw, contentType, hcopy, rfl⟩
  · exact ⟨List.prefix_rfl, hops, fun _ _ => rfl, by simp [hnone], fun _ => ⟨rfl, Or.inl hnone⟩⟩
  · have hvalid : Coord.Operation.Valid (.element n ⟨.create raw contentType, ctx⟩) := ⟨hn, hctx⟩
    have hshelf := Journal.shelf_snoc ops (.element n ⟨.create raw contentType, ctx⟩, clock)
    have hown : Journal.shelf (ops ++ [(.element n ⟨.create raw contentType, ctx⟩, clock)]) n =
        Document.step (ops.shelf n) (.create raw contentType) := by
      rw [hshelf]
      exact if_pos rfl
    refine ⟨List.prefix_append _ _, hops.snoc hvalid (hwithin ops _ List.prefix_rfl),
      fun n' hne => ?_, fun hok => ?_, fun hno => ?_⟩
    · rw [hshelf]
      exact if_neg hne
    · rw [hcopy] at hok
      have hnone : ops.shelf n = none := Option.isNone_iff_eq_none.mp hok
      rw [hown, hnone]
      exact ⟨rfl, _, hcopy, rfl⟩
    · rw [hcopy] at hno
      obtain ⟨d₀, hd₀⟩ : ∃ d₀, ops.shelf n = some d₀ := by
        cases hd : ops.shelf n with
        | none =>
          rw [hd] at hno
          cases hno
        | some d₀ => exact ⟨d₀, rfl⟩
      rw [hown, hd₀]
      exact ⟨rfl, Or.inr (by simp)⟩

theorem posted_of_serves {n : ElementName} (hn : n.Valid) (hs : s.ops.Accepted c md5) {d : Document}
    {r : Except Failure Unit}
    (h : Serves c md5 violation s (.createElement n.app n.env n.key (detailOf n.key d)) r s') :
    Posted c md5 d n s s' r := by
  cases h with
  | posted hctx hfree hwithin h =>
    obtain ⟨hgrown, haccepted, hothers, hdone, -⟩ := posted_ops hs hn hctx (hfree n) hwithin h
    exact ⟨hgrown, haccepted, List.Subset.refl _, hothers, Or.inr (hdone rfl), fun _ => hdone rfl,
      fun err herr => by cases herr⟩
  | notPosted message hctx hfree hwithin h =>
    obtain ⟨hgrown, haccepted, hothers, -, hfailed⟩ := posted_ops hs hn hctx (hfree n) hwithin h
    exact ⟨hgrown, haccepted, List.Subset.refl _, hothers, Or.inl (hfailed rfl).1,
      fun hok => (by cases hok), fun _ _ => Or.inr (hfailed rfl)⟩
  | postLost err =>
    exact ⟨List.prefix_rfl, hs, List.subset_cons_self _ _, fun _ _ => rfl, Or.inl rfl,
      fun hok => (by cases hok), fun _ _ => Or.inl List.mem_cons_self⟩
  | @answerLost _ _ _ _ _ _ _ _ _ done err hctx hfree hwithin h =>
    obtain ⟨hgrown, haccepted, hothers, hdone, hfailed⟩ := posted_ops hs hn hctx (hfree n) hwithin h
    refine ⟨hgrown, haccepted, List.subset_cons_self _ _, hothers, ?_, fun hok => (by cases hok),
      fun _ _ => Or.inl List.mem_cons_self⟩
    cases done with
    | true => exact Or.inr (hdone rfl)
    | false => exact Or.inl (hfailed rfl).1

/-- What may come of a request for an element. -/
structure Got (n : ElementName) (s s' : Server) (r : Except Failure Element) : Prop where
  ops : s'.ops = s.ops
  lost : s.lost ⊆ s'.lost
  found : ∀ detail, r = .ok detail → ∃ d, s.ops.shelf n = some d ∧ detail = detailOf n.key d
  failed : ∀ err, r = .error err → n.key ∈ s'.lost ∨ s.ops.shelf n = none

theorem got_of_serves {n : ElementName} (hn : n.Valid) (hs : s.ops.Accepted c md5)
    {r : Except Failure Element}
    (h : Serves c md5 violation s (.requestElement n.app n.env n.key) r s') : Got n s s' r := by
  cases h with
  | got h =>
    rw [getElement_eq hs hn] at h
    obtain ⟨d, hd, rfl⟩ := Option.map_eq_some_iff.mp h
    exact ⟨rfl, List.Subset.refl _, fun detail heq => ⟨d, hd, (Except.ok.inj heq).symm⟩,
      fun err herr => by cases herr⟩
  | notGot message h =>
    rw [getElement_eq hs hn] at h
    exact ⟨rfl, List.Subset.refl _, fun detail heq => (by cases heq),
      fun _ _ => Or.inr (Option.map_eq_none_iff.mp h)⟩
  | getLost err =>
    exact ⟨rfl, List.subset_cons_self _ _, fun detail heq => (by cases heq),
      fun _ _ => Or.inl List.mem_cons_self⟩

theorem Posted.keeps {d : Document} {n : ElementName} {r : Except Failure Unit}
    (h : Posted c md5 d n s s' r) {key' : String} (hne : key' ≠ n.key) : Keeps task key' s s' where
  grown := h.grown
  lost := h.lost
  target := by
    unfold documentAt
    split
    · rfl
    · exact h.others _ fun heq => hne (congrArg ElementName.key heq)

theorem Got.keeps {n : ElementName} {r : Except Failure Element} (h : Got n s s' r)
    (key' : String) : Keeps task key' s s' where
  grown := h.ops ▸ List.prefix_rfl
  lost := h.lost
  target := by rw [h.ops]

/-- Once an element is given, it is skipped or posted. -/
theorem stands_got (hs : Ongoing base c md5 s) {n : ElementName}
    (hn : n.app = task.appId ∧ n.env = task.sourceEnv) {r : Except Failure Element}
    (h : Got n s s' r) (hsame : Untouched task base s n.key)
    {next : Except Failure Element → Program ApiRequest.Answer CopyResult}
    (hnext : copyElement task n.key = .call (.requestElement task.appId task.sourceEnv n.key) next) :
    Stands task base s' n.key (.working (next r)) := by
  have hongoing : Ongoing base c md5 s' := ⟨h.ops ▸ hs.grown, h.ops ▸ hs.accepted⟩
  have hsame' := (h.keeps n.key).untouched hsame
  have hat : documentAt s'.ops task.appId task.sourceEnv n.key = s.ops.shelf n := by
    rw [h.ops, ← hn.1, ← hn.2, documentAt_eq]
  cases hnext
  cases r with
  | error err =>
    refine Or.inr (Or.inr ⟨failedResult n.key err, rfl, ?_, ?_⟩)
    · cases err <;> rfl
    · have hstatus : (failedResult n.key err).status = .failed := by cases err <;> rfl
      rw [hstatus]
      rcases h.failed err rfl with hlost | hnone
      · exact .lost hlost (Or.inl hsame')
      · exact .missing (hongoing.seen (hat.trans hnone)) hsame'
  | ok detail =>
    obtain ⟨d, hd, rfl⟩ := h.found detail rfl
    have hseen : Seen task base s' n.key (· = some d) := hongoing.seen (hat.trans hd)
    dsimp only
    rw [copyDetail, isElementEmpty_detailOf]
    dsimp only
    split
    · next hskip =>
      exact Or.inr (Or.inr ⟨_, rfl, rfl, .skipped hskip.2 hseen hskip.1 hsame'⟩)
    · exact Or.inr (Or.inl ⟨d, rfl, hsame', hseen⟩)

/-- What is empty is always refused. -/
theorem documentEmpty_of_copyOf {d d' : Document} (h : copyOf d = some d') :
    documentEmpty d = false := by
  have hraw : rawInUse d ≠ [] := by
    intro hempty
    rw [copyOf, hempty, if_neg fun hok => hok.1 rfl] at h
    cases h
  have huse : d.inUse ≠ 0 := by
    intro hzero
    have hnone : d.revision? 0 = none := rfl
    rw [rawInUse, hzero, hnone] at hraw
    exact hraw rfl
  simp [documentEmpty, hraw, huse]

theorem stands_posted {n : ElementName}
    (hn : n.app = task.appId ∧ n.env = task.targetEnv) {d : Document} {r : Except Failure Unit}
    (h : Posted c md5 d n s s' r) (hsame : Untouched task base s n.key)
    (hseen : Seen task base s n.key (· = some d)) :
    Stands task base s' n.key (.working (.done (postResult n.key r))) := by
  have hat : ∀ ops, documentAt ops task.appId task.targetEnv n.key = ops.shelf n := by
    intro ops
    rw [← hn.1, ← hn.2, documentAt_eq]
  have hseen' : Seen task base s' n.key (· = some d) := hseen.mono h.grown
  have hbase : documentAt base task.appId task.targetEnv n.key = s.ops.shelf n :=
    hsame.symm.trans (hat s.ops)
  have hcopied : (s.ops.shelf n = none ∧ ∃ d', copyOf d = some d' ∧ s'.ops.shelf n = some d') →
      Copied task base s' n.key := by
    rintro ⟨hnone, d', hcopy, hshelf⟩
    exact ⟨hbase.trans hnone, d, d', hseen', documentEmpty_of_copyOf hcopy, hcopy,
      (hat s'.ops).trans hshelf⟩
  have huntouched : s'.ops.shelf n = s.ops.shelf n → Untouched task base s' n.key := fun heq =>
    (hat s'.ops).trans (heq.trans hbase.symm)
  refine Or.inr (Or.inr ⟨_, rfl, ?_, ?_⟩)
  · cases r with
    | error err => cases err <;> rfl
    | ok _ => rfl
  · cases r with
    | ok _ => exact .success (hcopied (h.done rfl))
    | error err =>
      have hstatus : (postResult n.key (.error err)).status = .failed := by cases err <;> rfl
      rw [hstatus]
      rcases h.failed err rfl with hlost | ⟨heq, hno⟩
      · exact .lost hlost (h.same_or_copy.imp huntouched hcopied)
      · exact .refused hseen' (hno.imp id fun hne => hbase ▸ hne) (huntouched heq)

theorem Others.keeps (h : Others c md5 task.appId task.targetEnv s s') (key : String) :
    Keeps task key s s' := by
  cases h with
  | @operation op hop hwithin hspare clock =>
    refine ⟨List.prefix_append _ _, List.Subset.refl _, ?_⟩
    unfold documentAt
    split
    · rfl
    · rw [Journal.shelf_snoc]
      cases op with
      | element n call => exact if_neg fun heq => hspare ⟨(congrArg ElementName.app heq).symm,
          (congrArg ElementName.env heq).symm⟩
      | deleteElement n => exact if_neg fun heq => hspare ⟨(congrArg ElementName.app heq).symm,
          (congrArg ElementName.env heq).symm⟩
      | deleteEnvironment app env => exact if_neg fun heq => hspare ⟨heq.1.symm, heq.2.symm⟩
      | deleteApp app => exact if_neg fun heq => hspare heq.symm
      | createEnvironment app env => rfl
      | createApp md => rfl

theorem Others.ongoing (h : Others c md5 task.appId task.targetEnv s s') (hs : Ongoing base c md5 s) :
    Ongoing base c md5 s' := by
  cases h with
  | @operation op hop hwithin hspare clock =>
    exact ⟨hs.grown.trans (List.prefix_append _ _), hs.accepted.snoc hop hwithin⟩

section Outline

variable (c md5 violation base) (keys : List String)

/-- How it stands with the element of an index, and with the storage. -/
def InHand (task : CopyTask) (index : Nat)
    (phase : SharedCursor.Phase ApiRequest.Answer CopyResult) (s : Server) : Prop :=
  Ongoing base c md5 s ∧ ∃ key, keys[index]? = some key ∧ Stands task base s key phase

variable {keys base}

theorem stands_serve (happ : Adm.isIdentifier task.appId = true)
    (hsource : Adm.isIdentifier task.sourceEnv = true)
    (htarget : Adm.isIdentifier task.targetEnv = true) (hkey : Adm.isIdentifier key = true)
    (hs : Ongoing base c md5 s) {q : ApiRequest}
    {next : q.Answer → Program ApiRequest.Answer CopyResult} {r : q.Answer}
    (h : Stands task base s key (.working (.call q next))) (hserves : Serves c md5 violation s q r s') :
    (Ongoing base c md5 s' ∧ Stands task base s' key (.working (next r))) ∧
      ∀ key', key' ≠ key → Keeps task key' s s' := by
  obtain ⟨hp, hsame⟩ | ⟨d, hp, hsame, hseen⟩ | ⟨result, hp, -⟩ := h
  · have hn : (Coord.nameOf happ hsource hkey).Valid := ⟨happ, hsource, hkey⟩
    obtain ⟨rfl, -⟩ := Program.call.inj hp
    have hgot := got_of_serves hn hs.accepted hserves
    have hongoing : Ongoing base c md5 s' := ⟨hgot.ops ▸ hs.grown, hgot.ops ▸ hs.accepted⟩
    exact ⟨⟨hongoing, stands_got hs ⟨rfl, rfl⟩ hgot hsame hp.symm⟩, fun key' _ => hgot.keeps key'⟩
  · have hn : (Coord.nameOf happ htarget hkey).Valid := ⟨happ, htarget, hkey⟩
    cases hp
    have hposted := posted_of_serves hn hs.accepted hserves
    exact ⟨⟨⟨hs.grown.trans hposted.grown, hposted.accepted⟩,
      stands_posted ⟨rfl, rfl⟩ hposted hsame hseen⟩, fun key' hne => hposted.keeps hne⟩
  · cases hp

theorem copy_outline (happ : Adm.isIdentifier task.appId = true)
    (hsource : Adm.isIdentifier task.sourceEnv = true)
    (htarget : Adm.isIdentifier task.targetEnv = true)
    (hkeys : ∀ key ∈ keys, Adm.isIdentifier key = true) (hnodup : keys.Nodup) :
    SharedCursor.Outline keys (copyElement task) (Serves c md5 violation)
      (Others c md5 task.appId task.targetEnv) (InHand c md5 base keys task) where
  begin := by
    rintro index key s hkey ⟨hs, key', hkey', h⟩
    cases hkey.symm.trans hkey'
    exact ⟨hs, key, hkey, Or.inl ⟨rfl, h⟩⟩
  serve := by
    rintro index q next s r s' ⟨hs, key, hkey, h⟩ hserves
    obtain ⟨hs', h'⟩ := (stands_serve c md5 violation happ hsource htarget
      (hkeys key (List.mem_of_getElem? hkey)) hs h hserves).1
    exact ⟨hs', key, hkey, h'⟩
  finish := by
    rintro index result s ⟨hs, key, hkey, hp | ⟨d, hp, -⟩ | ⟨result', hp, h⟩⟩
    · cases hp.1
    · cases hp
    · cases hp
      exact ⟨hs, key, hkey, h⟩
  frame := by
    rintro index q next s r s' ⟨hs, key, hkey, h⟩ hserves j phase hne ⟨-, key', hkey', h'⟩
    obtain ⟨⟨hs', -⟩, hkeeps⟩ := stands_serve c md5 violation happ hsource htarget
      (hkeys key (List.mem_of_getElem? hkey)) hs h hserves
    refine ⟨hs', key', hkey', (hkeeps key' fun heq => hne ?_).stands h'⟩
    obtain ⟨hlt, hget⟩ := List.getElem?_eq_some_iff.mp hkey'
    obtain ⟨hlt', hget'⟩ := List.getElem?_eq_some_iff.mp hkey
    exact (hnodup.getElem_inj_iff).mp (hget.trans (heq.trans hget'.symm))
  other := by
    rintro s s' hother j phase ⟨hs, key, hkey, h⟩
    exact ⟨hother.ongoing hs, key, hkey, (hother.keeps key).stands h⟩

end Outline

theorem within_copyElement (task : CopyTask) (key : String) :
    SharedCursor.Within 2 (copyElement task key) := by
  rintro (err | detail)
  · trivial
  · dsimp only
    unfold copyDetail
    split
    · trivial
    · split
      · trivial
      · exact fun _ => trivial

end Steps

/-! ## The copy of an environment -/

def workerCount : Nat := 4

def runWorkers (base : Journal) (keys : List String) :
    SharedCursor.Crew Server ApiRequest.Answer CopyResult :=
  .start { ops := base } (min workerCount keys.length)

def resultStatus (results : List CopyResult) : CopyResultStatus :=
  if results.any (·.status = .failed) then .failed
  else if results.any (·.status = .skipped) then .skipped
  else .success

theorem resultStatus_eq_success {results : List CopyResult} (h : resultStatus results = .success) :
    ∀ result ∈ results, result.status = .success := by
  intro result hresult
  unfold resultStatus at h
  split at h
  · cases h
  · next hfailed =>
    split at h
    · cases h
    · next hskipped =>
      have hany : ∀ status, result.status = status → results.any (·.status = status) = true :=
        fun status hstatus => List.any_eq_true.mpr ⟨result, hresult, decide_eq_true hstatus⟩
      cases hstatus : result.status with
      | success => rfl
      | skipped => exact absurd (hany _ hstatus) hskipped
      | failed => exact absurd (hany _ hstatus) hfailed

/-- However the workers take turns, and whatever others do elsewhere, each element has at most one
result, and the result tells what became of the element; when the workers are through and report
success, every element was copied. They do get through. -/
theorem copyEnvironment_results (c : Codecs) (md5 violation : Bytes → String) {task : CopyTask}
    {base : Journal} (hbase : base.Accepted c md5) (happ : Adm.isIdentifier task.appId = true)
    (hsource : Adm.isIdentifier task.sourceEnv = true)
    (htarget : Adm.isIdentifier task.targetEnv = true) {keys : List String}
    (hkeys : ∀ key ∈ keys, Adm.isIdentifier key = true) (hnodup : keys.Nodup)
    {ls : List (Option Nat)} {crew : SharedCursor.Crew Server ApiRequest.Answer CopyResult}
    (hrun : SharedCursor.Run keys (copyElement task) (Serves c md5 violation)
      (Others c md5 task.appId task.targetEnv) (runWorkers base keys) ls crew) :
    (crew.results.map Prod.fst).Nodup ∧
    (∀ index result, (index, result) ∈ crew.results → keys[index]? = some result.key ∧
      Outcome task base crew.state result.key result.status) ∧
    (crew.Stopped → crew.active = true →
      (crew.results.map (·.2.key)).Perm keys ∧
      (resultStatus (crew.results.map Prod.snd) = .success →
        ∀ key ∈ keys, Copied task base crew.state key)) ∧
    (ls.filter Option.isSome).length ≤ keys.length * 4 + min workerCount keys.length ∧
    (¬ crew.Stopped → ∃ i crew', SharedCursor.Step keys (copyElement task) (Serves c md5 violation)
      (Others c md5 task.appId task.targetEnv) crew (some i) crew') := by
  have htaken := SharedCursor.taken_run hrun
  have hstart : ∀ index < keys.length,
      InHand c md5 base keys task index .waiting ({ ops := base } : Server) := by
    intro index hlt
    exact ⟨⟨List.prefix_rfl, hbase⟩, keys[index], List.getElem?_eq_getElem hlt, rfl⟩
  have hphase := (copy_outline c md5 violation happ hsource htarget hkeys hnodup).run hstart hrun
  have hresults : ∀ index result, (index, result) ∈ crew.results → keys[index]? = some result.key ∧
      Outcome task base crew.state result.key result.status := by
    intro index result hmem
    obtain ⟨-, key, hkey, rfl, hout⟩ := hphase.finished index result hmem
    exact ⟨hkey, hout⟩
  refine ⟨?_, hresults, fun hstopped hactive => ?_, ?_, ?_⟩
  · exact (List.nodup_append.mp (htaken.nodup_iff.mpr List.nodup_range)).1
  · have hall := SharedCursor.all_taken hrun (fun hzero => ?_) hstopped hactive
    · have hperm : (crew.results.map (·.2.key)).Perm keys := by
        have hkeyed := hall.map fun i => (keys[i]?).getD ""
        have hall' : (List.range keys.length).map (fun i => (keys[i]?).getD "") = keys :=
          List.ext_getElem (by simp) fun i _ hlt => by simp [hlt]
        have hnamed : crew.results.map (·.2.key) =
            (crew.results.map Prod.fst).map fun i => (keys[i]?).getD "" := by
          rw [List.map_map]
          refine List.map_congr_left fun p hp => ?_
          rw [Function.comp_apply, (hresults p.1 p.2 hp).1]
          rfl
        rwa [← hnamed, hall'] at hkeyed
      refine ⟨hperm, fun hsuccess key hkey => ?_⟩
      obtain ⟨⟨index, result⟩, hmem, rfl⟩ := List.mem_map.mp (hperm.mem_iff.mpr hkey)
      have hstatus := resultStatus_eq_success hsuccess result
        (List.mem_map.mpr ⟨(index, result), hmem, rfl⟩)
      have hout := (hresults index result hmem).2
      rw [hstatus] at hout
      cases hout with
      | success hcopied => exact hcopied
    · refine List.eq_nil_of_length_eq_zero ?_
      unfold workerCount at hzero
      omega
  · exact SharedCursor.length_run_le (fun key _ => within_copyElement task key) hrun
  · exact SharedCursor.exists_step fun s q => by
      cases q with
      | requestElement appId env key => exact ⟨_, _, .getLost .other⟩
      | createElement appId env key element => exact ⟨_, _, .postLost .other⟩

/-- One element, copied by one worker. -/
theorem copyEnvironment_results_edited :
    ∃ crew : SharedCursor.Crew Server ApiRequest.Answer CopyResult,
    SharedCursor.Run ["k"] (copyElement ⟨"a", "e", "f", .skip⟩)
      (Serves Coord.codecs (fun _ => "") fun _ => "")
      (Others Coord.codecs (fun _ => "") "a" "f") (runWorkers Coord.edited ["k"])
      [some 0, some 0, some 0, some 0, some 0] crew ∧
    crew.results = [(0, ⟨"k", .success, none, none⟩)] ∧
    Copied ⟨"a", "e", "f", .skip⟩ Coord.edited crew.state "k" := by
  obtain ⟨d, hd, hempty, hraw, htype⟩ : ∃ d,
      Coord.edited.shelf ⟨"a", "e", "k", by decide⟩ = some d ∧ documentEmpty d = false ∧
        rawInUse d = [120] ∧ d.contentType = 4 := ⟨_, rfl, by decide, rfl, rfl⟩
  have hk' : (⟨"a", "f", "k", by decide⟩ : ElementName).Valid := by constructor <;> decide
  have hgot : getElement Coord.codecs (fun _ => "") (fun _ => "") Coord.edited "" "" "a" "e" "k"
      (fun _ => 0) = some (detailOf "k" d) := by
    have h := @getElement_eq Coord.codecs (fun _ => "") (fun _ => "") _ Coord.edited_accepted _
      Coord.valid_k "" "" fun _ => 0
    rwa [hd] at h
  have hctx : (⟨none, 4⟩ : Ctx).Fits := ⟨by decide, by decide⟩
  have hfree : ∀ n, (⟨none, 4⟩ : Ctx).operatedAt ∉ Coord.edited.recordTimes n := by
    intro n hmem
    obtain ⟨o, ho, htime⟩ := List.mem_filterMap.mp hmem
    have hsome : ∀ (n' : ElementName) (t : Int),
        (if n' = n then some t else none) = some 4 → t = 4 := by
      intro n' t
      split <;> simp
    simp only [Coord.edited, List.mem_cons, List.not_mem_nil, or_false] at ho
    rcases ho with rfl | rfl | rfl <;> exact absurd (hsome _ _ htime) (by decide)
  have hcopied : copiedText (rawInUse d) ≠ "" ∧ d.contentType ∈ [1, 2, 3, 4] := by
    rw [hraw, htype]
    decide
  have hwithin : Journal.Within Coord.codecs (fun _ => "") (postElement Coord.codecs (fun _ => "")
      (fun _ => "") Coord.edited "" "" "a" "f" "k" (detailOf "k" d) ⟨none, 4⟩ fun _ => 0).1 := by
    have hop : Coord.Operation.Valid (.element ⟨"a", "f", "k", by decide⟩
        ⟨.create (Utf8.encode (copiedText [120])) 4, ⟨none, 4⟩⟩) := ⟨hk', hctx⟩
    rw [postElement_copied "" "" (fun _ => 0) hk' ⟨none, 4⟩ "k" d, if_pos hcopied, hraw, htype]
    exact (Coord.edited_accepted.snoc hop (by decide)).within
  obtain ⟨ops', hpost, -⟩ := @postElement_eq Coord.codecs (fun _ => "") (fun _ => "") _ _ "" ""
    (fun _ => 0) Coord.edited_accepted hk' _ hctx (hfree _) "k" d hwithin
  have hnone : Coord.edited.shelf ⟨"a", "f", "k", by decide⟩ = none := rfl
  have hcopy : (copyOf d).isSome = true := by
    rw [copyOf, if_pos hcopied]
    rfl
  rw [hpost] at hwithin
  rw [hnone, hcopy] at hpost
  have hnext : copyDetail ⟨"a", "e", "f", .skip⟩ "k" (detailOf "k" d) =
      .call (.createElement "a" "f" "k" (detailOf "k" d)) fun r => .done (postResult "k" r) := by
    rw [copyDetail, isElementEmpty_detailOf, hempty]
    rfl
  have hbegin : SharedCursor.Run ["k"] (copyElement ⟨"a", "e", "f", .skip⟩)
      (Serves Coord.codecs (fun _ => "") fun _ => "")
      (Others Coord.codecs (fun _ => "") "a" "f") (runWorkers Coord.edited ["k"]) []
      (runWorkers Coord.edited ["k"]) := .refl
  have hgiven := (hbegin.snoc (.take (i := 0) rfl rfl)).snoc (.serve (i := 0) rfl (.got hgot))
  have hposted := hgiven.snoc (.serve (i := 0)
    (congrArg (fun p => some (SharedCursor.Worker.busy 0 p)) hnext) (.posted hctx hfree hwithin hpost))
  have hrun := (hposted.snoc (.finish (i := 0) rfl)).snoc (.stop (i := 0) rfl rfl)
  refine ⟨_, hrun, rfl, ?_⟩
  obtain ⟨-, -, hall, -⟩ := copyEnvironment_results Coord.codecs (fun _ => "") (fun _ => "")
    Coord.edited_accepted (by decide) (by decide) (by decide) (by decide) (by decide) hrun
  refine (hall ?_ rfl).2 rfl "k" List.mem_cons_self
  intro w hw
  exact List.mem_singleton.mp hw

end Cassem.Web
