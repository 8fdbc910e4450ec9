import Mathlib.Algebra.GroupWithZero.Nat
import Mathlib.Data.List.Basic

/-!
# A record of comma-separated values

The reader takes the first record of a text: fields between commas, spaces in front of a field
dropped, a field in quotes if it begins with one. Plain fields read back from their joined text.
What is read never outweighs the text, and weighs as much only where nothing was changed.
-/

namespace Cassem.Lib.CSV

/-- The characters that the reader is set to. -/
structure Dialect where
  comma : Char
  comment : Char
  isSpace : Char → Bool
  comma_ne : comma ≠ '"' ∧ comma ≠ '\r' ∧ comma ≠ '\n'
  comma_not_space : isSpace comma = false
  blank_space : isSpace ' ' = true

inductive ParseError where
  | eof
  | bareQuote
  | quote
  deriving DecidableEq, Repr

/-- How far a field has been read. -/
inductive Field where
  | start
  | plain (f : List Char)
  | quoted (f : List Char)
  /-- After a quote in a quoted field. -/
  | closing (f : List Char)

def Field.content : Field → List Char
  | start => []
  | plain f | quoted f | closing f => f

/-- A carriage return at the end of a line or of the text. -/
def skipped (c : Char) (cs : List Char) : Bool := c = '\r' && (cs.isEmpty || cs.head? = some '\n')

namespace Dialect

variable (d : Dialect)

/-- The rest of a record, from inside a field on. -/
def fields : Field → List Char → Except ParseError (List (List Char))
  | .start, [] => .ok [[]]
  | .plain f, [] => .ok [f]
  | .quoted _, [] => .error .quote
  | .closing f, [] => .ok [f]
  | .start, c :: cs =>
      if skipped c cs then fields .start cs
      else if c = '\n' then .ok [[]]
      else if d.isSpace c then fields .start cs
      else if c = '"' then fields (.quoted []) cs
      else if c = d.comma then (fields .start cs).map ([] :: ·)
      else fields (.plain [c]) cs
  | .plain f, c :: cs =>
      if skipped c cs then fields (.plain f) cs
      else if c = '\n' then .ok [f]
      else if c = '"' then .error .bareQuote
      else if c = d.comma then (fields .start cs).map (f :: ·)
      else fields (.plain (f ++ [c])) cs
  | .quoted f, c :: cs =>
      if skipped c cs then fields (.quoted f) cs
      else if c = '"' then fields (.closing f) cs
      else fields (.quoted (f ++ [c])) cs
  | .closing f, c :: cs =>
      if skipped c cs then fields (.closing f) cs
      else if c = '"' then fields (.quoted (f ++ ['"'])) cs
      else if c = d.comma then (fields .start cs).map (f :: ·)
      else if c = '\n' then .ok [f]
      else .error .quote

/-- Blank lines and lines of comment in front of the record are skipped. -/
def readRecord (inComment : Bool) : List Char → Except ParseError (List (List Char))
  | [] => .error .eof
  | c :: cs =>
      if skipped c cs then readRecord inComment cs
      else if c = '\n' then readRecord false cs
      else if inComment ∨ c = d.comment then readRecord true cs
      else d.fields .start (c :: cs)

def read (text : String) : Except ParseError (List String) :=
  (d.readRecord false text.toList).map (·.map String.ofList)

end Dialect

/-! ## Plain fields -/

section Plain

variable {d : Dialect} {f g v rest : List Char} {out : List (List Char)}

theorem skipped_of_ne {c : Char} (h : c ≠ '\r') (cs : List Char) : skipped c cs = false := by
  simp [skipped, h]

/-- No character of the field ends it or is a quote. -/
def Inert (d : Dialect) (f : List Char) : Prop := ∀ c ∈ f, c ≠ '"' ∧ c ≠ d.comma ∧ c ≠ '\n'

/-- The field is written as it is, in front of `rest`. -/
structure Plain (d : Dialect) (f rest : List Char) : Prop where
  ne_nil : f ≠ []
  inert : Inert d f
  head : ∀ c ∈ f.head?, d.isSpace c = false
  last : rest = [] → f.getLast? ≠ some '\r'

/-- The text of the fields that follow the first. -/
def following (d : Dialect) (fs : List (List Char)) : List Char :=
  fs.flatMap fun f => d.comma :: ' ' :: f

/-- What follows a field: nothing, or a comma. -/
def Follows (d : Dialect) (rest : List Char) : Prop := rest = [] ∨ ∃ cs, rest = d.comma :: cs

theorem follows_following (fs : List (List Char)) : Follows d (following d fs) := by
  cases fs with
  | nil => exact .inl rfl
  | cons f fs => exact .inr ⟨_, rfl⟩

theorem skipped_append {c : Char} (hrest : Follows d rest) (hinert : Inert d (c :: f))
    (hlast : rest = [] → (c :: f).getLast? ≠ some '\r') : skipped c (f ++ rest) = false := by
  by_cases hc : c = '\r'
  · cases f with
    | nil =>
      rcases hrest with rfl | ⟨cs, rfl⟩
      · exact absurd (by rw [hc]; rfl) (hlast rfl)
      · have hcomma := d.comma_ne.2.2
        simp [skipped, hcomma]
    | cons c' f =>
      have hc' := (hinert c' (by simp)).2.2
      simp [skipped, hc']
  · exact skipped_of_ne hc _

theorem fields_plain_append (hrest : Follows d rest) (hinert : Inert d f)
    (hlast : rest = [] → f.getLast? ≠ some '\r') :
    d.fields (.plain g) (f ++ rest) = d.fields (.plain (g ++ f)) rest := by
  induction f generalizing g with
  | nil => rw [List.nil_append, List.append_nil]
  | cons c f ih =>
    have hskip := skipped_append hrest hinert hlast
    obtain ⟨hquote, hcomma, hnl⟩ := hinert c List.mem_cons_self
    have hlast' : rest = [] → f.getLast? ≠ some '\r' := by
      intro hnil heq
      cases f with
      | nil => cases heq
      | cons c' f => exact hlast hnil (by rw [List.getLast?_cons_cons]; exact heq)
    rw [List.cons_append, Dialect.fields, if_neg (by simp [hskip]), if_neg hnl, if_neg hquote,
      if_neg hcomma, ih (fun c' hc' => hinert c' (List.mem_cons_of_mem _ hc')) hlast',
      List.append_assoc]
    rfl

theorem fields_start_append (hrest : Follows d rest) (h : Plain d f rest) :
    d.fields .start (f ++ rest) = d.fields (.plain f) rest := by
  cases f with
  | nil => exact absurd rfl h.ne_nil
  | cons c f =>
    have hskip := skipped_append hrest h.inert h.last
    obtain ⟨hquote, hcomma, hnl⟩ := h.inert c List.mem_cons_self
    have hspace := h.head c rfl
    have hlast : rest = [] → f.getLast? ≠ some '\r' := by
      intro hnil heq
      cases f with
      | nil => cases heq
      | cons c' f => exact h.last hnil (by rw [List.getLast?_cons_cons]; exact heq)
    rw [List.cons_append, Dialect.fields, if_neg (by simp [hskip]), if_neg hnl,
      if_neg (by simp [hspace]), if_neg hquote, if_neg hcomma,
      fields_plain_append hrest (fun c' hc' => h.inert c' (List.mem_cons_of_mem _ hc')) hlast]
    rfl

theorem map_cons_ok {f : List Char} {res : Except ParseError (List (List Char))}
    (h : res.map (f :: ·) = .ok out) : ∃ rest, res = .ok rest ∧ out = f :: rest := by
  cases res with
  | error err => cases h
  | ok rest => exact ⟨rest, rfl, (Except.ok.inj h).symm⟩

theorem fields_comma (cs : List Char) :
    d.fields (.plain f) (d.comma :: ' ' :: cs) = (d.fields .start cs).map (f :: ·) := by
  obtain ⟨hquote, hcr, hnl⟩ := d.comma_ne
  rw [Dialect.fields, if_neg (by simp [skipped_of_ne hcr]), if_neg hnl, if_neg hquote, if_pos rfl,
    Dialect.fields, if_neg (by simp [skipped]), if_neg (by decide), if_pos d.blank_space]

/-- Every one of the fields is plain before those that follow it. -/
def AllPlain (d : Dialect) (fs : List (List Char)) : Prop :=
  ∀ (v : List Char) (vs : List (List Char)), v :: vs <:+ fs → Plain d v (following d vs)

theorem following_eq_nil {fs : List (List Char)} : following d fs = [] ↔ fs = [] := by
  cases fs with
  | nil => exact iff_of_true rfl rfl
  | cons f fs => exact iff_of_false (List.cons_ne_nil _ _) (List.cons_ne_nil _ _)

theorem allPlain_cons {v : List Char} {vs : List (List Char)} :
    AllPlain d (v :: vs) ↔ Plain d v (following d vs) ∧ AllPlain d vs := by
  constructor
  · intro h
    exact ⟨h v vs List.suffix_rfl, fun w ws hsuffix => h w ws (hsuffix.trans (List.suffix_cons v vs))⟩
  · rintro ⟨hplain, hrest⟩ w ws hsuffix
    rcases List.suffix_cons_iff.mp hsuffix with hsame | hsuffix
    · cases hsame
      exact hplain
    · exact hrest w ws hsuffix

/-- The last field is the one that must not end in a carriage return. -/
theorem allPlain_iff {fs : List (List Char)} : AllPlain d fs ↔
    (∀ f ∈ fs, f ≠ [] ∧ Inert d f ∧ ∀ c ∈ f.head?, d.isSpace c = false) ∧
      ∀ f ∈ fs.getLast?, f.getLast? ≠ some '\r' := by
  induction fs with
  | nil =>
    refine iff_of_true (fun v vs hsuffix => ?_) ⟨?_, ?_⟩
    · cases List.suffix_nil.mp hsuffix
    · intro f hf
      cases hf
    · intro f hf
      cases hf
  | cons v vs ih =>
    rw [allPlain_cons, ih]
    constructor
    · rintro ⟨⟨hne, hinert, hhead, hlast⟩, hall, hlasts⟩
      refine ⟨List.forall_mem_cons.mpr ⟨⟨hne, hinert, hhead⟩, hall⟩, ?_⟩
      cases vs with
      | nil =>
        intro f hf
        cases hf
        exact hlast rfl
      | cons w ws =>
        rw [List.getLast?_cons_cons]
        exact hlasts
    · rintro ⟨hall, hlasts⟩
      obtain ⟨⟨hne, hinert, hhead⟩, hall⟩ := List.forall_mem_cons.mp hall
      refine ⟨⟨hne, hinert, hhead, fun hnil => ?_⟩, hall, ?_⟩
      · cases following_eq_nil.mp hnil
        exact hlasts v rfl
      · cases vs with
        | nil =>
          intro f hf
          cases hf
        | cons w ws =>
          rw [List.getLast?_cons_cons] at hlasts
          exact hlasts

/-- The field that is being read is the first of the record. -/
theorem fields_following_eq {fs out : List (List Char)}
    (h : d.fields (.plain f) (following d fs) = .ok out) : ∃ rest, out = f :: rest := by
  cases fs with
  | nil =>
    cases h
    exact ⟨[], rfl⟩
  | cons v vs =>
    change d.fields _ (d.comma :: ' ' :: (v ++ following d vs)) = _ at h
    rw [fields_comma] at h
    obtain ⟨rest, -, rfl⟩ := map_cons_ok h
    exact ⟨rest, rfl⟩

/-- Plain fields read back as they are. -/
theorem fields_following {fs : List (List Char)} (h : AllPlain d fs) :
    d.fields (.plain f) (following d fs) = .ok (f :: fs) := by
  induction fs generalizing f with
  | nil => rfl
  | cons v vs ih =>
    have hplain := h v vs List.suffix_rfl
    show d.fields _ (d.comma :: ' ' :: (v ++ following d vs)) = _
    rw [fields_comma, fields_start_append (follows_following vs) hplain,
      ih fun w ws hw => h w ws (hw.trans (List.suffix_cons v vs))]
    rfl

end Plain

/-! ## What a record takes from its text -/

section Bounds

variable {d : Dialect} {st st' : Field} {c : Char} {cs : List Char} {out : List (List Char)}

/-- What a character does to the field that is being read, where it does not end it. -/
inductive Moves (d : Dialect) : Field → Char → Field → Prop
  | skips (st : Field) : Moves d st '\r' st
  | spaces {c : Char} (h : d.isSpace c = true) : Moves d .start c .start
  | opens : Moves d .start '"' (.quoted [])
  | first {c : Char} (h : Inert d [c]) : Moves d .start c (.plain [c])
  | next {f : List Char} {c : Char} (h : Inert d [c]) : Moves d (.plain f) c (.plain (f ++ [c]))
  | inside {f : List Char} {c : Char} (h : c ≠ '"') : Moves d (.quoted f) c (.quoted (f ++ [c]))
  | closes {f : List Char} : Moves d (.quoted f) '"' (.closing f)
  | doubles {f : List Char} {c : Char} (h : c = '"') : Moves d (.closing f) c (.quoted (f ++ [c]))

/-- The field is in quotes that are still open. -/
def Field.Open : Field → Prop
  | quoted _ => True
  | _ => False

theorem inert_singleton (hquote : c ≠ '"') (hcomma : c ≠ d.comma) (hnl : c ≠ '\n') :
    Inert d [c] := by
  intro c' hc'
  rw [List.mem_singleton.mp hc']
  exact ⟨hquote, hcomma, hnl⟩

theorem eq_cr_of_skipped (h : skipped c cs = true) : c = '\r' :=
  of_decide_eq_true (Bool.and_eq_true_iff.mp h).1

/-- One character: it moves on, or it is the comma after the field, or the end of the line. -/
theorem fields_cons (h : d.fields st (c :: cs) = .ok out) :
    (∃ st', Moves d st c st' ∧ d.fields st' cs = .ok out) ∨
    (c = d.comma ∧ ¬ st.Open ∧
      ∃ rest, d.fields .start cs = .ok rest ∧ out = st.content :: rest) ∨
    (c = '\n' ∧ ¬ st.Open ∧ out = [st.content]) := by
  cases st with
  | start =>
    unfold Dialect.fields at h
    split at h
    · next hskip => exact .inl ⟨_, eq_cr_of_skipped hskip ▸ .skips _, h⟩
    · split at h
      · next hnl => cases h; exact .inr (.inr ⟨hnl, id, rfl⟩)
      · next hnl =>
        split at h
        · next hspace => exact .inl ⟨_, .spaces hspace, h⟩
        · split at h
          · next hquote => exact .inl ⟨_, hquote ▸ .opens, h⟩
          · next hquote =>
            split at h
            · next hcomma => exact .inr (.inl ⟨hcomma, id, map_cons_ok h⟩)
            · next hcomma => exact .inl ⟨_, .first (inert_singleton hquote hcomma hnl), h⟩
  | plain f =>
    unfold Dialect.fields at h
    split at h
    · next hskip => exact .inl ⟨_, eq_cr_of_skipped hskip ▸ .skips _, h⟩
    · split at h
      · next hnl => cases h; exact .inr (.inr ⟨hnl, id, rfl⟩)
      · next hnl =>
        split at h
        · cases h
        · next hquote =>
          split at h
          · next hcomma => exact .inr (.inl ⟨hcomma, id, map_cons_ok h⟩)
          · next hcomma => exact .inl ⟨_, .next (inert_singleton hquote hcomma hnl), h⟩
  | quoted f =>
    unfold Dialect.fields at h
    split at h
    · next hskip => exact .inl ⟨_, eq_cr_of_skipped hskip ▸ .skips _, h⟩
    · split at h
      · next hquote => exact .inl ⟨_, hquote ▸ .closes, h⟩
      · next hquote => exact .inl ⟨_, .inside hquote, h⟩
  | closing f =>
    unfold Dialect.fields at h
    split at h
    · next hskip => exact .inl ⟨_, eq_cr_of_skipped hskip ▸ .skips _, h⟩
    · split at h
      · next hquote => exact .inl ⟨_, .doubles hquote, hquote ▸ h⟩
      · split at h
        · next hcomma => exact .inr (.inl ⟨hcomma, id, map_cons_ok h⟩)
        · split at h
          · next hnl => cases h; exact .inr (.inr ⟨hnl, id, rfl⟩)
          · cases h

theorem fields_nil (h : d.fields st [] = .ok out) : ¬ st.Open ∧ out = [st.content] := by
  cases st with
  | quoted f => cases h
  | _ => cases h; exact ⟨id, rfl⟩

theorem Moves.content (h : Moves d st c st') :
    st'.content = st.content ∨ st'.content = st.content ++ [c] := by
  cases h with
  | first | next | inside | doubles => exact .inr rfl
  | skips | spaces | opens | closes => exact .inl rfl

/-- The fields are made of characters of the text, in their order. -/
theorem flatten_sublist (h : d.fields st cs = .ok out) :
    out.flatten.Sublist (st.content ++ cs) := by
  induction cs generalizing st out with
  | nil =>
    obtain ⟨-, rfl⟩ := fields_nil h
    exact List.Sublist.refl _
  | cons c cs ih =>
    rcases fields_cons h with ⟨st', hmoves, h⟩ | ⟨-, -, rest, hrest, rfl⟩ | ⟨-, -, rfl⟩
    · rcases hmoves.content with heq | heq
      · have hsub := ih h
        rw [heq] at hsub
        exact hsub.trans (List.Sublist.append_left (List.sublist_cons_self c cs) _)
      · have hsub := ih h
        rw [heq, List.append_assoc] at hsub
        exact hsub
    · have hsub := (ih hrest).trans (List.sublist_cons_self c cs)
      exact List.Sublist.append_left hsub _
    · rw [List.flatten_singleton]
      exact List.sublist_append_left _ _

theorem count_le (h : d.fields st cs = .ok out) (a : Char) :
    out.flatten.count a ≤ st.content.count a + cs.count a := by
  have hle := (flatten_sublist h).count_le a
  rwa [List.count_append] at hle

/-- A quote in the text, or one that is open, is lost. -/
theorem count_quote_lt (h : d.fields st cs = .ok out) (hquote : st.Open ∨ '"' ∈ cs) :
    out.flatten.count '"' < st.content.count '"' + cs.count '"' := by
  induction cs generalizing st out with
  | nil =>
    obtain ⟨hopen, -⟩ := fields_nil h
    exact absurd (hquote.resolve_right List.not_mem_nil) hopen
  | cons c cs ih =>
    rcases fields_cons h with ⟨st', hmoves, h⟩ | ⟨hc, hopen, rest, hrest, rfl⟩ | ⟨hc, hopen, rfl⟩
    · have hle := count_le h '"'
      rw [List.count_cons]
      rw [List.mem_cons] at hquote
      cases hmoves with
      | skips =>
        have hrest : '"' ≠ '\r' := by decide
        have := ih h (by simpa [hrest] using hquote)
        omega
      | spaces hspace =>
        by_cases hc : c = '"'
        · rw [if_pos (beq_iff_eq.mpr hc)]
          omega
        · have := ih h (by simpa [Ne.symm hc, Field.Open] using hquote)
          omega
      | opens =>
        have := ih h (.inl trivial)
        simp only [Field.content] at this ⊢
        omega
      | first hinert =>
        have hc := (hinert c List.mem_cons_self).1
        have := ih h (by simpa [Ne.symm hc, Field.Open] using hquote)
        simp only [Field.content, List.count_singleton] at this ⊢
        omega
      | next hinert =>
        have hc := (hinert c List.mem_cons_self).1
        have := ih h (by simpa [Ne.symm hc, Field.Open] using hquote)
        simp only [Field.content, List.count_append, List.count_singleton] at this ⊢
        omega
      | inside hc =>
        have := ih h (.inl trivial)
        simp only [Field.content, List.count_append, List.count_singleton] at this ⊢
        omega
      | closes =>
        simp only [Field.content, beq_self_eq_true, if_true] at hle ⊢
        omega
      | doubles =>
        have := ih h (.inl trivial)
        simp only [Field.content, List.count_append, List.count_singleton] at this ⊢
        omega
    · have hcs : '"' ∈ cs := by
        refine (List.mem_cons.mp (hquote.resolve_left hopen)).resolve_left fun heq => ?_
        exact d.comma_ne.1 (hc.symm.trans heq.symm)
      have := ih hrest (.inr hcs)
      simp only [Field.content, List.count_nil] at this
      rw [List.flatten_cons, List.count_append, List.count_cons]
      omega
    · have hcs : '"' ∈ cs := by
        refine (List.mem_cons.mp (hquote.resolve_left hopen)).resolve_left fun heq => ?_
        exact absurd (heq.trans hc) (by decide)
      have := List.count_pos_iff.mpr hcs
      rw [List.flatten_singleton, List.count_cons]
      omega

/-- Without quotes no field has a comma in it. -/
theorem comma_notMem (h : d.fields st cs = .ok out) (hquote : '"' ∉ cs)
    (hst : st = .start ∨ ∃ f, st = .plain f ∧ d.comma ∉ f) : ∀ f ∈ out, d.comma ∉ f := by
  have hcontent : d.comma ∉ st.content := by
    rcases hst with rfl | ⟨f, rfl, hf⟩
    · exact List.not_mem_nil
    · exact hf
  induction cs generalizing st out with
  | nil =>
    obtain ⟨-, rfl⟩ := fields_nil h
    intro f hf
    rwa [List.mem_singleton.mp hf]
  | cons c cs ih =>
    obtain ⟨hc, hcs⟩ : '"' ≠ c ∧ '"' ∉ cs := by simpa using hquote
    rcases fields_cons h with ⟨st', hmoves, h⟩ | ⟨-, -, rest, hrest, rfl⟩ | ⟨-, -, rfl⟩
    · cases hmoves with
      | skips => exact ih h hcs hst hcontent
      | spaces hspace => exact ih h hcs (.inl rfl) List.not_mem_nil
      | opens => exact absurd rfl hc
      | first hinert =>
        have hcomma : d.comma ∉ [c] := fun hmem =>
          (hinert c List.mem_cons_self).2.1 (List.mem_singleton.mp hmem).symm
        exact ih h hcs (.inr ⟨_, rfl, hcomma⟩) hcomma
      | @next f c hinert =>
        have hcomma : d.comma ∉ f ++ [c] := by
          rw [List.mem_append, not_or]
          exact ⟨hcontent, fun hmem =>
            (hinert c List.mem_cons_self).2.1 (List.mem_singleton.mp hmem).symm⟩
        exact ih h hcs (.inr ⟨_, rfl, hcomma⟩) hcomma
      | inside hq => simp at hst
      | closes => exact absurd rfl hc
      | doubles hq => exact absurd hq.symm hc
    · intro f hf
      rcases List.mem_cons.mp hf with rfl | hf
      · exact hcontent
      · exact ih hrest hcs (.inl rfl) List.not_mem_nil f hf
    · intro f hf
      rwa [List.mem_singleton.mp hf]

/-- The text between the fields has neither quotes nor letters of its own. -/
theorem count_following {a : Char} (hcomma : a ≠ d.comma) (hblank : a ≠ ' ')
    (fs : List (List Char)) : (following d fs).count a = fs.flatten.count a := by
  induction fs with
  | nil => rfl
  | cons f fs ih =>
    show List.count a (d.comma :: ' ' :: (f ++ following d fs)) = _
    rw [List.count_cons_of_ne hcomma.symm, List.count_cons_of_ne hblank.symm, List.count_append, ih,
      List.flatten_cons, List.count_append]

/-- No quote is gained, and where none is lost there is none. -/
theorem quotes_le {f : List Char} {vs : List (List Char)}
    (h : d.fields (.plain f) (following d vs) = .ok (f :: out)) :
    out.flatten.count '"' ≤ vs.flatten.count '"' ∧
      (out.flatten.count '"' = vs.flatten.count '"' → '"' ∉ vs.flatten) := by
  have hcount := count_following d.comma_ne.1.symm (by decide : '"' ≠ ' ') vs
  have hle := count_le h '"'
  simp only [List.flatten_cons, List.count_append, Field.content] at hle
  refine ⟨by omega, fun heq hmem => ?_⟩
  have hquote : '"' ∈ following d vs := by
    rw [← List.count_pos_iff, hcount]
    exact List.count_pos_iff.mpr hmem
  have hlt := count_quote_lt h (.inr hquote)
  simp only [List.flatten_cons, List.count_append, Field.content] at hlt
  omega

/-- Where there are no quotes no comma is left. -/
theorem commas_eq_zero {f : List Char} {vs : List (List Char)} (hf : d.comma ∉ f)
    (h : d.fields (.plain f) (following d vs) = .ok (f :: out)) (hquote : '"' ∉ vs.flatten) :
    d.comma ∉ out.flatten := by
  have htext : '"' ∉ following d vs := by
    rw [← List.count_eq_zero, count_following d.comma_ne.1.symm (by decide)]
    exact List.count_eq_zero.mpr hquote
  have hnone := comma_notMem h htext (.inr ⟨f, rfl, hf⟩)
  intro hmem
  obtain ⟨g, hg, hcomma⟩ := List.mem_flatten.mp hmem
  exact hnone g (List.mem_cons_of_mem _ hg) hcomma

end Bounds

/-! ## What reads back to itself -/

section Weight

variable {d : Dialect} {f g v rest : List Char} {vs out : List (List Char)}

/-- The characters of the fields and their number. -/
def weight (fs : List (List Char)) : Nat := (fs.map fun f => f.length + 1).sum

@[simp] theorem weight_cons (f : List Char) (fs : List (List Char)) :
    weight (f :: fs) = f.length + 1 + weight fs := by
  rw [weight, List.map_cons, List.sum_cons]
  rfl

/-- Leaving fields out makes a record lighter. -/
theorem weight_le_of_sublist {fs gs : List (List Char)} (h : fs.Sublist gs) :
    weight fs ≤ weight gs := by
  induction h with
  | slnil => exact Nat.le_refl _
  | cons g h ih =>
    rw [weight_cons]
    omega
  | cons_cons g h ih =>
    rw [weight_cons, weight_cons]
    omega

theorem eq_of_sublist {fs gs : List (List Char)} (h : fs.Sublist gs)
    (heq : weight fs = weight gs) : fs = gs := by
  induction h with
  | slnil => rfl
  | cons g h ih =>
    have := weight_le_of_sublist h
    rw [weight_cons] at heq
    omega
  | cons_cons g h ih =>
    rw [weight_cons, weight_cons] at heq
    rw [ih (by omega)]

/-- A piece without quotes and commas is taken into the field, which is read on or ends in it. -/
theorem plain_piece (hv : ∀ c ∈ v, c ≠ '"' ∧ c ≠ d.comma) :
    (∃ w, d.fields (.plain g) (v ++ rest) = d.fields (.plain (g ++ w)) rest ∧
      w.length ≤ v.length ∧
      (w.length = v.length → Inert d v ∧ (rest = [] → v.getLast? ≠ some '\r'))) ∨
    (∃ w, d.fields (.plain g) (v ++ rest) = .ok [g ++ w] ∧ w.length < v.length) := by
  induction v generalizing g with
  | nil =>
    refine .inl ⟨[], by rw [List.append_nil, List.nil_append], Nat.le_refl _, fun _ => ⟨?_, ?_⟩⟩
    · intro c hc
      cases hc
    · intro _ h
      cases h
  | cons c v ih =>
    obtain ⟨hquote, hcomma⟩ := hv c List.mem_cons_self
    have ih := fun g => @ih g fun c' hc' => hv c' (List.mem_cons_of_mem _ hc')
    rw [List.cons_append, Dialect.fields]
    by_cases hskip : skipped c (v ++ rest) = true
    · rw [if_pos hskip]
      rcases ih g with ⟨w, heq, hle, -⟩ | ⟨w, heq, hlt⟩
      · refine .inl ⟨w, heq, Nat.le_succ_of_le hle, fun h => ?_⟩
        rw [List.length_cons] at h
        omega
      · exact .inr ⟨w, heq, Nat.lt_succ_of_lt hlt⟩
    · rw [if_neg hskip]
      by_cases hnl : c = '\n'
      · rw [if_pos hnl]
        exact .inr ⟨[], by rw [List.append_nil], Nat.succ_pos _⟩
      · rw [if_neg hnl, if_neg hquote, if_neg hcomma]
        rcases ih (g ++ [c]) with ⟨w, heq, hle, hkept⟩ | ⟨w, heq, hlt⟩
        · rw [List.append_assoc] at heq
          refine .inl ⟨c :: w, heq, Nat.succ_le_succ hle, fun h => ?_⟩
          obtain ⟨hinert, hlast⟩ := hkept (Nat.succ.inj h)
          refine ⟨?_, fun hnil => ?_⟩
          · intro c' hc'
            rcases List.mem_cons.mp hc' with rfl | hc'
            · exact ⟨hquote, hcomma, hnl⟩
            · exact hinert c' hc'
          · cases v with
            | nil =>
              intro hcr
              cases hcr
              rw [hnil] at hskip
              exact hskip rfl
            | cons c' v =>
              rw [List.getLast?_cons_cons]
              exact hlast hnil
        · rw [List.append_assoc] at heq
          exact .inr ⟨c :: w, heq, Nat.succ_lt_succ hlt⟩

theorem fields_start_eq (hrest : Follows d rest) :
    d.fields .start rest = d.fields (.plain []) rest := by
  rcases hrest with rfl | ⟨cs, rfl⟩
  · rfl
  · obtain ⟨hquote, hcr, hnl⟩ := d.comma_ne
    rw [Dialect.fields, Dialect.fields]
    simp [skipped_of_ne hcr, hnl, hquote, d.comma_not_space]

/-- The same for a whole value, at the start of its field. -/
theorem start_piece (hrest : Follows d rest) (hv : ∀ c ∈ v, c ≠ '"' ∧ c ≠ d.comma) :
    (∃ w, d.fields .start (v ++ rest) = d.fields (.plain w) rest ∧ w.length ≤ v.length ∧
      (w.length = v.length → v ≠ [] → Plain d v rest)) ∨
    (∃ w, d.fields .start (v ++ rest) = .ok [w] ∧ w.length < v.length) := by
  induction v with
  | nil =>
    exact .inl ⟨[], fields_start_eq hrest, Nat.le_refl _, fun _ h => absurd rfl h⟩
  | cons c v ih =>
    obtain ⟨hquote, hcomma⟩ := hv c List.mem_cons_self
    have hv' := fun c' (hc' : c' ∈ v) => hv c' (List.mem_cons_of_mem _ hc')
    have ih := ih hv'
    have hshorter : ((∃ w, d.fields .start (v ++ rest) = d.fields (.plain w) rest ∧
          w.length ≤ (c :: v).length ∧
          (w.length = (c :: v).length → c :: v ≠ [] → Plain d (c :: v) rest)) ∨
        (∃ w, d.fields .start (v ++ rest) = .ok [w] ∧ w.length < (c :: v).length)) := by
      rcases ih with ⟨w, heq, hle, -⟩ | ⟨w, heq, hlt⟩
      · refine .inl ⟨w, heq, Nat.le_succ_of_le hle, fun h => ?_⟩
        rw [List.length_cons] at h
        omega
      · exact .inr ⟨w, heq, Nat.lt_succ_of_lt hlt⟩
    rw [List.cons_append, Dialect.fields]
    by_cases hskip : skipped c (v ++ rest) = true
    · rw [if_pos hskip]
      exact hshorter
    · rw [if_neg hskip]
      by_cases hnl : c = '\n'
      · rw [if_pos hnl]
        exact .inr ⟨[], rfl, Nat.succ_pos _⟩
      · rw [if_neg hnl]
        by_cases hspace : d.isSpace c = true
        · rw [if_pos hspace]
          exact hshorter
        · rw [if_neg hspace, if_neg hquote, if_neg hcomma]
          rcases plain_piece (g := [c]) hv' with ⟨w, heq, hle, hkept⟩ | ⟨w, heq, hlt⟩
          · refine .inl ⟨c :: w, heq, Nat.succ_le_succ hle, fun h _ => ?_⟩
            obtain ⟨hinert, hlast⟩ := hkept (Nat.succ.inj h)
            refine ⟨List.cons_ne_nil _ _, ?_, ?_, fun hnil => ?_⟩
            · intro c' hc'
              rcases List.mem_cons.mp hc' with rfl | hc'
              · exact ⟨hquote, hcomma, hnl⟩
              · exact hinert c' hc'
            · intro c' hc'
              cases hc'
              exact Bool.not_eq_true _ ▸ hspace
            · cases v with
              | nil =>
                intro hcr
                cases hcr
                rw [hnil] at hskip
                exact hskip rfl
              | cons c' v =>
                rw [List.getLast?_cons_cons]
                exact hlast hnil
          · exact .inr ⟨c :: w, heq, Nat.succ_lt_succ hlt⟩

theorem weight_le (h : d.fields (.plain f) (following d vs) = .ok out)
    (hvs : ∀ v ∈ vs, v ≠ [] ∧ ∀ c ∈ v, c ≠ '"' ∧ c ≠ d.comma) :
    weight out ≤ weight (f :: vs) ∧ (weight out = weight (f :: vs) → AllPlain d vs) := by
  induction vs generalizing f out with
  | nil =>
    cases h
    refine ⟨Nat.le_refl _, fun _ v vs hsuffix => ?_⟩
    cases List.suffix_nil.mp hsuffix
  | cons v vs ih =>
    have hvs' := fun v' (hv' : v' ∈ vs) => hvs v' (List.mem_cons_of_mem _ hv')
    obtain ⟨hne, hv⟩ := hvs v List.mem_cons_self
    change d.fields _ (d.comma :: ' ' :: (v ++ following d vs)) = _ at h
    rw [fields_comma] at h
    obtain ⟨out, hout, rfl⟩ := map_cons_ok h
    simp only [weight_cons]
    rcases start_piece (follows_following vs) hv with ⟨w, heq, hle, hkept⟩ | ⟨w, heq, hlt⟩
    · obtain ⟨hweight, hplain⟩ := ih (heq ▸ hout) hvs'
      rw [weight_cons] at hweight hplain
      exact ⟨by omega, fun htotal => allPlain_cons.mpr ⟨hkept (by omega) hne, hplain (by omega)⟩⟩
    · cases heq.symm.trans hout
      have hnil : weight ([] : List (List Char)) = 0 := rfl
      simp only [weight_cons, hnil]
      exact ⟨by omega, fun htotal => by omega⟩

end Weight

end Cassem.Lib.CSV
