import Mathlib.Data.String.Basic

/-!
# Splitting a string at a character

`String.splitOn` goes over byte positions. With a separator of one character it gives the fields
of the list of characters.
-/

namespace Cassem.Lib

open String

/-- From the end of `l ++ m` on, where the field that is read began at the end of `l`. -/
theorem splitOnAux_char (c : Char) (r l m : List Char) (acc : List String) :
    splitOnAux (ofList (l ++ m ++ r)) (ofList [c]) ⟨utf8Len l⟩ ⟨utf8Len (l ++ m)⟩ 0 acc =
      acc.reverse ++ (List.splitOnPPrepend (· == c) r m.reverse).map ofList := by
  have hextract : ∀ l m r : List Char, Pos.Raw.extract (ofList (l ++ m ++ r)) ⟨utf8Len l⟩
      ⟨utf8Len (l ++ m)⟩ = ofList m := by
    intro l m r
    rw [utf8Len_append]
    exact extract_of_valid l m r
  induction r generalizing l m acc with
  | nil =>
    rw [splitOnAux, if_pos ((atEnd_of_valid (l ++ m) []).mpr rfl)]
    dsimp only
    rw [hextract, List.reverse_cons]
    simp
  | cons d r ih =>
    have hend : ¬ Pos.Raw.atEnd (ofList (l ++ m ++ d :: r)) ⟨utf8Len (l ++ m)⟩ = true :=
      fun h => List.cons_ne_nil d r ((atEnd_of_valid (l ++ m) (d :: r)).mp h)
    have hget : Pos.Raw.get (ofList (l ++ m ++ d :: r)) ⟨utf8Len (l ++ m)⟩ = d :=
      get_of_valid (l ++ m) (d :: r)
    have hnext : Pos.Raw.next (ofList (l ++ m ++ d :: r)) ⟨utf8Len (l ++ m)⟩ =
        ⟨utf8Len (l ++ m ++ [d])⟩ := by
      rw [next_of_valid (l ++ m) d r, utf8Len_append (l ++ m) [d]]
      simp
    have hsep : Pos.Raw.get (ofList [c]) 0 = c := get_of_valid [] [c]
    have hsepNext : Pos.Raw.next (ofList [c]) 0 = ⟨utf8Len [c]⟩ := by
      simpa using next_of_valid [] c []
    have hsepEnd : Pos.Raw.atEnd (ofList [c]) ⟨utf8Len [c]⟩ = true :=
      (atEnd_of_valid [c] []).mpr rfl
    rw [splitOnAux, if_neg hend, hget, hsep, hnext, hsepNext, List.splitOnPPrepend_cons_eq_if]
    dsimp only
    rw [if_pos hsepEnd]
    by_cases h : (d == c) = true
    · rw [if_pos h, if_pos h]
      have hback : Pos.Raw.unoffsetBy ⟨utf8Len (l ++ m ++ [d])⟩ ⟨utf8Len [c]⟩ =
          ⟨utf8Len (l ++ m)⟩ := by
        rw [eq_of_beq h, utf8Len_append (l ++ m)]
        simp [Pos.Raw.unoffsetBy]
      have hrest := ih (l ++ m ++ [d]) [] (ofList m :: acc)
      rw [hback, hextract]
      simp only [List.append_nil, List.append_assoc, List.cons_append, List.nil_append]
        at hrest ⊢
      rw [hrest]
      simp
    · rw [if_neg h, if_neg h]
      have hback : Pos.Raw.unoffsetBy ⟨utf8Len (l ++ m)⟩ 0 = ⟨utf8Len (l ++ m)⟩ := by
        simp [Pos.Raw.unoffsetBy]
      have hrest := ih l (m ++ [d]) acc
      rw [hback, hnext]
      simp only [List.append_assoc, List.singleton_append, List.reverse_append,
        List.reverse_singleton] at hrest ⊢
      exact hrest

theorem splitOn_char (s : String) (c : Char) :
    s.splitOn (ofList [c]) = (s.toList.splitOn c).map ofList := by
  have hne : ¬ (ofList [c] == "") = true := by
    rw [beq_iff_eq]
    intro h
    have htoList : [c] = [] := by simpa using congrArg toList h
    cases htoList
  have haux := splitOnAux_char c s.toList [] [] []
  simp only [List.append_nil, List.nil_append, ofList_toList] at haux
  rw [splitOn, if_neg hne]
  exact haux

end Cassem.Lib
