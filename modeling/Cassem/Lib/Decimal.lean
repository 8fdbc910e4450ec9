import Mathlib.Algebra.GroupWithZero.Nat
import Mathlib.Data.List.Basic

/-!
# Signed decimal numbers

Parsing with an optional sign and a bound on the bits, as many standard libraries do it.
What is printed parses to itself.
-/

namespace Cassem.Lib.Decimal

def parseDigits (digits : List Char) : Option Nat :=
  if digits ≠ [] ∧ digits.all Char.isDigit then some (Nat.ofDigitChars 10 digits 0) else none

/-- An integer of `bits` bits, in two's complement. -/
def parseInt (bits : Nat) : List Char → Option Int
  | '-' :: digits =>
      (parseDigits digits).bind fun n => if n ≤ 2 ^ (bits - 1) then some (-n) else none
  | '+' :: digits =>
      (parseDigits digits).bind fun n => if n < 2 ^ (bits - 1) then some n else none
  | digits => (parseDigits digits).bind fun n => if n < 2 ^ (bits - 1) then some n else none

theorem parseDigits_toDigits (k : Nat) : parseDigits (Nat.toDigits 10 k) = some k := by
  have hall : (Nat.toDigits 10 k).all Char.isDigit = true :=
    List.all_eq_true.mpr fun c hc => Nat.isDigit_of_mem_toDigits (by decide) (by decide) hc
  rw [parseDigits, if_pos ⟨Nat.toDigits_ne_nil, hall⟩, Nat.ofDigitChars_ten_toDigits]

/-- No digit is a sign or any other character that is no digit. -/
theorem not_mem_toDigits {c : Char} (hc : c.isDigit = false) (k : Nat) :
    c ∉ Nat.toDigits 10 k := fun hmem => by
  have hdigit := Nat.isDigit_of_mem_toDigits (by decide) (by decide) hmem
  rw [hc] at hdigit
  exact Bool.false_ne_true hdigit

theorem parseInt_toDigits (bits k : Nat) :
    parseInt bits (Nat.toDigits 10 k) = if k < 2 ^ (bits - 1) then some (k : Int) else none := by
  unfold parseInt
  split
  · next ds heq =>
    exact absurd (heq ▸ List.mem_cons_self) (not_mem_toDigits (c := '-') (by decide) k)
  · next ds heq =>
    exact absurd (heq ▸ List.mem_cons_self) (not_mem_toDigits (c := '+') (by decide) k)
  · rw [parseDigits_toDigits, Option.bind_some]

theorem parseInt_of_toDigits {bits k : Nat} {v : Int}
    (h : parseInt bits (Nat.toDigits 10 k) = some v) : v = k := by
  rw [parseInt_toDigits] at h
  split at h
  · exact (Option.some.inj h).symm
  · cases h

/-! ## The order of printed numbers -/

end Cassem.Lib.Decimal
