import Mathlib.Data.List.Basic

/-!
# Buffered channels

A channel holds the values that were sent and are not yet taken, in their order and up to its
capacity. A sender that finds no room waits, or gives up where it has something else to do.
-/

namespace Cassem.Lib

universe u

structure Chan (α : Type u) where
  cap : Nat
  waiting : List α := []
  closed : Bool := false
  deriving DecidableEq, Repr

namespace Chan

variable {α : Type u}

def HasRoom (c : Chan α) : Prop := c.waiting.length < c.cap

instance (c : Chan α) : Decidable c.HasRoom := inferInstanceAs (Decidable (_ < _))

def push (c : Chan α) (x : α) : Chan α := { c with waiting := c.waiting ++ [x] }

/-- A send with a default branch. -/
def offer (c : Chan α) (x : α) : Chan α := if c.HasRoom then c.push x else c

def take (c : Chan α) : Option (α × Chan α) :=
  match c.waiting with
  | [] => none
  | x :: rest => some (x, { c with waiting := rest })

def close (c : Chan α) : Chan α := { c with closed := true }

@[simp] theorem push_closed (c : Chan α) (x : α) : (c.push x).closed = c.closed := rfl

@[simp] theorem close_closed (c : Chan α) : c.close.closed = true := rfl

theorem take_eq_some {c c' : Chan α} {x : α} (h : c.take = some (x, c')) :
    c.waiting = x :: c'.waiting ∧ c'.cap = c.cap ∧ c'.closed = c.closed := by
  unfold take at h
  split at h
  · cases h
  · next x' rest hw =>
    cases h
    exact ⟨hw, rfl, rfl⟩

end Chan

end Cassem.Lib
