import Mathlib.Logic.Equiv.Basic
import Mathlib.Order.Lattice

/-!
# Non-degenerate cycle sets

What the program enumerates: square tables over a set of points whose rows are
permutations, whose diagonal is a permutation and which satisfy the cycle set
identity. With a prescribed diagonal the table must have exactly that diagonal.
-/

namespace YbeSms.Abstract

variable {X : Type}

/-- Every row of the table is a permutation. -/
def RowsPermute (M : X → X → X) : Prop := ∀ i, Function.Bijective (M i)

/-- The cycle set identity. -/
def CycleIdentity (M : X → X → X) : Prop :=
  ∀ i j k, M (M i j) (M i k) = M (M j i) (M j k)

/-- A non-degenerate cycle set. -/
structure IsCycleSet (M : X → X → X) : Prop where
  rows : RowsPermute M
  diagonal : Function.Bijective fun i => M i i
  identity : CycleIdentity M

/-- A cycle set with the prescribed diagonal `d`. -/
structure HasDiagonal (d : X → X) (M : X → X → X) : Prop where
  rows : RowsPermute M
  diagonal : ∀ i, M i i = d i
  identity : CycleIdentity M

theorem HasDiagonal.isCycleSet {d : X → X} {M : X → X → X} (h : HasDiagonal d M)
    (hd : Function.Bijective d) : IsCycleSet M where
  rows := h.rows
  diagonal := by
    have heq : (fun i => M i i) = d := funext h.diagonal
    rw [heq]
    exact hd
  identity := h.identity

/-- The identity is symmetric in its first two points, so one order of each pair suffices. -/
theorem cycleIdentity_of_lt [LinearOrder X] {M : X → X → X}
    (h : ∀ i j, i < j → ∀ k, M (M i j) (M i k) = M (M j i) (M j k)) : CycleIdentity M := by
  intro i j k
  rcases lt_trichotomy i j with hlt | rfl | hgt
  · exact h i j hlt k
  · rfl
  · exact (h j i hgt k).symm

end YbeSms.Abstract
