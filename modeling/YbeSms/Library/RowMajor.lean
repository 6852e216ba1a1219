import Mathlib.Order.PiLex
import Mathlib.Data.Prod.Lex
import Mathlib.Algebra.Group.End

/-!
# Tables read row by row

A table over a linear order is compared with another at the first cell, row by
row, where they differ. A permutation of the points relabels a table; a table is
least under a set of permutations when no relabelling by one of them is smaller.
-/

namespace YbeSms.Library

open Equiv

variable {X : Type}

/-- The cells of a table row by row. -/
def rowMajor (M : X → X → X) : Lex (X ×ₗ X → X) := toLex fun q => M (ofLex q).1 (ofLex q).2

/-- The relabelled table `p.N`. -/
def act (p : Perm X) (N : X → X → X) : X → X → X := fun i j => p.symm (N (p i) (p j))

@[simp] theorem act_one (N : X → X → X) : act 1 N = N := rfl

theorem act_act (p q : Perm X) (N : X → X → X) : act p (act q N) = act (q * p) N := rfl

@[simp] theorem act_inv_act (p : Perm X) (N : X → X → X) : act p⁻¹ (act p N) = N := by
  rw [act_act, mul_inv_cancel, act_one]

section Order

variable [LinearOrder X]

/-- No relabelling by a permutation that commutes with `d` is smaller. -/
def LeastUnder (d : Perm X) (N : X → X → X) : Prop :=
  ∀ p : Perm X, Commute p d → rowMajor N ≤ rowMajor (act p N)

/-- Identity rows stay the same under every relabelling. -/
theorem leastUnder_identityRows (d : Perm X) : LeastUnder d fun _ j => j := by
  intro p _
  have hsame : act p (fun _ j : X => j) = fun _ j => j := by
    funext i j
    exact p.symm_apply_apply j
  rw [hsame]

instance decidableLexLt (a b : X × X) : Decidable (toLex a < toLex b) :=
  decidable_of_iff _ Prod.Lex.toLex_lt_toLex.symm

theorem rowMajor_lt_iff (M N : X → X → X) :
    rowMajor M < rowMajor N ↔
      ∃ q : X × X, (∀ q' : X × X, toLex q' < toLex q → M q'.1 q'.2 = N q'.1 q'.2) ∧
        M q.1 q.2 < N q.1 q.2 :=
  Iff.rfl

variable [WellFoundedLT X]

/-- Cells that are at most the other's, and one that is smaller. -/
theorem rowMajor_lt_of_le {M N : X → X → X} {q : X × X}
    (hle : ∀ q' : X × X, toLex q' < toLex q → M q'.1 q'.2 ≤ N q'.1 q'.2)
    (hlt : M q.1 q.2 < N q.1 q.2) : rowMajor M < rowMajor N := by
  rw [rowMajor_lt_iff]
  -- the first cell where the tables differ decides
  have hwf : WellFounded fun a b : X × X => toLex a < toLex b :=
    (wellFounded_lt (α := X ×ₗ X)).onFun
  obtain ⟨first, hfirst, hmin⟩ := hwf.has_min {q' | M q'.1 q'.2 ≠ N q'.1 q'.2} ⟨q, hlt.ne⟩
  have hsame : ∀ q' : X × X, toLex q' < toLex first → M q'.1 q'.2 = N q'.1 q'.2 := by
    intro q' hq'
    by_contra hne
    exact hmin q' hne hq'
  refine ⟨first, hsame, ?_⟩
  rcases lt_trichotomy (toLex first) (toLex q) with hbefore | heq | hafter
  · exact lt_of_le_of_ne (hle first hbefore) hfirst
  · obtain rfl := toLex.injective heq
    exact hlt
  · exact absurd (hsame q hafter) hlt.ne

theorem rowMajor_le_iff (M N : X → X → X) :
    rowMajor M ≤ rowMajor N ↔
      ∀ q : X × X, (∀ q' : X × X, toLex q' < toLex q → M q'.1 q'.2 = N q'.1 q'.2) →
        M q.1 q.2 ≤ N q.1 q.2 := by
  refine (not_lt.symm.trans (not_congr (rowMajor_lt_iff N M))).trans ?_
  push Not
  constructor
  · intro h q hq
    exact h q fun q' hq' => (hq q' hq').symm
  · intro h q hq
    exact h q fun q' hq' => (hq q' hq').symm

/-- Compare two tables on a list of cells, up to the first difference. -/
def atMostOn (M N : X → X → X) : List (X × X) → Bool
  | [] => true
  | q :: rest =>
    if M q.1 q.2 < N q.1 q.2 then true
    else if M q.1 q.2 = N q.1 q.2 then atMostOn M N rest else false

/-- On all cells in order this is the order of the tables. -/
theorem rowMajor_le_of_atMostOn {M N : X → X → X} {l : List (X × X)}
    (hsorted : l.Pairwise fun a b => toLex a < toLex b) (hall : ∀ q, q ∈ l)
    (h : atMostOn M N l = true) : rowMajor M ≤ rowMajor N := by
  rw [rowMajor_le_iff]
  intro q hbefore
  have hgo : ∀ rest : List (X × X), rest.Pairwise (fun a b => toLex a < toLex b) → q ∈ rest →
      atMostOn M N rest = true → M q.1 q.2 ≤ N q.1 q.2 := by
    intro rest
    induction rest with
    | nil => exact fun _ hq => absurd hq List.not_mem_nil
    | cons a rest ih =>
      intro hpair hq hcmp
      obtain ⟨hfirst, hpair⟩ := List.pairwise_cons.mp hpair
      unfold atMostOn at hcmp
      rcases List.mem_cons.mp hq with rfl | hq
      · split at hcmp
        next hlt => exact hlt.le
        next =>
          split at hcmp
          next heq => exact heq.le
          next => exact absurd hcmp (by simp)
      · have heq : M a.1 a.2 = N a.1 a.2 := hbefore a (hfirst q hq)
        rw [if_neg heq.not_lt, if_pos heq] at hcmp
        exact ih hpair hq hcmp
  exact hgo l hsorted (hall q) h

end Order

end YbeSms.Library
