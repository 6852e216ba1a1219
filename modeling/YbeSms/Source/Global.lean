import YbeSms.Source.Domains
import Mathlib.Data.List.ProdSigma

/-!
# Settings and the partial cycle set

Source: ybe-sms/src/global.h, main.cpp:10-38 (defaults) and useful.h:24-62.
`problem_size` is the parameter `n`. Vectors of length `n` are functions on
`Fin n`; an `int` that is a value or `-1` is an `Option`. Statistics, logging,
file names and time limits are not modelled.
-/

namespace YbeSms.Source

/-- The command-line settings the modelled functions read. -/
structure Config where
  allModels : Bool := false
  diagPart : Bool := false
  fixedRow : Int := 0
  numToFix : Nat := 0
  propagateMincheck : Bool := false
  oldBreakingClauses : Bool := false
  propagateLiteralsCadical : Bool := false
  checkSolutionInProp : Bool := false
  smallerEncoding : Bool := false
  useBit : Bool := false
  noCommander : Bool := false
  maxDepth : Int := 2147483647
  maxMC : Int := 2147483647

/-- `truth_vals`. -/
inductive TruthVal where
  | isTrue | isFalse | unknown
  deriving DecidableEq, Repr

/-- `matrixLits_t`: the variable of each entry, 0 where there is none. -/
abbrev MatrixLits (n : Nat) := Fin n → Fin n → Fin n → Int

/-- The entry `(i, j, k)` says that cell `(i, j)` has value `k`. -/
abbrev Entry (n : Nat) := Fin n × Fin n × Fin n

/-- All cells in the order of the loops `for i, for j`. -/
def cells (n : Nat) : List (Fin n × Fin n) := List.finRange n ×ˢ List.finRange n

/-- All entries in the order of the loops `for i, for j, for k`. -/
def entries (n : Nat) : List (Entry n) := List.finRange n ×ˢ cells n

/-- `cycle_set_t`, without the copy of the literal table it carries. -/
structure CycleSet (n : Nat) where
  matrix : Fin n → Fin n → Option (Fin n)
  assignments : Fin n → Fin n → Fin n → TruthVal
  bitdomains : Fin n → Fin n → BitDomain n

/-- The constructor `cycle_set_t(problem_size, lits)`. -/
def CycleSet.init (n : Nat) : CycleSet n where
  matrix _ _ := none
  assignments _ _ _ := .unknown
  bitdomains _ _ := .ofInit true

variable {n : Nat}

theorem mem_nested {α β : Type} (l : List α) (m : List β) (p : α × β) :
    p ∈ l ×ˢ m ↔ p.1 ∈ l ∧ p.2 ∈ m := List.mem_product

@[simp] theorem mem_cells (c : Fin n × Fin n) : c ∈ cells n :=
  List.mem_product.mpr ⟨List.mem_finRange _, List.mem_finRange _⟩

@[simp] theorem mem_entries (e : Entry n) : e ∈ entries n :=
  List.mem_product.mpr ⟨List.mem_finRange _, mem_cells _⟩

theorem nodup_cells (n : Nat) : (cells n).Nodup :=
  (List.nodup_finRange n).product (List.nodup_finRange n)

theorem nodup_entries (n : Nat) : (entries n).Nodup :=
  (List.nodup_finRange n).product (nodup_cells n)

end YbeSms.Source
