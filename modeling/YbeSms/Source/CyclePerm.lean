import YbeSms.Source.Domains
import Mathlib.Data.List.Sort

/-!
# The diagonals and their cycles

Source: ybe-sms/src/useful.cpp:89-311, main.cpp:300-311. `diagonals` is the list
`main` builds when no diagonal is given; `CyclePerm` is `cyclePerm_t`, of which
the checks read only `part`. The loops that run until a condition holds carry the
number of rounds they can take at most.
-/

namespace YbeSms.Source

variable {n : Nat}

/-- `part`: the partitions of `m` that continue the nondecreasing prefix `v`, without the ones. -/
def part : Nat → Nat → List Nat → List (List Nat)
  | 0, _, _ => []
  | rounds + 1, m, v =>
    if m < 1 then []
    else
      let p := (v ++ [m]).filter (· ≠ 1)
      let first := v.getLast?.getD 1
      (if p ≠ [] then [p] else []) ++
        (List.range' first (m / 2 + 1 - first)).flatMap fun i => part rounds (m - i) (v ++ [i])

/-- The points `toAdd, toAdd + 1, …` of one cycle. -/
def block (n toAdd size : Nat) : List (Fin n) :=
  (List.range size).filterMap fun k =>
    if h : k + toAdd < n then some ⟨k + toAdd, h⟩ else none

/-- The consecutive cycles of the given sizes, from the point `toAdd` on. -/
def blocks (n : Nat) : Nat → List Nat → List (List (Fin n))
  | _, [] => []
  | toAdd, size :: sizes => block n toAdd size :: blocks n (toAdd + size) sizes

/-- Write one cycle into the permutation: each point to the next, the last to the first. -/
def closeCycle (perm : Fin n → Fin n) : List (Fin n) → Fin n → Fin n
  | [] => perm
  | p :: ps => ((p :: ps).zip (ps ++ [p])).foldl (fun f q => Function.update f q.1 q.2) perm

/-- `makeDiagonals`: one permutation for each list of cycle lengths. -/
def makeDiagonals (n : Nat) (parts : List (List Nat)) : List (Fin n → Fin n) :=
  parts.map fun sizes => (blocks n 0 sizes).foldl closeCycle id

/-- The diagonals `main` goes through: the identity, then one for each partition. -/
def diagonals (n : Nat) : List (Fin n → Fin n) := id :: makeDiagonals n (part n n [])

/-- Inner loop of `permToCyclePerm`: follow the permutation until a point comes back. -/
def followCycle (perm : Fin n → Fin n) :
    Nat → Fin n → List (Fin n) → List (Fin n) → List (Fin n) × List (Fin n)
  | 0, _, cycle, all => (cycle, all)
  | rounds + 1, i, cycle, all =>
    if i ∈ cycle then (cycle, all)
    else followCycle perm rounds (perm i) (cycle ++ [i]) (all.erase i)

/-- Outer loop of `permToCyclePerm`: the least point left starts the next cycle. -/
def cyclesOf (perm : Fin n → Fin n) : Nat → List (Fin n) → List (List (Fin n))
  | 0, _ => []
  | rounds + 1, all =>
    match all.min? with
    | none => []
    | some i =>
      let r := followCycle perm (n + 1) i [] all
      r.1 :: cyclesOf perm rounds r.2

/-- `permToCyclePerm`. -/
def permToCyclePerm (perm : Fin n → Fin n) : List (List (Fin n)) :=
  cyclesOf perm n (List.finRange n)

/-- The points of the cycles of each length, for the lengths that occur. -/
def cycleClasses (cycles : List (List (Fin n))) : List (BitDomain n) :=
  ((List.range n).map fun len =>
    ((cycles.filter fun c => c.length == len + 1).flatten).foldl BitDomain.set
      (BitDomain.ofInit false)).filter fun b => b.options ≠ []

/-- The marks `cycleToParts` writes for one class: `true` for its first point. -/
def classMarks : List (Fin n) → List Bool
  | [] => []
  | _ :: rest => true :: rest.map fun _ => false

/-- `cycleToParts`: all points, class by class, and the marks of where a class starts. -/
def cycleToParts (cycles : List (List (Fin n))) : List (Fin n) × List Bool :=
  let parts := (cycleClasses cycles).insertionSort fun a b => a.firstel ≤ b.firstel
  (parts.flatMap BitDomain.options, parts.flatMap fun b => classMarks b.options)

/-- `cyclePerm_t(perm)`: the cycle length where a cycle starts, 0 elsewhere. -/
def cyclePart (perm : Fin n → Fin n) : List Nat :=
  (permToCyclePerm perm).flatMap fun cyc => cyc.length :: List.replicate (cyc.length - 1) 0

/-- The mark the loops below read at a position. -/
def marked (part : List Nat) (i : Fin n) : Bool := 0 < part.getD i 0

/-- `p`, the last marked position at or before `el`. -/
def cycleStart (part : List Nat) (el : Fin n) : Nat :=
  (List.finRange n).foldl (fun p i => if i ≤ el && marked part i then i.val else p) 0

/-- `cyclePerm_t::cycle(el)` for a point `el`. -/
def cycle (part : List Nat) (el : Fin n) : List (Fin n) :=
  let p := cycleStart part el
  if p = el ∧ (el.val + 1 = n ∨ 0 < part.getD (el.val + 1) 0) then [el]
  else
    ((List.finRange n).filter (fun i => el ≤ i)).takeWhile
        (fun i => !(decide (i.val ≠ p) && marked part i)) ++
      (List.finRange n).filter (fun i => p ≤ i.val && i < el)

/-- `cyclePerm_t::cycle` for the value of `permOf`, which may be missing (`-1`): the loop then
first reads `part[-1]`, and `before` says whether that cell holds a positive number. -/
def cycleOfImage (part : List Nat) (before : Bool) : Option (Fin n) → List (Option (Fin n))
  | some el => (cycle part el).map some
  | none =>
    if before then []
    else none :: ((List.finRange n).takeWhile
      (fun i => !(decide (i.val ≠ 0) && marked part i))).map some

end YbeSms.Source
