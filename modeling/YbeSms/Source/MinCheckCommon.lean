import YbeSms.Source.PartialPerm
import YbeSms.Library.Cnf

/-!
# Clauses against a permutation

Source: ybe-sms/src/minCheckCommon.cpp:9-40, 116-505. `addClauses` is the switch
between the two encoders; each returns the clause it throws, or `none` where the
source function returns without throwing. Logging is not modelled.
-/

namespace YbeSms.Source

open YbeSms.Library

variable {n : Nat}

/-- `preCheck`: a repeated value in a row, an empty domain or identity rows end the check. -/
def preCheck (cycset : CycleSet n) : Bool :=
  ((cells n).any fun c =>
    decide (1 < (List.finRange n).countP fun l => cycset.matrix c.2 l == some c.1) ||
      decide ((cycset.bitdomains c.1 c.2).numTrue = 0)) ||
  (cells n).all fun c => cycset.matrix c.1 c.2 == some c.2

/-- `permIsId`; the last image of a permutation is settled by the others. -/
def permIsId (perm : Fin n → Fin n) : Bool := (List.finRange n).all fun i => perm i == i

/-- `invperm`: the point that `perm` sends to a value. -/
def invperm (perm : Fin n → Fin n) (v : Fin n) : Int :=
  match (List.finRange n).find? fun i => perm i == v with
  | some i => i.val
  | none => -1

/-- `permvals`: the values of the image cell with their inverse images, by inverse image. -/
def permvals (cycset : CycleSet n) (perm : Fin n → Fin n) (r c : Fin n) : List (Fin n × Int) :=
  (((cycset.bitdomains (perm r) (perm c)).options).map fun pv => (pv, invperm perm pv)).insertionSort
    fun a b => a.2 ≤ b.2

/-- The greatest inverse image, `get<1>(permvals.back())`. -/
def lastInverse (vals : List (Fin n × Int)) : Int :=
  match vals.getLast? with
  | some q => q.2
  | none => -1

/-- `og`: the value of the cell, else the least of its domain. -/
def ogValue (cycset : CycleSet n) (r c : Fin n) : Int :=
  match cycset.matrix r c with
  | some v => v.val
  | none => (cycset.bitdomains r c).firstel

namespace MinCheck

variable (m : MinCheck n) (cycset : CycleSet n)

/-- The guard `diagPart && v == cycset.matrix[r][r]`. -/
def isDiagValue (r v : Fin n) : Bool := m.cfg.diagPart && cycset.matrix r r == some v

/-- Marks on cells, one `bitdomains2_t` for each row. -/
abbrev Marks (n : Nat) := Fin n → BitDomains2 n

/-- `addToClause(r, c, lit, lits)`. -/
def addPositive (marks : Marks n) (r c v : Fin n) : Marks n :=
  Function.update marks r ((marks r).set c (some v))

/-- One round of the loop of `addToClause(r, c, lit, lits, true)`. -/
def addNegativeRound (r c v : Fin n) (marks : Marks n) (i : Fin n) : Marks n :=
  if m.cfg.smallerEncoding then
    let row := marks r
    let row := if i ≠ v ∧ some i ≠ cycset.matrix r r then row.set c (some i) else row
    let row := if i ≠ c ∧ some i ≠ cycset.matrix c c then row.reset i (some v) else row
    Function.update marks r row
  else
    let row := marks r
    let row := if i ≠ v then row.set c (some i) else row
    let row := if i ≠ c then row.reset i (some v) else row
    Function.update marks r row

/-- `addToClause(r, c, lit, lits, true)`. -/
def addNegative (marks : Marks n) (r c v : Fin n) : Marks n :=
  (List.finRange n).foldl (m.addNegativeRound cycset r c v) marks

/-- The literals `toClause` writes for one cell. -/
def cellClause (marks : Marks n) (r c : Fin n) : Clause :=
  if m.cfg.smallerEncoding && (marks r).numtrue c == n - 2 then
    ((List.finRange n).filter fun i =>
      some i != cycset.matrix r r && !(marks r).get c (some i)).map fun i => -m.cycsetLits r c i
  else if !m.cfg.smallerEncoding && (marks r).numtrue c == n - 1 then
    ((List.finRange n).filter fun i => !(marks r).get c (some i)).map fun i => -m.cycsetLits r c i
  else if 0 < (marks r).numtrue c then ((marks r).options c).map fun l => m.cycsetLits r c l
  else []

/-- `toClause`. -/
def toClause (marks : Marks n) : Clause := (cells n).flatMap fun q => m.cellClause cycset marks q.1 q.2

/-- Mark every value of a list whose guard holds at one cell. -/
def markAll (marks : Marks n) (r c : Fin n) (vs : List (Fin n)) : Marks n :=
  vs.foldl (fun marks v => addPositive marks r c v) marks

/-- The loop that marks what keeps the values of cell `(r, c)` at or above `below`. -/
def markBelow (marks : Marks n) (r c : Fin n) (below : Int) : Marks n :=
  markAll marks r c ((List.finRange n).filter fun i =>
    decide ((i.val : Int) < below) && !m.isDiagValue cycset r i && !(cycset.bitdomains r c).dom i)

/-- The loop that marks what keeps the inverse images of the image cell at or below `above`. -/
def markAbove (marks : Marks n) (perm : Fin n → Fin n) (r c : Fin n) (above : Int) : Marks n :=
  markAll marks (perm r) (perm c) (((List.finRange n).filter fun i =>
    decide (above < (i.val : Int)) && !m.isDiagValue cycset (perm r) (perm i) &&
      !(cycset.bitdomains (perm r) (perm c)).dom (perm i)).map perm)

/-- The marks of `addClausesShort` for a cell before the target. -/
def markEarlier (perm : Fin n → Fin n) (marks : Marks n) (q : Fin n × Fin n) : Marks n :=
  if m.cfg.diagPart && q.1 == q.2 then marks
  else if perm q.1 ≠ q.1 ∨ perm q.2 ≠ q.2 then
    m.markAbove cycset (m.markBelow cycset marks q.1 q.2 (lastInverse (permvals cycset perm q.1 q.2)))
      perm q.1 q.2 (ogValue cycset q.1 q.2)
  else
    markAll marks q.1 q.2 ((List.finRange n).filter fun i =>
      !m.isDiagValue cycset q.1 i && decide ((i.val : Int) < invperm perm i) &&
        !(cycset.bitdomains q.1 q.2).dom i)

/-- The cells the loops visit before they stop at `(r, c)`; a diagonal cell is skipped before
the loops ask whether it is the target. -/
def earlierCells (r c : Fin n) : List (Fin n × Fin n) :=
  ((cells n).filter fun q => q.1 ≤ r).takeWhile fun q =>
    !(q == (r, c) && !(m.cfg.diagPart && q.1 == q.2))

/-- `addClausesShort` from the target cell on. The source's last `else if` is left out: it asks
for `og >= front` where `og <= back` has failed, and `back < og` was the first branch. -/
def targetMarks (marks : Marks n) (perm : Fin n → Fin n) (r c : Fin n) : Option (Marks n) :=
  let vals := permvals cycset perm r c
  let og := ogValue cycset r c
  if lastInverse vals < og then
    some (m.markAbove cycset (m.markBelow cycset marks r c og) perm r c (lastInverse vals))
  else if vals.length = 1 then
    let marks := m.markAbove cycset marks perm r c (lastInverse vals)
    ((cycset.bitdomains r c).options.find? fun v => lastInverse vals < (v.val : Int)).map fun v =>
      m.addNegative cycset marks r c v
  else if (cycset.matrix r c).isSome then
    let marks := m.markBelow cycset marks r c og
    (vals.find? fun q => q.2 < og).map fun q => m.addNegative cycset marks (perm r) (perm c) q.1
  else if perm r = r ∧ perm c = c then
    (vals.find? fun q => q.2 < (q.1.val : Int)).map fun q => m.addNegative cycset marks (perm r) (perm c) q.1
  else
    let marks := m.markBelow cycset marks r c og
    (vals.find? fun q => q.2 < og).map fun q => m.addNegative cycset marks (perm r) (perm c) q.1

/-- `addClausesShort`. -/
def addClausesShort (perm : Fin n → Fin n) (r c : Fin n) : Option Clause :=
  let marks := (m.earlierCells r c).foldl (m.markEarlier cycset perm) fun _ => .empty
  (m.targetMarks cycset marks perm r c).map (m.toClause cycset)

/-- The literals the old encoder writes for one entry before the target. -/
def oldEntry (perm : Fin n → Fin n) (ri ci i : Fin n) : Clause :=
  if m.isDiagValue cycset ri i then []
  else if ri ≠ perm ri ∨ ci ≠ perm ci ∨ i ≠ perm i then
    (if cycset.assignments ri ci i = .isTrue then [-m.cycsetLits ri ci i] else []) ++
      (if cycset.assignments (perm ri) (perm ci) (perm i) = .isFalse then
        [m.cycsetLits (perm ri) (perm ci) (perm i)] else [])
  else []

/-- The literals of the old encoder for one cell: values downwards, at the target cell only
above `index`. -/
def oldCell (perm : Fin n → Fin n) (r c : Fin n) (q : Fin n × Fin n) : Clause :=
  if m.cfg.diagPart && q.1 == q.2 then []
  else
    let stop : Int :=
      if q = (r, c) then
        match cycset.matrix r c with
        | some v => v.val
        | none => n - 1
      else -1
    ((List.finRange n).reverse.filter fun i => stop < (i.val : Int)).flatMap
      (m.oldEntry cycset perm q.1 q.2)

/-- The literals at the end of the old encoder. -/
def oldTarget (perm : Fin n → Fin n) (r c : Fin n) : Option Clause :=
  let vals := permvals cycset perm r c
  let image := fun q : Fin n × Int => -m.cycsetLits (perm r) (perm c) q.1
  match cycset.matrix r c, vals with
  | some og, [q] => some [-m.cycsetLits r c og, image q]
  | none, [q] =>
    -- the loop runs once for each member of `permvals`, so only the least value is tried
    ((cycset.bitdomains r c).options.head?.filter fun v => q.2 < (v.val : Int)).map fun v =>
      [image q, -m.cycsetLits r c v]
  | some og, vals =>
    (vals.find? fun q => q.2 < (og.val : Int)).map fun q => [-m.cycsetLits r c og, image q]
  | none, vals =>
    if perm r = r ∧ perm c = c then (vals.find? fun q => q.2 < (q.1.val : Int)).map fun q => [image q]
    else
      (vals.find? fun q => q.2 < (cycset.bitdomains r c).firstel).map fun q =>
        ((List.finRange n).filter fun i =>
          !m.isDiagValue cycset r i && !(cycset.bitdomains r c).dom i).map (m.cycsetLits r c) ++
        [image q]

/-- `addClauses(perm, r, c)`, the old encoder. -/
def addClausesOld (perm : Fin n → Fin n) (r c : Fin n) : Option Clause :=
  (m.oldTarget cycset perm r c).map fun target =>
    (m.earlierCells r c ++ [(r, c)]).flatMap (m.oldCell cycset perm r c) ++ target

/-- `addClauses(perm, r, c, oldBreakingClauses)`. -/
def addClauses (perm : Fin n → Fin n) (r c : Fin n) : Option Clause :=
  if m.cfg.oldBreakingClauses then m.addClausesOld cycset perm r c
  else m.addClausesShort cycset perm r c

end MinCheck

end YbeSms.Source
