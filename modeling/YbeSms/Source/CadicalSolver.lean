import YbeSms.Source.Clause
import YbeSms.Abstract.Trail

/-!
# The propagator's view of the trail

Source: ybe-sms/src/solveCadicalClass.hpp:164-257 and solveCadicalClass.cpp:18-19,
91-98, 115-139, 172-207; main.cpp:384-392; clause.cpp:346-367. The state is
`currentCycleSet`, the fixed flags and the trail of decision levels, whose last
level is the head of the list. Loops that touch one cell per iteration are
written cell by cell. Reading an index that the source would read outside a
vector leaves the state unchanged here; no event of a solver run does that.
-/

namespace YbeSms.Source

open YbeSms.Library YbeSms.Abstract

variable {n : Nat}

/-- `unfixFirstRows`: one clause against copying `firstRow` into the first rows. -/
def unfixFirstRows (cfg : Config) (lits : MatrixLits n) (firstRow : Fin n → Fin n)
    (numToFix : Nat) : Cnf :=
  [(cells n).flatMap fun c =>
    if c.1.val < numToFix then
      if cfg.diagPart && c.2 == c.1 then [] else [-lits c.1 c.2 (firstRow c.2)]
    else []]

/-- The formula `main` builds; `d` and `firstRow` are read in the modes that have them. -/
def mainFormula (cfg : Config) (d firstRow : Fin n → Fin n) : Encoding n :=
  if cfg.diagPart then
    let e := encodeDiagonal cfg d
    { e with cnf := e.cnf ++
        if 0 < cfg.fixedRow then fixFirstRows cfg e.lits firstRow cfg.numToFix
        else if cfg.fixedRow < 0 then unfixFirstRows cfg e.lits firstRow cfg.numToFix
        else [] }
  else encodeNoDiag cfg n

/-- The entries the constructor lists in `lit2entry`. -/
def entryListed (cfg : Config) (d : Fin n → Fin n) (e : Entry n) : Bool :=
  !cfg.diagPart || (!cfg.smallerEncoding || (e.1 != e.2.1 && e.2.2 != d e.1))

/-- `lit2entry`, with the dummy at index 0. -/
def lit2entry (cfg : Config) (d : Fin n → Fin n) : List (Option (Entry n)) :=
  none :: ((entries n).filter (entryListed cfg d)).map some

/-- `highestEdgeVariable`, counted in the loop that fills `lit2entry`. -/
def highestEdgeVariable (cfg : Config) (d : Fin n → Fin n) : Nat :=
  (entries n).foldl (fun count e => if entryListed cfg d e then count + 1 else count) 0

/-- The entries whose variables the constructor declares observed. -/
def entryObserved (cfg : Config) (d : Fin n → Fin n) (e : Entry n) : Bool :=
  !cfg.diagPart || (e.1 != e.2.1 && (!cfg.smallerEncoding || e.2.2 != d e.1))

/-- With a diagonal the constructor lists what `encodeEntries` numbered. -/
theorem entryListed_diagonal {cfg : Config} (hd : cfg.diagPart = true) (d : Fin n → Fin n) :
    entryListed cfg d = entryKept cfg d := by
  funext e
  cases hs : cfg.smallerEncoding <;> simp [entryListed, entryKept, hd, hs]

theorem entryListed_noDiag {cfg : Config} (hd : ¬ cfg.diagPart = true) (d : Fin n → Fin n) :
    entryListed cfg d = fun _ => true := by
  funext e
  simp [entryListed, hd]

theorem entryListed_of_observed {cfg : Config} {d : Fin n → Fin n} {e : Entry n}
    (h : entryObserved cfg d e = true) : entryListed cfg d e = true := by
  cases hd : cfg.diagPart <;> cases hs : cfg.smallerEncoding <;>
    simp_all [entryListed, entryObserved]

/-- The part of `CadicalSolver` that the `notify_*` callbacks read and write. -/
structure Propagator (n : Nat) where
  currentCycleSet : CycleSet n
  fixedCycleSet : Fin n → Fin n → Fin n → Bool
  currentTrail : List (List Nat)
  changeInTrail : Bool

/-- `fixDiag`. -/
def fixDiag (d : Fin n → Fin n) (p : Propagator n) : Propagator n :=
  { p with
    currentCycleSet :=
      { matrix := fun i j => if i = j then some (d i) else p.currentCycleSet.matrix i j
        assignments := fun i j k =>
          if i = j then (if k ≠ d i then .isFalse else .isTrue)
          else p.currentCycleSet.assignments i j k
        bitdomains := fun i k =>
          if k ≠ i then (p.currentCycleSet.bitdomains i k).reset (d i)
          else (p.currentCycleSet.bitdomains i k).resetAll.set (d i) }
    fixedCycleSet := fun i j k => i == j || p.fixedCycleSet i j k }

/-- The cells that `fixFirstRow` visits: rows 0 and 1, whatever `numToFix` is. -/
def firstRowCell (cfg : Config) (i k : Fin n) : Bool :=
  decide (i.val ≤ 1) && !(cfg.diagPart && k.val == i.val)

/-- `fixFirstRow`. -/
def fixFirstRow (cfg : Config) (firstRow : Fin n → Fin n) (p : Propagator n) : Propagator n :=
  { p with
    currentCycleSet :=
      { p.currentCycleSet with
        bitdomains := fun i k =>
          if firstRowCell cfg i k then (p.currentCycleSet.bitdomains i k).set (firstRow k)
          else p.currentCycleSet.bitdomains i k }
    fixedCycleSet := fun i k v =>
      (firstRowCell cfg i k && v == firstRow k) || p.fixedCycleSet i k v }

/-- The constructor's initial state; the root level of the trail is always there. -/
def Propagator.init (cfg : Config) (d firstRow : Fin n → Fin n) : Propagator n :=
  let start : Propagator n := ⟨CycleSet.init n, fun _ _ _ => false, [[]], true⟩
  let diagonal := if cfg.diagPart then fixDiag d start else start
  if 0 < cfg.fixedRow then fixFirstRow cfg firstRow diagonal else diagonal

/-- The table update of `notify_assignment` for one entry. -/
def CycleSet.assign (c : CycleSet n) (e : Entry n) (positive : Bool) : CycleSet n :=
  let i := e.1
  let j := e.2.1
  let k := e.2.2
  if positive then
    { matrix := fun i' j' => if i' = i ∧ j' = j then some k else c.matrix i' j'
      assignments := fun i' j' k' =>
        if i' = i ∧ j' = j ∧ k' = k then .isTrue else c.assignments i' j' k'
      bitdomains := fun i' l =>
        if i' = i then
          if l = j then (c.bitdomains i j).resetAll.set k
          else if (c.bitdomains i l).numTrue ≠ 1 then (c.bitdomains i l).reset k
          else c.bitdomains i l
        else c.bitdomains i' l }
  else
    { c with
      assignments := fun i' j' k' =>
        if i' = i ∧ j' = j ∧ k' = k then .isFalse else c.assignments i' j' k'
      bitdomains := fun i' l =>
        if i' = i ∧ l = j then (c.bitdomains i j).reset k else c.bitdomains i' l }

/-- `notify_assignment`. -/
def Propagator.notifyAssignment (table : List (Option (Entry n))) (p : Propagator n) (lit : Int)
    (isFixed : Bool) : Propagator n :=
  match (table[lit.natAbs]?).join with
  | none => p
  | some e =>
    { currentCycleSet := p.currentCycleSet.assign e (decide (0 < lit))
      fixedCycleSet := fun i j k => (isFixed && (i, j, k) == e) || p.fixedCycleSet i j k
      currentTrail :=
        if isFixed then p.currentTrail
        else match p.currentTrail with
          | [] => []
          | last :: rest => (last ++ [lit.natAbs]) :: rest
      changeInTrail := true }

/-- The body of `notify_assignment` once the literal is known to be an entry. -/
theorem Propagator.notifyAssignment_of_lookup {table : List (Option (Entry n))} {lit : Int}
    {e : Entry n} (he : (table[lit.natAbs]?).join = some e) (p : Propagator n) (isFixed : Bool) :
    p.notifyAssignment table lit isFixed =
      { currentCycleSet := p.currentCycleSet.assign e (decide (0 < lit))
        fixedCycleSet := fun i j k => (isFixed && (i, j, k) == e) || p.fixedCycleSet i j k
        currentTrail :=
          if isFixed then p.currentTrail
          else match p.currentTrail with
            | [] => []
            | last :: rest => (last ++ [lit.natAbs]) :: rest
        changeInTrail := true } := by
  simp only [Propagator.notifyAssignment, he]

/-- `notify_new_decision_level`. -/
def Propagator.notifyNewDecisionLevel (p : Propagator n) : Propagator n :=
  { p with currentTrail := [] :: p.currentTrail }

/-- First half of a round of the loop below: the value of another column goes. -/
def dropColumn (c : CycleSet n) (i j : Fin n) (b : BitDomain n) (l : Fin n) : BitDomain n :=
  match c.matrix i l with
  | some v => if l ≠ j then b.reset v else b
  | none => b

/-- Second half: a value assigned False goes. -/
def dropFalse (c : CycleSet n) (i j : Fin n) (b : BitDomain n) (l : Fin n) : BitDomain n :=
  if c.assignments i j l = .isFalse then b.reset l else b

/-- The loop of `notify_backtrack` that rebuilds the domain of a cell that loses its value. -/
def rebuildDomain (c : CycleSet n) (i j : Fin n) : BitDomain n :=
  (List.finRange n).foldl (fun b l => dropFalse c i j (dropColumn c i j b l) l)
    (c.bitdomains i j).setAll

/-- Undo one literal: the body of the inner loop of `notify_backtrack`. -/
def CycleSet.undo (c : CycleSet n) (e : Entry n) : CycleSet n :=
  let i := e.1
  let j := e.2.1
  let k := e.2.2
  let cleared := fun i' j' k' =>
    if i' = i ∧ j' = j ∧ k' = k then TruthVal.unknown else c.assignments i' j' k'
  match c.assignments i j k with
  | .isTrue =>
    { matrix := fun i' j' => if i' = i ∧ j' = j then none else c.matrix i' j'
      assignments := cleared
      bitdomains := fun i' l =>
        if i' = i then
          if l = j then rebuildDomain c i j
          else if c.matrix i l = none ∧ c.assignments i l k ≠ .isFalse then
            (c.bitdomains i l).set k
          else c.bitdomains i l
        else c.bitdomains i' l }
  | .isFalse =>
    { c with
      assignments := cleared
      bitdomains := fun i' l =>
        if i' = i ∧ l = j then (c.bitdomains i j).set k else c.bitdomains i' l }
  | .unknown => { c with assignments := cleared }

/-- Undo one trail literal unless its entry is flagged as fixed. -/
def Propagator.undoLiteral (table : List (Option (Entry n))) (p : Propagator n) (l : Nat) :
    Propagator n :=
  match (table[l]?).join with
  | none => p
  | some e =>
    if p.fixedCycleSet e.1 e.2.1 e.2.2 then p
    else { p with currentCycleSet := p.currentCycleSet.undo e }

/-- The outer loop of `notify_backtrack`: pop levels while more than `newLevel + 1` are left. -/
def Propagator.popLevels (table : List (Option (Entry n))) (newLevel : Nat) :
    List (List Nat) → Propagator n → Propagator n
  | [], p => { p with currentTrail := [] }
  | last :: rest, p =>
    if newLevel < rest.length then
      popLevels table newLevel rest (last.foldl (Propagator.undoLiteral table) p)
    else { p with currentTrail := last :: rest }

/-- `notify_backtrack`. -/
def Propagator.notifyBacktrack (table : List (Option (Entry n))) (p : Propagator n)
    (newLevel : Nat) : Propagator n :=
  popLevels table newLevel p.currentTrail p

def Propagator.notify (table : List (Option (Entry n))) (p : Propagator n) :
    Notification → Propagator n
  | .assignment lit isFixed => p.notifyAssignment table lit isFixed
  | .newDecisionLevel => p.notifyNewDecisionLevel
  | .backtrack newLevel => p.notifyBacktrack table newLevel

end YbeSms.Source
