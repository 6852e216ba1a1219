import YbeSms.Source.ClauseQueue
import YbeSms.Source.TotalTrail

/-!
# The callbacks with their checks

Source: ybe-sms/src/solveGeneral.cpp:12-183; solveCadicalClass.hpp:99-146, 259-376;
useful.cpp:14-22. Outside check mode and with `saveState` off. `drawn` is the
outcome of `rand() % checkFreq == 0`. The `failed` that a reached limit sets is
shadowed, so a limit counts as no clause. A literal without an entry reads as
unknown, where the source would read before its vectors. Statistics are not modelled.
-/

namespace YbeSms.Source

open YbeSms.Library YbeSms.Abstract

variable {n : Nat}

/-- The scan of `addClause`: whether no literal is satisfied, and the unknown variables. -/
def scanUnit (truth : Int → TruthVal) : Clause → List Nat → Bool × List Nat
  | [], unknown => (true, unknown)
  | l :: rest, unknown =>
    if 0 < l then
      match truth l with
      | .isTrue => (false, unknown)
      | .unknown =>
        scanUnit truth rest (if l.natAbs ∈ unknown then unknown else unknown ++ [l.natAbs])
      | .isFalse => scanUnit truth rest unknown
    else if l < 0 then
      match truth l with
      | .isFalse => (false, unknown)
      | .unknown =>
        scanUnit truth rest (if l.natAbs ∈ unknown then unknown else unknown ++ [l.natAbs])
      | .isTrue => scanUnit truth rest unknown
    else scanUnit truth rest unknown

/-- The condition on which `addClause` prints its warning. -/
def warns (truth : Int → TruthVal) (clause : Clause) : Bool :=
  let r := scanUnit truth clause []
  !r.1 || decide (1 < r.2.length)

/-- What is written for a found cycle set: its number, then the rows. -/
structure Solution (n : Nat) where
  number : Nat
  matrix : Fin n → Fin n → Option (Fin n)

/-- What the callbacks of `CadicalSolver` and `CommonInterface` read and write. -/
structure Interface (n : Nat) where
  queue : ClauseQueue n
  nModels : Nat
  output : List (Solution n)
  warnings : Nat

/-- The callbacks of a solver. -/
inductive Callback where
  | notify (e : Notification)
  | propagate (timeUp drawn : Bool)
  | hasExternalClause (drawn : Bool)
  | addExternalClauseLit
  | addReasonClauseLit (plit : Int)
  | decide
  | checkFoundModel

/-- `fullDefined`. -/
def CycleSet.fullDefined (c : CycleSet n) : Bool :=
  (cells n).all fun q => (c.matrix q.1 q.2).isSome

/-- The clause against the current cycle set. -/
def excludeCurrent (s : Session n) (c : CycleSet n) : Clause :=
  (cells n).flatMap fun q =>
    if s.cfg.diagPart && q.1 == q.2 then []
    else ((List.finRange n).filter fun k => c.assignments q.1 q.2 k = .isTrue).map
      fun k => -s.lits q.1 q.2 k

/-- `cb_decide`: the least value of the first open cell. -/
def decideLit (s : Session n) (c : CycleSet n) : Int :=
  match (cells n).find? fun q =>
    (!s.cfg.diagPart || q.1 != q.2) && decide (1 < (c.bitdomains q.1 q.2).numTrue) with
  | none => 0
  | some q =>
    match ofInt (c.bitdomains q.1 q.2).firstel with
    | some v => s.lits q.1 q.2 v
    | none => 0

namespace Interface

/-- The cycle set that the checks look at. -/
abbrev current (x : Interface n) : CycleSet n := x.queue.propagator.currentCycleSet

section

variable (s : Session n) (before : Bool)

/-- `addClause`. -/
def addClause (x : Interface n) (clause : Clause) (redundant : Bool) : Interface n :=
  { x with
    queue := x.queue.addClause clause
    warnings :=
      if redundant && warns (x.current.truthOf s.table) clause then x.warnings + 1
      else x.warnings }

/-- The current cycle set is counted and written to the output. -/
def write (x : Interface n) : Interface n :=
  { x with
    nModels := x.nModels + 1
    output := x.output ++ [⟨x.nModels + 1, x.current.matrix⟩] }

/-- `checkMin`, with its answer; `none` where `MinCheck` would read outside a vector. -/
def checkMin (x : Interface n) (isFinal : Bool) : Option (Interface n × Bool) :=
  let full := x.current.fullDefined
  let report (x : Interface n) : Interface n × Bool :=
    if full && s.cfg.allModels then
      (x.write.addClause s (excludeCurrent s x.current) false, false)
    else (x, true)
  match ((s.mincheck before).run x.current (full || isFinal)).result with
  | .error (.clause clause) => some (x.addClause s clause true, false)
  | .error .limit => some (report x)
  | .error .fault => none
  | .ok () => some (report x)

/-- `check`. -/
def check (x : Interface n) : Option (Interface n × Bool) :=
  match x.checkMin s before true with
  | none => none
  | some (x', false) => some (x', false)
  | some (x', true) =>
    if s.cfg.allModels then
      some (x'.write.addClause s (excludeCurrent s x'.current) false, false)
    else some (x'.write, true)

/-- `propagate` of the common interface; its answer is not used. -/
def propagate (x : Interface n) (drawn : Bool) : Option (Interface n) :=
  if drawn && s.cfg.checkSolutionInProp then (x.checkMin s before false).map Prod.fst
  else some x

/-- A call that only reads or writes the queue. -/
def onQueue (x : Interface n) (call : Call) : Option (Interface n × Int) :=
  (x.queue.step s.cfg s.table call).map fun r => ({ x with queue := r.1 }, r.2)

/-- The flag that `cb_has_external_clause` clears before it looks for clauses. -/
def clearChange (x : Interface n) : Interface n :=
  { x with queue := { x.queue with
      propagator := { x.queue.propagator with changeInTrail := false } } }

/-- One callback: the interface after it and the answer; `none` where the program does not go
on. -/
def step (x : Interface n) : Callback → Option (Interface n × Int)
  | .notify e => x.onQueue s (.notify e)
  | .propagate timeUp drawn =>
    if timeUp || !s.cfg.propagateLiteralsCadical || !x.queue.propagator.changeInTrail then
      some (x, 0)
    else
      match x.propagate s before drawn with
      | none => none
      | some x' =>
        (x'.queue.propagateLast s.table).map fun r => ({ x' with queue := r.1 }, r.2)
  | .hasExternalClause drawn =>
    let answer (x : Interface n) : Int := if x.queue.clauses.isEmpty then 0 else 1
    if x.queue.looksForClauses s.cfg then
      (x.clearChange.propagate s before drawn).map fun x' => (x', answer x')
    else some (x, answer x)
  | .addExternalClauseLit => x.onQueue s .addExternalClauseLit
  | .addReasonClauseLit plit => x.onQueue s (.addReasonClauseLit plit)
  | .decide => some (x, decideLit s x.current)
  | .checkFoundModel =>
    if x.queue.clauses.isEmpty then
      (x.check s before).map fun r => (r.1, if r.2 then 1 else 0)
    else some (x, 0)

end

/-- The interface of a new solver. -/
def init (s : Session n) : Interface n :=
  ⟨ClauseQueue.init s.cfg s.d s.firstRow, 0, [], 0⟩

end Interface

end YbeSms.Source
