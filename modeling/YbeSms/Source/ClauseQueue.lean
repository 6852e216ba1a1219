import YbeSms.Source.CadicalSolver

/-!
# Clauses on their way to the solver

Source: ybe-sms/src/solveCadicalClass.hpp:99-104, 271-305, 321-397, outside check
mode and with `saveState` off; solveGeneral.cpp:12-28 for what `propagate` adds.
The back of `clauses` is the head of the list; a clause keeps the order of its
literals and is read from its end. `propagate` is the list of clauses it passes
to `addClause`. The reason slots of the two signs are indexed by variable.
-/

namespace YbeSms.Source

open YbeSms.Library YbeSms.Abstract

variable {n : Nat}

structure ClauseQueue (n : Nat) where
  propagator : Propagator n
  clauses : List Clause
  literal2clausePos : Nat → Clause
  literal2clauseNeg : Nat → Clause

/-- The calls a run consists of. `found` is what `propagate` would add in that call. -/
inductive Call where
  | addClause (clause : Clause)
  | hasExternalClause (found : List Clause)
  | addExternalClauseLit
  | propagate (timeUp : Bool) (found : List Clause)
  | addReasonClauseLit (plit : Int)
  | notify (e : Notification)

/-- The assignment of the entry a literal is about. -/
def CycleSet.truthOf (table : List (Option (Entry n))) (c : CycleSet n) (l : Int) : TruthVal :=
  match (table[l.natAbs]?).join with
  | some e => c.assignments e.1 e.2.1 e.2.2
  | none => .unknown

/-- The loop of `cb_propagate` over the last clause: nothing when a literal is satisfied, else
the number of unknown literals and the last of them. -/
def scanClause (truth : Int → TruthVal) : Clause → Nat → Int → Option (Nat × Int)
  | [], nUnknown, unassigned => some (nUnknown, unassigned)
  | l :: rest, nUnknown, unassigned =>
    match truth l with
    | .unknown => scanClause truth rest (nUnknown + 1) l
    | .isTrue => if 0 < l then none else scanClause truth rest nUnknown unassigned
    | .isFalse => if l < 0 then none else scanClause truth rest nUnknown unassigned

namespace ClauseQueue

def addClause (q : ClauseQueue n) (clause : Clause) : ClauseQueue n :=
  { q with clauses := clause :: q.clauses }

def reason (q : ClauseQueue n) (plit : Int) : Clause :=
  if 0 < plit then q.literal2clausePos plit.natAbs else q.literal2clauseNeg plit.natAbs

def setReason (q : ClauseQueue n) (plit : Int) (clause : Clause) : ClauseQueue n :=
  if 0 < plit then
    { q with literal2clausePos := Function.update q.literal2clausePos plit.natAbs clause }
  else { q with literal2clauseNeg := Function.update q.literal2clauseNeg plit.natAbs clause }

/-- The condition on which `cb_has_external_clause` looks for new clauses. -/
def looksForClauses (cfg : Config) (q : ClauseQueue n) : Bool :=
  q.clauses.isEmpty && q.propagator.changeInTrail && !cfg.propagateLiteralsCadical

/-- The clauses passed to `addClause` in the course of a call. -/
def passes (cfg : Config) (q : ClauseQueue n) : Call → List Clause
  | .addClause clause => [clause]
  | .hasExternalClause found =>
    if q.looksForClauses cfg then found else []
  | .propagate timeUp found =>
    if !timeUp && cfg.propagateLiteralsCadical && q.propagator.changeInTrail then found else []
  | _ => []

/-- `cb_propagate` after `propagate()`; the assertion on an empty clause ends the program. -/
def propagateLast (table : List (Option (Entry n))) (q : ClauseQueue n) :
    Option (ClauseQueue n × Int) :=
  match q.clauses with
  | [] => some (q, 0)
  | lastClause :: rest =>
    if lastClause = [] then none
    else match scanClause (q.propagator.currentCycleSet.truthOf table) lastClause 0 0 with
      | none => some (q, 0)
      | some (nUnknown, unassigned) =>
        if nUnknown = 1 then
          some ({ q with clauses := rest }.setReason unassigned lastClause, unassigned)
        else some (q, 0)

/-- One call: the state after it and what it returns; `none` where the program does not go on,
which is a read from an empty queue or the failed assertion. -/
def step (cfg : Config) (table : List (Option (Entry n))) (q : ClauseQueue n) (call : Call) :
    Option (ClauseQueue n × Int) :=
  let q' := (q.passes cfg call).foldl addClause q
  match call with
  | .addClause _ => some (q', 0)
  | .hasExternalClause _ =>
    let changed := if q.looksForClauses cfg then false else q.propagator.changeInTrail
    some ({ q' with propagator := { q.propagator with changeInTrail := changed } },
      if q'.clauses.isEmpty then 0 else 1)
  | .addExternalClauseLit =>
    match q.clauses with
    | [] => none
    | lastClause :: rest =>
      match lastClause.getLast? with
      | none => some ({ q with clauses := rest }, 0)
      | some lit => some ({ q with clauses := lastClause.dropLast :: rest }, lit)
  | .propagate timeUp _ =>
    if timeUp || !cfg.propagateLiteralsCadical || !q.propagator.changeInTrail then some (q, 0)
    else q'.propagateLast table
  | .addReasonClauseLit plit =>
    match (q.reason plit).getLast? with
    | none => some (q, 0)
    | some lit => some (q.setReason plit (q.reason plit).dropLast, lit)
  | .notify e => some ({ q with propagator := q.propagator.notify table e }, 0)

/-- The queue of a new solver. -/
def init (cfg : Config) (d firstRow : Fin n → Fin n) : ClauseQueue n :=
  ⟨Propagator.init cfg d firstRow, [], fun _ => [], fun _ => []⟩

end ClauseQueue

/-- One call of a run with the states around it and its answer. -/
structure Moment (n : Nat) where
  before : ClauseQueue n
  call : Call
  answer : Int
  after : ClauseQueue n

/-- The moments of a run of calls, if the program gets through them. -/
def moments (cfg : Config) (table : List (Option (Entry n))) :
    ClauseQueue n → List Call → Option (List (Moment n))
  | _, [] => some []
  | q, call :: rest =>
    match q.step cfg table call with
    | none => none
    | some (q', answer) => (moments cfg table q' rest).map (⟨q, call, answer, q'⟩ :: ·)

/-- The queue after the last moment of a run. -/
def finalQueue (q : ClauseQueue n) : List (Moment n) → ClauseQueue n
  | [] => q
  | m :: rest => finalQueue m.after rest

theorem moments_cons {cfg : Config} {table : List (Option (Entry n))} {q : ClauseQueue n}
    {call : Call} {rest : List Call} {ms : List (Moment n)}
    (h : moments cfg table q (call :: rest) = some ms) :
    ∃ q' answer ms', q.step cfg table call = some (q', answer) ∧
      moments cfg table q' rest = some ms' ∧ ms = ⟨q, call, answer, q'⟩ :: ms' := by
  rw [moments] at h
  split at h
  · cases h
  · rename_i q' answer hstep
    obtain ⟨ms', hms', rfl⟩ := Option.map_eq_some_iff.mp h
    exact ⟨q', answer, ms', hstep, hms', rfl⟩

/-- The rest of a run is a run from the state it starts in. -/
theorem moments_suffix {cfg : Config} {table : List (Option (Entry n))} {q : ClauseQueue n}
    {calls : List Call} {m : Moment n} {earlier later : List (Moment n)}
    (h : moments cfg table q calls = some (earlier ++ m :: later)) :
    ∃ calls', moments cfg table m.after calls' = some later := by
  induction earlier generalizing q calls with
  | nil =>
    cases calls with
    | nil => simp [moments] at h
    | cons call rest =>
      obtain ⟨q', answer, ms', -, hrest, heq⟩ := moments_cons h
      obtain ⟨rfl, rfl⟩ := List.cons_eq_cons.mp heq
      exact ⟨rest, hrest⟩
  | cons first earlier ih =>
    cases calls with
    | nil => simp [moments] at h
    | cons call rest =>
      obtain ⟨q', answer, ms', -, hrest, heq⟩ := moments_cons h
      obtain ⟨-, rfl⟩ := List.cons_eq_cons.mp heq
      exact ih hrest

end YbeSms.Source
