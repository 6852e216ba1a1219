import YbeSms.Source.SolveGeneral

/-!
# The solver with its propagator

Source: ybe-sms/src/solveCadicalClass.cpp:210-220; solveCadicalClass.hpp:99-397;
solveGeneral.cpp:12-183; cadical-master/src/external_propagate.cpp:121-251, 630-760.
The solver is whatever keeps its promises: it proposes models of all it was given,
reads a clause in one go, looks for clauses and propagations only where the notified
assignment falsifies no clause it has read, and says 20 only where no model is left.
A literal of `cb_propagate` that it sets on level 0 it never notifies: `search_assign`
learns no unit from an external reason, and `notify_assignments` skips fixed literals.
-/

namespace YbeSms.Source

open YbeSms.Library YbeSms.Abstract

variable {n : Nat}

/-- The solver's side and the propagator's side of a run. -/
structure System (n : Nat) where
  interface : Interface n
  ledger : Ledger
  /-- The clauses read to their end, the last one first. -/
  learned : List Clause
  /-- What has been read of the clause under way. -/
  reading : Clause
  /-- The clauses kept as reasons of propagated literals. -/
  lent : List Clause
  /-- The literals that `cb_propagate` has returned. -/
  forced : List Int
  /-- How often `check` was called. -/
  checks : Nat
  accepted : Bool
  /-- How often `solve` of the solver was called. -/
  solves : Nat
  /-- The answer with which the loop was left. -/
  ended : Option Int

/-- A callback, or the answer of `solve`. -/
inductive Move where
  | callback (c : Callback)
  | answer (result : Int)

/-- The callbacks in which the propagator may check a partial table. -/
def Move.Asks : Move → Prop
  | .callback (.propagate _ _) => True
  | .callback (.hasExternalClause _) => True
  | _ => False

namespace System

section

variable (s : Session n) (before : Bool)

/-- The first call of `solve`. -/
def start : System n := ⟨Interface.init s, .empty, [], [], [], [], 0, false, 1, none⟩

/-- What the solver makes of the answer of a callback. -/
def receive (σ : System n) (c : Callback) (x : Interface n) (answer : Int) : System n :=
  match c with
  | .notify e => { σ with interface := x, ledger := σ.ledger.notify e }
  | .propagate _ _ =>
    { σ with
      interface := x
      lent := if answer = 0 then σ.lent else x.queue.reason answer :: σ.lent
      forced := if answer = 0 then σ.forced else answer :: σ.forced }
  | .addExternalClauseLit =>
    if answer = 0 then
      { σ with interface := x, learned := σ.reading :: σ.learned, reading := [] }
    else { σ with interface := x, reading := answer :: σ.reading }
  | .checkFoundModel =>
    { σ with
      interface := x
      accepted := answer == 1
      checks := if σ.interface.queue.clauses.isEmpty then σ.checks + 1 else σ.checks }
  | .hasExternalClause _ => { σ with interface := x }
  | .addReasonClauseLit _ => { σ with interface := x }
  | .decide => { σ with interface := x }

/-- One move; `none` where the program does not go on. The loop is left unless the answer is
10. -/
def step (σ : System n) : Move → Option (System n)
  | .callback c => (σ.interface.step s before c).map fun r => σ.receive c r.1 r.2
  | .answer result =>
    some (if result = 10 then { σ with solves := σ.solves + 1, accepted := false }
      else { σ with ended := some result })

end

/-- No clause waits or is being read. -/
def Quiescent (σ : System n) : Prop := σ.interface.queue.clauses = [] ∧ σ.reading = []

/-- The notified assignment falsifies no clause that was read. -/
def Unfalsified (σ : System n) : Prop := ∀ c ∈ σ.learned, ¬ ∀ l ∈ c, σ.ledger.Held (-l)

/-- A model of all the solver was given to keep, which the notified assignment is part of. What it
says of an observed variable is notified, unless `cb_propagate` has returned the literal. -/
structure Found (s : Session n) (σ : System n) (τ : Valuation) : Prop where
  models : Models τ (s.formula.cnf ++ σ.learned)
  agrees : ∀ e positive, s.observed e = true → s.Holds σ.ledger e positive →
    τ (s.lits e.1 e.2.1 e.2.2) = positive
  notified : ∀ e, s.observed e = true → s.Holds σ.ledger e (τ (s.lits e.1 e.2.1 e.2.2)) ∨
    signed s.lits e (τ (s.lits e.1 e.2.1 e.2.2)) ∈ σ.forced

/-- The moves a solver that keeps its promises can make. -/
def Allowed (s : Session n) (σ : System n) (m : Move) : Prop :=
  σ.ended = none ∧
  match m with
  | .callback (.notify e) => σ.Quiescent ∧ Notifies s σ.ledger e
  | .callback (.propagate _ _) => σ.Quiescent ∧ σ.Unfalsified
  | .callback (.hasExternalClause _) => σ.reading = [] ∧ σ.Unfalsified
  | .callback .addExternalClauseLit => σ.interface.queue.clauses ≠ []
  | .callback (.addReasonClauseLit _) => σ.reading = []
  | .callback .decide => σ.Quiescent
  | .callback .checkFoundModel => σ.reading = [] ∧ ∃ τ, Found s σ τ
  | .answer result =>
    σ.Quiescent ∧ ((result = 10 ∧ σ.accepted = true) ∨
      (result = 20 ∧ ∀ τ, ¬ Models τ (s.formula.cnf ++ σ.learned ++ σ.lent)) ∨ result = 0)

/-- The states that runs lead to. -/
inductive Reaches (s : Session n) (before : Bool) : System n → Prop
  | initial : Reaches s before (start s)
  | step {σ σ' : System n} (m : Move) (h : Reaches s before σ) (hallowed : σ.Allowed s m)
      (hstep : σ.step s before m = some σ') : Reaches s before σ'

/-- The states that runs lead to whose moves all meet a condition. -/
inductive ReachesBy (s : Session n) (before : Bool) (P : System n → Move → Prop) :
    System n → Prop
  | initial : ReachesBy s before P (start s)
  | step {σ σ' : System n} (m : Move) (h : ReachesBy s before P σ) (hallowed : σ.Allowed s m)
      (hright : P σ m) (hstep : σ.step s before m = some σ') : ReachesBy s before P σ'

theorem ReachesBy.reaches {s : Session n} {before : Bool} {P : System n → Move → Prop}
    {σ : System n} (h : ReachesBy s before P σ) : Reaches s before σ := by
  induction h with
  | initial => exact .initial
  | step m _ hallowed _ hstep ih => exact .step m ih hallowed hstep

/-- A property of the start that every allowed move keeps holds in all reachable states. -/
theorem Reaches.invariant {s : Session n} {before : Bool} {Inv : System n → Prop}
    (hstart : Inv (start s))
    (hkeep : ∀ σ σ' m, Inv σ → σ.Allowed s m → σ.step s before m = some σ' → Inv σ')
    {σ : System n} (h : Reaches s before σ) : Inv σ := by
  induction h with
  | initial => exact hstart
  | step m _ hallowed hstep ih => exact hkeep _ _ m ih hallowed hstep

/-- A property of the start that every such move from a state of such a run keeps. -/
theorem ReachesBy.invariant {s : Session n} {before : Bool} {P : System n → Move → Prop}
    {Inv : System n → Prop} (hstart : Inv (start s))
    (hkeep : ∀ σ σ' m, ReachesBy s before P σ → Inv σ → σ.Allowed s m → P σ m →
      σ.step s before m = some σ' → Inv σ')
    {σ : System n} (h : ReachesBy s before P σ) : Inv σ := by
  induction h with
  | initial => exact hstart
  | step m h hallowed hright hstep ih => exact hkeep _ _ m h ih hallowed hright hstep

/-- Every observed variable is notified. -/
def AllNotified (s : Session n) (l : Ledger) : Prop :=
  ∀ e, s.observed e = true → ∃ positive, s.Holds l e positive

theorem Found.holds {s : Session n} {σ : System n} {τ : Valuation} (h : Found s σ τ)
    (hall : AllNotified s σ.ledger) (e : Entry n) (ho : s.observed e = true) :
    s.Holds σ.ledger e (τ (s.lits e.1 e.2.1 e.2.2)) := by
  obtain ⟨positive, hheld⟩ := hall e ho
  rwa [h.agrees e positive ho hheld]

/-- Where `cb_propagate` has returned no literal, all is notified. -/
theorem Found.allNotified {s : Session n} {σ : System n} {τ : Valuation} (h : Found s σ τ)
    (hforced : σ.forced = []) : AllNotified s σ.ledger := by
  intro e ho
  rcases h.notified e ho with hheld | hmem
  · exact ⟨_, hheld⟩
  · rw [hforced] at hmem
    cases hmem

/-- The clauses handed to the solver: those it has read, and the ones still on their way. -/
def handed (σ : System n) : List Clause :=
  (match σ.interface.queue.clauses with
    | [] => []
    | clause :: rest => (clause ++ σ.reading) :: rest) ++ σ.learned

end System

namespace Interface

variable {s : Session n} {before : Bool} {x x' : Interface n} {isFinal res : Bool}

/-- What `checkMin` does: it adds the clause that is thrown, or reports a full table in the mode
for all models, or nothing. -/
theorem checkMin_cases (h : x.checkMin s before isFinal = some (x', res)) :
    (∃ clause, ((s.mincheck before).run x.current (x.current.fullDefined || isFinal)).result =
      .error (.clause clause) ∧ x' = x.addClause s clause true ∧ res = false) ∨
    ((∀ clause, ((s.mincheck before).run x.current (x.current.fullDefined || isFinal)).result ≠
      .error (.clause clause)) ∧
      ((x.current.fullDefined = true ∧ s.cfg.allModels = true ∧
          x' = x.write.addClause s (excludeCurrent s x.current) false ∧ res = false) ∨
        (¬ (x.current.fullDefined = true ∧ s.cfg.allModels = true) ∧ x' = x ∧ res = true))) := by
  unfold checkMin at h
  simp only at h
  have hreport : some (if (x.current.fullDefined && s.cfg.allModels) = true then
        (x.write.addClause s (excludeCurrent s x.current) false, false) else (x, true)) =
        some (x', res) →
      (x.current.fullDefined = true ∧ s.cfg.allModels = true ∧
          x' = x.write.addClause s (excludeCurrent s x.current) false ∧ res = false) ∨
        (¬ (x.current.fullDefined = true ∧ s.cfg.allModels = true) ∧ x' = x ∧ res = true) := by
    intro hsome
    by_cases hall : x.current.fullDefined = true ∧ s.cfg.allModels = true
    · rw [if_pos (by simp [hall])] at hsome
      cases hsome
      exact Or.inl ⟨hall.1, hall.2, rfl, rfl⟩
    · rw [if_neg (by simpa using hall)] at hsome
      cases hsome
      exact Or.inr ⟨hall, rfl, rfl⟩
  cases hrun : ((s.mincheck before).run x.current (x.current.fullDefined || isFinal)).result with
  | ok u =>
    rw [hrun] at h
    exact Or.inr ⟨nofun, hreport h⟩
  | error stop =>
    rw [hrun] at h
    cases stop with
    | clause clause =>
      cases h
      exact Or.inl ⟨clause, rfl, rfl, rfl⟩
    | limit => exact Or.inr ⟨nofun, hreport h⟩
    | fault => cases h

/-- What `check` does: it adds the clause that is thrown, or reports the table; in the mode for
all models it also excludes it, else it accepts. -/
theorem check_cases (h : x.check s before = some (x', res)) :
    (∃ clause, ((s.mincheck before).run x.current true).result = .error (.clause clause) ∧
      x' = x.addClause s clause true ∧ res = false) ∨
    ((∀ clause, ((s.mincheck before).run x.current true).result ≠ .error (.clause clause)) ∧
      ((s.cfg.allModels = true ∧ x' = x.write.addClause s (excludeCurrent s x.current) false ∧
          res = false) ∨
        (s.cfg.allModels = false ∧ x' = x.write ∧ res = true))) := by
  unfold check at h
  cases hcheck : x.checkMin s before true with
  | none =>
    rw [hcheck] at h
    cases h
  | some r =>
    obtain ⟨y, ok⟩ := r
    rw [hcheck] at h
    have hcases := checkMin_cases hcheck
    rw [Bool.or_true] at hcases
    rcases hcases with ⟨clause, hrun, rfl, rfl⟩ | ⟨hnone, ⟨-, hall, rfl, rfl⟩ | ⟨-, rfl, rfl⟩⟩
    · cases h
      exact Or.inl ⟨clause, hrun, rfl, rfl⟩
    · cases h
      exact Or.inr ⟨hnone, Or.inl ⟨hall, rfl, rfl⟩⟩
    · simp only at h
      split at h
      next hall =>
        cases h
        exact Or.inr ⟨hnone, Or.inl ⟨hall, rfl, rfl⟩⟩
      next hall =>
        cases h
        exact Or.inr ⟨hnone, Or.inr ⟨by simpa using hall, rfl, rfl⟩⟩

end Interface

end YbeSms.Source
