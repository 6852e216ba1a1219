import YbeSms.Source.SolverRun

/-!
# What one move can do

Source: ybe-sms/src/solveCadicalClass.hpp:99-397; solveGeneral.cpp:12-183. With the
checks in the propagator off, only `cb_check_found_model` adds a clause, writes a
solution or warns; every other callback moves a clause on its way to the solver, or
leaves the books as they are.
-/

namespace YbeSms.Source

open YbeSms.Library YbeSms.Abstract

variable {n : Nat}

/-- The invariant of a run does not depend on the flag for changes of the trail. -/
theorem Follows.congr {s : Session n} {D : CycleSet n → Prop} {p p' : Propagator n} {l : Ledger}
    (h : Follows s D p l) (hc : p'.currentCycleSet = p.currentCycleSet)
    (hf : p'.fixedCycleSet = p.fixedCycleSet) (ht : p'.currentTrail = p.currentTrail) :
    Follows s D p' l := by
  obtain ⟨c, f, t, b⟩ := p'
  obtain ⟨c', f', t', b'⟩ := p
  simp only at hc hf ht
  subst hc hf ht
  obtain ⟨⟨hm, hx, hflags, hobs, hnodup, hcons, hunf⟩, htrail, hopen⟩ := h
  exact ⟨⟨hm, hx, hflags, hobs, hnodup, hcons, hunf⟩, htrail, hopen⟩

namespace Interface

/-- Whether the callback runs a check inside the propagator. -/
def searches (s : Session n) (x : Interface n) : Callback → Bool
  | .propagate timeUp drawn =>
    drawn && s.cfg.checkSolutionInProp &&
      !(timeUp || !s.cfg.propagateLiteralsCadical || !x.queue.propagator.changeInTrail)
  | .hasExternalClause drawn =>
    drawn && s.cfg.checkSolutionInProp && x.queue.looksForClauses s.cfg
  | _ => false

variable {s : Session n} (before : Bool) {x : Interface n}

theorem step_notify (e : Notification) : x.step s before (.notify e) =
    some ({ x with queue := { x.queue with
      propagator := x.queue.propagator.notify s.table e } }, 0) := rfl

theorem step_propagate (hoff : s.cfg.checkSolutionInProp = false) (hempty : x.queue.clauses = [])
    (timeUp drawn : Bool) : x.step s before (.propagate timeUp drawn) = some (x, 0) := by
  have hlast : x.queue.propagateLast s.table = some (x.queue, 0) := by
    unfold ClauseQueue.propagateLast
    rw [hempty]
  unfold Interface.step Interface.propagate
  simp [hoff, hlast]

theorem step_hasExternalClause (hoff : s.cfg.checkSolutionInProp = false) (drawn : Bool) :
    ∃ answer, x.step s before (.hasExternalClause drawn) = some (x, answer) ∨
      x.step s before (.hasExternalClause drawn) = some (x.clearChange, answer) := by
  unfold Interface.step Interface.propagate
  simp only [hoff, Bool.and_false, Bool.false_eq_true, if_false, Option.map_some]
  split
  · exact ⟨_, Or.inr rfl⟩
  · exact ⟨_, Or.inl rfl⟩

theorem step_addExternalClauseLit {clause : Clause} {rest : List Clause}
    (hclauses : x.queue.clauses = clause :: rest) :
    (clause = [] ∧ x.step s before .addExternalClauseLit =
      some ({ x with queue := { x.queue with clauses := rest } }, 0)) ∨
    ∃ front lit, clause = front ++ [lit] ∧ x.step s before .addExternalClauseLit =
      some ({ x with queue := { x.queue with clauses := front :: rest } }, lit) := by
  rcases List.eq_nil_or_concat clause with rfl | ⟨front, lit, rfl⟩
  · refine Or.inl ⟨rfl, ?_⟩
    simp [Interface.step, onQueue, ClauseQueue.step, hclauses]
  · refine Or.inr ⟨front, lit, List.concat_eq_append, ?_⟩
    simp [Interface.step, onQueue, ClauseQueue.step, hclauses]

theorem step_addReasonClauseLit (plit : Int) : ∃ q answer,
    x.step s before (.addReasonClauseLit plit) = some ({ x with queue := q }, answer) ∧
      q.propagator = x.queue.propagator ∧ q.clauses = x.queue.clauses := by
  have hset : ∀ clause, (x.queue.setReason plit clause).propagator = x.queue.propagator ∧
      (x.queue.setReason plit clause).clauses = x.queue.clauses := by
    intro clause
    unfold ClauseQueue.setReason
    split <;> exact ⟨rfl, rfl⟩
  unfold Interface.step onQueue ClauseQueue.step
  cases hlast : (x.queue.reason plit).getLast? with
  | none => exact ⟨x.queue, 0, by simp [hlast], rfl, rfl⟩
  | some lit =>
    obtain ⟨hp, hc⟩ := hset (x.queue.reason plit).dropLast
    exact ⟨_, lit, by simp [hlast], hp, hc⟩

end Interface

namespace System

/-- What holds between any two moves. -/
structure Ready (s : Session n) (σ : System n) : Prop where
  follows : Follows s (HeldInv s) σ.interface.queue.propagator σ.ledger
  flight : σ.Quiescent ∨ ∃ clause, σ.interface.queue.clauses = [clause]
  nonzero : ∀ clause ∈ σ.interface.queue.clauses, (0 : Int) ∉ clause

/-- The books are the same, and nothing is newly accepted. -/
structure Quiet (σ σ' : System n) : Prop where
  handed : σ'.handed = σ.handed
  output : σ'.interface.output = σ.interface.output
  nModels : σ'.interface.nModels = σ.interface.nModels
  warnings : σ'.interface.warnings = σ.interface.warnings
  lent : σ'.lent = σ.lent
  forced : σ'.forced = σ.forced
  checks : σ'.checks = σ.checks
  solves : σ'.solves = σ.solves
  ended : σ'.ended = σ.ended
  accepted : σ'.accepted = true → σ.accepted = true

variable {s : Session n} {before : Bool} {σ σ' : System n}

theorem ready_start (hD : HeldInv s s.start.currentCycleSet) :
    (start s).Ready s where
  follows := by
    obtain ⟨hpic, htrail⟩ := s.picture_start hD
    exact ⟨hpic, htrail, by simp [start, Ledger.empty]⟩
  flight := Or.inl ⟨rfl, rfl⟩
  nonzero clause hc := absurd hc List.not_mem_nil

/-- A callback that only clears the flag for changes, or not even that. -/
theorem Ready.looked (h : σ.Ready s) {x : Interface n}
    (hx : x = σ.interface ∨ x = σ.interface.clearChange) :
    ({ σ with interface := x } : System n).Ready s ∧ Quiet σ { σ with interface := x } := by
  rcases hx with rfl | rfl
  · exact ⟨⟨h.follows, h.flight, h.nonzero⟩, ⟨rfl, rfl, rfl, rfl, rfl, rfl, rfl, rfl, rfl, id⟩⟩
  · exact ⟨⟨h.follows.congr rfl rfl rfl, h.flight, h.nonzero⟩,
      ⟨rfl, rfl, rfl, rfl, rfl, rfl, rfl, rfl, rfl, id⟩⟩

/-- As long as nothing is accepted, the loop is not entered again. -/
theorem answer_ne_ten (haccepted : σ.accepted = false) {result : Int}
    (hallowed : σ.Allowed s (.answer result)) : result ≠ 10 := by
  rintro rfl
  rcases hallowed.2.2 with ⟨-, hno⟩ | ⟨hno, -⟩ | hno
  · rw [haccepted] at hno
    cases hno
  · omega
  · omega

/-- A literal that is read moves from the queue to what is being read. -/
theorem Ready.read (h : σ.Ready s) {clause : Clause}
    (hclauses : σ.interface.queue.clauses = [clause])
    (hstep : σ.step s before (.callback .addExternalClauseLit) = some σ') :
    σ'.Ready s ∧ Quiet σ σ' := by
  rcases Interface.step_addExternalClauseLit (s := s) before hclauses with
    ⟨rfl, hx⟩ | ⟨front, lit, rfl, hx⟩
  · simp only [System.step, hx, Option.map_some, Option.some.injEq] at hstep
    subst hstep
    refine ⟨⟨h.follows, Or.inl ⟨rfl, rfl⟩, fun c hc => absurd hc List.not_mem_nil⟩,
      ⟨?_, rfl, rfl, rfl, rfl, rfl, rfl, rfl, rfl, id⟩⟩
    simp [handed, receive, hclauses]
  · have hlit : lit ≠ 0 := by
      rintro rfl
      refine h.nonzero (front ++ [0]) (by simp [hclauses]) (by simp)
    simp only [System.step, hx, Option.map_some, Option.some.injEq] at hstep
    subst hstep
    refine ⟨⟨by simpa [receive, hlit] using h.follows, Or.inr ⟨front, by simp [receive, hlit]⟩,
      fun c hc => ?_⟩, ⟨?_, ?_, ?_, ?_, ?_, ?_, ?_, ?_, ?_, ?_⟩⟩
    · obtain rfl : c = front := by simpa [receive, hlit] using hc
      intro h0
      exact h.nonzero (c ++ [lit]) (by simp [hclauses]) (List.mem_append_left _ h0)
    · simp [handed, receive, hclauses, hlit]
    all_goals simp [receive, hlit]

/-- A move in which the propagator does not ask is an answer, a check of a found model, or quiet. -/
theorem Ready.step_other (hf : s.cfg.fixedRow = 0) (h : σ.Ready s) {m : Move} (hm : ¬ m.Asks)
    (hallowed : σ.Allowed s m) (hstep : σ.step s before m = some σ') :
    (∃ result, m = .answer result) ∨
    (∃ x res, m = .callback .checkFoundModel ∧ σ.Quiescent ∧
      σ.interface.check s before = some (x, res) ∧
      σ' = { σ with interface := x, accepted := res, checks := σ.checks + 1 }) ∨
    (σ'.Ready s ∧ Quiet σ σ') := by
  cases m with
  | answer result => exact Or.inl ⟨result, rfl⟩
  | callback c =>
    right
    cases c with
    | notify e =>
      right
      simp only [System.step, Interface.step_notify, Option.map_some, Option.some.injEq] at hstep
      subst hstep
      have hfollows := Follows.notify (undoKeeps_held s) (stepKeeps_held s hf) _ _ e h.follows
        hallowed.2.2
      exact ⟨⟨hfollows, h.flight, h.nonzero⟩, ⟨rfl, rfl, rfl, rfl, rfl, rfl, rfl, rfl, rfl, id⟩⟩
    | propagate timeUp drawn => exact absurd trivial hm
    | hasExternalClause drawn => exact absurd trivial hm
    | addExternalClauseLit =>
      right
      rcases h.flight with hquiet | ⟨clause, hclauses⟩
      · exact absurd hquiet.1 hallowed.2
      · exact h.read hclauses hstep
    | addReasonClauseLit plit =>
      right
      obtain ⟨q, answer, hx, hp, hc⟩ :=
        Interface.step_addReasonClauseLit (s := s) before (x := σ.interface) plit
      simp only [System.step, hx, Option.map_some, Option.some.injEq] at hstep
      subst hstep
      refine ⟨⟨?_, ?_, ?_⟩, ⟨?_, rfl, rfl, rfl, rfl, rfl, rfl, rfl, rfl, id⟩⟩
      · simpa [receive, hp] using h.follows
      · simpa [Quiescent, receive, hc] using h.flight
      · simpa [receive, hc] using h.nonzero
      · simp [handed, receive, hc]
    | decide =>
      right
      simp only [System.step, Interface.step, Option.map_some, Option.some.injEq] at hstep
      subst hstep
      exact h.looked (Or.inl rfl)
    | checkFoundModel =>
      by_cases hempty : σ.interface.queue.clauses = []
      · left
        simp only [System.step, Interface.step, hempty, List.isEmpty_nil, if_true, Option.map_map,
          Option.map_eq_some_iff] at hstep
        obtain ⟨⟨x, res⟩, hcheck, rfl⟩ := hstep
        refine ⟨x, res, rfl, ⟨hempty, hallowed.2.1⟩, hcheck, ?_⟩
        cases res <;> simp [receive, hempty]
      · right
        have hno : σ.interface.queue.clauses.isEmpty = false := by simpa using hempty
        simp only [System.step, Interface.step, hno, Bool.false_eq_true, if_false, Option.map_some,
          Option.some.injEq] at hstep
        subst hstep
        refine ⟨⟨h.follows, h.flight, h.nonzero⟩, ⟨rfl, rfl, rfl, rfl, rfl, rfl, ?_, rfl, rfl, ?_⟩⟩
        · simp [receive, hno]
        · simp [receive]

/-- With the checks in the propagator off, asking is quiet as well. -/
theorem Ready.step_cases (hf : s.cfg.fixedRow = 0) (hoff : s.cfg.checkSolutionInProp = false)
    (h : σ.Ready s) {m : Move} (hallowed : σ.Allowed s m) (hstep : σ.step s before m = some σ') :
    (∃ result, m = .answer result) ∨
    (∃ x res, m = .callback .checkFoundModel ∧ σ.Quiescent ∧
      σ.interface.check s before = some (x, res) ∧
      σ' = { σ with interface := x, accepted := res, checks := σ.checks + 1 }) ∨
    (σ'.Ready s ∧ Quiet σ σ') := by
  by_cases hm : m.Asks
  · right
    right
    unfold Move.Asks at hm
    split at hm
    next timeUp drawn =>
      have hx := Interface.step_propagate before hoff hallowed.2.1.1 timeUp drawn
      simp only [System.step, hx, Option.map_some, Option.some.injEq] at hstep
      subst hstep
      exact h.looked (Or.inl rfl)
    next drawn =>
      obtain ⟨answer, hx | hx⟩ :=
        Interface.step_hasExternalClause before (x := σ.interface) hoff drawn
      all_goals
        simp only [System.step, hx, Option.map_some, Option.some.injEq] at hstep
        subst hstep
      · exact h.looked (Or.inl rfl)
      · exact h.looked (Or.inr rfl)
    next => exact hm.elim
  · exact h.step_other hf hm hallowed hstep

/-- Without eager propagation, and with the checks in the propagator off, `cb_propagate` returns no
literal. -/
theorem forced_of_reaches (hlazy : s.cfg.propagateLiteralsCadical = false ∨
    s.cfg.checkSolutionInProp = false) (h : Reaches s before σ) : σ.forced = [] := by
  apply h.invariant
  · rfl
  · intro σ σ' m hσ hallowed hstep
    cases m with
    | answer result =>
      simp only [System.step, Option.some.injEq] at hstep
      subst hstep
      split <;> exact hσ
    | callback c =>
      obtain ⟨⟨x, answer⟩, hx, rfl⟩ := Option.map_eq_some_iff.mp hstep
      cases c with
      | propagate timeUp drawn =>
        have hzero : answer = 0 := by
          rcases hlazy with heager | hoff
          · simp only [Interface.step, heager, Bool.not_false, Bool.or_true, Bool.true_or, if_true,
              Option.some.injEq, Prod.mk.injEq] at hx
            exact hx.2.symm
          · rw [Interface.step_propagate before hoff hallowed.2.1.1] at hx
            cases hx
            rfl
        simpa [receive, hzero] using hσ
      | addExternalClauseLit =>
        by_cases hend : answer = 0 <;> simpa [receive, hend] using hσ
      | notify e => exact hσ
      | hasExternalClause drawn => exact hσ
      | addReasonClauseLit plit => exact hσ
      | decide => exact hσ
      | checkFoundModel => exact hσ

/-- No move but a check can fail to go on. -/
theorem step_ne_none (hoff : s.cfg.checkSolutionInProp = false) {m : Move}
    (hallowed : σ.Allowed s m)
    (hcheck : m = .callback .checkFoundModel → σ.Quiescent →
      σ.interface.check s before ≠ none) : σ.step s before m ≠ none := by
  cases m with
  | answer result => simp [System.step]
  | callback c =>
    cases c with
    | notify e => simp [System.step, Interface.step_notify]
    | propagate timeUp drawn =>
      simp [System.step, Interface.step_propagate before hoff hallowed.2.1.1]
    | hasExternalClause drawn =>
      obtain ⟨answer, hx | hx⟩ :=
        Interface.step_hasExternalClause before (x := σ.interface) hoff drawn <;>
        simp [System.step, hx]
    | addExternalClauseLit =>
      obtain ⟨clause, rest, hclauses⟩ := List.exists_cons_of_ne_nil hallowed.2
      rcases Interface.step_addExternalClauseLit (s := s) before hclauses with
        ⟨-, hx⟩ | ⟨front, lit, -, hx⟩ <;> simp [System.step, hx]
    | addReasonClauseLit plit =>
      obtain ⟨q, answer, hx, -⟩ :=
        Interface.step_addReasonClauseLit (s := s) before (x := σ.interface) plit
      simp [System.step, hx]
    | decide => simp [System.step, Interface.step]
    | checkFoundModel =>
      by_cases hempty : σ.interface.queue.clauses = []
      · have hsome := hcheck rfl ⟨hempty, hallowed.2.1⟩
        simpa [System.step, Interface.step, hempty] using hsome
      · simp [System.step, Interface.step, hempty]

end System

end YbeSms.Source
