import YbeSms.Guarantees.CompleteRuns
import YbeSms.Library.Enumeration

/-!
# Enumeration of all models

Source: ybe-sms/src/solveCadicalClass.cpp:210-220; solveGeneral.cpp:30-183;
solveCadicalClass.hpp:99-305; minCheck_V2.cpp:46-284. With `--allModels` and no check in
the propagator, whatever the order of found models: no call fails, every found model
is new, and when the solver is done the output is the list of the least tables.
-/

namespace YbeSms.Guarantees

open YbeSms.Library YbeSms.Abstract YbeSms.Source YbeSms.Source.MinCheck Equiv

variable {n : Nat}

/-- What the run has added and seen. -/
abbrev Books (n : Nat) := Enumerator (Fin n → Fin n → Fin n) Clause

/-- The rows as they are written. -/
def shown (M : Fin n → Fin n → Fin n) : Fin n → Fin n → Option (Fin n) := fun i j => some (M i j)

/-- One step of the abstract enumeration of the least tables. -/
abbrev Examines (s : Session n) (before : Bool) (d : Perm (Fin n)) : Books n → Books n → Prop :=
  Enumerator.Examines (s.mincheck before).HoldsIn (s.mincheck before).FailsIn (described s)
    (wanted s d)

/-- The abstract enumeration behind a state of the run. -/
structure Lists (s : Session n) (before : Bool) (d : Perm (Fin n)) (σ : System n) (a : Books n) :
    Prop where
  ready : σ.Ready s
  constraints : a.constraints = {c | c ∈ σ.handed}
  run : Relation.ReflTransGen (Examines s before d) Enumerator.start a
  written : σ.interface.output.map (·.matrix) = a.reported.map shown
  numbers : σ.interface.output.map (·.number) = List.range' 1 σ.interface.nModels
  counted : σ.interface.nModels = a.reported.length
  checks : σ.checks = a.examined.length
  solves : σ.solves = 1
  accepted : σ.accepted = false
  lent : σ.lent = []
  forced : σ.forced = []
  silent : σ.interface.warnings = 0
  finished : σ.ended = some 20 →
    ∀ M ∈ wanted s d, ¬ ∀ c ∈ a.constraints, (s.mincheck before).HoldsIn c M

section Run

variable {s : Session n} {before : Bool} {d : Perm (Fin n)} {σ σ' : System n} {a : Books n}

theorem lists_start (hf : s.cfg.fixedRow = 0) :
    Lists s before d (System.start s) Enumerator.start where
  ready := System.ready_start (start_domains s hf).held
  constraints := by
    ext c
    simp [Enumerator.start, System.handed, System.start, Interface.init, ClauseQueue.init]
  run := .refl
  written := rfl
  numbers := rfl
  counted := rfl
  checks := rfl
  solves := rfl
  accepted := rfl
  lent := rfl
  forced := rfl
  silent := rfl
  finished h := by cases h

theorem Lists.quiet (h : Lists s before d σ a) (hended : σ.ended = none) (hready : σ'.Ready s)
    (hq : System.Quiet σ σ') : Lists s before d σ' a where
  ready := hready
  constraints := by rw [hq.handed, h.constraints]
  run := h.run
  written := by rw [hq.output, h.written]
  numbers := by rw [hq.output, hq.nModels, h.numbers]
  counted := hq.nModels.trans h.counted
  checks := hq.checks.trans h.checks
  solves := hq.solves.trans h.solves
  accepted := by
    rw [← Bool.not_eq_true]
    intro hno
    have hold := hq.accepted hno
    rw [h.accepted] at hold
    cases hold
  lent := hq.lent.trans h.lent
  forced := hq.forced.trans h.forced
  silent := hq.warnings.trans h.silent
  finished hend := by
    rw [hq.ended, hended] at hend
    cases hend

/-- When the solver answers 20, no least table meets all constraints. -/
theorem Lists.answer (hf : s.cfg.fixedRow = 0) (hmode : InMode (s.mincheck before) d)
    (h : Lists s before d σ a) {result : Int} (hallowed : σ.Allowed s (.answer result))
    (hstep : σ.step s before (.answer result) = some σ') : Lists s before d σ' a := by
  have hne := System.answer_ne_ten h.accepted hallowed
  obtain ⟨hended, hquiet, hresult⟩ := hallowed
  simp only [System.step, if_neg hne, Option.some.injEq] at hstep
  subst hstep
  refine ⟨⟨h.ready.follows, h.ready.flight, h.ready.nonzero⟩, h.constraints, h.run, h.written,
    h.numbers, h.counted, h.checks, h.solves, h.accepted, h.lent, h.forced, h.silent,
    fun hend M hM hall => ?_⟩
  have hresult' : result = 20 := Option.some.inj hend
  rcases hresult with ⟨hno, -⟩ | ⟨-, hunsat⟩ | hno
  · omega
  · -- a model that indicates a remaining table would satisfy everything
    obtain ⟨τ, hτ, hmodels⟩ := exists_model hf hmode hM.1
    refine hunsat τ fun c hc => ?_
    rw [h.lent, List.append_nil] at hc
    rcases List.mem_append.mp hc with hc | hc
    · exact hmodels c hc
    · refine hall c ?_ τ hτ
      rw [h.constraints]
      simp [System.handed, hquiet.1, hc]
  · omega

/-- A found model meets all constraints. -/
theorem Lists.free (h : Lists s before d σ a) (hquiet : σ.Quiescent) {τ : Valuation}
    (hfound : σ.Found s τ) {M : Fin n → Fin n → Fin n} (hτ : Indicates τ s.lits M) :
    ∀ c ∈ a.constraints, ¬ (s.mincheck before).FailsIn c M := by
  intro c hc hfails
  rw [h.constraints] at hc
  refine hfails τ hτ (hfound.models c (List.mem_append_right _ ?_))
  simpa [System.handed, hquiet.1] using hc

theorem total_of_found (hf : s.cfg.fixedRow = 0) (hmode : InMode (s.mincheck before) d)
    (hfollows : Follows s (HeldInv s) σ.interface.queue.propagator σ.ledger) {τ : Valuation}
    (hfound : σ.Found s τ) (hall : System.AllNotified s σ.ledger) :
    ∃ M, M ∈ described s ∧ Indicates τ s.lits M ∧
      (s.mincheck before).Total σ.interface.current M := by
  obtain ⟨M, hM, hτ, ha⟩ := table_of_found hf hmode hfound hall
  exact ⟨M, hM, hτ, total_of_assigns hfollows.picture (admits_of_described hM) ha⟩

/-- A check is one step of the enumeration. -/
theorem Lists.check (hn : 1 ≤ n) (hf : s.cfg.fixedRow = 0) (hmode : InMode (s.mincheck before) d)
    (hall : s.cfg.allModels = true) (h : Lists s before d σ a) (hended : σ.ended = none)
    (hquiet : σ.Quiescent) {τ : Valuation} (hfound : σ.Found s τ) {x : Interface n} {res : Bool}
    (hcheck : σ.interface.check s before = some (x, res)) :
    ∃ b, Examines s before d a b ∧
      Lists s before d { σ with interface := x, accepted := res, checks := σ.checks + 1 } b := by
  obtain ⟨M, hM, hτ, htotal⟩ :=
    total_of_found hf hmode h.ready.follows hfound (hfound.allNotified h.forced)
  have hfree := h.free hquiet hfound hτ
  have hfollows := h.ready.follows
  -- the clause that is added is the only one on its way
  have hhanded : ∀ {y : Interface n} (clause : Clause), y.queue.clauses = clause :: [] →
      {c | c ∈ System.handed { σ with interface := y, accepted := res, checks := σ.checks + 1 }} =
        insert clause a.constraints := by
    intro y clause hy
    rw [h.constraints]
    ext c
    simp [System.handed, hy, hquiet.1, hquiet.2]
  rcases check_of_total hn hmode htotal hM with ⟨hno, clause, hresult, hrefutes⟩ | ⟨hwanted, hwrite⟩
  · rw [hresult] at hcheck
    cases hcheck
    have hstep : Examines s before d a _ :=
      .reject M clause hM hno hfree hrefutes.fails hrefutes.holds
    refine ⟨_, hstep, ⟨⟨hfollows, Or.inr ⟨clause, ?_⟩, ?_⟩, ?_, h.run.tail hstep, h.written,
      h.numbers, h.counted, ?_, h.solves, rfl, h.lent, h.forced, ?_, ?_⟩⟩
    · simp [Interface.addClause, ClauseQueue.addClause, hquiet.1]
    · simpa [Interface.addClause, ClauseQueue.addClause, hquiet.1] using hrefutes.nonzero
    · exact (hhanded clause (by simp [Interface.addClause, ClauseQueue.addClause, hquiet.1])).symm
    · simp [h.checks]
    · simp [Interface.addClause, hrefutes.silent, h.silent]
    · intro hend
      rw [show σ.ended = some 20 from hend] at hended
      cases hended
  · rcases hwrite with ⟨-, hresult⟩ | ⟨hno, -⟩
    · rw [hresult] at hcheck
      cases hcheck
      have hstep : Examines s before d a _ :=
        .report M (excludeCurrent s σ.interface.current) hM hwanted hfree
          (excludeCurrent_failsIn htotal)
          fun N hN hne => excludeCurrent_holdsIn htotal (admits_of_described hN.1) hne
      have hmatrix : σ.interface.current.matrix = shown M :=
        funext fun i => funext fun j => htotal.matrix i j
      refine ⟨_, hstep, ⟨⟨hfollows, Or.inr ⟨excludeCurrent s σ.interface.current, ?_⟩, ?_⟩, ?_,
        h.run.tail hstep, ?_, ?_, ?_, ?_, h.solves, rfl, h.lent, h.forced, ?_, ?_⟩⟩
      · simp [Interface.addClause, Interface.write, ClauseQueue.addClause, hquiet.1]
      · simpa [Interface.addClause, Interface.write, ClauseQueue.addClause, hquiet.1] using
          zero_not_mem_excludeCurrent htotal
      · refine (hhanded (excludeCurrent s σ.interface.current) ?_).symm
        simp [Interface.addClause, Interface.write, ClauseQueue.addClause, hquiet.1]
      · simp [Interface.addClause, Interface.write, h.written, hmatrix]
      · simp [Interface.addClause, Interface.write, h.numbers, List.range'_concat, Nat.add_comm]
      · simp [Interface.addClause, Interface.write, h.counted]
      · simp [h.checks]
      · simp [Interface.addClause, Interface.write, h.silent]
      · intro hend
        rw [show σ.ended = some 20 from hend] at hended
        cases hended
    · rw [hall] at hno
      cases hno

/-- A move is a step of the enumeration or none. -/
theorem Lists.step (hn : 1 ≤ n) (hf : s.cfg.fixedRow = 0) (hmode : InMode (s.mincheck before) d)
    (hall : s.cfg.allModels = true) (hoff : s.cfg.checkSolutionInProp = false)
    (h : Lists s before d σ a) {m : Move} (hallowed : σ.Allowed s m)
    (hstep : σ.step s before m = some σ') :
    ∃ b, (b = a ∨ Examines s before d a b) ∧ Lists s before d σ' b := by
  rcases h.ready.step_cases hf hoff hallowed hstep with
    ⟨result, rfl⟩ | ⟨x, res, rfl, hquiet, hcheck, rfl⟩ | ⟨hready, hq⟩
  · exact ⟨a, Or.inl rfl, h.answer hf hmode hallowed hstep⟩
  · obtain ⟨τ, hfound⟩ := hallowed.2.2
    obtain ⟨b, hexamines, hb⟩ := h.check hn hf hmode hall hallowed.1 hquiet hfound hcheck
    exact ⟨b, Or.inr hexamines, hb⟩
  · exact ⟨a, Or.inl rfl, h.quiet hallowed.1 hready hq⟩

/-- No allowed move faults. -/
theorem Lists.goes_on (hn : 1 ≤ n) (hf : s.cfg.fixedRow = 0) (hmode : InMode (s.mincheck before) d)
    (hoff : s.cfg.checkSolutionInProp = false) (h : Lists s before d σ a) {m : Move}
    (hallowed : σ.Allowed s m) : σ.step s before m ≠ none := by
  apply System.step_ne_none hoff hallowed
  rintro rfl hquiet
  obtain ⟨τ, hfound⟩ := hallowed.2.2
  obtain ⟨M, hM, -, htotal⟩ :=
    total_of_found hf hmode h.ready.follows hfound (hfound.allNotified h.forced)
  rcases check_of_total hn hmode htotal hM with ⟨-, clause, hresult, -⟩ | ⟨-, hwrite⟩
  · simp [hresult]
  · rcases hwrite with ⟨-, hresult⟩ | ⟨-, hresult⟩ <;> simp [hresult]

/-- Every run is an enumeration. -/
theorem lists_of_reaches (hn : 1 ≤ n) (hf : s.cfg.fixedRow = 0)
    (hmode : InMode (s.mincheck before) d) (hall : s.cfg.allModels = true)
    (hoff : s.cfg.checkSolutionInProp = false) (h : System.Reaches s before σ) :
    ∃ a, Lists s before d σ a := by
  apply h.invariant
  · exact ⟨_, lists_start hf⟩
  · rintro σ σ' m ⟨a, ha⟩ hallowed hstep
    obtain ⟨b, -, hb⟩ := ha.step hn hf hmode hall hoff hallowed hstep
    exact ⟨b, hb⟩

end Run

/-- In every run with `--allModels`: the written tables are least ones, numbered in their order and
without repetition; no more models are checked than there are tables; `solve` is called once and
nothing is printed as a warning; and once the solver answers 20 all least tables are written. -/
theorem enumeration_exact (hn : 1 ≤ n) (s : Session n) (before : Bool) (d : Perm (Fin n))
    (hmode : InMode (s.mincheck before) d) (hf : s.cfg.fixedRow = 0)
    (hall : s.cfg.allModels = true) (hoff : s.cfg.checkSolutionInProp = false) (σ : System n)
    (h : System.Reaches s before σ) :
    ∃ tables : List (Fin n → Fin n → Fin n),
      σ.interface.output.map (·.matrix) = tables.map shown ∧
      σ.interface.output.map (·.number) = List.range' 1 σ.interface.nModels ∧
      σ.interface.nModels = tables.length ∧ tables.Nodup ∧ (∀ M ∈ tables, M ∈ wanted s d) ∧
      σ.checks ≤ (described s).ncard ∧ σ.solves = 1 ∧ σ.interface.warnings = 0 ∧
      (σ.ended = some 20 → ∀ M, M ∈ tables ↔ M ∈ wanted s d) := by
  obtain ⟨a, ha⟩ := lists_of_reaches hn hf hmode hall hoff h
  have hexact := Enumerator.exact_of_run ha.run
  refine ⟨a.reported, ha.written, ha.numbers, ha.counted, hexact.reported_nodup,
    fun M hM => ((hexact.reported M).mp hM).2, ?_, ha.solves, ha.silent, fun hend M => ?_⟩
  · rw [ha.checks]
    exact hexact.length_le (Set.toFinite _)
  · exact hexact.complete (ha.finished hend) M

/-- A run of `--size 3` in which a table was refused has written all least tables. -/
theorem enumeration_exact_instance : ∃ σ, System.Reaches (three true false) false σ ∧
    σ.ended = some 20 ∧ σ.interface.nModels < σ.checks ∧
    ∃ tables : List (Fin 3 → Fin 3 → Fin 3), σ.interface.output.map (·.matrix) = tables.map shown ∧
      ∀ M, M ∈ tables ↔ M ∈ wanted (three true false) 1 := by
  obtain ⟨σ, hreached, hended, hrefused⟩ := three_finished false (System.permits_all _)
  obtain ⟨tables, hwritten, -, -, -, -, -, -, -, hall⟩ := enumeration_exact (by decide)
    (three true false) false 1 (three_inMode true false) rfl rfl rfl σ hreached.reaches
  exact ⟨σ, hreached.reaches, hended, hrefused, tables, hwritten, hall hended⟩

/-- No run faults: from every reachable state every allowed move goes on. -/
theorem enumeration_goes_on (hn : 1 ≤ n) (s : Session n) (before : Bool) (d : Perm (Fin n))
    (hmode : InMode (s.mincheck before) d) (hf : s.cfg.fixedRow = 0)
    (hall : s.cfg.allModels = true) (hoff : s.cfg.checkSolutionInProp = false) (σ : System n)
    (h : System.Reaches s before σ) (m : Move) (hallowed : σ.Allowed s m) :
    σ.step s before m ≠ none := by
  obtain ⟨a, ha⟩ := lists_of_reaches hn hf hmode hall hoff h
  exact ha.goes_on hn hf hmode hoff hallowed

/-- The search over a table that it refuses goes on. -/
theorem enumeration_goes_on_instance : ∃ σ, System.Reaches (three true false) false σ ∧
    (((three true false).mincheck false).Total σ.interface.current turned) ∧
    σ.step (three true false) false (.callback .checkFoundModel) ≠ none := by
  obtain ⟨σ, τ, h⟩ := three_proposes true false (System.permits_all _)
  exact ⟨σ, h.reached.reaches, h.total, enumeration_goes_on (by decide) (three true false) false 1
    (three_inMode true false) rfl rfl rfl σ h.reached.reaches _ ⟨h.ended, h.quiet.2, τ, h.found⟩⟩

end YbeSms.Guarantees
