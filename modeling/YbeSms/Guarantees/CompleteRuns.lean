import YbeSms.Source.NotifiedTables
import YbeSms.Guarantees.FoundModels

/-!
# Runs that come to their end

Source: ybe-sms/src/solveCadicalClass.cpp:210-220; solveCadicalClass.hpp:164-305;
solveGeneral.cpp:145-183. Any table that no clause excludes can be notified on a level
of its own and found; its check adds one clause, the solver reads it and goes back to
the root. With `--allModels` the tables that are left get fewer, so such rounds end
with the answer 20.
-/

namespace YbeSms.Source

open YbeSms.Library YbeSms.Abstract

variable {n : Nat}

namespace System

/-- What the moves of the rounds below have to meet. -/
structure Permits (s : Session n) (P : System n → Move → Prop) : Prop where
  notify : ∀ σ e, P σ (.callback (.notify e))
  looks : ∀ σ, P σ (.callback (.hasExternalClause false))
  reads : ∀ σ, P σ (.callback .addExternalClauseLit)
  checks : ∀ σ, AllNotified s σ.ledger → P σ (.callback .checkFoundModel)
  answers : ∀ σ result, P σ (.answer result)

theorem permits_all (s : Session n) : Permits s fun _ _ => True :=
  ⟨fun _ _ => trivial, fun _ => trivial, fun _ => trivial, fun _ _ => trivial, fun _ _ => trivial⟩

/-- The state after notifications. -/
def notifiedBy (s : Session n) (σ : System n) (run : List Notification) : System n :=
  { σ with
    interface := { σ.interface with queue := { σ.interface.queue with
      propagator := run.foldl (Propagator.notify s.table) σ.interface.queue.propagator } }
    ledger := σ.ledger.after run }

/-- The state after a waiting clause is read to its end. -/
def readTo (σ : System n) (clause : Clause) : System n :=
  { σ with
    interface := { σ.interface with queue := { σ.interface.queue with clauses := [] } }
    learned := (clause ++ σ.reading) :: σ.learned
    reading := [] }

variable {s : Session n} {before : Bool} {P : System n → Move → Prop} {σ : System n}

theorem reachesBy_notifiedBy (hP : ∀ σ e, P σ (.callback (.notify e))) {run : List Notification}
    (h : ReachesBy s before P σ) (hended : σ.ended = none) (hquiet : σ.Quiescent)
    (hrun : Ledger.Run (Notifies s) σ.ledger run) :
    ReachesBy s before P (notifiedBy s σ run) := by
  induction run generalizing σ with
  | nil => exact h
  | cons e rest ih =>
    have hnext := h.step (.callback (.notify e)) ⟨hended, hquiet, hrun.1⟩ (hP σ e) rfl
    exact ih hnext hended hquiet hrun.2

theorem follows_notifiedBy (hf : s.cfg.fixedRow = 0)
    (h : Follows s (HeldInv s) σ.interface.queue.propagator σ.ledger) {run : List Notification}
    (hrun : Ledger.Run (Notifies s) σ.ledger run) :
    Follows s (HeldInv s) (notifiedBy s σ run).interface.queue.propagator
      (notifiedBy s σ run).ledger :=
  Ledger.Run.invariant (fun p l e => Follows.notify (undoKeeps_held s) (stepKeeps_held s hf) p l e)
    hrun h

/-- Where a clause waits, the propagator does not look for more. -/
theorem step_waiting {clause : Clause} {rest : List Clause} {drawn : Bool}
    (hclauses : σ.interface.queue.clauses = clause :: rest) :
    σ.step s before (.callback (.hasExternalClause drawn)) = some σ := by
  simp [System.step, Interface.step, ClauseQueue.looksForClauses, hclauses, receive]

theorem reachesBy_readTo (hP : ∀ σ, P σ (.callback .addExternalClauseLit)) {clause : Clause}
    (h : ReachesBy s before P σ) (hended : σ.ended = none)
    (hclauses : σ.interface.queue.clauses = [clause]) (hzero : (0 : Int) ∉ clause) :
    ReachesBy s before P (σ.readTo clause) := by
  have hallowed : σ.Allowed s (.callback .addExternalClauseLit) := ⟨hended, by simp [hclauses]⟩
  induction clause using List.reverseRecOn generalizing σ with
  | nil =>
    rcases Interface.step_addExternalClauseLit (s := s) before hclauses with
      ⟨-, hx⟩ | ⟨front, lit, hsplit, -⟩
    · exact h.step _ hallowed (hP σ) (by simp [System.step, hx, receive, readTo])
    · simp at hsplit
  | append_singleton front lit ih =>
    rcases Interface.step_addExternalClauseLit (s := s) before hclauses with
      ⟨hnil, -⟩ | ⟨front', lit', hsplit, hx⟩
    · simp at hnil
    · obtain ⟨rfl, hlit⟩ := List.append_inj' hsplit rfl
      obtain rfl : lit = lit' := by simpa using hlit
      have hne : lit ≠ 0 := by
        rintro rfl
        exact hzero (by simp)
      have hstep : σ.step s before (.callback .addExternalClauseLit) = some { σ with
          interface := { σ.interface with queue := { σ.interface.queue with clauses := [front] } }
          reading := lit :: σ.reading } := by
        simp [System.step, hx, receive, hne]
      have hnext := h.step _ hallowed (hP σ) hstep
      have hread := ih hnext hended rfl (fun h0 => hzero (List.mem_append_left _ h0))
        ⟨hended, by simp⟩
      simpa [readTo] using hread

end System

end YbeSms.Source

namespace YbeSms.Guarantees

open YbeSms.Library YbeSms.Abstract YbeSms.Source YbeSms.Source.MinCheck Equiv

variable {n : Nat}

/-- Between two rounds: the root level is empty, and only units of the formula are fixed. -/
structure Rests (s : Session n) (before : Bool) (P : System n → Move → Prop) (σ : System n) :
    Prop where
  reached : System.ReachesBy s before P σ
  ended : σ.ended = none
  quiet : σ.Quiescent
  follows : Follows s (HeldInv s) σ.interface.queue.propagator σ.ledger
  levels : σ.ledger.levels = [[]]
  fixed : ∀ lit ∈ σ.ledger.fixed, [lit] ∈ s.formula.cnf

/-- From such a state the table is notified on a level of its own, and the model is found. -/
structure Proposes (s : Session n) (before : Bool) (P : System n → Move → Prop) (σ : System n)
    (M : Fin n → Fin n → Fin n) (τ : Valuation) (σ' : System n) : Prop where
  reached : System.ReachesBy s before P σ'
  ended : σ'.ended = none
  quiet : σ'.Quiescent
  follows : Follows s (HeldInv s) σ'.interface.queue.propagator σ'.ledger
  level : ∃ level, σ'.ledger.levels = [level, []]
  fixed : ∀ lit ∈ σ'.ledger.fixed, [lit] ∈ s.formula.cnf
  assigns : Assigns s σ'.ledger M
  total : (s.mincheck before).Total σ'.interface.current M
  found : σ'.Found s τ
  learned : σ'.learned = σ.learned
  checks : σ'.checks = σ.checks
  nModels : σ'.interface.nModels = σ.interface.nModels

/-- The table can still be found: no clause that was read excludes it. -/
def Remains (s : Session n) (σ : System n) (M : Fin n → Fin n → Fin n) : Prop :=
  M ∈ described s ∧ ∃ τ, Indicates τ s.lits M ∧ Models τ (s.formula.cnf ++ σ.learned)

section Rounds

variable {s : Session n} {before : Bool} {P : System n → Move → Prop} {d : Perm (Fin n)}
  {σ : System n} {M : Fin n → Fin n → Fin n}

theorem rests_start (hf : s.cfg.fixedRow = 0) : Rests s before P (System.start s) where
  reached := .initial
  ended := rfl
  quiet := ⟨rfl, rfl⟩
  follows := by
    obtain ⟨hpic, htrail⟩ := s.picture_start (start_domains s hf).held
    exact ⟨hpic, htrail, by simp [System.start, Ledger.empty]⟩
  levels := rfl
  fixed _ hmem := absurd hmem List.not_mem_nil

/-- A literal of an observed entry is true where the variable has its sign. -/
theorem litTrue_signed {τ : Valuation} {e : Entry n} (ho : s.observed e = true)
    (positive : Bool) :
    LitTrue τ (signed s.lits e positive) ↔ τ (s.lits e.1 e.2.1 e.2.2) = positive := by
  have hpos := s.observing.pos e ho
  cases positive with
  | true => exact litTrue_pos τ hpos
  | false => exact litTrue_neg τ hpos

theorem value_of_indicates {τ : Valuation} (hτ : Indicates τ s.lits M) {e : Entry n}
    (ho : s.observed e = true) : τ (s.lits e.1 e.2.1 e.2.2) = decide (M e.1 e.2.1 = e.2.2) := by
  rw [Bool.eq_iff_iff, decide_eq_true_iff]
  exact hτ e.1 e.2.1 e.2.2 (s.observing.pos e ho).ne'

/-- A literal of the formula's units is that of every table. -/
theorem literal_of_unit {τ : Valuation} (hτ : Indicates τ s.lits M)
    (hmodels : Models τ s.formula.cnf) {e : Entry n} (ho : s.observed e = true) {positive : Bool}
    (hunit : [signed s.lits e positive] ∈ s.formula.cnf) :
    signed s.lits e positive = s.literal M e := by
  obtain ⟨l, hl, htrue⟩ := hmodels _ hunit
  rw [List.mem_singleton.mp hl, litTrue_signed ho, value_of_indicates hτ ho] at htrue
  rw [Session.literal, htrue]

/-- What is fixed between two rounds belongs to every table. -/
theorem Rests.within (h : Rests s before P σ) {τ : Valuation} (hτ : Indicates τ s.lits M)
    (hmodels : Models τ s.formula.cnf) : s.Within σ.ledger M := by
  intro lit hheld
  obtain ⟨e, positive, ho, rfl⟩ := h.follows.picture.observed lit hheld
  refine ⟨e, ho, ?_⟩
  rcases hheld with hmem | ⟨level, hlevel, hmem⟩
  · exact literal_of_unit hτ hmodels ho (h.fixed _ hmem)
  · rw [h.levels, List.mem_singleton] at hlevel
    rw [hlevel] at hmem
    cases hmem

/-- Where a table is notified, a model that indicates it is found. -/
theorem found_of_assigns (hfollows : Follows s (HeldInv s) σ.interface.queue.propagator σ.ledger)
    (ha : Assigns s σ.ledger M) {τ : Valuation} (hτ : Indicates τ s.lits M)
    (hmodels : Models τ (s.formula.cnf ++ σ.learned)) : σ.Found s τ where
  models := hmodels
  agrees e positive ho hheld := by
    by_contra hne
    have hother : positive = !τ (s.lits e.1 e.2.1 e.2.2) := by
      cases positive <;> simp_all
    apply hfollows.picture.consistent _ hheld
    rw [neg_signed, hother, Bool.not_not, value_of_indicates hτ ho]
    exact ha e ho
  notified e ho := by
    left
    rw [value_of_indicates hτ ho]
    exact ha e ho

/-- What a found model says falsifies no clause that was read. -/
theorem unfalsified_of_found
    (hfollows : Follows s (HeldInv s) σ.interface.queue.propagator σ.ledger) {τ : Valuation}
    (hfound : σ.Found s τ) : σ.Unfalsified := by
  intro c hc hfalse
  obtain ⟨l, hl, htrue⟩ := hfound.models c (List.mem_append_right _ hc)
  have hheld := hfalse l hl
  obtain ⟨e, positive, ho, heq⟩ := hfollows.picture.observed _ hheld
  rw [heq] at hheld
  have hvalue : τ (s.lits e.1 e.2.1 e.2.2) = positive := hfound.agrees e positive ho hheld
  rw [← neg_neg l, heq, neg_signed, litTrue_signed ho, hvalue] at htrue
  simp at htrue

/-- The notifications of a round. -/
theorem Rests.exists_level (h : Rests s before P σ) (hM : M ∈ described s) {τ : Valuation}
    (hτ : Indicates τ s.lits M) (hmodels : Models τ s.formula.cnf) :
    ∃ run, Ledger.Run (Notifies s) σ.ledger (.newDecisionLevel :: run) ∧
      Assigns s (σ.ledger.after (.newDecisionLevel :: run)) M ∧
      (∃ level, (σ.ledger.after (.newDecisionLevel :: run)).levels = [level, []]) ∧
      ∀ lit ∈ (σ.ledger.after (.newDecisionLevel :: run)).fixed, [lit] ∈ s.formula.cnf := by
  have hwithin : s.Within (σ.ledger.notify .newDecisionLevel) M := by
    intro lit hheld
    apply h.within hτ hmodels lit
    simpa [Ledger.Held, Ledger.notify] using hheld
  have hlevels : (σ.ledger.notify .newDecisionLevel).levels = [] :: [[]] := by
    simp [Ledger.notify, h.levels]
  have hadmits : (s.mincheck before).Admits M := admits_of_described hM
  obtain ⟨run, hrun, hwithin', hassigns, hlevel, hfixed⟩ := hwithin.exists_assigns hadmits hlevels
  refine ⟨run, ⟨⟨trivial, trivial⟩, hrun⟩, hassigns, hlevel, fun lit hmem => ?_⟩
  rcases hfixed lit hmem with hold | hunit
  · exact h.fixed lit hold
  · -- of the two unit clauses only that of the table's literal can hold
    obtain ⟨e, ho, heq⟩ := hwithin' lit (Or.inl hmem)
    rcases of_decide_eq_true hunit with hunit | hunit
    · exact hunit
    · rw [heq, Session.literal, neg_signed] at hunit
      have hsame := literal_of_unit hτ hmodels ho hunit
      obtain ⟨-, hsign⟩ := signed_inj s.observing ho ho hsame
      simp at hsign

theorem Rests.propose (hf : s.cfg.fixedRow = 0) (hP : System.Permits s P)
    (h : Rests s before P σ) (hM : M ∈ described s) {τ : Valuation} (hτ : Indicates τ s.lits M)
    (hmodels : Models τ (s.formula.cnf ++ σ.learned)) :
    ∃ σ', Proposes s before P σ M τ σ' := by
  have hformula : Models τ s.formula.cnf := fun c hc => hmodels c (List.mem_append_left _ hc)
  obtain ⟨run, hrun, hassigns, hlevel, hfixed⟩ := h.exists_level hM hτ hformula
  have hfollows := System.follows_notifiedBy hf h.follows hrun
  refine ⟨System.notifiedBy s σ (.newDecisionLevel :: run), ?_, h.ended, h.quiet, hfollows, hlevel,
    hfixed, hassigns, ?_, found_of_assigns hfollows hassigns hτ hmodels, rfl, rfl, rfl⟩
  · exact System.reachesBy_notifiedBy hP.notify h.reached h.ended h.quiet hrun
  · exact total_of_assigns hfollows.picture (admits_of_described hM) hassigns

/-- One round: the table is found and checked, and the clause of the check is read. -/
theorem Rests.round (hn : 1 ≤ n) (hf : s.cfg.fixedRow = 0) (hmode : InMode (s.mincheck before) d)
    (hP : System.Permits s P) (h : Rests s before P σ) (hM : Remains s σ M)
    (hadds : M ∈ wanted s d → s.cfg.allModels = true) :
    ∃ σ' clause, Rests s before P σ' ∧ σ'.learned = clause :: σ.learned ∧
      (s.mincheck before).FailsIn clause M ∧
      (∀ N ∈ wanted s d, N ≠ M → (s.mincheck before).HoldsIn clause N) ∧
      σ'.checks = σ.checks + 1 ∧
      ((M ∉ wanted s d ∧ σ'.interface.nModels = σ.interface.nModels) ∨
        (M ∈ wanted s d ∧ σ'.interface.nModels = σ.interface.nModels + 1)) := by
  obtain ⟨hdescribed, τ, hτ, hmodels⟩ := hM
  obtain ⟨σ₁, h₁⟩ := h.propose hf hP hdescribed hτ hmodels
  -- what the check adds, and what it writes
  have hcheck : ∃ x clause, σ₁.interface.check s before = some (x, false) ∧
      x.queue = σ₁.interface.queue.addClause clause ∧ (0 : Int) ∉ clause ∧
      (s.mincheck before).FailsIn clause M ∧
      (∀ N ∈ wanted s d, N ≠ M → (s.mincheck before).HoldsIn clause N) ∧
      ((M ∉ wanted s d ∧ x.nModels = σ₁.interface.nModels) ∨
        (M ∈ wanted s d ∧ x.nModels = σ₁.interface.nModels + 1)) := by
    rcases check_of_total hn hmode h₁.total hdescribed with
      ⟨hno, clause, hresult, hrefutes⟩ | ⟨hwanted, ⟨-, hresult⟩ | ⟨hone, -⟩⟩
    · exact ⟨_, clause, hresult, rfl, hrefutes.nonzero, hrefutes.fails,
        fun N hN _ => hrefutes.holds N hN, Or.inl ⟨hno, rfl⟩⟩
    · exact ⟨_, _, hresult, rfl, zero_not_mem_excludeCurrent h₁.total,
        excludeCurrent_failsIn h₁.total,
        fun N hN hne => excludeCurrent_holdsIn h₁.total (admits_of_described hN.1) hne,
        Or.inr ⟨hwanted, rfl⟩⟩
    · rw [hadds hwanted] at hone
      cases hone
  obtain ⟨x, clause, hresult, hqueue, hzero, hfails, hholds, hwrites⟩ := hcheck
  have hstep : σ₁.step s before (.callback .checkFoundModel) =
      some { σ₁ with interface := x, accepted := false, checks := σ₁.checks + 1 } := by
    simp [System.step, Interface.step, h₁.quiet.1, hresult, System.receive]
  have hchecked := h₁.reached.step (.callback .checkFoundModel) ⟨h₁.ended, h₁.quiet.2, τ, h₁.found⟩
    (hP.checks σ₁ fun e ho => ⟨_, h₁.assigns e ho⟩) hstep
  have hwaiting : x.queue.clauses = [clause] := by
    rw [hqueue, ClauseQueue.addClause, h₁.quiet.1]
  have hpropagator : x.queue.propagator = σ₁.interface.queue.propagator := by
    rw [hqueue, ClauseQueue.addClause]
  -- the solver asks, reads the clause and goes back to the root
  have hunfalsified : σ₁.Unfalsified := unfalsified_of_found h₁.follows h₁.found
  have hasked := hchecked.step (.callback (.hasExternalClause false))
    ⟨h₁.ended, h₁.quiet.2, hunfalsified⟩ (hP.looks _) (System.step_waiting hwaiting)
  have hread := System.reachesBy_readTo hP.reads hasked h₁.ended hwaiting hzero
  have hbacktrack : ∀ l, Ledger.Run (Notifies s) l [.backtrack 0] := fun _ =>
    ⟨⟨trivial, trivial⟩, trivial⟩
  have hback := System.reachesBy_notifiedBy hP.notify hread h₁.ended ⟨rfl, rfl⟩ (hbacktrack _)
  obtain ⟨level, hlevels⟩ := h₁.level
  refine ⟨_, clause, ⟨hback, h₁.ended, ⟨rfl, rfl⟩, ?_, ?_, h₁.fixed⟩, ?_, hfails, hholds,
    congrArg (· + 1) h₁.checks, ?_⟩
  · refine System.follows_notifiedBy hf ?_ (hbacktrack _)
    have hthere : Follows s (HeldInv s) x.queue.propagator σ₁.ledger := by
      rw [hpropagator]
      exact h₁.follows
    exact hthere
  · have hdrop : σ₁.ledger.levels.drop (σ₁.ledger.closing 0) = [[]] := by
      simp [Ledger.closing, hlevels]
    exact hdrop
  · simp [System.notifiedBy, System.readTo, h₁.quiet.2, h₁.learned]
  · rw [h₁.nModels] at hwrites
    exact hwrites

/-- A table that a clause does not exclude remains after the clause is read. -/
theorem Remains.after {σ' : System n} {clause : Clause} (h : Remains s σ M)
    (hlearned : σ'.learned = clause :: σ.learned)
    (hholds : (s.mincheck before).HoldsIn clause M) : Remains s σ' M := by
  obtain ⟨hM, τ, hτ, hmodels⟩ := h
  refine ⟨hM, τ, hτ, fun c hc => ?_⟩
  rw [hlearned, List.mem_append, List.mem_cons] at hc
  rcases hc with hc | rfl | hc
  · exact hmodels c (List.mem_append_left _ hc)
  · exact hholds τ hτ
  · exact hmodels c (List.mem_append_right _ hc)

theorem remains_start (hf : s.cfg.fixedRow = 0) (hmode : InMode (s.mincheck before) d)
    (hM : M ∈ described s) : Remains s (System.start s) M := by
  obtain ⟨τ, hτ, hmodels⟩ := exists_model hf hmode hM
  exact ⟨hM, τ, hτ, by simpa [System.start] using hmodels⟩

/-- With `--allModels` rounds lead to the answer 20, by induction on the tables that are left. -/
theorem Rests.finish (hn : 1 ≤ n) (hf : s.cfg.fixedRow = 0)
    (hmode : InMode (s.mincheck before) d) (hall : s.cfg.allModels = true)
    (hP : System.Permits s P) (h : Rests s before P σ) :
    ∃ σ', System.ReachesBy s before P σ' ∧ σ'.ended = some 20 ∧
      σ'.interface.nModels + σ.checks ≤ σ'.checks + σ.interface.nModels := by
  generalize hleft : {M | Remains s σ M}.ncard = left
  induction left using Nat.strong_induction_on generalizing σ with
  | _ left ih =>
    by_cases hnone : ∀ M, ¬ Remains s σ M
    · have hunsat : ∀ τ, ¬ Models τ (s.formula.cnf ++ σ.learned ++ σ.lent) := by
        intro τ hmodels
        have hkept : Models τ (s.formula.cnf ++ σ.learned) := fun c hc =>
          hmodels c (List.mem_append_left _ hc)
        obtain ⟨M, hM, hτ⟩ := (describes_formula hf hmode).sound τ fun c hc =>
          hkept c (List.mem_append_left _ hc)
        exact hnone M ⟨hM, τ, hτ, hkept⟩
      have hdone := h.reached.step (.answer 20)
        ⟨h.ended, h.quiet, Or.inr (Or.inl ⟨rfl, hunsat⟩)⟩ (hP.answers σ 20) rfl
      exact ⟨_, hdone, rfl, le_of_eq (Nat.add_comm _ _)⟩
    · push Not at hnone
      obtain ⟨M, hM⟩ := hnone
      obtain ⟨σ₁, clause, hrests, hlearned, hfails, -, hchecks, hcount⟩ :=
        h.round hn hf hmode hP hM fun _ => hall
      have hfewer : {N | Remains s σ₁ N}.ncard < left := by
        rw [← hleft]
        apply Set.ncard_lt_ncard _ (Set.toFinite _)
        refine (Set.ssubset_iff_of_subset fun N hN => ?_).mpr ⟨M, hM, ?_⟩
        · obtain ⟨hdescribed, τ, hτ, hmodels⟩ := hN
          refine ⟨hdescribed, τ, hτ, fun c hc => hmodels c ?_⟩
          rw [hlearned, List.mem_append, List.mem_cons]
          exact (List.mem_append.mp hc).imp_right Or.inr
        · rintro ⟨-, τ, hτ, hmodels⟩
          exact hfails τ hτ (hmodels clause (by simp [hlearned]))
      obtain ⟨σ', hreached, hended, hle⟩ := ih _ hfewer hrests rfl
      refine ⟨σ', hreached, hended, ?_⟩
      rcases hcount with ⟨-, hsame⟩ | ⟨-, hmore⟩ <;> omega

/-- Some run comes to its end; it may check any table first. -/
theorem exists_finished (hn : 1 ≤ n) (hf : s.cfg.fixedRow = 0)
    (hmode : InMode (s.mincheck before) d) (hall : s.cfg.allModels = true)
    (hP : System.Permits s P) (first : Fin n → Fin n → Fin n) (hfirst : first ∈ described s) :
    ∃ σ, System.ReachesBy s before P σ ∧ σ.ended = some 20 ∧
      (first ∉ wanted s d → σ.interface.nModels < σ.checks) := by
  obtain ⟨σ₁, clause, hrests, -, -, -, hchecks, hcount⟩ :=
    (rests_start hf).round hn hf hmode hP (remains_start hf hmode hfirst) fun _ => hall
  obtain ⟨σ, hreached, hended, hle⟩ := hrests.finish hn hf hmode hall hP
  refine ⟨σ, hreached, hended, fun hno => ?_⟩
  rcases hcount with ⟨-, hsame⟩ | ⟨hwanted, -⟩
  · have hstart : (System.start s).checks = 0 ∧ (System.start s).interface.nModels = 0 :=
      ⟨rfl, rfl⟩
    omega
  · exact absurd hwanted hno

end Rounds

/-! ### Size 3 -/

/-- `--size 3`, with `--allModels` and checks in the propagator or without. -/
def three (allModels inProp : Bool) : Session 3 :=
  ⟨{ allModels := allModels, checkSolutionInProp := inProp }, id, id⟩

theorem turned_hasDiagonal : HasDiagonal id turned :=
  ⟨by unfold RowsPermute; decide, by decide, by unfold CycleIdentity; decide⟩

/-- The turned row comes last in a smaller table of the class. -/
theorem turned_not_least : ¬ LeastUnder 1 turned := by
  intro hleast
  have hless : rowMajor (act (swap 1 2) turned) < rowMajor turned :=
    rowMajor_lt_of_le (q := (1, 0)) (by decide) (by decide)
  exact absurd (hleast (swap 1 2) (Commute.one_right _)) (not_le.mpr hless)

section Three

variable (allModels inProp : Bool)

theorem three_inMode : InMode ((three allModels inProp).mincheck false) 1 := ⟨rfl, rfl⟩

theorem turned_described : turned ∈ described (three allModels inProp) :=
  turned_hasDiagonal.isCycleSet Function.bijective_id

variable {P : System 3 → Move → Prop}

/-- A run that comes to its end after the check has refused a table. -/
theorem three_finished (hP : System.Permits (three true inProp) P) :
    ∃ σ, System.ReachesBy (three true inProp) false P σ ∧ σ.ended = some 20 ∧
      σ.interface.nModels < σ.checks := by
  obtain ⟨σ, hreached, hended, hrefused⟩ := exists_finished (by decide) rfl
    (three_inMode true inProp) rfl hP turned (turned_described true inProp)
  exact ⟨σ, hreached, hended, hrefused fun hwanted => turned_not_least hwanted.2⟩

/-- A table that the check refuses is found. -/
theorem three_proposes (hP : System.Permits (three allModels inProp) P) :
    ∃ σ τ, Proposes (three allModels inProp) false P (System.start (three allModels inProp)) turned
      τ σ := by
  obtain ⟨-, τ, hτ, hmodels⟩ :=
    remains_start rfl (three_inMode allModels inProp) (turned_described allModels inProp)
  obtain ⟨σ, hσ⟩ := (rests_start rfl).propose rfl hP (turned_described allModels inProp) hτ hmodels
  exact ⟨σ, τ, hσ⟩

end Three

end YbeSms.Guarantees
