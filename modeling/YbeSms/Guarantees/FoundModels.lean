import YbeSms.Source.SolverSteps
import YbeSms.Source.YbeEncoding
import YbeSms.Guarantees.ForcingClauses
import YbeSms.Guarantees.TotalTrail

/-!
# The check of a found model

Source: ybe-sms/src/solveGeneral.cpp:30-183; solveCadicalClass.hpp:259-269. A found
model is a cycle set, and the propagator shows it as a whole. The check adds one
clause that fails in it. Where the table is not least, the clause holds in all least
ones; else the table is written and the clause excludes it alone.
-/

namespace YbeSms.Guarantees

open YbeSms.Library YbeSms.Abstract YbeSms.Source YbeSms.Source.MinCheck Equiv

variable {n : Nat}

/-- The tables the formula of a session describes. -/
def described (s : Session n) : Set (Fin n → Fin n → Fin n) :=
  {M | if s.cfg.diagPart then HasDiagonal s.d M else IsCycleSet M}

/-- The tables the session is to list. -/
def wanted (s : Session n) (d : Perm (Fin n)) : Set (Fin n → Fin n → Fin n) :=
  {M | M ∈ described s ∧ LeastUnder d M}

section Session

variable {s : Session n} {before : Bool} {d : Perm (Fin n)} {M N : Fin n → Fin n → Fin n}

theorem admits_of_described (h : M ∈ described s) : (s.mincheck before).Admits M := by
  unfold described at h
  by_cases hd : s.cfg.diagPart = true
  · simp only [Set.mem_ofPred_eq, if_pos hd] at h
    exact ⟨h.rows, fun _ => h.diagonal⟩
  · simp only [Set.mem_ofPred_eq, if_neg hd] at h
    exact ⟨h.rows, fun hno => absurd hno hd⟩

/-- The formula describes the tables. -/
theorem describes_formula (hf : s.cfg.fixedRow = 0) (hmode : InMode (s.mincheck before) d) :
    Describes s.formula (· ∈ described s) := by
  unfold described Session.formula mainFormula
  by_cases hd : s.cfg.diagPart = true
  · have hdiag : s.d = d := by
      have hdm : (s.mincheck before).cfg.diagPart = true := hd
      unfold InMode at hmode
      rw [if_pos hdm] at hmode
      exact hmode.2
    have hdesc := encodeDiagonal_describes s.cfg s.d (by rw [hdiag]; exact d.injective)
    simp only [hd, if_true, hf, lt_irrefl, if_false, List.append_nil]
    exact hdesc
  · simp only [hd]
    exact encodeNoDiag_describes s.cfg

/-- A found model is one of the tables, and the notified assignment is that of the table. -/
theorem table_of_found (hf : s.cfg.fixedRow = 0) (hmode : InMode (s.mincheck before) d)
    {σ : System n} {τ : Valuation} (h : σ.Found s τ) (hall : System.AllNotified s σ.ledger) :
    ∃ M, M ∈ described s ∧ Indicates τ s.lits M ∧ Assigns s σ.ledger M := by
  have hmodels : Models τ s.formula.cnf := fun c hc => h.models c (List.mem_append_left _ hc)
  obtain ⟨M, hM, hτ⟩ := (describes_formula hf hmode).sound τ hmodels
  refine ⟨M, hM, hτ, fun e ho => ?_⟩
  have hpos := s.observing.pos e ho
  have hsame : τ (s.lits e.1 e.2.1 e.2.2) = decide (M e.1 e.2.1 = e.2.2) := by
    rw [Bool.eq_iff_iff, decide_eq_true_iff]
    exact hτ e.1 e.2.1 e.2.2 hpos.ne'
  rw [← hsame]
  exact h.holds hall e ho

/-- Some valuation that indicates a table satisfies the formula. -/
theorem exists_model (hf : s.cfg.fixedRow = 0) (hmode : InMode (s.mincheck before) d)
    (hM : M ∈ described s) : ∃ τ, Indicates τ s.lits M ∧ Models τ s.formula.cnf := by
  have hnumbered := numbered_mincheck s before
  obtain ⟨hi, htable⟩ := hnumbered.table
  obtain ⟨τ, hτ⟩ := htable.exists_indicates M
  obtain ⟨σ, hag, hσ⟩ := (describes_formula hf hmode).complete τ M hM hτ
  exact ⟨σ, (hag.indicates M).mp hτ, hσ⟩

/-! ### The clause against the current table -/

theorem mem_excludeCurrent {c : CycleSet n} {l : Int} : l ∈ excludeCurrent s c ↔
    ∃ i j k, (s.cfg.diagPart = true → i ≠ j) ∧ c.assignments i j k = .isTrue ∧
      l = -s.lits i j k := by
  unfold excludeCurrent
  simp only [List.mem_flatMap, mem_cells, true_and, Prod.exists]
  refine exists_congr fun i => exists_congr fun j => ?_
  by_cases hdiag : s.cfg.diagPart = true ∧ i = j
  · rw [if_pos (by simp [hdiag])]
    simp [hdiag]
  · rw [if_neg (by simpa using hdiag)]
    have hoff : s.cfg.diagPart = true → i ≠ j := fun hd heq => hdiag ⟨hd, heq⟩
    simp only [List.mem_map, List.mem_filter, List.mem_finRange, true_and, decide_eq_true_eq]
    exact exists_congr fun k => ⟨fun h => ⟨hoff, h.1, h.2.symm⟩, fun h => ⟨h.2.1, h.2.2.symm⟩⟩

section Total

variable {c : CycleSet n} (h : (s.mincheck before).Total c M)

include h

theorem mem_excludeCurrent_of_total {l : Int} : l ∈ excludeCurrent s c ↔
    ∃ i j, (s.cfg.diagPart = true → i ≠ j) ∧ l = -s.lits i j (M i j) := by
  rw [mem_excludeCurrent]
  refine exists_congr fun i => exists_congr fun j => ?_
  constructor
  · rintro ⟨k, hoff, htrue, rfl⟩
    have hcell := (h.consistent.isTrue i j k).mpr htrue
    rw [h.matrix, Option.some.injEq] at hcell
    exact ⟨hoff, by rw [hcell]⟩
  · rintro ⟨hoff, rfl⟩
    exact ⟨M i j, hoff, (h.consistent.isTrue i j _).mp (h.matrix i j), rfl⟩

theorem lits_ne_zero_of_total {i j : Fin n} (hoff : s.cfg.diagPart = true → i ≠ j) :
    s.lits i j (M i j) ≠ 0 := by
  refine ((numbered_mincheck s before).nonzero i j (M i j)).mpr fun hd _ => ⟨hoff hd, fun heq => ?_⟩
  rw [← h.admits.diagonal hd i] at heq
  exact hoff hd ((h.rows i).1 heq).symm

theorem zero_not_mem_excludeCurrent : (0 : Int) ∉ excludeCurrent s c := by
  rw [mem_excludeCurrent_of_total h]
  rintro ⟨i, j, hoff, hzero⟩
  exact lits_ne_zero_of_total h hoff (by omega)

theorem excludeCurrent_failsIn : (s.mincheck before).FailsIn (excludeCurrent s c) M := by
  apply (numbered_mincheck s before).failsIn
  intro l hl
  obtain ⟨i, j, -, rfl⟩ := (mem_excludeCurrent_of_total h).mp hl
  exact Or.inr ⟨i, j, M i j, rfl, rfl⟩

/-- Every other table keeps its models. -/
theorem excludeCurrent_holdsIn (hN : (s.mincheck before).Admits N) (hne : N ≠ M) :
    (s.mincheck before).HoldsIn (excludeCurrent s c) N := by
  intro τ hτ
  have hcell : ∃ i j, N i j ≠ M i j := by
    by_contra hall
    push Not at hall
    exact hne (funext fun i => funext fun j => hall i j)
  obtain ⟨i, j, hij⟩ := hcell
  have hoff : s.cfg.diagPart = true → i ≠ j := by
    rintro hd rfl
    exact hij ((hN.diagonal hd i).trans (h.admits.diagonal hd i).symm)
  refine ⟨_, (mem_excludeCurrent_of_total h).mpr ⟨i, j, hoff, rfl⟩, ?_⟩
  exact ((numbered_mincheck s before).litTrue_neg hτ (lits_ne_zero_of_total h hoff)).mpr hij

end Total

/-- The literals of a forcing clause have variables. -/
theorem zero_not_mem_of_forcing {c : CycleSet n} {clause : Clause}
    (hforcing : (s.mincheck before).Forcing c clause) : (0 : Int) ∉ clause := by
  obtain ⟨e, he⟩ := hforcing
  intro h0
  rcases he 0 h0 with ⟨i, j, v, ho, hlit⟩ | ⟨ho, hlit, -⟩
  · have hpos : 0 < s.lits i j v := s.observing.pos (i, j, v) ho
    have hzero : (0 : Int) = s.lits i j v ∨ (0 : Int) = -s.lits i j v :=
      hlit.imp (fun hx => hx.1) fun hx => hx.1
    omega
  · have hpos : 0 < s.lits e.1 e.2.1 e.2.2 := s.observing.pos e ho
    have hzero : (0 : Int) = -s.lits e.1 e.2.1 e.2.2 := hlit
    omega

/-! ### The outcome -/

/-- A clause without a zero, of which `addClause` does not warn, that holds in all least tables. -/
structure Spares (s : Session n) (before : Bool) (d : Perm (Fin n)) (c : CycleSet n)
    (clause : Clause) : Prop where
  holds : ∀ N ∈ wanted s d, (s.mincheck before).HoldsIn clause N
  nonzero : (0 : Int) ∉ clause
  silent : warns (c.truthOf s.table) clause = false

/-- A clause that is thrown for a whole table that is not least. -/
structure Refutes (s : Session n) (before : Bool) (d : Perm (Fin n)) (c : CycleSet n)
    (M : Fin n → Fin n → Fin n) (clause : Clause) : Prop extends Spares s before d c clause where
  fails : (s.mincheck before).FailsIn clause M

/-- The minimality check of a whole table refutes it or finds it least. -/
theorem run_of_total (hn : 1 ≤ n) (hmode : InMode (s.mincheck before) d) {c : CycleSet n}
    (h : (s.mincheck before).Total c M) (hM : M ∈ described s) :
    (M ∉ wanted s d ∧ ∃ clause, ((s.mincheck before).run c true).result = .error (.clause clause) ∧
      Refutes s before d c M clause) ∨
    (M ∈ wanted s d ∧ ((s.mincheck before).run c true).result = .ok ()) := by
  have hs := hmode.serves hn
  cases hresult : ((s.mincheck before).run c true).result with
  | error stop =>
    obtain ⟨clause, rfl, ⟨p, hp, hlt⟩, hfails⟩ := beaten_of_error hs h.toShows hn hresult
    left
    have hforcing := stop_of_total hmode h hn (fun _ => ruled_forcing_of_total hmode h) hresult
      clause rfl
    have hholds : ∀ N ∈ wanted s d, (s.mincheck before).HoldsIn clause N := fun N hN =>
      stop_of_total hmode h hn (ruled_of_total hmode (numbered_mincheck s before) h) hresult clause
        rfl N (admits_of_described hN.1) hN.2
    refine ⟨fun hwanted => absurd (hwanted.2 p hp) (not_le.mpr hlt), clause, rfl, ?_⟩
    exact ⟨⟨hholds, zero_not_mem_of_forcing hforcing, warns_of_forcing hforcing⟩,
      hfails hmode (numbered_mincheck s before)⟩
  | ok u => exact Or.inr ⟨⟨hM, (run_ok_iff hs h.toShows hn).mp hresult⟩, rfl⟩

theorem fullDefined_of_total {c : CycleSet n} (h : (s.mincheck before).Total c M) :
    c.fullDefined = true := by
  unfold CycleSet.fullDefined
  rw [List.all_eq_true]
  intro q _
  rw [h.matrix]
  rfl

/-- The check of a whole table goes on, and either refutes it or writes it. -/
theorem check_of_total (hn : 1 ≤ n) (hmode : InMode (s.mincheck before) d) {x : Interface n}
    (h : (s.mincheck before).Total x.current M) (hM : M ∈ described s) :
    (M ∉ wanted s d ∧ ∃ clause, x.check s before = some (x.addClause s clause true, false) ∧
      Refutes s before d x.current M clause) ∨
    (M ∈ wanted s d ∧
      ((s.cfg.allModels = true ∧ x.check s before =
          some (x.write.addClause s (excludeCurrent s x.current) false, false)) ∨
        (s.cfg.allModels = false ∧ x.check s before = some (x.write, true)))) := by
  have hfull := fullDefined_of_total h
  rcases run_of_total hn hmode h hM with ⟨hno, clause, hresult, hrefutes⟩ | ⟨hwanted, hresult⟩
  · refine Or.inl ⟨hno, clause, ?_, hrefutes⟩
    simp [Interface.check, Interface.checkMin, hresult]
  · refine Or.inr ⟨hwanted, ?_⟩
    cases hall : s.cfg.allModels with
    | true =>
      exact Or.inl ⟨rfl, by simp [Interface.check, Interface.checkMin, hresult, hfull, hall]⟩
    | false =>
      exact Or.inr ⟨rfl, by simp [Interface.check, Interface.checkMin, hresult, hall]⟩

end Session

end YbeSms.Guarantees
