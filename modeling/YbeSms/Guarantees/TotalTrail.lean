import YbeSms.Source.NotifiedTables
import YbeSms.Source.SolveGeneral
import YbeSms.Guarantees.DomainRestore

/-!
# What the callbacks see

Source: ybe-sms/src/solveCadicalClass.hpp:164-257, 308-319; solveCadicalClass.cpp:172-191.
A backtrack may leave the domains of open cells too large. Even so, once all
observed variables are assigned the checks see exactly the assigned table, and on a
closed assignment `cb_decide` picks a variable that is open.
-/

namespace YbeSms.Guarantees

open YbeSms.Library YbeSms.Abstract YbeSms.Source YbeSms.Source.MinCheck

variable {n : Nat}

/-- Every run of notifications keeps the picture and the bounds on the domains. -/
theorem follows_held {s : Session n} (hf : s.cfg.fixedRow = 0) {run : List Notification}
    (hrun : Ledger.Run (Notifies s) .empty run) :
    Follows s (HeldInv s) (s.after run) (Ledger.empty.after run) :=
  Session.follows (undoKeeps_held s) (stepKeeps_held s hf) (start_domains s hf).held hrun

/-- In every run, whatever was undone before: when the observed variables are assigned as in a
table, the propagator shows that table with every other value refused. -/
theorem total_trail_exact (s : Session n) (hf : s.cfg.fixedRow = 0) (run : List Notification)
    (hrun : Ledger.Run (Notifies s) .empty run) (before : Bool) (M : Fin n → Fin n → Fin n)
    (hM : (s.mincheck before).Admits M) (ha : Assigns s (Ledger.empty.after run) M) :
    (s.mincheck before).Total (s.after run).currentCycleSet M :=
  total_of_assigns (follows_held hf hrun).picture hM ha

/-- Cell (0,1) has the diagonal's value of its row for one level, and a level is opened. -/
def undoneDecision : List Notification :=
  [.newDecisionLevel, .assignment 4 false, .backtrack 0, .newDecisionLevel]

theorem undoneDecision_run : Ledger.Run (Notifies fullDiagonal) .empty undoneDecision := by
  refine ⟨⟨trivial, trivial⟩, ⟨?_, ?_⟩, ⟨trivial, trivial⟩, ⟨trivial, trivial⟩, trivial⟩
  · unfold Session.Promised Ledger.Held
    decide +kernel
  · unfold OneColumn Ledger.Held
    decide +kernel

/-- The row in the middle is turned round. -/
def turned : Fin 3 → Fin 3 → Fin 3 := fun i j => if i.val = 1 then j.rev else j

/-- After the undone decision the rest of the run notifies a table, and it is shown. -/
theorem total_trail_exact_instance : ∃ run,
    Ledger.Run (Notifies fullDiagonal) .empty (undoneDecision ++ run) ∧
      (fullDiagonal.mincheck false).Total
        (fullDiagonal.after (undoneDecision ++ run)).currentCycleSet turned := by
  have hM : (fullDiagonal.mincheck false).Admits turned :=
    ⟨by unfold RowsPermute; decide, fun _ => by decide⟩
  have hwithin : fullDiagonal.Within (Ledger.empty.after undoneDecision) turned :=
    within_of_empty rfl (by decide)
  obtain ⟨run, hrun, -, hassigns, -⟩ := hwithin.exists_assigns hM rfl
  have hall : Ledger.Run (Notifies fullDiagonal) .empty (undoneDecision ++ run) :=
    (Ledger.run_append _ _ _ _).mpr ⟨undoneDecision_run, hrun⟩
  refine ⟨run, hall, total_trail_exact fullDiagonal rfl _ hall false turned hM ?_⟩
  rwa [Ledger.after, List.foldl_append]

/-- Next to a true entry every other value of its cell is notified false. -/
def CellsClosed (s : Session n) (l : Ledger) : Prop :=
  ∀ i j k, s.observed (i, j, k) = true → l.Held (s.lits i j k) →
    ∀ k', k' ≠ k → s.lits i j k' ≠ 0 → l.Held (-s.lits i j k')

/-- In a closed cell with a value no other value is left. -/
theorem numTrue_of_value {s : Session n} {p : Propagator n} {l : Ledger}
    (h : Picture s (HeldInv s) p l) (hclosed : CellsClosed s l) {i j v : Fin n}
    (hij : s.cfg.diagPart = true → i ≠ j) (hv : p.currentCycleSet.matrix i j = some v) :
    (p.currentCycleSet.bitdomains i j).numTrue ≤ 1 := by
  have hD := h.extra
  obtain ⟨ho, hheld⟩ := h.held_of_matrix hij hv
  have hleft : ∀ w, (p.currentCycleSet.bitdomains i j).dom w = true → w = v := by
    intro w hw
    by_contra hne
    by_cases how : s.observed (i, j, w) = true
    · have hfalse := hclosed i j v ho hheld w hne (s.observing.pos (i, j, w) how).ne'
      rw [hD.excluded i j w ((h.mirrors.isFalse i j w how).mpr hfalse)] at hw
      cases hw
    · rw [hD.outside i j w hij (by simpa using how)] at hw
      cases hw
  rw [(hD.exact i j).numTrue, Nat.cast_le_one, countBits, Finset.card_le_one]
  intro a ha b hb
  rw [hleft a (by simpa using ha), hleft b (by simpa using hb)]

/-- A domain with two values has a least one, which is its first. -/
theorem exists_first {b : BitDomain n} (hb : b.Exact) (hmany : 1 < b.numTrue) :
    ∃ v, ofInt b.firstel = some v ∧ b.dom v = true ∧ ∀ w, b.dom w = true → v ≤ w := by
  have hsome : ∃ v, b.dom v = true := by
    by_contra hnone
    push Not at hnone
    rw [hb.numTrue, (countBits_eq_zero_iff _).mpr fun v => by simpa using hnone v] at hmany
    omega
  obtain ⟨w, hw⟩ := hsome
  obtain ⟨v, -, hleast, hv, hmin⟩ := exists_leastBit b.dom w hw
  refine ⟨v, ?_, hv, fun x hx => ?_⟩
  · rw [hb.firstel, hleast]
    simp [ofInt]
  · by_contra hlt
    rw [hmin x (not_le.mp hlt)] at hx
    cases hx

/-- `cb_decide` asks for the least value of the first cell with two values, if there is one. -/
theorem decideLit_cases (s : Session n) {c : CycleSet n}
    (hexact : ∀ i j, (c.bitdomains i j).Exact) :
    (decideLit s c = 0 ∧ ∀ i j, (s.cfg.diagPart = true → i ≠ j) →
      (c.bitdomains i j).numTrue ≤ 1) ∨
    ∃ i j v, (s.cfg.diagPart = true → i ≠ j) ∧ decideLit s c = s.lits i j v ∧
      (c.bitdomains i j).dom v = true ∧ (∀ w, (c.bitdomains i j).dom w = true → v ≤ w) ∧
      1 < (c.bitdomains i j).numTrue ∧
      ∀ i' j', toLex (i', j') < toLex (i, j) → (s.cfg.diagPart = true → i' ≠ j') →
        (c.bitdomains i' j').numTrue ≤ 1 := by
  have hoff : ∀ i j : Fin n,
      (!s.cfg.diagPart || i != j) = true ↔ (s.cfg.diagPart = true → i ≠ j) := by
    intro i j
    by_cases hd : s.cfg.diagPart = true <;> simp [hd]
  have hpassed : ∀ i j, (s.cfg.diagPart = true → i ≠ j) → ((!s.cfg.diagPart || i != j) &&
      decide (1 < (c.bitdomains i j).numTrue)) = false → (c.bitdomains i j).numTrue ≤ 1 := by
    intro i j hij hno
    rw [(hoff i j).mpr hij, Bool.true_and, decide_eq_false_iff_not] at hno
    exact not_lt.mp hno
  unfold decideLit
  cases hfind : (cells n).find? fun q =>
      (!s.cfg.diagPart || q.1 != q.2) && decide (1 < (c.bitdomains q.1 q.2).numTrue) with
  | none =>
    refine Or.inl ⟨rfl, fun i j hij => ?_⟩
    have hcell := List.find?_eq_none.mp hfind (i, j) (mem_cells _)
    exact hpassed i j hij (by simpa using hcell)
  | some q =>
    obtain ⟨i, j⟩ := q
    have hcell := List.find?_some hfind
    rw [Bool.and_eq_true, decide_eq_true_eq, hoff] at hcell
    obtain ⟨v, hfirst, hv, hleast⟩ := exists_first (hexact i j) hcell.2
    refine Or.inr ⟨i, j, v, hcell.1, ?_, hv, hleast, hcell.2, fun i' j' hlt hij' => ?_⟩
    · simp only [hfirst]
    · exact hpassed i' j' hij' (first_of_find hfind (i', j') hlt)

/-- In every run: when the cells are closed, `cb_decide` returns 0 only if no cell has two values
left, and else a variable that is observed and open, for the least value of the first such cell. -/
theorem decide_open (s : Session n) (hf : s.cfg.fixedRow = 0) (run : List Notification)
    (hrun : Ledger.Run (Notifies s) .empty run) (hclosed : CellsClosed s (Ledger.empty.after run)) :
    let c := (s.after run).currentCycleSet
    (decideLit s c = 0 → ∀ i j, (s.cfg.diagPart = true → i ≠ j) →
      (c.bitdomains i j).numTrue ≤ 1) ∧
    (decideLit s c ≠ 0 → ∃ i j v, s.observed (i, j, v) = true ∧ decideLit s c = s.lits i j v ∧
      (c.bitdomains i j).dom v = true ∧ (∀ w, (c.bitdomains i j).dom w = true → v ≤ w) ∧
      1 < (c.bitdomains i j).numTrue ∧
      (∀ i' j', toLex (i', j') < toLex (i, j) → (s.cfg.diagPart = true → i' ≠ j') →
        (c.bitdomains i' j').numTrue ≤ 1) ∧
      ¬ (Ledger.empty.after run).Held (s.lits i j v) ∧
      ¬ (Ledger.empty.after run).Held (-s.lits i j v)) := by
  intro c
  have hpic := (follows_held hf hrun).picture
  have hD := hpic.extra
  rcases decideLit_cases s hD.exact with
    ⟨hzero, hnone⟩ | ⟨i, j, v, hij, hlit, hv, hleast, hmany, hbefore⟩
  · exact ⟨fun _ => hnone, fun hne => absurd hzero hne⟩
  · have ho : s.observed (i, j, v) = true := by
      by_contra hno
      rw [hD.outside i j v hij (by simpa using hno)] at hv
      cases hv
    have hpos := s.observing.pos (i, j, v) ho
    refine ⟨fun hzero => ?_, fun _ => ⟨i, j, v, ho, hlit, hv, hleast, hmany, hbefore,
      fun hheld => ?_, fun hheld => ?_⟩⟩
    · rw [← hlit, hzero] at hpos
      omega
    · -- a cell with a value has no other one
      have htrue := (hpic.mirrors.isTrue i j v ho).mpr hheld
      have hone : (c.bitdomains i j).numTrue ≤ 1 :=
        numTrue_of_value hpic hclosed hij ((hpic.mirrors.matrix i j v).mpr htrue)
      exact absurd hmany (not_lt.mpr hone)
    · rw [hD.excluded i j v ((hpic.mirrors.isFalse i j v ho).mpr hheld)] at hv
      cases hv

/-- The cell is closed with the value of the diagonal. -/
def diagonalValue : List Notification :=
  undoneDecision ++ [.assignment 4 false, .assignment (-5) false, .assignment (-6) false]

theorem diagonalValue_run : Ledger.Run (Notifies fullDiagonal) .empty diagonalValue := by
  refine (Ledger.run_append _ _ _ _).mpr ⟨undoneDecision_run, ⟨?_, ?_⟩, ⟨?_, ?_⟩, ⟨?_, ?_⟩, trivial⟩
  all_goals
    first | unfold OneColumn | unfold Session.Promised
    unfold Ledger.Held
    decide +kernel

/-- A variable of the next cell is decided. -/
theorem decide_open_instance : ∃ i j v, fullDiagonal.observed (i, j, v) = true ∧
    decideLit fullDiagonal (fullDiagonal.after diagonalValue).currentCycleSet =
      fullDiagonal.lits i j v ∧
    ¬ (Ledger.empty.after diagonalValue).Held (fullDiagonal.lits i j v) := by
  have hclosed : CellsClosed fullDiagonal (Ledger.empty.after diagonalValue) := by
    unfold CellsClosed Ledger.Held
    decide +kernel
  obtain ⟨i, j, v, ho, hlit, -, -, -, -, hfree, -⟩ :=
    (decide_open fullDiagonal rfl diagonalValue diagonalValue_run hclosed).2 (by decide +kernel)
  exact ⟨i, j, v, ho, hlit, hfree⟩

end YbeSms.Guarantees
