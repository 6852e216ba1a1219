import YbeSms.Source.TrailRun
import YbeSms.Source.YbeEncoding

/-!
# The picture of the trail

Source: ybe-sms/src/solveCadicalClass.hpp:164-257; solveCadicalClass.cpp:172-207;
clause.cpp:346-356; main.cpp:384-392. `fixFirstRow` flags rows 0 and 1 whatever
`--fixFR` asks for, so with `--fixFR 1` the flagged entries of row 1 are not
forced by the formula and survive a backtrack.
-/

namespace YbeSms.Guarantees

open YbeSms.Library YbeSms.Abstract YbeSms.Source

variable {n : Nat}

/-- The modes `main` offers: no diagonal; a diagonal; a diagonal with a fixed first row whose
unit clauses all exist. -/
structure Offered (s : Session n) : Prop where
  size : 2 ≤ n
  diagonal : Function.Bijective s.d
  plain : s.cfg.diagPart = false → s.cfg.fixedRow = 0
  firstRow : 0 < s.cfg.fixedRow → Function.Bijective s.firstRow ∧ 1 ≤ s.cfg.numToFix ∧
    s.cfg.numToFix ≤ n ∧
    ∀ j i : Fin n, j.val < s.cfg.numToFix → i ≠ j → s.lits j i (s.firstRow i) ≠ 0

/-- The picture is exact: assignments and matrix say what is held, and nothing else. -/
def PictureExact (s : Session n) (p : Propagator n) (l : Ledger) : Prop :=
  ∀ i j : Fin n, (s.cfg.diagPart = true → i ≠ j) →
    (∀ k, (p.currentCycleSet.assignments i j k = .isTrue ↔ l.Held (s.lits i j k)) ∧
      (p.currentCycleSet.assignments i j k = .isFalse ↔ l.Held (-s.lits i j k)) ∧
      (p.currentCycleSet.assignments i j k = .unknown ↔
        ¬ l.Held (s.lits i j k) ∧ ¬ l.Held (-s.lits i j k)) ∧
      (p.currentCycleSet.matrix i j = some k ↔
        p.currentCycleSet.assignments i j k = .isTrue)) ∧
    (p.currentCycleSet.matrix i j = none ↔
      ∀ k, p.currentCycleSet.assignments i j k ≠ .isTrue)

/-- No step undoes, under `--fixFR 1`, a literal of row 1 that copies the first row and has
not been notified as fixed. -/
def UndoesNoFlagged (s : Session n) (l : Ledger) : Notification → Prop
  | .backtrack newLevel => 0 < s.cfg.fixedRow → s.cfg.numToFix = 1 →
    ∀ lit ∈ l.undone newLevel, lit ∉ l.fixed → ∀ i c : Fin n, i.val = 1 → c ≠ i →
      lit ≠ s.lits i c (s.firstRow c) ∧ lit ≠ -s.lits i c (s.firstRow c)
  | _ => True

/-- The formula states the unit clauses of the copied rows. -/
theorem unit_mem_formula (s : Session n) (hd : s.cfg.diagPart = true) (hf : 0 < s.cfg.fixedRow)
    {i c : Fin n} (hi : i.val < s.cfg.numToFix) (hc : c ≠ i) :
    [s.lits i c (s.firstRow c)] ∈ s.formula.cnf := by
  have hlits : s.lits = (encodeDiagonal s.cfg s.d).lits := by
    simp only [Session.lits, Session.formula, mainFormula, if_pos hd]
  simp only [Session.formula, mainFormula, if_pos hd, if_pos hf]
  refine List.mem_append_right _ (List.mem_flatMap.mpr ⟨(i, c), mem_cells _, ?_⟩)
  simp [hi, hc, hlits]

theorem undoKeeps_unflagged (s : Session n) :
    UndoKeeps s (fun _ => True) (fun e _ => s.start.fixedCycleSet e.1 e.2.1 e.2.2 = false) where
  keeps _ _ _ _ _ _ _ _ _ _ _ _ := trivial
  unflagged _ _ _ _ _ h := h

theorem stepKeeps_unflagged (s : Session n) (hs : Offered s) :
    StepKeeps s (fun _ => True) (fun e _ => s.start.fixedCycleSet e.1 e.2.1 e.2.2 = false)
      (fun l e => s.Promised l e ∧ UndoesNoFlagged s l e) where
  promised _ _ h := h.1
  assign _ _ _ _ _ _ _ _ _ _ := trivial
  clean p l newLevel hpic hallowed := by
    rintro lit hlit hfixed ⟨i, j, k⟩ positive ho rfl
    rw [← Bool.not_eq_true, s.start_flagged]
    rintro (hdiag | ⟨hf, hcell, hk⟩)
    · exact Session.observed_offDiagonal ho hdiag
    · have hd : s.cfg.diagPart = true := by
        by_contra hd
        have := hs.plain (by simpa using hd)
        omega
      obtain ⟨hi, hji⟩ : i.val ≤ 1 ∧ j ≠ i := by
        simpa [firstRowCell, hd, Fin.ext_iff] using hcell
      obtain rfl : k = s.firstRow j := hk
      obtain ⟨-, hone, -, -⟩ := hs.firstRow hf
      by_cases hrow : i.val < s.cfg.numToFix
      · -- a copied row: its literals come from unit clauses and were notified as fixed
        have hunit := unit_mem_formula s hd hf hrow hji
        obtain ⟨level, hlevel, hmem⟩ := List.mem_flatten.mp hlit
        have hfree := hpic.unforced level (List.mem_of_mem_take hlevel) _ hmem
        cases positive
        · exact hfree.2 (by simpa [signed] using hunit)
        · exact hfree.1 (by simpa [signed] using hunit)
      · have hslip := hallowed.2 hf (by omega) _ hlit hfixed i j (by omega) hji
        cases positive
        · exact hslip.2 rfl
        · exact hslip.1 rfl

/-- A followed run has an exact picture. -/
theorem Follows.pictureExact {s : Session n} {D : CycleSet n → Prop} {p : Propagator n}
    {l : Ledger} (h : Follows s D p l) : PictureExact s p l := by
  intro i j hij
  have hm := h.picture.mirrors
  have hheld : ∀ k, s.observed (i, j, k) = false →
      ¬ l.Held (s.lits i j k) ∧ ¬ l.Held (-s.lits i j k) := by
    intro k ho
    have hzero : s.lits i j k = 0 := s.lits_of_not_observed hij ho
    have hnot : ¬ l.Held 0 := fun h0 => by
      obtain ⟨e, positive, ho', heq⟩ := h.picture.observed 0 h0
      exact signed_ne_zero s.observing ho' positive heq.symm
    simpa [hzero] using hnot
  have hk : ∀ k, (p.currentCycleSet.assignments i j k = .isTrue ↔ l.Held (s.lits i j k)) ∧
      (p.currentCycleSet.assignments i j k = .isFalse ↔ l.Held (-s.lits i j k)) := by
    intro k
    by_cases ho : s.observed (i, j, k) = true
    · exact ⟨hm.isTrue i j k ho, hm.isFalse i j k ho⟩
    · have ho' : s.observed (i, j, k) = false := by simpa using ho
      have hunknown : p.currentCycleSet.assignments i j k = .unknown := by
        rw [hm.other i j k ho', s.start_assignments, if_neg fun h => hij h.1 h.2]
      simp [hunknown, hheld k ho']
  refine ⟨fun k => ⟨(hk k).1, (hk k).2, ?_, hm.matrix i j k⟩, ?_⟩
  · rw [← (hk k).1, ← (hk k).2]
    cases p.currentCycleSet.assignments i j k <;> simp
  · rw [Option.eq_none_iff_forall_ne_some]
    exact forall_congr' fun k => not_congr (hm.matrix i j k)

/-- Every run of the promised notifications whose backtracks undo no flagged literal of row 1
has an exact picture in the state it reaches. -/
theorem trail_picture_exact (s : Session n) (hs : Offered s) (run : List Notification)
    (hrun : Ledger.Run (fun l e => s.Promised l e ∧ UndoesNoFlagged s l e) .empty run) :
    PictureExact s (s.after run) (Ledger.empty.after run) :=
  Follows.pictureExact
    (Session.follows (undoKeeps_unflagged s) (stepKeeps_unflagged s hs) trivial hrun)

/-- With `--fixFR` every cycle set that copies the first row is a model of the formula. -/
theorem exists_formula_model (s : Session n) (hd : s.cfg.diagPart = true)
    (hf : 0 < s.cfg.fixedRow) (hinj : Function.Injective s.d)
    (hlits : ∀ j i : Fin n, j.val < s.cfg.numToFix → i ≠ j → s.lits j i (s.firstRow i) ≠ 0)
    {M : Fin n → Fin n → Fin n} (hM : HasDiagonal s.d M)
    (hcopy : ∀ i c : Fin n, i.val < s.cfg.numToFix → c ≠ i → M i c = s.firstRow c) :
    ∃ σ, Models σ s.formula.cnf ∧ Indicates σ s.lits M := by
  have heq : s.lits = (encodeDiagonal s.cfg s.d).lits := by
    simp only [Session.lits, Session.formula, mainFormula, if_pos hd]
  have ht := encodeDiagonal_lits s.cfg s.d
  obtain ⟨τ, hτ⟩ := ht.exists_indicates M
  obtain ⟨σ, hag, hσ⟩ := (encodeDiagonal_describes s.cfg s.d hinj).complete τ M hM hτ
  have hind : Indicates σ s.lits M := heq ▸ (hag.indicates M).mp hτ
  refine ⟨σ, ?_, hind⟩
  simp only [Session.formula, mainFormula, if_pos hd, if_pos hf, models_append]
  refine ⟨hσ, fun c hc => ?_⟩
  obtain ⟨⟨i, c'⟩, -, hmem⟩ := List.mem_flatMap.mp hc
  simp only [hd, Bool.true_and, List.mem_ite_nil_right, List.mem_ite_nil_left, beq_iff_eq,
    List.mem_singleton, ← heq] at hmem
  obtain ⟨hi, hne, rfl⟩ := hmem
  have h0 := hlits i c' hi hne
  have hpos : 0 < s.lits i c' (s.firstRow c') := by
    have hr := (ht.range i c' (s.firstRow c')).1
    rw [← heq] at hr
    omega
  exact (clauseTrue_cons _ _ _).mpr (Or.inl ((litTrue_pos σ hpos).mpr
    ((hind i c' _ h0).mpr (hcopy i c' hi hne))))

/-- Size 3, identity diagonal, `--firstRow 0,1,2 --fixFR 1`. -/
def copiedRow : Session 3 := ⟨{ diagPart := true, fixedRow := 1, numToFix := 1 }, id, id⟩

theorem copiedRow_offered : Offered copiedRow where
  size := by decide
  diagonal := Function.bijective_id
  plain := by decide
  firstRow _ := ⟨Function.bijective_id, by decide, by decide, by decide⟩

private theorem copiedRow_model {M : Fin 3 → Fin 3 → Fin 3} (hM : HasDiagonal id M)
    (hrow : M 0 = id) : ∃ σ, Models σ copiedRow.formula.cnf ∧ Indicates σ copiedRow.lits M := by
  refine exists_formula_model copiedRow rfl (by decide) Function.injective_id (by decide) hM ?_
  intro i c hi _
  obtain rfl : i = 0 := Fin.ext (by simpa [copiedRow] using hi)
  rw [hrow]
  rfl

/-- A value that some models have and others lack is not forced by a unit clause. -/
private theorem copiedRow_free {i j k : Fin 3} {M M' : Fin 3 → Fin 3 → Fin 3}
    (hpos : 0 < copiedRow.lits i j k) (hM : HasDiagonal id M) (hM0 : M 0 = id) (hk : M i j = k)
    (hM' : HasDiagonal id M') (hM0' : M' 0 = id) (hk' : M' i j ≠ k) :
    [copiedRow.lits i j k] ∉ copiedRow.formula.cnf ∧
      [-copiedRow.lits i j k] ∉ copiedRow.formula.cnf := by
  constructor
  · intro hmem
    obtain ⟨σ, hσ, hind⟩ := copiedRow_model hM' hM0'
    have htrue := hσ _ hmem
    rw [clauseTrue_cons, litTrue_pos σ hpos, hind i j k hpos.ne'] at htrue
    simp [hk'] at htrue
  · intro hmem
    obtain ⟨σ, hσ, hind⟩ := copiedRow_model hM hM0
    have htrue := hσ _ hmem
    rw [clauseTrue_cons, litTrue_neg σ hpos, ← Bool.not_eq_true, hind i j k hpos.ne'] at htrue
    simp [hk] at htrue

private theorem hasDiagonal_const : HasDiagonal id (fun _ j : Fin 3 => j) where
  rows _ := Function.bijective_id
  diagonal _ := rfl
  identity _ _ _ := rfl

/-- One row swaps the other two points. -/
private theorem hasDiagonal_swap {r a b : Fin 3} (hra : r ≠ a) (hrb : r ≠ b) (hab : a ≠ b) :
    HasDiagonal id (fun i j : Fin 3 => if i = r then Equiv.swap a b j else j) where
  rows i := by
    by_cases hi : i = r
    · simp [hi]
    · simp [hi]
  diagonal := by revert r a b; decide
  identity := by
    revert r a b
    unfold CycleIdentity
    decide

/-- The failing run: row 1 takes the value of the copied row at a decision level and the
backtrack leaves it in the picture. -/
theorem trail_picture_stale :
    Offered copiedRow ∧
    Ledger.Run copiedRow.Promised .empty
      [.newDecisionLevel, .assignment 10 false, .backtrack 0] ∧
    ¬ PictureExact copiedRow
      (copiedRow.after [.newDecisionLevel, .assignment 10 false, .backtrack 0])
      (Ledger.empty.after [.newDecisionLevel, .assignment 10 false, .backtrack 0]) := by
  have hlit : copiedRow.lits 1 0 0 = 10 := by decide
  have hfree := copiedRow_free (i := 1) (j := 0) (k := 0) (by decide) hasDiagonal_const rfl rfl
    (hasDiagonal_swap (r := 1) (a := 0) (b := 2) (by decide) (by decide) (by decide))
    (by decide) (by decide)
  rw [hlit] at hfree
  refine ⟨copiedRow_offered, ⟨trivial, ⟨⟨(1, 0, 0), true, by decide, hlit.symm⟩, ?_, ?_, ?_⟩,
    trivial, trivial⟩, fun h => ?_⟩
  · simp [Ledger.Held, Ledger.notify, Ledger.empty]
  · exact fun hunit => absurd hunit (not_or.mpr hfree)
  · simp [Ledger.Held, Ledger.notify, Ledger.empty]
  · have hstale : (copiedRow.after [.newDecisionLevel, .assignment 10 false,
        .backtrack 0]).currentCycleSet.assignments 1 0 0 = .isTrue := by decide
    have hheld := ((h 1 0 (by decide)).1 0).1.mp hstale
    simp [Ledger.Held, Ledger.after, Ledger.notify, Ledger.closing, Ledger.empty] at hheld

/-- The same session with a run that undoes a value of row 2. -/
theorem trail_picture_exact_instance :
    PictureExact copiedRow
      (copiedRow.after [.newDecisionLevel, .assignment 20 false, .backtrack 0])
      (Ledger.empty.after [.newDecisionLevel, .assignment 20 false, .backtrack 0]) := by
  have hlit : copiedRow.lits 2 0 1 = 20 := by decide
  have hfree := copiedRow_free (i := 2) (j := 0) (k := 1) (by decide)
    (hasDiagonal_swap (r := 2) (a := 0) (b := 1) (by decide) (by decide) (by decide))
    (by decide) (by decide) hasDiagonal_const rfl (by decide)
  rw [hlit] at hfree
  refine trail_picture_exact copiedRow copiedRow_offered _ ⟨⟨trivial, trivial⟩,
    ⟨⟨⟨(2, 0, 1), true, by decide, hlit.symm⟩, ?_, ?_, ?_⟩, trivial⟩, ⟨trivial, ?_⟩, trivial⟩
  · simp [Ledger.Held, Ledger.notify, Ledger.empty]
  · exact fun hunit => absurd hunit (not_or.mpr hfree)
  · simp [Ledger.Held, Ledger.notify, Ledger.empty]
  · rintro - - lit hlit' - i c hi hci
    obtain rfl : lit = 20 := by
      simpa [Ledger.undone, Ledger.closing, Ledger.notify, Ledger.empty] using hlit'
    obtain rfl : i = 1 := Fin.ext hi
    revert c
    decide

end YbeSms.Guarantees
