import YbeSms.Source.PropagatedEncoding
import YbeSms.Guarantees.FoundModels

/-!
# The state at a callback

Source: ybe-sms/src/solveCadicalClass.hpp:164-257, 271-344; solveGeneral.cpp:12-49;
cadical-master/src/external_propagate.cpp:121-251. The propagator looks for clauses
after the solver has propagated without a conflict. Without a diagonal, and with the
smaller encoding, backtracking keeps the domains, so the search then gets what it relies
on. A full matrix is a cycle set, although no model has been found yet, and a clause
that is thrown forces.
-/

namespace YbeSms.Guarantees

open YbeSms.Library YbeSms.Abstract YbeSms.Source YbeSms.Source.MinCheck Equiv

variable {n : Nat}

/-- The notified assignment is the part of a propagated one that the propagator sees. -/
def Propagated (s : Session n) (l : Ledger) : Prop :=
  ∃ T : Int → Prop, NoClash T ∧ UnitClosed T s.formula.cnf ∧
    ∀ e positive, s.observed e = true → (T (signed s.lits e positive) ↔ s.Holds l e positive)

section Session

variable {s : Session n} {T : Int → Prop}

/-- In every cell and in every row the values propagate. -/
structure Forced (s : Session n) (T : Int → Prop) : Prop where
  cells : ∀ i j, (s.cfg.diagPart = true → i ≠ j) → PointForced T (s.lits i j) (List.finRange n)
  rows : ∀ i j j' k, s.observed (i, j, k) = true → s.observed (i, j', k) = true →
    (s.cfg.diagPart = true → k ≠ s.d i) → j' ≠ j → T (s.lits i j k) → T (-s.lits i j' k)

theorem forced_of_closed (hf : s.cfg.fixedRow = 0) (hT : NoClash T)
    (hF : UnitClosed T s.formula.cnf) : Forced s T := by
  have hpos := s.observing.pos
  by_cases hd : s.cfg.diagPart = true
  · have hcnf : s.formula.cnf = (encodeDiagonal s.cfg s.d).cnf := by
      simp [Session.formula, mainFormula, hd, hf]
    have hlits : s.lits = (encodeDiagonal s.cfg s.d).lits := by
      simp [Session.lits, Session.formula, mainFormula, hd]
    rw [hcnf] at hF
    obtain ⟨hentry, -⟩ := encodeDiagonal_forces s.cfg s.d hT hF
    rw [← hlits] at hentry
    refine ⟨fun i j hij => hentry.cells i j (hij hd), fun i j j' k ho ho' hk hne htrue => ?_⟩
    have hj : j ≠ i := Ne.symm (s.offDiagonal ho hd)
    have hj' : j' ≠ i := Ne.symm (s.offDiagonal ho' hd)
    exact (hentry.rows i k (Ne.symm (hk hd))).others j (by simpa using hj) (hpos _ ho).ne' htrue j'
      (by simpa using hj') (hpos _ ho').ne' hne
  · have hcnf : s.formula.cnf = (encodeNoDiag s.cfg n).cnf := by
      simp [Session.formula, mainFormula, hd]
    have hlits : s.lits = (encodeNoDiag s.cfg n).lits := by
      simp [Session.lits, Session.formula, mainFormula, hd]
    rw [hcnf] at hF
    obtain ⟨hentry, -⟩ := encodeNoDiag_forces s.cfg hT hF
    rw [← hlits] at hentry
    refine ⟨fun i j _ => hentry.cells i j, fun i j j' k ho ho' _ hne htrue => ?_⟩
    exact (hentry.rows i k).others j (List.mem_finRange j) (hpos _ ho).ne' htrue j'
      (List.mem_finRange j') (hpos _ ho').ne' hne

/-- The entries that the smaller encoding or the mode without a diagonal observe. -/
theorem observed_iff (hsmall : s.cfg.diagPart = true → s.cfg.smallerEncoding = true)
    (i j k : Fin n) :
    s.observed (i, j, k) = true ↔ (s.cfg.diagPart = true → i ≠ j ∧ k ≠ s.d i) := by
  unfold Session.observed entryObserved
  by_cases hd : s.cfg.diagPart = true
  · simp [hd, hsmall hd]
  · simp [hd]

/-- Without a diagonal, and with the smaller encoding, backtracking keeps the domains. -/
theorem stepKeeps_small (hf : s.cfg.fixedRow = 0)
    (hsmall : s.cfg.diagPart = true → s.cfg.smallerEncoding = true) :
    StepKeeps s (DomainInv s) (CleanEntry s) (Notifies s) where
  promised _ _ h := h.1
  clean p l newLevel _ _ := by
    rintro lit - - ⟨i, j, k⟩ positive ho rfl
    constructor
    · rw [← Bool.not_eq_true, s.start_flagged]
      rintro (hdiag | ⟨hpos, -⟩)
      · exact s.offDiagonal ho hdiag.1 hdiag.2
      · omega
    · exact fun hd _ => ((observed_iff hsmall i j k).mp ho hd).2
  assign p l lit isFixed hpic hallowed := by
    refine (stepKeeps_domains s hf).assign p l lit isFixed hpic
      ⟨hallowed.1, fun i j k ho hlit => ?_, trivial⟩
    have hk : s.cfg.diagPart = true → k ≠ s.d i := fun hd =>
      ((observed_iff hsmall i j k).mp ho hd).2
    exact ⟨hallowed.2 i j k ho hlit hk, hk⟩

theorem follows_domains (hf : s.cfg.fixedRow = 0)
    (hsmall : s.cfg.diagPart = true → s.cfg.smallerEncoding = true) {run : List Notification}
    (hrun : Ledger.Run (Notifies s) .empty run) :
    Follows s (DomainInv s) (s.after run) (Ledger.empty.after run) :=
  Session.follows (undoKeeps_domains s) (stepKeeps_small hf hsmall) (start_domains s hf) hrun

theorem closed_of_propagated (hf : s.cfg.fixedRow = 0)
    (hsmall : s.cfg.diagPart = true → s.cfg.smallerEncoding = true) {l : Ledger}
    (h : Propagated s l) : Closed s l := by
  obtain ⟨T, hT, hF, hseen⟩ := h
  have hforced := forced_of_closed hf hT hF
  have hobserved : ∀ {i j k}, (s.cfg.diagPart = true → i ≠ j) → s.lits i j k ≠ 0 →
      s.observed (i, j, k) = true := by
    intro i j k hij h0
    by_contra hno
    exact h0 (s.lits_of_not_observed hij (by simpa using hno))
  intro i j k ho hheld
  have hpos := s.observing.pos (i, j, k) ho
  have htrue : T (s.lits i j k) := (hseen (i, j, k) true ho).mpr hheld
  have hoff := s.offDiagonal ho
  constructor
  · intro k' hne h0
    have hfalse := (hforced.cells i j hoff).others k (List.mem_finRange k) hpos.ne' htrue k'
      (List.mem_finRange k') h0 hne
    exact (hseen (i, j, k') false (hobserved hoff h0)).mp hfalse
  · intro j' hne hj' h0
    have ho' := hobserved (fun hd => Ne.symm (hj' hd)) h0
    have hfalse := hforced.rows i j j' k ho ho'
      (fun hd => ((observed_iff hsmall i j k).mp ho hd).2) hne htrue
    exact (hseen (i, j', k) false ho').mp hfalse

section State

variable {p : Propagator n} {l : Ledger}

/-- A value that has left the domain of an observed entry is refused. -/
theorem refused_of_dom (hpic : Picture s (DomainInv s) p l) (hclosed : Closed s l)
    {i j v : Fin n} (ho : s.observed (i, j, v) = true)
    (hsmall : s.cfg.diagPart = true → s.cfg.smallerEncoding = true)
    (hout : (p.currentCycleSet.bitdomains i j).dom v = false) :
    p.currentCycleSet.assignments i j v = .isFalse := by
  have hpos := s.observing.pos (i, j, v) ho
  have hoff := s.offDiagonal ho
  rw [hpic.mirrors.isFalse i j v ho]
  have hnot : ¬ InDomain p.currentCycleSet i j v := by
    rw [← domains_of_closed hpic hclosed, hout]
    exact Bool.false_ne_true
  unfold InDomain at hnot
  cases hm : p.currentCycleSet.matrix i j with
  | some k =>
    rw [hm] at hnot
    obtain ⟨hk, hheld⟩ := hpic.held_of_matrix hoff hm
    exact (hclosed i j k hk hheld).1 v hnot hpos.ne'
  | none =>
    rw [hm] at hnot
    simp only [not_and_or, not_forall, not_not] at hnot
    rcases hnot with hfalse | ⟨j', hne, hm'⟩
    · exact (hpic.mirrors.isFalse i j v ho).mp hfalse
    · have hoff' : s.cfg.diagPart = true → i ≠ j' := by
        rintro hd rfl
        rw [(hpic.extra.diagonal hd i).1] at hm'
        exact ((observed_iff hsmall i j v).mp ho hd).2 (Option.some.inj hm').symm
      obtain ⟨hk, hheld⟩ := hpic.held_of_matrix hoff' hm'
      exact (hclosed i j' v hk hheld).2 j (Ne.symm hne) (fun hd => Ne.symm (hoff hd)) hpos.ne'

/-- Some value of a cell is left. -/
theorem exists_left (hf : s.cfg.fixedRow = 0)
    (hsmall : s.cfg.diagPart = true → s.cfg.smallerEncoding = true)
    (hpic : Picture s (DomainInv s) p l) (h : Propagated s l) {i j : Fin n}
    (hij : s.cfg.diagPart = true → i ≠ j) :
    ∃ v, s.observed (i, j, v) = true ∧ (p.currentCycleSet.bitdomains i j).dom v = true := by
  have hclosed := closed_of_propagated hf hsmall h
  obtain ⟨T, hT, hF, hseen⟩ := h
  have hsome : ∃ v, s.observed (i, j, v) = true := by
    by_cases hd : s.cfg.diagPart = true
    · obtain ⟨v, -, hv⟩ := exists_kept_value s.cfg s.d (hij hd)
      exact ⟨v, (observed_iff hsmall i j v).mpr fun _ => ⟨hij hd, by
        simpa [entryKept, hsmall hd, hij hd] using hv⟩⟩
    · exact ⟨i, (observed_iff hsmall i j i).mpr fun hd' => absurd hd' hd⟩
  obtain ⟨w, hw⟩ := hsome
  obtain ⟨v, -, h0, hopen⟩ := ((forced_of_closed hf hT hF).cells i j hij).exists_not_false hT
    ⟨w, List.mem_finRange w, (s.observing.pos _ hw).ne'⟩
  have ho : s.observed (i, j, v) = true := by
    by_contra hno
    exact h0 (s.lits_of_not_observed hij (by simpa using hno))
  refine ⟨v, ho, ?_⟩
  by_contra hout
  have hrefused := refused_of_dom hpic hclosed ho hsmall (by simpa using hout)
  exact hopen ((hseen (i, j, v) false ho).mpr ((hpic.mirrors.isFalse i j v ho).mp hrefused))

/-- The state is consistent, and the domains are what the literals leave. -/
theorem tight_of_propagated (hf : s.cfg.fixedRow = 0)
    (hsmall : s.cfg.diagPart = true → s.cfg.smallerEncoding = true) (before : Bool)
    (hpic : Picture s (DomainInv s) p l) (h : Propagated s l) :
    (s.mincheck before).Tight p.currentCycleSet := by
  have hclosed := closed_of_propagated hf hsmall h
  have hD := hpic.extra
  have hdom := domains_of_closed hpic hclosed
  have hrefused := fun {i j v} ho =>
    refused_of_dom (i := i) (j := j) (v := v) hpic hclosed ho hsmall
  refine ⟨⟨⟨hD.exact, fun i j => ?_, hpic.mirrors.matrix, hD.excluded, fun i j v hv w => ?_,
    fun hd i => (hD.diagonal hd i).1⟩, fun i j v hoff hout => ?_,
    fun hd i j hij => (hD.diagonal hd i).2.2 j (Ne.symm hij)⟩, fun i j v honly => ?_⟩
  · by_cases hij : s.cfg.diagPart = true ∧ i = j
    · obtain ⟨hd, rfl⟩ := hij
      exact ⟨s.d i, ((hD.diagonal hd i).2.1 _).mpr rfl⟩
    · obtain ⟨v, -, hv⟩ := exists_left hf hsmall hpic h fun hd heq => hij ⟨hd, heq⟩
      exact ⟨v, hv⟩
  · rw [hdom, InDomain, hv]
  · exact hrefused ((observed_iff hsmall i j v).mpr hoff) hout
  · by_cases hij : s.cfg.diagPart = true ∧ i = j
    · obtain ⟨hd, rfl⟩ := hij
      rw [(hD.diagonal hd i).1, honly _ (((hD.diagonal hd i).2.1 _).mpr rfl)]
    · have hoff : s.cfg.diagPart = true → i ≠ j := fun hd heq => hij ⟨hd, heq⟩
      obtain ⟨w, ho, hw⟩ := exists_left hf hsmall hpic h hoff
      obtain rfl := honly w hw
      -- all other values are refused, so propagation has set this one
      obtain ⟨T, hT, hF, hseen⟩ := h
      have htrue : T (s.lits i j w) := by
        apply ((forced_of_closed hf hT hF).cells i j hoff).last w (List.mem_finRange w)
          (s.observing.pos _ ho).ne'
        intro v _ h0 hne
        have hov : s.observed (i, j, v) = true := by
          by_contra hno
          exact h0 (s.lits_of_not_observed hoff (by simpa using hno))
        have hout : (p.currentCycleSet.bitdomains i j).dom v = false := by
          rw [← Bool.not_eq_true]
          exact fun hv => hne (honly v hv)
        exact (hseen (i, j, v) false hov).mpr
          ((hpic.mirrors.isFalse i j v hov).mp (hrefused hov hout))
      exact (hpic.mirrors.matrix i j w).mpr
        ((hpic.mirrors.isTrue i j w ho).mpr ((hseen (i, j, w) true ho).mp htrue))

/-- A full matrix is one of the tables. -/
theorem table_of_full {d : Perm (Fin n)} {before : Bool} (hmode : InMode (s.mincheck before) d)
    (hf : s.cfg.fixedRow = 0) (hsmall : s.cfg.diagPart = true → s.cfg.smallerEncoding = true)
    (hpic : Picture s (DomainInv s) p l) (h : Propagated s l)
    (hfull : p.currentCycleSet.fullDefined = true) : ∃ M, M ∈ described s ∧ Assigns s l M := by
  have hclosed := closed_of_propagated hf hsmall h
  obtain ⟨T, hT, hF, hseen⟩ := h
  have hassigned : ∀ i j k, s.observed (i, j, k) = true →
      T (s.lits i j k) ∨ T (-s.lits i j k) := by
    intro i j k ho
    have hsome : (p.currentCycleSet.matrix i j).isSome = true :=
      List.all_eq_true.mp hfull (i, j) (mem_cells _)
    obtain ⟨v, hv⟩ := Option.isSome_iff_exists.mp hsome
    obtain ⟨hov, hheld⟩ := hpic.held_of_matrix (s.offDiagonal ho) hv
    by_cases hk : k = v
    · exact Or.inl (hk ▸ (hseen (i, j, v) true hov).mpr hheld)
    · have hpos := s.observing.pos (i, j, k) ho
      exact Or.inr ((hseen (i, j, k) false ho).mpr ((hclosed i j v hov hheld).1 k hk hpos.ne'))
  have htable : ∃ M, M ∈ described s ∧ Indicates (heldValuation T) s.lits M := by
    unfold described
    by_cases hd : s.cfg.diagPart = true
    · have hinj : Function.Injective s.d := by
        unfold InMode at hmode
        rw [if_pos (show (s.mincheck before).cfg.diagPart = true from hd)] at hmode
        have hdiag : s.d = d := hmode.2
        rw [hdiag]
        exact d.injective
      have hcnf : s.formula.cnf = (encodeDiagonal s.cfg s.d).cnf := by
        simp [Session.formula, mainFormula, hd, hf]
      have hlits : s.lits = (encodeDiagonal s.cfg s.d).lits := by
        simp [Session.lits, Session.formula, mainFormula, hd]
      rw [hcnf] at hF
      simp only [Set.mem_ofPred_eq, if_pos hd, hlits]
      apply encodeDiagonal_full s.cfg s.d hinj hT hF
      intro i j k hij h0
      rw [← hlits] at h0 ⊢
      apply hassigned
      by_contra hno
      exact h0 (s.lits_of_not_observed (fun _ => hij) (by simpa using hno))
    · have hcnf : s.formula.cnf = (encodeNoDiag s.cfg n).cnf := by
        simp [Session.formula, mainFormula, hd]
      have hlits : s.lits = (encodeNoDiag s.cfg n).lits := by
        simp [Session.lits, Session.formula, mainFormula, hd]
      rw [hcnf] at hF
      simp only [Set.mem_ofPred_eq, hd, Bool.false_eq_true, if_false, hlits]
      apply encodeNoDiag_full s.cfg hT hF
      intro i j k
      rw [← hlits]
      exact hassigned i j k ((observed_iff hsmall i j k).mpr fun hd' => absurd hd' hd)
  obtain ⟨M, hM, hindicates⟩ := htable
  refine ⟨M, hM, fun e ho => ?_⟩
  have hvalue := (heldValuation_eq T _).symm.trans
    (hindicates e.1 e.2.1 e.2.2 (s.observing.pos e ho).ne')
  by_cases hk : M e.1 e.2.1 = e.2.2
  · rw [decide_eq_true hk]
    exact (hseen e true ho).mp (hvalue.mpr hk)
  · rw [decide_eq_false hk]
    exact (hseen e false ho).mp
      ((hassigned e.1 e.2.1 e.2.2 ho).resolve_left fun htrue => hk (hvalue.mp htrue))

end State

end Session

/-- After every run of notifications that ends in a propagated assignment the search gets a state
in which all that the formula's rows and cells imply is assigned; and if the matrix is full, it
is one of the tables, although no model has been found. -/
theorem propagated_exact (s : Session n) (before : Bool) (d : Perm (Fin n))
    (hmode : InMode (s.mincheck before) d) (hf : s.cfg.fixedRow = 0)
    (hsmall : s.cfg.diagPart = true → s.cfg.smallerEncoding = true) (run : List Notification)
    (hrun : Ledger.Run (Notifies s) .empty run) (h : Propagated s (Ledger.empty.after run)) :
    (s.mincheck before).Tight (s.after run).currentCycleSet ∧
      ((s.after run).currentCycleSet.fullDefined = true → ∃ M, M ∈ described s ∧
        (s.mincheck before).Total (s.after run).currentCycleSet M) := by
  have hpic := (follows_domains hf hsmall hrun).picture
  refine ⟨tight_of_propagated hf hsmall before hpic h, fun hfull => ?_⟩
  obtain ⟨M, hM, hassigns⟩ := table_of_full hmode hf hsmall hpic h hfull
  exact ⟨M, hM, total_of_assigns (follows_held hf hrun).picture (admits_of_described hM) hassigns⟩

/-- `--size 3 --diag 0,1,2 --smallerEncoding --noCommander --allModels --propagate --checkSols`. -/
def smallThree : Session 3 :=
  ⟨{ diagPart := true, smallerEncoding := true, noCommander := true, allModels := true,
     propagateMincheck := true, checkSolutionInProp := true }, id, id⟩

theorem smallThree_inMode : InMode (smallThree.mincheck false) 1 := by
  unfold InMode
  decide +kernel

/-- A decision for cell (0,1) is undone; then the cell has value 2, and the row follows. -/
def rowSwapped : List Notification :=
  [.newDecisionLevel, .assignment 1 false, .assignment (-2) false, .assignment (-3) false,
    .assignment 4 false, .backtrack 0, .newDecisionLevel, .assignment 2 false,
    .assignment (-1) false, .assignment 3 false, .assignment (-4) false]

theorem rowSwapped_run : Ledger.Run (Notifies smallThree) .empty rowSwapped := by
  refine ⟨⟨trivial, trivial⟩, ⟨?_, ?_⟩, ⟨?_, ?_⟩, ⟨?_, ?_⟩, ⟨?_, ?_⟩, ⟨trivial, trivial⟩,
    ⟨trivial, trivial⟩, ⟨?_, ?_⟩, ⟨?_, ?_⟩, ⟨?_, ?_⟩, ⟨?_, ?_⟩, trivial⟩
  all_goals
    first | unfold OneColumn | unfold Session.Promised
    unfold Ledger.Held
    decide +kernel

theorem rowSwapped_propagated : Propagated smallThree (Ledger.empty.after rowSwapped) := by
  refine ⟨(· ∈ [2, -1, 3, -4, 17, 28, -18, -16, -30, -29]), by decide, by decide +kernel, ?_⟩
  unfold Session.Holds Ledger.Held
  decide +kernel

/-- One more decision, and all other cells follow. -/
def rowFull : List Notification :=
  rowSwapped ++ [.newDecisionLevel, .assignment 5 false, .assignment (-6) false,
    .assignment (-7) false, .assignment 8 false, .assignment (-10) false, .assignment (-11) false,
    .assignment 9 false, .assignment 12 false]

theorem rowFull_run : Ledger.Run (Notifies smallThree) .empty rowFull := by
  refine (Ledger.run_append _ _ _ _).mpr ⟨rowSwapped_run, ⟨trivial, trivial⟩, ⟨?_, ?_⟩, ⟨?_, ?_⟩,
    ⟨?_, ?_⟩, ⟨?_, ?_⟩, ⟨?_, ?_⟩, ⟨?_, ?_⟩, ⟨?_, ?_⟩, ⟨?_, ?_⟩, trivial⟩
  all_goals
    first | unfold OneColumn | unfold Session.Promised
    unfold Ledger.Held
    decide +kernel

theorem rowFull_propagated : Propagated smallThree (Ledger.empty.after rowFull) := by
  refine ⟨(· ∈ [2, 5, -1, -6, 3, -4, -7, 8, 13, 17, 20, 22, 27, 28, 39, -14, -15, -18, -16, -19, -21,
    -23, -24, -25, -26, -30, -29, -37, -38, -10, -11, 9, 12, 31, 35, -32, -33, -34, -36]),
    by decide, by decide +kernel, ?_⟩
  unfold Session.Holds Ledger.Held
  decide +kernel

/-- After two decisions all is propagated, so there is a table. -/
theorem propagated_exact_instance :
    (smallThree.mincheck false).Tight (smallThree.after rowFull).currentCycleSet ∧
      ∃ M, M ∈ described smallThree ∧
        (smallThree.mincheck false).Total (smallThree.after rowFull).currentCycleSet M := by
  obtain ⟨htight, htable⟩ := propagated_exact smallThree false 1 smallThree_inMode rfl
    (fun _ => rfl) rowFull rowFull_run rowFull_propagated
  exact ⟨htight, htable (by decide +kernel)⟩

/-- After every run of notifications that ends in a propagated assignment, a clause thrown by a
search whose steps meet the condition forces, and `addClause` does not warn of it. -/
theorem thrown_clause_forcing (hn : 3 ≤ n) (s : Session n) (before : Bool) (d : Perm (Fin n))
    (hmode : InMode (s.mincheck before) d) (hf : s.cfg.fixedRow = 0)
    (hsmall : s.cfg.diagPart = true → s.cfg.smallerEncoding = true) (run : List Notification)
    (hrun : Ledger.Run (Notifies s) .empty run) (h : Propagated s (Ledger.empty.after run))
    (isFinal : Bool)
    (hsteps : ∀ e ∈ ((s.mincheck before).minCheck (s.after run).currentCycleSet isFinal).events,
      FixesAtStart e)
    (clause : Clause)
    (hthrow : ((s.mincheck before).minCheck (s.after run).currentCycleSet isFinal).result =
      .error (.clause clause)) :
    (s.mincheck before).Forcing (s.after run).currentCycleSet clause ∧
      warns ((s.after run).currentCycleSet.truthOf s.table) clause = false := by
  have ht := tight_of_propagated hf hsmall before (follows_domains hf hsmall hrun).picture h
  have hstop := (minCheck_spec (hmode.serves (by omega)) (ruled_forcing hn hmode ht) isFinal
    hsteps).2
  rw [hthrow] at hstop
  have hforcing := hstop clause rfl
  exact ⟨hforcing, warns_of_forcing hforcing⟩

/-- On the swapped row the clause refuses a value of an open cell. -/
theorem thrown_clause_forcing_instance :
    ((smallThree.mincheck false).minCheck (smallThree.after rowSwapped).currentCycleSet
      false).result = .error (.clause [-2, -5]) ∧
    warns ((smallThree.after rowSwapped).currentCycleSet.truthOf smallThree.table) [-2, -5] =
      false := by
  have hthrown : clauseOf ((smallThree.mincheck false).minCheck
      (smallThree.after rowSwapped).currentCycleSet false).result = some [-2, -5] := by
    decide +kernel
  have hthrow := result_of_clauseOf hthrown
  have hnone : ((smallThree.mincheck false).minCheck (smallThree.after rowSwapped).currentCycleSet
      false).events.all noneGreatest = true := by decide +kernel
  exact ⟨hthrow, (thrown_clause_forcing (by decide) smallThree false 1 smallThree_inMode rfl
    (fun _ => rfl) rowSwapped rowSwapped_run rowSwapped_propagated false
    (fixesAtStart_of_noneGreatest hnone) [-2, -5] hthrow).2⟩

end YbeSms.Guarantees
