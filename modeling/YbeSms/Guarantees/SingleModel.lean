import YbeSms.Guarantees.Enumeration
import YbeSms.Abstract.Canonical

/-!
# The loop without `--allModels`

Source: ybe-sms/src/solveCadicalClass.cpp:210-220; solveGeneral.cpp:145-183. An accepted
table is written and not excluded, and the loop calls `solve` again after the answer
10. So it never comes to the answer 20 while there is a cycle set, and the solver
may find the same table again any number of times.
-/

namespace YbeSms.Guarantees

open YbeSms.Library YbeSms.Abstract YbeSms.Source YbeSms.Source.MinCheck Equiv

variable {n : Nat}

/-- Symmetries of the diagonal lead from tables of the session to tables of the session. -/
theorem wanted_nonempty {s : Session n} {before : Bool} {d : Perm (Fin n)}
    (hmode : InMode (s.mincheck before) d) (h : (described s).Nonempty) :
    (wanted s d).Nonempty := by
  obtain ⟨M, hM⟩ := h
  obtain ⟨N, ⟨⟨p, hp, rfl⟩, hleast⟩, -⟩ := existsUnique_leastUnder d M
  refine ⟨act p M, ?_, hleast⟩
  unfold described at hM ⊢
  by_cases hd : s.cfg.diagPart = true
  · simp only [Set.mem_ofPred_eq, if_pos hd] at hM ⊢
    have hdiag : s.d = d := by
      have hdm : (s.mincheck before).cfg.diagPart = true := hd
      unfold InMode at hmode
      rw [if_pos hdm] at hmode
      exact hmode.2
    have hact := (hM.isCycleSet (by rw [hdiag]; exact d.bijective)).act p
    refine ⟨hact.rows, fun i => ?_, hact.identity⟩
    have hown : ∀ j, M j j = d j := fun j => by rw [hM.diagonal, hdiag]
    have hconj := diagonal_act hown p i
    rw [hconj, hdiag, mul_assoc, ← hp.eq, inv_mul_cancel_left]
  · simp only [Set.mem_ofPred_eq, if_neg hd] at hM ⊢
    exact hM.act p

/-- The clauses that were handed over hold in all least tables, and only those are written. -/
structure Serving (s : Session n) (before : Bool) (d : Perm (Fin n)) (σ : System n) : Prop where
  ready : σ.Ready s
  valid : ∀ c ∈ σ.handed, ∀ N ∈ wanted s d, (s.mincheck before).HoldsIn c N
  lent : σ.lent = []
  forced : σ.forced = []
  written : ∀ solution ∈ σ.interface.output, ∃ M ∈ wanted s d, solution.matrix = shown M
  unfinished : σ.ended ≠ some 20

section Run

variable {s : Session n} {before : Bool} {d : Perm (Fin n)} {σ σ' : System n}

/-- No valid set of clauses is unsatisfiable. -/
theorem Serving.answer (hf : s.cfg.fixedRow = 0) (hmode : InMode (s.mincheck before) d)
    (hne : (described s).Nonempty) (h : Serving s before d σ) {result : Int}
    (hallowed : σ.Allowed s (.answer result))
    (hstep : σ.step s before (.answer result) = some σ') : Serving s before d σ' := by
  obtain ⟨hended, hquiet, hresult⟩ := hallowed
  have hready : ∀ {σ' : System n}, σ'.interface = σ.interface → σ'.ledger = σ.ledger →
      σ'.reading = σ.reading → σ'.Ready s := by
    intro σ' hi hl hr
    refine ⟨by rw [hi, hl]; exact h.ready.follows, ?_, by rw [hi]; exact h.ready.nonzero⟩
    unfold System.Quiescent
    rw [hi, hr]
    exact h.ready.flight
  rcases hresult with ⟨rfl, -⟩ | ⟨rfl, hunsat⟩ | rfl
  · simp only [System.step, if_true, Option.some.injEq] at hstep
    subst hstep
    exact ⟨hready rfl rfl rfl, h.valid, h.lent, h.forced, h.written, h.unfinished⟩
  · obtain ⟨M, hM⟩ := wanted_nonempty hmode hne
    obtain ⟨τ, hτ, hmodels⟩ := exists_model hf hmode hM.1
    refine absurd (fun c hc => ?_) (hunsat τ)
    rw [h.lent, List.append_nil] at hc
    rcases List.mem_append.mp hc with hc | hc
    · exact hmodels c hc
    · exact h.valid c (by simp [System.handed, hquiet.1, hc]) M hM τ hτ
  · simp only [System.step, show ¬ (0 : Int) = 10 by decide, if_false, Option.some.injEq] at hstep
    subst hstep
    exact ⟨hready rfl rfl rfl, h.valid, h.lent, h.forced, h.written, by simp⟩

theorem Serving.check (hn : 1 ≤ n) (hf : s.cfg.fixedRow = 0) (hmode : InMode (s.mincheck before) d)
    (hall : s.cfg.allModels = false) (h : Serving s before d σ) (hquiet : σ.Quiescent)
    {τ : Valuation} (hfound : σ.Found s τ) {x : Interface n} {res : Bool}
    (hcheck : σ.interface.check s before = some (x, res)) :
    Serving s before d { σ with interface := x, accepted := res, checks := σ.checks + 1 } := by
  obtain ⟨M, hM, -, htotal⟩ :=
    total_of_found hf hmode h.ready.follows hfound (hfound.allNotified h.forced)
  have hvalid : ∀ c ∈ σ.learned, ∀ N ∈ wanted s d, (s.mincheck before).HoldsIn c N :=
    fun c hc => h.valid c (by simp [System.handed, hquiet.1, hc])
  rcases check_of_total hn hmode htotal hM with ⟨-, clause, hresult, hrefutes⟩ | ⟨hwanted, hwrite⟩
  · rw [hresult] at hcheck
    cases hcheck
    refine ⟨⟨h.ready.follows, Or.inr ⟨clause, ?_⟩, ?_⟩, fun c hc => ?_, h.lent, h.forced,
      h.written, h.unfinished⟩
    · simp [Interface.addClause, ClauseQueue.addClause, hquiet.1]
    · simpa [Interface.addClause, ClauseQueue.addClause, hquiet.1] using hrefutes.nonzero
    · have hmem : c = clause ∨ c ∈ σ.learned := by
        simpa [System.handed, Interface.addClause, ClauseQueue.addClause, hquiet.1, hquiet.2]
          using hc
      rcases hmem with rfl | hc
      · exact hrefutes.holds
      · exact hvalid c hc
  · rcases hwrite with ⟨hno, -⟩ | ⟨-, hresult⟩
    · rw [hall] at hno
      cases hno
    · rw [hresult] at hcheck
      cases hcheck
      refine ⟨⟨h.ready.follows, h.ready.flight, h.ready.nonzero⟩, h.valid, h.lent, h.forced,
        fun solution hmem => ?_, h.unfinished⟩
      rcases List.mem_append.mp hmem with hmem | hmem
      · exact h.written solution hmem
      · rw [List.mem_singleton.mp hmem]
        exact ⟨M, hwanted, funext fun i => funext fun j => htotal.matrix i j⟩

theorem Serving.quiet (h : Serving s before d σ) (hready : σ'.Ready s) (hq : System.Quiet σ σ') :
    Serving s before d σ' where
  ready := hready
  valid := by
    rw [hq.handed]
    exact h.valid
  lent := hq.lent.trans h.lent
  forced := hq.forced.trans h.forced
  written := by
    rw [hq.output]
    exact h.written
  unfinished := by
    rw [hq.ended]
    exact h.unfinished

end Run

/-- An accepting check depends on what the propagator shows only. -/
theorem check_again {s : Session n} {before : Bool} (hall : s.cfg.allModels = false)
    {x x' y : Interface n} (h : x.check s before = some (x', true))
    (hqueue : y.queue = x.queue) : y.check s before = some (y.write, true) := by
  have hcurrent : y.current = x.current := by
    unfold Interface.current
    rw [hqueue]
  unfold Interface.check Interface.checkMin at h ⊢
  simp only [hall, Bool.and_false, Bool.false_eq_true, if_false, hcurrent] at h ⊢
  cases hrun : ((s.mincheck before).run x.current (x.current.fullDefined || true)).result with
  | ok u => simp
  | error stop =>
    rw [hrun] at h
    cases stop with
    | clause clause => cases h
    | limit => simp
    | fault => cases h

/-- A found model that the check accepts. -/
structure Accepts (s : Session n) (before : Bool) (σ : System n) (τ : Valuation) : Prop where
  reached : System.Reaches s before σ
  ended : σ.ended = none
  quiet : σ.Quiescent
  found : σ.Found s τ
  check : σ.interface.check s before = some (σ.interface.write, true)

section Accepts

variable {s : Session n} {before : Bool} {σ : System n} {τ : Valuation}

/-- The table is written, and the loop goes on. -/
theorem Accepts.write (h : Accepts s before σ τ) : System.Reaches s before { σ with
    interface := σ.interface.write, accepted := true, checks := σ.checks + 1 } := by
  apply h.reached.step (.callback .checkFoundModel) ⟨h.ended, h.quiet.2, τ, h.found⟩
  simp [System.step, Interface.step, h.quiet.1, h.check, System.receive]

/-- The next call of `solve` can come to the same model. -/
theorem Accepts.again (hall : s.cfg.allModels = false) (h : Accepts s before σ τ) :
    Accepts s before { σ with
      interface := σ.interface.write, accepted := false, checks := σ.checks + 1,
      solves := σ.solves + 1 } τ where
  reached := h.write.step (.answer 10) ⟨h.ended, h.quiet, Or.inl ⟨rfl, rfl⟩⟩ rfl
  ended := h.ended
  quiet := h.quiet
  found := ⟨h.found.models, h.found.agrees, h.found.notified⟩
  check := check_again hall h.check rfl

theorem Accepts.repeats (hall : s.cfg.allModels = false) (h : Accepts s before σ τ) (k : Nat) :
    ∃ σ', Accepts s before σ' τ ∧ σ'.solves = σ.solves + k ∧
      σ'.interface.nModels = σ.interface.nModels + k ∧
      σ'.interface.output.map (·.matrix) =
        σ.interface.output.map (·.matrix) ++ List.replicate k σ.interface.current.matrix := by
  induction k generalizing σ with
  | zero => exact ⟨σ, h, rfl, rfl, by simp⟩
  | succ k ih =>
    obtain ⟨σ', hσ', hsolves, hmodels, houtput⟩ := ih (h.again hall)
    have hcurrent : σ.interface.write.current = σ.interface.current := rfl
    refine ⟨σ', hσ', ?_, ?_, ?_⟩
    · rw [hsolves, Nat.add_assoc, Nat.add_comm 1 k]
    · rw [hmodels]
      simp [Interface.write, Nat.add_assoc, Nat.add_comm 1 k]
    · rw [houtput, hcurrent]
      simp [Interface.write, List.replicate_succ]

end Accepts

/-- `--size 3` without `--allModels`, after a table was refused: one that the check accepts is
found. -/
theorem three_accepts : ∃ σ τ, Accepts (three false false) false σ τ ∧ σ.checks = 1 ∧
    σ.interface.nModels = 0 := by
  have hmode := three_inMode false false
  have hleast : (fun _ j : Fin 3 => j) ∈ wanted (three false false) 1 :=
    ⟨⟨fun _ => Function.bijective_id, Function.bijective_id, fun _ _ _ => rfl⟩,
      leastUnder_identityRows 1⟩
  have hdiffer : (fun _ j : Fin 3 => j) ≠ turned := fun heq =>
    absurd (congrFun (congrFun heq 1) 0) (by decide)
  obtain ⟨σ, clause, hrests, hlearned, -, hholds, hchecks, hcount⟩ :=
    (rests_start rfl).round (by decide) rfl hmode (System.permits_all _)
      (remains_start rfl hmode (turned_described false false))
      fun hwanted => absurd hwanted.2 turned_not_least
  obtain ⟨hdescribed, τ, hτ, hmodels⟩ :=
    (remains_start rfl hmode hleast.1).after hlearned (hholds _ hleast hdiffer)
  obtain ⟨σ', h⟩ := hrests.propose rfl (System.permits_all _) hdescribed hτ hmodels
  have hnone : σ.interface.nModels = 0 := by
    rcases hcount with ⟨-, hsame⟩ | ⟨hwanted, -⟩
    · exact hsame
    · exact absurd hwanted.2 turned_not_least
  refine ⟨σ', τ, ⟨h.reached.reaches, h.ended, h.quiet, h.found, ?_⟩, h.checks.trans hchecks,
    h.nModels.trans hnone⟩
  rcases check_of_total (by decide) hmode h.total hdescribed with
    ⟨hno, -⟩ | ⟨-, ⟨hall, -⟩ | ⟨-, haccepts⟩⟩
  · exact absurd hleast hno
  · cases hall
  · exact haccepts

/-- Without `--allModels`: only least tables are written, and while the formula describes a cycle
set no run leaves the loop with the answer 20. -/
theorem single_model_unending (hn : 1 ≤ n) (s : Session n) (before : Bool) (d : Perm (Fin n))
    (hmode : InMode (s.mincheck before) d) (hf : s.cfg.fixedRow = 0)
    (hall : s.cfg.allModels = false) (hoff : s.cfg.checkSolutionInProp = false)
    (hne : (described s).Nonempty) (σ : System n) (h : System.Reaches s before σ) :
    (∀ solution ∈ σ.interface.output, ∃ M ∈ wanted s d, solution.matrix = shown M) ∧
      σ.ended ≠ some 20 := by
  have hserving : Serving s before d σ := by
    apply h.invariant
    · refine ⟨System.ready_start (start_domains s hf).held, fun c hc => ?_, rfl, rfl,
        fun solution hmem => absurd hmem List.not_mem_nil, by simp [System.start]⟩
      simp [System.handed, System.start, Interface.init, ClauseQueue.init] at hc
    · intro σ σ' m hσ hallowed hstep
      rcases hσ.ready.step_cases hf hoff hallowed hstep with
        ⟨result, rfl⟩ | ⟨x, res, rfl, hquiet, hcheck, rfl⟩ | ⟨hready, hq⟩
      · exact hσ.answer hf hmode hne hallowed hstep
      · obtain ⟨τ, hfound⟩ := hallowed.2.2
        exact hσ.check hn hf hmode hall hquiet hfound hcheck
      · exact hσ.quiet hready hq
  exact ⟨hserving.written, hserving.unfinished⟩

/-- After a table was refused and the next one accepted, the answer 20 is not given. -/
theorem single_model_unending_instance : ∃ σ, System.Reaches (three false false) false σ ∧
    σ.checks = 2 ∧ σ.interface.nModels = 1 ∧ σ.accepted = true ∧ σ.ended ≠ some 20 := by
  obtain ⟨σ, τ, h, hchecks, hnone⟩ := three_accepts
  obtain ⟨-, hunended⟩ := single_model_unending (by decide) (three false false) false 1
    (three_inMode false false) rfl rfl rfl ⟨turned, turned_described false false⟩ _ h.write
  exact ⟨_, h.write, congrArg (· + 1) hchecks, congrArg (· + 1) hnone, rfl, hunended⟩

/-- Where a found model is accepted without `--allModels`, runs go on from there that accept and
write the same table any number of times. -/
theorem single_model_repeats (s : Session n) (before : Bool) (hall : s.cfg.allModels = false)
    (σ : System n) (h : System.Reaches s before σ) (hended : σ.ended = none) (hquiet : σ.Quiescent)
    (τ : Valuation) (hfound : σ.Found s τ) (x : Interface n)
    (hcheck : σ.interface.check s before = some (x, true)) (k : Nat) :
    ∃ σ', System.Reaches s before σ' ∧ σ'.solves = σ.solves + k ∧
      σ'.interface.nModels = σ.interface.nModels + k ∧
      σ'.interface.output.map (·.matrix) =
        σ.interface.output.map (·.matrix) ++ List.replicate k σ.interface.current.matrix := by
  have haccepts : Accepts s before σ τ :=
    ⟨h, hended, hquiet, hfound, check_again hall hcheck rfl⟩
  obtain ⟨σ', hσ', hsolves, hmodels, houtput⟩ := haccepts.repeats hall k
  exact ⟨σ', hσ'.reached, hsolves, hmodels, houtput⟩

/-- After a table was refused, the next one can be written three times. -/
theorem single_model_repeats_instance : ∃ σ σ' : System 3,
    System.Reaches (three false false) false σ' ∧ σ.checks = 1 ∧
    σ'.interface.nModels = σ.interface.nModels + 3 ∧
    σ'.interface.output.map (·.matrix) = σ.interface.output.map (·.matrix) ++
      List.replicate 3 σ.interface.current.matrix := by
  obtain ⟨σ, τ, h, hchecks, -⟩ := three_accepts
  obtain ⟨σ', hreached, -, hmodels, houtput⟩ := single_model_repeats (three false false) false rfl
    σ h.reached h.ended h.quiet τ h.found _ h.check 3
  exact ⟨σ, σ', hreached, hchecks, hmodels, houtput⟩

end YbeSms.Guarantees
