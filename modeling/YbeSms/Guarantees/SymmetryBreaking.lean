import YbeSms.Guarantees.OldEncoder
import YbeSms.Guarantees.PropagatedState
import YbeSms.Guarantees.WritesOnce

/-!
# Enumeration with checks in the propagator

Source: ybe-sms/src/solveGeneral.cpp:12-183; solveCadicalClass.hpp:99-146, 259-397;
minCheck_V2.cpp:46-284. With `--allModels` and the checks in the propagator on, partial
tables are cut off by clauses that hold in all least ones, so the output is still the
list of the least tables. This takes what the encoders take, that a check in the
propagator sees a propagated assignment, and the check of a found model all of it. A
literal of `cb_propagate` that CaDiCaL sets on level 0 is not notified; runs in which a
check misses such a literal are not covered.
-/

namespace YbeSms.Source

open YbeSms.Library YbeSms.Abstract YbeSms.Guarantees

variable {n : Nat}

namespace Interface

/-- The clause with which a check in the propagator ends. -/
def Thrown (s : Session n) (before : Bool) (c : CycleSet n) (clause : Clause) : Prop :=
  ((s.mincheck before).run c c.fullDefined).result = .error (.clause clause)

/-- A check in the propagator adds the clause it throws, or the clause against a table it
writes. -/
def Adds (s : Session n) (before : Bool) (x x' : Interface n) (clause : Clause) : Prop :=
  (Thrown s before x.current clause ∧ x'.output = x.output ∧
    x'.warnings =
      if warns (x.current.truthOf s.table) clause then x.warnings + 1 else x.warnings) ∨
  (x.current.fullDefined = true ∧ (∀ c, ¬ Thrown s before x.current c) ∧
    clause = excludeCurrent s x.current ∧
    x'.output = x.output ++ [⟨x.nModels + 1, x.current.matrix⟩] ∧ x'.warnings = x.warnings)

variable {s : Session n} {before : Bool} {x x' : Interface n}

theorem propagate_adds (hempty : x.queue.clauses = []) {drawn : Bool}
    (h : x.propagate s before drawn = some x') :
    x' = x ∨ ((drawn && s.cfg.checkSolutionInProp) = true ∧
      ∃ clause, Adds s before x x' clause ∧ x'.queue.clauses = [clause]) := by
  unfold propagate at h
  split at h
  next hsearch =>
    obtain ⟨⟨y, res⟩, hcheck, rfl⟩ := Option.map_eq_some_iff.mp h
    have hcases := checkMin_cases hcheck
    rw [Bool.or_false] at hcases
    rcases hcases with ⟨clause, hrun, rfl, -⟩ | ⟨hnone, ⟨hfull, -, rfl, -⟩ | ⟨-, rfl, -⟩⟩
    · refine Or.inr ⟨hsearch, clause, Or.inl ⟨hrun, rfl, ?_⟩, ?_⟩
      · simp [addClause]
      · simp [addClause, ClauseQueue.addClause, hempty]
    · refine Or.inr ⟨hsearch, _, Or.inr ⟨hfull, hnone, rfl, rfl, ?_⟩, ?_⟩
      · simp [addClause, write]
      · simp [addClause, write, ClauseQueue.addClause, hempty]
    · exact Or.inl rfl
  next =>
    cases h
    exact Or.inl rfl

/-- `cb_propagate` leaves the clause that was added, or takes it as the reason of its answer. -/
theorem step_propagate_adds (hempty : x.queue.clauses = []) {timeUp drawn : Bool} {answer : Int}
    (h : x.step s before (.propagate timeUp drawn) = some (x', answer)) :
    (x' = x ∧ answer = 0) ∨
    (x.searches s (.propagate timeUp drawn) = true ∧
      ∃ clause, Adds s before x x' clause ∧
        ((x'.queue.clauses = [clause] ∧ answer = 0) ∨
          (x'.queue.clauses = [] ∧ x'.queue.reason answer = clause ∧ answer ∈ clause))) := by
  simp only [step] at h
  split at h
  next =>
    cases h
    exact Or.inl ⟨rfl, rfl⟩
  next hlooks =>
    cases hpropagate : x.propagate s before drawn with
    | none =>
      rw [hpropagate] at h
      cases h
    | some y =>
      rw [hpropagate] at h
      obtain ⟨⟨q, u⟩, hlast, heq⟩ := Option.map_eq_some_iff.mp h
      cases heq
      rcases propagate_adds hempty hpropagate with rfl | ⟨hsearch, clause, hadds, hclauses⟩
      · unfold ClauseQueue.propagateLast at hlast
        rw [hempty] at hlast
        cases hlast
        exact Or.inl ⟨rfl, rfl⟩
      · have hsearches : x.searches s (.propagate timeUp drawn) = true := by
          simp only [searches, hsearch, Bool.eq_false_iff.mpr hlooks, Bool.not_false,
            Bool.and_true]
        refine Or.inr ⟨hsearches, clause, hadds, ?_⟩
        rcases propagateLast_cases hlast with ⟨rfl, rfl⟩ | ⟨last, rest, hlasts, rfl, hscan⟩
        · exact Or.inl ⟨hclauses, rfl⟩
        · rw [hclauses] at hlasts
          obtain ⟨rfl, rfl⟩ := List.cons_eq_cons.mp hlasts
          obtain ⟨-, hcount, hu⟩ := scanClause_spec _ _ _ _ hscan
          refine Or.inr ⟨by simp, by simp [reason_setReason], ?_⟩
          -- the one unknown literal of the clause
          rw [zero_add] at hcount
          obtain ⟨l, hl⟩ := List.length_eq_one_iff.mp hcount.symm
          rw [hl] at hu
          obtain rfl : u = l := hu
          have hmem := List.mem_singleton_self u
          rw [← hl] at hmem
          exact List.mem_of_mem_filter hmem

theorem step_hasExternalClause_adds {drawn : Bool} {answer : Int}
    (h : x.step s before (.hasExternalClause drawn) = some (x', answer)) :
    (x' = x ∨ x' = x.clearChange) ∨
    (x.searches s (.hasExternalClause drawn) = true ∧ ∃ clause, x.queue.clauses = [] ∧
      Adds s before x x' clause ∧ x'.queue.clauses = [clause]) := by
  simp only [step] at h
  split at h
  next hlooks =>
    have hempty := empty_of_looksForClauses hlooks
    obtain ⟨y, hpropagate, heq⟩ := Option.map_eq_some_iff.mp h
    cases heq
    rcases propagate_adds (x := x.clearChange) hempty hpropagate with
      rfl | ⟨hsearch, clause, hadds, hclauses⟩
    · exact Or.inl (Or.inr rfl)
    · have hsearches : x.searches s (.hasExternalClause drawn) = true := by
        simp only [searches, hsearch, hlooks, Bool.and_true]
      exact Or.inr ⟨hsearches, clause, hempty, hadds, hclauses⟩
  next =>
    cases h
    exact Or.inl (Or.inl rfl)

end Interface

namespace System

/-- Whether the move runs a check in the propagator. -/
def Searches (s : Session n) (σ : System n) : Move → Prop
  | .callback c => σ.interface.searches s c = true
  | .answer _ => False

/-- The clauses the solver has been given, to keep or as a reason. -/
def given (σ : System n) : List Clause := σ.handed ++ σ.lent

/-- At most one clause is given, and it is on its way or taken. -/
structure Receives (σ σ' : System n) (clause : Clause) : Prop where
  given : ∀ c ∈ σ'.given, c ∈ σ.given ∨ c = clause
  flight : σ'.Quiescent ∨ σ'.interface.queue.clauses = [clause]
  ended : σ'.ended = σ.ended

variable {s : Session n} {before : Bool} {σ σ' : System n}

theorem receives_waiting {clause : Clause} (hquiet : σ.Quiescent)
    (hclauses : σ'.interface.queue.clauses = [clause]) (hreading : σ'.reading = σ.reading)
    (hlearned : σ'.learned = σ.learned) (hlent : σ'.lent = σ.lent) (hended : σ'.ended = σ.ended) :
    Receives σ σ' clause := by
  refine ⟨fun c hc => ?_, Or.inr hclauses, hended⟩
  simp only [System.given, handed, hclauses, hreading, hquiet.1, hquiet.2, hlearned, hlent,
    List.append_nil, List.nil_append, List.cons_append, List.mem_cons] at hc ⊢
  exact hc.symm

/-- Asking changes nothing, or gives the clause that a check adds. -/
theorem Ready.ask (h : σ.Ready s) {m : Move} (hm : m.Asks) (hallowed : σ.Allowed s m)
    (hstep : σ.step s before m = some σ') :
    (σ'.Ready s ∧ Quiet σ σ') ∨
    (σ.Searches s m ∧ ∃ clause, Interface.Adds s before σ.interface σ'.interface clause ∧
      ((0 : Int) ∉ clause → Receives σ σ' clause)) := by
  unfold Move.Asks at hm
  split at hm
  next timeUp drawn =>
    obtain ⟨⟨x, answer⟩, hx, rfl⟩ := Option.map_eq_some_iff.mp hstep
    have hquiet := hallowed.2.1
    rcases Interface.step_propagate_adds hquiet.1 hx with
      ⟨rfl, rfl⟩ | ⟨hsearches, clause, hadds, ⟨hclauses, rfl⟩ | ⟨hclauses, hreason, hanswer⟩⟩
    · exact Or.inl (h.looked (Or.inl rfl))
    · exact Or.inr ⟨hsearches, clause, hadds, fun _ =>
        receives_waiting hquiet hclauses rfl rfl rfl rfl⟩
    · refine Or.inr ⟨hsearches, clause, hadds, fun hnonzero => ⟨fun c hc => ?_, ?_, rfl⟩⟩
      · have hne : answer ≠ 0 := fun h0 => hnonzero (h0 ▸ hanswer)
        simp only [System.given, handed, receive, hclauses, hreason, if_neg hne, hquiet.1,
          List.nil_append, List.mem_append, List.mem_cons] at hc ⊢
        tauto
      · exact Or.inl ⟨hclauses, hquiet.2⟩
  next drawn =>
    obtain ⟨⟨x, answer⟩, hx, rfl⟩ := Option.map_eq_some_iff.mp hstep
    rcases Interface.step_hasExternalClause_adds hx with
      hsame | ⟨hsearches, clause, hempty, hadds, hclauses⟩
    · exact Or.inl (h.looked hsame)
    · have hquiet : σ.Quiescent := ⟨hempty, hallowed.2.1⟩
      exact Or.inr ⟨hsearches, clause, hadds, fun _ =>
        receives_waiting hquiet hclauses rfl rfl rfl rfl⟩
  next => exact hm.elim

/-- Only a notification changes more of the propagator than its flag. -/
theorem Steady.step_propagator (hall : s.cfg.allModels = true) (h : σ.Steady s (HeldInv s)) {m : Move}
    (hallowed : σ.Allowed s m) (hstep : σ.step s before m = some σ') :
    (∃ e, m = .callback (.notify e) ∧
      σ'.interface.queue.propagator = σ.interface.queue.propagator.notify s.table e ∧
      σ'.ledger = σ.ledger.notify e) ∨
    ((∃ changed, σ'.interface.queue.propagator =
      { σ.interface.queue.propagator with changeInTrail := changed }) ∧ σ'.ledger = σ.ledger) := by
  cases m with
  | answer result =>
    simp only [System.step, Option.some.injEq] at hstep
    subst hstep
    right
    split <;> exact ⟨⟨_, rfl⟩, rfl⟩
  | callback c =>
    obtain ⟨⟨x, answer⟩, hx, rfl⟩ := Option.map_eq_some_iff.mp hstep
    have hlooks := Interface.step_looks hall (fun l hl => h.falsified hl) hx
    cases c with
    | notify e =>
      rw [Interface.step_notify] at hx
      cases hx
      exact Or.inl ⟨e, rfl, rfl, rfl⟩
    | addExternalClauseLit =>
      right
      have hreceive : (σ.receive .addExternalClauseLit x answer).interface = x ∧
          (σ.receive .addExternalClauseLit x answer).ledger = σ.ledger := by
        by_cases hend : answer = 0 <;> simp [receive, hend]
      rw [hreceive.1, hreceive.2]
      rcases h.flight with hquiet | ⟨clause, hclauses⟩
      · exact absurd hquiet.1 hallowed.2
      · rcases Interface.step_addExternalClauseLit (s := s) before hclauses with
          ⟨-, hx'⟩ | ⟨front, lit, -, hx'⟩
        all_goals
          rw [hx'] at hx
          cases hx
          exact ⟨⟨_, rfl⟩, rfl⟩
    | propagate timeUp drawn =>
      exact Or.inr ⟨(hlooks (by simp) (by simp) fun _ _ _ => hallowed.2.1.1).propagator, rfl⟩
    | hasExternalClause drawn =>
      exact Or.inr ⟨(hlooks (by simp) (by simp) (by simp)).propagator, rfl⟩
    | addReasonClauseLit plit =>
      exact Or.inr ⟨(hlooks (by simp) (by simp) (by simp)).propagator, rfl⟩
    | decide => exact Or.inr ⟨(hlooks (by simp) (by simp) (by simp)).propagator, rfl⟩
    | checkFoundModel => exact Or.inr ⟨(hlooks (by simp) (by simp) (by simp)).propagator, rfl⟩

/-- Every move keeps what every notification keeps. -/
theorem Steady.follows_step {D : CycleSet n → Prop} {Clean : Entry n → Bool → Prop}
    (hundo : UndoKeeps s D Clean) (hkeep : StepKeeps s D Clean (Notifies s))
    (hall : s.cfg.allModels = true) (h : σ.Steady s (HeldInv s))
    (hD : Follows s D σ.interface.queue.propagator σ.ledger) {m : Move}
    (hallowed : σ.Allowed s m) (hstep : σ.step s before m = some σ') :
    Follows s D σ'.interface.queue.propagator σ'.ledger := by
  rcases h.step_propagator hall hallowed hstep with
    ⟨e, rfl, hpropagator, hledger⟩ | ⟨⟨changed, hpropagator⟩, hledger⟩
  · rw [hpropagator, hledger]
    exact Follows.notify hundo hkeep _ _ e hD hallowed.2.2
  · rw [hpropagator, hledger]
    exact hD.congr rfl rfl rfl

end System

end YbeSms.Source

namespace YbeSms.Guarantees

open YbeSms.Library YbeSms.Abstract YbeSms.Source YbeSms.Source.MinCheck Equiv

variable {n : Nat}

/-- The steps of a run that the encoder in use covers. -/
def StepRight (m : MinCheck n) (cycset : CycleSet n) (e : Event n) : Prop :=
  FixesAtStart e ∧ (m.cfg.oldBreakingClauses = true → CollectsTies m cycset e)

/-- A check in the propagator sees a propagated assignment, and on a partial table the encoder
covers all steps of its search; the check of a found model sees the whole model. -/
structure Regular (s : Session n) (before : Bool) (σ : System n) (m : Move) : Prop where
  propagated : σ.Searches s m → Propagated s σ.ledger
  steps : σ.Searches s m → σ.interface.current.fullDefined = false →
    ∀ e ∈ ((s.mincheck before).run σ.interface.current false).events,
      StepRight (s.mincheck before) σ.interface.current e
  notified : m = .callback .checkFoundModel → σ.interface.queue.clauses = [] →
    System.AllNotified s σ.ledger

/-- Past `preCheck` the steps of a check are those of `MinCheck`. -/
theorem events_of_run {m : MinCheck n} {cycset : CycleSet n} (hpre : preCheck cycset = false)
    (isFinal : Bool) : (m.run cycset isFinal).events = (m.minCheck cycset isFinal).events := by
  unfold run
  rw [if_neg (by simp [hpre])]
  cases hresult : (m.minCheck cycset isFinal).result with
  | ok its => simp [bind, Traced.bind, hresult, pure, Traced.pure]
  | error stop => simp [bind, Traced.bind, hresult]

section Clauses

variable {s : Session n} {before : Bool} {d : Perm (Fin n)} {M : Fin n → Fin n → Fin n}
  {clause : Clause}

/-- A clause thrown on a partial table. -/
theorem spares_of_partial (hn : 3 ≤ n) (hmode : InMode (s.mincheck before) d) {c : CycleSet n}
    (ht : (s.mincheck before).Tight c)
    (hdom : ∀ i j v, (c.bitdomains i j).dom v = true ↔ InDomain c i j v)
    (hnotfull : c.fullDefined = false)
    (hsteps : ∀ e ∈ ((s.mincheck before).run c false).events,
      StepRight (s.mincheck before) c e)
    (hthrown : Interface.Thrown s before c clause) : Spares s before d c clause := by
  have hs := hmode.serves (by omega)
  have hnumbered := numbered_mincheck s before
  unfold Interface.Thrown at hthrown
  rw [hnotfull] at hthrown
  obtain ⟨hpre, hthrow⟩ := minCheck_of_run hthrown
  rw [events_of_run hpre] at hsteps
  have hfixes := fun e he => (hsteps e he).1
  have hforcing := (minCheck_spec hs (ruled_forcing hn hmode ht) false hfixes).2
  rw [hthrow] at hforcing
  have hvalid : StopsValid (s.mincheck before) d (.clause clause) := by
    cases hold : (s.mincheck before).cfg.oldBreakingClauses with
    | true =>
      have hruled := ruled_of_collectsTies hs hnumbered hold ht.toConsistent hdom hpre
      have hstop := (minCheck_spec hs hruled false fun e he => (hsteps e he).2 hold).2
      rwa [hthrow] at hstop
    | false =>
      have hruled := ruled_of_fixesAtStart hn hs hnumbered hold ht.toConsistent
      have hstop := (minCheck_spec hs hruled false hfixes).2
      rwa [hthrow] at hstop
  exact ⟨fun N hN => hvalid clause rfl N (admits_of_described hN.1) hN.2,
    zero_not_mem_of_forcing (hforcing clause rfl), warns_of_forcing (hforcing clause rfl)⟩

/-- A clause thrown on a full table. -/
theorem spares_of_full (hn : 1 ≤ n) (hmode : InMode (s.mincheck before) d) {c : CycleSet n}
    (h : (s.mincheck before).Total c M) (hM : M ∈ described s)
    (hthrown : Interface.Thrown s before c clause) : Spares s before d c clause := by
  unfold Interface.Thrown at hthrown
  rw [fullDefined_of_total h] at hthrown
  rcases run_of_total hn hmode h hM with ⟨-, refuting, hresult, hrefutes⟩ | ⟨-, hresult⟩
  · rw [hresult] at hthrown
    cases hthrown
    exact hrefutes.toSpares
  · rw [hresult] at hthrown
    cases hthrown

/-- A clause that spares the least tables but those that are written with it. -/
structure Gives (s : Session n) (before : Bool) (d : Perm (Fin n)) (x x' : Interface n)
    (clause : Clause) (more : List (Fin n → Fin n → Fin n)) : Prop where
  least : ∀ M ∈ more, M ∈ wanted s d
  holds : ∀ N ∈ wanted s d, N ∉ more → (s.mincheck before).HoldsIn clause N
  nonzero : (0 : Int) ∉ clause
  written : x'.output.map (·.matrix) = x.output.map (·.matrix) ++ more.map shown
  warnings : x'.warnings = x.warnings

variable {x x' : Interface n}

theorem gives_of_spares (h : Spares s before d x.current clause) (houtput : x'.output = x.output)
    (hwarnings : x'.warnings =
      if warns (x.current.truthOf s.table) clause then x.warnings + 1 else x.warnings) :
    Gives s before d x x' clause [] := by
  refine ⟨by simp, fun N hN _ => h.holds N hN, h.nonzero, by simp [houtput], ?_⟩
  rw [hwarnings, h.silent]
  rfl

theorem gives_of_written (h : (s.mincheck before).Total x.current M) (hM : M ∈ wanted s d)
    (houtput : x'.output = x.output ++ [⟨x.nModels + 1, x.current.matrix⟩])
    (hwarnings : x'.warnings = x.warnings) :
    Gives s before d x x' (excludeCurrent s x.current) [M] := by
  have hmatrix : x.current.matrix = shown M := funext fun i => funext fun j => h.matrix i j
  refine ⟨by simpa using hM, fun N hN hne => ?_, zero_not_mem_excludeCurrent h, ?_, hwarnings⟩
  · exact excludeCurrent_holdsIn h (admits_of_described hN.1) (by simpa using hne)
  · simp [houtput, hmatrix]

/-- Whatever a check in the propagator adds. -/
theorem gives_of_adds (hn : 3 ≤ n) (hmode : InMode (s.mincheck before) d)
    (hf : s.cfg.fixedRow = 0) (hsmall : s.cfg.diagPart = true → s.cfg.smallerEncoding = true)
    {l : Ledger} (hheld : Picture s (HeldInv s) x.queue.propagator l)
    (hpic : Picture s (DomainInv s) x.queue.propagator l) (hprop : Propagated s l)
    (hsteps : x.current.fullDefined = false →
      ∀ e ∈ ((s.mincheck before).run x.current false).events,
        StepRight (s.mincheck before) x.current e)
    (hadds : Interface.Adds s before x x' clause) :
    ∃ more, Gives s before d x x' clause more := by
  have htotal : x.current.fullDefined = true →
      ∃ M, M ∈ described s ∧ (s.mincheck before).Total x.current M := by
    intro hfull
    obtain ⟨M, hM, hassigns⟩ := table_of_full hmode hf hsmall hpic hprop hfull
    exact ⟨M, hM, total_of_assigns hheld (admits_of_described hM) hassigns⟩
  rcases hadds with ⟨hthrown, houtput, hwarnings⟩ | ⟨hfull, hnone, rfl, houtput, hwarnings⟩
  · refine ⟨[], gives_of_spares ?_ houtput hwarnings⟩
    cases hfull : x.current.fullDefined with
    | true =>
      obtain ⟨M, hM, h⟩ := htotal hfull
      exact spares_of_full (by omega) hmode h hM hthrown
    | false =>
      have ht := tight_of_propagated hf hsmall before hpic hprop
      have hdom := domains_of_closed hpic (closed_of_propagated hf hsmall hprop)
      exact spares_of_partial hn hmode ht hdom hfull (hsteps hfull) hthrown
  · obtain ⟨M, hM, h⟩ := htotal hfull
    refine ⟨[M], gives_of_written h ?_ houtput hwarnings⟩
    rcases run_of_total (by omega) hmode h hM with ⟨-, refuting, hresult, -⟩ | ⟨hwanted, -⟩
    · refine absurd ?_ (hnone refuting)
      unfold Interface.Thrown
      rw [hfull]
      exact hresult
    · exact hwanted

/-- Whatever the check of a found model adds. -/
theorem gives_of_check (hn : 1 ≤ n) (hmode : InMode (s.mincheck before) d)
    (hall : s.cfg.allModels = true) (h : (s.mincheck before).Total x.current M)
    (hM : M ∈ described s) {res : Bool} (hcheck : x.check s before = some (x', res)) :
    ∃ clause more, Gives s before d x x' clause more ∧
      x'.queue.clauses = clause :: x.queue.clauses := by
  rcases check_of_total hn hmode h hM with ⟨-, clause, hresult, hrefutes⟩ |
    ⟨hwanted, ⟨-, hresult⟩ | ⟨hno, -⟩⟩
  · rw [hresult] at hcheck
    cases hcheck
    exact ⟨clause, [], gives_of_spares hrefutes.toSpares rfl (by simp [Interface.addClause]), rfl⟩
  · rw [hresult] at hcheck
    cases hcheck
    exact ⟨_, [M], gives_of_written h hwanted rfl (by simp [Interface.addClause, Interface.write]),
      rfl⟩
  · rw [hall] at hno
    cases hno

end Clauses

/-- What holds between any two moves of such a run. -/
structure Breaks (s : Session n) (before : Bool) (d : Perm (Fin n)) (σ : System n)
    (tables : List (Fin n → Fin n → Fin n)) : Prop where
  ready : σ.Ready s
  domains : Follows s (DomainInv s) σ.interface.queue.propagator σ.ledger
  written : σ.interface.output.map (·.matrix) = tables.map shown
  least : ∀ M ∈ tables, M ∈ wanted s d
  kept : ∀ c ∈ σ.given, ∀ N ∈ wanted s d, N ∉ tables → (s.mincheck before).HoldsIn c N
  silent : σ.interface.warnings = 0
  finished : σ.ended = some 20 → ∀ M ∈ wanted s d, M ∈ tables

section Run

variable {s : Session n} {before : Bool} {d : Perm (Fin n)} {σ σ' : System n}
  {tables : List (Fin n → Fin n → Fin n)}

theorem breaks_start (hf : s.cfg.fixedRow = 0) : Breaks s before d (System.start s) [] where
  ready := System.ready_start (start_domains s hf).held
  domains := by
    obtain ⟨hpic, htrail⟩ := s.picture_start (start_domains s hf)
    exact ⟨hpic, htrail, by simp [System.start, Ledger.empty]⟩
  written := rfl
  least _ hM := absurd hM List.not_mem_nil
  kept _ hc := absurd hc List.not_mem_nil
  silent := rfl
  finished h := by cases h

theorem Breaks.steady (h : Breaks s before d σ tables) : σ.Steady s (HeldInv s) :=
  ⟨h.ready.follows, h.ready.flight⟩

theorem Breaks.quiet (h : Breaks s before d σ tables) (hended : σ.ended = none)
    (hready : σ'.Ready s)
    (hdomains : Follows s (DomainInv s) σ'.interface.queue.propagator σ'.ledger)
    (hq : System.Quiet σ σ') : Breaks s before d σ' tables where
  ready := hready
  domains := hdomains
  written := by rw [hq.output, h.written]
  least := h.least
  kept c hc := h.kept c (by rwa [System.given, ← hq.handed, ← hq.lent])
  silent := hq.warnings.trans h.silent
  finished hend := by
    rw [hq.ended, hended] at hend
    cases hend

/-- A clause is given, and the tables that it is against are written. -/
theorem Breaks.give (h : Breaks s before d σ tables) (hended : σ.ended = none)
    (hfollows : Follows s (HeldInv s) σ'.interface.queue.propagator σ'.ledger)
    (hdomains : Follows s (DomainInv s) σ'.interface.queue.propagator σ'.ledger)
    {clause : Clause} {more : List (Fin n → Fin n → Fin n)}
    (hgives : Gives s before d σ.interface σ'.interface clause more)
    (hreceives : System.Receives σ σ' clause) : Breaks s before d σ' (tables ++ more) where
  ready := by
    refine ⟨hfollows, hreceives.flight.imp id fun hc => ⟨clause, hc⟩, fun c hc => ?_⟩
    rcases hreceives.flight with hquiet | hone
    · rw [hquiet.1] at hc
      cases hc
    · rw [hone, List.mem_singleton] at hc
      rw [hc]
      exact hgives.nonzero
  domains := hdomains
  written := by rw [hgives.written, h.written, List.map_append]
  least M hM := (List.mem_append.mp hM).elim (h.least M) (hgives.least M)
  kept c hc N hN hno := by
    rw [List.mem_append, not_or] at hno
    rcases hreceives.given c hc with hold | rfl
    · exact h.kept c hold N hN hno.1
    · exact hgives.holds N hN hno.2
  silent := hgives.warnings.trans h.silent
  finished hend := by
    rw [hreceives.ended, hended] at hend
    cases hend

/-- When the solver answers 20, no least table is left. -/
theorem Breaks.answer (hf : s.cfg.fixedRow = 0) (hmode : InMode (s.mincheck before) d)
    (h : Breaks s before d σ tables) (haccepted : σ.accepted = false) {result : Int}
    (hallowed : σ.Allowed s (.answer result))
    (hstep : σ.step s before (.answer result) = some σ') : Breaks s before d σ' tables := by
  have hne := System.answer_ne_ten haccepted hallowed
  obtain ⟨-, hquiet, hresult⟩ := hallowed
  simp only [System.step, if_neg hne, Option.some.injEq] at hstep
  subst hstep
  refine ⟨⟨h.ready.follows, h.ready.flight, h.ready.nonzero⟩, h.domains, h.written, h.least, h.kept,
    h.silent, fun hend M hM => ?_⟩
  have hresult' : result = 20 := Option.some.inj hend
  by_contra hno
  rcases hresult with ⟨hten, -⟩ | ⟨-, hunsat⟩ | hzero
  · omega
  · -- a table that is left would satisfy all that was given
    obtain ⟨τ, hτ, hmodels⟩ := exists_model hf hmode hM.1
    apply hunsat τ
    intro c hc
    rw [List.append_assoc] at hc
    rcases List.mem_append.mp hc with hc | hc
    · exact hmodels c hc
    · apply h.kept c _ M hM hno τ hτ
      simpa [System.given, System.handed, hquiet.1] using hc
  · omega

/-- Step lemma. -/
theorem Breaks.step (hn : 3 ≤ n) (hf : s.cfg.fixedRow = 0) (hmode : InMode (s.mincheck before) d)
    (hall : s.cfg.allModels = true)
    (hsmall : s.cfg.diagPart = true → s.cfg.smallerEncoding = true)
    (h : Breaks s before d σ tables) (haccepted : σ.accepted = false) {m : Move}
    (hallowed : σ.Allowed s m) (hright : Regular s before σ m)
    (hstep : σ.step s before m = some σ') : ∃ tables', Breaks s before d σ' tables' := by
  have hended := hallowed.1
  have hfollows := h.steady.follows_step (undoKeeps_held s) (stepKeeps_held s hf) hall
    h.ready.follows hallowed hstep
  have hdomains := h.steady.follows_step (undoKeeps_domains s) (stepKeeps_small hf hsmall) hall
    h.domains hallowed hstep
  by_cases hm : m.Asks
  · rcases h.ready.ask hm hallowed hstep with
      ⟨hready, hq⟩ | ⟨hsearches, clause, hadds, hreceives⟩
    · exact ⟨tables, h.quiet hended hready hdomains hq⟩
    · obtain ⟨more, hgives⟩ := gives_of_adds hn hmode hf hsmall h.ready.follows.picture
        h.domains.picture (hright.propagated hsearches) (hright.steps hsearches) hadds
      exact ⟨_, h.give hended hfollows hdomains hgives (hreceives hgives.nonzero)⟩
  · rcases h.ready.step_other hf hm hallowed hstep with
      ⟨result, rfl⟩ | ⟨x, res, rfl, hquiet, hcheck, rfl⟩ | ⟨hready, hq⟩
    · exact ⟨tables, h.answer hf hmode haccepted hallowed hstep⟩
    · obtain ⟨τ, hfound⟩ := hallowed.2.2
      obtain ⟨M, hM, -, htotal⟩ := total_of_found hf hmode h.ready.follows hfound
        (hright.notified rfl hquiet.1)
      obtain ⟨clause, more, hgives, hclauses⟩ :=
        gives_of_check (by omega) hmode hall htotal hM hcheck
      rw [hquiet.1] at hclauses
      exact ⟨_, h.give hended hfollows hdomains hgives
        (System.receives_waiting hquiet hclauses rfl rfl rfl rfl)⟩
    · exact ⟨tables, h.quiet hended hready hdomains hq⟩

end Run

/-- With `--allModels`, with the checks in the propagator on or off, with either encoder of clauses:
in every run whose moves meet the conditions every table written is a least one, none is written
twice, the numbers count them, nothing warns, and when the solver is done the output is the list of
all least tables. -/
theorem symmetry_breaking_exact (hn : 3 ≤ n) (s : Session n) (before : Bool) (d : Perm (Fin n))
    (hmode : InMode (s.mincheck before) d) (hf : s.cfg.fixedRow = 0)
    (hall : s.cfg.allModels = true)
    (hsmall : s.cfg.diagPart = true → s.cfg.smallerEncoding = true) (σ : System n)
    (h : System.ReachesBy s before (Regular s before) σ) :
    ∃ tables : List (Fin n → Fin n → Fin n),
      σ.interface.output.map (·.matrix) = tables.map shown ∧
      σ.interface.output.map (·.number) = List.range' 1 tables.length ∧
      tables.Nodup ∧ (∀ M ∈ tables, M ∈ wanted s d) ∧
      σ.checks ≤ (described s).ncard ∧ σ.solves = 1 ∧ σ.interface.warnings = 0 ∧
      (σ.ended = some 20 → ∀ M, M ∈ tables ↔ M ∈ wanted s d) := by
  have hnotified : ∀ σ, σ.Quiescent → Regular s before σ (.callback .checkFoundModel) →
      System.AllNotified s σ.ledger := fun σ hquiet hright => hright.notified rfl hquiet.1
  have hbreaks : ∃ tables, Breaks s before d σ tables := by
    apply h.invariant
    · exact ⟨[], breaks_start hf⟩
    · intro σ σ' m hreached hσ hallowed hright hstep
      obtain ⟨tables, hσ⟩ := hσ
      obtain ⟨seen, hseen⟩ := checked_of_reachesBy (by omega) hmode hf hall hnotified hreached
      exact hσ.step hn hf hmode hall hsmall hseen.accepted hallowed hright hstep
  obtain ⟨tables, htables⟩ := hbreaks
  have honce := once_of_reaches hf hall h.reaches
  obtain ⟨seen, hseen⟩ := checked_of_reachesBy (by omega) hmode hf hall hnotified h
  have hcount : σ.interface.nModels = tables.length := by
    have hlength := congrArg List.length htables.written
    have hnumbers := congrArg List.length honce.numbers
    simp only [List.length_map, List.length_range'] at hlength hnumbers
    omega
  refine ⟨tables, htables.written, hcount ▸ honce.numbers, ?_, htables.least, ?_, hseen.solves,
    htables.silent, fun hend M => ⟨htables.least M, htables.finished hend M⟩⟩
  · apply List.Nodup.of_map shown
    rw [← htables.written]
    exact honce.refused.nodup
  · rw [hseen.checks]
    exact hseen.refused.length_le (Set.toFinite _)

/-! ### A clause against a partial table -/

/-- The propagator looks at the swapped row. -/
def swapped : System 3 := System.notifiedBy smallThree (System.start smallThree) rowSwapped

theorem swapped_reached :
    System.ReachesBy smallThree false (Regular smallThree false) swapped := by
  apply System.reachesBy_notifiedBy _ .initial rfl ⟨rfl, rfl⟩ rowSwapped_run
  intro σ e
  exact ⟨fun hno => absurd hno Bool.false_ne_true, fun hno => absurd hno Bool.false_ne_true,
    fun hno => by cases hno⟩

theorem swapped_looked : ∃ σ,
    swapped.step smallThree false (.callback (.hasExternalClause true)) = some σ ∧
      σ.interface.queue.clauses = [[-2, -5]] := by
  have hsome : (swapped.step smallThree false (.callback (.hasExternalClause true))).map
      (fun σ => σ.interface.queue.clauses) = some [[-2, -5]] := by decide +kernel
  exact Option.map_eq_some_iff.mp hsome

/-- A clause that cuts off the swapped row waits, and nothing warns. -/
theorem symmetry_breaking_exact_instance :
    ∃ σ, System.ReachesBy smallThree false (Regular smallThree false) σ ∧
      σ.interface.queue.clauses = [[-2, -5]] ∧ σ.interface.warnings = 0 := by
  obtain ⟨σ, hstep, hclauses⟩ := swapped_looked
  have hregular : Regular smallThree false swapped (.callback (.hasExternalClause true)) := by
    refine ⟨fun _ => rowSwapped_propagated, fun _ _ e he => ⟨?_, fun hold => by cases hold⟩,
      fun hno => by cases hno⟩
    have hnone : ((smallThree.mincheck false).run swapped.interface.current false).events.all
        noneGreatest = true := by decide +kernel
    exact fixesAtStart_of_noneGreatest hnone e he
  have hreached := swapped_reached.step (.callback (.hasExternalClause true))
    ⟨rfl, rfl, fun c hc => absurd hc List.not_mem_nil⟩ hregular hstep
  obtain ⟨tables, -, -, -, -, -, -, hwarnings, -⟩ := symmetry_breaking_exact (by decide)
    smallThree false 1 smallThree_inMode rfl rfl (fun _ => rfl) σ hreached
  exact ⟨σ, hreached, hclauses, hwarnings⟩

end YbeSms.Guarantees
