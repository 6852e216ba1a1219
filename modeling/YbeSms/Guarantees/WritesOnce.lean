import YbeSms.Guarantees.ClausesAccounted
import YbeSms.Guarantees.Enumeration

/-!
# No table twice

Source: ybe-sms/src/solveGeneral.cpp:12-183; solveCadicalClass.hpp:99-146, 259-397. With
`--allModels` a table is written by a check of a found model or by a check in the
propagator. On both paths the clause against it goes to the solver, in one piece and
before anything else is checked; so with the checks in the propagator on or off no
table is written twice. Where all observed variables are notified when a model is
found, no table is checked twice. With `--propLits` that can fail: a literal of
`cb_propagate` that is set on level 0 is not notified, and the check sees a part.
-/

namespace YbeSms.Source

open YbeSms.Library YbeSms.Abstract YbeSms.Guarantees

variable {n : Nat}

namespace Interface

/-- The current table is written, and the clause against it waits. -/
structure Writes (s : Session n) (x x' : Interface n) : Prop where
  idle : x.queue.clauses = []
  output : x'.output = x.output ++ [⟨x.nModels + 1, x.current.matrix⟩]
  nModels : x'.nModels = x.nModels + 1
  clauses : x'.queue.clauses = [excludeCurrent s x.current]

/-- What a callback does that neither notifies nor reads a clause. -/
structure Looks (s : Session n) (x x' : Interface n) : Prop where
  propagator : ∃ changed, x'.queue.propagator =
    { x.queue.propagator with changeInTrail := changed }
  clauses : x'.queue.clauses = x.queue.clauses ∨
    (x.queue.clauses = [] ∧ ∃ clause, x'.queue.clauses = [clause])
  written : (x'.output = x.output ∧ x'.nModels = x.nModels) ∨ Writes s x x'

variable {s : Session n} {before : Bool} {x x' : Interface n}

theorem looks_self (s : Session n) (x : Interface n) : Looks s x x :=
  ⟨⟨_, rfl⟩, Or.inl rfl, Or.inl ⟨rfl, rfl⟩⟩

theorem looks_addClause (hempty : x.queue.clauses = []) (clause : Clause) (redundant : Bool) :
    Looks s x (x.addClause s clause redundant) :=
  ⟨⟨_, rfl⟩, Or.inr ⟨hempty, clause, by simp [addClause, ClauseQueue.addClause, hempty]⟩,
    Or.inl ⟨rfl, rfl⟩⟩

theorem looks_exclude (hempty : x.queue.clauses = []) :
    Looks s x (x.write.addClause s (excludeCurrent s x.current) false) := by
  have hclauses : (x.write.addClause s (excludeCurrent s x.current) false).queue.clauses =
      [excludeCurrent s x.current] := by
    simp [addClause, write, ClauseQueue.addClause, hempty]
  exact ⟨⟨_, rfl⟩, Or.inr ⟨hempty, _, hclauses⟩, Or.inr ⟨hempty, rfl, rfl, hclauses⟩⟩

theorem checkMin_looks (hempty : x.queue.clauses = []) {isFinal res : Bool}
    (h : x.checkMin s before isFinal = some (x', res)) : Looks s x x' := by
  rcases checkMin_cases h with ⟨clause, -, rfl, -⟩ | ⟨-, ⟨-, -, rfl, -⟩ | ⟨-, rfl, -⟩⟩
  · exact looks_addClause hempty clause true
  · exact looks_exclude hempty
  · exact looks_self s _

theorem check_looks (hall : s.cfg.allModels = true) (hempty : x.queue.clauses = []) {res : Bool}
    (h : x.check s before = some (x', res)) : Looks s x x' := by
  rcases check_cases h with ⟨clause, -, rfl, -⟩ | ⟨-, ⟨-, rfl, -⟩ | ⟨hno, -⟩⟩
  · exact looks_addClause hempty clause true
  · exact looks_exclude hempty
  · rw [hall] at hno
    cases hno

theorem propagate_looks (hempty : x.queue.clauses = []) {drawn : Bool}
    (h : x.propagate s before drawn = some x') : Looks s x x' := by
  unfold propagate at h
  split at h
  · obtain ⟨⟨y, res⟩, hcheck, rfl⟩ := Option.map_eq_some_iff.mp h
    exact checkMin_looks hempty hcheck
  · cases h
    exact looks_self s x

/-- No literal of a falsified clause is unknown. -/
theorem scanClause_falsified {truth : Int → TruthVal} {clause : Clause}
    (h : ∀ l ∈ clause, l < 0 ∧ truth l = .isTrue) (k : Nat) (u : Int) :
    scanClause truth clause k u = some (k, u) := by
  induction clause generalizing k u with
  | nil => rfl
  | cons l rest ih =>
    obtain ⟨hneg, htrue⟩ := h l List.mem_cons_self
    simp only [scanClause, htrue, if_neg (not_lt.mpr hneg.le)]
    exact ih (fun l' hl' => h l' (List.mem_cons_of_mem l hl')) k u

/-- `cb_propagate` may take the clause that was just added, but never the one against a table. -/
theorem propagateLast_looks (hempty : x.queue.clauses = [])
    (hfalse : ∀ l ∈ excludeCurrent s x.current, l < 0 ∧ x.current.truthOf s.table l = .isTrue)
    (h : Looks s x x') {q : ClauseQueue n} {u : Int}
    (hlast : x'.queue.propagateLast s.table = some (q, u)) : Looks s x { x' with queue := q } := by
  obtain ⟨changed, hpropagator⟩ := h.propagator
  rcases propagateLast_cases hlast with ⟨-, rfl⟩ | ⟨clause, rest, hclauses, rfl, hscan⟩
  · exact ⟨h.propagator, h.clauses, h.written⟩
  · have hrest : rest = [] := by
      rcases h.clauses with hsame | ⟨-, only, honly⟩
      · rw [hclauses, hempty] at hsame
        cases hsame
      · rw [hclauses] at honly
        exact (List.cons_eq_cons.mp honly).2
    have hset : (ClauseQueue.setReason { x'.queue with clauses := rest } u clause).propagator =
          x'.queue.propagator ∧
        (ClauseQueue.setReason { x'.queue with clauses := rest } u clause).clauses = [] := by
      unfold ClauseQueue.setReason
      split <;> exact ⟨rfl, hrest⟩
    refine ⟨⟨changed, hset.1.trans hpropagator⟩, Or.inl (hset.2.trans hempty.symm), ?_⟩
    rcases h.written with hsame | hwrites
    · exact Or.inl hsame
    · have hthis := hwrites.clauses
      rw [hclauses] at hthis
      obtain ⟨rfl, -⟩ := List.cons_eq_cons.mp hthis
      have hcurrent : x'.queue.propagator.currentCycleSet = x.current := by rw [hpropagator]
      rw [hcurrent, scanClause_falsified hfalse] at hscan
      cases hscan

theorem empty_of_looksForClauses {cfg : Config} {q : ClauseQueue n}
    (h : q.looksForClauses cfg = true) : q.clauses = [] := by
  unfold ClauseQueue.looksForClauses at h
  simp only [Bool.and_eq_true, List.isEmpty_iff] at h
  exact h.1.1

/-- The callbacks that neither notify nor read a clause. -/
theorem step_looks (hall : s.cfg.allModels = true)
    (hfalse : ∀ l ∈ excludeCurrent s x.current, l < 0 ∧ x.current.truthOf s.table l = .isTrue)
    {c : Callback} {answer : Int} (h : x.step s before c = some (x', answer))
    (hnotify : ∀ e, c ≠ .notify e) (hread : c ≠ .addExternalClauseLit)
    (hidle : ∀ timeUp drawn, c = .propagate timeUp drawn → x.queue.clauses = []) :
    Looks s x x' := by
  cases c with
  | notify e => exact absurd rfl (hnotify e)
  | addExternalClauseLit => exact absurd rfl hread
  | propagate timeUp drawn =>
    have hempty := hidle timeUp drawn rfl
    simp only [step] at h
    split at h
    · cases h
      exact looks_self s x
    · cases hpropagate : x.propagate s before drawn with
      | none =>
        rw [hpropagate] at h
        cases h
      | some y =>
        rw [hpropagate] at h
        obtain ⟨⟨q, u⟩, hlast, heq⟩ := Option.map_eq_some_iff.mp h
        cases heq
        exact propagateLast_looks hempty hfalse (propagate_looks hempty hpropagate) hlast
  | hasExternalClause drawn =>
    simp only [step] at h
    split at h
    next hlooks =>
      have hempty := empty_of_looksForClauses hlooks
      obtain ⟨y, hpropagate, heq⟩ := Option.map_eq_some_iff.mp h
      cases heq
      have hlooks := propagate_looks (x := x.clearChange) hempty hpropagate
      obtain ⟨changed, hpropagator⟩ := hlooks.propagator
      refine ⟨⟨changed, hpropagator⟩, hlooks.clauses, hlooks.written.imp id fun hwrites => ?_⟩
      exact ⟨hempty, hwrites.output, hwrites.nModels, hwrites.clauses⟩
    next =>
      cases h
      exact looks_self s x
  | addReasonClauseLit plit =>
    obtain ⟨q, answer', hx, hp, hc⟩ :=
      step_addReasonClauseLit (s := s) before (x := x) plit
    rw [hx] at h
    cases h
    exact ⟨⟨_, hp⟩, Or.inl hc, Or.inl ⟨rfl, rfl⟩⟩
  | decide =>
    cases h
    exact looks_self s x
  | checkFoundModel =>
    simp only [step] at h
    split at h
    next hempty =>
      obtain ⟨⟨y, res⟩, hcheck, heq⟩ := Option.map_eq_some_iff.mp h
      cases heq
      exact check_looks hall (List.isEmpty_iff.mp hempty) hcheck
    next =>
      cases h
      exact looks_self s x

end Interface

namespace System

/-- What holds between any two moves, with the checks in the propagator on or off and whatever holds
of the domains. -/
structure Steady (s : Session n) (D : CycleSet n → Prop) (σ : System n) : Prop where
  follows : Follows s D σ.interface.queue.propagator σ.ledger
  flight : σ.Quiescent ∨ ∃ clause, σ.interface.queue.clauses = [clause]

/-- A whole clause that the solver has read, or reads to its end once it goes on. -/
def HandedOver (σ : System n) (c : Clause) : Prop :=
  c ∈ σ.learned ∨ ∃ clause, σ.interface.queue.clauses = [clause] ∧ (0 : Int) ∉ clause ∧
    c = clause ++ σ.reading

/-- The propagator looked for clauses of its own accord, or at a found model. -/
def Examined (s : Session n) (σ : System n) : Prop :=
  σ.Quiescent ∧ (σ.Unfalsified ∨ ∃ τ, Found s σ τ)

/-- No clause is lost, and a table is written by a check only. -/
structure Keeps (s : Session n) (σ σ' : System n) : Prop where
  handed : ∀ c, σ.HandedOver c → σ'.HandedOver c
  written : (σ'.interface.output = σ.interface.output ∧
      σ'.interface.nModels = σ.interface.nModels) ∨
    (σ.Examined s ∧ Interface.Writes s σ.interface σ'.interface ∧ σ'.reading = [])

variable {s : Session n} {before : Bool} {D : CycleSet n → Prop} {σ σ' : System n}

/-- The literals against the current table are false. -/
theorem Steady.falsified (h : σ.Steady s D) {l : Int}
    (hl : l ∈ excludeCurrent s σ.interface.current) :
    l < 0 ∧ σ.interface.current.truthOf s.table l = .isTrue := by
  obtain ⟨i, j, k, hoff, htrue, rfl⟩ := mem_excludeCurrent.mp hl
  obtain ⟨ho, -⟩ := h.follows.picture.held_of_matrix hoff
    ((h.follows.picture.mirrors.matrix i j k).mpr htrue)
  have hpos := s.observing.pos (i, j, k) ho
  exact ⟨Int.neg_neg_of_pos hpos, (truthOf_observed ho (Int.natAbs_neg _)).trans htrue⟩

/-- Callbacks that neither notify nor read. -/
theorem Steady.looks (h : σ.Steady s D) (hlooks : Interface.Looks s σ.interface σ'.interface)
    (hledger : σ'.ledger = σ.ledger) (hlearned : σ'.learned = σ.learned)
    (hreading : σ'.reading = σ.reading)
    (hwrites : Interface.Writes s σ.interface σ'.interface → σ.Examined s) :
    σ'.Steady s D ∧ Keeps s σ σ' := by
  obtain ⟨changed, hpropagator⟩ := hlooks.propagator
  have hsteady : Follows s D σ'.interface.queue.propagator σ'.ledger := by
    rw [hpropagator, hledger]
    exact h.follows.congr rfl rfl rfl
  have hwritten : (σ'.interface.output = σ.interface.output ∧
        σ'.interface.nModels = σ.interface.nModels) ∨
      (σ.Examined s ∧ Interface.Writes s σ.interface σ'.interface ∧ σ'.reading = []) := by
    apply hlooks.written.imp_right
    intro hw
    have hexamined := hwrites hw
    exact ⟨hexamined, hw, hreading.trans hexamined.1.2⟩
  rcases h.flight with hquiet | ⟨clause, hclause⟩
  · refine ⟨⟨hsteady, ?_⟩, fun c hc => ?_, hwritten⟩
    · rcases hlooks.clauses with hsame | ⟨-, hone⟩
      · exact Or.inl ⟨hsame.trans hquiet.1, hreading.trans hquiet.2⟩
      · exact Or.inr hone
    · rcases hc with hc | ⟨clause, hclause, -⟩
      · exact Or.inl (hlearned ▸ hc)
      · rw [hquiet.1] at hclause
        cases hclause
  · have hsame : σ'.interface.queue.clauses = σ.interface.queue.clauses := by
      rcases hlooks.clauses with hsame | ⟨hempty, -⟩
      · exact hsame
      · rw [hclause] at hempty
        cases hempty
    refine ⟨⟨hsteady, Or.inr ⟨clause, hsame.trans hclause⟩⟩, fun c hc => ?_, hwritten⟩
    unfold HandedOver at hc ⊢
    rwa [hlearned, hsame, hreading]

/-- A literal that is read belongs to the same clause before and after. -/
theorem Steady.read (h : σ.Steady s D) {clause : Clause}
    (hclause : σ.interface.queue.clauses = [clause])
    (hstep : σ.step s before (.callback .addExternalClauseLit) = some σ') :
    σ'.Steady s D ∧ Keeps s σ σ' := by
  rcases Interface.step_addExternalClauseLit (s := s) before hclause with
    ⟨rfl, hx⟩ | ⟨front, lit, rfl, hx⟩
  · simp only [System.step, hx, Option.map_some, Option.some.injEq] at hstep
    subst hstep
    refine ⟨⟨h.follows, Or.inl ⟨rfl, rfl⟩⟩, fun c hc => ?_, Or.inl ⟨rfl, rfl⟩⟩
    rcases hc with hc | ⟨clause, hclause', -, rfl⟩
    · exact Or.inl (List.mem_cons_of_mem _ hc)
    · rw [hclause] at hclause'
      obtain ⟨rfl, -⟩ := List.cons_eq_cons.mp hclause'
      exact Or.inl List.mem_cons_self
  · simp only [System.step, hx, Option.map_some, Option.some.injEq] at hstep
    subst hstep
    by_cases hlit : lit = 0
    · -- the solver takes this for the end of the clause
      subst hlit
      refine ⟨⟨h.follows, Or.inr ⟨front, rfl⟩⟩, fun c hc => ?_, Or.inl ⟨rfl, rfl⟩⟩
      rcases hc with hc | ⟨clause, hclause', hzero, -⟩
      · exact Or.inl (List.mem_cons_of_mem _ hc)
      · rw [hclause] at hclause'
        obtain ⟨rfl, -⟩ := List.cons_eq_cons.mp hclause'
        exact absurd (List.mem_append_right _ List.mem_cons_self) hzero
    · refine ⟨⟨by simpa [receive, hlit] using h.follows, Or.inr ⟨front, by simp [receive, hlit]⟩⟩,
        fun c hc => ?_, Or.inl (by simp [receive, hlit])⟩
      rcases hc with hc | ⟨clause, hclause', hzero, rfl⟩
      · exact Or.inl (by simpa [receive, hlit] using hc)
      · rw [hclause] at hclause'
        obtain ⟨rfl, -⟩ := List.cons_eq_cons.mp hclause'
        refine Or.inr ⟨front, by simp [receive, hlit], fun h0 => ?_, by simp [receive, hlit]⟩
        exact hzero (List.mem_append_left _ h0)

/-- Step lemma. -/
theorem Steady.step {Clean : Entry n → Bool → Prop} {allowed : Ledger → Notification → Prop}
    (hundo : UndoKeeps s D Clean) (hkeep : StepKeeps s D Clean allowed)
    (hall : s.cfg.allModels = true) (h : σ.Steady s D) {m : Move} (hallowed : σ.Allowed s m)
    (hnotify : ∀ e, m = .callback (.notify e) → allowed σ.ledger e)
    (hstep : σ.step s before m = some σ') :
    σ'.Steady s D ∧ Keeps s σ σ' := by
  have hfalse := fun l hl => h.falsified (l := l) hl
  cases m with
  | answer result =>
    have hinterface : σ'.interface = σ.interface ∧ σ'.ledger = σ.ledger ∧
        σ'.learned = σ.learned ∧ σ'.reading = σ.reading := by
      simp only [System.step, Option.some.injEq] at hstep
      subst hstep
      split <;> exact ⟨rfl, rfl, rfl, rfl⟩
    obtain ⟨hx, hledger, hlearned, hreading⟩ := hinterface
    apply h.looks _ hledger hlearned hreading
    · intro hw
      have hcount := hw.nModels
      rw [hx] at hcount
      omega
    · rw [hx]
      exact Interface.looks_self s σ.interface
  | callback c =>
    obtain ⟨⟨x, answer⟩, hx, rfl⟩ := Option.map_eq_some_iff.mp hstep
    cases c with
    | notify e =>
      rw [Interface.step_notify] at hx
      cases hx
      exact ⟨⟨Follows.notify hundo hkeep _ _ e h.follows (hnotify e rfl), h.flight⟩,
        fun c hc => hc, Or.inl ⟨rfl, rfl⟩⟩
    | addExternalClauseLit =>
      rcases h.flight with hquiet | ⟨clause, hclause⟩
      · exact absurd hquiet.1 hallowed.2
      · exact h.read hclause hstep
    | propagate timeUp drawn =>
      have hlooks := Interface.step_looks hall hfalse hx (by simp) (by simp)
        fun _ _ _ => hallowed.2.1.1
      exact h.looks hlooks rfl rfl rfl fun _ => ⟨hallowed.2.1, Or.inl hallowed.2.2⟩
    | hasExternalClause drawn =>
      have hlooks := Interface.step_looks hall hfalse hx (by simp) (by simp) (by simp)
      exact h.looks hlooks rfl rfl rfl fun hw =>
        ⟨⟨hw.idle, hallowed.2.1⟩, Or.inl hallowed.2.2⟩
    | addReasonClauseLit plit =>
      have hlooks := Interface.step_looks hall hfalse hx (by simp) (by simp) (by simp)
      refine h.looks hlooks rfl rfl rfl fun hw => ?_
      obtain ⟨q, answer', hx', -⟩ :=
        Interface.step_addReasonClauseLit (s := s) before (x := σ.interface) plit
      rw [hx'] at hx
      cases hx
      have hcount : σ.interface.nModels = σ.interface.nModels + 1 := hw.nModels
      omega
    | decide =>
      cases hx
      refine h.looks (Interface.looks_self s σ.interface) rfl rfl rfl fun hw => ?_
      have hcount : σ.interface.nModels = σ.interface.nModels + 1 := hw.nModels
      omega
    | checkFoundModel =>
      have hlooks := Interface.step_looks hall hfalse hx (by simp) (by simp) (by simp)
      exact h.looks hlooks rfl rfl rfl fun hw =>
        ⟨⟨hw.idle, hallowed.2.1⟩, Or.inr hallowed.2.2⟩

theorem Steady.step_held (hf : s.cfg.fixedRow = 0) (hall : s.cfg.allModels = true)
    (h : σ.Steady s (HeldInv s)) {m : Move} (hallowed : σ.Allowed s m)
    (hstep : σ.step s before m = some σ') : σ'.Steady s (HeldInv s) ∧ Keeps s σ σ' := by
  refine h.step (undoKeeps_held s) (stepKeeps_held s hf) hall hallowed ?_ hstep
  rintro e rfl
  exact hallowed.2.2

/-- Only a check of a found model is counted as one, and only it accepts. -/
theorem step_counts {m : Move} (hallowed : σ.Allowed s m) (hstep : σ.step s before m = some σ') :
    (∃ result, m = .answer result) ∨
    (∃ x res, m = .callback .checkFoundModel ∧ σ.Quiescent ∧
      σ.interface.check s before = some (x, res) ∧
      σ' = { σ with interface := x, accepted := res, checks := σ.checks + 1 }) ∨
    (σ'.checks = σ.checks ∧ σ'.solves = σ.solves ∧ (σ'.accepted = true → σ.accepted = true)) := by
  cases m with
  | answer result => exact Or.inl ⟨result, rfl⟩
  | callback c =>
    right
    obtain ⟨⟨x, answer⟩, hx, rfl⟩ := Option.map_eq_some_iff.mp hstep
    cases c with
    | notify e => exact Or.inr ⟨rfl, rfl, id⟩
    | propagate timeUp drawn => exact Or.inr ⟨rfl, rfl, id⟩
    | hasExternalClause drawn => exact Or.inr ⟨rfl, rfl, id⟩
    | addReasonClauseLit plit => exact Or.inr ⟨rfl, rfl, id⟩
    | decide => exact Or.inr ⟨rfl, rfl, id⟩
    | addExternalClauseLit =>
      by_cases hend : answer = 0
      · exact Or.inr (by simp [receive, hend])
      · exact Or.inr (by simp [receive, hend])
    | checkFoundModel =>
      simp only [Interface.step] at hx
      split at hx
      next hempty =>
        obtain ⟨⟨y, res⟩, hcheck, heq⟩ := Option.map_eq_some_iff.mp hx
        cases heq
        refine Or.inl ⟨y, res, rfl, ⟨List.isEmpty_iff.mp hempty, hallowed.2.1⟩, hcheck, ?_⟩
        cases res <;> simp [receive, hempty]
      next hsome =>
        cases hx
        exact Or.inr ⟨by simp [receive, hsome], rfl, by simp [receive]⟩

end System

end YbeSms.Source

namespace YbeSms.Guarantees

open YbeSms.Library YbeSms.Abstract YbeSms.Source YbeSms.Source.MinCheck Equiv

variable {n : Nat}

/-- Every literal of the clause is false where the cells have these values. -/
def Excludes (s : Session n) (clause : Clause) (matrix : Fin n → Fin n → Option (Fin n)) : Prop :=
  ∀ l ∈ clause, ∃ i j k, (s.cfg.diagPart = true → i ≠ j) ∧ matrix i j = some k ∧
    l = -s.lits i j k

/-- What was seen so far, each refused by a clause that is handed over. -/
def Refused {X : Type} (Fails : Clause → X → Prop) (domain : Set X) (σ : System n)
    (seen : List X) : Prop :=
  ∃ a : Enumerator X Clause,
    Relation.ReflTransGen (Enumerator.Examines (fun _ _ => True) Fails domain ∅)
      Enumerator.start a ∧
    a.examined = seen ∧ ∀ c ∈ a.constraints, σ.HandedOver c

section Refused

variable {X : Type} {Fails : Clause → X → Prop} {domain : Set X} {σ σ' : System n}
  {seen : List X}

theorem refused_start (σ : System n) : Refused Fails domain σ [] :=
  ⟨Enumerator.start, .refl, rfl, fun _ hc => hc.elim⟩

theorem Refused.mono (h : Refused Fails domain σ seen)
    (hkeeps : ∀ c, σ.HandedOver c → σ'.HandedOver c) : Refused Fails domain σ' seen := by
  obtain ⟨a, hrun, hseen, hhanded⟩ := h
  exact ⟨a, hrun, hseen, fun c hc => hkeeps c (hhanded c hc)⟩

/-- What no handed clause refuses is new. -/
theorem Refused.add (h : Refused Fails domain σ seen)
    (hkeeps : ∀ c, σ.HandedOver c → σ'.HandedOver c) {x : X} (hx : x ∈ domain)
    (hfree : ∀ c, σ.HandedOver c → ¬ Fails c x) {clause : Clause}
    (hclause : σ'.HandedOver clause) (hfails : Fails clause x) :
    Refused Fails domain σ' (seen ++ [x]) := by
  obtain ⟨a, hrun, rfl, hhanded⟩ := h
  have hstep : Enumerator.Examines (fun _ _ => True) Fails domain ∅ a _ :=
    .reject x clause hx (Set.notMem_empty x) (fun b hb => hfree b (hhanded b hb)) hfails
      fun y hy => absurd hy (Set.notMem_empty y)
  refine ⟨_, hrun.tail hstep, rfl, fun c hc => ?_⟩
  rcases hc with rfl | hc
  · exact hclause
  · exact hkeeps c (hhanded c hc)

theorem Refused.nodup (h : Refused Fails domain σ seen) : seen.Nodup := by
  obtain ⟨a, hrun, rfl, -⟩ := h
  exact (Enumerator.exact_of_run hrun).nodup

theorem Refused.length_le (h : Refused Fails domain σ seen) (hfin : domain.Finite) :
    seen.length ≤ domain.ncard := by
  obtain ⟨a, hrun, rfl, -⟩ := h
  exact (Enumerator.exact_of_run hrun).length_le hfin

end Refused

section Run

variable {s : Session n} {before : Bool} {D : CycleSet n → Prop} {σ σ' : System n}

/-- No clause that was read excludes the current table when the propagator looks at it. -/
theorem current_free (h : σ.Steady s D) (hexamined : σ.Examined s) {clause : Clause}
    (hc : σ.HandedOver clause) : ¬ Excludes s clause σ.interface.current.matrix := by
  intro hexcludes
  obtain ⟨hquiet, hlooked⟩ := hexamined
  have hlearned : clause ∈ σ.learned := by
    rcases hc with hc | ⟨front, hfront, -⟩
    · exact hc
    · rw [hquiet.1] at hfront
      cases hfront
  have hpic := h.follows.picture
  rcases hlooked with hunfalsified | ⟨τ, hfound⟩
  · apply hunfalsified clause hlearned
    intro l hl
    obtain ⟨i, j, k, hoff, hcell, rfl⟩ := hexcludes l hl
    rw [neg_neg]
    exact (hpic.held_of_matrix hoff hcell).2
  · obtain ⟨l, hl, htrue⟩ := hfound.models clause (List.mem_append_right _ hlearned)
    obtain ⟨i, j, k, hoff, hcell, rfl⟩ := hexcludes l hl
    obtain ⟨ho, hheld⟩ := hpic.held_of_matrix hoff hcell
    have hrefused : τ (s.lits i j k) = false :=
      (litTrue_neg τ (s.observing.pos (i, j, k) ho)).mp htrue
    have hagrees : τ (s.lits i j k) = true := hfound.agrees (i, j, k) true ho hheld
    rw [hrefused] at hagrees
    cases hagrees

/-- The clause against the table that is written is handed over whole. -/
theorem handedOver_of_writes (h : σ.Steady s D)
    (hw : Interface.Writes s σ.interface σ'.interface) (hreading : σ'.reading = []) :
    σ'.HandedOver (excludeCurrent s σ.interface.current) := by
  refine Or.inr ⟨_, hw.clauses, fun h0 => ?_, by rw [hreading, List.append_nil]⟩
  exact absurd (h.falsified h0).1 (lt_irrefl 0)

/-- The tables written so far differ, and are numbered. -/
structure Once (s : Session n) (D : CycleSet n → Prop) (σ : System n) : Prop where
  steady : σ.Steady s D
  refused : Refused (Excludes s) Set.univ σ (σ.interface.output.map (·.matrix))
  numbers : σ.interface.output.map (·.number) = List.range' 1 σ.interface.nModels

/-- A move that loses no clause. -/
theorem Once.keep (h : Once s D σ) (hsteady : σ'.Steady s D) (hkeeps : System.Keeps s σ σ') :
    Once s D σ' := by
  rcases hkeeps.written with ⟨houtput, hmodels⟩ | ⟨hexamined, hw, hreading⟩
  · refine ⟨hsteady, ?_, ?_⟩
    · rw [houtput]
      exact h.refused.mono hkeeps.handed
    · rw [houtput, hmodels]
      exact h.numbers
  · refine ⟨hsteady, ?_, ?_⟩
    · rw [hw.output, List.map_append]
      apply h.refused.add hkeeps.handed (Set.mem_univ _)
        (fun c hc => current_free h.steady hexamined hc) (handedOver_of_writes h.steady hw hreading)
      intro l hl
      obtain ⟨i, j, k, hoff, htrue, rfl⟩ := mem_excludeCurrent.mp hl
      exact ⟨i, j, k, hoff, (h.steady.follows.picture.mirrors.matrix i j k).mpr htrue, rfl⟩
    · rw [hw.output, hw.nModels, List.map_append, h.numbers]
      simp [List.range'_concat, Nat.add_comm]

theorem once_start (hD : D s.start.currentCycleSet) : Once s D (System.start s) := by
  obtain ⟨hpic, htrail⟩ := s.picture_start hD
  exact ⟨⟨⟨hpic, htrail, by simp [System.start, Ledger.empty]⟩, Or.inl ⟨rfl, rfl⟩⟩,
    refused_start _, rfl⟩

theorem once_of_reaches (hf : s.cfg.fixedRow = 0) (hall : s.cfg.allModels = true)
    (h : System.Reaches s before σ) : Once s (HeldInv s) σ := by
  apply h.invariant
  · exact once_start (start_domains s hf).held
  · intro σ σ' m hσ hallowed hstep
    obtain ⟨hsteady, hkeeps⟩ := hσ.steady.step_held hf hall hallowed hstep
    exact hσ.keep hsteady hkeeps

end Run

/-- In every run with `--allModels`, whether the propagator checks partial tables or not: no table
is written twice, and the numbers count the tables. -/
theorem written_once (s : Session n) (before : Bool) (hf : s.cfg.fixedRow = 0)
    (hall : s.cfg.allModels = true) (σ : System n) (h : System.Reaches s before σ) :
    (σ.interface.output.map (·.matrix)).Nodup ∧
      σ.interface.output.map (·.number) = List.range' 1 σ.interface.nModels := by
  have honce := once_of_reaches hf hall h
  exact ⟨honce.refused.nodup, honce.numbers⟩

/-- A whole run of `--size 3 --checkSols` in which a table was refused. -/
theorem written_once_instance : ∃ σ, System.Reaches (three true true) false σ ∧
    σ.ended = some 20 ∧ σ.interface.nModels < σ.checks ∧
    (σ.interface.output.map (·.matrix)).Nodup := by
  obtain ⟨σ, hreached, hended, hrefused⟩ := three_finished true (System.permits_all _)
  exact ⟨σ, hreached.reaches, hended, hrefused,
    (written_once (three true true) false rfl rfl σ hreached.reaches).1⟩

/-- The tables whose models were checked so far. -/
structure Checked (s : Session n) (before : Bool) (σ : System n)
    (seen : List (Fin n → Fin n → Fin n)) : Prop where
  steady : σ.Steady s (HeldInv s)
  refused : Refused (s.mincheck before).FailsIn (described s) σ seen
  checks : σ.checks = seen.length
  solves : σ.solves = 1
  accepted : σ.accepted = false

/-- A check of a found model hands over a clause against its table. -/
theorem Checked.check (hn : 1 ≤ n) {s : Session n} {before : Bool} {d : Perm (Fin n)}
    (hf : s.cfg.fixedRow = 0) (hmode : InMode (s.mincheck before) d)
    (hall : s.cfg.allModels = true) {σ : System n} {seen : List (Fin n → Fin n → Fin n)}
    (h : Checked s before σ seen) (hquiet : σ.Quiescent) {τ : Valuation} (hfound : σ.Found s τ)
    (hnotified : System.AllNotified s σ.ledger) {x : Interface n} {res : Bool}
    (hcheck : σ.interface.check s before = some (x, res)) {σ' : System n}
    (hσ' : σ' = { σ with interface := x, accepted := res, checks := σ.checks + 1 })
    (hsteady : σ'.Steady s (HeldInv s)) (hkeeps : ∀ c, σ.HandedOver c → σ'.HandedOver c) :
    ∃ M, Checked s before σ' (seen ++ [M]) := by
  obtain ⟨M, hM, hτ, htotal⟩ := total_of_found hf hmode h.steady.follows hfound hnotified
  have hfree : ∀ c, σ.HandedOver c → ¬ (s.mincheck before).FailsIn c M := by
    intro c hc hfails
    rcases hc with hc | ⟨front, hfront, -⟩
    · exact hfails τ hτ (hfound.models c (List.mem_append_right _ hc))
    · rw [hquiet.1] at hfront
      cases hfront
  have hadded : ∃ clause, x.queue.clauses = [clause] ∧ (0 : Int) ∉ clause ∧
      (s.mincheck before).FailsIn clause M ∧ res = false := by
    rcases check_of_total hn hmode htotal hM with
      ⟨-, clause, hresult, hrefutes⟩ | ⟨-, ⟨-, hresult⟩ | ⟨hno, -⟩⟩
    · rw [hresult] at hcheck
      cases hcheck
      exact ⟨clause, by simp [Interface.addClause, ClauseQueue.addClause, hquiet.1],
        hrefutes.nonzero, hrefutes.fails, rfl⟩
    · rw [hresult] at hcheck
      cases hcheck
      exact ⟨_, by simp [Interface.addClause, Interface.write, ClauseQueue.addClause, hquiet.1],
        zero_not_mem_excludeCurrent htotal, excludeCurrent_failsIn htotal, rfl⟩
    · rw [hall] at hno
      cases hno
  obtain ⟨clause, hclauses, hzero, hfails, hres⟩ := hadded
  have hclause : σ'.HandedOver clause := by
    rw [hσ']
    exact Or.inr ⟨clause, hclauses, hzero, by simp [hquiet.2]⟩
  refine ⟨M, hsteady, h.refused.add hkeeps hM hfree hclause hfails, ?_, ?_, ?_⟩
  · rw [hσ', List.length_append, List.length_singleton, ← h.checks]
  · rw [hσ']
    exact h.solves
  · rw [hσ']
    exact hres

/-- In runs that check a model only where all observed variables are notified. -/
theorem checked_of_reachesBy (hn : 1 ≤ n) {s : Session n} {before : Bool} {d : Perm (Fin n)}
    (hmode : InMode (s.mincheck before) d) (hf : s.cfg.fixedRow = 0)
    (hall : s.cfg.allModels = true) {P : System n → Move → Prop}
    (hP : ∀ σ, σ.Quiescent → P σ (.callback .checkFoundModel) → System.AllNotified s σ.ledger)
    {σ : System n} (h : System.ReachesBy s before P σ) : ∃ seen, Checked s before σ seen := by
  apply h.invariant
  · have hready := System.ready_start (start_domains s hf).held
    exact ⟨[], ⟨hready.follows, hready.flight⟩, refused_start _, rfl, rfl, rfl⟩
  · rintro σ σ' m - ⟨seen, hσ⟩ hallowed hright hstep
    obtain ⟨hsteady, hkeeps⟩ := hσ.steady.step_held hf hall hallowed hstep
    rcases System.step_counts hallowed hstep with
      ⟨result, rfl⟩ | ⟨x, res, rfl, hquiet, hcheck, hσ'⟩ | ⟨hchecks, hsolves, haccepted⟩
    · have hresult := System.answer_ne_ten hσ.accepted hallowed
      simp only [System.step, if_neg hresult, Option.some.injEq] at hstep
      subst hstep
      exact ⟨seen, hsteady, hσ.refused.mono hkeeps.handed, hσ.checks, hσ.solves, hσ.accepted⟩
    · obtain ⟨τ, hfound⟩ := hallowed.2.2
      obtain ⟨M, hM⟩ := hσ.check hn hf hmode hall hquiet hfound (hP σ hquiet hright) hcheck hσ'
        hsteady hkeeps.handed
      exact ⟨_, hM⟩
    · refine ⟨seen, hsteady, hσ.refused.mono hkeeps.handed, hchecks.trans hσ.checks,
        hsolves.trans hσ.solves, ?_⟩
      rw [← Bool.not_eq_true]
      intro hno
      have hold := haccepted hno
      rw [hσ.accepted] at hold
      cases hold

/-- Without eager propagation all observed variables are notified when a model is found. -/
theorem reachesBy_notified {s : Session n} {before : Bool} {σ : System n}
    (hlazy : s.cfg.propagateLiteralsCadical = false ∨ s.cfg.checkSolutionInProp = false)
    (h : System.Reaches s before σ) :
    System.ReachesBy s before
      (fun σ m => m = .callback .checkFoundModel → System.AllNotified s σ.ledger) σ := by
  induction h with
  | initial => exact .initial
  | step m h hallowed hstep ih =>
    refine .step m ih hallowed ?_ hstep
    rintro rfl
    obtain ⟨τ, hfound⟩ := hallowed.2.2
    exact hfound.allNotified (System.forced_of_reaches hlazy h)

/-- In every run with `--allModels`, and with eager propagation only without checks in the
propagator: no table is checked twice as a found model, none is accepted, and `solve` is called
once. -/
theorem checks_bounded (hn : 1 ≤ n) (s : Session n) (before : Bool) (d : Perm (Fin n))
    (hmode : InMode (s.mincheck before) d) (hf : s.cfg.fixedRow = 0)
    (hall : s.cfg.allModels = true)
    (hlazy : s.cfg.propagateLiteralsCadical = false ∨ s.cfg.checkSolutionInProp = false)
    (σ : System n) (h : System.Reaches s before σ) :
    σ.checks ≤ (described s).ncard ∧ σ.solves = 1 ∧ σ.accepted = false := by
  obtain ⟨seen, hseen⟩ := checked_of_reachesBy hn hmode hf hall (fun _ _ hright => hright rfl)
    (reachesBy_notified hlazy h)
  refine ⟨?_, hseen.solves, hseen.accepted⟩
  rw [hseen.checks]
  exact hseen.refused.length_le (Set.toFinite _)

/-- More models are checked than tables are written, and not more than there are tables. -/
theorem checks_bounded_instance : ∃ σ, System.Reaches (three true true) false σ ∧
    σ.ended = some 20 ∧ σ.interface.nModels < σ.checks ∧
    σ.checks ≤ (described (three true true)).ncard := by
  obtain ⟨σ, hreached, hended, hrefused⟩ := three_finished true (System.permits_all _)
  exact ⟨σ, hreached.reaches, hended, hrefused, (checks_bounded (by decide) (three true true) false
    1 (three_inMode true true) rfl rfl (Or.inl rfl) σ hreached.reaches).1⟩

end YbeSms.Guarantees
