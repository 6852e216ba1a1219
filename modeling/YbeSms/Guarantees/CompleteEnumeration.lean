import YbeSms.Guarantees.Enumeration

/-!
# Whole runs

Source: ybe-sms/src/solveCadicalClass.cpp:210-220; solveGeneral.cpp:30-183;
solveCadicalClass.hpp:259-305; minCheck_V2.cpp:46-93. The solver is a sequence of moves
of its own choice. It answers only when no model is left, and does not go on for ever
without a check of a found model. With `--allModels` and no check in the propagator the
program ends whatever it chooses, and the output file holds the least tables, each once.
-/

namespace YbeSms.Source

open YbeSms.Library YbeSms.Abstract

variable {n : Nat}

namespace System

/-- The state after so many moves of the solver; `none` where the program does not go on. -/
def after (s : Session n) (before : Bool) (moves : Nat → Move) : Nat → Option (System n)
  | 0 => some (start s)
  | k + 1 => (after s before moves k).bind fun σ =>
    if σ.ended = none then σ.step s before (moves k) else some σ

/-- A solver that keeps its promises, never gives up, and comes to a check or an answer again and
again. -/
structure Solves (s : Session n) (before : Bool) (moves : Nat → Move) : Prop where
  allowed : ∀ k σ, after s before moves k = some σ → σ.ended = none → σ.Allowed s (moves k)
  decides : ∀ k σ, after s before moves k = some σ → σ.ended = none → moves k ≠ .answer 0
  advances : ∀ k σ, after s before moves k = some σ → σ.ended = none →
    ∃ l, ∀ σ', after s before moves l = some σ' → σ'.ended ≠ none ∨ σ.checks < σ'.checks

variable {s : Session n} {before : Bool} {moves : Nat → Move} {σ σ' : System n}

/-- Only an answer ends the loop. -/
theorem step_ended {m : Move} (hstep : σ.step s before m = some σ') :
    σ'.ended = σ.ended ∨ ∃ result, m = .answer result ∧ result ≠ 10 ∧ σ'.ended = some result := by
  cases m with
  | answer result =>
    by_cases hten : result = 10
    · simp only [System.step, if_pos hten, Option.some.injEq] at hstep
      subst hstep
      exact Or.inl rfl
    · simp only [System.step, if_neg hten, Option.some.injEq] at hstep
      subst hstep
      exact Or.inr ⟨result, rfl, hten, rfl⟩
  | callback c =>
    obtain ⟨⟨x, answer⟩, -, rfl⟩ := Option.map_eq_some_iff.mp hstep
    left
    cases c with
    | addExternalClauseLit => by_cases hend : answer = 0 <;> simp [receive, hend]
    | _ => rfl

/-- Where no allowed move faults, every number of moves leads to a state of the run, and the loop is
left with the answer 20 only. -/
theorem Solves.reached (h : Solves s before moves)
    (hgoes : ∀ σ m, Reaches s before σ → σ.Allowed s m → σ.step s before m ≠ none) (k : Nat) :
    ∃ σ, after s before moves k = some σ ∧ Reaches s before σ ∧
      (σ.ended = none ∨ σ.ended = some 20) := by
  induction k with
  | zero => exact ⟨start s, rfl, .initial, Or.inl rfl⟩
  | succ k ih =>
    obtain ⟨σ, hσ, hreached, hended⟩ := ih
    by_cases hnone : σ.ended = none
    · have hallowed := h.allowed k σ hσ hnone
      obtain ⟨σ', hstep⟩ := Option.ne_none_iff_exists'.mp (hgoes σ _ hreached hallowed)
      refine ⟨σ', by simp [after, hσ, hnone, hstep], hreached.step _ hallowed hstep, ?_⟩
      rcases step_ended hstep with hsame | ⟨result, hm, hten, hresult⟩
      · exact Or.inl (hsame.trans hnone)
      · rw [hm] at hallowed
        rcases hallowed.2.2 with ⟨hno, -⟩ | ⟨rfl, -⟩ | rfl
        · exact absurd hno hten
        · exact Or.inr hresult
        · exact absurd hm (h.decides k σ hσ hnone)
    · exact ⟨σ, by simp [after, hσ, hnone], hreached, hended⟩

/-- Where the checks are bounded, the loop is left: by induction on the checks that remain. -/
theorem Solves.ends (h : Solves s before moves)
    (hgoes : ∀ σ m, Reaches s before σ → σ.Allowed s m → σ.step s before m ≠ none) {bound : Nat}
    (hbound : ∀ σ, Reaches s before σ → σ.checks ≤ bound) :
    ∃ k σ, after s before moves k = some σ ∧ Reaches s before σ ∧ σ.ended = some 20 := by
  have hends : ∀ left k σ, after s before moves k = some σ → bound - σ.checks = left →
      ∃ l σ', after s before moves l = some σ' ∧ Reaches s before σ' ∧ σ'.ended = some 20 := by
    intro left
    induction left using Nat.strong_induction_on with
    | _ left ih =>
      intro k σ hσ hleft
      by_cases hnone : σ.ended = none
      · obtain ⟨l, hl⟩ := h.advances k σ hσ hnone
        obtain ⟨σ', hσ', hreached, hended⟩ := h.reached hgoes l
        rcases hended with hgoing | hdone
        · -- a further check is made
          have hmore : σ.checks < σ'.checks := (hl σ' hσ').resolve_left fun hno => hno hgoing
          have hle := hbound σ' hreached
          exact ih (bound - σ'.checks) (by omega) l σ' hσ' rfl
        · exact ⟨l, σ', hσ', hreached, hdone⟩
      · obtain ⟨σ', hσ', hreached, hended⟩ := h.reached hgoes k
        obtain rfl : σ = σ' := Option.some.inj (hσ.symm.trans hσ')
        exact ⟨k, σ, hσ, hreached, hended.resolve_left hnone⟩
  exact hends _ 0 (start s) rfl rfl

/-! ### Runs as choices of the solver -/

/-- Moves from the `k`-th on do not matter before. -/
theorem after_congr {moves' : Nat → Move} {k : Nat} (h : ∀ j < k, moves j = moves' j) :
    after s before moves k = after s before moves' k := by
  induction k with
  | zero => rfl
  | succ k ih => simp only [after, ih fun j hj => h j (by omega), h k (by omega)]

/-- A state of a run is the state after some moves, each of them made before the loop is left. -/
theorem Reaches.exists_moves (h : Reaches s before σ) : ∃ k moves,
    after s before moves k = some σ ∧ ∀ j < k, ∃ τ, after s before moves j = some τ ∧
      τ.ended = none ∧ τ.Allowed s (moves j) := by
  induction h with
  | initial => exact ⟨0, fun _ => .answer 20, rfl, fun j hj => absurd hj (Nat.not_lt_zero j)⟩
  | step m _ hallowed hstep ih =>
    obtain ⟨k, moves, hk, hbefore⟩ := ih
    have hsame : ∀ j ≤ k, after s before (Function.update moves k m) j = after s before moves j :=
      fun j hj => after_congr fun i hi => Function.update_of_ne (by omega) _ _
    refine ⟨k + 1, Function.update moves k m, ?_, fun j hj => ?_⟩
    · simp [after, hsame k le_rfl, hk, hallowed.1, hstep]
    · rcases Nat.lt_succ_iff_lt_or_eq.mp hj with hj | rfl
      · obtain ⟨τ, hτ, hnone, hτallowed⟩ := hbefore j hj
        refine ⟨τ, (hsame j hj.le).trans hτ, hnone, ?_⟩
        rwa [Function.update_of_ne (by omega)]
      · exact ⟨_, (hsame j le_rfl).trans hk, hallowed.1, by rwa [Function.update_self]⟩

/-- A state in which the loop is left does not change. -/
theorem after_ended {k l : Nat} (hk : after s before moves k = some σ) (hended : σ.ended ≠ none)
    (hl : k ≤ l) : after s before moves l = some σ := by
  induction l, hl using Nat.le_induction with
  | base => exact hk
  | succ l _ ih => simp [after, ih, hended]

/-- A run that was left with the answer 20 is the run of some solver. -/
theorem Reaches.exists_solves (h : Reaches s before σ) (hended : σ.ended = some 20) :
    ∃ moves k, Solves s before moves ∧ after s before moves k = some σ := by
  obtain ⟨k, moves, hk, hbefore⟩ := h.exists_moves
  have hleft : σ.ended ≠ none := by simp [hended]
  have hopen : ∀ j τ, after s before moves j = some τ → τ.ended = none →
      j < k ∧ τ.Allowed s (moves j) := by
    intro j τ hτ hnone
    have hj : j < k := by
      by_contra hno
      rw [after_ended hk hleft (not_lt.mp hno), Option.some.injEq] at hτ
      rw [hτ] at hleft
      exact hleft hnone
    obtain ⟨τ', hτ', -, hallowed⟩ := hbefore j hj
    rw [hτ, Option.some.injEq] at hτ'
    rw [← hτ'] at hallowed
    exact ⟨hj, hallowed⟩
  refine ⟨moves, k, ⟨fun j τ hτ hnone => (hopen j τ hτ hnone).2, fun j τ hτ hnone hm => ?_,
    fun j τ hτ hnone => ⟨k, fun σ' hσ' => Or.inl ?_⟩⟩, hk⟩
  · -- the loop would have been left with another answer
    have hnext : after s before moves (j + 1) = some { τ with ended := some 0 } := by
      simp [after, hτ, hnone, hm, System.step]
    have hgave := after_ended hnext (by simp) (hopen j τ hτ hnone).1
    rw [hk, Option.some.injEq] at hgave
    rw [hgave] at hended
    cases hended
  · rw [hk, Option.some.injEq] at hσ'
    rwa [← hσ']

end System

end YbeSms.Source

namespace YbeSms.Guarantees

open YbeSms.Library YbeSms.Abstract YbeSms.Source YbeSms.Source.MinCheck Equiv

variable {n : Nat}

/-- With `--allModels`, without checks in the propagator and without fixed rows: whatever moves the
solver chooses, the program comes to its end, the written matrices are the least tables without
repetition, and `nModels` is their number. -/
theorem enumeration_complete (hn : 1 ≤ n) (s : Session n) (before : Bool) (d : Perm (Fin n))
    (hmode : InMode (s.mincheck before) d) (hf : s.cfg.fixedRow = 0)
    (hall : s.cfg.allModels = true) (hoff : s.cfg.checkSolutionInProp = false)
    (moves : Nat → Move) (h : System.Solves s before moves) :
    ∃ k σ, System.after s before moves k = some σ ∧ σ.ended = some 20 ∧
      (∃ tables : List (Fin n → Fin n → Fin n),
        σ.interface.output.map (·.matrix) = tables.map shown ∧ tables.Nodup ∧
        ∀ M, M ∈ tables ↔ M ∈ wanted s d) ∧
      σ.interface.nModels = (wanted s d).ncard := by
  have hlists : ∀ σ, System.Reaches s before σ → ∃ a, Lists s before d σ a :=
    fun σ => lists_of_reaches hn hf hmode hall hoff
  have hgoes : ∀ σ m, System.Reaches s before σ → σ.Allowed s m → σ.step s before m ≠ none := by
    intro σ m hreached hallowed
    obtain ⟨a, ha⟩ := hlists σ hreached
    exact ha.goes_on hn hf hmode hoff hallowed
  have hbound : ∀ σ, System.Reaches s before σ → σ.checks ≤ (described s).ncard := by
    intro σ hreached
    obtain ⟨a, ha⟩ := hlists σ hreached
    rw [ha.checks]
    exact (Enumerator.exact_of_run ha.run).length_le (Set.toFinite _)
  obtain ⟨k, σ, hσ, hreached, hended⟩ := h.ends hgoes hbound
  obtain ⟨a, ha⟩ := hlists σ hreached
  have hexact := Enumerator.exact_of_run ha.run
  have hdone := ha.finished hended
  exact ⟨k, σ, hσ, hended, ⟨a.reported, ha.written, hexact.reported_nodup, hexact.complete hdone⟩,
    ha.counted.trans (hexact.length_eq hdone)⟩

/-- `--size 3` with a solver that proposes a table which is refused. -/
theorem enumeration_complete_instance : ∃ moves, System.Solves (three true false) false moves ∧
    (∃ k σ, System.after (three true false) false moves k = some σ ∧
      σ.interface.nModels < σ.checks) ∧
    ∃ k σ, System.after (three true false) false moves k = some σ ∧ σ.ended = some 20 ∧
      σ.interface.nModels = (wanted (three true false) 1).ncard := by
  obtain ⟨σ, hreached, hended, hrefused⟩ := three_finished false (System.permits_all _)
  obtain ⟨moves, k, hmoves, hk⟩ := hreached.reaches.exists_solves hended
  obtain ⟨k', σ', hσ', hended', -, hcount⟩ := enumeration_complete (by decide) (three true false)
    false 1 (three_inMode true false) rfl rfl rfl moves hmoves
  exact ⟨moves, hmoves, ⟨k, σ, hk, hrefused⟩, k', σ', hσ', hended', hcount⟩

end YbeSms.Guarantees
