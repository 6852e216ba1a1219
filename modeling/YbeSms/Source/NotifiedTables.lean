import YbeSms.Source.TotalTrail

/-!
# Notifying a table

Source: ybe-sms/src/solveCadicalClass.hpp:164-202. Where all that is notified belongs to
a table, the rest of the table can be notified literal by literal, and every promise is
kept on the way.
-/

namespace YbeSms.Source

open YbeSms.Library YbeSms.Abstract

variable {n : Nat}

namespace Session

variable (s : Session n)

/-- The literal of an entry that is true in a table. -/
def literal (M : Fin n → Fin n → Fin n) (e : Entry n) : Int :=
  signed s.lits e (decide (M e.1 e.2.1 = e.2.2))

/-- The variable has a unit clause. -/
def isUnit (lit : Int) : Bool := decide ([lit] ∈ s.formula.cnf ∨ [-lit] ∈ s.formula.cnf)

/-- All that is notified belongs to the table. -/
def Within (l : Ledger) (M : Fin n → Fin n → Fin n) : Prop :=
  ∀ lit, l.Held lit → ∃ e, s.observed e = true ∧ lit = s.literal M e

/-- A variable of any entry that is a literal of an observed one is its own. -/
theorem entry_of_lits {i j k : Fin n} {e : Entry n} {positive : Bool}
    (ho : s.observed e = true) (heq : s.lits i j k = signed s.lits e positive) :
    (i, j, k) = e ∧ positive = true := by
  have htable : ∃ keep hi, LitTable s.lits keep hi := by
    by_cases hd : s.cfg.diagPart = true
    · exact ⟨_, _, by simpa [lits, formula, mainFormula, hd] using encodeDiagonal_lits s.cfg s.d⟩
    · exact ⟨_, _, by simpa [lits, formula, mainFormula, hd] using encodeNoDiag_lits (n := n) s.cfg⟩
  obtain ⟨keep, hi, htable⟩ := htable
  have hpos := s.observing.pos e ho
  have hrange := (htable.range i j k).1
  cases positive with
  | true =>
    simp only [signed, if_true] at heq
    exact ⟨htable.inj i j k e.1 e.2.1 e.2.2 (by omega) heq, rfl⟩
  | false =>
    simp only [signed, Bool.false_eq_true, if_false] at heq
    omega

end Session

section Tables

variable {s : Session n} {before : Bool} {l : Ledger} {M : Fin n → Fin n → Fin n}

theorem within_of_empty (hfixed : l.fixed = []) (hlevels : ∀ level ∈ l.levels, level = []) :
    s.Within l M := by
  intro lit hheld
  rcases hheld with hmem | ⟨level, hlevel, hmem⟩
  · rw [hfixed] at hmem
    cases hmem
  · rw [hlevels level hlevel] at hmem
    cases hmem

/-- A literal of the table that is not notified yet may be. -/
theorem Session.Within.notifies (h : s.Within l M) (hM : (s.mincheck before).Admits M)
    {e : Entry n} (ho : s.observed e = true) (hfree : ¬ l.Held (s.literal M e)) :
    Notifies s l (.assignment (s.literal M e) (s.isUnit (s.literal M e))) := by
  have hobs := s.observing
  -- the value that a held entry of the table has
  have hvalue : ∀ {i j k}, l.Held (s.lits i j k) → M i j = k := by
    intro i j k hheld
    obtain ⟨e', ho', heq⟩ := h _ hheld
    obtain ⟨rfl, htrue⟩ := s.entry_of_lits ho' heq
    exact of_decide_eq_true htrue
  have hown : ∀ {i j k}, s.literal M e = s.lits i j k → e = (i, j, k) ∧ M i j = k := by
    intro i j k heq
    obtain ⟨rfl, htrue⟩ := s.entry_of_lits ho heq.symm
    exact ⟨rfl, of_decide_eq_true htrue⟩
  refine ⟨⟨⟨e, _, ho, rfl⟩, Or.inl ⟨hfree, fun hheld => ?_⟩, fun hunit => ?_,
    fun i j k k' heq hne hheld => ?_⟩, fun i j k _ heq hk j' hne hheld => ?_⟩
  · obtain ⟨e', ho', heq⟩ := h _ hheld
    unfold Session.literal at heq
    rw [neg_signed] at heq
    obtain ⟨rfl, hsign⟩ := signed_inj hobs ho ho' heq
    simp at hsign
  · exact decide_eq_true hunit
  · exact hne ((hvalue hheld).symm.trans (hown heq).2)
  · exact hne ((hM.rows i).1 ((hvalue hheld).trans (hown heq).2.symm))

/-- The run that notifies what is missing of a list of entries. -/
theorem Session.Within.exists_run (h : s.Within l M) (hM : (s.mincheck before).Admits M)
    {level : List Int} {rest : List (List Int)} (hlevels : l.levels = level :: rest)
    {es : List (Entry n)} (hes : ∀ e ∈ es, s.observed e = true) :
    ∃ run, Ledger.Run (Notifies s) l run ∧ s.Within (l.after run) M ∧
      (∀ e ∈ es, (l.after run).Held (s.literal M e)) ∧
      (∀ lit, l.Held lit → (l.after run).Held lit) ∧
      (∃ level', (l.after run).levels = level' :: rest) ∧
      ∀ lit ∈ (l.after run).fixed, lit ∈ l.fixed ∨ s.isUnit lit = true := by
  induction es generalizing l level with
  | nil =>
    exact ⟨[], trivial, h, fun e he => absurd he List.not_mem_nil, fun lit hheld => hheld,
      ⟨level, hlevels⟩, fun lit hmem => Or.inl hmem⟩
  | cons e later ih =>
    have ho := hes e List.mem_cons_self
    have hlater : ∀ e' ∈ later, s.observed e' = true := fun e' he' =>
      hes e' (List.mem_cons_of_mem e he')
    by_cases hheld : l.Held (s.literal M e)
    · obtain ⟨run, hrun, hwithin, hall, hkept, hopen, hfixed⟩ := ih h hlevels hlater
      refine ⟨run, hrun, hwithin, fun e' he' => ?_, hkept, hopen, hfixed⟩
      rcases List.mem_cons.mp he' with rfl | he'
      · exact hkept _ hheld
      · exact hall e' he'
    · -- the literal is notified, and the rest after it
      have hstep := h.notifies hM ho hheld
      have hiff : ∀ x, (l.notify (.assignment (s.literal M e) (s.isUnit (s.literal M e)))).Held x ↔
          x = s.literal M e ∨ l.Held x := Ledger.held_notify (by simp [hlevels])
      have hnext : ∃ level',
          (l.notify (.assignment (s.literal M e) (s.isUnit (s.literal M e)))).levels =
            level' :: rest := by
        cases s.isUnit (s.literal M e) with
        | true => exact ⟨level, hlevels⟩
        | false => exact ⟨level ++ [s.literal M e], by simp [Ledger.notify, hlevels]⟩
      have hnewly : ∀ lit ∈
          (l.notify (.assignment (s.literal M e) (s.isUnit (s.literal M e)))).fixed,
          lit ∈ l.fixed ∨ s.isUnit lit = true := by
        intro lit hmem
        cases hunit : s.isUnit (s.literal M e) with
        | true =>
          rw [hunit] at hmem
          rcases List.mem_cons.mp hmem with rfl | hmem
          · exact Or.inr hunit
          · exact Or.inl hmem
        | false =>
          rw [hunit] at hmem
          simp only [Ledger.notify, hlevels] at hmem
          exact Or.inl hmem
      obtain ⟨level', hlevels'⟩ := hnext
      have hwithin' : s.Within
          (l.notify (.assignment (s.literal M e) (s.isUnit (s.literal M e)))) M := by
        intro x hx
        rcases (hiff x).mp hx with rfl | hx
        · exact ⟨e, ho, rfl⟩
        · exact h x hx
      obtain ⟨run, hrun, hwithin, hall, hkept, hopen, hfixed⟩ := ih hwithin' hlevels' hlater
      refine ⟨_ :: run, ⟨hstep, hrun⟩, hwithin, fun e' he' => ?_,
        fun x hx => hkept x ((hiff x).mpr (Or.inr hx)), hopen, fun lit hmem => ?_⟩
      · rcases List.mem_cons.mp he' with rfl | he'
        · exact hkept _ ((hiff _).mpr (Or.inl rfl))
        · exact hall e' he'
      · rcases hfixed lit hmem with hmem | hunit
        · exact hnewly lit hmem
        · exact Or.inr hunit

/-- A whole table is notified. -/
theorem Session.Within.exists_assigns (h : s.Within l M) (hM : (s.mincheck before).Admits M)
    {level : List Int} {rest : List (List Int)} (hlevels : l.levels = level :: rest) :
    ∃ run, Ledger.Run (Notifies s) l run ∧ s.Within (l.after run) M ∧ Assigns s (l.after run) M ∧
      (∃ level', (l.after run).levels = level' :: rest) ∧
      ∀ lit ∈ (l.after run).fixed, lit ∈ l.fixed ∨ s.isUnit lit = true := by
  have hes : ∀ e ∈ (entries n).filter s.observed, s.observed e = true := fun e he =>
    (List.mem_filter.mp he).2
  obtain ⟨run, hrun, hwithin, hall, -, hopen, hfixed⟩ := h.exists_run hM hlevels hes
  refine ⟨run, hrun, hwithin, fun e ho => ?_, hopen, hfixed⟩
  exact hall e (List.mem_filter.mpr ⟨mem_entries e, ho⟩)

end Tables

end YbeSms.Source
