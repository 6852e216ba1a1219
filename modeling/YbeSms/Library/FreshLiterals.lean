import YbeSms.Library.Cnf
import YbeSms.Library.Numbering

/-!
# Where the literals of a formula come from

An emitter is given some variables and draws others from its counter. `Draws` says
that it writes no third kind: a literal that is not over a given variable is over
one that the counter had not reached.
-/

namespace YbeSms.Library

/-- The literal is over one of `vars` or over a variable from `lo` on. -/
def GivenOrFresh (vars : Set Nat) (lo : Int) (l : Int) : Prop :=
  l.natAbs ∈ vars ∨ lo ≤ l.natAbs

/-- All literals of the formula are. -/
def FormulaOver (vars : Set Nat) (lo : Int) (F : Cnf) : Prop :=
  ∀ c ∈ F, ∀ l ∈ c, GivenOrFresh vars lo l

variable {vars : Set Nat} {lo : Int}

@[simp] theorem givenOrFresh_neg (l : Int) :
    GivenOrFresh vars lo (-l) ↔ GivenOrFresh vars lo l := by
  rw [GivenOrFresh, GivenOrFresh, Int.natAbs_neg]

theorem givenOrFresh_of_le {k : Int} (h : lo ≤ k) : GivenOrFresh vars lo k := by
  right
  omega

@[simp] theorem formulaOver_nil : FormulaOver vars lo [] := by
  simp [FormulaOver]

@[simp] theorem formulaOver_cons (c : Clause) (F : Cnf) :
    FormulaOver vars lo (c :: F) ↔ (∀ l ∈ c, GivenOrFresh vars lo l) ∧ FormulaOver vars lo F := by
  simp [FormulaOver]

@[simp] theorem formulaOver_append (F G : Cnf) :
    FormulaOver vars lo (F ++ G) ↔ FormulaOver vars lo F ∧ FormulaOver vars lo G := by
  simp only [FormulaOver, List.mem_append]
  exact ⟨fun h => ⟨fun c hc => h c (Or.inl hc), fun c hc => h c (Or.inr hc)⟩,
    fun h c hc => hc.elim (h.1 c) (h.2 c)⟩

/-- From `lo` on, the emitter writes given and fresh literals and never lowers the counter. -/
structure Emitter.Draws (e : Emitter) (vars : Set Nat) (lo : Int) : Prop where
  le : ∀ k, lo ≤ k → k ≤ (e k).2
  literals : ∀ k, lo ≤ k → FormulaOver vars lo (e k).1

namespace Emitter

theorem Draws.clauses {F : Cnf} (h : FormulaOver vars lo F) : (clauses F).Draws vars lo :=
  ⟨fun k _ => le_refl k, fun _ _ => h⟩

theorem Draws.andThen {a b : Emitter} (ha : a.Draws vars lo) (hb : b.Draws vars lo) :
    (a.andThen b).Draws vars lo where
  le k hk := (ha.le k hk).trans (hb.le _ (hk.trans (ha.le k hk)))
  literals k hk := by
    rw [Emitter.andThen, formulaOver_append]
    exact ⟨ha.literals k hk, hb.literals _ (hk.trans (ha.le k hk))⟩

theorem Draws.forEach {α : Type} {l : List α} {f : α → Emitter}
    (h : ∀ a ∈ l, (f a).Draws vars lo) : (forEach l f).Draws vars lo := by
  induction l with
  | nil => exact Draws.clauses formulaOver_nil
  | cons a rest ih =>
    have hrest := ih fun b hb => h b (List.mem_cons_of_mem a hb)
    exact (h a List.mem_cons_self).andThen hrest

end Emitter

section Tables

variable {α : Type} [DecidableEq α]

/-- Every number of the table is given or fresh, or there is none. -/
def TableOver (vars : Set Nat) (lo : Int) (f : α → Int) : Prop :=
  ∀ a, f a = 0 ∨ GivenOrFresh vars lo (f a)

theorem TableOver.update {f : α → Int} (h : TableOver vars lo f) {k : Int} (hk : lo ≤ k) (a : α) :
    TableOver vars lo (Function.update f a k) := by
  intro b
  by_cases hb : b = a
  · subst hb
    rw [Function.update_self]
    exact Or.inr (givenOrFresh_of_le hk)
  · rw [Function.update_of_ne hb]
    exact h b

theorem number_over (sel : α → Bool) (l : List α) {f : α → Int} (h : TableOver vars lo f) {k : Int}
    (hk : lo ≤ k) : TableOver vars lo (number sel l f k).1 := by
  induction l generalizing f k with
  | nil => exact h
  | cons a rest ih =>
    by_cases ha : sel a = true
    · simp only [number, ha, if_true]
      exact ih (h.update hk a) (by omega)
    · simp only [number, ha, Bool.false_eq_true, if_false]
      exact ih h hk

/-- What `emitLazy` writes and the numbers it leaves behind. -/
theorem emitLazy_over {l : List (α × List Int)}
    (hl : ∀ p ∈ l, ∀ x ∈ p.2, GivenOrFresh vars lo x) {f : α → Int} (h : TableOver vars lo f)
    {k : Int} (hk : lo ≤ k) :
    k ≤ (emitLazy l f k).1.2 ∧ TableOver vars lo (emitLazy l f k).1.1 ∧
      FormulaOver vars lo (emitLazy l f k).2 := by
  induction l generalizing f k with
  | nil => exact ⟨le_refl k, h, formulaOver_nil⟩
  | cons p rest ih =>
    obtain ⟨a, premise⟩ := p
    have hpremise := hl _ List.mem_cons_self
    have hrest := fun q hq => hl q (List.mem_cons_of_mem _ hq)
    by_cases ha : f a = 0
    · obtain ⟨hle, htable, hformula⟩ := ih hrest (h.update hk a) (show lo ≤ k + 1 by omega)
      simp only [emitLazy, ha, if_true, Function.update_self]
      refine ⟨by omega, htable, (formulaOver_cons _ _).mpr ⟨?_, hformula⟩⟩
      intro x hx
      rcases List.mem_append.mp hx with hx | hx
      · exact hpremise x hx
      · rw [List.mem_singleton.mp hx]
        exact givenOrFresh_of_le hk
    · obtain ⟨hle, htable, hformula⟩ := ih hrest h hk
      simp only [emitLazy, ha, if_false]
      refine ⟨hle, htable, (formulaOver_cons _ _).mpr ⟨?_, hformula⟩⟩
      intro x hx
      rcases List.mem_append.mp hx with hx | hx
      · exact hpremise x hx
      · rw [List.mem_singleton.mp hx]
        exact (h a).resolve_left ha

end Tables

end YbeSms.Library
