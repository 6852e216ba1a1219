import Mathlib.Data.List.Basic
import Mathlib.Algebra.Order.Ring.Int

/-!
# What a solver has told a propagator

The ledger of notifications: literals notified as fixed stay, the others belong
to the decision level that was open when they were notified, and go with it.
The levels are listed with the innermost first and the root level last.
-/

namespace YbeSms.Abstract

/-- The notifications a solver sends. -/
inductive Notification where
  | assignment (lit : Int) (isFixed : Bool)
  | newDecisionLevel
  | backtrack (newLevel : Nat)
  deriving DecidableEq, Repr

structure Ledger where
  fixed : List Int
  levels : List (List Int)

namespace Ledger

/-- Nothing notified, only the root level open. -/
def empty : Ledger := ⟨[], [[]]⟩

/-- The literal is fixed or belongs to an open level. -/
def Held (l : Ledger) (lit : Int) : Prop := lit ∈ l.fixed ∨ ∃ level ∈ l.levels, lit ∈ level

/-- How many levels a backtrack to `newLevel` closes. -/
def closing (l : Ledger) (newLevel : Nat) : Nat := l.levels.length - (newLevel + 1)

/-- The literals of the levels a backtrack to `newLevel` closes. -/
def undone (l : Ledger) (newLevel : Nat) : List Int := (l.levels.take (l.closing newLevel)).flatten

def notify (l : Ledger) : Notification → Ledger
  | .assignment lit true => ⟨lit :: l.fixed, l.levels⟩
  | .assignment lit false =>
    match l.levels with
    | [] => l
    | last :: rest => ⟨l.fixed, (last ++ [lit]) :: rest⟩
  | .newDecisionLevel => ⟨l.fixed, [] :: l.levels⟩
  | .backtrack newLevel => ⟨l.fixed, l.levels.drop (l.closing newLevel)⟩

/-- A notified literal is held, and all that was. -/
theorem held_notify {l : Ledger} {lit : Int} {isFixed : Bool} (hopen : l.levels ≠ [])
    (x : Int) : (l.notify (.assignment lit isFixed)).Held x ↔ x = lit ∨ l.Held x := by
  obtain ⟨fixed, levels⟩ := l
  cases isFixed with
  | true =>
    simp only [notify, Held, List.mem_cons]
    tauto
  | false =>
    cases levels with
    | nil => exact absurd rfl hopen
    | cons last rest =>
      simp only [notify, Held, List.mem_cons, exists_eq_or_imp, List.mem_append,
        List.not_mem_nil, or_false]
      tauto

/-- Every notification of the run is allowed where it arrives. -/
def Run (allowed : Ledger → Notification → Prop) : Ledger → List Notification → Prop
  | _, [] => True
  | l, e :: rest => allowed l e ∧ Run allowed (l.notify e) rest

def after (l : Ledger) (run : List Notification) : Ledger := run.foldl notify l

theorem run_append (allowed : Ledger → Notification → Prop) (l : Ledger)
    (run rest : List Notification) :
    Run allowed l (run ++ rest) ↔ Run allowed l run ∧ Run allowed (l.after run) rest := by
  induction run generalizing l with
  | nil => simp [Run, after]
  | cons e tail ih => simp [Run, after, ih, and_assoc]

/-- An invariant of allowed steps holds after every allowed run. -/
theorem Run.invariant {S : Type} {allowed : Ledger → Notification → Prop}
    {step : S → Notification → S} {Inv : S → Ledger → Prop}
    (hstep : ∀ s l e, Inv s l → allowed l e → Inv (step s e) (l.notify e)) {s : S} {l : Ledger}
    {run : List Notification} (hrun : Run allowed l run) (h : Inv s l) :
    Inv (run.foldl step s) (l.after run) := by
  induction run generalizing s l with
  | nil => exact h
  | cons e tail ih => exact ih hrun.2 (hstep s l e h hrun.1)

/-- While the level above `base` stays open and nothing is newly fixed, the levels below and the
fixed literals are unchanged. -/
theorem after_above {F : List Int} {base : List (List Int)} (run : List Notification)
    (l : Ledger) (hfixed : ∀ lit, lit ∈ l.fixed ↔ lit ∈ F)
    (habove : ∃ extra, extra ≠ [] ∧ l.levels = extra ++ base)
    (hopen : ∀ first, first <+: run → base.length < (l.after first).levels.length)
    (hold : ∀ lit, Notification.assignment lit true ∈ run → lit ∈ F) :
    (∀ lit, lit ∈ (l.after run).fixed ↔ lit ∈ F) ∧
      ∃ extra, extra ≠ [] ∧ (l.after run).levels = extra ++ base := by
  induction run generalizing l with
  | nil => exact ⟨hfixed, habove⟩
  | cons e rest ih =>
    have hfirst := hopen [e] ⟨rest, rfl⟩
    have hrest : ∀ first, first <+: rest →
        base.length < ((l.notify e).after first).levels.length := fun first hpre =>
      hopen (e :: first) (List.cons_prefix_cons.mpr ⟨rfl, hpre⟩)
    have hold' : ∀ lit, Notification.assignment lit true ∈ rest → lit ∈ F := fun lit hmem =>
      hold lit (List.mem_cons_of_mem _ hmem)
    obtain ⟨extra, hne, hlevels⟩ := habove
    refine ih (l.notify e) ?_ ?_ hrest hold'
    · cases e with
      | assignment lit isFixed =>
        cases isFixed with
        | true =>
          intro x
          rw [notify, List.mem_cons, hfixed, or_iff_right_of_imp]
          rintro rfl
          exact hold x List.mem_cons_self
        | false => cases hlev : l.levels <;> simpa [notify, hlev] using hfixed
      | newDecisionLevel => exact hfixed
      | backtrack newLevel => exact hfixed
    · cases e with
      | assignment lit isFixed =>
        cases isFixed with
        | true => exact ⟨extra, hne, hlevels⟩
        | false =>
          cases extra with
          | nil => exact absurd rfl hne
          | cons last more =>
            exact ⟨(last ++ [lit]) :: more, by simp, by simp [notify, hlevels]⟩
      | newDecisionLevel => exact ⟨[] :: extra, by simp, by simp [notify, hlevels]⟩
      | backtrack newLevel =>
        have hlength : (l.levels.drop (l.closing newLevel)).length = l.levels.length -
            l.closing newLevel := List.length_drop
        have hkeep : base.length < (l.levels.drop (l.closing newLevel)).length := hfirst
        rw [hlevels, List.length_append] at hlength
        refine ⟨extra.drop (l.closing newLevel), ?_, ?_⟩
        · rw [← List.length_pos_iff, List.length_drop]
          rw [hlevels] at hkeep
          omega
        · rw [notify, hlevels]
          refine List.drop_append_of_le_length ?_
          rw [hlevels] at hkeep
          omega

/-- A backtrack that closes exactly the levels opened since holds what was held then. -/
theorem held_after_backtrack {l : Ledger} {run : List Notification} {newLevel : Nat}
    (hlevel : l.levels.length = newLevel + 1)
    (hopen : ∀ first, first <+: run →
      newLevel + 1 < ((l.notify .newDecisionLevel).after first).levels.length)
    (hold : ∀ lit, Notification.assignment lit true ∈ run → lit ∈ l.fixed) (lit : Int) :
    (l.after (.newDecisionLevel :: run ++ [.backtrack newLevel])).Held lit ↔ l.Held lit := by
  obtain ⟨hfixed, extra, -, hlevels⟩ := after_above run (l.notify .newDecisionLevel)
    (fun _ => Iff.rfl) ⟨[[]], by simp, rfl⟩ (fun first hpre => hlevel ▸ hopen first hpre) hold
  have hsplit : l.after (.newDecisionLevel :: run ++ [.backtrack newLevel]) =
      ((l.notify .newDecisionLevel).after run).notify (.backtrack newLevel) := by
    simp [after]
  rw [hsplit]
  generalize (l.notify .newDecisionLevel).after run = m at hfixed hlevels
  have hclosing : m.closing newLevel = extra.length := by
    rw [closing, hlevels, List.length_append]
    omega
  rw [notify, hclosing, hlevels, List.drop_left]
  exact or_congr (hfixed lit) Iff.rfl

end Ledger

end YbeSms.Abstract
