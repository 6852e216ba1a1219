import YbeSms.Source.CadicalSolver
import YbeSms.Source.EntryEncoding

/-!
# Assignments and matrix against the ledger

Source: ybe-sms/src/solveCadicalClass.hpp:164-257. One notified literal and one
undone literal change the picture at their entry only; a whole backtrack is the
undoing of the literals of the closed levels.
-/

namespace YbeSms.Source

open YbeSms.Library YbeSms.Abstract

variable {n : Nat}

/-- The literal of an entry with a sign. -/
def signed (lits : MatrixLits n) (e : Entry n) (positive : Bool) : Int :=
  if positive then lits e.1 e.2.1 e.2.2 else -lits e.1 e.2.1 e.2.2

/-- The observed entries have distinct positive variables, which `lit2entry` maps back. -/
structure Observing (lits : MatrixLits n) (table : List (Option (Entry n)))
    (obs : Entry n → Bool) : Prop where
  pos : ∀ e, obs e = true → 0 < lits e.1 e.2.1 e.2.2
  inj : ∀ e e', obs e = true → obs e' = true →
    lits e.1 e.2.1 e.2.2 = lits e'.1 e'.2.1 e'.2.2 → e = e'
  lookup : ∀ e, obs e = true → (table[(lits e.1 e.2.1 e.2.2).natAbs]?).join = some e

/-- The picture agrees with what is held (`H e true`: the entry's variable is held true). -/
structure Mirrors (obs : Entry n → Bool) (A0 : Fin n → Fin n → Fin n → TruthVal)
    (c : CycleSet n) (H : Entry n → Bool → Prop) : Prop where
  isTrue : ∀ i j k, obs (i, j, k) = true → (c.assignments i j k = .isTrue ↔ H (i, j, k) true)
  isFalse : ∀ i j k, obs (i, j, k) = true → (c.assignments i j k = .isFalse ↔ H (i, j, k) false)
  other : ∀ i j k, obs (i, j, k) = false → c.assignments i j k = A0 i j k
  matrix : ∀ i j k, c.matrix i j = some k ↔ c.assignments i j k = .isTrue

theorem Mirrors.congr {obs : Entry n → Bool} {A0 : Fin n → Fin n → Fin n → TruthVal}
    {c : CycleSet n} {H H' : Entry n → Bool → Prop} (h : Mirrors obs A0 c H)
    (heq : ∀ e, obs e = true → ∀ p, H e p ↔ H' e p) : Mirrors obs A0 c H' where
  isTrue i j k ho := (h.isTrue i j k ho).trans (heq _ ho _)
  isFalse i j k ho := (h.isFalse i j k ho).trans (heq _ ho _)
  other := h.other
  matrix := h.matrix

theorem CycleSet.assign_assignments (c : CycleSet n) (i j k : Fin n) (positive : Bool)
    (i' j' k' : Fin n) :
    (c.assign (i, j, k) positive).assignments i' j' k' =
      if (i', j', k') = (i, j, k) then (if positive then .isTrue else .isFalse)
      else c.assignments i' j' k' := by
  cases positive <;> simp [CycleSet.assign]

theorem CycleSet.assign_matrix (c : CycleSet n) (i j k : Fin n) (positive : Bool)
    (i' j' : Fin n) :
    (c.assign (i, j, k) positive).matrix i' j' =
      if positive = true ∧ i' = i ∧ j' = j then some k else c.matrix i' j' := by
  cases positive <;> simp [CycleSet.assign]

theorem CycleSet.undo_assignments (c : CycleSet n) (i j k i' j' k' : Fin n) :
    (c.undo (i, j, k)).assignments i' j' k' =
      if (i', j', k') = (i, j, k) then .unknown else c.assignments i' j' k' := by
  cases h : c.assignments i j k <;> simp [CycleSet.undo, h]

theorem CycleSet.undo_matrix (c : CycleSet n) (i j k i' j' : Fin n) :
    (c.undo (i, j, k)).matrix i' j' =
      if c.assignments i j k = .isTrue ∧ i' = i ∧ j' = j then none else c.matrix i' j' := by
  cases h : c.assignments i j k <;> simp [CycleSet.undo, h]

section Steps

variable {obs : Entry n → Bool} {A0 : Fin n → Fin n → Fin n → TruthVal} {c : CycleSet n}
  {H : Entry n → Bool → Prop}

/-- A notified literal whose opposite is not held; no other value of its cell is true. -/
theorem Mirrors.assign (h : Mirrors obs A0 c H) {i j k : Fin n} (ho : obs (i, j, k) = true)
    {positive : Bool} (hopp : ¬ H (i, j, k) (!positive))
    (hcell : positive = true → ∀ k', k' ≠ k → c.matrix i j ≠ some k') :
    Mirrors obs A0 (c.assign (i, j, k) positive)
      (fun e p => H e p ∨ (e = (i, j, k) ∧ p = positive)) := by
  refine ⟨fun i' j' k' ho' => ?_, fun i' j' k' ho' => ?_, fun i' j' k' ho' => ?_,
    fun i' j' k' => ?_⟩
  · rw [CycleSet.assign_assignments]
    by_cases he : (i', j', k') = (i, j, k)
    · cases positive
      · simpa [he] using hopp
      · simp [he]
    · simpa [he] using h.isTrue i' j' k' ho'
  · rw [CycleSet.assign_assignments]
    by_cases he : (i', j', k') = (i, j, k)
    · cases positive
      · simp [he]
      · simpa [he] using hopp
    · simpa [he] using h.isFalse i' j' k' ho'
  · have he : (i', j', k') ≠ (i, j, k) := by
      rintro he
      rw [he, ho] at ho'
      cases ho'
    rw [CycleSet.assign_assignments, if_neg he]
    exact h.other i' j' k' ho'
  · rw [CycleSet.assign_assignments, CycleSet.assign_matrix]
    cases positive
    · by_cases he : (i', j', k') = (i, j, k)
      · obtain ⟨rfl, rfl, rfl⟩ : i' = i ∧ j' = j ∧ k' = k := by simpa using he
        have hnot : c.matrix i' j' ≠ some k' := fun hm =>
          hopp ((h.isTrue _ _ _ ho).mp ((h.matrix _ _ _).mp hm))
        simpa using hnot
      · simpa [he] using h.matrix i' j' k'
    · by_cases hc : i' = i ∧ j' = j
      · obtain ⟨rfl, rfl⟩ := hc
        by_cases hk : k' = k
        · simp [hk]
        · have hnot := hcell rfl k' hk
          rw [ne_eq, h.matrix] at hnot
          simp [hk, Ne.symm hk, hnot]
      · have he : (i', j', k') ≠ (i, j, k) := by
          intro he
          simp only [Prod.mk.injEq] at he
          exact hc ⟨he.1, he.2.1⟩
        simpa [hc, he] using h.matrix i' j' k'

/-- An undone literal leaves its entry unknown and everything else as it was. -/
theorem Mirrors.undo (h : Mirrors obs A0 c H) {i j k : Fin n} (ho : obs (i, j, k) = true) :
    Mirrors obs A0 (c.undo (i, j, k)) (fun e p => H e p ∧ e ≠ (i, j, k)) := by
  refine ⟨fun i' j' k' ho' => ?_, fun i' j' k' ho' => ?_, fun i' j' k' ho' => ?_,
    fun i' j' k' => ?_⟩
  · rw [CycleSet.undo_assignments]
    by_cases he : (i', j', k') = (i, j, k)
    · simp [he]
    · simpa [he] using h.isTrue i' j' k' ho'
  · rw [CycleSet.undo_assignments]
    by_cases he : (i', j', k') = (i, j, k)
    · simp [he]
    · simpa [he] using h.isFalse i' j' k' ho'
  · have he : (i', j', k') ≠ (i, j, k) := by
      rintro he
      rw [he, ho] at ho'
      cases ho'
    rw [CycleSet.undo_assignments, if_neg he]
    exact h.other i' j' k' ho'
  · rw [CycleSet.undo_assignments, CycleSet.undo_matrix]
    by_cases hc : c.assignments i j k = .isTrue ∧ i' = i ∧ j' = j
    · obtain ⟨htrue, rfl, rfl⟩ := hc
      have hm := (h.matrix i' j' k).mpr htrue
      by_cases hk : k' = k
      · simp [hk, htrue]
      · have hnot : c.assignments i' j' k' ≠ .isTrue := fun ht => hk (by
          have := (h.matrix i' j' k').mpr ht
          rw [hm] at this
          exact (Option.some.inj this).symm)
        simp [hk, htrue, hnot]
    · rw [if_neg hc, h.matrix]
      by_cases he : (i', j', k') = (i, j, k)
      · obtain ⟨rfl, rfl, rfl⟩ : i' = i ∧ j' = j ∧ k' = k := by simpa using he
        have hnot : c.assignments i' j' k' ≠ .isTrue := fun ht => hc ⟨ht, rfl, rfl⟩
        simp [hnot]
      · rw [if_neg he]

end Steps

/-- What `main` hands to the solver: the settings, the diagonal and the first row. -/
structure Session (n : Nat) where
  cfg : Config
  d : Fin n → Fin n
  firstRow : Fin n → Fin n

namespace Session

def formula (s : Session n) : Encoding n := mainFormula s.cfg s.d s.firstRow

def lits (s : Session n) : MatrixLits n := s.formula.lits

def table (s : Session n) : List (Option (Entry n)) := lit2entry s.cfg s.d

def observed (s : Session n) (e : Entry n) : Bool := entryObserved s.cfg s.d e

def start (s : Session n) : Propagator n := Propagator.init s.cfg s.d s.firstRow

/-- The propagator after a run of notifications. -/
def after (s : Session n) (run : List Notification) : Propagator n :=
  run.foldl (Propagator.notify s.table) s.start

/-- The literal of an entry is held. -/
def Holds (s : Session n) (l : Ledger) (e : Entry n) (positive : Bool) : Prop :=
  l.Held (signed s.lits e positive)

/-- What every solver run promises: only observed variables are notified, each while it is
unassigned or again as fixed with the same sign; variables of unit clauses are notified as
fixed; at most one value of a cell is true. -/
def Promised (s : Session n) (l : Ledger) : Notification → Prop
  | .assignment lit isFixed =>
    (∃ e positive, s.observed e = true ∧ lit = signed s.lits e positive) ∧
    ((¬ l.Held lit ∧ ¬ l.Held (-lit)) ∨ (isFixed = true ∧ l.Held lit)) ∧
    ([lit] ∈ s.formula.cnf ∨ [-lit] ∈ s.formula.cnf → isFixed = true) ∧
    ∀ i j k k', lit = s.lits i j k → k' ≠ k → ¬ l.Held (s.lits i j k')
  | .newDecisionLevel => True
  | .backtrack _ => True

end Session

theorem numberEntries_observing (keep obs : Entry n → Bool)
    (h : ∀ e, obs e = true → keep e = true) :
    Observing (numberEntries keep 1).1 (none :: ((entries n).filter keep).map some) obs := by
  have ht := numberEntries_table keep
  have h0 : ∀ e, obs e = true → (numberEntries keep 1).1 e.1 e.2.1 e.2.2 ≠ 0 := fun e he =>
    (ht.nonzero e.1 e.2.1 e.2.2).mpr (h e he)
  have hpos : ∀ e, obs e = true → 0 < (numberEntries keep 1).1 e.1 e.2.1 e.2.2 := fun e he => by
    have := h0 e he
    have := ht.range e.1 e.2.1 e.2.2
    omega
  refine ⟨hpos, fun e e' he _ heq => ht.inj _ _ _ _ _ _ (h0 e he) heq, fun e he => ?_⟩
  have hmem : e ∈ (entries n).filter keep := List.mem_filter.mpr ⟨mem_entries e, h e he⟩
  have hget := getElem_number keep (entries n) (nodup_entries n) (fun _ => 0) 1 e hmem
  have hindex : ((numberEntries keep 1).1 e.1 e.2.1 e.2.2).natAbs =
      ((numberEntries keep 1).1 e.1 e.2.1 e.2.2 - 1).toNat + 1 := by
    have := hpos e he
    omega
  have hget' : ((entries n).filter keep)[((numberEntries keep 1).1 e.1 e.2.1 e.2.2 - 1).toNat]? =
      some e := hget
  rw [hindex, List.getElem?_cons_succ, List.getElem?_map, hget']
  rfl

theorem Session.observing (s : Session n) : Observing s.lits s.table s.observed := by
  unfold Session.lits Session.formula Session.table mainFormula lit2entry
  by_cases hd : s.cfg.diagPart = true
  · rw [if_pos hd, entryListed_diagonal hd]
    refine numberEntries_observing (entryKept s.cfg s.d) s.observed fun e he => ?_
    rw [← entryListed_diagonal hd]
    exact entryListed_of_observed he
  · rw [if_neg hd, entryListed_noDiag hd]
    exact numberEntries_observing (fun _ => true) s.observed fun _ _ => rfl

theorem signed_ne_zero {lits : MatrixLits n} {table : List (Option (Entry n))}
    {obs : Entry n → Bool} (h : Observing lits table obs) {e : Entry n} (he : obs e = true)
    (positive : Bool) : signed lits e positive ≠ 0 := by
  have := h.pos e he
  cases positive <;> simp only [signed, Bool.false_eq_true, if_false, if_true] <;> omega

/-- The sign and the entry of an observed literal are determined. -/
theorem signed_inj {lits : MatrixLits n} {table : List (Option (Entry n))} {obs : Entry n → Bool}
    (h : Observing lits table obs) {e e' : Entry n} (he : obs e = true) (he' : obs e' = true)
    {p p' : Bool} (heq : signed lits e p = signed lits e' p') : e = e' ∧ p = p' := by
  have hpos := h.pos e he
  have hpos' := h.pos e' he'
  cases p <;> cases p' <;> simp only [signed, Bool.false_eq_true, if_false, if_true] at heq
  · exact ⟨h.inj e e' he he' (by omega), rfl⟩
  · omega
  · omega
  · exact ⟨h.inj e e' he he' (by omega), rfl⟩

theorem signed_natAbs (lits : MatrixLits n) (e : Entry n) (p : Bool) :
    (signed lits e p).natAbs = (lits e.1 e.2.1 e.2.2).natAbs := by
  cases p <;> simp [signed]

theorem neg_signed (lits : MatrixLits n) (e : Entry n) (p : Bool) :
    -signed lits e p = signed lits e (!p) := by
  cases p <;> simp [signed]

end YbeSms.Source
