import YbeSms.Source.SearchRun
import YbeSms.Guarantees.DomainRestore
import YbeSms.Guarantees.ShortEncoder
import Mathlib.Data.Fin.VecNotation
import Mathlib.Data.Fintype.Perm

/-!
# Symmetry clauses cut off no canonical table

Source: ybe-sms/src/minCheck_V2.cpp:46-284; minCheckCommon.cpp:42-114, 264-505;
useful.cpp:336-373. A clause thrown by `MinCheck` holds in every lexicographically
least table, if the run fixes no greatest inverse image behind the first position
of its cell, and none without a value.
-/

namespace YbeSms.Guarantees

open YbeSms.Library YbeSms.Abstract YbeSms.Source YbeSms.Source.MinCheck Equiv

variable {n : Nat}

/-- `pperm_bit` fixes the greatest inverse image only with a value, `pperm_plain` only at the
start of a cell. -/
def FixesAtStart : Event n → Prop
  | .fixGreatest perm maxel maxi => (isBit perm = true → maxi ≠ none) ∧
      (maxi ≠ none → AtStart perm maxel)
  | _ => True

/-- Why a run may stop: a thrown clause holds in every least table. -/
def StopsValid (m : MinCheck n) (d : Perm (Fin n)) (s : Stop) : Prop :=
  ∀ clause, s = .clause clause → ∀ N, m.Admits N → LeastUnder d N → m.HoldsIn clause N

theorem ruled_of_fixesAtStart (hn : 3 ≤ n) {m : MinCheck n} {d : Perm (Fin n)} (hs : Serves m d)
    (hm : m.Numbered) (hshort : m.cfg.oldBreakingClauses = false) {cycset : CycleSet n}
    (hc : m.Consistent cycset) : Ruled m d cycset FixesAtStart (StopsValid m d) where
  greatest _ _ _ h := h
  limit := fun _ h => by cases h
  fault := fun _ h => by cases h
  clause q r c cls _ hcalled hthrow := by
    rintro _ ⟨⟩ N hN hleast
    have hcommute : m.cfg.diagPart = true → ∀ x, q (m.diag x) = m.diag (q x) :=
      fun hdiag => hs.commute_diag hdiag hcalled.commute
    rw [addClauses, hshort, if_neg (by simp)] at hthrow
    exact addClausesShort_holdsIn (roomy_of_le hn) hm hc q hcommute (hcalled.offDiagonal hc)
      (hcalled.tied hc) hthrow hN (hleast q hcalled.commute)

/-- With the short encoder, every clause thrown by a run whose steps meet the condition holds in
every least table. -/
theorem symmetry_clauses_valid (hn : 3 ≤ n) (m : MinCheck n) (d : Perm (Fin n)) (hmode : InMode m d)
    (hm : m.Numbered) (hshort : m.cfg.oldBreakingClauses = false) (cycset : CycleSet n)
    (hc : m.Consistent cycset) (isFinal : Bool)
    (hsteps : ∀ e ∈ (m.minCheck cycset isFinal).events, FixesAtStart e) (clause : Clause)
    (hthrow : (m.minCheck cycset isFinal).result = .error (.clause clause))
    (N : Fin n → Fin n → Fin n) (hN : m.Admits N) (hleast : LeastUnder d N) :
    m.HoldsIn clause N := by
  have hs := hmode.serves (by omega)
  have hstop := (minCheck_spec hs (ruled_of_fixesAtStart hn hs hm hshort hc) isFinal hsteps).2
  rw [hthrow] at hstop
  exact hstop clause rfl N hN hleast

/-- `--size 6 --diag 0,1,2,3,4,5`. -/
def sixIdentity : MinCheck 6 :=
  ⟨{ diagPart := true }, id, (encodeDiagonal { diagPart := true } id).lits, false⟩

/-- The values left by the literals (0,1)=1, (0,3)=5, (0,4)=4, (3,4)=4, (3,5)=0 and (3,1)≠2,
(3,1)≠5, (3,2)≠5. -/
private def valuesLeft : List (List (List (Fin 6))) :=
  [[[0], [1], [2, 3], [5], [4], [2, 3]],
    [[0, 2, 3, 4, 5], [1], [0, 2, 3, 4, 5], [0, 2, 3, 4, 5], [0, 2, 3, 4, 5], [0, 2, 3, 4, 5]],
    [[0, 1, 3, 4, 5], [0, 1, 3, 4, 5], [2], [0, 1, 3, 4, 5], [0, 1, 3, 4, 5], [0, 1, 3, 4, 5]],
    [[1, 2, 5], [1], [1, 2], [3], [4], [0]],
    [[0, 1, 2, 3, 5], [0, 1, 2, 3, 5], [0, 1, 2, 3, 5], [0, 1, 2, 3, 5], [4], [0, 1, 2, 3, 5]],
    [[0, 1, 2, 3, 4], [0, 1, 2, 3, 4], [0, 1, 2, 3, 4], [0, 1, 2, 3, 4], [0, 1, 2, 3, 4], [5]]]

private def cellValues (i j : Fin 6) : List (Fin 6) := (valuesLeft.getD i []).getD j []

/-- The off-diagonal cells with a value. -/
private def valued : List (Fin 6 × Fin 6) := [(0, 1), (0, 3), (0, 4), (3, 4), (3, 5)]

/-- The state of the propagator after those literals. -/
def eightLiterals : CycleSet 6 where
  matrix i j := if i = j ∨ (i, j) ∈ valued then (cellValues i j).head? else none
  assignments i j v :=
    if v ∉ cellValues i j then .isFalse
    else if i = j ∨ (i, j) ∈ valued then .isTrue else .unknown
  bitdomains i j :=
    ⟨fun v => (cellValues i j).contains v, toInt (cellValues i j).head?, (cellValues i j).length⟩

/-- A least table under all permutations. -/
def sixTable : Fin 6 → Fin 6 → Fin 6 :=
  ![![0, 1, 2, 4, 5, 3], ![2, 1, 3, 4, 5, 0], ![5, 3, 2, 0, 1, 4], ![4, 1, 2, 3, 5, 0],
    ![5, 0, 3, 2, 4, 1], ![3, 4, 2, 0, 1, 5]]

def clauseOf : Except Stop Int → Option Clause
  | .error (.clause c) => some c
  | _ => none

theorem result_of_clauseOf {r : Except Stop Int} {clause : Clause}
    (h : clauseOf r = some clause) : r = .error (.clause clause) := by
  match r, h with
  | .error (.clause _), rfl => rfl

theorem eightLiterals_consistent : sixIdentity.Consistent eightLiterals where
  exact := by decide +kernel
  nonempty := by decide +kernel
  isTrue := by decide +kernel
  isFalse := by decide +kernel
  assigned := by decide +kernel
  diagonal := by decide +kernel

set_option maxRecDepth 100000 in
theorem sixTable_least : LeastUnder 1 sixTable := by
  have hall : ∀ p : Perm (Fin 6), atMostOn sixTable (act p sixTable) (cells 6) = true := by
    decide +kernel
  exact fun p _ => rowMajor_le_of_atMostOn (pairwise_cells 6) mem_cells (hall p)

/-- The clause that is thrown. -/
private def cutOff : Clause :=
  [(0, 2, 1), (0, 3, 1), (0, 3, 2), (0, 3, 3), (0, 4, 1), (0, 4, 2), (0, 4, 3), (3, 1, 0),
    (3, 1, 2), (3, 1, 4), (3, 1, 5), (3, 2, 0), (3, 2, 4), (3, 2, 5), (3, 5, 4), (3, 5, 5)].map
    fun e : Entry 6 => sixIdentity.cycsetLits e.1 e.2.1 e.2.2

theorem cutOff_fails : ¬ sixIdentity.HoldsIn cutOff sixTable := by
  have hnumbered : sixIdentity.Numbered := rfl
  apply hnumbered.not_holdsIn
  apply hnumbered.failsIn
  intro l hl
  obtain ⟨⟨r, c, v⟩, he, rfl⟩ := List.mem_map.mp hl
  have hnone : ∀ e ∈ ([(0, 2, 1), (0, 3, 1), (0, 3, 2), (0, 3, 3), (0, 4, 1), (0, 4, 2), (0, 4, 3),
      (3, 1, 0), (3, 1, 2), (3, 1, 4), (3, 1, 5), (3, 2, 0), (3, 2, 4), (3, 2, 5), (3, 5, 4),
      (3, 5, 5)] : List (Entry 6)), sixTable e.1 e.2.1 ≠ e.2.2 := by decide +kernel
  exact Or.inl ⟨r, c, v, rfl, hnone _ he⟩

set_option maxRecDepth 100000 in
/-- At (0,3) the greatest position 5 of the cell {4, 5} is fixed and not split off, so the tie is
lost when 4 gets its image; the clause asks for more than the table has to give. -/
theorem symmetry_clause_cuts_off :
    InMode sixIdentity 1 ∧ sixIdentity.Numbered ∧ sixIdentity.Consistent eightLiterals ∧
      (∀ i j v, (eightLiterals.bitdomains i j).dom v = true ↔ InDomain eightLiterals i j v) ∧
      preCheck eightLiterals = false ∧
      ∃ clause, (sixIdentity.minCheck eightLiterals false).result = .error (.clause clause) ∧
        sixIdentity.Admits sixTable ∧ LeastUnder 1 sixTable ∧ ¬ sixIdentity.HoldsIn clause sixTable := by
  have hthrown : clauseOf (sixIdentity.minCheck eightLiterals false).result = some cutOff := by
    decide +kernel
  have hresult := result_of_clauseOf hthrown
  have hdomain : ∀ i j v, (eightLiterals.bitdomains i j).dom v = true ↔
      (∀ k, eightLiterals.matrix i j = some k → v = k) ∧ (eightLiterals.matrix i j = none →
        eightLiterals.assignments i j v ≠ .isFalse ∧
          ∀ l, l ≠ j → eightLiterals.matrix i l ≠ some v) := by decide +kernel
  refine ⟨⟨by decide +kernel, rfl⟩, rfl, eightLiterals_consistent, ?_, by decide +kernel, cutOff,
    hresult, ⟨by unfold RowsPermute; decide +kernel, by decide +kernel⟩, sixTable_least,
    cutOff_fails⟩
  intro i j v
  rw [hdomain]
  unfold InDomain
  cases eightLiterals.matrix i j with
  | none => simp
  | some k => simp

/-- The only assigned literal is `3`: cell (0,0) has value 2. -/
def twoChosen : CycleSet 3 :=
  ((Propagator.init {} id id).notifyAssignment (lit2entry {} id) 3 false).currentCycleSet

theorem twoChosen_consistent : fullNoDiag.Consistent twoChosen where
  exact := by decide +kernel
  nonempty := by decide +kernel
  isTrue := by decide +kernel
  isFalse := by decide +kernel
  assigned := by decide +kernel
  diagonal h := by cases h

/-- The event is no greatest inverse image that is fixed. -/
def noneGreatest : Event n → Bool
  | .fixGreatest _ _ _ => false
  | _ => true

theorem fixesAtStart_of_noneGreatest {events : List (Event n)}
    (h : events.all noneGreatest = true) : ∀ e ∈ events, FixesAtStart e := by
  intro e he
  have hkind := List.all_eq_true.mp h e he
  cases e with
  | fixGreatest perm maxel maxi => cases hkind
  | learn p r c => trivial
  | check p r c => trivial
  | choose perm i j => trivial

set_option maxRecDepth 100000 in
/-- Exchanging 1 and 2 makes the clause "(0,0) does not have value 2", and the table of all
identity rows is least. -/
theorem symmetry_clauses_valid_instance :
    ∃ clause, (fullNoDiag.minCheck twoChosen false).result = .error (.clause clause) ∧
      fullNoDiag.HoldsIn clause fun _ j => j := by
  have hthrown : (clauseOf (fullNoDiag.minCheck twoChosen false).result).isSome = true := by
    decide +kernel
  obtain ⟨clause, hclause⟩ := Option.isSome_iff_exists.mp hthrown
  have hthrow := result_of_clauseOf hclause
  have hnone : (fullNoDiag.minCheck twoChosen false).events.all noneGreatest = true := by
    decide +kernel
  exact ⟨clause, hthrow, symmetry_clauses_valid (by decide) fullNoDiag 1 ⟨rfl, rfl⟩ rfl rfl
    twoChosen twoChosen_consistent false (fixesAtStart_of_noneGreatest hnone) clause hthrow _
    ⟨by unfold RowsPermute; decide, fun h => by cases h⟩ (leastUnder_identityRows 1)⟩

end YbeSms.Guarantees
