import YbeSms.Source.ShortClauses
import YbeSms.Source.CadicalSolver
import Mathlib.Data.Fintype.Prod

/-!
# The short encoder

Source: ybe-sms/src/minCheckCommon.cpp:264-505. Every clause that `addClausesShort`
throws for a permutation that ties all cells before the target holds in every
table that is at most its relabelling.
-/

namespace YbeSms.Guarantees

open YbeSms.Library YbeSms.Abstract YbeSms.Source YbeSms.Source.MinCheck Equiv

variable {n : Nat}

/-- In either encoding, with a diagonal or without. -/
theorem short_encoder_valid (hn : 3 ≤ n) {m : MinCheck n} (hm : m.Numbered) {cycset : CycleSet n}
    (hc : m.Consistent cycset) (p : Perm (Fin n))
    (hp : m.cfg.diagPart = true → ∀ x, p (m.diag x) = m.diag (p x)) {r c : Fin n}
    (hoff : m.cfg.diagPart = true → r ≠ c)
    (htied : ∀ q : Fin n × Fin n, toLex q < toLex (r, c) →
      (m.cfg.diagPart = true → q.1 ≠ q.2) → Tied cycset p q)
    {clause : Clause} (hthrow : m.addClausesShort cycset p r c = some clause)
    {N : Fin n → Fin n → Fin n} (hN : m.Admits N) (hle : rowMajor N ≤ rowMajor (act p N)) :
    m.HoldsIn clause N :=
  addClausesShort_holdsIn (roomy_of_le hn) hm hc p hp hoff htied hthrow hN hle

/-- `--size 3`: the full encoding without a diagonal. -/
def fullNoDiag : MinCheck 3 := ⟨{}, id, (encodeNoDiag {} 3).lits, false⟩

private def onlyValue : List Nat → Option (Fin n)
  | [v] => ofInt v
  | _ => none

/-- The state in which the cells have these values left, and all others are refused. -/
def leftOpen (values : List (List (List Nat))) : CycleSet n :=
  let cell := fun i j : Fin n => (values.getD i []).getD j []
  { matrix := fun i j => onlyValue (cell i j)
    assignments := fun i j v =>
      if v.val ∉ cell i j then .isFalse else if (cell i j).length = 1 then .isTrue else .unknown
    bitdomains := fun i j =>
      ⟨fun v => (cell i j).contains v.val, (cell i j).headD 0, (cell i j).length⟩ }

/-- The literals (0,0)=0, (0,1)=1, (1,0)=1 and (2,0)=0, once the rows and columns are closed. -/
def tiedState : CycleSet 3 :=
  leftOpen [[[0], [1], [2]], [[1], [0, 2], [0, 2]], [[0], [1, 2], [1, 2]]]

theorem tiedState_consistent {m : MinCheck 3} (hd : m.cfg.diagPart = false) :
    m.Consistent tiedState where
  exact := by decide +kernel
  nonempty := by decide +kernel
  isTrue := by decide +kernel
  isFalse := by decide +kernel
  assigned := by decide +kernel
  diagonal h := by
    rw [hd] at h
    cases h

/-- A cell and its image cell are tied when the values that are left correspond. -/
theorem tied_of_values {cycset : CycleSet n} {p : Perm (Fin n)} {q : Fin n × Fin n} {a : Fin n}
    (hcell : ∀ v, (cycset.bitdomains q.1 q.2).dom v = true ↔ v = a)
    (himage : ∀ v, (cycset.bitdomains (p q.1) (p q.2)).dom v = true ↔ v = p a) :
    Tied cycset p q := by
  refine Or.inr ⟨a, ⟨⟨p a, (himage _).mpr rfl, p.symm_apply_apply a⟩, ?_⟩, (hcell a).mpr rfl, ?_⟩
  · rintro _ ⟨w, hw, rfl⟩
    rw [(himage w).mp hw, p.symm_apply_apply]
  · exact fun v hv => ((hcell v).mp hv).ge

/-- The first row stays the same when 1 and 2 are exchanged. -/
theorem tiedState_tied (q : Fin 3 × Fin 3) (hq : toLex q < toLex (1, 0)) :
    Tied tiedState (swap 1 2) q := by
  obtain ⟨i, j⟩ := q
  have hi : i = 0 := by
    revert i j
    decide
  subst hi
  have hrow : ∀ j v, (tiedState.bitdomains 0 j).dom v = true ↔ v = j := by decide +kernel
  have himage : ∀ j v, (tiedState.bitdomains (swap 1 2 0) (swap 1 2 j)).dom v = true ↔
      v = swap 1 2 j := by decide +kernel
  exact tied_of_values (hrow j) (himage j)

/-- After that row the clause at (1,0): the row differs, or (1,0) has value 0 or (2,0) has not. -/
theorem short_encoder_valid_instance :
    fullNoDiag.HoldsIn [2, 4, -9, 10, -19] fun _ j => j :=
  short_encoder_valid (by decide) (m := fullNoDiag) rfl (tiedState_consistent rfl) (swap 1 2)
    (fun h => by cases h) (r := 1) (c := 0) (fun h => by cases h)
    (fun q hq _ => tiedState_tied q hq) (by decide +kernel)
    ⟨by unfold RowsPermute; decide, fun h => by cases h⟩
    (leastUnder_identityRows 1 (swap 1 2) (Commute.one_right _))

end YbeSms.Guarantees
