import YbeSms.Source.WholeTable
import YbeSms.Guarantees.ShortEncoder

/-!
# The final minimality check

Source: ybe-sms/src/minCheck_V2.cpp:46-284; minCheckCommon.cpp:16-505;
solveGeneral.cpp:30-100. On a whole table `preCheck` and `MinCheck` throw a clause
if and only if relabelling by a symmetry of the diagonal makes the table smaller,
and the table does not satisfy that clause.
-/

namespace YbeSms.Guarantees

open YbeSms.Library YbeSms.Abstract YbeSms.Source YbeSms.Source.MinCheck Equiv

variable {n : Nat}

/-- With either encoder and either representation, whatever the limits. -/
theorem final_check_exact (hn : 1 ≤ n) (m : MinCheck n) (d : Perm (Fin n)) (hmode : InMode m d)
    (hm : m.Numbered) (M : Fin n → Fin n → Fin n) (cycset : CycleSet n) (h : m.Shows cycset M) :
    ((∃ clause, (m.run cycset true).result = .error (.clause clause)) ↔
      ∃ p : Perm (Fin n), Commute p d ∧ rowMajor (act p M) < rowMajor M) ∧
    ∀ clause, (m.run cycset true).result = .error (.clause clause) → m.FailsIn clause M := by
  have hs := hmode.serves hn
  refine ⟨⟨?_, ?_⟩, ?_⟩
  · rintro ⟨clause, hthrow⟩
    obtain ⟨-, -, hsmaller, -⟩ := beaten_of_error hs h hn hthrow
    exact hsmaller
  · rintro ⟨p, hp, hlt⟩
    cases hresult : (m.run cycset true).result with
    | ok u =>
      have hleast := (run_ok_iff hs h hn).mp hresult
      exact absurd (hleast p hp) (not_le.mpr hlt)
    | error s =>
      obtain ⟨clause, rfl, -, -⟩ := beaten_of_error hs h hn hresult
      exact ⟨clause, rfl⟩
  · intro clause hthrow
    obtain ⟨clause', hsame, -, hfails⟩ := beaten_of_error hs h hn hthrow
    cases hsame
    exact hfails hmode hm

/-- Identity rows but the first, which exchanges 0 and 2. -/
def firstMoved : Fin 3 → Fin 3 → Fin 3 := fun i j => if i.val = 0 then j.rev else j

/-- Exchanging 0 and 2 brings an identity row to the top. -/
theorem final_check_exact_instance :
    ∃ clause, (fullNoDiag.run (ofTable firstMoved) true).result = .error (.clause clause) ∧
      fullNoDiag.FailsIn clause firstMoved := by
  have hshows : fullNoDiag.Shows (ofTable firstMoved) firstMoved :=
    shows_ofTable ⟨by unfold RowsPermute; decide, fun h => by cases h⟩
  have hexact := final_check_exact (by decide) fullNoDiag 1 ⟨rfl, rfl⟩ rfl firstMoved
    (ofTable firstMoved) hshows
  have hsmaller : rowMajor (act (swap 0 2) firstMoved) < rowMajor firstMoved :=
    (rowMajor_lt_iff _ _).mpr ⟨(0, 0), by decide, by decide⟩
  obtain ⟨clause, hthrow⟩ := hexact.1.mpr ⟨swap 0 2, Commute.one_right _, hsmaller⟩
  exact ⟨clause, hthrow, hexact.2 clause hthrow⟩

end YbeSms.Guarantees
