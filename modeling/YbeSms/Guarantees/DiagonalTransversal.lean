import YbeSms.Source.Diagonals

/-!
# The generated diagonals

Source: ybe-sms/src/useful.cpp:89-154; main.cpp:300-311; main_diagMaker.cpp:31-42.
-/

namespace YbeSms.Guarantees

open YbeSms.Library YbeSms.Source Equiv

variable {n : Nat}

/-- The list of diagonals is a transversal of the conjugacy classes in sorted form, and `part`
stays inside the vector it is given. -/
theorem diagonals_transversal (hn : 1 ≤ n) :
    (∃ v, partShared n n (List.range n) 0 [] = some (v, part n n [])) ∧
    (∀ f ∈ diagonals n, Function.Bijective f) ∧
    (∀ p : Perm (Fin n), ∃! d : Perm (Fin n), ⇑d ∈ diagonals n ∧ IsConj d p) ∧
    (diagonals n).Nodup ∧
    ∀ d : Perm (Fin n), ⇑d ∈ diagonals n → Layered d ∧
      ∀ x, ∃ first : Fin n, ∀ y,
        d.SameCycle x y ↔ first ≤ y ∧ y.val < first.val + cycleLength d x := by
  refine ⟨?_, fun f hf => ?_, existsUnique_diagonal hn, nodup_diagonals hn, fun d hd => ?_⟩
  · obtain ⟨v, hrun, -⟩ := @partShared_spec n n 0 (List.range n) [] hn (le_refl n)
      (by simp) (by simp)
    exact ⟨v, by simpa using hrun⟩
  · obtain ⟨sizes, hsizes, rfl⟩ := (mem_diagonals hn f).mp hf
    obtain ⟨d, hd, -⟩ := exists_diagonal hsizes.two_le hsizes.sum_le
    rw [← hd]
    exact d.bijective
  · have hlayered := layered_of_mem hn d hd
    refine ⟨hlayered, fun x => ?_⟩
    obtain ⟨first, hfirst, hsame⟩ := exists_isFirst d x
    refine ⟨first, fun y => ?_⟩
    have hlen : cycleLength d first = cycleLength d x := by
      obtain ⟨k, rfl⟩ := hsame
      exact (sameLength_iff _ _).mp (sameLength_zpow k first)
    rw [← hlen, Fin.le_def, ← hlayered.sameCycle_iff hfirst y]
    exact ⟨hsame.trans, hsame.symm.trans⟩

theorem diagonals_transversal_instance : (diagonals 4).Nodup ∧ (diagonals 4).length = 5 :=
  ⟨(diagonals_transversal (n := 4) (by decide)).2.2.2.1, by decide⟩

end YbeSms.Guarantees
