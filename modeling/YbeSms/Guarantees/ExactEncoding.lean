import YbeSms.Source.YbeEncoding
import Mathlib.Data.Set.Basic

/-!
# The formulas describe exactly the cycle sets

Source: ybe-sms/src/clause.cpp:5-46, 84-286, 288-344; main.cpp:258-271.
An assignment of the entry variables extends to a model exactly when it is the
indicator of a cycle set (of the prescribed diagonal), whatever the auxiliary
variables of the commander encoding and of the identity are.
-/

namespace YbeSms.Guarantees

open YbeSms.Library YbeSms.Abstract YbeSms.Source

variable {n : Nat}

/-- The tables with permutation rows and diagonal `d` whose indicator satisfies the formula. -/
def describedTables (cfg : Config) (d : Fin n → Fin n) : Set (Fin n → Fin n → Fin n) :=
  {M | RowsPermute M ∧ (∀ i, M i i = d i) ∧
    ∃ σ, Indicates σ (encodeDiagonal cfg d).lits M ∧ Models σ (encodeDiagonal cfg d).cnf}

private theorem describedTables_eq (cfg : Config) (d : Equiv.Perm (Fin n)) :
    describedTables cfg d = {M | HasDiagonal d M} := by
  have hdesc := encodeDiagonal_describes cfg d d.injective
  have ht := encodeDiagonal_lits cfg d
  ext M
  constructor
  · rintro ⟨hrows, hd, σ, hM, hσ⟩
    obtain ⟨M', hcs, hM'⟩ := hdesc.sound σ hσ
    have heq : M' = M := by
      funext i j
      by_cases hij : i = j
      · rw [← hij, hcs.diagonal, hd]
      · have hoff : M i j ≠ d i := fun h => hij ((hrows i).1 (h.trans (hd i).symm)).symm
        have h0 := (ht.nonzero i j (M i j)).mpr (entryKept_offDiagonal cfg d i j _ hij hoff)
        exact (hM' i j _ h0).mp ((hM i j _ h0).mpr rfl)
    exact heq ▸ hcs
  · intro hcs
    obtain ⟨τ, hτ⟩ := ht.exists_indicates M
    obtain ⟨σ, hag, hσ⟩ := hdesc.complete τ M hcs hτ
    exact ⟨hcs.rows, hcs.diagonal, σ, (hag.indicates M).mp hτ, hσ⟩

/-- With a diagonal: models project exactly to the cycle sets with that diagonal, the clauses
are well formed, and the smaller encoding describes the same tables as the full one. -/
theorem diagonal_encoding_exact (cfg : Config) (d : Equiv.Perm (Fin n)) :
    (∀ ρ : Valuation,
      (∃ σ, EntriesAgree (encodeDiagonal cfg d).lits ρ σ ∧ Models σ (encodeDiagonal cfg d).cnf) ↔
        ∃ M, HasDiagonal d M ∧ Indicates ρ (encodeDiagonal cfg d).lits M) ∧
    describedTables { cfg with smallerEncoding := true } d =
      describedTables { cfg with smallerEncoding := false } d ∧
    ∀ c ∈ (encodeDiagonal cfg d).cnf, c ≠ [] ∧ (0 : Int) ∉ c := by
  have hdesc := encodeDiagonal_describes cfg d d.injective
  refine ⟨hdesc.extends_iff, ?_, fun c hc => ⟨(hdesc.wellFormed c hc).1, fun h => ?_⟩⟩
  · rw [describedTables_eq, describedTables_eq]
  · exact ((hdesc.wellFormed c hc).2 0 h).1 rfl

/-- Without a diagonal: the entries are numbered `1 .. n ^ 3` row by row, and models project
exactly to the non-degenerate cycle sets. -/
theorem plain_encoding_exact (cfg : Config) :
    (∀ i j k : Fin n, (encodeNoDiag cfg n).lits i j k = (i * n + j) * n + k + 1) ∧
    ∀ ρ : Valuation,
      (∃ σ, EntriesAgree (encodeNoDiag cfg n).lits ρ σ ∧ Models σ (encodeNoDiag cfg n).cnf) ↔
        ∃ M, IsCycleSet M ∧ Indicates ρ (encodeNoDiag cfg n).lits M :=
  ⟨numberEntries_all, (encodeNoDiag_describes cfg).extends_iff⟩

end YbeSms.Guarantees
