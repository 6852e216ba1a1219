import YbeSms.Source.WholeTable
import YbeSms.Abstract.Canonical

/-!
# Splitting by the diagonal

Source: ybe-sms/src/main.cpp:300-311; useful.cpp:89-154; minCheck_V2.cpp:46-284;
minCheckCommon.cpp:16-114. A run for each diagonal of the list, keeping what the
final check lets pass, meets every isomorphism class of cycle sets once. So does
the run without a diagonal.
-/

namespace YbeSms.Guarantees

open YbeSms.Library YbeSms.Abstract YbeSms.Source YbeSms.Source.MinCheck Equiv

variable {n : Nat}

/-- The check object of the run for one diagonal, under any other settings. -/
def diagonalCheck (cfg : Config) (before : Bool) (d : Fin n → Fin n) : MinCheck n :=
  let cfg := { cfg with diagPart := true }
  ⟨cfg, d, (encodeDiagonal cfg d).lits, before⟩

/-- The check object of the run without a diagonal. -/
def plainCheck (cfg : Config) (before : Bool) : MinCheck n :=
  let cfg := { cfg with diagPart := false }
  ⟨cfg, id, (encodeNoDiag cfg n).lits, before⟩

/-- What the run for the diagonal `d` reports. -/
structure ReportedAt (cfg : Config) (before : Bool) (d : Fin n → Fin n)
    (N : Fin n → Fin n → Fin n) : Prop where
  listed : d ∈ diagonals n
  diagonal : ∀ i, N i i = d i
  passes : (diagonalCheck cfg before d).PassesCheck N

theorem serves_diagonalCheck (hn : 1 ≤ n) (cfg : Config) (before : Bool) {d : Perm (Fin n)}
    (hd : ⇑d ∈ diagonals n) : Serves (diagonalCheck cfg before ⇑d) d where
  layered := layered_of_mem hn d hd
  diag _ := rfl
  plain h := by cases h

theorem serves_plainCheck (cfg : Config) (before : Bool) :
    Serves (plainCheck cfg before : MinCheck n) 1 where
  layered := layered_one n
  diag h := by cases h
  plain _ := rfl

/-- A cycle set passes for a listed diagonal when it is least under the symmetries of that
diagonal. -/
theorem reportedAt_iff (hn : 1 ≤ n) (cfg : Config) (before : Bool) (d : Perm (Fin n))
    {N : Fin n → Fin n → Fin n} (hN : IsCycleSet N) :
    ReportedAt cfg before ⇑d N ↔ ⇑d ∈ diagonals n ∧ (∀ i, N i i = d i) ∧ LeastUnder d N := by
  have hiff : ⇑d ∈ diagonals n → (∀ i, N i i = d i) →
      ((diagonalCheck cfg before ⇑d).PassesCheck N ↔ LeastUnder d N) := fun hd hdiag =>
    passesCheck_iff (serves_diagonalCheck hn cfg before hd) hn ⟨hN.rows, fun _ => hdiag⟩
  constructor
  · intro h
    exact ⟨h.listed, h.diagonal, (hiff h.listed h.diagonal).mp h.passes⟩
  · rintro ⟨hd, hdiag, hleast⟩
    exact ⟨hd, hdiag, (hiff hd hdiag).mpr hleast⟩

theorem plainPasses_iff (hn : 1 ≤ n) (cfg : Config) (before : Bool) {N : Fin n → Fin n → Fin n}
    (hN : IsCycleSet N) : (plainCheck cfg before).PassesCheck N ↔ LeastUnder 1 N :=
  passesCheck_iff (serves_plainCheck cfg before) hn ⟨hN.rows, fun h => by cases h⟩

/-- The listed functions are permutations. -/
theorem exists_perm_of_listed (hn : 1 ≤ n) {d : Fin n → Fin n} (hd : d ∈ diagonals n) :
    ∃ e : Perm (Fin n), ⇑e = d := by
  obtain ⟨sizes, hsizes, rfl⟩ := (mem_diagonals hn d).mp hd
  obtain ⟨e, he, -⟩ := exists_diagonal hsizes.two_le hsizes.sum_le
  exact ⟨e, he⟩

theorem existsUnique_reported (hn : 1 ≤ n) (cfg : Config) (before : Bool)
    {M : Fin n → Fin n → Fin n} (hM : IsCycleSet M) :
    ∃! dN : (Fin n → Fin n) × (Fin n → Fin n → Fin n),
      Isomorphic M dN.2 ∧ ReportedAt cfg before dN.1 dN.2 := by
  obtain ⟨⟨d, N⟩, ⟨hd, hiso, hdiag, hleast⟩, honly⟩ :=
    existsUnique_split (T := {d : Perm (Fin n) | ⇑d ∈ diagonals n})
      (existsUnique_diagonal hn) (M := M) (δ := Equiv.ofBijective _ hM.diagonal) (fun _ => rfl)
  refine ⟨(⇑d, N), ⟨hiso, ?_⟩, ?_⟩
  · exact (reportedAt_iff hn cfg before d (hM.of_isomorphic hiso)).mpr ⟨hd, hdiag, hleast⟩
  · rintro ⟨f, N'⟩ ⟨hiso', hreported⟩
    obtain ⟨e, rfl⟩ := exists_perm_of_listed hn hreported.listed
    obtain ⟨he, hdiag', hleast'⟩ :=
      (reportedAt_iff hn cfg before e (hM.of_isomorphic hiso')).mp hreported
    have hsame := honly (e, N') ⟨he, hiso', hdiag', hleast'⟩
    cases hsame
    rfl

theorem existsUnique_plain (hn : 1 ≤ n) (cfg : Config) (before : Bool)
    {M : Fin n → Fin n → Fin n} (hM : IsCycleSet M) :
    ∃! N, Isomorphic M N ∧ (plainCheck cfg before).PassesCheck N := by
  obtain ⟨N, ⟨⟨p, -, hp⟩, hleast⟩, honly⟩ := existsUnique_leastUnder 1 M
  refine ⟨N, ⟨⟨p, hp⟩, ?_⟩, ?_⟩
  · exact (plainPasses_iff hn cfg before (hM.of_isomorphic ⟨p, hp⟩)).mpr hleast
  · rintro N' ⟨⟨q, hq⟩, hpass⟩
    exact honly N' ⟨⟨q, Commute.one_right q, hq⟩,
      (plainPasses_iff hn cfg before (hM.of_isomorphic ⟨q, hq⟩)).mp hpass⟩

/-- Both modes meet every isomorphism class once, and so report the same number. -/
theorem splitting_exhaustive_irredundant (hn : 1 ≤ n) (cfg : Config) (before : Bool) :
    (∀ M : Fin n → Fin n → Fin n, IsCycleSet M →
      ∃! dN : (Fin n → Fin n) × (Fin n → Fin n → Fin n),
        Isomorphic M dN.2 ∧ ReportedAt cfg before dN.1 dN.2) ∧
    (∀ M : Fin n → Fin n → Fin n, IsCycleSet M →
      ∃! N, Isomorphic M N ∧ (plainCheck cfg before).PassesCheck N) ∧
    {dN : (Fin n → Fin n) × (Fin n → Fin n → Fin n) |
        IsCycleSet dN.2 ∧ ReportedAt cfg before dN.1 dN.2}.ncard =
      {N : Fin n → Fin n → Fin n |
        IsCycleSet N ∧ (plainCheck cfg before).PassesCheck N}.ncard := by
  refine ⟨fun M hM => existsUnique_reported hn cfg before hM,
    fun M hM => existsUnique_plain hn cfg before hM, ?_⟩
  apply ncard_eq_of_existsUnique fun dN N => Isomorphic dN.2 N
  · rintro ⟨d, M⟩ ⟨hM, -⟩
    obtain ⟨N, ⟨hiso, hpass⟩, honly⟩ := existsUnique_plain hn cfg before hM
    exact ⟨N, ⟨⟨hM.of_isomorphic hiso, hpass⟩, hiso⟩, fun N' hN' => honly N' ⟨hN'.2, hN'.1.2⟩⟩
  · rintro N ⟨hN, -⟩
    obtain ⟨dM, ⟨hiso, hreported⟩, honly⟩ := existsUnique_reported hn cfg before hN
    exact ⟨dM, ⟨⟨hN.of_isomorphic hiso, hreported⟩, hiso.symm⟩,
      fun dM' hdM' => honly dM' ⟨hdM'.2.symm, hdM'.1.2⟩⟩

/-- Both rows exchange the two points. -/
theorem splitting_exhaustive_irredundant_instance :
    ∃! N : Fin 2 → Fin 2 → Fin 2,
      Isomorphic (fun _ j => swap 0 1 j) N ∧ (plainCheck {} false).PassesCheck N :=
  (splitting_exhaustive_irredundant (by decide) {} false).2.1 _
    ⟨fun _ => (swap 0 1).bijective, (swap 0 1).bijective, fun _ _ _ => rfl⟩

end YbeSms.Guarantees
