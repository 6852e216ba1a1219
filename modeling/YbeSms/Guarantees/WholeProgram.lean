import YbeSms.Abstract.Classes
import YbeSms.Guarantees.DiagonalSplitting
import YbeSms.Guarantees.Enumeration

/-!
# What the program counts

Source: ybe-sms/src/main.cpp:256-413; useful.cpp:89-154; solveCadicalClass.cpp:210-220.
The rounds of the loop over the diagonals share nothing but the list their counts go
into, so each is a run of its own. With `--allModels` the tables written by all rounds
are one cycle set of each isomorphism class, and so are those of the one run without
`--diagPart`: both totals are the number of classes.
-/

namespace YbeSms.Guarantees

open YbeSms.Library YbeSms.Abstract YbeSms.Source YbeSms.Source.MinCheck Equiv

variable {n : Nat}

/-- What `main` hands to the solver without `--diagPart`. -/
def plainSession (cfg : Config) : Session n := ⟨{ cfg with diagPart := false }, id, id⟩

/-- What a round of the loop over the diagonals hands to its solver. -/
def diagonalSession (cfg : Config) (d : Fin n → Fin n) : Session n :=
  ⟨{ cfg with diagPart := true }, d, id⟩

/-- The sum of `numSols`, when the rounds end in the given states. -/
def totalModels (rounds : (Fin n → Fin n) → System n) : Nat :=
  ((diagonals n).map fun d => (rounds d).interface.nModels).sum

/-- The matrices written by all rounds. -/
def writtenBy (rounds : (Fin n → Fin n) → System n) : List (Fin n → Fin n → Option (Fin n)) :=
  (diagonals n).flatMap fun d => (rounds d).interface.output.map (·.matrix)

/-- The run came to its end. -/
def Finished (s : Session n) (before : Bool) (σ : System n) : Prop :=
  System.Reaches s before σ ∧ σ.ended = some 20

/-- What a finished run has written. -/
structure Written (s : Session n) (d : Perm (Fin n)) (σ : System n)
    (tables : List (Fin n → Fin n → Fin n)) : Prop where
  output : σ.interface.output.map (·.matrix) = tables.map shown
  count : σ.interface.nModels = tables.length
  nodup : tables.Nodup
  mem : ∀ M, M ∈ tables ↔ M ∈ wanted s d

theorem written_of_finished (hn : 1 ≤ n) {s : Session n} {before : Bool} {d : Perm (Fin n)}
    (hmode : InMode (s.mincheck before) d) (hf : s.cfg.fixedRow = 0)
    (hall : s.cfg.allModels = true) (hoff : s.cfg.checkSolutionInProp = false) {σ : System n}
    (h : Finished s before σ) : ∃ tables, Written s d σ tables := by
  obtain ⟨a, ha⟩ := lists_of_reaches hn hf hmode hall hoff h.1
  have hexact := Enumerator.exact_of_run ha.run
  exact ⟨a.reported, ha.written, ha.counted, hexact.reported_nodup,
    fun M => hexact.complete (ha.finished h.2) M⟩

section Settings

variable {cfg : Config} {before : Bool}

theorem mem_wanted_plain {M : Fin n → Fin n → Fin n} :
    M ∈ wanted (plainSession cfg) 1 ↔ IsCycleSet M ∧ LeastUnder 1 M := by
  simp [wanted, described, plainSession]

theorem mem_wanted_diagonal {d : Perm (Fin n)} {M : Fin n → Fin n → Fin n} :
    M ∈ wanted (diagonalSession cfg ⇑d) d ↔ HasDiagonal ⇑d M ∧ LeastUnder d M := by
  simp [wanted, described, diagonalSession]

/-- The least tables under all permutations. -/
theorem represents_plain {σ : System n} {tables : List (Fin n → Fin n → Fin n)}
    (h : Written (plainSession cfg) 1 σ tables) : Represents tables where
  nodup := h.nodup
  cycleSets M hM := (mem_wanted_plain.mp ((h.mem M).mp hM)).1
  once M hM := by
    obtain ⟨N, ⟨⟨p, -, hp⟩, hleast⟩, honly⟩ := existsUnique_leastUnder 1 M
    refine ⟨N, ⟨?_, p, hp⟩, ?_⟩
    · exact (h.mem N).mpr (mem_wanted_plain.mpr ⟨hM.of_isomorphic ⟨p, hp⟩, hleast⟩)
    · rintro N' ⟨hN', q, hq⟩
      exact honly N' ⟨⟨q, Commute.one_right q, hq⟩, (mem_wanted_plain.mp ((h.mem N').mp hN')).2⟩

/-- The least tables of all diagonals. -/
theorem represents_split (hn : 1 ≤ n) {rounds : (Fin n → Fin n) → System n}
    {tables : (Fin n → Fin n) → List (Fin n → Fin n → Fin n)}
    (h : ∀ d : Perm (Fin n), ⇑d ∈ diagonals n →
      Written (diagonalSession cfg ⇑d) d (rounds d) (tables d)) :
    Represents ((diagonals n).flatMap tables) := by
  have hmem : ∀ d : Perm (Fin n), ⇑d ∈ diagonals n → ∀ M,
      M ∈ tables d ↔ HasDiagonal ⇑d M ∧ LeastUnder d M := fun d hd M =>
    ((h d hd).mem M).trans mem_wanted_diagonal
  constructor
  · rw [List.nodup_flatMap]
    constructor
    · intro f hf
      obtain ⟨d, rfl⟩ := exists_perm_of_listed hn hf
      exact (h d hf).nodup
    · apply (nodup_diagonals hn).pairwise_of_forall_ne
      intro f hf g hg hne M hMf hMg
      obtain ⟨d, rfl⟩ := exists_perm_of_listed hn hf
      obtain ⟨e, rfl⟩ := exists_perm_of_listed hn hg
      apply hne
      funext i
      rw [← ((hmem d hf M).mp hMf).1.diagonal i, ← ((hmem e hg M).mp hMg).1.diagonal i]
  · intro M hM
    obtain ⟨f, hf, hMf⟩ := List.mem_flatMap.mp hM
    obtain ⟨d, rfl⟩ := exists_perm_of_listed hn hf
    exact ((hmem d hf M).mp hMf).1.isCycleSet d.bijective
  · intro M hM
    obtain ⟨⟨d, N⟩, ⟨hd, hiso, hdiag, hleast⟩, honly⟩ :=
      existsUnique_split (T := {d : Perm (Fin n) | ⇑d ∈ diagonals n})
        (existsUnique_diagonal hn) (M := M) (δ := Equiv.ofBijective _ hM.diagonal) (fun _ => rfl)
    have hN := hM.of_isomorphic hiso
    refine ⟨N, ⟨List.mem_flatMap.mpr ⟨⇑d, hd, ?_⟩, hiso⟩, ?_⟩
    · exact (hmem d hd N).mpr ⟨⟨hN.rows, hdiag, hN.identity⟩, hleast⟩
    · rintro N' ⟨hN', hiso'⟩
      obtain ⟨f, hf, hNf⟩ := List.mem_flatMap.mp hN'
      obtain ⟨e, rfl⟩ := exists_perm_of_listed hn hf
      obtain ⟨hhas, hleast'⟩ := (hmem e hf N').mp hNf
      have hsame := honly (e, N') ⟨hf, hiso', hhas.diagonal, hleast'⟩
      cases hsame
      rfl

/-- The finished rounds of the loop have written the least tables of their diagonals. -/
theorem written_of_rounds (hn : 1 ≤ n) {before : (Fin n → Fin n) → Bool}
    (hf : cfg.fixedRow = 0) (hall : cfg.allModels = true)
    (hoff : cfg.checkSolutionInProp = false) {rounds : (Fin n → Fin n) → System n}
    (h : ∀ d ∈ diagonals n, Finished (diagonalSession cfg d) (before d) (rounds d)) :
    ∃ tables : (Fin n → Fin n) → List (Fin n → Fin n → Fin n),
      ∀ d : Perm (Fin n), ⇑d ∈ diagonals n →
        Written (diagonalSession cfg ⇑d) d (rounds d) (tables d) := by
  have hround : ∀ f, f ∈ diagonals n → ∃ tables, ∀ d : Perm (Fin n), ⇑d = f →
      Written (diagonalSession cfg f) d (rounds f) tables := by
    intro f hlisted
    obtain ⟨d, rfl⟩ := exists_perm_of_listed hn hlisted
    have hmode : InMode ((diagonalSession cfg ⇑d).mincheck (before ⇑d)) d := ⟨hlisted, rfl⟩
    obtain ⟨tables, hwritten⟩ := written_of_finished hn hmode hf hall hoff (h _ hlisted)
    refine ⟨tables, fun e he => ?_⟩
    rwa [DFunLike.coe_injective he]
  choose! tables htables using hround
  exact ⟨tables, fun d hd => htables d hd d rfl⟩

section Rounds

variable {rounds : (Fin n → Fin n) → System n}
  {tables : (Fin n → Fin n) → List (Fin n → Fin n → Fin n)}

theorem writtenBy_eq (hn : 1 ≤ n)
    (h : ∀ d : Perm (Fin n), ⇑d ∈ diagonals n →
      Written (diagonalSession cfg ⇑d) d (rounds d) (tables d)) :
    writtenBy rounds = ((diagonals n).flatMap tables).map shown := by
  rw [writtenBy, List.map_flatMap]
  apply List.flatMap_congr
  intro f hlisted
  obtain ⟨d, rfl⟩ := exists_perm_of_listed hn hlisted
  exact (h d hlisted).output

theorem totalModels_eq (hn : 1 ≤ n)
    (h : ∀ d : Perm (Fin n), ⇑d ∈ diagonals n →
      Written (diagonalSession cfg ⇑d) d (rounds d) (tables d)) :
    totalModels rounds = classes (Fin n) := by
  rw [← (represents_split hn h).length_eq, List.length_flatMap, totalModels]
  apply congrArg List.sum
  apply List.map_congr_left
  intro f hlisted
  obtain ⟨d, rfl⟩ := exists_perm_of_listed hn hlisted
  exact (h d hlisted).count

end Rounds

end Settings

/-- With `--diagPart`: when the rounds for all diagonals have finished, they have written one cycle
set of each class, and the total is the number of classes. -/
theorem split_counts_classes (hn : 1 ≤ n) (cfg : Config) (before : (Fin n → Fin n) → Bool)
    (hf : cfg.fixedRow = 0) (hall : cfg.allModels = true)
    (hoff : cfg.checkSolutionInProp = false) (rounds : (Fin n → Fin n) → System n)
    (h : ∀ d ∈ diagonals n, Finished (diagonalSession cfg d) (before d) (rounds d)) :
    ∃ tables : List (Fin n → Fin n → Fin n), Represents tables ∧
      writtenBy rounds = tables.map shown ∧ totalModels rounds = classes (Fin n) := by
  obtain ⟨tables, hwritten⟩ := written_of_rounds hn hf hall hoff h
  exact ⟨_, represents_split hn hwritten, writtenBy_eq hn hwritten, totalModels_eq hn hwritten⟩

/-- The rounds of `--size 3 --diagPart --allModels` can all finish, that for the identity after its
check has refused a table. -/
theorem three_rounds : ∃ rounds : (Fin 3 → Fin 3) → System 3,
    (∀ d ∈ diagonals 3, Finished (diagonalSession { allModels := true } d) false (rounds d)) ∧
      (rounds id).interface.nModels < (rounds id).checks := by
  have hround : ∀ f, f ∈ diagonals 3 → ∃ σ : System 3,
      Finished (diagonalSession { allModels := true } f) false σ ∧
        (f = id → σ.interface.nModels < σ.checks) := by
    intro f hlisted
    obtain ⟨d, rfl⟩ := exists_perm_of_listed (by decide) hlisted
    have hmode : InMode ((diagonalSession { allModels := true } ⇑d).mincheck false) d :=
      ⟨hlisted, rfl⟩
    by_cases hid : d = 1
    · subst hid
      obtain ⟨σ, hreached, hended, hrefused⟩ := exists_finished (by decide) rfl hmode rfl
        (System.permits_all _) turned turned_hasDiagonal
      exact ⟨σ, ⟨hreached.reaches, hended⟩,
        fun _ => hrefused fun hwanted => turned_not_least hwanted.2⟩
    · -- all rows are the diagonal
      have hrows : HasDiagonal ⇑d fun _ j => d j :=
        ⟨fun _ => d.bijective, fun _ => rfl, fun _ _ _ => rfl⟩
      obtain ⟨σ, hreached, hended, -⟩ := exists_finished (by decide) rfl hmode rfl
        (System.permits_all _) (fun _ j => d j) hrows
      exact ⟨σ, ⟨hreached.reaches, hended⟩, fun heq => absurd (DFunLike.coe_injective heq) hid⟩
  have : Nonempty (System 3) := ⟨System.start (three true false)⟩
  choose! rounds hfinished hrefused using hround
  exact ⟨rounds, hfinished, hrefused id (by decide) rfl⟩

/-- The rounds of size 3 with a refused table. -/
theorem split_counts_classes_instance : ∃ rounds : (Fin 3 → Fin 3) → System 3,
    (∀ d ∈ diagonals 3, Finished (diagonalSession { allModels := true } d) false (rounds d)) ∧
      (rounds id).interface.nModels < (rounds id).checks ∧
      totalModels rounds = classes (Fin 3) := by
  obtain ⟨rounds, hfinished, hrefused⟩ := three_rounds
  obtain ⟨-, -, -, htotal⟩ := split_counts_classes (by decide) { allModels := true }
    (fun _ => false) rfl rfl rfl rounds hfinished
  exact ⟨rounds, hfinished, hrefused, htotal⟩

/-- Without `--diagPart`: a finished run has written one cycle set of each class; finished rounds of
the loop over the diagonals give the same total, under either encoding. -/
theorem plain_counts_classes (hn : 1 ≤ n) (cfg : Config) (before : Bool)
    (hfull : cfg.smallerEncoding = false) (hf : cfg.fixedRow = 0) (hall : cfg.allModels = true)
    (hoff : cfg.checkSolutionInProp = false) (σ : System n)
    (h : Finished (plainSession cfg) before σ) :
    (∃ tables : List (Fin n → Fin n → Fin n), Represents tables ∧
      σ.interface.output.map (·.matrix) = tables.map shown) ∧
    σ.interface.nModels = classes (Fin n) ∧
    ∀ (cfg' : Config) (before' : (Fin n → Fin n) → Bool) (rounds : (Fin n → Fin n) → System n),
      cfg'.fixedRow = 0 → cfg'.allModels = true → cfg'.checkSolutionInProp = false →
      (∀ d ∈ diagonals n, Finished (diagonalSession cfg' d) (before' d) (rounds d)) →
      totalModels rounds = σ.interface.nModels := by
  have hmode : InMode ((plainSession cfg : Session n).mincheck before) 1 := ⟨rfl, hfull⟩
  obtain ⟨tables, hwritten⟩ := written_of_finished hn hmode hf hall hoff h
  have hrepresents := represents_plain hwritten
  have hcount : σ.interface.nModels = classes (Fin n) :=
    hwritten.count.trans hrepresents.length_eq
  refine ⟨⟨tables, hrepresents, hwritten.output⟩, hcount, ?_⟩
  intro cfg' before' rounds hf' hall' hoff' hrounds
  obtain ⟨tables', hwritten'⟩ := written_of_rounds hn hf' hall' hoff' hrounds
  rw [hcount]
  exact totalModels_eq hn hwritten'

/-- A run of `--size 3 --allModels` with a refused table, and the rounds over the diagonals. -/
theorem plain_counts_classes_instance : ∃ (σ : System 3) (rounds : (Fin 3 → Fin 3) → System 3),
    Finished (plainSession { allModels := true }) false σ ∧
      σ.interface.nModels < σ.checks ∧ σ.interface.nModels = classes (Fin 3) ∧
      (∀ d ∈ diagonals 3, Finished (diagonalSession { allModels := true } d) false (rounds d)) ∧
      totalModels rounds = σ.interface.nModels := by
  obtain ⟨σ, hreached, hended, hrefused⟩ := three_finished false (System.permits_all _)
  obtain ⟨rounds, hrounds, -⟩ := three_rounds
  obtain ⟨-, hcount, hsame⟩ := plain_counts_classes (by decide) { allModels := true } false rfl rfl
    rfl rfl σ ⟨hreached.reaches, hended⟩
  exact ⟨σ, rounds, ⟨hreached.reaches, hended⟩, hrefused, hcount, hrounds,
    hsame { allModels := true } (fun _ => false) rounds rfl rfl rfl hrounds⟩

end YbeSms.Guarantees
