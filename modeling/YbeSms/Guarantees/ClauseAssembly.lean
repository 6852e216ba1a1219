import YbeSms.Source.MarkSpec
import YbeSms.Source.CadicalSolver
import Mathlib.Data.Set.Card

/-!
# Clauses assembled from marks

Source: ybe-sms/src/minCheckCommon.cpp:264-318; domains.cpp:233-273; main.cpp:97-101,
216-262. `--smallerEncoding` is accepted without a diagonal. There `toClause` still
takes a cell with `n - 2` marks for one whose negation is short, although two
values and not one are left out.
-/

namespace YbeSms.Guarantees

open YbeSms.Library YbeSms.Abstract YbeSms.Source YbeSms.Source.MinCheck

variable {n : Nat}

/-- Positive marks in their order, then the negated mark if there is one. -/
def assembled (m : MinCheck n) (cycset : CycleSet n) (pos : List (Entry n))
    (neg : Option (Entry n)) : Marks n :=
  let marks := pos.foldl (fun marks e => addPositive marks e.1 e.2.1 e.2.2) fun _ => .empty
  match neg with
  | some e => m.addNegative cycset marks e.1 e.2.1 e.2.2
  | none => marks

/-- Positive marks stand on values outside their domains, off the diagonal and its values; a
negated mark stands on a value of an unassigned cell's domain. -/
structure Allowed (m : MinCheck n) (cycset : CycleSet n) (pos : List (Entry n))
    (neg : Option (Entry n)) : Prop where
  outside : ∀ e ∈ pos, (cycset.bitdomains e.1 e.2.1).dom e.2.2 = false
  offDiagonal : m.cfg.diagPart = true → ∀ e ∈ pos, e.1 ≠ e.2.1 ∧ e.2.2 ≠ m.diag e.1
  inside : ∀ e ∈ neg, cycset.matrix e.1 e.2.1 = none ∧
    (cycset.bitdomains e.1 e.2.1).dom e.2.2 = true

/-- What the marks ask of a table: a positive one holds or the negated one does not. -/
def Said (pos : List (Entry n)) (neg : Option (Entry n)) (N : Fin n → Fin n → Fin n) : Prop :=
  (∃ e ∈ pos, N e.1 e.2.1 = e.2.2) ∨ ∃ e ∈ neg, N e.1 e.2.1 ≠ e.2.2

/-- The emitted clause has no literal 0 and says what the marks say. -/
def MeaningPreserved (m : MinCheck n) (cycset : CycleSet n) (pos : List (Entry n))
    (neg : Option (Entry n)) : Prop :=
  (0 : Int) ∉ m.toClause cycset (assembled m cycset pos neg) ∧
  ∀ N, m.Admits N → ∀ τ, Indicates τ m.cycsetLits N →
    (ClauseTrue τ (m.toClause cycset (assembled m cycset pos neg)) ↔ Said pos neg N)

/-- The marks left of the sequence: a negated mark erases its value in other columns and sets
the other values of its cell. -/
def Kept (m : MinCheck n) (cycset : CycleSet n) (pos : List (Entry n)) (neg : Option (Entry n))
    (r c v : Fin n) : Prop :=
  (∃ e ∈ neg, r = e.1 ∧ c = e.2.1 ∧ m.Expands cycset e.1 e.2.2 v) ∨
    ((r, c, v) ∈ pos ∧ ∀ e ∈ neg, ¬ (r = e.1 ∧ v = e.2.2 ∧ m.Erases cycset e.2.1 c))

/-- In the smaller encoding without a diagonal, a table that has none of what the marks say finds
in every cell with `n - 2` marks left no value, besides its own, that `toClause` would negate. -/
def NeverMisread (m : MinCheck n) (cycset : CycleSet n) (pos : List (Entry n))
    (neg : Option (Entry n)) : Prop :=
  m.cfg.smallerEncoding = true → m.cfg.diagPart = false →
    ∀ N : Fin n → Fin n → Fin n, RowsPermute N → ¬ Said pos neg N →
      ∀ r c, ({v | Kept m cycset pos neg r c v} : Set (Fin n)).ncard = n - 2 →
        ∀ i, ¬ Kept m cycset pos neg r c i → i ≠ N r c → cycset.matrix r r = some i

section Assembled

variable {m : MinCheck n} {cycset : CycleSet n} {pos : List (Entry n)} {neg : Option (Entry n)}

private theorem foldl_addPositive (pos : List (Entry n)) {marks : Marks n} (ht : Tidy marks) :
    Tidy (pos.foldl (fun marks e => addPositive marks e.1 e.2.1 e.2.2) marks) ∧
    ∀ r c v, Marked (pos.foldl (fun marks e => addPositive marks e.1 e.2.1 e.2.2) marks) r c v ↔
      (r, c, v) ∈ pos ∨ Marked marks r c v := by
  induction pos generalizing marks with
  | nil => exact ⟨ht, fun r c v => by simp⟩
  | cons e rest ih =>
    obtain ⟨htidy, hmarked⟩ := ih (ht.addPositive e.1 e.2.1 e.2.2)
    refine ⟨htidy, fun r c v => ?_⟩
    rw [List.foldl_cons, hmarked, marked_addPositive, List.mem_cons]
    have heq : ((r, c, v) : Entry n) = e ↔ r = e.1 ∧ c = e.2.1 ∧ v = e.2.2 := by
      simp [Prod.ext_iff]
    rw [heq]
    tauto

/-- The marks before the negated one. -/
private theorem positive_spec (pos : List (Entry n)) :
    Tidy (pos.foldl (fun marks e => addPositive marks e.1 e.2.1 e.2.2) fun _ => .empty) ∧
    ∀ r c v, Marked (pos.foldl (fun marks e => addPositive marks e.1 e.2.1 e.2.2)
      fun _ => .empty) r c v ↔ (r, c, v) ∈ pos := by
  obtain ⟨ht, hmarked⟩ := foldl_addPositive pos tidy_empty
  refine ⟨ht, fun r c v => ?_⟩
  rw [hmarked, or_iff_left (not_marked_empty r c v)]

theorem tidy_assembled (m : MinCheck n) (cycset : CycleSet n) (pos : List (Entry n))
    (neg : Option (Entry n)) : Tidy (assembled m cycset pos neg) := by
  cases neg with
  | none => exact (positive_spec pos).1
  | some e => exact (positive_spec pos).1.addNegative m cycset e.1 e.2.1 e.2.2

theorem marked_assembled (m : MinCheck n) (cycset : CycleSet n) (pos : List (Entry n))
    (neg : Option (Entry n)) (r c v : Fin n) :
    Marked (assembled m cycset pos neg) r c v ↔ Kept m cycset pos neg r c v := by
  obtain ⟨ht, hmarked⟩ := positive_spec pos
  cases neg with
  | none =>
    unfold assembled Kept
    simp only [hmarked, Option.mem_def, reduceCtorEq, false_and, exists_false, false_or,
      IsEmpty.forall_iff, implies_true, and_true]
  | some e =>
    unfold assembled Kept
    simp only [m.marked_addNegative cycset ht, hmarked, Option.mem_def, Option.some.injEq,
      exists_eq_left', forall_eq']

theorem ncard_kept (m : MinCheck n) (cycset : CycleSet n) (pos : List (Entry n))
    (neg : Option (Entry n)) (r c : Fin n) :
    ({v | Kept m cycset pos neg r c v} : Set (Fin n)).ncard =
      countBits ((assembled m cycset pos neg r).row c).dom := by
  unfold countBits
  rw [← Set.ncard_coe_finset]
  congr 1
  ext v
  rw [Set.mem_ofPred_eq, ← marked_assembled]
  simp [Marked]

theorem written_assembled (hm : m.Numbered) (hc : m.Consistent cycset)
    (h : Allowed m cycset pos neg) : m.Written (assembled m cycset pos neg) := by
  intro r c v hmark
  rw [hm.nonzero]
  intro hd hs
  rw [marked_assembled] at hmark
  rcases hmark with ⟨e, he, rfl, rfl, hx⟩ | ⟨hpos, -⟩
  · -- the diagonal cells are assigned, and a negated mark spares their values
    constructor
    · intro heq
      have hfree := (h.inside e he).1
      rw [← heq, hc.diagonal hd] at hfree
      cases hfree
    · intro heq
      apply hx.2 hs
      rw [hc.diagonal hd, heq]
  · exact h.offDiagonal hd _ hpos

/-- Some cell's clause holds wherever the marks say so. -/
theorem exists_cellTrue_of_said (hn : m.Roomy) (h : Allowed m cycset pos neg)
    {N : Fin n → Fin n → Fin n} (hN : RowsPermute N) (hsaid : Said pos neg N) :
    ∃ r c, m.CellTrue cycset (assembled m cycset pos neg) N r c := by
  obtain ⟨ht, hmarked⟩ := positive_spec pos
  have hmark : (∃ e ∈ pos, N e.1 e.2.1 = e.2.2) → ∃ r c, Marked
      (pos.foldl (fun marks e => addPositive marks e.1 e.2.1 e.2.2) fun _ => .empty) r c
        (N r c) := by
    rintro ⟨⟨r, c, v⟩, he, hval⟩
    refine ⟨r, c, ?_⟩
    have hval' : N r c = v := hval
    rw [hmarked, hval']
    exact he
  cases neg with
  | none =>
    obtain ⟨r, c, hrc⟩ := hmark (hsaid.resolve_right (by simp))
    exact ⟨r, c, cellTrue_of_marked hn hrc⟩
  | some e =>
    apply exists_cellTrue_addNegative hn ht hN
    · rw [hmarked]
      intro he
      have hin := (h.inside e rfl).2
      rw [h.outside _ he] at hin
      cases hin
    · exact hsaid.imp hmark (by simp)

/-- A marked value in the table is something the marks say. -/
theorem said_of_marked {N : Fin n → Fin n → Fin n} {r c : Fin n}
    (h : Marked (assembled m cycset pos neg) r c (N r c)) : Said pos neg N := by
  rw [marked_assembled] at h
  rcases h with ⟨e, he, rfl, rfl, hx⟩ | ⟨hpos, -⟩
  · exact Or.inr ⟨e, he, hx.1⟩
  · exact Or.inl ⟨_, hpos, rfl⟩

end Assembled

/-- The clause says what the marks say exactly when no cell is misread. -/
theorem clause_assembly_exact (hn : 3 ≤ n) {m : MinCheck n} (hm : m.Numbered)
    {cycset : CycleSet n} (hc : m.Consistent cycset) {pos : List (Entry n)}
    {neg : Option (Entry n)} (h : Allowed m cycset pos neg) :
    MeaningPreserved m cycset pos neg ↔ NeverMisread m cycset pos neg := by
  have ht := tidy_assembled m cycset pos neg
  have hw := written_assembled hm hc h
  obtain ⟨hzero, hmeans⟩ := toClause_spec hm ht hw (roomy_of_le hn) hc.diagonal
  constructor
  · rintro ⟨-, hpreserved⟩ hs hd N hN hsaid r c hcount i hi hne
    have hadmits : m.Admits N := ⟨hN, fun hd' => by rw [hd] at hd'; cases hd'⟩
    obtain ⟨hi', htable⟩ := hm.table
    obtain ⟨τ, hτ⟩ := htable.exists_indicates N
    have hfalse := mt (hpreserved N hadmits τ hτ).mp hsaid
    rw [hmeans τ N hτ] at hfalse
    by_contra hother
    apply hfalse
    refine ⟨r, c, ?_⟩
    unfold CellTrue
    rw [if_pos ⟨hs, by rw [← ncard_kept]; exact hcount⟩]
    exact ⟨i, Ne.symm hother, by rwa [marked_assembled], hne⟩
  · intro hnever
    refine ⟨hzero, fun N hN τ hτ => ?_⟩
    rw [hmeans τ N hτ]
    constructor
    · rintro ⟨r, c, hcell⟩
      by_cases hmode : m.cfg.smallerEncoding = true → m.cfg.diagPart = true
      · exact said_of_marked ((cellTrue_iff_marked hm (roomy_of_le hn) hw hc.diagonal hmode hN r c).mp hcell)
      · push Not at hmode
        have hd : m.cfg.diagPart = false := by simpa using hmode.2
        by_contra hsaid
        unfold CellTrue at hcell
        split at hcell
        next htwo =>
          obtain ⟨i, hi, hun, hne⟩ := hcell
          apply hi
          rw [marked_assembled] at hun
          refine (hnever hmode.1 hd N hN.rows hsaid r c ?_ i hun hne).symm
          rw [ncard_kept]
          exact htwo.2
        next => exact hsaid (said_of_marked hcell)
    · exact exists_cellTrue_of_said (roomy_of_le hn) h hN.rows

/-- `--size 3 --smallerEncoding`. -/
def smallNoDiag : MinCheck 3 :=
  ⟨{ smallerEncoding := true }, id, (encodeNoDiag { smallerEncoding := true } 3).lits, false⟩

/-- The only assigned literal is `-1`: cell (0,0) does not have value 0. -/
def zeroRefused : CycleSet 3 := (CycleSet.init 3).assign (0, 0, 0) false

theorem smallNoDiag_numbered : smallNoDiag.Numbered := rfl

theorem zeroRefused_consistent : smallNoDiag.Consistent zeroRefused where
  exact i j := by
    have hstart : (BitDomain.ofInit true : BitDomain 3).Exact := BitDomain.Exact.ofInit (by decide) true
    unfold zeroRefused CycleSet.assign CycleSet.init
    simp only [Bool.false_eq_true, if_false]
    split
    · exact hstart.reset 0
    · exact hstart
  nonempty := by decide
  isTrue := by decide
  isFalse := by decide
  assigned := by decide
  diagonal h := by cases h

theorem zeroRefused_allowed : Allowed smallNoDiag zeroRefused [(0, 0, 0)] none where
  outside := by decide
  offDiagonal h := by cases h
  inside e he := by cases he

theorem clause_assembly_exact_instance :
    MeaningPreserved smallNoDiag zeroRefused [(0, 0, 0)] none ↔
      NeverMisread smallNoDiag zeroRefused [(0, 0, 0)] none :=
  clause_assembly_exact (by decide) smallNoDiag_numbered zeroRefused_consistent
    zeroRefused_allowed

/-- One mark is `n - 2` marks: the clause for "(0,0) has value 0" becomes "(0,0) has not both
value 1 and value 2", which every table satisfies. -/
theorem clause_assembly_misreads :
    smallNoDiag.Numbered ∧ smallNoDiag.Consistent zeroRefused ∧
    Allowed smallNoDiag zeroRefused [(0, 0, 0)] none ∧
    smallNoDiag.toClause zeroRefused (assembled smallNoDiag zeroRefused [(0, 0, 0)] none) =
      [-2, -3] ∧
    ¬ MeaningPreserved smallNoDiag zeroRefused [(0, 0, 0)] none := by
  have hclause : smallNoDiag.toClause zeroRefused
      (assembled smallNoDiag zeroRefused [(0, 0, 0)] none) = [-2, -3] := by decide +kernel
  refine ⟨smallNoDiag_numbered, zeroRefused_consistent, zeroRefused_allowed, hclause, ?_⟩
  intro h
  -- every row of the table is the shift by one
  have hN : smallNoDiag.Admits fun _ j => j + 1 :=
    ⟨by unfold RowsPermute; decide, fun h => by cases h⟩
  obtain ⟨hi, htable⟩ := smallNoDiag_numbered.table
  obtain ⟨τ, hτ⟩ := htable.exists_indicates fun _ j => j + 1
  have hlit : LitTrue τ (-3) := by
    have h3 : smallNoDiag.cycsetLits 0 0 2 = 3 := by decide +kernel
    rw [← h3, smallNoDiag_numbered.litTrue_neg hτ (by rw [h3]; decide)]
    decide
  have hsaid := (h.2 _ hN τ hτ).mp (by rw [hclause]; exact ⟨-3, by simp, hlit⟩)
  revert hsaid
  unfold Said
  decide

end YbeSms.Guarantees
