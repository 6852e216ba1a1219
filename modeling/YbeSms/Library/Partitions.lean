import Mathlib

/-!
# Nondecreasing lists of a given sum

The partitions of a number as nondecreasing lists, enumerated by their first
part, and the fact that such a list is known from its sum and its parts other
than 1.
-/

namespace YbeSms.Library

/-- The nondecreasing lists of sum `m` with parts from `lo` on; `rounds` bounds their length. -/
def ascendingSums : Nat → Nat → Nat → List (List Nat)
  | 0, _, _ => []
  | rounds + 1, m, lo =>
    [m] :: (List.range' lo (m / 2 + 1 - lo)).flatMap fun i =>
      (ascendingSums rounds (m - i) i).map (i :: ·)

theorem mem_ascendingSums {rounds m lo : Nat} (hlo : 1 ≤ lo) (hm : lo ≤ m) (hr : m ≤ rounds)
    (w : List Nat) :
    w ∈ ascendingSums rounds m lo ↔
      w.Pairwise (· ≤ ·) ∧ (∀ x ∈ w, lo ≤ x) ∧ w.sum = m := by
  induction rounds generalizing m lo w with
  | zero => omega
  | succ rounds ih =>
    simp only [ascendingSums, List.mem_cons, List.mem_flatMap, List.mem_map, List.mem_range'_1]
    constructor
    · rintro (rfl | ⟨i, hi, w', hw', rfl⟩)
      · simp [hm]
      · obtain ⟨hsorted, hle, hsum⟩ := (ih (by omega) (by omega) (by omega) w').mp hw'
        refine ⟨List.pairwise_cons.mpr ⟨hle, hsorted⟩, fun x hx => ?_, ?_⟩
        · rcases List.mem_cons.mp hx with rfl | hx
          · exact hi.1
          · have := hle x hx
            omega
        · rw [List.sum_cons, hsum]
          omega
    · rintro ⟨hsorted, hle, hsum⟩
      rcases w with _ | ⟨x, _ | ⟨y, rest⟩⟩
      · simp at hsum
        omega
      · exact Or.inl (by rw [← hsum]; simp)
      · right
        obtain ⟨hxy, hrest⟩ := List.pairwise_cons.mp hsorted
        have hx := hle x (by simp)
        have hxley := hxy y (by simp)
        simp only [List.sum_cons] at hsum
        refine ⟨x, by omega, y :: rest, ?_, rfl⟩
        refine (ih (by omega) (by omega) (by omega) _).mpr ⟨hrest, hxy, ?_⟩
        rw [List.sum_cons]
        omega

theorem nodup_ascendingSums {rounds m lo : Nat} (hlo : 1 ≤ lo) (hm : lo ≤ m) (hr : m ≤ rounds) :
    (ascendingSums rounds m lo).Nodup := by
  induction rounds generalizing m lo with
  | zero => exact List.nodup_nil
  | succ rounds ih =>
    refine List.nodup_cons.mpr ⟨fun hmem => ?_, List.nodup_flatMap.mpr ⟨fun i hi => ?_, ?_⟩⟩
    · simp only [List.mem_flatMap, List.mem_map, List.mem_range'_1] at hmem
      obtain ⟨i, hi, w, hw, heq⟩ := hmem
      obtain ⟨-, -, hsum⟩ := (mem_ascendingSums (by omega) (by omega) (by omega) w).mp hw
      obtain ⟨-, rfl⟩ := List.cons_eq_cons.mp heq
      simp at hsum
      omega
    · rw [List.mem_range'_1] at hi
      exact (ih (by omega) (by omega) (by omega)).map fun _ _ h => (List.cons_eq_cons.mp h).2
    · refine (List.nodup_range').imp fun {i j} hij => ?_
      simp only [Function.onFun, List.disjoint_left, List.mem_map]
      rintro _ ⟨w, -, rfl⟩ ⟨w', -, heq⟩
      exact hij (List.cons_eq_cons.mp heq).1.symm

/-- The ones come first. -/
theorem eq_ones_append {w : List Nat} (hsorted : w.Pairwise (· ≤ ·)) (hpos : ∀ x ∈ w, 1 ≤ x) :
    w = List.replicate (w.count 1) 1 ++ w.filter (· ≠ 1) := by
  induction w with
  | nil => rfl
  | cons x rest ih =>
    obtain ⟨hle, hrest⟩ := List.pairwise_cons.mp hsorted
    by_cases hx : x = 1
    · subst hx
      have hih := ih hrest fun y hy => hpos y (List.mem_cons_of_mem _ hy)
      rw [List.count_cons_self, List.replicate_succ, List.cons_append,
        List.filter_cons_of_neg (by simp), ← hih]
    · have hge := hpos x (by simp)
      have hall : ∀ y ∈ x :: rest, y ≠ 1 := by
        intro y hy
        rcases List.mem_cons.mp hy with rfl | hy
        · exact hx
        · have := hle y hy
          omega
      rw [List.count_eq_zero_of_not_mem fun h => hall 1 h rfl, List.filter_eq_self.mpr
        fun y hy => by simpa using hall y hy]
      rfl

theorem sum_eq_count_add {w : List Nat} (hsorted : w.Pairwise (· ≤ ·))
    (hpos : ∀ x ∈ w, 1 ≤ x) : w.sum = w.count 1 + (w.filter (· ≠ 1)).sum := by
  conv_lhs => rw [eq_ones_append hsorted hpos]
  simp

/-- The sum and the parts other than 1 determine the list. -/
theorem eq_of_filter_ones {w w' : List Nat} (hsorted : w.Pairwise (· ≤ ·))
    (hpos : ∀ x ∈ w, 1 ≤ x) (hsorted' : w'.Pairwise (· ≤ ·)) (hpos' : ∀ x ∈ w', 1 ≤ x)
    (hsum : w.sum = w'.sum) (hfilter : w.filter (· ≠ 1) = w'.filter (· ≠ 1)) : w = w' := by
  have h := sum_eq_count_add hsorted hpos
  have h' := sum_eq_count_add hsorted' hpos'
  rw [hfilter] at h
  rw [eq_ones_append hsorted hpos, eq_ones_append hsorted' hpos', hfilter,
    show w.count 1 = w'.count 1 by omega]

end YbeSms.Library
