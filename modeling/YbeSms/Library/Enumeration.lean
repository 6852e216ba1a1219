import Mathlib.Data.Set.Card
import Mathlib.Data.Set.Finite.List
import Mathlib.Logic.Relation

/-!
# Enumeration by exclusion

A search examines candidates that no constraint refuses. A candidate outside the
target is rejected with a constraint that all targets meet; a target is reported
and excluded alone. Whatever the order, no candidate is examined twice, the
reported ones are targets, and when no candidate meets all constraints every
target has been reported.
-/

namespace YbeSms.Library

/-- What an enumeration has added and seen so far. -/
structure Enumerator (X C : Type) where
  constraints : Set C
  examined : List X
  reported : List X

namespace Enumerator

variable {X C : Type} {Holds Fails : C → X → Prop} {domain target : Set X}

/-- Nothing added, nothing seen. -/
def start : Enumerator X C := ⟨∅, [], []⟩

/-- One candidate is examined. -/
inductive Examines (Holds Fails : C → X → Prop) (domain target : Set X) (a : Enumerator X C) :
    Enumerator X C → Prop
  | report (x : X) (c : C) (hx : x ∈ domain) (htarget : x ∈ target)
      (hfree : ∀ b ∈ a.constraints, ¬ Fails b x) (hfails : Fails c x)
      (hrest : ∀ y ∈ target, y ≠ x → Holds c y) :
      Examines Holds Fails domain target a
        ⟨insert c a.constraints, a.examined ++ [x], a.reported ++ [x]⟩
  | reject (x : X) (c : C) (hx : x ∈ domain) (htarget : x ∉ target)
      (hfree : ∀ b ∈ a.constraints, ¬ Fails b x) (hfails : Fails c x)
      (hrest : ∀ y ∈ target, Holds c y) :
      Examines Holds Fails domain target a
        ⟨insert c a.constraints, a.examined ++ [x], a.reported⟩

/-- What holds after every step. -/
structure Exact (Holds Fails : C → X → Prop) (domain target : Set X) (a : Enumerator X C) :
    Prop where
  inside : ∀ x ∈ a.examined, x ∈ domain
  excluded : ∀ x ∈ a.examined, ∃ c ∈ a.constraints, Fails c x
  nodup : a.examined.Nodup
  reported : ∀ x, x ∈ a.reported ↔ x ∈ a.examined ∧ x ∈ target
  order : a.reported.Sublist a.examined
  kept : ∀ y ∈ target, y ∉ a.reported → ∀ c ∈ a.constraints, Holds c y

theorem exact_start : (start : Enumerator X C).Exact Holds Fails domain target where
  inside _ hx := absurd hx List.not_mem_nil
  excluded _ hx := absurd hx List.not_mem_nil
  nodup := List.nodup_nil
  reported _ := by simp [start]
  order := List.nil_sublist _
  kept _ _ _ _ hc := hc.elim

/-- A candidate that no constraint refuses is new. -/
theorem Exact.not_examined {a : Enumerator X C} (h : a.Exact Holds Fails domain target) {x : X}
    (hfree : ∀ b ∈ a.constraints, ¬ Fails b x) : x ∉ a.examined := by
  intro hx
  obtain ⟨c, hc, hfails⟩ := h.excluded x hx
  exact hfree c hc hfails

/-- Appending a new candidate keeps what is said about the examined ones. -/
private theorem examined_step {a : Enumerator X C} (h : a.Exact Holds Fails domain target) {x : X}
    {c : C} (hx : x ∈ domain) (hfree : ∀ b ∈ a.constraints, ¬ Fails b x) (hfails : Fails c x) :
    (∀ y ∈ a.examined ++ [x], y ∈ domain) ∧
      (∀ y ∈ a.examined ++ [x], ∃ b ∈ insert c a.constraints, Fails b y) ∧
      (a.examined ++ [x]).Nodup := by
  refine ⟨fun y hy => ?_, fun y hy => ?_, ?_⟩
  · rcases List.mem_append.mp hy with hy | hy
    · exact h.inside y hy
    · rwa [List.mem_singleton.mp hy]
  · rcases List.mem_append.mp hy with hy | hy
    · obtain ⟨b, hb, hby⟩ := h.excluded y hy
      exact ⟨b, Set.mem_insert_of_mem c hb, hby⟩
    · rw [List.mem_singleton.mp hy]
      exact ⟨c, Set.mem_insert c _, hfails⟩
  · apply h.nodup.append (List.nodup_singleton x)
    rw [List.disjoint_singleton]
    exact h.not_examined hfree

/-- Step lemma. -/
theorem Exact.step {a b : Enumerator X C} (h : a.Exact Holds Fails domain target)
    (hstep : a.Examines Holds Fails domain target b) : b.Exact Holds Fails domain target := by
  cases hstep with
  | report x c hx htarget hfree hfails hrest =>
    obtain ⟨hinside, hexcluded, hnodup⟩ := examined_step h hx hfree hfails
    refine ⟨hinside, hexcluded, hnodup, fun y => ?_, h.order.append (List.Sublist.refl [x]),
      fun y hy hnew b hb => ?_⟩
    · simp only [List.mem_append, List.mem_singleton, h.reported]
      constructor
      · rintro (⟨hy, hyt⟩ | rfl)
        · exact ⟨Or.inl hy, hyt⟩
        · exact ⟨Or.inr rfl, htarget⟩
      · rintro ⟨hy | rfl, hyt⟩
        · exact Or.inl ⟨hy, hyt⟩
        · exact Or.inr rfl
    · rw [List.mem_append, List.mem_singleton, not_or] at hnew
      rcases hb with rfl | hb
      · exact hrest y hy hnew.2
      · exact h.kept y hy hnew.1 b hb
  | reject x c hx htarget hfree hfails hrest =>
    obtain ⟨hinside, hexcluded, hnodup⟩ := examined_step h hx hfree hfails
    refine ⟨hinside, hexcluded, hnodup, fun y => ?_, h.order.trans (List.sublist_append_left _ _),
      fun y hy hnew b hb => ?_⟩
    · simp only [List.mem_append, List.mem_singleton, h.reported]
      constructor
      · rintro ⟨hy, hyt⟩
        exact ⟨Or.inl hy, hyt⟩
      · rintro ⟨hy | rfl, hyt⟩
        · exact ⟨hy, hyt⟩
        · exact absurd hyt htarget
    · rcases hb with rfl | hb
      · exact hrest y hy
      · exact h.kept y hy hnew b hb

/-- Run lemma. -/
theorem exact_of_run {a : Enumerator X C}
    (h : Relation.ReflTransGen (Examines Holds Fails domain target) start a) :
    a.Exact Holds Fails domain target := by
  induction h with
  | refl => exact exact_start
  | tail _ hstep ih => exact ih.step hstep

theorem Exact.reported_nodup {a : Enumerator X C} (h : a.Exact Holds Fails domain target) :
    a.reported.Nodup := h.nodup.sublist h.order

/-- The measure: there are no more examinations than candidates. -/
theorem Exact.length_le {a : Enumerator X C} (h : a.Exact Holds Fails domain target)
    (hfin : domain.Finite) : a.examined.length ≤ domain.ncard := by
  classical
  rw [← List.toFinset_card_of_nodup h.nodup, ← Set.ncard_coe_finset]
  apply Set.ncard_le_ncard _ hfin
  intro x hx
  exact h.inside x (by simpa using hx)

/-- When no target meets all constraints, every target has been reported. -/
theorem Exact.complete {a : Enumerator X C} (h : a.Exact Holds Fails domain target)
    (hdone : ∀ y ∈ target, ¬ ∀ c ∈ a.constraints, Holds c y) (y : X) :
    y ∈ a.reported ↔ y ∈ target := by
  constructor
  · exact fun hy => ((h.reported y).mp hy).2
  · intro hy
    by_contra hnew
    exact hdone y hy (h.kept y hy hnew)

/-- Then there are as many reports as targets. -/
theorem Exact.length_eq {a : Enumerator X C} (h : a.Exact Holds Fails domain target)
    (hdone : ∀ y ∈ target, ¬ ∀ c ∈ a.constraints, Holds c y) :
    a.reported.length = target.ncard := by
  classical
  have hset : target = {y | y ∈ a.reported.toFinset} := by
    ext y
    simp [h.complete hdone y]
  rw [hset, ← List.toFinset_card_of_nodup h.reported_nodup]
  exact (Set.ncard_coe_finset _).symm

end Enumerator

end YbeSms.Library
