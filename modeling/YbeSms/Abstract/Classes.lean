import YbeSms.Abstract.Canonical
import Mathlib.Data.Fintype.Card

/-!
# Isomorphism classes

What an enumeration up to isomorphism is to come to: one cycle set of each class.
Any such list is as long as there are classes.
-/

namespace YbeSms.Abstract

open YbeSms.Library Equiv

variable {X : Type}

theorem Isomorphic.refl (M : X → X → X) : Isomorphic M M := ⟨1, rfl⟩

theorem Isomorphic.trans {M N K : X → X → X} (h : Isomorphic M N) (h' : Isomorphic N K) :
    Isomorphic M K := by
  obtain ⟨p, rfl⟩ := h
  obtain ⟨q, rfl⟩ := h'
  exact ⟨p * q, act_act q p M⟩

/-- Isomorphism of cycle sets. -/
def isoSetoid (X : Type) : Setoid {M : X → X → X // IsCycleSet M} where
  r a b := Isomorphic a.val b.val
  iseqv := ⟨fun a => .refl a.val, fun h => h.symm, fun h h' => h.trans h'⟩

/-- How many cycle sets there are up to isomorphism. -/
noncomputable def classes (X : Type) : Nat := Nat.card (Quotient (isoSetoid X))

/-- One cycle set of each isomorphism class. -/
structure Represents (tables : List (X → X → X)) : Prop where
  nodup : tables.Nodup
  cycleSets : ∀ M ∈ tables, IsCycleSet M
  once : ∀ M, IsCycleSet M → ∃! N, N ∈ tables ∧ Isomorphic M N

theorem Represents.length_eq {tables : List (X → X → X)} (h : Represents tables) :
    tables.length = classes X := by
  classical
  let classOf : {N // N ∈ tables.toFinset} → Quotient (isoSetoid X) := fun N =>
    Quotient.mk _ ⟨N.val, h.cycleSets N.val (List.mem_toFinset.mp N.property)⟩
  have hbijective : Function.Bijective classOf := by
    constructor
    · rintro ⟨M, hM⟩ ⟨N, hN⟩ hclass
      rw [List.mem_toFinset] at hM hN
      have hiso : Isomorphic M N := Quotient.exact hclass
      have hsame := (h.once M (h.cycleSets M hM)).unique ⟨hM, .refl M⟩ ⟨hN, hiso⟩
      exact Subtype.ext hsame
    · intro c
      induction c using Quotient.inductionOn with
      | h M =>
        obtain ⟨N, ⟨hN, hiso⟩, -⟩ := h.once M.val M.property
        exact ⟨⟨N, List.mem_toFinset.mpr hN⟩, Quotient.sound hiso.symm⟩
  rw [classes, ← Nat.card_eq_of_bijective classOf hbijective, Nat.card_eq_fintype_card,
    Fintype.card_coe, List.toFinset_card_of_nodup h.nodup]

end YbeSms.Abstract
