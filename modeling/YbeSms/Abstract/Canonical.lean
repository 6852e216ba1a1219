import YbeSms.Abstract.CycleSet
import YbeSms.Library.RowMajor
import Mathlib.Algebra.Group.Conj
import Mathlib.Algebra.Group.Commute.Basic
import Mathlib.Data.Set.Card
import Mathlib.Data.Fintype.Perm
import Mathlib.Data.Set.Finite.Lemmas

/-!
# Canonical representatives

Tables are isomorphic when a permutation of the points relabels one to the other.
Every orbit has one least table. Splitting by the diagonal keeps one table of each
isomorphism class: the conjugacy class of the diagonal fixes the prescribed one,
and the permutations that are left are those that commute with it.
-/

namespace YbeSms.Abstract

open YbeSms.Library Equiv

variable {X : Type} {M N : X → X → X}

/-- `N` is `M` with the points renamed. -/
def Isomorphic (M N : X → X → X) : Prop := ∃ p : Perm X, N = act p M

theorem Isomorphic.symm (h : Isomorphic M N) : Isomorphic N M := by
  obtain ⟨p, rfl⟩ := h
  exact ⟨p⁻¹, (act_inv_act p M).symm⟩

theorem IsCycleSet.act (h : IsCycleSet M) (p : Perm X) : IsCycleSet (act p M) where
  rows i := p.symm.bijective.comp ((h.rows (p i)).comp p.bijective)
  diagonal := p.symm.bijective.comp (h.diagonal.comp p.bijective)
  identity i j k := by
    unfold Library.act
    rw [apply_symm_apply, apply_symm_apply, apply_symm_apply, apply_symm_apply, h.identity]

theorem IsCycleSet.of_isomorphic (h : IsCycleSet M) (hiso : Isomorphic M N) : IsCycleSet N := by
  obtain ⟨p, rfl⟩ := hiso
  exact h.act p

/-- Relabelling conjugates the diagonal. -/
theorem diagonal_act {d : Perm X} (h : ∀ i, M i i = d i) (p : Perm X) (i : X) :
    act p M i i = (p⁻¹ * d * p) i := by
  unfold act
  rw [h]
  rfl

section Order

variable [LinearOrder X] [Finite X]

/-- The permutations that commute with `d` bring a table to exactly one least one. -/
theorem existsUnique_leastUnder (d : Perm X) (M : X → X → X) :
    ∃! N, (∃ p : Perm X, Commute p d ∧ N = act p M) ∧ LeastUnder d N := by
  obtain ⟨p, hp, hmin⟩ := Set.exists_min_image {p : Perm X | Commute p d}
    (fun p => rowMajor (act p M)) (Set.toFinite _) ⟨1, Commute.one_left d⟩
  refine ⟨act p M, ⟨⟨p, hp, rfl⟩, fun q hq => ?_⟩, ?_⟩
  · rw [act_act]
    exact hmin (p * q) (hp.mul_left hq)
  · rintro _ ⟨⟨q, hq, rfl⟩, hleast⟩
    have hback : act (q⁻¹ * p) (act q M) = act p M := by
      rw [act_act, mul_inv_cancel_left]
    have hle := hleast (q⁻¹ * p) (hq.inv_left.mul_left hp)
    rw [hback] at hle
    have hsame := le_antisymm hle (hmin q hq)
    funext i j
    exact congrFun (toLex.injective hsame) (toLex (i, j))

/-- With one diagonal of each conjugacy class, a class of tables is met once: at one diagonal and
with one least table. -/
theorem existsUnique_split {T : Set (Perm X)}
    (hT : ∀ p : Perm X, ∃! d : Perm X, d ∈ T ∧ IsConj d p) {δ : Perm X} (hδ : ∀ i, M i i = δ i) :
    ∃! dN : Perm X × (X → X → X), dN.1 ∈ T ∧ Isomorphic M dN.2 ∧ (∀ i, dN.2 i i = dN.1 i) ∧
      LeastUnder dN.1 dN.2 := by
  obtain ⟨e', ⟨hd, hconj⟩, honly⟩ := hT δ
  obtain ⟨c, hc⟩ := isConj_iff.mp hconj
  have hdiag : ∀ i, act c M i i = e' i := by
    intro i
    rw [diagonal_act hδ, ← hc]
    simp
  obtain ⟨N, ⟨⟨p, hp, rfl⟩, hleast⟩, hone⟩ := existsUnique_leastUnder e' (act c M)
  refine ⟨(e', act p (act c M)), ⟨hd, ⟨c * p, act_act p c M⟩, fun i => ?_, hleast⟩, ?_⟩
  · exact (diagonal_act hdiag p i).trans (by rw [mul_assoc, ← hp.eq, inv_mul_cancel_left])
  · rintro ⟨e, N⟩ ⟨he, ⟨q, rfl⟩, hediag, hleast'⟩
    -- the diagonal of `q.M` is conjugate to that of `M`
    have heq : q⁻¹ * δ * q = e := Equiv.ext fun i => (diagonal_act hδ q i).symm.trans (hediag i)
    have hq : q * e = δ * q := by rw [← heq, mul_assoc, mul_inv_cancel_left]
    have hc' : c⁻¹ * δ = e' * c⁻¹ := by rw [← hc, mul_assoc, inv_mul_cancel_left]
    obtain rfl : e = e' := honly e ⟨he, isConj_iff.mpr ⟨q, by rw [hq, mul_inv_cancel_right]⟩⟩
    refine Prod.ext rfl (hone _ ⟨⟨c⁻¹ * q, ?_, ?_⟩, hleast'⟩)
    · calc c⁻¹ * q * e = c⁻¹ * δ * q := by rw [mul_assoc, hq, mul_assoc]
        _ = e * (c⁻¹ * q) := by rw [hc', mul_assoc]
    · rw [act_act, mul_inv_cancel_left]

end Order

/-- Two sets whose members correspond one to one have the same size. -/
theorem ncard_eq_of_existsUnique {α β : Type} {A : Set α} {B : Set β} (R : α → β → Prop)
    (hA : ∀ a ∈ A, ∃! b, b ∈ B ∧ R a b) (hB : ∀ b ∈ B, ∃! a, a ∈ A ∧ R a b) :
    A.ncard = B.ncard := by
  choose f hf honly using hA
  refine Set.ncard_congr f (fun a ha => (hf a ha).1) (fun a a' ha ha' heq => ?_) fun b hb => ?_
  · refine (hB _ (hf a ha).1).unique ⟨ha, (hf a ha).2⟩ ⟨ha', ?_⟩
    rw [heq]
    exact (hf a' ha').2
  · obtain ⟨a, ⟨ha, hab⟩, -⟩ := hB b hb
    exact ⟨a, ha, (honly a ha b ⟨hb, hab⟩).symm⟩

end YbeSms.Abstract
