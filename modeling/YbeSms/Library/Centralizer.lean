import Mathlib.GroupTheory.GroupAction.Period
import Mathlib.GroupTheory.Perm.Cycle.Basic

/-!
# Partial choices of a permutation that commutes with a given one

For a permutation `d` of a set, the permutations commuting with `d` send the cycle
of a point to a cycle of the same length, and that is all they must do: any two
cycles of the same length can be exchanged. A choice of images on a set that is
closed under `d` therefore extends, at any further point, to every value that is
still free and lies on a cycle of the right length.
-/

namespace YbeSms.Library

open Equiv

variable {X : Type}

/-- The cycles of the two points have the same length. -/
def SameLength (d : Perm X) (x y : X) : Prop := ∀ k : ℤ, (d ^ k) x = x ↔ (d ^ k) y = y

/-- The set is a union of cycles. -/
def Closed (d : Perm X) (A : Set X) : Prop := ∀ (k : ℤ) (x : X), x ∈ A → (d ^ k) x ∈ A

variable {d : Perm X}

theorem SameLength.refl (x : X) : SameLength d x x := fun _ => Iff.rfl

theorem SameLength.symm {x y : X} (h : SameLength d x y) : SameLength d y x := fun k => (h k).symm

theorem SameLength.trans {x y z : X} (h : SameLength d x y) (h' : SameLength d y z) :
    SameLength d x z := fun k => (h k).trans (h' k)

theorem zpow_apply_of_commute {p : Perm X} (hp : Commute p d) (k : ℤ) (x : X) :
    (d ^ k) (p x) = p ((d ^ k) x) := by
  have h := (hp.zpow_right k).eq
  rw [← Perm.mul_apply, ← h, Perm.mul_apply]

theorem sameLength_of_commute {p : Perm X} (hp : Commute p d) (x : X) :
    SameLength d x (p x) := by
  intro k
  rw [zpow_apply_of_commute hp, p.injective.eq_iff]

theorem sameLength_zpow (j : ℤ) (x : X) : SameLength d x ((d ^ j) x) :=
  sameLength_of_commute ((Commute.refl d).zpow_left j) x

theorem apply_zpow (k : ℤ) (x : X) : d ((d ^ k) x) = (d ^ (1 + k)) x := by
  rw [zpow_one_add, Perm.mul_apply]

theorem zpow_eq_zpow_iff (j k : ℤ) (x : X) : (d ^ j) x = (d ^ k) x ↔ (d ^ (-k + j)) x = x := by
  rw [zpow_add, zpow_neg, Perm.mul_apply, Perm.inv_eq_iff_eq]

/-- Powers that agree on one point agree on every point of the same cycle length. -/
theorem SameLength.zpow_eq_iff {x y : X} (h : SameLength d x y) (j k : ℤ) :
    (d ^ j) x = (d ^ k) x ↔ (d ^ j) y = (d ^ k) y := by
  rw [zpow_eq_zpow_iff, zpow_eq_zpow_iff]
  exact h _

theorem Closed.mem_iff {A : Set X} (h : Closed d A) (k : ℤ) (x : X) : (d ^ k) x ∈ A ↔ x ∈ A := by
  refine ⟨fun hx => ?_, h k x⟩
  have hback := h (-k) _ hx
  rwa [← Perm.mul_apply, ← zpow_add, neg_add_cancel, zpow_zero, Perm.one_apply] at hback

theorem Closed.not_sameCycle {A : Set X} (h : Closed d A) {x a : X} (hx : x ∉ A) (ha : a ∈ A) :
    ¬ d.SameCycle x a := by
  rintro ⟨k, rfl⟩
  exact hx ((h.mem_iff k x).mp ha)

/-- Adding the cycle of a point keeps a set closed. -/
theorem Closed.union_cycle {A : Set X} (h : Closed d A) (x : X) :
    Closed d (A ∪ {w | d.SameCycle x w}) := by
  rintro k w (hw | hw)
  · exact Or.inl (h k w hw)
  · exact Or.inr (Perm.sameCycle_zpow_right.mpr hw)

/-! ### The points of a cycle -/

/-- The number of points on the cycle of a point. -/
noncomputable def cycleLength (d : Perm X) (x : X) : Nat := MulAction.period d x

/-- The cycle of a point, from that point on. -/
noncomputable def cycleList (d : Perm X) (x : X) : List X :=
  (List.range (cycleLength d x)).map fun k => (d ^ k) x

theorem cycleLength_pos [Finite X] (d : Perm X) (x : X) : 0 < cycleLength d x :=
  MulAction.period_pos_of_orderOf_pos (isOfFinOrder_of_finite d).orderOf_pos x

theorem zpow_apply_eq_self_iff (k : ℤ) (x : X) :
    (d ^ k) x = x ↔ (cycleLength d x : ℤ) ∣ k := by
  rw [cycleLength, ← MulAction.zpow_smul_eq_iff_period_dvd, Perm.smul_def]

theorem pow_cycleLength (d : Perm X) (x : X) : (d ^ cycleLength d x) x = x :=
  MulAction.pow_period_smul d x

theorem sameLength_iff (x y : X) : SameLength d x y ↔ cycleLength d x = cycleLength d y := by
  constructor
  · intro h
    have hxy : (cycleLength d x : ℤ) ∣ cycleLength d y := by
      rw [← zpow_apply_eq_self_iff, h, zpow_apply_eq_self_iff]
    have hyx : (cycleLength d y : ℤ) ∣ cycleLength d x := by
      rw [← zpow_apply_eq_self_iff, ← h, zpow_apply_eq_self_iff]
    exact Nat.dvd_antisymm (Int.natCast_dvd_natCast.mp hxy) (Int.natCast_dvd_natCast.mp hyx)
  · intro h k
    rw [zpow_apply_eq_self_iff, zpow_apply_eq_self_iff, h]

/-- The points of a cycle up to its length are different. -/
theorem pow_injOn {x : X} {j k : Nat} (hj : j < cycleLength d x) (hk : k < cycleLength d x)
    (h : (d ^ j) x = (d ^ k) x) : j = k := by
  have hz : (d ^ (j : ℤ)) x = (d ^ (k : ℤ)) x := by
    rw [zpow_natCast, zpow_natCast]
    exact h
  rw [zpow_eq_zpow_iff, zpow_apply_eq_self_iff] at hz
  obtain ⟨c, hc⟩ := hz
  have hlt : -(cycleLength d x : ℤ) < cycleLength d x * c := by omega
  have hlt' : (cycleLength d x : ℤ) * c < cycleLength d x := by omega
  have hc0 : c = 0 := by
    have h1 : -1 < c := by
      by_contra hle
      have : (cycleLength d x : ℤ) * c ≤ cycleLength d x * -1 :=
        mul_le_mul_of_nonneg_left (by omega) (by omega)
      omega
    have h2 : c < 1 := by
      by_contra hle
      have : (cycleLength d x : ℤ) * 1 ≤ cycleLength d x * c :=
        mul_le_mul_of_nonneg_left (by omega) (by omega)
      omega
    omega
  rw [hc0] at hc
  omega

theorem sameCycle_iff_exists_lt [Finite X] {x w : X} :
    d.SameCycle x w ↔ ∃ k, k < cycleLength d x ∧ (d ^ k) x = w := by
  constructor
  · rintro ⟨k, rfl⟩
    have hpos : (0 : ℤ) < cycleLength d x := by exact_mod_cast cycleLength_pos d x
    refine ⟨(k % cycleLength d x).toNat, ?_, ?_⟩
    · have := Int.emod_lt_of_pos k hpos
      have := Int.emod_nonneg k hpos.ne'
      omega
    · have hcast : (((k % cycleLength d x).toNat : ℕ) : ℤ) = k % cycleLength d x :=
        Int.toNat_of_nonneg (Int.emod_nonneg k hpos.ne')
      rw [← zpow_natCast, hcast, zpow_eq_zpow_iff, zpow_apply_eq_self_iff]
      have hdiv := Int.mul_ediv_add_emod k (cycleLength d x)
      refine ⟨-(k / cycleLength d x), ?_⟩
      rw [mul_neg]
      omega
  · rintro ⟨k, -, rfl⟩
    exact ⟨k, by rw [zpow_natCast]⟩

@[simp] theorem length_cycleList (d : Perm X) (x : X) :
    (cycleList d x).length = cycleLength d x := by simp [cycleList]

theorem mem_cycleList [Finite X] {x w : X} : w ∈ cycleList d x ↔ d.SameCycle x w := by
  rw [sameCycle_iff_exists_lt]
  simp [cycleList]

theorem nodup_cycleList (d : Perm X) (x : X) : (cycleList d x).Nodup := by
  refine List.Nodup.map_on (fun j hj k hk h => ?_) List.nodup_range
  exact pow_injOn (List.mem_range.mp hj) (List.mem_range.mp hk) h

/-! ### Exchanging two cycles -/

open Classical in
/-- Move the cycle of `z` onto the cycle of `y`, and back if they differ. -/
noncomputable def exchangeFun (d : Perm X) (z y w : X) : X :=
  if h : ∃ k : ℤ, w = (d ^ k) z then (d ^ h.choose) y
  else if h : ∃ k : ℤ, w = (d ^ k) y then (d ^ h.choose) z
  else w

theorem exchangeFun_left {z y : X} (h : SameLength d z y) (k : ℤ) :
    exchangeFun d z y ((d ^ k) z) = (d ^ k) y := by
  have hex : ∃ j : ℤ, (d ^ k) z = (d ^ j) z := ⟨k, rfl⟩
  rw [exchangeFun, dif_pos hex]
  exact ((h.zpow_eq_iff k _).mp hex.choose_spec).symm

theorem exchangeFun_right {z y : X} (h : SameLength d z y) (hdis : ¬ d.SameCycle z y) (k : ℤ) :
    exchangeFun d z y ((d ^ k) y) = (d ^ k) z := by
  have hnot : ¬ ∃ j : ℤ, (d ^ k) y = (d ^ j) z := by
    rintro ⟨j, hj⟩
    exact hdis (Perm.sameCycle_zpow_right.mp ⟨j, hj.symm⟩)
  have hex : ∃ j : ℤ, (d ^ k) y = (d ^ j) y := ⟨k, rfl⟩
  rw [exchangeFun, dif_neg hnot, dif_pos hex]
  exact ((h.zpow_eq_iff k _).mpr hex.choose_spec).symm

theorem exchangeFun_off {z y w : X} (hz : ¬ d.SameCycle z w) (hy : ¬ d.SameCycle y w) :
    exchangeFun d z y w = w := by
  rw [exchangeFun, dif_neg, dif_neg]
  · rintro ⟨k, rfl⟩
    exact hy ⟨k, rfl⟩
  · rintro ⟨k, rfl⟩
    exact hz ⟨k, rfl⟩

theorem exchangeFun_leftInverse {z y : X} (h : SameLength d z y) :
    Function.LeftInverse (exchangeFun d y z) (exchangeFun d z y) := by
  intro w
  by_cases hz : d.SameCycle z w
  · obtain ⟨k, rfl⟩ := hz
    rw [exchangeFun_left h, exchangeFun_left h.symm]
  · by_cases hy : d.SameCycle y w
    · obtain ⟨k, rfl⟩ := hy
      have hdis : ¬ d.SameCycle z y := fun hzy => hz (Perm.sameCycle_zpow_right.mpr hzy)
      rw [exchangeFun_right h hdis, exchangeFun_right h.symm fun hyz => hdis hyz.symm]
    · rw [exchangeFun_off hz hy, exchangeFun_off hy hz]

/-- The exchange of two cycles of the same length. -/
noncomputable def exchange (d : Perm X) (z y : X) (h : SameLength d z y) : Perm X where
  toFun := exchangeFun d z y
  invFun := exchangeFun d y z
  left_inv := exchangeFun_leftInverse h
  right_inv := exchangeFun_leftInverse h.symm

theorem exchange_zpow {z y : X} (h : SameLength d z y) (k : ℤ) :
    exchange d z y h ((d ^ k) z) = (d ^ k) y := exchangeFun_left h k

theorem exchange_zpow_right {z y : X} (h : SameLength d z y) (hdis : ¬ d.SameCycle z y) (k : ℤ) :
    exchange d z y h ((d ^ k) y) = (d ^ k) z := exchangeFun_right h hdis k

theorem exchange_off {z y w : X} (h : SameLength d z y) (hz : ¬ d.SameCycle z w)
    (hy : ¬ d.SameCycle y w) : exchange d z y h w = w := exchangeFun_off hz hy

theorem exchange_commute {z y : X} (h : SameLength d z y) : Commute (exchange d z y h) d := by
  refine Equiv.ext fun w => ?_
  rw [Perm.mul_apply, Perm.mul_apply]
  by_cases hz : d.SameCycle z w
  · obtain ⟨k, rfl⟩ := hz
    rw [exchange_zpow, apply_zpow, apply_zpow, exchange_zpow]
  · by_cases hy : d.SameCycle y w
    · obtain ⟨k, rfl⟩ := hy
      have hdis : ¬ d.SameCycle z y := fun hzy => hz (Perm.sameCycle_zpow_right.mpr hzy)
      rw [exchange_zpow_right h hdis, apply_zpow, apply_zpow, exchange_zpow_right h hdis]
    · rw [exchange_off h hz hy, exchange_off h (by rwa [Perm.sameCycle_apply_right])
        (by rwa [Perm.sameCycle_apply_right])]

/-! ### Partial choices -/

/-- The permutations that commute with `d` and agree with `p` on `A`. -/
def Choices (d : Perm X) (A : Set X) (p : Perm X) : Set (Perm X) :=
  {q | Commute q d ∧ Set.EqOn q p A}

/-- The values a point may still get: its own on `A`, else the free ones of its length. -/
def MayMap (d : Perm X) (A : Set X) (p : Perm X) (x y : X) : Prop :=
  (x ∈ A ∧ y = p x) ∨ (x ∉ A ∧ p.symm y ∉ A ∧ SameLength d x y)

theorem mayMap_self {A : Set X} {p : Perm X} (hp : ∀ x, SameLength d x (p x)) (x : X) :
    MayMap d A p x (p x) := by
  by_cases hx : x ∈ A
  · exact Or.inl ⟨hx, rfl⟩
  · exact Or.inr ⟨hx, by simpa using hx, hp x⟩

/-- Exchanging the cycle of the image of `x` with that of a free value is again a choice. -/
theorem exchange_mem_choices {A : Set X} (hA : Closed d A) {p : Perm X} (hp : Commute p d) {x y : X}
    (hx : x ∉ A) (hy : p.symm y ∉ A) (h : SameLength d (p x) y) :
    exchange d (p x) y h * p ∈ Choices d A p := by
  refine ⟨(exchange_commute h).mul_left hp, fun a ha => ?_⟩
  rw [Perm.mul_apply]
  refine exchange_off h ?_ ?_
  · rintro ⟨k, hk⟩
    rw [zpow_apply_of_commute hp] at hk
    exact hA.not_sameCycle hx ha ⟨k, p.injective hk⟩
  · rintro ⟨k, hk⟩
    refine hA.not_sameCycle hy ha ⟨k, p.injective ?_⟩
    rw [← zpow_apply_of_commute hp, apply_symm_apply, hk]

theorem exchange_mul_apply {p : Perm X} {x y : X} (h : SameLength d (p x) y) :
    (exchange d (p x) y h * p) x = y := by
  have hzero := exchange_zpow h 0
  simpa using hzero

/-- The values a point may get are the values the choices give it. -/
theorem mayMap_iff {A : Set X} (hA : Closed d A) {p : Perm X} (hp : Commute p d) (x y : X) :
    MayMap d A p x y ↔ ∃ q ∈ Choices d A p, q x = y := by
  constructor
  · rintro (⟨hx, rfl⟩ | ⟨hx, hy, hlen⟩)
    · exact ⟨p, ⟨hp, fun _ _ => rfl⟩, rfl⟩
    · have h := (sameLength_of_commute hp x).symm.trans hlen
      exact ⟨_, exchange_mem_choices hA hp hx hy h, exchange_mul_apply h⟩
  · rintro ⟨q, ⟨hq, hEq⟩, rfl⟩
    by_cases hx : x ∈ A
    · exact Or.inl ⟨hx, hEq hx⟩
    · refine Or.inr ⟨hx, fun hmem => ?_, sameLength_of_commute hq x⟩
      have hsame : q (p.symm (q x)) = q x := by rw [hEq hmem, apply_symm_apply]
      exact hx (q.injective hsame ▸ hmem)

/-- The choices only depend on the images on `A`. -/
theorem choices_eq_of_mem {A : Set X} {p q : Perm X} (hq : q ∈ Choices d A p) :
    Choices d A q = Choices d A p := by
  ext r
  exact ⟨fun h => ⟨h.1, fun a ha => (h.2 ha).trans (hq.2 ha)⟩,
    fun h => ⟨h.1, fun a ha => (h.2 ha).trans (hq.2 ha).symm⟩⟩

theorem mayMap_congr {A : Set X} {p q : Perm X} (h : Set.EqOn q p A) (x y : X) :
    MayMap d A q x y ↔ MayMap d A p x y := by
  have hfree : q.symm y ∈ A ↔ p.symm y ∈ A := by
    constructor
    · intro hmem
      have hsame : p (q.symm y) = y := by rw [← h hmem, apply_symm_apply]
      rwa [← hsame, symm_apply_apply]
    · intro hmem
      have hsame : q (p.symm y) = y := by rw [h hmem, apply_symm_apply]
      rwa [← hsame, symm_apply_apply]
  simp only [MayMap, hfree]
  refine or_congr_left (and_congr_right fun hx => ?_)
  rw [h hx]

/-- Choosing one image settles its whole cycle. -/
theorem choices_union_cycle {A : Set X} {p : Perm X} (hp : Commute p d) (x : X) :
    Choices d (A ∪ {w | d.SameCycle x w}) p = {q ∈ Choices d A p | q x = p x} := by
  ext q
  constructor
  · rintro ⟨hq, hEq⟩
    exact ⟨⟨hq, fun a ha => hEq (Or.inl ha)⟩, hEq (Or.inr (Perm.SameCycle.refl d x))⟩
  · rintro ⟨⟨hq, hEq⟩, hx⟩
    refine ⟨hq, ?_⟩
    rintro w (hw | ⟨k, rfl⟩)
    · exact hEq hw
    · rw [← zpow_apply_of_commute hq, ← zpow_apply_of_commute hp, hx]

end YbeSms.Library
