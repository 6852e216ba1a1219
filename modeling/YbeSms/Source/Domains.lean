import Mathlib.Data.Fintype.Card
import Mathlib.Data.Fintype.Basic
import Mathlib.Data.List.FinRange
import Mathlib.Data.Finset.Card

/-!
# Value domains: `bitdomain_t`

Source: ybe-sms/src/domains.h and domains.cpp:5-81. A `bitdomain_t` keeps one
bit for each value and caches the least contained value and the number of
contained values. The `int` counters are unbounded integers here; they never
leave `-1 .. size`, and `size` is always the problem size.
-/

namespace YbeSms.Source

variable {n : Nat}

/-- `bitdomain_t` with `size = n`; `-1` in `firstel` stands for "no value". -/
structure BitDomain (n : Nat) where
  dom : Fin n → Bool
  firstel : Int
  numTrue : Int

/-- The least index whose bit is set, `-1` if there is none. -/
def leastBit (dom : Fin n → Bool) : Int :=
  match (List.finRange n).find? dom with
  | some i => i.val
  | none => -1

/-- The number of set bits. -/
def countBits (dom : Fin n → Bool) : Nat :=
  (Finset.univ.filter (fun i => dom i = true)).card

namespace BitDomain

/-- `bitdomain_t(n, init)`. -/
def ofInit (init : Bool) : BitDomain n :=
  if init then ⟨fun _ => true, 0, n⟩ else ⟨fun _ => false, -1, 0⟩

/-- `set(int n)`. -/
def set (b : BitDomain n) (v : Fin n) : BitDomain n :=
  if b.dom v then b
  else
    { dom := Function.update b.dom v true
      numTrue := b.numTrue + 1
      firstel := if b.firstel = -1 ∨ (v.val : Int) < b.firstel then v.val else b.firstel }

/-- `reset(int n)`: the next value is searched only when the least one goes. -/
def reset (b : BitDomain n) (v : Fin n) : BitDomain n :=
  if !b.dom v then b
  else
    { dom := Function.update b.dom v false
      numTrue := b.numTrue - 1
      firstel :=
        if (v.val : Int) = b.firstel then
          match (List.finRange n).find? (fun i => v < i && Function.update b.dom v false i) with
          | some i => i.val
          | none => -1
        else b.firstel }

/-- `set()`. -/
def setAll (_ : BitDomain n) : BitDomain n := ⟨fun _ => true, 0, n⟩

/-- `reset()`. -/
def resetAll (_ : BitDomain n) : BitDomain n := ⟨fun _ => false, -1, 0⟩

/-- `options()`. -/
def options (b : BitDomain n) : List (Fin n) := (List.finRange n).filter b.dom

/-- `none()`. -/
def isNone (b : BitDomain n) : Bool := ((List.finRange n).find? b.dom).isNone

/-- The cached summaries agree with the bits. -/
structure Exact (b : BitDomain n) : Prop where
  firstel : b.firstel = leastBit b.dom
  numTrue : b.numTrue = countBits b.dom

instance (b : BitDomain n) : Decidable b.Exact :=
  decidable_of_iff (b.firstel = leastBit b.dom ∧ b.numTrue = countBits b.dom)
    ⟨fun h => ⟨h.1, h.2⟩, fun h => ⟨h.firstel, h.numTrue⟩⟩

end BitDomain

/-- The first hit of a search through all points is the least point found. -/
theorem find_finRange_eq_some (q : Fin n → Bool) (v : Fin n) :
    (List.finRange n).find? q = some v ↔ q v = true ∧ ∀ w, w < v → q w = false := by
  have hleast : ∀ i, (List.finRange n).find? q = some i →
      q i = true ∧ ∀ w, w < i → q w = false := by
    intro i h
    obtain ⟨hi, as, bs, hsplit, hbefore⟩ := List.find?_eq_some_iff_append.mp h
    refine ⟨hi, ?_⟩
    intro w hw
    have hmem : w ∈ as ++ i :: bs := hsplit ▸ List.mem_finRange w
    have hsorted : (as ++ i :: bs).Pairwise (· < ·) := hsplit ▸ List.pairwise_lt_finRange n
    rcases List.mem_append.mp hmem with hw' | hw'
    · simpa using hbefore w hw'
    · rcases List.mem_cons.mp hw' with rfl | hw'
      · exact absurd hw (lt_irrefl _)
      · have habove := (List.pairwise_cons.mp (List.pairwise_append.mp hsorted).2.1).1 w hw'
        exact absurd hw (not_lt_of_gt habove)
  constructor
  · exact hleast v
  · rintro ⟨hv, hless⟩
    cases h : (List.finRange n).find? q with
    | none => exact absurd hv (by simpa using List.find?_eq_none.mp h v (List.mem_finRange v))
    | some i =>
      obtain ⟨hi, hmin⟩ := hleast i h
      rcases lt_trichotomy i v with hlt | rfl | hgt
      · simp [hless i hlt] at hi
      · rfl
      · simp [hmin v hgt] at hv

theorem leastBit_eq_iff (dom : Fin n → Bool) (v : Fin n) :
    leastBit dom = v.val ↔ dom v = true ∧ ∀ w, w < v → dom w = false := by
  rw [← find_finRange_eq_some]
  unfold leastBit
  cases (List.finRange n).find? dom with
  | none => simp
  | some i => exact Int.ofNat_inj.trans (Fin.ext_iff.symm.trans Option.some_inj.symm)

theorem leastBit_eq_neg_one_iff (dom : Fin n → Bool) :
    leastBit dom = -1 ↔ ∀ v, dom v = false := by
  unfold leastBit
  cases h : (List.finRange n).find? dom with
  | none => simpa using h
  | some i =>
    have hi := ((find_finRange_eq_some dom i).mp h).1
    constructor
    · intro he
      exact absurd he (by simp only; omega)
    · intro hall
      simp [hall i] at hi

/-- A set bit has a least set bit at or below it. -/
theorem exists_leastBit (dom : Fin n → Bool) (v : Fin n) (hv : dom v = true) :
    ∃ u, u ≤ v ∧ leastBit dom = u.val ∧ dom u = true ∧ ∀ w, w < u → dom w = false := by
  cases h : (List.finRange n).find? dom with
  | none => exact absurd hv (by simpa using List.find?_eq_none.mp h v (List.mem_finRange v))
  | some u =>
    have hu := (find_finRange_eq_some dom u).mp h
    refine ⟨u, ?_, (leastBit_eq_iff dom u).mpr hu, hu⟩
    by_contra hlt
    simp [hu.2 v (lt_of_not_ge hlt)] at hv

theorem countBits_set (dom : Fin n → Bool) (v : Fin n) (hv : dom v = false) :
    countBits (Function.update dom v true) = countBits dom + 1 := by
  have hsplit : Finset.univ.filter (fun i => Function.update dom v true i = true) =
      insert v (Finset.univ.filter (fun i => dom i = true)) := by
    ext i
    by_cases h : i = v <;> simp [Function.update_apply, h]
  rw [countBits, hsplit, Finset.card_insert_of_notMem (by simp [hv]), countBits]

theorem countBits_reset (dom : Fin n → Bool) (v : Fin n) (hv : dom v = true) :
    countBits (Function.update dom v false) + 1 = countBits dom := by
  have h := countBits_set (Function.update dom v false) v (by simp)
  rw [Function.update_idem] at h
  rw [← h, ← hv, Function.update_eq_self]

theorem countBits_eq_zero_iff (dom : Fin n → Bool) : countBits dom = 0 ↔ ∀ v, dom v = false := by
  simp [countBits, Finset.filter_eq_empty_iff]

theorem countBits_eq_one_iff (dom : Fin n → Bool) :
    countBits dom = 1 ↔ ∃ v, ∀ w, dom w = true ↔ w = v := by
  simp [countBits, Finset.card_eq_one, Finset.ext_iff]

namespace BitDomain

@[simp] theorem mem_options (b : BitDomain n) (v : Fin n) : v ∈ b.options ↔ b.dom v = true := by
  simp [options]

theorem options_pairwise (b : BitDomain n) : b.options.Pairwise (· < ·) :=
  (List.pairwise_lt_finRange n).filter _

theorem length_options (b : BitDomain n) : b.options.length = countBits b.dom := by
  have hnodup : b.options.Nodup := (List.nodup_finRange n).filter _
  rw [← List.toFinset_card_of_nodup hnodup, countBits]
  congr 1
  ext v
  simp

@[simp] theorem set_dom (b : BitDomain n) (v : Fin n) :
    (b.set v).dom = Function.update b.dom v true := by
  unfold set
  split
  next h => rw [← h, Function.update_eq_self]
  next => rfl

@[simp] theorem reset_dom (b : BitDomain n) (v : Fin n) :
    (b.reset v).dom = Function.update b.dom v false := by
  unfold reset
  split
  next h =>
    have hv : b.dom v = false := by simpa using h
    rw [← hv, Function.update_eq_self]
  next => rfl

@[simp] theorem setAll_dom (b : BitDomain n) : b.setAll.dom = fun _ => true := rfl

@[simp] theorem resetAll_dom (b : BitDomain n) : b.resetAll.dom = fun _ => false := rfl

theorem Exact.set {b : BitDomain n} (h : b.Exact) (v : Fin n) : (b.set v).Exact := by
  by_cases hv : b.dom v = true
  · simpa [BitDomain.set, hv] using h
  · have hv' : b.dom v = false := by simpa using hv
    refine ⟨?_, ?_⟩
    · rw [set_dom]
      simp only [BitDomain.set, hv', Bool.false_eq_true, if_false, h.firstel]
      by_cases hnone : ∀ w, b.dom w = false
      · rw [if_pos (Or.inl ((leastBit_eq_neg_one_iff _).mpr hnone)), eq_comm, leastBit_eq_iff]
        exact ⟨by simp, fun w hw => by simp [hw.ne, hnone w]⟩
      · obtain ⟨w, hw⟩ := not_forall.mp hnone
        obtain ⟨u, -, hu, hdom, hmin⟩ := exists_leastBit b.dom w (by simpa using hw)
        rw [hu]
        by_cases hlt : v < u
        · rw [if_pos (Or.inr (by simpa using hlt)), eq_comm, leastBit_eq_iff]
          exact ⟨by simp, fun x hx => by
            simp [hx.ne, hmin x (hx.trans hlt)]⟩
        · have hge : u ≤ v := le_of_not_gt hlt
          rw [if_neg (by simp; omega), eq_comm, leastBit_eq_iff]
          have hne : u ≠ v := by rintro rfl; simp [hv'] at hdom
          exact ⟨by simp [hne, hdom], fun x hx => by
            simp [(hx.trans_le hge).ne, hmin x hx]⟩
    · rw [set_dom, countBits_set b.dom v hv']
      simp [BitDomain.set, hv', h.numTrue]

theorem Exact.reset {b : BitDomain n} (h : b.Exact) (v : Fin n) : (b.reset v).Exact := by
  by_cases hv : b.dom v = true
  · refine ⟨?_, ?_⟩
    · rw [reset_dom]
      simp only [BitDomain.reset, hv, Bool.not_true, Bool.false_eq_true, if_false, h.firstel]
      obtain ⟨u, -, hu, hdom, hmin⟩ := exists_leastBit b.dom v hv
      by_cases hvu : v = u
      · subst hvu
        rw [if_pos hu.symm]
        -- below the removed least value nothing is contained, so the search from it is exact
        have hsame : (fun i => v < i && Function.update b.dom v false i) =
            Function.update b.dom v false := by
          funext i
          rcases lt_trichotomy i v with hlt | rfl | hgt
          · simp [hlt.ne, hmin i hlt]
          · simp
          · simp [hgt.ne', hgt]
        rw [hsame]
        rfl
      · have hne : (v.val : Int) ≠ leastBit b.dom := by
          rw [hu]
          intro he
          exact hvu (Fin.ext (by omega))
        rw [if_neg hne, hu, eq_comm, leastBit_eq_iff]
        refine ⟨by simp [Ne.symm hvu, hdom], fun w hw => ?_⟩
        by_cases hwv : w = v <;> simp [hwv, hmin w hw]
    · have hcount := countBits_reset b.dom v hv
      rw [reset_dom]
      simp only [BitDomain.reset, hv, Bool.not_true, Bool.false_eq_true, if_false, h.numTrue]
      omega
  · simpa [BitDomain.reset, hv] using h

theorem Exact.setAll (hn : 0 < n) (b : BitDomain n) : b.setAll.Exact := by
  refine ⟨?_, by simp [BitDomain.setAll, countBits]⟩
  have h := (leastBit_eq_iff (fun _ : Fin n => true) ⟨0, hn⟩).mpr
    ⟨rfl, fun w hw => absurd hw (Nat.not_lt_zero _)⟩
  exact h.symm

theorem Exact.resetAll (b : BitDomain n) : b.resetAll.Exact :=
  ⟨((leastBit_eq_neg_one_iff _).mpr fun _ => rfl).symm, by simp [BitDomain.resetAll, countBits]⟩

theorem Exact.ofInit (hn : 0 < n) (init : Bool) : (BitDomain.ofInit init : BitDomain n).Exact := by
  cases init
  · exact Exact.resetAll (BitDomain.ofInit true)
  · exact Exact.setAll hn (BitDomain.ofInit true)

/-- Two exact domains with the same bits are the same record. -/
theorem Exact.ext {a b : BitDomain n} (ha : a.Exact) (hb : b.Exact) (h : a.dom = b.dom) :
    a = b := by
  obtain ⟨dom, firstel, numTrue⟩ := a
  obtain ⟨dom', firstel', numTrue'⟩ := b
  obtain rfl : dom = dom' := h
  obtain rfl : firstel = firstel' := ha.firstel.trans hb.firstel.symm
  obtain rfl : numTrue = numTrue' := ha.numTrue.trans hb.numTrue.symm
  rfl

end BitDomain

end YbeSms.Source
