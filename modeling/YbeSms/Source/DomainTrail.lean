import YbeSms.Source.TrailRun

/-!
# Value domains along the trail

Source: ybe-sms/src/solveCadicalClass.hpp:164-202, 209-257; solveCadicalClass.cpp:172-191.
The domains are maintained incrementally, so between two decision levels they are
only bounded by the assignments. `DomainInv` states the bounds that every step
keeps; where the assignment is closed they pin each domain down.
-/

namespace YbeSms.Source

open YbeSms.Library YbeSms.Abstract

variable {n : Nat}

/-- The bounds on the domains, for a session without fixed rows. -/
structure DomainInv (s : Session n) (c : CycleSet n) : Prop where
  exact : ∀ i j, (c.bitdomains i j).Exact
  excluded : ∀ i j k, c.assignments i j k = .isFalse → (c.bitdomains i j).dom k = false
  included : ∀ i j k, c.matrix i j = none → c.assignments i j k ≠ .isFalse →
    (∀ l, l ≠ j → c.matrix i l ≠ some k) → (c.bitdomains i j).dom k = true
  own : ∀ i j k, c.matrix i j = some k → (c.bitdomains i j).dom k = true
  columns : ∀ i j l k, c.matrix i j = some k → c.matrix i l = some k → j = l
  diagonal : s.cfg.diagPart = true → ∀ i, c.matrix i i = some (s.d i) ∧
    (∀ k, (c.bitdomains i i).dom k = true ↔ k = s.d i) ∧
    ∀ j, j ≠ i → (c.bitdomains i j).dom (s.d i) = false

theorem dropColumn_dom (c : CycleSet n) (i j : Fin n) (b : BitDomain n) (l v : Fin n) :
    (dropColumn c i j b l).dom v = true ↔
      b.dom v = true ∧ (l ≠ j → c.matrix i l ≠ some v) := by
  unfold dropColumn
  cases hm : c.matrix i l with
  | none => simp
  | some w =>
    by_cases hl : l ≠ j
    · simp only [if_pos hl, BitDomain.reset_dom, Function.update_apply]
      by_cases hv : v = w
      · simp [hv, hl]
      · simp [hv, Ne.symm hv]
    · simp [hl]

theorem dropFalse_dom (c : CycleSet n) (i j : Fin n) (b : BitDomain n) (l v : Fin n) :
    (dropFalse c i j b l).dom v = true ↔
      b.dom v = true ∧ (v = l → c.assignments i j v ≠ .isFalse) := by
  unfold dropFalse
  split
  next hf =>
    rw [BitDomain.reset_dom, Function.update_apply]
    by_cases hv : v = l
    · simp [hv, hf]
    · simp [hv]
  next hf =>
    refine (and_iff_left ?_).symm
    rintro rfl
    exact hf

theorem drop_exact (c : CycleSet n) (i j : Fin n) {b : BitDomain n} (h : b.Exact)
    (l : Fin n) : (dropFalse c i j (dropColumn c i j b l) l).Exact := by
  have hcolumn : (dropColumn c i j b l).Exact := by
    unfold dropColumn
    split
    next v _ =>
      split
      · exact h.reset v
      · exact h
    next => exact h
  unfold dropFalse
  split
  · exact hcolumn.reset l
  · exact hcolumn

theorem foldl_drop (c : CycleSet n) (i j : Fin n) (ls : List (Fin n)) (b : BitDomain n)
    (hb : b.Exact) :
    (ls.foldl (fun b l => dropFalse c i j (dropColumn c i j b l) l) b).Exact ∧
      ∀ v, (ls.foldl (fun b l => dropFalse c i j (dropColumn c i j b l) l) b).dom v = true ↔
        b.dom v = true ∧ ∀ l ∈ ls, (l ≠ j → c.matrix i l ≠ some v) ∧
          (v = l → c.assignments i j v ≠ .isFalse) := by
  induction ls generalizing b with
  | nil => exact ⟨hb, by simp⟩
  | cons l rest ih =>
    obtain ⟨hexact, hdom⟩ := ih _ (drop_exact c i j hb l)
    refine ⟨hexact, fun v => ?_⟩
    rw [List.foldl_cons, hdom, dropFalse_dom, dropColumn_dom, List.forall_mem_cons]
    simp only [and_assoc]

/-- The rebuilt domain: not assigned False, not held by another column. -/
theorem rebuildDomain_dom (c : CycleSet n) (i j v : Fin n) :
    (rebuildDomain c i j).dom v = true ↔
      (∀ l, l ≠ j → c.matrix i l ≠ some v) ∧ c.assignments i j v ≠ .isFalse := by
  rw [rebuildDomain, (foldl_drop c i j _ _ (BitDomain.Exact.setAll v.pos _)).2]
  simp only [BitDomain.setAll_dom, true_and, List.mem_finRange, forall_true_left]
  constructor
  · exact fun h => ⟨fun l hl => (h l).1 hl, (h v).2 rfl⟩
  · rintro ⟨hcol, hfalse⟩ l
    exact ⟨hcol l, fun _ => hfalse⟩

theorem rebuildDomain_exact (c : CycleSet n) (i j : Fin n) : (rebuildDomain c i j).Exact :=
  (foldl_drop c i j _ _ (BitDomain.Exact.setAll i.pos _)).1

/-- The domains after a true literal: its cell is a singleton, the rest of the row may lose
the value, and domains with one value are left alone. -/
structure AssignedTrue (c c' : CycleSet n) (i j k : Fin n) : Prop where
  cell : ∀ v, (c'.bitdomains i j).dom v = true ↔ v = k
  shrinks : ∀ l v, l ≠ j → (c'.bitdomains i l).dom v = true → (c.bitdomains i l).dom v = true
  others : ∀ l v, l ≠ j → v ≠ k → (c'.bitdomains i l).dom v = (c.bitdomains i l).dom v
  single : ∀ l, l ≠ j → (c.bitdomains i l).numTrue = 1 → c'.bitdomains i l = c.bitdomains i l
  rows : ∀ i' l, i' ≠ i → c'.bitdomains i' l = c.bitdomains i' l

theorem CycleSet.assignedTrue (c : CycleSet n) (i j k : Fin n) :
    AssignedTrue c (c.assign (i, j, k) true) i j k := by
  refine ⟨fun v => ?_, fun l v hl hv => ?_, fun l v hl hv => ?_, fun l hl hone => ?_,
    fun i' l hi => ?_⟩
  · simp [CycleSet.assign, Function.update_apply]
  · simp only [CycleSet.assign, if_true, if_neg hl] at hv
    split at hv
    · rw [BitDomain.reset_dom, Function.update_apply] at hv
      split at hv
      · cases hv
      · exact hv
    · exact hv
  · simp only [CycleSet.assign, if_true, if_neg hl]
    split
    · rw [BitDomain.reset_dom, Function.update_of_ne hv]
    · rfl
  · simp [CycleSet.assign, hl, hone]
  · simp [CycleSet.assign, hi]

theorem CycleSet.assign_exact {c : CycleSet n} (h : ∀ i j, (c.bitdomains i j).Exact)
    (i j k : Fin n) (positive : Bool) (i' l : Fin n) :
    ((c.assign (i, j, k) positive).bitdomains i' l).Exact := by
  cases positive
  · simp only [CycleSet.assign, Bool.false_eq_true, if_false]
    split
    · exact (h i j).reset k
    · exact h i' l
  · simp only [CycleSet.assign, if_true]
    split
    · split
      · exact (BitDomain.Exact.resetAll _).set k
      · split
        · exact (h i l).reset k
        · exact h i l
    · exact h i' l

/-- A true literal keeps the bounds, if no other value of its cell and no other column of its
row is true. -/
theorem DomainInv.assignTrue {s : Session n} {c : CycleSet n} (h : DomainInv s c) {i j k : Fin n}
    (hoff : s.cfg.diagPart = true → i ≠ j) (hcell : ∀ k', k' ≠ k → c.matrix i j ≠ some k')
    (hcolumn : ∀ l, l ≠ j → c.matrix i l ≠ some k) :
    DomainInv s (c.assign (i, j, k) true) := by
  have hdom := c.assignedTrue i j k
  have hA := c.assign_assignments i j k true
  have hm := c.assign_matrix i j k true
  generalize hc' : c.assign (i, j, k) true = c' at hdom hA hm
  have hexact : ∀ i' l, (c'.bitdomains i' l).Exact := fun i' l =>
    hc' ▸ CycleSet.assign_exact h.exact i j k true i' l
  refine ⟨hexact, fun i' l v hf => ?_, fun i' l v hnone hf hfree => ?_, fun i' l v hv => ?_,
    fun i' l l' v hl hl' => ?_, fun hd i' => ?_⟩
  · rw [hA] at hf
    split at hf
    · cases hf
    next hne =>
      have hbefore := h.excluded i' l v hf
      by_cases hi : i' = i
      · subst hi
        by_cases hl : l = j
        · subst hl
          rw [← Bool.not_eq_true, hdom.cell]
          rintro rfl
          exact hne rfl
        · rw [← Bool.not_eq_true]
          intro ht
          rw [hdom.shrinks l v hl ht] at hbefore
          cases hbefore
      · rwa [hdom.rows i' l hi]
  · rw [hm] at hnone
    split at hnone
    · cases hnone
    next hcellne =>
      rw [hA] at hf
      by_cases hi : i' = i
      · subst hi
        have hl : l ≠ j := fun hl => hcellne ⟨rfl, rfl, hl⟩
        have hv : v ≠ k := by
          rintro rfl
          exact hfree j (Ne.symm hl) (by rw [hm, if_pos ⟨rfl, rfl, rfl⟩])
        rw [hdom.others l v hl hv]
        refine h.included i' l v hnone (by simpa [hl] using hf) fun l' hl' => ?_
        by_cases hlj : l' = j
        · exact hlj ▸ hcell v hv
        · have := hfree l' hl'
          rwa [hm, if_neg fun h => hlj h.2.2] at this
      · rw [hdom.rows i' l hi]
        refine h.included i' l v hnone (by simpa [hi] using hf) fun l' hl' => ?_
        have := hfree l' hl'
        rwa [hm, if_neg fun h => hi h.2.1] at this
  · rw [hm] at hv
    split at hv
    next hcell' =>
      obtain ⟨-, rfl, rfl⟩ := hcell'
      exact (hdom.cell v).mpr (Option.some.inj hv).symm
    next hcell' =>
      have hbefore := h.own i' l v hv
      by_cases hi : i' = i
      · subst hi
        have hl : l ≠ j := fun hl => hcell' ⟨rfl, rfl, hl⟩
        have hvk : v ≠ k := by
          rintro rfl
          exact hcolumn l hl hv
        rwa [hdom.others l v hl hvk]
      · rwa [hdom.rows i' l hi]
  · rw [hm] at hl hl'
    split at hl <;> split at hl'
    next h1 h2 => exact h1.2.2.trans h2.2.2.symm
    next h1 h2 =>
      obtain ⟨-, rfl, rfl⟩ := h1
      obtain rfl := Option.some.inj hl
      exact absurd hl' (hcolumn l' fun hne => h2 ⟨rfl, rfl, hne⟩)
    next h1 h2 =>
      obtain ⟨-, rfl, rfl⟩ := h2
      obtain rfl := Option.some.inj hl'
      exact absurd hl (hcolumn l fun hne => h1 ⟨rfl, rfl, hne⟩)
    next => exact h.columns i' l l' v hl hl'
  · obtain ⟨hmi, hown, hrest⟩ := h.diagonal hd i'
    by_cases hi : i' = i
    · subst hi
      have hij := hoff hd
      have hone : (c.bitdomains i' i').numTrue = 1 := by
        rw [(h.exact i' i').numTrue]
        exact_mod_cast (countBits_eq_one_iff _).mpr ⟨s.d i', hown⟩
      refine ⟨?_, ?_, fun l hl => ?_⟩
      · rw [hm, if_neg fun h => hij h.2.2, hmi]
      · rwa [hdom.single i' hij hone]
      · rw [← Bool.not_eq_true]
        by_cases hlj : l = j
        · subst hlj
          rw [hdom.cell]
          intro hdk
          exact hcolumn i' hij (hdk ▸ hmi)
        · intro ht
          have hbefore := hdom.shrinks l _ hlj ht
          rw [hrest l hl] at hbefore
          cases hbefore
    · refine ⟨by rw [hm, if_neg fun h => hi h.2.1, hmi], ?_, fun l hl => ?_⟩
      · rwa [hdom.rows i' i' hi]
      · rw [hdom.rows i' l hi]
        exact hrest l hl

theorem CycleSet.assign_false_dom (c : CycleSet n) (i j k i' l v : Fin n) :
    ((c.assign (i, j, k) false).bitdomains i' l).dom v = true ↔
      (c.bitdomains i' l).dom v = true ∧ (i', l, v) ≠ (i, j, k) := by
  simp only [CycleSet.assign, Bool.false_eq_true, if_false]
  by_cases hc : i' = i ∧ l = j
  · obtain ⟨rfl, rfl⟩ := hc
    by_cases hv : v = k <;> simp [hv]
  · have hne : (i', l, v) ≠ (i, j, k) := by
      simp only [ne_eq, Prod.mk.injEq]
      exact fun h => hc ⟨h.1, h.2.1⟩
    simp [hc, hne]

/-- A false literal keeps the bounds, if its entry is not the value of its cell. -/
theorem DomainInv.assignFalse {s : Session n} {c : CycleSet n} (h : DomainInv s c) {i j k : Fin n}
    (hoff : s.cfg.diagPart = true → i ≠ j) (hvalue : c.matrix i j ≠ some k) :
    DomainInv s (c.assign (i, j, k) false) := by
  have hdom := c.assign_false_dom i j k
  have hA := c.assign_assignments i j k false
  have hm : ∀ i' l, (c.assign (i, j, k) false).matrix i' l = c.matrix i' l := fun i' l => by
    simp [c.assign_matrix]
  generalize hc' : c.assign (i, j, k) false = c' at hdom hA hm
  have hexact : ∀ i' l, (c'.bitdomains i' l).Exact := fun i' l =>
    hc' ▸ CycleSet.assign_exact h.exact i j k false i' l
  refine ⟨hexact, fun i' l v hf => ?_, fun i' l v hnone hf hfree => ?_, fun i' l v hv => ?_,
    fun i' l l' v hl hl' => ?_, fun hd i' => ?_⟩
  · rw [← Bool.not_eq_true, hdom]
    rintro ⟨hbefore, hne⟩
    rw [hA, if_neg hne] at hf
    rw [h.excluded i' l v hf] at hbefore
    cases hbefore
  · have hne : (i', l, v) ≠ (i, j, k) := fun he => hf (by rw [hA, if_pos he]; rfl)
    rw [hA, if_neg hne] at hf
    simp only [hm] at hnone hfree
    exact (hdom i' l v).mpr ⟨h.included i' l v hnone hf hfree, hne⟩
  · rw [hm] at hv
    refine (hdom i' l v).mpr ⟨h.own i' l v hv, fun he => hvalue ?_⟩
    simp only [Prod.mk.injEq] at he
    obtain ⟨rfl, rfl, rfl⟩ := he
    exact hv
  · rw [hm] at hl hl'
    exact h.columns i' l l' v hl hl'
  · obtain ⟨hmi, hown, hrest⟩ := h.diagonal hd i'
    refine ⟨by rw [hm, hmi], fun v => ?_, fun l hl => ?_⟩
    · rw [hdom, hown, and_iff_left]
      simp only [ne_eq, Prod.mk.injEq]
      rintro ⟨rfl, hij, -⟩
      exact hoff hd hij
    · rw [← Bool.not_eq_true, hdom, hrest l hl]
      simp

/-- The domains after a true literal is undone. -/
structure UndoneTrue (c c' : CycleSet n) (i j k : Fin n) : Prop where
  cell : c'.bitdomains i j = rebuildDomain c i j
  opened : ∀ l, l ≠ j → c.matrix i l = none → c.assignments i l k ≠ .isFalse →
    c'.bitdomains i l = (c.bitdomains i l).set k
  same : ∀ l, l ≠ j → c.matrix i l ≠ none ∨ c.assignments i l k = .isFalse →
    c'.bitdomains i l = c.bitdomains i l
  rows : ∀ i' l, i' ≠ i → c'.bitdomains i' l = c.bitdomains i' l

theorem CycleSet.undoneTrue (c : CycleSet n) {i j k : Fin n} (h : c.assignments i j k = .isTrue) :
    UndoneTrue c (c.undo (i, j, k)) i j k := by
  refine ⟨by simp [CycleSet.undo, h], fun l hl hnone hf => ?_, fun l hl hor => ?_,
    fun i' l hi => by simp [CycleSet.undo, h, hi]⟩
  · simp [CycleSet.undo, h, hl, hnone, hf]
  · rcases hor with hnone | hf
    · simp [CycleSet.undo, h, hl, hnone]
    · simp [CycleSet.undo, h, hl, hf]

/-- Undoing a true literal keeps the bounds. -/
theorem DomainInv.undoTrue {s : Session n} {c : CycleSet n} (h : DomainInv s c)
    (hmatrix : ∀ i j k, c.matrix i j = some k ↔ c.assignments i j k = .isTrue) {i j k : Fin n}
    (hoff : s.cfg.diagPart = true → i ≠ j) (htrue : c.assignments i j k = .isTrue) :
    DomainInv s (c.undo (i, j, k)) := by
  have hdom := c.undoneTrue htrue
  have hA := c.undo_assignments i j k
  have hm := c.undo_matrix i j k
  have hvalue : c.matrix i j = some k := (hmatrix i j k).mpr htrue
  generalize c.undo (i, j, k) = c' at hdom hA hm
  have hAfalse : ∀ i' l v, c'.assignments i' l v = .isFalse ↔ c.assignments i' l v = .isFalse := by
    intro i' l v
    rw [hA]
    split
    next he =>
      simp only [Prod.mk.injEq] at he
      obtain ⟨rfl, rfl, rfl⟩ := he
      simp [htrue]
    next => rfl
  have hmsub : ∀ {i' l v}, c'.matrix i' l = some v → c.matrix i' l = some v ∧ ¬ (i' = i ∧ l = j) := by
    intro i' l v hv
    rw [hm] at hv
    split at hv
    · cases hv
    next hne => exact ⟨hv, fun hc => hne ⟨htrue, hc⟩⟩
  have hmother : ∀ {i' l}, ¬ (i' = i ∧ l = j) → c'.matrix i' l = c.matrix i' l := fun hne => by
    rw [hm, if_neg fun hc => hne hc.2]
  refine ⟨fun i' l => ?_, fun i' l v hf => ?_, fun i' l v hnone hf hfree => ?_, fun i' l v hv => ?_,
    fun i' l l' v hl hl' => ?_, fun hd i' => ?_⟩
  · by_cases hi : i' = i
    · subst hi
      by_cases hl : l = j
      · subst hl
        rw [hdom.cell]
        exact rebuildDomain_exact c i' l
      · by_cases ho : c.matrix i' l = none ∧ c.assignments i' l k ≠ .isFalse
        · rw [hdom.opened l hl ho.1 ho.2]
          exact (h.exact i' l).set k
        · rw [hdom.same l hl (by tauto)]
          exact h.exact i' l
    · rw [hdom.rows i' l hi]
      exact h.exact i' l
  · rw [hAfalse] at hf
    by_cases hi : i' = i
    · subst hi
      by_cases hl : l = j
      · subst hl
        rw [← Bool.not_eq_true, hdom.cell, rebuildDomain_dom]
        exact fun hc => hc.2 hf
      · by_cases ho : c.matrix i' l = none ∧ c.assignments i' l k ≠ .isFalse
        · have hvk : v ≠ k := fun hvk => ho.2 (hvk ▸ hf)
          rw [hdom.opened l hl ho.1 ho.2, BitDomain.set_dom, Function.update_of_ne hvk]
          exact h.excluded i' l v hf
        · rw [hdom.same l hl (by tauto)]
          exact h.excluded i' l v hf
    · rw [hdom.rows i' l hi]
      exact h.excluded i' l v hf
  · rw [ne_eq, hAfalse] at hf
    by_cases hi : i' = i
    · subst hi
      by_cases hl : l = j
      · subst hl
        rw [hdom.cell, rebuildDomain_dom]
        refine ⟨fun l' hl' => ?_, hf⟩
        rw [← hmother fun hc => hl' hc.2]
        exact hfree l' hl'
      · rw [hmother fun hc => hl hc.2] at hnone
        by_cases hvk : v = k
        · subst hvk
          rw [hdom.opened l hl hnone hf, BitDomain.set_dom, Function.update_self]
        · have hbefore : (c.bitdomains i' l).dom v = true := by
            refine h.included i' l v hnone hf fun l' hl' => ?_
            by_cases hlj : l' = j
            · rw [hlj, hvalue]
              exact fun he => hvk (Option.some.inj he).symm
            · rw [← hmother fun hc => hlj hc.2]
              exact hfree l' hl'
          by_cases ho : c.assignments i' l k = .isFalse
          · rwa [hdom.same l hl (Or.inr ho)]
          · rwa [hdom.opened l hl hnone ho, BitDomain.set_dom, Function.update_of_ne hvk]
    · rw [hdom.rows i' l hi]
      rw [hmother fun hc => hi hc.1] at hnone
      refine h.included i' l v hnone hf fun l' hl' => ?_
      rw [← hmother fun hc => hi hc.1]
      exact hfree l' hl'
  · obtain ⟨hv, hne⟩ := hmsub hv
    by_cases hi : i' = i
    · subst hi
      have hl : l ≠ j := fun hl => hne ⟨rfl, hl⟩
      rw [hdom.same l hl (Or.inl (by simp [hv]))]
      exact h.own i' l v hv
    · rw [hdom.rows i' l hi]
      exact h.own i' l v hv
  · exact h.columns i' l l' v (hmsub hl).1 (hmsub hl').1
  · obtain ⟨hmi, hown, hrest⟩ := h.diagonal hd i'
    have hdiag : ¬ (i' = i ∧ i' = j) := fun hc => hoff hd (hc.1.symm.trans hc.2)
    refine ⟨(hmother hdiag).trans hmi, ?_, fun l hl => ?_⟩
    · by_cases hi : i' = i
      · subst hi
        rwa [hdom.same i' (hoff hd) (Or.inl (by simp [hmi]))]
      · rwa [hdom.rows i' i' hi]
    · by_cases hi : i' = i
      · subst hi
        by_cases hlj : l = j
        · subst hlj
          rw [← Bool.not_eq_true, hdom.cell, rebuildDomain_dom]
          exact fun hc => hc.1 i' (Ne.symm hl) hmi
        · by_cases ho : c.matrix i' l = none ∧ c.assignments i' l k ≠ .isFalse
          · have hdk : s.d i' ≠ k := by
              rintro rfl
              exact hoff hd (h.columns i' i' j _ hmi hvalue)
            rw [hdom.opened l hlj ho.1 ho.2, BitDomain.set_dom, Function.update_of_ne hdk]
            exact hrest l hl
          · rw [hdom.same l hlj (by tauto)]
            exact hrest l hl
      · rw [hdom.rows i' l hi]
        exact hrest l hl

theorem CycleSet.undo_false_dom (c : CycleSet n) {i j k : Fin n}
    (h : c.assignments i j k = .isFalse) (i' l v : Fin n) :
    ((c.undo (i, j, k)).bitdomains i' l).dom v = true ↔
      (c.bitdomains i' l).dom v = true ∨ (i', l, v) = (i, j, k) := by
  simp only [CycleSet.undo, h]
  by_cases hc : i' = i ∧ l = j
  · obtain ⟨rfl, rfl⟩ := hc
    by_cases hv : v = k <;> simp [hv]
  · have hne : (i', l, v) ≠ (i, j, k) := by
      simp only [ne_eq, Prod.mk.injEq]
      exact fun h => hc ⟨h.1, h.2.1⟩
    simp [hc, hne]

/-- Undoing a false literal keeps the bounds, unless it gives an off-diagonal cell back the
value of its row's diagonal. -/
theorem DomainInv.undoFalse {s : Session n} {c : CycleSet n} (h : DomainInv s c) {i j k : Fin n}
    (hoff : s.cfg.diagPart = true → i ≠ j) (hclean : s.cfg.diagPart = true → k ≠ s.d i)
    (hfalse : c.assignments i j k = .isFalse) : DomainInv s (c.undo (i, j, k)) := by
  have hdom := c.undo_false_dom hfalse
  have hA := c.undo_assignments i j k
  have hm : ∀ i' l, (c.undo (i, j, k)).matrix i' l = c.matrix i' l := fun i' l => by
    simp [c.undo_matrix, hfalse]
  have hexact : ∀ i' l, ((c.undo (i, j, k)).bitdomains i' l).Exact := by
    intro i' l
    simp only [CycleSet.undo, hfalse]
    split
    · exact (h.exact i j).set k
    · exact h.exact i' l
  generalize c.undo (i, j, k) = c' at hdom hA hm hexact
  refine ⟨hexact, fun i' l v hf => ?_, fun i' l v hnone hf hfree => ?_, fun i' l v hv => ?_,
    fun i' l l' v hl hl' => ?_, fun hd i' => ?_⟩
  · rw [hA] at hf
    split at hf
    · cases hf
    next hne =>
      rw [← Bool.not_eq_true, hdom, h.excluded i' l v hf]
      simpa using hne
  · simp only [hm] at hnone hfree
    rw [hdom]
    by_cases hne : (i', l, v) = (i, j, k)
    · exact Or.inr hne
    · rw [hA, if_neg hne] at hf
      exact Or.inl (h.included i' l v hnone hf hfree)
  · rw [hm] at hv
    exact (hdom i' l v).mpr (Or.inl (h.own i' l v hv))
  · rw [hm] at hl hl'
    exact h.columns i' l l' v hl hl'
  · obtain ⟨hmi, hown, hrest⟩ := h.diagonal hd i'
    refine ⟨by rw [hm, hmi], fun v => ?_, fun l hl => ?_⟩
    · rw [hdom, hown, or_iff_left]
      simp only [Prod.mk.injEq]
      rintro ⟨rfl, hij, -⟩
      exact hoff hd hij
    · rw [← Bool.not_eq_true, hdom, hrest l hl]
      simp only [Bool.false_eq_true, false_or, Prod.mk.injEq]
      rintro ⟨rfl, -, hk⟩
      exact hclean hd hk.symm

end YbeSms.Source
