import YbeSms.Source.DomainTrail
import YbeSms.Source.WholeClauses

/-!
# A total trail

Source: ybe-sms/src/solveCadicalClass.hpp:164-257; solveCadicalClass.cpp:172-191. While the
domains of open cells may be too large after a backtrack, a domain never keeps a
value that is refused and never loses the value of its cell, unless that is the
diagonal's value of the row, which the full encoding leaves free to stand in several
columns for a while. So once every observed variable is assigned, the propagator
shows the table that is assigned.
-/

namespace YbeSms.Source

open YbeSms.Library YbeSms.Abstract

variable {n : Nat}

/-- The bounds on the domains that every backtrack keeps. -/
structure HeldInv (s : Session n) (c : CycleSet n) : Prop where
  exact : ∀ i j, (c.bitdomains i j).Exact
  excluded : ∀ i j k, c.assignments i j k = .isFalse → (c.bitdomains i j).dom k = false
  own : ∀ i j k, (s.cfg.diagPart = true → k ≠ s.d i) → c.matrix i j = some k →
    (c.bitdomains i j).dom k = true
  diagonal : s.cfg.diagPart = true → ∀ i, c.matrix i i = some (s.d i) ∧
    ∀ k, (c.bitdomains i i).dom k = true ↔ k = s.d i
  outside : ∀ i j k, (s.cfg.diagPart = true → i ≠ j) → s.observed (i, j, k) = false →
    (c.bitdomains i j).dom k = false

/-- Off the diagonal the only entry without a variable is that of the diagonal value. -/
theorem Session.of_not_observed {s : Session n} {i j k : Fin n} (hij : s.cfg.diagPart = true → i ≠ j)
    (ho : s.observed (i, j, k) = false) :
    s.cfg.diagPart = true ∧ s.cfg.smallerEncoding = true ∧ k = s.d i := by
  unfold Session.observed entryObserved at ho
  simp only [Bool.or_eq_false_iff, Bool.not_eq_false', Bool.and_eq_false_imp, bne_iff_ne,
    bne_eq_false_iff_eq] at ho
  have hd := ho.1
  exact ⟨hd, ho.2 (hij hd)⟩

/-- In a row the diagonal value has a variable in all off-diagonal cells or in none. -/
theorem Session.observed_column {s : Session n} {i j l k : Fin n}
    (ho : s.observed (i, j, k) = true) (hl : s.cfg.diagPart = true → i ≠ l) :
    s.observed (i, l, k) = true := by
  by_contra hno
  obtain ⟨hd, hsmall, hk⟩ := Session.of_not_observed hl (by simpa using hno)
  simp [Session.observed, entryObserved, hd, hsmall, hk] at ho

section Steps

variable {s : Session n} {c : CycleSet n} {i j k : Fin n}

theorem HeldInv.assignTrue (h : HeldInv s c) (hoff : s.cfg.diagPart = true → i ≠ j)
    (ho : s.observed (i, j, k) = true)
    (hcolumn : (s.cfg.diagPart = true → k ≠ s.d i) → ∀ l, l ≠ j → c.matrix i l ≠ some k) :
    HeldInv s (c.assign (i, j, k) true) := by
  have hdom := c.assignedTrue i j k
  have hA := c.assign_assignments i j k true
  have hm := c.assign_matrix i j k true
  have hexact := CycleSet.assign_exact h.exact i j k true
  generalize c.assign (i, j, k) true = c' at hdom hA hm hexact
  -- no domain gains a value but that of the cell
  have hgain : ∀ i' l v, (c'.bitdomains i' l).dom v = true →
      (c.bitdomains i' l).dom v = true ∨ (i', l, v) = (i, j, k) := by
    intro i' l v hv
    by_cases hi : i' = i
    · subst hi
      by_cases hl : l = j
      · subst hl
        exact Or.inr (by rw [(hdom.cell v).mp hv])
      · exact Or.inl (hdom.shrinks l v hl hv)
    · rw [hdom.rows i' l hi] at hv
      exact Or.inl hv
  refine ⟨hexact, fun i' l v hf => ?_, fun i' l v hvd hv => ?_, fun hd i' => ?_,
    fun i' l v hil hov => ?_⟩
  · rw [← Bool.not_eq_true]
    intro hv
    rw [hA] at hf
    split at hf
    · cases hf
    next hne =>
      rcases hgain i' l v hv with hold | heq
      · rw [h.excluded i' l v hf] at hold
        cases hold
      · exact hne heq
  · by_cases hc : i' = i ∧ l = j
    · obtain ⟨rfl, rfl⟩ := hc
      rw [hm, if_pos ⟨rfl, rfl, rfl⟩] at hv
      exact (hdom.cell v).mpr (Option.some.inj hv).symm
    · rw [hm, if_neg fun hno => hc hno.2] at hv
      by_cases hi : i' = i
      · subst hi
        have hl : l ≠ j := fun hl => hc ⟨rfl, hl⟩
        have hvk : v ≠ k := by
          rintro rfl
          exact hcolumn hvd l hl hv
        rw [hdom.others l v hl hvk]
        exact h.own i' l v hvd hv
      · rw [hdom.rows i' l hi]
        exact h.own i' l v hvd hv
  · obtain ⟨hmi, hown⟩ := h.diagonal hd i'
    have hne : ¬ (i' = i ∧ i' = j) := fun hc => hoff hd (hc.1.symm.trans hc.2)
    refine ⟨by rw [hm, if_neg fun hc => hne hc.2, hmi], ?_⟩
    -- the loop over the row skips domains with one value
    have hone : (c.bitdomains i' i').numTrue = 1 := by
      rw [(h.exact i' i').numTrue, Nat.cast_eq_one, countBits_eq_one_iff]
      exact ⟨s.d i', hown⟩
    have hsame : c'.bitdomains i' i' = c.bitdomains i' i' := by
      by_cases hi : i' = i
      · subst hi
        exact hdom.single i' (fun hj => hne ⟨rfl, hj⟩) hone
      · exact hdom.rows i' i' hi
    rwa [hsame]
  · rw [← Bool.not_eq_true]
    intro hv
    rcases hgain i' l v hv with hold | heq
    · rw [h.outside i' l v hil hov] at hold
      cases hold
    · rw [heq, ho] at hov
      cases hov

theorem HeldInv.assignFalse (h : HeldInv s c) (hoff : s.cfg.diagPart = true → i ≠ j)
    (hvalue : c.matrix i j ≠ some k) : HeldInv s (c.assign (i, j, k) false) := by
  have hdom := c.assign_false_dom i j k
  have hA := c.assign_assignments i j k false
  have hm : ∀ i' l, (c.assign (i, j, k) false).matrix i' l = c.matrix i' l := fun i' l => by
    simp [c.assign_matrix]
  have hexact := CycleSet.assign_exact h.exact i j k false
  generalize c.assign (i, j, k) false = c' at hdom hA hm hexact
  refine ⟨hexact, fun i' l v hf => ?_, fun i' l v hvd hv => ?_, fun hd i' => ?_,
    fun i' l v hil hov => ?_⟩
  · rw [← Bool.not_eq_true, hdom]
    rintro ⟨hold, hne⟩
    rw [hA, if_neg hne] at hf
    rw [h.excluded i' l v hf] at hold
    cases hold
  · rw [hm] at hv
    refine (hdom i' l v).mpr ⟨h.own i' l v hvd hv, fun heq => hvalue ?_⟩
    simp only [Prod.mk.injEq] at heq
    obtain ⟨rfl, rfl, rfl⟩ := heq
    exact hv
  · obtain ⟨hmi, hown⟩ := h.diagonal hd i'
    refine ⟨by rw [hm, hmi], fun v => ?_⟩
    rw [hdom, hown, and_iff_left]
    simp only [ne_eq, Prod.mk.injEq]
    rintro ⟨rfl, hij, -⟩
    exact hoff hd hij
  · rw [← Bool.not_eq_true, hdom, h.outside i' l v hil hov]
    simp

/-- A domain only gains values that are left open, in cells without a value. -/
theorem HeldInv.undoTrue (h : HeldInv s c) (hoff : s.cfg.diagPart = true → i ≠ j)
    (ho : s.observed (i, j, k) = true) (htrue : c.assignments i j k = .isTrue) : HeldInv s (c.undo (i, j, k)) := by
  have hdom := c.undoneTrue htrue
  have hA := c.undo_assignments i j k
  have hm := c.undo_matrix i j k
  generalize c.undo (i, j, k) = c' at hdom hA hm
  have hmsub : ∀ {i' l v}, c'.matrix i' l = some v → c.matrix i' l = some v ∧ ¬ (i' = i ∧ l = j) := by
    intro i' l v hv
    rw [hm] at hv
    split at hv
    · cases hv
    next hne => exact ⟨hv, fun hc => hne ⟨htrue, hc⟩⟩
  have hcases : ∀ i' l, c'.bitdomains i' l = c.bitdomains i' l ∨
      (i' = i ∧ l = j ∧ c'.bitdomains i' l = rebuildDomain c i j) ∨
      (i' = i ∧ l ≠ j ∧ c.matrix i l = none ∧ c.assignments i l k ≠ .isFalse ∧
        c'.bitdomains i' l = (c.bitdomains i l).set k) := by
    intro i' l
    by_cases hi : i' = i
    · subst hi
      by_cases hl : l = j
      · subst hl
        exact Or.inr (Or.inl ⟨rfl, rfl, hdom.cell⟩)
      · by_cases hopen : c.matrix i' l = none ∧ c.assignments i' l k ≠ .isFalse
        · exact Or.inr (Or.inr ⟨rfl, hl, hopen.1, hopen.2, hdom.opened l hl hopen.1 hopen.2⟩)
        · exact Or.inl (hdom.same l hl (by tauto))
    · exact Or.inl (hdom.rows i' l hi)
  refine ⟨fun i' l => ?_, fun i' l v hf => ?_, fun i' l v hvd hv => ?_, fun hd i' => ?_,
    fun i' l v hil hov => ?_⟩
  · rcases hcases i' l with heq | ⟨-, -, heq⟩ | ⟨-, -, -, -, heq⟩
    · rw [heq]
      exact h.exact i' l
    · rw [heq]
      exact rebuildDomain_exact c i j
    · rw [heq]
      exact (h.exact i l).set k
  · have hbefore : c.assignments i' l v = .isFalse := by
      rw [hA] at hf
      split at hf
      · cases hf
      · exact hf
    rcases hcases i' l with heq | ⟨rfl, rfl, heq⟩ | ⟨rfl, -, -, hopen, heq⟩
    · rw [heq]
      exact h.excluded i' l v hbefore
    · rw [heq, ← Bool.not_eq_true, rebuildDomain_dom]
      exact fun hc => hc.2 hbefore
    · have hvk : v ≠ k := fun hvk => hopen (hvk ▸ hbefore)
      rw [heq, BitDomain.set_dom, Function.update_of_ne hvk]
      exact h.excluded i' l v hbefore
  · obtain ⟨hv, hne⟩ := hmsub hv
    rcases hcases i' l with heq | ⟨rfl, rfl, -⟩ | ⟨rfl, -, hnone, -, -⟩
    · rw [heq]
      exact h.own i' l v hvd hv
    · exact absurd ⟨rfl, rfl⟩ hne
    · rw [hnone] at hv
      cases hv
  · obtain ⟨hmi, hown⟩ := h.diagonal hd i'
    have hne : ¬ (i' = i ∧ i' = j) := fun hc => hoff hd (hc.1.symm.trans hc.2)
    refine ⟨by rw [hm, if_neg fun hc => hne hc.2, hmi], ?_⟩
    rcases hcases i' i' with heq | ⟨hi, hj, -⟩ | ⟨rfl, -, hnone, -, -⟩
    · rwa [heq]
    · exact absurd ⟨hi, hj⟩ hne
    · rw [hmi] at hnone
      cases hnone
  · rcases hcases i' l with heq | ⟨rfl, rfl, heq⟩ | ⟨rfl, -, -, -, heq⟩
    · rw [heq]
      exact h.outside i' l v hil hov
    · obtain ⟨hd, -, rfl⟩ := Session.of_not_observed hil hov
      rw [heq, ← Bool.not_eq_true, rebuildDomain_dom]
      exact fun hc => hc.1 i' (hil hd) (h.diagonal hd i').1
    · have hvk : v ≠ k := by
        rintro rfl
        rw [Session.observed_column ho hil] at hov
        cases hov
      rw [heq, BitDomain.set_dom, Function.update_of_ne hvk]
      exact h.outside i' l v hil hov

/-- Also where the value given back is that of the row's diagonal. -/
theorem HeldInv.undoFalse (h : HeldInv s c) (hoff : s.cfg.diagPart = true → i ≠ j)
    (ho : s.observed (i, j, k) = true) (hfalse : c.assignments i j k = .isFalse) :
    HeldInv s (c.undo (i, j, k)) := by
  have hdom := c.undo_false_dom hfalse
  have hA := c.undo_assignments i j k
  have hm : ∀ i' l, (c.undo (i, j, k)).matrix i' l = c.matrix i' l := fun i' l => by
    simp [c.undo_matrix, hfalse]
  have hexact : ∀ i' l, ((c.undo (i, j, k)).bitdomains i' l).Exact := by
    intro i' l
    simp only [CycleSet.undo, hfalse]
    split
    · exact (h.exact i j).set k
    · exact h.exact i' l
  generalize c.undo (i, j, k) = c' at hdom hA hm hexact
  refine ⟨hexact, fun i' l v hf => ?_, fun i' l v hvd hv => ?_, fun hd i' => ?_,
    fun i' l v hil hov => ?_⟩
  · rw [hA] at hf
    split at hf
    · cases hf
    next hne =>
      rw [← Bool.not_eq_true, hdom, h.excluded i' l v hf]
      simpa using hne
  · rw [hm] at hv
    exact (hdom i' l v).mpr (Or.inl (h.own i' l v hvd hv))
  · obtain ⟨hmi, hown⟩ := h.diagonal hd i'
    refine ⟨by rw [hm, hmi], fun v => ?_⟩
    rw [hdom, hown, or_iff_left]
    simp only [Prod.mk.injEq]
    rintro ⟨rfl, hij, -⟩
    exact hoff hd hij
  · rw [← Bool.not_eq_true, hdom, h.outside i' l v hil hov]
    simp only [Bool.false_eq_true, false_or]
    intro heq
    rw [heq, ho] at hov
    cases hov

end Steps

/-- A value is notified true in at most one column of a row. For the diagonal's value of the row
there is no such constraint: `encodeEntries` leaves it out. -/
def OneColumn (s : Session n) (l : Ledger) : Notification → Prop
  | .assignment lit _ => ∀ i j k, s.observed (i, j, k) = true → lit = s.lits i j k →
      (s.cfg.diagPart = true → k ≠ s.d i) → ∀ j', j' ≠ j → ¬ l.Held (s.lits i j' k)
  | _ => True

/-- What the solver promises of its notifications. -/
def Notifies (s : Session n) (l : Ledger) (e : Notification) : Prop :=
  s.Promised l e ∧ OneColumn s l e

/-- Without fixed rows the domains of an open cell are bounded from below as well. -/
theorem DomainInv.held {s : Session n} {c : CycleSet n} (h : DomainInv s c) : HeldInv s c where
  exact := h.exact
  excluded := h.excluded
  own i j k _ := h.own i j k
  diagonal hd i := ⟨(h.diagonal hd i).1, (h.diagonal hd i).2.1⟩
  outside i j k hij ho := by
    obtain ⟨hd, -, rfl⟩ := Session.of_not_observed hij ho
    exact (h.diagonal hd i).2.2 j (Ne.symm (hij hd))

theorem undoKeeps_held (s : Session n) :
    UndoKeeps s (HeldInv s) (fun e _ => s.start.fixedCycleSet e.1 e.2.1 e.2.2 = false) where
  unflagged _ _ _ _ _ h := h
  keeps c H i j k positive hmirrors ho hheld _ _ hD := by
    cases positive with
    | true => exact hD.undoTrue (s.offDiagonal ho) ho ((hmirrors.isTrue i j k ho).mpr hheld)
    | false => exact hD.undoFalse (s.offDiagonal ho) ho ((hmirrors.isFalse i j k ho).mpr hheld)

theorem stepKeeps_held (s : Session n) (hf : s.cfg.fixedRow = 0) :
    StepKeeps s (HeldInv s) (fun e _ => s.start.fixedCycleSet e.1 e.2.1 e.2.2 = false)
      (Notifies s) where
  promised _ _ h := h.1
  clean p l newLevel hpic hallowed := by
    rintro lit hlit hfixed ⟨i, j, k⟩ positive ho rfl
    rw [← Bool.not_eq_true, s.start_flagged]
    rintro (hdiag | ⟨hpos, -⟩)
    · exact s.offDiagonal ho hdiag.1 hdiag.2
    · omega
  assign p l lit isFixed hpic hallowed := by
    rintro ⟨i, j, k⟩ positive ho rfl
    obtain ⟨⟨-, hfree, -, hcell⟩, hrow⟩ := hallowed
    cases positive with
    | true =>
      apply hpic.extra.assignTrue (s.offDiagonal ho) ho
      intro hk l' hl' hm
      have hil : s.cfg.diagPart = true → i ≠ l' := by
        rintro hd rfl
        rw [(hpic.extra.diagonal hd i).1] at hm
        exact hk hd (Option.some.inj hm).symm
      exact hrow i j k ho rfl hk l' hl' (hpic.held_of_matrix hil hm).2
    | false =>
      apply hpic.extra.assignFalse (s.offDiagonal ho)
      intro hm
      have hheld := (hpic.held_of_matrix (s.offDiagonal ho) hm).2
      rcases hfree with ⟨-, hnot⟩ | ⟨-, hagain⟩
      · exact hnot (by simpa [signed] using hheld)
      · exact hpic.consistent _ hheld (by simpa [signed] using hagain)

/-- The object that checks minimality, from the tables the solver was built with. -/
def Session.mincheck (s : Session n) (before : Bool) : MinCheck n := ⟨s.cfg, s.d, s.lits, before⟩

/-- Every observed variable is held with the sign it has in the table. -/
def Assigns (s : Session n) (l : Ledger) (M : Fin n → Fin n → Fin n) : Prop :=
  ∀ e, s.observed e = true → s.Holds l e (decide (M e.1 e.2.1 = e.2.2))

section Total

variable {s : Session n} {before : Bool} {p : Propagator n} {l : Ledger}
  {M : Fin n → Fin n → Fin n}

/-- The cells of an assigned table have its values. -/
theorem matrix_of_assigns (h : Picture s (HeldInv s) p l) (hM : (s.mincheck before).Admits M)
    (ha : Assigns s l M) (i j : Fin n) : p.currentCycleSet.matrix i j = some (M i j) := by
  by_cases hij : s.cfg.diagPart = true ∧ i = j
  · obtain ⟨hd, rfl⟩ := hij
    rw [(h.extra.diagonal hd i).1, hM.diagonal hd i]
    rfl
  · have hoff : s.cfg.diagPart = true → i ≠ j := fun hd heq => hij ⟨hd, heq⟩
    have ho : s.observed (i, j, M i j) = true := by
      by_contra hno
      obtain ⟨hd, -, hval⟩ := Session.of_not_observed hoff (by simpa using hno)
      have hdiag : M i i = s.d i := hM.diagonal hd i
      exact hoff hd ((hM.rows i).1 (hdiag.trans hval.symm))
    have hheld := ha (i, j, M i j) ho
    rw [decide_eq_true rfl] at hheld
    exact (h.mirrors.matrix i j _).mpr ((h.mirrors.isTrue i j _ ho).mpr hheld)

/-- Every other value of a cell is refused, or never had a variable. -/
theorem refused_of_assigns (h : Picture s (HeldInv s) p l) (ha : Assigns s l M) {i j v : Fin n}
    (ho : s.observed (i, j, v) = true) (hne : M i j ≠ v) :
    p.currentCycleSet.assignments i j v = .isFalse := by
  have hheld := ha (i, j, v) ho
  rw [decide_eq_false hne] at hheld
  exact (h.mirrors.isFalse i j v ho).mpr hheld

theorem total_of_assigns (h : Picture s (HeldInv s) p l) (hM : (s.mincheck before).Admits M)
    (ha : Assigns s l M) : (s.mincheck before).Total p.currentCycleSet M := by
  have hmatrix := matrix_of_assigns h hM ha
  have hD := h.extra
  -- the domain of a cell is its value
  have hdomain : ∀ i j w, (p.currentCycleSet.bitdomains i j).dom w = true ↔ w = M i j := by
    intro i j w
    by_cases hij : s.cfg.diagPart = true ∧ i = j
    · obtain ⟨hd, rfl⟩ := hij
      have hdiag : M i i = s.d i := hM.diagonal hd i
      rw [(hD.diagonal hd i).2, hdiag]
    · have hoff : s.cfg.diagPart = true → i ≠ j := fun hd heq => hij ⟨hd, heq⟩
      constructor
      · intro hw
        by_contra hne
        by_cases ho : s.observed (i, j, w) = true
        · rw [hD.excluded i j w (refused_of_assigns h ha ho (Ne.symm hne))] at hw
          cases hw
        · rw [hD.outside i j w hoff (by simpa using ho)] at hw
          cases hw
      · rintro rfl
        refine hD.own i j _ (fun hd heq => hoff hd ?_) (hmatrix i j)
        exact (hM.rows i).1 ((hM.diagonal hd i).trans heq.symm)
  refine ⟨⟨⟨hD.exact, fun i j => ⟨M i j, (hdomain i j _).mpr rfl⟩, h.mirrors.matrix, hD.excluded,
    fun i j v hv w => ?_, fun hd i => (hD.diagonal hd i).1⟩, hmatrix, hM.rows⟩,
    fun i j v hfree hne => ?_⟩
  · rw [hmatrix] at hv
    rw [hdomain, Option.some.inj hv]
  · by_cases hij : s.cfg.diagPart = true ∧ i = j
    · obtain ⟨hd, rfl⟩ := hij
      have hdiag : M i i = s.d i := hM.diagonal hd i
      have ho : s.observed (i, i, v) = false := by
        simp [Session.observed, entryObserved, hd]
      rw [h.mirrors.other i i v ho, s.start_assignments, if_pos ⟨hd, rfl⟩, if_neg]
      rw [← hdiag]
      exact Ne.symm hne
    · have hoff : s.cfg.diagPart = true → i ≠ j := fun hd heq => hij ⟨hd, heq⟩
      apply refused_of_assigns h ha _ hne
      by_contra hno
      obtain ⟨hd, -, hval⟩ := Session.of_not_observed hoff (by simpa using hno)
      unfold MinCheck.isDiagValue at hfree
      have hdiag : (s.mincheck before).cfg.diagPart = true := hd
      rw [hdiag, (hD.diagonal hd i).1, Bool.true_and, hval] at hfree
      simp at hfree

end Total

end YbeSms.Source
