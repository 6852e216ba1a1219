import YbeSms.Source.DomainTrail

/-!
# Backtracking and the value domains

Source: ybe-sms/src/solveCadicalClass.hpp:164-202, 209-257; solveCadicalClass.cpp:172-191;
domains.cpp:23-65. In the full encoding with a diagonal the entries (i, j, d[i]) off
the diagonal are observed; undoing such a false literal puts d[i] back into the
domain of the cell, although the diagonal cell holds it.
-/

namespace YbeSms.Guarantees

open YbeSms.Library YbeSms.Abstract YbeSms.Source

variable {n : Nat}

/-- The notified assignment is closed under the exactly-one constraints: next to a true entry
every other value of the cell and the value in every other column is notified false. -/
def Closed (s : Session n) (l : Ledger) : Prop :=
  ∀ i j k, s.observed (i, j, k) = true → l.Held (s.lits i j k) →
    (∀ k', k' ≠ k → s.lits i j k' ≠ 0 → l.Held (-s.lits i j k')) ∧
    ∀ j', j' ≠ j → (s.cfg.diagPart = true → j' ≠ i) → s.lits i j' k ≠ 0 →
      l.Held (-s.lits i j' k)

theorem Closed.of_held {s : Session n} {l l' : Ledger} (h : Closed s l)
    (hsame : ∀ lit, l'.Held lit ↔ l.Held lit) : Closed s l' := by
  intro i j k ho hheld
  obtain ⟨hcell, hrow⟩ := h i j k ho ((hsame _).mp hheld)
  exact ⟨fun k' hne h0 => (hsame _).mpr (hcell k' hne h0),
    fun j' hne hj' h0 => (hsame _).mpr (hrow j' hne hj' h0)⟩

/-- Besides the general promises: a value is true in at most one column of a row, the diagonal
included, and decision levels are opened on closed assignments. -/
def RowPromised (s : Session n) (l : Ledger) : Notification → Prop
  | .assignment lit _ => ∀ i j k, s.observed (i, j, k) = true → lit = s.lits i j k →
      (∀ j', j' ≠ j → ¬ l.Held (s.lits i j' k)) ∧ (s.cfg.diagPart = true → k ≠ s.d i)
  | .newDecisionLevel => Closed s l
  | .backtrack _ => True

/-- No step undoes a literal on an off-diagonal entry (i, j, d[i]) that is not fixed. -/
def UndoesNoDiagonalValue (s : Session n) (l : Ledger) : Notification → Prop
  | .backtrack newLevel => s.cfg.diagPart = true → ∀ lit ∈ l.undone newLevel, lit ∉ l.fixed →
      ∀ i j, i ≠ j → lit ≠ s.lits i j (s.d i) ∧ lit ≠ -s.lits i j (s.d i)
  | _ => True

/-- All that the run promises, and the condition under which backtracking is right. -/
def DomainStep (s : Session n) (l : Ledger) (e : Notification) : Prop :=
  s.Promised l e ∧ RowPromised s l e ∧ UndoesNoDiagonalValue s l e

/-- The domain the assignment asks for: the cell's own value, or else the values that are
not assigned False and that no other cell of the row holds. -/
def InDomain (c : CycleSet n) (i j v : Fin n) : Prop :=
  match c.matrix i j with
  | some k => v = k
  | none => c.assignments i j v ≠ .isFalse ∧ ∀ l, l ≠ j → c.matrix i l ≠ some v

def CleanEntry (s : Session n) (e : Entry n) (positive : Bool) : Prop :=
  s.start.fixedCycleSet e.1 e.2.1 e.2.2 = false ∧
    (s.cfg.diagPart = true → positive = false → e.2.2 ≠ s.d e.1)

theorem undoKeeps_domains (s : Session n) :
    UndoKeeps s (DomainInv s) (CleanEntry s) where
  unflagged _ _ _ _ _ h := h.1
  keeps c H i j k positive hmirrors ho hheld _ hclean hD := by
    cases positive with
    | true => exact hD.undoTrue hmirrors.matrix (s.offDiagonal ho) ((hmirrors.isTrue i j k ho).mpr hheld)
    | false =>
      exact hD.undoFalse (s.offDiagonal ho) (fun hd => hclean.2 hd rfl)
        ((hmirrors.isFalse i j k ho).mpr hheld)

theorem stepKeeps_domains (s : Session n) (hf : s.cfg.fixedRow = 0) :
    StepKeeps s (DomainInv s) (CleanEntry s) (DomainStep s) where
  promised _ _ h := h.1
  clean p l newLevel hpic hallowed := by
    rintro lit hlit hfixed ⟨i, j, k⟩ positive ho rfl
    refine ⟨?_, ?_⟩
    · rw [← Bool.not_eq_true, s.start_flagged]
      rintro (hdiag | ⟨hpos, -⟩)
      · exact s.offDiagonal ho hdiag.1 hdiag.2
      · omega
    · rintro hd rfl hk
      have hk' : k = s.d i := hk
      refine (hallowed.2.2 hd _ hlit hfixed i j (s.offDiagonal ho hd)).2 ?_
      rw [← hk']
      rfl
  assign p l lit isFixed hpic hallowed := by
    rintro ⟨i, j, k⟩ positive ho rfl
    obtain ⟨⟨-, hfree, -, hcell⟩, hrow, -⟩ := hallowed
    cases positive with
    | true =>
      refine hpic.extra.assignTrue (s.offDiagonal ho) (fun k' hk' hm => ?_) fun l' hl' hm => ?_
      · exact hcell i j k k' rfl hk' (hpic.held_of_matrix (s.offDiagonal ho) hm).2
      · obtain ⟨hcolumns, hdiag⟩ := hrow i j k ho rfl
        by_cases hil : s.cfg.diagPart = true ∧ i = l'
        · obtain ⟨hd, rfl⟩ := hil
          have hmi := (hpic.extra.diagonal hd i).1
          rw [hm] at hmi
          exact hdiag hd (Option.some.inj hmi)
        · exact hcolumns l' hl' (hpic.held_of_matrix (fun hd hij => hil ⟨hd, hij⟩) hm).2
    | false =>
      refine hpic.extra.assignFalse (s.offDiagonal ho) fun hm => ?_
      have hheld := (hpic.held_of_matrix (s.offDiagonal ho) hm).2
      rcases hfree with ⟨-, hnot⟩ | ⟨-, hagain⟩
      · exact hnot (by simpa [signed] using hheld)
      · exact hpic.consistent _ hheld (by simpa [signed] using hagain)

theorem start_bitdomains (s : Session n) (hf : s.cfg.fixedRow = 0) (i j : Fin n) :
    s.start.currentCycleSet.bitdomains i j =
      if s.cfg.diagPart = true then
        if j = i then (BitDomain.ofInit true).resetAll.set (s.d i)
        else (BitDomain.ofInit true).reset (s.d i)
      else .ofInit true := by
  unfold Session.start Propagator.init
  by_cases hd : s.cfg.diagPart = true <;> simp [hd, hf, fixDiag, CycleSet.init]

theorem start_domains (s : Session n) (hf : s.cfg.fixedRow = 0) :
    DomainInv s s.start.currentCycleSet := by
  have hall : ∀ v : Fin n, (BitDomain.ofInit true : BitDomain n).dom v = true := fun _ => rfl
  by_cases hd : s.cfg.diagPart = true
  · have hm := s.start_matrix
    have hA := s.start_assignments
    have hdom : ∀ i j v, (s.start.currentCycleSet.bitdomains i j).dom v = true ↔
        (if j = i then v = s.d i else v ≠ s.d i) := by
      intro i j v
      rw [start_bitdomains s hf, if_pos hd]
      by_cases hji : j = i <;> simp [hji, Function.update_apply, hall]
    refine ⟨fun i j => ?_, fun i j k hk => ?_, fun i j k hnone hk hfree => ?_, fun i j k hk => ?_,
      fun i j l k hj hl => ?_, fun _ i => ⟨by rw [hm, if_pos ⟨hd, rfl⟩], ?_, fun j hj => ?_⟩⟩
    · rw [start_bitdomains s hf, if_pos hd]
      split
      · exact (BitDomain.Exact.resetAll _).set _
      · exact (BitDomain.Exact.ofInit i.pos true).reset _
    · rw [hA] at hk
      rw [← Bool.not_eq_true, hdom]
      by_cases hij : i = j
      · subst hij
        simp only [hd, and_true, if_true] at hk ⊢
        intro hkd
        simp [hkd] at hk
      · simp [hij] at hk
    · have hij : i ≠ j := by
        rintro rfl
        rw [hm, if_pos ⟨hd, rfl⟩] at hnone
        cases hnone
      rw [hdom, if_neg (Ne.symm hij)]
      rintro rfl
      exact hfree i hij (by rw [hm, if_pos ⟨hd, rfl⟩])
    · rw [hm] at hk
      split at hk
      next hc => rw [hdom, if_pos hc.2.symm, Option.some.inj hk]
      next => cases hk
    · rw [hm] at hj hl
      split at hj <;> split at hl
      next h1 h2 => exact h1.2.symm.trans h2.2
      next => cases hl
      next => cases hj
      next => cases hj
    · intro k
      rw [hdom, if_pos rfl]
    · rw [← Bool.not_eq_true, hdom, if_neg hj]
      simp
  · have hm : ∀ i j, s.start.currentCycleSet.matrix i j = none := fun i j => by
      rw [s.start_matrix, if_neg fun hc => hd hc.1]
    have hA : ∀ i j k, s.start.currentCycleSet.assignments i j k = .unknown := fun i j k => by
      rw [s.start_assignments, if_neg fun hc => hd hc.1]
    have hdom : ∀ i j, s.start.currentCycleSet.bitdomains i j = .ofInit true := fun i j => by
      rw [start_bitdomains s hf, if_neg hd]
    refine ⟨fun i j => ?_, fun i j k hk => ?_, fun i j k _ _ _ => ?_, fun i j k hk => ?_,
      fun i j l k hj _ => ?_, fun h => absurd h hd⟩
    · rw [hdom]
      exact BitDomain.Exact.ofInit i.pos true
    · rw [hA] at hk
      cases hk
    · rw [hdom]
      exact hall k
    · rw [hm] at hk
      cases hk
    · rw [hm] at hj
      cases hj

/-- On a closed assignment the bounds pin every domain down. -/
theorem domains_of_closed {s : Session n} {p : Propagator n} {l : Ledger}
    (h : Picture s (DomainInv s) p l) (hclosed : Closed s l) (i j v : Fin n) :
    (p.currentCycleSet.bitdomains i j).dom v = true ↔ InDomain p.currentCycleSet i j v := by
  have hD := h.extra
  -- a value that is notified false, or has no variable, is in no off-diagonal domain
  have hgone : ∀ {a b w : Fin n}, (s.cfg.diagPart = true → a ≠ b) →
      (s.lits a b w ≠ 0 → l.Held (-s.lits a b w)) →
      (p.currentCycleSet.bitdomains a b).dom w = false := by
    intro a b w hab hfalse
    by_cases ho : s.observed (a, b, w) = true
    · have hpos := s.observing.pos (a, b, w) ho
      have h0 : s.lits a b w ≠ 0 := by
        simp only at hpos
        omega
      exact hD.excluded a b w ((h.mirrors.isFalse a b w ho).mpr (hfalse h0))
    · have hd : s.cfg.diagPart = true := by
        by_contra hd
        simp [Session.observed, entryObserved, hd] at ho
      have hw : w = s.d a := by
        have hne := hab hd
        by_contra hw
        simp [Session.observed, entryObserved, hne, hw] at ho
      rw [hw]
      exact (hD.diagonal hd a).2.2 b (Ne.symm (hab hd))
  unfold InDomain
  cases hm : p.currentCycleSet.matrix i j with
  | some k =>
    by_cases hdiag : s.cfg.diagPart = true ∧ i = j
    · obtain ⟨hd, rfl⟩ := hdiag
      obtain ⟨hmi, hown, -⟩ := hD.diagonal hd i
      rw [hm] at hmi
      rw [hown, ← Option.some.inj hmi]
    · have hij : s.cfg.diagPart = true → i ≠ j := fun hd hij => hdiag ⟨hd, hij⟩
      obtain ⟨ho, hheld⟩ := h.held_of_matrix hij hm
      constructor
      · intro hv
        by_contra hne
        rw [hgone hij ((hclosed i j k ho hheld).1 v hne)] at hv
        cases hv
      · rintro rfl
        exact hD.own i j v hm
  | none =>
    constructor
    · intro hv
      refine ⟨fun hf => ?_, fun a ha hma => ?_⟩
      · rw [hD.excluded i j v hf] at hv
        cases hv
      · have hij : s.cfg.diagPart = true → i ≠ j := by
          rintro hd rfl
          rw [(hD.diagonal hd i).1] at hm
          cases hm
        have hfalse : (p.currentCycleSet.bitdomains i j).dom v = false := by
          by_cases hdiag : s.cfg.diagPart = true ∧ i = a
          · obtain ⟨hd, rfl⟩ := hdiag
            obtain ⟨hmi, -, hrest⟩ := hD.diagonal hd i
            rw [hma] at hmi
            rw [Option.some.inj hmi]
            exact hrest j (Ne.symm ha)
          · obtain ⟨ho, hheld⟩ := h.held_of_matrix (fun hd hia => hdiag ⟨hd, hia⟩) hma
            exact hgone hij ((hclosed i a v ho hheld).2 j (Ne.symm ha)
              fun hd => Ne.symm (hij hd))
        rw [hfalse] at hv
        cases hv
    · exact fun hc => hD.included i j v hm hc.1 hc.2

/-- Where the same literals are held, the tables are the same. -/
theorem tables_of_ledger {s : Session n} {D : CycleSet n → Prop} {p p' : Propagator n}
    {l l' : Ledger} (h : Picture s D p l) (h' : Picture s D p' l')
    (hsame : ∀ lit, l.Held lit ↔ l'.Held lit) :
    p.currentCycleSet.assignments = p'.currentCycleSet.assignments ∧
      p.currentCycleSet.matrix = p'.currentCycleSet.matrix := by
  have hholds : ∀ e positive, s.Holds l e positive ↔ s.Holds l' e positive := fun _ _ => hsame _
  have hA : p.currentCycleSet.assignments = p'.currentCycleSet.assignments := by
    funext i j k
    by_cases ho : s.observed (i, j, k) = true
    · have htrue := (h.mirrors.isTrue i j k ho).trans
        ((hholds _ _).trans (h'.mirrors.isTrue i j k ho).symm)
      have hfalse := (h.mirrors.isFalse i j k ho).trans
        ((hholds _ _).trans (h'.mirrors.isFalse i j k ho).symm)
      cases hv : p.currentCycleSet.assignments i j k <;>
        cases hv' : p'.currentCycleSet.assignments i j k <;> simp_all
    · have ho' : s.observed (i, j, k) = false := by simpa using ho
      rw [h.mirrors.other i j k ho', h'.mirrors.other i j k ho']
  refine ⟨hA, ?_⟩
  funext i j
  refine Option.ext fun k => ?_
  rw [h.mirrors.matrix, h'.mirrors.matrix, hA]

/-- In a run whose backtracks undo no literal on an off-diagonal (i, j, d[i]): the backtrack
that closes the levels opened since `before`, with nothing newly fixed in between, finds the
domains of `before` again, and they are what the assignment asks for. -/
theorem domains_restored (s : Session n) (hf : s.cfg.fixedRow = 0)
    (before inside : List Notification) (newLevel : Nat)
    (hrun : Ledger.Run (DomainStep s) .empty
      (before ++ (.newDecisionLevel :: inside ++ [.backtrack newLevel])))
    (hlevel : (Ledger.empty.after before).levels.length = newLevel + 1)
    (hopen : ∀ first, first <+: inside → newLevel + 1 <
      (((Ledger.empty.after before).notify .newDecisionLevel).after first).levels.length)
    (hfixed : ∀ lit, Notification.assignment lit true ∈ inside →
      lit ∈ (Ledger.empty.after before).fixed) :
    let p := s.after (before ++ (.newDecisionLevel :: inside ++ [.backtrack newLevel]))
    p.currentCycleSet.bitdomains = (s.after before).currentCycleSet.bitdomains ∧
      ∀ i j v, (p.currentCycleSet.bitdomains i j).dom v = true ↔
        InDomain p.currentCycleSet i j v := by
  obtain ⟨hrunBefore, hrunRest⟩ := (Ledger.run_append _ _ _ _).mp hrun
  have hclosed : Closed s (Ledger.empty.after before) := hrunRest.1.2.1
  have hbefore := Session.follows (undoKeeps_domains s) (stepKeeps_domains s hf)
    (start_domains s hf) hrunBefore
  have hafter := Session.follows (undoKeeps_domains s) (stepKeeps_domains s hf)
    (start_domains s hf) hrun
  have hsame : ∀ lit, (Ledger.empty.after
      (before ++ (.newDecisionLevel :: inside ++ [.backtrack newLevel]))).Held lit ↔
      (Ledger.empty.after before).Held lit := by
    intro lit
    have hback := Ledger.held_after_backtrack hlevel hopen hfixed lit
    rwa [Ledger.after, List.foldl_append]
  have hclosed' := hclosed.of_held hsame
  obtain ⟨hA, hm⟩ := tables_of_ledger hafter.picture hbefore.picture hsame
  refine ⟨?_, domains_of_closed hafter.picture hclosed'⟩
  funext i j
  refine BitDomain.Exact.ext (hafter.picture.extra.exact i j) (hbefore.picture.extra.exact i j) ?_
  funext v
  have hiff := (domains_of_closed hafter.picture hclosed' i j v).trans
    (Iff.trans (by rw [InDomain, InDomain, hA, hm])
      (domains_of_closed hbefore.picture hclosed i j v).symm)
  exact Bool.eq_iff_iff.mpr hiff

/-- Size 3, identity diagonal, full encoding. -/
def fullDiagonal : Session 3 := ⟨{ diagPart := true, noCommander := true }, id, id⟩

private theorem fullDiagonal_free : ([(-4 : Int)] ∉ fullDiagonal.formula.cnf ∧
    [(4 : Int)] ∉ fullDiagonal.formula.cnf) ∧ [(5 : Int)] ∉ fullDiagonal.formula.cnf ∧
      [(-5 : Int)] ∉ fullDiagonal.formula.cnf := by decide +kernel

private theorem not_held_fresh (l : Ledger) (h : l.fixed = []) (h' : l.levels = [[], []])
    (lit : Int) : ¬ l.Held lit := by
  simp [Ledger.Held, h, h']

/-- The failing run: `(0, 1, d[0])` is notified false at a decision level, and the backtrack
puts `d[0]` into the domain of the cell. -/
theorem domains_not_restored :
    Function.Bijective fullDiagonal.d ∧
    Ledger.Run (fun l e => fullDiagonal.Promised l e ∧ RowPromised fullDiagonal l e) .empty
      [.newDecisionLevel, .assignment (-4) false, .backtrack 0] ∧
    (fullDiagonal.after [.newDecisionLevel, .assignment (-4) false,
        .backtrack 0]).currentCycleSet.bitdomains ≠
      (fullDiagonal.after []).currentCycleSet.bitdomains := by
  have hfresh := not_held_fresh (Ledger.empty.notify .newDecisionLevel) rfl rfl
  refine ⟨Function.bijective_id, ⟨⟨trivial, fun i j k _ hheld => ?_⟩,
    ⟨⟨⟨(0, 1, 0), false, by decide, by decide⟩, Or.inl ⟨hfresh _, hfresh _⟩, ?_,
      fun i j k k' _ _ => hfresh _⟩, fun i j k ho hlit => ?_⟩, ⟨trivial, trivial⟩, trivial⟩, ?_⟩
  · simp [Ledger.empty, Ledger.Held] at hheld
  · exact fun hunit => absurd hunit (not_or.mpr fullDiagonal_free.1)
  · have hpos := fullDiagonal.observing.pos (i, j, k) ho
    simp only at hpos
    omega
  · intro heq
    have hcell : ((fullDiagonal.after [.newDecisionLevel, .assignment (-4) false,
        .backtrack 0]).currentCycleSet.bitdomains 0 1).dom 0 ≠
        ((fullDiagonal.after []).currentCycleSet.bitdomains 0 1).dom 0 := by decide
    exact hcell (by rw [heq])

/-- The same session with a decision on another value of the cell. -/
theorem domains_restored_instance :
    (fullDiagonal.after [.newDecisionLevel, .assignment 5 false,
        .backtrack 0]).currentCycleSet.bitdomains =
      (fullDiagonal.after []).currentCycleSet.bitdomains := by
  have hfresh := not_held_fresh (Ledger.empty.notify .newDecisionLevel) rfl rfl
  refine (domains_restored fullDiagonal rfl [] [.assignment 5 false] 0 ⟨⟨trivial, ?_, trivial⟩,
    ⟨⟨⟨(0, 1, 1), true, by decide, by decide⟩, Or.inl ⟨hfresh _, hfresh _⟩, ?_,
      fun i j k k' _ _ => hfresh _⟩, fun i j k _ hlit => ⟨fun _ _ => hfresh _, ?_⟩, trivial⟩,
    ⟨trivial, trivial, ?_⟩, trivial⟩ rfl ?_ (by simp)).1
  · intro i j k _ hheld
    simp [Ledger.empty, Ledger.Held] at hheld
  · exact fun hunit => absurd hunit (not_or.mpr fullDiagonal_free.2)
  · revert i j k
    decide
  · rintro - lit hlit - i j hij
    obtain rfl : lit = 5 := by
      simpa [Ledger.undone, Ledger.closing, Ledger.notify, Ledger.empty] using hlit
    revert i j
    decide
  · rintro first hpre
    obtain ⟨rest, hrest⟩ := hpre
    have hfirst : first = [] ∨ first = [.assignment 5 false] := by
      cases first with
      | nil => exact Or.inl rfl
      | cons e more => simp_all
    rcases hfirst with rfl | rfl <;> decide

end YbeSms.Guarantees
