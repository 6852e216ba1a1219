import YbeSms.Guarantees.SymmetryClauses

/-!
# The old encoder

Source: ybe-sms/src/minCheckCommon.cpp:42-114, 116-262; minCheck_V2.cpp:153-284.
For a cell before the target the old encoder collects the value of the cell and the
values refused to the image cell, as far as they are assigned. Where these literals
do not force the tie that the search has read off the domains, the clause lacks its
reasons; `addClausesShort` marks the bounds of both domains.
-/

namespace YbeSms.Guarantees

open YbeSms.Library YbeSms.Abstract YbeSms.Source YbeSms.Source.MinCheck Equiv

variable {n : Nat}

/-- The permutation moves the entry, so the old encoder looks at it. -/
def MovesEntry (perm : Fin n → Fin n) (q : Fin n × Fin n) (i : Fin n) : Prop :=
  q.1 ≠ perm q.1 ∨ q.2 ≠ perm q.2 ∨ i ≠ perm i

/-- The literals collected at a cell before the target leave `x` for the cell and `y` for its
image. -/
structure LeavesOpen (m : MinCheck n) (cycset : CycleSet n) (perm : Fin n → Fin n)
    (q : Fin n × Fin n) (x y : Fin n) : Prop where
  cell : ∀ i, m.isDiagValue cycset q.1 i = false → MovesEntry perm q i →
    cycset.assignments q.1 q.2 i = .isTrue → x = i
  image : ∀ i, m.isDiagValue cycset q.1 i = false → MovesEntry perm q i →
    cycset.assignments (perm q.1) (perm q.2) (perm i) = .isFalse → y ≠ perm i
  cellValue : m.isDiagValue cycset q.1 x = false
  imageValue : m.isDiagValue cycset (perm q.1) y = false
  same : perm q.1 = q.1 → perm q.2 = q.2 → x = y

/-- The collected literals force the tie: no value left for the cell is below the inverse image of
one left for the image cell. -/
def Explained (m : MinCheck n) (cycset : CycleSet n) (perm : Fin n → Fin n) (q : Fin n × Fin n) :
    Prop :=
  ∀ x y, LeavesOpen m cycset perm q x y → invperm perm y ≤ (x.val : Int)

/-- A call of `addClauses` that throws collects a reason for every cell before its target. -/
def CollectsTies (m : MinCheck n) (cycset : CycleSet n) : Event n → Prop
  | .learn perm r c =>
      m.addClauses cycset perm r c ≠ none →
        ∀ q : Fin n × Fin n, toLex q < toLex (r, c) → (m.cfg.diagPart = true → q.1 ≠ q.2) →
          Explained m cycset perm q
  | e => FixesAtStart e

section Clause

variable {m : MinCheck n} {d : Perm (Fin n)} {cycset : CycleSet n} {p : Perm (Fin n)}

/-- Past `preCheck` no row has a value twice. -/
theorem matrix_injective (hpre : preCheck cycset = false) {r j l v : Fin n}
    (hj : cycset.matrix r j = some v) (hl : cycset.matrix r l = some v) : j = l := by
  unfold preCheck at hpre
  rw [Bool.or_eq_false_iff, List.any_eq_false] at hpre
  have hcell := hpre.1 (v, r) (mem_cells _)
  simp only [Bool.or_eq_true, decide_eq_true_eq, not_or, not_lt] at hcell
  have hcount := hcell.1
  rw [List.countP_eq_length_filter,
    ← List.toFinset_card_of_nodup ((List.nodup_finRange n).filter _)] at hcount
  refine Finset.card_le_one.mp hcount j ?_ l ?_
  · simp [hj]
  · simp [hl]

/-- The diagonal value is in no other domain of its row. -/
theorem ne_diag_of_dom (hc : m.Consistent cycset)
    (hdom : ∀ i j v, (cycset.bitdomains i j).dom v = true ↔ InDomain cycset i j v)
    (hpre : preCheck cycset = false) (hd : m.cfg.diagPart = true) {r c v : Fin n} (hrc : r ≠ c)
    (hv : (cycset.bitdomains r c).dom v = true) : v ≠ m.diag r := by
  rintro rfl
  have hin := (hdom r c _).mp hv
  unfold InDomain at hin
  cases hcell : cycset.matrix r c with
  | none =>
    rw [hcell] at hin
    exact hin.2 r hrc (hc.diagonal hd r)
  | some k =>
    rw [hcell] at hin
    obtain rfl : m.diag r = k := hin
    exact hrc (matrix_injective hpre (hc.diagonal hd r) hcell)

/-- A false negated literal of an entry with a variable gives the table's value. -/
private theorem value_of_false (hm : m.Numbered) {τ : Valuation} {N : Fin n → Fin n → Fin n}
    (hτ : Indicates τ m.cycsetLits N) {r c v : Fin n} (h0 : m.cycsetLits r c v ≠ 0)
    (hfalse : ¬ LitTrue τ (-m.cycsetLits r c v)) : N r c = v := by
  rw [hm.litTrue_neg hτ h0] at hfalse
  exact not_not.mp hfalse

/-- Where the literals of a cell before the target fail, the table's values are left open. -/
theorem leavesOpen_of_false (hs : Serves m d) (hm : m.Numbered) (hc : m.Consistent cycset)
    (hp : Commute p d) {r c : Fin n} {q : Fin n × Fin n} (hq : q ≠ (r, c))
    (hoff : m.cfg.diagPart = true → q.1 ≠ q.2) {τ : Valuation} {N : Fin n → Fin n → Fin n}
    (hN : m.Admits N) (hτ : Indicates τ m.cycsetLits N)
    (hfalse : ¬ ClauseTrue τ (m.oldCell cycset p r c q)) :
    LeavesOpen m cycset p q (N q.1 q.2) (N (p q.1) (p q.2)) := by
  have hoff' : m.cfg.diagPart = true → p q.1 ≠ p q.2 := fun hd heq => hoff hd (p.injective heq)
  have hentry : ∀ i, m.isDiagValue cycset q.1 i = false → MovesEntry p q i →
      ∀ l ∈ (if cycset.assignments q.1 q.2 i = .isTrue then [-m.cycsetLits q.1 q.2 i] else []) ++
        (if cycset.assignments (p q.1) (p q.2) (p i) = .isFalse then
          [m.cycsetLits (p q.1) (p q.2) (p i)] else []), ¬ LitTrue τ l := by
    intro i hi hmoves l hl htrue
    refine hfalse ⟨l, ?_, htrue⟩
    unfold oldCell
    rw [if_neg (by simpa using hoff)]
    refine List.mem_flatMap.mpr ⟨i, ?_, ?_⟩
    · simp only [if_neg hq, List.mem_filter, List.mem_reverse, List.mem_finRange, true_and,
        decide_eq_true_eq]
      omega
    · unfold MovesEntry at hmoves
      unfold oldEntry
      rw [if_neg (by simp [hi]), if_pos hmoves]
      exact hl
  refine ⟨fun i hi hmoves hassigned => ?_, fun i hi hmoves hassigned => ?_,
    hN.isDiagValue hc hoff, hN.isDiagValue hc hoff', fun h₁ h₂ => by rw [h₁, h₂]⟩
  · apply value_of_false hm hτ
    · rw [hm.nonzero]
      exact fun hd _ => ⟨hoff hd, (isDiagValue_eq_false hc _ _).mp hi hd⟩
    · exact hentry i hi hmoves _ (by simp [hassigned])
  · have h0 : m.cycsetLits (p q.1) (p q.2) (p i) ≠ 0 := by
      rw [hm.nonzero]
      intro hd _
      refine ⟨hoff' hd, fun heq => (isDiagValue_eq_false hc _ _).mp hi hd ?_⟩
      rw [← hs.commute_diag hd hp] at heq
      exact p.injective heq
    have hno := hentry i hi hmoves (m.cycsetLits (p q.1) (p q.2) (p i)) (by simp [hassigned])
    rwa [hm.litTrue_pos hτ h0] at hno

/-- Where the last literals fail, the table has a greater value at the target than its
relabelling. -/
theorem smaller_of_oldTarget (hm : m.Numbered) (hc : m.Consistent cycset)
    (hdom : ∀ i j v, (cycset.bitdomains i j).dom v = true ↔ InDomain cycset i j v)
    (hpre : preCheck cycset = false) {r c : Fin n} (hoff : m.cfg.diagPart = true → r ≠ c)
    (hset : Settled cycset p r c) {target : Clause}
    (hthrow : m.oldTarget cycset p r c = some target) {τ : Valuation} {N : Fin n → Fin n → Fin n}
    (hN : m.Admits N) (hτ : Indicates τ m.cycsetLits N) (hfalse : ¬ ClauseTrue τ target) :
    act p N r c < N r c := by
  have hoff' : m.cfg.diagPart = true → p r ≠ p c := fun hd heq => hoff hd (p.injective heq)
  have hfails : ∀ l ∈ target, ¬ LitTrue τ l := fun l hl htrue => hfalse ⟨l, hl, htrue⟩
  have hcell : ∀ v, (cycset.bitdomains r c).dom v = true →
      -m.cycsetLits r c v ∈ target → N r c = v := by
    intro v hv hmem
    refine value_of_false hm hτ ?_ (hfails _ hmem)
    rw [hm.nonzero]
    exact fun hd _ => ⟨hoff hd, ne_diag_of_dom hc hdom hpre hd (hoff hd) hv⟩
  -- the image cell has the value of the entry, and the relabelled table its inverse image
  have himage : ∀ q ∈ permvals cycset p r c, -m.cycsetLits (p r) (p c) q.1 ∈ target →
      N (p r) (p c) = q.1 ∧ q.2 = (act p N r c).val := by
    intro q hq hmem
    obtain ⟨hv, hinv⟩ := (mem_permvals r c q).mp hq
    have hvalue : N (p r) (p c) = q.1 := by
      refine value_of_false hm hτ ?_ (hfails _ hmem)
      rw [hm.nonzero]
      exact fun hd _ => ⟨hoff' hd, ne_diag_of_dom hc hdom hpre hd (hoff' hd) hv⟩
    refine ⟨hvalue, ?_⟩
    unfold act
    rw [hvalue, hinv]
  unfold oldTarget at hthrow
  simp only at hthrow
  split at hthrow
  next og q hog hsingle =>
    obtain rfl := Option.some.inj hthrow
    have hvalue := hcell og ((hc.assigned r c og hog og).mpr rfl) (by simp)
    obtain ⟨-, hinv⟩ := himage q (by rw [hsingle]; simp) (by simp)
    have hlt := hset og hog (by rw [hsingle]; rfl)
    rw [hsingle] at hlt
    simp only [lastInverse, List.getLast?_singleton, hinv] at hlt
    rw [hvalue]
    exact_mod_cast hlt
  next q hnone hsingle =>
    obtain ⟨v, hv, rfl⟩ := Option.map_eq_some_iff.mp hthrow
    obtain ⟨hhead, hlt⟩ := Option.filter_eq_some_iff.mp hv
    have hvalue := hcell v ((BitDomain.mem_options _ _).mp (List.mem_of_mem_head? hhead)) (by simp)
    obtain ⟨-, hinv⟩ := himage q (by rw [hsingle]; simp) (by simp)
    rw [decide_eq_true_eq, hinv] at hlt
    rw [hvalue]
    exact_mod_cast hlt
  next vals og hog _ =>
    obtain ⟨q, hq, rfl⟩ := Option.map_eq_some_iff.mp hthrow
    have hvalue := hcell og ((hc.assigned r c og hog og).mpr rfl) (by simp)
    obtain ⟨-, hinv⟩ := himage q (List.mem_of_find?_eq_some hq) (by simp)
    have hlt := List.find?_some hq
    rw [decide_eq_true_eq, hinv] at hlt
    rw [hvalue]
    exact_mod_cast hlt
  next vals _ hnone =>
    split at hthrow
    next hfix =>
      obtain ⟨q, hq, rfl⟩ := Option.map_eq_some_iff.mp hthrow
      obtain ⟨hvalue, hinv⟩ := himage q (List.mem_of_find?_eq_some hq) (by simp)
      have hlt := List.find?_some hq
      rw [decide_eq_true_eq, hinv] at hlt
      rw [hfix.1, hfix.2] at hvalue
      rw [hvalue]
      exact_mod_cast hlt
    next =>
      obtain ⟨q, hq, rfl⟩ := Option.map_eq_some_iff.mp hthrow
      obtain ⟨-, hinv⟩ := himage q (List.mem_of_find?_eq_some hq)
        (List.mem_append_right _ (List.mem_singleton.mpr rfl))
      have hlt := List.find?_some hq
      rw [decide_eq_true_eq, hinv] at hlt
      have hin : (cycset.bitdomains r c).dom (N r c) = true := by
        by_contra hout
        have hfree := hN.isDiagValue hc hoff
        have hwritten : m.cycsetLits r c (N r c) ≠ 0 := by
          rw [hm.nonzero]
          exact fun hd _ => ⟨hoff hd, (isDiagValue_eq_false hc _ _).mp hfree hd⟩
        refine hfails (m.cycsetLits r c (N r c)) ?_ ((hm.litTrue_pos hτ hwritten).mpr rfl)
        refine List.mem_append_left _ (List.mem_map.mpr ⟨N r c, ?_, rfl⟩)
        simpa [hfree] using hout
      obtain ⟨a, ha, hleast⟩ := ogValue_spec hc r c
      rw [firstel_eq_ogValue hc, ha] at hlt
      have hle : (a.val : Int) ≤ (N r c).val := by exact_mod_cast hleast.2 hin
      exact_mod_cast hlt.trans_le hle

/-- The clause that the old encoder throws holds in every least table, when each tie before the
target is explained. -/
theorem addClausesOld_holdsIn (hs : Serves m d) (hm : m.Numbered) (hc : m.Consistent cycset)
    (hdom : ∀ i j v, (cycset.bitdomains i j).dom v = true ↔ InDomain cycset i j v)
    (hpre : preCheck cycset = false) {r c : Fin n} (hcalled : Called m d cycset p r c)
    (hexplained : ∀ q : Fin n × Fin n, toLex q < toLex (r, c) →
      (m.cfg.diagPart = true → q.1 ≠ q.2) → Explained m cycset p q)
    {clause : Clause} (hthrow : m.addClausesOld cycset p r c = some clause)
    {N : Fin n → Fin n → Fin n} (hN : m.Admits N) (hleast : LeastUnder d N) :
    m.HoldsIn clause N := by
  intro τ hτ
  by_contra hfalse
  obtain ⟨target, htarget, rfl⟩ := Option.map_eq_some_iff.mp hthrow
  have hlt := smaller_of_oldTarget hm hc hdom hpre (hcalled.offDiagonal hc) (hcalled.settled hc)
    htarget hN hτ fun ⟨l, hl, htrue⟩ => hfalse ⟨l, List.mem_append_right _ hl, htrue⟩
  -- no cell before the target gets larger
  have hsmaller : rowMajor (act p N) < rowMajor N := by
    refine rowMajor_lt_of_le (q := (r, c)) (fun q hq => ?_) hlt
    by_cases hdiag : m.cfg.diagPart = true ∧ q.1 = q.2
    · rw [hdiag.2]
      exact (act_diagonal (hs.commute_diag hdiag.1 hcalled.commute) (hN.diagonal hdiag.1) q.2).le
    · have hoff : m.cfg.diagPart = true → q.1 ≠ q.2 := fun hd heq => hdiag ⟨hd, heq⟩
      have hopen : LeavesOpen m cycset p q (N q.1 q.2) (N (p q.1) (p q.2)) := by
        refine leavesOpen_of_false (r := r) (c := c) hs hm hc hcalled.commute (fun heq => ?_) hoff hN
          hτ ?_
        · exact lt_irrefl _ (heq ▸ hq)
        · rintro ⟨l, hl, htrue⟩
          refine hfalse ⟨l, List.mem_append_left _ ?_, htrue⟩
          exact List.mem_flatMap.mpr ⟨q, List.mem_append_left _ (mem_earlierCells hq), hl⟩
      have hle := hexplained q hq hoff _ _ hopen
      rw [invperm_perm] at hle
      exact_mod_cast hle
  exact absurd (hleast p hcalled.commute) (not_le.mpr hsmaller)

theorem ruled_of_collectsTies (hs : Serves m d) (hm : m.Numbered)
    (hold : m.cfg.oldBreakingClauses = true) (hc : m.Consistent cycset)
    (hdom : ∀ i j v, (cycset.bitdomains i j).dom v = true ↔ InDomain cycset i j v)
    (hpre : preCheck cycset = false) :
    Ruled m d cycset (CollectsTies m cycset) (StopsValid m d) where
  greatest _ _ _ h := h
  limit := fun _ h => by cases h
  fault := fun _ h => by cases h
  clause q r c cls hties hcalled hthrow := by
    rintro _ ⟨⟩ N hN hleast
    have hexplained := hties (by simp [hthrow])
    rw [addClauses, hold, if_pos rfl] at hthrow
    exact addClausesOld_holdsIn hs hm hc hdom hpre hcalled hexplained hthrow hN hleast

end Clause

/-- With the old encoder, every clause thrown by a run whose steps meet the condition holds in
every least table. -/
theorem old_clauses_valid (hn : 3 ≤ n) (m : MinCheck n) (d : Perm (Fin n)) (hmode : InMode m d)
    (hm : m.Numbered) (hold : m.cfg.oldBreakingClauses = true) (cycset : CycleSet n)
    (hc : m.Consistent cycset)
    (hdom : ∀ i j v, (cycset.bitdomains i j).dom v = true ↔ InDomain cycset i j v)
    (hpre : preCheck cycset = false) (isFinal : Bool)
    (hsteps : ∀ e ∈ (m.minCheck cycset isFinal).events, CollectsTies m cycset e) (clause : Clause)
    (hthrow : (m.minCheck cycset isFinal).result = .error (.clause clause))
    (N : Fin n → Fin n → Fin n) (hN : m.Admits N) (hleast : LeastUnder d N) :
    m.HoldsIn clause N := by
  have hs := hmode.serves (by omega)
  have hruled := ruled_of_collectsTies hs hm hold hc hdom hpre
  have hstop := (minCheck_spec hs hruled isFinal hsteps).2
  rw [hthrow] at hstop
  exact hstop clause rfl N hN hleast

/-- `--size 4 --diag 1,2,3,0 --oldBreak --propagate`. -/
def rotated : MinCheck 4 :=
  let cfg : Config := { diagPart := true, oldBreakingClauses := true, propagateMincheck := true }
  ⟨cfg, finRotate 4, (encodeDiagonal cfg (finRotate 4)).lits, false⟩

/-- The values left by the literals (0,1)≠0, (0,2)≠0, (1,0)≠1 and (1,2)=3, once the rows and
columns are closed. -/
private def rotatedValues : List (List (List Nat)) :=
  [[[1], [2, 3], [2, 3], [0]], [[0], [2], [3], [1]], [[0, 1, 2], [0, 1, 2], [3], [0, 1, 2]],
    [[1, 2, 3], [1, 2, 3], [1, 2, 3], [0]]]

/-- The state of the propagator after those literals. -/
def rotatedState : CycleSet 4 := leftOpen rotatedValues

/-- A least table under the powers of the rotation. -/
def rotatedTable : Fin 4 → Fin 4 → Fin 4 :=
  ![![1, 0, 2, 3], ![0, 2, 3, 1], ![0, 1, 3, 2], ![1, 2, 3, 0]]

theorem rotatedState_consistent : rotated.Consistent rotatedState where
  exact := by decide +kernel
  nonempty := by decide +kernel
  isTrue := by decide +kernel
  isFalse := by decide +kernel
  assigned := by decide +kernel
  diagonal := by decide +kernel

set_option maxRecDepth 100000 in
theorem rotatedTable_least : LeastUnder (finRotate 4) rotatedTable := by
  have hall : ∀ p : Perm (Fin 4), (∀ x, p (finRotate 4 x) = finRotate 4 (p x)) →
      atMostOn rotatedTable (act p rotatedTable) (cells 4) = true := by decide +kernel
  intro p hp
  exact rowMajor_le_of_atMostOn (pairwise_cells 4) mem_cells (hall p fun x => DFunLike.congr_fun hp x)

/-- The clause that the old encoder throws: no reason for the tie at (0,1), which is read off the
least value left there. -/
theorem rotated_throws : ∃ clause,
    (rotated.minCheck rotatedState false).result = .error (.clause clause) ∧
      rotated.FailsIn clause rotatedTable := by
  have hthrown : clauseOf (rotated.minCheck rotatedState false).result =
      some [rotated.cycsetLits 1 2 0, rotated.cycsetLits 1 2 1, -rotated.cycsetLits 1 3 1,
        -rotated.cycsetLits 0 2 2] := by decide +kernel
  have hnumbered : rotated.Numbered := rfl
  refine ⟨_, result_of_clauseOf hthrown, hnumbered.failsIn fun l hl => ?_⟩
  simp only [List.mem_cons, List.not_mem_nil, or_false] at hl
  rcases hl with rfl | rfl | rfl | rfl
  · exact Or.inl ⟨1, 2, 0, rfl, by decide⟩
  · exact Or.inl ⟨1, 2, 1, rfl, by decide⟩
  · exact Or.inr ⟨1, 3, 1, rfl, by decide⟩
  · exact Or.inr ⟨0, 2, 2, rfl, by decide⟩

/-- The cell (0,1) is open; that its value is at least 2 is used and not among the reasons. -/
theorem old_clause_cuts_off :
    InMode rotated (finRotate 4) ∧ rotated.Numbered ∧ rotated.Consistent rotatedState ∧
      (∀ i j v, (rotatedState.bitdomains i j).dom v = true ↔ InDomain rotatedState i j v) ∧
      preCheck rotatedState = false ∧
      ∃ clause, (rotated.minCheck rotatedState false).result = .error (.clause clause) ∧
        rotated.Admits rotatedTable ∧ LeastUnder (finRotate 4) rotatedTable ∧
        ¬ rotated.HoldsIn clause rotatedTable := by
  have hdomain : ∀ i j v, (rotatedState.bitdomains i j).dom v = true ↔
      (∀ k, rotatedState.matrix i j = some k → v = k) ∧ (rotatedState.matrix i j = none →
        rotatedState.assignments i j v ≠ .isFalse ∧
          ∀ l, l ≠ j → rotatedState.matrix i l ≠ some v) := by decide +kernel
  obtain ⟨clause, hresult, hfails⟩ := rotated_throws
  have hnumbered : rotated.Numbered := rfl
  refine ⟨⟨by decide +kernel, rfl⟩, rfl, rotatedState_consistent, ?_, by decide +kernel, clause,
    hresult, ⟨by unfold RowsPermute; decide +kernel, by decide +kernel⟩, rotatedTable_least,
    hnumbered.not_holdsIn hfails⟩
  intro i j v
  rw [hdomain]
  unfold InDomain
  cases rotatedState.matrix i j with
  | none => simp
  | some k => simp

/-- `--size 3 --oldBreak`. -/
def oldNoDiag : MinCheck 3 :=
  ⟨{ oldBreakingClauses := true }, id, (encodeNoDiag { oldBreakingClauses := true } 3).lits, false⟩

instance (perm : Fin n → Fin n) (q : Fin n × Fin n) (i : Fin n) : Decidable (MovesEntry perm q i) :=
  inferInstanceAs (Decidable (_ ∨ _ ∨ _))

instance (m : MinCheck n) (cycset : CycleSet n) (perm : Fin n → Fin n) (q : Fin n × Fin n)
    (x y : Fin n) : Decidable (LeavesOpen m cycset perm q x y) :=
  decidable_of_iff
    ((∀ i, m.isDiagValue cycset q.1 i = false → MovesEntry perm q i →
        cycset.assignments q.1 q.2 i = .isTrue → x = i) ∧
      (∀ i, m.isDiagValue cycset q.1 i = false → MovesEntry perm q i →
        cycset.assignments (perm q.1) (perm q.2) (perm i) = .isFalse → y ≠ perm i) ∧
      m.isDiagValue cycset q.1 x = false ∧ m.isDiagValue cycset (perm q.1) y = false ∧
      (perm q.1 = q.1 → perm q.2 = q.2 → x = y))
    ⟨fun h => ⟨h.1, h.2.1, h.2.2.1, h.2.2.2.1, h.2.2.2.2⟩,
      fun h => ⟨h.cell, h.image, h.cellValue, h.imageValue, h.same⟩⟩

instance (m : MinCheck n) (cycset : CycleSet n) (perm : Fin n → Fin n) (q : Fin n × Fin n) :
    Decidable (Explained m cycset perm q) :=
  inferInstanceAs (Decidable (∀ _ _, _ → _))

/-- Nothing is fixed as greatest, and where `addClauses` throws the ties are explained. -/
private def collects : Event 3 → Bool
  | .learn perm r c =>
      decide (oldNoDiag.addClauses tiedState perm r c ≠ none → ∀ q : Fin 3 × Fin 3,
        toLex q < toLex (r, c) → (oldNoDiag.cfg.diagPart = true → q.1 ≠ q.2) →
          Explained oldNoDiag tiedState perm q)
  | .fixGreatest _ _ _ => false
  | _ => true

set_option maxRecDepth 100000 in
/-- Exchanging 1 and 2 ties the whole first row, where every value is assigned, and makes the
clause at (1,0). -/
theorem old_clauses_valid_instance :
    ∃ clause, (oldNoDiag.minCheck tiedState false).result = .error (.clause clause) ∧
      oldNoDiag.HoldsIn clause fun _ j => j := by
  have hthrown : (clauseOf (oldNoDiag.minCheck tiedState false).result).isSome = true := by
    decide +kernel
  obtain ⟨clause, hclause⟩ := Option.isSome_iff_exists.mp hthrown
  have hthrow := result_of_clauseOf hclause
  have hcollects : (oldNoDiag.minCheck tiedState false).events.all collects = true := by
    decide +kernel
  have hsteps : ∀ e ∈ (oldNoDiag.minCheck tiedState false).events,
      CollectsTies oldNoDiag tiedState e := by
    intro e he
    have hkind := List.all_eq_true.mp hcollects e he
    cases e with
    | fixGreatest perm maxel maxi => cases hkind
    | learn p r c =>
      simp only [collects, decide_eq_true_eq] at hkind
      exact hkind
    | check p r c => trivial
    | choose perm i j => trivial
  have hdomain : ∀ i j v, (tiedState.bitdomains i j).dom v = true ↔
      (∀ k, tiedState.matrix i j = some k → v = k) ∧ (tiedState.matrix i j = none →
        tiedState.assignments i j v ≠ .isFalse ∧
          ∀ l, l ≠ j → tiedState.matrix i l ≠ some v) := by decide +kernel
  have hdom : ∀ i j v, (tiedState.bitdomains i j).dom v = true ↔ InDomain tiedState i j v := by
    intro i j v
    rw [hdomain]
    unfold InDomain
    cases tiedState.matrix i j with
    | none => simp
    | some k => simp
  exact ⟨clause, hthrow, old_clauses_valid (by decide) oldNoDiag 1 ⟨rfl, rfl⟩ rfl rfl tiedState
    (tiedState_consistent rfl) hdom (by decide +kernel) false hsteps clause hthrow _
    ⟨by unfold RowsPermute; decide, fun h => by cases h⟩ (leastUnder_identityRows 1)⟩

end YbeSms.Guarantees
