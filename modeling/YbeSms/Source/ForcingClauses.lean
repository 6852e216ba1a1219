import YbeSms.Source.SearchRules
import YbeSms.Source.CadicalSolver

/-!
# What the literals of a thrown clause are worth

Source: ybe-sms/src/minCheckCommon.cpp:116-318, 321-505; solveCadicalClass.hpp:99-146.
Where the domains are what the literals leave, all literals of a thrown clause but
at most one are false, and that one refuses a value of an open cell. So the warning
of `addClause` stays silent.
-/

namespace YbeSms.Source

open YbeSms.Library YbeSms.Abstract Equiv

variable {n : Nat}

namespace MinCheck

/-- Consistent, and the domains are what the literals leave: the value of the diagonal is out, and
every other value that is out is refused. -/
structure Told (m : MinCheck n) (cycset : CycleSet n) : Prop extends m.Consistent cycset where
  refused : ∀ r c v, (m.cfg.diagPart = true → r ≠ c ∧ v ≠ m.diag r) →
    (cycset.bitdomains r c).dom v = false → cycset.assignments r c v = .isFalse
  reserved : m.cfg.diagPart = true → ∀ r c, r ≠ c → (cycset.bitdomains r c).dom (m.diag r) = false

/-- Moreover a value that is alone is assigned. Unit propagation gives this without a diagonal and
with the smaller encoding only. -/
structure Tight (m : MinCheck n) (cycset : CycleSet n) : Prop extends m.Told cycset where
  lone : ∀ r c v, (∀ w, (cycset.bitdomains r c).dom w = true → w = v) →
    cycset.matrix r c = some v

/-- Where the old encoder finds the cell open and its image with one value left, that value is
assigned, or the image is the cell itself. -/
def ReadsImage (m : MinCheck n) (cycset : CycleSet n) (p : Fin n → Fin n) (r c : Fin n) : Prop :=
  m.cfg.oldBreakingClauses = true → cycset.matrix r c = none →
    (permvals cycset p r c).length = 1 →
    cycset.matrix (p r) (p c) ≠ none ∨ (p r = r ∧ p c = c)

/-- A false literal of an observed entry. -/
def Refuted (m : MinCheck n) (cycset : CycleSet n) (l : Int) : Prop :=
  ∃ r c v, entryObserved m.cfg m.diag (r, c, v) = true ∧
    ((l = m.cycsetLits r c v ∧ cycset.assignments r c v = .isFalse) ∨
      (l = -m.cycsetLits r c v ∧ cycset.assignments r c v = .isTrue))

/-- The literal refuses an observed entry that is not refused yet. -/
def Pending (m : MinCheck n) (cycset : CycleSet n) (e : Entry n) (l : Int) : Prop :=
  entryObserved m.cfg m.diag e = true ∧ l = -m.cycsetLits e.1 e.2.1 e.2.2 ∧
    cycset.assignments e.1 e.2.1 e.2.2 ≠ .isFalse

/-- All literals are false but at most one, which refuses an entry. -/
def Forcing (m : MinCheck n) (cycset : CycleSet n) (clause : Clause) : Prop :=
  ∃ e, ∀ l ∈ clause, m.Refuted cycset l ∨ m.Pending cycset e l

variable {m : MinCheck n} {cycset : CycleSet n} {p : Perm (Fin n)}

theorem observed_of_offDiagonal {r c v : Fin n}
    (h : m.cfg.diagPart = true → r ≠ c ∧ v ≠ m.diag r) :
    entryObserved m.cfg m.diag (r, c, v) = true := by
  unfold entryObserved
  by_cases hd : m.cfg.diagPart = true
  · simp [hd, h hd]
  · simp [hd]

/-- A candidate off the diagonal is no value of the diagonal. -/
theorem Told.ne_diag (h : m.Told cycset) {r c v : Fin n}
    (hoff : m.cfg.diagPart = true → r ≠ c) (hv : v ∈ candidates cycset r c) :
    m.cfg.diagPart = true → r ≠ c ∧ v ≠ m.diag r := by
  intro hd
  refine ⟨hoff hd, ?_⟩
  rintro rfl
  have hin : (cycset.bitdomains r c).dom (m.diag r) = true := hv
  rw [h.reserved hd r c (hoff hd)] at hin
  cases hin

theorem Told.not_isFalse (h : m.Told cycset) {r c v : Fin n} (hv : v ∈ candidates cycset r c) :
    cycset.assignments r c v ≠ .isFalse := by
  intro hf
  have hin : (cycset.bitdomains r c).dom v = true := hv
  rw [h.isFalse r c v hf] at hin
  cases hin

/-- The negation of a candidate is false or refuses it. -/
theorem Told.pending (h : m.Told cycset) {r c v : Fin n}
    (hoff : m.cfg.diagPart = true → r ≠ c) (hv : v ∈ candidates cycset r c) :
    m.Pending cycset (r, c, v) (-m.cycsetLits r c v) :=
  ⟨observed_of_offDiagonal (h.ne_diag hoff hv), rfl, h.not_isFalse hv⟩

/-- The negation of the cell's value is false. -/
theorem Told.refuted_value (h : m.Told cycset) {r c v : Fin n}
    (hoff : m.cfg.diagPart = true → r ≠ c) (hv : cycset.matrix r c = some v) :
    m.Refuted cycset (-m.cycsetLits r c v) := by
  have hin : v ∈ candidates cycset r c := (h.assigned r c v hv v).mpr rfl
  exact ⟨r, c, v, observed_of_offDiagonal (h.ne_diag hoff hin), Or.inr ⟨rfl, (h.isTrue r c v).mp hv⟩⟩

/-- A value that is out is refused. -/
theorem Told.refuted_out (h : m.Told cycset) {r c v : Fin n}
    (hoff : m.cfg.diagPart = true → r ≠ c ∧ v ≠ m.diag r) (hv : v ∉ candidates cycset r c) :
    m.Refuted cycset (m.cycsetLits r c v) :=
  ⟨r, c, v, observed_of_offDiagonal hoff,
    Or.inl ⟨rfl, h.refused r c v hoff (not_mem_candidates.mp hv)⟩⟩

/-! ### The short encoder -/

/-- A cell's clause lists its marks, or negates what the count says is left out. -/
theorem mem_cellClause {marks : Marks n} (ht : Tidy marks) {r c : Fin n} (hn : 2 ≤ n) {l : Int}
    (hl : l ∈ m.cellClause cycset marks r c) :
    (∃ v, Marked marks r c v ∧ l = m.cycsetLits r c v ∧
      countBits ((marks r).row c).dom ≠ if m.cfg.smallerEncoding then n - 2 else n - 1) ∨
    ∃ v, ¬ Marked marks r c v ∧ l = -m.cycsetLits r c v ∧
      (m.cfg.smallerEncoding = true → some v ≠ cycset.matrix r r) ∧
      countBits ((marks r).row c).dom = if m.cfg.smallerEncoding then n - 2 else n - 1 := by
  have hget : ∀ i, (marks r).get c (some i) = true ↔ Marked marks r c i := by
    intro i
    rw [(ht r c).get]
    rfl
  have hcount := ht.numtrue r c
  unfold cellClause at hl
  rw [hcount] at hl
  split at hl
  next hsmall =>
    simp only [Bool.and_eq_true, beq_iff_eq] at hsmall
    obtain ⟨v, hv, rfl⟩ := List.mem_map.mp hl
    simp only [List.mem_filter, Bool.and_eq_true, bne_iff_ne, Bool.not_eq_true',
      ← Bool.not_eq_true, hget] at hv
    refine Or.inr ⟨v, hv.2.2, rfl, fun _ => hv.2.1, ?_⟩
    rw [if_pos hsmall.1]
    omega
  next hsmall =>
    split at hl
    next hfull =>
      simp only [Bool.and_eq_true, Bool.not_eq_true', beq_iff_eq] at hfull
      obtain ⟨v, hv, rfl⟩ := List.mem_map.mp hl
      simp only [List.mem_filter, Bool.not_eq_true', ← Bool.not_eq_true, hget] at hv
      refine Or.inr ⟨v, hv.2, rfl, fun hs => ?_, ?_⟩
      · rw [hfull.1] at hs
        cases hs
      · rw [if_neg (by simp [hfull.1])]
        omega
    next hfull =>
      split at hl
      · obtain ⟨v, hv, rfl⟩ := List.mem_map.mp hl
        rw [BitDomains2.options_row, BitDomain.mem_options] at hv
        refine Or.inl ⟨v, hv, rfl, ?_⟩
        simp only [Bool.and_eq_true, Bool.not_eq_true', beq_iff_eq] at hsmall hfull
        split
        next hs => exact fun heq => hsmall ⟨hs, by omega⟩
        next hs => exact fun heq => hfull ⟨by simpa using hs, by omega⟩
      · exact absurd hl List.not_mem_nil

/-- The marks of one cell are in order. -/
structure SoundAt (m : MinCheck n) (cycset : CycleSet n) (marks : Marks n) (r c : Fin n) :
    Prop where
  outside : ∀ v, Marked marks r c v → v ∉ candidates cycset r c
  offDiagonal : m.cfg.diagPart = true → ∀ v, Marked marks r c v → r ≠ c ∧ v ≠ m.diag r

theorem Sound.at {marks : Marks n} (h : m.Sound cycset marks) (r c : Fin n) :
    m.SoundAt cycset marks r c :=
  ⟨h.outside r c, fun hd => h.offDiagonal hd r c⟩

/-- Where the marks of a cell are in order, all its literals are false. -/
theorem SoundAt.refuted (ht : m.Told cycset)
    (hlone : (m.cfg.diagPart = true → m.cfg.smallerEncoding = true) → m.Tight cycset)
    (hn : 2 ≤ n) (hroom : m.Roomy)
    (hsmall : m.cfg.smallerEncoding = true → m.cfg.diagPart = true) {marks : Marks n}
    (htidy : Tidy marks) {r c : Fin n} (h : m.SoundAt cycset marks r c) {l : Int}
    (hl : l ∈ m.cellClause cycset marks r c) : m.Refuted cycset l := by
  rcases mem_cellClause htidy hn hl with ⟨v, hv, rfl, -⟩ | ⟨v, hv, rfl, hspared, hcount⟩
  · exact ht.refuted_out (fun hd => h.offDiagonal hd v hv) (h.outside v hv)
  · have hsome : countBits ((marks r).row c).dom ≠ 0 := by
      rw [hcount]
      split
      next hs =>
        have := hroom.2 hs
        omega
      next => omega
    obtain ⟨w, hw⟩ := exists_marked marks hsome
    have hoff : m.cfg.diagPart = true → r ≠ c := fun hd => (h.offDiagonal hd w hw).1
    have hdiag : m.cfg.diagPart = true → ¬ Marked marks r c (m.diag r) :=
      fun hd hmark => (h.offDiagonal hd _ hmark).2 rfl
    -- no other candidate is left without a mark
    have honly : ∀ x, (cycset.bitdomains r c).dom x = true → x = v := by
      intro x hx
      have hun : ¬ Marked marks r c x := fun hmark => h.outside x hmark hx
      by_contra hne
      by_cases hs : m.cfg.smallerEncoding = true
      · have hd := hsmall hs
        rw [if_pos hs] at hcount
        have hvd : v ≠ m.diag r := fun heq => hspared hs (by rw [ht.diagonal hd, heq])
        have hxd := (ht.ne_diag hoff hx hd).2
        have hcard := card_le_unmarked marks (r := r) (c := c) (l := [x, v, m.diag r])
          (by simpa using ⟨⟨hne, hxd⟩, hvd⟩) (by simpa using ⟨hun, hv, hdiag hd⟩)
        simp only [List.length_cons, List.length_nil] at hcard
        omega
      · rw [if_neg hs] at hcount
        have hcard := card_le_unmarked marks (r := r) (c := c) (l := [x, v])
          (by simpa using hne) (by simpa using ⟨hun, hv⟩)
        simp only [List.length_cons, List.length_nil] at hcard
        omega
    by_cases hmode : m.cfg.diagPart = true → m.cfg.smallerEncoding = true
    · exact ht.refuted_value hoff ((hlone hmode).lone r c v honly)
    · -- the value of the diagonal would be the only one without a mark
      simp only [Classical.not_imp, Bool.not_eq_true] at hmode
      obtain ⟨hd, hs⟩ := hmode
      obtain ⟨x, hx⟩ := ht.nonempty r c
      obtain rfl := honly x hx
      have hcard := card_le_unmarked marks (r := r) (c := c) (l := [x, m.diag r])
        (by simpa using (ht.ne_diag hoff hx hd).2) (by simpa using ⟨hv, hdiag hd⟩)
      rw [hs] at hcount
      simp only [List.length_cons, List.length_nil, Bool.false_eq_true, if_false] at hcard hcount
      omega

/-- The cell of a negated mark only refuses the value, or has it. -/
theorem mem_cellClause_addNegative (ht : m.Told cycset) (hn : 2 ≤ n)
    (hsmall : m.cfg.smallerEncoding = true → m.cfg.diagPart = true) {marks : Marks n}
    (h : m.Sound cycset marks) {r c v : Fin n} (hoff : m.cfg.diagPart = true → r ≠ c)
    (hv : v ∈ candidates cycset r c) {l : Int}
    (hl : l ∈ m.cellClause cycset (m.addNegative cycset marks r c v) r c) :
    l = -m.cycsetLits r c v := by
  have hvun : ¬ Marked marks r c v := fun hmark => h.outside r c v hmark hv
  have hown : ∀ w, Marked (m.addNegative cycset marks r c v) r c w ↔
      w ≠ v ∧ (m.cfg.smallerEncoding = true → some w ≠ cycset.matrix r r) := by
    intro w
    have hself : ¬ m.Erases cycset c c := fun he => he.1 rfl
    rw [m.marked_addNegative cycset h.tidy]
    simp only [true_and, hself, and_false, not_false_eq_true, and_true]
    constructor
    · rintro (hx | hmark)
      · exact hx
      · refine ⟨fun heq => hvun (heq ▸ hmark), fun hs heq => ?_⟩
        rw [ht.diagonal (hsmall hs), Option.some.injEq] at heq
        exact (h.offDiagonal (hsmall hs) r c w hmark).2 heq
    · exact Or.inl
  have htidy := h.tidy.addNegative m cycset r c v
  rcases mem_cellClause htidy hn hl with ⟨w, -, -, hcount⟩ | ⟨w, hw, rfl, hspared, -⟩
  · apply absurd _ hcount
    have hrest := countBits_add_unmarked (m.addNegative cycset marks r c v) r c
    by_cases hs : m.cfg.smallerEncoding = true
    · have hd := hsmall hs
      have hvd := (ht.ne_diag hoff hv hd).2
      have hset : (Finset.univ.filter fun i =>
          ¬ Marked (m.addNegative cycset marks r c v) r c i) = {v, m.diag r} := by
        ext i
        simp only [Finset.mem_filter, Finset.mem_univ, true_and, Finset.mem_insert,
          Finset.mem_singleton, hown, hs, ht.diagonal hd, ne_eq, Option.some.injEq, forall_const]
        tauto
      rw [hset, Finset.card_pair hvd] at hrest
      rw [if_pos hs]
      omega
    · have hset : (Finset.univ.filter fun i =>
          ¬ Marked (m.addNegative cycset marks r c v) r c i) = {v} := by
        ext i
        simp only [Finset.mem_filter, Finset.mem_univ, true_and, Finset.mem_singleton, hown, hs,
          Bool.false_eq_true, false_implies, and_true, not_not, ne_eq]
      rw [hset, Finset.card_singleton] at hrest
      rw [if_neg hs]
      omega
  · rw [hown] at hw
    by_contra hne
    refine hw ⟨fun heq => hne (by rw [heq]), hspared⟩

/-- The other cells of a negated mark only lose marks. -/
theorem Sound.at_addNegative {marks : Marks n} (h : m.Sound cycset marks) {r c v r' c' : Fin n}
    (hne : ¬ (r' = r ∧ c' = c)) : m.SoundAt cycset (m.addNegative cycset marks r c v) r' c' := by
  have hsub : ∀ w, Marked (m.addNegative cycset marks r c v) r' c' w → Marked marks r' c' w := by
    intro w hw
    rw [m.marked_addNegative cycset h.tidy] at hw
    rcases hw with ⟨hr, hc, -⟩ | ⟨hmark, -⟩
    · exact absurd ⟨hr, hc⟩ hne
    · exact hmark
  exact ⟨fun w hw => h.outside r' c' w (hsub w hw),
    fun hd w hw => h.offDiagonal hd r' c' w (hsub w hw)⟩

/-- The last marks are in order, or negate a candidate of an open cell. -/
theorem targetMarks_cases (hc : m.Consistent cycset) {marks : Marks n} (h : m.Sound cycset marks)
    {r c : Fin n} (hoff : m.cfg.diagPart = true → r ≠ c) {marks' : Marks n}
    (hthrow : m.targetMarks cycset marks p r c = some marks') :
    m.Sound cycset marks' ∨ ∃ sound r' c' v, m.Sound cycset sound ∧
      (m.cfg.diagPart = true → r' ≠ c') ∧ v ∈ candidates cycset r' c' ∧
      marks' = m.addNegative cycset sound r' c' v := by
  have hoff' : m.cfg.diagPart = true → p r ≠ p c := fun hd heq => hoff hd (p.injective heq)
  have hfind : ∀ {test : Fin n × Int → Bool} {q : Fin n × Int},
      (permvals cycset p r c).find? test = some q → q.1 ∈ candidates cycset (p r) (p c) :=
    fun hq => ((mem_permvals r c _).mp (List.mem_of_find?_eq_some hq)).1
  unfold targetMarks at hthrow
  simp only at hthrow
  split at hthrow
  · obtain rfl := Option.some.inj hthrow
    exact Or.inl ((h.markBelow hc hoff _).markAbove hc hoff _)
  · split at hthrow
    · obtain ⟨v, hv, rfl⟩ := Option.map_eq_some_iff.mp hthrow
      exact Or.inr ⟨_, r, c, v, h.markAbove hc hoff _, hoff,
        (BitDomain.mem_options _ _).mp (List.mem_of_find?_eq_some hv), rfl⟩
    · split at hthrow
      · obtain ⟨q, hq, rfl⟩ := Option.map_eq_some_iff.mp hthrow
        exact Or.inr ⟨_, p r, p c, q.1, h.markBelow hc hoff _, hoff', hfind hq, rfl⟩
      · split at hthrow
        · obtain ⟨q, hq, rfl⟩ := Option.map_eq_some_iff.mp hthrow
          exact Or.inr ⟨marks, p r, p c, q.1, h, hoff', hfind hq, rfl⟩
        · obtain ⟨q, hq, rfl⟩ := Option.map_eq_some_iff.mp hthrow
          exact Or.inr ⟨_, p r, p c, q.1, h.markBelow hc hoff _, hoff', hfind hq, rfl⟩

theorem addClausesShort_forcing (ht : m.Told cycset)
    (hlone : (m.cfg.diagPart = true → m.cfg.smallerEncoding = true) → m.Tight cycset)
    (hn : 2 ≤ n) (hroom : m.Roomy)
    (hsmall : m.cfg.smallerEncoding = true → m.cfg.diagPart = true) {r c : Fin n}
    (hoff : m.cfg.diagPart = true → r ≠ c) {clause : Clause}
    (hthrow : m.addClausesShort cycset p r c = some clause) : m.Forcing cycset clause := by
  have hc := ht.toConsistent
  obtain ⟨hsound, -⟩ := earlier_spec hc p (m.earlierCells r c) (Sound.empty m cycset)
  obtain ⟨marks, hmarks, rfl⟩ := Option.map_eq_some_iff.mp hthrow
  rcases targetMarks_cases hc hsound hoff hmarks with h | ⟨sound, r', c', v, h, hoff', hv, rfl⟩
  · refine ⟨(r, c, c), fun l hl => Or.inl ?_⟩
    obtain ⟨q, -, hq⟩ := List.mem_flatMap.mp hl
    exact (h.at q.1 q.2).refuted ht hlone hn hroom hsmall h.tidy hq
  · refine ⟨(r', c', v), fun l hl => ?_⟩
    obtain ⟨q, -, hq⟩ := List.mem_flatMap.mp hl
    by_cases hcell : q.1 = r' ∧ q.2 = c'
    · rw [hcell.1, hcell.2] at hq
      rw [mem_cellClause_addNegative ht hn hsmall h hoff' hv hq]
      exact Or.inr (ht.pending hoff' hv)
    · exact Or.inl ((h.at_addNegative hcell).refuted ht hlone hn hroom hsmall
        (h.tidy.addNegative m cycset r' c' v) hq)

/-! ### The old encoder -/

/-- Before the target the old encoder writes assigned entries against their sign. -/
theorem refuted_of_oldCell (ht : m.Told cycset)
    (hp : m.cfg.diagPart = true → ∀ x, p (m.diag x) = m.diag (p x)) {r c : Fin n}
    {q : Fin n × Fin n} {l : Int} (hl : l ∈ m.oldCell cycset p r c q) : m.Refuted cycset l := by
  have hc := ht.toConsistent
  unfold oldCell at hl
  split at hl
  · exact absurd hl List.not_mem_nil
  next hdiag =>
    have hoff : m.cfg.diagPart = true → q.1 ≠ q.2 := fun hd heq => hdiag (by simp [hd, heq])
    obtain ⟨i, -, hi⟩ := List.mem_flatMap.mp hl
    unfold oldEntry at hi
    split at hi
    · exact absurd hi List.not_mem_nil
    next hvalue =>
      have hne := (isDiagValue_eq_false hc q.1 i).mp (by simpa using hvalue)
      split at hi
      · rcases List.mem_append.mp hi with hi | hi
        · split at hi
          next htrue =>
            rw [List.mem_singleton.mp hi]
            exact ht.refuted_value hoff ((ht.isTrue q.1 q.2 i).mpr htrue)
          next => exact absurd hi List.not_mem_nil
        · split at hi
          next hfalse =>
            rw [List.mem_singleton.mp hi]
            refine ⟨p q.1, p q.2, p i, observed_of_offDiagonal fun hd => ⟨?_, ?_⟩,
              Or.inl ⟨rfl, hfalse⟩⟩
            · exact fun heq => hoff hd (p.injective heq)
            · rw [← hp hd]
              exact fun heq => hne hd (p.injective heq)
          next => exact absurd hi List.not_mem_nil
      · exact absurd hi List.not_mem_nil

theorem forcing_of_oldTarget (ht : m.Told cycset) {r c : Fin n}
    (hoff : m.cfg.diagPart = true → r ≠ c)
    (hread : cycset.matrix r c = none → (permvals cycset p r c).length = 1 →
      cycset.matrix (p r) (p c) ≠ none ∨ (p r = r ∧ p c = c)) {target : Clause}
    (htarget : m.oldTarget cycset p r c = some target) : m.Forcing cycset target := by
  have hc := ht.toConsistent
  have hoff' : m.cfg.diagPart = true → p r ≠ p c := fun hd heq => hoff hd (p.injective heq)
  have himage : ∀ q ∈ permvals cycset p r c, q.1 ∈ candidates cycset (p r) (p c) :=
    fun q hq => ((mem_permvals r c q).mp hq).1
  have hvalue : ∀ {og : Fin n}, cycset.matrix r c = some og →
      m.Refuted cycset (-m.cycsetLits r c og) := fun hog => ht.refuted_value hoff hog
  have hpending : ∀ q ∈ permvals cycset p r c,
      m.Pending cycset (p r, p c, q.1) (-m.cycsetLits (p r) (p c) q.1) :=
    fun q hq => ht.pending hoff' (himage q hq)
  unfold oldTarget at htarget
  simp only at htarget
  split at htarget
  next og q hog hsingle =>
    obtain rfl := Option.some.inj htarget
    refine ⟨(p r, p c, q.1), fun l hl => ?_⟩
    rcases List.mem_cons.mp hl with rfl | hl
    · exact Or.inl (hvalue hog)
    · rw [List.mem_singleton.mp hl]
      exact Or.inr (hpending q (by rw [hsingle]; exact List.mem_singleton_self q))
  next q hnone hsingle =>
    obtain ⟨v, hv, rfl⟩ := Option.map_eq_some_iff.mp htarget
    have hhead := (Option.filter_eq_some_iff.mp hv).1
    have hvin : v ∈ candidates cycset r c :=
      (BitDomain.mem_options _ _).mp (List.mem_of_mem_head? hhead)
    have honly : ∀ w ∈ candidates cycset (p r) (p c), w = q.1 := by
      intro w hw
      have hmem : (w, ((p.symm w).val : Int)) ∈ permvals cycset p r c :=
        (mem_permvals r c _).mpr ⟨hw, rfl⟩
      rw [hsingle, List.mem_singleton] at hmem
      exact congrArg Prod.fst hmem
    refine ⟨(r, c, v), fun l hl => ?_⟩
    rcases List.mem_cons.mp hl with rfl | hl
    · rcases hread hnone (by rw [hsingle]; rfl) with hsome | ⟨hr, hcell⟩
      · -- the one value left for the image cell is assigned
        obtain ⟨w, hw⟩ := Option.ne_none_iff_exists'.mp hsome
        obtain rfl := honly w ((hc.assigned _ _ w hw w).mpr rfl)
        exact Or.inl (ht.refuted_value hoff' hw)
      · rw [hr, hcell] at honly ⊢
        rw [← honly v hvin]
        exact Or.inr (ht.pending hoff hvin)
    · rw [List.mem_singleton.mp hl]
      exact Or.inr (ht.pending hoff hvin)
  next og vals hog _ =>
    obtain ⟨q, hq, rfl⟩ := Option.map_eq_some_iff.mp htarget
    refine ⟨(p r, p c, q.1), fun l hl => ?_⟩
    rcases List.mem_cons.mp hl with rfl | hl
    · exact Or.inl (hvalue hog)
    · rw [List.mem_singleton.mp hl]
      exact Or.inr (hpending q (List.mem_of_find?_eq_some hq))
  next vals _ hnone =>
    split at htarget
    · obtain ⟨q, hq, rfl⟩ := Option.map_eq_some_iff.mp htarget
      refine ⟨(p r, p c, q.1), fun l hl => ?_⟩
      rw [List.mem_singleton.mp hl]
      exact Or.inr (hpending q (List.mem_of_find?_eq_some hq))
    · obtain ⟨q, hq, rfl⟩ := Option.map_eq_some_iff.mp htarget
      refine ⟨(p r, p c, q.1), fun l hl => ?_⟩
      rcases List.mem_append.mp hl with hl | hl
      · obtain ⟨i, hi, rfl⟩ := List.mem_map.mp hl
        simp only [List.mem_filter, Bool.and_eq_true, Bool.not_eq_true'] at hi
        refine Or.inl (ht.refuted_out (fun hd => ⟨hoff hd, ?_⟩) (not_mem_candidates.mpr hi.2.2))
        exact (isDiagValue_eq_false hc r i).mp hi.2.1 hd
      · rw [List.mem_singleton.mp hl]
        exact Or.inr (hpending q (List.mem_of_find?_eq_some hq))

theorem addClausesOld_forcing (ht : m.Told cycset)
    (hp : m.cfg.diagPart = true → ∀ x, p (m.diag x) = m.diag (p x)) {r c : Fin n}
    (hoff : m.cfg.diagPart = true → r ≠ c)
    (hread : cycset.matrix r c = none → (permvals cycset p r c).length = 1 →
      cycset.matrix (p r) (p c) ≠ none ∨ (p r = r ∧ p c = c)) {clause : Clause}
    (hthrow : m.addClausesOld cycset p r c = some clause) : m.Forcing cycset clause := by
  obtain ⟨target, htarget, rfl⟩ := Option.map_eq_some_iff.mp hthrow
  obtain ⟨e, he⟩ := forcing_of_oldTarget ht hoff hread htarget
  refine ⟨e, fun l hl => ?_⟩
  rcases List.mem_append.mp hl with hl | hl
  · obtain ⟨q, -, hq⟩ := List.mem_flatMap.mp hl
    exact Or.inl (refuted_of_oldCell ht hp hq)
  · exact he l hl

/-- Without any value assigned, the old encoder refuses one of each cell. -/
theorem mem_of_not_readsImage {r c : Fin n} {clause : Clause}
    (hthrow : m.addClauses cycset p r c = some clause) (hno : ¬ m.ReadsImage cycset p r c) :
    cycset.matrix r c = none ∧ cycset.matrix (p r) (p c) = none ∧ ¬ (p r = r ∧ p c = c) ∧
      ∃ v ∈ candidates cycset r c, ∃ w ∈ candidates cycset (p r) (p c),
        -m.cycsetLits r c v ∈ clause ∧ -m.cycsetLits (p r) (p c) w ∈ clause := by
  unfold ReadsImage at hno
  simp only [Classical.not_imp, not_or, ne_eq, not_not] at hno
  obtain ⟨hold, hnone, hlength, himage, hmoved⟩ := hno
  obtain ⟨q, hsingle⟩ := List.length_eq_one_iff.mp hlength
  rw [addClauses, hold, if_pos rfl] at hthrow
  obtain ⟨target, htarget, rfl⟩ := Option.map_eq_some_iff.mp hthrow
  unfold oldTarget at htarget
  simp only [hnone, hsingle] at htarget
  obtain ⟨v, hv, rfl⟩ := Option.map_eq_some_iff.mp htarget
  have hvin : v ∈ candidates cycset r c :=
    (BitDomain.mem_options _ _).mp (List.mem_of_mem_head? (Option.filter_eq_some_iff.mp hv).1)
  have hq : q ∈ permvals cycset p r c := by simp [hsingle]
  exact ⟨hnone, himage, hmoved, v, hvin, q.1, ((mem_permvals r c q).mp hq).1, by simp, by simp⟩

/-- Where lone values are assigned, so is the image. -/
theorem Tight.readsImage (h : m.Tight cycset) (p : Perm (Fin n)) (r c : Fin n) :
    m.ReadsImage cycset p r c := by
  intro _ _ hlength
  obtain ⟨q, hsingle⟩ := List.length_eq_one_iff.mp hlength
  have hlone : cycset.matrix (p r) (p c) = some q.1 := by
    apply h.lone
    intro w hw
    have hmem : (w, ((p.symm w).val : Int)) ∈ permvals cycset p r c :=
      (mem_permvals r c _).mpr ⟨hw, rfl⟩
    rw [hsingle, List.mem_singleton] at hmem
    exact congrArg Prod.fst hmem
  exact Or.inl (by simp [hlone])

end MinCheck

end YbeSms.Source
