import YbeSms.Source.MarkSpec
import YbeSms.Library.RowMajor
import Mathlib.Order.Bounds.Basic

/-!
# What `addClausesShort` throws

Source: ybe-sms/src/minCheckCommon.cpp:321-505. The marks for an earlier cell keep
its value at or above that of the relabelled table; the target cell's marks and
its negated mark make it strictly greater. A table that falsifies the clause is
therefore greater than its relabelling.
-/

namespace YbeSms.Source

open YbeSms.Library YbeSms.Abstract Equiv

variable {n : Nat} {cycset : CycleSet n} {p : Perm (Fin n)}

theorem invperm_perm (p : Perm (Fin n)) (v : Fin n) : invperm p v = (p.symm v).val := by
  unfold invperm
  have hfind : (List.finRange n).find? (fun i => p i == v) = some (p.symm v) := by
    rw [find_finRange_eq_some]
    constructor
    · simp
    · intro w hw
      rw [beq_eq_false_iff_ne]
      rintro rfl
      rw [symm_apply_apply] at hw
      exact lt_irrefl w hw
  rw [hfind]

theorem mem_permvals (r c : Fin n) (q : Fin n × Int) :
    q ∈ permvals cycset p r c ↔
      (cycset.bitdomains (p r) (p c)).dom q.1 = true ∧ q.2 = (p.symm q.1).val := by
  unfold permvals
  rw [List.mem_insertionSort, List.mem_map]
  constructor
  · rintro ⟨v, hv, rfl⟩
    exact ⟨(BitDomain.mem_options _ _).mp hv, invperm_perm p v⟩
  · rintro ⟨hv, hq⟩
    refine ⟨q.1, (BitDomain.mem_options _ _).mpr hv, ?_⟩
    rw [invperm_perm, ← hq]

theorem length_permvals (r c : Fin n) :
    (permvals cycset p r c).length = countBits (cycset.bitdomains (p r) (p c)).dom := by
  unfold permvals
  rw [List.length_insertionSort, List.length_map, BitDomain.length_options]

theorem permvals_sorted (cycset : CycleSet n) (p : Perm (Fin n)) (r c : Fin n) :
    (permvals cycset p r c).Pairwise fun a b => a.2 ≤ b.2 := by
  have : Std.Total fun a b : Fin n × Int => a.2 ≤ b.2 := ⟨fun a b => le_total a.2 b.2⟩
  have : IsTrans (Fin n × Int) fun a b => a.2 ≤ b.2 := ⟨fun _ _ _ => le_trans⟩
  exact List.pairwise_insertionSort _ _

/-- The values that the domain of a cell holds. -/
def candidates (cycset : CycleSet n) (i j : Fin n) : Set (Fin n) :=
  {v | (cycset.bitdomains i j).dom v = true}

/-- The inverse images of the values that the image cell can have. -/
def imageCandidates (cycset : CycleSet n) (p : Perm (Fin n)) (i j : Fin n) : Set (Fin n) :=
  p.symm '' candidates cycset (p i) (p j)

/-- `get<1>(permvals.back())` is the greatest inverse image over the image cell. -/
theorem lastInverse_spec {r c : Fin n} (h : (candidates cycset (p r) (p c)).Nonempty) :
    ∃ a : Fin n, lastInverse (permvals cycset p r c) = a.val ∧
      IsGreatest (imageCandidates cycset p r c) a := by
  obtain ⟨v, hv⟩ := h
  have hmem : (v, ((p.symm v).val : Int)) ∈ permvals cycset p r c :=
    (mem_permvals r c _).mpr ⟨hv, rfl⟩
  obtain ⟨q, hq⟩ := Option.isSome_iff_exists.mp (List.getLast?_isSome.mpr (List.ne_nil_of_mem hmem))
  obtain ⟨before, hsplit⟩ := List.getLast?_eq_some_iff.mp hq
  obtain ⟨hdom, hinv⟩ := (mem_permvals r c q).mp (List.mem_of_getLast? hq)
  refine ⟨p.symm q.1, ?_, ⟨q.1, hdom, rfl⟩, ?_⟩
  · unfold lastInverse
    rw [hq]
    exact hinv
  · rintro _ ⟨w, hw, rfl⟩
    have hw' : (w, ((p.symm w).val : Int)) ∈ permvals cycset p r c :=
      (mem_permvals r c _).mpr ⟨hw, rfl⟩
    have hsorted := permvals_sorted cycset p r c
    rw [hsplit] at hw' hsorted
    rcases List.mem_append.mp hw' with hin | hlast
    · have hle := (List.pairwise_append.mp hsorted).2.2 _ hin q (by simp)
      rw [hinv] at hle
      simpa using hle
    · obtain rfl := List.mem_singleton.mp hlast
      exact le_rfl

/-- `og` is the least value of the cell's domain. -/
theorem ogValue_spec {m : MinCheck n} (hc : m.Consistent cycset) (r c : Fin n) :
    ∃ a : Fin n, ogValue cycset r c = a.val ∧ IsLeast (candidates cycset r c) a := by
  unfold ogValue
  cases hm : cycset.matrix r c with
  | some a =>
    have hdom := hc.assigned r c a hm
    exact ⟨a, rfl, (hdom a).mpr rfl, fun v hv => ((hdom v).mp hv).ge⟩
  | none =>
    obtain ⟨v, hv⟩ := hc.nonempty r c
    obtain ⟨a, -, hleast, ha, hmin⟩ := exists_leastBit (cycset.bitdomains r c).dom v hv
    refine ⟨a, ?_, ha, fun w hw => ?_⟩
    · simp only
      rw [(hc.exact r c).firstel, hleast]
    · by_contra hlt
      have hout := hmin w (not_le.mp hlt)
      rw [show (cycset.bitdomains r c).dom w = true from hw] at hout
      cases hout

/-- The cell and its image cannot decide between the table and its relabelling: either the
permutation fixes the cell and no value of it gets larger, or the greatest inverse image over
the image cell is the least value of the cell. -/
def Tied (cycset : CycleSet n) (p : Perm (Fin n)) (q : Fin n × Fin n) : Prop :=
  (p q.1 = q.1 ∧ p q.2 = q.2 ∧ ∀ v ∈ candidates cycset q.1 q.2, p.symm v ≤ v) ∨
  ∃ a, IsGreatest (imageCandidates cycset p q.1 q.2) a ∧ IsLeast (candidates cycset q.1 q.2) a

namespace MinCheck

variable {m : MinCheck n}

/-- Marks that are in order: they stand outside the domains, off the diagonal and its values. -/
structure Sound (m : MinCheck n) (cycset : CycleSet n) (marks : Marks n) : Prop where
  tidy : Tidy marks
  outside : ∀ r c v, Marked marks r c v → v ∉ candidates cycset r c
  offDiagonal : m.cfg.diagPart = true → ∀ r c v, Marked marks r c v → r ≠ c ∧ v ≠ m.diag r

/-- The table has none of the marked values. -/
def Avoids (marks : Marks n) (N : Fin n → Fin n → Fin n) : Prop :=
  ∀ r c, ¬ Marked marks r c (N r c)

theorem Sound.empty (m : MinCheck n) (cycset : CycleSet n) :
    m.Sound cycset fun _ => .empty where
  tidy := tidy_empty
  outside r c v h := absurd h (not_marked_empty r c v)
  offDiagonal _ r c v h := absurd h (not_marked_empty r c v)

theorem Sound.written {marks : Marks n} (h : m.Sound cycset marks) (hm : m.Numbered) :
    m.Written marks := by
  intro r c v hmark
  rw [hm.nonzero]
  exact fun hd _ => h.offDiagonal hd r c v hmark

theorem markAll_spec (r c : Fin n) (vs : List (Fin n)) {marks : Marks n} (ht : Tidy marks) :
    Tidy (markAll marks r c vs) ∧ ∀ r' c' w, Marked (markAll marks r c vs) r' c' w ↔
      (r' = r ∧ c' = c ∧ w ∈ vs) ∨ Marked marks r' c' w := by
  unfold markAll
  induction vs generalizing marks with
  | nil => exact ⟨ht, fun r' c' w => by simp⟩
  | cons v rest ih =>
    obtain ⟨htidy, hmarked⟩ := ih (ht.addPositive r c v)
    refine ⟨htidy, fun r' c' w => ?_⟩
    rw [List.foldl_cons, hmarked, marked_addPositive, List.mem_cons]
    tauto

/-- Marking a list of values in order keeps the marks in order. -/
theorem Sound.markAll {marks : Marks n} (h : m.Sound cycset marks) {r c : Fin n}
    {vs : List (Fin n)} (hout : ∀ v ∈ vs, v ∉ candidates cycset r c)
    (hoff : m.cfg.diagPart = true → r ≠ c ∧ ∀ v ∈ vs, v ≠ m.diag r) :
    m.Sound cycset (markAll marks r c vs) := by
  obtain ⟨htidy, hmarked⟩ := markAll_spec r c vs h.tidy
  refine ⟨htidy, fun r' c' v hv => ?_, fun hd r' c' v hv => ?_⟩
  · rcases (hmarked r' c' v).mp hv with ⟨rfl, rfl, hmem⟩ | hold
    · exact hout v hmem
    · exact h.outside r' c' v hold
  · rcases (hmarked r' c' v).mp hv with ⟨rfl, rfl, hmem⟩ | hold
    · exact ⟨(hoff hd).1, (hoff hd).2 v hmem⟩
    · exact h.offDiagonal hd r' c' v hold

theorem Avoids.of_markAll {marks : Marks n} (ht : Tidy marks) {r c : Fin n} {vs : List (Fin n)}
    {N : Fin n → Fin n → Fin n} (h : Avoids (markAll marks r c vs) N) :
    Avoids marks N ∧ N r c ∉ vs := by
  have hmarked := (markAll_spec r c vs ht).2
  constructor
  · exact fun r' c' hmark => h r' c' ((hmarked r' c' _).mpr (Or.inr hmark))
  · exact fun hmem => h r c ((hmarked r c _).mpr (Or.inl ⟨rfl, rfl, hmem⟩))

theorem isDiagValue_eq_false (hc : m.Consistent cycset) (r v : Fin n) :
    m.isDiagValue cycset r v = false ↔ (m.cfg.diagPart = true → v ≠ m.diag r) := by
  unfold isDiagValue
  by_cases hd : m.cfg.diagPart = true
  · rw [hd, Bool.true_and, hc.diagonal hd, beq_eq_false_iff_ne]
    simp [eq_comm]
  · simp [hd]

/-- Off the diagonal, a table's value is never the one that is skipped. -/
theorem Admits.isDiagValue (hc : m.Consistent cycset) {N : Fin n → Fin n → Fin n}
    (hN : m.Admits N) {r c : Fin n} (hoff : m.cfg.diagPart = true → r ≠ c) :
    m.isDiagValue cycset r (N r c) = false := by
  rw [isDiagValue_eq_false hc]
  intro hd heq
  rw [← hN.diagonal hd r] at heq
  exact hoff hd ((hN.rows r).1 heq).symm

theorem not_mem_candidates {i j v : Fin n} :
    v ∉ candidates cycset i j ↔ (cycset.bitdomains i j).dom v = false := by
  unfold candidates
  rw [Set.mem_ofPred_eq, Bool.not_eq_true]

theorem Sound.markBelow {marks : Marks n} (hc : m.Consistent cycset) (h : m.Sound cycset marks)
    {r c : Fin n} (hoff : m.cfg.diagPart = true → r ≠ c) (below : Int) :
    m.Sound cycset (m.markBelow cycset marks r c below) := by
  apply h.markAll
  · intro v hv
    simp only [List.mem_filter, Bool.and_eq_true, Bool.not_eq_true'] at hv
    exact not_mem_candidates.mpr hv.2.2
  · refine fun hd => ⟨hoff hd, fun v hv => ?_⟩
    simp only [List.mem_filter, Bool.and_eq_true, Bool.not_eq_true'] at hv
    exact (isDiagValue_eq_false hc r v).mp hv.2.1.2 hd

theorem Sound.markAbove {marks : Marks n} (hc : m.Consistent cycset) (h : m.Sound cycset marks)
    {r c : Fin n} (hoff : m.cfg.diagPart = true → r ≠ c) (above : Int) :
    m.Sound cycset (m.markAbove cycset marks p r c above) := by
  apply h.markAll
  · intro v hv
    obtain ⟨i, hi, rfl⟩ := List.mem_map.mp hv
    simp only [List.mem_filter, Bool.and_eq_true, Bool.not_eq_true'] at hi
    exact not_mem_candidates.mpr hi.2.2
  · refine fun hd => ⟨fun heq => hoff hd (p.injective heq), fun v hv => ?_⟩
    obtain ⟨i, hi, rfl⟩ := List.mem_map.mp hv
    simp only [List.mem_filter, Bool.and_eq_true, Bool.not_eq_true'] at hi
    exact (isDiagValue_eq_false hc _ _).mp hi.2.1.2 hd

/-- A table that avoids the marks of `markBelow` stays at or above the bound, when every
candidate of the cell does. -/
theorem Avoids.of_markBelow {marks : Marks n} (hc : m.Consistent cycset) (ht : Tidy marks)
    {N : Fin n → Fin n → Fin n} (hN : m.Admits N) {r c : Fin n}
    (hoff : m.cfg.diagPart = true → r ≠ c) {below : Int}
    (hcand : ∀ v ∈ candidates cycset r c, below ≤ (v.val : Int))
    (h : Avoids (m.markBelow cycset marks r c below) N) :
    Avoids marks N ∧ below ≤ ((N r c).val : Int) := by
  obtain ⟨hold, hnot⟩ := Avoids.of_markAll ht h
  refine ⟨hold, ?_⟩
  by_contra hlt
  apply hnot
  simp only [List.mem_filter, List.mem_finRange, true_and, Bool.and_eq_true, Bool.not_eq_true',
    decide_eq_true_eq]
  refine ⟨⟨not_le.mp hlt, hN.isDiagValue hc hoff⟩, ?_⟩
  rw [← not_mem_candidates]
  exact fun hin => hlt (hcand _ hin)

/-- A table that avoids the marks of `markAbove` relabels to at most the bound, when every
candidate of the image cell does. -/
theorem Avoids.of_markAbove {marks : Marks n} (hc : m.Consistent cycset) (ht : Tidy marks)
    {N : Fin n → Fin n → Fin n} (hN : m.Admits N) {r c : Fin n}
    (hoff : m.cfg.diagPart = true → r ≠ c) {above : Int}
    (hcand : ∀ v ∈ imageCandidates cycset p r c, (v.val : Int) ≤ above)
    (h : Avoids (m.markAbove cycset marks p r c above) N) :
    Avoids marks N ∧ ((act p N r c).val : Int) ≤ above := by
  obtain ⟨hold, hnot⟩ := Avoids.of_markAll ht h
  refine ⟨hold, ?_⟩
  have hoff' : m.cfg.diagPart = true → p r ≠ p c := fun hd heq => hoff hd (p.injective heq)
  by_contra hlt
  apply hnot
  rw [List.mem_map]
  refine ⟨act p N r c, ?_, apply_symm_apply p _⟩
  simp only [List.mem_filter, List.mem_finRange, true_and, Bool.and_eq_true, Bool.not_eq_true',
    decide_eq_true_eq, act, apply_symm_apply]
  refine ⟨⟨not_le.mp hlt, hN.isDiagValue hc hoff'⟩, ?_⟩
  rw [← not_mem_candidates]
  exact fun hin => hlt (hcand _ ⟨_, hin, rfl⟩)

/-- The cells come row by row. -/
theorem pairwise_cells (n : Nat) : (cells n).Pairwise fun a b => toLex a < toLex b := by
  have hrow := List.pairwise_lt_finRange n
  change ((List.finRange n).flatMap fun i => (List.finRange n).map (Prod.mk i)).Pairwise _
  rw [List.pairwise_flatMap]
  constructor
  · intro i _
    rw [List.pairwise_map]
    apply hrow.imp
    intro a b hab
    rw [Prod.Lex.toLex_lt_toLex]
    exact Or.inr ⟨rfl, hab⟩
  · apply hrow.imp
    intro i j hij
    simp only [List.mem_map]
    rintro _ ⟨a, -, rfl⟩ _ ⟨b, -, rfl⟩
    rw [Prod.Lex.toLex_lt_toLex]
    exact Or.inl hij

/-- The first cell with a property, row by row. -/
theorem first_of_find {p : Fin n × Fin n → Bool} {q : Fin n × Fin n}
    (h : (cells n).find? p = some q) (q' : Fin n × Fin n) (hq : toLex q' < toLex q) :
    p q' = false := by
  obtain ⟨-, before, after, hsplit, hnone⟩ := List.find?_eq_some_iff_append.mp h
  have hmem := mem_cells q'
  have hsorted := pairwise_cells n
  rw [hsplit] at hmem hsorted
  rcases List.mem_append.mp hmem with hearly | hlate
  · simpa using hnone q' hearly
  · rcases List.mem_cons.mp hlate with rfl | hlater
    · exact absurd hq (lt_irrefl _)
    · have hgt := (List.pairwise_cons.mp (List.pairwise_append.mp hsorted).2.1).1 q' hlater
      exact absurd hq hgt.asymm

private theorem mem_takeWhile_of_lt {l : List (Fin n × Fin n)} {a q : Fin n × Fin n}
    (hl : l.Pairwise fun a b => toLex a < toLex b) {stop : Fin n × Fin n → Bool}
    (hstop : ∀ x, stop x = true → x = a) (hq : q ∈ l) (hqa : toLex q < toLex a) :
    q ∈ l.takeWhile fun x => !stop x := by
  induction l with
  | nil => exact absurd hq List.not_mem_nil
  | cons x rest ih =>
    obtain ⟨hx, hrest⟩ := List.pairwise_cons.mp hl
    have hxa : stop x = false := by
      rw [← Bool.not_eq_true]
      intro hs
      obtain rfl := hstop x hs
      rcases List.mem_cons.mp hq with rfl | hq
      · exact lt_irrefl _ hqa
      · exact lt_asymm hqa (hx q hq)
    rw [List.takeWhile_cons, hxa]
    rcases List.mem_cons.mp hq with rfl | hq
    · exact List.mem_cons_self
    · exact List.mem_cons_of_mem x (ih hrest hq)

/-- The loops visit every cell before the target. -/
theorem mem_earlierCells {r c : Fin n} {q : Fin n × Fin n} (h : toLex q < toLex (r, c)) :
    q ∈ m.earlierCells r c := by
  unfold earlierCells
  apply mem_takeWhile_of_lt ((pairwise_cells n).filter _) _ _ h
  · intro x hx
    simp only [Bool.and_eq_true, beq_iff_eq] at hx
    exact hx.1
  · rw [List.mem_filter, decide_eq_true_eq]
    refine ⟨mem_cells q, ?_⟩
    rcases Prod.Lex.toLex_lt_toLex.mp h with hlt | ⟨heq, -⟩
    · exact hlt.le
    · exact heq.le

theorem Sound.markEarlier {marks : Marks n} (hc : m.Consistent cycset) (h : m.Sound cycset marks)
    (q : Fin n × Fin n) : m.Sound cycset (m.markEarlier cycset p marks q) := by
  unfold MinCheck.markEarlier
  split
  · exact h
  next hdiag =>
    have hoff : m.cfg.diagPart = true → q.1 ≠ q.2 := by
      intro hd heq
      exact hdiag (by simp [hd, heq])
    split
    · exact (h.markBelow hc hoff _).markAbove hc hoff _
    · apply h.markAll
      · intro v hv
        simp only [List.mem_filter, Bool.and_eq_true, Bool.not_eq_true'] at hv
        exact not_mem_candidates.mpr hv.2.2
      · refine fun hd => ⟨hoff hd, fun v hv => ?_⟩
        simp only [List.mem_filter, Bool.and_eq_true, Bool.not_eq_true'] at hv
        exact (isDiagValue_eq_false hc _ v).mp hv.2.1.1 hd

/-- The greatest element that the source computes is the one of a tie. -/
private theorem lastInverse_of_isGreatest {r c a : Fin n}
    (ha : IsGreatest (imageCandidates cycset p r c) a) :
    lastInverse (permvals cycset p r c) = a.val := by
  obtain ⟨v, hv, -⟩ := ha.1
  obtain ⟨b, hb, hgreatest⟩ := lastInverse_spec (p := p) ⟨v, hv⟩
  rw [hb, hgreatest.unique ha]

private theorem ogValue_of_isLeast (hc : m.Consistent cycset) {r c a : Fin n}
    (ha : IsLeast (candidates cycset r c) a) : ogValue cycset r c = a.val := by
  obtain ⟨b, hb, hleast⟩ := ogValue_spec hc r c
  rw [hb, hleast.unique ha]

/-- At a tied cell the marks keep the relabelled value at or below the table's. -/
theorem Avoids.of_markEarlier {marks : Marks n} (hc : m.Consistent cycset)
    (h : m.Sound cycset marks) {N : Fin n → Fin n → Fin n} (hN : m.Admits N)
    {q : Fin n × Fin n} (hav : Avoids (m.markEarlier cycset p marks q) N) :
    Avoids marks N ∧ ((m.cfg.diagPart = true → q.1 ≠ q.2) → Tied cycset p q →
      act p N q.1 q.2 ≤ N q.1 q.2) := by
  unfold MinCheck.markEarlier at hav
  split at hav
  next hdiag =>
    simp only [Bool.and_eq_true, beq_iff_eq] at hdiag
    exact ⟨hav, fun hoff => absurd hdiag.2 (hoff hdiag.1)⟩
  next hdiag =>
    have hoff : m.cfg.diagPart = true → q.1 ≠ q.2 := by
      intro hd heq
      exact hdiag (by simp [hd, heq])
    split at hav
    next hmoved =>
      have hbelow := h.markBelow hc hoff (lastInverse (permvals cycset p q.1 q.2))
      constructor
      · exact (Avoids.of_markAll h.tidy (Avoids.of_markAll hbelow.tidy hav).1).1
      · intro _ htied
        rcases htied with ⟨hr, hcol, -⟩ | ⟨a, hgreatest, hleast⟩
        · exact absurd hmoved (by simp [hr, hcol])
        · have hlast := lastInverse_of_isGreatest hgreatest
          have hog := ogValue_of_isLeast hc hleast
          obtain ⟨hav', hle⟩ := Avoids.of_markAbove hc hbelow.tidy hN hoff
            (fun v hv => by rw [hog]; exact_mod_cast hgreatest.2 hv) hav
          obtain ⟨-, hge⟩ := Avoids.of_markBelow hc h.tidy hN hoff
            (fun v hv => by rw [hlast]; exact_mod_cast hleast.2 hv) hav'
          rw [hog] at hle
          rw [hlast] at hge
          exact_mod_cast hle.trans hge
    next hfixed =>
      have hfix : p q.1 = q.1 ∧ p q.2 = q.2 := by
        push Not at hfixed
        exact hfixed
      obtain ⟨hold, hnot⟩ := Avoids.of_markAll h.tidy hav
      refine ⟨hold, fun _ htied => ?_⟩
      -- both forms of a tie say that no candidate of a fixed cell gets larger
      have hcand : ∀ v ∈ candidates cycset q.1 q.2, p.symm v ≤ v := by
        rcases htied with ⟨-, -, hall⟩ | ⟨a, hgreatest, hleast⟩
        · exact hall
        · intro v hv
          have hup : p.symm v ≤ a := hgreatest.2 ⟨v, by rw [hfix.1, hfix.2]; exact hv, rfl⟩
          exact hup.trans (hleast.2 hv)
      unfold act
      rw [hfix.1, hfix.2]
      by_contra hlt
      apply hnot
      simp only [List.mem_filter, List.mem_finRange, true_and, Bool.and_eq_true, Bool.not_eq_true',
        decide_eq_true_eq]
      refine ⟨⟨hN.isDiagValue hc hoff, ?_⟩, ?_⟩
      · rw [invperm_perm]
        exact_mod_cast not_le.mp hlt
      · rw [← not_mem_candidates]
        exact fun hin => hlt (hcand _ hin)

/-- The marks of the cells before the target: in order, and a table that avoids them relabels to
no larger value at any tied cell among them. -/
theorem earlier_spec (hc : m.Consistent cycset) (p : Perm (Fin n)) (l : List (Fin n × Fin n))
    {marks : Marks n} (h : m.Sound cycset marks) :
    m.Sound cycset (l.foldl (m.markEarlier cycset p) marks) ∧
    ∀ N, m.Admits N → Avoids (l.foldl (m.markEarlier cycset p) marks) N →
      Avoids marks N ∧ ∀ q ∈ l, (m.cfg.diagPart = true → q.1 ≠ q.2) → Tied cycset p q →
        act p N q.1 q.2 ≤ N q.1 q.2 := by
  induction l generalizing marks with
  | nil => exact ⟨h, fun N _ hav => ⟨hav, fun q hq => absurd hq List.not_mem_nil⟩⟩
  | cons x rest ih =>
    obtain ⟨hsound, hrest⟩ := ih (h.markEarlier (p := p) hc x)
    refine ⟨hsound, fun N hN hav => ?_⟩
    obtain ⟨hstep, hcells⟩ := hrest N hN hav
    obtain ⟨hold, hx⟩ := Avoids.of_markEarlier hc h hN hstep
    refine ⟨hold, fun q hq => ?_⟩
    rcases List.mem_cons.mp hq with rfl | hq
    · exact hx
    · exact hcells q hq

/-- Marks whose clause can be written, and whose failure in a table has the consequence `P`. -/
structure Leads (m : MinCheck n) (cycset : CycleSet n) (marks : Marks n)
    (P : (Fin n → Fin n → Fin n) → Prop) : Prop where
  tidy : Tidy marks
  written : m.Written marks
  fails : ∀ N, m.Admits N → (∀ r c, ¬ m.CellTrue cycset marks N r c) → P N

theorem Sound.leads (hm : m.Numbered) (hn : m.Roomy) {marks : Marks n} (h : m.Sound cycset marks) :
    m.Leads cycset marks (Avoids marks) where
  tidy := h.tidy
  written := h.written hm
  fails _ _ hfail r c hmark := hfail r c (cellTrue_of_marked hn hmark)

/-- A negated mark on a candidate of an unassigned cell adds that the cell has that value. -/
theorem Sound.leads_addNegative (hm : m.Numbered) (hc : m.Consistent cycset) (hn : m.Roomy)
    {marks : Marks n} (h : m.Sound cycset marks) {r c v : Fin n} (hfree : cycset.matrix r c = none)
    (hv : v ∈ candidates cycset r c) :
    m.Leads cycset (m.addNegative cycset marks r c v) fun N => Avoids marks N ∧ N r c = v where
  tidy := h.tidy.addNegative m cycset r c v
  written := by
    intro r' c' w hmark
    rw [hm.nonzero]
    intro hd hs
    rw [m.marked_addNegative cycset h.tidy] at hmark
    rcases hmark with ⟨rfl, rfl, hx⟩ | ⟨hold, -⟩
    · constructor
      · rintro rfl
        rw [hc.diagonal hd] at hfree
        cases hfree
      · rintro rfl
        exact hx.2 hs (hc.diagonal hd r').symm
    · exact h.offDiagonal hd r' c' w hold
  fails N hN hfail := by
    have hun : ¬ Marked marks r c v := fun hmark => h.outside r c v hmark hv
    have hnone : ¬ ∃ r' c', m.CellTrue cycset (m.addNegative cycset marks r c v) N r' c' := by
      rintro ⟨r', c', hcell⟩
      exact hfail r' c' hcell
    have hboth := mt (exists_cellTrue_addNegative hn h.tidy hN.rows hun) hnone
    push Not at hboth
    exact hboth

/-- An image cell with several candidates is not assigned. -/
theorem matrix_eq_none_of_length (hc : m.Consistent cycset) {r c : Fin n}
    (h : (permvals cycset p r c).length ≠ 1) : cycset.matrix (p r) (p c) = none := by
  cases hm : cycset.matrix (p r) (p c) with
  | none => rfl
  | some a =>
    apply absurd _ h
    rw [length_permvals, countBits_eq_one_iff]
    exact ⟨a, hc.assigned _ _ a hm⟩

/-- The value found by the loops that end in a negated mark of the image cell. -/
private theorem find_permvals {r c : Fin n} {test : Fin n × Int → Bool} {q : Fin n × Int}
    (h : (permvals cycset p r c).find? test = some q) :
    test q = true ∧ q.1 ∈ candidates cycset (p r) (p c) ∧ q.2 = (p.symm q.1).val := by
  have hmem := (mem_permvals r c q).mp (List.mem_of_find?_eq_some h)
  exact ⟨List.find?_some h, hmem.1, hmem.2⟩

/-- The marks of the target cell: where they fail, the table avoids the marks before them and its
value is greater than the relabelled one. -/
theorem targetMarks_spec (hm : m.Numbered) (hc : m.Consistent cycset) (hn : m.Roomy)
    {marks : Marks n} (h : m.Sound cycset marks) {r c : Fin n}
    (hoff : m.cfg.diagPart = true → r ≠ c) {marks' : Marks n}
    (hthrow : m.targetMarks cycset marks p r c = some marks') :
    m.Leads cycset marks' fun N => Avoids marks N ∧ act p N r c < N r c := by
  obtain ⟨og, hog, hleast⟩ := ogValue_spec hc r c
  obtain ⟨v, hv⟩ := hc.nonempty (p r) (p c)
  obtain ⟨last, hlast, hgreatest⟩ := lastInverse_spec (p := p) ⟨v, hv⟩
  have hbelow := h.markBelow hc hoff (og.val : Int)
  have habove := h.markAbove (p := p) hc hoff (last.val : Int)
  have hleast' : ∀ v ∈ candidates cycset r c, (og.val : Int) ≤ v.val :=
    fun v hv => by exact_mod_cast hleast.2 hv
  have hgreatest' : ∀ v ∈ imageCandidates cycset p r c, (v.val : Int) ≤ last.val :=
    fun v hv => by exact_mod_cast hgreatest.2 hv
  -- where the image cell has a value below the least candidate of the cell
  have himage : ∀ q : Fin n × Int, q.1 ∈ candidates cycset (p r) (p c) →
      (permvals cycset p r c).length ≠ 1 → p.symm q.1 < og →
      m.Leads cycset (m.addNegative cycset (m.markBelow cycset marks r c og.val) (p r) (p c) q.1)
        fun N => Avoids marks N ∧ act p N r c < N r c := by
    intro q hq hlength hlt
    have hleads := hbelow.leads_addNegative hm hc hn (matrix_eq_none_of_length hc hlength) hq
    refine ⟨hleads.tidy, hleads.written, fun N hN hfail => ?_⟩
    obtain ⟨hav, hval⟩ := hleads.fails N hN hfail
    obtain ⟨hold, hge⟩ := Avoids.of_markBelow hc h.tidy hN hoff hleast' hav
    refine ⟨hold, ?_⟩
    unfold act
    rw [hval]
    exact hlt.trans_le (by exact_mod_cast hge)
  unfold targetMarks at hthrow
  simp only [hog, hlast] at hthrow
  split at hthrow
  next hwitness =>
    obtain rfl := Option.some.inj hthrow
    have hleads := (hbelow.markAbove (p := p) hc hoff (last.val : Int)).leads hm hn
    refine ⟨hleads.tidy, hleads.written, fun N hN hfail => ?_⟩
    obtain ⟨hav, hle⟩ := Avoids.of_markAbove hc hbelow.tidy hN hoff hgreatest'
      (hleads.fails N hN hfail)
    obtain ⟨hold, hge⟩ := Avoids.of_markBelow hc h.tidy hN hoff hleast' hav
    exact ⟨hold, by exact_mod_cast hle.trans_lt (hwitness.trans_le hge)⟩
  next hnotwitness =>
    split at hthrow
    next hfixedImage =>
      -- the image cell has one candidate, and the cell a greater one
      obtain ⟨w, hw, rfl⟩ := Option.map_eq_some_iff.mp hthrow
      have hwin : w ∈ candidates cycset r c :=
        (BitDomain.mem_options _ _).mp (List.mem_of_find?_eq_some hw)
      have hlt : (last.val : Int) < w.val := by simpa using List.find?_some hw
      have hfree : cycset.matrix r c = none := by
        cases hmrc : cycset.matrix r c with
        | none => rfl
        | some a =>
          have hwa := (hc.assigned r c a hmrc w).mp hwin
          have hoga := (hc.assigned r c a hmrc og).mp hleast.1
          rw [hwa, ← hoga] at hlt
          exact absurd hlt hnotwitness
      have hleads := habove.leads_addNegative hm hc hn hfree hwin
      refine ⟨hleads.tidy, hleads.written, fun N hN hfail => ?_⟩
      obtain ⟨hav, hval⟩ := hleads.fails N hN hfail
      obtain ⟨hold, hle⟩ := Avoids.of_markAbove hc h.tidy hN hoff hgreatest' hav
      refine ⟨hold, ?_⟩
      rw [hval]
      exact_mod_cast hle.trans_lt hlt
    next hseveral =>
      split at hthrow
      next hassigned =>
        obtain ⟨q, hq, rfl⟩ := Option.map_eq_some_iff.mp hthrow
        obtain ⟨htest, hqin, hinv⟩ := find_permvals hq
        rw [decide_eq_true_eq, hinv] at htest
        exact himage q hqin hseveral (by exact_mod_cast htest)
      next hfree =>
        split at hthrow
        next hfix =>
          obtain ⟨q, hq, rfl⟩ := Option.map_eq_some_iff.mp hthrow
          obtain ⟨htest, hqin, hinv⟩ := find_permvals hq
          rw [decide_eq_true_eq, hinv] at htest
          have hleads := h.leads_addNegative hm hc hn (matrix_eq_none_of_length hc hseveral) hqin
          refine ⟨hleads.tidy, hleads.written, fun N hN hfail => ?_⟩
          obtain ⟨hav, hval⟩ := hleads.fails N hN hfail
          refine ⟨hav, ?_⟩
          have hcell : N r c = q.1 := by rw [← hval, hfix.1, hfix.2]
          unfold act
          rw [hval, hcell]
          exact_mod_cast htest
        next hmoved =>
          obtain ⟨q, hq, rfl⟩ := Option.map_eq_some_iff.mp hthrow
          obtain ⟨htest, hqin, hinv⟩ := find_permvals hq
          rw [decide_eq_true_eq, hinv] at htest
          exact himage q hqin hseveral (by exact_mod_cast htest)

/-- Relabelling by a symmetry of the diagonal keeps the diagonal. -/
theorem act_diagonal {m : MinCheck n} {p : Perm (Fin n)}
    (hp : ∀ x, p (m.diag x) = m.diag (p x)) {N : Fin n → Fin n → Fin n}
    (hN : ∀ i, N i i = m.diag i) (i : Fin n) : act p N i i = N i i := by
  unfold act
  rw [hN, hN, ← hp, symm_apply_apply]

/-- A clause thrown for a permutation that ties all cells before the target holds in every table
that is at most its relabelling. -/
theorem addClausesShort_holdsIn (hn : m.Roomy) (hm : m.Numbered) (hc : m.Consistent cycset)
    (p : Perm (Fin n)) (hp : m.cfg.diagPart = true → ∀ x, p (m.diag x) = m.diag (p x))
    {r c : Fin n} (hoff : m.cfg.diagPart = true → r ≠ c)
    (htied : ∀ q : Fin n × Fin n, toLex q < toLex (r, c) →
      (m.cfg.diagPart = true → q.1 ≠ q.2) → Tied cycset p q)
    {clause : Clause} (hthrow : m.addClausesShort cycset p r c = some clause)
    {N : Fin n → Fin n → Fin n} (hN : m.Admits N) (hle : rowMajor N ≤ rowMajor (act p N)) :
    m.HoldsIn clause N := by
  intro τ hτ
  obtain ⟨hsound, hearlier⟩ := earlier_spec hc p (m.earlierCells r c) (Sound.empty m cycset)
  obtain ⟨marks, hmarks, rfl⟩ := Option.map_eq_some_iff.mp hthrow
  have hleads := targetMarks_spec hm hc hn hsound hoff hmarks
  obtain ⟨-, hmeans⟩ := toClause_spec hm hleads.tidy hleads.written hn hc.diagonal
  rw [hmeans τ N hτ]
  by_contra hfail
  push Not at hfail
  obtain ⟨havoid, hlt⟩ := hleads.fails N hN hfail
  obtain ⟨-, hcells⟩ := hearlier N hN havoid
  -- no earlier cell gets larger and the target gets smaller
  have hsmaller : rowMajor (act p N) < rowMajor N := by
    refine rowMajor_lt_of_le (q := (r, c)) (fun q hq => ?_) hlt
    by_cases hdiag : m.cfg.diagPart = true ∧ q.1 = q.2
    · rw [hdiag.2]
      exact (act_diagonal (hp hdiag.1) (hN.diagonal hdiag.1) q.2).le
    · have hqoff : m.cfg.diagPart = true → q.1 ≠ q.2 := fun hd heq => hdiag ⟨hd, heq⟩
      exact hcells q (mem_earlierCells hq) hqoff (htied q hq hqoff)
  exact absurd hle (not_le.mpr hsmaller)

end MinCheck

end YbeSms.Source
