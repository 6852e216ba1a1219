import YbeSms.Source.MinCheckCommon
import YbeSms.Source.BitTables
import YbeSms.Source.EntryEncoding

/-!
# What marks and their clause say

Source: ybe-sms/src/minCheckCommon.cpp:264-318. A mark is a bit of a chunk. The
clause of a cell lists its marks, or the negation of what is not marked once the
count of marks says that few values are left out. The meaning is read under a
valuation that indicates a table.
-/

namespace YbeSms.Source

open YbeSms.Library YbeSms.Abstract

variable {n : Nat}

namespace BitDomains2

/-- Every chunk is exact. -/
def AllExact (b : BitDomains2 n) : Prop := ∀ e, b.RowExact e

theorem AllExact.set {b : BitDomains2 n} (h : b.AllExact) (c v : Fin n) :
    (b.set c (some v)).AllExact := by
  intro e
  by_cases he : e = c
  · rw [he]
    exact (h c).set v
  · exact RowExact.congr (set_other b he _) (h e)

theorem AllExact.reset {b : BitDomains2 n} (h : b.AllExact) (c v : Fin n) :
    (b.reset c (some v)).AllExact := by
  intro e
  by_cases he : e = c
  · rw [he]
    exact (h c).reset v
  · exact RowExact.congr (reset_other b he _) (h e)

theorem dom_set (b : BitDomains2 n) (c v e w : Fin n) :
    ((b.set c (some v)).row e).dom w = true ↔ (e = c ∧ w = v) ∨ (b.row e).dom w = true := by
  by_cases he : e = c
  · subst he
    rw [row_set, BitDomain.set_dom]
    by_cases hw : w = v <;> simp [hw]
  · rw [row_congr (set_other b he _)]
    simp [he]

theorem dom_reset {b : BitDomains2 n} (h : b.AllExact) (c v e w : Fin n) :
    ((b.reset c (some v)).row e).dom w = true ↔ (b.row e).dom w = true ∧ ¬ (e = c ∧ w = v) := by
  by_cases he : e = c
  · subst he
    rw [row_reset (h e), BitDomain.reset_dom]
    by_cases hw : w = v <;> simp [hw]
  · rw [row_congr (reset_other b he _)]
    simp [he]

end BitDomains2

namespace MinCheck

variable (m : MinCheck n) (cycset : CycleSet n)

/-- Non-empty domains that agree with the assignments, and the prescribed diagonal in place. -/
structure Consistent : Prop where
  exact : ∀ i j, (cycset.bitdomains i j).Exact
  nonempty : ∀ i j, ∃ v, (cycset.bitdomains i j).dom v = true
  isTrue : ∀ i j v, cycset.matrix i j = some v ↔ cycset.assignments i j v = .isTrue
  isFalse : ∀ i j v, cycset.assignments i j v = .isFalse → (cycset.bitdomains i j).dom v = false
  assigned : ∀ i j v, cycset.matrix i j = some v →
    ∀ w, (cycset.bitdomains i j).dom w = true ↔ w = v
  diagonal : m.cfg.diagPart = true → ∀ i, cycset.matrix i i = some (m.diag i)

/-- The literal table is the one of the formula that `main` hands to the solver. -/
def Numbered : Prop :=
  m.cycsetLits = if m.cfg.diagPart then (encodeDiagonal m.cfg m.diag).lits
    else (encodeNoDiag m.cfg n).lits

/-- The tables a clause speaks about: permutation rows, and the prescribed diagonal. -/
structure Admits (N : Fin n → Fin n → Fin n) : Prop where
  rows : RowsPermute N
  diagonal : m.cfg.diagPart = true → ∀ i, N i i = m.diag i

/-- A clause holds in a table: whatever valuation indicates it. -/
def HoldsIn (clause : Clause) (N : Fin n → Fin n → Fin n) : Prop :=
  ∀ τ, Indicates τ m.cycsetLits N → ClauseTrue τ clause

/-- The clause fails in a table: whatever valuation indicates it. -/
def FailsIn (clause : Clause) (N : Fin n → Fin n → Fin n) : Prop :=
  ∀ τ, Indicates τ m.cycsetLits N → ¬ ClauseTrue τ clause

/-- The bit of a value is set at a cell. -/
def Marked (marks : Marks n) (r c v : Fin n) : Prop := ((marks r).row c).dom v = true

instance (marks : Marks n) (r c v : Fin n) : Decidable (Marked marks r c v) :=
  inferInstanceAs (Decidable (_ = true))

/-- Every chunk of every row is exact. -/
def Tidy (marks : Marks n) : Prop := ∀ r, (marks r).AllExact

theorem tidy_empty : Tidy (fun _ => .empty : Marks n) :=
  fun _ => BitDomains2.RowExact.empty

theorem not_marked_empty (r c v : Fin n) : ¬ Marked (fun _ => .empty) r c v := by
  simp [Marked, BitDomains2.row, BitDomains2.empty, slot_ne_zero]

theorem Tidy.update {marks : Marks n} (h : Tidy marks) {r : Fin n} {b : BitDomains2 n}
    (hb : b.AllExact) : Tidy (Function.update marks r b) := by
  intro r'
  by_cases hr : r' = r
  · rw [hr, Function.update_self]
    exact hb
  · rw [Function.update_of_ne hr]
    exact h r'

theorem Tidy.addPositive {marks : Marks n} (h : Tidy marks) (r c v : Fin n) :
    Tidy (addPositive marks r c v) :=
  h.update ((h r).set c v)

theorem marked_addPositive (marks : Marks n) (r c v r' c' w : Fin n) :
    Marked (addPositive marks r c v) r' c' w ↔
      (r' = r ∧ c' = c ∧ w = v) ∨ Marked marks r' c' w := by
  unfold Marked addPositive
  by_cases hr : r' = r
  · subst hr
    rw [Function.update_self, BitDomains2.dom_set]
    simp
  · rw [Function.update_of_ne hr]
    simp [hr]

/-- The values that a negated mark sets at its own cell. -/
def Expands (r v i : Fin n) : Prop :=
  i ≠ v ∧ (m.cfg.smallerEncoding = true → some i ≠ cycset.matrix r r)

/-- The columns in which a negated mark erases its value. -/
def Erases (c i : Fin n) : Prop :=
  i ≠ c ∧ (m.cfg.smallerEncoding = true → some i ≠ cycset.matrix c c)

instance (r v i : Fin n) : Decidable (m.Expands cycset r v i) :=
  inferInstanceAs (Decidable (_ ∧ _))

instance (c i : Fin n) : Decidable (m.Erases cycset c i) :=
  inferInstanceAs (Decidable (_ ∧ _))

theorem addNegativeRound_eq (r c v : Fin n) (marks : Marks n) (i : Fin n) :
    m.addNegativeRound cycset r c v marks i =
      Function.update marks r
        (let row := if m.Expands cycset r v i then (marks r).set c (some i) else marks r
         if m.Erases cycset c i then row.reset i (some v) else row) := by
  unfold addNegativeRound Expands Erases
  by_cases hs : m.cfg.smallerEncoding = true <;> simp [hs]

theorem Tidy.addNegativeRound {marks : Marks n} (h : Tidy marks) (r c v i : Fin n) :
    Tidy (m.addNegativeRound cycset r c v marks i) := by
  rw [addNegativeRound_eq]
  apply h.update
  have hset : (if m.Expands cycset r v i then (marks r).set c (some i) else marks r).AllExact := by
    split
    · exact (h r).set c i
    · exact h r
  simp only
  split
  · exact hset.reset i v
  · exact hset

/-- One round touches the value `i` of the cell and the value `v` of column `i`. -/
theorem marked_addNegativeRound {marks : Marks n} (h : Tidy marks) (r c v i r' c' w : Fin n) :
    Marked (m.addNegativeRound cycset r c v marks i) r' c' w ↔
      (r' = r ∧ c' = c ∧ w = i ∧ m.Expands cycset r v i) ∨
        (Marked marks r' c' w ∧ ¬ (r' = r ∧ c' = i ∧ w = v ∧ m.Erases cycset c i)) := by
  rw [addNegativeRound_eq]
  unfold Marked
  by_cases hr : r' = r
  · subst hr
    rw [Function.update_self]
    have hne : m.Erases cycset c i → i ≠ c := fun he => he.1
    by_cases hx : m.Expands cycset r' v i
    · by_cases he : m.Erases cycset c i
      · simp only [if_pos hx, if_pos he, BitDomains2.dom_reset ((h r').set c i),
          BitDomains2.dom_set]
        have := hne he
        grind
      · simp only [if_pos hx, if_neg he, BitDomains2.dom_set]
        tauto
    · by_cases he : m.Erases cycset c i
      · simp only [if_neg hx, if_pos he, BitDomains2.dom_reset (h r')]
        tauto
      · simp only [if_neg hx, if_neg he]
        tauto
  · rw [Function.update_of_ne hr]
    simp [hr]

/-- The rounds of a negated mark over a list of points. -/
theorem foldl_addNegativeRound (r c v : Fin n) (l : List (Fin n)) {marks : Marks n}
    (h : Tidy marks) :
    Tidy (l.foldl (m.addNegativeRound cycset r c v) marks) ∧
    ∀ r' c' w, Marked (l.foldl (m.addNegativeRound cycset r c v) marks) r' c' w ↔
      (r' = r ∧ c' = c ∧ w ∈ l ∧ m.Expands cycset r v w) ∨
        (Marked marks r' c' w ∧ ¬ (r' = r ∧ c' ∈ l ∧ w = v ∧ m.Erases cycset c c')) := by
  induction l generalizing marks with
  | nil => exact ⟨h, fun r' c' w => by simp⟩
  | cons i rest ih =>
    obtain ⟨htidy, hmarked⟩ := ih (h.addNegativeRound m cycset r c v i)
    refine ⟨htidy, fun r' c' w => ?_⟩
    rw [List.foldl_cons, hmarked, m.marked_addNegativeRound cycset h]
    -- a value set at the cell is never the value that is erased
    have hdisjoint : ¬ (c' = c ∧ m.Erases cycset c c') := fun hc => hc.2.1 hc.1
    have hother : ∀ {x}, m.Expands cycset r v x → x ≠ v := fun hx => hx.1
    simp only [List.mem_cons]
    by_cases hwi : w = i <;> by_cases hci : c' = i <;> grind

theorem Tidy.addNegative {marks : Marks n} (h : Tidy marks) (r c v : Fin n) :
    Tidy (m.addNegative cycset marks r c v) :=
  (m.foldl_addNegativeRound cycset r c v _ h).1

theorem marked_addNegative {marks : Marks n} (h : Tidy marks) (r c v r' c' w : Fin n) :
    Marked (m.addNegative cycset marks r c v) r' c' w ↔
      (r' = r ∧ c' = c ∧ m.Expands cycset r v w) ∨
        (Marked marks r' c' w ∧ ¬ (r' = r ∧ w = v ∧ m.Erases cycset c c')) := by
  rw [addNegative, (m.foldl_addNegativeRound cycset r c v _ h).2]
  simp

/-- Every marked entry has a variable. -/
def Written (marks : Marks n) : Prop := ∀ r c v, Marked marks r c v → m.cycsetLits r c v ≠ 0

/-- `n - 2` marks, which the smaller encoding writes as a negation, are at least one. -/
def Roomy : Prop := 1 ≤ n ∧ (m.cfg.smallerEncoding = true → 3 ≤ n)

/-- The literals written for a cell hold in a table. -/
def CellTrue (marks : Marks n) (N : Fin n → Fin n → Fin n) (r c : Fin n) : Prop :=
  if m.cfg.smallerEncoding = true ∧ countBits ((marks r).row c).dom = n - 2 then
    ∃ i, some i ≠ cycset.matrix r r ∧ ¬ Marked marks r c i ∧ i ≠ N r c
  else Marked marks r c (N r c)

variable {m cycset}

theorem roomy_of_le (hn : 3 ≤ n) : m.Roomy := ⟨by omega, fun _ => hn⟩

theorem Numbered.table (hm : m.Numbered) :
    ∃ hi, LitTable m.cycsetLits
      (fun e => !m.cfg.diagPart || entryKept m.cfg m.diag e) hi := by
  unfold Numbered at hm
  rw [hm]
  by_cases hd : m.cfg.diagPart = true
  · simp only [hd, if_true, Bool.not_true, Bool.false_or]
    exact ⟨_, encodeDiagonal_lits m.cfg m.diag⟩
  · simp only [hd, Bool.false_eq_true, if_false, Bool.not_false, Bool.true_or]
    exact ⟨_, encodeNoDiag_lits m.cfg⟩

theorem Numbered.nonzero (hm : m.Numbered) (r c v : Fin n) :
    m.cycsetLits r c v ≠ 0 ↔
      (m.cfg.diagPart = true → m.cfg.smallerEncoding = true → r ≠ c ∧ v ≠ m.diag r) := by
  obtain ⟨hi, ht⟩ := hm.table
  rw [ht.nonzero]
  cases m.cfg.diagPart <;> cases hs : m.cfg.smallerEncoding <;> simp [entryKept, hs]

theorem Numbered.litTrue_pos (hm : m.Numbered) {τ : Valuation} {N : Fin n → Fin n → Fin n}
    (hN : Indicates τ m.cycsetLits N) {r c v : Fin n} (h0 : m.cycsetLits r c v ≠ 0) :
    LitTrue τ (m.cycsetLits r c v) ↔ N r c = v := by
  obtain ⟨hi, ht⟩ := hm.table
  have := (ht.range r c v).1
  rw [Library.litTrue_pos τ (by omega), hN r c v h0]

theorem Numbered.litTrue_neg (hm : m.Numbered) {τ : Valuation} {N : Fin n → Fin n → Fin n}
    (hN : Indicates τ m.cycsetLits N) {r c v : Fin n} (h0 : m.cycsetLits r c v ≠ 0) :
    LitTrue τ (-m.cycsetLits r c v) ↔ N r c ≠ v := by
  obtain ⟨hi, ht⟩ := hm.table
  have := (ht.range r c v).1
  rw [Library.litTrue_neg τ (by omega), ← Bool.not_eq_true, hN r c v h0]

/-- Entries that the table has not, and negated ones that it has, make a clause fail. An entry
without a variable only writes the literal 0. -/
theorem Numbered.failsIn (hm : m.Numbered) {clause : Clause} {N : Fin n → Fin n → Fin n}
    (h : ∀ l ∈ clause, (∃ r c v, l = m.cycsetLits r c v ∧ N r c ≠ v) ∨
      ∃ r c v, l = -m.cycsetLits r c v ∧ N r c = v) : m.FailsIn clause N := by
  rintro τ hτ ⟨l, hl, htrue⟩
  rcases h l hl with ⟨r, c, v, rfl, hv⟩ | ⟨r, c, v, rfl, hv⟩
  · by_cases h0 : m.cycsetLits r c v = 0
    · simp [h0, LitTrue] at htrue
    · exact hv ((hm.litTrue_pos hτ h0).mp htrue)
  · by_cases h0 : m.cycsetLits r c v = 0
    · simp [h0, LitTrue] at htrue
    · exact (hm.litTrue_neg hτ h0).mp htrue hv

theorem Numbered.not_holdsIn (hm : m.Numbered) {clause : Clause} {N : Fin n → Fin n → Fin n}
    (h : m.FailsIn clause N) : ¬ m.HoldsIn clause N := by
  intro hholds
  obtain ⟨hi, htable⟩ := hm.table
  obtain ⟨τ, hτ⟩ := htable.exists_indicates N
  exact h τ hτ (hholds τ hτ)

theorem Tidy.numtrue {marks : Marks n} (h : Tidy marks) (r c : Fin n) :
    (marks r).numtrue c = countBits ((marks r).row c).dom :=
  (h r c).exact.numTrue

theorem exists_marked (marks : Marks n) {r c : Fin n}
    (h : countBits ((marks r).row c).dom ≠ 0) : ∃ v, Marked marks r c v := by
  by_contra hnone
  apply h
  rw [countBits_eq_zero_iff]
  intro v
  rw [← Bool.not_eq_true]
  exact fun hv => hnone ⟨v, hv⟩

/-- What is not marked is counted by the rest. -/
theorem countBits_add_unmarked (marks : Marks n) (r c : Fin n) :
    countBits ((marks r).row c).dom +
      (Finset.univ.filter fun i => ¬ Marked marks r c i).card = n := by
  have h := Finset.card_filter_add_card_filter_not (s := (Finset.univ : Finset (Fin n)))
    (p := fun i => Marked marks r c i)
  rw [Finset.card_univ, Fintype.card_fin] at h
  exact h

theorem card_le_unmarked (marks : Marks n) {r c : Fin n} {l : List (Fin n)} (hl : l.Nodup)
    (h : ∀ i ∈ l, ¬ Marked marks r c i) :
    countBits ((marks r).row c).dom + l.length ≤ n := by
  have hsub : l.toFinset ⊆ Finset.univ.filter fun i => ¬ Marked marks r c i := by
    intro i hi
    simpa using h i (List.mem_toFinset.mp hi)
  have hcard := Finset.card_le_card hsub
  rw [List.toFinset_card_of_nodup hl] at hcard
  have := countBits_add_unmarked marks r c
  omega

/-- Two values are left out when `n - 2` are marked, so one of them is not the given value. -/
theorem exists_unmarked_ne {marks : Marks n} {r c : Fin n} (hn : 2 ≤ n)
    (h : countBits ((marks r).row c).dom = n - 2) (k : Option (Fin n)) :
    ∃ i, some i ≠ k ∧ ¬ Marked marks r c i := by
  have hcount := countBits_add_unmarked marks r c
  have htwo : 1 < (Finset.univ.filter fun i => ¬ Marked marks r c i).card := by omega
  obtain ⟨a, ha, b, hb, hab⟩ := Finset.one_lt_card.mp htwo
  simp only [Finset.mem_filter, Finset.mem_univ, true_and] at ha hb
  by_cases hk : some a = k
  · refine ⟨b, fun hb' => hab ?_, hb⟩
    exact Option.some.inj (hk.trans hb'.symm)
  · exact ⟨a, hk, ha⟩

/-- Literals of entries say that the cell has one of the values. -/
theorem Numbered.clause_pos (hm : m.Numbered) {r c : Fin n} {l : List (Fin n)}
    (hlit : ∀ i ∈ l, m.cycsetLits r c i ≠ 0) :
    (0 : Int) ∉ l.map (m.cycsetLits r c) ∧
    ∀ τ N, Indicates τ m.cycsetLits N →
      (ClauseTrue τ (l.map (m.cycsetLits r c)) ↔ N r c ∈ l) := by
  constructor
  · intro h0
    obtain ⟨i, hi, hzero⟩ := List.mem_map.mp h0
    exact hlit i hi hzero
  · intro τ N hN
    simp only [ClauseTrue, List.mem_map]
    constructor
    · rintro ⟨_, ⟨i, hi, rfl⟩, htrue⟩
      rw [(hm.litTrue_pos hN (hlit i hi)).mp htrue]
      exact hi
    · intro hmem
      exact ⟨_, ⟨N r c, hmem, rfl⟩, (hm.litTrue_pos hN (hlit _ hmem)).mpr rfl⟩

/-- Negated literals of entries say that the cell does not have all of the values. -/
theorem Numbered.clause_neg (hm : m.Numbered) {r c : Fin n} {l : List (Fin n)}
    (hlit : ∀ i ∈ l, m.cycsetLits r c i ≠ 0) :
    (0 : Int) ∉ l.map (fun i => -m.cycsetLits r c i) ∧
    ∀ τ N, Indicates τ m.cycsetLits N →
      (ClauseTrue τ (l.map fun i => -m.cycsetLits r c i) ↔ ∃ i ∈ l, i ≠ N r c) := by
  constructor
  · intro h0
    obtain ⟨i, hi, hzero⟩ := List.mem_map.mp h0
    exact hlit i hi (neg_eq_zero.mp hzero)
  · intro τ N hN
    simp only [ClauseTrue, List.mem_map]
    constructor
    · rintro ⟨_, ⟨i, hi, rfl⟩, htrue⟩
      exact ⟨i, hi, Ne.symm ((hm.litTrue_neg hN (hlit i hi)).mp htrue)⟩
    · rintro ⟨i, hi, hne⟩
      exact ⟨_, ⟨i, hi, rfl⟩, (hm.litTrue_neg hN (hlit i hi)).mpr (Ne.symm hne)⟩

/-- With one value left out, some left out value is not the cell's exactly when that value is
marked. -/
theorem exists_unmarked_iff {marks : Marks n} {r c : Fin n} (hn : 1 ≤ n)
    (h : countBits ((marks r).row c).dom = n - 1) (x : Fin n) :
    (∃ i, ¬ Marked marks r c i ∧ i ≠ x) ↔ Marked marks r c x := by
  constructor
  · rintro ⟨i, hi, hne⟩
    by_contra hx
    have := card_le_unmarked marks (r := r) (c := c) (l := [i, x]) (by simpa using hne)
      (by simpa using ⟨hi, hx⟩)
    simp only [List.length_cons, List.length_nil] at this
    omega
  · intro hx
    have hcount := countBits_add_unmarked marks r c
    have hone : 0 < (Finset.univ.filter fun i => ¬ Marked marks r c i).card := by omega
    obtain ⟨i, hi⟩ := Finset.card_pos.mp hone
    simp only [Finset.mem_filter, Finset.mem_univ, true_and] at hi
    exact ⟨i, hi, fun heq => hi (heq ▸ hx)⟩

/-- The clause of one cell has no literal 0 and means `CellTrue`. -/
theorem cellClause_spec (hm : m.Numbered) {marks : Marks n} (ht : Tidy marks)
    (hw : m.Written marks) (hn : m.Roomy)
    (hdiag : m.cfg.diagPart = true → ∀ i, cycset.matrix i i = some (m.diag i)) (r c : Fin n) :
    (0 : Int) ∉ m.cellClause cycset marks r c ∧
    ∀ τ N, Indicates τ m.cycsetLits N →
      (ClauseTrue τ (m.cellClause cycset marks r c) ↔ m.CellTrue cycset marks N r c) := by
  have hget : ∀ i, (marks r).get c (some i) = true ↔ Marked marks r c i := by
    intro i
    rw [(ht r c).get]
    rfl
  have hcount := ht.numtrue r c
  by_cases htwo : m.cfg.smallerEncoding = true ∧ countBits ((marks r).row c).dom = n - 2
  · -- what is left out is negated, except the diagonal value
    have hthree := hn.2 htwo.1
    obtain ⟨w, hwmark⟩ := exists_marked marks (r := r) (c := c) (by omega)
    have hcell : m.cellClause cycset marks r c =
        ((List.finRange n).filter fun i =>
          some i != cycset.matrix r r && !(marks r).get c (some i)).map
            fun i => -m.cycsetLits r c i := by
      unfold cellClause
      rw [if_pos]
      rw [htwo.1, hcount, Bool.true_and, beq_iff_eq]
      omega
    have hlit : ∀ i ∈ (List.finRange n).filter (fun i =>
        some i != cycset.matrix r r && !(marks r).get c (some i)), m.cycsetLits r c i ≠ 0 := by
      intro i hi
      simp only [List.mem_filter, Bool.and_eq_true, bne_iff_ne] at hi
      rw [hm.nonzero]
      intro hd hs
      refine ⟨((hm.nonzero r c w).mp (hw r c w hwmark) hd hs).1, fun heq => hi.2.1 ?_⟩
      rw [hdiag hd, heq]
    rw [hcell]
    refine ⟨(hm.clause_neg hlit).1, fun τ N hN => ?_⟩
    rw [(hm.clause_neg hlit).2 τ N hN, CellTrue, if_pos htwo]
    simp only [List.mem_filter, List.mem_finRange, true_and, Bool.and_eq_true, bne_iff_ne,
      Bool.not_eq_true', ← Bool.not_eq_true, hget, and_assoc]
  · by_cases hone : m.cfg.smallerEncoding = false ∧ countBits ((marks r).row c).dom = n - 1
    · have hpos := hn.1
      have hcell : m.cellClause cycset marks r c =
          ((List.finRange n).filter fun i => !(marks r).get c (some i)).map
            fun i => -m.cycsetLits r c i := by
        unfold cellClause
        rw [if_neg (by simp [hone.1]), if_pos]
        rw [hone.1, hcount, Bool.not_false, Bool.true_and, beq_iff_eq]
        omega
      have hlit : ∀ i ∈ (List.finRange n).filter (fun i => !(marks r).get c (some i)),
          m.cycsetLits r c i ≠ 0 := by
        intro i _
        rw [hm.nonzero]
        intro _ hs
        rw [hone.1] at hs
        cases hs
      rw [hcell]
      refine ⟨(hm.clause_neg hlit).1, fun τ N hN => ?_⟩
      rw [(hm.clause_neg hlit).2 τ N hN, CellTrue, if_neg htwo,
        ← exists_unmarked_iff hpos hone.2]
      simp only [List.mem_filter, List.mem_finRange, true_and, Bool.not_eq_true',
        ← Bool.not_eq_true, hget]
    · have hnot : ¬ (m.cfg.smallerEncoding && (marks r).numtrue c == n - 2) = true ∧
          ¬ (!m.cfg.smallerEncoding && (marks r).numtrue c == n - 1) = true := by
        rw [hcount]
        simp only [Bool.and_eq_true, Bool.not_eq_true', beq_iff_eq]
        constructor
        · rintro ⟨hs, heq⟩
          exact htwo ⟨hs, by omega⟩
        · rintro ⟨hs, heq⟩
          exact hone ⟨hs, by omega⟩
      have hcell : m.cellClause cycset marks r c =
          ((marks r).options c).map fun l => m.cycsetLits r c l := by
        unfold cellClause
        rw [if_neg hnot.1, if_neg hnot.2]
        split
        · rfl
        next hpos =>
          have hzero : countBits ((marks r).row c).dom = 0 := by omega
          have hoptions : (marks r).options c = [] := by
            rw [BitDomains2.options_row, ← List.length_eq_zero_iff, BitDomain.length_options, hzero]
          rw [hoptions, List.map_nil]
      have hmem : ∀ i, i ∈ (marks r).options c ↔ Marked marks r c i := by
        intro i
        rw [BitDomains2.options_row, BitDomain.mem_options]
        rfl
      have hlit : ∀ i ∈ (marks r).options c, m.cycsetLits r c i ≠ 0 :=
        fun i hi => hw r c i ((hmem i).mp hi)
      rw [hcell]
      refine ⟨(hm.clause_pos hlit).1, fun τ N hN => ?_⟩
      rw [(hm.clause_pos hlit).2 τ N hN, CellTrue, if_neg htwo, hmem]

/-- The clause has no literal 0, and holds in a table where it holds at some cell. -/
theorem toClause_spec (hm : m.Numbered) {marks : Marks n} (ht : Tidy marks)
    (hw : m.Written marks) (hn : m.Roomy)
    (hdiag : m.cfg.diagPart = true → ∀ i, cycset.matrix i i = some (m.diag i)) :
    (0 : Int) ∉ m.toClause cycset marks ∧
    ∀ τ N, Indicates τ m.cycsetLits N →
      (ClauseTrue τ (m.toClause cycset marks) ↔ ∃ r c, m.CellTrue cycset marks N r c) := by
  have hspec := cellClause_spec hm ht hw hn hdiag
  constructor
  · intro h0
    obtain ⟨q, -, hq⟩ := List.mem_flatMap.mp h0
    exact (hspec q.1 q.2).1 hq
  · intro τ N hN
    constructor
    · rintro ⟨l, hl, htrue⟩
      obtain ⟨q, -, hq⟩ := List.mem_flatMap.mp hl
      exact ⟨q.1, q.2, ((hspec q.1 q.2).2 τ N hN).mp ⟨l, hq, htrue⟩⟩
    · rintro ⟨r, c, hcell⟩
      obtain ⟨l, hl, htrue⟩ := ((hspec r c).2 τ N hN).mpr hcell
      exact ⟨l, List.mem_flatMap.mpr ⟨(r, c), mem_cells _, hl⟩, htrue⟩

theorem cellTrue_of_marked (hn : m.Roomy) {marks : Marks n} {N : Fin n → Fin n → Fin n}
    {r c : Fin n} (h : Marked marks r c (N r c)) : m.CellTrue cycset marks N r c := by
  unfold CellTrue
  split
  next htwo =>
    have hthree := hn.2 htwo.1
    obtain ⟨i, hi, hun⟩ := exists_unmarked_ne (by omega) htwo.2 (cycset.matrix r r)
    exact ⟨i, hi, hun, fun heq => hun (heq ▸ h)⟩
  next => exact h

/-- Outside the smaller encoding without a diagonal, a cell's clause means its marks. -/
theorem cellTrue_iff_marked (hm : m.Numbered) (hn : m.Roomy) {marks : Marks n}
    (hw : m.Written marks)
    (hdiag : m.cfg.diagPart = true → ∀ i, cycset.matrix i i = some (m.diag i))
    (hmode : m.cfg.smallerEncoding = true → m.cfg.diagPart = true) {N : Fin n → Fin n → Fin n}
    (hN : m.Admits N) (r c : Fin n) :
    m.CellTrue cycset marks N r c ↔ Marked marks r c (N r c) := by
  constructor
  · unfold CellTrue
    split
    next htwo =>
      rintro ⟨i, hi, hun, hne⟩
      by_contra hx
      -- the value of the cell, `i` and the diagonal value would be three values left out
      have hd := hmode htwo.1
      have hthree := hn.2 htwo.1
      obtain ⟨w, hwmark⟩ := exists_marked marks (r := r) (c := c) (by omega)
      have hrc := ((hm.nonzero r c w).mp (hw r c w hwmark) hd htwo.1).1
      have hval : N r c ≠ m.diag r := by
        rw [← hN.diagonal hd r]
        exact fun heq => hrc ((hN.rows r).1 heq).symm
      have hdiagun : ¬ Marked marks r c (m.diag r) := fun hmark =>
        ((hm.nonzero r c _).mp (hw r c _ hmark) hd htwo.1).2 rfl
      have hidiag : i ≠ m.diag r := by
        rintro rfl
        exact hi (hdiag hd r).symm
      have := card_le_unmarked marks (r := r) (c := c) (l := [i, N r c, m.diag r])
        (by simpa using ⟨⟨hne, hidiag⟩, hval⟩) (by simpa using ⟨hun, hx, hdiagun⟩)
      simp only [List.length_cons, List.length_nil] at this
      omega
    next => exact id
  · exact cellTrue_of_marked hn

/-- A negated mark makes the clause hold wherever the cell has another value. -/
theorem cellTrue_addNegative (hn : m.Roomy) {marks : Marks n} (ht : Tidy marks)
    {N : Fin n → Fin n → Fin n} {r c v : Fin n} (hv : ¬ Marked marks r c v) (hne : N r c ≠ v) :
    m.CellTrue cycset (m.addNegative cycset marks r c v) N r c := by
  have hown : ∀ w, Marked (m.addNegative cycset marks r c v) r c w ↔
      m.Expands cycset r v w ∨ Marked marks r c w := by
    intro w
    rw [m.marked_addNegative cycset ht]
    have hself : ¬ m.Erases cycset c c := fun h => h.1 rfl
    simp [hself]
  by_cases hx : Marked (m.addNegative cycset marks r c v) r c (N r c)
  · exact cellTrue_of_marked hn hx
  · -- the cell's value is spared as the value of the diagonal cell, and only `v` is left with it
    have hspared : m.cfg.smallerEncoding = true ∧ some (N r c) = cycset.matrix r r := by
      have hnot : ¬ m.Expands cycset r v (N r c) := fun h => hx ((hown _).mpr (Or.inl h))
      unfold Expands at hnot
      push Not at hnot
      exact hnot hne
    have hvun : ¬ Marked (m.addNegative cycset marks r c v) r c v := by
      rw [hown]
      rintro (h | h)
      · exact h.1 rfl
      · exact hv h
    have hcount : countBits ((m.addNegative cycset marks r c v r).row c).dom = n - 2 := by
      have hle := card_le_unmarked (m.addNegative cycset marks r c v) (r := r) (c := c)
        (l := [N r c, v]) (by simpa using hne) (by simpa using ⟨hx, hvun⟩)
      have hsub : (Finset.univ.filter fun i =>
          ¬ Marked (m.addNegative cycset marks r c v) r c i) ⊆ {N r c, v} := by
        intro i hi
        simp only [Finset.mem_filter, Finset.mem_univ, true_and] at hi
        rw [Finset.mem_insert, Finset.mem_singleton]
        by_contra hother
        push Not at hother
        refine hi ((hown i).mpr (Or.inl ⟨hother.2, fun _ heq => hother.1 ?_⟩))
        exact Option.some.inj (heq.trans hspared.2.symm)
      have hcard := Finset.card_le_card hsub
      have htwo : ({N r c, v} : Finset (Fin n)).card ≤ 2 := Finset.card_le_two
      have := countBits_add_unmarked (m.addNegative cycset marks r c v) r c
      simp only [List.length_cons, List.length_nil] at hle
      omega
    unfold CellTrue
    rw [if_pos ⟨hspared.1, hcount⟩]
    refine ⟨v, fun heq => hne ?_, hvun, Ne.symm hne⟩
    exact Option.some.inj (hspared.2.trans heq.symm)

/-- Expanding a negated mark loses no table in which a mark held: an erased mark is a value the
row then has elsewhere. -/
theorem exists_cellTrue_addNegative (hn : m.Roomy) {marks : Marks n} (ht : Tidy marks)
    {N : Fin n → Fin n → Fin n} (hN : RowsPermute N) {r c v : Fin n} (hv : ¬ Marked marks r c v)
    (h : (∃ r' c', Marked marks r' c' (N r' c')) ∨ N r c ≠ v) :
    ∃ r' c', m.CellTrue cycset (m.addNegative cycset marks r c v) N r' c' := by
  rcases h with ⟨r', c', hmark⟩ | hne
  · by_cases herased : r' = r ∧ N r' c' = v ∧ m.Erases cycset c c'
    · obtain ⟨rfl, hval, herase⟩ := herased
      have hne : N r' c ≠ v := by
        rw [← hval]
        exact fun heq => herase.1 ((hN r').1 heq).symm
      exact ⟨r', c, cellTrue_addNegative hn ht hv hne⟩
    · refine ⟨r', c', cellTrue_of_marked hn ?_⟩
      rw [m.marked_addNegative cycset ht]
      exact Or.inr ⟨hmark, herased⟩
  · exact ⟨r, c, cellTrue_addNegative hn ht hv hne⟩

end MinCheck

end YbeSms.Source
