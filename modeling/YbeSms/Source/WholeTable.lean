import YbeSms.Source.SearchRun

/-!
# The search over a whole table

Source: ybe-sms/src/minCheckCommon.cpp:16-114, 116-262, 321-505; minCheck_V2.cpp:46-284.
Once every cell has its value, a cell is compared with its image by the values
themselves: less ends in a clause, equal goes on, greater gives the permutation
up. No option that is dropped could have led to a smaller relabelling.
-/

namespace YbeSms.Source

open YbeSms.Library YbeSms.Abstract Equiv
open YbeSms.Library.Traced (ensures_pure ensures_stop ensures_log ensures_ofOption ensures_fold)

variable {n : Nat}

namespace MinCheck

/-- The cycle set of a whole table with permutation rows. -/
structure Shows (m : MinCheck n) (cycset : CycleSet n) (M : Fin n → Fin n → Fin n) : Prop where
  consistent : m.Consistent cycset
  matrix : ∀ i j, cycset.matrix i j = some (M i j)
  rows : RowsPermute M

variable {m : MinCheck n} {d : Perm (Fin n)} {cycset : CycleSet n} {M : Fin n → Fin n → Fin n}

theorem Shows.admits (h : m.Shows cycset M) : m.Admits M where
  rows := h.rows
  diagonal hd i := by
    have hcell := (h.matrix i i).symm.trans (h.consistent.diagonal hd i)
    exact Option.some.inj hcell

/-- The one inverse image over the image cell is the value of the relabelled table. -/
theorem Shows.permvals (h : m.Shows cycset M) (q : Perm (Fin n)) (r c : Fin n) :
    permvals cycset q r c = [(M (q r) (q c), ((act q M r c).val : Int))] := by
  rw [permvals_singleton (options_of_assigned h.consistent (h.matrix (q r) (q c))), invperm_perm]
  rfl

theorem Shows.lastInverse (h : m.Shows cycset M) (q : Perm (Fin n)) (r c : Fin n) :
    lastInverse (Source.permvals cycset q r c) = (act q M r c).val := by
  rw [h.permvals]
  rfl

theorem Shows.ogValue (h : m.Shows cycset M) (r c : Fin n) :
    ogValue cycset r c = (M r c).val := by
  unfold Source.ogValue
  rw [h.matrix]

theorem Shows.mem_candidates (h : m.Shows cycset M) (r c : Fin n) : M r c ∈ candidates cycset r c :=
  (h.consistent.assigned r c _ (h.matrix r c) _).mpr rfl

/-! ### The clauses that are thrown -/

/-- Two different values in one cell off the diagonal make three in all. -/
theorem roomy_of_ne (hmode : InMode m d) (h : m.Shows cycset M) {q : Perm (Fin n)}
    (hq : Commute q d) {r c : Fin n} (hoff : m.cfg.diagPart = true → r ≠ c)
    (hne : act q M r c ≠ M r c) : m.Roomy := by
  refine ⟨r.pos, fun hsmall => ?_⟩
  have hd := hmode.diagPart_of_smaller hsmall
  have hrc := hoff hd
  have hsame : act q M r r = M r r :=
    act_diagonal ((hmode.serves r.pos).commute_diag hd hq) (h.admits.diagonal hd) r
  have hold : M r r ≠ M r c := fun heq => hrc ((h.rows r).1 heq)
  have hnew : act q M r r ≠ act q M r c := fun heq =>
    hrc (q.injective ((h.rows (q r)).1 (q.symm.injective heq)))
  rw [hsame] at hnew
  have hdiag := (M r r).isLt
  have hcell := (M r c).isLt
  have himage := (act q M r c).isLt
  simp only [ne_eq, Fin.ext_iff] at hne hold hnew
  omega

theorem addClausesShort_failsIn (hmode : InMode m d) (hm : m.Numbered) (h : m.Shows cycset M)
    {q : Perm (Fin n)} (hq : Commute q d) {r c : Fin n} (hoff : m.cfg.diagPart = true → r ≠ c)
    (hlt : act q M r c < M r c) {clause : Clause}
    (hthrow : m.addClausesShort cycset q r c = some clause) : m.FailsIn clause M := by
  have hc := h.consistent
  have hroom := roomy_of_ne hmode h hq hoff hlt.ne
  obtain ⟨hsound, -⟩ := earlier_spec hc q (m.earlierCells r c) (Sound.empty m cycset)
  obtain ⟨marks, hmarks, rfl⟩ := Option.map_eq_some_iff.mp hthrow
  have hsound' : m.Sound cycset marks := by
    have hfirst : lastInverse (permvals cycset q r c) < ogValue cycset r c := by
      rw [h.lastInverse, h.ogValue]
      exact_mod_cast hlt
    unfold targetMarks at hmarks
    simp only [if_pos hfirst] at hmarks
    obtain rfl := Option.some.inj hmarks
    exact (hsound.markBelow hc hoff _).markAbove hc hoff _
  have hwritten := hsound'.written hm
  intro τ hτ
  rw [(toClause_spec hm hsound'.tidy hwritten hroom hc.diagonal).2 τ M hτ]
  rintro ⟨r', c', hcell⟩
  rw [cellTrue_iff_marked hm hroom hwritten hc.diagonal (fun hs => hmode.diagPart_of_smaller hs)
    h.admits] at hcell
  exact hsound'.outside r' c' _ hcell (h.mem_candidates r' c')

/-- The old encoder writes what the table has negated and what it has not unnegated. -/
theorem addClausesOld_failsIn (hm : m.Numbered) (h : m.Shows cycset M) {q : Perm (Fin n)}
    {r c : Fin n} {clause : Clause} (hthrow : m.addClausesOld cycset q r c = some clause) :
    m.FailsIn clause M := by
  obtain ⟨target, htarget, rfl⟩ := Option.map_eq_some_iff.mp hthrow
  apply hm.failsIn
  intro l hl
  rcases List.mem_append.mp hl with hl | hl
  · obtain ⟨x, -, hx⟩ := List.mem_flatMap.mp hl
    unfold oldCell at hx
    split at hx
    · exact absurd hx List.not_mem_nil
    · obtain ⟨i, -, hi⟩ := List.mem_flatMap.mp hx
      unfold oldEntry at hi
      split at hi
      · exact absurd hi List.not_mem_nil
      · split at hi
        · rcases List.mem_append.mp hi with hi | hi
          · split at hi
            next hassigned =>
              have hcell := (h.consistent.isTrue x.1 x.2 i).mpr hassigned
              rw [h.matrix, Option.some.injEq] at hcell
              exact Or.inr ⟨x.1, x.2, i, List.mem_singleton.mp hi, hcell⟩
            next => exact absurd hi List.not_mem_nil
          · split at hi
            next hassigned =>
              refine Or.inl ⟨q x.1, q x.2, q i, List.mem_singleton.mp hi, fun hcell => ?_⟩
              have hout := h.consistent.isFalse _ _ _ hassigned
              rw [← hcell, (h.consistent.assigned _ _ _ (h.matrix _ _) _).mpr rfl] at hout
              cases hout
            next => exact absurd hi List.not_mem_nil
        · exact absurd hi List.not_mem_nil
  · unfold oldTarget at htarget
    simp only [h.matrix, h.permvals, Option.some.injEq] at htarget
    rw [← htarget] at hl
    rcases List.mem_cons.mp hl with rfl | hl
    · exact Or.inr ⟨r, c, _, rfl, rfl⟩
    · exact Or.inr ⟨q r, q c, _, List.mem_singleton.mp hl, rfl⟩

theorem addClauses_failsIn (hmode : InMode m d) (hm : m.Numbered) (h : m.Shows cycset M)
    {q : Perm (Fin n)} (hq : Commute q d) {r c : Fin n} (hoff : m.cfg.diagPart = true → r ≠ c)
    (hlt : act q M r c < M r c) {clause : Clause}
    (hthrow : m.addClauses cycset q r c = some clause) : m.FailsIn clause M := by
  unfold addClauses at hthrow
  split at hthrow
  · exact addClausesOld_failsIn hm h hthrow
  · exact addClausesShort_failsIn hmode hm h hq hoff hlt hthrow

/-! ### Comparing tables -/

/-- How a search over a whole table may stop: some relabelling is smaller, and the table does not
have the clause. -/
def Beaten (m : MinCheck n) (d : Perm (Fin n)) (M : Fin n → Fin n → Fin n) (s : Stop) : Prop :=
  ∃ clause, s = .clause clause ∧
    (∃ p : Perm (Fin n), Commute p d ∧ rowMajor (act p M) < rowMajor M) ∧
    (InMode m d → m.Numbered → m.FailsIn clause M)

/-- A search over a whole table returns a value in `Q`, or beats the table. -/
abbrev Decides (m : MinCheck n) (d : Perm (Fin n)) (M : Fin n → Fin n → Fin n) {α : Type}
    (x : Search n α) (Q : α → Prop) : Prop :=
  x.Ensures (fun _ => True) (fun _ => True) Q (Beaten m d M)

/-- A rule of the search that also says what is handed on. -/
theorem decides_of_handed (cycset : CycleSet n) {α : Type} {x : Search n α} {Q : α → Prop}
    (hx : x.Ensures (fun _ => True) (Handed m d cycset) Q (Beaten m d M)) : Decides m d M x Q :=
  hx.of_events fun _ _ => trivial

/-- The relabelled table agrees with the table on every cell before `(r, c)`. -/
def LevelBefore (M : Fin n → Fin n → Fin n) (q : Perm (Fin n)) (r c : Fin n) : Prop :=
  ∀ x : Fin n × Fin n, toLex x < toLex (r, c) → act q M x.1 x.2 = M x.1 x.2

theorem LevelBefore.smaller {q : Perm (Fin n)} {r c : Fin n} (h : LevelBefore M q r c)
    (hlt : act q M r c < M r c) : rowMajor (act q M) < rowMajor M :=
  rowMajor_lt_of_le (q := (r, c)) (fun x hx => (h x hx).le) hlt

theorem LevelBefore.larger {q : Perm (Fin n)} {r c : Fin n} (h : LevelBefore M q r c)
    (hlt : M r c < act q M r c) : rowMajor M ≤ rowMajor (act q M) :=
  (rowMajor_lt_of_le (q := (r, c)) (fun x hx => (h x hx).ge) hlt).le

section Whole

variable (hs : Serves m d) (h : m.Shows cycset M)

include hs h

/-- A smaller cell after equal ones ends the search with a clause. -/
theorem throwClauses_beaten {q : Perm (Fin n)} (hq : Commute q d) {r c : Fin n}
    (hbefore : LevelBefore M q r c) (hlt : act q M r c < M r c) :
    Decides m d M (m.throwClauses cycset q r c) fun _ => False := by
  have hoff : m.cfg.diagPart = true → r ≠ c := by
    rintro hd rfl
    have hsame := act_diagonal (hs.commute_diag hd hq) (h.admits.diagonal hd) r
    exact hlt.ne hsame
  have hsome : m.addClauses cycset q r c ≠ none := by
    apply addClauses_ne_none h.consistent
    rw [firstel_eq_ogValue h.consistent, h.ogValue, h.lastInverse]
    exact_mod_cast hlt
  obtain ⟨clause, hclause⟩ := Option.ne_none_iff_exists'.mp hsome
  unfold throwClauses
  refine (ensures_log (Q := fun _ => True) fun _ => ⟨trivial, trivial⟩).bind fun _ _ => ?_
  rw [hclause]
  refine ensures_stop ⟨clause, rfl, ⟨q, hq, hbefore.smaller hlt⟩, fun hmode hm => ?_⟩
  exact addClauses_failsIn hmode hm h hq hoff hlt hclause

omit hs in
theorem fullRound_eq (q : Perm (Fin n)) (r c : Fin n) :
    m.fullRound cycset q r c =
      if act q M r c < M r c then do
        m.throwClauses cycset q r c
        pure .next
      else if act q M r c = M r c then pure .next else pure .leave := by
  have hcell := assigned_cell h.consistent (h.matrix r c)
  have hinv : invperm q (M (q r) (q c)) = (act q M r c).val := invperm_perm q _
  unfold fullRound
  simp only [options_of_assigned h.consistent (h.matrix (q r) (q c)), hinv, hcell.1, hcell.2.1,
    beq_self_eq_true, true_and, Nat.cast_lt, Nat.cast_inj, Fin.val_fin_lt, Fin.val_inj]
  split
  · rfl
  · split
    · rfl
    next hne => rw [if_neg (by simp [hne])]

/-- The comparison from cell to cell. -/
theorem fullRounds_decides {q : Perm (Fin n)} (hq : Commute q d) (l : List (Fin n × Fin n))
    (hl : l.Pairwise fun a b => toLex a < toLex b)
    (hdone : ∀ x, x ∉ l → act q M x.1 x.2 = M x.1 x.2) :
    Decides m d M (m.fullRounds cycset q l) fun _ => rowMajor M ≤ rowMajor (act q M) := by
  induction l with
  | nil =>
    have hsame : act q M = M := by
      funext i j
      exact hdone (i, j) List.not_mem_nil
    exact ensures_pure (by rw [hsame])
  | cons y rest ih =>
    obtain ⟨hy, hrest⟩ := List.pairwise_cons.mp hl
    have hbefore : LevelBefore M q y.1 y.2 := by
      intro x hx
      refine hdone x fun hmem => ?_
      rcases List.mem_cons.mp hmem with rfl | hmem
      · exact lt_irrefl _ hx
      · exact lt_asymm hx (hy x hmem)
    unfold fullRounds
    rw [fullRound_eq h]
    rcases lt_trichotomy (act q M y.1 y.2) (M y.1 y.2) with hlt | heq | hgt
    · rw [if_pos hlt]
      exact ((throwClauses_beaten hs h hq hbefore hlt).bind_of_stops (R := fun _ => False)).bind_of_stops
    · rw [if_neg heq.not_lt, if_pos heq]
      refine (ensures_pure (Q := fun o => o = Round.next) rfl).bind fun o ho => ?_
      rw [ho]
      refine ih hrest fun x hx => ?_
      by_cases hxy : x = y
      · rw [hxy]
        exact heq
      · exact hdone x fun hmem => (List.mem_cons.mp hmem).elim hxy hx
    · rw [if_neg hgt.not_gt, if_neg hgt.ne']
      refine (ensures_pure (Q := fun o => o = Round.leave) rfl).bind fun o ho => ?_
      rw [ho]
      exact ensures_pure (hbefore.larger hgt)

theorem permFullyDefinedCheck_decides {q : Perm (Fin n)} (hq : Commute q d) {r c : Fin n}
    (hbefore : LevelBefore M q r c) :
    Decides m d M (m.permFullyDefinedCheck cycset q r c)
      fun _ => rowMajor M ≤ rowMajor (act q M) := by
  unfold permFullyDefinedCheck
  refine (ensures_log (Q := fun _ => True) fun _ => ⟨trivial, trivial⟩).bind fun _ _ => ?_
  split
  next hid =>
    have hone : q = 1 := by
      ext x
      have hx := List.all_eq_true.mp hid x (List.mem_finRange x)
      rw [beq_iff_eq.mp hx]
      rfl
    refine ensures_pure ?_
    rw [hone, act_one]
  next =>
    refine fullRounds_decides hs h hq _ ((pairwise_cells n).filter _) fun x hx => hbefore x ?_
    rw [List.mem_filter, not_and_or] at hx
    have hcond := hx.resolve_left fun hno => hno (mem_cells x)
    simp only [Bool.not_eq_true', Bool.not_eq_false, Bool.or_eq_true, decide_eq_true_eq,
      Bool.and_eq_true, beq_iff_eq] at hcond
    rw [Prod.Lex.toLex_lt_toLex]
    exact hcond

/-! ### The search tree -/

omit hs h in
/-- What an option brings to its examination at row `r`. -/
structure Placed (m : MinCheck n) (d : Perm (Fin n)) (M : Fin n → Fin n → Fin n) (perm : PPerm n)
    (r i j : Fin n) : Prop where
  valid : Valid m d perm
  first : ∀ q ∈ den d perm, q (firstPoint r) = i
  image : ∀ q ∈ den d perm, q r = j
  level : ∀ q ∈ den d perm, LevelBefore M q (firstPoint r) r

/-- A dropped option has no smaller relabelling. One that is kept loses none and is level at the
cell. -/
def Examined (m : MinCheck n) (d : Perm (Fin n)) (M : Fin n → Fin n → Fin n) (perm : PPerm n)
    (r : Fin n) : Verdict n → Prop
  | .drop => ∀ q ∈ den d perm, rowMajor M ≤ rowMajor (act q M)
  | .keep kept => Valid m d kept ∧ den d kept ⊆ den d perm ∧
      (∀ q ∈ den d kept, act q M (firstPoint r) r = M (firstPoint r) r) ∧
      ∀ q ∈ den d perm, q ∉ den d kept → rowMajor M ≤ rowMajor (act q M)
  | .leave _ => False

theorem learn_beaten {perm : PPerm n} {r : Fin n} (hvalid : Valid m d perm)
    (hlevel : ∀ q ∈ den d perm, LevelBefore M q (firstPoint r) r)
    (hlt : ∀ q ∈ den d perm, act q M (firstPoint r) r < M (firstPoint r) r) :
    Decides m d M (m.learn cycset perm r) fun _ => False := by
  unfold learn
  refine (decides_of_handed cycset (extend_spec hs hvalid)).bind fun extended hext => ?_
  obtain ⟨-, hsub, q, hq, hget⟩ := hext
  rw [hget]
  refine (ensures_ofOption (Q := fun p => p = ⇑q) (fun hnone => by cases hnone)
    fun p hp => (Option.some.inj hp).symm).bind fun p hp => ?_
  rw [hp]
  have hin := hsub hq
  exact (throwClauses_beaten hs h hin.1 (hlevel q hin) (hlt q hin)).bind_of_stops

theorem singleValue_decides {perm : PPerm n} {r i j : Fin n} (hp : Placed m d M perm r i j) :
    Decides m d M (m.singleValue cycset perm r (M i j)) (Examined m d M perm r) := by
  obtain ⟨hfirstel, hone, -⟩ := assigned_cell h.consistent (h.matrix (firstPoint r) r)
  have hvalue : ∀ q ∈ den d perm, ∀ x, q x = M i j → act q M (firstPoint r) r = x := by
    intro q hq x hx
    unfold act
    rw [hp.first q hq, hp.image q hq, ← hx, symm_apply_apply]
  have hdrop : (∀ q ∈ den d perm, M (firstPoint r) r < act q M (firstPoint r) r) →
      Decides m d M (pure .drop : Search n (Verdict n)) (Examined m d M perm r) :=
    fun hgt => ensures_pure fun q hq => (hp.level q hq).larger (hgt q hq)
  unfold singleValue
  simp only [hfirstel, hone, beq_self_eq_true, true_and, Nat.cast_lt, Nat.cast_inj, Fin.val_fin_lt,
    Fin.val_inj]
  cases hinv : perm.invPermOf (M i j) with
  | some inv =>
    have hact : ∀ q ∈ den d perm, act q M (firstPoint r) r = inv := fun q hq =>
      hvalue q hq inv ((hp.valid.invPermOf_eq_some inv _).mp hinv q hq)
    simp only
    rcases lt_trichotomy inv (M (firstPoint r) r) with hlt | heq | hgt
    · rw [if_pos hlt]
      exact (learn_beaten hs h hp.valid hp.level fun q hq =>
        (hact q hq).trans_lt hlt).bind_of_stops
    · rw [if_neg heq.not_lt, if_pos heq]
      exact ensures_pure ⟨hp.valid, subset_rfl, fun q hq => (hact q hq).trans heq,
        fun q hq hno => absurd hq hno⟩
    · rw [if_neg hgt.not_gt, if_neg hgt.ne', if_neg fun hboth => hgt.ne' hboth.2]
      exact hdrop fun q hq => hgt.trans_eq (hact q hq).symm
  | none =>
    cases hmin : (perm.invOptions (M i j)).min? with
    | none => exact absurd (List.min?_eq_none_iff.mp hmin) (hp.valid.invOptions_ne_nil _)
    | some inv =>
      obtain ⟨hmem, hleast⟩ := List.min?_eq_some_iff.mp hmin
      obtain ⟨hunfixed, himage, hstart⟩ := hp.valid.choosable_of_least hinv hmem hleast
      have hge : ∀ q ∈ den d perm, inv ≤ act q M (firstPoint r) r := by
        intro q hq
        rw [hvalue q hq _ (apply_symm_apply q _)]
        exact hleast _ ((hp.valid.mem_invOptions _ _).mpr ⟨q, hq, apply_symm_apply q _⟩)
      have hchoose : Decides m d M (m.choose perm inv (some (M i j))) fun c =>
          Valid m d c.1 ∧ den d c.1 = {q ∈ den d perm | q inv = M i j} :=
        (decides_of_handed cycset (choose_spec hs hp.valid hunfixed himage hstart)).mono
          (fun _ hc => hc.2) fun _ => id
      simp only
      rcases lt_trichotomy inv (M (firstPoint r) r) with hlt | heq | hgt
      · rw [if_pos hlt]
        refine hchoose.bind fun fixed hfixed => ?_
        obtain ⟨hvalid, hden⟩ := hfixed
        refine (learn_beaten hs h hvalid (fun q hq => ?_) fun q hq => ?_).bind_of_stops
        · rw [hden] at hq
          exact hp.level q hq.1
        · rw [hden] at hq
          exact (hvalue q hq.1 inv hq.2).trans_lt hlt
      · rw [if_neg heq.not_lt, if_pos heq]
        refine hchoose.bind fun fixed hfixed => ensures_pure ?_
        obtain ⟨hvalid, hden⟩ := hfixed
        refine ⟨hvalid, ?_, fun q hq => ?_, fun q hq hno => ?_⟩
        · rw [hden]
          exact fun q hq => hq.1
        · rw [hden] at hq
          exact (hvalue q hq.1 inv hq.2).trans heq
        · -- the value has its inverse image elsewhere, and that is a greater point
          refine (hp.level q hq).larger (lt_of_le_of_ne (heq ▸ hge q hq) fun hsame => hno ?_)
          rw [hden]
          refine ⟨hq, ?_⟩
          rw [heq, hsame]
          unfold act
          rw [hp.first q hq, hp.image q hq, apply_symm_apply]
      · rw [if_neg hgt.not_gt, if_neg hgt.ne', if_neg fun hboth => hgt.ne' hboth.2]
        exact hdrop fun q hq => hgt.trans_le (hge q hq)

theorem examine_decides {perm : PPerm n} {r i j : Fin n} (hp : Placed m d M perm r i j) :
    Decides m d M (m.examine cycset perm r) (Examined m d M perm r) := by
  obtain ⟨q, hq⟩ := hp.valid.exists_mem_den
  have hi : perm.permOf (firstPoint r) = some i := by
    rw [hp.valid.permOf_eq hq ((hp.valid.fixed_iff hq _).mpr fun q' hq' =>
      (hp.first q' hq').trans (hp.first q hq).symm), hp.first q hq]
  have hj : perm.permOf r = some j := by
    rw [hp.valid.permOf_eq hq ((hp.valid.fixed_iff hq _).mpr fun q' hq' =>
      (hp.image q' hq').trans (hp.image q hq).symm), hp.image q hq]
  obtain ⟨hfirstel, hone, -⟩ := assigned_cell h.consistent (h.matrix i j)
  unfold examine
  rw [hi, hj]
  refine Traced.Ensures.bind (ensures_ofOption (Q := fun x => x = i) (fun hnone => by cases hnone)
    fun x hx => (Option.some.inj hx).symm) fun x hx => ?_
  refine Traced.Ensures.bind (ensures_ofOption (Q := fun y => y = j) (fun hnone => by cases hnone)
    fun y hy => (Option.some.inj hy).symm) fun y hy => ?_
  rw [hx, hy]
  simp only [hone, if_true, hfirstel, ofInt_val]
  refine Traced.Ensures.bind (ensures_ofOption (Q := fun pv => pv = M i j)
    (fun hnone => by cases hnone) fun pv hpv => (Option.some.inj hpv).symm) fun pv hpv => ?_
  rw [hpv]
  exact singleValue_decides hs h hp

omit hs h in
/-- A node of the search: the rows that are no longer in the list have fixed images and level
cells in the first row. -/
structure Level (m : MinCheck n) (d : Perm (Fin n)) (M : Fin n → Fin n → Fin n)
    (l : List (Fin n)) (perm : PPerm n) : Prop where
  valid : Valid m d perm
  before : ∀ j, j ∉ l → perm.fixed j = true
  level : ∀ q ∈ den d perm, ∀ j, j ∉ l → act q M (firstPoint j) j = M (firstPoint j) j

omit hs h in
theorem Level.levelBefore {perm : PPerm n} {r : Fin n} {l : List (Fin n)}
    (hnode : Level m d M l perm) (hl : ∀ j, j < r → j ∉ l) {q : Perm (Fin n)}
    (hq : q ∈ den d perm) : LevelBefore M q (firstPoint r) r := by
  rintro ⟨x₁, x₂⟩ hx
  rcases (Prod.Lex.toLex_lt_toLex).mp hx with hlt | ⟨heq, hlt⟩
  · exact absurd (Fin.lt_def.mp hlt) (Nat.not_lt_zero _)
  · obtain rfl : x₁ = firstPoint x₂ := heq
    exact hnode.level q hq x₂ (hl x₂ hlt)

/-- Every permutation of the node that has one of the options ends up in an option that stays, or
does not make the table smaller. -/
theorem filterOptions_decides {perm : PPerm n} {r : Fin n} {later : List (Fin n)}
    (hnode : Level m d M (r :: later) perm) (hl : ∀ j, j < r → j ∉ r :: later)
    (options : List (Fin n)) (hoptions : ∀ v ∈ options, v ∈ perm.options r) :
    Decides m d M (m.filterOptions cycset perm r options) fun kept =>
      (∀ k ∈ kept, Level m d M later k) ∧ ∀ q ∈ den d perm, q r ∈ options →
        (∃ k ∈ kept, q ∈ den d k) ∨ rowMajor M ≤ rowMajor (act q M) := by
  induction options with
  | nil =>
    exact ensures_pure ⟨fun k hk => absurd hk List.not_mem_nil,
      fun q _ hq => absurd hq List.not_mem_nil⟩
  | cons option rest ih =>
    have hrest := ih fun v hv => hoptions v (List.mem_cons_of_mem option hv)
    unfold filterOptions
    refine (decides_of_handed cycset (chooseOption_spec hs hnode.valid
      (fun j hj => hnode.before j (hl j hj)) (hoptions option List.mem_cons_self))).bind
        fun chosen hchosen => ?_
    obtain ⟨hok, hvalid, hden⟩ := hchosen
    have hsub : den d chosen.1 ⊆ den d perm := by
      rw [hden]
      exact fun q hq => hq.1
    have himage : ∀ q ∈ den d chosen.1, q r = option := by
      rw [hden]
      exact fun q hq => hq.2
    obtain ⟨q₀, hq₀⟩ := hvalid.exists_mem_den
    have hplaced : Placed m d M chosen.1 r (q₀ (firstPoint r)) option := by
      refine ⟨hvalid, ?_, himage, fun q hq => hnode.levelBefore hl (hsub hq)⟩
      rcases eq_or_lt_of_le (Fin.le_def.mpr (Nat.zero_le r.val) : firstPoint r ≤ r) with heq | hlt
      · rw [heq]
        exact fun q hq => (himage q hq).trans (himage q₀ hq₀).symm
      · have hfixed := hnode.before _ (hl _ hlt)
        exact fun q hq => (hnode.valid.fixed_iff (hsub hq₀) _).mp hfixed q (hsub hq)
    -- the permutations with this option are those of the chosen one
    have hsplit : ∀ q ∈ den d perm, q r ∈ option :: rest → q ∈ den d chosen.1 ∨ q r ∈ rest := by
      intro q hq hmem
      rcases List.mem_cons.mp hmem with heq | hmem
      · rw [hden]
        exact Or.inl ⟨hq, heq⟩
      · exact Or.inr hmem
    rw [if_pos hok]
    refine (examine_decides hs h hplaced).bind fun verdict hverdict => ?_
    cases verdict with
    | drop =>
      refine hrest.mono (fun kept hkept => ⟨hkept.1, fun q hq hmem => ?_⟩) fun _ => id
      rcases hsplit q hq hmem with hin | hmem
      · exact Or.inr (hverdict q hin)
      · exact hkept.2 q hq hmem
    | keep kept =>
      obtain ⟨hkvalid, hksub, hklevel, hkother⟩ := hverdict
      refine hrest.bind fun others hothers => ensures_pure ⟨fun k hk => ?_, fun q hq hmem => ?_⟩
      · rcases List.mem_cons.mp hk with rfl | hk
        · refine ⟨hkvalid, fixed_of_choice hnode.valid hnode.before hkvalid (hksub.trans hsub)
            fun q hq => himage q (hksub hq), fun q hq j hj => ?_⟩
          by_cases hjr : j = r
          · rw [hjr]
            exact hklevel q hq
          · refine hnode.level q (hsub (hksub hq)) j ?_
            exact fun hmem => (List.mem_cons.mp hmem).elim hjr hj
        · exact hothers.1 k hk
      · rcases hsplit q hq hmem with hin | hmem
        · by_cases hkept : q ∈ den d kept
          · exact Or.inl ⟨kept, List.mem_cons_self, hkept⟩
          · exact Or.inr (hkother q hin hkept)
        · refine (hothers.2 q hq hmem).imp_left ?_
          rintro ⟨k, hk, hqk⟩
          exact ⟨k, List.mem_cons_of_mem _ hk, hqk⟩
    | leave kept => exact hverdict.elim

theorem checkMinimality_decides (rows : List (Fin n)) (hrows : rows.Pairwise (· < ·))
    {perm : PPerm n} (hnode : Level m d M rows perm)
    (hopen : rows = [] → perm.fullDefined = false) (depth its : Int) :
    Decides m d M (m.checkMinimality cycset true rows perm depth its)
      fun _ => ∀ q ∈ den d perm, rowMajor M ≤ rowMajor (act q M) := by
  induction rows generalizing perm depth its with
  | nil =>
    have hfull : perm.fullDefined = true :=
      List.all_eq_true.mpr fun x _ => hnode.before x List.not_mem_nil
    rw [hopen rfl] at hfull
    cases hfull
  | cons r later ih =>
    obtain ⟨hr, hlater⟩ := List.pairwise_cons.mp hrows
    have hl : ∀ j, j < r → j ∉ r :: later := by
      intro j hj hmem
      rcases List.mem_cons.mp hmem with rfl | hmem
      · exact lt_irrefl j hj
      · exact lt_asymm hj (hr j hmem)
    unfold checkMinimality
    rw [if_neg (by simp)]
    refine (filterOptions_decides hs h hnode hl (perm.options r) fun _ => id).bind
      fun propagated hkept => ?_
    obtain ⟨hlevel, hcover⟩ := hkept
    simp only
    refine (ensures_fold (fun done _ => ∀ k ∈ done, ∀ q ∈ den d k, rowMajor M ≤ rowMajor (act q M))
      propagated (fun option hoption done its hdone => ?_) [] _
        fun k hk => absurd hk List.not_mem_nil).mono (fun _ hdone q hq => ?_) fun _ => id
    · have hnode' := hlevel option hoption
      -- whatever is done with an option settles all its permutations
      have hsettles : ∀ {x : Search n Int},
          Decides m d M x (fun _ => ∀ q ∈ den d option, rowMajor M ≤ rowMajor (act q M)) →
          Decides m d M x fun _ => ∀ k ∈ done ++ [option], ∀ q ∈ den d k,
            rowMajor M ≤ rowMajor (act q M) := by
        intro x hx
        refine hx.mono (fun _ hopt k hk => ?_) fun _ => id
        rcases List.mem_append.mp hk with hk | hk
        · exact hdone k hk
        · rw [List.mem_singleton.mp hk]
          exact hopt
      apply hsettles
      split
      next hfull =>
        have hfixed := fun x => List.all_eq_true.mp hfull x (List.mem_finRange x)
        obtain ⟨q, hq⟩ := hnode'.valid.exists_mem_den
        rw [hnode'.valid.getPerm_of_fixed hfixed hq]
        refine Traced.Ensures.bind (ensures_ofOption (Q := fun p => p = ⇑q)
          (fun hnone => by cases hnone) fun p hp => (Option.some.inj hp).symm) fun p hp => ?_
        rw [hp]
        refine (permFullyDefinedCheck_decides hs h hq.1 (hnode'.levelBefore
          (fun j hj hmem => hl j hj (List.mem_cons_of_mem r hmem)) hq)).bind
            fun _ hle => ensures_pure fun q' hq' => ?_
        obtain rfl : q' = q := Equiv.ext fun x => (hnode'.valid.fixed_iff hq x).mp (hfixed x) q' hq'
        exact hle
      next hfull =>
        have hopen' : later = [] → option.fullDefined = false := fun _ => by simpa using hfull
        split
        · rw [if_pos (Or.inl trivial)]
          exact ih hlater hnode' hopen' _ _
        · exact ih hlater hnode' hopen' _ _
    · rcases hcover q hq (hnode.valid.mem_options_self hq r) with ⟨k, hk, hqk⟩ | hle
      · exact hdone k hk q hqk
      · exact hle

omit hs in
/-- Only a table of identity rows passes unchecked. -/
theorem rows_of_preCheck (hpre : preCheck cycset = true) (i j : Fin n) : M i j = j := by
  have hany : ¬ ((cells n).any fun c =>
      decide (1 < (List.finRange n).countP fun l => cycset.matrix c.2 l == some c.1) ||
        decide ((cycset.bitdomains c.1 c.2).numTrue = 0)) = true := by
    rw [List.any_eq_true]
    rintro ⟨⟨v, r⟩, -, hcell⟩
    simp only [Bool.or_eq_true, decide_eq_true_eq, h.matrix, Option.some_beq_some] at hcell
    rcases hcell with hrepeat | hempty
    · have hone : (List.finRange n).countP (fun l => M r l == v) ≤ 1 := by
        obtain ⟨l₀, hl₀⟩ := (h.rows r).2 v
        have hcount := List.nodup_iff_count_le_one.mp (List.nodup_finRange n) l₀
        refine le_trans (le_of_eq ?_) hcount
        unfold List.count
        congr 1
        funext l
        rw [Bool.eq_iff_iff, beq_iff_eq, beq_iff_eq, ← hl₀]
        exact (h.rows r).1.eq_iff
      omega
    · rw [(assigned_cell h.consistent (h.matrix v r)).2.1] at hempty
      cases hempty
  unfold preCheck at hpre
  rw [Bool.or_eq_true] at hpre
  have hcell := List.all_eq_true.mp (hpre.resolve_left hany) (i, j) (mem_cells _)
  rw [h.matrix, beq_iff_eq] at hcell
  exact Option.some.inj hcell

/-- The final check returns exactly on the tables that are least under the symmetries. -/
theorem run_decides (hn : 1 ≤ n) :
    Decides m d M (m.run cycset true) fun _ => LeastUnder d M := by
  unfold run
  split
  next hpre =>
    refine ensures_pure fun p _ => ?_
    have hsame : act p M = M := by
      funext i j
      unfold act
      rw [rows_of_preCheck h hpre, rows_of_preCheck h hpre, symm_apply_apply]
    rw [hsame]
  next =>
    obtain ⟨hvalid, hden⟩ := valid_initialPart hs
    refine (checkMinimality_decides hs h _ (List.pairwise_lt_finRange n) ⟨hvalid, ?_, ?_⟩ ?_
      0 0).bind fun _ hall => ensures_pure fun p hp => hall p ?_
    · exact fun j hj => absurd (List.mem_finRange j) hj
    · exact fun _ _ j hj => absurd (List.mem_finRange j) hj
    · intro hnil
      have hmem := List.mem_finRange (⟨0, hn⟩ : Fin n)
      rw [hnil] at hmem
      exact absurd hmem List.not_mem_nil
    · rw [hden]
      exact hp

theorem beaten_of_error (hn : 1 ≤ n) {s : Stop} (hstop : (m.run cycset true).result = .error s) :
    Beaten m d M s := by
  have hend := (run_decides hs h hn fun _ _ => trivial).2
  rwa [hstop] at hend

theorem run_ok_iff (hn : 1 ≤ n) : (m.run cycset true).result = .ok () ↔ LeastUnder d M := by
  constructor
  · intro hok
    have hend := (run_decides hs h hn fun _ _ => trivial).2
    rwa [hok] at hend
  · intro hleast
    cases hresult : (m.run cycset true).result with
    | ok u => rfl
    | error s =>
      obtain ⟨-, -, ⟨p, hp, hlt⟩, -⟩ := beaten_of_error hs h hn hresult
      exact absurd (hleast p hp) (not_le.mpr hlt)

end Whole

/-- Every cell assigned, every domain the value alone. -/
def ofTable (M : Fin n → Fin n → Fin n) : CycleSet n where
  matrix i j := some (M i j)
  assignments i j v := if M i j = v then .isTrue else .isFalse
  bitdomains i j := ⟨fun v => v == M i j, (M i j).val, 1⟩

theorem shows_ofTable (hM : m.Admits M) : m.Shows (ofTable M) M where
  consistent :=
    { exact := fun i j => by
        constructor
        · refine ((leastBit_eq_iff _ _).mpr ⟨by simp [ofTable], fun w hw => ?_⟩).symm
          simpa [ofTable] using hw.ne
        · have hone : countBits (fun v => v == M i j) = 1 :=
            (countBits_eq_one_iff _).mpr ⟨M i j, fun w => by simp⟩
          simp [ofTable, hone]
      nonempty := fun i j => ⟨M i j, by simp [ofTable]⟩
      isTrue := fun i j v => by simp [ofTable]
      isFalse := fun i j v hv => by
        have hne : M i j ≠ v := by simpa [ofTable] using hv
        simpa [ofTable] using hne.symm
      assigned := fun i j v hv w => by
        obtain rfl : M i j = v := Option.some.inj hv
        simp [ofTable]
      diagonal := fun hd i => by rw [← hM.diagonal hd i]; rfl }
  matrix _ _ := rfl
  rows := hM.rows

/-- The final check throws no clause, in whatever state shows the table. -/
def PassesCheck (m : MinCheck n) (M : Fin n → Fin n → Fin n) : Prop :=
  ∀ cycset, m.Shows cycset M → ∀ clause, (m.run cycset true).result ≠ .error (.clause clause)

theorem passesCheck_iff (hs : Serves m d) (hn : 1 ≤ n) (hM : m.Admits M) :
    m.PassesCheck M ↔ LeastUnder d M := by
  constructor
  · intro hpass
    have hshows := shows_ofTable hM
    rw [← run_ok_iff hs hshows hn]
    cases hresult : (m.run (ofTable M) true).result with
    | ok u => rfl
    | error s =>
      obtain ⟨clause, rfl, -⟩ := beaten_of_error hs hshows hn hresult
      exact absurd hresult (hpass _ hshows clause)
  · intro hleast cycset hshows clause hthrow
    rw [(run_ok_iff hs hshows hn).mpr hleast] at hthrow
    cases hthrow

end MinCheck

end YbeSms.Source
