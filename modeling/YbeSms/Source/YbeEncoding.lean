import YbeSms.Source.EntryEncoding

/-!
# Meaning of the identity constraints

`YBEClausesNew` states the cycle set identity for `i < j` through result
variables: two families of implications force both sides of the identity into
the one value the exactly-one constraint leaves. The premises are read under a
valuation that already indicates a table.
-/

namespace YbeSms.Source

open YbeSms.Library YbeSms.Abstract

variable {n : Nat}

theorem mem_triples (t : (Fin n × Fin n) × Fin n) : t ∈ triples n ↔ t.1.1 < t.1.2 := by
  simp only [triples, mem_nested, List.mem_filter, mem_cells, true_and, List.mem_finRange,
    and_true, decide_eq_true_eq]

theorem nodup_triples (n : Nat) : (triples n).Nodup :=
  ((nodup_cells n).filter _).product (List.nodup_finRange n)

/-- A table entry with a variable, seen as a negated literal. -/
theorem Indicates.litTrue_neg {τ : Valuation} {lits : MatrixLits n} {M : Fin n → Fin n → Fin n}
    (h : Indicates τ lits M) {i j k : Fin n} (hpos : 0 ≤ lits i j k) (h0 : lits i j k ≠ 0) :
    LitTrue τ (-lits i j k) ↔ M i j ≠ k := by
  rw [Library.litTrue_neg τ (by omega), ← Bool.not_eq_true, h i j k h0]

/-- The premise clause is false exactly where its three equations hold. -/
theorem clauseTrue_ybePremise {small : Bool} {lits : MatrixLits n} {d : Fin n → Fin n}
    {τ : Valuation} {M : Fin n → Fin n → Fin n} {keep : Entry n → Bool} {hi : Int}
    (ht : LitTable lits keep hi) (hM : Indicates τ lits M) {i j k x y b : Fin n} (hij : i ≠ j)
    (hfull : small = false → ∀ e, keep e = true)
    (hsmall : small = true → (∀ i, M i i = d i) ∧ ybeGuard d i k x y b = true ∧
      ∀ i j k, i ≠ j → k ≠ d i → keep (i, j, k) = true) :
    ClauseTrue τ (ybePremise small lits i j k x y b) ↔
      ¬ (M i j = x ∧ M i k = y ∧ M x y = b) := by
  have hneg : ∀ {i j k}, keep (i, j, k) = true → (LitTrue τ (-lits i j k) ↔ M i j ≠ k) :=
    fun hk => hM.litTrue_neg (ht.range _ _ _).1 ((ht.nonzero _ _ _).mpr hk)
  have key : ClauseTrue τ (ybePremise small lits i j k x y b) ↔
      M i j ≠ x ∨ M i k ≠ y ∨ M x y ≠ b := by
    cases small with
    | false =>
      have hk := hfull rfl
      simp only [ybePremise, Bool.not_false, Bool.true_or, if_true,
        List.cons_append, clauseTrue_cons, clauseTrue_nil, or_false, hneg (hk _), List.nil_append]
    | true =>
      obtain ⟨hd, hguard, hk⟩ := hsmall rfl
      simp only [ybeGuard, Bool.and_eq_true, Bool.or_eq_true, bne_iff_ne, beq_iff_eq, ne_eq]
        at hguard
      obtain ⟨⟨hx, hy⟩, hb⟩ := hguard
      have hcell : LitTrue τ (-lits i j x) ↔ M i j ≠ x := hneg (hk i j x hij hx)
      rcases hy with ⟨hik, hy⟩ | ⟨rfl, rfl⟩ <;> rcases hb with ⟨hxy, hb⟩ | ⟨rfl, rfl⟩
      · simp [ybePremise, hik, hxy, hcell, hneg (hk i k y hik (Ne.symm hy)),
          hneg (hk x y b hxy (Ne.symm hb))]
      · simp [ybePremise, hik, hcell, hneg (hk i k x hik (Ne.symm hy)), hd]
      · simp [ybePremise, hxy, hcell, hneg (hk x _ b hxy (Ne.symm hb)), hd]
      · simp [ybePremise, hcell, hd]
  rw [key]
  tauto

/-- Both sides of the identity pass the guards of the smaller encoding. -/
theorem ybeGuard_of_table {d : Fin n → Fin n} {M : Fin n → Fin n → Fin n} (hrows : RowsPermute M)
    (hd : ∀ i, M i i = d i) {i j : Fin n} (hij : i ≠ j) (k : Fin n) :
    ybeGuard d i k (M i j) (M i k) (M (M i j) (M i k)) = true := by
  have hoff : ∀ {a b}, a ≠ b → M a b ≠ d a := fun hab heq =>
    hab ((hrows _).1 (heq.trans (hd _).symm)).symm
  simp only [ybeGuard, Bool.and_eq_true, Bool.or_eq_true, bne_iff_ne, beq_iff_eq, ne_eq]
  refine ⟨⟨hoff hij, ?_⟩, ?_⟩
  · by_cases hik : i = k
    · exact Or.inr ⟨hik, hik ▸ (hd i).symm⟩
    · exact Or.inl ⟨hik, (hoff hik).symm⟩
  · by_cases hxy : M i j = M i k
    · exact Or.inr ⟨hxy, hxy ▸ (hd _).symm⟩
    · exact Or.inl ⟨hxy, (hoff hxy).symm⟩

theorem mem_ybeImplications (cfg : Config) (lits : MatrixLits n) (d : Fin n → Fin n)
    (p : YbeIndex n × Clause) :
    p ∈ ybeImplications cfg lits d ↔ ∃ i j k x y b, i < j ∧
      (((!cfg.smallerEncoding || ybeGuard d i k x y b) = true ∧
        p = ((((i, j), k), b), ybePremise cfg.smallerEncoding lits i j k x y b)) ∨
      ((!cfg.smallerEncoding || ybeGuard d j k x y b) = true ∧
        p = ((((i, j), k), b), ybePremise cfg.smallerEncoding lits j i k x y b))) := by
  simp only [ybeImplications, List.mem_flatMap, mem_nested, mem_triples, mem_cells,
    List.mem_finRange, and_true, List.mem_append, List.mem_ite_nil_right, List.mem_singleton]
  constructor
  · rintro ⟨⟨⟨⟨i, j⟩, k⟩, ⟨x, y⟩, b⟩, hij, h⟩
    exact ⟨i, j, k, x, y, b, hij, h⟩
  · rintro ⟨i, j, k, x, y, b, hij, h⟩
    exact ⟨⟨⟨⟨i, j⟩, k⟩, ⟨x, y⟩, b⟩, hij, h⟩

/-- The guard keeps every premise literal a nonzero entry variable. -/
theorem ybePremise_literals {small : Bool} {lits : MatrixLits n} {d : Fin n → Fin n}
    {keep : Entry n → Bool} {hi : Int} (ht : LitTable lits keep hi) {i j k x y b : Fin n}
    (hij : i ≠ j) (hfull : small = false → ∀ e, keep e = true)
    (hsmall : small = true → ybeGuard d i k x y b = true ∧
      ∀ i j k, i ≠ j → k ≠ d i → keep (i, j, k) = true) :
    ∀ l ∈ ybePremise small lits i j k x y b, l ≠ 0 ∧ -hi < l ∧ l < hi := by
  have hneg : ∀ {i j k}, keep (i, j, k) = true →
      -lits i j k ≠ 0 ∧ -hi < -lits i j k ∧ -lits i j k < hi := by
    intro i j k hk
    have h0 := (ht.nonzero i j k).mpr hk
    have hr := ht.range i j k
    omega
  intro l hl
  simp only [ybePremise, List.mem_append, List.mem_singleton, List.mem_ite_nil_right] at hl
  cases small with
  | false =>
    have hk := hfull rfl
    rcases hl with (rfl | ⟨-, rfl⟩) | ⟨-, rfl⟩ <;> exact hneg (hk _)
  | true =>
    obtain ⟨hguard, hk⟩ := hsmall rfl
    simp only [ybeGuard, Bool.and_eq_true, Bool.or_eq_true, bne_iff_ne, beq_iff_eq, ne_eq]
      at hguard
    obtain ⟨⟨hx, hy⟩, hb⟩ := hguard
    rcases hl with (rfl | ⟨hik, rfl⟩) | ⟨hxy, rfl⟩
    · exact hneg (hk i j x hij hx)
    · have hik : i ≠ k := by simpa using hik
      exact hneg (hk i k y hik fun h => by simp [hik, h] at hy)
    · have hxy : x ≠ y := by simpa using hxy
      exact hneg (hk x y b hxy fun h => by simp [hxy, h] at hb)

theorem entryKept_full {cfg : Config} {d : Fin n → Fin n} (hs : cfg.smallerEncoding = false)
    (e : Entry n) : entryKept cfg d e = true := by
  simp [entryKept, hs]

theorem entryKept_offDiagonal (cfg : Config) (d : Fin n → Fin n) (i j k : Fin n) (hij : i ≠ j)
    (hk : k ≠ d i) : entryKept cfg d (i, j, k) = true := by
  cases hs : cfg.smallerEncoding <;> simp [entryKept, hs, hij, hk]

theorem Indicates.congr {τ σ : Valuation} {lits : MatrixLits n} {keep : Entry n → Bool} {hi : Int}
    (ht : LitTable lits keep hi) (hag : AgreeBelow hi τ σ) {M : Fin n → Fin n → Fin n}
    (h : Indicates τ lits M) : Indicates σ lits M := by
  intro i j k h0
  rw [← hag _ (ht.range i j k).2]
  exact h i j k h0

/-- The tables with diagonal `d` that the entry variables can indicate, before the identity. -/
def IndicatesDiagonal (d : Fin n → Fin n) (lits : MatrixLits n) (τ : Valuation) : Prop :=
  ∃ M : Fin n → Fin n → Fin n, RowsPermute M ∧ (∀ i, M i i = d i) ∧ Indicates τ lits M

/-- The cycle sets with diagonal `d` that the entry variables can indicate. -/
def IndicatesCycleSet (d : Fin n → Fin n) (lits : MatrixLits n) (τ : Valuation) : Prop :=
  ∃ M : Fin n → Fin n → Fin n, HasDiagonal d M ∧ Indicates τ lits M

/-- An implication with its result variable, under a valuation that indicates a table:
the clause holds iff the three equations force the result. -/
theorem clauseTrue_implication {τ : Valuation} {premise : Clause} {v : Int} {p : Prop}
    (hp : ClauseTrue τ premise ↔ ¬ p) (hv : 0 < v) :
    ClauseTrue τ (premise ++ [v]) ↔ (p → τ v = true) := by
  have happ : ClauseTrue τ (premise ++ [v]) ↔ ClauseTrue τ premise ∨ LitTrue τ v := by
    simp [ClauseTrue, or_and_right, exists_or]
  rw [happ, hp, litTrue_pos τ hv]
  tauto

section WithDiagonal

variable {cfg : Config} {d : Fin n → Fin n} {lits : MatrixLits n} {k : Int}

/-- The lazily drawn result variables and the implications. -/
private def drawn (cfg : Config) (lits : MatrixLits n) (d : Fin n → Fin n) (k : Int) :=
  emitLazy (ybeImplications cfg lits d) (fun _ => 0) k

private theorem drawn_emitted (cfg : Config) (d : Fin n → Fin n) (lits : MatrixLits n)
    (hk : 0 < k) :
    Emitted (ybeImplications cfg lits d) (fun _ => 0) k k (drawn cfg lits d k) :=
  emitLazy_emitted _ _ _ _ hk (le_refl k) ⟨fun _ => Or.inl rfl, fun _ _ h0 _ => absurd rfl h0⟩

/-- A premise of a listed implication, for either side of the identity. -/
private theorem premise_iff (ht : LitTable lits (entryKept cfg d) k) {τ : Valuation}
    {M : Fin n → Fin n → Fin n} (hd : ∀ i, M i i = d i) (hM : Indicates τ lits M)
    {i j a x y b : Fin n} (hij : i ≠ j)
    (hguard : (!cfg.smallerEncoding || ybeGuard d i a x y b) = true) :
    ClauseTrue τ (ybePremise cfg.smallerEncoding lits i j a x y b) ↔
      ¬ (M i j = x ∧ M i a = y ∧ M x y = b) := by
  refine clauseTrue_ybePremise ht hM hij (fun hs => entryKept_full hs) fun hs =>
    ⟨hd, ?_, entryKept_offDiagonal cfg d⟩
  simpa [hs] using hguard

private theorem premise_literals (ht : LitTable lits (entryKept cfg d) k)
    {i j a x y b : Fin n} (hij : i ≠ j)
    (hguard : (!cfg.smallerEncoding || ybeGuard d i a x y b) = true) :
    ∀ l ∈ ybePremise cfg.smallerEncoding lits i j a x y b, l ≠ 0 ∧ -k < l ∧ l < k := by
  refine ybePremise_literals ht hij (fun hs => entryKept_full hs) fun hs =>
    ⟨?_, entryKept_offDiagonal cfg d⟩
  simpa [hs] using hguard

/-- Both sides of the identity are listed, with the value the table gives them. -/
private theorem listed (cfg : Config) (lits : MatrixLits n) {M : Fin n → Fin n → Fin n}
    (hrows : RowsPermute M) (hd : ∀ i, M i i = d i) {i j : Fin n} (hij : i < j) (a : Fin n) :
    ((((i, j), a), M (M i j) (M i a)),
      ybePremise cfg.smallerEncoding lits i j a (M i j) (M i a) (M (M i j) (M i a))) ∈
        ybeImplications cfg lits d ∧
    ((((i, j), a), M (M j i) (M j a)),
      ybePremise cfg.smallerEncoding lits j i a (M j i) (M j a) (M (M j i) (M j a))) ∈
        ybeImplications cfg lits d := by
  have hguard : ∀ {i j : Fin n}, i ≠ j →
      (!cfg.smallerEncoding || ybeGuard d i a (M i j) (M i a) (M (M i j) (M i a))) = true :=
    fun hne => by rw [ybeGuard_of_table hrows hd hne, Bool.or_true]
  exact ⟨(mem_ybeImplications cfg lits d _).mpr
      ⟨i, j, a, _, _, _, hij, Or.inl ⟨hguard hij.ne, rfl⟩⟩,
    (mem_ybeImplications cfg lits d _).mpr
      ⟨i, j, a, _, _, _, hij, Or.inr ⟨hguard hij.ne', rfl⟩⟩⟩

/-- The implications say that both sides of the identity have a true result variable. -/
private theorem models_drawn (hk : 0 < k) (ht : LitTable lits (entryKept cfg d) k) {τ : Valuation}
    {M : Fin n → Fin n → Fin n} (hrows : RowsPermute M) (hd : ∀ i, M i i = d i)
    (hM : Indicates τ lits M) :
    Models τ (drawn cfg lits d k).2 ↔ ∀ i j a, i < j →
      τ ((drawn cfg lits d k).1.1 (((i, j), a), M (M i j) (M i a))) = true ∧
      τ ((drawn cfg lits d k).1.1 (((i, j), a), M (M j i) (M j a))) = true := by
  have hemit := drawn_emitted cfg d lits hk
  have hpos : ∀ p ∈ ybeImplications cfg lits d, 0 < (drawn cfg lits d k).1.1 p.1 := by
    intro p hp
    have h0 := (hemit.nonzero p.1).mpr (Or.inr ⟨p, hp, rfl⟩)
    have hr := hemit.table.range p.1
    omega
  simp only [Models, hemit.clauses, List.forall_mem_map]
  constructor
  · intro h i j a hij
    have hguard : ∀ {i j : Fin n}, i ≠ j →
        (!cfg.smallerEncoding || ybeGuard d i a (M i j) (M i a) (M (M i j) (M i a))) = true :=
      fun hne => by rw [ybeGuard_of_table hrows hd hne, Bool.or_true]
    obtain ⟨hleft, hright⟩ := listed cfg lits hrows hd hij a
    exact ⟨(clauseTrue_implication (premise_iff ht hd hM hij.ne (hguard hij.ne))
        (hpos _ hleft)).mp (h _ hleft) ⟨rfl, rfl, rfl⟩,
      (clauseTrue_implication (premise_iff ht hd hM hij.ne' (hguard hij.ne'))
        (hpos _ hright)).mp (h _ hright) ⟨rfl, rfl, rfl⟩⟩
  · intro h p hp
    have hv := hpos p hp
    obtain ⟨i, j, a, x, y, b, hij, ⟨hguard, rfl⟩ | ⟨hguard, rfl⟩⟩ :=
      (mem_ybeImplications cfg lits d p).mp hp
    · refine (clauseTrue_implication (premise_iff ht hd hM hij.ne hguard) hv).mpr ?_
      rintro ⟨rfl, rfl, rfl⟩
      exact (h i j a hij).1
    · refine (clauseTrue_implication (premise_iff ht hd hM hij.ne' hguard) hv).mpr ?_
      rintro ⟨rfl, rfl, rfl⟩
      exact (h i j a hij).2

variable (cfg lits) in
/-- The value of either side of the identity has a result variable. -/
private theorem drawn_ne_zero (hk : 0 < k) {M : Fin n → Fin n → Fin n} (hrows : RowsPermute M)
    (hd : ∀ i, M i i = d i) {i j : Fin n} (hij : i < j) (a : Fin n) :
    (drawn cfg lits d k).1.1 (((i, j), a), M (M i j) (M i a)) ≠ 0 ∧
      (drawn cfg lits d k).1.1 (((i, j), a), M (M j i) (M j a)) ≠ 0 := by
  have hemit := drawn_emitted cfg d lits hk
  obtain ⟨hleft, hright⟩ := listed cfg lits hrows hd hij a
  exact ⟨(hemit.nonzero _).mpr (Or.inr ⟨_, hleft, rfl⟩),
    (hemit.nonzero _).mpr (Or.inr ⟨_, hright, rfl⟩)⟩

private theorem drawn_wellFormed (hk : 0 < k) (ht : LitTable lits (entryKept cfg d) k) :
    WellFormed (drawn cfg lits d k).1.2 (drawn cfg lits d k).2 := by
  have hemit := drawn_emitted cfg d lits hk
  have hle := hemit.le
  rw [hemit.clauses]
  intro c hc
  obtain ⟨p, hp, rfl⟩ := List.mem_map.mp hc
  refine ⟨by simp, fun l hl => ?_⟩
  have hpremise : ∀ l ∈ p.2, l ≠ 0 ∧ -k < l ∧ l < k := by
    obtain ⟨i, j, a, x, y, b, hij, ⟨hguard, rfl⟩ | ⟨hguard, rfl⟩⟩ :=
      (mem_ybeImplications cfg lits d p).mp hp
    · exact premise_literals ht hij.ne hguard
    · exact premise_literals ht hij.ne' hguard
  rcases List.mem_append.mp hl with hl | hl
  · have := hpremise l hl
    omega
  · obtain rfl := List.mem_singleton.mp hl
    have h0 := (hemit.nonzero p.1).mpr (Or.inr ⟨p, hp, rfl⟩)
    have hr := hemit.table.range p.1
    omega

/-- Some table has permutation rows and the diagonal `d`, so no result block is empty. -/
private theorem exists_table (d : Fin n → Fin n) :
    ∃ M : Fin n → Fin n → Fin n, RowsPermute M ∧ ∀ i, M i i = d i :=
  ⟨fun i => Equiv.swap i (d i), fun i => (Equiv.swap i (d i)).bijective, fun i => by simp⟩

variable (cfg lits) in
/-- One exactly-one constraint over the result variables of a triple. -/
private theorem results_encodes (hk : 0 < k) {t : (Fin n × Fin n) × Fin n} (ht : t ∈ triples n)
    {k' : Int} (hk' : (drawn cfg lits d k).1.2 ≤ k') :
    (exactlyOne cfg (((List.finRange n).map
      fun b => (drawn cfg lits d k).1.1 (t, b)).filter (· ≠ 0))).Encodes k'
      (fun τ => ∃! b, (drawn cfg lits d k).1.1 (t, b) ≠ 0 ∧
        τ ((drawn cfg lits d k).1.1 (t, b)) = true) := by
  have hemit := drawn_emitted cfg d lits hk
  have heo : ((List.finRange n).map fun b => (drawn cfg lits d k).1.1 (t, b)).filter (· ≠ 0) =
      ((List.finRange n).filter fun b => (drawn cfg lits d k).1.1 (t, b) ≠ 0).map
        fun b => (drawn cfg lits d k).1.1 (t, b) := by
    rw [List.filter_map]
    rfl
  rw [heo]
  refine (exactlyOne_map_encodes cfg _ _ k' ((List.nodup_finRange n).filter _) ?_ ?_ ?_).congr
    fun τ => ?_
  · intro a b h0 hab
    exact (Prod.mk.injEq _ _ _ _).mp (hemit.table.inj (t, a) (t, b) h0 hab) |>.2
  · intro b
    have := hemit.table.range (t, b)
    have := hemit.le
    omega
  · obtain ⟨M, hrows, hd⟩ := exists_table d
    have h0 := (drawn_ne_zero cfg lits hk hrows hd ((mem_triples t).mp ht) t.2).1
    exact ⟨_, List.mem_filter.mpr ⟨List.mem_finRange _, by simpa using h0⟩, h0⟩
  · simp

theorem ybeClausesNew_encodes (hk : 0 < k) (ht : LitTable lits (entryKept cfg d) k) :
    (ybeClausesNew cfg lits d).EncodesUnder k (IndicatesDiagonal d lits)
      (IndicatesCycleSet d lits) := by
  have hemit := drawn_emitted cfg d lits hk
  have hpos : ∀ a, 0 ≤ (drawn cfg lits d k).1.1 a ∧
      (drawn cfg lits d k).1.1 a < (drawn cfg lits d k).1.2 := by
    intro a
    have := hemit.table.range a
    have := hemit.le
    omega
  have hresults := Emitter.Encodes.forEach (k := (drawn cfg lits d k).1.2)
    (fun t (ht : t ∈ triples n) k' hk' => results_encodes cfg lits (d := d)
      hk ht hk')
    (fun t _ τ σ hag hτ => by
      simpa only [hag _ (hpos _).2] using hτ)
  have heq : ybeClausesNew cfg lits d k = ((drawn cfg lits d k).2 ++
      (Emitter.forEach (triples n) (fun t => exactlyOne cfg (((List.finRange n).map
        fun b => (drawn cfg lits d k).1.1 (t, b)).filter (· ≠ 0))) (drawn cfg lits d k).1.2).1,
      (Emitter.forEach (triples n) (fun t => exactlyOne cfg (((List.finRange n).map
        fun b => (drawn cfg lits d k).1.1 (t, b)).filter (· ≠ 0))) (drawn cfg lits d k).1.2).2) :=
    rfl
  have hwf := drawn_wellFormed hk ht
  refine ⟨?_, ?_, fun τ hτ hF => ?_, fun τ hτ => ?_⟩
  · rw [heq]
    exact hemit.le.trans hresults.le
  · rw [heq]
    exact (wellFormed_append _ _ _).mpr ⟨hwf.mono hresults.le, hresults.wellFormed⟩
  · obtain ⟨M, hrows, hd, hM⟩ := hτ
    rw [heq, models_append] at hF
    have hsides := (models_drawn hk ht hrows hd hM).mp hF.1
    have hone := hresults.sound τ hF.2
    refine ⟨M, ⟨hrows, hd, cycleIdentity_of_lt fun i j hij a => ?_⟩, hM⟩
    obtain ⟨h0, h0'⟩ := drawn_ne_zero cfg lits hk hrows hd hij a
    obtain ⟨hleft, hright⟩ := hsides i j a hij
    exact (hone ((i, j), a) ((mem_triples _).mpr hij)).unique ⟨h0, hleft⟩ ⟨h0', hright⟩
  · obtain ⟨M, hcs, hM⟩ := hτ
    obtain ⟨σ, hag, hσ⟩ := hemit.table.assign τ
      fun q => decide (q.2 = M (M q.1.1.1 q.1.1.2) (M q.1.1.1 q.1.2))
    have hMσ : Indicates σ lits M := hM.congr ht hag
    have hdrawn : Models σ (drawn cfg lits d k).2 := by
      refine (models_drawn hk ht hcs.rows hcs.diagonal hMσ).mpr fun i j a hij => ?_
      obtain ⟨h0, h0'⟩ := drawn_ne_zero cfg lits hk hcs.rows hcs.diagonal hij a
      refine ⟨?_, ?_⟩
      · rw [hσ _ h0]
        simp
      · rw [hσ _ h0']
        simp [hcs.identity i j a]
    have hone : ∀ t ∈ triples n, ∃! b, (drawn cfg lits d k).1.1 (t, b) ≠ 0 ∧
        σ ((drawn cfg lits d k).1.1 (t, b)) = true := by
      rintro ⟨⟨i, j⟩, a⟩ hmem
      have h0 := (drawn_ne_zero cfg lits hk hcs.rows hcs.diagonal
        ((mem_triples _).mp hmem) a).1
      refine ⟨_, ⟨h0, by rw [hσ _ h0]; simp⟩, fun b hb => ?_⟩
      have hb' := hb.2
      rw [hσ _ hb.1] at hb'
      simpa using hb'
    obtain ⟨ρ, hag', hρ⟩ := hresults.complete σ hone
    refine ⟨ρ, AgreeBelow.trans hag (hag'.mono hemit.le), ?_⟩
    rw [heq, models_append]
    exact ⟨(Models.congr hwf hag').mp hdrawn, hρ⟩

end WithDiagonal

/-- What `ybeResults` promises for the triples it has walked through. -/
structure ResultVars (ts : List ((Fin n × Fin n) × Fin n)) (f : YbeIndex n → Int) (k : Int)
    (r : (YbeIndex n → Int) × Cnf × Int) : Prop where
  le : k ≤ r.2.2
  wellFormed : WellFormed r.2.2 r.2.1
  kept : ∀ t, t ∉ ts → ∀ b, r.1 (t, b) = f (t, b)
  range : ∀ t ∈ ts, ∀ b, k ≤ r.1 (t, b) ∧ r.1 (t, b) < r.2.2
  sound : ∀ τ, Models τ r.2.1 → ∀ t ∈ ts, ∃! b, τ (r.1 (t, b)) = true
  complete : ∀ τ (w : (Fin n × Fin n) × Fin n → Fin n), ∃ σ, AgreeBelow k τ σ ∧
    Models σ r.2.1 ∧ ∀ t ∈ ts, ∀ b, σ (r.1 (t, b)) = decide (b = w t)

/-- One block: fresh variables for the values of a triple. -/
private theorem block_table (t : (Fin n × Fin n) × Fin n) (f : YbeIndex n → Int) (k : Int) :
    (∀ b, k ≤ (number (fun _ => true) ((List.finRange n).map fun b => (t, b)) f k).1 (t, b) ∧
      (number (fun _ => true) ((List.finRange n).map fun b => (t, b)) f k).1 (t, b) <
        (number (fun _ => true) ((List.finRange n).map fun b => (t, b)) f k).2) ∧
    (∀ b c, (number (fun _ => true) ((List.finRange n).map fun b => (t, b)) f k).1 (t, b) =
      (number (fun _ => true) ((List.finRange n).map fun b => (t, b)) f k).1 (t, c) → b = c) ∧
    ∀ t', t' ≠ t → ∀ b,
      (number (fun _ => true) ((List.finRange n).map fun b => (t, b)) f k).1 (t', b) = f (t', b) := by
  have hl : ((List.finRange n).map fun b => (t, b)).Nodup :=
    (List.nodup_finRange n).map fun a b h => by simpa using h
  have hmem : ∀ b, (t, b) ∈ ((List.finRange n).map fun b => (t, b)).filter fun _ => true := by
    simp
  refine ⟨fun b => number_range _ _ hl f k _ (hmem b), fun b c heq => ?_, fun t' ht' b => ?_⟩
  · simpa using number_inj _ _ hl f k _ _ (hmem b) (hmem c) heq
  · exact number_of_not_selected _ _ _ _ _ (by simp [Ne.symm ht'])

theorem ybeResults_spec (cfg : Config) (ts : List ((Fin n × Fin n) × Fin n)) (hts : ts.Nodup)
    (f : YbeIndex n → Int) (k : Int) (hk : 0 < k) :
    ResultVars ts f k (ybeResults cfg ts f k) := by
  induction ts generalizing f k with
  | nil =>
    exact ⟨le_refl k, wellFormed_nil k, fun _ _ _ => rfl, by simp, by simp,
      fun τ _ => ⟨τ, AgreeBelow.refl k τ, models_nil τ, by simp⟩⟩
  | cons t rest ih =>
    obtain ⟨hnot, hrest⟩ := List.nodup_cons.mp hts
    obtain ⟨hrange, hinj, hother⟩ := block_table t f k
    simp only [ybeResults]
    generalize number (fun _ => true) ((List.finRange n).map fun b => (t, b)) f k = block at *
    have hkb : k ≤ block.2 := by
      have := hrange t.2
      omega
    have hone := exactlyOne_map_encodes cfg (fun b => block.1 (t, b)) (List.finRange n) block.2
      (List.nodup_finRange n) (fun b c _ h => hinj b c h)
      (fun b => by have := hrange b; omega)
      ⟨t.2, List.mem_finRange _, by have := hrange t.2; omega⟩
    generalize exactlyOne cfg ((List.finRange n).map fun b => block.1 (t, b)) = eo at *
    have hle := hone.le
    have hr := ih hrest block.1 (eo block.2).2 (by omega)
    generalize ybeResults cfg rest block.1 (eo block.2).2 = r at *
    have hler := hr.le
    have hhead : ∀ b, r.1 (t, b) = block.1 (t, b) := hr.kept t hnot
    have hne0 : ∀ b, block.1 (t, b) ≠ 0 := fun b => by
      have := hrange b
      omega
    refine ⟨by simp only; omega, ?_, fun t' ht' b => ?_, fun t' ht' b => ?_, fun τ hτ t' ht' => ?_,
      fun τ w => ?_⟩
    · exact (wellFormed_append _ _ _).mpr ⟨hone.wellFormed.mono hler, hr.wellFormed⟩
    · obtain ⟨hne, hnin⟩ := not_or.mp fun h => ht' (List.mem_cons.mpr h)
      exact (hr.kept t' hnin b).trans (hother t' hne b)
    · rcases List.mem_cons.mp ht' with rfl | hin
      · have := hrange b
        simp only [hhead]
        omega
      · have := hr.range t' hin b
        simp only
        omega
    · obtain ⟨hF, hG⟩ := (models_append τ _ _).mp hτ
      rcases List.mem_cons.mp ht' with rfl | hin
      · simpa [hhead, hne0] using hone.sound τ hF
      · exact hr.sound τ hG t' hin
    · have htable : Table (fun b => block.1 (t, b)) k block.2 :=
        ⟨fun b => Or.inr (hrange b), fun b c _ h => hinj b c h⟩
      obtain ⟨σ, hag, hσ⟩ := htable.assign τ fun b => decide (b = w t)
      have hσ' : ∀ b, σ (block.1 (t, b)) = decide (b = w t) := fun b => hσ b (hne0 b)
      obtain ⟨ρ, hag', hρ⟩ := hone.complete σ ⟨w t, by simp [hσ', hne0], by simp [hσ']⟩
      obtain ⟨υ, hag'', hυ, hvalues⟩ := hr.complete ρ w
      refine ⟨υ, AgreeBelow.trans hag ((hag'.mono hkb).trans (hag''.mono (by omega))),
        (models_append υ _ _).mpr ⟨(Models.congr hone.wellFormed hag'').mp hρ, hυ⟩,
        fun t' ht' b => ?_⟩
      rcases List.mem_cons.mp ht' with rfl | hin
      · have hlt := (hrange b).2
        simp only [hhead]
        rw [← hag'' _ (by omega), ← hag' _ hlt]
        exact hσ' b
      · exact hvalues t' hin b

section NoDiagonal

variable {cfg : Config} {lits : MatrixLits n} {k : Int}

/-- The tables without a prescribed diagonal that the entry variables can indicate. -/
def IndicatesTable (lits : MatrixLits n) (τ : Valuation) : Prop :=
  ∃ M : Fin n → Fin n → Fin n, RowsPermute M ∧ (Function.Bijective fun i => M i i) ∧
    Indicates τ lits M

/-- The cycle sets that the entry variables can indicate. -/
def IndicatesAnyCycleSet (lits : MatrixLits n) (τ : Valuation) : Prop :=
  ∃ M : Fin n → Fin n → Fin n, IsCycleSet M ∧ Indicates τ lits M

/-- The implications without a diagonal, with result variables `ybeLits`. -/
private def implicationsNoDiag (lits : MatrixLits n) (ybeLits : YbeIndex n → Int) : Cnf :=
  (triples n ×ˢ (cells n ×ˢ List.finRange n)).flatMap fun t =>
    [ybePremise false lits t.1.1.1 t.1.1.2 t.1.2 t.2.1.1 t.2.1.2 t.2.2 ++ [ybeLits (t.1, t.2.2)],
      ybePremise false lits t.1.1.2 t.1.1.1 t.1.2 t.2.1.1 t.2.1.2 t.2.2 ++ [ybeLits (t.1, t.2.2)]]

private theorem ybeClausesNewNoDiag_eq (cfg : Config) (lits : MatrixLits n) (k : Int) :
    ybeClausesNewNoDiag cfg lits k =
      ((ybeResults cfg (triples n) (fun _ => 0) k).2.1 ++
        implicationsNoDiag lits (ybeResults cfg (triples n) (fun _ => 0) k).1,
      (ybeResults cfg (triples n) (fun _ => 0) k).2.2) := rfl

private theorem forall_implicationsNoDiag (ybeLits : YbeIndex n → Int) (P : Clause → Prop) :
    (∀ c ∈ implicationsNoDiag lits ybeLits, P c) ↔ ∀ i j a x y b, i < j →
      P (ybePremise false lits i j a x y b ++ [ybeLits (((i, j), a), b)]) ∧
      P (ybePremise false lits j i a x y b ++ [ybeLits (((i, j), a), b)]) := by
  simp only [implicationsNoDiag, List.mem_flatMap, mem_nested, mem_triples, mem_cells,
    List.mem_finRange, and_true, List.mem_cons, List.not_mem_nil, or_false]
  constructor
  · intro h i j a x y b hij
    exact ⟨h _ ⟨(((i, j), a), ((x, y), b)), hij, Or.inl rfl⟩,
      h _ ⟨(((i, j), a), ((x, y), b)), hij, Or.inr rfl⟩⟩
  · rintro h c ⟨⟨⟨⟨i, j⟩, a⟩, ⟨x, y⟩, b⟩, hij, rfl | rfl⟩
    · exact (h i j a x y b hij).1
    · exact (h i j a x y b hij).2

/-- The implications say that both sides of the identity have a true result variable. -/
private theorem models_implicationsNoDiag (ht : LitTable lits (fun _ => true) k) {τ : Valuation}
    {M : Fin n → Fin n → Fin n} (hM : Indicates τ lits M) {ybeLits : YbeIndex n → Int}
    (hpos : ∀ i j a b, i < j → 0 < ybeLits (((i, j), a), b)) :
    Models τ (implicationsNoDiag lits ybeLits) ↔ ∀ i j a, i < j →
      τ (ybeLits (((i, j), a), M (M i j) (M i a))) = true ∧
      τ (ybeLits (((i, j), a), M (M j i) (M j a))) = true := by
  have hpremise : ∀ {i j a x y b : Fin n}, i ≠ j →
      (ClauseTrue τ (ybePremise false lits i j a x y b) ↔ ¬ (M i j = x ∧ M i a = y ∧ M x y = b)) :=
    fun {i j a x y b} hij => clauseTrue_ybePremise (d := id) ht hM hij (fun _ _ => rfl) (by simp)
  rw [Models, forall_implicationsNoDiag]
  constructor
  · intro h i j a hij
    exact ⟨(clauseTrue_implication (hpremise hij.ne) (hpos i j a _ hij)).mp
        (h i j a _ _ _ hij).1 ⟨rfl, rfl, rfl⟩,
      (clauseTrue_implication (hpremise hij.ne') (hpos i j a _ hij)).mp
        (h i j a _ _ _ hij).2 ⟨rfl, rfl, rfl⟩⟩
  · intro h i j a x y b hij
    refine ⟨(clauseTrue_implication (hpremise hij.ne) (hpos i j a b hij)).mpr ?_,
      (clauseTrue_implication (hpremise hij.ne') (hpos i j a b hij)).mpr ?_⟩
    · rintro ⟨rfl, rfl, rfl⟩
      exact (h i j a hij).1
    · rintro ⟨rfl, rfl, rfl⟩
      exact (h i j a hij).2

variable (cfg) in
theorem ybeClausesNewNoDiag_encodes (hk : 0 < k) (ht : LitTable lits (fun _ => true) k) :
    (ybeClausesNewNoDiag cfg lits).EncodesUnder k (IndicatesTable lits)
      (IndicatesAnyCycleSet lits) := by
  have hr := ybeResults_spec cfg (triples n) (nodup_triples n) (fun _ => 0) k hk
  have heq := ybeClausesNewNoDiag_eq cfg lits k
  generalize ybeResults cfg (triples n) (fun _ => 0) k = r at hr heq
  have hrange : ∀ i j a b, i < j → k ≤ r.1 (((i, j), a), b) ∧ r.1 (((i, j), a), b) < r.2.2 :=
    fun i j a b hij => hr.range ((i, j), a) ((mem_triples _).mpr hij) b
  have hpos : ∀ i j a b, i < j → 0 < r.1 (((i, j), a), b) := fun i j a b hij => by
    have := hrange i j a b hij
    omega
  refine ⟨?_, ?_, fun τ hτ hF => ?_, fun τ hτ => ?_⟩
  · rw [heq]
    exact hr.le
  · rw [heq]
    refine (wellFormed_append _ _ _).mpr ⟨hr.wellFormed, ?_⟩
    have hle := hr.le
    rw [WellFormed, forall_implicationsNoDiag]
    have hpremise : ∀ {i j a x y b : Fin n}, i ≠ j →
        ∀ l ∈ ybePremise false lits i j a x y b, l ≠ 0 ∧ -k < l ∧ l < k := fun hij =>
      ybePremise_literals (d := id) ht hij (fun _ _ => rfl) (by simp)
    intro i j a x y b hij
    have hlast := hrange i j a b hij
    refine ⟨⟨by simp, fun l hl => ?_⟩, ⟨by simp, fun l hl => ?_⟩⟩
    · rcases List.mem_append.mp hl with hl | hl
      · have := hpremise hij.ne l hl
        omega
      · obtain rfl := List.mem_singleton.mp hl
        omega
    · rcases List.mem_append.mp hl with hl | hl
      · have := hpremise hij.ne' l hl
        omega
      · obtain rfl := List.mem_singleton.mp hl
        omega
  · obtain ⟨M, hrows, hdiag, hM⟩ := hτ
    rw [heq, models_append] at hF
    have hsides := (models_implicationsNoDiag ht hM hpos).mp hF.2
    refine ⟨M, ⟨hrows, hdiag, cycleIdentity_of_lt fun i j hij a => ?_⟩, hM⟩
    obtain ⟨hleft, hright⟩ := hsides i j a hij
    exact (hr.sound τ hF.1 ((i, j), a) ((mem_triples _).mpr hij)).unique hleft hright
  · obtain ⟨M, hcs, hM⟩ := hτ
    obtain ⟨σ, hag, hσ, hvalues⟩ := hr.complete τ
      fun t => M (M t.1.1 t.1.2) (M t.1.1 t.2)
    refine ⟨σ, hag, ?_⟩
    rw [heq, models_append]
    refine ⟨hσ, (models_implicationsNoDiag ht (hM.congr ht hag) hpos).mpr fun i j a hij => ?_⟩
    have hval := hvalues ((i, j), a) ((mem_triples _).mpr hij)
    simp only [hval, decide_eq_true_eq, true_and]
    exact (hcs.identity i j a).symm

end NoDiagonal

/-- The two valuations agree on all entry variables. -/
def EntriesAgree (lits : MatrixLits n) (τ σ : Valuation) : Prop :=
  ∀ i j k, lits i j k ≠ 0 → τ (lits i j k) = σ (lits i j k)

theorem EntriesAgree.indicates {lits : MatrixLits n} {τ σ : Valuation}
    (h : EntriesAgree lits τ σ) (M : Fin n → Fin n → Fin n) :
    Indicates τ lits M ↔ Indicates σ lits M := by
  have heq : ∀ i j k, lits i j k ≠ 0 → (τ (lits i j k) = true ↔ σ (lits i j k) = true) :=
    fun i j k h0 => by rw [h i j k h0]
  exact ⟨fun hM i j k h0 => (heq i j k h0).symm.trans (hM i j k h0),
    fun hM i j k h0 => (heq i j k h0).trans (hM i j k h0)⟩

/-- The formula is a conservative description of a set of tables: its models project to
indicators of the set, and every indicator extends to a model. -/
structure Describes (e : Encoding n) (S : (Fin n → Fin n → Fin n) → Prop) : Prop where
  wellFormed : WellFormed e.nextFree e.cnf
  sound : ∀ τ, Models τ e.cnf → ∃ M, S M ∧ Indicates τ e.lits M
  complete : ∀ τ M, S M → Indicates τ e.lits M →
    ∃ σ, EntriesAgree e.lits τ σ ∧ Models σ e.cnf

theorem Describes.extends_iff {e : Encoding n} {S : (Fin n → Fin n → Fin n) → Prop}
    (h : Describes e S) (τ : Valuation) :
    (∃ σ, EntriesAgree e.lits τ σ ∧ Models σ e.cnf) ↔ ∃ M, S M ∧ Indicates τ e.lits M := by
  constructor
  · rintro ⟨σ, hag, hσ⟩
    obtain ⟨M, hS, hM⟩ := h.sound σ hσ
    exact ⟨M, hS, (hag.indicates M).mpr hM⟩
  · rintro ⟨M, hS, hM⟩
    exact h.complete τ M hS hM

theorem one_le_numberEntries (keep : Entry n → Bool) : 1 ≤ (numberEntries keep 1).2 := by
  rw [numberEntries, number_snd]
  omega

/-- The formula of a diagonal describes exactly the cycle sets with that diagonal. -/
theorem encodeDiagonal_describes (cfg : Config) (d : Fin n → Fin n)
    (hd : Function.Injective d) : Describes (encodeDiagonal cfg d) (HasDiagonal d) := by
  have ht := numberEntries_table (entryKept cfg d)
  have hk := one_le_numberEntries (entryKept cfg d)
  have hentries := (entryConstraints_encodes cfg d _ ht).congr
    fun τ => entryFacts_iff cfg d hd _ ht τ
  have hlocal : Local (numberEntries (entryKept cfg d) 1).2
      (IndicatesCycleSet d (numberEntries (entryKept cfg d) 1).1) :=
    fun τ σ hag ⟨M, hcs, hM⟩ => ⟨M, hcs, hM.congr ht hag⟩
  have hall := hentries.andThen_under
    (ybeClausesNew_encodes (by have := hentries.le; omega) (ht.mono hentries.le))
    (fun τ ⟨M, hcs, hM⟩ => ⟨M, hcs.rows, hcs.diagonal, hM⟩) hlocal
  refine ⟨hall.wellFormed, hall.sound, fun τ M hcs hM => ?_⟩
  obtain ⟨σ, hag, hσ⟩ := hall.complete τ ⟨M, hcs, hM⟩
  exact ⟨σ, fun i j k _ => hag _ (ht.range i j k).2, hσ⟩

/-- Without a diagonal the formula describes exactly the non-degenerate cycle sets. -/
theorem encodeNoDiag_describes (cfg : Config) : Describes (encodeNoDiag cfg n) IsCycleSet := by
  have ht := numberEntries_table (n := n) (fun _ => true)
  have hk := one_le_numberEntries (n := n) (fun _ => true)
  have hentries := (entryConstraintsNoDiag_encodes cfg _ ht).congr
    fun τ => entryFactsNoDiag_iff _ ht τ
  have hlocal : Local (numberEntries (n := n) (fun _ => true) 1).2
      (IndicatesAnyCycleSet (numberEntries (n := n) (fun _ => true) 1).1) :=
    fun τ σ hag ⟨M, hcs, hM⟩ => ⟨M, hcs, hM.congr ht hag⟩
  have hall := hentries.andThen_under
    (ybeClausesNewNoDiag_encodes cfg (by have := hentries.le; omega)
      (ht.mono hentries.le))
    (fun τ ⟨M, hcs, hM⟩ => ⟨M, hcs.rows, hcs.diagonal, hM⟩) hlocal
  refine ⟨hall.wellFormed, hall.sound, fun τ M hcs hM => ?_⟩
  obtain ⟨σ, hag, hσ⟩ := hall.complete τ ⟨M, hcs, hM⟩
  exact ⟨σ, fun i j k _ => hag _ (ht.range i j k).2, hσ⟩

end YbeSms.Source
