import YbeSms.Library.FreshLiterals
import YbeSms.Source.TrailMirror
import YbeSms.Source.YbeEncoding

/-!
# Entry variables and their inverse table

Source: ybe-sms/src/clause.cpp:5-13; main.cpp:258-271, 302-330, 384-392;
solveCadicalClass.cpp:94-132. Three triple loops decide which entries have a variable,
which are listed in `lit2entry` and which are observed.
-/

namespace YbeSms.Guarantees

open YbeSms.Library YbeSms.Source

variable {n : Nat}

/-! ### The numbering -/

/-- What `main` and `encodeEntries` number, by mode, is what the constructor lists. -/
theorem mainFormula_lits (cfg : Config) (d firstRow : Fin n → Fin n) :
    (mainFormula cfg d firstRow).lits = (numberEntries (entryListed cfg d) 1).1 := by
  unfold mainFormula
  by_cases hd : cfg.diagPart = true
  · rw [if_pos hd, entryListed_diagonal hd]
    rfl
  · rw [if_neg hd, entryListed_noDiag hd]
    rfl

theorem highestEdgeVariable_eq (cfg : Config) (d : Fin n → Fin n) :
    highestEdgeVariable cfg d = ((entries n).filter (entryListed cfg d)).length := by
  have hfold : ∀ (l : List (Entry n)) (count : Nat),
      l.foldl (fun count e => if entryListed cfg d e then count + 1 else count) count =
        count + (l.filter (entryListed cfg d)).length := by
    intro l
    induction l with
    | nil => simp
    | cons e l ih =>
      intro count
      rw [List.foldl_cons, ih]
      by_cases he : entryListed cfg d e = true
      · rw [if_pos he, List.filter_cons_of_pos he, List.length_cons]
        omega
      · rw [if_neg he, List.filter_cons_of_neg he]
  rw [highestEdgeVariable, hfold]
  omega

/-- The counter after the numbering. -/
theorem numberEntries_next (cfg : Config) (d : Fin n → Fin n) :
    (numberEntries (entryListed cfg d) 1).2 = highestEdgeVariable cfg d + 1 := by
  rw [numberEntries, number_snd, highestEdgeVariable_eq]
  omega

/-! ### Auxiliary variables -/

/-- The constraints `main` emits over any literal table, after the numbering. -/
def mainConstraints (cfg : Config) (d firstRow : Fin n → Fin n) (lits : MatrixLits n) : Emitter :=
  if cfg.diagPart then
    ((entryConstraints cfg d lits).andThen (ybeClausesNew cfg lits d)).andThen <|
      .clauses <|
        if 0 < cfg.fixedRow then fixFirstRows cfg lits firstRow cfg.numToFix
        else if cfg.fixedRow < 0 then unfixFirstRows cfg lits firstRow cfg.numToFix
        else []
  else (entryConstraintsNoDiag cfg lits).andThen (ybeClausesNewNoDiag cfg lits)

theorem mainFormula_cnf (cfg : Config) (d firstRow : Fin n → Fin n) :
    (mainFormula cfg d firstRow).cnf =
      (mainConstraints cfg d firstRow (mainFormula cfg d firstRow).lits
        (highestEdgeVariable cfg d + 1)).1 := by
  rw [← numberEntries_next, mainFormula_lits]
  unfold mainFormula mainConstraints
  by_cases hd : cfg.diagPart = true
  · rw [if_pos hd, if_pos hd, entryListed_diagonal hd]
    rfl
  · rw [if_neg hd, if_neg hd, entryListed_noDiag hd]
    rfl

/-- The variables of a literal table. -/
def tableVars (lits : MatrixLits n) : Set Nat := {v | ∃ i j k, (lits i j k).natAbs = v}

theorem given_lits (lits : MatrixLits n) (lo : Int) (i j k : Fin n) :
    GivenOrFresh (tableVars lits) lo (lits i j k) := Or.inl ⟨i, j, k, rfl⟩

section Encoders

variable {vars : Set Nat} {lo : Int}

theorem atMostOne_over {vs : List Int} (h : ∀ v ∈ vs, GivenOrFresh vars lo v) :
    FormulaOver vars lo (atMostOne vs) := by
  induction vs with
  | nil => exact formulaOver_nil
  | cons a rest ih =>
    have ha := h a List.mem_cons_self
    have hrest := fun v hv => h v (List.mem_cons_of_mem a hv)
    rw [atMostOne, formulaOver_append]
    refine ⟨?_, ih hrest⟩
    intro c hc
    obtain ⟨b, hb, rfl⟩ := List.mem_map.mp hc
    simpa using ⟨ha, hrest b hb⟩

theorem commanderClauses_over {a b c cmd : Int} (ha : GivenOrFresh vars lo a)
    (hb : GivenOrFresh vars lo b) (hc : c = 0 ∨ GivenOrFresh vars lo c)
    (hcmd : GivenOrFresh vars lo cmd) : FormulaOver vars lo (commanderClauses a b c cmd) := by
  unfold commanderClauses
  by_cases h0 : c = 0
  · simp [h0, ha, hb, hcmd]
  · simp [h0, ha, hb, hc.resolve_left h0, hcmd]

/-- The commander of a list is given or fresh, and there is none for the empty list only. -/
theorem commanderEncoding_over {vs : List Int} {k : Int} (hk : lo ≤ k)
    (h : ∀ v ∈ vs, GivenOrFresh vars lo v) :
    ((vs = [] ∧ (commanderEncoding vs k).1.1 = 0) ∨
      GivenOrFresh vars lo (commanderEncoding vs k).1.1) ∧
    FormulaOver vars lo (commanderEncoding vs k).1.2 := by
  induction vs, k using commanderEncoding.induct with
  | case1 k => simp [commanderEncoding]
  | case2 k a => simpa [commanderEncoding] using h
  | case3 k a b =>
    rw [commanderEncoding]
    have hcmd : GivenOrFresh vars lo k := givenOrFresh_of_le hk
    exact ⟨Or.inr hcmd, commanderClauses_over (h a (by simp)) (h b (by simp)) (Or.inl rfl) hcmd⟩
  | case4 k a b c =>
    rw [commanderEncoding]
    have hcmd : GivenOrFresh vars lo k := givenOrFresh_of_le hk
    exact ⟨Or.inr hcmd, commanderClauses_over (h a (by simp)) (h b (by simp))
      (Or.inr (h c (by simp))) hcmd⟩
  | case5 k a b c e rest all p p1 p2 ih1 _ ih2 _ ih3 =>
    have hlen : 4 ≤ all.length := by simp [all]
    have hp : 1 ≤ p := by simp only [p]; omega
    have h3p : 3 * p ≤ all.length := by simp only [p]; omega
    have hk1 : k ≤ p1.2 := commanderEncoding_le _ _
    have hk2 : p1.2 ≤ p2.2 := commanderEncoding_le _ _
    have hk3 : p2.2 ≤ (commanderEncoding (all.drop (2 * p)) p2.2).2 := commanderEncoding_le _ _
    have h1 := ih1 hk fun v hv => h v (List.mem_of_mem_take hv)
    have h2 := ih2 (hk.trans hk1) fun v hv => h v (List.mem_of_mem_drop (List.mem_of_mem_take hv))
    have h3 := ih3 ((hk.trans hk1).trans hk2) fun v hv => h v (List.mem_of_mem_drop hv)
    have hne1 : all.take p ≠ [] := by
      rw [← List.length_pos_iff, List.length_take]
      omega
    have hne2 : (all.drop p).take p ≠ [] := by
      rw [← List.length_pos_iff, List.length_take, List.length_drop]
      omega
    have ha := h1.1.resolve_left fun h => hne1 h.1
    have hb := h2.1.resolve_left fun h => hne2 h.1
    have hc := h3.1.imp_left And.right
    have hcmd : GivenOrFresh vars lo (commanderEncoding (all.drop (2 * p)) p2.2).2 :=
      givenOrFresh_of_le (((hk.trans hk1).trans hk2).trans hk3)
    have heq : commanderEncoding (a :: b :: c :: e :: rest) k =
        commanderLayer (all.take p) ((all.drop p).take p) (all.drop (2 * p)) k := by
      rw [commanderEncoding]
      rfl
    rw [heq, commanderLayer]
    refine ⟨Or.inr hcmd, ?_⟩
    simp only [formulaOver_append]
    exact ⟨⟨⟨h1.2, h2.2⟩, h3.2⟩, commanderClauses_over ha hb hc hcmd⟩

theorem exactlyOne_draws (cfg : Config) {eo : List Int}
    (h : ∀ v ∈ eo, v = 0 ∨ GivenOrFresh vars lo v) : (exactlyOne cfg eo).Draws vars lo := by
  have hkept : ∀ v ∈ eo.filter (fun i => i ≠ 0), GivenOrFresh vars lo v := by
    intro v hv
    obtain ⟨hv, h0⟩ := List.mem_filter.mp hv
    exact (h v hv).resolve_left (by simpa using h0)
  have hlast : FormulaOver vars lo (atLeastOne (eo.filter (fun i => i ≠ 0))) := by
    rw [atLeastOne, formulaOver_cons]
    exact ⟨hkept, formulaOver_nil⟩
  refine ⟨?_, ?_⟩
  · intro k _
    unfold exactlyOne
    split
    · exact le_refl k
    · exact commanderEncoding_le _ k
  · intro k hk
    unfold exactlyOne
    split
    · exact (formulaOver_append _ _).mpr ⟨atMostOne_over hkept, hlast⟩
    · exact (formulaOver_append _ _).mpr ⟨(commanderEncoding_over hk hkept).2, hlast⟩

end Encoders

section Main

variable {cfg : Config} {lits : MatrixLits n} {lo : Int}

/-- `exactlyOne` over entries of the table. -/
theorem exactlyOne_entries (l : List (Fin n)) (g : Fin n → Entry n) :
    (exactlyOne cfg (l.map fun b => lits (g b).1 (g b).2.1 (g b).2.2)).Draws
      (tableVars lits) lo := by
  refine exactlyOne_draws cfg fun v hv => ?_
  obtain ⟨b, -, rfl⟩ := List.mem_map.mp hv
  exact Or.inr (given_lits lits lo _ _ _)

theorem draws_nothing {vars : Set Nat} : (Emitter.clauses []).Draws vars lo :=
  Emitter.Draws.clauses formulaOver_nil

theorem entryConstraints_draws (d : Fin n → Fin n) :
    (entryConstraints cfg d lits).Draws (tableVars lits) lo := by
  have hcell : ∀ c ∈ cells n, (if c.1 ≠ c.2 then
      exactlyOne cfg ((List.finRange n).map (lits c.1 c.2)) else .clauses []).Draws
        (tableVars lits) lo := by
    intro c _
    split
    · exact exactlyOne_entries _ fun v => (c.1, c.2, v)
    · exact draws_nothing
  have hrow : ∀ c ∈ cells n, (if d c.1 = c.2 then .clauses []
      else exactlyOne cfg (((List.finRange n).filter (fun j => j ≠ c.1)).map
        fun j => lits c.1 j c.2)).Draws (tableVars lits) lo := by
    intro c _
    split
    · exact draws_nothing
    · exact exactlyOne_entries _ fun j => (c.1, j, c.2)
  have hdiag : ∀ i ∈ List.finRange n, ((Emitter.clauses [[lits i i (d i)]]).andThen
      (exactlyOne cfg ((List.finRange n).map fun k => lits k k i))).Draws (tableVars lits) lo := by
    intro i _
    have hunit : FormulaOver (tableVars lits) lo [[lits i i (d i)]] := by
      simpa using given_lits lits lo i i (d i)
    exact (Emitter.Draws.clauses hunit).andThen (exactlyOne_entries _ fun v => (v, v, i))
  refine (Emitter.Draws.forEach hcell).andThen ((Emitter.Draws.forEach hrow).andThen ?_)
  split
  · exact Emitter.Draws.forEach hdiag
  · exact draws_nothing

theorem entryConstraintsNoDiag_draws :
    (entryConstraintsNoDiag cfg lits).Draws (tableVars lits) lo := by
  unfold entryConstraintsNoDiag
  refine (Emitter.Draws.forEach fun c _ => ?_).andThen
    ((Emitter.Draws.forEach fun c _ => ?_).andThen (Emitter.Draws.forEach fun i _ => ?_))
  · exact exactlyOne_entries _ fun v => (c.1, c.2, v)
  · exact exactlyOne_entries _ fun j => (c.1, j, c.2)
  · exact exactlyOne_entries _ fun v => (v, v, i)

theorem ybePremise_over (small : Bool) (i j k x y b : Fin n) :
    ∀ l ∈ ybePremise small lits i j k x y b, GivenOrFresh (tableVars lits) lo l := by
  intro l hl
  unfold ybePremise at hl
  simp only [List.mem_append, List.mem_singleton] at hl
  rcases hl with (rfl | hl) | hl
  · simpa using given_lits lits lo i j x
  · split at hl
    · rw [List.mem_singleton.mp hl]
      simpa using given_lits lits lo i k y
    · simp at hl
  · split at hl
    · rw [List.mem_singleton.mp hl]
      simpa using given_lits lits lo x y b
    · simp at hl

theorem ybeImplications_over (d : Fin n → Fin n) :
    ∀ p ∈ ybeImplications cfg lits d, ∀ l ∈ p.2, GivenOrFresh (tableVars lits) lo l := by
  intro p hp
  unfold ybeImplications at hp
  obtain ⟨t, -, hp⟩ := List.mem_flatMap.mp hp
  rcases List.mem_append.mp hp with hp | hp
  · split at hp
    · rw [List.mem_singleton.mp hp]
      exact ybePremise_over _ _ _ _ _ _ _
    · simp at hp
  · split at hp
    · rw [List.mem_singleton.mp hp]
      exact ybePremise_over _ _ _ _ _ _ _
    · simp at hp

theorem ybeClausesNew_draws (d : Fin n → Fin n) :
    (ybeClausesNew cfg lits d).Draws (tableVars lits) lo := by
  have hzero : TableOver (tableVars lits) lo (fun _ : YbeIndex n => 0) := fun _ => Or.inl rfl
  have himplications : ∀ p ∈ ybeImplications cfg lits d, ∀ l ∈ p.2,
      GivenOrFresh (tableVars lits) lo l := ybeImplications_over d
  have hemit := fun k hk => emitLazy_over (k := k) himplications hzero hk
  have hresults : ∀ k, lo ≤ k → (Emitter.forEach (triples n) fun t => exactlyOne cfg
      (((List.finRange n).map fun b =>
        (emitLazy (ybeImplications cfg lits d) (fun _ => 0) k).1.1 (t, b)).filter (· ≠ 0))).Draws
      (tableVars lits) lo := by
    intro k hk
    refine Emitter.Draws.forEach fun t _ => exactlyOne_draws cfg fun v hv => ?_
    obtain ⟨b, -, rfl⟩ := List.mem_map.mp (List.mem_of_mem_filter hv)
    exact (hemit k hk).2.1 (t, b)
  refine ⟨?_, ?_⟩
  · intro k hk
    obtain ⟨hle, -, -⟩ := hemit k hk
    exact hle.trans ((hresults k hk).le _ (hk.trans hle))
  · intro k hk
    obtain ⟨hle, -, hformula⟩ := hemit k hk
    exact (formulaOver_append _ _).mpr ⟨hformula, (hresults k hk).literals _ (hk.trans hle)⟩

theorem ybeResults_over (ts : List ((Fin n × Fin n) × Fin n)) :
    ∀ {f : YbeIndex n → Int} {k : Int}, TableOver (tableVars lits) lo f → lo ≤ k →
      k ≤ (ybeResults cfg ts f k).2.2 ∧
        FormulaOver (tableVars lits) lo (ybeResults cfg ts f k).2.1 := by
  induction ts with
  | nil => exact fun _ _ => ⟨le_refl _, formulaOver_nil⟩
  | cons t ts ih =>
    intro f k hf hk
    have hblock := number_over (fun _ => true) ((List.finRange n).map fun b => (t, b)) hf hk
    have hnext : k ≤ (number (fun _ => true) ((List.finRange n).map fun b => (t, b)) f k).2 := by
      rw [number_snd]
      omega
    have heo : (exactlyOne cfg ((List.finRange n).map fun b =>
        (number (fun _ => true) ((List.finRange n).map fun b => (t, b)) f k).1 (t, b))).Draws
        (tableVars lits) lo := by
      refine exactlyOne_draws cfg fun v hv => ?_
      obtain ⟨b, -, rfl⟩ := List.mem_map.mp hv
      exact hblock (t, b)
    have hle := heo.le _ (hk.trans hnext)
    obtain ⟨hlast, hformula⟩ := ih hblock ((hk.trans hnext).trans hle)
    exact ⟨(hnext.trans hle).trans hlast,
      (formulaOver_append _ _).mpr ⟨heo.literals _ (hk.trans hnext), hformula⟩⟩

theorem ybeClausesNewNoDiag_draws (hlo : 0 < lo) :
    (ybeClausesNewNoDiag cfg lits).Draws (tableVars lits) lo := by
  have hzero : TableOver (tableVars lits) lo (fun _ : YbeIndex n => 0) := fun _ => Or.inl rfl
  have hresults : ∀ k, lo ≤ k → k ≤ (ybeResults cfg (triples n) (fun _ => 0) k).2.2 ∧
      FormulaOver (tableVars lits) lo (ybeResults cfg (triples n) (fun _ => 0) k).2.1 :=
    fun _ hk => ybeResults_over (triples n) hzero hk
  refine ⟨fun k hk => (hresults k hk).1, ?_⟩
  intro k hk
  refine (formulaOver_append _ _).mpr ⟨(hresults k hk).2, ?_⟩
  have hspec := ybeResults_spec cfg (triples n) (nodup_triples n) (fun _ => 0) k (by omega)
  intro c hc
  obtain ⟨t, ht, hc⟩ := List.mem_flatMap.mp hc
  -- every triple of the loops has its result variables by now
  have hresult : GivenOrFresh (tableVars lits) lo
      ((ybeResults cfg (triples n) (fun _ => 0) k).1 (t.1, t.2.2)) :=
    givenOrFresh_of_le (hk.trans (hspec.range t.1 (List.mem_product.mp ht).1 t.2.2).1)
  have hentry := given_lits lits lo
  rcases List.mem_cons.mp hc with rfl | hc
  · simpa using ⟨hentry _ _ _, hentry _ _ _, hentry _ _ _, hresult⟩
  · rw [List.mem_singleton.mp hc]
    simpa using ⟨hentry _ _ _, hentry _ _ _, hentry _ _ _, hresult⟩

theorem fixFirstRows_over (firstRow : Fin n → Fin n) (numToFix : Nat) :
    FormulaOver (tableVars lits) lo (fixFirstRows cfg lits firstRow numToFix) := by
  intro c hc l hl
  obtain ⟨p, -, hc⟩ := List.mem_flatMap.mp hc
  split at hc
  · split at hc
    · simp at hc
    · rw [List.mem_singleton.mp hc] at hl
      rw [List.mem_singleton.mp hl]
      exact given_lits lits lo _ _ _
  · simp at hc

theorem unfixFirstRows_over (firstRow : Fin n → Fin n) (numToFix : Nat) :
    FormulaOver (tableVars lits) lo (unfixFirstRows cfg lits firstRow numToFix) := by
  intro c hc l hl
  rw [List.mem_singleton.mp hc] at hl
  obtain ⟨p, -, hl⟩ := List.mem_flatMap.mp hl
  split at hl
  · split at hl
    · simp at hl
    · rw [List.mem_singleton.mp hl, givenOrFresh_neg]
      exact given_lits lits lo _ _ _
  · simp at hl

theorem mainConstraints_draws (hlo : 0 < lo) (d firstRow : Fin n → Fin n) :
    (mainConstraints cfg d firstRow lits).Draws (tableVars lits) lo := by
  unfold mainConstraints
  split
  · refine ((entryConstraints_draws d).andThen (ybeClausesNew_draws d)).andThen
      (Emitter.Draws.clauses ?_)
    split
    · exact fixFirstRows_over firstRow _
    · split
      · exact unfixFirstRows_over firstRow _
      · exact formulaOver_nil
  · exact entryConstraintsNoDiag_draws.andThen (ybeClausesNewNoDiag_draws hlo)

end Main

/-- The literal table, the tables of the constructor and the formula agree. -/
structure TablesAgree (cfg : Config) (d : Fin n → Fin n) (lits : MatrixLits n) (cnf : Cnf) :
    Prop where
  distinct : ∀ i j k i' j' k', lits i j k ≠ 0 → lits i j k = lits i' j' k' →
    (i, j, k) = (i', j', k')
  exactly : ∀ v, (v ≠ 0 ∧ ∃ i j k, lits i j k = v) ↔ 1 ≤ v ∧ v ≤ highestEdgeVariable cfg d
  lookup : ∀ i j k, lits i j k ≠ 0 →
    (lit2entry cfg d)[(lits i j k).toNat]? = some (some (i, j, k))
  observed : ∀ i j k, entryObserved cfg d (i, j, k) = true → lits i j k ≠ 0
  auxiliary : ∀ v, Occurs v cnf → (∀ i j k, lits i j k ≠ v) → highestEdgeVariable cfg d < v

theorem exactly_numbered (cfg : Config) (d firstRow : Fin n → Fin n) (v : Int) :
    (v ≠ 0 ∧ ∃ i j k, (mainFormula cfg d firstRow).lits i j k = v) ↔
      1 ≤ v ∧ v ≤ highestEdgeVariable cfg d := by
  have htable := numberEntries_table (entryListed cfg d)
  have hnext := numberEntries_next cfg d
  rw [mainFormula_lits]
  constructor
  · rintro ⟨h0, i, j, k, rfl⟩
    have hrange := htable.range i j k
    omega
  · rintro ⟨hlo, hhi⟩
    refine ⟨by omega, ?_⟩
    have hlt : v < (number (entryListed cfg d) (entries n) (fun _ => 0) 1).2 := by
      have : (number (entryListed cfg d) (entries n) (fun _ => 0) 1).2 =
          highestEdgeVariable cfg d + 1 := hnext
      omega
    obtain ⟨e, -, he⟩ := exists_number _ _ (nodup_entries n) _ hlo hlt
    exact ⟨e.1, e.2.1, e.2.2, he⟩

theorem lookup_numbered (cfg : Config) (d firstRow : Fin n → Fin n) (i j k : Fin n)
    (h0 : (mainFormula cfg d firstRow).lits i j k ≠ 0) :
    (lit2entry cfg d)[((mainFormula cfg d firstRow).lits i j k).toNat]? =
      some (some (i, j, k)) := by
  rw [mainFormula_lits] at h0 ⊢
  have hlisted := ((numberEntries_table (entryListed cfg d)).nonzero i j k).mp h0
  have hobserving := numberEntries_observing (entryListed cfg d) (entryListed cfg d) fun _ h => h
  have hpos : 0 < (numberEntries (entryListed cfg d) 1).1 i j k := hobserving.pos _ hlisted
  have hlookup := Option.join_eq_some_iff.mp (hobserving.lookup (i, j, k) hlisted)
  have hindex : ((numberEntries (entryListed cfg d) 1).1 i j k).toNat =
      ((numberEntries (entryListed cfg d) 1).1 i j k).natAbs := by omega
  rw [hindex]
  exact hlookup

/-- The variables of the entries are `1` to `highestEdgeVariable`, `lit2entry` maps each back to
its entry, observed entries have one and every other variable of the formula lies above. Over any
table in place of the numbering, the constraints are made of the table's variables and of such
higher ones. -/
theorem numbering_agrees (cfg : Config) (d firstRow : Fin n → Fin n) :
    TablesAgree cfg d (mainFormula cfg d firstRow).lits (mainFormula cfg d firstRow).cnf ∧
    (mainFormula cfg d firstRow).cnf = (mainConstraints cfg d firstRow
      (mainFormula cfg d firstRow).lits (highestEdgeVariable cfg d + 1)).1 ∧
    ∀ lits : MatrixLits n, ∀ c ∈ (mainConstraints cfg d firstRow lits
      (highestEdgeVariable cfg d + 1)).1, ∀ l ∈ c,
      (∃ i j k, (lits i j k).natAbs = l.natAbs) ∨ highestEdgeVariable cfg d < l.natAbs := by
  have htable := numberEntries_table (entryListed cfg d)
  have hlits := mainFormula_lits cfg d firstRow
  have hdrawn : ∀ lits : MatrixLits n, ∀ c ∈ (mainConstraints cfg d firstRow lits
      (highestEdgeVariable cfg d + 1)).1, ∀ l ∈ c,
      (∃ i j k, (lits i j k).natAbs = l.natAbs) ∨ highestEdgeVariable cfg d < l.natAbs := by
    intro lits c hc l hl
    have hdraws : (mainConstraints cfg d firstRow lits).Draws (tableVars lits)
        (highestEdgeVariable cfg d + 1) := mainConstraints_draws (by omega) d firstRow
    have hover := hdraws.literals _ (le_refl _) c hc l hl
    rcases hover with hgiven | hfresh
    · exact Or.inl hgiven
    · right
      omega
  refine ⟨⟨?_, exactly_numbered cfg d firstRow, lookup_numbered cfg d firstRow, ?_, ?_⟩,
    mainFormula_cnf cfg d firstRow, hdrawn⟩
  · rw [hlits]
    exact htable.inj
  · intro i j k hobs
    rw [hlits]
    exact (htable.nonzero i j k).mpr (entryListed_of_observed hobs)
  · rintro v ⟨hpos, c, hc, hv⟩ hother
    rw [mainFormula_cnf] at hc
    have hcase : (∃ i j k, ((mainFormula cfg d firstRow).lits i j k).natAbs = v.natAbs) ∨
        highestEdgeVariable cfg d < v.natAbs := by
      rcases hv with hv | hv
      · exact hdrawn _ c hc v hv
      · simpa using hdrawn _ c hc (-v) hv
    rcases hcase with ⟨i, j, k, heq⟩ | habove
    · have hrange := htable.range i j k
      rw [← hlits] at hrange
      exact absurd (show (mainFormula cfg d firstRow).lits i j k = v by omega) (hother i j k)
    · omega

end YbeSms.Guarantees
