import YbeSms.Guarantees.ForcingClauses
import YbeSms.Guarantees.GenuineSymmetries
import YbeSms.Guarantees.OldEncoder

/-!
# Thrown clauses are unit or falsified

Source: ybe-sms/src/solveCadicalClass.hpp:112-144; minCheckCommon.cpp:116-505;
clause.cpp:15-60. `addClause` prints a line when a clause that was thrown is satisfied or
has two unassigned variables. In the full encoding with a diagonal the variable of
(i,j,d[i]) occurs in the constraint of its cell, while d[i] is out of the domain. So a
domain can have one value left that is not assigned, and the old encoder takes it for
assigned.
-/

namespace YbeSms.Guarantees

open YbeSms.Library YbeSms.Abstract YbeSms.Source YbeSms.Source.MinCheck Equiv

variable {n : Nat}

/-- Unit propagation has nothing left to do for "exactly one of these is true". -/
structure OneClosed (truth : Fin n → TruthVal) (among : Fin n → Prop) : Prop where
  others : ∀ x, among x → truth x = .isTrue → ∀ y, among y → y ≠ x → truth y = .isFalse
  last : ∀ x, among x → (∀ y, among y → y ≠ x → truth y = .isFalse) → truth x = .isTrue

/-- A partial cycle set whose assignments are closed under the constraints of the cells and of the
rows, and whose domains are the values that are not refused, the value of the diagonal excluded. -/
structure Saturated (m : MinCheck n) (cycset : CycleSet n) : Prop where
  exact : ∀ r c, (cycset.bitdomains r c).Exact
  isTrue : ∀ r c v, cycset.matrix r c = some v ↔ cycset.assignments r c v = .isTrue
  diagonal : m.cfg.diagPart = true → ∀ r, cycset.matrix r r = some (m.diag r) ∧
    ∀ v, (cycset.bitdomains r r).dom v = true ↔ v = m.diag r
  domains : ∀ r c, (m.cfg.diagPart = true → r ≠ c) → ∀ v, (cycset.bitdomains r c).dom v = true ↔
    cycset.assignments r c v ≠ .isFalse ∧ (m.cfg.diagPart = true → v ≠ m.diag r)
  cells : ∀ r c, (m.cfg.diagPart = true → r ≠ c) →
    OneClosed (cycset.assignments r c) fun v => entryObserved m.cfg m.diag (r, c, v) = true
  rows : ∀ r v, (m.cfg.diagPart = true → v ≠ m.diag r) →
    OneClosed (fun c => cycset.assignments r c v) fun c =>
      entryObserved m.cfg m.diag (r, c, v) = true

instance (truth : Fin n → TruthVal) (among : Fin n → Prop) [DecidablePred among] :
    Decidable (OneClosed truth among) :=
  decidable_of_iff
    ((∀ x, among x → truth x = .isTrue → ∀ y, among y → y ≠ x → truth y = .isFalse) ∧
      ∀ x, among x → (∀ y, among y → y ≠ x → truth y = .isFalse) → truth x = .isTrue)
    ⟨fun h => ⟨h.1, h.2⟩, fun h => ⟨h.others, h.last⟩⟩

/-- The entry's variable occurs in the clause. -/
def Mentions (s : Session n) (clause : Clause) (e : Entry n) : Prop :=
  s.lits e.1 e.2.1 e.2.2 ∈ clause ∨ -s.lits e.1 e.2.1 e.2.2 ∈ clause

/-- The literals are about observed entries off the diagonal, none is satisfied, and at most one
variable is unassigned. -/
structure NearUnit (s : Session n) (cycset : CycleSet n) (clause : Clause) : Prop where
  nonzero : (0 : Int) ∉ clause
  observed : ∀ l ∈ clause, ∃ e, s.observed e = true ∧ (s.cfg.diagPart = true → e.1 ≠ e.2.1) ∧
    (l = s.lits e.1 e.2.1 e.2.2 ∨ l = -s.lits e.1 e.2.1 e.2.2)
  notTrue : ∀ e, s.observed e = true → s.lits e.1 e.2.1 e.2.2 ∈ clause →
    cycset.assignments e.1 e.2.1 e.2.2 ≠ .isTrue
  notFalse : ∀ e, s.observed e = true → -s.lits e.1 e.2.1 e.2.2 ∈ clause →
    cycset.assignments e.1 e.2.1 e.2.2 ≠ .isFalse
  unassigned : ∀ e e', s.observed e = true → s.observed e' = true → Mentions s clause e →
    Mentions s clause e' → cycset.assignments e.1 e.2.1 e.2.2 = .unknown →
    cycset.assignments e'.1 e'.2.1 e'.2.2 = .unknown → e = e'

section State

variable {m : MinCheck n} {cycset : CycleSet n}

theorem exists_value_of_preCheck (hsat : Saturated m cycset) (hpre : preCheck cycset = false)
    (r c : Fin n) : ∃ v, (cycset.bitdomains r c).dom v = true := by
  unfold preCheck at hpre
  rw [Bool.or_eq_false_iff, List.any_eq_false] at hpre
  have hcell := hpre.1 (r, c) (mem_cells _)
  simp only [Bool.or_eq_true, decide_eq_true_eq, not_or] at hcell
  by_contra hnone
  push Not at hnone
  refine hcell.2 ?_
  rw [(hsat.exact r c).numTrue, (countBits_eq_zero_iff _).mpr fun v => by simpa using hnone v]
  rfl

/-- Off the diagonal no cell has the value of the diagonal. -/
theorem ne_diag_of_matrix (hsat : Saturated m cycset) (hpre : preCheck cycset = false)
    {r c v : Fin n} (hv : cycset.matrix r c = some v) :
    m.cfg.diagPart = true → r ≠ c → v ≠ m.diag r := by
  rintro hd hrc rfl
  exact hrc (matrix_injective hpre ((hsat.diagonal hd r).1) hv)

theorem observed_of_dom (hsat : Saturated m cycset) {r c v : Fin n}
    (hoff : m.cfg.diagPart = true → r ≠ c) (hv : (cycset.bitdomains r c).dom v = true) :
    entryObserved m.cfg m.diag (r, c, v) = true :=
  observed_of_offDiagonal fun hd => ⟨hoff hd, ((hsat.domains r c hoff v).mp hv).2 hd⟩

/-- The domain of a cell with a value has no other value. -/
theorem dom_of_matrix (hsat : Saturated m cycset) (hpre : preCheck cycset = false) {r c v : Fin n}
    (hv : cycset.matrix r c = some v) (w : Fin n) :
    (cycset.bitdomains r c).dom w = true ↔ w = v := by
  by_cases hdiag : m.cfg.diagPart = true ∧ r = c
  · obtain ⟨hd, rfl⟩ := hdiag
    obtain ⟨hown, hdom⟩ := hsat.diagonal hd r
    rw [hown, Option.some.injEq] at hv
    rw [hdom, hv]
  · have hoff : m.cfg.diagPart = true → r ≠ c := fun hd heq => hdiag ⟨hd, heq⟩
    have htrue := (hsat.isTrue r c v).mp hv
    have hvd : m.cfg.diagPart = true → v ≠ m.diag r :=
      fun hd => ne_diag_of_matrix hsat hpre hv hd (hoff hd)
    constructor
    · intro hw
      by_contra hne
      have hfalse := (hsat.cells r c hoff).others v
        (observed_of_offDiagonal fun hd => ⟨hoff hd, hvd hd⟩) htrue w (observed_of_dom hsat hoff hw)
        hne
      exact ((hsat.domains r c hoff w).mp hw).1 hfalse
    · rintro rfl
      exact (hsat.domains r c hoff w).mpr ⟨by simp [htrue], hvd⟩

/-- Past `preCheck` the search gets what it relies on. -/
theorem told_of_saturated (hsat : Saturated m cycset) (hpre : preCheck cycset = false) :
    m.Told cycset where
  exact := hsat.exact
  nonempty := exists_value_of_preCheck hsat hpre
  isTrue := hsat.isTrue
  isFalse r c v hfalse := by
    rw [← Bool.not_eq_true]
    intro hv
    by_cases hdiag : m.cfg.diagPart = true ∧ r = c
    · obtain ⟨hd, rfl⟩ := hdiag
      obtain ⟨hown, hdom⟩ := hsat.diagonal hd r
      rw [← (hdom v).mp hv] at hown
      rw [(hsat.isTrue r r v).mp hown] at hfalse
      cases hfalse
    · exact ((hsat.domains r c (fun hd heq => hdiag ⟨hd, heq⟩) v).mp hv).1 hfalse
  assigned r c v hv := dom_of_matrix hsat hpre hv
  diagonal hd r := (hsat.diagonal hd r).1
  refused r c v hoff hout := by
    by_contra hno
    have hin := (hsat.domains r c (fun hd => (hoff hd).1) v).mpr ⟨hno, fun hd => (hoff hd).2⟩
    rw [hout] at hin
    cases hin
  reserved hd r c hrc := by
    rw [← Bool.not_eq_true]
    exact fun hin => ((hsat.domains r c (fun _ => hrc) _).mp hin).2 hd rfl

/-- Without a diagonal, and with the smaller encoding, a value that is alone is assigned. -/
theorem tight_of_saturated (hsmall : m.cfg.diagPart = true → m.cfg.smallerEncoding = true)
    (hsat : Saturated m cycset) (hpre : preCheck cycset = false) : m.Tight cycset where
  toTold := told_of_saturated hsat hpre
  lone r c v honly := by
    obtain ⟨w, hw⟩ := exists_value_of_preCheck hsat hpre r c
    obtain rfl := honly w hw
    by_cases hdiag : m.cfg.diagPart = true ∧ r = c
    · obtain ⟨hd, rfl⟩ := hdiag
      obtain ⟨hown, hdom⟩ := hsat.diagonal hd r
      rw [hown, (hdom w).mp hw]
    · have hoff : m.cfg.diagPart = true → r ≠ c := fun hd heq => hdiag ⟨hd, heq⟩
      refine (hsat.isTrue r c w).mpr
        ((hsat.cells r c hoff).last w (observed_of_dom hsat hoff hw) fun x hx hne => ?_)
      by_contra hopen
      refine hne (honly x ((hsat.domains r c hoff x).mpr ⟨hopen, fun hd => ?_⟩))
      have hkept : (r != c && (!m.cfg.smallerEncoding || x != m.diag r)) = true := by
        simpa [entryObserved, hd] using hx
      simpa [hsmall hd, hoff hd] using hkept

end State

section Session

variable {s : Session n} {before : Bool} {cycset : CycleSet n} {clause : Clause}

/-- A false literal is that of a refused entry, or negates one that has its value. -/
theorem refuted_lit {l : Int} (h : (s.mincheck before).Refuted cycset l) :
    ∃ e, s.observed e = true ∧
      ((l = s.lits e.1 e.2.1 e.2.2 ∧ cycset.assignments e.1 e.2.1 e.2.2 = .isFalse) ∨
        (l = -s.lits e.1 e.2.1 e.2.2 ∧ cycset.assignments e.1 e.2.1 e.2.2 = .isTrue)) := by
  obtain ⟨r, c, v, ho, hlit⟩ := h
  exact ⟨(r, c, v), ho, hlit⟩

section Forcing

variable {e₀ : Entry n}
  (h : ∀ l ∈ clause, (s.mincheck before).Refuted cycset l ∨ (s.mincheck before).Pending cycset e₀ l)

include h

theorem lit_of_forcing {l : Int} (hl : l ∈ clause) : ∃ e, s.observed e = true ∧
    (l = s.lits e.1 e.2.1 e.2.2 ∨ l = -s.lits e.1 e.2.1 e.2.2) := by
  rcases h l hl with hrefuted | ⟨ho₀, rfl, -⟩
  · obtain ⟨e, ho, hcases⟩ := refuted_lit hrefuted
    exact ⟨e, ho, hcases.imp And.left And.left⟩
  · exact ⟨e₀, ho₀, Or.inr rfl⟩

/-- An entry that occurs with its own sign is refused. -/
theorem isFalse_of_positive {e : Entry n} (ho : s.observed e = true)
    (hl : s.lits e.1 e.2.1 e.2.2 ∈ clause) : cycset.assignments e.1 e.2.1 e.2.2 = .isFalse := by
  have hpos := s.observing.pos e ho
  rcases h _ hl with hrefuted | ⟨ho₀, hlit, -⟩
  · obtain ⟨e', ho', ⟨hlit, hfalse⟩ | ⟨hlit, -⟩⟩ := refuted_lit hrefuted
    · rwa [s.observing.inj e e' ho ho' hlit]
    · have hpos' := s.observing.pos e' ho'
      omega
  · have hpos₀ : 0 < s.lits e₀.1 e₀.2.1 e₀.2.2 := s.observing.pos e₀ ho₀
    have hlit' : s.lits e.1 e.2.1 e.2.2 = -s.lits e₀.1 e₀.2.1 e₀.2.2 := hlit
    omega

/-- An entry that occurs negated has its value, or is the one that the clause refuses. -/
theorem isTrue_of_negative {e : Entry n} (ho : s.observed e = true)
    (hl : -s.lits e.1 e.2.1 e.2.2 ∈ clause) :
    cycset.assignments e.1 e.2.1 e.2.2 = .isTrue ∨
      (e = e₀ ∧ cycset.assignments e.1 e.2.1 e.2.2 ≠ .isFalse) := by
  have hpos := s.observing.pos e ho
  rcases h _ hl with hrefuted | ⟨ho₀, hlit, hopen⟩
  · obtain ⟨e', ho', ⟨hlit, -⟩ | ⟨hlit, htrue⟩⟩ := refuted_lit hrefuted
    · have hpos' := s.observing.pos e' ho'
      omega
    · rw [s.observing.inj e e' ho ho' (neg_inj.mp hlit)]
      exact Or.inl htrue
  · obtain rfl := s.observing.inj e e₀ ho ho₀ (neg_inj.mp hlit)
    exact Or.inr ⟨rfl, hopen⟩

/-- Only one entry is unassigned. -/
theorem eq_of_unknown {e : Entry n} (ho : s.observed e = true) (hin : Mentions s clause e)
    (hopen : cycset.assignments e.1 e.2.1 e.2.2 = .unknown) : e = e₀ := by
  rcases hin with hl | hl
  · rw [isFalse_of_positive h ho hl] at hopen
    cases hopen
  · rcases isTrue_of_negative h ho hl with htrue | ⟨heq, -⟩
    · rw [htrue] at hopen
      cases hopen
    · exact heq

end Forcing

theorem nearUnit_of_forcing (h : (s.mincheck before).Forcing cycset clause) :
    NearUnit s cycset clause := by
  obtain ⟨e₀, he₀⟩ := h
  refine ⟨fun hzero => ?_, fun l hl => ?_, fun e ho hl => ?_, fun e ho hl => ?_,
    fun e e' ho ho' hin hin' hopen hopen' => ?_⟩
  · obtain ⟨e, ho, heq⟩ := lit_of_forcing he₀ hzero
    have hpos := s.observing.pos e ho
    omega
  · obtain ⟨e, ho, heq⟩ := lit_of_forcing he₀ hl
    exact ⟨e, ho, s.offDiagonal ho, heq⟩
  · simp [isFalse_of_positive he₀ ho hl]
  · rcases isTrue_of_negative he₀ ho hl with htrue | ⟨-, hopen⟩
    · simp [htrue]
    · exact hopen
  · rw [eq_of_unknown he₀ ho hin hopen, eq_of_unknown he₀ ho' hin' hopen']

/-- A candidate of a cell without a value is unassigned. -/
theorem unknown_of_candidate {m : MinCheck n} (ht : m.Told cycset) {r c v : Fin n}
    (hnone : cycset.matrix r c = none) (hv : v ∈ candidates cycset r c) :
    cycset.assignments r c v = .unknown := by
  cases hval : cycset.assignments r c v with
  | isTrue =>
    rw [(ht.isTrue r c v).mpr hval] at hnone
    cases hnone
  | isFalse => exact absurd hval (ht.not_isFalse hv)
  | unknown => rfl

/-- If the image is not read, two variables are unassigned. -/
theorem readsImage_of_nearUnit (ht : (s.mincheck before).Told cycset) {p : Perm (Fin n)}
    {r c : Fin n} (hoff : s.cfg.diagPart = true → r ≠ c)
    (hthrow : (s.mincheck before).addClauses cycset p r c = some clause)
    (hunit : NearUnit s cycset clause) : (s.mincheck before).ReadsImage cycset p r c := by
  by_contra hno
  obtain ⟨hnone, himage, hmoved, v, hv, w, hw, hvin, hwin⟩ := mem_of_not_readsImage hthrow hno
  have hoff' : s.cfg.diagPart = true → p r ≠ p c := fun hd heq => hoff hd (p.injective heq)
  have hsame : ((r, c, v) : Entry n) = (p r, p c, w) :=
    hunit.unassigned _ _ (observed_of_offDiagonal (ht.ne_diag hoff hv))
      (observed_of_offDiagonal (ht.ne_diag hoff' hw)) (Or.inr hvin) (Or.inr hwin)
      (unknown_of_candidate ht hnone hv) (unknown_of_candidate ht himage hw)
  rw [Prod.mk.injEq, Prod.mk.injEq] at hsame
  exact hmoved ⟨hsame.1.symm, hsame.2.1.symm⟩

end Session

section Run

variable {m : MinCheck n} {d : Perm (Fin n)} {cycset : CycleSet n} {events : List (Event n)}

/-- Why a run may stop: a thrown clause comes from a call of `addClauses` with a symmetry of the
diagonal, at a cell off the diagonal. -/
def StopsThrown (m : MinCheck n) (d : Perm (Fin n)) (cycset : CycleSet n) (events : List (Event n))
    (stop : Stop) : Prop :=
  ∀ clause, stop = .clause clause → ∃ (q : Perm (Fin n)) (r c : Fin n), .learn q r c ∈ events ∧
    m.addClauses cycset q r c = some clause ∧ Commute q d ∧ (m.cfg.diagPart = true → r ≠ c)

theorem ruled_thrown (hd : ¬ (m.cfg.useBit = false ∧ d = 1)) (hc : m.Consistent cycset) :
    Ruled m d cycset (fun e => e ∈ events ∧ FixesInPlace m d e)
      (StopsThrown m d cycset events) where
  greatest _ _ _ h := h.2.atStart hd
  limit := fun _ h => by cases h
  fault := fun _ h => by cases h
  clause q r c cls h hcalled hadd := by
    rintro _ ⟨⟩
    exact ⟨q, r, c, h.1, hadd, hcalled.commute, hcalled.offDiagonal hc⟩

theorem covers_thrown (hc : m.Consistent cycset) :
    Covers m cycset (· ∈ events) (StopsThrown m 1 cycset events) where
  limit := fun _ h => by cases h
  fault := fun _ h => by cases h
  clause q r c cls h hoff hadd := by
    rintro _ ⟨⟩
    exact ⟨q, r, c, h, hadd, Commute.one_right q, hoff hc⟩

theorem stopsThrown_minCheck (hs : Serves m d) (hc : m.Consistent cycset) {isFinal : Bool}
    {stop : Stop} (hsteps : ∀ e ∈ (m.minCheck cycset isFinal).events, FixesInPlace m d e)
    (hstop : (m.minCheck cycset isFinal).result = .error stop) :
    StopsThrown m d cycset (m.minCheck cycset isFinal).events stop := by
  by_cases hplain : m.cfg.useBit = false ∧ d = 1
  · -- nothing is propagated and no point can be displaced
    obtain ⟨huse, rfl⟩ := hplain
    have hholds : Holds m.initialPart := by
      rw [initialPart_eq hs, huse]
      exact holds_ppermPlain hs.layered
    have hcovers : Covers m cycset (· ∈ (m.minCheck cycset isFinal).events)
        (StopsThrown m 1 cycset (m.minCheck cycset isFinal).events) := covers_thrown hc
    have hrun := (minCheck_keeps hcovers hs hholds isFinal fun _ he => he).2
    rwa [hstop] at hrun
  · have hruled : Ruled m d cycset
        (fun e => e ∈ (m.minCheck cycset isFinal).events ∧ FixesInPlace m d e)
        (StopsThrown m d cycset (m.minCheck cycset isFinal).events) := ruled_thrown hplain hc
    have hrun := (minCheck_spec hs hruled isFinal fun e he => ⟨he, hsteps e he⟩).2
    rwa [hstop] at hrun

end Run

/-- A thrown clause is near unit, and `addClause` prints nothing, exactly if the call that throws it
does not take an unassigned image for assigned. -/
theorem thrown_clause_unit (hn : 3 ≤ n) (s : Session n) (before : Bool) (d : Perm (Fin n))
    (hmode : InMode (s.mincheck before) d) (cycset : CycleSet n)
    (hsat : Saturated (s.mincheck before) cycset) (hpre : preCheck cycset = false) (isFinal : Bool)
    (hsteps : ∀ e ∈ ((s.mincheck before).minCheck cycset isFinal).events,
      FixesInPlace (s.mincheck before) d e) (clause : Clause)
    (hthrow : ((s.mincheck before).minCheck cycset isFinal).result = .error (.clause clause)) :
    ∃ p r c, .learn p r c ∈ ((s.mincheck before).minCheck cycset isFinal).events ∧
      (s.mincheck before).addClauses cycset p r c = some clause ∧
      (NearUnit s cycset clause ∧ warns (cycset.truthOf s.table) clause = false ↔
        (s.mincheck before).ReadsImage cycset p r c) := by
  have ht := told_of_saturated hsat hpre
  obtain ⟨q, r, c, hmem, hadd, hcommute, hoff⟩ :=
    stopsThrown_minCheck (hmode.serves (by omega)) ht.toConsistent hsteps hthrow clause rfl
  refine ⟨q, r, c, hmem, hadd, fun h => readsImage_of_nearUnit ht hoff hadd h.1, fun hread => ?_⟩
  have hforcing := forcing_of_thrown hmode ht (fun hsmall => tight_of_saturated hsmall hsat hpre)
    (by omega) (roomy_of_le hn) hcommute hoff hread hadd
  exact ⟨nearUnit_of_forcing hforcing, warns_of_forcing hforcing⟩

/-- `--size 4 --diag 1,2,3,0 --oldBreak`. -/
def rotatedOld : Session 4 :=
  ⟨{ diagPart := true, oldBreakingClauses := true }, finRotate 4, id⟩

/-- (0,1)≠0 is decided, then (3,0)=3 with what follows in its cell and row. -/
def imageAssigned : List Notification :=
  [.newDecisionLevel, .assignment (-5) false, .newDecisionLevel, .assignment 52 false,
    .assignment (-49) false, .assignment (-50) false, .assignment (-51) false,
    .assignment (-56) false, .assignment (-60) false]

/-- (0,1)≠0, (3,0)≠1 and (3,0)≠2 are decided. The entry (3,0,0) stays unassigned. -/
def imageAlone : List Notification :=
  [.newDecisionLevel, .assignment (-5) false, .newDecisionLevel, .assignment (-50) false,
    .newDecisionLevel, .assignment (-51) false]

theorem rotatedOld_inMode : InMode (rotatedOld.mincheck false) (finRotate 4) := by
  unfold InMode
  decide +kernel

theorem imageAssigned_saturated :
    Saturated (rotatedOld.mincheck false) (rotatedOld.after imageAssigned).currentCycleSet where
  exact := by decide +kernel
  isTrue := by decide +kernel
  diagonal := by decide +kernel
  domains := by decide +kernel
  cells := by decide +kernel
  rows := by decide +kernel

theorem imageAlone_saturated :
    Saturated (rotatedOld.mincheck false) (rotatedOld.after imageAlone).currentCycleSet where
  exact := by decide +kernel
  isTrue := by decide +kernel
  diagonal := by decide +kernel
  domains := by decide +kernel
  cells := by decide +kernel
  rows := by decide +kernel

/-- Every call asks for an image that is read. -/
private def readsAll (cycset : CycleSet 4) : Event 4 → Bool
  | .learn p r c => (cycset.matrix r c).isSome || (cycset.matrix (p r) (p c)).isSome
  | _ => true

/-- Where the image is assigned, the clause refuses the value 2 of the open cell (0,1). -/
theorem thrown_clause_unit_instance :
    NearUnit rotatedOld (rotatedOld.after imageAssigned).currentCycleSet [-52, -7] ∧
      warns ((rotatedOld.after imageAssigned).currentCycleSet.truthOf rotatedOld.table) [-52, -7] =
        false := by
  have hthrown : clauseOf ((rotatedOld.mincheck false).minCheck
      (rotatedOld.after imageAssigned).currentCycleSet false).result = some [-52, -7] := by
    decide +kernel
  have hreads : ((rotatedOld.mincheck false).minCheck
      (rotatedOld.after imageAssigned).currentCycleSet false).events.all
        (readsAll (rotatedOld.after imageAssigned).currentCycleSet) = true := by decide +kernel
  obtain ⟨p, r, c, hmem, -, hiff⟩ := thrown_clause_unit (by decide) rotatedOld false (finRotate 4)
    rotatedOld_inMode (rotatedOld.after imageAssigned).currentCycleSet imageAssigned_saturated
    (by decide +kernel) false (by decide +kernel) [-52, -7] (result_of_clauseOf hthrown)
  refine hiff.mpr fun _ hopen _ => Or.inl ?_
  have hread := List.all_eq_true.mp hreads _ hmem
  simpa [readsAll, hopen, Option.isSome_iff_ne_none] using hread

/-- Where it is alone and not assigned, both variables of the clause are unassigned, and `addClause`
prints its line. -/
theorem thrown_clause_not_unit :
    InMode (rotatedOld.mincheck false) (finRotate 4) ∧
      Saturated (rotatedOld.mincheck false) (rotatedOld.after imageAlone).currentCycleSet ∧
      preCheck (rotatedOld.after imageAlone).currentCycleSet = false ∧
      (∀ e ∈ ((rotatedOld.mincheck false).minCheck (rotatedOld.after imageAlone).currentCycleSet
        false).events, FixesInPlace (rotatedOld.mincheck false) (finRotate 4) e) ∧
      ((rotatedOld.mincheck false).minCheck (rotatedOld.after imageAlone).currentCycleSet
        false).result = .error (.clause [-52, -7]) ∧
      ¬ NearUnit rotatedOld (rotatedOld.after imageAlone).currentCycleSet [-52, -7] ∧
      warns ((rotatedOld.after imageAlone).currentCycleSet.truthOf rotatedOld.table) [-52, -7] =
        true := by
  have hthrown : clauseOf ((rotatedOld.mincheck false).minCheck
      (rotatedOld.after imageAlone).currentCycleSet false).result = some [-52, -7] := by
    decide +kernel
  refine ⟨rotatedOld_inMode, imageAlone_saturated, by decide +kernel, by decide +kernel,
    result_of_clauseOf hthrown, fun hunit => ?_, by decide +kernel⟩
  have hsame : ((3, 0, 3) : Entry 4) = (0, 1, 2) := by
    apply hunit.unassigned
    · decide +kernel
    · decide +kernel
    · exact Or.inr (by decide +kernel)
    · exact Or.inr (by decide +kernel)
    · decide +kernel
    · decide +kernel
  exact absurd hsame (by decide)

end YbeSms.Guarantees
