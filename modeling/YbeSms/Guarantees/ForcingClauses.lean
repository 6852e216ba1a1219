import YbeSms.Source.ForcingClauses
import YbeSms.Source.SolveGeneral
import YbeSms.Guarantees.FinalClauses

/-!
# Every thrown clause forces

Source: ybe-sms/src/solveCadicalClass.hpp:99-146; minCheckCommon.cpp:116-505;
minCheck_V2.cpp:153-284. Where the domains are what the literals leave, all literals of
a thrown clause are false but at most one; on a total state all are. The warning of
`addClause` is printed for neither.
-/

namespace YbeSms.Guarantees

open YbeSms.Library YbeSms.Abstract YbeSms.Source YbeSms.Source.MinCheck Equiv

variable {n : Nat}

/-- The check object has the literals of the formula the solver is given. -/
theorem numbered_mincheck (s : Session n) (before : Bool) : (s.mincheck before).Numbered := by
  unfold MinCheck.Numbered Session.mincheck
  simp only [Session.lits, Session.formula, mainFormula]
  split <;> rfl

/-- False literals and one unknown are no reason to warn. -/
theorem scanUnit_spec {truth : Int → TruthVal} {l₀ : Int} {clause : Clause}
    (h : ∀ l ∈ clause, (0 < l ∧ truth l = .isFalse) ∨ (l < 0 ∧ truth l = .isTrue) ∨
      (l = l₀ ∧ truth l = .unknown)) {unknown : List Nat}
    (hunknown : unknown = [] ∨ unknown = [l₀.natAbs]) :
    (scanUnit truth clause unknown).1 = true ∧ (scanUnit truth clause unknown).2.length ≤ 1 := by
  induction clause generalizing unknown with
  | nil =>
    refine ⟨rfl, ?_⟩
    rcases hunknown with rfl | rfl <;> simp [scanUnit]
  | cons l rest ih =>
    have hrest : ∀ {unknown : List Nat}, unknown = [] ∨ unknown = [l₀.natAbs] →
        (scanUnit truth rest unknown).1 = true ∧ (scanUnit truth rest unknown).2.length ≤ 1 :=
      fun hunknown => ih (fun x hx => h x (List.mem_cons_of_mem l hx)) hunknown
    rcases h l List.mem_cons_self with ⟨hpos, hl⟩ | ⟨hneg, hl⟩ | ⟨rfl, hl⟩
    · simp only [scanUnit, if_pos hpos, hl]
      exact hrest hunknown
    · simp only [scanUnit, if_neg (not_lt.mpr hneg.le), if_pos hneg, hl]
      exact hrest hunknown
    · have hnext : (if l.natAbs ∈ unknown then unknown else unknown ++ [l.natAbs]) = [l.natAbs] := by
        rcases hunknown with rfl | rfl <;> simp
      simp only [scanUnit, hl, hnext]
      split
      · exact hrest (Or.inr rfl)
      · split
        · exact hrest (Or.inr rfl)
        · exact hrest hunknown

section Session

variable {s : Session n} {before : Bool} {cycset : CycleSet n}

/-- The assignment that `addClause` reads for a literal of an observed entry. -/
theorem truthOf_observed {r c v : Fin n} (ho : s.observed (r, c, v) = true) {l : Int}
    (hl : l.natAbs = (s.lits r c v).natAbs) :
    cycset.truthOf s.table l = cycset.assignments r c v := by
  have hlookup : (s.table[l.natAbs]?).join = some (r, c, v) := by
    rw [hl]
    exact s.observing.lookup (r, c, v) ho
  unfold CycleSet.truthOf
  rw [hlookup]

theorem warns_of_forcing {clause : Clause} (h : (s.mincheck before).Forcing cycset clause) :
    warns (cycset.truthOf s.table) clause = false := by
  obtain ⟨e, he⟩ := h
  have hcases : ∀ l ∈ clause, (0 < l ∧ cycset.truthOf s.table l = .isFalse) ∨
      (l < 0 ∧ cycset.truthOf s.table l = .isTrue) ∨
      (l = -s.lits e.1 e.2.1 e.2.2 ∧ cycset.truthOf s.table l = .unknown) := by
    intro l hl
    rcases he l hl with ⟨r, c, v, ho, hlit⟩ | ⟨ho, rfl, hopen⟩
    · have hpos := s.observing.pos (r, c, v) ho
      rcases hlit with ⟨rfl, hf⟩ | ⟨rfl, ht⟩
      · exact Or.inl ⟨hpos, (truthOf_observed ho rfl).trans hf⟩
      · refine Or.inr (Or.inl ⟨Int.neg_neg_of_pos hpos, ?_⟩)
        exact (truthOf_observed ho (Int.natAbs_neg _)).trans ht
    · have hpos := s.observing.pos e ho
      have htruth : cycset.truthOf s.table (-s.lits e.1 e.2.1 e.2.2) =
          cycset.assignments e.1 e.2.1 e.2.2 := truthOf_observed ho (Int.natAbs_neg _)
      cases hval : cycset.assignments e.1 e.2.1 e.2.2 with
      | isTrue => exact Or.inr (Or.inl ⟨Int.neg_neg_of_pos hpos, htruth.trans hval⟩)
      | isFalse => exact absurd hval hopen
      | unknown => exact Or.inr (Or.inr ⟨rfl, htruth.trans hval⟩)
  have hscan := scanUnit_spec hcases (Or.inl rfl)
  unfold warns
  simp only [hscan.1, Bool.not_true, Bool.false_or, decide_eq_false_iff_not, not_lt]
  exact hscan.2

end Session

/-- Why a run may stop: a thrown clause forces. -/
def StopsForcing (m : MinCheck n) (cycset : CycleSet n) (stop : Stop) : Prop :=
  ∀ clause, stop = .clause clause → m.Forcing cycset clause

section Rules

variable {m : MinCheck n} {d : Perm (Fin n)} {cycset : CycleSet n}

theorem forcing_of_thrown (hmode : InMode m d) (ht : m.Told cycset)
    (hlone : (m.cfg.diagPart = true → m.cfg.smallerEncoding = true) → m.Tight cycset)
    (hn : 2 ≤ n) (hroom : m.Roomy) {q : Perm (Fin n)} {r c : Fin n} (hcommute : Commute q d)
    (hoff : m.cfg.diagPart = true → r ≠ c) (hread : m.ReadsImage cycset q r c) {clause : Clause}
    (hthrow : m.addClauses cycset q r c = some clause) : m.Forcing cycset clause := by
  unfold addClauses at hthrow
  split at hthrow
  next hold =>
    have hs := hmode.serves (by omega)
    exact addClausesOld_forcing ht (fun hd => hs.commute_diag hd hcommute) hoff (hread hold) hthrow
  next =>
    exact addClausesShort_forcing ht hlone hn hroom (fun hs => hmode.diagPart_of_smaller hs) hoff
      hthrow

theorem addClauses_forcing (hmode : InMode m d) (ht : m.Tight cycset) (hn : 2 ≤ n)
    (hroom : m.Roomy) {q : Perm (Fin n)} {r c : Fin n} (hcalled : Called m d cycset q r c)
    {clause : Clause} (hthrow : m.addClauses cycset q r c = some clause) :
    m.Forcing cycset clause :=
  forcing_of_thrown hmode ht.toTold (fun _ => ht) hn hroom hcalled.commute
    (hcalled.offDiagonal ht.toConsistent) (ht.readsImage q r c) hthrow

theorem ruled_forcing (hn : 3 ≤ n) (hmode : InMode m d) (ht : m.Tight cycset) :
    Ruled m d cycset FixesAtStart (StopsForcing m cycset) where
  greatest _ _ _ h := h
  limit := fun _ h => by cases h
  fault := fun _ h => by cases h
  clause q r c cls _ hcalled hthrow := by
    rintro _ ⟨⟩
    exact addClauses_forcing hmode ht (by omega) (roomy_of_le hn) hcalled hthrow

/-- On a total state the domains are the values. -/
theorem tight_of_total {M : Fin n → Fin n → Fin n} (h : m.Total cycset M) : m.Tight cycset where
  toConsistent := h.consistent
  refused r c v hoff hout := by
    refine h.refused r c v ((isDiagValue_eq_false h.consistent r v).mpr fun hd => (hoff hd).2) ?_
    rintro rfl
    rw [(h.consistent.assigned r c _ (h.matrix r c) _).mpr rfl] at hout
    cases hout
  reserved hd r c hrc := by
    rw [← Bool.not_eq_true, h.consistent.assigned r c _ (h.matrix r c), ← h.admits.diagonal hd r]
    exact fun heq => hrc ((h.rows r).1 heq)
  lone r c v honly := by
    rw [h.matrix, honly (M r c) (h.mem_candidates r c)]

/-- On a total state two values differ where a clause is thrown, so there is room for it. -/
theorem ruled_forcing_of_total (hmode : InMode m d) {M : Fin n → Fin n → Fin n}
    (h : m.Total cycset M) : Ruled m d cycset Unforced (StopsForcing m cycset) where
  greatest _ _ _ hno := hno.elim
  limit := fun _ h => by cases h
  fault := fun _ h => by cases h
  clause q r c cls _ hcalled hthrow := by
    rintro _ ⟨⟩
    have hlt : act q M r c < M r c := by
      have hsettled := hcalled.settled h.consistent (M r c) (h.matrix r c) (by rw [h.permvals]; rfl)
      rw [h.lastInverse] at hsettled
      exact_mod_cast hsettled
    have hroom := roomy_of_ne hmode h.toShows hcalled.commute (hcalled.offDiagonal h.consistent)
      hlt.ne
    have htwo : 2 ≤ n := by
      have hbound := (M r c).isLt
      have hlt' : (act q M r c).val < (M r c).val := hlt
      omega
    exact addClauses_forcing hmode (tight_of_total h) htwo hroom hcalled hthrow

end Rules

end YbeSms.Guarantees
