import YbeSms.Source.TrailMirror

/-!
# Runs of notifications

Source: ybe-sms/src/solveCadicalClass.hpp:164-257. `Picture` ties the propagator
to the ledger after a run. It is kept by every promised notification; a
backtrack is followed literal by literal. `D` is any further invariant of the
tables, `Clean` what a backtrack must know of the literals it undoes.
-/

namespace YbeSms.Source

open YbeSms.Library YbeSms.Abstract

variable {n : Nat}

/-- The propagator without its trail, against the ledger. -/
structure Picture (s : Session n) (D : CycleSet n → Prop) (p : Propagator n) (l : Ledger) :
    Prop where
  mirrors : Mirrors s.observed s.start.currentCycleSet.assignments p.currentCycleSet (s.Holds l)
  extra : D p.currentCycleSet
  flags : ∀ i j k, s.observed (i, j, k) = true → (p.fixedCycleSet i j k = true ↔
    s.start.fixedCycleSet i j k = true ∨ ∃ positive, signed s.lits (i, j, k) positive ∈ l.fixed)
  observed : ∀ lit, l.Held lit → ∃ e positive, s.observed e = true ∧ lit = signed s.lits e positive
  nodup : (l.levels.flatten.map Int.natAbs).Nodup
  consistent : ∀ lit, l.Held lit → ¬ l.Held (-lit)
  unforced : ∀ level ∈ l.levels, ∀ lit ∈ level,
    [lit] ∉ s.formula.cnf ∧ [-lit] ∉ s.formula.cnf

/-- The trail of the propagator holds the variables of the ledger's levels. -/
def TrailMatches (p : Propagator n) (l : Ledger) : Prop :=
  p.currentTrail = l.levels.map (·.map Int.natAbs)

theorem held_cons (F : List Int) (lit : Int) (tail : List Int) (rest : List (List Int)) (x : Int) :
    (Ledger.mk F ((lit :: tail) :: rest)).Held x ↔
      x = lit ∨ (Ledger.mk F (tail :: rest)).Held x := by
  simp only [Ledger.Held, List.mem_cons, exists_eq_or_imp]
  tauto

theorem held_nil (F : List Int) (rest : List (List Int)) (x : Int) :
    (Ledger.mk F ([] :: rest)).Held x ↔ (Ledger.mk F rest).Held x := by
  simp [Ledger.Held]

section Backtrack

variable {s : Session n} {D : CycleSet n → Prop} {Clean : Entry n → Bool → Prop}

/-- What undoing one literal must know: `D` survives, and a clean entry is not flagged
by the constructor. -/
structure UndoKeeps (s : Session n) (D : CycleSet n → Prop) (Clean : Entry n → Bool → Prop) :
    Prop where
  keeps : ∀ c H i j k positive,
    Mirrors s.observed s.start.currentCycleSet.assignments c H → s.observed (i, j, k) = true →
    H (i, j, k) positive → ¬ H (i, j, k) (!positive) → Clean (i, j, k) positive → D c →
    D (c.undo (i, j, k))
  unflagged : ∀ i j k positive, s.observed (i, j, k) = true → Clean (i, j, k) positive →
    s.start.fixedCycleSet i j k = false

/-- The literals of a list that are not fixed belong to clean entries. -/
def AllClean (s : Session n) (Clean : Entry n → Bool → Prop) (F : List Int) (lits : List Int) :
    Prop :=
  ∀ lit ∈ lits, lit ∉ F → ∀ e positive, s.observed e = true → lit = signed s.lits e positive →
    Clean e positive

theorem Picture.undoLiteral (hundo : UndoKeeps s D Clean) {p : Propagator n} {F : List Int}
    {lit : Int} {tail : List Int} {rest : List (List Int)}
    (h : Picture s D p ⟨F, (lit :: tail) :: rest⟩) (hclean : AllClean s Clean F [lit]) :
    Picture s D (p.undoLiteral s.table lit.natAbs) ⟨F, tail :: rest⟩ := by
  obtain ⟨⟨i, j, k⟩, positive, ho, rfl⟩ := h.observed lit ((held_cons ..).mpr (Or.inl rfl))
  have hobs := s.observing
  have hlookup : (s.table[(signed s.lits (i, j, k) positive).natAbs]?).join = some (i, j, k) := by
    rw [signed_natAbs]
    exact hobs.lookup (i, j, k) ho
  have hheld : (Ledger.mk F ((signed s.lits (i, j, k) positive :: tail) :: rest)).Held
      (signed s.lits (i, j, k) positive) := (held_cons ..).mpr (Or.inl rfl)
  have hopp : ¬ s.Holds (Ledger.mk F ((signed s.lits (i, j, k) positive :: tail) :: rest))
      (i, j, k) (!positive) := by
    have := h.consistent _ hheld
    rwa [neg_signed] at this
  have hsub : ∀ x, (Ledger.mk F (tail :: rest)).Held x →
      (Ledger.mk F ((signed s.lits (i, j, k) positive :: tail) :: rest)).Held x :=
    fun x hx => (held_cons ..).mpr (Or.inr hx)
  have hnodup : ((tail :: rest).flatten.map Int.natAbs).Nodup := by
    have := h.nodup
    simp only [List.flatten_cons, List.cons_append, List.map_cons, List.nodup_cons] at this
    simpa only [List.flatten_cons] using this.2
  have hunforced : ∀ level ∈ tail :: rest, ∀ lit ∈ level,
      [lit] ∉ s.formula.cnf ∧ [-lit] ∉ s.formula.cnf := by
    intro level hlevel lit hlit
    rcases List.mem_cons.mp hlevel with rfl | hlevel
    · exact h.unforced _ List.mem_cons_self lit (List.mem_cons_of_mem _ hlit)
    · exact h.unforced level (List.mem_cons_of_mem _ hlevel) lit hlit
  by_cases hfixed : signed s.lits (i, j, k) positive ∈ F
  · -- a literal that is also fixed stays held, and its flag keeps the tables
    have hflag : p.fixedCycleSet i j k = true :=
      (h.flags i j k ho).mpr (Or.inr ⟨positive, hfixed⟩)
    have heq : p.undoLiteral s.table (signed s.lits (i, j, k) positive).natAbs = p := by
      simp only [Propagator.undoLiteral, hlookup, hflag, if_true]
    have hiff : ∀ x, (Ledger.mk F ((signed s.lits (i, j, k) positive :: tail) :: rest)).Held x ↔
        (Ledger.mk F (tail :: rest)).Held x := by
      intro x
      rw [held_cons]
      exact ⟨fun hx => hx.elim (fun hx => Or.inl (hx ▸ hfixed)) id, Or.inr⟩
    rw [heq]
    exact ⟨h.mirrors.congr fun e _ pos => hiff _, h.extra, h.flags,
      fun x hx => h.observed x (hsub x hx), hnodup,
      fun x hx hx' => h.consistent x (hsub x hx) (hsub _ hx'), hunforced⟩
  · have hc : Clean (i, j, k) positive := hclean _ (by simp) hfixed _ _ ho rfl
    have hflag : p.fixedCycleSet i j k = false := by
      rw [← Bool.not_eq_true, h.flags i j k ho, hundo.unflagged i j k positive ho hc]
      rintro (hfalse | ⟨positive', hmem⟩)
      · cases hfalse
      · by_cases hsame : positive' = positive
        · exact hfixed (hsame ▸ hmem)
        · have hneg : positive' = !positive := Bool.eq_not_of_ne hsame
          exact hopp (Or.inl (hneg ▸ hmem))
    have heq : p.undoLiteral s.table (signed s.lits (i, j, k) positive).natAbs =
        { p with currentCycleSet := p.currentCycleSet.undo (i, j, k) } := by
      simp only [Propagator.undoLiteral, hlookup, hflag, Bool.false_eq_true, if_false]
    have hgone : ¬ (Ledger.mk F (tail :: rest)).Held (signed s.lits (i, j, k) positive) := by
      rintro (hF | ⟨level, hlevel, hlit⟩)
      · exact hfixed hF
      · have hhead := h.nodup
        simp only [List.flatten_cons, List.cons_append, List.map_cons, List.nodup_cons] at hhead
        exact hhead.1 (List.mem_map_of_mem (by
          simpa only [List.flatten_cons] using List.mem_flatten.mpr ⟨level, hlevel, hlit⟩))
    rw [heq]
    refine ⟨(h.mirrors.undo ho).congr fun e he pos => ?_,
      hundo.keeps _ _ i j k positive h.mirrors ho hheld hopp hc h.extra, h.flags,
      fun x hx => h.observed x (hsub x hx), hnodup,
      fun x hx hx' => h.consistent x (hsub x hx) (hsub _ hx'), hunforced⟩
    constructor
    · rintro ⟨hh, hne⟩
      refine ((held_cons ..).mp hh).resolve_left fun hsame => hne ?_
      exact (signed_inj hobs he ho hsame).1
    · intro hh
      refine ⟨hsub _ hh, ?_⟩
      rintro rfl
      by_cases hsame : pos = positive
      · exact hgone (hsame ▸ hh)
      · have hneg : pos = !positive := Bool.eq_not_of_ne hsame
        exact hopp (hsub _ (hneg ▸ hh))

/-- Undoing a whole level, literal by literal. -/
theorem Picture.undoLevel (hundo : UndoKeeps s D Clean) {p : Propagator n} {F last : List Int}
    {rest : List (List Int)} (h : Picture s D p ⟨F, last :: rest⟩)
    (hclean : AllClean s Clean F last) :
    Picture s D ((last.map Int.natAbs).foldl (Propagator.undoLiteral s.table) p) ⟨F, rest⟩ := by
  induction last generalizing p with
  | nil =>
    exact ⟨h.mirrors.congr fun e _ pos => held_nil .., h.extra, h.flags,
      fun x hx => h.observed x ((held_nil ..).mpr hx), h.nodup,
      fun x hx hx' => h.consistent x ((held_nil ..).mpr hx) ((held_nil ..).mpr hx'),
      fun level hlevel => h.unforced level (List.mem_cons_of_mem _ hlevel)⟩
  | cons lit tail ih =>
    exact ih (h.undoLiteral hundo fun x hx => hclean x (by simp_all))
      fun x hx => hclean x (List.mem_cons_of_mem _ hx)

/-- `notify_backtrack` closes the levels of the ledger and undoes their literals. -/
theorem Picture.popLevels (hundo : UndoKeeps s D Clean) (newLevel : Nat) {p : Propagator n}
    {F : List Int} {levels : List (List Int)} (h : Picture s D p ⟨F, levels⟩)
    (hclean : AllClean s Clean F (Ledger.undone ⟨F, levels⟩ newLevel)) :
    Picture s D (Propagator.popLevels s.table newLevel (levels.map (·.map Int.natAbs)) p)
      (Ledger.notify ⟨F, levels⟩ (.backtrack newLevel)) ∧
    TrailMatches (Propagator.popLevels s.table newLevel (levels.map (·.map Int.natAbs)) p)
      (Ledger.notify ⟨F, levels⟩ (.backtrack newLevel)) := by
  induction levels generalizing p with
  | nil =>
    have hnotify : Ledger.notify ⟨F, []⟩ (.backtrack newLevel) = ⟨F, []⟩ := by
      simp [Ledger.notify]
    rw [hnotify]
    exact ⟨⟨h.mirrors, h.extra, h.flags, h.observed, h.nodup, h.consistent, h.unforced⟩, rfl⟩
  | cons last rest ih =>
    simp only [List.map_cons, Propagator.popLevels, List.length_map]
    by_cases hlt : newLevel < rest.length
    · have hclosing : Ledger.closing ⟨F, last :: rest⟩ newLevel =
          Ledger.closing ⟨F, rest⟩ newLevel + 1 := by
        simp only [Ledger.closing, List.length_cons]
        omega
      have hundone : Ledger.undone ⟨F, last :: rest⟩ newLevel =
          last ++ Ledger.undone ⟨F, rest⟩ newLevel := by
        simp only [Ledger.undone, hclosing, List.take_succ_cons, List.flatten_cons]
      have hnotify : Ledger.notify ⟨F, last :: rest⟩ (.backtrack newLevel) =
          Ledger.notify ⟨F, rest⟩ (.backtrack newLevel) := by
        simp only [Ledger.notify, hclosing, List.drop_succ_cons]
      rw [hundone] at hclean
      rw [if_pos hlt, hnotify]
      exact ih (h.undoLevel hundo fun x hx => hclean x (List.mem_append_left _ hx))
        fun x hx => hclean x (List.mem_append_right _ hx)
    · have hnotify : Ledger.notify ⟨F, last :: rest⟩ (.backtrack newLevel) =
          ⟨F, last :: rest⟩ := by
        have hzero : Ledger.closing ⟨F, last :: rest⟩ newLevel = 0 := by
          simp only [Ledger.closing, List.length_cons]
          omega
        simp only [Ledger.notify, hzero, List.drop_zero]
      rw [if_neg hlt, hnotify]
      exact ⟨⟨h.mirrors, h.extra, h.flags, h.observed, h.nodup, h.consistent, h.unforced⟩, rfl⟩

end Backtrack

theorem Session.start_matrix (s : Session n) (i j : Fin n) :
    s.start.currentCycleSet.matrix i j =
      if s.cfg.diagPart = true ∧ i = j then some (s.d i) else none := by
  unfold Session.start Propagator.init
  by_cases hd : s.cfg.diagPart = true <;> by_cases hf : 0 < s.cfg.fixedRow <;>
    simp [hd, hf, fixFirstRow, fixDiag, CycleSet.init]

theorem Session.start_assignments (s : Session n) (i j k : Fin n) :
    s.start.currentCycleSet.assignments i j k =
      if s.cfg.diagPart = true ∧ i = j then (if k = s.d i then .isTrue else .isFalse)
      else .unknown := by
  unfold Session.start Propagator.init
  by_cases hd : s.cfg.diagPart = true <;> by_cases hf : 0 < s.cfg.fixedRow <;>
    simp [hd, hf, fixFirstRow, fixDiag, CycleSet.init]

theorem Session.start_flagged (s : Session n) (i j k : Fin n) :
    s.start.fixedCycleSet i j k = true ↔ (s.cfg.diagPart = true ∧ i = j) ∨
      (0 < s.cfg.fixedRow ∧ firstRowCell s.cfg i j = true ∧ k = s.firstRow j) := by
  unfold Session.start Propagator.init
  by_cases hd : s.cfg.diagPart = true <;> by_cases hf : 0 < s.cfg.fixedRow <;>
    simp [hd, hf, fixFirstRow, fixDiag, or_comm]

theorem Session.observed_offDiagonal {s : Session n} {i j k : Fin n}
    (ho : s.observed (i, j, k) = true) : ¬ (s.cfg.diagPart = true ∧ i = j) := by
  rintro ⟨hd, hij⟩
  simp [Session.observed, entryObserved, hd, hij] at ho

theorem Session.offDiagonal (s : Session n) {i j k : Fin n} (ho : s.observed (i, j, k) = true) :
    s.cfg.diagPart = true → i ≠ j :=
  fun hd hij => Session.observed_offDiagonal ho ⟨hd, hij⟩

/-- The constructor leaves the cells of observed entries without any value. -/
theorem Session.start_unknown (s : Session n) {i j k : Fin n} (ho : s.observed (i, j, k) = true)
    (k' : Fin n) : s.start.currentCycleSet.assignments i j k' = .unknown := by
  rw [s.start_assignments, if_neg (Session.observed_offDiagonal ho)]

theorem Session.picture_start (s : Session n) {D : CycleSet n → Prop}
    (hD : D s.start.currentCycleSet) : Picture s D s.start .empty ∧ TrailMatches s.start .empty := by
  have hempty : ∀ x, ¬ Ledger.empty.Held x := fun x => by simp [Ledger.empty, Ledger.Held]
  refine ⟨⟨⟨fun i j k ho => ?_, fun i j k ho => ?_, fun _ _ _ _ => rfl,
    fun i j k => ?_⟩, hD, fun i j k _ => ?_, fun x hx => absurd hx (hempty x), List.nodup_nil,
    fun x hx => absurd hx (hempty x), ?_⟩, ?_⟩
  · simp [s.start_unknown ho, Session.Holds, hempty]
  · simp [s.start_unknown ho, Session.Holds, hempty]
  · rw [s.start_matrix, s.start_assignments]
    by_cases hd : s.cfg.diagPart = true ∧ i = j
    · simp only [if_pos hd, Option.some.injEq]
      by_cases hk : k = s.d i
      · simp [hk]
      · simp [hk, Ne.symm hk]
    · simp [hd]
  · simp [Ledger.empty]
  · simp [Ledger.empty]
  · unfold TrailMatches Session.start Propagator.init
    by_cases hd : s.cfg.diagPart = true <;> by_cases hf : 0 < s.cfg.fixedRow <;>
      simp [hd, hf, fixFirstRow, fixDiag, Ledger.empty]

theorem held_assignment {l : Ledger} (hl : l.levels ≠ []) (lit : Int) (isFixed : Bool) (x : Int) :
    (l.notify (.assignment lit isFixed)).Held x ↔ x = lit ∨ l.Held x := by
  obtain ⟨F, levels⟩ := l
  cases isFixed with
  | true =>
    simp only [Ledger.notify, Ledger.Held, List.mem_cons]
    tauto
  | false =>
    cases levels with
    | nil => exact absurd rfl hl
    | cons last rest =>
      simp only [Ledger.notify, Ledger.Held, List.exists_mem_cons_iff, List.mem_append,
        List.mem_singleton]
      tauto

theorem signed_positive {s : Session n} {e : Entry n} (ho : s.observed e = true)
    (positive : Bool) : decide (0 < signed s.lits e positive) = positive := by
  have := s.observing.pos e ho
  cases positive
  · simp only [signed, Bool.false_eq_true, if_false, decide_eq_false_iff_not]
    omega
  · simpa [signed] using this

/-- One promised notification of a literal. -/
theorem Picture.assignment {s : Session n} {D : CycleSet n → Prop} {p : Propagator n} {l : Ledger}
    (h : Picture s D p l) (hl : l.levels ≠ []) {lit : Int} {isFixed : Bool}
    (hp : s.Promised l (.assignment lit isFixed))
    (hD : ∀ e positive, s.observed e = true → lit = signed s.lits e positive →
      D (p.currentCycleSet.assign e positive)) :
    Picture s D (p.notifyAssignment s.table lit isFixed)
      (l.notify (.assignment lit isFixed)) := by
  obtain ⟨⟨⟨i, j, k⟩, positive, ho, rfl⟩, hfree, hunit, hcell⟩ := hp
  have hobs := s.observing
  have hlookup : (s.table[(signed s.lits (i, j, k) positive).natAbs]?).join = some (i, j, k) := by
    rw [signed_natAbs]
    exact hobs.lookup (i, j, k) ho
  have hopp : ¬ l.Held (-signed s.lits (i, j, k) positive) := by
    rcases hfree with hfree | ⟨-, hheld⟩
    · exact hfree.2
    · exact h.consistent _ hheld
  have hvalues : positive = true → ∀ k', k' ≠ k → p.currentCycleSet.matrix i j ≠ some k' := by
    rintro rfl k' hk' hm
    have htrue := (h.mirrors.matrix i j k').mp hm
    by_cases ho' : s.observed (i, j, k') = true
    · exact hcell i j k k' rfl hk' ((h.mirrors.isTrue i j k' ho').mp htrue)
    · rw [h.mirrors.other i j k' (by simpa using ho'), s.start_unknown ho] at htrue
      cases htrue
  rw [Propagator.notifyAssignment_of_lookup hlookup, signed_positive ho]
  refine ⟨(h.mirrors.assign ho (by simpa [Session.Holds, ← neg_signed] using hopp) hvalues).congr
      fun e he pos => ?_, hD _ _ ho rfl, fun i' j' k' ho' => ?_, fun x hx => ?_, ?_,
      fun x hx hx' => ?_, ?_⟩
  · unfold Session.Holds
    rw [held_assignment hl, or_comm]
    refine or_congr_left ⟨?_, fun hsame => signed_inj hobs he ho hsame⟩
    rintro ⟨rfl, rfl⟩
    rfl
  · simp only [Bool.or_eq_true, Bool.and_eq_true, beq_iff_eq, h.flags i' j' k' ho']
    cases isFixed with
    | false =>
      have hfixed : (l.notify (.assignment (signed s.lits (i, j, k) positive) false)).fixed =
          l.fixed := by
        cases hlev : l.levels <;> simp [Ledger.notify, hlev]
      simp [hfixed]
    | true =>
      simp only [Ledger.notify, List.mem_cons, true_and]
      constructor
      · rintro (he | hs | ⟨pos, hmem⟩)
        · exact Or.inr ⟨positive, Or.inl (by rw [he])⟩
        · exact Or.inl hs
        · exact Or.inr ⟨pos, Or.inr hmem⟩
      · rintro (hs | ⟨pos, hsame | hmem⟩)
        · exact Or.inr (Or.inl hs)
        · exact Or.inl (signed_inj hobs ho' ho hsame).1
        · exact Or.inr (Or.inr ⟨pos, hmem⟩)
  · rcases (held_assignment hl _ _ _).mp hx with rfl | hx
    · exact ⟨_, _, ho, rfl⟩
    · exact h.observed x hx
  · obtain ⟨F, levels⟩ := l
    cases isFixed with
    | true => exact h.nodup
    | false =>
      cases levels with
      | nil => exact absurd rfl hl
      | cons last rest =>
        have hnew : (signed s.lits (i, j, k) positive).natAbs ∉
            (last ++ rest.flatten).map Int.natAbs := by
          intro hmem
          obtain ⟨x, hx, habs⟩ := List.mem_map.mp hmem
          have hheld : (Ledger.mk F (last :: rest)).Held x :=
            Or.inr (List.mem_flatten.mp (by simpa only [List.flatten_cons] using hx))
          rcases hfree with hfree | ⟨hfalse, -⟩
          · rcases Int.natAbs_eq_natAbs_iff.mp habs with rfl | rfl
            · exact hfree.1 hheld
            · exact hfree.2 hheld
          · cases hfalse
        simp only [Ledger.notify, List.flatten_cons, List.append_assoc, List.singleton_append]
        refine (List.perm_middle.map Int.natAbs).nodup_iff.mpr ?_
        rw [List.map_cons, List.nodup_cons]
        exact ⟨hnew, by simpa only [List.flatten_cons] using h.nodup⟩
  · rcases (held_assignment hl _ _ _).mp hx with rfl | hx <;>
      rcases (held_assignment hl _ _ _).mp hx' with hsame | hx'
    · have := signed_ne_zero hobs ho positive
      omega
    · exact hopp hx'
    · obtain rfl : x = -signed s.lits (i, j, k) positive := by omega
      exact hopp hx
    · exact h.consistent x hx hx'
  · obtain ⟨F, levels⟩ := l
    cases isFixed with
    | true => exact h.unforced
    | false =>
      cases levels with
      | nil => exact absurd rfl hl
      | cons last rest =>
        intro level hlevel lit hlit
        rcases List.mem_cons.mp hlevel with rfl | hlevel
        · rcases List.mem_append.mp hlit with hlit | hlit
          · exact h.unforced last List.mem_cons_self lit hlit
          · obtain rfl := List.mem_singleton.mp hlit
            exact not_or.mp fun hu => Bool.false_ne_true (hunit hu)
        · exact h.unforced level (List.mem_cons_of_mem _ hlevel) lit hlit

theorem TrailMatches.assignment {s : Session n} {p : Propagator n} {l : Ledger}
    (h : TrailMatches p l) {lit : Int} {isFixed : Bool}
    (hp : s.Promised l (.assignment lit isFixed)) :
    TrailMatches (p.notifyAssignment s.table lit isFixed)
      (l.notify (.assignment lit isFixed)) := by
  obtain ⟨⟨e, positive, ho, rfl⟩, -⟩ := hp
  have hlookup : (s.table[(signed s.lits e positive).natAbs]?).join = some e := by
    rw [signed_natAbs]
    exact s.observing.lookup e ho
  obtain ⟨F, levels⟩ := l
  unfold TrailMatches at h ⊢
  simp only [Propagator.notifyAssignment, hlookup]
  cases isFixed with
  | true => exact h
  | false => cases levels <;> simp_all [Ledger.notify]

/-- The whole invariant of a run. -/
structure Follows (s : Session n) (D : CycleSet n → Prop) (p : Propagator n) (l : Ledger) :
    Prop where
  picture : Picture s D p l
  trail : TrailMatches p l
  opened : l.levels ≠ []

/-- What one allowed notification must know so that the further invariant `D` is kept. -/
structure StepKeeps (s : Session n) (D : CycleSet n → Prop) (Clean : Entry n → Bool → Prop)
    (allowed : Ledger → Notification → Prop) : Prop where
  promised : ∀ l e, allowed l e → s.Promised l e
  clean : ∀ p l newLevel, Picture s D p l → allowed l (.backtrack newLevel) →
    AllClean s Clean l.fixed (l.undone newLevel)
  assign : ∀ p l lit isFixed, Picture s D p l → allowed l (.assignment lit isFixed) →
    ∀ e positive, s.observed e = true → lit = signed s.lits e positive →
      D (p.currentCycleSet.assign e positive)

theorem Follows.notify {s : Session n} {D : CycleSet n → Prop} {Clean : Entry n → Bool → Prop}
    {allowed : Ledger → Notification → Prop} (hundo : UndoKeeps s D Clean)
    (hstep : StepKeeps s D Clean allowed) (p : Propagator n) (l : Ledger) (e : Notification)
    (h : Follows s D p l) (hallowed : allowed l e) :
    Follows s D (p.notify s.table e) (l.notify e) := by
  obtain ⟨hpic, htrail, hopen⟩ := h
  have hp := hstep.promised l e hallowed
  cases e with
  | assignment lit isFixed =>
    refine ⟨hpic.assignment hopen hp (hstep.assign p l lit isFixed hpic hallowed),
      htrail.assignment hp, ?_⟩
    cases isFixed
    · cases hlev : l.levels with
      | nil => exact absurd hlev hopen
      | cons last rest => simp [Ledger.notify, hlev]
    · exact hopen
  | newDecisionLevel =>
    refine ⟨⟨hpic.mirrors.congr fun e _ pos => (held_nil _ _ _).symm, hpic.extra, hpic.flags,
      fun x hx => hpic.observed x ((held_nil _ _ _).mp hx), hpic.nodup,
      fun x hx hx' => hpic.consistent x ((held_nil _ _ _).mp hx) ((held_nil _ _ _).mp hx'), ?_⟩,
      ?_, by simp [Ledger.notify]⟩
    · intro level hlevel
      rcases List.mem_cons.mp hlevel with rfl | hlevel
      · simp
      · exact hpic.unforced level hlevel
    · have heq : p.currentTrail = l.levels.map (·.map Int.natAbs) := htrail
      simp [TrailMatches, Ledger.notify, Propagator.notify, Propagator.notifyNewDecisionLevel, heq]
  | backtrack newLevel =>
    have hpop := hpic.popLevels hundo newLevel (hstep.clean p l newLevel hpic hallowed)
    have heq : p.currentTrail = l.levels.map (·.map Int.natAbs) := htrail
    simp only [Propagator.notify, Propagator.notifyBacktrack, heq]
    refine ⟨hpop.1, hpop.2, ?_⟩
    have hlen := List.length_pos_iff.mpr hopen
    simp only [Ledger.notify, Ledger.closing, ← List.length_pos_iff, List.length_drop]
    omega

/-- Every allowed run keeps the picture. -/
theorem Session.follows {s : Session n} {D : CycleSet n → Prop} {Clean : Entry n → Bool → Prop}
    {allowed : Ledger → Notification → Prop} (hundo : UndoKeeps s D Clean)
    (hstep : StepKeeps s D Clean allowed) (hD : D s.start.currentCycleSet)
    {run : List Notification} (hrun : Ledger.Run allowed .empty run) :
    Follows s D (s.after run) (Ledger.empty.after run) := by
  obtain ⟨hpic, htrail⟩ := s.picture_start hD
  exact Ledger.Run.invariant (fun p l e => Follows.notify hundo hstep p l e) hrun
    ⟨hpic, htrail, by simp [Ledger.empty]⟩

/-- Away from the diagonal the entries without an observed variable have no variable at all. -/
theorem Session.lits_of_not_observed (s : Session n) {i j k : Fin n} (hij : s.cfg.diagPart = true → i ≠ j)
    (ho : s.observed (i, j, k) = false) : s.lits i j k = 0 := by
  cases hd : s.cfg.diagPart with
  | false => simp [Session.observed, entryObserved, hd] at ho
  | true =>
    have hlits : s.lits = (encodeDiagonal s.cfg s.d).lits := by
      simp only [Session.lits, Session.formula, mainFormula, if_pos hd]
    rw [hlits]
    by_contra h0
    have hkept := ((encodeDiagonal_lits s.cfg s.d).nonzero i j k).mp h0
    cases hs : s.cfg.smallerEncoding <;>
      simp_all [Session.observed, entryObserved, entryKept]

/-- A value of an off-diagonal cell in the picture is held by an observed entry. -/
theorem Picture.held_of_matrix {s : Session n} {D : CycleSet n → Prop} {p : Propagator n}
    {l : Ledger} (h : Picture s D p l) {i j k : Fin n} (hij : s.cfg.diagPart = true → i ≠ j)
    (hm : p.currentCycleSet.matrix i j = some k) :
    s.observed (i, j, k) = true ∧ l.Held (s.lits i j k) := by
  have htrue := (h.mirrors.matrix i j k).mp hm
  by_cases ho : s.observed (i, j, k) = true
  · exact ⟨ho, (h.mirrors.isTrue i j k ho).mp htrue⟩
  · rw [h.mirrors.other i j k (by simpa using ho), s.start_assignments,
      if_neg fun hc => hij hc.1 hc.2] at htrue
    cases htrue

end YbeSms.Source
