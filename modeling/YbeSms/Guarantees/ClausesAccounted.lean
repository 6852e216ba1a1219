import YbeSms.Source.ClauseQueue

/-!
# No clause is lost, split or mixed

Source: ybe-sms/src/solveCadicalClass.hpp:99-104, 271-305, 321-397. What happened
to the clauses is read off the calls and their answers (and off the reason slot
when a clause goes there); the queue has to agree with it after every call.
-/

namespace YbeSms.Guarantees

open YbeSms.Library YbeSms.Abstract YbeSms.Source

variable {n : Nat}

/-- A clause taken out of the queue by a `cb_propagate` that answered `lit`. -/
structure Removal (n : Nat) where
  lit : Int
  clause : Clause
  picture : CycleSet n

/-- The removal a moment shows: the clause is the one put into the slot of the answer. -/
def removal? (m : Moment n) : Option (Removal n) :=
  match m.call with
  | .propagate _ _ =>
    if m.answer = 0 then none
    else some ⟨m.answer, m.after.reason m.answer, m.before.propagator.currentCycleSet⟩
  | _ => none

theorem removal_eq {m : Moment n} {r : Removal n} (h : removal? m = some r) :
    r.lit ≠ 0 ∧ r.clause = m.after.reason r.lit := by
  unfold removal? at h
  split at h
  · split at h
    · cases h
    · rename_i hne
      obtain rfl := Option.some.inj h
      exact ⟨hne, rfl⟩
  · cases h

/-- What has happened to the clauses passed so far. `reading` holds the literals read of the
clause that is being streamed. -/
structure Account (n : Nat) where
  passed : List Clause
  reading : Option (List Int)
  streamed : List Clause
  removed : List (Removal n)

namespace Account

def start (n : Nat) : Account n := ⟨[], none, [], []⟩

/-- The literals of a clause are read from its end. -/
def record (cfg : Config) (a : Account n) (m : Moment n) : Account n :=
  let a' := { a with
    passed := a.passed ++ m.before.passes cfg m.call
    removed := a.removed ++ (removal? m).toList }
  match m.call with
  | .addExternalClauseLit =>
    if m.answer = 0 then
      { a' with reading := none, streamed := a.streamed ++ [(a.reading.getD []).reverse] }
    else { a' with reading := some (a.reading.getD [] ++ [m.answer]) }
  | _ => a'

/-- A solver that has begun to read a clause reads on; only notifications may come between. -/
def allows (a : Account n) : Call → Bool
  | .addExternalClauseLit => true
  | .notify _ => true
  | _ => a.reading.isNone

/-- The clauses still queued. -/
def queued (a : Account n) (q : ClauseQueue n) : List Clause :=
  if a.reading = none then q.clauses else q.clauses.tail

/-- The clause being streamed, with the literals already read. -/
def streaming (a : Account n) (q : ClauseQueue n) : List Clause :=
  match a.reading with
  | none => []
  | some lits => (q.clauses.head?.map (· ++ lits.reverse)).toList

end Account

/-- The moments follow each other as a solver makes them. -/
def Disciplined (cfg : Config) : Account n → List (Moment n) → Prop
  | _, [] => True
  | a, m :: rest => a.allows m.call = true ∧ Disciplined cfg (a.record cfg m) rest

instance (cfg : Config) : (a : Account n) → (ms : List (Moment n)) →
    Decidable (Disciplined cfg a ms)
  | _, [] => inferInstanceAs (Decidable True)
  | a, m :: rest =>
    have : Decidable (Disciplined cfg (a.record cfg m) rest) := instDecidableDisciplined cfg _ rest
    inferInstanceAs (Decidable (_ ∧ _))

def finalAccount (cfg : Config) (ms : List (Moment n)) : Account n :=
  ms.foldl (Account.record cfg) (Account.start n)

/-- Every literal of a passed clause is about an entry. -/
def Known (cfg : Config) (table : List (Option (Entry n))) (m : Moment n) : Prop :=
  ∀ clause ∈ m.before.passes cfg m.call, ∀ l ∈ clause, (table[l.natAbs]?).join.isSome

instance (cfg : Config) (table : List (Option (Entry n))) (m : Moment n) :
    Decidable (Known cfg table m) :=
  inferInstanceAs (Decidable (∀ clause ∈ m.before.passes cfg m.call,
    ∀ l ∈ clause, (table[l.natAbs]?).join.isSome))

/-- The clause forces its literal: the only one on an unassigned variable, the others false. -/
structure Forces (table : List (Option (Entry n))) (r : Removal n) : Prop where
  once : r.clause.count r.lit = 1
  unassigned : r.picture.truthOf table r.lit = .unknown
  others : ∀ l ∈ r.clause, l ≠ r.lit →
    (l < 0 ∧ r.picture.truthOf table l = .isTrue) ∨ (0 < l ∧ r.picture.truthOf table l = .isFalse)

/-- The answers to the reads of the reason of `plit`. -/
def reasonAnswers (plit : Int) (ms : List (Moment n)) : List Int :=
  ms.filterMap fun m => match m.call with
    | .addReasonClauseLit l => if l = plit then some m.answer else none
    | _ => none

/-- The queue agrees with the account. -/
structure Accounted (a : Account n) (q : ClauseQueue n) : Prop where
  partition : a.passed.Perm
    (a.queued q ++ a.streaming q ++ a.streamed ++ a.removed.map Removal.clause)
  reading : a.reading ≠ none → q.clauses ≠ []
  nonzero : ∀ clause ∈ q.clauses, ∀ l ∈ clause, l ≠ 0

theorem foldl_addClause (ls : List Clause) (q : ClauseQueue n) :
    ls.foldl ClauseQueue.addClause q = { q with clauses := ls.reverse ++ q.clauses } := by
  induction ls generalizing q with
  | nil => rfl
  | cons c rest ih => rw [List.foldl_cons, ih]; simp [ClauseQueue.addClause]

theorem reason_setReason (q : ClauseQueue n) (u v : Int) (clause : Clause) :
    (q.setReason u clause).reason v = if v = u then clause else q.reason v := by
  unfold ClauseQueue.setReason ClauseQueue.reason
  by_cases hpu : 0 < u <;> by_cases hpv : 0 < v <;>
    simp only [hpu, hpv, if_true, if_false, Function.update_apply] <;> grind

@[simp] theorem setReason_clauses (q : ClauseQueue n) (u : Int) (clause : Clause) :
    (q.setReason u clause).clauses = q.clauses := by
  unfold ClauseQueue.setReason
  split <;> rfl

@[simp] theorem setReason_propagator (q : ClauseQueue n) (u : Int) (clause : Clause) :
    (q.setReason u clause).propagator = q.propagator := by
  unfold ClauseQueue.setReason
  split <;> rfl

/-- The scan of a clause without a satisfied literal counts its unknown literals. -/
theorem scanClause_spec (truth : Int → TruthVal) (clause : Clause) (k : Nat) (u : Int) {k' : Nat}
    {u' : Int} (h : scanClause truth clause k u = some (k', u')) :
    (∀ l ∈ clause, truth l = .unknown ∨ (truth l = .isTrue ∧ ¬ 0 < l) ∨
      (truth l = .isFalse ∧ ¬ l < 0)) ∧
    k' = k + (clause.filter (truth · = .unknown)).length ∧
    u' = (clause.filter (truth · = .unknown)).getLastD u := by
  induction clause generalizing k u with
  | nil =>
    obtain ⟨rfl, rfl⟩ : k = k' ∧ u = u' := by simpa [scanClause] using h
    simp
  | cons l rest ih =>
    rw [scanClause] at h
    cases hl : truth l with
    | unknown =>
      simp only [hl] at h
      obtain ⟨hall, hk, hu⟩ := ih (k + 1) l h
      refine ⟨fun x hx => ?_, ?_, ?_⟩
      · rcases List.mem_cons.mp hx with rfl | hx
        · exact Or.inl hl
        · exact hall x hx
      · simp only [List.filter_cons, hl, decide_true, if_true, List.length_cons]
        omega
      · simp only [List.filter_cons, hl, decide_true, if_true, List.getLastD_cons]
        exact hu
    | isTrue =>
      simp only [hl] at h
      split at h
      · cases h
      · rename_i hneg
        obtain ⟨hall, hk, hu⟩ := ih k u h
        refine ⟨fun x hx => ?_, ?_, ?_⟩
        · rcases List.mem_cons.mp hx with rfl | hx
          · exact Or.inr (Or.inl ⟨hl, hneg⟩)
          · exact hall x hx
        · simpa [List.filter_cons, hl] using hk
        · simpa [List.filter_cons, hl] using hu
    | isFalse =>
      simp only [hl] at h
      split at h
      · cases h
      · rename_i hpos
        obtain ⟨hall, hk, hu⟩ := ih k u h
        refine ⟨fun x hx => ?_, ?_, ?_⟩
        · rcases List.mem_cons.mp hx with rfl | hx
          · exact Or.inr (Or.inr ⟨hl, hpos⟩)
          · exact hall x hx
        · simpa [List.filter_cons, hl] using hk
        · simpa [List.filter_cons, hl] using hu

/-- A scan that finds one unknown literal finds a forced one. -/
theorem forces_of_scan (table : List (Option (Entry n))) (c : CycleSet n) (clause : Clause)
    (u : Int) (hne : ∀ l ∈ clause, l ≠ 0)
    (h : scanClause (c.truthOf table) clause 0 0 = some (1, u)) :
    Forces table ⟨u, clause, c⟩ := by
  obtain ⟨hall, hk, hu⟩ := scanClause_spec _ _ _ _ h
  obtain ⟨w, hw⟩ := List.length_eq_one_iff.mp (by omega :
    (clause.filter (c.truthOf table · = .unknown)).length = 1)
  obtain rfl : u = w := by simpa [hw] using hu
  have hmem : u ∈ clause ∧ c.truthOf table u = .unknown := by
    have : u ∈ clause.filter (c.truthOf table · = .unknown) := by rw [hw]; simp
    simpa using this
  refine ⟨?_, hmem.2, fun l hl hlu => ?_⟩
  · have hcount : (clause.filter (c.truthOf table · = .unknown)).count u = clause.count u :=
      List.count_filter (by simpa using hmem.2)
    rw [← hcount, hw]
    simp
  · have h0 := hne l hl
    rcases hall l hl with hun | ⟨ht, hneg⟩ | ⟨hf, hpos⟩
    · have : l ∈ clause.filter (c.truthOf table · = .unknown) := by simp [hl, hun]
      rw [hw] at this
      exact absurd (List.mem_singleton.mp this) hlu
    · exact Or.inl ⟨by omega, ht⟩
    · exact Or.inr ⟨by omega, hf⟩

/-- Passing clauses between two reads queues them. -/
theorem Accounted.pass {a : Account n} {q : ClauseQueue n} (h : Accounted a q)
    (hr : a.reading = none) (ls : List Clause) (hls : ∀ c ∈ ls, ∀ l ∈ c, l ≠ 0) :
    Accounted { a with passed := a.passed ++ ls } (ls.foldl ClauseQueue.addClause q) := by
  rw [foldl_addClause]
  refine ⟨List.perm_iff_count.mpr fun c => ?_, fun hne => absurd hr hne, fun c hc => ?_⟩
  · have hp := h.partition.count_eq c
    simp only [Account.queued, Account.streaming, hr, if_true, List.count_append, List.count_nil,
      List.count_reverse] at hp ⊢
    omega
  · rcases List.mem_append.mp hc with hc | hc
    · exact hls c (List.mem_reverse.mp hc)
    · exact h.nonzero c hc

/-- The other fields of the queue do not matter. -/
theorem Accounted.congr {a : Account n} {q q' : ClauseQueue n} (h : Accounted a q)
    (hq : q'.clauses = q.clauses) : Accounted a q' := by
  have hqueued : a.queued q' = a.queued q := by simp only [Account.queued, hq]
  have hstreaming : a.streaming q' = a.streaming q := by simp only [Account.streaming, hq]
  exact ⟨by rw [hqueued, hstreaming]; exact h.partition, by rw [hq]; exact h.reading,
    by rw [hq]; exact h.nonzero⟩

/-- `cb_propagate` leaves the queue or takes its last clause, in which it found one unknown
literal. -/
theorem propagateLast_cases {table : List (Option (Entry n))} {q q' : ClauseQueue n} {u : Int}
    (h : q.propagateLast table = some (q', u)) :
    (u = 0 ∧ q' = q) ∨
    ∃ lastClause rest, q.clauses = lastClause :: rest ∧
      q' = { q with clauses := rest }.setReason u lastClause ∧
      scanClause (q.propagator.currentCycleSet.truthOf table) lastClause 0 0 = some (1, u) := by
  unfold ClauseQueue.propagateLast at h
  split at h
  · obtain ⟨rfl, rfl⟩ : q = q' ∧ 0 = u := by simpa using h
    exact Or.inl ⟨rfl, rfl⟩
  · rename_i lastClause rest hcl
    split at h
    · cases h
    · split at h
      · obtain ⟨rfl, rfl⟩ : q = q' ∧ 0 = u := by simpa using h
        exact Or.inl ⟨rfl, rfl⟩
      · rename_i nUnknown unassigned hscan
        split at h
        · rename_i hone
          subst hone
          obtain ⟨rfl, rfl⟩ : _ = q' ∧ unassigned = u := by simpa using h
          exact Or.inr ⟨lastClause, rest, hcl, rfl, hscan⟩
        · obtain ⟨rfl, rfl⟩ : q = q' ∧ 0 = u := by simpa using h
          exact Or.inl ⟨rfl, rfl⟩

/-- Reading one literal of an external clause. -/
theorem Accounted.read {cfg : Config} {table : List (Option (Entry n))} {a : Account n}
    {q q' : ClauseQueue n} {ans : Int} (h : Accounted a q)
    (hstep : q.step cfg table .addExternalClauseLit = some (q', ans)) :
    Accounted (a.record cfg ⟨q, .addExternalClauseLit, ans, q'⟩) q' := by
  simp only [ClauseQueue.step] at hstep
  split at hstep
  · cases hstep
  rename_i lastClause rest hcl
  have hnz := h.nonzero
  rw [hcl] at hnz
  have hp := fun c => h.partition.count_eq c
  simp only [Account.queued, Account.streaming, hcl] at hp
  split at hstep
  · -- the closing 0: what has been read is the whole clause
    rename_i hlast
    obtain ⟨rfl, rfl⟩ : _ = q' ∧ 0 = ans := by simpa using hstep
    obtain rfl : lastClause = [] := List.getLast?_eq_none_iff.mp hlast
    refine ⟨List.perm_iff_count.mpr fun c => ?_, by simp [Account.record],
      fun c hc => hnz c (List.mem_cons_of_mem _ hc)⟩
    have hc := hp c
    cases hr : a.reading with
    | none =>
      simp [Account.record, Account.queued, Account.streaming, removal?, ClauseQueue.passes, hr,
        List.count_cons] at hc ⊢
      omega
    | some lits =>
      simp [Account.record, Account.queued, Account.streaming, removal?, ClauseQueue.passes, hr,
        List.count_cons] at hc ⊢
      omega
  · rename_i lit hlast
    obtain ⟨rfl, rfl⟩ : _ = q' ∧ lit = ans := by simpa using hstep
    have hwhole : lastClause.dropLast ++ [lit] = lastClause :=
      List.dropLast_append_getLast? lit hlast
    have hlit : lit ≠ 0 := hnz lastClause (by simp) lit (by rw [← hwhole]; simp)
    refine ⟨List.perm_iff_count.mpr fun c => ?_, by simp, fun c hc l hl => ?_⟩
    · have hc := hp c
      cases hr : a.reading with
      | none =>
        simp [Account.record, Account.queued, Account.streaming, removal?, ClauseQueue.passes, hr,
          hlit, hwhole, List.count_cons] at hc ⊢
        omega
      | some lits =>
        have hmore : lastClause.dropLast ++ (lit :: lits.reverse) = lastClause ++ lits.reverse := by
          rw [List.append_cons, hwhole]
        simp [Account.record, Account.queued, Account.streaming, removal?, ClauseQueue.passes, hr,
          hlit, hmore, List.count_cons] at hc ⊢
        omega
    · rcases List.mem_cons.mp hc with rfl | hc
      · exact hnz lastClause (by simp) l (List.mem_of_mem_dropLast hl)
      · exact hnz c (by simp [hc]) l hl

/-- A call other than a read of an external clause records what it passes and removes. -/
theorem record_other (cfg : Config) (a : Account n) (m : Moment n)
    (h : m.call ≠ .addExternalClauseLit) :
    a.record cfg m = { a with
      passed := a.passed ++ m.before.passes cfg m.call
      removed := a.removed ++ (removal? m).toList } := by
  unfold Account.record
  split
  · exact absurd ‹_› h
  · rfl

theorem record_quiet (cfg : Config) (a : Account n) (m : Moment n)
    (h : m.call ≠ .addExternalClauseLit) (hr : removal? m = none) :
    a.record cfg m = { a with passed := a.passed ++ m.before.passes cfg m.call } := by
  rw [record_other cfg a m h, hr, Option.toList_none, List.append_nil]

/-- What one call does: the account stays right, and a removed clause forces its literal. -/
theorem Accounted.step {cfg : Config} {table : List (Option (Entry n))} {a : Account n}
    {q q' : ClauseQueue n} {call : Call} {ans : Int} (h : Accounted a q)
    (hstep : q.step cfg table call = some (q', ans)) (hallows : a.allows call = true)
    (hnz : ∀ c ∈ q.passes cfg call, ∀ l ∈ c, l ≠ 0) :
    Accounted (a.record cfg ⟨q, call, ans, q'⟩) q' ∧
      ∀ r, removal? ⟨q, call, ans, q'⟩ = some r → Forces table r := by
  cases call with
  | addClause clause =>
    obtain ⟨rfl, rfl⟩ : _ = q' ∧ 0 = ans := by simpa [ClauseQueue.step] using hstep
    rw [record_quiet cfg a _ (by simp) rfl]
    exact ⟨h.pass (Option.isNone_iff_eq_none.mp hallows) _ hnz, by simp [removal?]⟩
  | hasExternalClause found =>
    simp only [ClauseQueue.step, Option.some.injEq, Prod.mk.injEq] at hstep
    obtain ⟨rfl, -⟩ := hstep
    rw [record_quiet cfg a _ (by simp) rfl]
    exact ⟨(h.pass (Option.isNone_iff_eq_none.mp hallows) _ hnz).congr rfl, by simp [removal?]⟩
  | addExternalClauseLit => exact ⟨h.read hstep, by simp [removal?]⟩
  | propagate timeUp found =>
    have hread : a.reading = none := Option.isNone_iff_eq_none.mp hallows
    have hpass := h.pass hread _ hnz
    simp only [ClauseQueue.step] at hstep
    split at hstep
    · rename_i hquiet
      obtain ⟨rfl, rfl⟩ : q = q' ∧ 0 = ans := by simpa using hstep
      have hnone : q.passes cfg (.propagate timeUp found) = [] := by
        simp only [ClauseQueue.passes]
        rw [if_neg]
        intro hcond
        simp only [Bool.and_eq_true, Bool.not_eq_true'] at hcond
        simp [hcond] at hquiet
      rw [record_quiet cfg a _ (by simp) (by simp [removal?])]
      exact ⟨by simpa only [hnone, List.append_nil] using h, by simp [removal?]⟩
    · rcases propagateLast_cases hstep with ⟨rfl, rfl⟩ | ⟨lastClause, rest, hcl, rfl, hscan⟩
      · rw [record_quiet cfg a _ (by simp) (by simp [removal?])]
        exact ⟨hpass, by simp [removal?]⟩
      · have hnz' := hpass.nonzero lastClause (by rw [hcl]; simp)
        have hforces := forces_of_scan table _ lastClause ans hnz' hscan
        have hne : ans ≠ 0 := hnz' ans (List.count_pos_iff.mp (by rw [hforces.once]; omega))
        have hreason : (ClauseQueue.setReason { (q.passes cfg (.propagate timeUp found)).foldl
            ClauseQueue.addClause q with clauses := rest } ans lastClause).reason ans =
            lastClause := by
          rw [reason_setReason, if_pos rfl]
        have hpicture : ((q.passes cfg (.propagate timeUp found)).foldl
            ClauseQueue.addClause q).propagator = q.propagator := by rw [foldl_addClause]
        rw [hpicture] at hforces
        rw [record_other cfg a _ (by simp)]
        simp only [removal?, hne, if_false, hreason, Option.toList_some, Option.some.injEq]
        refine ⟨⟨List.perm_iff_count.mpr fun c => ?_, fun hr => absurd hread hr, fun c hc => ?_⟩,
          fun r hr => hr ▸ hforces⟩
        · have hp := hpass.partition.count_eq c
          simp [Account.queued, Account.streaming, hread, hcl, List.count_cons] at hp ⊢
          omega
        · exact hpass.nonzero c (by rw [hcl]; exact List.mem_cons_of_mem _ (by simpa using hc))
  | addReasonClauseLit plit =>
    rw [record_quiet cfg a _ (by simp) rfl]
    simp only [ClauseQueue.passes, List.append_nil]
    refine ⟨?_, by simp [removal?]⟩
    simp only [ClauseQueue.step] at hstep
    split at hstep
    · obtain ⟨rfl, -⟩ : q = q' ∧ 0 = ans := by simpa using hstep
      exact h
    · obtain ⟨rfl, -⟩ : _ = q' ∧ _ = ans := by simpa using hstep
      exact h.congr (setReason_clauses _ _ _)
  | notify e =>
    obtain ⟨rfl, -⟩ : _ = q' ∧ 0 = ans := by simpa [ClauseQueue.step] using hstep
    rw [record_quiet cfg a _ (by simp) rfl]
    simp only [ClauseQueue.passes, List.append_nil]
    exact ⟨h.congr rfl, by simp [removal?]⟩

/-- The account of a run is right at its end, and what it removed was forced. -/
theorem Accounted.run {cfg : Config} {table : List (Option (Entry n))} {a : Account n}
    {q : ClauseQueue n} {calls : List Call} {ms : List (Moment n)} (h : Accounted a q)
    (hforced : ∀ r ∈ a.removed, Forces table r) (hrun : moments cfg table q calls = some ms)
    (hdisc : Disciplined cfg a ms) (hnz : ∀ m ∈ ms, ∀ c ∈ m.before.passes cfg m.call,
      ∀ l ∈ c, l ≠ 0) :
    Accounted (ms.foldl (Account.record cfg) a) (finalQueue q ms) ∧
      ∀ r ∈ (ms.foldl (Account.record cfg) a).removed, Forces table r := by
  induction calls generalizing a q ms with
  | nil =>
    obtain rfl : [] = ms := by simpa [moments] using hrun
    exact ⟨h, hforced⟩
  | cons call rest ih =>
    obtain ⟨q', ans, ms', hstep, hrest, rfl⟩ := moments_cons hrun
    obtain ⟨hallows, hdisc⟩ := hdisc
    obtain ⟨hnext, hremoved⟩ := h.step hstep hallows (hnz _ List.mem_cons_self)
    have hforced' : ∀ r ∈ (a.record cfg ⟨q, call, ans, q'⟩).removed, Forces table r := by
      intro r hr
      by_cases hcall : call = .addExternalClauseLit
      · subst hcall
        have hkeep : (a.record cfg ⟨q, .addExternalClauseLit, ans, q'⟩).removed = a.removed := by
          simp only [Account.record, removal?]
          split <;> simp
        exact hforced r (hkeep ▸ hr)
      · rw [record_other cfg a _ hcall] at hr
        rcases List.mem_append.mp hr with hr | hr
        · exact hforced r hr
        · exact hremoved r (by simpa using hr)
    have hnz' : ∀ m ∈ ms', ∀ c ∈ m.before.passes cfg m.call, ∀ l ∈ c, l ≠ 0 :=
      fun m hm => hnz m (List.mem_cons_of_mem _ hm)
    have hend := ih hnext hforced' hrest hdisc hnz'
    exact hend

/-- A call that neither reads the reason of `u` nor stores one leaves it. -/
theorem reason_step {cfg : Config} {table : List (Option (Entry n))} {q q' : ClauseQueue n}
    {call : Call} {ans u : Int} (hu : u ≠ 0) (hstep : q.step cfg table call = some (q', ans))
    (hread : call ≠ .addReasonClauseLit u)
    (hstore : ∀ r, removal? ⟨q, call, ans, q'⟩ = some r → r.lit ≠ u) :
    q'.reason u = q.reason u := by
  have hpush : ∀ ls : List Clause, (ls.foldl ClauseQueue.addClause q).reason u = q.reason u :=
    fun ls => by rw [foldl_addClause]; rfl
  cases call with
  | addClause clause =>
    obtain ⟨rfl, -⟩ : _ = q' ∧ 0 = ans := by simpa [ClauseQueue.step] using hstep
    exact hpush _
  | hasExternalClause found =>
    simp only [ClauseQueue.step, Option.some.injEq, Prod.mk.injEq] at hstep
    obtain ⟨rfl, -⟩ := hstep
    exact hpush _
  | addExternalClauseLit =>
    simp only [ClauseQueue.step] at hstep
    split at hstep
    · cases hstep
    · split at hstep <;> obtain ⟨rfl, -⟩ : _ = q' ∧ _ = ans := by simpa using hstep
      · rfl
      · rfl
  | propagate timeUp found =>
    simp only [ClauseQueue.step] at hstep
    split at hstep
    · obtain ⟨rfl, -⟩ : q = q' ∧ 0 = ans := by simpa using hstep
      rfl
    · rcases propagateLast_cases hstep with ⟨-, rfl⟩ | ⟨lastClause, rest, -, rfl, -⟩
      · exact hpush _
      · have hne : u ≠ ans := by
          rintro rfl
          exact hstore ⟨u, _, _⟩ (by simp only [removal?, hu, if_false]; rfl) rfl
        rw [reason_setReason, if_neg hne]
        exact hpush _
  | addReasonClauseLit plit =>
    simp only [ClauseQueue.step] at hstep
    split at hstep
    · obtain ⟨rfl, -⟩ : q = q' ∧ 0 = ans := by simpa using hstep
      rfl
    · obtain ⟨rfl, -⟩ : _ = q' ∧ _ = ans := by simpa using hstep
      rw [reason_setReason, if_neg fun h => hread (by rw [h])]
  | notify e =>
    obtain ⟨rfl, -⟩ : _ = q' ∧ 0 = ans := by simpa [ClauseQueue.step] using hstep
    rfl

/-- A read of the reason of `u` answers with its last literal, or 0 when none is left. -/
theorem reason_read {cfg : Config} {table : List (Option (Entry n))} {q q' : ClauseQueue n}
    {ans u : Int} (hstep : q.step cfg table (.addReasonClauseLit u) = some (q', ans)) :
    (q.reason u = [] ∧ q' = q ∧ ans = 0) ∨ q.reason u = q'.reason u ++ [ans] := by
  simp only [ClauseQueue.step] at hstep
  split at hstep
  · rename_i hlast
    obtain ⟨rfl, rfl⟩ : q = q' ∧ 0 = ans := by simpa using hstep
    exact Or.inl ⟨List.getLast?_eq_none_iff.mp hlast, rfl, rfl⟩
  · rename_i lit hlast
    obtain ⟨rfl, rfl⟩ : _ = q' ∧ lit = ans := by simpa using hstep
    rw [reason_setReason, if_pos rfl]
    exact Or.inr (List.dropLast_append_getLast? lit hlast).symm

/-- While no new reason is stored for `u`, the reads of its reason give the stored literals from
the end, then zeros. -/
theorem reasonAnswers_prefix {cfg : Config} {table : List (Option (Entry n))}
    {q : ClauseQueue n} {calls : List Call} {ms : List (Moment n)} {u : Int} (hu : u ≠ 0)
    (hrun : moments cfg table q calls = some ms)
    (hstore : ∀ m ∈ ms, ∀ r, removal? m = some r → r.lit ≠ u) :
    ∃ k, reasonAnswers u ms <+: (q.reason u).reverse ++ List.replicate k 0 := by
  induction calls generalizing q ms with
  | nil =>
    obtain rfl : [] = ms := by simpa [moments] using hrun
    exact ⟨0, List.nil_prefix⟩
  | cons call rest ih =>
    obtain ⟨q', ans, ms', hstep, hrest, rfl⟩ := moments_cons hrun
    obtain ⟨k, hk⟩ := ih hrest fun m hm => hstore m (List.mem_cons_of_mem _ hm)
    by_cases hread : call = .addReasonClauseLit u
    · subst hread
      have hcons : reasonAnswers u (⟨q, .addReasonClauseLit u, ans, q'⟩ :: ms') =
          ans :: reasonAnswers u ms' := by simp [reasonAnswers]
      rw [hcons]
      rcases reason_read hstep with ⟨hempty, rfl, rfl⟩ | hlast
      · refine ⟨k + 1, ?_⟩
        rw [hempty] at hk ⊢
        simpa [List.replicate_succ] using hk
      · refine ⟨k, ?_⟩
        rw [hlast]
        simpa using hk
    · have hskip : reasonAnswers u (⟨q, call, ans, q'⟩ :: ms') = reasonAnswers u ms' := by
        unfold reasonAnswers
        rw [List.filterMap_cons_none]
        split
        · rename_i l hcall
          rw [if_neg fun h => hread (by rw [← h]; exact hcall)]
        · rfl
      rw [hskip, ← reason_step hu hstep hread (hstore _ List.mem_cons_self)]
      exact ⟨k, hk⟩

/-- After every run every passed clause is still queued with all its literals, being streamed,
streamed completely, or removed. A removed clause was forced by the assignments at that moment,
and until another one is stored for its literal the reads of that reason give its literals, then
zeros. -/
theorem clauses_accounted (cfg : Config) (d firstRow : Fin n → Fin n) (calls : List Call)
    (ms : List (Moment n))
    (hrun : moments cfg (lit2entry cfg d) (ClauseQueue.init cfg d firstRow) calls = some ms)
    (hdisc : Disciplined cfg (Account.start n) ms)
    (hknown : ∀ m ∈ ms, Known cfg (lit2entry cfg d) m) :
    (finalAccount cfg ms).passed.Perm
      ((finalAccount cfg ms).queued (finalQueue (ClauseQueue.init cfg d firstRow) ms) ++
        (finalAccount cfg ms).streaming (finalQueue (ClauseQueue.init cfg d firstRow) ms) ++
        (finalAccount cfg ms).streamed ++ (finalAccount cfg ms).removed.map Removal.clause) ∧
    (∀ r ∈ (finalAccount cfg ms).removed, Forces (lit2entry cfg d) r) ∧
    ∀ earlier m later r, ms = earlier ++ m :: later → removal? m = some r →
      (∀ m' ∈ later, ∀ r', removal? m' = some r' → r'.lit ≠ r.lit) →
      ∃ k, reasonAnswers r.lit later <+: r.clause.reverse ++ List.replicate k 0 := by
  have hnz : ∀ m ∈ ms, ∀ c ∈ m.before.passes cfg m.call, ∀ l ∈ c, l ≠ 0 := by
    rintro m hm c hc l hl rfl
    have := hknown m hm c hc 0 hl
    simp [lit2entry] at this
  have hstart : Accounted (Account.start n) (ClauseQueue.init cfg d firstRow) :=
    ⟨by simp [Account.start, Account.queued, Account.streaming, ClauseQueue.init],
      by simp [Account.start], by simp [ClauseQueue.init]⟩
  obtain ⟨haccount, hforced⟩ := hstart.run (by simp [Account.start]) hrun hdisc hnz
  refine ⟨haccount.partition, hforced, ?_⟩
  rintro earlier m later r rfl hr hlast
  obtain ⟨calls', hlater⟩ := moments_suffix hrun
  obtain ⟨hlit, hclause⟩ := removal_eq hr
  rw [hclause]
  exact reasonAnswers_prefix hlit hlater hlast

private def eager : Config := { propagateLiteralsCadical := true }

/-- A unit clause found by eager propagation, its reason, and a clause read from the queue. -/
private def shortRun : List Call :=
  [.addClause [5, -6], .propagate false [[1]], .notify (.assignment 1 false),
    .addReasonClauseLit 1, .addReasonClauseLit 1, .hasExternalClause [], .addExternalClauseLit,
    .addExternalClauseLit, .addExternalClauseLit]

theorem clauses_accounted_instance :
    ∃ ms, moments eager (lit2entry eager (id : Fin 2 → Fin 2))
        (ClauseQueue.init eager id id) shortRun = some ms ∧
      ms.map Moment.answer = [0, 1, 0, 1, 0, 1, -6, 5, 0] ∧
      (finalAccount eager ms).streamed = [[5, -6]] ∧
      ∀ r ∈ (finalAccount eager ms).removed, Forces (lit2entry eager id) r := by
  refine ⟨(moments eager (lit2entry eager id) (ClauseQueue.init eager id id) shortRun).get
    (by decide), (Option.some_get _).symm, by decide, by decide, ?_⟩
  exact (clauses_accounted eager (id : Fin 2 → Fin 2) id shortRun _
    (Option.some_get _).symm (by decide) (by decide)).2.1

end YbeSms.Guarantees
