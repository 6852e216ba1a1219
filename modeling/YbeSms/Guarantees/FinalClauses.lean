import YbeSms.Source.WholeClauses
import YbeSms.Guarantees.OldEncoder
import YbeSms.Guarantees.FinalCheck

/-!
# The clauses of the final check

Source: ybe-sms/src/minCheckCommon.cpp:42-262, 321-505; minCheck_V2.cpp:46-284.
On a total assignment every tie has its reasons among the assigned literals, and no
greatest inverse image is fixed. So the clause thrown there holds in every least
table, with either encoder.
-/

namespace YbeSms.Guarantees

open YbeSms.Library YbeSms.Abstract YbeSms.Source YbeSms.Source.MinCheck Equiv

variable {n : Nat}

variable {m : MinCheck n} {d : Perm (Fin n)} {cycset : CycleSet n} {M : Fin n → Fin n → Fin n}

/-- A value that the literals leave for the image cell is the image cell's value, or a point that
the permutation fixes. -/
theorem image_value_of_total (h : m.Total cycset M) (hs : Serves m d) {q : Perm (Fin n)}
    (hq : Commute q d) {x : Fin n × Fin n} {v w : Fin n} (hopen : LeavesOpen m cycset q x v w)
    (hmoves : MovesEntry q x (q.symm w)) : w = M (q x.1) (q x.2) := by
  have hc := h.consistent
  by_contra hne
  have hfree : m.isDiagValue cycset x.1 (q.symm w) = false := by
    rw [isDiagValue_eq_false hc]
    intro hd heq
    refine (isDiagValue_eq_false hc _ _).mp hopen.imageValue hd ?_
    rw [← hs.commute_diag hd hq, ← heq, apply_symm_apply]
  have hrefused := h.refused (q x.1) (q x.2) w hopen.imageValue (Ne.symm hne)
  refine hopen.image (q.symm w) hfree hmoves ?_ (apply_symm_apply q w).symm
  rw [apply_symm_apply]
  exact hrefused

/-- Every value is assigned or refused, so a tie is explained. -/
theorem explained_of_total (h : m.Total cycset M) (hs : Serves m d) {q : Perm (Fin n)}
    (hq : Commute q d) {x : Fin n × Fin n} (hoff : m.cfg.diagPart = true → x.1 ≠ x.2)
    (htied : Tied cycset q x) : Explained m cycset q x := by
  have hc := h.consistent
  have hown : m.isDiagValue cycset x.1 (M x.1 x.2) = false := h.admits.isDiagValue hc hoff
  have htrue := (hc.isTrue x.1 x.2 _).mp (h.matrix x.1 x.2)
  have hcandidate : ∀ i j, M i j ∈ candidates cycset i j := h.mem_candidates
  intro v w hopen
  suffices hle : q.symm w ≤ v by
    rw [invperm_perm]
    exact_mod_cast hle
  by_cases hfixed : q x.1 = x.1 ∧ q x.2 = x.2
  · obtain rfl : v = w := hopen.same hfixed.1 hfixed.2
    by_cases hmoved : q v = v
    · exact (q.symm_apply_eq.mpr hmoved.symm).le
    · have hmoves : MovesEntry q x (q.symm v) := by
        refine Or.inr (Or.inr fun heq => hmoved ?_)
        rw [apply_symm_apply] at heq
        exact (q.symm_apply_eq.mp heq).symm
      have hv := image_value_of_total h hs hq hopen hmoves
      rw [hfixed.1, hfixed.2] at hv
      rcases htied with ⟨-, -, hbelow⟩ | ⟨a, hgreatest, hleast⟩
      · exact hbelow v (hv ▸ hcandidate x.1 x.2)
      · have hle := hgreatest.2 ⟨v, by rw [hfixed.1, hfixed.2, hv]; exact hcandidate _ _, rfl⟩
        exact hle.trans (hleast.2 (hv ▸ hcandidate x.1 x.2))
  · have hmoves : ∀ i, MovesEntry q x i := by
      intro i
      unfold MovesEntry
      rw [not_and_or] at hfixed
      rcases hfixed with hne | hne
      · exact Or.inl (Ne.symm hne)
      · exact Or.inr (Or.inl (Ne.symm hne))
    have hv : v = M x.1 x.2 := hopen.cell _ hown (hmoves _) htrue
    have hw := image_value_of_total h hs hq hopen (hmoves _)
    rcases htied with ⟨hrow, hcol, -⟩ | ⟨a, hgreatest, hleast⟩
    · exact absurd ⟨hrow, hcol⟩ hfixed
    · have hle := hgreatest.2 ⟨w, hw ▸ hcandidate _ _, rfl⟩
      exact hle.trans (hleast.2 (hv ▸ hcandidate _ _))

/-- On a total assignment either encoder is covered, whatever the limits. -/
theorem ruled_of_total (hmode : InMode m d) (hm : m.Numbered) (h : m.Total cycset M)
    (hpre : preCheck cycset = false) : Ruled m d cycset Unforced (StopsValid m d) where
  greatest _ _ _ hno := hno.elim
  limit := fun _ h => by cases h
  fault := fun _ h => by cases h
  clause q r c cls _ hcalled hthrow := by
    rintro _ ⟨⟩ N hN hleast
    have hc := h.consistent
    have hs := hmode.serves r.pos
    have hoff := hcalled.offDiagonal hc
    rw [addClauses] at hthrow
    split at hthrow
    · have hdom : ∀ i j v, (cycset.bitdomains i j).dom v = true ↔ InDomain cycset i j v := by
        intro i j v
        rw [hc.assigned i j _ (h.matrix i j)]
        unfold InDomain
        rw [h.matrix]
      refine addClausesOld_holdsIn hs hm hc hdom hpre hcalled (fun x hx hxoff => ?_) hthrow hN hleast
      exact explained_of_total h hs hcalled.commute hxoff (hcalled.tied hc x hx hxoff)
    · have hlt : act q M r c < M r c := by
        have hsettled := hcalled.settled hc (M r c) (h.matrix r c) (by rw [h.permvals]; rfl)
        rw [h.lastInverse] at hsettled
        exact_mod_cast hsettled
      have hroom := roomy_of_ne hmode h.toShows hcalled.commute hoff hlt.ne
      exact addClausesShort_holdsIn hroom hm hc q
        (fun hd => hs.commute_diag hd hcalled.commute) hoff (hcalled.tied hc) hthrow hN
        (hleast q hcalled.commute)

/-- A clause is only thrown past `preCheck`, by `MinCheck`. -/
theorem minCheck_of_run {isFinal : Bool} {clause : Clause}
    (hthrow : (m.run cycset isFinal).result = .error (.clause clause)) :
    preCheck cycset = false ∧ (m.minCheck cycset isFinal).result = .error (.clause clause) := by
  unfold run at hthrow
  cases hpre : preCheck cycset with
  | true =>
    rw [if_pos hpre] at hthrow
    cases hthrow
  | false =>
    rw [if_neg (by simp [hpre])] at hthrow
    refine ⟨rfl, ?_⟩
    cases hresult : (m.minCheck cycset isFinal).result with
    | ok its =>
      simp [bind, Traced.bind, hresult, pure, Traced.pure] at hthrow
    | error stop =>
      simp [bind, Traced.bind, hresult] at hthrow
      rw [hthrow]

/-- What every way to stop has in common also holds of the clause thrown on a total assignment. -/
theorem stop_of_total {S : Stop → Prop} (hmode : InMode m d) (h : m.Total cycset M) (hn : 1 ≤ n)
    (hR : preCheck cycset = false → Ruled m d cycset Unforced S) {isFinal : Bool} {clause : Clause}
    (hthrow : (m.run cycset isFinal).result = .error (.clause clause)) : S (.clause clause) := by
  have hone : ∀ i j, (cycset.bitdomains i j).numTrue = 1 := fun i j =>
    (assigned_cell h.consistent (h.matrix i j)).2.1
  obtain ⟨hpre, hthrow'⟩ := minCheck_of_run hthrow
  have hquiet := (checkMinimality_quiet (m := m) hone isFinal (List.finRange n) m.initialPart 0 0
    fun _ _ => trivial).1
  have hstop := (minCheck_spec (hmode.serves hn) (hR hpre) isFinal hquiet).2
  rwa [hthrow'] at hstop

/-- A clause thrown on a total assignment holds in every least table. -/
theorem final_clauses_valid (hn : 1 ≤ n) (m : MinCheck n) (d : Perm (Fin n)) (hmode : InMode m d)
    (hm : m.Numbered) (cycset : CycleSet n) (M : Fin n → Fin n → Fin n) (h : m.Total cycset M)
    (isFinal : Bool) (clause : Clause)
    (hthrow : (m.run cycset isFinal).result = .error (.clause clause))
    (N : Fin n → Fin n → Fin n) (hN : m.Admits N) (hleast : LeastUnder d N) :
    m.HoldsIn clause N :=
  stop_of_total hmode h hn (ruled_of_total hmode hm h) hthrow clause rfl N hN hleast

/-- The first row exchanges 0 and 2, and the clause against it keeps the identity rows. -/
theorem final_clauses_valid_instance :
    ∃ clause, (fullNoDiag.run (ofTable firstMoved) true).result = .error (.clause clause) ∧
      fullNoDiag.HoldsIn clause fun _ j => j := by
  have hmode : InMode fullNoDiag 1 := ⟨rfl, rfl⟩
  have hM : fullNoDiag.Admits firstMoved := ⟨by unfold RowsPermute; decide, fun h => by cases h⟩
  have htotal := total_ofTable hM
  have hsmaller : rowMajor (act (swap 0 2) firstMoved) < rowMajor firstMoved :=
    (rowMajor_lt_iff _ _).mpr ⟨(0, 0), by decide, by decide⟩
  have hs : Serves fullNoDiag 1 := hmode.serves (by decide)
  cases hresult : (fullNoDiag.run (ofTable firstMoved) true).result with
  | ok u =>
    have hleast := (run_ok_iff hs htotal.toShows (by decide)).mp hresult
    exact absurd (hleast (swap 0 2) (Commute.one_right _)) (not_le.mpr hsmaller)
  | error stop =>
    obtain ⟨clause, rfl, -, -⟩ := beaten_of_error hs htotal.toShows (by decide) hresult
    exact ⟨clause, rfl, final_clauses_valid (by decide) fullNoDiag 1 hmode rfl (ofTable firstMoved)
      firstMoved htotal true clause hresult _
      ⟨by unfold RowsPermute; decide, fun h => by cases h⟩ (leastUnder_identityRows 1)⟩

end YbeSms.Guarantees
