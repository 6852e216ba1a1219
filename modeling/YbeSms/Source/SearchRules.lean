import YbeSms.Source.InitialPerm
import YbeSms.Source.ShortClauses
import YbeSms.Source.MinCheckV2

/-!
# Rules for the steps of a search

Source: ybe-sms/src/minCheckCommon.cpp:42-114; minCheck_V2.cpp:95-151; useful.cpp:252-272.
What may be handed to `addClauses`, `permFullyDefinedCheck` and `fixAndPropagate`,
and one rule each for throwing a clause, comparing the whole table, choosing an
image and learning from a permutation. They hold for every condition on the steps
under which a greatest inverse image is fixed at the start of its cell.
-/

namespace YbeSms.Source

open YbeSms.Library Equiv
open YbeSms.Library.Traced (ensures_pure ensures_stop ensures_log ensures_logAll ensures_ofOption
  ensures_fold)

variable {n : Nat}

namespace MinCheck

/-- The arguments of `diag.cycle` in `propagateDecision(perm, r)`. -/
def cycleQueries (m : MinCheck n) (perm : PPerm n) (r : Fin n) : List (Option (Fin n)) :=
  let dec := perm.permOf r
  if dec = some r ∨ dec ∈ (cycle (cyclePart m.diag) r).map some then [some r] else [some r, dec]

/-- The arguments of `diag.cycle` in `fixAndPropagate(perm, i, j)`. -/
def queries (m : MinCheck n) (perm : PPerm n) (i : Fin n) (j : Option (Fin n)) :
    List (Option (Fin n)) :=
  let r := perm.fix i j
  if r.2 && !m.diagIsId then m.cycleQueries r.1 i else []

/-- Every query is about a point. -/
def InRange (m : MinCheck n) (perm : PPerm n) (i : Fin n) (j : Option (Fin n)) : Prop :=
  ∀ x ∈ m.queries perm i j, x ≠ none

theorem inRange_of_permOf {m : MinCheck n} {perm : PPerm n} {i : Fin n} {j : Option (Fin n)}
    (h : (perm.fix i j).1.permOf i ≠ none) : m.InRange perm i j := by
  intro x hx
  unfold queries at hx
  simp only at hx
  split at hx
  · unfold cycleQueries at hx
    simp only at hx
    split at hx
    · rw [List.mem_singleton] at hx
      simp [hx]
    · rcases List.mem_cons.mp hx with hx | hx
      · simp [hx]
      · rw [List.mem_singleton.mp hx]
        exact h
  · exact absurd hx List.not_mem_nil

theorem inRange_of_refused {m : MinCheck n} {perm : PPerm n} {i : Fin n} {j : Option (Fin n)}
    (h : (perm.fix i j).2 = false) : m.InRange perm i j := by
  intro x hx
  unfold queries at hx
  simp only [h, Bool.false_and, Bool.false_eq_true, if_false] at hx
  exact absurd hx List.not_mem_nil

section Search

variable (m : MinCheck n) (d : Perm (Fin n)) (cycset : CycleSet n)

/-- Where the cell has its value and the image cell one value left, the inverse image is smaller. -/
def Settled (q : Perm (Fin n)) (r c : Fin n) : Prop :=
  ∀ a, cycset.matrix r c = some a → (permvals cycset q r c).length = 1 →
    lastInverse (permvals cycset q r c) < a.val

/-- What holds where `addClauses(q, r, c)` is called: a symmetry of the diagonal and, on a
consistent cycle set, a cell off the diagonal that is no tie and whose predecessors are. -/
structure Called (q : Perm (Fin n)) (r c : Fin n) : Prop where
  commute : Commute q d
  offDiagonal : m.Consistent cycset → m.cfg.diagPart = true → r ≠ c
  settled : m.Consistent cycset → Settled cycset q r c
  tied : m.Consistent cycset → ∀ x : Fin n × Fin n, toLex x < toLex (r, c) →
    (m.cfg.diagPart = true → x.1 ≠ x.2) → Tied cycset q x

/-- What holds of each call that a search makes. -/
def Handed : Event n → Prop
  | .learn p r c => ∃ q : Perm (Fin n), p = q ∧ Called m d cycset q r c
  | .check p _ _ => ∃ q : Perm (Fin n), p = q ∧ Commute q d
  | .choose perm i j => m.InRange perm i j
  | .fixGreatest _ _ _ => True

/-- The condition `G` on the steps of a run covers the greatest inverse images, and `S` covers
every way to stop. -/
structure Ruled (G : Event n → Prop) (S : Stop → Prop) : Prop where
  greatest : ∀ perm maxel maxi, G (.fixGreatest perm maxel maxi) →
    (isBit perm = true → maxi ≠ none) ∧ (maxi ≠ none → AtStart perm maxel)
  limit : S .limit
  fault : S .fault
  clause : ∀ (q : Perm (Fin n)) r c cls, G (.learn q r c) → Called m d cycset q r c →
    m.addClauses cycset q r c = some cls → S (.clause cls)

variable {m d cycset} {G : Event n → Prop} {S : Stop → Prop}

theorem throwClauses_spec (hR : Ruled m d cycset G S) {q : Perm (Fin n)} {r c : Fin n}
    (hq : Called m d cycset q r c) :
    (m.throwClauses cycset q r c).Ensures G (Handed m d cycset)
      (fun _ => m.addClauses cycset q r c = none) S := by
  unfold throwClauses
  refine (ensures_log (Q := fun _ => G (.learn q r c))
    fun hG => ⟨⟨q, rfl, hq⟩, hG⟩).bind fun _ hG => ?_
  cases hadd : m.addClauses cycset q r c with
  | none => exact ensures_pure rfl
  | some cls => exact ensures_stop (hR.clause q r c cls hG hq hadd)

/-! ### Comparing the whole table -/

theorem firstel_eq_ogValue (hc : m.Consistent cycset) (r c : Fin n) :
    (cycset.bitdomains r c).firstel = ogValue cycset r c := by
  unfold ogValue
  cases hm : cycset.matrix r c with
  | none => rfl
  | some a =>
    have hdom := hc.assigned r c a hm
    simp only
    rw [(hc.exact r c).firstel, leastBit_eq_iff]
    refine ⟨(hdom a).mpr rfl, fun w hw => ?_⟩
    rw [← Bool.not_eq_true, hdom]
    exact hw.ne

/-- A greatest inverse image equal to the least value is a tie. -/
theorem tied_of_eq (hc : m.Consistent cycset) {q : Perm (Fin n)} {r c : Fin n}
    (h : lastInverse (permvals cycset q r c) = (cycset.bitdomains r c).firstel) :
    Tied cycset q (r, c) := by
  obtain ⟨a, ha, hleast⟩ := ogValue_spec hc r c
  obtain ⟨b, hb, hgreatest⟩ := lastInverse_spec (hc.nonempty (q r) (q c))
  rw [firstel_eq_ogValue hc, ha, hb] at h
  obtain rfl : b = a := Fin.ext (by exact_mod_cast h)
  exact Or.inr ⟨b, hgreatest, hleast⟩

theorem settled_of_lt (hc : m.Consistent cycset) {q : Perm (Fin n)} {r c : Fin n}
    (h : lastInverse (permvals cycset q r c) < (cycset.bitdomains r c).firstel) :
    Settled cycset q r c := by
  intro a ha _
  rw [firstel_eq_ogValue hc, ogValue, ha] at h
  exact h

theorem settled_of_unfixed (hc : m.Consistent cycset) {q : Perm (Fin n)} {r c : Fin n}
    (h : (cycset.bitdomains r c).numTrue ≠ 1) : Settled cycset q r c := by
  intro a ha _
  refine absurd ?_ h
  rw [(hc.exact r c).numTrue, (countBits_eq_one_iff _).mpr ⟨a, hc.assigned r c a ha⟩]
  rfl

theorem settled_of_several {q : Perm (Fin n)} {r c : Fin n}
    (h : (cycset.bitdomains (q r) (q c)).options.length ≠ 1) : Settled cycset q r c := by
  intro a _ hone
  rw [length_permvals, ← BitDomain.length_options] at hone
  exact absurd hone h

theorem permvals_singleton {q : Perm (Fin n)} {r c pv : Fin n}
    (h : (cycset.bitdomains (q r) (q c)).options = [pv]) :
    permvals cycset q r c = [(pv, invperm q pv)] := by
  unfold permvals
  rw [h]
  rfl

private theorem find_map_ne_none {α β : Type} {l : List α} {test : α → Bool} {f : α → β} {a : α}
    (ha : a ∈ l) (htest : test a = true) : (l.find? test).map f ≠ none := by
  rw [ne_eq, Option.map_eq_none_iff, List.find?_eq_none]
  exact fun h => h a ha htest

/-- Where the image cell only has smaller values, the old encoder finds one. -/
private theorem oldTarget_ne_none (hc : m.Consistent cycset) {q : Perm (Fin n)} {r c a : Fin n}
    (hleast : IsLeast (candidates cycset r c) a)
    (hgreatest : ∀ v ∈ candidates cycset (q r) (q c), q.symm v < a) :
    m.oldTarget cycset q r c ≠ none := by
  obtain ⟨v, hv⟩ := hc.nonempty (q r) (q c)
  have hmem : (v, ((q.symm v).val : Int)) ∈ permvals cycset q r c :=
    (mem_permvals r c _).mpr ⟨hv, rfl⟩
  have hlt : ((q.symm v).val : Int) < a.val := by exact_mod_cast hgreatest v hv
  have hfirst : (cycset.bitdomains r c).firstel = a.val := by
    obtain ⟨b, hb, hb'⟩ := ogValue_spec hc r c
    rw [firstel_eq_ogValue hc, hb, hb'.unique hleast]
  unfold oldTarget
  simp only
  split
  · exact Option.some_ne_none _
  next w hnone hsingle =>
    rw [hsingle, List.mem_singleton] at hmem
    have hhead : (cycset.bitdomains r c).options.head? = some a := by
      have hsorted := (cycset.bitdomains r c).options_pairwise
      cases hopts : (cycset.bitdomains r c).options with
      | nil =>
        have hin := (BitDomain.mem_options _ _).mpr hleast.1
        rw [hopts] at hin
        exact absurd hin List.not_mem_nil
      | cons b rest =>
        rw [hopts] at hsorted
        have hb : b ∈ candidates cycset r c := (BitDomain.mem_options _ _).mp (by rw [hopts]; simp)
        have hin := (BitDomain.mem_options _ _).mpr hleast.1
        rw [hopts] at hin
        rcases List.mem_cons.mp hin with rfl | hin
        · rfl
        · exact absurd (hleast.2 hb) (not_le.mpr ((List.pairwise_cons.mp hsorted).1 a hin))
    rw [hhead, ← hmem]
    simp [Option.filter, hgreatest v hv]
  next vals og hog _ =>
    have hoga : og = a := ((hc.assigned r c og hog a).mp hleast.1).symm
    rw [hoga]
    exact find_map_ne_none hmem (by simpa using hgreatest v hv)
  next vals _ _ =>
    split
    next hfix =>
      refine find_map_ne_none hmem ?_
      have hin : v ∈ candidates cycset r c := by
        rw [hfix.1, hfix.2] at hv
        exact hv
      simpa using (hgreatest v hv).trans_le (hleast.2 hin)
    next =>
      refine find_map_ne_none hmem ?_
      rw [hfirst]
      simpa using hgreatest v hv

/-- A witness of non-minimality always ends in a clause, whichever encoder is used. -/
theorem addClauses_ne_none (hc : m.Consistent cycset) {q : Perm (Fin n)} {r c : Fin n}
    (h : lastInverse (permvals cycset q r c) < (cycset.bitdomains r c).firstel) :
    m.addClauses cycset q r c ≠ none := by
  obtain ⟨a, ha, hleast⟩ := ogValue_spec hc r c
  obtain ⟨b, hb, hgreatest⟩ := lastInverse_spec (hc.nonempty (q r) (q c))
  rw [firstel_eq_ogValue hc] at h
  have hba : b < a := by
    rw [ha, hb] at h
    exact_mod_cast h
  unfold addClauses
  split
  · unfold addClausesOld
    rw [ne_eq, Option.map_eq_none_iff]
    exact oldTarget_ne_none hc hleast fun v hv => lt_of_le_of_lt (hgreatest.2 ⟨v, hv, rfl⟩) hba
  · unfold addClausesShort targetMarks
    simp only [if_pos h, Option.map_some, ne_eq, reduceCtorEq, not_false_eq_true]

/-- What a round of `permFullyDefinedCheck` says when the loop goes on. -/
def RoundOk (m : MinCheck n) (cycset : CycleSet n) (q : Perm (Fin n)) (r c : Fin n)
    (o : Round) : Prop :=
  o = .next → m.Consistent cycset → (m.cfg.diagPart = true → r ≠ c) → Tied cycset q (r, c)

/-- A throw that returns was no witness, so what is left is a tie. -/
private theorem throw_next (hR : Ruled m d cycset G S) {q : Perm (Fin n)} {r c : Fin n}
    (hq : Called m d cycset q r c)
    (hle : m.Consistent cycset →
      lastInverse (permvals cycset q r c) ≤ (cycset.bitdomains r c).firstel) :
    (m.throwClauses cycset q r c >>= fun _ => (pure .next : Search n Round)).Ensures G
      (Handed m d cycset) (RoundOk m cycset q r c) S := by
  refine (throwClauses_spec hR hq).bind fun _ hnone => ensures_pure ?_
  intro _ hc _
  rcases (hle hc).lt_or_eq with hlt | heq
  · exact absurd hnone (addClauses_ne_none hc hlt)
  · exact tied_of_eq hc heq

/-- An assigned cell has its value alone. -/
theorem assigned_cell (hc : m.Consistent cycset) {r c a : Fin n} (h : cycset.matrix r c = some a) :
    (cycset.bitdomains r c).firstel = a.val ∧ (cycset.bitdomains r c).numTrue = 1 ∧
      ∀ w, (cycset.bitdomains r c).dom w = true ↔ w = a := by
  have hsingle := hc.assigned r c a h
  refine ⟨?_, ?_, hsingle⟩
  · rw [(hc.exact r c).firstel, leastBit_eq_iff]
    refine ⟨(hsingle _).mpr rfl, fun w hw => ?_⟩
    rw [← Bool.not_eq_true, hsingle]
    exact hw.ne
  · rw [(hc.exact r c).numTrue, (countBits_eq_one_iff _).mpr ⟨_, hsingle⟩]
    rfl

theorem options_of_assigned (hc : m.Consistent cycset) {r c a : Fin n}
    (h : cycset.matrix r c = some a) : (cycset.bitdomains r c).options = [a] := by
  apply List.perm_singleton.mp
  refine (List.perm_ext_iff_of_nodup ((List.nodup_finRange n).filter _)
    (List.nodup_singleton _)).mpr fun w => ?_
  rw [List.mem_singleton, ← (assigned_cell hc h).2.2]
  exact BitDomain.mem_options _ w

/-- A diagonal cell has its value alone. -/
theorem diagonal_cell (hc : m.Consistent cycset) (hdiag : m.cfg.diagPart = true) (r : Fin n) :
    (cycset.bitdomains r r).firstel = (m.diag r).val ∧ (cycset.bitdomains r r).numTrue = 1 ∧
      ∀ w, (cycset.bitdomains r r).dom w = true ↔ w = m.diag r :=
  assigned_cell hc (hc.diagonal hdiag r)

/-- Under a symmetry of the diagonal, a diagonal cell and its image are equal. -/
theorem fullRound_diagonal (hm : Serves m d) (hc : m.Consistent cycset)
    (hdiag : m.cfg.diagPart = true) {q : Perm (Fin n)} (hq : Commute q d) (r : Fin n) :
    m.fullRound cycset q r r = pure .next := by
  obtain ⟨hfirst, hone, -⟩ := diagonal_cell hc hdiag r
  have hoptions := options_of_assigned hc (hc.diagonal hdiag (q r))
  have hinv : invperm q (m.diag (q r)) = (m.diag r).val := by
    rw [invperm_perm, ← hm.commute_diag hdiag hq, symm_apply_apply]
  unfold fullRound
  simp only [hoptions, hinv, hfirst, hone, lt_irrefl, beq_self_eq_true, and_self, if_true,
    if_false]

theorem fullRound_spec (hR : Ruled m d cycset G S) (hm : Serves m d) {q : Perm (Fin n)}
    (hq : Commute q d) {r c : Fin n}
    (hbefore : m.Consistent cycset → ∀ x : Fin n × Fin n, toLex x < toLex (r, c) →
      (m.cfg.diagPart = true → x.1 ≠ x.2) → Tied cycset q x) :
    (m.fullRound cycset q r c).Ensures G (Handed m d cycset) (RoundOk m cycset q r c) S := by
  by_cases hdiag : m.Consistent cycset ∧ m.cfg.diagPart = true ∧ r = c
  · obtain ⟨hc, hd, rfl⟩ := hdiag
    rw [fullRound_diagonal hm hc hd hq r]
    exact ensures_pure fun _ _ hoff => absurd rfl (hoff hd)
  · have hcall : (m.Consistent cycset → Settled cycset q r c) → Called m d cycset q r c :=
      fun hset => ⟨hq, fun hc hd heq => hdiag ⟨hc, hd, heq⟩, hset, hbefore⟩
    have hleave : (pure .leave : Search n Round).Ensures G (Handed m d cycset)
        (RoundOk m cycset q r c) S := ensures_pure fun h => by cases h
    unfold fullRound
    simp only
    split
    · exact ensures_stop hR.fault
    next pv hsingle =>
      have hlast : lastInverse (permvals cycset q r c) = invperm q pv := by
        rw [permvals_singleton hsingle]
        rfl
      rw [← hlast]
      split
      next hlt => exact throw_next hR (hcall fun hc => settled_of_lt hc hlt) fun _ => hlt.le
      next =>
        split
        next heq => exact ensures_pure fun _ hc _ => tied_of_eq hc heq.2
        next hnot =>
          split
          next heq =>
            have hunfixed : (cycset.bitdomains r c).numTrue ≠ 1 := fun hone =>
              hnot ⟨by rw [hone]; rfl, heq.2⟩
            exact throw_next hR (hcall fun hc => settled_of_unfixed hc hunfixed) fun _ => heq.2.le
          next => exact hleave
    next _ hmany =>
      have hcalled := hcall fun _ => settled_of_several fun hone => by
        obtain ⟨pv, hpv⟩ := List.length_eq_one_iff.mp hone
        exact hmany pv hpv
      split
      next hlt => exact throw_next hR hcalled fun _ => hlt.le
      next hnlt =>
        split
        next hle =>
          exact ensures_pure fun _ hc _ => tied_of_eq hc (le_antisymm hle.2 (not_lt.mp hnlt))
        next =>
          split
          next =>
            split
            next =>
              refine Traced.Ensures.bind (Q := fun _ => True) ?_ fun _ _ => hleave
              exact ensures_fold (fun _ _ => True) _
                (fun _ _ _ _ _ =>
                  (throwClauses_spec hR hcalled).mono (fun _ _ => trivial) fun _ => id)
                [] () trivial
            next =>
              split
              next heq => exact throw_next hR hcalled fun _ => heq.le
              next => exact hleave
          next => exact hleave

theorem fullRounds_spec (hR : Ruled m d cycset G S) (hm : Serves m d) {q : Perm (Fin n)}
    (hq : Commute q d) (l : List (Fin n × Fin n)) (hl : l.Pairwise fun a b => toLex a < toLex b)
    (hbefore : m.Consistent cycset → ∀ x, x ∉ l → (m.cfg.diagPart = true → x.1 ≠ x.2) →
      Tied cycset q x) :
    (m.fullRounds cycset q l).Ensures G (Handed m d cycset) (fun _ => True) S := by
  induction l with
  | nil => exact ensures_pure trivial
  | cons y rest ih =>
    obtain ⟨hy, hrest⟩ := List.pairwise_cons.mp hl
    unfold fullRounds
    refine (fullRound_spec hR hm hq fun hc x hx hoff => hbefore hc x ?_ hoff).bind ?_
    · intro hmem
      rcases List.mem_cons.mp hmem with rfl | hmem
      · exact lt_irrefl _ hx
      · exact lt_asymm hx (hy x hmem)
    · intro o ho
      cases o with
      | leave => exact ensures_pure trivial
      | next =>
        refine ih hrest fun hc x hx hoff => ?_
        by_cases hxy : x = y
        · subst hxy
          exact ho rfl hc hoff
        · exact hbefore hc x (fun hmem => (List.mem_cons.mp hmem).elim hxy hx) hoff

/-- `permFullyDefinedCheck(q, r, c)`, when all cells before `(r, c)` are tied. -/
theorem permFullyDefinedCheck_spec (hR : Ruled m d cycset G S) (hm : Serves m d)
    {q : Perm (Fin n)} (hq : Commute q d) {r c : Fin n}
    (hbefore : m.Consistent cycset → ∀ x : Fin n × Fin n, toLex x < toLex (r, c) →
      (m.cfg.diagPart = true → x.1 ≠ x.2) → Tied cycset q x) :
    (m.permFullyDefinedCheck cycset q r c).Ensures G (Handed m d cycset) (fun _ => True) S := by
  unfold permFullyDefinedCheck
  refine (ensures_log (Q := fun _ => True) fun _ => ⟨⟨q, rfl, hq⟩, trivial⟩).bind fun _ _ => ?_
  split
  · exact ensures_pure trivial
  · refine fullRounds_spec hR hm hq _ ((pairwise_cells n).filter _) fun hc x hx hoff => ?_
    apply hbefore hc x _ hoff
    rw [List.mem_filter, not_and_or] at hx
    have hcond := hx.resolve_left fun h => h (mem_cells x)
    simp only [Bool.not_eq_true', Bool.not_eq_false, Bool.or_eq_true, decide_eq_true_eq,
      Bool.and_eq_true, beq_iff_eq] at hcond
    rw [Prod.Lex.toLex_lt_toLex]
    exact hcond

/-! ### Choosing images -/

/-- Choosing a possible image at the start of a cell. -/
theorem choose_spec (hm : Serves m d) {perm : PPerm n} (h : Valid m d perm) {x y : Fin n}
    (hx : perm.fixed x = false) (hy : ∃ q ∈ den d perm, q x = y) (hstart : AtStart perm x) :
    (m.choose perm x (some y)).Ensures G (Handed m d cycset)
      (fun r => r.2 = true ∧ Valid m d r.1 ∧ den d r.1 = {q ∈ den d perm | q x = y}) S := by
  unfold choose
  refine (ensures_log (Q := fun _ => True) fun _ => ⟨?_, trivial⟩).bind fun _ _ =>
    ensures_pure (h.choose hm hx hy hstart)
  apply inRange_of_permOf
  rw [h.permOf_fix hm hx hy hstart]
  exact Option.some_ne_none y

/-- The calls inside `extendPerm`: each chooses an option of the first unfixed point. -/
theorem extendCalls_handed (hm : Serves m d) (l : List (Fin n)) (hl : l.Pairwise (· < ·))
    {perm : PPerm n} (h : Valid m d perm) (hdone : ∀ j, j ∉ l → perm.fixed j = true) :
    ∀ e ∈ m.extendCalls l perm, Handed m d cycset e := by
  induction l generalizing perm with
  | nil => exact fun e he => absurd he List.not_mem_nil
  | cons i rest ih =>
    obtain ⟨hi, hrest⟩ := List.pairwise_cons.mp hl
    intro e he
    unfold extendCalls at he
    split at he
    next hnone =>
      have hunfixed : perm.fixed i = false := by
        rw [← Bool.not_eq_true]
        intro hfixed
        obtain ⟨q, hq⟩ := h.exists_mem_den
        rw [h.permOf_eq hq hfixed] at hnone
        cases hnone
      split at he
      · exact absurd he List.not_mem_nil
      next v vs hopts =>
        have hv := (h.mem_options i v).mp (by rw [hopts]; exact List.mem_cons_self)
        have hstart : AtStart perm i := h.atStart_of_fixed_before fun j hj => hdone j fun hmem => by
          rcases List.mem_cons.mp hmem with rfl | hmem
          · exact lt_irrefl j hj
          · exact lt_asymm hj (hi j hmem)
        obtain ⟨-, hvalid, hden⟩ := h.choose hm hunfixed hv hstart
        rcases List.mem_cons.mp he with rfl | he
        · apply inRange_of_permOf
          rw [h.permOf_fix hm hunfixed hv hstart]
          exact Option.some_ne_none v
        · refine ih hrest hvalid (fun j hj => ?_) e he
          by_cases hji : j = i
          · obtain ⟨q, hq⟩ := hvalid.exists_mem_den
            rw [hji, hvalid.fixed_iff hq]
            intro q' hq'
            rw [hden] at hq hq'
            exact hq'.2.trans hq.2.symm
          · refine h.fixed_of_den_subset hvalid ?_
              (hdone j fun hmem => (List.mem_cons.mp hmem).elim hji hj)
            rw [hden]
            exact fun q hq => hq.1
    next hsome =>
      refine ih hrest h (fun j hj => ?_) e he
      by_cases hji : j = i
      · rw [hji]
        by_contra hfixed
        exact hsome (permOf_eq_none (by simpa using hfixed))
      · exact hdone j fun hmem => (List.mem_cons.mp hmem).elim hji hj

theorem extend_spec (hm : Serves m d) {perm : PPerm n} (h : Valid m d perm) :
    (m.extend perm).Ensures G (Handed m d cycset)
      (fun r => Valid m d r ∧ den d r ⊆ den d perm ∧ ∃ q ∈ den d r, r.getPerm = some ⇑q) S := by
  unfold extend
  refine (ensures_logAll (Q := fun _ => True) fun _ => ⟨fun e he => ?_, trivial⟩).bind fun _ _ => ?_
  · split at he
    · exact extendCalls_handed hm _ (List.pairwise_lt_finRange n) h
        (fun j hj => absurd (List.mem_finRange j) hj) e he
    · exact absurd he List.not_mem_nil
  · obtain ⟨r, hr, hvalid, hsub, q, hq, hget⟩ := h.extendPerm hm
    refine ensures_ofOption (fun hnone => by cases hr.symm.trans hnone) fun r' hr' => ?_
    obtain rfl : r = r' := Option.some.inj (hr.symm.trans hr')
    exact ⟨hvalid, hsub, q, hq, hget⟩

/-- Learning from a permutation all of whose completions may be handed on. -/
theorem learn_spec (hm : Serves m d) (hR : Ruled m d cycset G S) {perm : PPerm n}
    (h : Valid m d perm) {r : Fin n}
    (hcalled : ∀ q ∈ den d perm, Called m d cycset q (firstPoint r) r) :
    (m.learn cycset perm r).Ensures G (Handed m d cycset)
      (fun perm' => Valid m d perm' ∧ den d perm' ⊆ den d perm) S := by
  unfold learn
  refine (extend_spec hm h).bind fun extended hext => ?_
  obtain ⟨hvalid, hsub, q, hq, hget⟩ := hext
  rw [hget]
  refine (ensures_ofOption (Q := fun p => p = ⇑q) (fun hnone => by cases hnone)
    fun p hp => (Option.some.inj hp).symm).bind fun p hp => ?_
  obtain rfl := hp
  exact (throwClauses_spec hR (hcalled q (hsub hq))).bind fun _ _ => ensures_pure ⟨hvalid, hsub⟩

end Search

end MinCheck

end YbeSms.Source
