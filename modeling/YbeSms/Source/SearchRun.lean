import YbeSms.Source.SearchRules

/-!
# What a search hands on

Source: ybe-sms/src/minCheck_V2.cpp:46-284. Through the whole search the partial
permutation stands for symmetries of the diagonal whose images of the earlier
points are fixed and which tie the earlier cells of the first row. One rule for
each function carries this through a run.
-/

namespace YbeSms.Source

open YbeSms.Library Equiv
open YbeSms.Library.Traced (ensures_pure ensures_stop ensures_log ensures_logAll ensures_ofOption
  ensures_fold)

variable {n : Nat}

namespace MinCheck

variable {m : MinCheck n} {d : Perm (Fin n)} {cycset : CycleSet n} {G : Event n → Prop}
  {S : Stop → Prop}

/-- The partial permutations the search works on: the rows that are no longer in the list have
fixed images and tie their cells of the first row. -/
structure Node (m : MinCheck n) (d : Perm (Fin n)) (cycset : CycleSet n) (l : List (Fin n))
    (perm : PPerm n) : Prop where
  valid : Valid m d perm
  before : ∀ j, j ∉ l → perm.fixed j = true
  tied : m.Consistent cycset → ∀ q ∈ den d perm, ∀ j, j ∉ l →
    (m.cfg.diagPart = true → firstPoint j ≠ j) → Tied cycset q (firstPoint j, j)

/-- An option after its examination at row `r`: it stands for some of the permutations it had, and
all of them tie the cell. -/
structure Kept (m : MinCheck n) (d : Perm (Fin n)) (cycset : CycleSet n) (perm : PPerm n)
    (r : Fin n) (kept : PPerm n) : Prop where
  valid : Valid m d kept
  subset : den d kept ⊆ den d perm
  tied : m.Consistent cycset → ∀ q ∈ den d kept, Tied cycset q (firstPoint r, r)

/-- What an examination may answer. -/
def VerdictOk (m : MinCheck n) (d : Perm (Fin n)) (cycset : CycleSet n) (perm : PPerm n)
    (r : Fin n) : Verdict n → Prop
  | .drop => True
  | .keep kept => Kept m d cycset perm r kept
  | .leave kept => ∀ k ∈ kept, Kept m d cycset perm r k

/-- What an option brings to its examination at row `r`: images of the first point and of `r`
that all its permutations share, and ties of the cells before. -/
structure Chosen (m : MinCheck n) (d : Perm (Fin n)) (cycset : CycleSet n) (perm : PPerm n)
    (r i j : Fin n) : Prop where
  valid : Valid m d perm
  first : ∀ q ∈ den d perm, q (firstPoint r) = i
  image : ∀ q ∈ den d perm, q r = j
  tied : m.Consistent cycset → ∀ q ∈ den d perm, ∀ x, toLex x < toLex (firstPoint r, r) →
    (m.cfg.diagPart = true → x.1 ≠ x.2) → Tied cycset q x

theorem Chosen.called {perm : PPerm n} {r i j : Fin n} (h : Chosen m d cycset perm r i j)
    (hoff : m.Consistent cycset → m.cfg.diagPart = true → firstPoint r ≠ r)
    (hset : m.Consistent cycset → ∀ q ∈ den d perm, Settled cycset q (firstPoint r) r) :
    ∀ q ∈ den d perm, Called m d cycset q (firstPoint r) r :=
  fun q hq => ⟨hq.1, hoff, fun hc => hset hc q hq, fun hc x hx hxoff => h.tied hc q hq x hx hxoff⟩

theorem Chosen.of_subset {perm perm' : PPerm n} {r i j : Fin n}
    (h : Chosen m d cycset perm r i j) (hvalid : Valid m d perm')
    (hsub : den d perm' ⊆ den d perm) : Chosen m d cycset perm' r i j where
  valid := hvalid
  first q hq := h.first q (hsub hq)
  image q hq := h.image q (hsub hq)
  tied hc q hq := h.tied hc q (hsub hq)

/-! ### Comparing a cell with its image -/

/-- The inverse image of the one value of the image cell. -/
theorem Chosen.lastInverse_of_single {perm : PPerm n} {r i j pv inv : Fin n}
    (h : Chosen m d cycset perm r i j) (hsingle : (cycset.bitdomains i j).options = [pv])
    {q : Perm (Fin n)} (hq : q ∈ den d perm) (hinv : q inv = pv) :
    lastInverse (permvals cycset q (firstPoint r) r) = inv.val := by
  rw [permvals_singleton (by rw [h.first q hq, h.image q hq]; exact hsingle), ← hinv]
  simp [lastInverse, invperm_perm]

/-- The inverse image of the one value of the image cell is the least value of the cell. -/
theorem Chosen.tied_of_single {perm : PPerm n} {r i j pv inv : Fin n}
    (h : Chosen m d cycset perm r i j) (hc : m.Consistent cycset)
    (hsingle : (cycset.bitdomains i j).options = [pv]) {q : Perm (Fin n)} (hq : q ∈ den d perm)
    (hinv : q inv = pv) (heq : (inv.val : Int) = (cycset.bitdomains (firstPoint r) r).firstel) :
    Tied cycset q (firstPoint r, r) :=
  tied_of_eq hc ((h.lastInverse_of_single hsingle hq hinv).trans heq)

theorem Chosen.settled_of_single {perm : PPerm n} {r i j pv inv : Fin n}
    (h : Chosen m d cycset perm r i j) (hc : m.Consistent cycset)
    (hsingle : (cycset.bitdomains i j).options = [pv]) {q : Perm (Fin n)} (hq : q ∈ den d perm)
    (hinv : q inv = pv) (hlt : (inv.val : Int) < (cycset.bitdomains (firstPoint r) r).firstel) :
    Settled cycset q (firstPoint r) r := by
  apply settled_of_lt hc
  rwa [h.lastInverse_of_single hsingle hq hinv]

theorem Chosen.settled_of_several {perm : PPerm n} {r i j : Fin n}
    (h : Chosen m d cycset perm r i j) (hmany : (cycset.bitdomains i j).options.length ≠ 1)
    {q : Perm (Fin n)} (hq : q ∈ den d perm) : Settled cycset q (firstPoint r) r := by
  apply MinCheck.settled_of_several
  rwa [h.first q hq, h.image q hq]

/-- The first cell of a diagonal has the value that its image cell gives. -/
theorem Chosen.inverse_diagonal (hm : Serves m d) {perm : PPerm n} {r i j pv : Fin n}
    (h : Chosen m d cycset perm r i j) (hc : m.Consistent cycset) (hdiag : m.cfg.diagPart = true)
    (hr : firstPoint r = r) (hsingle : (cycset.bitdomains i j).options = [pv]) :
    perm.invPermOf pv = some (m.diag r) := by
  obtain ⟨q, hq⟩ := h.valid.exists_mem_den
  have hij : i = j := by rw [← h.first q hq, ← h.image q hq, hr]
  obtain rfl : m.diag i = pv := by
    have hmem : m.diag i ∈ (cycset.bitdomains i j).options := by
      rw [← hij]
      exact (BitDomain.mem_options _ _).mpr (((diagonal_cell hc hdiag i).2.2 _).mpr rfl)
    rw [hsingle, List.mem_singleton] at hmem
    exact hmem
  rw [h.valid.invPermOf_eq_some]
  intro q' hq'
  rw [hm.diag hdiag, hij, ← h.image q' hq', ← Perm.mul_apply, hq'.1.eq, Perm.mul_apply]

/-- Learning ends the examination of an option. -/
private theorem learn_drop (hm : Serves m d) (hR : Ruled m d cycset G S) {perm₀ perm : PPerm n}
    {r i j : Fin n} (hoff : m.Consistent cycset → m.cfg.diagPart = true → firstPoint r ≠ r)
    (h : Chosen m d cycset perm r i j)
    (hset : m.Consistent cycset → ∀ q ∈ den d perm, Settled cycset q (firstPoint r) r)
    {v : Verdict n} (hv : VerdictOk m d cycset perm₀ r v) :
    (m.learn cycset perm r >>= fun _ => (pure v : Search n (Verdict n))).Ensures G
      (Handed m d cycset) (VerdictOk m d cycset perm₀ r) S :=
  (learn_spec hm hR h.valid (h.called hoff hset)).bind fun _ _ => ensures_pure hv

theorem singleValue_spec (hm : Serves m d) (hR : Ruled m d cycset G S) {perm : PPerm n}
    {r i j pv : Fin n} (h : Chosen m d cycset perm r i j)
    (hsingle : m.Consistent cycset → (cycset.bitdomains i j).options = [pv]) :
    (m.singleValue cycset perm r pv).Ensures G (Handed m d cycset)
      (VerdictOk m d cycset perm r) S := by
  by_cases hdiag : m.Consistent cycset ∧ m.cfg.diagPart = true ∧ firstPoint r = r
  · obtain ⟨hc, hd, hr⟩ := hdiag
    have hinv := h.inverse_diagonal hm hc hd hr (hsingle hc)
    obtain ⟨hfirst, hone, -⟩ := diagonal_cell hc hd r
    have hkeep : m.singleValue cycset perm r pv = pure (.keep perm) := by
      unfold singleValue
      simp only [hinv, hr, hfirst, hone, lt_irrefl, beq_self_eq_true, and_self, if_true, if_false]
    rw [hkeep]
    refine ensures_pure ⟨h.valid, subset_rfl, fun hc q hq => ?_⟩
    exact h.tied_of_single hc (hsingle hc) hq ((h.valid.invPermOf_eq_some _ _).mp hinv q hq)
      (by rw [hr, hfirst])
  · have hoff : m.Consistent cycset → m.cfg.diagPart = true → firstPoint r ≠ r :=
      fun hc hd hr => hdiag ⟨hc, hd, hr⟩
    have hdrop : (pure .drop : Search n (Verdict n)).Ensures G (Handed m d cycset)
        (VerdictOk m d cycset perm r) S := ensures_pure trivial
    unfold singleValue
    simp only
    split
    next inv hinv =>
      have himage := (h.valid.invPermOf_eq_some inv pv).mp hinv
      split
      next hlt =>
        exact learn_drop hm hR hoff h (fun hc q hq =>
          h.settled_of_single hc (hsingle hc) hq (himage q hq) hlt) trivial
      next =>
        split
        next heq =>
          exact ensures_pure ⟨h.valid, subset_rfl, fun hc q hq =>
            h.tied_of_single hc (hsingle hc) hq (himage q hq) heq.2⟩
        next hnot =>
          split
          next heq =>
            have hunfixed : (cycset.bitdomains (firstPoint r) r).numTrue ≠ 1 := fun hone =>
              hnot ⟨by rw [hone]; rfl, heq.2⟩
            exact learn_drop hm hR hoff h (fun hc _ _ => settled_of_unfixed hc hunfixed) trivial
          next => exact hdrop
    next hfree =>
      split
      next => exact ensures_stop hR.fault
      next inv hmin =>
        obtain ⟨hmem, hleast⟩ := List.min?_eq_some_iff.mp hmin
        obtain ⟨hunfixed, himage, hstart⟩ := h.valid.choosable_of_least hfree hmem hleast
        have hchoose : (m.choose perm inv (some pv)).Ensures G (Handed m d cycset)
            (fun c => Valid m d c.1 ∧ den d c.1 ⊆ den d perm ∧ ∀ q ∈ den d c.1, q inv = pv) S :=
          (choose_spec hm h.valid hunfixed himage hstart).mono (fun c hc => by
            obtain ⟨-, hvalid, hden⟩ := hc
            rw [hden]
            exact ⟨hvalid, fun q hq => hq.1, fun q hq => hq.2⟩) fun _ => id
        split
        next hlt =>
          refine hchoose.bind fun fixed hfixed => ?_
          obtain ⟨hvalid, hsub, hinv⟩ := hfixed
          exact learn_drop hm hR hoff (h.of_subset hvalid hsub) (fun hc q hq =>
            h.settled_of_single hc (hsingle hc) (hsub hq) (hinv q hq) hlt) trivial
        next =>
          split
          next heq =>
            refine hchoose.bind fun fixed hfixed => ensures_pure ?_
            obtain ⟨hvalid, hsub, hinv⟩ := hfixed
            exact ⟨hvalid, hsub, fun hc q hq =>
              h.tied_of_single hc (hsingle hc) (hsub hq) (hinv q hq) heq.2⟩
          next hnot =>
            split
            next heq =>
              have hunfixed : (cycset.bitdomains (firstPoint r) r).numTrue ≠ 1 := fun hone =>
                hnot ⟨by rw [hone]; rfl, heq.2⟩
              refine hchoose.bind fun fixed hfixed => ?_
              exact learn_drop hm hR hoff (h.of_subset hfixed.1 hfixed.2.1)
                (fun hc _ _ => settled_of_unfixed hc hunfixed) trivial
            next => exact hdrop

/-! ### The greatest inverse image -/

/-- What the loop over the values of the image cell knows about the values it has seen. -/
structure Searched (perm : PPerm n) (seen : List (Fin n)) (g : Greatest n) : Prop where
  le : ∀ v ∈ seen, ∀ x ∈ perm.invOptions v, (x.val : Int) ≤ toInt g.maxel
  attained : ∀ e, g.maxel = some e → ∃ v ∈ seen, e ∈ perm.invOptions v ∧
    ((perm.invOptions v).length = 1 ∨ g.maxi = some v)
  several : ∀ v, g.maxi = some v → (perm.invOptions v).length ≠ 1
  known : g.alreadyDefined ≤ seen.length ∧ (g.maxi ≠ none → g.alreadyDefined < seen.length)

private theorem le_of_max? {l : List (Fin n)} {a x : Fin n} (ha : l.max? = some a) (hx : x ∈ l) :
    (x.val : Int) ≤ a.val := by
  have := Fin.le_def.mp ((List.max?_eq_some_iff.mp ha).2 x hx)
  omega

theorem Searched.round {perm : PPerm n} {seen : List (Fin n)} {g g' : Greatest n} {pv : Fin n}
    (h : Searched perm seen g) (hg : greatestRound perm g pv = some g') :
    Searched perm (seen ++ [pv]) g' := by
  unfold greatestRound at hg
  simp only at hg
  cases hmax : (perm.invOptions pv).max? with
  | none => simp [hmax] at hg
  | some newmax =>
    have hmem := (List.max?_eq_some_iff.mp hmax).1
    simp only [hmax] at hg
    -- the old maximum is only replaced by a greater one
    have hle : ∀ top : Int, toInt g.maxel ≤ top → (newmax.val : Int) ≤ top →
        ∀ v ∈ seen ++ [pv], ∀ x ∈ perm.invOptions v, (x.val : Int) ≤ top := by
      intro top hold hnew v hv x hx
      rcases List.mem_append.mp hv with hv | hv
      · exact (h.le v hv x hx).trans hold
      · rw [List.mem_singleton.mp hv] at hx
        exact (le_of_max? hmax hx).trans hnew
    have hold : ∀ maxi e, g.maxel = some e → (∀ v, g.maxi = some v → maxi = some v) →
        ∃ v ∈ seen ++ [pv], e ∈ perm.invOptions v ∧
          ((perm.invOptions v).length = 1 ∨ maxi = some v) := by
      intro maxi e he hmaxi
      obtain ⟨v, hv, hev, hsrc⟩ := h.attained e he
      exact ⟨v, List.mem_append_left _ hv, hev, hsrc.imp_right (hmaxi v)⟩
    have hknown := h.known
    split at hg
    next hone =>
      obtain rfl := Option.some.inj hg
      refine ⟨?_, ?_, h.several, ?_⟩
      · split
        next hlt => exact hle _ (by simpa [toInt] using hlt.le) (le_refl _)
        next hlt => exact hle _ (le_refl _) (not_lt.mp hlt)
      · intro e he
        simp only at he
        split at he
        · obtain rfl := Option.some.inj he
          exact ⟨pv, by simp, hmem, Or.inl hone⟩
        · exact hold _ e he fun _ => id
      · simp only [List.length_append, List.length_singleton, Nat.cast_add, Nat.cast_one]
        exact ⟨by omega, fun hne => by have := hknown.2 hne; omega⟩
    next hseveral =>
      split at hg
      next hlt =>
        obtain rfl := Option.some.inj hg
        refine ⟨hle _ (by simpa [toInt] using hlt.le) (le_refl _), ?_, ?_, ?_⟩
        · rintro e ⟨⟩
          exact ⟨pv, by simp, hmem, Or.inr rfl⟩
        · rintro v ⟨⟩
          exact hseveral
        · simp only [List.length_append, List.length_singleton, Nat.cast_add, Nat.cast_one]
          omega
      next hlt =>
        obtain rfl := Option.some.inj hg
        refine ⟨hle _ (le_refl _) (not_lt.mp hlt), fun e he => hold _ e he fun _ => id, h.several, ?_⟩
        simp only [List.length_append, List.length_singleton, Nat.cast_add, Nat.cast_one]
        omega

theorem greatest_spec {perm : PPerm n} {vals : List (Fin n)} {g : Greatest n}
    (hg : greatest perm vals = some g) : Searched perm vals g := by
  have hloop : ∀ (l seen : List (Fin n)) (g₀ : Greatest n), Searched perm seen g₀ →
      l.foldlM (greatestRound perm) g₀ = some g → Searched perm (seen ++ l) g := by
    intro l
    induction l with
    | nil =>
      intro seen g₀ h heq
      obtain rfl := Option.some.inj heq
      simpa using h
    | cons pv rest ih =>
      intro seen g₀ h heq
      rw [List.foldlM_cons] at heq
      obtain ⟨g₁, hround, hrest⟩ := Option.bind_eq_some_iff.mp heq
      have := ih (seen ++ [pv]) g₁ (h.round hround) hrest
      rwa [List.append_assoc, List.singleton_append] at this
  refine hloop vals [] _ ⟨?_, ?_, ?_, ?_⟩ hg
  · exact fun v hv => absurd hv List.not_mem_nil
  · exact fun e he => by cases he
  · exact fun v hv => by cases hv
  · exact ⟨le_refl _, fun hne => absurd rfl hne⟩

/-- A refused choice leaves the permutation as it is. -/
theorem choose_refused {perm : PPerm n} {x : Fin n} {y : Option (Fin n)}
    (h : perm.fix x y = (perm, false)) :
    (m.choose perm x y).Ensures G (Handed m d cycset) (fun r => r = (perm, false)) S := by
  unfold choose
  have hrange : Handed m d cycset (.choose perm x y) := inRange_of_refused (by rw [h])
  refine (ensures_log (Q := fun _ => True) fun _ => ⟨hrange, trivial⟩).bind fun _ _ =>
    ensures_pure ?_
  unfold fixAndPropagate
  simp only [h, Bool.false_and, Bool.false_eq_true, if_false]

/-- The greatest inverse image is not lost by the choice of it. -/
theorem chooseGreatest_spec (hm : Serves m d) (hR : Ruled m d cycset G S) {perm : PPerm n}
    {g : Greatest n} {vals : List (Fin n)} {values minog : Int} (h : Valid m d perm)
    (hg : Searched perm vals g) (hvalues : m.Consistent cycset → values = vals.length) :
    (m.chooseGreatest perm g values minog).Ensures G (Handed m d cycset)
      (fun fixed => Valid m d fixed ∧ den d fixed ⊆ den d perm ∧
        (m.Consistent cycset → minog = toInt g.maxel → ∀ q ∈ den d fixed, ∀ e, g.maxel = some e →
          q e ∈ vals)) S := by
  unfold chooseGreatest
  split
  next hleave =>
    refine ensures_pure ⟨h, subset_rfl, fun hc heq q hq e he => ?_⟩
    obtain ⟨v, hv, hev, hsource⟩ := hg.attained e he
    have hall : g.alreadyDefined = vals.length := by
      rcases hleave with hdef | hlt
      · rw [hdef, hvalues hc]
      · exact absurd hlt (by rw [heq]; exact lt_irrefl _)
    rcases hsource with hone | hmaxi
    · rw [(h.length_invOptions e v hev).mp hone q hq]
      exact hv
    · have := hg.known.2 (by rw [hmaxi]; exact Option.some_ne_none v)
      omega
  next =>
    refine Traced.Ensures.bind (ensures_ofOption (Q := fun e => g.maxel = some e)
      (fun _ => hR.fault) fun _ he => he) fun maxel hmaxel => ?_
    refine (ensures_log (Q := fun _ => G (.fixGreatest perm maxel g.maxi))
      fun hG => ⟨trivial, hG⟩).bind fun _ hG => ?_
    obtain ⟨hbit, hstart⟩ := hR.greatest perm maxel g.maxi hG
    obtain ⟨v, hv, hev, hsource⟩ := hg.attained maxel hmaxel
    have hkeep : ∀ q : Perm (Fin n), q maxel = v → ∀ e, g.maxel = some e → q e ∈ vals := by
      intro q hqv e he
      obtain rfl : maxel = e := Option.some.inj (hmaxel.symm.trans he)
      rw [hqv]
      exact hv
    by_cases hone : (perm.invOptions v).length = 1
    · -- the greatest inverse image is known: a second value for it is refused
      have hall := (h.length_invOptions maxel v hev).mp hone
      obtain ⟨q₀, hq₀⟩ := h.exists_mem_den
      have hfixed : perm.fixed maxel = true := by
        rw [h.fixed_iff hq₀]
        exact fun q hq => (hall q hq).trans (hall q₀ hq₀).symm
      have hrefused : perm.fix maxel g.maxi = (perm, false) := by
        cases hmaxi : g.maxi with
        | none =>
          cases perm with
          | plain element part => rfl
          | bit info => exact absurd hmaxi (hbit rfl)
        | some w =>
          refine h.fix_refused hfixed fun q hq hqw => hg.several w hmaxi ?_
          rw [← hqw, hall q hq]
          exact hone
      refine (choose_refused hrefused).bind fun fixed hsame => ensures_pure ?_
      rw [hsame]
      exact ⟨h, subset_rfl, fun _ _ q hq => hkeep q (hall q hq)⟩
    · have hmaxi := hsource.resolve_left hone
      rw [hmaxi]
      refine (choose_spec hm h (h.unfixed_of_several hev hone) ((h.mem_invOptions maxel v).mp hev)
        (hstart (by rw [hmaxi]; exact Option.some_ne_none v))).bind fun fixed hfixed =>
          ensures_pure ?_
      obtain ⟨-, hvalid, hden⟩ := hfixed
      rw [hden]
      exact ⟨hvalid, fun q hq => hq.1, fun _ _ q hq => hkeep q hq.2⟩

/-! ### The two kinds of image cells -/

theorem chooseLeast_spec (hm : Serves m d) {perm : PPerm n} {newmin pv : Fin n}
    (h : Valid m d perm) (hmin : (perm.invOptions pv).min? = some newmin) :
    (m.chooseLeast perm newmin pv).Ensures G (Handed m d cycset)
      (fun fixed => Valid m d fixed ∧ den d fixed ⊆ den d perm) S := by
  obtain ⟨hmem, hleast⟩ := List.min?_eq_some_iff.mp hmin
  unfold chooseLeast
  split
  next => exact ensures_pure ⟨h, subset_rfl⟩
  next hseveral =>
    refine (choose_spec hm h (h.unfixed_of_several hmem hseveral)
      ((h.mem_invOptions newmin pv).mp hmem) (h.atStart_of_least hmem hleast)).bind fun fixed hfixed =>
        ensures_pure ⟨hfixed.2.1, ?_⟩
    rw [hfixed.2.2]
    exact fun q hq => hq.1

theorem fixedCellValues_spec (hm : Serves m d) (hR : Ruled m d cycset G S) {r i j : Fin n}
    (hoff : m.Consistent cycset → m.cfg.diagPart = true → firstPoint r ≠ r)
    (hmany : m.Consistent cycset → (cycset.bitdomains i j).options.length ≠ 1)
    (vals : List (Fin n)) {perm : PPerm n} (h : Chosen m d cycset perm r i j) :
    (m.fixedCellValues cycset r vals perm).Ensures G (Handed m d cycset) (fun _ => True) S := by
  induction vals generalizing perm with
  | nil => exact ensures_pure trivial
  | cons pv rest ih =>
    unfold fixedCellValues
    split
    next => exact ensures_stop hR.fault
    next newmin hmin =>
      split
      next =>
        refine (chooseLeast_spec hm h.valid hmin).bind fun fixed hfixed => ?_
        have hfixed' := h.of_subset hfixed.1 hfixed.2
        refine (learn_spec hm hR hfixed.1 (hfixed'.called hoff fun hc q hq =>
          hfixed'.settled_of_several (hmany hc) hq)).bind fun learned hlearned => ?_
        exact ih (hfixed'.of_subset hlearned.1 hlearned.2)
      next => exact ih h

/-- The greatest inverse image over the image cell is the least value of the cell. -/
theorem Chosen.tied_of_greatest {perm : PPerm n} {r i j : Fin n} {g : Greatest n}
    (h : Chosen m d cycset perm r i j) (hc : m.Consistent cycset)
    (hg : Searched perm (cycset.bitdomains i j).options g)
    (heq : (cycset.bitdomains (firstPoint r) r).firstel = toInt g.maxel)
    {q : Perm (Fin n)} (hq : q ∈ den d perm)
    (hattained : ∀ e, g.maxel = some e → q e ∈ (cycset.bitdomains i j).options) :
    Tied cycset q (firstPoint r, r) := by
  have hcell : candidates cycset (q (firstPoint r)) (q r) = candidates cycset i j := by
    rw [h.first q hq, h.image q hq]
  obtain ⟨b, hb, hgreatest⟩ := lastInverse_spec (hc.nonempty (q (firstPoint r)) (q r))
  have hle : ∀ v ∈ candidates cycset i j, ((q.symm v).val : Int) ≤ toInt g.maxel := by
    intro v hv
    exact hg.le v ((BitDomain.mem_options _ _).mpr hv) _
      ((h.valid.mem_invOptions _ _).mpr ⟨q, hq, apply_symm_apply q v⟩)
  apply tied_of_eq hc
  rw [hb, heq]
  obtain ⟨v, hv, rfl⟩ := hgreatest.1
  rw [hcell] at hv
  apply le_antisymm (hle v hv)
  cases hmaxel : g.maxel with
  | none =>
    have hneg := hle v hv
    rw [hmaxel] at hneg
    simp only [toInt] at hneg
    omega
  | some e =>
    have hin := (BitDomain.mem_options _ _).mp (hattained e hmaxel)
    have hle := hgreatest.2 ⟨q e, by rw [hcell]; exact hin, symm_apply_apply q e⟩
    simpa [toInt] using hle

theorem severalValues_spec (hm : Serves m d) (hR : Ruled m d cycset G S) {perm : PPerm n}
    {r i j : Fin n} (h : Chosen m d cycset perm r i j)
    (hoff : m.Consistent cycset → m.cfg.diagPart = true → firstPoint r ≠ r)
    (hmany : m.Consistent cycset → (cycset.bitdomains i j).options.length ≠ 1) :
    (m.severalValues cycset perm r (cycset.bitdomains i j)).Ensures G (Handed m d cycset)
      (VerdictOk m d cycset perm r) S := by
  have hnone : VerdictOk m d cycset perm r (.leave none) := fun k hk => by cases hk
  unfold severalValues
  split
  next =>
    exact (fixedCellValues_spec hm hR hoff hmany _ h).bind fun _ _ => ensures_pure hnone
  next =>
    simp only
    refine Traced.Ensures.bind (ensures_ofOption
      (Q := fun g => greatest perm (cycset.bitdomains i j).options = some g)
      (fun _ => hR.fault) fun _ hg => hg) fun g hg => ?_
    have hsearched := greatest_spec hg
    have hvalues : m.Consistent cycset →
        (cycset.bitdomains i j).numTrue = (cycset.bitdomains i j).options.length := by
      intro hc
      rw [(hc.exact i j).numTrue, BitDomain.length_options]
    refine (chooseGreatest_spec hm hR h.valid hsearched hvalues).bind fun fixed hfixed => ?_
    obtain ⟨hvalid, hsub, hattained⟩ := hfixed
    have hlearn := learn_drop hm hR hoff (h.of_subset hvalid hsub)
      (fun hc q hq => h.settled_of_several (hmany hc) (hsub hq)) hnone
    split
    next => exact hlearn
    next =>
      split
      next heq =>
        refine ensures_pure ?_
        rintro k ⟨⟩
        exact ⟨hvalid, hsub, fun hc q hq =>
          h.tied_of_greatest hc hsearched heq.2 (hsub hq) (hattained hc heq.2 q hq)⟩
      next =>
        split
        next => exact hlearn
        next => exact ensures_pure hnone

theorem examine_spec (hm : Serves m d) (hR : Ruled m d cycset G S) {perm : PPerm n} {r : Fin n}
    (h : Valid m d perm)
    (htied : m.Consistent cycset → ∀ q ∈ den d perm, ∀ x, toLex x < toLex (firstPoint r, r) →
      (m.cfg.diagPart = true → x.1 ≠ x.2) → Tied cycset q x) :
    (m.examine cycset perm r).Ensures G (Handed m d cycset) (VerdictOk m d cycset perm r) S := by
  unfold examine
  refine Traced.Ensures.bind (ensures_ofOption (Q := fun i => perm.permOf (firstPoint r) = some i)
    (fun _ => hR.fault) fun _ hi => hi) fun i hi => ?_
  refine Traced.Ensures.bind (ensures_ofOption (Q := fun j => perm.permOf r = some j)
    (fun _ => hR.fault) fun _ hj => hj) fun j hj => ?_
  have hchosen : Chosen m d cycset perm r i j :=
    ⟨h, h.image_of_permOf hi, h.image_of_permOf hj, htied⟩
  simp only
  split
  next hone =>
    refine Traced.Ensures.bind (ensures_ofOption
      (Q := fun pv => ofInt (cycset.bitdomains i j).firstel = some pv) (fun _ => hR.fault)
      fun _ hpv => hpv) fun pv hpv => ?_
    refine singleValue_spec hm hR hchosen fun hc => ?_
    have hlength : (cycset.bitdomains i j).options.length = 1 := by
      rw [BitDomain.length_options]
      exact_mod_cast (hc.exact i j).numTrue.symm.trans hone
    obtain ⟨a, ha⟩ := List.length_eq_one_iff.mp hlength
    have hfirst : (cycset.bitdomains i j).firstel = a.val := by
      have hmem := fun w => BitDomain.mem_options (cycset.bitdomains i j) w
      simp only [ha, List.mem_singleton] at hmem
      rw [(hc.exact i j).firstel, leastBit_eq_iff]
      refine ⟨(hmem a).mp rfl, fun w hw => ?_⟩
      rw [← Bool.not_eq_true, ← hmem]
      exact hw.ne
    rw [hfirst, ofInt_val] at hpv
    rw [ha, Option.some.inj hpv]
  next hseveral =>
    refine severalValues_spec hm hR hchosen (fun hc hdiag hr => hseveral ?_) fun hc hone => hseveral ?_
    · obtain ⟨q, hq⟩ := h.exists_mem_den
      have hij : i = j := by
        rw [← hchosen.first q hq, ← hchosen.image q hq, hr]
      rw [← hij]
      exact (diagonal_cell hc hdiag i).2.1
    · rw [(hc.exact i j).numTrue, ← BitDomain.length_options, hone]
      rfl

/-! ### The search tree -/

/-- On a node for the rows from `r` on, the cells before `(0, r)` are tied. -/
theorem Node.tied_before {perm : PPerm n} {r : Fin n} {l : List (Fin n)}
    (h : Node m d cycset l perm) (hl : ∀ j, j < r → j ∉ l) (hc : m.Consistent cycset)
    {q : Perm (Fin n)} (hq : q ∈ den d perm) (x : Fin n × Fin n)
    (hx : toLex x < toLex (firstPoint r, r)) (hoff : m.cfg.diagPart = true → x.1 ≠ x.2) :
    Tied cycset q x := by
  obtain ⟨x₁, x₂⟩ := x
  rcases (Prod.Lex.toLex_lt_toLex).mp hx with hlt | ⟨heq, hlt⟩
  · exact absurd (Fin.lt_def.mp hlt) (Nat.not_lt_zero _)
  · obtain rfl : x₁ = firstPoint x₂ := heq
    exact h.tied hc q hq x₂ (hl x₂ hlt) hoff

theorem chooseOption_spec (hm : Serves m d) {perm : PPerm n} {r option : Fin n}
    (h : Valid m d perm) (hbefore : ∀ j, j < r → perm.fixed j = true)
    (hoption : option ∈ perm.options r) :
    (m.chooseOption perm r option).Ensures G (Handed m d cycset)
      (fun c => c.2 = true ∧ Valid m d c.1 ∧ den d c.1 = {q ∈ den d perm | q r = option}) S := by
  have himage := (h.mem_options r option).mp hoption
  unfold chooseOption
  split
  next hfixed =>
    refine ensures_pure ⟨rfl, h, Set.Subset.antisymm (fun q hq => ⟨hq, ?_⟩) fun q hq => hq.1⟩
    obtain ⟨q', hq', rfl⟩ := himage
    exact (h.fixed_iff hq' r).mp hfixed q hq
  next hunfixed =>
    exact choose_spec hm h (by simpa using hunfixed) himage (h.atStart_of_fixed_before hbefore)

/-- A choice at row `r` fixes the points up to that row. -/
theorem fixed_of_choice {perm kept : PPerm n} {r option : Fin n} {later : List (Fin n)}
    (h : Valid m d perm) (hbefore : ∀ j, j ∉ r :: later → perm.fixed j = true)
    (hkept : Valid m d kept) (hsub : den d kept ⊆ den d perm)
    (himage : ∀ q ∈ den d kept, q r = option) (j : Fin n) (hj : j ∉ later) :
    kept.fixed j = true := by
  by_cases hjr : j = r
  · obtain ⟨q, hq⟩ := hkept.exists_mem_den
    rw [hjr, hkept.fixed_iff hq]
    exact fun q' hq' => (himage q' hq').trans (himage q hq).symm
  · refine h.fixed_of_den_subset hkept hsub (hbefore j ?_)
    exact fun hmem => (List.mem_cons.mp hmem).elim hjr hj

/-- What passes the examination of row `r` is a node for the later rows. -/
theorem Node.of_kept {perm chosen kept : PPerm n} {r option : Fin n} {later : List (Fin n)}
    (h : Node m d cycset (r :: later) perm) (hsub : den d chosen ⊆ den d perm)
    (himage : ∀ q ∈ den d chosen, q r = option) (hkept : Kept m d cycset chosen r kept) :
    Node m d cycset later kept := by
  refine ⟨hkept.valid, fixed_of_choice h.valid h.before hkept.valid (hkept.subset.trans hsub)
    fun q hq => himage q (hkept.subset hq), fun hc q hq j hj hoff => ?_⟩
  by_cases hjr : j = r
  · rw [hjr]
    exact hkept.tied hc q hq
  · refine h.tied hc q (hsub (hkept.subset hq)) j ?_ hoff
    exact fun hmem => (List.mem_cons.mp hmem).elim hjr hj

theorem filterOptions_spec (hm : Serves m d) (hR : Ruled m d cycset G S) {perm : PPerm n}
    {r : Fin n} {later : List (Fin n)} (h : Node m d cycset (r :: later) perm)
    (hl : ∀ j, j < r → j ∉ r :: later) (options : List (Fin n))
    (hoptions : ∀ v ∈ options, v ∈ perm.options r) :
    (m.filterOptions cycset perm r options).Ensures G (Handed m d cycset)
      (fun kept => ∀ k ∈ kept, Node m d cycset later k) S := by
  induction options with
  | nil => exact ensures_pure fun k hk => absurd hk List.not_mem_nil
  | cons option rest ih =>
    have hrest := ih fun v hv => hoptions v (List.mem_cons_of_mem option hv)
    unfold filterOptions
    refine (chooseOption_spec hm h.valid (fun j hj => h.before j (hl j hj))
      (hoptions option List.mem_cons_self)).bind
      fun chosen hchosen => ?_
    obtain ⟨-, hvalid, hden⟩ := hchosen
    have hsub : den d chosen.1 ⊆ den d perm := by
      rw [hden]
      exact fun q hq => hq.1
    have himage : ∀ q ∈ den d chosen.1, q r = option := by
      rw [hden]
      exact fun q hq => hq.2
    split
    next =>
      refine (examine_spec hm hR hvalid fun hc q hq x hx hoff =>
        h.tied_before hl hc (hsub hq) x hx hoff).bind fun verdict hverdict => ?_
      cases verdict with
      | drop => exact hrest
      | keep kept =>
        refine hrest.bind fun others hothers => ensures_pure fun k hk => ?_
        rcases List.mem_cons.mp hk with rfl | hk
        · exact h.of_kept hsub himage hverdict
        · exact hothers k hk
      | leave kept =>
        refine ensures_pure fun k hk => h.of_kept hsub himage (hverdict k ?_)
        simpa using hk
    next => exact hrest

theorem checkMinimality_spec (hm : Serves m d) (hR : Ruled m d cycset G S) (isFinal : Bool)
    (rows : List (Fin n)) (hrows : rows.Pairwise (· < ·)) {perm : PPerm n}
    (h : Node m d cycset rows perm) (depth its : Int) :
    (m.checkMinimality cycset isFinal rows perm depth its).Ensures G (Handed m d cycset)
      (fun _ => True) S := by
  induction rows generalizing perm depth its with
  | nil => exact ensures_pure trivial
  | cons r later ih =>
    obtain ⟨hr, hlater⟩ := List.pairwise_cons.mp hrows
    have hl : ∀ j, j < r → j ∉ r :: later := by
      intro j hj hmem
      rcases List.mem_cons.mp hmem with rfl | hmem
      · exact lt_irrefl j hj
      · exact lt_asymm hj (hr j hmem)
    unfold checkMinimality
    split
    next => exact ensures_stop hR.limit
    next =>
      simp only
      refine (filterOptions_spec hm hR h hl _ fun v hv => hv).bind fun propagated hkept => ?_
      refine ensures_fold (fun _ _ => True) propagated (fun option hoption _ its _ => ?_) [] _ trivial
      have hnode := hkept option hoption
      split
      next hfull =>
        obtain ⟨q, hq⟩ := hnode.valid.exists_mem_den
        rw [hnode.valid.getPerm_of_fixed
          (fun x => List.all_eq_true.mp hfull x (List.mem_finRange x)) hq]
        refine Traced.Ensures.bind (ensures_ofOption (Q := fun p => p = ⇑q)
          (fun hnone => by cases hnone) fun p hp => (Option.some.inj hp).symm) fun p hp => ?_
        rw [hp]
        refine (permFullyDefinedCheck_spec hR hm hq.1 fun hc x hx hoff => ?_).bind
          fun _ _ => ensures_pure trivial
        refine hnode.tied_before (fun j hj hmem => ?_) hc hq x hx hoff
        exact hl j hj (List.mem_cons_of_mem r hmem)
      next =>
        split
        · split
          · exact ih hlater hnode _ _
          · exact ensures_pure trivial
        · exact ih hlater hnode _ _

/-- Everything a run of `MinCheck` hands on is about symmetries of the diagonal. -/
theorem minCheck_spec (hm : Serves m d) (hR : Ruled m d cycset G S) (isFinal : Bool) :
    (m.minCheck cycset isFinal).Ensures G (Handed m d cycset) (fun _ => True) S := by
  unfold minCheck
  refine checkMinimality_spec hm hR isFinal _ (List.pairwise_lt_finRange n) ⟨?_, ?_, ?_⟩ _ _
  · exact (valid_initialPart hm).1
  · exact fun j hj => absurd (List.mem_finRange j) hj
  · exact fun _ _ _ j hj => absurd (List.mem_finRange j) hj

end MinCheck

end YbeSms.Source
