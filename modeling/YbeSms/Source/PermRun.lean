import YbeSms.Source.PermSpec

/-!
# Choosing images along cycles

Source: ybe-sms/src/minCheck_V2.cpp:95-151, useful.cpp:279-542. A choice of one
image is carried along the whole cycle of the point. What a `pperm_common` can
still become is the set `den`; `Valid` holds of the permutations a search builds
as long as every image is fixed at the first remaining point of its class.
-/

namespace YbeSms.Source

open YbeSms.Library Equiv

variable {n : Nat}

theorem PlainRep.congr {d : Perm (Fin n)} {A : Set (Fin n)} {p q : Perm (Fin n)}
    {element : Fin n → Fin n} {part : Fin n → Bool} (h : PlainRep d A p element part)
    (hpq : Set.EqOn q p A) : PlainRep d A q element part :=
  ⟨h.injective, h.start, fun i hi => (h.agree i hi).trans (hpq hi).symm, h.length, h.cell⟩

theorem Rep.congr {d : Perm (Fin n)} {A : Set (Fin n)} {p q : Perm (Fin n)} {perm : PPerm n}
    (h : Rep d A p perm) (hpq : Set.EqOn q p A) : Rep d A q perm := by
  cases perm with
  | plain element part => exact PlainRep.congr h hpq
  | bit info => exact ⟨h.exact, fun e v => (h.row e v).trans (mayMap_congr hpq e v).symm⟩

/-! ### One cycle -/

section OneCycle

variable {d : Perm (Fin n)} {A : Set (Fin n)} {x : Fin n}

/-- `A` with the first `k` points of the cycle of `x`. -/
def withCycle (d : Perm (Fin n)) (A : Set (Fin n)) (x : Fin n) (k : Nat) : Set (Fin n) :=
  A ∪ {w | ∃ j, j < k ∧ (d ^ j) x = w}

theorem withCycle_zero : withCycle d A x 0 = A := by simp [withCycle]

theorem withCycle_succ (k : Nat) :
    withCycle d A x (k + 1) = insert ((d ^ k) x) (withCycle d A x k) := by
  ext w
  simp only [withCycle, Set.mem_union, Set.mem_ofPred_eq, Set.mem_insert_iff]
  constructor
  · rintro (hw | ⟨j, hj, rfl⟩)
    · exact Or.inr (Or.inl hw)
    · rcases Nat.lt_succ_iff_lt_or_eq.mp hj with hj | rfl
      · exact Or.inr (Or.inr ⟨j, hj, rfl⟩)
      · exact Or.inl rfl
  · rintro (rfl | hw | ⟨j, hj, rfl⟩)
    · exact Or.inr ⟨k, Nat.lt_succ_self k, rfl⟩
    · exact Or.inl hw
    · exact Or.inr ⟨j, Nat.lt_succ_of_lt hj, rfl⟩

theorem withCycle_all : withCycle d A x (cycleLength d x) = A ∪ {w | d.SameCycle x w} := by
  ext w
  simp only [withCycle, Set.mem_union, Set.mem_ofPred_eq, sameCycle_iff_exists_lt]

theorem not_mem_withCycle (hA : Closed d A) (hx : x ∉ A) {k : Nat} (hk : k < cycleLength d x) :
    (d ^ k) x ∉ withCycle d A x k := by
  rintro (hmem | ⟨j, hj, hsame⟩)
  · rw [← zpow_natCast] at hmem
    exact hx ((hA.mem_iff k x).mp hmem)
  · have := pow_injOn (by omega) hk hsame
    omega

theorem isFirst_of_leastLeft (hA : Closed d A) (hx : x ∉ A) (hleast : LeastLeft d A x) :
    IsFirst d x := by
  rintro j ⟨k, rfl⟩
  exact hleast _ (fun hmem => hx ((hA.mem_iff k x).mp hmem)) (sameLength_zpow k x)

theorem leastLeft_withCycle (h : Layered d) (hA : Closed d A) (hx : x ∉ A)
    (hleast : LeastLeft d A x) {k : Nat} (hk : k < cycleLength d x) :
    LeastLeft d (withCycle d A x k) ((d ^ k) x) := by
  intro j hj hlen
  have hfirst := isFirst_of_leastLeft hA hx hleast
  have hxk := h.pow_val hfirst hk
  have hxj : x ≤ j := by
    refine hleast j (fun hmem => hj (Or.inl hmem)) ?_
    have hsame := sameLength_zpow (d := d) k x
    rw [zpow_natCast] at hsame
    exact hsame.trans hlen
  by_contra hlt
  have hlt' := Fin.lt_def.mp (not_le.mp hlt)
  have hxj' := Fin.le_def.mp hxj
  refine hj (Or.inr ⟨j.val - x.val, by omega, Fin.ext ?_⟩)
  rw [h.pow_val hfirst (by omega)]
  omega

/-- Where the values of a plain permutation stand while the cycle of `x` is being fixed. -/
structure Tracked (d : Perm (Fin n)) (e₀ target : Perm (Fin n)) (x y : Fin n) (k : Nat)
    (element : Fin n → Fin n) : Prop where
  off : ∀ w, ¬ d.SameCycle x w →
    element w = if ∃ j, j < k ∧ e₀ w = (d ^ j) y then target w else e₀ w
  ahead : ¬ d.SameCycle (e₀ x) y → ∀ j, k ≤ j → j < cycleLength d x →
    element ((d ^ j) x) = e₀ ((d ^ j) x)

theorem pow_apply_of_commute {e : Perm (Fin n)} (he : Commute e d) (k : Nat) (w : Fin n) :
    (d ^ k) (e w) = e ((d ^ k) w) := by
  have h := zpow_apply_of_commute he k w
  rwa [zpow_natCast] at h

variable {e₀ : Perm (Fin n)} {y : Fin n} {element : Fin n → Fin n}

theorem Tracked.start (e₀ target : Perm (Fin n)) (y : Fin n) : Tracked d e₀ target x y 0 e₀ :=
  ⟨fun w _ => by simp, fun _ _ _ _ => rfl⟩

/-- One round: position `d ^ k x` takes the value `d ^ k y` from wherever it stands. -/
theorem Tracked.step (he : Commute e₀ d) (hlen : SameLength d (e₀ x) y) {k : Nat}
    (hk : k < cycleLength d x)
    (h : Tracked d e₀ (exchange d (e₀ x) y hlen * e₀) x y k element)
    (hinj : Function.Injective element) {swp : Fin n} (hswp : element swp = (d ^ k) y) :
    Tracked d e₀ (exchange d (e₀ x) y hlen * e₀) x y (k + 1)
      (element ∘ Equiv.swap ((d ^ k) x) swp) := by
  have hcycle : ∀ j : Nat, d.SameCycle x ((d ^ j) x) := fun j =>
    Perm.sameCycle_pow_right.mpr (Perm.SameCycle.refl d x)
  have hdis : ∀ w, ¬ d.SameCycle x w → (∃ j : Nat, e₀ w = (d ^ j) y) →
      ¬ d.SameCycle (e₀ x) y := by
    rintro w hw ⟨j, hj⟩ hsame
    obtain ⟨i, hi⟩ : d.SameCycle (e₀ x) (e₀ w) := by
      rw [hj]
      exact Perm.sameCycle_pow_right.mpr hsame
    rw [zpow_apply_of_commute he] at hi
    exact hw ⟨i, e₀.injective hi⟩
  have hback : ¬ d.SameCycle (e₀ x) y → ∀ (w : Fin n) (j : Nat), e₀ w = (d ^ j) y →
      (exchange d (e₀ x) y hlen * e₀) w = (d ^ j) (e₀ x) := by
    intro hxy w j hj
    rw [Perm.mul_apply, hj]
    simpa only [zpow_natCast] using exchange_zpow_right hlen hxy j
  refine ⟨fun w hw => ?_, fun hxy j hkj hj => ?_⟩
  · have hwx : w ≠ (d ^ k) x := fun heq => hw (heq ▸ hcycle k)
    by_cases hws : w = swp
    · -- the value `d ^ k y` leaves `w`, which takes what stood at `d ^ k x`
      subst hws
      rw [Function.comp_apply, Equiv.swap_apply_right]
      have hoff := h.off w hw
      rw [hswp] at hoff
      have hval : e₀ w = (d ^ k) y := by
        by_cases hcond : ∃ j, j < k ∧ e₀ w = (d ^ j) y
        · rw [if_pos hcond] at hoff
          obtain ⟨j, -, hj⟩ := hcond
          have hxy := hdis w hw ⟨j, hj⟩
          rw [hback hxy w j hj] at hoff
          have hsame : d.SameCycle (e₀ x) ((d ^ k) y) := by
            rw [hoff]
            exact Perm.sameCycle_pow_right.mpr (Perm.SameCycle.refl d _)
          exact absurd (Perm.sameCycle_pow_right.mp hsame) hxy
        · rw [if_neg hcond] at hoff
          exact hoff.symm
      have hxy := hdis w hw ⟨k, hval⟩
      rw [if_pos ⟨k, Nat.lt_succ_self k, hval⟩, h.ahead hxy k (le_refl k) hk, hback hxy w k hval,
        pow_apply_of_commute he]
    · rw [Function.comp_apply, Equiv.swap_apply_of_ne_of_ne hwx hws, h.off w hw]
      by_cases hcond : ∃ j, j < k ∧ e₀ w = (d ^ j) y
      · obtain ⟨j, hj, hval⟩ := hcond
        rw [if_pos ⟨j, hj, hval⟩, if_pos ⟨j, Nat.lt_succ_of_lt hj, hval⟩]
      · rw [if_neg hcond, if_neg]
        rintro ⟨j, hj, hval⟩
        rcases Nat.lt_succ_iff_lt_or_eq.mp hj with hj | rfl
        · exact hcond ⟨j, hj, hval⟩
        · have hoff := h.off w hw
          rw [if_neg hcond] at hoff
          exact hws (hinj (hoff.trans (hval.trans hswp.symm)))
  · have hne : (d ^ j) x ≠ (d ^ k) x := by
      intro heq
      have := pow_injOn hj hk heq
      omega
    have hold := h.ahead hxy j (by omega) hj
    have hns : (d ^ j) x ≠ swp := by
      intro heq
      rw [← heq, hold, ← pow_apply_of_commute he] at hswp
      have hsame : d.SameCycle (e₀ x) ((d ^ k) y) := by
        rw [← hswp]
        exact Perm.sameCycle_pow_right.mpr (Perm.SameCycle.refl d _)
      exact hxy (Perm.sameCycle_pow_right.mp hsame)
    rw [Function.comp_apply, Equiv.swap_apply_of_ne_of_ne hne hns, hold]

/-- Behind the last round every value stands where the exchange puts it. -/
theorem Tracked.finish (he : Commute e₀ d) (hlen : SameLength d (e₀ x) y)
    (h : Tracked d e₀ (exchange d (e₀ x) y hlen * e₀) x y (cycleLength d x) element)
    (hon : ∀ w, d.SameCycle x w → element w = (exchange d (e₀ x) y hlen * e₀) w) (w : Fin n) :
    element w = (exchange d (e₀ x) y hlen * e₀) w := by
  by_cases hw : d.SameCycle x w
  · exact hon w hw
  · rw [h.off w hw]
    split
    · rfl
    next hcond =>
      rw [Perm.mul_apply, exchange_off]
      · rintro ⟨i, hi⟩
        rw [zpow_apply_of_commute he] at hi
        exact hw ⟨i, e₀.injective hi⟩
      · intro hyw
        obtain ⟨j, hj, hval⟩ := sameCycle_iff_exists_lt.mp hyw
        refine hcond ⟨j, ?_, hval.symm⟩
        have hxy := (sameLength_iff _ _).mp ((sameLength_of_commute he x).trans hlen)
        omega

/-- The state of a permutation when the first `k` points of the cycle of `x` are fixed. -/
structure Stage (d : Perm (Fin n)) (A : Set (Fin n)) (e₀ target : Perm (Fin n)) (x y : Fin n)
    (k : Nat) (perm : PPerm n) : Prop where
  rep : Rep d (withCycle d A x k) target perm
  tracked : ∀ element part, perm = .plain element part → Tracked d e₀ target x y k element

/-- A plain permutation is only fixed at the first remaining point of a class. -/
def MayFix (d : Perm (Fin n)) (A : Set (Fin n)) (x : Fin n) (perm : PPerm n) : Prop :=
  ∀ element part, perm = .plain element part → LeastLeft d A x

/-- Which representation is in use. -/
def isBit : PPerm n → Bool
  | .plain _ _ => false
  | .bit _ => true

@[simp] theorem isBit_fix (perm : PPerm n) (i : Fin n) (img : Option (Fin n)) :
    isBit (perm.fix i img).1 = isBit perm := by
  cases perm with
  | plain element part =>
    cases img with
    | none => rfl
    | some img =>
      rw [PPerm.fix, PPerm.fixPlain]
      simp only
      split <;> rfl
  | bit info =>
    rw [PPerm.fix]
    split <;> rfl

theorem MayFix.of_isBit {perm perm' : PPerm n} (h : MayFix d A x perm)
    (hsame : isBit perm' = isBit perm) : MayFix d A x perm' := by
  rintro element part rfl
  cases perm with
  | plain element' part' => exact h element' part' rfl
  | bit info => cases hsame

theorem Stage.fix (hd : Layered d) (hA : Closed d A) (hx : x ∉ A) (he : Commute e₀ d)
    (hlen : SameLength d (e₀ x) y) {k : Nat} (hk : k < cycleLength d x) {perm : PPerm n}
    (hleast : MayFix d A x perm)
    (h : Stage d A e₀ (exchange d (e₀ x) y hlen * e₀) x y k perm) :
    (perm.fix ((d ^ k) x) (some ((d ^ k) y))).2 = true ∧
      Stage d A e₀ (exchange d (e₀ x) y hlen * e₀) x y (k + 1)
        (perm.fix ((d ^ k) x) (some ((d ^ k) y))).1 := by
  have hE : Commute (exchange d (e₀ x) y hlen * e₀) d := (exchange_commute hlen).mul_left he
  have himage : (exchange d (e₀ x) y hlen * e₀) ((d ^ k) x) = (d ^ k) y := by
    rw [← pow_apply_of_commute hE, exchange_mul_apply]
  have hnot := not_mem_withCycle hA hx hk
  have hsame := sameLength_of_commute hE
  have hrep := h.rep
  rw [← himage]
  cases perm with
  | plain element part =>
    have hleft := leastLeft_withCycle hd hA hx (hleast element part rfl) hk
    obtain ⟨part', swp, hswp, hfix, hrep'⟩ := PlainRep.fix hrep hsame hnot hleft
    rw [PPerm.fix, hfix]
    refine ⟨rfl, by rw [withCycle_succ]; exact hrep', ?_⟩
    rintro _ _ ⟨⟩
    exact (h.tracked element part rfl).step he hlen hk (PlainRep.injective hrep)
      (hswp.trans himage)
  | bit info =>
    obtain ⟨hok, info', hfix, hrep'⟩ := BitRep.fix hrep hsame hnot
    refine ⟨hok, ?_, ?_⟩
    · rw [withCycle_succ, hfix]
      exact hrep'
    · intro element part hplain
      rw [hfix] at hplain
      cases hplain

/-- The pairs that a choice `x` to `y` forces, from the point `k` of the cycle on. -/
def cyclePairs (d : Perm (Fin n)) (x y : Fin n) (k len : Nat) : List (Fin n × Option (Fin n)) :=
  (List.range' k len).map fun j => ((d ^ j) x, some ((d ^ j) y))

theorem Stage.fixAlong (hd : Layered d) (hA : Closed d A) (hx : x ∉ A) (he : Commute e₀ d)
    (hlen : SameLength d (e₀ x) y) (len k : Nat) (hk : k + len = cycleLength d x) (perm : PPerm n)
    (hleast : MayFix d A x perm)
    (h : Stage d A e₀ (exchange d (e₀ x) y hlen * e₀) x y k perm) :
    (MinCheck.fixAlong perm (cyclePairs d x y k len)).2 = true ∧
      Stage d A e₀ (exchange d (e₀ x) y hlen * e₀) x y (cycleLength d x)
        (MinCheck.fixAlong perm (cyclePairs d x y k len)).1 := by
  induction len generalizing k perm with
  | zero =>
    obtain rfl : k = cycleLength d x := by omega
    exact ⟨rfl, h⟩
  | succ len ih =>
    obtain ⟨hok, hnext⟩ := h.fix hd hA hx he hlen (by omega) hleast
    have hrest := ih (k + 1) (by omega) _ (hleast.of_isBit (isBit_fix _ _ _)) hnext
    have hcons : cyclePairs d x y k (len + 1) =
        ((d ^ k) x, some ((d ^ k) y)) :: cyclePairs d x y (k + 1) len := rfl
    rw [hcons, MinCheck.fixAlong]
    simp only [hok, if_true]
    exact hrest

end OneCycle

/-! ### `fixAndPropagate` -/

section Choose

variable {m : MinCheck n} {d : Perm (Fin n)}

/-- The object checks against the permutations that commute with `d`: all of them without a
diagonal, else those of a listed diagonal. -/
structure Serves (m : MinCheck n) (d : Perm (Fin n)) : Prop where
  layered : Layered d
  diag : m.cfg.diagPart = true → m.diag = d
  plain : m.cfg.diagPart = false → d = 1

/-- A symmetry of the diagonal commutes with the stored vector. -/
theorem Serves.commute_diag (hm : Serves m d) (hdiag : m.cfg.diagPart = true) {q : Perm (Fin n)}
    (hq : Commute q d) (x : Fin n) : q (m.diag x) = m.diag (q x) := by
  rw [hm.diag hdiag, ← Perm.mul_apply, hq.eq, Perm.mul_apply]

theorem Serves.diagIsId_iff (hm : Serves m d) : m.diagIsId = true ↔ d = 1 := by
  unfold MinCheck.diagIsId
  cases hdiag : m.cfg.diagPart with
  | false => simp [hm.plain hdiag]
  | true =>
    rw [hm.diag hdiag]
    simp [Equiv.ext_iff]

theorem Serves.diag_eq (hm : Serves m d) (hd : d ≠ 1) : m.diag = d := by
  refine hm.diag ?_
  by_contra hdiag
  exact hd (hm.plain (by simpa using hdiag))

theorem getElem?_cycleList (d : Perm (Fin n)) (x : Fin n) {k : Nat} (hk : k < cycleLength d x) :
    (cycleList d x)[k]? = some ((d ^ k) x) := by
  simp [cycleList, hk]

theorem pow_mod_cycleLength (d : Perm (Fin n)) (x : Fin n) (k : Nat) :
    (d ^ (k % cycleLength d x)) x = (d ^ k) x := by
  rw [← Perm.smul_def, cycleLength, MulAction.pow_mod_period_smul, Perm.smul_def]

theorem tail_cycleList (d : Perm (Fin n)) (x : Fin n) :
    (cycleList d x).tail = (List.range' 1 (cycleLength d x - 1)).map fun k => (d ^ k) x := by
  rw [cycleList, ← List.map_tail, List.tail_range]

/-- Whatever its branch, `propagateDecision` sends the cycle to the cycle of the image. -/
theorem propagateDecision_eq (hm : Serves m d) (hd : d ≠ 1) {perm : PPerm n} {r y : Fin n}
    (hdec : perm.permOf r = some y) (hlen : SameLength d r y) :
    m.propagateDecision perm r =
      MinCheck.fixAlong perm (cyclePairs d r y 1 (cycleLength d r - 1)) := by
  have hpart : cyclePart m.diag = cyclePart d := by rw [hm.diag_eq hd]
  have hpos := cycleLength_pos d r
  unfold MinCheck.propagateDecision
  simp only [hdec, hpart, cycle_eq hm.layered, cycleOfImage, Option.some.injEq]
  split
  next hyr =>
    rw [hyr, tail_cycleList, List.map_map]
    rfl
  next hyr =>
    split
    next hmem =>
      have hsame : d.SameCycle r y := by
        refine mem_cycleList.mp ?_
        simpa using hmem
      obtain ⟨k, hk, rfl⟩ := sameCycle_iff_exists_lt.mp hsame
      have hk' : k < ((cycleList d r).map some).length := by simpa using hk
      have hget : ((cycleList d r).map some)[k] = some ((d ^ k) r) := by simp [cycleList]
      have hidx : ((cycleList d r).map some).idxOf (some ((d ^ k) r)) = k := by
        rw [← hget]
        exact (List.Nodup.map (Option.some_injective _) (nodup_cycleList d r)).idxOf_getElem k hk'
      congr 1
      rw [hidx, length_cycleList, cyclePairs, List.filterMap_eq_map_iff_forall_eq_some]
      intro i hi
      have hiL : i < cycleLength d r := by
        have := List.mem_range'_1.mp hi
        omega
      rw [getElem?_cycleList d r hiL, getElem?_cycleList d r (Nat.mod_lt _ hpos),
        pow_mod_cycleLength, pow_add, Perm.mul_apply]
      rfl
    next hmem =>
      have hlens : (cycleList d y).length = cycleLength d r := by
        rw [length_cycleList, (sameLength_iff _ _).mp hlen]
      rw [if_neg (by simpa using hlens)]
      congr 1
      rw [tail_cycleList, ← List.map_tail, tail_cycleList, cyclePairs,
        ← (sameLength_iff _ _).mp hlen, List.map_map, List.zip_map']
      rfl

/-- The permutation stands for the images of `p` on `A`; all values of a plain one are placed
like those of a permutation commuting with `d`. -/
structure Stands (d : Perm (Fin n)) (A : Set (Fin n)) (p : Perm (Fin n)) (perm : PPerm n) :
    Prop where
  closed : Closed d A
  commute : Commute p d
  rep : Rep d A p perm
  placed : ∀ element part, perm = .plain element part → ∀ i, element (d i) = d (element i)

/-- The values a permutation holds, as a permutation that commutes with `d`. -/
theorem Stands.exists_placed {A : Set (Fin n)} {p : Perm (Fin n)} {perm : PPerm n}
    (h : Stands d A p perm) :
    ∃ e₀ : Perm (Fin n), Commute e₀ d ∧ Set.EqOn e₀ p A ∧
      ∀ element part, perm = .plain element part → element = e₀ := by
  cases perm with
  | plain element part =>
    have hrep : PlainRep d A p element part := h.rep
    refine ⟨Equiv.ofBijective element
      ⟨hrep.injective, Finite.injective_iff_surjective.mp hrep.injective⟩, ?_, hrep.agree, ?_⟩
    · exact Equiv.ext fun i => h.placed element part rfl i
    · rintro _ _ ⟨⟩
      rfl
  | bit info =>
    refine ⟨p, h.commute, fun _ _ => rfl, ?_⟩
    intro element part hplain
    cases hplain

/-- A free image at the first remaining point of a class: the permutation to aim for, and the
first fix on the way to it. -/
theorem Stands.fixFirst (hm : Serves m d) {A : Set (Fin n)} {p : Perm (Fin n)} {perm : PPerm n}
    (h : Stands d A p perm) {x y : Fin n} (hx : x ∉ A) (hy : p.symm y ∉ A)
    (hlen : SameLength d x y) (hleast : MayFix d A x perm) :
    ∃ (e₀ : Perm (Fin n)) (hz : SameLength d (e₀ x) y), Commute e₀ d ∧
      exchange d (e₀ x) y hz * e₀ ∈ Choices d A p ∧
      (perm.fix x (some y)).2 = true ∧ (perm.fix x (some y)).1.permOf x = some y ∧
      Stage d A e₀ (exchange d (e₀ x) y hz * e₀) x y 1 (perm.fix x (some y)).1 := by
  obtain ⟨e₀, he, heq, hplaced⟩ := h.exists_placed
  have hfree : e₀.symm y ∉ A := by
    intro hmem
    have hval : p (e₀.symm y) = y := by rw [← heq hmem, apply_symm_apply]
    rw [← hval, symm_apply_apply] at hy
    exact hy hmem
  have hz : SameLength d (e₀ x) y := (sameLength_of_commute he x).symm.trans hlen
  have hmem := exchange_mem_choices h.closed he hx hfree hz
  have hE : Commute (exchange d (e₀ x) y hz * e₀) d := hmem.1
  have hstart : Stage d A e₀ (exchange d (e₀ x) y hz * e₀) x y 0 perm := by
    refine ⟨?_, fun element part hplain => ?_⟩
    · rw [withCycle_zero]
      exact h.rep.congr fun a ha => (hmem.2 ha).trans (heq ha)
    · rw [hplaced element part hplain]
      exact Tracked.start e₀ _ y
  obtain ⟨hok, hone⟩ := hstart.fix hm.layered h.closed hx he hz (cycleLength_pos d x) hleast
  rw [pow_zero, Perm.one_apply, Perm.one_apply] at hok hone
  have hxmem : x ∈ withCycle d A x 1 := Or.inr ⟨0, Nat.one_pos, rfl⟩
  have hfixed : (perm.fix x (some y)).1.fixed x = true := by
    rw [hone.rep.fixed_iff (sameLength_of_commute hE)]
    rintro v (⟨-, hv⟩ | ⟨hnot, -⟩)
    · exact hv
    · exact absurd hxmem hnot
  have hdec := hone.rep.permOf_eq (sameLength_of_commute hE) hfixed
  rw [exchange_mul_apply hz] at hdec
  exact ⟨e₀, hz, he, ⟨hE, fun a ha => (hmem.2 ha).trans (heq ha)⟩, hok, hdec, hone⟩

/-- Choosing a free image at the first remaining point of a class settles its cycle. -/
theorem Stands.fixAndPropagate (hm : Serves m d) {A : Set (Fin n)} {p : Perm (Fin n)}
    {perm : PPerm n} (h : Stands d A p perm) {x y : Fin n} (hx : x ∉ A) (hy : p.symm y ∉ A)
    (hlen : SameLength d x y) (hleast : MayFix d A x perm) :
    ∃ q ∈ Choices d A p, q x = y ∧ (m.fixAndPropagate perm x (some y)).2 = true ∧
      Stands d (A ∪ {w | d.SameCycle x w}) q (m.fixAndPropagate perm x (some y)).1 := by
  obtain ⟨e₀, hz, he, hmem, hok, hdec, hone⟩ := h.fixFirst hm hx hy hlen hleast
  have hE : Commute (exchange d (e₀ x) y hz * e₀) d := hmem.1
  have hdone : (m.fixAndPropagate perm x (some y)).2 = true ∧
      Stage d A e₀ (exchange d (e₀ x) y hz * e₀) x y (cycleLength d x)
        (m.fixAndPropagate perm x (some y)).1 := by
    unfold MinCheck.fixAndPropagate
    by_cases hd : d = 1
    · have hL : cycleLength d x = 1 := by
        rw [hd]
        exact MulAction.period_one _ x
      simp only [(hm.diagIsId_iff).mpr hd, Bool.not_true, Bool.and_false, Bool.false_eq_true,
        if_false]
      exact ⟨hok, hL ▸ hone⟩
    · have hnotId : m.diagIsId = false := by
        rw [← Bool.not_eq_true, hm.diagIsId_iff]
        exact hd
      simp only [hok, hnotId, Bool.not_false, Bool.and_true, if_true,
        propagateDecision_eq hm hd hdec hlen]
      have hpos := cycleLength_pos d x
      exact hone.fixAlong hm.layered h.closed hx he hz _ 1 (by omega) _
        (hleast.of_isBit (isBit_fix _ _ _))
  refine ⟨_, hmem, exchange_mul_apply hz, hdone.1, h.closed.union_cycle x, hE, ?_, ?_⟩
  · rw [← withCycle_all]
    exact hdone.2.rep
  · intro element part hplain i
    have hrep : PlainRep d (withCycle d A x (cycleLength d x)) (exchange d (e₀ x) y hz * e₀)
        element part := by
      have := hdone.2.rep
      rw [hplain] at this
      exact this
    have hall := (hdone.2.tracked element part hplain).finish he hz fun w hw =>
      hrep.agree w (by rw [withCycle_all]; exact Or.inr hw)
    rw [hall, hall, ← Perm.mul_apply, hE.eq, Perm.mul_apply]

/-! ### What a search may rely on -/

/-- The permutations that a partially chosen one can still become. -/
def den (d : Perm (Fin n)) (perm : PPerm n) : Set (Perm (Fin n)) :=
  {q | Commute q d ∧ ∀ x, q x ∈ perm.options x}

theorem Stands.den_eq {A : Set (Fin n)} {p : Perm (Fin n)} {perm : PPerm n}
    (h : Stands d A p perm) : den d perm = Choices d A p := by
  ext q
  constructor
  · rintro ⟨hq, hall⟩
    refine ⟨hq, fun a ha => ?_⟩
    rcases (h.rep.mem_options a (q a)).mp (hall a) with ⟨-, hqa⟩ | ⟨hnot, -⟩
    · exact hqa
    · exact absurd ha hnot
  · intro hq
    exact ⟨hq.1, fun x => (h.rep.mem_options x (q x)).mpr
      ((mayMap_iff h.closed h.commute x (q x)).mpr ⟨q, hq, rfl⟩)⟩

/-- A permutation as the search builds it. -/
structure Valid (m : MinCheck n) (d : Perm (Fin n)) (perm : PPerm n) : Prop where
  bit : isBit perm = true → m.cfg.useBit = true
  stands : ∃ A p, Stands d A p perm

/-- A plain permutation starts a cell at this position. -/
def AtStart (perm : PPerm n) (x : Fin n) : Prop :=
  ∀ element part, perm = .plain element part → part x = true

variable {perm : PPerm n}

theorem Valid.exists_mem_den (h : Valid m d perm) : ∃ q, q ∈ den d perm := by
  obtain ⟨A, p, hs⟩ := h.stands
  exact ⟨p, hs.den_eq ▸ ⟨hs.commute, fun _ _ => rfl⟩⟩

theorem Valid.mem_options (h : Valid m d perm) (x y : Fin n) :
    y ∈ perm.options x ↔ ∃ q ∈ den d perm, q x = y := by
  obtain ⟨A, p, hs⟩ := h.stands
  rw [hs.rep.mem_options, mayMap_iff hs.closed hs.commute, hs.den_eq]

theorem Valid.mem_invOptions (h : Valid m d perm) (x y : Fin n) :
    x ∈ perm.invOptions y ↔ ∃ q ∈ den d perm, q x = y := by
  obtain ⟨A, p, hs⟩ := h.stands
  rw [hs.rep.mem_invOptions, mayMap_iff hs.closed hs.commute, hs.den_eq]

theorem Valid.fixed_iff (h : Valid m d perm) {q : Perm (Fin n)} (hq : q ∈ den d perm) (x : Fin n) :
    perm.fixed x = true ↔ ∀ q' ∈ den d perm, q' x = q x := by
  obtain ⟨A, p, hs⟩ := h.stands
  rw [hs.rep.fixed_iff (sameLength_of_commute hs.commute)]
  have hpq := (mayMap_iff hs.closed hs.commute x (q x)).mpr ⟨q, hs.den_eq ▸ hq, rfl⟩
  constructor
  · intro hall q' hq'
    rw [hall _ hpq]
    exact hall _ ((mayMap_iff hs.closed hs.commute x _).mpr ⟨q', hs.den_eq ▸ hq', rfl⟩)
  · intro hall y hy
    obtain ⟨q', hq', rfl⟩ := (mayMap_iff hs.closed hs.commute x y).mp hy
    rw [hall q' (hs.den_eq ▸ hq')]
    exact (hall p (hs.den_eq ▸ ⟨hs.commute, fun _ _ => rfl⟩)).symm

theorem Valid.permOf_eq (h : Valid m d perm) {q : Perm (Fin n)} (hq : q ∈ den d perm) {x : Fin n}
    (hx : perm.fixed x = true) : perm.permOf x = some (q x) := by
  obtain ⟨A, p, hs⟩ := h.stands
  rw [hs.rep.permOf_eq (sameLength_of_commute hs.commute) hx]
  have hp : p ∈ den d perm := hs.den_eq ▸ ⟨hs.commute, fun _ _ => rfl⟩
  rw [(h.fixed_iff hq x).mp hx p hp]

theorem Valid.image_of_permOf (h : Valid m d perm) {x y : Fin n}
    (hy : perm.permOf x = some y) : ∀ q ∈ den d perm, q x = y := by
  intro q hq
  have hfixed : perm.fixed x = true := by
    by_contra hnot
    rw [permOf_eq_none (by simpa using hnot)] at hy
    cases hy
  rw [h.permOf_eq hq hfixed] at hy
  exact Option.some.inj hy

theorem Valid.invPermOf_eq_some (h : Valid m d perm) (x y : Fin n) :
    perm.invPermOf y = some x ↔ ∀ q ∈ den d perm, q x = y := by
  obtain ⟨A, p, hs⟩ := h.stands
  have hp : p ∈ den d perm := hs.den_eq ▸ ⟨hs.commute, fun _ _ => rfl⟩
  rw [hs.rep.invPermOf_eq_some (sameLength_of_commute hs.commute), h.fixed_iff hp]
  constructor
  · rintro ⟨hall, rfl⟩ q hq
    exact hall q hq
  · intro hall
    exact ⟨fun q hq => (hall q hq).trans (hall p hp).symm, hall p hp⟩

/-- The greatest and least positions of a value: the options are never empty. -/
theorem Valid.invOptions_ne_nil (h : Valid m d perm) (y : Fin n) : perm.invOptions y ≠ [] := by
  obtain ⟨q, hq⟩ := h.exists_mem_den
  exact List.ne_nil_of_mem ((h.mem_invOptions (q.symm y) y).mpr ⟨q, hq, apply_symm_apply q y⟩)

theorem Valid.length_invOptions (h : Valid m d perm) (x y : Fin n) (hx : x ∈ perm.invOptions y) :
    (perm.invOptions y).length = 1 ↔ ∀ q ∈ den d perm, q x = y := by
  have hmem := fun z => h.mem_invOptions z y
  constructor
  · intro hlen q hq
    obtain ⟨a, ha⟩ := List.length_eq_one_iff.mp hlen
    have hqa : q.symm y ∈ perm.invOptions y := (hmem _).mpr ⟨q, hq, apply_symm_apply q y⟩
    rw [ha, List.mem_singleton] at hqa hx
    rw [hx, ← hqa, apply_symm_apply]
  · intro hall
    have hone : perm.invOptions y = [x] := by
      have hnodup := nodup_invOptions perm y
      have hsub : ∀ z ∈ perm.invOptions y, z = x := by
        intro z hz
        obtain ⟨q, hq, hqz⟩ := (hmem z).mp hz
        exact q.injective (hqz.trans (hall q hq).symm)
      exact (List.perm_singleton.mp ((List.perm_ext_iff_of_nodup hnodup (List.nodup_singleton x)).mpr
        fun z => by
          rw [List.mem_singleton]
          exact ⟨hsub z, fun hz => hz ▸ hx⟩))
    rw [hone]
    rfl

/-- A fixed point refuses every image but its own. -/
theorem Valid.fix_refused (h : Valid m d perm) {x y : Fin n} (hx : perm.fixed x = true)
    (hy : ∀ q ∈ den d perm, q x ≠ y) : perm.fix x (some y) = (perm, false) := by
  obtain ⟨q, hq⟩ := h.exists_mem_den
  cases perm with
  | plain element part =>
    have himage := h.permOf_eq hq hx
    unfold PPerm.permOf at himage
    rw [if_pos hx, Option.some.injEq] at himage
    have hne : element x ≠ y := himage ▸ hy q hq
    rw [PPerm.fix, PPerm.fixPlain]
    simp [hx, hne]
  | bit info =>
    have hget : info.get x (some y) = false := by
      rw [← Bool.not_eq_true]
      intro htrue
      have hmem : x ∈ (PPerm.bit info).invOptions y :=
        List.mem_filter.mpr ⟨List.mem_finRange x, htrue⟩
      obtain ⟨q, hq, hqx⟩ := (h.mem_invOptions x y).mp hmem
      exact hy q hq hqx
    rw [PPerm.fix, if_neg (by simp [hget])]

@[simp] theorem isBit_fixAlong (perm : PPerm n) (l : List (Fin n × Option (Fin n))) :
    isBit (MinCheck.fixAlong perm l).1 = isBit perm := by
  induction l generalizing perm with
  | nil => rfl
  | cons q l ih =>
    rw [MinCheck.fixAlong]
    split
    · rw [ih, isBit_fix]
    · exact isBit_fix perm q.1 q.2

@[simp] theorem isBit_fixAndPropagate (m : MinCheck n) (perm : PPerm n) (x : Fin n)
    (img : Option (Fin n)) : isBit (m.fixAndPropagate perm x img).1 = isBit perm := by
  unfold MinCheck.fixAndPropagate MinCheck.propagateDecision
  simp only
  split
  · split
    · rw [isBit_fixAlong, isBit_fix]
    · split
      · rw [isBit_fixAlong, isBit_fix]
      · split
        · exact isBit_fix perm x img
        · rw [isBit_fixAlong, isBit_fix]
  · exact isBit_fix perm x img

/-- A possible image of an unfixed point is free, and a cell start is the first of its class. -/
theorem Valid.exists_free (h : Valid m d perm) {x y : Fin n} (hx : perm.fixed x = false)
    (hy : ∃ q ∈ den d perm, q x = y) (hstart : AtStart perm x) :
    ∃ A p, Stands d A p perm ∧ x ∉ A ∧ p.symm y ∉ A ∧ SameLength d x y ∧ MayFix d A x perm := by
  obtain ⟨A, p, hs⟩ := h.stands
  have hp : p ∈ den d perm := hs.den_eq ▸ ⟨hs.commute, fun _ _ => rfl⟩
  have hxA : x ∉ A := by
    intro hmem
    have hfixed : perm.fixed x = true := by
      rw [h.fixed_iff hp]
      intro q hq
      rw [hs.den_eq] at hq
      exact hq.2 hmem
    rw [hx] at hfixed
    cases hfixed
  rw [hs.den_eq] at hy
  rcases (mayMap_iff hs.closed hs.commute x y).mpr hy with ⟨hmem, -⟩ | ⟨-, hfree, hlen⟩
  · exact absurd hmem hxA
  refine ⟨A, p, hs, hxA, hfree, hlen, ?_⟩
  rintro element part rfl j hj hlen'
  have hcell := ((PlainRep.cell hs.rep) x j).mpr (Or.inr ⟨hxA, hj, hlen'⟩)
  by_contra hlt
  have := (sameCell_of_le (not_le.mp hlt).le).mp hcell.symm x (not_le.mp hlt) (le_refl x)
  rw [hstart element part rfl] at this
  cases this

/-- A possible image at the start of a cell can be chosen, and the choice says just that. -/
theorem Valid.choose (hm : Serves m d) (h : Valid m d perm) {x y : Fin n}
    (hx : perm.fixed x = false) (hy : ∃ q ∈ den d perm, q x = y) (hstart : AtStart perm x) :
    (m.fixAndPropagate perm x (some y)).2 = true ∧
      Valid m d (m.fixAndPropagate perm x (some y)).1 ∧
      den d (m.fixAndPropagate perm x (some y)).1 = {q ∈ den d perm | q x = y} := by
  obtain ⟨A, p, hs, hxA, hfree, hlen, hleast⟩ := h.exists_free hx hy hstart
  obtain ⟨q, hq, hqx, hok, hnew⟩ := hs.fixAndPropagate hm hxA hfree hlen hleast
  refine ⟨hok, ⟨fun hbit => h.bit (by rwa [isBit_fixAndPropagate] at hbit), _, _, hnew⟩, ?_⟩
  rw [hnew.den_eq, choices_union_cycle hq.1, choices_eq_of_mem hq, hs.den_eq, hqx]

/-- After the fix itself, before the cycle is propagated, the image can be read. -/
theorem Valid.permOf_fix (hm : Serves m d) (h : Valid m d perm) {x y : Fin n}
    (hx : perm.fixed x = false) (hy : ∃ q ∈ den d perm, q x = y) (hstart : AtStart perm x) :
    (perm.fix x (some y)).1.permOf x = some y := by
  obtain ⟨A, p, hs, hxA, hfree, hlen, hleast⟩ := h.exists_free hx hy hstart
  obtain ⟨-, -, -, -, -, hdec, -⟩ := hs.fixFirst hm hxA hfree hlen hleast
  exact hdec

private theorem sameCell_trans {A : Set (Fin n)} {p : Perm (Fin n)} {element : Fin n → Fin n}
    {part : Fin n → Bool} (h : PlainRep d A p element part) {i j k : Fin n}
    (hij : SameCell part i j) (hjk : SameCell part j k) : SameCell part i k := by
  rcases (h.cell i j).mp hij with rfl | ⟨hi, -, hlen⟩
  · exact hjk
  · rcases (h.cell j k).mp hjk with rfl | ⟨-, hk, hlen'⟩
    · exact hij
    · exact (h.cell i k).mpr (Or.inr ⟨hi, hk, hlen.trans hlen'⟩)

/-- When all earlier points are fixed, an unfixed point starts its cell. -/
theorem Valid.atStart_of_fixed_before (h : Valid m d perm) {x : Fin n}
    (hbefore : ∀ j, j < x → perm.fixed j = true) : AtStart perm x := by
  rintro element part rfl
  obtain ⟨A, p, hs⟩ := h.stands
  have hrep : PlainRep d A p element part := hs.rep
  by_contra hmark
  obtain ⟨w, hlt, hcell⟩ := exists_sameCell_before hrep.start hmark
  exact hlt.ne' ((fixed_plain_iff hrep.start w).mp (hbefore w hlt) x hcell)

/-- The least position that can take a value starts its cell. -/
theorem Valid.atStart_of_least (h : Valid m d perm) {x y : Fin n}
    (hx : x ∈ perm.invOptions y) (hleast : ∀ z ∈ perm.invOptions y, x ≤ z) : AtStart perm x := by
  rintro element part rfl
  obtain ⟨A, p, hs⟩ := h.stands
  have hrep : PlainRep d A p element part := hs.rep
  by_contra hmark
  obtain ⟨w, hlt, hcell⟩ := exists_sameCell_before hrep.start hmark
  rw [PPerm.invOptions] at hx hleast
  obtain ⟨i, hi⟩ := (Finite.injective_iff_surjective.mp hrep.injective) y
  rw [(position_eq_some hrep.injective y i).mpr hi] at hx hleast
  refine absurd hlt (not_lt_of_ge (hleast w ((mem_cellPositions part i w).mpr ?_)))
  exact sameCell_trans hrep ((mem_cellPositions part i x).mp hx) hcell.symm

/-- A value nobody takes yet, with the least position that can: the position is free to be chosen. -/
theorem Valid.choosable_of_least (h : Valid m d perm) {x y : Fin n}
    (hfree : perm.invPermOf y = none) (hx : x ∈ perm.invOptions y)
    (hleast : ∀ z ∈ perm.invOptions y, x ≤ z) :
    perm.fixed x = false ∧ (∃ q ∈ den d perm, q x = y) ∧ AtStart perm x := by
  obtain ⟨q, hq, hqx⟩ := (h.mem_invOptions x y).mp hx
  refine ⟨?_, ⟨q, hq, hqx⟩, h.atStart_of_least hx hleast⟩
  rw [← Bool.not_eq_true]
  intro hfixed
  have hall := (h.fixed_iff hq x).mp hfixed
  rw [(h.invPermOf_eq_some x y).mpr fun q' hq' => (hall q' hq').trans hqx] at hfree
  cases hfree

/-- A value that several positions can take is at a position that is not fixed. -/
theorem Valid.unfixed_of_several (h : Valid m d perm) {x y : Fin n} (hx : x ∈ perm.invOptions y)
    (hseveral : (perm.invOptions y).length ≠ 1) : perm.fixed x = false := by
  obtain ⟨q, hq, hqx⟩ := (h.mem_invOptions x y).mp hx
  rw [← Bool.not_eq_true]
  intro hfixed
  have hall := (h.fixed_iff hq x).mp hfixed
  exact hseveral ((h.length_invOptions x y hx).mpr fun q' hq' => (hall q' hq').trans hqx)

end Choose

end YbeSms.Source
