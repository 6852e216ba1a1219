import YbeSms.Source.SearchRun

/-!
# Searching without a diagonal to respect

Source: ybe-sms/src/useful.cpp:336-373; minCheck_V2.cpp:46-284. When `diagIsId`
holds nothing is propagated, and a `pperm_plain` holds every value once whatever
is fixed where. So a run over plain permutations hands on permutations under no
condition on its steps, and calls `addClauses` at no diagonal cell.
-/

namespace YbeSms.Source

open YbeSms.Library Equiv
open YbeSms.Library.Traced (ensures_pure ensures_stop ensures_log ensures_logAll ensures_ofOption
  ensures_fold)

variable {n : Nat}

/-- A plain permutation with every value in one place. -/
def Holds (perm : PPerm n) : Prop :=
  ∃ element part, perm = .plain element part ∧ Function.Injective element

theorem Holds.fix {perm : PPerm n} (h : Holds perm) (x : Fin n) (y : Option (Fin n)) :
    Holds (perm.fix x y).1 := by
  obtain ⟨element, part, rfl, hinj⟩ := h
  rw [PPerm.fix]
  cases y with
  | none => exact ⟨element, part, rfl, hinj⟩
  | some y =>
    unfold PPerm.fixPlain
    simp only
    split
    · exact ⟨element, part, rfl, hinj⟩
    · refine ⟨_, _, rfl, ?_⟩
      split
      next swp _ =>
        rw [swapped_eq]
        exact hinj.comp (Equiv.swap x swp).injective
      next => exact hinj

theorem Holds.getPerm {perm : PPerm n} (h : Holds perm) {p : Fin n → Fin n}
    (hp : perm.getPerm = some p) : ∃ q : Perm (Fin n), p = q := by
  obtain ⟨element, part, rfl, hinj⟩ := h
  obtain rfl := Option.some.inj hp
  exact ⟨Equiv.ofBijective element ⟨hinj, Finite.injective_iff_surjective.mp hinj⟩, rfl⟩

theorem Holds.invPermOf {perm : PPerm n} (h : Holds perm) {x v : Fin n}
    (hv : perm.permOf x = some v) : perm.invPermOf v = some x := by
  obtain ⟨element, part, rfl, hinj⟩ := h
  unfold PPerm.permOf at hv
  split at hv
  next hfixed =>
    have hposition : position element v = some x :=
      (position_eq_some hinj v x).mpr (Option.some.inj hv)
    simp [PPerm.invPermOf, hposition, hfixed]
  next => cases hv

theorem holds_ppermPlain {d : Perm (Fin n)} (h : Layered d) : Holds (ppermPlain d) := by
  have hrep : Rep d ∅ 1 (ppermPlain d) := (stands_ppermPlain h).rep
  exact ⟨_, _, rfl, PlainRep.injective hrep⟩

namespace MinCheck

/-- What a genuine search hands on: symmetries of `d`, and points as arguments of `diag.cycle`. -/
def Genuine (m : MinCheck n) (d : Perm (Fin n)) : Event n → Prop
  | .learn p _ _ => ∃ q : Perm (Fin n), p = q ∧ Commute q d
  | .check p _ _ => ∃ q : Perm (Fin n), p = q ∧ Commute q d
  | .choose perm i j => m.InRange perm i j
  | .fixGreatest _ _ _ => True

theorem Handed.genuine {m : MinCheck n} {d : Perm (Fin n)} {cycset : CycleSet n} {e : Event n}
    (h : Handed m d cycset e) : Genuine m d e := by
  cases e with
  | learn p r c =>
    obtain ⟨q, hq, hcalled⟩ := h
    exact ⟨q, hq, hcalled.commute⟩
  | check p r c => exact h
  | choose perm i j => exact h
  | fixGreatest perm maxel maxi => trivial

section Identity

/-- `S` covers every way to stop, whatever permutation a clause is thrown for at a cell off the
diagonal. -/
structure Covers (m : MinCheck n) (cycset : CycleSet n) (G : Event n → Prop) (S : Stop → Prop) :
    Prop where
  limit : S .limit
  fault : S .fault
  clause : ∀ (q : Perm (Fin n)) r c cls, G (.learn q r c) →
    (m.Consistent cycset → m.cfg.diagPart = true → r ≠ c) →
    m.addClauses cycset q r c = some cls → S (.clause cls)

variable {m : MinCheck n} {cycset : CycleSet n} {G : Event n → Prop} {S : Stop → Prop}

/-- The triples of this section. -/
abbrev Keeps {α : Type} (m : MinCheck n) (G : Event n → Prop) (S : Stop → Prop) (x : Search n α)
    (Q : α → Prop) : Prop :=
  x.Ensures G (Genuine m 1) Q S

theorem genuine_learn {p : Fin n → Fin n} (hp : ∃ q : Perm (Fin n), p = q) (r c : Fin n) :
    Genuine m 1 (.learn p r c) := by
  obtain ⟨q, hq⟩ := hp
  exact ⟨q, hq, Commute.one_right q⟩

section Unpropagated

variable (hm : Serves m 1)

include hm

theorem fixAndPropagate_eq_fix (perm : PPerm n) (x : Fin n) (y : Option (Fin n)) :
    m.fixAndPropagate perm x y = perm.fix x y := by
  unfold fixAndPropagate
  simp [hm.diagIsId_iff.mpr rfl]

theorem inRange_of_serves (perm : PPerm n) (x : Fin n) (y : Option (Fin n)) :
    m.InRange perm x y := by
  intro z hz
  unfold queries at hz
  simp only [hm.diagIsId_iff.mpr rfl, Bool.not_true, Bool.and_false, Bool.false_eq_true,
    if_false] at hz
  exact absurd hz List.not_mem_nil

theorem choose_keeps {perm : PPerm n} (h : Holds perm) (x : Fin n) (y : Option (Fin n)) :
    Keeps m G S (m.choose perm x y) fun r => Holds r.1 := by
  have hrange : Genuine m 1 (.choose perm x y) := inRange_of_serves hm perm x y
  unfold choose
  refine (ensures_log (Q := fun _ => True) fun _ => ⟨hrange, trivial⟩).bind fun _ _ =>
    ensures_pure ?_
  rw [fixAndPropagate_eq_fix hm]
  exact h.fix x y

theorem extendCalls_genuine (l : List (Fin n)) (perm : PPerm n) :
    ∀ e ∈ m.extendCalls l perm, Genuine m 1 e := by
  induction l generalizing perm with
  | nil => exact fun e he => absurd he List.not_mem_nil
  | cons i rest ih =>
    intro e he
    unfold extendCalls at he
    split at he
    · split at he
      · exact absurd he List.not_mem_nil
      · rcases List.mem_cons.mp he with rfl | he
        · exact inRange_of_serves hm _ _ _
        · exact ih _ e he
    · exact ih _ e he

theorem Holds.extendFrom (l : List (Fin n)) {perm r : PPerm n} (h : Holds perm)
    (hr : m.extendFrom l perm = some r) : Holds r := by
  induction l generalizing perm with
  | nil =>
    obtain rfl := Option.some.inj hr
    exact h
  | cons i rest ih =>
    rw [MinCheck.extendFrom] at hr
    split at hr
    · split at hr
      · cases hr
      · rw [fixAndPropagate_eq_fix hm] at hr
        exact ih (h.fix i _) hr
    · exact ih h hr

/-- A diagonal cell and its image are equal, so the option is kept. -/
theorem singleValue_diagonal (hc : m.Consistent cycset) (hd : m.cfg.diagPart = true)
    {perm : PPerm n} (h : Holds perm) {r i : Fin n} (hr : firstPoint r = r)
    (hi : perm.permOf r = some i) :
    m.singleValue cycset perm r (m.diag i) = pure (.keep perm) := by
  have hself : ∀ x, m.diag x = x := fun x => by rw [hm.diag hd, Perm.one_apply]
  obtain ⟨hfirst, hone, -⟩ := diagonal_cell hc hd r
  unfold singleValue
  simp only [hr, hself, h.invPermOf hi, hfirst, hone, lt_irrefl, if_false, beq_self_eq_true,
    and_self, if_true]

end Unpropagated

variable (hS : Covers m cycset G S)

include hS

theorem throwClauses_keeps {p : Fin n → Fin n} (hp : ∃ q : Perm (Fin n), p = q) {r c : Fin n}
    (hoff : m.Consistent cycset → m.cfg.diagPart = true → r ≠ c) :
    Keeps m G S (m.throwClauses cycset p r c) fun _ => True := by
  unfold throwClauses
  refine (ensures_log (Q := fun _ => G (.learn p r c)) fun hG => ⟨genuine_learn hp r c, hG⟩).bind
    fun _ hG => ?_
  obtain ⟨q, rfl⟩ := hp
  cases hadd : m.addClauses cycset q r c with
  | none => exact ensures_pure trivial
  | some clause => exact ensures_stop (hS.clause q r c clause hG hoff hadd)

theorem getPerm_keeps {perm : PPerm n} (h : Holds perm) :
    Keeps m G S (Traced.ofOption .fault perm.getPerm) fun p => ∃ q : Perm (Fin n), p = q :=
  ensures_ofOption (fun _ => hS.fault) fun _ hp => h.getPerm hp

variable (hm : Serves m 1)

include hm

theorem fullRound_keeps {p : Fin n → Fin n} (hp : ∃ q : Perm (Fin n), p = q) (r c : Fin n) :
    Keeps m G S (m.fullRound cycset p r c) fun _ => True := by
  have hleave : Keeps m G S (pure .leave : Search n Round) fun _ => True := ensures_pure trivial
  have hnext : Keeps m G S (pure .next : Search n Round) fun _ => True := ensures_pure trivial
  by_cases hdiag : m.Consistent cycset ∧ m.cfg.diagPart = true ∧ r = c
  · obtain ⟨hc, hd, rfl⟩ := hdiag
    obtain ⟨q, rfl⟩ := hp
    rw [fullRound_diagonal hm hc hd (Commute.one_right q) r]
    exact hnext
  · have hcall := throwClauses_keeps hS hp (r := r) (c := c) fun hc hd heq => hdiag ⟨hc, hd, heq⟩
    have hthrow : Keeps m G S
        (m.throwClauses cycset p r c >>= fun _ => (pure .next : Search n Round)) fun _ => True :=
      hcall.bind fun _ _ => hnext
    unfold fullRound
    simp only
    split
    · exact ensures_stop hS.fault
    · split
      · exact hthrow
      · split
        · exact hnext
        · split
          · exact hthrow
          · exact hleave
    · split
      · exact hthrow
      · split
        · exact hnext
        · split
          · split
            · refine Traced.Ensures.bind (Q := fun _ => True) ?_ fun _ _ => hleave
              exact ensures_fold (fun _ _ => True) _ (fun _ _ _ _ _ => hcall) [] () trivial
            · split
              · exact hthrow
              · exact hleave
          · exact hleave

theorem permFullyDefinedCheck_keeps {p : Fin n → Fin n} (hp : ∃ q : Perm (Fin n), p = q)
    (r c : Fin n) : Keeps m G S (m.permFullyDefinedCheck cycset p r c) fun _ => True := by
  have hrounds : ∀ l, Keeps m G S (m.fullRounds cycset p l) fun _ => True := by
    intro l
    induction l with
    | nil => exact ensures_pure trivial
    | cons q rest ih =>
      unfold fullRounds
      refine (fullRound_keeps hS hm hp q.1 q.2).bind fun o _ => ?_
      cases o with
      | next => exact ih
      | leave => exact ensures_pure trivial
  obtain ⟨q, hq⟩ := hp
  unfold permFullyDefinedCheck
  refine (ensures_log (Q := fun _ => True)
    fun _ => ⟨⟨q, hq, Commute.one_right q⟩, trivial⟩).bind fun _ _ => ?_
  split
  · exact ensures_pure trivial
  · exact hrounds _

theorem extend_keeps {perm : PPerm n} (h : Holds perm) : Keeps m G S (m.extend perm) Holds := by
  unfold extend
  refine (ensures_logAll (Q := fun _ => True) fun _ => ⟨fun e he => ?_, trivial⟩).bind fun _ _ => ?_
  · split at he
    · exact extendCalls_genuine hm _ perm e he
    · exact absurd he List.not_mem_nil
  · refine ensures_ofOption (fun _ => hS.fault) fun r hr => ?_
    unfold extendPerm at hr
    split at hr
    · exact Option.some.inj hr ▸ h
    · exact Holds.extendFrom hm _ h hr

theorem learn_keeps {perm : PPerm n} (h : Holds perm) {r : Fin n}
    (hoff : m.Consistent cycset → m.cfg.diagPart = true → firstPoint r ≠ r) :
    Keeps m G S (m.learn cycset perm r) Holds := by
  unfold learn
  refine (extend_keeps hS hm h).bind fun extended hext =>
    (getPerm_keeps hS hext).bind fun p hp => ?_
  exact (throwClauses_keeps hS hp hoff).bind fun _ _ => ensures_pure hext

/-- What an examination leaves of a plain permutation. -/
def VerdictHolds : Verdict n → Prop
  | .drop => True
  | .keep kept => Holds kept
  | .leave kept => ∀ k ∈ kept, Holds k

private theorem learn_verdict {perm : PPerm n} (h : Holds perm) {r : Fin n}
    (hoff : m.Consistent cycset → m.cfg.diagPart = true → firstPoint r ≠ r) {v : Verdict n}
    (hv : VerdictHolds v) :
    Keeps m G S (m.learn cycset perm r >>= fun _ => (pure v : Search n (Verdict n))) VerdictHolds :=
  (learn_keeps hS hm h hoff).bind fun _ _ => ensures_pure hv

theorem singleValue_keeps {perm : PPerm n} (h : Holds perm) {r : Fin n}
    (hoff : m.Consistent cycset → m.cfg.diagPart = true → firstPoint r ≠ r) (pv : Fin n) :
    Keeps m G S (m.singleValue cycset perm r pv) VerdictHolds := by
  have hdrop : Keeps m G S (pure .drop : Search n (Verdict n)) VerdictHolds := ensures_pure trivial
  unfold singleValue
  simp only
  split
  · split
    · exact learn_verdict hS hm h hoff trivial
    · split
      · exact ensures_pure h
      · split
        · exact learn_verdict hS hm h hoff trivial
        · exact hdrop
  · split
    · exact ensures_stop hS.fault
    · split
      · exact (choose_keeps hm h _ _).bind fun _ hfixed => learn_verdict hS hm hfixed hoff trivial
      · split
        · exact (choose_keeps hm h _ _).bind fun _ hfixed => ensures_pure hfixed
        · split
          · exact (choose_keeps hm h _ _).bind fun _ hfixed =>
              learn_verdict hS hm hfixed hoff trivial
          · exact hdrop

theorem fixedCellValues_keeps {r : Fin n}
    (hoff : m.Consistent cycset → m.cfg.diagPart = true → firstPoint r ≠ r)
    (vals : List (Fin n)) {perm : PPerm n} (h : Holds perm) :
    Keeps m G S (m.fixedCellValues cycset r vals perm) Holds := by
  induction vals generalizing perm with
  | nil => exact ensures_pure h
  | cons pv rest ih =>
    unfold fixedCellValues
    split
    · exact ensures_stop hS.fault
    next newmin _ =>
      have hleast : Keeps m G S (m.chooseLeast perm newmin pv) Holds := by
        unfold chooseLeast
        split
        · exact ensures_pure h
        · exact (choose_keeps hm h _ _).bind fun _ hfixed => ensures_pure hfixed
      split
      · refine hleast.bind fun _ hfixed => (learn_keeps hS hm hfixed hoff).bind fun _ hlearned => ?_
        exact ih hlearned
      · exact ih h

theorem severalValues_keeps {perm : PPerm n} (h : Holds perm) {r : Fin n}
    (hoff : m.Consistent cycset → m.cfg.diagPart = true → firstPoint r ≠ r)
    (permVal : BitDomain n) :
    Keeps m G S (m.severalValues cycset perm r permVal) VerdictHolds := by
  have hnone : VerdictHolds (.leave (none : Option (PPerm n))) := fun k hk => by cases hk
  unfold severalValues
  split
  · exact (fixedCellValues_keeps hS hm hoff _ h).bind fun _ _ => ensures_pure hnone
  · simp only
    refine Traced.Ensures.bind (ensures_ofOption (Q := fun _ => True) (fun _ => hS.fault)
      fun _ _ => trivial) fun g _ => ?_
    have hgreatest : Keeps m G S (m.chooseGreatest perm g permVal.numTrue
        (cycset.bitdomains (firstPoint r) r).firstel) Holds := by
      unfold chooseGreatest
      split
      · exact ensures_pure h
      · refine Traced.Ensures.bind (ensures_ofOption (Q := fun _ => True) (fun _ => hS.fault)
          fun _ _ => trivial) fun maxel _ => ?_
        refine (ensures_log (Q := fun _ => True) fun _ => ⟨trivial, trivial⟩).bind fun _ _ => ?_
        exact (choose_keeps hm h _ _).bind fun _ hfixed => ensures_pure hfixed
    refine hgreatest.bind fun fixed hfixed => ?_
    split
    · exact learn_verdict hS hm hfixed hoff hnone
    · split
      · refine ensures_pure ?_
        rintro k ⟨⟩
        exact hfixed
      · split
        · exact learn_verdict hS hm hfixed hoff hnone
        · exact ensures_pure hnone

theorem examine_keeps {perm : PPerm n} (h : Holds perm) (r : Fin n) :
    Keeps m G S (m.examine cycset perm r) VerdictHolds := by
  have hpoint : ∀ x, Keeps m G S (Traced.ofOption .fault (perm.permOf x))
      fun i => perm.permOf x = some i :=
    fun x => ensures_ofOption (fun _ => hS.fault) fun _ hi => hi
  unfold examine
  refine (hpoint _).bind fun i hi => (hpoint _).bind fun j hj => ?_
  have hvalue : Keeps m G S
      (Traced.ofOption .fault (ofInt (n := n) (cycset.bitdomains i j).firstel))
      fun pv => ofInt (cycset.bitdomains i j).firstel = some pv :=
    ensures_ofOption (fun _ => hS.fault) fun _ hpv => hpv
  simp only
  by_cases hdiag : m.Consistent cycset ∧ m.cfg.diagPart = true ∧ firstPoint r = r
  · obtain ⟨hc, hd, hr⟩ := hdiag
    rw [hr, hj, Option.some.injEq] at hi
    subst hi
    obtain ⟨hfirst, hone, -⟩ := diagonal_cell hc hd j
    rw [if_pos hone]
    refine hvalue.bind fun pv hpv => ?_
    rw [hfirst, ofInt_val, Option.some.injEq] at hpv
    rw [← hpv, singleValue_diagonal hm hc hd h hr hj]
    exact ensures_pure h
  · have hoff : m.Consistent cycset → m.cfg.diagPart = true → firstPoint r ≠ r :=
      fun hc hd hr => hdiag ⟨hc, hd, hr⟩
    split
    · exact hvalue.bind fun pv _ => singleValue_keeps hS hm h hoff pv
    · exact severalValues_keeps hS hm h hoff _

theorem filterOptions_keeps {perm : PPerm n} (h : Holds perm) (r : Fin n)
    (options : List (Fin n)) :
    Keeps m G S (m.filterOptions cycset perm r options) fun kept => ∀ k ∈ kept, Holds k := by
  induction options with
  | nil => exact ensures_pure fun k hk => absurd hk List.not_mem_nil
  | cons option rest ih =>
    have hchoose : Keeps m G S (m.chooseOption perm r option) fun c => Holds c.1 := by
      unfold chooseOption
      split
      · exact ensures_pure h
      · exact choose_keeps hm h _ _
    unfold filterOptions
    refine hchoose.bind fun chosen hchosen => ?_
    split
    · refine (examine_keeps hS hm hchosen r).bind fun verdict hverdict => ?_
      cases verdict with
      | drop => exact ih
      | keep kept =>
        refine ih.bind fun others hothers => ensures_pure fun k hk => ?_
        rcases List.mem_cons.mp hk with rfl | hk
        · exact hverdict
        · exact hothers k hk
      | leave kept => exact ensures_pure fun k hk => hverdict k (by simpa using hk)
    · exact ih

theorem checkMinimality_keeps (isFinal : Bool) (rows : List (Fin n)) {perm : PPerm n}
    (h : Holds perm) (depth its : Int) :
    Keeps m G S (m.checkMinimality cycset isFinal rows perm depth its) fun _ => True := by
  induction rows generalizing perm depth its with
  | nil => exact ensures_pure trivial
  | cons r later ih =>
    unfold checkMinimality
    split
    · exact ensures_stop hS.limit
    · simp only
      refine (filterOptions_keeps hS hm h r _).bind fun propagated hkept => ?_
      refine ensures_fold (fun _ _ => True) propagated (fun option hoption _ its _ => ?_) [] _ trivial
      have hholds := hkept option hoption
      split
      · refine (getPerm_keeps hS hholds).bind fun p hp => ?_
        exact (permFullyDefinedCheck_keeps hS hm hp (firstPoint r) r).bind fun _ _ =>
          ensures_pure trivial
      · split
        · split
          · exact ih hholds _ _
          · exact ensures_pure trivial
        · exact ih hholds _ _

/-- Over plain permutations, a run that respects no diagonal hands on permutations. -/
theorem minCheck_keeps (hplain : Holds m.initialPart) (isFinal : Bool) :
    Keeps m G S (m.minCheck cycset isFinal) fun _ => True :=
  checkMinimality_keeps hS hm isFinal _ hplain _ _

end Identity

end MinCheck

end YbeSms.Source
