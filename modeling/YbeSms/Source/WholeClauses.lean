import YbeSms.Source.WholeTable

/-!
# Clauses from a whole table

Source: ybe-sms/src/minCheckCommon.cpp:42-114; minCheck_V2.cpp:46-284. On a whole
table every image cell has one value, so the search never fixes a greatest inverse
image: what may go wrong there in a partial check does not happen in a final one.
-/

namespace YbeSms.Source

open YbeSms.Library YbeSms.Abstract Equiv
open YbeSms.Library.Traced (ensures_pure ensures_stop ensures_log ensures_logAll ensures_ofOption
  ensures_fold)

variable {n : Nat}

namespace MinCheck

/-- The cycle set of a whole table in which every other value is refused. -/
structure Total (m : MinCheck n) (cycset : CycleSet n) (M : Fin n → Fin n → Fin n) : Prop extends
    m.Shows cycset M where
  refused : ∀ i j v, m.isDiagValue cycset i v = false → M i j ≠ v →
    cycset.assignments i j v = .isFalse

theorem total_ofTable {m : MinCheck n} {M : Fin n → Fin n → Fin n} (hM : m.Admits M) :
    m.Total (ofTable M) M where
  toShows := shows_ofTable hM
  refused i j v _ hne := by simp [ofTable, hne]

/-- No greatest inverse image is fixed. -/
def Unforced : Event n → Prop
  | .fixGreatest _ _ _ => False
  | _ => True

/-- Whatever a computation returns, it fixes no greatest inverse image. -/
abbrev Quiet {α : Type} (x : Search n α) : Prop :=
  x.Ensures (fun _ => True) Unforced (fun _ => True) fun _ => True

variable {m : MinCheck n} {cycset : CycleSet n}

theorem throwClauses_quiet (q : Fin n → Fin n) (r c : Fin n) :
    Quiet (m.throwClauses cycset q r c) := by
  unfold throwClauses
  apply (ensures_log (Q := fun _ => True) fun _ => ⟨trivial, trivial⟩).bind
  intro _ _
  split
  · exact ensures_stop trivial
  · exact ensures_pure trivial

theorem choose_quiet (perm : PPerm n) (i : Fin n) (j : Option (Fin n)) :
    Quiet (m.choose perm i j) := by
  unfold choose
  apply (ensures_log (Q := fun _ => True) fun _ => ⟨trivial, trivial⟩).bind
  exact fun _ _ => ensures_pure trivial

theorem unforced_of_extendCalls (l : List (Fin n)) (perm : PPerm n) :
    ∀ e ∈ m.extendCalls l perm, Unforced e := by
  induction l generalizing perm with
  | nil => exact fun e he => absurd he List.not_mem_nil
  | cons i rest ih =>
    intro e he
    unfold extendCalls at he
    split at he
    · split at he
      · exact absurd he List.not_mem_nil
      next v _ _ =>
        rcases List.mem_cons.mp he with rfl | he
        · trivial
        · exact ih _ e he
    · exact ih _ e he

theorem learn_quiet (perm : PPerm n) (r : Fin n) : Quiet (m.learn cycset perm r) := by
  have hextend : Quiet (m.extend perm) := by
    unfold extend
    apply (ensures_logAll (Q := fun _ => True) fun _ => ⟨?_, trivial⟩).bind
    · exact fun _ _ => ensures_ofOption (fun _ => trivial) fun _ _ => trivial
    · split
      · exact unforced_of_extendCalls _ _
      · exact fun e he => absurd he List.not_mem_nil
  unfold learn
  apply hextend.bind
  intro extended _
  apply (ensures_ofOption (Q := fun _ => True) (fun _ => trivial) fun _ _ => trivial).bind
  intro p _
  exact (throwClauses_quiet p (firstPoint r) r).bind fun _ _ => ensures_pure trivial

theorem singleValue_quiet (perm : PPerm n) (r pv : Fin n) :
    Quiet (m.singleValue cycset perm r pv) := by
  have hlearn : ∀ perm : PPerm n, Quiet (m.learn cycset perm r >>= fun _ =>
      (pure .drop : Search n (Verdict n))) :=
    fun perm => (learn_quiet perm r).bind fun _ _ => ensures_pure trivial
  have hkeep : ∀ v : Verdict n, Quiet (pure v : Search n (Verdict n)) :=
    fun v => ensures_pure trivial
  unfold singleValue
  simp only
  split
  · split
    · exact hlearn _
    · split
      · exact hkeep _
      · split
        · exact hlearn _
        · exact hkeep _
  · split
    · exact ensures_stop trivial
    · split
      · exact (choose_quiet _ _ _).bind fun _ _ => hlearn _
      · split
        · exact (choose_quiet _ _ _).bind fun _ _ => hkeep _
        · split
          · exact (choose_quiet _ _ _).bind fun _ _ => hlearn _
          · exact hkeep _

section Whole

variable (hone : ∀ i j, (cycset.bitdomains i j).numTrue = 1)

include hone

/-- A cell with one value has no greatest among several. -/
theorem examine_quiet (perm : PPerm n) (r : Fin n) : Quiet (m.examine cycset perm r) := by
  have hget : ∀ {α : Type} (o : Option α), Quiet (Traced.ofOption .fault o : Search n α) :=
    fun o => ensures_ofOption (fun _ => trivial) fun _ _ => trivial
  unfold examine
  apply (hget _).bind
  intro i _
  apply (hget _).bind
  intro j _
  simp only [hone, if_true]
  apply (hget _).bind
  exact fun pv _ => singleValue_quiet perm r pv

theorem filterOptions_quiet (perm : PPerm n) (r : Fin n) (options : List (Fin n)) :
    Quiet (m.filterOptions cycset perm r options) := by
  induction options with
  | nil => exact ensures_pure trivial
  | cons option rest ih =>
    have hchoose : Quiet (m.chooseOption perm r option) := by
      unfold chooseOption
      split
      · exact ensures_pure trivial
      · exact choose_quiet _ _ _
    unfold filterOptions
    apply hchoose.bind
    intro chosen _
    split
    · apply (examine_quiet hone chosen.1 r).bind
      intro verdict _
      cases verdict with
      | drop => exact ih
      | keep kept => exact ih.bind fun _ _ => ensures_pure trivial
      | leave kept => exact ensures_pure trivial
    · exact ih

omit hone in
theorem fullRounds_quiet (q : Fin n → Fin n) (l : List (Fin n × Fin n)) :
    Quiet (m.fullRounds cycset q l) := by
  have hround : ∀ r c, Quiet (m.fullRound cycset q r c) := by
    intro r c
    have hthrow : ∀ o : Round, Quiet (m.throwClauses cycset q r c >>= fun _ =>
        (pure o : Search n Round)) :=
      fun o => (throwClauses_quiet q r c).bind fun _ _ => ensures_pure trivial
    have hleave : ∀ o : Round, Quiet (pure o : Search n Round) := fun o => ensures_pure trivial
    unfold fullRound
    simp only
    split
    · exact ensures_stop trivial
    · split
      · exact hthrow _
      · split
        · exact hleave _
        · split
          · exact hthrow _
          · exact hleave _
    · split
      · exact hthrow _
      · split
        · exact hleave _
        · split
          · split
            · apply (ensures_fold (fun _ _ => True) _ (fun _ _ _ _ _ => ?_) [] () trivial).bind
              · exact fun _ _ => ensures_pure trivial
              · exact throwClauses_quiet q r c
            · split
              · exact hthrow _
              · exact hleave _
          · exact hleave _
  induction l with
  | nil => exact ensures_pure trivial
  | cons x rest ih =>
    unfold fullRounds
    apply (hround x.1 x.2).bind
    intro o _
    cases o with
    | next => exact ih
    | leave => exact ensures_pure trivial

theorem checkMinimality_quiet (isFinal : Bool) (rows : List (Fin n)) (perm : PPerm n)
    (depth its : Int) : Quiet (m.checkMinimality cycset isFinal rows perm depth its) := by
  induction rows generalizing perm depth its with
  | nil => exact ensures_pure trivial
  | cons r later ih =>
    unfold checkMinimality
    split
    · exact ensures_stop trivial
    · apply (filterOptions_quiet hone perm r _).bind
      intro propagated _
      refine ensures_fold (fun _ _ => True) propagated (fun option _ _ its _ => ?_) [] _ trivial
      split
      · apply (ensures_ofOption (Q := fun _ => True) (fun _ => trivial) fun _ _ => trivial).bind
        intro p _
        unfold permFullyDefinedCheck
        apply Traced.Ensures.bind (Q := fun _ => True)
        · apply (ensures_log (Q := fun _ => True) fun _ => ⟨trivial, trivial⟩).bind
          intro _ _
          split
          · exact ensures_pure trivial
          · exact fullRounds_quiet _ _
        · exact fun _ _ => ensures_pure trivial
      · split
        · split
          · exact ih _ _ _
          · exact ensures_pure trivial
        · exact ih _ _ _

end Whole

end MinCheck

end YbeSms.Source
