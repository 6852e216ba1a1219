import YbeSms.Source.IdentityRun
import YbeSms.Source.CadicalSolver

/-!
# Only genuine symmetries are used

Source: ybe-sms/src/minCheck_V2.cpp:46-284; useful.cpp:252-272, 336-373. In every
run of `MinCheck` that fixes no greatest inverse image behind the first position
of its cell, and none without a value, the permutations handed to `addClauses` and
`permFullyDefinedCheck` commute with the diagonal and every argument of
`diag.cycle` is a point.
-/

namespace YbeSms.Guarantees

open YbeSms.Library YbeSms.Source YbeSms.Source.MinCheck Equiv

variable {n : Nat}

/-- `pperm_bit` fixes the greatest inverse image only with a value, `pperm_plain` only at the
start of a cell, unless nothing is propagated. -/
def FixesInPlace (m : MinCheck n) (d : Perm (Fin n)) : Event n → Prop
  | .fixGreatest perm maxel maxi =>
    if isBit perm then maxi ≠ none
    else (m.cfg.useBit = false ∧ d = 1) ∨ maxi = none ∨ AtStart perm maxel
  | _ => True

instance (perm : PPerm n) (x : Fin n) : Decidable (AtStart perm x) :=
  match perm with
  | .plain _ part => decidable_of_iff (part x = true)
      ⟨fun h _ _ heq => by injection heq with _ hpart; rwa [← hpart], fun h => h _ _ rfl⟩
  | .bit _ => isTrue fun _ _ heq => by cases heq

instance (m : MinCheck n) (d : Perm (Fin n)) : DecidablePred (FixesInPlace m d)
  | .fixGreatest perm maxel maxi => inferInstanceAs (Decidable (if isBit perm then maxi ≠ none
      else (m.cfg.useBit = false ∧ d = 1) ∨ maxi = none ∨ AtStart perm maxel))
  | .learn _ _ _ => isTrue trivial
  | .check _ _ _ => isTrue trivial
  | .choose _ _ _ => isTrue trivial

/-- Where something is propagated, the condition is the one of the rules. -/
theorem FixesInPlace.atStart {m : MinCheck n} {d : Perm (Fin n)}
    (hd : ¬ (m.cfg.useBit = false ∧ d = 1)) {perm : PPerm n} {maxel : Fin n} {maxi : Option (Fin n)}
    (h : FixesInPlace m d (.fixGreatest perm maxel maxi)) :
    (isBit perm = true → maxi ≠ none) ∧ (maxi ≠ none → AtStart perm maxel) := by
  cases perm with
  | plain element part =>
    have hplace : (m.cfg.useBit = false ∧ d = 1) ∨ maxi = none ∨
        AtStart (.plain element part) maxel := h
    refine ⟨fun hbit => (by cases hbit), fun hmaxi => ?_⟩
    exact (hplace.resolve_left hd).resolve_left hmaxi
  | bit info =>
    have hvalue : maxi ≠ none := h
    exact ⟨fun _ => hvalue, fun _ element part hplain => by cases hplain⟩

theorem ruled_of_fixesInPlace {m : MinCheck n} {d : Perm (Fin n)} (cycset : CycleSet n)
    (hd : ¬ (m.cfg.useBit = false ∧ d = 1)) :
    Ruled m d cycset (FixesInPlace m d) fun _ => True where
  greatest _ _ _ h := h.atStart hd
  limit := trivial
  fault := trivial
  clause _ _ _ _ _ _ _ := trivial

/-- In every run of `MinCheck` whose steps meet the condition, only symmetries of the diagonal are
handed on and `diag.cycle` is only asked about points. -/
theorem symmetries_genuine (hn : 2 ≤ n) (m : MinCheck n) (d : Perm (Fin n))
    (hd : ⇑d ∈ diagonals n) (hdiag : m.cfg.diagPart = true) (hmd : m.diag = d)
    (cycset : CycleSet n) (isFinal : Bool)
    (hsteps : ∀ e ∈ (m.minCheck cycset isFinal).events, FixesInPlace m d e) :
    ∀ e ∈ (m.minCheck cycset isFinal).events, Genuine m d e := by
  have hm : Serves m d := ⟨layered_of_mem (by omega) d hd, fun _ => hmd, fun h => by simp [hdiag] at h⟩
  by_cases hplain : m.cfg.useBit = false ∧ d = 1
  · -- nothing is propagated and no point can be displaced
    obtain ⟨huse, rfl⟩ := hplain
    have hholds : Holds m.initialPart := by
      rw [initialPart_eq hm, huse]
      exact holds_ppermPlain hm.layered
    have hcovers : Covers m cycset (fun _ => True) fun _ => True :=
      ⟨trivial, trivial, fun _ _ _ _ _ _ _ => trivial⟩
    exact (minCheck_keeps hcovers hm hholds isFinal fun _ _ => trivial).1
  · intro e he
    exact ((minCheck_spec hm (ruled_of_fixesInPlace cycset hplain) isFinal hsteps).1 e he).genuine

/-- The diagonal 1, 0, 3, 2, 4. -/
def twoSwaps : Perm (Fin 5) := swap 0 1 * swap 2 3

/-- `--size 5 --diag 1,0,3,2,4`. -/
def swapping : MinCheck 5 :=
  ⟨{ diagPart := true }, twoSwaps, (encodeDiagonal { diagPart := true } twoSwaps).lits, false⟩

/-- The state of the propagator when (0,1) and (3,1) have got the value 4. -/
def twoFours : CycleSet 5 :=
  ((Propagator.init { diagPart := true } twoSwaps id).currentCycleSet.assign (0, 1, 4) true).assign
    (3, 1, 4) true

private def asksOutside : Event 5 → Bool
  | .choose perm i j => (swapping.queries perm i j).contains none
  | _ => false

set_option maxRecDepth 100000 in
/-- The greatest of the positions 2 and 3 for the value 0 is fixed: `permOf(3)` stays -1, and
`diag.cycle(-1)` is called. -/
theorem symmetries_not_genuine :
    ⇑twoSwaps ∈ diagonals 5 ∧ preCheck twoFours = false ∧
      (∀ i, twoFours.matrix i i = some (twoSwaps i)) ∧
      ∃ e ∈ (swapping.minCheck twoFours false).events, ¬ Genuine swapping twoSwaps e := by
  refine ⟨by decide, by decide, by decide, ?_⟩
  have hany : (swapping.minCheck twoFours false).events.any asksOutside = true := by decide +kernel
  obtain ⟨e, he, hout⟩ := List.any_eq_true.mp hany
  refine ⟨e, he, fun hgenuine => ?_⟩
  cases e with
  | choose perm i j => exact hgenuine none (List.contains_iff_mem.mp hout) rfl
  | learn p r c => cases hout
  | check p r c => cases hout
  | fixGreatest perm maxel maxi => cases hout

/-- The state of the propagator when (0,1) has got the value 3. -/
def oneThree : CycleSet 5 :=
  (Propagator.init { diagPart := true } twoSwaps id).currentCycleSet.assign (0, 1, 3) true

private def isLearn : Event 5 → Bool
  | .learn _ _ _ => true
  | _ => false

set_option maxRecDepth 100000 in
/-- A search that calls `addClauses`, with a symmetry of the diagonal. -/
theorem symmetries_genuine_instance :
    ∃ e ∈ (swapping.minCheck oneThree false).events, isLearn e = true ∧
      Genuine swapping twoSwaps e := by
  have hany : (swapping.minCheck oneThree false).events.any isLearn = true := by decide +kernel
  obtain ⟨e, he, hlearn⟩ := List.any_eq_true.mp hany
  exact ⟨e, he, hlearn, symmetries_genuine (by decide) swapping twoSwaps (by decide) rfl rfl oneThree
    false (by decide +kernel) e he⟩

end YbeSms.Guarantees
