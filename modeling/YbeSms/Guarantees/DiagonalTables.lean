import YbeSms.Source.CycleTables

/-!
# The tables of a user diagonal

Source: ybe-sms/src/useful.cpp:156-294, 375-402, 465-518; minCheck_V2.cpp:23-43.
The constructor asks `permOf` for the image of the last point, and `permOf`
compares `el+1` with the size the wrong way round: it reads one cell behind its
vector whatever the diagonal is.
-/

namespace YbeSms.Guarantees

open YbeSms.Library YbeSms.Source Equiv

variable {n : Nat}

/-- The constructor reads inside its vectors and its tables describe `d`. -/
structure TablesFaithful (d : Perm (Fin n)) : Prop where
  diagIsId : (cyclePerm d).readDiagIsId = some (decide (d = 1))
  permOf : ∀ x : Fin n, (cyclePerm d).permOf x = some (d x)
  invPermOf : ∀ x : Fin n, (cyclePerm d).invPermOf x = some (d.symm x)
  cycle : ∀ x, cycle (cyclePerm d).part x = cycleList d x
  plainOptions : ∀ x y, y ∈ (ppermPlain d).options x ↔ SameLength d x y
  bitOptions : ∀ x y, y ∈ (ppermBit d).options x ↔ SameLength d x y

/-- The image of the last point is looked up behind the end of `part`. -/
theorem permOf_last (d : Perm (Fin n)) (x : Fin n) (hx : x.val + 1 = n) :
    (cyclePerm d).permOf x = none := by
  have hread : (cyclePerm d).part[x.val + 1]? = none := by
    rw [List.getElem?_eq_none_iff, cyclePerm, length_cyclePart]
    omega
  rw [CyclePerm.permOf, if_neg (by omega), hread]
  rfl

/-- A loop that reads outside a vector in one round does not end well. -/
theorem foldlM_none {α β : Type} (f : β → α → Option β) {l : List α} {a : α} (ha : a ∈ l)
    (hf : ∀ b, f b a = none) (b : β) : l.foldlM f b = none := by
  induction l generalizing b with
  | nil => exact absurd ha List.not_mem_nil
  | cons c rest ih =>
    rw [List.foldlM_cons]
    rcases List.mem_cons.mp ha with rfl | ha
    · rw [hf]
      rfl
    · cases hfc : f b c with
      | none => rfl
      | some b' => exact ih ha b'

/-- For no size and no diagonal does the constructor stay inside its vectors. -/
theorem tables_never_faithful (hn : 1 ≤ n) (d : Perm (Fin n)) :
    (cyclePerm d).readDiagIsId = none ∧ ¬ TablesFaithful d := by
  have hlast : (cyclePerm d).readDiagIsId = none := by
    have hread := permOf_last d ⟨n - 1, by omega⟩ (by simp only; omega)
    unfold CyclePerm.readDiagIsId
    refine foldlM_none _ (List.mem_finRange (⟨n - 1, by omega⟩ : Fin n)) (fun b => ?_) true
    rw [hread]
    rfl
  refine ⟨hlast, fun h => ?_⟩
  have := h.diagIsId
  rw [hlast] at this
  cases this

theorem tables_never_faithful_instance :
    (cyclePerm (swap (0 : Fin 3) 2)).readDiagIsId = none ∧ ¬ TablesFaithful (swap (0 : Fin 3) 2) :=
  tables_never_faithful (by decide) (swap 0 2)

/-- `--size 3 --diag 2,1,0`: besides the read behind the vector, `cycle(0)` is `0, 1`, the inverse
image of 0 is read in front of the vector, and 1 may be sent to 0. -/
theorem tables_unfaithful :
    (cyclePerm (swap (0 : Fin 3) 2)).permOf 2 = none ∧
    (cyclePerm (swap (0 : Fin 3) 2)).invPermOf 0 = none ∧
    cycle (cyclePerm (swap (0 : Fin 3) 2)).part (0 : Fin 3) = [0, 1] ∧
    (0 : Fin 3) ∈ (ppermPlain (swap (0 : Fin 3) 2)).options 1 ∧
    ¬ TablesFaithful (swap (0 : Fin 3) 2) := by
  refine ⟨by decide, by decide, by decide, by decide, fun h => ?_⟩
  have := h.permOf 2
  revert this
  decide

end YbeSms.Guarantees
