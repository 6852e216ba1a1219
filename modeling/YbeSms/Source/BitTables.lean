import YbeSms.Source.PartialPerm

/-!
# The rows of a `bitdomains2_t`

Source: ybe-sms/src/domains.cpp:74-345. Seen row by row, a `bitdomains2_t` is a
vector of `bitdomain_t`: the operations on one index are the operations of that
class, and no other row changes.
-/

namespace YbeSms.Source

variable {n : Nat}

theorem slot_ne_zero (v : Option (Fin n)) : slot v ≠ 0 := by
  cases v with
  | none => simp [slot]
  | some v => simp [slot, Fin.ext_iff]

theorem slot_some_ne_one (v : Fin n) : slot (some v) ≠ 1 := by
  simp [slot, Fin.ext_iff]

@[simp] theorem slot_some_inj (v w : Fin n) : slot (some v) = slot (some w) ↔ v = w := by
  simp [slot, Fin.ext_iff]

namespace BitDomains2

/-- One row as a `bitdomain_t`. -/
def row (b : BitDomains2 n) (e : Fin n) : BitDomain n :=
  ⟨fun v => b.dom e (slot (some v)) == 1, b.firstel e, b.numtrue e⟩

/-- The row holds bits, and its summaries agree with them. -/
structure RowExact (b : BitDomains2 n) (e : Fin n) : Prop where
  bits : ∀ v, b.dom e (slot (some v)) = 0 ∨ b.dom e (slot (some v)) = 1
  exact : (b.row e).Exact

theorem write_self (b : BitDomains2 n) (e : Fin n) (s t : Fin (n + 2)) (x : Int) :
    (b.write e s x).dom e t = if t = s then x else b.dom e t := by
  simp [write, Function.update_apply]

theorem write_other (b : BitDomains2 n) {e e' : Fin n} (he : e' ≠ e) (s : Fin (n + 2)) (x : Int) :
    (b.write e s x).dom e' = b.dom e' := by
  simp [write, he]

theorem set_other (b : BitDomains2 n) {e e' : Fin n} (he : e' ≠ e) (v : Option (Fin n)) :
    (b.set e v).dom e' = b.dom e' := by
  unfold set
  split
  · rfl
  · simp only
    split <;> simp only [write_other _ he]

theorem reset_other (b : BitDomains2 n) {e e' : Fin n} (he : e' ≠ e) (v : Option (Fin n)) :
    (b.reset e v).dom e' = b.dom e' := by
  unfold reset
  split
  · rfl
  · simp only
    split
    · split <;> simp only [write_other _ he]
    · simp only [write_other _ he]

theorem resetRow_other (b : BitDomains2 n) {e e' : Fin n} (he : e' ≠ e) :
    (b.resetRow e).dom e' = b.dom e' := Function.update_of_ne he _ _

theorem row_congr {b b' : BitDomains2 n} {e : Fin n} (h : b.dom e = b'.dom e) :
    b.row e = b'.row e := by
  simp only [row, firstel, numtrue, h]

theorem RowExact.congr {b b' : BitDomains2 n} {e : Fin n} (h : b.dom e = b'.dom e)
    (hb : b'.RowExact e) : b.RowExact e :=
  ⟨fun v => by rw [h]; exact hb.bits v, by rw [row_congr h]; exact hb.exact⟩

theorem row_write_slot (b : BitDomains2 n) (e v : Fin n) (x : Int) :
    (b.write e (slot (some v)) x).row e =
      { b.row e with dom := Function.update (b.row e).dom v (x == 1) } := by
  simp only [row, firstel, numtrue, write_self, slot_some_inj, (slot_ne_zero (some v)).symm,
    (slot_some_ne_one v).symm, if_false, BitDomain.mk.injEq, and_true]
  funext w
  by_cases hw : w = v <;> simp [hw]

theorem row_write_numtrue (b : BitDomains2 n) (e : Fin n) (x : Int) :
    (b.write e 1 x).row e = { b.row e with numTrue := x } := by
  simp [row, firstel, numtrue, write_self, slot_some_ne_one]

theorem row_write_firstel (b : BitDomains2 n) (e : Fin n) (x : Int) :
    (b.write e 0 x).row e = { b.row e with firstel := x } := by
  simp [row, firstel, numtrue, write_self, slot_ne_zero]

theorem row_firstel (b : BitDomains2 n) (e : Fin n) : b.firstel e = (b.row e).firstel := rfl

theorem row_numtrue (b : BitDomains2 n) (e : Fin n) : b.numtrue e = (b.row e).numTrue := rfl

theorem row_dom (b : BitDomains2 n) (e v : Fin n) :
    (b.dom e (slot (some v)) == 1) = (b.row e).dom v := rfl

theorem row_set (b : BitDomains2 n) (e v : Fin n) :
    (b.set e (some v)).row e = (b.row e).set v := by
  by_cases h1 : b.dom e (slot (some v)) = 1
  · simp [set, BitDomain.set, row, h1]
  · have hdom : (b.row e).dom v = false := by simpa [row] using h1
    simp only [set, h1, if_false, BitDomain.set, hdom, Bool.false_eq_true, toInt, row_firstel,
      row_numtrue, row_write_slot, row_write_numtrue]
    split
    next => simp [row_write_firstel, row_write_slot, row_write_numtrue]
    next => simp [row_write_slot, row_write_numtrue]

theorem row_reset {b : BitDomains2 n} {e : Fin n} (hb : b.RowExact e) (v : Fin n) :
    (b.reset e (some v)).row e = (b.row e).reset v := by
  by_cases h0 : b.dom e (slot (some v)) = 0
  · simp [reset, BitDomain.reset, row, h0]
  · have h1 : b.dom e (slot (some v)) = 1 := (hb.bits v).resolve_left h0
    have hdom : (b.row e).dom v = true := by simp [row, h1]
    simp only [reset, h0, if_false, BitDomain.reset, hdom, Bool.not_true, Bool.false_eq_true, toInt,
      row_firstel, row_numtrue, row_dom, row_write_slot, row_write_numtrue, Int.ofNat_lt,
      Fin.val_fin_lt]
    split
    next =>
      have hfun : (fun i => decide (v < i) && Function.update (b.row e).dom v ((0 : Int) == 1) i) =
          fun i => decide (v < i) && Function.update (b.row e).dom v false i := rfl
      rw [hfun]
      cases (List.finRange n).find? fun i =>
          decide (v < i) && Function.update (b.row e).dom v false i with
      | some i => simp [row_write_firstel, row_write_slot, row_write_numtrue]
      | none => simp [row_write_firstel, row_write_slot, row_write_numtrue]
    next => simp [row_write_slot, row_write_numtrue]

theorem row_resetRow (b : BitDomains2 n) (e : Fin n) :
    (b.resetRow e).row e = (b.row e).resetAll := by
  simp [row, resetRow, firstel, numtrue, BitDomain.resetAll, slot_ne_zero]

theorem RowExact.set {b : BitDomains2 n} {e : Fin n} (hb : b.RowExact e) (v : Fin n) :
    (b.set e (some v)).RowExact e := by
  refine ⟨fun w => ?_, by rw [row_set]; exact hb.exact.set v⟩
  have hbit := hb.bits w
  unfold BitDomains2.set
  split
  · exact hbit
  · simp only
    split <;>
      simp only [write_self, slot_ne_zero, slot_some_ne_one, if_false] <;>
      split <;> simp [hbit]

theorem RowExact.reset {b : BitDomains2 n} {e : Fin n} (hb : b.RowExact e) (v : Fin n) :
    (b.reset e (some v)).RowExact e := by
  refine ⟨fun w => ?_, by rw [row_reset hb]; exact hb.exact.reset v⟩
  have hbit := hb.bits w
  unfold BitDomains2.reset
  split
  · exact hbit
  · simp only
    split
    · split <;>
        simp only [write_self, slot_ne_zero, slot_some_ne_one, if_false] <;>
        split <;> simp [hbit]
    · simp only [write_self, slot_some_ne_one, if_false]
      split <;> simp [hbit]

theorem RowExact.resetRow (b : BitDomains2 n) (e : Fin n) : (b.resetRow e).RowExact e := by
  refine ⟨fun w => Or.inl ?_, by rw [row_resetRow]; exact BitDomain.Exact.resetAll _⟩
  simp [BitDomains2.resetRow, slot_ne_zero]

theorem RowExact.empty (e : Fin n) : (BitDomains2.empty : BitDomains2 n).RowExact e :=
  RowExact.resetRow BitDomains2.empty e |>.congr (by simp [BitDomains2.empty, BitDomains2.resetRow])

theorem RowExact.get {b : BitDomains2 n} {e : Fin n} (hb : b.RowExact e) (v : Fin n) :
    b.get e (some v) = (b.row e).dom v := by
  unfold BitDomains2.get
  split
  · rfl
  next h0 =>
    have hcount : countBits (b.row e).dom = 0 := by
      have := hb.exact.numTrue
      have : (b.row e).numTrue = 0 := by simpa [row] using h0
      omega
    exact ((countBits_eq_zero_iff _).mp hcount v).symm

theorem options_row (b : BitDomains2 n) (e : Fin n) : b.options e = (b.row e).options := rfl

end BitDomains2

end YbeSms.Source
