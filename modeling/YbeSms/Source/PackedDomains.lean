import YbeSms.Source.BitTables

/-!
# `bitdomains2_t` in one vector

Source: ybe-sms/src/domains.cpp:104-117, 145-273, 295-364. All cells share one vector of
`chunk * problem_size` integers; cell `e` starts at `chunk * e` with its least
value and its count, followed by one bit for each value. Every access of an
operation on a cell lies inside the vector by construction. `unpack` forgets the
offsets.
-/

namespace YbeSms.Source

variable {n : Nat}

/-- Every offset into a chunk stays inside the vector. -/
theorem chunk_lt (e : Fin n) {k : Nat} (hk : k < n + 2) : (n + 2) * e.val + k < (n + 2) * n := by
  have hle : (n + 2) * (e.val + 1) ≤ (n + 2) * n := Nat.mul_le_mul_left _ e.isLt
  rw [Nat.mul_add, Nat.mul_one] at hle
  omega

theorem bit_lt (e v : Fin n) : (n + 2) * e.val + 2 + v.val < (n + 2) * n := by
  have hv := v.isLt
  have := chunk_lt e (show 2 + v.val < n + 2 by omega)
  omega

/-- `bitdomains2_t`: the vector; `chunk` is `problem_size + 2`. -/
structure PackedDomains (n : Nat) where
  dom : Fin ((n + 2) * n) → Int

/-- The position `chunk*e` of the least value. -/
def headAt (e : Fin n) : Fin ((n + 2) * n) := ⟨(n + 2) * e.val, chunk_lt e (Nat.succ_pos _)⟩

/-- The position `chunk*e+1` of the count. -/
def countAt (e : Fin n) : Fin ((n + 2) * n) :=
  ⟨(n + 2) * e.val + 1, chunk_lt e (Nat.succ_lt_succ (Nat.succ_pos _))⟩

/-- The position `chunk*e+2+n` of the bit of a value. -/
def bitAt (e v : Fin n) : Fin ((n + 2) * n) := ⟨(n + 2) * e.val + 2 + v.val, bit_lt e v⟩

namespace PackedDomains

/-- Write one position. -/
def write (b : PackedDomains n) (i : Fin ((n + 2) * n)) (x : Int) : PackedDomains n :=
  ⟨Function.update b.dom i x⟩

/-- All cells full or all empty: the constructor `bitdomains2_t(init)`, `set()` and `reset()`. -/
def fill (init : Bool) : PackedDomains n :=
  if init then
    (List.finRange n).foldl (fun b i => (b.write (headAt i) 0).write (countAt i) n) ⟨fun _ => 1⟩
  else (List.finRange n).foldl (fun b i => b.write (headAt i) (-1)) ⟨fun _ => 0⟩

/-- `bitdomains2_t(init)`. -/
def ofInit (init : Bool) : PackedDomains n := fill init

/-- `set()`. -/
def setAll (_ : PackedDomains n) : PackedDomains n := fill true

/-- `reset()`. -/
def resetAll (_ : PackedDomains n) : PackedDomains n := fill false

/-- `firstel(e)`. -/
def firstel (b : PackedDomains n) (e : Fin n) : Int := b.dom (headAt e)

/-- `numtrue(e)`. -/
def numtrue (b : PackedDomains n) (e : Fin n) : Int := b.dom (countAt e)

/-- `get(idx, e)`. -/
def get (b : PackedDomains n) (e v : Fin n) : Bool :=
  if b.numtrue e ≠ 0 then b.dom (bitAt e v) == 1 else false

/-- `get(idx)`: the value of a cell that has one value left. -/
def getValue (b : PackedDomains n) (e : Fin n) : Int := if b.numtrue e = 1 then b.firstel e else -1

/-- `set(e, n)`. -/
def set (b : PackedDomains n) (e v : Fin n) : PackedDomains n :=
  if b.dom (bitAt e v) = 1 then b
  else
    let b := b.write (bitAt e v) 1
    let b := b.write (countAt e) (b.dom (countAt e) + 1)
    let firstidx := b.firstel e
    if firstidx = -1 ∨ (v.val : Int) < firstidx then b.write (headAt e) v.val else b

/-- `reset(e, n)`. -/
def reset (b : PackedDomains n) (e v : Fin n) : PackedDomains n :=
  if b.dom (bitAt e v) = 0 then b
  else
    let b := b.write (bitAt e v) 0
    let b := b.write (countAt e) (b.dom (countAt e) - 1)
    let firstidx := b.firstel e
    if (v.val : Int) = firstidx then
      let b :=
        match (List.finRange n).find? fun i => v < i && b.dom (bitAt e i) == 1 with
        | some i => b.write (headAt e) i.val
        | none => b
      if b.dom (headAt e) = (v.val : Int) then b.write (headAt e) (-1) else b
    else b

/-- The loop over the bits of one cell in `set(e)` and `reset(e)`. -/
def writeBits (b : PackedDomains n) (e : Fin n) (x : Int) : PackedDomains n :=
  (List.finRange n).foldl (fun b v => b.write (bitAt e v) x) b

/-- `set(e)`. -/
def setRow (b : PackedDomains n) (e : Fin n) : PackedDomains n :=
  ((b.writeBits e 1).write (headAt e) 0).write (countAt e) n

/-- `reset(e)`. -/
def resetRow (b : PackedDomains n) (e : Fin n) : PackedDomains n :=
  ((b.writeBits e 0).write (headAt e) (-1)).write (countAt e) 0

/-- `none(e)`. -/
def isNone (b : PackedDomains n) (e : Fin n) : Bool := b.numtrue e == 0

/-- `options(e)`. -/
def options (b : PackedDomains n) (e : Fin n) : List (Fin n) :=
  (List.finRange n).filter fun j => b.dom (bitAt e j) == 1

/-! ### Offsets -/

/-- Position `s` of the chunk of cell `e`. -/
def cellAt (e : Fin n) (s : Fin (n + 2)) : Fin ((n + 2) * n) :=
  ⟨(n + 2) * e.val + s.val, chunk_lt e s.isLt⟩

/-- Chunks do not overlap. -/
theorem cellAt_inj (e e' : Fin n) (s s' : Fin (n + 2)) :
    cellAt e s = cellAt e' s' ↔ e = e' ∧ s = s' := by
  constructor
  · intro h
    have hval : (n + 2) * e.val + s.val = (n + 2) * e'.val + s'.val := congrArg Fin.val h
    have hdiv := congrArg (· / (n + 2)) hval
    simp only [Nat.mul_add_div (Nat.succ_pos (n + 1)), Nat.div_eq_of_lt s.isLt,
      Nat.div_eq_of_lt s'.isLt, Nat.add_zero] at hdiv
    rw [hdiv] at hval
    exact ⟨Fin.ext hdiv, Fin.ext (Nat.add_left_cancel hval)⟩
  · rintro ⟨rfl, rfl⟩
    rfl

theorem countAt_eq (e : Fin n) : countAt e = cellAt e 1 := Fin.ext (by simp [countAt, cellAt])

theorem bitAt_eq (e v : Fin n) : bitAt e v = cellAt e (slot (some v)) :=
  Fin.ext (by simp [bitAt, cellAt, slot]; omega)

/-- A position behind the two summaries holds the bit of a value. -/
theorem exists_slot {s : Fin (n + 2)} (h0 : s ≠ 0) (h1 : s ≠ 1) :
    ∃ v : Fin n, s = slot (some v) := by
  have hval0 : s.val ≠ 0 := fun h => h0 (Fin.ext h)
  have hval1 : s.val ≠ 1 := fun h => h1 (Fin.ext (by simpa using h))
  exact ⟨⟨s.val - 2, by omega⟩, Fin.ext (by simp [slot]; omega)⟩

/-- The vector as one chunk for each cell. -/
def unpack (b : PackedDomains n) : BitDomains2 n := ⟨fun e s => b.dom (cellAt e s)⟩

theorem unpack_write (b : PackedDomains n) (e : Fin n) (s : Fin (n + 2)) (x : Int) :
    (b.write (cellAt e s) x).unpack = b.unpack.write e s x := by
  unfold unpack write BitDomains2.write
  congr 1
  funext e' s'
  by_cases he : e' = e
  · subst he
    simp [Function.update_apply, cellAt_inj]
  · simp [cellAt_inj, he]

@[simp] theorem unpack_head (b : PackedDomains n) (e : Fin n) (x : Int) :
    (b.write (headAt e) x).unpack = b.unpack.write e 0 x := unpack_write b e 0 x

@[simp] theorem unpack_count (b : PackedDomains n) (e : Fin n) (x : Int) :
    (b.write (countAt e) x).unpack = b.unpack.write e 1 x := by
  rw [countAt_eq, unpack_write]

@[simp] theorem unpack_bit (b : PackedDomains n) (e v : Fin n) (x : Int) :
    (b.write (bitAt e v) x).unpack = b.unpack.write e (slot (some v)) x := by
  rw [bitAt_eq, unpack_write]

theorem dom_headAt (b : PackedDomains n) (e : Fin n) : b.dom (headAt e) = b.unpack.firstel e := rfl

theorem dom_countAt (b : PackedDomains n) (e : Fin n) :
    b.dom (countAt e) = b.unpack.numtrue e := by
  rw [countAt_eq]
  rfl

theorem dom_bitAt (b : PackedDomains n) (e v : Fin n) :
    b.dom (bitAt e v) = b.unpack.dom e (slot (some v)) := by
  rw [bitAt_eq]
  rfl

/-! ### The operations, chunk by chunk -/

theorem unpack_set (b : PackedDomains n) (e v : Fin n) :
    (b.set e v).unpack = b.unpack.set e (some v) := by
  unfold set BitDomains2.set
  simp only [firstel, dom_bitAt, dom_countAt, dom_headAt, unpack_bit, unpack_count]
  split
  · rfl
  · split
    next hleast =>
      refine Eq.trans ?_ (if_pos hleast).symm
      rw [unpack_head, unpack_count, unpack_bit]
      rfl
    next hleast =>
      refine Eq.trans ?_ (if_neg hleast).symm
      rw [unpack_count, unpack_bit]

theorem unpack_reset (b : PackedDomains n) (e v : Fin n) :
    (b.reset e v).unpack = b.unpack.reset e (some v) := by
  unfold reset BitDomains2.reset
  simp only [firstel, dom_bitAt, dom_countAt, dom_headAt, unpack_bit, unpack_count]
  split
  · rfl
  · split
    next hfirst =>
      refine Eq.trans ?_ (if_pos hfirst).symm
      have hsame : (fun i => decide (v < i) &&
          ((b.unpack.write e (slot (some v)) 0).write e 1
            ((b.unpack.write e (slot (some v)) 0).numtrue e - 1)).dom e (slot (some i)) == 1) =
          fun i => decide (toInt (some v) < (i.val : Int)) &&
          ((b.unpack.write e (slot (some v)) 0).write e 1
            ((b.unpack.write e (slot (some v)) 0).numtrue e - 1)).dom e (slot (some i)) == 1 := by
        funext i
        congr 1
        simp [toInt]
      rw [← hsame]
      generalize hfound : List.find? _ (List.finRange n) = found
      cases found with
      | none =>
        simp only [unpack_count, unpack_bit]
        rw [if_pos hfirst.symm, unpack_head, unpack_count, unpack_bit]
      | some i =>
        -- the new least value lies above the removed one, so the last test fails
        have habove : v < i := by
          have hhit := ((find_finRange_eq_some _ i).mp hfound).1
          simp only [Bool.and_eq_true, decide_eq_true_eq] at hhit
          exact hhit.1
        have hkept : ¬(i.val : Int) = v.val := by
          have : v.val < i.val := habove
          omega
        simp only [unpack_head, unpack_count, unpack_bit]
        rw [BitDomains2.firstel, BitDomains2.write_self, if_pos rfl, if_neg hkept, unpack_head,
          unpack_count, unpack_bit]
    next hfirst =>
      refine Eq.trans ?_ (if_neg hfirst).symm
      rw [unpack_count, unpack_bit]

theorem unpack_writeBits (b : PackedDomains n) (e : Fin n) (x : Int) (s : Fin (n + 2)) :
    (b.writeBits e x).unpack.dom e s =
      if s = 0 then b.unpack.dom e 0 else if s = 1 then b.unpack.dom e 1 else x := by
  have hfold : ∀ l : List (Fin n), ∀ b : PackedDomains n,
      (l.foldl (fun b v => b.write (bitAt e v) x) b).unpack.dom e s =
        if ∃ v ∈ l, s = slot (some v) then x else b.unpack.dom e s := by
    intro l
    induction l with
    | nil => simp
    | cons v l ih =>
      intro b
      rw [List.foldl_cons, ih, unpack_bit, BitDomains2.write_self]
      by_cases hv : s = slot (some v)
      · simp [hv]
      · simp [hv]
  unfold writeBits
  rw [hfold]
  by_cases h0 : s = 0
  · subst h0
    simp [(slot_ne_zero _).symm]
  · by_cases h1 : s = 1
    · subst h1
      simp [(slot_some_ne_one _).symm, h0]
    · rw [if_neg h0, if_neg h1, if_pos]
      obtain ⟨v, hv⟩ := exists_slot h0 h1
      exact ⟨v, List.mem_finRange v, hv⟩

theorem writeBits_other (b : PackedDomains n) {e e' : Fin n} (he : e' ≠ e) (x : Int) :
    (b.writeBits e x).unpack.dom e' = b.unpack.dom e' := by
  have hfold : ∀ l : List (Fin n), ∀ b : PackedDomains n,
      (l.foldl (fun b v => b.write (bitAt e v) x) b).unpack.dom e' = b.unpack.dom e' := by
    intro l
    induction l with
    | nil => simp
    | cons v l ih =>
      intro b
      rw [List.foldl_cons, ih, unpack_bit, BitDomains2.write_other _ he]
  exact hfold _ b

/-- The chunk of a full cell and of an empty one. -/
def chunkOf (init : Bool) (s : Fin (n + 2)) : Int :=
  if init then if s.val = 0 then 0 else if s.val = 1 then n else 1
  else if s.val = 0 then -1 else 0

theorem chunkOf_eq (init : Bool) (s : Fin (n + 2)) :
    chunkOf init s =
      (if init then if s = 0 then 0 else if s = 1 then n else 1
        else if s = 0 then -1 else 0 : Int) := by
  have h0 : s.val = 0 ↔ s = 0 := Fin.val_eq_zero_iff
  have h1 : s.val = 1 ↔ s = 1 := by simp [Fin.ext_iff]
  simp only [chunkOf, h0, h1]

theorem setRow_chunk (b : PackedDomains n) (e : Fin n) :
    (b.setRow e).unpack.dom e = chunkOf true := by
  funext s
  simp only [setRow, unpack_count, unpack_head, BitDomains2.write_self, unpack_writeBits,
    chunkOf_eq]
  by_cases h0 : s = 0
  · simp [h0]
  · by_cases h1 : s = 1 <;> simp [h0, h1]

theorem resetRow_chunk (b : PackedDomains n) (e : Fin n) :
    (b.resetRow e).unpack.dom e = chunkOf false := by
  funext s
  simp only [resetRow, unpack_count, unpack_head, BitDomains2.write_self, unpack_writeBits,
    chunkOf_eq]
  by_cases h0 : s = 0
  · simp [h0]
  · by_cases h1 : s = 1 <;> simp [h0, h1]

theorem setRow_other (b : PackedDomains n) {e e' : Fin n} (he : e' ≠ e) :
    (b.setRow e).unpack.dom e' = b.unpack.dom e' := by
  simp only [setRow, unpack_count, unpack_head, BitDomains2.write_other _ he, writeBits_other _ he]

theorem resetRow_other (b : PackedDomains n) {e e' : Fin n} (he : e' ≠ e) :
    (b.resetRow e).unpack.dom e' = b.unpack.dom e' := by
  simp only [resetRow, unpack_count, unpack_head, BitDomains2.write_other _ he,
    writeBits_other _ he]

theorem fold_heads (x : Int) (e : Fin n) (s : Fin (n + 2)) (l : List (Fin n)) :
    ∀ b : PackedDomains n, (l.foldl (fun b i => b.write (headAt i) x) b).unpack.dom e s =
      if e ∈ l ∧ s = 0 then x else b.unpack.dom e s := by
  induction l with
  | nil => simp
  | cons i l ih =>
    intro b
    rw [List.foldl_cons, ih, unpack_head]
    by_cases hi : e = i
    · subst hi
      by_cases h0 : s = 0 <;> simp [BitDomains2.write_self, h0]
    · simp [BitDomains2.write_other _ hi, hi]

theorem fold_summaries (x y : Int) (e : Fin n) (s : Fin (n + 2)) (l : List (Fin n)) :
    ∀ b : PackedDomains n,
      (l.foldl (fun b i => (b.write (headAt i) x).write (countAt i) y) b).unpack.dom e s =
        if e ∈ l ∧ s = 0 then x else if e ∈ l ∧ s = 1 then y else b.unpack.dom e s := by
  induction l with
  | nil => simp
  | cons i l ih =>
    intro b
    rw [List.foldl_cons, ih, unpack_count, unpack_head]
    by_cases hi : e = i
    · subst hi
      by_cases h0 : s = 0
      · simp [BitDomains2.write_self, h0]
      · by_cases h1 : s = 1 <;> simp [BitDomains2.write_self, h0, h1]
    · simp [BitDomains2.write_other _ hi, hi]

theorem fill_chunk (init : Bool) (e : Fin n) :
    (fill init : PackedDomains n).unpack.dom e = chunkOf init := by
  funext s
  cases init with
  | true =>
    rw [fill, if_pos rfl, fold_summaries]
    simp [chunkOf_eq, unpack]
  | false =>
    rw [fill, if_neg (by simp), fold_heads]
    simp [chunkOf_eq, unpack]

/-! ### One cell as a `bitdomain_t` -/

/-- Cell `e` with its cached summaries. -/
def cell (b : PackedDomains n) (e : Fin n) : BitDomain n := b.unpack.row e

/-- The bits of a cell are bits and its summaries agree with them. -/
def CellExact (b : PackedDomains n) (e : Fin n) : Prop := b.unpack.RowExact e

theorem cell_chunk {b : PackedDomains n} {e : Fin n} {init : Bool}
    (h : b.unpack.dom e = chunkOf init) : b.cell e = BitDomain.ofInit init := by
  cases init <;>
    simp [cell, BitDomains2.row, BitDomains2.firstel, BitDomains2.numtrue, h, chunkOf_eq,
      BitDomain.ofInit, slot_ne_zero, slot_some_ne_one]

theorem cellExact_chunk (hn : 0 < n) {b : PackedDomains n} {e : Fin n} {init : Bool}
    (h : b.unpack.dom e = chunkOf init) : b.CellExact e := by
  refine ⟨?_, ?_⟩
  · intro v
    cases init <;> simp [h, chunkOf_eq, slot_ne_zero, slot_some_ne_one]
  · have hcell : b.unpack.row e = BitDomain.ofInit init := cell_chunk h
    rw [hcell]
    exact BitDomain.Exact.ofInit hn init

theorem options_cell (b : PackedDomains n) (e : Fin n) : b.options e = (b.cell e).options := by
  unfold options
  simp only [dom_bitAt]
  rfl

theorem get_unpack (b : PackedDomains n) (e v : Fin n) : b.get e v = b.unpack.get e (some v) := by
  unfold get BitDomains2.get
  rw [numtrue, dom_countAt, dom_bitAt]

theorem isNone_cell (b : PackedDomains n) (e : Fin n) :
    b.isNone e = ((b.cell e).numTrue == 0) := by
  rw [isNone, numtrue, dom_countAt]
  rfl

end PackedDomains

end YbeSms.Source
