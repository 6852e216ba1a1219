import Mathlib.Order.Bounds.Defs
import YbeSms.Source.PackedDomains

/-!
# The cached summaries of the domains

Source: ybe-sms/src/domains.cpp:11-81, 104-117, 145-273, 295-364. Both domain classes
under every sequence of calls, against the set of values that the calls describe.
-/

namespace YbeSms.Guarantees

open YbeSms.Source

variable {n : Nat}

/-- A call on a `bitdomain_t`. -/
inductive DomainOp (n : Nat) where
  | set (v : Fin n)
  | reset (v : Fin n)
  | setAll
  | resetAll

/-- A call on a `bitdomains2_t`. -/
inductive PackedOp (n : Nat) where
  | set (e v : Fin n)
  | reset (e v : Fin n)
  | setRow (e : Fin n)
  | resetRow (e : Fin n)
  | setAll
  | resetAll

/-- What a call makes of the contained values. -/
def DomainOp.after (s : Finset (Fin n)) : DomainOp n → Finset (Fin n)
  | .set v => insert v s
  | .reset v => s.erase v
  | .setAll => Finset.univ
  | .resetAll => ∅

/-- The values contained after the calls. -/
def contents (init : Bool) (ops : List (DomainOp n)) : Finset (Fin n) :=
  ops.foldl DomainOp.after (if init then Finset.univ else ∅)

/-- The part of a call that falls on cell `e`. -/
def PackedOp.on (e : Fin n) : PackedOp n → Option (DomainOp n)
  | .set e' v => if e' = e then some (.set v) else none
  | .reset e' v => if e' = e then some (.reset v) else none
  | .setRow e' => if e' = e then some .setAll else none
  | .resetRow e' => if e' = e then some .resetAll else none
  | .setAll => some .setAll
  | .resetAll => some .resetAll

/-- What a caller sees of one domain. -/
structure View (n : Nat) where
  contains : Fin n → Bool
  firstel : Int
  numTrue : Int
  options : List (Fin n)
  isNone : Bool

/-- All that is seen describes the values `s`. -/
structure View.Describes (w : View n) (s : Finset (Fin n)) : Prop where
  contains : ∀ v, w.contains v = true ↔ v ∈ s
  firstel : (s = ∅ ∧ w.firstel = -1) ∨ ∃ v, IsLeast (s : Set (Fin n)) v ∧ w.firstel = v.val
  numTrue : w.numTrue = s.card
  sorted : w.options.Pairwise (· < ·)
  options : ∀ v, v ∈ w.options ↔ v ∈ s
  isNone : w.isNone = true ↔ w.numTrue = 0

def DomainOp.call (b : BitDomain n) : DomainOp n → BitDomain n
  | .set v => b.set v
  | .reset v => b.reset v
  | .setAll => b.setAll
  | .resetAll => b.resetAll

def PackedOp.call (b : PackedDomains n) : PackedOp n → PackedDomains n
  | .set e v => b.set e v
  | .reset e v => b.reset e v
  | .setRow e => b.setRow e
  | .resetRow e => b.resetRow e
  | .setAll => b.setAll
  | .resetAll => b.resetAll

/-- A new `bitdomain_t` after the calls. -/
def domainAfter (init : Bool) (ops : List (DomainOp n)) : BitDomain n :=
  ops.foldl DomainOp.call (.ofInit init)

/-- A new `bitdomains2_t` after the calls. -/
def packedAfter (init : Bool) (ops : List (PackedOp n)) : PackedDomains n :=
  ops.foldl PackedOp.call (.ofInit init)

def View.ofDomain (b : BitDomain n) : View n := ⟨b.dom, b.firstel, b.numTrue, b.options, b.isNone⟩

def View.ofCell (b : PackedDomains n) (e : Fin n) : View n :=
  ⟨b.get e, b.firstel e, b.numtrue e, b.options e, b.isNone e⟩

/-! ### One `bitdomain_t` -/

/-- The summaries are exact and the bits are those of `s`. -/
def Contains (b : BitDomain n) (s : Finset (Fin n)) : Prop :=
  b.Exact ∧ ∀ v, b.dom v = true ↔ v ∈ s

theorem Contains.init (hn : 0 < n) (init : Bool) :
    Contains (BitDomain.ofInit init : BitDomain n) (if init then Finset.univ else ∅) := by
  refine ⟨BitDomain.Exact.ofInit hn init, ?_⟩
  intro v
  cases init <;> simp [BitDomain.ofInit]

theorem Contains.call (hn : 0 < n) {b : BitDomain n} {s : Finset (Fin n)} (h : Contains b s)
    (op : DomainOp n) : Contains (op.call b) (op.after s) := by
  obtain ⟨hexact, hdom⟩ := h
  cases op with
  | set v =>
    refine ⟨hexact.set v, ?_⟩
    intro w
    by_cases hw : w = v <;> simp [DomainOp.call, DomainOp.after, hw, hdom]
  | reset v =>
    refine ⟨hexact.reset v, ?_⟩
    intro w
    by_cases hw : w = v <;> simp [DomainOp.call, DomainOp.after, hw, hdom]
  | setAll => exact ⟨BitDomain.Exact.setAll hn b, by simp [DomainOp.call, DomainOp.after]⟩
  | resetAll => exact ⟨BitDomain.Exact.resetAll b, by simp [DomainOp.call, DomainOp.after]⟩

theorem Contains.run (hn : 0 < n) (ops : List (DomainOp n)) :
    ∀ {b : BitDomain n} {s : Finset (Fin n)}, Contains b s →
      Contains (ops.foldl DomainOp.call b) (ops.foldl DomainOp.after s) := by
  induction ops with
  | nil => exact fun h => h
  | cons op ops ih => exact fun h => ih (h.call hn op)

theorem Contains.countBits {b : BitDomain n} {s : Finset (Fin n)} (h : Contains b s) :
    countBits b.dom = s.card := by
  unfold Source.countBits
  congr 1
  ext v
  simp [h.2]

theorem Contains.firstel {b : BitDomain n} {s : Finset (Fin n)} (h : Contains b s) :
    (s = ∅ ∧ b.firstel = -1) ∨ ∃ v, IsLeast (s : Set (Fin n)) v ∧ b.firstel = v.val := by
  rw [h.1.firstel]
  rcases s.eq_empty_or_nonempty with hempty | ⟨w, hw⟩
  · left
    refine ⟨hempty, (leastBit_eq_neg_one_iff _).mpr fun v => ?_⟩
    simpa [hempty] using h.2 v
  · right
    obtain ⟨v, -, hv, hin, hmin⟩ := exists_leastBit b.dom w ((h.2 w).mpr hw)
    refine ⟨v, ⟨(h.2 v).mp hin, ?_⟩, hv⟩
    intro u hu
    by_contra hlt
    have hout := hmin u (lt_of_not_ge hlt)
    rw [(h.2 u).mpr hu] at hout
    contradiction

theorem Contains.isNone {b : BitDomain n} {s : Finset (Fin n)} (h : Contains b s) :
    b.isNone = true ↔ b.numTrue = 0 := by
  have hcount : b.numTrue = 0 ↔ ∀ v, b.dom v = false := by
    rw [h.1.numTrue, ← countBits_eq_zero_iff]
    exact Int.natCast_eq_zero
  rw [hcount]
  simp [BitDomain.isNone]

theorem Contains.describes {b : BitDomain n} {s : Finset (Fin n)} (h : Contains b s) :
    (View.ofDomain b).Describes s where
  contains := h.2
  firstel := h.firstel
  numTrue := by
    have hcount := h.1.numTrue
    rw [h.countBits] at hcount
    exact hcount
  sorted := b.options_pairwise
  options v := by simp [View.ofDomain, h.2]
  isNone := h.isNone

/-! ### One cell of a `bitdomains2_t` -/

/-- The cell is exact and agrees with the `bitdomain_t`. -/
def Tracks (b : PackedDomains n) (e : Fin n) (c : BitDomain n) : Prop :=
  b.CellExact e ∧ b.cell e = c

/-- A call on another cell changes nothing in the chunk. -/
theorem PackedOp.call_other {op : PackedOp n} {e : Fin n} (h : op.on e = none)
    (b : PackedDomains n) : (op.call b).unpack.dom e = b.unpack.dom e := by
  cases op with
  | set e' v =>
    have he : e ≠ e' := fun he => by simp [PackedOp.on, he] at h
    rw [PackedOp.call, PackedDomains.unpack_set, BitDomains2.set_other _ he]
  | reset e' v =>
    have he : e ≠ e' := fun he => by simp [PackedOp.on, he] at h
    rw [PackedOp.call, PackedDomains.unpack_reset, BitDomains2.reset_other _ he]
  | setRow e' =>
    have he : e ≠ e' := fun he => by simp [PackedOp.on, he] at h
    rw [PackedOp.call, PackedDomains.setRow_other _ he]
  | resetRow e' =>
    have he : e ≠ e' := fun he => by simp [PackedOp.on, he] at h
    rw [PackedOp.call, PackedDomains.resetRow_other _ he]
  | setAll => simp [PackedOp.on] at h
  | resetAll => simp [PackedOp.on] at h

theorem Tracks.other {b b' : PackedDomains n} {e : Fin n} {c : BitDomain n} (h : Tracks b e c)
    (hsame : b'.unpack.dom e = b.unpack.dom e) : Tracks b' e c :=
  ⟨h.1.congr hsame, (BitDomains2.row_congr hsame).trans h.2⟩

theorem Tracks.chunk (hn : 0 < n) {b : PackedDomains n} {e : Fin n} {init : Bool}
    (h : b.unpack.dom e = PackedDomains.chunkOf init) : Tracks b e (BitDomain.ofInit init) :=
  ⟨PackedDomains.cellExact_chunk hn h, PackedDomains.cell_chunk h⟩

/-- A call on the cell does what the same call does on a `bitdomain_t`. -/
theorem Tracks.call (hn : 0 < n) {b : PackedDomains n} {e : Fin n} {c : BitDomain n}
    (h : Tracks b e c) {op : PackedOp n} {own : DomainOp n} (hown : op.on e = some own) :
    Tracks (op.call b) e (own.call c) := by
  obtain ⟨hexact, rfl⟩ := h
  cases op with
  | set e' v =>
    obtain ⟨rfl, rfl⟩ : e' = e ∧ .set v = own := by simpa [PackedOp.on] using hown
    refine ⟨?_, ?_⟩
    · rw [PackedOp.call, PackedDomains.CellExact, PackedDomains.unpack_set]
      exact hexact.set v
    · rw [PackedOp.call, PackedDomains.cell, PackedDomains.unpack_set]
      exact BitDomains2.row_set _ _ _
  | reset e' v =>
    obtain ⟨rfl, rfl⟩ : e' = e ∧ .reset v = own := by simpa [PackedOp.on] using hown
    refine ⟨?_, ?_⟩
    · rw [PackedOp.call, PackedDomains.CellExact, PackedDomains.unpack_reset]
      exact hexact.reset v
    · rw [PackedOp.call, PackedDomains.cell, PackedDomains.unpack_reset]
      exact BitDomains2.row_reset hexact _
  | setRow e' =>
    obtain ⟨rfl, rfl⟩ : e' = e ∧ .setAll = own := by simpa [PackedOp.on] using hown
    exact Tracks.chunk hn (PackedDomains.setRow_chunk b e')
  | resetRow e' =>
    obtain ⟨rfl, rfl⟩ : e' = e ∧ .resetAll = own := by simpa [PackedOp.on] using hown
    exact Tracks.chunk hn (PackedDomains.resetRow_chunk b e')
  | setAll =>
    obtain rfl : .setAll = own := by simpa [PackedOp.on] using hown
    exact Tracks.chunk hn (PackedDomains.fill_chunk true e)
  | resetAll =>
    obtain rfl : .resetAll = own := by simpa [PackedOp.on] using hown
    exact Tracks.chunk hn (PackedDomains.fill_chunk false e)

theorem Tracks.run (hn : 0 < n) (e : Fin n) (ops : List (PackedOp n)) :
    ∀ {b : PackedDomains n} {c : BitDomain n}, Tracks b e c →
      Tracks (ops.foldl PackedOp.call b) e
        ((ops.filterMap (·.on e)).foldl DomainOp.call c) := by
  induction ops with
  | nil => exact fun h => h
  | cons op ops ih =>
    intro b c h
    cases hown : op.on e with
    | none =>
      rw [List.filterMap_cons_none hown]
      exact ih (h.other (PackedOp.call_other hown b))
    | some own =>
      rw [List.filterMap_cons_some hown]
      exact ih (h.call hn hown)

/-- Reading the cell and reading the `bitdomain_t` give the same. -/
theorem Tracks.view {b : PackedDomains n} {e : Fin n} {c : BitDomain n} (h : Tracks b e c)
    {s : Finset (Fin n)} (hc : Contains c s) : View.ofCell b e = View.ofDomain c := by
  obtain ⟨hexact, rfl⟩ := h
  have hget : b.get e = (b.cell e).dom := by
    funext v
    rw [PackedDomains.get_unpack]
    exact hexact.get v
  have hnone : b.isNone e = (b.cell e).isNone := by
    rw [PackedDomains.isNone_cell, Bool.eq_iff_iff, hc.isNone, beq_iff_eq]
  unfold View.ofCell View.ofDomain
  rw [hget, hnone, PackedDomains.options_cell, PackedDomains.numtrue, PackedDomains.dom_countAt]
  rfl

/-- `get(idx)` gives the value of a cell exactly when it is the only one left. -/
theorem Tracks.getValue {b : PackedDomains n} {e : Fin n} {c : BitDomain n} (h : Tracks b e c)
    {s : Finset (Fin n)} (hc : Contains c s) (v : Fin n) : b.getValue e = v.val ↔ s = {v} := by
  have hview := h.view hc
  have hfirst : b.firstel e = c.firstel := congrArg View.firstel hview
  have hcount : b.numtrue e = s.card := (congrArg View.numTrue hview).trans hc.describes.numTrue
  have hleast := hc.firstel
  unfold PackedDomains.getValue
  rw [hfirst, hcount]
  constructor
  · intro hval
    split at hval
    next hone =>
      obtain ⟨w, rfl⟩ := Finset.card_eq_one.mp (Int.ofNat_inj.mp hone)
      rcases hleast with ⟨hempty, -⟩ | ⟨u, hu, hval'⟩
      · exact absurd hempty (Finset.singleton_ne_empty w)
      · have huw : u = w := by simpa using hu.1
        have huv : u = v := Fin.ext (by omega)
        rw [← huw, huv]
    next => omega
  · rintro rfl
    rcases hleast with ⟨hempty, -⟩ | ⟨u, hu, hval⟩
    · exact absurd hempty (Finset.singleton_ne_empty v)
    · have huv : u = v := by simpa using hu.1
      rw [if_pos (by simp), hval, huv]

/-- Reading a cell looks at its chunk only. -/
theorem view_congr {b b' : PackedDomains n} {e : Fin n} (h : b'.unpack.dom e = b.unpack.dom e) :
    View.ofCell b' e = View.ofCell b e := by
  have hcell : b'.cell e = b.cell e := BitDomains2.row_congr h
  have hget : b'.get e = b.get e := by
    funext v
    rw [PackedDomains.get_unpack, PackedDomains.get_unpack]
    simp only [BitDomains2.get, BitDomains2.numtrue, h]
    rfl
  unfold View.ofCell
  rw [hget, PackedDomains.isNone_cell, PackedDomains.isNone_cell, PackedDomains.options_cell,
    PackedDomains.options_cell, hcell]
  unfold PackedDomains.firstel PackedDomains.numtrue
  rw [PackedDomains.dom_headAt, PackedDomains.dom_headAt, PackedDomains.dom_countAt,
    PackedDomains.dom_countAt, BitDomains2.firstel, BitDomains2.firstel, BitDomains2.numtrue,
    BitDomains2.numtrue, h]

/-- Whatever is called on new domains, the cached summaries are exact; a call on one cell leaves
all others as they are, and each cell behaves as a `bitdomain_t` under its own calls. -/
theorem domains_exact (hn : 1 ≤ n) (init : Bool) :
    (∀ ops : List (DomainOp n),
      (View.ofDomain (domainAfter init ops)).Describes (contents init ops)) ∧
    (∀ (ops : List (PackedOp n)) (e : Fin n),
      (View.ofCell (packedAfter init ops) e).Describes (contents init (ops.filterMap (·.on e))) ∧
      View.ofCell (packedAfter init ops) e =
        View.ofDomain (domainAfter init (ops.filterMap (·.on e)))) ∧
    ∀ (ops : List (PackedOp n)) (op : PackedOp n) (e : Fin n), op.on e = none →
      (∀ s, (op.call (packedAfter init ops)).dom (PackedDomains.cellAt e s) =
        (packedAfter init ops).dom (PackedDomains.cellAt e s)) ∧
      View.ofCell (op.call (packedAfter init ops)) e = View.ofCell (packedAfter init ops) e := by
  have hdomain : ∀ ops, Contains (domainAfter init ops : BitDomain n) (contents init ops) :=
    fun ops => Contains.run hn ops (Contains.init hn init)
  have hcell : ∀ ops e, View.ofCell (packedAfter init ops : PackedDomains n) e =
      View.ofDomain (domainAfter init (ops.filterMap (·.on e))) := by
    intro ops e
    have htracks := Tracks.run hn e ops (Tracks.chunk hn (PackedDomains.fill_chunk init e))
    exact htracks.view (hdomain _)
  refine ⟨fun ops => (hdomain ops).describes, ?_, ?_⟩
  · intro ops e
    refine ⟨?_, hcell ops e⟩
    rw [hcell ops e]
    exact (hdomain _).describes
  · intro ops op e hother
    have hsame := PackedOp.call_other hother (packedAfter init ops)
    exact ⟨fun s => congrFun hsame s, view_congr hsame⟩

/-- Three values, the least one removed and put back in another cell. -/
theorem domains_exact_three :
    (View.ofCell (packedAfter true [.reset 1 0, .reset 2 0, .set 2 0, .reset 1 2] :
      PackedDomains 3) 1).Describes {1} ∧
    (View.ofDomain (domainAfter true [.reset 0, .reset 2] : BitDomain 3)).Describes {1} := by
  have h := domains_exact (n := 3) (by decide) true
  exact ⟨(h.2.1 [.reset 1 0, .reset 2 0, .set 2 0, .reset 1 2] 1).1, h.1 [.reset 0, .reset 2]⟩

end YbeSms.Guarantees
