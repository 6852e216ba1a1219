import YbeSms.Source.BitTables
import YbeSms.Source.ClassTables

/-!
# What a partially chosen permutation stands for

Source: ybe-sms/src/useful.cpp:320-436, 474-542. `Rep d A p` says that a
`pperm_common` stands for the images of `p` on the set `A`: its options are the
values that a permutation commuting with `d` may still take. Both
representations answer every query accordingly, and `fix` adds one point to `A`.
-/

namespace YbeSms.Source

open YbeSms.Library Equiv

variable {n : Nat}

/-- No mark separates the two positions. -/
def SameCell (part : Fin n → Bool) (i j : Fin n) : Prop :=
  ∀ k, min i j < k → k ≤ max i j → part k = false

theorem SameCell.refl (part : Fin n → Bool) (i : Fin n) : SameCell part i i := by
  intro k hlt hle
  rw [min_self] at hlt
  rw [max_self] at hle
  exact absurd hle (not_le_of_gt hlt)

theorem SameCell.symm {part : Fin n → Bool} {i j : Fin n} (h : SameCell part i j) :
    SameCell part j i := by
  intro k hlt hle
  exact h k (by rwa [min_comm]) (by rwa [max_comm])

theorem sameCell_of_le {part : Fin n → Bool} {i j : Fin n} (hij : i ≤ j) :
    SameCell part i j ↔ ∀ k, i < k → k ≤ j → part k = false := by
  rw [SameCell, min_eq_left hij, max_eq_right hij]

/-- The last mark at or before a position, or position 0. -/
theorem cellStart_spec (part : Fin n → Bool) (i : Fin n) :
    cellStart part i ≤ i ∧ (∀ k, cellStart part i < k → k ≤ i → part k = false) ∧
      (part (cellStart part i) = true ∨ (cellStart part i).val = 0) := by
  by_cases hex : ∃ k, k ≤ i ∧ part k = true
  · obtain ⟨s, hs, hmax⟩ := (Finset.univ.filter fun k => k ≤ i ∧ part k = true).exists_max_image id
      (by obtain ⟨k, hk⟩ := hex; exact ⟨k, by simpa using hk⟩)
    obtain ⟨hsi, hmark⟩ : s ≤ i ∧ part s = true := by simpa using hs
    have hlast : ∀ k, s < k → k ≤ i → part k = false := by
      intro k hlt hle
      by_contra hk
      have := hmax k (by simpa using ⟨hle, by simpa using hk⟩)
      exact absurd hlt (not_lt_of_ge this)
    have heq : cellStart part i = s := by
      refine foldl_last id (fun j => decide (j ≤ i) && part j) _ s (by simp [hsi, hmark]) ?_
      intro k hk
      by_cases hki : k ≤ i
      · simp [hlast k hk hki]
      · simp [hki]
    rw [heq]
    exact ⟨hsi, hlast, Or.inl hmark⟩
  · have hnone : ∀ k, (decide (k ≤ i) && part k) = false := by
      intro k
      by_contra hk
      exact hex ⟨k, by simpa using hk⟩
    have heq : cellStart part i = ⟨0, i.pos⟩ := by
      unfold cellStart
      simp only [hnone, Bool.false_eq_true, if_false]
      induction List.finRange n with
      | nil => rfl
      | cons a l ih => exact ih
    rw [heq]
    refine ⟨Fin.le_def.mpr (Nat.zero_le _), fun k _ hk => ?_, Or.inr rfl⟩
    simpa [hk] using hnone k

theorem mem_cellPositions (part : Fin n → Bool) (i j : Fin n) :
    j ∈ cellPositions part i ↔ SameCell part i j := by
  obtain ⟨hle, hlast, hmark⟩ := cellStart_spec part i
  have hbelow : j < i → (SameCell part i j ↔ cellStart part i ≤ j) := by
    intro hji
    rw [show SameCell part i j ↔ SameCell part j i from ⟨SameCell.symm, SameCell.symm⟩,
      sameCell_of_le hji.le]
    constructor
    · intro hall
      by_contra hlt
      rw [not_le] at hlt
      rcases hmark with hmark | hzero
      · simp [hall _ hlt hle] at hmark
      · have := Fin.lt_def.mp hlt
        omega
    · intro hpj k hk hki
      exact hlast k (lt_of_le_of_lt hpj hk) hki
  unfold cellPositions
  simp only
  split
  next hone =>
    obtain ⟨hpi, hends⟩ := hone
    rw [List.mem_singleton]
    constructor
    · rintro rfl
      exact SameCell.refl part j
    · intro hsame
      rcases lt_trichotomy i j with hlt | rfl | hgt
      · rw [sameCell_of_le hlt.le] at hsame
        have hnext : i.val + 1 < n := by have := Fin.lt_def.mp hlt; omega
        rw [hpi, cellEnds, dif_pos hnext] at hends
        have := hsame ⟨i.val + 1, hnext⟩ (Fin.lt_def.mpr (Nat.lt_succ_self _))
          (Fin.le_def.mpr (Fin.lt_def.mp hlt))
        simp [this] at hends
      · rfl
      · have := (hbelow hgt).mp hsame
        rw [hpi] at this
        exact absurd hgt (not_lt_of_ge this)
  next =>
    rw [List.mem_append, cellFrom, mem_takeWhile_iff (ascending_filter _)]
    simp only [List.mem_filter, List.mem_finRange, true_and, decide_eq_true_eq, Bool.and_eq_true,
      Bool.not_eq_true', Bool.and_eq_false_iff, bne_eq_false_iff_eq]
    rcases le_or_gt i j with hij | hji
    · rw [sameCell_of_le hij]
      constructor
      · rintro (⟨-, hall⟩ | ⟨-, hlt⟩)
        · intro k hk hkj
          refine (hall k hk.le hkj).resolve_left ?_
          rintro rfl
          exact absurd hk (not_lt_of_ge hle)
        · exact absurd hij (not_le_of_gt hlt)
      · intro hall
        refine Or.inl ⟨hij, fun k hik hkj => ?_⟩
        rcases hik.lt_or_eq with hik | rfl
        · exact Or.inr (hall k hik hkj)
        · rcases hle.lt_or_eq with hlt | heq
          · exact Or.inr (hlast i hlt (le_refl i))
          · exact Or.inl heq.symm
    · rw [hbelow hji]
      constructor
      · rintro (⟨⟨hij, -⟩⟩ | ⟨hp, -⟩)
        · exact absurd hij (not_le_of_gt hji)
        · exact hp
      · exact fun hp => Or.inr ⟨hp, hji⟩

theorem nodup_cellPositions (part : Fin n → Bool) (i : Fin n) : (cellPositions part i).Nodup := by
  unfold cellPositions
  simp only
  split
  · exact List.nodup_singleton i
  · refine List.nodup_append.mpr ⟨?_, (ascending_filter _).nodup, ?_⟩
    · exact (ascending_filter _).nodup.sublist (List.takeWhile_sublist _)
    · rintro j hj k hk rfl
      have hij : i ≤ j := by simpa using (List.takeWhile_subset _ hj)
      have hji : j < i := by
        have hboth := (List.mem_filter.mp hk).2
        simp only [Bool.and_eq_true, decide_eq_true_eq] at hboth
        exact hboth.2
      exact absurd hij (not_le_of_gt hji)

/-- A position without a mark shares its cell with the position before. -/
theorem exists_sameCell_before {part : Fin n → Bool}
    (hstart : ∀ i : Fin n, i.val = 0 → part i = true) {x : Fin n} (hmark : ¬ part x = true) :
    ∃ w, w < x ∧ SameCell part w x := by
  have hpos : x.val ≠ 0 := fun h0 => hmark (hstart x h0)
  have hprev : x.val - 1 < n := by omega
  have hlt : (⟨x.val - 1, hprev⟩ : Fin n) < x := Fin.lt_def.mpr (by simp only; omega)
  refine ⟨⟨x.val - 1, hprev⟩, hlt, (sameCell_of_le hlt.le).mpr fun k hk hkx => ?_⟩
  have hkx' : k = x := Fin.ext (by
    have hlow := Fin.lt_def.mp hk
    have hhigh := Fin.le_def.mp hkx
    simp only at hlow
    omega)
  simpa [hkx'] using hmark

/-- A position is a cell of its own exactly when both its marks are set. -/
theorem fixed_plain_iff {element : Fin n → Fin n} {part : Fin n → Bool}
    (hstart : ∀ i : Fin n, i.val = 0 → part i = true) (i : Fin n) :
    (PPerm.plain element part).fixed i = true ↔ ∀ j, SameCell part i j → j = i := by
  rw [PPerm.fixed, Bool.and_eq_true]
  constructor
  · rintro ⟨hmark, hends⟩ j hsame
    rcases lt_trichotomy i j with hlt | rfl | hgt
    · rw [sameCell_of_le hlt.le] at hsame
      have hnext : i.val + 1 < n := by have := Fin.lt_def.mp hlt; omega
      rw [cellEnds, dif_pos hnext] at hends
      have := hsame ⟨i.val + 1, hnext⟩ (Fin.lt_def.mpr (Nat.lt_succ_self _))
        (Fin.le_def.mpr (Fin.lt_def.mp hlt))
      simp [this] at hends
    · rfl
    · have := (sameCell_of_le hgt.le).mp hsame.symm i hgt (le_refl i)
      simp [this] at hmark
  · intro halone
    constructor
    · by_contra hmark
      obtain ⟨w, hlt, hsame⟩ := exists_sameCell_before hstart hmark
      exact hlt.ne (halone w hsame.symm)
    · unfold cellEnds
      split
      next hnext =>
        by_contra hmark
        have hlt : i < ⟨i.val + 1, hnext⟩ := Fin.lt_def.mpr (Nat.lt_succ_self _)
        have hsame : SameCell part i ⟨i.val + 1, hnext⟩ := by
          rw [sameCell_of_le hlt.le]
          intro k hk hki
          have hki' : k = ⟨i.val + 1, hnext⟩ := le_antisymm hki (Fin.le_def.mpr (Fin.lt_def.mp hk))
          simpa [hki'] using hmark
        exact hlt.ne' (halone _ hsame)
      next => rfl

theorem position_eq_some {element : Fin n → Fin n} (hinj : Function.Injective element)
    (v i : Fin n) : position element v = some i ↔ element i = v := by
  rw [position, find_finRange_eq_some]
  constructor
  · rintro ⟨hi, -⟩
    simpa using hi
  · intro hi
    refine ⟨by simpa using hi, fun w hw => ?_⟩
    have hne : element w ≠ v := fun h => hw.ne (hinj (h.trans hi.symm))
    simpa using hne

/-- The two vectors of `pperm_plain` stand for the images of `p` on `A`. -/
structure PlainRep (d : Perm (Fin n)) (A : Set (Fin n)) (p : Perm (Fin n))
    (element : Fin n → Fin n) (part : Fin n → Bool) : Prop where
  injective : Function.Injective element
  start : ∀ i : Fin n, i.val = 0 → part i = true
  agree : ∀ i ∈ A, element i = p i
  length : ∀ i, SameLength d i (element i)
  cell : ∀ i j, SameCell part i j ↔ i = j ∨ (i ∉ A ∧ j ∉ A ∧ SameLength d i j)

/-- The rows of `pperm_bit` hold the values that may still be taken. -/
structure BitRep (d : Perm (Fin n)) (A : Set (Fin n)) (p : Perm (Fin n))
    (info : BitDomains2 n) : Prop where
  exact : ∀ e, info.RowExact e
  row : ∀ e v, (info.row e).dom v = true ↔ MayMap d A p e v

/-- A `pperm_common` stands for the images of `p` on `A`. -/
def Rep (d : Perm (Fin n)) (A : Set (Fin n)) (p : Perm (Fin n)) : PPerm n → Prop
  | .plain element part => PlainRep d A p element part
  | .bit info => BitRep d A p info

section Queries

variable {d : Perm (Fin n)} {A : Set (Fin n)} {p : Perm (Fin n)} {perm : PPerm n}

private theorem PlainRep.mayMap_iff {element : Fin n → Fin n} {part : Fin n → Bool}
    (h : PlainRep d A p element part) (x y : Fin n) :
    MayMap d A p x y ↔ ∃ j, SameCell part x j ∧ element j = y := by
  constructor
  · rintro (⟨hx, rfl⟩ | ⟨hx, hy, hlen⟩)
    · exact ⟨x, SameCell.refl part x, h.agree x hx⟩
    · obtain ⟨j, rfl⟩ := (Finite.injective_iff_surjective.mp h.injective) y
      have hj : j ∉ A := by
        intro hj
        rw [h.agree j hj, symm_apply_apply] at hy
        exact hy hj
      exact ⟨j, (h.cell x j).mpr (Or.inr ⟨hx, hj, hlen.trans (h.length j).symm⟩), rfl⟩
  · rintro ⟨j, hcell, rfl⟩
    by_cases hx : x ∈ A
    · rcases (h.cell x j).mp hcell with rfl | ⟨hx', -⟩
      · exact Or.inl ⟨hx, h.agree x hx⟩
      · exact absurd hx hx'
    · have hj : j ∉ A := by
        rcases (h.cell x j).mp hcell with rfl | ⟨-, hj, -⟩
        · exact hx
        · exact hj
      have hlen : SameLength d x j := by
        rcases (h.cell x j).mp hcell with rfl | ⟨-, -, hlen⟩
        · exact SameLength.refl x
        · exact hlen
      refine Or.inr ⟨hx, fun hmem => hj ?_, hlen.trans (h.length j)⟩
      have hsame : element (p.symm (element j)) = element j := by
        rw [h.agree _ hmem, apply_symm_apply]
      exact h.injective hsame ▸ hmem

private theorem PlainRep.fixed_iff {element : Fin n → Fin n} {part : Fin n → Bool}
    (h : PlainRep d A p element part) (hp : ∀ x, SameLength d x (p x)) (x : Fin n) :
    (PPerm.plain element part).fixed x = true ↔ ∀ y, MayMap d A p x y → y = p x := by
  rw [fixed_plain_iff h.start]
  constructor
  · intro halone y hy
    obtain ⟨j, hj, rfl⟩ := (h.mayMap_iff x y).mp hy
    obtain ⟨k, hk, hpx⟩ := (h.mayMap_iff x (p x)).mp (mayMap_self hp x)
    rw [halone j hj, ← hpx, halone k hk]
  · intro hall j hj
    have hjx := hall _ ((h.mayMap_iff x _).mpr ⟨j, hj, rfl⟩)
    have hxx := hall _ ((h.mayMap_iff x _).mpr ⟨x, SameCell.refl part x, rfl⟩)
    exact h.injective (hjx.trans hxx.symm)

theorem Rep.mem_options (h : Rep d A p perm) (x y : Fin n) :
    y ∈ perm.options x ↔ MayMap d A p x y := by
  cases perm with
  | plain element part =>
    rw [PPerm.options, List.mem_map, PlainRep.mayMap_iff h]
    simp only [mem_cellPositions]
  | bit info =>
    rw [PPerm.options, BitDomains2.options_row, BitDomain.mem_options]
    exact h.row x y

theorem Rep.mem_invOptions (h : Rep d A p perm) (x y : Fin n) :
    x ∈ perm.invOptions y ↔ MayMap d A p x y := by
  cases perm with
  | plain element part =>
    obtain ⟨i, rfl⟩ := (Finite.injective_iff_surjective.mp (PlainRep.injective h)) y
    have hpos : position element (element i) = some i :=
      (position_eq_some (PlainRep.injective h) _ _).mpr rfl
    rw [PPerm.invOptions, hpos, PlainRep.mayMap_iff h]
    simp only [mem_cellPositions]
    constructor
    · exact fun hcell => ⟨i, hcell.symm, rfl⟩
    · rintro ⟨j, hcell, hj⟩
      exact PlainRep.injective h hj ▸ hcell.symm
  | bit info =>
    rw [PPerm.invOptions, List.mem_filter, (h.exact x).get]
    simpa using h.row x y

theorem nodup_invOptions (perm : PPerm n) (y : Fin n) : (perm.invOptions y).Nodup := by
  cases perm with
  | plain element part =>
    rw [PPerm.invOptions]
    cases position element y with
    | none => exact List.nodup_nil
    | some i => exact nodup_cellPositions part i
  | bit info => exact (ascending_filter _).nodup

theorem Rep.fixed_iff (h : Rep d A p perm) (hp : ∀ x, SameLength d x (p x)) (x : Fin n) :
    perm.fixed x = true ↔ ∀ y, MayMap d A p x y → y = p x := by
  cases perm with
  | plain element part => exact PlainRep.fixed_iff h hp x
  | bit info =>
    have hcount : (info.row x).numTrue = countBits (info.row x).dom := (h.exact x).exact.numTrue
    have hone : (PPerm.bit info).fixed x = true ↔ countBits (info.row x).dom = 1 := by
      rw [PPerm.fixed, BitDomains2.row_numtrue, hcount, beq_iff_eq]
      omega
    rw [hone, countBits_eq_one_iff]
    constructor
    · rintro ⟨v, hv⟩ y hy
      have hy' := (hv y).mp ((h.row x y).mpr hy)
      have hpx := (hv (p x)).mp ((h.row x (p x)).mpr (mayMap_self hp x))
      rw [hy', hpx]
    · intro hall
      refine ⟨p x, fun w => ⟨fun hw => hall w ((h.row x w).mp hw), ?_⟩⟩
      rintro rfl
      exact (h.row x (p x)).mpr (mayMap_self hp x)

theorem Rep.permOf_eq (h : Rep d A p perm) (hp : ∀ x, SameLength d x (p x)) {x : Fin n}
    (hx : perm.fixed x = true) : perm.permOf x = some (p x) := by
  have hall := (h.fixed_iff hp x).mp hx
  cases perm with
  | plain element part =>
    rw [PPerm.permOf, if_pos hx]
    have := hall (element x) ((PlainRep.mayMap_iff h x _).mpr ⟨x, SameCell.refl part x, rfl⟩)
    simp only [this]
  | bit info =>
    unfold PPerm.permOf
    rw [if_pos hx]
    have hleast : (info.row x).firstel = (p x).val := by
      rw [(h.exact x).exact.firstel, leastBit_eq_iff]
      refine ⟨(h.row x _).mpr (mayMap_self hp x), fun w hw => ?_⟩
      by_contra hdom
      exact hw.ne (hall w ((h.row x w).mp (by simpa using hdom)))
    simp only [BitDomains2.row_firstel, hleast, ofInt_val]

theorem permOf_eq_none {x : Fin n} (hx : perm.fixed x = false) : perm.permOf x = none := by
  unfold PPerm.permOf
  rw [if_neg (by simp [hx])]

theorem Rep.invPermOf_eq_some (h : Rep d A p perm) (hp : ∀ x, SameLength d x (p x))
    (x y : Fin n) : perm.invPermOf y = some x ↔ perm.fixed x = true ∧ p x = y := by
  have himage : ∀ z, perm.permOf z = some y ↔ perm.fixed z = true ∧ p z = y := by
    intro z
    cases hz : perm.fixed z with
    | true =>
      rw [h.permOf_eq hp hz]
      simp
    | false =>
      rw [permOf_eq_none hz]
      simp
  cases perm with
  | plain element part =>
    rw [PPerm.invPermOf, Option.filter_eq_some_iff, position_eq_some (PlainRep.injective h)]
    have hval : (PPerm.plain element part).fixed x = true → element x = p x := by
      intro hx
      have himg := h.permOf_eq hp hx
      unfold PPerm.permOf at himg
      rw [if_pos hx] at himg
      exact Option.some.inj himg
    constructor
    · rintro ⟨hel, hx⟩
      exact ⟨hx, (hval hx).symm.trans hel⟩
    · rintro ⟨hx, hpx⟩
      exact ⟨(hval hx).trans hpx, hx⟩
  | bit info =>
    rw [PPerm.invPermOf, find_finRange_eq_some]
    simp only [beq_iff_eq, beq_eq_false_iff_ne, ne_eq, himage]
    constructor
    · exact fun hx => hx.1
    · rintro ⟨hx, hpx⟩
      refine ⟨⟨hx, hpx⟩, ?_⟩
      rintro w hw ⟨-, hpw⟩
      exact hw.ne (p.injective (hpw.trans hpx.symm))

end Queries

section Fix

variable {d : Perm (Fin n)} {A : Set (Fin n)} {p : Perm (Fin n)} {perm : PPerm n} {x : Fin n}

/-- No remaining point of the class lies before `x`. -/
def LeastLeft (d : Perm (Fin n)) (A : Set (Fin n)) (x : Fin n) : Prop :=
  ∀ j, j ∉ A → SameLength d x j → x ≤ j

theorem mayMap_insert (hx : x ∉ A) (i y : Fin n) :
    MayMap d (insert x A) p i y ↔
      (i = x ∧ y = p x) ∨ (i ≠ x ∧ MayMap d A p i y ∧ y ≠ p x) := by
  by_cases hix : i = x
  · subst hix
    simp [MayMap]
  · have hpi : p i ≠ p x := fun h => hix (p.injective h)
    have hsymm : p.symm y = x ↔ y = p x := symm_apply_eq p
    simp only [MayMap, Set.mem_insert_iff, hix, false_or, not_or, hsymm, false_and, true_and, ne_eq,
      not_false_eq_true]
    constructor
    · rintro (⟨hi, rfl⟩ | ⟨hi, ⟨hyx, hy⟩, hlen⟩)
      · exact ⟨Or.inl ⟨hi, rfl⟩, hpi⟩
      · exact ⟨Or.inr ⟨hi, hy, hlen⟩, hyx⟩
    · rintro ⟨⟨hi, rfl⟩ | ⟨hi, hy, hlen⟩, hyx⟩
      · exact Or.inl ⟨hi, rfl⟩
      · exact Or.inr ⟨hi, ⟨hyx, hy⟩, hlen⟩

/-- A mark behind the least remaining position of a class cuts that position off. -/
private theorem sameCell_mark {part : Fin n → Bool}
    (hcell : ∀ i j, SameCell part i j ↔ i = j ∨ (i ∉ A ∧ j ∉ A ∧ SameLength d i j)) (hx : x ∉ A)
    (hleast : LeastLeft d A x) (i j : Fin n) :
    SameCell (fun k => k.val == x.val + 1 || part k) i j ↔
      i = j ∨ (i ∉ insert x A ∧ j ∉ insert x A ∧ SameLength d i j) := by
  wlog hij : i ≤ j generalizing i j
  · have hji := this j i (le_of_not_ge hij)
    constructor
    · intro h
      rcases hji.mp h.symm with rfl | ⟨hj, hi, hlen⟩
      · exact Or.inl rfl
      · exact Or.inr ⟨hi, hj, hlen.symm⟩
    · rintro (rfl | ⟨hi, hj, hlen⟩)
      · exact SameCell.refl _ i
      · exact (hji.mpr (Or.inr ⟨hj, hi, hlen.symm⟩)).symm
  rcases hij.eq_or_lt with rfl | hlt
  · exact iff_of_true (SameCell.refl _ i) (Or.inl rfl)
  have hold := hcell i j
  rw [sameCell_of_le hij] at hold ⊢
  simp only [Bool.or_eq_false_iff, beq_eq_false_iff_ne, ne_eq, Set.mem_insert_iff, not_or]
  constructor
  · intro hall
    rcases hold.mp fun k hk hkj => (hall k hk hkj).2 with rfl | ⟨hi, hj, hlen⟩
    · exact absurd hlt (lt_irrefl i)
    · have hix : i ≠ x := by
        rintro rfl
        have hnext : i.val + 1 < n := by have := Fin.lt_def.mp hlt; omega
        exact (hall ⟨i.val + 1, hnext⟩ (Fin.lt_def.mpr (Nat.lt_succ_self _))
          (Fin.le_def.mpr (Fin.lt_def.mp hlt))).1 rfl
      have hjx : j ≠ x := by
        rintro rfl
        exact absurd hlt (not_lt_of_ge (hleast i hi hlen.symm))
      exact Or.inr ⟨⟨hix, hi⟩, ⟨hjx, hj⟩, hlen⟩
  · rintro (rfl | ⟨⟨hix, hi⟩, ⟨hjx, hj⟩, hlen⟩)
    · exact absurd hlt (lt_irrefl i)
    · have hsame := hold.mpr (Or.inr ⟨hi, hj, hlen⟩)
      intro k hk hkj
      refine ⟨fun hkx => ?_, hsame k hk hkj⟩
      -- otherwise `x` would lie inside the cell, behind the smaller remaining point `i`
      have hilt : i < x := by
        have := Fin.lt_def.mp hk
        exact lt_of_le_of_ne (Fin.le_def.mpr (by omega)) hix
      have hxj : x < j := by
        have := Fin.le_def.mp hkj
        exact Fin.lt_def.mpr (by omega)
      have hcx : SameCell part i x :=
        (sameCell_of_le hilt.le).mpr fun l hl hlx => hsame l hl (hlx.trans hxj.le)
      rcases (hcell i x).mp hcx with rfl | ⟨-, -, hlen'⟩
      · exact hix rfl
      · exact absurd hilt (not_lt_of_ge (hleast i hi hlen'.symm))

theorem swapped_eq (element : Fin n → Fin n) (x swp : Fin n) :
    (fun i => if i = x then element swp else if i = swp then element x else element i) =
      element ∘ Equiv.swap x swp := by
  funext i
  rw [Function.comp_apply, Equiv.swap_apply_def]
  split
  · rfl
  · split <;> rfl

/-- `pperm_plain::fix` with the image under `p`: two positions of a class trade their values. -/
theorem PlainRep.fix {element : Fin n → Fin n} {part : Fin n → Bool}
    (h : PlainRep d A p element part) (hp : ∀ x, SameLength d x (p x)) (hx : x ∉ A)
    (hleast : LeastLeft d A x) :
    ∃ part' swp, element swp = p x ∧
      PPerm.fixPlain element part x (some (p x)) =
        (.plain (element ∘ Equiv.swap x swp) part', true) ∧
      PlainRep d (insert x A) p (element ∘ Equiv.swap x swp) part' := by
  have hrep : Rep d A p (.plain element part) := h
  have hxx : (PPerm.plain element part).fixed x = true → element x = p x := fun hf =>
    (h.fixed_iff hp x).mp hf _ ((h.mayMap_iff x _).mpr ⟨x, SameCell.refl part x, rfl⟩)
  unfold PPerm.fixPlain
  simp only
  split
  next hdone =>
    have hf : (PPerm.plain element part).fixed x = true := by
      rcases (Bool.or_eq_true _ _).mp hdone with hf | hinv
      · exact hf
      · obtain ⟨i, hi⟩ := Option.isSome_iff_exists.mp hinv
        obtain ⟨hif, hpi⟩ := (hrep.invPermOf_eq_some hp i (p x)).mp hi
        exact p.injective hpi ▸ hif
    have hsame : element ∘ Equiv.swap x x = element := by simp
    refine ⟨part, x, hxx hf, by rw [hsame, beq_iff_eq.mpr (hxx hf)], ?_⟩
    rw [hsame]
    refine ⟨h.injective, h.start, ?_, h.length, fun i j => ?_⟩
    · rintro i (rfl | hi)
      · exact hxx hf
      · exact h.agree i hi
    · have halone := (fixed_plain_iff h.start x).mp hf
      constructor
      · intro hcell
        rcases (h.cell i j).mp hcell with rfl | ⟨hi, hj, hlen⟩
        · exact Or.inl rfl
        · by_cases hix : i = x
          · exact Or.inl (hix.trans (halone j (hix ▸ hcell)).symm)
          · by_cases hjx : j = x
            · exact Or.inl ((halone i (hjx ▸ hcell.symm)).trans hjx.symm)
            · exact Or.inr ⟨by simp [hix, hi], by simp [hjx, hj], hlen⟩
      · rintro (rfl | ⟨hi, hj, hlen⟩)
        · exact SameCell.refl part i
        · exact (h.cell i j).mpr (Or.inr ⟨fun hmem => hi (Or.inr hmem),
            fun hmem => hj (Or.inr hmem), hlen⟩)
  next =>
    obtain ⟨swp, hswp⟩ := (Finite.injective_iff_surjective.mp h.injective) (p x)
    have hpos : position element (p x) = some swp := (position_eq_some h.injective _ _).mpr hswp
    have hswpA : swp ∉ A := by
      intro hmem
      have hsame := (h.agree swp hmem).symm.trans hswp
      exact hx (p.injective hsame ▸ hmem)
    refine ⟨_, swp, hswp, by rw [hpos, ← swapped_eq], ?_⟩
    refine ⟨h.injective.comp (Equiv.swap x swp).injective, fun i h0 => by simp [h.start i h0], ?_,
      fun i => ?_, sameCell_mark h.cell hx hleast⟩
    · rintro i (rfl | hi)
      · simpa using hswp
      · have hix : i ≠ x := fun he => hx (he ▸ hi)
        have his : i ≠ swp := fun he => hswpA (he ▸ hi)
        rw [Function.comp_apply, Equiv.swap_apply_of_ne_of_ne hix his]
        exact h.agree i hi
    · by_cases hix : i = x
      · rw [hix, Function.comp_apply, Equiv.swap_apply_left, hswp]
        exact hp x
      · by_cases his : i = swp
        · rw [his, Function.comp_apply, Equiv.swap_apply_right]
          refine (h.length swp).trans ?_
          rw [hswp]
          exact (hp x).symm.trans (h.length x)
        · rw [Function.comp_apply, Equiv.swap_apply_of_ne_of_ne hix his]
          exact h.length i

/-- The row that the loop of `pperm_bit::fix` leaves behind. -/
private def fixedRow (el v : Fin n) (info : BitDomains2 n) (e : Fin n) : BitDomain n :=
  if e = el then (info.row e).resetAll.set v else (info.row e).reset v

private theorem fixRows_spec (el v : Fin n) (l : List (Fin n)) (hl : l.Nodup)
    (info : BitDomains2 n) (hexact : ∀ e, info.RowExact e)
    (hother : ∀ e ∈ l, e ≠ el → ∃ w, w ≠ v ∧ (info.row e).dom w = true) :
    (PPerm.fixRows el (some v) l info).2 = true ∧
      ∀ e, (PPerm.fixRows el (some v) l info).1.RowExact e ∧
        (PPerm.fixRows el (some v) l info).1.row e =
          if e ∈ l then fixedRow el v info e else info.row e := by
  induction l generalizing info with
  | nil => exact ⟨rfl, fun e => ⟨hexact e, by simp [PPerm.fixRows]⟩⟩
  | cons i rest ih =>
    obtain ⟨hi, hrest⟩ := List.nodup_cons.mp hl
    have hstep : ∀ info' : BitDomains2 n, info'.RowExact i → info'.row i = fixedRow el v info i →
        (∀ e, e ≠ i → info'.dom e = info.dom e) →
        (PPerm.fixRows el (some v) rest info').2 = true ∧
          ∀ e, (PPerm.fixRows el (some v) rest info').1.RowExact e ∧
            (PPerm.fixRows el (some v) rest info').1.row e =
              if e ∈ i :: rest then fixedRow el v info e else info.row e := by
      intro info' hex hrow hsame
      have hrows : ∀ e, e ≠ i → info'.row e = info.row e := fun e he =>
        BitDomains2.row_congr (hsame e he)
      have hexact' : ∀ e, info'.RowExact e := by
        intro e
        by_cases he : e = i
        · exact he ▸ hex
        · exact (hexact e).congr (hsame e he)
      obtain ⟨hok, hall⟩ := ih hrest info' hexact' (by
        intro e he hel
        rw [hrows e (fun h => hi (h ▸ he))]
        exact hother e (List.mem_cons_of_mem i he) hel)
      refine ⟨hok, fun e => ⟨(hall e).1, (hall e).2.trans ?_⟩⟩
      by_cases he : e = i
      · rw [he, if_neg hi, if_pos (List.mem_cons_self ..), hrow]
      · have hfix : fixedRow el v info' e = fixedRow el v info e := by
          rw [fixedRow, fixedRow, hrows e he]
        simp only [List.mem_cons, he, false_or, hfix, hrows e he]
    rw [PPerm.fixRows]
    split
    next hiel =>
      refine hstep _ ((BitDomains2.RowExact.resetRow info i).set v) ?_ fun e he => ?_
      · rw [BitDomains2.row_set, BitDomains2.row_resetRow, fixedRow, if_pos hiel]
      · rw [BitDomains2.set_other _ he, BitDomains2.resetRow_other _ he]
    next hiel =>
      have hrow := BitDomains2.row_reset (hexact i) v
      obtain ⟨w, hwv, hw⟩ := hother i (List.mem_cons_self ..) hiel
      have hne : (info.reset i (some v)).none i = false := by
        have hcount := ((hexact i).reset v).exact.numTrue
        have hdom : ((info.reset i (some v)).row i).dom w = true := by
          rw [hrow, BitDomain.reset_dom, Function.update_of_ne hwv]
          exact hw
        rw [BitDomains2.none, BitDomains2.row_numtrue, beq_eq_false_iff_ne, hcount]
        intro hzero
        have hnone := (countBits_eq_zero_iff ((info.reset i (some v)).row i).dom).mp (by omega) w
        rw [hdom] at hnone
        cases hnone
      simp only [hne, Bool.false_eq_true, if_false]
      refine hstep _ ((hexact i).reset v) ?_ fun e he => BitDomains2.reset_other _ he _
      rw [hrow, fixedRow, if_neg hiel]

/-- `pperm_bit::fix` with the image under `p`. -/
theorem BitRep.fix {info : BitDomains2 n} (h : BitRep d A p info)
    (hp : ∀ x, SameLength d x (p x)) (hx : x ∉ A) :
    ((PPerm.bit info).fix x (some (p x))).2 = true ∧
      ∃ info', ((PPerm.bit info).fix x (some (p x))).1 = .bit info' ∧
        BitRep d (insert x A) p info' := by
  have hget : info.get x (some (p x)) = true := by
    rw [(h.exact x).get]
    exact (h.row x _).mpr (mayMap_self hp x)
  obtain ⟨hok, hrows⟩ := fixRows_spec x (p x) (List.finRange n) (List.nodup_finRange n) info
    h.exact (by
      intro e _ hex
      exact ⟨p e, fun he => hex (p.injective he), (h.row e _).mpr (mayMap_self hp e)⟩)
  rw [PPerm.fix, if_pos hget]
  refine ⟨hok, _, rfl, fun e => (hrows e).1, fun e v => ?_⟩
  rw [(hrows e).2, if_pos (List.mem_finRange e), mayMap_insert hx, fixedRow]
  by_cases hex : e = x
  · rw [if_pos hex, BitDomain.set_dom, BitDomain.resetAll_dom, Function.update_apply]
    simp [hex]
  · rw [if_neg hex, BitDomain.reset_dom, Function.update_apply]
    by_cases hv : v = p x
    · simp [hv, hex]
    · simpa [hv, hex] using h.row e v

end Fix

end YbeSms.Source
