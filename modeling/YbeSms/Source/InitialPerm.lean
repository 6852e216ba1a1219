import YbeSms.Source.PermRun
import YbeSms.Source.ClassTables
import YbeSms.Source.Diagonals

/-!
# The initial permutation and its completions

Source: ybe-sms/src/minCheck_V2.cpp:23-43, 143-151; useful.cpp:156-217, 304-307,
465-499. The constructor starts with all permutations that commute with the
diagonal; `extendPerm` ends with one of those the permutation can still become.
-/

namespace YbeSms.Source

open YbeSms.Library Equiv

variable {n : Nat} {d : Perm (Fin n)}

/-- The least point whose cycle has the length of a given one. -/
theorem exists_leastOfClass (d : Perm (Fin n)) (x : Fin n) :
    ∃ s, SameLength d s x ∧ ∀ j, SameLength d s j → s ≤ j := by
  classical
  obtain ⟨s, hs, hmin⟩ := (Finset.univ.filter fun j => SameLength d x j).exists_min_image id
    ⟨x, by simp [SameLength.refl]⟩
  have hxs : SameLength d x s := by simpa using hs
  exact ⟨s, hxs.symm, fun j hj => hmin j (by simpa using hxs.trans hj)⟩

section Marks

variable (h : Layered d) {part : Fin n → Bool}
  (hmark : ∀ i, part i = true ↔ ∀ j, SameLength d i j → i ≤ j)

include h hmark

private theorem sameLength_of_unmarked {i j : Fin n} (hij : i ≤ j)
    (hcell : ∀ k, i < k → k ≤ j → part k = false) : SameLength d i j := by
  obtain ⟨s, hsj, hleast⟩ := exists_leastOfClass d j
  have hs : part s = true := (hmark s).mpr hleast
  have hsi : s ≤ i := by
    by_contra hlt
    rw [hcell s (not_le.mp hlt) (hleast j hsj)] at hs
    cases hs
  exact (h.adjacent s i j hsi hij hsj).symm.trans hsj

private theorem unmarked_of_sameLength {i j k : Fin n} (hlen : SameLength d i j) (hik : i < k)
    (hkj : k ≤ j) : part k = false := by
  rw [← Bool.not_eq_true, hmark]
  intro hall
  exact absurd (hall i (h.adjacent i k j hik.le hkj hlen).symm) (not_le_of_gt hik)

/-- Marks at the least points of the classes make the classes the cells. -/
theorem sameCell_iff_sameLength (i j : Fin n) : SameCell part i j ↔ SameLength d i j := by
  rcases le_total i j with hij | hij
  · rw [SameCell, min_eq_left hij, max_eq_right hij]
    exact ⟨sameLength_of_unmarked h hmark hij,
      fun hlen k hik hkj => unmarked_of_sameLength h hmark hlen hik hkj⟩
  · rw [SameCell, min_eq_right hij, max_eq_left hij]
    exact ⟨fun hcell => (sameLength_of_unmarked h hmark hij hcell).symm,
      fun hlen k hik hkj => unmarked_of_sameLength h hmark hlen.symm hik hkj⟩

end Marks

/-- `pperm_plain(perm)` has chosen nothing. -/
theorem stands_ppermPlain (h : Layered d) : Stands d ∅ 1 (ppermPlain d) := by
  have helement : ∀ i : Fin n, (cycleToParts (permToCyclePerm d)).1.getD i i = i := by
    intro i
    rw [cycleToParts_elements h, List.getD_eq_getElem _ _ (by simp)]
    simp
  have hcell := sameCell_iff_sameLength h (cycleToParts_marks h)
  refine ⟨fun _ _ hx => absurd hx (Set.notMem_empty _), Commute.one_left d, ?_, ?_⟩
  · refine ⟨fun i j hij => ?_, fun i hi => ?_, fun i hi => absurd hi (Set.notMem_empty i),
      fun i => ?_, fun i j => ?_⟩
    · rwa [helement, helement] at hij
    · rw [cycleToParts_marks h]
      exact fun j _ => Fin.le_def.mpr (by omega)
    · rw [helement]
      exact SameLength.refl i
    · rw [hcell]
      constructor
      · exact fun hlen => Or.inr ⟨Set.notMem_empty i, Set.notMem_empty j, hlen⟩
      · rintro (rfl | ⟨-, -, hlen⟩)
        · exact SameLength.refl i
        · exact hlen
  · intro element part hplain i
    unfold ppermPlain at hplain
    injection hplain with heq
    rw [← heq]
    simp only [helement]

private theorem foldl_rows_off (row : BitDomain n → Fin (n + 2) → Int) (bs : List (BitDomain n))
    (info : BitDomains2 n) (j : Fin n) (hoff : ∀ b ∈ bs, b.dom j = false) :
    (bs.foldl (fun info b => ⟨fun j => if b.dom j then row b else info.dom j⟩) info :
      BitDomains2 n).dom j = info.dom j := by
  induction bs generalizing info with
  | nil => rfl
  | cons a rest ih =>
    rw [List.foldl_cons, ih _ fun b hb => hoff b (List.mem_cons_of_mem a hb)]
    simp [hoff a (by simp)]

/-- Among disjoint classes every point gets the row of its own class. -/
private theorem foldl_rows (row : BitDomain n → Fin (n + 2) → Int) (bs : List (BitDomain n))
    (info : BitDomains2 n) {b : BitDomain n} (hb : b ∈ bs) {j : Fin n} (hbj : b.dom j = true)
    (hdis : bs.Pairwise fun a b => ∀ v, a.dom v = true → b.dom v = true → False) :
    (bs.foldl (fun info b => ⟨fun j => if b.dom j then row b else info.dom j⟩) info :
      BitDomains2 n).dom j = row b := by
  induction bs generalizing info with
  | nil => exact absurd hb List.not_mem_nil
  | cons a rest ih =>
    obtain ⟨ha, hrest⟩ := List.pairwise_cons.mp hdis
    rw [List.foldl_cons]
    rcases List.mem_cons.mp hb with rfl | hb
    · rw [foldl_rows_off row rest _ j fun c hc => by
        simpa using fun hcj => ha c hc j hbj hcj]
      simp [hbj]
    · exact ih _ hb hrest

/-- The row that one class writes. -/
private theorem row_of_class {info : BitDomains2 n} {b : BitDomain n} {j : Fin n}
    (hrow : info.dom j = fun s => if s = 0 then b.firstel else if s = 1 then b.numTrue
      else if b.options.any fun v => slot (some v) == s then 1 else 0) :
    info.row j = b ∧ ∀ v, info.dom j (slot (some v)) = 0 ∨ info.dom j (slot (some v)) = 1 := by
  have hslot : ∀ v, info.dom j (slot (some v)) =
      if b.options.any fun w => slot (some w) == slot (some v) then 1 else 0 := by
    intro v
    rw [hrow]
    simp only [slot_ne_zero, slot_some_ne_one, if_false]
  constructor
  · have hdom : (fun v => info.dom j (slot (some v)) == 1) = b.dom := by
      funext v
      rw [hslot, Bool.eq_iff_iff]
      simp [BitDomain.mem_options]
    unfold BitDomains2.row BitDomains2.firstel BitDomains2.numtrue
    rw [hdom, hrow]
    simp
  · intro v
    rw [hslot]
    split
    · exact Or.inr rfl
    · exact Or.inl rfl

/-- `pperm_bit(perm)` has chosen nothing. -/
theorem stands_ppermBit (h : Layered d) : Stands d ∅ 1 (ppermBit d) := by
  refine ⟨fun _ _ hx => absurd hx (Set.notMem_empty _), Commute.one_left d, ?_, ?_⟩
  · have hrow : ∀ j : Fin n, ∀ info, ppermBit d = .bit info →
        ∃ b, IsClass d b ∧ b.dom j = true ∧ info.row j = b ∧
          ∀ v, info.dom j (slot (some v)) = 0 ∨ info.dom j (slot (some v)) = 1 := by
      intro j info hinfo
      obtain ⟨b, hb, hbj⟩ := exists_class h j
      unfold ppermBit at hinfo
      injection hinfo with heq
      refine ⟨b, isClass_of_mem h hb, hbj, row_of_class ?_⟩
      rw [← heq]
      exact foldl_rows _ _ _ hb hbj (classes_disjoint h)
    unfold ppermBit at hrow ⊢
    refine ⟨fun e => ?_, fun e v => ?_⟩
    · obtain ⟨b, hclass, -, hrow, hbits⟩ := hrow e _ rfl
      exact ⟨hbits, by rw [hrow]; exact hclass.exact⟩
    · obtain ⟨b, hclass, hbe, hrow, -⟩ := hrow e _ rfl
      rw [hrow, hclass.members e v hbe]
      constructor
      · exact fun hlen => Or.inr ⟨Set.notMem_empty e, Set.notMem_empty _, hlen⟩
      · rintro (⟨hmem, -⟩ | ⟨-, -, hlen⟩)
        · exact absurd hmem (Set.notMem_empty e)
        · exact hlen
  · intro element part hplain
    unfold ppermBit at hplain
    cases hplain

/-- `initialPart` is one of the two representations of the served diagonal. -/
theorem initialPart_eq {m : MinCheck n} (hm : Serves m d) :
    m.initialPart = if m.cfg.useBit && m.cfg.diagPart then ppermBit d else ppermPlain d := by
  unfold MinCheck.initialPart
  cases hdiag : m.cfg.diagPart with
  | true => simp [hm.diag hdiag]
  | false => simp [hm.plain hdiag]

/-- The search starts with all permutations that commute with the diagonal. -/
theorem valid_initialPart {m : MinCheck n} (hm : Serves m d) :
    Valid m d m.initialPart ∧ den d m.initialPart = {q | Commute q d} := by
  have hstands : Stands d ∅ 1 m.initialPart := by
    rw [initialPart_eq hm]
    split
    · exact stands_ppermBit hm.layered
    · exact stands_ppermPlain hm.layered
  refine ⟨⟨fun hbit => ?_, ∅, 1, hstands⟩, ?_⟩
  · by_contra huse
    rw [initialPart_eq hm, if_neg (by simp [huse])] at hbit
    cases hbit
  · rw [hstands.den_eq]
    ext q
    exact ⟨fun hq => hq.1, fun hq => ⟨hq, fun x hx => absurd hx (Set.notMem_empty x)⟩⟩

theorem layered_one (n : Nat) : Layered (1 : Perm (Fin n)) where
  step i := Or.inr fun j hj => by
    obtain ⟨k, rfl⟩ := hj
    rw [one_zpow, Perm.one_apply]
    exact ⟨le_refl i, le_refl i⟩
  adjacent i j _ _ _ _ k := by rw [one_zpow, Perm.one_apply, Perm.one_apply]; exact ⟨fun _ => rfl, fun _ => rfl⟩

/-! ### Completions -/

section Completions

variable {m : MinCheck n} {perm : PPerm n}

theorem Valid.mem_options_self (h : Valid m d perm) {q : Perm (Fin n)} (hq : q ∈ den d perm)
    (x : Fin n) : q x ∈ perm.options x :=
  (h.mem_options x (q x)).mpr ⟨q, hq, rfl⟩

/-- A permutation with all images fixed is the one it can become. -/
theorem Valid.getPerm_of_fixed (h : Valid m d perm) (hfixed : ∀ x, perm.fixed x = true)
    {q : Perm (Fin n)} (hq : q ∈ den d perm) : perm.getPerm = some ⇑q := by
  have hperm : ∀ x, perm.permOf x = some (q x) := fun x => h.permOf_eq hq (hfixed x)
  cases perm with
  | plain element part =>
    rw [PPerm.getPerm, Option.some.injEq]
    funext x
    have hx := hperm x
    rw [PPerm.permOf, if_pos (hfixed x)] at hx
    exact Option.some.inj hx
  | bit info =>
    have hall : ∀ x, ((PPerm.bit info).permOf x).isSome := fun x => by rw [hperm x]; rfl
    simp only [PPerm.getPerm]
    rw [dif_pos hall, Option.some.injEq]
    funext x
    simp [hperm x]

/-- What a plain permutation holds is one of those it can become. -/
theorem Valid.getPerm_plain (h : Valid m d perm) (hbit : isBit perm = false) :
    ∃ q ∈ den d perm, perm.getPerm = some ⇑q := by
  obtain ⟨A, p, hs⟩ := h.stands
  cases perm with
  | plain element part =>
    obtain ⟨e, he, hag, hplaced⟩ := hs.exists_placed
    refine ⟨e, hs.den_eq ▸ ⟨he, hag⟩, ?_⟩
    rw [PPerm.getPerm, hplaced element part rfl]
  | bit info => cases hbit

theorem Valid.fixed_of_den_subset (h : Valid m d perm) {perm' : PPerm n} (h' : Valid m d perm')
    (hsub : den d perm' ⊆ den d perm) {x : Fin n} (hx : perm.fixed x = true) :
    perm'.fixed x = true := by
  obtain ⟨q, hq⟩ := h'.exists_mem_den
  rw [h'.fixed_iff hq]
  exact fun q' hq' => (h.fixed_iff (hsub hq) x).mp hx q' (hsub hq')

/-- The loop of `extendPerm`, point after point: earlier points are fixed already. -/
theorem Valid.extendFrom (hm : Serves m d) (l : List (Fin n)) (hl : l.Pairwise (· < ·))
    (h : Valid m d perm) (hdone : ∀ j, j ∉ l → perm.fixed j = true) :
    ∃ r, m.extendFrom l perm = some r ∧ Valid m d r ∧ den d r ⊆ den d perm ∧
      ∀ x, r.fixed x = true := by
  induction l generalizing perm with
  | nil => exact ⟨perm, rfl, h, subset_rfl, fun x => hdone x List.not_mem_nil⟩
  | cons i rest ih =>
    obtain ⟨hi, hrest⟩ := List.pairwise_cons.mp hl
    rw [MinCheck.extendFrom]
    obtain ⟨q, hq⟩ := h.exists_mem_den
    by_cases hfixed : perm.fixed i = true
    · rw [if_neg (by rw [h.permOf_eq hq hfixed]; exact Option.some_ne_none _)]
      refine ih hrest h fun j hj => ?_
      by_cases hji : j = i
      · exact hji ▸ hfixed
      · exact hdone j fun hmem => (List.mem_cons.mp hmem).elim hji hj
    · have hunfixed : perm.fixed i = false := by simpa using hfixed
      rw [if_pos (permOf_eq_none hunfixed)]
      have hq' := h.mem_options_self hq i
      cases hopts : perm.options i with
      | nil =>
        rw [hopts] at hq'
        exact absurd hq' List.not_mem_nil
      | cons v vs =>
        have hv := (h.mem_options i v).mp (by rw [hopts]; exact List.mem_cons_self)
        have hstart : AtStart perm i := h.atStart_of_fixed_before fun j hj => hdone j fun hmem => by
          rcases List.mem_cons.mp hmem with rfl | hmem
          · exact lt_irrefl j hj
          · exact lt_asymm hj (hi j hmem)
        obtain ⟨-, hvalid, hden⟩ := h.choose hm hunfixed hv hstart
        have hsub : den d (m.fixAndPropagate perm i (some v)).1 ⊆ den d perm := by
          rw [hden]
          exact fun q hq => hq.1
        obtain ⟨r, hr, hrvalid, hrsub, hrfixed⟩ := ih hrest hvalid fun j hj => by
          by_cases hji : j = i
          · obtain ⟨q, hq⟩ := hvalid.exists_mem_den
            rw [hji, hvalid.fixed_iff hq]
            intro q' hq'
            rw [hden] at hq hq'
            exact hq'.2.trans hq.2.symm
          · exact h.fixed_of_den_subset hvalid hsub
              (hdone j fun hmem => (List.mem_cons.mp hmem).elim hji hj)
        exact ⟨r, hr, hrvalid, hrsub.trans hsub, hrfixed⟩

/-- `extendPerm` ends with one of the permutations that are still possible. -/
theorem Valid.extendPerm (hm : Serves m d) (h : Valid m d perm) :
    ∃ r, m.extendPerm perm = some r ∧ Valid m d r ∧ den d r ⊆ den d perm ∧
      ∃ q ∈ den d r, r.getPerm = some ⇑q := by
  unfold MinCheck.extendPerm
  by_cases huse : m.cfg.useBit = true
  · by_cases hfull : perm.fullDefined = true
    · obtain ⟨q, hq⟩ := h.exists_mem_den
      have hfixed : ∀ x, perm.fixed x = true := fun x =>
        List.all_eq_true.mp hfull x (List.mem_finRange x)
      exact ⟨perm, by simp [hfull], h, subset_rfl, q, hq, h.getPerm_of_fixed hfixed hq⟩
    · obtain ⟨r, hr, hvalid, hsub, hfixed⟩ := h.extendFrom hm (List.finRange n)
        (List.pairwise_lt_finRange n) fun j hj => absurd (List.mem_finRange j) hj
      obtain ⟨q, hq⟩ := hvalid.exists_mem_den
      exact ⟨r, by simpa [huse, hfull] using hr, hvalid, hsub, q, hq,
        hvalid.getPerm_of_fixed hfixed hq⟩
  · have hplain : isBit perm = false := by
      rw [← Bool.not_eq_true]
      exact fun hbit => huse (h.bit hbit)
    obtain ⟨q, hq, hget⟩ := h.getPerm_plain hplain
    exact ⟨perm, by simp [huse], h, subset_rfl, q, hq, hget⟩

end Completions

/-- A diagonal of the list that `main` makes for `--diagPart`, or none and the full encoding. Other
permutations, which `--diag` takes as well, are left out. -/
def InMode (m : MinCheck n) (d : Perm (Fin n)) : Prop :=
  if m.cfg.diagPart then ⇑d ∈ diagonals n ∧ m.diag = d else d = 1 ∧ m.cfg.smallerEncoding = false

theorem InMode.serves {m : MinCheck n} (hn : 1 ≤ n) (h : InMode m d) : Serves m d := by
  unfold InMode at h
  by_cases hdiag : m.cfg.diagPart = true
  · rw [if_pos hdiag] at h
    exact ⟨layered_of_mem hn d h.1, fun _ => h.2, fun hno => by simp [hdiag] at hno⟩
  · rw [if_neg hdiag] at h
    refine ⟨?_, fun hd => absurd hd hdiag, fun _ => h.1⟩
    rw [h.1]
    exact layered_one n

theorem InMode.diagPart_of_smaller {m : MinCheck n} (h : InMode m d)
    (hsmall : m.cfg.smallerEncoding = true) : m.cfg.diagPart = true := by
  by_contra hno
  unfold InMode at h
  rw [if_neg hno, hsmall] at h
  cases h.2

end YbeSms.Source
