import YbeSms.Source.CyclePerm
import YbeSms.Library.Centralizer
import Mathlib.Data.Finset.Max
import Mathlib.Data.List.GetD

/-!
# The cycle tables of a listed diagonal

Source: ybe-sms/src/useful.cpp:138-203, 205-260. The diagonals of the list have a
simple shape: every cycle is an interval of points, traversed upwards, and cycles
of the same length are adjacent. For such a permutation the tables of
`cyclePerm_t`, `pperm_plain` and `pperm_bit` are computed here.
-/

namespace YbeSms.Source

open YbeSms.Library Equiv

variable {n : Nat}

/-- Cycles are intervals traversed upwards; cycles of one length are adjacent. -/
structure Layered (d : Perm (Fin n)) : Prop where
  step : ∀ i, (d i).val = i.val + 1 ∨ ∀ j, d.SameCycle i j → d i ≤ j ∧ j ≤ i
  adjacent : ∀ i j k, i ≤ j → j ≤ k → SameLength d i k → SameLength d i j

/-- The least point of its cycle. -/
def IsFirst (d : Perm (Fin n)) (x : Fin n) : Prop := ∀ j, d.SameCycle x j → x ≤ j

theorem exists_isFirst (d : Perm (Fin n)) (x : Fin n) : ∃ s, IsFirst d s ∧ d.SameCycle s x := by
  classical
  obtain ⟨s, hs, hmin⟩ := (Finset.univ.filter fun j => d.SameCycle x j).exists_min_image id
    ⟨x, by simp [Perm.SameCycle.refl]⟩
  have hxs : d.SameCycle x s := by simpa using hs
  exact ⟨s, fun j hj => hmin j (by simpa using hxs.trans hj), hxs.symm⟩

theorem IsFirst.eq {d : Perm (Fin n)} {s t : Fin n} (hs : IsFirst d s) (ht : IsFirst d t)
    (h : d.SameCycle s t) : s = t := le_antisymm (hs t h) (ht s h.symm)

namespace Layered

variable {d : Perm (Fin n)} (h : Layered d)

include h

/-- From its least point a cycle goes up by one. -/
theorem pow_val {s : Fin n} (hs : IsFirst d s) {k : Nat} (hk : k < cycleLength d s) :
    ((d ^ k) s).val = s.val + k := by
  induction k with
  | zero => rfl
  | succ k ih =>
    have ihk := ih (by omega)
    have hsame : d.SameCycle s ((d ^ k) s) := Perm.sameCycle_pow_right.mpr (Perm.SameCycle.refl d s)
    rw [pow_succ', Perm.mul_apply]
    rcases h.step ((d ^ k) s) with hnext | hlast
    · omega
    · -- otherwise the walk would be back at its least point too early
      have hle := (hlast s hsame.symm).1
      have hge := hs (d ((d ^ k) s)) (Perm.sameCycle_apply_right.mpr hsame)
      have hback : (d ^ (k + 1)) s = (d ^ 0) s := by
        rw [pow_succ', Perm.mul_apply, pow_zero, Perm.one_apply]
        exact le_antisymm hle hge
      have := pow_injOn hk (by omega) hback
      omega

theorem sameCycle_iff {s : Fin n} (hs : IsFirst d s) (x : Fin n) :
    d.SameCycle s x ↔ s.val ≤ x.val ∧ x.val < s.val + cycleLength d s := by
  rw [sameCycle_iff_exists_lt]
  constructor
  · rintro ⟨k, hk, rfl⟩
    have := h.pow_val hs hk
    omega
  · rintro ⟨hle, hlt⟩
    have hk : x.val - s.val < cycleLength d s := by omega
    refine ⟨x.val - s.val, hk, Fin.ext ?_⟩
    have := h.pow_val hs hk
    omega

/-- The point behind a cycle starts a cycle. -/
theorem isFirst_next {s t : Fin n} (hs : IsFirst d s) (ht : t.val = s.val + cycleLength d s) :
    IsFirst d t := by
  obtain ⟨u, hu, hut⟩ := exists_isFirst d t
  have hle := (h.sameCycle_iff hu t).mp hut
  have htu : t = u := by
    by_contra hne
    have hlt : u.val < t.val := by omega
    have hpos := cycleLength_pos d s
    by_cases hus : s ≤ u
    · have hsu : d.SameCycle s u := (h.sameCycle_iff hs u).mpr (by omega)
      have := (h.sameCycle_iff hs t).mp (hsu.trans hut)
      omega
    · have hsu : d.SameCycle u s := (h.sameCycle_iff hu s).mpr (by omega)
      have := hu.eq hs hsu
      omega
  exact htu ▸ hu

end Layered

/-! ### `permToCyclePerm` -/

/-- Two ascending lists with the same members are equal. -/
theorem eq_of_ascending {l l' : List (Fin n)} (hl : l.Pairwise (· < ·)) (hl' : l'.Pairwise (· < ·))
    (hmem : ∀ x, x ∈ l ↔ x ∈ l') : l = l' :=
  ((List.perm_ext_iff_of_nodup hl.nodup hl'.nodup).mpr hmem).eq_of_pairwise' hl hl'

/-- The points from `s` on. -/
def pointsFrom (n s : Nat) : List (Fin n) := (List.finRange n).filter fun i => s ≤ i.val

@[simp] theorem mem_pointsFrom {s : Nat} {i : Fin n} : i ∈ pointsFrom n s ↔ s ≤ i.val := by
  simp [pointsFrom]

theorem ascending_filter (q : Fin n → Bool) : ((List.finRange n).filter q).Pairwise (· < ·) :=
  (List.pairwise_lt_finRange n).filter q

theorem pointsFrom_erase {s : Nat} (i : Fin n) (hi : i.val = s) :
    (pointsFrom n s).erase i = pointsFrom n (s + 1) := by
  have hnodup : (pointsFrom n s).Nodup := (ascending_filter _).nodup
  rw [hnodup.erase_eq_filter]
  refine eq_of_ascending ((ascending_filter _).filter _) (ascending_filter _) fun x => ?_
  simp only [List.mem_filter, mem_pointsFrom, bne_iff_ne, ne_eq, Fin.ext_iff]
  omega

/-- A loop that keeps the last hit ends with the greatest point that is hit. -/
theorem foldl_last {β : Type} (f : Fin n → β) (q : Fin n → Bool) (b : β) (s : Fin n)
    (hs : q s = true) (hlast : ∀ i, s < i → q i = false) :
    (List.finRange n).foldl (fun p i => if q i then f i else p) b = f s := by
  obtain ⟨l, l', hsplit⟩ := List.append_of_mem (List.mem_finRange s)
  have hsorted : (l ++ s :: l').Pairwise (· < ·) := hsplit ▸ List.pairwise_lt_finRange n
  have hafter := (List.pairwise_cons.mp (List.pairwise_append.mp hsorted).2.1).1
  have hkeep : ∀ (m : List (Fin n)) (c : β), (∀ i ∈ m, q i = false) →
      m.foldl (fun p i => if q i then f i else p) c = c := by
    intro m c hm
    induction m with
    | nil => rfl
    | cons a m ih =>
      rw [List.foldl_cons, if_neg (by simp [hm a (by simp)])]
      exact ih fun i hi => hm i (List.mem_cons_of_mem a hi)
  rw [hsplit, List.foldl_append, List.foldl_cons, if_pos hs]
  exact hkeep l' _ fun i hi => hlast i (hafter i hi)

/-- On an ascending list `takeWhile` keeps the members up to the first failure. -/
theorem mem_takeWhile_iff {q : Fin n → Bool} {l : List (Fin n)} (hl : l.Pairwise (· < ·))
    (i : Fin n) : i ∈ l.takeWhile q ↔ i ∈ l ∧ ∀ j ∈ l, j ≤ i → q j = true := by
  induction l with
  | nil => simp
  | cons a l ih =>
    obtain ⟨ha, hl⟩ := List.pairwise_cons.mp hl
    rw [List.takeWhile_cons]
    by_cases hq : q a = true
    · rw [if_pos hq, List.mem_cons, List.mem_cons, ih hl]
      constructor
      · rintro (rfl | ⟨hi, hall⟩)
        · refine ⟨Or.inl rfl, fun j hj hle => ?_⟩
          rcases List.mem_cons.mp hj with rfl | hj
          · exact hq
          · exact absurd hle (not_le_of_gt (ha j hj))
        · refine ⟨Or.inr hi, fun j hj hle => ?_⟩
          rcases List.mem_cons.mp hj with rfl | hj
          · exact hq
          · exact hall j hj hle
      · rintro ⟨hi, hall⟩
        exact hi.imp_right fun hi => ⟨hi, fun j hj => hall j (List.mem_cons_of_mem a hj)⟩
    · rw [if_neg hq]
      refine iff_of_false (List.not_mem_nil) fun ⟨hi, hall⟩ => hq (hall a (by simp) ?_)
      rcases List.mem_cons.mp hi with rfl | hi
      · exact le_refl _
      · exact (ha i hi).le

section Cycles

variable {d : Perm (Fin n)} (h : Layered d)

include h

private theorem followCycle_eq {s : Fin n} (hs : IsFirst d s) (rounds k : Nat)
    (hk : k ≤ cycleLength d s) (hrounds : cycleLength d s < rounds + k) :
    followCycle d rounds ((d ^ k) s) ((List.range k).map fun i => (d ^ i) s)
      (pointsFrom n (s + k)) = (cycleList d s, pointsFrom n (s + cycleLength d s)) := by
  induction rounds generalizing k with
  | zero => omega
  | succ rounds ih =>
    rw [followCycle]
    by_cases hlast : k = cycleLength d s
    · have hpos := cycleLength_pos d s
      have hmem : (d ^ k) s ∈ (List.range k).map fun i => (d ^ i) s := by
        rw [hlast, pow_cycleLength]
        exact List.mem_map.mpr ⟨0, List.mem_range.mpr hpos, rfl⟩
      rw [if_pos hmem, hlast]
      rfl
    · have hlt : k < cycleLength d s := by omega
      have hmem : (d ^ k) s ∉ (List.range k).map fun i => (d ^ i) s := by
        intro hmem
        obtain ⟨i, hi, hsame⟩ := List.mem_map.mp hmem
        have := pow_injOn (by have := List.mem_range.mp hi; omega) hlt hsame
        have := List.mem_range.mp hi
        omega
      rw [if_neg hmem, pointsFrom_erase _ (h.pow_val hs hlt)]
      have hnext := ih (k + 1) hlt (by omega)
      rw [List.range_succ, List.map_append, List.map_singleton, pow_succ', Perm.mul_apply] at hnext
      exact hnext

open Classical in
/-- The least points of the cycles from `s` on. -/
noncomputable def firstsFrom (d : Perm (Fin n)) (s : Nat) : List (Fin n) :=
  (List.finRange n).filter fun i => s ≤ i.val ∧ IsFirst d i

omit h in
theorem mem_firstsFrom {s : Nat} {i : Fin n} : i ∈ firstsFrom d s ↔ s ≤ i.val ∧ IsFirst d i := by
  simp [firstsFrom]

omit h in
private theorem firstsFrom_nil {s : Nat} (hn : n ≤ s) : firstsFrom d s = [] := by
  rw [List.eq_nil_iff_forall_not_mem]
  intro i hi
  have := (mem_firstsFrom.mp hi).1
  omega

private theorem firstsFrom_cons {s : Fin n} (hs : IsFirst d s) :
    firstsFrom d s = s :: firstsFrom d (s + cycleLength d s) := by
  have hpos := cycleLength_pos d s
  refine eq_of_ascending (ascending_filter _) ?_ fun x => ?_
  · refine List.pairwise_cons.mpr ⟨fun x hx => ?_, ascending_filter _⟩
    have := (mem_firstsFrom.mp hx).1
    exact Fin.lt_def.mpr (by omega)
  · rw [List.mem_cons, mem_firstsFrom, mem_firstsFrom]
    constructor
    · rintro ⟨hle, hx⟩
      by_cases hlt : x.val < s.val + cycleLength d s
      · exact Or.inl (hs.eq hx ((h.sameCycle_iff hs x).mpr ⟨hle, hlt⟩)).symm
      · exact Or.inr ⟨by omega, hx⟩
    · rintro (rfl | ⟨hle, hx⟩)
      · exact ⟨le_refl _, hs⟩
      · exact ⟨by omega, hx⟩

private theorem cyclesOf_eq (rounds s : Nat) (hrounds : n ≤ s + rounds)
    (hs : ∀ i : Fin n, i.val = s → IsFirst d i) :
    cyclesOf d rounds (pointsFrom n s) = (firstsFrom d s).map (cycleList d) := by
  induction rounds generalizing s with
  | zero =>
    rw [firstsFrom_nil (by omega)]
    rfl
  | succ rounds ih =>
    rw [cyclesOf]
    by_cases hn : s < n
    · have hfirst := hs ⟨s, hn⟩ rfl
      have hmin : (pointsFrom n s).min? = some ⟨s, hn⟩ := by
        rw [List.min?_eq_some_iff]
        exact ⟨by simp, fun b hb => mem_pointsFrom.mp hb⟩
      have hfollow := followCycle_eq h hfirst (n + 1) 0 (Nat.zero_le _) (by
        have hle := h.pow_val hfirst (k := cycleLength d ⟨s, hn⟩ - 1) (by
          have := cycleLength_pos d ⟨s, hn⟩
          omega)
        have := ((d ^ (cycleLength d ⟨s, hn⟩ - 1)) ⟨s, hn⟩).isLt
        omega)
      simp only [pow_zero, Perm.one_apply, List.range_zero, List.map_nil, Nat.add_zero] at hfollow
      rw [hmin]
      simp only [hfollow]
      rw [firstsFrom_cons h hfirst, List.map_cons]
      have hpos := cycleLength_pos d ⟨s, hn⟩
      rw [ih (s + cycleLength d ⟨s, hn⟩) (by omega) fun i hi => h.isFirst_next hfirst hi]
    · have hnil : pointsFrom n s = [] := by
        rw [List.eq_nil_iff_forall_not_mem]
        intro i hi
        have := mem_pointsFrom.mp hi
        omega
      rw [hnil, firstsFrom_nil (by omega)]
      rfl

/-- `permToCyclePerm` lists the cycles by their least points. -/
theorem permToCyclePerm_eq : permToCyclePerm d = (firstsFrom d 0).map (cycleList d) := by
  have hall : List.finRange n = pointsFrom n 0 := by simp [pointsFrom]
  rw [permToCyclePerm, hall]
  refine cyclesOf_eq h n 0 (by omega) fun i hi j _ => Fin.le_def.mpr (by omega)

/-! ### `cyclePerm_t` -/

private theorem positive_mark (rounds s : Nat) (hrounds : n ≤ s + rounds)
    (hs : ∀ i : Fin n, i.val = s → IsFirst d i) (i : Fin n) (hi : s ≤ i.val) :
    0 < ((firstsFrom d s).flatMap fun x =>
      cycleLength d x :: List.replicate (cycleLength d x - 1) 0).getD (i.val - s) 0 ↔
      IsFirst d i := by
  induction rounds generalizing s with
  | zero => omega
  | succ rounds ih =>
    have hn : s < n := by omega
    have hfirst := hs ⟨s, hn⟩ rfl
    have hpos := cycleLength_pos d ⟨s, hn⟩
    have hcons := firstsFrom_cons h hfirst
    simp only at hcons
    rw [hcons, List.flatMap_cons]
    by_cases hlt : i.val < s + cycleLength d ⟨s, hn⟩
    · rw [List.getD_append _ _ _ _ (by simp; omega)]
      by_cases his : i.val = s
      · have heq : i = ⟨s, hn⟩ := Fin.ext his
        subst heq
        simpa using iff_of_true hpos hfirst
      · have hnot : ¬ IsFirst d i := by
          intro hi'
          have hsame := (h.sameCycle_iff hfirst i).mpr ⟨hi, hlt⟩
          exact his (congrArg Fin.val (hfirst.eq hi' hsame)).symm
        obtain ⟨k, hk⟩ : ∃ k, i.val - s = k + 1 := ⟨i.val - s - 1, by omega⟩
        have hzero : (List.replicate (cycleLength d ⟨s, hn⟩ - 1) 0).getD k 0 = 0 := by
          rw [List.getD_eq_getElem?_getD, List.getElem?_replicate]
          split <;> rfl
        rw [hk, List.getD_cons_succ, hzero]
        exact iff_of_false (lt_irrefl 0) hnot
    · rw [List.getD_append_right _ _ _ _ (by simp; omega)]
      have hsub : i.val - s - (cycleLength d ⟨s, hn⟩ ::
          List.replicate (cycleLength d ⟨s, hn⟩ - 1) 0).length =
          i.val - (s + cycleLength d ⟨s, hn⟩) := by
        simp
        omega
      rw [hsub]
      exact ih (s + cycleLength d ⟨s, hn⟩) (by omega) (fun j hj => h.isFirst_next hfirst hj)
        (by omega)

theorem cyclePart_pos_iff (i : Fin n) : 0 < (cyclePart d).getD i.val 0 ↔ IsFirst d i := by
  have hmark := positive_mark h n 0 (by omega) (fun i hi j _ => Fin.le_def.mpr (by omega)) i
    (Nat.zero_le _)
  rw [cyclePart, permToCyclePerm_eq h, List.flatMap_map]
  simpa only [length_cycleList, Nat.sub_zero] using hmark

theorem marked_iff (i : Fin n) : marked (cyclePart d) i = true ↔ IsFirst d i := by
  rw [marked, decide_eq_true_eq]
  exact cyclePart_pos_iff h i

/-- The walk through a cycle from any of its points: up to the end, then from the start. -/
private theorem cycleList_split {s x : Fin n} (hs : IsFirst d s) (hx : d.SameCycle s x) :
    cycleList d x =
      (List.finRange n).filter (fun i => x ≤ i ∧ i.val < s.val + cycleLength d s) ++
        (List.finRange n).filter fun i => s ≤ i ∧ i < x := by
  obtain ⟨j, hj, rfl⟩ := sameCycle_iff_exists_lt.mp hx
  have hlen : cycleLength d ((d ^ j) s) = (cycleLength d s - j) + j := by
    have hsame := (sameLength_iff _ _).mp (sameLength_zpow (d := d) j s)
    rw [zpow_natCast] at hsame
    omega
  have hval := h.pow_val hs hj
  have hup : ∀ k, k < cycleLength d s - j → ((d ^ k) ((d ^ j) s)).val = s.val + j + k := by
    intro k hk
    rw [← Perm.mul_apply, ← pow_add, h.pow_val hs (by omega)]
    omega
  have hwrap : ∀ k, k < j → ((d ^ (cycleLength d s - j + k)) ((d ^ j) s)).val = s.val + k := by
    intro k hk
    have hsum : cycleLength d s - j + k + j = k + cycleLength d s := by omega
    rw [← Perm.mul_apply, ← pow_add, hsum, pow_add, Perm.mul_apply, pow_cycleLength,
      h.pow_val hs (by omega)]
  rw [cycleList, hlen, List.range_add, List.map_append, List.map_map]
  congr 1
  · refine eq_of_ascending ?_ (ascending_filter _) fun i => ?_
    · refine List.pairwise_map.mpr (List.pairwise_lt_range.imp_of_mem fun ha hb hab => ?_)
      rw [List.mem_range] at ha hb
      rw [Fin.lt_def, hup _ ha, hup _ hb]
      omega
    · simp only [List.mem_map, List.mem_range, List.mem_filter, List.mem_finRange, true_and,
        decide_eq_true_eq, Fin.le_def, hval]
      constructor
      · rintro ⟨k, hk, rfl⟩
        have := hup k hk
        omega
      · rintro ⟨hle, hlt⟩
        refine ⟨i.val - (s.val + j), by omega, Fin.ext ?_⟩
        rw [hup _ (by omega)]
        omega
  · refine eq_of_ascending ?_ (ascending_filter _) fun i => ?_
    · refine List.pairwise_map.mpr (List.pairwise_lt_range.imp_of_mem fun ha hb hab => ?_)
      rw [List.mem_range] at ha hb
      rw [Fin.lt_def, Function.comp_apply, Function.comp_apply, hwrap _ ha, hwrap _ hb]
      omega
    · simp only [List.mem_map, List.mem_range, List.mem_filter, List.mem_finRange, true_and,
        decide_eq_true_eq, Fin.le_def, Fin.lt_def, hval, Function.comp_apply]
      constructor
      · rintro ⟨k, hk, rfl⟩
        have := hwrap k hk
        omega
      · rintro ⟨hle, hlt⟩
        refine ⟨i.val - s.val, by omega, Fin.ext ?_⟩
        rw [hwrap _ (by omega)]
        omega

/-- `cyclePerm_t::cycle` lists the cycle of a point from that point on. -/
theorem cycle_eq (x : Fin n) : cycle (cyclePart d) x = cycleList d x := by
  obtain ⟨s, hs, hsx⟩ := exists_isFirst d x
  have hx := (h.sameCycle_iff hs x).mp hsx
  have hpos := cycleLength_pos d s
  have hnot : ∀ i, s < i → i.val < s.val + cycleLength d s → marked (cyclePart d) i = false := by
    intro i hi hlt
    rw [← Bool.not_eq_true, marked_iff h]
    intro hfirst
    have := hs.eq hfirst ((h.sameCycle_iff hs i).mpr (by omega))
    omega
  have hstart : cycleStart (cyclePart d) x = s.val := by
    refine foldl_last Fin.val (fun i => decide (i ≤ x) && marked (cyclePart d) i) 0 s ?_ ?_
    · simpa [marked_iff h] using ⟨Fin.le_def.mpr hx.1, hs⟩
    · intro i hi
      by_cases hle : i ≤ x
      · simp [hnot i hi (by omega)]
      · simp [hle]
  rw [cycle]
  simp only [hstart]
  by_cases hone : s.val = x.val ∧ (x.val + 1 = n ∨ 0 < (cyclePart d).getD (x.val + 1) 0)
  · obtain ⟨hsx', hend⟩ := hone
    obtain rfl : s = x := Fin.ext hsx'
    have hL : cycleLength d s = 1 := by
      by_contra hne
      have hnext := h.pow_val hs (k := 1) (by omega)
      rcases hend with hend | hend
      · omega
      · have hfirst := (cyclePart_pos_iff h ((d ^ 1) s)).mp (by rwa [hnext])
        have := hs.eq hfirst ((h.sameCycle_iff hs _).mpr (by omega))
        omega
    rw [if_pos ⟨rfl, hend⟩, cycleList, hL]
    rfl
  · rw [if_neg hone, cycleList_split h hs hsx]
    congr 1
    · refine eq_of_ascending ((ascending_filter _).sublist (List.takeWhile_sublist _))
        (ascending_filter _) fun i => ?_
      rw [mem_takeWhile_iff (ascending_filter _)]
      simp only [List.mem_filter, List.mem_finRange, true_and, decide_eq_true_eq]
      refine and_congr_right fun hle => ⟨fun hall => ?_, fun hlt j hj hji => ?_⟩
      · -- a point behind the cycle is only reached through the mark of the next cycle
        by_contra hge
        have hnext : s.val + cycleLength d s < n := by omega
        have hmark := (marked_iff h ⟨s.val + cycleLength d s, hnext⟩).mpr
          (h.isFirst_next hs rfl)
        have hq := hall ⟨s.val + cycleLength d s, hnext⟩ (Fin.le_def.mpr (by simp only; omega))
          (Fin.le_def.mpr (by simp only; omega))
        simp [hmark, hpos.ne'] at hq
      · by_cases hjs : j = s
        · simp [hjs]
        · have hsj : s < j := lt_of_le_of_ne (Fin.le_def.mpr (by omega)) (Ne.symm hjs)
          simp [hnot j hsj (by omega)]
    · refine List.filter_congr fun i _ => ?_
      rw [Bool.decide_and]
      rfl

end Cycles

end YbeSms.Source
