import YbeSms.Source.Layered
import YbeSms.Source.PartialPerm

/-!
# The initial permutations

Source: ybe-sms/src/useful.cpp:157-203, 279-291, 438-472. Both representations
start with one class for each cycle length: `pperm_plain` lists the classes one
after the other and marks where each starts, `pperm_bit` gives every point the
points of its class.
-/

namespace YbeSms.Source

open YbeSms.Library Equiv

variable {n : Nat}

theorem foldl_set_dom (l : List (Fin n)) (b : BitDomain n) (v : Fin n) :
    (l.foldl BitDomain.set b).dom v = true ↔ v ∈ l ∨ b.dom v = true := by
  induction l generalizing b with
  | nil => simp
  | cons a l ih =>
    rw [List.foldl_cons, ih, BitDomain.set_dom, Function.update_apply, List.mem_cons]
    by_cases h : v = a <;> simp [h]

theorem foldl_set_exact (l : List (Fin n)) {b : BitDomain n} (hb : b.Exact) :
    (l.foldl BitDomain.set b).Exact := by
  induction l generalizing b with
  | nil => exact hb
  | cons a l ih => exact ih (hb.set a)

section Classes

variable {d : Perm (Fin n)} (h : Layered d)

include h

/-- What `cycleToParts` and `pperm_bit` collect: one exact domain for each cycle length. -/
structure IsClass (d : Perm (Fin n)) (b : BitDomain n) : Prop where
  exact : b.Exact
  nonempty : ∃ v, b.dom v = true
  members : ∀ v w, b.dom v = true → (b.dom w = true ↔ SameLength d v w)

private theorem mem_cycles_length (len : Nat) (v : Fin n) :
    v ∈ ((permToCyclePerm d).filter fun c => c.length == len + 1).flatten ↔
      cycleLength d v = len + 1 := by
  rw [permToCyclePerm_eq h, List.mem_flatten]
  simp only [List.mem_filter, List.mem_map, mem_firstsFrom, beq_iff_eq]
  constructor
  · rintro ⟨c, ⟨⟨s, -, rfl⟩, hlen⟩, hv⟩
    obtain ⟨k, rfl⟩ := mem_cycleList.mp hv
    rw [← (sameLength_iff _ _).mp (sameLength_zpow k s), ← hlen, length_cycleList]
  · intro hlen
    obtain ⟨s, hs, k, rfl⟩ := exists_isFirst d v
    refine ⟨cycleList d s, ⟨⟨s, ⟨Nat.zero_le _, hs⟩, rfl⟩, ?_⟩, mem_cycleList.mpr ⟨k, rfl⟩⟩
    rw [length_cycleList, (sameLength_iff _ _).mp (sameLength_zpow k s), hlen]

omit h in
theorem cycleLength_le (d : Perm (Fin n)) (x : Fin n) : cycleLength d x ≤ n := by
  have hle := (nodup_cycleList d x).length_le_card
  rwa [length_cycleList, Fintype.card_fin] at hle

theorem isClass_of_mem {b : BitDomain n} (hb : b ∈ cycleClasses (permToCyclePerm d)) :
    IsClass d b := by
  obtain ⟨hmem, hne⟩ := List.mem_filter.mp hb
  obtain ⟨len, -, rfl⟩ := List.mem_map.mp hmem
  obtain ⟨v, hv⟩ := List.exists_mem_of_ne_nil _ (of_decide_eq_true hne)
  have hdom : ∀ w, (((permToCyclePerm d).filter fun c => c.length == len + 1).flatten.foldl
      BitDomain.set (BitDomain.ofInit false)).dom w = true ↔ cycleLength d w = len + 1 := by
    intro w
    rw [foldl_set_dom, mem_cycles_length h]
    simp [BitDomain.ofInit]
  refine ⟨foldl_set_exact _ (BitDomain.Exact.ofInit v.pos false),
    ⟨v, (BitDomain.mem_options _ v).mp hv⟩, fun u w hu => ?_⟩
  rw [hdom, sameLength_iff, (hdom u).mp hu, eq_comm]

theorem exists_class (v : Fin n) : ∃ b ∈ cycleClasses (permToCyclePerm d), b.dom v = true := by
  have hpos := cycleLength_pos d v
  have hle := cycleLength_le d v
  obtain ⟨len, hlen⟩ : ∃ len, cycleLength d v = len + 1 := ⟨cycleLength d v - 1, by omega⟩
  have hdom : (((permToCyclePerm d).filter fun c => c.length == len + 1).flatten.foldl
      BitDomain.set (BitDomain.ofInit false)).dom v = true := by
    rw [foldl_set_dom, mem_cycles_length h]
    exact Or.inl hlen
  refine ⟨_, List.mem_filter.mpr ⟨List.mem_map.mpr ⟨len, List.mem_range.mpr (by omega), rfl⟩,
    decide_eq_true ?_⟩, hdom⟩
  exact List.ne_nil_of_mem ((BitDomain.mem_options _ v).mpr hdom)

theorem classes_disjoint : (cycleClasses (permToCyclePerm d)).Pairwise
    fun a b => ∀ v, a.dom v = true → b.dom v = true → False := by
  refine List.Pairwise.filter _ (List.pairwise_map.mpr ?_)
  refine List.pairwise_lt_range.imp fun {a b} hab v hva hvb => ?_
  rw [foldl_set_dom, mem_cycles_length h] at hva hvb
  simp only [BitDomain.ofInit, Bool.false_eq_true, if_false, or_false] at hva hvb
  omega

/-! ### `pperm_plain` -/

/-- The classes in the order of their least points. -/
private def sortedClasses (d : Perm (Fin n)) : List (BitDomain n) :=
  (cycleClasses (permToCyclePerm d)).insertionSort fun a b => a.firstel ≤ b.firstel

omit h in
private theorem mem_sortedClasses {b : BitDomain n} :
    b ∈ sortedClasses d ↔ b ∈ cycleClasses (permToCyclePerm d) :=
  (List.perm_insertionSort _ _).mem_iff

/-- A class that starts later lies behind the class. -/
private theorem class_before {a b : BitDomain n} (ha : IsClass d a) (hb : IsClass d b)
    (hdis : ∀ v, a.dom v = true → b.dom v = true → False) (hle : a.firstel ≤ b.firstel)
    {v w : Fin n} (hv : a.dom v = true) (hw : b.dom w = true) : v < w := by
  obtain ⟨u, -, hu, hudom, -⟩ := exists_leastBit a.dom v hv
  obtain ⟨t, htw, ht, -, -⟩ := exists_leastBit b.dom w hw
  rw [ha.exact.firstel, hb.exact.firstel, hu, ht] at hle
  by_contra hwv
  have huw : u ≤ w := Fin.le_def.mpr (by have := Fin.le_def.mp htw; omega)
  have hsame := h.adjacent u w v huw (not_lt.mp hwv) ((ha.members u v hudom).mp hv)
  exact hdis w ((ha.members u w hudom).mpr hsame) hw

private theorem sortedClasses_pairwise : (sortedClasses d).Pairwise
    fun a b => ∀ v w, a.dom v = true → b.dom w = true → v < w := by
  have hsorted : (sortedClasses d).Pairwise fun a b => a.firstel ≤ b.firstel :=
    List.pairwise_insertionSort _ _
  have hdis : (sortedClasses d).Pairwise
      fun a b => ∀ v, a.dom v = true → b.dom v = true → False :=
    (List.perm_insertionSort _ _).symm.pairwise (classes_disjoint h)
      fun {a b} hab v hb ha => hab v ha hb
  refine (hsorted.and hdis).imp_of_mem fun {a b} ha hb hab v w hv hw => ?_
  exact class_before h (isClass_of_mem h (mem_sortedClasses.mp ha))
    (isClass_of_mem h (mem_sortedClasses.mp hb)) hab.2 hab.1 hv hw

theorem cycleToParts_elements : (cycleToParts (permToCyclePerm d)).1 = List.finRange n := by
  refine eq_of_ascending ?_ (List.pairwise_lt_finRange n) fun v => ?_
  · refine List.pairwise_flatMap.mpr ⟨fun b _ => b.options_pairwise, ?_⟩
    refine (sortedClasses_pairwise h).imp fun {a b} hab v hv w hw => ?_
    exact hab v w ((BitDomain.mem_options _ _).mp hv) ((BitDomain.mem_options _ _).mp hw)
  · simp only [List.mem_finRange, iff_true]
    obtain ⟨b, hb, hv⟩ := exists_class h v
    exact List.mem_flatMap.mpr ⟨b, mem_sortedClasses.mpr hb, (BitDomain.mem_options _ _).mpr hv⟩

omit h in
/-- The marks over consecutive lists: a mark stands where a list starts. -/
private theorem getD_marks (ls : List (List (Fin n))) (hnodup : ls.flatten.Nodup) (k : Nat)
    (hk : k < ls.flatten.length) :
    (ls.flatMap classMarks).getD k false = true ↔
      ∃ l ∈ ls, l.head? = some ls.flatten[k] := by
  induction ls generalizing k with
  | nil => simp at hk
  | cons l ls ih =>
    rw [List.flatten_cons, List.nodup_append] at hnodup
    obtain ⟨hl, hls, hdis⟩ := hnodup
    cases l with
    | nil => simpa [classMarks] using ih hls k (by simpa using hk)
    | cons a l =>
      simp only [List.flatMap_cons, List.flatten_cons, List.cons_append, classMarks]
      cases k with
      | zero => simp
      | succ k =>
        rw [List.getD_cons_succ]
        by_cases hlt : k < l.length
        · rw [List.getD_append _ _ _ _ (by simpa using hlt)]
          simp only [List.getElem_cons_succ, List.getElem_append_left hlt]
          refine iff_of_false ?_ ?_
          · simp [List.getD_eq_getElem?_getD, hlt]
          · rintro ⟨l', hl', hhead⟩
            rcases List.mem_cons.mp hl' with rfl | hl'
            · have hsame : a = l[k] := by simpa using hhead
              exact (List.nodup_cons.mp hl).1 (hsame ▸ List.getElem_mem hlt)
            · have hmem : l[k] ∈ ls.flatten :=
                List.mem_flatten.mpr ⟨l', hl', List.mem_of_mem_head? hhead⟩
              exact hdis l[k] (List.mem_cons_of_mem a (List.getElem_mem hlt)) _ hmem rfl
        · have hlen : k - l.length < ls.flatten.length := by
            simp only [List.flatten_cons, List.cons_append, List.length_cons,
              List.length_append] at hk
            omega
          rw [List.getD_append_right _ _ _ _ (by simpa using hlt)]
          simp only [List.getElem_cons_succ, List.getElem_append_right (not_lt.mp hlt),
            List.length_map]
          rw [ih hls _ hlen]
          constructor
          · rintro ⟨l', hl', hhead⟩
            exact ⟨l', List.mem_cons_of_mem _ hl', hhead⟩
          · rintro ⟨l', hl', hhead⟩
            rcases List.mem_cons.mp hl' with rfl | hl'
            · have hsame : a = ls.flatten[k - l.length] := by simpa using hhead
              exact absurd rfl (hdis a (by simp) a (hsame ▸ List.getElem_mem hlen))
            · exact ⟨l', hl', hhead⟩

omit h in
private theorem head_options {b : BitDomain n} (i : Fin n) :
    b.options.head? = some i ↔ b.dom i = true ∧ ∀ w, w < i → b.dom w = false := by
  rw [BitDomain.options, List.head?_filter, find_finRange_eq_some]

/-- A mark of `cycleToParts` stands at the least point of each class. -/
theorem cycleToParts_marks (i : Fin n) :
    (cycleToParts (permToCyclePerm d)).2.getD i.val false = true ↔
      ∀ j, SameLength d i j → i ≤ j := by
  have hflat : ((sortedClasses d).map BitDomain.options).flatten = List.finRange n := by
    rw [← List.flatMap_def]
    exact cycleToParts_elements h
  have hi : i.val < ((sortedClasses d).map BitDomain.options).flatten.length := by
    simp [hflat]
  have hmarks := getD_marks ((sortedClasses d).map BitDomain.options)
    (hflat ▸ List.nodup_finRange n) i.val hi
  have hget : ((sortedClasses d).map BitDomain.options).flatten[i.val] = i := by
    simp [hflat]
  rw [hget, List.flatMap_map] at hmarks
  refine hmarks.trans ?_
  constructor
  · rintro ⟨l, hl, hhead⟩ j hj
    obtain ⟨b, hb, rfl⟩ := List.mem_map.mp hl
    obtain ⟨hdom, hmin⟩ := (head_options i).mp hhead
    have hbj := ((isClass_of_mem h (mem_sortedClasses.mp hb)).members i j hdom).mpr hj
    by_contra hlt
    simp [hmin j (not_le.mp hlt)] at hbj
  · intro hleast
    obtain ⟨b, hb, hdom⟩ := exists_class h i
    refine ⟨b.options, List.mem_map.mpr ⟨b, mem_sortedClasses.mpr hb, rfl⟩,
      (head_options i).mpr ⟨hdom, fun w hw => ?_⟩⟩
    by_contra hbw
    have hsame := ((isClass_of_mem h hb).members i w hdom).mp (by simpa using hbw)
    exact absurd (hleast w hsame) (not_le_of_gt hw)

end Classes

end YbeSms.Source
