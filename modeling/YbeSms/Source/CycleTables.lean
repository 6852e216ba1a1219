import YbeSms.Source.ClassTables
import YbeSms.Source.PartialPerm

/-!
# The tables of an arbitrary diagonal

Source: ybe-sms/src/useful.cpp:156-172, 219-239, 274-294; minCheck_V2.cpp:23-33.
`cyclePerm_t` with both of its vectors. A read outside a vector is `none`, and so
is running off the end of a function that has to return a value.
-/

namespace YbeSms.Source

open YbeSms.Library Equiv

variable {n : Nat}

/-- `cyclePerm_t`. -/
structure CyclePerm (n : Nat) where
  element : List (Fin n)
  part : List Nat

/-- `cyclePerm_t(perm)`. -/
def cyclePerm (perm : Fin n → Fin n) : CyclePerm n :=
  ⟨(permToCyclePerm perm).flatten, cyclePart perm⟩

namespace CyclePerm

/-- The loop `for(i = el; i >= 0; i--)` of `permOf`: the element at the last mark. -/
def markDown (c : CyclePerm n) : Nat → Option (Fin n)
  | 0 => do
    let m ← c.part[0]?
    if 0 < m then c.element[0]? else none
  | i + 1 => do
    let m ← c.part[i + 1]?
    if 0 < m then c.element[i + 1]? else c.markDown i

/-- `permOf(el)`. -/
def permOf (c : CyclePerm n) (el : Nat) : Option (Fin n) :=
  if n < el + 1 then c.markDown el
  else do
    let m ← c.part[el + 1]?
    if 0 < m then c.markDown el else c.element[el + 1]?

/-- The loop `for(i = el; i >= 0; i++)` of `invPermOf`: the element before the next mark. -/
def markUp (c : CyclePerm n) (el : Nat) : Option (Fin n) := do
  let k ← (c.part.drop el).findIdx? (0 < ·)
  if el + k = 0 then none else c.element[el + k - 1]?

/-- `invPermOf(el)`. -/
def invPermOf (c : CyclePerm n) (el : Nat) : Option (Fin n) :=
  if el = 0 then c.markUp el
  else do
    let m ← c.part[el]?
    if 0 < m then c.markUp el else c.element[el - 1]?

/-- The loop of the `MinCheck_V2` constructor that computes `diagIsId`. -/
def readDiagIsId (c : CyclePerm n) : Option Bool :=
  (List.finRange n).foldlM (fun isId (i : Fin n) => do
    let image ← c.permOf i.val
    pure (isId && image == i)) true

end CyclePerm

/-! ### Every point occurs once -/

/-- Following a cycle takes its points out of a list that holds all of them. -/
theorem followCycle_cycle (d : Perm (Fin n)) {s : Fin n} {all : List (Fin n)} (hnd : all.Nodup)
    (rounds k : Nat) (hk : k ≤ cycleLength d s) (hrounds : cycleLength d s < rounds + k) :
    followCycle d rounds ((d ^ k) s) ((List.range k).map fun i => (d ^ i) s)
      (all.filter fun x => x ∉ (List.range k).map fun i => (d ^ i) s) =
      (cycleList d s, all.filter fun x => x ∉ cycleList d s) := by
  induction rounds generalizing k with
  | zero => omega
  | succ rounds ih =>
    rw [followCycle]
    by_cases hlast : k = cycleLength d s
    · have hpos := cycleLength_pos d s
      have hmem : (d ^ k) s ∈ (List.range k).map fun i => (d ^ i) s := by
        rw [hlast, pow_cycleLength]
        exact List.mem_map.mpr ⟨0, List.mem_range.mpr hpos, rfl⟩
      rw [if_pos hmem, hlast]
      rfl
    · have hmem : (d ^ k) s ∉ (List.range k).map fun i => (d ^ i) s := by
        intro hmem
        obtain ⟨i, hi, hsame⟩ := List.mem_map.mp hmem
        have hik := List.mem_range.mp hi
        have := pow_injOn (by omega) (by omega) hsame
        omega
      have hnext := ih (k + 1) (by omega) (by omega)
      have hrange : ((List.range (k + 1)).map fun i => (d ^ i) s) =
          ((List.range k).map fun i => (d ^ i) s) ++ [(d ^ k) s] := by
        rw [List.range_succ, List.map_append, List.map_singleton]
      rw [if_neg hmem, (hnd.filter _).erase_eq_filter, List.filter_filter]
      rw [hrange, pow_succ', Perm.mul_apply] at hnext
      rw [← hnext]
      congr 1
      refine List.filter_congr fun x _ => ?_
      rw [Bool.eq_iff_iff]
      simp only [List.mem_append, List.mem_singleton, not_or, bne_iff_ne, Bool.and_eq_true,
        decide_eq_true_eq, ne_eq]
      exact and_comm

/-- The cycles found in a union of cycles are its points, each once. -/
theorem cyclesOf_perm (d : Perm (Fin n)) (rounds : Nat) {all : List (Fin n)} (hnd : all.Nodup)
    (hclosed : ∀ x ∈ all, ∀ y, d.SameCycle x y → y ∈ all) (hrounds : all.length ≤ rounds) :
    (cyclesOf d rounds all).flatten.Perm all ∧ [] ∉ cyclesOf d rounds all := by
  induction rounds generalizing all with
  | zero =>
    rw [List.length_eq_zero_iff.mp (Nat.le_zero.mp hrounds)]
    simp [cyclesOf]
  | succ rounds ih =>
    rw [cyclesOf]
    cases hmin : all.min? with
    | none =>
      rw [List.min?_eq_none_iff.mp hmin]
      simp
    | some s =>
      have hs : s ∈ all := List.min?_mem hmin
      have hfollow := followCycle_cycle d (s := s) hnd (n + 1) 0 (Nat.zero_le _)
        (by have := cycleLength_le d s; omega)
      have hstart : (all.filter fun x => x ∉ (List.range 0).map fun i => (d ^ i) s) = all := by
        simp
      rw [hstart, pow_zero, Perm.one_apply, List.range_zero, List.map_nil] at hfollow
      simp only [hfollow]
      have hne : cycleList d s ≠ [] := List.ne_nil_of_mem (mem_cycleList.mpr (Perm.SameCycle.refl d s))
      have hsplit : (cycleList d s ++ all.filter fun x => x ∉ cycleList d s).Perm all := by
        refine (List.perm_ext_iff_of_nodup ?_ hnd).mpr fun x => ?_
        · refine (nodup_cycleList d s).append (hnd.filter _) ?_
          rw [List.disjoint_left]
          intro x hx hx'
          exact absurd hx (by simpa using (List.mem_filter.mp hx').2)
        · simp only [List.mem_append, List.mem_filter, decide_eq_true_eq]
          constructor
          · rintro (hx | hx)
            · exact hclosed s hs x (mem_cycleList.mp hx)
            · exact hx.1
          · exact fun hx => (em (x ∈ cycleList d s)).imp_right fun h => ⟨hx, h⟩
      have hshorter : (all.filter fun x => x ∉ cycleList d s).length ≤ rounds := by
        have hlen := hsplit.length_eq
        rw [List.length_append] at hlen
        have := List.length_pos_iff.mpr hne
        omega
      obtain ⟨hrest, hnonempty⟩ := ih (hnd.filter _) (fun x hx y hxy => by
        obtain ⟨hx, hnot⟩ := List.mem_filter.mp hx
        refine List.mem_filter.mpr ⟨hclosed x hx y hxy, ?_⟩
        simp only [decide_eq_true_eq, mem_cycleList] at hnot ⊢
        exact fun h => hnot (h.trans hxy.symm)) hshorter
      refine ⟨?_, fun hmem => ?_⟩
      · rw [List.flatten_cons]
        exact (hrest.append_left _).trans hsplit
      · rcases List.mem_cons.mp hmem with h | h
        · exact hne h.symm
        · exact hnonempty h

theorem permToCyclePerm_perm (d : Perm (Fin n)) :
    (permToCyclePerm d).flatten.Perm (List.finRange n) ∧ [] ∉ permToCyclePerm d :=
  cyclesOf_perm d n (List.nodup_finRange n) (fun _ _ y _ => List.mem_finRange y) (by simp)

/-- Both vectors of `cyclePerm_t` have one cell for each point. -/
theorem length_cyclePart (d : Perm (Fin n)) : (cyclePart d).length = n := by
  obtain ⟨hperm, hne⟩ := permToCyclePerm_perm d
  have hlen := hperm.length_eq
  rw [List.length_finRange, List.length_flatten] at hlen
  rw [cyclePart, List.length_flatMap]
  refine Eq.trans (congrArg List.sum (List.map_congr_left fun c hc => ?_)) hlen
  have hpos : 0 < c.length := List.length_pos_iff.mpr fun h => hne (h ▸ hc)
  rw [List.length_cons, List.length_replicate]
  omega

end YbeSms.Source
