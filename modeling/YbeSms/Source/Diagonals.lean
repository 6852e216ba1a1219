import YbeSms.Source.Layered
import YbeSms.Library.Partitions
import Mathlib.GroupTheory.Perm.Cycle.Concrete
import Mathlib.GroupTheory.Perm.Cycle.Type

/-!
# The listed diagonals

Source: ybe-sms/src/useful.cpp:89-154; main.cpp:300-311. `part` is stated on the
prefix it has fixed so far; `partShared` is the function as written, on the one
vector all levels share, and fails where it would write outside that vector.
-/

namespace YbeSms.Source

open YbeSms.Library Equiv

variable {n : Nat}

/-! ### `part` -/

/-- `part(m, v, level, parts)` with the shared vector and the output as state. -/
def partShared : Nat → Nat → List Nat → Nat → List (List Nat) → Option (List Nat × List (List Nat))
  | 0, _, _, _, _ => none
  | rounds + 1, m, v, level, parts =>
    if m < 1 then some (v, parts)
    else if level < v.length then
      let v := v.set level m
      let p := (v.take (level + 1)).filter (· ≠ 1)
      let parts := if p ≠ [] then parts ++ [p] else parts
      let first := if level = 0 then 1 else v.getD (level - 1) 0
      (List.range' first (m / 2 + 1 - first)).foldlM
        (fun st i => partShared rounds (m - i) (st.1.set level i) (level + 1) st.2) (v, parts)
    else none

/-- The smallest part that may follow the prefix. -/
def leastNext (w : List Nat) : Nat := w.getLast?.getD 1

theorem part_succ {rounds m : Nat} (hm : 1 ≤ m) (w : List Nat) :
    part (rounds + 1) m w =
      (if (w ++ [m]).filter (· ≠ 1) ≠ [] then [(w ++ [m]).filter (· ≠ 1)] else []) ++
        (List.range' (leastNext w) (m / 2 + 1 - leastNext w)).flatMap fun i =>
          part rounds (m - i) (w ++ [i]) := by
  rw [part, if_neg (by omega)]
  rfl

/-- `part` lists the continuations of the prefix without their ones. -/
theorem part_eq {rounds m : Nat} {w : List Nat} (hm : 1 ≤ m) :
    part rounds m w =
      ((ascendingSums rounds m (leastNext w)).map fun c => (w ++ c).filter (· ≠ 1)).filter
        (· ≠ []) := by
  induction rounds generalizing m w with
  | zero => rfl
  | succ rounds ih =>
    rw [part_succ hm, ascendingSums, List.map_cons, List.filter_cons, List.map_flatMap,
      List.filter_flatMap]
    have htail : ((List.range' (leastNext w) (m / 2 + 1 - leastNext w)).flatMap fun i =>
        part rounds (m - i) (w ++ [i])) =
        (List.range' (leastNext w) (m / 2 + 1 - leastNext w)).flatMap fun i =>
          (((ascendingSums rounds (m - i) i).map (i :: ·)).map
            fun c => (w ++ c).filter (· ≠ 1)).filter (· ≠ []) := by
      refine List.flatMap_congr fun i hi => ?_
      rw [List.mem_range'_1] at hi
      rw [ih (by omega)]
      simp [leastNext, Function.comp_def]
    rw [htail]
    generalize (w ++ [m]).filter (· ≠ 1) = p
    by_cases hp : p = []
    · simp only [hp, ne_eq, not_true, if_false, decide_false, Bool.false_eq_true, List.nil_append]
    · simp only [hp, ne_eq, not_false_iff, if_true, decide_true, List.singleton_append]

/-- The recursion as written stays inside the vector and lists the same partitions. -/
theorem partShared_spec {rounds m level : Nat} {v : List Nat} (parts : List (List Nat))
    (hm : 1 ≤ m) (hr : m ≤ rounds) (hfit : level + m ≤ v.length)
    (hpos : ∀ x ∈ v.take level, 1 ≤ x) :
    ∃ v', partShared rounds m v level parts = some (v', parts ++ part rounds m (v.take level)) ∧
      v'.length = v.length ∧ v'.take level = v.take level := by
  induction rounds generalizing m level v parts with
  | zero => omega
  | succ rounds ih =>
    have hlevel : level < v.length := by omega
    set w := v.take level with hw
    have htake : (v.set level m).take (level + 1) = w ++ [m] := by
      rw [hw, List.take_add_one, List.take_set_of_le (le_refl level)]
      simp [hlevel]
    have hfirst : (if level = 0 then 1 else (v.set level m).getD (level - 1) 0) = leastNext w := by
      by_cases h0 : level = 0
      · simp [leastNext, hw, h0]
      · have hlast : w.getLast? = some v[level - 1] := by
          rw [hw, List.getLast?_eq_getElem?, List.length_take, Nat.min_eq_left hlevel.le,
            List.getElem?_take_of_lt (by omega), List.getElem?_eq_getElem]
        rw [if_neg h0, leastNext, hlast, List.getD_eq_getElem?_getD,
          List.getElem?_set_ne (by omega), List.getElem?_eq_getElem (by omega)]
        rfl
    have hleast : 1 ≤ leastNext w := by
      unfold leastNext
      cases hlast : w.getLast? with
      | none => simp
      | some x => exact hpos x (List.mem_of_getLast? hlast)
    -- the loop keeps the length of the vector and the entries below the level
    have hloop : ∀ (l : List Nat) (u : List Nat) (out : List (List Nat)),
        (∀ i ∈ l, leastNext w ≤ i ∧ i ≤ m / 2) → u.length = v.length → u.take level = w →
        ∃ u', l.foldlM (fun (st : List Nat × List (List Nat)) i =>
            partShared rounds (m - i) (st.1.set level i) (level + 1) st.2) (u, out) =
            some (u', out ++ l.flatMap fun i => part rounds (m - i) (w ++ [i])) ∧
          u'.length = v.length ∧ u'.take level = w := by
      intro l
      induction l with
      | nil => exact fun u out _ hlen hu => ⟨u, by simp, hlen, hu⟩
      | cons i rest ihl =>
        intro u out hl hlen hu
        have hi := hl i (by simp)
        have hstart : (u.set level i).take (level + 1) = w ++ [i] := by
          rw [← hu, List.take_add_one, List.take_set_of_le (le_refl level)]
          simp [hlen, hlevel]
        obtain ⟨u1, hrun, hlen1, htake1⟩ := @ih (m - i) (level + 1) (u.set level i) out
          (by omega) (by omega) (by simp [hlen]; omega) (by
            rw [hstart]
            intro x hx
            rcases List.mem_append.mp hx with hx | hx
            · exact hpos x hx
            · have := List.mem_singleton.mp hx
              omega)
        rw [hstart] at hrun htake1
        have hu1 : u1.take level = w := by
          have hwlen : w.length = level := by rw [hw, List.length_take]; omega
          have hshort : (u1.take (level + 1)).take level = (w ++ [i]).take level := by rw [htake1]
          rwa [List.take_take, Nat.min_eq_left (Nat.le_succ level), List.take_left' hwlen] at hshort
        obtain ⟨u2, hrest, hlen2, htake2⟩ := ihl u1 (out ++ part rounds (m - i) (w ++ [i]))
          (fun j hj => hl j (by simp [hj])) (by simpa [hlen] using hlen1) hu1
        refine ⟨u2, ?_, hlen2, htake2⟩
        rw [List.foldlM_cons, hrun, List.flatMap_cons, ← List.append_assoc]
        exact hrest
    obtain ⟨u', hrun, hlen', htake'⟩ := hloop
      (List.range' (leastNext w) (m / 2 + 1 - leastNext w)) (v.set level m)
      (if (w ++ [m]).filter (· ≠ 1) ≠ [] then parts ++ [(w ++ [m]).filter (· ≠ 1)] else parts)
      (fun i hi => by rw [List.mem_range'_1] at hi; omega) (by simp)
      (by rw [List.take_set_of_le (le_refl level)])
    refine ⟨u', ?_, hlen', htake'⟩
    rw [partShared, if_neg (by omega), if_pos hlevel]
    simp only [htake, hfirst]
    rw [hrun, part_succ hm]
    split <;> simp

/-! ### `makeDiagonals` -/

/-- The permutation `makeDiagonals` writes for one list of cycle lengths. -/
def diagonal (n : Nat) (sizes : List Nat) : Fin n → Fin n := (blocks n 0 sizes).foldl closeCycle id

theorem diagonals_eq (n : Nat) : diagonals n = ([] :: part n n []).map (diagonal n) := rfl

theorem block_eq_map {a s : Nat} (h : a + s ≤ n) :
    block n a s = (List.finRange s).map fun k => ⟨k.val + a, by omega⟩ := by
  unfold block
  rw [← List.map_coe_finRange_eq_range, List.filterMap_map, ← List.filterMap_eq_map]
  refine List.filterMap_congr fun k _ => ?_
  simp only [Function.comp_apply, dif_pos (show k.val + a < n by omega)]

theorem length_block {a s : Nat} (h : a + s ≤ n) : (block n a s).length = s := by
  rw [block_eq_map h, List.length_map, List.length_finRange]

theorem nodup_block {a s : Nat} (h : a + s ≤ n) : (block n a s).Nodup := by
  rw [block_eq_map h]
  refine (List.nodup_finRange s).map fun j k hjk => ?_
  have := congrArg Fin.val hjk
  simp only at this
  omega

theorem mem_block {a s : Nat} (h : a + s ≤ n) (x : Fin n) :
    x ∈ block n a s ↔ a ≤ x.val ∧ x.val < a + s := by
  rw [block_eq_map h, List.mem_map]
  constructor
  · rintro ⟨k, -, rfl⟩
    simp only
    omega
  · rintro ⟨hle, hlt⟩
    exact ⟨⟨x.val - a, by omega⟩, List.mem_finRange _, Fin.ext (by simp only; omega)⟩

/-- Writing a cycle is applying its cyclic permutation at its points. -/
theorem closeCycle_apply (f : Fin n → Fin n) {l : List (Fin n)} (hl : l.Nodup) (x : Fin n) :
    closeCycle f l x = if x ∈ l then l.formPerm x else f x := by
  have hzip : ∀ (ks vs : List (Fin n)) (g : Fin n → Fin n), ks.Nodup → ks.length = vs.length →
      ((ks.zip vs).foldl (fun g q => Function.update g q.1 q.2) g x) =
        if h : x ∈ ks then vs.getD (ks.idxOf x) (g x) else g x := by
    intro ks
    induction ks with
    | nil => intro vs g _ _; simp
    | cons k ks ih =>
      intro vs g hnd hlen
      cases vs with
      | nil => simp at hlen
      | cons v vs =>
        obtain ⟨hk, hks⟩ := List.nodup_cons.mp hnd
        rw [List.zip_cons_cons, List.foldl_cons, ih vs _ hks (by simpa using hlen)]
        by_cases hxk : x = k
        · subst hxk
          simp [hk]
        · have hkx : k ≠ x := fun h => hxk h.symm
          simp [hxk, hkx, List.idxOf_cons_ne]
  cases l with
  | nil => simp [closeCycle]
  | cons p ps =>
    rw [closeCycle, hzip (p :: ps) (ps ++ [p]) f hl (by simp)]
    by_cases hx : x ∈ p :: ps
    · rw [dif_pos hx, if_pos hx]
      obtain ⟨i, hi, rfl⟩ := List.getElem_of_mem hx
      rw [List.formPerm_apply_getElem _ hl, hl.idxOf_getElem i hi]
      simp only [List.length_cons] at hi ⊢
      by_cases hlast : i = ps.length
      · subst hlast
        simp
      · have hmod : (i + 1) % (ps.length + 1) = i + 1 := Nat.mod_eq_of_lt (by omega)
        simp only [hmod, List.getElem_cons_succ]
        rw [List.getD_eq_getElem _ _ (by simp; omega), List.getElem_append_left (by omega)]
    · rw [dif_neg hx, if_neg hx]

/-- On the interval of length `s` from `a` the map goes up by one, and back at the end. -/
def OnBlock (f : Fin n → Fin n) (a s : Nat) : Prop :=
  ∀ x : Fin n, a ≤ x.val → x.val < a + s →
    (f x).val = if x.val + 1 < a + s then x.val + 1 else a

theorem closeCycle_onBlock (f : Fin n → Fin n) {a s : Nat} (h : a + s ≤ n) :
    OnBlock (closeCycle f (block n a s)) a s := by
  intro x hle hlt
  have hmem : x ∈ block n a s := (mem_block h x).mpr ⟨hle, hlt⟩
  rw [closeCycle_apply f (nodup_block h), if_pos hmem]
  have hi : x.val - a < (block n a s).length := by rw [length_block h]; omega
  have hval : ∀ k (hk : k < (block n a s).length), ((block n a s)[k]).val = k + a := by
    intro k hk
    simp only [block_eq_map h, List.getElem_map, List.getElem_finRange, Fin.val_cast]
  have hx : (block n a s)[x.val - a] = x := Fin.ext (by rw [hval]; omega)
  have hform := List.formPerm_apply_getElem (block n a s) (nodup_block h) (x.val - a) hi
  rw [hx] at hform
  rw [hform, hval]
  simp only [length_block h]
  by_cases hend : x.val + 1 < a + s
  · rw [if_pos hend, Nat.mod_eq_of_lt (by omega)]
    omega
  · rw [if_neg hend, show x.val - a + 1 = s by omega, Nat.mod_self]
    omega

/-- Intervals of the given lengths follow each other from `a` on. -/
def Runs (f : Fin n → Fin n) : Nat → List Nat → Prop
  | _, [] => True
  | a, s :: rest => OnBlock f a s ∧ Runs f (a + s) rest

theorem runs_append (f : Fin n → Fin n) (a : Nat) (l r : List Nat) :
    Runs f a (l ++ r) ↔ Runs f a l ∧ Runs f (a + l.sum) r := by
  induction l generalizing a with
  | nil => simp [Runs]
  | cons s rest ih => simp [Runs, ih, and_assoc, Nat.add_assoc]

theorem Runs.congr {f g : Fin n → Fin n} {a : Nat} {sizes : List Nat} (h : Runs f a sizes)
    (hfg : ∀ x : Fin n, x.val < a + sizes.sum → f x = g x) : Runs g a sizes := by
  induction sizes generalizing a with
  | nil => trivial
  | cons s rest ih =>
    simp only [List.sum_cons] at hfg
    refine ⟨fun x hle hlt => ?_, ih h.2 fun x hx => hfg x (by omega)⟩
    rw [← hfg x (by omega)]
    exact h.1 x hle hlt

theorem blocks_append (n a : Nat) (l r : List Nat) :
    blocks n a (l ++ r) = blocks n a l ++ blocks n (a + l.sum) r := by
  induction l generalizing a with
  | nil => simp [blocks]
  | cons s rest ih => simp [blocks, ih, Nat.add_assoc]

/-- The cycle lengths of a listed diagonal without the fixed points. -/
structure Sizes (n : Nat) (sizes : List Nat) : Prop where
  sorted : sizes.Pairwise (· ≤ ·)
  two_le : ∀ s ∈ sizes, 2 ≤ s
  sum_le : sizes.sum ≤ n

/-- The permutation of a list of cycle lengths: its values and its cycle type. -/
theorem exists_diagonal {sizes : List Nat} (htwo : ∀ s ∈ sizes, 2 ≤ s) (hsum : sizes.sum ≤ n) :
    ∃ d : Perm (Fin n), ⇑d = diagonal n sizes ∧ d.cycleType = (sizes : Multiset Nat) ∧
      Runs d 0 sizes ∧ ∀ x : Fin n, sizes.sum ≤ x.val → d x = x := by
  induction sizes using List.reverseRecOn with
  | nil => exact ⟨1, rfl, by simp, trivial, fun _ _ => rfl⟩
  | append_singleton sizes s ih =>
    simp only [List.sum_append, List.sum_singleton] at hsum
    have hs : 2 ≤ s := htwo s (by simp)
    obtain ⟨d, hd, htype, hruns, hfix⟩ := ih (fun t ht => htwo t (by simp [ht])) (by omega)
    have hdiag : diagonal n (sizes ++ [s]) = closeCycle d (block n sizes.sum s) := by
      unfold diagonal at hd ⊢
      rw [blocks_append, List.foldl_append, ← hd, Nat.zero_add]
      rfl
    have hlen : 2 ≤ (block n sizes.sum s).length := by rw [length_block hsum]; exact hs
    have hnd := nodup_block hsum
    have hcycle := List.isCycle_formPerm hnd hlen
    have hsupport : (block n sizes.sum s).formPerm.support.card = s := by
      rw [List.support_formPerm_of_nodup _ hnd fun x hx => by rw [hx] at hlen; simp at hlen,
        List.toFinset_card_of_nodup hnd, length_block hsum]
    have hdis : d.Disjoint (block n sizes.sum s).formPerm := by
      intro x
      by_cases hx : x ∈ block n sizes.sum s
      · exact Or.inl (hfix x ((mem_block hsum x).mp hx).1)
      · exact Or.inr (List.formPerm_apply_of_notMem hx)
    have hmul : ⇑(d * (block n sizes.sum s).formPerm) = closeCycle d (block n sizes.sum s) := by
      funext x
      rw [closeCycle_apply _ hnd, Perm.mul_apply]
      by_cases hx : x ∈ block n sizes.sum s
      · rw [if_pos hx]
        exact hfix _ ((mem_block hsum _).mp (List.formPerm_apply_mem_of_mem hx)).1
      · rw [if_neg hx, List.formPerm_apply_of_notMem hx]
    refine ⟨d * (block n sizes.sum s).formPerm, hmul.trans hdiag.symm, ?_, ?_, fun x hx => ?_⟩
    · rw [hdis.cycleType_mul, htype, hcycle.cycleType, hsupport]
      rfl
    · refine (runs_append _ _ _ _).mpr ⟨hruns.congr fun x hx => ?_, ?_, trivial⟩
      · rw [Nat.zero_add] at hx
        rw [hmul, closeCycle_apply _ hnd, if_neg]
        intro hmem
        have := ((mem_block hsum x).mp hmem).1
        omega
      · rw [hmul, Nat.zero_add]
        exact closeCycle_onBlock d hsum
    · simp only [List.sum_append, List.sum_singleton] at hx
      rw [hmul, closeCycle_apply _ hnd, if_neg, hfix x (by omega)]
      intro hmem
      have := ((mem_block hsum x).mp hmem).2
      omega

/-! ### The shape of a listed diagonal -/

/-- On its interval the map is a cycle of that length. -/
theorem OnBlock.pow_val {d : Perm (Fin n)} {a s : Nat} (h : OnBlock d a s) {x : Fin n}
    (hx : x.val = a) {k : Nat} (hk : k < s) : ((d ^ k) x).val = a + k := by
  induction k with
  | zero => exact hx
  | succ k ih =>
    have hprev := ih (by omega)
    rw [pow_succ', Perm.mul_apply, h _ (by omega) (by omega), if_pos (by omega), hprev]
    omega

theorem OnBlock.cycleLength_start {d : Perm (Fin n)} {a s : Nat} (h : OnBlock d a s) (hs : 0 < s)
    {x : Fin n} (hx : x.val = a) : cycleLength d x = s := by
  have hback : (d ^ s) x = x := by
    have hlast := h.pow_val hx (k := s - 1) (by omega)
    rw [show s = s - 1 + 1 by omega, pow_succ', Perm.mul_apply]
    refine Fin.ext ?_
    rw [h _ (by omega) (by omega), if_neg (by omega), hx]
  have hle : cycleLength d x ≤ s := by
    have hdvd := (zpow_apply_eq_self_iff (d := d) (s : ℤ) x).mp (by rw [zpow_natCast]; exact hback)
    exact Nat.le_of_dvd hs (Int.natCast_dvd_natCast.mp hdvd)
  by_contra hne
  have hval := h.pow_val hx (k := cycleLength d x) (by omega)
  rw [pow_cycleLength] at hval
  have := cycleLength_pos d x
  omega

/-- The points of the interval are the cycle of its first point. -/
theorem OnBlock.sameCycle {d : Perm (Fin n)} {a s : Nat} (h : OnBlock d a s) {x : Fin n}
    (hx : x.val = a) {y : Fin n} (hle : a ≤ y.val) (hlt : y.val < a + s) : d.SameCycle x y := by
  refine ⟨((y.val - a : Nat) : ℤ), ?_⟩
  rw [zpow_natCast]
  refine Fin.ext ?_
  rw [h.pow_val hx (by omega)]
  omega

theorem OnBlock.of_sameCycle {d : Perm (Fin n)} {a s : Nat} (h : OnBlock d a s) {y z : Fin n}
    (hle : a ≤ y.val) (hlt : y.val < a + s) (hyz : d.SameCycle y z) :
    a ≤ z.val ∧ z.val < a + s := by
  have hx : (⟨a, by omega⟩ : Fin n).val = a := rfl
  obtain ⟨k, hk, rfl⟩ := sameCycle_iff_exists_lt.mp ((h.sameCycle hx hle hlt).trans hyz)
  rw [h.cycleLength_start (by omega) hx] at hk
  rw [h.pow_val hx hk]
  omega

theorem OnBlock.cycleLength {d : Perm (Fin n)} {a s : Nat} (h : OnBlock d a s) {y : Fin n}
    (hle : a ≤ y.val) (hlt : y.val < a + s) : cycleLength d y = s := by
  have hx : (⟨a, by omega⟩ : Fin n).val = a := rfl
  obtain ⟨k, hk⟩ := h.sameCycle hx hle hlt
  rw [← hk, ← (sameLength_iff _ _).mp (sameLength_zpow k _)]
  exact h.cycleLength_start (by omega) hx

/-- The length of the interval a point lies in, 1 behind the last one. -/
def sizeAt : Nat → List Nat → Nat → Nat
  | _, [], _ => 1
  | a, s :: rest, x => if x < a + s then s else sizeAt (a + s) rest x

theorem sizeAt_mem {a x : Nat} {sizes : List Nat} (h : x < a + sizes.sum) :
    a ≤ x → sizeAt a sizes x ∈ sizes := by
  induction sizes generalizing a with
  | nil => intro ha; simp at h; omega
  | cons s rest ih =>
    intro ha
    simp only [List.sum_cons] at h
    rw [sizeAt]
    split
    · simp
    · exact List.mem_cons_of_mem _ (ih (by omega) (by omega))

theorem sizeAt_behind {a x : Nat} {sizes : List Nat} (h : a + sizes.sum ≤ x) :
    sizeAt a sizes x = 1 := by
  induction sizes generalizing a with
  | nil => rfl
  | cons s rest ih =>
    simp only [List.sum_cons] at h
    rw [sizeAt, if_neg (by omega), ih (by omega)]

theorem sizeAt_mono {a x y : Nat} {sizes : List Nat} (hsorted : sizes.Pairwise (· ≤ ·))
    (ha : a ≤ x) (hxy : x ≤ y) (hy : y < a + sizes.sum) :
    sizeAt a sizes x ≤ sizeAt a sizes y := by
  induction sizes generalizing a with
  | nil => simp at hy; omega
  | cons s rest ih =>
    obtain ⟨hle, hrest⟩ := List.pairwise_cons.mp hsorted
    simp only [List.sum_cons] at hy
    simp only [sizeAt]
    by_cases hx : x < a + s
    · rw [if_pos hx]
      split
      · exact le_refl s
      · exact hle _ (sizeAt_mem (by omega) (by omega))
    · rw [if_neg hx, if_neg (by omega)]
      exact ih hrest (by omega) (by omega)

/-- Every point lies on an interval, or behind all of them. -/
theorem Runs.cases {f : Fin n → Fin n} {a : Nat} {sizes : List Nat} (h : Runs f a sizes)
    {x : Fin n} (ha : a ≤ x.val) (hx : x.val < a + sizes.sum) :
    ∃ b, b ≤ x.val ∧ x.val < b + sizeAt a sizes x ∧ OnBlock f b (sizeAt a sizes x) := by
  induction sizes generalizing a with
  | nil => simp at hx; omega
  | cons s rest ih =>
    simp only [List.sum_cons] at hx
    rw [sizeAt]
    split
    · exact ⟨a, ha, by omega, h.1⟩
    · exact ih h.2 (by omega) (by omega)

theorem layered_of_runs {d : Perm (Fin n)} {sizes : List Nat} (hsizes : Sizes n sizes)
    (h : Runs d 0 sizes) (hfix : ∀ x : Fin n, sizes.sum ≤ x.val → d x = x) : Layered d := by
  have hlength : ∀ x, cycleLength d x = sizeAt 0 sizes x := by
    intro x
    by_cases hx : x.val < 0 + sizes.sum
    · obtain ⟨b, hle, hlt, hblock⟩ := h.cases (Nat.zero_le _) hx
      exact hblock.cycleLength hle hlt
    · rw [sizeAt_behind (by omega)]
      have hdvd := (zpow_apply_eq_self_iff (d := d) 1 x).mp (by
        rw [zpow_one]
        exact hfix x (by omega))
      exact Nat.dvd_one.mp (Int.natCast_dvd_natCast.mp hdvd)
  refine ⟨fun i => ?_, fun i j k hij hjk hik => ?_⟩
  · by_cases hi : i.val < 0 + sizes.sum
    · obtain ⟨b, hle, hlt, hblock⟩ := h.cases (Nat.zero_le _) hi
      have hval := hblock i hle hlt
      split at hval
      · exact Or.inl hval
      · right
        intro j hj
        have := hblock.of_sameCycle hle hlt hj
        omega
    · right
      intro j hj
      obtain ⟨k, hk, rfl⟩ := sameCycle_iff_exists_lt.mp hj
      rw [hlength, sizeAt_behind (by omega)] at hk
      obtain rfl : k = 0 := by omega
      rw [pow_zero, Perm.one_apply, hfix i (by omega)]
      exact ⟨le_refl i, le_refl i⟩
  · rw [sameLength_iff, hlength, hlength] at hik ⊢
    by_cases hi : i.val < 0 + sizes.sum
    · have hmem := sizeAt_mem hi (Nat.zero_le _)
      have htwo := hsizes.two_le _ hmem
      have hk : k.val < 0 + sizes.sum := by
        by_contra hk
        rw [sizeAt_behind (x := k.val) (by omega)] at hik
        omega
      have hlo := sizeAt_mono hsizes.sorted (Nat.zero_le _) (Fin.le_def.mp hij) (by omega)
      have hhi := sizeAt_mono hsizes.sorted (Nat.zero_le _) (Fin.le_def.mp hjk) hk
      omega
    · rw [sizeAt_behind (by omega), sizeAt_behind (by omega)]

/-! ### The list -/

theorem mem_part (hn : 1 ≤ n) (sizes : List Nat) :
    sizes ∈ part n n [] ↔ sizes ≠ [] ∧ Sizes n sizes := by
  rw [part_eq hn, List.mem_filter, List.mem_map]
  constructor
  · rintro ⟨⟨c, hc, rfl⟩, hne⟩
    obtain ⟨hsorted, hpos, hsum⟩ := (mem_ascendingSums (le_refl 1) hn (le_refl n) c).mp hc
    refine ⟨by simpa using hne, hsorted.filter _, fun s hs => ?_, ?_⟩
    · have hs' : s ∈ c ∧ s ≠ 1 := by simpa using hs
      have := hpos s hs'.1
      omega
    · have := sum_eq_count_add hsorted hpos
      rw [List.nil_append]
      omega
  · rintro ⟨hne, hsizes⟩
    have hfilter : sizes.filter (· ≠ 1) = sizes := by
      refine List.filter_eq_self.mpr fun s hs => ?_
      have := hsizes.two_le s hs
      simp only [ne_eq, decide_not, Bool.not_eq_true', decide_eq_false_iff_not]
      omega
    refine ⟨⟨List.replicate (n - sizes.sum) 1 ++ sizes, ?_, ?_⟩, by simpa using hne⟩
    · refine (mem_ascendingSums (le_refl 1) hn (le_refl n) _).mpr ⟨?_, fun x hx => ?_, ?_⟩
      · refine List.pairwise_append.mpr ⟨List.pairwise_replicate.mpr (Or.inr (le_refl 1)),
          hsizes.sorted, fun x hx y hy => ?_⟩
        have := hsizes.two_le y hy
        rw [(List.mem_replicate.mp hx).2]
        omega
      · rcases List.mem_append.mp hx with hx | hx
        · rw [(List.mem_replicate.mp hx).2]
        · have := hsizes.two_le x hx
          omega
      · have := hsizes.sum_le
        simp
        omega
    · rw [List.nil_append, List.filter_append, hfilter]
      simp

theorem nodup_part (hn : 1 ≤ n) : (part n n []).Nodup := by
  rw [part_eq hn]
  refine ((nodup_ascendingSums (le_refl 1) hn (le_refl n)).map_on ?_).filter _
  intro c hc c' hc' heq
  obtain ⟨hsorted, hpos, hsum⟩ := (mem_ascendingSums (le_refl 1) hn (le_refl n) c).mp hc
  obtain ⟨hsorted', hpos', hsum'⟩ := (mem_ascendingSums (le_refl 1) hn (le_refl n) c').mp hc'
  exact eq_of_filter_ones hsorted hpos hsorted' hpos' (hsum.trans hsum'.symm) heq

theorem sizes_nil (n : Nat) : Sizes n [] :=
  ⟨List.Pairwise.nil, fun _ hs => absurd hs List.not_mem_nil, Nat.zero_le n⟩

theorem mem_diagonals (hn : 1 ≤ n) (f : Fin n → Fin n) :
    f ∈ diagonals n ↔ ∃ sizes, Sizes n sizes ∧ diagonal n sizes = f := by
  rw [diagonals_eq, List.mem_map]
  refine exists_congr fun sizes => and_congr_left fun _ => ?_
  rw [List.mem_cons, mem_part hn]
  constructor
  · rintro (rfl | h)
    · exact sizes_nil n
    · exact h.2
  · intro h
    by_cases hne : sizes = []
    · exact Or.inl hne
    · exact Or.inr ⟨hne, h⟩

/-- The cycle lengths are known from the permutation. -/
theorem sizes_injective {sizes sizes' : List Nat} (h : Sizes n sizes) (h' : Sizes n sizes')
    (d d' : Perm (Fin n)) (hd : ⇑d = diagonal n sizes) (hd' : ⇑d' = diagonal n sizes')
    (htype : d.cycleType = d'.cycleType) : sizes = sizes' := by
  obtain ⟨e, he, hetype, -⟩ := exists_diagonal h.two_le h.sum_le
  obtain ⟨e', he', hetype', -⟩ := exists_diagonal h'.two_le h'.sum_le
  rw [show d = e from Equiv.coe_fn_injective (hd.trans he.symm),
    show d' = e' from Equiv.coe_fn_injective (hd'.trans he'.symm), hetype, hetype'] at htype
  exact (Multiset.coe_eq_coe.mp htype).eq_of_pairwise' h.sorted h'.sorted

theorem nodup_diagonals (hn : 1 ≤ n) : (diagonals n).Nodup := by
  rw [diagonals_eq]
  refine List.Nodup.map_on ?_ (List.nodup_cons.mpr ⟨fun h => ((mem_part hn []).mp h).1 rfl,
    nodup_part hn⟩)
  have hsizes : ∀ sizes ∈ [] :: part n n [], Sizes n sizes := by
    intro sizes hs
    rcases List.mem_cons.mp hs with rfl | hs
    · exact sizes_nil n
    · exact ((mem_part hn sizes).mp hs).2
  intro l hl l' hl' heq
  obtain ⟨d, hd, -⟩ := exists_diagonal (hsizes l hl).two_le (hsizes l hl).sum_le
  exact sizes_injective (hsizes l hl) (hsizes l' hl') d d hd (hd.trans heq) rfl

/-- Every listed diagonal is a permutation in layered form. -/
theorem layered_of_mem (hn : 1 ≤ n) (d : Perm (Fin n)) (hd : ⇑d ∈ diagonals n) : Layered d := by
  obtain ⟨sizes, hsizes, heq⟩ := (mem_diagonals hn _).mp hd
  obtain ⟨e, he, -, hruns, hfix⟩ := exists_diagonal hsizes.two_le hsizes.sum_le
  rw [show d = e from Equiv.coe_fn_injective (heq.symm.trans he.symm)]
  exact layered_of_runs hsizes hruns hfix

/-- A conjugacy class is known from its cycle type, and every cycle type occurs once. -/
theorem existsUnique_diagonal (hn : 1 ≤ n) (p : Perm (Fin n)) :
    ∃! d : Perm (Fin n), ⇑d ∈ diagonals n ∧ IsConj d p := by
  have hsizes : Sizes n (p.cycleType.sort) := by
    refine ⟨Multiset.pairwise_sort _ _, fun s hs => ?_, ?_⟩
    · exact Perm.two_le_of_mem_cycleType ((Multiset.mem_sort _).mp hs)
    · have hle := Perm.sum_cycleType_le p
      rw [Fintype.card_fin, ← Multiset.sort_eq p.cycleType (· ≤ ·), Multiset.sum_coe] at hle
      exact hle
  obtain ⟨d, hd, htype, -⟩ := exists_diagonal hsizes.two_le hsizes.sum_le
  rw [Multiset.sort_eq] at htype
  refine ⟨d, ⟨(mem_diagonals hn _).mpr ⟨_, hsizes, hd.symm⟩,
    Perm.isConj_iff_cycleType_eq.mpr htype⟩, ?_⟩
  rintro e ⟨he, hconj⟩
  obtain ⟨sizes', hsizes', heq⟩ := (mem_diagonals hn _).mp he
  have hetype := (Perm.isConj_iff_cycleType_eq.mp hconj).trans htype.symm
  have := sizes_injective hsizes' hsizes e d heq.symm hd hetype
  exact Equiv.coe_fn_injective (heq.symm.trans (this ▸ hd.symm))

end YbeSms.Source
