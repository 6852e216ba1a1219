import Mathlib.Data.List.Nodup
import Mathlib.Data.List.FinRange
import Mathlib.Algebra.Order.Ring.Int

/-!
# Consecutive numbering

A loop that walks through a list and hands out consecutive numbers to selected
points. The numbers are the positions in the filtered list, so the numbering is
injective and a second loop with the same guard lists its inverse.
-/

namespace YbeSms.Library

variable {α : Type} [DecidableEq α]

/-- Number the selected points of a list from `k` on; `f` holds the earlier numbers. -/
def number (sel : α → Bool) : List α → (α → Int) → Int → (α → Int) × Int
  | [], f, k => (f, k)
  | a :: rest, f, k =>
    if sel a then number sel rest (Function.update f a k) (k + 1) else number sel rest f k

/-- `f` numbers exactly the points selected by `sel`, within `lo .. hi - 1`. -/
structure Numbers (f : α → Int) (sel : α → Bool) (lo hi : Int) : Prop where
  zero : ∀ a, sel a = false → f a = 0
  lower : ∀ a, sel a = true → lo ≤ f a
  upper : ∀ a, sel a = true → f a < hi
  inj : ∀ a b, sel a = true → sel b = true → f a = f b → a = b

theorem number_snd (sel : α → Bool) (l : List α) (f : α → Int) (k : Int) :
    (number sel l f k).2 = k + (l.filter sel).length := by
  induction l generalizing f k with
  | nil => simp [number]
  | cons a rest ih =>
    by_cases h : sel a = true
    · simp only [number, h, if_true, ih, List.filter_cons_of_pos h, List.length_cons]
      omega
    · simpa [number, h] using ih f k

theorem number_of_not_selected (sel : α → Bool) (l : List α) (f : α → Int) (k : Int) (a : α)
    (h : a ∉ l.filter sel) : (number sel l f k).1 a = f a := by
  induction l generalizing f k with
  | nil => rfl
  | cons b rest ih =>
    by_cases hb : sel b = true
    · rw [List.filter_cons_of_pos hb, List.mem_cons, not_or] at h
      simp only [number, hb, if_true, ih _ _ h.2, Function.update_of_ne h.1]
    · rw [List.filter_cons_of_neg hb] at h
      simpa [number, hb] using ih f k h

/-- A selected point gets its position among the selected points. -/
theorem number_of_selected (sel : α → Bool) (l : List α) (hl : l.Nodup) (f : α → Int) (k : Int)
    (a : α) (h : a ∈ l.filter sel) :
    (number sel l f k).1 a = k + ((l.filter sel).idxOf a : Nat) := by
  induction l generalizing f k with
  | nil => simp at h
  | cons b rest ih =>
    obtain ⟨hb_rest, hrest⟩ := List.nodup_cons.mp hl
    by_cases hb : sel b = true
    · rw [List.filter_cons_of_pos hb] at h ⊢
      simp only [number, hb, if_true]
      by_cases hab : a = b
      · subst hab
        have hnot : a ∉ rest.filter sel := fun hmem => hb_rest (List.mem_of_mem_filter hmem)
        rw [number_of_not_selected _ _ _ _ _ hnot, List.idxOf_cons_self]
        simp
      · have hmem : a ∈ rest.filter sel := (List.mem_cons.mp h).resolve_left hab
        rw [ih hrest _ _ hmem, List.idxOf_cons_ne _ (Ne.symm hab)]
        push_cast
        omega
    · rw [List.filter_cons_of_neg hb] at h ⊢
      simpa [number, hb] using ih hrest f k h

/-- The numbers handed out lie between the old and the new counter and are distinct. -/
theorem number_range (sel : α → Bool) (l : List α) (hl : l.Nodup) (f : α → Int) (k : Int) (a : α)
    (h : a ∈ l.filter sel) :
    k ≤ (number sel l f k).1 a ∧ (number sel l f k).1 a < (number sel l f k).2 := by
  have hlt := List.idxOf_lt_length_of_mem h
  rw [number_of_selected sel l hl f k a h, number_snd]
  omega

theorem number_inj (sel : α → Bool) (l : List α) (hl : l.Nodup) (f : α → Int) (k : Int) (a b : α)
    (ha : a ∈ l.filter sel) (hb : b ∈ l.filter sel)
    (heq : (number sel l f k).1 a = (number sel l f k).1 b) : a = b := by
  rw [number_of_selected sel l hl f k a ha, number_of_selected sel l hl f k b hb] at heq
  exact (List.idxOf_inj ha).mp (by omega)

/-- No number between the old and the new counter is left out. -/
theorem exists_number (sel : α → Bool) (l : List α) (hl : l.Nodup) (f : α → Int) {k v : Int}
    (hlo : k ≤ v) (hhi : v < (number sel l f k).2) :
    ∃ a ∈ l.filter sel, (number sel l f k).1 a = v := by
  rw [number_snd] at hhi
  have hlt : (v - k).toNat < (l.filter sel).length := by omega
  have hmem : (l.filter sel)[(v - k).toNat] ∈ l.filter sel := List.getElem_mem hlt
  refine ⟨_, hmem, ?_⟩
  rw [number_of_selected sel l hl f k _ hmem, (hl.filter sel).idxOf_getElem]
  omega

/-- Numbering a complete list from an all-zero table. -/
theorem number_numbers (sel : α → Bool) (l : List α) (hl : l.Nodup) (hall : ∀ a, a ∈ l) (k : Int) :
    Numbers (number sel l (fun _ => 0) k).1 sel k (number sel l (fun _ => 0) k).2 := by
  have hmem : ∀ a, sel a = true → a ∈ l.filter sel := fun a ha =>
    List.mem_filter.mpr ⟨hall a, ha⟩
  refine ⟨fun a ha => ?_, fun a ha => (number_range sel l hl _ k a (hmem a ha)).1,
    fun a ha => (number_range sel l hl _ k a (hmem a ha)).2, fun a b ha hb heq => ?_⟩
  · exact number_of_not_selected _ _ _ _ _ (fun hin => by simp [(List.mem_filter.mp hin).2] at ha)
  · exact number_inj sel l hl _ k a b (hmem a ha) (hmem b hb) heq

/-- The list of selected points is the inverse table of the numbering. -/
theorem getElem_number (sel : α → Bool) (l : List α) (hl : l.Nodup) (f : α → Int) (k : Int)
    (a : α) (h : a ∈ l.filter sel) :
    (l.filter sel)[((number sel l f k).1 a - k).toNat]? = some a := by
  have hlt := List.idxOf_lt_length_of_mem h
  rw [number_of_selected sel l hl f k a h]
  have hindex : (k + ((l.filter sel).idxOf a : Nat) - k).toNat = (l.filter sel).idxOf a := by omega
  rw [hindex, List.getElem?_eq_getElem hlt, List.getElem_idxOf hlt]

/-- Clauses whose last literal is a result variable drawn when it is first needed. -/
def emitLazy : List (α × List Int) → (α → Int) → Int → ((α → Int) × Int) × List (List Int)
  | [], f, k => ((f, k), [])
  | (a, premise) :: rest, f, k =>
    let f' := if f a = 0 then Function.update f a k else f
    let k' := if f a = 0 then k + 1 else k
    let r := emitLazy rest f' k'
    (r.1, (premise ++ [f' a]) :: r.2)

/-- The nonzero numbers of `f` are distinct and lie in `lo .. hi - 1`. -/
structure Table (f : α → Int) (lo hi : Int) : Prop where
  range : ∀ a, f a = 0 ∨ (lo ≤ f a ∧ f a < hi)
  inj : ∀ a b, f a ≠ 0 → f a = f b → a = b

omit [DecidableEq α] in
theorem Numbers.table {f : α → Int} {sel : α → Bool} {lo hi : Int} (h : Numbers f sel lo hi) :
    Table f lo hi := by
  have hsel : ∀ a, f a ≠ 0 → sel a = true := fun a ha => by
    by_contra hn
    exact ha (h.zero a (by simpa using hn))
  refine ⟨fun a => ?_, fun a b ha hab => ?_⟩
  · by_cases hs : sel a = true
    · exact Or.inr ⟨h.lower a hs, h.upper a hs⟩
    · exact Or.inl (h.zero a (by simpa using hs))
  · exact h.inj a b (hsel a ha) (hsel b (hab ▸ ha)) hab

omit [DecidableEq α] in
/-- Numbered points can be given any truth values without touching smaller numbers. -/
theorem Table.assign {f : α → Int} {lo hi : Int} (h : Table f lo hi) (τ : Int → Bool)
    (w : α → Bool) :
    ∃ σ : Int → Bool, (∀ v, v < lo → τ v = σ v) ∧ ∀ a, f a ≠ 0 → σ (f a) = w a := by
  classical
  refine ⟨fun v => if hv : ∃ a, f a ≠ 0 ∧ f a = v then w hv.choose else τ v, ?_, ?_⟩
  · intro v hv
    have hnot : ¬ ∃ a, f a ≠ 0 ∧ f a = v := by
      rintro ⟨a, h0, rfl⟩
      have := h.range a
      omega
    simp only [dif_neg hnot]
  · intro a h0
    have hex : ∃ b, f b ≠ 0 ∧ f b = f a := ⟨a, h0, rfl⟩
    have hchosen := hex.choose_spec
    simp only [dif_pos hex, h.inj _ _ hchosen.1 hchosen.2]

theorem Table.update {f : α → Int} {lo k : Int} (h : Table f lo k) (hlo : lo ≤ k) (a : α)
    (ha : f a = 0) : Table (Function.update f a k) lo (k + 1) := by
  refine ⟨fun b => ?_, fun b c hb hbc => ?_⟩
  · by_cases hba : b = a
    · subst hba
      rw [Function.update_self]
      omega
    · rw [Function.update_of_ne hba]
      have := h.range b
      omega
  · by_cases hba : b = a <;> by_cases hca : c = a
    · rw [hba, hca]
    · subst hba
      rw [Function.update_self, Function.update_of_ne hca] at hbc
      have := h.range c
      rw [Function.update_self] at hb
      omega
    · subst hca
      rw [Function.update_self, Function.update_of_ne hba] at hbc
      have := h.range b
      rw [Function.update_of_ne hba] at hb
      omega
    · rw [Function.update_of_ne hba, Function.update_of_ne hca] at hbc
      rw [Function.update_of_ne hba] at hb
      exact h.inj b c hb hbc

/-- What `emitLazy` has done when it ends: the table is still a table, old numbers are
kept, exactly the asked-for points have numbers, and every clause ends in the final number. -/
structure Emitted (l : List (α × List Int)) (f : α → Int) (lo k : Int)
    (r : ((α → Int) × Int) × List (List Int)) : Prop where
  le : k ≤ r.1.2
  table : Table r.1.1 lo r.1.2
  kept : ∀ a, f a ≠ 0 → r.1.1 a = f a
  nonzero : ∀ a, r.1.1 a ≠ 0 ↔ f a ≠ 0 ∨ ∃ p ∈ l, p.1 = a
  clauses : r.2 = l.map fun p => p.2 ++ [r.1.1 p.1]

theorem emitLazy_emitted (l : List (α × List Int)) (f : α → Int) (lo k : Int) (hlo : 0 < lo)
    (hk : lo ≤ k) (hf : Table f lo k) : Emitted l f lo k (emitLazy l f k) := by
  induction l generalizing f k with
  | nil => exact ⟨le_refl k, hf, fun _ _ => rfl, by simp [emitLazy], rfl⟩
  | cons p rest ih =>
    obtain ⟨a, premise⟩ := p
    by_cases ha : f a = 0
    · have h := ih (Function.update f a k) (k + 1) (by omega) (hf.update hk a ha)
      have hhead : (emitLazy rest (Function.update f a k) (k + 1)).1.1 a = k := by
        rw [h.kept a (by rw [Function.update_self]; omega), Function.update_self]
      simp only [emitLazy, ha, if_true]
      refine ⟨?_, h.table, fun b hb => ?_, fun b => ?_, ?_⟩
      · have := h.le
        simp only
        omega
      · have hba : b ≠ a := by rintro rfl; exact hb ha
        have hkept := h.kept b
        rw [Function.update_of_ne hba] at hkept
        exact hkept hb
      · simp only [h.nonzero b, List.mem_cons]
        by_cases hba : b = a
        · subst hba
          simp only [Function.update_self]
          constructor
          · intro _
            exact Or.inr ⟨_, Or.inl rfl, rfl⟩
          · intro _
            left
            omega
        · simp [Function.update_of_ne hba, Ne.symm hba]
      · simp only [List.map_cons, hhead, Function.update_self, h.clauses]
    · have h := ih f k hk hf
      simp only [emitLazy, ha, if_false]
      refine ⟨h.le, h.table, h.kept, fun b => ?_, ?_⟩
      · simp only [h.nonzero b, List.mem_cons]
        constructor
        · rintro (hb | ⟨p, hp, rfl⟩)
          · exact Or.inl hb
          · exact Or.inr ⟨p, Or.inr hp, rfl⟩
        · rintro (hb | ⟨p, rfl | hp, rfl⟩)
          · exact Or.inl hb
          · exact Or.inl ha
          · exact Or.inr ⟨p, hp, rfl⟩
      · simp only [List.map_cons, h.kept a ha, h.clauses]

end YbeSms.Library
