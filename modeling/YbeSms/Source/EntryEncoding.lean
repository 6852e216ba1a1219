import YbeSms.Source.Clause
import Mathlib.Data.Fintype.EquivFin
import Mathlib.Tactic.Ring

/-!
# Meaning of the entry constraints

`encodeEntries` describes exactly the tables with permutation rows and the given
diagonal (or, without a diagonal, with some permutation diagonal). The smaller
encoding has no variables for the diagonal and for the diagonal values.
-/

namespace YbeSms.Source

open YbeSms.Library YbeSms.Abstract

variable {n : Nat}

/-- The valuation makes the entry true, where it has a variable. -/
def Held (τ : Valuation) (lits : MatrixLits n) (i j k : Fin n) : Prop :=
  lits i j k ≠ 0 ∧ τ (lits i j k) = true

/-- The entry variables are the indicator of the table. -/
def Indicates (τ : Valuation) (lits : MatrixLits n) (M : Fin n → Fin n → Fin n) : Prop :=
  ∀ i j k, lits i j k ≠ 0 → (τ (lits i j k) = true ↔ M i j = k)

/-- The entries selected by `keep` have distinct variables below `hi`, the others none. -/
structure LitTable (lits : MatrixLits n) (keep : Entry n → Bool) (hi : Int) : Prop where
  nonzero : ∀ i j k, lits i j k ≠ 0 ↔ keep (i, j, k) = true
  range : ∀ i j k, 0 ≤ lits i j k ∧ lits i j k < hi
  inj : ∀ i j k i' j' k', lits i j k ≠ 0 → lits i j k = lits i' j' k' →
    (i, j, k) = (i', j', k')

theorem numberEntries_table (keep : Entry n → Bool) :
    LitTable (numberEntries keep 1).1 keep (numberEntries keep 1).2 := by
  have hnum := number_numbers keep (entries n) (nodup_entries n) mem_entries 1
  have hle : 1 ≤ (numberEntries keep 1).2 := by
    rw [numberEntries, number_snd]
    omega
  refine ⟨fun i j k => ?_, fun i j k => ?_, fun i j k i' j' k' h0 heq => ?_⟩
  · constructor
    · intro h
      by_contra hk
      exact h (hnum.zero (i, j, k) (by simpa using hk))
    · intro hk h
      have := hnum.lower (i, j, k) hk
      simp only [numberEntries] at h
      omega
  · rcases hnum.table.range (i, j, k) with h | h <;> simp only [numberEntries] at hle ⊢ <;> omega
  · exact hnum.table.inj (i, j, k) (i', j', k') h0 heq

theorem encodeDiagonal_lits (cfg : Config) (d : Fin n → Fin n) :
    LitTable (encodeDiagonal cfg d).lits (entryKept cfg d)
      (numberEntries (entryKept cfg d) 1).2 := numberEntries_table _

theorem encodeNoDiag_lits (cfg : Config) :
    LitTable (encodeNoDiag cfg n).lits (fun _ => true)
      (numberEntries (n := n) (fun _ => true) 1).2 := numberEntries_table _

/-- Position of a pair in a nested loop. -/
theorem idxOf_nested {α β : Type} [BEq α] [LawfulBEq α] [BEq β] [LawfulBEq β] [BEq (α × β)]
    [LawfulBEq (α × β)] (l : List α) (m : List β) (hl : l.Nodup) {a : α} {b : β} (ha : a ∈ l)
    (hb : b ∈ m) :
    (l ×ˢ m).idxOf (a, b) = l.idxOf a * m.length + m.idxOf b := by
  induction l with
  | nil => simp at ha
  | cons x rest ih =>
    obtain ⟨hx, hrest⟩ := List.nodup_cons.mp hl
    rw [List.product_cons]
    by_cases hax : a = x
    · subst hax
      have hmem : (a, b) ∈ m.map (Prod.mk a) := by simpa using hb
      rw [List.idxOf_append_of_mem hmem, List.idxOf_cons_self, Nat.zero_mul, Nat.zero_add]
      clear hmem ih hb
      induction m with
      | nil => rfl
      | cons y tail ih => by_cases hy : y = b <;> simp [hy, ih]
    · have hnot : (a, b) ∉ m.map (Prod.mk x) := by simp [Ne.symm hax]
      have hmem : a ∈ rest := (List.mem_cons.mp ha).resolve_left hax
      rw [List.idxOf_append_of_notMem hnot, ih hrest hmem, List.idxOf_cons_ne _ (Ne.symm hax),
        List.length_map, Nat.succ_mul]
      omega

/-- Without a guard the entries are numbered row by row from 1. -/
theorem numberEntries_all (i j k : Fin n) :
    (numberEntries (fun _ => true) 1).1 i j k = (i * n + j) * n + k + 1 := by
  have hfilter : (entries n).filter (fun _ => true) = entries n := List.filter_true _
  have hfin : ∀ v : Fin n, (List.finRange n).idxOf v = v := fun v => by simp
  have hpos : @List.idxOf _ instBEqOfDecidableEq (i, j, k) (entries n) = i * (n * n) + (j * n + k) := by
    have houter := @idxOf_nested (Fin n) (Fin n × Fin n) _ _ _ _ instBEqOfDecidableEq _
      (List.finRange n) (cells n) (List.nodup_finRange n) i (j, k) (List.mem_finRange i)
      (mem_cells _)
    have hinner : (cells n).idxOf (j, k) = j * n + k := by
      rw [cells, idxOf_nested _ _ (List.nodup_finRange n) (List.mem_finRange j)
        (List.mem_finRange k), hfin, hfin, List.length_finRange]
    have hlength : (cells n).length = n * n := by
      rw [cells, List.length_product, List.length_finRange]
    rw [hinner, hlength, hfin] at houter
    exact houter
  have hnum := number_of_selected (fun _ => true) (entries n) (nodup_entries n) (fun _ => 0) 1
    (i, j, k) (by simp [hfilter])
  rw [hfilter, hpos] at hnum
  refine hnum.trans ?_
  push_cast
  ring

theorem LitTable.mono {lits : MatrixLits n} {keep : Entry n → Bool} {hi hi' : Int}
    (h : LitTable lits keep hi) (hle : hi ≤ hi') : LitTable lits keep hi' :=
  ⟨h.nonzero, fun i j k => ⟨(h.range i j k).1, by have := h.range i j k; omega⟩, h.inj⟩

/-- Every table has a valuation that indicates it. -/
theorem LitTable.exists_indicates {lits : MatrixLits n} {keep : Entry n → Bool} {hi : Int}
    (h : LitTable lits keep hi) (M : Fin n → Fin n → Fin n) : ∃ τ, Indicates τ lits M := by
  have htable : Table (fun e : Entry n => lits e.1 e.2.1 e.2.2) 0 hi :=
    ⟨fun e => Or.inr (h.range _ _ _), fun a b h0 heq => h.inj _ _ _ _ _ _ h0 heq⟩
  obtain ⟨τ, -, hτ⟩ := htable.assign (fun _ => false) fun e => decide (M e.1 e.2.1 = e.2.2)
  exact ⟨τ, fun i j k h0 => by rw [hτ (i, j, k) h0]; simp⟩

/-- One exactly-one constraint over a family of entries. -/
theorem LitTable.exactlyOne {lits : MatrixLits n} {keep : Entry n → Bool} {hi k : Int}
    (h : LitTable lits keep hi) (hle : hi ≤ k) (cfg : Config) {g : Fin n → Entry n}
    (hg : Function.Injective g) {l : List (Fin n)} (hl : l.Nodup)
    (hne : ∃ b ∈ l, keep (g b) = true) :
    (Source.exactlyOne cfg (l.map fun b => lits (g b).1 (g b).2.1 (g b).2.2)).Encodes k
      (fun τ => ∃! b, b ∈ l ∧ Held τ lits (g b).1 (g b).2.1 (g b).2.2) := by
  refine exactlyOne_map_encodes cfg _ l k hl ?_ ?_ ?_
  · intro a b h0 heq
    exact hg (h.inj _ _ _ _ _ _ h0 heq)
  · intro b
    have := h.range (g b).1 (g b).2.1 (g b).2.2
    omega
  · obtain ⟨b, hb, hkeep⟩ := hne
    exact ⟨b, hb, (h.nonzero _ _ _).mpr hkeep⟩

theorem LitTable.local_held {lits : MatrixLits n} {keep : Entry n → Bool} {hi : Int}
    (h : LitTable lits keep hi) (g : Fin n → Entry n) (l : List (Fin n)) :
    Local hi (fun τ => ∃! b, b ∈ l ∧ Held τ lits (g b).1 (g b).2.1 (g b).2.2) := by
  intro τ σ hag hτ
  have heq : ∀ b, τ (lits (g b).1 (g b).2.1 (g b).2.2) = σ (lits (g b).1 (g b).2.1 (g b).2.2) :=
    fun b => hag _ (h.range _ _ _).2
  simpa only [Held, heq] using hτ

/-- A second point, wherever two points differ. -/
private theorem exists_ne_of_ne {i j : Fin n} (h : i ≠ j) (v : Fin n) : ∃ w, w ≠ v := by
  by_cases hv : i = v
  · exact ⟨j, fun hj => h (hv.trans hj.symm)⟩
  · exact ⟨i, hv⟩

theorem exists_kept_value (cfg : Config) (d : Fin n → Fin n) {i j : Fin n} (h : i ≠ j) :
    ∃ k ∈ List.finRange n, entryKept cfg d (i, j, k) = true := by
  obtain ⟨k, hk⟩ := exists_ne_of_ne h (d i)
  exact ⟨k, List.mem_finRange k, by cases hs : cfg.smallerEncoding <;> simp [entryKept, hs, h, hk]⟩

theorem exists_kept_column (cfg : Config) (d : Fin n → Fin n) {i k : Fin n} (h : d i ≠ k) :
    ∃ j ∈ (List.finRange n).filter (fun j => j ≠ i), entryKept cfg d (i, j, k) = true := by
  obtain ⟨j, hj⟩ := exists_ne_of_ne h i
  refine ⟨j, by simp [hj], ?_⟩
  cases hs : cfg.smallerEncoding <;> simp [entryKept, hs, Ne.symm hj, Ne.symm h]

/-- What the constraints of `encodeEntries` with a diagonal say, one conjunct for each loop. -/
def EntryFacts (cfg : Config) (d : Fin n → Fin n) (lits : MatrixLits n) (τ : Valuation) : Prop :=
  (∀ i j, i ≠ j → ∃! k, Held τ lits i j k) ∧
  (∀ i k, d i ≠ k → ∃! j, j ≠ i ∧ Held τ lits i j k) ∧
  (cfg.smallerEncoding = false → ∀ i, Held τ lits i i (d i) ∧ ∃! k, Held τ lits k k i)

theorem entryConstraints_encodes (cfg : Config) (d : Fin n → Fin n) (lits : MatrixLits n)
    {k : Int} (h : LitTable lits (entryKept cfg d) k) :
    (entryConstraints cfg d lits).Encodes k (EntryFacts cfg d lits) := by
  have hall := List.nodup_finRange n
  have hcell : ∀ c ∈ cells n, ∀ k', k ≤ k' →
      (if c.1 ≠ c.2 then exactlyOne cfg ((List.finRange n).map (lits c.1 c.2))
        else Emitter.clauses []).Encodes k'
        (fun τ => c.1 ≠ c.2 → ∃! v, v ∈ List.finRange n ∧ Held τ lits c.1 c.2 v) := by
    intro c _ k' hk'
    refine Emitter.Encodes.guarded _ fun hc => ?_
    exact h.exactlyOne hk' cfg (g := fun v => (c.1, c.2, v)) (fun a b => by simp) hall
      (exists_kept_value cfg d hc)
  have hrow : ∀ c ∈ cells n, ∀ k', k ≤ k' →
      (if d c.1 = c.2 then Emitter.clauses []
        else exactlyOne cfg (((List.finRange n).filter (fun j => j ≠ c.1)).map
          fun j => lits c.1 j c.2)).Encodes k'
        (fun τ => d c.1 ≠ c.2 →
          ∃! j, j ∈ (List.finRange n).filter (fun j => j ≠ c.1) ∧ Held τ lits c.1 j c.2) := by
    intro c _ k' hk'
    rw [← ite_not]
    refine Emitter.Encodes.guarded _ fun hc => ?_
    exact h.exactlyOne hk' cfg (g := fun j => (c.1, j, c.2)) (fun a b => by simp)
      (hall.filter _) (exists_kept_column cfg d hc)
  have hdiag : ∀ k', k ≤ k' →
      (if !cfg.smallerEncoding then
        Emitter.forEach (List.finRange n) fun i =>
          (Emitter.clauses [[lits i i (d i)]]).andThen
            (exactlyOne cfg ((List.finRange n).map fun k => lits k k i))
        else Emitter.clauses []).Encodes k'
        (fun τ => (!cfg.smallerEncoding) = true → ∀ i ∈ List.finRange n,
          Held τ lits i i (d i) ∧ ∃! v, v ∈ List.finRange n ∧ Held τ lits v v i) := by
    intro k' hk'
    refine Emitter.Encodes.guarded _ fun hs => ?_
    have hkept : ∀ e, entryKept cfg d e = true := fun e => by
      simp [entryKept, (Bool.not_eq_true' _).mp hs]
    refine Emitter.Encodes.forEach (fun i _ k'' hk'' => ?_) fun i _ => ?_
    · have hunit : (Emitter.clauses [[lits i i (d i)]]).Encodes k''
          (fun τ => Held τ lits i i (d i)) := by
        have h0 := (h.nonzero i i (d i)).mpr (hkept _)
        have hr := h.range i i (d i)
        refine Emitter.Encodes.clauses ?_ fun τ => ?_
        · simp only [wellFormed_cons, wellFormed_nil, List.forall_mem_singleton]
          refine ⟨⟨by simp, h0, ?_, ?_⟩, trivial⟩ <;> omega
        · rw [models_cons, clauseTrue_cons, litTrue_pos τ (by omega)]
          simp [Held, h0]
      refine hunit.andThen (h.exactlyOne (by simp only [Emitter.clauses]; omega) cfg
        (g := fun v => (v, v, i)) (fun a b => by simp) hall ⟨i, by simp, hkept _⟩) ?_
      exact (h.local_held (fun v => (v, v, i)) _).mono (by omega)
    · refine Local.and (fun τ σ hag hτ => ?_) ((h.local_held (fun v => (v, v, i)) _).mono hk')
      rw [Held, ← hag _ (by have := h.range i i (d i); omega)]
      exact hτ
  have hlocalRow : ∀ c ∈ cells n, Local k (fun τ => d c.1 ≠ c.2 →
      ∃! j, j ∈ (List.finRange n).filter (fun j => j ≠ c.1) ∧ Held τ lits c.1 j c.2) :=
    fun c _ => Local.guarded _ fun _ => h.local_held (fun j => (c.1, j, c.2)) _
  have hlocalDiag : Local k (fun τ => (!cfg.smallerEncoding) = true → ∀ i ∈ List.finRange n,
      Held τ lits i i (d i) ∧ ∃! v, v ∈ List.finRange n ∧ Held τ lits v v i) := by
    refine Local.guarded _ fun _ => Local.forEach _ fun i _ => ?_
    refine Local.and (fun τ σ hag hτ => ?_) (h.local_held (fun v => (v, v, i)) _)
    rw [Held, ← hag _ (h.range i i (d i)).2]
    exact hτ
  have hcells := Emitter.Encodes.forEach hcell fun c _ =>
    Local.guarded _ fun _ => h.local_held (fun v => (c.1, c.2, v)) _
  have hrows := Emitter.Encodes.forEach
    (fun c hc k' hk' => hrow c hc k' (hcells.le.trans hk'))
    (fun c hc => (hlocalRow c hc).mono hcells.le)
  refine (hcells.andThen (hrows.andThen (hdiag _ (hcells.le.trans hrows.le))
    (hlocalDiag.mono hcells.le)) (Local.and (Local.forEach _ hlocalRow) hlocalDiag)).congr
    fun τ => ?_
  simp [EntryFacts]

/-- The facts hold exactly for the indicators of tables with permutation rows and diagonal `d`. -/
theorem entryFacts_iff (cfg : Config) (d : Fin n → Fin n) (hd : Function.Injective d)
    (lits : MatrixLits n) {hi : Int} (h : LitTable lits (entryKept cfg d) hi) (τ : Valuation) :
    EntryFacts cfg d lits τ ↔
      ∃ M : Fin n → Fin n → Fin n, RowsPermute M ∧ (∀ i, M i i = d i) ∧ Indicates τ lits M := by
  constructor
  · rintro ⟨hcell, hrow, hdiag⟩
    choose! value hvalue huniq using fun i j => fun hij : i ≠ j => hcell i j hij
    let M : Fin n → Fin n → Fin n := fun i j => if i = j then d i else value i j
    have hM : ∀ {i j}, i ≠ j → M i j = value i j := fun hij => if_neg hij
    have hMd : ∀ i, M i i = d i := fun i => if_pos rfl
    refine ⟨M, fun i => ?_, hMd, fun i j k h0 => ?_⟩
    · refine Finite.surjective_iff_bijective.mp fun k => ?_
      by_cases hk : d i = k
      · exact ⟨i, (hMd i).trans hk⟩
      · obtain ⟨j, ⟨hji, hheld⟩, -⟩ := hrow i k hk
        exact ⟨j, (hM (Ne.symm hji)).trans (huniq i j (Ne.symm hji) k hheld).symm⟩
    · by_cases hij : i = j
      · subst hij
        have hs : cfg.smallerEncoding = false := by
          have hkept := (h.nonzero i i k).mp h0
          by_contra hs
          simp [entryKept, hs] at hkept
        rw [hMd]
        constructor
        · intro ht
          -- the column constraint of `k` has one holder, and `d` is onto
          obtain ⟨v, hv⟩ := (Finite.surjective_of_injective hd) k
          obtain ⟨w, -, hw⟩ := (hdiag hs k).2
          have hvk : Held τ lits v v k := hv ▸ (hdiag hs v).1
          rw [(hw i ⟨h0, ht⟩).trans (hw v hvk).symm, hv]
        · rintro rfl
          exact (hdiag hs i).1.2
      · rw [hM hij]
        constructor
        · exact fun ht => (huniq i j hij k ⟨h0, ht⟩).symm
        · rintro rfl
          exact (hvalue i j hij).2
  · rintro ⟨M, hrows, hMd, hind⟩
    have hkept : ∀ {i j}, i ≠ j → lits i j (M i j) ≠ 0 := by
      intro i j hij
      have hne : M i j ≠ d i := fun heq => hij ((hrows i).1 (heq.trans (hMd i).symm)).symm
      rw [h.nonzero]
      cases hs : cfg.smallerEncoding <;> simp [entryKept, hs, hij, hne]
    have hheld : ∀ {i j k}, Held τ lits i j k → M i j = k := fun hk => (hind _ _ _ hk.1).mp hk.2
    have hof : ∀ {i j}, i ≠ j → Held τ lits i j (M i j) := fun hij =>
      ⟨hkept hij, (hind _ _ _ (hkept hij)).mpr rfl⟩
    refine ⟨fun i j hij => ⟨M i j, hof hij, fun k hk => (hheld hk).symm⟩, fun i k hk => ?_,
      fun hs i => ?_⟩
    · obtain ⟨j, rfl⟩ := (hrows i).2 k
      have hji : j ≠ i := by
        rintro rfl
        exact hk (hMd j).symm
      exact ⟨j, ⟨hji, hof (Ne.symm hji)⟩, fun j' hj' => (hrows i).1 (hheld hj'.2)⟩
    · have h0 : ∀ v w, lits v v w ≠ 0 := fun v w => by
        rw [h.nonzero]
        simp [entryKept, hs]
      obtain ⟨v, hv⟩ := (Finite.surjective_of_injective hd) i
      refine ⟨⟨h0 _ _, (hind _ _ _ (h0 _ _)).mpr (hMd i)⟩, v,
        ⟨h0 _ _, (hind _ _ _ (h0 _ _)).mpr ((hMd v).trans hv)⟩, fun w hw => ?_⟩
      exact hd (by rw [hv, ← hMd w, hheld hw])

/-- What the constraints of `encodeEntries` without a diagonal say. -/
def EntryFactsNoDiag (lits : MatrixLits n) (τ : Valuation) : Prop :=
  (∀ i j, ∃! k, Held τ lits i j k) ∧ (∀ i k, ∃! j, Held τ lits i j k) ∧
    ∀ i, ∃! k, Held τ lits k k i

theorem entryConstraintsNoDiag_encodes (cfg : Config) (lits : MatrixLits n) {k : Int}
    (h : LitTable lits (fun _ => true) k) :
    (entryConstraintsNoDiag cfg lits).Encodes k (EntryFactsNoDiag lits) := by
  have hall := List.nodup_finRange n
  have family : ∀ (g : Fin n → Entry n), Function.Injective g → 0 < n → ∀ k', k ≤ k' →
      (exactlyOne cfg ((List.finRange n).map fun b => lits (g b).1 (g b).2.1 (g b).2.2)).Encodes k'
        (fun τ => ∃! b, b ∈ List.finRange n ∧ Held τ lits (g b).1 (g b).2.1 (g b).2.2) :=
    fun g hg hn k' hk' => h.exactlyOne hk' cfg hg hall ⟨⟨0, hn⟩, by simp, rfl⟩
  have hlocal := fun g => h.local_held g (List.finRange n)
  have hcells := Emitter.Encodes.forEach
    (fun (c : Fin n × Fin n) (_ : c ∈ cells n) k' hk' =>
      family (fun v => (c.1, c.2, v)) (fun a b => by simp) c.1.pos k' hk')
    (fun c _ => hlocal fun v => (c.1, c.2, v))
  have hrowsLocal : ∀ c ∈ cells n, Local k (fun τ => ∃! j, j ∈ List.finRange n ∧
      Held τ lits c.1 j c.2) := fun c _ => hlocal fun j => (c.1, j, c.2)
  have hdiagLocal : ∀ i ∈ List.finRange n, Local k (fun τ => ∃! v, v ∈ List.finRange n ∧
      Held τ lits v v i) := fun i _ => hlocal fun v => (v, v, i)
  have hrows := Emitter.Encodes.forEach
    (fun (c : Fin n × Fin n) (_ : c ∈ cells n) k' hk' =>
      family (fun j => (c.1, j, c.2)) (fun a b => by simp) c.1.pos k' (hcells.le.trans hk'))
    (fun c hc => (hrowsLocal c hc).mono hcells.le)
  have hdiag := Emitter.Encodes.forEach
    (fun (i : Fin n) (_ : i ∈ List.finRange n) k' hk' =>
      family (fun v => (v, v, i)) (fun a b => by simp) i.pos k'
        ((hcells.le.trans hrows.le).trans hk'))
    (fun i hi => (hdiagLocal i hi).mono (hcells.le.trans hrows.le))
  refine (hcells.andThen (hrows.andThen hdiag ?_) (Local.and (Local.forEach _ hrowsLocal)
    (Local.forEach _ hdiagLocal))).congr fun τ => ?_
  · exact (Local.forEach _ hdiagLocal).mono hcells.le
  · simp [EntryFactsNoDiag]

/-- Without a diagonal the facts hold exactly for the indicators of tables whose rows and
diagonal are permutations. -/
theorem entryFactsNoDiag_iff (lits : MatrixLits n) {hi : Int}
    (h : LitTable lits (fun _ => true) hi) (τ : Valuation) :
    EntryFactsNoDiag lits τ ↔
      ∃ M : Fin n → Fin n → Fin n, RowsPermute M ∧ (Function.Bijective fun i => M i i) ∧
        Indicates τ lits M := by
  have h0 : ∀ i j k, lits i j k ≠ 0 := fun i j k => (h.nonzero i j k).mpr rfl
  constructor
  · rintro ⟨hcell, hrow, hdiag⟩
    choose M hM huniq using hcell
    have hind : Indicates τ lits M := fun i j k _ =>
      ⟨fun ht => (huniq i j k ⟨h0 i j k, ht⟩).symm, fun hk => hk ▸ (hM i j).2⟩
    refine ⟨M, fun i => Finite.surjective_iff_bijective.mp fun k => ?_,
      Finite.surjective_iff_bijective.mp fun k => ?_, hind⟩
    · obtain ⟨j, hj, -⟩ := hrow i k
      exact ⟨j, (hind i j k hj.1).mp hj.2⟩
    · obtain ⟨v, hv, -⟩ := hdiag k
      exact ⟨v, (hind v v k hv.1).mp hv.2⟩
  · rintro ⟨M, hrows, hdiag, hind⟩
    have hheld : ∀ i j k, Held τ lits i j k ↔ M i j = k := fun i j k =>
      (and_iff_right (h0 i j k)).trans (hind i j k (h0 i j k))
    simp only [EntryFactsNoDiag, hheld]
    exact ⟨fun i j => ⟨M i j, rfl, fun k hk => hk.symm⟩,
      fun i k => (hrows i).existsUnique k, fun i => hdiag.existsUnique i⟩

end YbeSms.Source
