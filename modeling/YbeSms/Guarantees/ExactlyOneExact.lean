import YbeSms.Source.Cardinality

/-!
# `exactlyOne` is exact and conservative

Source: ybe-sms/src/clause.cpp:111-245. Beyond `exactlyOne_encodes`, the values
of the commander variables are functions of the listed variables, and they are
taken from the counter only.
-/

namespace YbeSms.Guarantees

open YbeSms.Library YbeSms.Source

/-- The assignment of the variables of `eo` extends to a model of `F`. -/
def Extends (eo : List Int) (F : Cnf) (τ : Valuation) : Prop :=
  ∃ σ, (∀ v ∈ eo, v ≠ 0 → σ v = τ v) ∧ Models σ F

/-- Where the variables of a commander tree come from, and what decides their values. -/
structure Drawn (vs : List Int) (k : Int) (r : (Int × Cnf) × Int) : Prop where
  le : k ≤ r.2
  head : r.1.1 = 0 ∨ r.1.1 ∈ vs ∨ (k ≤ r.1.1 ∧ r.1.1 < r.2)
  occurs : ∀ v, Occurs v r.1.2 → v ∈ vs ∨ (k ≤ v ∧ v < r.2)
  unique : ∀ σ ρ, Models σ r.1.2 → Models ρ r.1.2 → (∀ v ∈ vs, σ v = ρ v) →
    ∀ v, k ≤ v → v < r.2 → σ v = ρ v

theorem Drawn.leaf (vs : List Int) (k c : Int) (hc : c = 0 ∨ c ∈ vs) :
    Drawn vs k ((c, []), k) where
  le := le_refl k
  head := hc.elim Or.inl fun h => Or.inr (Or.inl h)
  occurs v hv := absurd hv (occurs_nil v)
  unique _ _ _ _ _ _ hlo hhi := absurd hlo (not_le.mpr hhi)

theorem occurs_commanderClauses {v a b c cmd : Int} (ha : 0 < a) (hb : 0 < b) (hc : 0 ≤ c)
    (hcmd : 0 < cmd) (h : Occurs v (commanderClauses a b c cmd)) :
    v = a ∨ v = b ∨ (c ≠ 0 ∧ v = c) ∨ v = cmd := by
  by_cases hc0 : c = 0
  · simp only [commanderClauses, hc0, ne_eq, not_true, if_false, occurs_append, occurs_cons,
      occurs_nil, List.mem_cons, List.not_mem_nil, or_false] at h
    omega
  · simp only [commanderClauses, hc0, ne_eq, not_false_iff, if_true, occurs_append, occurs_cons,
      occurs_nil, List.mem_cons, List.not_mem_nil, or_false] at h
    omega

/-- One layer draws its commander after the variables of its three subtrees. -/
theorem Drawn.layer {vs1 vs2 vs3 : List Int} {k : Int} {p1 p2 p3 : (Int × Cnf) × Int}
    (hnodup : (vs1 ++ (vs2 ++ vs3)).Nodup) (hlt : ∀ v ∈ vs1 ++ (vs2 ++ vs3), v < k)
    (h1 : Commands vs1 k p1) (h2 : Commands vs2 p1.2 p2) (h3 : Child vs3 p2.2 p3)
    (d1 : Drawn vs1 k p1) (d2 : Drawn vs2 p1.2 p2) (d3 : Drawn vs3 p2.2 p3) :
    Drawn (vs1 ++ (vs2 ++ vs3)) k
      ((p3.2, p1.1.2 ++ p2.1.2 ++ p3.1.2 ++ commanderClauses p1.1.1 p2.1.1 p3.1.1 p3.2),
        p3.2 + 1) := by
  have hle1 := d1.le
  have hle2 := d2.le
  have hle3 := d3.le
  have hpos1 := h1.pos
  have hlt1 := h1.lt
  obtain ⟨-, hpos3, -, -⟩ := h3.le
  have hlayer := Commands.layer hnodup hlt h1 h2 h3
  refine ⟨by simp only; omega, ?_, ?_, ?_⟩
  · exact Or.inr (Or.inr ⟨by simp only; omega, by simp only; omega⟩)
  · intro v hv
    simp only [occurs_append, List.mem_append] at hv ⊢
    rcases hv with ((hv | hv) | hv) | hv
    · have := d1.occurs v hv
      grind
    · have := d2.occurs v hv
      grind
    · have := d3.occurs v hv
      grind
    · have hhead1 := d1.head
      have hhead2 := d2.head
      have hhead3 := d3.head
      have hpos2 := h2.pos
      have := occurs_commanderClauses hpos1 hpos2 hpos3 (by omega) hv
      grind
  · intro σ ρ hσ hρ hag v hlo hhi
    have hcmd : σ p3.2 = ρ p3.2 := by
      have hs := (hlayer.sound σ hσ).2
      have hr := (hlayer.sound ρ hρ).2
      rw [Bool.eq_iff_iff, hs, hr]
      exact exists_congr fun w => and_congr_right fun hw => by rw [hag w hw]
    simp only [models_append] at hσ hρ
    simp only [List.mem_append] at hag
    by_cases hv1 : v < p1.2
    · exact d1.unique σ ρ hσ.1.1.1 hρ.1.1.1 (fun w hw => hag w (Or.inl hw)) v hlo hv1
    by_cases hv2 : v < p2.2
    · exact d2.unique σ ρ hσ.1.1.2 hρ.1.1.2 (fun w hw => hag w (Or.inr (Or.inl hw))) v
        (not_lt.mp hv1) hv2
    by_cases hv3 : v < p3.2
    · exact d3.unique σ ρ hσ.1.2 hρ.1.2 (fun w hw => hag w (Or.inr (Or.inr hw))) v
        (not_lt.mp hv2) hv3
    · have hveq : v = p3.2 := by simp only at hhi; omega
      rw [hveq]
      exact hcmd

theorem commanderEncoding_drawn (vs : List Int) (k : Int) (hnodup : vs.Nodup)
    (hvs : ∀ v ∈ vs, 0 < v ∧ v < k) : Drawn vs k (commanderEncoding vs k) := by
  suffices h : Child vs k (commanderEncoding vs k) ∧ Drawn vs k (commanderEncoding vs k) from h.2
  refine commanderEncoding_induction
    (P := fun vs k => Child vs k (commanderEncoding vs k) ∧ Drawn vs k (commanderEncoding vs k))
    ?_ ?_ ?_ vs k hnodup hvs
  · intro k
    rw [commanderEncoding]
    exact ⟨Or.inl ⟨rfl, rfl⟩, Drawn.leaf [] k 0 (Or.inl rfl)⟩
  · intro a k hpos hlt
    rw [commanderEncoding]
    exact ⟨Or.inr (Commands.leaf hpos hlt), Drawn.leaf [a] k a (Or.inr (by simp))⟩
  · intro vs1 vs2 vs3 k hne1 hne2 hnd hbound heq h1 h2 h3
    have hlt := fun v hv => (hbound v hv).2
    have c1 := h1.1.resolve_left fun h => hne1 h.1
    have c2 := h2.1.resolve_left fun h => hne2 h.1
    rw [heq]
    exact ⟨Or.inr (Commands.layer hnd hlt c1 c2 h3.1),
      Drawn.layer hnd hlt c1 c2 h3.1 h1.2 h2.2 h3.2⟩

private theorem exactlyOneTrue_filter (eo : List Int) (τ : Valuation) :
    ExactlyOneTrue τ (eo.filter (fun i => i ≠ 0)) ↔ ∃! v, v ∈ eo ∧ v ≠ 0 ∧ τ v = true := by
  have h := exactlyOneTrue_map τ (fun v : Int => v) eo fun a b _ hab => hab
  rwa [List.map_id'] at h

theorem extends_exactlyOne (cfg : Config) (eo : List Int) (k : Int)
    (hnodup : (eo.filter (fun i => i ≠ 0)).Nodup) (heo : ∀ v ∈ eo, v ≠ 0 → 0 < v ∧ v < k)
    (τ : Valuation) :
    Extends eo (exactlyOne cfg eo k).1 τ ↔ ∃! v, v ∈ eo ∧ v ≠ 0 ∧ τ v = true := by
  have hmem : ∀ v, v ∈ eo.filter (fun i => i ≠ 0) ↔ v ∈ eo ∧ v ≠ 0 := by simp
  rw [← exactlyOneTrue_filter]
  by_cases hne : eo.filter (fun i => i ≠ 0) = []
  · have hempty : [] ∈ (exactlyOne cfg eo k).1 := by
      simp only [exactlyOne, hne]
      split <;> simp [atLeastOne]
    constructor
    · rintro ⟨σ, -, hσ⟩
      exact absurd (hσ [] hempty) (clauseTrue_nil σ)
    · rintro ⟨v, hv, -⟩
      rw [hne] at hv
      exact absurd hv (List.not_mem_nil)
  · have henc := exactlyOne_encodes cfg eo k hnodup hne
      fun v hv => heo v ((hmem v).mp hv).1 ((hmem v).mp hv).2
    constructor
    · rintro ⟨σ, hag, hσ⟩
      obtain ⟨v, hv, hall⟩ := henc.sound σ hσ
      refine ⟨v, hv, fun w hw => ?_⟩
      rw [← hag w ((hmem w).mp hw).1 ((hmem w).mp hw).2]
      exact hall w hw
    · intro hτ
      obtain ⟨σ, hag, hσ⟩ := henc.complete τ hτ
      exact ⟨σ, fun v hv h0 => (hag v (heo v hv h0).2).symm, hσ⟩

theorem occurs_atMostOne {v : Int} {vs : List Int} (hvs : ∀ w ∈ vs, 0 < w)
    (h : Occurs v (atMostOne vs)) : v ∈ vs := by
  induction vs with
  | nil => exact absurd h (occurs_nil v)
  | cons a rest ih =>
    rw [atMostOne, occurs_append] at h
    rcases h with ⟨hv, c, hc, hvc⟩ | h
    · obtain ⟨b, hb, rfl⟩ := List.mem_map.mp hc
      have ha := hvs a (by simp)
      have hb' := hvs b (by simp [hb])
      simp only [List.mem_cons, List.not_mem_nil, or_false] at hvc
      have : v = a ∨ v = b := by omega
      rcases this with rfl | rfl
      · exact List.mem_cons_self
      · exact List.mem_cons_of_mem a hb
    · exact List.mem_cons_of_mem a (ih (fun w hw => hvs w (by simp [hw])) h)

theorem occurs_atLeastOne {v : Int} {vs : List Int} (hvs : ∀ w ∈ vs, 0 < w)
    (h : Occurs v (atLeastOne vs)) : v ∈ vs := by
  simp only [atLeastOne, occurs_cons, occurs_nil, or_false] at h
  obtain ⟨hv, hmem | hneg⟩ := h
  · exact hmem
  · have := hvs (-v) hneg
    omega

/-- The appended clauses mention the listed variables and the variables drawn from the counter. -/
theorem occurs_exactlyOne (cfg : Config) (eo : List Int) (k : Int)
    (hnodup : (eo.filter (fun i => i ≠ 0)).Nodup) (heo : ∀ v ∈ eo, v ≠ 0 → 0 < v ∧ v < k)
    {v : Int} (h : Occurs v (exactlyOne cfg eo k).1) :
    v ∈ eo ∨ (k ≤ v ∧ v < (exactlyOne cfg eo k).2) := by
  have hmem : ∀ v, v ∈ eo.filter (fun i => i ≠ 0) ↔ v ∈ eo ∧ v ≠ 0 := by simp
  have hpos : ∀ w ∈ eo.filter (fun i => i ≠ 0), 0 < w ∧ w < k :=
    fun w hw => heo w ((hmem w).mp hw).1 ((hmem w).mp hw).2
  have hlisted : v ∈ eo.filter (fun i => i ≠ 0) → v ∈ eo := fun hv => ((hmem v).mp hv).1
  by_cases hcmd : cfg.noCommander = true
  · simp only [exactlyOne, hcmd, if_true, occurs_append] at h
    rcases h with h | h
    · exact Or.inl (hlisted (occurs_atMostOne (fun w hw => (hpos w hw).1) h))
    · exact Or.inl (hlisted (occurs_atLeastOne (fun w hw => (hpos w hw).1) h))
  · simp only [exactlyOne, hcmd, Bool.false_eq_true, if_false, occurs_append] at h ⊢
    rcases h with h | h
    · exact ((commanderEncoding_drawn _ k hnodup hpos).occurs v h).imp_left hlisted
    · exact Or.inl (hlisted (occurs_atLeastOne (fun w hw => (hpos w hw).1) h))

/-- With commanders two models that agree on the listed variables agree on all others. -/
theorem exactlyOne_unique (cfg : Config) (eo : List Int) (k : Int)
    (hnodup : (eo.filter (fun i => i ≠ 0)).Nodup) (heo : ∀ v ∈ eo, v ≠ 0 → 0 < v ∧ v < k)
    (hcmd : cfg.noCommander = false) {σ ρ : Valuation} (hσ : Models σ (exactlyOne cfg eo k).1)
    (hρ : Models ρ (exactlyOne cfg eo k).1) (hag : ∀ v ∈ eo, v ≠ 0 → σ v = ρ v) (v : Int)
    (hlo : k ≤ v) (hhi : v < (exactlyOne cfg eo k).2) : σ v = ρ v := by
  have hmem : ∀ v, v ∈ eo.filter (fun i => i ≠ 0) ↔ v ∈ eo ∧ v ≠ 0 := by simp
  have hdrawn := commanderEncoding_drawn _ k hnodup
    fun w hw => heo w ((hmem w).mp hw).1 ((hmem w).mp hw).2
  simp only [exactlyOne, hcmd, Bool.false_eq_true, if_false, models_append] at hσ hρ hhi
  exact hdrawn.unique σ ρ hσ.1 hρ.1 (fun w hw => hag w ((hmem w).mp hw).1 ((hmem w).mp hw).2)
    v hlo hhi

/-- `exactlyOne` appends clauses, and leaves those that are there. Its clauses admit exactly
the assignments of `eo` with one true nonzero entry, for both encodings. Every other variable
of them is drawn from the counter, and with commanders its value is determined. -/
theorem exactlyOne_exact_conservative (cfg : Config) (cnf : Cnf) (eo : List Int) (nextFree : Int)
    (hnodup : (eo.filter (fun i => i ≠ 0)).Nodup)
    (heo : ∀ v ∈ eo, v ≠ 0 → 0 < v ∧ v < nextFree) :
    ∃ added, (pushExactlyOne cfg cnf eo nextFree).1 = cnf ++ added ∧
      (∀ τ, Extends eo added τ ↔ ∃! v, v ∈ eo ∧ v ≠ 0 ∧ τ v = true) ∧
      (cfg.noCommander = false → ∀ σ ρ, Models σ added → Models ρ added →
        (∀ v ∈ eo, v ≠ 0 → σ v = ρ v) → ∀ v, Occurs v added → σ v = ρ v) ∧
      (∀ v, Occurs v added → v ∉ eo →
        nextFree ≤ v ∧ v < (pushExactlyOne cfg cnf eo nextFree).2) ∧
      ∀ (cnf' added' : Cnf),
        (pushExactlyOne { cfg with noCommander := !cfg.noCommander } cnf' eo nextFree).1 =
          cnf' ++ added' → ∀ τ, Extends eo added τ ↔ Extends eo added' τ := by
  refine ⟨(exactlyOne cfg eo nextFree).1, by rw [pushExactlyOne_eq], ?_, ?_, ?_, ?_⟩
  · exact extends_exactlyOne cfg eo nextFree hnodup heo
  · intro hcmd σ ρ hσ hρ hag v hv
    rcases occurs_exactlyOne cfg eo nextFree hnodup heo hv with hmem | ⟨hlo, hhi⟩
    · exact hag v hmem hv.1.ne'
    · exact exactlyOne_unique cfg eo nextFree hnodup heo hcmd hσ hρ hag v hlo hhi
  · intro v hv hnot
    rw [pushExactlyOne_eq]
    exact (occurs_exactlyOne cfg eo nextFree hnodup heo hv).resolve_left hnot
  · intro cnf' added' h τ
    rw [pushExactlyOne_eq] at h
    rw [← List.append_cancel_left h, extends_exactlyOne _ eo nextFree hnodup heo,
      extends_exactlyOne _ eo nextFree hnodup heo]

theorem exactlyOne_exact_conservative_instance :
    ∃ added, (pushExactlyOne {} [[7]] [1, 0, 2, 3, 0, 4] 8).1 = [[7]] ++ added ∧
      (∀ τ, Extends [1, 0, 2, 3, 0, 4] added τ ↔
        ∃! v, v ∈ [1, 0, 2, 3, 0, 4] ∧ v ≠ 0 ∧ τ v = true) := by
  obtain ⟨added, happend, hexact, -⟩ := exactlyOne_exact_conservative {} [[7]] [1, 0, 2, 3, 0, 4]
    8 (by decide) (by decide)
  exact ⟨added, happend, hexact⟩

end YbeSms.Guarantees
