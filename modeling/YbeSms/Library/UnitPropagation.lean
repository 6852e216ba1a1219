import YbeSms.Library.Cnf

/-!
# Closure under unit propagation

A solver that has propagated without a conflict holds a set of literals: no literal
together with its negation, and in every clause the last literal that is not false.
`Forces` says what such a set looks like on the clauses of an emitter. It is stronger
than `Encodes`: the set need not be total, nor have a total extension.
-/

namespace YbeSms.Library

/-- No literal is held together with its negation. -/
def NoClash (T : Int → Prop) : Prop := ∀ l, T l → ¬ T (-l)

/-- Where the other literals of a clause are false, the last one is held. -/
def UnitClosed (T : Int → Prop) (F : Cnf) : Prop :=
  ∀ c ∈ F, ∀ l ∈ c, (∀ l' ∈ c, l' ≠ l → T (-l')) → T l

instance (T : List Int) : Decidable (NoClash (· ∈ T)) :=
  inferInstanceAs (Decidable (∀ l ∈ T, ¬ -l ∈ T))

instance (T : List Int) (F : Cnf) : Decidable (UnitClosed (· ∈ T) F) :=
  inferInstanceAs (Decidable (∀ c ∈ F, ∀ l ∈ c, (∀ l' ∈ c, l' ≠ l → -l' ∈ T) → l ∈ T))

section UnitClosed

variable {T : Int → Prop} {F G : Cnf}

@[simp] theorem unitClosed_append : UnitClosed T (F ++ G) ↔ UnitClosed T F ∧ UnitClosed T G := by
  simp only [UnitClosed, List.mem_append]
  exact ⟨fun h => ⟨fun c hc => h c (Or.inl hc), fun c hc => h c (Or.inr hc)⟩,
    fun h c hc => hc.elim (h.1 c) (h.2 c)⟩

theorem UnitClosed.unit (h : UnitClosed T F) {l : Int} (hl : [l] ∈ F) : T l := by
  apply h [l] hl l (List.mem_singleton.mpr rfl)
  intro l' hl' hne
  exact absurd (List.mem_singleton.mp hl') hne

/-- A clause of two literals. -/
theorem UnitClosed.pair (h : UnitClosed T F) {a b : Int} (hab : [a, b] ∈ F) (ha : T (-a)) :
    T b := by
  apply h [a, b] hab b (by simp)
  intro l hl hne
  rcases List.mem_pair.mp hl with rfl | rfl
  · exact ha
  · exact absurd rfl hne

theorem UnitClosed.pair_left (h : UnitClosed T F) {a b : Int} (hab : [a, b] ∈ F) (hb : T (-b)) :
    T a := by
  apply h [a, b] hab a (by simp)
  intro l hl hne
  rcases List.mem_pair.mp hl with rfl | rfl
  · exact absurd rfl hne
  · exact hb

/-- An implication. -/
theorem UnitClosed.last (h : UnitClosed T F) {premise : Clause} {v : Int}
    (hc : premise ++ [v] ∈ F) (hpremise : ∀ l ∈ premise, T (-l)) : T v := by
  apply h (premise ++ [v]) hc v (by simp)
  intro l hl hne
  rcases List.mem_append.mp hl with hl | hl
  · exact hpremise l hl
  · exact absurd (List.mem_singleton.mp hl) hne

open Classical in
/-- The valuation in which the held variables are true. -/
noncomputable def heldValuation (T : Int → Prop) : Valuation := fun v => decide (T v)

theorem heldValuation_eq (T : Int → Prop) (v : Int) : heldValuation T v = true ↔ T v := by
  simp [heldValuation]

end UnitClosed

namespace Emitter

/-- Started at counter `k`, every set closed under the appended clauses has the property. -/
structure Forces (e : Emitter) (k : Int) (Q : (Int → Prop) → Prop) : Prop where
  le : k ≤ (e k).2
  forced : ∀ T, NoClash T → UnitClosed T (e k).1 → Q T

theorem Forces.clauses {F : Cnf} {k : Int} {Q : (Int → Prop) → Prop}
    (h : ∀ T, NoClash T → UnitClosed T F → Q T) : (clauses F).Forces k Q := ⟨le_refl k, h⟩

theorem Forces.guarded {e : Emitter} {k : Int} {Q : (Int → Prop) → Prop} (c : Prop) [Decidable c]
    (h : c → e.Forces k Q) :
    (if c then e else Emitter.clauses []).Forces k (fun T => c → Q T) := by
  by_cases hc : c
  · rw [if_pos hc]
    exact ⟨(h hc).le, fun T hT hF _ => (h hc).forced T hT hF⟩
  · rw [if_neg hc]
    exact Forces.clauses fun _ _ _ h' => absurd h' hc

theorem Forces.andThen {a b : Emitter} {k : Int} {P Q : (Int → Prop) → Prop}
    (ha : a.Forces k P) (hb : b.Forces (a k).2 Q) :
    (a.andThen b).Forces k (fun T => P T ∧ Q T) := by
  refine ⟨ha.le.trans hb.le, fun T hT hF => ?_⟩
  obtain ⟨hFa, hFb⟩ := unitClosed_append.mp hF
  exact ⟨ha.forced T hT hFa, hb.forced T hT hFb⟩

theorem Forces.forEach {α : Type} {f : α → Emitter} {Q : α → (Int → Prop) → Prop} {k : Int}
    {l : List α} (hf : ∀ a ∈ l, ∀ k', k ≤ k' → (f a).Forces k' (Q a)) :
    (forEach l f).Forces k (fun T => ∀ a ∈ l, Q a T) := by
  induction l generalizing k with
  | nil => exact Forces.clauses fun T _ _ a ha => absurd ha List.not_mem_nil
  | cons a rest ih =>
    have hhead := hf a List.mem_cons_self k (le_refl k)
    have htail : (Emitter.forEach rest f).Forces (f a k).2 (fun T => ∀ b ∈ rest, Q b T) := by
      apply ih
      intro b hb k' hk'
      exact hf b (List.mem_cons_of_mem a hb) k' (hhead.le.trans hk')
    have hall := hhead.andThen htail
    exact ⟨hall.le, fun T hT hF => List.forall_mem_cons.mpr (hall.forced T hT hF)⟩

end Emitter

/-- What unit propagation makes of an exactly-one constraint: next to a held variable all others
are false, and where all others are false the last one is held. -/
structure OneForced (T : Int → Prop) (vs : List Int) : Prop where
  others : ∀ v ∈ vs, T v → ∀ w ∈ vs, w ≠ v → T (-w)
  last : ∀ v ∈ vs, (∀ w ∈ vs, w ≠ v → T (-w)) → T v

/-- The same over the numbers of a list of points, some of which may have none. -/
structure PointForced {β : Type} (T : Int → Prop) (f : β → Int) (l : List β) : Prop where
  others : ∀ b ∈ l, f b ≠ 0 → T (f b) → ∀ c ∈ l, f c ≠ 0 → c ≠ b → T (-f c)
  last : ∀ b ∈ l, f b ≠ 0 → (∀ c ∈ l, f c ≠ 0 → c ≠ b → T (-f c)) → T (f b)

section PointForced

variable {β : Type} {T : Int → Prop} {f : β → Int} {l : List β}

theorem OneForced.point (h : OneForced T ((l.map f).filter (fun i => i ≠ 0)))
    (hinj : ∀ a b, f a ≠ 0 → f a = f b → a = b) : PointForced T f l := by
  have hmem : ∀ b ∈ l, f b ≠ 0 → f b ∈ (l.map f).filter (fun i => i ≠ 0) := fun b hb h0 =>
    List.mem_filter.mpr ⟨List.mem_map_of_mem hb, by simpa using h0⟩
  constructor
  · intro b hb h0 htrue c hc hc0 hne
    apply h.others (f b) (hmem b hb h0) htrue (f c) (hmem c hc hc0)
    exact fun heq => hne (hinj c b hc0 heq)
  · intro b hb h0 hothers
    apply h.last (f b) (hmem b hb h0)
    intro w hw hne
    obtain ⟨hw, hw0⟩ := List.mem_filter.mp hw
    obtain ⟨c, hc, rfl⟩ := List.mem_map.mp hw
    exact hothers c hc (by simpa using hw0) fun heq => hne (heq ▸ rfl)

/-- Two points are not held together. -/
theorem PointForced.eq (h : PointForced T f l) (hT : NoClash T) {b c : β} (hb : b ∈ l)
    (hb0 : f b ≠ 0) (hbT : T (f b)) (hc : c ∈ l) (hc0 : f c ≠ 0) (hcT : T (f c)) : c = b := by
  by_contra hne
  exact hT (f c) hcT (h.others b hb hb0 hbT c hc hc0 hne)

/-- Not all points are false. -/
theorem PointForced.exists_not_false (h : PointForced T f l) (hT : NoClash T)
    (hne : ∃ b ∈ l, f b ≠ 0) : ∃ b ∈ l, f b ≠ 0 ∧ ¬ T (-f b) := by
  by_contra hall
  push Not at hall
  obtain ⟨b, hb, h0⟩ := hne
  exact hT (f b) (h.last b hb h0 fun c hc hc0 _ => hall c hc hc0) (hall b hb h0)

/-- Where all points are assigned, exactly one is held. -/
theorem PointForced.existsUnique (h : PointForced T f l) (hT : NoClash T)
    (hne : ∃ b ∈ l, f b ≠ 0) (hassigned : ∀ b ∈ l, f b ≠ 0 → T (f b) ∨ T (-f b)) :
    ∃! b, b ∈ l ∧ f b ≠ 0 ∧ T (f b) := by
  obtain ⟨b, hb, h0, hopen⟩ := h.exists_not_false hT hne
  have hheld : T (f b) := (hassigned b hb h0).resolve_right hopen
  refine ⟨b, ⟨hb, h0, hheld⟩, ?_⟩
  rintro c ⟨hc, hc0, hcT⟩
  exact h.eq hT hb h0 hheld hc hc0 hcT

end PointForced

end YbeSms.Library
