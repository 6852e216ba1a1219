import Mathlib.Algebra.Order.Ring.Int
import Mathlib.Data.List.Nodup

/-!
# Clause emitters and conservative extension

DIMACS-style formulas: a variable is a positive integer, a literal a variable or
its negation, and `0` is never a true literal. An emitter appends clauses while
it draws new variables from a counter. `Encodes` says that the emitted clauses
are a conservative encoding of a property of the older variables: every model
has the property, and every valuation with the property extends to a model by
changing new variables only.
-/

namespace YbeSms.Library

abbrev Clause := List Int
abbrev Cnf := List Clause
abbrev Valuation := Int → Bool

def LitTrue (τ : Valuation) (l : Int) : Prop :=
  (0 < l ∧ τ l = true) ∨ (l < 0 ∧ τ (-l) = false)

def ClauseTrue (τ : Valuation) (c : Clause) : Prop := ∃ l ∈ c, LitTrue τ l

def Models (τ : Valuation) (F : Cnf) : Prop := ∀ c ∈ F, ClauseTrue τ c

/-- The two valuations agree on every variable below `k`. -/
def AgreeBelow (k : Int) (τ σ : Valuation) : Prop := ∀ v, v < k → τ v = σ v

/-- No clause is empty, no literal is zero and every variable is below `k`. -/
def WellFormed (k : Int) (F : Cnf) : Prop :=
  ∀ c ∈ F, c ≠ [] ∧ ∀ l ∈ c, l ≠ 0 ∧ -k < l ∧ l < k

theorem litTrue_pos (τ : Valuation) {v : Int} (hv : 0 < v) : LitTrue τ v ↔ τ v = true := by
  unfold LitTrue
  constructor
  · rintro (h | h)
    · exact h.2
    · omega
  · exact fun h => Or.inl ⟨hv, h⟩

theorem litTrue_neg (τ : Valuation) {v : Int} (hv : 0 < v) : LitTrue τ (-v) ↔ τ v = false := by
  unfold LitTrue
  rw [neg_neg]
  constructor
  · rintro (h | h)
    · omega
    · exact h.2
  · exact fun h => Or.inr ⟨by omega, h⟩

@[simp] theorem clauseTrue_nil (τ : Valuation) : ¬ ClauseTrue τ [] := by
  simp [ClauseTrue]

@[simp] theorem clauseTrue_cons (τ : Valuation) (l : Int) (c : Clause) :
    ClauseTrue τ (l :: c) ↔ LitTrue τ l ∨ ClauseTrue τ c := by
  simp [ClauseTrue]

@[simp] theorem models_nil (τ : Valuation) : Models τ [] := by
  simp [Models]

@[simp] theorem models_cons (τ : Valuation) (c : Clause) (F : Cnf) :
    Models τ (c :: F) ↔ ClauseTrue τ c ∧ Models τ F := by
  simp [Models]

@[simp] theorem models_append (τ : Valuation) (F G : Cnf) :
    Models τ (F ++ G) ↔ Models τ F ∧ Models τ G := by
  simp only [Models, List.mem_append]
  exact ⟨fun h => ⟨fun c hc => h c (Or.inl hc), fun c hc => h c (Or.inr hc)⟩,
    fun h c hc => hc.elim (h.1 c) (h.2 c)⟩

@[simp] theorem wellFormed_nil (k : Int) : WellFormed k [] := by simp [WellFormed]

@[simp] theorem wellFormed_cons (k : Int) (c : Clause) (F : Cnf) :
    WellFormed k (c :: F) ↔ (c ≠ [] ∧ ∀ l ∈ c, l ≠ 0 ∧ -k < l ∧ l < k) ∧ WellFormed k F := by
  simp [WellFormed]

@[simp] theorem wellFormed_append (k : Int) (F G : Cnf) :
    WellFormed k (F ++ G) ↔ WellFormed k F ∧ WellFormed k G := by
  simp only [WellFormed, List.mem_append]
  exact ⟨fun h => ⟨fun c hc => h c (Or.inl hc), fun c hc => h c (Or.inr hc)⟩,
    fun h c hc => hc.elim (h.1 c) (h.2 c)⟩

theorem WellFormed.mono {k k' : Int} {F : Cnf} (h : WellFormed k F) (hk : k ≤ k') :
    WellFormed k' F := by
  intro c hc
  refine ⟨(h c hc).1, fun l hl => ?_⟩
  obtain ⟨h0, hlo, hhi⟩ := (h c hc).2 l hl
  exact ⟨h0, by omega, by omega⟩

theorem AgreeBelow.refl (k : Int) (τ : Valuation) : AgreeBelow k τ τ := fun _ _ => rfl

theorem AgreeBelow.symm {k : Int} {τ σ : Valuation} (h : AgreeBelow k τ σ) : AgreeBelow k σ τ :=
  fun v hv => (h v hv).symm

theorem AgreeBelow.trans {k : Int} {τ σ ρ : Valuation} (h : AgreeBelow k τ σ)
    (h' : AgreeBelow k σ ρ) : AgreeBelow k τ ρ :=
  fun v hv => (h v hv).trans (h' v hv)

theorem AgreeBelow.mono {k k' : Int} {τ σ : Valuation} (h : AgreeBelow k' τ σ) (hk : k ≤ k') :
    AgreeBelow k τ σ :=
  fun v hv => h v (by omega)

/-- Setting one fresh variable. -/
theorem AgreeBelow.update (k : Int) (τ : Valuation) (v : Int) (b : Bool) (h : k ≤ v) :
    AgreeBelow k τ (Function.update τ v b) := by
  intro w hw
  rw [Function.update_of_ne (by omega)]

theorem LitTrue.congr {k l : Int} {τ σ : Valuation} (h : AgreeBelow k τ σ) (hlo : -k < l)
    (hhi : l < k) : LitTrue τ l ↔ LitTrue σ l := by
  unfold LitTrue
  rw [h l hhi, h (-l) (by omega)]

/-- Formulas see only the variables below their bound. -/
theorem Models.congr {k : Int} {F : Cnf} {τ σ : Valuation} (hF : WellFormed k F)
    (h : AgreeBelow k τ σ) : Models τ F ↔ Models σ F := by
  have transfer : ∀ {τ σ : Valuation}, AgreeBelow k τ σ → Models τ F → Models σ F := by
    intro τ σ h hτ c hc
    obtain ⟨l, hl, htrue⟩ := hτ c hc
    obtain ⟨-, hlo, hhi⟩ := (hF c hc).2 l hl
    exact ⟨l, hl, (LitTrue.congr h hlo hhi).mp htrue⟩
  exact ⟨transfer h, transfer h.symm⟩

/-- The variable `v` occurs in the formula. -/
def Occurs (v : Int) (F : Cnf) : Prop := 0 < v ∧ ∃ c ∈ F, v ∈ c ∨ -v ∈ c

@[simp] theorem occurs_nil (v : Int) : ¬ Occurs v [] := by simp [Occurs]

@[simp] theorem occurs_cons (v : Int) (c : Clause) (F : Cnf) :
    Occurs v (c :: F) ↔ (0 < v ∧ (v ∈ c ∨ -v ∈ c)) ∨ Occurs v F := by
  simp only [Occurs, List.exists_mem_cons_iff, ← and_or_left]

@[simp] theorem occurs_append (v : Int) (F G : Cnf) :
    Occurs v (F ++ G) ↔ Occurs v F ∨ Occurs v G := by
  induction F with
  | nil => simp
  | cons c rest ih => rw [List.cons_append, occurs_cons, ih, occurs_cons, or_assoc]

/-- `P` depends on variables below `k` only. -/
def Local (k : Int) (P : Valuation → Prop) : Prop :=
  ∀ τ σ, AgreeBelow k τ σ → P τ → P σ

theorem Local.mono {k k' : Int} {P : Valuation → Prop} (h : Local k P) (hk : k ≤ k') :
    Local k' P :=
  fun τ σ hag => h τ σ (hag.mono hk)

theorem Local.guarded {k : Int} {P : Valuation → Prop} (c : Prop) (h : c → Local k P) :
    Local k (fun τ => c → P τ) :=
  fun τ σ hag hτ hc => h hc τ σ hag (hτ hc)

theorem Local.and {k : Int} {P Q : Valuation → Prop} (hP : Local k P) (hQ : Local k Q) :
    Local k (fun τ => P τ ∧ Q τ) :=
  fun τ σ hag hτ => ⟨hP τ σ hag hτ.1, hQ τ σ hag hτ.2⟩

theorem Local.forEach {α : Type} {k : Int} {P : α → Valuation → Prop} (l : List α)
    (hP : ∀ a ∈ l, Local k (P a)) : Local k (fun τ => ∀ a ∈ l, P a τ) :=
  fun τ σ hag hτ a ha => hP a ha τ σ hag (hτ a ha)

/-- Given the next free variable, the appended clauses and the new counter. -/
abbrev Emitter := Int → Cnf × Int

namespace Emitter

/-- Append fixed clauses. -/
def clauses (F : Cnf) : Emitter := fun k => (F, k)

def andThen (a b : Emitter) : Emitter := fun k =>
  ((a k).1 ++ (b (a k).2).1, (b (a k).2).2)

/-- A `for` loop around an emitter. -/
def forEach {α : Type} : List α → (α → Emitter) → Emitter
  | [], _ => clauses []
  | a :: rest, f => andThen (f a) (forEach rest f)

/-- Started at counter `k`, the emitter is a conservative encoding of `P`. -/
structure Encodes (e : Emitter) (k : Int) (P : Valuation → Prop) : Prop where
  le : k ≤ (e k).2
  wellFormed : WellFormed (e k).2 (e k).1
  sound : ∀ τ, Models τ (e k).1 → P τ
  complete : ∀ τ, P τ → ∃ σ, AgreeBelow k τ σ ∧ Models σ (e k).1

theorem Encodes.clauses {F : Cnf} {k : Int} {P : Valuation → Prop} (hF : WellFormed k F)
    (h : ∀ τ, Models τ F ↔ P τ) : (clauses F).Encodes k P where
  le := le_refl k
  wellFormed := hF
  sound τ := (h τ).mp
  complete τ hτ := ⟨τ, AgreeBelow.refl k τ, (h τ).mpr hτ⟩

theorem Encodes.congr {e : Emitter} {k : Int} {P Q : Valuation → Prop} (h : e.Encodes k P)
    (hPQ : ∀ τ, P τ ↔ Q τ) : e.Encodes k Q where
  le := h.le
  wellFormed := h.wellFormed
  sound τ hτ := (hPQ τ).mp (h.sound τ hτ)
  complete τ hτ := h.complete τ ((hPQ τ).mpr hτ)

/-- A `continue` or `if` around an emitter. -/
theorem Encodes.guarded {e : Emitter} {k : Int} {P : Valuation → Prop} (c : Prop) [Decidable c]
    (h : c → e.Encodes k P) :
    (if c then e else Emitter.clauses []).Encodes k (fun τ => c → P τ) := by
  by_cases hc : c
  · rw [if_pos hc]
    exact (h hc).congr (by simp [hc])
  · rw [if_neg hc]
    exact Encodes.clauses (wellFormed_nil k) (by simp [hc])

theorem Encodes.andThen {a b : Emitter} {k : Int} {P Q : Valuation → Prop}
    (ha : a.Encodes k P) (hb : b.Encodes (a k).2 Q) (hQ : Local k Q) :
    (a.andThen b).Encodes k (fun τ => P τ ∧ Q τ) where
  le := ha.le.trans hb.le
  wellFormed := (wellFormed_append _ _ _).mpr ⟨ha.wellFormed.mono hb.le, hb.wellFormed⟩
  sound τ hτ := by
    obtain ⟨hF, hG⟩ := (models_append τ _ _).mp hτ
    exact ⟨ha.sound τ hF, hb.sound τ hG⟩
  complete τ hτ := by
    obtain ⟨σ, hτσ, hσ⟩ := ha.complete τ hτ.1
    obtain ⟨ρ, hσρ, hρ⟩ := hb.complete σ (hQ τ σ hτσ hτ.2)
    refine ⟨ρ, hτσ.trans (hσρ.mono ha.le), (models_append ρ _ _).mpr ⟨?_, hρ⟩⟩
    exact (Models.congr ha.wellFormed hσρ).mp hσ

/-- Valuations with `P` model the appended clauses, after a change of new variables, exactly
when they have `Q`. -/
structure EncodesUnder (e : Emitter) (k : Int) (P Q : Valuation → Prop) : Prop where
  le : k ≤ (e k).2
  wellFormed : WellFormed (e k).2 (e k).1
  sound : ∀ τ, P τ → Models τ (e k).1 → Q τ
  complete : ∀ τ, Q τ → ∃ σ, AgreeBelow k τ σ ∧ Models σ (e k).1

/-- The second emitter may rely on what the first one encodes. -/
theorem Encodes.andThen_under {a b : Emitter} {k : Int} {P Q : Valuation → Prop}
    (ha : a.Encodes k P) (hb : b.EncodesUnder (a k).2 P Q) (hQP : ∀ τ, Q τ → P τ)
    (hQ : Local k Q) : (a.andThen b).Encodes k Q where
  le := ha.le.trans hb.le
  wellFormed := (wellFormed_append _ _ _).mpr ⟨ha.wellFormed.mono hb.le, hb.wellFormed⟩
  sound τ hτ := by
    obtain ⟨hF, hG⟩ := (models_append τ _ _).mp hτ
    exact hb.sound τ (ha.sound τ hF) hG
  complete τ hτ := by
    obtain ⟨σ, hτσ, hσ⟩ := ha.complete τ (hQP τ hτ)
    obtain ⟨ρ, hσρ, hρ⟩ := hb.complete σ (hQ τ σ hτσ hτ)
    refine ⟨ρ, hτσ.trans (hσρ.mono ha.le), (models_append ρ _ _).mpr ⟨?_, hρ⟩⟩
    exact (Models.congr ha.wellFormed hσρ).mp hσ

theorem Encodes.forEach {α : Type} {f : α → Emitter} {P : α → Valuation → Prop} {k : Int}
    {l : List α} (hf : ∀ a ∈ l, ∀ k', k ≤ k' → (f a).Encodes k' (P a))
    (hP : ∀ a ∈ l, Local k (P a)) :
    (forEach l f).Encodes k (fun τ => ∀ a ∈ l, P a τ) := by
  induction l generalizing k with
  | nil => exact Encodes.clauses (wellFormed_nil k) (by simp)
  | cons a rest ih =>
    have hhead := hf a (by simp) k (le_refl k)
    have htail : (Emitter.forEach rest f).Encodes (f a k).2 (fun τ => ∀ b ∈ rest, P b τ) :=
      ih (fun b hb k' hk' => hf b (by simp [hb]) k' (hhead.le.trans hk'))
        (fun b hb => (hP b (by simp [hb])).mono hhead.le)
    have hlocal := Local.forEach rest fun b hb => hP b (by simp [hb])
    exact (hhead.andThen htail hlocal).congr (by simp)

end Emitter

/-- Exactly one of the listed variables is true. -/
def ExactlyOneTrue (τ : Valuation) (vs : List Int) : Prop :=
  ∃ v ∈ vs, ∀ w ∈ vs, τ w = true ↔ w = v

def AtMostOneTrue (τ : Valuation) (vs : List Int) : Prop :=
  ∀ v ∈ vs, ∀ w ∈ vs, τ v = true → τ w = true → v = w

theorem exactlyOneTrue_iff (τ : Valuation) (vs : List Int) :
    ExactlyOneTrue τ vs ↔ AtMostOneTrue τ vs ∧ ∃ v ∈ vs, τ v = true := by
  constructor
  · rintro ⟨v, hv, hall⟩
    refine ⟨?_, v, hv, (hall v hv).mpr rfl⟩
    intro a ha b hb hta htb
    rw [(hall a ha).mp hta, (hall b hb).mp htb]
  · rintro ⟨hamo, v, hv, htv⟩
    refine ⟨v, hv, fun w hw => ⟨fun htw => hamo w hw v hv htw htv, ?_⟩⟩
    rintro rfl
    exact htv

theorem AtMostOneTrue.mono {τ : Valuation} {vs ws : List Int} (h : AtMostOneTrue τ vs)
    (hsub : ∀ v ∈ ws, v ∈ vs) : AtMostOneTrue τ ws :=
  fun v hv w hw => h v (hsub v hv) w (hsub w hw)

/-- At most one variable of disjoint parts is true iff this holds in every part and at
most one part has a true variable. -/
theorem atMostOneTrue_append (τ : Valuation) (vs ws : List Int) (h : List.Disjoint vs ws) :
    AtMostOneTrue τ (vs ++ ws) ↔ AtMostOneTrue τ vs ∧ AtMostOneTrue τ ws ∧
      ¬ ((∃ v ∈ vs, τ v = true) ∧ ∃ w ∈ ws, τ w = true) := by
  constructor
  · intro hall
    refine ⟨hall.mono (by simp +contextual), hall.mono (by simp +contextual), ?_⟩
    rintro ⟨⟨v, hv, htv⟩, w, hw, htw⟩
    have heq := hall v (by simp [hv]) w (by simp [hw]) htv htw
    exact h hv (heq ▸ hw)
  · rintro ⟨hvs, hws, hnot⟩ v hv w hw htv htw
    rcases List.mem_append.mp hv with hv | hv <;> rcases List.mem_append.mp hw with hw | hw
    · exact hvs v hv w hw htv htw
    · exact absurd ⟨⟨v, hv, htv⟩, w, hw, htw⟩ hnot
    · exact absurd ⟨⟨w, hw, htw⟩, v, hv, htv⟩ hnot
    · exact hws v hv w hw htv htw

/-- For a list of numbered points, exactly one nonzero number is true iff exactly one
numbered point of the list is. -/
theorem exactlyOneTrue_map {β : Type} (τ : Valuation) (f : β → Int) (l : List β)
    (hinj : ∀ a b, f a ≠ 0 → f a = f b → a = b) :
    ExactlyOneTrue τ ((l.map f).filter (fun i => i ≠ 0)) ↔
      ∃! b, b ∈ l ∧ f b ≠ 0 ∧ τ (f b) = true := by
  have hmem : ∀ b ∈ l, f b ≠ 0 → f b ∈ (l.map f).filter (fun i => i ≠ 0) := fun b hb h0 =>
    List.mem_filter.mpr ⟨List.mem_map_of_mem hb, by simpa using h0⟩
  have hof : ∀ v ∈ (l.map f).filter (fun i => i ≠ 0), ∃ b ∈ l, f b ≠ 0 ∧ f b = v := by
    intro v hv
    obtain ⟨hv, h0⟩ := List.mem_filter.mp hv
    obtain ⟨b, hb, rfl⟩ := List.mem_map.mp hv
    exact ⟨b, hb, by simpa using h0, rfl⟩
  constructor
  · rintro ⟨v, hv, hall⟩
    obtain ⟨b, hb, h0, rfl⟩ := hof v hv
    refine ⟨b, ⟨hb, h0, (hall _ hv).mpr rfl⟩, ?_⟩
    rintro c ⟨hc, hc0, htc⟩
    exact hinj c b hc0 ((hall _ (hmem c hc hc0)).mp htc)
  · rintro ⟨b, ⟨hb, h0, htb⟩, huniq⟩
    refine ⟨f b, hmem b hb h0, fun w hw => ⟨fun htw => ?_, ?_⟩⟩
    · obtain ⟨c, hc, hc0, rfl⟩ := hof w hw
      rw [huniq c ⟨hc, hc0, htw⟩]
    · rintro rfl
      exact htb

theorem Local.atMostOneTrue {k : Int} {vs : List Int} (h : ∀ v ∈ vs, v < k) :
    Local k (fun τ => AtMostOneTrue τ vs) := by
  intro τ σ hag hτ v hv w hw htv htw
  exact hτ v hv w hw ((hag v (h v hv)).trans htv) ((hag w (h w hw)).trans htw)

end YbeSms.Library
