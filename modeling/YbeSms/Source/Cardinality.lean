import YbeSms.Source.Global
import YbeSms.Library.Cnf

/-!
# Exactly-one constraints

Source: ybe-sms/src/clause.cpp:111-245. `exactlyOne` drops zero literals, then
states at-most-one pairwise or through commander variables. The literals given
to it are variables, so they are positive where they are not zero.
-/

namespace YbeSms.Source

open YbeSms.Library

/-- `atMostOne`. -/
def atMostOne : List Int → Cnf
  | [] => []
  | a :: rest => rest.map (fun b => [-a, -b]) ++ atMostOne rest

/-- `atLeastOne`. -/
def atLeastOne (amo : List Int) : Cnf := [amo]

/-- The clauses of one commander over its three children; `c = 0` is a missing child. -/
def commanderClauses (a b c cmd : Int) : Cnf :=
  [[-a, cmd], [-b, cmd]] ++
  (if c ≠ 0 then [[a, b, c, -cmd], [-c, cmd]] else [[a, b, -cmd]]) ++
  [[-a, -b]] ++
  (if c ≠ 0 then [[-a, -c], [-b, -c]] else [])

/-- `commanderEncoding`: commander, clauses, and the next free variable. -/
def commanderEncoding (amo : List Int) (nextFree : Int) : (Int × Cnf) × Int :=
  match amo with
  | [] => ((0, []), nextFree)
  | [a] => ((a, []), nextFree)
  | [a, b] => ((nextFree, commanderClauses a b 0 nextFree), nextFree + 1)
  | [a, b, c] => ((nextFree, commanderClauses a b c nextFree), nextFree + 1)
  | a :: b :: c :: e :: rest =>
    let all := a :: b :: c :: e :: rest
    let p := all.length / 3
    let p1 := commanderEncoding (all.take p) nextFree
    let p2 := commanderEncoding ((all.drop p).take p) p1.2
    let p3 := commanderEncoding (all.drop (2 * p)) p2.2
    ((p3.2, p1.1.2 ++ p2.1.2 ++ p3.1.2 ++ commanderClauses p1.1.1 p2.1.1 p3.1.1 p3.2), p3.2 + 1)
termination_by amo.length
decreasing_by
  all_goals
    simp only [List.length_take, List.length_drop, List.length_cons]
    omega

/-- `exactlyOne`. -/
def exactlyOne (cfg : Config) (eo : List Int) : Emitter := fun nextFree =>
  let toEO := eo.filter (fun i => i ≠ 0)
  if cfg.noCommander then (atMostOne toEO ++ atLeastOne toEO, nextFree)
  else
    let p := commanderEncoding toEO nextFree
    (p.1.2 ++ atLeastOne toEO, p.2)

/-- `atMostOne` as written: it pushes onto the caller's formula. -/
def pushAtMostOne (cnf : Cnf) : List Int → Cnf
  | [] => cnf
  | a :: rest => pushAtMostOne (rest.foldl (fun F b => F ++ [[-a, -b]]) cnf) rest

/-- `atLeastOne` as written. -/
def pushAtLeastOne (cnf : Cnf) (amo : List Int) : Cnf := cnf ++ [amo]

/-- `exactlyOne` as written, on the caller's formula and counter. -/
def pushExactlyOne (cfg : Config) (cnf : Cnf) (eo : List Int) (nextFree : Int) : Cnf × Int :=
  let toEO := eo.filter (fun i => i ≠ 0)
  if cfg.noCommander then (pushAtLeastOne (pushAtMostOne cnf toEO) toEO, nextFree)
  else
    let p := commanderEncoding toEO nextFree
    (pushAtLeastOne (p.1.2.foldl (fun F cl => F ++ [cl]) cnf) toEO, p.2)

theorem foldl_push {α : Type} (f : α → Clause) (l : List α) (cnf : Cnf) :
    l.foldl (fun F a => F ++ [f a]) cnf = cnf ++ l.map f := by
  induction l generalizing cnf with
  | nil => simp
  | cons a rest ih => rw [List.foldl_cons, ih, List.map_cons, List.append_assoc]; rfl

theorem pushAtMostOne_eq (cnf : Cnf) (alo : List Int) :
    pushAtMostOne cnf alo = cnf ++ atMostOne alo := by
  induction alo generalizing cnf with
  | nil => simp [pushAtMostOne, atMostOne]
  | cons a rest ih => rw [pushAtMostOne, ih, foldl_push, atMostOne, List.append_assoc]

/-- The clauses already there stay, and the new ones are those of the emitter. -/
theorem pushExactlyOne_eq (cfg : Config) (cnf : Cnf) (eo : List Int) (nextFree : Int) :
    pushExactlyOne cfg cnf eo nextFree =
      (cnf ++ (exactlyOne cfg eo nextFree).1, (exactlyOne cfg eo nextFree).2) := by
  by_cases hcmd : cfg.noCommander = true
  · simp only [pushExactlyOne, exactlyOne, hcmd, if_true, pushAtMostOne_eq, pushAtLeastOne,
      atLeastOne, List.append_assoc]
  · simp only [pushExactlyOne, exactlyOne, hcmd, Bool.false_eq_true, if_false, pushAtLeastOne,
      atLeastOne, foldl_push (fun cl => cl), List.map_id', List.append_assoc]

theorem clauseTrue_vars (τ : Valuation) (vs : List Int) (h : ∀ v ∈ vs, 0 < v) :
    ClauseTrue τ vs ↔ ∃ v ∈ vs, τ v = true := by
  unfold ClauseTrue
  constructor
  · rintro ⟨v, hv, ht⟩
    exact ⟨v, hv, (litTrue_pos τ (h v hv)).mp ht⟩
  · rintro ⟨v, hv, ht⟩
    exact ⟨v, hv, (litTrue_pos τ (h v hv)).mpr ht⟩

theorem models_atMostOne (τ : Valuation) (vs : List Int) (hpos : ∀ v ∈ vs, 0 < v)
    (hnodup : vs.Nodup) : Models τ (atMostOne vs) ↔ AtMostOneTrue τ vs := by
  induction vs with
  | nil => simp [atMostOne, AtMostOneTrue]
  | cons a rest ih =>
    obtain ⟨hnot, hrest⟩ := List.nodup_cons.mp hnodup
    have ha : 0 < a := hpos a (by simp)
    have hpair : Models τ (rest.map fun b => [-a, -b]) ↔
        (τ a = true → ∀ b ∈ rest, τ b = false) := by
      simp only [Models, List.forall_mem_map]
      constructor
      · intro h hta b hb
        have hb' := h b hb
        rw [clauseTrue_cons, clauseTrue_cons, litTrue_neg τ ha,
          litTrue_neg τ (hpos b (by simp [hb]))] at hb'
        simpa [hta] using hb'
      · intro h b hb
        rw [clauseTrue_cons, clauseTrue_cons, litTrue_neg τ ha,
          litTrue_neg τ (hpos b (by simp [hb]))]
        cases hta : τ a
        · exact Or.inl rfl
        · exact Or.inr (Or.inl (h hta b hb))
    rw [atMostOne, models_append, hpair, ih (fun v hv => hpos v (by simp [hv])) hrest]
    constructor
    · rintro ⟨hhead, htail⟩ v hv w hw htv htw
      rcases List.mem_cons.mp hv with rfl | hv' <;> rcases List.mem_cons.mp hw with rfl | hw'
      · rfl
      · simp [hhead htv w hw'] at htw
      · simp [hhead htw v hv'] at htv
      · exact htail v hv' w hw' htv htw
    · intro h
      refine ⟨fun hta b hb => ?_, fun v hv w hw => h v (by simp [hv]) w (by simp [hw])⟩
      cases htb : τ b
      · rfl
      · exact absurd (h a (by simp) b (by simp [hb]) hta htb ▸ hb) hnot

theorem wellFormed_atMostOne (k : Int) (vs : List Int) (h : ∀ v ∈ vs, 0 < v ∧ v < k) :
    WellFormed k (atMostOne vs) := by
  induction vs with
  | nil => exact wellFormed_nil k
  | cons a rest ih =>
    refine (wellFormed_append _ _ _).mpr ⟨fun c hc => ?_, ih fun v hv => h v (by simp [hv])⟩
    obtain ⟨b, hb, rfl⟩ := List.mem_map.mp hc
    have ha := h a (by simp)
    have hb := h b (by simp [hb])
    refine ⟨by simp, fun l hl => ?_⟩
    simp only [List.mem_cons, List.not_mem_nil, or_false] at hl
    rcases hl with rfl | rfl <;> omega

/-- One commander layer: the commander is the disjunction of its children,
and at most one child is true. -/
theorem models_commanderClauses (τ : Valuation) {a b c cmd : Int} (ha : 0 < a) (hb : 0 < b)
    (hc : 0 ≤ c) (hcmd : 0 < cmd) :
    Models τ (commanderClauses a b c cmd) ↔
      (τ cmd = true ↔ τ a = true ∨ τ b = true ∨ (c ≠ 0 ∧ τ c = true)) ∧
      ¬ (τ a = true ∧ τ b = true) ∧
      (c ≠ 0 → ¬ (τ a = true ∧ τ c = true) ∧ ¬ (τ b = true ∧ τ c = true)) := by
  by_cases hc0 : c = 0
  · subst hc0
    simp only [commanderClauses, ne_eq, not_true, if_false, models_append, models_cons,
      models_nil, clauseTrue_cons, litTrue_neg τ ha, litTrue_neg τ hb, litTrue_neg τ hcmd,
      litTrue_pos τ ha, litTrue_pos τ hb, litTrue_pos τ hcmd, clauseTrue_nil]
    cases τ a <;> cases τ b <;> cases τ cmd <;> simp
  · have hcpos : 0 < c := by omega
    simp only [commanderClauses, ne_eq, hc0, not_false_iff, if_true, models_append, models_cons,
      models_nil, clauseTrue_cons, litTrue_neg τ ha, litTrue_neg τ hb, litTrue_neg τ hcmd,
      litTrue_neg τ hcpos, litTrue_pos τ ha, litTrue_pos τ hb, litTrue_pos τ hcmd,
      litTrue_pos τ hcpos, clauseTrue_nil]
    cases τ a <;> cases τ b <;> cases τ c <;> cases τ cmd <;> simp

/-- What a commander tree over `vs` promises. -/
structure Commands (vs : List Int) (k : Int) (r : (Int × Cnf) × Int) : Prop where
  le : k ≤ r.2
  pos : 0 < r.1.1
  lt : r.1.1 < r.2
  wellFormed : WellFormed r.2 r.1.2
  sound : ∀ τ, Models τ r.1.2 →
    AtMostOneTrue τ vs ∧ (τ r.1.1 = true ↔ ∃ v ∈ vs, τ v = true)
  complete : ∀ τ, AtMostOneTrue τ vs → ∃ σ, AgreeBelow k τ σ ∧ Models σ r.1.2

theorem wellFormed_commanderClauses {a b c cmd : Int} (ha : 0 < a) (hb : 0 < b) (hc : 0 ≤ c)
    (ha' : a < cmd) (hb' : b < cmd) (hc' : c < cmd) :
    WellFormed (cmd + 1) (commanderClauses a b c cmd) := by
  by_cases hc0 : c = 0
  · simp only [commanderClauses, hc0, ne_eq, not_true, if_false, wellFormed_append,
      wellFormed_cons, wellFormed_nil, List.forall_mem_cons]
    simp
    omega
  · simp only [commanderClauses, hc0, ne_eq, not_false_iff, if_true, wellFormed_append,
      wellFormed_cons, wellFormed_nil, List.forall_mem_cons]
    simp
    omega

/-- A child of a commander: a subtree, or the missing third child. -/
def Child (vs : List Int) (k : Int) (r : (Int × Cnf) × Int) : Prop :=
  (vs = [] ∧ r = ((0, []), k)) ∨ Commands vs k r

theorem Child.le {vs : List Int} {k : Int} {r : (Int × Cnf) × Int} (h : Child vs k r) :
    k ≤ r.2 ∧ 0 ≤ r.1.1 ∧ (r.1.1 < r.2 ∨ r.1.1 = 0) ∧ WellFormed r.2 r.1.2 := by
  rcases h with ⟨-, rfl⟩ | h
  · simp
  · exact ⟨h.le, h.pos.le, Or.inl h.lt, h.wellFormed⟩

theorem Child.sound {vs : List Int} {k : Int} {r : (Int × Cnf) × Int} (h : Child vs k r)
    {τ : Valuation} (hτ : Models τ r.1.2) :
    AtMostOneTrue τ vs ∧ ((r.1.1 ≠ 0 ∧ τ r.1.1 = true) ↔ ∃ v ∈ vs, τ v = true) := by
  rcases h with ⟨rfl, rfl⟩ | h
  · simp [AtMostOneTrue]
  · exact ⟨(h.sound τ hτ).1, by rw [← (h.sound τ hτ).2]; simp [h.pos.ne']⟩

theorem Child.complete {vs : List Int} {k : Int} {r : (Int × Cnf) × Int} (h : Child vs k r)
    {τ : Valuation} (hτ : AtMostOneTrue τ vs) : ∃ σ, AgreeBelow k τ σ ∧ Models σ r.1.2 := by
  rcases h with ⟨rfl, rfl⟩ | h
  · exact ⟨τ, AgreeBelow.refl k τ, models_nil τ⟩
  · exact h.complete τ hτ

/-- The layer over three subtrees that were numbered one after another. -/
theorem Commands.layer {vs1 vs2 vs3 : List Int} {k : Int} {p1 p2 p3 : (Int × Cnf) × Int}
    (hnodup : (vs1 ++ (vs2 ++ vs3)).Nodup) (hlt : ∀ v ∈ vs1 ++ (vs2 ++ vs3), v < k)
    (h1 : Commands vs1 k p1) (h2 : Commands vs2 p1.2 p2) (h3 : Child vs3 p2.2 p3) :
    Commands (vs1 ++ (vs2 ++ vs3)) k
      ((p3.2, p1.1.2 ++ p2.1.2 ++ p3.1.2 ++ commanderClauses p1.1.1 p2.1.1 p3.1.1 p3.2),
        p3.2 + 1) := by
  obtain ⟨hle3, hpos3, hlt3, hwf3⟩ := h3.le
  have hle1 := h1.le
  have hle2 := h2.le
  have hpos1 := h1.pos
  have hpos2 := h2.pos
  have hlt1 := h1.lt
  have hlt2 := h2.lt
  have hcmd : 0 < p3.2 := by omega
  have hdis1 : List.Disjoint vs1 (vs2 ++ vs3) := List.disjoint_of_nodup_append hnodup
  have hdis2 : List.Disjoint vs2 vs3 :=
    List.disjoint_of_nodup_append (List.Nodup.of_append_right hnodup)
  have hlayer := fun τ => models_commanderClauses τ hpos1 hpos2 hpos3 hcmd
  refine ⟨by simp only; omega, by simp only; omega, by simp only; omega, ?_, ?_, ?_⟩
  · simp only [wellFormed_append]
    refine ⟨⟨⟨h1.wellFormed.mono ?_, h2.wellFormed.mono ?_⟩, hwf3.mono ?_⟩,
      wellFormed_commanderClauses hpos1 hpos2 hpos3 ?_ ?_ ?_⟩ <;> omega
  · intro τ hτ
    simp only [models_append] at hτ
    obtain ⟨⟨⟨hF1, hF2⟩, hF3⟩, hF⟩ := hτ
    obtain ⟨hdef, hab, hc⟩ := (hlayer τ).mp hF
    obtain ⟨hamo1, hcmd1⟩ := h1.sound τ hF1
    obtain ⟨hamo2, hcmd2⟩ := h2.sound τ hF2
    obtain ⟨hamo3, hcmd3⟩ := h3.sound hF3
    refine ⟨(atMostOneTrue_append τ _ _ hdis1).mpr
      ⟨hamo1, (atMostOneTrue_append τ _ _ hdis2).mpr ⟨hamo2, hamo3, ?_⟩, ?_⟩, ?_⟩
    · rw [← hcmd2, ← hcmd3]
      rintro ⟨h2t, hc0, h3t⟩
      exact (hc hc0).2 ⟨h2t, h3t⟩
    · rw [← hcmd1]
      simp only [List.mem_append, or_and_right, exists_or, ← hcmd2, ← hcmd3]
      rintro ⟨h1t, h2t | ⟨hc0, h3t⟩⟩
      · exact hab ⟨h1t, h2t⟩
      · exact (hc hc0).1 ⟨h1t, h3t⟩
    · simp only [hdef, List.mem_append, or_and_right, exists_or, hcmd1, hcmd2, hcmd3]
  · intro τ hτ
    obtain ⟨σ1, hag1, hF1⟩ := h1.complete τ (hτ.mono (by simp +contextual))
    have hτ1 := Local.atMostOneTrue hlt τ σ1 hag1 hτ
    obtain ⟨σ2, hag2, hF2⟩ := h2.complete σ1 (hτ1.mono (by simp +contextual))
    have hτ2 := Local.atMostOneTrue hlt σ1 σ2 (hag2.mono hle1) hτ1
    obtain ⟨σ3, hag3, hF3⟩ := h3.complete (hτ2.mono (by simp +contextual))
    have hτ3 := Local.atMostOneTrue hlt σ2 σ3 (hag3.mono (by omega)) hτ2
    obtain ⟨-, hrest, hsep1⟩ := (atMostOneTrue_append σ3 _ _ hdis1).mp hτ3
    obtain ⟨-, -, hsep2⟩ := (atMostOneTrue_append σ3 _ _ hdis2).mp hrest
    have hF1' : Models σ3 p1.1.2 :=
      (Models.congr h1.wellFormed (hag2.trans (hag3.mono hle2))).mp hF1
    have hF2' : Models σ3 p2.1.2 := (Models.congr h2.wellFormed hag3).mp hF2
    have hcmd1 := (h1.sound σ3 hF1').2
    have hcmd2 := (h2.sound σ3 hF2').2
    have hcmd3 := (h3.sound hF3).2
    simp only [List.mem_append, or_and_right, exists_or, ← hcmd1, ← hcmd2, ← hcmd3] at hsep1 hsep2
    -- the commander itself is the one variable still free
    obtain ⟨b, hb⟩ : ∃ b : Bool, b = true ↔
        (σ3 p1.1.1 = true ∨ σ3 p2.1.1 = true ∨ (p3.1.1 ≠ 0 ∧ σ3 p3.1.1 = true)) :=
      ⟨decide _, decide_eq_true_iff⟩
    have hfree := AgreeBelow.update p3.2 σ3 p3.2 b (le_refl _)
    refine ⟨Function.update σ3 p3.2 b,
      ((hag1.trans (hag2.mono hle1)).trans (hag3.mono (by omega))).trans
      (hfree.mono (by omega)), ?_⟩
    simp only [models_append]
    refine ⟨⟨⟨(Models.congr (h1.wellFormed.mono (by omega)) hfree).mp hF1',
      (Models.congr (h2.wellFormed.mono (by omega)) hfree).mp hF2'⟩,
      (Models.congr hwf3 hfree).mp hF3⟩, (hlayer _).mpr ?_⟩
    have hself : Function.update σ3 p3.2 b p3.2 = b := Function.update_self ..
    rw [hself, ← hfree p1.1.1 (by omega), ← hfree p2.1.1 (by omega), ← hfree p3.1.1 (by omega)]
    refine ⟨hb, fun h => hsep1 ⟨h.1, Or.inl h.2⟩, fun hc0 => ?_⟩
    exact ⟨fun h => hsep1 ⟨h.1, Or.inr ⟨hc0, h.2⟩⟩, fun h => hsep2 ⟨h.1, hc0, h.2⟩⟩

theorem Commands.leaf {a k : Int} (hpos : 0 < a) (hlt : a < k) : Commands [a] k ((a, []), k) where
  le := le_refl k
  pos := hpos
  lt := hlt
  wellFormed := wellFormed_nil k
  sound τ _ := by simp [AtMostOneTrue]
  complete τ _ := ⟨τ, AgreeBelow.refl k τ, models_nil τ⟩

theorem commanderEncoding_le (vs : List Int) (k : Int) : k ≤ (commanderEncoding vs k).2 := by
  induction vs, k using commanderEncoding.induct with
  | case1 k => rw [commanderEncoding]
  | case2 k a => rw [commanderEncoding]
  | case3 k a b => rw [commanderEncoding]; simp only; omega
  | case4 k a b c => rw [commanderEncoding]; simp only; omega
  | case5 k a b c e rest all p p1 p2 ih1 p3 ih2 p4 ih3 =>
    have hp1 : k ≤ p1.2 := ih1
    have hp2 : p1.2 ≤ p2.2 := ih2
    have hp3 : p2.2 ≤ (commanderEncoding (all.drop (2 * p)) p2.2).2 := ih3
    have hlast : (commanderEncoding (a :: b :: c :: e :: rest) k).2 =
        (commanderEncoding (all.drop (2 * p)) p2.2).2 + 1 := by
      rw [commanderEncoding]
    omega

/-- The result of a call that numbers three subtrees one after another and adds a commander. -/
def commanderLayer (vs1 vs2 vs3 : List Int) (k : Int) : (Int × Cnf) × Int :=
  let p1 := commanderEncoding vs1 k
  let p2 := commanderEncoding vs2 p1.2
  let p3 := commanderEncoding vs3 p2.2
  ((p3.2, p1.1.2 ++ p2.1.2 ++ p3.1.2 ++ commanderClauses p1.1.1 p2.1.1 p3.1.1 p3.2), p3.2 + 1)

/-- Lists of two, three and more entries are one case: a layer over three parts, of which the
first two are not empty. -/
theorem commanderEncoding_induction {P : List Int → Int → Prop} (empty : ∀ k, P [] k)
    (leaf : ∀ a k, 0 < a → a < k → P [a] k)
    (layer : ∀ vs1 vs2 vs3 k, vs1 ≠ [] → vs2 ≠ [] → (vs1 ++ (vs2 ++ vs3)).Nodup →
      (∀ v ∈ vs1 ++ (vs2 ++ vs3), 0 < v ∧ v < k) →
      commanderEncoding (vs1 ++ (vs2 ++ vs3)) k = commanderLayer vs1 vs2 vs3 k →
      P vs1 k → P vs2 (commanderEncoding vs1 k).2 →
      P vs3 (commanderEncoding vs2 (commanderEncoding vs1 k).2).2 →
      P (vs1 ++ (vs2 ++ vs3)) k)
    (vs : List Int) (k : Int) (hnodup : vs.Nodup) (hvs : ∀ v ∈ vs, 0 < v ∧ v < k) : P vs k := by
  induction vs, k using commanderEncoding.induct with
  | case1 k => exact empty k
  | case2 k a => exact leaf a k (hvs a (by simp)).1 (hvs a (by simp)).2
  | case3 k a b =>
    have ha := leaf a k (hvs a (by simp)).1 (hvs a (by simp)).2
    have hb := leaf b k (hvs b (by simp)).1 (hvs b (by simp)).2
    have heq : commanderEncoding ([a] ++ ([b] ++ [])) k = commanderLayer [a] [b] [] k := by
      simp [commanderEncoding, commanderLayer]
    refine layer [a] [b] [] k (by simp) (by simp) hnodup hvs heq ha ?_ ?_
    · simpa [commanderEncoding] using hb
    · simpa [commanderEncoding] using empty k
  | case4 k a b c =>
    have ha := leaf a k (hvs a (by simp)).1 (hvs a (by simp)).2
    have hb := leaf b k (hvs b (by simp)).1 (hvs b (by simp)).2
    have hc := leaf c k (hvs c (by simp)).1 (hvs c (by simp)).2
    have heq : commanderEncoding ([a] ++ ([b] ++ [c])) k = commanderLayer [a] [b] [c] k := by
      simp [commanderEncoding, commanderLayer]
    refine layer [a] [b] [c] k (by simp) (by simp) hnodup hvs heq ha ?_ ?_
    · simpa [commanderEncoding] using hb
    · simpa [commanderEncoding] using hc
  | case5 k a b c e rest all p p1 p2 ih1 _ ih2 _ ih3 =>
    have hlen : 4 ≤ all.length := by simp [all]
    have hp : 1 ≤ p := by simp only [p]; omega
    have h3p : 3 * p ≤ all.length := by simp only [p]; omega
    have hsplit : all.take p ++ ((all.drop p).take p ++ all.drop (2 * p)) = all := by
      rw [two_mul, ← List.drop_drop, List.take_append_drop, List.take_append_drop]
    have hall : ∀ v ∈ all, 0 < v ∧ v < k := hvs
    have hk1 : k ≤ p1.2 := commanderEncoding_le _ _
    have hk2 : p1.2 ≤ p2.2 := commanderEncoding_le _ _
    have h1 := ih1 (hnodup.sublist (List.take_sublist p all))
      (fun v hv => hall v (List.mem_of_mem_take hv))
    have h2 := ih2 ((hnodup.sublist (List.drop_sublist p all)).sublist (List.take_sublist p _))
      (fun v hv => by
        have h := hall v (List.mem_of_mem_drop (List.mem_of_mem_take hv))
        omega)
    have h3 := ih3 (hnodup.sublist (List.drop_sublist (2 * p) all))
      (fun v hv => by
        have h := hall v (List.mem_of_mem_drop hv)
        omega)
    have heq : commanderEncoding (all.take p ++ ((all.drop p).take p ++ all.drop (2 * p))) k =
        commanderLayer (all.take p) ((all.drop p).take p) (all.drop (2 * p)) k := by
      rw [hsplit, commanderEncoding]
      rfl
    have h := layer (all.take p) ((all.drop p).take p) (all.drop (2 * p)) k
      (by rw [← List.length_pos_iff, List.length_take]; omega)
      (by rw [← List.length_pos_iff, List.length_take, List.length_drop]; omega)
      (by rw [hsplit]; exact hnodup) (by rw [hsplit]; exact hall) heq h1 h2 h3
    rw [hsplit] at h
    exact h

/-- Only the empty list has no commander. -/
theorem commanderEncoding_spec (vs : List Int) (k : Int) (hnodup : vs.Nodup)
    (hvs : ∀ v ∈ vs, 0 < v ∧ v < k) : Child vs k (commanderEncoding vs k) := by
  refine commanderEncoding_induction (P := fun vs k => Child vs k (commanderEncoding vs k))
    ?_ ?_ ?_ vs k hnodup hvs
  · intro k
    exact Or.inl ⟨rfl, by simp [commanderEncoding]⟩
  · intro a k hpos hlt
    rw [commanderEncoding]
    exact Or.inr (Commands.leaf hpos hlt)
  · intro vs1 vs2 vs3 k hne1 hne2 hnd hbound heq h1 h2 h3
    rw [heq]
    exact Or.inr (Commands.layer hnd (fun v hv => (hbound v hv).2)
      (h1.resolve_left fun h => hne1 h.1) (h2.resolve_left fun h => hne2 h.1) h3)

/-- `exactlyOne` is a conservative encoding over the nonzero entries of its list. -/
theorem exactlyOne_encodes (cfg : Config) (eo : List Int) (k : Int)
    (hnodup : (eo.filter (fun i => i ≠ 0)).Nodup) (hne : eo.filter (fun i => i ≠ 0) ≠ [])
    (heo : ∀ v ∈ eo.filter (fun i => i ≠ 0), 0 < v ∧ v < k) :
    (exactlyOne cfg eo).Encodes k (fun τ => ExactlyOneTrue τ (eo.filter (fun i => i ≠ 0))) := by
  generalize hvs : eo.filter (fun i => i ≠ 0) = vs at *
  have hpos : ∀ v ∈ vs, 0 < v := fun v hv => (heo v hv).1
  have hlast : ∀ τ, Models τ (atLeastOne vs) ↔ ∃ v ∈ vs, τ v = true := by
    intro τ
    rw [atLeastOne, models_cons, clauseTrue_vars τ vs hpos]
    simp
  have hwflast : ∀ k', k ≤ k' → WellFormed k' (atLeastOne vs) := by
    intro k' hk' c hc
    obtain rfl : c = vs := by simpa [atLeastOne] using hc
    refine ⟨hne, fun l hl => ?_⟩
    have h := heo l hl
    exact ⟨by omega, by omega, by omega⟩
  by_cases hcmd : cfg.noCommander = true
  · have heq : exactlyOne cfg eo = Emitter.clauses (atMostOne vs ++ atLeastOne vs) := by
      funext nextFree
      simp only [exactlyOne, hvs, hcmd, if_true, Emitter.clauses]
    rw [heq]
    refine Emitter.Encodes.clauses ((wellFormed_append _ _ _).mpr ⟨?_, hwflast k (le_refl k)⟩)
      (fun τ => ?_)
    · exact wellFormed_atMostOne k vs heo
    · rw [models_append, models_atMostOne τ vs hpos hnodup, hlast, exactlyOneTrue_iff]
  · have hspec := (commanderEncoding_spec vs k hnodup heo).resolve_left fun h => hne h.1
    have heq : exactlyOne cfg eo k =
        ((commanderEncoding vs k).1.2 ++ atLeastOne vs, (commanderEncoding vs k).2) := by
      simp only [exactlyOne, hvs, hcmd, Bool.false_eq_true, if_false]
    refine ⟨?_, ?_, fun τ hτ => ?_, fun τ hτ => ?_⟩
    · rw [heq]
      exact hspec.le
    · rw [heq]
      exact (wellFormed_append _ _ _).mpr ⟨hspec.wellFormed, hwflast _ hspec.le⟩
    · rw [heq, models_append, hlast] at hτ
      exact (exactlyOneTrue_iff τ vs).mpr ⟨(hspec.sound τ hτ.1).1, hτ.2⟩
    · obtain ⟨hamo, v, hv, htv⟩ := (exactlyOneTrue_iff τ vs).mp hτ
      obtain ⟨σ, hag, hσ⟩ := hspec.complete τ hamo
      refine ⟨σ, hag, ?_⟩
      rw [heq, models_append, hlast]
      exact ⟨hσ, v, hv, by rw [← hag v (heo v hv).2]; exact htv⟩

/-- `exactlyOne` over the numbers of a list of points, some of which may have none. -/
theorem exactlyOne_map_encodes {β : Type} (cfg : Config) (f : β → Int) (l : List β) (k : Int)
    (hl : l.Nodup) (hinj : ∀ a b, f a ≠ 0 → f a = f b → a = b)
    (hrange : ∀ b, 0 ≤ f b ∧ f b < k) (hne : ∃ b ∈ l, f b ≠ 0) :
    (exactlyOne cfg (l.map f)).Encodes k
      (fun τ => ∃! b, b ∈ l ∧ f b ≠ 0 ∧ τ (f b) = true) := by
  have hnodup : ((l.map f).filter (fun i => i ≠ 0)).Nodup := by
    rw [List.filter_map]
    refine List.Nodup.map_on ?_ (hl.filter _)
    intro a ha b _ hab
    exact hinj a b (by simpa using (List.mem_filter.mp ha).2) hab
  refine (exactlyOne_encodes cfg (l.map f) k hnodup ?_ ?_).congr
    fun τ => exactlyOneTrue_map τ f l hinj
  · obtain ⟨b, hb, h0⟩ := hne
    exact List.ne_nil_of_mem (List.mem_filter.mpr ⟨List.mem_map_of_mem hb, by simpa using h0⟩)
  · intro v hv
    obtain ⟨hv, h0⟩ := List.mem_filter.mp hv
    obtain ⟨b, -, rfl⟩ := List.mem_map.mp hv
    have h0' : f b ≠ 0 := by simpa using h0
    have h := hrange b
    omega

end YbeSms.Source
