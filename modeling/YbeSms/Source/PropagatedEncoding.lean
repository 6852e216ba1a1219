import YbeSms.Library.UnitPropagation
import YbeSms.Source.YbeEncoding

/-!
# What unit propagation makes of the formula

Source: ybe-sms/src/clause.cpp:5-46, 84-245, 247-344. The propagator is asked once the
solver has propagated without a conflict, and then the matrix may be full before there
is a model. Propagation alone carries a value through the commander variables to the
other values of its cell and of its row, and refutes every full table that breaks the
identity.
-/

namespace YbeSms.Source

open YbeSms.Library YbeSms.Abstract

variable {n : Nat}

/-! ### Exactly-one constraints -/

theorem atMostOne_forced {T : Int → Prop} {vs : List Int} (h : UnitClosed T (atMostOne vs)) :
    ∀ v ∈ vs, T v → ∀ w ∈ vs, w ≠ v → T (-w) := by
  induction vs with
  | nil => exact fun v hv => absurd hv List.not_mem_nil
  | cons a rest ih =>
    rw [atMostOne, unitClosed_append] at h
    have hpair : ∀ b ∈ rest, [-a, -b] ∈ rest.map fun b => [-a, -b] := fun b hb =>
      List.mem_map_of_mem hb
    intro v hv htrue w hw hne
    rw [← neg_neg v] at htrue
    rcases List.mem_cons.mp hv with rfl | hv' <;> rcases List.mem_cons.mp hw with rfl | hw'
    · exact absurd rfl hne
    · exact h.1.pair (hpair w hw') htrue
    · exact h.1.pair_left (hpair v hv') htrue
    · exact ih h.2 v hv' (neg_neg v ▸ htrue) w hw' hne

/-- What propagation does in a commander tree: up from a held variable, down from a false
commander, and from there to the other subtrees. -/
structure TreeForced (T : Int → Prop) (vs : List Int) (cmd : Int) : Prop where
  up : ∀ v ∈ vs, T v → T cmd
  down : T (-cmd) → ∀ v ∈ vs, T (-v)
  apart : ∀ v ∈ vs, T v → ∀ w ∈ vs, w ≠ v → T (-w)

/-- A subtree below its commander. -/
theorem TreeForced.child {T : Int → Prop} {F : Cnf} (hF : UnitClosed T F) {vs : List Int}
    {a cmd : Int} (h : TreeForced T vs a) (hc : [-a, cmd] ∈ F) : TreeForced T vs cmd where
  up v hv htrue := hF.pair hc (by rw [neg_neg]; exact h.up v hv htrue)
  down hcmd v hv := h.down (hF.pair_left hc hcmd) v hv
  apart := h.apart

theorem treeForced_nil (T : Int → Prop) (cmd : Int) : TreeForced T [] cmd where
  up _ hv := absurd hv List.not_mem_nil
  down _ _ hv := absurd hv List.not_mem_nil
  apart _ hv := absurd hv List.not_mem_nil

/-- A held variable of one side makes the other side false. -/
def Excluding (T : Int → Prop) (vs ws : List Int) : Prop :=
  (∀ v ∈ vs, T v → ∀ w ∈ ws, T (-w)) ∧ ∀ w ∈ ws, T w → ∀ v ∈ vs, T (-v)

theorem excluding_nil (T : Int → Prop) (vs : List Int) : Excluding T vs [] :=
  ⟨fun _ _ _ _ hw => absurd hw List.not_mem_nil, fun _ hw => absurd hw List.not_mem_nil⟩

/-- Subtrees whose commanders exclude each other. -/
theorem TreeForced.excluding {T : Int → Prop} {F : Cnf} (hF : UnitClosed T F) {vs ws : List Int}
    {a b : Int} (hvs : TreeForced T vs a) (hws : TreeForced T ws b) (hab : [-a, -b] ∈ F) :
    Excluding T vs ws := by
  constructor
  · intro v hv htrue
    exact hws.down (hF.pair hab (by rw [neg_neg]; exact hvs.up v hv htrue))
  · intro w hw htrue
    exact hvs.down (hF.pair_left hab (by rw [neg_neg]; exact hws.up w hw htrue))

theorem Excluding.append {T : Int → Prop} {vs ws xs : List Int} (hw : Excluding T vs ws)
    (hx : Excluding T vs xs) : Excluding T vs (ws ++ xs) := by
  constructor
  · intro v hv htrue w hw'
    exact (List.mem_append.mp hw').elim (hw.1 v hv htrue w) (hx.1 v hv htrue w)
  · intro w hw' htrue
    exact (List.mem_append.mp hw').elim (hw.2 w · htrue) (hx.2 w · htrue)

theorem TreeForced.append {T : Int → Prop} {vs ws : List Int} {cmd : Int}
    (hvs : TreeForced T vs cmd) (hws : TreeForced T ws cmd) (hex : Excluding T vs ws) :
    TreeForced T (vs ++ ws) cmd := by
  constructor
  · intro v hv
    exact (List.mem_append.mp hv).elim (hvs.up v) (hws.up v)
  · intro hcmd v hv
    exact (List.mem_append.mp hv).elim (hvs.down hcmd v) (hws.down hcmd v)
  · intro v hv htrue w hw hne
    rcases List.mem_append.mp hv with hv | hv <;> rcases List.mem_append.mp hw with hw | hw
    · exact hvs.apart v hv htrue w hw hne
    · exact hex.1 v hv htrue w hw
    · exact hex.2 v hv htrue w hw
    · exact hws.apart v hv htrue w hw hne

theorem commander_ne_zero {vs : List Int} {k : Int} (hne : vs ≠ []) (hnodup : vs.Nodup)
    (hvs : ∀ v ∈ vs, 0 < v ∧ v < k) : (commanderEncoding vs k).1.1 ≠ 0 := by
  have hspec := (commanderEncoding_spec vs k hnodup hvs).resolve_left fun h => hne h.1
  exact hspec.pos.ne'

/-- The clauses of one layer that carry values. -/
theorem mem_commanderClauses (a b c cmd : Int) :
    [-a, cmd] ∈ commanderClauses a b c cmd ∧ [-b, cmd] ∈ commanderClauses a b c cmd ∧
      [-a, -b] ∈ commanderClauses a b c cmd ∧
      (c ≠ 0 → [-c, cmd] ∈ commanderClauses a b c cmd ∧ [-a, -c] ∈ commanderClauses a b c cmd ∧
        [-b, -c] ∈ commanderClauses a b c cmd) := by
  unfold commanderClauses
  refine ⟨by simp, by simp, by simp, fun hc => ?_⟩
  simp [hc]

theorem commanderEncoding_forced {T : Int → Prop} (vs : List Int) (k : Int) (hnodup : vs.Nodup)
    (hvs : ∀ v ∈ vs, 0 < v ∧ v < k) (hF : UnitClosed T (commanderEncoding vs k).1.2) :
    TreeForced T vs (commanderEncoding vs k).1.1 := by
  revert hF
  apply commanderEncoding_induction (P := fun vs k =>
    UnitClosed T (commanderEncoding vs k).1.2 → TreeForced T vs (commanderEncoding vs k).1.1)
  · intro k _
    exact treeForced_nil T _
  · intro a k _ _ _
    rw [commanderEncoding]
    refine ⟨fun v hv => ?_, fun ha v hv => ?_, fun v hv _ w hw hne => ?_⟩
    · rw [List.mem_singleton.mp hv]
      exact id
    · rwa [List.mem_singleton.mp hv]
    · rw [List.mem_singleton.mp hv] at hne
      exact absurd (List.mem_singleton.mp hw) hne
  · intro vs1 vs2 vs3 k _ _ hnd hbound heq h1 h2 h3 hF
    rw [heq] at hF ⊢
    simp only [commanderLayer, unitClosed_append] at hF ⊢
    obtain ⟨⟨⟨hF1, hF2⟩, hF3⟩, hF⟩ := hF
    obtain ⟨ha, hb, hab, hc⟩ := mem_commanderClauses (commanderEncoding vs1 k).1.1
      (commanderEncoding vs2 (commanderEncoding vs1 k).2).1.1
      (commanderEncoding vs3 (commanderEncoding vs2 (commanderEncoding vs1 k).2).2).1.1
      (commanderEncoding vs3 (commanderEncoding vs2 (commanderEncoding vs1 k).2).2).2
    have ht1 := h1 hF1
    have ht2 := h2 hF2
    have ht3 := h3 hF3
    generalize (commanderEncoding vs3 _).2 = cmd at *
    have hthird : TreeForced T vs3 cmd ∧ Excluding T vs1 vs3 ∧ Excluding T vs2 vs3 := by
      by_cases hempty : vs3 = []
      · subst hempty
        exact ⟨treeForced_nil T cmd, excluding_nil T vs1, excluding_nil T vs2⟩
      · have hle := commanderEncoding_le vs1 k
        have hle' := commanderEncoding_le vs2 (commanderEncoding vs1 k).2
        have hbelow : ∀ v ∈ vs3, 0 < v ∧
            v < (commanderEncoding vs2 (commanderEncoding vs1 k).2).2 := by
          intro v hv
          have hv' := hbound v (by simp [hv])
          omega
        obtain ⟨hccmd, hac, hbc⟩ := hc (commander_ne_zero hempty
          (List.Nodup.of_append_right (List.Nodup.of_append_right hnd)) hbelow)
        exact ⟨ht3.child hF hccmd, ht1.excluding hF ht3 hac, ht2.excluding hF ht3 hbc⟩
    obtain ⟨h3c, h13, h23⟩ := hthird
    have hlast := (ht2.child hF hb).append h3c h23
    exact (ht1.child hF ha).append hlast ((ht1.excluding hF ht2 hab).append h13)
  · exact hnodup
  · exact hvs

/-- The constraint propagates in full, pairwise or through commanders. -/
theorem exactlyOne_forces (cfg : Config) (eo : List Int) (k : Int)
    (hnodup : (eo.filter (fun i => i ≠ 0)).Nodup)
    (heo : ∀ v ∈ eo.filter (fun i => i ≠ 0), 0 < v ∧ v < k) :
    (exactlyOne cfg eo).Forces k (fun T => OneForced T (eo.filter (fun i => i ≠ 0))) := by
  generalize hvs : eo.filter (fun i => i ≠ 0) = vs at *
  have hlast : ∀ T : Int → Prop, UnitClosed T (atLeastOne vs) →
      ∀ v ∈ vs, (∀ w ∈ vs, w ≠ v → T (-w)) → T v := fun T hF =>
    hF vs (List.mem_singleton.mpr rfl)
  by_cases hcmd : cfg.noCommander = true
  · have heq : exactlyOne cfg eo k = (atMostOne vs ++ atLeastOne vs, k) := by
      simp only [exactlyOne, hvs, hcmd, if_true]
    refine ⟨by rw [heq], fun T _ hF => ?_⟩
    rw [heq, unitClosed_append] at hF
    exact ⟨atMostOne_forced hF.1, hlast T hF.2⟩
  · have heq : exactlyOne cfg eo k =
        ((commanderEncoding vs k).1.2 ++ atLeastOne vs, (commanderEncoding vs k).2) := by
      simp only [exactlyOne, hvs, hcmd, Bool.false_eq_true, if_false]
    refine ⟨?_, fun T _ hF => ?_⟩
    · rw [heq]
      exact commanderEncoding_le vs k
    · rw [heq, unitClosed_append] at hF
      exact ⟨(commanderEncoding_forced vs k hnodup heo hF.1).apart, hlast T hF.2⟩

/-- `exactlyOne` over the numbers of a list of points, some of which may have none. -/
theorem exactlyOne_map_forces {β : Type} (cfg : Config) (f : β → Int) (l : List β) (k : Int)
    (hl : l.Nodup) (hinj : ∀ a b, f a ≠ 0 → f a = f b → a = b)
    (hrange : ∀ b, 0 ≤ f b ∧ f b < k) :
    (exactlyOne cfg (l.map f)).Forces k (fun T => PointForced T f l) := by
  have hnodup : ((l.map f).filter (fun i => i ≠ 0)).Nodup := by
    rw [List.filter_map]
    refine List.Nodup.map_on ?_ (hl.filter _)
    intro a ha b _ hab
    exact hinj a b (by simpa using (List.mem_filter.mp ha).2) hab
  have hforces := exactlyOne_forces cfg (l.map f) k hnodup fun v hv => by
    obtain ⟨hv, h0⟩ := List.mem_filter.mp hv
    obtain ⟨b, -, rfl⟩ := List.mem_map.mp hv
    have h0' : f b ≠ 0 := by simpa using h0
    have h := hrange b
    omega
  exact ⟨hforces.le, fun T hT hF => (hforces.forced T hT hF).point hinj⟩

/-- One exactly-one constraint over a family of entries. -/
theorem LitTable.exactlyOne_forces {lits : MatrixLits n} {keep : Entry n → Bool} {hi k : Int}
    (h : LitTable lits keep hi) (hle : hi ≤ k) (cfg : Config) {g : Fin n → Entry n}
    (hg : Function.Injective g) {l : List (Fin n)} (hl : l.Nodup) :
    (Source.exactlyOne cfg (l.map fun b => lits (g b).1 (g b).2.1 (g b).2.2)).Forces k
      (fun T => PointForced T (fun b => lits (g b).1 (g b).2.1 (g b).2.2) l) := by
  apply exactlyOne_map_forces cfg _ l k hl
  · intro a b h0 heq
    exact hg (h.inj _ _ _ _ _ _ h0 heq)
  · intro b
    have := h.range (g b).1 (g b).2.1 (g b).2.2
    omega

/-! ### The entries -/

/-- What propagation makes of `encodeEntries` with a diagonal. -/
structure EntryForced (cfg : Config) (d : Fin n → Fin n) (lits : MatrixLits n) (T : Int → Prop) :
    Prop where
  cells : ∀ i j, i ≠ j → PointForced T (lits i j) (List.finRange n)
  rows : ∀ i k, d i ≠ k →
    PointForced T (fun j => lits i j k) ((List.finRange n).filter (fun j => j ≠ i))
  units : cfg.smallerEncoding = false → ∀ i, T (lits i i (d i)) ∧
    PointForced T (fun v => lits v v i) (List.finRange n)

theorem entryConstraints_forces (cfg : Config) (d : Fin n → Fin n) (lits : MatrixLits n) {k : Int}
    (h : LitTable lits (entryKept cfg d) k) :
    (entryConstraints cfg d lits).Forces k (EntryForced cfg d lits) := by
  have hall := List.nodup_finRange n
  have hcells : (Emitter.forEach (cells n) fun c =>
      if c.1 ≠ c.2 then exactlyOne cfg ((List.finRange n).map (lits c.1 c.2))
      else Emitter.clauses []).Forces k fun T => ∀ c ∈ cells n, c.1 ≠ c.2 →
        PointForced T (lits c.1 c.2) (List.finRange n) := by
    apply Emitter.Forces.forEach
    intro c _ k' hk'
    apply Emitter.Forces.guarded
    intro _
    exact h.exactlyOne_forces hk' cfg (g := fun v => (c.1, c.2, v)) (fun a b => by simp) hall
  have hrows : ∀ k', k ≤ k' → (Emitter.forEach (cells n) fun c =>
      if d c.1 = c.2 then Emitter.clauses []
      else exactlyOne cfg (((List.finRange n).filter (fun j => j ≠ c.1)).map
        fun j => lits c.1 j c.2)).Forces k' fun T => ∀ c ∈ cells n, d c.1 ≠ c.2 →
        PointForced T (fun j => lits c.1 j c.2) ((List.finRange n).filter (fun j => j ≠ c.1)) := by
    intro k' hk'
    apply Emitter.Forces.forEach
    intro c _ k'' hk''
    rw [← ite_not]
    apply Emitter.Forces.guarded
    intro _
    exact h.exactlyOne_forces (hk'.trans hk'') cfg (g := fun j => (c.1, j, c.2))
      (fun a b => by simp) (hall.filter _)
  have hunits : ∀ k', k ≤ k' → (if !cfg.smallerEncoding then
      Emitter.forEach (List.finRange n) fun i =>
        (Emitter.clauses [[lits i i (d i)]]).andThen
          (exactlyOne cfg ((List.finRange n).map fun k => lits k k i))
      else Emitter.clauses []).Forces k' fun T => (!cfg.smallerEncoding) = true →
        ∀ i ∈ List.finRange n, T (lits i i (d i)) ∧
          PointForced T (fun v => lits v v i) (List.finRange n) := by
    intro k' hk'
    apply Emitter.Forces.guarded
    intro _
    apply Emitter.Forces.forEach
    intro i _ k'' hk''
    apply Emitter.Forces.andThen
    · exact Emitter.Forces.clauses fun T _ hF => hF.unit (List.mem_singleton.mpr rfl)
    · exact h.exactlyOne_forces (hk'.trans hk'') cfg (g := fun v => (v, v, i))
        (fun a b => by simp) hall
  have hboth := hcells.andThen ((hrows _ hcells.le).andThen
    (hunits _ (hcells.le.trans (hrows _ hcells.le).le)))
  refine ⟨hboth.le, fun T hT hF => ?_⟩
  obtain ⟨hc, hr, hu⟩ := hboth.forced T hT hF
  exact ⟨fun i j hij => hc (i, j) (mem_cells _) hij, fun i k hik => hr (i, k) (mem_cells _) hik,
    fun hs i => hu (by simp [hs]) i (List.mem_finRange i)⟩

/-- Where all entries off the diagonal are assigned, they are those of a table. -/
theorem EntryForced.facts {cfg : Config} {d : Fin n → Fin n} {lits : MatrixLits n} {hi : Int}
    {T : Int → Prop} (h : EntryForced cfg d lits T) (ht : LitTable lits (entryKept cfg d) hi)
    (hd : Function.Injective d) (hT : NoClash T)
    (hassigned : ∀ i j k, i ≠ j → lits i j k ≠ 0 → T (lits i j k) ∨ T (-lits i j k)) :
    EntryFacts cfg d lits (heldValuation T) := by
  refine ⟨fun i j hij => ?_, fun i k hik => ?_, fun hs i => ?_⟩
  · obtain ⟨k, hk, hkept⟩ := exists_kept_value cfg d hij
    have hone := (h.cells i j hij).existsUnique hT ⟨k, hk, (ht.nonzero i j k).mpr hkept⟩
      fun v _ h0 => hassigned i j v hij h0
    simpa [Held, heldValuation_eq] using hone
  · obtain ⟨j, hj, hkept⟩ := exists_kept_column cfg d hik
    have hone := (h.rows i k hik).existsUnique hT ⟨j, hj, (ht.nonzero i j k).mpr hkept⟩ ?_
    · simpa [Held, heldValuation_eq] using hone
    · intro j' hj' h0
      have hne : j' ≠ i := by simpa using hj'
      exact hassigned i j' k (Ne.symm hne) h0
  · have h0 : ∀ v w, lits v v w ≠ 0 := fun v w => (ht.nonzero v v w).mpr (entryKept_full hs _)
    obtain ⟨v, rfl⟩ := (Finite.surjective_of_injective hd) i
    obtain ⟨hunit, -⟩ := h.units hs (d v)
    have hvalue := (h.units hs v).1
    refine ⟨⟨h0 _ _, (heldValuation_eq T _).mpr hunit⟩, v,
      ⟨h0 _ _, (heldValuation_eq T _).mpr hvalue⟩, ?_⟩
    rintro w ⟨-, hw⟩
    exact (h.units hs (d v)).2.eq hT (List.mem_finRange v) (h0 _ _) hvalue (List.mem_finRange w)
      (h0 _ _) ((heldValuation_eq T _).mp hw)

/-- What propagation makes of `encodeEntries` without a diagonal. -/
structure EntryForcedNoDiag (lits : MatrixLits n) (T : Int → Prop) : Prop where
  cells : ∀ i j, PointForced T (lits i j) (List.finRange n)
  rows : ∀ i k, PointForced T (fun j => lits i j k) (List.finRange n)
  diagonal : ∀ i, PointForced T (fun v => lits v v i) (List.finRange n)

theorem entryConstraintsNoDiag_forces (cfg : Config) (lits : MatrixLits n) {k : Int}
    (h : LitTable lits (fun _ => true) k) :
    (entryConstraintsNoDiag cfg lits).Forces k (EntryForcedNoDiag lits) := by
  have family : ∀ (g : Fin n → Entry n), Function.Injective g → ∀ k', k ≤ k' →
      (exactlyOne cfg ((List.finRange n).map fun b => lits (g b).1 (g b).2.1 (g b).2.2)).Forces k'
        (fun T => PointForced T (fun b => lits (g b).1 (g b).2.1 (g b).2.2) (List.finRange n)) :=
    fun g hg k' hk' => h.exactlyOne_forces hk' cfg hg (List.nodup_finRange n)
  have hcells := Emitter.Forces.forEach fun (c : Fin n × Fin n) (_ : c ∈ cells n) k' hk' =>
    family (fun v => (c.1, c.2, v)) (fun a b => by simp) k' hk'
  have hrows := Emitter.Forces.forEach fun (c : Fin n × Fin n) (_ : c ∈ cells n) k' hk' =>
    family (fun j => (c.1, j, c.2)) (fun a b => by simp) k' (hcells.le.trans hk')
  have hdiag := Emitter.Forces.forEach fun (i : Fin n) (_ : i ∈ List.finRange n) k' hk' =>
    family (fun v => (v, v, i)) (fun a b => by simp) k' ((hcells.le.trans hrows.le).trans hk')
  have hboth := hcells.andThen (hrows.andThen hdiag)
  refine ⟨hboth.le, fun T hT hF => ?_⟩
  obtain ⟨hc, hr, hu⟩ := hboth.forced T hT hF
  exact ⟨fun i j => hc (i, j) (mem_cells _), fun i k => hr (i, k) (mem_cells _),
    fun i => hu i (List.mem_finRange i)⟩

theorem EntryForcedNoDiag.facts {lits : MatrixLits n} {hi : Int} {T : Int → Prop}
    (h : EntryForcedNoDiag lits T) (ht : LitTable lits (fun _ => true) hi) (hT : NoClash T)
    (hassigned : ∀ i j k, T (lits i j k) ∨ T (-lits i j k)) :
    EntryFactsNoDiag lits (heldValuation T) := by
  have h0 : ∀ i j k, lits i j k ≠ 0 := fun i j k => (ht.nonzero i j k).mpr rfl
  refine ⟨fun i j => ?_, fun i k => ?_, fun i => ?_⟩
  · have hone := (h.cells i j).existsUnique hT ⟨i, List.mem_finRange i, h0 _ _ _⟩
      fun v _ _ => hassigned i j v
    simpa [Held, heldValuation_eq] using hone
  · have hone := (h.rows i k).existsUnique hT ⟨i, List.mem_finRange i, h0 _ _ _⟩
      fun j _ _ => hassigned i j k
    simpa [Held, heldValuation_eq] using hone
  · have hone := (h.diagonal i).existsUnique hT ⟨i, List.mem_finRange i, h0 _ _ _⟩
      fun v _ _ => hassigned v v i
    simpa [Held, heldValuation_eq] using hone

/-! ### The identity -/

/-- Where the premises of both sides of the identity are held, the sides agree. -/
def IdentityForced (small : Bool) (d : Fin n → Fin n) (lits : MatrixLits n) (T : Int → Prop) :
    Prop :=
  ∀ i j a x y b x' y' b', i < j → (!small || ybeGuard d i a x y b) = true →
    (!small || ybeGuard d j a x' y' b') = true →
    (∀ l ∈ ybePremise small lits i j a x y b, T (-l)) →
    (∀ l ∈ ybePremise small lits j i a x' y' b', T (-l)) → b' = b

theorem ybeClausesNew_forces (cfg : Config) (d : Fin n → Fin n) (lits : MatrixLits n) {k : Int}
    (hk : 0 < k) :
    (ybeClausesNew cfg lits d).Forces k (IdentityForced cfg.smallerEncoding d lits) := by
  have hemit := emitLazy_emitted (ybeImplications cfg lits d) (fun _ => 0) k k hk (le_refl k)
    ⟨fun _ => Or.inl rfl, fun _ _ h0 _ => absurd rfl h0⟩
  have heq : ∀ r, emitLazy (ybeImplications cfg lits d) (fun _ => 0) k = r →
      ybeClausesNew cfg lits d k = (r.2 ++ (Emitter.forEach (triples n) (fun t => exactlyOne cfg
        (((List.finRange n).map fun b => r.1.1 (t, b)).filter (· ≠ 0))) r.1.2).1,
        (Emitter.forEach (triples n) (fun t => exactlyOne cfg
        (((List.finRange n).map fun b => r.1.1 (t, b)).filter (· ≠ 0))) r.1.2).2) := by
    rintro r rfl
    rfl
  generalize hr : emitLazy (ybeImplications cfg lits d) (fun _ => 0) k = r at hemit
  have heq := heq r hr
  have hresults : (Emitter.forEach (triples n) (fun t => exactlyOne cfg
      (((List.finRange n).map fun b => r.1.1 (t, b)).filter (· ≠ 0)))).Forces r.1.2
      (fun T => ∀ t ∈ triples n, PointForced T (fun b => r.1.1 (t, b))
        ((List.finRange n).filter fun b => r.1.1 (t, b) ≠ 0)) := by
    apply Emitter.Forces.forEach
    intro t _ k' hk'
    have hmap : ((List.finRange n).map fun b => r.1.1 (t, b)).filter (· ≠ 0) =
        ((List.finRange n).filter fun b => r.1.1 (t, b) ≠ 0).map fun b => r.1.1 (t, b) := by
      rw [List.filter_map]
      rfl
    rw [hmap]
    apply exactlyOne_map_forces cfg _ _ k' ((List.nodup_finRange n).filter _)
    · intro a b h0 hab
      exact (Prod.mk.injEq _ _ _ _).mp (hemit.table.inj (t, a) (t, b) h0 hab) |>.2
    · intro b
      have := hemit.table.range (t, b)
      have := hemit.le
      omega
  refine ⟨?_, fun T hT hF i j a x y b x' y' b' hij hguard hguard' hleft hright => ?_⟩
  · rw [heq]
    exact hemit.le.trans hresults.le
  · rw [heq, unitClosed_append, hemit.clauses] at hF
    have hone := hresults.forced T hT hF.2 ((i, j), a) ((mem_triples _).mpr hij)
    -- a listed implication with held premises sets its result variable
    have hset : ∀ {p : YbeIndex n × Clause}, p ∈ ybeImplications cfg lits d →
        (∀ l ∈ p.2, T (-l)) → r.1.1 p.1 ≠ 0 ∧ T (r.1.1 p.1) := fun {p} hp hpremise =>
      ⟨(hemit.nonzero p.1).mpr (Or.inr ⟨p, hp, rfl⟩),
        hF.1.last (List.mem_map_of_mem hp) hpremise⟩
    obtain ⟨h0, hheld⟩ := hset ((mem_ybeImplications cfg lits d _).mpr
      ⟨i, j, a, x, y, b, hij, Or.inl ⟨hguard, rfl⟩⟩) hleft
    obtain ⟨h0', hheld'⟩ := hset ((mem_ybeImplications cfg lits d _).mpr
      ⟨i, j, a, x', y', b', hij, Or.inr ⟨hguard', rfl⟩⟩) hright
    exact hone.eq hT (by simpa using h0) h0 hheld (by simpa using h0') h0' hheld'

/-- The result variables of every triple have numbers, and propagate. -/
theorem ybeResults_forced (cfg : Config) {T : Int → Prop} (hT : NoClash T)
    (ts : List ((Fin n × Fin n) × Fin n)) (hts : ts.Nodup) (f : YbeIndex n → Int) (k : Int)
    (hk : 0 < k) (hF : UnitClosed T (ybeResults cfg ts f k).2.1) :
    ∀ t ∈ ts, (∀ b, (ybeResults cfg ts f k).1 (t, b) ≠ 0) ∧
      PointForced T (fun b => (ybeResults cfg ts f k).1 (t, b)) (List.finRange n) := by
  induction ts generalizing f k with
  | nil => exact fun t ht => absurd ht List.not_mem_nil
  | cons t rest ih =>
    obtain ⟨hnot, hrest⟩ := List.nodup_cons.mp hts
    have hl : ((List.finRange n).map fun b => (t, b)).Nodup :=
      (List.nodup_finRange n).map fun a b h => by simpa using h
    have hmem : ∀ b, (t, b) ∈ ((List.finRange n).map fun b => (t, b)).filter fun _ => true := by
      simp
    have hrange := fun b => number_range _ _ hl f k _ (hmem b)
    have hinj := fun b c => number_inj _ _ hl f k _ _ (hmem b) (hmem c)
    simp only [ybeResults] at hF ⊢
    generalize number (fun _ => true) ((List.finRange n).map fun b => (t, b)) f k = block at *
    have hone := exactlyOne_map_forces cfg (fun b => block.1 (t, b)) (List.finRange n) block.2
      (List.nodup_finRange n) (fun b c _ h => by simpa using hinj b c h)
      (fun b => by have := hrange b; omega)
    generalize exactlyOne cfg ((List.finRange n).map fun b => block.1 (t, b)) = eo at *
    have hpos : 0 < (eo block.2).2 := by
      have hle := hone.le
      have hb := hrange t.2
      omega
    obtain ⟨hFe, hFr⟩ := unitClosed_append.mp hF
    have hhead := (ybeResults_spec cfg rest hrest block.1 (eo block.2).2 hpos).kept t hnot
    intro t' ht'
    rcases List.mem_cons.mp ht' with rfl | hin
    · simp only [hhead]
      refine ⟨fun b => ?_, hone.forced T hT hFe⟩
      have hb := hrange b
      omega
    · exact ih hrest block.1 (eo block.2).2 hpos hFr t' hin

theorem ybeClausesNewNoDiag_forces (cfg : Config) (lits : MatrixLits n) {k : Int} (hk : 0 < k) :
    (ybeClausesNewNoDiag cfg lits).Forces k (IdentityForced false id lits) := by
  refine ⟨(ybeResults_spec cfg (triples n) (nodup_triples n) (fun _ => 0) k hk).le,
    fun T hT hF i j a x y b x' y' b' hij _ _ hleft hright => ?_⟩
  obtain ⟨hFr, hFi⟩ := unitClosed_append.mp hF
  obtain ⟨h0, hone⟩ := ybeResults_forced cfg hT (triples n) (nodup_triples n) (fun _ => 0) k hk hFr
    ((i, j), a) ((mem_triples _).mpr hij)
  have hlisted : ∀ x y b, (((i, j), a), ((x, y), b)) ∈
      triples n ×ˢ (cells n ×ˢ List.finRange n) := by
    intro x y b
    simp only [mem_nested, mem_triples, mem_cells, List.mem_finRange, and_true]
    exact hij
  apply hone.eq hT (List.mem_finRange b) (h0 b) _ (List.mem_finRange b') (h0 b')
  · exact hFi.last (List.mem_flatMap.mpr ⟨_, hlisted x' y' b', List.mem_cons_of_mem _
      (List.mem_singleton.mpr rfl)⟩) hright
  · exact hFi.last (List.mem_flatMap.mpr ⟨_, hlisted x y b, List.mem_cons_self⟩) hleft

/-- The premises of a side of the identity are held where the variables are those of a table. -/
theorem premise_held (small : Bool) {lits : MatrixLits n} {d : Fin n → Fin n} {T : Int → Prop}
    {M : Fin n → Fin n → Fin n} {keep : Entry n → Bool} {hi : Int} (ht : LitTable lits keep hi)
    (hM : Indicates (heldValuation T) lits M) {i j : Fin n} (hij : i ≠ j) (a : Fin n)
    (hfull : small = false → ∀ e, keep e = true)
    (hsmall : small = true → RowsPermute M ∧ (∀ i, M i i = d i) ∧
      ∀ i j k, i ≠ j → k ≠ d i → keep (i, j, k) = true) :
    (!small || ybeGuard d i a (M i j) (M i a) (M (M i j) (M i a))) = true ∧
      ∀ l ∈ ybePremise small lits i j a (M i j) (M i a) (M (M i j) (M i a)), T (-l) := by
  have hguard : small = true → ybeGuard d i a (M i j) (M i a) (M (M i j) (M i a)) = true := by
    intro hs
    obtain ⟨hrows, hd, -⟩ := hsmall hs
    exact ybeGuard_of_table hrows hd hij a
  refine ⟨by cases small <;> simp [hguard], fun l hl => ?_⟩
  have hlit : l ≠ 0 :=
    (ybePremise_literals (d := d) ht hij hfull (fun hs => ⟨hguard hs, (hsmall hs).2.2⟩) l hl).1
  unfold ybePremise at hl
  have hcell : ∀ {i j : Fin n}, lits i j (M i j) ≠ 0 → T (lits i j (M i j)) := fun h0 =>
    (heldValuation_eq T _).mp ((hM _ _ _ h0).mpr rfl)
  rcases List.mem_append.mp hl with hl | hl
  · rcases List.mem_append.mp hl with hl | hl
    · rw [List.mem_singleton.mp hl] at hlit ⊢
      rw [neg_neg]
      exact hcell (by simpa using hlit)
    · obtain ⟨-, rfl⟩ := (List.mem_ite_nil_right.mp hl).imp_right List.mem_singleton.mp
      rw [neg_neg]
      exact hcell (by simpa using hlit)
  · obtain ⟨-, rfl⟩ := (List.mem_ite_nil_right.mp hl).imp_right List.mem_singleton.mp
    rw [neg_neg]
    exact hcell (by simpa using hlit)

/-! ### Full tables -/

theorem encodeDiagonal_forces (cfg : Config) (d : Fin n → Fin n) {T : Int → Prop} (hT : NoClash T)
    (hF : UnitClosed T (encodeDiagonal cfg d).cnf) :
    EntryForced cfg d (encodeDiagonal cfg d).lits T ∧
      IdentityForced cfg.smallerEncoding d (encodeDiagonal cfg d).lits T := by
  have ht := numberEntries_table (entryKept cfg d)
  have hk := one_le_numberEntries (entryKept cfg d)
  have hentries := entryConstraints_forces cfg d _ ht
  have hle := hentries.le
  exact (hentries.andThen (ybeClausesNew_forces cfg d _ (by omega))).forced T hT hF

theorem encodeNoDiag_forces (cfg : Config) {T : Int → Prop} (hT : NoClash T)
    (hF : UnitClosed T (encodeNoDiag cfg n).cnf) :
    EntryForcedNoDiag (encodeNoDiag cfg n).lits T ∧
      IdentityForced false id (encodeNoDiag cfg n).lits T := by
  have ht := numberEntries_table (n := n) (fun _ => true)
  have hk := one_le_numberEntries (n := n) (fun _ => true)
  have hentries := entryConstraintsNoDiag_forces cfg _ ht
  have hle := hentries.le
  exact (hentries.andThen (ybeClausesNewNoDiag_forces cfg _ (by omega))).forced T hT hF

/-- No full table off the diagonal survives propagation unless it is a cycle set. -/
theorem encodeDiagonal_full (cfg : Config) (d : Fin n → Fin n) (hd : Function.Injective d)
    {T : Int → Prop} (hT : NoClash T) (hF : UnitClosed T (encodeDiagonal cfg d).cnf)
    (hassigned : ∀ i j k, i ≠ j → (encodeDiagonal cfg d).lits i j k ≠ 0 →
      T ((encodeDiagonal cfg d).lits i j k) ∨ T (-(encodeDiagonal cfg d).lits i j k)) :
    ∃ M, HasDiagonal d M ∧ Indicates (heldValuation T) (encodeDiagonal cfg d).lits M := by
  have ht := numberEntries_table (entryKept cfg d)
  obtain ⟨hentry, hidentity⟩ := encodeDiagonal_forces cfg d hT hF
  have hfacts := hentry.facts ht hd hT hassigned
  obtain ⟨M, hrows, hMd, hM⟩ := (entryFacts_iff cfg d hd _ ht _).mp hfacts
  refine ⟨M, ⟨hrows, hMd, cycleIdentity_of_lt fun i j hij a => ?_⟩, hM⟩
  have hpremise : ∀ {i j : Fin n}, i ≠ j → _ := fun {i j} hij =>
    premise_held cfg.smallerEncoding ht hM (i := i) (j := j) hij a
      (fun hs => entryKept_full hs) fun _ => ⟨hrows, hMd, entryKept_offDiagonal cfg d⟩
  obtain ⟨hguard, hleft⟩ := hpremise hij.ne
  obtain ⟨hguard', hright⟩ := hpremise hij.ne'
  exact (hidentity i j a _ _ _ _ _ _ hij hguard hguard' hleft hright).symm

theorem encodeNoDiag_full (cfg : Config) {T : Int → Prop} (hT : NoClash T)
    (hF : UnitClosed T (encodeNoDiag cfg n).cnf)
    (hassigned : ∀ i j k, T ((encodeNoDiag cfg n).lits i j k) ∨
      T (-(encodeNoDiag cfg n).lits i j k)) :
    ∃ M, IsCycleSet M ∧ Indicates (heldValuation T) (encodeNoDiag cfg n).lits M := by
  have ht := numberEntries_table (n := n) (fun _ => true)
  obtain ⟨hentry, hidentity⟩ := encodeNoDiag_forces cfg hT hF
  have hfacts := hentry.facts ht hT hassigned
  obtain ⟨M, hrows, hdiag, hM⟩ := (entryFactsNoDiag_iff _ ht _).mp hfacts
  refine ⟨M, ⟨hrows, hdiag, cycleIdentity_of_lt fun i j hij a => ?_⟩, hM⟩
  have hpremise : ∀ {i j : Fin n}, i ≠ j → _ := fun {i j} hij =>
    premise_held false (d := id) ht hM (i := i) (j := j) hij a
      (fun _ _ => rfl) (by simp)
  obtain ⟨hguard, hleft⟩ := hpremise hij.ne
  obtain ⟨hguard', hright⟩ := hpremise hij.ne'
  exact (hidentity i j a _ _ _ _ _ _ hij hguard hguard' hleft hright).symm

end YbeSms.Source
