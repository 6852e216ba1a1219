import YbeSms.Source.InitialPerm

/-!
# Partial permutations: the two representations

Source: ybe-sms/src/useful.cpp:304-436, 465-575; minCheck_V2.cpp:95-151. Both
representations stand for a set of permutations commuting with the diagonal, and
a fix keeps those with the chosen image. `pperm_plain::fix` splits its cell behind
the fixed point only, so it relies on the point being the first of the cell.
-/

namespace YbeSms.Guarantees

open YbeSms.Library YbeSms.Source Equiv

variable {n : Nat}

/-- The permutation after some calls of `fixAndPropagate`. -/
def afterCalls (m : MinCheck n) (perm : PPerm n) (calls : List (Fin n × Fin n)) : PPerm n :=
  calls.foldl (fun perm c => (m.fixAndPropagate perm c.1 (some c.2)).1) perm

/-- Every call meets a condition on the permutation before it. -/
def Calls (m : MinCheck n) (allowed : PPerm n → Fin n → Fin n → Prop) :
    PPerm n → List (Fin n × Fin n) → Prop
  | _, [] => True
  | perm, c :: rest =>
    allowed perm c.1 c.2 ∧ Calls m allowed (m.fixAndPropagate perm c.1 (some c.2)).1 rest

theorem Calls.congr {m m' : MinCheck n} (hsame : m'.fixAndPropagate = m.fixAndPropagate)
    {allowed : PPerm n → Fin n → Fin n → Prop} {perm : PPerm n} {calls : List (Fin n × Fin n)}
    (h : Calls m allowed perm calls) : Calls m' allowed perm calls := by
  induction calls generalizing perm with
  | nil => trivial
  | cons c rest ih =>
    refine ⟨h.1, ?_⟩
    rw [hsame]
    exact ih h.2

/-- Every call returns true. -/
def Accepted (m : MinCheck n) : PPerm n → List (Fin n × Fin n) → Prop :=
  Calls m fun perm i j => (m.fixAndPropagate perm i (some j)).2 = true

/-- The point is not fixed and the value is one of its options. -/
def Possible (perm : PPerm n) (i j : Fin n) : Prop := perm.fixed i = false ∧ j ∈ perm.options i

section Runs

variable {m : MinCheck n} {d : Perm (Fin n)}

/-- A run of calls at cell starts keeps the permutations with the chosen images. -/
theorem calls_den (hm : Serves m d) {allowed : PPerm n → Fin n → Fin n → Prop} {b : Bool}
    (hallowed : ∀ perm i j, Valid m d perm → isBit perm = b → allowed perm i j →
      perm.fixed i = false ∧ (∃ q ∈ den d perm, q i = j) ∧ AtStart perm i)
    (calls : List (Fin n × Fin n)) {perm : PPerm n} (h : Valid m d perm) (hb : isBit perm = b)
    (hcalls : Calls m allowed perm calls) :
    Accepted m perm calls ∧ Valid m d (afterCalls m perm calls) ∧
      den d (afterCalls m perm calls) = {q ∈ den d perm | ∀ c ∈ calls, q c.1 = c.2} := by
  induction calls generalizing perm with
  | nil => exact ⟨trivial, h, by simp [afterCalls]⟩
  | cons c rest ih =>
    obtain ⟨hfix, hposs, hstart⟩ := hallowed perm c.1 c.2 h hb hcalls.1
    obtain ⟨hok, hvalid, hden⟩ := h.choose hm hfix hposs hstart
    obtain ⟨hacc, hend, hdenend⟩ := ih hvalid
      ((isBit_fixAndPropagate m perm c.1 (some c.2)).trans hb) hcalls.2
    refine ⟨⟨hok, hacc⟩, hend, ?_⟩
    have hunfold : afterCalls m perm (c :: rest) =
        afterCalls m (m.fixAndPropagate perm c.1 (some c.2)).1 rest := rfl
    rw [hunfold, hdenend, hden]
    ext q
    simp only [Set.mem_ofPred_eq, List.forall_mem_cons, and_assoc]

end Runs

theorem atStart_of_isBit {perm : PPerm n} (h : isBit perm = true) (x : Fin n) : AtStart perm x := by
  rintro element part rfl
  cases h

/-- Whatever points are fixed to whichever of their options, every call of a `pperm_bit` succeeds,
and its options are the images under the permutations that commute with the diagonal and agree
with the fixed pairs. `extendPerm` ends with one of them. -/
theorem bit_denotes_centralizer (hn : 1 ≤ n) (m : MinCheck n) (d : Perm (Fin n))
    (hd : ⇑d ∈ diagonals n) (hdiag : m.cfg.diagPart = true) (hmd : m.diag = d)
    (hbit : m.cfg.useBit = true) (calls : List (Fin n × Fin n))
    (hcalls : Calls m Possible (ppermBit d) calls) :
    Accepted m (ppermBit d) calls ∧
    (∀ x y, y ∈ (afterCalls m (ppermBit d) calls).options x ↔
      ∃ p : Perm (Fin n), Commute p d ∧ p x = y ∧ ∀ c ∈ calls, p c.1 = c.2) ∧
    (∀ x, (afterCalls m (ppermBit d) calls).options x ≠ []) ∧
    ∃ r, m.extendPerm (afterCalls m (ppermBit d) calls) = some r ∧
      ∃ p : Perm (Fin n), r.getPerm = some ⇑p ∧ Commute p d ∧ ∀ c ∈ calls, p c.1 = c.2 := by
  have hm : Serves m d := ⟨layered_of_mem hn d hd, fun _ => hmd, fun h => by simp [hdiag] at h⟩
  obtain ⟨hvalid, hden⟩ := valid_initialPart hm
  rw [initialPart_eq hm, hdiag, hbit, Bool.and_self, if_pos rfl] at hvalid hden
  obtain ⟨hacc, hend, hdenend⟩ := calls_den hm (fun perm i j hv hb hp =>
    ⟨hp.1, (hv.mem_options i j).mp hp.2, atStart_of_isBit hb i⟩) calls hvalid rfl hcalls
  rw [hden] at hdenend
  refine ⟨hacc, fun x y => ?_, fun x => ?_, ?_⟩
  · rw [hend.mem_options, hdenend]
    constructor
    · rintro ⟨q, ⟨hq, hall⟩, hqx⟩
      exact ⟨q, hq, hqx, hall⟩
    · rintro ⟨q, hq, hqx, hall⟩
      exact ⟨q, ⟨hq, hall⟩, hqx⟩
  · obtain ⟨q, hq⟩ := hend.exists_mem_den
    exact List.ne_nil_of_mem (hend.mem_options_self hq x)
  · obtain ⟨r, hr, -, hsub, q, hq, hget⟩ := hend.extendPerm hm
    have hqend := hsub hq
    rw [hdenend] at hqend
    exact ⟨r, hr, q, hget, hqend.1, hqend.2⟩

theorem bit_denotes_centralizer_instance :
    ∃ r, MinCheck.extendPerm ⟨{ diagPart := true, useBit := true }, swap 0 1, fun _ _ _ => 0, false⟩
        (afterCalls ⟨{ diagPart := true, useBit := true }, swap 0 1, fun _ _ _ => 0, false⟩
          (ppermBit (swap (0 : Fin 3) 1)) [(0, 1)]) = some r ∧
      ∃ p : Perm (Fin 3), r.getPerm = some ⇑p ∧ Commute p (swap 0 1) ∧
        ∀ c ∈ [((0 : Fin 3), (1 : Fin 3))], p c.1 = c.2 :=
  (bit_denotes_centralizer (by decide)
    ⟨{ diagPart := true, useBit := true }, swap 0 1, fun _ _ _ => 0, false⟩ (swap (0 : Fin 3) 1)
    (by decide) rfl rfl rfl [(0, 1)] ⟨⟨by decide, by decide⟩, trivial⟩).2.2.2

/-! ### Agreement of the representations -/

/-- All queries have the same answers, sets being compared as sets. -/
structure Agree (a b : PPerm n) : Prop where
  fixed : ∀ x, a.fixed x = b.fixed x
  permOf : ∀ x, a.permOf x = b.permOf x
  invPermOf : ∀ y, a.invPermOf y = b.invPermOf y
  options : ∀ x y, y ∈ a.options x ↔ y ∈ b.options x
  invOptions : ∀ y x, x ∈ a.invOptions y ↔ x ∈ b.invOptions y

/-- The next point of a search: the least unfixed one, with one of its options. -/
def IsNext (perm : PPerm n) (i j : Fin n) : Prop :=
  perm.fixed i = false ∧ (∀ k, k < i → perm.fixed k = true) ∧ j ∈ perm.options i

/-- The least point for a value that is not taken. -/
def IsLeast (perm : PPerm n) (i j : Fin n) : Prop :=
  perm.invPermOf j = none ∧ i ∈ perm.invOptions j ∧ ∀ k ∈ perm.invOptions j, i ≤ k

/-- The greatest point for a value that is not taken. -/
def IsGreatest (perm : PPerm n) (i j : Fin n) : Prop :=
  perm.invPermOf j = none ∧ i ∈ perm.invOptions j ∧ ∀ k ∈ perm.invOptions j, k ≤ i

/-- The kinds of calls a search makes. -/
def SearchCall (perm : PPerm n) (i j : Fin n) : Prop :=
  IsNext perm i j ∨ IsLeast perm i j ∨ IsGreatest perm i j

section Agreement

variable {m : MinCheck n} {d : Perm (Fin n)} {a b : PPerm n}

/-- Representations of the same set of permutations agree. -/
theorem agree_of_den (ha : Valid m d a) (hb : Valid m d b) (hden : den d a = den d b) :
    Agree a b := by
  obtain ⟨q, hq⟩ := ha.exists_mem_den
  have hfixed : ∀ x, a.fixed x = b.fixed x := fun x => by
    rw [Bool.eq_iff_iff, ha.fixed_iff hq, hb.fixed_iff (hden ▸ hq), hden]
  refine ⟨hfixed, fun x => ?_, fun y => ?_, fun x y => ?_, fun y x => ?_⟩
  · cases hx : a.fixed x with
    | true => rw [ha.permOf_eq hq hx, hb.permOf_eq (hden ▸ hq) (hfixed x ▸ hx)]
    | false => rw [permOf_eq_none hx, permOf_eq_none (hfixed x ▸ hx)]
  · refine Option.ext fun x => ?_
    rw [ha.invPermOf_eq_some, hb.invPermOf_eq_some, hden]
  · rw [ha.mem_options, hb.mem_options, hden]
  · rw [ha.mem_invOptions, hb.mem_invOptions, hden]

/-- A call of the first two kinds fixes an unfixed point at the start of its cell. -/
theorem settled_of_call (h : Valid m d a) {i j : Fin n} (hcall : IsNext a i j ∨ IsLeast a i j) :
    a.fixed i = false ∧ (∃ q ∈ den d a, q i = j) ∧ AtStart a i := by
  rcases hcall with ⟨hfix, hbefore, hj⟩ | ⟨hfree, hi, hleast⟩
  · exact ⟨hfix, (h.mem_options i j).mp hj, h.atStart_of_fixed_before hbefore⟩
  · exact h.choosable_of_least hfree hi hleast

/-- A search call whose point, where it is the greatest for the value, is also the least. -/
def FirstOfCell (perm : PPerm n) (i j : Fin n) : Prop :=
  SearchCall perm i j ∧ (IsGreatest perm i j → ∀ k ∈ perm.invOptions j, i ≤ k)

theorem FirstOfCell.isNext_or_isLeast {i j : Fin n} (h : FirstOfCell a i j) :
    IsNext a i j ∨ IsLeast a i j := by
  obtain ⟨hnext | hleast | hgreatest, hfirst⟩ := h
  · exact Or.inl hnext
  · exact Or.inr hleast
  · exact Or.inr ⟨hgreatest.1, hgreatest.2.1, hfirst hgreatest⟩

/-- One call on two representations of the same set of permutations. -/
theorem agree_step (hm : Serves m d) (ha : Valid m d a) (hb : Valid m d b) (hbit : isBit b = true)
    (hden : den d a = den d b) {i j : Fin n} (hcall : FirstOfCell a i j) :
    (m.fixAndPropagate a i (some j)).2 = (m.fixAndPropagate b i (some j)).2 ∧
      Valid m d (m.fixAndPropagate a i (some j)).1 ∧
      Valid m d (m.fixAndPropagate b i (some j)).1 ∧
      den d (m.fixAndPropagate a i (some j)).1 = den d (m.fixAndPropagate b i (some j)).1 ∧
      (m.fixAndPropagate a i (some j)).1.permOf i = some j := by
  obtain ⟨hfix, hposs, hstart⟩ := settled_of_call ha hcall.isNext_or_isLeast
  obtain ⟨hoka, hva, hdena⟩ := ha.choose hm hfix hposs hstart
  obtain ⟨hokb, hvb, hdenb⟩ := hb.choose hm ((agree_of_den ha hb hden).fixed i ▸ hfix)
    (hden ▸ hposs) (atStart_of_isBit hbit i)
  refine ⟨hoka.trans hokb.symm, hva, hvb, by rw [hdena, hdenb, hden], ?_⟩
  obtain ⟨q, hq⟩ := hva.exists_mem_den
  have hfixed : (m.fixAndPropagate a i (some j)).1.fixed i = true := by
    rw [hva.fixed_iff hq]
    intro q' hq'
    rw [hdena] at hq hq'
    exact hq'.2.trans hq.2.symm
  rw [hva.permOf_eq hq hfixed]
  rw [hdena] at hq
  rw [hq.2]

/-- The two permutations after some calls stand for the same set. -/
theorem agree_run (hm : Serves m d) (calls : List (Fin n × Fin n)) (ha : Valid m d a)
    (hb : Valid m d b) (hbit : isBit b = true) (hden : den d a = den d b)
    (hcalls : Calls m FirstOfCell a calls) {before after : List (Fin n × Fin n)}
    {c : Fin n × Fin n} (hsplit : calls = before ++ c :: after) :
    (m.fixAndPropagate (afterCalls m a before) c.1 (some c.2)).2 =
        (m.fixAndPropagate (afterCalls m b before) c.1 (some c.2)).2 ∧
      Agree (afterCalls m a (before ++ [c])) (afterCalls m b (before ++ [c])) ∧
      (afterCalls m a (before ++ [c])).permOf c.1 = some c.2 := by
  induction before generalizing calls a b with
  | nil =>
    rw [hsplit] at hcalls
    obtain ⟨hres, hva, hvb, hden', himage⟩ := agree_step hm ha hb hbit hden hcalls.1
    exact ⟨hres, agree_of_den hva hvb hden', himage⟩
  | cons e rest ih =>
    rw [hsplit] at hcalls
    obtain ⟨-, hva, hvb, hden', -⟩ := agree_step hm ha hb hbit hden hcalls.1
    exact ih (rest ++ c :: after) hva hvb ((isBit_fixAndPropagate m b e.1 (some e.2)).trans hbit)
      hden' hcalls.2 rfl

end Agreement

/-- As long as no call takes the greatest of several points for a value, the two representations
return the same and answer every query alike after every call, and the image just chosen is
fixed. -/
theorem representations_agree (hn : 2 ≤ n) (m : MinCheck n) (d : Perm (Fin n))
    (hd : ⇑d ∈ diagonals n) (hdiag : m.cfg.diagPart = true) (hmd : m.diag = d)
    (calls : List (Fin n × Fin n)) (hcalls : Calls m FirstOfCell (ppermPlain d) calls) :
    ∀ before c after, calls = before ++ c :: after →
      (m.fixAndPropagate (afterCalls m (ppermPlain d) before) c.1 (some c.2)).2 =
          (m.fixAndPropagate (afterCalls m (ppermBit d) before) c.1 (some c.2)).2 ∧
        Agree (afterCalls m (ppermPlain d) (before ++ [c]))
          (afterCalls m (ppermBit d) (before ++ [c])) ∧
        (afterCalls m (ppermPlain d) (before ++ [c])).permOf c.1 = some c.2 := by
  intro before c after hsplit
  have hlayered : Layered d := layered_of_mem (by omega) d hd
  -- which representation is asked for does not matter to `fixAndPropagate`
  let m' : MinCheck n := { m with cfg := { m.cfg with useBit := true } }
  have hm : Serves m' d := ⟨hlayered, fun _ => hmd, fun h => by simp [m', hdiag] at h⟩
  have hplain := stands_ppermPlain hlayered
  have hbit := stands_ppermBit hlayered
  have hva : Valid m' d (ppermPlain d) := ⟨fun _ => rfl, ∅, 1, hplain⟩
  have hvb : Valid m' d (ppermBit d) := ⟨fun _ => rfl, ∅, 1, hbit⟩
  exact agree_run hm calls hva hvb rfl (hplain.den_eq.trans hbit.den_eq.symm)
    (Calls.congr (show m'.fixAndPropagate = m.fixAndPropagate from rfl) hcalls) hsplit

private def identityOfTwo : MinCheck 2 := ⟨{ diagPart := true }, id, fun _ _ _ => 0, false⟩

/-- The greatest of the two points that can take the value 0: `pperm_plain` does not fix it. -/
theorem representations_disagree :
    SearchCall (ppermPlain (id : Fin 2 → Fin 2)) 1 0 ∧
    SearchCall (ppermBit (id : Fin 2 → Fin 2)) 1 0 ∧
    (identityOfTwo.fixAndPropagate (ppermPlain id) 1 (some 0)).1.permOf 1 = none ∧
    (identityOfTwo.fixAndPropagate (ppermBit id) 1 (some 0)).1.permOf 1 = some 0 :=
  ⟨Or.inr (Or.inr ⟨by decide, by decide, by decide⟩),
    Or.inr (Or.inr ⟨by decide, by decide, by decide⟩), by decide, by decide⟩

private def withDiagonal (d : Perm (Fin n)) : MinCheck n :=
  ⟨{ diagPart := true }, d, fun _ _ _ => 0, false⟩

/-- The first of two pairs is sent to the second, and then the second to the first, turned. -/
theorem representations_agree_instance : ∃ d : Perm (Fin 4), d = swap 0 1 * swap 2 3 ∧
    Agree (afterCalls (withDiagonal d) (ppermPlain d) ([(0, 2)] ++ [(2, 1)]))
      (afterCalls (withDiagonal d) (ppermBit d) ([(0, 2)] ++ [(2, 1)])) := by
  refine ⟨swap 0 1 * swap 2 3, rfl, ?_⟩
  have hfirst : FirstOfCell (ppermPlain ⇑(swap 0 1 * swap 2 3 : Perm (Fin 4))) 0 2 :=
    ⟨Or.inl ⟨by decide +kernel, by decide +kernel, by decide +kernel⟩, fun _ k _ => Fin.zero_le k⟩
  have hsecond : FirstOfCell (afterCalls (withDiagonal (swap 0 1 * swap 2 3))
      (ppermPlain ⇑(swap 0 1 * swap 2 3 : Perm (Fin 4))) [(0, 2)]) 2 1 :=
    ⟨Or.inl ⟨by decide +kernel, by decide +kernel, by decide +kernel⟩,
      fun h => absurd (h.2.2 3 (by decide +kernel)) (by decide)⟩
  exact (representations_agree (by decide) (withDiagonal (swap 0 1 * swap 2 3)) _
    (by decide +kernel) rfl rfl [(0, 2), (2, 1)] ⟨hfirst, hsecond, trivial⟩ [(0, 2)] (2, 1) []
    rfl).2.1

end YbeSms.Guarantees
