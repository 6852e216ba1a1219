import YbeSms.Guarantees.ClausesAccounted
import YbeSms.Guarantees.CompleteRuns

/-!
# The callbacks refine the queue

Source: ybe-sms/src/solveCadicalClass.hpp:99-104, 259-397; solveGeneral.cpp:12-183. The
queue was modelled with the clauses of each call given from outside. Here they are
those that the checks throw and those against written tables: whatever the solver
does, the callbacks of a run are calls of the queue in their order, with the same
answers, and what it has learned or keeps as reasons is what left the queue.
-/

namespace YbeSms.Source

open YbeSms.Library YbeSms.Abstract

variable {n : Nat}

/-- A callback of a run with the interface around it and its answer. -/
structure Turn (n : Nat) where
  before : Interface n
  callback : Callback
  answer : Int
  after : Interface n

/-- The callbacks that the queue answers. -/
def Callback.OnQueue : Callback → Prop
  | .decide => False
  | .checkFoundModel => False
  | _ => True

/-- The runs with their callbacks, the first one first. -/
inductive System.History (s : Session n) (before : Bool) : List (Turn n) → System n → Prop
  | initial : History s before [] (start s)
  | callback {turns : List (Turn n)} {σ : System n} (h : History s before turns σ) (c : Callback)
      (hallowed : σ.Allowed s (.callback c)) {x : Interface n} {answer : Int}
      (hstep : σ.interface.step s before c = some (x, answer)) :
      History s before (turns ++ [⟨σ.interface, c, answer, x⟩]) (σ.receive c x answer)
  | answer {turns : List (Turn n)} {σ σ' : System n} (h : History s before turns σ) (result : Int)
      (hallowed : σ.Allowed s (.answer result))
      (hstep : σ.step s before (.answer result) = some σ') : History s before turns σ'

theorem System.Reaches.exists_history {s : Session n} {before : Bool} {σ : System n}
    (h : Reaches s before σ) : ∃ turns, History s before turns σ := by
  induction h with
  | initial => exact ⟨[], .initial⟩
  | step m _ hallowed hstep ih =>
    obtain ⟨turns, hturns⟩ := ih
    cases m with
    | answer result => exact ⟨turns, hturns.answer result hallowed hstep⟩
    | callback c =>
      obtain ⟨⟨x, answer⟩, hx, rfl⟩ := Option.map_eq_some_iff.mp hstep
      exact ⟨_, hturns.callback c hallowed hx⟩

namespace Interface

section

variable (s : Session n) (before : Bool) (x : Interface n)

/-- What a check adds: the clause it throws, or the one against the table that it writes. -/
def hands (isFinal : Bool) : List Clause :=
  match ((s.mincheck before).run x.current (x.current.fullDefined || isFinal)).result with
  | .error (.clause clause) => [clause]
  | _ =>
    if (x.current.fullDefined || isFinal) && s.cfg.allModels then [excludeCurrent s x.current]
    else []

/-- The calls of the queue that a callback makes. -/
def calls (c : Callback) : List Call :=
  match c with
  | .notify e => [.notify e]
  | .propagate timeUp _ =>
    [.propagate timeUp (if x.searches s c then x.hands s before false else [])]
  | .hasExternalClause _ =>
    [.hasExternalClause (if x.searches s c then x.hands s before false else [])]
  | .addExternalClauseLit => [.addExternalClauseLit]
  | .addReasonClauseLit plit => [.addReasonClauseLit plit]
  | .decide => []
  | .checkFoundModel =>
    if x.queue.clauses.isEmpty then (x.hands s before true).map .addClause else []

/-- The clause is thrown by a search, or it is the one against the table that is written. -/
def Sourced (x' : Interface n) (clause : Clause) : Prop :=
  (∃ isFinal, ((s.mincheck before).run x.current isFinal).result = .error (.clause clause)) ∨
  (clause = excludeCurrent s x.current ∧
    x'.output = x.output ++ [⟨x.nModels + 1, x.current.matrix⟩])

end

variable {s : Session n} {before : Bool} {x x' : Interface n}

theorem hands_of_clause {isFinal : Bool} {clause : Clause}
    (h : ((s.mincheck before).run x.current (x.current.fullDefined || isFinal)).result =
      .error (.clause clause)) : x.hands s before isFinal = [clause] := by
  simp only [hands, h]

theorem hands_of_none {isFinal : Bool}
    (h : ∀ clause, ((s.mincheck before).run x.current (x.current.fullDefined || isFinal)).result ≠
      .error (.clause clause)) : x.hands s before isFinal =
    if (x.current.fullDefined || isFinal) && s.cfg.allModels then [excludeCurrent s x.current]
    else [] := by
  unfold hands
  split
  next clause hrun => exact absurd hrun (h clause)
  next => rfl

/-- What a check in the propagator adds, and where it comes from. -/
theorem checkMin_hands {res : Bool} (h : x.checkMin s before false = some (x', res)) :
    x'.queue = (x.hands s before false).foldl ClauseQueue.addClause x.queue ∧
      ∀ clause ∈ x.hands s before false, Sourced s before x x' clause := by
  rcases checkMin_cases h with
    ⟨clause, hrun, rfl, -⟩ | ⟨hnone, ⟨hfull, hall, rfl, -⟩ | ⟨hno, rfl, -⟩⟩
  · rw [hands_of_clause hrun]
    refine ⟨rfl, fun c hc => Or.inl ⟨x.current.fullDefined || false, ?_⟩⟩
    rw [List.mem_singleton.mp hc]
    exact hrun
  · rw [hands_of_none hnone, if_pos (by simp [hfull, hall])]
    exact ⟨rfl, fun c hc => Or.inr ⟨List.mem_singleton.mp hc, rfl⟩⟩
  · rw [hands_of_none hnone, if_neg (by simpa using hno)]
    exact ⟨rfl, fun c hc => absurd hc List.not_mem_nil⟩

/-- What the check of a found model adds, and where it comes from. -/
theorem check_hands {res : Bool} (h : x.check s before = some (x', res)) :
    x'.queue = (x.hands s before true).foldl ClauseQueue.addClause x.queue ∧
      ∀ clause ∈ x.hands s before true, Sourced s before x x' clause := by
  rcases check_cases h with ⟨clause, hrun, rfl, -⟩ | ⟨hnone, ⟨hall, rfl, -⟩ | ⟨hno, rfl, -⟩⟩
  · rw [← Bool.or_true x.current.fullDefined] at hrun
    rw [hands_of_clause hrun]
    refine ⟨rfl, fun c hc => Or.inl ⟨x.current.fullDefined || true, ?_⟩⟩
    rw [List.mem_singleton.mp hc]
    exact hrun
  · rw [← Bool.or_true x.current.fullDefined] at hnone
    rw [hands_of_none hnone, if_pos (by simp [hall])]
    exact ⟨rfl, fun c hc => Or.inr ⟨List.mem_singleton.mp hc, rfl⟩⟩
  · rw [← Bool.or_true x.current.fullDefined] at hnone
    rw [hands_of_none hnone, if_neg (by simp [hno])]
    exact ⟨rfl, fun c hc => absurd hc List.not_mem_nil⟩

/-- `propagate` of the common interface in a callback that may search. -/
theorem propagate_hands {drawn : Bool} (h : x.propagate s before drawn = some x') :
    x'.queue = (if drawn && s.cfg.checkSolutionInProp then x.hands s before false else []).foldl
        ClauseQueue.addClause x.queue ∧
      ∀ clause ∈ if drawn && s.cfg.checkSolutionInProp then x.hands s before false else [],
        Sourced s before x x' clause := by
  unfold propagate at h
  split at h
  next hsearch =>
    obtain ⟨⟨y, res⟩, hcheck, rfl⟩ := Option.map_eq_some_iff.mp h
    rw [if_pos hsearch]
    exact checkMin_hands hcheck
  next hsearch =>
    cases h
    rw [if_neg hsearch]
    exact ⟨rfl, fun c hc => absurd hc List.not_mem_nil⟩

/-- `cb_propagate` is one call of the queue. -/
theorem step_propagate_calls {timeUp drawn : Bool} {answer : Int}
    (h : x.step s before (.propagate timeUp drawn) = some (x', answer)) :
    ∃ found, x.calls s before (.propagate timeUp drawn) = [.propagate timeUp found] ∧
      x.queue.step s.cfg s.table (.propagate timeUp found) = some (x'.queue, answer) ∧
      ∀ clause ∈ found, Sourced s before x x' clause := by
  refine ⟨_, rfl, ?_⟩
  simp only [step] at h
  split at h
  next hquiet =>
    cases h
    have hno : x.searches s (.propagate timeUp drawn) = false := by
      simp only [searches, hquiet, Bool.not_true, Bool.and_false]
    rw [hno]
    exact ⟨by simp only [ClauseQueue.step, hquiet, if_true], fun c hc => absurd hc List.not_mem_nil⟩
  next hlooks =>
    cases hpropagate : x.propagate s before drawn with
    | none =>
      rw [hpropagate] at h
      cases h
    | some y =>
      rw [hpropagate] at h
      obtain ⟨⟨q, u⟩, hlast, heq⟩ := Option.map_eq_some_iff.mp h
      cases heq
      have hsearches : x.searches s (.propagate timeUp drawn) =
          (drawn && s.cfg.checkSolutionInProp) := by
        simp only [searches, Bool.eq_false_iff.mpr hlooks, Bool.not_false, Bool.and_true]
      obtain ⟨hqueue, hsourced⟩ := propagate_hands hpropagate
      rw [hsearches]
      refine ⟨?_, hsourced⟩
      have hpasses : ∀ found, x.queue.passes s.cfg (.propagate timeUp found) = found := by
        intro found
        simp only [Bool.or_eq_true, Bool.not_eq_true', not_or, Bool.not_eq_true,
          Bool.not_eq_false] at hlooks
        simp [ClauseQueue.passes, hlooks]
      simp only [ClauseQueue.step, hpasses, if_neg hlooks, ← hqueue]
      exact hlast

/-- `cb_has_external_clause` is one call of the queue; it clears the flag first, which no check
reads. -/
theorem step_hasExternalClause_calls {drawn : Bool} {answer : Int}
    (h : x.step s before (.hasExternalClause drawn) = some (x', answer)) :
    ∃ found, x.calls s before (.hasExternalClause drawn) = [.hasExternalClause found] ∧
      x.queue.step s.cfg s.table (.hasExternalClause found) = some (x'.queue, answer) ∧
      ∀ clause ∈ found, Sourced s before x x' clause := by
  refine ⟨_, rfl, ?_⟩
  simp only [step] at h
  split at h
  next hlooks =>
    obtain ⟨y, hpropagate, heq⟩ := Option.map_eq_some_iff.mp h
    cases heq
    have hsearches : x.searches s (.hasExternalClause drawn) =
        (drawn && s.cfg.checkSolutionInProp) := by
      simp only [searches, hlooks, Bool.and_true]
    obtain ⟨hqueue, hsourced⟩ := propagate_hands hpropagate
    rw [hsearches]
    refine ⟨?_, hsourced⟩
    have hpasses : ∀ found, x.queue.passes s.cfg (.hasExternalClause found) = found := by
      intro found
      simp [ClauseQueue.passes, hlooks]
    rw [Guarantees.foldl_addClause] at hqueue
    simp only [ClauseQueue.step, hpasses, hlooks, if_true, Guarantees.foldl_addClause, hqueue]
    rfl
  next hlooks =>
    cases h
    have hno : x.searches s (.hasExternalClause drawn) = false := by
      simp only [searches, Bool.eq_false_iff.mpr hlooks, Bool.and_false]
    rw [hno]
    refine ⟨?_, fun c hc => absurd hc List.not_mem_nil⟩
    simp only [ClauseQueue.step, ClauseQueue.passes, hlooks]
    rfl

end Interface

end YbeSms.Source

namespace YbeSms.Guarantees

open YbeSms.Library YbeSms.Abstract YbeSms.Source

variable {n : Nat}

section Moments

variable {cfg : Config} {table : List (Option (Entry n))}

theorem moments_concat {q q' : ClauseQueue n} {calls : List Call} {ms : List (Moment n)}
    (h : moments cfg table q calls = some ms) {call : Call} {answer : Int}
    (hstep : (finalQueue q ms).step cfg table call = some (q', answer)) :
    moments cfg table q (calls ++ [call]) =
      some (ms ++ [⟨finalQueue q ms, call, answer, q'⟩]) := by
  induction calls generalizing q ms with
  | nil =>
    obtain rfl : [] = ms := by simpa [moments] using h
    rw [finalQueue] at hstep
    simp [moments, hstep, finalQueue]
  | cons first rest ih =>
    obtain ⟨q₁, a, ms', hfirst, hrest, rfl⟩ := moments_cons h
    have hlast := ih hrest hstep
    simp only [List.cons_append, moments, hfirst, hlast, Option.map_some, finalQueue]

theorem finalQueue_concat (q : ClauseQueue n) (ms : List (Moment n)) (m : Moment n) :
    finalQueue q (ms ++ [m]) = m.after := by
  induction ms generalizing q with
  | nil => rfl
  | cons first rest ih => exact ih first.after

theorem disciplined_concat {a : Account n} {ms : List (Moment n)} {m : Moment n}
    (h : Disciplined cfg a ms) (hm : (ms.foldl (Account.record cfg) a).allows m.call = true) :
    Disciplined cfg a (ms ++ [m]) := by
  induction ms generalizing a with
  | nil => exact ⟨hm, trivial⟩
  | cons first rest ih => exact ⟨h.1, ih h.2 hm⟩

end Moments

/-- The queue's account of a run is that of the solver. -/
structure Shadows (s : Session n) (σ : System n) (ms : List (Moment n)) : Prop where
  run : moments s.cfg s.table (ClauseQueue.init s.cfg s.d s.firstRow) (ms.map (·.call)) = some ms
  queue : finalQueue (ClauseQueue.init s.cfg s.d s.firstRow) ms = σ.interface.queue
  disciplined : Disciplined s.cfg (Account.start n) ms
  reading : (finalAccount s.cfg ms).reading =
    if σ.reading = [] then none else some σ.reading.reverse
  learned : (finalAccount s.cfg ms).streamed = σ.learned.reverse
  lent : (finalAccount s.cfg ms).removed.map Removal.clause = σ.lent.reverse

section Step

variable {s : Session n} {before : Bool} {σ σ' : System n} {ms : List (Moment n)}

/-- One call more. -/
theorem Shadows.call (h : Shadows s σ ms) {call : Call} {answer : Int} {q : ClauseQueue n}
    (hstep : σ.interface.queue.step s.cfg s.table call = some (q, answer))
    (hallows : (finalAccount s.cfg ms).allows call = true) (hqueue : q = σ'.interface.queue)
    (hreading : ((finalAccount s.cfg ms).record s.cfg
        ⟨σ.interface.queue, call, answer, q⟩).reading =
      if σ'.reading = [] then none else some σ'.reading.reverse)
    (hlearned : ((finalAccount s.cfg ms).record s.cfg
        ⟨σ.interface.queue, call, answer, q⟩).streamed = σ'.learned.reverse)
    (hlent : ((finalAccount s.cfg ms).record s.cfg
        ⟨σ.interface.queue, call, answer, q⟩).removed.map Removal.clause = σ'.lent.reverse) :
    Shadows s σ' (ms ++ [⟨σ.interface.queue, call, answer, q⟩]) := by
  have haccount : finalAccount s.cfg (ms ++ [⟨σ.interface.queue, call, answer, q⟩]) =
      (finalAccount s.cfg ms).record s.cfg ⟨σ.interface.queue, call, answer, q⟩ := by
    simp [finalAccount, List.foldl_append]
  constructor
  · rw [← h.queue] at hstep ⊢
    rw [List.map_append]
    exact moments_concat h.run hstep
  · rw [finalQueue_concat]
    exact hqueue
  · exact disciplined_concat h.disciplined hallows
  · rw [haccount, hreading]
  · rw [haccount, hlearned]
  · rw [haccount, hlent]

/-- A call that neither reads a clause nor takes one out leaves the books of the solver. -/
theorem Shadows.quiet (h : Shadows s σ ms) {call : Call} {answer : Int} {q : ClauseQueue n}
    (hstep : σ.interface.queue.step s.cfg s.table call = some (q, answer))
    (hallows : (finalAccount s.cfg ms).allows call = true) (hread : call ≠ .addExternalClauseLit)
    (hkeep : removal? ⟨σ.interface.queue, call, answer, q⟩ = none)
    (hqueue : q = σ'.interface.queue) (hreading : σ'.reading = σ.reading)
    (hlearned : σ'.learned = σ.learned) (hlent : σ'.lent = σ.lent) :
    Shadows s σ' (ms ++ [⟨σ.interface.queue, call, answer, q⟩]) := by
  apply h.call hstep hallows hqueue
  · rw [record_quiet s.cfg _ _ hread hkeep, hreading]
    exact h.reading
  · rw [record_quiet s.cfg _ _ hread hkeep, hlearned]
    exact h.learned
  · rw [record_quiet s.cfg _ _ hread hkeep, hlent]
    exact h.lent

theorem Shadows.allows (h : Shadows s σ ms) (hreading : σ.reading = []) (call : Call) :
    (finalAccount s.cfg ms).allows call = true := by
  have hnone : (finalAccount s.cfg ms).reading = none := by
    rw [h.reading, if_pos hreading]
  cases call <;> simp [Account.allows, hnone]

/-- Clauses passed one by one outside the other calls. -/
theorem Shadows.adds (h : Shadows s σ ms) (hreading : σ.reading = []) (found : List Clause)
    (hqueue : σ'.interface.queue = found.foldl ClauseQueue.addClause σ.interface.queue)
    (hsame : σ'.reading = σ.reading) (hlearned : σ'.learned = σ.learned)
    (hlent : σ'.lent = σ.lent) :
    ∃ part : List (Moment n), part.map (·.call) = found.map .addClause ∧
      Shadows s σ' (ms ++ part) := by
  induction found generalizing σ ms with
  | nil =>
    rw [List.foldl_nil] at hqueue
    refine ⟨[], rfl, ?_⟩
    rw [List.append_nil]
    exact ⟨h.run, h.queue.trans hqueue.symm, h.disciplined, by rw [hsame]; exact h.reading,
      by rw [hlearned]; exact h.learned, by rw [hlent]; exact h.lent⟩
  | cons clause rest ih =>
    let σ₁ : System n := { σ with interface := { σ.interface with
      queue := σ.interface.queue.addClause clause } }
    have hcall : σ.interface.queue.step s.cfg s.table (.addClause clause) =
        some (σ₁.interface.queue, 0) := rfl
    have hnext : Shadows s σ₁ (ms ++ [⟨σ.interface.queue, .addClause clause, 0,
        σ₁.interface.queue⟩]) :=
      h.quiet hcall (h.allows hreading _) (by simp) rfl rfl rfl rfl rfl
    obtain ⟨part, hcalls, hpart⟩ := ih hnext hreading hqueue hsame hlearned hlent
    refine ⟨⟨σ.interface.queue, .addClause clause, 0, σ₁.interface.queue⟩ :: part, ?_, ?_⟩
    · rw [List.map_cons, hcalls]
      rfl
    · rw [List.append_cons]
      exact hpart

end Step

/-- The moments of the queue that a callback takes: its calls, with its answer, and the clauses
that are passed come from the checks. -/
structure Renders (s : Session n) (before : Bool) (t : Turn n) (part : List (Moment n)) :
    Prop where
  calls : part.map (·.call) = t.before.calls s before t.callback
  answers : t.callback.OnQueue → part.map (·.answer) = [t.answer]
  sources : ∀ m ∈ part, ∀ clause ∈ m.before.passes s.cfg m.call,
    Interface.Sourced s before t.before t.after clause

section Step

variable {s : Session n} {before : Bool} {σ : System n} {ms : List (Moment n)}

theorem renders_one {x : Interface n} {c : Callback} {call : Call} {answer : Int}
    {q : ClauseQueue n}
    (hcalls : σ.interface.calls s before c = [call])
    (hsources : ∀ clause ∈ σ.interface.queue.passes s.cfg call,
      Interface.Sourced s before σ.interface x clause) :
    Renders s before ⟨σ.interface, c, answer, x⟩ [⟨σ.interface.queue, call, answer, q⟩] where
  calls := hcalls.symm
  answers _ := rfl
  sources _ hm := by
    rw [List.mem_singleton.mp hm]
    exact hsources

theorem renders_none {x : Interface n} {c : Callback} {answer : Int}
    (hcalls : σ.interface.calls s before c = []) (hoff : ¬ c.OnQueue) :
    Renders s before ⟨σ.interface, c, answer, x⟩ [] :=
  ⟨hcalls.symm, fun hon => absurd hon hoff, fun _ hm => absurd hm List.not_mem_nil⟩

/-- Step lemma: a callback is the calls that the queue takes. -/
theorem Shadows.callback (h : Shadows s σ ms) {c : Callback} (hallowed : σ.Allowed s (.callback c))
    {x : Interface n} {answer : Int} (hx : σ.interface.step s before c = some (x, answer)) :
    ∃ part, Renders s before ⟨σ.interface, c, answer, x⟩ part ∧
      Shadows s (σ.receive c x answer) (ms ++ part) := by
  have hnopass : ∀ {call : Call} {P : Clause → Prop}, σ.interface.queue.passes s.cfg call = [] →
      ∀ clause ∈ σ.interface.queue.passes s.cfg call, P clause := by
    intro call P hnone clause hc
    rw [hnone] at hc
    cases hc
  cases c with
  | notify e =>
    cases hx
    have hcall : σ.interface.queue.step s.cfg s.table (.notify e) =
        some ({ σ.interface.queue with
          propagator := σ.interface.queue.propagator.notify s.table e }, 0) := rfl
    exact ⟨_, renders_one rfl (hnopass rfl), h.quiet hcall rfl (by simp) rfl rfl rfl rfl rfl⟩
  | decide =>
    cases hx
    obtain ⟨part, hcalls, hpart⟩ := h.adds hallowed.2.2 [] rfl rfl rfl rfl
    obtain rfl : part = [] := by simpa using hcalls
    exact ⟨[], renders_none rfl id, hpart⟩
  | addReasonClauseLit plit =>
    obtain ⟨⟨q, u⟩, hcall, heq⟩ := Option.map_eq_some_iff.mp hx
    cases heq
    exact ⟨_, renders_one rfl (hnopass rfl),
      h.quiet hcall (h.allows hallowed.2 _) (by simp) rfl rfl rfl rfl rfl⟩
  | hasExternalClause drawn =>
    obtain ⟨found, hcalls, hcall, hsourced⟩ := Interface.step_hasExternalClause_calls hx
    refine ⟨_, renders_one hcalls fun clause hc => hsourced clause ?_,
      h.quiet hcall (h.allows hallowed.2.1 _) (by simp) rfl rfl rfl rfl rfl⟩
    simp only [ClauseQueue.passes] at hc
    split at hc
    · exact hc
    · cases hc
  | checkFoundModel =>
    simp only [Interface.step] at hx
    split at hx
    next hempty =>
      obtain ⟨⟨y, res⟩, hcheck, heq⟩ := Option.map_eq_some_iff.mp hx
      cases heq
      obtain ⟨hqueue, hsourced⟩ := Interface.check_hands hcheck
      have hadds : ∃ part : List (Moment n),
          part.map (·.call) = (σ.interface.hands s before true).map .addClause ∧
          Shadows s (σ.receive .checkFoundModel y (if res = true then 1 else 0)) (ms ++ part) :=
        h.adds hallowed.2.1 _ hqueue rfl rfl rfl
      obtain ⟨part, hcalls, hpart⟩ := hadds
      refine ⟨part, ⟨?_, fun hon => hon.elim, fun m hm clause hc => hsourced clause ?_⟩, hpart⟩
      · simp only [Interface.calls, hempty, if_true, hcalls]
      · have hmem : m.call ∈ part.map (·.call) := List.mem_map_of_mem hm
        rw [hcalls] at hmem
        obtain ⟨clause', hclause', heq⟩ := List.mem_map.mp hmem
        rw [← heq] at hc
        rw [List.mem_singleton.mp hc]
        exact hclause'
    next hsome =>
      cases hx
      have hadds : ∃ part : List (Moment n), part.map (·.call) = [].map .addClause ∧
          Shadows s (σ.receive .checkFoundModel σ.interface 0) (ms ++ part) :=
        h.adds hallowed.2.1 [] rfl rfl rfl rfl
      obtain ⟨part, hcalls, hpart⟩ := hadds
      obtain rfl : part = [] := by simpa using hcalls
      refine ⟨[], renders_none ?_ id, hpart⟩
      simp only [Interface.calls, hsome, Bool.false_eq_true, if_false]
  | propagate timeUp drawn =>
    obtain ⟨found, hcalls, hcall, hsourced⟩ := Interface.step_propagate_calls hx
    have hreading : σ.reading = [] := hallowed.2.1.2
    refine ⟨_, renders_one hcalls fun clause hc => hsourced clause ?_,
      h.call hcall (h.allows hreading _) rfl ?_ ?_ ?_⟩
    · simp only [ClauseQueue.passes] at hc
      split at hc
      · exact hc
      · cases hc
    · rw [record_other s.cfg _ _ (by simp)]
      exact h.reading
    · rw [record_other s.cfg _ _ (by simp)]
      exact h.learned
    · rw [record_other s.cfg _ _ (by simp), List.map_append, h.lent]
      by_cases hanswer : answer = 0
      · simp [removal?, System.receive, hanswer]
      · simp [removal?, System.receive, hanswer]
  | addExternalClauseLit =>
    obtain ⟨⟨q, u⟩, hcall, heq⟩ := Option.map_eq_some_iff.mp hx
    cases heq
    have hread : (finalAccount s.cfg ms).reading.getD [] = σ.reading.reverse := by
      rw [h.reading]
      by_cases hempty : σ.reading = []
      · simp [hempty]
      · simp [hempty]
    refine ⟨[⟨σ.interface.queue, .addExternalClauseLit, u, q⟩],
      renders_one rfl (hnopass rfl), ?_⟩
    by_cases hanswer : u = 0
    · refine h.call hcall rfl ?_ ?_ ?_ ?_
      · simp [System.receive, hanswer]
      · simp [Account.record, System.receive, hanswer]
      · simp [Account.record, System.receive, hanswer, hread, h.learned]
      · simpa [Account.record, removal?, System.receive, hanswer] using h.lent
    · refine h.call hcall rfl ?_ ?_ ?_ ?_
      · simp [System.receive, hanswer]
      · simp [Account.record, System.receive, hanswer, hread]
      · simpa [Account.record, System.receive, hanswer] using h.learned
      · simpa [Account.record, removal?, System.receive, hanswer] using h.lent

/-- The answer of `solve` leaves the queue. -/
theorem Shadows.answer {σ' : System n} (h : Shadows s σ ms) {result : Int}
    (hstep : σ.step s before (.answer result) = some σ') : Shadows s σ' ms := by
  have hsame : σ'.interface = σ.interface ∧ σ'.reading = σ.reading ∧ σ'.learned = σ.learned ∧
      σ'.lent = σ.lent := by
    simp only [System.step, Option.some.injEq] at hstep
    subst hstep
    split <;> exact ⟨rfl, rfl, rfl, rfl⟩
  obtain ⟨hinterface, hreading, hlearned, hlent⟩ := hsame
  exact ⟨h.run, by rw [hinterface]; exact h.queue, h.disciplined, by rw [hreading]; exact h.reading,
    by rw [hlearned]; exact h.learned, by rw [hlent]; exact h.lent⟩

end Step

theorem shadows_start (s : Session n) : Shadows s (System.start s) [] where
  run := rfl
  queue := rfl
  disciplined := trivial
  reading := rfl
  learned := rfl
  lent := rfl

/-- Run lemma: the callbacks one after the other. -/
theorem shadows_of_history {s : Session n} {before : Bool} {turns : List (Turn n)} {σ : System n}
    (h : System.History s before turns σ) :
    ∃ parts : List (List (Moment n)), List.Forall₂ (Renders s before) turns parts ∧
      Shadows s σ parts.flatten := by
  induction h with
  | initial => exact ⟨[], .nil, shadows_start s⟩
  | callback h c hallowed hstep ih =>
    obtain ⟨parts, hparts, hshadows⟩ := ih
    obtain ⟨part, hpart, hnext⟩ := hshadows.callback hallowed hstep
    refine ⟨parts ++ [part], List.rel_append hparts (.cons hpart .nil), ?_⟩
    rw [List.flatten_append, List.flatten_singleton]
    exact hnext
  | answer h result hallowed hstep ih =>
    obtain ⟨parts, hparts, hshadows⟩ := ih
    exact ⟨parts, hparts, hshadows.answer hstep⟩

theorem calls_of_renders {s : Session n} {before : Bool} {turns : List (Turn n)}
    {parts : List (List (Moment n))} (h : List.Forall₂ (Renders s before) turns parts) :
    parts.flatten.map (·.call) = turns.flatMap fun t => t.before.calls s before t.callback := by
  induction h with
  | nil => rfl
  | cons hpart _ ih => rw [List.flatten_cons, List.map_append, List.flatMap_cons, hpart.calls, ih]

/-- Under all settings, and whatever the solver does: the callbacks of a run are calls of the
queue, in the same order and with the same answers, and the clauses of a call are those that the
checks throw and those against written tables; what was read to its end is what the solver has
learned, and what was taken out is what it keeps as reasons. -/
theorem run_refines_queue (s : Session n) (before : Bool) (turns : List (Turn n)) (σ : System n)
    (h : System.History s before turns σ) :
    ∃ parts : List (List (Moment n)), List.Forall₂ (Renders s before) turns parts ∧
      moments s.cfg s.table (ClauseQueue.init s.cfg s.d s.firstRow)
        (turns.flatMap fun t => t.before.calls s before t.callback) = some parts.flatten ∧
      Disciplined s.cfg (Account.start n) parts.flatten ∧
      finalQueue (ClauseQueue.init s.cfg s.d s.firstRow) parts.flatten = σ.interface.queue ∧
      (finalAccount s.cfg parts.flatten).streamed = σ.learned.reverse ∧
      (finalAccount s.cfg parts.flatten).removed.map Removal.clause = σ.lent.reverse := by
  obtain ⟨parts, hparts, hshadows⟩ := shadows_of_history h
  refine ⟨parts, hparts, ?_, hshadows.disciplined, hshadows.queue, hshadows.learned, hshadows.lent⟩
  rw [← calls_of_renders hparts]
  exact hshadows.run

/-- A whole run of `--size 3` in which a table was refused. -/
theorem run_refines_queue_instance : ∃ turns σ, System.History (three true false) false turns σ ∧
    σ.ended = some 20 ∧ σ.interface.nModels < σ.checks ∧
    ∃ parts : List (List (Moment 3)), List.Forall₂ (Renders (three true false) false) turns parts ∧
      (finalAccount (three true false).cfg parts.flatten).streamed = σ.learned.reverse := by
  obtain ⟨σ, hreached, hended, hrefused⟩ := three_finished false (System.permits_all _)
  obtain ⟨turns, hturns⟩ := hreached.reaches.exists_history
  obtain ⟨parts, hparts, -, -, -, hlearned, -⟩ :=
    run_refines_queue (three true false) false turns σ hturns
  exact ⟨turns, σ, hturns, hended, hrefused, parts, hparts, hlearned⟩

end YbeSms.Guarantees
