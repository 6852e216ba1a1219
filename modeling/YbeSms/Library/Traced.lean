import Mathlib.Order.Basic

/-!
# Computations that log events and may stop

A computation returns a value or a reason to stop, and in both cases the events
it logged on the way. `Ensures` is its program logic: a run whose events all meet
a condition returns a value in one postcondition or stops with a reason in the
other.
-/

namespace YbeSms.Library

/-- The events of a run and its end. -/
structure Traced (ε σ α : Type) where
  events : List ε
  result : Except σ α

namespace Traced

variable {ε σ α β : Type}

/-- Return a value. -/
def pure (a : α) : Traced ε σ α := ⟨[], .ok a⟩

/-- Stop for a reason. -/
def stop (s : σ) : Traced ε σ α := ⟨[], .error s⟩

/-- Log some events. -/
def logAll (es : List ε) : Traced ε σ Unit := ⟨es, .ok ()⟩

/-- Log one event. -/
def log (e : ε) : Traced ε σ Unit := logAll [e]

/-- Run one computation after the other; a stop ends the run. -/
def bind (x : Traced ε σ α) (f : α → Traced ε σ β) : Traced ε σ β :=
  match x.result with
  | .ok a => ⟨x.events ++ (f a).events, (f a).result⟩
  | .error s => ⟨x.events, .error s⟩

instance : Monad (Traced ε σ) where
  pure := Traced.pure
  bind := Traced.bind

/-- Return the value of an optional result, or stop. -/
def ofOption (s : σ) : Option α → Traced ε σ α
  | some a => pure a
  | none => stop s

/-- Run a step for each member of a list, passing a state along. -/
def fold (step : β → α → Traced ε σ β) : β → List α → Traced ε σ β
  | b, [] => pure b
  | b, a :: rest => bind (step b a) fun b' => fold step b' rest

/-- If all events meet `G`, then they all meet `P`, and the run returns a value in `Q` or stops for
a reason in `S`. -/
def Ensures (G P : ε → Prop) (x : Traced ε σ α) (Q : α → Prop) (S : σ → Prop) : Prop :=
  (∀ e ∈ x.events, G e) → (∀ e ∈ x.events, P e) ∧
    match x.result with
    | .ok a => Q a
    | .error s => S s

variable {G P : ε → Prop} {Q : α → Prop} {R : β → Prop} {S : σ → Prop}

theorem ensures_pure {a : α} (h : Q a) : (pure a : Traced ε σ α).Ensures G P Q S :=
  fun _ => ⟨fun _ he => absurd he List.not_mem_nil, h⟩

theorem ensures_stop {s : σ} (h : S s) : (stop s : Traced ε σ α).Ensures G P Q S :=
  fun _ => ⟨fun _ he => absurd he List.not_mem_nil, h⟩

theorem ensures_logAll {es : List ε} {Q : Unit → Prop}
    (h : (∀ e ∈ es, G e) → (∀ e ∈ es, P e) ∧ Q ()) :
    (logAll es : Traced ε σ Unit).Ensures G P Q S := h

theorem ensures_log {e : ε} {Q : Unit → Prop} (h : G e → P e ∧ Q ()) :
    (log e : Traced ε σ Unit).Ensures G P Q S := by
  apply ensures_logAll
  intro hG
  obtain ⟨hP, hQ⟩ := h (hG e (List.mem_singleton.mpr rfl))
  exact ⟨fun e' he' => List.mem_singleton.mp he' ▸ hP, hQ⟩

theorem Ensures.bind {x : Traced ε σ α} {f : α → Traced ε σ β} (hx : x.Ensures G P Q S)
    (hf : ∀ a, Q a → (f a).Ensures G P R S) : (x.bind f).Ensures G P R S := by
  intro hG
  unfold Traced.bind at hG ⊢
  unfold Ensures at hx
  cases hr : x.result with
  | ok a =>
    rw [hr] at hG hx
    obtain ⟨hP, hQ⟩ := hx fun e he => hG e (List.mem_append_left _ he)
    obtain ⟨hP', hR⟩ := hf a hQ fun e he => hG e (List.mem_append_right _ he)
    exact ⟨fun e he => (List.mem_append.mp he).elim (hP e) (hP' e), hR⟩
  | error s =>
    rw [hr] at hG hx
    exact hx hG

/-- What comes after a computation that never returns is not reached. -/
theorem Ensures.bind_of_stops {x : Traced ε σ α} {f : α → Traced ε σ β}
    (hx : x.Ensures G P (fun _ => False) S) : (x.bind f).Ensures G P R S :=
  hx.bind fun _ hno => hno.elim

theorem Ensures.mono {x : Traced ε σ α} {Q' : α → Prop} {S' : σ → Prop}
    (hx : x.Ensures G P Q S) (hQ : ∀ a, Q a → Q' a) (hS : ∀ s, S s → S' s) :
    x.Ensures G P Q' S' := by
  intro hG
  obtain ⟨hP, h⟩ := hx hG
  refine ⟨hP, ?_⟩
  cases hr : x.result with
  | ok a =>
    rw [hr] at h
    exact hQ a h
  | error s =>
    rw [hr] at h
    exact hS s h

theorem Ensures.of_events {x : Traced ε σ α} {P' : ε → Prop} (hx : x.Ensures G P Q S)
    (hP : ∀ e, P e → P' e) : x.Ensures G P' Q S := by
  intro hG
  obtain ⟨hall, h⟩ := hx hG
  exact ⟨fun e he => hP e (hall e he), h⟩

theorem ensures_ofOption {s : σ} {o : Option α} (hnone : o = none → S s)
    (hsome : ∀ a, o = some a → Q a) : (ofOption s o : Traced ε σ α).Ensures G P Q S := by
  cases o with
  | none => exact ensures_stop (hnone rfl)
  | some a => exact ensures_pure (hsome a rfl)

/-- Loop rule: an invariant over the part of the list already done. -/
theorem ensures_fold {step : β → α → Traced ε σ β} (I : List α → β → Prop) (l : List α)
    (hstep : ∀ a ∈ l, ∀ done b, I done b → (step b a).Ensures G P (I (done ++ [a])) S)
    (done : List α) (b : β) (h : I done b) :
    (fold step b l).Ensures G P (I (done ++ l)) S := by
  induction l generalizing done b with
  | nil => exact ensures_pure (by simpa using h)
  | cons a rest ih =>
    refine Ensures.bind (hstep a List.mem_cons_self done b h) fun b' hb' => ?_
    have hrest := ih (fun a' ha' => hstep a' (List.mem_cons_of_mem a ha')) (done ++ [a]) b' hb'
    rwa [List.append_assoc, List.singleton_append] at hrest

end Traced

end YbeSms.Library
