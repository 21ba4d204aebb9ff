import Mathlib.Data.Nat.Init
import Mathlib.Logic.Relation

/-!
# Runs of a transition system

A run is an infinite sequence of states that starts in the initial state.
Each element follows from the one before by a step, or repeats it.  The
repetition makes every finite execution a run: it stays in its last state
forever.  A statement about two moments of one run is a statement about two
positions `t` and `u` of the sequence.

`Run.ofEvents` makes the run of a list of events.  `Run.invariant` is the
induction that every safety proof uses, and `Run.simulated` is its form for a
forward simulation: a run of the concrete system is accompanied by one growing
execution of the abstract system.
-/

namespace KvRaft

variable {S A : Type}

/-- A run from `init` by `step`, with repetition. -/
structure Run (init : S) (step : S → S → Prop) where
  /-- The state at each moment. -/
  state : Nat → S
  /-- The run starts in the initial state. -/
  start : state 0 = init
  /-- Each moment follows from the one before. -/
  next : ∀ t, step (state t) (state (t + 1)) ∨ state (t + 1) = state t

namespace Run

variable {init : S} {step : S → S → Prop}

/-- One more event happens, or it cannot happen and is skipped. -/
theorem foldl_take_next {E : Type} (init : S) (exec : S → E → Option S) (events : List E)
    (t : Nat) :
    (∃ e, events[t]? = some e ∧
      exec ((events.take t).foldl (fun s e => (exec s e).getD s) init) e =
        some ((events.take (t + 1)).foldl (fun s e => (exec s e).getD s) init)) ∨
      (events.take (t + 1)).foldl (fun s e => (exec s e).getD s) init =
        (events.take t).foldl (fun s e => (exec s e).getD s) init := by
  rw [List.take_add_one]
  cases events[t]? with
  | none => exact Or.inr (by simp)
  | some e =>
    rw [Option.toList_some, List.foldl_append, List.foldl_cons, List.foldl_nil]
    generalize (events.take t).foldl (fun s e => (exec s e).getD s) init = s
    cases h : exec s e with
    | none => exact Or.inr rfl
    | some s' => exact Or.inl ⟨e, rfl, h⟩

/-- The run that a list of events drives.  An event that cannot happen where it
stands is skipped. -/
def ofEvents {E : Type} (init : S) (exec : S → E → Option S) (events : List E) :
    Run init fun s s' => ∃ e, exec s e = some s' where
  state t := (events.take t).foldl (fun s e => (exec s e).getD s) init
  start := rfl
  next t := by
    obtain ⟨e, _, h⟩ | h := foldl_take_next init exec events t
    · exact Or.inl ⟨e, h⟩
    · exact Or.inr h

/-- Each moment of the run of a list of events comes from the event that stands
there, or nothing happened. -/
theorem ofEvents_next {E : Type} (init : S) (exec : S → E → Option S) (events : List E) (t : Nat) :
    (∃ e, events[t]? = some e ∧ exec ((ofEvents init exec events).state t) e =
        some ((ofEvents init exec events).state (t + 1))) ∨
      (ofEvents init exec events).state (t + 1) = (ofEvents init exec events).state t :=
  foldl_take_next init exec events t

/-- An event that changed something has happened. -/
theorem ofEvents_exec {E : Type} {init : S} {exec : S → E → Option S} {events : List E} {t : Nat}
    {e : E} (he : events[t]? = some e) (hne : (ofEvents init exec events).state (t + 1) ≠
      (ofEvents init exec events).state t) : exec ((ofEvents init exec events).state t) e =
        some ((ofEvents init exec events).state (t + 1)) := by
  rcases ofEvents_next init exec events t with ⟨e', he', hexec⟩ | hsame
  · cases he.symm.trans he'
    exact hexec
  · exact absurd hsame hne

/-- After its last event the run stands still. -/
theorem ofEvents_state_of_le {E : Type} (init : S) (exec : S → E → Option S) (events : List E)
    {t : Nat} (h : events.length ≤ t) : (ofEvents init exec events).state t =
      (ofEvents init exec events).state events.length := by
  simp only [ofEvents, List.take_of_length_le h, List.take_length]

/-- A property of the initial state that every step keeps holds throughout. -/
theorem invariant (run : Run init step) {P : S → Prop} (h0 : P init)
    (hstep : ∀ s s', P s → step s s' → P s') (t : Nat) : P (run.state t) := by
  induction t with
  | zero => rw [run.start]; exact h0
  | succ t ih =>
    rcases run.next t with h | h
    · exact hstep _ _ ih h
    · exact h ▸ ih

/-- A relation between two moments that is reflexive, transitive and holds of
each step holds of every later moment. -/
theorem monotone (run : Run init step) {R : S → S → Prop} (hrefl : ∀ s, R s s)
    (htrans : ∀ a b c, R a b → R b c → R a c) {P : S → Prop}
    (hP : ∀ t, P (run.state t)) (hstep : ∀ s s', P s → step s s' → R s s')
    {t u : Nat} (h : t ≤ u) : R (run.state t) (run.state u) := by
  induction u, h using Nat.le_induction with
  | base => exact hrefl _
  | succ u _ ih =>
    rcases run.next u with hs | hs
    · exact htrans _ _ _ ih (hstep _ _ (hP u) hs)
    · exact hs ▸ ih

/-- Forward simulation.  If `R` relates the initial states and every step of the
run is matched by some abstract steps, then one abstract execution goes
along with the whole run: at each moment there is a related abstract state,
and the abstract states of two moments are connected in order. -/
theorem simulated (run : Run init step) {R : S → A → Prop} {astep : A → A → Prop}
    {ainit : A} (h0 : R init ainit)
    (hstep : ∀ t a, Relation.ReflTransGen astep ainit a → R (run.state t) a →
      step (run.state t) (run.state (t + 1)) →
      ∃ a', Relation.ReflTransGen astep a a' ∧ R (run.state (t + 1)) a') :
    ∃ abs : Nat → A, abs 0 = ainit ∧ (∀ t, R (run.state t) (abs t)) ∧
      ∀ t u, t ≤ u → Relation.ReflTransGen astep (abs t) (abs u) := by
  have hnext : ∀ t a, Relation.ReflTransGen astep ainit a → R (run.state t) a →
      ∃ a', Relation.ReflTransGen astep a a' ∧ R (run.state (t + 1)) a' := by
    intro t a ha hR
    rcases run.next t with h | h
    · exact hstep t a ha hR h
    · exact ⟨a, .refl, h ▸ hR⟩
  classical
  -- The abstract execution picks one matching state after the other.
  let abs : (t : Nat) → { a : A // Relation.ReflTransGen astep ainit a ∧ R (run.state t) a } :=
    fun t => Nat.rec ⟨ainit, .refl, by rw [run.start]; exact h0⟩
      (fun t p => ⟨(hnext t p.1 p.2.1 p.2.2).choose,
        p.2.1.trans (hnext t p.1 p.2.1 p.2.2).choose_spec.1,
        (hnext t p.1 p.2.1 p.2.2).choose_spec.2⟩) t
  have hsucc : ∀ t, Relation.ReflTransGen astep (abs t).1 (abs (t + 1)).1 := fun t =>
    (hnext t (abs t).1 (abs t).2.1 (abs t).2.2).choose_spec.1
  refine ⟨fun t => (abs t).1, rfl, fun t => (abs t).2.2, fun t u htu => ?_⟩
  induction u, htu using Nat.le_induction with
  | base => exact .refl
  | succ u _ ih => exact ih.trans (hsucc u)

end Run

end KvRaft
