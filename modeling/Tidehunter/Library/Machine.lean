import Mathlib

/-!
# Runs of a machine

A machine is given by its step: the state after an event, or nothing where the event
cannot happen. Everything an event chooses is part of the event, so a run is the list of
its events and can be computed.
-/

namespace Tidehunter.Library

universe u v

variable {State : Type u} {Event : Type v}

/-- The state after a list of events. -/
def runEvents (step : State → Event → Option State) : List Event → State → Option State
  | [], state => some state
  | event :: rest, state => (step state event).bind (runEvents step rest)

/-- Every event of a run meets a condition in the state it happens in. -/
def AllSteps (step : State → Event → Option State) (condition : State → Event → Prop) :
    List Event → State → Prop
  | [], _ => True
  | event :: rest, state => condition state event ∧
      match step state event with
      | some next => AllSteps step condition rest next
      | none => True

instance AllSteps.decidable (step : State → Event → Option State)
    (condition : State → Event → Prop) [∀ state event, Decidable (condition state event)] :
    ∀ events state, Decidable (AllSteps step condition events state)
  | [], _ => isTrue trivial
  | event :: rest, state =>
      let tail : Decidable (match step state event with
          | some next => AllSteps step condition rest next
          | none => True) :=
        match step state event with
        | some next => AllSteps.decidable step condition rest next
        | none => isTrue trivial
      @instDecidableAnd _ _ _ tail

variable {step : State → Event → Option State} {condition : State → Event → Prop}

/-- Every state of a run has a property, the first one included. -/
def AllStates (step : State → Event → Option State) (holds : State → Prop) :
    List Event → State → Prop
  | [], state => holds state
  | event :: rest, state => holds state ∧
      match step state event with
      | some next => AllStates step holds rest next
      | none => True

/-- What every step that meets the condition preserves holds after every such run. -/
theorem runEvents_invariant {holds : State → Prop}
    (preserved : ∀ {state event next}, holds state → condition state event →
      step state event = some next → holds next)
    {events : List Event} {state final : State} (start : holds state)
    (met : AllSteps step condition events state)
    (ran : runEvents step events state = some final) : holds final := by
  induction events generalizing state with
  | nil =>
      cases ran
      exact start
  | cons event rest ih =>
      rw [runEvents] at ran
      obtain ⟨next, stepped, tail⟩ := Option.bind_eq_some_iff.mp ran
      rw [AllSteps, stepped] at met
      exact ih (preserved start met.1 stepped) met.2 tail

theorem AllSteps.and {other : State → Event → Prop} {events : List Event} {state : State}
    (first : AllSteps step condition events state) (second : AllSteps step other events state) :
    AllSteps step (fun state event => condition state event ∧ other state event) events state := by
  induction events generalizing state with
  | nil => trivial
  | cons event rest ih =>
      refine ⟨⟨first.1, second.1⟩, ?_⟩
      have firstRest := first.2
      have secondRest := second.2
      split
      · rename_i next stepped
        rw [stepped] at firstRest secondRest
        exact ih firstRest secondRest
      · trivial

/-- An invariant gives a property of every state of a run. -/
theorem allStates_of_allSteps {invariant holds : State → Prop}
    (preserved : ∀ {state event next}, invariant state → condition state event →
      step state event = some next → invariant next)
    (implies : ∀ {state}, invariant state → holds state) {events : List Event} {state : State}
    (start : invariant state) (met : AllSteps step condition events state) :
    AllStates step holds events state := by
  induction events generalizing state with
  | nil => exact implies start
  | cons event rest ih =>
      refine ⟨implies start, ?_⟩
      have rests := met.2
      split
      · rename_i next stepped
        rw [stepped] at rests
        exact ih (preserved start met.1 stepped) rests
      · trivial

/-- A condition that a step meets whenever the state after it has the property. -/
theorem allSteps_of_allStates {holds : State → Prop}
    (needed : ∀ {state event}, (∀ next, step state event = some next → holds next) →
      condition state event)
    {events : List Event} {state : State} (states : AllStates step holds events state) :
    AllSteps step condition events state := by
  induction events generalizing state with
  | nil => trivial
  | cons event rest ih =>
      have rests := states.2
      refine ⟨needed fun next stepped => ?_, ?_⟩
      · rw [stepped] at rests
        cases rest with
        | nil => exact rests
        | cons _ _ => exact rests.1
      · split
        · rename_i next stepped
          rw [stepped] at rests
          exact ih rests
        · trivial

/-- A condition on the events alone. -/
theorem allSteps_of_mem {events : List Event}
    (always : ∀ event ∈ events, ∀ state, condition state event) (state : State) :
    AllSteps step condition events state := by
  induction events generalizing state with
  | nil => trivial
  | cons event rest ih =>
      refine ⟨always event List.mem_cons_self state, ?_⟩
      split
      · exact ih (fun other member => always other (List.mem_cons_of_mem event member)) _
      · trivial

/-- An invariant of every step holds after every run. -/
theorem runEvents_preserves {holds : State → Prop}
    (preserved : ∀ {state event next}, holds state → step state event = some next → holds next)
    {events : List Event} {state final : State} (start : holds state)
    (ran : runEvents step events state = some final) : holds final :=
  @runEvents_invariant _ _ step (fun _ _ => True) holds (fun held _ => preserved held) _ _ _ start
    (allSteps_of_mem (fun _ _ _ => trivial) state) ran

end Tidehunter.Library
