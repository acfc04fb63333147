import Mathlib.Data.List.Basic

/-!
# Runs of a partial step function

A system is given by a step function that may refuse an action.  A run is a
list of actions none of which is refused.
-/

namespace Runs

variable {State Action : Type*}

/-- Carry out the actions in order. -/
def run (step : State → Action → Option State) :
    State → List Action → Option State
  | state, [] => some state
  | state, action :: actions =>
      (step state action).bind fun next => run step next actions

/-- Every action of a run is taken in a state that allows it. -/
def Along (step : State → Action → Option State)
    (Allowed : State → Action → Prop) : State → List Action → Prop
  | _, [] => True
  | state, action :: actions =>
      Allowed state action ∧
        ∀ next, step state action = some next → Along step Allowed next actions

variable {step : State → Action → Option State}

/-- A run may be checked for it. -/
instance decidableAlong {Allowed : State → Action → Prop}
    [∀ state action, Decidable (Allowed state action)] :
    (state : State) → (actions : List Action) →
      Decidable (Along step Allowed state actions)
  | _, [] => isTrue trivial
  | state, action :: actions =>
      have : Decidable (∀ next, step state action = some next →
          Along step Allowed next actions) :=
        match step state action with
        | none => isTrue fun _ stepped => nomatch stepped
        | some next =>
            have : Decidable (Along step Allowed next actions) :=
              decidableAlong next actions
            decidable_of_iff (Along step Allowed next actions) (by simp)
      inferInstanceAs (Decidable (_ ∧ _))

@[simp] theorem run_nil (state : State) : run step state [] = some state := rfl

theorem run_cons
    {state final : State} {action : Action} {actions : List Action} :
    run step state (action :: actions) = some final ↔
      ∃ next, step state action = some next ∧
        run step next actions = some final := by
  simp [run, Option.bind_eq_some_iff]

/-- The second part of a run goes on where the first part ends. -/
theorem run_append_eq (state : State) (earlier later : List Action) :
    run step state (earlier ++ later) =
      (run step state earlier).bind fun middle => run step middle later := by
  induction earlier generalizing state with
  | nil => rfl
  | cons action earlier inductionHypothesis =>
      rw [List.cons_append, run, run, Option.bind_assoc]
      exact congrArg _ (funext inductionHypothesis)

/-- A run may be continued. -/
theorem run_append
    {state middle final : State} {earlier later : List Action}
    (first : run step state earlier = some middle)
    (second : run step middle later = some final) :
    run step state (earlier ++ later) = some final := by
  rw [run_append_eq, first, Option.bind_some, second]

/-- Every action of a run was possible somewhere. -/
theorem run_taken
    {state final : State} {action : Action} {actions : List Action}
    (ran : run step state actions = some final)
    (member : action ∈ actions) :
    ∃ before after, step before action = some after := by
  induction actions generalizing state with
  | nil => exact absurd member List.not_mem_nil
  | cons first actions inductionHypothesis =>
      obtain ⟨next, stepped, rest⟩ := run_cons.mp ran
      rcases List.mem_cons.mp member with rfl | later
      · exact ⟨state, next, stepped⟩
      · exact inductionHypothesis rest later

/-- What every step keeps, every run keeps. -/
theorem run_invariant
    (Inv : State → Prop)
    (keeps : ∀ state action next, Inv state →
      step state action = some next → Inv next)
    {state final : State} {actions : List Action}
    (initially : Inv state)
    (ran : run step state actions = some final) :
    Inv final := by
  induction actions generalizing state with
  | nil =>
      obtain rfl : state = final := by simpa using ran
      exact initially
  | cons action actions inductionHypothesis =>
      obtain ⟨next, stepped, rest⟩ := run_cons.mp ran
      exact inductionHypothesis (keeps state action next initially stepped) rest

/-- What every allowed step keeps, every run of allowed steps keeps. -/
theorem run_invariant_along
    {Allowed : State → Action → Prop}
    (Inv : State → Prop)
    (keeps : ∀ state action next, Inv state → Allowed state action →
      step state action = some next → Inv next)
    {state final : State} {actions : List Action}
    (initially : Inv state)
    (along : Along step Allowed state actions)
    (ran : run step state actions = some final) :
    Inv final := by
  induction actions generalizing state with
  | nil =>
      obtain rfl := Option.some.inj ran
      exact initially
  | cons action actions inductionHypothesis =>
      obtain ⟨next, stepped, rest⟩ := run_cons.mp ran
      obtain ⟨here, later⟩ := along
      exact inductionHypothesis (keeps state action next initially here stepped)
        (later next stepped) rest

/-- What holds of every allowed action while an invariant does, holds along
every run of allowed actions. -/
theorem along_of_invariant
    {Allowed Good : State → Action → Prop}
    (Inv : State → Prop)
    (keeps : ∀ state action, Inv state → Allowed state action →
      Good state action ∧ ∀ next, step state action = some next → Inv next)
    {state : State} {actions : List Action}
    (initially : Inv state)
    (along : Along step Allowed state actions) :
    Along step Good state actions := by
  induction actions generalizing state with
  | nil => trivial
  | cons action actions inductionHypothesis =>
      obtain ⟨here, later⟩ := along
      obtain ⟨good, kept⟩ := keeps state action initially here
      exact ⟨good, fun next stepped =>
        inductionHypothesis (kept next stepped) (later next stepped)⟩

/-- Every action may be allowed. -/
theorem along_true (state : State) (actions : List Action) :
    Along step (fun _ _ => True) state actions := by
  induction actions generalizing state with
  | nil => trivial
  | cons action actions inductionHypothesis =>
      exact ⟨trivial, fun next _ => inductionHypothesis next⟩

/-- A machine that follows every step follows every run. -/
theorem run_followed
    {Machine : Type*} {next : Machine → Action → Machine}
    (Follows : Machine → State → Prop)
    (keeps : ∀ machine state action after, Follows machine state →
      step state action = some after → Follows (next machine action) after)
    {machine : Machine} {state final : State} {actions : List Action}
    (initially : Follows machine state)
    (ran : run step state actions = some final) :
    Follows (actions.foldl next machine) final := by
  induction actions generalizing machine state with
  | nil =>
      obtain rfl : state = final := by simpa using ran
      exact initially
  | cons action actions inductionHypothesis =>
      obtain ⟨after, stepped, rest⟩ := run_cons.mp ran
      exact inductionHypothesis
        (keeps machine state action after initially stepped) rest

/-- Where every step is possible and keeps an invariant, every run is
possible. -/
theorem run_isSome
    (Inv : State → Prop)
    (returns : ∀ state action, Inv state →
      ∃ next, step state action = some next ∧ Inv next)
    {state : State} (actions : List Action)
    (initially : Inv state) :
    (run step state actions).isSome := by
  induction actions generalizing state with
  | nil => rfl
  | cons action actions inductionHypothesis =>
      obtain ⟨next, stepped, kept⟩ := returns state action initially
      rw [run, stepped, Option.bind_some]
      exact inductionHypothesis kept

/-- Two systems whose steps correspond, and are refused together, have runs that
correspond. -/
theorem run_rel
    {Other : Type*} {stepOther : Other → Action → Option Other}
    (Rel : State → Other → Prop)
    {state : State} {other : Other} {actions : List Action}
    (steps : ∀ state other action, action ∈ actions → Rel state other →
      Option.Rel Rel (step state action) (stepOther other action))
    (initially : Rel state other) :
    Option.Rel Rel (run step state actions) (run stepOther other actions) := by
  induction actions generalizing state other with
  | nil => exact .some initially
  | cons action actions inductionHypothesis =>
      have first := steps state other action List.mem_cons_self initially
      rw [run, run]
      generalize step state action = next at first
      generalize stepOther other action = nextOther at first
      cases first with
      | none => exact .none
      | some related =>
          exact inductionHypothesis (fun state other action member =>
            steps state other action (List.mem_cons_of_mem _ member)) related

end Runs
