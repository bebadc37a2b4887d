import Mathlib.Logic.Basic

/-! Runs of a partial step function: an action either fails or gives the next state.
    A guard restricts the states an action may be taken from. -/

namespace Hypic.Runs
universe u v
variable {σ : Type u} {α : Type v} (step : σ → α → Option σ)

/-- The state after all actions, unless one of them fails. -/
def run : σ → List α → Option σ
  | state, [] => some state
  | state, action::rest => (step state action).bind (fun next => run next rest)

/-- Every action of the run meets the guard in the state it is taken from. -/
def Guarded (guard : σ → α → Prop) : σ → List α → Prop
  | _, [] => True
  | state, action::rest => guard state action ∧ ∀ next ∈ step state action, Guarded guard next rest

instance decidableGuarded (guard : σ → α → Prop) [∀ state action, Decidable (guard state action)] :
    (state : σ) → (actions : List α) → Decidable (Guarded step guard state actions)
  | _, [] => isTrue trivial
  | state, action::rest =>
    haveI (next : σ) : Decidable (Guarded step guard next rest) := decidableGuarded guard next rest
    inferInstanceAs (Decidable (guard state action ∧ ∀ next ∈ step state action, Guarded step guard next rest))

variable {step}

@[simp] theorem run_nil (state : σ) : run step state [] = some state := rfl
variable {state final : σ}

theorem run_cons {action : α} {rest : List α} :
    run step state (action::rest) = some final ↔ ∃ next, step state action = some next ∧ run step next rest = some final := by
  simp [run,Option.bind_eq_some_iff]
theorem run_append {left right : List α} :
    run step state (left ++ right) = some final ↔
      ∃ middle, run step state left = some middle ∧ run step middle right = some final := by
  induction left generalizing state with
  | nil => simp
  | cons action left ih =>
    simp only [List.cons_append,run_cons,ih]
    constructor
    · rintro ⟨next,stepped,middle,before,after⟩; exact ⟨middle,⟨next,stepped,before⟩,after⟩
    · rintro ⟨middle,⟨next,stepped,before⟩,after⟩; exact ⟨next,stepped,middle,before,after⟩

/-- The invariant rule: what every guarded step keeps holds after every guarded run. -/
theorem run_keeps {guard : σ → α → Prop} (inv : σ → Prop)
    (keep : ∀ state action next, inv state → guard state action → step state action = some next → inv next)
    {actions : List α} (start : inv state) (guarded : Guarded step guard state actions)
    (executed : run step state actions = some final) : inv final := by
  induction actions generalizing state with
  | nil => exact Option.some.inj executed ▸ start
  | cons action rest ih =>
    obtain ⟨next,stepped,executed⟩ := run_cons.mp executed
    exact ih (keep state action next start guarded.1 stepped) (guarded.2 next stepped) executed

/-- The rule without a guard: what every step keeps holds after every run. -/
theorem run_always (inv : σ → Prop) (keep : ∀ state action next, inv state → step state action = some next → inv next)
    {actions : List α} (start : inv state) (executed : run step state actions = some final) : inv final := by
  induction actions generalizing state with
  | nil => exact Option.some.inj executed ▸ start
  | cons action rest ih =>
    obtain ⟨next,stepped,executed⟩ := run_cons.mp executed
    exact ih (keep state action next start stepped) executed

/-- The loop rule: an invariant of the state and the items still to come holds at the end with none left. -/
theorem foldlM_keeps (inv : σ → List α → Prop)
    (keep : ∀ state item rest next, inv state (item::rest) → step state item = some next → inv next rest)
    {items : List α} (start : inv state items) (executed : items.foldlM step state = some final) :
    inv final [] := by
  induction items generalizing state with
  | nil => exact Option.some.inj executed ▸ start
  | cons item rest ih =>
    rw [List.foldlM_cons] at executed
    obtain ⟨next,stepped,executed⟩ := Option.bind_eq_some_iff.mp executed
    exact ih (keep state item rest next start stepped) executed

end Hypic.Runs
