import Mathlib.Algebra.BigOperators.Group.List.Basic
import Mathlib.Algebra.Module.Opposite

/-! Recurrences of affine steps `h ↦ h * A + b`, with the transitions `A` acting on the states from the
    right. A block of steps has a summary, itself a step, and summaries compose to the whole recurrence. -/

namespace Hypic.Affine
open MulOpposite
universe u v
variable {T : Type u} {S : Type v}

/-- One step of a recurrence. -/
structure Step (T : Type u) (S : Type v) where
  A : T
  b : S
  deriving DecidableEq, Repr

/-- The step without its inhomogeneous part, for states of any kind. -/
def Step.linear {S' : Type*} [Zero S'] (step : Step T S) : Step T S' := ⟨step.A,0⟩

section Product
variable [Semiring T]

/-- The product of the transitions, in the order of the steps. -/
def transition (steps : List (Step T S)) : T := (steps.map Step.A).prod

@[simp] theorem transition_nil : transition ([] : List (Step T S)) = 1 := rfl
@[simp] theorem transition_cons (step : Step T S) (rest : List (Step T S)) :
    transition (step::rest) = step.A * transition rest := List.prod_cons

end Product

section Recurrence
variable [Semiring T] [AddCommMonoid S] [Module Tᵐᵒᵖ S]

def Step.apply (step : Step T S) (h : S) : S := op step.A • h + step.b

/-- The state after all steps. -/
def fold (steps : List (Step T S)) (h : S) : S := steps.foldl (fun h step => step.apply h) h

@[simp] theorem fold_nil (h : S) : fold ([] : List (Step T S)) h = h := rfl
@[simp] theorem fold_cons (step : Step T S) (rest : List (Step T S)) (h : S) :
    fold (step::rest) h = fold rest (step.apply h) := rfl
theorem fold_append (left right : List (Step T S)) (h : S) : fold (left ++ right) h = fold right (fold left h) :=
  List.foldl_append ..

/-- A block acts on its initial state by its transition and adds its own end state from zero. -/
theorem fold_eq (steps : List (Step T S)) (h : S) : fold steps h = op (transition steps) • h + fold steps 0 := by
  induction steps generalizing h with
  | nil => simp
  | cons step rest ih =>
    have shift := ih step.b
    calc fold (step::rest) h = op (transition rest) • (op step.A • h + step.b) + fold rest 0 := ih _
      _ = op (transition (step::rest)) • h + (op (transition rest) • step.b + fold rest 0) := by
          rw [transition_cons,op_mul,mul_smul,smul_add,add_assoc]
      _ = op (transition (step::rest)) • h + fold (step::rest) 0 := by
          rw [← shift,fold_cons,Step.apply,smul_zero,zero_add]

/-- A block as one step. -/
def summary (steps : List (Step T S)) : Step T S := ⟨transition steps,fold steps 0⟩

@[simp] theorem summary_apply (steps : List (Step T S)) (h : S) : (summary steps).apply h = fold steps h :=
  (fold_eq steps h).symm

omit [AddCommMonoid S] [Module Tᵐᵒᵖ S] in
/-- The linear parts alone, run from the identity, give the block's transition. -/
theorem fold_linear_one (steps : List (Step T S)) :
    fold (steps.map Step.linear : List (Step T T)) 1 = transition steps := by
  have shifted (seed : T) : fold (steps.map Step.linear : List (Step T T)) seed = seed * transition steps := by
    induction steps generalizing seed with
    | nil => simp
    | cons step rest ih =>
      rw [List.map_cons,fold_cons,ih,Step.apply,transition_cons]
      simp [Step.linear,mul_assoc]
  rw [shifted,one_mul]

end Recurrence
end Hypic.Affine
