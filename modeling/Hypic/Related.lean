import Mathlib.Algebra.BigOperators.Group.List.Basic

/-! Lists related element by element: composition, lookup and sums. -/

namespace Hypic
namespace Related
open List Option
universe u v w
variable {α : Type u} {β : Type v} {γ : Type w} {R : α → β → Prop} {left : List α} {right : List β}

theorem comp {S : β → γ → Prop} {third : List γ} (first : Forall₂ R left right)
    (second : Forall₂ S right third) : Forall₂ (fun a c => ∃ b, R a b ∧ S b c) left third := by
  induction first generalizing third with
  | nil => cases second; exact .nil
  | cons here _ ih =>
    cases second with
    | cons there rest => exact .cons ⟨_,here,there⟩ (ih rest)

theorem exists_left (related : Forall₂ R left right) {b : β} (member : b ∈ right) : ∃ a ∈ left, R a b := by
  induction related with
  | nil => simp at member
  | cons here _ ih =>
    rcases mem_cons.mp member with rfl | member
    · exact ⟨_,mem_cons_self ..,here⟩
    · obtain ⟨a,inside,found⟩ := ih member
      exact ⟨a,mem_cons_of_mem _ inside,found⟩

theorem sum_eq {M : Type*} [AddCommMonoid M] (related : Forall₂ R left right) (f : α → M) (g : β → M)
    (same : ∀ a ∈ left, ∀ b, R a b → f a = g b) : (left.map f).sum = (right.map g).sum := by
  induction related with
  | nil => rfl
  | cons here _ ih =>
    simp only [map_cons,sum_cons]
    rw [same _ mem_cons_self _ here,ih fun a member => same a (mem_cons_of_mem _ member)]

theorem map_eq {δ : Type*} (related : Forall₂ R left right) (f : α → δ) (g : β → δ) (same : ∀ a b, R a b → g b = f a) :
    right.map g = left.map f := by
  induction related with
  | nil => rfl
  | cons here _ ih => rw [map_cons,map_cons,same _ _ here,ih]

theorem exists_right (related : Forall₂ R left right) {a : α} (member : a ∈ left) : ∃ b ∈ right, R a b := by
  induction related with
  | nil => simp at member
  | cons here _ ih =>
    rcases mem_cons.mp member with rfl | member
    · exact ⟨_,mem_cons_self ..,here⟩
    · obtain ⟨b,inside,found⟩ := ih member
      exact ⟨b,mem_cons_of_mem _ inside,found⟩

theorem of_mapM {f : α → Option β} {items : List α} {results : List β} (executed : items.mapM f = some results) :
    Forall₂ (fun item result => f item = some result) items results := by
  induction items generalizing results with
  | nil =>
    simp only [mapM_nil,pure,some.injEq] at executed
    subst executed
    exact .nil
  | cons item rest ih =>
    rw [mapM_cons] at executed
    obtain ⟨result,here,executed⟩ := bind_eq_some_iff.mp executed
    obtain ⟨later,there,same⟩ := bind_eq_some_iff.mp executed
    simp only [pure,some.injEq] at same
    subst same
    exact .cons here (ih there)

theorem mapM_isSome {α β : Type*} (step : α → Option β) (items : List α) (all : ∀ item ∈ items, (step item).isSome) :
    (items.mapM step).isSome := by
  induction items with
  | nil => rfl
  | cons item rest ih =>
    obtain ⟨first,here⟩ := isSome_iff_exists.mp (all item mem_cons_self)
    obtain ⟨later,there⟩ := isSome_iff_exists.mp (ih fun other member => all other (mem_cons_of_mem _ member))
    simp [mapM_cons,here,there]

theorem mapM_map {step : α → Option β} {result : α → β} {items : List α} (each : ∀ item ∈ items, step item = some (result item)) :
    items.mapM step = some (items.map result) := by
  induction items with
  | nil => rfl
  | cons item rest ih =>
    rw [mapM_cons,each item mem_cons_self,ih fun other member => each other (mem_cons_of_mem _ member)]
    rfl

end Related
export Related (exists_left exists_right)
end Hypic
