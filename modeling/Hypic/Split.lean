import Mathlib.Data.List.Basic
import Mathlib.Data.List.Infix

/-! Splitting a list at the occurrences of a separator, leftmost first. -/

namespace Hypic.Split
universe u
variable {α : Type u} [DecidableEq α] (sep : List α)

/-- The piece the scan is in and the pieces after it; `skip` elements of a separator are still to pass. -/
def pieces : List α → Nat → List α × List (List α)
  | [], _ => ([],[])
  | _::rest, skip + 1 => pieces rest skip
  | item::rest, 0 =>
    if sep <+: item::rest then
      let (first,later) := pieces rest (sep.length - 1)
      ([],first::later)
    else
      let (first,later) := pieces rest 0
      (item::first,later)

/-- `text.split(sep)` for a separator that is not empty. -/
def split (text : List α) : List (List α) := (pieces sep text 0).1::(pieces sep text 0).2

theorem pieces_start (text : List α) : (pieces sep text 0).1 <+: text := by
  induction text with
  | nil => exact List.nil_prefix
  | cons item rest ih =>
    rw [pieces]
    split
    · exact List.nil_prefix
    · exact (List.prefix_cons_inj item).mpr ih

theorem pieces_first (text : List α) :
    pieces sep (pieces sep text 0).1 0 = ((pieces sep text 0).1,[]) := by
  induction text with
  | nil => rfl
  | cons item rest ih =>
    by_cases here : sep <+: item::rest
    · simp [pieces,here]
    · have inside := (List.prefix_cons_inj item).mpr (pieces_start sep rest)
      have clear : ¬ sep <+: item::(pieces sep rest 0).1 := fun found => here (found.trans inside)
      simp [pieces,here,clear,ih]

theorem pieces_alone (text : List α) (skip : Nat) :
    ∀ piece ∈ (pieces sep text skip).1::(pieces sep text skip).2, split sep piece = [piece] := by
  induction text generalizing skip with
  | nil =>
    intro piece member
    simp only [pieces,List.mem_singleton] at member
    subst member; rfl
  | cons item rest ih =>
    cases skip with
    | succ skip => exact ih skip
    | zero =>
      intro piece member
      rcases List.mem_cons.mp member with rfl | later
      · rw [split,pieces_first sep (item::rest)]
      · by_cases here : sep <+: item::rest
        · simp only [pieces,here,if_true] at later
          exact ih _ piece later
        · simp only [pieces,here,if_false] at later
          exact ih 0 piece (List.mem_cons_of_mem _ later)

theorem split_piece {text piece : List α} (member : piece ∈ split sep text) : split sep piece = [piece] :=
  pieces_alone sep text 0 piece member

end Hypic.Split
