import Mathlib.Data.List.Basic
import Mathlib.Data.Nat.Basic
import Mathlib.Order.Lattice
import Mathlib.Order.MinMax
import Mathlib.Tactic.Common

/-! How far two lists agree, in whole pages, and the search that finds the first place where they do not:
    doubling windows, then a bisection of the window that holds the difference. -/

namespace Hypic.Agree
open List
universe u v
variable {α : Type u} {β : Type v}

section Shared
variable [DecidableEq α] [DecidableEq β]

/-- The length of the longest common start of two lists. -/
def shared : List α → List α → Nat
  | x::xs, y::ys => if x = y then shared xs ys + 1 else 0
  | _, _ => 0

variable {xs ys : List α}

/-- What lies within the common start: the places up to which both lists read the same. -/
theorem le_shared_iff {n : Nat} :
    n ≤ shared xs ys ↔ n ≤ xs.length ∧ n ≤ ys.length ∧ xs.take n = ys.take n := by
  induction xs generalizing n ys with
  | nil => cases n <;> simp [shared]
  | cons x xs ih =>
    cases ys with
    | nil => cases n <;> simp [shared]
    | cons y ys =>
      cases n with
      | zero => simp
      | succ n =>
        by_cases same : x = y
        · simp [shared,same,ih]
        · simp [shared,same]

theorem shared_le_left (xs ys : List α) : shared xs ys ≤ xs.length := (le_shared_iff.mp le_rfl).1
theorem shared_le_right (xs ys : List α) : shared xs ys ≤ ys.length := (le_shared_iff.mp le_rfl).2.1
theorem shared_comm (xs ys : List α) : shared xs ys = shared ys xs := by
  refine eq_of_forall_le_iff (fun n => ?_)
  rw [le_shared_iff,le_shared_iff]
  exact ⟨fun ⟨left,right,same⟩ => ⟨right,left,same.symm⟩,fun ⟨left,right,same⟩ => ⟨right,left,same.symm⟩⟩

theorem shared_take (xs ys : List α) (n m : Nat) : shared (xs.take n) (ys.take m) = min (shared xs ys) (min n m) := by
  refine eq_of_forall_le_iff (fun k => ?_)
  simp only [le_shared_iff,le_min_iff,length_take,take_take]
  constructor
  · rintro ⟨⟨inN,left⟩,⟨inM,right⟩,same⟩
    rw [min_eq_left inN,min_eq_left inM] at same
    exact ⟨⟨left,right,same⟩,inN,inM⟩
  · rintro ⟨⟨left,right,same⟩,inN,inM⟩
    rw [min_eq_left inN,min_eq_left inM]
    exact ⟨⟨inN,left⟩,⟨inM,right⟩,same⟩

theorem shared_map {f : α → β} (injective : Function.Injective f) (xs ys : List α) :
    shared (xs.map f) (ys.map f) = shared xs ys := by
  refine eq_of_forall_le_iff (fun n => ?_)
  simp only [le_shared_iff,length_map,← map_take,(map_injective_iff.mpr injective).eq_iff]

theorem shared_append (front xs ys : List α) : shared (front ++ xs) (front ++ ys) = front.length + shared xs ys := by
  induction front with
  | nil => simp
  | cons x front ih => simp [shared,ih]; omega

/-- The neighbouring pairs of a list agree one place less far than the list itself. -/
theorem shared_pairs {f : α → α → β} (injective : ∀ a b c d, f a b = f c d → a = c ∧ b = d) (xs ys : List α) :
    shared (List.zipWith f xs xs.tail) (List.zipWith f ys ys.tail) = shared xs ys - 1 := by
  induction xs generalizing ys with
  | nil => simp [shared]
  | cons x xs ih =>
    cases ys with
    | nil => simp [shared]
    | cons y ys =>
      cases xs with
      | nil => by_cases same : x = y <;> simp [shared,same]
      | cons x' xs =>
        cases ys with
        | nil => by_cases same : x = y <;> simp [shared,same]
        | cons y' ys =>
          have later := ih (y'::ys)
          simp only [tail_cons,zipWith_cons_cons] at later ⊢
          by_cases same : x = y
          · subst same
            by_cases next : x' = y'
            · subst next
              simp only [shared,if_true] at later ⊢
              omega
            · have apart : f x x' ≠ f x y' := fun equal => next (injective _ _ _ _ equal).2
              simp [shared,apart,next]
          · have apart : f x x' ≠ f y y' := fun equal => same (injective _ _ _ _ equal).1
            simp [shared,apart,same]

/-- The common start in whole pages. -/
def agree (pageSize : Nat) (xs ys : List α) : Nat := shared xs ys / pageSize * pageSize

variable {pageSize : Nat}

theorem agree_dvd (xs ys : List α) : pageSize ∣ agree pageSize xs ys := Nat.dvd_mul_left ..
theorem agree_le (xs ys : List α) : agree pageSize xs ys ≤ shared xs ys := Nat.div_mul_le_self ..

theorem le_floor_iff (positive : 0 < pageSize) {n m : Nat} (aligned : pageSize ∣ n) : n ≤ m / pageSize * pageSize ↔ n ≤ m := by
  obtain ⟨k,rfl⟩ := aligned
  rw [Nat.mul_comm pageSize k,Nat.mul_le_mul_right_iff positive,Nat.le_div_iff_mul_le positive]

theorem le_agree_iff (positive : 0 < pageSize) {n : Nat} (aligned : pageSize ∣ n) :
    n ≤ agree pageSize xs ys ↔ n ≤ xs.length ∧ n ≤ ys.length ∧ xs.take n = ys.take n := by
  rw [agree,le_floor_iff positive aligned,le_shared_iff]

theorem agree_self (positive : 0 < pageSize) {xs : List α} (aligned : pageSize ∣ xs.length) : agree pageSize xs xs = xs.length :=
  le_antisymm ((agree_le xs xs).trans (shared_le_left xs xs)) ((le_agree_iff positive aligned).mpr ⟨le_rfl,le_rfl,rfl⟩)

variable (pageSize) in
theorem agree_le_left (xs ys : List α) : agree pageSize xs ys ≤ xs.length := (agree_le xs ys).trans (shared_le_left xs ys)
variable (pageSize) in
theorem agree_le_right (xs ys : List α) : agree pageSize xs ys ≤ ys.length := (agree_le xs ys).trans (shared_le_right xs ys)
variable (pageSize) in
theorem take_agree (xs ys : List α) : xs.take (agree pageSize xs ys) = ys.take (agree pageSize xs ys) :=
  (le_shared_iff.mp (agree_le xs ys)).2.2
theorem agree_eq_length_iff (positive : 0 < pageSize) {xs ys : List α} (aligned : pageSize ∣ ys.length) :
    agree pageSize xs ys = ys.length ↔ ys <+: xs := by
  rw [le_antisymm_iff,and_iff_right (agree_le_right ..),le_agree_iff positive aligned,take_length]
  exact ⟨fun reached => reached.2.2 ▸ List.take_prefix ..,fun start => ⟨start.length_le,le_rfl,(prefix_iff_eq_take.mp start).symm⟩⟩

theorem add_page_le {n m : Nat} (left : pageSize ∣ n) (right : pageSize ∣ m) (less : n < m) : n + pageSize ≤ m := by
  obtain ⟨pages,rfl⟩ := left
  obtain ⟨all,rfl⟩ := right
  rw [← Nat.mul_succ]
  exact Nat.mul_le_mul_left _ (Nat.lt_of_mul_lt_mul_left less)

/-- Numbers that are whole pages are compared by the whole pages below them. -/
theorem eq_of_aligned {n m : Nat} (left : pageSize ∣ n) (right : pageSize ∣ m)
    (same : ∀ k, pageSize ∣ k → (k ≤ n ↔ k ≤ m)) : n = m :=
  le_antisymm ((same n left).mp le_rfl) ((same m right).mpr le_rfl)

theorem agree_take (positive : 0 < pageSize) (xs ys : List α) {m : Nat} (aligned : pageSize ∣ m) :
    agree pageSize xs (ys.take m) = min (agree pageSize xs ys) m := by
  refine eq_of_aligned (agree_dvd ..) ?_ (fun k whole => ?_)
  · rcases min_choice (agree pageSize xs ys) m with left | right
    · rw [left]; exact agree_dvd ..
    · rw [right]; exact aligned
  · rw [le_agree_iff positive whole,le_min_iff,le_agree_iff positive whole,length_take,le_min_iff,take_take]
    constructor
    · rintro ⟨left,⟨inside,right⟩,same⟩
      exact ⟨⟨left,right,by rwa [min_eq_left inside] at same⟩,inside⟩
    · rintro ⟨⟨left,right,same⟩,inside⟩
      exact ⟨left,⟨inside,right⟩,by rwa [min_eq_left inside]⟩

theorem agree_comm (xs ys : List α) : agree pageSize xs ys = agree pageSize ys xs := by rw [agree,agree,shared_comm]

theorem agree_append (positive : 0 < pageSize) {front : List α} (aligned : pageSize ∣ front.length) (xs ys : List α) :
    agree pageSize (front ++ xs) (front ++ ys) = front.length + agree pageSize xs ys := by
  obtain ⟨pages,whole⟩ := aligned
  rw [agree,agree,shared_append,whole,Nat.mul_add_div positive,Nat.add_mul,Nat.mul_comm pageSize pages]

theorem agree_append_left (positive : 0 < pageSize) {front ys : List α} (early : agree pageSize front ys < front.length)
    (aligned : pageSize ∣ front.length) (more : List α) : agree pageSize (front ++ more) ys = agree pageSize front ys := by
  have cut := agree_take positive ys (front ++ more) aligned
  rw [take_left,agree_comm,agree_comm ys (front ++ more)] at cut
  omega

/-- Lists that agree on no whole page differ in their first page, unless one is shorter than a page. -/
theorem agree_eq_zero (positive : 0 < pageSize) (long : pageSize ≤ xs.length)
    (none : agree pageSize xs ys = 0) : xs.take pageSize ≠ ys.take pageSize := by
  intro same
  have page : pageSize ≤ agree pageSize xs ys := by
    refine (le_agree_iff positive (Nat.dvd_refl _)).mpr ⟨long,?_,same⟩
    have lengths := congrArg List.length same
    simp only [length_take] at lengths
    omega
  omega

theorem agree_eq_zero_of_ne (positive : 0 < pageSize) (apart : xs.take pageSize ≠ ys.take pageSize) :
    agree pageSize xs ys = 0 := by
  by_contra some
  have page : pageSize ≤ agree pageSize xs ys := Nat.le_of_dvd (by omega) (agree_dvd ..)
  exact apart ((le_agree_iff positive (Nat.dvd_refl _)).mp page).2.2

end Shared

section Search
variable (same : Nat → Nat → Bool)

/-- Bisects a window that holds the first difference. -/
def narrow : Nat → Nat → Nat → Nat
  | 0, low, _ => low
  | fuel+1, low, high =>
    if 1 < high - low then
      if same low ((low + high) / 2) then narrow fuel ((low + high) / 2) high else narrow fuel low ((low + high) / 2)
    else low

/-- Doubles the window until it holds a difference or the end is reached. -/
def gallop (stop : Nat) : Nat → Nat → Nat → Nat
  | 0, _, _ => stop
  | fuel+1, low, step =>
    if low < stop then
      let high := if low + step < stop then low + step else stop
      if same low high then gallop stop fuel high (step * 2) else narrow same (high - low) low high
    else stop

variable {same} {stop point : Nat}

theorem narrow_eq (compares : ∀ low high, low ≤ point → low ≤ high → high ≤ stop → (same low high = true ↔ high ≤ point))
    {fuel low high : Nat} (enough : high - low ≤ fuel) (left : low ≤ point) (right : point < high) (inside : high ≤ stop) :
    narrow same fuel low high = point := by
  induction fuel generalizing low high with
  | zero => omega
  | succ fuel ih =>
    rw [narrow]
    by_cases wide : 1 < high - low
    · have middle := compares low ((low + high) / 2) left (by omega) (by omega)
      rw [if_pos wide]
      by_cases here : same low ((low + high) / 2) = true
      · rw [if_pos here]
        exact ih (by omega) (middle.mp here) right inside
      · rw [if_neg here]
        have below : point < (low + high) / 2 := by
          by_contra above
          exact here (middle.mpr (by omega))
        exact ih (by omega) left below (by omega)
    · rw [if_neg wide]
      omega

/-- The search finds the first difference, or the end where there is none. -/
theorem gallop_eq (compares : ∀ low high, low ≤ point → low ≤ high → high ≤ stop → (same low high = true ↔ high ≤ point))
    (bounded : point ≤ stop) {fuel low step : Nat} (enough : stop - low ≤ fuel) (moving : 0 < step) (left : low ≤ point) :
    gallop same stop fuel low step = point := by
  induction fuel generalizing low step with
  | zero => rw [gallop]; omega
  | succ fuel ih =>
    rw [gallop]
    by_cases more : low < stop
    · rw [if_pos more]
      simp only
      generalize highIs : (if low + step < stop then low + step else stop) = high
      have bounds : low < high ∧ high ≤ stop := by split at highIs <;> omega
      have window := compares low high left (by omega) bounds.2
      by_cases here : same low high = true
      · rw [if_pos here]
        exact ih (by omega) (by omega) (window.mp here)
      · rw [if_neg here]
        have inside : point < high := by
          by_contra above
          exact here (window.mpr (by omega))
        exact narrow_eq compares le_rfl left inside bounds.2
    · rw [if_neg more]
      omega

end Search
end Hypic.Agree
