import Mathlib.Algebra.BigOperators.Group.List.Basic
import Mathlib.Algebra.GroupWithZero.Nat

/-! Ragged batches: rows of different lengths packed one after another and cut out again by cumulative
    lengths, lists worked off in groups, and tables written at a list of places. -/

namespace Hypic.Ragged
open List
universe u v
variable {α : Type u}

section Rows

/-- Where each row starts, and last where the packed list ends. -/
def cuSeqlens (lengths : List Nat) : List Nat := lengths.scanl (· + ·) 0

/-- The packed elements between two consecutive offsets. -/
def row (cu : List Nat) (packed : List α) (index : Nat) : List α :=
  (packed.take (cu.getD (index + 1) 0)).drop (cu.getD index 0)

theorem cuSeqlens_getD {lengths : List Nat} {index : Nat} (bound : index ≤ lengths.length) :
    (cuSeqlens lengths).getD index 0 = (lengths.take index).sum := by
  have shifted (start : Nat) : (lengths.scanl (· + ·) start).getD index 0 = start + (lengths.take index).sum := by
    induction lengths generalizing index start with
    | nil =>
      obtain rfl : index = 0 := by simpa using bound
      simp
    | cons length rest ih =>
      cases index with
      | zero => simp
      | succ index =>
        rw [scanl_cons,getD_cons_succ,ih (by simpa using bound),take_succ_cons,sum_cons,Nat.add_assoc]
  rw [cuSeqlens,shifted,Nat.zero_add]

theorem row_flatten (rows : List (List α)) {index : Nat} {part : List α} (found : rows[index]? = some part) :
    row (cuSeqlens (rows.map List.length)) rows.flatten index = part := by
  obtain ⟨bound,-⟩ := List.getElem?_eq_some_iff.mp found
  unfold row
  rw [cuSeqlens_getD (by simpa using Nat.le_of_lt bound),cuSeqlens_getD (by simpa using Nat.succ_le_of_lt bound)]
  induction rows generalizing index with
  | nil => simp at found
  | cons head rest ih =>
    cases index with
    | zero =>
      cases found
      simp
    | succ index =>
      simp only [getElem?_cons_succ] at found
      simp only [map_cons,take_succ_cons,sum_cons,flatten_cons]
      rw [take_length_add_append,drop_length_add_append]
      exact ih found (by simpa using bound)

/-- Groups of up to `size` consecutive elements. -/
def chunks (size : Nat) (items : List α) : List (List α) :=
  (List.range ((items.length + size - 1) / size)).map fun group => (items.drop (group * size)).take size

theorem chunks_flatten {size : Nat} (positive : 0 < size) (items : List α) : (chunks size items).flatten = items := by
  have front (groups : Nat) : ((List.range groups).map fun group => (items.drop (group * size)).take size).flatten =
      items.take (groups * size) := by
    induction groups with
    | zero => simp
    | succ groups ih =>
      rw [range_succ,map_append,flatten_append,ih,Nat.succ_mul,take_add]
      simp
  rw [chunks,front,take_of_length_le]
  have := Nat.div_add_mod (items.length + size - 1) size
  have := Nat.mod_lt (items.length + size - 1) positive
  have := Nat.mul_comm size ((items.length + size - 1) / size)
  omega

theorem chunk_sublist {size : Nat} {items group : List α} (member : group ∈ chunks size items) : group.Sublist items := by
  obtain ⟨index,-,rfl⟩ := mem_map.mp member
  exact (take_sublist ..).trans (drop_sublist ..)

theorem slice_window (items : List α) {base start stop limit : Nat} (lower : base ≤ start) (order : start ≤ stop) (upper : stop ≤ limit) :
    ((((items.drop base).take (limit - base)).drop (start - base)).take (stop - start)) = (items.drop start).take (stop - start) := by
  rw [drop_take,drop_drop,take_take,show base + (start - base) = start by omega,
    show min (stop - start) (limit - base - (start - base)) = stop - start by omega]
end Rows

section Scatter
variable {κ : Type u} {ν : Type v} [DecidableEq κ]

/-- `table[places] = values`, one write after another. -/
def scatter (table : κ → ν) (writes : List (κ × ν)) : κ → ν :=
  writes.foldl (fun table write => Function.update table write.1 write.2) table

theorem scatter_other (writes : List (κ × ν)) (table : κ → ν) {place : κ} (other : place ∉ writes.map Prod.fst) :
    scatter table writes place = table place := by
  induction writes generalizing table with
  | nil => rfl
  | cons write rest ih =>
    rw [map_cons,mem_cons,not_or] at other
    refine (ih _ other.2).trans ?_
    exact Function.update_of_ne other.1 ..

theorem scatter_mem (writes : List (κ × ν)) (table : κ → ν) (distinct : (writes.map Prod.fst).Nodup) {place : κ} {value : ν}
    (member : (place,value) ∈ writes) : scatter table writes place = value := by
  induction writes generalizing table with
  | nil => cases member
  | cons write rest ih =>
    rw [map_cons,nodup_cons] at distinct
    rcases mem_cons.mp member with rfl | later
    · refine (scatter_other rest _ distinct.1).trans ?_
      exact Function.update_self ..
    · exact ih _ distinct.2 later

theorem scatter_unique (writes : List (κ × ν)) (table : κ → ν) {place : κ} {value : ν} (member : (place,value) ∈ writes)
    (only : ∀ other, (place,other) ∈ writes → other = value) : scatter table writes place = value := by
  induction writes generalizing table with
  | nil => cases member
  | cons write rest ih =>
    by_cases again : place ∈ rest.map Prod.fst
    · obtain ⟨⟨same,other⟩,later,rfl⟩ := mem_map.mp again
      obtain rfl := only other (mem_cons_of_mem _ later)
      exact ih _ later fun other listed => only other (mem_cons_of_mem _ listed)
    · refine (scatter_other rest _ again).trans ?_
      rcases mem_cons.mp member with rfl | later
      · exact Function.update_self ..
      · exact absurd (mem_map_of_mem later) again
end Scatter
end Hypic.Ragged
