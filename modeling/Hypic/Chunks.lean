import Mathlib.Data.List.Infix
import Hypic.Pages

/-! A sequence cut into chunks of one size, the last one shorter where the sequence does not fill it. -/

namespace Hypic.Chunks
open Pages List
universe u
variable {α : Type u} {size : Nat}

def chunks (size : Nat) (items : List α) : List (List α) :=
  (List.range (ceil size items.length)).map (fun index => (items.drop (index * size)).take size)

@[simp] theorem chunks_length (items : List α) : (chunks size items).length = ceil size items.length := by simp [chunks]

@[simp] theorem chunks_nil (positive : 0 < size) : chunks size ([] : List α) = [] := by
  rw [chunks,length_nil,(ceil_eq_zero positive).mpr rfl]
  rfl

theorem chunks_getElem? (items : List α) {index : Nat} (inside : index < ceil size items.length) :
    (chunks size items)[index]? = some ((items.drop (index * size)).take size) := by
  simp [chunks,getElem?_range inside]

variable {items : List α}

theorem chunks_eq_nil (positive : 0 < size) : chunks size items = [] ↔ items = [] := by
  rw [← length_eq_zero_iff,chunks_length,ceil_eq_zero positive,length_eq_zero_iff]

theorem chunks_append (positive : 0 < size) {front : List α} (aligned : size ∣ front.length) (back : List α) :
    chunks size (front ++ back) = chunks size front ++ chunks size back := by
  obtain ⟨count,whole⟩ := aligned
  rw [Nat.mul_comm] at whole
  have total : ceil size (front ++ back).length = count + ceil size back.length := by
    rw [length_append,whole,ceil_add_mul positive]
  have first : ceil size front.length = count := by rw [whole,ceil_mul positive]
  refine ext_getElem? (fun index => ?_)
  rcases Nat.lt_or_ge index count with early | late
  · have inside : index * size + size ≤ front.length := by
      rw [whole,← Nat.succ_mul]; exact Nat.mul_le_mul_right _ early
    rw [chunks_getElem? _ (by omega),getElem?_append_left (by rw [chunks_length]; omega),chunks_getElem? _ (by omega),
      drop_append_of_le_length (by omega),take_append_of_le_length (by rw [length_drop]; omega)]
  · rw [getElem?_append_right (by rw [chunks_length]; omega),chunks_length,first]
    rcases Nat.lt_or_ge index (count + ceil size back.length) with inside | past
    · have place : index * size = front.length + (index - count) * size := by
        rw [whole,← Nat.add_mul,Nat.add_sub_cancel' late]
      rw [chunks_getElem? _ (by omega),chunks_getElem? _ (by omega),place,drop_length_add_append]
    · rw [getElem?_eq_none (by rw [chunks_length]; omega),getElem?_eq_none (by rw [chunks_length]; omega)]

theorem chunks_take (positive : 0 < size) (items : List α) {count : Nat} (inside : count * size ≤ items.length) :
    chunks size (items.take (count * size)) = (chunks size items).take count := by
  have sized : (items.take (count * size)).length = count * size := by rw [length_take_of_le inside]
  conv_rhs => rw [← take_append_drop (count * size) items]
  rw [chunks_append positive (by rw [sized]; exact Nat.dvd_mul_left ..)]
  refine (take_left' ?_).symm
  rw [chunks_length,sized,ceil_mul positive]

/-- A longer start in whole chunks has the chunks of a shorter one and some more. -/
theorem chunks_take_more (positive : 0 < size) (items : List α) {less more : Nat} (order : less ≤ more) (inside : more * size ≤ items.length) :
    chunks size (items.take (more * size)) = chunks size (items.take (less * size)) ++ (chunks size (items.drop (less * size))).take (more - less) := by
  have short : less * size ≤ items.length := (Nat.mul_le_mul_right size order).trans inside
  have sized : (items.take (less * size)).length = less * size := by rw [length_take_of_le short]
  have count : (chunks size (items.take (less * size))).length = less := by rw [chunks_length,sized,ceil_mul positive]
  rw [chunks_take positive items inside]
  conv_lhs => rw [← take_append_drop (less * size) items]
  rw [chunks_append positive (by rw [sized]; exact Nat.dvd_mul_left ..),take_append,take_of_length_le (by omega),count]

theorem flatten_chunks (positive : 0 < size) (aligned : size ∣ items.length) : (chunks size items).flatten = items := by
  obtain ⟨count,whole⟩ := aligned
  induction count generalizing items with
  | zero =>
    rw [length_eq_zero_iff.mp whole,chunks_nil positive]
    rfl
  | succ count ih =>
    have long : size ≤ items.length := by rw [whole]; exact Nat.le_mul_of_pos_right _ (Nat.succ_pos _)
    have first : chunks size (items.take size) = [items.take size] := by
      rw [chunks,length_take_of_le long,ceil_eq_one positive positive le_rfl]
      simp
    conv_lhs => rw [← take_append_drop size items]
    rw [chunks_append positive (by rw [length_take_of_le long]),first,flatten_append,
      ih (by rw [length_drop,whole,Nat.mul_succ]; omega)]
    simp

theorem chunks_injective (positive : 0 < size) {left right : List α} (leftAligned : size ∣ left.length)
    (rightAligned : size ∣ right.length) (same : chunks size left = chunks size right) : left = right := by
  rw [← flatten_chunks positive leftAligned,same,flatten_chunks positive rightAligned]

theorem length_of_mem_chunks (positive : 0 < size) (aligned : size ∣ items.length) {chunk : List α}
    (member : chunk ∈ chunks size items) : chunk.length = size := by
  obtain ⟨count,whole⟩ := aligned
  rw [Nat.mul_comm] at whole
  obtain ⟨index,inside,rfl⟩ := mem_map.mp member
  rw [mem_range,whole,ceil_mul positive] at inside
  rw [length_take,length_drop,whole,← Nat.sub_mul,min_eq_left]
  exact Nat.le_mul_of_pos_left _ (by omega)

end Hypic.Chunks
