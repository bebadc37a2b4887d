import Hypic.Ragged

/-! Plans of grouped causal attention. The query rows are cut into groups, each with a list of entries, and query `i` of a
    group of `n` over `m` entries sees the first `m - n + i + 1` of them: the queries are the end of their entries. -/

namespace Hypic.CausalPlan
open Ragged List
universe u
variable {α : Type u}

structure Plan (α : Type u) where
  qoIndptr : List Nat
  kvIndptr : List Nat
  kvIndices : List α
  deriving DecidableEq, Repr

namespace Plan
open List
variable (plan : Plan α)

/-- The group that a query row belongs to: the first that ends behind it. -/
def group (query : Nat) : Nat := plan.qoIndptr.tail.findIdx fun stop => query < stop

/-- The entries a query row sees. -/
def visible (query : Nat) : List α :=
  let group := plan.group query
  let first := plan.qoIndptr.getD group 0
  let queries := plan.qoIndptr.getD (group + 1) 0 - first
  let entries := row plan.kvIndptr plan.kvIndices group
  entries.take (entries.length + (query - first) + 1 - queries)
end Plan

/-- Groups of queries with their entries, one after another. -/
def ofGroups (groups : List (Nat × List α)) : Plan α :=
  ⟨cuSeqlens (groups.map Prod.fst),cuSeqlens (groups.map fun group => group.2.length),groups.flatMap Prod.snd⟩

/-- What the queries of the groups see, row by row. -/
def rowsOf (groups : List (Nat × List α)) : List (List α) :=
  groups.flatMap fun group => (List.range group.1).map fun query => group.2.take (group.2.length + query + 1 - group.1)

section Lookup

theorem cuSeqlens_tail (lengths : List Nat) {index : Nat} (bound : index < (cuSeqlens lengths).tail.length) :
    (cuSeqlens lengths).tail[index] = (lengths.take (index + 1)).sum := by
  have inside : index + 1 < (cuSeqlens lengths).length := by simpa [Nat.lt_sub_iff_add_lt] using bound
  have upper : index < lengths.length := by simpa [cuSeqlens] using inside
  have value := cuSeqlens_getD (Nat.succ_le_of_lt upper)
  rw [getElem_tail,← value,List.getD,getElem?_eq_getElem inside,Option.getD_some]

theorem take_sum_le (lengths : List Nat) {first second : Nat} (order : first ≤ second) :
    (lengths.take first).sum ≤ (lengths.take second).sum := by
  obtain ⟨more,rfl⟩ := Nat.exists_eq_add_of_le order
  rw [take_add,sum_append]
  exact Nat.le_add_right ..

variable {groups : List (Nat × List α)} {entries : List α} {index queries : Nat}

section
variable (found : groups[index]? = some (queries,entries))
include found

theorem take_sum_succ :
    ((groups.map Prod.fst).take (index + 1)).sum = ((groups.map Prod.fst).take index).sum + queries := by
  rw [take_add_one,getElem?_map,found]
  simp

theorem group_ofGroups {query : Nat} (inside : query < queries) :
    (ofGroups groups).group (((groups.map Prod.fst).take index).sum + query) = index := by
  obtain ⟨bound,-⟩ := List.getElem?_eq_some_iff.mp found
  have ends : index < (ofGroups groups).qoIndptr.tail.length := by simpa [ofGroups,cuSeqlens] using bound
  refine (findIdx_eq ends).mpr ⟨?_,fun earlier before => ?_⟩
  · rw [decide_eq_true_iff]
    refine Nat.lt_of_lt_of_eq ?_ (cuSeqlens_tail (groups.map Prod.fst) ends).symm
    rw [take_sum_succ found]
    omega
  · rw [decide_eq_false_iff_not,Nat.not_lt]
    refine Nat.le_trans (Nat.le_of_eq (cuSeqlens_tail (groups.map Prod.fst) (Nat.lt_trans before ends))) ?_
    exact Nat.le_trans (take_sum_le (groups.map Prod.fst) (Nat.succ_le_of_lt before)) (Nat.le_add_right ..)

theorem visible_ofGroups {query : Nat} (inside : query < queries) :
    (ofGroups groups).visible (((groups.map Prod.fst).take index).sum + query) =
      entries.take (entries.length + query + 1 - queries) := by
  obtain ⟨bound,-⟩ := List.getElem?_eq_some_iff.mp found
  have cut : row (ofGroups groups).kvIndptr (ofGroups groups).kvIndices index = entries := by
    have listed : (groups.map Prod.snd)[index]? = some entries := by rw [getElem?_map,found]; rfl
    have parts := row_flatten (groups.map Prod.snd) listed
    rw [map_map] at parts
    rw [ofGroups,flatMap_def]
    exact parts
  have first : (ofGroups groups).qoIndptr.getD index 0 = ((groups.map Prod.fst).take index).sum :=
    cuSeqlens_getD (by simpa using Nat.le_of_lt bound)
  have next : (ofGroups groups).qoIndptr.getD (index + 1) 0 = ((groups.map Prod.fst).take index).sum + queries := by
    rw [ofGroups,cuSeqlens_getD (by simpa using Nat.succ_le_of_lt bound),take_sum_succ found]
  simp only [Plan.visible,group_ofGroups found inside,cut,first,next,Nat.add_sub_cancel_left]

end

theorem visible_rowsOf {query : Nat}
    (found : (rowsOf groups)[query]? = some entries) : (ofGroups groups).visible query = entries := by
  suffices ∃ index queries part offset, groups[index]? = some (queries,part) ∧ offset < queries ∧
      query = ((groups.map Prod.fst).take index).sum + offset ∧ entries = part.take (part.length + offset + 1 - queries) by
    obtain ⟨index,queries,part,offset,listed,inside,rfl,rfl⟩ := this
    exact visible_ofGroups listed inside
  induction groups generalizing query with
  | nil => simp [rowsOf] at found
  | cons group rest ih =>
    obtain ⟨queries,part⟩ := group
    rw [rowsOf,flatMap_cons] at found
    by_cases here : query < queries
    · rw [getElem?_append_left (by simpa using here)] at found
      refine ⟨0,queries,part,query,rfl,here,by simp,?_⟩
      simpa [here] using found.symm
    · rw [getElem?_append_right (by simpa using here)] at found
      simp only [length_map,length_range] at found
      obtain ⟨index,count,later,offset,listed,inside,place,rfl⟩ := ih found
      refine ⟨index + 1,count,later,offset,listed,inside,?_,rfl⟩
      simp only [map_cons,take_succ_cons,sum_cons]
      omega
end Lookup

end Hypic.CausalPlan
