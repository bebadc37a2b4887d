import Hypic.CausalPlan
import Hypic.Recompute
import Hypic.Refill

/-! The shared prefill plan of the full-attention layers. Every miss is a group of queries over the request's row up to its
    end; all seam tokens of a request are one more group behind its misses, while the rows themselves are in prompt order. -/

namespace Hypic.PrefillPlan
open Policy Allocator Cache Request Alloc Forward Ragged Gdn Recompute Refill CausalPlan List
universe u
variable {Hash : Type u} [DecidableEq Hash]

section Plan

/-- One group of the plan: its queries, how far into the row they see, and the request. -/
structure PlanSeg (Hash : Type u) [DecidableEq Hash] where
  qLen : Nat
  kvLen : Nat
  req : Req Hash

/-- The seam positions in `pic_rope_meta`, which only seam recompute fills in. -/
def hitSeam (args : ServerArgs Hash) (req : Req Hash) : Dict Seg (List Nat) :=
  if args.recompute then req.picHitSeamPositions else .empty

def planSegs (args : ServerArgs Hash) (req : Req Hash) : List (PlanSeg Hash) :=
  let totalSeam := ((hitSeam args req).values.map List.length).sum
  let maxKv := (req.picMissSegments.getLast?.map Prod.snd).getD 0
  (req.picMissSegments.map fun seg => ⟨seg.2 - seg.1,seg.2,req⟩) ++ if 0 < totalSeam then [⟨totalSeam,maxKv,req⟩] else []

def initPicPrefillPlan (args : ServerArgs Hash) (batch : List (Req Hash)) : Option (Plan Slot) :=
  let segs := batch.flatMap (planSegs args)
  if segs.isEmpty then none
  else some ⟨cuSeqlens (segs.map PlanSeg.qLen),cuSeqlens (segs.map PlanSeg.kvLen),segs.flatMap fun seg => seg.req.rowSlice 0 seg.kvLen⟩

/-- The query rows: the forwarded tokens of the batch with their positions. -/
def queryRows (batch : List (Req Hash)) : List (Req Hash × Nat) :=
  batch.flatMap fun req => req.picMissTokenPositions.map fun pos => (req,pos)

/-- Every query row sees the row of its request up to its own position, and nothing else. -/
def Causal (args : ServerArgs Hash) (batch : List (Req Hash)) : Prop :=
  ∀ (query : Nat) (req : Req Hash) (pos : Nat), (queryRows batch)[query]? = some (req,pos) →
    ∃ plan, initPicPrefillPlan args batch = some plan ∧ plan.visible query = req.rowSlice 0 (pos + 1)
end Plan

section Rows
variable {args : ServerArgs Hash}

theorem rowSlice_length (req : Req Hash) (stop : Nat) : (req.rowSlice 0 stop).length = stop := by simp [Req.rowSlice]

theorem rowSlice_take (req : Req Hash) {count stop : Nat} (short : count ≤ stop) :
    (req.rowSlice 0 stop).take count = req.rowSlice 0 count := by
  simp only [Req.rowSlice,Nat.sub_zero,← range_eq_range',← map_take,take_range,Nat.min_eq_left short]

def groups (args : ServerArgs Hash) (req : Req Hash) : List (Nat × List Slot) :=
  (planSegs args req).map fun seg => (seg.qLen,seg.req.rowSlice 0 seg.kvLen)

theorem initPicPrefillPlan_groups (args : ServerArgs Hash) (batch : List (Req Hash)) :
    initPicPrefillPlan args batch =
      if (batch.flatMap (groups args)).isEmpty then none else some (ofGroups (batch.flatMap (groups args))) := by
  have same : batch.flatMap (groups args) = (batch.flatMap (planSegs args)).map fun seg => (seg.qLen,seg.req.rowSlice 0 seg.kvLen) := by
    rw [map_flatMap]
    rfl
  rw [same,initPicPrefillPlan,isEmpty_map,ofGroups]
  simp only [map_map,flatMap_map,comp_def,rowSlice_length]

theorem causal_iff_rows {batch : List (Req Hash)} (count : (queryRows batch).length = (rowsOf (batch.flatMap (groups args))).length) :
    Causal args batch ↔ (queryRows batch).map (fun row => row.1.rowSlice 0 (row.2 + 1)) = rowsOf (batch.flatMap (groups args)) := by
  constructor
  · intro causal
    refine ext_getElem? fun query => ?_
    cases listed : (queryRows batch)[query]? with
    | none =>
      have beyond := List.getElem?_eq_none_iff.mp listed
      rw [getElem?_eq_none (by simpa using beyond),getElem?_eq_none (by omega)]
    | some row =>
      obtain ⟨plan,planned,seen⟩ := causal query row.1 row.2 listed
      obtain ⟨bound,-⟩ := List.getElem?_eq_some_iff.mp listed
      have inside : query < (rowsOf (batch.flatMap (groups args))).length := by omega
      rw [initPicPrefillPlan_groups] at planned
      split at planned
      · cases planned
      · cases planned
        rw [getElem?_map,listed,map_some,getElem?_eq_getElem inside,← seen,
          visible_rowsOf (getElem?_eq_getElem inside)]
  · intro same query req pos listed
    have row : (rowsOf (batch.flatMap (groups args)))[query]? = some (req.rowSlice 0 (pos + 1)) := by
      rw [← same,getElem?_map,listed]
      rfl
    refine ⟨ofGroups (batch.flatMap (groups args)),?_,visible_rowsOf row⟩
    rw [initPicPrefillPlan_groups,if_neg]
    intro empty
    rw [List.isEmpty_iff.mp empty] at row
    cases row

theorem flatMap_eq_iff {α β : Type*} (items : List α) (left right : α → List β)
    (lengths : ∀ item ∈ items, (left item).length = (right item).length) :
    items.flatMap left = items.flatMap right ↔ ∀ item ∈ items, left item = right item := by
  refine ⟨fun same => ?_,flatMap_congr⟩
  induction items with
  | nil => exact fun _ member => nomatch member
  | cons item rest ih =>
    rw [flatMap_cons,flatMap_cons] at same
    obtain ⟨here,later⟩ := append_inj same (lengths item mem_cons_self)
    refine forall_mem_cons.mpr ⟨here,ih (forall_mem_cons.mp lengths).2 later⟩

variable {req : Req Hash}

theorem seamTokens_eq (loaded : Loaded args req) :
    ((hitSeam args req).values.map List.length).sum = seamTokens req.picHitSeamPositions := by
  have same : hitSeam args req = req.picHitSeamPositions := by
    by_cases recompute : args.recompute = true
    · rw [hitSeam,if_pos recompute]
    · rw [hitSeam,if_neg recompute,loaded.seams (by simpa using recompute)]
  rw [same]
  simp [seamTokens,Dict.total,Dict.values,comp_def]

/-- What the plan shows to a request's queries: a miss's own tokens see up to themselves, and the seam group is the end of
    the whole row. -/
theorem rowsOf_groups (loaded : Loaded args req) :
    rowsOf (groups args req) =
      (req.picMissSegments.flatMap fun seg => List.range' seg.1 (seg.2 - seg.1)).map (fun pos => req.rowSlice 0 (pos + 1)) ++
      (List.range (seamTokens req.picHitSeamPositions)).map fun query =>
        (req.rowSlice 0 ((req.picMissSegments.getLast?.map Prod.snd).getD 0)).take
          ((req.picMissSegments.getLast?.map Prod.snd).getD 0 + query + 1 - seamTokens req.picHitSeamPositions) := by
  have seams : rowsOf ((if 0 < ((hitSeam args req).values.map List.length).sum then
      [(⟨((hitSeam args req).values.map List.length).sum,(req.picMissSegments.getLast?.map Prod.snd).getD 0,req⟩ : PlanSeg Hash)]
      else []).map fun seg => (seg.qLen,seg.req.rowSlice 0 seg.kvLen)) =
        (List.range (seamTokens req.picHitSeamPositions)).map fun query =>
          (req.rowSlice 0 ((req.picMissSegments.getLast?.map Prod.snd).getD 0)).take
            ((req.picMissSegments.getLast?.map Prod.snd).getD 0 + query + 1 - seamTokens req.picHitSeamPositions) := by
    rw [seamTokens_eq loaded]
    by_cases none : 0 < seamTokens req.picHitSeamPositions
    · simp [none,rowsOf,rowSlice_length]
    · obtain nothing : seamTokens req.picHitSeamPositions = 0 := by omega
      simp [nothing,rowsOf]
  rw [groups,planSegs,map_append,rowsOf,flatMap_append]
  refine congrArg₂ _ ?_ seams
  rw [map_map,flatMap_map,map_flatMap]
  refine flatMap_congr fun seg missed => ?_
  have bounds := loaded.matched.consecutive.mem_bounds (loaded.matched.misses.subset missed)
  rw [List.range'_eq_map_range,map_map]
  refine map_congr_left fun query inside => ?_
  rw [mem_range] at inside
  simp only [comp_apply] at inside ⊢
  rw [rowSlice_length,rowSlice_take req (by omega)]
  exact congrArg _ (by omega)

theorem rowsOf_length (loaded : Loaded args req) :
    (req.picMissTokenPositions.map fun pos => req.rowSlice 0 (pos + 1)).length = (rowsOf (groups args req)).length := by
  rw [rowsOf_groups loaded,loaded.positions]
  simp [missTokenPositions_length,tokens,length_flatMap]

theorem seamTokens_pos (loaded : Loaded args req) (seams : req.picHitSeamPositions ≠ .empty) :
    0 < seamTokens req.picHitSeamPositions ∧ ∃ last, req.lastSeg = some last := by
  obtain ⟨seg,positions,found⟩ : ∃ seg positions, req.picHitSeamPositions.get? seg = some positions := by
    by_contra absent
    refine seams (Dict.eq_empty fun seg => ?_)
    cases found : req.picHitSeamPositions.get? seg with
    | none => rfl
    | some positions => exact absurd ⟨seg,positions,found⟩ absent
  obtain ⟨hit,-,width,rfl,positive,-⟩ := loaded.seamed seg positions found
  constructor
  · rw [seamTokens,Dict.total_of_get? _ found,length_range']
    omega
  · cases last : req.lastSeg with
    | some final => exact ⟨final,rfl⟩
    | none =>
      have inside := loaded.matched.hits.subset hit
      rw [getLast?_eq_none_iff.mp last] at inside
      cases inside

/-- One request's rows are causal exactly when it has no seams: the group of the seams starts over from an earlier position. -/
theorem rowsOf_causal_iff (loaded : Loaded args req) :
    (req.picMissTokenPositions.map fun pos => req.rowSlice 0 (pos + 1)) = rowsOf (groups args req) ↔
      req.picHitSeamPositions = .empty := by
  constructor
  · intro same
    by_contra seams
    obtain ⟨some,last,lastSeg⟩ := seamTokens_pos loaded seams
    have missed := loaded.matched.last last lastSeg
    have bounds := loaded.matched.consecutive.mem_bounds (loaded.matched.misses.subset missed)
    have increasing : ((req.picMissTokenPositions.map fun pos => req.rowSlice 0 (pos + 1)).map List.length).Pairwise (· < ·) := by
      rw [map_map,pairwise_map,positions_rows loaded]
      refine (rowPositions_sorted loaded).imp fun {left right} before => ?_
      simp only [comp_apply,rowSlice_length]
      omega
    rw [same,rowsOf_groups loaded,map_append,pairwise_append,lastMiss loaded.matched.toPartitioned,lastSeg] at increasing
    -- the last token of the last miss sees the whole row, and so no row behind it can see more
    have order := increasing.2.2 last.2 ?_ _ (mem_map.mpr ⟨_,mem_map.mpr ⟨0,mem_range.mpr some,rfl⟩,rfl⟩)
    · rw [length_take,rowSlice_length] at order
      simp only [map_some,getD_some] at order
      omega
    · refine mem_map.mpr ⟨_,mem_map.mpr ⟨last.2 - 1,mem_flatMap.mpr ⟨last,missed,?_⟩,rfl⟩,?_⟩
      · rw [mem_range'_1]
        omega
      · rw [rowSlice_length]
        omega
  · intro plain
    rw [rowsOf_groups loaded,loaded.positions,plain,missTokenPositions]
    simp [seamTokens]

/-- The shared prefill plan of an allocated batch is causal exactly when no hit has seam tokens in the batch. -/
theorem prefill_plan_causal_iff (pools : Pools Hash) (reqs : List (Req Hash)) (extended : Extended Hash)
    (scheduled : ∀ req ∈ reqs, Scheduled args pools req) (executed : picAllocForExtend args pools reqs = some extended) :
    Causal args extended.reqs ↔ ∀ req ∈ reqs, req.picHitSeamPositions = .empty := by
  obtain ⟨prefilled,-⟩ := scheduled_spec scheduled executed
  have loaded : ∀ req ∈ extended.reqs, Loaded args req := by
    intro req member
    obtain ⟨before,inside,related⟩ := exists_left prefilled member
    exact prefilled_loaded related (scheduled before inside)
  have rows : (queryRows extended.reqs).map (fun row => row.1.rowSlice 0 (row.2 + 1)) =
      extended.reqs.flatMap fun req => req.picMissTokenPositions.map fun pos => req.rowSlice 0 (pos + 1) := by
    simp only [queryRows,map_flatMap,map_map]
    rfl
  have parts : rowsOf (extended.reqs.flatMap (groups args)) = extended.reqs.flatMap fun req => rowsOf (groups args req) := by
    rw [rowsOf,flatMap_assoc]
    rfl
  have lengths : ∀ req ∈ extended.reqs, (req.picMissTokenPositions.map fun pos => req.rowSlice 0 (pos + 1)).length =
      (rowsOf (groups args req)).length := fun req member => rowsOf_length (loaded req member)
  rw [causal_iff_rows,rows,parts,flatMap_eq_iff _ _ _ lengths]
  · constructor
    · intro each req member
      obtain ⟨after,inside,related⟩ := exists_right prefilled member
      exact (prefilled_match related).picHitSeamPositions.symm.trans ((rowsOf_causal_iff (loaded after inside)).mp (each after inside))
    · intro plain req member
      obtain ⟨before,inside,related⟩ := exists_left prefilled member
      exact (rowsOf_causal_iff (loaded req member)).mpr ((prefilled_match related).picHitSeamPositions.trans (plain before inside))
  · rw [← length_map,rows,parts,length_flatMap,length_flatMap]
    exact congrArg List.sum (map_congr_left lengths)
end Rows

section Runs
/-- A hit `[1,2]` and two misses without seams. -/
theorem prefill_plan_causal_iff_warmPass : ∃ final, warmPass (seamArgs 0) [[4],[1,2],[5,6]] = some final ∧
    ∃ extended, picAllocForExtend (seamArgs 0) final.pools final.canRunList = some extended ∧
      (queryRows extended.reqs).map Prod.snd = [0,3,4] ∧ Causal (seamArgs 0) extended.reqs := by
  obtain ⟨final,passed,extended,executed,plain,positions⟩ : ∃ final ∈ warmPass (seamArgs 0) [[4],[1,2],[5,6]],
      ∃ extended ∈ picAllocForExtend (seamArgs 0) final.pools final.canRunList,
        (∀ req ∈ final.canRunList, req.picHitSeamPositions.items = []) ∧ (queryRows extended.reqs).map Prod.snd = [0,3,4] := by decide +kernel
  refine ⟨final,passed,extended,executed,positions,?_⟩
  exact (prefill_plan_causal_iff final.pools final.canRunList extended (warmPass_scheduled _ _ (by decide) passed) executed).mpr
    fun req member => Dict.ext (plain req member)

/-- A hit `[1,2]` behind a miss, its first token recomputed: the row of position 1 sees the first four positions. -/
theorem seam_sees_future : ∃ final ∈ warmPass (seamArgs 1) [[4],[1,2],[5,6]],
    ∃ extended ∈ picAllocForExtend (seamArgs 1) final.pools final.canRunList, (queryRows extended.reqs).map Prod.snd = [0,1,3,4] ∧
      ∃ plan ∈ initPicPrefillPlan (seamArgs 1) extended.reqs, ∀ req ∈ extended.reqs,
        plan.visible 1 = req.rowSlice 0 4 ∧ plan.visible 1 ≠ req.rowSlice 0 2 := by decide +kernel
end Runs

end Hypic.PrefillPlan
