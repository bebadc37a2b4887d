import Hypic.PhaseC

/-! Phase C over a batch. The rows of all requests are numbered through, handed back to their requests by three different
    routes and planned; a batch that a rope mode has allocated meets the condition under which the plan is causal. -/

namespace Hypic.PhaseCBatch
open Policy Allocator Cache Request Alloc Custody Forward Ragged CausalPlan PhaseC List Function
universe u
variable {Hash : Type u} [DecidableEq Hash]
variable {infos : List RopeMeta} {info : RopeMeta}

section Numbering
variable (isRecompute : Bool)

/-- Requests with their index and the number of their first row. -/
def blocks : Nat → Nat → List RopeMeta → List ((RopeMeta × Nat) × Nat)
  | _, _, [] => []
  | index, base, info::rest => ((info,index),base)::blocks (index + 1) (base + (info.entries isRecompute).length) rest

theorem blocks_requests (index base : Nat) (infos : List RopeMeta) : (blocks isRecompute index base infos).map Prod.fst = infos.zipIdx index := by
  induction infos generalizing index base with
  | nil => rfl
  | cons info rest ih => rw [blocks,map_cons,ih,zipIdx_cons]

theorem blocks_infos (index base : Nat) (infos : List RopeMeta) :
    ((blocks isRecompute index base infos).map fun block => block.1.1) = infos := by
  have requests := congrArg (List.map Prod.fst) (blocks_requests isRecompute index base infos)
  rwa [map_map,zipIdx_map_fst] at requests

theorem blocks_rows (index base : Nat) (infos : List RopeMeta) :
    ((blocks isRecompute index base infos).flatMap fun block => List.range' block.2 (block.1.1.entries isRecompute).length) =
      List.range' base (queryRows isRecompute infos).length := by
  induction infos generalizing index base with
  | nil => rfl
  | cons info rest ih =>
    rw [blocks,flatMap_cons,ih,List.range'_append_1]
    simp [queryRows]

/-- The row that a block gives to a position. -/
def blockRow (block : (RopeMeta × Nat) × Nat) (pos : Nat) : Nat := rowOf isRecompute block.1.1 block.2 pos

variable {pos : Nat}

theorem blocks_queryRows (index base : Nat) (distinct : ∀ info ∈ infos, (info.entries isRecompute).Nodup)
    {query : Nat} (found : (queryRows isRecompute infos)[query]? = some (info,pos)) :
    ∃ block ∈ blocks isRecompute index base infos, block.1.1 = info ∧ pos ∈ info.entries isRecompute ∧
      base + query = blockRow isRecompute block pos := by
  induction infos generalizing index base query with
  | nil => cases found
  | cons head rest ih =>
    rw [queryRows,flatMap_cons] at found
    by_cases here : query < (head.entries isRecompute).length
    · rw [getElem?_append_left (by simpa using here),getElem?_map,getElem?_eq_getElem here] at found
      simp only [map_some,Option.some.injEq,Prod.mk.injEq] at found
      obtain ⟨rfl,rfl⟩ := found
      refine ⟨_,mem_cons_self ..,rfl,getElem_mem here,?_⟩
      rw [blockRow,rowOf,(distinct head mem_cons_self).idxOf_getElem]
    · rw [getElem?_append_right (by simpa using here),length_map] at found
      obtain ⟨block,member,same,inside,row⟩ :=
        ih (index + 1) (base + (head.entries isRecompute).length) (forall_mem_cons.mp distinct).2 found
      refine ⟨block,mem_cons_of_mem _ member,same,inside,?_⟩
      rw [← row]
      omega

variable {block : (RopeMeta × Nat) × Nat}

theorem queryRows_block {index base : Nat}
    (member : block ∈ blocks isRecompute index base infos) (inside : pos ∈ block.1.1.entries isRecompute) :
    base ≤ blockRow isRecompute block pos ∧
      (queryRows isRecompute infos)[blockRow isRecompute block pos - base]? = some (block.1.1,pos) := by
  induction infos generalizing index base with
  | nil => cases member
  | cons head rest ih =>
    rw [queryRows,flatMap_cons]
    rcases mem_cons.mp member with rfl | later
    · have bound := idxOf_lt_length_iff.mpr inside
      simp only [blockRow,rowOf,Nat.add_sub_cancel_left]
      refine ⟨Nat.le_add_right ..,?_⟩
      rw [getElem?_append_left (by simpa using bound),getElem?_map,getElem?_eq_getElem bound,getElem_idxOf]
      rfl
    · obtain ⟨lower,found⟩ := ih later
      refine ⟨by omega,?_⟩
      rw [getElem?_append_right (by simp only [length_map]; omega),length_map,← found]
      exact congrArg (fun query => (queryRows isRecompute rest)[query]?) (by omega)

theorem foldl_add (infos : List RopeMeta) (index : Nat) (rows : QRows) :
    (infos.zipIdx index).foldl (QRows.add isRecompute) rows =
      ⟨rows.perReqAbsToQ ++ (blocks isRecompute index rows.cursor infos).map
          (fun block => Dict.empty.setAll ((block.1.1.entries isRecompute).zipIdx block.2)),
        rows.qToReqAbs.setAll ((blocks isRecompute index rows.cursor infos).flatMap fun block =>
          ((block.1.1.entries isRecompute).zipIdx block.2).map fun row => (row.2,block.1.2,row.1)),
        rows.cursor + (queryRows isRecompute infos).length⟩ := by
  induction infos generalizing index rows with
  | nil => simp [blocks,queryRows]
  | cons info rest ih =>
    rw [zipIdx_cons,foldl_cons,ih]
    simp [QRows.add,blocks,queryRows,Dict.setAll_append,Nat.add_assoc]

variable {isRecompute}

theorem absToQ_get {base pos : Nat} (distinct : (info.entries isRecompute).Nodup) (inside : pos ∈ info.entries isRecompute) :
    (Dict.empty.setAll ((info.entries isRecompute).zipIdx base)).get? pos = some (rowOf isRecompute info base pos) := by
  refine Dict.get?_setAll_mem _ _ (by simpa [zipIdx_map_fst] using distinct) ?_
  have bound := idxOf_lt_length_iff.mpr inside
  refine mk_mem_zipIdx_iff_le_and_getElem?_sub.mpr ⟨Nat.le_add_right ..,?_⟩
  rw [rowOf,Nat.add_sub_cancel_left,getElem?_eq_getElem bound,getElem_idxOf]

theorem qToReqAbs_get (member : block ∈ blocks isRecompute 0 0 infos)
    (inside : pos ∈ block.1.1.entries isRecompute) :
    (qRows isRecompute infos).qToReqAbs.get? (blockRow isRecompute block pos) = some (block.1.2,pos) := by
  have keys : ((blocks isRecompute 0 0 infos).flatMap fun block =>
      ((block.1.1.entries isRecompute).zipIdx block.2).map fun row => (row.2,block.1.2,row.1)).map Prod.fst =
        List.range' 0 (queryRows isRecompute infos).length := by
    rw [← blocks_rows isRecompute 0 0 infos,map_flatMap]
    refine flatMap_congr fun block _ => ?_
    rw [map_map]
    exact zipIdx_map_snd ..
  have bound := idxOf_lt_length_iff.mpr inside
  rw [qRows,foldl_add]
  refine Dict.get?_setAll_mem _ _ (by rw [keys]; exact nodup_range') (mem_flatMap.mpr ⟨block,member,mem_map.mpr ?_⟩)
  refine ⟨(pos,blockRow isRecompute block pos),?_,rfl⟩
  refine mk_mem_zipIdx_iff_le_and_getElem?_sub.mpr ⟨Nat.le_add_right ..,?_⟩
  rw [blockRow,rowOf,Nat.add_sub_cancel_left,getElem?_eq_getElem bound,getElem_idxOf]

theorem mem_entries : pos ∈ info.entries isRecompute ↔
    (pos ∈ info.localPositions ∨ pos ∈ info.globalPositions) ∨ pos ∈ (info.seams isRecompute).map Prod.fst := by
  rw [RopeMeta.entries,mem_insertionSort,mem_append,mem_append]

theorem blocks_info {index base : Nat}
    (member : block ∈ blocks isRecompute index base infos) : block.1.1 ∈ infos := by
  have listed := mem_map_of_mem (f := fun block : (RopeMeta × Nat) × Nat => block.1.1) member
  rwa [blocks_infos] at listed

theorem qLists_eq (distinct : ∀ info ∈ infos, (info.entries isRecompute).Nodup) :
    qLists isRecompute infos (qRows isRecompute infos) = some
      ⟨(blocks isRecompute 0 0 infos).flatMap fun block => block.1.1.localPositions.map (blockRow isRecompute block),
        (blocks isRecompute 0 0 infos).flatMap fun block => block.1.1.globalPositions.map (blockRow isRecompute block),
        (blocks isRecompute 0 0 infos).flatMap fun block =>
          (block.1.1.seams isRecompute).map fun seam => (blockRow isRecompute block seam.1,block.1.2,seam.2)⟩ := by
  have pairs : infos.zipIdx.zip (qRows isRecompute infos).perReqAbsToQ = (blocks isRecompute 0 0 infos).map fun block =>
      (block.1,Dict.empty.setAll ((block.1.1.entries isRecompute).zipIdx block.2)) := by
    rw [qRows,foldl_add,← blocks_requests isRecompute 0 0 infos,nil_append,zip_map']
  have each : ∀ block ∈ blocks isRecompute 0 0 infos,
      QLists.ofReq isRecompute block.1.1 block.1.2 (Dict.empty.setAll ((block.1.1.entries isRecompute).zipIdx block.2)) = some
        ⟨block.1.1.localPositions.map (blockRow isRecompute block),block.1.1.globalPositions.map (blockRow isRecompute block),
          (block.1.1.seams isRecompute).map fun seam => (blockRow isRecompute block seam.1,block.1.2,seam.2)⟩ := by
    intro block member
    have row {pos : Nat} (inside : pos ∈ block.1.1.entries isRecompute) :
        (Dict.empty.setAll ((block.1.1.entries isRecompute).zipIdx block.2)).get? pos = some (blockRow isRecompute block pos) :=
      absToQ_get (distinct _ (blocks_info member)) inside
    rw [QLists.ofReq,Related.mapM_map fun pos inside => row (mem_entries.mpr (.inl (.inl inside))),
      bind_some,Related.mapM_map fun pos inside => row (mem_entries.mpr (.inl (.inr inside))),bind_some,
      Related.mapM_map fun seam inside => by rw [row (mem_entries.mpr (.inr (mem_map_of_mem inside)))]; rfl]
    rfl
  rw [qLists,pairs,mapM_map,comp_def,Related.mapM_map each]
  simp [flatMap_map]

private theorem zip_map_append {α β : Type*} (items : List α) (f : α → β) (rest : List β) :
    (items.map f ++ rest).zip items = items.map fun item => (f item,item) := by
  induction items with
  | nil => simp
  | cons item later ih => simp only [map_cons,cons_append,zip_cons_cons,ih]

theorem hitSeamByReq_eq (index base : Nat) (infos : List RopeMeta) :
    hitSeamByReq infos ((blocks true index base infos).flatMap fun block =>
        (block.1.1.seams true).map fun seam => (blockRow true block seam.1,block.1.2,seam.2)) =
      some ((blocks true index base infos).map fun block => (block.1.1.seams true).map fun seam => (blockRow true block seam.1,seam)) := by
  induction infos generalizing index base with
  | nil => rfl
  | cons info rest ih =>
    rw [blocks,flatMap_cons,map_cons,hitSeamByReq]
    cases given : info.seam with
    | none =>
      have nothing : info.seams true = [] := by simp [RopeMeta.seams,given]
      simp only [nothing,map_nil,nil_append,ih,map_some]
    | some seam =>
      have listed : info.seams true = seamItems seam := by simp [RopeMeta.seams,given]
      simp only [listed]
      rw [if_neg (by simp),drop_left' (by simp),ih,map_some,zip_map_append,map_map]
      rfl

theorem filter_tagged {β γ : Type*} {tag : β → Nat} (items : β → List γ) {parts : List β} (distinct : (parts.map tag).Nodup) {part : β}
    (member : part ∈ parts) : ((parts.flatMap fun part => (items part).map fun item => (tag part,item)).filter
      fun row => row.1 = tag part).map Prod.snd = items part := by
  have away (other : β) (differ : tag other ≠ tag part) :
      ((items other).map fun item => (tag other,item)).filter (fun row => row.1 = tag part) = [] := by
    simp [filter_map,comp_def,differ]
  have own : ((items part).map fun item => (tag part,item)).filter (fun row => row.1 = tag part) = (items part).map fun item => (tag part,item) := by
    simp [filter_map,comp_def]
  induction parts with
  | nil => cases member
  | cons head rest ih =>
    obtain ⟨absent,later⟩ := nodup_cons.mp distinct
    rw [flatMap_cons,filter_append,map_append]
    rcases mem_cons.mp member with rfl | member
    · have others : (rest.flatMap fun part => (items part).map fun item => (tag part,item)).filter (fun row => row.1 = tag part) = [] := by
        refine filter_eq_nil_iff.mpr fun row listed => ?_
        obtain ⟨other,inside,named⟩ := mem_flatMap.mp listed
        obtain ⟨item,-,rfl⟩ := mem_map.mp named
        simpa using fun same : tag other = tag part => absent (same ▸ mem_map_of_mem inside)
      rw [own,others,map_map]
      simp
    · rw [away head fun same => absent (same ▸ mem_map_of_mem member),ih later member]
      rfl

theorem missQ_eq (infos : List RopeMeta) : ∃ missQ, missQRows (qRows isRecompute infos)
      ((blocks isRecompute 0 0 infos).flatMap fun block => block.1.1.localPositions.map (blockRow isRecompute block)) = some missQ ∧
    ∀ block ∈ blocks isRecompute 0 0 infos,
      missQForReq missQ block.1.2 = block.1.1.localPositions.map fun pos => (pos,blockRow isRecompute block pos) := by
  have flat : ((blocks isRecompute 0 0 infos).flatMap fun block => block.1.1.localPositions.map (blockRow isRecompute block)) =
      ((blocks isRecompute 0 0 infos).flatMap fun block => block.1.1.localPositions.map fun pos => (block,pos)).map
        fun row => blockRow isRecompute row.1 row.2 := by
    simp [map_flatMap,comp_def]
  have each : ∀ row ∈ (blocks isRecompute 0 0 infos).flatMap (fun block => block.1.1.localPositions.map fun pos => (block,pos)),
      ((qRows isRecompute infos).qToReqAbs.get? (blockRow isRecompute row.1 row.2)).map
        (fun place => (place.1,place.2,blockRow isRecompute row.1 row.2)) = some (row.1.1.2,row.2,blockRow isRecompute row.1 row.2) := by
    intro row listed
    obtain ⟨block,member,named⟩ := mem_flatMap.mp listed
    obtain ⟨pos,inside,rfl⟩ := mem_map.mp named
    rw [qToReqAbs_get member (mem_entries.mpr (.inl (.inl inside)))]
    rfl
  refine ⟨_,by rw [missQRows,flat,mapM_map,comp_def,Related.mapM_map each],fun block member => ?_⟩
  have tags : ((blocks isRecompute 0 0 infos).map fun block => block.1.2).Nodup := by
    have requests := congrArg (List.map Prod.snd) (blocks_requests isRecompute 0 0 infos)
    rw [map_map,zipIdx_map_snd] at requests
    exact (show ((blocks isRecompute 0 0 infos).map (Prod.snd ∘ Prod.fst)).Nodup from requests ▸ nodup_range')
  rw [missQForReq,← filter_tagged (fun block => block.1.1.localPositions.map fun pos => (pos,blockRow isRecompute block pos)) tags member]
  simp [map_flatMap,comp_def]

theorem phaseCReqs_spec {missQ : List (Nat × Nat × Nat)} (parts : List ((RopeMeta × Nat) × Nat))
    (partition : ∀ block ∈ parts, ∃ stop, block.1.1.Partition stop) (missed : ∀ block ∈ parts,
      missQForReq missQ block.1.2 = block.1.1.localPositions.map fun pos => (pos,blockRow isRecompute block pos)) :
    ∃ results, phaseCReqs missQ (parts.map fun block =>
        (block.1,(block.1.1.seams isRecompute).map fun seam => (blockRow isRecompute block seam.1,seam)))
        (parts.flatMap fun block => block.1.1.globalPositions.map (blockRow isRecompute block)) = some results ∧
      Forall₂ (fun block part => PartOk isRecompute block.1.1 block.2 part) parts results := by
  induction parts with
  | nil => exact ⟨[],rfl,Forall₂.nil⟩
  | cons block rest ih =>
    obtain ⟨stop,here⟩ := partition block mem_cons_self
    obtain ⟨part,executed,ok⟩ := phaseCReq_spec here block.2
      (rest.flatMap fun block => block.1.1.globalPositions.map (blockRow isRecompute block))
    obtain ⟨results,later,all⟩ := ih (forall_mem_cons.mp partition).2
      (forall_mem_cons.mp missed).2
    refine ⟨part::results,?_,Forall₂.cons ok all⟩
    rw [map_cons,flatMap_cons,phaseCReqs,missed block mem_cons_self]
    refine bind_eq_some_iff.mpr ⟨_,executed,?_⟩
    rw [later]
    rfl
end Numbering

section Causality
variable {isRecompute : Bool} {infos : List RopeMeta} {results : List PhaseReq}

section
variable (ok : List.Forall₂ (fun block part => PartOk isRecompute block.1.1 block.2 part) (blocks isRecompute 0 0 infos) results)
include ok

theorem parts_rows :
    (results.flatMap PhaseReq.runs).flatMap PhaseRun.qis = List.range (queryRows isRecompute infos).length ∧
      rowsOf (groupsOf (results.flatMap PhaseReq.runs)) =
        (queryRows isRecompute infos).map fun row => (wholeRow row.1.privTable).take (row.2 + 1) := by
  constructor
  · have queries := Related.map_eq ok (fun block => List.range' block.2 (block.1.1.entries isRecompute).length)
      (fun part => part.runs.flatMap PhaseRun.qis) fun _ _ part => part.queries
    rw [flatMap_assoc,flatMap_def,queries,← flatMap_def,blocks_rows,← range_eq_range']
  · have seen := Related.map_eq ok (fun block => (block.1.1.entries isRecompute).map fun pos => (wholeRow block.1.1.privTable).take (pos + 1))
      (fun part => rowsOf (groupsOf part.runs)) fun _ _ part => part.seen
    have parts : rowsOf (groupsOf (results.flatMap PhaseReq.runs)) = results.flatMap fun part => rowsOf (groupsOf part.runs) := by
      rw [groupsOf,map_flatMap,rowsOf,flatMap_assoc]
      rfl
    have requests : ((blocks isRecompute 0 0 infos).flatMap fun block =>
        (block.1.1.entries isRecompute).map fun pos => (wholeRow block.1.1.privTable).take (pos + 1)) =
          infos.flatMap fun info => (info.entries isRecompute).map fun pos => (wholeRow info.privTable).take (pos + 1) := by
      conv_rhs => rw [← blocks_infos isRecompute 0 0 infos,flatMap_map]
    rw [parts,flatMap_def,seen,← flatMap_def,requests,queryRows,map_flatMap]
    exact flatMap_congr fun info _ => by rw [map_map]; rfl

/-- The writes of a batch: rows of last segments and seams, each to its position's private slot. -/
theorem parts_writes :
    (results.flatMap PhaseReq.kvSrcQis).length = (results.flatMap PhaseReq.kvDstSlots).length ∧
      ∀ query slot, (query,slot) ∈ (results.flatMap PhaseReq.kvSrcQis).zip (results.flatMap PhaseReq.kvDstSlots) ↔
        ∃ block ∈ blocks isRecompute 0 0 infos, ∃ pos ∈ block.1.1.globalPositions ++ (block.1.1.seams isRecompute).map Prod.fst,
          blockRow isRecompute block pos = query ∧ block.1.1.privateSlot pos = some slot := by
  generalize written : ((blocks isRecompute 0 0 infos).flatMap fun block =>
    (block.1.1.globalPositions ++ (block.1.1.seams isRecompute).map Prod.fst).map fun pos => (block,pos)) = rows
  have src : results.flatMap PhaseReq.kvSrcQis = rows.map fun row => blockRow isRecompute row.1 row.2 := by
    have parts := Related.map_eq ok (fun block => (block.1.1.globalPositions ++ (block.1.1.seams isRecompute).map Prod.fst).map
      (blockRow isRecompute block)) PhaseReq.kvSrcQis fun _ _ part => part.src
    rw [flatMap_def,parts,← flatMap_def,← written,map_flatMap]
    exact flatMap_congr fun block _ => by rw [map_map]; rfl
  have dst : (results.flatMap PhaseReq.kvDstSlots).map some = rows.map fun row => row.1.1.1.privateSlot row.2 := by
    have parts := Related.map_eq ok (fun block => (block.1.1.globalPositions ++ (block.1.1.seams isRecompute).map Prod.fst).map
      block.1.1.privateSlot) (fun part => part.kvDstSlots.map some) fun _ _ part => part.dst
    rw [map_flatMap,flatMap_def,parts,← flatMap_def,← written,map_flatMap]
    exact flatMap_congr fun block _ => by rw [map_map]; rfl
  refine ⟨?_,fun query slot => ?_⟩
  · have lengths := congrArg List.length dst
    rw [length_map,length_map] at lengths
    rw [src,length_map,lengths]
  · have paired : (query,slot) ∈ (results.flatMap PhaseReq.kvSrcQis).zip (results.flatMap PhaseReq.kvDstSlots) ↔
        (query,some slot) ∈ (results.flatMap PhaseReq.kvSrcQis).zip ((results.flatMap PhaseReq.kvDstSlots).map some) := by
      rw [zip_map_right,mem_map]
      exact ⟨fun member => ⟨_,member,rfl⟩,fun ⟨pair,member,same⟩ => by
        obtain ⟨rfl,slots⟩ := Prod.mk.inj same
        exact Option.some.inj slots ▸ member⟩
    rw [paired,src,dst,zip_map',mem_map,← written]
    constructor
    · rintro ⟨row,member,same⟩
      obtain ⟨block,listed,named⟩ := mem_flatMap.mp member
      obtain ⟨pos,inside,rfl⟩ := mem_map.mp named
      obtain ⟨number,own⟩ := Prod.mk.inj same
      exact ⟨block,listed,pos,inside,number,own⟩
    · rintro ⟨block,listed,pos,inside,number,own⟩
      refine ⟨(block,pos),mem_flatMap.mpr ⟨block,listed,mem_map.mpr ⟨pos,inside,rfl⟩⟩,?_⟩
      rw [number,own]

end

theorem ofReqs_causal (partition : ∀ info ∈ infos, ∃ stop, info.Partition stop)
    (ok : Forall₂ (fun block part => PartOk isRecompute block.1.1 block.2 part) (blocks isRecompute 0 0 infos) results)
    {cache : PhaseCCache} (built : PhaseCCache.ofReqs results = some cache) : Causal isRecompute infos cache := by
  obtain ⟨queries,seen⟩ := parts_rows ok
  obtain ⟨paired,writes⟩ := parts_writes ok
  have totals : ∀ run ∈ results.flatMap PhaseReq.runs, run.totalKv = run.kvIndices.length := by
    intro run member
    obtain ⟨part,listed,inside⟩ := mem_flatMap.mp member
    obtain ⟨block,-,here⟩ := exists_left ok listed
    exact here.totals run inside
  have plan : (⟨cuSeqlens ((results.flatMap PhaseReq.runs).map fun run => run.qis.length),
      cuSeqlens ((results.flatMap PhaseReq.runs).map PhaseRun.totalKv),(results.flatMap PhaseReq.runs).flatMap PhaseRun.kvIndices⟩ : Plan Slot) =
        ofGroups (groupsOf (results.flatMap PhaseReq.runs)) := by
    rw [ofGroups,groupsOf,map_map,map_map,flatMap_map,map_congr_left totals]
    rfl
  have distinct : ∀ info ∈ infos, (info.entries isRecompute).Nodup := fun info member =>
    (partition info member).elim fun _ parts => parts.entries_nodup
  unfold PhaseCCache.ofReqs at built
  simp only at built
  split at built
  · cases built
  obtain rfl := Option.some.inj built
  refine ⟨queries ▸ List.Perm.refl _,rfl,?_,paired,?_,?_⟩
  · intro index query info pos packed found
    simp only [queries] at packed
    obtain ⟨bound,rfl⟩ := List.getElem?_eq_some_iff.mp packed
    rw [getElem_range] at found
    have row : (rowsOf (groupsOf (results.flatMap PhaseReq.runs)))[index]? = some ((wholeRow info.privTable).take (pos + 1)) := by
      rw [seen,getElem?_map,found]
      rfl
    obtain ⟨block,member,rfl,inside,-⟩ := blocks_queryRows isRecompute 0 0 distinct found
    obtain ⟨stop,parts⟩ := partition _ (blocks_info member)
    rw [plan,visible_rowsOf row]
    exact parts.front_eq (parts.entries_inside inside)
  · intro query info pos found stored
    obtain ⟨block,member,rfl,inside,number⟩ := blocks_queryRows isRecompute 0 0 distinct found
    obtain ⟨stop,parts⟩ := partition _ (blocks_info member)
    have bound := parts.entries_inside inside
    have length := wholeRow_length parts.consecutive parts.tableSlots
    have own := (parts.privateSlot_eq bound).trans (getElem?_eq_getElem (by omega))
    refine ⟨_,own,(writes _ _).mpr ⟨block,member,pos,stored,?_,own⟩⟩
    rw [← number,Nat.zero_add]
  · intro query slot member
    obtain ⟨block,listed,pos,inside,rfl,own⟩ := (writes query slot).mp member
    have row : pos ∈ block.1.1.entries isRecompute := by
      refine mem_entries.mpr ((mem_append.mp inside).imp_left .inr)
    exact ⟨block.1.1,pos,(queryRows_block isRecompute listed row).2,own⟩

theorem seams_split (infos : List RopeMeta) :
    (if ((blocks isRecompute 0 0 infos).flatMap fun block =>
        (block.1.1.seams isRecompute).map fun seam => (blockRow isRecompute block seam.1,block.1.2,seam.2)).isEmpty
      then some (infos.map fun _ => [])
      else hitSeamByReq infos ((blocks isRecompute 0 0 infos).flatMap fun block =>
        (block.1.1.seams isRecompute).map fun seam => (blockRow isRecompute block seam.1,block.1.2,seam.2))) =
      some ((blocks isRecompute 0 0 infos).map fun block =>
        (block.1.1.seams isRecompute).map fun seam => (blockRow isRecompute block seam.1,seam)) := by
  split
  · rename_i empty
    rw [List.isEmpty_iff,flatMap_eq_nil_iff] at empty
    conv_lhs => rw [← blocks_infos isRecompute 0 0 infos,map_map]
    refine congrArg some (map_congr_left fun block member => ?_)
    have nothing := map_eq_nil_iff.mp (empty block member)
    simp [nothing]
  · rename_i some
    cases isRecompute with
    | true => exact hitSeamByReq_eq 0 0 infos
    | false => exact absurd (by simp [RopeMeta.seams]) some

theorem no_rows_iff (infos : List RopeMeta) : queryRows isRecompute infos = [] ↔
    ((blocks isRecompute 0 0 infos).flatMap fun block => block.1.1.globalPositions.map (blockRow isRecompute block)).isEmpty ∧
      ((blocks isRecompute 0 0 infos).flatMap fun block =>
        (block.1.1.seams isRecompute).map fun seam => (blockRow isRecompute block seam.1,block.1.2,seam.2)).isEmpty ∧
      ((blocks isRecompute 0 0 infos).flatMap fun block => block.1.1.localPositions.map (blockRow isRecompute block)).isEmpty := by
  have rows : queryRows isRecompute infos = [] ↔ ∀ block ∈ blocks isRecompute 0 0 infos, block.1.1.entries isRecompute = [] := by
    conv_lhs => rw [queryRows,← blocks_infos isRecompute 0 0 infos,flatMap_map,flatMap_eq_nil_iff]
    simp only [map_eq_nil_iff]
  have each (info : RopeMeta) : info.entries isRecompute = [] ↔
      info.globalPositions = [] ∧ info.seams isRecompute = [] ∧ info.localPositions = [] := by
    rw [RopeMeta.entries,← length_eq_zero_iff,length_insertionSort,length_eq_zero_iff]
    simp only [append_eq_nil_iff,map_eq_nil_iff]
    tauto
  simp only [rows,each,List.isEmpty_iff,flatMap_eq_nil_iff,map_eq_nil_iff]
  constructor
  · intro all
    exact ⟨fun block member => (all block member).1,fun block member => (all block member).2.1,
      fun block member => (all block member).2.2⟩
  · rintro ⟨last,seams,misses⟩ block member
    exact ⟨last block member,seams block member,misses block member⟩

/-- For every batch whose requests' ranges partition their prompts phase C is built, unless there are no rows, and is causal. -/
theorem phase_c_causal (isRecompute : Bool) (infos : List RopeMeta) (numRows : Nat)
    (partition : ∀ info ∈ infos, ∃ stop, info.Partition stop) (count : numRows = (queryRows isRecompute infos).length) :
    ∃ built, forwardExtendPicFullAttnRope isRecompute infos numRows = some built ∧
      (built = none ↔ queryRows isRecompute infos = []) ∧ ∀ cache ∈ built, Causal isRecompute infos cache := by
  have distinct : ∀ info ∈ infos, (info.entries isRecompute).Nodup := fun info member =>
    (partition info member).elim fun _ parts => parts.entries_nodup
  have cursor : ¬ (qRows isRecompute infos).cursor ≠ numRows := by simp [qRows,foldl_add,count]
  rw [forwardExtendPicFullAttnRope,if_neg cursor,qLists_eq distinct,bind_some]
  by_cases idle : queryRows isRecompute infos = []
  · rw [if_pos ((no_rows_iff infos).mp idle)]
    exact ⟨none,rfl,⟨fun _ => idle,fun _ => rfl⟩,nofun⟩
  rw [if_neg fun empty => idle ((no_rows_iff infos).mpr empty),buildPicRopePhaseCCache,seams_split,bind_some]
  obtain ⟨missQ,missed,byReq⟩ := missQ_eq infos
  obtain ⟨results,executed,ok⟩ := phaseCReqs_spec (blocks isRecompute 0 0 infos)
    (fun block member => partition _ (blocks_info member)) byReq
  rw [missed,bind_some,← blocks_requests isRecompute 0 0 infos,zip_map',executed,map_some]
  refine ⟨_,rfl,⟨fun none => ?_,fun empty => absurd empty idle⟩,fun cache built => ofReqs_causal partition ok built⟩
  unfold PhaseCCache.ofReqs at none
  simp only [(parts_rows ok).1] at none
  split at none
  · rename_i empty
    simpa using empty
  · cases none
end Causality

section Batches
open Placement Runs Refill
variable {args : ServerArgs Hash} {req : Req Hash}

/-- A request as a rope mode allocates it: private slots for every segment, in the order of its row. -/
structure Private (args : ServerArgs Hash) (req : Req Hash) : Prop where
  loaded : Loaded args req
  misses : ∀ seg ∈ req.picMissSegments, ∃ miss, req.picMissSegmentSlots.get? seg = some miss ∧ RowIs req seg miss.kv ∧
    (some seg ≠ req.globalSeg → miss.pub.isSome)
  hits : ∀ hit ∈ req.picHitSegments, ∃ slots, req.picRopeHitPrivateSlots.get? hit.1 = some slots ∧ RowIs req hit.1 slots.1

/-- The loop over the segments so far. -/
structure Placing (req : Req Hash) (seam : Option (Dict Seg (List Nat))) (info : RopeMeta) (done : List Seg) : Prop where
  misses : (info.localMiss.map Prod.fst ++ info.globalInfo.toList.map Prod.fst).Perm (done.filter (· ∈ req.picMissSegments))
  hits : (info.localHit.map Prod.fst).Perm (done.filter (· ∉ req.picMissSegments))
  last : ∀ item ∈ info.globalInfo, some item.1 = req.globalSeg
  rows : ∀ item ∈ info.ranges, RowIs req item.1 item.2
  seam : info.seam = seam

theorem Placing.place {seam : Option (Dict Seg (List Nat))} {done rest : List Seg} {seg : Seg}
    (placing : Placing req seam info done) (given : Private args req) (order : req.picSegments = done ++ seg::rest) :
    ∃ next, info.place req seg = some next ∧ Placing req seam next (done ++ [seg]) := by
  have partition := given.loaded.matched
  have listed : seg ∈ req.picSegments := order ▸ mem_append_right _ mem_cons_self
  have fresh : seg ∉ done := by
    have distinct := order ▸ partition.consecutive.nodup
    exact fun member => (disjoint_of_nodup_append distinct) member mem_cons_self
  by_cases missed : seg ∈ req.picMissSegments
  · obtain ⟨miss,found,row,pub⟩ := given.misses seg missed
    have missSegs : (done ++ [seg]).filter (· ∈ req.picMissSegments) = done.filter (· ∈ req.picMissSegments) ++ [seg] := by simp [missed]
    have hitSegs : (done ++ [seg]).filter (· ∉ req.picMissSegments) = done.filter (· ∉ req.picMissSegments) := by simp [missed]
    by_cases last : some seg = req.globalSeg
    · have unset : info.globalInfo = none := by
        refine Option.eq_none_iff_forall_not_mem.mpr fun item member => fresh ?_
        have same : item.1 = seg := Option.some.inj ((placing.last item member).trans last.symm)
        have inside := placing.misses.mem_iff.mp (mem_append_right _ (mem_map_of_mem (Option.mem_toList.mpr member)))
        exact same ▸ mem_of_mem_filter inside
      refine ⟨{ info with globalInfo := some (seg,miss.kv) },by rw [RopeMeta.place,if_pos last,found],?_,?_,?_,?_,placing.seam⟩
      · have before := placing.misses
        rw [unset,Option.toList_none,map_nil,append_nil] at before
        rw [missSegs]
        exact before.append_right [seg]
      · rw [hitSegs]
        exact placing.hits
      · rintro item member
        obtain rfl := Option.some.inj member
        exact last
      · intro item member
        rcases mem_append.mp member with locals | here
        · exact placing.rows item (mem_append_left _ locals)
        · obtain rfl := mem_singleton.mp here
          exact row
    · obtain ⟨slots,shared⟩ := isSome_iff_exists.mp (pub last)
      refine ⟨{ info with localMiss := info.localMiss ++ [(seg,miss.kv,slots)] },
        by simp [RopeMeta.place,last,missed,found,shared],?_,?_,placing.last,?_,placing.seam⟩
      · rw [missSegs,map_append,append_assoc]
        refine (List.Perm.append_left _ perm_append_comm).trans ?_
        rw [← append_assoc]
        exact placing.misses.append_right [seg]
      · rw [hitSegs]
        exact placing.hits
      · intro item member
        simp only [RopeMeta.ranges,map_append,mem_append,map_cons,map_nil,mem_singleton] at member
        rcases member with ((earlier | rfl) | hit) | global
        · exact placing.rows item (by simp only [RopeMeta.ranges,map_append,mem_append]; exact .inl (.inl earlier))
        · exact row
        · exact placing.rows item (by simp only [RopeMeta.ranges,map_append,mem_append]; exact .inl (.inr hit))
        · exact placing.rows item (mem_append_right _ global)
  · have cached := (partition.cover seg listed).resolve_left missed
    obtain ⟨hit,member,rfl⟩ := mem_map.mp cached
    obtain ⟨slots,found,row⟩ := given.hits hit member
    have missSegs : (done ++ [hit.1]).filter (· ∈ req.picMissSegments) = done.filter (· ∈ req.picMissSegments) := by simp [missed]
    have hitSegs : (done ++ [hit.1]).filter (· ∉ req.picMissSegments) = done.filter (· ∉ req.picMissSegments) ++ [hit.1] := by simp [missed]
    have inner : some hit.1 ≠ req.globalSeg := by
      intro last
      unfold Req.globalSeg at last
      split at last
      · exact missed (partition.last hit.1 last.symm)
      · cases last
    refine ⟨{ info with localHit := info.localHit ++ [(hit.1,slots.1,slots.2)] },?_,?_,?_,placing.last,?_,placing.seam⟩
    · rw [RopeMeta.place,if_neg inner,if_neg missed,if_pos cached,found]
    · rw [missSegs]
      exact placing.misses
    · rw [hitSegs,map_append]
      exact placing.hits.append_right [hit.1]
    · intro item member
      simp only [RopeMeta.ranges,map_append,mem_append,map_cons,map_nil,mem_singleton] at member
      rcases member with (missed | earlier | rfl) | global
      · exact placing.rows item (by simp only [RopeMeta.ranges,map_append,mem_append]; exact .inl (.inl missed))
      · exact placing.rows item (by simp only [RopeMeta.ranges,map_append,mem_append]; exact .inl (.inr earlier))
      · exact row
      · exact placing.rows item (mem_append_right _ global)

theorem ropeMeta_placing (given : Private args req) : ∃ info, ropeMeta args req = some info ∧
    Placing req (if args.recompute then some req.picHitSeamPositions else none) info req.picSegments := by
  have loop (done rest : List Seg) (order : req.picSegments = done ++ rest) (info : RopeMeta)
      (placing : Placing req (if args.recompute then some req.picHitSeamPositions else none) info done) :
      ∃ final, rest.foldlM (RopeMeta.place req) info = some final ∧
        Placing req (if args.recompute then some req.picHitSeamPositions else none) final req.picSegments := by
    induction rest generalizing done info with
    | nil => exact ⟨info,rfl,by rw [order,append_nil]; exact placing⟩
    | cons seg rest ih =>
      obtain ⟨next,placed,later⟩ := placing.place given order
      obtain ⟨final,executed,all⟩ := ih (done ++ [seg]) (by rw [order,append_assoc]; rfl) next later
      exact ⟨final,by rw [foldlM_cons,placed]; exact executed,all⟩
  exact loop [] req.picSegments rfl _ ⟨List.Perm.refl _,List.Perm.refl _,nofun,nofun,rfl⟩

namespace Placing
variable {seam : Option (Dict Seg (List Nat))} {info : RopeMeta} (placing : Placing req seam info req.picSegments)
include placing

theorem segs : (info.privTable.map Prod.fst).Perm req.picSegments := by
  refine (info.privTable_perm.map Prod.fst).trans ?_
  rw [info.ranges_segs,append_assoc]
  refine (List.Perm.append_left _ perm_append_comm).trans ?_
  rw [← append_assoc]
  refine (placing.misses.append placing.hits).trans ?_
  have split := filter_append_perm (fun seg => decide (seg ∈ req.picMissSegments)) req.picSegments
  simpa using split

/-- Sorted by start, with the last segment at the end, the ranges are the prompt's segments in order. -/
theorem table (matched : Matched args req) : info.privTable.map Prod.fst = req.picSegments := by
  refine List.Perm.eq_of_pairwise ?_ ?_ (matched.consecutive.increasing.imp Nat.le_of_lt) placing.segs
  · intro left right leftMember rightMember before after
    have inside := placing.segs.mem_iff.mp leftMember
    have leftBounds := matched.consecutive.mem_bounds inside
    have rightBounds := matched.consecutive.mem_bounds rightMember
    exact matched.consecutive.unique inside rightMember ⟨Nat.le_refl _,leftBounds.2.1⟩ ⟨after,by omega⟩
  · rw [RopeMeta.privTable,map_append,pairwise_append]
    refine ⟨pairwise_map.mpr (pairwise_insertionSort ..),by cases info.globalInfo <;> simp,fun seg member last global => ?_⟩
    obtain ⟨item,listed,rfl⟩ := mem_map.mp global
    have ends : some item.1 = req.globalSeg := placing.last item (Option.mem_toList.mp listed)
    unfold Req.globalSeg at ends
    split at ends
    · have stop := matched.consecutive.last ends.symm
      have inside : seg ∈ req.picSegments := placing.segs.mem_iff.mp (by
        rw [RopeMeta.privTable,map_append]
        exact mem_append_left _ member)
      have bounds := matched.consecutive.mem_bounds inside
      by_contra before
      have apart := matched.consecutive.apart (mem_of_getLast? ends.symm) inside (by omega)
      omega
    · cases ends

theorem missPositions (matched : Matched args req) : (info.localPositions ++ info.globalPositions).Perm
    (req.picMissSegments.flatMap fun seg => List.range' seg.1 (seg.2 - seg.1)) := by
  have own : info.localPositions ++ info.globalPositions =
      (info.localMiss.map Prod.fst ++ info.globalInfo.toList.map Prod.fst).flatMap span := by
    rw [RopeMeta.localPositions,RopeMeta.globalPositions,flatMap_append,flatMap_map]
    cases info.globalInfo <;> simp
  have distinct := matched.consecutive.nodup
  have misses : (req.picSegments.filter (· ∈ req.picMissSegments)).Perm req.picMissSegments := by
    refine (perm_ext_iff_of_nodup (distinct.filter _) (distinct.sublist matched.misses)).mpr fun seg => ?_
    rw [mem_filter,decide_eq_true_iff]
    exact and_iff_right_of_imp fun missed => matched.misses.subset missed
  rw [own]
  exact (placing.misses.trans misses).flatMap_right _
end Placing

/-- The metadata of an allocated request: its ranges are the prompt's segments with the slots of its row, and its query
    rows are the tokens to forward. -/
theorem ropeMeta_partition (given : Private args req) : ∃ info, ropeMeta args req = some info ∧
    info.Partition req.originInputIds.length ∧ info.entries args.recompute = req.picMissTokenPositions ∧
      ∀ pos < req.originInputIds.length, info.privateSlot pos = some (req.reqToToken pos) := by
  obtain ⟨info,executed,placing⟩ := ropeMeta_placing given
  have matched := given.loaded.matched
  have table := placing.table matched
  have hitSegs : ∀ seg ∈ req.picHitSegments.map Prod.fst, seg ∈ info.localHit.map Prod.fst := by
    intro seg member
    refine placing.hits.mem_iff.mpr (mem_filter.mpr ⟨matched.hits.subset member,?_⟩)
    simpa using fun missed => matched.exclusive seg missed member
  have partition : info.Partition req.originInputIds.length := by
    refine ⟨table ▸ matched.consecutive,fun item member => (placing.rows item member).1,fun seam chosen seg positions found => ?_⟩
    rw [placing.seam] at chosen
    split at chosen
    · obtain rfl := Option.some.inj chosen
      obtain ⟨hit,-,width,rfl,-,short⟩ := given.loaded.seamed seg positions found
      refine ⟨hitSegs seg hit,nodup_range',fun pos inside => ?_⟩
      rw [mem_range'_1] at inside
      omega
    · cases chosen
  refine ⟨info,executed,partition,?_,fun pos bound => ?_⟩
  · have seams : (info.seams args.recompute).map Prod.fst = req.picHitSeamPositions.values.flatten := by
      rw [RopeMeta.seams,placing.seam]
      split
      · rw [map_some,getD_some,seamItems,map_flatMap,Dict.values,← flatMap_def]
        exact flatMap_congr fun item _ => by simp [comp_def,zipIdx_map_fst]
      · rename_i plain
        rw [given.loaded.seams (by simpa using plain)]
        rfl
    have positions : req.picMissTokenPositions.Perm
        ((req.picMissSegments.flatMap fun seg => List.range' seg.1 (seg.2 - seg.1)) ++ req.picHitSeamPositions.values.flatten) := by
      rw [given.loaded.positions,missTokenPositions]
      split
      · rename_i nothing
        simp [Dict.values,nothing]
      · exact perm_insertionSort ..
    have sorted := (missTokenPositions_increasing matched.consecutive matched.misses (seamsApart_of_loaded given.loaded)).1
    rw [← given.loaded.positions] at sorted
    refine List.Perm.eq_of_pairwise (fun _ _ _ _ => Nat.le_antisymm) (pairwise_insertionSort ..) (sorted.imp Nat.le_of_lt) ?_
    refine (perm_insertionSort ..).trans (List.Perm.trans ?_ positions.symm)
    rw [seams]
    exact (placing.missPositions matched).append_right _
  · obtain ⟨seg,member,inside⟩ := matched.consecutive.covers (Nat.zero_le pos) bound
    obtain ⟨item,listed,rfl⟩ := mem_map.mp (table.symm ▸ member)
    obtain ⟨index,place⟩ := getElem?_of_mem listed
    rw [partition.privateSlot_eq bound,wholeRow_get partition.consecutive partition.tableSlots place inside.1 inside.2]
    exact (placing.rows item (info.privTable_perm.mem_iff.mp listed)).get inside.1 inside.2

theorem allocated_private (rope : args.rope = true) {pools : Pools Hash} {reqs : List (Req Hash)} {extended : Extended Hash}
    (scheduled : ∀ req ∈ reqs, Scheduled args pools req) (executed : picAllocForExtend args pools reqs = some extended) :
    ∀ req ∈ extended.reqs, Private args req := by
  intro req member
  obtain ⟨prefilled,-⟩ := scheduled_spec scheduled executed
  obtain ⟨before,inside,related⟩ := exists_left prefilled member
  have loaded := prefilled_loaded related (scheduled before inside)
  obtain ⟨assigned,-,allocated⟩ := related
  refine ⟨loaded,fun seg missed => ?_,fun hit listed => ?_⟩
  · obtain ⟨miss,found⟩ := isSome_iff_exists.mp ((loaded.misses seg).mp missed)
    have ready := allocated.ready seg miss found
    exact ⟨miss,found,ready.row,fun inner => ready.pub.mpr ⟨rope,inner⟩⟩
  · have row := allocated.hits hit ((congrArg Req.picHitSegments allocated.frame).trans rfl ▸ listed)
    rw [HitRow,if_pos rope] at row
    exact row

theorem ropeMetas_allocated (rope : args.rope = true) {pools : Pools Hash} {reqs : List (Req Hash)} {extended : Extended Hash}
    (scheduled : ∀ req ∈ reqs, Scheduled args pools req) (executed : picAllocForExtend args pools reqs = some extended) :
    ∃ infos, extended.reqs.mapM (ropeMeta args) = some infos ∧ ∀ info ∈ infos, ∃ req ∈ extended.reqs,
      info.Partition req.originInputIds.length ∧ info.entries args.recompute = req.picMissTokenPositions ∧
        ∀ pos < req.originInputIds.length, info.privateSlot pos = some (req.reqToToken pos) := by
  have given := allocated_private rope scheduled executed
  obtain ⟨infos,found⟩ := isSome_iff_exists.mp (Related.mapM_isSome (ropeMeta args) extended.reqs fun req member => by
    obtain ⟨info,here,-⟩ := ropeMeta_partition (given req member)
    simp [here])
  refine ⟨infos,found,fun info member => ?_⟩
  obtain ⟨req,listed,here⟩ := exists_left (Related.of_mapM found) member
  obtain ⟨other,same,facts⟩ := ropeMeta_partition (given req listed)
  obtain rfl := Option.some.inj (here.symm.trans same)
  exact ⟨req,listed,facts⟩

open Admission Gdn Recompute in
/-- A hit between two misses, its first token recomputed. -/
theorem phase_c_causal_warmPass : ∃ final, warmPass (seamArgs 1) [[4],[1,2],[5,6]] = some final ∧
    ∃ extended, picAllocForExtend (seamArgs 1) final.pools final.canRunList = some extended ∧
      ∃ infos, extended.reqs.mapM (ropeMeta (seamArgs 1)) = some infos ∧ (queryRows true infos).map Prod.snd = [0,1,3,4] ∧
        ∃ built, forwardExtendPicFullAttnRope true infos (queryRows true infos).length = some built ∧
          ∀ cache ∈ built, Causal true infos cache := by
  obtain ⟨final,passed,extended,executed,rows⟩ : ∃ final ∈ warmPass (seamArgs 1) [[4],[1,2],[5,6]],
      ∃ extended ∈ picAllocForExtend (seamArgs 1) final.pools final.canRunList,
        ∀ infos ∈ extended.reqs.mapM (ropeMeta (seamArgs 1)), (queryRows true infos).map Prod.snd = [0,1,3,4] := by decide +kernel
  obtain ⟨infos,found,facts⟩ := ropeMetas_allocated rfl (warmPass_scheduled _ _ (by decide) passed) executed
  obtain ⟨built,prepared,-,causal⟩ := phase_c_causal true infos _
    (fun info member => (facts info member).elim fun _ known => ⟨_,known.2.1⟩) rfl
  exact ⟨final,passed,extended,executed,infos,found,rows infos found,built,prepared,causal⟩
end Batches
end Hypic.PhaseCBatch
