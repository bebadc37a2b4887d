import Hypic.Gdn

/-! Seam recompute. The first tokens of a hit are forwarded again, so a hit has a row of its own besides the
    pair in the pool. The plan lists rows in prompt order; the compose loop stages the rows and the pool pairs. -/

namespace Hypic.Recompute
open Policy Cache Request Alloc Runs Custody Scheduler Forward Affine Ragged Gdn List
universe u v w x
variable {Hash : Type u} [DecidableEq Hash]
variable {req : Req Hash} {builder : Builder} {seg : Seg} {α : Type*}

section Plan

inductive EntryKind where
  | sys | query | midHit | midMiss
  deriving DecidableEq, Repr

/-- How the compose loop passes one segment. -/
structure SegEntry where
  kind : EntryKind
  mambaSlot : Slot
  sinkRow : Option Nat
  interiorRow : Option Nat
  usePoolInterior : Bool
  deriving DecidableEq, Repr

/-- The plan under construction. `physSeg` rows are those of the convolution. -/
structure Builder where
  computeSegLengths : List Nat
  computePersist : List (Nat × Slot)
  physSegLengths : List Nat
  physPersist : List (Nat × Slot)
  curPhysStart : Nat
  tokCursor : Nat
  deriving DecidableEq, Repr

namespace Builder
open List
variable (builder : Builder)

/-- A row for the next tokens of the batch, if there are any. -/
def addRow (length : Nat) : Option Nat × Builder :=
  if 0 < length then
    (some builder.computeSegLengths.length,{ builder with computeSegLengths := builder.computeSegLengths ++ [length] })
  else (none,builder)

def addPersist (row : Option Nat) (slot : Option Slot) : Builder :=
  { builder with computePersist := builder.computePersist ++ (row.bind fun row => slot.map fun slot => (row,slot)).toList }

/-- Ends the convolution row of a segment; a segment without tokens in the batch has none. -/
def closePhys (closeAt : Nat) (slot : Option Slot) : Builder :=
  if builder.curPhysStart < closeAt then
    { builder with
      physSegLengths := builder.physSegLengths ++ [closeAt - builder.curPhysStart]
      physPersist := builder.physPersist ++ (slot.map fun slot => (builder.physSegLengths.length,slot)).toList
      curPhysStart := closeAt }
  else builder
end Builder

/-- One segment of the loop. A hit whose entry has no slot is a `KeyError`. -/
def planSeg (req : Req Hash) (isFirst isLast : Bool) (item : Seg × Option Hash) (builder : Builder) : Option (SegEntry × Builder) :=
  let seg := item.1
  let segLen := seg.2 - seg.1
  let hit := item.2.isSome
  let xSinkEff := if isFirst ∨ isLast then 0 else if hit then ((req.picHitSeamPositions.get? seg).map List.length).getD 0 else 0
  let interiorLen := segLen - xSinkEff
  let missSlot := (picMissMambaSlots req).get? seg
  let slot := match item.2 with
    | some segHash => (picHitMambaSlots req).get? segHash
    | none => some (if isLast then mambaCacheIndex req else missSlot.getD (mambaCacheIndex req))
  let inBatchInteriorLen := if hit then 0 else interiorLen
  let inBatchLen := if hit then xSinkEff else segLen
  slot.map fun mambaSlot =>
    let usePool := decide (hit = true ∧ 0 < interiorLen)
    let planned : SegEntry × Builder :=
      if isFirst then
        let added := builder.addRow inBatchLen
        (⟨.sys,mambaSlot,none,added.1,usePool⟩,
          added.2.addPersist added.1 (if hit = false ∧ isLast = false then missSlot else none))
      else if isLast then
        let added := builder.addRow segLen
        (⟨.query,mambaSlot,none,added.1,usePool⟩,added.2)
      else
        let sink := builder.addRow xSinkEff
        let interior := sink.2.addRow inBatchInteriorLen
        (⟨if hit then .midHit else .midMiss,mambaSlot,sink.1,interior.1,usePool⟩,
          interior.2.addPersist interior.1 (if hit then none else missSlot))
    -- the convolution row ends where the segment's tokens in the batch end
    let closeAt := builder.tokCursor + xSinkEff + inBatchInteriorLen
    (planned.1,{ planned.2 with tokCursor := closeAt }.closePhys closeAt
      (if isLast = false ∧ hit = false then missSlot else none))

def planSegs (req : Req Hash) : Bool → List (Seg × Option Hash) → Builder → Option (List SegEntry × Builder)
  | _, [], builder => some ([],builder)
  | isFirst, item::rest, builder =>
    (planSeg req isFirst rest.isEmpty item builder).bind fun planned =>
      (planSegs req false rest planned.2).map fun later => (planned.1::later.1,later.2)

/-- The batch positions of a request's tokens: all of its misses and the seams of its hits. -/
def absPosSorted (req : Req Hash) : List Nat :=
  ((req.picMissSegments.flatMap fun seg => List.range' seg.1 (seg.2 - seg.1)) ++ req.picHitSeamPositions.values.flatten).insertionSort
    (· ≤ ·)

def planReqs : Nat → List (Req Hash) → Builder → Option (List (List SegEntry) × Builder)
  | _, [], builder => some ([],builder)
  | offset, req::rest, builder =>
    (planSegs req true (ordered req) { builder with curPhysStart := offset, tokCursor := offset }).bind fun planned =>
      (planReqs (offset + (absPosSorted req).length) rest planned.2).map fun later => (planned.1::later.1,later.2)

/-- The plan and, for each request, how the compose loop passes its segments. -/
def buildPicRecomputeMetadata (batch : List (Req Hash)) : Option (List (List SegEntry) × Builder) :=
  planReqs 0 batch ⟨[],[],[],[],0,0⟩
end Plan

section Kernel
variable {T : Type v} {S : Type w} {X : Type x} [Semiring T] [AddCommMonoid S] [Module Tᵐᵒᵖ S] [Zero X]

/-- What the compose loop carries: the state and the seeds of the rows. -/
structure Composing (S : Type w) where
  hAccum : S
  kernelH0 : Nat → S

/-- `_advance_batch`: seeds the row and passes it by the row's own pair. -/
def advanceBatch (cells : Nat → List (Cell T S X)) (row : Nat) (state : Composing S) : Composing S :=
  ⟨Step.apply ⟨fwdTransition (cells row),fwdH (cells row) 0⟩ state.hAccum,Function.update state.kernelH0 row state.hAccum⟩

/-- `_advance_pool` -/
def advancePool (cache : LayerCache T S X) (slot : Slot) (state : Composing S) : Composing S :=
  ⟨Step.apply ⟨cache.transition slot,cache.temporal slot⟩ state.hAccum,state.kernelH0⟩

def advanceRow (cells : Nat → List (Cell T S X)) (row : Option Nat) (state : Composing S) : Composing S :=
  match row with
  | some row => advanceBatch cells row state
  | none => state

def composeEntry (cache : LayerCache T S X) (cells : Nat → List (Cell T S X)) (state : Composing S) (entry : SegEntry) : Composing S :=
  match entry.kind with
  | .sys => if entry.usePoolInterior then advancePool cache entry.mambaSlot state else advanceRow cells entry.interiorRow state
  | .query => advanceRow cells entry.interiorRow state
  | .midHit | .midMiss =>
    let state := advanceRow cells entry.sinkRow state
    if entry.usePoolInterior then advancePool cache entry.mambaSlot state else advanceRow cells entry.interiorRow state

def composeBatch (cache : LayerCache T S X) (cells : Nat → List (Cell T S X)) : List (List SegEntry) → (Nat → S) → List S × (Nat → S)
  | [], kernelH0 => ([],kernelH0)
  | entries::rest, kernelH0 =>
    let composed := entries.foldl (composeEntry cache cells) ⟨0,kernelH0⟩
    let later := composeBatch cache cells rest composed.kernelH0
    (composed.hAccum::later.1,later.2)

def forwardExtendPicTransitionRecompute (width : Nat) (plan : List (List SegEntry) × Builder) (inputs : Req Hash → Nat → Cell T S X)
    (batch : List (Req Hash)) (cache : LayerCache T S X) : Forwarded T S X :=
  let phys := row (cuSeqlens plan.2.physSegLengths) (packed inputs batch)
  let cells := row (cuSeqlens plan.2.computeSegLengths) (packed inputs batch)
  let convTails := persist cache.convTails plan.2.physPersist fun index => convTail width (phys index)
  let temporal := persist cache.temporal plan.2.computePersist fun index => fwdH (cells index) 0
  let transition := persist cache.transition plan.2.computePersist fun index => fwdTransition (cells index)
  let composed := composeBatch ⟨temporal,transition,convTails⟩ cells plan.1 fun _ => 0
  ⟨⟨scatter temporal ((batch.map mambaCacheIndex).zip composed.1),transition,convTails⟩,composed.2⟩
end Kernel

section PlanFacts
variable {args : ServerArgs Hash}

/-- A segment's positions in the batch: the seam of a hit, all of a miss. -/
def rowPositions (req : Req Hash) (item : Seg × Option Hash) : List Nat :=
  if item.2.isSome then (req.picHitSeamPositions.get? item.1).getD [] else List.range' item.1.1 (item.1.2 - item.1.1)

theorem rowPositions_miss (req : Req Hash) (seg : Seg) : (rowPositions req (seg,none)).length = seg.2 - seg.1 := by simp [rowPositions]

/-- Between segments both kinds of rows have been treated alike. -/
structure Aligned (builder : Builder) : Prop where
  start : builder.curPhysStart = builder.tokCursor
  lengths : builder.physSegLengths = builder.computeSegLengths
  persist : builder.physPersist = builder.computePersist

/-- A new row of both kinds, written back to `slot`. -/
def addSeg (builder : Builder) (length : Nat) (slot : Option Slot) : Builder :=
  if length = 0 then builder
  else
    { computeSegLengths := builder.computeSegLengths ++ [length]
      computePersist := builder.computePersist ++ (slot.map fun slot => (builder.computeSegLengths.length,slot)).toList
      physSegLengths := builder.computeSegLengths ++ [length]
      physPersist := builder.computePersist ++ (slot.map fun slot => (builder.computeSegLengths.length,slot)).toList
      curPhysStart := builder.tokCursor + length
      tokCursor := builder.tokCursor + length }

theorem addSeg_aligned (aligned : Aligned builder) (length : Nat) (slot : Option Slot) :
    Aligned (addSeg builder length slot) := by
  unfold addSeg
  split
  · exact aligned
  · exact ⟨rfl,rfl,rfl⟩

theorem planSeg_hit (isFirst : Bool) {segHash : Hash} {slot : Slot}
    (aligned : Aligned builder) (found : (picHitMambaSlots req).get? segHash = some slot)
    (short : (rowPositions req (seg,some segHash)).length < seg.2 - seg.1)
    (first : isFirst = true → rowPositions req (seg,some segHash) = []) :
    planSeg req isFirst false (seg,some segHash) builder =
      some (⟨if isFirst then .sys else .midHit,slot,(builder.addRow (rowPositions req (seg,some segHash)).length).1,none,true⟩,
        addSeg builder (rowPositions req (seg,some segHash)).length none) := by
  have width : ((req.picHitSeamPositions.get? seg).map List.length).getD 0 = (rowPositions req (seg,some segHash)).length := by
    simp only [rowPositions,isSome_some,if_true]
    cases req.picHitSeamPositions.get? seg <;> rfl
  obtain ⟨lengths,persist,physLengths,physPersist,start,cursor⟩ := builder
  obtain ⟨sameStart,sameLengths,samePersist⟩ := aligned
  simp only at sameStart sameLengths samePersist
  subst sameStart sameLengths samePersist
  simp only [planSeg,found,width,map_some]
  cases isFirst with
  | true =>
    have positive : 0 < seg.2 - seg.1 := by omega
    simp [first rfl,Builder.addRow,Builder.addPersist,Builder.closePhys,addSeg,positive]
  | false =>
    have interior : 0 < seg.2 - seg.1 - (rowPositions req (seg,some segHash)).length := by omega
    by_cases none : rowPositions req (seg,some segHash) = []
    · simp [none,Builder.addRow,Builder.addPersist,Builder.closePhys,addSeg]
      simpa [none] using interior
    · have positive : 0 < (rowPositions req (seg,some segHash)).length := length_pos_iff.mpr none
      simp [none,positive,interior,Builder.addRow,Builder.addPersist,Builder.closePhys,addSeg]

theorem planSeg_miss (req : Req Hash) (isFirst isLast : Bool) (aligned : Aligned builder)
    (positive : seg.1 < seg.2) :
    planSeg req isFirst isLast (seg,none) builder =
      some (⟨if isFirst then .sys else if isLast then .query else .midMiss,
          if isLast then mambaCacheIndex req else ((picMissMambaSlots req).get? seg).getD (mambaCacheIndex req),none,
          some builder.computeSegLengths.length,false⟩,
        addSeg builder (seg.2 - seg.1) (if isLast then none else (picMissMambaSlots req).get? seg)) := by
  obtain ⟨lengths,persist,physLengths,physPersist,start,cursor⟩ := builder
  obtain ⟨sameStart,sameLengths,samePersist⟩ := aligned
  simp only at sameStart sameLengths samePersist
  subst sameStart sameLengths samePersist
  have some : 0 < seg.2 - seg.1 := by omega
  have nonzero : seg.2 - seg.1 ≠ 0 := by omega
  cases isFirst <;> cases isLast <;> cases slot : (picMissMambaSlots req).get? seg <;>
    simp [planSeg,some,nonzero,slot,Builder.addRow,Builder.addPersist,Builder.closePhys,addSeg]

/-- How the entry of a segment passes it, `row` being the next row. -/
inductive EntryOf (req : Req Hash) (row : Nat) : Seg × Option Hash → SegEntry → Prop
  | sysHit {seg : Seg} {segHash : Hash} {slot : Slot} (found : (picHitMambaSlots req).get? segHash = some slot)
      (noSeam : rowPositions req (seg,some segHash) = []) : EntryOf req row (seg,some segHash) ⟨.sys,slot,none,none,true⟩
  | midHit {seg : Seg} {segHash : Hash} {slot : Slot} (found : (picHitMambaSlots req).get? segHash = some slot) :
      EntryOf req row (seg,some segHash)
        ⟨.midHit,slot,if rowPositions req (seg,some segHash) = [] then none else some row,none,true⟩
  | miss {seg : Seg} (kind : EntryKind) (slot : Slot) : EntryOf req row (seg,none) ⟨kind,slot,none,some row,false⟩

/-- The entries of consecutive segments with their rows. -/
def EntriesOf (req : Req Hash) : Nat → List (Seg × Option Hash) → List SegEntry → Prop
  | _, [], entries => entries = []
  | row, item::items, entries => ∃ entry rest, entries = entry::rest ∧ EntryOf req row item entry ∧
      EntriesOf req (if rowPositions req item = [] then row else row + 1) items rest

/-- The segments that have a row. -/
def rowItems (req : Req Hash) (items : List (Seg × Option Hash)) : List (Seg × Option Hash) :=
  items.filter fun item => rowPositions req item ≠ []

/-- Rows of misses are written back, all but the last segment's. -/
def persistOf (req : Req Hash) (item : Seg × Option Hash) (row : Nat) : Option (Nat × Slot) :=
  if item.2 = none ∧ some item.1 ≠ req.lastSeg then ((picMissMambaSlots req).get? item.1).map fun slot => (row,slot) else none

structure Planned (req : Req Hash) (items : List (Seg × Option Hash)) (builder final : Builder) : Prop where
  aligned : Aligned final
  lengths : final.computeSegLengths = builder.computeSegLengths ++ (rowItems req items).map fun item => (rowPositions req item).length
  persist : final.computePersist = builder.computePersist ++
    ((rowItems req items).zipIdx builder.computeSegLengths.length).filterMap fun place => persistOf req place.1 place.2

theorem Loaded.seamWidth (loaded : Loaded args req) {hit : Seg × Hash} (listed : hit ∈ req.picHitSegments) :
    (rowPositions req (hit.1,some hit.2)).length < hit.1.2 - hit.1.1 ∧
      (req.picSegments.head? = some hit.1 → rowPositions req (hit.1,some hit.2) = []) := by
  have bounds := loaded.matched.consecutive.mem_bounds (loaded.matched.hits.subset (mem_map_of_mem listed))
  simp only [rowPositions,isSome_some,if_true]
  cases seam : req.picHitSeamPositions.get? hit.1 with
  | none => exact ⟨by simp; omega,fun _ => rfl⟩
  | some positions =>
    obtain ⟨-,behind,width,rfl,-,short⟩ := loaded.seamed hit.1 positions seam
    exact ⟨by simpa using short,fun first => absurd first behind⟩

theorem Planned.cons {item : Seg × Option Hash} {rest : List (Seg × Option Hash)} {builder final : Builder}
    {slot : Option Slot} (planned : Planned req rest (addSeg builder (rowPositions req item).length slot) final)
    (written : slot.map (fun slot => (builder.computeSegLengths.length,slot)) = persistOf req item builder.computeSegLengths.length) :
    Planned req (item::rest) builder final := by
  obtain ⟨aligned,lengths,persist⟩ := planned
  by_cases none : rowPositions req item = []
  · have skip : rowItems req (item::rest) = rowItems req rest := by simp [rowItems,none]
    rw [none,length_nil,addSeg,if_pos rfl] at lengths persist
    exact ⟨aligned,by rw [lengths,skip],by rw [persist,skip]⟩
  · have keep : rowItems req (item::rest) = item::rowItems req rest := by simp [rowItems,none]
    have some : (rowPositions req item).length ≠ 0 := by simpa using none
    rw [addSeg,if_neg some] at lengths persist
    refine ⟨aligned,?_,?_⟩
    · rw [lengths,keep]
      simp
    · rw [persist,keep,zipIdx_cons,filterMap_cons,written]
      simp only [length_append,length_singleton,append_assoc]
      cases persistOf req item builder.computeSegLengths.length <;> rfl

theorem addSeg_rows (builder : Builder) (req : Req Hash) (item : Seg × Option Hash) (slot : Option Slot) :
    (addSeg builder (rowPositions req item).length slot).computeSegLengths.length =
      if rowPositions req item = [] then builder.computeSegLengths.length else builder.computeSegLengths.length + 1 := by
  by_cases none : rowPositions req item = []
  · simp [addSeg,none]
  · simp [addSeg,none]

variable {rest : List (Seg × Option Hash)} {item : Seg × Option Hash}

private theorem planSegs_cons {isFirst isLast : Bool}
    {builder next final : Builder} {entry : SegEntry} {entries : List SegEntry} (last : rest.isEmpty = isLast)
    (here : planSeg req isFirst isLast item builder = some (entry,next)) (later : planSegs req false rest next = some (entries,final)) :
    planSegs req isFirst (item::rest) builder = some (entry::entries,final) := by
  simp only [planSegs,last,here,bind_some,later,map_some]

theorem suffix_last (loaded : Loaded args req)
    (suffix : seg::rest.map Prod.fst <:+ req.picSegments) : rest.isEmpty = true ↔ some seg = req.lastSeg := by
  obtain ⟨front,split⟩ := suffix
  have distinct := loaded.matched.consecutive.nodup
  rw [← split] at distinct
  have alone := (nodup_cons.mp (nodup_append.mp distinct).2.1).1
  rw [Req.lastSeg,← split,getLast?_append]
  cases rest with
  | nil => simp
  | cons next rest =>
    simp only [isEmpty_cons,false_eq_true,false_iff]
    rw [map_cons,getLast?_cons_cons,← map_cons]
    intro same
    have found : seg ∈ (next::rest).map Prod.fst := by
      refine mem_of_getLast? ?_
      cases last : ((next::rest).map Prod.fst).getLast? with
      | none => simp at last
      | some other => rw [last] at same; simpa using same.symm
    exact alone found

/-- The slot a segment convolves in: a hit's entry, the request's own for the last miss, another miss's own. -/
def segSlot (req : Req Hash) (item : Seg × Option Hash) : Option Slot :=
  match item.2 with
  | some segHash => (picHitMambaSlots req).get? segHash
  | none => some (if some item.1 = req.lastSeg then mambaCacheIndex req
      else ((picMissMambaSlots req).get? item.1).getD (mambaCacheIndex req))

theorem planSeg_spec (loaded : Loaded args req) (isFirst : Bool) (aligned : Aligned builder)
    (suffix : (item::rest).map Prod.fst <:+ req.picSegments) (member : item ∈ ordered req)
    (head : isFirst = true → req.picSegments.head? = some item.1) :
    ∃ entry slot, planSeg req isFirst rest.isEmpty item builder = some (entry,addSeg builder (rowPositions req item).length slot) ∧
      EntryOf req builder.computeSegLengths.length item entry ∧ segSlot req item = some entry.mambaSlot ∧
      slot.map (fun slot => (builder.computeSegLengths.length,slot)) = persistOf req item builder.computeSegLengths.length := by
  obtain ⟨seg,kind⟩ := item
  have inside : seg ∈ req.picSegments := suffix.subset mem_cons_self
  have positive := (loaded.matched.consecutive.mem_bounds inside).2.1
  have isLast := suffix_last loaded suffix
  cases kind with
  | some segHash =>
    have listed := mem_ordered_hit.mp member
    have notLast : rest.isEmpty = false := by
      by_contra last
      have isMiss := loaded.matched.last seg (isLast.mp (by simpa using last)).symm
      exact loaded.matched.exclusive seg isMiss (mem_map_of_mem listed)
    obtain ⟨short,first⟩ := Loaded.seamWidth loaded listed
    obtain ⟨slot,found⟩ := loaded.hitSlot listed
    have planned := planSeg_hit isFirst aligned found short fun isFirst => first (head isFirst)
    rw [notLast]
    refine ⟨_,none,planned,?_,found,rfl⟩
    cases isFirst with
    | true =>
      have noSeam := first (head rfl)
      simp only [noSeam,length_nil,Builder.addRow,Nat.lt_irrefl,if_false,if_true]
      exact EntryOf.sysHit found noSeam
    | false =>
      have row : (builder.addRow (rowPositions req (seg,some segHash)).length).1 =
          if rowPositions req (seg,some segHash) = [] then none else some builder.computeSegLengths.length := by
        by_cases none : rowPositions req (seg,some segHash) = []
        · simp [Builder.addRow,none]
        · simp [Builder.addRow,none,length_pos_iff.mpr none]
      rw [row]
      exact EntryOf.midHit found
  | none =>
    have planned := planSeg_miss req isFirst rest.isEmpty aligned positive
    have length : (rowPositions req (seg,none)).length = seg.2 - seg.1 := by simp [rowPositions]
    rw [← length] at planned
    refine ⟨_,_,planned,EntryOf.miss _ _,?_,?_⟩
    · simp only [segSlot,isLast]
    · by_cases last : some seg = req.lastSeg
      · simp [persistOf,isLast.mpr last,last]
      · have more : rest.isEmpty = false := by simpa using mt isLast.mp last
        simp [persistOf,more,last]

theorem planSegs_spec (loaded : Loaded args req) (isFirst : Bool) (items : List (Seg × Option Hash)) (builder : Builder)
    (aligned : Aligned builder) (suffix : items.map Prod.fst <:+ req.picSegments) (members : ∀ item ∈ items, item ∈ ordered req)
    (whole : isFirst = true → items.map Prod.fst = req.picSegments) :
    ∃ entries final, planSegs req isFirst items builder = some (entries,final) ∧ Planned req items builder final ∧
      EntriesOf req builder.computeSegLengths.length items entries := by
  induction items generalizing isFirst builder with
  | nil => exact ⟨[],builder,rfl,⟨aligned,by simp [rowItems],by simp [rowItems]⟩,rfl⟩
  | cons item rest ih =>
    obtain ⟨entry,slot,here,entryOf,-,written⟩ := planSeg_spec loaded isFirst aligned suffix (members item mem_cons_self)
      fun isFirst => by rw [← whole isFirst]; rfl
    obtain ⟨entries,final,executed,planned,entriesOf⟩ := ih false (addSeg builder (rowPositions req item).length slot)
      (addSeg_aligned aligned _ slot) ((suffix_cons ..).trans suffix) (forall_mem_cons.mp members).2
      nofun
    rw [addSeg_rows] at entriesOf
    exact ⟨entry::entries,final,planSegs_cons rfl here executed,planned.cons written,entry,entries,rfl,entryOf,entriesOf⟩

/-- The rows of a batch with the segments they belong to. -/
def batchRows (batch : List (Req Hash)) : List (Req Hash × (Seg × Option Hash)) :=
  batch.flatMap fun req => (rowItems req (ordered req)).map fun item => (req,item)

/-- Each request's entries, with the rows they start at. -/
def PlansOf : Nat → List (Req Hash) → List (List SegEntry) → Prop
  | _, [], plans => plans = []
  | row, req::rest, plans => ∃ entries later, plans = entries::later ∧ EntriesOf req row (ordered req) entries ∧
      PlansOf (row + (rowItems req (ordered req)).length) rest later

structure BatchPlanned (batch : List (Req Hash)) (builder final : Builder) : Prop where
  physLengths : final.physSegLengths = final.computeSegLengths
  physPersist : final.physPersist = final.computePersist
  lengths : final.computeSegLengths = builder.computeSegLengths ++ (batchRows batch).map fun row => (rowPositions row.1 row.2).length
  persist : final.computePersist = builder.computePersist ++
    ((batchRows batch).zipIdx builder.computeSegLengths.length).filterMap fun place => persistOf place.1.1 place.1.2 place.2

theorem planReqs_spec (offset : Nat) (batch : List (Req Hash)) (builder : Builder) (loaded : AllLoaded args batch)
    (lengths : builder.physSegLengths = builder.computeSegLengths) (persist : builder.physPersist = builder.computePersist) :
    ∃ plans final, planReqs offset batch builder = some (plans,final) ∧ BatchPlanned batch builder final ∧
      PlansOf builder.computeSegLengths.length batch plans := by
  induction batch generalizing offset builder with
  | nil => exact ⟨[],builder,rfl,⟨lengths,persist,by simp [batchRows],by simp [batchRows]⟩,rfl⟩
  | cons req rest ih =>
    have here := loaded req mem_cons_self
    have segs := ordered_segs here.matched.toPartitioned
    obtain ⟨entries,middle,executed,planned,entriesOf⟩ := planSegs_spec here true (ordered req)
      { builder with curPhysStart := offset, tokCursor := offset } ⟨rfl,lengths,persist⟩ (by rw [segs]) (fun _ member => member)
      fun _ => segs
    obtain ⟨later,final,finished,batchPlanned,plansOf⟩ := ih (offset + (absPosSorted req).length) middle
      (forall_mem_cons.mp loaded).2 planned.aligned.lengths planned.aligned.persist
    refine ⟨entries::later,final,by simp only [planReqs,executed,bind_some,finished,map_some],?_,_,_,rfl,entriesOf,?_⟩
    · refine ⟨batchPlanned.physLengths,batchPlanned.physPersist,?_,?_⟩
      · rw [batchPlanned.lengths,planned.lengths]
        simp [batchRows,comp_def]
      · rw [batchPlanned.persist,planned.persist,planned.lengths]
        simp only [batchRows,flatMap_cons,zipIdx_append,filterMap_append,zipIdx_map,filterMap_map,
          length_map,length_append,append_assoc]
        rfl
    · rw [planned.lengths] at plansOf
      simpa using plansOf

private theorem sum_coe {α β : Type*} (items : List α) (f : α → List β) :
    (items.map fun item => (↑(f item) : Multiset β)).sum = ↑(items.flatMap f) := by
  induction items with
  | nil => rfl
  | cons item rest ih => rw [map_cons,sum_cons,ih,flatMap_cons,coe_add]

theorem seams_perm (loaded : Loaded args req) :
    req.picHitSeamPositions.values.flatten.Perm (req.picHitSegments.flatMap fun hit => (req.picHitSeamPositions.get? hit.1).getD []) := by
  have lookup := req.picHitSeamPositions.total_lookup (fun positions : List Nat => (↑positions : Multiset Nat))
    (loaded.matched.consecutive.nodup.sublist loaded.matched.hits) fun seg positions found => (loaded.seamed seg positions found).1
  have each (hit : Seg × Hash) : ((req.picHitSeamPositions.get? hit.1).map fun positions : List Nat => (↑positions : Multiset Nat)).getD 0 =
      ↑((req.picHitSeamPositions.get? hit.1).getD []) := by
    cases req.picHitSeamPositions.get? hit.1 <;> rfl
  have listed : (req.picHitSegments.map fun hit => ((req.picHitSeamPositions.get? hit.1).map
      fun positions : List Nat => (↑positions : Multiset Nat)).getD 0).sum =
        ↑(req.picHitSegments.flatMap fun hit => (req.picHitSeamPositions.get? hit.1).getD []) :=
    (congrArg List.sum (map_congr_left fun hit _ => each hit)).trans (sum_coe ..)
  rw [Dict.total,sum_coe req.picHitSeamPositions.items Prod.snd,map_map] at lookup
  exact Multiset.coe_eq_coe.mp ((congrArg _ (flatMap_def ..).symm).trans (lookup.trans listed))

/-- Ranges that follow one another, with increasing positions in each, list increasing positions. -/
private theorem flatMap_sorted (seg : α → Seg) (positions : α → List Nat) {items : List α}
    (apart : (items.map seg).Pairwise fun left right => left.2 ≤ right.1)
    (inside : ∀ item ∈ items, (positions item).Pairwise (· < ·) ∧ ∀ pos ∈ positions item, (seg item).1 ≤ pos ∧ pos < (seg item).2) :
    (items.flatMap positions).Pairwise (· < ·) := by
  rw [pairwise_flatMap]
  refine ⟨fun item member => (inside item member).1,?_⟩
  refine (pairwise_map.mp apart).imp_of_mem fun {left right} leftMember rightMember before => ?_
  intro first firstInside second secondInside
  have := (inside left leftMember).2 first firstInside
  have := (inside right rightMember).2 second secondInside
  omega

private theorem range_inside (seg : Seg) : (List.range' seg.1 (seg.2 - seg.1)).Pairwise (· < ·) ∧
    ∀ pos ∈ List.range' seg.1 (seg.2 - seg.1), seg.1 ≤ pos ∧ pos < seg.2 := by
  refine ⟨pairwise_lt_range' ..,fun pos member => ?_⟩
  have := mem_range'_1.mp member
  omega

theorem rowPositions_sorted (loaded : Loaded args req) :
    ((ordered req).flatMap (rowPositions req)).Pairwise (· < ·) := by
  refine flatMap_sorted Prod.fst (rowPositions req) ?_ ?_
  · rw [ordered_segs loaded.matched.toPartitioned]
    exact loaded.matched.consecutive.sorted
  · rintro ⟨seg,kind⟩ -
    cases kind with
    | none => exact range_inside seg
    | some segHash =>
      simp only [rowPositions,isSome_some,if_true]
      cases seam : req.picHitSeamPositions.get? seg with
      | none => exact ⟨List.Pairwise.nil,nofun⟩
      | some positions =>
        obtain ⟨-,-,width,rfl,-,short⟩ := loaded.seamed seg positions seam
        refine ⟨pairwise_lt_range' ..,fun pos member => ?_⟩
        have := mem_range'_1.mp member
        omega

theorem absPosSorted_rows (loaded : Loaded args req) :
    absPosSorted req = (ordered req).flatMap (rowPositions req) := by
  have perm : ((req.picMissSegments.flatMap fun seg => List.range' seg.1 (seg.2 - seg.1)) ++ req.picHitSeamPositions.values.flatten).Perm
      ((ordered req).flatMap (rowPositions req)) := by
    refine (perm_append_comm.trans (List.Perm.append_right _ (seams_perm loaded))).trans ?_
    refine (List.Perm.of_eq ?_).trans ((perm_insertionSort ..).symm.flatMap_right _)
    rw [flatMap_append,flatMap_map,flatMap_map]
    rfl
  refine ((perm_insertionSort ..).trans perm).eq_of_pairwise (fun _ _ _ _ le ge => Nat.le_antisymm le ge) ?_
    ((rowPositions_sorted loaded).imp Nat.le_of_lt)
  exact pairwise_insertionSort ..

theorem positions_rows (loaded : Loaded args req) :
    req.picMissTokenPositions = (ordered req).flatMap (rowPositions req) := by
  rw [loaded.positions,missTokenPositions,← absPosSorted_rows loaded,absPosSorted]
  split
  · rename_i none
    have noSeams : req.picHitSeamPositions.values.flatten = [] := by simp [Dict.values,none]
    have sorted : (req.picMissSegments.flatMap fun seg => List.range' seg.1 (seg.2 - seg.1)).Pairwise (· < ·) := by
      refine flatMap_sorted id _ ?_ fun seg _ => range_inside seg
      rw [map_id]
      exact loaded.matched.consecutive.sorted.sublist loaded.matched.misses
    rw [noSeams,append_nil]
    exact ((sorted.imp Nat.le_of_lt).insertionSort_eq).symm
  · rfl

variable {batch : List (Req Hash)}

theorem packed_batchRows (inputs : Req Hash → Nat → α) (loaded : AllLoaded args batch) :
    packed inputs batch = ((batchRows batch).map fun row => (rowPositions row.1 row.2).map (inputs row.1)).flatten := by
  have skip (req : Req Hash) (items : List (Seg × Option Hash)) :
      (items.flatMap (rowPositions req)).map (inputs req) =
        ((rowItems req items).map fun item => (rowPositions req item).map (inputs req)).flatten := by
    induction items with
    | nil => rfl
    | cons item rest ih =>
      by_cases none : rowPositions req item = []
      · simpa [rowItems,none] using ih
      · rw [flatMap_cons,map_append,ih]
        simp [rowItems,none]
  induction batch with
  | nil => rfl
  | cons req rest ih =>
    have later := ih (forall_mem_cons.mp loaded).2
    simp only [packed,batchRows,flatMap_cons,map_append,flatten_append,map_map] at later ⊢
    rw [later,positions_rows (loaded req mem_cons_self),skip]
    rfl

theorem row_positions (inputs : Req Hash → Nat → α) {lengths : List Nat}
    (loaded : AllLoaded args batch)
    (planned : lengths = (batchRows batch).map fun row => (rowPositions row.1 row.2).length) {index : Nat}
    (listed : (batchRows batch)[index]? = some (req,item)) :
    row (cuSeqlens lengths) (packed inputs batch) index = (rowPositions req item).map (inputs req) := by
  have cut : lengths = ((batchRows batch).map fun row => (rowPositions row.1 row.2).map (inputs row.1)).map List.length := by
    rw [planned,map_map]
    exact map_congr_left fun row _ => (length_map ..).symm
  rw [packed_batchRows inputs loaded,cut]
  refine row_flatten _ ?_
  rw [getElem?_map,listed]
  rfl

theorem persist_slots {final : Builder} (planned : BatchPlanned batch ⟨[],[],[],[],0,0⟩ final) :
    ∀ item ∈ final.computePersist, item.2 ∈ missSlots batch := by
  intro item member
  rw [planned.persist,nil_append,mem_filterMap] at member
  obtain ⟨⟨⟨req,place⟩,index⟩,listed,written⟩ := member
  have inside := fst_mem_of_mem_zipIdx listed
  simp only [batchRows,mem_flatMap,mem_map] at inside
  obtain ⟨other,inBatch,⟨seg,kind⟩,kept,same⟩ := inside
  cases same
  simp only [persistOf] at written
  split at written
  · rename_i isMiss
    obtain ⟨rfl,-⟩ := isMiss
    obtain ⟨slot,found,rfl⟩ := map_eq_some_iff.mp written
    have missed := mem_ordered_miss.mp (mem_of_mem_filter kept)
    exact mem_filterMap.mpr ⟨(req,seg),mem_missRows.mpr ⟨inBatch,missed⟩,found⟩
  · cases written

theorem persist_hit {β : Type*} {final : Builder} (laid : Laid batch)
    (planned : BatchPlanned batch ⟨[],[],[],[],0,0⟩ final) (pool : Slot → β) (buf : Nat → β) (inside : req ∈ batch)
    {slot : Slot} {segHash : Hash} (found : (picHitMambaSlots req).get? segHash = some slot) :
    persist pool final.computePersist buf slot = pool slot := by
  refine scatter_other _ pool fun written => ?_
  rw [map_map,mem_map] at written
  obtain ⟨item,listed,rfl⟩ := written
  exact laid.apart req inside _ (Dict.mem_values_of_get? found) (missSlots_subset batch (persist_slots planned item listed))
end PlanFacts

section Replay
variable {T : Type v} {S : Type w} {X : Type x} [Semiring T] [AddCommMonoid S] [Module Tᵐᵒᵖ S] [Zero X]
variable {args : ServerArgs Hash} (inputs : Req Hash → Nat → Cell T S X)

/-- What the compose loop runs through for one segment: the seam, and then the whole segment. -/
def replaySeg (req : Req Hash) (seg : Seg) : List (Cell T S X) :=
  ((req.picHitSeamPositions.get? seg).getD []).map (inputs req) ++ segTokens inputs req seg

def replayTokens (req : Req Hash) : List (Cell T S X) := req.picSegments.flatMap (replaySeg inputs req)

theorem advanceBatch_hAccum (cells : Nat → List (Cell T S X)) (row : Nat) (state : Composing S) :
    (advanceBatch cells row state).hAccum = fwdH (cells row) state.hAccum := by
  rw [advanceBatch,fwdTransition_eq]
  exact summary_apply ((cells row).map Cell.toStep) state.hAccum

variable {cache : LayerCache T S X} {cells : Nat → List (Cell T S X)} {req : Req Hash}

theorem composeEntry_replays (loaded : Loaded args req)
    {row : Nat} {item : Seg × Option Hash} {entry : SegEntry} (listed : item ∈ ordered req) (entryOf : EntryOf req row item entry)
    (holds : HitsHold inputs (Holds cache) req)
    (cut : rowPositions req item ≠ [] → cells row = (rowPositions req item).map (inputs req)) (state : Composing S) :
    (composeEntry cache cells state entry).hAccum = fwdH (replaySeg inputs req item.1) state.hAccum := by
  have pool {seg : Seg} {segHash : Hash} {slot : Slot} (found : (picHitMambaSlots req).get? segHash = some slot)
      (hit : (seg,some segHash) ∈ ordered req) (state : Composing S) :
      (advancePool cache slot state).hAccum = fwdH (segTokens inputs req seg) state.hAccum := by
    exact (holds (seg,segHash) (mem_ordered_hit.mp hit) slot found).advance state.hAccum
  cases entryOf with
  | @sysHit seg segHash slot found noSeam =>
    have none : (req.picHitSeamPositions.get? seg).getD [] = [] := noSeam
    rw [replaySeg,none]
    exact pool found listed state
  | @midHit seg segHash slot found =>
    rw [replaySeg,fwdH_append,← pool found listed ⟨_,state.kernelH0⟩]
    by_cases none : rowPositions req (seg,some segHash) = []
    · have seam : (req.picHitSeamPositions.get? seg).getD [] = [] := none
      rw [seam]
      simp [composeEntry,none,advanceRow,advancePool,fwdH]
    · have advanced := advanceBatch_hAccum cells row state
      rw [cut none] at advanced
      simp only [composeEntry,none,if_false,if_true,advanceRow,advancePool]
      rw [advanced]
      rfl
  | @miss seg kind slot =>
    have missed := mem_ordered_miss.mp listed
    have positive := (loaded.matched.consecutive.mem_bounds (loaded.matched.misses.subset missed)).2.1
    have noSeam : req.picHitSeamPositions.get? seg = none := by
      cases seam : req.picHitSeamPositions.get? seg with
      | none => rfl
      | some positions => exact absurd (loaded.seamed seg positions seam).1 (loaded.matched.exclusive seg missed)
    have nonempty : rowPositions req (seg,none) ≠ [] := by
      simp only [rowPositions,isSome_none,false_eq_true,if_false,ne_eq,List.range'_eq_nil_iff]
      omega
    have advanced := advanceBatch_hAccum cells row state
    rw [cut nonempty] at advanced
    have passes : composeEntry cache cells state ⟨kind,slot,none,some row,false⟩ = advanceBatch cells row state := by
      cases kind <;> rfl
    rw [passes,advanced,replaySeg,noSeam]
    rfl

theorem composeEntries_replay (loaded : Loaded args req)
    {row : Nat} {items : List (Seg × Option Hash)} {entries : List SegEntry} (members : ∀ item ∈ items, item ∈ ordered req)
    (entriesOf : EntriesOf req row items entries)
    (holds : HitsHold inputs (Holds cache) req)
    (cut : ∀ index item, (rowItems req items)[index]? = some item → cells (row + index) = (rowPositions req item).map (inputs req))
    (state : Composing S) :
    (entries.foldl (composeEntry cache cells) state).hAccum = fwdH (items.flatMap fun item => replaySeg inputs req item.1) state.hAccum := by
  induction items generalizing row entries state with
  | nil =>
    obtain rfl : entries = [] := entriesOf
    rfl
  | cons item rest ih =>
    obtain ⟨entry,later,rfl,here,entriesOf⟩ := entriesOf
    have kept : rowPositions req item ≠ [] → rowItems req (item::rest) = item::rowItems req rest := by
      intro some
      simp [rowItems,some]
    have first := composeEntry_replays inputs loaded (members item mem_cons_self) here holds
      (fun some => cut 0 item (by rw [kept some]; rfl)) state
    rw [foldl_cons,flatMap_cons,fwdH_append,← first]
    refine ih (forall_mem_cons.mp members).2 entriesOf ?_ (composeEntry cache cells state entry)
    intro index other listed
    by_cases none : rowPositions req item = []
    · rw [if_pos none]
      refine cut index other ?_
      simpa [rowItems,none] using listed
    · rw [if_neg none,Nat.add_assoc,Nat.add_comm 1]
      refine cut (index + 1) other ?_
      rw [kept none]
      exact listed

theorem composeBatch_replays {row : Nat} {batch : List (Req Hash)}
    {plans : List (List SegEntry)} (loaded : AllLoaded args batch) (plansOf : PlansOf row batch plans)
    (holds : ∀ req ∈ batch, HitsHold inputs (Holds cache) req)
    (cut : ∀ index req item, (batchRows batch)[index]? = some (req,item) →
      cells (row + index) = (rowPositions req item).map (inputs req)) (kernelH0 : Nat → S) :
    (composeBatch cache cells plans kernelH0).1 = batch.map fun req => fwdH (replayTokens inputs req) 0 := by
  induction batch generalizing row plans kernelH0 with
  | nil =>
    obtain rfl : plans = [] := plansOf
    rfl
  | cons req rest ih =>
    obtain ⟨entries,later,rfl,entriesOf,plansOf⟩ := plansOf
    have here := loaded req mem_cons_self
    have mine := composeEntries_replay inputs here (fun _ member => member) entriesOf (holds req mem_cons_self)
      (fun index item listed => cut index req item (by
        rw [batchRows,flatMap_cons,getElem?_append_left (by
          rw [length_map]; exact (List.getElem?_eq_some_iff.mp listed).1),getElem?_map,listed]
        rfl)) ⟨0,kernelH0⟩
    have others := ih (forall_mem_cons.mp loaded).2 plansOf
      (forall_mem_cons.mp holds).2
      (fun index other item listed => by
        rw [Nat.add_assoc]
        refine cut _ other item ?_
        rw [batchRows,flatMap_cons,getElem?_append_right (by simp),length_map,Nat.add_sub_cancel_left]
        exact listed)
      (entries.foldl (composeEntry cache cells) ⟨0,kernelH0⟩).kernelH0
    have segs : ((ordered req).flatMap fun item => replaySeg inputs req item.1) = replayTokens inputs req := by
      rw [replayTokens,← ordered_segs here.matched.toPartitioned,flatMap_map]
    simp only [composeBatch,map_cons]
    rw [mine,others,segs]

/-- What the recompute path leaves in each request's slot: every seam token is run through twice. -/
theorem recompute_replays (width : Nat) {batch : List (Req Hash)} (loaded : AllLoaded args batch)
    (laid : Laid batch)
    (filled : ∀ req ∈ batch, HitsHold inputs (Holds cache) req) :
    ∃ plan, buildPicRecomputeMetadata batch = some plan ∧ BatchPlanned batch ⟨[],[],[],[],0,0⟩ plan.2 ∧
      ∀ req ∈ batch, (forwardExtendPicTransitionRecompute width plan inputs batch cache).cache.temporal (mambaCacheIndex req) =
        fwdH (replayTokens inputs req) 0 := by
  obtain ⟨plans,final,executed,planned,plansOf⟩ := planReqs_spec 0 batch ⟨[],[],[],[],0,0⟩ loaded rfl rfl
  refine ⟨(plans,final),executed,planned,fun req member => ?_⟩
  simp only [forwardExtendPicTransitionRecompute]
  rw [composeBatch_replays inputs loaded plansOf]
  · refine scatter_mem _ _ ?_ ?_
    · rw [map_fst_zip (by simp)]
      exact laid.indices_nodup
    · rw [zip_map']
      exact mem_map.mpr ⟨req,member,rfl⟩
  · intro other inside hit listed slot found
    have held := filled other inside hit listed slot found
    constructor
    · simp only [persist_hit laid planned cache.temporal _ inside found]
      exact held.temporal
    · simp only [persist_hit laid planned cache.transition _ inside found]
      exact held.transition
  · intro index other item listed
    rw [length_nil,Nat.zero_add]
    exact row_positions inputs loaded (by simpa using planned.lengths) listed

theorem replayTokens_plain (loaded : Loaded args req) (plain : req.picHitSeamPositions = .empty) :
    replayTokens inputs req = promptTokens inputs req := by
  have once : req.picSegments.flatMap (replaySeg inputs req) = (req.picSegments.map (segTokens inputs req)).flatten := by
    rw [← flatMap_def]
    refine congrArg (List.flatMap · _) (funext fun seg => ?_)
    simp [replaySeg,plain]
  rw [replayTokens,once,segTokens_flatten inputs req loaded.matched.consecutive]
  rfl

/-- A layer in which every segment adds `unit` at its first token and nothing else. -/
def markedInputs (unit : S) (req : Req Hash) (pos : Nat) : Cell T S X :=
  ⟨⟨1,if pos ∈ req.picSegments.map Prod.fst then unit else 0⟩,0⟩

theorem markedInputs_seg (unit : S) (loaded : Loaded args req) (member : seg ∈ req.picSegments) {width : Nat}
    (positive : 0 < width) (short : width ≤ seg.2 - seg.1) (h : S) :
    fwdH ((List.range' seg.1 width).map (markedInputs unit req : Nat → Cell T S X)) h = h + unit := by
  have start : (markedInputs unit req seg.1 : Cell T S X).b = unit := if_pos (mem_map_of_mem member)
  have inner (pos : Nat) (after : seg.1 < pos) (inside : pos < seg.2) : (markedInputs unit req pos : Cell T S X).b = 0 := by
    refine if_neg fun listed => ?_
    obtain ⟨other,otherMember,rfl⟩ := mem_map.mp listed
    have := loaded.matched.consecutive.apart member otherMember after
    omega
  have rest (first length : Nat) (after : seg.1 < first) (inside : first + length ≤ seg.2) (h : S) :
      fwdH ((List.range' first length).map (markedInputs unit req : Nat → Cell T S X)) h = h := by
    induction length generalizing first h with
    | zero => rfl
    | succ length ih =>
      have step : (markedInputs unit req first : Cell T S X).toStep.apply h = h := by
        rw [Step.apply,inner first after (by omega),add_zero]
        exact one_smul ..
      calc fwdH ((List.range' first (length + 1)).map (markedInputs unit req : Nat → Cell T S X)) h
          = fwdH ((List.range' (first + 1) length).map (markedInputs unit req)) ((markedInputs unit req first : Cell T S X).toStep.apply h) := rfl
        _ = h := by rw [step]; exact ih (first + 1) (by omega) (by omega) h
  obtain ⟨width,rfl⟩ : ∃ less, width = less + 1 := ⟨width - 1,by omega⟩
  have step : (markedInputs unit req seg.1 : Cell T S X).toStep.apply h = h + unit := by
    rw [Step.apply,start]
    exact congrArg (· + unit) (one_smul ..)
  calc fwdH ((List.range' seg.1 (width + 1)).map (markedInputs unit req : Nat → Cell T S X)) h
      = fwdH ((List.range' (seg.1 + 1) width).map (markedInputs unit req)) ((markedInputs unit req seg.1 : Cell T S X).toStep.apply h) := rfl
    _ = h + unit := by rw [step]; exact rest (seg.1 + 1) width (by omega) (by omega) (h + unit)

/-- With marked inputs the prompt adds one unit for each segment and a replay one more for each seam. -/
theorem markedInputs_replay (unit : S) (loaded : Loaded args req) (segs : List Seg) (inside : segs ⊆ req.picSegments) (h : S) :
    fwdH (segs.flatMap (segTokens (markedInputs unit : Req Hash → Nat → Cell T S X) req)) h = h + segs.length • unit ∧
      fwdH (segs.flatMap (replaySeg (markedInputs unit : Req Hash → Nat → Cell T S X) req)) h =
        h + (segs.length + segs.countP fun seg => (req.picHitSeamPositions.get? seg).isSome) • unit := by
  induction segs generalizing h with
  | nil => simp [fwdH]
  | cons seg rest ih =>
    have member := inside mem_cons_self
    have positive := (loaded.matched.consecutive.mem_bounds member).2.1
    have whole (h : S) : fwdH (segTokens (markedInputs unit : Req Hash → Nat → Cell T S X) req seg) h = h + unit :=
      markedInputs_seg unit loaded member (by omega) (Nat.le_refl _) h
    have later := ih fun other listed => inside (mem_cons_of_mem _ listed)
    rw [flatMap_cons,flatMap_cons,fwdH_append,fwdH_append,whole,(later _).1,replaySeg,fwdH_append,whole,(later _).2]
    constructor
    · rw [length_cons,add_smul,one_smul]
      abel
    · cases seam : req.picHitSeamPositions.get? seg with
      | none =>
        rw [countP_cons_of_neg (by simp [seam]),length_cons]
        simp only [getD_none,map_nil,fwdH,fold_nil,add_smul,one_smul]
        abel
      | some positions =>
        obtain ⟨-,-,width,rfl,some,short⟩ := loaded.seamed seg positions seam
        rw [countP_cons_of_pos (by simp [seam]),length_cons,getD_some,
          markedInputs_seg unit loaded member some (by omega)]
        simp only [add_smul,one_smul]
        abel

/-- The seams change the composed state: it is the recurrence over the prompt, whatever the layer computes, exactly when
    no hit has a seam. -/
theorem recompute_exact_iff (width : Nat) (pools : Pools Hash) (reqs : List (Req Hash)) (extended : Extended Hash)
    (scheduled : ∀ req ∈ reqs, Scheduled args pools req) (distinct : pools.ledger.2.Nodup)
    (executed : picAllocForExtend args pools reqs = some extended) (endless : ∃ unit : S, Function.Injective fun n : Nat => n • unit) :
    (∀ (inputs : Req Hash → Nat → Cell T S X) (cache : LayerCache T S X),
      (∀ req ∈ extended.reqs, ∀ hit ∈ req.picHitSegments, ∀ slot, (picHitMambaSlots req).get? hit.2 = some slot →
        Holds cache slot (segTokens inputs req hit.1)) →
      ∃ plan, buildPicRecomputeMetadata extended.reqs = some plan ∧ ∀ req ∈ extended.reqs,
        (forwardExtendPicTransitionRecompute width plan inputs extended.reqs cache).cache.temporal (mambaCacheIndex req) =
          fwdH (promptTokens inputs req) 0) ↔
      ∀ req ∈ reqs, req.picHitSeamPositions = .empty := by
  obtain ⟨loaded,laid⟩ := picAllocForExtend_laid scheduled distinct executed
  obtain ⟨prefilled,-⟩ := scheduled_spec scheduled executed
  constructor
  · intro exact req member
    obtain ⟨after,inside,related⟩ := exists_right prefilled member
    rw [← (prefilled_match related).picHitSeamPositions]
    obtain ⟨unit,injective⟩ := endless
    have here := loaded after inside
    let cache : LayerCache T S X := ⟨fun _ => unit,fun _ => 1,fun _ => []⟩
    have filled : ∀ req ∈ extended.reqs, HitsHold (markedInputs unit) (Holds cache) req := by
      intro req member hit listed slot _
      have isSeg := (loaded req member).matched.hits.subset (mem_map_of_mem listed)
      have positive := ((loaded req member).matched.consecutive.mem_bounds isSeg).2.1
      constructor
      · exact ((markedInputs_seg unit (loaded req member) isSeg (by omega) (Nat.le_refl _) 0).trans (zero_add unit)).symm
      · refine (prod_eq_one fun factor found => ?_).symm
        simp only [segTokens,map_map,mem_map] at found
        obtain ⟨pos,-,rfl⟩ := found
        rfl
    obtain ⟨plan,planned,finals⟩ := exact (markedInputs unit) cache filled
    obtain ⟨other,same,-,replays⟩ := recompute_replays (markedInputs unit) width loaded laid filled
    obtain rfl : plan = other := Option.some.inj (planned.symm.trans same)
    obtain ⟨once,replayed⟩ := markedInputs_replay (T := T) (X := X) unit here after.picSegments (List.Subset.refl _) 0
    have prompt : promptTokens (markedInputs unit : Req Hash → Nat → Cell T S X) after =
        after.picSegments.flatMap (segTokens (markedInputs unit) after) := by
      rw [promptTokens,← segTokens_flatten _ after here.matched.consecutive,flatMap_def]
    have equal := (replays after inside).symm.trans (finals after inside)
    rw [prompt,once,replayTokens,replayed,zero_add,zero_add] at equal
    have none : (after.picSegments.countP fun seg => (after.picHitSeamPositions.get? seg).isSome) = 0 := by
      have := injective equal
      omega
    refine Dict.eq_empty fun seg => ?_
    cases seam : after.picHitSeamPositions.get? seg with
    | none => rfl
    | some positions =>
      have isSeg := here.matched.hits.subset (here.seamed seg positions seam).1
      exact absurd (by simp [seam]) (countP_eq_zero.mp none seg isSeg)
  · intro plain inputs cache filled
    obtain ⟨plan,planned,-,replays⟩ := recompute_replays inputs width loaded laid filled
    refine ⟨plan,planned,fun req member => ?_⟩
    obtain ⟨before,inside,related⟩ := exists_left prefilled member
    have noSeams := (prefilled_match related).picHitSeamPositions.trans (plain before inside)
    rw [replays req member,replayTokens_plain inputs (loaded req member) noSeams]
end Replay

section Runs
/-- Every token adds one to the state. -/
def countInputs (_ : Req (List Token)) (_ : Nat) : Cell ℤ ℤ ℤ := ⟨⟨1,1⟩,0⟩

/-- A layer in which every slot holds the pair of a segment of two counted tokens. -/
def countCache : LayerCache ℤ ℤ ℤ := ⟨fun _ => 2,fun _ => 1,fun _ => []⟩

/-- Seam recompute with a seam of up to `sink` tokens. -/
def seamArgs (sink : Nat) : ServerArgs (List Token) := ⟨.transitionRopeRecompute,-1,sink,id⟩

/-- A pass over a cached segment behind a miss, with nothing of it recomputed. -/
theorem warmPass_seamless : ∃ final ∈ warmPass (seamArgs 0) [[4],[1,2],[5,6]],
    ∃ extended ∈ picAllocForExtend (seamArgs 0) final.pools final.canRunList,
      final.pools.ledger.2.Nodup ∧ (∀ req ∈ final.canRunList, req.picHitSeamPositions.items = []) ∧
      (extended.reqs.map fun req => req.picHitSegments.map Prod.fst) = [[(1,3)]] := by decide +kernel

theorem recompute_exact_iff_warmPass : ∃ final, warmPass (seamArgs 0) [[4],[1,2],[5,6]] = some final ∧
    ∃ extended, picAllocForExtend (seamArgs 0) final.pools final.canRunList = some extended ∧
      (extended.reqs.map fun req => req.picHitSegments.map Prod.fst) = [[(1,3)]] ∧
      ∃ plan, buildPicRecomputeMetadata extended.reqs = some plan ∧ ∀ req ∈ extended.reqs,
        (forwardExtendPicTransitionRecompute 3 plan countInputs extended.reqs countCache).cache.temporal (mambaCacheIndex req) =
          fwdH (promptTokens countInputs req) 0 := by
  obtain ⟨final,passed,extended,executed,distinct,plain,hits⟩ := warmPass_seamless
  refine ⟨final,passed,extended,executed,hits,?_⟩
  refine (recompute_exact_iff 3 final.pools final.canRunList extended (warmPass_scheduled _ _ (by decide) passed) distinct executed
    ⟨1,fun left right equal => by simpa using equal⟩).mpr (fun req member => Dict.ext (plain req member)) countInputs countCache ?_
  intro req member hit listed slot _
  rw [hit_of_map hits member listed]
  exact ⟨rfl,rfl⟩

set_option synthInstance.maxSize 256 in
/-- A hit `[1,2]` behind a miss, its first token recomputed: the request's slot counts six tokens of a prompt of five. -/
theorem seam_counted_twice : ∃ final ∈ warmPass (seamArgs 1) [[4],[1,2],[5,6]],
    ∃ extended ∈ picAllocForExtend (seamArgs 1) final.pools final.canRunList,
      (extended.reqs.map fun req => (req.picHitSegments.map Prod.fst,req.picHitSeamPositions.items)) = [([(1,3)],[((1,3),[1])])] ∧
      ∃ plan ∈ buildPicRecomputeMetadata extended.reqs, ∀ req ∈ extended.reqs,
        (forwardExtendPicTransitionRecompute 3 plan countInputs extended.reqs countCache).cache.temporal (mambaCacheIndex req) = 6 ∧
          fwdH (promptTokens countInputs req) 0 = 5 := by decide +kernel
end Runs

end Hypic.Recompute
