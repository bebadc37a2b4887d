import Hypic.Recompute

/-! The SegLA linear layer. Its plan lists the segments of each request in prompt order, with a record for every
    miss. The plain modes run the misses from zero in groups and compose; seam recompute runs the rows of misses
    and seams at once and follows a program of compose operations. -/

namespace Hypic.Lightning
open Policy Request Alloc Runs Scheduler Forward Affine Ragged Recompute List Dict
universe u v w
variable {Hash : Type u} [DecidableEq Hash]
variable {items : List (Seg × Option Hash)} {records : List MissRecord} {slot : Slot}

section Plan

structure MissRecord where
  seg : Seg
  qStart : Nat
  qEnd : Nat
  missSlot : Option Slot
  cacheSegment : Bool
  deriving DecidableEq, Repr

/-- One segment of a request. A hit has the slot found under its hash; reading a slot that was not found is a `KeyError`. -/
inductive PlanStep where
  | hit (seg : Seg) (hitSlot : Option Slot) (seam : Option (List Nat))
  | miss (seg : Seg) (missId : Nat)
  deriving DecidableEq, Repr

structure Planning where
  missRecords : List MissRecord
  qCursor : Nat

/-- The steps of a request, with `abs_to_q_index` in the recompute mode. -/
structure ReqPlan where
  steps : List PlanStep
  absToQIndex : Option (Dict Nat Nat)

structure PicPlan where
  reqPlans : List ReqPlan
  missRecords : List MissRecord

/-- Where the tokens of a miss are in the batch, and the cursor after it. A miss whose tokens are not contiguous is an error. -/
def missRange (absToQIndex : Option (Dict Nat Nat)) (seg : Seg) (qCursor : Nat) : Option (Nat × Nat × Nat) :=
  match absToQIndex with
  | some index => (index.get? seg.1).bind fun qStart => (index.get? (seg.2 - 1)).bind fun qLast =>
      if qLast + 1 - qStart = seg.2 - seg.1 then some (qStart,qLast + 1,qCursor) else none
  | none => some (qCursor,qCursor + (seg.2 - seg.1),qCursor + (seg.2 - seg.1))

/-- The loop over a request's segments. The last segment is never written back. -/
def planSegs (isRecompute : Bool) (req : Req Hash) (absToQIndex : Option (Dict Nat Nat)) (lastSegment : Option Seg) :
    List (Seg × Option Hash) → Planning → Option (List PlanStep × Planning)
  | [], planning => some ([],planning)
  | (seg,kind)::rest, planning =>
    if seg.2 ≤ seg.1 then planSegs isRecompute req absToQIndex lastSegment rest planning
    else
      match kind with
      | some segHash =>
        let seam := if isRecompute then req.picHitSeamPositions.get? seg else none
        (planSegs isRecompute req absToQIndex lastSegment rest planning).map fun later =>
          (.hit seg ((picHitMambaSlots req).get? segHash) seam::later.1,later.2)
      | none =>
        (missRange absToQIndex seg planning.qCursor).bind fun (qStart,qEnd,qCursor) =>
          let missSlot := (picMissMambaSlots req).get? seg
          let record : MissRecord := ⟨seg,qStart,qEnd,missSlot,missSlot.isSome = true ∧ some seg ≠ lastSegment⟩
          (planSegs isRecompute req absToQIndex lastSegment rest ⟨planning.missRecords ++ [record],qCursor⟩).map fun later =>
            (.miss seg planning.missRecords.length::later.1,later.2)

def planReqs (isRecompute : Bool) : List (Req Hash) → Planning → Option (List ReqPlan × Planning)
  | [], planning => some ([],planning)
  | req::rest, planning =>
    let absToQIndex := if isRecompute then some (Dict.empty.setAll ((absPosSorted req).zipIdx planning.qCursor)) else none
    (planSegs isRecompute req absToQIndex ((ordered req).getLast?.map Prod.fst) (ordered req) planning).bind fun planned =>
      let qCursor := match absToQIndex with
        | some index => planning.qCursor + index.items.length
        | none => planned.2.qCursor
      (planReqs isRecompute rest { planned.2 with qCursor := qCursor }).map fun later => (⟨planned.1,absToQIndex⟩::later.1,later.2)

/-- The plan of a batch with `qTotal` tokens, which it has to use up. -/
def picGetOrBuildPlan (isRecompute : Bool) (batch : List (Req Hash)) (qTotal : Nat) : Option PicPlan :=
  (planReqs isRecompute batch ⟨[],0⟩).bind fun planned =>
    if planned.2.qCursor = qTotal then some ⟨planned.1,planned.2.missRecords⟩ else none

inductive RowKind where
  | miss | hitSink
  deriving DecidableEq, Repr

structure PassRow where
  kind : RowKind
  reqId : Nat
  qIdx : List Nat
  deriving DecidableEq, Repr

inductive ComposeOp where
  | seedLocal (row : Nat)
  | seedPoolThenLocal (sinkRow : Nat) (hitSlot : Slot) (seg : Seg)
  | hitPoolOnly (hitSlot : Slot) (reqId : Nat) (seg : Seg)
  | writeback (reqId : Nat)
  deriving DecidableEq, Repr

structure PassRows where
  passRows : List PassRow
  composeProgram : List ComposeOp

/-- `sink_q_idx`: where the seam's tokens are in the batch. -/
def sinkQIdx (absToQIndex : Option (Dict Nat Nat)) (seam : Option (List Nat)) : Option (List Nat) :=
  match seam, absToQIndex with
  | some positions, some index => positions.mapM index.get?
  | _, _ => some []

/-- Adds the row of a segment and its compose operation. -/
def addRow (missRecords : List MissRecord) (absToQIndex : Option (Dict Nat Nat)) (reqId : Nat) (rows : PassRows) (step : PlanStep) :
    Option PassRows :=
  match step with
  | .miss seg missId => missRecords[missId]?.map fun record =>
      ⟨rows.passRows ++ [⟨.miss,reqId,List.range' record.qStart (seg.2 - seg.1)⟩],
        rows.composeProgram ++ [.seedLocal rows.passRows.length]⟩
  | .hit seg hitSlot seam => hitSlot.bind fun slot => (sinkQIdx absToQIndex seam).map fun qIdx =>
      if qIdx = [] then ⟨rows.passRows,rows.composeProgram ++ [.hitPoolOnly slot reqId seg]⟩
      else ⟨rows.passRows ++ [⟨.hitSink,reqId,qIdx⟩],rows.composeProgram ++ [.seedPoolThenLocal rows.passRows.length slot seg]⟩

def addReqRows (missRecords : List MissRecord) (rows : PassRows) (item : ReqPlan × Nat) : Option PassRows :=
  (item.1.steps.foldlM (addRow missRecords item.1.absToQIndex item.2) rows).map fun rows =>
    { rows with composeProgram := rows.composeProgram ++ [.writeback item.2] }

def passRows (plan : PicPlan) : Option PassRows := plan.reqPlans.zipIdx.foldlM (addReqRows plan.missRecords) ⟨[],[]⟩
end Plan

section Kernel
variable {T : Type v} {S : Type w} [Semiring T] [AddCommMonoid S] [Module Tᵐᵒᵖ S]

/-- The rotation of a state's key axis, if states depend on positions. -/
structure RopeArgs (S : Type w) where
  needsRope : Bool
  rotateStateKeyAxis : S → Int → S

def rotateForReplay (rope : RopeArgs S) (state : S) (start : Nat) : S :=
  if rope.needsRope = false ∨ start = 0 then state else rope.rotateStateKeyAxis state start

def derotateToCanonical (rope : RopeArgs S) (state : S) (start : Nat) : S :=
  if rope.needsRope = false ∨ start = 0 then state else rope.rotateStateKeyAxis state (-start)

/-- One row of `seg_la_fwd` in exact arithmetic: each token decays the state and adds its own part. -/
def segLaFwd (decay : T) (tokens : List S) (h0 : S) : S := fold (tokens.map fun token => Step.mk decay token) h0

/-- A layer's states by mamba slot, with the sparse full-precision mirror. -/
structure SegLaCache (S : Type w) where
  ssmStates : Slot → S
  segStateFp32 : Slot → Option S

/-- Every cached segment goes to the pool and to the mirror. -/
def SegLaCache.write (cache : SegLaCache S) (writes : List (Slot × S)) : SegLaCache S :=
  ⟨scatter cache.ssmStates writes,scatter cache.segStateFp32 (writes.map fun item => (item.1,some item.2))⟩

def loadHitState (rope : RopeArgs S) (cache : SegLaCache S) (slot : Slot) (start : Nat) : S :=
  rotateForReplay rope ((cache.segStateFp32 slot).getD (cache.ssmStates slot)) start

/-- One group of the first pass: the rows are cut out of the group's window of the batch. -/
def freshGroup (decay : T) (tokens : List S) (group : List MissRecord) : List S :=
  let qBase := (group.head?.map MissRecord.qStart).getD 0
  let qLimit := (group.getLast?.map MissRecord.qEnd).getD 0
  let window := (tokens.drop qBase).take (qLimit - qBase)
  group.map fun record => segLaFwd decay ((window.drop (record.qStart - qBase)).take (record.seg.2 - record.seg.1)) 0

def freshStates (decay : T) (maxSegments : Nat) (tokens : List S) (missRecords : List MissRecord) : List S :=
  (chunks (max 1 maxSegments) missRecords).flatMap (freshGroup decay tokens)

/-- The states of cached misses, moved back to position zero. -/
def canonicalWrites (rope : RopeArgs S) (missRecords : List MissRecord) (fresh : List S) : List (Slot × S) :=
  (missRecords.zip fresh).filterMap fun (record,state) =>
    if record.cacheSegment then record.missSlot.map fun slot => (slot,derotateToCanonical rope state record.seg.1) else none

/-- What a request's compose loop carries: the state and the initial states of the misses. -/
structure Composing (S : Type w) where
  accum : S
  initStates : Nat → S

def advance (isTransition : Bool) (decay : T) (seg : Seg) (accum contrib : S) : S :=
  if isTransition then Step.apply ⟨decay ^ (seg.2 - seg.1),contrib⟩ accum else accum + contrib

def composeStep (isTransition : Bool) (decay : T) (rope : RopeArgs S) (cache : SegLaCache S) (fresh : List S) (state : Composing S) :
    PlanStep → Option (Composing S)
  | .hit seg hitSlot _ => hitSlot.map fun slot =>
      ⟨advance isTransition decay seg state.accum (loadHitState rope cache slot seg.1),state.initStates⟩
  | .miss seg missId => fresh[missId]?.map fun contrib =>
      ⟨advance isTransition decay seg state.accum contrib,Function.update state.initStates missId state.accum⟩

/-- The second pass, request by request; a finished request's state goes to its own slot. -/
def composeReqs (isTransition : Bool) (decay : T) (rope : RopeArgs S) (fresh : List S) :
    List (ReqPlan × Slot) → SegLaCache S → (Nat → S) → Option (SegLaCache S × (Nat → S))
  | [], cache, initStates => some (cache,initStates)
  | (plan,dst)::rest, cache, initStates =>
    (plan.steps.foldlM (composeStep isTransition decay rope cache fresh) ⟨0,initStates⟩).bind fun state =>
      composeReqs isTransition decay rope fresh rest { cache with ssmStates := Function.update cache.ssmStates dst state.accum }
        state.initStates

/-- `_forward_extend_pic_v2`, up to the outputs: the layer after it and the initial states of the seeded rerun. -/
def forwardExtendPicV2 (isTransition : Bool) (decay : T) (rope : RopeArgs S) (maxSegments : Nat) (plan : PicPlan) (tokens : List S)
    (reqCacheIndices : List Slot) (cache : SegLaCache S) : Option (SegLaCache S × (Nat → S)) :=
  let fresh := freshStates decay maxSegments tokens plan.missRecords
  composeReqs isTransition decay rope fresh (plan.reqPlans.zip reqCacheIndices)
    (cache.write (canonicalWrites rope plan.missRecords fresh)) fun _ => 0

/-- The walk that finds the row of each cached miss again. -/
structure RowWalk where
  row : Nat
  missId : Nat
  missRowMap : Dict Slot (Nat × Nat)

def rowWalkStep (plan : PicPlan) (rows : List PassRow) (walk : RowWalk) : PlanStep → RowWalk
  | .miss _ _ =>
    if (rows[walk.row]?.map PassRow.kind) = some .miss then
      let found := plan.missRecords[walk.missId]?.bind fun record => if record.cacheSegment then record.missSlot else none
      ⟨walk.row + 1,walk.missId + 1,
        match found with
        | some slot => walk.missRowMap.set slot (walk.row,walk.missId)
        | none => walk.missRowMap⟩
    else { walk with missId := walk.missId + 1 }
  | .hit _ _ seam =>
    if seam.isSome = true ∧ (rows[walk.row]?.map PassRow.kind) = some .hitSink then { walk with row := walk.row + 1 } else walk

/-- The compose program's state: each request's accumulated state, once it has one. -/
structure Program (S : Type w) where
  hAccumByReq : Nat → Option S
  kernelH0 : Nat → S
  ssmStates : Slot → S

namespace Program
variable (reqCacheIndices : List Slot)

/-- A request starts from the state in its own slot. -/
def hAccum (program : Program S) (reqId : Nat) : S :=
  (program.hAccumByReq reqId).getD (program.ssmStates (reqCacheIndices.getD reqId 0))

def passRow (decay : T) (rows : List PassRow) (rowState : Nat → S) (program : Program S) (row : Nat) : Program S :=
  match rows[row]? with
  | some passRow =>
    let h := program.hAccum reqCacheIndices passRow.reqId
    { program with
      hAccumByReq := Function.update program.hAccumByReq passRow.reqId
        (some (Step.apply ⟨decay ^ passRow.qIdx.length,rowState row⟩ h))
      kernelH0 := Function.update program.kernelH0 row h }
  | none => program

/-- Advances by the whole segment in the pool. -/
def passHit (decay : T) (fullState : S) (program : Program S) (reqId : Nat) (seg : Seg) : Program S :=
  { program with
    hAccumByReq := Function.update program.hAccumByReq reqId
      (some (Step.apply ⟨decay ^ (seg.2 - seg.1),fullState⟩ (program.hAccum reqCacheIndices reqId))) }

/-- A hit with a seam seeds the seam's row and advances by the whole segment only. -/
def exec (decay : T) (rope : RopeArgs S) (segStateFp32 : Slot → Option S) (rows : List PassRow) (rowState : Nat → S)
    (program : Program S) : ComposeOp → Program S
  | .seedLocal row => program.passRow reqCacheIndices decay rows rowState row
  | .seedPoolThenLocal sinkRow hitSlot seg =>
    match rows[sinkRow]? with
    | some passRow =>
      let seeded := { program with kernelH0 := Function.update program.kernelH0 sinkRow (program.hAccum reqCacheIndices passRow.reqId) }
      seeded.passHit reqCacheIndices decay (loadHitState rope ⟨program.ssmStates,segStateFp32⟩ hitSlot seg.1) passRow.reqId seg
    | none => program
  | .hitPoolOnly hitSlot reqId seg =>
    program.passHit reqCacheIndices decay (loadHitState rope ⟨program.ssmStates,segStateFp32⟩ hitSlot seg.1) reqId seg
  | .writeback reqId =>
    match program.hAccumByReq reqId, reqCacheIndices[reqId]? with
    | some h, some dst => { program with ssmStates := Function.update program.ssmStates dst h }
    | _, _ => program
end Program

/-- `_forward_extend_pic_recompute_3pass`, up to the outputs. -/
def forwardExtendPicRecompute3Pass (decay : T) (rope : RopeArgs S) (plan : PicPlan) (rows : PassRows) (tokens : List S)
    (reqCacheIndices : List Slot) (cache : SegLaCache S) : SegLaCache S × (Nat → S) :=
  if rows.passRows = [] then (cache,fun _ => 0)
  else
    let lengths := rows.passRows.map fun row => row.qIdx.length
    let qPacked := (rows.passRows.flatMap PassRow.qIdx).map fun index => tokens.getD index 0
    let stateBuf := fun index => segLaFwd decay (row (cuSeqlens lengths) qPacked index) 0
    let walk := (plan.reqPlans.flatMap ReqPlan.steps).foldl (rowWalkStep plan rows.passRows) ⟨0,0,.empty⟩
    let writes := walk.missRowMap.items.map fun (slot,index,missId) =>
      (slot,derotateToCanonical rope (stateBuf index) ((plan.missRecords[missId]?.map fun record => record.seg.1).getD 0))
    let written := cache.write writes
    let final := rows.composeProgram.foldl (Program.exec reqCacheIndices decay rope written.segStateFp32 rows.passRows stateBuf)
      ⟨fun _ => none,fun _ => 0,written.ssmStates⟩
    (⟨final.ssmStates,written.segStateFp32⟩,final.kernelH0)

/-- `_forward_extend_pic`: `inputs` is what each token adds to the state. -/
def forwardExtendPic (args : ServerArgs Hash) (decay : T) (rope : RopeArgs S) (maxSegments : Nat) (inputs : Req Hash → Nat → S)
    (batch : List (Req Hash)) (cache : SegLaCache S) : Option (SegLaCache S × (Nat → S)) :=
  let tokens := packed inputs batch
  (picGetOrBuildPlan args.recompute batch tokens.length).bind fun plan =>
    if args.recompute then
      (passRows plan).map fun rows =>
        forwardExtendPicRecompute3Pass decay rope plan rows tokens (batch.map mambaCacheIndex) cache
    else forwardExtendPicV2 args.isTransition decay rope maxSegments plan tokens (batch.map mambaCacheIndex) cache
end Kernel

section PlanFacts
variable {args : ServerArgs Hash}

def absToQIndex (isRecompute : Bool) (base : Nat) (req : Req Hash) : Option (Dict Nat Nat) :=
  if isRecompute then some (Dict.empty.setAll ((absPosSorted req).zipIdx base)) else none

def recordOf (req : Req Hash) (offset : Nat) (seg : Seg) : MissRecord :=
  let missSlot := (picMissMambaSlots req).get? seg
  ⟨seg,offset,offset + (seg.2 - seg.1),missSlot,missSlot.isSome = true ∧ some seg ≠ req.lastSeg⟩

/-- The records of a request's misses, the rows of `items` starting at `offset`. -/
def recordsOf (req : Req Hash) : Nat → List (Seg × Option Hash) → List MissRecord
  | _, [] => []
  | offset, (seg,some segHash)::rest => recordsOf req (offset + (rowPositions req (seg,some segHash)).length) rest
  | offset, (seg,none)::rest => recordOf req offset seg::recordsOf req (offset + (seg.2 - seg.1)) rest

def stepsOf (req : Req Hash) : Nat → List (Seg × Option Hash) → List PlanStep
  | _, [] => []
  | missId, (seg,some segHash)::rest =>
    .hit seg ((picHitMambaSlots req).get? segHash) (req.picHitSeamPositions.get? seg)::stepsOf req missId rest
  | missId, (seg,none)::rest => .miss seg missId::stepsOf req (missId + 1) rest

variable {req : Req Hash} {done rest : List (Seg × Option Hash)}

theorem absToQIndex_get? (loaded : Loaded args req) (base : Nat)
    {item : Seg × Option Hash} (split : ordered req = done ++ item::rest) {place pos : Nat}
    (found : (rowPositions req item)[place]? = some pos) :
    (Dict.empty.setAll ((absPosSorted req).zipIdx base) : Dict Nat Nat).get? pos =
      some (base + (done.flatMap (rowPositions req)).length + place) := by
  have rows := absPosSorted_rows loaded
  have distinct : ((absPosSorted req).zipIdx base).map Prod.fst |>.Nodup := by
    rw [zipIdx_map_fst,rows]
    exact (rowPositions_sorted loaded).imp Nat.ne_of_lt
  refine get?_setAll_mem _ _ distinct ?_
  rw [Nat.add_assoc]
  refine mk_add_mem_zipIdx_iff_getElem?.mpr ?_
  have bound := (List.getElem?_eq_some_iff.mp found).1
  rw [rows,split,flatMap_append,flatMap_cons,getElem?_append_right (by omega),Nat.add_sub_cancel_left,
    getElem?_append_left bound,found]

variable {seg : Seg}

theorem miss_place (req : Req Hash) {place : Nat} (inside : place < seg.2 - seg.1) :
    (rowPositions req (seg,none))[place]? = some (seg.1 + place) := by
  simp only [rowPositions,isSome_none,false_eq_true,if_false]
  rw [getElem?_range' inside,Nat.one_mul]

theorem rows_concat (req : Req Hash) (base : Nat) (done : List (Seg × Option Hash)) (item : Seg × Option Hash) :
    base + ((done ++ [item]).flatMap (rowPositions req)).length =
      base + (done.flatMap (rowPositions req)).length + (rowPositions req item).length := by
  rw [flatMap_append,length_append,flatMap_singleton,Nat.add_assoc]

theorem miss_wide (loaded : Loaded args req) (listed : (seg,none) ∈ ordered req) : seg.2 - seg.1 ≠ 0 := by
  have := (loaded.matched.consecutive.mem_bounds (loaded.matched.misses.subset (mem_ordered_miss.mp listed))).2.1
  omega

theorem missRange_eq (loaded : Loaded args req) (base cursor : Nat)
    (split : ordered req = done ++ (seg,none)::rest)
    (plain : args.recompute = false → cursor = base + (done.flatMap (rowPositions req)).length) :
    let offset := base + (done.flatMap (rowPositions req)).length
    missRange (absToQIndex args.recompute base req) seg cursor =
      some (offset,offset + (seg.2 - seg.1),if args.recompute then cursor else offset + (seg.2 - seg.1)) := by
  intro offset
  cases recompute : args.recompute with
  | false =>
    obtain rfl := plain recompute
    rfl
  | true =>
    have missed : seg ∈ req.picMissSegments := mem_ordered_miss.mp (split ▸ mem_append_right _ mem_cons_self)
    have positive := (loaded.matched.consecutive.mem_bounds (loaded.matched.misses.subset missed)).2.1
    have first := absToQIndex_get? loaded base split (miss_place req (show 0 < seg.2 - seg.1 by omega))
    have last := absToQIndex_get? loaded base split (miss_place req (show seg.2 - seg.1 - 1 < seg.2 - seg.1 by omega))
    rw [show seg.1 + (seg.2 - seg.1 - 1) = seg.2 - 1 by omega] at last
    rw [Nat.add_zero,Nat.add_zero] at first
    simp only [missRange,absToQIndex,if_true,first,last,bind_some]
    rw [if_pos (by omega)]
    simp only [Option.some.injEq,Prod.mk.injEq]
    refine ⟨by omega,by omega,trivial⟩

theorem planSegs_eq (loaded : Loaded args req) (base : Nat) {done items : List (Seg × Option Hash)}
    (split : ordered req = done ++ items) (planning : Planning)
    (plain : args.recompute = false → planning.qCursor = base + (done.flatMap (rowPositions req)).length) :
    planSegs args.recompute req (absToQIndex args.recompute base req) req.lastSeg items planning =
      some (stepsOf req planning.missRecords.length items,
        ⟨planning.missRecords ++ recordsOf req (base + (done.flatMap (rowPositions req)).length) items,
          if args.recompute then planning.qCursor else base + ((ordered req).flatMap (rowPositions req)).length⟩) := by
  induction items generalizing done planning with
  | nil =>
    obtain ⟨records,cursor⟩ := planning
    rw [append_nil] at split
    subst split
    cases recompute : args.recompute with
    | false =>
      obtain rfl : cursor = _ := plain recompute
      simp only [planSegs,stepsOf,recordsOf,append_nil,false_eq_true,if_false]
    | true => simp only [planSegs,stepsOf,recordsOf,append_nil,if_true]
  | cons item rest ih =>
    obtain ⟨seg,kind⟩ := item
    have isSeg : seg ∈ req.picSegments := by
      rw [← ordered_segs loaded.matched.toPartitioned,split]
      simp
    have tokens : ¬ seg.2 ≤ seg.1 := Nat.not_le_of_lt (loaded.matched.consecutive.mem_bounds isSeg).2.1
    have further : ordered req = (done ++ [(seg,kind)]) ++ rest := by rw [split]; simp
    have grown := rows_concat req base done (seg,kind)
    cases kind with
    | some segHash =>
      have seam : (if args.recompute then req.picHitSeamPositions.get? seg else none) = req.picHitSeamPositions.get? seg := by
        cases recompute : args.recompute with
        | false => simp [loaded.seams recompute]
        | true => rfl
      have noRow : args.recompute = false → (rowPositions req (seg,some segHash)).length = 0 := by
        intro recompute
        simp [rowPositions,loaded.seams recompute]
      have later := ih further planning fun recompute => by rw [grown,noRow recompute,Nat.add_zero]; exact plain recompute
      rw [grown] at later
      simp only [planSegs,tokens,if_false,later,seam,map_some,stepsOf,recordsOf]
    | none =>
      have range := missRange_eq loaded base planning.qCursor split plain
      have width := rowPositions_miss req seg
      rw [width] at grown
      have later := ih further ⟨planning.missRecords ++ [recordOf req (base + (done.flatMap (rowPositions req)).length) seg],
        if args.recompute then planning.qCursor else base + (done.flatMap (rowPositions req)).length + (seg.2 - seg.1)⟩
        fun recompute => by rw [grown]; simp only [recompute,false_eq_true,if_false]
      rw [grown,length_append,length_singleton,append_assoc,singleton_append] at later
      simp only [planSegs,tokens,if_false,range,bind_some,stepsOf,recordsOf]
      simp only [recordOf] at later ⊢
      rw [later]
      cases args.recompute <;> rfl
def batchRecords : Nat → List (Req Hash) → List MissRecord
  | _, [] => []
  | offset, req::rest => recordsOf req offset (ordered req) ++ batchRecords (offset + req.picMissTokenPositions.length) rest

def batchPlans (isRecompute : Bool) : Nat → Nat → List (Req Hash) → List ReqPlan
  | _, _, [] => []
  | offset, missId, req::rest =>
    ⟨stepsOf req missId (ordered req),absToQIndex isRecompute offset req⟩::
      batchPlans isRecompute (offset + req.picMissTokenPositions.length) (missId + (recordsOf req offset (ordered req)).length) rest

variable {batch : List (Req Hash)}

theorem planReqs_eq (loaded : AllLoaded args batch) (records : List MissRecord) (offset : Nat) :
    planReqs args.recompute batch ⟨records,offset⟩ = some (batchPlans args.recompute offset records.length batch,
      ⟨records ++ batchRecords offset batch,offset + (batch.flatMap Req.picMissTokenPositions).length⟩) := by
  induction batch generalizing records offset with
  | nil => simp [planReqs,batchPlans,batchRecords]
  | cons req rest ih =>
    have here := loaded req mem_cons_self
    have last : (ordered req).getLast?.map Prod.fst = req.lastSeg := by
      rw [← getLast?_map,ordered_segs here.matched.toPartitioned]
      rfl
    have planned := planSegs_eq here offset (show ordered req = [] ++ ordered req from rfl) ⟨records,offset⟩ fun _ => rfl
    have rows := absPosSorted_rows here
    have length : (absPosSorted req).length = req.picMissTokenPositions.length := by rw [rows,positions_rows here]
    have size : ((Dict.empty.setAll ((absPosSorted req).zipIdx offset) : Dict Nat Nat).items).length = (absPosSorted req).length := by
      rw [items_setAll _ _ (by
        rw [items_empty,nil_append,zipIdx_map_fst,rows]
        exact (rowPositions_sorted here).imp Nat.ne_of_lt)]
      simp
    have later := ih (forall_mem_cons.mp loaded).2 (records ++ recordsOf req offset (ordered req))
      (offset + req.picMissTokenPositions.length)
    simp only [flatMap_nil,length_nil,Nat.add_zero] at planned
    rw [length_append] at later
    simp only [planReqs,last,batchPlans,batchRecords,flatMap_cons,length_append,← Nat.add_assoc,← append_assoc]
    cases recompute : args.recompute with
    | false =>
      rw [recompute] at planned later
      simp only [absToQIndex,false_eq_true,if_false,← positions_rows here] at planned later ⊢
      rw [planned,bind_some,later]
      rfl
    | true =>
      rw [recompute] at planned later
      simp only [absToQIndex,if_true] at planned later ⊢
      rw [planned,bind_some,size,length,later]
      rfl

variable {α : Type*}

theorem picGetOrBuildPlan_eq (loaded : AllLoaded args batch) (inputs : Req Hash → Nat → α) :
    picGetOrBuildPlan args.recompute batch (packed inputs batch).length =
      some ⟨batchPlans args.recompute 0 0 batch,batchRecords 0 batch⟩ := by
  have length : (packed inputs batch).length = (batch.flatMap Req.picMissTokenPositions).length := by
    simp [packed,length_flatMap]
  rw [picGetOrBuildPlan,planReqs_eq loaded,length]
  simp

/-- A record's tokens, cut out of the batch, are those of its segment. -/
structure RecordOf {α : Type*} (inputs : Req Hash → Nat → α) (tokens : List α) (req : Req Hash) (record : MissRecord) : Prop where
  missed : record.seg ∈ req.picMissSegments
  eq : record = recordOf req record.qStart record.seg
  cut : (tokens.drop record.qStart).take (record.qEnd - record.qStart) = segTokens inputs req record.seg

theorem recordsOf_cut (inputs : Req Hash → Nat → α) (members : ∀ item ∈ items, item ∈ ordered req) (before after : List α) {record : MissRecord}
    (listed : record ∈ recordsOf req before.length items) :
    RecordOf inputs (before ++ ((items.flatMap (rowPositions req)).map (inputs req) ++ after)) req record := by
  induction items generalizing before with
  | nil => cases listed
  | cons item rest ih =>
    obtain ⟨seg,kind⟩ := item
    have shift : before ++ (((seg,kind)::rest).flatMap (rowPositions req) |>.map (inputs req)) ++ after =
        (before ++ (rowPositions req (seg,kind)).map (inputs req)) ++ ((rest.flatMap (rowPositions req)).map (inputs req) ++ after) := by
      simp
    have later (listed : record ∈ recordsOf req (before.length + (rowPositions req (seg,kind)).length) rest) :=
      ih (forall_mem_cons.mp members).2 (before ++ (rowPositions req (seg,kind)).map (inputs req))
        (by rwa [length_append,length_map])
    rw [← append_assoc,shift]
    cases kind with
    | some segHash => exact later listed
    | none =>
      have width := rowPositions_miss req seg
      rcases mem_cons.mp listed with rfl | listed
      · refine ⟨mem_ordered_miss.mp (members _ mem_cons_self),rfl,?_⟩
        simp only [recordOf]
        rw [append_assoc,drop_left,show before.length + (seg.2 - seg.1) - before.length = seg.2 - seg.1 by omega]
        exact take_left' (by rw [length_map,width])
      · exact later (width.symm ▸ listed)

theorem batchRecords_cut (inputs : Req Hash → Nat → α) (loaded : AllLoaded args batch)
    (before : List α) {record : MissRecord} (listed : record ∈ batchRecords before.length batch) :
    ∃ req ∈ batch, RecordOf inputs (before ++ packed inputs batch) req record := by
  induction batch generalizing before with
  | nil => cases listed
  | cons req rest ih =>
    have here := loaded req mem_cons_self
    rcases mem_append.mp listed with mine | theirs
    · have cut := recordsOf_cut inputs (fun _ member => member) before (packed inputs rest) mine
      rw [← positions_rows here] at cut
      exact ⟨req,mem_cons_self ..,cut⟩
    · obtain ⟨other,member,cut⟩ := ih (forall_mem_cons.mp loaded).2
        (before ++ req.picMissTokenPositions.map (inputs req)) (by rwa [length_append,length_map])
      rw [append_assoc] at cut
      exact ⟨other,mem_cons_of_mem _ member,cut⟩

theorem recordsOf_sorted (req : Req Hash) (offset : Nat) (items : List (Seg × Option Hash)) :
    (recordsOf req offset items).Pairwise (fun left right => left.qEnd ≤ right.qStart) ∧
      ∀ record ∈ recordsOf req offset items, offset ≤ record.qStart ∧ record.qStart ≤ record.qEnd ∧
        record.qEnd ≤ offset + (items.flatMap (rowPositions req)).length := by
  induction items generalizing offset with
  | nil => exact ⟨List.Pairwise.nil,nofun⟩
  | cons item rest ih =>
    obtain ⟨seg,kind⟩ := item
    rw [flatMap_cons,length_append]
    cases kind with
    | some segHash =>
      obtain ⟨sorted,bounds⟩ := ih (offset + (rowPositions req (seg,some segHash)).length)
      refine ⟨sorted,fun record listed => ?_⟩
      have := bounds record listed
      omega
    | none =>
      have width := rowPositions_miss req seg
      obtain ⟨sorted,bounds⟩ := ih (offset + (seg.2 - seg.1))
      refine ⟨pairwise_cons.mpr ⟨fun record listed => (bounds record listed).1,sorted⟩,fun record listed => ?_⟩
      rcases mem_cons.mp listed with rfl | listed
      · simp only [recordOf]
        omega
      · have := bounds record listed
        omega

theorem batchRecords_sorted (loaded : AllLoaded args batch) (offset : Nat) :
    (batchRecords offset batch).Pairwise (fun left right => left.qEnd ≤ right.qStart) ∧
      ∀ record ∈ batchRecords offset batch, offset ≤ record.qStart ∧ record.qStart ≤ record.qEnd := by
  induction batch generalizing offset with
  | nil => exact ⟨List.Pairwise.nil,nofun⟩
  | cons req rest ih =>
    obtain ⟨sorted,bounds⟩ := recordsOf_sorted req offset (ordered req)
    obtain ⟨laterSorted,laterBounds⟩ := ih (forall_mem_cons.mp loaded).2
      (offset + req.picMissTokenPositions.length)
    rw [← positions_rows (loaded req mem_cons_self)] at bounds
    refine ⟨pairwise_append.mpr ⟨sorted,laterSorted,fun left mine right theirs => ?_⟩,fun record listed => ?_⟩
    · have := bounds left mine
      have := laterBounds right theirs
      omega
    · rcases mem_append.mp listed with mine | theirs
      · exact ⟨(bounds record mine).1,(bounds record mine).2.1⟩
      · have := laterBounds record theirs
        omega
/-- The slot a record is written back to. -/
def MissRecord.cached (record : MissRecord) : Option Slot := if record.cacheSegment then record.missSlot else none

/-- The slots of a request's misses, without its last segment. -/
def cachedSlots (req : Req Hash) : List Slot :=
  (((ordered req).filter fun item => item.2 = none ∧ some item.1 ≠ req.lastSeg).map Prod.fst).filterMap (picMissMambaSlots req).get?

theorem recordOf_cached (req : Req Hash) (offset : Nat) (seg : Seg) :
    (recordOf req offset seg).cached = if some seg ≠ req.lastSeg then (picMissMambaSlots req).get? seg else none := by
  by_cases last : some seg = req.lastSeg
  · simp [MissRecord.cached,recordOf,last]
  · cases slot : (picMissMambaSlots req).get? seg <;> simp [MissRecord.cached,recordOf,last,slot]

theorem recordsOf_cached (req : Req Hash) (offset : Nat) (items : List (Seg × Option Hash)) :
    (recordsOf req offset items).filterMap MissRecord.cached =
      ((items.filter fun item => item.2 = none ∧ some item.1 ≠ req.lastSeg).map Prod.fst).filterMap (picMissMambaSlots req).get? := by
  induction items generalizing offset with
  | nil => rfl
  | cons item rest ih =>
    obtain ⟨seg,kind⟩ := item
    cases kind with
    | some segHash => simpa [recordsOf] using ih _
    | none =>
      rw [recordsOf,filterMap_cons,recordOf_cached,ih]
      by_cases last : some seg = req.lastSeg
      · simp [last]
      · simp [last,filterMap_cons]

theorem batchRecords_cached (offset : Nat) (batch : List (Req Hash)) :
    (batchRecords offset batch).filterMap MissRecord.cached = batch.flatMap cachedSlots := by
  induction batch generalizing offset with
  | nil => rfl
  | cons req rest ih =>
    rw [batchRecords,filterMap_append,ih,recordsOf_cached]
    rfl

theorem cachedSlots_nodup (loaded : AllLoaded args batch) (laid : Laid batch) :
    (batch.flatMap cachedSlots).Nodup := by
  refine laid.flatMap_nodup cachedSlots (fun req member => ?_) fun req member slot listed => ?_
  · have values : (picMissMambaSlots req).values.Nodup :=
      (nodup_append.mp ((nodup_flatMap.mp laid.own).1 req member)).1
    refine lookup_nodup values ?_
    have segs := (loaded req member).matched.consecutive.nodup
    rw [← ordered_segs (loaded req member).matched.toPartitioned] at segs
    exact segs.sublist (filter_sublist.map _)
  · obtain ⟨seg,-,found⟩ := mem_filterMap.mp listed
    exact mem_append_left _ (mem_values_of_get? found)

theorem mem_cachedSlots (missed : seg ∈ req.picMissSegments) (inner : some seg ≠ req.lastSeg)
    (found : (picMissMambaSlots req).get? seg = some slot) : slot ∈ cachedSlots req := by
  refine mem_filterMap.mpr ⟨seg,mem_map.mpr ⟨(seg,none),mem_filter.mpr ⟨mem_ordered_miss.mpr missed,?_⟩,rfl⟩,found⟩
  simpa using inner

/-- What can be composed: hits with a slot, misses with a record. -/
def StepOk (records : Nat) : PlanStep → Prop
  | .hit _ hitSlot _ => hitSlot.isSome = true
  | .miss _ missId => missId < records

theorem stepsOf_ok (loaded : Loaded args req)
    (members : ∀ item ∈ items, item ∈ ordered req) (missId offset : Nat) :
    ∀ step ∈ stepsOf req missId items, StepOk (missId + (recordsOf req offset items).length) step := by
  induction items generalizing missId offset with
  | nil => exact nofun
  | cons item rest ih =>
    obtain ⟨seg,kind⟩ := item
    have later := ih (forall_mem_cons.mp members).2
    cases kind with
    | some segHash =>
      refine forall_mem_cons.mpr ⟨?_,later missId _⟩
      obtain ⟨slot,found⟩ := loaded.hitSlot (mem_ordered_hit.mp (members _ mem_cons_self))
      exact isSome_iff_exists.mpr ⟨slot,found⟩
    | none =>
      refine forall_mem_cons.mpr ⟨?_,?_⟩
      · simp only [StepOk,recordsOf,length_cons]
        omega
      · have shifted := later (missId + 1) (offset + (seg.2 - seg.1))
        rwa [Nat.add_assoc,Nat.add_comm 1] at shifted

theorem batchPlans_ok (loaded : AllLoaded args batch) (isRecompute : Bool) (offset missId : Nat) :
    ∀ plan ∈ batchPlans isRecompute offset missId batch, ∀ step ∈ plan.steps,
      StepOk (missId + (batchRecords offset batch).length) step := by
  induction batch generalizing offset missId with
  | nil => exact nofun
  | cons req rest ih =>
    have later := ih (forall_mem_cons.mp loaded).2 (offset + req.picMissTokenPositions.length)
      (missId + (recordsOf req offset (ordered req)).length)
    rw [batchRecords,length_append,← Nat.add_assoc]
    refine forall_mem_cons.mpr ⟨fun step listed => ?_,later⟩
    have mine := stepsOf_ok (loaded req mem_cons_self) (fun _ member => member) missId offset step listed
    cases step with
    | hit seg slot seam => exact mine
    | miss seg id => exact Nat.lt_of_lt_of_le mine (Nat.le_add_right ..)
/-- The rows of a request, their tokens starting at `offset`. -/
def passRowsOf (req : Req Hash) (reqId : Nat) : Nat → List (Seg × Option Hash) → List PassRow
  | _, [] => []
  | offset, item::rest =>
    let width := (rowPositions req item).length
    (if width = 0 then [] else [⟨if item.2.isSome then .hitSink else .miss,reqId,List.range' offset width⟩]) ++
      passRowsOf req reqId (offset + width) rest

def batchPassRows : Nat → Nat → List (Req Hash) → List PassRow
  | _, _, [] => []
  | offset, reqId, req::rest =>
    passRowsOf req reqId offset (ordered req) ++ batchPassRows (offset + req.picMissTokenPositions.length) (reqId + 1) rest

private theorem mapM_range {f : α → Option Nat} {items : List α} {start : Nat}
    (each : ∀ place item, items[place]? = some item → f item = some (start + place)) :
    items.mapM f = some (List.range' start items.length) := by
  induction items generalizing start with
  | nil => rfl
  | cons item rest ih =>
    have later := @ih (start + 1) fun place other found => by
      rw [each (place + 1) other found,Option.some.injEq]
      omega
    rw [mapM_cons,each 0 item rfl,later]
    rfl

theorem sinkQIdx_eq (loaded : Loaded args req) (base : Nat)
    {segHash : Hash} (split : ordered req = done ++ (seg,some segHash)::rest) :
    sinkQIdx (absToQIndex true base req) (req.picHitSeamPositions.get? seg) =
      some (List.range' (base + (done.flatMap (rowPositions req)).length) (rowPositions req (seg,some segHash)).length) := by
  cases seam : req.picHitSeamPositions.get? seg with
  | none => simp [sinkQIdx,rowPositions,seam]
  | some positions =>
    have row : rowPositions req (seg,some segHash) = positions := by simp [rowPositions,seam]
    simp only [sinkQIdx,absToQIndex,if_true]
    rw [row]
    refine mapM_range fun place pos found => ?_
    exact absToQIndex_get? loaded base split (row.symm ▸ found)

/-- The compose operations of a request, its rows starting at `row`. -/
def programOf (req : Req Hash) (reqId : Nat) : Nat → List (Seg × Option Hash) → List ComposeOp
  | _, [] => []
  | row, (seg,some segHash)::rest =>
    let slot := ((picHitMambaSlots req).get? segHash).getD 0
    if (rowPositions req (seg,some segHash)).length = 0 then .hitPoolOnly slot reqId seg::programOf req reqId row rest
    else .seedPoolThenLocal row slot seg::programOf req reqId (row + 1) rest
  | row, (_,none)::rest => .seedLocal row::programOf req reqId (row + 1) rest

def batchProgram : Nat → Nat → Nat → List (Req Hash) → List ComposeOp
  | _, _, _, [] => []
  | offset, reqId, row, req::rest =>
    programOf req reqId row (ordered req) ++ .writeback reqId::
      batchProgram (offset + req.picMissTokenPositions.length) (reqId + 1) (row + (passRowsOf req reqId offset (ordered req)).length) rest

theorem addRow_rows (loaded : Loaded args req) (base reqId : Nat) {done items : List (Seg × Option Hash)}
    (split : ordered req = done ++ items) (before after : List MissRecord)
    (listed : records = before ++ (recordsOf req (base + (done.flatMap (rowPositions req)).length) items ++ after)) (rows : PassRows) :
    (stepsOf req before.length items).foldlM (addRow records (absToQIndex true base req) reqId) rows =
      some ⟨rows.passRows ++ passRowsOf req reqId (base + (done.flatMap (rowPositions req)).length) items,
        rows.composeProgram ++ programOf req reqId rows.passRows.length items⟩ := by
  induction items generalizing done before rows with
  | nil => simp [stepsOf,passRowsOf,programOf]
  | cons item rest ih =>
    obtain ⟨seg,kind⟩ := item
    have further : ordered req = (done ++ [(seg,kind)]) ++ rest := by rw [split]; simp
    have grown := rows_concat req base done (seg,kind)
    cases kind with
    | some segHash =>
      obtain ⟨slot,found⟩ := loaded.hitSlot
        (mem_ordered_hit.mp (show (seg,some segHash) ∈ ordered req from split ▸ mem_append_right _ mem_cons_self))
      have sink := sinkQIdx_eq loaded base split
      have later := ih further before (by rw [grown]; exact listed)
      rw [grown] at later
      simp only [stepsOf,foldlM_cons,addRow,found,bind_some,sink,map_some,passRowsOf,programOf,getD_some,
        List.range'_eq_nil_iff]
      by_cases none : (rowPositions req (seg,some segHash)).length = 0
      · simp only [none,if_true,nil_append]
        simp only [none] at later
        refine (later _).trans ?_
        simp
      · simp only [none,if_false,isSome_some,if_true]
        refine (later _).trans ?_
        simp
    | none =>
      have width := rowPositions_miss req seg
      have tokens := miss_wide loaded (split ▸ mem_append_right _ mem_cons_self)
      rw [width] at grown
      have here : records[before.length]? = some (recordOf req (base + (done.flatMap (rowPositions req)).length) seg) := by
        rw [listed,getElem?_append_right (Nat.le_refl _),Nat.sub_self]
        rfl
      have later := ih further (before ++ [recordOf req (base + (done.flatMap (rowPositions req)).length) seg])
        (by rw [grown,listed]; simp [recordsOf])
      rw [grown,length_append,length_singleton] at later
      simp only [stepsOf,foldlM_cons,addRow,here,map_some,passRowsOf,programOf,width,tokens,if_false,isSome_none,
        false_eq_true]
      refine (later _).trans ?_
      simp [recordOf]

theorem passRows_eq (loaded : AllLoaded args batch) (offset reqId : Nat) (before after : List MissRecord) (listed : records = before ++ (batchRecords offset batch ++ after)) (rows : PassRows) :
    ((batchPlans true offset before.length batch).zipIdx reqId).foldlM (addReqRows records) rows =
      some ⟨rows.passRows ++ batchPassRows offset reqId batch,
        rows.composeProgram ++ batchProgram offset reqId rows.passRows.length batch⟩ := by
  induction batch generalizing offset reqId before rows with
  | nil => simp [batchPlans,batchPassRows,batchProgram]
  | cons req rest ih =>
    have here := loaded req mem_cons_self
    have mine := addRow_rows here offset reqId (show ordered req = [] ++ ordered req from rfl) before
      (batchRecords (offset + req.picMissTokenPositions.length) rest ++ after)
      (show records = _ by rw [listed]; simp [batchRecords]) rows
    have later := ih (forall_mem_cons.mp loaded).2 (offset + req.picMissTokenPositions.length)
      (reqId + 1) (before ++ recordsOf req offset (ordered req)) (by rw [listed]; simp [batchRecords])
    simp only [flatMap_nil,length_nil,Nat.add_zero] at mine
    rw [length_append] at later
    simp only [batchPlans,zipIdx_cons,foldlM_cons,addReqRows,mine,map_some,batchPassRows,batchProgram]
    refine (later _).trans ?_
    simp
/-- The cached misses with their rows and records. -/
def rowPairs (req : Req Hash) : Nat → Nat → List (Seg × Option Hash) → List (Slot × Nat × Nat)
  | _, _, [] => []
  | row, missId, (seg,some segHash)::rest =>
    rowPairs req (if (rowPositions req (seg,some segHash)).length = 0 then row else row + 1) missId rest
  | row, missId, (seg,none)::rest =>
    ((recordOf req 0 seg).cached.map fun slot => (slot,row,missId)).toList ++ rowPairs req (row + 1) (missId + 1) rest

def batchPairs : Nat → Nat → Nat → Nat → List (Req Hash) → List (Slot × Nat × Nat)
  | _, _, _, _, [] => []
  | offset, reqId, row, missId, req::rest =>
    rowPairs req row missId (ordered req) ++ batchPairs (offset + req.picMissTokenPositions.length) (reqId + 1)
      (row + (passRowsOf req reqId offset (ordered req)).length) (missId + (recordsOf req offset (ordered req)).length) rest

theorem rowPairs_slots (req : Req Hash) (offset row missId : Nat) (items : List (Seg × Option Hash)) :
    (rowPairs req row missId items).map Prod.fst = (recordsOf req offset items).filterMap MissRecord.cached := by
  induction items generalizing offset row missId with
  | nil => rfl
  | cons item rest ih =>
    obtain ⟨seg,kind⟩ := item
    cases kind with
    | some segHash => exact ih ..
    | none =>
      rw [rowPairs,recordsOf,map_append,filterMap_cons,ih (offset + (seg.2 - seg.1)),recordOf_cached,recordOf_cached]
      cases (if some seg ≠ req.lastSeg then (picMissMambaSlots req).get? seg else none) <;> rfl

theorem batchPairs_slots (offset reqId row missId : Nat) (batch : List (Req Hash)) :
    (batchPairs offset reqId row missId batch).map Prod.fst = batch.flatMap cachedSlots := by
  rw [← batchRecords_cached offset]
  induction batch generalizing offset reqId row missId with
  | nil => rfl
  | cons req rest ih => rw [batchPairs,batchRecords,map_append,filterMap_append,ih,rowPairs_slots req offset]

/-- A plan's records and rows from some segment on. -/
structure Ahead (plan : PicPlan) (rows : List PassRow) (row missId : Nat) (records : List MissRecord) (passRows : List PassRow) : Prop where
  records : ∃ before after, before.length = missId ∧ plan.missRecords = before ++ (records ++ after)
  rows : ∃ before after, before.length = row ∧ rows = before ++ (passRows ++ after)

section Walk
variable {plan : PicPlan} {rows : List PassRow} {row missId : Nat}

variable {records : List MissRecord} {passRows : List PassRow}

theorem Ahead.all (plan : PicPlan) (rows : List PassRow) : Ahead plan rows 0 0 plan.missRecords rows :=
  ⟨⟨[],[],rfl,by simp⟩,[],[],rfl,by simp⟩

theorem Ahead.record {record : MissRecord}
    (ahead : Ahead plan rows row missId (record::records) passRows) : plan.missRecords[missId]? = some record := by
  obtain ⟨before,after,rfl,split⟩ := ahead.records
  rw [split,getElem?_append_right (Nat.le_refl _),Nat.sub_self]
  rfl

theorem Ahead.passRow {passRow : PassRow}
    (ahead : Ahead plan rows row missId records (passRow::passRows)) : rows[row]? = some passRow := by
  obtain ⟨before,after,rfl,split⟩ := ahead.rows
  rw [split,getElem?_append_right (Nat.le_refl _),Nat.sub_self]
  rfl

theorem Ahead.drop (front : List MissRecord) (frontRows : List PassRow)
    (ahead : Ahead plan rows row missId (front ++ records) (frontRows ++ passRows)) :
    Ahead plan rows (row + frontRows.length) (missId + front.length) records passRows := by
  obtain ⟨⟨before,after,rfl,split⟩,rowsBefore,rowsAfter,rfl,rowsSplit⟩ := ahead
  exact ⟨⟨before ++ front,after,length_append,by rw [split]; simp⟩,
    rowsBefore ++ frontRows,rowsAfter,length_append,by rw [rowsSplit]; simp⟩

theorem Ahead.take {records later : List MissRecord} {passRows laterRows : List PassRow}
    (ahead : Ahead plan rows row missId (records ++ later) (passRows ++ laterRows)) : Ahead plan rows row missId records passRows := by
  obtain ⟨⟨before,after,here,split⟩,rowsBefore,rowsAfter,rowHere,rowsSplit⟩ := ahead
  exact ⟨⟨before,later ++ after,here,by rw [split]; simp⟩,rowsBefore,laterRows ++ rowsAfter,rowHere,by rw [rowsSplit]; simp⟩

theorem rowWalk_steps {req : Req Hash} (loaded : Loaded args req) (reqId offset : Nat)
    (members : ∀ item ∈ items, item ∈ ordered req)
    (ahead : Ahead plan rows row missId (recordsOf req offset items) (passRowsOf req reqId offset items)) (found : Dict Slot (Nat × Nat)) :
    (stepsOf req missId items).foldl (rowWalkStep plan rows) ⟨row,missId,found⟩ =
      ⟨row + (passRowsOf req reqId offset items).length,missId + (recordsOf req offset items).length,
        found.setAll (rowPairs req row missId items)⟩ := by
  induction items generalizing offset row missId found with
  | nil => rfl
  | cons item rest ih =>
    obtain ⟨seg,kind⟩ := item
    have others : ∀ item ∈ rest, item ∈ ordered req := (forall_mem_cons.mp members).2
    cases kind with
    | some segHash =>
      have listed := mem_ordered_hit.mp (members _ mem_cons_self)
      simp only [stepsOf,foldl_cons,rowPairs,recordsOf,passRowsOf]
      cases seam : req.picHitSeamPositions.get? seg with
      | none =>
        have none : (rowPositions req (seg,some segHash)).length = 0 := by simp [rowPositions,seam]
        simp only [recordsOf,passRowsOf,none,if_true,nil_append,Nat.add_zero] at ahead ⊢
        exact ih offset others ahead found
      | some positions =>
        have width : (rowPositions req (seg,some segHash)).length ≠ 0 := by
          obtain ⟨-,-,width,rfl,positive,-⟩ := loaded.seamed seg positions seam
          simp only [rowPositions,seam,isSome_some,if_true,getD_some,length_range']
          omega
        simp only [recordsOf,passRowsOf,width,if_false,singleton_append,isSome_some,if_true] at ahead ⊢
        have kind := congrArg (Option.map PassRow.kind) ahead.passRow
        have advanced : rowWalkStep plan rows ⟨row,missId,found⟩ (.hit seg ((picHitMambaSlots req).get? segHash) (some positions)) =
            ⟨row + 1,missId,found⟩ := if_pos ⟨rfl,kind⟩
        have next := ih _ others (ahead.drop [] [_]) found
        rw [advanced]
        refine next.trans (RowWalk.mk.injEq .. ▸ ⟨?_,rfl,rfl⟩)
        simp only [length_cons,length_nil]
        omega
    | none =>
      have width := rowPositions_miss req seg
      have tokens := miss_wide loaded (members _ mem_cons_self)
      simp only [stepsOf,foldl_cons,rowPairs,recordsOf,passRowsOf,width,tokens,if_false,singleton_append,isSome_none,
        false_eq_true] at ahead ⊢
      have kind := congrArg (Option.map PassRow.kind) ahead.passRow
      have advanced : rowWalkStep plan rows ⟨row,missId,found⟩ (.miss seg missId) =
          ⟨row + 1,missId + 1,found.setAll ((recordOf req 0 seg).cached.map fun slot => (slot,row,missId)).toList⟩ := by
        have cached : (plan.missRecords[missId]?.bind fun record => if record.cacheSegment then record.missSlot else none) =
            (recordOf req 0 seg).cached := by
          rw [ahead.record,bind_some,recordOf_cached,← recordOf_cached req offset]
          rfl
        refine (if_pos kind).trans ?_
        simp only [cached]
        cases (recordOf req 0 seg).cached <;> rfl
      have next := ih _ others (ahead.drop [_] [_]) (found.setAll ((recordOf req 0 seg).cached.map fun slot => (slot,row,missId)).toList)
      rw [advanced,setAll_append]
      refine next.trans (RowWalk.mk.injEq .. ▸ ⟨?_,?_,rfl⟩)
      · simp only [length_cons,length_nil]
        omega
      · simp only [length_cons,length_nil]
        omega

theorem rowWalk_batch {batch : List (Req Hash)} (loaded : AllLoaded args batch) (offset reqId : Nat)
    (ahead : Ahead plan rows row missId (batchRecords offset batch) (batchPassRows offset reqId batch)) (found : Dict Slot (Nat × Nat)) :
    (((batchPlans true offset missId batch).flatMap ReqPlan.steps).foldl (rowWalkStep plan rows) ⟨row,missId,found⟩).missRowMap =
      found.setAll (batchPairs offset reqId row missId batch) := by
  induction batch generalizing offset reqId row missId found with
  | nil => rfl
  | cons req rest ih =>
    have mine := rowWalk_steps (loaded req mem_cons_self) reqId offset (fun _ member => member) ahead.take found
    rw [batchPlans,flatMap_cons,foldl_append,mine,batchPairs,setAll_append]
    exact ih (forall_mem_cons.mp loaded).2 _ _ (ahead.drop _ _) _

theorem mem_rowPairs {req : Req Hash} (loaded : Loaded args req) (reqId offset : Nat)
    (members : ∀ item ∈ items, item ∈ ordered req)
    (ahead : Ahead plan rows row missId (recordsOf req offset items) (passRowsOf req reqId offset items)) {index id : Nat}
    (listed : (slot,index,id) ∈ rowPairs req row missId items) :
    ∃ record ∈ recordsOf req offset items, plan.missRecords[id]? = some record ∧ record.cached = some slot ∧
      rows[index]? = some ⟨.miss,reqId,List.range' record.qStart (record.seg.2 - record.seg.1)⟩ := by
  induction items generalizing offset row missId with
  | nil => cases listed
  | cons item rest ih =>
    obtain ⟨seg,kind⟩ := item
    have others : ∀ item ∈ rest, item ∈ ordered req := (forall_mem_cons.mp members).2
    cases kind with
    | some segHash =>
      simp only [rowPairs,recordsOf,passRowsOf] at ahead listed ⊢
      by_cases none : (rowPositions req (seg,some segHash)).length = 0
      · simp only [none,if_true,nil_append] at ahead listed ⊢
        exact ih _ others ahead listed
      · simp only [none,if_false] at ahead listed
        exact ih _ others (ahead.drop [] [_]) listed
    | none =>
      have width := rowPositions_miss req seg
      have tokens := miss_wide loaded (members _ mem_cons_self)
      simp only [rowPairs,recordsOf,passRowsOf,width,tokens,if_false,singleton_append,isSome_none,false_eq_true,
        mem_append] at ahead listed ⊢
      rcases listed with here | later
      · refine ⟨_,mem_cons_self ..,?_⟩
        rw [Option.mem_toList,map_eq_some_iff] at here
        obtain ⟨found,cached,same⟩ := here
        cases same
        refine ⟨ahead.record,?_,ahead.passRow⟩
        rwa [recordOf_cached,← recordOf_cached req 0]
      · obtain ⟨record,inside,rest⟩ := ih _ others (ahead.drop [_] [_]) later
        exact ⟨record,mem_cons_of_mem _ inside,rest⟩

theorem mem_batchPairs {batch : List (Req Hash)} (loaded : AllLoaded args batch) (offset reqId : Nat)
    (ahead : Ahead plan rows row missId (batchRecords offset batch) (batchPassRows offset reqId batch)) {index id : Nat}
    (listed : (slot,index,id) ∈ batchPairs offset reqId row missId batch) :
    ∃ record ∈ batchRecords offset batch, plan.missRecords[id]? = some record ∧ record.cached = some slot ∧
      ∃ passRow, rows[index]? = some passRow ∧ passRow.qIdx = List.range' record.qStart (record.seg.2 - record.seg.1) := by
  induction batch generalizing offset reqId row missId with
  | nil => cases listed
  | cons req rest ih =>
    rcases mem_append.mp listed with mine | theirs
    · obtain ⟨record,inside,found,cached,passRow⟩ :=
        mem_rowPairs (loaded req mem_cons_self) reqId offset (fun _ member => member) ahead.take mine
      exact ⟨record,mem_append_left _ inside,found,cached,_,passRow,rfl⟩
    · obtain ⟨record,inside,rest⟩ :=
        ih (forall_mem_cons.mp loaded).2 _ _ (ahead.drop _ _) theirs
      exact ⟨record,mem_append_right _ inside,rest⟩
end Walk
end PlanFacts

section Persist
variable {T : Type v} {S : Type w} [Semiring T] [AddCommMonoid S] [Module Tᵐᵒᵖ S]
variable {args : ServerArgs Hash} (decay : T) (rope : RopeArgs S) (inputs : Req Hash → Nat → S)

/-- The canonical state of a segment: its end state from zero, moved back to position zero. -/
def canonicalState (req : Req Hash) (seg : Seg) : S := derotateToCanonical rope (segLaFwd decay (segTokens inputs req seg) 0) seg.1

/-- What a forward pass does to the misses' slots: the last segment's stays as it was. -/
structure Persists (batch : List (Req Hash)) (before after : Slot → S) : Prop where
  cached : ∀ req ∈ batch, ∀ seg ∈ req.picMissSegments, some seg ≠ req.lastSeg → ∀ slot,
    (picMissMambaSlots req).get? seg = some slot → after slot = canonicalState decay rope inputs req seg
  last : ∀ req ∈ batch, ∀ seg, some seg = req.lastSeg → ∀ slot, (picMissMambaSlots req).get? seg = some slot → after slot = before slot

/-- Write-backs of records, each with its own slot. -/
structure WriteBack (batch : List (Req Hash)) (writes : List (Slot × S)) : Prop where
  slots : writes.map Prod.fst = batch.flatMap cachedSlots
  each : ∀ write ∈ writes, ∃ req ∈ batch, ∃ record, RecordOf inputs (packed inputs batch) req record ∧
    record.cached = some write.1 ∧ write.2 = canonicalState decay rope inputs req record.seg

variable {batch : List (Req Hash)}

theorem WriteBack.persists (writes : List (Slot × S)) (written : WriteBack decay rope inputs batch writes)
    (loaded : AllLoaded args batch) (laid : Laid batch) {before after : Slot → S}
    (frame : ∀ slot, slot ∉ batch.map mambaCacheIndex → after slot = scatter before writes slot) :
    Persists decay rope inputs batch before after := by
  have distinct : (writes.map Prod.fst).Nodup := written.slots ▸ cachedSlots_nodup loaded laid
  constructor
  · intro req member seg missed inner slot found
    rw [frame slot (laid.notIndex member found)]
    have listed : slot ∈ writes.map Prod.fst := by
      rw [written.slots]
      exact mem_flatMap.mpr ⟨req,member,mem_cachedSlots missed inner found⟩
    obtain ⟨⟨place,value⟩,write,rfl⟩ := mem_map.mp listed
    rw [scatter_mem writes before distinct write]
    obtain ⟨other,otherMember,record,recordOf,cached,same⟩ := written.each _ write
    rw [recordOf.eq,recordOf_cached] at cached
    split at cached
    · obtain ⟨rfl,rfl⟩ := laid.owner member otherMember found cached
      exact same
    · cases cached
  · intro req member seg isLast slot found
    rw [frame slot (laid.notIndex member found)]
    refine scatter_other writes before fun listed => ?_
    rw [written.slots] at listed
    obtain ⟨other,otherMember,listed⟩ := mem_flatMap.mp listed
    obtain ⟨otherSeg,kept,otherFound⟩ := mem_filterMap.mp listed
    obtain ⟨rfl,rfl⟩ := laid.owner member otherMember found otherFound
    obtain ⟨item,inner,rfl⟩ := mem_map.mp kept
    have inner := (mem_filter.mp inner).2
    simp only [decide_eq_true_eq] at inner
    exact inner.2 isLast

/-- A forward pass writes misses back to the pool and the mirror, and then only each request's own slot of the pool. -/
def WritesBack (batch : List (Req Hash)) (cache after : SegLaCache S) : Prop :=
  ∃ writes, WriteBack decay rope inputs batch writes ∧ after.segStateFp32 = (cache.write writes).segStateFp32 ∧
    ∀ slot, slot ∉ batch.map mambaCacheIndex → after.ssmStates slot = (cache.write writes).ssmStates slot

variable {cache after : SegLaCache S}

theorem WritesBack.persists
    (written : WritesBack decay rope inputs batch cache after) (loaded : AllLoaded args batch) (laid : Laid batch) :
    Persists decay rope inputs batch cache.ssmStates after.ssmStates := by
  obtain ⟨writes,back,-,frame⟩ := written
  exact back.persists decay rope inputs writes loaded laid frame

theorem freshStates_eq (maxSegments : Nat) (tokens : List S)
    (sorted : records.Pairwise fun left right => left.qEnd ≤ right.qStart)
    (bounds : ∀ record ∈ records, record.qStart ≤ record.qEnd ∧ record.seg.2 - record.seg.1 = record.qEnd - record.qStart) :
    freshStates decay maxSegments tokens records =
      records.map fun record => segLaFwd decay ((tokens.drop record.qStart).take (record.qEnd - record.qStart)) 0 := by
  have each : ∀ group ∈ chunks (max 1 maxSegments) records, freshGroup decay tokens group =
      group.map fun record => segLaFwd decay ((tokens.drop record.qStart).take (record.qEnd - record.qStart)) 0 := by
    intro group member
    have sub := chunk_sublist member
    have sorted := sorted.sublist sub
    refine map_congr_left fun record listed => ?_
    obtain ⟨order,width⟩ := bounds record (sub.subset listed)
    have lower : (group.head?.map MissRecord.qStart).getD 0 ≤ record.qStart := by
      cases group with
      | nil => cases listed
      | cons first rest =>
        rcases mem_cons.mp listed with rfl | later
        · exact Nat.le_refl _
        · exact Nat.le_trans (bounds first (sub.subset mem_cons_self)).1 ((pairwise_cons.mp sorted).1 record later)
    have upper : record.qEnd ≤ (group.getLast?.map MissRecord.qEnd).getD 0 := by
      obtain rfl | ⟨front,last,rfl⟩ := eq_nil_or_concat group
      · cases listed
      · rw [concat_eq_append] at *
        rw [getLast?_concat]
        rcases mem_append.mp listed with earlier | isLast
        · have := (pairwise_append.mp sorted).2.2 record earlier last (mem_singleton.mpr rfl)
          exact Nat.le_trans this (bounds last (sub.subset (mem_append_right _ (mem_singleton.mpr rfl)))).1
        · rw [mem_singleton.mp isLast]
          exact Nat.le_refl _
    rw [width,slice_window tokens lower order upper]
  rw [freshStates,flatMap_def,map_congr_left each,← map_flatten,chunks_flatten (by omega)]

theorem canonicalWrites_eq (records : List MissRecord) (state : MissRecord → S) :
    canonicalWrites rope records (records.map state) =
      records.filterMap fun record => record.cached.map fun slot => (slot,derotateToCanonical rope (state record) record.seg.1) := by
  rw [canonicalWrites]
  induction records with
  | nil => rfl
  | cons record rest ih =>
    rw [map_cons,zip_cons_cons,filterMap_cons,filterMap_cons,ih]
    cases cached : record.cacheSegment <;> simp [MissRecord.cached,cached]

section
variable (isTransition : Bool) (fresh : List S) {pairs : List (ReqPlan × Slot)} {initStates finals : Nat → S} (executed : composeReqs isTransition decay rope fresh pairs cache initStates = some (after,finals))
include isTransition fresh executed

theorem composeReqs_frame (other : slot ∉ pairs.map Prod.snd) : after.ssmStates slot = cache.ssmStates slot := by
  induction pairs generalizing cache initStates with
  | nil =>
    simp only [composeReqs,Option.some.injEq,Prod.mk.injEq] at executed
    rw [executed.1]
  | cons pair rest ih =>
    obtain ⟨plan,dst⟩ := pair
    obtain ⟨state,-,executed⟩ := bind_eq_some_iff.mp executed
    rw [map_cons,mem_cons,not_or] at other
    exact (ih executed other.2).trans (update_of_ne other.1 ..)

theorem composeReqs_mirror :
    after.segStateFp32 = cache.segStateFp32 := by
  induction pairs generalizing cache initStates with
  | nil =>
    simp only [composeReqs,Option.some.injEq,Prod.mk.injEq] at executed
    rw [executed.1]
  | cons pair rest ih =>
    obtain ⟨plan,dst⟩ := pair
    obtain ⟨state,-,executed⟩ := bind_eq_some_iff.mp executed
    exact (ih executed).trans rfl

end

theorem composeReqs_isSome (isTransition : Bool) (fresh : List S) (pairs : List (ReqPlan × Slot)) (cache : SegLaCache S) (initStates : Nat → S)
    (ok : ∀ pair ∈ pairs, ∀ step ∈ pair.1.steps, StepOk fresh.length step) :
    (composeReqs isTransition decay rope fresh pairs cache initStates).isSome := by
  have steps (cache : SegLaCache S) (steps : List PlanStep) (state : Composing S) (ok : ∀ step ∈ steps, StepOk fresh.length step) :
      (steps.foldlM (composeStep isTransition decay rope cache fresh) state).isSome := by
    induction steps generalizing state with
    | nil => rfl
    | cons step rest ih =>
      obtain ⟨mine,others⟩ := forall_mem_cons.mp ok
      obtain ⟨next,passed⟩ : ∃ next, composeStep isTransition decay rope cache fresh state step = some next := by
        cases step with
        | hit seg slot seam =>
          obtain ⟨found,rfl⟩ := isSome_iff_exists.mp mine
          exact ⟨_,rfl⟩
        | miss seg missId =>
          have bound : missId < fresh.length := mine
          simp only [composeStep,getElem?_eq_getElem bound]
          exact ⟨_,rfl⟩
      rw [foldlM_cons,passed]
      exact ih next others
  induction pairs generalizing cache initStates with
  | nil => rfl
  | cons pair rest ih =>
    obtain ⟨mine,others⟩ := forall_mem_cons.mp ok
    obtain ⟨state,passed⟩ := isSome_iff_exists.mp (steps cache pair.1.steps ⟨0,initStates⟩ mine)
    rw [composeReqs,passed,bind_some]
    exact ih _ _ others

theorem forwardExtendPicV2_writes (isTransition : Bool) (maxSegments : Nat)
    (loaded : AllLoaded args batch) (isRecompute : Bool) (cache : SegLaCache S) :
    ∃ after, forwardExtendPicV2 isTransition decay rope maxSegments ⟨batchPlans isRecompute 0 0 batch,batchRecords 0 batch⟩
        (packed inputs batch) (batch.map mambaCacheIndex) cache = some after ∧
      WritesBack decay rope inputs batch cache after.1 := by
  obtain ⟨sorted,bounds⟩ := batchRecords_sorted loaded 0
  have cuts : ∀ record ∈ batchRecords 0 batch, ∃ req ∈ batch, RecordOf inputs (packed inputs batch) req record := fun record listed =>
    batchRecords_cut inputs loaded [] listed
  have widths : ∀ record ∈ batchRecords 0 batch, record.qStart ≤ record.qEnd ∧ record.seg.2 - record.seg.1 = record.qEnd - record.qStart := by
    intro record listed
    obtain ⟨req,-,recordOf⟩ := cuts record listed
    refine ⟨(bounds record listed).2,?_⟩
    rw [recordOf.eq]
    simp [Lightning.recordOf]
  have fresh := freshStates_eq decay maxSegments (packed inputs batch) sorted widths
  have ok := batchPlans_ok loaded isRecompute 0 0
  rw [Nat.zero_add] at ok
  obtain ⟨after,executed⟩ := isSome_iff_exists.mp (composeReqs_isSome decay rope isTransition
    (freshStates decay maxSegments (packed inputs batch) (batchRecords 0 batch))
    ((batchPlans isRecompute 0 0 batch).zip (batch.map mambaCacheIndex))
    (cache.write (canonicalWrites rope (batchRecords 0 batch) (freshStates decay maxSegments (packed inputs batch) (batchRecords 0 batch))))
    (fun _ => 0) fun pair listed step inside => by
      rw [fresh,length_map]
      exact ok pair.1 (of_mem_zip listed).1 step inside)
  refine ⟨after,executed,canonicalWrites rope (batchRecords 0 batch)
    (freshStates decay maxSegments (packed inputs batch) (batchRecords 0 batch)),?_,composeReqs_mirror decay rope isTransition _ executed,
    fun slot absent => ?_⟩
  · rw [fresh,canonicalWrites_eq]
    constructor
    · rw [map_filterMap,← batchRecords_cached 0]
      refine filterMap_congr fun record _ => ?_
      rw [Option.map_map]
      exact Option.map_id_apply
    · intro write listed
      obtain ⟨record,inside,written⟩ := mem_filterMap.mp listed
      obtain ⟨slot,cached,rfl⟩ := map_eq_some_iff.mp written
      obtain ⟨req,member,recordOf⟩ := cuts record inside
      exact ⟨req,member,record,recordOf,cached,by rw [recordOf.cut]; rfl⟩
  · refine composeReqs_frame decay rope isTransition _ executed fun listed => absent ?_
    obtain ⟨pair,inside,rfl⟩ := mem_map.mp listed
    exact (of_mem_zip inside).2

theorem exec_frame (reqCacheIndices : List Slot) (mirror : Slot → Option S) (rows : List PassRow) (rowState : Nat → S)
    (ops : List ComposeOp) (program : Program S) (other : slot ∉ reqCacheIndices) :
    (ops.foldl (Program.exec reqCacheIndices decay rope mirror rows rowState) program).ssmStates slot = program.ssmStates slot := by
  induction ops generalizing program with
  | nil => rfl
  | cons op rest ih =>
    rw [foldl_cons,ih]
    cases op with
    | seedLocal row =>
      simp only [Program.exec,Program.passRow]
      split <;> rfl
    | seedPoolThenLocal sinkRow hitSlot seg =>
      simp only [Program.exec,Program.passHit]
      split <;> rfl
    | hitPoolOnly hitSlot reqId seg => rfl
    | writeback reqId =>
      simp only [Program.exec]
      split
      · rename_i dst _ found
        refine update_of_ne (fun same => other ?_) ..
        exact same ▸ mem_of_getElem? found
      · rfl

theorem range_getD {tokens : List S} {start width : Nat} (long : ((tokens.drop start).take width).length = width) :
    (List.range' start width).map (fun index => tokens.getD index 0) = (tokens.drop start).take width := by
  refine ext_getElem? fun place => ?_
  by_cases inside : place < width
  · have bound : start + place < tokens.length := by
      rw [length_take,length_drop] at long
      omega
    rw [getElem?_map,getElem?_range' inside,getElem?_take_of_lt inside,getElem?_drop,Nat.one_mul,
      getElem?_eq_getElem bound]
    simp [List.getD,bound]
  · rw [getElem?_eq_none (by simp; omega),getElem?_eq_none (by rw [long]; omega)]

theorem packed_row (rows : List PassRow) (tokens : List S) {index : Nat} {passRow : PassRow} (found : rows[index]? = some passRow) :
    row (cuSeqlens (rows.map fun row => row.qIdx.length)) ((rows.flatMap PassRow.qIdx).map fun index => tokens.getD index 0) index =
      passRow.qIdx.map fun index => tokens.getD index 0 := by
  have placed : (rows.map fun row => row.qIdx.map fun index => tokens.getD index 0)[index]? =
      some (passRow.qIdx.map fun index => tokens.getD index 0) := by
    rw [getElem?_map,found,map_some]
  have rowCut := row_flatten _ placed
  rw [map_map,← flatMap_def,← map_flatMap] at rowCut
  simp only [comp_def,length_map] at rowCut
  exact rowCut

theorem missRowMap_items (loaded : AllLoaded args batch) (laid : Laid batch) :
    (((batchPlans true 0 0 batch).flatMap ReqPlan.steps).foldl
      (rowWalkStep ⟨batchPlans true 0 0 batch,batchRecords 0 batch⟩ (batchPassRows 0 0 batch)) ⟨0,0,.empty⟩).missRowMap.items =
      batchPairs 0 0 0 0 batch := by
  have ahead := Ahead.all ⟨batchPlans true 0 0 batch,batchRecords 0 batch⟩ (batchPassRows 0 0 batch)
  rw [rowWalk_batch loaded 0 0 ahead,items_setAll _ _ (by
    rw [items_empty,nil_append,batchPairs_slots]
    exact cachedSlots_nodup loaded laid),items_empty,nil_append]

theorem forwardExtendPicRecompute3Pass_writes (loaded : AllLoaded args batch) (laid : Laid batch)
    (cache : SegLaCache S) :
    ∃ rows, passRows ⟨batchPlans true 0 0 batch,batchRecords 0 batch⟩ = some rows ∧
      WritesBack decay rope inputs batch cache
        (forwardExtendPicRecompute3Pass decay rope ⟨batchPlans true 0 0 batch,batchRecords 0 batch⟩ rows (packed inputs batch)
          (batch.map mambaCacheIndex) cache).1 := by
  have executed := passRows_eq loaded 0 0 [] [] (show batchRecords 0 batch = _ by simp) ⟨[],[]⟩
  rw [length_nil,nil_append,nil_append] at executed
  refine ⟨_,executed,?_⟩
  have ahead := Ahead.all ⟨batchPlans true 0 0 batch,batchRecords 0 batch⟩ (batchPassRows 0 0 batch)
  have slots := batchPairs_slots 0 0 0 0 batch
  by_cases none : batchPassRows 0 0 batch = []
  · have noPairs : batchPairs 0 0 0 0 batch = [] := by
      refine eq_nil_iff_forall_not_mem.mpr fun pair listed => ?_
      obtain ⟨record,-,-,-,passRow,found,-⟩ := mem_batchPairs loaded 0 0 ahead listed
      rw [none] at found
      cases found
    rw [noPairs] at slots
    simp only [forwardExtendPicRecompute3Pass,none,if_true]
    exact ⟨[],⟨slots,nofun⟩,rfl,fun slot _ => rfl⟩
  · simp only [forwardExtendPicRecompute3Pass,none,if_false]
    rw [missRowMap_items loaded laid]
    refine ⟨_,⟨?_,?_⟩,rfl,fun slot other => exec_frame decay rope _ _ _ _ _ _ other⟩
    · rw [map_map]
      exact slots
    · intro write listed
      obtain ⟨⟨slot,index,id⟩,paired,rfl⟩ := mem_map.mp listed
      obtain ⟨record,inside,found,cached,passRow,placed,qIdx⟩ := mem_batchPairs loaded 0 0 ahead paired
      obtain ⟨req,member,recordOf⟩ := batchRecords_cut inputs loaded [] inside
      rw [nil_append] at recordOf
      have width : record.qEnd - record.qStart = record.seg.2 - record.seg.1 := by
        rw [recordOf.eq]
        simp [Lightning.recordOf]
      refine ⟨req,member,record,recordOf,cached,?_⟩
      have cut := recordOf.cut
      rw [width] at cut
      have rowCut := packed_row _ (packed inputs batch) placed
      rw [qIdx,range_getD (by rw [cut]; simp),cut] at rowCut
      simp only [found,map_some,getD_some,rowCut]
      rfl

/-- The SegLA forward pass of any loaded batch runs and writes back every miss but the last segment of each request. -/
theorem forwardExtendPic_writes (maxSegments : Nat) (loaded : AllLoaded args batch) (laid : Laid batch)
    (cache : SegLaCache S) :
    ∃ after, forwardExtendPic args decay rope maxSegments inputs batch cache = some after ∧
      WritesBack decay rope inputs batch cache after.1 := by
  simp only [forwardExtendPic,picGetOrBuildPlan_eq loaded inputs,bind_some]
  cases recompute : args.recompute with
  | false => exact forwardExtendPicV2_writes decay rope inputs args.isTransition maxSegments loaded false cache
  | true =>
    obtain ⟨rows,built,written⟩ := forwardExtendPicRecompute3Pass_writes decay rope inputs loaded laid cache
    simp only [if_true,built,map_some]
    exact ⟨_,rfl,written⟩

theorem forwardExtendPic_persists (maxSegments : Nat) (loaded : AllLoaded args batch) (laid : Laid batch)
    (cache : SegLaCache S) :
    ∃ after, forwardExtendPic args decay rope maxSegments inputs batch cache = some after ∧
      Persists decay rope inputs batch cache.ssmStates after.1.ssmStates := by
  obtain ⟨after,executed,written⟩ := forwardExtendPic_writes decay rope inputs maxSegments loaded laid cache
  exact ⟨after,executed,written.persists decay rope inputs loaded laid⟩
end Persist

end Hypic.Lightning
