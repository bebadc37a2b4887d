import Hypic.CausalPlan
import Hypic.Placement

/-! Phase C of the rope modes' full attention: every query row of a batch attends across segments over private slots.
    The rows of a request are cut into runs of consecutive positions inside one segment, and each run is a group of the
    plan over the earlier segments' slots and the front of its own. -/

namespace Hypic.PhaseC
open Policy Allocator Request Alloc Ragged CausalPlan List
universe u
variable {Hash : Type u} [DecidableEq Hash]
variable {pos : Nat}

section Meta

/-- One request of `pic_rope_meta`: ranges with their private and public slots, the last segment and the seams. -/
structure RopeMeta where
  localMiss : List (Seg × List Slot × List Slot)
  localHit : List (Seg × List Slot × List Slot)
  globalInfo : Option (Seg × List Slot)
  seam : Option (Dict Seg (List Nat))

/-- One segment of the loop. A local miss without slots is a `KeyError`, one without public slots fails an assertion. -/
def RopeMeta.place (req : Req Hash) (info : RopeMeta) (seg : Seg) : Option RopeMeta :=
  if some seg = req.globalSeg then
    match req.picMissSegmentSlots.get? seg with
    | some miss => some { info with globalInfo := some (seg,miss.kv) }
    | none => some info
  else if seg ∈ req.picMissSegments then
    (req.picMissSegmentSlots.get? seg).bind fun miss =>
      miss.pub.map fun pub => { info with localMiss := info.localMiss ++ [(seg,miss.kv,pub)] }
  else if seg ∈ req.picHitSegments.map Prod.fst then
    match req.picRopeHitPrivateSlots.get? seg with
    | some slots => some { info with localHit := info.localHit ++ [(seg,slots.1,slots.2)] }
    | none => some info
  else some info

def ropeMeta (args : ServerArgs Hash) (req : Req Hash) : Option RopeMeta :=
  req.picSegments.foldlM (RopeMeta.place req) ⟨[],[],none,if args.recompute then some req.picHitSeamPositions else none⟩
end Meta

section Rows

def span (seg : Seg) : List Nat := List.range' seg.1 (seg.2 - seg.1)

/-- Seam positions with their range and their place in it. -/
def seamItems (seam : Dict Seg (List Nat)) : List (Nat × Seg × Nat) :=
  seam.items.flatMap fun item => item.2.zipIdx.map fun sink => (sink.1,item.1,sink.2)

namespace RopeMeta
variable (isRecompute : Bool) (info : RopeMeta)

def localPositions : List Nat := info.localMiss.flatMap fun item => span item.1
def globalPositions : List Nat := (info.globalInfo.map fun item => span item.1).getD []
def seams : List (Nat × Seg × Nat) := if isRecompute then (info.seam.map seamItems).getD [] else []

/-- Positions of the request's query rows, sorted. -/
def entries : List Nat :=
  (info.localPositions ++ info.globalPositions ++ (info.seams isRecompute).map Prod.fst).insertionSort (· ≤ ·)
end RopeMeta

/-- The walk that numbers the query rows. -/
structure QRows where
  perReqAbsToQ : List (Dict Nat Nat)
  qToReqAbs : Dict Nat (Nat × Nat)
  cursor : Nat

def QRows.add (isRecompute : Bool) (rows : QRows) (item : RopeMeta × Nat) : QRows :=
  let listed := (item.1.entries isRecompute).zipIdx rows.cursor
  ⟨rows.perReqAbsToQ ++ [Dict.empty.setAll listed],rows.qToReqAbs.setAll (listed.map fun row => (row.2,item.2,row.1)),
    rows.cursor + listed.length⟩

def qRows (isRecompute : Bool) (infos : List RopeMeta) : QRows := infos.zipIdx.foldl (QRows.add isRecompute) ⟨[],.empty,0⟩

/-- Row numbers of local misses and of last segments, and the seams' rows with request, range and place. -/
structure QLists where
  localQIndices : List Nat
  globalQIndices : List Nat
  hitSeamQInfo : List (Nat × Nat × Seg × Nat)

/-- One request's share; a position without a row is a `KeyError`. -/
def QLists.ofReq (isRecompute : Bool) (info : RopeMeta) (reqIdx : Nat) (absToQ : Dict Nat Nat) : Option QLists :=
  (info.localPositions.mapM absToQ.get?).bind fun localQ =>
    (info.globalPositions.mapM absToQ.get?).bind fun globalQ =>
      ((info.seams isRecompute).mapM fun seam => (absToQ.get? seam.1).map fun query => (query,reqIdx,seam.2)).map fun seamQ =>
        ⟨localQ,globalQ,seamQ⟩

def qLists (isRecompute : Bool) (infos : List RopeMeta) (rows : QRows) : Option QLists :=
  ((infos.zipIdx.zip rows.perReqAbsToQ).mapM fun item => QLists.ofReq isRecompute item.1.1 item.1.2 item.2).map fun parts =>
    ⟨parts.flatMap QLists.localQIndices,parts.flatMap QLists.globalQIndices,parts.flatMap QLists.hitSeamQInfo⟩
end Rows

section Build

/-- Seam rows by request, taken off `hit_seam_q_info` in order; a list that is too short is an `IndexError`. -/
def hitSeamByReq : List RopeMeta → List (Nat × Nat × Seg × Nat) → Option (List (List (Nat × Nat × Seg × Nat)))
  | [], _ => some []
  | info::rest, seamQ =>
    match info.seam with
    | none => (hitSeamByReq rest seamQ).map fun later => []::later
    | some seam =>
      let items := seamItems seam
      if seamQ.length < items.length then none
      else (hitSeamByReq rest (seamQ.drop items.length)).map fun later =>
        ((seamQ.zip items).map fun pair => (pair.1.1,pair.2))::later

/-- A row of a local miss that has no entry in the table is a `RuntimeError`. -/
def missQRows (rows : QRows) (localQ : List Nat) : Option (List (Nat × Nat × Nat)) :=
  localQ.mapM fun query => (rows.qToReqAbs.get? query).map fun place => (place.1,place.2,query)

def missQForReq (missQ : List (Nat × Nat × Nat)) (reqIdx : Nat) : List (Nat × Nat) :=
  (missQ.filter fun row => row.1 = reqIdx).map Prod.snd

namespace RopeMeta
variable (info : RopeMeta)

def allSegsInOrder : List (Seg × List Slot) :=
  ((info.localMiss ++ info.localHit).map fun item => (item.1,item.2.1)).insertionSort fun left right => left.1.1 ≤ right.1.1

/-- `priv_bounds` and `priv_tensors`. -/
def privTable : List (Seg × List Slot) := info.allSegsInOrder ++ info.globalInfo.toList
end RopeMeta

/-- The rows that continue a run of consecutive positions below `stop`, and the others. -/
def takeRun (stop : Nat) : Nat → List (Nat × Nat) → List (Nat × Nat) × List (Nat × Nat)
  | _, [] => ([],[])
  | expected, row::rest =>
    if row.1 ≠ expected ∨ stop ≤ row.1 then ([],row::rest)
    else (row::(takeRun stop (expected + 1) rest).1,(takeRun stop (expected + 1) rest).2)

theorem takeRun_append (stop expected : Nat) (rows : List (Nat × Nat)) :
    (takeRun stop expected rows).1 ++ (takeRun stop expected rows).2 = rows := by
  induction rows generalizing expected with
  | nil => rfl
  | cons row rest ih =>
    unfold takeRun
    split
    · rfl
    · rw [cons_append,ih]

theorem takeRun_length (stop expected : Nat) (rows : List (Nat × Nat)) : (takeRun stop expected rows).2.length ≤ rows.length := by
  have parts := congrArg List.length (takeRun_append stop expected rows)
  rw [length_append] at parts
  omega

/-- One group of the plan. -/
structure PhaseRun where
  qis : List Nat
  kvIndices : List Slot
  kvPositions : List Nat
  totalKv : Nat

/-- A run in the segment at place `index` of the table, from position `first` on. -/
def phaseRun (table : List (Seg × List Slot)) (index first : Nat) (qis : List Nat) : PhaseRun :=
  let seg := (table.map Prod.fst).getD index (0,0)
  let privs := table.map Prod.snd
  let cumLen := (cuSeqlens (privs.map List.length)).getD index 0
  let ownPrefixLen := first + (qis.length - 1) - seg.1 + 1
  { qis
    kvIndices := (if 0 < cumLen then if 1 < index then (privs.take index).flatten else privs.getD 0 [] else []) ++
      (privs.getD index []).take ownPrefixLen
    kvPositions := (if 0 < cumLen then (table.take index).flatMap fun item => span item.1 else []) ++
      List.range' seg.1 ownPrefixLen
    totalKv := cumLen + ownPrefixLen }

/-- The walk over a request's rows; a position in no segment is a `RuntimeError`. -/
def emitRuns (table : List (Seg × List Slot)) : List (Nat × Nat) → Option (List PhaseRun)
  | [] => some []
  | row::rest =>
    match table.findIdx? fun item => item.1.1 ≤ row.1 ∧ row.1 < item.1.2 with
    | none => none
    | some index =>
      let taken := takeRun ((table.map Prod.fst).getD index (0,0)).2 (row.1 + 1) rest
      (emitRuns table taken.2).map fun later => phaseRun table index row.1 (row.2::taken.1.map Prod.snd)::later
termination_by rows => rows.length
decreasing_by exact Nat.lt_succ_of_le (takeRun_length ..)

/-- One request's part of the cache. -/
structure PhaseReq where
  runs : List PhaseRun
  kvDstSlots : List Slot
  kvSrcQis : List Nat

/-- Seam rows write to their offset in the hit's private copy. -/
def seamWrites (info : RopeMeta) (seams : List (Nat × Nat × Seg × Nat)) : List (List Slot × Nat) :=
  let hitPriv : Dict Seg (List Slot) := Dict.empty.setAll (info.localHit.map fun item => (item.1,item.2.1))
  seams.filterMap fun row => (hitPriv.get? row.2.2.1).map fun priv => ((priv.drop (row.2.1 - row.2.2.1.1)).take 1,row.1)

/-- One request; the rows of its last segment are the next of `global_q_indices`. -/
def phaseCReq (info : RopeMeta) (seams : List (Nat × Nat × Seg × Nat)) (missQ : List (Nat × Nat)) (globalQ : List Nat) :
    Option (PhaseReq × List Nat) :=
  if info.globalInfo.isNone ∧ seams.isEmpty ∧ missQ.isEmpty then some (⟨[],[],[]⟩,globalQ)
  else
    let globalLen := (info.globalInfo.map fun item => item.1.2 - item.1.1).getD 0
    let gqSlice := globalQ.take globalLen
    let globalRows := (info.globalInfo.map fun item => gqSlice.zipIdx.map fun row => (item.1.1 + row.2,row.1)).getD []
    let allQs := (globalRows ++ seams.map (fun row => (row.2.1,row.1)) ++ missQ).insertionSort fun left right => left.1 ≤ right.1
    (emitRuns info.privTable allQs).map fun runs =>
      (⟨runs,(info.globalInfo.map Prod.snd).getD [] ++ (seamWrites info seams).flatMap Prod.fst,
        gqSlice ++ (seamWrites info seams).map Prod.snd⟩,globalQ.drop globalLen)

def phaseCReqs (missQ : List (Nat × Nat × Nat)) :
    List ((RopeMeta × Nat) × List (Nat × Nat × Seg × Nat)) → List Nat → Option (List PhaseReq)
  | [], _ => some []
  | ((info,reqIdx),seams)::rest, globalQ =>
    (phaseCReq info seams (missQForReq missQ reqIdx) globalQ).bind fun result =>
      (phaseCReqs missQ rest result.2).map fun later => result.1::later

/-- The layer-invariant data of phase C. -/
structure PhaseCCache where
  qPackedSrc : List Nat
  kvDstSlots : List Slot
  kvSrcQis : List Nat
  plan : Plan Slot
  kvPositions : List Nat
  kvLastPageLen : List Nat
  scatterIdx : List Nat

def PhaseCCache.ofReqs (parts : List PhaseReq) : Option PhaseCCache :=
  let runs := parts.flatMap PhaseReq.runs
  let qPackedSrc := runs.flatMap PhaseRun.qis
  if qPackedSrc.isEmpty then none
  else some
    { qPackedSrc
      kvDstSlots := parts.flatMap PhaseReq.kvDstSlots
      kvSrcQis := parts.flatMap PhaseReq.kvSrcQis
      plan := ⟨cuSeqlens (runs.map fun run => run.qis.length),cuSeqlens (runs.map PhaseRun.totalKv),runs.flatMap PhaseRun.kvIndices⟩
      kvPositions := runs.flatMap PhaseRun.kvPositions
      kvLastPageLen := List.replicate runs.length 1
      scatterIdx := qPackedSrc }

/-- `_build_pic_rope_phase_c_cache` for other than Bailing models. -/
def buildPicRopePhaseCCache (infos : List RopeMeta) (rows : QRows) (lists : QLists) : Option (Option PhaseCCache) :=
  (if lists.hitSeamQInfo.isEmpty then some (infos.map fun _ => []) else hitSeamByReq infos lists.hitSeamQInfo).bind fun seams =>
    (missQRows rows lists.localQIndices).bind fun missQ =>
      (phaseCReqs missQ (infos.zipIdx.zip seams) lists.globalQIndices).map PhaseCCache.ofReqs

/-- The part of the forward pass that prepares phase C, for `numRows` query rows. No cache means that there is nothing to do. -/
def forwardExtendPicFullAttnRope (isRecompute : Bool) (infos : List RopeMeta) (numRows : Nat) : Option (Option PhaseCCache) :=
  let rows := qRows isRecompute infos
  if rows.cursor ≠ numRows then none
  else (qLists isRecompute infos rows).bind fun lists =>
    if lists.globalQIndices.isEmpty ∧ lists.hitSeamQInfo.isEmpty ∧ lists.localQIndices.isEmpty then some none
    else buildPicRopePhaseCCache infos rows lists
end Build

section Spec
namespace RopeMeta
variable (isRecompute : Bool) (info : RopeMeta)

/-- All ranges of a request with their private slots. -/
def ranges : List (Seg × List Slot) :=
  ((info.localMiss ++ info.localHit).map fun item => (item.1,item.2.1)) ++ info.globalInfo.toList

theorem ranges_segs : info.ranges.map Prod.fst =
    info.localMiss.map Prod.fst ++ info.localHit.map Prod.fst ++ info.globalInfo.toList.map Prod.fst := by
  simp [ranges,Function.comp_def]

/-- The private slot of a position. -/
def privateSlot (pos : Nat) : Option Slot :=
  (info.ranges.find? fun item => item.1.1 ≤ pos ∧ pos < item.1.2).bind fun item => item.2[pos - item.1.1]?

/-- The ranges, the last segment's behind the others, are a partition of the prompt with a private slot for each token.
    Seam tokens are different tokens of local hits. -/
structure Partition (stop : Nat) : Prop where
  consecutive : Consecutive 0 (info.privTable.map Prod.fst) stop
  slots : ∀ item ∈ info.ranges, item.2.length = item.1.2 - item.1.1
  seams : ∀ seam ∈ info.seam, ∀ seg positions, seam.get? seg = some positions →
    seg ∈ info.localHit.map Prod.fst ∧ positions.Nodup ∧ ∀ pos ∈ positions, seg.1 ≤ pos ∧ pos < seg.2
end RopeMeta

/-- The batch's query rows: request and position. -/
def queryRows (isRecompute : Bool) (infos : List RopeMeta) : List (RopeMeta × Nat) :=
  infos.flatMap fun info => (info.entries isRecompute).map fun pos => (info,pos)

/-- What phase C is for: every row is planned once and sees the private slots up to its own position, and the rows of last
    segments and seams are stored at their own position. -/
structure Causal (isRecompute : Bool) (infos : List RopeMeta) (cache : PhaseCCache) : Prop where
  covers : cache.qPackedSrc.Perm (List.range (queryRows isRecompute infos).length)
  scatter : cache.scatterIdx = cache.qPackedSrc
  visible : ∀ (index query : Nat) (info : RopeMeta) (pos : Nat), cache.qPackedSrc[index]? = some query →
    (queryRows isRecompute infos)[query]? = some (info,pos) →
      (cache.plan.visible index).map some = (List.range (pos + 1)).map info.privateSlot
  paired : cache.kvSrcQis.length = cache.kvDstSlots.length
  stored : ∀ (query : Nat) (info : RopeMeta) (pos : Nat), (queryRows isRecompute infos)[query]? = some (info,pos) →
    pos ∈ info.globalPositions ++ (info.seams isRecompute).map Prod.fst →
      ∃ slot, info.privateSlot pos = some slot ∧ (query,slot) ∈ cache.kvSrcQis.zip cache.kvDstSlots
  own : ∀ (query : Nat) (slot : Slot), (query,slot) ∈ cache.kvSrcQis.zip cache.kvDstSlots →
    ∃ (info : RopeMeta) (pos : Nat), (queryRows isRecompute infos)[query]? = some (info,pos) ∧ info.privateSlot pos = some slot
end Spec

section Table
variable {table : List (Seg × List Slot)} {start stop index : Nat} {seg : Seg} {priv : List Slot}

/-- The slots of a table of ranges, one range after another. -/
def wholeRow (table : List (Seg × List Slot)) : List Slot := (table.map Prod.snd).flatten

theorem slots_before (consecutive : Consecutive start (table.map Prod.fst) stop)
    (slots : ∀ item ∈ table, item.2.length = item.1.2 - item.1.1) (found : table[index]? = some (seg,priv)) :
    start + ((table.map Prod.snd).take index).flatten.length = seg.1 := by
  induction table generalizing start index with
  | nil => cases found
  | cons item rest ih =>
    obtain ⟨first,positive,later⟩ := consecutive
    cases index with
    | zero =>
      obtain rfl := Option.some.inj found
      simpa using first.symm
    | succ index =>
      have here := slots item mem_cons_self
      have tail := ih later (forall_mem_cons.mp slots).2 found
      simp only [map_cons,take_succ_cons,flatten_cons,length_append]
      omega

theorem wholeRow_split (found : table[index]? = some (seg,priv)) :
    wholeRow table = ((table.map Prod.snd).take index).flatten ++ (priv ++ ((table.map Prod.snd).drop (index + 1)).flatten) := by
  obtain ⟨bound,here⟩ := List.getElem?_eq_some_iff.mp found
  have inside : index < (table.map Prod.snd).length := by simpa using bound
  have entry : (table.map Prod.snd)[index] = priv := by rw [getElem_map,here]
  conv_lhs => rw [wholeRow,← take_append_drop index (table.map Prod.snd),drop_eq_getElem_cons inside]
  rw [flatten_append,flatten_cons,entry]

variable (consecutive : Consecutive 0 (table.map Prod.fst) stop) (slots : ∀ item ∈ table, item.2.length = item.1.2 - item.1.1)
include consecutive slots

theorem wholeRow_get (found : table[index]? = some (seg,priv)) (lower : seg.1 ≤ pos) (upper : pos < seg.2) :
    (wholeRow table)[pos]? = priv[pos - seg.1]? := by
  have before := slots_before consecutive slots found
  have length := slots (seg,priv) (mem_of_getElem? found)
  simp only [Nat.zero_add] at before length
  rw [wholeRow_split found,getElem?_append_right (by omega),before,getElem?_append_left (by omega)]

theorem wholeRow_take (found : table[index]? = some (seg,priv)) {count : Nat} (short : count ≤ seg.2 - seg.1) :
    ((table.map Prod.snd).take index).flatten ++ priv.take count = (wholeRow table).take (seg.1 + count) := by
  have before := slots_before consecutive slots found
  have length := slots (seg,priv) (mem_of_getElem? found)
  simp only [Nat.zero_add] at before length
  rw [wholeRow_split found,← before,take_length_add_append,take_append_of_le_length (by omega)]

theorem wholeRow_length : (wholeRow table).length = stop := by
  have count {start : Nat} {table : List (Seg × List Slot)} (consecutive : Consecutive start (table.map Prod.fst) stop)
      (slots : ∀ item ∈ table, item.2.length = item.1.2 - item.1.1) : start + (wholeRow table).length = stop := by
    induction table generalizing start with
    | nil => simpa [wholeRow,Consecutive] using consecutive
    | cons item rest ih =>
      obtain ⟨first,positive,later⟩ := consecutive
      have here := slots item mem_cons_self
      have tail := ih later (forall_mem_cons.mp slots).2
      simp only [wholeRow,map_cons,flatten_cons,length_append] at tail ⊢
      omega
  simpa using count consecutive slots

theorem phaseRun_sees (found : table[index]? = some (seg,priv)) {first : Nat} {qis : List Nat} (nonempty : qis ≠ [])
    (lower : seg.1 ≤ first) (upper : first + qis.length ≤ seg.2) :
    (phaseRun table index first qis).kvIndices = (wholeRow table).take (first + qis.length) ∧
      (phaseRun table index first qis).totalKv = first + qis.length := by
  obtain ⟨bound,here⟩ := List.getElem?_eq_some_iff.mp found
  have positive := length_pos_iff.mpr nonempty
  have before := slots_before consecutive slots found
  have segAt : (table.map Prod.fst).getD index (0,0) = seg := by simp [List.getD,found]
  have privAt : (table.map Prod.snd).getD index [] = priv := by simp [List.getD,found]
  have cumLen : (cuSeqlens ((table.map Prod.snd).map List.length)).getD index 0 = seg.1 := by
    rw [cuSeqlens_getD (by simpa using Nat.le_of_lt bound),← before,length_flatten,map_take,Nat.zero_add]
  have prefixLen : first + (qis.length - 1) - seg.1 + 1 = first + qis.length - seg.1 := by omega
  have earlier : (if 0 < seg.1 then if 1 < index then ((table.map Prod.snd).take index).flatten else (table.map Prod.snd).getD 0 []
      else []) = ((table.map Prod.snd).take index).flatten := by
    by_cases nothing : 0 < seg.1
    · rw [if_pos nothing]
      by_cases several : 1 < index
      · rw [if_pos several]
      · rw [if_neg several]
        -- something comes before this range, so it is the second
        obtain rfl : index = 1 := by
          rcases Nat.eq_zero_or_pos index with rfl | one
          · simp at before
            omega
          · omega
        cases table with
        | nil => cases found
        | cons item rest => simp
    · rw [if_neg nothing]
      refine (length_eq_zero_iff.mp ?_).symm
      omega
  simp only [phaseRun,segAt,privAt,cumLen,prefixLen,earlier]
  refine ⟨?_,by omega⟩
  rw [wholeRow_take consecutive slots found (by omega)]
  exact congrArg (fun count => (wholeRow table).take count) (by omega)
end Table

section Walk

theorem takeRun_positions (stop expected : Nat) (rows : List (Nat × Nat)) :
    (takeRun stop expected rows).1.map Prod.fst = List.range' expected (takeRun stop expected rows).1.length ∧
      ((takeRun stop expected rows).1 ≠ [] → expected + (takeRun stop expected rows).1.length ≤ stop) := by
  induction rows generalizing expected with
  | nil => exact ⟨rfl,fun some => absurd rfl some⟩
  | cons row rest ih =>
    unfold takeRun
    split
    · exact ⟨rfl,fun some => absurd rfl some⟩
    · rename_i continues
      simp only [not_or,not_not,Nat.not_le] at continues
      obtain ⟨here,below⟩ := continues
      obtain ⟨positions,bound⟩ := ih (expected + 1)
      refine ⟨?_,fun _ => ?_⟩
      · rw [map_cons,length_cons,List.range'_succ,positions,here]
      · by_cases last : (takeRun stop (expected + 1) rest).1 = []
        · simp only [last,length_cons,length_nil]
          omega
        · have := bound last
          simp only [length_cons]
          omega

theorem rowsOf_run {slots : List Slot} {first count : Nat} (enough : first + count ≤ slots.length) :
    rowsOf [(count,slots.take (first + count))] = (List.range' first count).map fun pos => slots.take (pos + 1) := by
  rw [rowsOf,flatMap_singleton,List.range'_eq_map_range,map_map]
  refine map_congr_left fun query inside => ?_
  rw [mem_range] at inside
  simp only [comp_apply,length_take,take_take]
  exact congrArg (fun count => slots.take count) (by omega)

theorem rowsOf_append {α : Type*} (left right : List (Nat × List α)) : rowsOf (left ++ right) = rowsOf left ++ rowsOf right :=
  flatMap_append ..

/-- What a list of runs shows to its rows. -/
def groupsOf (runs : List PhaseRun) : List (Nat × List Slot) := runs.map fun run => (run.qis.length,run.kvIndices)

theorem emitRuns_spec {table : List (Seg × List Slot)} {stop : Nat} (consecutive : Consecutive 0 (table.map Prod.fst) stop)
    (slots : ∀ item ∈ table, item.2.length = item.1.2 - item.1.1) (rows : List (Nat × Nat)) (inside : ∀ row ∈ rows, row.1 < stop) :
    ∃ runs, emitRuns table rows = some runs ∧ runs.flatMap PhaseRun.qis = rows.map Prod.snd ∧
      rowsOf (groupsOf runs) = (rows.map fun row => (wholeRow table).take (row.1 + 1)) ∧
      ∀ run ∈ runs, run.totalKv = run.kvIndices.length := by
  match rows with
  | [] => exact ⟨[],by rw [emitRuns],rfl,rfl,nofun⟩
  | row::rest =>
    obtain ⟨seg,member,lower,upper⟩ := consecutive.covers (Nat.zero_le row.1) (inside row mem_cons_self)
    obtain ⟨item,listed,rfl⟩ := mem_map.mp member
    obtain ⟨index,located⟩ : ∃ index, (table.findIdx? fun item => item.1.1 ≤ row.1 ∧ row.1 < item.1.2) = some index := by
      refine isSome_iff_exists.mp (findIdx?_isSome.trans (any_eq_true.mpr ⟨item,listed,?_⟩))
      simpa using ⟨lower,upper⟩
    obtain ⟨bound,holds,-⟩ := findIdx?_eq_some_iff_getElem.mp located
    have found : table[index]? = some (table[index].1,table[index].2) := getElem?_eq_getElem bound
    simp only [decide_eq_true_eq] at holds
    have segAt : (table.map Prod.fst).getD index (0,0) = table[index].1 := by simp [List.getD,found]
    have order := takeRun_append table[index].1.2 (row.1 + 1) rest
    obtain ⟨positions,below⟩ := takeRun_positions table[index].1.2 (row.1 + 1) rest
    generalize taken : takeRun table[index].1.2 (row.1 + 1) rest = cut at order positions below
    have shorter : cut.2.length < (row::rest).length := taken ▸ Nat.lt_succ_of_le (takeRun_length ..)
    obtain ⟨later,executed,queries,seen,totals⟩ := emitRuns_spec consecutive slots cut.2 fun other member =>
      inside other (mem_cons_of_mem _ (order ▸ mem_append_right _ member))
    -- the run itself
    have fits : row.1 + (row.2::cut.1.map Prod.snd).length ≤ table[index].1.2 := by
      by_cases alone : cut.1 = []
      · simp only [alone,map_nil,length_cons,length_nil]
        omega
      · have := below alone
        simp only [length_cons,length_map]
        omega
    obtain ⟨kv,total⟩ := phaseRun_sees consecutive slots found (cons_ne_nil _ _) holds.1 fits
    have length := wholeRow_length consecutive slots
    have bounds := (consecutive.mem_bounds (mem_map_of_mem (f := Prod.fst) (mem_of_getElem? found))).2.2
    have reach : row.1 + (row.2::cut.1.map Prod.snd).length ≤ (wholeRow table).length := by
      rw [length]
      exact Nat.le_trans fits bounds
    refine ⟨phaseRun table index row.1 (row.2::cut.1.map Prod.snd)::later,?_,?_,?_,?_⟩
    · rw [emitRuns,located]
      simp only [segAt,taken,executed,map_some]
    · rw [flatMap_cons,queries,← order,map_cons,map_append]
      rfl
    · have first := rowsOf_run reach
      rw [groupsOf,map_cons,← singleton_append,rowsOf_append,kv]
      refine (congrArg₂ (· ++ ·) first seen).trans ?_
      rw [← order,map_cons,map_append,length_cons,length_map,List.range'_succ,← positions,map_cons,map_map]
      rfl
    · refine forall_mem_cons.mpr ⟨?_,totals⟩
      rw [total,kv,length_take,Nat.min_eq_left reach]
termination_by rows.length
decreasing_by exact shorter
end Walk

section Request
variable {isRecompute : Bool} {info : RopeMeta} {stop : Nat}

theorem RopeMeta.privTable_perm (info : RopeMeta) : info.privTable.Perm info.ranges :=
  (perm_insertionSort ..).append_right _

namespace RopeMeta.Partition
variable (partition : info.Partition stop)
include partition

theorem tableSlots : ∀ item ∈ info.privTable, item.2.length = item.1.2 - item.1.1 :=
  fun item member => partition.slots item (info.privTable_perm.mem_iff.mp member)

theorem privateSlot_eq (bound : pos < stop) : info.privateSlot pos = (wholeRow info.privTable)[pos]? := by
  obtain ⟨seg,member,inside⟩ := partition.consecutive.covers (Nat.zero_le pos) bound
  obtain ⟨item,listed,rfl⟩ := mem_map.mp member
  obtain ⟨found,looked⟩ : ∃ found, (info.ranges.find? fun item => item.1.1 ≤ pos ∧ pos < item.1.2) = some found := by
    refine isSome_iff_exists.mp (find?_isSome.mpr ⟨item,info.privTable_perm.mem_iff.mp listed,?_⟩)
    simpa using inside
  have holds := find?_some looked
  simp only [decide_eq_true_eq] at holds
  obtain ⟨index,place⟩ := getElem?_of_mem (info.privTable_perm.mem_iff.mpr (mem_of_find?_eq_some looked))
  rw [RopeMeta.privateSlot,looked,wholeRow_get partition.consecutive partition.tableSlots place holds.1 holds.2]
  rfl

theorem front_eq (bound : pos < stop) :
    ((wholeRow info.privTable).take (pos + 1)).map some = (List.range (pos + 1)).map info.privateSlot := by
  have length := wholeRow_length partition.consecutive partition.tableSlots
  refine ext_getElem (by simp only [length_map,length_take,length_range]; omega) fun index _ inside => ?_
  simp only [length_map,length_range] at inside
  simp only [getElem_map,getElem_take,getElem_range]
  rw [partition.privateSlot_eq (by omega),getElem?_eq_getElem (by omega)]

theorem nodup : (info.ranges.map Prod.fst).Nodup := (info.privTable_perm.map Prod.fst).nodup_iff.mp partition.consecutive.nodup

theorem apart {left right : Seg} (leftMember : left ∈ info.ranges.map Prod.fst) (rightMember : right ∈ info.ranges.map Prod.fst)
    (inLeft : left.1 ≤ pos ∧ pos < left.2) (inRight : right.1 ≤ pos ∧ pos < right.2) : left = right :=
  have perm := info.privTable_perm.map Prod.fst
  partition.consecutive.unique (perm.mem_iff.mpr leftMember) (perm.mem_iff.mpr rightMember) inLeft inRight
end RopeMeta.Partition

/-- The query rows of a request, range by range. -/
def pieces (isRecompute : Bool) (info : RopeMeta) : List (Seg × List Nat) :=
  (info.localMiss.map fun item => (item.1,span item.1)) ++ (info.globalInfo.toList.map fun item => (item.1,span item.1)) ++
    if isRecompute then (info.seam.map Dict.items).getD [] else []

theorem pieces_positions (isRecompute : Bool) (info : RopeMeta) : (pieces isRecompute info).flatMap Prod.snd =
    info.localPositions ++ info.globalPositions ++ (info.seams isRecompute).map Prod.fst := by
  have seams : (if isRecompute then (info.seam.map Dict.items).getD [] else []).flatMap Prod.snd =
      (info.seams isRecompute).map Prod.fst := by
    unfold RopeMeta.seams
    split
    · cases info.seam with
      | none => rfl
      | some seam =>
        simp only [map_some,getD_some,seamItems,map_flatMap,map_map,comp_def]
        exact flatMap_congr fun item _ => by simp [zipIdx_map_fst]
    · rfl
  rw [pieces,flatMap_append,flatMap_append,seams,RopeMeta.localPositions,RopeMeta.globalPositions]
  cases info.globalInfo <;> simp [flatMap_map]

theorem mem_span {seg : Seg} : pos ∈ span seg ↔ seg.1 ≤ pos ∧ pos < seg.2 := by
  rw [span,mem_range'_1]
  omega

namespace RopeMeta.Partition
variable (partition : info.Partition stop)
include partition

theorem pieces_inside {piece : Seg × List Nat} (member : piece ∈ pieces isRecompute info) :
    piece.1 ∈ info.ranges.map Prod.fst ∧ piece.2.Nodup ∧ ∀ pos ∈ piece.2, piece.1.1 ≤ pos ∧ pos < piece.1.2 := by
  simp only [pieces,mem_append] at member
  rcases member with (missed | last) | seam
  · obtain ⟨item,listed,rfl⟩ := mem_map.mp missed
    refine ⟨?_,nodup_range',fun pos => mem_span.mp⟩
    simp only [RopeMeta.ranges,map_append,map_map,mem_append,mem_map]
    exact .inl (.inl ⟨item,listed,rfl⟩)
  · obtain ⟨item,listed,rfl⟩ := mem_map.mp last
    refine ⟨?_,nodup_range',fun pos => mem_span.mp⟩
    simp only [RopeMeta.ranges,map_append,mem_append]
    exact .inr (mem_map_of_mem listed)
  · split at seam
    · cases given : info.seam with
      | none => simp [given] at seam
      | some seams =>
        rw [given] at seam
        obtain ⟨hit,once,inside⟩ := partition.seams seams given piece.1 piece.2 ((Dict.get?_eq_some ..).mpr seam)
        refine ⟨?_,once,inside⟩
        simp only [RopeMeta.ranges,map_append,map_map,mem_append]
        exact .inl (.inr hit)
    · cases seam

theorem pieces_keys : ((pieces isRecompute info).map Prod.fst).Nodup := by
  have distinct := partition.nodup
  have seams : ∀ seg ∈ (if isRecompute then (info.seam.map Dict.items).getD [] else []).map Prod.fst, seg ∈ info.localHit.map Prod.fst := by
    intro seg member
    obtain ⟨piece,listed,rfl⟩ := mem_map.mp member
    split at listed
    · cases given : info.seam with
      | none => simp [given] at listed
      | some seams =>
        rw [given] at listed
        exact (partition.seams seams given piece.1 piece.2 ((Dict.get?_eq_some ..).mpr listed)).1
    · cases listed
  have seamKeys : ((if isRecompute then (info.seam.map Dict.items).getD [] else []).map Prod.fst).Nodup := by
    split
    · cases info.seam with
      | none => exact nodup_nil
      | some seam => exact seam.distinct
    · exact nodup_nil
  have keys : (pieces isRecompute info).map Prod.fst = info.localMiss.map Prod.fst ++ info.globalInfo.toList.map Prod.fst ++
      (if isRecompute then (info.seam.map Dict.items).getD [] else []).map Prod.fst := by
    simp [pieces,comp_def]
  rw [info.ranges_segs,nodup_append,nodup_append] at distinct
  obtain ⟨⟨misses,hits,apartHits⟩,last,apartLast⟩ := distinct
  rw [keys,nodup_append,nodup_append]
  refine ⟨⟨misses,last,fun seg missed => apartLast seg (mem_append_left _ missed)⟩,seamKeys,fun seg member other seam => ?_⟩
  rcases mem_append.mp member with missed | global
  · exact apartHits seg missed other (seams other seam)
  · exact (apartLast other (mem_append_right _ (seams other seam)) seg global).symm

theorem positions_nodup : (info.localPositions ++ info.globalPositions ++ (info.seams isRecompute).map Prod.fst).Nodup := by
  rw [← pieces_positions,nodup_flatMap]
  refine ⟨fun piece member => (partition.pieces_inside member).2.1,?_⟩
  have distinct : ((pieces isRecompute info).map Prod.fst).Nodup := partition.pieces_keys
  have keys := pairwise_map.mp distinct
  refine (List.Pairwise.and_mem.mp keys).imp fun {left right} ⟨leftMember,rightMember,differ⟩ pos inLeft inRight => differ ?_
  obtain ⟨leftRange,-,leftBounds⟩ := partition.pieces_inside leftMember
  obtain ⟨rightRange,-,rightBounds⟩ := partition.pieces_inside rightMember
  exact partition.apart leftRange rightRange (leftBounds pos inLeft) (rightBounds pos inRight)

theorem entries_nodup : (info.entries isRecompute).Nodup := (perm_insertionSort ..).nodup_iff.mpr partition.positions_nodup

theorem entries_inside (member : pos ∈ info.entries isRecompute) : pos < stop := by
  rw [RopeMeta.entries,mem_insertionSort,← pieces_positions] at member
  obtain ⟨piece,listed,inside⟩ := mem_flatMap.mp member
  obtain ⟨range,-,bounds⟩ := partition.pieces_inside listed
  have perm := info.privTable_perm.map Prod.fst
  exact Nat.lt_of_lt_of_le (bounds pos inside).2 (partition.consecutive.mem_bounds (perm.mem_iff.mpr range)).2.2
end RopeMeta.Partition

/-- The number of the query row of a position, in a request whose rows start at `base`. -/
def rowOf (isRecompute : Bool) (info : RopeMeta) (base pos : Nat) : Nat := base + (info.entries isRecompute).idxOf pos

/-- What phase C makes of one request. -/
structure PartOk (isRecompute : Bool) (info : RopeMeta) (base : Nat) (part : PhaseReq) : Prop where
  queries : part.runs.flatMap PhaseRun.qis = List.range' base (info.entries isRecompute).length
  seen : rowsOf (groupsOf part.runs) = (info.entries isRecompute).map fun pos => (wholeRow info.privTable).take (pos + 1)
  totals : ∀ run ∈ part.runs, run.totalKv = run.kvIndices.length
  src : part.kvSrcQis = (info.globalPositions ++ (info.seams isRecompute).map Prod.fst).map (rowOf isRecompute info base)
  dst : part.kvDstSlots.map some = (info.globalPositions ++ (info.seams isRecompute).map Prod.fst).map info.privateSlot

theorem entries_rows (partition : info.Partition stop) (base : Nat) :
    (info.entries isRecompute).map (rowOf isRecompute info base) = List.range' base (info.entries isRecompute).length := by
  have distinct : (info.entries isRecompute).Nodup := partition.entries_nodup
  refine ext_getElem (by simp) fun index inside _ => ?_
  simp only [length_map] at inside
  rw [getElem_map,getElem_range',rowOf,distinct.idxOf_getElem,Nat.one_mul]

theorem span_zipIdx (seg : Seg) (f : Nat → Nat) :
    (((span seg).map f).zipIdx.map fun row => (seg.1 + row.2,row.1)) = (span seg).map fun pos => (pos,f pos) := by
  refine ext_getElem (by simp) fun index _ _ => ?_
  simp [span]

theorem allQs_sorted (isRecompute : Bool) (info : RopeMeta) (f : Nat → Nat) :
    ((info.globalPositions.map (fun pos => (pos,f pos)) ++ (info.seams isRecompute).map (fun seam => (seam.1,f seam.1)) ++
      info.localPositions.map fun pos => (pos,f pos)).insertionSort fun left right => left.1 ≤ right.1) =
        (info.entries isRecompute).map fun pos => (pos,f pos) := by
  have together : info.globalPositions.map (fun pos => (pos,f pos)) ++ (info.seams isRecompute).map (fun seam => (seam.1,f seam.1)) ++
      info.localPositions.map (fun pos => (pos,f pos)) =
        (info.globalPositions ++ (info.seams isRecompute).map Prod.fst ++ info.localPositions).map fun pos => (pos,f pos) := by
    simp [comp_def]
  have perm : (info.globalPositions ++ (info.seams isRecompute).map Prod.fst ++ info.localPositions).Perm
      (info.localPositions ++ info.globalPositions ++ (info.seams isRecompute).map Prod.fst) := by
    rw [append_assoc info.localPositions]
    exact perm_append_comm
  have sorted : (info.globalPositions ++ (info.seams isRecompute).map Prod.fst ++ info.localPositions).insertionSort (· ≤ ·) =
      info.entries isRecompute := by
    refine List.Perm.eq_of_pairwise (fun _ _ _ _ => Nat.le_antisymm) (pairwise_insertionSort ..) (pairwise_insertionSort ..) ?_
    exact ((perm_insertionSort ..).trans perm).trans (perm_insertionSort ..).symm
  rw [together,← sorted]
  exact (map_insertionSort (· ≤ ·) (fun left right : Nat × Nat => left.1 ≤ right.1) _ _ fun _ _ _ _ => Iff.rfl).symm

theorem global_slots (partition : info.Partition stop) : ((info.globalInfo.map Prod.snd).getD []).map some =
    info.globalPositions.map info.privateSlot := by
  unfold RopeMeta.globalPositions
  cases given : info.globalInfo with
  | none => rfl
  | some item =>
    have listed : item ∈ info.privTable := by simp [RopeMeta.privTable,given]
    have length := partition.tableSlots item listed
    obtain ⟨index,place⟩ := getElem?_of_mem listed
    have bounds := partition.consecutive.mem_bounds (mem_map_of_mem (f := Prod.fst) listed)
    refine ext_getElem (by simp [span,length]) fun offset inside _ => ?_
    simp only [map_some,getD_some,length_map] at inside
    simp only [map_some,getD_some,getElem_map,span,getElem_range',Nat.one_mul]
    rw [partition.privateSlot_eq (by omega),
      wholeRow_get partition.consecutive partition.tableSlots place (by omega) (by omega),Nat.add_sub_cancel_left,
      getElem?_eq_getElem inside]

theorem seam_slot (partition : info.Partition stop) {seam : Nat × Seg × Nat} (member : seam ∈ info.seams isRecompute) :
    ∃ item ∈ info.localHit, item.1 = seam.2.1 ∧ ∃ slot, item.2.1[seam.1 - seam.2.1.1]? = some slot ∧ info.privateSlot seam.1 = some slot := by
  obtain ⟨hit,lower,upper⟩ : seam.2.1 ∈ info.localHit.map Prod.fst ∧ seam.2.1.1 ≤ seam.1 ∧ seam.1 < seam.2.1.2 := by
    unfold RopeMeta.seams at member
    split at member
    · cases given : info.seam with
      | none => simp [given] at member
      | some seams =>
        rw [given,map_some,getD_some,seamItems,mem_flatMap] at member
        obtain ⟨item,listed,member⟩ := member
        obtain ⟨sink,inside,rfl⟩ := mem_map.mp member
        obtain ⟨hit,-,bounds⟩ := partition.seams seams given item.1 item.2 ((Dict.get?_eq_some ..).mpr listed)
        exact ⟨hit,bounds sink.1 (fst_mem_of_mem_zipIdx inside)⟩
    · cases member
  obtain ⟨item,listed,same⟩ := mem_map.mp hit
  have inRanges : (item.1,item.2.1) ∈ info.ranges := by
    simp only [RopeMeta.ranges,map_append,mem_append]
    exact .inl (.inr (mem_map.mpr ⟨item,listed,rfl⟩))
  have inTable := info.privTable_perm.mem_iff.mpr inRanges
  have length := partition.slots _ inRanges
  have bounds := partition.consecutive.mem_bounds (mem_map_of_mem (f := Prod.fst) inTable)
  obtain ⟨index,place⟩ := getElem?_of_mem inTable
  simp only [same] at length bounds place
  have offset : seam.1 - seam.2.1.1 < item.2.1.length := by omega
  have slot := getElem?_eq_getElem offset
  refine ⟨item,listed,same,_,slot,?_⟩
  rw [partition.privateSlot_eq (Nat.lt_of_lt_of_le upper bounds.2.2),
    wholeRow_get partition.consecutive partition.tableSlots place lower upper,slot]

theorem seamWrites_eq (isRecompute : Bool) (partition : info.Partition stop) (f : Nat → Nat) :
    seamWrites info ((info.seams isRecompute).map fun seam => (f seam.1,seam)) =
      (info.seams isRecompute).map fun seam => ((info.privateSlot seam.1).toList,f seam.1) := by
  have hitKeys : ((info.localHit.map fun item => (item.1,item.2.1)).map Prod.fst).Nodup := by
    have distinct := partition.nodup
    simp only [RopeMeta.ranges,map_append,nodup_append] at distinct
    exact distinct.1.2.1
  have each : ∀ seam ∈ info.seams isRecompute,
      ((Dict.empty.setAll (info.localHit.map fun item => (item.1,item.2.1))).get? seam.2.1).map
        (fun priv => ((priv.drop (seam.1 - seam.2.1.1)).take 1,f seam.1)) = some ((info.privateSlot seam.1).toList,f seam.1) := by
    intro seam member
    obtain ⟨item,listed,same,slot,found,own⟩ := seam_slot partition member
    obtain ⟨offset,here⟩ := List.getElem?_eq_some_iff.mp found
    rw [Dict.get?_setAll_mem _ _ hitKeys (mem_map.mpr ⟨item,listed,by rw [same]⟩),own,map_some,
      drop_eq_getElem_cons offset,here]
    rfl
  rw [seamWrites,filterMap_map]
  refine (filterMap_congr each).trans ?_
  exact congrFun filterMap_eq_map _

theorem phaseCReq_spec (partition : info.Partition stop) (base : Nat) (rest : List Nat) :
    ∃ part, phaseCReq info ((info.seams isRecompute).map fun seam => (rowOf isRecompute info base seam.1,seam))
        (info.localPositions.map fun pos => (pos,rowOf isRecompute info base pos))
        (info.globalPositions.map (rowOf isRecompute info base) ++ rest) = some (part,rest) ∧ PartOk isRecompute info base part := by
  by_cases idle : info.globalInfo.isNone ∧ (info.seams isRecompute) = [] ∧ info.localPositions = []
  · obtain ⟨noGlobal,noSeams,noMisses⟩ := idle
    have global : info.globalInfo = none := Option.isNone_iff_eq_none.mp noGlobal
    have empty : info.entries isRecompute = [] := by simp [RopeMeta.entries,RopeMeta.globalPositions,global,noSeams,noMisses]
    refine ⟨⟨[],[],[]⟩,?_,?_⟩
    · simp [phaseCReq,RopeMeta.globalPositions,global,noSeams,noMisses]
    · constructor <;> simp [RopeMeta.globalPositions,global,noSeams,empty,groupsOf,rowsOf]
  · have busy : ¬ (info.globalInfo.isNone ∧ ((info.seams isRecompute).map fun seam => (rowOf isRecompute info base seam.1,seam)).isEmpty ∧
        (info.localPositions.map fun pos => (pos,rowOf isRecompute info base pos)).isEmpty) := by
      simpa [List.isEmpty_iff] using idle
    have globalLen : (info.globalInfo.map fun item => item.1.2 - item.1.1).getD 0 =
        (info.globalPositions.map (rowOf isRecompute info base)).length := by
      unfold RopeMeta.globalPositions
      cases info.globalInfo <;> simp [span]
    have globalRows : (info.globalInfo.map fun item =>
        (info.globalPositions.map (rowOf isRecompute info base)).zipIdx.map fun row => (item.1.1 + row.2,row.1)).getD [] =
          info.globalPositions.map fun pos => (pos,rowOf isRecompute info base pos) := by
      unfold RopeMeta.globalPositions
      cases info.globalInfo with
      | none => rfl
      | some item => exact span_zipIdx item.1 _
    have writes := seamWrites_eq isRecompute partition (rowOf isRecompute info base)
    have sorted := allQs_sorted isRecompute info (rowOf isRecompute info base)
    obtain ⟨runs,executed,queries,seen,totals⟩ := emitRuns_spec partition.consecutive partition.tableSlots
      ((info.entries isRecompute).map fun pos => (pos,rowOf isRecompute info base pos)) (by
        intro row member
        obtain ⟨pos,listed,rfl⟩ := mem_map.mp member
        exact partition.entries_inside listed)
    refine ⟨⟨runs,(info.globalInfo.map Prod.snd).getD [] ++
        ((info.seams isRecompute).map fun seam => ((info.privateSlot seam.1).toList,rowOf isRecompute info base seam.1)).flatMap Prod.fst,
      info.globalPositions.map (rowOf isRecompute info base) ++
        ((info.seams isRecompute).map fun seam => ((info.privateSlot seam.1).toList,rowOf isRecompute info base seam.1)).map Prod.snd⟩,
      ?_,?_,?_,totals,?_,?_⟩
    · rw [phaseCReq,if_neg busy]
      simp only [globalLen,take_left,drop_left,globalRows,map_map,comp_def,sorted,writes,executed,map_some]
    · rw [queries,map_map]
      exact entries_rows partition base
    · rw [seen,map_map]
      rfl
    · simp [comp_def]
    · rw [map_append,global_slots partition,map_append,flatMap_map,map_flatMap,map_map]
      refine congrArg (_ ++ ·) (Eq.trans ?_ (flatMap_pure_eq_map ..))
      refine flatMap_congr fun seam member => ?_
      obtain ⟨-,-,-,slot,-,own⟩ := seam_slot partition member
      simp [own]
end Request

end Hypic.PhaseC
