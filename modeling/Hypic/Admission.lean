import Hypic.Capacity
import Hypic.Scheduler
import Hypic.Forward

/-! Admission to a prefill batch. The budget counts the tokens to forward; allocation also takes private
    and public copies and states, and the hits that were counted as evictable are locked by then. -/

namespace Hypic.Admission
open Policy Allocator Cache Request Alloc Release Runs Custody Scheduler Capacity Forward List
universe u
variable {Hash : Type u} [DecidableEq Hash]
variable {req : Req Hash}

inductive AddReqResult where
  | CONTINUE | NO_TOKEN | OTHER
  deriving DecidableEq, Repr

def clipMaxNewTokens : Nat := 4096
/-- The segment cache runs with pages of one token. -/
def pageSize : Nat := 1

/-- The budget of one prefill pass. What running requests may still generate is a fraction of their limit. -/
structure PrefillAdder (Hash : Type u) [DecidableEq Hash] where
  pools : Pools Hash
  remTotalTokenOffset : ℚ
  curRemTokenOffset : ℚ
  remInputTokens : Int
  prefillMaxRequests : Option Nat
  canRunList : List (Req Hash)

namespace PrefillAdder
open List
variable (adder : PrefillAdder Hash)

def remTotalTokens : ℚ := (adder.pools.kv.availableSize + adder.pools.cache.evictableSize : Nat) - adder.remTotalTokenOffset
def curRemTokens : ℚ := (adder.pools.kv.availableSize + adder.pools.cache.evictableSize : Nat) - adder.curRemTokenOffset

def budgetState : AddReqResult :=
  if adder.remTotalTokens ≤ 0 ∨ adder.curRemTokens ≤ 0 then .NO_TOKEN
  else if adder.remInputTokens ≤ 0 then .OTHER
  else .CONTINUE

def updatePrefillBudget (extendInputLen maxNewTokens : Nat) : PrefillAdder Hash :=
  { adder with
    remTotalTokenOffset := adder.remTotalTokenOffset + (extendInputLen + maxNewTokens + pageSize : Nat)
    curRemTokenOffset := adder.curRemTokenOffset + (extendInputLen + pageSize : Nat)
    remInputTokens := adder.remInputTokens - extendInputLen }

/-- `allowed` is the prefill delayer's answer. For this cache `_lock_node` locks nothing, so the check under it
    repeats the one before it. A fill length that does not add up fails an assertion. -/
def addOneReq (allowed : Bool) (req : Req Hash) : Option (AddReqResult × PrefillAdder Hash) :=
  let maxNew := min req.maxNewTokens clipMaxNewTokens
  let totalTokens := req.extendInputLen + maxNew + pageSize
  if allowed = false ∨ (∃ limit ∈ adder.prefillMaxRequests, limit ≤ adder.canRunList.length) then some (.OTHER,adder)
  else if adder.remTotalTokens ≤ totalTokens then some (.NO_TOKEN,adder)
  else if adder.canRunList ≠ [] ∧ adder.remInputTokens ≤ req.extendInputLen then some (.OTHER,adder)
  else if req.originInputIds.length ≠ req.prefixIndices.length + req.extendInputLen then none
  else
    let admitted := { adder with
      canRunList := adder.canRunList ++ [req], pools := adder.pools.withCache (incLockRef req adder.pools.cache) }
    let charged := admitted.updatePrefillBudget req.extendInputLen maxNew
    some (charged.budgetState,charged)
end PrefillAdder

/-- The pass over the waiting queue: each request is matched and then offered to the budget, until the batch is
    full or a request is turned away. -/
def getNewBatchPrefill (args : ServerArgs Hash) (now maxBatch : Nat) :
    List (Req Hash × Bool) → PrefillAdder Hash → Option (PrefillAdder Hash)
  | [], adder => some adder
  | (req,allowed)::rest, adder =>
    if min maxBatch adder.pools.reqSlots.length ≤ adder.canRunList.length then some adder
    else
      let matched := initNextRoundInput args now req adder.pools.cache
      let offered : PrefillAdder Hash := { adder with pools := adder.pools.withCache matched.2 }
      (offered.addOneReq allowed matched.1).bind fun outcome =>
        if outcome.1 = .CONTINUE then getNewBatchPrefill args now maxBatch rest outcome.2 else some outcome.2

/-- The start of a pass with nothing running. -/
def PrefillAdder.idle (pools : Pools Hash) (maxPrefillTokens : Nat) : PrefillAdder Hash :=
  ⟨pools,0,0,maxPrefillTokens,none,[]⟩

/-- Waiting requests matched against one state of the cache. -/
def matchedBatch (args : ServerArgs Hash) (now : Nat) (cache : PICache Hash) (reqs : List (Req Hash)) : List (Req Hash) :=
  reqs.map fun req => (initNextRoundInput args now req cache).1

/-- Unlocked entries that no request of the batch refers to. -/
def spare (pools : Pools Hash) (reqs : List (Req Hash)) : List (SegmentEntry Hash) :=
  pools.cache.unlocked.filter fun entry => ∀ req ∈ reqs, entry ∉ req.picSegmentEntries.values

/-- The pools, as they are before the pass, have all that the batch's allocation takes. -/
def Covered (args : ServerArgs Hash) (pools : Pools Hash) (reqs : List (Req Hash)) : Prop :=
  kvNeed args reqs ≤ pools.kv.availableSize + ((spare pools reqs).map fun entry => entry.fullKvSlots.length).sum ∧
    reqs.length + (reqs.map (mambaMisses args)).sum ≤ pools.mamba.availableSize + (spare pools reqs).length

section Positions
variable (args : ServerArgs Hash)

theorem collectHits_seams (all : List (Seg × Option (SegmentEntry Hash))) (index : Nat) (slots : List Slot)
    (seams : Dict Seg (List Nat))
    (known : ∀ seg positions, seams.get? seg = some positions → ∃ place entry, all[place]? = some (seg,some entry) ∧ 0 < place ∧
      positions = List.range' seg.1 (seamWidth args place seg) ∧ 0 < seamWidth args place seg) :
    ∀ seg positions, (collectHits args index (all.drop index) slots seams).2.get? seg = some positions →
      ∃ place entry, all[place]? = some (seg,some entry) ∧ 0 < place ∧
        positions = List.range' seg.1 (seamWidth args place seg) ∧ 0 < seamWidth args place seg := by
  induction rest : all.drop index generalizing index slots seams with
  | nil => exact known
  | cons item later ih =>
    have here : all[index]? = some item := by
      have first := congrArg List.head? rest
      simpa [head?_drop] using first
    have next : all.drop (index + 1) = later := by
      rw [← drop_drop,rest]
      rfl
    obtain ⟨seg,found⟩ := item
    cases found with
    | none => exact ih (index + 1) slots seams known next
    | some entry =>
      simp only [collectHits]
      split
      · rename_i positive
        refine ih (index + 1) _ _ ?_ next
        intro other positions filed
        rw [Dict.get?_set] at filed
        split at filed
        · rename_i same
          subst same
          cases filed
          refine ⟨index,entry,here,?_,rfl,positive⟩
          by_contra first
          simp [seamWidth,first] at positive
        · exact known other positions filed
      · exact ih (index + 1) _ _ known next

theorem initNextRoundInput_seamed (now : Nat) (req : Req Hash) (cache : PICache Hash) (nonempty : req.picSegments ≠ [])
    (consecutive : Consecutive 0 req.picSegments req.originInputIds.length) (empty : req.picHitSeamPositions = .empty) :
    Seamed (initNextRoundInput args now req cache).1 := by
  have length := (matchSegments_looked args now req.originInputIds req.picSegments cache).length_eq
  have seams := collectHits_seams args (req.picSegments.zip (matchSegments args now req.originInputIds req.picSegments cache).1) 0 []
    .empty (fun seg positions found => by simp at found)
  simp only [initNextRoundInput,matchPrefix,nonempty,if_false,empty,ite_self,drop_zero] at seams ⊢
  intro seg positions found
  obtain ⟨place,entry,listed,behind,rfl,positive⟩ := seams seg positions found
  have member := mem_of_getElem? listed
  have bound : seamWidth args place seg ≤ seg.2 - seg.1 - 1 := by
    unfold seamWidth
    split
    · exact resolveSeamSinkTokens_le ..
    · exact Nat.zero_le _
  refine ⟨?_,?_,seamWidth args place seg,rfl,positive,by omega⟩
  · exact mem_map.mpr ⟨(seg,entry.segHash),mem_filterMap.mpr ⟨_,member,rfl⟩,rfl⟩
  · -- the segments are distinct, so the one at `place` is not the first
    intro first
    have there : req.picSegments[place]? = some seg := by
      have mapped := congrArg (Option.map Prod.fst) listed
      rwa [← getElem?_map,map_fst_zip (Nat.le_of_eq length)] at mapped
    rw [head?_eq_getElem?] at first
    have same := (getElem?_inj (by
      exact (List.getElem?_eq_some_iff.mp first).1) consecutive.nodup).mp (first.trans there.symm)
    omega

theorem positioned_of_seamed (seamed : Seamed req)
    (positions : req.picMissTokenPositions = missTokenPositions req.picMissSegments req.picHitSeamPositions) : Positioned req := by
  refine ⟨fun seg positions found pos member => ?_,fun pos member => ?_⟩
  · obtain ⟨-,-,width,rfl,-,short⟩ := seamed seg positions found
    have := mem_range'_1.mp member
    omega
  · rw [positions] at member
    refine ((mem_missTokenPositions _ _ pos).1 member).imp_right ?_
    rintro ⟨seg,positions,found,inside⟩
    obtain ⟨hit,listed,rfl⟩ := mem_map.mp (seamed seg positions found).1
    refine ⟨hit,listed,?_⟩
    rw [found]
    exact inside

theorem initNextRoundInput_positioned (now : Nat) (req : Req Hash) (cache : PICache Hash)
    (nonempty : req.picSegments ≠ []) (consecutive : Consecutive 0 req.picSegments req.originInputIds.length)
    (empty : req.picHitSeamPositions = .empty) : Positioned (initNextRoundInput args now req cache).1 :=
  positioned_of_seamed (initNextRoundInput_seamed args now req cache nonempty consecutive empty)
    (initNextRoundInput_positions args now req cache nonempty consecutive)
end Positions

section Pass
variable (args : ServerArgs Hash)

private theorem matchSegments_congr (now : Nat) (ids : List Token) (segs : List Seg) {left right : PICache Hash}
    (same : left.entries = right.entries) : (matchSegments args now ids segs left).1 = (matchSegments args now ids segs right).1 := by
  induction segs generalizing left right with
  | nil => rfl
  | cons seg rest ih =>
    cases rest with
    | nil => rfl
    | cons next rest =>
      simp only [matchSegments]
      split
      · rw [ih same]
      · have found : (left.matchSegment now (args.segmentHash (segmentIds ids seg)) (segmentIds ids seg)).1 =
            (right.matchSegment now (args.segmentHash (segmentIds ids seg)) (segmentIds ids seg)).1 := by
          unfold PICache.matchSegment
          rw [same]
          cases right.entries.get? (args.segmentHash (segmentIds ids seg)) with
          | none => rfl
          | some entry => simp only; split <;> rfl
        rw [found,ih ((left.matchSegment_frame ..).1.trans (same.trans (right.matchSegment_frame ..).1.symm))]

theorem initNextRoundInput_congr (now : Nat) (req : Req Hash) {left right : PICache Hash} (same : left.entries = right.entries) :
    (initNextRoundInput args now req left).1 = (initNextRoundInput args now req right).1 := by
  by_cases empty : req.picSegments = []
  · simp only [initNextRoundInput,matchPrefix,empty,if_true]
  · simp only [initNextRoundInput,matchPrefix,empty,if_false,matchSegments_congr args now req.originInputIds req.picSegments same]

private theorem lock_zero (entries : List (SegmentEntry Hash)) (cache : PICache Hash) (entry : SegmentEntry Hash) :
    (entries.foldl PICache.lock cache).lockRef entry = 0 ↔ cache.lockRef entry = 0 ∧ entry ∉ entries := by
  induction entries generalizing cache with
  | nil => simp
  | cons head rest ih =>
    rw [foldl_cons,ih,PICache.lockRef_lock]
    by_cases same : entry = head
    · simp [same]
    · simp [same]

theorem addOneReq_cases {adder : PrefillAdder Hash} {allowed : Bool} {outcome : AddReqResult × PrefillAdder Hash}
    (executed : adder.addOneReq allowed req = some outcome) :
    (outcome.1 ≠ .CONTINUE ∧ outcome.2 = adder) ∨
      (outcome.2.canRunList = adder.canRunList ++ [req] ∧
        outcome.2.pools = adder.pools.withCache (incLockRef req adder.pools.cache)) := by
  simp only [PrefillAdder.addOneReq] at executed
  split at executed
  · cases executed; exact .inl ⟨nofun,rfl⟩
  split at executed
  · cases executed; exact .inl ⟨nofun,rfl⟩
  split at executed
  · cases executed; exact .inl ⟨nofun,rfl⟩
  split at executed
  · cases executed
  · cases executed; exact .inr ⟨rfl,rfl⟩

/-- The pass so far: only locks and access times have changed, and the batch is what `taken` matches. -/
structure Passed (now : Nat) (pools : Pools Hash) (adder : PrefillAdder Hash) (taken : List (Req Hash)) : Prop where
  kv : adder.pools.kv = pools.kv
  mamba : adder.pools.mamba = pools.mamba
  rows : adder.pools.reqSlots = pools.reqSlots
  entries : adder.pools.cache.entries = pools.cache.entries
  locks : ∀ entry, adder.pools.cache.lockRef entry = 0 ↔
    pools.cache.lockRef entry = 0 ∧ ∀ req ∈ adder.canRunList, entry ∉ req.picSegmentEntries.values
  batch : adder.canRunList = matchedBatch args now pools.cache taken
  room : adder.canRunList.length ≤ pools.reqSlots.length

variable {taken : List (Req Hash)} {pools : Pools Hash} {now : Nat}

private theorem Passed.offer {adder : PrefillAdder Hash}
    (passed : Passed args now pools adder taken) (req : Req Hash) :
    Passed args now pools { adder with pools := adder.pools.withCache (initNextRoundInput args now req adder.pools.cache).2 } taken := by
  obtain ⟨entries,locks,-⟩ := initNextRoundInput_frame args now req adder.pools.cache
  exact
    { passed with
      entries := entries.trans passed.entries
      locks := fun entry => by rw [← passed.locks entry,← locks entry]; rfl }

private theorem Passed.join {adder next : PrefillAdder Hash}
    (passed : Passed args now pools adder taken) (room : adder.canRunList.length < pools.reqSlots.length)
    (listed : next.canRunList = adder.canRunList ++ [(initNextRoundInput args now req pools.cache).1])
    (locked : next.pools = adder.pools.withCache
      (incLockRef (initNextRoundInput args now req pools.cache).1 adder.pools.cache)) :
    Passed args now pools next (taken ++ [req]) := by
  refine ⟨?_,?_,?_,?_,?_,?_,?_⟩
  · rw [locked]; exact passed.kv
  · rw [locked]; exact passed.mamba
  · rw [locked]; exact passed.rows
  · rw [locked]; exact (incLockRef_frame ..).1.trans passed.entries
  · intro entry
    have zero := lock_zero (initNextRoundInput args now req pools.cache).1.picSegmentEntries.values adder.pools.cache entry
    rw [locked,listed]
    refine zero.trans ?_
    rw [passed.locks entry,and_assoc,forall_mem_append,forall_mem_singleton]
  · rw [listed,passed.batch]
    simp [matchedBatch]
  · rw [listed,length_append,length_singleton]
    exact room

theorem getNewBatchPrefill_passed (now maxBatch : Nat) (pools : Pools Hash) (queue : List (Req Hash × Bool)) (adder : PrefillAdder Hash)
    (taken : List (Req Hash)) (passed : Passed args now pools adder taken) {final : PrefillAdder Hash}
    (executed : getNewBatchPrefill args now maxBatch queue adder = some final) :
    ∃ count, Passed args now pools final (taken ++ (queue.take count).map Prod.fst) := by
  induction queue generalizing adder taken with
  | nil =>
    cases executed
    exact ⟨0,by simpa using passed⟩
  | cons item rest ih =>
    obtain ⟨req,allowed⟩ := item
    simp only [getNewBatchPrefill] at executed
    split at executed
    · cases executed
      exact ⟨0,by simpa using passed⟩
    · rename_i notFull
      rw [passed.rows] at notFull
      obtain ⟨outcome,offered,continued⟩ := bind_eq_some_iff.mp executed
      rw [initNextRoundInput_congr args now req passed.entries] at offered
      have room : adder.canRunList.length < pools.reqSlots.length := by omega
      rcases addOneReq_cases offered with ⟨turned,same⟩ | ⟨listed,locked⟩
      · rw [if_neg turned] at continued
        cases continued
        refine ⟨0,?_⟩
        rw [same]
        simpa using passed.offer args req
      · have next := (passed.offer args req).join args room listed locked
        split at continued
        · obtain ⟨count,later⟩ := ih outcome.2 _ next continued
          exact ⟨count + 1,by simpa using later⟩
        · cases continued
          exact ⟨1,by simpa using next⟩

theorem getNewBatchPrefill_front (now maxBatch : Nat) (queue : List (Req Hash × Bool)) (adder : PrefillAdder Hash)
    (start : adder.canRunList = []) {final : PrefillAdder Hash}
    (executed : getNewBatchPrefill args now maxBatch queue adder = some final) :
    ∃ count, Passed args now adder.pools final ((queue.take count).map Prod.fst) := by
  have begun : Passed args now adder.pools adder [] :=
    ⟨rfl,rfl,rfl,rfl,fun entry => by simp [start],by simp [start,matchedBatch],by simp [start]⟩
  exact getNewBatchPrefill_passed args now maxBatch adder.pools queue adder [] begun executed

theorem collectHits_plain (plain : args.recompute = false) (index : Nat) (items : List (Seg × Option (SegmentEntry Hash)))
    (slots : List Slot) (seams : Dict Seg (List Nat)) : (collectHits args index items slots seams).2 = seams := by
  induction items generalizing index slots with
  | nil => rfl
  | cons item rest ih =>
    obtain ⟨seg,found⟩ := item
    cases found with
    | none => exact ih (index + 1) slots
    | some entry =>
      have none : seamWidth args index seg = 0 := if_neg (by simp [plain])
      simp only [collectHits,none,Nat.lt_irrefl,if_false]
      exact ih (index + 1) _

theorem Passed.scheduled {adder : PrefillAdder Hash}
    (passed : Passed args now pools adder taken) (waiting : ∀ req ∈ taken, Waiting req) :
    ∀ req ∈ adder.canRunList, Scheduled args adder.pools req := by
  intro req member
  have listed := member
  rw [passed.batch] at listed
  obtain ⟨original,queued,rfl⟩ := mem_map.mp listed
  have wait := waiting original queued
  obtain ⟨matched,held,-⟩ := initNextRoundInput_matched args now original pools.cache wait.nonempty wait.consecutive
  refine ⟨matched,initNextRoundInput_unallocated args now pools.cache wait.fresh,fun key entry found => ?_,fun entry referred => ?_,
    initNextRoundInput_positions args now original pools.cache wait.nonempty wait.consecutive,fun plain => ?_,
    initNextRoundInput_seamed args now original pools.cache wait.nonempty wait.consecutive wait.seams⟩
  · rw [passed.entries]; exact held key entry found
  · exact Nat.pos_of_ne_zero fun idle => ((passed.locks entry).mp idle).2 _ member referred
  · simp only [initNextRoundInput,matchPrefix,wait.nonempty,if_false,plain,false_eq_true]
    exact (collectHits_plain args plain ..).trans wait.seams

private theorem Passed.unlocked {adder : PrefillAdder Hash}
    (passed : Passed args now pools adder taken) : adder.pools.cache.unlocked = spare pools adder.canRunList := by
  unfold spare PICache.unlocked
  rw [passed.entries,filter_filter]
  refine filter_congr fun entry _ => ?_
  rw [Bool.eq_iff_iff]
  simp only [decide_eq_true_eq,Bool.and_eq_true,passed.locks entry]
  exact and_comm

/-- An admitted batch is allocated exactly when free slots and the entries it does not itself hold cover what it
    takes: misses and private copies, one state for each cached miss and one for each request. -/
theorem admitted_batch_allocates (now maxBatch : Nat) (queue : List (Req Hash × Bool)) (adder final : PrefillAdder Hash)
    (start : adder.canRunList = []) (waiting : ∀ item ∈ queue, Waiting item.1)
    (executed : getNewBatchPrefill args now maxBatch queue adder = some final) :
    (picAllocForExtend args final.pools final.canRunList).isSome ↔
      Covered args adder.pools (matchedBatch args now adder.pools.cache ((queue.take final.canRunList.length).map Prod.fst)) := by
  obtain ⟨count,passed⟩ := getNewBatchPrefill_front args now maxBatch queue adder start executed
  have batch : matchedBatch args now adder.pools.cache ((queue.take final.canRunList.length).map Prod.fst) = final.canRunList := by
    rw [passed.batch]
    simp only [matchedBatch,length_map,length_take]
    congr 2
    rcases Nat.le_total count queue.length with within | beyond
    · rw [Nat.min_eq_left within]
    · rw [Nat.min_eq_right beyond,take_length,take_of_length_le beyond]
  have taken : ∀ req ∈ (queue.take count).map Prod.fst, Waiting req := by
    intro req member
    obtain ⟨item,queued,rfl⟩ := mem_map.mp member
    exact waiting item (mem_of_mem_take queued)
  have ready : ∀ req ∈ final.canRunList, Matched args req ∧ Unallocated req := fun req member =>
    ⟨(passed.scheduled args taken req member).matched,(passed.scheduled args taken req member).fresh⟩
  have positioned : args.recompute = true → ∀ req ∈ final.canRunList, Positioned req := by
    intro _ req member
    rw [passed.batch] at member
    obtain ⟨original,queued,rfl⟩ := mem_map.mp member
    have wait := taken original queued
    exact initNextRoundInput_positioned args now original adder.pools.cache wait.nonempty wait.consecutive wait.seams
  rw [batch,picAllocForExtend_isSome final.pools final.canRunList ready positioned,Covered,kvCapacity,mambaCapacity,
    PICache.evictableSize,PICache.mambaEvictableSize,passed.unlocked,passed.kv,passed.mamba,passed.rows]
  constructor
  · rintro ⟨-,states,tokens⟩
    exact ⟨tokens,states⟩
  · rintro ⟨tokens,states⟩
    exact ⟨passed.room,states,tokens⟩
end Pass

/-- A pass over one request on fresh pools. -/
def freshPass (mode : PICMode) (kvSize mambaSize : Nat) (parts : List (List Token)) : Option (PrefillAdder (List Token)) :=
  getNewBatchPrefill (plainArgs mode (-1)) 1 4 [(Req.create parts false 1,true)] (.idle (.clear kvSize mambaSize 4 false) 100)

theorem admitted_batch_allocates_fresh : ∃ final, freshPass .transition 10 4 [[1,2],[3]] = some final ∧
    final.canRunList.length = 1 ∧ (picAllocForExtend (plainArgs .transition (-1)) final.pools final.canRunList).isSome := by
  obtain ⟨final,executed⟩ : ∃ final, freshPass .transition 10 4 [[1,2],[3]] = some final :=
    isSome_iff_exists.mp (by decide +kernel)
  have admitted : ∀ final ∈ freshPass .transition 10 4 [[1,2],[3]], final.canRunList.length = 1 := by decide +kernel
  have waiting : ∀ item ∈ [((Req.create [[1,2],[3]] false 1 : Req (List Token)),true)], Waiting item.1 := by
    intro item member
    rw [mem_singleton] at member
    subst member
    exact create_waiting _ _ (by decide)
  refine ⟨final,executed,admitted final executed,?_⟩
  rw [admitted_batch_allocates (plainArgs .transition (-1)) 1 4 _ _ final rfl waiting executed,admitted final executed]
  exact ⟨by decide +kernel,by decide +kernel⟩

/-- A request is admitted and cannot be allocated: its own hit was counted as evictable, its private copies were not
    counted, or there is no state slot for each miss. -/
theorem admitted_batch_fails :
    (∃ engine ∈ run (step (plainArgs .transition (-1))) (.start 5 8 4 false) [.arrive 0 [[1,2,3,4],[5]] 1,.matchPrefix 0 1,.incLockRef 0,
        .allocForExtend [0],.cacheUnfinished 0 2,.finish 0 3 false],
      ∃ final ∈ getNewBatchPrefill (plainArgs .transition (-1)) 4 4 [(Req.create [[1,2,3,4],[6,7]] false 1,true)] (.idle engine.pools 100),
        final.canRunList.length = 1 ∧ picAllocForExtend (plainArgs .transition (-1)) final.pools final.canRunList = none) ∧
    (∃ final ∈ freshPass .transitionRope 10 8 [[1,2,3,4,5],[6]],
      final.canRunList.length = 1 ∧ picAllocForExtend (plainArgs .transitionRope (-1)) final.pools final.canRunList = none) ∧
    ∃ final ∈ freshPass .transition 10 3 [[1],[2],[3]],
      final.canRunList.length = 1 ∧ picAllocForExtend (plainArgs .transition (-1)) final.pools final.canRunList = none := by
  refine ⟨?_,?_,?_⟩ <;> decide +kernel

end Hypic.Admission
