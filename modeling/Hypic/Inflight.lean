import Hypic.Reclaim

/-! The in-flight counts: what allocation adds to them, what caching and the end of a request take off, and when they are
    the numbers of prompt slots that are neither free nor an entry's. -/

namespace Hypic.Inflight
open Policy Allocator Cache Request Alloc Release Runs Custody Handover Scheduler Ownership Reclaim Option
universe u
variable {Hash : Type u} [DecidableEq Hash]

/-- Slots a request got for its prompt and still has: its misses' and its private copies of hits. -/
def inFlight (rope : Bool) (req : Req Hash) : Holding := missTotal rope req + kvHolding (hitPrivate req)

/-- The arguments of `remove_inflight` in the caching loop. -/
def cachedAmount (args : ServerArgs Hash) (now : Nat) (req : Req Hash) (pools : Pools Hash) : ℕ × ℕ :=
  if args.isTransition then
    ((req.picMissSegments.foldlM (Caching.cacheMiss args now) ⟨unsettledReq req,pools,0,0⟩).map fun state =>
      (state.inflightTokens,state.inflightMamba)).getD 0
  else 0

/-- What a step passes to `remove_inflight`. -/
def removed (args : ServerArgs Hash) (engine : Engine Hash) : Action → ℕ × ℕ
  | .cacheUnfinished rid now => (engine.jobAt [.prefilled] rid).elim 0 fun job => cachedAmount args now job.req engine.pools
  | .finish rid now isInsert => (engine.jobAt [.prefilled,.cached] rid).elim 0 fun job =>
      if isInsert then cachedAmount args now job.req engine.pools +
        (cacheUnfinishedReq args now job.req engine.pools).elim 0 fun (mid,_) => endAmount args mid
      else endAmount args job.req
  | _ => 0

/-! ### Amounts -/

section Amounts
variable {args : ServerArgs Hash} {now : Nat} {req after : Req Hash} {pools final : Pools Hash}

theorem cacheUnfinishedReq_inflight (plain : PlainPub args req) (distinct : req.picMissSegments.Nodup)
    (executed : cacheUnfinishedReq args now req pools = some (after,final)) :
    final.cache.inflight = pools.cache.inflight - cachedAmount args now req pools ∧
      (args.isTransition = true →
        count (missTotal args.rope after) + cachedAmount args now req pools = count (missTotal args.rope (unsettledReq req))) := by
  obtain ⟨state,lost,looped,loop,rfl,rfl⟩ := cacheUnfinishedReq_loop plain distinct executed
  have amount : cachedAmount args now req pools =
      if args.isTransition = true then (state.inflightTokens,state.inflightMamba) else 0 := by
    simp [cachedAmount,looped]
  rw [amount]
  constructor
  · by_cases transition : args.isTransition = true
    · simp only [transition,true_and,if_true]
      rw [← loop.inflight]
      split
      · rfl
      · rename_i nothing
        have none : state.inflightTokens = 0 ∧ state.inflightMamba = 0 := by omega
        rw [none.1,none.2]
        rfl
    · simp only [transition]
      exact loop.inflight
  · intro transition
    rw [if_pos transition]
    exact loop.leaving

theorem endAmount_transition (transition : args.isTransition = true) (running : Running args req)
    (states : args.rope = true → ∀ seg miss, req.picMissSegmentSlots.get? seg = some miss → miss.mamba.isSome = true)
    (unsettled : ∀ seg, req.globalSeg = some seg → seg ∉ settled req) (sound : leaked args req = 0) :
    endAmount args req = count (inFlight args.rope req) := by
  have globalPub : ∀ seg miss, req.globalSeg = some seg → req.picMissSegmentSlots.get? seg = some miss →
      args.rope = true → miss.pub = none := by
    intro seg miss global found _
    by_contra pub
    exact ((running.pub seg miss found).mp (isSome_iff_ne_none.mpr pub)).2 global.symm
  have split := missTotal_split running.plainPub unsettled globalPub
  rw [sound,add_zero,globalTotal_eq] at split
  rw [inFlight,split,endAmount]
  by_cases rope : args.rope = true
  · have none : (req.picMissSegmentSlots.total fun item =>
        if args.rope = false ∧ ¬ (some item.1 = req.lastSeg ∨ item.1 ∈ settled req) ∧ args.short item.1 = true then
          kvHolding item.2.kv + mambaHolding item.2.mamba.toList else 0) = 0 := by simp [rope,Dict.total]
    rw [none,privateTotal_eq rope]
    cases found : req.globalSeg.bind req.picMissSegmentSlots.get? with
    | none => simp [rope,transition]
    | some miss =>
      obtain ⟨seg,-,found⟩ := bind_eq_some_iff.mp found
      obtain ⟨slot,state⟩ := isSome_iff_exists.mp (states rope seg miss found)
      simp [rope,transition,state]
      omega
  · have plain : args.rope = false := by simpa using rope
    have none : (req.picMissSegmentSlots.total fun item =>
        if args.rope = true ∧ some item.1 ≠ req.globalSeg then kvHolding item.2.kv else 0) = 0 := by simp [plain,Dict.total]
    have copies : hitPrivate req = [] := by rw [hitPrivate,running.copies plain]; rfl
    rw [none,skippedTotal_eq plain,copies]
    cases req.globalSeg.bind req.picMissSegmentSlots.get? with
    | none => simp [plain,transition]
    | some miss => simp [plain,transition]

theorem endAmount_addition (addition : args.isTransition = false) :
    endAmount args req = count (missTotal args.rope (unsettledReq req)) := by
  have plain : args.rope = false := by
    by_contra rope
    rw [args.isTransition_of_rope (by simpa using rope)] at addition
    cases addition
  have each (items : List (Seg × MissSlots)) : ((items.map fun item => item.2.kv.length + (item.2.pub.getD []).length).sum,
      (items.map fun item => item.2.mamba.toList.length).sum) = count (items.map (missHolding false [])).sum := by
    induction items with
    | nil => rfl
    | cons item rest ih =>
      simp only [List.map_cons,List.sum_cons,map_add,← ih,missHolding]
      simp
  simp only [endAmount,addition,plain,false_eq_true,if_false,false_and,add_zero,Dict.values,List.map_map]
  exact each req.picMissSegmentSlots.items

end Amounts

/-! ### Allocation -/

section Allocation
variable {args : ServerArgs Hash} {cursor last : Cursor Hash} {walk next : Walk Hash} {reqs : List (Req Hash)}

/-- The counts of a walk, and the slots it can still reach with the states it has counted. -/
def tally (cursor : Cursor Hash) : (ℕ × ℕ) × (ℕ × ℕ) :=
  (cursor.pools.cache.inflight,count cursor.pools.ledger + (0,cursor.totalMambaAlloc))

theorem allocMiss_tally {seg : Seg} (stepped : allocMiss args walk seg = some next) : tally next.toCursor = tally walk.toCursor := by
  obtain ⟨withPub,mamba,pools,rfl,records⟩ := allocMiss_records stepped
  rcases records.pools with ⟨rfl,rfl⟩ | ⟨slot,rfl,taken⟩
  · rfl
  · obtain ⟨-,ledger,-⟩ := Pools.allocOneMamba_spec taken
    refine Prod.ext (Pools.allocOneMamba_inflight taken) ?_
    simp only [tally,Walk.recordMiss,ledger,map_add,count_mambaHolding]
    ext <;> simp
    omega

theorem allocReq_tally {req : Req Hash} (executed : allocReq args cursor req = some walk) : tally walk.toCursor = tally cursor := by
  rw [allocReq_eq] at executed
  obtain ⟨middle,hits,misses⟩ := bind_eq_some_iff.mp executed
  refine foldlM_keeps (fun walk _ => tally walk.toCursor = tally cursor) ?_ ?_ misses
  · intro state seg rest after same stepped
    exact (allocMiss_tally stepped).trans same
  · refine foldlM_keeps (fun walk _ => tally walk.toCursor = tally cursor) ?_
      (congrArg tally (startWalk_frame args cursor req).1) hits
    intro state hit rest after same stepped
    exact (congrArg tally (writeHit_frame stepped).1).trans same

theorem allocReqs_tally {walks : List (Walk Hash)} (executed : allocReqs (allocReq args) reqs cursor = some (walks,last)) :
    tally last = tally cursor := by
  induction reqs generalizing cursor walks with
  | nil =>
    cases executed
    rfl
  | cons req rest ih =>
    obtain ⟨walk,first,executed⟩ := bind_eq_some_iff.mp executed
    obtain ⟨⟨later,final⟩,rest,same⟩ := map_eq_some_iff.mp executed
    cases same
    exact (ih rest).trans (allocReq_tally first)

theorem allocReqSlots_inflight {pools after : Pools Hash} {done : List (Req Hash)}
    (executed : allocReqSlots pools reqs = some (done,after)) : after.cache.inflight = pools.cache.inflight := by
  obtain ⟨_,-,executed⟩ := bind_eq_some_iff.mp executed
  obtain ⟨_,-,same⟩ := map_eq_some_iff.mp executed
  cases same
  change (reserveMamba pools reqs.length).cache.inflight = _
  simp only [reserveMamba]
  split
  · exact pools.evict_inflight ..
  · rfl

theorem picAllocForExtend_inflight {pools : Pools Hash} {extended : Extended Hash}
    (ready : ∀ req ∈ reqs, Matched args req ∧ Unallocated req) (executed : picAllocForExtend args pools reqs = some extended) :
    extended.pools.cache.inflight =
      pools.cache.inflight + (extended.reqs.map fun req => count (givenHolding args.rope req)).sum := by
  obtain ⟨done,slotted,funded,slots,start,last,walks,totalTokens,run,-⟩ := picAllocForExtend_run executed
  obtain ⟨out,rfl⟩ := run.finish
  obtain ⟨assigned,-⟩ := allocReqSlots_spec (fun req member => (ready req member).2) run.rows
  obtain ⟨length,-⟩ := Pools.allocTokenSlots_spec run.kv
  obtain ⟨-,holding,-,left,-⟩ := allocReqs_served (assigned_ready assigned ready) run.left run.walked
  obtain ⟨sameCounts,sameLedger⟩ := Prod.ext_iff.mp (allocReqs_tally run.walked)
  simp only [tally,run.pools,run.uncounted] at sameCounts sameLedger
  have given : ((walks.map Walk.req).map fun req => count (givenHolding args.rope req)).sum =
      (totalTokens,last.totalMambaAlloc) := by
    have counted := congrArg count holding
    rw [left.spent,run.holding,map_add,map_add,count_kvHolding,length,map_list_sum,List.map_map] at counted
    rw [List.map_map]
    have moved : count last.pools.ledger + (walks.map (count ∘ fun walk => givenHolding args.rope walk.req)).sum =
        count last.pools.ledger + (totalTokens,last.totalMambaAlloc) := by
      rw [counted]
      obtain ⟨kv,states⟩ := Prod.ext_iff.mp sameLedger
      simp only [Prod.fst_add,Prod.snd_add] at kv states
      ext <;> simp <;> omega
    exact add_left_cancel moved
  change last.pools.cache.inflight + (totalTokens,last.totalMambaAlloc) = _
  rw [sameCounts,Pools.allocTokenSlots_inflight run.kv,allocReqSlots_inflight run.rows]
  exact congrArg _ given.symm

end Allocation

/-! ### Steps -/

section Frames
variable (args : ServerArgs Hash) (now : Nat)

theorem matchSegments_inflight (ids : List Token) (segs : List Seg) (cache : PICache Hash) :
    (matchSegments args now ids segs cache).2.inflight = cache.inflight := by
  fun_induction matchSegments args now ids segs cache with
  | case1 cache => rfl
  | case2 cache seg => rfl
  | case3 seg next rest cache short found after heq ih => rw [heq] at ih; exact ih
  | case4 seg next rest cache long entry after heq found last heqLast ih =>
    have first := cache.matchSegment_inflight now (args.segmentHash (segmentIds ids seg)) (segmentIds ids seg)
    rw [heq] at first
    rw [heqLast] at ih
    exact ih.trans first

theorem initNextRoundInput_inflight (req : Req Hash) (cache : PICache Hash) :
    (initNextRoundInput args now req cache).2.inflight = cache.inflight := by
  unfold initNextRoundInput matchPrefix
  by_cases nothing : req.picSegments = []
  · simp [nothing]
  · simp only [nothing,if_false]
    exact matchSegments_inflight args now req.originInputIds req.picSegments cache

theorem incLockRef_inflight (req : Req Hash) (cache : PICache Hash) : (incLockRef req cache).inflight = cache.inflight := by
  unfold incLockRef
  induction req.picSegmentEntries.values generalizing cache with
  | nil => rfl
  | cons entry rest ih => exact ih (cache.lock entry)

end Frames

/-- What the counts rely on in a request: a state for every miss of a rope mode, and no cached miss in addition mode. -/
structure Complete (args : ServerArgs Hash) (req : Req Hash) : Prop where
  states : args.rope = true → ∀ seg miss, req.picMissSegmentSlots.get? seg = some miss → miss.mamba.isSome = true
  unsettled : args.isTransition = false → settled req = []

/-- The prompt slots of every unfinished request. -/
def inFlightTotal (args : ServerArgs Hash) (engine : Engine Hash) : Holding :=
  engine.jobs.total fun item => inFlight args.rope item.2.req

structure Exact (args : ServerArgs Hash) (engine : Engine Hash) : Prop where
  ok : JobsOk args engine
  complete : ∀ rid job, engine.jobs.get? rid = some job → Complete args job.req
  counted : engine.pools.cache.inflight = count (inFlightTotal args engine)

/-- A step that ends requests as `Balanced` says, and in addition mode caches nothing before the end. -/
def Accounted (args : ServerArgs Hash) (engine : Engine Hash) : Action → Prop
  | .cacheUnfinished rid now => Balanced args engine (.cacheUnfinished rid now) ∧
      ∀ job ∈ engine.jobAt [.prefilled] rid, args.isTransition = true ∨ cacheable args job.req = []
  | action => Balanced args engine action

instance (args : ServerArgs Hash) (engine : Engine Hash) : (action : Action) → Decidable (Accounted args engine action)
  | .cacheUnfinished rid now => inferInstanceAs (Decidable (Balanced args engine (.cacheUnfinished rid now) ∧
      ∀ job ∈ engine.jobAt [.prefilled] rid, args.isTransition = true ∨ cacheable args job.req = []))
  | .finish rid now isInsert => inferInstanceAs (Decidable (Balanced args engine (.finish rid now isInsert)))
  | .arrive .. | .matchPrefix .. | .incLockRef .. | .allocForExtend .. | .allocForDecode .. | .evict .. => isTrue trivial

section Steps
variable {args : ServerArgs Hash} {engine next : Engine Hash} {rid : Nat} {job : Job Hash}

theorem Accounted.balanced {action : Action} (accounted : Accounted args engine action) : Balanced args engine action := by
  cases action <;> first | exact accounted.1 | exact accounted

theorem complete_unallocated {req : Req Hash} (fresh : Unallocated req) : Complete args req := by
  refine ⟨fun _ seg miss found => ?_,fun _ => by simp [settled,fresh.owned,fresh.freed]⟩
  rw [fresh.misses] at found
  simp at found

theorem inFlight_unallocated {req : Req Hash} (fresh : Unallocated req) : inFlight args.rope req = 0 := by
  simp [inFlight,missTotal,fresh.misses,kvHolding_hitPrivate,fresh.copies]

theorem Exact.le (exact : Exact args engine) (found : engine.jobs.get? rid = some job) :
    count (inFlight args.rope job.req) ≤ engine.pools.cache.inflight := by
  rw [exact.counted,inFlightTotal,Dict.total_of_get? _ found,map_add]
  exact ⟨Nat.le_add_right ..,Nat.le_add_right ..⟩

theorem Exact.putJob (exact : Exact args engine) {after : Job Hash} {pools : Pools Hash}
    (found : engine.jobs.get? rid = some job) (ok : JobsOk args (engine.putJob rid after pools)) (complete : Complete args after.req)
    (moved : pools.cache.inflight + count (inFlight args.rope job.req) =
      engine.pools.cache.inflight + count (inFlight args.rope after.req)) : Exact args (engine.putJob rid after pools) := by
  refine ⟨ok,putJob_all exact.complete rid pools complete,?_⟩
  have total := congrArg count (putJob_total (fun job => inFlight args.rope job.req) after pools found)
  simp only [map_add] at total
  refine add_right_cancel (b := count (inFlight args.rope job.req)) ?_
  change pools.cache.inflight + _ = _
  rw [moved,exact.counted]
  exact total.symm

theorem Exact.putBatch (exact : Exact args engine) {rids : List Nat} {before after : List (Job Hash)} {pools : Pools Hash}
    (distinct : rids.Nodup) (found : List.Forall₂ (fun rid job => engine.jobs.get? rid = some job) rids before)
    (same : after.length = rids.length) (ok : JobsOk args (engine.putBatch rids after pools))
    (complete : ∀ job ∈ after, Complete args job.req)
    (moved : pools.cache.inflight + count (before.map fun job => inFlight args.rope job.req).sum =
      engine.pools.cache.inflight + count (after.map fun job => inFlight args.rope job.req).sum) :
    Exact args (engine.putBatch rids after pools) := by
  refine ⟨ok,putBatch_all exact.complete after pools complete,?_⟩
  have total := congrArg count (putBatch_total (fun job => inFlight args.rope job.req) pools distinct found same)
  simp only [map_add] at total
  refine add_right_cancel (b := count (before.map fun job => inFlight args.rope job.req).sum) ?_
  change pools.cache.inflight + _ = _
  rw [moved,exact.counted]
  exact total.symm

theorem prefilled_exact {before after : Req Hash} (prefilled : Prefilled args before after) (fresh : Unallocated before) :
    Complete args (commitPrompt after) ∧ inFlight args.rope (commitPrompt after) = givenHolding args.rope after := by
  obtain ⟨owned,freed⟩ := prefilled_unsettled prefilled fresh
  obtain ⟨assigned,⟨row,slot,rfl⟩,allocated⟩ := prefilled
  have frame := allocated.frame
  have none : settled (commitPrompt after) = [] := by simp [settled,commitPrompt,owned,freed]
  refine ⟨⟨fun rope seg miss found => ?_,fun _ => none⟩,?_⟩
  · rw [isSome_iff_ne_none]
    intro stateless
    have short := (allocated.ready seg miss found).mamba.mp stateless
    rw [rope] at short
    cases short.1
  · rw [inFlight,missTotal,none]
    rfl

theorem cached_inFlight (transition : args.isTransition = true) {now : Nat} {after : Req Hash} {pools final : Pools Hash}
    (running : Running args job.req) (none : settled job.req = [])
    (executed : cacheUnfinishedReq args now job.req pools = some (after,final)) :
    cachedAmount args now job.req pools + count (inFlight args.rope after) = count (inFlight args.rope job.req) := by
  obtain ⟨settles,-⟩ := cacheUnfinishedReq_ledger running.plainPub running.distinct executed
  have left := (cacheUnfinishedReq_inflight running.plainPub running.distinct executed).2 transition
  rw [missTotal_unsettled none] at left
  rw [inFlight,inFlight,map_add,map_add,settles.frame.hitPrivate,← left]
  abel

theorem Complete.cached {req after : Req Hash} (complete : Complete args req) (frame : CachedOnly req after)
    (unsettled : args.isTransition = false → settled after = []) : Complete args after :=
  ⟨fun rope => by rw [frame.slots]; exact complete.states rope,unsettled⟩

theorem cacheUnfinished_exact (exact : Exact args engine) {now : Nat} {after : Req Hash} {pools : Pools Hash}
    (found : engine.jobs.get? rid = some job) (running : Running args job.req) (none : settled job.req = [])
    (executed : cacheUnfinishedReq args now job.req engine.pools = some (after,pools))
    (counted : args.isTransition = true ∨ cacheable args job.req = []) (ok : JobsOk args (engine.putJob rid ⟨after,.cached⟩ pools)) :
    Exact args (engine.putJob rid ⟨after,.cached⟩ pools) ∧
      cachedAmount args now job.req engine.pools ≤ engine.pools.cache.inflight := by
  obtain ⟨settles,-⟩ := cacheUnfinishedReq_ledger running.plainPub running.distinct executed
  obtain ⟨taken,-⟩ := cacheUnfinishedReq_inflight running.plainPub running.distinct executed
  have bound := exact.le found
  by_cases transition : args.isTransition = true
  · have left := cached_inFlight transition running none executed
    have enough : cachedAmount args now job.req engine.pools ≤ engine.pools.cache.inflight := by
      rw [← left] at bound
      exact le_trans ⟨Nat.le_add_right ..,Nat.le_add_right ..⟩ bound
    refine ⟨exact.putJob found ok ((exact.complete rid job found).cached settles.frame (by simp [transition])) ?_,enough⟩
    have restored : engine.pools.cache.inflight - cachedAmount args now job.req engine.pools +
        cachedAmount args now job.req engine.pools = engine.pools.cache.inflight :=
      Prod.ext (Nat.sub_add_cancel enough.1) (Nat.sub_add_cancel enough.2)
    rw [taken,← left,← add_assoc,restored]
  · have addition : args.isTransition = false := by simpa using transition
    have nothing : cachedAmount args now job.req engine.pools = 0 := by simp [cachedAmount,addition]
    have empty : cacheable args job.req = [] := counted.resolve_left transition
    have unsettled : settled after = [] := by
      refine List.eq_nil_iff_forall_not_mem.mpr fun seg inside => ?_
      obtain ⟨chosen,member⟩ := settles.chosen seg inside
      have : seg ∈ cacheable args job.req := by simp [cacheable,member,chosen]
      simp [empty] at this
    have same : inFlight args.rope after = inFlight args.rope job.req := by
      rw [inFlight,inFlight,settles.frame.hitPrivate,missTotal,missTotal,unsettled,none,settles.frame.slots]
    rw [nothing,tsub_zero] at taken
    rw [nothing]
    refine ⟨exact.putJob found ok ((exact.complete rid job found).cached settles.frame fun _ => unsettled) ?_,
      ⟨Nat.zero_le _,Nat.zero_le _⟩⟩
    rw [taken,same]

/-- In addition mode the end takes off what the request got, whether or not it was cached just before. -/
theorem end_addition (addition : args.isTransition = false) {req mid : Req Hash} (running : Running args req)
    (none : settled req = []) (frame : CachedOnly req mid) : endAmount args mid = count (inFlight args.rope req) := by
  have plain : args.rope = false := by
    by_contra rope
    rw [args.isTransition_of_rope (by simpa using rope)] at addition
    cases addition
  have copies : hitPrivate req = [] := by rw [hitPrivate,running.copies plain]; rfl
  have given : missTotal args.rope (unsettledReq mid) = missTotal args.rope req := by
    rw [← missTotal_unsettled none,missTotal,missTotal]
    change Dict.total _ mid.picMissSegmentSlots = Dict.total _ req.picMissSegmentSlots
    rw [frame.slots]
    rfl
  rw [endAmount_addition addition,given,inFlight,copies]
  simp

theorem finish_inflight (exact : Exact args engine) {now : Nat} {isInsert : Bool} {mid : Req Hash} {midPools freed : Pools Hash}
    (here : engine.jobAt [.prefilled,.cached] rid = some job) (balanced : EndBalanced args engine.pools.cache job isInsert)
    (cached : CachedAtEnd args now isInsert job.req engine.pools mid midPools) (ended : Ended args mid midPools freed) :
    removed args engine (.finish rid now isInsert) = count (inFlight args.rope job.req) ∧
      freed.cache.inflight = engine.pools.cache.inflight - count (inFlight args.rope job.req) := by
  obtain ⟨found,stage⟩ := jobAt_some here
  have running := running_of_stage exact.ok found stage
  have complete := exact.complete rid job found
  have taken := ended.inflight
  obtain ⟨midRunning,inside,agreed⟩ := cachedAtEnd_settled exact.ok found stage cached
  obtain ⟨short,all⟩ := agreed balanced
  have atEnd (transition : args.isTransition = true) (frame : CachedOnly job.req mid) :
      endAmount args mid = count (inFlight args.rope mid) :=
    endAmount_transition transition midRunning (by rw [frame.slots]; exact complete.states)
      (unsettled_global midRunning inside) (leaked_none midRunning short all)
  unfold CachedAtEnd at cached
  split at cached
  · rename_i insert
    subst insert
    have none := settled_at_insert exact.ok here balanced
    obtain ⟨settles,-⟩ := cacheUnfinishedReq_ledger running.plainPub running.distinct cached
    obtain ⟨cachedTaken,-⟩ := cacheUnfinishedReq_inflight running.plainPub running.distinct cached
    have both : cachedAmount args now job.req engine.pools + endAmount args mid = count (inFlight args.rope job.req) := by
      by_cases transition : args.isTransition = true
      · rw [atEnd transition settles.frame]
        exact cached_inFlight transition running none cached
      · have addition : args.isTransition = false := by simpa using transition
        rw [end_addition addition running none settles.frame,cachedAmount,if_neg transition,zero_add]
    refine ⟨by simp [removed,here,cached,both],?_⟩
    rw [taken,cachedTaken,tsub_tsub,both]
  · rename_i keep
    obtain ⟨rfl,rfl⟩ := cached
    have all : endAmount args job.req = count (inFlight args.rope job.req) := by
      by_cases transition : args.isTransition = true
      · exact atEnd transition (CachedOnly.refl _)
      · have addition : args.isTransition = false := by simpa using transition
        exact end_addition addition running (complete.unsettled addition) (CachedOnly.refl _)
    exact ⟨by simp [removed,here,keep,all],by rw [taken,all]⟩

theorem step_exact (exact : Exact args engine) {action : Action} (accounted : Accounted args engine action)
    (stepped : step args engine action = some next) :
    Exact args next ∧ removed args engine action ≤ engine.pools.cache.inflight := by
  have nothing : (0 : ℕ × ℕ) ≤ engine.pools.cache.inflight := ⟨Nat.zero_le _,Nat.zero_le _⟩
  have ok := step_ok exact.ok stepped
  cases step_stepped exact.ok stepped with
  | arrive absent created =>
    have fresh := created.2.2.1
    refine ⟨⟨ok,putJob_all exact.complete _ _ (complete_unallocated fresh),?_⟩,nothing⟩
    rw [inFlightTotal,Engine.putJob,Dict.total_set_absent _ _ absent,inFlight_unallocated fresh,zero_add]
    exact exact.counted
  | @matchPrefix rid now job found stage consecutive nonempty fresh ordinary =>
    have after := initNextRoundInput_unallocated args now engine.pools.cache fresh
    refine ⟨exact.putJob found ok (complete_unallocated after) ?_,nothing⟩
    rw [inFlight_unallocated after,inFlight_unallocated fresh]
    exact congrArg (· + _) (initNextRoundInput_inflight args now job.req engine.pools.cache)
  | incLockRef job here found stage known =>
    exact ⟨exact.putJob found ok (exact.complete _ job found)
      (congrArg (· + _) (incLockRef_inflight job.req engine.pools.cache)),nothing⟩
  | allocForExtend jobs extended batch distinct found admitted allocated ready prefilled =>
    have each (after : Req Hash) (member : after ∈ extended.reqs) : Complete args (commitPrompt after) ∧
        inFlight args.rope (commitPrompt after) = givenHolding args.rope after := by
      obtain ⟨before,inside,related⟩ := exists_left prefilled member
      exact prefilled_exact related (ready before inside).2
    refine ⟨exact.putBatch distinct found ?_ ok ?_ ?_,nothing⟩
    · rw [List.length_map,← prefilled.length_eq,List.length_map,found.length_eq]
    · intro job member
      obtain ⟨after,inside,rfl⟩ := List.mem_map.mp member
      exact (each after inside).1
    · have before : (jobs.map fun job => inFlight args.rope job.req).sum = 0 := by
        refine List.sum_eq_zero fun holding member => ?_
        obtain ⟨job,inside,rfl⟩ := List.mem_map.mp member
        exact inFlight_unallocated (ready job.req (List.mem_map_of_mem inside)).2
      rw [before,map_zero,add_zero,picAllocForExtend_inflight ready allocated,map_list_sum,List.map_map,List.map_map]
      refine congrArg (_ + List.sum ·) (List.map_congr_left fun req member => ?_)
      exact congrArg count (each req member).2.symm
  | @cacheUnfinished rid now job after pools here found stage running unsettled executed =>
    have amount : removed args engine (.cacheUnfinished rid now) = cachedAmount args now job.req engine.pools := by
      simp [removed,here]
    rw [amount]
    exact cacheUnfinished_exact exact found running unsettled executed (accounted.2 job here) ok
  | allocForDecode jobs slots pools distinct found running lengths allocated =>
    refine ⟨exact.putBatch distinct found ?_ ok ?_ ?_,nothing⟩
    · rw [List.length_map,List.length_zip,← lengths,found.length_eq,Nat.min_self]
    · intro job member
      obtain ⟨⟨before,slot⟩,inside,rfl⟩ := List.mem_map.mp member
      obtain ⟨rid,-,present⟩ := exists_left found (List.of_mem_zip inside).1
      obtain ⟨states,unsettled⟩ := exact.complete rid before present
      exact ⟨states,unsettled⟩
    · have same : (((jobs.zip slots).map fun item => appendToken item.1 item.2).map fun job => inFlight args.rope job.req) =
          jobs.map fun job => inFlight args.rope job.req := by
        conv_rhs => rw [← List.map_fst_zip (Nat.le_of_eq lengths)]
        rw [List.map_map,List.map_map]
        rfl
      rw [same]
      exact congrArg (· + _) (Pools.allocTokenSlots_inflight allocated)
  | @finish rid now isInsert job mid final midPools freed here found stage running cached ended =>
    obtain ⟨amount,left⟩ := finish_inflight exact here (accounted job here) cached ended
    refine ⟨⟨ok,eraseJob_all exact.complete rid,?_⟩,amount ▸ exact.le found⟩
    change freed.cache.inflight = count ((engine.jobs.erase rid).total _)
    rw [left,exact.counted,inFlightTotal,Dict.total_of_get? _ found,map_add]
    exact Prod.ext (Nat.add_sub_cancel_left ..) (Nat.add_sub_cancel_left ..)
  | evict => exact ⟨⟨ok,exact.complete,(engine.pools.evict_inflight _ _).trans exact.counted⟩,nothing⟩

end Steps

/-! ### The memory check -/

/-- `total_size`: tokens of all entries. -/
def totalSize (cache : PICache Hash) : Nat := (cache.entries.values.map fun entry => entry.fullKvSlots.length).sum

/-- `_check_pic_memory`: what the pools' sizes exceed the accounted slots by. -/
def checkPicMemory (kvSize mambaSize : Nat) (pools : Pools Hash) : ℤ × ℤ :=
  let fullAccounted := pools.kv.availableSize + totalSize pools.cache + pools.cache.inflightFullTokens
  let mambaAccounted := pools.mamba.availableSize + pools.cache.entries.values.length + pools.cache.inflightMambaSlots
  ((kvSize : ℤ) - fullAccounted,(mambaSize : ℤ) - mambaAccounted)

/-- Slots of decoded tokens and of the requests' running states, which the check leaves out. -/
def decoding (engine : Engine Hash) : Holding := engine.jobs.total fun item =>
  kvHolding (decodeSlots false item.2.req) + mambaHolding item.2.req.mambaPoolIdx.toList

theorem count_ledger (pools : Pools Hash) : count pools.ledger =
    (pools.kv.availableSize + totalSize pools.cache,pools.mamba.availableSize + pools.cache.entries.values.length) := by
  have entries (items : List (Hash × SegmentEntry Hash)) : count (items.map fun item => item.2.holding).sum =
      ((items.map fun item => item.2.fullKvSlots.length).sum,items.length) := by
    induction items with
    | nil => rfl
    | cons item rest ih =>
      rw [List.map_cons,List.sum_cons,map_add,ih,SegmentEntry.holding,map_add,count_kvHolding,count_mambaHolding]
      ext <;> simp [Nat.add_comm]
  rw [Pools.ledger,PICache.holding,map_add,map_add,Dict.total,entries]
  simp [totalSize,Dict.values,TokenToKVPoolAllocator.slots_length,MambaSlotAllocator.availableSize,comp_def]

theorem ledger_parts (args : ServerArgs Hash) (engine : Engine Hash) :
    ledger args engine = engine.pools.ledger + inFlightTotal args engine + decoding engine := by
  rw [ledger,inFlightTotal,decoding,add_assoc,← Dict.total_add]
  refine congrArg (engine.pools.ledger + ·) (Dict.total_congr _ _ _ fun rid job _ => ?_)
  simp only [held,inFlight]
  abel

/-- The prompt ends with `is_insert` while a second one is in flight. -/
def insertedTwiceRun : List Action := cachedRun.take 5 ++
  [.arrive 1 [[3],[4]] 1,.matchPrefix 1 3,.incLockRef 1,.allocForExtend [1],.finish 0 4 true]

end Hypic.Inflight
