import Hypic.Ownership

/-! No free slot is in use: the free lists hold no slot twice, no entry's slot and no slot of a live
    row. A row may point at slots the request does not own, those of the entries it refers to. -/

namespace Hypic.Rows
open Policy Allocator Cache Request Alloc Release Runs Custody Handover Scheduler Ownership List Option Dict Option
universe u
variable {Hash : Type u} [DecidableEq Hash]

/-- The committed part of a request's row. -/
def liveRow (req : Req Hash) : List Slot := req.rowSlice 0 req.kvCommittedLen

/-- Both free lists are clean: no duplicates, nothing an entry of the index or a live row still uses. -/
def FreeUnused (engine : Engine Hash) : Prop :=
  let entries := engine.pools.cache.entries.values
  engine.pools.kv.slots.Nodup ∧
    (∀ entry ∈ entries, ∀ slot ∈ entry.fullKvSlots, slot ∉ engine.pools.kv.slots) ∧
    (∀ item ∈ engine.jobs.items, ∀ slot ∈ liveRow item.2.req, slot ∉ engine.pools.kv.slots) ∧
    engine.pools.mamba.freeSlots.Nodup ∧
    ∀ entry ∈ entries, entry.mambaStateSlot ∉ engine.pools.mamba.freeSlots

instance (engine : Engine Hash) : Decidable (FreeUnused engine) := inferInstanceAs (Decidable (_ ∧ _))

/-- The scheduler's order: decoding and the end come after caching, and the end inserts. -/
def InOrder (engine : Engine Hash) : Action → Prop
  | .allocForDecode rids => ∀ rid ∈ rids, (engine.jobAt [.cached] rid).isSome = true
  | .finish rid _ isInsert => (engine.jobAt [.cached] rid).isSome = true ∧ isInsert = true
  | _ => True

/-- Caching will only insert: no cacheable miss is in the index, nor twice in the prompt. -/
def Novel (args : ServerArgs Hash) (req : Req Hash) (cache : PICache Hash) : Prop :=
  (∀ seg ∈ cacheable args req, cache.entries.get? (req.segmentHash args seg) = none) ∧
    ((cacheable args req).map (req.segmentHash args)).Nodup

/-- Every entry that an admitted request refers to is locked. -/
def Protected (engine : Engine Hash) : Prop :=
  ∀ item ∈ engine.jobs.items, item.2.stage ∈ [Stage.admitted,.prefilled,.cached] →
    ∀ entry ∈ item.2.req.picSegmentEntries.values, 0 < engine.pools.cache.lockRef entry

/-- The free lists cover a prefill batch without an eviction. -/
def Ample (args : ServerArgs Hash) (pools : Pools Hash) (reqs : List (Req Hash)) : Prop :=
  kvNeed args reqs ≤ pools.kv.availableSize ∧ reqs.length * mambaStatePerReqPrefixCache ≤ pools.mamba.availableSize ∧
    reqs.length + (reqs.map fun req => req.picMissSegments.length).sum ≤ pools.mamba.availableSize

/-- When the free lists stay clean. Outside the rope modes a row points into entries: they must be there
    at admission, be new when the request caches its own, and be locked whenever an eviction can run. -/
def Careful (args : ServerArgs Hash) (engine : Engine Hash) : Action → Prop
  | .incLockRef rid => args.rope = false → ∀ job ∈ engine.jobAt [.matched] rid, Held job.req engine.pools.cache
  | .allocForExtend rids => args.rope = false → Protected engine ∨
      ∀ jobs ∈ engine.batchAt [.admitted] rids, Ample args engine.pools (jobs.map Job.req)
  | .cacheUnfinished rid _ => args.rope = false → ∀ job ∈ engine.jobAt [.prefilled] rid, Novel args job.req engine.pools.cache
  | .allocForDecode rids => args.rope = false → Protected engine ∨ rids.length ≤ engine.pools.kv.availableSize
  | .finish rid _ _ => ∀ job ∈ engine.jobAt [.cached] rid, cacheable args job.req = []
  | .evict _ _ => args.rope = false → Protected engine
  | _ => True

section Decide
variable (args : ServerArgs Hash) (engine : Engine Hash)

instance (req : Req Hash) (cache : PICache Hash) : Decidable (Held req cache) :=
  decidable_of_iff (∀ item ∈ req.picSegmentEntries.items, cache.entries.get? item.1 = some item.2) <| by
    constructor
    · intro all segHash entry found
      exact all (segHash,entry) ((Dict.get?_eq_some ..).mp found)
    · intro held item member
      exact held item.1 item.2 ((Dict.get?_eq_some ..).mpr member)
instance (req : Req Hash) (cache : PICache Hash) : Decidable (Novel args req cache) := inferInstanceAs (Decidable (_ ∧ _))
instance : Decidable (Protected engine) := inferInstanceAs (Decidable (∀ item ∈ engine.jobs.items, _))
instance (pools : Pools Hash) (reqs : List (Req Hash)) : Decidable (Ample args pools reqs) :=
  inferInstanceAs (Decidable (_ ∧ _))

instance : (action : Action) → Decidable (InOrder engine action)
  | .allocForDecode rids => inferInstanceAs (Decidable (∀ rid ∈ rids, _))
  | .finish .. => inferInstanceAs (Decidable (_ ∧ _))
  | .arrive .. | .matchPrefix .. | .incLockRef .. | .allocForExtend .. | .cacheUnfinished .. | .evict .. => isTrue trivial

instance : (action : Action) → Decidable (Careful args engine action)
  | .incLockRef rid => inferInstanceAs (Decidable (_ → ∀ job ∈ engine.jobAt [.matched] rid, _))
  | .allocForExtend rids => inferInstanceAs (Decidable (_ → Protected engine ∨ ∀ jobs ∈ engine.batchAt [.admitted] rids, _))
  | .cacheUnfinished rid _ => inferInstanceAs (Decidable (_ → ∀ job ∈ engine.jobAt [.prefilled] rid, _))
  | .allocForDecode _ => inferInstanceAs (Decidable (_ → _ ∨ _))
  | .finish rid _ _ => inferInstanceAs (Decidable (∀ job ∈ engine.jobAt [.cached] rid, _))
  | .evict _ _ => inferInstanceAs (Decidable (_ → _))
  | .arrive .. | .matchPrefix .. => isTrue trivial
end Decide

/-- The slots of a row that caching leaves with the request: in rope modes all its private copies. -/
def privateSlots (rope : Bool) (req : Req Hash) : Multiset Slot :=
  if rope then ((req.picMissSegmentSlots.total fun item => kvHolding item.2.kv) + kvHolding (hitPrivate req) +
    kvHolding (decodeSlots false req)).1
  else (held rope req).1

/-- A row position points at a slot of the request's own, or of an entry it refers to. -/
def Backed (args : ServerArgs Hash) (req : Req Hash) (pos : Nat) : Prop :=
  req.reqToToken pos ∈ privateSlots args.rope req ∨
    args.rope = false ∧ ∃ entry ∈ req.picSegmentEntries.values, req.reqToToken pos ∈ entry.fullKvSlots

/-- One request's share of the invariant. -/
structure JobSafe (args : ServerArgs Hash) (cache : PICache Hash) (job : Job Hash) : Prop where
  held : args.rope = false → job.stage ∈ [Stage.admitted,.prefilled,.cached] → Held job.req cache
  backed : ∀ pos < job.req.kvCommittedLen, Backed args job.req pos
  lengths : ∀ seg miss, job.req.picMissSegmentSlots.get? seg = some miss → miss.kv.length = seg.2 - seg.1

/-- Every entry has a slot for each of its tokens. -/
def Sized (cache : PICache Hash) : Prop :=
  ∀ key entry, cache.entries.get? key = some entry → entry.fullKvSlots.length = entry.tokenIds.length

/-- What every careful step keeps. -/
structure Safe (args : ServerArgs Hash) (engine : Engine Hash) : Prop where
  ok : JobsOk args engine
  unshared : Unshared (ledger args engine)
  sized : args.rope = false → Sized engine.pools.cache
  jobs : ∀ rid job, engine.jobs.get? rid = some job → JobSafe args engine.pools.cache job

section Consequences
variable {args : ServerArgs Hash} {engine : Engine Hash}

theorem privateSlots_le (args : ServerArgs Hash) (req : Req Hash) : privateSlots args.rope req ≤ (held args.rope req).1 := by
  unfold privateSlots
  split
  · rename_i rope
    have split : missTotal args.rope req = (req.picMissSegmentSlots.total fun item => kvHolding item.2.kv) +
        req.picMissSegmentSlots.total fun item =>
          if item.1 ∈ settled req then 0 else kvHolding (item.2.pub.getD []) + mambaHolding item.2.mamba.toList := by
      rw [missTotal,← total_add]
      exact total_congr _ _ _ fun seg miss _ => by simp [missHolding,rope]
    have whole : held args.rope req = (req.picMissSegmentSlots.total fun item => kvHolding item.2.kv) +
        kvHolding (hitPrivate req) + kvHolding (decodeSlots false req) + (mambaHolding req.mambaPoolIdx.toList +
          req.picMissSegmentSlots.total fun item =>
            if item.1 ∈ settled req then 0 else kvHolding (item.2.pub.getD []) + mambaHolding item.2.mamba.toList) := by
      rw [held,split]; abel
    rw [whole]
    exact Multiset.le_add_right _ _
  · exact le_refl _

theorem held_not_free (unshared : Unshared (ledger args engine)) {rid : Nat} {job : Job Hash}
    (found : engine.jobs.get? rid = some job) {slot : Slot} (owned : slot ∈ (held args.rope job.req).1) :
    slot ∉ engine.pools.kv.slots := by
  intro free
  have inPools : slot ∈ engine.pools.ledger.1 := by simp [Pools.ledger,free]
  have inJobs : slot ∈ (engine.jobs.total fun item => held args.rope item.2.req).1 := by
    rw [total_of_get? _ found]
    exact mem_add.mpr (.inl owned)
  exact unshared.fst_disjoint inPools inJobs

theorem entry_not_free (unshared : Unshared (ledger args engine)) {key : Hash} {entry : SegmentEntry Hash}
    (found : engine.pools.cache.entries.get? key = some entry) :
    (∀ slot ∈ entry.fullKvSlots, slot ∉ engine.pools.kv.slots) ∧
      entry.mambaStateSlot ∉ engine.pools.mamba.freeSlots := by
  have pools : Unshared (kvHolding engine.pools.kv.slots + mambaHolding engine.pools.mamba.freeSlots +
      engine.pools.cache.holding) := unshared.left
  obtain ⟨rest,whole⟩ := engine.pools.cache.holding_of_get? found
  rw [whole] at pools
  constructor
  · intro slot inside free
    have inFree : slot ∈ (kvHolding engine.pools.kv.slots + mambaHolding engine.pools.mamba.freeSlots).1 := by simp [free]
    have inEntry : slot ∈ (entry.holding + rest).1 := by simp [SegmentEntry.holding,inside]
    exact pools.fst_disjoint inFree inEntry
  · intro free
    have inFree : entry.mambaStateSlot ∈ (kvHolding engine.pools.kv.slots + mambaHolding engine.pools.mamba.freeSlots).2 := by
      simp [free]
    have inEntry : entry.mambaStateSlot ∈ (entry.holding + rest).2 := by simp [SegmentEntry.holding]
    exact pools.snd_disjoint inFree inEntry

theorem admitted_of_committed (ok : JobsOk args engine) {rid : Nat} {job : Job Hash}
    (found : engine.jobs.get? rid = some job) (committed : 0 < job.req.kvCommittedLen) :
    job.stage ∈ [Stage.admitted,.prefilled,.cached] := by
  have known := ok rid job found
  cases stage : job.stage with
  | waiting =>
    simp only [JobOk,stage] at known
    have := known.2.2.1.committed
    omega
  | matched =>
    simp only [JobOk,stage] at known
    have := known.2.2.1.committed
    omega
  | admitted | prefilled | cached => simp

theorem Safe.freeUnused (safe : Safe args engine) : FreeUnused engine := by
  have entry {entry : SegmentEntry Hash} (member : entry ∈ engine.pools.cache.entries.values) :
      ∃ key, engine.pools.cache.entries.get? key = some entry := (mem_values ..).mp member
  have free : Unshared (kvHolding engine.pools.kv.slots + mambaHolding engine.pools.mamba.freeSlots) :=
    (show Unshared (_ + engine.pools.cache.holding) from safe.unshared.left).left
  refine ⟨?_,?_,?_,?_,?_⟩
  · simpa using free.1
  · intro found member
    obtain ⟨key,present⟩ := entry member
    exact (entry_not_free safe.unshared present).1
  · intro item member slot live
    have found : engine.jobs.get? item.1 = some item.2 := (get?_eq_some ..).mpr member
    obtain ⟨pos,range,rfl⟩ := mem_map.mp live
    have committed : pos < item.2.req.kvCommittedLen := by
      have := mem_range'_1.mp range; omega
    have known := safe.jobs item.1 item.2 found
    rcases known.backed pos committed with own | ⟨plain,referred,inside,slot⟩
    · exact held_not_free safe.unshared found (Multiset.mem_of_le (privateSlots_le args _) own)
    · have stage := admitted_of_committed safe.ok found (by omega)
      obtain ⟨key,present⟩ := (mem_values ..).mp inside
      exact (entry_not_free safe.unshared (known.held plain stage key referred present)).1 _ slot
  · simpa using free.2
  · intro found member
    obtain ⟨key,present⟩ := entry member
    exact (entry_not_free safe.unshared present).2
end Consequences

section Ample
variable {args : ServerArgs Hash}

theorem allocOneMamba_ample {pools after : Pools Hash} {slot : Slot} (enough : 0 < pools.mamba.freeSlots.length)
    (allocated : pools.allocOneMamba = some (slot,after)) :
    after.cache = pools.cache ∧ after.mamba.freeSlots.length + 1 = pools.mamba.freeSlots.length := by
  cases available : pools.mamba.freeSlots with
  | nil => simp [available] at enough
  | cons head rest =>
    have direct := pools.mamba.allocOne_cons available
    simp only [Pools.allocOneMamba,direct,some.injEq,Prod.mk.injEq] at allocated
    obtain ⟨rfl,rfl⟩ := allocated
    exact ⟨rfl,by simp⟩

theorem allocTokenSlots_ample {pools after : Pools Hash} {numTokens : Nat} {taken : List Slot}
    (enough : numTokens ≤ pools.kv.availableSize) (allocated : pools.allocTokenSlots numTokens = some (taken,after)) :
    after.cache = pools.cache ∧ after.mamba = pools.mamba := by
  have idle : pools.evictFromTreeCache numTokens = pools := if_neg (by omega)
  simp only [Pools.allocTokenSlots,idle] at allocated
  obtain ⟨⟨slots,kv⟩,-,same⟩ := map_eq_some_iff.mp allocated
  cases same
  exact ⟨rfl,rfl⟩

/-- Misses are served from the free list while it lasts; `extra` states are left for later requests. -/
theorem allocReq_ample {cursor : Cursor Hash} {req : Req Hash} {walk : Walk Hash} {extra : Nat}
    (enough : extra + req.picMissSegments.length ≤ cursor.pools.mamba.freeSlots.length)
    (executed : allocReq args cursor req = some walk) :
    walk.pools.cache = cursor.pools.cache ∧ extra ≤ walk.pools.mamba.freeSlots.length := by
  rw [allocReq_eq] at executed
  obtain ⟨hitsDone,hitsRun,missesRun⟩ := bind_eq_some_iff.mp executed
  have same : hitsDone.pools = cursor.pools := by
    refine foldlM_keeps (fun state _ => state.pools = cursor.pools) (fun state hit _ next inv stepped => ?_)
      (congrArg Cursor.pools (startWalk_frame args cursor req).1) hitsRun
    exact (congrArg Cursor.pools (writeHit_frame stepped).1).trans inv
  rw [← same] at enough ⊢
  refine foldlM_keeps (fun state remaining => state.pools.cache = hitsDone.pools.cache ∧
    extra + remaining.length ≤ state.pools.mamba.freeSlots.length) ?_ ⟨rfl,enough⟩ missesRun
  rintro state seg rest next ⟨same,left⟩ stepped
  rw [length_cons] at left
  obtain ⟨withPub,mamba,pools,rfl,records⟩ := allocMiss_records stepped
  rcases records.pools with ⟨-,rfl⟩ | ⟨slot,-,allocated⟩
  · exact ⟨same,by change _ ≤ state.pools.mamba.freeSlots.length; omega⟩
  · obtain ⟨cache,used⟩ := allocOneMamba_ample (by omega) allocated
    exact ⟨cache.trans same,by change _ ≤ pools.mamba.freeSlots.length; omega⟩

theorem allocReqs_ample {reqs : List (Req Hash)} {cursor final : Cursor Hash} {walks : List (Walk Hash)}
    (enough : (reqs.map fun req => req.picMissSegments.length).sum ≤ cursor.pools.mamba.freeSlots.length)
    (executed : allocReqs (allocReq args) reqs cursor = some (walks,final)) : final.pools.cache = cursor.pools.cache := by
  induction reqs generalizing cursor walks with
  | nil =>
    simp only [allocReqs,some.injEq,Prod.mk.injEq] at executed
    rw [executed.2]
  | cons req rest ih =>
    simp only [allocReqs] at executed
    obtain ⟨walk,here,executed⟩ := bind_eq_some_iff.mp executed
    obtain ⟨⟨laterWalks,last⟩,later,same⟩ := map_eq_some_iff.mp executed
    cases same
    rw [map_cons,sum_cons,Nat.add_comm] at enough
    obtain ⟨cache,left⟩ := allocReq_ample enough here
    exact (ih left later).trans cache

private theorem assignMamba_length {reqs done : List (Req Hash)} {mamba after : MambaSlotAllocator}
    (executed : assignMamba reqs mamba = some (done,after)) :
    mamba.freeSlots.length ≤ after.freeSlots.length + done.length := by
  induction reqs generalizing mamba done with
  | nil =>
    simp only [assignMamba,some.injEq,Prod.mk.injEq] at executed
    simp [executed.2]
  | cons req rest ih =>
    unfold assignMamba at executed
    split at executed
    · obtain ⟨⟨later,last⟩,laterRun,same⟩ := map_eq_some_iff.mp executed
      cases same
      have := ih laterRun
      simp only [length_cons]; omega
    · obtain ⟨⟨slot,taken⟩,allocated,executed⟩ := bind_eq_some_iff.mp executed
      obtain ⟨⟨later,last⟩,laterRun,same⟩ := map_eq_some_iff.mp executed
      cases same
      have := ih laterRun
      rw [MambaSlotAllocator.allocOne_slots allocated]
      simp only [length_cons]; omega

theorem picAllocForExtend_ample {pools : Pools Hash} {reqs : List (Req Hash)} {extended : Extended Hash}
    (fresh : ∀ req ∈ reqs, Unallocated req) (ample : Ample args pools reqs)
    (executed : picAllocForExtend args pools reqs = some extended) :
    extended.pools.cache.entries = pools.cache.entries := by
  obtain ⟨enoughKv,reserved,enoughMamba⟩ := ample
  obtain ⟨done,slotted,funded,slots,start,last,walks,totalTokens,run,-⟩ := picAllocForExtend_run executed
  obtain ⟨out,rfl⟩ := run.finish
  obtain ⟨assigned,-,-⟩ := allocReqSlots_spec fresh run.rows
  have misses := assigned_sum assigned (fun req => req.picMissSegments.length) fun _ _ _ => rfl
  have need : kvNeed args done = kvNeed args reqs := kvNeed_assigned assigned
  have rows := run.rows
  have idle : reserveMamba pools reqs.length = pools := if_neg (by omega)
  simp only [allocReqSlots,idle] at rows
  obtain ⟨⟨rowed,free⟩,rowRun,rows⟩ := bind_eq_some_iff.mp rows
  obtain ⟨⟨given,mamba⟩,mambaRun,same⟩ := map_eq_some_iff.mp rows
  cases same
  have used := assignMamba_length mambaRun
  have length : given.length = reqs.length := assigned.length_eq.symm
  obtain ⟨cache,states⟩ := allocTokenSlots_ample (by rw [run.total,need]; exact enoughKv) run.kv
  have left : (given.map fun req => req.picMissSegments.length).sum ≤ start.pools.mamba.freeSlots.length := by
    rw [run.pools,states,misses]
    change _ ≤ mamba.freeSlots.length
    have total : reqs.length + (reqs.map fun req => req.picMissSegments.length).sum ≤ pools.mamba.freeSlots.length := enoughMamba
    omega
  have walked := allocReqs_ample left run.walked
  rw [run.pools,cache] at walked
  have entries : last.pools.cache.entries = pools.cache.entries := congrArg PICache.entries walked
  exact entries
end Ample

section Jobs
variable {args : ServerArgs Hash} {before after : PICache Hash} {job : Job Hash}

theorem JobSafe.keeps (safe : JobSafe args before job)
    (kept : args.rope = false → job.stage ∈ [Stage.admitted,.prefilled,.cached] → Held job.req before → Held job.req after) :
    JobSafe args after job :=
  ⟨fun plain stage => kept plain stage (safe.held plain stage),safe.backed,safe.lengths⟩

theorem held_evicts {pools evicted : Pools Hash} (evicts : Pools.Evicts pools evicted) {req : Req Hash}
    (locked : ∀ entry ∈ req.picSegmentEntries.values, 0 < pools.cache.lockRef entry) (held : Held req pools.cache) :
    Held req evicted.cache := by
  intro segHash entry found
  exact evicts.locked segHash entry (held segHash entry found) (locked entry (mem_values_of_get? found))

theorem unallocated_safe {req : Req Hash} {stage : Stage} (fresh : Unallocated req)
    (held : args.rope = false → stage ∈ [Stage.admitted,.prefilled,.cached] → Held req before) :
    JobSafe args before ⟨req,stage⟩ := by
  refine ⟨held,?_,?_⟩
  · intro pos committed
    have nothing := fresh.committed
    simp only at committed
    omega
  · intro seg miss found
    rw [fresh.misses] at found
    simp at found

theorem mem_privateSlots {req : Req Hash} {seg : Seg} {miss : MissSlots} {slot : Slot}
    (found : req.picMissSegmentSlots.get? seg = some miss) (unsettled : settled req = []) (inside : slot ∈ miss.kv) :
    slot ∈ privateSlots args.rope req := by
  unfold privateSlots
  split
  · rw [total_of_get? _ found]
    simp [inside]
  · rename_i plain
    have plain : args.rope = false := by simpa using plain
    rw [held,missTotal,total_of_get? _ found]
    simp [missHolding,unsettled,inside]

private theorem getD_inside {slots : List Slot} {index : Nat} (bound : index < slots.length) : slots.getD index 0 ∈ slots := by
  simp [List.getD,bound]

theorem prefilled_safe {before after : Req Hash} {cache : PICache Hash} (matched : Matched args before)
    (fresh : Unallocated before) (held : args.rope = false → Held before cache) (sized : args.rope = false → Sized cache)
    (prefilled : Prefilled args before after) : JobSafe args cache ⟨commitPrompt after,.prefilled⟩ := by
  obtain ⟨owned,freed⟩ := prefilled_unsettled prefilled fresh
  obtain ⟨assigned,⟨row,slot,rfl⟩,allocated⟩ := prefilled
  have frame := allocated.frame
  have entries : after.picSegmentEntries = before.picSegmentEntries := (congrArg Req.picSegmentEntries frame).trans rfl
  have ids : after.originInputIds = before.originInputIds := (congrArg Req.originInputIds frame).trans rfl
  have unsettled : settled (commitPrompt after) = [] := by simp [settled,commitPrompt,owned,freed]
  refine ⟨?_,?_,?_⟩
  · intro plain _ segHash entry found
    simp only [commitPrompt,entries] at found
    exact held plain segHash entry found
  · intro pos committed
    simp only [commitPrompt,ids] at committed
    obtain ⟨seg,member,inside⟩ := matched.consecutive.covers (Nat.zero_le pos) committed
    rcases matched.cover seg member with missed | hit
    · obtain ⟨miss,found⟩ := isSome_iff_exists.mp ((allocated.misses seg).mp missed)
      exact .inl (mem_privateSlots found unsettled ((allocated.ready seg miss found).row.mem inside.1 inside.2))
    · obtain ⟨⟨_,segHash⟩,listed,rfl⟩ := mem_map.mp hit
      have written := allocated.hits _ listed
      unfold HitRow at written
      split at written
      · rename_i rope
        obtain ⟨copy,found,row⟩ := written
        refine .inl ?_
        rw [privateSlots,if_pos rope]
        have copied : (commitPrompt after).reqToToken pos ∈ hitPrivate (commitPrompt after) :=
          mem_flatMap.mpr ⟨copy,mem_values_of_get? found,row.mem inside.1 inside.2⟩
        simp [copied]
      · rename_i plain
        have plain : args.rope = false := by simpa using plain
        obtain ⟨entry,found,row⟩ := written
        refine .inr ⟨plain,entry,mem_values_of_get? found,?_⟩
        rw [entries] at found
        obtain ⟨-,-,other,present,tokens⟩ := matched.found _ segHash listed
        rw [found,some.injEq] at present
        subst present
        have bounds := matched.consecutive.mem_bounds member
        have length := sized plain segHash entry (held plain segHash entry found)
        rw [tokens,segmentIds_length _ _ bounds.2.2] at length
        change after.reqToToken pos ∈ entry.fullKvSlots
        rw [row pos inside.1 inside.2]
        exact getD_inside (by simp only at inside length ⊢; omega)
  · intro seg miss found
    exact (allocated.ready seg miss found).row.1

theorem appendToken_safe {cache : PICache Hash} (slot : Slot) (running : Running args job.req) (here : JobOk args job)
    (stage : job.stage ∈ [Stage.prefilled,Stage.cached]) (safe : JobSafe args cache job) :
    JobSafe args cache (appendToken job slot) := by
  obtain ⟨-,decode⟩ := decodeSlots_appendToken slot running
  obtain ⟨-,owned⟩ := appendToken_ok slot running here stage
  have grown : privateSlots args.rope (appendToken job slot).req = privateSlots args.rope job.req + {slot} := by
    unfold privateSlots
    split
    · rw [decode,kvHolding_append,← add_assoc]
      rfl
    · rw [owned,add_comm]
      rfl
  refine ⟨safe.held,?_,safe.lengths⟩
  intro pos committed
  have row : (appendToken job slot).req.reqToToken pos =
      if job.req.kvCommittedLen ≤ pos ∧ pos < job.req.kvCommittedLen + 1 then
        [slot].getD (pos - job.req.kvCommittedLen) 0 else job.req.reqToToken pos := rfl
  by_cases last : pos = job.req.kvCommittedLen
  · refine .inl ?_
    rw [row,if_pos ⟨by omega,by omega⟩,grown]
    simp [last]
  · have earlier : pos < job.req.kvCommittedLen := by
      simp only [appendToken] at committed; omega
    rw [if_neg (by omega)] at row
    rcases safe.backed pos earlier with own | ⟨plain,entry,member,inside⟩
    · refine .inl ?_
      rw [row,grown]
      exact mem_add.mpr (.inl own)
    · refine .inr ⟨plain,entry,member,?_⟩
      rw [row]
      exact inside
end Jobs

/-- The caching loop of a request whose cacheable misses are new to the index: every slot it gives
    away is one of an entry it then refers to. -/
structure InsertLoop (args : ServerArgs Hash) (start state : Caching Hash) (remaining : List Seg) : Prop where
  frame : CachedOnly start.req state.req
  held : Held state.req state.pools.cache
  grown : ∀ key entry, start.pools.cache.entries.get? key = some entry → state.pools.cache.entries.get? key = some entry
  sized : Sized state.pools.cache
  absent : ∀ seg ∈ remaining, skips args start.req seg = false →
    state.pools.cache.entries.get? (start.req.segmentHash args seg) = none
  novel : ((remaining.filter fun seg => skips args start.req seg = false).map (start.req.segmentHash args)).Nodup
  inside : ∀ seg ∈ remaining, seg ∈ start.req.picMissSegments
  unsettled : ∀ seg ∈ remaining, seg ∉ settled state.req
  distinct : remaining.Nodup
  slots : ∀ slot ∈ (missTotal false start.req).1, slot ∈ (missTotal false state.req).1 ∨
    ∃ entry ∈ state.req.picSegmentEntries.values, slot ∈ entry.fullKvSlots
  entries : ∀ entry ∈ start.req.picSegmentEntries.values, entry ∈ state.req.picSegmentEntries.values

section Insert
variable {args : ServerArgs Hash} {now : Nat} {start state next : Caching Hash} {seg : Seg} {rest : List Seg}

theorem InsertLoop.step (loop : InsertLoop args start state (seg::rest)) (plain : args.rope = false)
    (plainPub : PlainPub args start.req)
    (lengths : ∀ seg miss, start.req.picMissSegmentSlots.get? seg = some miss → miss.kv.length = seg.2 - seg.1)
    (bounds : ∀ seg ∈ start.req.picMissSegments, seg.2 ≤ start.req.originInputIds.length)
    (stepped : CacheStep args state seg next) : InsertLoop args start next rest := by
  have member := loop.inside seg mem_cons_self
  obtain ⟨once,distinct⟩ := nodup_cons.mp loop.distinct
  have hash := loop.frame.segmentHash args seg
  have skipsSame := loop.frame.skips args seg
  have novelRest : ((rest.filter fun seg => skips args start.req seg = false).map (start.req.segmentHash args)).Nodup :=
    loop.novel.sublist (List.Sublist.map _ (List.Sublist.filter _ (sublist_cons_self ..)))
  cases stepped with
  | skip _ =>
    exact { loop with
      absent := fun other later => loop.absent other (mem_cons_of_mem _ later)
      novel := novelRest
      inside := fun other later => loop.inside other (mem_cons_of_mem _ later)
      unsettled := fun other later => loop.unsettled other (mem_cons_of_mem _ later)
      distinct := distinct }
  | adopt files present tokens entries created locks ledger =>
    have missing := loop.absent seg mem_cons_self (skipsSame ▸ files.cacheable)
    rw [hash,missing] at present
    cases present
  | @insert _ miss kvSlots mambaSlot fresh files unmatched made entries created locks ledger =>
    have chosen : skips args start.req seg = false := skipsSame ▸ files.cacheable
    have missing : state.pools.cache.entries.get? (state.req.segmentHash args seg) = none := by
      rw [hash]; exact loop.absent seg mem_cons_self chosen
    have unreferred : state.req.picSegmentEntries.get? (state.req.segmentHash args seg) = none := by
      refine eq_none_iff_forall_ne_some.mpr fun entry referred => ?_
      have present := loop.held _ entry referred
      rw [missing] at present
      cases present
    have kept {entry : SegmentEntry Hash} (referred : entry ∈ state.req.picSegmentEntries.values) :
        entry ∈ next.req.picSegmentEntries.values := by
      obtain ⟨key,found⟩ := (mem_values ..).mp referred
      have differs : key ≠ state.req.segmentHash args seg := fun same => by rw [same,unreferred] at found; cases found
      exact mem_values_of_get? (files.refers ▸ (get?_set_other _ _ differs).trans found)
    have slots : start.req.picMissSegmentSlots.get? seg = some miss := by rw [← loop.frame.slots]; exact files.found
    have given : miss.kv = kvSlots := by simpa [plain] using files.kv
    have shrinks := missTotal_settle false files.frame.slots files.found (fun _ => plainPub seg miss slots plain)
      (loop.unsettled seg mem_cons_self) files.settled
    refine
      { frame := loop.frame.trans files.frame
        held := ?_
        grown := ?_
        sized := ?_
        absent := ?_
        novel := novelRest
        inside := fun other later => loop.inside other (mem_cons_of_mem _ later)
        unsettled := ?_
        distinct := distinct
        slots := ?_
        entries := fun entry referred => kept (loop.entries entry referred) }
    · intro key entry referred
      rw [files.refers,get?_set] at referred
      rw [entries,get?_set]
      by_cases same : key = state.req.segmentHash args seg
      · rw [if_pos same] at *
        exact referred
      · rw [if_neg same] at *
        exact loop.held key entry referred
    · intro key entry present
      rw [entries,get?_set]
      split
      · rename_i same
        subst same
        have conflict := loop.grown _ entry present
        rw [missing] at conflict
        cases conflict
      · exact loop.grown key entry present
    · intro key entry present
      rw [entries,get?_set] at present
      split at present
      · have bound := bounds seg member
        rw [← loop.frame.ids] at bound
        rw [← some.inj present,made]
        simp only [← given,lengths seg miss slots,segmentIds_length _ _ bound]
      · exact loop.sized key entry present
    · intro other later otherChosen
      have differs : start.req.segmentHash args other ≠ state.req.segmentHash args seg := by
        intro same
        have nodup := loop.novel
        rw [filter_cons_of_pos (by simpa using chosen),map_cons,nodup_cons] at nodup
        refine nodup.1 (mem_map.mpr ⟨other,mem_filter.mpr ⟨later,by simpa using otherChosen⟩,?_⟩)
        rw [same,hash]
      rw [entries,get?_set_other _ _ differs]
      exact loop.absent other (mem_cons_of_mem _ later) otherChosen
    · intro other later inside
      rcases (files.settled other).mp inside with same | inside
      · exact once (same ▸ later)
      · exact loop.unsettled other (mem_cons_of_mem _ later) inside
    · intro slot inside
      rcases loop.slots slot inside with still | ⟨entry,referred,here⟩
      · rw [shrinks,Prod.fst_add,mem_add] at still
        rcases still with away | still
        · refine .inr ⟨fresh,mem_values_of_get? (files.refers ▸ get?_set_same ..),?_⟩
          rw [made]
          simpa [released,given] using away
        · exact .inl still
      · exact .inr ⟨entry,kept referred,here⟩

/-- Caching new segments outside the rope modes: the index only grows, and the row stays backed. -/
theorem cacheUnfinishedReq_safe {req after : Req Hash} {pools final : Pools Hash} {stage : Stage}
    (running : Running args req) (none : settled req = []) (plain : args.rope = false)
    (novel : Novel args req pools.cache) (sized : Sized pools.cache) (held : Held req pools.cache)
    (safe : JobSafe args pools.cache ⟨req,stage⟩)
    (executed : cacheUnfinishedReq args now req pools = some (after,final)) :
    JobSafe args final.cache ⟨after,.cached⟩ ∧ Sized final.cache ∧
      ∀ key entry, pools.cache.entries.get? key = some entry → final.cache.entries.get? key = some entry := by
  obtain ⟨state,looped,same⟩ := map_eq_some_iff.mp executed
  cases same
  have begin : InsertLoop args ⟨unsettledReq req,pools,0,0⟩ ⟨unsettledReq req,pools,0,0⟩ req.picMissSegments :=
    { frame := CachedOnly.refl _
      held := held
      grown := fun _ _ present => present
      sized := sized
      absent := fun seg member chosen => novel.1 seg (mem_filter.mpr ⟨member,by simpa using (show skips args req seg = false from chosen)⟩)
      novel := novel.2
      inside := fun _ member => member
      unsettled := fun _ _ => by simp [settled,unsettledReq]
      distinct := running.distinct
      slots := fun _ inside => .inl inside
      entries := fun _ referred => referred }
  have loop := foldlM_keeps (InsertLoop args ⟨unsettledReq req,pools,0,0⟩)
    (fun state seg rest next loop stepped => loop.step plain running.plainPub safe.lengths
      (fun seg member => (running.partition.consecutive.mem_bounds (running.partition.misses.subset member)).2.2)
      (cacheMiss_step stepped)) begin looped
  have frame : CachedOnly req state.req := (show CachedOnly req (unsettledReq req) from rfl).trans loop.frame
  have index (cache : PICache Hash) (entries : cache.entries = state.pools.cache.entries) :
      JobSafe args cache ⟨state.req,.cached⟩ ∧ Sized cache ∧
        ∀ key entry, pools.cache.entries.get? key = some entry → cache.entries.get? key = some entry := by
    refine ⟨⟨?_,?_,?_⟩,?_,?_⟩
    · intro _ _ key entry referred
      rw [entries]
      exact loop.held key entry referred
    · intro pos committed
      have row : state.req.reqToToken = req.reqToToken := (congrArg Req.reqToToken frame).trans rfl
      have length : state.req.kvCommittedLen = req.kvCommittedLen := (congrArg Req.kvCommittedLen frame).trans rfl
      unfold Backed
      simp only [row]
      rcases safe.backed pos (length ▸ committed) with own | ⟨-,entry,referred,inside⟩
      · simp only [privateSlots,plain,false_eq_true,if_false] at own ⊢
        by_cases missed : req.reqToToken pos ∈ (missTotal false req).1
        · have before : missTotal false (unsettledReq req) = missTotal false req := plain ▸ missTotal_unsettled none
          rcases loop.slots _ (before ▸ missed) with kept | ⟨entry,referred,inside⟩
          · refine .inl ?_
            simp [Custody.held,kept]
          · exact .inr ⟨trivial,entry,referred,inside⟩
        · have balance : Custody.held args.rope state.req + missTotal args.rope req =
              Custody.held args.rope req + missTotal args.rope state.req := held_cached frame
          have counts := congrArg (fun holding : Holding => holding.1.count (req.reqToToken pos)) balance
          simp only [plain,Prod.fst_add,Multiset.count_add,Multiset.count_eq_zero.mpr missed] at counts
          have positive := Multiset.count_pos.mpr own
          exact .inl (Multiset.count_pos.mp (by omega))
      · exact .inr ⟨plain,entry,loop.entries entry referred,inside⟩
    · intro seg miss found
      simp only [frame.slots] at found
      exact safe.lengths seg miss found
    · intro key entry present
      rw [entries] at present
      exact loop.sized key entry present
    · intro key entry present
      rw [entries]
      exact loop.grown key entry present
  split
  · exact index _ (PICache.removeInflight_entries ..)
  · exact index _ rfl

theorem cached_rope_safe {req after : Req Hash} {cache other : PICache Hash} {stage : Stage} (rope : args.rope = true)
    (frame : CachedOnly req after) (safe : JobSafe args cache ⟨req,stage⟩) : JobSafe args other ⟨after,.cached⟩ := by
  have row : after.reqToToken = req.reqToToken := (congrArg Req.reqToToken frame).trans rfl
  have length : after.kvCommittedLen = req.kvCommittedLen := (congrArg Req.kvCommittedLen frame).trans rfl
  have index : after.reqPoolIdx = req.reqPoolIdx := (congrArg Req.reqPoolIdx frame).trans rfl
  have copies : after.picRopeHitPrivateSlots = req.picRopeHitPrivateSlots :=
    (congrArg Req.picRopeHitPrivateSlots frame).trans rfl
  have decode : decodeSlots false after = decodeSlots false req := by
    simp only [decodeSlots,decodeStart,Req.rowSlice,frame.lastSeg,frame.segs,row,length,index]
  have same : privateSlots args.rope after = privateSlots args.rope req := by
    simp only [privateSlots,rope,if_true,hitPrivate,copies,decode,frame.slots]
  refine ⟨fun plain => by simp [plain] at rope,?_,?_⟩
  · intro pos committed
    rcases safe.backed pos (length ▸ committed) with own | ⟨plain,-⟩
    · refine .inl ?_
      rw [same,row]
      exact own
    · simp [plain] at rope
  · intro seg miss found
    simp only [frame.slots] at found
    exact safe.lengths seg miss found

theorem cacheUnfinishedReq_idle {req after : Req Hash} {pools final : Pools Hash} (none : cacheable args req = [])
    (executed : cacheUnfinishedReq args now req pools = some (after,final)) :
    final.cache.entries = pools.cache.entries := by
  obtain ⟨state,looped,same⟩ := map_eq_some_iff.mp executed
  cases same
  have skipped : ∀ seg ∈ req.picMissSegments, skips args req seg = true := by
    intro seg member
    simpa using filter_eq_nil_iff.mp none seg member
  have kept := foldlM_keeps (fun state remaining => state = ⟨unsettledReq req,pools,0,0⟩ ∧
      ∀ seg ∈ remaining, skips args req seg = true) (fun state seg rest next inv stepped => by
    obtain ⟨rfl,all⟩ := inv
    have skip : skips args (unsettledReq req) seg = true := all seg mem_cons_self
    rw [Caching.cacheMiss,if_pos skip,some.injEq] at stepped
    exact ⟨stepped.symm,(forall_mem_cons.mp all).2⟩) ⟨rfl,skipped⟩ looped
  rw [kept.1]
  split <;> rfl
end Insert

section Steps
variable {args : ServerArgs Hash} {engine next : Engine Hash}

theorem unshared_of_moved {lost : Holding} (unshared : Unshared (ledger args engine))
    (moved : ledger args next + lost = ledger args engine) : Unshared (ledger args next) :=
  Unshared.left (moved ▸ unshared)

theorem JobSafe.grown {before after : PICache Hash} {job : Job Hash} (safe : JobSafe args before job)
    (grown : args.rope = false → ∀ key entry, before.entries.get? key = some entry → after.entries.get? key = some entry) :
    JobSafe args after job :=
  safe.keeps fun plain _ held segHash entry referred => grown plain segHash entry (held segHash entry referred)

theorem JobSafe.congr {before after : PICache Hash} {job : Job Hash} (safe : JobSafe args before job)
    (same : after.entries = before.entries) : JobSafe args after job :=
  safe.grown fun _ _ _ present => same ▸ present

/-- An eviction spares what requests refer to when that is locked, or when the index stays as it is. -/
theorem evicts_kept {pools : Pools Hash} (evicts : Pools.Evicts engine.pools pools)
    (spared : args.rope = false → Protected engine ∨ pools.cache.entries = engine.pools.cache.entries)
    {rid : Nat} {job : Job Hash} (found : engine.jobs.get? rid = some job) (safe : JobSafe args engine.pools.cache job) :
    JobSafe args pools.cache job := by
  refine safe.keeps fun plain stage held => ?_
  rcases spared plain with locked | same
  · exact held_evicts evicts (locked (rid,job) ((get?_eq_some ..).mp found) stage) held
  · intro segHash entry referred
    rw [same]
    exact held segHash entry referred

theorem sized_evicts {pools evicted : Pools Hash} (evicts : Pools.Evicts pools evicted) (sized : Sized pools.cache) :
    Sized evicted.cache := fun key entry present => sized key entry (evicts.kept key entry present)

theorem sized_congr {before after : PICache Hash} (same : after.entries = before.entries) (sized : Sized before) : Sized after :=
  fun key entry present => sized key entry (same ▸ present)

theorem step_safe (safe : Safe args engine) {action : Action} (guarded : InOrder engine action ∧ Careful args engine action)
    (stepped : step args engine action = some next) : Safe args next := by
  obtain ⟨ordered,careful⟩ := guarded
  have ok := step_ok safe.ok stepped
  have moved (plain : caches action = false) : Unshared (ledger args next) := step_ledger safe.ok plain stepped ▸ safe.unshared
  cases step_stepped safe.ok stepped with
  | arrive absent created =>
    exact ⟨ok,moved rfl,safe.sized,putJob_all safe.jobs _ _ (unallocated_safe created.2.2.1 fun _ stage => by simp at stage)⟩
  | @matchPrefix rid now job found stage consecutive nonempty fresh ordinary =>
    obtain ⟨entries,-,-⟩ := initNextRoundInput_frame args now job.req engine.pools.cache
    refine ⟨ok,moved rfl,fun plain => sized_congr entries (safe.sized plain),
      putJob_all (fun other known present => (safe.jobs other known present).congr entries) rid _ ?_⟩
    exact unallocated_safe (initNextRoundInput_unallocated args now engine.pools.cache fresh) fun _ stage => by simp at stage
  | @incLockRef rid job here found stage known =>
    obtain ⟨entries,-⟩ := incLockRef_frame job.req engine.pools.cache
    refine ⟨ok,moved rfl,fun plain => sized_congr entries (safe.sized plain),
      putJob_all (fun other known present => (safe.jobs other known present).congr entries) rid _ ?_⟩
    refine unallocated_safe known.2.2.1 fun plain _ key entry referred => ?_
    rw [entries]
    exact careful plain job here key entry referred
  | allocForExtend jobs extended batch distinct found admitted allocated ready prefilled =>
    obtain ⟨-,evicts,-⟩ := picAllocForExtend_spec ready allocated
    have spared : args.rope = false → Protected engine ∨ extended.pools.cache.entries = engine.pools.cache.entries := by
      intro plain
      rcases careful plain with locked | ample
      · exact .inl locked
      · exact .inr (picAllocForExtend_ample (fun req member => (ready req member).2) (ample jobs batch) allocated)
    have kept (rid : Nat) (job : Job Hash) (present : engine.jobs.get? rid = some job) : JobSafe args extended.pools.cache job :=
      evicts_kept evicts spared present (safe.jobs rid job present)
    have sized : args.rope = false → Sized extended.pools.cache := fun plain => sized_evicts evicts (safe.sized plain)
    refine ⟨ok,moved rfl,sized,putBatch_all kept _ _ fun job member => ?_⟩
    obtain ⟨after,inside,rfl⟩ := mem_map.mp member
    obtain ⟨req,listed,related⟩ := exists_left prefilled inside
    obtain ⟨job,inside,rfl⟩ := mem_map.mp listed
    obtain ⟨owner,-,there⟩ := exists_left found inside
    obtain ⟨matched,fresh⟩ := ready _ listed
    exact prefilled_safe matched fresh (fun plain => (kept owner job there).held plain (by simp [(admitted job inside).1])) sized related
  | @cacheUnfinished rid now job after pools here found stage running unsettled executed =>
    obtain ⟨lost,lostMoved,-⟩ := cacheUnfinished_moves safe.ok stepped
    have unshared := unshared_of_moved safe.unshared lostMoved
    have before := safe.jobs rid job found
    by_cases rope : args.rope = true
    · obtain ⟨settles,-⟩ := cacheUnfinishedReq_ledger running.plainPub running.distinct executed
      have others (other : Nat) (known : Job Hash) (present : engine.jobs.get? other = some known) : JobSafe args pools.cache known :=
        (safe.jobs other known present).grown fun plain => by simp [plain] at rope
      exact ⟨ok,unshared,fun plain => by simp [plain] at rope,
        putJob_all others rid pools (cached_rope_safe rope settles.frame before)⟩
    · have plain : args.rope = false := by simpa using rope
      obtain ⟨cached,sized,grown⟩ := cacheUnfinishedReq_safe running unsettled plain (careful plain job here) (safe.sized plain)
        (before.held plain (by simp [stage])) before executed
      exact ⟨ok,unshared,fun _ => sized,
        putJob_all (fun other known present => (safe.jobs other known present).grown fun _ => grown) rid pools cached⟩
  | allocForDecode jobs slots pools distinct found running lengths allocated =>
    obtain ⟨-,evicts,-,-⟩ := Pools.allocTokenSlots_spec allocated
    have spared : args.rope = false → Protected engine ∨ pools.cache.entries = engine.pools.cache.entries := by
      intro plain
      rcases careful plain with locked | enough
      · exact .inl locked
      · exact .inr (congrArg PICache.entries (allocTokenSlots_ample enough allocated).1)
    have kept (rid : Nat) (job : Job Hash) (present : engine.jobs.get? rid = some job) : JobSafe args pools.cache job :=
      evicts_kept evicts spared present (safe.jobs rid job present)
    refine ⟨ok,moved rfl,fun plain => sized_evicts evicts (safe.sized plain),putBatch_all kept _ _ fun job member => ?_⟩
    obtain ⟨⟨earlier,slot⟩,inside,rfl⟩ := mem_map.mp member
    obtain ⟨owner,-,there⟩ := exists_left found (of_mem_zip inside).1
    obtain ⟨stage,known,runs⟩ := running earlier (of_mem_zip inside).1
    exact appendToken_safe slot runs known stage (kept owner earlier there)
  | @finish rid now isInsert job mid final midPools freed here found stage running cached ended =>
    obtain ⟨last,isLast⟩ := isSome_iff_exists.mp ordered.1
    obtain ⟨lastFound,lastStage⟩ := jobAt_some isLast
    obtain rfl : job = last := some.inj (found.symm.trans lastFound)
    have idle := careful job isLast
    have known := safe.ok rid job found
    simp only [JobOk,mem_singleton.mp lastStage] at known
    have none : settled job.req = [] :=
      eq_nil_iff_forall_not_mem.mpr fun seg inside => by simpa [idle] using (known.2 seg).mp inside
    obtain ⟨lost,lostMoved,-⟩ := finish_moves safe.ok stepped fun other there _ => by
      obtain rfl : job = other := some.inj (found.symm.trans (jobAt_some there).1)
      exact none
    have entries : freed.cache.entries = engine.pools.cache.entries := by
      rw [ended.entries]
      unfold CachedAtEnd at cached
      split at cached
      · exact cacheUnfinishedReq_idle idle cached
      · rw [cached.2]
    exact ⟨ok,unshared_of_moved safe.unshared lostMoved,fun plain => sized_congr entries (safe.sized plain),
      eraseJob_all (fun other known present => (safe.jobs other known present).congr entries) rid⟩
  | @evict numTokens mambaNum =>
    obtain ⟨evicts,-,-⟩ := engine.pools.evict_evicts numTokens mambaNum
    exact ⟨ok,moved rfl,fun plain => sized_evicts evicts (safe.sized plain),fun rid job found =>
      evicts_kept evicts (fun plain => .inl (careful plain)) found (safe.jobs rid job found)⟩
end Steps

theorem start_safe (args : ServerArgs Hash) (kvSize mambaSize reqSize : Nat) (needSort : Bool) :
    Safe args (Engine.start kvSize mambaSize reqSize needSort) := by
  refine ⟨start_ok args kvSize mambaSize reqSize needSort,?_,?_,?_⟩
  · rw [start_ledger]
    exact ⟨by simpa using nodup_range',by simpa using nodup_range'⟩
  · intro _ key entry present
    simp [Engine.start,Pools.clear,PICache.empty] at present
  · intro rid job present
    simp [Engine.start] at present

/-- In every state of a careful run in the scheduler's order, no free slot is in use. -/
theorem free_slots_unused (args : ServerArgs Hash) (kvSize mambaSize reqSize : Nat) (needSort : Bool)
    (actions : List Action) (final : Engine Hash)
    (guarded : Guarded (step args) (fun engine action => InOrder engine action ∧ Careful args engine action)
      (.start kvSize mambaSize reqSize needSort) actions)
    (executed : run (step args) (.start kvSize mambaSize reqSize needSort) actions = some final) : FreeUnused final := by
  refine Safe.freeUnused (run_keeps (Safe args) ?_ (start_safe args kvSize mambaSize reqSize needSort) guarded executed)
  intro engine action next safe guarded stepped
  exact step_safe safe guarded stepped

/-- Two requests share a cached segment: the first stays, the second runs to its end. -/
def sharedRun : List Action :=
  [.arrive 0 [[1],[2]] 1,.matchPrefix 0 1,.incLockRef 0,.allocForExtend [0],.cacheUnfinished 0 2,.allocForDecode [0],
    .arrive 1 [[1],[3]] 1,.matchPrefix 1 3,.incLockRef 1,.allocForExtend [1],.cacheUnfinished 1 4,.allocForDecode [0,1],
    .evict 1 0,.finish 1 5 true]

theorem free_slots_unused_sharedRun :
    ∃ final ∈ run (step (plainArgs .transition (-1))) (.start 16 16 4 false) sharedRun, FreeUnused final := by
  obtain ⟨final,executed⟩ : ∃ final, run (step (plainArgs .transition (-1))) (.start 16 16 4 false) sharedRun = some final :=
    isSome_iff_exists.mp (by decide +kernel)
  exact ⟨final,executed,free_slots_unused (plainArgs .transition (-1)) 16 16 4 false sharedRun final (by decide +kernel)
    executed⟩

/-- The end caches the request's misses once more and meets its own entry: the entry's slots are freed. -/
theorem finish_frees_own_entry :
    Guarded (step (plainArgs .transition (-1))) InOrder (.start 8 8 4 false)
      [.arrive 0 [[1],[2]] 1,.matchPrefix 0 1,.incLockRef 0,.allocForExtend [0],.cacheUnfinished 0 2,.allocForDecode [0],
        .finish 0 3 true] ∧
    ∃ final ∈ run (step (plainArgs .transition (-1))) (.start 8 8 4 false)
      [.arrive 0 [[1],[2]] 1,.matchPrefix 0 1,.incLockRef 0,.allocForExtend [0],.cacheUnfinished 0 2,.allocForDecode [0],
        .finish 0 3 true],
      final.pools.kv.slots = [4,5,6,7,8,1,2,3] ∧
        final.pools.cache.entries.values.map SegmentEntry.fullKvSlots = [[1]] ∧ ¬ FreeUnused final := by decide +kernel

end Hypic.Rows
