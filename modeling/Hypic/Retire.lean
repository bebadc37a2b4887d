import Hypic.Flush
import Hypic.Handover
import Hypic.Scheduler

/-! Retiring a scatter sub-request: what its forward pass and its end do to its slots, to the in-flight counts and to the
    hold on its entry. -/

namespace Hypic.Retire
open Policy Allocator Cache Request Alloc Release Handover Scheduler Scatter Node Parking Flush List Option Option
universe u
variable {Hash : Type u} [DecidableEq Hash]

/-! ### Holds -/

/-- How often the combines that expire now name a hash. -/
def expiredHolds (now : Nat) (entries : List (Parked Hash)) (segHash : Hash) : Nat :=
  ((entries.filter fun entry => entry.deadline < now).flatMap Parked.hashes).count segHash

/-- The lock count of a sub-request's entry after its push, from the count before: a local push takes an arrival hold
    and lets expired combines drop theirs, any other takes a pin or a waiting hold. -/
def lockAfterPush (node : Node Hash) (tick : Tick) (sub : SubReq Hash) (lock : Nat) : Nat :=
  if sub.key = none then lock
  else if sub.isLocal then lock + 1 - expiredHolds tick.now node.combineParked sub.segHash else lock + 1

section Locks
variable {key : Hash} {entry : SegmentEntry Hash}

variable {cache : PICache Hash}

theorem lockHash_lockRef (filed : cache.entries.get? key = some entry) :
    (lockHash cache key).lockRef entry = cache.lockRef entry + 1 := by
  rw [lockHash,filed,elim_some,PICache.lockRef_lock,if_pos rfl]

theorem unlockHash_lockRef (filed : cache.entries.get? key = some entry) (segHash : Hash) :
    (unlockHash cache segHash).lockRef entry = cache.lockRef entry - if segHash = key then 1 else 0 := by
  unfold unlockHash
  cases found : cache.entries.get? segHash with
  | none =>
    have differ : segHash ≠ key := fun same => by rw [same,filed] at found; cases found
    simp [differ]
  | some other =>
    rw [elim_some,PICache.lockRef_unlock]
    by_cases same : segHash = key
    · rw [same,filed] at found
      cases found
      simp [same]
    · have differ : entry ≠ other := fun equal =>
        same ((cache.keyed _ _ found).symm.trans (equal ▸ cache.keyed _ _ filed))
      simp [differ,same]

theorem unlockAll_lockRef (hashes : List Hash) (filed : cache.entries.get? key = some entry) :
    (hashes.foldl unlockHash cache).lockRef entry = cache.lockRef entry - hashes.count key := by
  induction hashes generalizing cache with
  | nil => rfl
  | cons segHash rest ih =>
    rw [foldl_cons,ih (by rwa [unlockHash_entries]),unlockHash_lockRef filed,count_cons]
    simp only [beq_iff_eq]
    omega

variable {node : Node Hash}

theorem releaseOne_lockRef (now : Nat) (filed : node.pools.cache.entries.get? key = some entry)
    (parked : Parked Hash) : (node.releaseOne now parked).pools.cache.lockRef entry =
      node.pools.cache.lockRef entry - expiredHolds now [parked] key := by
  obtain ⟨entries,-,-,-,-,counters⟩ := freeCombinePending_frame node parked.rows
  unfold releaseOne expiredHolds
  by_cases late : parked.deadline < now
  · have dropped := unlockAll_lockRef parked.hashes (entries ▸ filed)
    simp only [late,if_true,releaseCombineHolds,mapCache,Pools.withCache,dropped]
    simp [late,PICache.lockRef,counters]
  · simp only [late,if_false]
    split <;> simp [late]

theorem tryReleaseCombines_lockRef (now : Nat) (filed : node.pools.cache.entries.get? key = some entry) :
    (node.tryReleaseCombines now).pools.cache.lockRef entry =
      node.pools.cache.lockRef entry - expiredHolds now node.combineParked key := by
  unfold tryReleaseCombines
  induction node.combineParked generalizing node with
  | nil => rfl
  | cons parked rest ih =>
    rw [foldl_cons,ih (by rwa [(releaseOne_spec now node parked).1]),releaseOne_lockRef now filed]
    have split : expiredHolds now (parked::rest) key = expiredHolds now [parked] key + expiredHolds now rest key := by
      rw [expiredHolds,← singleton_append,filter_append,flatMap_append,count_append]
      rfl
    omega

theorem push_lockRef (tick : Tick) (sub : SubReq Hash)
    (filed : node.pools.cache.entries.get? sub.segHash = some entry) :
    let after := node.maybePushAfterPrefill tick sub
    after.pools.cache.entries = node.pools.cache.entries ∧
      after.pools.cache.lockRef entry = lockAfterPush node tick sub (node.pools.cache.lockRef entry) := by
  obtain ⟨rid,segHash,key,isLocal⟩ := sub
  have held := lockHash_lockRef filed
  have kept := lockHash_entries node.pools.cache segHash
  unfold maybePushAfterPrefill lockAfterPush
  cases key with
  | none => exact ⟨rfl,rfl⟩
  | some key =>
    cases isLocal with
    | true =>
      have locked : (node.mapCache fun cache => lockHash cache segHash).pools.cache.entries.get? segHash = some entry := by
        rw [← filed]; exact congrArg (·.get? segHash) kept
      refine ⟨(tryReleaseCombines_spec tick.now _).1.trans kept,(tryReleaseCombines_lockRef tick.now locked).trans ?_⟩
      simpa [mapCache,Pools.withCache] using congrArg (· - expiredHolds tick.now node.combineParked segHash) held
    | false =>
      simp only [false_eq_true,if_false,reduceCtorEq]
      split
      · have pinned := PICache.lockRef_lock node.pools.cache entry entry
        rw [if_pos rfl] at pinned
        simp only [filed,startWrite]
        split <;> exact ⟨rfl,pinned⟩
      · exact ⟨kept,held⟩

end Locks

/-! ### Slots -/

theorem le_more (more holding : Holding) : holding ≤ more + holding :=
  ⟨Multiset.le_add_left ..,Multiset.le_add_left ..⟩

theorem freeCombinePending_grows (node : Node Hash) (rows : List SegKey) :
    node.pools.ledger ≤ (node.freeCombinePending rows).pools.ledger := by
  unfold freeCombinePending
  induction node.scatterPending.keys.filter (fun key => key ∈ rows) generalizing node with
  | nil => exact le_rfl
  | cons key rest ih =>
    refine le_trans ?_ (ih (node.freePending key))
    unfold freePending
    cases node.scatterPending.get? key with
    | none => exact le_rfl
    | some dst => exact (freeDst_ledger node.pools dst).symm ▸ le_more _ _

theorem releaseOne_grows (now : Nat) (node : Node Hash) (parked : Parked Hash) :
    node.pools.ledger ≤ (node.releaseOne now parked).pools.ledger := by
  unfold releaseOne
  split
  · refine (freeCombinePending_grows node parked.rows).trans (le_of_eq ?_)
    exact (Pools.ledger_withCache _ (unlockAll_entries ..)).symm
  · split <;> exact le_rfl

theorem inject_grows (now : Nat) {node : Node Hash} {key : SegKey} {dst : Dst Hash}
    (waits : node.scatterPending.get? key = some dst) : node.pools.ledger ≤ (node.inject now key dst).pools.ledger := by
  have moved := inject_ledger now waits
  rw [ledger,ledger,Dict.total_of_get? _ waits,← add_assoc] at moved
  have gained : (node.inject now key dst).pools.ledger = node.pools.ledger + dst.holding := add_right_cancel moved
  rw [gained,add_comm]
  exact le_more _ _

theorem Steps.grows {now : Nat} {before after : Node Hash} (steps : Steps now before after) :
    before.pools.ledger ≤ after.pools.ledger := by
  induction steps with
  | refl => exact le_rfl
  | tail _ step ih =>
    refine ih.trans ?_
    cases step with
    | still same => simp only [Pools.ledger,same.kv,same.mamba,PICache.holding_congr same.entries,le_refl]
    | release _ => exact releaseOne_grows now _ _
    | emptied => exact le_rfl
    | inject waits => exact inject_grows now waits

/-- A sub-request after its forward pass: one miss, with the slots that allocation gave it. -/
structure Forwarded (args : ServerArgs Hash) (req : Req Hash) (seg : Seg) (miss : MissSlots) : Prop where
  scatter : req.picScatterSingleSeg = true
  misses : req.picMissSegments = [seg]
  slots : req.picMissSegmentSlots = Dict.empty.set seg miss
  kv : miss.kv ≠ []
  pub : miss.pub.isSome = args.rope
  mamba : miss.mamba.isSome = true

/-- All slots of a sub-request. -/
def own (req : Req Hash) (miss : MissSlots) : Holding :=
  kvHolding miss.kv + kvHolding (miss.pub.getD []) + mambaHolding miss.mamba.toList + mambaHolding req.mambaPoolIdx.toList

/-- What caching does with a sub-request that is not short: its cacheable copy goes to an entry, or is freed for an equal one. -/
structure CachedOne (args : ServerArgs Hash) (ids : List Token) (segHash : Hash) (kvSlots : List Slot) (mambaSlot : Slot)
    (before after : Pools Hash) (entry : SegmentEntry Hash) : Prop where
  filed : after.cache.entries.get? segHash = some entry
  back : kvHolding kvSlots + mambaHolding [mambaSlot] ≤ after.ledger
  bounded : after.ledger ≤ kvHolding kvSlots + mambaHolding [mambaSlot] + before.ledger
  adopted : ∀ existing, before.cache.entries.get? segHash = some existing → existing.tokenIds = ids →
    entry = existing ∧ after.cache.lockRef entry = before.cache.lockRef entry
  inserted : (∀ existing, before.cache.entries.get? segHash = some existing → existing.tokenIds ≠ ids) →
    before.cache.entries.get? segHash ≠ some entry ∧
      after.cache.lockRef entry = if args.isTransition = true then 1 else 0
  tokens : after.cache.inflightFullTokens = before.cache.inflightFullTokens -
    if args.isTransition = true then kvSlots.length else 0
  states : after.cache.inflightMambaSlots = before.cache.inflightMambaSlots - if args.isTransition = true then 1 else 0

variable {args : ServerArgs Hash} {req : Req Hash} {seg : Seg} {miss : MissSlots} {now : Nat} {pools : Pools Hash}

/-- The slots of a sub-request leave the in-flight count once it is settled, in the transition modes. -/
theorem settled_counts {state next : Caching Hash} {kvSlots : List Slot} {mambaSlot : Slot} {entry : SegmentEntry Hash}
    (files : Files args state seg miss kvSlots mambaSlot entry next) (none : (state.inflightTokens,state.inflightMamba) = 0) :
    let final := if args.isTransition = true ∧ (0 < next.inflightTokens ∨ 0 < next.inflightMamba) then
      next.pools.withCache (next.pools.cache.removeInflight next.inflightTokens next.inflightMamba) else next.pools
    final.cache.entries = next.pools.cache.entries ∧ final.cache.counters = next.pools.cache.counters ∧
      final.ledger = next.pools.ledger ∧ final.cache.inflightFullTokens = state.pools.cache.inflightFullTokens -
        (if args.isTransition = true then kvSlots.length else 0) ∧
      final.cache.inflightMambaSlots = state.pools.cache.inflightMambaSlots - if args.isTransition = true then 1 else 0 := by
  have leaves := files.leaves
  rw [none,zero_add,map_add,count_kvHolding,count_mambaHolding] at leaves
  obtain ⟨tokens,states⟩ := Prod.ext_iff.mp leaves
  obtain ⟨full,slots⟩ := Prod.ext_iff.mp files.inflight
  simp only [Prod.fst_add,Prod.snd_add,add_zero,zero_add,length_singleton] at tokens states
  simp only [PICache.inflight] at full slots
  simp only [tokens,states,or_true,and_true,zero_lt_one,← full,← slots]
  split
  · exact ⟨rfl,rfl,Pools.ledger_withCache _ rfl,rfl,rfl⟩
  · exact ⟨rfl,rfl,rfl,rfl,rfl⟩

/-- Caching a sub-request: a short segment is passed over, any other is settled with the copy that is to be cached. -/
theorem cacheUnfinishedReq_one (forwarded : Forwarded args req seg miss) (now : Nat) (pools : Pools Hash) :
    ∃ after final, cacheUnfinishedReq args now req pools = some (after,final) ∧
      after.mambaPoolIdx = req.mambaPoolIdx ∧
      if args.short seg = true then final = pools
      else ∃ kvSlots mambaSlot entry, (if args.rope then miss.pub else some miss.kv) = some kvSlots ∧
        miss.mamba = some mambaSlot ∧
        CachedOne args (segmentIds req.originInputIds seg) (req.segmentHash args seg) kvSlots mambaSlot pools final entry := by
  obtain ⟨mambaSlot,mamba⟩ := isSome_iff_exists.mp forwarded.mamba
  obtain ⟨kvSlots,kv⟩ : ∃ kvSlots, (if args.rope then miss.pub else some miss.kv) = some kvSlots := by
    cases rope : args.rope with
    | true => simpa using isSome_iff_exists.mp (forwarded.pub.trans rope)
    | false => exact ⟨miss.kv,rfl⟩
  set start : Caching Hash := ⟨unsettledReq req,pools,0,0⟩ with startIs
  have found : start.req.picMissSegmentSlots.get? seg = some miss := by simp [startIs,unsettledReq,forwarded.slots]
  have skipping : skips args start.req seg = args.short seg := by
    simp [skips,startIs,unsettledReq,forwarded.scatter]
  have looped {next : Caching Hash} (stepped : Caching.cacheMiss args now start seg = some next) :
      cacheUnfinishedReq args now req pools = some (next.req,
        if args.isTransition = true ∧ (0 < next.inflightTokens ∨ 0 < next.inflightMamba) then
          next.pools.withCache (next.pools.cache.removeInflight next.inflightTokens next.inflightMamba) else next.pools) := by
    have fold : req.picMissSegments.foldlM (Caching.cacheMiss args now) start = some next := by
      rw [forwarded.misses,foldlM_cons,stepped]
      rfl
    exact congrArg (Option.map _) fold
  cases short : args.short seg with
  | true =>
    have passed : Caching.cacheMiss args now start seg = some start := by
      rw [Caching.cacheMiss,skipping,short,if_pos rfl]
    exact ⟨_,_,looped passed,rfl,by simp [startIs]⟩
  | false =>
    have settled : Caching.cacheMiss args now start seg = some (start.commit seg kvSlots mambaSlot args now) := by
      simp only [Caching.cacheMiss,skipping,short,false_eq_true,if_false,found,kv,mamba]
    have step := cacheMiss_step settled
    generalize start.commit seg kvSlots mambaSlot args now = next at settled step
    have one {other : List Slot} {slot : Slot} (here : (if args.rope then miss.pub else some miss.kv) = some other)
        (state : miss.mamba = some slot) : other = kvSlots ∧ slot = mambaSlot :=
      ⟨some.inj (here.symm.trans kv),some.inj (state.symm.trans mamba)⟩
    simp only [false_eq_true,if_false]
    cases step with
    | skip skipped =>
      rw [skipping,short,found] at skipped
      simp at skipped
    | @adopt _ _ other slot existing files present tokens entries created locks ledger =>
      cases some.inj (files.found.symm.trans found)
      obtain ⟨rfl,rfl⟩ := one files.kv files.mamba
      obtain ⟨same,counters,kept,full,states⟩ := settled_counts files rfl
      refine ⟨_,_,looped settled,(congrArg Req.mambaPoolIdx files.frame).trans rfl,_,_,existing,kv,mamba,
        by rw [same,entries]; exact present,?_,le_of_eq (kept.trans ledger),?_,?_,full,states⟩
      · rw [kept,ledger,add_comm _ start.pools.ledger]
        exact le_more _ _
      · intro other found _
        refine ⟨some.inj (present.symm.trans found),?_⟩
        rw [PICache.lockRef,counters]
        exact locks existing
      · exact fun unmatched => absurd tokens (unmatched existing present)
    | @insert _ _ other slot entry files unmatched made entries created locks ledger =>
      cases some.inj (files.found.symm.trans found)
      obtain ⟨rfl,rfl⟩ := one files.kv files.mamba
      obtain ⟨same,counters,kept,full,states⟩ := settled_counts files rfl
      obtain ⟨lost,moved,-⟩ := ledger
      have filed : next.pools.cache.entries.get? (start.req.segmentHash args seg) = some entry := by
        rw [entries]
        exact Dict.get?_set_same ..
      refine ⟨_,_,looped settled,(congrArg Req.mambaPoolIdx files.frame).trans rfl,_,_,entry,kv,mamba,
        by rw [same]; exact filed,?_,?_,?_,?_,full,states⟩
      · obtain ⟨rest,split⟩ := next.pools.cache.holding_of_get? filed
        rw [kept,Pools.ledger,split,add_left_comm,add_comm entry.holding,made]
        exact le_more _ _
      · rw [kept,← moved,add_comm]
        exact le_more _ _
      · exact fun existing found tokens => absurd tokens (unmatched existing found)
      · intro _
        refine ⟨fun early => absurd (start.pools.cache.fresh _ entry early) (by rw [made]; exact Nat.lt_irrefl _),?_⟩
        rw [PICache.lockRef,counters]
        exact (locks entry).trans (if_pos rfl)

/-! ### The whole retirement -/

/-- After the retirement every slot of the sub-request is free or an entry's, caching has taken its share off the in-flight
    counts, and of the entry's holds exactly what caching took for this sub-request has been dropped; no other entry's. -/
structure Conserved (tick : Tick) (sub : SubReq Hash) (req : Req Hash) (miss : MissSlots)
    (node cached final : Node Hash) : Prop where
  kv : ∀ slot ∈ (own req miss).1, slot ∈ final.pools.ledger.1
  mamba : ∀ slot ∈ (own req miss).2, slot ∈ final.pools.ledger.2
  tokens : cached.pools.cache.inflightFullTokens + (miss.kv.length + (miss.pub.getD []).length) =
    node.pools.cache.inflightFullTokens
  states : cached.pools.cache.inflightMambaSlots + 1 = node.pools.cache.inflightMambaSlots
  hold : ∀ entry, cached.pools.cache.entries.get? sub.segHash = some entry →
    (cached.maybePushAfterPrefill tick sub).pools.cache.lockRef entry = final.pools.cache.lockRef entry +
      (cached.pools.cache.lockRef entry -
        if node.pools.cache.entries.get? sub.segHash = some entry then node.pools.cache.lockRef entry else 0)
  others : ∀ entry, cached.pools.cache.entries.get? sub.segHash ≠ some entry →
    final.pools.cache.lockRef entry = (cached.maybePushAfterPrefill tick sub).pools.cache.lockRef entry

section Retirement
variable (tick : Tick) (sub : SubReq Hash)

theorem retire_pools (node : Node Hash) (forwarded : Option (Req Hash)) :
    let pushed := node.maybePushAfterPrefill tick sub
    let final := node.picScatterRetire tick sub forwarded
    final.pools.cache = unlockHash pushed.pools.cache sub.segHash ∧
      final.pools.ledger = mambaHolding ((forwarded.bind Req.mambaPoolIdx).toList) + pushed.pools.ledger := by
  have kept := Pools.ledger_withCache (node.maybePushAfterPrefill tick sub).pools
    (unlockHash_entries (node.maybePushAfterPrefill tick sub).pools.cache sub.segHash)
  cases forwarded with
  | none => exact ⟨rfl,by simpa [picScatterRetire,mapCache] using kept⟩
  | some req =>
    refine ⟨rfl,?_⟩
    rw [← kept]
    exact Pools.ledger_freeMamba ((node.maybePushAfterPrefill tick sub).pools.withCache _) _

theorem retire_lockRef {node : Node Hash} {entry : SegmentEntry Hash} (forwarded : Option (Req Hash))
    (filed : node.pools.cache.entries.get? sub.segHash = some entry) :
    let pushed := node.maybePushAfterPrefill tick sub
    let final := node.picScatterRetire tick sub forwarded
    pushed.pools.cache.lockRef entry = lockAfterPush node tick sub (node.pools.cache.lockRef entry) ∧
      final.pools.cache.lockRef entry = pushed.pools.cache.lockRef entry - 1 ∧
      ∀ other, other ≠ entry → final.pools.cache.lockRef other = pushed.pools.cache.lockRef other := by
  obtain ⟨same,pushed⟩ := push_lockRef tick sub filed
  obtain ⟨cache,-⟩ := retire_pools tick sub node forwarded
  have still : (node.maybePushAfterPrefill tick sub).pools.cache.entries.get? sub.segHash = some entry := by rw [same,filed]
  refine ⟨pushed,?_,fun other differ => ?_⟩
  · rw [cache,unlockHash_lockRef still,if_pos rfl]
  · rw [cache,unlockHash,still,elim_some,PICache.lockRef_unlock,if_neg differ]

theorem private_lost {node : Node Hash} {pools : Pools Hash} {given : Holding} (after : Req Hash) (kv : miss.kv ≠ [])
    (share : given + kvHolding miss.kv ≤ own req miss) (owned : Unshared (ledger node + own req miss))
    (bounded : pools.ledger ≤ given + node.pools.ledger) :
    ∃ slot ∈ (own req miss).1, slot ∉ ({ node with pools := pools }.picScatterRetire tick sub (some after)).pools.ledger.1 := by
  obtain ⟨slot,member⟩ := exists_mem_of_ne_nil _ kv
  refine ⟨slot,by simp [own,member],fun back => ?_⟩
  set cached : Node Hash := { node with pools := pools }
  obtain ⟨-,final⟩ := retire_pools tick sub cached (some after)
  rw [final,Prod.fst_add,mambaHolding_fst,zero_add] at back
  have kept : ledger (cached.maybePushAfterPrefill tick sub) = ledger cached :=
    Steps.ledger (maybePushAfterPrefill_spec cached tick sub).1
  have inPushed : slot ∈ (ledger (cached.maybePushAfterPrefill tick sub)).1 := mem_add.mpr (.inl back)
  rw [kept] at inPushed
  have mine : slot ∈ (own req miss).1 := by simp [own,member]
  have elsewhere : slot ∈ given.1 ∨ slot ∈ (ledger node).1 := by
    rcases mem_add.mp inPushed with inPools | waits
    · rcases mem_add.mp (Multiset.mem_of_le bounded.1 inPools) with inGiven | inPools
      · exact .inl inGiven
      · exact .inr (mem_add.mpr (.inl inPools))
    · exact .inr (mem_add.mpr (.inr waits))
  rcases elsewhere with inGiven | inNode
  · have once : Unshared (given + kvHolding miss.kv) :=
      ⟨nodup_of_le share.1 (Unshared.right owned).1,nodup_of_le share.2 (Unshared.right owned).2⟩
    exact once.fst_disjoint inGiven (by simpa using member)
  · exact owned.fst_disjoint inNode mine

end Retirement

/-- The entry is left with a lock to drop exactly when caching has locked it: a new entry by its own hold, an equal one
    that was there already by none. -/
def HoldFits (node : Node Hash) (tick : Tick) (sub : SubReq Hash) (ids : List Token) : Prop :=
  match node.pools.cache.entries.get? sub.segHash with
  | some entry => if entry.tokenIds = ids then lockAfterPush node tick sub (node.pools.cache.lockRef entry) = 0
      else 0 < lockAfterPush node tick sub 1
  | none => 0 < lockAfterPush node tick sub 1

/-- Without private copies all slots come back; the counts and the hold decide. -/
theorem plain_conserves_iff {node : Node Hash} {pools : Pools Hash} {entry : SegmentEntry Hash} {mambaSlot : Slot}
    {tick : Tick} {sub : SubReq Hash} {after : Req Hash} {ids : List Token} (kv : miss.kv ≠ []) (pub : miss.pub = none)
    (mamba : miss.mamba = some mambaSlot) (index : after.mambaPoolIdx = req.mambaPoolIdx)
    (tokens : miss.kv.length ≤ node.pools.cache.inflightFullTokens) (states : 1 ≤ node.pools.cache.inflightMambaSlots)
    (cached : CachedOne args ids sub.segHash miss.kv mambaSlot node.pools pools entry) :
    Conserved tick sub req miss node { node with pools := pools }
        ({ node with pools := pools }.picScatterRetire tick sub (some after)) ↔
      args.isTransition = true ∧ HoldFits node tick sub ids := by
  set later : Node Hash := { node with pools := pools }
  have filed : later.pools.cache.entries.get? sub.segHash = some entry := cached.filed
  obtain ⟨pushed,dropped,others⟩ := retire_lockRef tick sub (some after) filed
  obtain ⟨-,final⟩ := retire_pools tick sub later (some after)
  have grown : pools.ledger ≤ (later.maybePushAfterPrefill tick sub).pools.ledger :=
    Steps.grows (maybePushAfterPrefill_spec later tick sub).1
  have back := cached.back.trans grown
  have kvBack : ∀ slot ∈ (own req miss).1, slot ∈ (later.picScatterRetire tick sub (some after)).pools.ledger.1 := by
    intro slot mine
    rw [final]
    refine mem_add.mpr (.inr (Multiset.mem_of_le back.1 ?_))
    simpa [own,pub] using mine
  have mambaBack : ∀ slot ∈ (own req miss).2, slot ∈ (later.picScatterRetire tick sub (some after)).pools.ledger.2 := by
    intro slot mine
    rw [final]
    have split : slot = mambaSlot ∨ slot ∈ req.mambaPoolIdx := by simpa [own,mamba] using mine
    rcases split with rfl | inIndex
    · exact mem_add.mpr (.inr (Multiset.mem_of_le back.2 (by simp)))
    · exact mem_add.mpr (.inl (by simpa [index] using inIndex))
  have length : 0 < miss.kv.length := length_pos_iff.mpr kv
  have lock : later.pools.cache.lockRef entry = pools.cache.lockRef entry := rfl
  have fits : args.isTransition = true → ((later.maybePushAfterPrefill tick sub).pools.cache.lockRef entry =
      (later.picScatterRetire tick sub (some after)).pools.cache.lockRef entry + (later.pools.cache.lockRef entry -
        if node.pools.cache.entries.get? sub.segHash = some entry then node.pools.cache.lockRef entry else 0) ↔
      HoldFits node tick sub ids) := by
    intro transition
    rw [dropped,pushed,lock]
    have fresh (unmatched : ∀ existing, node.pools.cache.entries.get? sub.segHash = some existing → existing.tokenIds ≠ ids) :
        (lockAfterPush later tick sub (pools.cache.lockRef entry) =
          lockAfterPush later tick sub (pools.cache.lockRef entry) - 1 + (pools.cache.lockRef entry -
            if node.pools.cache.entries.get? sub.segHash = some entry then node.pools.cache.lockRef entry else 0) ↔
          0 < lockAfterPush node tick sub 1) := by
      obtain ⟨born,locked⟩ := cached.inserted unmatched
      rw [if_neg born,locked,if_pos transition]
      have same : lockAfterPush later tick sub 1 = lockAfterPush node tick sub 1 := rfl
      omega
    unfold HoldFits
    cases present : node.pools.cache.entries.get? sub.segHash with
    | none =>
      have inserted := fresh fun existing found => by rw [present] at found; cases found
      rwa [present] at inserted
    | some existing =>
      by_cases equal : existing.tokenIds = ids
      · obtain ⟨rfl,locked⟩ := cached.adopted existing present equal
        simp only [if_pos equal,if_true,locked,Nat.sub_self]
        have same : lockAfterPush later tick sub (node.pools.cache.lockRef entry) =
          lockAfterPush node tick sub (node.pools.cache.lockRef entry) := rfl
        omega
      · simp only [if_neg equal]
        rw [← present]
        refine fresh fun other found => ?_
        rw [present] at found
        cases found
        exact equal
  constructor
  · intro conserved
    have transition : args.isTransition = true := by
      by_contra addition
      have same := cached.tokens
      have counted := conserved.tokens
      rw [if_neg addition] at same
      simp only [later,pub] at counted
      omega
    exact ⟨transition,(fits transition).mp (conserved.hold entry cached.filed)⟩
  · rintro ⟨transition,hold⟩
    have full := cached.tokens
    have slots := cached.states
    rw [if_pos transition] at full slots
    refine ⟨kvBack,mambaBack,?_,?_,?_,?_⟩
    · simp only [later,full,pub,getD_none,length_nil]
      omega
    · simp only [later,slots]
      omega
    · intro other filed
      cases some.inj (filed.symm.trans cached.filed)
      exact (fits transition).mpr hold
    · intro other unfiled
      exact others other fun same => unfiled (same ▸ cached.filed)

/-- A computed sub-request is retired without loss exactly in the plain transition mode, for a segment that is long enough
    and (unless the lock count is zero anyway) was not inserted by someone else meanwhile; the combines that expire in the
    scan of a local push must not take the hold away. A cached one drops its hold under the last condition. -/
theorem retire_conserves_iff (forwarded : Forwarded args req seg miss) (node : Node Hash) (tick : Tick) (sub : SubReq Hash)
    (named : sub.segHash = req.segmentHash args seg) (owned : Unshared (ledger node + own req miss))
    (tokens : miss.kv.length + (miss.pub.getD []).length ≤ node.pools.cache.inflightFullTokens)
    (states : 1 ≤ node.pools.cache.inflightMambaSlots) :
    (∃ after pools, cacheUnfinishedReq args tick.now req node.pools = some (after,pools) ∧
      (Conserved tick sub req miss node { node with pools := pools }
          ({ node with pools := pools }.picScatterRetire tick sub (some after)) ↔
        args.isTransition = true ∧ args.rope = false ∧ args.short seg = false ∧
          HoldFits node tick sub (segmentIds req.originInputIds seg))) ∧
    ∀ entry, node.pools.cache.entries.get? sub.segHash = some entry →
      let pushed := node.maybePushAfterPrefill tick sub
      let final := node.picScatterRetire tick sub none
      (pushed.pools.cache.lockRef entry = final.pools.cache.lockRef entry + 1 ↔
        0 < lockAfterPush node tick sub (node.pools.cache.lockRef entry)) ∧
      (∀ other, other ≠ entry → final.pools.cache.lockRef other = pushed.pools.cache.lockRef other) ∧
      final.pools.ledger = pushed.pools.ledger ∧
      final.pools.cache.inflightFullTokens = pushed.pools.cache.inflightFullTokens ∧
      final.pools.cache.inflightMambaSlots = pushed.pools.cache.inflightMambaSlots := by
  refine ⟨?_,fun entry filed => ?_⟩
  · obtain ⟨after,pools,executed,index,cached⟩ := cacheUnfinishedReq_one forwarded tick.now node.pools
    refine ⟨after,pools,executed,?_⟩
    by_cases short : args.short seg = true
    · rw [if_pos short] at cached
      subst cached
      have split : own req miss = kvHolding (miss.pub.getD []) + mambaHolding miss.mamba.toList +
          mambaHolding req.mambaPoolIdx.toList + (0 + kvHolding miss.kv) := by
        rw [own]
        abel
      have share : 0 + kvHolding miss.kv ≤ own req miss := split ▸ le_more _ _
      obtain ⟨slot,mine,lost⟩ := private_lost tick sub after forwarded.kv share owned (zero_add node.pools.ledger).ge
      exact iff_of_false (fun conserved => lost (conserved.kv slot mine)) (by simp [short])
    · rw [if_neg short] at cached
      obtain ⟨kvSlots,mambaSlot,entry,kv,mamba,cached⟩ := cached
      cases rope : args.rope with
      | true =>
        rw [rope,if_pos rfl] at kv
        have split : own req miss = mambaHolding req.mambaPoolIdx.toList +
            (kvHolding kvSlots + mambaHolding [mambaSlot] + kvHolding miss.kv) := by
          rw [own,kv,mamba,getD_some,toList_some]
          abel
        have share : kvHolding kvSlots + mambaHolding [mambaSlot] + kvHolding miss.kv ≤ own req miss := split ▸ le_more _ _
        obtain ⟨slot,mine,lost⟩ := private_lost tick sub after forwarded.kv share owned cached.bounded
        exact iff_of_false (fun conserved => lost (conserved.kv slot mine)) (by simp)
      | false =>
        have pub : miss.pub = none := by simpa [rope] using forwarded.pub
        rw [rope] at kv
        cases kv
        rw [pub] at tokens
        rw [plain_conserves_iff forwarded.kv pub mamba index (by simpa using tokens) states (named ▸ cached)]
        simp [short]
  · obtain ⟨pushed,dropped,others⟩ := retire_lockRef tick sub none filed
    obtain ⟨cache,ledger⟩ := retire_pools tick sub node none
    refine ⟨?_,others,by simpa using ledger,?_,?_⟩
    · rw [dropped,pushed]
      omega
    · rw [cache,unlockHash]
      cases (node.maybePushAfterPrefill tick sub).pools.cache.entries.get? sub.segHash <;> rfl
    · rw [cache,unlockHash]
      cases (node.maybePushAfterPrefill tick sub).pools.cache.entries.get? sub.segHash <;> rfl

/-- A batch of equal sub-requests of one token, matched and given their slots on an empty engine. -/
def forwardedSubs (mode : PICMode) (count : Nat) : Option (Extended (List Token)) :=
  let args := plainArgs mode (-1)
  picAllocForExtend args (.clear 4 4 2 false) (List.replicate count (initNextRoundInput args 0 (Req.create [[5]] true 0) .empty).1)

def remoteSub : SubReq (List Token) := ⟨0,[5],some (0,0),false⟩
def quietTick : Tick := ⟨1,10,some [],fun _ => .proc,fun _ => false⟩
def nodeOf (pools : Pools (List Token)) : Node (List Token) := ⟨pools,.empty,[],[],[],[],[],[],[],[]⟩

def transitionBatch : Extended (List Token) := (forwardedSubs .transition 1).get rfl
def transitionSub : Req (List Token) := transitionBatch.reqs.head (List.cons_ne_nil _ _)

theorem transition_sub_conserved :
    ∃ after pools, cacheUnfinishedReq (plainArgs .transition (-1)) 1 transitionSub transitionBatch.pools = some (after,pools) ∧
      Conserved quietTick remoteSub transitionSub ⟨[1],none,some 2⟩ (nodeOf transitionBatch.pools) (nodeOf pools)
        ((nodeOf pools).picScatterRetire quietTick remoteSub (some after)) := by
  have forwarded : Forwarded (plainArgs .transition (-1)) transitionSub (0,1) ⟨[1],none,some 2⟩ :=
    ⟨rfl,rfl,rfl,by simp,rfl,rfl⟩
  obtain ⟨after,pools,executed,conserved⟩ := (retire_conserves_iff forwarded (nodeOf transitionBatch.pools) quietTick remoteSub
    rfl ⟨by decide +kernel,by decide +kernel⟩ (by decide +kernel) (by decide +kernel)).1
  exact ⟨after,pools,executed,conserved.mpr ⟨rfl,rfl,rfl,Nat.zero_lt_succ 1⟩⟩

/-- In a rope mode the private copy stays with the retired sub-request. In the plain transition mode, of two equal
    sub-requests in a batch the second one adopts the first one's entry and drops the first one's hold. -/
theorem retire_loses : (∃ extended ∈ forwardedSubs .transitionRope 1, ∃ req ∈ extended.reqs.head?,
    ∃ result ∈ cacheUnfinishedReq (plainArgs .transitionRope (-1)) 1 req extended.pools,
      ¬ Conserved quietTick remoteSub req ⟨[1],some [2],some 2⟩ (nodeOf extended.pools) (nodeOf result.2)
        ((nodeOf result.2).picScatterRetire quietTick remoteSub (some result.1))) ∧
    ∃ extended ∈ forwardedSubs .transition 2, ∃ first ∈ extended.reqs[0]?, ∃ second ∈ extended.reqs[1]?,
      ∃ held ∈ cacheUnfinishedReq (plainArgs .transition (-1)) 1 first extended.pools,
        ∃ result ∈ cacheUnfinishedReq (plainArgs .transition (-1)) 1 second held.2,
          ¬ Conserved quietTick remoteSub second ⟨[2],none,some 4⟩ (nodeOf held.2) (nodeOf result.2)
            ((nodeOf result.2).picScatterRetire quietTick remoteSub (some result.1)) := by
  refine ⟨⟨_,rfl,_,rfl,_,rfl,fun conserved => ?_⟩,_,rfl,_,rfl,_,rfl,_,rfl,_,rfl,fun conserved => ?_⟩
  · exact absurd (conserved.kv 1 (by decide +kernel)) (by decide +kernel)
  · exact absurd (conserved.hold _ rfl) (by decide +kernel)

end Hypic.Retire
