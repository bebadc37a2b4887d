import Hypic.Parking

/-! Flushing the cache while the scatter tables keep slots: who owns a slot of one scatter engine, and when the free
    lists stay free of duplicates after the pools were cleared. -/

namespace Hypic.Flush
open Policy Allocator Cache Scatter Node Parking Dict List
universe u
variable {Hash : Type u}

/-- What `is_fully_idle` reads on a prefill engine; an absent batch is an empty one. -/
structure Queues where
  runningBatch : List Nat
  chunkedReq : Option Nat
  lastBatch : List Nat
  curBatch : List Nat
  enableOverlap : Bool
  resultQueue : List Nat
  waitingQueue : List Nat
  grammarQueue : List Nat
  disaggPrefillInflightQueue : List Nat
  disaggPrefillBootstrapQueue : List Nat

/-- None of the scatter tables is looked at. -/
def isFullyIdle (queues : Queues) : Bool :=
  queues.runningBatch.isEmpty && queues.chunkedReq.isNone && queues.lastBatch.isEmpty && queues.curBatch.isEmpty &&
    (!queues.enableOverlap || queues.resultQueue.isEmpty) && queues.waitingQueue.isEmpty && queues.grammarQueue.isEmpty &&
    queues.disaggPrefillInflightQueue.isEmpty && queues.disaggPrefillBootstrapQueue.isEmpty

/-- The sizes the pools were made with. -/
structure Sizes where
  kv : Nat
  mamba : Nat
  req : Nat
  needSort : Bool

variable [DecidableEq Hash]

/-- The index is dropped and both free lists are made anew; the scatter tables stay. -/
def flushCache (sizes : Sizes) (queues : Queues) (node : Node Hash) : Node Hash :=
  if isFullyIdle queues then { node with pools := .clear sizes.kv sizes.mamba sizes.req sizes.needSort } else node

def FreeOnce (node : Node Hash) : Prop := node.pools.kv.slots.Nodup ∧ node.pools.mamba.freeSlots.Nodup

instance (node : Node Hash) : Decidable (FreeOnce node) := inferInstanceAs (Decidable (_ ∧ _))

/-! ### The ledger of a scatter engine -/

/-- Free slots, the index's slots and those of pending destinations. -/
def ledger (node : Node Hash) : Holding := node.pools.ledger + node.scatterPending.total fun item => item.2.holding

theorem Still.ledger {before after : Node Hash} (still : Still before after) : ledger after = ledger before := by
  simp only [Flush.ledger,Pools.ledger,still.kv,still.mamba,PICache.holding_congr still.entries,still.pending]

theorem freeDst_ledger (pools : Pools Hash) (dst : Dst Hash) : (freeDst pools dst).ledger = dst.holding + pools.ledger := by
  rw [freeDst,Pools.ledger_withCache _ (PICache.removeInflight_entries ..),Pools.ledger_freeMamba,Pools.ledger_freeKv,
    Dst.holding]
  abel

theorem freeCombinePending_ledger (node : Node Hash) (rows : List SegKey) :
    ledger (node.freeCombinePending rows) = ledger node := by
  unfold freeCombinePending
  induction node.scatterPending.keys.filter (fun key => key ∈ rows) generalizing node with
  | nil => rfl
  | cons key rest ih =>
    rw [foldl_cons,ih,freePending]
    cases waits : node.scatterPending.get? key with
    | none => rfl
    | some dst =>
      simp only [ledger,freeDst_ledger,total_of_get? _ waits]
      abel

theorem releaseOne_ledger (now : Nat) (node : Node Hash) (entry : Parked Hash) :
    ledger (node.releaseOne now entry) = ledger node := by
  unfold releaseOne
  split
  · have dropped := mapCache_still (node.freeCombinePending entry.rows) fun cache => unlockAll_entries cache entry.hashes
    exact (Still.ledger dropped).trans (freeCombinePending_ledger node entry.rows)
  · split <;> rfl

variable {node : Node Hash}

/-- An injection moves a destination's slots to the index, or to the free lists when the hash is there already. -/
theorem inject_ledger (now : Nat) {key : SegKey} {dst : Dst Hash}
    (waits : node.scatterPending.get? key = some dst) : ledger (node.inject now key dst) = ledger node := by
  simp only [ledger,total_of_get? _ waits,inject]
  cases present : node.pools.cache.entries.get? dst.segHash with
  | some existing =>
    simp only [Pools.ledger_withCache _ (PICache.removeInflight_entries ..),Pools.ledger_freeMamba,Pools.ledger_freeKv,
      Pools.ledger_withCache _ (PICache.lock_entries ..),Dst.holding]
    abel
  | none =>
    have missed : (node.pools.cache.matchSegment now dst.segHash dst.tokenIds).1 = none := by
      simp [PICache.matchSegment,present]
    have stored := node.pools.cache.store_holding now dst.segHash dst.tokenIds dst.kvSlots dst.mambaSlot present
    simp only [PICache.insertSegment_of_none _ _ _ _ _ _ missed,Pools.ledger_withCache _ (PICache.removeInflight_entries ..)]
    simp only [Pools.ledger,Pools.withCache]
    rw [PICache.holding_congr (PICache.lock_entries ..),stored,Dst.holding]
    abel

theorem Steps.ledger {now : Nat} {before after : Node Hash} (steps : Steps now before after) :
    ledger after = ledger before := by
  induction steps with
  | refl => rfl
  | tail _ step ih =>
    rw [← ih]
    cases step with
    | still same => exact Still.ledger same
    | release _ => exact releaseOne_ledger now _ _
    | emptied => rfl
    | inject waits => exact inject_ledger now waits

/-- A destination leaves the pools for the table; one already there under the key is forgotten with its slots. -/
theorem allocDst_ledger (node : Node Hash) (key : SegKey) (segHash : Hash) (tokenIds : List Token) (bufInfosFail : Bool) :
    ∃ lost, ledger (node.allocDst key segHash tokenIds bufInfosFail) + lost = ledger node := by
  cases tokens : node.pools.allocTokenSlots tokenIds.length with
  | none =>
    refine ⟨0,?_⟩
    simp only [allocDst,tokens,ledger,(node.pools.evictFromTreeCache_evicts tokenIds.length).2.1,add_zero]
  | some taken =>
    obtain ⟨kvSlots,pools⟩ := taken
    obtain ⟨-,-,split,-⟩ := Pools.allocTokenSlots_spec tokens
    cases slot : pools.allocOneMamba with
    | none =>
      refine ⟨0,?_⟩
      simp only [allocDst,tokens,slot,ledger,Pools.ledger_freeKv,split,add_zero]
    | some found =>
      obtain ⟨mambaSlot,after⟩ := found
      obtain ⟨-,splitMamba,-⟩ := Pools.allocOneMamba_spec slot
      simp only [allocDst,tokens,slot]
      split_ifs
      · refine ⟨0,?_⟩
        simp only [ledger,freeDst_ledger,Pools.ledger_withCache _ (PICache.addInflight_entries ..),split,splitMamba,
          Dst.holding,add_zero]
        abel
      · simp only [ledger,Pools.ledger_withCache _ (PICache.addInflight_entries ..),total_set,split,splitMamba,
          Dst.holding]
        cases old : node.scatterPending.get? key with
        | none =>
          refine ⟨0,?_⟩
          rw [erase_absent old]
          abel
        | some dst =>
          refine ⟨dst.holding,?_⟩
          rw [total_of_get? _ old]
          simp only [Dst.holding]
          abel

theorem step_ledger (node : Node Hash) (action : Action Hash) : ∃ lost, ledger (step node action) + lost = ledger node := by
  have kept {after : Node Hash} (same : ledger after = ledger node) : ∃ lost, ledger after + lost = ledger node :=
    ⟨0,by rw [same,add_zero]⟩
  cases action with
  | allocDst key segHash tokenIds bufInfosFail => exact allocDst_ledger node key segHash tokenIds bufInfosFail
  | gateCombine entry =>
    refine kept ?_
    simp only [step,Node.gateCombine]
    split <;> rfl
  | releaseCombineHolds hashes => exact kept (Still.ledger (mapCache_still node fun cache => unlockAll_entries cache hashes))
  | handle key => exact kept rfl
  | enqueueHit sub =>
    refine kept ?_
    simp only [step,Node.enqueueHit]
    split
    · have held := mapCache_still node fun cache => lockHash_entries cache sub.segHash
      exact (Still.ledger held : ledger (node.mapCache fun cache => lockHash cache sub.segHash) = ledger node)
    · rfl
  | picDrain tick => exact kept (Steps.ledger (picDrain_spec node tick).1)
  | onIdle now => exact kept (Steps.ledger (tryReleaseCombines_spec now node).2.1)
  | evict numTokens mambaNum =>
    refine kept ?_
    simp only [step,ledger,(node.pools.evict_evicts numTokens mambaNum).2.1]

theorem run_unshared (unshared : Unshared (ledger node)) (actions : List (Action Hash)) :
    Unshared (ledger (actions.foldl step node)) := by
  induction actions generalizing node with
  | nil => exact unshared
  | cons action rest ih =>
    obtain ⟨lost,moved⟩ := step_ledger node action
    exact ih (Unshared.left (moved ▸ unshared))

theorem freeOnce_of_unshared (unshared : Unshared (ledger node)) : FreeOnce node := by
  have free := Unshared.left (Unshared.left unshared)
  exact ⟨by simpa using free.1,by simpa using free.2⟩

theorem clear_ledger (sizes : Sizes) :
    (Pools.clear sizes.kv sizes.mamba sizes.req sizes.needSort : Pools Hash).ledger =
      kvHolding (List.range' 1 sizes.kv) + mambaHolding (List.range' 1 sizes.mamba) := by
  simp [Pools.ledger,Pools.clear,MambaSlotAllocator.clear,PICache.holding,PICache.empty]

/-! ### A destination that outlives a flush -/

theorem freeCombinePending_get? (node : Node Hash) (rows : List SegKey) (sought : SegKey) :
    (node.freeCombinePending rows).scatterPending.get? sought =
      if sought ∈ rows then none else node.scatterPending.get? sought := by
  have each (keys : List SegKey) (node : Node Hash) : (keys.foldl freePending node).scatterPending.get? sought =
      if sought ∈ keys then none else node.scatterPending.get? sought := by
    induction keys generalizing node with
    | nil => rfl
    | cons key rest ih =>
      rw [foldl_cons,ih,freePending]
      by_cases same : sought = key
      · subst same
        cases waits : node.scatterPending.get? sought <;> simp [waits]
      · cases waits : node.scatterPending.get? key <;> simp [same,get?_erase]
  rw [freeCombinePending,each]
  by_cases listed : sought ∈ rows
  · by_cases waits : sought ∈ node.scatterPending.keys
    · simp [listed,waits]
    · simp [listed,waits,(get?_eq_none ..).mpr waits]
  · simp [listed]

theorem scan_shrinks (now : Nat) (entries : List (Parked Hash)) (node : Node Hash) {key : SegKey}
    (absent : node.scatterPending.get? key = none) :
    (entries.foldl (releaseOne now) node).scatterPending.get? key = none := by
  induction entries generalizing node with
  | nil => exact absent
  | cons entry rest ih =>
    refine ih _ ?_
    unfold releaseOne
    split
    · have freed := freeCombinePending_get? node entry.rows key
      simp only [absent,ite_self] at freed
      exact freed
    · split
      · exact absent
      · exact absent

/-- A request that names every pending destination arrives after a flush and expires. -/
def expire (node : Node Hash) (segHash : Hash) : List (Action Hash) :=
  [.gateCombine ⟨0,[segHash],node.scatterPending.keys,0⟩,.onIdle 1]

theorem expire_empties (dropped : node.pools.cache.entries = .empty) (segHash : Hash) :
    let final := (expire node segHash).foldl step node
    final.pools.cache.entries = .empty ∧ final.scatterPending = .empty ∧ ledger final = ledger node := by
  set parked : Node Hash :=
    { node with combineParked := node.combineParked ++ [⟨0,[segHash],node.scatterPending.keys,0⟩] } with parkedIs
  have gated : (expire node segHash).foldl step node = parked.tryReleaseCombines 1 := by
    simp [expire,step,Node.gateCombine,dropped,Dict.contains,parkedIs]
  obtain ⟨same,steps,-⟩ := tryReleaseCombines_spec 1 parked
  simp only [gated]
  have kept : ledger (parked.tryReleaseCombines 1) = ledger parked := Steps.ledger steps
  refine ⟨same.trans dropped,eq_empty fun key => ?_,kept⟩
  rw [tryReleaseCombines,parkedIs,foldl_append,← parkedIs,foldl_cons,foldl_nil,releaseOne,
    if_pos (by simp)]
  refine (freeCombinePending_get? ..).trans ?_
  split
  · rfl
  · rename_i unlisted
    exact scan_shrinks 1 _ parked ((get?_eq_none ..).mpr unlisted)

/-- After a flush that the idle check lets through, the free lists stay free of duplicates in every later run exactly
    when no destination was pending. -/
theorem flush_safe_iff (sizes : Sizes) (queues : Queues) (node : Node Hash) (idle : isFullyIdle queues = true)
    (inPool : ∀ item ∈ node.scatterPending.items, item.2.mambaSlot ∈ List.range' 1 sizes.mamba) :
    (∀ later : List (Action Hash), FreeOnce (later.foldl step (flushCache sizes queues node))) ↔
      node.scatterPending.items = [] := by
  have flushed : ledger (flushCache sizes queues node) = kvHolding (List.range' 1 sizes.kv) +
      mambaHolding (List.range' 1 sizes.mamba) + node.scatterPending.total fun item => item.2.holding := by
    simp only [flushCache,idle,if_true,ledger,clear_ledger]
  constructor
  · intro safe
    by_contra pending
    obtain ⟨item,member⟩ := exists_mem_of_ne_nil _ pending
    have dropped : (flushCache sizes queues node).pools.cache.entries = .empty := by
      simp [flushCache,idle,Pools.clear,PICache.empty]
    obtain ⟨entries,empty,same⟩ := expire_empties dropped item.2.segHash
    have once := (safe (expire (flushCache sizes queues node) item.2.segHash)).2
    -- What is left of the ledger is free, and it has the destination's slot twice.
    have waits : node.scatterPending.get? item.1 = some item.2 := (get?_eq_some ..).mpr member
    rw [flushed,ledger,empty,Pools.ledger,PICache.holding,entries,total_of_get? _ waits] at same
    have twice := congrArg (Multiset.count item.2.mambaSlot) (congrArg Prod.snd same)
    have inFree : 1 ≤ (List.range' 1 sizes.mamba).count item.2.mambaSlot := one_le_count_iff.mpr (inPool item member)
    have atMost := nodup_iff_count_le_one.mp once item.2.mambaSlot
    simp only [Dst.holding,total_empty,add_zero,Prod.snd_add,kvHolding_snd,mambaHolding_snd,zero_add,Multiset.count_add,
      Multiset.coe_count,count_singleton_self] at twice
    omega
  · intro empty later
    refine freeOnce_of_unshared (run_unshared ?_ later)
    rw [flushed,Dict.total,empty]
    exact ⟨by simpa using nodup_range',by simpa using nodup_range'⟩

/-- Nothing is queued; one destination of one segment is pending. -/
def idleQueues : Queues := ⟨[],none,[],[],true,[],[],[],[],[]⟩
def stashed : Node Nat := (⟨.clear 2 1 1 false,.empty,[],[],[],[],[],[],[],[]⟩ : Node Nat).allocDst (0,0) 7 [5] false

theorem flush_without_pending :
    FreeOnce ([Action.picDrain ⟨1,10,some [((0,0),true),((0,0),false)],fun _ => .proc,fun _ => false⟩,
      .releaseCombineHolds [7],.evict 1 1].foldl step
        (flushCache ⟨2,1,1,false⟩ idleQueues ⟨.clear 2 1 1 false,.empty,[],[],[],[],[],[],[],[]⟩)) :=
  (flush_safe_iff ⟨2,1,1,false⟩ idleQueues _ rfl (by simp)).mpr rfl _

/-- The writes of a stashed segment land after the flush, its combine ends and the entry is evicted: both slots are
    free twice. -/
theorem flushed_slot_free_twice :
    isFullyIdle idleQueues = true ∧
      let final := [Action.picDrain ⟨1,10,some [((0,0),true),((0,0),false)],fun _ => .proc,fun _ => false⟩,
        .releaseCombineHolds [7],.evict 1 1].foldl step (flushCache ⟨2,1,1,false⟩ idleQueues stashed)
      final.pools.kv.slots = [1,2,1] ∧ final.pools.mamba.freeSlots = [1,1] ∧ ¬ FreeOnce final := by
  decide +kernel

end Hypic.Flush
