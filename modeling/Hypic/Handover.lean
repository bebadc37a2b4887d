import Mathlib.Algebra.Order.Sub.Prod
import Hypic.Custody

/-! Accounting of the caching loop and of a request's end: what is handed to the index, what is
    freed and what is lost. -/

namespace Hypic.Handover
open Policy Allocator Cache Request Alloc Release Runs Custody Dict
universe u
variable {Hash : Type u} [DecidableEq Hash]

/-- The slots of a miss that caching takes away from the request. -/
def released (rope : Bool) (miss : MissSlots) : Holding :=
  kvHolding (if rope then miss.pub.getD [] else miss.kv) + mambaHolding miss.mamba.toList

theorem released_eq {args : ServerArgs Hash} {miss : MissSlots} {kvSlots : List Slot} {mambaSlot : Slot}
    (kv : (if args.rope then miss.pub else some miss.kv) = some kvSlots) (mamba : miss.mamba = some mambaSlot) :
    released args.rope miss = kvHolding kvSlots + mambaHolding [mambaSlot] := by
  unfold released
  rw [mamba]
  split at kv
  · rename_i rope; simp [rope,kv]
  · rename_i rope; simp [rope,Option.some.inj kv]

theorem missTotal_settle (rope : Bool) {before after : Req Hash} {seg : Seg} {miss : MissSlots}
    (slots : after.picMissSegmentSlots = before.picMissSegmentSlots)
    (found : before.picMissSegmentSlots.get? seg = some miss) (plainPub : rope = false → miss.pub = none)
    (fresh : seg ∉ settled before) (grown : ∀ other, other ∈ settled after ↔ other = seg ∨ other ∈ settled before) :
    missTotal rope before = released rope miss + missTotal rope after := by
  unfold missTotal
  rw [slots,total_of_get? _ found,total_of_get? (missHolding rope (settled after)) found]
  have others := total_congr (missHolding rope (settled after)) (missHolding rope (settled before))
    (before.picMissSegmentSlots.erase seg) (by
      intro other value present
      rw [get?_erase] at present
      split at present
      · cases present
      · rename_i differs
        simp [missHolding,grown,differs])
  rw [others]
  have here : missHolding rope (settled before) (seg,miss) =
      released rope miss + missHolding rope (settled after) (seg,miss) := by
    cases rope with
    | true => simp only [missHolding,released,fresh,grown,true_or,if_true,if_false]; simp; abel
    | false => simp [missHolding,released,fresh,grown,plainPub rfl]
  rw [here]
  abel

/-- Two requests that differ in what caching records only. -/
def CachedOnly (before after : Req Hash) : Prop :=
  after = { before with
    picSegmentEntries := after.picSegmentEntries
    picCacheOwnedMissSegments := after.picCacheOwnedMissSegments
    picFreedMissSegments := after.picFreedMissSegments }

theorem CachedOnly.refl (req : Req Hash) : CachedOnly req req := rfl
theorem CachedOnly.trans {first second third : Req Hash} (left : CachedOnly first second)
    (right : CachedOnly second third) : CachedOnly first third := by
  unfold CachedOnly at *
  rw [right,left]

section CachedOnly

variable {before after : Req Hash} (same : CachedOnly before after)

include same

theorem CachedOnly.slots :
    after.picMissSegmentSlots = before.picMissSegmentSlots := (congrArg Req.picMissSegmentSlots same).trans rfl
theorem CachedOnly.misses :
    after.picMissSegments = before.picMissSegments := (congrArg Req.picMissSegments same).trans rfl
theorem CachedOnly.ids :
    after.originInputIds = before.originInputIds := (congrArg Req.originInputIds same).trans rfl
theorem CachedOnly.segs :
    after.picSegments = before.picSegments := (congrArg Req.picSegments same).trans rfl
theorem CachedOnly.segmentHash (args : ServerArgs Hash) (seg : Seg) :
    after.segmentHash args seg = before.segmentHash args seg := by rw [Req.segmentHash,Req.segmentHash,same.ids]
theorem CachedOnly.lastSeg : after.lastSeg = before.lastSeg := by
  rw [Req.lastSeg,Req.lastSeg,same.segs]
theorem CachedOnly.globalSeg :
    after.globalSeg = before.globalSeg := by rw [Req.globalSeg,Req.globalSeg,same.segs,same.lastSeg]
theorem CachedOnly.hitPrivate :
    Release.hitPrivate after = Release.hitPrivate before := by
  rw [Release.hitPrivate,Release.hitPrivate,(congrArg Req.picRopeHitPrivateSlots same).trans rfl]
theorem CachedOnly.skips (args : ServerArgs Hash) (seg : Seg) :
    Release.skips args after seg = Release.skips args before seg := by
  have flag : after.picScatterSingleSeg = before.picScatterSingleSeg := (congrArg Req.picScatterSingleSeg same).trans rfl
  rw [Release.skips,Release.skips,same.globalSeg,flag]

end CachedOnly

/-- Equal hashes mean equal tokens, between a request's cacheable misses and the index and among them. -/
def CollisionFree (args : ServerArgs Hash) (req : Req Hash) (cache : PICache Hash) : Prop :=
  (∀ seg ∈ req.picMissSegments, skips args req seg = false →
    ∀ entry ∈ cache.entries.get? (req.segmentHash args seg), entry.tokenIds = segmentIds req.originInputIds seg) ∧
  ∀ seg ∈ req.picMissSegments, skips args req seg = false → ∀ other ∈ req.picMissSegments, skips args req other = false →
    req.segmentHash args seg = req.segmentHash args other →
      segmentIds req.originInputIds seg = segmentIds req.originInputIds other

instance (args : ServerArgs Hash) (req : Req Hash) (cache : PICache Hash) : Decidable (CollisionFree args req cache) :=
  inferInstanceAs (Decidable (_ ∧ _))

/-- Slots of the misses as allocation shapes them. -/
def PlainPub (args : ServerArgs Hash) (req : Req Hash) : Prop :=
  ∀ seg miss, req.picMissSegmentSlots.get? seg = some miss → args.rope = false → miss.pub = none

/-- The caching loop from a request with no settled segment; `lost` is what hash collisions dropped. -/
structure CacheLoop (args : ServerArgs Hash) (start : Caching Hash) (lost : Holding) (state : Caching Hash)
    (remaining : List Seg) : Prop where
  frame : CachedOnly start.req state.req
  ledger : missTotal args.rope state.req + state.pools.ledger + lost = missTotal args.rope start.req + start.pools.ledger
  leaving : count (missTotal args.rope state.req) + (state.inflightTokens,state.inflightMamba) =
    count (missTotal args.rope start.req)
  inflight : state.pools.cache.inflight = start.pools.cache.inflight
  unsettled : ∀ seg ∈ remaining, seg ∉ settled state.req
  inside : ∀ seg ∈ remaining, seg ∈ start.req.picMissSegments
  distinct : remaining.Nodup
  chosen : ∀ seg ∈ settled state.req, skips args start.req seg = false ∧ seg ∈ start.req.picMissSegments
  done : ∀ seg ∈ start.req.picMissSegments, seg ∈ remaining ∨ skips args start.req seg = true ∨
    start.req.picMissSegmentSlots.get? seg = none ∨ seg ∈ settled state.req
  clean : CollisionFree args start.req start.pools.cache → lost = 0 ∧ ∀ seg ∈ start.req.picMissSegments,
    skips args start.req seg = false → ∀ entry, state.pools.cache.entries.get? (start.req.segmentHash args seg) = some entry →
      entry.tokenIds = segmentIds start.req.originInputIds seg

theorem adopt_ledger (state : Caching Hash) (seg : Seg) (kvSlots : List Slot) (mambaSlot : Slot) (segHash : Hash)
    (existing : SegmentEntry Hash) {cache : PICache Hash} (same : cache.entries = state.pools.cache.entries) :
    (state.adopt seg kvSlots mambaSlot segHash existing cache).pools.ledger =
      kvHolding kvSlots + mambaHolding [mambaSlot] + state.pools.ledger := by
  simp only [Caching.adopt]
  rw [Pools.ledger_withCache _ (by exact same),Pools.ledger_freeMamba,Pools.ledger_freeKv]
  abel

theorem insert_ledger (args : ServerArgs Hash) (state : Caching Hash) (now : Nat) (seg : Seg) (kvSlots : List Slot)
    (mambaSlot : Slot) (segHash : Hash) (ids : List Token) :
    ∃ lost, (state.insert seg kvSlots args segHash (state.pools.cache.store now segHash ids kvSlots mambaSlot).1
        (state.pools.cache.store now segHash ids kvSlots mambaSlot).2).pools.ledger + lost =
      kvHolding kvSlots + mambaHolding [mambaSlot] + state.pools.ledger ∧
      (state.pools.cache.entries.get? segHash = none → lost = 0) := by
  have locked (cache : PICache Hash) (entry : SegmentEntry Hash) :
      (if args.isTransition then cache.lock entry else cache).holding = cache.holding := by
    split
    · exact PICache.holding_congr (PICache.lock_entries ..)
    · rfl
  cases found : state.pools.cache.entries.get? segHash with
  | none =>
    refine ⟨0,?_,fun _ => rfl⟩
    simp only [Caching.insert,Pools.ledger,Pools.withCache,locked,PICache.store_holding _ _ _ _ _ _ found]
    abel
  | some old =>
    refine ⟨old.holding,?_,fun absent => by cases absent⟩
    have replaced := PICache.store_holding_over state.pools.cache now segHash ids kvSlots mambaSlot found
    simp only [Caching.insert,Pools.ledger,Pools.withCache,locked]
    calc _ = kvHolding state.pools.kv.slots + mambaHolding state.pools.mamba.freeSlots +
          (old.holding + (state.pools.cache.store now segHash ids kvSlots mambaSlot).2.holding) := by abel
      _ = _ := by rw [replaced]; abel

/-- Handing a miss over: the request is settled with `entry`, and the slots leave its share of the in-flight count. -/
structure Files (args : ServerArgs Hash) (state : Caching Hash) (seg : Seg) (miss : MissSlots) (kvSlots : List Slot) (mambaSlot : Slot)
    (entry : SegmentEntry Hash) (next : Caching Hash) : Prop where
  cacheable : skips args state.req seg = false
  found : state.req.picMissSegmentSlots.get? seg = some miss
  kv : (if args.rope then miss.pub else some miss.kv) = some kvSlots
  mamba : miss.mamba = some mambaSlot
  frame : CachedOnly state.req next.req
  refers : next.req.picSegmentEntries = state.req.picSegmentEntries.set (state.req.segmentHash args seg) entry
  settled : ∀ other, other ∈ settled next.req ↔ other = seg ∨ other ∈ settled state.req
  leaves : (next.inflightTokens,next.inflightMamba) = (state.inflightTokens,state.inflightMamba) +
    count (kvHolding kvSlots + mambaHolding [mambaSlot])
  inflight : next.pools.cache.inflight = state.pools.cache.inflight

/-- What the caching loop can do with one segment. -/
inductive CacheStep (args : ServerArgs Hash) (state : Caching Hash) (seg : Seg) : Caching Hash → Prop where
  | skip (skipped : skips args state.req seg = true ∨ state.req.picMissSegmentSlots.get? seg = none) :
      CacheStep args state seg state
  | adopt {next : Caching Hash} {miss : MissSlots} {kvSlots : List Slot} {mambaSlot : Slot} {existing : SegmentEntry Hash}
      (files : Files args state seg miss kvSlots mambaSlot existing next)
      (present : state.pools.cache.entries.get? (state.req.segmentHash args seg) = some existing)
      (tokens : existing.tokenIds = segmentIds state.req.originInputIds seg)
      (entries : next.pools.cache.entries = state.pools.cache.entries)
      (created : next.pools.cache.created = state.pools.cache.created)
      (locks : ∀ entry, next.pools.cache.lockRef entry = state.pools.cache.lockRef entry)
      (ledger : next.pools.ledger = kvHolding kvSlots + mambaHolding [mambaSlot] + state.pools.ledger) : CacheStep args state seg next
  | insert {next : Caching Hash} {miss : MissSlots} {kvSlots : List Slot} {mambaSlot : Slot} {entry : SegmentEntry Hash}
      (files : Files args state seg miss kvSlots mambaSlot entry next)
      (unmatched : ∀ existing, state.pools.cache.entries.get? (state.req.segmentHash args seg) = some existing →
        existing.tokenIds ≠ segmentIds state.req.originInputIds seg)
      (made : entry = ⟨state.pools.cache.created,state.req.segmentHash args seg,kvSlots,mambaSlot,
        segmentIds state.req.originInputIds seg⟩)
      (entries : next.pools.cache.entries = state.pools.cache.entries.set (state.req.segmentHash args seg) entry)
      (created : next.pools.cache.created = state.pools.cache.created + 1)
      (locks : ∀ other, next.pools.cache.lockRef other =
        if other = entry then if args.isTransition then 1 else 0 else state.pools.cache.lockRef other)
      (ledger : ∃ lost, next.pools.ledger + lost = kvHolding kvSlots + mambaHolding [mambaSlot] + state.pools.ledger ∧
        (state.pools.cache.entries.get? (state.req.segmentHash args seg) = none → lost = 0)) : CacheStep args state seg next

private theorem store_lockRef (cache : PICache Hash) (now : Nat) (segHash : Hash) (ids : List Token) (slots : List Slot) (mamba : Slot)
    (entry : SegmentEntry Hash) :
    (cache.store now segHash ids slots mamba).2.lockRef entry =
      if entry = ⟨cache.created,segHash,slots,mamba,ids⟩ then 0 else cache.lockRef entry := by
  simp only [PICache.lockRef,PICache.store,Function.update_apply]
  split <;> rfl

theorem cacheMiss_step {args : ServerArgs Hash} {now : Nat} {state next : Caching Hash} {seg : Seg}
    (executed : Caching.cacheMiss args now state seg = some next) : CacheStep args state seg next := by
  unfold Caching.cacheMiss at executed
  split at executed
  · rename_i skipped
    cases executed
    exact .skip (.inl skipped)
  · rename_i cacheable
    have cacheable : skips args state.req seg = false := by simpa using cacheable
    split at executed
    · rename_i absent
      cases executed
      exact .skip (.inr absent)
    · rename_i miss found
      split at executed
      · rename_i kvSlots mambaSlot kv mamba
        simp only [Option.some.injEq] at executed
        subst executed
        unfold Caching.commit
        obtain ⟨ids,idsIs⟩ : ∃ ids, ids = segmentIds state.req.originInputIds seg := ⟨_,rfl⟩
        obtain ⟨segHash,hashIs⟩ : ∃ segHash, segHash = state.req.segmentHash args seg := ⟨_,rfl⟩
        have hash : args.segmentHash ids = segHash := by rw [idsIs,hashIs]; rfl
        simp only [← idsIs,hash]
        cases looked : (state.pools.cache.matchSegment now segHash ids).1 with
        | some existing =>
          obtain ⟨present,tokens⟩ := (PICache.matchSegment_some ..).mp looked
          obtain ⟨entries,locks,created⟩ := state.pools.cache.matchSegment_frame now segHash ids
          have ledger := adopt_ledger state seg kvSlots mambaSlot segHash existing entries
          have inflight := state.pools.cache.matchSegment_inflight now segHash ids
          have pair : state.pools.cache.matchSegment now segHash ids = (some existing,_) := Prod.ext looked rfl
          rw [pair]
          refine .adopt ⟨cacheable,found,kv,mamba,rfl,by rw [← hashIs]; rfl,fun other => ?_,by simp [Caching.adopt],inflight⟩ (hashIs ▸ present) (idsIs ▸ tokens)
            entries created locks ledger
          simp only [settled,Caching.adopt,List.mem_append,List.mem_singleton]
          tauto
        | none =>
          have pair : state.pools.cache.matchSegment now segHash ids = (none,state.pools.cache) :=
            Prod.ext looked (PICache.matchSegment_none _ _ _ _ looked)
          rw [pair]
          simp only [PICache.insertSegment_of_none _ _ _ _ kvSlots mambaSlot looked]
          refine .insert ⟨cacheable,found,kv,mamba,rfl,by rw [← hashIs]; rfl,fun other => ?_,by simp [Caching.insert],?_⟩ ?_ (by rw [← hashIs,← idsIs]; rfl) ?_ ?_
            (fun other => ?_) (hashIs ▸ insert_ledger args state now seg kvSlots mambaSlot segHash ids)
          · simp only [settled,Caching.insert,List.mem_append,List.mem_singleton]
            tauto
          · simp only [Caching.insert,Pools.withCache]
            split <;> rfl
          · intro entry present tokens
            have hit := (PICache.matchSegment_some state.pools.cache entry now _ _).mpr ⟨hashIs ▸ present,idsIs ▸ tokens⟩
            rw [looked] at hit
            cases hit
          · rw [← hashIs]
            simp only [Caching.insert,Pools.withCache]
            split <;> rfl
          · simp only [Caching.insert,Pools.withCache]
            split <;> rfl
          · simp only [Caching.insert,Pools.withCache]
            split
            · rw [PICache.lockRef_lock,store_lockRef]
              split <;> simp_all [PICache.store]
            · exact store_lockRef ..
      · cases executed

section Loop
variable {args : ServerArgs Hash} {now : Nat} {start state next : Caching Hash} {lost : Holding} {seg : Seg} {rest : List Seg}

private theorem CacheLoop.settle (loop : CacheLoop args start lost state (seg::rest)) (plain : PlainPub args start.req)
    {miss : MissSlots} {kvSlots : List Slot} {mambaSlot : Slot} {entry : SegmentEntry Hash}
    (files : Files args state seg miss kvSlots mambaSlot entry next)
    (dropped : Holding) (ledger : next.pools.ledger + dropped = kvHolding kvSlots + mambaHolding [mambaSlot] + state.pools.ledger)
    (clean : CollisionFree args start.req start.pools.cache → dropped = 0 ∧ ∀ other ∈ start.req.picMissSegments,
      skips args start.req other = false → ∀ entry,
        next.pools.cache.entries.get? (start.req.segmentHash args other) = some entry →
          entry.tokenIds = segmentIds start.req.originInputIds other) :
    CacheLoop args start (lost + dropped) next rest := by
  obtain ⟨fresh,distinct⟩ := List.nodup_cons.mp loop.distinct
  have slots : start.req.picMissSegmentSlots.get? seg = some miss := by rw [← loop.frame.slots]; exact files.found
  have amount := released_eq files.kv files.mamba
  have shrinks := missTotal_settle args.rope files.frame.slots files.found (plain seg miss slots)
    (loop.unsettled seg (List.mem_cons_self ..)) files.settled
  refine
    { frame := loop.frame.trans files.frame
      ledger := ?_
      leaving := by rw [← loop.leaving,shrinks,files.leaves,amount]; simp only [map_add]; abel
      inflight := files.inflight.trans loop.inflight
      unsettled := ?_
      inside := fun other later => loop.inside other (List.mem_cons_of_mem _ later)
      distinct := distinct
      chosen := ?_
      done := ?_
      clean := fun free => ⟨by rw [(loop.clean free).1,(clean free).1,add_zero],(clean free).2⟩ }
  · rw [← loop.ledger,shrinks,amount]
    calc _ = missTotal args.rope next.req + (next.pools.ledger + dropped) + lost := by abel
      _ = _ := by rw [ledger]; abel
  · intro other later inside
    rcases (files.settled other).mp inside with same | inside
    · exact fresh (same ▸ later)
    · exact loop.unsettled other (List.mem_cons_of_mem _ later) inside
  · intro other inside
    rcases (files.settled other).mp inside with same | inside
    · rw [same,← loop.frame.skips]
      exact ⟨files.cacheable,loop.inside seg (List.mem_cons_self ..)⟩
    · exact loop.chosen other inside
  · intro other member
    rcases loop.done other member with later | skipped | absent | inside
    · rcases List.mem_cons.mp later with same | later
      · exact .inr (.inr (.inr ((files.settled other).mpr (.inl same))))
      · exact .inl later
    · exact .inr (.inl skipped)
    · exact .inr (.inr (.inl absent))
    · exact .inr (.inr (.inr ((files.settled other).mpr (.inr inside))))

theorem CacheLoop.step (loop : CacheLoop args start lost state (seg::rest)) (plain : PlainPub args start.req)
    (stepped : CacheStep args state seg next) : ∃ lost, CacheLoop args start lost next rest := by
  have member := loop.inside seg (List.mem_cons_self ..)
  cases stepped with
  | skip skipped =>
    refine ⟨lost,{ loop with
      unsettled := fun other later => loop.unsettled other (List.mem_cons_of_mem _ later)
      inside := fun other later => loop.inside other (List.mem_cons_of_mem _ later)
      distinct := (List.nodup_cons.mp loop.distinct).2
      done := ?_ }⟩
    intro other inside
    rcases loop.done other inside with later | rest
    · rcases List.mem_cons.mp later with rfl | later
      · rw [loop.frame.skips,loop.frame.slots] at skipped
        rcases skipped with skipped | absent
        · exact .inr (.inl skipped)
        · exact .inr (.inr (.inl absent))
      · exact .inl later
    · exact .inr rest
  | adopt files present tokens entries created locks ledger =>
    refine ⟨_,loop.settle plain files 0 (by rw [ledger,add_zero]) fun free => ⟨rfl,fun other inside chosen entry here => ?_⟩⟩
    exact (loop.clean free).2 other inside chosen entry (entries ▸ here)
  | insert files unmatched made entries created locks ledger =>
    obtain ⟨dropped,gained,absentClean⟩ := ledger
    refine ⟨_,loop.settle plain files dropped gained fun free => ?_⟩
    have chosen : skips args start.req seg = false := by rw [← loop.frame.skips]; exact files.cacheable
    have hash := loop.frame.segmentHash args seg
    have absent : state.pools.cache.entries.get? (state.req.segmentHash args seg) = none := by
      by_contra present
      obtain ⟨entry,present⟩ := Option.ne_none_iff_exists'.mp present
      refine unmatched entry present ?_
      rw [loop.frame.ids]
      exact (loop.clean free).2 seg member chosen entry (hash ▸ present)
    refine ⟨absentClean absent,fun other inside otherChosen entry here => ?_⟩
    rw [entries,get?_set] at here
    split at here
    · rename_i same
      cases here
      rw [hash] at same
      rw [made,loop.frame.ids]
      exact (free.2 other inside otherChosen seg member chosen same).symm
    · exact (loop.clean free).2 other inside otherChosen entry here
end Loop

/-- The segments that caching settles are the cacheable misses. -/
structure Settles (args : ServerArgs Hash) (before after : Req Hash) : Prop where
  frame : CachedOnly before after
  chosen : ∀ seg ∈ settled after, skips args before seg = false ∧ seg ∈ before.picMissSegments
  done : ∀ seg ∈ before.picMissSegments, skips args before seg = false →
    (before.picMissSegmentSlots.get? seg).isSome → seg ∈ settled after

def unsettledReq (req : Req Hash) : Req Hash := { req with picCacheOwnedMissSegments := [], picFreedMissSegments := [] }

theorem cacheUnfinishedReq_loop {args : ServerArgs Hash} {now : Nat} {req after : Req Hash} {pools final : Pools Hash}
    (plain : PlainPub args req) (distinct : req.picMissSegments.Nodup)
    (executed : cacheUnfinishedReq args now req pools = some (after,final)) :
    ∃ state lost, req.picMissSegments.foldlM (Caching.cacheMiss args now) ⟨unsettledReq req,pools,0,0⟩ = some state ∧
      CacheLoop args ⟨unsettledReq req,pools,0,0⟩ lost state [] ∧ after = state.req ∧
      final = if args.isTransition = true ∧ (0 < state.inflightTokens ∨ 0 < state.inflightMamba) then
        state.pools.withCache (state.pools.cache.removeInflight state.inflightTokens state.inflightMamba) else state.pools := by
  obtain ⟨state,looped,same⟩ := map_eq_some_iff.mp executed
  simp only [Prod.mk.injEq] at same
  have begin : CacheLoop args ⟨unsettledReq req,pools,0,0⟩ 0 ⟨unsettledReq req,pools,0,0⟩ req.picMissSegments :=
    { frame := CachedOnly.refl _
      ledger := add_zero _
      leaving := add_zero _
      inflight := rfl
      unsettled := fun _ _ => by simp [settled,unsettledReq]
      inside := fun _ member => member
      distinct := distinct
      chosen := fun _ member => by simp [settled,unsettledReq] at member
      done := fun _ member => .inl member
      clean := fun free => ⟨rfl,fun seg member chosen entry found => free.1 seg member chosen entry found⟩ }
  obtain ⟨lost,loop⟩ := foldlM_keeps (fun state remaining => ∃ lost, CacheLoop args ⟨unsettledReq req,pools,0,0⟩ lost state remaining)
    (fun state seg rest next loop stepped => by
      obtain ⟨lost,loop⟩ := loop
      exact loop.step plain (cacheMiss_step stepped))
    ⟨0,begin⟩ looped
  exact ⟨state,lost,looped,loop,same.1.symm,same.2.symm⟩

theorem cacheUnfinishedReq_ledger {args : ServerArgs Hash} {now : Nat} {req after : Req Hash} {pools final : Pools Hash}
    (plain : PlainPub args req) (distinct : req.picMissSegments.Nodup)
    (executed : cacheUnfinishedReq args now req pools = some (after,final)) :
    Settles args req after ∧ ∃ lost, missTotal args.rope after + final.ledger + lost =
      missTotal args.rope (unsettledReq req) + pools.ledger ∧ (CollisionFree args req pools.cache → lost = 0) := by
  obtain ⟨state,lost,-,loop,rfl,rfl⟩ := cacheUnfinishedReq_loop plain distinct executed
  refine ⟨⟨(show CachedOnly req (unsettledReq req) from rfl).trans loop.frame,loop.chosen,?_⟩,lost,?_,fun free => (loop.clean free).1⟩
  · intro seg member chosen found
    rcases loop.done seg member with later | skipped | absent | inside
    · cases later
    · have conflict : skips args req seg = true := skipped
      rw [chosen] at conflict; cases conflict
    · have conflict : req.picMissSegmentSlots.get? seg = none := absent
      simp [conflict] at found
    · exact inside
  · rw [← loop.ledger]
    split
    · rw [Pools.ledger_withCache _ (PICache.removeInflight_entries ..)]
    · rfl

/-- The slots of a miss that nothing gives back when the request ends. -/
def leakedHolding (args : ServerArgs Hash) (req : Req Hash) (item : Seg × MissSlots) : Holding :=
  if args.rope then
    if some item.1 = req.globalSeg ∨ item.1 ∈ settled req then 0
    else kvHolding (item.2.pub.getD []) + mambaHolding item.2.mamba.toList
  else if item.1 ∈ settled req ∨ some item.1 = req.globalSeg ∨ (args.short item.1 = true ∧ some item.1 ≠ req.lastSeg) then 0
  else kvHolding item.2.kv + mambaHolding item.2.mamba.toList

def leaked (args : ServerArgs Hash) (req : Req Hash) : Holding := req.picMissSegmentSlots.total (leakedHolding args req)

section End
variable {args : ServerArgs Hash} {req : Req Hash} {pools after : Pools Hash}

theorem globalSeg_lastSeg {seg : Seg} (global : req.globalSeg = some seg) : req.lastSeg = some seg := by
  unfold Req.globalSeg at global
  split at global
  · exact global
  · cases global

theorem globalTotal_eq (req : Req Hash) :
    (req.picMissSegmentSlots.total fun item =>
      if some item.1 = req.globalSeg then kvHolding item.2.kv + mambaHolding item.2.mamba.toList else 0) =
      (req.globalSeg.bind req.picMissSegmentSlots.get?).elim 0 fun miss => kvHolding miss.kv + mambaHolding miss.mamba.toList := by
  cases req.globalSeg with
  | none => simp [Dict.total]
  | some seg =>
    have single := total_single (fun miss : MissSlots => kvHolding miss.kv + mambaHolding miss.mamba.toList) seg
      req.picMissSegmentSlots
    simp only [Option.some.injEq,single,bind_some]
    cases req.picMissSegmentSlots.get? seg <;> rfl

theorem freeLastSegment_ledger (executed : freeLastSegment args req pools = some after) :
    (∀ seg miss, req.globalSeg = some seg → req.picMissSegmentSlots.get? seg = some miss → args.rope = true → miss.pub = none) ∧
      after.ledger = (req.picMissSegmentSlots.total fun item =>
        if some item.1 = req.globalSeg then kvHolding item.2.kv + mambaHolding item.2.mamba.toList else 0) + pools.ledger := by
  rw [globalTotal_eq]
  unfold freeLastSegment at executed
  cases found : req.globalSeg.bind req.picMissSegmentSlots.get? with
  | none =>
    rw [found] at executed
    simp only [Option.some.injEq] at executed
    subst executed
    refine ⟨fun other miss equal present => ?_,by simp⟩
    rw [equal,bind_some,present] at found
    cases found
  | some miss =>
    rw [found] at executed
    simp only at executed
    split at executed
    · cases executed
    · rename_i asserted
      simp only [Option.some.injEq] at executed
      subst executed
      refine ⟨fun other held equal present rope => ?_,?_⟩
      · rw [equal,bind_some,present,Option.some.injEq] at found
        subst found
        by_contra pub
        exact asserted ⟨rope,pub⟩
      · rw [Option.elim_some]
        split
        · rw [Pools.ledger_withCache _ (PICache.removeInflight_entries ..),Pools.ledger_freeMamba,Pools.ledger_freeKv]
          abel
        · rw [Pools.ledger_freeMamba,Pools.ledger_freeKv]
          abel

theorem skippedTotal_eq (plain : args.rope = false) :
    (req.picMissSegmentSlots.total fun item =>
      if args.rope = false ∧ ¬ (some item.1 = req.lastSeg ∨ item.1 ∈ settled req) ∧ args.short item.1 = true then
        kvHolding item.2.kv + mambaHolding item.2.mamba.toList else 0) =
      kvHolding ((skippedSegments args req).flatMap MissSlots.kv) +
        mambaHolding ((skippedSegments args req).flatMap fun miss => miss.mamba.toList) := by
  rw [kvHolding_flatMap,mambaHolding_flatMap,← List.sum_map_add,skippedSegments,List.map_map]
  have filtered := total_filter (fun item : Seg × MissSlots => kvHolding item.2.kv + mambaHolding item.2.mamba.toList)
    (fun item => ¬ (some item.1 = req.lastSeg ∨ item.1 ∈ req.picCacheOwnedMissSegments ∨ item.1 ∈ req.picFreedMissSegments) ∧
      args.short item.1 = true) req.picMissSegmentSlots
  refine Eq.trans (total_congr _ _ _ fun key value _ => ?_) filtered
  simp [plain,settled]

theorem freeSkippedSegments_ledger (pools : Pools Hash) :
    (freeSkippedSegments args req pools).ledger = (req.picMissSegmentSlots.total fun item =>
      if args.rope = false ∧ ¬ (some item.1 = req.lastSeg ∨ item.1 ∈ settled req) ∧ args.short item.1 = true then
        kvHolding item.2.kv + mambaHolding item.2.mamba.toList else 0) + pools.ledger := by
  unfold freeSkippedSegments
  by_cases rope : args.rope = true
  · simp [rope,Dict.total]
  · have plain : args.rope = false := by simpa using rope
    rw [skippedTotal_eq plain]
    simp only [plain,false_eq_true,false_or]
    split
    · rename_i nothing; simp [nothing]
    · split
      · rw [Pools.ledger_withCache _ (PICache.removeInflight_entries ..),Pools.ledger_freeMamba,Pools.ledger_freeKv]
        abel
      · rw [Pools.ledger_freeMamba,Pools.ledger_freeKv]
        abel

theorem privateTotal_eq (rope : args.rope = true) :
    (req.picMissSegmentSlots.total fun item =>
      if args.rope = true ∧ some item.1 ≠ req.globalSeg then kvHolding item.2.kv else 0) = kvHolding (localPrivate req) := by
  rw [localPrivate,kvHolding_flatMap]
  have filtered := total_filter (fun item : Seg × MissSlots => kvHolding item.2.kv)
    (fun item => some item.1 ≠ req.globalSeg) req.picMissSegmentSlots
  refine Eq.trans (total_congr _ _ _ fun key value _ => ?_) filtered
  simp [rope]

theorem freePrivateSlots_ledger (pools : Pools Hash) :
    (freePrivateSlots args req pools).ledger = (req.picMissSegmentSlots.total fun item =>
      if args.rope = true ∧ some item.1 ≠ req.globalSeg then kvHolding item.2.kv else 0) + pools.ledger := by
  unfold freePrivateSlots
  by_cases rope : args.rope = true
  · rw [privateTotal_eq rope,if_pos rope]
    have gained : ((pools.freeKv (localPrivate req)).withCache
        (pools.cache.removeInflight (localPrivate req).length 0)).ledger = kvHolding (localPrivate req) + pools.ledger := by
      rw [Pools.ledger_withCache _ (by rfl),Pools.ledger_freeKv]
    split
    · exact gained
    · rw [Pools.ledger_withCache _ (by rfl)]
      exact gained
  · simp [rope,Dict.total]

private theorem missHolding_split (item : Seg × MissSlots) (found : req.picMissSegmentSlots.get? item.1 = some item.2)
    (plain : PlainPub args req) (unsettled : ∀ seg, req.globalSeg = some seg → seg ∉ settled req)
    (globalPub : ∀ seg miss, req.globalSeg = some seg → req.picMissSegmentSlots.get? seg = some miss →
      args.rope = true → miss.pub = none) :
    missHolding args.rope (settled req) item =
      (if some item.1 = req.globalSeg then kvHolding item.2.kv + mambaHolding item.2.mamba.toList else 0) +
      (if args.rope = false ∧ ¬ (some item.1 = req.lastSeg ∨ item.1 ∈ settled req) ∧ args.short item.1 = true then
        kvHolding item.2.kv + mambaHolding item.2.mamba.toList else 0) +
      (if args.rope = true ∧ some item.1 ≠ req.globalSeg then kvHolding item.2.kv else 0) +
      leakedHolding args req item := by
  by_cases global : some item.1 = req.globalSeg
  · have last := globalSeg_lastSeg global.symm
    have fresh := unsettled item.1 global.symm
    have pub : item.2.pub = none := by
      cases rope : args.rope with
      | true => exact globalPub item.1 item.2 global.symm found rope
      | false => exact plain item.1 item.2 found rope
    simp [missHolding,leakedHolding,global,last,fresh,pub]
  · by_cases done : item.1 ∈ settled req
    · cases rope : args.rope with
      | true => simp [missHolding,leakedHolding,global,done,rope]
      | false => simp [missHolding,leakedHolding,global,done,rope]
    · cases rope : args.rope with
      | true => simp [missHolding,leakedHolding,global,done,rope]
      | false =>
        have pub := plain item.1 item.2 found rope
        by_cases last : some item.1 = req.lastSeg
        · have differs : req.lastSeg ≠ req.globalSeg := last ▸ global
          simp [missHolding,leakedHolding,differs,done,rope,pub,last]
        · cases short : args.short item.1 with
          | true => simp [missHolding,leakedHolding,global,done,rope,pub,last,short]
          | false => simp [missHolding,leakedHolding,global,done,rope,pub,last,short]

theorem missTotal_split (plain : PlainPub args req) (unsettled : ∀ seg, req.globalSeg = some seg → seg ∉ settled req)
    (globalPub : ∀ seg miss, req.globalSeg = some seg → req.picMissSegmentSlots.get? seg = some miss →
      args.rope = true → miss.pub = none) :
    missTotal args.rope req =
      (req.picMissSegmentSlots.total fun item =>
        if some item.1 = req.globalSeg then kvHolding item.2.kv + mambaHolding item.2.mamba.toList else 0) +
      (req.picMissSegmentSlots.total fun item =>
        if args.rope = false ∧ ¬ (some item.1 = req.lastSeg ∨ item.1 ∈ settled req) ∧ args.short item.1 = true then
          kvHolding item.2.kv + mambaHolding item.2.mamba.toList else 0) +
      (req.picMissSegmentSlots.total fun item =>
        if args.rope = true ∧ some item.1 ≠ req.globalSeg then kvHolding item.2.kv else 0) + leaked args req := by
  rw [leaked,← total_add,← total_add,← total_add]
  exact total_congr _ _ _ fun key value found => missHolding_split (key,value) found plain unsettled globalPub

/-- The index and its counters are untouched; only in-flight counts may differ. -/
structure SameIndex (before after : PICache Hash) : Prop where
  entries : after.entries = before.entries
  counters : after.counters = before.counters
  created : after.created = before.created

theorem SameIndex.refl (cache : PICache Hash) : SameIndex cache cache := ⟨rfl,rfl,rfl⟩
theorem SameIndex.trans {first second third : PICache Hash} (left : SameIndex first second) (right : SameIndex second third) :
    SameIndex first third :=
  ⟨right.entries.trans left.entries,right.counters.trans left.counters,right.created.trans left.created⟩

theorem removeMissInflight_index (pools : Pools Hash) : SameIndex pools.cache (removeMissInflight args req pools).cache := by
  unfold removeMissInflight
  split
  · exact SameIndex.refl _
  · exact ⟨rfl,rfl,rfl⟩
theorem freeLastSegment_index (executed : freeLastSegment args req pools = some after) :
    SameIndex pools.cache after.cache := by
  unfold freeLastSegment at executed
  split at executed
  · cases executed; exact SameIndex.refl _
  · split at executed
    · cases executed
    · simp only [Option.some.injEq] at executed
      subst executed
      split <;> exact ⟨rfl,rfl,rfl⟩
theorem freeSkippedSegments_index (pools : Pools Hash) : SameIndex pools.cache (freeSkippedSegments args req pools).cache := by
  unfold freeSkippedSegments
  simp only
  split
  · exact SameIndex.refl _
  · split <;> exact ⟨rfl,rfl,rfl⟩
theorem freePrivateSlots_index (pools : Pools Hash) : SameIndex pools.cache (freePrivateSlots args req pools).cache := by
  unfold freePrivateSlots
  split
  · split <;> exact ⟨rfl,rfl,rfl⟩
  · exact SameIndex.refl _
theorem freeHitPrivateSlots_index (pools : Pools Hash) :
    SameIndex pools.cache (freeHitPrivateSlots args req pools).cache := by
  unfold freeHitPrivateSlots
  split <;> exact ⟨rfl,rfl,rfl⟩

theorem decLockRef_entries (req : Req Hash) (cache : PICache Hash) : (decLockRef req cache).entries = cache.entries := by
  unfold decLockRef
  induction req.picSegmentEntries.values generalizing cache with
  | nil => rfl
  | cons entry rest ih => exact (ih _).trans (PICache.unlock_entries ..)

theorem decLockRef_created (req : Req Hash) (cache : PICache Hash) : (decLockRef req cache).created = cache.created := by
  unfold decLockRef
  induction req.picSegmentEntries.values generalizing cache with
  | nil => rfl
  | cons entry rest ih => exact (ih _).trans (PICache.unlock_created ..)

/-- The arguments of all further calls at the end of a request, added up: for all misses in addition mode; else for the last
    segment, the skipped ones and the private copies. -/
def endAmount (args : ServerArgs Hash) (req : Req Hash) : ℕ × ℕ :=
  let last := req.globalSeg.bind req.picMissSegmentSlots.get?
  let skipped := skippedSegments args req
  (if args.isTransition then 0
    else ((req.picMissSegmentSlots.values.map fun miss => miss.kv.length + (miss.pub.getD []).length).sum,
      (req.picMissSegmentSlots.values.map fun miss => miss.mamba.toList.length).sum)) +
  (if args.isTransition = true ∧ args.rope = false then
    (last.elim 0 fun miss => (miss.kv.length,miss.mamba.toList.length)) +
      ((skipped.flatMap MissSlots.kv).length,(skipped.flatMap fun miss => miss.mamba.toList).length)
    else 0) +
  (if args.rope then
    ((localPrivate req).length,0) + (last.elim 0 fun miss => (miss.kv.length,1)) + ((hitPrivate req).length,0) else 0)

theorem freeLastSegment_inflight (executed : freeLastSegment args req pools = some after) :
    after.cache.inflight = pools.cache.inflight - if args.isTransition = true ∧ args.rope = false then
      (req.globalSeg.bind req.picMissSegmentSlots.get?).elim 0 fun miss => (miss.kv.length,miss.mamba.toList.length) else 0 := by
  unfold freeLastSegment at executed
  cases found : req.globalSeg.bind req.picMissSegmentSlots.get? with
  | none =>
    rw [found] at executed
    cases executed
    simp
  | some miss =>
    rw [found] at executed
    simp only at executed
    split at executed
    · cases executed
    · cases executed
      split <;> rfl

theorem freeSkippedSegments_inflight (pools : Pools Hash) :
    (freeSkippedSegments args req pools).cache.inflight = pools.cache.inflight -
      if args.isTransition = true ∧ args.rope = false then (((skippedSegments args req).flatMap MissSlots.kv).length,
        ((skippedSegments args req).flatMap fun miss => miss.mamba.toList).length) else 0 := by
  unfold freeSkippedSegments
  cases rope : args.rope with
  | true => simp
  | false =>
    by_cases nothing : skippedSegments args req = []
    · simp [nothing,← Prod.zero_eq_mk]
    · simp only [nothing,false_eq_true,or_self,if_false,and_true]
      split <;> rfl

theorem freePrivateSlots_inflight (pools : Pools Hash) :
    (freePrivateSlots args req pools).cache.inflight = pools.cache.inflight - if args.rope = true then
      ((localPrivate req).length,0) + (req.globalSeg.bind req.picMissSegmentSlots.get?).elim 0 fun miss => (miss.kv.length,1)
      else 0 := by
  unfold freePrivateSlots
  split
  · cases req.globalSeg.bind req.picMissSegmentSlots.get? with
    | none => rfl
    | some miss => exact Prod.ext (Nat.sub_sub ..) (Nat.sub_sub ..)
  · rfl

theorem decLockRef_inflight (req : Req Hash) (cache : PICache Hash) : (decLockRef req cache).inflight = cache.inflight := by
  unfold decLockRef
  induction req.picSegmentEntries.values generalizing cache with
  | nil => rfl
  | cons entry rest ih => exact ih (cache.unlock entry)

/-- The request as its own end finds it: cached once more when `is_insert` is set. -/
def CachedAtEnd (args : ServerArgs Hash) (now : Nat) (isInsert : Bool) (req : Req Hash) (pools : Pools Hash)
    (mid : Req Hash) (midPools : Pools Hash) : Prop :=
  if isInsert then cacheUnfinishedReq args now req pools = some (mid,midPools) else mid = req ∧ midPools = pools

/-- A request's end gives back everything it owns except what leaks, and drops its locks. -/
structure Ended (args : ServerArgs Hash) (req : Req Hash) (pools after : Pools Hash) : Prop where
  unlocked : ∃ cache, SameIndex pools.cache cache ∧ after.cache = decLockRef req cache
  inflight : after.cache.inflight = pools.cache.inflight - endAmount args req
  ledger : PlainPub args req → (∀ seg, req.globalSeg = some seg → seg ∉ settled req) →
    (args.rope = false → req.picRopeHitPrivateSlots = .empty) →
      after.ledger + leaked args req = held args.rope req + pools.ledger

theorem Ended.entries (ended : Ended args req pools after) : after.cache.entries = pools.cache.entries := by
  obtain ⟨cache,index,unlocked⟩ := ended.unlocked
  rw [unlocked,decLockRef_entries,index.entries]

theorem cacheFinishedReq_end {now : Nat} {isInsert : Bool} {final : Req Hash}
    (slots : req.picMissSegmentSlots.items ≠ [])
    (executed : cacheFinishedReq args false now req pools isInsert = some (final,after)) :
    ∃ mid midPools, CachedAtEnd args now isInsert req pools mid midPools ∧ Ended args mid midPools after := by
  unfold cacheFinishedReq at executed
  simp only [slots,if_false] at executed
  obtain ⟨⟨mid,tail⟩,released,same⟩ := map_eq_some_iff.mp executed
  obtain ⟨⟨cachedReq,midPools⟩,cached,released⟩ := bind_eq_some_iff.mp released
  obtain ⟨lastFreed,last,sameMid⟩ := map_eq_some_iff.mp released
  obtain ⟨rfl,rfl⟩ := sameMid
  obtain ⟨rfl,rfl⟩ := same
  refine ⟨cachedReq,midPools,?_,⟨_,?_,rfl⟩,?_,?_⟩
  · unfold CachedAtEnd
    split
    · rename_i insert; rwa [if_pos insert] at cached
    · rename_i keep
      rw [if_neg keep,Option.some.injEq,Prod.mk.injEq] at cached
      exact ⟨cached.1.symm,cached.2.symm⟩
  · exact (((((removeMissInflight_index midPools).trans (freeLastSegment_index last)).trans
      (freeSkippedSegments_index lastFreed)).trans (freePrivateSlots_index _)).trans (freeHitPrivateSlots_index _)).trans
        (SameIndex.refl _)
  · have first : (removeMissInflight args cachedReq midPools).cache.inflight = midPools.cache.inflight - if args.isTransition then 0
        else ((cachedReq.picMissSegmentSlots.values.map fun miss => miss.kv.length + (miss.pub.getD []).length).sum,
          (cachedReq.picMissSegmentSlots.values.map fun miss => miss.mamba.toList.length).sum) := by
      unfold removeMissInflight
      split <;> rfl
    have copies (pools : Pools Hash) : (freeHitPrivateSlots args cachedReq pools).cache.inflight =
        pools.cache.inflight - if args.rope then ((hitPrivate cachedReq).length,0) else 0 := by
      unfold freeHitPrivateSlots
      split <;> rfl
    refine (decLockRef_inflight cachedReq _).trans ((copies _).trans ?_)
    rw [freePrivateSlots_inflight,freeSkippedSegments_inflight,freeLastSegment_inflight last,first]
    simp only [tsub_tsub,endAmount]
    cases args.rope <;> cases args.isTransition <;> simp [add_assoc]
  · intro plain unsettled noCopies
    obtain ⟨globalPub,lastLedger⟩ := freeLastSegment_ledger last
    have inflight : (removeMissInflight args cachedReq midPools).ledger = midPools.ledger := by
      unfold removeMissInflight
      split
      · rfl
      · exact Pools.ledger_withCache _ (PICache.removeInflight_entries ..)
    have hits (pools : Pools Hash) : (freeHitPrivateSlots args cachedReq pools).ledger =
        kvHolding (hitPrivate cachedReq) + pools.ledger := by
      unfold freeHitPrivateSlots
      split
      · rw [Pools.ledger_withCache _ (by rfl),Pools.ledger_freeKv]
      · rename_i notRope
        simp [hitPrivate,noCopies (by simpa using notRope)]
    rw [Pools.ledger_withCache _ (decLockRef_entries ..),Pools.ledger_freeMamba,Pools.ledger_freeKv,hits,
      freePrivateSlots_ledger,freeSkippedSegments_ledger,lastLedger,inflight,held,missTotal_split plain unsettled globalPub]
    abel
end End

end Hypic.Handover
