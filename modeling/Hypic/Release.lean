import Hypic.Request

/-! Handing a request's slots to the cache after prefill and giving the rest back at its end. -/

namespace Hypic.Release
open Policy Allocator Cache Request
universe u
variable {Hash : Type u} [DecidableEq Hash]

def incLockRef (req : Req Hash) (cache : PICache Hash) : PICache Hash :=
  req.picSegmentEntries.values.foldl PICache.lock cache
def decLockRef (req : Req Hash) (cache : PICache Hash) : PICache Hash :=
  req.picSegmentEntries.values.foldl PICache.unlock cache

theorem incLockRef_frame (req : Req Hash) (cache : PICache Hash) :
    (incLockRef req cache).entries = cache.entries ∧ (incLockRef req cache).created = cache.created := by
  unfold incLockRef
  induction req.picSegmentEntries.values generalizing cache with
  | nil => exact ⟨rfl,rfl⟩
  | cons entry rest ih => exact ih (cache.lock entry)

/-- The caching loop's state: the request, the pools and the slots leaving the in-flight count. -/
structure Caching (Hash : Type u) [DecidableEq Hash] where
  req : Req Hash
  pools : Pools Hash
  inflightTokens : Nat
  inflightMamba : Nat

/-- The last segment of a multi-segment prompt is not cached, and no short segment is. -/
def skips (args : ServerArgs Hash) (req : Req Hash) (seg : Seg) : Bool :=
  (some seg = req.globalSeg ∧ req.picScatterSingleSeg = false) ∨ args.short seg = true

namespace Caching
variable (state : Caching Hash) (seg : Seg) (kvSlots : List Slot) (mambaSlot : Slot)

/-- An equal segment is cached already: the request's own copy is freed and the entry adopted. -/
def adopt (segHash : Hash) (existing : SegmentEntry Hash) (cache : PICache Hash) : Caching Hash :=
  { req := { state.req with
      picSegmentEntries := state.req.picSegmentEntries.set segHash existing
      picFreedMissSegments := state.req.picFreedMissSegments ++ [seg] }
    pools := ((state.pools.freeKv kvSlots).freeMamba [mambaSlot]).withCache cache
    inflightTokens := state.inflightTokens + kvSlots.length
    inflightMamba := state.inflightMamba + 1 }

/-- A new entry takes the slots over. Only the transition modes protect it with a lock. -/
def insert (args : ServerArgs Hash) (segHash : Hash) (entry : SegmentEntry Hash) (cache : PICache Hash) : Caching Hash :=
  { req := { state.req with
      picSegmentEntries := state.req.picSegmentEntries.set segHash entry
      picCacheOwnedMissSegments := state.req.picCacheOwnedMissSegments ++ [seg] }
    pools := state.pools.withCache (if args.isTransition then cache.lock entry else cache)
    inflightTokens := state.inflightTokens + kvSlots.length
    inflightMamba := state.inflightMamba + 1 }

/-- Adopt or insert, by what the index holds. -/
def commit (args : ServerArgs Hash) (now : Nat) : Caching Hash :=
  let ids := segmentIds state.req.originInputIds seg
  let segHash := args.segmentHash ids
  match state.pools.cache.matchSegment now segHash ids with
  | (some existing,cache) => state.adopt seg kvSlots mambaSlot segHash existing cache
  | (none,cache) =>
    let (entry,cache) := cache.insertSegment now segHash ids kvSlots mambaSlot
    state.insert seg kvSlots args segHash entry cache

/-- One miss segment of the loop. A cacheable segment without its slots fails an assertion. -/
def cacheMiss (args : ServerArgs Hash) (now : Nat) (state : Caching Hash) (seg : Seg) : Option (Caching Hash) :=
  if skips args state.req seg then some state
  else
    match state.req.picMissSegmentSlots.get? seg with
    | none => some state
    | some slots =>
      match if args.rope then slots.pub else some slots.kv, slots.mamba with
      | some kvSlots, some mambaSlot => some (state.commit seg kvSlots mambaSlot args now)
      | _, _ => none
end Caching

def cacheUnfinishedReq (args : ServerArgs Hash) (now : Nat) (req : Req Hash) (pools : Pools Hash) :
    Option (Req Hash × Pools Hash) :=
  let start : Caching Hash :=
    ⟨{ req with picCacheOwnedMissSegments := [], picFreedMissSegments := [] },pools,0,0⟩
  (req.picMissSegments.foldlM (Caching.cacheMiss args now) start).map fun state =>
    (state.req,
      if args.isTransition = true ∧ (0 < state.inflightTokens ∨ 0 < state.inflightMamba) then
        state.pools.withCache (state.pools.cache.removeInflight state.inflightTokens state.inflightMamba)
      else state.pools)

/-- Addition mode drops the whole in-flight count of the request at its end. -/
def removeMissInflight (args : ServerArgs Hash) (req : Req Hash) (pools : Pools Hash) : Pools Hash :=
  if args.isTransition then pools
  else
    let slots := req.picMissSegmentSlots.values
    pools.withCache (pools.cache.removeInflight
      (slots.map fun miss => miss.kv.length + (miss.pub.getD []).length).sum
      (slots.map fun miss => miss.mamba.toList.length).sum)

/-- The last segment of a multi-segment prompt is never cached, so its slots are freed here. -/
def freeLastSegment (args : ServerArgs Hash) (req : Req Hash) (pools : Pools Hash) : Option (Pools Hash) :=
  match req.globalSeg.bind req.picMissSegmentSlots.get? with
  | none => some pools
  | some miss =>
    if args.rope = true ∧ miss.pub ≠ none then none
    else
      let pools := (pools.freeKv miss.kv).freeMamba miss.mamba.toList
      some (if args.isTransition = true ∧ args.rope = false then
        pools.withCache (pools.cache.removeInflight miss.kv.length miss.mamba.toList.length) else pools)

/-- Short segments that the caching loop skipped. The lone segment of a prompt is its last one. -/
def skippedSegments (args : ServerArgs Hash) (req : Req Hash) : List MissSlots :=
  (req.picMissSegmentSlots.items.filter fun item =>
    ¬ (some item.1 = req.lastSeg ∨ item.1 ∈ req.picCacheOwnedMissSegments ∨ item.1 ∈ req.picFreedMissSegments) ∧
      args.short item.1 = true).map Prod.snd

def freeSkippedSegments (args : ServerArgs Hash) (req : Req Hash) (pools : Pools Hash) : Pools Hash :=
  let skipped := skippedSegments args req
  if args.rope = true ∨ skipped = [] then pools
  else
    let kv := skipped.flatMap MissSlots.kv
    let mamba := skipped.flatMap fun miss => miss.mamba.toList
    let pools := (pools.freeKv kv).freeMamba mamba
    if args.isTransition then pools.withCache (pools.cache.removeInflight kv.length mamba.length) else pools

/-- The private copies of the local misses; the global segment's was freed with it. -/
def localPrivate (req : Req Hash) : List Slot :=
  (req.picMissSegmentSlots.items.filter fun item => some item.1 ≠ req.globalSeg).flatMap fun item => item.2.kv

def freePrivateSlots (args : ServerArgs Hash) (req : Req Hash) (pools : Pools Hash) : Pools Hash :=
  if args.rope then
    let priv := localPrivate req
    let pools := (pools.freeKv priv).withCache (pools.cache.removeInflight priv.length 0)
    match req.globalSeg.bind req.picMissSegmentSlots.get? with
    | none => pools
    | some miss => pools.withCache (pools.cache.removeInflight miss.kv.length 1)
  else pools

def hitPrivate (req : Req Hash) : List Slot := req.picRopeHitPrivateSlots.values.flatMap Prod.fst

def freeHitPrivateSlots (args : ServerArgs Hash) (req : Req Hash) (pools : Pools Hash) : Pools Hash :=
  if args.rope then
    (pools.freeKv (hitPrivate req)).withCache (pools.cache.removeInflight (hitPrivate req).length 0)
  else pools

/-- Where the range freed with the request starts: a decode engine owns the whole row. -/
def decodeStart (isDecode : Bool) (req : Req Hash) : Nat :=
  if isDecode then 0 else (req.lastSeg.map Prod.snd).getD 0

def decodeSlots (isDecode : Bool) (req : Req Hash) : List Slot :=
  if req.picSegments = [] ∨ req.reqPoolIdx = none then [] else req.rowSlice (decodeStart isDecode req) req.kvCommittedLen

def cacheFinishedReq (args : ServerArgs Hash) (isDecode : Bool) (now : Nat) (req : Req Hash) (pools : Pools Hash)
    (isInsert : Bool) : Option (Req Hash × Pools Hash) :=
  let released :=
    if req.picMissSegmentSlots.items = [] then some (req,pools)
    else
      (if isInsert then cacheUnfinishedReq args now req pools else some (req,pools)).bind fun (req,pools) =>
        (freeLastSegment args req (removeMissInflight args req pools)).map fun pools =>
          (req,freePrivateSlots args req (freeSkippedSegments args req pools))
  released.map fun (req,pools) =>
    let pools := (freeHitPrivateSlots args req pools).freeKv (decodeSlots isDecode req)
    let pools := pools.freeMamba req.mambaPoolIdx.toList
    ({ req with mambaPoolIdx := none },pools.withCache (decLockRef req pools.cache))

end Hypic.Release
