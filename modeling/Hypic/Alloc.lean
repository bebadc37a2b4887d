import Hypic.Request

/-! Slot allocation for a prefill batch: request rows, KV slots for misses (and private copies
    in rope modes) and one mamba slot per cached segment. -/

namespace Hypic.Alloc
open Policy Allocator Cache Request
universe u
variable {Hash : Type u}

def mambaStatePerReqPrefixCache : Nat := 3

/-- Gives each request without a row the next free one. -/
def assignRows : List (Req Hash) → List Nat → List (Req Hash)
  | [], _ => []
  | req::rest, free =>
    match req.reqPoolIdx, free with
    | none, row::free => { req with reqPoolIdx := some row }::assignRows rest free
    | _, free => req::assignRows rest free

/-- `ReqToTokenPool.alloc`: a request that already has a row must have committed KV. -/
def allocRows (reqs : List (Req Hash)) (free : List Nat) : Option (List (Req Hash) × List Nat) :=
  if (reqs.any fun req => req.reqPoolIdx.isSome ∧ req.kvCommittedLen = 0) then none
  else
    let needSize := (reqs.filter fun req => req.reqPoolIdx.isNone).length
    if free.length < needSize then none else some (assignRows reqs free,free.drop needSize)

/-- `HybridReqToTokenPool.alloc`: the decode-time state slot of each request, with no eviction. -/
def assignMamba : List (Req Hash) → MambaSlotAllocator → Option (List (Req Hash) × MambaSlotAllocator)
  | [], mamba => some ([],mamba)
  | req::rest, mamba =>
    match req.mambaPoolIdx with
    | some _ => (assignMamba rest mamba).map fun (done,mamba) => (req::done,mamba)
    | none =>
      mamba.allocOne.bind fun (slot,mamba) =>
        (assignMamba rest mamba).map fun (done,mamba) => ({ req with mambaPoolIdx := some slot }::done,mamba)

variable [DecidableEq Hash]

/-- Evicts towards a fixed number of free states per request of the batch. -/
def reserveMamba (pools : Pools Hash) (numReqs : Nat) : Pools Hash :=
  let needed := numReqs * mambaStatePerReqPrefixCache
  let available := pools.mamba.availableSize
  if available < needed then (pools.evict 0 (needed - available)).2 else pools

def allocReqSlots (pools : Pools Hash) (reqs : List (Req Hash)) : Option (List (Req Hash) × Pools Hash) :=
  let pools := reserveMamba pools reqs.length
  (allocRows reqs pools.reqSlots).bind fun (reqs,rows) =>
    (assignMamba reqs pools.mamba).map fun (reqs,mamba) => (reqs,{ pools with reqSlots := rows, mamba := mamba })

/-- What is left of the allocated slots, with the state the walk over the batch carries. -/
structure Cursor (Hash : Type u) [DecidableEq Hash] where
  missRest : List Slot
  pubRest : List Slot
  hitRest : List Slot
  pools : Pools Hash
  totalMambaAlloc : Nat

/-- One request in the middle of its allocation. -/
structure Walk (Hash : Type u) [DecidableEq Hash] extends Cursor Hash where
  req : Req Hash
  slotAtPos : Nat → Option Slot

namespace Walk
def recordMiss (walk : Walk Hash) (seg : Seg) (withPub : Bool) (mamba : Option Slot) (pools : Pools Hash) : Walk Hash :=
  let n := seg.2 - seg.1
  let slots := walk.missRest.take n
  let pub := if withPub then some (walk.pubRest.take n) else none
  { missRest := walk.missRest.drop n
    pubRest := if withPub then walk.pubRest.drop n else walk.pubRest
    hitRest := walk.hitRest
    pools := pools
    totalMambaAlloc := walk.totalMambaAlloc + mamba.toList.length
    req := { walk.req with picMissSegmentSlots := walk.req.picMissSegmentSlots.set seg ⟨slots,pub,mamba⟩ }.writeRow seg slots
    slotAtPos := fun pos => if seg.1 ≤ pos ∧ pos < seg.2 then slots[pos - seg.1]? else walk.slotAtPos pos }

/-- A short segment that is not the last one gets no mamba slot: it will not be cached. -/
def allocMissStandard (args : ServerArgs Hash) (walk : Walk Hash) (seg : Seg) : Option (Walk Hash) :=
  if some seg ≠ walk.req.lastSeg ∧ args.short seg = true then some (walk.recordMiss seg false none walk.pools)
  else walk.pools.allocOneMamba.map fun (slot,pools) => walk.recordMiss seg false (some slot) pools

/-- The public copy is what the cache will own; the global segment has none. -/
def allocMissRope (walk : Walk Hash) (seg : Seg) : Option (Walk Hash) :=
  walk.pools.allocOneMamba.map fun (slot,pools) => walk.recordMiss seg (some seg ≠ walk.req.globalSeg) (some slot) pools

def writeHitStandard (walk : Walk Hash) (hit : Seg × Hash) : Option (Walk Hash) :=
  (walk.req.picSegmentEntries.get? hit.2).map fun entry => { walk with req := walk.req.writeRow hit.1 entry.fullKvSlots }

def writeHitRope (walk : Walk Hash) (hit : Seg × Hash) : Option (Walk Hash) :=
  (walk.req.picSegmentEntries.get? hit.2).map fun entry =>
    let n := hit.1.2 - hit.1.1
    let slots := walk.hitRest.take n
    let seam := (walk.req.picHitSeamPositions.get? hit.1).getD []
    { walk with
      hitRest := walk.hitRest.drop n
      req := { walk.req with
        picRopeHitPrivateSlots := walk.req.picRopeHitPrivateSlots.set hit.1 (slots,entry.fullKvSlots) }.writeRow hit.1 slots
      slotAtPos := fun pos => if pos ∈ seam then slots[pos - hit.1.1]? else walk.slotAtPos pos }

def startStandard (cursor : Cursor Hash) (req : Req Hash) : Walk Hash :=
  { cursor with req := { req with picMissSegmentSlots := .empty }, slotAtPos := fun _ => none }
def startRope (cursor : Cursor Hash) (req : Req Hash) : Walk Hash :=
  { cursor with
    req := { req with picMissSegmentSlots := .empty, picRopeHitPrivateSlots := .empty }, slotAtPos := fun _ => none }
end Walk

def allocReqStandard (args : ServerArgs Hash) (cursor : Cursor Hash) (req : Req Hash) : Option (Walk Hash) :=
  (req.picHitSegments.foldlM Walk.writeHitStandard (Walk.startStandard cursor req)).bind fun walk =>
    req.picMissSegments.foldlM (Walk.allocMissStandard args) walk

def allocReqRope (cursor : Cursor Hash) (req : Req Hash) : Option (Walk Hash) :=
  (req.picHitSegments.foldlM Walk.writeHitRope (Walk.startRope cursor req)).bind fun walk =>
    req.picMissSegments.foldlM Walk.allocMissRope walk

/-- The loop over the batch's requests. -/
def allocReqs (allocReq : Cursor Hash → Req Hash → Option (Walk Hash)) :
    List (Req Hash) → Cursor Hash → Option (List (Walk Hash) × Cursor Hash)
  | [], cursor => some ([],cursor)
  | req::rest, cursor =>
    (allocReq cursor req).bind fun walk =>
      (allocReqs allocReq rest walk.toCursor).map fun (walks,cursor) => (walk::walks,cursor)

def tokens (segs : List Seg) : Nat := (segs.map fun seg => seg.2 - seg.1).sum

def missTokens (req : Req Hash) : Nat := tokens req.picMissSegments
def localMissTokens (req : Req Hash) : Nat := tokens (req.picMissSegments.filter fun seg => some seg ≠ req.globalSeg)
def hitTokens (req : Req Hash) : Nat := tokens (req.picHitSegments.map Prod.fst)

structure Extended (Hash : Type u) [DecidableEq Hash] where
  outCacheLoc : List Slot
  reqs : List (Req Hash)
  pools : Pools Hash

def Extended.finish (outCacheLoc : List Slot) (totalTokens : Nat) (result : List (Walk Hash) × Cursor Hash) : Extended Hash :=
  ⟨outCacheLoc,result.1.map Walk.req,
    result.2.pools.withCache (result.2.pools.cache.addInflight totalTokens result.2.totalMambaAlloc)⟩

def picAllocStandard (args : ServerArgs Hash) (pools : Pools Hash) (reqs : List (Req Hash)) : Option (Extended Hash) :=
  (allocReqSlots pools reqs).bind fun (reqs,pools) =>
    let totalMiss := (reqs.map missTokens).sum
    (pools.allocTokenSlots totalMiss).bind fun (slots,pools) =>
      (allocReqs (allocReqStandard args) reqs ⟨slots,[],[],pools,0⟩).map (Extended.finish slots totalMiss)

/-- Slots of the forwarded tokens in position order; a position without a slot is a `KeyError`. -/
def slotsAtPositions (walks : List (Walk Hash)) : Option (List Slot) :=
  (walks.mapM fun walk : Walk Hash => walk.req.picMissTokenPositions.mapM walk.slotAtPos).map List.flatten

/-- The allocated slots are laid out as miss private, local miss public, hit private. -/
def picAllocTransitionRope (args : ServerArgs Hash) (pools : Pools Hash) (reqs : List (Req Hash)) :
    Option (Extended Hash) :=
  (allocReqSlots pools reqs).bind fun (reqs,pools) =>
    let totalMissPriv := (reqs.map missTokens).sum
    let totalLocalMissPub := (reqs.map localMissTokens).sum
    let totalHit := (reqs.map hitTokens).sum
    let totalAlloc := totalMissPriv + totalLocalMissPub + totalHit
    (pools.allocTokenSlots totalAlloc).bind fun (slots,pools) =>
      let missPriv := slots.take totalMissPriv
      let pub := (slots.drop totalMissPriv).take totalLocalMissPub
      let hitPriv := slots.drop (totalMissPriv + totalLocalMissPub)
      (allocReqs allocReqRope reqs ⟨missPriv,pub,hitPriv,pools,0⟩).bind fun result =>
        (if args.recompute then slotsAtPositions result.1 else some missPriv).map fun outCacheLoc =>
          Extended.finish outCacheLoc totalAlloc result

def picAllocForExtend (args : ServerArgs Hash) (pools : Pools Hash) (reqs : List (Req Hash)) : Option (Extended Hash) :=
  if args.rope then picAllocTransitionRope args pools reqs else picAllocStandard args pools reqs

end Hypic.Alloc
