import Hypic.Release
import Hypic.Router
import Hypic.Runs

/-! One engine of the scatter protocol: destinations a combine request waits for, parked combines, pushes that
    wait for a handle, writes in flight and the drains of every scheduler tick. -/

namespace Hypic.Scatter
open Policy Allocator Cache Request Router
universe u
variable {Hash : Type u}

/-- `(room, seg_index)` -/
abbrev SegKey := Room × Nat

/-- A stashed destination. -/
structure Dst (Hash : Type u) where
  kvSlots : List Slot
  mambaSlot : Slot
  nTokens : Nat
  segHash : Hash
  tokenIds : List Token

def Dst.holding (dst : Dst Hash) : Holding := kvHolding dst.kvSlots + mambaHolding [dst.mambaSlot]

/-- A combine request that waits for its segments; `rows` are the keys of its `pic_combine` table. -/
structure Parked (Hash : Type u) where
  rid : Nat
  hashes : List Hash
  rows : List SegKey
  deadline : Nat
  deriving DecidableEq

/-- A push that waits for its handle, or a write in flight. -/
structure PushItem (Hash : Type u) where
  key : SegKey
  segHash : Hash
  deadline : Nat
  deriving DecidableEq

/-- A scatter sub-request: its segment, and where it goes when it carries `pic_scatter_meta`. -/
structure SubReq (Hash : Type u) where
  rid : Nat
  segHash : Hash
  key : Option SegKey
  isLocal : Bool

structure Node (Hash : Type u) [DecidableEq Hash] where
  pools : Pools Hash
  scatterPending : Dict SegKey (Dst Hash)
  seenNotifs : List (SegKey × Bool)
  combineParked : List (Parked Hash)
  scatterHandles : List SegKey
  pushPending : List (PushItem Hash)
  writeInflight : List (PushItem Hash)
  hitRetire : List (SubReq Hash)
  bootstrapped : List Nat
  aborted : List Nat

/-- What a poll of a transfer says. -/
inductive XferState where
  | proc | done | err | raises
  deriving DecidableEq

/-- What a tick reads from outside: the clock, the timeout, whether the notifications could be polled and which
    arrived (`true` for a kv tag), the transfers' states and the writes that fail to start. -/
structure Tick where
  now : Nat
  picScatterTimeout : Nat
  newNotifs : Option (List (SegKey × Bool))
  checkXferState : SegKey → XferState
  fireFails : SegKey → Bool

variable [DecidableEq Hash]

/-- The entry under a hash, if there is one, is locked. -/
def lockHash (cache : PICache Hash) (segHash : Hash) : PICache Hash := (cache.entries.get? segHash).elim cache cache.lock
def unlockHash (cache : PICache Hash) (segHash : Hash) : PICache Hash := (cache.entries.get? segHash).elim cache cache.unlock

namespace Node
variable (node : Node Hash)

def mapCache (change : PICache Hash → PICache Hash) : Node Hash :=
  { node with pools := node.pools.withCache (change node.pools.cache) }

/-- Gives a destination's slots back. -/
def freeDst (pools : Pools Hash) (dst : Dst Hash) : Pools Hash :=
  let pools := (pools.freeKv dst.kvSlots).freeMamba [dst.mambaSlot]
  pools.withCache (pools.cache.removeInflight dst.nTokens 1)

/-- A failed allocation leaves what it evicted evicted; with no mamba slot nothing was evictable. A failing look-up
    of the buffers takes everything back. What fails after the stash leaves the stash. -/
def allocDst (key : SegKey) (segHash : Hash) (tokenIds : List Token) (bufInfosFail : Bool) : Node Hash :=
  let nTokens := tokenIds.length
  match node.pools.allocTokenSlots nTokens with
  | none => { node with pools := node.pools.evictFromTreeCache nTokens }
  | some (kvSlots,pools) =>
    match pools.allocOneMamba with
    | none => { node with pools := pools.freeKv kvSlots }
    | some (mambaSlot,pools) =>
      let pools := pools.withCache (pools.cache.addInflight nTokens 1)
      let dst := ⟨kvSlots,mambaSlot,nTokens,segHash,tokenIds⟩
      if bufInfosFail then { node with pools := freeDst pools dst }
      else { node with pools := pools, scatterPending := node.scatterPending.set key dst }

def freePending (node : Node Hash) (key : SegKey) : Node Hash :=
  match node.scatterPending.get? key with
  | none => node
  | some dst =>
    { node with
      pools := freeDst node.pools dst
      seenNotifs := node.seenNotifs.filter fun tag => tag.1 ≠ key
      scatterPending := node.scatterPending.erase key }

/-- `_free_combine_pending`: the destinations of a combine that are still pending. -/
def freeCombinePending (rows : List SegKey) : Node Hash :=
  (node.scatterPending.keys.filter fun key => key ∈ rows).foldl freePending node

def releaseCombineHolds (hashes : List Hash) : Node Hash := node.mapCache fun cache => hashes.foldl unlockHash cache

/-- One parked combine of the release scan. -/
def releaseOne (now : Nat) (node : Node Hash) (entry : Parked Hash) : Node Hash :=
  if entry.deadline < now then
    let node := (node.freeCombinePending entry.rows).releaseCombineHolds entry.hashes
    { node with aborted := node.aborted ++ [entry.rid], combineParked := node.combineParked.erase entry }
  else if entry.hashes.all fun h => node.pools.cache.entries.contains h then
    { node with bootstrapped := node.bootstrapped ++ [entry.rid], combineParked := node.combineParked.erase entry }
  else node

def tryReleaseCombines (now : Nat) : Node Hash := node.combineParked.foldl (releaseOne now) node

/-- A landed segment enters the index with a hold; under a hash that is there already its own slots are freed. -/
def inject (now : Nat) (node : Node Hash) (key : SegKey) (dst : Dst Hash) : Node Hash :=
  let pools := match node.pools.cache.entries.get? dst.segHash with
    | some existing =>
      ((node.pools.withCache (node.pools.cache.lock existing)).freeKv dst.kvSlots).freeMamba [dst.mambaSlot]
    | none =>
      let stored := node.pools.cache.insertSegment now dst.segHash dst.tokenIds dst.kvSlots dst.mambaSlot
      node.pools.withCache (stored.2.lock stored.1)
  { node with
    pools := pools.withCache (pools.cache.removeInflight dst.nTokens 1)
    seenNotifs := node.seenNotifs.filter fun tag => tag.1 ≠ key
    scatterPending := node.scatterPending.erase key }

def injectLanded (now : Nat) (node : Node Hash) (item : SegKey × Dst Hash) : Node Hash :=
  if (item.1,true) ∈ node.seenNotifs ∧ (item.1,false) ∈ node.seenNotifs then node.inject now item.1 item.2 else node

/-- Nothing pending, or a failed poll: no injection, and no release scan either. -/
def drainInjects (tick : Tick) : Node Hash :=
  if node.scatterPending.items = [] then node
  else
    match tick.newNotifs with
    | none => node
    | some tags =>
      (node.scatterPending.items.foldl (injectLanded tick.now)
        { node with seenNotifs := node.seenNotifs ++ tags }).tryReleaseCombines tick.now

/-- Pins the entry, then fires; a write that raises on the way is not recorded and its pin stays. -/
def startWrite (tick : Tick) (entry : SegmentEntry Hash) (key : SegKey) (segHash : Hash) : Node Hash :=
  let node := node.mapCache fun cache => cache.lock entry
  if tick.fireFails key then node
  else { node with writeInflight := node.writeInflight ++ [⟨key,segHash,tick.now + 10⟩] }

def reapInflight (item : PushItem Hash) : Node Hash :=
  let node := node.mapCache fun cache => unlockHash cache item.segHash
  { node with writeInflight := node.writeInflight.erase item }

def drainWrites (tick : Tick) : Node Hash :=
  node.writeInflight.foldl (fun node item =>
    let timedOut := decide (item.deadline < tick.now)
    match tick.checkXferState item.key with
    | .raises | .proc => if timedOut then node.reapInflight item else node
    | .done | .err => node.reapInflight item) node

def pushOne (tick : Tick) (node : Node Hash) (item : PushItem Hash) : Node Hash :=
  if item.key ∈ node.scatterHandles then
    match node.pools.cache.entries.get? item.segHash with
    | none => { node with pushPending := node.pushPending.erase item }
    | some entry =>
      let node := node.mapCache fun cache => cache.unlock entry
      { node with
        scatterHandles := node.scatterHandles.filter fun key => key ≠ item.key
        pushPending := node.pushPending.erase item }.startWrite tick entry item.key item.segHash
  else if item.deadline < tick.now then
    let node := node.mapCache fun cache => unlockHash cache item.segHash
    { node with pushPending := node.pushPending.erase item }
  else node

def tryPushPending (tick : Tick) : Node Hash := node.pushPending.foldl (pushOne tick) node

/-- A local segment takes an arrival hold and wakes parked combines. A remote one is written at once when its
    handle is here (an entry that is gone raises, which is caught), else it waits with a hold. -/
def maybePushAfterPrefill (tick : Tick) (sub : SubReq Hash) : Node Hash :=
  match sub.key with
  | none => node
  | some key =>
    if sub.isLocal then (node.mapCache fun cache => lockHash cache sub.segHash).tryReleaseCombines tick.now
    else if key ∈ node.scatterHandles then
      match node.pools.cache.entries.get? sub.segHash with
      | none => node
      | some entry =>
        { node with scatterHandles := node.scatterHandles.filter fun other => other ≠ key }.startWrite tick entry key sub.segHash
    else
      let node := node.mapCache fun cache => lockHash cache sub.segHash
      { node with pushPending := node.pushPending ++ [⟨key,sub.segHash,tick.now + tick.picScatterTimeout⟩] }

/-- Pushes, then drops one hold of the entry under the hash; after a forward also the request's own state slot and row. -/
def picScatterRetire (tick : Tick) (sub : SubReq Hash) (forwarded : Option (Req Hash)) : Node Hash :=
  let node := (node.maybePushAfterPrefill tick sub).mapCache fun cache => unlockHash cache sub.segHash
  match forwarded with
  | none => node
  | some req =>
    let pools := node.pools.freeMamba req.mambaPoolIdx.toList
    { node with pools := { pools with reqSlots := pools.reqSlots ++ req.reqPoolIdx.toList } }

/-- The hook of every tick. -/
def picDrain (tick : Tick) : Node Hash :=
  let node := ((node.tryPushPending tick).drainWrites tick).drainInjects tick
  node.hitRetire.foldl (fun node sub => node.picScatterRetire tick sub none) { node with hitRetire := [] }

/-- A sub-request whose segment is in the index is held and waits for its retirement; else it is computed. -/
def enqueueHit (sub : SubReq Hash) : Node Hash :=
  if node.pools.cache.entries.contains sub.segHash then
    { node.mapCache fun cache => lockHash cache sub.segHash with hitRetire := node.hitRetire ++ [sub] }
  else node

/-- A combine request is parked unless all its scattered segments are in the index. -/
def gateCombine (entry : Parked Hash) : Node Hash :=
  if entry.hashes.all fun h => node.pools.cache.entries.contains h then
    { node with bootstrapped := node.bootstrapped ++ [entry.rid] }
  else { node with combineParked := node.combineParked ++ [entry] }
end Node

/-- The scatter steps of the scheduler, in any order: a row of a combine's table, its gate and its end, handles and
    cached sub-requests that arrive, ticks, idle ticks and eviction. -/
inductive Action (Hash : Type u) where
  | allocDst (key : SegKey) (segHash : Hash) (tokenIds : List Token) (bufInfosFail : Bool)
  | gateCombine (entry : Parked Hash)
  | releaseCombineHolds (hashes : List Hash)
  | handle (key : SegKey)
  | enqueueHit (sub : SubReq Hash)
  | picDrain (tick : Tick)
  | onIdle (now : Nat)
  | evict (numTokens mambaNum : Nat)

def step (node : Node Hash) : Action Hash → Node Hash
  | .allocDst key segHash tokenIds bufInfosFail => node.allocDst key segHash tokenIds bufInfosFail
  | .gateCombine entry => node.gateCombine entry
  | .releaseCombineHolds hashes => node.releaseCombineHolds hashes
  | .handle key => { node with scatterHandles := node.scatterHandles ++ [key] }
  | .enqueueHit sub => node.enqueueHit sub
  | .picDrain tick => node.picDrain tick
  | .onIdle now => node.tryReleaseCombines now
  | .evict numTokens mambaNum => { node with pools := (node.pools.evict numTokens mambaNum).2 }

end Hypic.Scatter
