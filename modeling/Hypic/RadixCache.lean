import Hypic.KvEvents
import Hypic.RadixPrune

/-! `RadixCache`: matching, inserting, locking and evicting. The root is not a node of the forest: it is locked for good
    and holds no slots. A node is referred to by its id, the root by none. -/

namespace Hypic.Radix
open Policy Forest RadixTree KvEvents

/-- What a node keeps besides its key and slots. -/
structure TreeData where
  lockRef : Int
  lastAccessTime : Int
  creationTime : Int
  hitCount : Nat
  priority : Int
  hashValue : Option (List Digest)
deriving DecidableEq, Repr

abbrev TreeNode := Node TreeData

inductive EvictionPolicy where
  | lru | lfu | fifo | mru | filo | priority | slru
deriving DecidableEq, Repr

/-- `get_priority`: what sorts the heap, smallest first. -/
def EvictionPolicy.getPriority : EvictionPolicy → TreeData → List Int
  | .lru, data => [data.lastAccessTime]
  | .lfu, data => [data.hitCount,data.lastAccessTime]
  | .fifo, data => [data.creationTime]
  | .mru, data => [-data.lastAccessTime]
  | .filo, data => [-data.creationTime]
  | .priority, data => [data.priority,data.lastAccessTime]
  | .slru, data => [if 2 ≤ data.hitCount then 1 else 0,data.lastAccessTime]

structure CacheInitParams where
  pageSize : Nat
  pagePositive : 0 < pageSize
  isEagle : Bool
  enableKvCacheEvents : Bool
  evictionPolicy : EvictionPolicy
  sha256 : List UInt8 → Digest

structure RadixCache where
  forest : Forest TreeNode
  evictableSize : Int
  protectedSize : Int
  evictableLeaves : List Nat
  counter : Nat
  kvEventQueue : List KvEvent
deriving DecidableEq, Repr

structure MatchResult where
  deviceIndices : List Slot
  lastNode : Option Nat
deriving DecidableEq, Repr

/-- The arguments of `insert`: a slot for every unit of the key, or none in tests. -/
structure InsertParams where
  key : RadixKey
  value : Option (List Slot)
  priority : Int
  chunked : Bool
  paired : ∀ slots ∈ value, key.length ≤ slots.length

variable (params : CacheInitParams)

namespace RadixCache

/-- Heap items: the priority with the tie-breaking access time, and the node. -/
abbrev Heap := List (List Int × Nat)

def reset : RadixCache :=
  { forest := .nil, evictableSize := 0, protectedSize := 0, evictableLeaves := [], counter := 1
    kvEventQueue := if params.enableKvCacheEvents then [.allBlocksCleared] else [] }

/-- `_split_node`: the upper half inherits the locks, the hits and the priority; the hashes are divided. -/
def splitData (now : Int) (splitLen : Nat) (data : TreeData) : TreeData × TreeData :=
  let hashes := splitNodeHashValue params.pageSize data.hashValue splitLen
  ({ data with lastAccessTime := now, creationTime := now, hashValue := hashes.1 },{ data with hashValue := hashes.2 })

def matchVisit (now : Int) : Visit TreeData where
  touch data := { data with lastAccessTime := now }
  divide := splitData params now
  pass data := data
  grow := none

/-- The hashes of the parent of a new node. -/
def parentHashes (parent : Option TreeNode) : Option (List Digest) := parent.bind (·.data.hashValue)

def insertVisit (now : Int) (priority : Int) (chunked : Bool) : Visit TreeData where
  touch data := { data with lastAccessTime := now }
  divide := splitData params now
  pass data := { data with
    priority := max data.priority priority
    hitCount := if chunked then data.hitCount else data.hitCount + 1 }
  grow := some (fun parent key =>
    { lockRef := 0, lastAccessTime := now, creationTime := now, hitCount := if chunked then 0 else 1, priority
      hashValue := if params.enableKvCacheEvents then
        some (computeNodeHashValues params.sha256 params.pageSize (parentHashes parent) key) else none })

/-- The key as a cache in its mode looks it up. -/
def lookupKey (key : RadixKey) : RadixKey := (key.maybeToBigramView params.isEagle none).1.pageAligned params.pageSize

def matchPrefix (key : RadixKey) (now : Int) (cache : RadixCache) : MatchResult × RadixCache :=
  let key := lookupKey params key
  if key.length = 0 then (⟨[],none⟩,cache)
  else
    let walked := walk params.pageSize (matchVisit params now) cache.counter none cache.forest key []
    (⟨walked.visited.flatMap Node.value,walked.lastId⟩,{ cache with forest := walked.forest, counter := walked.counter })

/-- `_update_leaf_status`: only unlocked nodes without children can be evicted. -/
def updateLeafStatus (forest : Forest TreeNode) (node : Option Nat) (evictableLeaves : List Nat) : List Nat :=
  match node.bind (fun id => find? Node.id id forest) with
  | some (node,children) =>
    if 0 < node.data.lockRef ∨ children ≠ .nil then evictableLeaves.erase node.id else evictableLeaves.insert node.id
  | none => evictableLeaves

/-- `_insert_helper`, for a key and slots of the same length. -/
def insertHelper (key : RadixKey) (value : List Slot) (priority : Int) (chunked : Bool) (now : Int) (cache : RadixCache) :
    Nat × RadixCache :=
  if key.length = 0 then (0,cache)
  else
    let walked := walk params.pageSize (insertVisit params now priority chunked) cache.counter none cache.forest key value
    let totalPrefixLength := (walked.visited.map (·.key.length)).sum
    match walked.leaf with
    | some leaf =>
      (totalPrefixLength,{ cache with
        forest := walked.forest
        counter := walked.counter
        evictableSize := cache.evictableSize + leaf.key.length
        evictableLeaves := updateLeafStatus walked.forest (some leaf.id)
          (updateLeafStatus walked.forest walked.lastId cache.evictableLeaves)
        kvEventQueue := cache.kvEventQueue ++
          (if params.enableKvCacheEvents then
            recordStoreEvent params.pageSize (parentHashes walked.visited.getLast?) leaf.key (leaf.data.hashValue.getD []) else []) })
    | none => (totalPrefixLength,{ cache with forest := walked.forest, counter := walked.counter })

/-- The slots of an insertion: those given, or the token ids themselves. -/
def insertedValue (given : InsertParams) : List Slot :=
  let key := lookupKey params given.key
  match (given.key.maybeToBigramView params.isEagle given.value).2 with
  | some value => value.take key.length
  | none => key.tokenIds.take key.length

def insert (given : InsertParams) (now : Int) (cache : RadixCache) : Nat × RadixCache :=
  insertHelper params (lookupKey params given.key) (insertedValue params given) given.priority given.chunked now cache

/-! ### Locks -/

/-- The tree with the lock counts of some nodes shifted. -/
def shiftLocks (ids : List Nat) (amount : Int) (forest : Forest TreeNode) : Forest TreeNode :=
  forest.map (fun node => if node.id ∈ ids then { node with data := { node.data with lockRef := node.data.lockRef + amount } } else node)

/-- The key lengths of the nodes on a way that have a lock count. -/
def lengthsAt (lockRef : Int) (way : List (TreeNode × Forest TreeNode)) : Int :=
  ((way.filter (fun step => step.1.data.lockRef = lockRef)).map (fun step => (step.1.key.length : Int))).sum

/-- The loop of `inc_lock_ref` and `dec_lock_ref` from a node up to the root. A node that is not in the tree is no argument. -/
def moveLocks (amount moved : Int) (node : Option Nat) (cache : RadixCache) : Option RadixCache :=
  match node with
  | none => some cache
  | some id => (path Node.id id cache.forest).map (fun way =>
      let forest := shiftLocks (way.map (·.1.id)) amount cache.forest
      { cache with
        forest
        evictableSize := cache.evictableSize + moved
        protectedSize := cache.protectedSize - moved
        evictableLeaves := way.foldr (fun step => updateLeafStatus forest (some step.1.id)) cache.evictableLeaves })

/-- The nodes that go from one lock count to the next on the way to a node; the `delta` of the two functions. -/
def lockDelta (lockRef : Int) (node : Option Nat) (cache : RadixCache) : Int :=
  (node.bind (fun id => path Node.id id cache.forest)).elim 0 (lengthsAt lockRef)

def incLockRef (node : Option Nat) (cache : RadixCache) : Option (Int × RadixCache) :=
  let delta := -lockDelta 0 node cache
  (moveLocks 1 delta node cache).map (delta,·)

def decLockRef (node : Option Nat) (cache : RadixCache) : Option (Int × RadixCache) :=
  let delta := lockDelta 1 node cache
  (moveLocks (-1) delta node cache).map (delta,·)

/-! ### Eviction -/

/-- `heappop`: a least item, the first of several. -/
def heapPop : Heap → Option ((List Int × Nat) × Heap)
  | [] => none
  | item::rest =>
    match heapPop rest with
    | some (least,others) => if least.1 < item.1 then some (least,item::others) else some (item,rest)
    | none => some (item,[])

def heapItem (node : TreeNode) : List Int × Nat :=
  (params.evictionPolicy.getPriority node.data ++ [node.data.lastAccessTime],node.id)

/-- `_delete_leaf`. -/
def deleteLeaf (node : TreeNode) (cache : RadixCache) : RadixCache :=
  let parent := (parent? Node.id node.id cache.forest).map (·.1.id)
  let forest := erase Node.id node.id cache.forest
  { cache with
    forest
    evictableSize := cache.evictableSize - node.key.length
    evictableLeaves := updateLeafStatus forest parent (cache.evictableLeaves.erase node.id) }

/-- The state of the loop of `evict`. -/
structure Evicting where
  cache : RadixCache
  evictionHeap : Heap
  numEvicted : Nat
  /-- The slots passed to the allocator, node by node. -/
  freed : List (List Slot)

/-- One round; the assertion in `_delete_leaf` fails on a node that is not in the tree. -/
def evictRound (state : Evicting) (item : List Int × Nat) (heap : Heap) : Option Evicting :=
  (find? Node.id item.2 state.cache.forest).map (fun found =>
    let x := found.1
    let parent := parent? Node.id x.id state.cache.forest
    let cache := deleteLeaf x state.cache
    let heap := match parent.bind (fun step => find? Node.id step.1.id cache.forest) with
      | some (parent,children) => if children = .nil ∧ parent.data.lockRef = 0 then heapItem params parent::heap else heap
      | none => heap
    { cache := { cache with
        kvEventQueue := cache.kvEventQueue ++ (if params.enableKvCacheEvents then
          recordRemoveEvent params.pageSize x.key (x.data.hashValue.getD
            (computeNodeHashValues params.sha256 params.pageSize (parentHashes (parent.map Prod.fst)) x.key)) else []) }
      evictionHeap := heap
      numEvicted := state.numEvicted + x.value.length
      freed := state.freed ++ [x.value] })

/-- The loop; every round removes a node, so their number bounds the rounds. -/
def evictLoop (numTokens : Nat) : Nat → Evicting → Option Evicting
  | 0, state => some state
  | fuel+1, state =>
    if state.numEvicted < numTokens then
      match heapPop state.evictionHeap with
      | some (item,heap) => (evictRound params state item heap).bind (evictLoop numTokens fuel)
      | none => some state
    else some state

/-- `evict`: the state after the loop holds the number of tokens evicted and the slots freed. The set of leaves may be
    listed in any order. -/
def evict (numTokens : Nat) (leaves : List Nat) (cache : RadixCache) : Option Evicting :=
  let heap := leaves.filterMap (fun id => (find? Node.id id cache.forest).map (fun found => heapItem params found.1))
  evictLoop params numTokens cache.forest.nodes.length ⟨cache,heap,0,[]⟩

end RadixCache

inductive Action where
  | insert (given : InsertParams) (now : Int)
  | matchPrefix (key : RadixKey) (now : Int)
  | evict (numTokens : Nat) (leaves : List Nat)
  | incLockRef (node : Option Nat)
  | decLockRef (node : Option Nat)

/-- One call. An eviction lists the set of evictable leaves in some order. -/
def step (cache : RadixCache) : Action → Option RadixCache
  | .insert given now => some (cache.insert params given now).2
  | .matchPrefix key now => some (cache.matchPrefix params key now).2
  | .evict numTokens leaves =>
    if leaves.isPerm cache.evictableLeaves then (cache.evict params numTokens leaves).map (·.cache) else none
  | .incLockRef node => (cache.incLockRef node).map Prod.snd
  | .decLockRef node => (cache.decLockRef node).map Prod.snd

end Hypic.Radix
