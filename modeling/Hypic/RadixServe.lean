import Hypic.Dict
import Hypic.PagedAllocator
import Hypic.RadixCache

/-! Requests served from a radix cache: matching and locking, prefill chunks, caching what is filled, decoding and releasing.
    Every action is one call of the scheduler; an eviction that makes room for a batch is an action of its own. -/

namespace Hypic.RadixServe
open Policy Forest Radix PagedAllocator Allocator

/-- How far a request is: matched and locked, with a chunk forwarded but not cached, or cached as far as it is filled. -/
inductive Stage where
  | matched | filled | cached
deriving DecidableEq, Repr

structure Req where
  /-- `origin_input_ids + output_ids`. -/
  tokenIds : List Token
  extraKey : Option String
  priority : Int
  /-- The row of `req_to_token`, as far as it is written. -/
  row : List Slot
  prefixIndices : List Slot
  fillLen : Nat
  cacheProtectedLen : Nat
  lastNode : Option Nat
  stage : Stage
deriving DecidableEq, Repr

structure Engine where
  cache : RadixCache
  allocator : TokenToKVPoolAllocator
  reqs : Dict Nat Req

variable (params : CacheInitParams)

/-- The key under which the first tokens of a request are cached. -/
def radixKey (req : Req) (count : Nat) : RadixKey :=
  RadixKey.pageAligned ⟨req.tokenIds.take count,req.extraKey,params.isEagle,none⟩ params.pageSize

def lastLoc (indices : List Slot) : Int := indices.getLast?.elim (-1) Int.ofNat

/-- Taking slots back, one call of the allocator after another. -/
def freeAll (values : List (List Slot)) (allocator : TokenToKVPoolAllocator) : TokenToKVPoolAllocator :=
  values.foldl (free params.pageSize) allocator

/-- `init_next_round_input` and the lock of the prefill adder. -/
def beginReq (tokenIds : List Token) (extraKey : Option String) (limit : Option Nat) (priority now : Int) (cache : RadixCache) :
    Option (Req × RadixCache) :=
  let matched := cache.matchPrefix params ⟨tokenIds,extraKey,false,limit⟩ now
  (matched.2.incLockRef matched.1.lastNode).map (fun locked =>
    ({ tokenIds, extraKey, priority, row := [], prefixIndices := matched.1.deviceIndices, fillLen := 0
       cacheProtectedLen := matched.1.deviceIndices.length, lastNode := matched.1.lastNode, stage := .matched },locked.2))

/-- A prefill chunk: `alloc_for_extend` writes the prefix and the new slots to the row. -/
def extendReq (count : Nat) (batch : BatchSize) (req : Req) (allocator : TokenToKVPoolAllocator) : Option (Req × TokenToKVPoolAllocator) :=
  let prefixLen := req.prefixIndices.length
  if 0 < count ∧ prefixLen + count ≤ req.tokenIds.length ∧ (req.stage = .matched ∨ req.stage = .cached ∧ req.row.length = prefixLen) then
    (allocExtend params.pageSize batch allocator prefixLen (prefixLen + count) (lastLoc req.prefixIndices)).map (fun allocated =>
      ({ req with row := req.prefixIndices ++ allocated.1, fillLen := prefixLen + count, stage := .filled },allocated.2))
  else none

/-- One decode step: a slot for the token sampled last. -/
def decodeReq (token : Token) (batch : BatchSize) (req : Req) (allocator : TokenToKVPoolAllocator) : Option (Req × TokenToKVPoolAllocator) :=
  if req.stage ≠ .matched ∧ req.row.length = req.tokenIds.length then
    (allocDecode params.pageSize batch allocator (req.row.length + 1) (lastLoc req.row)).map (fun allocated =>
      ({ req with tokenIds := req.tokenIds ++ [token], row := req.row ++ [allocated.1] },allocated.2))
  else none

/-- The insertion of the first tokens of a request with the slots of its row. -/
def insertReq (req : Req) (key : RadixKey) (chunked : Bool) (now : Int) (cache : RadixCache) : Option (Nat × RadixCache) :=
  if paired : key.length ≤ (req.row.take key.length).length then
    some (cache.insert params
      { key, value := some (req.row.take key.length), priority := req.priority, chunked
        paired := by
          rintro slots ⟨⟩
          exact paired } now)
  else none

/-- The request when it reads the tree as far as it is cached: its row is rewritten from the protected length on. -/
def adopt (newIndices : List Slot) (newLastNode : Option Nat) (req : Req) : Req :=
  let row := req.row.take req.cacheProtectedLen ++ newIndices.drop req.cacheProtectedLen ++ req.row.drop newIndices.length
  { req with
    row
    prefixIndices := newIndices ++ (row.take req.fillLen).drop newIndices.length
    cacheProtectedLen := newIndices.length
    lastNode := newLastNode
    stage := .cached }

/-- `cache_unfinished_req`. -/
def cacheUnfinishedReq (chunked : Bool) (now : Int) (req : Req) (cache : RadixCache) (allocator : TokenToKVPoolAllocator) :
    Option (Req × RadixCache × TokenToKVPoolAllocator) :=
  let kvIndices := req.row.take req.fillLen
  let key := radixKey params req req.fillLen
  (insertReq params req key chunked now cache).bind (fun inserted =>
    let newPrefixLen := inserted.1
    let allocator := free params.pageSize allocator ((kvIndices.take newPrefixLen).drop req.cacheProtectedLen)
    let matched := inserted.2.matchPrefix params key now
    if matched.1.deviceIndices.length = key.length then
      (matched.2.decLockRef req.lastNode).bind (fun unlocked =>
        (unlocked.2.incLockRef matched.1.lastNode).map (fun locked =>
          (adopt matched.1.deviceIndices matched.1.lastNode req,locked.2,allocator)))
    else none)

/-- `cache_finished_req` within `release_kv_cache`; the row is committed as far as it is written. -/
def cacheFinishedReq (isInsert : Bool) (now : Int) (req : Req) (cache : RadixCache) (allocator : TokenToKVPoolAllocator) :
    Option (RadixCache × TokenToKVPoolAllocator) :=
  let kvIndices := req.row
  let key := radixKey params req req.row.length
  (if isInsert then insertReq params req key false now cache else some (key.length,cache)).bind (fun inserted =>
    let allocator := free params.pageSize allocator ((kvIndices.take inserted.1).drop req.cacheProtectedLen)
    let allocator := free params.pageSize allocator (kvIndices.drop key.length)
    (inserted.2.decLockRef req.lastNode).map (fun unlocked => (unlocked.2,allocator)))

inductive Action where
  | begin (rid : Nat) (tokenIds : List Token) (extraKey : Option String) (limit : Option Nat) (priority now : Int)
  | extend (rid count : Nat) (batch : BatchSize)
  | cacheUnfinished (rid : Nat) (chunked : Bool) (now : Int)
  | decode (rid : Nat) (token : Token) (batch : BatchSize)
  | cacheFinished (rid : Nat) (isInsert : Bool) (now : Int)
  | evict (numTokens : Nat) (leaves : List Nat)
  | matchPrefix (key : RadixKey) (now : Int)

def step (engine : Engine) : Action → Option Engine
  | .begin rid tokenIds extraKey limit priority now =>
    match engine.reqs.get? rid with
    | some _ => none
    | none => (beginReq params tokenIds extraKey limit priority now engine.cache).map (fun begun =>
        { engine with cache := begun.2, reqs := engine.reqs.set rid begun.1 })
  | .extend rid count batch => (engine.reqs.get? rid).bind (fun req =>
      (extendReq params count batch req engine.allocator).map (fun extended =>
        { engine with allocator := extended.2, reqs := engine.reqs.set rid extended.1 }))
  | .cacheUnfinished rid chunked now => (engine.reqs.get? rid).bind (fun req =>
      if req.stage = .filled then
        (cacheUnfinishedReq params chunked now req engine.cache engine.allocator).map (fun cached =>
          { cache := cached.2.1, allocator := cached.2.2, reqs := engine.reqs.set rid cached.1 })
      else none)
  | .decode rid token batch => (engine.reqs.get? rid).bind (fun req =>
      (decodeReq params token batch req engine.allocator).map (fun decoded =>
        { engine with allocator := decoded.2, reqs := engine.reqs.set rid decoded.1 }))
  | .cacheFinished rid isInsert now => (engine.reqs.get? rid).bind (fun req =>
      if req.stage ≠ .matched then
        (cacheFinishedReq params isInsert now req engine.cache engine.allocator).map (fun released =>
          { cache := released.1, allocator := released.2, reqs := engine.reqs.erase rid })
      else none)
  | .evict numTokens leaves =>
    if leaves.isPerm engine.cache.evictableLeaves then
      (engine.cache.evict params numTokens leaves).map (fun evicted =>
        { engine with cache := evicted.cache, allocator := freeAll params evicted.freed engine.allocator })
    else none
  | .matchPrefix key now => some { engine with cache := (engine.cache.matchPrefix params key now).2 }

/-- An engine with an empty cache and so many free pages. -/
def start (numPages : Nat) (needSort : Bool) : Engine :=
  ⟨RadixCache.reset params,clear numPages needSort,Dict.empty⟩

end Hypic.RadixServe
