import Hypic.RadixKey

/-! The page hashes of a node and the events that announce its pages: `KVCacheEventMixin` with its hash helpers. -/

namespace Hypic.KvEvents
open Policy

/-- The announcements a router hears; one block each. -/
inductive KvEvent where
  | blockStored (blockHashes : List Int) (parentBlockHash : Option Int) (tokenIds : List KeyUnit) (blockSize : Nat)
  | blockRemoved (blockHashes : List Int)
  | allBlocksCleared
deriving DecidableEq, Repr

/-- `hash_str_to_int64`: the first sixteen hex digits are the first eight bytes. -/
def hashStrToInt64 (digest : Digest) : Int :=
  let uint64Val : Int := (digest.take 8).foldl (fun sum byte => sum * 256 + byte.toNat) 0
  if 2 ^ 63 ≤ uint64Val then uint64Val - 2 ^ 64 else uint64Val

variable (sha256 : List UInt8 → Digest) (pageSize : Nat)

/-- `range(0, logical_len, page_size)`, each start with the end of its page. -/
def pageBounds (logicalLen : Nat) : List (Nat × Nat) :=
  (List.range ((logicalLen + pageSize - 1) / pageSize)).map (fun index =>
    (index * pageSize,min (index * pageSize + pageSize) logicalLen))

/-- The hashes of consecutive pages, each chained to the one before. -/
def chainHashes (key : RadixKey) : Option Digest → List (Nat × Nat) → List Digest
  | _, [] => []
  | parentHash, (start,stop)::rest =>
    let hashVal := key.hashPage sha256 start stop parentHash
    hashVal::chainHashes key (some hashVal) rest

/-- `compute_node_hash_values`, given the hashes of the parent; the root has none. -/
def computeNodeHashValues (parentHashValue : Option (List Digest)) (key : RadixKey) : List Digest :=
  chainHashes sha256 key (parentHashValue.bind List.getLast?) (pageBounds pageSize key.length)

/-- `split_node_hash_value`. -/
def splitNodeHashValue (childHashValue : Option (List Digest)) (splitLen : Nat) : Option (List Digest) × Option (List Digest) :=
  match childHashValue with
  | none => (none,none)
  | some hashes => (some (hashes.take (splitLen / pageSize)),some (hashes.drop (splitLen / pageSize)))

/-- One `BlockStored` for every page, each naming the block before it. -/
def storeEvents (key : RadixKey) : Option Int → List ((Nat × Nat) × Digest) → List KvEvent
  | _, [] => []
  | parentBlockHash, ((start,stop),hash)::rest =>
    let blockHash := hashStrToInt64 hash
    let pageTokens := (key.allUnits.take stop).drop start
    .blockStored [blockHash] parentBlockHash pageTokens pageTokens.length::storeEvents key (some blockHash) rest

/-- `_record_store_event`, with the hashes of the node and of its parent. -/
def recordStoreEvent (parentHashValue : Option (List Digest)) (key : RadixKey) (hashValue : List Digest) : List KvEvent :=
  storeEvents key ((parentHashValue.bind List.getLast?).map hashStrToInt64) ((pageBounds pageSize key.length).zip hashValue)

/-- `_record_remove_event`. -/
def recordRemoveEvent (key : RadixKey) (hashValue : List Digest) : List KvEvent :=
  ((pageBounds pageSize key.length).zip hashValue).map (fun page => .blockRemoved [hashStrToInt64 page.2])

end Hypic.KvEvents
