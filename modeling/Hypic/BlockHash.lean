import Hypic.Chunks
import Hypic.KvEvents

/-! The hashes of chains of pages. A worker hashes the pages of a node after those of its parent; the router's
    `compute_block_hashes` and its bigram variant hash the pages of a prompt. Both give the hash of the chain that ends at the page. -/

namespace Hypic.BlockHash
open Policy Pages Chunks KvEvents List

/-! ### The router's hashes -/
variable {blockSize : Nat}

section Router
variable (sha256 : List UInt8 → Digest)

/-- `sha256_to_i64`: the first eight bytes, big-endian, as a signed number. -/
def sha256ToI64 (digest : Digest) : Int :=
  (BitVec.ofNat 64 ((digest.take 8).foldl (fun sum byte => sum * 256 + byte.toNat) 0)).toInt

def chainBlock (parentDigest : Option Digest) (blockTokens : List Token) : Digest :=
  sha256 (parentDigest.getD [] ++ blockTokens.flatMap tokenBytes)

def chainBlockBigram (parentDigest : Option Digest) (tokens : List Token) (start stop : Nat) : Digest :=
  sha256 (parentDigest.getD [] ++ (List.range' start (stop - start)).flatMap (fun j =>
    tokenBytes (tokens.getD j 0) ++ tokenBytes (tokens.getD (j + 1) 0)))

/-- The loop of the two functions; `num_blocks` bounds its rounds. -/
def blockLoop (chain : Option Digest → Nat → Nat → Digest) (blockSize n : Nat) : Nat → Nat → Option Digest → List Int
  | 0, _, _ => []
  | blocks+1, start, prior =>
    if start < n then
      let stop := min (start + blockSize) n
      let digest := chain prior start stop
      sha256ToI64 digest::blockLoop chain blockSize n blocks stop (some digest)
    else []

def computeBlockHashes (tokenIds : List Token) (blockSize : Nat) : List Int :=
  let n := tokenIds.length
  blockLoop (fun prior start stop => chainBlock sha256 prior ((tokenIds.take stop).drop start)) blockSize n (ceil blockSize n) 0 none

def computeBlockHashesBigram (tokenIds : List Token) (blockSize : Nat) : List Int :=
  let logicalLen := tokenIds.length - 1
  blockLoop (fun prior start stop => chainBlockBigram sha256 prior tokenIds start stop) blockSize logicalLen (ceil blockSize logicalLen) 0 none

end Router

/-! ### Chains of pages -/

variable (sha256 : List UInt8 → Digest)

/-- The digest of a page after the one before. -/
def pageDigest (prior : Option Digest) (page : List KeyUnit) : Digest := sha256 (prior.getD [] ++ page.flatMap KeyUnit.bytes)

/-- The digests of the pages of a chain. -/
def digests (prior : Option Digest) : List (List KeyUnit) → List Digest
  | [] => []
  | page::rest => pageDigest sha256 prior page::digests (some (pageDigest sha256 prior page)) rest

/-- The digest a chain ends with. -/
def lastDigest (prior : Option Digest) (chain : List (List KeyUnit)) : Option Digest :=
  chain.foldl (fun prior page => some (pageDigest sha256 prior page)) prior

/-- The number that stands for a chain in the announcements; for the empty chain there is none. -/
def chainHash (chain : List (List KeyUnit)) : Int := ((lastDigest sha256 none chain).map hashStrToInt64).getD 0

variable {sha256} {prior : Option Digest} {chain rest : List (List KeyUnit)} {page : List KeyUnit}

@[simp] theorem digests_length : (digests sha256 prior chain).length = chain.length := by
  induction chain generalizing prior with
  | nil => rfl
  | cons page rest ih => simp [digests,ih]

@[simp] theorem lastDigest_nil : lastDigest sha256 prior [] = prior := rfl

theorem lastDigest_append : lastDigest sha256 prior (chain ++ rest) = lastDigest sha256 (lastDigest sha256 prior chain) rest :=
  foldl_append

theorem lastDigest_concat :
    lastDigest sha256 prior (chain ++ [page]) = some (pageDigest sha256 (lastDigest sha256 prior chain) page) := lastDigest_append

theorem digests_append :
    digests sha256 prior (chain ++ rest) = digests sha256 prior chain ++ digests sha256 (lastDigest sha256 prior chain) rest := by
  induction chain generalizing prior with
  | nil => rfl
  | cons page chain ih => rw [cons_append,digests,ih]; rfl

theorem digests_last (some : chain ≠ []) : (digests sha256 prior chain).getLast? = lastDigest sha256 prior chain := by
  rw [← dropLast_append_getLast some,digests_append,lastDigest_append]
  simp [digests,lastDigest]

theorem lastDigest_isSome (some : chain ≠ []) : (lastDigest sha256 prior chain).isSome = true := by
  rw [← dropLast_append_getLast some,lastDigest_concat]
  rfl

theorem chainHash_concat : chainHash sha256 (chain ++ [page]) = hashStrToInt64 (pageDigest sha256 (lastDigest sha256 none chain) page) := by
  rw [chainHash,lastDigest_concat]
  rfl

theorem lastDigest_map (some : chain ≠ []) : (lastDigest sha256 none chain).map hashStrToInt64 = .some (chainHash sha256 chain) := by
  have present : (lastDigest sha256 none chain).isSome = true := lastDigest_isSome some
  obtain ⟨digest,isDigest⟩ := Option.isSome_iff_exists.mp present
  rw [chainHash,isDigest]
  rfl

/-! ### Both sides hash the chain -/

theorem pageBounds_units (pageSize : Nat) (units : List KeyUnit) :
    (pageBounds pageSize units.length).map (fun bounds => (units.take bounds.2).drop bounds.1) = chunks pageSize units := by
  rw [pageBounds,map_map,chunks]
  refine map_congr_left (fun index _ => ?_)
  dsimp only [Function.comp]
  rw [← take_take,take_of_length_le (i := units.length) le_rfl,drop_take,Nat.add_sub_cancel_left]

theorem chainHashes_eq (key : RadixKey) (bounds : List (Nat × Nat)) :
    chainHashes sha256 key prior bounds = digests sha256 prior (bounds.map (fun bounds => (key.allUnits.take bounds.2).drop bounds.1)) := by
  induction bounds generalizing prior with
  | nil => rfl
  | cons first rest ih =>
    rw [chainHashes,ih]
    rfl

theorem computeNodeHashValues_eq (pageSize : Nat) (parentHashValue : Option (List Digest)) (key : RadixKey) :
    computeNodeHashValues sha256 pageSize parentHashValue key =
      digests sha256 (parentHashValue.bind List.getLast?) (chunks pageSize key.units) := by
  rw [computeNodeHashValues,chainHashes_eq,← pageBounds_units,RadixKey.units_length]
  congr 1
  refine map_congr_left (fun bounds inside => ?_)
  obtain ⟨index,-,rfl⟩ := mem_map.mp inside
  dsimp only
  rw [RadixKey.units,take_take,min_eq_left (min_le_right _ _)]

theorem sha256ToI64_eq (digest : Digest) : sha256ToI64 digest = hashStrToInt64 digest := by
  have small : ∀ (bytes : List UInt8) (sum : Nat), bytes.foldl (fun sum byte => sum * 256 + byte.toNat) sum < (sum + 1) * 256 ^ bytes.length := by
    intro bytes
    induction bytes with
    | nil => intro sum; simp
    | cons byte rest ih =>
      intro sum
      have bound := byte.toNat_lt
      refine lt_of_lt_of_le (ih _) ?_
      rw [length_cons,Nat.pow_succ',← Nat.mul_assoc]
      exact Nat.mul_le_mul_right _ (show sum * 256 + byte.toNat + 1 ≤ (sum + 1) * 256 by omega)
  have cast : ∀ (bytes : List UInt8) (sum : Nat), bytes.foldl (fun (sum : Int) byte => sum * 256 + byte.toNat) sum =
      (bytes.foldl (fun sum byte => sum * 256 + byte.toNat) sum : Nat) := by
    intro bytes
    induction bytes with
    | nil => intro sum; rfl
    | cons byte rest ih =>
      intro sum
      rw [foldl_cons,foldl_cons,← ih]
      push_cast
      rfl
  have bound : (digest.take 8).foldl (fun sum byte => sum * 256 + byte.toNat) 0 < 2 ^ 64 := by
    refine lt_of_lt_of_le (small _ 0) ?_
    rw [Nat.zero_add,Nat.one_mul,show (2 : Nat) ^ 64 = 256 ^ 8 by norm_num]
    exact Nat.pow_le_pow_right (by decide) (length_take_le ..)
  have same := cast (digest.take 8) 0
  unfold sha256ToI64 hashStrToInt64
  dsimp only
  rw [show ((0 : Nat) : Int) = 0 from rfl] at same
  rw [same]
  generalize (digest.take 8).foldl (fun sum byte => sum * 256 + byte.toNat) 0 = value at bound
  rw [BitVec.toInt_eq_toNat_cond,BitVec.toNat_ofNat,Nat.mod_eq_of_lt bound]
  split <;> split <;> omega

variable (sha256) in
theorem blockLoop_eq (chain : Option Digest → Nat → Nat → Digest) (units : List KeyUnit) (positive : 0 < blockSize)
    (hashes : ∀ prior start stop, start ≤ stop → stop ≤ units.length →
      chain prior start stop = pageDigest sha256 prior ((units.take stop).drop start))
    (blocks index : Nat) (whole : index + blocks = ceil blockSize units.length) (prior : Option Digest) :
    blockLoop chain blockSize units.length blocks (min (index * blockSize) units.length) prior =
      (digests sha256 prior ((chunks blockSize units).drop index)).map hashStrToInt64 := by
  induction blocks generalizing index prior with
  | zero =>
    rw [drop_eq_nil_of_le (by rw [chunks_length]; omega)]
    rfl
  | succ blocks ih =>
    have below := ceil_mul_lt positive units.length
    have inside : index * blockSize < units.length := by
      have := Nat.mul_le_mul_right blockSize (show index + 1 ≤ ceil blockSize units.length by omega)
      rw [Nat.add_mul,Nat.one_mul] at this
      omega
    have next : min (index * blockSize + blockSize) units.length = min ((index + 1) * blockSize) units.length := by
      rw [Nat.add_mul,Nat.one_mul]
    rw [blockLoop,min_eq_left inside.le,if_pos inside]
    dsimp only
    rw [hashes prior _ _ (by omega) (min_le_right _ _),next,ih (index + 1) (by omega),← next,← take_take,
      take_of_length_le (i := units.length) le_rfl,drop_take,Nat.add_sub_cancel_left,
      drop_eq_getElem_cons (show index < (chunks blockSize units).length by rw [chunks_length]; omega),digests,map_cons,sha256ToI64_eq]
    have item := chunks_getElem? units (show index < ceil blockSize units.length by omega)
    rw [getElem?_eq_getElem (by rw [chunks_length]; omega)] at item
    rw [Option.some.inj item]

theorem computeBlockHashes_eq (positive : 0 < blockSize) (tokenIds : List Token) :
    computeBlockHashes sha256 tokenIds blockSize =
      (digests sha256 none (chunks blockSize (RadixKey.unitsFrom false tokenIds))).map hashStrToInt64 := by
  have sized : (RadixKey.unitsFrom false tokenIds).length = tokenIds.length := by rw [RadixKey.unitsFrom_length]; rfl
  have loop := blockLoop_eq sha256 (fun prior start stop => chainBlock sha256 prior ((tokenIds.take stop).drop start))
    (RadixKey.unitsFrom false tokenIds) positive (by
      intro prior start stop _ _
      rw [chainBlock,pageDigest,RadixKey.unitsFrom,if_neg (by decide),← map_take,← map_drop,flatMap_map]
      rfl) (ceil blockSize tokenIds.length) 0 (by rw [sized]; omega) none
  rw [sized,Nat.zero_mul,Nat.zero_min,drop_zero] at loop
  exact loop

private theorem pairs_range (tokens : List Token) {start stop : Nat} (ordered : start ≤ stop) (inside : stop ≤ tokens.length - 1) :
    ((List.zipWith KeyUnit.pair tokens tokens.tail).take stop).drop start =
      (List.range' start (stop - start)).map (fun j => KeyUnit.pair (tokens.getD j 0) (tokens.getD (j + 1) 0)) := by
  refine ext_getElem (by simp; omega) (fun place left right => ?_)
  simp only [length_map,length_range'] at right
  simp only [getElem_drop,getElem_take,getElem_zipWith,getElem_tail,getElem_map,getElem_range',
    getD_eq_getElem?_getD,Nat.one_mul]
  rw [getElem?_eq_getElem (by omega),getElem?_eq_getElem (by omega)]
  rfl

theorem computeBlockHashesBigram_eq (positive : 0 < blockSize) (tokenIds : List Token) :
    computeBlockHashesBigram sha256 tokenIds blockSize =
      (digests sha256 none (chunks blockSize (RadixKey.unitsFrom true tokenIds))).map hashStrToInt64 := by
  have sized : (RadixKey.unitsFrom true tokenIds).length = tokenIds.length - 1 := by rw [RadixKey.unitsFrom_length]; rfl
  have loop := blockLoop_eq sha256 (fun prior start stop => chainBlockBigram sha256 prior tokenIds start stop)
    (RadixKey.unitsFrom true tokenIds) positive (by
      intro prior start stop ordered inside
      rw [sized] at inside
      rw [chainBlockBigram,pageDigest,RadixKey.unitsFrom,if_pos rfl,pairs_range tokenIds ordered inside,flatMap_map]
      rfl) (ceil blockSize (tokenIds.length - 1)) 0 (by rw [sized]; omega) none
  rw [sized,Nat.zero_mul,Nat.zero_min,drop_zero] at loop
  exact loop

end Hypic.BlockHash
