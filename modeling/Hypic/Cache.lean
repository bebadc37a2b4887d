import Hypic.Allocator
import Hypic.Dict

/-! The segment cache: entries by segment hash, their lock counters, matching, insertion and
    eviction, over the pools the slots come from. -/

namespace Hypic.Cache
open Policy Allocator
universe u

/-- The part of an entry that never changes. `oid` is the identity of the Python object. -/
structure SegmentEntry (Hash : Type u) where
  oid : Nat
  segHash : Hash
  fullKvSlots : List Slot
  mambaStateSlot : Slot
  tokenIds : List Token
  deriving DecidableEq

instance [DecidableEq Hash] : LawfulBEq (SegmentEntry Hash) := inferInstance

/-- The part of an entry that changes in place. -/
structure Counters where
  lockRef : Nat
  lastAccessTime : Nat
  hitCount : Nat
  deriving DecidableEq

variable {Hash : Type u}

def SegmentEntry.holding (entry : SegmentEntry Hash) : Holding :=
  kvHolding entry.fullKvSlots + mambaHolding [entry.mambaStateSlot]

/-- The index `_entries` with the counters of every object ever created: a request keeps its
    reference to an entry after the index has dropped it. -/
structure PICache (Hash : Type u) [DecidableEq Hash] where
  entries : Dict Hash (SegmentEntry Hash)
  counters : SegmentEntry Hash → Counters
  created : Nat
  inflightFullTokens : Nat
  inflightMambaSlots : Nat
  keyed : ∀ key entry, entries.get? key = some entry → entry.segHash = key
  fresh : ∀ key entry, entries.get? key = some entry → entry.oid < created

variable [DecidableEq Hash]

namespace PICache

def empty : PICache Hash :=
  { entries := .empty, counters := fun _ => ⟨0,0,0⟩, created := 0, inflightFullTokens := 0, inflightMambaSlots := 0,
    keyed := by simp, fresh := by simp }

def lockRef (cache : PICache Hash) (entry : SegmentEntry Hash) : Nat := (cache.counters entry).lockRef

def adjust (cache : PICache Hash) (entry : SegmentEntry Hash) (change : Counters → Counters) : PICache Hash :=
  { cache with counters := Function.update cache.counters entry (change (cache.counters entry)) }

/-- `entry.lock_ref += 1` -/
def lock (cache : PICache Hash) (entry : SegmentEntry Hash) : PICache Hash :=
  cache.adjust entry fun c => { c with lockRef := c.lockRef + 1 }

/-- `if entry.lock_ref > 0: entry.lock_ref -= 1` -/
def unlock (cache : PICache Hash) (entry : SegmentEntry Hash) : PICache Hash :=
  cache.adjust entry fun c => { c with lockRef := if 0 < c.lockRef then c.lockRef - 1 else c.lockRef }

def unlocked (cache : PICache Hash) : List (SegmentEntry Hash) :=
  cache.entries.values.filter fun entry => cache.lockRef entry = 0

def evictableSize (cache : PICache Hash) : Nat := (cache.unlocked.map fun entry => entry.fullKvSlots.length).sum
def mambaEvictableSize (cache : PICache Hash) : Nat := cache.unlocked.length

def addInflight (cache : PICache Hash) (numTokens numMambaSlots : Nat) : PICache Hash :=
  { cache with
    inflightFullTokens := cache.inflightFullTokens + numTokens
    inflightMambaSlots := cache.inflightMambaSlots + numMambaSlots }

/-- Clamped at zero, like the source's `max(0, ...)`. -/
def removeInflight (cache : PICache Hash) (numTokens numMambaSlots : Nat) : PICache Hash :=
  { cache with
    inflightFullTokens := cache.inflightFullTokens - numTokens
    inflightMambaSlots := cache.inflightMambaSlots - numMambaSlots }

def inflight (cache : PICache Hash) : ℕ × ℕ := (cache.inflightFullTokens,cache.inflightMambaSlots)

/-- A hit needs the hash and the tokens; it refreshes the access time and the hit count. -/
def matchSegment (cache : PICache Hash) (now : Nat) (segHash : Hash) (tokenIds : List Token) :
    Option (SegmentEntry Hash) × PICache Hash :=
  match cache.entries.get? segHash with
  | none => (none,cache)
  | some entry =>
    if entry.tokenIds = tokenIds then
      (some entry,cache.adjust entry fun c => { c with lastAccessTime := now, hitCount := c.hitCount + 1 })
    else (none,cache)

/-- `_entries[seg_hash] = entry`; an entry with the same hash and other tokens is overwritten. -/
def store (cache : PICache Hash) (now : Nat) (segHash : Hash) (tokenIds : List Token)
    (fullKvSlots : List Slot) (mambaStateSlot : Slot) : SegmentEntry Hash × PICache Hash :=
  let entry := ⟨cache.created,segHash,fullKvSlots,mambaStateSlot,tokenIds⟩
  (entry,
    { cache with
      entries := cache.entries.set segHash entry
      counters := Function.update cache.counters entry ⟨0,now,0⟩
      created := cache.created + 1
      keyed := by
        intro key found here
        rw [Dict.get?_set] at here
        split at here
        · rename_i same; cases here; exact same.symm
        · exact cache.keyed key found here
      fresh := by
        intro key found here
        rw [Dict.get?_set] at here
        split at here
        · cases here; exact Nat.lt_succ_self _
        · exact Nat.lt_succ_of_lt (cache.fresh key found here) })

def insertSegment (cache : PICache Hash) (now : Nat) (segHash : Hash) (tokenIds : List Token)
    (fullKvSlots : List Slot) (mambaStateSlot : Slot) : SegmentEntry Hash × PICache Hash :=
  match cache.matchSegment now segHash tokenIds with
  | (some existing,cache) => (existing,cache)
  | (none,cache) => cache.store now segHash tokenIds fullKvSlots mambaStateSlot

/-- `del _entries[seg_hash]` -/
def remove (cache : PICache Hash) (segHash : Hash) : PICache Hash :=
  { cache with
    entries := cache.entries.erase segHash
    keyed := by
      intro key found here
      rw [Dict.get?_erase] at here
      split at here
      · cases here
      · exact cache.keyed key found here
    fresh := by
      intro key found here
      rw [Dict.get?_erase] at here
      split at here
      · cases here
      · exact cache.fresh key found here }

/-- Slots owned by the entries of the index. -/
def holding (cache : PICache Hash) : Holding := cache.entries.total fun item => item.2.holding

variable (cache : PICache Hash) (entry : SegmentEntry Hash)

@[simp] theorem lock_entries : (cache.lock entry).entries = cache.entries := rfl
@[simp] theorem lock_created : (cache.lock entry).created = cache.created := rfl
@[simp] theorem unlock_entries : (cache.unlock entry).entries = cache.entries := rfl
@[simp] theorem unlock_created : (cache.unlock entry).created = cache.created := rfl
section
variable (tokens slots : Nat)
include tokens slots

@[simp] theorem addInflight_entries : (cache.addInflight tokens slots).entries = cache.entries := rfl
@[simp] theorem addInflight_counters :
    (cache.addInflight tokens slots).counters = cache.counters := rfl
@[simp] theorem addInflight_created : (cache.addInflight tokens slots).created = cache.created := rfl
@[simp] theorem removeInflight_entries :
    (cache.removeInflight tokens slots).entries = cache.entries := rfl
@[simp] theorem removeInflight_counters :
    (cache.removeInflight tokens slots).counters = cache.counters := rfl
@[simp] theorem removeInflight_created :
    (cache.removeInflight tokens slots).created = cache.created := rfl

end

theorem lockRef_lock (other : SegmentEntry Hash) :
    (cache.lock entry).lockRef other = if other = entry then cache.lockRef other + 1 else cache.lockRef other := by
  by_cases same : other = entry
  · simp [lockRef,lock,adjust,same]
  · simp [lockRef,lock,adjust,same]

theorem lockRef_unlock (other : SegmentEntry Hash) :
    (cache.unlock entry).lockRef other = if other = entry then cache.lockRef other - 1 else cache.lockRef other := by
  by_cases same : other = entry
  · subst same
    simp only [lockRef,unlock,adjust,Function.update_self,if_true]
    split <;> omega
  · simp [lockRef,unlock,adjust,same]

section
variable (now : Nat) (segHash : Hash) (tokenIds : List Token)
include now segHash tokenIds

theorem matchSegment_inflight :
    (cache.matchSegment now segHash tokenIds).2.inflight = cache.inflight := by
  unfold matchSegment
  split
  · rfl
  · split <;> rfl

theorem matchSegment_frame :
    (cache.matchSegment now segHash tokenIds).2.entries = cache.entries ∧
      (∀ other, (cache.matchSegment now segHash tokenIds).2.lockRef other = cache.lockRef other) ∧
      (cache.matchSegment now segHash tokenIds).2.created = cache.created := by
  unfold matchSegment
  split
  · exact ⟨rfl,fun _ => rfl,rfl⟩
  · rename_i found _
    split
    · refine ⟨rfl,fun other => ?_,rfl⟩
      by_cases same : other = found
      · simp [lockRef,adjust,same]
      · simp [lockRef,adjust,same]
    · exact ⟨rfl,fun _ => rfl,rfl⟩

theorem matchSegment_some :
    (cache.matchSegment now segHash tokenIds).1 = some entry ↔
      cache.entries.get? segHash = some entry ∧ entry.tokenIds = tokenIds := by
  unfold matchSegment
  cases found : cache.entries.get? segHash with
  | none => simp
  | some held =>
    by_cases same : held.tokenIds = tokenIds
    · simp only [same,if_true,Option.some.injEq]
      exact ⟨fun equal => ⟨equal,equal ▸ same⟩,fun both => both.1⟩
    · simp only [same,if_false,Option.some.injEq,reduceCtorEq,false_iff]
      rintro ⟨rfl,equal⟩; exact same equal

theorem matchSegment_none (missed : (cache.matchSegment now segHash tokenIds).1 = none) :
    (cache.matchSegment now segHash tokenIds).2 = cache := by
  unfold matchSegment at *
  split
  · rfl
  · rename_i found
    rw [found] at missed
    split
    · rename_i same; simp [same] at missed
    · rfl

theorem insertSegment_of_none (slots : List Slot) (mamba : Slot)
    (missed : (cache.matchSegment now segHash tokenIds).1 = none) :
    cache.insertSegment now segHash tokenIds slots mamba = cache.store now segHash tokenIds slots mamba := by
  have unchanged := cache.matchSegment_none now segHash tokenIds missed
  unfold insertSegment
  rw [show cache.matchSegment now segHash tokenIds = (none,cache) from Prod.ext missed unchanged]

end

theorem holding_congr {left right : PICache Hash} (same : left.entries = right.entries) :
    left.holding = right.holding := by rw [holding,holding,same]

theorem store_holding (now : Nat) (segHash : Hash) (tokenIds : List Token) (slots : List Slot) (mamba : Slot)
    (absent : cache.entries.get? segHash = none) :
    (cache.store now segHash tokenIds slots mamba).2.holding
      = kvHolding slots + mambaHolding [mamba] + cache.holding := by
  simp only [store,holding]
  rw [Dict.total_set_absent _ _ absent]
  rfl

theorem store_holding_over (now : Nat) (segHash : Hash) (tokenIds : List Token) (slots : List Slot) (mamba : Slot)
    {old : SegmentEntry Hash} (found : cache.entries.get? segHash = some old) :
    old.holding + (cache.store now segHash tokenIds slots mamba).2.holding
      = kvHolding slots + mambaHolding [mamba] + cache.holding := by
  simp only [store,holding]
  rw [Dict.total_set,Dict.total_of_get? _ found]
  simp only [SegmentEntry.holding]
  abel

theorem remove_holding {segHash : Hash} {old : SegmentEntry Hash} (found : cache.entries.get? segHash = some old) :
    cache.holding = old.holding + (cache.remove segHash).holding := by
  simp only [holding,remove]
  rw [Dict.total_of_get? _ found]

theorem holding_of_get? {segHash : Hash} {held : SegmentEntry Hash} (found : cache.entries.get? segHash = some held) :
    ∃ rest, cache.holding = held.holding + rest := ⟨_,cache.remove_holding found⟩
end PICache

/-- What the engine's requests share: both allocators, the free request rows and the cache. -/
structure Pools (Hash : Type u) [DecidableEq Hash] where
  kv : TokenToKVPoolAllocator
  mamba : MambaSlotAllocator
  reqSlots : List Nat
  cache : PICache Hash

structure EvictResult where
  numTokensEvicted : Nat
  mambaNumEvicted : Nat

namespace Pools

def clear (kvSize mambaSize reqSize : Nat) (needSort : Bool) : Pools Hash :=
  ⟨.clear kvSize needSort,.clear mambaSize,List.range' 1 reqSize,.empty⟩

def freeKv (pools : Pools Hash) (slots : List Slot) : Pools Hash := { pools with kv := pools.kv.free slots }
def freeMamba (pools : Pools Hash) (slots : List Slot) : Pools Hash := { pools with mamba := pools.mamba.free slots }
def withCache (pools : Pools Hash) (cache : PICache Hash) : Pools Hash := { pools with cache := cache }

def evictEntry (pools : Pools Hash) (entry : SegmentEntry Hash) : Pools Hash :=
  ((pools.freeKv entry.fullKvSlots).freeMamba [entry.mambaStateSlot]).withCache (pools.cache.remove entry.segHash)

def evictLoop (needTokens needMamba : Nat) : List (SegmentEntry Hash) → EvictResult → Pools Hash →
    EvictResult × Pools Hash
  | [], done, pools => (done,pools)
  | entry::rest, done, pools =>
    if needTokens ≤ done.numTokensEvicted ∧ needMamba ≤ done.mambaNumEvicted then (done,pools)
    else evictLoop needTokens needMamba rest
      ⟨done.numTokensEvicted + entry.fullKvSlots.length,done.mambaNumEvicted + 1⟩ (pools.evictEntry entry)

/-- Unlocked entries, least recently used first. -/
def candidates (pools : Pools Hash) : List (SegmentEntry Hash) :=
  pools.cache.unlocked.insertionSort fun left right =>
    (pools.cache.counters left).lastAccessTime ≤ (pools.cache.counters right).lastAccessTime

def evict (pools : Pools Hash) (numTokens mambaNum : Nat) : EvictResult × Pools Hash :=
  if numTokens = 0 ∧ mambaNum = 0 then (⟨0,0⟩,pools)
  else evictLoop numTokens mambaNum pools.candidates ⟨0,0⟩ pools

def evictFromTreeCache (pools : Pools Hash) (numTokens : Nat) : Pools Hash :=
  if pools.kv.availableSize < numTokens then (pools.evict numTokens 0).2 else pools

/-- Evicts when the free list is too short; still too short is an out-of-memory error. -/
def allocTokenSlots (pools : Pools Hash) (numTokens : Nat) : Option (List Slot × Pools Hash) :=
  let pools := pools.evictFromTreeCache numTokens
  (pools.kv.alloc numTokens).map fun (taken,kv) => (taken,{ pools with kv := kv })

/-- Retries once after evicting one entry; no entry to evict is an error. -/
def allocOneMamba (pools : Pools Hash) : Option (Slot × Pools Hash) :=
  match pools.mamba.allocOne with
  | some (slot,mamba) => some (slot,{ pools with mamba := mamba })
  | none =>
    let (evicted,pools) := pools.evict 0 1
    if evicted.mambaNumEvicted = 0 then none
    else pools.mamba.allocOne.map fun (slot,mamba) => (slot,{ pools with mamba := mamba })

/-- Slots that no request owns: free, or in the index. -/
def ledger (pools : Pools Hash) : Holding :=
  kvHolding pools.kv.slots + mambaHolding pools.mamba.freeSlots + pools.cache.holding

theorem ledger_freeKv (pools : Pools Hash) (slots : List Slot) :
    (pools.freeKv slots).ledger = kvHolding slots + pools.ledger := by
  have freed : kvHolding (pools.kv.free slots).slots = kvHolding slots + kvHolding pools.kv.slots := by
    simp only [kvHolding,TokenToKVPoolAllocator.slots_free]; rfl
  simp only [ledger,freeKv,freed]
  abel

theorem ledger_freeMamba (pools : Pools Hash) (slots : List Slot) :
    (pools.freeMamba slots).ledger = mambaHolding slots + pools.ledger := by
  have freed : mambaHolding (pools.mamba.free slots).freeSlots = mambaHolding slots + mambaHolding pools.mamba.freeSlots := by
    simp only [mambaHolding,MambaSlotAllocator.freeSlots_free]; rfl
  simp only [ledger,freeMamba,freed]
  abel

theorem ledger_withCache (pools : Pools Hash) {cache : PICache Hash} (same : cache.entries = pools.cache.entries) :
    (pools.withCache cache).ledger = pools.ledger := by
  simp only [ledger,withCache,PICache.holding_congr same]

theorem ledger_evictEntry (pools : Pools Hash) {entry : SegmentEntry Hash}
    (found : pools.cache.entries.get? entry.segHash = some entry) :
    (pools.evictEntry entry).ledger = pools.ledger := by
  have freed := ((pools.freeKv entry.fullKvSlots).ledger_freeMamba [entry.mambaStateSlot]).trans
    (congrArg _ (pools.ledger_freeKv entry.fullKvSlots))
  simp only [ledger,freeKv,freeMamba] at freed
  simp only [evictEntry,ledger,withCache,freeKv,freeMamba]
  rw [pools.cache.remove_holding found] at freed ⊢
  refine add_left_cancel (a := entry.holding) ?_
  simp only [SegmentEntry.holding] at freed ⊢
  calc _ = _ := by abel
    _ = _ := freed
    _ = _ := by abel

/-- What eviction leaves alone: the counters, the identities and every locked entry; nothing enters the index. -/
structure Evicts (before after : Pools Hash) : Prop where
  counters : after.cache.counters = before.cache.counters
  created : after.cache.created = before.cache.created
  kept : ∀ key entry, after.cache.entries.get? key = some entry → before.cache.entries.get? key = some entry
  locked : ∀ key entry, before.cache.entries.get? key = some entry → 0 < before.cache.lockRef entry →
    after.cache.entries.get? key = some entry

theorem Evicts.refl (pools : Pools Hash) : Evicts pools pools :=
  ⟨rfl,rfl,fun _ _ found => found,fun _ _ found _ => found⟩
theorem Evicts.of_cache {before after : Pools Hash} (same : after.cache = before.cache) : Evicts before after := by
  refine ⟨by rw [same],by rw [same],fun key entry found => ?_,fun key entry found _ => ?_⟩
  · rwa [same] at found
  · rwa [same]
theorem Evicts.lockRef {before after : Pools Hash} (evicts : Evicts before after) (entry : SegmentEntry Hash) :
    after.cache.lockRef entry = before.cache.lockRef entry := by
  rw [PICache.lockRef,PICache.lockRef,evicts.counters]
theorem Evicts.trans {first second third : Pools Hash} (left : Evicts first second) (right : Evicts second third) :
    Evicts first third := by
  refine ⟨right.counters.trans left.counters,right.created.trans left.created,?_,?_⟩
  · intro key entry found; exact left.kept key entry (right.kept key entry found)
  · intro key entry found positive
    exact right.locked key entry (left.locked key entry found positive) (by rwa [left.lockRef])

theorem evictEntry_evicts (pools : Pools Hash) {entry : SegmentEntry Hash}
    (found : pools.cache.entries.get? entry.segHash = some entry) (idle : pools.cache.lockRef entry = 0) :
    Evicts pools (pools.evictEntry entry) := by
  refine ⟨rfl,rfl,?_,?_⟩
  · intro key other present
    simp only [evictEntry,withCache,PICache.remove,Dict.get?_erase] at present
    split at present
    · cases present
    · exact present
  · intro key other present positive
    simp only [evictEntry,withCache,PICache.remove,Dict.get?_erase]
    split
    · rename_i same
      subst same
      rw [found,Option.some.injEq] at present
      subst present; omega
    · exact present

/-- Each candidate is still the index's entry for its hash, unlocked, and named once. -/
structure Candidates (pools : Pools Hash) (entries : List (SegmentEntry Hash)) : Prop where
  present : ∀ entry ∈ entries, pools.cache.entries.get? entry.segHash = some entry
  idle : ∀ entry ∈ entries, pools.cache.lockRef entry = 0
  distinct : (entries.map SegmentEntry.segHash).Nodup

theorem Candidates.tail {pools : Pools Hash} {entry : SegmentEntry Hash} {rest : List (SegmentEntry Hash)}
    (all : Candidates pools (entry::rest)) : Candidates (pools.evictEntry entry) rest := by
  obtain ⟨absent,distinct⟩ := List.nodup_cons.mp all.distinct
  refine ⟨fun other member => ?_,fun other member => all.idle other (List.mem_cons_of_mem _ member),distinct⟩
  have differs : other.segHash ≠ entry.segHash := fun same => absent (same ▸ List.mem_map_of_mem member)
  simp only [evictEntry,withCache,PICache.remove,Dict.get?_erase,if_neg differs]
  exact all.present other (List.mem_cons_of_mem _ member)

theorem unlocked_candidates (pools : Pools Hash) : Candidates pools pools.candidates := by
  have perm : pools.candidates.Perm pools.cache.unlocked := List.perm_insertionSort ..
  have inside {entry : SegmentEntry Hash} (member : entry ∈ pools.candidates) :
      entry ∈ pools.cache.entries.values ∧ pools.cache.lockRef entry = 0 := by
    simpa [PICache.unlocked] using perm.mem_iff.mp member
  refine ⟨fun entry member => ?_,fun entry member => (inside member).2,?_⟩
  · obtain ⟨key,found⟩ := (Dict.mem_values ..).mp (inside member).1
    rwa [pools.cache.keyed key entry found]
  · refine (perm.map SegmentEntry.segHash).nodup_iff.mpr ?_
    have keys : pools.cache.entries.values.map SegmentEntry.segHash = pools.cache.entries.keys := by
      simp only [Dict.values,Dict.keys,List.map_map]
      refine List.map_congr_left fun item member => ?_
      exact pools.cache.keyed item.1 item.2 ((Dict.get?_eq_some ..).mpr member)
    have distinct : (pools.cache.entries.values.map SegmentEntry.segHash).Nodup := by
      rw [keys]; exact pools.cache.entries.distinct
    exact distinct.sublist (List.Sublist.map _ List.filter_sublist)

theorem evictLoop_evicts (needTokens needMamba : Nat) (entries : List (SegmentEntry Hash)) (done : EvictResult)
    (pools : Pools Hash) (all : Candidates pools entries) :
    let after := (evictLoop needTokens needMamba entries done pools).2
    Evicts pools after ∧ after.ledger = pools.ledger ∧ after.reqSlots = pools.reqSlots := by
  induction entries generalizing done pools with
  | nil => exact ⟨Evicts.refl pools,rfl,rfl⟩
  | cons entry rest ih =>
    unfold evictLoop
    split
    · exact ⟨Evicts.refl pools,rfl,rfl⟩
    · have found := all.present entry (List.mem_cons_self ..)
      obtain ⟨evicts,same,rows⟩ := ih ⟨done.numTokensEvicted + entry.fullKvSlots.length,done.mambaNumEvicted + 1⟩
        (pools.evictEntry entry) all.tail
      refine ⟨?_,same.trans (pools.ledger_evictEntry found),rows⟩
      exact (pools.evictEntry_evicts found (all.idle entry (List.mem_cons_self ..))).trans evicts

theorem evict_evicts (pools : Pools Hash) (numTokens mambaNum : Nat) :
    let after := (pools.evict numTokens mambaNum).2
    Evicts pools after ∧ after.ledger = pools.ledger ∧ after.reqSlots = pools.reqSlots := by
  unfold evict
  split
  · exact ⟨Evicts.refl pools,rfl,rfl⟩
  · exact evictLoop_evicts _ _ _ _ _ pools.unlocked_candidates

theorem evictFromTreeCache_evicts (pools : Pools Hash) (numTokens : Nat) :
    let after := pools.evictFromTreeCache numTokens
    Evicts pools after ∧ after.ledger = pools.ledger ∧ after.reqSlots = pools.reqSlots := by
  unfold evictFromTreeCache
  split
  · exact pools.evict_evicts numTokens 0
  · exact ⟨Evicts.refl pools,rfl,rfl⟩

theorem evictLoop_inflight (needTokens needMamba : Nat) (entries : List (SegmentEntry Hash)) (done : EvictResult)
    (pools : Pools Hash) : (evictLoop needTokens needMamba entries done pools).2.cache.inflight = pools.cache.inflight := by
  induction entries generalizing done pools with
  | nil => rfl
  | cons entry rest ih =>
    unfold evictLoop
    split
    · rfl
    · exact ih _ (pools.evictEntry entry)

theorem evict_inflight (pools : Pools Hash) (numTokens mambaNum : Nat) :
    (pools.evict numTokens mambaNum).2.cache.inflight = pools.cache.inflight := by
  unfold evict
  split
  · rfl
  · exact evictLoop_inflight ..

variable {pools after : Pools Hash}

section
variable {numTokens : Nat} {taken : List Slot} (allocated : pools.allocTokenSlots numTokens = some (taken,after))
include allocated

theorem allocTokenSlots_spec :
    taken.length = numTokens ∧ Evicts pools after ∧ pools.ledger = kvHolding taken + after.ledger ∧
      after.reqSlots = pools.reqSlots := by
  obtain ⟨evicts,ledger,rows⟩ := pools.evictFromTreeCache_evicts numTokens
  simp only [allocTokenSlots,map_eq_some_iff] at allocated
  obtain ⟨⟨slots,kv⟩,allocated,same⟩ := allocated
  cases same
  obtain ⟨length,slotsSame⟩ := TokenToKVPoolAllocator.alloc_slots allocated
  refine ⟨length,evicts.trans (Evicts.of_cache rfl),?_,rows⟩
  rw [← ledger]
  simp only [Pools.ledger]
  have split : kvHolding (pools.evictFromTreeCache numTokens).kv.slots = kvHolding slots + kvHolding kv.slots := by
    simp only [kvHolding,slotsSame]; rfl
  rw [split]
  abel

theorem allocTokenSlots_inflight : after.cache.inflight = pools.cache.inflight := by
  obtain ⟨_,-,same⟩ := map_eq_some_iff.mp allocated
  cases same
  simp only [evictFromTreeCache]
  split
  · exact pools.evict_inflight numTokens 0
  · rfl

end

private theorem takeMamba_spec {pools : Pools Hash} {slot : Slot} {mamba : MambaSlotAllocator}
    (allocated : pools.mamba.allocOne = some (slot,mamba)) :
    pools.ledger = mambaHolding [slot] + { pools with mamba := mamba }.ledger := by
  have slots := MambaSlotAllocator.allocOne_slots allocated
  have split : mambaHolding pools.mamba.freeSlots = mambaHolding [slot] + mambaHolding mamba.freeSlots := by
    rw [slots,← mambaHolding_append]; rfl
  simp only [ledger,split]
  abel

theorem allocOneMamba_spec {slot : Slot}
    (allocated : pools.allocOneMamba = some (slot,after)) :
    Evicts pools after ∧ pools.ledger = mambaHolding [slot] + after.ledger ∧ after.reqSlots = pools.reqSlots := by
  unfold allocOneMamba at allocated
  split at allocated
  · rename_i mamba direct
    cases allocated
    exact ⟨Evicts.of_cache rfl,takeMamba_spec direct,rfl⟩
  · obtain ⟨evicts,ledger,rows⟩ := pools.evict_evicts 0 1
    simp only at allocated
    split at allocated
    · cases allocated
    · obtain ⟨⟨found,mamba⟩,retried,same⟩ := map_eq_some_iff.mp allocated
      cases same
      exact ⟨evicts.trans (Evicts.of_cache rfl),ledger ▸ takeMamba_spec retried,rows⟩

theorem allocOneMamba_inflight {slot : Slot}
    (allocated : pools.allocOneMamba = some (slot,after)) : after.cache.inflight = pools.cache.inflight := by
  unfold allocOneMamba at allocated
  split at allocated
  · cases allocated
    rfl
  · simp only at allocated
    split at allocated
    · cases allocated
    · obtain ⟨_,-,same⟩ := map_eq_some_iff.mp allocated
      cases same
      exact pools.evict_inflight 0 1

end Pools
end Hypic.Cache
