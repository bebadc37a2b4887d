import Hypic.Custody

/-! What an allocation can reach: free slots together with those of unlocked entries. Eviction moves
    slots inside this sum, so a prefill batch succeeds exactly when the sum covers it. -/

namespace Hypic.Capacity
open Policy Allocator Cache Request Alloc Custody List
universe u
variable {Hash : Type u} [DecidableEq Hash]

def kvCapacity (pools : Pools Hash) : Nat := pools.kv.availableSize + pools.cache.evictableSize
def mambaCapacity (pools : Pools Hash) : Nat := pools.mamba.availableSize + pools.cache.mambaEvictableSize

section Evict
variable (cache : PICache Hash) (pools : Pools Hash)

theorem evictableSize_total : cache.evictableSize =
    cache.entries.total fun item => if cache.lockRef item.2 = 0 then item.2.fullKvSlots.length else 0 := by
  unfold PICache.evictableSize PICache.unlocked Dict.total Dict.values
  induction cache.entries.items with
  | nil => rfl
  | cons item rest ih =>
    by_cases idle : cache.lockRef item.2 = 0
    · simp [idle,ih]
    · simp [idle,ih]

theorem mambaEvictableSize_total : cache.mambaEvictableSize =
    cache.entries.total fun item => if cache.lockRef item.2 = 0 then 1 else 0 := by
  unfold PICache.mambaEvictableSize PICache.unlocked Dict.total Dict.values
  induction cache.entries.items with
  | nil => rfl
  | cons item rest ih =>
    by_cases idle : cache.lockRef item.2 = 0
    · simp [idle,ih,Nat.add_comm]
    · simp [idle,ih]

theorem availableSize_free (allocator : TokenToKVPoolAllocator) (slots : List Slot) :
    (allocator.free slots).availableSize = slots.length + allocator.availableSize := by
  have card := congrArg Multiset.card (allocator.slots_free slots)
  simpa [TokenToKVPoolAllocator.slots_length] using card

theorem evictEntry_capacity {entry : SegmentEntry Hash} (found : pools.cache.entries.get? entry.segHash = some entry)
    (idle : pools.cache.lockRef entry = 0) :
    (pools.evictEntry entry).kv.availableSize = pools.kv.availableSize + entry.fullKvSlots.length ∧
      (pools.evictEntry entry).mamba.availableSize = pools.mamba.availableSize + 1 ∧
      kvCapacity (pools.evictEntry entry) = kvCapacity pools ∧
      mambaCapacity (pools.evictEntry entry) = mambaCapacity pools := by
  have kv : (pools.evictEntry entry).kv.availableSize = pools.kv.availableSize + entry.fullKvSlots.length := by
    rw [Nat.add_comm]; exact availableSize_free ..
  have mamba : (pools.evictEntry entry).mamba.availableSize = pools.mamba.availableSize + 1 := by
    simp [Pools.evictEntry,Pools.freeMamba,Pools.withCache,Pools.freeKv,MambaSlotAllocator.availableSize,MambaSlotAllocator.free]
  have locks (other : SegmentEntry Hash) : (pools.evictEntry entry).cache.lockRef other = pools.cache.lockRef other := rfl
  have entries : (pools.evictEntry entry).cache.entries = pools.cache.entries.erase entry.segHash := rfl
  refine ⟨kv,mamba,?_,?_⟩
  · rw [kvCapacity,kvCapacity,kv,evictableSize_total,evictableSize_total,Dict.total_of_get? _ found]
    simp only [locks,entries,idle,if_true]
    omega
  · rw [mambaCapacity,mambaCapacity,mamba,mambaEvictableSize_total,mambaEvictableSize_total,Dict.total_of_get? _ found]
    simp only [locks,entries,idle,if_true]
    omega

/-- One pass over the candidates: the free lists grow by what is reported, and a pass that stops short of
    its targets has taken them all. -/
theorem evictLoop_capacity (needTokens needMamba : Nat) (entries : List (SegmentEntry Hash)) (done : EvictResult)
    (pools : Pools Hash) (all : Pools.Candidates pools entries) :
    let result := Pools.evictLoop needTokens needMamba entries done pools
    kvCapacity result.2 = kvCapacity pools ∧ mambaCapacity result.2 = mambaCapacity pools ∧
      result.2.kv.availableSize + done.numTokensEvicted = pools.kv.availableSize + result.1.numTokensEvicted ∧
      result.2.mamba.availableSize + done.mambaNumEvicted = pools.mamba.availableSize + result.1.mambaNumEvicted ∧
      (needTokens ≤ result.1.numTokensEvicted ∧ needMamba ≤ result.1.mambaNumEvicted ∨
        ∀ entry ∈ entries, result.2.cache.entries.get? entry.segHash = none) := by
  induction entries generalizing done pools with
  | nil => exact ⟨rfl,rfl,rfl,rfl,.inr (by simp)⟩
  | cons entry rest ih =>
    unfold Pools.evictLoop
    split
    · rename_i enough
      exact ⟨rfl,rfl,rfl,rfl,.inl enough⟩
    · obtain ⟨kv,mamba,kvSame,mambaSame⟩ := evictEntry_capacity pools (all.present entry mem_cons_self)
        (all.idle entry mem_cons_self)
      obtain ⟨kvCap,mambaCap,kvGrown,mambaGrown,stop⟩ :=
        ih ⟨done.numTokensEvicted + entry.fullKvSlots.length,done.mambaNumEvicted + 1⟩ (pools.evictEntry entry) all.tail
      refine ⟨kvCap.trans kvSame,mambaCap.trans mambaSame,?_,?_,?_⟩
      · simp only at kvGrown; omega
      · simp only at mambaGrown; omega
      · rcases stop with enough | gone
        · exact .inl enough
        · refine .inr fun other member => ?_
          rcases mem_cons.mp member with rfl | member
          · obtain ⟨evicts,-,-⟩ := Pools.evictLoop_evicts needTokens needMamba rest
              ⟨done.numTokensEvicted + other.fullKvSlots.length,done.mambaNumEvicted + 1⟩ (pools.evictEntry other) all.tail
            cases left : (Pools.evictLoop needTokens needMamba rest
                ⟨done.numTokensEvicted + other.fullKvSlots.length,done.mambaNumEvicted + 1⟩
                (pools.evictEntry other)).2.cache.entries.get? other.segHash with
            | none => rfl
            | some found =>
              have present := evicts.kept _ found left
              change (pools.cache.entries.erase other.segHash).get? other.segHash = some found at present
              rw [Dict.get?_erase_same] at present
              cases present
          · exact gone other member

theorem evict_capacity (numTokens mambaNum : Nat) :
    let result := pools.evict numTokens mambaNum
    kvCapacity result.2 = kvCapacity pools ∧ mambaCapacity result.2 = mambaCapacity pools ∧
      result.2.kv.availableSize = pools.kv.availableSize + result.1.numTokensEvicted ∧
      result.2.mamba.availableSize = pools.mamba.availableSize + result.1.mambaNumEvicted ∧
      (numTokens ≤ result.1.numTokensEvicted ∧ mambaNum ≤ result.1.mambaNumEvicted ∨ result.2.cache.unlocked = []) := by
  intro result
  by_cases nothing : numTokens = 0 ∧ mambaNum = 0
  · have same : result = (⟨0,0⟩,pools) := if_pos nothing
    rw [same]
    exact ⟨rfl,rfl,rfl,rfl,.inl ⟨by omega,by omega⟩⟩
  · have same : result = Pools.evictLoop numTokens mambaNum pools.candidates ⟨0,0⟩ pools := if_neg nothing
    obtain ⟨kvCap,mambaCap,kvGrown,mambaGrown,stop⟩ :=
      evictLoop_capacity numTokens mambaNum pools.candidates ⟨0,0⟩ pools pools.unlocked_candidates
    obtain ⟨evicts,-,-⟩ := Pools.evictLoop_evicts numTokens mambaNum pools.candidates ⟨0,0⟩ pools pools.unlocked_candidates
    rw [← same] at kvCap mambaCap kvGrown mambaGrown stop evicts
    refine ⟨kvCap,mambaCap,kvGrown,mambaGrown,stop.imp_right fun gone => ?_⟩
    refine eq_nil_iff_forall_not_mem.mpr fun entry left => ?_
    obtain ⟨member,idle⟩ := mem_filter.mp left
    obtain ⟨key,present⟩ := (Dict.mem_values ..).mp member
    have before := evicts.kept key entry present
    have candidate : entry ∈ pools.candidates := by
      refine (perm_insertionSort ..).mem_iff.mpr (mem_filter.mpr ⟨Dict.mem_values_of_get? before,?_⟩)
      rw [← evicts.lockRef]; exact idle
    have absent := gone entry candidate
    rw [result.2.cache.keyed key entry present,present] at absent
    cases absent

private theorem evictable_nil (none : cache.unlocked = []) : cache.evictableSize = 0 ∧ cache.mambaEvictableSize = 0 := by
  simp [PICache.evictableSize,PICache.mambaEvictableSize,none]
end Evict

section Allocate
variable {pools after : Pools Hash}

theorem evictFromTreeCache_capacity (pools : Pools Hash) (numTokens : Nat) :
    let after := pools.evictFromTreeCache numTokens
    kvCapacity after = kvCapacity pools ∧ mambaCapacity after = mambaCapacity pools ∧
      (numTokens ≤ after.kv.availableSize ↔ numTokens ≤ kvCapacity pools) := by
  intro evicted
  by_cases short : pools.kv.availableSize < numTokens
  · have same : evicted = (pools.evict numTokens 0).2 := if_pos short
    obtain ⟨kvCap,mambaCap,kvGrown,-,stop⟩ := evict_capacity pools numTokens 0
    rw [← same] at kvCap mambaCap kvGrown stop
    refine ⟨kvCap,mambaCap,?_⟩
    rcases stop with enough | none
    · constructor
      · intro _
        have : evicted.kv.availableSize ≤ kvCapacity evicted := Nat.le_add_right ..
        omega
      · intro _; omega
    · have whole : kvCapacity evicted = evicted.kv.availableSize := by rw [kvCapacity,(evictable_nil _ none).1,Nat.add_zero]
      rw [← whole,kvCap]
  · have same : evicted = pools := if_neg short
    rw [same]
    refine ⟨rfl,rfl,?_⟩
    have : pools.kv.availableSize ≤ kvCapacity pools := Nat.le_add_right ..
    constructor <;> intro _ <;> omega

theorem allocTokenSlots_isSome (pools : Pools Hash) (numTokens : Nat) :
    (pools.allocTokenSlots numTokens).isSome ↔ numTokens ≤ kvCapacity pools := by
  obtain ⟨-,-,enough⟩ := evictFromTreeCache_capacity pools numTokens
  rw [Pools.allocTokenSlots,isSome_map,TokenToKVPoolAllocator.alloc_isSome]
  exact enough

theorem allocTokenSlots_capacity {numTokens : Nat} {taken : List Slot}
    (allocated : pools.allocTokenSlots numTokens = some (taken,after)) :
    kvCapacity after + numTokens = kvCapacity pools ∧ mambaCapacity after = mambaCapacity pools := by
  obtain ⟨kvCap,mambaCap,-⟩ := evictFromTreeCache_capacity pools numTokens
  obtain ⟨⟨slots,kv⟩,given,same⟩ := map_eq_some_iff.mp allocated
  cases same
  obtain ⟨length,split⟩ := TokenToKVPoolAllocator.alloc_slots given
  have card := congrArg Multiset.card split
  simp only [coe_add,Multiset.coe_card,length_append,TokenToKVPoolAllocator.slots_length,length] at card
  refine ⟨?_,mambaCap⟩
  rw [← kvCap,kvCapacity,kvCapacity]
  simp only
  omega

theorem allocOneMamba_isSome (pools : Pools Hash) : pools.allocOneMamba.isSome ↔ 0 < mambaCapacity pools := by
  cases free : pools.mamba.freeSlots with
  | cons slot rest =>
    have direct := pools.mamba.allocOne_cons free
    have positive : 0 < mambaCapacity pools := by
      simp [mambaCapacity,MambaSlotAllocator.availableSize,free]
    simp [Pools.allocOneMamba,direct,positive]
  | nil =>
    have none := pools.mamba.allocOne_nil free
    obtain ⟨-,mambaCap,-,grown,stop⟩ := evict_capacity pools 0 1
    have empty : pools.mamba.availableSize = 0 := by simp [MambaSlotAllocator.availableSize,free]
    simp only [Pools.allocOneMamba,none]
    split
    · rename_i nothing
      have exhausted := (evictable_nil _ (stop.resolve_left fun enough => by omega)).2
      have zero : mambaCapacity pools = 0 := by rw [← mambaCap,mambaCapacity]; omega
      simp [zero]
    · rename_i something
      have available : (pools.evict 0 1).2.mamba.freeSlots ≠ [] := by
        intro gone
        have : (pools.evict 0 1).2.mamba.availableSize = 0 := by simp [MambaSlotAllocator.availableSize,gone]
        omega
      obtain ⟨slot,rest,found⟩ := exists_cons_of_ne_nil available
      have positive : 0 < mambaCapacity pools := by rw [← mambaCap,mambaCapacity]; omega
      simp [MambaSlotAllocator.allocOne_cons _ found,positive]

private theorem takeMamba_capacity {slot : Slot} {mamba : MambaSlotAllocator}
    (allocated : pools.mamba.allocOne = some (slot,mamba)) :
    mambaCapacity { pools with mamba := mamba } + 1 = mambaCapacity pools := by
  have slots := MambaSlotAllocator.allocOne_slots allocated
  simp only [mambaCapacity,MambaSlotAllocator.availableSize,slots,length_cons]
  omega

theorem allocOneMamba_capacity {slot : Slot} (allocated : pools.allocOneMamba = some (slot,after)) :
    mambaCapacity after + 1 = mambaCapacity pools ∧ kvCapacity after = kvCapacity pools := by
  unfold Pools.allocOneMamba at allocated
  split at allocated
  · rename_i mamba direct
    cases allocated
    exact ⟨takeMamba_capacity direct,rfl⟩
  · obtain ⟨kvCap,mambaCap,-,-,-⟩ := evict_capacity pools 0 1
    simp only at allocated
    split at allocated
    · cases allocated
    · obtain ⟨⟨found,mamba⟩,retried,same⟩ := map_eq_some_iff.mp allocated
      cases same
      exact ⟨(takeMamba_capacity retried).trans mambaCap,kvCap⟩

theorem reserveMamba_capacity (pools : Pools Hash) (numReqs : Nat) :
    let after := reserveMamba pools numReqs
    kvCapacity after = kvCapacity pools ∧ mambaCapacity after = mambaCapacity pools ∧ after.reqSlots = pools.reqSlots ∧
      (numReqs ≤ after.mamba.availableSize ↔ numReqs ≤ mambaCapacity pools) := by
  intro reserved
  by_cases short : pools.mamba.availableSize < numReqs * mambaStatePerReqPrefixCache
  · have same : reserved = (pools.evict 0 (numReqs * mambaStatePerReqPrefixCache - pools.mamba.availableSize)).2 := if_pos short
    obtain ⟨kvCap,mambaCap,-,grown,stop⟩ :=
      evict_capacity pools 0 (numReqs * mambaStatePerReqPrefixCache - pools.mamba.availableSize)
    obtain ⟨-,-,rows⟩ := pools.evict_evicts 0 (numReqs * mambaStatePerReqPrefixCache - pools.mamba.availableSize)
    rw [← same] at kvCap mambaCap grown stop rows
    refine ⟨kvCap,mambaCap,rows,?_⟩
    have bound : reserved.mamba.availableSize ≤ mambaCapacity reserved := Nat.le_add_right ..
    rcases stop with enough | none
    · have many : numReqs ≤ numReqs * mambaStatePerReqPrefixCache := Nat.le_mul_of_pos_right _ (by decide)
      constructor <;> intro _ <;> omega
    · have whole : mambaCapacity reserved = reserved.mamba.availableSize := by
        rw [mambaCapacity,(evictable_nil _ none).2,Nat.add_zero]
      rw [← whole,mambaCap]
  · have same : reserved = pools := if_neg short
    rw [same]
    have bound : pools.mamba.availableSize ≤ mambaCapacity pools := Nat.le_add_right ..
    have many : numReqs ≤ numReqs * mambaStatePerReqPrefixCache := Nat.le_mul_of_pos_right _ (by decide)
    refine ⟨rfl,rfl,rfl,?_⟩
    constructor <;> intro _ <;> omega
end Allocate

/-- A miss that is given a state slot: all but the short ones of the modes without a public copy. -/
def takesMamba (args : ServerArgs Hash) (last : Option Seg) (seg : Seg) : Bool :=
  args.rope = true ∨ some seg = last ∨ args.short seg = false

def mambaMisses (args : ServerArgs Hash) (req : Req Hash) : Nat :=
  (req.picMissSegments.filter fun seg => takesMamba args req.lastSeg seg).length

section Batch
variable {args : ServerArgs Hash}

private theorem takesMamba_of_cached {last : Option Seg} {seg : Seg}
    (cached : ¬ (some seg ≠ last ∧ args.short seg = true)) : takesMamba args last seg = true := by
  simp only [takesMamba,decide_eq_true_eq]
  by_cases isLast : some seg = last
  · exact .inr (.inl isLast)
  · exact .inr (.inr (by simpa [isLast] using cached))

theorem allocMiss_isSome (args : ServerArgs Hash) (walk : Walk Hash) (seg : Seg) : (allocMiss args walk seg).isSome ↔
    (takesMamba args walk.req.lastSeg seg = true → 0 < mambaCapacity walk.pools) := by
  unfold allocMiss
  by_cases rope : args.rope = true
  · simp [rope,takesMamba,Walk.allocMissRope,allocOneMamba_isSome]
  · rw [if_neg rope]
    unfold Walk.allocMissStandard
    split
    · rename_i uncached
      simp [takesMamba,rope,uncached]
    · rename_i cached
      have takes := takesMamba_of_cached cached
      simp [takes,allocOneMamba_isSome]

theorem allocMiss_capacity {walk next : Walk Hash} {seg : Seg} (executed : allocMiss args walk seg = some next) :
    mambaCapacity next.pools + (if takesMamba args walk.req.lastSeg seg then 1 else 0) = mambaCapacity walk.pools ∧
      next.req.lastSeg = walk.req.lastSeg := by
  obtain ⟨withPub,mamba,pools,rfl,records⟩ := allocMiss_records executed
  refine ⟨?_,rfl⟩
  have rule := records.state
  rcases records.pools with ⟨rfl,rfl⟩ | ⟨slot,rfl,allocated⟩
  · rw [if_neg (by simpa [takesMamba] using rule)]
    rfl
  · rw [if_pos (by simpa [takesMamba,imp_iff_not_or] using rule)]
    exact (allocOneMamba_capacity allocated).1

theorem misses_capacity (args : ServerArgs Hash) (segs : List Seg) (walk : Walk Hash) :
    ((segs.foldlM (allocMiss args) walk).isSome ↔
      (segs.filter fun seg => takesMamba args walk.req.lastSeg seg).length ≤ mambaCapacity walk.pools) ∧
    ∀ final, segs.foldlM (allocMiss args) walk = some final →
      mambaCapacity final.pools + (segs.filter fun seg => takesMamba args walk.req.lastSeg seg).length = mambaCapacity walk.pools := by
  induction segs generalizing walk with
  | nil =>
    refine ⟨by simp,fun final executed => ?_⟩
    cases executed
    rfl
  | cons seg rest ih =>
    have split : ((seg::rest).filter fun seg => takesMamba args walk.req.lastSeg seg).length =
        (if takesMamba args walk.req.lastSeg seg then 1 else 0) +
          (rest.filter fun seg => takesMamba args walk.req.lastSeg seg).length := by
      by_cases takes : takesMamba args walk.req.lastSeg seg = true
      · simp [takes,Nat.add_comm]
      · simp [takes]
    have possible := allocMiss_isSome args walk seg
    rw [foldlM_cons,split]
    cases executed : allocMiss args walk seg with
    | none =>
      rw [executed] at possible
      simp only [isSome_none,false_eq_true,false_iff,Classical.not_imp,Nat.not_lt] at possible
      refine ⟨?_,fun final ran => by cases ran⟩
      simp only [possible.1,if_true]
      constructor
      · intro ran; cases ran
      · intro enough; omega
    | some next =>
      obtain ⟨used,last⟩ := allocMiss_capacity executed
      obtain ⟨later,left⟩ := ih next
      rw [last] at later left
      refine ⟨?_,fun final ran => ?_⟩
      · change (rest.foldlM (allocMiss args) next).isSome = true ↔ _
        rw [later]
        omega
      · have := left final ran
        omega

private theorem hits_succeed (hits : List (Seg × Hash)) (walk : Walk Hash)
    (found : ∀ hit ∈ hits, (walk.req.picSegmentEntries.get? hit.2).isSome) :
    ∃ final, hits.foldlM (writeHit args) walk = some final ∧ final.pools = walk.pools ∧ final.req.lastSeg = walk.req.lastSeg := by
  induction hits generalizing walk with
  | nil => exact ⟨walk,rfl,rfl,rfl⟩
  | cons hit rest ih =>
    have here := found hit mem_cons_self
    obtain ⟨next,executed⟩ : ∃ next, writeHit args walk hit = some next := by
      rw [← isSome_iff_exists,writeHit]
      split
      · simpa [Walk.writeHitRope] using here
      · simpa [Walk.writeHitStandard] using here
    obtain ⟨cursor,same⟩ := writeHit_frame executed
    obtain ⟨final,later,finalPools,finalLast⟩ := ih next fun other member =>
      (congrArg Req.picSegmentEntries same).trans rfl ▸ found other (mem_cons_of_mem _ member)
    refine ⟨final,?_,finalPools.trans (congrArg Cursor.pools cursor :),finalLast.trans same.lastSeg⟩
    rw [foldlM_cons,executed]
    exact later

theorem allocReq_capacity {req : Req Hash} (matched : Matched args req) (cursor : Cursor Hash) :
    ((allocReq args cursor req).isSome ↔ mambaMisses args req ≤ mambaCapacity cursor.pools) ∧
    ∀ walk, allocReq args cursor req = some walk → mambaCapacity walk.pools + mambaMisses args req = mambaCapacity cursor.pools := by
  obtain ⟨sameCursor,same⟩ := startWalk_frame args cursor req
  obtain ⟨hitsDone,hitsRun,pools,last⟩ := hits_succeed req.picHitSegments (startWalk args cursor req) fun hit member => by
    obtain ⟨-,-,entry,present,-⟩ := matched.found hit.1 hit.2 member
    rw [(congrArg Req.picSegmentEntries same).trans rfl,present]
    rfl
  have spec := misses_capacity args req.picMissSegments hitsDone
  rw [last,pools,same.lastSeg,sameCursor] at spec
  rw [allocReq_eq,hitsRun]
  exact spec

theorem allocReqs_capacity (reqs : List (Req Hash)) (matched : ∀ req ∈ reqs, Matched args req) (cursor : Cursor Hash) :
    (allocReqs (allocReq args) reqs cursor).isSome ↔ (reqs.map (mambaMisses args)).sum ≤ mambaCapacity cursor.pools := by
  induction reqs generalizing cursor with
  | nil => simp [allocReqs]
  | cons req rest ih =>
    obtain ⟨possible,left⟩ := allocReq_capacity (matched req mem_cons_self) cursor
    rw [allocReqs,map_cons,sum_cons]
    cases executed : allocReq args cursor req with
    | none =>
      rw [executed] at possible
      simp only [isSome_none,false_eq_true,false_iff,Nat.not_le] at possible
      simp only [Option.bind_none,isSome_none,false_eq_true,false_iff,Nat.not_le]
      omega
    | some walk =>
      have used := left walk executed
      simp only [bind_some,isSome_map]
      rw [ih (forall_mem_cons.mp matched).2 walk.toCursor]
      omega

private theorem assignMamba_isSome (reqs : List (Req Hash)) (mamba : MambaSlotAllocator)
    (fresh : ∀ req ∈ reqs, req.mambaPoolIdx = none) :
    ((assignMamba reqs mamba).isSome ↔ reqs.length ≤ mamba.freeSlots.length) ∧
      ∀ done after, assignMamba reqs mamba = some (done,after) → after.freeSlots.length + reqs.length = mamba.freeSlots.length := by
  induction reqs generalizing mamba with
  | nil =>
    refine ⟨by simp [assignMamba],fun done after executed => ?_⟩
    simp only [assignMamba,Option.some.injEq,Prod.mk.injEq] at executed
    simp [executed.2]
  | cons req rest ih =>
    have unset := fresh req mem_cons_self
    simp only [assignMamba,unset]
    cases free : mamba.freeSlots with
    | nil => simp [MambaSlotAllocator.allocOne_nil _ free]
    | cons slot slots =>
      obtain ⟨possible,used⟩ := ih ⟨slots⟩ (forall_mem_cons.mp fresh).2
      rw [MambaSlotAllocator.allocOne_cons _ free]
      simp only [bind_some,isSome_map,length_cons]
      refine ⟨by rw [possible]; exact Nat.succ_le_succ_iff.symm,fun done after executed => ?_⟩
      obtain ⟨⟨later,last⟩,laterRun,same⟩ := map_eq_some_iff.mp executed
      simp only [Prod.mk.injEq] at same
      have := used later last laterRun
      rw [← same.2]
      simp only at this
      omega

theorem allocReqSlots_capacity (pools : Pools Hash) (reqs : List (Req Hash)) (fresh : ∀ req ∈ reqs, Unallocated req) :
    ((allocReqSlots pools reqs).isSome ↔ reqs.length ≤ pools.reqSlots.length ∧ reqs.length ≤ mambaCapacity pools) ∧
      ∀ done after, allocReqSlots pools reqs = some (done,after) →
        mambaCapacity after + reqs.length = mambaCapacity pools ∧ kvCapacity after = kvCapacity pools := by
  obtain ⟨kvCap,mambaCap,rows,enough⟩ := reserveMamba_capacity pools reqs.length
  have unused : (reqs.any fun req => req.reqPoolIdx.isSome ∧ req.kvCommittedLen = 0) = false := by
    rw [any_eq_false]
    intro req member
    simp [(fresh req member).row]
  have all : (reqs.filter fun req => req.reqPoolIdx.isNone) = reqs :=
    filter_eq_self.mpr fun req member => by simp [(fresh req member).row]
  unfold allocReqSlots allocRows
  simp only [unused,false_eq_true,if_false,all,rows]
  by_cases short : pools.reqSlots.length < reqs.length
  · simp only [short,if_true,Option.bind_none]
    refine ⟨?_,fun done after executed => by cases executed⟩
    simp only [isSome_none,false_eq_true,false_iff,not_and]
    omega
  · simp only [short,if_false,bind_some,isSome_map]
    have assigned := assignRows_spec reqs pools.reqSlots fresh (by omega)
    have length : (assignRows reqs pools.reqSlots).length = reqs.length := assigned.length_eq.symm
    have unset : ∀ req ∈ assignRows reqs pools.reqSlots, req.mambaPoolIdx = none := by
      intro req member
      obtain ⟨before,inside,row,rfl⟩ := exists_left assigned member
      exact (fresh before inside).state
    obtain ⟨possible,used⟩ := assignMamba_isSome (assignRows reqs pools.reqSlots) (reserveMamba pools reqs.length).mamba unset
    rw [length] at possible used
    refine ⟨?_,fun done after executed => ?_⟩
    · rw [possible]
      have available : (reserveMamba pools reqs.length).mamba.availableSize =
        (reserveMamba pools reqs.length).mamba.freeSlots.length := rfl
      rw [← available,enough]
      exact ⟨fun both => ⟨by omega,both⟩,fun both => both.2⟩
    · obtain ⟨⟨given,mamba⟩,mambaRun,same⟩ := map_eq_some_iff.mp executed
      cases same
      have left := used given mamba mambaRun
      refine ⟨?_,kvCap⟩
      rw [← mambaCap]
      simp only [mambaCapacity,MambaSlotAllocator.availableSize]
      omega

/-- Every token a request will forward is one of a miss or a seam token of a hit. -/
structure Positioned (req : Req Hash) : Prop where
  seams : SeamsInside req
  positions : ∀ pos ∈ req.picMissTokenPositions, (∃ seg ∈ req.picMissSegments, seg.1 ≤ pos ∧ pos < seg.2) ∨
    ∃ hit ∈ req.picHitSegments, pos ∈ (req.picHitSeamPositions.get? hit.1).getD []

theorem slotsAtPositions_rows {reqs : List (Req Hash)} {walks : List (Walk Hash)} (rope : args.rope = true)
    (positioned : ∀ req ∈ reqs, Positioned req) (frames : Forall₂ (Allocated args) reqs (walks.map Walk.req))
    (placed : Forall₂ (Placed args) reqs walks) : slotsAtPositions walks =
      some ((walks.map Walk.req).flatMap fun req => req.picMissTokenPositions.map req.reqToToken) := by
  have each : ∀ walk ∈ walks, walk.req.picMissTokenPositions.mapM walk.slotAtPos =
      some (walk.req.picMissTokenPositions.map walk.req.reqToToken) := by
    induction walks generalizing reqs with
    | nil => intro walk member; cases member
    | cons walk rest ih =>
      obtain _ | ⟨here,placed⟩ := placed
      obtain _ | ⟨allocated,frames⟩ := frames
      rename_i req reqs
      intro other member
      rcases mem_cons.mp member with rfl | later
      · have known := positioned req mem_cons_self
        refine Related.mapM_map fun pos listed => ?_
        rw [(congrArg Req.picMissTokenPositions allocated.frame).trans rfl] at listed
        exact here rope known.seams pos (known.positions pos listed)
      · exact ih (forall_mem_cons.mp positioned).2 frames placed other later
  rw [slotsAtPositions,Related.mapM_map each]
  simp [List.flatMap,map_map,comp_def]

/-- A prefill batch succeeds exactly when rows, states and KV slots can be had, free or by eviction. -/
theorem picAllocForExtend_isSome (pools : Pools Hash) (reqs : List (Req Hash))
    (ready : ∀ req ∈ reqs, Matched args req ∧ Unallocated req) (positioned : args.recompute = true → ∀ req ∈ reqs, Positioned req) :
    (picAllocForExtend args pools reqs).isSome ↔ reqs.length ≤ pools.reqSlots.length ∧
      reqs.length + (reqs.map (mambaMisses args)).sum ≤ mambaCapacity pools ∧ kvNeed args reqs ≤ kvCapacity pools := by
  obtain ⟨rowsPossible,rowsUsed⟩ := allocReqSlots_capacity pools reqs fun req member => (ready req member).2
  cases rowRun : allocReqSlots pools reqs with
  | none =>
    rw [rowRun] at rowsPossible
    have failed : picAllocForExtend args pools reqs = none := by
      unfold picAllocForExtend picAllocTransitionRope picAllocStandard
      simp [rowRun]
    simp only [isSome_none,false_eq_true,false_iff] at rowsPossible
    simp only [failed,isSome_none,false_eq_true,false_iff]
    rintro ⟨rows,states,-⟩
    exact rowsPossible ⟨rows,by omega⟩
  | some pair =>
    obtain ⟨done,slotted⟩ := pair
    rw [rowRun] at rowsPossible
    have rows := rowsPossible.mp rfl
    obtain ⟨states,kvSame⟩ := rowsUsed done slotted rowRun
    obtain ⟨assigned,-,-⟩ := allocReqSlots_spec (fun req member => (ready req member).2) rowRun
    have doneReady := assigned_ready assigned ready
    have donePositioned : args.recompute = true → ∀ req ∈ done, Positioned req := by
      intro recompute req member
      obtain ⟨before,inside,row,slot,rfl⟩ := exists_left assigned member
      have known := positioned recompute before inside
      exact ⟨known.seams,known.positions⟩
    have misses := assigned_sum assigned (mambaMisses args) fun _ _ _ => rfl
    have need : kvNeed args done = kvNeed args reqs := kvNeed_assigned assigned
    have kvPossible := allocTokenSlots_isSome slotted (kvNeed args done)
    rw [need,kvSame] at kvPossible
    have target : (reqs.length ≤ pools.reqSlots.length ∧ reqs.length + (reqs.map (mambaMisses args)).sum ≤ mambaCapacity pools ∧
        kvNeed args reqs ≤ kvCapacity pools) ↔
          (slotted.allocTokenSlots (kvNeed args reqs)).isSome ∧ (done.map (mambaMisses args)).sum ≤ mambaCapacity slotted := by
      rw [kvPossible,misses]
      constructor
      · rintro ⟨-,all,kv⟩; exact ⟨kv,by omega⟩
      · rintro ⟨kv,all⟩; exact ⟨rows.1,by omega,kv⟩
    rw [target]
    unfold picAllocForExtend
    by_cases rope : args.rope = true
    · have body : (allocReqRope : Cursor Hash → Req Hash → Option (Walk Hash)) = allocReq args := by
        funext cursor req; simp [allocReq,rope]
      have total : (done.map missTokens).sum + (done.map localMissTokens).sum + (done.map hitTokens).sum = kvNeed args reqs := by
        rw [← need,kvNeed,if_pos rope]
      rw [if_pos rope,picAllocTransitionRope,rowRun]
      simp only [bind_some,total,body]
      cases kvRun : slotted.allocTokenSlots (kvNeed args reqs) with
      | none => simp
      | some pair =>
        obtain ⟨slots,funded⟩ := pair
        obtain ⟨-,mambaSame⟩ := allocTokenSlots_capacity kvRun
        obtain ⟨length,-⟩ := Pools.allocTokenSlots_spec kvRun
        have left := left_rope rope (length.trans total.symm) funded
        have walkable := allocReqs_capacity done (fun req member => (doneReady req member).1)
          ⟨slots.take (done.map missTokens).sum,(slots.drop (done.map missTokens).sum).take (done.map localMissTokens).sum,
            slots.drop ((done.map missTokens).sum + (done.map localMissTokens).sum),funded,0⟩
        simp only [mambaSame] at walkable
        simp only [bind_some,isSome_some,true_and]
        rw [← walkable]
        cases walked : allocReqs (allocReq args) done ⟨slots.take (done.map missTokens).sum,
            (slots.drop (done.map missTokens).sum).take (done.map localMissTokens).sum,
            slots.drop ((done.map missTokens).sum + (done.map localMissTokens).sum),funded,0⟩ with
        | none => simp
        | some result =>
          obtain ⟨walks,last⟩ := result
          obtain ⟨frames,-,-,-,placed,-⟩ := allocReqs_served doneReady left walked
          simp only [bind_some,isSome_map,isSome_some,iff_true]
          split
          · rename_i recompute
            rw [slotsAtPositions_rows rope (donePositioned recompute) frames placed]
            rfl
          · rfl
    · have body : (allocReqStandard args : Cursor Hash → Req Hash → Option (Walk Hash)) = allocReq args := by
        funext cursor req; simp [allocReq,rope]
      have total : (done.map missTokens).sum = kvNeed args reqs := by rw [← need,kvNeed,if_neg rope]
      rw [if_neg rope,picAllocStandard,rowRun]
      simp only [bind_some,total,body]
      cases kvRun : slotted.allocTokenSlots (kvNeed args reqs) with
      | none => simp
      | some pair =>
        obtain ⟨slots,funded⟩ := pair
        obtain ⟨-,mambaSame⟩ := allocTokenSlots_capacity kvRun
        have walkable := allocReqs_capacity done (fun req member => (doneReady req member).1) ⟨slots,[],[],funded,0⟩
        simp only [mambaSame] at walkable
        simp only [bind_some,isSome_map,isSome_some,true_and]
        exact walkable
end Batch

/-! ### The order and the extent of an eviction -/

section Order
open Pools

def evictedTokens (entries : List (SegmentEntry Hash)) : Nat := (entries.map fun entry => entry.fullKvSlots.length).sum

/-- Both needs are met once these entries are gone. -/
def NeedsMet (needTokens needMamba : Nat) (done : EvictResult) (removed : List (SegmentEntry Hash)) : Prop :=
  needTokens ≤ done.numTokensEvicted + evictedTokens removed ∧ needMamba ≤ done.mambaNumEvicted + removed.length

/-- The loop removes entries from the front and stops at the first point where both needs are met. -/
theorem evictLoop_front (needTokens needMamba : Nat) (entries : List (SegmentEntry Hash)) (done : EvictResult)
    (pools : Pools Hash) :
    ∃ removed kept, entries = removed ++ kept ∧ (kept = [] ∨ NeedsMet needTokens needMamba done removed) ∧
      (∀ front back, removed = front ++ back → back ≠ [] → ¬ NeedsMet needTokens needMamba done front) ∧
      evictLoop needTokens needMamba entries done pools =
        (⟨done.numTokensEvicted + evictedTokens removed,done.mambaNumEvicted + removed.length⟩,
          removed.foldl evictEntry pools) := by
  induction entries generalizing done pools with
  | nil => exact ⟨[],[],rfl,.inl rfl,by simp,rfl⟩
  | cons entry rest ih =>
    rw [evictLoop]
    by_cases met : needTokens ≤ done.numTokensEvicted ∧ needMamba ≤ done.mambaNumEvicted
    · exact ⟨[],entry::rest,rfl,.inr met,by simp,if_pos met⟩
    · obtain ⟨removed,kept,rfl,stop,minimal,same⟩ :=
        ih ⟨done.numTokensEvicted + entry.fullKvSlots.length,done.mambaNumEvicted + 1⟩ (pools.evictEntry entry)
      have shift : ∀ front : List (SegmentEntry Hash), NeedsMet needTokens needMamba done (entry::front) ↔
          NeedsMet needTokens needMamba ⟨done.numTokensEvicted + entry.fullKvSlots.length,done.mambaNumEvicted + 1⟩ front := by
        intro front
        simp only [NeedsMet,evictedTokens,map_cons,sum_cons,length_cons,Nat.add_assoc,Nat.add_comm 1]
      refine ⟨entry::removed,kept,rfl,stop.imp_right (shift removed).mpr,fun front back split some => ?_,?_⟩
      · cases front with
        | nil => exact met
        | cons first front =>
          obtain ⟨rfl,later⟩ := List.cons.inj split
          exact fun all => minimal front back later some ((shift front).mp all)
      · rw [if_neg met,same]
        simp only [evictedTokens,map_cons,sum_cons,length_cons,foldl_cons,Nat.add_assoc,Nat.add_comm 1]

theorem removed_effect (removed : List (SegmentEntry Hash)) (pools : Pools Hash) :
    let after := removed.foldl evictEntry pools
    (after.kv.slots : Multiset Slot) = (removed.flatMap SegmentEntry.fullKvSlots : Multiset Slot) + pools.kv.slots ∧
      (after.mamba.freeSlots : Multiset Slot) =
        (removed.map SegmentEntry.mambaStateSlot : Multiset Slot) + pools.mamba.freeSlots ∧
      after.cache.counters = pools.cache.counters ∧
      ∀ key, after.cache.entries.get? key =
        if key ∈ removed.map SegmentEntry.segHash then none else pools.cache.entries.get? key := by
  induction removed generalizing pools with
  | nil => simp
  | cons entry rest ih =>
    obtain ⟨kv,mamba,counters,entries⟩ := ih (pools.evictEntry entry)
    rw [foldl_cons]
    refine ⟨?_,?_,counters,fun key => ?_⟩
    · rw [kv,show (pools.evictEntry entry).kv = pools.kv.free entry.fullKvSlots from rfl,
        TokenToKVPoolAllocator.slots_free,flatMap_cons,← coe_add]
      abel
    · rw [mamba,show (pools.evictEntry entry).mamba = pools.mamba.free [entry.mambaStateSlot] from rfl,
        MambaSlotAllocator.freeSlots_free,Multiset.coe_singleton,map_cons,← cons_coe,
        ← Multiset.singleton_add]
      abel
    · rw [entries,show (pools.evictEntry entry).cache.entries = pools.cache.entries.erase entry.segHash from rfl,Dict.get?_erase]
      by_cases same : key = entry.segHash
      · simp [same]
      · simp [same]

/-- Eviction is least recently used first, minimal and exact, and the allocations that rest on it fail only when
    nothing they could reclaim is left. -/
theorem evict_minimal_lru (pools : Pools Hash) (numTokens mambaNum : Nat) :
    (∃ removed kept, pools.candidates = removed ++ kept ∧ pools.candidates.Perm pools.cache.unlocked ∧
      pools.candidates.Pairwise (fun left right =>
        (pools.cache.counters left).lastAccessTime ≤ (pools.cache.counters right).lastAccessTime) ∧
      (kept = [] ∨ NeedsMet numTokens mambaNum ⟨0,0⟩ removed) ∧
      (∀ front back, removed = front ++ back → back ≠ [] → ¬ NeedsMet numTokens mambaNum ⟨0,0⟩ front) ∧
      (pools.evict numTokens mambaNum).1 = ⟨evictedTokens removed,removed.length⟩ ∧
      let after := (pools.evict numTokens mambaNum).2
      (after.kv.slots : Multiset Slot) = (removed.flatMap SegmentEntry.fullKvSlots : Multiset Slot) + pools.kv.slots ∧
      (after.mamba.freeSlots : Multiset Slot) =
        (removed.map SegmentEntry.mambaStateSlot : Multiset Slot) + pools.mamba.freeSlots ∧
      after.cache.counters = pools.cache.counters ∧
      (∀ key, after.cache.entries.get? key =
        if key ∈ removed.map SegmentEntry.segHash then none else pools.cache.entries.get? key) ∧
      ∀ key entry, pools.cache.entries.get? key = some entry → 0 < pools.cache.lockRef entry →
        after.cache.entries.get? key = some entry) ∧
    (∀ n, pools.allocTokenSlots n = none ↔ pools.kv.availableSize + pools.cache.evictableSize < n) ∧
    (pools.allocOneMamba = none ↔ pools.mamba.freeSlots = [] ∧ pools.cache.unlocked = []) := by
  have locked := (pools.evict_evicts numTokens mambaNum).1.locked
  refine ⟨?_,fun n => ?_,?_⟩
  · have sorted := pairwise_insertionSort (fun left right : SegmentEntry Hash =>
      (pools.cache.counters left).lastAccessTime ≤ (pools.cache.counters right).lastAccessTime) pools.cache.unlocked
    obtain ⟨removed,kept,split,stop,minimal,same⟩ : ∃ removed kept, pools.candidates = removed ++ kept ∧
        (kept = [] ∨ NeedsMet numTokens mambaNum ⟨0,0⟩ removed) ∧
        (∀ front back, removed = front ++ back → back ≠ [] → ¬ NeedsMet numTokens mambaNum ⟨0,0⟩ front) ∧
        pools.evict numTokens mambaNum = (⟨evictedTokens removed,removed.length⟩,removed.foldl evictEntry pools) := by
      rw [evict]
      split
      · rename_i nothing
        refine ⟨[],pools.candidates,rfl,.inr ?_,by simp,rfl⟩
        simp [NeedsMet,nothing]
      · simpa using evictLoop_front numTokens mambaNum pools.candidates ⟨0,0⟩ pools
    rw [same] at locked ⊢
    obtain ⟨kv,mamba,counters,entries⟩ := removed_effect removed pools
    exact ⟨removed,kept,split,perm_insertionSort ..,sorted,stop,minimal,rfl,kv,mamba,counters,entries,locked⟩
  · have some := allocTokenSlots_isSome pools n
    rw [← not_isSome_iff_eq_none,some,kvCapacity]
    omega
  · have some := allocOneMamba_isSome pools
    rw [← not_isSome_iff_eq_none,some,mambaCapacity,MambaSlotAllocator.availableSize,PICache.mambaEvictableSize,
      ← length_eq_zero_iff,← length_eq_zero_iff]
    omega
end Order

end Hypic.Capacity
