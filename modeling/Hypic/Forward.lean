import Hypic.Custody
import Hypic.Ragged
import Hypic.Affine
import Mathlib.Data.List.Pairwise

/-! The forward batch: the slots a linear layer reads and writes for each segment, and the tokens it
    is given. Allocation makes the slots of different segments and requests different. -/

namespace Hypic.Forward
open Policy Allocator Cache Request Alloc Custody List Dict
universe u v w x
variable {Hash : Type u} [DecidableEq Hash]

/-- `pic_hit_mamba_slots[req]`: the state slots of the entries the request refers to. -/
def picHitMambaSlots (req : Req Hash) : Dict Hash Slot := req.picSegmentEntries.filterMap fun entry => some entry.mambaStateSlot

/-- `pic_miss_mamba_slots[req]`: misses without a state slot are left out. -/
def picMissMambaSlots (req : Req Hash) : Dict Seg Slot := req.picMissSegmentSlots.filterMap MissSlots.mamba

/-- `mamba_cache_indices[req]`: where the request's own state goes. -/
def mambaCacheIndex (req : Req Hash) : Slot := req.mambaPoolIdx.getD 0

/-- What a linear layer makes of one token: a step of its recurrence and the input of its convolution. -/
structure Cell (T : Type v) (S : Type w) (X : Type x) extends Affine.Step T S where
  raw : X

/-- The state buffers of one layer, by mamba slot. -/
@[ext] structure LayerCache (T : Type v) (S : Type w) (X : Type x) where
  temporal : Slot → S
  transition : Slot → T
  convTails : Slot → List X

section Tokens
variable {α : Type v} (inputs : Req Hash → Nat → α)

/-- The layer's inputs in the order of `input_ids`. -/
def packed (batch : List (Req Hash)) : List α := batch.flatMap fun req => req.picMissTokenPositions.map (inputs req)

def segTokens (req : Req Hash) (seg : Seg) : List α := (List.range' seg.1 (seg.2 - seg.1)).map (inputs req)

/-- The slots of a request's hits hold their segments. -/
abbrev HitsHold (holds : Slot → List α → Prop) (req : Req Hash) : Prop :=
  ∀ hit ∈ req.picHitSegments, ∀ slot, (picHitMambaSlots req).get? hit.2 = some slot → holds slot (segTokens inputs req hit.1)

/-- The inputs of the prompt before a position. -/
def prefixTokens (req : Req Hash) (stop : Nat) : List α := (List.range stop).map (inputs req)

def promptTokens (req : Req Hash) : List α := prefixTokens inputs req req.originInputIds.length

@[simp] theorem segTokens_length (req : Req Hash) (seg : Seg) : (segTokens inputs req seg).length = seg.2 - seg.1 := by
  simp [segTokens]

private theorem flatMap_range {start stop : Nat} {segs : List Seg} (consecutive : Consecutive start segs stop) :
    (segs.flatMap fun seg => List.range' seg.1 (seg.2 - seg.1)) = List.range' start (stop - start) := by
  induction segs generalizing start with
  | nil =>
    obtain rfl : start = stop := consecutive
    simp
  | cons seg rest ih =>
    obtain ⟨rfl,positive,later⟩ := consecutive
    have bound := later.le
    have join := List.range'_append_1 (s := seg.1) (m := seg.2 - seg.1) (n := stop - seg.2)
    rw [show seg.1 + (seg.2 - seg.1) = seg.2 by omega,show seg.2 - seg.1 + (stop - seg.2) = stop - seg.1 by omega] at join
    rw [flatMap_cons,ih later,join]

theorem segTokens_flatten (req : Req Hash) {segs : List Seg} {stop : Nat} (consecutive : Consecutive 0 segs stop) :
    (segs.map (segTokens inputs req)).flatten = prefixTokens inputs req stop := by
  have ranges := congrArg (List.map (inputs req)) (flatMap_range consecutive)
  rw [← range_eq_range',map_flatMap] at ranges
  exact ranges
theorem prefixTokens_seg (req : Req Hash) {seg : Seg} (positive : seg.1 < seg.2) :
    prefixTokens inputs req seg.1 ++ segTokens inputs req seg = prefixTokens inputs req seg.2 := by
  have join := List.range'_append_1 (s := 0) (m := seg.1) (n := seg.2 - seg.1)
  rw [Nat.zero_add,show seg.1 + (seg.2 - seg.1) = seg.2 by omega] at join
  simp only [prefixTokens,segTokens,range_eq_range',← map_append,join]

/-- The miss segments of a batch in the order of their rows. -/
def missRows (batch : List (Req Hash)) : List (Req Hash × Seg) := batch.flatMap fun req => req.picMissSegments.map fun seg => (req,seg)

theorem mem_missRows {batch : List (Req Hash)} {req : Req Hash} {seg : Seg} :
    (req,seg) ∈ missRows batch ↔ req ∈ batch ∧ seg ∈ req.picMissSegments := by
  simp only [missRows,mem_flatMap,mem_map,Prod.mk.injEq]
  constructor
  · rintro ⟨other,member,listed,inside,rfl,rfl⟩
    exact ⟨member,inside⟩
  · rintro ⟨member,inside⟩
    exact ⟨req,member,seg,inside,rfl,rfl⟩

theorem packed_rows {batch : List (Req Hash)}
    (positions : ∀ req ∈ batch, req.picMissTokenPositions = req.picMissSegments.flatMap fun seg => List.range' seg.1 (seg.2 - seg.1)) :
    packed inputs batch = ((missRows batch).map fun row => segTokens inputs row.1 row.2).flatten := by
  induction batch with
  | nil => rfl
  | cons req rest ih =>
    have later := ih (forall_mem_cons.mp positions).2
    simp only [packed,missRows,flatMap_cons,map_append,flatten_append] at later ⊢
    rw [later,positions req mem_cons_self,map_flatMap,map_map]
    rfl
end Tokens

section Order
theorem insertionSort_starts {α : Type v} (seg : α → Seg) (items : List α) {segs : List Seg}
    (same : (items.map seg).Perm segs) (increasing : segs.Pairwise fun left right => left.1 < right.1) :
    (items.insertionSort fun left right => (seg left).1 ≤ (seg right).1).map seg = segs := by
  have sorted : ((items.insertionSort fun left right => (seg left).1 ≤ (seg right).1).map seg).Pairwise fun left right => left.1 ≤ right.1 :=
    pairwise_map.mpr (pairwise_insertionSort _ items)
  have perm : ((items.insertionSort fun left right => (seg left).1 ≤ (seg right).1).map seg).Perm segs :=
    ((perm_insertionSort _ items).map seg).trans same
  refine perm.eq_of_pairwise ?_ sorted (increasing.imp Nat.le_of_lt)
  intro left right leftMember rightMember le ge
  have starts : (segs.map Prod.fst).Nodup := pairwise_map.mpr (increasing.imp Nat.ne_of_lt)
  exact inj_on_of_nodup_map starts (perm.subset leftMember) rightMember (Nat.le_antisymm le ge)

variable {req : Req Hash}

section
variable (partition : Partitioned req)
include partition

theorem partition_perm :
    (req.picHitSegments.map Prod.fst ++ req.picMissSegments).Perm req.picSegments := by
  have distinct := partition.consecutive.nodup
  refine (perm_ext_iff_of_nodup ?_ distinct).mpr fun seg => ?_
  · rw [nodup_append']
    exact ⟨distinct.sublist partition.hits,distinct.sublist partition.misses,fun seg hit miss => partition.exclusive seg miss hit⟩
  · rw [mem_append]
    constructor
    · rintro (hit | miss)
      · exact partition.hits.subset hit
      · exact partition.misses.subset miss
    · intro member
      exact (partition.cover seg member).symm

theorem lastMiss : req.picMissSegments.getLast? = req.lastSeg := by
  cases last : req.lastSeg with
  | none =>
    have nothing := getLast?_eq_none_iff.mp last
    have := partition.misses
    rw [nothing,sublist_nil] at this
    rw [this]
    rfl
  | some seg =>
    obtain ⟨front,split⟩ := getLast?_eq_some_iff.mp last
    have once := partition.consecutive.nodup
    have inside := partition.last seg last
    have sub := partition.misses
    rw [split] at once sub
    obtain ⟨left,right,same,inFront,atEnd⟩ := sublist_append_iff.mp sub
    rw [same] at inside ⊢
    rcases sublist_singleton.mp atEnd with rfl | rfl
    · rw [append_nil] at inside
      exact absurd (inFront.subset inside) fun early =>
        (disjoint_of_nodup_append once) early (mem_singleton.mpr rfl)
    · exact getLast?_concat ..

theorem inner_miss {index : Nat} {seg : Seg}
    (listed : req.picMissSegments[index]? = some seg) :
    index + 1 < req.picMissSegments.length ↔ some seg ≠ req.lastSeg := by
  have once : req.picMissSegments.Nodup := partition.misses.nodup partition.consecutive.nodup
  obtain ⟨bound,rfl⟩ := List.getElem?_eq_some_iff.mp listed
  rw [← lastMiss partition,getLast?_eq_getElem?,← listed,Ne]
  constructor
  · intro early same
    have := (getElem?_inj bound once).mp same
    omega
  · intro other
    by_contra late
    exact other (congrArg (req.picMissSegments[·]?) (by omega))

/-- Hits, with their hash, and misses merged by start. -/
def ordered (req : Req Hash) : List (Seg × Option Hash) :=
  ((req.picHitSegments.map fun hit : Seg × Hash => (hit.1,some hit.2)) ++ req.picMissSegments.map fun seg => (seg,none)).insertionSort
    fun left right => left.1.1 ≤ right.1.1

theorem ordered_segs : (ordered req).map Prod.fst = req.picSegments := by
  refine insertionSort_starts Prod.fst _ ?_ partition.consecutive.increasing
  rw [map_append,map_map,map_map]
  exact (List.Perm.of_eq (congrArg₂ _ rfl (map_id _))).trans (partition_perm partition)

end

private theorem mem_ordered {item : Seg × Option Hash} : item ∈ ordered req ↔
    (∃ hit ∈ req.picHitSegments, (hit.1,some hit.2) = item) ∨ ∃ seg ∈ req.picMissSegments, (seg,none) = item := by
  rw [ordered,(perm_insertionSort ..).mem_iff,mem_append,mem_map,mem_map]

@[simp] theorem mem_ordered_hit {seg : Seg} {segHash : Hash} :
    (seg,some segHash) ∈ ordered req ↔ (seg,segHash) ∈ req.picHitSegments := by
  simp [mem_ordered]

@[simp] theorem mem_ordered_miss {seg : Seg} : (seg,none) ∈ ordered req ↔ seg ∈ req.picMissSegments := by
  simp [mem_ordered]
end Order

/-- State slots that the request's forward pass writes. -/
def ownSlots (req : Req Hash) : List Slot := (picMissMambaSlots req).values ++ [mambaCacheIndex req]

/-- Seams are the first tokens of hits behind the first segment and leave at least one token of the hit. -/
def Seamed (req : Req Hash) : Prop :=
  ∀ seg positions, req.picHitSeamPositions.get? seg = some positions → seg ∈ req.picHitSegments.map Prod.fst ∧
    req.picSegments.head? ≠ some seg ∧ ∃ width, positions = List.range' seg.1 width ∧ 0 < width ∧ width < seg.2 - seg.1

/-- A request as it enters a forward pass: matched, with slots for its misses. -/
structure Loaded (args : ServerArgs Hash) (req : Req Hash) : Prop where
  matched : Matched args req
  misses : ∀ seg, seg ∈ req.picMissSegments ↔ (req.picMissSegmentSlots.get? seg).isSome
  states : ∀ seg miss, req.picMissSegmentSlots.get? seg = some miss →
    (miss.mamba = none ↔ args.rope = false ∧ some seg ≠ req.lastSeg ∧ args.short seg = true)
  positions : req.picMissTokenPositions = missTokenPositions req.picMissSegments req.picHitSeamPositions
  seams : args.recompute = false → req.picHitSeamPositions = .empty
  seamed : Seamed req

theorem Loaded.increasing {args : ServerArgs Hash} (loaded : Loaded args req) : req.picMissSegments.Pairwise fun left right => left.1 < right.1 :=
  loaded.matched.consecutive.increasing.sublist loaded.matched.misses

abbrev AllLoaded (args : ServerArgs Hash) (batch : List (Req Hash)) : Prop := ∀ req ∈ batch, Loaded args req

/-- No two segments of the batch share a state slot to write, and none of these is read as a hit. -/
structure Laid (batch : List (Req Hash)) : Prop where
  own : (batch.flatMap ownSlots).Nodup
  apart : ∀ req ∈ batch, ∀ slot ∈ (picHitMambaSlots req).values, slot ∉ batch.flatMap ownSlots

/-- The state slots of the batch's misses, by row. -/
def missSlots (batch : List (Req Hash)) : List Slot := (missRows batch).filterMap fun row => (picMissMambaSlots row.1).get? row.2

private theorem missSlots_eq (batch : List (Req Hash)) :
    missSlots batch = batch.flatMap fun req => req.picMissSegments.filterMap (picMissMambaSlots req).get? := by
  simp only [missSlots,missRows,filterMap_flatMap,filterMap_map]
  rfl

private theorem lookup_subset (req : Req Hash) : req.picMissSegments.filterMap (picMissMambaSlots req).get? ⊆ ownSlots req := by
  intro slot member
  obtain ⟨seg,-,found⟩ := mem_filterMap.mp member
  exact mem_append_left _ (mem_values_of_get? found)

variable {batch : List (Req Hash)}

theorem Laid.missSlots_nodup (laid : Laid batch) (distinct : ∀ req ∈ batch, req.picMissSegments.Nodup) :
    (missSlots batch).Nodup := by
  obtain ⟨each,apart⟩ := nodup_flatMap.mp laid.own
  rw [missSlots_eq,nodup_flatMap]
  refine ⟨fun req member => ?_,apart.imp fun disjoint slot left right => ?_⟩
  · exact lookup_nodup (nodup_append.mp (each req member)).1 (distinct req member)
  · exact disjoint (lookup_subset _ left) (lookup_subset _ right)

theorem missSlots_subset (batch : List (Req Hash)) : missSlots batch ⊆ batch.flatMap ownSlots := by
  intro slot member
  rw [missSlots_eq,mem_flatMap] at member
  obtain ⟨req,inside,found⟩ := member
  exact mem_flatMap.mpr ⟨req,inside,lookup_subset req found⟩

theorem Laid.indices_nodup (laid : Laid batch) : (batch.map mambaCacheIndex).Nodup := by
  obtain ⟨-,apart⟩ := nodup_flatMap.mp laid.own
  refine pairwise_map.mpr (apart.imp fun disjoint same => ?_)
  exact disjoint (mem_append_right _ (mem_singleton.mpr rfl)) (same ▸ mem_append_right _ (mem_singleton.mpr rfl))

variable {slot : Slot}

private theorem own_state {req : Req Hash} {seg : Seg} (found : (picMissMambaSlots req).get? seg = some slot) :
    slot ∈ ownSlots req := mem_append_left _ (mem_values_of_get? found)

private theorem own_index (req : Req Hash) : mambaCacheIndex req ∈ ownSlots req := mem_append_right _ (mem_singleton.mpr rfl)

section
variable (laid : Laid batch) {req other : Req Hash} (member : req ∈ batch) (otherMember : other ∈ batch)
include laid member otherMember

private theorem Laid.same (mine : slot ∈ ownSlots req) (theirs : slot ∈ ownSlots other) : req = other := by
  by_contra differ
  obtain ⟨-,apart⟩ := nodup_flatMap.mp laid.own
  have : Std.Symm (Function.onFun List.Disjoint (ownSlots : Req Hash → List Slot)) := ⟨fun _ _ disjoint => disjoint.symm⟩
  exact apart.forall member otherMember differ mine theirs

theorem Laid.owner {seg otherSeg : Seg} (found : (picMissMambaSlots req).get? seg = some slot)
    (otherFound : (picMissMambaSlots other).get? otherSeg = some slot) : req = other ∧ seg = otherSeg := by
  obtain rfl := laid.same member otherMember (own_state found) (own_state otherFound)
  refine ⟨rfl,?_⟩
  have once := (nodup_append.mp ((nodup_flatMap.mp laid.own).1 req member)).1
  exact congrArg Prod.fst (inj_on_of_nodup_map once ((get?_eq_some ..).mp found) ((get?_eq_some ..).mp otherFound) rfl)

end

theorem Laid.notIndex (laid : Laid batch) {req : Req Hash} (member : req ∈ batch) {seg : Seg}
    (found : (picMissMambaSlots req).get? seg = some slot) : slot ∉ batch.map mambaCacheIndex := by
  intro index
  obtain ⟨other,otherMember,rfl⟩ := mem_map.mp index
  obtain rfl := laid.same member otherMember (own_state found) (own_index other)
  have disjoint := (nodup_append'.mp ((nodup_flatMap.mp laid.own).1 req member)).2.2
  exact disjoint (mem_values_of_get? found) (mem_singleton.mpr rfl)

theorem Laid.flatMap_nodup (laid : Laid batch) (slots : Req Hash → List Slot)
    (once : ∀ req ∈ batch, (slots req).Nodup) (own : ∀ req ∈ batch, slots req ⊆ ownSlots req) : (batch.flatMap slots).Nodup := by
  obtain ⟨-,apart⟩ := nodup_flatMap.mp laid.own
  refine nodup_flatMap.mpr ⟨once,apart.imp_of_mem fun {left right} leftMember rightMember disjoint slot mine theirs => ?_⟩
  exact disjoint (own left leftMember mine) (own right rightMember theirs)

/-- A request when its batch is allocated: matched and locked. -/
structure Scheduled (args : ServerArgs Hash) (pools : Pools Hash) (req : Req Hash) : Prop where
  matched : Matched args req
  fresh : Unallocated req
  held : Held req pools.cache
  locked : ∀ entry ∈ req.picSegmentEntries.values, 0 < pools.cache.lockRef entry
  positions : req.picMissTokenPositions = missTokenPositions req.picMissSegments req.picHitSeamPositions
  seams : args.recompute = false → req.picHitSeamPositions = .empty
  seamed : Seamed req

section Allocation
variable {args : ServerArgs Hash}

/-- Allocation leaves what matching found as it is. -/
structure SameMatch (before after : Req Hash) : Prop where
  picSegments : after.picSegments = before.picSegments
  picMissSegments : after.picMissSegments = before.picMissSegments
  picHitSegments : after.picHitSegments = before.picHitSegments
  picHitSeamPositions : after.picHitSeamPositions = before.picHitSeamPositions
  picMissTokenPositions : after.picMissTokenPositions = before.picMissTokenPositions
  picSegmentEntries : after.picSegmentEntries = before.picSegmentEntries
  picScatterSingleSeg : after.picScatterSingleSeg = before.picScatterSingleSeg

variable {before after : Req Hash}

theorem prefilled_match (prefilled : Prefilled args before after) : SameMatch before after := by
  obtain ⟨assigned,⟨row,slot,rfl⟩,allocated⟩ := prefilled
  exact ⟨allocated.frame.picSegments,allocated.frame.picMissSegments,(congrArg Req.picHitSegments allocated.frame).trans rfl,
    (congrArg Req.picHitSeamPositions allocated.frame).trans rfl,(congrArg Req.picMissTokenPositions allocated.frame).trans rfl,
    (congrArg Req.picSegmentEntries allocated.frame).trans rfl,(congrArg Req.picScatterSingleSeg allocated.frame).trans rfl⟩

variable {pools : Pools Hash}

theorem prefilled_loaded (prefilled : Prefilled args before after)
    (scheduled : Scheduled args pools before) : Loaded args after := by
  have same := prefilled_match prefilled
  obtain ⟨assigned,given,allocated⟩ := prefilled
  have matched := allocated.frame.matched (given.matched scheduled.matched)
  obtain ⟨row,slot,rfl⟩ := given
  refine ⟨matched,fun seg => ?_,fun seg miss found => (allocated.ready seg miss found).mamba,?_,fun plain => ?_,?_⟩
  · rw [same.picMissSegments]; exact allocated.misses seg
  · rw [same.picMissTokenPositions,same.picMissSegments,same.picHitSeamPositions]; exact scheduled.positions
  · rw [same.picHitSeamPositions]; exact scheduled.seams plain
  · unfold Seamed
    rw [same.picHitSeamPositions,same.picHitSegments,same.picSegments]
    exact scheduled.seamed

variable {req : Req Hash}

theorem Loaded.missSlot (loaded : Loaded args req) {seg : Seg} (missed : seg ∈ req.picMissSegments) :
    ((picMissMambaSlots req).get? seg).isSome ↔ ¬ (args.rope = false ∧ some seg ≠ req.lastSeg ∧ args.short seg = true) := by
  obtain ⟨miss,found⟩ := isSome_iff_exists.mp ((loaded.misses seg).mp missed)
  rw [picMissMambaSlots,get?_filterMap,found,bind_some,← loaded.states seg miss found]
  exact Option.isSome_iff_ne_none

theorem Loaded.hitSlot (loaded : Loaded args req) {hit : Seg × Hash} (listed : hit ∈ req.picHitSegments) :
    ∃ slot, (picHitMambaSlots req).get? hit.2 = some slot := by
  obtain ⟨-,-,entry,found,-⟩ := loaded.matched.found hit.1 hit.2 listed
  exact ⟨entry.mambaStateSlot,by rw [picHitMambaSlots,get?_filterMap,found]; rfl⟩

theorem Loaded.plainPositions (loaded : Loaded args req) (plain : args.recompute = false) :
    req.picMissTokenPositions = req.picMissSegments.flatMap fun seg => List.range' seg.1 (seg.2 - seg.1) := by
  rw [loaded.positions,loaded.seams plain,missTokenPositions]
  exact if_pos rfl

theorem unsettled_states (rope : Bool) (req : Req Hash) :
    (req.picMissSegmentSlots.total (missHolding rope [])).2 = ↑(picMissMambaSlots req).values := by
  have misses (items : List (Seg × MissSlots)) :
      ((items.map (missHolding rope [])).sum).2 = ↑((items.map Prod.snd).filterMap MissSlots.mamba) := by
    induction items with
    | nil => rfl
    | cons item rest ih =>
      rw [map_cons,sum_cons,Prod.snd_add,ih,map_cons,filterMap_cons]
      cases state : item.2.mamba with
      | none => simp [missHolding,state]
      | some slot => simp [missHolding,state]
  rw [picMissMambaSlots,values_filterMap]
  exact misses req.picMissSegmentSlots.items

theorem held_states (prefilled : Prefilled args before after) (fresh : Unallocated before) :
    (held args.rope after).2 = ↑(ownSlots after) := by
  rw [held_prefilled prefilled fresh]
  obtain ⟨assigned,⟨row,slot,rfl⟩,allocated⟩ := prefilled
  have index : after.mambaPoolIdx = some slot := (congrArg Req.mambaPoolIdx allocated.frame).trans rfl
  rw [Prod.snd_add,givenHolding,Prod.snd_add,unsettled_states,ownSlots,mambaCacheIndex,index,kvHolding_snd,add_zero,
    mambaHolding_snd,← coe_add]
  rfl

variable {extended : Extended Hash} {reqs : List (Req Hash)}

theorem scheduled_spec (scheduled : ∀ req ∈ reqs, Scheduled args pools req) (executed : picAllocForExtend args pools reqs = some extended) :
    Forall₂ (Prefilled args) reqs extended.reqs ∧ Pools.Evicts pools extended.pools ∧
      pools.ledger = (extended.reqs.map (held args.rope)).sum + extended.pools.ledger :=
  picAllocForExtend_spec (fun req member => ⟨(scheduled req member).matched,(scheduled req member).fresh⟩) executed

/-- The state slots an allocated batch writes are all different, and none of them is left in the pools. -/
theorem picAllocForExtend_own
    (scheduled : ∀ req ∈ reqs, Scheduled args pools req) (distinct : pools.ledger.2.Nodup)
    (executed : picAllocForExtend args pools reqs = some extended) :
    (extended.reqs.flatMap ownSlots).Nodup ∧ ∀ slot ∈ extended.reqs.flatMap ownSlots, slot ∉ extended.pools.ledger.2 := by
  obtain ⟨prefilled,-,ledger⟩ := scheduled_spec scheduled executed
  have own : ((extended.reqs.map (held args.rope)).sum).2 = ↑(extended.reqs.flatMap ownSlots) := by
    have each : ∀ req ∈ extended.reqs, (held args.rope req).2 = ↑(ownSlots req) := by
      intro req member
      obtain ⟨before,inside,related⟩ := exists_left prefilled member
      exact held_states related (scheduled before inside).fresh
    generalize extended.reqs = batch at each
    induction batch with
    | nil => rfl
    | cons req rest ih =>
      rw [map_cons,sum_cons,Prod.snd_add,each req mem_cons_self,
        ih (forall_mem_cons.mp each).2,flatMap_cons,coe_add]
  rw [ledger,Prod.snd_add,own,Multiset.nodup_add] at distinct
  obtain ⟨ownDistinct,-,disjoint⟩ := distinct
  exact ⟨Multiset.coe_nodup.mp ownDistinct,fun slot written => (Multiset.disjoint_left.mp disjoint) (Multiset.mem_coe.mpr written)⟩

theorem cached_ledger {entry : SegmentEntry Hash} {segHash : Hash}
    (cached : pools.cache.entries.get? segHash = some entry) : entry.mambaStateSlot ∈ pools.ledger.2 := by
  obtain ⟨rest,holding⟩ := pools.cache.holding_of_get? cached
  rw [Pools.ledger,holding]
  simp [SegmentEntry.holding]

theorem picAllocForExtend_hits
    (scheduled : ∀ req ∈ reqs, Scheduled args pools req) (executed : picAllocForExtend args pools reqs = some extended)
    (member : req ∈ extended.reqs) {slot : Slot} (read : slot ∈ (picHitMambaSlots req).values) :
    ∃ segHash entry, extended.pools.cache.entries.get? segHash = some entry ∧ entry.mambaStateSlot = slot := by
  obtain ⟨prefilled,evicts,-⟩ := scheduled_spec scheduled executed
  obtain ⟨before,inside,related⟩ := exists_left prefilled member
  rw [picHitMambaSlots,(prefilled_match related).picSegmentEntries,values_filterMap,mem_filterMap] at read
  obtain ⟨entry,referred,same⟩ := read
  obtain ⟨segHash,found⟩ := (mem_values ..).mp referred
  exact ⟨segHash,entry,evicts.locked segHash entry ((scheduled before inside).held segHash entry found)
    ((scheduled before inside).locked entry referred),Option.some.inj same⟩

/-- The slots of an allocated batch: what it writes is its own, and its hits are still in the index. -/
theorem picAllocForExtend_laid
    (scheduled : ∀ req ∈ reqs, Scheduled args pools req) (distinct : pools.ledger.2.Nodup)
    (executed : picAllocForExtend args pools reqs = some extended) :
    (∀ req ∈ extended.reqs, Loaded args req) ∧ Laid extended.reqs := by
  obtain ⟨once,apart⟩ := picAllocForExtend_own scheduled distinct executed
  refine ⟨fun req member => ?_,once,fun req member slot read written => ?_⟩
  · obtain ⟨prefilled,-⟩ := scheduled_spec scheduled executed
    obtain ⟨before,inside,related⟩ := exists_left prefilled member
    exact prefilled_loaded related (scheduled before inside)
  · obtain ⟨segHash,entry,cached,rfl⟩ := picAllocForExtend_hits scheduled executed member read
    exact apart _ written (cached_ledger cached)
end Allocation

end Hypic.Forward
