import Hypic.Lightning
import Hypic.Ownership

/-! Every entry that caching inserts should have the state of its segment behind it. The cache decides what is
    inserted, the planners of the two layers decide what is written back. -/

namespace Hypic.Persist
open Policy Allocator Cache Request Alloc Release Runs Custody Handover Scheduler Forward Affine Ragged Gdn Recompute Lightning List
universe u v w x
variable {Hash : Type u} [DecidableEq Hash] {args : ServerArgs Hash}
variable {now : Nat} {req : Req Hash} {slot : Slot}

section Insertion

/-- The caching loop when it starts. -/
def cachingStart (req : Req Hash) (pools : Pools Hash) : Caching Hash :=
  ⟨{ req with picCacheOwnedMissSegments := [], picFreedMissSegments := [] },pools,0,0⟩

/-- The caching loop over `segs` inserts `entry` for `seg`: a step for `seg` leaves a new object in the index. -/
inductive Inserts (args : ServerArgs Hash) (now : Nat) : Caching Hash → List Seg → Seg → SegmentEntry Hash → Prop
  | here {state next : Caching Hash} {seg : Seg} {rest : List Seg} {entry : SegmentEntry Hash}
      (stepped : Caching.cacheMiss args now state seg = some next)
      (stored : next.pools.cache.entries.get? entry.segHash = some entry) (new : entry.oid = state.pools.cache.created) :
      Inserts args now state (seg::rest) seg entry
  | later {state next : Caching Hash} {other seg : Seg} {rest : List Seg} {entry : SegmentEntry Hash}
      (stepped : Caching.cacheMiss args now state other = some next) (inserts : Inserts args now next rest seg entry) :
      Inserts args now state (other::rest) seg entry

variable {seg : Seg}

theorem cacheMiss_frame {state next : Caching Hash} (stepped : Caching.cacheMiss args now state seg = some next) :
    CachedOnly state.req next.req := by
  cases cacheMiss_step stepped with
  | skip => exact CachedOnly.refl _
  | adopt files => exact files.frame
  | insert files => exact files.frame

theorem cacheMiss_new {state next : Caching Hash} {entry : SegmentEntry Hash}
    (stepped : Caching.cacheMiss args now state seg = some next) (stored : next.pools.cache.entries.get? entry.segHash = some entry)
    (new : entry.oid = state.pools.cache.created) :
    skips args state.req seg = false ∧ (picMissMambaSlots state.req).get? seg = some entry.mambaStateSlot := by
  have old : state.pools.cache.entries.get? entry.segHash ≠ some entry := by
    intro present
    have := state.pools.cache.fresh _ _ present
    omega
  cases cacheMiss_step stepped with
  | skip => exact absurd stored old
  | adopt files present tokens entries => exact absurd (entries ▸ stored) old
  | insert files unmatched made entries =>
    refine ⟨files.cacheable,?_⟩
    rw [entries,Dict.get?_set] at stored
    split at stored
    · rw [picMissMambaSlots,Dict.get?_filterMap,files.found,bind_some,files.mamba,← Option.some.inj stored,made]
    · exact absurd stored old

theorem inserts_slot {state : Caching Hash} {segs : List Seg} {entry : SegmentEntry Hash}
    (inserts : Inserts args now state segs seg entry) :
    seg ∈ segs ∧ skips args state.req seg = false ∧ (picMissMambaSlots state.req).get? seg = some entry.mambaStateSlot := by
  induction inserts with
  | here stepped stored new => exact ⟨mem_cons_self ..,cacheMiss_new stepped stored new⟩
  | later stepped inserts ih =>
    have frame := cacheMiss_frame stepped
    obtain ⟨member,cacheable,slot⟩ := ih
    rw [frame.skips] at cacheable
    rw [picMissMambaSlots,frame.slots] at slot
    exact ⟨mem_cons_of_mem _ member,cacheable,slot⟩

theorem inserts_first (now : Nat) {rest : List Seg} {miss : MissSlots} {kvSlots : List Slot}
    (pools : Pools Hash) (cacheable : skips args req seg = false) (found : req.picMissSegmentSlots.get? seg = some miss)
    (kv : (if args.rope then miss.pub else some miss.kv) = some kvSlots) (mamba : miss.mamba = some slot) :
    ∃ entry, Inserts args now (cachingStart req (pools.withCache .empty)) (seg::rest) seg entry ∧ entry.mambaStateSlot = slot := by
  have skip : skips args (cachingStart req (pools.withCache .empty)).req seg = false := cacheable
  have slots : (cachingStart req (pools.withCache .empty)).req.picMissSegmentSlots.get? seg = some miss := found
  refine ⟨⟨0,args.segmentHash (segmentIds req.originInputIds seg),kvSlots,slot,segmentIds req.originInputIds seg⟩,
    .here (by simp only [Caching.cacheMiss,skip,slots,kv,mamba]; rfl) ?_ rfl,rfl⟩
  simp only [Caching.commit,cachingStart,Pools.withCache,PICache.matchSegment,PICache.insertSegment,PICache.empty,Dict.get?_empty,
    PICache.store,Caching.insert]
  cases args.isTransition <;> exact Dict.get?_set_same ..
end Insertion

section Gdn
variable {T : Type v} {S : Type w} {X : Type x} [Semiring T] [AddCommMonoid S] [Module Tᵐᵒᵖ S] [Zero X]
variable (inputs : Req Hash → Nat → Cell T S X)

/-- The GDN layer's forward pass, by mode. -/
def forwardExtendPic (args : ServerArgs Hash) (width : Nat) (batch : List (Req Hash)) (cache : LayerCache T S X) :
    Option (Forwarded T S X) :=
  if args.recompute then
    (buildPicRecomputeMetadata batch).map fun plan => forwardExtendPicTransitionRecompute width plan inputs batch cache
  else
    (initPicMetadata (!args.isTransition) 0 batch).map fun plan =>
      if args.isTransition then forwardExtendPicTransition width plan inputs batch cache
      else forwardExtendPicAddition width plan inputs batch cache

/-- Rows that are written back are the tokens of the miss whose slot they go to. -/
def RowsOf (batch : List (Req Hash)) (cells : Nat → List (Cell T S X)) (plan : List (Nat × Slot)) : Prop :=
  ∀ item ∈ plan, ∃ req ∈ batch, ∃ seg, (picMissMambaSlots req).get? seg = some item.2 ∧ cells item.1 = segTokens inputs req seg

variable {batch : List (Req Hash)} {req : Req Hash} {slot : Slot} {seg : Seg}

theorem persist_written {β : Type*} {cells : Nat → List (Cell T S X)} {plan : List (Nat × Slot)}
    (laid : Laid batch) (rowsOf : RowsOf inputs batch cells plan) (pool : Slot → β) (summary : List (Cell T S X) → β)
    (member : req ∈ batch) (found : (picMissMambaSlots req).get? seg = some slot)
    (planned : slot ∈ plan.map Prod.snd) :
    persist pool plan (fun row => summary (cells row)) slot = summary (segTokens inputs req seg) := by
  have value : ∀ item ∈ plan, item.2 = slot → cells item.1 = segTokens inputs req seg := by
    rintro item listed rfl
    obtain ⟨other,otherMember,otherSeg,otherFound,cut⟩ := rowsOf item listed
    obtain ⟨rfl,rfl⟩ := laid.owner member otherMember found otherFound
    exact cut
  obtain ⟨item,listed,rfl⟩ := mem_map.mp planned
  refine scatter_unique _ pool (mem_map.mpr ⟨item,listed,Prod.ext rfl (congrArg summary (value item listed rfl))⟩) fun other repeated => ?_
  obtain ⟨again,relisted,same⟩ := mem_map.mp repeated
  obtain ⟨place,rfl⟩ := Prod.mk.inj same
  exact congrArg summary (value again relisted place)

theorem finals_frame {β : Type*} (other : slot ∉ batch.map mambaCacheIndex) (pool : Slot → β)
    (finals : List β) : scatter pool ((batch.map mambaCacheIndex).zip finals) slot = pool slot := by
  refine scatter_other _ pool fun listed => other ?_
  obtain ⟨write,inside,rfl⟩ := mem_map.mp listed
  exact (of_mem_zip inside).1

/-- What a slot holds after a segment's write-back, the transition modes keeping its transition and convolution tail too. -/
structure Written (args : ServerArgs Hash) (width : Nat) (cache : LayerCache T S X) (slot : Slot) (cells : List (Cell T S X)) : Prop where
  temporal : cache.temporal slot = fwdH cells 0
  transition : args.isTransition = true → cache.transition slot = transition (cells.map Cell.toStep)
  convTail : args.isTransition = true → cache.convTails slot = convTail width cells

variable {plan : SegMeta} {isAddition : Bool}

theorem transPersist_rows (loaded : AllLoaded args batch)
    (plain : args.recompute = false) (executed : initPicMetadata isAddition 0 batch = some plan) :
    RowsOf inputs batch (row (cuSeqlens plan.segLengths) (packed inputs batch)) plan.transPersist := by
  intro item listed
  rw [initPicMetadata_transPersist executed] at listed
  obtain ⟨⟨⟨req,seg⟩,payload⟩,inside,found⟩ := mem_filterMap.mp listed
  obtain ⟨slot,known,rfl⟩ := map_eq_some_iff.mp found
  have placed : (missRows batch)[payload]? = some (req,seg) := by simpa [mem_zipIdx_iff_getElem?] using inside
  exact ⟨req,(mem_missRows.mp (mem_of_getElem? placed)).1,seg,known,row_segTokens inputs loaded plain executed placed⟩

theorem fusedPersist_subset {cursor : Nat}
    (executed : initPicMetadata isAddition cursor batch = some plan) : plan.fusedPersist ⊆ plan.transPersist := by
  induction batch generalizing cursor plan with
  | nil => cases executed; exact List.Subset.refl _
  | cons req rest ih =>
    obtain ⟨order,later,-,planned,rfl⟩ := initPicMetadata_cons executed
    intro item listed
    rcases mem_append.mp listed with mine | theirs
    · refine mem_append_left _ ?_
      obtain ⟨place,inside,kept⟩ := mem_filterMap.mp mine
      exact mem_filterMap.mpr ⟨place,inside,(ite_none_right_eq_some.mp kept).2⟩
    · exact mem_append_right _ (ih planned theirs)

theorem mem_fusedPersist {cursor : Nat} (loaded : AllLoaded args batch)
    (executed : initPicMetadata isAddition cursor batch = some plan) (member : req ∈ batch)
    (missed : seg ∈ req.picMissSegments) (found : (picMissMambaSlots req).get? seg = some slot)
    (kept : some seg ≠ req.lastSeg ∨ req.picSegments.length = 1) : slot ∈ plan.fusedPersist.map Prod.snd := by
  induction batch generalizing cursor plan with
  | nil => cases member
  | cons head rest ih =>
    obtain ⟨order,later,-,planned,rfl⟩ := initPicMetadata_cons executed
    rw [map_append,mem_append]
    rcases mem_cons.mp member with rfl | member
    · refine .inl ?_
      have here := loaded req mem_cons_self
      obtain ⟨index,listed⟩ := mem_iff_getElem?.mp missed
      have count := (partition_perm here.matched.toPartitioned).length_eq
      rw [length_append,length_map] at count
      have chosen : cursor + index + 1 < cursor + req.picMissSegments.length ∨
          (if isAddition then 0 else req.picHitSegments.length) + req.picMissSegments.length = 1 := by
        rcases kept with inner | lone
        · have := (inner_miss here.matched.toPartitioned listed).mpr inner
          omega
        · have := length_pos_of_mem missed
          split <;> omega
      refine mem_map.mpr ⟨(cursor + index,slot),mem_filterMap.mpr ⟨(seg,cursor + index),?_,?_⟩,rfl⟩
      · exact mk_add_mem_zipIdx_iff_getElem?.mpr listed
      · simp [chosen,found]
    · exact .inr (ih (forall_mem_cons.mp loaded).2 planned member)

theorem transition_written (width : Nat) (loaded : AllLoaded args batch) (laid : Laid batch)
    (plain : args.recompute = false) (executed : initPicMetadata false 0 batch = some plan) (cache : LayerCache T S X)
    (member : req ∈ batch) (missed : seg ∈ req.picMissSegments)
    (found : (picMissMambaSlots req).get? seg = some slot) (kept : some seg ≠ req.lastSeg ∨ req.picSegments.length = 1) :
    Written args width (forwardExtendPicTransition width plan inputs batch cache).cache slot (segTokens inputs req seg) := by
  have rows := transPersist_rows inputs loaded plain executed
  have planned : slot ∈ plan.transPersist.map Prod.snd := by
    rw [transPersist_slots executed]
    exact mem_filterMap.mpr ⟨(req,seg),mem_missRows.mpr ⟨member,missed⟩,found⟩
  refine ⟨?_,fun _ => ?_,fun _ => ?_⟩
  · exact (finals_frame (laid.notIndex member found) ..).trans
      (persist_written inputs laid rows cache.temporal (fun cells => fwdH cells 0) member found planned)
  · rw [← fwdTransition_eq]
    exact persist_written inputs laid rows cache.transition fwdTransition member found planned
  · exact persist_written inputs laid (fun item listed => rows item (fusedPersist_subset executed listed)) cache.convTails (convTail width)
      member found (mem_fusedPersist loaded executed member missed found kept)

theorem computePersist_rows {final : Builder} (loaded : AllLoaded args batch)
    (planned : BatchPlanned batch ⟨[],[],[],[],0,0⟩ final) :
    RowsOf inputs batch (row (cuSeqlens final.computeSegLengths) (packed inputs batch)) final.computePersist := by
  intro item listed
  rw [planned.persist,nil_append] at listed
  obtain ⟨⟨⟨req,⟨seg,kind⟩⟩,index⟩,inside,written⟩ := mem_filterMap.mp listed
  have placed : (batchRows batch)[index]? = some (req,(seg,kind)) := by simpa [mem_zipIdx_iff_getElem?] using inside
  obtain ⟨⟨isMiss,-⟩,written⟩ := ite_none_right_eq_some.mp written
  obtain rfl : kind = none := isMiss
  obtain ⟨slot,known,rfl⟩ := map_eq_some_iff.mp written
  obtain ⟨other,inBatch,same⟩ := mem_flatMap.mp (mem_of_getElem? placed)
  obtain ⟨place,-,same⟩ := mem_map.mp same
  cases same
  refine ⟨req,inBatch,seg,known,?_⟩
  exact row_positions inputs loaded (by simpa using planned.lengths) placed

theorem mem_computePersist {final : Builder} (loaded : AllLoaded args batch) (laid : Laid batch)
    (planned : BatchPlanned batch ⟨[],[],[],[],0,0⟩ final) (member : req ∈ batch)
    (missed : seg ∈ req.picMissSegments) (found : (picMissMambaSlots req).get? seg = some slot) :
    slot ∈ final.computePersist.map Prod.snd ↔ some seg ≠ req.lastSeg := by
  rw [planned.persist,nil_append]
  constructor
  · intro written
    obtain ⟨item,listed,rfl⟩ := mem_map.mp written
    obtain ⟨⟨⟨other,⟨otherSeg,kind⟩⟩,index⟩,inside,persisted⟩ := mem_filterMap.mp listed
    obtain ⟨⟨-,inner⟩,persisted⟩ := ite_none_right_eq_some.mp persisted
    obtain ⟨slot,known,rfl⟩ := map_eq_some_iff.mp persisted
    obtain ⟨owner,inBatch,same⟩ := mem_flatMap.mp (fst_mem_of_mem_zipIdx inside)
    obtain ⟨place,-,same⟩ := mem_map.mp same
    cases same
    obtain ⟨rfl,rfl⟩ := laid.owner member inBatch found known
    exact inner
  · intro inner
    have here := loaded req member
    have positive := (here.matched.consecutive.mem_bounds (here.matched.misses.subset missed)).2.1
    have kept : (req,(seg,(none : Option Hash))) ∈ batchRows batch := by
      refine mem_flatMap.mpr ⟨req,member,mem_map.mpr ⟨(seg,none),mem_filter.mpr ⟨mem_ordered_miss.mpr missed,?_⟩,rfl⟩⟩
      simp only [rowPositions,isSome_none,false_eq_true,if_false,ne_eq,decide_eq_true_eq,List.range'_eq_nil_iff]
      omega
    obtain ⟨index,listed⟩ := mem_iff_getElem?.mp kept
    refine mem_map.mpr ⟨(index,slot),mem_filterMap.mpr ⟨((req,(seg,none)),index),?_,?_⟩,rfl⟩
    · simpa [mem_zipIdx_iff_getElem?] using listed
    · simp [persistOf,inner,found]

theorem recompute_written (width : Nat) {plan : List (List SegEntry) × Builder}
    (loaded : AllLoaded args batch) (laid : Laid batch) (planned : BatchPlanned batch ⟨[],[],[],[],0,0⟩ plan.2)
    (cache : LayerCache T S X) (member : req ∈ batch) (missed : seg ∈ req.picMissSegments)
    (found : (picMissMambaSlots req).get? seg = some slot) (inner : some seg ≠ req.lastSeg) :
    Written args width (forwardExtendPicTransitionRecompute width plan inputs batch cache).cache slot (segTokens inputs req seg) := by
  have rows := computePersist_rows inputs loaded planned
  have kept := (mem_computePersist loaded laid planned member missed found).mpr inner
  refine ⟨?_,fun _ => ?_,fun _ => ?_⟩
  · exact (finals_frame (laid.notIndex member found) ..).trans
      (persist_written inputs laid rows cache.temporal (fun cells => fwdH cells 0) member found kept)
  · rw [← fwdTransition_eq]
    exact persist_written inputs laid rows cache.transition fwdTransition member found kept
  · have tails := persist_written inputs laid rows cache.convTails (convTail width) member found kept
    rw [← planned.physLengths,← planned.physPersist] at tails
    exact tails

theorem recompute_last (width : Nat) {plan : List (List SegEntry) × Builder}
    (loaded : AllLoaded args batch) (laid : Laid batch) (planned : BatchPlanned batch ⟨[],[],[],[],0,0⟩ plan.2)
    (cache : LayerCache T S X) (member : req ∈ batch) (missed : seg ∈ req.picMissSegments)
    (found : (picMissMambaSlots req).get? seg = some slot) (isLast : some seg = req.lastSeg) :
    (forwardExtendPicTransitionRecompute width plan inputs batch cache).cache.temporal slot = cache.temporal slot := by
  refine (finals_frame (laid.notIndex member found) ..).trans (scatter_other _ _ fun listed => ?_)
  rw [map_map] at listed
  exact (mem_computePersist loaded laid planned member missed found).mp listed isLast

theorem additionSeeds_row (cache : LayerCache T S X) (cursor : Nat) (tempStates : Nat → S)
    (distinct : ∀ req ∈ batch, req.picMissSegments.Nodup) :
    (∀ payload < cursor, additionSeeds cache cursor batch tempStates payload = tempStates payload) ∧
    ∀ index req seg, (missRows batch)[index]? = some (req,seg) →
      additionSeeds cache cursor batch tempStates (cursor + index) =
        if req.picMissSegments.head? = some seg ∧ (picHitMambaSlots req).items ≠ [] then
          ((picHitMambaSlots req).values.map cache.temporal).sum
        else tempStates (cursor + index) := by
  induction batch generalizing cursor tempStates with
  | nil => exact ⟨fun _ _ => rfl,nofun⟩
  | cons req rest ih =>
    obtain ⟨frame,rows⟩ := ih (cursor + req.picMissSegments.length)
      (if 0 < req.picMissSegments.length ∧ (picHitMambaSlots req).items ≠ [] then
        Function.update tempStates cursor ((picHitMambaSlots req).values.map cache.temporal).sum
      else tempStates) (forall_mem_cons.mp distinct).2
    have before (payload : Nat) (differs : req.picMissSegments.length = 0 ∨ payload ≠ cursor) : (if 0 < req.picMissSegments.length ∧ (picHitMambaSlots req).items ≠ [] then
        Function.update tempStates cursor ((picHitMambaSlots req).values.map cache.temporal).sum
      else tempStates) payload = tempStates payload := by
      split
      · exact update_of_ne (by omega) ..
      · rfl
    constructor
    · intro payload early
      rw [additionSeeds,frame payload (by omega),before payload (by omega)]
    · intro index other seg listed
      rw [additionSeeds]
      simp only [missRows,flatMap_cons,getElem?_append,length_map] at listed
      split at listed
      · rename_i mine
        rw [frame (cursor + index) (by omega)]
        rw [getElem?_map,map_eq_some_iff] at listed
        obtain ⟨missed,found,same⟩ := listed
        cases same
        cases index with
        | zero =>
          have first : req.picMissSegments.head? = some seg := by rw [head?_eq_getElem?,found]
          by_cases hits : (picHitMambaSlots req).items = []
          · simp [hits]
          · simp [hits,mine,first]
        | succ index =>
          have notFirst : req.picMissSegments.head? ≠ some seg := by
            intro first
            rw [head?_eq_getElem?] at first
            have := (getElem?_inj (by omega) (distinct req mem_cons_self)).mp (first.trans found.symm)
            omega
          rw [before _ (by omega)]
          simp [notFirst]
      · rename_i others
        have later := rows (index - req.picMissSegments.length) other seg listed
        rw [show cursor + req.picMissSegments.length + (index - req.picMissSegments.length) = cursor + index by omega,
          before (cursor + index) (by omega)] at later
        exact later

theorem addition_state (width : Nat) (loaded : AllLoaded args batch) (laid : Laid batch)
    (plain : args.recompute = false) (executed : initPicMetadata true 0 batch = some plan) (cache : LayerCache T S X)
    (member : req ∈ batch) (missed : seg ∈ req.picMissSegments)
    (found : (picMissMambaSlots req).get? seg = some slot) :
    (forwardExtendPicAddition width plan inputs batch cache).cache.temporal slot = fwdH (segTokens inputs req seg)
      (if req.picMissSegments.head? = some seg ∧ (picHitMambaSlots req).items ≠ [] then
        ((picHitMambaSlots req).values.map cache.temporal).sum else 0) := by
  obtain ⟨payload,listed⟩ := mem_iff_getElem?.mp (mem_missRows.mpr ⟨member,missed⟩)
  have seed := (additionSeeds_row cache 0 (fun _ => 0) fun req member =>
    (loaded req member).matched.consecutive.nodup.sublist (loaded req member).matched.misses).2 payload req seg listed
  rw [Nat.zero_add] at seed
  refine (finals_frame (laid.notIndex member found) ..).trans
    (((persist_row loaded laid executed cache.temporal _).1 payload req seg slot listed found).trans ?_)
  simp only [row_segTokens inputs loaded plain executed listed,seed]

theorem additionPlan_isSome (cursor : Nat) (loaded : AllLoaded args batch) :
    (initPicMetadata true cursor batch).isSome := by
  induction batch generalizing cursor with
  | nil => rfl
  | cons req rest ih =>
    have here := loaded req mem_cons_self
    have listed := here.increasing
    obtain ⟨later,planned⟩ := isSome_iff_exists.mp
      (ih (cursor + req.picMissSegments.length) fun other member => loaded other (mem_cons_of_mem _ member))
    simp [initPicMetadata,listed,planned]
end Gdn

section Cached
variable {T : Type v} {S : Type w} {X : Type x} [Semiring T] [AddCommMonoid S] [Module Tᵐᵒᵖ S] [Zero X]

/-- The GDN layer writes a miss back from zero: seam recompute leaves the last segment out, and the addition mode starts the
    first miss behind hits from their sum. -/
def GdnKeeps (args : ServerArgs Hash) (req : Req Hash) (seg : Seg) : Prop :=
  (args.recompute = true → some seg ≠ req.lastSeg) ∧
    (args.isTransition = false → req.picSegmentEntries.items = [] ∨ req.picMissSegments.head? ≠ some seg)

variable {seg : Seg}

theorem GdnKeeps.congr {before after : Req Hash} (same : SameMatch before after) :
    GdnKeeps args after seg ↔ GdnKeeps args before seg := by
  rw [GdnKeeps,GdnKeeps,Req.lastSeg,Req.lastSeg,same.picSegments,same.picSegmentEntries,same.picMissSegments]

theorem skips_congr {before after : Req Hash} (same : SameMatch before after) (seg : Seg) :
    skips args after seg = skips args before seg := by
  rw [skips,skips,Req.globalSeg,Req.globalSeg,Req.lastSeg,Req.lastSeg,same.picSegments,same.picScatterSingleSeg]

/-- Only scatter sub-requests may cache the last segment of a longer prompt; they have one segment. -/
theorem cacheable_local (single : req.picScatterSingleSeg = true → req.picSegments.length ≤ 1)
    (cacheable : skips args req seg = false) : some seg ≠ req.globalSeg ∧ (some seg = req.lastSeg → req.picSegments = [seg]) := by
  have notGlobal : some seg ≠ req.globalSeg := by
    intro global
    simp only [skips,global,true_and,decide_eq_false_iff_not,not_or,Bool.not_eq_false] at cacheable
    have short := single cacheable.1
    rw [Req.globalSeg,if_neg (by omega)] at global
    cases global
  refine ⟨notGlobal,fun last => ?_⟩
  unfold Req.globalSeg at notGlobal
  split at notGlobal
  · exact absurd last notGlobal
  · rename_i short
    unfold Req.lastSeg at last
    rcases segs : req.picSegments with _ | ⟨only,_ | ⟨second,rest⟩⟩
    · rw [segs] at last
      cases last
    · rw [segs] at last
      cases last
      rfl
    · rw [segs] at short
      simp at short

theorem cacheable_slots {before req : Req Hash} (prefilled : Prefilled args before req) (loaded : Loaded args req)
    (missed : seg ∈ req.picMissSegments) (notGlobal : some seg ≠ req.globalSeg) (cacheable : skips args req seg = false) :
    ∃ miss kvSlots slot, req.picMissSegmentSlots.get? seg = some miss ∧ (if args.rope then miss.pub else some miss.kv) = some kvSlots ∧
      miss.mamba = some slot ∧ (picMissMambaSlots req).get? seg = some slot := by
  obtain ⟨miss,found⟩ := isSome_iff_exists.mp ((loaded.misses seg).mp missed)
  obtain ⟨assigned,-,allocated⟩ := prefilled
  have ready := allocated.ready seg miss found
  have long : args.short seg = false := by
    simp only [skips,decide_eq_false_iff_not,not_or,Bool.not_eq_true] at cacheable
    exact cacheable.2
  obtain ⟨slot,mamba⟩ : ∃ slot, miss.mamba = some slot := by
    refine Option.ne_none_iff_exists'.mp fun none => ?_
    have short := ((loaded.states seg miss found).mp none).2.2
    rw [long] at short
    cases short
  obtain ⟨kvSlots,kv⟩ : ∃ kvSlots, (if args.rope then miss.pub else some miss.kv) = some kvSlots := by
    cases rope : args.rope with
    | false => exact ⟨miss.kv,rfl⟩
    | true => exact isSome_iff_exists.mp (ready.pub.mpr ⟨rope,notGlobal⟩)
  refine ⟨miss,kvSlots,slot,found,kv,mamba,?_⟩
  rw [picMissMambaSlots,Dict.get?_filterMap,found,bind_some,mamba]

/-- A token that leaves the state as it is. -/
def still : Cell T S X := ⟨⟨1,0⟩,0⟩

theorem fwdH_still (req : Req Hash) (seg : Seg) (h : S) : fwdH (segTokens (fun _ _ => (still : Cell T S X)) req seg) h = h := by
  have step : (still : Cell T S X).toStep.apply h = h := (congrArg (· + (0 : S)) (one_smul ..)).trans (add_zero h)
  rw [segTokens]
  induction List.range' seg.1 (seg.2 - seg.1) with
  | nil => rfl
  | cons pos rest ih =>
    calc fwdH ((pos::rest).map fun _ => (still : Cell T S X)) h
        = fwdH (rest.map fun _ => (still : Cell T S X)) ((still : Cell T S X).toStep.apply h) := rfl
      _ = h := by rw [step]; exact ih

theorem segLaFwd_still (decay : T) (req : Req Hash) (seg : Seg) : segLaFwd decay (segTokens (fun _ _ => (0 : S)) req seg) 0 = 0 := by
  have step : (Step.mk decay (0 : S)).apply 0 = 0 := (congrArg (· + (0 : S)) (smul_zero ..)).trans (add_zero 0)
  rw [segTokens]
  induction List.range' seg.1 (seg.2 - seg.1) with
  | nil => rfl
  | cons pos rest ih =>
    calc segLaFwd decay ((pos::rest).map fun _ => (0 : S)) 0
        = segLaFwd decay (rest.map fun _ => (0 : S)) ((Step.mk decay (0 : S)).apply 0) := rfl
      _ = 0 := by rw [step]; exact ih

theorem hitSlots_values (req : Req Hash) : (picHitMambaSlots req).values = req.picSegmentEntries.values.map SegmentEntry.mambaStateSlot := by
  rw [picHitMambaSlots,Dict.values_filterMap]
  exact congrFun filterMap_eq_map _

theorem hitSlots_items (req : Req Hash) : (picHitMambaSlots req).items = [] ↔ req.picSegmentEntries.items = [] := by
  have values := congrArg List.length (hitSlots_values req)
  simp only [Dict.values,length_map] at values
  rw [← length_eq_zero_iff,values,length_eq_zero_iff]

theorem GdnKeeps.written {width : Nat} {batch : List (Req Hash)} {inputs : Req Hash → Nat → Cell T S X} {cache : LayerCache T S X}
    {result : Forwarded T S X} (loaded : AllLoaded args batch) (laid : Laid batch)
    (executed : forwardExtendPic inputs args width batch cache = some result)
    (keeps : GdnKeeps args req seg) (lone : some seg = req.lastSeg → req.picSegments = [seg]) (member : req ∈ batch)
    (missed : seg ∈ req.picMissSegments) (found : (picMissMambaSlots req).get? seg = some slot) :
    Written args width result.cache slot (segTokens inputs req seg) := by
  unfold forwardExtendPic at executed
  cases recompute : args.recompute with
  | true =>
    simp only [recompute,if_true] at executed
    obtain ⟨plan,planned,rfl⟩ := map_eq_some_iff.mp executed
    obtain ⟨plans,final,built,batchPlanned,-⟩ := planReqs_spec 0 batch ⟨[],[],[],[],0,0⟩ loaded rfl rfl
    obtain rfl : plan = (plans,final) := Option.some.inj (planned.symm.trans built)
    exact recompute_written inputs width loaded laid batchPlanned cache member missed found (keeps.1 recompute)
  | false =>
    simp only [recompute,false_eq_true,if_false] at executed
    obtain ⟨plan,planned,rfl⟩ := map_eq_some_iff.mp executed
    cases transition : args.isTransition with
    | true =>
      rw [transition] at planned
      simp only [if_true]
      refine transition_written inputs width loaded laid recompute planned cache member missed found ?_
      by_cases last : some seg = req.lastSeg
      · exact .inr (by rw [lone last]; rfl)
      · exact .inl last
    | false =>
      rw [transition] at planned
      simp only [false_eq_true,if_false]
      refine ⟨?_,by simp [transition],by simp [transition]⟩
      rw [addition_state inputs width loaded laid recompute planned cache member missed found,if_neg]
      rintro ⟨first,hits⟩
      rcases keeps.2 transition with none | notFirst
      · exact hits ((hitSlots_items req).mpr none)
      · exact notFirst first

theorem unit_ne_zero {unit : S} (injective : Function.Injective fun n : Nat => n • unit) {n : Nat} (positive : 0 < n) : n • unit ≠ 0 := by
  intro zero
  have := injective (zero.trans (zero_smul ..).symm)
  omega

theorem GdnKeeps.of_written (width : Nat) {batch : List (Req Hash)} {unit : S} (injective : Function.Injective fun n : Nat => n • unit)
    (loaded : AllLoaded args batch) (laid : Laid batch) (member : req ∈ batch)
    (missed : seg ∈ req.picMissSegments) (found : (picMissMambaSlots req).get? seg = some slot)
    (written : ∀ result : Forwarded T S X,
      forwardExtendPic (fun _ _ => still) args width batch ⟨fun _ => unit,fun _ => 1,fun _ => []⟩ = some result →
        (some seg = req.lastSeg ∨ req.picMissSegments.head? = some seg) →
          Written args width result.cache slot (segTokens (fun _ _ => still) req seg)) :
    GdnKeeps args req seg := by
  constructor
  · intro recompute last
    obtain ⟨plans,final,built,batchPlanned,-⟩ := planReqs_spec 0 batch ⟨[],[],[],[],0,0⟩ loaded rfl rfl
    have executed : forwardExtendPic (fun _ _ => still) args width batch ⟨fun _ => unit,fun _ => 1,fun _ => []⟩ =
        some (forwardExtendPicTransitionRecompute width (plans,final) (fun _ _ => (still : Cell T S X)) batch
          ⟨fun _ => unit,fun _ => 1,fun _ => []⟩) := by
      simp only [forwardExtendPic,recompute,if_true,buildPicRecomputeMetadata,built,map_some]
    have state := (written _ executed (.inl last)).temporal
    rw [recompute_last _ width loaded laid batchPlanned _ member missed found last,fwdH_still] at state
    exact unit_ne_zero injective Nat.one_pos ((one_smul Nat unit).trans state)
  · intro addition
    by_contra both
    rw [not_or,not_not] at both
    have plain : args.recompute = false := by
      by_contra recompute
      have rope : args.rope = true := PICMode.recompute_rope _ (Bool.eq_true_of_not_eq_false recompute)
      rw [args.isTransition_of_rope rope] at addition
      cases addition
    obtain ⟨plan,planned⟩ := isSome_iff_exists.mp (additionPlan_isSome 0 loaded)
    have executed : forwardExtendPic (fun _ _ => still) args width batch ⟨fun _ => unit,fun _ => 1,fun _ => []⟩ =
        some (forwardExtendPicAddition width plan (fun _ _ => (still : Cell T S X)) batch ⟨fun _ => unit,fun _ => 1,fun _ => []⟩) := by
      simp only [forwardExtendPic,plain,addition,false_eq_true,if_false,Bool.not_false,planned,map_some]
    have state := (written _ executed (.inr both.2)).temporal
    rw [addition_state _ width loaded laid plain planned _ member missed found,
      if_pos ⟨both.2,fun none => both.1 ((hitSlots_items req).mp none)⟩,fwdH_still,fwdH_still] at state
    rw [map_const',sum_replicate] at state
    refine unit_ne_zero injective (length_pos_iff.mpr fun none => both.1 ?_) state
    exact (hitSlots_items req).mp (map_eq_nil_iff.mp none)

/-- Cached entries have their segment's state behind them exactly if the layers write back what the cache takes. -/
theorem cached_states_written_iff (width maxSegments : Nat) (decay : T) (rope : RopeArgs S) (pools : Pools Hash) (reqs : List (Req Hash))
    (extended : Extended Hash) (scheduled : ∀ req ∈ reqs, Scheduled args pools req)
    (single : ∀ req ∈ reqs, req.picScatterSingleSeg = true → req.picSegments.length ≤ 1) (distinct : pools.ledger.2.Nodup)
    (executed : picAllocForExtend args pools reqs = some extended) (endless : ∃ unit : S, Function.Injective fun n : Nat => n • unit) :
    ((∀ (inputs : Req Hash → Nat → Cell T S X) (cache : LayerCache T S X) (result : Forwarded T S X),
        forwardExtendPic inputs args width extended.reqs cache = some result →
        ∀ req ∈ extended.reqs, ∀ now pools seg entry, Inserts args now (cachingStart req pools) req.picMissSegments seg entry →
          Written args width result.cache entry.mambaStateSlot (segTokens inputs req seg)) ↔
      ∀ req ∈ reqs, ∀ seg ∈ Ownership.cacheable args req, GdnKeeps args req seg) ∧
    ((∀ (inputs : Req Hash → Nat → S) (cache : SegLaCache S) (result : SegLaCache S × (Nat → S)),
        Lightning.forwardExtendPic args decay rope maxSegments inputs extended.reqs cache = some result →
        ∀ req ∈ extended.reqs, ∀ now pools seg entry, Inserts args now (cachingStart req pools) req.picMissSegments seg entry →
          result.1.ssmStates entry.mambaStateSlot = canonicalState decay rope inputs req seg) ↔
      ∀ req ∈ reqs, ∀ seg ∈ Ownership.cacheable args req, some seg ≠ req.lastSeg) := by
  obtain ⟨loaded,laid⟩ := picAllocForExtend_laid scheduled distinct executed
  obtain ⟨prefilled,-⟩ := scheduled_spec scheduled executed
  obtain ⟨unit,injective⟩ := endless
  -- what is cacheable before allocation is so afterwards
  have chosen {before after : Req Hash} (related : Prefilled args before after) (seg : Seg) :
      seg ∈ Ownership.cacheable args before ↔ seg ∈ after.picMissSegments ∧ skips args after seg = false := by
    simp [Ownership.cacheable,skips_congr (prefilled_match related),(prefilled_match related).picMissSegments]
  have one {before after : Req Hash} (inside : before ∈ reqs) (related : Prefilled args before after) :
      after.picScatterSingleSeg = true → after.picSegments.length ≤ 1 := by
    rw [(prefilled_match related).picScatterSingleSeg,(prefilled_match related).picSegments]
    exact single before inside
  -- a cacheable miss that is the last segment or the first miss is inserted into an empty index
  have inserted {before after : Req Hash} (inside : before ∈ reqs) (member : after ∈ extended.reqs) (related : Prefilled args before after)
      {seg : Seg} (missed : seg ∈ after.picMissSegments) (cacheable : skips args after seg = false) :
      ∃ slot, (picMissMambaSlots after).get? seg = some slot ∧ (some seg = after.lastSeg ∨ after.picMissSegments.head? = some seg →
        ∃ entry, Inserts args 0 (cachingStart after (pools.withCache .empty)) after.picMissSegments seg entry ∧
          entry.mambaStateSlot = slot) := by
    obtain ⟨notGlobal,lone⟩ := cacheable_local (one inside related) cacheable
    obtain ⟨miss,kvSlots,slot,found,kv,mamba,known⟩ := cacheable_slots related (loaded after member) missed notGlobal cacheable
    refine ⟨slot,known,fun place => ?_⟩
    obtain ⟨rest,first⟩ : ∃ rest, after.picMissSegments = seg::rest := by
      rcases place with last | first
      · have sub := (loaded after member).matched.misses
        rw [lone last] at sub
        rcases sublist_singleton.mp sub with none | only
        · rw [none] at missed; cases missed
        · exact ⟨[],only⟩
      · exact head?_eq_some_iff.mp first
    rw [first]
    exact inserts_first 0 pools cacheable found kv mamba
  refine ⟨⟨fun written before inside seg member => ?_,fun keeps inputs cache result run after member now pools seg entry inserts => ?_⟩,
    ⟨fun written before inside seg member last => ?_,fun inner inputs cache result run after member now pools seg entry inserts => ?_⟩⟩
  · obtain ⟨after,inBatch,related⟩ := exists_right prefilled inside
    obtain ⟨missed,cacheable⟩ := (chosen related seg).mp member
    obtain ⟨slot,found,placed⟩ := inserted inside inBatch related missed cacheable
    refine (GdnKeeps.congr (prefilled_match related)).mp (GdnKeeps.of_written width injective loaded laid inBatch missed found
      fun (result : Forwarded T S X) run place => ?_)
    obtain ⟨entry,inserts,rfl⟩ := placed place
    exact written _ _ result run after inBatch 0 _ seg entry inserts
  · obtain ⟨before,inside,related⟩ := exists_left prefilled member
    obtain ⟨missed,cacheable,found⟩ := inserts_slot inserts
    have kept := keeps before inside seg ((chosen related seg).mpr ⟨missed,cacheable⟩)
    exact ((GdnKeeps.congr (prefilled_match related)).mpr kept).written loaded laid run (cacheable_local (one inside related) cacheable).2
      member missed found
  · obtain ⟨after,inBatch,related⟩ := exists_right prefilled inside
    obtain ⟨missed,cacheable⟩ := (chosen related seg).mp member
    have lastAfter : some seg = after.lastSeg := by rw [last,Req.lastSeg,Req.lastSeg,(prefilled_match related).picSegments]
    obtain ⟨slot,found,placed⟩ := inserted inside inBatch related missed cacheable
    obtain ⟨entry,inserts,rfl⟩ := placed (Or.inl lastAfter)
    obtain ⟨result,run,persists⟩ := forwardExtendPic_persists decay rope (fun _ _ => 0) maxSegments loaded laid
      (⟨fun _ => unit,fun _ => none⟩ : SegLaCache S)
    have state := written _ _ result run after inBatch 0 _ seg entry inserts
    rw [persists.last after inBatch seg lastAfter _ found,canonicalState,segLaFwd_still] at state
    -- a lone segment starts at zero, where nothing is rotated
    have start : seg.1 = 0 := by
      have consecutive := (loaded after inBatch).matched.consecutive
      rw [(cacheable_local (one inside related) cacheable).2 lastAfter] at consecutive
      exact consecutive.1
    rw [start,derotateToCanonical,if_pos (Or.inr rfl)] at state
    exact unit_ne_zero injective Nat.one_pos ((one_smul Nat unit).trans state)
  · obtain ⟨before,inside,related⟩ := exists_left prefilled member
    obtain ⟨missed,cacheable,found⟩ := inserts_slot inserts
    have kept := inner before inside seg ((chosen related seg).mpr ⟨missed,cacheable⟩)
    obtain ⟨other,ran,persists⟩ := forwardExtendPic_persists decay rope inputs maxSegments loaded laid cache
    obtain rfl : result = other := Option.some.inj (run.symm.trans ran)
    refine persists.cached after member seg missed ?_ _ found
    rwa [Req.lastSeg,(prefilled_match related).picSegments]
end Cached

section Runs
/-- A batch of one request, allocated with the segment `[1,2]` in the cache. -/
def prefillOnce (args : ServerArgs (List Token)) (parts : List (List Token)) : Option (Extended (List Token)) :=
  (warmPass args parts).bind fun final => picAllocForExtend args final.pools final.canRunList

/-- A layer whose slots all hold the state of something else. -/
def staleCache : LayerCache ℤ ℤ ℤ := ⟨fun _ => 7,fun _ => 1,fun _ => []⟩

theorem cached_states_written_iff_warmPass : ∃ final, warmPass (plainArgs .transition (-1)) [[1,2],[4],[5,6]] = some final ∧
    ∃ extended, picAllocForExtend (plainArgs .transition (-1)) final.pools final.canRunList = some extended ∧
      final.canRunList.map (Ownership.cacheable (plainArgs .transition (-1))) = [[(2,3)]] ∧
      (∀ (cache : LayerCache ℤ ℤ ℤ) (result : Forwarded ℤ ℤ ℤ),
        forwardExtendPic countInputs (plainArgs .transition (-1)) 3 extended.reqs cache = some result →
        ∀ req ∈ extended.reqs, ∀ now pools seg entry,
          Inserts (plainArgs .transition (-1)) now (cachingStart req pools) req.picMissSegments seg entry →
            Written (plainArgs .transition (-1)) 3 result.cache entry.mambaStateSlot (segTokens countInputs req seg)) ∧
      ∀ (cache : SegLaCache ℤ) (result : SegLaCache ℤ × (Nat → ℤ)),
        Lightning.forwardExtendPic (plainArgs .transition (-1)) (2 : ℤ) ⟨true,fun state delta => state * delta⟩ 64 (fun _ _ => 1)
          extended.reqs cache = some result →
        ∀ req ∈ extended.reqs, ∀ now pools seg entry,
          Inserts (plainArgs .transition (-1)) now (cachingStart req pools) req.picMissSegments seg entry →
            result.1.ssmStates entry.mambaStateSlot =
              canonicalState (2 : ℤ) ⟨true,fun state delta => state * delta⟩ (fun _ _ => 1) req seg := by
  obtain ⟨final,passed,extended,executed,distinct,flags,cacheable,last⟩ : ∃ final ∈ warmPass (plainArgs .transition (-1)) [[1,2],[4],[5,6]],
      ∃ extended ∈ picAllocForExtend (plainArgs .transition (-1)) final.pools final.canRunList,
        final.pools.ledger.2.Nodup ∧ (∀ req ∈ final.canRunList, req.picScatterSingleSeg = false) ∧
        final.canRunList.map (Ownership.cacheable (plainArgs .transition (-1))) = [[(2,3)]] ∧
        ∀ req ∈ final.canRunList, req.lastSeg = some (3,5) := by decide +kernel
  refine ⟨final,passed,extended,executed,cacheable,?_⟩
  have inner : ∀ req ∈ final.canRunList, ∀ seg ∈ Ownership.cacheable (plainArgs .transition (-1)) req, some seg ≠ req.lastSeg := by
    intro req member seg listed
    have only := mem_map_of_mem member (f := Ownership.cacheable (plainArgs .transition (-1)))
    rw [cacheable,mem_singleton] at only
    rw [only,mem_singleton] at listed
    rw [last req member,listed]
    decide
  obtain ⟨gdn,lightning⟩ := cached_states_written_iff (X := ℤ) 3 64 (2 : ℤ) ⟨true,fun state delta => state * delta⟩ final.pools
    final.canRunList extended (warmPass_scheduled _ _ (by decide) passed) (fun req member flag => by rw [flags req member] at flag; cases flag)
    distinct executed ⟨(1 : ℤ),fun left right equal => by simpa using equal⟩
  exact ⟨gdn.mpr (fun req member seg listed => ⟨nofun,nofun⟩) countInputs,lightning.mpr inner fun _ _ => 1⟩

set_option synthInstance.maxSize 256 in
/-- Entries with a state that is not their segment's. A lone segment is cached, but neither seam recompute of the GDN layer nor any
    mode of the SegLA layer writes it back. In addition mode the first miss behind a hit is written back with the hit's state in it. -/
theorem cached_states_unwritten :
    (∃ extended ∈ prefillOnce (seamArgs 0) [[4,5]], ∃ result ∈ forwardExtendPic countInputs (seamArgs 0) 3 extended.reqs staleCache,
      ∀ req ∈ extended.reqs, ∃ cached ∈ cacheUnfinishedReq (seamArgs 0) 5 req extended.pools,
        ∃ entry ∈ cached.2.cache.entries.get? [4,5],
          result.cache.temporal entry.mambaStateSlot = 7 ∧ fwdH (segTokens countInputs req (0,2)) 0 = 2) ∧
    (∃ extended ∈ prefillOnce (plainArgs .transition (-1)) [[4,5]],
      ∃ result ∈ Lightning.forwardExtendPic (plainArgs .transition (-1)) (1 : ℤ) ⟨false,fun state _ => state⟩ 64 (fun _ _ => (1 : ℤ))
        extended.reqs ⟨fun _ => 7,fun _ => none⟩,
      ∀ req ∈ extended.reqs, ∃ cached ∈ cacheUnfinishedReq (plainArgs .transition (-1)) 5 req extended.pools,
        ∃ entry ∈ cached.2.cache.entries.get? [4,5], result.1.ssmStates entry.mambaStateSlot = 7 ∧
          canonicalState (1 : ℤ) ⟨false,fun state _ => state⟩ (fun _ _ => (1 : ℤ)) req (0,2) = 2) ∧
    ∃ extended ∈ prefillOnce (plainArgs .addition (-1)) [[1,2],[4,5],[6]],
      ∃ result ∈ forwardExtendPic countInputs (plainArgs .addition (-1)) 3 extended.reqs staleCache,
      ∀ req ∈ extended.reqs, ∃ cached ∈ cacheUnfinishedReq (plainArgs .addition (-1)) 5 req extended.pools,
        ∃ entry ∈ cached.2.cache.entries.get? [4,5],
          result.cache.temporal entry.mambaStateSlot = 9 ∧ fwdH (segTokens countInputs req (2,4)) 0 = 2 := by decide +kernel
end Runs

end Hypic.Persist
