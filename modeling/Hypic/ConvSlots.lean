import Hypic.ConvTails

/-! The slots in which the rows of one convolution call run. They are written in place, so two rows must not share one
    and none may belong to a cached segment. -/

namespace Hypic.ConvSlots
open Policy Cache Request Alloc Runs Forward Gdn Recompute ConvTails List
universe u
variable {Hash : Type u} [DecidableEq Hash]

section Plan

/-- `phys_seg_conv_slots` of one request: the slot of every segment at which a convolution row ends. -/
def physConvSegs (req : Req Hash) : Bool → List (Seg × Option Hash) → Builder → Option (List Slot × Builder)
  | _, [], builder => some ([],builder)
  | isFirst, item::rest, builder =>
    (planSeg req isFirst rest.isEmpty item builder).bind fun planned =>
      (physConvSegs req false rest planned.2).map fun later =>
        ((if builder.physSegLengths.length < planned.2.physSegLengths.length then [planned.1.mambaSlot] else []) ++ later.1,later.2)

def physConvReqs : Nat → List (Req Hash) → Builder → Option (List Slot)
  | _, [], _ => some []
  | offset, req::rest, builder =>
    (physConvSegs req true (ordered req) { builder with curPhysStart := offset, tokCursor := offset }).bind fun planned =>
      (physConvReqs (offset + (absPosSorted req).length) rest planned.2).map fun later => planned.1 ++ later

/-- `_pic_phys_seg_conv_indices` -/
def physSegConvIndices (batch : List (Req Hash)) : Option (List Slot) := physConvReqs 0 batch ⟨[],[],[],[],0,0⟩

/-- The `cache_indices` of the convolution call, by mode. -/
def convCacheIndices (args : ServerArgs Hash) (batch : List (Req Hash)) : Option (List Slot) :=
  if args.recompute then physSegConvIndices batch
  else (segMetadata (!args.isTransition) batch).map fun plan => plan.2.segConvIndices
end Plan

section Rows
variable {args : ServerArgs Hash}

theorem addSeg_grows {builder : Builder} (aligned : Aligned builder) (length : Nat) (slot : Option Slot) :
    builder.physSegLengths.length < (addSeg builder length slot).physSegLengths.length ↔ length ≠ 0 := by
  by_cases none : length = 0
  · simp [addSeg,none]
  · simp [addSeg,none,aligned.lengths]

variable {req : Req Hash}

theorem physConvSegs_spec (loaded : Loaded args req) (isFirst : Bool) (items : List (Seg × Option Hash))
    (builder : Builder) (aligned : Aligned builder) (suffix : items.map Prod.fst <:+ req.picSegments)
    (members : ∀ item ∈ items, item ∈ ordered req) (whole : isFirst = true → items.map Prod.fst = req.picSegments) :
    ∃ slots final, physConvSegs req isFirst items builder = some (slots,final) ∧ Aligned final ∧
      slots.map some = (rowItems req items).map (segSlot req) := by
  induction items generalizing isFirst builder with
  | nil => exact ⟨[],builder,rfl,aligned,rfl⟩
  | cons item rest ih =>
    obtain ⟨entry,slot,here,-,segSlot,-⟩ := planSeg_spec loaded isFirst aligned suffix (members item mem_cons_self)
      fun isFirst => by rw [← whole isFirst]; rfl
    obtain ⟨slots,final,executed,kept,same⟩ := ih false (addSeg builder (rowPositions req item).length slot)
      (addSeg_aligned aligned _ slot) ((suffix_cons ..).trans suffix) (forall_mem_cons.mp members).2
      nofun
    refine ⟨_,final,by rw [physConvSegs,here,bind_some,executed,map_some],kept,?_⟩
    simp only [addSeg_grows aligned,map_append,same,ne_eq,length_eq_zero_iff]
    by_cases none : rowPositions req item = []
    · simp [rowItems,none]
    · simp [rowItems,none,segSlot]

theorem physConvReqs_spec (offset : Nat) (batch : List (Req Hash)) (builder : Builder) (loaded : AllLoaded args batch)
    (lengths : builder.physSegLengths = builder.computeSegLengths) (persist : builder.physPersist = builder.computePersist) :
    ∃ slots, physConvReqs offset batch builder = some slots ∧ slots.map some = (batchRows batch).map fun row => segSlot row.1 row.2 := by
  induction batch generalizing offset builder with
  | nil => exact ⟨[],rfl,rfl⟩
  | cons req rest ih =>
    have here := loaded req mem_cons_self
    have segs := ordered_segs here.matched.toPartitioned
    obtain ⟨mine,middle,executed,aligned,same⟩ := physConvSegs_spec here true (ordered req)
      { builder with curPhysStart := offset, tokCursor := offset } ⟨rfl,lengths,persist⟩ (by rw [segs]) (fun _ member => member)
      fun _ => segs
    obtain ⟨later,finished,sameLater⟩ := ih (offset + (absPosSorted req).length) middle
      (forall_mem_cons.mp loaded).2 aligned.lengths aligned.persist
    refine ⟨mine ++ later,by rw [physConvReqs,executed,bind_some,finished,map_some],?_⟩
    rw [map_append,same,sameLater,batchRows,batchRows,flatMap_cons,map_append,map_map]
    rfl

theorem tagged_nodup {α β : Type*} {owners : List α} (items : α → List β) (distinct : owners.Nodup)
    (once : ∀ owner ∈ owners, (items owner).Nodup) : (owners.flatMap fun owner => (items owner).map fun item => (owner,item)).Nodup := by
  refine nodup_flatMap.mpr ⟨fun owner member => ?_,distinct.imp fun {left right} differ => ?_⟩
  · exact (once owner member).map fun left right same => (Prod.mk.inj same).2
  · intro row mine theirs
    obtain ⟨item,-,rfl⟩ := mem_map.mp mine
    obtain ⟨other,-,same⟩ := mem_map.mp theirs
    exact differ (Prod.mk.inj same).1.symm

variable {batch : List (Req Hash)}

theorem missRows_nodup (loaded : AllLoaded args batch) (laid : Laid batch) : (missRows batch).Nodup := by
  refine tagged_nodup Req.picMissSegments laid.indices_nodup.of_map fun req member => ?_
  exact (loaded req member).matched.misses.nodup (loaded req member).matched.consecutive.nodup

theorem batchRows_nodup (loaded : AllLoaded args batch) (laid : Laid batch) : (batchRows batch).Nodup := by
  refine tagged_nodup (fun req => rowItems req (ordered req)) laid.indices_nodup.of_map fun req member => List.Nodup.filter _ ?_
  refine .of_map Prod.fst ?_
  rw [ordered_segs (loaded req member).matched.toPartitioned]
  exact (loaded req member).matched.consecutive.nodup

theorem mem_batchRows {item : Seg × Option Hash} :
    (req,item) ∈ batchRows batch ↔ req ∈ batch ∧ item ∈ ordered req ∧ rowPositions req item ≠ [] := by
  simp [batchRows,rowItems]

/-- Different slots, none of which a cached entry refers to. -/
def Exclusive (cache : PICache Hash) (slots : List Slot) : Prop :=
  slots.Nodup ∧ ∀ slot ∈ slots, ∀ segHash entry, cache.entries.get? segHash = some entry → entry.mambaStateSlot ≠ slot

variable {pools : Pools Hash}

theorem exclusive_of_own (uncached : ∀ slot ∈ batch.flatMap ownSlots, slot ∉ pools.ledger.2)
    {slots : List Slot} (once : slots.Nodup) (own : slots ⊆ batch.flatMap ownSlots) : Exclusive pools.cache slots := by
  refine ⟨once,fun slot member segHash entry cached same => ?_⟩
  exact uncached slot (own member) (same ▸ cached_ledger cached)

/-- The addition and transition modes: the metadata exists and the rows have slots of their own exactly when every miss does. -/
theorem segConv_exclusive_iff (loaded : AllLoaded args batch) (laid : Laid batch)
    (uncached : ∀ slot ∈ batch.flatMap ownSlots, slot ∉ pools.ledger.2) :
    (∃ plan, segMetadata (!args.isTransition) batch = some plan ∧ Exclusive pools.cache plan.2.segConvIndices) ↔
      ∀ req ∈ batch, ∀ seg ∈ req.picMissSegments, ((picMissMambaSlots req).get? seg).isSome := by
  simp only [segMetadata,initConvMetadata_rows (!args.isTransition) loaded,map_some]
  constructor
  · rintro ⟨⟨plan,conv⟩,executed,once,-⟩
    obtain ⟨seg,planned,same⟩ := bind_eq_some_iff.mp executed
    obtain ⟨rfl,rfl⟩ := Prod.mk.inj (Option.some.inj same)
    cases transition : args.isTransition with
    | true =>
      rw [transition] at planned
      exact (initPicMetadata_isSome 0 batch loaded).mp (isSome_iff_exists.mpr ⟨_,planned⟩)
    | false =>
      rw [transition] at once
      intro req member seg missed
      by_contra absent
      rw [not_isSome_iff_eq_none] at absent
      -- the slotless miss and the last segment are two rows in the request's slot
      have inner := ((slotless (loaded req member) missed).mp absent).2.1
      have lastSeg := lastMiss (loaded req member).matched.toPartitioned
      cases final : req.lastSeg with
      | none =>
        rw [final,getLast?_eq_none_iff] at lastSeg
        rw [lastSeg] at missed
        cases missed
      | some last =>
        have lastMissed := (loaded req member).matched.last last final
        obtain ⟨mine,lasts⟩ := slotless_shares missed inner absent lastMissed final
        have same := inj_on_of_nodup_map once (mem_missRows.mpr ⟨member,missed⟩) (mem_missRows.mpr ⟨member,lastMissed⟩)
          (mine.trans lasts.symm)
        exact inner (by rw [(Prod.mk.inj same).2,final])
  · intro stated
    obtain ⟨plan,planned⟩ : ∃ plan, initPicMetadata (!args.isTransition) 0 batch = some plan := by
      refine isSome_iff_exists.mp ?_
      cases args.isTransition with
      | false => exact initPicMetadata_addition 0 batch loaded
      | true => exact (initPicMetadata_isSome 0 batch loaded).mpr stated
    refine ⟨(plan,_),by rw [planned,bind_some],exclusive_of_own uncached ?_ ?_⟩
    · refine (missRows_nodup loaded laid).map_on fun row listed other otherListed same => ?_
      obtain ⟨member,missed⟩ := mem_missRows.mp listed
      obtain ⟨otherMember,otherMissed⟩ := mem_missRows.mp otherListed
      obtain ⟨sameReq,sameSeg⟩ := (rowSlot_rowIn _ row.1 row.2).unique laid member otherMember (same ▸ rowSlot_rowIn _ other.1 other.2)
        (stated row.1 member row.2 missed) (stated other.1 otherMember other.2 otherMissed)
      exact Prod.ext sameReq sameSeg
    · intro slot member
      obtain ⟨row,listed,rfl⟩ := mem_map.mp member
      exact mem_flatMap.mpr ⟨row.1,(mem_missRows.mp listed).1,(rowSlot_rowIn _ row.1 row.2).own⟩

theorem segSlot_rowIn {seg : Seg} {slot : Slot} (found : segSlot req (seg,none) = some slot) : RowIn req seg slot := by
  have same := Option.some.inj found
  by_cases last : some seg = req.lastSeg
  · rw [if_pos last] at same
    exact .inr ⟨same.symm,.inr last⟩
  · rw [if_neg last] at same
    cases known : (picMissMambaSlots req).get? seg with
    | none => exact .inr ⟨by rw [← same,known,getD_none],.inl known⟩
    | some own => exact .inl (by rw [known,← same,known,getD_some])

/-- Seam recompute: the rows have slots of their own exactly when no hit has a seam. A seam runs in the slot of its entry. -/
theorem physConv_exclusive_iff (loaded : AllLoaded args batch) (laid : Laid batch)
    (rope : args.rope = true) (uncached : ∀ slot ∈ batch.flatMap ownSlots, slot ∉ pools.ledger.2)
    (hits : ∀ req ∈ batch, ∀ slot ∈ (picHitMambaSlots req).values, ∃ segHash entry, pools.cache.entries.get? segHash = some entry ∧
      entry.mambaStateSlot = slot) :
    (∃ slots, physSegConvIndices batch = some slots ∧ Exclusive pools.cache slots) ↔ ∀ req ∈ batch, req.picHitSeamPositions = .empty := by
  obtain ⟨slots,executed,rows⟩ := physConvReqs_spec 0 batch ⟨[],[],[],[],0,0⟩ loaded rfl rfl
  have ofRow {req : Req Hash} {item : Seg × Option Hash} {slot : Slot} (listed : (req,item) ∈ batchRows batch)
      (found : segSlot req item = some slot) : slot ∈ slots := by
    have member := mem_map_of_mem (f := fun row => segSlot row.1 row.2) listed
    rw [← rows,found] at member
    simpa using member
  constructor
  · rintro ⟨indices,same,-,exclusive⟩ req member
    obtain rfl : slots = indices := Option.some.inj (executed.symm.trans same)
    refine Dict.eq_empty fun seg => ?_
    cases seam : req.picHitSeamPositions.get? seg with
    | none => rfl
    | some positions =>
      obtain ⟨hit,-,width,range,positive,-⟩ := (loaded req member).seamed seg positions seam
      obtain ⟨⟨other,segHash⟩,listed,rfl⟩ := mem_map.mp hit
      obtain ⟨slot,found⟩ := (loaded req member).hitSlot listed
      have forwarded : rowPositions req (other,some segHash) ≠ [] := by
        simp only [rowPositions,isSome_some,if_true,seam,getD_some,range,ne_eq,List.range'_eq_nil_iff]
        omega
      have inRows := ofRow (mem_batchRows.mpr ⟨member,mem_ordered_hit.mpr listed,forwarded⟩) found
      obtain ⟨key,entry,cached,same⟩ := hits req member slot (Dict.mem_values_of_get? found)
      exact absurd same (exclusive slot inRows key entry cached)
  · intro plain
    have isMiss {req : Req Hash} {item : Seg × Option Hash} (listed : (req,item) ∈ batchRows batch) : item.2 = none := by
      obtain ⟨member,-,forwarded⟩ := mem_batchRows.mp listed
      by_contra hit
      refine forwarded ?_
      rw [rowPositions,if_pos (Option.isSome_iff_ne_none.mpr hit),plain req member,Dict.get?_empty,getD_none]
    have inRow : ∀ row ∈ batchRows batch, ∃ slot, segSlot row.1 row.2 = some slot ∧ RowIn row.1 row.2.1 slot ∧
        ((picMissMambaSlots row.1).get? row.2.1).isSome := by
      rintro ⟨req,⟨seg,kind⟩⟩ listed
      obtain ⟨member,inside,-⟩ := mem_batchRows.mp listed
      obtain rfl : kind = none := isMiss listed
      refine ⟨_,rfl,segSlot_rowIn rfl,((loaded req member).missSlot (mem_ordered_miss.mp inside)).mpr ?_⟩
      rw [rope]
      rintro ⟨absent,-⟩
      cases absent
    refine ⟨slots,executed,exclusive_of_own uncached (List.Nodup.of_map some ?_) fun slot member => ?_⟩
    · rw [rows]
      refine (batchRows_nodup loaded laid).map_on fun row listed other otherListed same => ?_
      obtain ⟨slot,found,mine,stated⟩ := inRow row listed
      obtain ⟨otherSlot,otherFound,theirs,otherStated⟩ := inRow other otherListed
      obtain rfl : slot = otherSlot := Option.some.inj (found.symm.trans (same.trans otherFound))
      obtain ⟨sameReq,sameSeg⟩ := mine.unique laid (mem_batchRows.mp listed).1 (mem_batchRows.mp otherListed).1 theirs stated otherStated
      exact Prod.ext sameReq (Prod.ext sameSeg ((isMiss listed).trans (isMiss otherListed).symm))
    · have listed := mem_map_of_mem (f := some) member
      rw [rows] at listed
      obtain ⟨row,inside,same⟩ := mem_map.mp listed
      obtain ⟨own,found,mine,-⟩ := inRow row inside
      obtain rfl : own = slot := Option.some.inj (found.symm.trans same)
      exact mem_flatMap.mpr ⟨row.1,(mem_batchRows.mp inside).1,mine.own⟩

/-- The slots of one convolution call over an allocated batch: the metadata exists, and its rows share no slot with each
    other or with a cached entry, exactly when no short miss was left without a slot and no hit has a seam. -/
theorem conv_slots_exclusive_iff (pools : Pools Hash) (reqs : List (Req Hash)) (extended : Extended Hash)
    (scheduled : ∀ req ∈ reqs, Scheduled args pools req) (distinct : pools.ledger.2.Nodup)
    (executed : picAllocForExtend args pools reqs = some extended) :
    (∃ slots, convCacheIndices args extended.reqs = some slots ∧ Exclusive extended.pools.cache slots) ↔
      Stateful args reqs ∧ ∀ req ∈ reqs, req.picHitSeamPositions = .empty := by
  obtain ⟨loaded,laid⟩ := picAllocForExtend_laid scheduled distinct executed
  obtain ⟨-,uncached⟩ := picAllocForExtend_own scheduled distinct executed
  obtain ⟨prefilled,-⟩ := scheduled_spec scheduled executed
  by_cases recompute : args.recompute = true
  · have rope : args.rope = true := args.picMode.recompute_rope recompute
    have stateful : Stateful args reqs := fun req member seg missed plain => absurd (rope.symm.trans plain) nofun
    have seams : (∀ req ∈ extended.reqs, req.picHitSeamPositions = .empty) ↔ ∀ req ∈ reqs, req.picHitSeamPositions = .empty := by
      constructor
      · intro plain req member
        obtain ⟨after,inside,related⟩ := exists_right prefilled member
        exact (prefilled_match related).picHitSeamPositions.symm.trans (plain after inside)
      · intro plain req member
        obtain ⟨before,inside,related⟩ := exists_left prefilled member
        exact (prefilled_match related).picHitSeamPositions.trans (plain before inside)
    rw [convCacheIndices,if_pos recompute,and_iff_right stateful,← seams]
    exact physConv_exclusive_iff loaded laid rope uncached fun req member slot read =>
      picAllocForExtend_hits scheduled executed member read
  · have plain : args.recompute = false := by simpa using recompute
    have noSeams : ∀ req ∈ reqs, req.picHitSeamPositions = .empty := fun req member => (scheduled req member).seams plain
    rw [convCacheIndices,if_neg recompute,and_iff_left noSeams,← prefilled_stateful prefilled loaded,
      ← segConv_exclusive_iff loaded laid uncached]
    simp only [map_eq_some_iff,exists_exists_and_eq_and]
end Rows

section Runs
/-- Without seams the recompute rows have slots of their own. -/
theorem conv_slots_exclusive_iff_warmPass : ∃ final, warmPass (seamArgs 0) [[4],[1,2],[5,6]] = some final ∧
    ∃ extended, picAllocForExtend (seamArgs 0) final.pools final.canRunList = some extended ∧
      (extended.reqs.map fun req => req.picHitSegments.map Prod.fst) = [[(1,3)]] ∧
      ∃ slots, convCacheIndices (seamArgs 0) extended.reqs = some slots ∧ Exclusive extended.pools.cache slots := by
  obtain ⟨final,passed,extended,executed,distinct,plain,hits⟩ := warmPass_seamless
  refine ⟨final,passed,extended,executed,hits,?_⟩
  refine (conv_slots_exclusive_iff final.pools final.canRunList extended (warmPass_scheduled _ _ (by decide) passed) distinct
    executed).mpr ⟨?_,fun req member => Dict.ext (plain req member)⟩
  intro req member seg missed plain
  cases plain

/-- A hit `[1,2]` behind a miss, its first token recomputed: that row convolves in the slot of the cached entry. -/
theorem seam_runs_in_cached_slot : ∃ final ∈ warmPass (seamArgs 1) [[4],[1,2],[5,6]],
    ∃ extended ∈ picAllocForExtend (seamArgs 1) final.pools final.canRunList, ∃ slots ∈ convCacheIndices (seamArgs 1) extended.reqs,
      ∃ entry ∈ extended.pools.cache.entries.get? [1,2], entry.mambaStateSlot ∈ slots := by decide +kernel
end Runs

end Hypic.ConvSlots
