import Hypic.Recompute
import Hypic.Refill

/-! Rows, positions and slots of a prefill batch. Every position of a prompt has its slot in the request's row, and the
    forwarded tokens are stored in the slots of their positions. -/

namespace Hypic.Placement
open Policy Allocator Cache Request Alloc Runs Release Custody Capacity Scheduler Ownership Forward Admission Rows Refill List
universe u
variable {Hash : Type u} [DecidableEq Hash]

section Batch
variable {args : ServerArgs Hash}

/-- KV slots that allocation has taken from the pool for the request. -/
def freshSlots (req : Req Hash) : List Slot :=
  (req.picMissSegmentSlots.values.flatMap fun miss => miss.kv ++ miss.pub.getD []) ++ hitPrivate req

/-- Slots of a hit that the request's row points at: its private copy in rope modes, else the entry's own. -/
def hitKv (args : ServerArgs Hash) (req : Req Hash) (hit : Seg × Hash) : List Slot :=
  if args.rope then ((req.picRopeHitPrivateSlots.get? hit.1).map Prod.fst).getD []
  else ((req.picSegmentEntries.get? hit.2).map SegmentEntry.fullKvSlots).getD []

/-- The row holds the slot that the position's segment has at the position's offset. -/
def Written (args : ServerArgs Hash) (req : Req Hash) (pos : Nat) : Prop :=
  (∃ seg ∈ req.picMissSegments, seg.1 ≤ pos ∧ pos < seg.2 ∧ (missKv req seg)[pos - seg.1]? = some (req.reqToToken pos)) ∨
    ∃ hit ∈ req.picHitSegments, hit.1.1 ≤ pos ∧ pos < hit.1.2 ∧ (hitKv args req hit)[pos - hit.1.1]? = some (req.reqToToken pos)

/-- Rows, positions and slots of an allocated batch line up. -/
structure LinedUp (args : ServerArgs Hash) (extended : Extended Hash) : Prop where
  slots : extended.outCacheLoc = extended.reqs.flatMap fun req => req.picMissTokenPositions.map req.reqToToken
  sorted : ∀ req ∈ extended.reqs, req.picMissTokenPositions.Pairwise (· < ·)
  written : ∀ req ∈ extended.reqs, ∀ pos < req.originInputIds.length, Written args req pos
  fresh : (extended.reqs.flatMap freshSlots).Nodup
  hits : args.rope = false → ∀ req ∈ extended.reqs, ∀ hit ∈ req.picHitSegments,
    ∃ entry, req.picSegmentEntries.get? hit.2 = some entry ∧
      ∀ pos, hit.1.1 ≤ pos → pos < hit.1.2 → entry.fullKvSlots[pos - hit.1.1]? = some (req.reqToToken pos)

theorem given_slots (rope : Bool) (req : Req Hash) : (givenHolding rope req).1 = ↑(freshSlots req) := by
  have misses (items : List (Seg × MissSlots)) : ((items.map (missHolding rope [])).sum).1 =
      ↑((items.map Prod.snd).flatMap fun miss : MissSlots => miss.kv ++ miss.pub.getD []) := by
    induction items with
    | nil => rfl
    | cons item rest ih =>
      rw [map_cons,sum_cons,Prod.fst_add,ih,map_cons,flatMap_cons]
      simp [missHolding,← coe_add,add_assoc]
  rw [givenHolding,Prod.fst_add,kvHolding_fst,freshSlots,← coe_add]
  exact congrArg (· + _) (misses req.picMissSegmentSlots.items)

variable {reqs : List (Req Hash)} {pools : Pools Hash}

theorem picAllocForExtend_fresh {extended : Extended Hash}
    (scheduled : ∀ req ∈ reqs, Scheduled args pools req) (distinct : pools.ledger.1.Nodup)
    (executed : picAllocForExtend args pools reqs = some extended) : (extended.reqs.flatMap freshSlots).Nodup := by
  obtain ⟨prefilled,-,ledger⟩ := scheduled_spec scheduled executed
  have own : ((extended.reqs.map (held args.rope)).sum).1 = ↑(extended.reqs.flatMap freshSlots) := by
    have each : ∀ req ∈ extended.reqs, (held args.rope req).1 = ↑(freshSlots req) := by
      intro req member
      obtain ⟨before,inside,related⟩ := exists_left prefilled member
      rw [held_prefilled related (scheduled before inside).fresh,Prod.fst_add,given_slots,mambaHolding_fst,add_zero]
    generalize extended.reqs = batch at each
    induction batch with
    | nil => rfl
    | cons req rest ih =>
      rw [map_cons,sum_cons,Prod.fst_add,each req mem_cons_self,
        ih (forall_mem_cons.mp each).2,flatMap_cons,coe_add]
  rw [ledger,Prod.fst_add,own,Multiset.nodup_add] at distinct
  exact Multiset.coe_nodup.mp distinct.1

variable {req : Req Hash}

private theorem misses_slots {segs : List Seg} (rows : ∀ seg ∈ segs, RowIs req seg (missKv req seg)) :
    segs.flatMap (missKv req) = (segs.flatMap fun seg => List.range' seg.1 (seg.2 - seg.1)).map req.reqToToken := by
  rw [map_flatMap]
  exact flatMap_congr fun seg member => (rows seg member).slice.symm

theorem picAllocForExtend_slots {extended : Extended Hash}
    (scheduled : ∀ req ∈ reqs, Scheduled args pools req) (executed : picAllocForExtend args pools reqs = some extended) :
    extended.outCacheLoc = extended.reqs.flatMap fun req => req.picMissTokenPositions.map req.reqToToken := by
  obtain ⟨done,slotted,funded,slots,start,last,walks,totalTokens,run,out⟩ := picAllocForExtend_run executed
  have ready : ∀ req ∈ reqs, Matched args req ∧ Unallocated req :=
    fun req member => ⟨(scheduled req member).matched,(scheduled req member).fresh⟩
  obtain ⟨assigned,-⟩ := allocReqSlots_spec (fun req member => (ready req member).2) run.rows
  have positioned : ∀ req ∈ done, Positioned req := by
    intro req member
    obtain ⟨before,inside,row,slot,rfl⟩ := exists_left assigned member
    have known := positioned_of_seamed (scheduled before inside).seamed (scheduled before inside).positions
    exact ⟨known.seams,known.positions⟩
  obtain ⟨allocated,-,-,-,placed,taken⟩ := allocReqs_served (assigned_ready assigned ready) run.left run.walked
  obtain ⟨outCacheLoc,rfl⟩ := run.finish
  change outCacheLoc = (walks.map Walk.req).flatMap _
  unfold OutOf at out
  split at out
  · rename_i recompute
    rw [slotsAtPositions_rows (PICMode.recompute_rope _ recompute) positioned allocated placed] at out
    exact (Option.some.inj out).symm
  · rename_i plain
    refine out.trans (taken.trans ?_)
    rw [flatMap_map]
    refine flatMap_congr fun walk member => ?_
    obtain ⟨req,inside,related⟩ := exists_left allocated (mem_map_of_mem member)
    rw [misses_slots fun seg missed => related.missRow (related.frame.picMissSegments ▸ missed)]
    obtain ⟨before,waiting,row,slot,rfl⟩ := exists_left assigned inside
    have same := (congrArg Req.picMissTokenPositions related.frame).trans (scheduled before waiting).positions
    rw [same,(scheduled before waiting).seams (by simpa using plain),related.frame.picMissSegments,missTokenPositions]
    rfl

theorem hit_row {before after : Req Hash} (scheduled : Scheduled args pools before)
    (sized : args.rope = false → Sized pools.cache) (prefilled : Prefilled args before after) (plain : args.rope = false)
    {hit : Seg × Hash} (listed : hit ∈ after.picHitSegments) : ∃ entry, after.picSegmentEntries.get? hit.2 = some entry ∧
      ∀ pos, hit.1.1 ≤ pos → pos < hit.1.2 → entry.fullKvSlots[pos - hit.1.1]? = some (after.reqToToken pos) := by
  have same := prefilled_match prefilled
  obtain ⟨assigned,⟨row,slot,rfl⟩,allocated⟩ := prefilled
  rw [same.picHitSegments] at listed
  obtain ⟨-,-,entry,found,ids⟩ := scheduled.matched.found hit.1 hit.2 listed
  have length : entry.fullKvSlots.length = hit.1.2 - hit.1.1 := by
    have inside := scheduled.matched.hits.subset (mem_map_of_mem (f := Prod.fst) listed)
    rw [sized plain _ entry (scheduled.held _ _ found),ids,
      segmentIds_length _ _ (scheduled.matched.consecutive.mem_bounds inside).2.2]
  have written := allocated.hits hit listed
  rw [HitRow,if_neg (by simp [plain])] at written
  obtain ⟨other,referred,each⟩ := written
  rw [same.picSegmentEntries,found] at referred
  obtain rfl := Option.some.inj referred
  exact ⟨entry,same.picSegmentEntries ▸ found,fun pos lower upper => RowIs.get ⟨length,each⟩ lower upper⟩

theorem seamsApart_of_loaded (loaded : Loaded args req) :
    SeamsApart req.picSegments req.picMissSegments req.picHitSeamPositions := by
  intro seg positions found
  obtain ⟨hit,-,width,rfl,-,short⟩ := loaded.seamed seg positions found
  exact ⟨loaded.matched.hits.subset hit,fun missed => loaded.matched.exclusive seg missed hit,width,rfl,short⟩

/-- A prefill batch that the pools can serve is allocated, and its rows, positions and slots line up. -/
theorem rows_positions_slots (pools : Pools Hash) (reqs : List (Req Hash)) (scheduled : ∀ req ∈ reqs, Scheduled args pools req)
    (distinct : pools.ledger.1.Nodup) (sized : args.rope = false → Sized pools.cache) :
    ((picAllocForExtend args pools reqs).isSome ↔ reqs.length ≤ pools.reqSlots.length ∧
      reqs.length + (reqs.map (mambaMisses args)).sum ≤ mambaCapacity pools ∧ kvNeed args reqs ≤ kvCapacity pools) ∧
    ∀ extended, picAllocForExtend args pools reqs = some extended → LinedUp args extended := by
  have ready : ∀ req ∈ reqs, Matched args req ∧ Unallocated req :=
    fun req member => ⟨(scheduled req member).matched,(scheduled req member).fresh⟩
  refine ⟨picAllocForExtend_isSome pools reqs ready fun _ req member =>
    positioned_of_seamed (scheduled req member).seamed (scheduled req member).positions,fun extended executed => ?_⟩
  obtain ⟨prefilled,-⟩ := picAllocForExtend_spec ready executed
  refine ⟨picAllocForExtend_slots scheduled executed,?_,?_,picAllocForExtend_fresh scheduled distinct executed,?_⟩
  · intro req member
    obtain ⟨before,inside,related⟩ := exists_left prefilled member
    have loaded := prefilled_loaded related (scheduled before inside)
    rw [loaded.positions]
    exact (missTokenPositions_increasing loaded.matched.consecutive loaded.matched.misses (seamsApart_of_loaded loaded)).1
  · intro req member pos bound
    obtain ⟨before,inside,related⟩ := exists_left prefilled member
    have loaded := prefilled_loaded related (scheduled before inside)
    have same := prefilled_match related
    obtain ⟨assigned,-,allocated⟩ := id related
    obtain ⟨seg,listed,lower,upper⟩ := loaded.matched.consecutive.covers (Nat.zero_le pos) bound
    rcases loaded.matched.cover seg listed with missed | cached
    · refine Or.inl ⟨seg,missed,lower,upper,?_⟩
      exact (allocated.missRow (allocated.frame.picMissSegments ▸ missed)).get lower upper
    · obtain ⟨hit,found,rfl⟩ := mem_map.mp cached
      refine Or.inr ⟨hit,found,lower,upper,?_⟩
      by_cases rope : args.rope = true
      · have written := allocated.hits hit ((congrArg Req.picHitSegments allocated.frame).trans rfl ▸ found)
        rw [HitRow,if_pos rope] at written
        obtain ⟨slots,copied,row⟩ := written
        rw [hitKv,if_pos rope,copied]
        exact row.get lower upper
      · obtain ⟨entry,referred,row⟩ := hit_row (scheduled before inside) sized related (by simpa using rope) found
        rw [hitKv,if_neg rope,referred]
        exact row pos lower upper
  · intro plain req member hit listed
    obtain ⟨before,inside,related⟩ := exists_left prefilled member
    exact hit_row (scheduled before inside) sized related plain listed
end Batch

open Gdn (warmPass warmPass_scheduled) in
theorem rows_positions_slots_warmPass : ∃ final, warmPass (plainArgs .transition (-1)) [[1,2],[4],[5,6]] = some final ∧
    ∃ extended, picAllocForExtend (plainArgs .transition (-1)) final.pools final.canRunList = some extended ∧
      (extended.reqs.map fun req => req.rowSlice 0 5) = [[1,2,4,5,6]] ∧ extended.outCacheLoc = [4,5,6] ∧
      LinedUp (plainArgs .transition (-1)) extended := by
  obtain ⟨final,passed,extended,executed,distinct,sized,row,out⟩ : ∃ final ∈ warmPass (plainArgs .transition (-1)) [[1,2],[4],[5,6]],
      ∃ extended ∈ picAllocForExtend (plainArgs .transition (-1)) final.pools final.canRunList,
        final.pools.ledger.1.Nodup ∧
        (∀ entry ∈ final.pools.cache.entries.values, entry.fullKvSlots.length = entry.tokenIds.length) ∧
        (extended.reqs.map fun req => req.rowSlice 0 5) = [[1,2,4,5,6]] ∧ extended.outCacheLoc = [4,5,6] := by decide +kernel
  refine ⟨final,passed,extended,executed,row,out,?_⟩
  exact (rows_positions_slots final.pools final.canRunList (warmPass_scheduled _ _ (by decide) passed) distinct
    fun _ key entry present => sized entry (Dict.mem_values_of_get? present)).2 extended executed

end Hypic.Placement
