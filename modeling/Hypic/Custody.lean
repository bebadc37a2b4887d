import Hypic.Alloc
import Hypic.Release
import Hypic.Runs
import Hypic.Related

/-! Who owns a slot: the free lists, the entries of the index, or a request. Allocation and
    release are accounted by the multiset of slots each party owns. -/

namespace Hypic.Custody
open Policy Allocator Cache Request Alloc Release Runs List
universe u
variable {Hash : Type u}

/-- What a request owns of one miss segment. A settled segment's slots have gone to the cache or
    the free list, all but the private copy of rope modes. -/
def missHolding (rope : Bool) (settled : List Seg) (item : Seg × MissSlots) : Holding :=
  (if rope = true ∨ item.1 ∉ settled then kvHolding item.2.kv else 0) +
    if item.1 ∈ settled then 0 else kvHolding (item.2.pub.getD []) + mambaHolding item.2.mamba.toList

def settled (req : Req Hash) : List Seg := req.picCacheOwnedMissSegments ++ req.picFreedMissSegments

def missTotal (rope : Bool) (req : Req Hash) : Holding := req.picMissSegmentSlots.total (missHolding rope (settled req))

/-- Everything a request owns. -/
def held (rope : Bool) (req : Req Hash) : Holding :=
  missTotal rope req + kvHolding (hitPrivate req) + kvHolding (decodeSlots false req) + mambaHolding req.mambaPoolIdx.toList

/-- Two requests that differ in their slot tables and row only. -/
def SlotsOnly (before after : Req Hash) : Prop :=
  after = { before with
    picMissSegmentSlots := after.picMissSegmentSlots
    picRopeHitPrivateSlots := after.picRopeHitPrivateSlots
    reqToToken := after.reqToToken }

theorem SlotsOnly.refl (req : Req Hash) : SlotsOnly req req := rfl
theorem SlotsOnly.trans {first second third : Req Hash} (left : SlotsOnly first second) (right : SlotsOnly second third) :
    SlotsOnly first third := by
  unfold SlotsOnly at *
  rw [right,left]
variable {before after : Req Hash}

section
variable (same : SlotsOnly before after)
include same

theorem SlotsOnly.picSegments :
    after.picSegments = before.picSegments := (congrArg Req.picSegments same).trans rfl
theorem SlotsOnly.picMissSegments :
    after.picMissSegments = before.picMissSegments := (congrArg Req.picMissSegments same).trans rfl
theorem SlotsOnly.lastSeg : after.lastSeg = before.lastSeg := by
  rw [Req.lastSeg,Req.lastSeg,same.picSegments]
theorem SlotsOnly.globalSeg :
    after.globalSeg = before.globalSeg := by rw [Req.globalSeg,Req.globalSeg,same.picSegments,same.lastSeg]

end

theorem kvHolding_flatMap {α : Type*} (items : List α) (slots : α → List Slot) :
    kvHolding (items.flatMap slots) = (items.map fun item => kvHolding (slots item)).sum := by
  induction items with
  | nil => rfl
  | cons item rest ih => rw [flatMap_cons,kvHolding_append,ih,map_cons,sum_cons]
theorem mambaHolding_flatMap {α : Type*} (items : List α) (slots : α → List Slot) :
    mambaHolding (items.flatMap slots) = (items.map fun item => mambaHolding (slots item)).sum := by
  induction items with
  | nil => rfl
  | cons item rest ih => rw [flatMap_cons,mambaHolding_append,ih,map_cons,sum_cons]

theorem kvHolding_hitPrivate (req : Req Hash) :
    kvHolding (hitPrivate req) = req.picRopeHitPrivateSlots.total fun item => kvHolding item.2.1 := by
  rw [hitPrivate,kvHolding_flatMap,Dict.values,map_map]
  rfl

theorem kvHolding_take_drop (slots : List Slot) (n : Nat) :
    kvHolding slots = kvHolding (slots.take n) + kvHolding (slots.drop n) := by
  rw [← kvHolding_append,take_append_drop]

variable [DecidableEq Hash]

/-- Slots a walk still has to hand out. -/
def cursorHolding (cursor : Cursor Hash) : Holding :=
  kvHolding cursor.missRest + kvHolding cursor.pubRest + kvHolding cursor.hitRest + cursor.pools.ledger

/-- Slots the walked request has been given so far. -/
def givenHolding (rope : Bool) (req : Req Hash) : Holding :=
  req.picMissSegmentSlots.total (missHolding rope []) + kvHolding (hitPrivate req)

/-- KV slots of a miss, the private ones in rope modes. -/
def missKv (req : Req Hash) (seg : Seg) : List Slot := ((req.picMissSegmentSlots.get? seg).map MissSlots.kv).getD []

/-- The row of a segment, as far as `slots` reach. -/
def RowIs (req : Req Hash) (seg : Seg) (slots : List Slot) : Prop :=
  slots.length = seg.2 - seg.1 ∧ ∀ pos, seg.1 ≤ pos → pos < seg.2 → req.reqToToken pos = slots.getD (pos - seg.1) 0

section Row
variable {seg : Seg} {slots : List Slot}

section
variable (row : RowIs before seg slots)
include row

theorem RowIs.slice : before.rowSlice seg.1 seg.2 = slots := by
  obtain ⟨length,each⟩ := row
  refine ext_getElem (by simp [Req.rowSlice,length]) fun index inside bound => ?_
  have range : index < seg.2 - seg.1 := length ▸ bound
  simp only [Req.rowSlice,getElem_map,getElem_range',Nat.one_mul]
  rw [each _ (by omega) (by omega),Nat.add_sub_cancel_left,List.getD,getElem?_eq_getElem bound,getD_some]

theorem RowIs.get {pos : Nat} (lower : seg.1 ≤ pos) (upper : pos < seg.2) :
    slots[pos - seg.1]? = some (before.reqToToken pos) := by
  have bound : pos - seg.1 < slots.length := by
    rw [row.1]
    omega
  rw [row.2 pos lower upper,List.getD,getElem?_eq_getElem bound,getD_some]

theorem RowIs.mem {pos : Nat} (lower : seg.1 ≤ pos) (upper : pos < seg.2) :
    before.reqToToken pos ∈ slots := mem_of_getElem? (row.get lower upper)

theorem RowIs.kept (untouched : ∀ pos, seg.1 ≤ pos → pos < seg.2 → after.reqToToken pos = before.reqToToken pos) : RowIs after seg slots :=
  ⟨row.1,fun pos lower upper => (untouched pos lower upper).trans (row.2 pos lower upper)⟩

end

theorem RowIs.write (req : Req Hash) (long : slots.length = seg.2 - seg.1) : RowIs (req.writeRow seg slots) seg slots :=
  ⟨long,fun _ lower upper => if_pos ⟨lower,upper⟩⟩

theorem served_apart {segs all served rest : List Seg} {other : Seg} {stop : Nat} (consecutive : Consecutive 0 segs stop)
    (sub : all.Sublist segs) (whole : served ++ seg::rest = all) (early : other ∈ served) :
    other ≠ seg ∧ ∀ pos, other.1 ≤ pos → pos < other.2 → ¬ (seg.1 ≤ pos ∧ pos < seg.2) := by
  subst whole
  have differs : other ≠ seg := fun same =>
    disjoint_of_nodup_append (sub.nodup consecutive.nodup) early (same ▸ mem_cons_self ..)
  refine ⟨differs,fun pos lower upper here => differs ?_⟩
  exact consecutive.unique (sub.subset (mem_append_left _ early))
    (sub.subset (mem_append_right _ mem_cons_self)) ⟨lower,upper⟩ here
end Row

/-- What allocation must leave behind for one miss segment. -/
structure MissReady (args : ServerArgs Hash) (req : Req Hash) (seg : Seg) (miss : MissSlots) : Prop where
  row : RowIs req seg miss.kv
  pub : miss.pub.isSome ↔ args.rope = true ∧ some seg ≠ req.globalSeg
  pubLength : ∀ slots, miss.pub = some slots → slots.length = seg.2 - seg.1
  mamba : miss.mamba = none ↔ args.rope = false ∧ some seg ≠ req.lastSeg ∧ args.short seg = true

/-- The miss loop body of the method in use. -/
def allocMiss (args : ServerArgs Hash) (walk : Walk Hash) (seg : Seg) : Option (Walk Hash) :=
  if args.rope then walk.allocMissRope seg else walk.allocMissStandard args seg

/-- How a miss is recorded: with the copies its mode asks for, a state slot being taken from the pools or not needed. -/
structure Records (args : ServerArgs Hash) (walk : Walk Hash) (seg : Seg) (withPub : Bool) (mamba : Option Slot)
    (pools : Pools Hash) : Prop where
  pub : withPub = true ↔ args.rope = true ∧ some seg ≠ walk.req.globalSeg
  state : mamba = none ↔ args.rope = false ∧ some seg ≠ walk.req.lastSeg ∧ args.short seg = true
  pools : mamba = none ∧ pools = walk.pools ∨ ∃ slot, mamba = some slot ∧ walk.pools.allocOneMamba = some (slot,pools)

theorem allocMiss_records {args : ServerArgs Hash} {walk next : Walk Hash} {seg : Seg} (executed : allocMiss args walk seg = some next) :
    ∃ withPub mamba pools, next = walk.recordMiss seg withPub mamba pools ∧ Records args walk seg withPub mamba pools := by
  unfold allocMiss at executed
  split at executed
  · rename_i rope
    obtain ⟨⟨slot,pools⟩,allocated,rfl⟩ := map_eq_some_iff.mp executed
    exact ⟨_,_,_,rfl,by simp [rope],by simp [rope],.inr ⟨slot,rfl,allocated⟩⟩
  · rename_i plain
    have plain : args.rope = false := by simpa using plain
    unfold Walk.allocMissStandard at executed
    split at executed
    · rename_i uncached
      cases executed
      exact ⟨_,_,_,rfl,by simp [plain],by simp [plain,uncached],.inl ⟨rfl,rfl⟩⟩
    · rename_i cacheable
      obtain ⟨⟨slot,pools⟩,allocated,rfl⟩ := map_eq_some_iff.mp executed
      exact ⟨_,_,_,rfl,by simp [plain],by simpa [plain] using cacheable,.inr ⟨slot,rfl,allocated⟩⟩

/-- The loop over a request's misses, `extra` slots being left for the requests after it. The slots go out in order, and each
    position of a served miss has its slot in the row and in the position table. -/
structure MissLoop (args : ServerArgs Hash) (extra extraPub : Nat) (start walk : Walk Hash) (served remaining : List Seg) :
    Prop where
  whole : served ++ remaining = start.req.picMissSegments
  holding : cursorHolding walk.toCursor + givenHolding args.rope walk.req =
    cursorHolding start.toCursor + givenHolding args.rope start.req
  evicts : Pools.Evicts start.pools walk.pools
  reqSlots : walk.pools.reqSlots = start.pools.reqSlots
  hitRest : walk.hitRest = start.hitRest
  frame : SlotsOnly start.req walk.req
  hitPrivate : walk.req.picRopeHitPrivateSlots = start.req.picRopeHitPrivateSlots
  missLength : walk.missRest.length = tokens remaining + extra
  pubLength : args.rope = true →
    walk.pubRest.length = tokens (remaining.filter fun seg => some seg ≠ start.req.globalSeg) + extraPub
  pubPlain : args.rope = false → walk.pubRest = start.pubRest
  taken : start.missRest = served.flatMap (missKv walk.req) ++ walk.missRest
  ready : ∀ seg miss, walk.req.picMissSegmentSlots.get? seg = some miss → seg ∈ served ∧ MissReady args walk.req seg miss
  covered : ∀ seg ∈ served, (walk.req.picMissSegmentSlots.get? seg).isSome
  table : ∀ seg ∈ served, ∀ pos, seg.1 ≤ pos → pos < seg.2 → walk.slotAtPos pos = some (walk.req.reqToToken pos)
  other : ∀ pos, (∀ seg ∈ start.req.picMissSegments, ¬ (seg.1 ≤ pos ∧ pos < seg.2)) →
    walk.req.reqToToken pos = start.req.reqToToken pos ∧ walk.slotAtPos pos = start.slotAtPos pos

theorem recordMiss_holding (rope : Bool) (walk : Walk Hash) (seg : Seg) (withPub : Bool) (mamba : Option Slot)
    (pools : Pools Hash) (taken : walk.pools.ledger = mambaHolding mamba.toList + pools.ledger)
    (absent : walk.req.picMissSegmentSlots.get? seg = none) :
    let after := walk.recordMiss seg withPub mamba pools
    cursorHolding after.toCursor + givenHolding rope after.req = cursorHolding walk.toCursor + givenHolding rope walk.req := by
  have misses := Dict.total_set_absent (missHolding rope [])
    (⟨walk.missRest.take (seg.2 - seg.1),if withPub then some (walk.pubRest.take (seg.2 - seg.1)) else none,mamba⟩ : MissSlots)
    absent
  have splitMiss := kvHolding_take_drop walk.missRest (seg.2 - seg.1)
  have splitPub : kvHolding walk.pubRest =
      kvHolding ((if withPub then some (walk.pubRest.take (seg.2 - seg.1)) else none).getD []) +
        kvHolding (if withPub then walk.pubRest.drop (seg.2 - seg.1) else walk.pubRest) := by
    cases withPub with
    | true => exact kvHolding_take_drop _ _
    | false => simp
  simp only [cursorHolding,givenHolding,Walk.recordMiss,Req.writeRow,hitPrivate] at *
  rw [misses,taken,splitMiss,splitPub]
  simp only [missHolding,not_mem_nil,not_false_eq_true,or_true,if_true,if_false]
  abel

theorem MissLoop.record {args : ServerArgs Hash} {extra extraPub : Nat} {start walk : Walk Hash} {seg : Seg}
    {served rest : List Seg} (loop : MissLoop args extra extraPub start walk served (seg::rest))
    {stop : Nat} (consecutive : Consecutive 0 start.req.picSegments stop)
    (misses : start.req.picMissSegments.Sublist start.req.picSegments)
    {withPub : Bool} {mamba : Option Slot} {pools : Pools Hash} (records : Records args walk seg withPub mamba pools) :
    MissLoop args extra extraPub start (walk.recordMiss seg withPub mamba pools) (served ++ [seg]) rest := by
  have apart {other : Seg} (early : other ∈ served) := served_apart consecutive misses loop.whole early
  have inside : seg ∈ start.req.picMissSegments := loop.whole ▸ mem_append_right _ mem_cons_self
  have absent : walk.req.picMissSegmentSlots.get? seg = none :=
    Option.eq_none_iff_forall_ne_some.mpr fun miss found => (apart (loop.ready seg miss found).1).1 rfl
  have pubRule := records.pub
  have mambaRule := records.state
  rw [loop.frame.globalSeg] at pubRule
  rw [loop.frame.lastSeg] at mambaRule
  obtain ⟨evicts,taken,rows⟩ : Pools.Evicts walk.pools pools ∧ walk.pools.ledger = mambaHolding mamba.toList + pools.ledger ∧
      pools.reqSlots = walk.pools.reqSlots := by
    rcases records.pools with ⟨rfl,rfl⟩ | ⟨slot,rfl,allocated⟩
    · exact ⟨Pools.Evicts.refl _,by simp,rfl⟩
    · exact Pools.allocOneMamba_spec allocated
  have total : tokens (seg::rest) = seg.2 - seg.1 + tokens rest := by simp [tokens]
  have frame : SlotsOnly start.req (walk.recordMiss seg withPub mamba pools).req := loop.frame.trans rfl
  have lookup (sought : Seg) : (walk.recordMiss seg withPub mamba pools).req.picMissSegmentSlots.get? sought =
      if sought = seg then some ⟨walk.missRest.take (seg.2 - seg.1),
        if withPub then some (walk.pubRest.take (seg.2 - seg.1)) else none,mamba⟩
      else walk.req.picMissSegmentSlots.get? sought := Dict.get?_set ..
  have row (pos : Nat) : (walk.recordMiss seg withPub mamba pools).req.reqToToken pos =
      if seg.1 ≤ pos ∧ pos < seg.2 then (walk.missRest.take (seg.2 - seg.1)).getD (pos - seg.1) 0
      else walk.req.reqToToken pos := rfl
  have slot (pos : Nat) : (walk.recordMiss seg withPub mamba pools).slotAtPos pos =
      if seg.1 ≤ pos ∧ pos < seg.2 then (walk.missRest.take (seg.2 - seg.1))[pos - seg.1]? else walk.slotAtPos pos := rfl
  have here : RowIs (walk.recordMiss seg withPub mamba pools).req seg (walk.missRest.take (seg.2 - seg.1)) :=
    RowIs.write _ (by rw [length_take,loop.missLength,total]; omega)
  have others : ∀ other ∈ served, missKv (walk.recordMiss seg withPub mamba pools).req other = missKv walk.req other := by
    intro other early
    rw [missKv,lookup,if_neg (apart early).1]
    rfl
  refine
    { whole := by rw [append_assoc]; exact loop.whole
      holding := (recordMiss_holding args.rope walk seg withPub mamba pools taken absent).trans loop.holding
      evicts := loop.evicts.trans evicts
      reqSlots := rows.trans loop.reqSlots
      hitRest := loop.hitRest
      frame := frame
      hitPrivate := loop.hitPrivate
      missLength := ?_
      pubLength := ?_
      pubPlain := ?_
      taken := ?_
      ready := ?_
      covered := ?_
      table := ?_
      other := ?_ }
  · simp only [Walk.recordMiss,length_drop,loop.missLength,total]; omega
  · intro rope
    have before := loop.pubLength rope
    by_cases isGlobal : some seg = start.req.globalSeg
    · have closed : withPub = false := by simpa [isGlobal] using pubRule
      simpa [Walk.recordMiss,closed,isGlobal] using before
    · have opened : withPub = true := pubRule.mpr ⟨rope,isGlobal⟩
      simp only [Walk.recordMiss,opened,if_true,length_drop]
      rw [filter_cons_of_pos (by simpa using isGlobal)] at before
      rw [before]
      simp [tokens]
      omega
  · intro plain
    have closed : withPub = false := by simpa [plain] using pubRule
    simpa [Walk.recordMiss,closed] using loop.pubPlain plain
  · rw [flatMap_append,flatMap_singleton,flatMap_congr others,missKv,lookup,if_pos rfl,append_assoc]
    simp only [Walk.recordMiss,map_some,getD_some,take_append_drop]
    exact loop.taken
  · intro other miss found
    rw [lookup] at found
    split at found
    · rename_i same
      subst same
      cases found
      refine ⟨by simp,here,?_,?_,?_⟩
      · rw [frame.globalSeg]
        cases withPub with
        | true => simpa using pubRule
        | false => simpa using pubRule
      · intro slots given
        cases withPub with
        | false => simp at given
        | true =>
          simp only [if_true,Option.some.injEq] at given
          obtain ⟨rope,isLocal⟩ := pubRule.mp rfl
          have before := loop.pubLength rope
          rw [filter_cons_of_pos (by simpa using isLocal)] at before
          rw [← given,length_take,before]
          simp [tokens]
          omega
      · rw [frame.lastSeg]
        exact mambaRule
    · obtain ⟨early,ready⟩ := loop.ready other miss found
      refine ⟨mem_append_left _ early,ready.row.kept fun pos lower upper => if_neg ((apart early).2 pos lower upper),?_,
        ready.pubLength,?_⟩
      · rw [frame.globalSeg,← loop.frame.globalSeg]; exact ready.pub
      · rw [frame.lastSeg,← loop.frame.lastSeg]; exact ready.mamba
  · intro other member
    rw [lookup]
    rcases mem_append.mp member with early | now
    · rw [if_neg (apart early).1]
      exact loop.covered other early
    · rw [if_pos (mem_singleton.mp now)]
      rfl
  · intro other member pos lower upper
    rcases mem_append.mp member with early | now
    · have outside := (apart early).2 pos lower upper
      rw [row,slot,if_neg outside,if_neg outside]
      exact loop.table other early pos lower upper
    · obtain rfl := mem_singleton.mp now
      rw [slot,if_pos ⟨lower,upper⟩]
      exact here.get lower upper
  · intro pos away
    rw [row,slot,if_neg (away seg inside),if_neg (away seg inside)]
    exact loop.other pos away

/-- The seam positions of a hit. -/
def seamOf (req : Req Hash) (hit : Seg × Hash) : List Nat := (req.picHitSeamPositions.get? hit.1).getD []

/-- Seam positions lie in the hits they belong to. -/
def SeamsInside (req : Req Hash) : Prop :=
  ∀ seg positions, req.picHitSeamPositions.get? seg = some positions → ∀ pos ∈ positions, seg.1 ≤ pos ∧ pos < seg.2

theorem SeamsInside.range (seams : SeamsInside before) {hit : Seg × Hash} {pos : Nat} (seam : pos ∈ seamOf before hit) :
    hit.1.1 ≤ pos ∧ pos < hit.1.2 := by
  unfold seamOf at seam
  cases found : before.picHitSeamPositions.get? hit.1 with
  | none => simp [found] at seam
  | some positions =>
    rw [found] at seam
    exact seams hit.1 positions found pos seam

/-- The row of a hit points at its private copy in rope modes, else at the entry's own slots. -/
def HitRow (args : ServerArgs Hash) (req : Req Hash) (hit : Seg × Hash) : Prop :=
  if args.rope then ∃ slots, req.picRopeHitPrivateSlots.get? hit.1 = some slots ∧ RowIs req hit.1 slots.1
  else ∃ entry, req.picSegmentEntries.get? hit.2 = some entry ∧
    ∀ pos, hit.1.1 ≤ pos → pos < hit.1.2 → req.reqToToken pos = entry.fullKvSlots.getD (pos - hit.1.1) 0

/-- The hit loop body of the method in use. -/
def writeHit (args : ServerArgs Hash) (walk : Walk Hash) (hit : Seg × Hash) : Option (Walk Hash) :=
  if args.rope then walk.writeHitRope hit else walk.writeHitStandard hit

theorem writeHit_frame {args : ServerArgs Hash} {walk next : Walk Hash} {hit : Seg × Hash}
    (executed : writeHit args walk hit = some next) :
    { next.toCursor with hitRest := walk.hitRest } = walk.toCursor ∧ SlotsOnly walk.req next.req := by
  unfold writeHit at executed
  split at executed <;>
  · obtain ⟨entry,-,rfl⟩ := map_eq_some_iff.mp executed
    exact ⟨rfl,rfl⟩

/-- The loop over a request's hits. -/
structure HitLoop (args : ServerArgs Hash) (extra : Nat) (start walk : Walk Hash) (served remaining : List (Seg × Hash)) :
    Prop where
  whole : served ++ remaining = start.req.picHitSegments
  holding : cursorHolding walk.toCursor + givenHolding args.rope walk.req =
    cursorHolding start.toCursor + givenHolding args.rope start.req
  pools : walk.pools = start.pools
  missRest : walk.missRest = start.missRest
  pubRest : walk.pubRest = start.pubRest
  frame : SlotsOnly start.req walk.req
  misses : walk.req.picMissSegmentSlots = start.req.picMissSegmentSlots
  hitLength : args.rope = true → walk.hitRest.length = tokens (remaining.map Prod.fst) + extra
  hitPlain : args.rope = false → walk.hitRest = start.hitRest
  copiesPlain : args.rope = false → walk.req.picRopeHitPrivateSlots = start.req.picRopeHitPrivateSlots
  copied : args.rope = true → ∀ seg ∉ served.map Prod.fst, walk.req.picRopeHitPrivateSlots.get? seg = none
  done : ∀ hit ∈ served, HitRow args walk.req hit
  table : args.rope = true → SeamsInside start.req → ∀ hit ∈ served, ∀ pos ∈ seamOf start.req hit,
    walk.slotAtPos pos = some (walk.req.reqToToken pos)

private theorem HitRow.kept {args : ServerArgs Hash} {hit : Seg × Hash}
    (row : HitRow args before hit)
    (entries : after.picSegmentEntries = before.picSegmentEntries)
    (copies : args.rope = true → after.picRopeHitPrivateSlots.get? hit.1 = before.picRopeHitPrivateSlots.get? hit.1)
    (untouched : ∀ pos, hit.1.1 ≤ pos → pos < hit.1.2 → after.reqToToken pos = before.reqToToken pos) :
    HitRow args after hit := by
  unfold HitRow at *
  split
  · rename_i rope
    rw [if_pos rope] at row
    obtain ⟨slots,found,inside⟩ := row
    exact ⟨slots,(copies rope).trans found,inside.kept untouched⟩
  · rename_i plain
    rw [if_neg plain] at row
    obtain ⟨entry,found,inside⟩ := row
    refine ⟨entry,by rw [entries]; exact found,fun pos lower upper => ?_⟩
    rw [untouched pos lower upper]
    exact inside pos lower upper

section Hits
variable {args : ServerArgs Hash} {extra : Nat} {start walk next : Walk Hash} {hit : Seg × Hash}
  {served rest : List (Seg × Hash)} {stop : Nat}

section
variable (loop : HitLoop args extra start walk served (hit::rest)) (apart : ∀ other ∈ served, other.1 ≠ hit.1 ∧ ∀ pos, other.1.1 ≤ pos → pos < other.1.2 → ¬ (hit.1.1 ≤ pos ∧ pos < hit.1.2))
include loop apart

theorem HitLoop.standard (plain : args.rope = false) (written : walk.writeHitStandard hit = some next) :
    HitLoop args extra start next (served ++ [hit]) rest := by
  obtain ⟨entry,found,rfl⟩ := map_eq_some_iff.mp written
  refine
    { whole := by rw [append_assoc]; exact loop.whole
      holding := loop.holding, pools := loop.pools, missRest := loop.missRest, pubRest := loop.pubRest
      frame := loop.frame.trans rfl
      misses := loop.misses
      hitLength := fun rope => by simp [plain] at rope
      hitPlain := fun _ => loop.hitPlain plain
      copiesPlain := fun _ => loop.copiesPlain plain
      copied := fun rope => by simp [plain] at rope
      done := ?_
      table := fun rope => by simp [plain] at rope }
  intro other member
  rcases mem_append.mp member with early | now
  · exact (loop.done other early).kept rfl (fun _ => rfl) fun pos lower upper => if_neg ((apart other early).2 pos lower upper)
  · obtain rfl := mem_singleton.mp now
    rw [HitRow,if_neg (by simp [plain])]
    exact ⟨entry,found,fun pos lower upper => if_pos ⟨lower,upper⟩⟩

theorem HitLoop.rope (rope : args.rope = true) (written : walk.writeHitRope hit = some next) :
    HitLoop args extra start next (served ++ [hit]) rest := by
  obtain ⟨entry,found,rfl⟩ := map_eq_some_iff.mp written
  have absent : walk.req.picRopeHitPrivateSlots.get? hit.1 = none := by
    refine loop.copied rope hit.1 fun early => ?_
    obtain ⟨other,early,same⟩ := mem_map.mp early
    exact (apart other early).1 same
  have total : tokens ((hit::rest).map Prod.fst) = hit.1.2 - hit.1.1 + tokens (rest.map Prod.fst) := by simp [tokens]
  have sameSeams : seamOf walk.req hit = seamOf start.req hit := by
    rw [seamOf,seamOf,(congrArg Req.picHitSeamPositions loop.frame).trans rfl]
  have here : RowIs ({ walk.req with
        picRopeHitPrivateSlots := walk.req.picRopeHitPrivateSlots.set hit.1 (walk.hitRest.take (hit.1.2 - hit.1.1),entry.fullKvSlots)
        }.writeRow hit.1 (walk.hitRest.take (hit.1.2 - hit.1.1))) hit.1 (walk.hitRest.take (hit.1.2 - hit.1.1)) :=
    RowIs.write _ (by rw [length_take,loop.hitLength rope,total]; omega)
  refine
    { whole := by rw [append_assoc]; exact loop.whole
      holding := ?_, pools := loop.pools, missRest := loop.missRest, pubRest := loop.pubRest
      frame := loop.frame.trans rfl
      misses := loop.misses
      hitLength := ?_
      hitPlain := fun plain => by simp [plain] at rope
      copiesPlain := fun plain => by simp [plain] at rope
      copied := ?_
      done := ?_
      table := ?_ }
  · rw [← loop.holding]
    have copies := Dict.total_set_absent (fun item : Seg × List Slot × List Slot => kvHolding item.2.1)
      (walk.hitRest.take (hit.1.2 - hit.1.1),entry.fullKvSlots) absent
    have split := kvHolding_take_drop walk.hitRest (hit.1.2 - hit.1.1)
    simp only [cursorHolding,givenHolding,kvHolding_hitPrivate,Req.writeRow]
    rw [copies,split]
    abel
  · intro _
    simp only [length_drop,loop.hitLength rope,total]; omega
  · intro _ seg fresh
    rw [map_append,mem_append,not_or] at fresh
    exact (Dict.get?_set_other _ _ (by simpa using fresh.2)).trans (loop.copied rope seg fresh.1)
  · intro other member
    rcases mem_append.mp member with early | now
    · obtain ⟨differs,outside⟩ := apart other early
      exact (loop.done other early).kept rfl (fun _ => Dict.get?_set_other _ _ differs) fun pos lower upper =>
        if_neg (outside pos lower upper)
    · obtain rfl := mem_singleton.mp now
      rw [HitRow,if_pos rope]
      exact ⟨_,Dict.get?_set_same ..,here⟩
  · intro _ seams other member pos seam
    obtain ⟨lower,upper⟩ := seams.range seam
    change (if pos ∈ seamOf walk.req hit then (walk.hitRest.take (hit.1.2 - hit.1.1))[pos - hit.1.1]? else walk.slotAtPos pos) = _
    rw [sameSeams]
    rcases mem_append.mp member with early | now
    · have away := (apart other early).2 pos lower upper
      rw [if_neg fun seam => away (seams.range seam),loop.table rope seams other early pos seam]
      exact congrArg some (if_neg away).symm
    · obtain rfl := mem_singleton.mp now
      rw [if_pos seam]
      exact here.get lower upper

end

end Hits

/-- What allocation leaves behind in a request. -/
structure Allocated (args : ServerArgs Hash) (before after : Req Hash) : Prop where
  frame : SlotsOnly before after
  misses : ∀ seg, seg ∈ before.picMissSegments ↔ (after.picMissSegmentSlots.get? seg).isSome
  ready : ∀ seg miss, after.picMissSegmentSlots.get? seg = some miss → MissReady args after seg miss
  hits : ∀ hit ∈ before.picHitSegments, HitRow args after hit
  copies : args.rope = false → after.picRopeHitPrivateSlots = .empty

theorem Allocated.missRow {args : ServerArgs Hash} (allocated : Allocated args before after) {seg : Seg}
    (missed : seg ∈ before.picMissSegments) : RowIs after seg (missKv after seg) := by
  obtain ⟨miss,found⟩ := isSome_iff_exists.mp ((allocated.misses seg).mp missed)
  rw [missKv,found]
  exact (allocated.ready seg miss found).row

/-- The request loop body of the method in use. -/
def allocReq (args : ServerArgs Hash) (cursor : Cursor Hash) (req : Req Hash) : Option (Walk Hash) :=
  if args.rope then allocReqRope cursor req else allocReqStandard args cursor req

def startWalk (args : ServerArgs Hash) (cursor : Cursor Hash) (req : Req Hash) : Walk Hash :=
  if args.rope then Walk.startRope cursor req else Walk.startStandard cursor req

theorem startWalk_frame (args : ServerArgs Hash) (cursor : Cursor Hash) (req : Req Hash) :
    (startWalk args cursor req).toCursor = cursor ∧ SlotsOnly req (startWalk args cursor req).req := by
  unfold startWalk
  split
  · exact ⟨rfl,rfl⟩
  · exact ⟨rfl,rfl⟩

theorem allocReq_eq (args : ServerArgs Hash) (cursor : Cursor Hash) (req : Req Hash) : allocReq args cursor req =
    (req.picHitSegments.foldlM (writeHit args) (startWalk args cursor req)).bind fun walk =>
      req.picMissSegments.foldlM (allocMiss args) walk := by
  unfold allocReq writeHit startWalk allocMiss
  split
  · rfl
  · rfl

/-- Slots left for the requests after the current one. -/
structure Left (args : ServerArgs Hash) (cursor : Cursor Hash) (miss pub hit : Nat) : Prop where
  miss : cursor.missRest.length = miss
  pub : args.rope = true → cursor.pubRest.length = pub
  hit : args.rope = true → cursor.hitRest.length = hit
  plain : args.rope = false → cursor.pubRest = [] ∧ cursor.hitRest = []

/-- In rope modes the walk knows the slot of every token that will be forwarded. -/
def Placed (args : ServerArgs Hash) (req : Req Hash) (walk : Walk Hash) : Prop :=
  args.rope = true → SeamsInside req → ∀ pos, ((∃ seg ∈ req.picMissSegments, seg.1 ≤ pos ∧ pos < seg.2) ∨
    ∃ hit ∈ req.picHitSegments, pos ∈ seamOf req hit) → walk.slotAtPos pos = some (walk.req.reqToToken pos)

/-- One request of the batch: it gets its slots, and the walk goes on with the rest. -/
structure Served (args : ServerArgs Hash) (cursor : Cursor Hash) (req : Req Hash) (walk : Walk Hash) : Prop where
  allocated : Allocated args req walk.req
  holding : cursorHolding walk.toCursor + givenHolding args.rope walk.req = cursorHolding cursor
  evicts : Pools.Evicts cursor.pools walk.pools
  reqSlots : walk.pools.reqSlots = cursor.pools.reqSlots
  placed : Placed args req walk
  taken : cursor.missRest = req.picMissSegments.flatMap (missKv walk.req) ++ walk.missRest

section AllocReq
variable {args : ServerArgs Hash} {cursor : Cursor Hash} {req : Req Hash} {walk : Walk Hash}

theorem startWalk_fresh (args : ServerArgs Hash) (cursor : Cursor Hash) (fresh : req.picRopeHitPrivateSlots = .empty) :
    startWalk args cursor req = { cursor with req := { req with picMissSegmentSlots := .empty }, slotAtPos := fun _ => none } := by
  unfold startWalk Walk.startRope Walk.startStandard
  split
  · simp [fresh]
  · rfl

private theorem hits_served {hitsDone : Walk Hash} {hit : Nat} (matched : Matched args req)
    (fresh : req.picRopeHitPrivateSlots = .empty) (left : args.rope = true → cursor.hitRest.length = hitTokens req + hit)
    (executed : req.picHitSegments.foldlM (writeHit args) (startWalk args cursor req) = some hitsDone) :
    HitLoop args hit (startWalk args cursor req) hitsDone req.picHitSegments [] := by
  rw [startWalk_fresh args cursor fresh] at *
  have looped := foldlM_keeps (fun walk remaining => ∃ served, HitLoop args hit
    { cursor with req := { req with picMissSegmentSlots := .empty }, slotAtPos := fun _ => none } walk served remaining) ?_ ⟨[],
    { whole := rfl, holding := rfl, pools := rfl, missRest := rfl, pubRest := rfl, frame := SlotsOnly.refl _, misses := rfl
      hitLength := left, hitPlain := fun _ => rfl, copiesPlain := fun _ => rfl
      copied := fun _ seg _ => by simp [fresh]
      done := nofun, table := nofun }⟩ executed
  · obtain ⟨served,loop⟩ := looped
    have whole := loop.whole
    rw [append_nil] at whole
    exact whole ▸ loop
  · rintro walk item rest next ⟨served,loop⟩ stepped
    have order := congrArg (List.map Prod.fst) loop.whole
    rw [map_append,map_cons] at order
    have apart (other : Seg × Hash) (early : other ∈ served) :=
      served_apart matched.consecutive matched.hits order (mem_map_of_mem early)
    unfold writeHit at stepped
    split at stepped
    · rename_i rope
      exact ⟨_,loop.rope apart rope stepped⟩
    · rename_i plain
      exact ⟨_,loop.standard apart (by simpa using plain) stepped⟩

private theorem misses_served {hitsDone : Walk Hash} {miss pub : Nat} (matched : Matched args req) (frame : SlotsOnly req hitsDone.req)
    (nothing : hitsDone.req.picMissSegmentSlots = .empty) (missLength : hitsDone.missRest.length = missTokens req + miss)
    (pubLength : args.rope = true → hitsDone.pubRest.length = localMissTokens req + pub)
    (executed : req.picMissSegments.foldlM (allocMiss args) hitsDone = some walk) :
    MissLoop args miss pub hitsDone walk req.picMissSegments [] := by
  have missSegs := frame.picMissSegments
  have looped := foldlM_keeps (fun walk remaining => ∃ served, MissLoop args miss pub hitsDone walk served remaining) ?_ ⟨[],
    { whole := missSegs.symm, holding := rfl, evicts := Pools.Evicts.refl _, reqSlots := rfl, hitRest := rfl
      frame := SlotsOnly.refl _, hitPrivate := rfl, missLength := missLength
      pubLength := fun rope => by rw [frame.globalSeg]; exact pubLength rope
      pubPlain := fun _ => rfl, taken := rfl
      ready := fun seg miss found => by rw [nothing] at found; simp at found
      covered := nofun, table := nofun, other := fun _ _ => ⟨rfl,rfl⟩ }⟩ executed
  · obtain ⟨served,loop⟩ := looped
    have whole := loop.whole
    rw [append_nil,missSegs] at whole
    exact whole ▸ loop
  · rintro walk seg rest next ⟨served,loop⟩ stepped
    obtain ⟨withPub,mamba,pools,rfl,records⟩ := allocMiss_records stepped
    exact ⟨_,loop.record (frame.picSegments ▸ matched.consecutive) (by rw [frame.picSegments,missSegs]; exact matched.misses) records⟩

theorem allocReq_served {miss pub hit : Nat} (matched : Matched args req) (fresh : req.picRopeHitPrivateSlots = .empty)
    (left : Left args cursor (missTokens req + miss) (localMissTokens req + pub) (hitTokens req + hit))
    (executed : allocReq args cursor req = some walk) :
    Served args cursor req walk ∧ Left args walk.toCursor miss pub hit := by
  rw [allocReq_eq] at executed
  obtain ⟨hitsDone,hitsRun,missesRun⟩ := bind_eq_some_iff.mp executed
  have hitLoop := hits_served matched fresh left.hit hitsRun
  rw [startWalk_fresh args cursor fresh] at hitLoop
  have begun : SlotsOnly req { req with picMissSegmentSlots := .empty } := rfl
  have frame := begun.trans hitLoop.frame
  have loop := misses_served matched frame hitLoop.misses (by rw [hitLoop.missRest]; exact left.miss)
    (fun rope => by rw [hitLoop.pubRest]; exact left.pub rope) missesRun
  -- no miss reaches into a hit
  have away {item : Seg × Hash} (member : item ∈ req.picHitSegments) {pos : Nat} (lower : item.1.1 ≤ pos) (upper : pos < item.1.2) :
      ∀ seg ∈ hitsDone.req.picMissSegments, ¬ (seg.1 ≤ pos ∧ pos < seg.2) := by
    intro seg missed within
    rw [frame.picMissSegments] at missed
    have listed := mem_map_of_mem (f := Prod.fst) member
    have same := matched.consecutive.unique (matched.misses.subset missed) (matched.hits.subset listed) within ⟨lower,upper⟩
    exact matched.exclusive seg missed (same ▸ listed)
  have pools : hitsDone.pools = cursor.pools := hitLoop.pools
  refine ⟨⟨⟨frame.trans loop.frame,?_,?_,?_,?_⟩,?_,pools ▸ loop.evicts,pools ▸ loop.reqSlots,?_,?_⟩,⟨?_,?_,?_,?_⟩⟩
  · intro seg
    constructor
    · exact loop.covered seg
    · intro found
      obtain ⟨miss,found⟩ := isSome_iff_exists.mp found
      exact (loop.ready seg miss found).1
  · intro seg miss found
    exact (loop.ready seg miss found).2
  · intro item member
    exact (hitLoop.done item member).kept ((congrArg Req.picSegmentEntries loop.frame).trans rfl) (fun _ => by rw [loop.hitPrivate])
      fun pos lower upper => (loop.other pos (away member lower upper)).1
  · intro plain
    rw [loop.hitPrivate,hitLoop.copiesPlain plain]
    exact fresh
  · rw [loop.holding,hitLoop.holding]
    simp [givenHolding,kvHolding_hitPrivate,fresh]
  · intro rope seams pos known
    rcases known with ⟨seg,member,lower,upper⟩ | ⟨item,member,seam⟩
    · exact loop.table seg member pos lower upper
    · obtain ⟨lower,upper⟩ := seams.range seam
      obtain ⟨row,slot⟩ := loop.other pos (away member lower upper)
      rw [row,slot]
      exact hitLoop.table rope seams item member pos seam
  · rw [← loop.taken,hitLoop.missRest]
  · simpa [tokens] using loop.missLength
  · intro rope; simpa [tokens] using loop.pubLength rope
  · intro rope
    rw [loop.hitRest]
    simpa [tokens] using hitLoop.hitLength rope
  · intro plain
    rw [loop.pubPlain plain,loop.hitRest,hitLoop.hitPlain plain,hitLoop.pubRest]
    exact left.plain plain
end AllocReq

section Batch
variable {args : ServerArgs Hash}

theorem allocReqs_served {reqs : List (Req Hash)} {cursor final : Cursor Hash} {walks : List (Walk Hash)}
    (ready : ∀ req ∈ reqs, Matched args req ∧ req.picRopeHitPrivateSlots = .empty)
    (left : Left args cursor (reqs.map missTokens).sum (reqs.map localMissTokens).sum (reqs.map hitTokens).sum)
    (executed : allocReqs (allocReq args) reqs cursor = some (walks,final)) :
    Forall₂ (Allocated args) reqs (walks.map Walk.req) ∧
      cursorHolding final + (walks.map fun walk => givenHolding args.rope walk.req).sum = cursorHolding cursor ∧
      Pools.Evicts cursor.pools final.pools ∧ Left args final 0 0 0 ∧ Forall₂ (Placed args) reqs walks ∧
      cursor.missRest = walks.flatMap fun walk => walk.req.picMissSegments.flatMap (missKv walk.req) := by
  induction reqs generalizing cursor walks with
  | nil =>
    simp only [allocReqs,Option.some.injEq,Prod.mk.injEq] at executed
    obtain ⟨rfl,rfl⟩ := executed
    exact ⟨Forall₂.nil,by simp,Pools.Evicts.refl _,left,Forall₂.nil,length_eq_zero_iff.mp left.miss⟩
  | cons req rest ih =>
    simp only [allocReqs] at executed
    obtain ⟨walk,here,executed⟩ := bind_eq_some_iff.mp executed
    obtain ⟨⟨laterWalks,last⟩,later,same⟩ := map_eq_some_iff.mp executed
    cases same
    obtain ⟨matched,noCopies⟩ := ready req mem_cons_self
    obtain ⟨served,left⟩ := allocReq_served matched noCopies (by simpa using left) here
    obtain ⟨allocated,holding,evicts,left,placed,taken⟩ :=
      ih (forall_mem_cons.mp ready).2 left later
    refine ⟨Forall₂.cons served.allocated allocated,?_,served.evicts.trans evicts,left,
      Forall₂.cons served.placed placed,?_⟩
    · rw [← served.holding,← holding,map_cons,sum_cons]
      abel
    · rw [served.taken,taken,flatMap_cons,served.allocated.frame.picMissSegments]

/-- A request before its first allocation. -/
structure Unallocated (req : Req Hash) : Prop where
  misses : req.picMissSegmentSlots = .empty
  copies : req.picRopeHitPrivateSlots = .empty
  owned : req.picCacheOwnedMissSegments = []
  freed : req.picFreedMissSegments = []
  committed : req.kvCommittedLen = 0
  row : req.reqPoolIdx = none
  state : req.mambaPoolIdx = none

/-- A request of the waiting queue: a segmented prompt that has no slots yet. -/
structure Waiting (req : Req Hash) : Prop where
  consecutive : Consecutive 0 req.picSegments req.originInputIds.length
  nonempty : req.picSegments ≠ []
  fresh : Unallocated req
  seams : req.picHitSeamPositions = .empty

theorem create_waiting (parts : List (List Token)) (maxNewTokens : Nat)
    (nonempty : (Req.create parts false maxNewTokens : Req Hash).picSegments ≠ []) :
    Waiting (Req.create parts false maxNewTokens : Req Hash) := by
  refine ⟨?_,nonempty,⟨rfl,rfl,rfl,rfl,rfl,rfl,rfl⟩,rfl⟩
  have consecutive := offsets_consecutive parts 0
  simpa [Req.create,splitAndTokenize] using consecutive

theorem initNextRoundInput_unallocated (args : ServerArgs Hash) (now : Nat) (cache : PICache Hash) {req : Req Hash} (fresh : Unallocated req) :
    Unallocated (initNextRoundInput args now req cache).1 := by
  unfold initNextRoundInput
  split
  · exact ⟨fresh.misses,fresh.copies,fresh.owned,fresh.freed,fresh.committed,fresh.row,fresh.state⟩
  · exact ⟨fresh.misses,fresh.copies,fresh.owned,fresh.freed,fresh.committed,fresh.row,fresh.state⟩

/-- A row and a state slot for the decode phase. -/
def Assigned (before after : Req Hash) : Prop :=
  ∃ row slot, after = { before with reqPoolIdx := some row, mambaPoolIdx := some slot }

theorem assignRows_spec (reqs : List (Req Hash)) (free : List Nat) (fresh : ∀ req ∈ reqs, Unallocated req)
    (enough : reqs.length ≤ free.length) :
    Forall₂ (fun before after => ∃ row, after = { before with reqPoolIdx := some row }) reqs (assignRows reqs free) := by
  induction reqs generalizing free with
  | nil => exact .nil
  | cons req rest ih =>
    obtain _ | ⟨row,free⟩ := free
    · simp at enough
    have unset := (fresh req mem_cons_self).row
    simp only [assignRows,unset]
    refine Forall₂.cons ⟨row,rfl⟩ (ih free (forall_mem_cons.mp fresh).2 ?_)
    simpa using enough

private theorem assignMamba_spec {before reqs done : List (Req Hash)} {mamba after : MambaSlotAllocator}
    (fresh : ∀ req ∈ before, Unallocated req)
    (rows : Forall₂ (fun before after => ∃ row, after = { before with reqPoolIdx := some row }) before reqs)
    (executed : assignMamba reqs mamba = some (done,after)) :
    Forall₂ Assigned before done ∧
      mambaHolding mamba.freeSlots = (done.map fun req => mambaHolding req.mambaPoolIdx.toList).sum + mambaHolding after.freeSlots := by
  induction rows generalizing mamba done with
  | nil =>
    simp only [assignMamba,Option.some.injEq,Prod.mk.injEq] at executed
    obtain ⟨rfl,rfl⟩ := executed
    exact ⟨Forall₂.nil,by simp⟩
  | @cons first given before reqs row rows ih =>
    obtain ⟨row,rfl⟩ := row
    have unset : first.mambaPoolIdx = none := (fresh first mem_cons_self).state
    simp only [assignMamba,unset] at executed
    obtain ⟨⟨slot,taken⟩,allocated,executed⟩ := bind_eq_some_iff.mp executed
    obtain ⟨⟨later,last⟩,laterRun,same⟩ := map_eq_some_iff.mp executed
    cases same
    obtain ⟨assigned,holding⟩ := ih (forall_mem_cons.mp fresh).2 laterRun
    refine ⟨Forall₂.cons ⟨row,slot,rfl⟩ assigned,?_⟩
    rw [MambaSlotAllocator.allocOne_slots allocated]
    simp only [map_cons,sum_cons,Option.toList_some]
    rw [add_assoc,← holding,← mambaHolding_append]
    rfl

theorem reserveMamba_evicts (pools : Pools Hash) (numReqs : Nat) :
    Pools.Evicts pools (reserveMamba pools numReqs) ∧ (reserveMamba pools numReqs).ledger = pools.ledger := by
  unfold reserveMamba
  simp only
  split
  · obtain ⟨evicts,ledger,-⟩ :=
      pools.evict_evicts 0 (numReqs * mambaStatePerReqPrefixCache - pools.mamba.availableSize)
    exact ⟨evicts,ledger⟩
  · exact ⟨Pools.Evicts.refl _,rfl⟩

variable {reqs done : List (Req Hash)}

theorem allocReqSlots_spec {pools after : Pools Hash}
    (fresh : ∀ req ∈ reqs, Unallocated req) (executed : allocReqSlots pools reqs = some (done,after)) :
    Forall₂ Assigned reqs done ∧ Pools.Evicts pools after ∧
      pools.ledger = (done.map fun req => mambaHolding req.mambaPoolIdx.toList).sum + after.ledger := by
  unfold allocReqSlots at executed
  obtain ⟨evicts,ledger⟩ := reserveMamba_evicts pools reqs.length
  obtain ⟨⟨rowed,rows⟩,rowRun,executed⟩ := bind_eq_some_iff.mp executed
  obtain ⟨⟨assigned,mamba⟩,mambaRun,same⟩ := map_eq_some_iff.mp executed
  cases same
  have rowSpec : Forall₂ (fun before after => ∃ row, after = { before with reqPoolIdx := some row }) reqs rowed := by
    unfold allocRows at rowRun
    split at rowRun
    · cases rowRun
    · have all : (reqs.filter fun req => req.reqPoolIdx.isNone) = reqs :=
        filter_eq_self.mpr fun req member => by simp [(fresh req member).row]
      simp only [all] at rowRun
      split at rowRun
      · cases rowRun
      · rename_i enough
        cases rowRun
        exact assignRows_spec reqs _ fresh (by omega)
  obtain ⟨assigned,holding⟩ := assignMamba_spec fresh rowSpec mambaRun
  refine ⟨assigned,evicts.trans (Pools.Evicts.of_cache rfl),?_⟩
  rw [← ledger]
  simp only [Pools.ledger,holding]
  abel

variable {before after : Req Hash}

theorem SlotsOnly.matched (same : SlotsOnly before after) (matched : Matched args before) :
    Matched args after := by
  rw [show after = _ from same]
  exact ⟨⟨matched.consecutive,matched.misses,matched.hits,matched.exclusive,matched.cover,matched.last⟩,matched.found⟩

theorem Assigned.matched (assigned : Assigned before after) (matched : Matched args before) :
    Matched args after := by
  obtain ⟨row,slot,rfl⟩ := assigned
  exact ⟨⟨matched.consecutive,matched.misses,matched.hits,matched.exclusive,matched.cover,matched.last⟩,matched.found⟩

/-- A request after `pic_alloc_for_extend`. -/
def Prefilled (args : ServerArgs Hash) (before after : Req Hash) : Prop :=
  ∃ assigned, Assigned before assigned ∧ Allocated args assigned after

theorem prefilled_unsettled (prefilled : Prefilled args before after) (fresh : Unallocated before) :
    after.picCacheOwnedMissSegments = [] ∧ after.picFreedMissSegments = [] := by
  obtain ⟨assigned,⟨row,slot,rfl⟩,allocated⟩ := prefilled
  exact ⟨((congrArg Req.picCacheOwnedMissSegments allocated.frame).trans rfl).trans fresh.owned,
    ((congrArg Req.picFreedMissSegments allocated.frame).trans rfl).trans fresh.freed⟩

theorem held_prefilled (prefilled : Prefilled args before after) (fresh : Unallocated before) :
    held args.rope after = givenHolding args.rope after + mambaHolding after.mambaPoolIdx.toList := by
  obtain ⟨owned,freed⟩ := prefilled_unsettled prefilled fresh
  obtain ⟨assigned,⟨row,slot,rfl⟩,allocated⟩ := prefilled
  have committed : after.kvCommittedLen = 0 :=
    ((congrArg Req.kvCommittedLen allocated.frame).trans rfl).trans fresh.committed
  have noDecode : decodeSlots false after = [] := by
    unfold decodeSlots
    split
    · rfl
    · simp [Req.rowSlice,committed]
  simp only [held,missTotal,settled,owned,freed,append_nil,noDecode,kvHolding_nil,add_zero,givenHolding]

/-- KV slots a prefill batch asks for. -/
def kvNeed (args : ServerArgs Hash) (reqs : List (Req Hash)) : Nat :=
  if args.rope then (reqs.map missTokens).sum + (reqs.map localMissTokens).sum + (reqs.map hitTokens).sum
  else (reqs.map missTokens).sum

theorem assigned_sum (assigned : Forall₂ Assigned reqs done) (measure : Req Hash → Nat)
    (same : ∀ before row slot, measure { before with reqPoolIdx := some row, mambaPoolIdx := some slot } = measure before) :
    (done.map measure).sum = (reqs.map measure).sum := by
  refine (Related.sum_eq assigned measure measure fun before _ after related => ?_).symm
  obtain ⟨row,slot,rfl⟩ := related
  exact (same before row slot).symm

theorem kvNeed_assigned (assigned : Forall₂ Assigned reqs done) :
    kvNeed args done = kvNeed args reqs := by
  unfold kvNeed
  rw [assigned_sum assigned missTokens fun _ _ _ => rfl,assigned_sum assigned localMissTokens fun _ _ _ => rfl,
    assigned_sum assigned hitTokens fun _ _ _ => rfl]

/-- The stages of a successful prefill allocation. -/
structure AllocRun (args : ServerArgs Hash) (pools : Pools Hash) (reqs : List (Req Hash)) (extended : Extended Hash)
    (done : List (Req Hash)) (slotted funded : Pools Hash) (slots : List Slot) (start last : Cursor Hash)
    (walks : List (Walk Hash)) (totalTokens : Nat) : Prop where
  rows : allocReqSlots pools reqs = some (done,slotted)
  kv : slotted.allocTokenSlots totalTokens = some (slots,funded)
  walked : allocReqs (allocReq args) done start = some (walks,last)
  holding : cursorHolding start = kvHolding slots + funded.ledger
  pools : start.pools = funded
  uncounted : start.totalMambaAlloc = 0
  left : Left args start (done.map missTokens).sum (done.map localMissTokens).sum (done.map hitTokens).sum
  total : totalTokens = kvNeed args done
  finish : ∃ out, extended = Extended.finish out totalTokens (walks,last)

theorem left_rope (rope : args.rope = true) {slots : List Slot} {miss pub hit : Nat} (length : slots.length = miss + pub + hit)
    (pools : Pools Hash) :
    Left args ⟨slots.take miss,(slots.drop miss).take pub,slots.drop (miss + pub),pools,0⟩ miss pub hit := by
  refine ⟨?_,fun _ => ?_,fun _ => ?_,fun plain => by simp [plain] at rope⟩
  · simp only [length_take,length]; omega
  · simp only [length_take,length_drop,length]; omega
  · simp only [length_drop,length]; omega

/-- Where the forwarded tokens are stored: in the misses' slots as they were handed out or, with seams, by position. -/
def OutOf (args : ServerArgs Hash) (start : Cursor Hash) (walks : List (Walk Hash)) (outCacheLoc : List Slot) : Prop :=
  if args.recompute then slotsAtPositions walks = some outCacheLoc else outCacheLoc = start.missRest

theorem picAllocForExtend_run {pools : Pools Hash} {reqs : List (Req Hash)} {extended : Extended Hash}
    (executed : picAllocForExtend args pools reqs = some extended) :
    ∃ done slotted funded slots start last walks totalTokens,
      AllocRun args pools reqs extended done slotted funded slots start last walks totalTokens ∧
      OutOf args start walks extended.outCacheLoc := by
  unfold picAllocForExtend at executed
  split at executed
  · rename_i rope
    have body : allocReq args = allocReqRope := by funext cursor req; simp [allocReq,rope]
    obtain ⟨⟨done,slotted⟩,rows,executed⟩ := bind_eq_some_iff.mp executed
    obtain ⟨⟨slots,funded⟩,kv,executed⟩ := bind_eq_some_iff.mp executed
    obtain ⟨⟨walks,last⟩,walked,executed⟩ := bind_eq_some_iff.mp executed
    obtain ⟨out,stored,rfl⟩ := map_eq_some_iff.mp executed
    obtain ⟨length,-⟩ := Pools.allocTokenSlots_spec kv
    refine ⟨done,slotted,funded,slots,_,last,walks,_,⟨rows,kv,body ▸ walked,?_,rfl,rfl,left_rope rope length funded,(if_pos rope).symm,
      ⟨out,rfl⟩⟩,?_⟩
    · simp only [cursorHolding]
      rw [← kvHolding_append,← kvHolding_append,← drop_drop,append_assoc,take_append_drop,take_append_drop]
    · unfold OutOf
      split at stored
      · rename_i recompute
        rw [if_pos recompute]
        exact stored
      · rename_i recompute
        rw [if_neg recompute]
        exact (Option.some.inj stored).symm
  · rename_i plain
    have plain : args.rope = false := by simpa using plain
    have body : allocReq args = allocReqStandard args := by funext cursor req; simp [allocReq,plain]
    obtain ⟨⟨done,slotted⟩,rows,executed⟩ := bind_eq_some_iff.mp executed
    obtain ⟨⟨slots,funded⟩,kv,executed⟩ := bind_eq_some_iff.mp executed
    obtain ⟨⟨walks,last⟩,walked,rfl⟩ := map_eq_some_iff.mp executed
    obtain ⟨length,-⟩ := Pools.allocTokenSlots_spec kv
    have noSeams : ¬ args.recompute = true := fun recompute => absurd (PICMode.recompute_rope _ recompute) (by
      rw [show args.picMode.policy.rope = false from plain]
      nofun)
    refine ⟨done,slotted,funded,slots,_,last,walks,_,⟨rows,kv,body ▸ walked,?_,rfl,rfl,⟨length,?_,?_,?_⟩,?_,⟨_,rfl⟩⟩,?_⟩
    · simp [cursorHolding]
    · intro rope; simp [plain] at rope
    · intro rope; simp [plain] at rope
    · exact fun _ => ⟨rfl,rfl⟩
    · simp [kvNeed,plain]
    · rw [OutOf,if_neg noSeams]
      rfl

theorem assigned_ready (assigned : Forall₂ Assigned reqs done)
    (ready : ∀ req ∈ reqs, Matched args req ∧ Unallocated req) :
    ∀ req ∈ done, Matched args req ∧ req.picRopeHitPrivateSlots = .empty := by
  intro req member
  obtain ⟨before,beforeMember,related⟩ := exists_left assigned member
  refine ⟨related.matched (ready before beforeMember).1,?_⟩
  obtain ⟨row,slot,rfl⟩ := related
  exact (ready before beforeMember).2.copies

theorem Left.spent {cursor : Cursor Hash} (left : Left args cursor 0 0 0) : cursorHolding cursor = cursor.pools.ledger := by
  have noMiss : cursor.missRest = [] := length_eq_zero_iff.mp left.miss
  have noOther : cursor.pubRest = [] ∧ cursor.hitRest = [] := by
    cases rope : args.rope with
    | true => exact ⟨length_eq_zero_iff.mp (left.pub rope),length_eq_zero_iff.mp (left.hit rope)⟩
    | false => exact left.plain rope
  simp [cursorHolding,noMiss,noOther]

/-- A prefill batch: every request gets all its slots, and they leave the ledger. -/
theorem picAllocForExtend_spec {pools : Pools Hash} {reqs : List (Req Hash)} {extended : Extended Hash}
    (ready : ∀ req ∈ reqs, Matched args req ∧ Unallocated req)
    (executed : picAllocForExtend args pools reqs = some extended) :
    Forall₂ (Prefilled args) reqs extended.reqs ∧ Pools.Evicts pools extended.pools ∧
      pools.ledger = (extended.reqs.map (held args.rope)).sum + extended.pools.ledger := by
  obtain ⟨done,slotted,funded,slots,start,last,walks,totalTokens,run,-⟩ := picAllocForExtend_run executed
  obtain ⟨out,rfl⟩ := run.finish
  obtain ⟨assigned,evictsRows,ledgerRows⟩ := allocReqSlots_spec (fun req member => (ready req member).2) run.rows
  obtain ⟨-,evictsKv,ledgerKv,-⟩ := Pools.allocTokenSlots_spec run.kv
  obtain ⟨allocated,holding,evictsWalk,left,-⟩ := allocReqs_served (assigned_ready assigned ready) run.left run.walked
  have prefilled : Forall₂ (Prefilled args) reqs (walks.map Walk.req) := Related.comp assigned allocated
  have evictsWalk : Pools.Evicts funded last.pools := run.pools ▸ evictsWalk
  have evictsFinish : Pools.Evicts last.pools (Extended.finish out totalTokens (walks,last)).pools :=
    ⟨rfl,rfl,fun _ _ found => found,fun _ _ found _ => found⟩
  refine ⟨prefilled,((evictsRows.trans evictsKv).trans evictsWalk).trans evictsFinish,?_⟩
  have owns : ((walks.map Walk.req).map (held args.rope)).sum = (walks.map fun walk => givenHolding args.rope walk.req).sum +
      ((walks.map Walk.req).map fun req => mambaHolding req.mambaPoolIdx.toList).sum := by
    rw [map_map,map_map,← sum_map_add]
    refine congrArg List.sum (map_congr_left fun walk member => ?_)
    obtain ⟨before,inside,related⟩ := exists_left prefilled (mem_map_of_mem member)
    exact held_prefilled related (ready before inside).2
  have states : (done.map fun req => mambaHolding req.mambaPoolIdx.toList).sum =
      ((walks.map Walk.req).map fun req => mambaHolding req.mambaPoolIdx.toList).sum := by
    refine Related.sum_eq allocated _ _ fun before _ after related => ?_
    rw [(congrArg Req.mambaPoolIdx related.frame).trans rfl]
  have ledgerFinish : (Extended.finish out totalTokens (walks,last)).pools.ledger = last.pools.ledger :=
    last.pools.ledger_withCache rfl
  rw [ledgerRows,ledgerKv,← run.holding,← holding,states,ledgerFinish,left.spent]
  change _ = ((walks.map Walk.req).map (held args.rope)).sum + _
  rw [owns]
  abel
end Batch

end Hypic.Custody
