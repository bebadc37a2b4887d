import Hypic.SegLaCompose
import Hypic.Persist
import Hypic.Rows

/-! A SegLA hit reads the state of its own entry. One worker: its engine, the destinations it has given away for segments
    from other workers, and one layer's states. The mirror is keyed by slot and outlives the entry, so a slot that is filled
    without the mirror must not have one. -/

namespace Hypic.SegLaReads
open Policy Allocator Cache Request Alloc Release Scheduler Custody Handover Ownership Runs Forward Ragged Lightning SegLaCompose List Dict
universe u v w
variable {Hash : Type u} [DecidableEq Hash]

/-- What `_alloc_dst` stashes for a segment that another worker will write. -/
structure Destination (Hash : Type u) where
  segHash : Hash
  tokenIds : List Token
  kvSlots : List Slot
  mambaSlot : Slot

/-- `computed` keeps what each token of the request in a slot added to the layer, `stored` the canonical state of each entry's
    segment at the time the entry was made. Both only record. -/
structure Worker (Hash : Type u) [DecidableEq Hash] (S : Type w) where
  engine : Engine Hash
  pending : Dict (Nat × Nat) (Destination Hash)
  layer : SegLaCache S
  computed : Slot → Nat → S
  stored : SegmentEntry Hash → S

inductive Action (S : Type w) where
  | engine (action : Scheduler.Action)
  | prefill (rids : List Nat) (added : Slot → Nat → S)
  | decode (rids : List Nat) (states : Slot → S)
  | allocDst (key : Nat × Nat) (tokenIds : List Token)
  | land (slot : Slot) (state : S)
  | inject (key : Nat × Nat) (now : Nat)
  | freeDst (key : Nat × Nat)

/-- `inject_received_segment`: an entry with the hash is reused, whatever its tokens are. -/
def injectReceivedSegment (cache : PICache Hash) (now : Nat) (segHash : Hash) (tokenIds : List Token) (fullKvSlots : List Slot)
    (mambaStateSlot : Slot) : PICache Hash :=
  match cache.entries.get? segHash with
  | some existing => cache.lock existing
  | none =>
    let (entry,cache) := cache.insertSegment now segHash tokenIds fullKvSlots mambaStateSlot
    cache.lock entry

namespace Worker
variable {S : Type w} (worker : Worker Hash S)

def start [Zero S] (kvSize mambaSize reqSize : Nat) (needSort : Bool) : Worker Hash S :=
  ⟨.start kvSize mambaSize reqSize needSort,.empty,⟨fun _ => 0,fun _ => none⟩,fun _ _ => 0,fun _ => 0⟩

def withPools (pools : Pools Hash) : Worker Hash S := { worker with engine := { worker.engine with pools := pools } }

/-- Objects made since `before` get their state recorded. -/
def record (before : PICache Hash) (state : SegmentEntry Hash → S) : Worker Hash S :=
  { worker with stored := fun entry => if before.created ≤ entry.oid then state entry else worker.stored entry }

/-- `_free_combine_pending` and the duplicate branch of `drain_injects` give the slots back. -/
def freeSlots (dst : Destination Hash) : Worker Hash S :=
  worker.withPools ((worker.engine.pools.freeKv dst.kvSlots).freeMamba [dst.mambaSlot])

/-- The segment has left the in-flight count and the table. -/
def settle (key : Nat × Nat) (dst : Destination Hash) : Worker Hash S :=
  { worker.withPools (worker.engine.pools.withCache (worker.engine.pools.cache.removeInflight dst.tokenIds.length 1)) with
    pending := worker.pending.erase key }
end Worker

section Step
variable {T : Type v} {S : Type w} [Semiring T] [AddCommMonoid S] [Module Tᵐᵒᵖ S]
variable (args : ServerArgs Hash) (decay : T) (rope : RopeArgs S) (maxSegments : Nat)

/-- What each token of a request added to the layer. -/
def added (computed : Slot → Nat → S) (req : Req Hash) : Nat → S := computed (mambaCacheIndex req)

/-- The canonical state of the miss whose slot an entry got. -/
def missState (computed : Slot → Nat → S) (req : Req Hash) (entry : SegmentEntry Hash) : S :=
  ((req.picMissSegmentSlots.items.find? fun item => item.2.mamba = some entry.mambaStateSlot).map fun item =>
    canonicalState decay rope (added computed) req item.1).getD 0

/-- Steps of the engine that run no layer. Only caching makes entries. -/
def schedule (worker : Worker Hash S) (action : Scheduler.Action) : Option (Worker Hash S) :=
  let moved := (Scheduler.step args worker.engine action).map fun engine => { worker with engine := engine }
  let cached (rid : Nat) := (worker.engine.jobs.get? rid).bind fun job => moved.map fun next =>
    next.record worker.engine.pools.cache (missState decay rope worker.computed job.req)
  match action with
  | .allocForExtend _ | .allocForDecode _ => none
  | .cacheUnfinished rid _ | .finish rid _ _ => cached rid
  | _ => moved

/-- A prefill batch: slots for it, the deferred clear, and the forward pass. -/
def prefill (worker : Worker Hash S) (rids : List Nat) (fresh : Slot → Nat → S) : Option (Worker Hash S) :=
  (worker.engine.batchAt [.admitted] rids).bind fun jobs =>
    (picAllocForExtend args worker.engine.pools (jobs.map Job.req)).bind fun extended =>
      let computed := fun slot => if slot ∈ extended.reqs.map mambaCacheIndex then fresh slot else worker.computed slot
      (forwardExtendPic args decay rope maxSegments (added computed) extended.reqs
        (executeDeferredMambaCowAndClear extended.reqs worker.layer)).map fun (layer,_) =>
          { worker with
            engine := worker.engine.putBatch rids (extended.reqs.map fun req => ⟨commitPrompt req,.prefilled⟩) extended.pools
            layer := layer
            computed := computed }

/-- A decode batch: each request's state in its own slot is replaced. -/
def decode (worker : Worker Hash S) (rids : List Nat) (states : Slot → S) : Option (Worker Hash S) :=
  (worker.engine.batchAt [.prefilled,.cached] rids).bind fun jobs =>
    (Scheduler.step args worker.engine (.allocForDecode rids)).map fun engine =>
      { worker with
        engine := engine
        layer := { worker.layer with
          ssmStates := scatter worker.layer.ssmStates (jobs.map fun job => (mambaCacheIndex job.req,states (mambaCacheIndex job.req))) } }

def allocDst (worker : Worker Hash S) (key : Nat × Nat) (tokenIds : List Token) : Option (Worker Hash S) :=
  (worker.engine.pools.allocTokenSlots tokenIds.length).bind fun (kvSlots,pools) =>
    pools.allocOneMamba.map fun (mambaSlot,pools) =>
      { worker.withPools (pools.withCache (pools.cache.addInflight tokenIds.length 1)) with
        pending := worker.pending.set key ⟨args.segmentHash tokenIds,tokenIds,kvSlots,mambaSlot⟩ }

/-- `drain_injects` for a segment whose writes have both landed. -/
def inject (worker : Worker Hash S) (key : Nat × Nat) (now : Nat) : Option (Worker Hash S) :=
  (worker.pending.get? key).map fun dst =>
    let cache := worker.engine.pools.cache
    let injected := worker.withPools (worker.engine.pools.withCache
      (injectReceivedSegment cache now dst.segHash dst.tokenIds dst.kvSlots dst.mambaSlot))
    let kept := if (cache.entries.get? dst.segHash).isSome then injected.freeSlots dst
      else injected.record cache fun entry => worker.layer.ssmStates entry.mambaStateSlot
    kept.settle key dst

def step (worker : Worker Hash S) : Action S → Option (Worker Hash S)
  | .engine action => schedule args decay rope worker action
  | .prefill rids fresh => prefill args decay rope maxSegments worker rids fresh
  | .decode rids states => decode args worker rids states
  | .allocDst key tokenIds => allocDst args worker key tokenIds
  | .land slot state => some { worker with layer := { worker.layer with ssmStates := Function.update worker.layer.ssmStates slot state } }
  | .inject key now => inject worker key now
  | .freeDst key => (worker.pending.get? key).map fun dst => (worker.freeSlots dst).settle key dst

end Step

/-! ### When a hit reads its own entry -/

section Guard
variable {S : Type w} (args : ServerArgs Hash) (worker : Worker Hash S)

/-- No cacheable miss is the prompt's last segment: a lone segment is cached, but no forward pass writes it back. -/
def Inner (req : Req Hash) : Prop := ∀ seg ∈ cacheable args req, some seg ≠ req.lastSeg

/-- What a request refers to is in the index, and locked there. -/
def Secured (cache : PICache Hash) (req : Req Hash) : Prop :=
  Held req cache ∧ ∀ entry ∈ req.picSegmentEntries.values, 0 < cache.lockRef entry

/-- When hits read their own states: no lone segment is cached, no request is cached twice, what a batch hits is still in the index
    and locked, a remote write lands while its destination waits, and a segment is injected into a slot without a mirror. -/
def Kept : Action S → Prop
  | .engine (.cacheUnfinished rid _) => ∀ job ∈ worker.engine.jobAt [.prefilled] rid, Inner args job.req
  | .engine (.finish rid _ isInsert) => ∀ job ∈ worker.engine.jobAt [.prefilled,.cached] rid,
      isInsert = true → settled job.req = [] ∧ Inner args job.req
  | .prefill rids _ => ∀ jobs ∈ worker.engine.batchAt [.admitted] rids, ∀ job ∈ jobs, Secured worker.engine.pools.cache job.req
  | .land slot _ => ∃ item ∈ worker.pending.items, item.2.mambaSlot = slot
  | .inject key _ => ∀ dst ∈ worker.pending.get? key, worker.engine.pools.cache.entries.get? dst.segHash = none →
      (worker.layer.segStateFp32 dst.mambaSlot).isNone = true
  | _ => True

instance (req : Req Hash) : Decidable (Inner args req) := inferInstanceAs (Decidable (∀ seg ∈ cacheable args req, _))
instance (cache : PICache Hash) (req : Req Hash) : Decidable (Secured cache req) := inferInstanceAs (Decidable (_ ∧ _))
instance : (action : Action S) → Decidable (Kept args worker action)
  | .engine (.cacheUnfinished rid _) => inferInstanceAs (Decidable (∀ job ∈ worker.engine.jobAt [.prefilled] rid, _))
  | .engine (.finish rid _ _) => inferInstanceAs (Decidable (∀ job ∈ worker.engine.jobAt [.prefilled,.cached] rid, _))
  | .prefill rids _ => inferInstanceAs (Decidable (∀ jobs ∈ worker.engine.batchAt [.admitted] rids, _))
  | .land _ _ => inferInstanceAs (Decidable (∃ item ∈ worker.pending.items, _))
  | .inject key _ => inferInstanceAs (Decidable (∀ dst ∈ worker.pending.get? key, _))
  | .decode .. | .allocDst .. | .freeDst _ => isTrue trivial
  | .engine (.arrive ..) | .engine (.matchPrefix ..) | .engine (.incLockRef _) | .engine (.allocForExtend _)
  | .engine (.allocForDecode _) | .engine (.evict ..) => isTrue trivial

end Guard

/-! ### Who writes a slot -/

section Slots
variable {S : Type w} {args : ServerArgs Hash}

def Destination.holding (dst : Destination Hash) : Holding := kvHolding dst.kvSlots + mambaHolding [dst.mambaSlot]

/-- The engine's slots and those given away. -/
def total (args : ServerArgs Hash) (worker : Worker Hash S) : Holding :=
  ledger args worker.engine + worker.pending.total fun item => item.2.holding

theorem apart (left right rest : Holding) {whole : Holding} (unshared : Unshared whole) (split : whole = left + right + rest) {slot : Slot}
    (inLeft : slot ∈ left.2) (inRight : slot ∈ right.2) : False :=
  (split ▸ unshared : Unshared (left + right + rest)).left.snd_disjoint inLeft inRight

theorem own_entry (entry : SegmentEntry Hash) : entry.mambaStateSlot ∈ entry.holding.2 := by simp [SegmentEntry.holding]
theorem own_destination (dst : Destination Hash) : dst.mambaSlot ∈ dst.holding.2 := by simp [Destination.holding]

/-- The slots of all requests but one. -/
def others (args : ServerArgs Hash) (worker : Worker Hash S) (rid : Nat) : Holding :=
  (worker.engine.jobs.erase rid).total fun item => held args.rope item.2.req

variable {worker : Worker Hash S} (unshared : Unshared (total args worker))
include unshared

section
variable {key : Hash} {entry : SegmentEntry Hash} (found : worker.engine.pools.cache.entries.get? key = some entry)
include found

theorem entry_apart_job {rid : Nat} {job : Job Hash} (present : worker.engine.jobs.get? rid = some job) :
    entry.mambaStateSlot ∉ (held args.rope job.req).2 := by
  intro inside
  obtain ⟨rest,split⟩ := worker.engine.pools.cache.holding_of_get? found
  refine apart entry.holding (held args.rope job.req) (rest + kvHolding worker.engine.pools.kv.slots +
    mambaHolding worker.engine.pools.mamba.freeSlots + others args worker rid + worker.pending.total fun item => item.2.holding)
    unshared ?_ (own_entry entry) inside
  simp only [total,ledger,Pools.ledger,split,total_of_get? _ present,others]
  abel

theorem entry_apart_pending {place : Nat × Nat} {dst : Destination Hash} (waits : worker.pending.get? place = some dst) :
    entry.mambaStateSlot ≠ dst.mambaSlot := by
  intro same
  obtain ⟨rest,split⟩ := worker.engine.pools.cache.holding_of_get? found
  refine apart entry.holding dst.holding (rest + kvHolding worker.engine.pools.kv.slots +
    mambaHolding worker.engine.pools.mamba.freeSlots + worker.engine.jobs.total (fun item => held args.rope item.2.req) +
    (worker.pending.erase place).total fun item => item.2.holding) unshared ?_ (own_entry entry) (same ▸ own_destination dst)
  simp only [total,ledger,Pools.ledger,split,total_of_get? _ waits]
  abel

end

theorem job_apart_job {rid other : Nat} {job otherJob : Job Hash} (present : worker.engine.jobs.get? rid = some job)
    (otherPresent : worker.engine.jobs.get? other = some otherJob) (differ : other ≠ rid) {slot : Slot}
    (mine : slot ∈ (held args.rope job.req).2) : slot ∉ (held args.rope otherJob.req).2 := by
  intro theirs
  have kept : (worker.engine.jobs.erase rid).get? other = some otherJob := by rw [get?_erase,if_neg differ,otherPresent]
  refine apart (held args.rope job.req) (held args.rope otherJob.req) (worker.engine.pools.ledger +
    ((worker.engine.jobs.erase rid).erase other).total (fun item => held args.rope item.2.req) +
    worker.pending.total fun item => item.2.holding) unshared ?_ mine theirs
  simp only [total,ledger,total_of_get? _ present,total_of_get? _ kept]
  abel

end Slots

section Held
variable {args : ServerArgs Hash}

variable {req : Req Hash}

theorem held_own (unsettled : settled req = []) (indexed : req.mambaPoolIdx.isSome) :
    (held args.rope req).2 = ↑(ownSlots req) := by
  obtain ⟨slot,index⟩ := isSome_iff_exists.mp indexed
  rw [held,missTotal,unsettled,Prod.snd_add,Prod.snd_add,Prod.snd_add,unsettled_states,kvHolding_snd,kvHolding_snd,add_zero,add_zero,
    mambaHolding_snd,ownSlots,mambaCacheIndex,index,← coe_add]
  rfl

theorem held_index (indexed : req.mambaPoolIdx.isSome) : mambaCacheIndex req ∈ (held args.rope req).2 := by
  obtain ⟨slot,index⟩ := isSome_iff_exists.mp indexed
  simp [held,mambaCacheIndex,index]

theorem miss_of_slot (once : (held args.rope req).2.Nodup) (unsettled : settled req = []) (indexed : req.mambaPoolIdx.isSome)
    {seg other : Seg} {slot : Slot} (found : (picMissMambaSlots req).get? seg = some slot)
    (otherFound : (picMissMambaSlots req).get? other = some slot) : seg = other := by
  rw [held_own unsettled indexed,Multiset.coe_nodup] at once
  have once := (nodup_append.mp once).1
  exact congrArg Prod.fst (inj_on_of_nodup_map once ((get?_eq_some ..).mp found) ((get?_eq_some ..).mp otherFound) rfl)

/-- Caching makes entries of the cacheable misses, with their state slots, and leaves no other new entry. -/
theorem cacheUnfinishedReq_made {now : Nat} {req after : Req Hash} {pools final : Pools Hash}
    (executed : cacheUnfinishedReq args now req pools = some (after,final)) {key : Hash} {entry : SegmentEntry Hash}
    (present : final.cache.entries.get? key = some entry) :
    pools.cache.entries.get? key = some entry ∨
      pools.cache.created ≤ entry.oid ∧ ∃ seg ∈ cacheable args req, (picMissMambaSlots req).get? seg = some entry.mambaStateSlot := by
  obtain ⟨state,looped,same⟩ := map_eq_some_iff.mp executed
  cases same
  have made := foldlM_keeps (fun state remaining => CachedOnly (unsettledReq req) state.req ∧
      (∀ seg ∈ remaining, seg ∈ req.picMissSegments) ∧ pools.cache.created ≤ state.pools.cache.created ∧
      ∀ key entry, state.pools.cache.entries.get? key = some entry → pools.cache.entries.get? key = some entry ∨
        pools.cache.created ≤ entry.oid ∧ ∃ seg ∈ cacheable args req, (picMissMambaSlots req).get? seg = some entry.mambaStateSlot)
    (fun state seg rest next inv stepped => by
      obtain ⟨frame,inside,grown,all⟩ := inv
      have later : ∀ seg ∈ rest, seg ∈ req.picMissSegments := (forall_mem_cons.mp inside).2
      refine ⟨frame.trans (Persist.cacheMiss_frame stepped),later,?_⟩
      cases cacheMiss_step stepped with
      | skip => exact ⟨grown,all⟩
      | adopt files there tokens entries created => exact ⟨grown.trans_eq created.symm,entries ▸ all⟩
      | @insert _ miss kvSlots mambaSlot fresh files unmatched made entries created =>
        refine ⟨grown.trans (created ▸ Nat.le_succ _),fun key entry listed => ?_⟩
        rw [entries,get?_set] at listed
        split at listed
        · rw [← Option.some.inj listed,made]
          refine .inr ⟨grown,seg,?_,?_⟩
          · have cacheable := files.cacheable
            rw [frame.skips] at cacheable
            exact mem_filter.mpr ⟨inside seg mem_cons_self,decide_eq_true cacheable⟩
          · have found : req.picMissSegmentSlots.get? seg = some miss := frame.slots ▸ files.found
            rw [picMissMambaSlots,get?_filterMap,found]
            exact files.mamba
        · exact all key entry listed)
    ⟨CachedOnly.refl _,fun _ member => member,le_rfl,fun _ _ found => .inl found⟩ looped
  refine made.2.2.2 key entry ?_
  split at present
  · exact present
  · exact present

end Held

/-! ### The layer -/

section Layer
variable {T : Type v} {S : Type w} [Semiring T] [AddCommMonoid S] [Module Tᵐᵒᵖ S]
variable {args : ServerArgs Hash} {decay : T} {rope : RopeArgs S} {inputs : Req Hash → Nat → S}

variable {slot : Slot}

theorem own_slot {req : Req Hash} {seg : Seg} (found : (picMissMambaSlots req).get? seg = some slot) : slot ∈ ownSlots req :=
  mem_append_left _ (mem_values_of_get? found)

/-- Two layers that agree outside a batch's own slots. -/
structure Beside (batch : List (Req Hash)) (before after : SegLaCache S) : Prop where
  ssm : ∀ slot, slot ∉ batch.flatMap ownSlots → after.ssmStates slot = before.ssmStates slot
  mirror : ∀ slot, slot ∉ batch.flatMap ownSlots → after.segStateFp32 slot = before.segStateFp32 slot

variable {batch : List (Req Hash)}

theorem Beside.read {before after : SegLaCache S} (beside : Beside batch before after)
    (other : slot ∉ batch.flatMap ownSlots) : readState after slot = readState before slot := by
  rw [readState,readState,beside.ssm slot other,beside.mirror slot other]

theorem Beside.trans {first second third : SegLaCache S} (left : Beside batch first second)
    (right : Beside batch second third) : Beside batch first third :=
  ⟨fun slot other => (right.ssm slot other).trans (left.ssm slot other),
    fun slot other => (right.mirror slot other).trans (left.mirror slot other)⟩

theorem not_index (other : slot ∉ batch.flatMap ownSlots) : slot ∉ batch.map mambaCacheIndex := by
  intro inside
  obtain ⟨req,member,rfl⟩ := mem_map.mp inside
  exact other (mem_flatMap.mpr ⟨req,member,mem_append_right _ (mem_singleton.mpr rfl)⟩)

theorem cleared_beside (batch : List (Req Hash)) (cache : SegLaCache S) :
    Beside batch cache (executeDeferredMambaCowAndClear batch cache) := by
  refine ⟨fun slot other => scatter_other _ _ ?_,fun _ _ => rfl⟩
  rw [map_map]
  exact not_index other

theorem write_beside (cache : SegLaCache S) {writes : List (Slot × S)}
    (back : WriteBack decay rope inputs batch writes) : Beside batch cache (cache.write writes) := by
  have absent {slot : Slot} (other : slot ∉ batch.flatMap ownSlots) : slot ∉ writes.map Prod.fst := by
    rw [back.slots]
    intro inside
    obtain ⟨req,member,cached⟩ := mem_flatMap.mp inside
    exact other (mem_flatMap.mpr ⟨req,member,cachedSlots_subset req cached⟩)
  refine ⟨fun slot other => scatter_other _ _ (absent other),fun slot other => scatter_other _ _ ?_⟩
  rw [map_map]
  exact absent other

section
variable {cache after : SegLaCache S} (written : WritesBack decay rope inputs batch cache after)
include written

theorem written_beside :
    Beside batch cache after := by
  obtain ⟨writes,back,mirror,frame⟩ := written
  refine (write_beside cache back).trans ⟨fun slot other => frame slot (not_index other),fun slot other => ?_⟩
  rw [mirror]

theorem written_mirror (loaded : AllLoaded args batch) (laid : Laid batch) {req : Req Hash} (member : req ∈ batch) {seg : Seg}
    (found : (picMissMambaSlots req).get? seg = some slot) (missed : seg ∈ req.picMissSegments) (inner : some seg ≠ req.lastSeg) :
    after.segStateFp32 slot = some (canonicalState decay rope inputs req seg) := by
  obtain ⟨writes,back,mirror,-⟩ := written
  have distinct : ((writes.map fun item => (item.1,some item.2)).map Prod.fst).Nodup := by
    rw [map_map]
    exact back.slots ▸ cachedSlots_nodup loaded laid
  have listed : slot ∈ writes.map Prod.fst := by
    rw [back.slots]
    exact mem_flatMap.mpr ⟨req,member,mem_cachedSlots missed inner found⟩
  obtain ⟨⟨place,value⟩,write,rfl⟩ := mem_map.mp listed
  obtain ⟨other,otherMember,record,recordOf,cached,same⟩ := back.each _ write
  have kept : (cache.write writes).segStateFp32 place = some value :=
    scatter_mem _ _ distinct (mem_map_of_mem (f := fun item => (item.1,some item.2)) write)
  rw [recordOf.eq,recordOf_cached] at cached
  split at cached
  · obtain ⟨rfl,rfl⟩ := laid.owner member otherMember found cached
    exact (congrFun mirror place).trans (kept.trans (congrArg some same))
  · cases cached

end

end Layer

/-! ### The invariant -/

section Invariant
variable {T : Type v} {S : Type w} [Semiring T] [AddCommMonoid S] [Module Tᵐᵒᵖ S]
variable (args : ServerArgs Hash) (decay : T) (rope : RopeArgs S) (maxSegments : Nat)

/-- One request's share: it was matched as the forward pass expects, it has its own slot while it runs, and until it is cached the
    mirror has the states that caching will hand over. -/
structure JobSound (layer : SegLaCache S) (computed : Slot → Nat → S) (job : Job Hash) : Prop where
  seams : job.stage ∈ [Stage.waiting,.matched,.admitted] → args.recompute = false → job.req.picHitSeamPositions = .empty
  planned : job.stage ∈ [Stage.matched,.admitted] → Seamed job.req ∧
    job.req.picMissTokenPositions = missTokenPositions job.req.picMissSegments job.req.picHitSeamPositions
  indexed : job.stage ∈ [Stage.prefilled,.cached] → job.req.mambaPoolIdx.isSome
  ready : job.stage = .prefilled → ∀ seg slot, (picMissMambaSlots job.req).get? seg = some slot → some seg ≠ job.req.lastSeg →
    layer.segStateFp32 slot = some (canonicalState decay rope (added computed) job.req seg)

/-- Every entry of the index reads as it was stored. -/
def Reads (worker : Worker Hash S) : Prop :=
  ∀ key entry, worker.engine.pools.cache.entries.get? key = some entry → readState worker.layer entry.mambaStateSlot = worker.stored entry

structure Sound (worker : Worker Hash S) : Prop where
  ok : JobsOk args worker.engine
  unshared : Unshared (total args worker)
  jobs : ∀ rid job, worker.engine.jobs.get? rid = some job → JobSound args decay rope worker.layer worker.computed job
  reads : Reads worker

theorem start_sound (kvSize mambaSize reqSize : Nat) (needSort : Bool) :
    Sound args decay rope (Worker.start kvSize mambaSize reqSize needSort) := by
  refine ⟨start_ok args kvSize mambaSize reqSize needSort,?_,fun rid job found => ?_,fun key entry found => ?_⟩
  · simp only [total,Worker.start,total_empty,add_zero]
    rw [start_ledger]
    constructor
    · simpa using nodup_range'
    · simpa using nodup_range'
  · simp [Worker.start,Engine.start] at found
  · simp [Worker.start,Engine.start,Pools.clear,PICache.empty] at found

variable {args decay rope}

theorem missState_eq {req : Req Hash} (once : (held args.rope req).2.Nodup) (unsettled : settled req = []) (indexed : req.mambaPoolIdx.isSome)
    {seg : Seg} {entry : SegmentEntry Hash} (computed : Slot → Nat → S)
    (found : (picMissMambaSlots req).get? seg = some entry.mambaStateSlot) :
    missState decay rope computed req entry = canonicalState decay rope (added computed) req seg := by
  have lookup {other : Seg} {miss : MissSlots} (listed : (other,miss) ∈ req.picMissSegmentSlots.items)
      (mamba : miss.mamba = some entry.mambaStateSlot) : (picMissMambaSlots req).get? other = some entry.mambaStateSlot := by
    rw [picMissMambaSlots,get?_filterMap,(get?_eq_some ..).mpr listed,bind_some,mamba]
  rw [missState]
  cases sought : req.picMissSegmentSlots.items.find? fun item => decide (item.2.mamba = some entry.mambaStateSlot) with
  | none =>
    rw [picMissMambaSlots,get?_filterMap] at found
    obtain ⟨miss,here,mamba⟩ := bind_eq_some_iff.mp found
    have refuted := find?_eq_none.mp sought (seg,miss) ((get?_eq_some ..).mp here)
    simp [mamba] at refuted
  | some item =>
    have fits := find?_some sought
    simp only [decide_eq_true_eq] at fits
    have same := miss_of_slot once unsettled indexed (lookup (mem_of_find?_eq_some sought) fits) found
    simp [same]

section Moves
variable {worker : Worker Hash S} {engine : Engine Hash} {lost : Holding}

theorem total_moved (unshared : Unshared (total args worker)) (moved : ledger args engine + lost = ledger args worker.engine) :
    Unshared (total args { worker with engine := engine }) := by
  have whole : total args { worker with engine := engine } + lost = total args worker := by
    simp only [total]
    rw [add_right_comm,moved]
  exact Unshared.left (whole ▸ unshared)

theorem Sound.moved (sound : Sound args decay rope worker) (ok : JobsOk args engine)
    (moved : ledger args engine + lost = ledger args worker.engine)
    (jobs : ∀ rid job, engine.jobs.get? rid = some job → JobSound args decay rope worker.layer worker.computed job)
    (entries : ∀ key entry, engine.pools.cache.entries.get? key = some entry →
      worker.engine.pools.cache.entries.get? key = some entry) : Sound args decay rope { worker with engine := engine } := by
  have unshared : Unshared (total args { worker with engine := engine }) := total_moved sound.unshared moved
  exact ⟨ok,unshared,jobs,fun key entry found => sound.reads key entry (entries key entry found)⟩

theorem Sound.recorded (sound : Sound args decay rope worker) (ok : JobsOk args engine)
    (moved : ledger args engine + lost = ledger args worker.engine)
    (jobs : ∀ rid job, engine.jobs.get? rid = some job → JobSound args decay rope worker.layer worker.computed job)
    {state : SegmentEntry Hash → S} (entries : ∀ key entry, engine.pools.cache.entries.get? key = some entry →
      worker.engine.pools.cache.entries.get? key = some entry ∨
        worker.engine.pools.cache.created ≤ entry.oid ∧ readState worker.layer entry.mambaStateSlot = state entry) :
    Sound args decay rope (({ worker with engine := engine } : Worker Hash S).record worker.engine.pools.cache state) := by
  have unshared : Unshared (total args { worker with engine := engine }) := total_moved sound.unshared moved
  refine ⟨ok,unshared,jobs,fun key entry found => ?_⟩
  simp only [Worker.record]
  rcases entries key entry found with old | ⟨new,reads⟩
  · have known := worker.engine.pools.cache.fresh key entry old
    rw [if_neg (by omega)]
    exact sound.reads key entry old
  · rw [if_pos new]
    exact reads

end Moves

theorem rematch_seamed (now : Nat) (req : Req Hash) (cache : PICache Hash) (nonempty : req.picSegments ≠ [])
    (consecutive : Consecutive 0 req.picSegments req.originInputIds.length)
    (seams : args.recompute = false → req.picHitSeamPositions = .empty) : Seamed (initNextRoundInput args now req cache).1 := by
  cases recompute : args.recompute with
  | false => exact Admission.initNextRoundInput_seamed args now req cache nonempty consecutive (seams recompute)
  | true =>
    have empty := Admission.initNextRoundInput_seamed args now { req with picHitSeamPositions := .empty } cache nonempty consecutive rfl
    simp only [initNextRoundInput,matchPrefix,nonempty,if_false,recompute,if_true] at empty ⊢
    exact empty

section Engine
variable {worker next : Worker Hash S} (sound : Sound args decay rope worker)
include sound

theorem made_reads {rid now : Nat} {job : Job Hash} {mid : Req Hash} {pools : Pools Hash} (found : worker.engine.jobs.get? rid = some job)
    (unsettled : settled job.req = []) (stage : job.stage ∈ [Stage.prefilled,.cached]) (inner : Inner args job.req)
    (executed : cacheUnfinishedReq args now job.req worker.engine.pools = some (mid,pools)) {key : Hash} {entry : SegmentEntry Hash}
    (present : pools.cache.entries.get? key = some entry) :
    worker.engine.pools.cache.entries.get? key = some entry ∨ worker.engine.pools.cache.created ≤ entry.oid ∧
      readState worker.layer entry.mambaStateSlot = missState decay rope worker.computed job.req entry := by
  rcases cacheUnfinishedReq_made executed present with old | ⟨new,seg,chosen,slot⟩
  · exact .inl old
  · have known := sound.jobs rid job found
    have prefilled : job.stage = .prefilled := by
      simp only [mem_cons,not_mem_nil,or_false] at stage
      refine stage.resolve_right fun cached => ?_
      have here := sound.ok rid job found
      simp only [JobOk,cached] at here
      have inside := (here.2 seg).mpr chosen
      simp [unsettled] at inside
    have indexed := known.indexed stage
    have mirror := known.ready prefilled seg entry.mambaStateSlot slot (inner seg chosen)
    have once : (held args.rope job.req).2.Nodup := by
      have whole := sound.unshared.left
      rw [ledger,total_of_get? _ found] at whole
      exact whole.right.left.2
    refine .inr ⟨new,?_⟩
    rw [missState_eq once unsettled indexed worker.computed slot,readState,mirror,getD_some]

theorem schedule_sound {action : Scheduler.Action} (kept : Kept args worker (.engine action))
    (scheduled : schedule args decay rope worker action = some next) : Sound args decay rope next := by
  obtain ⟨engine,stepped⟩ : ∃ engine, Scheduler.step args worker.engine action = some engine := by
    refine isSome_iff_exists.mp (Option.isSome_iff_ne_none.mpr fun failed => ?_)
    cases action <;> simp [schedule,failed] at scheduled
  have ok := step_ok sound.ok stepped
  have moved (plain : caches action = false) : ledger args engine + 0 = ledger args worker.engine :=
    (add_zero _).trans (step_ledger sound.ok plain stepped)
  cases step_stepped sound.ok stepped with
  | allocForExtend => cases scheduled
  | allocForDecode => cases scheduled
  | arrive absent created =>
    simp only [schedule,stepped,map_some,Option.some.injEq] at scheduled
    subst scheduled
    exact sound.moved ok (moved rfl) (putJob_all sound.jobs _ _ ⟨fun _ _ => rfl,by simp,by simp,by simp⟩) fun _ _ found => found
  | @matchPrefix rid now job found stage consecutive nonempty fresh ordinary =>
    simp only [schedule,stepped,map_some,Option.some.injEq] at scheduled
    subst scheduled
    have seams : args.recompute = false → job.req.picHitSeamPositions = .empty :=
      (sound.jobs rid job found).seams (by simp only [mem_cons] at stage ⊢; tauto)
    obtain ⟨entries,-,-⟩ := initNextRoundInput_frame args now job.req worker.engine.pools.cache
    refine sound.moved ok (moved rfl) (putJob_all sound.jobs _ _ ⟨fun _ plain => ?_,fun _ => ⟨?_,?_⟩,by simp,by simp⟩)
      fun key entry present => (congrArg (·.get? key) entries).symm.trans present
    · simp only [initNextRoundInput,matchPrefix,nonempty,if_false,plain,false_eq_true]
      exact (Admission.collectHits_plain args plain ..).trans (seams plain)
    · exact rematch_seamed now job.req _ nonempty consecutive seams
    · exact initNextRoundInput_positions args now job.req _ nonempty consecutive
  | @incLockRef rid job here found stage ready =>
    simp only [schedule,stepped,map_some,Option.some.injEq] at scheduled
    subst scheduled
    have known := sound.jobs rid job found
    obtain ⟨entries,-⟩ := incLockRef_frame job.req worker.engine.pools.cache
    exact sound.moved ok (moved rfl) (putJob_all sound.jobs _ _ ⟨fun _ => known.seams (by simp [stage]),
      fun _ => known.planned (by simp [stage]),by simp,by simp⟩)
      fun key entry present => (congrArg (·.get? key) entries).symm.trans present
  | @evict numTokens mambaNum =>
    simp only [schedule,stepped,map_some,Option.some.injEq] at scheduled
    subst scheduled
    obtain ⟨evicts,-,-⟩ := worker.engine.pools.evict_evicts numTokens mambaNum
    exact sound.moved ok (moved rfl) sound.jobs evicts.kept
  | @cacheUnfinished rid now job after pools here found stage running unsettled executed =>
    simp only [schedule,stepped,found,bind_some,map_some,Option.some.injEq] at scheduled
    subst scheduled
    obtain ⟨lost,lostMoved,-⟩ := cacheUnfinished_moves sound.ok stepped
    have frame := (cacheUnfinishedReq_ledger running.plainPub running.distinct executed).1.frame
    have indexed := (sound.jobs rid job found).indexed (by simp [stage])
    refine sound.recorded ok lostMoved (putJob_all sound.jobs _ _ ⟨by simp,by simp,fun _ => ?_,by simp⟩) fun key entry present =>
      made_reads sound found unsettled (by simp [stage]) (kept job here) executed present
    rw [show after.mambaPoolIdx = job.req.mambaPoolIdx from (congrArg Req.mambaPoolIdx frame).trans rfl]
    exact indexed
  | @finish rid now isInsert job mid final midPools freed here found stage running cached ended =>
    simp only [schedule,stepped,found,bind_some,map_some,Option.some.injEq] at scheduled
    subst scheduled
    obtain ⟨lost,lostMoved,-⟩ := finish_moves sound.ok stepped fun job here insert => (kept job here insert).1
    refine sound.recorded ok lostMoved (eraseJob_all sound.jobs rid) fun key entry there => ?_
    replace there : midPools.cache.entries.get? key = some entry := (congrArg (·.get? key) ended.entries).symm.trans there
    unfold CachedAtEnd at cached
    split at cached
    · rename_i insert
      obtain ⟨unsettled,inner⟩ := kept job here insert
      exact made_reads sound found unsettled stage inner cached there
    · rw [cached.2] at there
      exact .inl there

end Engine

/-! ### Steps that touch the layer -/

section Prefill
variable {worker : Worker Hash S} {rids : List Nat} {jobs : List (Job Hash)} {extended : Extended Hash}

section
variable (sound : Sound args decay rope worker)
include sound

theorem states_nodup : worker.engine.pools.ledger.2.Nodup := by
  have whole := sound.unshared.left
  rw [ledger] at whole
  exact whole.left.2

theorem batch_scheduled (batch : worker.engine.batchAt [.admitted] rids = some jobs)
    (secured : ∀ job ∈ jobs, Secured worker.engine.pools.cache job.req) :
    ∀ req ∈ jobs.map Job.req, Scheduled args worker.engine.pools req := by
  intro req member
  obtain ⟨-,found⟩ := batchAt_some batch
  obtain ⟨job,inside,rfl⟩ := mem_map.mp member
  obtain ⟨rid,-,present,stage⟩ := exists_left found inside
  simp only [mem_singleton] at stage
  have here := sound.ok rid job present
  simp only [JobOk,stage] at here
  have known := sound.jobs rid job present
  obtain ⟨seamed,positions⟩ := known.planned (by simp [stage])
  obtain ⟨held,locked⟩ := secured job inside
  exact ⟨here.1,here.2.2.1,held,locked,positions,known.seams (by simp [stage]),seamed⟩

/-- During the forward pass of a batch, a hit is read as its entry was stored. -/
def HitsRead (args : ServerArgs Hash) (rope : RopeArgs S) (worker : Worker Hash S) (rids : List Nat) : Prop :=
  ∀ jobs ∈ worker.engine.batchAt [.admitted] rids, ∀ extended ∈ picAllocForExtend args worker.engine.pools (jobs.map Job.req),
    ∀ req ∈ extended.reqs, ∀ hit ∈ req.picHitSegments, ∀ entry ∈ req.picSegmentEntries.get? hit.2,
      ∀ during, Beside extended.reqs worker.layer during →
        loadHitState rope during entry.mambaStateSlot hit.1.1 = rotateForReplay rope (worker.stored entry) hit.1.1

theorem Sound.hitsRead (secured : ∀ jobs ∈ worker.engine.batchAt [.admitted] rids, ∀ job ∈ jobs, Secured worker.engine.pools.cache job.req) :
    HitsRead args rope worker rids := by
  intro jobs batch extended allocated req member hit listed entry referred during beside
  have scheduled := batch_scheduled sound batch (secured jobs batch)
  obtain ⟨-,laid⟩ := picAllocForExtend_laid scheduled (states_nodup sound) allocated
  obtain ⟨prefilled,-,-⟩ := scheduled_spec scheduled allocated
  obtain ⟨before,inside,related⟩ := exists_left prefilled member
  have referredBefore : before.picSegmentEntries.get? hit.2 = some entry := (prefilled_match related).picSegmentEntries ▸ referred
  have reads := sound.reads hit.2 entry ((scheduled before inside).held hit.2 entry referredBefore)
  have slot : (picHitMambaSlots req).get? hit.2 = some entry.mambaStateSlot := by
    rw [picHitMambaSlots,get?_filterMap,referred]
    rfl
  have other := laid.apart req member entry.mambaStateSlot (mem_values_of_get? slot)
  exact congrArg (fun state => rotateForReplay rope state hit.1.1) ((beside.read other).trans reads)

end

theorem canonicalState_congr {computed other : Slot → Nat → S} {left right : Req Hash}
    (same : computed (mambaCacheIndex left) = other (mambaCacheIndex right)) (seg : Seg) :
    canonicalState decay rope (added computed) left seg = canonicalState decay rope (added other) right seg := by
  simp only [canonicalState,segTokens]
  rw [show added computed left = added other right from same]

theorem prefilled_indexed {before after : Req Hash} (prefilled : Prefilled args before after) : after.mambaPoolIdx.isSome := by
  obtain ⟨assigned,⟨row,slot,rfl⟩,allocated⟩ := prefilled
  rw [show after.mambaPoolIdx = some slot from (congrArg Req.mambaPoolIdx allocated.frame).trans rfl]
  rfl

theorem prefill_sound {fresh : Slot → Nat → S} {next : Worker Hash S} (sound : Sound args decay rope worker)
    (kept : Kept args worker (.prefill rids fresh)) (stepped : prefill args decay rope maxSegments worker rids fresh = some next) :
    Sound args decay rope next := by
  obtain ⟨jobs,batch,stepped⟩ := bind_eq_some_iff.mp stepped
  obtain ⟨extended,allocated,stepped⟩ := bind_eq_some_iff.mp stepped
  obtain ⟨⟨layer,seeds⟩,passed,rfl⟩ := map_eq_some_iff.mp stepped
  have scheduled := batch_scheduled sound batch (kept jobs batch)
  obtain ⟨loaded,laid⟩ := picAllocForExtend_laid scheduled (states_nodup sound) allocated
  obtain ⟨prefilled,evicts,-⟩ := scheduled_spec scheduled allocated
  obtain ⟨result,ran,written⟩ := forwardExtendPic_writes decay rope
    (added fun slot => if slot ∈ extended.reqs.map mambaCacheIndex then fresh slot else worker.computed slot) maxSegments loaded laid
    (executeDeferredMambaCowAndClear extended.reqs worker.layer)
  obtain rfl : result = (layer,seeds) := Option.some.inj (ran.symm.trans passed)
  have beside : Beside extended.reqs worker.layer layer := (cleared_beside extended.reqs worker.layer).trans (written_beside written)
  have engineStep : Scheduler.step args worker.engine (.allocForExtend rids) =
      some (worker.engine.putBatch rids (extended.reqs.map fun req => ⟨commitPrompt req,.prefilled⟩) extended.pools) := by
    simp only [Scheduler.step,batch,bind_some,allocated,map_some]
  have ok := step_ok sound.ok engineStep
  obtain ⟨distinct,found⟩ := batchAt_some batch
  have unshared := total_moved sound.unshared ((add_zero _).trans (step_ledger sound.ok rfl engineStep))
  have lengths : rids.length = (extended.reqs.map fun req => (⟨commitPrompt req,.prefilled⟩ : Job Hash)).length := by
    rw [length_map,← prefilled.length_eq,length_map,found.length_eq]
  -- Every request of the batch is in the engine, with the slots its forward pass wrote.
  have placed : ∀ req ∈ extended.reqs, ∃ rid ∈ rids,
      (worker.engine.jobs.setAll (rids.zip (extended.reqs.map fun req => ⟨commitPrompt req,.prefilled⟩))).get? rid =
        some ⟨commitPrompt req,.prefilled⟩ := by
    intro req member
    obtain ⟨place,listed⟩ := getElem?_of_mem (mem_map_of_mem (f := fun req => (⟨commitPrompt req,.prefilled⟩ : Job Hash)) member)
    obtain ⟨bound,-⟩ := List.getElem?_eq_some_iff.mp listed
    rw [← lengths] at bound
    refine ⟨rids[place],getElem_mem bound,get?_setAll_mem _ _ ?_ ?_⟩
    · rw [map_fst_zip (Nat.le_of_eq lengths)]
      exact distinct
    · exact mem_of_getElem? (getElem?_zip_eq_some.mpr ⟨getElem?_eq_getElem bound,listed⟩)
  have indexed : ∀ req ∈ extended.reqs, (commitPrompt req).mambaPoolIdx.isSome := by
    intro req member
    obtain ⟨before,-,related⟩ := exists_left prefilled member
    exact (prefilled_indexed related : req.mambaPoolIdx.isSome)
  have owned : ∀ req ∈ extended.reqs, (held args.rope (commitPrompt req)).2 = ↑(ownSlots req) := by
    intro req member
    obtain ⟨rid,-,present⟩ := placed req member
    have unsettled : settled (commitPrompt req) = [] := (ok rid _ present).2
    exact held_own unsettled (indexed req member)
  have outside {slot : Slot} (apart : ∀ rid ∈ rids, ∀ job, (worker.engine.jobs.setAll
      (rids.zip (extended.reqs.map fun req => ⟨commitPrompt req,.prefilled⟩))).get? rid = some job → slot ∉ (held args.rope job.req).2) :
      slot ∉ extended.reqs.flatMap ownSlots := by
    intro inside
    obtain ⟨req,member,own⟩ := mem_flatMap.mp inside
    obtain ⟨rid,listed,present⟩ := placed req member
    refine apart rid listed _ present ?_
    rw [owned req member]
    exact own
  refine ⟨ok,unshared,fun rid job present => ?_,fun key entry present => ?_⟩
  · rcases get?_setAll_some _ _ present with member | before
    · obtain ⟨req,inside,rfl⟩ := mem_map.mp (of_mem_zip member).2
      refine ⟨by simp,by simp,fun _ => indexed req inside,fun _ seg slot slotOf inner => ?_⟩
      have missed : seg ∈ req.picMissSegments := by
        have slotOf : (picMissMambaSlots req).get? seg = some slot := slotOf
        rw [picMissMambaSlots,get?_filterMap] at slotOf
        obtain ⟨miss,held,-⟩ := bind_eq_some_iff.mp slotOf
        exact ((loaded req inside).misses seg).mpr (by rw [held]; rfl)
      exact written_mirror written loaded laid inside slotOf missed inner
    · have known := sound.jobs rid job before
      refine ⟨known.seams,known.planned,known.indexed,fun stage seg slot slotOf inner => ?_⟩
      have here := sound.ok rid job before
      simp only [JobOk,stage] at here
      have index := known.indexed (by simp [stage])
      have elsewhere {slot : Slot} (mine : slot ∈ (held args.rope job.req).2) : slot ∉ extended.reqs.flatMap ownSlots := by
        refine outside fun other listed otherJob there => ?_
        have differ : other ≠ rid := by
          rintro rfl
          obtain ⟨job',-,there,admitted⟩ := exists_right found listed
          rw [before,Option.some.injEq] at there
          rw [← there,stage] at admitted
          simp at admitted
        exact job_apart_job unshared present there differ mine
      have own : slot ∈ (held args.rope job.req).2 := by
        rw [held_own here.2 index]
        exact own_slot slotOf
      refine (beside.mirror slot (elsewhere own)).trans ((known.ready stage seg slot slotOf inner).trans (congrArg some ?_))
      refine canonicalState_congr ?_ seg
      exact (if_neg (not_index (elsewhere (held_index index)))).symm
  · have other : entry.mambaStateSlot ∉ extended.reqs.flatMap ownSlots :=
      outside fun rid _ job there => entry_apart_job unshared present there
    exact (beside.read other).trans (sound.reads key entry (evicts.kept key entry present))

end Prefill

section Decode
variable {worker next : Worker Hash S} (sound : Sound args decay rope worker)
include sound

theorem decode_sound {rids : List Nat} {states : Slot → S} (stepped : decode args worker rids states = some next) :
    Sound args decay rope next := by
  obtain ⟨jobs,batch,stepped⟩ := bind_eq_some_iff.mp stepped
  obtain ⟨engine,engineStep,rfl⟩ := map_eq_some_iff.mp stepped
  obtain ⟨-,found⟩ := batchAt_some batch
  have ok := step_ok sound.ok engineStep
  have unshared := total_moved sound.unshared ((add_zero _).trans (step_ledger sound.ok rfl engineStep))
  cases step_stepped sound.ok engineStep with
  | allocForDecode others slots pools distinct listed running lengths allocated =>
    obtain ⟨-,evicts,-,-⟩ := Pools.allocTokenSlots_spec allocated
    refine ⟨ok,unshared,putBatch_all (fun rid job present => ?_) _ _ fun job member => ?_,fun key entry present => ?_⟩
    · obtain ⟨seams,planned,indexed,ready⟩ := sound.jobs rid job present
      exact ⟨seams,planned,indexed,ready⟩
    · obtain ⟨⟨earlier,slot⟩,inside,rfl⟩ := mem_map.mp member
      obtain ⟨owner,-,there⟩ := exists_left listed (of_mem_zip inside).1
      obtain ⟨seams,planned,indexed,ready⟩ := sound.jobs owner earlier there
      exact ⟨seams,planned,indexed,ready⟩
    · have old := evicts.kept key entry present
      have other : entry.mambaStateSlot ∉ (jobs.map fun job => (mambaCacheIndex job.req,states (mambaCacheIndex job.req))).map Prod.fst := by
        rw [map_map]
        intro inside
        obtain ⟨job,member,same⟩ := mem_map.mp inside
        obtain ⟨owner,-,there,stage⟩ := exists_left found member
        refine entry_apart_job sound.unshared old there ?_
        rw [← same]
        exact held_index ((sound.jobs owner job there).indexed stage)
      refine Eq.trans ?_ (sound.reads key entry old)
      simp only [readState]
      rw [scatter_other _ _ other]

end Decode

/-! ### Segments from other workers -/

section Transfer
variable {worker next : Worker Hash S} (sound : Sound args decay rope worker)
include sound

theorem land_sound {slot : Slot} {state : S} (kept : Kept args worker (.land slot state)) :
    Sound args decay rope { worker with layer := { worker.layer with ssmStates := Function.update worker.layer.ssmStates slot state } } := by
  obtain ⟨⟨place,dst⟩,waits,rfl⟩ := kept
  refine ⟨sound.ok,sound.unshared,fun rid job present => ?_,fun key entry present => ?_⟩
  · have known := sound.jobs rid job present
    exact ⟨known.seams,known.planned,known.indexed,known.ready⟩
  · have other := entry_apart_pending sound.unshared present ((get?_eq_some ..).mpr waits)
    refine Eq.trans ?_ (sound.reads key entry present)
    simp only [readState]
    rw [update_of_ne other]

variable {key : Nat × Nat}

theorem allocDst_sound {tokenIds : List Token} (stepped : allocDst args worker key tokenIds = some next) :
    Sound args decay rope next := by
  obtain ⟨⟨kvSlots,middle⟩,taken,stepped⟩ := bind_eq_some_iff.mp stepped
  obtain ⟨⟨mambaSlot,pools⟩,state,rfl⟩ := map_eq_some_iff.mp stepped
  obtain ⟨-,evictsKv,ledgerKv,-⟩ := Pools.allocTokenSlots_spec taken
  obtain ⟨evictsMamba,ledgerMamba,-⟩ := Pools.allocOneMamba_spec state
  -- A destination already there under the key is forgotten with its slots.
  have moved : ∃ lost, ledger args { worker.engine with pools := pools } +
      (worker.pending.set key ⟨args.segmentHash tokenIds,tokenIds,kvSlots,mambaSlot⟩).total (fun item => item.2.holding) + lost =
        total args worker := by
    simp only [total,ledger,ledgerKv,ledgerMamba,total_set,Destination.holding]
    cases old : worker.pending.get? key with
    | none =>
      refine ⟨0,?_⟩
      rw [erase_absent old]
      abel
    | some dst =>
      refine ⟨dst.holding,?_⟩
      rw [total_of_get? _ old]
      simp only [Destination.holding]
      abel
  obtain ⟨lost,moved⟩ := moved
  have unshared := Unshared.left (moved ▸ sound.unshared)
  refine ⟨sound.ok,?_,sound.jobs,fun key entry present => ?_⟩
  · simp only [total,ledger,Worker.withPools] at unshared ⊢
    rw [Pools.ledger_withCache pools (pools.cache.addInflight_entries ..)]
    exact unshared
  · exact sound.reads key entry (evictsKv.kept key entry (evictsMamba.kept key entry present))

theorem freed_sound {dst : Destination Hash} (waits : worker.pending.get? key = some dst) {cache : PICache Hash}
    (same : cache.entries = worker.engine.pools.cache.entries) :
    Sound args decay rope (((worker.withPools (worker.engine.pools.withCache cache)).freeSlots dst).settle key dst) := by
  refine ⟨sound.ok,?_,sound.jobs,fun key entry present => sound.reads key entry ?_⟩
  · have whole := sound.unshared
    simp only [total,ledger,total_of_get? _ waits] at whole
    simp only [total,ledger,Worker.settle,Worker.freeSlots,Worker.withPools]
    rw [Pools.ledger_withCache _ (PICache.removeInflight_entries ..),Pools.ledger_freeMamba,Pools.ledger_freeKv,
      Pools.ledger_withCache _ same]
    refine cast (congrArg Unshared ?_) whole
    simp only [Destination.holding]
    abel
  · exact (congrArg (·.get? key) same).symm.trans present

theorem inject_sound {now : Nat} (kept : Kept args worker (.inject key now)) (stepped : inject worker key now = some next) :
    Sound args decay rope next := by
  obtain ⟨dst,waits,rfl⟩ := map_eq_some_iff.mp stepped
  cases present : worker.engine.pools.cache.entries.get? dst.segHash with
  | some existing =>
    simp only [present,isSome_some,if_true,injectReceivedSegment]
    exact freed_sound sound waits (PICache.lock_entries ..)
  | none =>
    have missed : (worker.engine.pools.cache.matchSegment now dst.segHash dst.tokenIds).1 = none := by
      simp [PICache.matchSegment,present]
    have mirror := kept dst waits present
    simp only [present,isSome_none,false_eq_true,if_false,injectReceivedSegment,PICache.insertSegment_of_none _ _ _ _ _ _ missed]
    refine ⟨sound.ok,?_,sound.jobs,fun place entry found => ?_⟩
    · have whole := sound.unshared
      simp only [total,ledger,Pools.ledger,total_of_get? _ waits] at whole
      have stored := worker.engine.pools.cache.store_holding now dst.segHash dst.tokenIds dst.kvSlots dst.mambaSlot present
      have grown (entry : SegmentEntry Hash) : (worker.engine.pools.withCache ((worker.engine.pools.cache.store now dst.segHash
          dst.tokenIds dst.kvSlots dst.mambaSlot).2.lock entry)).ledger = dst.holding + worker.engine.pools.ledger := by
        simp only [Pools.ledger,Pools.withCache]
        rw [PICache.holding_congr (PICache.lock_entries ..),stored]
        simp only [Destination.holding]
        abel
      simp only [total,ledger,Worker.settle,Worker.record,Worker.withPools]
      rw [Pools.ledger_withCache _ (PICache.removeInflight_entries ..)]
      refine cast (congrArg Unshared ?_) whole
      rw [grown]
      simp only [Pools.ledger]
      abel
    · replace found : (worker.engine.pools.cache.entries.set dst.segHash
          ⟨worker.engine.pools.cache.created,dst.segHash,dst.kvSlots,dst.mambaSlot,dst.tokenIds⟩).get? place = some entry := found
      simp only [Worker.settle,Worker.record,Worker.withPools]
      rw [get?_set] at found
      split at found
      · cases found
        rw [if_pos (Nat.le_refl _),readState,Option.isNone_iff_eq_none.mp mirror,getD_none]
      · have old := worker.engine.pools.cache.fresh place entry found
        rw [if_neg (by omega)]
        exact sound.reads place entry found

end Transfer

theorem step_sound {worker next : Worker Hash S} {action : Action S} (sound : Sound args decay rope worker) (kept : Kept args worker action)
    (stepped : step args decay rope maxSegments worker action = some next) : Sound args decay rope next := by
  cases action with
  | engine action => exact schedule_sound sound kept stepped
  | prefill rids fresh => exact prefill_sound maxSegments sound kept stepped
  | decode rids states => exact decode_sound sound stepped
  | allocDst key tokenIds => exact allocDst_sound sound stepped
  | land slot state =>
    cases stepped
    exact land_sound sound kept
  | inject key now => exact inject_sound sound kept stepped
  | freeDst key =>
    obtain ⟨dst,waits,rfl⟩ := map_eq_some_iff.mp stepped
    exact freed_sound sound waits rfl

/-- After every run whose steps meet the condition, each entry of the index reads as it was stored, and so does every hit of the next
    batch while its forward pass runs. -/
theorem hits_read_own_state (args : ServerArgs Hash) (decay : T) (rope : RopeArgs S) (maxSegments kvSize mambaSize reqSize : Nat)
    (needSort : Bool) (actions : List (Action S)) (worker : Worker Hash S)
    (guarded : Guarded (step args decay rope maxSegments) (Kept args) (.start kvSize mambaSize reqSize needSort) actions)
    (executed : run (step args decay rope maxSegments) (.start kvSize mambaSize reqSize needSort) actions = some worker) :
    Reads worker ∧ ∀ rids fresh, Kept args worker (.prefill rids fresh) → HitsRead args rope worker rids := by
  have sound : Sound args decay rope worker := run_keeps (Sound args decay rope)
    (fun _ _ _ sound kept stepped => step_sound maxSegments sound kept stepped) (start_sound args decay rope ..) guarded executed
  exact ⟨sound.reads,fun rids fresh kept => sound.hitsRead kept⟩

end Invariant

section Runs
/-- A layer without decay and rotation, whose states count tokens. -/
def countStep : Worker (List Token) ℤ → Action ℤ → Option (Worker (List Token) ℤ) :=
  step (plainArgs .transition (-1)) (1 : ℤ) ⟨false,fun state _ => state⟩ 64

/-- A prefill of a prompt that caches its first segments and ends. -/
def prefillAndEnd (rid : Nat) (parts : List (List Token)) : List (Action ℤ) :=
  [.engine (.arrive rid parts 1),.engine (.matchPrefix rid 1),.engine (.incLockRef rid),.prefill [rid] (fun _ _ => 1),
    .engine (.cacheUnfinished rid 2),.engine (.finish rid 3 false)]

def arriveAndLock (rid : Nat) (parts : List (List Token)) : List (Action ℤ) :=
  [.engine (.arrive rid parts 1),.engine (.matchPrefix rid 4),.engine (.incLockRef rid)]

/-- One segment cached here, one received, and a request that hits both. -/
def sharedRun : List (Action ℤ) :=
  prefillAndEnd 0 [[1,2],[3]] ++ [.allocDst (7,0) [8,9],.land 4 5,.inject (7,0) 4] ++ arriveAndLock 1 [[1,2],[8,9],[4]]

theorem hits_read_own_state_sharedRun : ∃ worker, run countStep (.start 16 8 4 false) sharedRun = some worker ∧
    worker.engine.pools.cache.entries.keys = [[1,2],[8,9]] ∧ Reads worker ∧
    HitsRead (plainArgs .transition (-1)) (⟨false,fun state _ => state⟩ : RopeArgs ℤ) worker [1] := by
  have facts : ∃ worker ∈ run countStep (.start 16 8 4 false) sharedRun, worker.engine.pools.cache.entries.keys = [[1,2],[8,9]] ∧
      ∀ jobs ∈ worker.engine.batchAt [.admitted] [1], ∀ job ∈ jobs, Secured worker.engine.pools.cache job.req := by decide +kernel
  obtain ⟨worker,executed,keys,secured⟩ := facts
  obtain ⟨reads,hits⟩ := hits_read_own_state (plainArgs .transition (-1)) (1 : ℤ) ⟨false,fun state _ => state⟩ 64 16 8 4 false sharedRun worker
    (by decide +kernel) executed
  exact ⟨worker,executed,keys,reads,hits [1] (fun _ _ => 1) secured⟩

/-- A slot whose entry was evicted is filled from another worker: the hit reads the old entry's mirror. A lone segment is cached
    without a state: the hit reads what the slot held before. In both runs the hit is in the index and locked. -/
theorem hit_reads_stale_state :
    (∃ worker ∈ run countStep (.start 8 3 4 false) (prefillAndEnd 0 [[1,2],[3]] ++ [.engine (.evict 2 1),.allocDst (7,0) [4],
        .allocDst (7,1) [5],.allocDst (7,2) [8,9],.land 2 5,.inject (7,2) 4,.freeDst (7,0),.freeDst (7,1)] ++ arriveAndLock 1 [[8,9],[6]]),
      ∃ jobs ∈ worker.engine.batchAt [.admitted] [1], (∀ job ∈ jobs, Secured worker.engine.pools.cache job.req) ∧
      ∃ job ∈ jobs, ∃ entry ∈ job.req.picSegmentEntries.get? [8,9], readState worker.layer entry.mambaStateSlot = 2 ∧
        worker.stored entry = 5) ∧
    ∃ worker ∈ run countStep (.start 8 4 4 false) (prefillAndEnd 0 [[1,2]] ++ arriveAndLock 1 [[1,2],[6]]),
      ∃ jobs ∈ worker.engine.batchAt [.admitted] [1], (∀ job ∈ jobs, Secured worker.engine.pools.cache job.req) ∧
      ∃ job ∈ jobs, ∃ entry ∈ job.req.picSegmentEntries.get? [1,2], readState worker.layer entry.mambaStateSlot = 0 ∧
        worker.stored entry = 2 := by decide +kernel

end Runs
end Hypic.SegLaReads
