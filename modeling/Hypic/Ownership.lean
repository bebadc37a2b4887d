import Hypic.Handover
import Hypic.Scheduler

/-! The engine's ledger: free slots, the index's slots and every unfinished request's slots. Each
    step moves slots between the three; what it drops is named. -/

namespace Hypic.Ownership
open Policy Allocator Cache Request Alloc Release Runs Custody Handover Scheduler List Dict
universe u
variable {Hash : Type u} [DecidableEq Hash]
variable {req after : Req Hash} {job : Job Hash} {now : Nat}

def ledger (args : ServerArgs Hash) (engine : Engine Hash) : Holding :=
  engine.pools.ledger + engine.jobs.total fun item => held args.rope item.2.req

/-- A miss that the caching loop would take. -/
def cacheable (args : ServerArgs Hash) (req : Req Hash) : List Seg :=
  req.picMissSegments.filter fun seg => skips args req seg = false

/-- A request that has its slots. -/
structure Running (args : ServerArgs Hash) (req : Req Hash) : Prop where
  partition : Partitioned req
  nonempty : req.picSegments ≠ []
  ordinary : req.picScatterSingleSeg = false
  misses : ∀ seg, seg ∈ req.picMissSegments ↔ (req.picMissSegmentSlots.get? seg).isSome
  pub : ∀ seg miss, req.picMissSegmentSlots.get? seg = some miss →
    (miss.pub.isSome ↔ args.rope = true ∧ some seg ≠ req.globalSeg)
  committed : req.originInputIds.length ≤ req.kvCommittedLen
  row : req.reqPoolIdx.isSome
  copies : args.rope = false → req.picRopeHitPrivateSlots = .empty

/-- What the stage of a request says about it. -/
def JobOk (args : ServerArgs Hash) (job : Job Hash) : Prop :=
  match job.stage with
  | .waiting => Consecutive 0 job.req.picSegments job.req.originInputIds.length ∧ job.req.picSegments ≠ [] ∧
      Unallocated job.req ∧ job.req.picScatterSingleSeg = false
  | .matched | .admitted => Matched args job.req ∧ job.req.picSegments ≠ [] ∧ Unallocated job.req ∧
      job.req.picScatterSingleSeg = false
  | .prefilled => Running args job.req ∧ settled job.req = []
  | .cached => Running args job.req ∧ ∀ seg, seg ∈ settled job.req ↔ seg ∈ cacheable args job.req

def JobsOk (args : ServerArgs Hash) (engine : Engine Hash) : Prop :=
  ∀ rid job, engine.jobs.get? rid = some job → JobOk args job

theorem start_ledger (args : ServerArgs Hash) (kvSize mambaSize reqSize : Nat) (needSort : Bool) :
    ledger args (Engine.start kvSize mambaSize reqSize needSort) =
      kvHolding (List.range' 1 kvSize) + mambaHolding (List.range' 1 mambaSize) := by
  simp [ledger,Engine.start,Pools.ledger,Pools.clear,MambaSlotAllocator.clear,PICache.holding,PICache.empty]

theorem start_ok (args : ServerArgs Hash) (kvSize mambaSize reqSize : Nat) (needSort : Bool) :
    JobsOk args (Engine.start kvSize mambaSize reqSize needSort) := by
  intro rid job present
  simp [Engine.start] at present

section Engine
variable {args : ServerArgs Hash} {engine next : Engine Hash} {rid : Nat} {job : Job Hash}

theorem jobAt_some {stages : List Stage} (found : engine.jobAt stages rid = some job) :
    engine.jobs.get? rid = some job ∧ job.stage ∈ stages := by
  obtain ⟨held,present,found⟩ := bind_eq_some_iff.mp found
  split at found
  · rename_i inside; cases found; exact ⟨present,inside⟩
  · cases found

variable {rids : List Nat}

theorem batchAt_some {stages : List Stage} {jobs : List (Job Hash)}
    (found : engine.batchAt stages rids = some jobs) :
    rids.Nodup ∧ Forall₂ (fun rid job => engine.jobs.get? rid = some job ∧ job.stage ∈ stages) rids jobs := by
  unfold Engine.batchAt at found
  split at found
  · rename_i distinct
    exact ⟨distinct,(Related.of_mapM found).imp fun _ _ here => jobAt_some here⟩
  · cases found

variable {keeps : Job Hash → Prop}

section
variable (all : ∀ rid job, engine.jobs.get? rid = some job → keeps job)
include all

theorem putJob_all (rid : Nat)
    (pools : Pools Hash) (here : keeps job) :
    ∀ other found, (engine.putJob rid job pools).jobs.get? other = some found → keeps found := by
  intro other found present
  simp only [Engine.putJob,get?_set] at present
  split at present
  · cases present; exact here
  · exact all other found present

theorem putBatch_all (jobs : List (Job Hash)) (pools : Pools Hash) (each : ∀ job ∈ jobs, keeps job) :
    ∀ other found, (engine.putBatch rids jobs pools).jobs.get? other = some found → keeps found := by
  intro other found present
  rcases get?_setAll_some _ _ present with member | kept
  · exact each found (of_mem_zip member).2
  · exact all other found kept

theorem eraseJob_all (rid : Nat) :
    ∀ other found, (engine.jobs.erase rid).get? other = some found → keeps found := by
  intro other found present
  simp only [get?_erase] at present
  split at present
  · cases present
  · exact all other found present

end

theorem putJob_ok (ok : JobsOk args engine) (rid : Nat) (pools : Pools Hash) (here : JobOk args job) :
    JobsOk args (engine.putJob rid job pools) := putJob_all ok rid pools here

theorem putBatch_ok (ok : JobsOk args engine) (jobs : List (Job Hash)) (pools : Pools Hash)
    (all : ∀ job ∈ jobs, JobOk args job) : JobsOk args (engine.putBatch rids jobs pools) := putBatch_all ok jobs pools all

section Totals
variable {M : Type*} [AddCommMonoid M] (measure : Job Hash → M)

theorem putJob_total (after : Job Hash) (pools : Pools Hash) (found : engine.jobs.get? rid = some job) :
    (engine.putJob rid after pools).jobs.total (fun item => measure item.2) + measure job =
      engine.jobs.total (fun item => measure item.2) + measure after := by
  simp only [Engine.putJob]
  rw [total_set,total_of_get? _ found]
  abel

theorem putBatch_total (pools : Pools Hash) {rids : List Nat} {before after : List (Job Hash)} (distinct : rids.Nodup)
    (found : Forall₂ (fun rid job => engine.jobs.get? rid = some job) rids before) (same : after.length = rids.length) :
    (engine.putBatch rids after pools).jobs.total (fun item => measure item.2) + (before.map measure).sum =
      engine.jobs.total (fun item => measure item.2) + (after.map measure).sum := by
  have zipped (jobs : List (Job Hash)) (same : rids.length = jobs.length) :
      ((rids.zip jobs).map fun item => measure item.2).sum = (jobs.map measure).sum := by
    rw [← comp_def measure Prod.snd,← map_map,map_snd_zip (Nat.le_of_eq same.symm)]
  have total := total_setAll (fun item => measure item.2) rids before after engine.jobs distinct found same
  rwa [zipped before found.length_eq,zipped after same.symm] at total
end Totals

theorem putJob_ledger {pools : Pools Hash} {after : Job Hash} {lost : Holding} (found : engine.jobs.get? rid = some job)
    (moved : pools.ledger + held args.rope after.req + lost = engine.pools.ledger + held args.rope job.req) :
    ledger args (engine.putJob rid after pools) + lost = ledger args engine := by
  have total := putJob_total (fun job => held args.rope job.req) after pools found
  refine add_right_cancel (b := held args.rope job.req) ?_
  calc _ = pools.ledger + lost + ((engine.putJob rid after pools).jobs.total (fun item => held args.rope item.2.req) +
        held args.rope job.req) := by simp only [ledger,Engine.putJob]; abel
    _ = (pools.ledger + held args.rope after.req + lost) + engine.jobs.total (fun item => held args.rope item.2.req) := by
      rw [total]; abel
    _ = _ := by rw [moved,ledger]; abel

theorem putBatch_ledger {pools : Pools Hash} {before after : List (Job Hash)}
    (distinct : rids.Nodup) (found : Forall₂ (fun rid job => engine.jobs.get? rid = some job) rids before)
    (same : after.length = rids.length)
    (moved : pools.ledger + (after.map fun job => held args.rope job.req).sum =
      engine.pools.ledger + (before.map fun job => held args.rope job.req).sum) :
    ledger args (engine.putBatch rids after pools) = ledger args engine := by
  have total := putBatch_total (fun job => held args.rope job.req) pools distinct found same
  refine add_right_cancel (b := (before.map fun job => held args.rope job.req).sum) ?_
  simp only [ledger,Engine.putBatch] at total ⊢
  rw [add_assoc,total]
  calc _ = (pools.ledger + (after.map fun job => held args.rope job.req).sum) +
        engine.jobs.total (fun item => held args.rope item.2.req) := by abel
    _ = _ := by rw [moved]; abel

variable {req : Req Hash}

theorem held_unallocated (fresh : Unallocated req) : held args.rope req = 0 := by
  have decode : decodeSlots false req = [] := by simp [decodeSlots,fresh.row]
  simp [held,missTotal,fresh.misses,kvHolding_hitPrivate,fresh.copies,decode,fresh.state]

theorem create_ok (parts : List (List Token)) (maxNewTokens : Nat)
    (nonempty : (Req.create parts false maxNewTokens : Req Hash).picSegments ≠ []) :
    JobOk args ⟨Req.create parts false maxNewTokens,.waiting⟩ := by
  refine ⟨?_,nonempty,⟨rfl,rfl,rfl,rfl,rfl,rfl,rfl⟩,rfl⟩
  have consecutive := offsets_consecutive parts 0
  simpa [Req.create,splitAndTokenize] using consecutive

theorem partitioned_congr {before after : Req Hash} (partition : Partitioned before)
    (ids : after.originInputIds = before.originInputIds) (segs : after.picSegments = before.picSegments)
    (misses : after.picMissSegments = before.picMissSegments) (hits : after.picHitSegments = before.picHitSegments) :
    Partitioned after := by
  have last : after.lastSeg = before.lastSeg := by rw [Req.lastSeg,Req.lastSeg,segs]
  refine ⟨?_,?_,?_,?_,?_,?_⟩
  · rw [segs,ids]; exact partition.consecutive
  · rw [misses,segs]; exact partition.misses
  · rw [hits,segs]; exact partition.hits
  · rw [misses,hits]; exact partition.exclusive
  · rw [segs,misses,hits]; exact partition.cover
  · rw [last,misses]; exact partition.last

theorem prefilled_ok {before after : Req Hash} (matched : Matched args before) (nonempty : before.picSegments ≠ [])
    (fresh : Unallocated before)
    (ordinary : before.picScatterSingleSeg = false) (prefilled : Prefilled args before after) :
    JobOk args ⟨commitPrompt after,.prefilled⟩ ∧ held args.rope (commitPrompt after) = held args.rope after := by
  obtain ⟨owned,freed⟩ := prefilled_unsettled prefilled fresh
  obtain ⟨assigned,⟨row,slot,rfl⟩,allocated⟩ := prefilled
  have frame := allocated.frame
  have ids : after.originInputIds = before.originInputIds := (congrArg Req.originInputIds frame).trans rfl
  have segs : after.picSegments = before.picSegments := (congrArg Req.picSegments frame).trans rfl
  have rowed : after.reqPoolIdx = some row := (congrArg Req.reqPoolIdx frame).trans rfl
  have segmented : after.picSegments ≠ [] := segs ▸ nonempty
  refine ⟨⟨⟨?_,segmented,?_,?_,?_,?_,?_,?_⟩,?_⟩,?_⟩
  · exact partitioned_congr matched.toPartitioned ids segs ((congrArg Req.picMissSegments frame).trans rfl)
      ((congrArg Req.picHitSegments frame).trans rfl)
  · exact ((congrArg Req.picScatterSingleSeg frame).trans rfl).trans ordinary
  · intro seg
    have misses : after.picMissSegments = before.picMissSegments := (congrArg Req.picMissSegments frame).trans rfl
    exact misses ▸ allocated.misses seg
  · intro seg miss found
    exact (allocated.ready seg miss found).pub
  · exact Nat.le_refl _
  · simp [commitPrompt,rowed]
  · exact allocated.copies
  · simp [settled,commitPrompt,owned,freed]
  · have empty : decodeSlots false (commitPrompt after) = [] := by
      unfold decodeSlots
      split
      · rfl
      · obtain ⟨seg,last⟩ : ∃ seg, after.picSegments.getLast? = some seg := by
          cases last : after.picSegments.getLast? with
          | none => exact absurd (getLast?_eq_none_iff.mp last) segmented
          | some seg => exact ⟨seg,rfl⟩
        have stop : seg.2 = after.originInputIds.length := by
          rw [segs] at last
          rw [ids]
          exact matched.consecutive.last last
        have start : decodeStart false (commitPrompt after) = after.originInputIds.length := by
          simp [decodeStart,Req.lastSeg,commitPrompt,last,stop]
        rw [start]
        simp [Req.rowSlice,commitPrompt]
    have zero : after.kvCommittedLen = 0 := ((congrArg Req.kvCommittedLen frame).trans rfl).trans fresh.committed
    have before : decodeSlots false after = [] := by
      unfold decodeSlots
      split
      · rfl
      · simp [Req.rowSlice,zero]
    have slots : held args.rope (commitPrompt after) = missTotal args.rope after + kvHolding (hitPrivate after) +
        kvHolding (decodeSlots false (commitPrompt after)) + mambaHolding after.mambaPoolIdx.toList := rfl
    rw [slots,empty,held,before]

theorem Running.plainPub (running : Running args req) : PlainPub args req := by
  intro seg miss found plain
  have pub := (running.pub seg miss found).not.mpr fun both => by simp [plain] at both
  simpa using pub

theorem Running.distinct (running : Running args req) : req.picMissSegments.Nodup :=
  running.partition.consecutive.nodup.sublist running.partition.misses

theorem Running.slots_nonempty (running : Running args req) : req.picMissSegmentSlots.items ≠ [] := by
  intro nothing
  cases last : req.picSegments.getLast? with
  | none => exact running.nonempty (getLast?_eq_none_iff.mp last)
  | some seg =>
    have present := (running.misses seg).mp (running.partition.last seg last)
    obtain ⟨miss,present⟩ := isSome_iff_exists.mp present
    have member := (get?_eq_some ..).mp present
    rw [nothing] at member
    cases member

theorem Running.cached (running : Running args req) (settles : Settles args req after) :
    Running args after ∧ ∀ seg, seg ∈ settled after ↔ seg ∈ cacheable args after := by
  have frame := settles.frame
  have misses := frame.misses
  refine ⟨⟨?_,frame.segs ▸ running.nonempty,?_,?_,?_,?_,?_,?_⟩,?_⟩
  · exact partitioned_congr running.partition frame.ids frame.segs misses ((congrArg Req.picHitSegments frame).trans rfl)
  · exact ((congrArg Req.picScatterSingleSeg frame).trans rfl).trans running.ordinary
  · intro seg; rw [misses,frame.slots]; exact running.misses seg
  · intro seg miss found
    rw [frame.slots] at found
    rw [frame.globalSeg]
    exact running.pub seg miss found
  · have committed : after.kvCommittedLen = req.kvCommittedLen := (congrArg Req.kvCommittedLen frame).trans rfl
    rw [committed,frame.ids]; exact running.committed
  · have row : after.reqPoolIdx = req.reqPoolIdx := (congrArg Req.reqPoolIdx frame).trans rfl
    rw [row]; exact running.row
  · have copies : after.picRopeHitPrivateSlots = req.picRopeHitPrivateSlots := (congrArg Req.picRopeHitPrivateSlots frame).trans rfl
    rw [copies]; exact running.copies
  · intro seg
    simp only [cacheable,mem_filter,decide_eq_true_eq,misses,frame.skips]
    constructor
    · intro inside
      exact ⟨(settles.chosen seg inside).2,(settles.chosen seg inside).1⟩
    · rintro ⟨member,chosen⟩
      exact settles.done seg member chosen ((running.misses seg).mp member)

theorem missTotal_unsettled (none : settled req = []) :
    missTotal args.rope (unsettledReq req) = missTotal args.rope req := by
  simp only [missTotal,none]
  rfl

theorem held_cached (frame : CachedOnly req after) :
    held args.rope after + missTotal args.rope req = held args.rope req + missTotal args.rope after := by
  have decode : decodeSlots false after = decodeSlots false req := by
    have row : after.reqToToken = req.reqToToken := (congrArg Req.reqToToken frame).trans rfl
    have committed : after.kvCommittedLen = req.kvCommittedLen := (congrArg Req.kvCommittedLen frame).trans rfl
    have index : after.reqPoolIdx = req.reqPoolIdx := (congrArg Req.reqPoolIdx frame).trans rfl
    simp only [decodeSlots,decodeStart,Req.rowSlice,frame.lastSeg,frame.segs,row,committed,index]
  have state : after.mambaPoolIdx = req.mambaPoolIdx := (congrArg Req.mambaPoolIdx frame).trans rfl
  simp only [held,frame.hitPrivate,decode,state]
  abel

theorem Running.decodeStart_eq (running : Running args req) :
    decodeStart false req = req.originInputIds.length := by
  cases last : req.picSegments.getLast? with
  | none => exact absurd (getLast?_eq_none_iff.mp last) running.nonempty
  | some seg =>
    have stop := running.partition.consecutive.last last
    simp [decodeStart,Req.lastSeg,last,stop]

theorem decodeSlots_appendToken (slot : Slot) (running : Running args job.req) :
    Running args (appendToken job slot).req ∧
      decodeSlots false (appendToken job slot).req = decodeSlots false job.req ++ [slot] := by
  have after : Running args (appendToken job slot).req :=
    ⟨partitioned_congr running.partition rfl rfl rfl rfl,running.nonempty,running.ordinary,running.misses,running.pub,
      Nat.le_succ_of_le running.committed,running.row,running.copies⟩
  refine ⟨after,?_⟩
  have index : job.req.reqPoolIdx ≠ none := Option.isSome_iff_ne_none.mp running.row
  have start := running.decodeStart_eq
  have startAfter : decodeStart false (appendToken job slot).req = job.req.originInputIds.length := after.decodeStart_eq
  have guard : ¬ (job.req.picSegments = [] ∨ job.req.reqPoolIdx = none) := fun either => either.elim running.nonempty index
  have guardAfter : ¬ ((appendToken job slot).req.picSegments = [] ∨ (appendToken job slot).req.reqPoolIdx = none) := guard
  have committed := running.committed
  rw [decodeSlots,if_neg guardAfter,decodeSlots,if_neg guard,start,startAfter,Req.rowSlice,Req.rowSlice]
  have length : (appendToken job slot).req.kvCommittedLen - job.req.originInputIds.length =
      job.req.kvCommittedLen - job.req.originInputIds.length + 1 := by
    simp only [appendToken]; omega
  rw [length,List.range'_concat,map_append]
  congr 1
  · refine map_congr_left fun pos member => ?_
    obtain ⟨lower,upper⟩ := mem_range'_1.mp member
    exact if_neg fun inside => by simp only at inside; omega
  · have last : job.req.originInputIds.length + 1 * (job.req.kvCommittedLen - job.req.originInputIds.length) =
        job.req.kvCommittedLen := by omega
    rw [last,map_singleton]
    simp [appendToken,Req.writeRow]

theorem appendToken_ok (slot : Slot) (running : Running args job.req) (here : JobOk args job)
    (stage : job.stage ∈ [Stage.prefilled,Stage.cached]) :
    JobOk args (appendToken job slot) ∧
      held args.rope (appendToken job slot).req = kvHolding [slot] + held args.rope job.req := by
  obtain ⟨after,decode⟩ := decodeSlots_appendToken slot running
  refine ⟨?_,?_⟩
  · simp only [mem_cons,not_mem_nil,or_false] at stage
    rcases stage with prefilled | cached
    · simp only [JobOk,appendToken,prefilled] at here ⊢
      exact ⟨after,here.2⟩
    · simp only [JobOk,appendToken,cached] at here ⊢
      exact ⟨after,here.2⟩
  · have slots : held args.rope (appendToken job slot).req = missTotal args.rope job.req + kvHolding (hitPrivate job.req) +
        kvHolding (decodeSlots false (appendToken job slot).req) + mambaHolding job.req.mambaPoolIdx.toList := rfl
    rw [slots,decode,kvHolding_append,held]
    abel

theorem cached_moves {pools final : Pools Hash} (running : Running args req)
    (none : settled req = []) (executed : cacheUnfinishedReq args now req pools = some (after,final)) :
    ∃ lost, held args.rope after + final.ledger + lost = held args.rope req + pools.ledger ∧
      (CollisionFree args req pools.cache → lost = 0) := by
  obtain ⟨settles,lost,moved,clean⟩ := cacheUnfinishedReq_ledger running.plainPub running.distinct executed
  refine ⟨lost,?_,clean⟩
  rw [missTotal_unsettled none] at moved
  refine add_right_cancel (b := missTotal args.rope req) ?_
  calc _ = final.ledger + lost + (held args.rope after + missTotal args.rope req) := by abel
    _ = held args.rope req + (missTotal args.rope after + final.ledger + lost) := by rw [held_cached settles.frame]; abel
    _ = _ := by rw [moved]; abel

theorem held_appendTokens {jobs : List (Job Hash)} {slots : List Slot} (same : jobs.length = slots.length)
    (all : ∀ job ∈ jobs, ∀ slot, held args.rope (appendToken job slot).req = kvHolding [slot] + held args.rope job.req) :
    (((jobs.zip slots).map fun item => appendToken item.1 item.2).map fun job => held args.rope job.req).sum =
      kvHolding slots + (jobs.map fun job => held args.rope job.req).sum := by
  induction jobs generalizing slots with
  | nil => rw [length_eq_zero_iff.mp same.symm]; rfl
  | cons job rest ih =>
    obtain _ | ⟨slot,slots⟩ := slots
    · simp at same
    simp only [zip_cons_cons,map_cons,sum_cons]
    rw [all job mem_cons_self slot,ih (by simpa using same) fun other inside =>
      all other (mem_cons_of_mem _ inside)]
    rw [show kvHolding (slot::slots) = kvHolding [slot] + kvHolding slots from kvHolding_append [slot] slots]
    abel

/-- Allocation and release agree on who gives short segments back: none in a rope mode, not the lone one. -/
def ShortAgreed (args : ServerArgs Hash) (req : Req Hash) : Prop :=
  (args.rope = true → ∀ seg ∈ req.picMissSegments, some seg ≠ req.globalSeg → args.short seg = false) ∧
    (args.rope = false → req.globalSeg = none → ∀ seg ∈ req.lastSeg, args.short seg = false)

theorem leaked_none (running : Running args req) (agreed : ShortAgreed args req)
    (all : ∀ seg ∈ cacheable args req, seg ∈ settled req) : leaked args req = 0 := by
  unfold leaked
  rw [total_congr _ (fun _ => 0)]
  · simp [Dict.total]
  intro seg miss found
  have member : seg ∈ req.picMissSegments := (running.misses seg).mpr (by simp [found])
  by_cases done : seg ∈ settled req
  · simp [leakedHolding,done]
  by_cases global : some seg = req.globalSeg
  · simp [leakedHolding,global]
  have skipped : skips args req seg = true := by
    by_contra chosen
    exact done (all seg (by simp [cacheable,member,chosen]))
  have short : args.short seg = true := by simpa [skips,global] using skipped
  cases rope : args.rope with
  | true =>
    have long := agreed.1 rope seg member global
    rw [short] at long; cases long
  | false =>
    by_cases last : some seg = req.lastSeg
    · have single : req.globalSeg = none := by
        unfold Req.globalSeg at global ⊢
        split at global
        · exact absurd last global
        · rename_i single; rw [if_neg single]
      have long := agreed.2 rope single seg last.symm
      rw [short] at long; cases long
    · simp [leakedHolding,rope,done,global,short,last]

theorem unsettled_global (running : Running args req) (inside : ∀ seg ∈ settled req, seg ∈ cacheable args req) :
    ∀ seg, req.globalSeg = some seg → seg ∉ settled req := by
  intro seg global member
  have chosen := inside seg member
  simp [cacheable,skips,global,running.ordinary] at chosen

/-- What must agree at a request's end for nothing to be lost. -/
def EndBalanced (args : ServerArgs Hash) (cache : PICache Hash) (job : Job Hash) (isInsert : Bool) : Prop :=
  (cacheable args job.req ≠ [] → (isInsert = true ↔ job.stage = .prefilled)) ∧
    (isInsert = true → CollisionFree args job.req cache) ∧ ShortAgreed args job.req

/-- What a step does, with what is known of the requests it names. -/
inductive Stepped (args : ServerArgs Hash) (engine : Engine Hash) : Action → Engine Hash → Prop
  | arrive {rid : Nat} {parts : List (List Token)} {maxNewTokens : Nat} (absent : engine.jobs.get? rid = none)
      (created : JobOk args ⟨Req.create parts false maxNewTokens,.waiting⟩) :
      Stepped args engine (.arrive rid parts maxNewTokens)
        (engine.putJob rid ⟨Req.create parts false maxNewTokens,.waiting⟩ engine.pools)
  | matchPrefix {rid now : Nat} (job : Job Hash) (found : engine.jobs.get? rid = some job)
      (stage : job.stage ∈ [Stage.waiting,.matched])
      (consecutive : Consecutive 0 job.req.picSegments job.req.originInputIds.length) (nonempty : job.req.picSegments ≠ [])
      (fresh : Unallocated job.req) (ordinary : job.req.picScatterSingleSeg = false) :
      Stepped args engine (.matchPrefix rid now)
        (engine.putJob rid ⟨(initNextRoundInput args now job.req engine.pools.cache).1,.matched⟩
          (engine.pools.withCache (initNextRoundInput args now job.req engine.pools.cache).2))
  | incLockRef {rid : Nat} (job : Job Hash) (here : engine.jobAt [.matched] rid = some job)
      (found : engine.jobs.get? rid = some job) (stage : job.stage = .matched) (known : JobOk args ⟨job.req,.admitted⟩) :
      Stepped args engine (.incLockRef rid)
        (engine.putJob rid ⟨job.req,.admitted⟩ (engine.pools.withCache (incLockRef job.req engine.pools.cache)))
  | allocForExtend {rids : List Nat} (jobs : List (Job Hash)) (extended : Extended Hash)
      (batch : engine.batchAt [.admitted] rids = some jobs) (distinct : rids.Nodup)
      (found : List.Forall₂ (fun rid job => engine.jobs.get? rid = some job) rids jobs)
      (admitted : ∀ job ∈ jobs, job.stage = .admitted ∧ JobOk args ⟨job.req,.admitted⟩)
      (allocated : picAllocForExtend args engine.pools (jobs.map Job.req) = some extended)
      (ready : ∀ req ∈ jobs.map Job.req, Matched args req ∧ Unallocated req)
      (prefilled : List.Forall₂ (Prefilled args) (jobs.map Job.req) extended.reqs) :
      Stepped args engine (.allocForExtend rids)
        (engine.putBatch rids (extended.reqs.map fun req => ⟨commitPrompt req,.prefilled⟩) extended.pools)
  | cacheUnfinished {rid now : Nat} (job : Job Hash) (after : Req Hash) (pools : Pools Hash)
      (here : engine.jobAt [.prefilled] rid = some job) (found : engine.jobs.get? rid = some job)
      (stage : job.stage = .prefilled) (running : Running args job.req) (unsettled : settled job.req = [])
      (executed : cacheUnfinishedReq args now job.req engine.pools = some (after,pools)) :
      Stepped args engine (.cacheUnfinished rid now) (engine.putJob rid ⟨after,.cached⟩ pools)
  | allocForDecode {rids : List Nat} (jobs : List (Job Hash)) (slots : List Slot) (pools : Pools Hash) (distinct : rids.Nodup)
      (found : List.Forall₂ (fun rid job => engine.jobs.get? rid = some job) rids jobs)
      (running : ∀ job ∈ jobs, job.stage ∈ [Stage.prefilled,.cached] ∧ JobOk args job ∧ Running args job.req)
      (lengths : jobs.length = slots.length) (allocated : engine.pools.allocTokenSlots rids.length = some (slots,pools)) :
      Stepped args engine (.allocForDecode rids)
        (engine.putBatch rids ((jobs.zip slots).map fun item => appendToken item.1 item.2) pools)
  | finish {rid now : Nat} {isInsert : Bool} (job : Job Hash) (mid final : Req Hash) (midPools freed : Pools Hash)
      (here : engine.jobAt [.prefilled,.cached] rid = some job) (found : engine.jobs.get? rid = some job)
      (stage : job.stage ∈ [Stage.prefilled,.cached]) (running : Running args job.req)
      (cached : CachedAtEnd args now isInsert job.req engine.pools mid midPools)
      (ended : Ended args mid midPools freed) :
      Stepped args engine (.finish rid now isInsert)
        ⟨{ freed with reqSlots := freed.reqSlots ++ final.reqPoolIdx.toList },engine.jobs.erase rid⟩
  | evict {numTokens mambaNum : Nat} :
      Stepped args engine (.evict numTokens mambaNum) { engine with pools := (engine.pools.evict numTokens mambaNum).2 }

/-- The steps that run the caching loop. -/
def caches : Action → Bool
  | .cacheUnfinished .. | .finish .. => true
  | _ => false

section Steps
variable (ok : JobsOk args engine)
include ok

theorem running_of_stage (found : engine.jobs.get? rid = some job)
    (stage : job.stage ∈ [Stage.prefilled,Stage.cached]) : Running args job.req := by
  have here := ok rid job found
  simp only [mem_cons,not_mem_nil,or_false] at stage
  rcases stage with prefilled | cached
  · simp only [JobOk,prefilled] at here; exact here.1
  · simp only [JobOk,cached] at here; exact here.1

variable {action : Action}

theorem step_stepped (stepped : step args engine action = some next) : Stepped args engine action next := by
  cases action with
  | arrive rid parts maxNewTokens =>
    obtain ⟨accepted,same⟩ := ite_none_right_eq_some.mp stepped
    cases same
    exact .arrive accepted.1 (create_ok parts maxNewTokens accepted.2)
  | matchPrefix rid now =>
    obtain ⟨job,here,rfl⟩ := map_eq_some_iff.mp stepped
    obtain ⟨found,stage⟩ := jobAt_some here
    obtain ⟨consecutive,nonempty,fresh,ordinary⟩ : JobOk args ⟨job.req,.waiting⟩ := by
      have known := ok rid job found
      simp only [mem_cons,not_mem_nil,or_false] at stage
      rcases stage with waiting | matched
      · simpa only [JobOk,waiting] using known
      · simp only [JobOk,matched] at known
        exact ⟨known.1.consecutive,known.2⟩
    exact .matchPrefix job found stage consecutive nonempty fresh ordinary
  | incLockRef rid =>
    obtain ⟨job,here,rfl⟩ := map_eq_some_iff.mp stepped
    obtain ⟨found,stage⟩ := jobAt_some here
    have stage := mem_singleton.mp stage
    have known := ok rid job found
    simp only [JobOk,stage] at known
    exact .incLockRef job here found stage known
  | allocForExtend rids =>
    obtain ⟨jobs,batch,stepped⟩ := bind_eq_some_iff.mp stepped
    obtain ⟨extended,allocated,rfl⟩ := map_eq_some_iff.mp stepped
    obtain ⟨distinct,found⟩ := batchAt_some batch
    have admitted : ∀ job ∈ jobs, job.stage = .admitted ∧ JobOk args ⟨job.req,.admitted⟩ := by
      intro job inside
      obtain ⟨rid,-,present,stage⟩ := exists_left found inside
      have stage := mem_singleton.mp stage
      have known := ok rid job present
      simp only [JobOk,stage] at known
      exact ⟨stage,known⟩
    have ready : ∀ req ∈ jobs.map Job.req, Matched args req ∧ Unallocated req := by
      intro req member
      obtain ⟨job,inside,rfl⟩ := mem_map.mp member
      obtain ⟨-,matched,-,fresh,-⟩ := admitted job inside
      exact ⟨matched,fresh⟩
    exact .allocForExtend jobs extended batch distinct (found.imp fun _ _ both => both.1) admitted allocated ready
      (picAllocForExtend_spec ready allocated).1
  | cacheUnfinished rid now =>
    obtain ⟨job,here,stepped⟩ := bind_eq_some_iff.mp stepped
    obtain ⟨⟨after,pools⟩,executed,rfl⟩ := map_eq_some_iff.mp stepped
    obtain ⟨found,stage⟩ := jobAt_some here
    have stage := mem_singleton.mp stage
    have known := ok rid job found
    simp only [JobOk,stage] at known
    exact .cacheUnfinished job after pools here found stage known.1 known.2 executed
  | allocForDecode rids =>
    obtain ⟨jobs,batch,stepped⟩ := bind_eq_some_iff.mp stepped
    obtain ⟨⟨slots,pools⟩,allocated,rfl⟩ := map_eq_some_iff.mp stepped
    obtain ⟨distinct,found⟩ := batchAt_some batch
    obtain ⟨length,-⟩ := Pools.allocTokenSlots_spec allocated
    refine .allocForDecode jobs slots pools distinct (found.imp fun _ _ both => both.1) (fun job inside => ?_)
      (by rw [length,found.length_eq]) allocated
    obtain ⟨rid,-,present,stage⟩ := exists_left found inside
    exact ⟨stage,ok rid job present,running_of_stage ok present stage⟩
  | finish rid now isInsert =>
    obtain ⟨job,here,stepped⟩ := bind_eq_some_iff.mp stepped
    obtain ⟨pools,executed,rfl⟩ := map_eq_some_iff.mp stepped
    obtain ⟨⟨final,freed⟩,finished,rfl⟩ := map_eq_some_iff.mp executed
    obtain ⟨found,stage⟩ := jobAt_some here
    have running := running_of_stage ok found stage
    obtain ⟨mid,midPools,cached,ended⟩ := cacheFinishedReq_end running.slots_nonempty finished
    exact .finish job mid final midPools freed here found stage running cached ended
  | evict numTokens mambaNum =>
    cases stepped
    exact .evict

theorem step_ok (stepped : step args engine action = some next) : JobsOk args next := by
  cases step_stepped ok stepped with
  | arrive absent created => exact putJob_ok ok _ _ created
  | matchPrefix job found stage consecutive nonempty fresh ordinary =>
    obtain ⟨matched,-,same⟩ := initNextRoundInput_matched args _ job.req engine.pools.cache nonempty consecutive
    refine putJob_ok ok _ _ ⟨matched,?_,initNextRoundInput_unallocated args _ engine.pools.cache fresh,
      same.picScatterSingleSeg.trans ordinary⟩
    rw [same.picSegments]
    exact nonempty
  | incLockRef job here found stage known => exact putJob_ok ok _ _ known
  | allocForExtend jobs extended batch distinct found admitted allocated ready prefilled =>
    refine putBatch_ok ok _ _ fun job member => ?_
    obtain ⟨after,inside,rfl⟩ := mem_map.mp member
    obtain ⟨before,listed,related⟩ := exists_left prefilled inside
    obtain ⟨job,inside,rfl⟩ := mem_map.mp listed
    obtain ⟨-,matched,nonempty,fresh,ordinary⟩ := admitted job inside
    exact (prefilled_ok matched nonempty fresh ordinary related).1
  | cacheUnfinished job after pools here found stage running unsettled executed =>
    exact putJob_ok ok _ _ (running.cached (cacheUnfinishedReq_ledger running.plainPub running.distinct executed).1)
  | allocForDecode jobs slots pools distinct found running lengths allocated =>
    refine putBatch_ok ok _ _ fun job member => ?_
    obtain ⟨⟨before,slot⟩,inside,rfl⟩ := mem_map.mp member
    obtain ⟨stage,known,runs⟩ := running before (of_mem_zip inside).1
    exact (appendToken_ok slot runs known stage).1
  | finish job mid final midPools freed here found stage running cached ended => exact eraseJob_all ok _
  | evict => exact ok

theorem step_ledger (plain : caches action = false) (stepped : step args engine action = some next) :
    ledger args next = ledger args engine := by
  cases step_stepped ok stepped with
  | arrive absent created =>
    simp only [ledger,Engine.putJob]
    rw [total_set_absent _ _ absent,held_unallocated created.2.2.1,zero_add]
  | @matchPrefix rid now job found stage consecutive nonempty fresh ordinary =>
    obtain ⟨entries,-,-⟩ := initNextRoundInput_frame args now job.req engine.pools.cache
    refine Eq.trans (add_zero _).symm (putJob_ledger found ?_)
    rw [Pools.ledger_withCache _ entries,held_unallocated (initNextRoundInput_unallocated args now engine.pools.cache fresh),
      held_unallocated fresh,add_zero]
  | incLockRef job here found stage known =>
    refine Eq.trans (add_zero _).symm (putJob_ledger found ?_)
    rw [Pools.ledger_withCache _ (incLockRef_frame ..).1,add_zero]
  | allocForExtend jobs extended batch distinct found admitted allocated ready prefilled =>
    obtain ⟨-,-,moved⟩ := picAllocForExtend_spec ready allocated
    refine putBatch_ledger distinct found ?_ ?_
    · rw [length_map,← prefilled.length_eq,length_map,found.length_eq]
    · have before : (jobs.map fun job => held args.rope job.req).sum = 0 := by
        refine sum_eq_zero fun holding member => ?_
        obtain ⟨job,inside,rfl⟩ := mem_map.mp member
        exact held_unallocated (ready job.req (mem_map_of_mem inside)).2
      have after : ((extended.reqs.map fun req => (⟨commitPrompt req,.prefilled⟩ : Job Hash)).map
          fun job => held args.rope job.req).sum = (extended.reqs.map (held args.rope)).sum := by
        rw [map_map]
        refine congrArg List.sum (map_congr_left fun req member => ?_)
        obtain ⟨before,listed,related⟩ := exists_left prefilled member
        obtain ⟨job,inside,rfl⟩ := mem_map.mp listed
        obtain ⟨-,matched,nonempty,fresh,ordinary⟩ := admitted job inside
        exact (prefilled_ok matched nonempty fresh ordinary related).2
      rw [before,after,moved,add_zero,add_comm]
  | allocForDecode jobs slots pools distinct found running lengths allocated =>
    obtain ⟨length,-,moved,-⟩ := Pools.allocTokenSlots_spec allocated
    refine putBatch_ledger distinct found (by rw [length_map,length_zip,lengths,length]; simp) ?_
    rw [held_appendTokens lengths fun job member slot =>
      (appendToken_ok slot (running job member).2.2 (running job member).2.1 (running job member).1).2,moved]
    abel
  | @evict numTokens mambaNum =>
    obtain ⟨-,same,-⟩ := engine.pools.evict_evicts numTokens mambaNum
    simp only [ledger,same]
  | cacheUnfinished => cases plain
  | finish => cases plain

theorem cacheUnfinished_moves (stepped : step args engine (.cacheUnfinished rid now) = some next) :
    ∃ lost, ledger args next + lost = ledger args engine ∧
      ((∀ job ∈ engine.jobAt [.prefilled] rid, CollisionFree args job.req engine.pools.cache) → lost = 0) := by
  cases step_stepped ok stepped with
  | cacheUnfinished job after pools here found stage running unsettled executed =>
    obtain ⟨lost,moved,clean⟩ := cached_moves running unsettled executed
    refine ⟨lost,putJob_ledger found ?_,fun free => clean (free job here)⟩
    rw [add_comm pools.ledger,moved,add_comm]

/-- The request as its end finds it: only cacheable misses are settled, and all of them at a balanced end. -/
theorem cachedAtEnd_settled {isInsert : Bool} {mid : Req Hash} {midPools : Pools Hash}
    (found : engine.jobs.get? rid = some job) (stage : job.stage ∈ [Stage.prefilled,Stage.cached])
    (cached : CachedAtEnd args now isInsert job.req engine.pools mid midPools) :
    Running args mid ∧ (∀ seg ∈ settled mid, seg ∈ cacheable args mid) ∧
      (EndBalanced args engine.pools.cache job isInsert → ShortAgreed args mid ∧ ∀ seg ∈ cacheable args mid, seg ∈ settled mid) := by
  have running := running_of_stage ok found stage
  unfold CachedAtEnd at cached
  split at cached
  · obtain ⟨settles,-⟩ := cacheUnfinishedReq_ledger running.plainPub running.distinct cached
    obtain ⟨midRunning,both⟩ := running.cached settles
    have frame := settles.frame
    refine ⟨midRunning,fun seg => (both seg).mp,fun ⟨_,_,rope,plain⟩ => ⟨⟨?_,?_⟩,fun seg => (both seg).mpr⟩⟩
    · rw [frame.misses,frame.globalSeg]; exact rope
    · rw [frame.lastSeg,frame.globalSeg]; exact plain
  · rename_i keep
    obtain ⟨rfl,rfl⟩ := cached
    have known := ok rid job found
    simp only [mem_cons,not_mem_nil,or_false] at stage
    rcases stage with prefilled | cachedStage
    · simp only [JobOk,prefilled] at known
      refine ⟨running,fun seg member => by simp [known.2] at member,fun balanced => ⟨balanced.2.2,fun seg member => ?_⟩⟩
      have insert := (balanced.1 (ne_nil_of_mem member)).mpr prefilled
      exact absurd insert keep
    · simp only [JobOk,cachedStage] at known
      exact ⟨running,fun seg => (known.2 seg).mp,fun balanced => ⟨balanced.2.2,fun seg => (known.2 seg).mpr⟩⟩

theorem finish_moves {isInsert : Bool} (stepped : step args engine (.finish rid now isInsert) = some next)
    (once : ∀ job ∈ engine.jobAt [.prefilled,.cached] rid, isInsert = true → settled job.req = []) :
    ∃ lost, ledger args next + lost = ledger args engine ∧
      ((∀ job ∈ engine.jobAt [.prefilled,.cached] rid, EndBalanced args engine.pools.cache job isInsert) → lost = 0) := by
  cases step_stepped ok stepped with
  | finish job mid final midPools freed here found stage running cached ended =>
    obtain ⟨midRunning,inside,agreed⟩ := cachedAtEnd_settled ok found stage cached
    obtain ⟨lost,midMoved,clean⟩ :
        ∃ lost, held args.rope mid + midPools.ledger + lost = held args.rope job.req + engine.pools.ledger ∧
          (EndBalanced args engine.pools.cache job isInsert → lost = 0) := by
      unfold CachedAtEnd at cached
      split at cached
      · rename_i insert
        obtain ⟨lost,moved,clean⟩ := cached_moves running (once job here insert) cached
        exact ⟨lost,moved,fun balanced => clean (balanced.2.1 insert)⟩
      · obtain ⟨rfl,rfl⟩ := cached
        exact ⟨0,add_zero _,fun _ => rfl⟩
    have given := ended.ledger midRunning.plainPub (unsettled_global midRunning inside) midRunning.copies
    refine ⟨lost + leaked args mid,?_,fun balanced => ?_⟩
    · simp only [ledger]
      rw [total_of_get? _ found]
      have rows : ({ freed with reqSlots := freed.reqSlots ++ final.reqPoolIdx.toList } : Pools Hash).ledger = freed.ledger := rfl
      rw [rows]
      calc _ = (freed.ledger + leaked args mid) + lost + (engine.jobs.erase rid).total (fun item => held args.rope item.2.req) := by
            abel
        _ = (held args.rope mid + midPools.ledger + lost) + (engine.jobs.erase rid).total (fun item => held args.rope item.2.req) := by
          rw [given]
        _ = _ := by rw [midMoved]; abel
    · obtain ⟨short,all⟩ := agreed (balanced job here)
      rw [clean (balanced job here),leaked_none midRunning short all,add_zero]
end Steps
end Engine

end Hypic.Ownership
