import Hypic.Alloc
import Hypic.Release
import Hypic.Runs

/-! One engine: its unfinished requests and the steps the scheduler takes with them, in any interleaving. -/

namespace Hypic.Scheduler
open Policy Cache Request Alloc Release
universe u

/-- How far the scheduler has taken a request. -/
inductive Stage where
  | waiting | matched | admitted | prefilled | cached
  deriving DecidableEq, Repr

structure Job (Hash : Type u) where
  req : Req Hash
  stage : Stage

/-- The pools and every request that has not finished. -/
structure Engine (Hash : Type u) [DecidableEq Hash] where
  pools : Pools Hash
  jobs : Dict Nat (Job Hash)

inductive Action where
  | arrive (rid : Nat) (parts : List (List Token)) (maxNewTokens : Nat)
  | matchPrefix (rid now : Nat)
  | incLockRef (rid : Nat)
  | allocForExtend (rids : List Nat)
  | cacheUnfinished (rid now : Nat)
  | allocForDecode (rids : List Nat)
  | finish (rid now : Nat) (isInsert : Bool)
  | evict (numTokens mambaNum : Nat)
  deriving DecidableEq, Repr

variable {Hash : Type u} [DecidableEq Hash]

namespace Engine
def start (kvSize mambaSize reqSize : Nat) (needSort : Bool) : Engine Hash :=
  ⟨.clear kvSize mambaSize reqSize needSort,.empty⟩

def jobAt (engine : Engine Hash) (stages : List Stage) (rid : Nat) : Option (Job Hash) :=
  (engine.jobs.get? rid).bind fun job => if job.stage ∈ stages then some job else none

/-- The requests of a batch, each named once and at one of the given stages. -/
def batchAt (engine : Engine Hash) (stages : List Stage) (rids : List Nat) : Option (List (Job Hash)) :=
  if rids.Nodup then rids.mapM (engine.jobAt stages) else none

def putJob (engine : Engine Hash) (rid : Nat) (job : Job Hash) (pools : Pools Hash) : Engine Hash :=
  ⟨pools,engine.jobs.set rid job⟩
def putBatch (engine : Engine Hash) (rids : List Nat) (jobs : List (Job Hash)) (pools : Pools Hash) : Engine Hash :=
  ⟨pools,engine.jobs.setAll (rids.zip jobs)⟩
end Engine

/-- The bookkeeping of `prepare_for_extend`: the whole prompt is committed. -/
def commitPrompt (req : Req Hash) : Req Hash := { req with kvCommittedLen := req.originInputIds.length }

/-- One decoded token: its slot goes to the end of the row. -/
def appendToken (job : Job Hash) (slot : Slot) : Job Hash :=
  { job with
    req := { job.req.writeRow (job.req.kvCommittedLen,job.req.kvCommittedLen + 1) [slot] with
      kvCommittedLen := job.req.kvCommittedLen + 1 } }

/-- `release_kv_cache`: the cache's share first, then the row. -/
def releaseKvCache (args : ServerArgs Hash) (now : Nat) (req : Req Hash) (pools : Pools Hash) (isInsert : Bool) :
    Option (Pools Hash) :=
  (cacheFinishedReq args false now req pools isInsert).map fun (req,pools) =>
    { pools with reqSlots := pools.reqSlots ++ req.reqPoolIdx.toList }

def step (args : ServerArgs Hash) (engine : Engine Hash) : Action → Option (Engine Hash)
  | .arrive rid parts maxNewTokens =>
    let req : Req Hash := Req.create parts false maxNewTokens
    if engine.jobs.get? rid = none ∧ req.picSegments ≠ [] then
      some (engine.putJob rid ⟨req,.waiting⟩ engine.pools) else none
  | .matchPrefix rid now =>
    (engine.jobAt [.waiting,.matched] rid).map fun job =>
      let matched := initNextRoundInput args now job.req engine.pools.cache
      engine.putJob rid ⟨matched.1,.matched⟩ (engine.pools.withCache matched.2)
  | .incLockRef rid =>
    (engine.jobAt [.matched] rid).map fun job =>
      engine.putJob rid ⟨job.req,.admitted⟩ (engine.pools.withCache (incLockRef job.req engine.pools.cache))
  | .allocForExtend rids =>
    (engine.batchAt [.admitted] rids).bind fun jobs =>
      (picAllocForExtend args engine.pools (jobs.map Job.req)).map fun extended =>
        engine.putBatch rids (extended.reqs.map fun req => ⟨commitPrompt req,.prefilled⟩) extended.pools
  | .cacheUnfinished rid now =>
    (engine.jobAt [.prefilled] rid).bind fun job =>
      (cacheUnfinishedReq args now job.req engine.pools).map fun (req,pools) => engine.putJob rid ⟨req,.cached⟩ pools
  | .allocForDecode rids =>
    (engine.batchAt [.prefilled,.cached] rids).bind fun jobs =>
      (engine.pools.allocTokenSlots rids.length).map fun (slots,pools) =>
        engine.putBatch rids ((jobs.zip slots).map fun item => appendToken item.1 item.2) pools
  | .finish rid now isInsert =>
    (engine.jobAt [.prefilled,.cached] rid).bind fun job =>
      (releaseKvCache args now job.req engine.pools isInsert).map fun pools => ⟨pools,engine.jobs.erase rid⟩
  | .evict numTokens mambaNum =>
    some { engine with pools := (engine.pools.evict numTokens mambaNum).2 }

/-- Tokens stand for themselves as hashes in the runs on fixed prompts. -/
def plainArgs (picMode : PICMode) (picSegmentMinTokens : Int) : ServerArgs (List Token) :=
  ⟨picMode,picSegmentMinTokens,0,id⟩

end Hypic.Scheduler
