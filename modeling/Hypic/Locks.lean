import Hypic.Ownership

/-! `lock_ref` against the requests that hold an entry. Admission and insertion take a lock, the end
    gives one back for every entry the request refers to. -/

namespace Hypic.Locks
open Policy Cache Request Alloc Release Runs Custody Handover Scheduler Ownership List Dict
universe u
variable {Hash : Type u} [DecidableEq Hash]

/-- An admitted, unfinished request that has the entry in `pic_segment_entries`. -/
def holds (entry : SegmentEntry Hash) (job : Job Hash) : Bool :=
  job.stage ∈ [Stage.admitted,.prefilled,.cached] ∧ entry ∈ job.req.picSegmentEntries.values

def holders (engine : Engine Hash) (entry : SegmentEntry Hash) : Nat :=
  (engine.jobs.items.filter fun item => holds entry item.2).length

/-- Caching takes as many locks as it gives references: it inserts, under a lock, or it meets an entry
    the request refers to already. -/
def Accounted (args : ServerArgs Hash) (req : Req Hash) (cache : PICache Hash) : Prop :=
  (cacheable args req ≠ [] → args.isTransition = true) ∧ CollisionFree args req cache ∧
    ∀ seg ∈ cacheable args req,
      cache.entries.get? (req.segmentHash args seg) = req.picSegmentEntries.get? (req.segmentHash args seg)

def Tracked (args : ServerArgs Hash) (engine : Engine Hash) : Action → Prop
  | .cacheUnfinished rid _ => ∀ job ∈ engine.jobAt [.prefilled] rid, Accounted args job.req engine.pools.cache
  | .finish rid _ isInsert =>
    isInsert = true → ∀ job ∈ engine.jobAt [.prefilled,.cached] rid, Accounted args job.req engine.pools.cache
  | _ => True

instance (args : ServerArgs Hash) (req : Req Hash) (cache : PICache Hash) : Decidable (Accounted args req cache) :=
  inferInstanceAs (Decidable (_ ∧ _ ∧ _))
instance (args : ServerArgs Hash) (engine : Engine Hash) : (action : Action) → Decidable (Tracked args engine action)
  | .cacheUnfinished rid _ => inferInstanceAs (Decidable (∀ job ∈ engine.jobAt [.prefilled] rid, _))
  | .finish rid _ _ => inferInstanceAs (Decidable (_ → ∀ job ∈ engine.jobAt [.prefilled,.cached] rid, _))
  | .arrive .. | .matchPrefix .. | .incLockRef .. | .allocForExtend .. | .allocForDecode .. | .evict .. => isTrue trivial

/-- References are filed under their hash and name objects that exist. -/
def Filed (req : Req Hash) (created : Nat) : Prop :=
  ∀ key entry, req.picSegmentEntries.get? key = some entry → entry.segHash = key ∧ entry.oid < created

/-- How often a request refers to an entry. -/
def refers (req : Req Hash) (entry : SegmentEntry Hash) : Nat := if entry ∈ req.picSegmentEntries.values then 1 else 0

theorem Filed.nodup {req : Req Hash} {created : Nat} (filed : Filed req created) : req.picSegmentEntries.values.Nodup := by
  have keys : req.picSegmentEntries.values.map SegmentEntry.segHash = req.picSegmentEntries.keys := by
    simp only [Dict.values,Dict.keys,map_map]
    refine map_congr_left fun item member => ?_
    exact (filed item.1 item.2 ((get?_eq_some ..).mpr member)).1
  refine List.Nodup.of_map SegmentEntry.segHash ?_
  rw [keys]
  exact req.picSegmentEntries.distinct

theorem Filed.mono {req : Req Hash} {created later : Nat} (filed : Filed req created) (le : created ≤ later) :
    Filed req later := fun key entry found => ⟨(filed key entry found).1,Nat.lt_of_lt_of_le (filed key entry found).2 le⟩

section Counting
variable {req : Req Hash} {created : Nat}

section
variable (entries : List (SegmentEntry Hash)) (distinct : entries.Nodup) (cache : PICache Hash) (entry : SegmentEntry Hash)
include entries distinct cache entry

private theorem lock_all :
    (entries.foldl PICache.lock cache).lockRef entry = cache.lockRef entry + if entry ∈ entries then 1 else 0 := by
  induction entries generalizing cache with
  | nil => simp
  | cons head rest ih =>
    obtain ⟨absent,distinct⟩ := nodup_cons.mp distinct
    rw [foldl_cons,ih distinct,PICache.lockRef_lock]
    by_cases same : entry = head
    · subst same
      simp [absent]
    · simp [same]

private theorem unlock_all :
    (entries.foldl PICache.unlock cache).lockRef entry = cache.lockRef entry - if entry ∈ entries then 1 else 0 := by
  induction entries generalizing cache with
  | nil => simp
  | cons head rest ih =>
    obtain ⟨absent,distinct⟩ := nodup_cons.mp distinct
    rw [foldl_cons,ih distinct,PICache.lockRef_unlock]
    by_cases same : entry = head
    · subst same
      simp [absent]
    · simp [same]

end

theorem incLockRef_lockRef (filed : Filed req created) (cache : PICache Hash) (entry : SegmentEntry Hash) :
    (incLockRef req cache).lockRef entry = cache.lockRef entry + refers req entry := lock_all _ filed.nodup cache entry

theorem decLockRef_lockRef (filed : Filed req created) (cache : PICache Hash) (entry : SegmentEntry Hash) :
    (decLockRef req cache).lockRef entry = cache.lockRef entry - refers req entry := unlock_all _ filed.nodup cache entry

theorem holders_total (engine : Engine Hash) (entry : SegmentEntry Hash) :
    holders engine entry = engine.jobs.total fun item => if holds entry item.2 then 1 else 0 := by
  unfold holders Dict.total
  induction engine.jobs.items with
  | nil => rfl
  | cons item rest ih =>
    by_cases here : holds entry item.2 = true
    · simp [here,ih,Nat.add_comm]
    · simp [here,ih]
end Counting

/-- The caching loop: each new reference comes with a lock. -/
structure LockLoop (args : ServerArgs Hash) (start state : Caching Hash) (remaining : List Seg) : Prop where
  frame : CachedOnly start.req state.req
  inside : ∀ seg ∈ remaining, seg ∈ start.req.picMissSegments
  agree : ∀ seg ∈ cacheable args start.req, state.pools.cache.entries.get? (start.req.segmentHash args seg) =
    state.req.picSegmentEntries.get? (start.req.segmentHash args seg)
  tokens : ∀ seg ∈ cacheable args start.req, ∀ entry,
    state.pools.cache.entries.get? (start.req.segmentHash args seg) = some entry →
      entry.tokenIds = segmentIds start.req.originInputIds seg
  filed : Filed state.req state.pools.cache.created
  created : start.pools.cache.created ≤ state.pools.cache.created
  locks : ∀ entry, state.pools.cache.lockRef entry + refers start.req entry =
    start.pools.cache.lockRef entry + refers state.req entry

section Loop
variable {args : ServerArgs Hash} {now : Nat} {start state next : Caching Hash} {seg : Seg} {rest : List Seg}

private theorem mem_values_file {d : Dict Hash (SegmentEntry Hash)} {key : Hash} {value : SegmentEntry Hash}
    (free : ∀ other, d.get? key = some other → other = value) (entry : SegmentEntry Hash) :
    entry ∈ (d.set key value).values ↔ entry = value ∨ entry ∈ d.values := by
  constructor
  · exact mem_values_set
  · rintro (rfl | member)
    · exact mem_values_of_get? (get?_set_same ..)
    · obtain ⟨other,found⟩ := (mem_values ..).mp member
      by_cases same : other = key
      · rw [free entry (same ▸ found)]
        exact mem_values_of_get? (get?_set_same ..)
      · exact mem_values_of_get? ((get?_set_other _ _ same).trans found)

theorem LockLoop.step (loop : LockLoop args start state (seg::rest)) (transition : cacheable args start.req ≠ [] →
    args.isTransition = true) (unborn : ∀ entry, start.pools.cache.created ≤ entry.oid → start.pools.cache.lockRef entry = 0)
    (unique : ∀ seg ∈ cacheable args start.req, ∀ other ∈ cacheable args start.req,
      start.req.segmentHash args seg = start.req.segmentHash args other →
        segmentIds start.req.originInputIds seg = segmentIds start.req.originInputIds other)
    (stepped : CacheStep args state seg next) : LockLoop args start next rest := by
  have hash := loop.frame.segmentHash args seg
  have later : ∀ other ∈ rest, other ∈ start.req.picMissSegments := fun other after =>
    loop.inside other (mem_cons_of_mem _ after)
  have taken (cacheable : skips args state.req seg = false) : seg ∈ Ownership.cacheable args start.req := by
    rw [loop.frame.skips] at cacheable
    exact mem_filter.mpr ⟨loop.inside seg mem_cons_self,by simpa using cacheable⟩
  cases stepped with
  | skip _ => exact { loop with inside := later }
  | @adopt _ miss kvSlots mambaSlot existing files present tokens entries created locks ledger =>
    have referred : state.req.picSegmentEntries.get? (state.req.segmentHash args seg) = some existing := by
      rw [hash,← loop.agree seg (taken files.cacheable),← hash]; exact present
    have lookup (key : Hash) : next.req.picSegmentEntries.get? key = state.req.picSegmentEntries.get? key := by
      rw [files.refers,get?_set]
      split
      · rename_i same; rw [same,referred]
      · rfl
    refine ⟨loop.frame.trans files.frame,later,?_,?_,?_,loop.created.trans (Nat.le_of_eq created.symm),?_⟩
    · intro other chosen
      rw [entries,lookup]
      exact loop.agree other chosen
    · rw [entries]
      exact loop.tokens
    · intro key entry here
      rw [created]
      exact loop.filed key entry ((lookup key).symm.trans here)
    · intro entry
      have same : refers next.req entry = refers state.req entry := if_congr (by simp only [mem_values,lookup]) rfl rfl
      rw [same,locks]
      exact loop.locks entry
  | @insert _ miss kvSlots mambaSlot fresh files unmatched made entries created locks ledger =>
    have member := taken files.cacheable
    have absent : state.pools.cache.entries.get? (state.req.segmentHash args seg) = none := by
      refine Option.eq_none_iff_forall_ne_some.mpr fun entry present => unmatched entry present ?_
      rw [loop.frame.ids]
      exact loop.tokens seg member entry (hash ▸ present)
    have unreferred : state.req.picSegmentEntries.get? (state.req.segmentHash args seg) = none := by
      rw [hash,← loop.agree seg member,← hash]; exact absent
    refine ⟨loop.frame.trans files.frame,later,?_,?_,?_,by rw [created]; exact Nat.le_succ_of_le loop.created,?_⟩
    · intro other chosen
      rw [entries,files.refers,get?_set,get?_set,loop.agree other chosen]
    · intro other chosen entry here
      rw [entries,get?_set] at here
      split at here
      · rename_i same
        rw [← Option.some.inj here,made,loop.frame.ids]
        exact unique seg member other chosen (hash ▸ same.symm)
      · exact loop.tokens other chosen entry here
    · intro key entry here
      rw [files.refers,get?_set] at here
      rw [created]
      split at here
      · rename_i same
        rw [← Option.some.inj here,made,same]
        exact ⟨rfl,Nat.lt_succ_self _⟩
      · exact ⟨(loop.filed key entry here).1,Nat.lt_succ_of_lt (loop.filed key entry here).2⟩
    · intro entry
      have before := loop.locks entry
      have after : refers next.req entry = if entry = fresh then 1 else refers state.req entry := by
        have listed : entry ∈ next.req.picSegmentEntries.values ↔ entry = fresh ∨ entry ∈ state.req.picSegmentEntries.values := by
          rw [files.refers]
          exact mem_values_file (by simp [unreferred]) entry
        simp only [refers,listed]
        by_cases same : entry = fresh
        · simp [same]
        · simp [same]
      rw [after,locks,transition (ne_nil_of_mem member)]
      by_cases same : entry = fresh
      · have oid : entry.oid = state.pools.cache.created := by rw [same,made]
        have unknown : refers state.req entry = 0 := by
          refine if_neg fun referred => ?_
          obtain ⟨key,found⟩ := (mem_values ..).mp referred
          exact absurd (loop.filed key entry found).2 (by omega)
        have young := unborn entry (oid ▸ loop.created)
        rw [if_pos same,if_pos same,if_pos rfl]
        omega
      · rw [if_neg same,if_neg same]
        exact before

theorem cacheUnfinishedReq_locks {req after : Req Hash} {pools final : Pools Hash}
    (accounted : Accounted args req pools.cache) (filed : Filed req pools.cache.created)
    (unborn : ∀ entry, pools.cache.created ≤ entry.oid → pools.cache.lockRef entry = 0)
    (executed : cacheUnfinishedReq args now req pools = some (after,final)) :
    Filed after final.cache.created ∧ pools.cache.created ≤ final.cache.created ∧
      ∀ entry, final.cache.lockRef entry + refers req entry = pools.cache.lockRef entry + refers after entry := by
  obtain ⟨state,looped,same⟩ := map_eq_some_iff.mp executed
  cases same
  obtain ⟨transition,free,agree⟩ := accounted
  have chosen {seg : Seg} (member : seg ∈ cacheable args req) : seg ∈ req.picMissSegments ∧ skips args req seg = false := by
    simpa [cacheable] using member
  have begin : LockLoop args ⟨unsettledReq req,pools,0,0⟩ ⟨unsettledReq req,pools,0,0⟩ req.picMissSegments :=
    { frame := CachedOnly.refl _
      inside := fun _ member => member
      agree := agree
      tokens := fun seg member entry present => free.1 seg (chosen member).1 (chosen member).2 entry present
      filed := filed
      created := Nat.le_refl _
      locks := fun _ => rfl }
  have loop := foldlM_keeps (LockLoop args ⟨unsettledReq req,pools,0,0⟩)
    (fun state seg rest next loop stepped => loop.step transition unborn
      (fun seg member other otherMember => free.2 seg (chosen member).1 (chosen member).2 other (chosen otherMember).1
        (chosen otherMember).2) (cacheMiss_step stepped)) begin looped
  split
  · exact ⟨loop.filed,loop.created,loop.locks⟩
  · exact ⟨loop.filed,loop.created,loop.locks⟩
end Loop

/-- What every tracked step keeps. -/
structure Counted (args : ServerArgs Hash) (engine : Engine Hash) : Prop where
  ok : JobsOk args engine
  filed : ∀ rid job, engine.jobs.get? rid = some job → Filed job.req engine.pools.cache.created
  locks : ∀ entry, engine.pools.cache.lockRef entry = holders engine entry

section Engine
variable {args : ServerArgs Hash} {engine next : Engine Hash} {rid : Nat} {job : Job Hash}

theorem Counted.unborn (counted : Counted args engine) (entry : SegmentEntry Hash)
    (young : engine.pools.cache.created ≤ entry.oid) : engine.pools.cache.lockRef entry = 0 := by
  rw [counted.locks,holders,length_eq_zero_iff,filter_eq_nil_iff]
  rintro ⟨rid,job⟩ member holding
  simp only [holds,decide_eq_true_eq] at holding
  obtain ⟨key,found⟩ := (mem_values ..).mp holding.2
  have old := (counted.filed rid job ((get?_eq_some ..).mpr member) key entry found).2
  omega

theorem holders_split (found : engine.jobs.get? rid = some job) (entry : SegmentEntry Hash) :
    holders engine entry = (if holds entry job then 1 else 0) + holders ⟨engine.pools,engine.jobs.erase rid⟩ entry := by
  rw [holders_total,holders_total,total_of_get? _ found]

theorem holders_putJob (rid : Nat) (after : Job Hash) (pools : Pools Hash) (entry : SegmentEntry Hash) :
    holders (engine.putJob rid after pools) entry =
      (if holds entry after then 1 else 0) + holders ⟨engine.pools,engine.jobs.erase rid⟩ entry := by
  rw [holders_total,holders_total]
  exact total_set ..

theorem holds_refers (stage : job.stage ∈ [Stage.admitted,.prefilled,.cached]) (entry : SegmentEntry Hash) :
    (if holds entry job then 1 else 0) = refers job.req entry := by
  by_cases referred : entry ∈ job.req.picSegmentEntries.values
  · rw [if_pos (by simp only [holds,decide_eq_true_eq]; exact ⟨stage,referred⟩),refers,if_pos referred]
  · rw [if_neg (by simp [holds,referred]),refers,if_neg referred]

theorem holds_early (stage : job.stage ∈ [Stage.waiting,.matched]) (entry : SegmentEntry Hash) : holds entry job = false := by
  simp only [mem_cons,not_mem_nil,or_false] at stage
  rcases stage with stage | stage
  · simp [holds,stage]
  · simp [holds,stage]

theorem later_stage (stage : job.stage ∈ [Stage.prefilled,.cached]) : job.stage ∈ [Stage.admitted,.prefilled,.cached] :=
  mem_cons_of_mem _ stage

theorem putJob_counted (ok : JobsOk args next) (counted : Counted args engine) (found : engine.jobs.get? rid = some job)
    {after : Job Hash} {pools : Pools Hash} (same : next = engine.putJob rid after pools)
    (filed : Filed after.req pools.cache.created) (created : engine.pools.cache.created ≤ pools.cache.created)
    (locks : ∀ entry, pools.cache.lockRef entry + (if holds entry job then 1 else 0) =
      engine.pools.cache.lockRef entry + if holds entry after then 1 else 0) : Counted args next := by
  subst same
  refine ⟨ok,putJob_all (fun other known present => (counted.filed other known present).mono created) rid pools filed,?_⟩
  · intro entry
    have before := counted.locks entry
    have moved := locks entry
    rw [holders_split found] at before
    rw [holders_putJob]
    change pools.cache.lockRef entry = _
    omega

theorem holders_putBatch {rids : List Nat} {before after : List (Job Hash)} (pools : Pools Hash) (distinct : rids.Nodup)
    (found : Forall₂ (fun rid job => engine.jobs.get? rid = some job) rids before)
    (same : Forall₂ (fun left right => ∀ entry, holds entry left = holds entry right) before after)
    (entry : SegmentEntry Hash) : holders (engine.putBatch rids after pools) entry = holders engine entry := by
  have total := total_setAll (fun item => if holds entry item.2 then 1 else 0) rids before after engine.jobs distinct found
    (same.length_eq.symm.trans found.length_eq.symm)
  have equal : ((rids.zip before).map fun item => if holds entry item.2 then 1 else 0).sum =
      ((rids.zip after).map fun item => if holds entry item.2 then 1 else 0).sum := by
    clear total distinct
    induction same generalizing rids with
    | nil => simp
    | cons head tail ih =>
      cases found with
      | cons here later => simp [head entry,ih later]
  rw [holders_total,holders_total]
  simp only [Engine.putBatch]
  omega

section Steps
variable (counted : Counted args engine)
include counted

theorem putBatch_counted {rids : List Nat} {before after : List (Job Hash)} {pools : Pools Hash} (ok : JobsOk args next)
    (renamed : next = engine.putBatch rids after pools) (evicts : Pools.Evicts engine.pools pools) (distinct : rids.Nodup)
    (found : Forall₂ (fun rid job => engine.jobs.get? rid = some job) rids before)
    (same : Forall₂ (fun left right => left.req.picSegmentEntries = right.req.picSegmentEntries ∧
      (left.stage ∈ [Stage.admitted,.prefilled,.cached] ∧ right.stage ∈ [Stage.admitted,.prefilled,.cached])) before after) :
    Counted args next := by
  subst renamed
  refine ⟨ok,?_,?_⟩
  · intro rid job present
    refine Filed.mono ?_ (Nat.le_of_eq evicts.created.symm)
    rcases get?_setAll_some _ _ present with member | earlier
    · obtain ⟨left,inside,references,-⟩ := exists_left same (of_mem_zip member).2
      obtain ⟨owner,-,there⟩ := exists_left found inside
      intro key entry referred
      rw [← references] at referred
      exact counted.filed owner left there key entry referred
    · exact counted.filed rid job earlier
  · intro entry
    rw [holders_putBatch pools distinct found (same.imp fun left right both entry => ?_)]
    · exact (evicts.lockRef entry).trans (counted.locks entry)
    · simp only [holds,both.1,both.2.1,both.2.2]

theorem step_counted {action : Action} (tracked : Tracked args engine action) (stepped : step args engine action = some next) :
    Counted args next := by
  have ok := step_ok counted.ok stepped
  cases step_stepped counted.ok stepped with
  | arrive absent created =>
    refine ⟨ok,putJob_all counted.filed _ _ (fun key entry found => by simp [Req.create] at found),fun entry => ?_⟩
    · rw [holders_putJob,holds_early (by simp),erase_absent absent]
      simp only [false_eq_true,if_false,Nat.zero_add]
      exact counted.locks entry
  | @matchPrefix rid now job found stage consecutive nonempty fresh ordinary =>
    obtain ⟨-,held,-⟩ := initNextRoundInput_matched args now job.req engine.pools.cache nonempty consecutive
    obtain ⟨-,locks,created⟩ := initNextRoundInput_frame args now job.req engine.pools.cache
    refine putJob_counted ok counted found rfl ?_ (Nat.le_of_eq created.symm) ?_
    · intro key entry referred
      have present := held key entry referred
      change _ ∧ entry.oid < (initNextRoundInput args now job.req engine.pools.cache).2.created
      rw [created]
      exact ⟨engine.pools.cache.keyed key entry present,engine.pools.cache.fresh key entry present⟩
    · intro entry
      rw [holds_early stage,holds_early (by simp)]
      exact congrArg (· + _) (locks entry)
  | incLockRef job here found stage known =>
    have filed := counted.filed _ job found
    obtain ⟨-,created⟩ := incLockRef_frame job.req engine.pools.cache
    refine putJob_counted ok counted found rfl ?_ (Nat.le_of_eq created.symm) ?_
    · exact filed.mono (Nat.le_of_eq created.symm)
    · intro entry
      rw [holds_early (by simp [stage]),holds_refers (by simp)]
      exact incLockRef_lockRef filed engine.pools.cache entry
  | allocForExtend jobs extended batch distinct found admitted allocated ready prefilled =>
    obtain ⟨-,evicts,-⟩ := picAllocForExtend_spec ready allocated
    refine putBatch_counted counted ok rfl evicts distinct found ?_
    rw [forall₂_map_right_iff]
    rw [forall₂_map_left_iff] at prefilled
    refine forall₂_iff_zip.mpr ⟨prefilled.length_eq,fun inside => ?_⟩
    obtain ⟨assigned,⟨row,slot,rfl⟩,allocated⟩ := forall₂_zip prefilled inside
    have stage := (admitted _ (of_mem_zip inside).1).1
    exact ⟨((congrArg Req.picSegmentEntries allocated.frame).trans rfl).symm,by simp [stage],by simp⟩
  | cacheUnfinished job after pools here found stage running unsettled executed =>
    obtain ⟨filed,created,locks⟩ := cacheUnfinishedReq_locks (tracked job here) (counted.filed _ job found) counted.unborn executed
    refine putJob_counted ok counted found rfl filed created fun entry => ?_
    rw [holds_refers (by simp [stage]),holds_refers (by simp)]
    exact locks entry
  | allocForDecode jobs slots pools distinct found running lengths allocated =>
    obtain ⟨-,evicts,-,-⟩ := Pools.allocTokenSlots_spec allocated
    refine putBatch_counted counted ok rfl evicts distinct found ?_
    refine Eq.subst (motive := fun left => Forall₂ _ left _) (map_fst_zip (Nat.le_of_eq lengths)) ?_
    rw [forall₂_map_left_iff,forall₂_map_right_iff,forall₂_same]
    intro item inside
    have stage := later_stage (running item.1 (of_mem_zip inside).1).1
    exact ⟨rfl,stage,stage⟩
  | @finish rid now isInsert job mid final midPools freed here found stage running cached ended =>
    obtain ⟨filed,created,locks⟩ : Filed mid midPools.cache.created ∧
        engine.pools.cache.created ≤ midPools.cache.created ∧ ∀ entry, midPools.cache.lockRef entry + refers job.req entry =
          engine.pools.cache.lockRef entry + refers mid entry := by
      unfold CachedAtEnd at cached
      split at cached
      · rename_i insert
        exact cacheUnfinishedReq_locks (tracked insert job here) (counted.filed rid job found) counted.unborn cached
      · obtain ⟨rfl,rfl⟩ := cached
        exact ⟨counted.filed rid job found,Nat.le_refl _,fun _ => rfl⟩
    obtain ⟨cache,index,unlocked⟩ := ended.unlocked
    have born : freed.cache.created = midPools.cache.created := by
      rw [unlocked,decLockRef_created,index.created]
    refine ⟨ok,eraseJob_all (fun other known present => (counted.filed other known present).mono (born ▸ created)) rid,fun entry => ?_⟩
    change freed.cache.lockRef entry = holders ⟨engine.pools,engine.jobs.erase rid⟩ entry
    have before := counted.locks entry
    rw [holders_split found,holds_refers (later_stage stage)] at before
    have moved := locks entry
    have same : cache.lockRef entry = midPools.cache.lockRef entry := by rw [PICache.lockRef,PICache.lockRef,index.counters]
    rw [unlocked,decLockRef_lockRef filed,same]
    omega
  | evict =>
    obtain ⟨evicts,-,-⟩ := engine.pools.evict_evicts _ _
    refine ⟨ok,fun rid job found => (counted.filed rid job found).mono (Nat.le_of_eq evicts.created.symm),fun entry => ?_⟩
    exact (evicts.lockRef entry).trans (counted.locks entry)
end Steps
end Engine

theorem start_counted (args : ServerArgs Hash) (kvSize mambaSize reqSize : Nat) (needSort : Bool) :
    Counted args (Engine.start kvSize mambaSize reqSize needSort) := by
  refine ⟨start_ok args kvSize mambaSize reqSize needSort,?_,fun entry => rfl⟩
  intro rid job present
  simp [Engine.start] at present

/-- In every state of a tracked run `lock_ref` counts the holders: what an unfinished request holds is not
    evictable, and with no request admitted every lock is back at zero. -/
theorem lock_ref_counts_holders (args : ServerArgs Hash) (kvSize mambaSize reqSize : Nat) (needSort : Bool)
    (actions : List Action) (final : Engine Hash)
    (tracked : Guarded (step args) (Tracked args) (.start kvSize mambaSize reqSize needSort) actions)
    (executed : run (step args) (.start kvSize mambaSize reqSize needSort) actions = some final) :
    (∀ entry, final.pools.cache.lockRef entry = holders final entry) ∧
      (∀ item ∈ final.jobs.items, ∀ entry, holds entry item.2 = true → entry ∉ final.pools.cache.unlocked) ∧
      ((∀ item ∈ final.jobs.items, item.2.stage ∈ [Stage.waiting,.matched]) → ∀ entry, final.pools.cache.lockRef entry = 0) := by
  have counted : Counted args final := run_keeps (Counted args)
    (fun engine action next counted tracked stepped => step_counted counted tracked stepped)
    (start_counted args kvSize mambaSize reqSize needSort) tracked executed
  refine ⟨counted.locks,?_,?_⟩
  · intro item member entry holding free
    have idle : final.pools.cache.lockRef entry = 0 := by simpa [PICache.unlocked] using (mem_filter.mp free).2
    rw [counted.locks,holders,length_eq_zero_iff,filter_eq_nil_iff] at idle
    exact idle item member holding
  · intro early entry
    rw [counted.locks,holders,length_eq_zero_iff,filter_eq_nil_iff]
    intro item member
    simp [holds_early (early item member)]

/-- Two requests share a segment that the first one cached; both run to their end. -/
def handedRun : List Action :=
  [.arrive 0 [[1],[2]] 1,.matchPrefix 0 1,.incLockRef 0,.allocForExtend [0],.cacheUnfinished 0 2,
    .arrive 1 [[1],[3]] 1,.matchPrefix 1 3,.incLockRef 1,.allocForExtend [1],.cacheUnfinished 1 4,.finish 0 5 true,
    .evict 8 8,.finish 1 6 true]

theorem lock_ref_counts_holders_handedRun :
    ∃ final ∈ run (step (plainArgs .transition (-1))) (.start 16 16 4 false) handedRun,
      ∀ entry, final.pools.cache.lockRef entry = holders final entry := by
  obtain ⟨final,executed⟩ : ∃ final, run (step (plainArgs .transition (-1))) (.start 16 16 4 false) handedRun = some final :=
    isSome_iff_exists.mp (by decide +kernel)
  exact ⟨final,executed,(lock_ref_counts_holders (plainArgs .transition (-1)) 16 16 4 false handedRun final
    (by decide +kernel) executed).1⟩

/-- Two requests miss the same segment. The second adopts the first one's entry without a lock, and its end
    takes the first one's lock away while the first one is still running. -/
theorem adoption_unlocks :
    ∃ final ∈ run (step (plainArgs .transition (-1))) (.start 16 16 4 false)
      [.arrive 0 [[1],[2]] 1,.arrive 1 [[1],[3]] 1,.matchPrefix 0 1,.incLockRef 0,.matchPrefix 1 2,.incLockRef 1,
        .allocForExtend [0,1],.cacheUnfinished 0 3,.cacheUnfinished 1 4,.finish 1 5 true],
      ∃ item ∈ final.jobs.items, ∃ entry ∈ final.pools.cache.unlocked, holds entry item.2 = true ∧
        final.pools.cache.lockRef entry = 0 ∧ holders final entry = 1 := by decide +kernel

end Hypic.Locks
