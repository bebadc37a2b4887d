import Hypic.Ownership

/-! Once every request has ended, each slot is free or an entry's. Release and allocation decide
    apart from each other who gives a slot back, so this needs them to agree at each request's end. -/

namespace Hypic.Reclaim
open Policy Allocator Cache Request Alloc Release Runs Custody Handover Scheduler Ownership List
universe u
variable {Hash : Type u} [DecidableEq Hash]

instance (args : ServerArgs Hash) (req : Req Hash) : Decidable (ShortAgreed args req) :=
  inferInstanceAs (Decidable (_ ∧ _))
instance (args : ServerArgs Hash) (cache : PICache Hash) (job : Job Hash) (isInsert : Bool) :
    Decidable (EndBalanced args cache job isInsert) := inferInstanceAs (Decidable (_ ∧ _ ∧ _))

/-- Caching meets no other tokens under its hashes, and a request ends with its cacheable misses
    cached exactly once and its short misses given back. -/
def Balanced (args : ServerArgs Hash) (engine : Engine Hash) : Action → Prop
  | .cacheUnfinished rid _ => ∀ job ∈ engine.jobAt [.prefilled] rid, CollisionFree args job.req engine.pools.cache
  | .finish rid _ isInsert =>
    ∀ job ∈ engine.jobAt [.prefilled,.cached] rid, EndBalanced args engine.pools.cache job isInsert
  | _ => True

instance (args : ServerArgs Hash) (engine : Engine Hash) : (action : Action) → Decidable (Balanced args engine action)
  | .cacheUnfinished rid _ => inferInstanceAs (Decidable (∀ job ∈ engine.jobAt [.prefilled] rid, _))
  | .finish rid _ _ => inferInstanceAs (Decidable (∀ job ∈ engine.jobAt [.prefilled,.cached] rid, _))
  | .arrive .. | .matchPrefix .. | .incLockRef .. | .allocForExtend .. | .allocForDecode .. | .evict .. => isTrue trivial

/-- A slot is free and no entry's, or not free and exactly one entry's. -/
def OwnedOnce (free : List Slot) (owners : List (SegmentEntry Hash)) (slot : Slot) : Prop :=
  slot ∈ free ∧ owners.length = 0 ∨ slot ∉ free ∧ owners.length = 1

/-- No slot of either pool is lost, or owned by more than one party. -/
def Reclaimed (kvSize mambaSize : Nat) (engine : Engine Hash) : Prop :=
  let entries := engine.pools.cache.entries.values
  (∀ slot ∈ List.range' 1 kvSize,
      OwnedOnce engine.pools.kv.slots (entries.filter fun entry => slot ∈ entry.fullKvSlots) slot) ∧
    ∀ slot ∈ List.range' 1 mambaSize,
      OwnedOnce engine.pools.mamba.freeSlots (entries.filter fun entry => slot = entry.mambaStateSlot) slot

instance (free : List Slot) (owners : List (SegmentEntry Hash)) (slot : Slot) : Decidable (OwnedOnce free owners slot) :=
  inferInstanceAs (Decidable (_ ∨ _))
instance (kvSize mambaSize : Nat) (engine : Engine Hash) : Decidable (Reclaimed kvSize mambaSize engine) :=
  inferInstanceAs (Decidable (_ ∧ _))

section Steps
variable {args : ServerArgs Hash} {engine next : Engine Hash}

theorem settled_at_insert (ok : JobsOk args engine) {rid : Nat} {job : Job Hash}
    (here : engine.jobAt [.prefilled,.cached] rid = some job) (balanced : EndBalanced args engine.pools.cache job true) :
    settled job.req = [] := by
  obtain ⟨found,stage⟩ := jobAt_some here
  have known := ok rid job found
  simp only [mem_cons,not_mem_nil,or_false] at stage
  rcases stage with prefilled | cached
  · simp only [JobOk,prefilled] at known
    exact known.2
  · simp only [JobOk,cached] at known
    by_cases none : cacheable args job.req = []
    · exact eq_nil_iff_forall_not_mem.mpr fun seg inside => by simpa [none] using (known.2 seg).mp inside
    · have prefilled := (balanced.1 none).mp rfl
      rw [cached] at prefilled
      cases prefilled

theorem step_balanced (ok : JobsOk args engine) {action : Action} (balanced : Balanced args engine action)
    (stepped : step args engine action = some next) : JobsOk args next ∧ ledger args next = ledger args engine := by
  refine ⟨step_ok ok stepped,?_⟩
  cases action with
  | cacheUnfinished rid now =>
    obtain ⟨lost,moved,clean⟩ := cacheUnfinished_moves ok stepped
    rwa [clean balanced,add_zero] at moved
  | finish rid now isInsert =>
    have once : ∀ job ∈ engine.jobAt [.prefilled,.cached] rid, isInsert = true → settled job.req = [] := by
      rintro job here rfl
      exact settled_at_insert ok here (balanced job here)
    obtain ⟨lost,moved,clean⟩ := finish_moves ok stepped once
    rwa [clean balanced,add_zero] at moved
  | _ => exact step_ledger ok rfl stepped
end Steps

theorem run_balanced {args : ServerArgs Hash} {kvSize mambaSize reqSize : Nat} {needSort : Bool} {actions : List Action}
    {final : Engine Hash} (balanced : Guarded (step args) (Balanced args) (.start kvSize mambaSize reqSize needSort) actions)
    (executed : run (step args) (.start kvSize mambaSize reqSize needSort) actions = some final) :
    JobsOk args final ∧
      ledger args final = kvHolding (List.range' 1 kvSize) + mambaHolding (List.range' 1 mambaSize) := by
  refine run_keeps (fun engine => JobsOk args engine ∧
    ledger args engine = kvHolding (List.range' 1 kvSize) + mambaHolding (List.range' 1 mambaSize)) ?_
    ⟨start_ok args kvSize mambaSize reqSize needSort,start_ledger args kvSize mambaSize reqSize needSort⟩ balanced executed
  intro engine action next inv balanced stepped
  obtain ⟨ok,moved⟩ := step_balanced inv.1 balanced stepped
  exact ⟨ok,moved.trans inv.2⟩

section Owners
variable (entries : List (SegmentEntry Hash)) (slot : Slot)

theorem owners_length {α : Type*} (items : List α) (occurrences : α → Nat) (once : (items.map occurrences).sum ≤ 1) :
    (items.filter fun item => 0 < occurrences item).length = (items.map occurrences).sum := by
  induction items with
  | nil => rfl
  | cons item rest ih =>
    rw [map_cons,sum_cons] at once ⊢
    by_cases owns : 0 < occurrences item
    · rw [filter_cons_of_pos (by simpa using owns),length_cons,ih (by omega)]
      omega
    · rw [filter_cons_of_neg (by simpa using owns),ih (by omega)]
      omega

theorem ownedOnce_of_count {free : List Slot} {owners : List (SegmentEntry Hash)}
    (once : free.count slot + owners.length = 1) : OwnedOnce free owners slot := by
  by_cases inside : slot ∈ free
  · have positive := count_pos_iff.mpr inside
    exact .inl ⟨inside,by omega⟩
  · rw [count_eq_zero_of_not_mem inside] at once
    exact .inr ⟨inside,by omega⟩

/-- How often a holding has a slot of the KV pool. -/
def kvCount : Holding →+ ℕ := (Multiset.countAddMonoidHom slot).comp (AddMonoidHom.fst _ _)
/-- How often a holding has a slot of the mamba pool. -/
def mambaCount : Holding →+ ℕ := (Multiset.countAddMonoidHom slot).comp (AddMonoidHom.snd _ _)

theorem kvCount_ledger (pools : Pools Hash) :
    kvCount slot pools.ledger = pools.kv.slots.count slot +
      (pools.cache.entries.values.map fun entry => entry.fullKvSlots.count slot).sum := by
  simp only [Pools.ledger,PICache.holding,Dict.total,map_add,map_list_sum,map_map,Dict.values]
  simp [kvCount,SegmentEntry.holding,comp_def]

theorem mambaCount_ledger (pools : Pools Hash) :
    mambaCount slot pools.ledger = pools.mamba.freeSlots.count slot +
      (pools.cache.entries.values.map fun entry => if slot = entry.mambaStateSlot then 1 else 0).sum := by
  simp only [Pools.ledger,PICache.holding,Dict.total,map_add,map_list_sum,map_map,Dict.values]
  simp [mambaCount,SegmentEntry.holding,comp_def,Multiset.count_singleton]
end Owners

theorem reclaimed_of_ledger {kvSize mambaSize : Nat} {engine : Engine Hash}
    (whole : engine.pools.ledger = kvHolding (List.range' 1 kvSize) + mambaHolding (List.range' 1 mambaSize)) :
    Reclaimed kvSize mambaSize engine := by
  constructor
  · intro slot inside
    have once : kvCount slot engine.pools.ledger = 1 := by
      rw [whole]
      simpa [kvCount] using count_eq_one_of_mem nodup_range' inside
    rw [kvCount_ledger] at once
    have owners := owners_length engine.pools.cache.entries.values (fun entry => entry.fullKvSlots.count slot) (by omega)
    simp only [count_pos_iff] at owners
    exact ownedOnce_of_count slot (by rw [owners]; exact once)
  · intro slot inside
    have once : mambaCount slot engine.pools.ledger = 1 := by
      rw [whole]
      simpa [mambaCount] using count_eq_one_of_mem nodup_range' inside
    rw [mambaCount_ledger] at once
    have owners := owners_length engine.pools.cache.entries.values
      (fun entry => if slot = entry.mambaStateSlot then 1 else 0) (by omega)
    have positive (entry : SegmentEntry Hash) :
        (0 < if slot = entry.mambaStateSlot then 1 else 0) ↔ slot = entry.mambaStateSlot := by split <;> simp [*]
    simp only [positive] at owners
    exact ownedOnce_of_count slot (by rw [owners]; exact once)

/-- After a balanced run that ended every request, each slot is free or exactly one entry's. -/
theorem slots_reclaimed (args : ServerArgs Hash) (kvSize mambaSize reqSize : Nat) (needSort : Bool) (actions : List Action)
    (final : Engine Hash) (balanced : Guarded (step args) (Balanced args) (.start kvSize mambaSize reqSize needSort) actions)
    (executed : run (step args) (.start kvSize mambaSize reqSize needSort) actions = some final)
    (ended : final.jobs.items = []) : Reclaimed kvSize mambaSize final := by
  obtain ⟨-,whole⟩ := run_balanced balanced executed
  refine reclaimed_of_ledger ?_
  rw [← whole,ledger,Dict.total,ended]
  simp

/-- One prompt of two segments, cached after prefill, with one decoded token. -/
def cachedRun : List Action :=
  [.arrive 0 [[1],[2]] 1,.matchPrefix 0 1,.incLockRef 0,.allocForExtend [0],.cacheUnfinished 0 2,.allocForDecode [0],
    .finish 0 3 false]

theorem slots_reclaimed_cachedRun :
    ∃ final ∈ run (step (plainArgs .transition (-1))) (.start 8 8 4 false) cachedRun, Reclaimed 8 8 final := by
  obtain ⟨final,executed⟩ : ∃ final, run (step (plainArgs .transition (-1))) (.start 8 8 4 false) cachedRun = some final :=
    isSome_iff_exists.mp (by decide +kernel)
  have ended : ∀ final ∈ run (step (plainArgs .transition (-1))) (.start 8 8 4 false) cachedRun, final.jobs.items = [] := by
    decide +kernel
  exact ⟨final,executed,slots_reclaimed (plainArgs .transition (-1)) 8 8 4 false cachedRun final (by decide +kernel)
    executed (ended final executed)⟩

/-- The same prompt ended before its prefill was cached: the first segment's slots are lost. -/
theorem abort_loses_slots :
    ∃ final ∈ run (step (plainArgs .addition (-1))) (.start 8 8 4 false)
      [.arrive 0 [[1],[2]] 1,.matchPrefix 0 1,.incLockRef 0,.allocForExtend [0],.finish 0 2 false],
      final.jobs.items = [] ∧ final.pools.cache.entries.items = [] ∧ final.pools.kv.slots = [3,4,5,6,7,8,2] ∧
        final.pools.mamba.freeSlots = [4,5,6,7,8,3,1] ∧ ¬ Reclaimed 8 8 final := by decide +kernel

end Hypic.Reclaim
