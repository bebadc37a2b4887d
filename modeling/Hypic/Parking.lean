import Hypic.Scatter

/-! Parked combine requests: what each drain of a tick does to the parked list, and when the release scan is reached. -/

namespace Hypic.Parking
open Allocator Cache Scatter Node List
universe u
variable {Hash : Type u} [DecidableEq Hash]

/-- The slots, the entries and the tables the release scan looks at are as before. -/
structure Still (before after : Node Hash) : Prop where
  kv : after.pools.kv = before.pools.kv
  mamba : after.pools.mamba = before.pools.mamba
  entries : after.pools.cache.entries = before.pools.cache.entries
  parked : after.combineParked = before.combineParked
  pending : after.scatterPending = before.scatterPending
  retiring : after.hitRetire = before.hitRetire
  bootstrapped : after.bootstrapped = before.bootstrapped
  aborted : after.aborted = before.aborted

theorem Still.refl (node : Node Hash) : Still node node := ⟨rfl,rfl,rfl,rfl,rfl,rfl,rfl,rfl⟩
theorem Still.trans {first second third : Node Hash} (left : Still first second) (right : Still second third) :
    Still first third :=
  ⟨right.kv.trans left.kv,right.mamba.trans left.mamba,right.entries.trans left.entries,right.parked.trans left.parked,right.pending.trans left.pending,
    right.retiring.trans left.retiring,right.bootstrapped.trans left.bootstrapped,right.aborted.trans left.aborted⟩

theorem Still.fold {Item : Type*} {step : Node Hash → Item → Node Hash} (each : ∀ node item, Still node (step node item))
    (items : List Item) (node : Node Hash) : Still node (items.foldl step node) := by
  induction items generalizing node with
  | nil => exact .refl node
  | cons item rest ih => exact (each node item).trans (ih _)

theorem mapCache_still (node : Node Hash) {change : PICache Hash → PICache Hash}
    (same : ∀ cache, (change cache).entries = cache.entries) : Still node (node.mapCache change) :=
  ⟨rfl,rfl,same _,rfl,rfl,rfl,rfl,rfl⟩

@[simp] theorem lockHash_entries (cache : PICache Hash) (h : Hash) : (lockHash cache h).entries = cache.entries := by
  unfold lockHash; cases cache.entries.get? h <;> rfl
@[simp] theorem unlockHash_entries (cache : PICache Hash) (h : Hash) : (unlockHash cache h).entries = cache.entries := by
  unfold unlockHash; cases cache.entries.get? h <;> rfl
theorem unlockAll_entries (cache : PICache Hash) (hashes : List Hash) :
    (hashes.foldl unlockHash cache).entries = cache.entries := by
  induction hashes generalizing cache with
  | nil => rfl
  | cons h rest ih => rw [foldl_cons,ih,unlockHash_entries]

theorem startWrite_still (node : Node Hash) (tick : Tick) (entry : SegmentEntry Hash) (key : SegKey) (h : Hash) :
    Still node (node.startWrite tick entry key h) := by
  have pinned := mapCache_still node (fun cache => PICache.lock_entries cache entry)
  unfold startWrite
  split
  · exact pinned
  · exact pinned.trans ⟨rfl,rfl,rfl,rfl,rfl,rfl,rfl,rfl⟩

theorem tryPushPending_still (node : Node Hash) (tick : Tick) : Still node (node.tryPushPending tick) := by
  refine Still.fold (fun node item => ?_) _ node
  unfold pushOne
  split
  · split
    · exact ⟨rfl,rfl,rfl,rfl,rfl,rfl,rfl,rfl⟩
    · rename_i entry _
      have dropped := mapCache_still node (fun cache => PICache.unlock_entries cache entry)
      dsimp only
      refine dropped.trans (Still.trans ?_ (startWrite_still _ tick entry item.key item.segHash))
      exact ⟨rfl,rfl,rfl,rfl,rfl,rfl,rfl,rfl⟩
  · split
    · exact (mapCache_still node fun cache => unlockHash_entries cache item.segHash).trans ⟨rfl,rfl,rfl,rfl,rfl,rfl,rfl,rfl⟩
    · exact .refl node

theorem reapInflight_still (node : Node Hash) (item : PushItem Hash) : Still node (node.reapInflight item) :=
  (mapCache_still node fun cache => unlockHash_entries cache item.segHash).trans ⟨rfl,rfl,rfl,rfl,rfl,rfl,rfl,rfl⟩

theorem drainWrites_still (node : Node Hash) (tick : Tick) : Still node (node.drainWrites tick) := by
  refine Still.fold (fun node item => ?_) _ node
  dsimp only
  split
  · split
    · exact reapInflight_still node item
    · exact .refl node
  · split
    · exact reapInflight_still node item
    · exact .refl node
  · exact reapInflight_still node item
  · exact reapInflight_still node item

/-! ### The release scan -/

def Ready (node : Node Hash) (entry : Parked Hash) : Prop := ∀ h ∈ entry.hashes, node.pools.cache.entries.contains h = true
/-- The scan would take this request off the list. -/
def Due (now : Nat) (node : Node Hash) (entry : Parked Hash) : Prop := entry.deadline < now ∨ Ready node entry
def NoneDue (now : Nat) (node : Node Hash) : Prop := ∀ entry ∈ node.combineParked, ¬ Due now node entry

instance (node : Node Hash) (entry : Parked Hash) : Decidable (Ready node entry) :=
  inferInstanceAs (Decidable (∀ h ∈ entry.hashes, _))
instance (now : Nat) (node : Node Hash) (entry : Parked Hash) : Decidable (Due now node entry) :=
  inferInstanceAs (Decidable (_ ∨ _))
instance (now : Nat) (node : Node Hash) : Decidable (NoneDue now node) :=
  inferInstanceAs (Decidable (∀ entry ∈ node.combineParked, _))

/-- Requests leave the parked list only to be enqueued once, with all their hashes in the index, or aborted once. -/
structure Leaves (now : Nat) (before after : Node Hash) : Prop where
  grows : ∀ h, before.pools.cache.entries.contains h = true → after.pools.cache.entries.contains h = true
  left : ∃ ready expired : List (Parked Hash),
    (before.combineParked : Multiset (Parked Hash)) = after.combineParked + ready + expired ∧
    after.bootstrapped = before.bootstrapped ++ ready.map Parked.rid ∧
    after.aborted = before.aborted ++ expired.map Parked.rid ∧
    (∀ entry ∈ ready, Ready after entry) ∧ ∀ entry ∈ expired, entry.deadline < now

variable {before after : Node Hash}

theorem Still.leaves {now : Nat} (still : Still before after) : Leaves now before after := by
  refine ⟨fun h found => by rwa [still.entries],[],[],?_,?_,?_,by simp,by simp⟩
  · simp [still.parked]
  · simp [still.bootstrapped]
  · simp [still.aborted]

theorem Leaves.trans {now : Nat} {first second third : Node Hash} (left : Leaves now first second)
    (right : Leaves now second third) : Leaves now first third := by
  obtain ⟨ready,expired,kept,boot,abort,all,late⟩ := left.left
  obtain ⟨ready',expired',kept',boot',abort',all',late'⟩ := right.left
  refine ⟨fun h found => right.grows h (left.grows h found),ready ++ ready',expired ++ expired',?_,?_,?_,?_,?_⟩
  · rw [kept,kept',← coe_add,← coe_add]
    abel
  · simp [boot',boot]
  · simp [abort',abort]
  · intro entry member h isHash
    rcases mem_append.mp member with earlier | later
    · exact right.grows h (all entry earlier h isHash)
    · exact all' entry later h isHash
  · intro entry member
    exact (mem_append.mp member).elim (late entry) (late' entry)

theorem freeCombinePending_frame (node : Node Hash) (rows : List SegKey) :
    (node.freeCombinePending rows).pools.cache.entries = node.pools.cache.entries ∧
      (node.freeCombinePending rows).combineParked = node.combineParked ∧
      (node.freeCombinePending rows).bootstrapped = node.bootstrapped ∧
      (node.freeCombinePending rows).aborted = node.aborted ∧
      (node.freeCombinePending rows).hitRetire = node.hitRetire ∧
      (node.freeCombinePending rows).pools.cache.counters = node.pools.cache.counters := by
  unfold freeCombinePending
  induction node.scatterPending.keys.filter (fun key => key ∈ rows) generalizing node with
  | nil => exact ⟨rfl,rfl,rfl,rfl,rfl,rfl⟩
  | cons key rest ih =>
    rw [foldl_cons]
    unfold freePending
    cases node.scatterPending.get? key with
    | none => exact ih node
    | some dst => exact ih _

variable (now : Nat)

/-- What a tick is made of. -/
inductive Step : Node Hash → Node Hash → Prop where
  | still {before after : Node Hash} (same : Still before after) : Step before after
  | release {node : Node Hash} {entry : Parked Hash} (parked : entry ∈ node.combineParked) :
      Step node (node.releaseOne now entry)
  | emptied (node : Node Hash) : Step node { node with hitRetire := [] }
  | inject {node : Node Hash} {key : SegKey} {dst : Dst Hash} (waits : node.scatterPending.get? key = some dst) :
      Step node (node.inject now key dst)

abbrev Steps : Node Hash → Node Hash → Prop := Relation.ReflTransGen (Step now)

variable {now} in
theorem Still.steps (still : Still before after) : Steps now before after :=
  .single (.still still)

theorem releaseOne_spec (node : Node Hash) (entry : Parked Hash) :
    let after := node.releaseOne now entry
    after.pools.cache.entries = node.pools.cache.entries ∧
      if Due now node entry then after.combineParked = node.combineParked.erase entry ∧
        if entry.deadline < now then after.bootstrapped = node.bootstrapped ∧ after.aborted = node.aborted ++ [entry.rid]
        else after.bootstrapped = node.bootstrapped ++ [entry.rid] ∧ after.aborted = node.aborted
      else after = node := by
  obtain ⟨entries,parked,boot,abort,_⟩ := freeCombinePending_frame node entry.rows
  unfold releaseOne
  by_cases late : entry.deadline < now
  · have due : Due now node entry := .inl late
    simp only [late,if_true,due,releaseCombineHolds,mapCache,Pools.withCache,unlockAll_entries,entries,parked,boot,abort]
    exact ⟨trivial,trivial,trivial,trivial⟩
  · by_cases all : Ready node entry
    · have due : Due now node entry := .inr all
      have ready : entry.hashes.all (fun h => node.pools.cache.entries.contains h) = true := by simpa [Ready] using all
      simp only [late,if_false,ready,if_true,due]
      exact ⟨trivial,trivial,trivial,trivial⟩
    · have waits : ¬ Due now node entry := not_or.mpr ⟨late,all⟩
      have unready : entry.hashes.all (fun h => node.pools.cache.entries.contains h) = false := by simpa [Ready] using all
      simp only [late,if_false,unready,waits,false_eq_true]
      exact ⟨trivial,trivial⟩

theorem erase_coe {parked : List (Parked Hash)} {entry : Parked Hash} (present : entry ∈ parked) :
    (parked : Multiset (Parked Hash)) = parked.erase entry + {entry} := by
  rw [← Multiset.coe_erase,add_comm,Multiset.singleton_add,Multiset.cons_erase (Multiset.mem_coe.mpr present)]

theorem releaseOne_leaves {node : Node Hash} {entry : Parked Hash} (present : entry ∈ node.combineParked) :
    Leaves now node (node.releaseOne now entry) := by
  obtain ⟨same,effect⟩ := releaseOne_spec now node entry
  have grows : ∀ h, node.pools.cache.entries.contains h = true →
      (node.releaseOne now entry).pools.cache.entries.contains h = true := fun h found => by rwa [same]
  split at effect
  · rename_i due
    obtain ⟨parked,outcome⟩ := effect
    have taken := erase_coe present
    rw [← parked] at taken
    split at outcome
    · rename_i late
      exact ⟨grows,[],[entry],by simpa using taken,by simpa using outcome.1,outcome.2,by simp,by simpa using late⟩
    · rename_i early
      refine ⟨grows,[entry],[],by simpa using taken,outcome.1,by simpa using outcome.2,?_,by simp⟩
      rintro _ (_ | _) h isHash
      · exact grows h (due.resolve_left early h isHash)
      · rename_i none; cases none
  · rw [effect]
    exact (Still.refl node).leaves

theorem inject_leaves (node : Node Hash) (key : SegKey) (dst : Dst Hash) : Leaves now node (node.inject now key dst) := by
  unfold inject
  refine ⟨fun h found => ?_,[],[],by simp,by simp,by simp,by simp,by simp⟩
  cases present : node.pools.cache.entries.get? dst.segHash with
  | some existing => exact found
  | none =>
    have missed : (node.pools.cache.matchSegment now dst.segHash dst.tokenIds).1 = none := by
      simp [PICache.matchSegment,present]
    simp only [PICache.insertSegment_of_none _ _ _ _ _ _ missed]
    simp only [Pools.withCache,PICache.removeInflight_entries,PICache.lock_entries,PICache.store,Dict.contains,
      Dict.get?_set] at found ⊢
    split
    · rfl
    · exact found

theorem Steps.leaves (steps : Steps now before after) : Leaves now before after := by
  induction steps with
  | refl => exact (Still.refl before).leaves
  | tail _ step ih =>
    refine ih.trans ?_
    cases step with
    | still same => exact same.leaves
    | release parked => exact releaseOne_leaves now parked
    | emptied => exact ⟨fun _ found => found,[],[],by simp,by simp,by simp,by simp,by simp⟩
    | inject _ => exact inject_leaves now _ _ _

theorem scan_spec (entries : List (Parked Hash)) (node : Node Hash)
    (listed : (entries : Multiset (Parked Hash)) ≤ node.combineParked) :
    let after := entries.foldl (releaseOne now) node
    after.pools.cache.entries = node.pools.cache.entries ∧ Steps now node after ∧
      (node.combineParked : Multiset (Parked Hash)) =
        after.combineParked + (entries.filter fun entry => Due now node entry) := by
  induction entries generalizing node with
  | nil => exact ⟨rfl,.refl,by simp⟩
  | cons entry rest ih =>
    obtain ⟨same,effect⟩ := releaseOne_spec now node entry
    have present : entry ∈ node.combineParked := Multiset.mem_of_le listed (by simp)
    have alike : ∀ other, Due now (node.releaseOne now entry) other ↔ Due now node other := by
      intro other; rw [Due,Due,Ready,Ready,same]
    by_cases due : Due now node entry
    · rw [if_pos due] at effect
      have left : (rest : Multiset (Parked Hash)) ≤ (node.releaseOne now entry).combineParked := by
        rw [effect.1,← Multiset.coe_erase]
        have := Multiset.erase_le_erase entry listed
        simpa using this
      obtain ⟨entriesSame,steps,parked⟩ := ih (node.releaseOne now entry) left
      refine ⟨entriesSame.trans same,steps.head (.release present),?_⟩
      have total := erase_coe present
      rw [← effect.1,parked] at total
      simp only [alike] at total
      rw [foldl_cons,filter_cons_of_pos (by simpa using due),total,← cons_coe,← Multiset.singleton_add]
      abel
    · rw [if_neg due] at effect
      have left : (rest : Multiset (Parked Hash)) ≤ node.combineParked :=
        le_trans (by rw [← cons_coe]; exact Multiset.le_cons_self _ _) listed
      rw [foldl_cons,effect,filter_cons_of_neg (by simpa using due)]
      exact ih node left

theorem tryReleaseCombines_spec (node : Node Hash) :
    (node.tryReleaseCombines now).pools.cache.entries = node.pools.cache.entries ∧
      Steps now node (node.tryReleaseCombines now) ∧ NoneDue now (node.tryReleaseCombines now) := by
  obtain ⟨same,steps,parked⟩ := scan_spec now node.combineParked node le_rfl
  rw [← tryReleaseCombines] at same steps parked
  refine ⟨same,steps,fun entry member due => ?_⟩
  have here : Due now node entry := by rwa [Due,Ready,same] at due
  have counted := congrArg (Multiset.count entry) parked
  have held : 0 < (node.tryReleaseCombines now).combineParked.count entry := count_pos_iff.mpr member
  rw [Multiset.count_add,Multiset.coe_count,Multiset.coe_count,Multiset.coe_count,count_filter (by simpa using here)]
    at counted
  omega

theorem tryReleaseCombines_hitRetire (node : Node Hash) : (node.tryReleaseCombines now).hitRetire = node.hitRetire := by
  unfold tryReleaseCombines
  induction node.combineParked generalizing node with
  | nil => rfl
  | cons entry rest ih =>
    rw [foldl_cons,ih]
    unfold releaseOne
    split
    · exact (freeCombinePending_frame node entry.rows).2.2.2.2.1
    · split <;> rfl

/-! ### A whole tick -/

theorem injectAll_steps (items : List (SegKey × Dst Hash)) (node : Node Hash) (distinct : (items.map Prod.fst).Nodup)
    (waits : ∀ item ∈ items, node.scatterPending.get? item.1 = some item.2) :
    Steps now node (items.foldl (injectLanded now) node) ∧
      (items.foldl (injectLanded now) node).hitRetire = node.hitRetire := by
  induction items generalizing node with
  | nil => exact ⟨.refl,rfl⟩
  | cons item rest ih =>
    obtain ⟨absent,distinct⟩ := nodup_cons.mp distinct
    have later : ∀ other ∈ rest, node.scatterPending.get? other.1 = some other.2 :=
      (forall_mem_cons.mp waits).2
    rw [foldl_cons,injectLanded]
    split
    · obtain ⟨steps,retiring⟩ := ih (node.inject now item.1 item.2) distinct fun other member => by
        have differ : other.1 ≠ item.1 := fun same => absent (same ▸ mem_map_of_mem member)
        simpa [inject,Dict.get?_erase,differ] using later other member
      exact ⟨steps.head (.inject (waits item mem_cons_self)),retiring⟩
    · exact ih node distinct later

/-- The drain of injections: with nothing pending, or a failed poll, the parked list is not looked at. -/
theorem drainInjects_spec (node : Node Hash) (tick : Tick) :
    Steps tick.now node (node.drainInjects tick) ∧ (node.drainInjects tick).hitRetire = node.hitRetire ∧
      if node.scatterPending.items ≠ [] ∧ tick.newNotifs.isSome then NoneDue tick.now (node.drainInjects tick)
      else Still node (node.drainInjects tick) := by
  unfold drainInjects
  by_cases none : node.scatterPending.items = []
  · simp only [none,if_true,ne_eq,not_true,false_and,if_false]
    exact ⟨.refl,trivial,.refl node⟩
  · cases polled : tick.newNotifs with
    | none => simpa [none] using ⟨Relation.ReflTransGen.refl,Still.refl node⟩
    | some tags =>
      simp only [none,if_false,ne_eq,not_false_iff,isSome_some,and_self,if_true]
      have heard : Still node { node with seenNotifs := node.seenNotifs ++ tags } := ⟨rfl,rfl,rfl,rfl,rfl,rfl,rfl,rfl⟩
      obtain ⟨injected,retiring⟩ := injectAll_steps tick.now node.scatterPending.items
        { node with seenNotifs := node.seenNotifs ++ tags } node.scatterPending.distinct
        fun item member => (Dict.get?_eq_some ..).mpr member
      obtain ⟨_,released,noneDue⟩ := tryReleaseCombines_spec tick.now (node.scatterPending.items.foldl
        (injectLanded tick.now) { node with seenNotifs := node.seenNotifs ++ tags })
      refine ⟨heard.steps.trans (injected.trans released),?_,noneDue⟩
      rw [tryReleaseCombines_hitRetire,retiring]

/-- The retirement of this sub-request runs the release scan. -/
def Wakes (sub : SubReq Hash) : Prop := sub.isLocal = true ∧ sub.key.isSome = true

instance (sub : SubReq Hash) : Decidable (Wakes sub) := inferInstanceAs (Decidable (_ ∧ _))

theorem Still.noneDue (still : Still before after) : NoneDue now after ↔ NoneDue now before := by
  unfold NoneDue Due Ready
  rw [still.entries,still.parked]

theorem maybePushAfterPrefill_spec (node : Node Hash) (tick : Tick) (sub : SubReq Hash) :
    let after := node.maybePushAfterPrefill tick sub
    Steps tick.now node after ∧ if Wakes sub then NoneDue tick.now after else Still node after := by
  obtain ⟨rid,segHash,key,isLocal⟩ := sub
  unfold maybePushAfterPrefill
  cases key with
  | none => simpa [Wakes] using ⟨Relation.ReflTransGen.refl,Still.refl node⟩
  | some key =>
    have held := mapCache_still node fun cache => lockHash_entries cache segHash
    cases isLocal with
    | true =>
      obtain ⟨_,steps,noneDue⟩ := tryReleaseCombines_spec tick.now (node.mapCache fun cache => lockHash cache segHash)
      simpa [Wakes] using ⟨held.steps.trans steps,noneDue⟩
    | false =>
      simp only [Wakes,false_eq_true,false_and,if_false]
      refine ⟨Still.steps ?still,?still⟩
      split
      · split
        · exact .refl node
        · refine Still.trans ?_ (startWrite_still _ tick _ key segHash)
          exact ⟨rfl,rfl,rfl,rfl,rfl,rfl,rfl,rfl⟩
      · exact held.trans ⟨rfl,rfl,rfl,rfl,rfl,rfl,rfl,rfl⟩

theorem retire_spec (node : Node Hash) (tick : Tick) (sub : SubReq Hash) :
    let after := node.picScatterRetire tick sub none
    Steps tick.now node after ∧ if Wakes sub then NoneDue tick.now after else Still node after := by
  obtain ⟨steps,outcome⟩ := maybePushAfterPrefill_spec node tick sub
  have dropped := mapCache_still (node.maybePushAfterPrefill tick sub) fun cache => unlockHash_entries cache sub.segHash
  refine ⟨steps.trans dropped.steps,?_⟩
  split
  · rename_i wakes
    rw [if_pos wakes] at outcome
    exact (dropped.noneDue tick.now).mpr outcome
  · rename_i quiet
    rw [if_neg quiet] at outcome
    exact outcome.trans dropped

/-- A run of retirements leaves nothing due exactly when one of them scans, or nothing was due before. -/
theorem retireAll_spec (tick : Tick) (subs : List (SubReq Hash)) (node : Node Hash) :
    let after := subs.foldl (fun node sub => node.picScatterRetire tick sub none) node
    Steps tick.now node after ∧
      (NoneDue tick.now after ↔ (∃ sub ∈ subs, Wakes sub) ∨ NoneDue tick.now node) := by
  induction subs generalizing node with
  | nil => exact ⟨.refl,by simp⟩
  | cons sub rest ih =>
    obtain ⟨steps,outcome⟩ := retire_spec node tick sub
    obtain ⟨later,noneDue⟩ := ih (node.picScatterRetire tick sub none)
    refine ⟨steps.trans later,?_⟩
    rw [foldl_cons,noneDue]
    by_cases wakes : Wakes sub
    · rw [if_pos wakes] at outcome
      simp [wakes,outcome]
    · rw [if_neg wakes] at outcome
      simp [wakes,outcome.noneDue tick.now]

theorem picDrain_spec (node : Node Hash) (tick : Tick) :
    Steps tick.now node (node.picDrain tick) ∧
      (NoneDue tick.now (node.picDrain tick) ↔
        (node.scatterPending.items ≠ [] ∧ tick.newNotifs.isSome) ∨ (∃ sub ∈ node.hitRetire, Wakes sub) ∨
          NoneDue tick.now node) := by
  have worked := (tryPushPending_still node tick).trans (drainWrites_still (node.tryPushPending tick) tick)
  obtain ⟨steps,retiring,outcome⟩ := drainInjects_spec ((node.tryPushPending tick).drainWrites tick) tick
  rw [worked.pending] at outcome
  set drained := ((node.tryPushPending tick).drainWrites tick).drainInjects tick with drainedIs
  have unmoved : NoneDue tick.now { drained with hitRetire := [] } ↔ NoneDue tick.now drained := Iff.rfl
  obtain ⟨later,noneDue⟩ := retireAll_spec tick drained.hitRetire { drained with hitRetire := [] }
  refine ⟨worked.steps.trans (steps.trans (.head (.emptied drained) later)),?_⟩
  rw [picDrain,← drainedIs,noneDue,unmoved,retiring,worked.retiring]
  split at outcome
  · rename_i reached
    simp [reached,outcome]
  · rename_i skipped
    rw [or_iff_right skipped,(worked.trans outcome).noneDue tick.now]

/-- One request is parked past its deadline and nothing is pending. -/
def busyNode : Node Nat :=
  { pools := ⟨⟨false,[],[],fun _ => rfl⟩,⟨[]⟩,[],.empty⟩, scatterPending := .empty, seenNotifs := [],
    combineParked := [⟨0,[7],[],1⟩], scatterHandles := [], pushPending := [], writeInflight := [], hitRetire := [],
    bootstrapped := [], aborted := [] }
def lateTick : Tick := ⟨2,0,some [],fun _ => .proc,fun _ => false⟩

end Hypic.Parking
