import Hypic.Pages
import Hypic.RadixBalance

/-! What the calls of a radix cache mean to those who hold its nodes: which slots the tree gains and loses, and that what a
    held node stands for stays. -/

namespace Hypic.Radix
open Policy Agree Forest RadixTree RadixCache Pages Multiset
variable {params : CacheInitParams} {cache : RadixCache} {holds : Multiset Nat}

/-- Balanced locks, the holders counted in any order. -/
def BalancedBy (params : CacheInitParams) (cache : RadixCache) (holds : Multiset Nat) : Prop :=
  ∃ held : List Nat, (held : Multiset Nat) = holds ∧ Balanced params cache held

theorem BalancedBy.sound (balanced : BalancedBy params cache holds) : Sound params cache := by
  obtain ⟨held,-,balanced⟩ := balanced
  exact balanced.sound

/-- Every node holds the slots of whole pages, page by page. -/
def WholePages (pageSize : Nat) (forest : Forest TreeNode) : Prop :=
  ∀ node ∈ forest.nodes, ∃ pages, node.value = slotsOf pageSize pages

/-- The second tree keeps what every node of the first stands for. -/
def Keeps (before after : Forest TreeNode) : Prop :=
  ∀ extraKey units slots node, Leads before extraKey units slots node → Leads after extraKey units slots node

theorem Keeps.refl (forest : Forest TreeNode) : Keeps forest forest := fun _ _ _ _ leads => leads
theorem Keeps.trans {first second third : Forest TreeNode} (left : Keeps first second) (right : Keeps second third) : Keeps first third :=
  fun extraKey units slots node leads => right extraKey units slots node (left extraKey units slots node leads)

variable {node : Option Nat}

theorem pages_of_leads {forest : Forest TreeNode} {pageSize : Nat} (whole : WholePages pageSize forest) {extraKey : Option String}
    {units : List KeyUnit} {slots : List Slot} (leads : Leads forest extraKey units slots node) :
    ∃ pages, slots = slotsOf pageSize pages := by
  cases node with
  | none => exact ⟨[],leads.2⟩
  | some id =>
    obtain ⟨way,found,-,-,rfl⟩ := leads
    have inside := path_subset found
    clear found
    induction way with
    | nil => exact ⟨[],rfl⟩
    | cons step rest ih =>
      obtain ⟨pages,isRest⟩ := ih (fun inner member => inside (List.mem_cons_of_mem _ member))
      obtain ⟨first,isFirst⟩ := whole step.1 (mem_nodes_iff.mpr ⟨step.2,inside (List.mem_cons_self ..)⟩)
      exact ⟨first ++ pages,by rw [waySlots_cons,isRest,isFirst,slotsOf_append]⟩

theorem whole_walk {visit : Visit TreeData} {key : RadixKey} {value : List Slot} {walked : Walked TreeData} (sound : Sound params cache)
    (walks : Walks params.pageSize visit cache.counter none cache.forest key value walked)
    (whole : WholePages params.pageSize cache.forest) (given : ∃ pages, value = slotsOf params.pageSize pages) :
    WholePages params.pageSize walked.forest := by
  refine walks.every (fun node holds => holds) ?_ ?_ whole
  · rintro node splitLen ⟨pages,isValue⟩ ⟨count,rfl⟩ inside fits
    rw [upper_value,lower_value,isValue,Nat.mul_comm,slotsOf_take,slotsOf_drop]
    exact ⟨⟨_,rfl⟩,⟨_,rfl⟩⟩
  · intro leaf grown
    obtain ⟨pages,isValue⟩ := given
    obtain ⟨-,isRest,-⟩ := walks.leaf_spec grown
    obtain ⟨count,isCount⟩ : params.pageSize ∣ (trace params.pageSize key.extraKey key.units cache.forest).length := trace_length_dvd sound.tidy _
    exact ⟨pages.drop count,by rw [isRest,isCount,isValue,Nat.mul_comm,slotsOf_drop]⟩

/-! ### Matching -/

/-- What a match finds, and that it leaves all else as it is. -/
structure Matched (params : CacheInitParams) (cache : RadixCache) (holds : Multiset Nat) (key : RadixKey)
    (result : MatchResult × RadixCache) : Prop where
  balanced : BalancedBy params result.2 holds
  whole : WholePages params.pageSize cache.forest → WholePages params.pageSize result.2.forest
  slots : treeSlots result.2.forest = treeSlots cache.forest
  keeps : Keeps cache.forest result.2.forest
  found : result.1.deviceIndices = trace params.pageSize key.extraKey (lookupKey params key).units cache.forest
  leads : Leads result.2.forest key.extraKey ((lookupKey params key).units.take result.1.deviceIndices.length)
    result.1.deviceIndices result.1.lastNode

theorem BalancedBy.matchPrefix (balanced : BalancedBy params cache holds) (key : RadixKey) (now : Int) :
    Matched params cache holds key (cache.matchPrefix params key now) := by
  have positive := params.pagePositive
  have sound := balanced.sound
  have kept : BalancedBy params (cache.matchPrefix params key now).2 holds := by
    obtain ⟨held,same,balanced⟩ := balanced
    exact ⟨held,same,balanced.matchPrefix key now⟩
  have found := (matchPrefix_spec sound key now).1
  rw [RadixCache.pages,sound.tidy.along positive] at found
  unfold RadixCache.matchPrefix at kept found ⊢
  by_cases nothing : (lookupKey params key).length = 0
  · rw [if_pos nothing] at kept found ⊢
    exact ⟨kept,fun whole => whole,rfl,Keeps.refl _,found,rfl,rfl⟩
  · rw [if_neg nothing] at kept found ⊢
    have walks := sound.walks (lookupKey_fit nothing) (matchVisit params now) []
    have owner : (lookupKey params key).extraKey = key.extraKey := lookupKey_extraKey key
    refine ⟨kept,fun whole => whole_walk sound walks whole ⟨[],rfl⟩,?_,fun _ _ _ _ leads => leads.walk walks sound.bounded,found,?_⟩
    · rw [walks.treeSlots_eq (looks params (lookupKey params key) now)]
      simp
    · dsimp only at found ⊢
      rw [found,← owner]
      exact walks.leads sound.distinct sound.bounded

/-! ### Inserting -/

/-- What an insertion adds beyond what was known, and that it leaves all else as it is. -/
structure Inserted (params : CacheInitParams) (cache : RadixCache) (holds : Multiset Nat) (extraKey : Option String) (units : List KeyUnit)
    (value : List Slot) (result : Nat × RadixCache) : Prop where
  balanced : BalancedBy params result.2 holds
  whole : WholePages params.pageSize cache.forest → (∃ pages, value = slotsOf params.pageSize pages) →
    WholePages params.pageSize result.2.forest
  known : result.1 = (trace params.pageSize extraKey units cache.forest).length
  slots : treeSlots result.2.forest = treeSlots cache.forest + ↑(value.drop result.1)
  keeps : Keeps cache.forest result.2.forest
  found : trace params.pageSize extraKey units result.2.forest =
    trace params.pageSize extraKey units cache.forest ++ value.drop result.1

theorem BalancedBy.insert (balanced : BalancedBy params cache holds) (given : InsertParams) (now : Int) :
    Inserted params cache holds given.key.extraKey (lookupKey params given.key).units (insertedValue params given)
      (cache.insert params given now) := by
  have positive := params.pagePositive
  have sound := balanced.sound
  have kept : BalancedBy params (cache.insert params given now).2 holds := by
    obtain ⟨held,same,balanced⟩ := balanced
    exact ⟨held,same,balanced.insert given now⟩
  have known := (insert_spec sound given now).1
  rw [RadixCache.pages,sound.tidy.along positive] at known
  have sized := insertedValue_length params given
  have aligned : params.pageSize ∣ (lookupKey params given.key).length := lookupKey_aligned given.key
  have owner : (lookupKey params given.key).extraKey = given.key.extraKey := lookupKey_extraKey given.key
  unfold RadixCache.insert at kept known ⊢
  rw [← owner] at known ⊢
  by_cases nothing : (lookupKey params given.key).length = 0
  · have noValue : insertedValue params given = [] := List.length_eq_zero_iff.mp (sized.trans nothing)
    rw [insertHelper,if_pos nothing] at kept known ⊢
    refine ⟨kept,fun whole _ => whole,known,?_,Keeps.refl _,?_⟩ <;> simp [noValue]
  · have fit := lookupKey_fit nothing
    have walks := sound.walks fit (insertVisit params now given.priority given.chunked) (insertedValue params given)
    have supplied := supplies params now given.priority given.chunked sized
    obtain ⟨isForest,-⟩ := insertHelper_forest params cache (insertedValue params given) given.priority now given.chunked nothing
    refine ⟨kept,fun whole pages => ?_,known,?_,fun _ _ _ _ leads => ?_,?_⟩
    · rw [isForest]; exact whole_walk sound walks whole pages
    · rw [isForest,walks.treeSlots_eq supplied,known]
    · rw [isForest]; exact leads.walk walks sound.bounded
    · have grown := walks.grown positive fit.aligned supplied
      rw [isForest,grown,if_pos rfl,agree_self positive (by rw [RadixKey.units_length]; exact aligned),RadixKey.units_length,
        List.take_of_length_le sized.le,known]

/-! ### Locking -/

theorem moveLocks_keeps (params : CacheInitParams) {amount moved : Int} {after : RadixCache} (moves : moveLocks amount moved node cache = some after) :
    (WholePages params.pageSize cache.forest → WholePages params.pageSize after.forest) ∧ treeSlots after.forest = treeSlots cache.forest ∧
      Keeps cache.forest after.forest := by
  cases node with
  | none =>
    cases moves
    exact ⟨fun whole => whole,rfl,Keeps.refl _⟩
  | some id =>
    obtain ⟨way,found,rfl⟩ := Option.map_eq_some_iff.mp moves
    refine ⟨fun whole => ?_,treeSlots_map (shiftLock_value _ _),fun _ _ _ _ leads => ?_⟩
    · have changed : WholePages params.pageSize (cache.forest.map (shiftLock (way.map (·.1.id)) amount)) :=
        every_map (fun node pages => by rwa [shiftLock_value]) whole
      exact changed
    · exact leads.map (shiftLock_id _ _) (shiftLock_key _ _) (shiftLock_value _ _)

theorem moveLocks_isSome (amount moved : Int) (present : ∀ id ∈ node, id ∈ labels Node.id cache.forest) :
    (moveLocks amount moved node cache).isSome = true := by
  cases node with
  | none => rfl
  | some id =>
    rw [moveLocks,Option.isSome_map]
    exact path_isSome.mpr (present id rfl)

/-- A lock or an unlock moves one hold and leaves all else as it is. -/
structure Moved (params : CacheInitParams) (cache : RadixCache) (holds : Multiset Nat) (after : RadixCache) : Prop where
  balanced : BalancedBy params after holds
  whole : WholePages params.pageSize cache.forest → WholePages params.pageSize after.forest
  slots : treeSlots after.forest = treeSlots cache.forest
  keeps : Keeps cache.forest after.forest

theorem BalancedBy.incLockRef (balanced : BalancedBy params cache holds) {node : Option Nat}
    (present : ∀ id ∈ node, id ∈ labels Node.id cache.forest) :
    ∃ delta after, cache.incLockRef node = some (delta,after) ∧ Moved params cache (↑node.toList + holds) after := by
  obtain ⟨after,moves⟩ := Option.isSome_iff_exists.mp (moveLocks_isSome 1 (-lockDelta 0 node cache) present)
  have locks : cache.incLockRef node = some (-lockDelta 0 node cache,after) := by rw [RadixCache.incLockRef,moves]; rfl
  obtain ⟨whole,slots,keeps⟩ := moveLocks_keeps params moves
  refine ⟨_,after,locks,?_,whole,slots,keeps⟩
  obtain ⟨held,rfl,balanced⟩ := balanced
  cases node with
  | none =>
    cases moves
    exact ⟨held,by simp,balanced⟩
  | some id => exact ⟨id::held,by simp,balanced.incLockRef locks⟩

theorem BalancedBy.decLockRef (balanced : BalancedBy params cache (↑node.toList + holds)) :
    ∃ delta after, cache.decLockRef node = some (delta,after) ∧ Moved params cache holds after := by
  obtain ⟨held,same,balanced⟩ := balanced
  have isHeld : ∀ id ∈ node, id ∈ held := by
    rintro id ⟨⟩
    have member : id ∈ (held : Multiset Nat) := by rw [same]; simp
    exact member
  obtain ⟨after,moves⟩ := Option.isSome_iff_exists.mp (moveLocks_isSome (-1) (lockDelta 1 node cache)
    (fun id isNode => balanced.present id (isHeld id isNode)))
  have unlocks : cache.decLockRef node = some (lockDelta 1 node cache,after) := by rw [RadixCache.decLockRef,moves]; rfl
  obtain ⟨whole,slots,keeps⟩ := moveLocks_keeps params moves
  refine ⟨_,after,unlocks,?_,whole,slots,keeps⟩
  cases node with
  | none =>
    cases moves
    exact ⟨held,by simpa using same,balanced⟩
  | some id =>
    refine ⟨held.erase id,?_,balanced.decLockRef (isHeld id rfl) unlocks⟩
    rw [← coe_erase,same]
    simp

/-! ### Evicting -/

theorem BalancedBy.evict (balanced : BalancedBy params cache holds) (numTokens : Nat) {leaves : List Nat}
    (listing : leaves.Perm cache.evictableLeaves) :
    ∃ final, cache.evict params numTokens leaves = some final ∧ BalancedBy params final.cache holds ∧
      (WholePages params.pageSize cache.forest → WholePages params.pageSize final.cache.forest ∧
        ∀ value ∈ final.freed, ∃ pages, value = slotsOf params.pageSize pages) ∧
      treeSlots cache.forest = ↑final.freed.flatten + treeSlots final.cache.forest ∧
      ∀ extraKey units slots node, (∀ id ∈ node, id ∈ holds) → Leads cache.forest extraKey units slots node →
        Leads final.cache.forest extraKey units slots node := by
  obtain ⟨held,rfl,balanced⟩ := balanced
  obtain ⟨final,removed,evicts,kept,freed,nodes,-,-,leads⟩ := balanced.evict numTokens listing
  refine ⟨final,evicts,⟨held,rfl,kept⟩,fun whole => ⟨fun node member => ?_,fun value member => ?_⟩,?_,leads⟩
  · refine whole node ?_
    have inside : node ∈ (cache.forest.nodes : Multiset TreeNode) := by rw [nodes]; exact mem_add.mpr (.inr member)
    exact inside
  · rw [freed] at member
    obtain ⟨node,gone,rfl⟩ := List.mem_map.mp member
    refine whole node ?_
    have inside : node ∈ (cache.forest.nodes : Multiset TreeNode) := by rw [nodes]; exact mem_add.mpr (.inl gone)
    exact inside
  · have sums := congrArg (fun nodes : Multiset TreeNode => (nodes.map (fun node => (node.value : Multiset Slot))).sum) nodes
    have flat : ((removed.map Node.value).flatten : Multiset Slot) = (removed.map (fun node => (node.value : Multiset Slot))).sum := by
      clear sums nodes freed
      induction removed with
      | nil => rfl
      | cons node rest ih => simp [← ih]
    simp only [Multiset.map_add,sum_add,map_coe,sum_coe] at sums
    rw [treeSlots,treeSlots,total,total,sums,freed,flat]

end Hypic.Radix
