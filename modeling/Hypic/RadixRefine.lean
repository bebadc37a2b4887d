import Hypic.RadixCache
import Hypic.Runs

/-! A radix cache refines a map from whole-page sequences, under their `extra_key`, to pages of slots. -/

namespace Hypic.Radix
open Policy Agree Forest RadixTree KvEvents List RadixKey
variable {params : CacheInitParams} {cache : RadixCache}

/-- What every call keeps: a tree in order, ids told apart, and no leaf listed that has children. -/
structure Sound (params : CacheInitParams) (cache : RadixCache) : Prop where
  tidy : Tidy params.pageSize none cache.forest
  distinct : (labels Node.id cache.forest).Nodup
  bounded : ∀ id ∈ labels Node.id cache.forest, id < cache.counter
  leavesDistinct : cache.evictableLeaves.Nodup
  leaves : ∀ id ∈ cache.evictableLeaves, Childless (fun _ => True) cache.forest id

/-- The map a cache stands for. -/
def RadixCache.pages (params : CacheInitParams) (cache : RadixCache) : PrefixMap (Option String) KeyUnit Slot :=
  contents params.pageSize cache.forest

/-! ### Keys and slots of a call -/

namespace RadixCache
open List

theorem lookupKey_extraKey (key : RadixKey) : (lookupKey params key).extraKey = key.extraKey := by
  rw [lookupKey,RadixKey.pageAligned_extraKey,RadixKey.maybeToBigramView_extraKey]

theorem lookupKey_aligned (key : RadixKey) : params.pageSize ∣ (lookupKey params key).length := by
  rw [lookupKey,RadixKey.pageAligned_length]; exact Nat.dvd_mul_left ..

theorem lookupKey_fit {key : RadixKey} (some : (lookupKey params key).length ≠ 0) : Fit params.pageSize (lookupKey params key) :=
  ⟨Nat.pos_of_ne_zero some,lookupKey_aligned key⟩

theorem insertedValue_length (params : CacheInitParams) (given : InsertParams) :
    (insertedValue params given).length = (lookupKey params given.key).length := by
  have aligned : (lookupKey params given.key).length ≤ (given.key.maybeToBigramView params.isEagle none).1.length := by
    rw [lookupKey,RadixKey.pageAligned_length]; exact Nat.div_mul_le_self ..
  unfold insertedValue
  cases isValue : given.value with
  | none =>
    rw [RadixKey.maybeToBigramView_none]
    dsimp only
    rw [length_take,min_eq_left length_le_tokenIds]
  | some slots =>
    obtain ⟨value,isTruncated,long⟩ := RadixKey.maybeToBigramView_some params.isEagle (given.paired slots isValue)
    rw [isTruncated]
    dsimp only
    rw [length_take_of_le (by omega)]

end RadixCache

open RadixCache

theorem looks (params : CacheInitParams) (key : RadixKey) (now : Int) : Supplied (matchVisit params now) key [] :=
  ⟨fun grows => by simp [matchVisit] at grows,fun _ => rfl⟩
variable {key : RadixKey} {value : List Slot}

theorem supplies (params : CacheInitParams) (now priority : Int) (chunked : Bool) (sized : value.length = key.length) :
    Supplied (insertVisit params now priority chunked) key value :=
  ⟨fun _ => sized,fun looks => by simp [insertVisit] at looks⟩

theorem Sound.walks (sound : Sound params cache) (fit : Fit params.pageSize key) (visit : Visit TreeData) (value : List Slot) :
    Walks params.pageSize visit cache.counter none cache.forest key value
      (walk params.pageSize visit cache.counter none cache.forest key value) :=
  walks_walk params.pagePositive visit value cache.counter none sound.tidy fit

theorem unmoved_true (visit : Visit TreeData) : Unmoved visit (fun _ => True) := ⟨fun _ => Iff.rfl,fun _ _ => Iff.rfl⟩

/-! ### Matching and inserting -/

/-- `match_prefix` returns the slots held along the key, and the map stays as it is. -/
theorem matchPrefix_spec (sound : Sound params cache) (key : RadixKey) (now : Int) :
    (cache.matchPrefix params key now).1.deviceIndices =
        (cache.pages params).along params.pageSize key.extraKey (lookupKey params key).units ∧
      (cache.matchPrefix params key now).2.pages params = cache.pages params ∧
      Sound params (cache.matchPrefix params key now).2 := by
  have positive := params.pagePositive
  unfold matchPrefix
  by_cases none : (lookupKey params key).length = 0
  · rw [if_pos none,units_eq_nil.mpr none,RadixCache.pages,sound.tidy.along positive,trace_nil positive sound.tidy]
    exact ⟨rfl,rfl,sound⟩
  · rw [if_neg none]
    have fit := lookupKey_fit none
    have walks := sound.walks fit (matchVisit params now) []
    have grown := walks.grown positive fit.aligned (looks params (lookupKey params key) now)
    refine ⟨?_,?_,?_⟩
    · rw [RadixCache.pages,sound.tidy.along positive]
      dsimp only
      rw [walks.slots,lookupKey_extraKey]
    · rw [RadixCache.pages,RadixCache.pages,contents,contents]
      congr 1
      funext asker sought
      rw [grown]; simp
    · obtain ⟨distinct,bounded⟩ := walks.distinct sound.distinct sound.bounded
      refine ⟨?_,distinct,bounded,sound.leavesDistinct,fun id listed => ?_⟩
      · exact walks.tidy positive sound.tidy fit.aligned (looks params _ now) (fun extraKey within => by cases within)
      · refine (walks.childless sound.distinct sound.bounded (unmoved_true _) id).mpr (.inl ⟨sound.leaves id listed,fun grows => ?_⟩)
        rw [walks.leaf_isNone.mpr (.inl rfl)] at grows
        cases grows

/-! ### The set of evictable leaves -/

/-- An unlocked node without children. -/
def Evictable (forest : Forest TreeNode) (id : Nat) : Prop := Childless (fun data => ¬ 0 < data.lockRef) forest id

variable {forest : Forest TreeNode}

theorem Evictable.childless {id : Nat} (evictable : Evictable forest id) :
    Childless (fun _ => True) forest id := by
  obtain ⟨node,member,named,-⟩ := evictable
  exact ⟨node,member,named,trivial⟩

variable {leaves : List Nat}

theorem mem_updateLeafStatus (distinct : (labels Node.id forest).Nodup)
    (nodup : leaves.Nodup) {ref : Option Nat} (present : ∀ id ∈ ref, id ∈ labels Node.id forest) (id : Nat) :
    id ∈ updateLeafStatus forest ref leaves ↔ if ref = some id then Evictable forest id else id ∈ leaves := by
  unfold updateLeafStatus
  cases ref with
  | none => simp
  | some target =>
    obtain ⟨⟨node,children⟩,found⟩ := Option.isSome_iff_exists.mp (find?_isSome.mpr (present target rfl))
    obtain ⟨inside,named⟩ := (find?_spec distinct).mp found
    rw [Option.bind_some,found]
    have same {other : TreeNode} (member : (other,Forest.nil) ∈ forest.subtrees) (isTarget : other.id = target) :
        node = other ∧ children = .nil := by
      have equal := subtrees_injective distinct inside member (named.trans isTarget.symm)
      cases equal
      exact ⟨rfl,rfl⟩
    dsimp only at named ⊢
    by_cases kept : 0 < node.data.lockRef ∨ children ≠ .nil
    · rw [if_pos kept,named,nodup.mem_erase_iff]
      by_cases here : target = id
      · subst here
        rw [if_pos rfl]
        refine ⟨fun both => absurd rfl both.1,?_⟩
        rintro ⟨other,member,isTarget,unlocked⟩
        obtain ⟨rfl,rfl⟩ := same member isTarget
        exact absurd kept (not_or.mpr ⟨unlocked,not_not.mpr rfl⟩)
      · rw [if_neg (fun equal => here (Option.some.inj equal))]
        exact ⟨fun both => both.2,fun listed => ⟨fun equal => here equal.symm,listed⟩⟩
    · rw [if_neg kept,named,mem_insert_iff]
      obtain ⟨unlocked,childless⟩ := not_or.mp kept
      by_cases here : target = id
      · subst here
        rw [if_pos rfl]
        refine ⟨fun _ => ⟨node,?_,named,unlocked⟩,fun _ => .inl rfl⟩
        rwa [not_not.mp childless] at inside
      · rw [if_neg (fun equal => here (Option.some.inj equal))]
        exact ⟨fun either => either.resolve_left (fun equal => here equal.symm),.inr⟩

theorem updateLeafStatus_nodup (nodup : leaves.Nodup) (ref : Option Nat) :
    (updateLeafStatus forest ref leaves).Nodup := by
  unfold updateLeafStatus
  split
  · split
    · exact nodup.erase _
    · exact nodup.insert
  · exact nodup

/-! ### Inserting -/

variable {visit : Visit TreeData}

section Walked
variable {walked : Walked TreeData} (walks : Walks params.pageSize visit cache.counter none cache.forest key value walked)
  (sound : Sound params cache)
include walks sound

theorem lastId_labels : ∀ id ∈ walked.lastId, id ∈ labels Node.id walked.forest := by
  intro id isLast
  obtain ⟨last,isVisited,rfl⟩ := Option.map_eq_some_iff.mp isLast
  obtain ⟨way,leads,-⟩ := walks.way sound.distinct sound.bounded isVisited
  exact leads.present

theorem leaf_labels {leaf : TreeNode} (grown : walked.leaf = some leaf) : leaf.id ∈ labels Node.id walked.forest :=
  ((walks.childless sound.distinct sound.bounded (unmoved_true visit) leaf.id).mpr (.inr ⟨leaf,grown,rfl,trivial⟩)).mem_labels

theorem totalPrefixLength_eq :
    (walked.visited.map (·.key.length)).sum = (trace params.pageSize key.extraKey key.units cache.forest).length := by
  have spelled := congrArg List.length walks.units
  have bound : (trace params.pageSize key.extraKey key.units cache.forest).length ≤ _ := trace_length_le sound.tidy key.units
  rw [length_take_of_le bound,length_flatMap] at spelled
  rw [← spelled]
  simp

end Walked

theorem insertHelper_fst {priority now : Int} {chunked : Bool} (some : key.length ≠ 0) :
    (insertHelper params key value priority chunked now cache).1 =
      ((walk params.pageSize (insertVisit params now priority chunked) cache.counter none cache.forest key value).visited.map
        (·.key.length)).sum := by
  rw [insertHelper,if_neg some]
  dsimp only
  split <;> rfl

theorem insertHelper_forest (params : CacheInitParams) (cache : RadixCache) (value : List Slot) (priority now : Int)
    (chunked : Bool) (some : key.length ≠ 0) :
    let walked := walk params.pageSize (insertVisit params now priority chunked) cache.counter none cache.forest key value
    let after := (insertHelper params key value priority chunked now cache).2
    after.forest = walked.forest ∧ after.counter = walked.counter := by
  dsimp only
  rw [insertHelper,if_neg some]
  dsimp only
  split <;> exact ⟨rfl,rfl⟩

theorem mem_insert_leaves (value : List Slot) (priority now : Int) (chunked : Bool) (some : key.length ≠ 0)
    (sound : Sound params cache) (fit : Fit params.pageSize key) (id : Nat) :
    let walked := walk params.pageSize (insertVisit params now priority chunked) cache.counter none cache.forest key value
    let after := (insertHelper params key value priority chunked now cache).2
    after.evictableLeaves.Nodup ∧ (id ∈ after.evictableLeaves ↔
      if ∃ leaf ∈ walked.leaf, leaf.id = id ∨ walked.lastId = Option.some id then Evictable walked.forest id
      else id ∈ cache.evictableLeaves) := by
  dsimp only
  have walks := sound.walks fit (insertVisit params now priority chunked) value
  obtain ⟨distinct,-⟩ := walks.distinct sound.distinct sound.bounded
  rw [insertHelper,if_neg some]
  dsimp only
  generalize walk params.pageSize (insertVisit params now priority chunked) cache.counter none cache.forest key value = walked at *
  cases grown : walked.leaf with
  | none =>
    refine ⟨sound.leavesDistinct,?_⟩
    rw [if_neg (by rintro ⟨leaf,isLeaf,-⟩; cases isLeaf)]
  | some leaf =>
    refine ⟨updateLeafStatus_nodup (updateLeafStatus_nodup sound.leavesDistinct _) _,?_⟩
    have isLeaf : ∀ id ∈ Option.some leaf.id, id ∈ labels Node.id walked.forest := by
      rintro id ⟨⟩
      exact leaf_labels walks sound grown
    rw [mem_updateLeafStatus distinct (updateLeafStatus_nodup sound.leavesDistinct _) isLeaf,
      mem_updateLeafStatus distinct sound.leavesDistinct (lastId_labels walks sound)]
    simp only [Option.some.injEq,Option.mem_def,exists_eq_left']
    by_cases isNew : leaf.id = id
    · rw [if_pos isNew,if_pos (.inl isNew)]
    · rw [if_neg isNew]
      by_cases above : walked.lastId = Option.some id
      · rw [if_pos above,if_pos (.inr above)]
      · rw [if_neg above,if_neg (not_or.mpr ⟨isNew,above⟩)]

/-- `insert` adds the pages the map lacks and returns the length of what it had. -/
theorem insert_spec (sound : Sound params cache) (given : InsertParams) (now : Int) :
    (cache.insert params given now).1 =
        ((cache.pages params).along params.pageSize given.key.extraKey (lookupKey params given.key).units).length ∧
      (cache.insert params given now).2.pages params =
        (cache.pages params).insert params.pageSize given.key.extraKey (lookupKey params given.key).units (insertedValue params given) ∧
      Sound params (cache.insert params given now).2 := by
  have positive := params.pagePositive
  have sized := insertedValue_length params given
  unfold RadixCache.insert
  generalize isKey : lookupKey params given.key = key at sized
  generalize insertedValue params given = value at sized
  have owner : key.extraKey = given.key.extraKey := by rw [← isKey]; exact lookupKey_extraKey given.key
  rw [← owner,RadixCache.pages,sound.tidy.along positive]
  by_cases none : key.length = 0
  · have noUnits := units_eq_nil.mpr none
    rw [insertHelper,if_pos none,noUnits,trace_nil positive sound.tidy]
    refine ⟨rfl,?_,sound⟩
    funext asker sought
    rw [RadixCache.pages,PrefixMap.insert]
    cases present : contents params.pageSize cache.forest asker sought with
    | some page => rfl
    | none => rw [if_neg (fun both => both.2.1.1 (prefix_nil.mp both.2.2))]
  · have fit : Fit params.pageSize key := by
      rw [← isKey] at none ⊢
      exact lookupKey_fit none
    have supplied := supplies params now given.priority given.chunked sized
    obtain ⟨isForest,isCounter⟩ := insertHelper_forest params cache value given.priority now given.chunked none
    have walks := sound.walks fit (insertVisit params now given.priority given.chunked) value
    refine ⟨?_,?_,?_⟩
    · rw [insertHelper_fst none,totalPrefixLength_eq walks sound]
    · rw [RadixCache.pages,isForest,contents]
      exact (sound.tidy.reading positive).insert_eq positive (by rw [RadixKey.units_length,sized])
        (walks.grown positive fit.aligned supplied)
    · obtain ⟨distinct,bounded⟩ := walks.distinct sound.distinct sound.bounded
      have listed := mem_insert_leaves value given.priority now given.chunked none sound fit
      refine ⟨?_,?_,?_,(listed 0).1,fun id member => ?_⟩
      · rw [isForest]
        exact walks.tidy positive sound.tidy fit.aligned supplied (fun extraKey within => by cases within)
      · rwa [isForest]
      · rwa [isForest,isCounter]
      · rw [isForest]
        have member := (listed id).2.mp member
        split at member
        · exact member.childless
        · rename_i other
          refine (walks.childless sound.distinct sound.bounded (unmoved_true _) id).mpr
            (.inl ⟨sound.leaves id member,fun grows above => other ?_⟩)
          obtain ⟨leaf,isLeaf⟩ := Option.isSome_iff_exists.mp grows
          exact ⟨leaf,isLeaf,.inr above⟩

/-! ### Locks -/

/-- The node with its lock count shifted when it is one of those given. -/
def shiftLock (ids : List Nat) (amount : Int) (node : TreeNode) : TreeNode :=
  if node.id ∈ ids then { node with data := { node.data with lockRef := node.data.lockRef + amount } } else node

theorem shiftLocks_eq (ids : List Nat) (amount : Int) (forest : Forest TreeNode) :
    shiftLocks ids amount forest = forest.map (shiftLock ids amount) := rfl

section ShiftLock
variable (ids : List Nat) (amount : Int) (node : TreeNode)

@[simp] theorem shiftLock_id : (shiftLock ids amount node).id = node.id := by unfold shiftLock; split <;> rfl
@[simp] theorem shiftLock_label : (shiftLock ids amount node).label = node.label := by unfold shiftLock; split <;> rfl
@[simp] theorem shiftLock_key : (shiftLock ids amount node).key = node.key := by unfold shiftLock; split <;> rfl
@[simp] theorem shiftLock_value : (shiftLock ids amount node).value = node.value := by unfold shiftLock; split <;> rfl

end ShiftLock

theorem labels_shiftLocks (ids : List Nat) (amount : Int) (forest : Forest TreeNode) :
    labels Node.id (shiftLocks ids amount forest) = labels Node.id forest := labels_map (shiftLock_id ids amount) forest

theorem mem_foldr_updateLeafStatus (distinct : (labels Node.id forest).Nodup)
    (nodup : leaves.Nodup) {way : List (TreeNode × Forest TreeNode)} (present : ∀ step ∈ way, step.1.id ∈ labels Node.id forest) (id : Nat) :
    let settled := way.foldr (fun step => updateLeafStatus forest (some step.1.id)) leaves
    settled.Nodup ∧ (id ∈ settled ↔ if ∃ step ∈ way, step.1.id = id then Evictable forest id else id ∈ leaves) := by
  induction way with
  | nil => simp [nodup]
  | cons step rest ih =>
    obtain ⟨others,settled⟩ := ih (forall_mem_cons.mp present).2
    refine ⟨updateLeafStatus_nodup others _,?_⟩
    rw [foldr_cons,mem_updateLeafStatus distinct others (by rintro _ ⟨⟩; exact present step mem_cons_self),settled]
    simp only [Option.some.injEq,exists_mem_cons_iff]
    by_cases here : step.1.id = id
    · rw [if_pos here,if_pos (.inl here)]
    · rw [if_neg here]
      by_cases later : ∃ step ∈ rest, step.1.id = id
      · rw [if_pos later,if_pos (.inr later)]
      · rw [if_neg later,if_neg (not_or.mpr ⟨here,later⟩)]

theorem childless_shiftLocks {ids : List Nat} {amount : Int} {id : Nat}
    (childless : Childless (fun _ => True) forest id) : Childless (fun _ => True) (shiftLocks ids amount forest) id := by
  obtain ⟨node,member,named,-⟩ := childless
  refine ⟨shiftLock ids amount node,?_,by rw [shiftLock_id,named],trivial⟩
  rw [shiftLocks_eq,subtrees_map,mem_map]
  exact ⟨_,member,rfl⟩

variable {after : RadixCache}

theorem moveLocks_spec (sound : Sound params cache) {amount moved : Int} {node : Option Nat}
    (moves : moveLocks amount moved node cache = some after) : after.pages params = cache.pages params ∧ Sound params after := by
  cases node with
  | none =>
    cases moves
    exact ⟨rfl,sound⟩
  | some id =>
    obtain ⟨way,found,rfl⟩ := Option.map_eq_some_iff.mp moves
    have distinct : (labels Node.id (shiftLocks (way.map (·.1.id)) amount cache.forest)).Nodup := by
      rw [labels_shiftLocks]; exact sound.distinct
    have present : ∀ step ∈ way, step.1.id ∈ labels Node.id (shiftLocks (way.map (·.1.id)) amount cache.forest) := by
      intro step member
      rw [labels_shiftLocks]
      exact mem_labels_iff.mpr ⟨step,path_subset found member,rfl⟩
    have settled := mem_foldr_updateLeafStatus distinct sound.leavesDistinct present
    refine ⟨contents_map (shiftLock_key _ _) (shiftLock_value _ _),?_,distinct,?_,(settled 0).1,?_⟩
    · exact sound.tidy.map (shiftLock_key _ _) (shiftLock_value _ _) (shiftLock_label _ _)
    · intro other member
      rw [labels_shiftLocks] at member
      exact sound.bounded other member
    · intro other member
      have member := (settled other).2.mp member
      split at member
      · exact member.childless
      · exact childless_shiftLocks (sound.leaves other member)

theorem incLockRef_spec (sound : Sound params cache) {node : Option Nat} {delta : Int}
    (locks : cache.incLockRef node = some (delta,after)) : after.pages params = cache.pages params ∧ Sound params after := by
  obtain ⟨moved,moves,same⟩ := Option.map_eq_some_iff.mp locks
  cases same
  exact moveLocks_spec sound moves

theorem decLockRef_spec (sound : Sound params cache) {node : Option Nat} {delta : Int}
    (unlocks : cache.decLockRef node = some (delta,after)) : after.pages params = cache.pages params ∧ Sound params after := by
  obtain ⟨moved,moves,same⟩ := Option.map_eq_some_iff.mp unlocks
  cases same
  exact moveLocks_spec sound moves

/-! ### Eviction -/

variable {item : List Int × Nat}

theorem heapPop_perm {heap rest : Heap} (popped : heapPop heap = some (item,rest)) :
    heap.Perm (item::rest) := by
  induction heap generalizing item rest with
  | nil => cases popped
  | cons first others ih =>
    rw [heapPop] at popped
    cases inner : heapPop others with
    | none =>
      rw [inner] at popped
      cases popped
      cases others with
      | nil => exact List.Perm.refl _
      | cons second more =>
        rw [heapPop] at inner
        split at inner
        · split at inner <;> cases inner
        · cases inner
    | some found =>
      obtain ⟨least,remaining⟩ := found
      rw [inner] at popped
      dsimp only at popped
      split at popped
      · cases popped
        exact ((ih inner).cons first).trans (List.Perm.swap ..)
      · cases popped
        exact List.Perm.refl _

variable {heap : Heap}

theorem heapPop_eq_none : heapPop heap = none ↔ heap = [] := by
  cases heap with
  | nil => exact ⟨fun _ => rfl,fun _ => rfl⟩
  | cons first others =>
    rw [heapPop]
    constructor
    · intro nothing
      split at nothing
      · split at nothing <;> cases nothing
      · cases nothing
    · nofun

theorem childless_erase {holds : TreeData → Prop} (distinct : (labels Node.id forest).Nodup) {target id : Nat}
    (leaf : IsLeaf Node.id target forest) (other : id ≠ target) (childless : Childless holds forest id) :
    Childless holds (erase Node.id target forest) id := by
  obtain ⟨node,inside,named,fits⟩ := childless
  exact ⟨node,(subtrees_erase distinct leaf _).mpr ⟨_,inside,by rw [named]; exact other,rfl⟩,named,fits⟩

theorem parent_labels_erase (distinct : (labels Node.id forest).Nodup) {target : Nat}
    (leaf : IsLeaf Node.id target forest) {step : TreeNode × Forest TreeNode} (above : parent? Node.id target forest = some step) :
    step.1.id ∈ labels Node.id (erase Node.id target forest) ∧ step.1.id ≠ target := by
  obtain ⟨inside,child,isRoot,named⟩ := parent?_spec above
  have below : target ∈ labels Node.id step.2 := by
    rw [← named]; exact mem_map_of_mem (roots_subset _ isRoot)
  have apart : step.1.id ≠ target := fun same => (subtrees_distinct distinct inside).1 (by rw [same]; exact below)
  exact ⟨mem_labels_iff.mpr ⟨_,(subtrees_erase distinct leaf _).mpr ⟨step,inside,apart,rfl⟩,rfl⟩,apart⟩

/-- What one round of `evict` does to a leaf at the top of the heap. -/
structure Evicted (params : CacheInitParams) (state : Evicting) (item : List Int × Nat) (heap : Heap) (leaf : TreeNode)
    (next : Evicting) : Prop where
  inside : (leaf,Forest.nil) ∈ state.cache.forest.subtrees
  named : leaf.id = item.2
  forest : next.cache.forest = erase Node.id leaf.id state.cache.forest
  counter : next.cache.counter = state.cache.counter
  evictableSize : next.cache.evictableSize = state.cache.evictableSize - leaf.key.length
  protectedSize : next.cache.protectedSize = state.cache.protectedSize
  evictableLeaves : next.cache.evictableLeaves = updateLeafStatus next.cache.forest
    ((parent? Node.id leaf.id state.cache.forest).map (·.1.id)) (state.cache.evictableLeaves.erase leaf.id)
  pushed : next.evictionHeap = heap ∨ ∃ step node, parent? Node.id leaf.id state.cache.forest = some step ∧
    (node,Forest.nil) ∈ next.cache.forest.subtrees ∧ node.id = step.1.id ∧ node.data.lockRef = 0 ∧
    next.evictionHeap = heapItem params node::heap
  kept : ∀ step node, parent? Node.id leaf.id state.cache.forest = some step →
    (node,Forest.nil) ∈ next.cache.forest.subtrees → node.id = step.1.id → node.data.lockRef = 0 →
    next.evictionHeap = heapItem params node::heap
  numEvicted : next.numEvicted = state.numEvicted + leaf.value.length
  freed : next.freed = state.freed ++ [leaf.value]
  announced : next.cache.kvEventQueue = state.cache.kvEventQueue ++ (if params.enableKvCacheEvents then
    recordRemoveEvent params.pageSize leaf.key (leaf.data.hashValue.getD (computeNodeHashValues params.sha256 params.pageSize
      (parentHashes ((parent? Node.id leaf.id state.cache.forest).map Prod.fst)) leaf.key)) else [])

theorem evictRound_spec (params : CacheInitParams) {state : Evicting} (distinct : (labels Node.id state.cache.forest).Nodup)
    (heap : Heap) (leaf : Childless (fun _ => True) state.cache.forest item.2) :
    ∃ next node, evictRound params state item heap = some next ∧ Evicted params state item heap node next := by
  obtain ⟨node,inside,named,-⟩ := leaf
  have found := (find?_spec distinct).mpr ⟨inside,named⟩
  have isLeaf : IsLeaf Node.id node.id state.cache.forest := ⟨node,inside,rfl⟩
  have erased := (labels_erase_nodup distinct isLeaf).1
  rw [evictRound,found]
  refine ⟨_,node,rfl,inside,named,rfl,rfl,rfl,rfl,rfl,?_,?_,rfl,rfl,rfl⟩
  · -- the parent is pushed only where it was found without children
    dsimp only [deleteLeaf]
    cases above : parent? Node.id node.id state.cache.forest with
    | none => exact .inl rfl
    | some step =>
      rw [Option.bind_some]
      cases again : find? Node.id step.1.id (erase Node.id node.id state.cache.forest) with
      | none => exact .inl rfl
      | some upper =>
        obtain ⟨present,same⟩ := (find?_spec erased).mp again
        obtain ⟨upper,children⟩ := upper
        dsimp only at present same ⊢
        by_cases free : children = .nil ∧ upper.data.lockRef = 0
        · rw [if_pos free]
          rw [free.1] at present
          exact .inr ⟨step,upper,rfl,present,same,free.2,rfl⟩
        · rw [if_neg free]
          exact .inl rfl
  · intro step upper above present same free
    have again := (find?_spec erased).mpr ⟨present,same⟩
    dsimp only [deleteLeaf]
    rw [above,Option.bind_some,again]
    exact if_pos ⟨rfl,free⟩

/-- Every item of the heap names another node without children. -/
structure Heaped (forest : Forest TreeNode) (heap : Heap) : Prop where
  distinct : (heap.map Prod.snd).Nodup
  childless : ∀ item ∈ heap, Childless (fun _ => True) forest item.2

/-- The facts that carry the loop of `evict`. -/
structure Draining (params : CacheInitParams) (start : PrefixMap (Option String) KeyUnit Slot) (state : Evicting) : Prop where
  sound : Sound params state.cache
  heaped : Heaped state.cache.forest state.evictionHeap
  trims : start.TrimsAll (state.cache.pages params)

variable {state next : Evicting}

theorem Evicted.heaped
    (evicted : Evicted params state item heap leaf next) (distinct : (labels Node.id state.cache.forest).Nodup)
    (heaped : Heaped state.cache.forest (item::heap)) : Heaped next.cache.forest next.evictionHeap := by
  have isLeaf : IsLeaf Node.id leaf.id state.cache.forest := ⟨leaf,evicted.inside,rfl⟩
  have apart : ∀ other ∈ heap, other.2 ≠ leaf.id := by
    intro other member same
    exact (nodup_cons.mp heaped.distinct).1 (by rw [← evicted.named,← same]; exact mem_map_of_mem member)
  have rest : Heaped next.cache.forest heap := by
    refine ⟨(nodup_cons.mp heaped.distinct).2,fun other member => ?_⟩
    rw [evicted.forest]
    exact childless_erase distinct isLeaf (apart other member) (heaped.childless other (mem_cons_of_mem _ member))
  rcases evicted.pushed with same | ⟨step,node,above,present,named,-,pushed⟩
  · rw [same]; exact rest
  · rw [pushed]
    obtain ⟨inside,child,isRoot,-⟩ := parent?_spec above
    refine ⟨nodup_cons.mpr ⟨fun listed => ?_,rest.distinct⟩,fun other member => ?_⟩
    · -- the node above had a child, so it was not in the heap
      obtain ⟨other,member,same⟩ := mem_map.mp listed
      obtain ⟨bare,bareInside,bareNamed,-⟩ := heaped.childless other (mem_cons_of_mem _ member)
      have equal := subtrees_injective distinct inside bareInside
        (by rw [bareNamed,same]; exact named.symm)
      rw [equal] at isRoot
      cases isRoot
    · rcases mem_cons.mp member with rfl | later
      · exact ⟨node,present,rfl,trivial⟩
      · exact rest.childless other later

theorem Evicted.sound
    (evicted : Evicted params state item heap leaf next) (sound : Sound params state.cache) : Sound params next.cache := by
  have isLeaf : IsLeaf Node.id leaf.id state.cache.forest := ⟨leaf,evicted.inside,rfl⟩
  have erased := labels_erase_nodup sound.distinct isLeaf
  have nodup := sound.leavesDistinct.erase leaf.id
  have present : ∀ id ∈ (parent? Node.id leaf.id state.cache.forest).map (·.1.id), id ∈ labels Node.id next.cache.forest := by
    intro id isParent
    obtain ⟨step,above,rfl⟩ := Option.map_eq_some_iff.mp isParent
    rw [evicted.forest]
    exact (parent_labels_erase sound.distinct isLeaf above).1
  have distinct : (labels Node.id next.cache.forest).Nodup := by rw [evicted.forest]; exact erased.1
  refine ⟨?_,distinct,?_,?_,?_⟩
  · rw [evicted.forest]; exact sound.tidy.erase leaf.id
  · intro id member
    rw [evicted.counter]
    rw [evicted.forest] at member
    refine sound.bounded id ?_
    have listed : id ∈ (labels Node.id state.cache.forest : Multiset Nat) := by
      rw [labels_erase sound.distinct isLeaf]
      exact Multiset.mem_cons_of_mem member
    exact listed
  · rw [evicted.evictableLeaves]; exact updateLeafStatus_nodup nodup _
  · intro id member
    rw [evicted.evictableLeaves,mem_updateLeafStatus distinct nodup present] at member
    split at member
    · exact member.childless
    · obtain ⟨other,listed⟩ := sound.leavesDistinct.mem_erase_iff.mp member
      rw [evicted.forest]
      exact childless_erase sound.distinct isLeaf other (sound.leaves id listed)

theorem Evicted.trims
    (evicted : Evicted params state item heap leaf next) (sound : Sound params state.cache) :
    (state.cache.pages params).TrimsAll (next.cache.pages params) := by
  unfold RadixCache.pages
  rw [evicted.forest]
  exact erase_trims params.pagePositive sound.tidy sound.distinct evicted.inside (sound.tidy.whole_of_mem evicted.inside).aligned

/-- The loop rule of `evict`: what every round on the top of the heap keeps holds at the end, and the loop ends with enough
    evicted or with an empty heap. -/
theorem evictLoop_keeps (params : CacheInitParams) (numTokens fuel : Nat) {state : Evicting} (inv : Evicting → Prop) (start : inv state)
    (keep : ∀ state item heap, inv state → heapPop state.evictionHeap = some (item,heap) →
      ∃ next leaf, evictRound params state item heap = some next ∧ Evicted params state item heap leaf next ∧
        (labels Node.id state.cache.forest).Nodup ∧ inv next)
    (enough : state.cache.forest.nodes.length ≤ fuel) :
    ∃ final, evictLoop params numTokens fuel state = some final ∧ inv final ∧
      (numTokens ≤ final.numEvicted ∨ final.evictionHeap = []) := by
  have shrinks {state next : Evicting} {item : List Int × Nat} {heap : Heap} {leaf : TreeNode}
      (evicted : Evicted params state item heap leaf next) (distinct : (labels Node.id state.cache.forest).Nodup) :
      state.cache.forest.nodes.length = next.cache.forest.nodes.length + 1 := by
    have nodes := congrArg Multiset.card (nodes_erase distinct evicted.inside)
    rw [evicted.forest]
    simpa using nodes
  induction fuel generalizing state with
  | zero =>
    refine ⟨state,rfl,start,.inr ?_⟩
    cases popped : heapPop state.evictionHeap with
    | none => exact heapPop_eq_none.mp popped
    | some top =>
      obtain ⟨next,leaf,-,evicted,distinct,-⟩ := keep state top.1 top.2 start popped
      have := shrinks evicted distinct
      omega
  | succ fuel ih =>
    rw [evictLoop]
    split
    · cases popped : heapPop state.evictionHeap with
      | none => exact ⟨state,rfl,start,.inr (heapPop_eq_none.mp popped)⟩
      | some top =>
        obtain ⟨next,leaf,round,evicted,distinct,kept⟩ := keep state top.1 top.2 start popped
        have := shrinks evicted distinct
        obtain ⟨final,loops,done⟩ := ih kept (by omega)
        exact ⟨final,by dsimp only; rw [round,Option.bind_some,loops],done⟩
    · rename_i done
      exact ⟨state,rfl,start,.inl (by omega)⟩

theorem Heaped.perm {heap other : Heap} (order : heap.Perm other) (heaped : Heaped forest heap) :
    Heaped forest other :=
  ⟨(order.map Prod.snd).nodup heaped.distinct,fun item member => heaped.childless item (order.mem_iff.mpr member)⟩

theorem firstHeap_ids (params : CacheInitParams) (present : ∀ id ∈ leaves, id ∈ labels Node.id forest) :
    (leaves.filterMap (fun id => (find? Node.id id forest).map (fun found => heapItem params found.1))).map Prod.snd = leaves := by
  induction leaves with
  | nil => rfl
  | cons id rest ih =>
    obtain ⟨step,found⟩ := Option.isSome_iff_exists.mp (find?_isSome.mpr (present id mem_cons_self))
    obtain ⟨way,led,last⟩ := Option.bind_eq_some_iff.mp found
    obtain ⟨step',last',named⟩ := path_last led
    have named : step.1.id = id := by
      rw [last] at last'
      cases last'
      exact named
    rw [filterMap_cons,found]
    dsimp only [Option.map_some]
    rw [map_cons,ih (forall_mem_cons.mp present).2,heapItem,named]

theorem heaped_start (sound : Sound params cache) (listing : leaves.Perm cache.evictableLeaves) :
    Heaped cache.forest (leaves.filterMap (fun id => (find? Node.id id cache.forest).map (fun found => heapItem params found.1))) := by
  have ids := firstHeap_ids params (fun id member => (sound.leaves id (listing.mem_iff.mp member)).mem_labels)
  refine ⟨by rw [ids]; exact listing.symm.nodup sound.leavesDistinct,fun item member => ?_⟩
  have listed : item.2 ∈ leaves := by rw [← ids]; exact mem_map_of_mem member
  exact sound.leaves _ (listing.mem_iff.mp listed)

theorem evict_spec (sound : Sound params cache) (numTokens : Nat) (listing : leaves.Perm cache.evictableLeaves) :
    ∃ final, cache.evict params numTokens leaves = some final ∧ Sound params final.cache ∧
      (cache.pages params).TrimsAll (final.cache.pages params) := by
  have start : Draining params (cache.pages params)
      ⟨cache,leaves.filterMap (fun id => (find? Node.id id cache.forest).map (fun found => heapItem params found.1)),0,[]⟩ :=
    ⟨sound,heaped_start sound listing,.refl⟩
  obtain ⟨final,loops,done,-⟩ := evictLoop_keeps params numTokens cache.forest.nodes.length
    (Draining params (cache.pages params)) start (by
      intro state item heap draining popped
      have heaped := draining.heaped.perm (heapPop_perm popped)
      obtain ⟨next,leaf,round,evicted⟩ := evictRound_spec params draining.sound.distinct heap (heaped.childless item mem_cons_self)
      exact ⟨next,leaf,round,evicted,draining.sound.distinct,evicted.sound draining.sound,evicted.heaped draining.sound.distinct heaped,
        draining.trims.trans (evicted.trims draining.sound)⟩) le_rfl
  exact ⟨final,loops,done.sound,done.trims⟩

/-! ### Whole runs -/

/-- What a call may do to the map. -/
def Changes (params : CacheInitParams) : Action → PrefixMap (Option String) KeyUnit Slot → PrefixMap (Option String) KeyUnit Slot → Prop
  | .insert given _, before, after =>
    after = before.insert params.pageSize given.key.extraKey (lookupKey params given.key).units (insertedValue params given)
  | .evict _ _, before, after => before.TrimsAll after
  | .matchPrefix _ _, before, after | .incLockRef _, before, after | .decLockRef _, before, after => after = before

theorem step_refines {action : Action} {next : RadixCache} (sound : Sound params cache) (stepped : step params cache action = some next) :
    Changes params action (cache.pages params) (next.pages params) ∧ Sound params next := by
  cases action with
  | insert given now =>
    cases stepped
    exact (insert_spec sound given now).2
  | matchPrefix key now =>
    cases stepped
    exact (matchPrefix_spec sound key now).2
  | evict numTokens leaves =>
    rw [step] at stepped
    split at stepped
    · rename_i listing
      obtain ⟨final,evicts,kept,trims⟩ := evict_spec sound numTokens (isPerm_iff.mp listing)
      rw [evicts] at stepped
      cases stepped
      exact ⟨trims,kept⟩
    · cases stepped
  | incLockRef node =>
    obtain ⟨⟨delta,after⟩,locks,rfl⟩ := Option.map_eq_some_iff.mp stepped
    exact incLockRef_spec sound locks
  | decLockRef node =>
    obtain ⟨⟨delta,after⟩,unlocks,rfl⟩ := Option.map_eq_some_iff.mp stepped
    exact decLockRef_spec sound unlocks

theorem reset_sound (params : CacheInitParams) : Sound params (reset params) where
  tidy := trivial
  distinct := nodup_nil
  bounded _ member := by cases member
  leavesDistinct := nodup_nil
  leaves _ member := by cases member

variable {history : List Action}

theorem run_sound (executed : Runs.run (step params) (reset params) history = some cache) : Sound params cache :=
  Runs.run_always (Sound params) (fun _ _ _ sound stepped => (step_refines sound stepped).2) (reset_sound params) executed

/-- A page that an insertion put in: of the same `extra_key`, at the end of a start of its key, with the slots given there. -/
def Donated (params : CacheInitParams) (history : List Action) (extraKey : Option String) (units : List KeyUnit) (page : List Slot) : Prop :=
  ∃ given now, Action.insert given now ∈ history ∧ given.key.extraKey = extraKey ∧ units <+: (lookupKey params given.key).units ∧
    page = ((insertedValue params given).take units.length).drop (units.length - params.pageSize)

theorem Donated.mono {earlier later : List Action} (subset : earlier ⊆ later) {extraKey : Option String} {units : List KeyUnit}
    {page : List Slot} (donated : Donated params earlier extraKey units page) : Donated params later extraKey units page := by
  obtain ⟨given,now,member,rest⟩ := donated
  exact ⟨given,now,subset member,rest⟩

theorem pages_donated (executed : Runs.run (step params) (reset params) history = some cache)
    {extraKey : Option String} {units : List KeyUnit} {page : List Slot} (present : cache.pages params extraKey units = some page) :
    Donated params history extraKey units page := by
  induction history using List.reverseRecOn generalizing cache page units extraKey with
  | nil =>
    cases executed
    rw [RadixCache.pages,contents,PrefixMap.ofReading_eq_some] at present
    exact absurd (length_eq_zero_iff.mp present.2.1.symm) present.1.1
  | append_singleton history action ih =>
    obtain ⟨before,ran,last⟩ := Runs.run_append.mp executed
    obtain ⟨next,stepped,same⟩ := Runs.run_cons.mp last
    cases same
    have earlier {page : List Slot} (present : before.pages params extraKey units = some page) :
        Donated params (history ++ [action]) extraKey units page :=
      (ih ran present).mono (subset_append_left ..)
    have changes := (step_refines (run_sound ran) stepped).1
    cases action with
    | insert given now =>
      rw [show cache.pages params = _ from changes,PrefixMap.insert] at present
      split at present
      · rename_i old had
        cases present
        exact earlier had
      · split at present
        · rename_i added
          cases present
          exact ⟨given,now,by simp,added.1.symm,added.2.2,rfl⟩
        · cases present
    | evict numTokens leaves => exact earlier (PrefixMap.TrimsAll.present changes present)
    | matchPrefix key now => exact earlier (by rwa [show cache.pages params = _ from changes] at present)
    | incLockRef node => exact earlier (by rwa [show cache.pages params = _ from changes] at present)
    | decLockRef node => exact earlier (by rwa [show cache.pages params = _ from changes] at present)

theorem match_donated (executed : Runs.run (step params) (reset params) history = some cache) {now : Int}
    {slot : Slot} (returned : slot ∈ (cache.matchPrefix params key now).1.deviceIndices) :
    ∃ given now, Action.insert given now ∈ history ∧ given.key.extraKey = key.extraKey ∧ slot ∈ insertedValue params given := by
  rw [(matchPrefix_spec (run_sound executed) key now).1] at returned
  obtain ⟨count,page,present,member⟩ := PrefixMap.mem_along returned
  obtain ⟨given,now,inserted,owner,-,rfl⟩ := pages_donated executed present
  exact ⟨given,now,inserted,owner,mem_of_mem_take (mem_of_mem_drop member)⟩

/-- After every run of calls the cache holds a prefix-closed map that each further call uses and changes as specified, and whose
    pages all came from insertions under their own `extra_key`. -/
theorem refines_prefixMap (params : CacheInitParams) (history : List Action) (cache : RadixCache)
    (executed : Runs.run (step params) (reset params) history = some cache) :
    let pages := cache.pages params
    pages.Closed params.pageSize ∧
      (∀ given now, (cache.insert params given now).1 =
          (pages.along params.pageSize given.key.extraKey (lookupKey params given.key).units).length ∧
        (cache.insert params given now).2.pages params =
          pages.insert params.pageSize given.key.extraKey (lookupKey params given.key).units (insertedValue params given)) ∧
      (∀ key now, (cache.matchPrefix params key now).1.deviceIndices =
          pages.along params.pageSize key.extraKey (lookupKey params key).units ∧
        (cache.matchPrefix params key now).2.pages params = pages) ∧
      (∀ numTokens leaves, leaves.Perm cache.evictableLeaves → ∃ final, cache.evict params numTokens leaves = some final ∧
        pages.TrimsAll (final.cache.pages params)) ∧
      (∀ node delta after, cache.incLockRef node = some (delta,after) ∨ cache.decLockRef node = some (delta,after) →
        after.pages params = pages) ∧
      (∀ extraKey units page, pages extraKey units = some page → Donated params history extraKey units page) ∧
      ((∀ left right now now', Action.insert left now ∈ history → Action.insert right now' ∈ history →
          left.key.extraKey ≠ right.key.extraKey → (insertedValue params left).Disjoint (insertedValue params right)) →
        ∀ left right now now', left.extraKey ≠ right.extraKey → (cache.matchPrefix params left now).1.deviceIndices.Disjoint
          (cache.matchPrefix params right now').1.deviceIndices) := by
  have sound := run_sound executed
  refine ⟨sound.tidy.closed params.pagePositive,fun given now => ?_,fun key now => ?_,fun numTokens leaves listing => ?_,?_,?_,?_⟩
  · obtain ⟨length,pages,-⟩ := insert_spec sound given now
    exact ⟨length,pages⟩
  · obtain ⟨slots,pages,-⟩ := matchPrefix_spec sound key now
    exact ⟨slots,pages⟩
  · obtain ⟨final,evicts,-,trims⟩ := evict_spec sound numTokens listing
    exact ⟨final,evicts,trims⟩
  · rintro node delta after (locks | unlocks)
    · exact (incLockRef_spec sound locks).1
    · exact (decLockRef_spec sound unlocks).1
  · intro extraKey units page present
    exact pages_donated executed present
  · intro apart left right now now' differ slot inLeft inRight
    obtain ⟨given,at',inserted,owner,member⟩ := match_donated executed inLeft
    obtain ⟨given',at'',inserted',owner',member'⟩ := match_donated executed inRight
    exact apart given given' at' at'' inserted inserted' (by rw [owner,owner']; exact differ) member member'

/-- Pages of two, plain keys. -/
def pairPages : CacheInitParams := ⟨2,by decide,false,false,.lru,fun _ => []⟩

def given (tokenIds : List Nat) (extraKey : Option String) (slots : List Slot) (paired : tokenIds.length ≤ slots.length) : InsertParams :=
  { key := ⟨tokenIds,extraKey,false,none⟩, value := some slots, priority := 0, chunked := false
    paired := by
      rintro _ ⟨⟩
      exact paired }

/-- Two keys part after their first page, a third has another `extra_key`, and one page is evicted while another is locked. -/
def branching : List Action :=
  [.insert (given [1,2,3,4] none [10,11,12,13] (by decide)) 1,.insert (given [1,2,5,6] none [20,21,22,23] (by decide)) 2,
    .insert (given [1,2] (some "lora") [30,31] (by decide)) 3,.matchPrefix ⟨[1,2,3,4,9],none,false,none⟩ 4,.incLockRef (some 1),
    .evict 1 [4,3],.decLockRef (some 1)]

theorem refines_prefixMap_branching : ∃ cache, Runs.run (step pairPages) (reset pairPages) branching = some cache ∧
    (cache.pages pairPages).Closed 2 := by
  obtain ⟨cache,executed⟩ : ∃ cache, Runs.run (step pairPages) (reset pairPages) branching = some cache :=
    Option.isSome_iff_exists.mp (by decide +kernel)
  exact ⟨cache,executed,(refines_prefixMap pairPages branching cache executed).1⟩

end Hypic.Radix
