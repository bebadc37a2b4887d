import Hypic.RadixRefine
import Hypic.RadixWays

/-! The sizes, the leaves and the lock counts of a radix cache whose locks are balanced. -/

namespace Hypic.Radix
open Policy Forest RadixTree RadixCache List Option
variable {params : CacheInitParams} {cache : RadixCache} {held : List Nat}
variable {after : RadixCache} {heap : Heap}

def unlockedLength (node : TreeNode) : Int := if node.data.lockRef = 0 then node.key.length else 0
def lockedLength (node : TreeNode) : Int := if node.data.lockRef = 0 then 0 else node.key.length

/-- Exact sizes and leaves, and lock counts that are the holds on and below a node. -/
structure Balanced (params : CacheInitParams) (cache : RadixCache) (held : List Nat) : Prop where
  sound : Sound params cache
  holds : Held TreeData.lockRef held cache.forest
  present : ∀ id ∈ held, id ∈ labels Node.id cache.forest
  evictable : cache.evictableSize = total unlockedLength cache.forest
  locked : cache.protectedSize = total lockedLength cache.forest
  leaves : ∀ id, id ∈ cache.evictableLeaves ↔ Evictable cache.forest id

theorem Balanced.fresh (balanced : Balanced params cache held) : ∀ id ∈ held, id < cache.counter :=
  fun id member => balanced.sound.bounded id (balanced.present id member)

theorem evictable_iff (holds : Held TreeData.lockRef held cache.forest) (id : Nat) :
    Evictable cache.forest id ↔ Childless (fun data => data.lockRef = 0) cache.forest id := by
  constructor
  · rintro ⟨node,inside,named,unlocked⟩
    have nonneg : 0 ≤ node.data.lockRef := holds.nonneg inside
    exact ⟨node,inside,named,by omega⟩
  · rintro ⟨node,inside,named,unlocked⟩
    exact ⟨node,inside,named,by omega⟩

/-! ### Walks -/

theorem match_locking (params : CacheInitParams) (now : Int) : Locking (matchVisit params now) TreeData.lockRef :=
  ⟨fun _ => rfl,fun _ => rfl,fun _ _ => rfl,fun _ _ => rfl,nofun⟩
theorem insert_locking (params : CacheInitParams) (now priority : Int) (chunked : Bool) :
    Locking (insertVisit params now priority chunked) TreeData.lockRef := by
  refine ⟨fun _ => rfl,fun _ => rfl,fun _ _ => rfl,fun _ _ => rfl,?_⟩
  rintro data ⟨⟩ parent key
  rfl

section Walking
variable {visit : Visit TreeData} (locking : Locking visit TreeData.lockRef)
include locking

theorem met_lockRef (node : TreeNode) : (node.met visit).data.lockRef = node.data.lockRef := by
  rw [Node.met,Node.passed,locking.pass,Node.touched,locking.touch]

theorem unmoved_unlocked : Unmoved visit (fun data => ¬ 0 < data.lockRef) :=
  ⟨fun data => by rw [locking.pass,locking.touch],fun splitLen data => by rw [locking.lower,locking.touch]⟩

theorem additive_lengths (counter : Nat) (counts : Int → Prop) [DecidablePred counts] :
    Additive pageSize visit counter (fun node => if counts node.data.lockRef then (node.key.length : Int) else 0) where
  met node := by simp only [met_lockRef locking,met_key]
  halves node splitLen := by
    have upper : (halves pageSize visit counter node splitLen).1.data.lockRef = node.data.lockRef := by
      rw [halves,Node.passed,locking.pass,splitNode,locking.upper,Node.touched,locking.touch]
    have lower : (halves pageSize visit counter node splitLen).2.data.lockRef = node.data.lockRef := by
      rw [halves,splitNode,locking.lower,Node.touched,locking.touch]
    have lengths : (halves pageSize visit counter node splitLen).1.key.length + (halves pageSize visit counter node splitLen).2.key.length = node.key.length := by
      show (node.key.slice 0 splitLen).length + (node.key.slice splitLen node.key.length).length = _
      rw [RadixKey.slice_length,RadixKey.slice_length]
      omega
    rw [upper,lower]
    split <;> omega

theorem additive_unlocked (counter : Nat) : Additive pageSize visit counter unlockedLength := additive_lengths locking counter (· = 0)
theorem additive_locked (counter : Nat) : Additive pageSize visit counter lockedLength := by
  have same : lockedLength = fun node : TreeNode => if node.data.lockRef ≠ 0 then (node.key.length : Int) else 0 := by
    funext node
    unfold lockedLength
    split <;> simp_all
  rw [same]
  exact additive_lengths locking counter (· ≠ 0)

theorem Balanced.walk (balanced : Balanced params cache held) {key : RadixKey} {value : List Slot} {walked : Walked TreeData}
    (walks : Walks params.pageSize visit cache.counter none cache.forest key value walked) (sound : Sound params after)
    (isForest : after.forest = walked.forest)
    (size : after.evictableSize = cache.evictableSize + (walked.leaf.toList.map (fun leaf => (leaf.key.length : Int))).sum)
    (same : after.protectedSize = cache.protectedSize)
    (settled : ∀ id, id ∈ after.evictableLeaves ↔ if ∃ leaf ∈ walked.leaf, leaf.id = id ∨ walked.lastId = some id
      then Evictable after.forest id else id ∈ cache.evictableLeaves) :
    Balanced params after held := by
  have unlocked : ∀ leaf ∈ walked.leaf, leaf.data.lockRef = 0 := by
    intro leaf grown
    obtain ⟨-,-,-,-,data,grows,isData⟩ := walks.leaf_spec grown
    rw [isData]
    exact locking.grow data grows _ _
  refine ⟨sound,?_,?_,?_,?_,fun id => ?_⟩
  · rw [isForest]
    exact walks.keepsHeld locking balanced.fresh balanced.holds
  · intro id member
    rw [isForest]
    exact (walks.mem_labels (balanced.fresh id member)).mpr (balanced.present id member)
  · rw [isForest,walks.total_eq (additive_unlocked locking cache.counter),size,balanced.evictable]
    congr 1
    cases grown : walked.leaf with
    | none => rfl
    | some leaf => simp [unlockedLength,unlocked leaf grown]
  · rw [isForest,walks.total_eq (additive_locked locking cache.counter),same,balanced.locked]
    cases grown : walked.leaf with
    | none => simp
    | some leaf => simp [lockedLength,unlocked leaf grown]
  · rw [settled]
    split
    · rfl
    · rename_i other
      rw [balanced.leaves,isForest,Evictable,Evictable,walks.childless balanced.sound.distinct balanced.sound.bounded (unmoved_unlocked locking)]
      constructor
      · intro childless
        refine .inl ⟨childless,fun grows last => other ?_⟩
        obtain ⟨leaf,grown⟩ := isSome_iff_exists.mp grows
        exact ⟨leaf,grown,.inr last⟩
      · rintro (⟨childless,-⟩ | ⟨leaf,grown,named,-⟩)
        · exact childless
        · exact absurd ⟨leaf,grown,.inl named⟩ other

end Walking

theorem Balanced.matchPrefix (balanced : Balanced params cache held) (key : RadixKey) (now : Int) :
    Balanced params (cache.matchPrefix params key now).2 held := by
  have sound := (matchPrefix_spec balanced.sound key now).2.2
  unfold RadixCache.matchPrefix at sound ⊢
  by_cases nothing : (lookupKey params key).length = 0
  · rw [if_pos nothing]
    exact balanced
  · rw [if_neg nothing] at sound ⊢
    have walks := balanced.sound.walks (lookupKey_fit nothing) (matchVisit params now) []
    have noLeaf := walks.leaf_isNone.mpr (.inl rfl)
    refine balanced.walk (match_locking params now) walks sound rfl ?_ rfl (fun id => ?_)
    · rw [noLeaf]; simp
    · rw [noLeaf,if_neg (by rintro ⟨leaf,grown,-⟩; cases grown)]

theorem Balanced.insert (balanced : Balanced params cache held) (given : InsertParams) (now : Int) :
    Balanced params (cache.insert params given now).2 held := by
  have sound := (insert_spec balanced.sound given now).2.2
  unfold RadixCache.insert at sound ⊢
  by_cases nothing : (lookupKey params given.key).length = 0
  · rw [insertHelper,if_pos nothing]
    exact balanced
  · have fit := lookupKey_fit nothing
    obtain ⟨isForest,-⟩ := insertHelper_forest params cache (insertedValue params given) given.priority now given.chunked nothing
    refine balanced.walk (insert_locking params now given.priority given.chunked) (balanced.sound.walks fit _ _) sound isForest ?_ ?_
      (fun id => ?_)
    · rw [insertHelper,if_neg nothing]
      dsimp only
      split
      · rename_i leaf grown; rw [grown]; simp
      · rename_i grown; rw [grown]; simp
    · rw [insertHelper,if_neg nothing]
      dsimp only
      split <;> rfl
    · rw [isForest]
      exact (mem_insert_leaves _ given.priority now given.chunked nothing balanced.sound fit id).2

/-! ### Locks -/

theorem shiftLocks_relock (ids : List Nat) (amount : Int) (forest : Forest TreeNode) :
    shiftLocks ids amount forest = forest.map (relock ids (fun data => { data with lockRef := data.lockRef + amount })) := rfl

theorem total_lockedLength (forest : Forest TreeNode) :
    total lockedLength forest = total (fun node => (node.key.length : Int)) forest - total unlockedLength forest := by
  rw [eq_sub_iff_add_eq,← total_add]
  refine total_congr (fun node _ => ?_)
  unfold lockedLength unlockedLength
  split <;> omega

theorem lengthsAt_eq (lockRef : Int) (way : List (TreeNode × Forest TreeNode)) :
    lengthsAt lockRef way = (way.map (fun step => if step.1.data.lockRef = lockRef then (step.1.key.length : Int) else 0)).sum := by
  induction way with
  | nil => rfl
  | cons step rest ih =>
    unfold lengthsAt at ih ⊢
    rw [map_cons,sum_cons,← ih,filter_cons]
    split <;> simp_all

/-- Moving the counts of a way keeps the balance when the size moved is what the way loses or gains in unlocked nodes. -/
theorem Balanced.moveLocks (balanced : Balanced params cache held) {amount moved : Int} {id : Nat} {way : List (TreeNode × Forest TreeNode)}
    (found : path Node.id id cache.forest = some way) {held' : List Nat}
    (counts : ∀ other, (held'.count other : Int) = held.count other + if other = id then amount else 0)
    (present : ∀ other ∈ held', other ∈ labels Node.id cache.forest)
    (shifted : moved = (way.map (fun step => unlockedLength
      { step.1 with data := { step.1.data with lockRef := step.1.data.lockRef + amount } } - unlockedLength step.1)).sum) (moves : moveLocks amount moved (some id) cache = some after) : Balanced params after held' := by
  have sound := (moveLocks_spec balanced.sound moves).2
  obtain ⟨way',found',rfl⟩ := map_eq_some_iff.mp moves
  obtain rfl : way = way' := Option.some.inj (found.symm.trans found')
  have distinct := balanced.sound.distinct
  have size := total_relock distinct found unlockedLength (fun data => { data with lockRef := data.lockRef + amount })
  have lengths : total (fun node => (node.key.length : Int)) (shiftLocks (way.map (·.1.id)) amount cache.forest) =
      total (fun node => (node.key.length : Int)) cache.forest := by
    rw [shiftLocks_relock,total_map]
    exact total_congr (fun node _ => by rw [Function.comp_apply,relock_key])
  rw [← shiftLocks_relock,← shifted] at size
  refine ⟨sound,?_,?_,?_,?_,fun other => ?_⟩
  · exact held_relock distinct found (fun data => { data with lockRef := data.lockRef + amount }) (fun _ => rfl) counts balanced.holds
  · intro other member
    rw [labels_shiftLocks]
    exact present other member
  · rw [size,balanced.evictable]
  · rw [total_lockedLength,lengths,size,balanced.locked,total_lockedLength]
    dsimp only
    omega
  · have distinct' : (labels Node.id (shiftLocks (way.map (·.1.id)) amount cache.forest)).Nodup := by
      rw [labels_shiftLocks]; exact distinct
    have inTree : ∀ step ∈ way, step.1.id ∈ labels Node.id (shiftLocks (way.map (·.1.id)) amount cache.forest) := by
      intro step member
      rw [labels_shiftLocks]
      exact mem_labels_iff.mpr ⟨step,path_subset found member,rfl⟩
    rw [(mem_foldr_updateLeafStatus distinct' balanced.sound.leavesDistinct inTree other).2]
    split
    · rfl
    · -- a node off the way keeps its count and its children
      rename_i off
      rw [balanced.leaves]
      have same (node : TreeNode) (named : node.id = other) : shiftLock (way.map (·.1.id)) amount node = node :=
        if_neg (fun member => off (by
          obtain ⟨step,inWay,isId⟩ := mem_map.mp member
          exact ⟨step,inWay,isId.trans named⟩))
      constructor
      · rintro ⟨node,inside,named,unlocked⟩
        refine ⟨node,?_,named,unlocked⟩
        rw [shiftLocks_eq,subtrees_map]
        exact mem_map.mpr ⟨_,inside,by rw [same node named]; rfl⟩
      · rintro ⟨node,inside,named,unlocked⟩
        rw [shiftLocks_eq,subtrees_map] at inside
        obtain ⟨⟨old,children⟩,oldInside,equal⟩ := mem_map.mp inside
        obtain ⟨isNode,bare⟩ := Prod.mk.inj equal
        dsimp only at isNode bare
        have oldNamed : old.id = other := by rw [← named,← isNode,shiftLock_id]
        rw [same old oldNamed] at isNode
        rw [map_eq_nil.mp bare,isNode] at oldInside
        exact ⟨node,oldInside,named,unlocked⟩

section
variable (balanced : Balanced params cache held) {id : Nat}
include balanced

theorem Balanced.incLockRef {delta : Int}
    (locks : cache.incLockRef (some id) = some (delta,after)) : Balanced params after (id::held) := by
  obtain ⟨moved,moves,same⟩ := map_eq_some_iff.mp locks
  cases same
  obtain ⟨way,found,-⟩ := map_eq_some_iff.mp moves
  refine balanced.moveLocks found ?_ ?_ ?_ moves
  · intro other
    rw [count_cons]
    by_cases here : other = id
    · simp [here]
    · simp [here,Ne.symm here]
  · intro other member
    rcases mem_cons.mp member with rfl | later
    · exact path_isSome.mp (by rw [found]; rfl)
    · exact balanced.present other later
  · rw [lockDelta,bind_some,found,elim_some,lengthsAt_eq,neg_eq_iff_add_eq_zero,← sum_map_add]
    refine sum_eq_zero (fun size member => ?_)
    obtain ⟨step,inWay,rfl⟩ := mem_map.mp member
    have nonneg : 0 ≤ step.1.data.lockRef := balanced.holds.nonneg (path_subset found inWay)
    unfold unlockedLength
    dsimp only
    split <;> split <;> omega

theorem Balanced.decLockRef (isHeld : id ∈ held) {delta : Int}
    (unlocks : cache.decLockRef (some id) = some (delta,after)) : Balanced params after (held.erase id) := by
  obtain ⟨moved,moves,same⟩ := map_eq_some_iff.mp unlocks
  cases same
  obtain ⟨way,found,-⟩ := map_eq_some_iff.mp moves
  have locked := balanced.holds.locked balanced.sound.distinct isHeld found
  refine balanced.moveLocks found ?_ ?_ ?_ moves
  · intro other
    have counted := count_pos_iff.mpr isHeld
    by_cases here : other = id
    · rw [here,count_erase_self,if_pos rfl]; omega
    · rw [count_erase_of_ne here,if_neg here,add_zero]
  · exact fun other member => balanced.present other (mem_of_mem_erase member)
  · rw [lockDelta,bind_some,found,elim_some,lengthsAt_eq]
    congr 1
    refine map_congr_left (fun step member => ?_)
    have := locked step member
    unfold unlockedLength
    dsimp only
    split <;> split <;> split <;> omega

theorem Balanced.decLockRef_isSome (isHeld : id ∈ held) :
    (cache.decLockRef (some id)).isSome = true := by
  obtain ⟨way,found⟩ := isSome_iff_exists.mp (path_isSome.mpr (balanced.present id isHeld))
  rw [RadixCache.decLockRef,RadixCache.moveLocks,found]
  rfl

/-! ### Eviction -/

end

variable {item : List Int × Nat}

theorem Evicted.balanced {state next : Evicting} {leaf : TreeNode}
    (evicted : Evicted params state item heap leaf next) (balanced : Balanced params state.cache held) (unlocked : leaf.data.lockRef = 0) :
    Balanced params next.cache held := by
  have distinct := balanced.sound.distinct
  have isLeaf : IsLeaf Node.id leaf.id state.cache.forest := ⟨leaf,evicted.inside,rfl⟩
  obtain ⟨holds,unheld⟩ := balanced.holds.erase distinct evicted.inside unlocked
  have sound := evicted.sound balanced.sound
  refine ⟨sound,by rw [evicted.forest]; exact holds,fun id member => ?_,?_,?_,fun id => ?_⟩
  · have listed : id ∈ (labels Node.id state.cache.forest : Multiset Nat) := balanced.present id member
    rw [labels_erase distinct isLeaf,Multiset.mem_cons] at listed
    rw [evicted.forest]
    exact listed.resolve_left (fun same => unheld (same ▸ member))
  · rw [evicted.evictableSize,balanced.evictable,evicted.forest,total_erase unlockedLength distinct evicted.inside,unlockedLength,
      if_pos unlocked]
    omega
  · rw [evicted.protectedSize,balanced.locked,evicted.forest,total_erase lockedLength distinct evicted.inside,lockedLength,if_pos unlocked,zero_add]
  · have nodup := balanced.sound.leavesDistinct
    have present : ∀ id ∈ (parent? Node.id leaf.id state.cache.forest).map (·.1.id), id ∈ labels Node.id next.cache.forest := by
      intro id isParent
      obtain ⟨step,above,rfl⟩ := map_eq_some_iff.mp isParent
      rw [evicted.forest]
      exact (parent_labels_erase distinct isLeaf above).1
    rw [evicted.evictableLeaves,mem_updateLeafStatus sound.distinct (nodup.erase leaf.id) present]
    split
    · rfl
    · rename_i notParent
      rw [nodup.mem_erase_iff,balanced.leaves,evicted.forest]
      constructor
      · rintro ⟨other,childless⟩
        exact childless_erase distinct isLeaf other childless
      · intro childless
        obtain ⟨other,before | ⟨step,above,named⟩⟩ := childless_of_erase distinct isLeaf childless
        · exact ⟨other,before⟩
        · exact absurd (by rw [above,map_some,named]) notParent

/-- The facts that carry the loop of `evict` on a balanced cache: the heap names the evictable leaves, and what was freed is
    what the nodes taken out so far held. -/
structure Shrinking (params : CacheInitParams) (start : RadixCache) (held : List Nat) (state : Evicting) : Prop where
  balanced : Balanced params state.cache held
  heaped : Heaped state.cache.forest state.evictionHeap
  exact : ∀ id, id ∈ state.evictionHeap.map Prod.snd ↔ Evictable state.cache.forest id
  counted : state.numEvicted + state.cache.evictableSize = start.evictableSize
  removed : ∃ removed : List TreeNode, state.freed = removed.map Node.value ∧ state.numEvicted = state.freed.flatten.length ∧
    (start.forest.nodes : Multiset TreeNode) = removed + (state.cache.forest.nodes : Multiset TreeNode) ∧
    ∀ node ∈ removed, node.data.lockRef = 0
  leads : ∀ extraKey units slots node, (∀ id ∈ node, id ∈ held) → Leads start.forest extraKey units slots node →
    Leads state.cache.forest extraKey units slots node

theorem Evicted.exact {state next : Evicting} {leaf : TreeNode}
    (evicted : Evicted params state item heap leaf next) (balanced : Balanced params state.cache held)
    (after : Balanced params next.cache held) (heaped : Heaped state.cache.forest (item::heap))
    (exact : ∀ id, id ∈ (item::heap).map Prod.snd ↔ Evictable state.cache.forest id) (id : Nat) :
    id ∈ next.evictionHeap.map Prod.snd ↔ Evictable next.cache.forest id := by
  have distinct := balanced.sound.distinct
  have isLeaf : IsLeaf Node.id leaf.id state.cache.forest := ⟨leaf,evicted.inside,rfl⟩
  have rest : id ∈ heap.map Prod.snd ↔ id ≠ leaf.id ∧ Evictable state.cache.forest id := by
    rw [← exact,map_cons,mem_cons,← evicted.named]
    constructor
    · intro listed
      refine ⟨fun same => ?_,.inr listed⟩
      rw [same,evicted.named] at listed
      exact (nodup_cons.mp heaped.distinct).1 listed
    · rintro ⟨other,same | listed⟩
      · exact absurd same other
      · exact listed
  have keeps (listed : id ∈ heap.map Prod.snd) : Evictable next.cache.forest id := by
    obtain ⟨other,childless⟩ := rest.mp listed
    rw [evicted.forest]
    exact childless_erase distinct isLeaf other childless
  constructor
  · intro listed
    rcases evicted.pushed with same | ⟨step,node,-,present,named,free,pushed⟩
    · rw [same] at listed
      exact keeps listed
    · rw [pushed,map_cons,mem_cons] at listed
      rcases listed with rfl | later
      · exact ⟨node,present,rfl,fun locked => absurd free locked.ne.symm⟩
      · exact keeps later
  · intro childless
    have again := childless
    rw [evicted.forest] at childless
    obtain ⟨other,before | ⟨step,above,named⟩⟩ := childless_of_erase distinct isLeaf childless
    · have listed := rest.mpr ⟨other,before⟩
      rcases evicted.pushed with same | ⟨step,node,-,-,-,-,pushed⟩
      · rw [same]; exact listed
      · rw [pushed]; exact mem_cons_of_mem _ listed
    · obtain ⟨node,present,isId,free⟩ := (evictable_iff after.holds id).mp again
      rw [evicted.kept step node above present (by rw [isId,named]) free,map_cons,mem_cons]
      exact .inl isId.symm

theorem Shrinking.round {start : RadixCache} {state : Evicting} (shrinking : Shrinking params start held state)
    (popped : heapPop state.evictionHeap = some (item,heap)) :
    ∃ next leaf, evictRound params state item heap = some next ∧ Evicted params state item heap leaf next ∧
      (labels Node.id state.cache.forest).Nodup ∧ Shrinking params start held next := by
  have balanced := shrinking.balanced
  have distinct := balanced.sound.distinct
  have order := heapPop_perm popped
  have heaped := shrinking.heaped.perm order
  have exact : ∀ id, id ∈ (item::heap).map Prod.snd ↔ Evictable state.cache.forest id :=
    fun id => (order.map Prod.snd).mem_iff.symm.trans (shrinking.exact id)
  obtain ⟨next,leaf,round,evicted⟩ := evictRound_spec params distinct heap (heaped.childless item mem_cons_self)
  have unlocked : leaf.data.lockRef = 0 := by
    obtain ⟨node,inside,named,free⟩ := (evictable_iff balanced.holds item.2).mp ((exact item.2).mp mem_cons_self)
    have same := subtrees_injective distinct inside evicted.inside (named.trans evicted.named.symm)
    cases same
    exact free
  have after := evicted.balanced balanced unlocked
  refine ⟨next,leaf,round,evicted,distinct,after,evicted.heaped distinct heaped,evicted.exact balanced after heaped exact,?_,?_,?_⟩
  · have sized := (balanced.sound.tidy.whole_of_mem evicted.inside).sized
    rw [evicted.numEvicted,evicted.evictableSize,← shrinking.counted]
    dsimp only at sized
    omega
  · obtain ⟨removed,freed,count,nodes,free⟩ := shrinking.removed
    refine ⟨removed ++ [leaf],?_,?_,?_,?_⟩
    · rw [evicted.freed,freed,map_append]; simp
    · rw [evicted.numEvicted,evicted.freed,count,flatten_append,length_append,flatten_singleton]
    · rw [nodes,nodes_erase distinct evicted.inside,evicted.forest,← Multiset.coe_add,← Multiset.singleton_add,add_assoc]
      rfl
    · intro node member
      rcases mem_append.mp member with before | last
      · exact free node before
      · rw [mem_singleton.mp last]; exact unlocked
  · intro extraKey units slots node isHeld leads
    rw [evicted.forest]
    have unheld := (balanced.holds.erase distinct evicted.inside unlocked).2
    exact (shrinking.leads extraKey units slots node isHeld leads).erase distinct ⟨leaf,evicted.inside,rfl⟩
      (fun same => unheld (isHeld leaf.id same))

theorem Balanced.exhausted (balanced : Balanced params cache held) (none : ∀ id, ¬ Evictable cache.forest id) : cache.evictableSize = 0 := by
  rw [balanced.evictable]
  refine total_eq_zero (fun node member => ?_)
  unfold unlockedLength
  rw [if_neg]
  intro unlocked
  obtain ⟨children,inside⟩ := mem_nodes_iff.mp member
  obtain ⟨id,childless⟩ := balanced.holds.exists_leaf inside unlocked
  exact none id ((evictable_iff balanced.holds id).mpr childless)

/-- `evict` frees what it is asked for, or all that is unlocked: exactly the slots of the nodes it removes. -/
theorem Balanced.evict (balanced : Balanced params cache held) (numTokens : Nat) {leaves : List Nat}
    (listing : leaves.Perm cache.evictableLeaves) :
    ∃ final removed, cache.evict params numTokens leaves = some final ∧ Balanced params final.cache held ∧
      final.freed = removed.map Node.value ∧
      (cache.forest.nodes : Multiset TreeNode) = (removed : List TreeNode) + (final.cache.forest.nodes : Multiset TreeNode) ∧
      (∀ node ∈ removed, node.data.lockRef = 0) ∧ min (numTokens : Int) cache.evictableSize ≤ final.freed.flatten.length ∧
      ∀ extraKey units slots node, (∀ id ∈ node, id ∈ held) → Leads cache.forest extraKey units slots node →
        Leads final.cache.forest extraKey units slots node := by
  have ids := firstHeap_ids params (fun id member => (balanced.sound.leaves id (listing.mem_iff.mp member)).mem_labels)
  have start : Shrinking params cache held
      ⟨cache,leaves.filterMap (fun id => (find? Node.id id cache.forest).map (fun found => heapItem params found.1)),0,[]⟩ := by
    refine ⟨balanced,heaped_start balanced.sound listing,fun id => ?_,by simp,⟨[],rfl,rfl,by simp,by simp⟩,fun _ _ _ _ _ leads => leads⟩
    rw [ids,listing.mem_iff,balanced.leaves]
  obtain ⟨final,loops,done,ends⟩ := evictLoop_keeps params numTokens cache.forest.nodes.length (Shrinking params cache held) start
    (fun _ _ _ shrinking popped => shrinking.round popped) le_rfl
  obtain ⟨removed,freed,count,nodes,free⟩ := done.removed
  refine ⟨final,removed,loops,done.balanced,freed,nodes,free,?_,done.leads⟩
  have counted := done.counted
  rw [count] at counted ends
  rcases ends with enough | empty
  · omega
  · have nothing := done.balanced.exhausted (fun id childless => by
      have listed := (done.exact id).mpr childless
      rw [empty] at listed
      cases listed)
    omega

/-! ### Whole runs -/

/-- A cache with the nodes that are locked and not yet unlocked. -/
structure Tracked where
  cache : RadixCache
  held : List Nat

/-- Locks are balanced: only a node that is held is unlocked. The root needs no record. -/
def Tracked.step (params : CacheInitParams) (state : Tracked) (action : Action) : Option Tracked :=
  match action with
  | .incLockRef (some id) => (Radix.step params state.cache action).map (fun cache => ⟨cache,id::state.held⟩)
  | .decLockRef (some id) =>
    if id ∈ state.held then (Radix.step params state.cache action).map (fun cache => ⟨cache,state.held.erase id⟩) else none
  | _ => (Radix.step params state.cache action).map (fun cache => ⟨cache,state.held⟩)

theorem Tracked.step_balanced {state next : Tracked} {action : Action} (balanced : Balanced params state.cache state.held)
    (stepped : state.step params action = some next) : Balanced params next.cache next.held := by
  cases action with
  | insert given now =>
    cases stepped
    exact balanced.insert given now
  | matchPrefix key now =>
    cases stepped
    exact balanced.matchPrefix key now
  | evict numTokens leaves =>
    obtain ⟨cache,taken,rfl⟩ := map_eq_some_iff.mp stepped
    rw [Radix.step] at taken
    split at taken
    · rename_i listing
      obtain ⟨final,-,evicts,kept,-⟩ := balanced.evict numTokens (isPerm_iff.mp listing)
      rw [evicts] at taken
      cases taken
      exact kept
    · cases taken
  | incLockRef node =>
    cases node with
    | none =>
      cases stepped
      exact balanced
    | some id =>
      obtain ⟨cache,taken,rfl⟩ := map_eq_some_iff.mp stepped
      obtain ⟨⟨delta,after⟩,locks,rfl⟩ := map_eq_some_iff.mp taken
      exact balanced.incLockRef locks
  | decLockRef node =>
    cases node with
    | none =>
      cases stepped
      exact balanced
    | some id =>
      rw [Tracked.step] at stepped
      split at stepped
      · rename_i isHeld
        obtain ⟨cache,taken,rfl⟩ := map_eq_some_iff.mp stepped
        obtain ⟨⟨delta,after⟩,unlocks,rfl⟩ := map_eq_some_iff.mp taken
        exact balanced.decLockRef isHeld unlocks
      · cases stepped

theorem reset_balanced (params : CacheInitParams) : Balanced params (reset params) [] where
  sound := reset_sound params
  holds _ member := by cases member
  present _ member := by cases member
  evictable := rfl
  locked := rfl
  leaves id := ⟨fun member => absurd member not_mem_nil,fun childless => absurd childless childless_nil⟩

/-- After every run with balanced locks the sizes, the set of leaves and the lock counts are exact; an eviction frees what it is asked
    for as far as it is unlocked, and no locked node; and every node still held can be unlocked. -/
theorem eviction_exact (params : CacheInitParams) (history : List Action) (state : Tracked)
    (executed : Runs.run (Tracked.step params) ⟨reset params,[]⟩ history = some state) :
    let cache := state.cache
    cache.evictableSize = total (fun node => if node.data.lockRef = 0 then (node.key.length : Int) else 0) cache.forest ∧
      cache.protectedSize = total (fun node => if node.data.lockRef = 0 then 0 else (node.key.length : Int)) cache.forest ∧
      cache.evictableLeaves.Nodup ∧
      (∀ id, id ∈ cache.evictableLeaves ↔
        ∃ node, (node,Forest.nil) ∈ cache.forest.subtrees ∧ node.id = id ∧ node.data.lockRef = 0) ∧
      (∀ step ∈ cache.forest.subtrees, 0 ≤ step.1.data.lockRef ∧
        (step.2.roots.map (fun child => child.data.lockRef)).sum ≤ step.1.data.lockRef) ∧
      (∀ id ∈ state.held, (cache.decLockRef (some id)).isSome = true) ∧
      ∀ numTokens leaves, leaves.Perm cache.evictableLeaves → ∃ final removed,
        cache.evict params numTokens leaves = some final ∧ final.freed = removed.map Node.value ∧
        (cache.forest.nodes : Multiset TreeNode) = (removed : List TreeNode) + (final.cache.forest.nodes : Multiset TreeNode) ∧
        (∀ node ∈ removed, node.data.lockRef = 0) ∧ min (numTokens : Int) cache.evictableSize ≤ final.freed.flatten.length := by
  have balanced : Balanced params state.cache state.held :=
    Runs.run_always (fun state : Tracked => Balanced params state.cache state.held)
      (fun _ _ _ balanced stepped => Tracked.step_balanced balanced stepped) (reset_balanced params) executed
  refine ⟨balanced.evictable,balanced.locked,balanced.sound.leavesDistinct,fun id => ?_,fun step inside => ?_,?_,?_⟩
  · rw [balanced.leaves,evictable_iff balanced.holds]
    rfl
  · exact ⟨balanced.holds.nonneg inside,balanced.holds.children inside⟩
  · intro id isHeld
    exact balanced.decLockRef_isSome isHeld
  · intro numTokens leaves listing
    obtain ⟨final,removed,evicts,-,freed,nodes,free,enough,-⟩ := balanced.evict numTokens listing
    exact ⟨final,removed,evicts,freed,nodes,free,enough⟩

theorem eviction_exact_branching : ∃ state, Runs.run (Tracked.step pairPages) ⟨reset pairPages,[]⟩ (branching.take 6) = some state ∧
    state.held = [1] ∧ state.cache.evictableSize = 2 ∧
    (∀ step ∈ state.cache.forest.subtrees, 0 ≤ step.1.data.lockRef) := by
  obtain ⟨state,executed,facts⟩ : ∃ state ∈ Runs.run (Tracked.step pairPages) ⟨reset pairPages,[]⟩ (branching.take 6),
      state.held = [1] ∧ state.cache.evictableSize = 2 := by decide +kernel
  exact ⟨state,executed,facts.1,facts.2,
    fun step inside => ((eviction_exact pairPages (branching.take 6) state executed).2.2.2.2.1 step inside).1⟩

end Hypic.Radix
