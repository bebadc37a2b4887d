import Hypic.HashTreeShape

/-! What the router's tree stands for while it applies the announcements of its workers: a node for every chain of blocks that some
    worker holds or that leads to one. Hashes are told apart on the chains that occur. -/

namespace Hypic.HashTree
open KvEvents List Option Function
universe u v
variable {ω : Type u} [DecidableEq ω] {π : Type v} [DecidableEq π]

section Announces
variable (code : List π → Int) (known : Set (List π))

/-- The hash an announcement names as the block before. -/
def parentHash : List π → Option Int
  | [] => none
  | page::rest => some (code (page::rest))

/-- The announcements of one worker, with the chains it holds after them. -/
inductive Announces : List KvEvent → Set (List π) → Prop
  | nothing : Announces [] ∅
  | cleared : Announces [.allBlocksCleared] ∅
  | stored {events : List KvEvent} {held : Set (List π)} {before : List π} {page : π} {tokenIds : List KeyUnit} {blockSize : Nat}
      (earlier : Announces events held) (present : before = [] ∨ before ∈ held) (occurs : before ++ [page] ∈ known) :
      Announces (events ++ [.blockStored [code (before ++ [page])] (parentHash code before) tokenIds blockSize])
        (insert (before ++ [page]) held)
  | removed {events : List KvEvent} {held : Set (List π)} {chain : List π} (earlier : Announces events held) (present : chain ∈ held) :
      Announces (events ++ [.blockRemoved [code chain]]) (held \ {chain})

variable {code known}

theorem Announces.empty {held : Set (List π)} (announces : Announces code known [] held) : held = ∅ := by
  generalize none : ([] : List KvEvent) = events at announces
  cases announces with
  | nothing => rfl
  | cleared => rfl
  | stored => simp at none
  | removed => simp at none

theorem Announces.last {events : List KvEvent} {event : KvEvent} {held : Set (List π)}
    (announces : Announces code known (events ++ [event]) held) :
    (event = .allBlocksCleared ∧ held = ∅ ∧ Announces code known events ∅) ∨
      (∃ earlier before page tokenIds blockSize, Announces code known events earlier ∧ (before = [] ∨ before ∈ earlier) ∧
        before ++ [page] ∈ known ∧ held = insert (before ++ [page]) earlier ∧
        event = .blockStored [code (before ++ [page])] (parentHash code before) tokenIds blockSize) ∨
      ∃ earlier chain, Announces code known events earlier ∧ chain ∈ earlier ∧ held = earlier \ {chain} ∧
        event = .blockRemoved [code chain] := by
  generalize whole : events ++ [event] = all at announces
  cases announces with
  | nothing => simp at whole
  | cleared =>
    cases events with
    | nil =>
      cases whole
      exact .inl ⟨rfl,rfl,.nothing⟩
    | cons first rest => simp at whole
  | stored earlier present occurs =>
    obtain ⟨rfl,same⟩ := append_inj' whole rfl
    cases same
    exact .inr (.inl ⟨_,_,_,_,_,earlier,present,occurs,rfl,rfl⟩)
  | removed earlier present =>
    obtain ⟨rfl,same⟩ := append_inj' whole rfl
    cases same
    exact .inr (.inr ⟨_,_,earlier,present,rfl,rfl⟩)

end Announces

/-! ### The tree and the chains it stands for -/

section Indexed
variable (code : List π → Int) (known : Set (List π)) (held : ω → Set (List π))

/-- A chain stands at a node, which carries its hash; the empty one at the root. -/
def At (tree : TreeState ω) (chain : List π) (id : NodeId) : Prop :=
  chain = [] ∧ id = rootId ∨ chain ≠ [] ∧ chain ∈ known ∧ id ≠ rootId ∧ ∃ node, tree.nodes.get? id = some node ∧ node.blockHash = code chain

/-- A tree that stands for chains: below the root every node carries the hash of one, hangs from the node of the chain before and has
    the workers that hold it. -/
structure Indexed (tree : TreeState ω) : Prop where
  formed : Formed tree
  named : ∀ id node, tree.nodes.get? id = some node → id ≠ rootId → ∃ chain, chain ≠ [] ∧ chain ∈ known ∧ node.blockHash = code chain ∧
    (∀ worker, worker ∈ node.workers ↔ chain ∈ held worker) ∧ ∀ parentId, node.parent = some parentId → At code known tree chain.dropLast parentId
  covered : ∀ worker, ∀ chain ∈ held worker, chain ≠ [] ∧ ∃ id, At code known tree chain id

variable {code known held} {tree : TreeState ω} {chain other before : List π} {page : π} {id : NodeId} {node : Node ω}

theorem indexed_new : Indexed code known (fun _ : ω => ∅) TreeState.new := by
  refine ⟨formed_new,fun id node found inner => ?_,nofun⟩
  rw [TreeState.new] at found
  dsimp only at found
  rw [Dict.get?_set,if_neg inner] at found
  cases found

section Known
variable (indexed : Indexed code known held tree) (apart : known.InjOn code)

theorem At.chain_eq (apart : known.InjOn code) (left : At code known tree chain id) (right : At code known tree other id) : chain = other := by
  rcases left with ⟨rfl,rfl⟩ | ⟨-,inLeft,inner,node,stored,hash⟩
  · rcases right with ⟨rfl,-⟩ | ⟨-,-,inner,-⟩
    · rfl
    · exact absurd rfl inner
  · rcases right with ⟨-,top⟩ | ⟨-,inRight,-,node',stored',hash'⟩
    · exact absurd top inner
    · cases stored.symm.trans stored'
      exact apart inLeft inRight (hash.symm.trans hash')

include indexed

theorem Indexed.at_stored (standing : At code known tree chain id) : ∃ node, tree.nodes.get? id = some node := by
  rcases standing with ⟨-,rfl⟩ | ⟨-,-,-,node,stored,-⟩
  · obtain ⟨node,stored,-⟩ := indexed.formed.root
    exact ⟨node,stored⟩
  · exact ⟨node,stored⟩

include apart

theorem Indexed.spec (nonempty : chain ≠ []) (standing : At code known tree chain id) (stored : tree.nodes.get? id = some node) :
    (∀ worker, worker ∈ node.workers ↔ chain ∈ held worker) ∧
      ∃ parentId parent, At code known tree chain.dropLast parentId ∧ node.parent = some parentId ∧
        tree.nodes.get? parentId = some parent ∧ parent.children.get? (code chain) = some id := by
  rcases standing with ⟨empty,-⟩ | ⟨-,occurs,inner,node',stored',hash⟩
  · exact absurd empty nonempty
  cases stored.symm.trans stored'
  obtain ⟨own,-,ownKnown,ownHash,workers,parents⟩ := indexed.named id node stored inner
  obtain rfl := apart ownKnown occurs (ownHash.symm.trans hash)
  obtain ⟨parentId,parent,isParent,-,above,lists⟩ := indexed.formed.up id node stored inner
  exact ⟨workers,parentId,parent,parents parentId isParent,isParent,above,hash ▸ lists⟩

theorem Indexed.at_unique {otherId : NodeId} (left : At code known tree chain id) (right : At code known tree chain otherId) : id = otherId := by
  induction length : chain.length generalizing chain id otherId with
  | zero =>
    have empty := length_eq_zero_iff.mp length
    rcases left with ⟨-,rfl⟩ | ⟨nonempty,-⟩
    · rcases right with ⟨-,rfl⟩ | ⟨nonempty,-⟩
      · rfl
      · exact absurd empty nonempty
    · exact absurd empty nonempty
  | succ count ih =>
    have nonempty : chain ≠ [] := by
      rintro rfl
      cases length
    obtain ⟨node,stored⟩ := indexed.at_stored left
    obtain ⟨node',stored'⟩ := indexed.at_stored right
    obtain ⟨-,parentId,parent,upper,-,above,lists⟩ := indexed.spec apart nonempty left stored
    obtain ⟨-,parentId',parent',upper',-,above',lists'⟩ := indexed.spec apart nonempty right stored'
    obtain rfl := ih upper upper' (by rw [length_dropLast,length]; rfl)
    cases above.symm.trans above'
    exact Option.some.inj (lists.symm.trans lists')

theorem Indexed.child_iff (standing : At code known tree chain id) (stored : tree.nodes.get? id = some node) (occurs : chain ++ [page] ∈ known)
    {child : NodeId} : node.children.get? (code (chain ++ [page])) = some child ↔ At code known tree (chain ++ [page]) child := by
  constructor
  · intro lists
    obtain ⟨below,isBelow,hash,isParent⟩ := indexed.formed.down id node _ child stored lists
    exact .inr ⟨by simp,occurs,(indexed.formed.parent_lt isBelow isParent).1,below,isBelow,hash⟩
  · intro lower
    obtain ⟨below,isBelow⟩ := indexed.at_stored lower
    obtain ⟨-,parentId,parent,upper,-,above,lists⟩ := indexed.spec apart (by simp) lower isBelow
    rw [dropLast_concat] at upper
    obtain rfl := indexed.at_unique apart upper standing
    cases above.symm.trans stored
    exact lists

theorem Indexed.byHash_eq (nonempty : chain ≠ []) (standing : At code known tree chain id) : tree.byHash.get? (code chain) = some [id] := by
  have formed := indexed.formed
  have listed (sought : NodeId) : sought ∈ (tree.byHash.get? (code chain)).getD [] ↔ sought = id := by
    rcases id_at : standing with ⟨empty,-⟩ | ⟨-,occurs,inner,node,stored,hash⟩
    · exact absurd empty nonempty
    rw [formed.byHash]
    constructor
    · rintro ⟨inner',node',stored',hash'⟩
      exact indexed.at_unique apart (.inr ⟨nonempty,occurs,inner',node',stored',hash'⟩) standing
    · rintro rfl
      exact ⟨inner,node,stored,hash⟩
  cases isIds : tree.byHash.get? (code chain) with
  | none => simpa [isIds] using listed id
  | some ids =>
    simp only [isIds,getD_some] at listed
    have single := (perm_ext_iff_of_nodup (formed.listed _ ids isIds).2 (nodup_singleton id)).mpr
      (fun sought => by rw [listed,mem_singleton])
    rw [perm_singleton.mp single]

theorem Indexed.leads (tended : Tended tree []) (nonempty : chain ≠ []) (standing : At code known tree chain id) :
    ∃ worker, ∃ longer ∈ held worker, chain <+: longer := by
  obtain ⟨node,stored⟩ := indexed.at_stored standing
  obtain ⟨leaf,below,⟨longer,lower,starts⟩,isLeaf,bare⟩ := indexed.formed.descend
    (fun sought => ∃ longer, At code known tree longer sought ∧ chain <+: longer) (by
      rintro upper node hash child ⟨longer,isUpper,starts⟩ stored lists
      obtain ⟨below,isBelow,sameHash,isParent⟩ := indexed.formed.down upper node hash child stored lists
      have inner := (indexed.formed.parent_lt isBelow isParent).1
      obtain ⟨own,some,occurs,ownHash,-,parents⟩ := indexed.named child below isBelow inner
      rw [← At.chain_eq apart (parents upper isParent) isUpper] at starts
      exact ⟨own,.inr ⟨some,occurs,inner,below,isBelow,ownHash⟩,starts.trans ( dropLast_prefix own)⟩)
    ⟨chain,standing,prefix_refl _⟩ stored
  have some : longer ≠ [] := fun empty => nonempty (prefix_nil.mp (empty ▸ starts))
  have inner : leaf ≠ rootId := by
    rcases lower with ⟨empty,-⟩ | ⟨-,-,inner,-⟩
    · exact absurd empty some
    · exact inner
  obtain ⟨worker,works⟩ := exists_mem_of_ne_nil below.workers (fun empty => by
    cases tended leaf below isLeaf inner (Node.prunable_iff.mpr ⟨empty,bare⟩))
  exact ⟨worker,longer,((indexed.spec apart some lower isLeaf).1 worker).mp works,starts⟩

/-! ### Workers come and go -/

omit apart in
theorem Indexed.carry {held' : ω → Set (List π)} {after : TreeState ω} (formed : Formed after)
    (back : ∀ sought node, after.nodes.get? sought = some node → sought ≠ rootId → ∃ old, tree.nodes.get? sought = some old ∧
      old.blockHash = node.blockHash ∧ old.parent = node.parent ∧
      ∀ chain, chain ≠ [] → At code known tree chain sought → ∀ worker, worker ∈ node.workers ↔ chain ∈ held' worker)
    (covered : ∀ worker, ∀ chain ∈ held' worker, chain ≠ [] ∧ ∃ id node, At code known tree chain id ∧ after.nodes.get? id = some node) :
    Indexed code known held' after := by
  have stands {chain : List π} {sought : NodeId} {node : Node ω} (standing : At code known tree chain sought)
      (stored : after.nodes.get? sought = some node) : At code known after chain sought := by
    rcases standing with top | ⟨nonempty,occurs,inner,old,isOld,hash⟩
    · exact .inl top
    · obtain ⟨old',isOld',same,-⟩ := back sought node stored inner
      cases isOld.symm.trans isOld'
      exact .inr ⟨nonempty,occurs,inner,node,stored,same.symm.trans hash⟩
  refine ⟨formed,fun sought node stored inner => ?_,fun worker chain inside => ?_⟩
  · obtain ⟨old,isOld,hash,parent,workers⟩ := back sought node stored inner
    obtain ⟨own,nonempty,occurs,ownHash,-,parents⟩ := indexed.named sought old isOld inner
    refine ⟨own,nonempty,occurs,hash.symm.trans ownHash,workers own nonempty (.inr ⟨nonempty,occurs,inner,old,isOld,ownHash⟩),?_⟩
    intro parentId isParent
    obtain ⟨upperId,upper,isUpper,-,above,-⟩ := formed.up sought node stored inner
    cases isUpper.symm.trans isParent
    exact stands (parents parentId (parent.trans isParent)) above
  · obtain ⟨nonempty,id,node,standing,stored⟩ := covered worker chain inside
    exact ⟨nonempty,id,stands standing stored⟩

theorem Indexed.setWorkers (nonempty : chain ≠ []) (standing : At code known tree chain id) (stored : tree.nodes.get? id = some node)
    {workers : List ω} (nodup : workers.Nodup) {held' : ω → Set (List π)} (own : ∀ worker, worker ∈ workers ↔ chain ∈ held' worker)
    (others : ∀ worker other, other ≠ chain → (other ∈ held' worker ↔ other ∈ held worker)) :
    Indexed code known held' { tree with nodes := tree.nodes.set id { node with workers } } := by
  have inner : id ≠ rootId := by
    rcases standing with ⟨empty,-⟩ | ⟨-,-,inner,-⟩
    · exact absurd empty nonempty
    · exact inner
  refine indexed.carry (indexed.formed.setWorkers inner stored nodup) (fun sought node' found _ => ?_) (fun worker other inside => ?_)
  · rw [Dict.get?_set] at found
    split at found
    · rename_i same
      subst same
      cases found
      exact ⟨node,stored,rfl,rfl,fun other _ isAt worker => by rw [At.chain_eq apart isAt standing]; exact own worker⟩
    · rename_i differs
      refine ⟨node',found,rfl,rfl,fun other some isAt worker => ?_⟩
      rw [others worker other (fun same => differs (indexed.at_unique apart isAt (same ▸ standing)))]
      exact (indexed.spec apart some isAt found).1 worker
  · by_cases same : other = chain
    · exact same ▸ ⟨nonempty,id,_,standing,Dict.get?_set_same ..⟩
    · obtain ⟨some,otherId,isAt⟩ := indexed.covered worker other ((others worker other same).mp inside)
      obtain ⟨node',stored'⟩ := indexed.at_stored isAt
      have differs : otherId ≠ id := by
        rintro rfl
        exact same (At.chain_eq apart isAt standing)
      exact ⟨some,otherId,node',isAt,(Dict.get?_set_other _ _ differs).trans stored'⟩

theorem Indexed.join (worker : ω) (nonempty : chain ≠ []) (standing : At code known tree chain id) (stored : tree.nodes.get? id = some node) :
    Indexed code known (Function.update held worker (insert chain (held worker)))
      { tree with nodes := tree.nodes.set id { node with workers := node.workers.insert worker } } := by
  have workers := (indexed.spec apart nonempty standing stored).1
  refine indexed.setWorkers apart nonempty standing stored (indexed.formed.nodup id node stored).insert (fun other => ?_)
    (fun other sought differs => ?_)
  · rw [mem_insert_iff,workers]
    by_cases same : other = worker
    · simp [same]
    · simp [same]
  · by_cases same : other = worker
    · simp [same,differs]
    · simp [same]

theorem Indexed.leave (worker : ω) (nonempty : chain ≠ []) (standing : At code known tree chain id) (stored : tree.nodes.get? id = some node) :
    Indexed code known (Function.update held worker (held worker \ {chain}))
      { tree with nodes := tree.nodes.set id { node with workers := node.workers.erase worker } } := by
  have workers := (indexed.spec apart nonempty standing stored).1
  have nodup := indexed.formed.nodup id node stored
  refine indexed.setWorkers apart nonempty standing stored (nodup.erase worker) (fun other => ?_) (fun other sought differs => ?_)
  · rw [nodup.mem_erase_iff,workers]
    by_cases same : other = worker
    · simp [same]
    · simp [same]
  · by_cases same : other = worker
    · simp [same,differs]
    · simp [same]

theorem Indexed.createChild (standing : At code known tree before id) (stored : tree.nodes.get? id = some node)
    (absent : node.children.get? (code (before ++ [page])) = none) (occurs : before ++ [page] ∈ known) (parentBlockHash : Option Int) :
    ∃ after child, tree.createChild id (code (before ++ [page])) parentBlockHash = (some tree.nextId,after) ∧
      after.nodes.get? tree.nextId = some child ∧ At code known after (before ++ [page]) tree.nextId ∧ Indexed code known held after := by
  have formed := indexed.formed
  obtain ⟨after,created,formed',nodes⟩ := formed.createChild stored absent parentBlockHash
  have isNew : after.nodes.get? tree.nextId = some (.newChild (code (before ++ [page])) parentBlockHash id) := by
    rw [nodes,if_neg (formed.fresh id node stored).ne',if_pos rfl]
  have inner : tree.nextId ≠ rootId := by
    obtain ⟨root,isRoot,-⟩ := formed.root
    exact (formed.fresh rootId root isRoot).ne'
  have unheld (worker : ω) : before ++ [page] ∉ held worker := by
    intro inside
    obtain ⟨-,child,lower⟩ := indexed.covered worker _ inside
    have lists := (indexed.child_iff apart standing stored occurs).mpr lower
    rw [absent] at lists
    cases lists
  have stays {sought : NodeId} {old : Node ω} (isOld : tree.nodes.get? sought = some old) :
      ∃ new, after.nodes.get? sought = some new ∧ new.blockHash = old.blockHash := by
    have fresh := formed.fresh sought old isOld
    grind
  have stands {chain : List π} {sought : NodeId} (isAt : At code known tree chain sought) : At code known after chain sought := by
    rcases isAt with top | ⟨nonempty,occurs,inner,old,isOld,hash⟩
    · exact .inl top
    · obtain ⟨new,isNew,same⟩ := stays isOld
      exact .inr ⟨nonempty,occurs,inner,new,isNew,same.trans hash⟩
  have here : At code known after (before ++ [page]) tree.nextId := .inr ⟨by simp,occurs,inner,_,isNew,rfl⟩
  refine ⟨after,_,created,isNew,here,formed',fun sought new found inner' => ?_,fun worker chain inside => ?_⟩
  · by_cases fresh : sought = tree.nextId
    · subst fresh
      cases isNew.symm.trans found
      refine ⟨before ++ [page],by simp,occurs,rfl,fun worker => ⟨nofun,fun inside => absurd inside (unheld worker)⟩,?_⟩
      rintro parentId ⟨⟩
      rw [dropLast_concat]
      exact stands standing
    · obtain ⟨old,isOld,hash,parent,workers⟩ : ∃ old, tree.nodes.get? sought = some old ∧ new.blockHash = old.blockHash ∧
          new.parent = old.parent ∧ new.workers = old.workers := by
        rw [nodes,if_neg fresh] at found
        grind
      obtain ⟨chain,nonempty,known,ownHash,own,parents⟩ := indexed.named sought old isOld inner'
      exact ⟨chain,nonempty,known,hash.trans ownHash,by rw [workers]; exact own,fun parentId isParent =>
        stands (parents parentId (parent.symm.trans isParent))⟩
  · obtain ⟨nonempty,sought,isAt⟩ := indexed.covered worker chain inside
    exact ⟨nonempty,sought,stands isAt⟩

theorem Indexed.insert (worker : ω) (present : before = [] ∨ before ∈ held worker) (occurs : before ++ [page] ∈ known) :
    Indexed code known (Function.update held worker (insert (before ++ [page]) (held worker)))
      (tree.insert worker (parentHash code before) [code (before ++ [page])]) := by
  obtain ⟨id,standing,resolved⟩ : ∃ id, At code known tree before id ∧ tree.resolveParent worker (parentHash code before) = id := by
    cases before with
    | nil => exact ⟨rootId,.inl ⟨rfl,rfl⟩,rfl⟩
    | cons first rest =>
      obtain ⟨nonempty,id,standing⟩ := indexed.covered worker _ (present.resolve_left nofun)
      refine ⟨id,standing,?_⟩
      rw [TreeState.resolveParent,parentHash,bind_some,indexed.byHash_eq apart nonempty standing]
  obtain ⟨node,stored⟩ := indexed.at_stored standing
  rw [TreeState.insert,resolved,TreeState.insertLoop,stored,bind_some]
  cases isChild : node.children.get? (code (before ++ [page])) with
  | some child =>
    have lower := (indexed.child_iff apart standing stored occurs).mp isChild
    obtain ⟨below,isBelow⟩ := indexed.at_stored lower
    dsimp only [bind_some]
    rw [isBelow]
    exact indexed.join apart worker (by simp) lower isBelow
  | none =>
    obtain ⟨after,child,created,isNew,lower,indexed'⟩ := indexed.createChild apart standing stored isChild occurs (parentHash code before)
    dsimp only
    rw [created]
    dsimp only [bind_some]
    rw [isNew]
    exact indexed'.join apart worker (by simp) lower isNew

theorem Indexed.thins {after : TreeState ω} (formed : Formed after) (thins : Thins tree after) : Indexed code known held after := by
  refine indexed.carry formed (fun sought node found _ => ?_) (fun worker chain inside => ?_)
  · obtain ⟨old,isOld,hash,parent,workers⟩ := thins.back sought node found
    exact ⟨old,isOld,hash,parent,fun chain nonempty isAt => workers ▸ (indexed.spec apart nonempty isAt isOld).1⟩
  · obtain ⟨nonempty,id,isAt⟩ := indexed.covered worker chain inside
    obtain ⟨old,isOld⟩ := indexed.at_stored isAt
    obtain ⟨node,stored⟩ := thins.kept id old isOld (ne_nil_of_mem (((indexed.spec apart nonempty isAt isOld).1 worker).mpr inside))
    exact ⟨nonempty,id,node,isAt,stored⟩

theorem Indexed.remove (worker : ω) (present : chain ∈ held worker) :
    Indexed code known (Function.update held worker (held worker \ {chain})) (tree.remove worker [code chain]) := by
  obtain ⟨nonempty,id,standing⟩ := indexed.covered worker chain present
  obtain ⟨node,stored⟩ := indexed.at_stored standing
  have left := indexed.leave apart worker nonempty standing stored
  rw [TreeState.remove,flatMap_singleton,indexed.byHash_eq apart nonempty standing,getD_some,foldl_cons,foldl_nil,
    TreeState.dropWorker,stored]
  dsimp only
  split
  · have pruned := left.formed.pruneLoop id le_rfl
    exact left.thins apart pruned.formed pruned.toThins
  · exact left

end Known

theorem Indexed.clearWorker (indexed : Indexed code known held tree) {worker : ω} (empty : held worker = ∅) : tree.clearWorker worker = tree := by
  have unchanged (ids : List NodeId) (inner : ∀ id ∈ ids, id ≠ rootId) :
      ids.foldl (TreeState.clearNode worker) (tree,[]) = (tree,[]) := by
    induction ids with
    | nil => rfl
    | cons id rest ih =>
      have same : TreeState.clearNode worker (tree,[]) id = (tree,[]) := by
        rw [TreeState.clearNode]
        cases stored : tree.nodes.get? id with
        | none => rfl
        | some node =>
          obtain ⟨chain,-,-,-,workers,-⟩ := indexed.named id node stored (inner id mem_cons_self)
          refine if_neg ?_
          rw [workers,empty]
          exact Set.notMem_empty chain
      rw [foldl_cons,same,ih (forall_mem_cons.mp inner).2]
  rw [TreeState.clearWorker,unchanged _ (fun id member => by simpa using (mem_filter.mp member).2)]
  rfl

end Indexed

/-! ### Whole streams -/

/-- The announcements of one worker among those of all. -/
def eventsOf (worker : ω) (merged : List (ω × KvEvent)) : List KvEvent :=
  (merged.filter (fun event => event.1 = worker)).map Prod.snd

theorem eventsOf_concat (worker : ω) (merged : List (ω × KvEvent)) (event : ω × KvEvent) :
    eventsOf worker (merged ++ [event]) = if event.1 = worker then eventsOf worker merged ++ [event.2] else eventsOf worker merged := by
  rw [eventsOf,filter_append,map_append]
  by_cases own : event.1 = worker
  · rw [if_pos own,filter_cons_of_pos (by simpa using own)]
    rfl
  · rw [if_neg own,filter_cons_of_neg (by simpa using own)]
    exact append_nil _

/-- However the announcements of the workers are interleaved, the tree stands for the chains they hold after them. -/
theorem applyAll_indexed {code : List π → Int} {known : Set (List π)} (apart : known.InjOn code) (merged : List (ω × KvEvent))
    (held : ω → Set (List π)) (announces : ∀ worker, Announces code known (eventsOf worker merged) (held worker)) :
    Indexed code known held (TreeState.applyAll merged) ∧ Tended (TreeState.applyAll merged) [] := by
  induction merged using List.reverseRecOn generalizing held with
  | nil =>
    have nothing : held = fun _ => ∅ := by
      funext worker
      exact (announces worker).empty
    rw [nothing]
    exact ⟨indexed_new,tended_new⟩
  | append_singleton merged event ih =>
    obtain ⟨worker,event⟩ := event
    have own := announces worker
    rw [eventsOf_concat,if_pos rfl] at own
    -- the chains held before the last announcement
    have before {earlier : Set (List π)} (own : Announces code known (eventsOf worker merged) earlier) :
        ∀ other, Announces code known (eventsOf other merged) (Function.update held worker earlier other) := by
      intro other
      by_cases same : other = worker
      · subst same
        rw [update_self]
        exact own
      · have theirs := announces other
        rw [eventsOf_concat,if_neg (fun equal => same equal.symm)] at theirs
        rwa [update_of_ne same]
    rw [TreeState.applyAll,foldl_append,foldl_cons,foldl_nil]
    rcases own.last with ⟨rfl,empty,earlier⟩ | ⟨chains,chain,page,tokenIds,blockSize,earlier,present,occurs,whole,rfl⟩ |
      ⟨chains,chain,earlier,present,rest,rfl⟩
    · obtain ⟨indexed,tended⟩ := ih _ (before earlier)
      rw [← empty,update_eq_self] at indexed
      have same := indexed.clearWorker empty
      rw [TreeState.applyAll] at same indexed tended
      rw [TreeState.apply,same]
      exact ⟨indexed,tended⟩
    · obtain ⟨indexed,tended⟩ := ih _ (before earlier)
      have stored := indexed.insert apart worker (by rwa [update_self]) occurs
      rw [update_self,← whole,update_idem,update_eq_self] at stored
      exact ⟨stored,(indexed.formed.insert tended worker _ _).2.1⟩
    · obtain ⟨indexed,tended⟩ := ih _ (before earlier)
      have removed := indexed.remove apart worker (show chain ∈ _ by rwa [update_self])
      rw [update_self,← rest,update_idem,update_eq_self] at removed
      exact ⟨removed,(indexed.formed.remove tended worker _).2.1⟩

/-! ### Matching -/

section Match
variable {code : List π → Int} {known : Set (List π)} {held : ω → Set (List π)} {tree : TreeState ω}

/-- The hashes along a chain after some start of it. -/
def hashesFrom (code : List π → Int) (chain : List π) : List π → List Int
  | [] => []
  | page::rest => code (chain ++ [page])::hashesFrom code (chain ++ [page]) rest

theorem Indexed.matchLoop (indexed : Indexed code known held tree) (apart : known.InjOn code) {chain : List π} (rest : List π) {id : NodeId}
    (standing : At code known tree chain id) (occurs : ∀ start, start ≠ [] → start <+: rest → chain ++ start ∈ known) (matched : Nat)
    (last : Option NodeId) :
    ∃ count ≤ rest.length, ∃ found, tree.matchLoop id (hashesFrom code chain rest) matched last = (matched + count,found) ∧
      (count = 0 → found = last) ∧ (0 < count → ∃ reached, found = some reached ∧ At code known tree (chain ++ rest.take count) reached) ∧
      (count < rest.length → ∀ beyond, ¬ At code known tree (chain ++ rest.take (count + 1)) beyond) := by
  induction rest generalizing chain id matched last with
  | nil => exact ⟨0,le_rfl,last,rfl,fun _ => rfl,nofun,nofun⟩
  | cons page rest ih =>
    obtain ⟨node,stored⟩ := indexed.at_stored standing
    have child (below : NodeId) := @Indexed.child_iff _ _ _ _ _ _ _ _ _ _ _ _ indexed apart standing stored (occurs [page] (by simp) ⟨rest,rfl⟩) below
    rw [hashesFrom,TreeState.matchLoop,stored,bind_some]
    cases isChild : node.children.get? (code (chain ++ [page])) with
    | none =>
      refine ⟨0,Nat.zero_le _,last,rfl,fun _ => rfl,nofun,fun _ beyond lower => ?_⟩
      rw [(child beyond).mpr (by simpa using lower)] at isChild
      cases isChild
    | some below =>
      have later (start : List π) (some : start ≠ []) (leads : start <+: rest) : (chain ++ [page]) ++ start ∈ known := by
        rw [append_assoc]
        exact occurs ([page] ++ start) (by simp) ((prefix_append_right_inj [page]).mpr leads)
      have lower := (child below).mp isChild
      obtain ⟨count,bound,found,result,none,some,beyond⟩ := ih lower later (matched + 1) (some below)
      have along (count : Nat) : chain ++ (page::rest).take (count + 1) = (chain ++ [page]) ++ rest.take count := by simp
      refine ⟨count + 1,Nat.succ_le_succ bound,found,by dsimp only; rw [result,Nat.add_assoc,Nat.add_comm 1],nofun,fun _ => ?_,fun less => ?_⟩
      · rw [along]
        rcases Nat.eq_zero_or_pos count with zero | positive
        · exact ⟨below,none zero,by simpa [zero] using lower⟩
        · exact some positive
      · rw [along]
        exact beyond (Nat.lt_of_succ_lt_succ less)

/-- `match_prefix` from the root finds the longest start of the chain that some worker holds, and the workers that hold it. -/
theorem Indexed.matchPrefix (indexed : Indexed code known held tree) (tended : Tended tree []) (apart : known.InjOn code)
    (closed : ∀ worker, ∀ chain ∈ held worker, ∀ start, start ≠ [] → start <+: chain → start ∈ held worker) (chain : List π)
    (occurs : ∀ start, start ≠ [] → start <+: chain → start ∈ known) :
    let result := tree.matchPrefix none (hashesFrom code [] chain)
    result.matchedBlocks ≤ chain.length ∧
      (∀ worker count, count ≤ chain.length → chain.take count ∈ held worker → count ≤ result.matchedBlocks) ∧
      (0 < result.matchedBlocks → (∃ worker, chain.take result.matchedBlocks ∈ held worker) ∧
        ∀ worker, worker ∈ result.workers ↔ chain.take result.matchedBlocks ∈ held worker) ∧
      (result.matchedBlocks = 0 → result.workers = []) := by
  obtain ⟨count,bound,found,result,none,some,beyond⟩ := indexed.matchLoop apart chain (.inl ⟨rfl,rfl⟩)
    (fun start some leads => by rw [nil_append]; exact occurs start some leads) 0 none
  rw [TreeState.matchPrefix]
  dsimp only [bind_none]
  rw [result]
  simp only [nil_append,Nat.zero_add] at *
  have nonempty {length : Nat} (positive : 0 < length) (inside : length ≤ chain.length) : chain.take length ≠ [] := by
    rw [← length_pos_iff_ne_nil,length_take]; omega
  refine ⟨bound,fun worker longer inside isHeld => ?_,fun positive => ?_,fun nothing => by rw [none nothing]; rfl⟩
  · by_contra more
    have shorter : chain.take (count + 1) <+: chain.take longer := by
      rw [prefix_take_iff]
      exact ⟨ take_prefix ..,by rw [length_take]; omega⟩
    obtain ⟨-,id,standing⟩ := indexed.covered worker _ (closed worker _ isHeld _ (nonempty (Nat.succ_pos _) (by omega)) shorter)
    exact beyond (by omega) id standing
  · obtain ⟨id,rfl,standing⟩ := some positive
    have some := nonempty positive bound
    obtain ⟨node,stored⟩ := indexed.at_stored standing
    obtain ⟨worker,longer,inside,leads⟩ := indexed.leads apart tended some standing
    refine ⟨⟨worker,closed worker longer inside _ some leads⟩,fun worker => ?_⟩
    rw [bind_some,stored]
    exact (indexed.spec apart some standing stored).1 worker

end Match
end Hypic.HashTree
