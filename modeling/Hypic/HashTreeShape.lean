import Hypic.HashTree

/-! The invariants that the router's tree documents: parents and children point at each other, the reverse index is exact, and
    only inner nodes are without workers. -/

namespace Hypic.HashTree
open List Option Dict
universe u
variable {ω : Type u} [DecidableEq ω] {tree : TreeState ω}

/-- The pointers of a tree and its reverse index. Ids grow downwards, since a node is created after its parent. -/
structure Formed (tree : TreeState ω) : Prop where
  root : ∃ node, tree.nodes.get? rootId = some node ∧ node.parent = none ∧ node.workers = []
  up : ∀ id node, tree.nodes.get? id = some node → id ≠ rootId → ∃ parentId parent, node.parent = some parentId ∧ parentId < id ∧
    tree.nodes.get? parentId = some parent ∧ parent.children.get? node.blockHash = some id
  down : ∀ id node hash child, tree.nodes.get? id = some node → node.children.get? hash = some child →
    ∃ below, tree.nodes.get? child = some below ∧ below.blockHash = hash ∧ below.parent = some id
  byHash : ∀ hash id, id ∈ (tree.byHash.get? hash).getD [] ↔ id ≠ rootId ∧ ∃ node, tree.nodes.get? id = some node ∧ node.blockHash = hash
  listed : ∀ hash ids, tree.byHash.get? hash = some ids → ids ≠ [] ∧ ids.Nodup
  fresh : ∀ id node, tree.nodes.get? id = some node → id < tree.nextId
  nodup : ∀ id node, tree.nodes.get? id = some node → node.workers.Nodup

/-- Apart from the loose nodes, every leaf has a worker. -/
def Tended (tree : TreeState ω) (loose : List NodeId) : Prop :=
  ∀ id node, tree.nodes.get? id = some node → id ≠ rootId → node.prunable = true → id ∈ loose

variable {node : Node ω}

theorem Node.prunable_iff : node.prunable = true ↔ node.workers = [] ∧ ∀ hash, node.children.get? hash = none := by
  rw [Node.prunable,Bool.and_eq_true,List.isEmpty_iff,List.isEmpty_iff]
  refine and_congr_right fun _ => ⟨fun empty hash => ?_,fun absent => by rw [eq_empty absent]; rfl⟩
  rw [get?_eq_none,Dict.keys,empty]
  exact not_mem_nil

theorem formed_new : Formed (TreeState.new : TreeState ω) := by
  have nodes (id : NodeId) : (TreeState.new : TreeState ω).nodes.get? id =
      if id = rootId then some ⟨rootHashSentinel,none,none,[],.empty⟩ else none := by
    rw [TreeState.new]
    simp only [get?_set,get?_empty]
  have byHash (hash : Int) : (TreeState.new : TreeState ω).byHash.get? hash = none := rfl
  refine ⟨?_,?_,?_,?_,?_,?_,?_⟩
  · exact ⟨_,nodes rootId,rfl,rfl⟩
  all_goals grind [get?_empty,TreeState.new,rootId]

theorem tended_new : Tended (TreeState.new : TreeState ω) [] := by
  intro id node found inner
  rw [TreeState.new] at found
  dsimp only at found
  rw [get?_set,if_neg inner] at found
  cases found

theorem Formed.parent_lt (formed : Formed tree) {id parentId : NodeId} (stored : tree.nodes.get? id = some node)
    (isParent : node.parent = some parentId) : id ≠ rootId ∧ parentId < id := by
  have inner : id ≠ rootId := by
    rintro rfl
    obtain ⟨root,isRoot,none,-⟩ := formed.root
    cases isRoot.symm.trans stored
    cases none.symm.trans isParent
  obtain ⟨upper,-,isUpper,less,-⟩ := formed.up id node stored inner
  cases isUpper.symm.trans isParent
  exact ⟨inner,less⟩

variable {id : NodeId}

theorem Formed.setWorkers (formed : Formed tree) (inner : id ≠ rootId) (stored : tree.nodes.get? id = some node)
    {workers : List ω} (nodup : workers.Nodup) : Formed { tree with nodes := tree.nodes.set id { node with workers } } := by
  obtain ⟨root,up,down,byHash,listed,fresh,nodup'⟩ := formed
  refine ⟨?_,?_,?_,?_,listed,?_,?_⟩
  all_goals simp only [get?_set]
  all_goals grind

theorem Formed.createChild (formed : Formed tree) {parentId : NodeId} {parent : Node ω} (stored : tree.nodes.get? parentId = some parent)
    {hash : Int} (absent : parent.children.get? hash = none) (parentBlockHash : Option Int) :
    ∃ after, tree.createChild parentId hash parentBlockHash = (some tree.nextId,after) ∧ Formed after ∧
      ∀ id, after.nodes.get? id = if id = parentId then some { parent with children := parent.children.set hash tree.nextId }
        else if id = tree.nextId then some (.newChild hash parentBlockHash parentId) else tree.nodes.get? id := by
  have below := formed.fresh parentId parent stored
  have still : (tree.nodes.set tree.nextId (.newChild hash parentBlockHash parentId)).get? parentId = some parent := by
    rw [get?_set_other _ _ below.ne]
    exact stored
  rw [TreeState.createChild,still]
  refine ⟨_,rfl,?_,fun id => by simp only [get?_set]⟩
  obtain ⟨root,up,down,byHash,listed,fresh,nodup⟩ := formed
  have others : ((tree.byHash.get? hash).getD []).Nodup := by
    cases ids : tree.byHash.get? hash with
    | none => exact nodup_nil
    | some ids' => exact (listed hash ids' ids).2
  refine ⟨?_,?_,?_,?_,?_,?_,?_⟩
  all_goals simp only [get?_set]
  all_goals grind [Node.newChild,get?_set,get?_empty,mem_insert_self,List.Nodup.insert]

theorem Formed.detach (formed : Formed tree) {id parentId : NodeId} {node parent : Node ω} (stored : tree.nodes.get? id = some node)
    (bare : ∀ hash, node.children.get? hash = none) (isParent : node.parent = some parentId) (above : tree.nodes.get? parentId = some parent)
    (inner : id ≠ rootId) :
    Formed (tree.detach id parentId node) ∧ ∀ sought, (tree.detach id parentId node).nodes.get? sought = if sought = id then none
      else if sought = parentId then some { parent with children := parent.children.erase node.blockHash } else tree.nodes.get? sought := by
  have nodes (sought : NodeId) : (tree.detach id parentId node).nodes.get? sought = if sought = id then none
      else if sought = parentId then some { parent with children := parent.children.erase node.blockHash } else tree.nodes.get? sought := by
    simp only [TreeState.detach,above,get?_erase,get?_set]
  refine ⟨?_,nodes⟩
  have rest (hash : Int) (sought : NodeId) : sought ∈ ((tree.detach id parentId node).byHash.get? hash).getD [] ↔
      sought ∈ (tree.byHash.get? hash).getD [] ∧ sought ≠ id := by
    have ids := formed.listed node.blockHash
    have own := formed.byHash
    simp only [TreeState.detach]
    grind [get?_erase,get?_set,List.Nodup.mem_erase_iff]
  have listed : ∀ hash ids, (tree.detach id parentId node).byHash.get? hash = some ids → ids ≠ [] ∧ ids.Nodup := by
    have ids := formed.listed
    simp only [TreeState.detach]
    grind [get?_erase,get?_set,List.Nodup.erase]
  obtain ⟨root,up,down,byHash,-,fresh,nodup⟩ := formed
  have own := up id node stored inner
  refine ⟨?_,?_,?_,?_,listed,?_,?_⟩
  all_goals simp only [nodes,rest]
  · grind
  · intro sought old found inner'
    obtain ⟨source,isSource,sameHash,sameParent⟩ : ∃ source, tree.nodes.get? sought = some source ∧ source.blockHash = old.blockHash ∧
        source.parent = old.parent := by grind
    obtain ⟨upperId,upper,isUpper,less,isStored,lists⟩ := up sought source isSource inner'
    have other : upperId ≠ id := by grind
    by_cases same : upperId = parentId
    · refine ⟨upperId,{ parent with children := parent.children.erase node.blockHash },?_⟩
      grind [get?_erase]
    · exact ⟨upperId,upper,by grind⟩
  · grind [get?_erase]
  · grind
  · show ∀ _ _, _ → _ < tree.nextId
    grind
  · grind

theorem set_length {d : Dict NodeId (Node ω)} (stored : d.get? id = some node) (value : Node ω) :
    (d.set id value).items.length = d.items.length := by
  have count (d : Dict NodeId (Node ω)) : d.items.length = d.total (fun _ => 1) := by simp [Dict.total]
  rw [count,count,total_set,total_of_get? _ stored]

theorem detach_length {id parentId : NodeId} {node parent : Node ω} (stored : tree.nodes.get? id = some node)
    (parentStored : tree.nodes.get? parentId = some parent) (differ : parentId ≠ id) :
    (tree.detach id parentId node).nodes.items.length + 1 = tree.nodes.items.length := by
  have count (d : Dict NodeId (Node ω)) : d.items.length = d.total (fun _ => 1) := by simp [Dict.total]
  have still : (tree.nodes.set parentId { parent with children := parent.children.erase node.blockHash }).get? id = some node := by
    rw [get?_set_other _ _ differ.symm]; exact stored
  have nodes : (tree.detach id parentId node).nodes =
      (tree.nodes.set parentId { parent with children := parent.children.erase node.blockHash }).erase id := by
    simp [TreeState.detach,parentStored]
  have removed := total_of_get? (fun _ => 1) still
  rw [nodes,← set_length parentStored,count,count,removed,Nat.add_comm]

theorem Formed.length_pos (formed : Formed tree) : 0 < tree.nodes.items.length := by
  obtain ⟨node,stored,-⟩ := formed.root
  exact length_pos_of_mem ((get?_eq_some ..).mp stored)

/-! ### Pruning -/

/-- Nodes without workers went; those that stay differ in their children at most. -/
structure Thins (before after : TreeState ω) : Prop where
  back : ∀ id node, after.nodes.get? id = some node → ∃ old, before.nodes.get? id = some old ∧ old.blockHash = node.blockHash ∧
    old.parent = node.parent ∧ old.workers = node.workers
  kept : ∀ id old, before.nodes.get? id = some old → old.workers ≠ [] → ∃ node, after.nodes.get? id = some node

theorem Thins.trans {before middle after : TreeState ω} (first : Thins before middle) (second : Thins middle after) : Thins before after := by
  obtain ⟨back,kept⟩ := first
  obtain ⟨back',kept'⟩ := second
  refine ⟨?_,?_⟩
  · intro id node found
    obtain ⟨middle,isMiddle,same⟩ := back' id node found
    grind
  · intro id old found works
    obtain ⟨middle,isMiddle⟩ := kept id old found works
    grind

/-- What `prune_cascade` from a node does. -/
structure Pruned (id : NodeId) (before after : TreeState ω) : Prop extends Thins before after where
  formed : Formed after
  tended : ∀ rest, Tended before (id::rest) → Tended after rest
  fewer : after.nodes.items.length ≤ before.nodes.items.length
  gone : ∀ node, before.nodes.get? id = some node → id ≠ rootId → node.prunable = true →
    after.nodes.items.length < before.nodes.items.length

theorem Formed.pruned (formed : Formed tree)
    (stays : ∀ node, tree.nodes.get? id = some node → id ≠ rootId → node.prunable = false) : Pruned id tree tree := by
  refine ⟨⟨fun id node found => ⟨node,found,rfl,rfl,rfl⟩,fun id old found _ => ⟨old,found⟩⟩,formed,?_,le_rfl,?_⟩
  · intro rest tended other node found inner prunable
    rcases mem_cons.mp (tended other node found inner prunable) with rfl | inside
    · rw [stays node found inner] at prunable
      cases prunable
    · exact inside
  · intro node found inner prunable
    rw [stays node found inner] at prunable
    cases prunable

theorem Formed.detached (formed : Formed tree) {id parentId : NodeId} {node parent : Node ω} (inner : id ≠ rootId)
    (stored : tree.nodes.get? id = some node) (gone : node.prunable = true) (isParent : node.parent = some parentId)
    (above : tree.nodes.get? parentId = some parent) :
    Formed (tree.detach id parentId node) ∧ Thins tree (tree.detach id parentId node) ∧
      ∀ rest, Tended tree (id::rest) → Tended (tree.detach id parentId node) (parentId::rest) := by
  obtain ⟨noWorkers,bare⟩ := Node.prunable_iff.mp gone
  obtain ⟨formed',nodes⟩ := formed.detach stored bare isParent above inner
  refine ⟨formed',⟨?_,?_⟩,?_⟩
  · grind
  · grind
  · intro rest tended other node' found inner' prunable
    rw [nodes] at found
    split at found
    · cases found
    · split at found
      · rename_i same
        exact same ▸ mem_cons_self ..
      · rcases mem_cons.mp (tended other node' found inner' prunable) with same | inside
        · contradiction
        · exact mem_cons_of_mem _ inside

theorem Formed.pruneLoop (formed : Formed tree) (id : NodeId) {fuel : Nat} (enough : tree.nodes.items.length ≤ fuel) :
    Pruned id tree (tree.pruneLoop fuel id) := by
  induction fuel generalizing tree id with
  | zero => exact absurd formed.length_pos enough.not_gt
  | succ fuel ih =>
    rw [TreeState.pruneLoop]
    by_cases top : id = rootId
    · rw [if_pos top]
      exact formed.pruned (fun _ _ inner => absurd top inner)
    rw [if_neg top]
    cases stored : tree.nodes.get? id with
    | none => exact formed.pruned (fun node found => by rw [stored] at found; cases found)
    | some node =>
      obtain ⟨parentId,parent,isParent,less,above,-⟩ := formed.up id node stored top
      dsimp only
      rw [isParent]
      dsimp only
      by_cases gone : node.prunable = true
      · rw [if_pos gone]
        obtain ⟨formed',thins,tended⟩ := formed.detached top stored gone isParent above
        have shrinks := detach_length stored above less.ne
        -- the cascade goes on from the parent, or the parent stays
        have rest : Pruned parentId (tree.detach id parentId node)
            (if parentId ≠ rootId ∧ ((tree.detach id parentId node).nodes.get? parentId).any Node.prunable then
              TreeState.pruneLoop fuel parentId (tree.detach id parentId node) else tree.detach id parentId node) := by
          split
          · exact ih formed' parentId (by omega)
          · rename_i ends
            refine formed'.pruned (fun upper found inner => ?_)
            rw [found,any_some,not_and] at ends
            simpa using ends inner
        have less := rest.fewer
        exact ⟨thins.trans rest.toThins,rest.formed,fun others loose => rest.tended others (tended others loose),by omega,fun _ _ _ _ => by omega⟩
      · rw [if_neg gone]
        exact formed.pruned (fun node' found _ => by rw [stored] at found; cases found; simpa using gone)

/-! ### Workers come and go -/

theorem Tended.setWorkers {rest : List NodeId} (tended : Tended tree rest) (id : NodeId) (node : Node ω) :
    Tended { tree with nodes := tree.nodes.set id node } (id::rest) := by
  intro other node' found inner prunable
  rw [get?_set] at found
  split at found
  · rename_i same
    exact same ▸ mem_cons_self ..
  · exact mem_cons_of_mem _ (tended other node' found inner prunable)

theorem Formed.join (formed : Formed tree) (tended : Tended tree [id]) (inner : id ≠ rootId)
    (stored : tree.nodes.get? id = some node) (worker : ω) :
    Formed { tree with nodes := tree.nodes.set id { node with workers := node.workers.insert worker } } ∧
      Tended { tree with nodes := tree.nodes.set id { node with workers := node.workers.insert worker } } [] := by
  refine ⟨formed.setWorkers inner stored (formed.nodup id node stored).insert,?_⟩
  intro other node' found inner' prunable
  rw [get?_set] at found
  split at found
  · cases found
    have empty : node.workers.insert worker = [] := (Node.prunable_iff.mp prunable).1
    have member : worker ∈ node.workers.insert worker := mem_insert_self
    rw [empty] at member
    cases member
  · rename_i other
    exact absurd (mem_singleton.mp (tended _ node' found inner' prunable)) other

/-- No node of the tree holds the worker. -/
def Gone (tree : TreeState ω) (worker : ω) : Prop := ∀ id node, tree.nodes.get? id = some node → worker ∉ node.workers

theorem Gone.setWorkers {worker : ω} (gone : Gone tree worker) {workers : List ω} (absent : worker ∉ workers) (id : NodeId) (node : Node ω) :
    Gone { tree with nodes := tree.nodes.set id { node with workers } } worker := by
  intro other node' found
  have := gone other
  grind [get?_set]

theorem Formed.insertLoop (formed : Formed tree) (tended : Tended tree []) (worker : ω) (hashes : List Int) (prevHash : Option Int)
    {current : NodeId} (stored : tree.nodes.get? current = some node) :
    Formed (tree.insertLoop worker current prevHash hashes) ∧ Tended (tree.insertLoop worker current prevHash hashes) [] ∧
      ∀ other ≠ worker, Gone tree other → Gone (tree.insertLoop worker current prevHash hashes) other := by
  induction hashes generalizing tree current prevHash node with
  | nil => exact ⟨formed,tended,fun _ _ gone => gone⟩
  | cons hash rest ih =>
    rw [TreeState.insertLoop,stored,bind_some]
    cases isChild : node.children.get? hash with
    | some child =>
      obtain ⟨below,isBelow,-,isParent⟩ := formed.down current node hash child stored isChild
      have inner := (formed.parent_lt isBelow isParent).1
      dsimp only [bind_some]
      rw [isBelow]
      obtain ⟨formed',tended'⟩ := formed.join (fun id node' found inner' gone => mem_cons_of_mem _ (tended id node' found inner' gone)) inner
        isBelow worker
      obtain ⟨formed',tended',spares⟩ := ih formed' tended' (some hash) (get?_set_same ..)
      refine ⟨formed',tended',fun other apart gone => spares other apart (gone.setWorkers ?_ child below)⟩
      simpa [apart] using gone child below isBelow
    | none =>
      obtain ⟨after,created,formed',nodes⟩ := formed.createChild stored isChild prevHash
      have inner : tree.nextId ≠ rootId := by
        obtain ⟨root,isRoot,-⟩ := formed.root
        exact (formed.fresh rootId root isRoot).ne'
      have isNew : after.nodes.get? tree.nextId = some (.newChild hash prevHash current) := by
        rw [nodes,if_neg (formed.fresh current node stored).ne',if_pos rfl]
      have loose : Tended after [tree.nextId] := by
        intro id node' found inner' gone
        rw [nodes] at found
        split at found
        · cases found
          have none := (Node.prunable_iff.mp gone).2 hash
          rw [get?_set_same] at none
          cases none
        · split at found
          · exact mem_singleton.mpr ‹_›
          · cases tended id node' found inner' gone
      dsimp only
      rw [created]
      dsimp only [bind_some]
      rw [isNew]
      obtain ⟨joined,tended'⟩ := formed'.join loose inner isNew worker
      obtain ⟨formed',tended',spares⟩ := ih joined tended' (some hash) (get?_set_same ..)
      refine ⟨formed',tended',fun other apart gone => spares other apart (Gone.setWorkers (fun id node' found => ?_) ?_ _ _)⟩
      · have := gone id
        have := gone current node stored
        grind [Node.newChild]
      · simpa [Node.newChild] using apart

theorem Formed.resolveParent (formed : Formed tree) (worker : ω) (parentHash : Option Int) :
    ∃ node, tree.nodes.get? (tree.resolveParent worker parentHash) = some node := by
  obtain ⟨root,isRoot,-⟩ := formed.root
  have listed {ids : List NodeId} (found : parentHash.bind tree.byHash.get? = some ids) {id : NodeId} (member : id ∈ ids) :
      ∃ node, tree.nodes.get? id = some node := by
    obtain ⟨hash,-,isIds⟩ := bind_eq_some_iff.mp found
    obtain ⟨-,node,stored,-⟩ := (formed.byHash hash id).mp (by rw [isIds]; exact member)
    exact ⟨node,stored⟩
  rw [TreeState.resolveParent]
  split
  · exact ⟨root,isRoot⟩
  · rename_i found
    exact listed found (mem_singleton_self _)
  · rename_i candidates _ found
    cases chosen : candidates.find? (fun candidate => (tree.nodes.get? candidate).any (fun node => worker ∈ node.workers)) with
    | none => exact ⟨root,isRoot⟩
    | some candidate => exact listed found (mem_of_find?_eq_some chosen)

theorem Formed.insert (formed : Formed tree) (tended : Tended tree []) (worker : ω) (parentHash : Option Int) (hashes : List Int) :
    Formed (tree.insert worker parentHash hashes) ∧ Tended (tree.insert worker parentHash hashes) [] ∧
      ∀ other ≠ worker, Gone tree other → Gone (tree.insert worker parentHash hashes) other := by
  obtain ⟨node,stored⟩ := formed.resolveParent worker parentHash
  exact formed.insertLoop tended worker hashes parentHash stored

theorem Formed.withdraw (formed : Formed tree) {id : NodeId} (inner : id ≠ rootId) {node : Node ω} (stored : tree.nodes.get? id = some node)
    {workers : List ω} (nodup : workers.Nodup) :
    Pruned id { tree with nodes := tree.nodes.set id { node with workers } }
      (TreeState.pruneCascade id { tree with nodes := tree.nodes.set id { node with workers } }) :=
  (formed.setWorkers inner stored nodup).pruneLoop id le_rfl

theorem Formed.dropWorker (formed : Formed tree) (tended : Tended tree []) (worker : ω) (inner : id ≠ rootId) :
    Formed (tree.dropWorker worker id) ∧ Tended (tree.dropWorker worker id) [] ∧
      ∀ other, Gone tree other → Gone (tree.dropWorker worker id) other := by
  rw [TreeState.dropWorker]
  cases stored : tree.nodes.get? id with
  | none => exact ⟨formed,tended,fun _ gone => gone⟩
  | some node =>
    have nodup := (formed.nodup id node stored).erase worker
    have loose := tended.setWorkers id { node with workers := node.workers.erase worker }
    have left (other : ω) (gone : Gone tree other) :=
      gone.setWorkers (fun inside : other ∈ node.workers.erase worker => gone id node stored (mem_of_mem_erase inside)) id node
    dsimp only
    split
    · have pruned := formed.withdraw inner stored nodup
      refine ⟨pruned.formed,pruned.tended [] loose,fun other gone id node found => ?_⟩
      obtain ⟨old,isOld,-,-,workers⟩ := pruned.back id node found
      exact workers ▸ left other gone id old isOld
    · rename_i keeps
      have formed' := formed.setWorkers inner stored nodup
      exact ⟨formed',(formed'.pruned (fun node' found _ => by
        rw [get?_set_same] at found; cases found; simpa using keeps)).tended [] loose,left⟩

theorem Formed.remove (formed : Formed tree) (tended : Tended tree []) (worker : ω) (hashes : List Int) :
    Formed (tree.remove worker hashes) ∧ Tended (tree.remove worker hashes) [] ∧
      ∀ other, Gone tree other → Gone (tree.remove worker hashes) other := by
  have inner : ∀ id ∈ hashes.flatMap (fun hash => (tree.byHash.get? hash).getD []), id ≠ rootId := by
    intro id member
    obtain ⟨hash,-,inside⟩ := mem_flatMap.mp member
    exact ((formed.byHash hash id).mp inside).1
  rw [TreeState.remove]
  revert inner
  generalize hashes.flatMap (fun hash => (tree.byHash.get? hash).getD []) = targets
  intro inner
  induction targets generalizing tree with
  | nil => exact ⟨formed,tended,fun _ gone => gone⟩
  | cons id rest ih =>
    obtain ⟨formed',tended',spares⟩ := formed.dropWorker tended worker (inner id mem_cons_self)
    obtain ⟨last,tendedLast,later⟩ := ih formed' tended' (forall_mem_cons.mp inner).2
    exact ⟨last,tendedLast,fun other gone => later other (spares other gone)⟩

/-! ### Clearing a worker -/

/-- A worker holds a node, given with its hash and its parent. -/
def Holds (tree : TreeState ω) (worker : ω) (id : NodeId) (hash : Int) (parent : Option NodeId) : Prop :=
  ∃ node, tree.nodes.get? id = some node ∧ node.blockHash = hash ∧ node.parent = parent ∧ worker ∈ node.workers

theorem Thins.holds {before after : TreeState ω} (thins : Thins before after) {worker : ω} {hash : Int} {parent : Option NodeId} :
    Holds after worker id hash parent ↔ Holds before worker id hash parent := by
  constructor
  · rintro ⟨node,stored,sameHash,sameParent,works⟩
    obtain ⟨old,isOld,hashes,parents,workers⟩ := thins.back id node stored
    exact ⟨old,isOld,hashes.trans sameHash,parents.trans sameParent,by rw [workers]; exact works⟩
  · rintro ⟨old,isOld,sameHash,sameParent,works⟩
    obtain ⟨node,stored⟩ := thins.kept id old isOld (ne_nil_of_mem works)
    obtain ⟨old',isOld',hashes,parents,workers⟩ := thins.back id node stored
    rw [isOld] at isOld'
    cases isOld'
    exact ⟨node,stored,hashes.symm.trans sameHash,parents.symm.trans sameParent,by rw [← workers]; exact works⟩

/-- The first loop of `clear_worker` after some of the nodes; those to prune are the loose ones. -/
structure Clearing (worker : ω) (before : TreeState ω) (done : List NodeId) (state : TreeState ω × List NodeId) : Prop where
  formed : Formed state.1
  tended : Tended state.1 state.2
  others : ∀ other ≠ worker, ∀ id hash parent, Holds state.1 other id hash parent ↔ Holds before other id hash parent
  cleared : ∀ id ∈ done, ∀ node, state.1.nodes.get? id = some node → worker ∉ node.workers
  inside : ∀ id node, state.1.nodes.get? id = some node → ∃ old, before.nodes.get? id = some old

theorem Clearing.step {worker : ω} {before : TreeState ω} {done : List NodeId} {state : TreeState ω × List NodeId}
    (clearing : Clearing worker before done state) (inner : id ≠ rootId) :
    Clearing worker before (id::done) (TreeState.clearNode worker state id) := by
  obtain ⟨formed,tended,others,cleared,inside⟩ := clearing
  rw [TreeState.clearNode]
  cases stored : state.1.nodes.get? id with
  | none => exact ⟨formed,tended,others,by grind,inside⟩
  | some node =>
    dsimp only
    split
    · have nodup := formed.nodup id node stored
      have formed' := formed.setWorkers inner stored (nodup.erase worker)
      have loose := tended.setWorkers id { node with workers := node.workers.erase worker }
      refine ⟨formed',?_,?_,?_,?_⟩
      · dsimp only
        split
        · intro other node' found inner' gone
          have := loose other node' found inner' gone
          grind
        · rename_i keeps
          refine (formed'.pruned (fun node' found _ => ?_)).tended _ loose
          rw [get?_set_same] at found
          cases found
          simpa using keeps
      · intro other apart sought hash parent
        rw [← others other apart]
        simp only [Holds,get?_set]
        grind
      · simp only [get?_set]
        grind [List.Nodup.mem_erase_iff]
      · simp only [get?_set]
        grind
    · exact ⟨formed,tended,others,by grind,inside⟩

theorem Formed.clearWorker (formed : Formed tree) (tended : Tended tree []) (worker : ω) :
    Formed (tree.clearWorker worker) ∧ Tended (tree.clearWorker worker) [] ∧
      (∀ other ≠ worker, ∀ id hash parent, Holds (tree.clearWorker worker) other id hash parent ↔ Holds tree other id hash parent) ∧
      ∀ id node, (tree.clearWorker worker).nodes.get? id = some node → worker ∉ node.workers := by
  have pruneAll (loose : List NodeId) {tree : TreeState ω} (formed : Formed tree) (tended : Tended tree loose) :
      Formed (loose.foldl (fun tree id => if tree.nodes.contains id then tree.pruneCascade id else tree) tree) ∧
        Tended (loose.foldl (fun tree id => if tree.nodes.contains id then tree.pruneCascade id else tree) tree) [] ∧
        Thins tree (loose.foldl (fun tree id => if tree.nodes.contains id then tree.pruneCascade id else tree) tree) := by
    induction loose generalizing tree with
    | nil => exact ⟨formed,tended,fun id node found => ⟨node,found,rfl,rfl,rfl⟩,fun id old found _ => ⟨old,found⟩⟩
    | cons id rest ih =>
      have pruned : Pruned id tree (if tree.nodes.contains id then tree.pruneCascade id else tree) := by
        split
        · exact formed.pruneLoop id le_rfl
        · rename_i absent
          refine formed.pruned (fun node found => absurd ?_ absent)
          rw [Dict.contains,found]
          rfl
      obtain ⟨formed',tended',thins⟩ := ih pruned.formed (pruned.tended rest tended)
      exact ⟨formed',tended',pruned.toThins.trans thins⟩
  have loop (ids done : List NodeId) {state : TreeState ω × List NodeId} (inner : ∀ id ∈ ids, id ≠ rootId)
      (clearing : Clearing worker tree done state) :
      Clearing worker tree (ids.reverse ++ done) (ids.foldl (TreeState.clearNode worker) state) := by
    induction ids generalizing state done with
    | nil => exact clearing
    | cons id rest ih =>
      have later := ih (id::done) (forall_mem_cons.mp inner).2
        (clearing.step (inner id mem_cons_self))
      simpa using later
  obtain ⟨middle,loose,others,cleared,inside⟩ := @loop (tree.nodes.keys.filter (· ≠ rootId)) [] (tree,[]) (fun id member => by
    simpa using (mem_filter.mp member).2) ⟨formed,tended,fun _ _ _ _ _ => Iff.rfl,nofun,fun id node found => ⟨node,found⟩⟩
  obtain ⟨formed',tended',thins⟩ := pruneAll _ middle loose
  refine ⟨formed',tended',fun other apart id hash parent => thins.holds.trans (others other apart id hash parent),?_⟩
  intro id node found
  by_cases top : id = rootId
  · obtain ⟨root,isRoot,-,none⟩ := formed'.root
    rw [top] at found
    cases isRoot.symm.trans found
    rw [none]
    exact not_mem_nil
  · obtain ⟨old,isOld,-,-,workers⟩ := thins.back id node found
    obtain ⟨first,isFirst⟩ := inside id old isOld
    rw [← workers]
    refine cleared id ?_ old isOld
    simp [top,(Dict.mem_keys ..).mpr ⟨first,isFirst⟩]

/-! ### Evicting -/

theorem Formed.descend (formed : Formed tree) (meets : NodeId → Prop)
    (down : ∀ id node hash child, meets id → tree.nodes.get? id = some node → node.children.get? hash = some child → meets child)
    (met : meets id) (stored : tree.nodes.get? id = some node) :
    ∃ leaf below, meets leaf ∧ tree.nodes.get? leaf = some below ∧ ∀ hash, below.children.get? hash = none := by
  induction room : tree.nextId - id using Nat.strongRecOn generalizing id node with
  | ind left ih =>
    subst room
    by_cases bare : ∀ hash, node.children.get? hash = none
    · exact ⟨id,node,met,stored,bare⟩
    · obtain ⟨hash,isSome⟩ := not_forall.mp bare
      obtain ⟨child,isChild⟩ := ne_none_iff_exists'.mp isSome
      obtain ⟨below,isBelow,-,isParent⟩ := formed.down id node hash child stored isChild
      have shorter : tree.nextId - child < tree.nextId - id :=
        Nat.sub_lt_sub_left (formed.fresh id node stored) (formed.parent_lt isBelow isParent).2
      exact ih _ shorter (down id node hash child met stored isChild) isBelow rfl

theorem Formed.oldest (formed : Formed tree) (lastUsed : NodeId → Nat) (more : 0 < tree.nodeCount) :
    ∃ victim node, tree.oldest lastUsed = some victim ∧ tree.nodes.get? victim = some node ∧ victim ≠ rootId ∧ node.children.items = [] := by
  obtain ⟨id,node,stored,inner⟩ : ∃ id node, tree.nodes.get? id = some node ∧ id ≠ rootId := by
    by_contra none
    have only : ∀ item ∈ tree.nodes.items, item.1 = rootId := fun item member => by
      by_contra inner
      exact none ⟨item.1,item.2,(get?_eq_some ..).mpr member,inner⟩
    have distinct := tree.nodes.distinct
    rw [TreeState.nodeCount] at more
    rcases isItems : tree.nodes.items with _ | ⟨first,_ | ⟨second,rest⟩⟩
    all_goals simp_all
  obtain ⟨leaf,below,isInner,isLeaf,bare⟩ := formed.descend (· ≠ rootId) (fun id node hash child _ found isChild => by
    obtain ⟨below,isBelow,-,isParent⟩ := formed.down id node hash child found isChild
    exact (formed.parent_lt isBelow isParent).1) inner stored
  have listed : (leaf,below) ∈ tree.nodes.items.filter (fun item => item.1 ≠ rootId ∧ item.2.children.items.isEmpty) := by
    rw [mem_filter,← get?_eq_some]
    exact ⟨isLeaf,by simp [isInner,eq_empty bare]⟩
  rw [TreeState.oldest]
  cases isVictim : List.argmin lastUsed ((tree.nodes.items.filter (fun item => item.1 ≠ rootId ∧ item.2.children.items.isEmpty)).map Prod.fst) with
  | none =>
    rw [map_eq_nil_iff.mp (argmin_eq_none.mp isVictim)] at listed
    cases listed
  | some victim =>
    obtain ⟨⟨id',node'⟩,member,rfl⟩ := mem_map.mp (argmin_mem isVictim)
    rw [mem_filter,← get?_eq_some] at member
    exact ⟨id',node',rfl,member.1,by simpa using member.2⟩

theorem Formed.evictLoop (formed : Formed tree) (tended : Tended tree []) (maxSize : Nat) (lastUsed : NodeId → Nat) {fuel : Nat}
    (enough : tree.nodes.items.length ≤ fuel) :
    Formed (tree.evictLoop maxSize lastUsed fuel) ∧ Tended (tree.evictLoop maxSize lastUsed fuel) [] ∧
      (tree.evictLoop maxSize lastUsed fuel).nodeCount ≤ maxSize ∧
      (tree.evictLoop maxSize lastUsed fuel).nodes.items.length ≤ tree.nodes.items.length ∧
      ∀ id node, (tree.evictLoop maxSize lastUsed fuel).nodes.get? id = some node → ∃ old, tree.nodes.get? id = some old := by
  induction fuel generalizing tree with
  | zero => exact absurd formed.length_pos enough.not_gt
  | succ fuel ih =>
    rw [TreeState.evictLoop]
    by_cases small : tree.nodeCount ≤ maxSize
    · rw [if_pos small]
      exact ⟨formed,tended,small,le_rfl,fun id node found => ⟨node,found⟩⟩
    rw [if_neg small]
    obtain ⟨victim,node,isVictim,stored,inner,bare⟩ := formed.oldest lastUsed (by omega)
    rw [isVictim,bind_some,stored]
    dsimp only [map_some]
    have pruned := @Formed.withdraw ω _ tree formed victim inner node stored [] nodup_nil
    have less := pruned.gone _ (get?_set_same ..) inner (by simp [Node.prunable,bare])
    dsimp only at less
    rw [set_length stored] at less
    obtain ⟨formed',tended',count,length,inside⟩ := ih pruned.formed (pruned.tended [] (tended.setWorkers victim _)) (by omega)
    refine ⟨formed',tended',count,by omega,fun id node' found => ?_⟩
    obtain ⟨middle,isMiddle⟩ := inside id node' found
    obtain ⟨old,isOld,-⟩ := pruned.back id middle isMiddle
    rw [get?_set] at isOld
    grind

theorem Formed.evictLru (formed : Formed tree) (tended : Tended tree []) (maxSize : Nat) (lastUsed : NodeId → Nat) :
    Formed (tree.evictLru maxSize lastUsed).2 ∧ Tended (tree.evictLru maxSize lastUsed).2 [] ∧
      (tree.evictLru maxSize lastUsed).2.nodeCount ≤ maxSize ∧
      (tree.evictLru maxSize lastUsed).1 + (tree.evictLru maxSize lastUsed).2.nodeCount = tree.nodeCount ∧
      ∀ id node, (tree.evictLru maxSize lastUsed).2.nodes.get? id = some node → ∃ old, tree.nodes.get? id = some old := by
  rw [TreeState.evictLru]
  by_cases small : tree.nodeCount ≤ maxSize
  · rw [if_pos small]
    exact ⟨formed,tended,small,Nat.zero_add _,fun id node found => ⟨node,found⟩⟩
  have none : tree.nodes.items.filter (fun item => item.1 ≠ rootId ∧ item.2.prunable) = [] := by
    rw [filter_eq_nil_iff]
    intro item member both
    have := tended item.1 item.2 ((get?_eq_some ..).mpr member)
    simp_all
  simp only [if_neg small,none,map_nil,foldl_nil]
  obtain ⟨formed',tended',count,length,inside⟩ := formed.evictLoop tended maxSize lastUsed (Nat.le_add_right tree.nodes.items.length 1)
  refine ⟨formed',tended',count,?_,inside⟩
  have positive := formed'.length_pos
  dsimp only [TreeState.nodeCount] at *
  omega

/-! ### Every sequence of calls -/

/-- A call of the tree. `match_prefix` writes times only; the hash maps may list what they hold in another order at any time. -/
inductive Step : TreeState ω → TreeState ω → Prop
  | insert (tree : TreeState ω) (worker : ω) (parentHash : Option Int) (blockHashes : List Int) :
      Step tree (tree.insert worker parentHash blockHashes)
  | remove (tree : TreeState ω) (worker : ω) (blockHashes : List Int) : Step tree (tree.remove worker blockHashes)
  | clearWorker (tree : TreeState ω) (worker : ω) : Step tree (tree.clearWorker worker)
  | evictLru (tree : TreeState ω) (maxSize : Nat) (lastUsed : NodeId → Nat) : Step tree (tree.evictLru maxSize lastUsed).2
  | reorder {tree after : TreeState ω} (nodes : ∀ id, after.nodes.get? id = tree.nodes.get? id)
      (byHash : ∀ hash, Option.Rel List.Perm (after.byHash.get? hash) (tree.byHash.get? hash)) (nextId : after.nextId = tree.nextId) :
      Step tree after

theorem Step.keeps {after : TreeState ω} (step : Step tree after) (formed : Formed tree) (tended : Tended tree []) :
    Formed after ∧ Tended after [] := by
  cases step with
  | insert worker parentHash blockHashes =>
    obtain ⟨formed',tended',-⟩ := formed.insert tended worker parentHash blockHashes
    exact ⟨formed',tended'⟩
  | remove worker blockHashes =>
    obtain ⟨formed',tended',-⟩ := formed.remove tended worker blockHashes
    exact ⟨formed',tended'⟩
  | clearWorker worker =>
    obtain ⟨formed',tended',-⟩ := formed.clearWorker tended worker
    exact ⟨formed',tended'⟩
  | evictLru maxSize lastUsed =>
    obtain ⟨formed',tended',-⟩ := formed.evictLru tended maxSize lastUsed
    exact ⟨formed',tended'⟩
  | reorder nodes byHash nextId =>
    have related (hash : Int) : after.byHash.get? hash = none ∧ tree.byHash.get? hash = none ∨
        ∃ ids old, after.byHash.get? hash = some ids ∧ tree.byHash.get? hash = some old ∧ ids.Perm old := by
      have related := byHash hash
      generalize after.byHash.get? hash = left, tree.byHash.get? hash = right at related ⊢
      cases related with
      | some perm => exact .inr ⟨_,_,rfl,rfl,perm⟩
      | none => exact .inl ⟨rfl,rfl⟩
    obtain ⟨root,up,down,indexed,distinct,fresh,nodup⟩ := formed
    refine ⟨⟨?_,?_,?_,?_,by grind [List.Perm.nodup_iff,nil_perm],?_,?_⟩,?_⟩
    all_goals simp only [nodes,nextId,Tended]
    any_goals assumption
    intro hash id
    rw [← indexed]
    grind [List.Perm.mem_iff]

theorem Formed.reachable (formed : Formed tree) (stored : tree.nodes.get? id = some node) :
    Relation.ReflTransGen (fun upper lower => ∃ node hash, tree.nodes.get? upper = some node ∧ node.children.get? hash = some lower) rootId id := by
  induction id using Nat.strongRecOn generalizing node with
  | ind id ih =>
    by_cases top : id = rootId
    · rw [top]
    · obtain ⟨parentId,parent,-,less,above,lists⟩ := formed.up id node stored top
      exact (ih parentId less above).tail ⟨parent,_,above,lists⟩

/-- After every sequence of calls the tree has its documented form, and clearing and evicting do what they are for. -/
theorem tree_documented (reached : Relation.ReflTransGen Step TreeState.new tree) :
    Formed tree ∧ Tended tree [] ∧
      (∀ id node, tree.nodes.get? id = some node → Relation.ReflTransGen (fun upper lower =>
        ∃ node hash, tree.nodes.get? upper = some node ∧ node.children.get? hash = some lower) rootId id) ∧
      (∀ worker, (∀ id node, (tree.clearWorker worker).nodes.get? id = some node → worker ∉ node.workers) ∧
        ∀ other ≠ worker, ∀ id hash parent, Holds (tree.clearWorker worker) other id hash parent ↔ Holds tree other id hash parent) ∧
      ∀ maxSize lastUsed, (tree.evictLru maxSize lastUsed).2.nodeCount ≤ maxSize ∧
        (tree.evictLru maxSize lastUsed).1 + (tree.evictLru maxSize lastUsed).2.nodeCount = tree.nodeCount ∧
        ∀ id node, (tree.evictLru maxSize lastUsed).2.nodes.get? id = some node → ∃ old, tree.nodes.get? id = some old := by
  obtain ⟨formed,tended⟩ : Formed tree ∧ Tended tree [] := by
    induction reached with
    | refl => exact ⟨formed_new,tended_new⟩
    | tail _ step ih => exact step.keeps ih.1 ih.2
  refine ⟨formed,tended,fun id node stored => formed.reachable stored,fun worker => ?_,fun maxSize lastUsed => ?_⟩
  · obtain ⟨-,-,others,cleared⟩ := formed.clearWorker tended worker
    exact ⟨cleared,others⟩
  · exact (formed.evictLru tended maxSize lastUsed).2.2

theorem tree_documented_ambiguous : Formed (((TreeState.new.insert 0 none [5,6]).insert 1 none [6,5]).remove 0 [5]) :=
  (tree_documented (((Relation.ReflTransGen.single (.insert _ 0 none [5,6])).tail (.insert _ 1 none [6,5])).tail (.remove _ 0 [5]))).1

end Hypic.HashTree
