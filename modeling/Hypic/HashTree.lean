import Mathlib.Data.List.MinMax
import Hypic.Dict
import Hypic.KvEvents

/-! `HashTree`: the router's index of the blocks its workers announced. Nodes lie in an arena and refer to each other by id; a
    reverse index finds the nodes that carry a hash. The times of last use only serve `evict_lru` and are an argument of it. -/

namespace Hypic.HashTree
open KvEvents
universe u

abbrev NodeId := Nat

structure Node (ω : Type u) where
  blockHash : Int
  parentBlockHash : Option Int
  parent : Option NodeId
  workers : List ω
  children : Dict Int NodeId

structure TreeState (ω : Type u) where
  nodes : Dict NodeId (Node ω)
  byHash : Dict Int (List NodeId)
  nextId : NodeId

structure MatchResult (ω : Type u) where
  matchedBlocks : Nat
  workers : List ω
deriving DecidableEq, Repr

def rootId : NodeId := 0
def rootHashSentinel : Int := -(2 ^ 63)

variable {ω : Type u}

def Node.newChild (blockHash : Int) (parentBlockHash : Option Int) (parent : NodeId) : Node ω :=
  ⟨blockHash,parentBlockHash,some parent,[],.empty⟩

/-- No worker and no child. -/
def Node.prunable (node : Node ω) : Bool := node.workers.isEmpty && node.children.items.isEmpty

namespace TreeState

def new : TreeState ω :=
  { nodes := Dict.empty.set rootId ⟨rootHashSentinel,none,none,[],.empty⟩, byHash := .empty, nextId := 1 }

/-- `create_child`; the id is used up even when the parent is unknown. -/
def createChild (parentId : NodeId) (blockHash : Int) (parentBlockHash : Option Int) (tree : TreeState ω) : Option NodeId × TreeState ω :=
  let id := tree.nextId
  let nodes := tree.nodes.set id (.newChild blockHash parentBlockHash parentId)
  match nodes.get? parentId with
  | none => (none,{ tree with nodes := nodes.erase id, nextId := id + 1 })
  | some parent =>
    (some id,{
      nodes := nodes.set parentId { parent with children := parent.children.set blockHash id }
      byHash := tree.byHash.set blockHash (((tree.byHash.get? blockHash).getD []).insert id)
      nextId := id + 1 })

variable [DecidableEq ω]

/-- `resolve_parent`: the one node with the hash, or among several one that the worker holds, or the root. -/
def resolveParent (worker : ω) (parentHash : Option Int) (tree : TreeState ω) : NodeId :=
  match parentHash.bind tree.byHash.get? with
  | none => rootId
  | some [candidate] => candidate
  | some candidates =>
    (candidates.find? (fun candidate => (tree.nodes.get? candidate).any (fun node => worker ∈ node.workers))).getD rootId

/-- The loop of `insert` from one node on. -/
def insertLoop (worker : ω) : NodeId → Option Int → List Int → TreeState ω → TreeState ω
  | _, _, [], tree => tree
  | current, prevHash, hash::rest, tree =>
    let (childId,tree) := match (tree.nodes.get? current).bind (·.children.get? hash) with
      | some id => (some id,tree)
      | none => tree.createChild current hash prevHash
    match childId.bind (fun id => (tree.nodes.get? id).map (id,·)) with
    | none => tree
    | some (id,child) =>
      insertLoop worker id (some hash) rest { tree with nodes := tree.nodes.set id { child with workers := child.workers.insert worker } }

def insert (worker : ω) (parentHash : Option Int) (blockHashes : List Int) (tree : TreeState ω) : TreeState ω :=
  insertLoop worker (tree.resolveParent worker parentHash) parentHash blockHashes tree

omit [DecidableEq ω] in
/-- The tree without a node: detached from its parent, out of the reverse index, gone from the arena. -/
def detach (id parentId : NodeId) (node : Node ω) (tree : TreeState ω) : TreeState ω :=
  let nodes := match tree.nodes.get? parentId with
    | some parent => tree.nodes.set parentId { parent with children := parent.children.erase node.blockHash }
    | none => tree.nodes
  let byHash := match tree.byHash.get? node.blockHash with
    | some ids => if ids.erase id = [] then tree.byHash.erase node.blockHash else tree.byHash.set node.blockHash (ids.erase id)
    | none => tree.byHash
  { tree with nodes := nodes.erase id, byHash }

omit [DecidableEq ω] in
/-- The loop of `prune_cascade`; every round removes a node, so their number bounds the rounds. -/
def pruneLoop : Nat → NodeId → TreeState ω → TreeState ω
  | 0, _, tree => tree
  | fuel+1, cursor, tree =>
    if cursor = rootId then tree
    else
      match tree.nodes.get? cursor with
      | none => tree
      | some node =>
        match node.parent with
        | none => tree
        | some parentId =>
          if node.prunable then
            let tree := tree.detach cursor parentId node
            if parentId ≠ rootId ∧ (tree.nodes.get? parentId).any Node.prunable then pruneLoop fuel parentId tree else tree
          else tree

omit [DecidableEq ω] in
def pruneCascade (start : NodeId) (tree : TreeState ω) : TreeState ω := pruneLoop tree.nodes.items.length start tree

/-- The body of the loop of `remove` for one node. -/
def dropWorker (worker : ω) (tree : TreeState ω) (id : NodeId) : TreeState ω :=
  match tree.nodes.get? id with
  | none => tree
  | some node =>
    let node := { node with workers := node.workers.erase worker }
    let tree := { tree with nodes := tree.nodes.set id node }
    if node.prunable then tree.pruneCascade id else tree

def remove (worker : ω) (blockHashes : List Int) (tree : TreeState ω) : TreeState ω :=
  let targets := blockHashes.flatMap (fun hash => (tree.byHash.get? hash).getD [])
  targets.foldl (dropWorker worker) tree

/-- One node of the first loop of `clear_worker`: the tree, and the nodes to prune. -/
def clearNode (worker : ω) (state : TreeState ω × List NodeId) (id : NodeId) : TreeState ω × List NodeId :=
  match state.1.nodes.get? id with
  | none => state
  | some node =>
    if worker ∈ node.workers then
      let node := { node with workers := node.workers.erase worker }
      ({ state.1 with nodes := state.1.nodes.set id node },if node.prunable then state.2 ++ [id] else state.2)
    else state

def clearWorker (worker : ω) (tree : TreeState ω) : TreeState ω :=
  let ids := tree.nodes.keys.filter (· ≠ rootId)
  let (tree,pruneCandidates) := ids.foldl (clearNode worker) (tree,[])
  pruneCandidates.foldl (fun tree id => if tree.nodes.contains id then tree.pruneCascade id else tree) tree

omit [DecidableEq ω] in
/-- The loop of `match_prefix`: the number of hashes matched and the last node reached. -/
def matchLoop (tree : TreeState ω) : NodeId → List Int → Nat → Option NodeId → Nat × Option NodeId
  | _, [], matched, lastMatchNode => (matched,lastMatchNode)
  | current, hash::rest, matched, lastMatchNode =>
    match (tree.nodes.get? current).bind (·.children.get? hash) with
    | some childId => matchLoop tree childId rest (matched + 1) (some childId)
    | none => (matched,lastMatchNode)

omit [DecidableEq ω] in
def matchPrefix (parentHash : Option Int) (blockHashes : List Int) (tree : TreeState ω) : MatchResult ω :=
  let start := match parentHash.bind tree.byHash.get? with
    | some [id] => id
    | _ => rootId
  let (matched,lastMatchNode) := tree.matchLoop start blockHashes 0 none
  ⟨matched,((lastMatchNode.bind tree.nodes.get?).map Node.workers).getD []⟩

omit [DecidableEq ω] in
/-- All nodes but the root. -/
def nodeCount (tree : TreeState ω) : Nat := tree.nodes.items.length - 1

omit [DecidableEq ω] in
/-- The leaf that was used longest ago, the first of several. -/
def oldest (lastUsed : NodeId → Nat) (tree : TreeState ω) : Option NodeId :=
  ((tree.nodes.items.filter (fun item => item.1 ≠ rootId ∧ item.2.children.items.isEmpty)).map Prod.fst).argmin lastUsed

omit [DecidableEq ω] in
/-- The second loop of `evict_lru`: the oldest leaf goes, with the workers it has. -/
def evictLoop (maxSize : Nat) (lastUsed : NodeId → Nat) : Nat → TreeState ω → TreeState ω
  | 0, tree => tree
  | fuel+1, tree =>
    if tree.nodeCount ≤ maxSize then tree
    else
      match (tree.oldest lastUsed).bind (fun victim => (tree.nodes.get? victim).map (victim,·)) with
      | none => tree
      | some (victim,node) =>
        evictLoop maxSize lastUsed fuel (pruneCascade victim { tree with nodes := tree.nodes.set victim { node with workers := [] } })

omit [DecidableEq ω] in
/-- `evict_lru`: first the leaves without workers, then the oldest ones; the number of nodes removed, and the tree. -/
def evictLru (maxSize : Nat) (lastUsed : NodeId → Nat) (tree : TreeState ω) : Nat × TreeState ω :=
  if tree.nodeCount ≤ maxSize then (0,tree)
  else
    let emptyLeaves := (tree.nodes.items.filter (fun item => item.1 ≠ rootId ∧ item.2.prunable)).map Prod.fst
    let pruned := emptyLeaves.foldl (fun tree id =>
      if maxSize < tree.nodeCount ∧ tree.nodes.contains id then tree.pruneCascade id else tree) tree
    let evicted := evictLoop maxSize lastUsed (pruned.nodes.items.length + 1) pruned
    (tree.nodes.items.length - evicted.nodes.items.length,evicted)

/-- What the router does with an announcement of a worker. -/
def apply (worker : ω) : KvEvent → TreeState ω → TreeState ω
  | .blockStored blockHashes parentBlockHash _ _, tree => tree.insert worker parentBlockHash blockHashes
  | .blockRemoved blockHashes, tree => tree.remove worker blockHashes
  | .allBlocksCleared, tree => tree.clearWorker worker

def applyAll (events : List (ω × KvEvent)) : TreeState ω := events.foldl (fun tree event => tree.apply event.1 event.2) new

end TreeState
end Hypic.HashTree
