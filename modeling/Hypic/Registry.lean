import Hypic.Dict
import Hypic.Runs

/-! The gateway's worker registry: six indexes over the registered workers, each updated on its own by every call. -/

namespace Hypic.Registry
open Runs Dict List
universe u v w

inductive WorkerType where
  | regular
  | prefill (bootstrapPort : Option UInt16)
  | decode
deriving DecidableEq, Repr

inductive ConnectionMode where
  | http
  | grpc (port : Option UInt16)
deriving DecidableEq, Repr

/-- A worker object: what the indexes read, and the rest of its properties. -/
structure Worker (ρ : Type u) where
  url : String
  modelId : String
  workerType : WorkerType
  connectionMode : ConnectionMode
  properties : ρ
deriving DecidableEq, Repr

abbrev WorkerId := Nat

def virtualNodesPerWorker : Nat := 150

/-- `HashRing::new`; the hash of a URL and a virtual node is given. -/
def hashRing {ρ : Type u} (position : String → Nat → UInt64) (workers : List (Worker ρ)) : List (UInt64 × String) :=
  (workers.flatMap (fun worker => (List.range virtualNodesPerWorker).map (fun vnode => (position worker.url vnode,worker.url)))).mergeSort
    (fun left right => left.1 ≤ right.1)

/-- The indexes. A new id is a number that was never given out. -/
structure WorkerRegistry (ρ : Type u) where
  workers : Dict WorkerId (Worker ρ)
  modelIndex : Dict String (List (Worker ρ))
  hashRings : Dict String (List (UInt64 × String))
  typeWorkers : Dict WorkerType (List WorkerId)
  connectionWorkers : Dict ConnectionMode (List WorkerId)
  urlToId : Dict String WorkerId
  nextId : WorkerId

section Lists
variable {κ : Type v} [DecidableEq κ] {ν : Type w}

/-- The list under a key with one item more, made if there is none. -/
def push (key : κ) (item : ν) (index : Dict κ (List ν)) : Dict κ (List ν) := index.set key ((index.get? key).getD [] ++ [item])

/-- The list under a key, if there is one, with only the items to keep. -/
def retain (key : κ) (keep : ν → Bool) (index : Dict κ (List ν)) : Dict κ (List ν) :=
  match index.get? key with
  | some items => index.set key (items.filter keep)
  | none => index

/-- An index lists under every key what belongs there, each once. -/
def Lists (index : Dict κ (List ν)) (belongs : ν → κ → Prop) : Prop :=
  ∀ key, ((index.get? key).getD []).Nodup ∧ ∀ item, item ∈ (index.get? key).getD [] ↔ belongs item key

variable {index : Dict κ (List ν)} {belongs after : ν → κ → Prop} {key : κ}

theorem Lists.push {item : ν} (lists : Lists index belongs) (new : ¬ belongs item key)
    (added : ∀ other place, after other place ↔ belongs other place ∨ other = item ∧ place = key) : Lists (push key item index) after := by
  intro place
  obtain ⟨nodup,members⟩ := lists place
  rw [Registry.push,get?_set]
  by_cases here : place = key
  · subst here
    rw [if_pos rfl,getD_some]
    refine ⟨by rw [← concat_eq_append]; exact nodup.concat (by rwa [members]),fun other => ?_⟩
    rw [mem_append,mem_singleton,members,added]
    simp
  · rw [if_neg here]
    exact ⟨nodup,fun other => by simp [members,added,here]⟩

theorem Lists.retain {keep : ν → Bool} (lists : Lists index belongs) (elsewhere : ∀ item place, belongs item place → place ≠ key → keep item = true)
    (kept : ∀ item place, after item place ↔ belongs item place ∧ keep item = true) : Lists (retain key keep index) after := by
  have found (place : κ) : ((Registry.retain key keep index).get? place).getD [] =
      if place = key then ((index.get? place).getD []).filter keep else (index.get? place).getD [] := by
    rw [Registry.retain]
    cases isItems : index.get? key with
    | none => grind
    | some items => grind [get?_set]
  intro place
  obtain ⟨nodup,members⟩ := lists place
  rw [found]
  by_cases here : place = key
  · rw [if_pos here]
    exact ⟨nodup.filter _,fun item => by rw [mem_filter,members,kept]⟩
  · rw [if_neg here]
    refine ⟨nodup,fun item => ?_⟩
    rw [members,kept]
    exact ⟨fun inside => ⟨inside,elsewhere item place inside here⟩,fun both => both.1⟩

end Lists

namespace WorkerRegistry
variable {ρ : Type u} (position : String → Nat → UInt64)

def new : WorkerRegistry ρ := ⟨.empty,.empty,.empty,.empty,.empty,.empty,0⟩

def rebuildHashRing (modelId : String) (registry : WorkerRegistry ρ) : WorkerRegistry ρ :=
  { registry with hashRings := match registry.modelIndex.get? modelId with
    | some workers => registry.hashRings.set modelId (hashRing position workers)
    | none => registry.hashRings.erase modelId }

def register (worker : Worker ρ) (registry : WorkerRegistry ρ) : WorkerRegistry ρ :=
  let (workerId,nextId) := match registry.urlToId.get? worker.url with
    | some existingId => (existingId,registry.nextId)
    | none => (registry.nextId,registry.nextId + 1)
  { rebuildHashRing position worker.modelId { registry with
      workers := registry.workers.set workerId worker
      urlToId := registry.urlToId.set worker.url workerId
      modelIndex := push worker.modelId worker registry.modelIndex
      nextId } with
    typeWorkers := push worker.workerType workerId registry.typeWorkers
    connectionWorkers := push worker.connectionMode workerId registry.connectionWorkers }

def reserveIdForUrl (url : String) (registry : WorkerRegistry ρ) : WorkerRegistry ρ :=
  match registry.urlToId.get? url with
  | some _ => registry
  | none => { registry with urlToId := registry.urlToId.set url registry.nextId, nextId := registry.nextId + 1 }

def remove (workerId : WorkerId) (registry : WorkerRegistry ρ) : WorkerRegistry ρ :=
  match registry.workers.get? workerId with
  | none => registry
  | some worker =>
    { rebuildHashRing position worker.modelId { registry with
        workers := registry.workers.erase workerId
        urlToId := registry.urlToId.erase worker.url
        modelIndex := retain worker.modelId (·.url ≠ worker.url) registry.modelIndex } with
      typeWorkers := retain worker.workerType (· ≠ workerId) registry.typeWorkers
      connectionWorkers := retain worker.connectionMode (· ≠ workerId) registry.connectionWorkers }

def removeByUrl (url : String) (registry : WorkerRegistry ρ) : WorkerRegistry ρ :=
  match registry.urlToId.get? url with
  | some workerId => remove position workerId { registry with urlToId := registry.urlToId.erase url }
  | none => registry

end WorkerRegistry
open WorkerRegistry

inductive Call (ρ : Type u) where
  | register (worker : Worker ρ)
  | reserveIdForUrl (url : String)
  | remove (workerId : WorkerId)
  | removeByUrl (url : String)

/-- The registry, and under each URL the worker last registered and not removed since. -/
structure Tracked (ρ : Type u) where
  registry : WorkerRegistry ρ
  current : String → Option (Worker ρ)

variable {ρ : Type u} (position : String → Nat → UInt64)

def start : Tracked ρ := ⟨new,fun _ => none⟩

def step (tracked : Tracked ρ) : Call ρ → Option (Tracked ρ)
  | .register worker => some ⟨register position worker tracked.registry,Function.update tracked.current worker.url (some worker)⟩
  | .reserveIdForUrl url => some { tracked with registry := reserveIdForUrl url tracked.registry }
  | .remove workerId =>
    some ⟨remove position workerId tracked.registry,match tracked.registry.workers.get? workerId with
      | some worker => Function.update tracked.current worker.url none
      | none => tracked.current⟩
  | .removeByUrl url => some ⟨removeByUrl position url tracked.registry,Function.update tracked.current url none⟩

/-- No URL that has a worker is registered again. -/
def Unregistered (tracked : Tracked ρ) : Call ρ → Prop
  | .register worker => tracked.current worker.url = none
  | _ => True

/-- What the indexes say of the workers last registered. -/
structure Agrees (tracked : Tracked ρ) : Prop where
  workers : ∀ id worker, tracked.registry.workers.get? id = some worker ↔
    tracked.registry.urlToId.get? worker.url = some id ∧ tracked.current worker.url = some worker
  urls : ∀ url worker, tracked.current url = some worker → worker.url = url ∧ ∃ id, tracked.registry.urlToId.get? url = some id
  ids : ∀ url other id, tracked.registry.urlToId.get? url = some id → tracked.registry.urlToId.get? other = some id → url = other
  fresh : ∀ url id, tracked.registry.urlToId.get? url = some id → id < tracked.registry.nextId
  models : Lists tracked.registry.modelIndex (fun worker modelId => tracked.current worker.url = some worker ∧ worker.modelId = modelId)
  types : Lists tracked.registry.typeWorkers (fun id workerType =>
    ∃ worker, tracked.registry.workers.get? id = some worker ∧ worker.workerType = workerType)
  connections : Lists tracked.registry.connectionWorkers (fun id mode =>
    ∃ worker, tracked.registry.workers.get? id = some worker ∧ worker.connectionMode = mode)
  rings : ∀ modelId, tracked.registry.hashRings.get? modelId = (tracked.registry.modelIndex.get? modelId).map (hashRing position)

theorem agrees_start : Agrees position (start : Tracked ρ) := by
  refine ⟨?_,nofun,nofun,nofun,fun key => ⟨nodup_nil,?_⟩,fun key => ⟨nodup_nil,?_⟩,fun key => ⟨nodup_nil,?_⟩,fun _ => rfl⟩
  all_goals simp [start,new]

theorem rings_rebuild {modelId : String} {registry : WorkerRegistry ρ}
    (rings : ∀ other ≠ modelId, registry.hashRings.get? other = (registry.modelIndex.get? other).map (hashRing position)) (other : String) :
    (rebuildHashRing position modelId registry).hashRings.get? other = (registry.modelIndex.get? other).map (hashRing position) := by
  rw [rebuildHashRing]
  have others := rings other
  cases found : registry.modelIndex.get? modelId with
  | none => grind [get?_erase]
  | some workers => grind [get?_set]

variable {position} {tracked : Tracked ρ}

theorem Agrees.register (agrees : Agrees position tracked) {worker : Worker ρ} (free : tracked.current worker.url = none) :
    Agrees position ⟨register position worker tracked.registry,Function.update tracked.current worker.url (some worker)⟩ := by
  obtain ⟨workers,urls,ids,fresh,models,types,connections,rings⟩ := agrees
  -- the id is the one reserved for the URL, or a new one; no other URL has it
  obtain ⟨id,nextId,chosen,unused,below⟩ : ∃ id nextId, (match tracked.registry.urlToId.get? worker.url with
      | some existingId => (existingId,tracked.registry.nextId)
      | none => (tracked.registry.nextId,tracked.registry.nextId + 1)) = (id,nextId) ∧
      (∀ url, tracked.registry.urlToId.get? url = some id → url = worker.url) ∧ id < nextId ∧ tracked.registry.nextId ≤ nextId := by
    cases found : tracked.registry.urlToId.get? worker.url with
    | some existing => exact ⟨_,_,rfl,fun url same => ids _ _ _ same found,fresh _ _ found,le_rfl⟩
    | none => exact ⟨_,_,rfl,fun url same => absurd (fresh _ _ same) (lt_irrefl _),Nat.lt_succ_self _,Nat.le_succ _⟩
  have absent : tracked.registry.workers.get? id = none := by
    cases held : tracked.registry.workers.get? id with
    | none => rfl
    | some old =>
      obtain ⟨named,isCurrent⟩ := (workers id old).mp held
      rw [unused _ named,free] at isCurrent
      cases isCurrent
  rw [WorkerRegistry.register,chosen]
  refine ⟨?_,?_,?_,?_,models.push ?_ ?_,types.push ?_ ?_,connections.push ?_ ?_,rings_rebuild position (fun other differs => ?_)⟩
  any_goals simp only [rebuildHashRing,push,get?_set,Function.update_apply]
  all_goals grind

theorem Agrees.reserveIdForUrl (agrees : Agrees position tracked) (url : String) :
    Agrees position { tracked with registry := reserveIdForUrl url tracked.registry } := by
  rw [WorkerRegistry.reserveIdForUrl]
  cases found : tracked.registry.urlToId.get? url with
  | some id => exact agrees
  | none =>
    obtain ⟨workers,urls,ids,fresh,models,types,connections,rings⟩ := agrees
    refine ⟨?_,?_,?_,?_,models,types,connections,rings⟩
    all_goals simp only [get?_set]
    all_goals grind

theorem Agrees.drop (agrees : Agrees position tracked) {id : WorkerId} {worker : Worker ρ}
    (held : tracked.registry.workers.get? id = some worker) {urlToId : Dict String WorkerId}
    (left : ∀ url, url ≠ worker.url → urlToId.get? url = tracked.registry.urlToId.get? url) :
    Agrees position ⟨remove position id { tracked.registry with urlToId },Function.update tracked.current worker.url none⟩ := by
  obtain ⟨workers,urls,ids,fresh,models,types,connections,rings⟩ := agrees
  rw [remove]
  dsimp only
  rw [held]
  refine ⟨?_,?_,?_,?_,models.retain ?_ ?_,types.retain ?_ ?_,connections.retain ?_ ?_,rings_rebuild position (fun other differs => ?_)⟩
  any_goals simp only [rebuildHashRing,retain,get?_erase,Function.update_apply]
  all_goals grind [get?_set]

theorem Agrees.free (agrees : Agrees position tracked) (url : String)
    (unused : ∀ id, tracked.registry.urlToId.get? url = some id → tracked.registry.workers.get? id = none) :
    Function.update tracked.current url none = tracked.current := by
  rw [Function.update_eq_self_iff,eq_comm,Option.eq_none_iff_forall_ne_some]
  intro worker isCurrent
  obtain ⟨rfl,id,named⟩ := agrees.urls url worker isCurrent
  have held := (agrees.workers id worker).mpr ⟨named,isCurrent⟩
  rw [unused id named] at held
  cases held

theorem step_agrees (tracked : Tracked ρ) (call : Call ρ) (next : Tracked ρ) (agrees : Agrees position tracked)
    (unregistered : Unregistered tracked call) (stepped : step position tracked call = some next) : Agrees position next := by
  cases call with
  | register worker =>
    cases stepped
    exact agrees.register unregistered
  | reserveIdForUrl url =>
    cases stepped
    exact agrees.reserveIdForUrl url
  | remove id =>
    cases stepped
    cases held : tracked.registry.workers.get? id with
    | none =>
      rw [remove,held]
      exact agrees
    | some worker => exact agrees.drop held (fun _ _ => rfl)
  | removeByUrl url =>
    cases stepped
    rw [removeByUrl]
    cases found : tracked.registry.urlToId.get? url with
    | none =>
      rw [agrees.free url (by grind)]
      exact agrees
    | some id =>
      cases held : tracked.registry.workers.get? id with
      | none =>
        -- the id was only reserved
        dsimp only
        rw [remove]
        dsimp only
        rw [held]
        rw [agrees.free url (by grind)]
        obtain ⟨workers,urls,ids,fresh,models,types,connections,rings⟩ := agrees
        refine ⟨?_,?_,?_,?_,models,types,connections,rings⟩
        all_goals simp only [get?_erase]
        all_goals grind
      | some worker =>
        obtain rfl : url = worker.url := agrees.ids _ _ _ found ((agrees.workers id worker).mp held).1
        exact agrees.drop held (fun other differs => by rw [get?_erase,if_neg differs])

theorem hashRing_urls (workers : List (Worker ρ)) :
    ((hashRing position workers).map Prod.snd).Perm (workers.flatMap (fun worker => List.replicate virtualNodesPerWorker worker.url)) := by
  refine ((mergeSort_perm ..).map Prod.snd).trans (List.Perm.of_eq ?_)
  simp [map_flatMap,comp_def,map_const']

/-- While no URL that has a worker is registered again, all indexes agree on the workers last registered. -/
theorem indexes_agree {calls : List (Call ρ)} {final : Tracked ρ} (guarded : Guarded (step position) Unregistered start calls)
    (executed : run (step position) start calls = some final) :
    (∀ url worker, final.current url = some worker ↔ worker.url = url ∧ ∃ id, final.registry.workers.get? id = some worker) ∧
      (∀ id other worker worker', final.registry.workers.get? id = some worker → final.registry.workers.get? other = some worker' →
        worker.url = worker'.url → id = other) ∧
      Lists final.registry.modelIndex (fun worker modelId => final.current worker.url = some worker ∧ worker.modelId = modelId) ∧
      Lists final.registry.typeWorkers (fun id workerType =>
        ∃ worker, final.registry.workers.get? id = some worker ∧ worker.workerType = workerType) ∧
      Lists final.registry.connectionWorkers (fun id mode =>
        ∃ worker, final.registry.workers.get? id = some worker ∧ worker.connectionMode = mode) ∧
      ∀ modelId, (((final.registry.hashRings.get? modelId).getD []).map Prod.snd).Perm
        (((final.registry.modelIndex.get? modelId).getD []).flatMap (fun worker => List.replicate virtualNodesPerWorker worker.url)) := by
  obtain ⟨workers,urls,ids,-,models,types,connections,rings⟩ :=
    run_keeps (Agrees position) step_agrees (agrees_start position) guarded executed
  refine ⟨fun url worker => ⟨fun isCurrent => ?_,?_⟩,?_,models,types,connections,fun modelId => ?_⟩
  · obtain ⟨rfl,id,named⟩ := urls url worker isCurrent
    exact ⟨rfl,id,(workers id worker).mpr ⟨named,isCurrent⟩⟩
  · rintro ⟨rfl,id,held⟩
    exact ((workers id worker).mp held).2
  · grind
  · rw [rings]
    cases final.registry.modelIndex.get? modelId with
    | none => exact List.Perm.nil
    | some listed => exact hashRing_urls listed

def sample (url apiKey : String) : Worker String := ⟨url,"m",.regular,.http,apiKey⟩

def replaced : List (Call String) :=
  [.reserveIdForUrl "a",.register (sample "a" "old"),.removeByUrl "a",.register (sample "a" "new")]

theorem indexes_agree_replaced : ∃ final, run (step (fun _ _ => 0)) start replaced = some final ∧
    Lists final.registry.modelIndex (fun worker modelId => final.current worker.url = some worker ∧ worker.modelId = modelId) := by
  refine ⟨_,rfl,(@indexes_agree String (fun _ _ => 0) replaced _ ⟨trivial,?_⟩ rfl).2.2.1⟩
  rintro _ ⟨⟩
  refine ⟨rfl,?_⟩
  rintro _ ⟨⟩
  refine ⟨trivial,?_⟩
  rintro _ ⟨⟩
  exact ⟨rfl,fun _ _ => trivial⟩

/-- A URL registered again, as an update of its API key does, is listed twice, with the old worker first. -/
theorem update_keeps_old : ∃ final, run (step (fun _ _ => 0)) start [.register (sample "a" "old"),.register (sample "a" "new")] = some final ∧
    final.registry.workers.get? 0 = some (sample "a" "new") ∧
    final.registry.modelIndex.get? "m" = some [sample "a" "old",sample "a" "new"] ∧
    final.registry.typeWorkers.get? .regular = some [0,0] ∧ final.registry.connectionWorkers.get? .http = some [0,0] := by
  refine ⟨_,rfl,?_,?_,?_,?_⟩
  all_goals decide

end Hypic.Registry
