import Hypic.Registry
import Mathlib.Data.List.Rotate

/-! Looking up a key on the hash ring: the first healthy worker at or after the key's position, around the ring. -/

namespace Hypic.HashRing
open Registry List
universe u

/-- The walk around the ring passes over a URL it has checked before. -/
def walk (isHealthy : String → Bool) : List String → List (UInt64 × String) → Option String
  | _, [] => none
  | checkedUrls, (_,url)::rest =>
    if url ∈ checkedUrls then walk isHealthy checkedUrls rest
    else if isHealthy url then some url
    else walk isHealthy (url::checkedUrls) rest

/-- `find_healthy_url` for a key at a position. The partition point is the number of entries before the position. -/
def findHealthyUrl (keyPos : UInt64) (isHealthy : String → Bool) (ring : List (UInt64 × String)) : Option String :=
  walk isHealthy [] (ring.rotate (ring.takeWhile (·.1 < keyPos)).length)

theorem walk_eq {isHealthy : String → Bool} {checkedUrls : List String} (failed : ∀ url ∈ checkedUrls, isHealthy url = false)
    (ring : List (UInt64 × String)) : walk isHealthy checkedUrls ring = (ring.map Prod.snd).find? isHealthy := by
  induction ring generalizing checkedUrls with
  | nil => rfl
  | cons entry rest ih =>
    obtain ⟨pos,url⟩ := entry
    rw [walk,map_cons]
    by_cases checked : url ∈ checkedUrls
    · rw [if_pos checked,ih failed,find?_cons_of_neg (by simp [failed url checked])]
    · rw [if_neg checked]
      cases well : isHealthy url with
      | true => rw [if_pos rfl,find?_cons_of_pos well]
      | false =>
        rw [if_neg Bool.false_ne_true,find?_cons_of_neg (by simp [well])]
        exact ih (forall_mem_cons.mpr ⟨well,failed⟩)

theorem split_sorted {ring : List (UInt64 × String)} (sorted : ring.Pairwise fun left right => left.1 ≤ right.1) (keyPos : UInt64) :
    ring.takeWhile (·.1 < keyPos) = ring.filter (·.1 < keyPos) ∧ ring.dropWhile (·.1 < keyPos) = ring.filter (¬ ·.1 < keyPos) := by
  induction ring with
  | nil => exact ⟨rfl,rfl⟩
  | cons entry rest ih =>
    obtain ⟨first,sorted⟩ := pairwise_cons.mp sorted
    obtain ⟨before,behind⟩ := ih sorted
    by_cases early : entry.1 < keyPos
    · simp [early,before,behind]
    · have late : ∀ other ∈ rest, ¬ other.1 < keyPos := fun other member => 
        UInt64.not_lt.mpr (UInt64.le_trans (UInt64.not_lt.mp early) (first other member))
      simp only [takeWhile_cons,dropWhile_cons,filter_cons,early,decide_false,false_eq_true,if_false,not_false_eq_true,
        decide_true,if_true]
      exact ⟨(filter_eq_nil_iff.mpr (by simpa using late)).symm,by rw [filter_eq_self.mpr (by simpa using late)]⟩

theorem findHealthyUrl_eq {ring : List (UInt64 × String)} (sorted : ring.Pairwise fun left right => left.1 ≤ right.1) (keyPos : UInt64)
    (isHealthy : String → Bool) : findHealthyUrl keyPos isHealthy ring =
      ((ring.filter (¬ ·.1 < keyPos) ++ ring.filter (·.1 < keyPos)).map Prod.snd).find? isHealthy := by
  obtain ⟨before,behind⟩ := split_sorted sorted keyPos
  have turned := rotate_append_length_eq (ring.takeWhile (·.1 < keyPos)) (ring.dropWhile (·.1 < keyPos))
  rw [takeWhile_append_dropWhile] at turned
  rw [findHealthyUrl,turned,walk_eq (by simp),before,behind]

variable {ρ : Type u} {position : String → Nat → UInt64} {workers rest : List (Worker ρ)}

/-- Virtual nodes of different workers have different positions. -/
def Apart (position : String → Nat → UInt64) (workers : List (Worker ρ)) : Prop :=
  ∀ one ∈ workers, ∀ other ∈ workers, ∀ left < virtualNodesPerWorker, ∀ right < virtualNodesPerWorker,
    position one.url left = position other.url right → one.url = other.url

def nodes (position : String → Nat → UInt64) (workers : List (Worker ρ)) : List (UInt64 × String) :=
  workers.flatMap fun worker => (List.range virtualNodesPerWorker).map fun vnode => (position worker.url vnode,worker.url)

theorem nodes_filter (position : String → Nat → UInt64) (keep : String → Bool) (workers : List (Worker ρ)) :
    (nodes position workers).filter (keep ·.2) = nodes position (workers.filter (keep ·.url)) := by
  induction workers with
  | nil => rfl
  | cons worker workers ih =>
    rw [nodes,flatMap_cons,filter_append,← nodes,ih,filter_cons]
    cases kept : keep worker.url <;> simp [nodes,filter_map,comp_def,kept]

theorem mem_hashRing {entry : UInt64 × String} : entry ∈ hashRing position workers ↔
    ∃ worker ∈ workers, ∃ vnode < virtualNodesPerWorker, (position worker.url vnode,worker.url) = entry := by
  simp [hashRing,mem_mergeSort]

theorem hashRing_sorted (position : String → Nat → UInt64) (workers : List (Worker ρ)) :
    (hashRing position workers).Pairwise fun left right => left.1 ≤ right.1 := by
  have sorted := @List.pairwise_mergeSort _ (fun left right : UInt64 × String => left.1 ≤ right.1) (by simpa using fun _ _ _ => UInt64.le_trans)
    (by simpa using fun _ _ => UInt64.le_total ..) (nodes position workers)
  exact sorted.imp of_decide_eq_true

theorem hashRing_filter (apart : Apart position workers) {keep : String → Bool} (perm : rest.Perm (workers.filter (keep ·.url))) :
    (hashRing position workers).filter (keep ·.2) = hashRing position rest := by
  have members : ((hashRing position workers).filter (keep ·.2)).Perm (hashRing position rest) := by
    refine ((mergeSort_perm ..).filter _).trans ?_
    rw [← nodes,nodes_filter]
    exact (perm.symm.flatMap_right _).trans (mergeSort_perm ..).symm
  refine List.Perm.eq_of_pairwise ?_ ((hashRing_sorted position workers).filter _)
    (hashRing_sorted position rest) members
  intro left right inside other below above
  obtain ⟨one,first,vnode,bound,rfl⟩ := mem_hashRing.mp (mem_filter.mp inside).1
  obtain ⟨two,second,vnode',bound',rfl⟩ := mem_hashRing.mp other
  have same := UInt64.le_antisymm below above
  rw [show position one.url vnode = position two.url vnode' from same,apart one first two (mem_filter.mp (perm.subset second)).1 vnode bound vnode' bound' same]

/-- On the ring of the kept workers the first healthy one is the first that is kept and healthy on the whole ring. -/
theorem findHealthyUrl_filter (apart : Apart position workers) (keep : String → Bool) (perm : rest.Perm (workers.filter (keep ·.url)))
    (keyPos : UInt64) (isHealthy : String → Bool) :
    findHealthyUrl keyPos isHealthy (hashRing position rest) =
      findHealthyUrl keyPos (fun url => keep url && isHealthy url) (hashRing position workers) := by
  rw [findHealthyUrl_eq (hashRing_sorted ..),findHealthyUrl_eq (hashRing_sorted ..),← hashRing_filter apart perm]
  rw [filter_comm,filter_comm (fun entry : UInt64 × String => decide (entry.1 < keyPos)),← filter_append]
  simp only [find?_map,find?_filter,comp_def,Bool.decide_and,Bool.decide_eq_true]

theorem find?_without (isHealthy : String → Bool) (down : String) (urls : List String) :
    urls.find? (fun url => url ≠ down && isHealthy url) = urls.find? isHealthy ∨ urls.find? isHealthy = some down := by
  induction urls with
  | nil => exact .inl rfl
  | cons url rest ih =>
    cases well : isHealthy url with
    | false => simpa [well] using ih
    | true =>
      by_cases same : url = down
      · exact .inr (by simp [← same,well])
      · exact .inl (by simp [well,same])

theorem findHealthyUrl_without (position : String → Nat → UInt64) (workers : List (Worker ρ)) (keyPos : UInt64) (isHealthy : String → Bool)
    (down : String) :
    findHealthyUrl keyPos (fun url => url ≠ down && isHealthy url) (hashRing position workers) =
        findHealthyUrl keyPos isHealthy (hashRing position workers) ∨
      findHealthyUrl keyPos isHealthy (hashRing position workers) = some down := by
  rw [findHealthyUrl_eq (hashRing_sorted ..),findHealthyUrl_eq (hashRing_sorted ..)]
  exact find?_without isHealthy down _

theorem perm_others {worker : Worker ρ} (distinct : (workers.map Worker.url).Nodup) (perm : workers.Perm (worker::rest)) :
    rest.Perm (workers.filter (·.url ≠ worker.url)) := by
  have apart := (perm.map Worker.url).nodup_iff.mp distinct
  rw [map_cons,nodup_cons] at apart
  have others : rest.filter (·.url ≠ worker.url) = rest := by
    refine filter_eq_self.mpr fun other member => decide_eq_true fun same => apart.1 ?_
    exact same ▸ mem_map_of_mem member
  have kept := (perm.filter (·.url ≠ worker.url)).symm
  rwa [filter_cons_of_neg (by simp),others] at kept

/-- The ring of all workers gives what the ring of the healthy ones gives. With a worker more or less, or one unhealthy, the result
    changes only to or from that worker. -/
theorem keys_stay (apart : Apart position workers) (distinct : (workers.map Worker.url).Nodup) (keyPos : UInt64) (isHealthy : String → Bool) :
    findHealthyUrl keyPos isHealthy (hashRing position workers) =
      findHealthyUrl keyPos isHealthy (hashRing position (workers.filter (isHealthy ·.url))) ∧
    (∀ worker rest, workers.Perm (worker::rest) →
      findHealthyUrl keyPos isHealthy (hashRing position rest) = findHealthyUrl keyPos isHealthy (hashRing position workers) ∨
      findHealthyUrl keyPos isHealthy (hashRing position workers) = some worker.url) ∧
    ∀ down, findHealthyUrl keyPos (fun url => url ≠ down && isHealthy url) (hashRing position workers) =
        findHealthyUrl keyPos isHealthy (hashRing position workers) ∨
      findHealthyUrl keyPos isHealthy (hashRing position workers) = some down := by
  refine ⟨?_,fun worker rest perm => ?_,findHealthyUrl_without position workers keyPos isHealthy⟩
  · rw [findHealthyUrl_filter apart isHealthy (List.Perm.refl _)]
    simp only [Bool.and_self]
  · rw [findHealthyUrl_filter apart (· ≠ worker.url) (perm_others distinct perm)]
    exact findHealthyUrl_without position workers keyPos isHealthy worker.url

def pair : List (Worker Unit) := [⟨"a","m",.regular,.http,()⟩,⟨"bb","m",.regular,.http,()⟩]

theorem pair_apart : Apart (fun url _ => if url = "a" then 1 else 2) pair := by
  unfold Apart pair
  simp

theorem keys_stay_pair : findHealthyUrl 0 (· = "bb") (hashRing (fun url _ => if url = "a" then 1 else 2) pair) =
    findHealthyUrl 0 (· = "bb") (hashRing (fun url _ => if url = "a" then 1 else 2) (pair.filter (·.url = "bb"))) :=
  (keys_stay pair_apart (by decide) 0 (· = "bb")).1

end Hypic.HashRing
