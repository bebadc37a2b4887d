import Hypic.RadixEvents

/-! Routing by announcements. Once the router has applied what its workers announced, in any interleaving, a prompt's block hashes
    lead it to the workers whose caches match most of the prompt. -/

namespace Hypic.EventRouting
open Policy Agree Forest RadixTree KvEvents Pages Chunks BlockHash HashTree Radix RadixCache List
universe u
variable {ω : Type u} [DecidableEq ω]

/-- The hashes the router asks its tree about, in the mode of the workers. -/
def promptHashes (params : CacheInitParams) (tokenIds : List Token) : List Int :=
  if params.isEagle then computeBlockHashesBigram params.sha256 tokenIds params.pageSize
  else computeBlockHashes params.sha256 tokenIds params.pageSize

/-- The key of a prompt. -/
def promptKey (tokenIds : List Token) : RadixKey := ⟨tokenIds,none,false,none⟩

/-- The whole pages a worker's cache matches of a prompt. -/
def matchedPages (params : CacheInitParams) (cache : RadixCache) (tokenIds : List Token) (now : Int) : Nat :=
  (cache.matchPrefix params (promptKey tokenIds) now).1.deviceIndices.length / params.pageSize

def insertedKeys (history : List Action) : List RadixKey :=
  history.filterMap (fun action => match action with
    | .insert given _ => some given.key
    | _ => none)

/-- The chains of pages that occur: those of the keys inserted and of the prompt. -/
def occurring (params : CacheInitParams) (fleet : List ω) (history : ω → List Action) (tokenIds : List Token) : List (List (List KeyUnit)) :=
  (fleet.flatMap (fun worker => (insertedKeys (history worker)).map (fun key => (lookupKey params key).units)) ++
    [RadixKey.unitsFrom params.isEagle tokenIds]).flatMap (fun units => (chunks params.pageSize units).inits)

/-- All that the workers of a fleet announced, each worker's announcements in their order. -/
structure Delivered (fleet : List ω) (caches : ω → RadixCache) (merged : List (ω × KvEvent)) : Prop where
  own : ∀ worker ∈ fleet, eventsOf worker merged = (caches worker).kvEventQueue
  only : ∀ event ∈ merged, event.1 ∈ fleet

variable {params : CacheInitParams} {cache : RadixCache}

/-! ### Hashes and pages of a prompt -/

theorem digests_hashesFrom {sha256 : List UInt8 → Digest} (before rest : List (List KeyUnit)) :
    (digests sha256 (lastDigest sha256 none before) rest).map hashStrToInt64 = hashesFrom (chainHash sha256) before rest := by
  induction rest generalizing before with
  | nil => rfl
  | cons page rest ih =>
    have later := ih (before ++ [page])
    rw [lastDigest_concat] at later
    rw [digests,map_cons,later,hashesFrom,chainHash_concat]

theorem promptHashes_eq (params : CacheInitParams) (tokenIds : List Token) :
    promptHashes params tokenIds =
      hashesFrom (chainHash params.sha256) [] (chunks params.pageSize (RadixKey.unitsFrom params.isEagle tokenIds)) := by
  rw [← digests_hashesFrom,lastDigest_nil,promptHashes]
  cases params.isEagle with
  | true => rw [if_pos rfl,computeBlockHashesBigram_eq params.pagePositive]
  | false => rw [if_neg (by decide),computeBlockHashes_eq params.pagePositive]

theorem lookupKey_promptKey (params : CacheInitParams) (tokenIds : List Token) :
    (lookupKey params (promptKey tokenIds)).units = (RadixKey.unitsFrom params.isEagle tokenIds).take
      ((RadixKey.unitsFrom params.isEagle tokenIds).length / params.pageSize * params.pageSize) := by
  have view : ((promptKey tokenIds).maybeToBigramView params.isEagle none).1 = ⟨tokenIds,none,params.isEagle,none⟩ := by
    cases isEagle : params.isEagle <;> simp [RadixKey.maybeToBigramView,promptKey]
  have units : RadixKey.units ⟨tokenIds,none,params.isEagle,none⟩ = RadixKey.unitsFrom params.isEagle tokenIds :=
    RadixKey.units_of_limit rfl
  rw [lookupKey,view,RadixKey.pageAligned_units,← RadixKey.units_length,units]

theorem matchedPages_eq (sound : Sound params cache) (tokenIds : List Token) (now : Int) :
    matchedPages params cache tokenIds now =
      (trace params.pageSize none (RadixKey.unitsFrom params.isEagle tokenIds) cache.forest).length / params.pageSize := by
  have positive := params.pagePositive
  have aligned : params.pageSize ∣ (trace params.pageSize none (RadixKey.unitsFrom params.isEagle tokenIds) cache.forest).length :=
    trace_length_dvd sound.tidy _
  have bound : (trace params.pageSize none (RadixKey.unitsFrom params.isEagle tokenIds) cache.forest).length ≤ _ :=
    trace_length_le sound.tidy (RadixKey.unitsFrom params.isEagle tokenIds)
  rw [matchedPages,(matchPrefix_spec sound (promptKey tokenIds) now).1,lookupKey_promptKey,RadixCache.pages,sound.tidy.along positive]
  rw [show (promptKey tokenIds).extraKey = none from rfl,trace_take positive sound.tidy _ (Nat.dvd_mul_left ..),
    take_of_length_le ((le_floor_iff positive aligned).mpr bound)]

theorem matchedPages_le (sound : Sound params cache) (tokenIds : List Token) (now : Int) :
    matchedPages params cache tokenIds now ≤ (chunks params.pageSize (RadixKey.unitsFrom params.isEagle tokenIds)).length := by
  have positive := params.pagePositive
  have short : (trace params.pageSize none (RadixKey.unitsFrom params.isEagle tokenIds) cache.forest).length ≤ _ :=
    trace_length_le sound.tidy (RadixKey.unitsFrom params.isEagle tokenIds)
  rw [matchedPages_eq sound,chunks_length]
  refine (Nat.div_le_div_right short).trans ?_
  exact Nat.le_of_mul_le_mul_right ((Nat.div_mul_le_self ..).trans (le_ceil_mul positive _)) positive

section Plain
variable (sound : Sound params cache) (plain : ∀ extraKey units, (cache.pages params extraKey units).isSome = true → extraKey = none)
include sound plain

/-- A cache holds the chain of the first pages of a sequence when its tree holds so many along it. -/
theorem take_mem_chains (units : List KeyUnit) {count : Nat} (some : 0 < count)
    (inside : count ≤ (chunks params.pageSize units).length) :
    (chunks params.pageSize units).take count ∈ cache.chains params ↔
      count * params.pageSize ≤ (trace params.pageSize none units cache.forest).length := by
  have positive := params.pagePositive
  have bound : (trace params.pageSize none units cache.forest).length ≤ units.length := trace_length_le sound.tidy units
  constructor
  · rintro ⟨extraKey,sought,present,same⟩
    obtain rfl := plain extraKey sought present
    have paged := (pages_isSome.mp present).1
    -- only whole pages are held, so the last of them is one
    have within : count * params.pageSize ≤ units.length := by
      rw [chunks_length] at inside
      have last : (chunks params.pageSize units)[count - 1]? = .some ((units.drop ((count - 1) * params.pageSize)).take params.pageSize) :=
        chunks_getElem? units (by omega)
      have member : (units.drop ((count - 1) * params.pageSize)).take params.pageSize ∈ chunks params.pageSize sought := by
        rw [← same,mem_iff_getElem?]
        exact ⟨count - 1,by rw [getElem?_take,if_pos (by omega)]; exact last⟩
      have full := length_of_mem_chunks positive paged.2 member
      rw [length_take,length_drop] at full
      have split : count * params.pageSize = (count - 1) * params.pageSize + params.pageSize := by
        rw [← Nat.succ_mul,Nat.succ_eq_add_one,Nat.sub_add_cancel some]
      omega
    have sized : (units.take (count * params.pageSize)).length = count * params.pageSize := by rw [length_take_of_le within]
    rw [← chunks_take positive units within] at same
    have equal := chunks_injective positive (by rw [sized]; exact Nat.dvd_mul_left ..) paged.2 same
    rw [← equal] at present
    exact (pages_take_isSome sound units (Nat.dvd_mul_left ..) (Nat.mul_pos some positive) within).mp present
  · intro held
    have within := held.trans bound
    exact ⟨_,_,(pages_take_isSome sound units (Nat.dvd_mul_left ..) (Nat.mul_pos some positive) within).mpr held,
      (chunks_take positive units within).symm⟩

theorem prompt_mem_chains (tokenIds : List Token) (now : Int) {count : Nat} (some : 0 < count)
    (inside : count ≤ (chunks params.pageSize (RadixKey.unitsFrom params.isEagle tokenIds)).length) :
    (chunks params.pageSize (RadixKey.unitsFrom params.isEagle tokenIds)).take count ∈ cache.chains params ↔
      count ≤ matchedPages params cache tokenIds now := by
  rw [take_mem_chains sound plain _ some inside,matchedPages_eq sound,Nat.le_div_iff_mul_le params.pagePositive]

theorem chains_closed {chain start : List (List KeyUnit)} (held : chain ∈ cache.chains params) (some : start ≠ [])
    (starts : start <+: chain) : start ∈ cache.chains params := by
  have positive := params.pagePositive
  obtain ⟨extraKey,units,present,rfl⟩ := held
  obtain rfl := plain extraKey units present
  have isTake := prefix_iff_eq_take.mp starts
  obtain ⟨paged,whole⟩ := pages_isSome.mp present
  have nonzero := length_pos_iff_ne_nil.mpr some
  rw [isTake]
  refine (take_mem_chains sound plain units nonzero starts.length_le).mpr ?_
  have bound := starts.length_le
  obtain ⟨count,isCount⟩ := paged.2
  rw [chunks_length,isCount,Nat.mul_comm,ceil_mul positive] at bound
  rw [whole,isCount,Nat.mul_comm params.pageSize]
  exact Nat.mul_le_mul_right _ bound

end Plain

theorem mem_insertedKeys {history : List Action} {given : InsertParams} {now : Int} (member : Action.insert given now ∈ history) :
    given.key ∈ insertedKeys history := mem_filterMap.mpr ⟨_,member,rfl⟩

/-! ### The router finds the best workers -/

/-- The params of one worker of a fleet: all share the page size, the mode and the hash, each has its own eviction policy. -/
def workerParams (params : CacheInitParams) (policy : ω → EvictionPolicy) (worker : ω) : CacheInitParams :=
  { params with evictionPolicy := policy worker }

/-- Once all announcements are applied, the router reports as many blocks as any worker matches and, if there are any, exactly the
    workers that match as many. -/
theorem routing_sees_caches (params : CacheInitParams) (enabled : params.enableKvCacheEvents = true) (policy : ω → EvictionPolicy)
    (fleet : List ω) (history : ω → List Action) (caches : ω → RadixCache)
    (executed : ∀ worker ∈ fleet, Runs.run (step (workerParams params policy worker)) (reset (workerParams params policy worker))
      (history worker) = some (caches worker))
    (plain : ∀ worker ∈ fleet, ∀ key ∈ insertedKeys (history worker), key.extraKey = none)
    (merged : List (ω × KvEvent)) (delivered : Delivered fleet caches merged) (tokenIds : List Token) (now : Int)
    (apart : Set.InjOn (chainHash params.sha256) { chain | chain ∈ occurring params fleet history tokenIds }) :
    let result := (TreeState.applyAll merged).matchPrefix none (promptHashes params tokenIds)
    let reach := fun worker => matchedPages (workerParams params policy worker) (caches worker) tokenIds now
    (∀ worker ∈ fleet, reach worker ≤ result.matchedBlocks) ∧
      (0 < result.matchedBlocks → (∃ worker ∈ fleet, reach worker = result.matchedBlocks) ∧
        ∀ worker, worker ∈ result.workers ↔ worker ∈ fleet ∧ reach worker = result.matchedBlocks) ∧
      (result.matchedBlocks = 0 → result.workers = []) := by
  dsimp only
  let chain := chunks params.pageSize (RadixKey.unitsFrom params.isEagle tokenIds)
  let held (worker : ω) : Set (List (List KeyUnit)) :=
    if worker ∈ fleet then (caches worker).chains (workerParams params policy worker) else ∅
  have announced (worker : ω) (member : worker ∈ fleet) :
      Announced (workerParams params policy worker) { chain | chain ∈ occurring params fleet history tokenIds } [] (caches worker) := by
    refine run_announced enabled (fun given now inserted => plain worker member _ (mem_insertedKeys inserted)) ?_ (executed worker member)
    rintro sought ⟨-,given,now,inserted,starts⟩
    refine mem_flatMap.mpr ⟨(lookupKey params given.key).units,mem_append_left _ ?_,(mem_inits _ _).mpr starts⟩
    exact mem_flatMap.mpr ⟨worker,member,mem_map_of_mem (mem_insertedKeys inserted)⟩
  have unkeyed (worker : ω) (member : worker ∈ fleet) (extraKey : Option String) (units : List KeyUnit)
      (present : ((caches worker).pages (workerParams params policy worker) extraKey units).isSome = true) : extraKey = none := by
    obtain ⟨page,isPage⟩ := isSome_iff_exists.mp present
    obtain ⟨given,now,inserted,rfl,-⟩ := pages_donated (executed worker member) isPage
    exact plain worker member _ (mem_insertedKeys inserted)
  have announces (worker : ω) :
      Announces (chainHash params.sha256) { chain | chain ∈ occurring params fleet history tokenIds } (eventsOf worker merged) (held worker) := by
    by_cases member : worker ∈ fleet
    · rw [delivered.own worker member]
      show Announces _ _ _ (if worker ∈ fleet then _ else _)
      rw [if_pos member]
      obtain ⟨later,queue,announces⟩ := (announced worker member).announces
      rw [queue]
      exact announces
    · have nothing : eventsOf worker merged = [] := by
        rw [eventsOf,map_eq_nil_iff,filter_eq_nil_iff]
        intro event inside own
        exact member (by rw [← of_decide_eq_true own]; exact delivered.only event inside)
      rw [nothing]
      show Announces _ _ _ (if worker ∈ fleet then _ else _)
      rw [if_neg member]
      exact .nothing
  obtain ⟨indexed,tended⟩ := applyAll_indexed apart merged held announces
  have closed : ∀ worker, ∀ chain ∈ held worker, ∀ start, start ≠ [] → start <+: chain → start ∈ held worker := by
    intro worker sought inside start some starts
    by_cases member : worker ∈ fleet
    · simp only [held,if_pos member] at inside ⊢
      exact chains_closed (announced worker member).sound (unkeyed worker member) inside some starts
    · simp only [held,if_neg member] at inside
      cases inside
  have occurs : ∀ start, start ≠ [] → start <+: chain → start ∈ { chain | chain ∈ occurring params fleet history tokenIds } := by
    intro start _ starts
    exact mem_flatMap.mpr ⟨_,mem_append_right _ (mem_singleton_self _),(mem_inits _ _).mpr starts⟩
  obtain ⟨bound,longest,found,nothing⟩ := indexed.matchPrefix tended apart closed chain occurs
  rw [← promptHashes_eq] at bound longest found nothing
  -- a worker holds the chain of the first pages when it matches as many
  have holds (worker : ω) {count : Nat} (some : 0 < count) (inside : count ≤ chain.length) :
      chain.take count ∈ held worker ↔
        worker ∈ fleet ∧ count ≤ matchedPages (workerParams params policy worker) (caches worker) tokenIds now := by
    by_cases member : worker ∈ fleet
    · simp only [held,if_pos member]
      exact (prompt_mem_chains (announced worker member).sound (unkeyed worker member) tokenIds now some inside).trans ⟨fun less => ⟨member,less⟩,fun both => both.2⟩
    · refine ⟨fun inside => ?_,fun both => absurd both.1 member⟩
      simp only [held,if_neg member] at inside
      cases inside
  have reaches (worker : ω) (member : worker ∈ fleet) :
      matchedPages (workerParams params policy worker) (caches worker) tokenIds now ≤ chain.length :=
    matchedPages_le (announced worker member).sound tokenIds now
  have most (worker : ω) (member : worker ∈ fleet) :
      matchedPages (workerParams params policy worker) (caches worker) tokenIds now ≤
        ((TreeState.applyAll merged).matchPrefix none (promptHashes params tokenIds)).matchedBlocks := by
    rcases Nat.eq_zero_or_pos (matchedPages (workerParams params policy worker) (caches worker) tokenIds now) with none | some
    · omega
    · exact longest worker _ (reaches worker member) ((holds worker some (reaches worker member)).mpr ⟨member,le_rfl⟩)
  refine ⟨most,fun some => ?_,nothing⟩
  obtain ⟨⟨best,isBest⟩,workers⟩ := found some
  have attains (worker : ω) : chain.take ((TreeState.applyAll merged).matchPrefix none (promptHashes params tokenIds)).matchedBlocks ∈ held worker ↔
      worker ∈ fleet ∧ matchedPages (workerParams params policy worker) (caches worker) tokenIds now =
        ((TreeState.applyAll merged).matchPrefix none (promptHashes params tokenIds)).matchedBlocks := by
    rw [holds worker some bound]
    exact ⟨fun both => ⟨both.1,le_antisymm (most worker both.1) both.2⟩,fun both => ⟨both.1,both.2.ge⟩⟩
  exact ⟨⟨best,(attains best).mp isBest⟩,fun worker => (workers worker).trans (attains worker)⟩

/-- Pages of two, plain keys and announcements, hashed to one byte. -/
def byteHashed : CacheInitParams := ⟨2,Nat.zero_lt_two,false,true,.lru,fun bytes => [bytes.foldl (fun sum byte => sum * 31 + byte) 7]⟩

/-- Two workers that agree on their first page. -/
def parted : Nat → List Action
  | 0 => [.insert (given [1,2,3,4] none [40,41,42,43] (by decide)) 1]
  | _ => [.insert (given [1,2,5,6] none [50,51,52,53] (by decide)) 1,.evict 1 [1],.insert (given [1,2] none [60,61] (by decide)) 2]

def partedCaches (worker : Nat) : RadixCache :=
  (Runs.run (step (workerParams byteHashed (fun _ => .lru) worker)) (reset (workerParams byteHashed (fun _ => .lru) worker))
    (parted worker)).getD (reset byteHashed)

/-- The second worker's announcements come between those of the first. -/
def partedEvents : List (Nat × KvEvent) :=
  ((partedCaches 0).kvEventQueue.take 2).map (Prod.mk 0) ++ (partedCaches 1).kvEventQueue.map (Prod.mk 1) ++
    ((partedCaches 0).kvEventQueue.drop 2).map (Prod.mk 0)

theorem routing_sees_caches_parted :
    let result := (TreeState.applyAll partedEvents).matchPrefix none (promptHashes byteHashed [1,2,3,4,9])
    result.matchedBlocks = 2 ∧ ∀ worker, worker ∈ result.workers ↔ worker ∈ [0,1] ∧
      matchedPages (workerParams byteHashed (fun _ => .lru) worker) (partedCaches worker) [1,2,3,4,9] 5 = 2 := by
  have two : ((TreeState.applyAll partedEvents).matchPrefix none (promptHashes byteHashed [1,2,3,4,9])).matchedBlocks = 2 := by decide +kernel
  have executed : ∀ worker ∈ [0,1], Runs.run (step (workerParams byteHashed (fun _ => .lru) worker))
      (reset (workerParams byteHashed (fun _ => .lru) worker)) (parted worker) = some (partedCaches worker) := by decide +kernel
  have apart : Set.InjOn (chainHash byteHashed.sha256) { chain | chain ∈ occurring byteHashed [0,1] parted [1,2,3,4,9] } := by
    have listed : ∀ left ∈ occurring byteHashed [0,1] parted [1,2,3,4,9], ∀ right ∈ occurring byteHashed [0,1] parted [1,2,3,4,9],
        chainHash byteHashed.sha256 left = chainHash byteHashed.sha256 right → left = right := by decide +kernel
    exact fun left inLeft right inRight => listed left inLeft right inRight
  have sees := routing_sees_caches byteHashed rfl (fun _ => .lru) [0,1] parted partedCaches executed (by decide +kernel) partedEvents
    ⟨by decide +kernel,by decide +kernel⟩ [1,2,3,4,9] 5 apart
  dsimp only at sees
  rw [two] at sees
  exact ⟨two,(sees.2.1 (by decide)).2⟩

/-- Where no worker matches a page all of them match as many, and the router reports none. -/
theorem routing_unmatched :
    let result := (TreeState.applyAll [((0 : Nat),KvEvent.allBlocksCleared)]).matchPrefix none (promptHashes byteHashed [1,2])
    eventsOf 0 [((0 : Nat),KvEvent.allBlocksCleared)] = (reset byteHashed).kvEventQueue ∧
      result.matchedBlocks = 0 ∧ matchedPages byteHashed (reset byteHashed) [1,2] 1 = 0 ∧ 0 ∉ result.workers := by decide +kernel

/-! ### Replaying what a cache tells -/

/-- The block hashes that one who hears the announcements keeps. -/
def replay (events : List KvEvent) : List Int :=
  events.foldl (fun held event => match event with
    | .blockStored blockHashes _ _ _ => held ++ blockHashes
    | .blockRemoved blockHashes => held.filter (· ∉ blockHashes)
    | .allBlocksCleared => []) []

theorem announces_replay {code : List (List KeyUnit) → Int} {known held : Set (List (List KeyUnit))} {events : List KvEvent}
    (apart : known.InjOn code) (announces : Announces code known events held) :
    held ⊆ known ∧ ∀ hash, hash ∈ replay events ↔ ∃ chain ∈ held, code chain = hash := by
  induction announces with
  | nothing => simp [replay]
  | cleared => simp [replay]
  | stored earlier present occurs ih =>
    refine ⟨Set.insert_subset occurs ih.1,fun hash => ?_⟩
    have told := ih.2 hash
    rw [replay] at told
    simp only [replay,foldl_append,foldl_cons,foldl_nil,mem_append,told]
    simp [or_comm,eq_comm]
  | @removed events held chain earlier present ih =>
    refine ⟨Set.sdiff_subset.trans ih.1,fun hash => ?_⟩
    have told := ih.2 hash
    rw [replay] at told
    simp only [replay,foldl_append,foldl_cons,foldl_nil,mem_filter,told,mem_singleton,decide_eq_true_eq]
    constructor
    · rintro ⟨⟨other,inside,rfl⟩,spared⟩
      exact ⟨other,⟨inside,fun same => spared (congrArg code same)⟩,rfl⟩
    · rintro ⟨other,⟨inside,differs⟩,rfl⟩
      exact ⟨⟨other,inside,rfl⟩,fun same => differs (apart (ih.1 inside) (ih.1 present) same)⟩

/-- The calls of a cache; `none` is `reset`, which keeps the queue of events and the counter of nodes. -/
def call (params : CacheInitParams) (cache : RadixCache) : Option Action → Option RadixCache
  | some action => step params cache action
  | none => some { reset params with
      counter := cache.counter + 1, kvEventQueue := cache.kvEventQueue ++ (reset params).kvEventQueue }

/-- No start of an inserted key is held under another `extra_key`. -/
def Namespaced (params : CacheInitParams) (cache : RadixCache) (called : Option Action) : Prop := ∀ action ∈ called, Separate params cache action

theorem calls_announced {known : Set (List (List KeyUnit))} {past : List KvEvent} {final : RadixCache}
    (enabled : params.enableKvCacheEvents = true) {history : List (Option Action)} (announced : Announced params known past cache)
    (separate : Runs.Guarded (call params) (Namespaced params) cache history) (covers : InsertedChains params history.reduceOption ⊆ known)
    (executed : Runs.run (call params) cache history = some final) : ∃ past, Announced params known past final := by
  induction history generalizing cache past with
  | nil =>
    cases executed
    exact ⟨past,announced⟩
  | cons called rest ih =>
    obtain ⟨next,stepped,ran⟩ := Runs.run_cons.mp executed
    cases called with
    | none =>
      cases stepped
      exact ih (reset_announced enabled _ _) (separate.2 _ rfl) covers ran
    | some action =>
      have first : InsertedChains params [action] ⊆ known :=
        (InsertedChains.mono (show [action] ⊆ action::rest.reduceOption by simp)).trans covers
      have others : InsertedChains params rest.reduceOption ⊆ known := (InsertedChains.mono (subset_cons_self action _)).trans covers
      exact ih (announced.step enabled (separate.1 action rfl) first stepped) (separate.2 next stepped) others ran

/-- Replaying the events gives exactly the hashes of the pages held, as long as no two namespaces share a first page. -/
theorem events_tell_pages (enabled : params.enableKvCacheEvents = true) {history : List (Option Action)}
    (separate : Runs.Guarded (call params) (Namespaced params) (reset params) history)
    (apart : Set.InjOn (chainHash params.sha256) (InsertedChains params history.reduceOption))
    (executed : Runs.run (call params) (reset params) history = some cache) (hash : Int) :
    hash ∈ replay cache.kvEventQueue ↔ ∃ chain ∈ cache.chains params, chainHash params.sha256 chain = hash := by
  obtain ⟨past,announced⟩ := calls_announced enabled (reset_announced enabled 1 []) separate Set.Subset.rfl executed
  obtain ⟨later,queue,announces⟩ := announced.announces
  rw [queue,replay,foldl_append]
  exact (announces_replay apart announces).2 hash

/-- A page inserted in one namespace and, after a reset, in another. -/
def renamed : List (Option Action) :=
  [some (.insert (given [1,2] (some "a") [40,41] (by decide)) 1),none,some (.insert (given [1,2] none [50,51] (by decide)) 2)]

def renamedCache : RadixCache := (Runs.run (call byteHashed) (reset byteHashed) renamed).getD (reset byteHashed)

theorem events_tell_renamed : ∃ chain ∈ renamedCache.chains byteHashed,
    chainHash byteHashed.sha256 chain = chainHash byteHashed.sha256 [[.token 1,.token 2]] := by
  have executed : Runs.run (call byteHashed) (reset byteHashed) renamed = some renamedCache := by decide +kernel
  have separate : Runs.Guarded (call byteHashed) (Namespaced byteHashed) (reset byteHashed) renamed := by
    refine ⟨?_,fun next _ => ⟨fun _ absent => (by cases absent),fun cleared isCleared => ⟨?_,fun _ _ => trivial⟩⟩⟩
    · rintro _ ⟨⟩ extraKey units present
      exact absurd present reset_pages
    · cases isCleared
      rintro _ ⟨⟩ extraKey units present
      exact absurd present reset_pages
  have single : ∀ chain ∈ InsertedChains byteHashed renamed.reduceOption, chain = [[.token 1,.token 2]] := by
    rintro chain ⟨some,given,now,member,leads⟩
    have pages : chunks 2 (lookupKey byteHashed given.key).units = [[.token 1,.token 2]] := by
      rcases mem_pair.mp member with same | same <;> cases same <;> decide +kernel
    rw [show byteHashed.pageSize = 2 from rfl,pages,prefix_cons_iff] at leads
    simpa [some] using leads
  refine (events_tell_pages rfl separate (fun left inLeft right inRight _ => ?_) executed _).mp (by decide +kernel)
  rw [single left inLeft,single right inRight]

/-- The same page in two namespaces: the eviction of one is heard as the eviction of both. -/
theorem shared_page_unheard :
    (Runs.run (call byteHashed) (reset byteHashed) [some (.insert (given [1,2] (some "a") [40,41] (by decide)) 1),
      some (.insert (given [1,2] none [50,51] (by decide)) 2),some (.evict 1 [1,2])]).map (fun cache =>
        (replay cache.kvEventQueue,(cache.matchPrefix byteHashed (promptKey [1,2]) 3).1.deviceIndices)) = some ([],[50,51]) := by
  decide +kernel

end Hypic.EventRouting
