import Hypic.BlockHash
import Hypic.HashTreeIndex
import Hypic.RadixRefine

/-! What a radix cache announces. Every node keeps the digests of its pages, chained along the way from the root, so the events
    tell exactly which chains of pages the cache holds. -/

namespace Hypic.Radix
open Policy Agree Forest RadixTree KvEvents Pages Chunks BlockHash HashTree RadixCache List Option
variable {sha256 : List UInt8 → Digest} {pageSize : Nat} {scope : Option (Option String)} {forest : Forest TreeNode} {prior : Option Digest}

/-- Every node keeps the digests of its pages, after those above it. -/
def Hashed (sha256 : List UInt8 → Digest) (pageSize : Nat) : Option Digest → Forest TreeNode → Prop
  | _, .nil => True
  | prior, .cons node children rest =>
    node.data.hashValue = some (digests sha256 prior (chunks pageSize node.units)) ∧
      Hashed sha256 pageSize (lastDigest sha256 prior (chunks pageSize node.units)) children ∧ Hashed sha256 pageSize prior rest

/-- Visits that keep the digests with the pages and compute those of a new leaf. -/
structure Hashing (sha256 : List UInt8 → Digest) (pageSize : Nat) (visit : Visit TreeData) : Prop where
  touch : ∀ data, (visit.touch data).hashValue = data.hashValue
  pass : ∀ data, (visit.pass data).hashValue = data.hashValue
  divide : ∀ splitLen data, (visit.divide splitLen data).1.hashValue = (splitNodeHashValue pageSize data.hashValue splitLen).1 ∧
    (visit.divide splitLen data).2.hashValue = (splitNodeHashValue pageSize data.hashValue splitLen).2
  grow : ∀ grow ∈ visit.grow, ∀ parent key,
    (grow parent key).hashValue = some (computeNodeHashValues sha256 pageSize (parentHashes parent) key)

theorem match_hashing (params : CacheInitParams) (now : Int) : Hashing params.sha256 params.pageSize (matchVisit params now) :=
  ⟨fun _ => rfl,fun _ => rfl,fun _ _ => ⟨rfl,rfl⟩,nofun⟩

theorem insert_hashing {params : CacheInitParams} (enabled : params.enableKvCacheEvents = true) (now priority : Int) (chunked : Bool) :
    Hashing params.sha256 params.pageSize (insertVisit params now priority chunked) := by
  refine ⟨fun _ => rfl,fun _ => rfl,fun _ _ => ⟨rfl,rfl⟩,?_⟩
  rintro grow ⟨⟩ parent key
  exact if_pos enabled

theorem parentHashes_last (positive : 0 < pageSize) {node : TreeNode} (whole : node.Whole pageSize)
    (hashes : node.data.hashValue = some (digests sha256 prior (chunks pageSize node.units))) :
    (parentHashes (some node)).bind List.getLast? = lastDigest sha256 prior (chunks pageSize node.units) := by
  rw [parentHashes,bind_some,hashes,bind_some,digests_last]
  rw [Ne,chunks_eq_nil positive,← length_eq_zero_iff,units_length]
  exact whole.positive.ne'

section Walk
variable {visit : Visit TreeData} (hashing : Hashing sha256 pageSize visit) (positive : 0 < pageSize)
include hashing

theorem met_hashValue (node : TreeNode) : (node.met visit).data.hashValue = node.data.hashValue :=
  (hashing.pass _).trans (hashing.touch _)

theorem hashed_single {parent : Option TreeNode} {key : RadixKey} {value : List Slot} {counter : Nat}
    (above : (parentHashes parent).bind List.getLast? = prior) :
    Hashed sha256 pageSize prior (single (newLeaf pageSize visit parent key value counter)) := by
  cases grown : newLeaf pageSize visit parent key value counter with
  | none => trivial
  | some leaf =>
    obtain ⟨-,sameKey,-,-,-,data,isGrow,isData⟩ := newLeaf_eq_some grown
    refine ⟨?_,trivial,trivial⟩
    rw [isData,hashing.grow data isGrow,computeNodeHashValues_eq,above,Node.units,sameKey]

include positive

theorem halves_hashValue {node : TreeNode} {splitLen : Nat} (aligned : pageSize ∣ splitLen)
    (inside : splitLen < node.key.length) (counter : Nat) (hashes : node.data.hashValue = some (digests sha256 prior (chunks pageSize node.units))) :
    let upper := (halves pageSize visit counter node splitLen).1
    let lower := (halves pageSize visit counter node splitLen).2
    upper.data.hashValue = some (digests sha256 prior (chunks pageSize upper.units)) ∧
      lower.data.hashValue = some (digests sha256 (lastDigest sha256 prior (chunks pageSize upper.units)) (chunks pageSize lower.units)) ∧
      chunks pageSize node.units = chunks pageSize upper.units ++ chunks pageSize lower.units := by
  dsimp only
  have length : (node.units.take splitLen).length = splitLen := by
    rw [length_take,units_length,min_eq_left inside.le]
  have parts : chunks pageSize node.units = chunks pageSize (node.units.take splitLen) ++ chunks pageSize (node.units.drop splitLen) := by
    rw [← chunks_append positive (by rw [length]; exact aligned),take_append_drop]
  have count : (digests sha256 prior (chunks pageSize (node.units.take splitLen))).length = splitLen / pageSize := by
    obtain ⟨pages,rfl⟩ := aligned
    rw [digests_length,chunks_length,length,Nat.mul_comm,ceil_mul positive,Nat.mul_div_cancel _ positive]
  have divided := hashing.divide splitLen (visit.touch node.data)
  rw [hashing.touch,hashes,parts,digests_append,splitNodeHashValue] at divided
  dsimp only at divided
  rw [take_left' count,drop_left' count] at divided
  rw [upper_units,lower_units]
  exact ⟨(hashing.pass _).trans divided.1,divided.2,parts⟩

theorem walk_hashed {value : List Slot} {counter : Nat} {parent : Option TreeNode} {key : RadixKey} {walked : Walked TreeData}
    (walks : Walks pageSize visit counter parent forest key value walked) (above : (parentHashes parent).bind List.getLast? = prior)
    (hashed : Hashed sha256 pageSize prior forest) : Hashed sha256 pageSize prior walked.forest := by
  induction walks generalizing prior with
  | leaf grown =>
    rw [← grown]
    exact hashed_single hashing above
  | other _ _ _ ih => exact ⟨hashed.1,hashed.2.1,ih above hashed.2.2⟩
  | split whole _ _ inside nonzero aligned grown =>
    obtain ⟨hashes,underHashed,afterHashed⟩ := hashed
    obtain ⟨upper,lower,parts⟩ := halves_hashValue hashing positive aligned inside counter hashes
    rw [← grown]
    refine ⟨upper,⟨lower,?_,hashed_single hashing
      (parentHashes_last positive (whole.upper visit counter aligned nonzero inside) upper)⟩,afterHashed⟩
    rw [← lastDigest_append,← parts]
    exact underHashed
  | @deeper _ node _ _ _ _ _ whole _ _ _ ih =>
    have met := (met_hashValue hashing node).trans hashed.1
    exact ⟨met,ih (parentHashes_last positive whole.met met) hashed.2.1,hashed.2.2⟩

end Walk

theorem Hashed.map {change : TreeNode → TreeNode} (sameKey : ∀ node, (change node).key = node.key)
    (sameHash : ∀ node, (change node).data.hashValue = node.data.hashValue) (hashed : Hashed sha256 pageSize prior forest) :
    Hashed sha256 pageSize prior (forest.map change) := by
  induction forest generalizing prior with
  | nil => trivial
  | cons node under after inChildren inRest =>
    obtain ⟨hashes,underHashed,afterHashed⟩ := hashed
    have units : (change node).units = node.units := by rw [Node.units,Node.units,sameKey]
    refine ⟨by rw [sameHash,units]; exact hashes,?_,inRest afterHashed⟩
    rw [units]
    exact inChildren underHashed

theorem Hashed.erase (id : Nat) (hashed : Hashed sha256 pageSize prior forest) :
    Hashed sha256 pageSize prior (Forest.erase Node.id id forest) := by
  induction forest generalizing prior with
  | nil => trivial
  | cons node under after inChildren inRest =>
    obtain ⟨hashes,underHashed,afterHashed⟩ := hashed
    rw [Forest.erase]
    split
    · exact afterHashed
    · exact ⟨hashes,inChildren underHashed,inRest afterHashed⟩

theorem way_aligned (tidy : Tidy pageSize scope forest) {way : List (TreeNode × Forest TreeNode)} (inside : way ⊆ forest.subtrees) :
    pageSize ∣ (wayUnits way).length := by
  induction way with
  | nil => exact Nat.dvd_zero _
  | cons step rest ih =>
    rw [wayUnits_cons,length_append,units_length]
    exact Nat.dvd_add (tidy.whole_of_mem (inside mem_cons_self)).aligned (ih (fun inner member => inside (mem_cons_of_mem _ member)))

theorem Hashed.way (hashed : Hashed sha256 pageSize prior forest) (positive : 0 < pageSize) (tidy : Tidy pageSize scope forest) {id : Nat}
    {way : List (TreeNode × Forest TreeNode)} (leads : Way Node.id id forest way) {step : TreeNode × Forest TreeNode}
    (isLast : step ∈ way.getLast?) :
    step.1.data.hashValue = some (digests sha256 (lastDigest sha256 prior (chunks pageSize (wayUnits way.dropLast))) (chunks pageSize step.1.units)) := by
  induction leads generalizing scope prior with
  | @here node under =>
    cases isLast
    rw [show wayUnits ([(node,under)] : List (TreeNode × Forest TreeNode)).dropLast = [] from rfl,chunks_nil positive]
    exact hashed.1
  | under _ lower ih =>
    have some := path_ne_nil (path_eq_some.mpr lower)
    rw [getLast?_cons_of_ne_nil some] at isLast
    have deep := ih hashed.2.1 tidy.children isLast
    rw [← lastDigest_append,← chunks_append positive (by rw [units_length]; exact tidy.whole.aligned)] at deep
    rw [dropLast_cons_of_ne_nil some,wayUnits_cons]
    exact deep
  | beside _ _ _ ih => exact ih hashed.2.2 tidy.rest isLast

/-! ### Announcing pages one by one -/

section Stream
variable {known held : Set (List (List KeyUnit))} {events : List KvEvent} {before : List (List KeyUnit)}

/-- The chains that go on from one, page by page. -/
def goingOn (before rest : List (List KeyUnit)) : Set (List (List KeyUnit)) :=
  { chain | ∃ count < rest.length, chain = before ++ rest.take (count + 1) }

theorem goingOn_nil : goingOn before [] = ∅ := by
  ext chain
  simp [goingOn]

theorem goingOn_cons (page : List KeyUnit) (rest : List (List KeyUnit)) :
    goingOn before (page::rest) = insert (before ++ [page]) (goingOn (before ++ [page]) rest) := by
  ext chain
  constructor
  · rintro ⟨count,inside,rfl⟩
    cases count with
    | zero => exact .inl (by simp)
    | succ count => exact .inr ⟨count,Nat.lt_of_succ_lt_succ inside,by simp⟩
  · rintro (rfl | ⟨count,inside,rfl⟩)
    · exact ⟨0,Nat.succ_pos _,by simp⟩
    · exact ⟨count + 1,Nat.succ_lt_succ inside,by simp⟩

theorem parentHash_eq : HashTree.parentHash (chainHash sha256) before = (lastDigest sha256 none before).map hashStrToInt64 := by
  cases before with
  | nil => rfl
  | cons page rest => rw [HashTree.parentHash,lastDigest_map (cons_ne_nil page rest)]

theorem announces_store (key : RadixKey) (rest : List (List KeyUnit)) (bounds : List (Nat × Nat)) (sized : bounds.length = rest.length)
    (announces : Announces (chainHash sha256) known events held) (present : before = [] ∨ before ∈ held)
    (occurs : goingOn before rest ⊆ known) :
    Announces (chainHash sha256) known
      (events ++ storeEvents key ((lastDigest sha256 none before).map hashStrToInt64)
        (bounds.zip (digests sha256 (lastDigest sha256 none before) rest))) (held ∪ goingOn before rest) := by
  induction rest generalizing before events held bounds with
  | nil =>
    rw [goingOn_nil,Set.union_empty,digests,zip_nil_right,storeEvents,append_nil]
    exact announces
  | cons page rest ih =>
    cases bounds with
    | nil => cases sized
    | cons bound bounds =>
      rw [goingOn_cons] at occurs ⊢
      have first : Announces (chainHash sha256) known (events ++ [.blockStored [chainHash sha256 (before ++ [page])]
          (HashTree.parentHash (chainHash sha256) before) ((key.allUnits.take bound.2).drop bound.1)
          ((key.allUnits.take bound.2).drop bound.1).length]) (insert (before ++ [page]) held) :=
        announces.stored present (occurs (Set.mem_insert ..))
      have later := ih bounds (Nat.succ.inj sized) first (.inr (Set.mem_insert ..))
        (fun chain inside => occurs (Set.mem_insert_of_mem _ inside))
      rw [lastDigest_concat,parentHash_eq,chainHash_concat,append_assoc] at later
      rw [Set.union_insert,← Set.insert_union]
      exact later

theorem announces_remove (rest : List (List KeyUnit)) (bounds : List (Nat × Nat)) (sized : bounds.length = rest.length)
    (announces : Announces (chainHash sha256) known events held) (present : goingOn before rest ⊆ held) :
    Announces (chainHash sha256) known
      (events ++ (bounds.zip (digests sha256 (lastDigest sha256 none before) rest)).map (fun page => .blockRemoved [hashStrToInt64 page.2]))
      (held \ goingOn before rest) := by
  induction rest generalizing before events held bounds with
  | nil =>
    rw [goingOn_nil,Set.sdiff_empty,digests,zip_nil_right,map_nil,append_nil]
    exact announces
  | cons page rest ih =>
    cases bounds with
    | nil => cases sized
    | cons bound bounds =>
      rw [goingOn_cons] at present ⊢
      have first := announces.removed (present (Set.mem_insert ..))
      have still : goingOn (before ++ [page]) rest ⊆ held \ {before ++ [page]} := by
        rintro chain ⟨count,inside,rfl⟩
        refine ⟨present (Set.mem_insert_of_mem _ ⟨count,inside,rfl⟩),fun same => ?_⟩
        have lengths := congrArg List.length (Set.mem_singleton_iff.mp same)
        simp only [length_append,length_take,length_singleton] at lengths
        omega
      have later := ih bounds (Nat.succ.inj sized) first still
      rw [lastDigest_concat,chainHash_concat,append_assoc,Set.sdiff_sdiff,Set.singleton_union] at later
      exact later

theorem mem_goingOn {units : List KeyUnit} {kept : Nat} (positive : 0 < pageSize) (aligned : pageSize ∣ kept) (inside : kept ≤ units.length)
    (whole : pageSize ∣ units.length) {chain : List (List KeyUnit)} :
    chain ∈ goingOn (chunks pageSize (units.take kept)) (chunks pageSize (units.drop kept)) ↔
      ∃ length, kept < length ∧ length ≤ units.length ∧ pageSize ∣ length ∧ chain = chunks pageSize (units.take length) := by
  obtain ⟨less,rfl⟩ := aligned
  obtain ⟨all,isAll⟩ := whole
  rw [Nat.mul_comm] at inside isAll ⊢
  have pages : (chunks pageSize (units.drop (less * pageSize))).length = all - less := by
    rw [chunks_length,length_drop,isAll,← Nat.sub_mul,ceil_mul positive]
  constructor
  · rintro ⟨count,more,rfl⟩
    have bound : (less + (count + 1)) * pageSize ≤ units.length := by
      rw [isAll]; exact Nat.mul_le_mul_right _ (by omega)
    refine ⟨(less + (count + 1)) * pageSize,Nat.mul_lt_mul_of_pos_right (by omega) positive,bound,Nat.dvd_mul_left ..,?_⟩
    rw [chunks_take_more positive units (show less ≤ less + (count + 1) by omega) bound,Nat.add_sub_cancel_left]
  · rintro ⟨length,longer,bound,⟨more,rfl⟩,rfl⟩
    rw [Nat.mul_comm pageSize] at longer bound ⊢
    have less_lt : less < more := Nat.lt_of_mul_lt_mul_right longer
    have more_le : more ≤ all := Nat.le_of_mul_le_mul_right (by rw [← isAll]; exact bound) positive
    refine ⟨more - less - 1,by omega,?_⟩
    rw [chunks_take_more positive units less_lt.le bound,show more - less - 1 + 1 = more - less by omega]

end Stream

/-! ### The chains a cache holds -/

variable {params : CacheInitParams} {cache : RadixCache} {known : Set (List (List KeyUnit))} {past : List KvEvent}

/-- The chains of pages a cache holds, under any `extra_key`. -/
def RadixCache.chains (params : CacheInitParams) (cache : RadixCache) : Set (List (List KeyUnit)) :=
  { chain | ∃ extraKey units, (cache.pages params extraKey units).isSome = true ∧ chain = chunks params.pageSize units }

/-- No start of an inserted key is held under another `extra_key`. -/
def Separate (params : CacheInitParams) (cache : RadixCache) : Action → Prop
  | .insert given _ => ∀ extraKey units, (cache.pages params extraKey units).isSome = true →
      units <+: (lookupKey params given.key).units → extraKey = given.key.extraKey
  | _ => True

/-- What a cache has announced since it was last cleared is what it holds; no chain is held under two `extra_key`s. -/
structure Announced (params : CacheInitParams) (known : Set (List (List KeyUnit))) (past : List KvEvent) (cache : RadixCache) : Prop where
  sound : Sound params cache
  hashed : Hashed params.sha256 params.pageSize none cache.forest
  apart : ∀ extraKey other units, (cache.pages params extraKey units).isSome = true → (cache.pages params other units).isSome = true →
    extraKey = other
  announces : ∃ later, cache.kvEventQueue = past ++ .allBlocksCleared::later ∧
    Announces (chainHash params.sha256) known (.allBlocksCleared::later) (cache.chains params)

variable {extraKey : Option String}

theorem pages_isSome {units : List KeyUnit} :
    (cache.pages params extraKey units).isSome = true ↔
      PrefixMap.Paged params.pageSize units ∧ (trace params.pageSize extraKey units cache.forest).length = units.length := by
  rw [RadixCache.pages,contents]
  exact PrefixMap.ofReading_isSome

theorem pages_take_isSome (sound : Sound params cache) (units : List KeyUnit) {length : Nat}
    (aligned : params.pageSize ∣ length) (some : 0 < length) (inside : length ≤ units.length) :
    (cache.pages params extraKey (units.take length)).isSome = true ↔ length ≤ (trace params.pageSize extraKey units cache.forest).length := by
  have sized : (units.take length).length = length := by rw [length_take_of_le inside]
  have paged : PrefixMap.Paged params.pageSize (units.take length) :=
    ⟨by rw [← length_pos_iff_ne_nil,sized]; exact some,by rw [sized]; exact aligned⟩
  rw [pages_isSome,trace_take params.pagePositive sound.tidy units aligned,length_take,sized]
  constructor
  · rintro ⟨-,same⟩
    omega
  · intro held
    exact ⟨paged,by omega⟩

theorem chains_insert (sound : Sound params cache) (given : InsertParams) (now : Int) :
    let units := (lookupKey params given.key).units
    let held := (trace params.pageSize given.key.extraKey units cache.forest).length
    (cache.insert params given now).2.chains params =
      cache.chains params ∪ goingOn (chunks params.pageSize (units.take held)) (chunks params.pageSize (units.drop held)) := by
  dsimp only
  have wholeUnits : params.pageSize ∣ (lookupKey params given.key).units.length := by
    rw [RadixKey.units_length]; exact lookupKey_aligned given.key
  ext chain
  rw [Set.mem_union,mem_goingOn params.pagePositive (trace_length_dvd sound.tidy _) (trace_length_le sound.tidy _) wholeUnits]
  simp only [RadixCache.chains,Set.mem_ofPred_eq,(insert_spec sound given now).2.1,PrefixMap.insert_isSome]
  constructor
  · rintro ⟨extraKey,sought,had | ⟨rfl,paged,leads⟩,rfl⟩
    · exact .inl ⟨extraKey,sought,had,rfl⟩
    · have isTake := prefix_iff_eq_take.mp leads
      rcases Nat.lt_or_ge (trace params.pageSize given.key.extraKey (lookupKey params given.key).units cache.forest).length sought.length
        with longer | held
      · exact .inr ⟨sought.length,longer,leads.length_le,paged.2,by rw [← isTake]⟩
      · have had := (pages_take_isSome sound _ paged.2 (length_pos_iff_ne_nil.mpr paged.1) leads.length_le).mpr held
        rw [← isTake] at had
        exact .inl ⟨_,sought,had,rfl⟩
  · rintro (⟨extraKey,sought,present,rfl⟩ | ⟨length,longer,inside,dvd,rfl⟩)
    · exact ⟨extraKey,sought,.inl present,rfl⟩
    · have sized : ((lookupKey params given.key).units.take length).length = length := by rw [length_take_of_le inside]
      exact ⟨_,_,.inr ⟨rfl,⟨by rw [← length_pos_iff_ne_nil,sized]; omega,by rw [sized]; exact dvd⟩, take_prefix ..⟩,rfl⟩

theorem chains_congr {after : RadixCache} (same : after.pages params = cache.pages params) : after.chains params = cache.chains params := by
  rw [RadixCache.chains,RadixCache.chains,same]

theorem visited_digest {visit : Visit TreeData} (hashing : Hashing params.sha256 params.pageSize visit) (sound : Sound params cache)
    (hashed : Hashed params.sha256 params.pageSize none cache.forest) {key : RadixKey} {value : List Slot} {walked : Walked TreeData}
    (walks : Walks params.pageSize visit cache.counter none cache.forest key value walked) (aligned : params.pageSize ∣ key.length)
    (supplied : Supplied visit key value) :
    (parentHashes walked.visited.getLast?).bind List.getLast? = lastDigest params.sha256 none
      (chunks params.pageSize (key.units.take (trace params.pageSize key.extraKey key.units cache.forest).length)) := by
  have positive := params.pagePositive
  rw [← walks.units]
  cases ends : walked.visited.getLast? with
  | none =>
    rw [getLast?_eq_none_iff.mp ends,flatMap_nil,chunks_nil positive]
    rfl
  | some last =>
    obtain ⟨way,found,visited⟩ := walks.way sound.distinct sound.bounded ends
    have after : Hashed params.sha256 params.pageSize none walked.forest := walk_hashed hashing positive walks rfl hashed
    have tidy := walks.tidy positive sound.tidy aligned supplied (fun extraKey within => by cases within)
    obtain ⟨step,isStep,rfl⟩ : ∃ step ∈ way.getLast?, step.1 = last := by
      rw [← visited,getLast?_map] at ends
      exact map_eq_some_iff.mp ends
    have hashes := after.way positive tidy found isStep
    have whole := tidy.whole_of_mem (found.subset (mem_of_getLast? isStep))
    have parts : way = way.dropLast ++ [step] := (dropLast_append_getLast? step isStep).symm
    have aligned : params.pageSize ∣ (wayUnits way.dropLast).length :=
      way_aligned tidy (List.Subset.trans (dropLast_subset way) (found.subset))
    have spelled : walked.visited.flatMap Node.units =
        wayUnits way.dropLast ++ step.1.units := by
      rw [← visited,flatMap_map]
      conv_lhs => rw [parts]
      rw [flatMap_append,flatMap_singleton]
      rfl
    rw [spelled,chunks_append positive aligned,lastDigest_append]
    exact parentHashes_last positive whole hashes

/-! ### Every call -/

theorem Announced.matchPrefix (announced : Announced params known past cache) (key : RadixKey) (now : Int) :
    Announced params known past (cache.matchPrefix params key now).2 := by
  obtain ⟨-,pages,sound⟩ := matchPrefix_spec announced.sound key now
  refine ⟨sound,?_,by rw [pages]; exact announced.apart,?_⟩
  · rw [RadixCache.matchPrefix]
    split
    · exact announced.hashed
    · rename_i some
      exact walk_hashed (match_hashing params now) params.pagePositive (announced.sound.walks (lookupKey_fit some) _ []) rfl announced.hashed
  · rw [chains_congr pages]
    have queue : (cache.matchPrefix params key now).2.kvEventQueue = cache.kvEventQueue := by
      rw [RadixCache.matchPrefix]
      split <;> rfl
    rw [queue]
    exact announced.announces

theorem Announced.moveLocks (announced : Announced params known past cache) {amount moved : Int} {node : Option Nat} {after : RadixCache}
    (moves : RadixCache.moveLocks amount moved node cache = some after) : Announced params known past after := by
  obtain ⟨pages,sound⟩ := moveLocks_spec announced.sound moves
  refine ⟨sound,?_,by rw [pages]; exact announced.apart,?_⟩
  · cases node with
    | none => cases moves; exact announced.hashed
    | some id =>
      obtain ⟨way,-,rfl⟩ := map_eq_some_iff.mp moves
      refine announced.hashed.map (shiftLock_key _ _) (fun node => ?_)
      split <;> rfl
  · rw [chains_congr pages]
    have queue : after.kvEventQueue = cache.kvEventQueue := by
      cases node with
      | none => cases moves; rfl
      | some id =>
        obtain ⟨way,-,rfl⟩ := map_eq_some_iff.mp moves
        rfl
    rw [queue]
    exact announced.announces

theorem Announced.insert (announced : Announced params known past cache) (enabled : params.enableKvCacheEvents = true) {given : InsertParams}
    {now : Int} (separate : Separate params cache (.insert given now))
    (occurs : ∀ chain, chain ≠ [] → chain <+: chunks params.pageSize (lookupKey params given.key).units → chain ∈ known) :
    Announced params known past (cache.insert params given now).2 := by
  have positive := params.pagePositive
  have sound := announced.sound
  obtain ⟨-,inserted,sound'⟩ := insert_spec sound given now
  have chains := chains_insert sound given now
  have apart : ∀ extraKey other units, ((cache.insert params given now).2.pages params extraKey units).isSome = true →
      ((cache.insert params given now).2.pages params other units).isSome = true → extraKey = other := by
    intro extraKey other units
    rw [inserted,PrefixMap.insert_isSome,PrefixMap.insert_isSome]
    rintro (held | ⟨rfl,-,starts⟩) (held' | ⟨rfl,-,starts'⟩)
    · exact announced.apart extraKey other units held held'
    · exact separate extraKey units held starts'
    · exact (separate other units held' starts).symm
    · rfl
  obtain ⟨later,queue,announces⟩ := announced.announces
  have sized := insertedValue_length params given
  have extra := @lookupKey_extraKey params given.key
  have dvd := @lookupKey_aligned params given.key
  have hashing : Hashing params.sha256 params.pageSize (insertVisit params now given.priority given.chunked) :=
    insert_hashing enabled now given.priority given.chunked
  dsimp only at chains
  generalize isKey : lookupKey params given.key = key at *
  generalize isValue : insertedValue params given = value at *
  have wholeUnits : params.pageSize ∣ key.units.length := by rwa [RadixKey.units_length]
  have aligned : params.pageSize ∣ (trace params.pageSize given.key.extraKey key.units cache.forest).length := trace_length_dvd sound.tidy _
  have bound : (trace params.pageSize given.key.extraKey key.units cache.forest).length ≤ key.units.length := trace_length_le sound.tidy _
  have start := @pages_take_isSome _ _ given.key.extraKey sound key.units _ aligned
  generalize isHeld : (trace params.pageSize given.key.extraKey key.units cache.forest).length = held at *
  -- every chain added is a start of the key's
  have added : goingOn (chunks params.pageSize (key.units.take held)) (chunks params.pageSize (key.units.drop held)) ⊆ known := by
    intro chain inside
    obtain ⟨length,longer,within,⟨count,rfl⟩,rfl⟩ := (mem_goingOn positive aligned bound wholeUnits).mp inside
    refine occurs _ ?_ ?_
    · rw [Ne,chunks_eq_nil positive,← length_eq_zero_iff,length_take_of_le within]
      omega
    · rw [Nat.mul_comm] at within ⊢
      rw [chunks_take positive _ within]
      exact take_prefix ..
  have present : chunks params.pageSize (key.units.take held) = [] ∨ chunks params.pageSize (key.units.take held) ∈ cache.chains params := by
    rcases Nat.eq_zero_or_pos held with nothing | some
    · rw [nothing,take_zero,chunks_nil positive]
      exact .inl rfl
    · exact .inr ⟨_,_,(start some bound).mpr le_rfl,rfl⟩
  unfold RadixCache.insert at sound' apart chains ⊢
  rw [isKey,isValue] at sound' apart chains ⊢
  by_cases none : key.length = 0
  · rw [insertHelper,if_pos none]
    exact announced
  have walks := sound.walks ⟨Nat.pos_of_ne_zero none,dvd⟩ (insertVisit params now given.priority given.chunked) value
  refine ⟨sound',?_,apart,?_⟩
  · rw [(insertHelper_forest params cache value given.priority now given.chunked none).1]
    exact walk_hashed hashing positive walks rfl announced.hashed
  · rw [chains,insertHelper,if_neg none]
    dsimp only
    generalize walk params.pageSize (insertVisit params now given.priority given.chunked) cache.counter Option.none cache.forest key value = walked
      at *
    cases grown : walked.leaf with
    | none =>
      rcases walks.leaf_isNone.mp grown with looks | all
      · simp [insertVisit] at looks
      · rw [extra,isHeld] at all
        rw [all,← RadixKey.units_length,drop_length,chunks_nil positive,goingOn_nil,Set.union_empty]
        exact ⟨later,queue,announces⟩
    | some leaf =>
      obtain ⟨units,-,-,-,data,isGrow,isData⟩ := walks.leaf_spec grown
      have digest := visited_digest hashing sound announced.hashed walks dvd (supplies params now given.priority given.chunked sized)
      rw [extra,isHeld] at units digest
      have hashes : leaf.data.hashValue = some (digests params.sha256 (lastDigest params.sha256 Option.none
          (chunks params.pageSize (key.units.take held))) (chunks params.pageSize leaf.key.units)) := by
        rw [isData,hashing.grow data isGrow,computeNodeHashValues_eq,or_none,digest]
      dsimp only
      rw [if_pos enabled,recordStoreEvent,digest,hashes,getD_some,← units,queue,append_assoc]
      rw [← units] at added
      refine ⟨_,rfl,announces_store leaf.key (chunks params.pageSize leaf.key.units) _ ?_ announces present added⟩
      rw [chunks_length,RadixKey.units_length,pageBounds]
      simp [ceil]

theorem Evicted.keepsAnnounced {state next : Evicting} {item : List Int × Nat} {heap : Heap} {leaf : TreeNode}
    (evicted : Evicted params state item heap leaf next) (enabled : params.enableKvCacheEvents = true)
    (announced : Announced params known past state.cache) : Announced params known past next.cache := by
  have positive := params.pagePositive
  have sound := announced.sound
  have whole := sound.tidy.whole_of_mem evicted.inside
  obtain ⟨extraKey,units,slots,kept,length,sized,aligned,-,⟨way,found,isWay⟩,-,gone⟩ :=
    erase_pruned positive sound.tidy sound.distinct evicted.inside
  have wholeUnits : params.pageSize ∣ units.length := by rw [length]; exact Nat.dvd_add aligned whole.aligned
  have leafPositive : 0 < leaf.key.length := whole.positive
  obtain ⟨later,queue,announces⟩ := announced.announces
  have heldUnits {length' : Nat} (dvd : params.pageSize ∣ length') (longer : kept < length') (within : length' ≤ units.length) :
      (state.cache.pages params extraKey (units.take length')).isSome = true := by
    have sized' : (units.take length').length = length' := by rw [length_take_of_le within]
    rw [RadixCache.pages,contents]
    exact PrefixMap.leaf_isSome positive sized gone.leaf ⟨by rw [← length_pos_iff_ne_nil,sized']; omega,sized'.symm ▸ dvd⟩
      ( take_prefix ..) (by rw [sized']; exact longer)
  have chains : next.cache.chains params = state.cache.chains params \
      goingOn (chunks params.pageSize (units.take kept)) (chunks params.pageSize (units.drop kept)) := by
    ext chain
    rw [Set.mem_sdiff,mem_goingOn positive aligned (by omega) wholeUnits,RadixCache.chains,RadixCache.chains,Set.mem_ofPred_eq,Set.mem_ofPred_eq]
    have after (other : Option String) (sought : List KeyUnit) : (next.cache.pages params other sought).isSome = true ↔
        (state.cache.pages params other sought).isSome = true ∧ ¬ (other = extraKey ∧ sought <+: units ∧ kept < sought.length) := by
      have pruned := PrefixMap.pruned_eq positive sized gone.leaf gone.pruned other sought
      rw [← evicted.forest] at pruned
      rw [RadixCache.pages,contents,pruned]
      split
      · rename_i lost
        simp [lost]
      · rename_i spared
        exact (and_iff_left spared).symm
    constructor
    · rintro ⟨other,sought,present,rfl⟩
      obtain ⟨old,spared⟩ := (after other sought).mp present
      refine ⟨⟨other,sought,old,rfl⟩,?_⟩
      rintro ⟨length',longer,inside,dvd,same⟩
      have sized' : (units.take length').length = length' := by rw [length_take_of_le inside]
      obtain rfl := chunks_injective positive (pages_isSome.mp old).1.2 (by rw [sized']; exact dvd) same
      -- the leaf holds this chain, so nothing else does
      exact spared ⟨announced.apart _ _ _ old (heldUnits dvd longer inside), take_prefix ..,by rw [sized']; exact longer⟩
    · rintro ⟨⟨other,sought,old,rfl⟩,spared⟩
      refine ⟨other,sought,(after other sought).mpr ⟨old,fun both => spared ?_⟩,rfl⟩
      exact ⟨sought.length,both.2.2,both.2.1.length_le,(pages_isSome.mp old).1.2,by rw [← prefix_iff_eq_take.mp both.2.1]⟩
  refine ⟨evicted.sound sound,?_,fun left right sought inLeft inRight => ?_,?_⟩
  · rw [evicted.forest]
    exact announced.hashed.erase leaf.id
  · have older {asker : Option String} (present : (next.cache.pages params asker sought).isSome = true) :
        (state.cache.pages params asker sought).isSome = true := by
      obtain ⟨page,isPage⟩ := isSome_iff_exists.mp present
      exact isSome_iff_exists.mpr ⟨page,PrefixMap.TrimsAll.present (evicted.trims sound) isPage⟩
    exact announced.apart left right sought (older inLeft) (older inRight)
  · -- the digests the leaf keeps are those of the chains on its way
    obtain ⟨step,isStep,named⟩ := found.last
    cases subtrees_injective sound.distinct (found.subset (mem_of_getLast? isStep)) evicted.inside named
    have hashes := announced.hashed.way positive sound.tidy found isStep
    have parts : way = way.dropLast ++ [(leaf,Forest.nil)] := (dropLast_append_getLast? _ isStep).symm
    have spelled : units = wayUnits way.dropLast ++ leaf.units := by
      rw [← isWay]
      conv_lhs => rw [parts]
      rw [wayUnits,flatMap_append,flatMap_singleton]
      rfl
    have front : (wayUnits way.dropLast).length = kept := by
      have total := congrArg List.length spelled
      rw [length_append,units_length,length] at total
      omega
    have before : wayUnits way.dropLast = units.take kept := by rw [spelled,take_left' front]
    have behind : leaf.units = units.drop kept := by rw [spelled,drop_left' front]
    rw [chains,evicted.announced,if_pos enabled,hashes,getD_some,before,recordRemoveEvent,← behind,queue,append_assoc]
    refine ⟨_,rfl,announces_remove (chunks params.pageSize leaf.units) _ ?_ announces ?_⟩
    · rw [chunks_length,units_length,pageBounds]
      simp [ceil]
    · rw [behind]
      intro chain inside
      obtain ⟨length',longer,within,dvd,rfl⟩ := (mem_goingOn positive aligned (by omega) wholeUnits).mp inside
      exact ⟨_,_,heldUnits dvd longer within,rfl⟩

/-- The facts that carry the announcements through the loop of `evict`. -/
structure Telling (params : CacheInitParams) (known : Set (List (List KeyUnit))) (past : List KvEvent) (state : Evicting) : Prop where
  told : Announced params known past state.cache
  heaped : Heaped state.cache.forest state.evictionHeap

theorem Announced.evict (announced : Announced params known past cache) (enabled : params.enableKvCacheEvents = true) (numTokens : Nat)
    {leaves : List Nat} (listing : leaves.Perm cache.evictableLeaves) {final : Evicting}
    (evicts : cache.evict params numTokens leaves = some final) : Announced params known past final.cache := by
  have start : Telling params known past
      ⟨cache,leaves.filterMap (fun id => (find? Node.id id cache.forest).map (fun found => heapItem params found.1)),0,[]⟩ :=
    ⟨announced,heaped_start announced.sound listing⟩
  obtain ⟨final',loops,done,-⟩ := evictLoop_keeps params numTokens cache.forest.nodes.length (Telling params known past) start (by
      rintro state item heap ⟨told,heaped⟩ popped
      have heaped := heaped.perm (heapPop_perm popped)
      obtain ⟨next,leaf,round,evicted⟩ := evictRound_spec params told.sound.distinct heap (heaped.childless item mem_cons_self)
      exact ⟨next,leaf,round,evicted,told.sound.distinct,evicted.keepsAnnounced enabled told,evicted.heaped told.sound.distinct heaped⟩) le_rfl
  rw [RadixCache.evict,loops] at evicts
  cases evicts
  exact done.told

/-- The chains of the keys that a history inserts. -/
def InsertedChains (params : CacheInitParams) (history : List Action) : Set (List (List KeyUnit)) :=
  { chain | chain ≠ [] ∧ ∃ given now, Action.insert given now ∈ history ∧ chain <+: chunks params.pageSize (lookupKey params given.key).units }

theorem Announced.step (announced : Announced params known past cache) (enabled : params.enableKvCacheEvents = true) {action : Action}
    (separate : Separate params cache action) (covers : InsertedChains params [action] ⊆ known) {next : RadixCache}
    (stepped : Radix.step params cache action = some next) : Announced params known past next := by
  cases action with
  | insert given now =>
    cases stepped
    exact announced.insert enabled separate (fun chain some leads => covers ⟨some,given,now,mem_singleton_self _,leads⟩)
  | matchPrefix key now =>
    cases stepped
    exact announced.matchPrefix key now
  | evict numTokens leaves =>
    rw [Radix.step] at stepped
    split at stepped
    · rename_i listing
      obtain ⟨final,evicts,rfl⟩ := map_eq_some_iff.mp stepped
      exact announced.evict enabled numTokens (isPerm_iff.mp listing) evicts
    · cases stepped
  | incLockRef node =>
    obtain ⟨⟨delta,after⟩,locks,rfl⟩ := map_eq_some_iff.mp stepped
    obtain ⟨moved,moves,same⟩ := map_eq_some_iff.mp locks
    cases same
    exact announced.moveLocks moves
  | decLockRef node =>
    obtain ⟨⟨delta,after⟩,unlocks,rfl⟩ := map_eq_some_iff.mp stepped
    obtain ⟨moved,moves,same⟩ := map_eq_some_iff.mp unlocks
    cases same
    exact announced.moveLocks moves

theorem InsertedChains.mono {earlier later : List Action} (subset : earlier ⊆ later) : InsertedChains params earlier ⊆ InsertedChains params later := by
  rintro chain ⟨some,given,now,member,leads⟩
  exact ⟨some,given,now,subset member,leads⟩

theorem reset_pages {counter : Nat} {queue : List KvEvent} {units : List KeyUnit} :
    ¬ (RadixCache.pages params { reset params with counter, kvEventQueue := queue } extraKey units).isSome = true := by
  intro present
  obtain ⟨paged,same⟩ := pages_isSome.mp present
  exact paged.1 (length_eq_zero_iff.mp same.symm)

theorem reset_announced (enabled : params.enableKvCacheEvents = true) (counter : Nat) (past : List KvEvent) :
    Announced params known past { reset params with counter, kvEventQueue := past ++ (reset params).kvEventQueue } := by
  refine ⟨⟨trivial,nodup_nil,fun _ member => ?_,nodup_nil,fun _ member => ?_⟩,trivial,
    fun _ _ _ present => absurd present reset_pages,[],?_,?_⟩
  · cases member
  · cases member
  · rw [reset,if_pos enabled]
  · convert Announces.cleared
    ext chain
    simp [RadixCache.chains,reset_pages]

theorem run_announced (enabled : params.enableKvCacheEvents = true) {history : List Action}
    (plain : ∀ given now, Action.insert given now ∈ history → given.key.extraKey = none) (covers : InsertedChains params history ⊆ known)
    (executed : Runs.run (step params) (reset params) history = some cache) : Announced params known [] cache := by
  induction history using List.reverseRecOn generalizing cache with
  | nil =>
    cases executed
    exact reset_announced enabled 1 []
  | append_singleton history action ih =>
    obtain ⟨before,ran,last⟩ := Runs.run_append.mp executed
    obtain ⟨next,stepped,same⟩ := Runs.run_cons.mp last
    cases same
    have earlier : history ⊆ history ++ [action] := subset_append_left ..
    have announced := ih (fun given now member => plain given now (earlier member)) ((InsertedChains.mono earlier).trans covers) ran
    refine announced.step enabled ?_ ((InsertedChains.mono (subset_append_right ..)).trans covers) stepped
    cases action with
    | insert given now =>
      intro extraKey units present _
      obtain ⟨page,isPage⟩ := isSome_iff_exists.mp present
      obtain ⟨source,then_,member,rfl,-⟩ := pages_donated ran isPage
      rw [plain source then_ (earlier member),plain given now (by simp)]
    | _ => trivial

end Hypic.Radix
