import Hypic.Cache

/-! A request: its segments, what matching finds in the cache and the slots it is given. -/

namespace Hypic.Request
open Policy Cache List
universe u

/-- Slots of one miss segment: its KV slots (the private copy in rope modes), the public
    copy of rope modes and the state slot. -/
structure MissSlots where
  kv : List Slot
  pub : Option (List Slot)
  mamba : Option Slot
  deriving DecidableEq

structure Req (Hash : Type u) where
  originInputIds : List Token
  picSegments : List Seg
  picScatterSingleSeg : Bool
  maxNewTokens : Nat
  picSegmentEntries : Dict Hash (SegmentEntry Hash)
  picHitSegments : List (Seg × Hash)
  picMissSegments : List Seg
  picHitSeamPositions : Dict Seg (List Nat)
  picMissTokenPositions : List Nat
  prefixIndices : List Slot
  extendInputLen : Nat
  reqPoolIdx : Option Nat
  mambaPoolIdx : Option Slot
  reqToToken : Nat → Slot
  kvCommittedLen : Nat
  picMissSegmentSlots : Dict Seg MissSlots
  picRopeHitPrivateSlots : Dict Seg (List Slot × List Slot)
  picCacheOwnedMissSegments : List Seg
  picFreedMissSegments : List Seg

variable {Hash : Type u}

/-- A new request with its tokenized segments. -/
def Req.create (parts : List (List Token)) (scatterSingleSeg : Bool) (maxNewTokens : Nat) : Req Hash :=
  { originInputIds := (splitAndTokenize parts).1
    picSegments := (splitAndTokenize parts).2
    picScatterSingleSeg := scatterSingleSeg
    maxNewTokens := maxNewTokens
    picSegmentEntries := .empty
    picHitSegments := []
    picMissSegments := []
    picHitSeamPositions := .empty
    picMissTokenPositions := []
    prefixIndices := []
    extendInputLen := 0
    reqPoolIdx := none
    mambaPoolIdx := none
    reqToToken := fun _ => 0
    kvCommittedLen := 0
    picMissSegmentSlots := .empty
    picRopeHitPrivateSlots := .empty
    picCacheOwnedMissSegments := []
    picFreedMissSegments := [] }

namespace Req
open List
variable (req : Req Hash)

def lastSeg : Option Seg := req.picSegments.getLast?
/-- The last segment of a multi-segment prompt; a lone segment is cached like a local one. -/
def globalSeg : Option Seg := if 1 < req.picSegments.length then req.lastSeg else none

/-- `req_to_token[req_pool_idx, start:end] = slots` -/
def writeRow (seg : Seg) (slots : List Slot) : Req Hash :=
  { req with reqToToken := fun pos => if seg.1 ≤ pos ∧ pos < seg.2 then slots.getD (pos - seg.1) 0 else req.reqToToken pos }

def rowSlice (start stop : Nat) : List Slot := (List.range' start (stop - start)).map req.reqToToken

def segmentHash (args : ServerArgs Hash) (seg : Seg) : Hash := args.segmentHash (segmentIds req.originInputIds seg)
end Req

variable [DecidableEq Hash]

/-- Per-segment lookup in order. The last segment and short ones are never looked up. -/
def matchSegments (args : ServerArgs Hash) (now : Nat) (ids : List Token) :
    List Seg → PICache Hash → List (Option (SegmentEntry Hash)) × PICache Hash
  | [], cache => ([],cache)
  | [_], cache => ([none],cache)
  | seg::next::rest, cache =>
    if args.short seg then
      let (found,cache) := matchSegments args now ids (next::rest) cache
      (none::found,cache)
    else
      let (entry,cache) := cache.matchSegment now (args.segmentHash (segmentIds ids seg)) (segmentIds ids seg)
      let (found,cache) := matchSegments args now ids (next::rest) cache
      (entry::found,cache)

/-- Tokens of the hit at `index` that are forwarded again. One interior token is always kept. -/
def seamWidth (args : ServerArgs Hash) (index : Nat) (seg : Seg) : Nat :=
  if args.recompute = true ∧ 0 < index then resolveSeamSinkTokens args.picSeamSink (seg.2 - seg.1 - 1) else 0

structure MatchResult (Hash : Type u) where
  deviceIndices : List Slot
  picSegmentEntries : List (Option (SegmentEntry Hash))
  picHitSeamPositions : Dict Seg (List Nat)

/-- Walks the hits with their segment index. -/
def collectHits (args : ServerArgs Hash) :
    Nat → List (Seg × Option (SegmentEntry Hash)) → List Slot → Dict Seg (List Nat) → List Slot × Dict Seg (List Nat)
  | _, [], slots, seams => (slots,seams)
  | index, (_,none)::rest, slots, seams => collectHits args (index + 1) rest slots seams
  | index, (seg,some entry)::rest, slots, seams =>
    let width := seamWidth args index seg
    if 0 < width then
      collectHits args (index + 1) rest (slots ++ entry.fullKvSlots.drop width) (seams.set seg (List.range' seg.1 width))
    else collectHits args (index + 1) rest (slots ++ entry.fullKvSlots) seams

def matchPrefix (args : ServerArgs Hash) (now : Nat) (req : Req Hash) (cache : PICache Hash) :
    Option (MatchResult Hash) × PICache Hash :=
  if req.picSegments = [] then (none,cache)
  else
    let (perSeg,cache) := matchSegments args now req.originInputIds req.picSegments cache
    let (indices,seams) := collectHits args 0 (req.picSegments.zip perSeg) []
      (if args.recompute then .empty else req.picHitSeamPositions)
    (some ⟨indices,perSeg,seams⟩,cache)

/-- Miss tokens, with the seam tokens of hits merged in by position. -/
def missTokenPositions (miss : List Seg) (seams : Dict Seg (List Nat)) : List Nat :=
  let positions := miss.flatMap fun seg => List.range' seg.1 (seg.2 - seg.1)
  if seams.items = [] then positions else (positions ++ seams.values.flatten).insertionSort (· ≤ ·)

/-- Matching on (re)admission: hits, misses and the tokens left to forward. -/
def initNextRoundInput (args : ServerArgs Hash) (now : Nat) (req : Req Hash) (cache : PICache Hash) :
    Req Hash × PICache Hash :=
  match matchPrefix args now req cache with
  | (none,cache) => ({ req with prefixIndices := [], extendInputLen := req.originInputIds.length },cache)
  | (some result,cache) =>
    let perSeg := req.picSegments.zip result.picSegmentEntries
    let miss := perSeg.filterMap fun item => if item.2 = none then some item.1 else none
    let positions := missTokenPositions miss result.picHitSeamPositions
    ({ req with
        prefixIndices := result.deviceIndices
        extendInputLen := req.originInputIds.length - result.deviceIndices.length
        picSegmentEntries := Dict.empty.setAll (result.picSegmentEntries.filterMap fun found =>
          found.map fun entry => (entry.segHash,entry))
        picHitSegments := perSeg.filterMap fun item => item.2.map fun entry => (item.1,entry.segHash)
        picMissSegments := miss
        picHitSeamPositions := result.picHitSeamPositions
        picMissTokenPositions := if positions = [] then req.picMissTokenPositions else positions },cache)

section Partition
variable {α β γ : Type*} (g : β → γ) (items : List (α × Option β))

theorem misses_sublist [DecidableEq β] :
    (items.filterMap fun item => if item.2 = none then some item.1 else none).Sublist (items.map Prod.fst) := by
  induction items with
  | nil => exact List.Sublist.refl _
  | cons item rest ih =>
    obtain ⟨key,found⟩ := item
    cases found with
    | none => simpa using ih
    | some value => simpa using ih.trans (sublist_cons_self ..)

private theorem hits_sublist :
    ((items.filterMap fun item => item.2.map fun value => (item.1,g value)).map Prod.fst).Sublist (items.map Prod.fst) := by
  induction items with
  | nil => exact List.Sublist.refl _
  | cons item rest ih =>
    obtain ⟨key,found⟩ := item
    cases found with
    | none => simpa using ih.trans (sublist_cons_self ..)
    | some value => simpa using ih

private theorem mem_misses [DecidableEq β] (key : α) :
    key ∈ (items.filterMap fun item => if item.2 = none then some item.1 else none) ↔ (key,none) ∈ items := by
  simp only [mem_filterMap,ite_none_right_eq_some,Option.some.injEq]
  constructor
  · rintro ⟨⟨_,_⟩,member,rfl,rfl⟩; exact member
  · intro member; exact ⟨_,member,rfl,rfl⟩

private theorem mem_hits (key : α) (tag : γ) :
    (key,tag) ∈ (items.filterMap fun item => item.2.map fun value => (item.1,g value)) ↔
      ∃ value, (key,some value) ∈ items ∧ g value = tag := by
  simp only [mem_filterMap,map_eq_some_iff,Prod.mk.injEq]
  constructor
  · rintro ⟨⟨_,found⟩,member,value,rfl,rfl,rfl⟩; exact ⟨value,member,rfl⟩
  · rintro ⟨value,member,rfl⟩; exact ⟨_,member,value,rfl,rfl,rfl⟩
end Partition

/-- What a lookup says of one segment: a hit is the index's entry for it and the segment is not short. -/
def Looked (args : ServerArgs Hash) (ids : List Token) (cache : PICache Hash) (seg : Seg)
    (found : Option (SegmentEntry Hash)) : Prop :=
  ∀ entry, found = some entry → cache.entries.get? (args.segmentHash (segmentIds ids seg)) = some entry ∧
    entry.tokenIds = segmentIds ids seg ∧ args.short seg = false

theorem matchSegments_frame (args : ServerArgs Hash) (now : Nat) (ids : List Token) (segs : List Seg)
    (cache : PICache Hash) :
    let after := (matchSegments args now ids segs cache).2
    after.entries = cache.entries ∧ (∀ entry, after.lockRef entry = cache.lockRef entry) ∧ after.created = cache.created := by
  fun_induction matchSegments args now ids segs cache with
  | case1 cache => exact ⟨rfl,fun _ => rfl,rfl⟩
  | case2 cache seg => exact ⟨rfl,fun _ => rfl,rfl⟩
  | case3 seg next rest cache short found after heq ih => rw [heq] at ih; exact ih
  | case4 seg next rest cache long entry after heq found last heqLast ih =>
    obtain ⟨entries,locks,created⟩ :=
      cache.matchSegment_frame now (args.segmentHash (segmentIds ids seg)) (segmentIds ids seg)
    rw [heq] at entries locks created
    rw [heqLast] at ih
    obtain ⟨laterEntries,laterLocks,laterCreated⟩ := ih
    exact ⟨laterEntries.trans entries,fun other => (laterLocks other).trans (locks other),laterCreated.trans created⟩

theorem matchSegments_looked (args : ServerArgs Hash) (now : Nat) (ids : List Token) (segs : List Seg)
    (cache : PICache Hash) :
    Forall₂ (Looked args ids cache) segs (matchSegments args now ids segs cache).1 := by
  fun_induction matchSegments args now ids segs cache with
  | case1 cache => exact .nil
  | case2 cache seg => exact .cons (fun entry found => by cases found) Forall₂.nil
  | case3 seg next rest cache short found after heq ih =>
    rw [heq] at ih
    exact .cons (fun entry found => by cases found) ih
  | case4 seg next rest cache long entry after heq found last heqLast ih =>
    rw [heqLast] at ih
    obtain ⟨entries,_,_⟩ :=
      cache.matchSegment_frame now (args.segmentHash (segmentIds ids seg)) (segmentIds ids seg)
    rw [heq] at entries
    refine Forall₂.cons ?_ (ih.imp fun later found looked other equal => ?_)
    · intro other equal
      have matched := (cache.matchSegment_some other now _ _).mp (by rw [heq]; exact equal)
      exact ⟨matched.1,matched.2,by simpa using long⟩
    · have := looked other equal
      rwa [entries] at this

theorem matchSegments_last (args : ServerArgs Hash) (now : Nat) (ids : List Token) (segs : List Seg)
    (cache : PICache Hash) {seg : Seg} (last : segs.getLast? = some seg) :
    (seg,none) ∈ segs.zip (matchSegments args now ids segs cache).1 := by
  fun_induction matchSegments args now ids segs cache with
  | case1 cache => simp at last
  | case2 cache only => simp_all
  | case3 head next rest cache short found after heq ih =>
    rw [heq] at ih
    exact mem_cons_of_mem _ (ih (by simpa using last))
  | case4 head next rest cache long entry after heq found final heqLast ih =>
    rw [heqLast] at ih
    exact mem_cons_of_mem _ (ih (by simpa using last))

/-- Every segment of the prompt is a hit or a miss, not both, and the last one is a miss. -/
structure Partitioned (req : Req Hash) : Prop where
  consecutive : Consecutive 0 req.picSegments req.originInputIds.length
  misses : req.picMissSegments.Sublist req.picSegments
  hits : (req.picHitSegments.map Prod.fst).Sublist req.picSegments
  exclusive : ∀ seg ∈ req.picMissSegments, seg ∉ req.picHitSegments.map Prod.fst
  cover : ∀ seg ∈ req.picSegments, seg ∈ req.picMissSegments ∨ seg ∈ req.picHitSegments.map Prod.fst
  last : ∀ seg, req.lastSeg = some seg → seg ∈ req.picMissSegments

/-- A request after matching: its hits are entries it refers to. -/
structure Matched (args : ServerArgs Hash) (req : Req Hash) : Prop extends Partitioned req where
  found : ∀ seg segHash, (seg,segHash) ∈ req.picHitSegments → segHash = req.segmentHash args seg ∧
    args.short seg = false ∧ ∃ entry, req.picSegmentEntries.get? segHash = some entry ∧
      entry.tokenIds = segmentIds req.originInputIds seg

/-- Entries the request refers to that are still the index's entries for their hash. -/
def Held (req : Req Hash) (cache : PICache Hash) : Prop :=
  ∀ segHash entry, req.picSegmentEntries.get? segHash = some entry → cache.entries.get? segHash = some entry

/-- The prompt fields, which nothing changes after the request's creation. -/
structure SamePrompt (before after : Req Hash) : Prop where
  originInputIds : after.originInputIds = before.originInputIds
  picSegments : after.picSegments = before.picSegments
  picScatterSingleSeg : after.picScatterSingleSeg = before.picScatterSingleSeg
  maxNewTokens : after.maxNewTokens = before.maxNewTokens

theorem initNextRoundInput_frame (args : ServerArgs Hash) (now : Nat) (req : Req Hash) (cache : PICache Hash) :
    let after := (initNextRoundInput args now req cache).2
    after.entries = cache.entries ∧ (∀ entry, after.lockRef entry = cache.lockRef entry) ∧ after.created = cache.created := by
  unfold initNextRoundInput matchPrefix
  by_cases nothing : req.picSegments = []
  · simp [nothing]
  · simp only [nothing,if_false]
    exact matchSegments_frame args now req.originInputIds req.picSegments cache

theorem initNextRoundInput_matched (args : ServerArgs Hash) (now : Nat) (req : Req Hash) (cache : PICache Hash)
    (nonempty : req.picSegments ≠ []) (consecutive : Consecutive 0 req.picSegments req.originInputIds.length) :
    let after := (initNextRoundInput args now req cache).1
    Matched args after ∧ Held after cache ∧ SamePrompt req after := by
  have looked := matchSegments_looked args now req.originInputIds req.picSegments cache
  have missedLast (seg : Seg) (last : req.picSegments.getLast? = some seg) :=
    matchSegments_last args now req.originInputIds req.picSegments cache last
  simp only [initNextRoundInput,matchPrefix,nonempty,if_false]
  revert looked missedLast
  generalize (matchSegments args now req.originInputIds req.picSegments cache).1 = perSeg
  intro looked missedLast
  have keys : (req.picSegments.zip perSeg).map Prod.fst = req.picSegments :=
    map_fst_zip (Nat.le_of_eq looked.length_eq)
  have here {seg : Seg} {entry : SegmentEntry Hash} (member : (seg,some entry) ∈ req.picSegments.zip perSeg) :
      cache.entries.get? (args.segmentHash (segmentIds req.originInputIds seg)) = some entry ∧
        entry.tokenIds = segmentIds req.originInputIds seg ∧ args.short seg = false :=
    (forall₂_zip looked member) entry rfl
  have distinct : ((req.picSegments.zip perSeg).map Prod.fst).Nodup := by
    rw [keys]; exact consecutive.nodup
  have fromSeg {entry : SegmentEntry Hash} (member : some entry ∈ perSeg) :
      ∃ seg, (seg,some entry) ∈ req.picSegments.zip perSeg := by
    have values : (req.picSegments.zip perSeg).map Prod.snd = perSeg :=
      map_snd_zip (Nat.le_of_eq looked.length_eq.symm)
    rw [← values,mem_map] at member
    obtain ⟨⟨seg,_⟩,member,rfl⟩ := member
    exact ⟨seg,member⟩
  have held : ∀ segHash entry, (Dict.empty.setAll (perSeg.filterMap fun found =>
      found.map fun entry => (entry.segHash,entry))).get? segHash = some entry →
        cache.entries.get? segHash = some entry := by
    intro segHash entry found
    rcases Dict.get?_setAll_some _ _ found with member | absent
    · simp only [mem_filterMap,map_eq_some_iff,Prod.mk.injEq] at member
      obtain ⟨_,member,held,rfl,rfl,rfl⟩ := member
      obtain ⟨seg,member⟩ := fromSeg member
      have present := (here member).1
      rwa [cache.keyed _ _ present]
    · simp at absent
  have missSub := misses_sublist (req.picSegments.zip perSeg)
  have hitSub := hits_sublist SegmentEntry.segHash (req.picSegments.zip perSeg)
  rw [keys] at missSub hitSub
  refine ⟨⟨⟨consecutive,missSub,hitSub,?_,?_,?_⟩,?_⟩,held,⟨rfl,rfl,rfl,rfl⟩⟩
  · intro seg missed hit
    obtain ⟨⟨_,tag⟩,member,rfl⟩ := mem_map.mp hit
    obtain ⟨entry,member,-⟩ := (mem_hits _ _ _ _).mp member
    have equal := inj_on_of_nodup_map distinct ((mem_misses _ _).mp missed) member rfl
    simp at equal
  · intro seg member
    rw [← keys,mem_map] at member
    obtain ⟨⟨_,found⟩,member,rfl⟩ := member
    cases found with
    | none => exact .inl ((mem_misses _ _).mpr member)
    | some entry => exact .inr (mem_map.mpr ⟨_,(mem_hits _ _ _ _).mpr ⟨entry,member,rfl⟩,rfl⟩)
  · intro seg last
    exact (mem_misses _ _).mpr (missedLast seg last)
  · intro seg segHash member
    obtain ⟨entry,paired,rfl⟩ := (mem_hits _ _ _ _).mp member
    obtain ⟨present,tokens,long⟩ := here paired
    have keyed := cache.keyed _ _ present
    refine ⟨keyed,long,?_⟩
    have written : entry.segHash ∈ (perSeg.filterMap fun found =>
        found.map fun entry => (entry.segHash,entry)).map Prod.fst := by
      refine mem_map.mpr ⟨(entry.segHash,entry),mem_filterMap.mpr ⟨some entry,?_,rfl⟩,rfl⟩
      exact (of_mem_zip paired).2
    obtain ⟨stored,found⟩ := isSome_iff_exists.mp (Dict.get?_setAll_isSome _ Dict.empty (.inl written))
    have same := held _ _ found
    rw [keyed,present,Option.some.injEq] at same
    exact ⟨stored,found,same ▸ tokens⟩

theorem mem_missTokenPositions (miss : List Seg) (seams : Dict Seg (List Nat)) (pos : Nat) :
    (pos ∈ missTokenPositions miss seams → (∃ seg ∈ miss, seg.1 ≤ pos ∧ pos < seg.2) ∨
      ∃ seg positions, seams.get? seg = some positions ∧ pos ∈ positions) ∧
    ((∃ seg ∈ miss, seg.1 ≤ pos ∧ pos < seg.2) → pos ∈ missTokenPositions miss seams) := by
  have own : pos ∈ (miss.flatMap fun seg => List.range' seg.1 (seg.2 - seg.1)) ↔ ∃ seg ∈ miss, seg.1 ≤ pos ∧ pos < seg.2 := by
    rw [mem_flatMap]
    refine exists_congr fun seg => and_congr_right fun _ => ?_
    rw [mem_range'_1]
    omega
  unfold missTokenPositions
  simp only
  split
  · exact ⟨fun member => .inl (own.mp member),own.mpr⟩
  · rw [(perm_insertionSort ..).mem_iff,mem_append,own]
    refine ⟨fun member => member.imp_right fun seam => ?_,.inl⟩
    obtain ⟨positions,value,inside⟩ := mem_flatten.mp seam
    obtain ⟨seg,found⟩ := (Dict.mem_values ..).mp value
    exact ⟨seg,positions,found,inside⟩

/-- The last segment is a miss, so there is always something to forward and the positions are new. -/
theorem initNextRoundInput_positions (args : ServerArgs Hash) (now : Nat) (req : Req Hash) (cache : PICache Hash)
    (nonempty : req.picSegments ≠ []) (consecutive : Consecutive 0 req.picSegments req.originInputIds.length) :
    let after := (initNextRoundInput args now req cache).1
    after.picMissTokenPositions = missTokenPositions after.picMissSegments after.picHitSeamPositions := by
  obtain ⟨matched,-,same⟩ := initNextRoundInput_matched args now req cache nonempty consecutive
  obtain ⟨last,isLast⟩ : ∃ last, req.picSegments.getLast? = some last := by
    cases last : req.picSegments.getLast? with
    | none => exact absurd (getLast?_eq_none_iff.mp last) nonempty
    | some seg => exact ⟨seg,rfl⟩
  have missed := matched.last last (by rw [Req.lastSeg,same.picSegments]; exact isLast)
  have positive := (consecutive.mem_bounds (mem_of_getLast? isLast)).2.1
  have first := (mem_missTokenPositions _ (initNextRoundInput args now req cache).1.picHitSeamPositions last.1).2
    ⟨last,missed,Nat.le_refl _,positive⟩
  revert first
  simp only [initNextRoundInput,matchPrefix,nonempty,if_false]
  intro first
  exact if_neg (ne_nil_of_mem first)

end Hypic.Request
