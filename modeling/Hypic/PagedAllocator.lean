import Hypic.Allocator
import Hypic.Pages

/-! The KV allocator of a prefix cache: by tokens for pages of one, by pages otherwise. The state is that of the base class.
    A batch allocates for its requests in order; the size of the whole batch decides about sorting. -/

namespace Hypic.PagedAllocator
open Policy Allocator Pages List Multiset

/-- `get_num_new_pages` of one request. -/
def numNewPages (pageSize prefixLen seqLen : Nat) : Nat := ceil pageSize seqLen - ceil pageSize prefixLen

/-- One request's part of `alloc_extend_kernel`: the rest of the old page, then full pages, then a page begun. -/
def extendIndices (pageSize prefixLen seqLen : Nat) (lastLoc : Int) (pages : List Nat) : List Slot :=
  let numPart1 := min seqLen (ceil pageSize prefixLen * pageSize) - prefixLen
  let part1 := (List.range numPart1).map (fun offset : Nat => (lastLoc + 1 + offset).toNat)
  if prefixLen + numPart1 = seqLen then part1
  else
    let numPart2 := seqLen / pageSize * pageSize - ceil pageSize prefixLen * pageSize
    let part2 := slotsOf pageSize (pages.take (numPart2 / pageSize))
    if prefixLen + numPart1 + numPart2 = seqLen then part1 ++ part2
    else
      let numPart3 := seqLen - seqLen / pageSize * pageSize
      let startLoc := (pages[numNewPages pageSize prefixLen seqLen - 1]?).getD 0
      part1 ++ part2 ++ (List.range numPart3).map (fun offset => startLoc * pageSize + offset)

/-- One request's part of `alloc_decode_kernel`. -/
def decodeIndex (pageSize seqLen : Nat) (lastLoc : Int) (pages : List Nat) : Slot :=
  if numNewPages pageSize (seqLen - 1) seqLen = 0 then (lastLoc + 1).toNat else pages.head?.getD 0 * pageSize

/-- The size of a batch: its tokens and its requests. -/
structure BatchSize where
  numTokens : Nat
  numReqs : Nat
deriving DecidableEq, Repr

section Allocate
variable (pageSize : Nat) (batch : BatchSize) (allocator : TokenToKVPoolAllocator)

/-- The sort before an allocation that needs more pages than are listed as free. -/
def mergeFor (needed : Nat) : TokenToKVPoolAllocator :=
  if allocator.needSort = true ∧ allocator.freePages.length < needed then allocator.mergeAndSortFree else allocator

/-- A request's part of `alloc_token_slots` or `alloc_extend`. -/
def allocExtend (prefixLen seqLen : Nat) (lastLoc : Int) : Option (List Slot × TokenToKVPoolAllocator) :=
  if pageSize = 1 then (mergeFor allocator batch.numTokens).takeFront (seqLen - prefixLen)
  else
    ((mergeFor allocator (batch.numTokens / pageSize + batch.numReqs + 1)).takeFront (numNewPages pageSize prefixLen seqLen)).map
      (fun taken => (extendIndices pageSize prefixLen seqLen lastLoc taken.1,taken.2))

/-- A request's part of `alloc_token_slots` or `alloc_decode`. -/
def allocDecode (seqLen : Nat) (lastLoc : Int) : Option (Slot × TokenToKVPoolAllocator) :=
  if pageSize = 1 then
    ((mergeFor allocator batch.numReqs).takeFront 1).map (fun taken => (taken.1.head?.getD 0,taken.2))
  else
    ((mergeFor allocator batch.numReqs).takeFront (if seqLen % pageSize = 1 then 1 else 0)).map
      (fun taken => (decodeIndex pageSize seqLen lastLoc taken.1,taken.2))

/-- `free`: of a paged pool the pages of the slots, each once. -/
def free (freeIndex : List Slot) : TokenToKVPoolAllocator :=
  if freeIndex = [] then allocator
  else if pageSize = 1 then allocator.free freeIndex
  else if sorted : allocator.needSort = true then
    { allocator with releasePages := uniquePages pageSize freeIndex ++ allocator.releasePages, settled := by simp [sorted] }
  else { allocator with freePages := uniquePages pageSize freeIndex ++ allocator.freePages }

/-- `clear`; page 0 is the padding page. -/
def clear (numPages : Nat) (needSort : Bool) : TokenToKVPoolAllocator := TokenToKVPoolAllocator.clear numPages needSort

/-- The slots of the free pages. -/
def freeSlots : Multiset Slot := ↑(slotsOf pageSize allocator.slots)

end Allocate

variable {pageSize : Nat} {allocator after : TokenToKVPoolAllocator}

theorem mergeFor_slots (needed : Nat) : ((mergeFor allocator needed).slots : Multiset Slot) = allocator.slots := by
  unfold mergeFor
  split
  · exact allocator.mergeAndSortFree_slots
  · rfl

variable (pageSize) in
theorem freeSlots_takeFront {needed count : Nat} {taken : List Nat}
    (takes : (mergeFor allocator needed).takeFront count = some (taken,after)) :
    taken.length = count ∧ freeSlots pageSize allocator = slotsOf pageSize taken + freeSlots pageSize after := by
  obtain ⟨length,slots⟩ := TokenToKVPoolAllocator.takeFront_slots takes
  refine ⟨length,?_⟩
  rw [mergeFor_slots,coe_add,coe_eq_coe] at slots
  rw [freeSlots,freeSlots,coe_add,← slotsOf_append,coe_eq_coe]
  exact slotsOf_perm slots

theorem freeSlots_free (positive : 0 < pageSize) {freeIndex pages : List Nat} (laid : Laid pageSize freeIndex pages) (distinct : pages.Nodup) :
    freeSlots pageSize (free pageSize allocator freeIndex) = ↑(freeIndex ++ unused pageSize freeIndex) + freeSlots pageSize allocator := by
  rw [laid.unused positive]
  unfold free
  split
  · rename_i none
    have noPages : pages = [] := length_eq_zero_iff.mp (by rw [laid.count,none]; exact (ceil_eq_zero positive).mpr rfl)
    rw [noPages]; simp
  · split
    · rename_i _ single
      subst single
      have same : freeIndex = pages := by
        have := laid.front
        rw [slotsOf_one] at this
        rw [this,take_of_length_le (by rw [laid.count,ceil]; omega)]
      have slots := allocator.slots_free freeIndex
      rw [freeSlots,freeSlots,slotsOf_one,slotsOf_one,slotsOf_one,slots,same]
    · have put (rest : List Nat) : (slotsOf pageSize (uniquePages pageSize freeIndex ++ rest)).Perm
          (slotsOf pageSize pages ++ slotsOf pageSize rest) := by
        rw [slotsOf_append]
        exact (slotsOf_perm (laid.uniquePages positive distinct)).append_right _
      have front : (slotsOf pageSize (uniquePages pageSize freeIndex ++ allocator.slots) : Multiset Nat) =
          ↑(slotsOf pageSize pages) + freeSlots pageSize allocator := by
        rw [freeSlots,coe_add,coe_eq_coe]
        exact put _
      rw [← front]
      split
      · rw [freeSlots,coe_eq_coe]
        refine slotsOf_perm ?_
        show (allocator.freePages ++ (uniquePages pageSize freeIndex ++ allocator.releasePages)).Perm _
        rw [TokenToKVPoolAllocator.slots,← append_assoc,← append_assoc]
        exact List.Perm.append_right _ perm_append_comm
      · rw [freeSlots,coe_eq_coe]
        refine slotsOf_perm ?_
        show (uniquePages pageSize freeIndex ++ allocator.freePages ++ allocator.releasePages).Perm _
        rw [TokenToKVPoolAllocator.slots,append_assoc]

theorem freeSlots_free_pages (positive : 0 < pageSize) {freeIndex pages : List Nat} (whole : freeIndex = slotsOf pageSize pages)
    (distinct : freeIndex.Nodup) :
    freeSlots pageSize (free pageSize allocator freeIndex) = ↑freeIndex + freeSlots pageSize allocator := by
  subst whole
  have laid := laid_slotsOf positive pages
  rw [freeSlots_free positive laid ((slotsOf_nodup positive).mp distinct),laid.unused positive]

theorem freeSlots_clear (numPages : Nat) (needSort : Bool) :
    freeSlots pageSize (clear numPages needSort) = ↑(slotsOf pageSize (List.range' 1 numPages)) := by
  rw [freeSlots,clear,TokenToKVPoolAllocator.clear,TokenToKVPoolAllocator.slots,append_nil]

/-! ### What the kernels write -/

variable {lastLoc : Int}

theorem part1_eq (pageSize : Nat) {own : List Nat} (isLast : ∀ last ∈ own.getLast?, lastLoc = last) {count : Nat}
    (inside : count ≤ (unused pageSize own).length) :
    (List.range count).map (fun offset : Nat => (lastLoc + 1 + offset).toNat) = (unused pageSize own).take count := by
  cases ends : own.getLast? with
  | none =>
    obtain rfl := getLast?_eq_none_iff.mp ends
    have none : count = 0 := by simpa using inside
    subst none
    rfl
  | some last =>
    rw [unused,ends] at inside ⊢
    dsimp only at inside ⊢
    rw [length_range'] at inside
    rw [isLast last ends,List.range'_eq_map_range,← map_take,take_range,min_eq_left inside]
    refine map_congr_left (fun offset _ => ?_)
    omega

/-- The entries a request gets follow on from its own: first what its last page has left, then new pages. -/
theorem extendIndices_eq (positive : 0 < pageSize) {own fresh : List Nat} {prefixLen seqLen shared : Nat}
    (isPrefix : prefixLen = shared * pageSize + own.length) (longer : prefixLen < seqLen)
    (isLast : ∀ last ∈ own.getLast?, lastLoc = last) (enough : fresh.length = numNewPages pageSize prefixLen seqLen) :
    extendIndices pageSize prefixLen seqLen lastLoc fresh = (unused pageSize own ++ slotsOf pageSize fresh).take (seqLen - prefixLen) := by
  have left : (unused pageSize own).length = ceil pageSize prefixLen * pageSize - prefixLen := by
    rw [unused_length positive,isPrefix,ceil_add_mul positive,Nat.add_mul]; omega
  have low := le_ceil_mul positive prefixLen
  unfold extendIndices
  dsimp only
  rw [part1_eq pageSize isLast (by omega)]
  split
  · -- the request stays on its last page
    rename_i done
    rw [take_append_of_le_length (by omega)]
    congr 1
    omega
  · rename_i more
    have beyond : ceil pageSize prefixLen * pageSize < seqLen := by omega
    have old : ceil pageSize prefixLen ≤ seqLen / pageSize := (Nat.le_div_iff_mul_le positive).mpr beyond.le
    have whole : (seqLen / pageSize * pageSize - ceil pageSize prefixLen * pageSize) / pageSize = seqLen / pageSize - ceil pageSize prefixLen := by
      rw [← Nat.sub_mul,Nat.mul_div_cancel _ positive]
    have floor := Nat.div_mul_le_self seqLen pageSize
    have first : (unused pageSize own).take (min seqLen (ceil pageSize prefixLen * pageSize) - prefixLen) = unused pageSize own :=
      take_of_length_le (by omega)
    have rest : (unused pageSize own ++ slotsOf pageSize fresh).take (seqLen - prefixLen) =
        unused pageSize own ++ (slotsOf pageSize fresh).take (seqLen - ceil pageSize prefixLen * pageSize) := by
      rw [show seqLen - prefixLen = (unused pageSize own).length + (seqLen - ceil pageSize prefixLen * pageSize) by omega,
        take_length_add_append]
    rw [whole,first,rest]
    have mul := Nat.sub_mul (seqLen / pageSize) (ceil pageSize prefixLen) pageSize
    have fewer := Nat.mul_le_mul_right pageSize old
    split
    · rename_i done
      rw [← slotsOf_take,show seqLen - ceil pageSize prefixLen * pageSize =
        (seqLen / pageSize - ceil pageSize prefixLen) * pageSize by omega]
    · rename_i unfilled
      have isCeil : ceil pageSize seqLen = seqLen / pageSize + 1 := by
        have remainder := Nat.div_add_mod' seqLen pageSize
        have begins := ceil_add_mul positive (seqLen / pageSize) (seqLen % pageSize)
        rwa [remainder,ceil_eq_one positive (by omega) (Nat.mod_lt seqLen positive).le] at begins
      have length : fresh.length = seqLen / pageSize - ceil pageSize prefixLen + 1 := by
        rw [enough,numNewPages,isCeil]; omega
      obtain ⟨full,page,rfl⟩ : ∃ full page, fresh = full ++ [page] := by
        rcases eq_nil_or_concat fresh with rfl | ⟨full,page,same⟩
        · cases length
        · exact ⟨full,page,by simpa using same⟩
      have isFull : full.length = seqLen / pageSize - ceil pageSize prefixLen := by simpa using length
      rw [numNewPages,isCeil,show seqLen / pageSize + 1 - ceil pageSize prefixLen - 1 = full.length by omega,
        getElem?_append_right (Nat.le_refl _),Nat.sub_self,take_append_of_le_length (by omega),
        take_of_length_le (by omega),show seqLen - ceil pageSize prefixLen * pageSize =
          (seqLen / pageSize - ceil pageSize prefixLen) * pageSize + (seqLen - seqLen / pageSize * pageSize) by omega,
        slotsOf_take_add _ _ _ _ isFull,append_assoc]
      congr 2
      have small := Nat.lt_mul_div_succ seqLen positive
      rw [Nat.mul_add,Nat.mul_comm pageSize] at small
      rw [pageSlots,List.range'_eq_map_range,← map_take,take_range,min_eq_left (by omega)]
      rfl

theorem ceil_one (count : Nat) : ceil 1 count = count := by rw [ceil]; omega

section
variable (positive : 0 < pageSize)
include positive

theorem numNewPages_shared (shared count more : Nat) :
    numNewPages pageSize (shared * pageSize + count) (shared * pageSize + count + more) =
      ceil pageSize (count + more) - ceil pageSize count := by
  rw [numNewPages,Nat.add_assoc,ceil_add_mul positive,ceil_add_mul positive]; omega

theorem numNewPages_succ (prefixLen : Nat) :
    numNewPages pageSize prefixLen (prefixLen + 1) = if prefixLen % pageSize = 0 then 1 else 0 := by
  have small := Nat.mod_lt prefixLen positive
  have before := ceil_add_mul positive (prefixLen / pageSize) (prefixLen % pageSize)
  have after := ceil_add_mul positive (prefixLen / pageSize) (prefixLen % pageSize + 1)
  rw [← Nat.add_assoc,Nat.div_add_mod',ceil_eq_one positive (Nat.succ_pos _) small] at after
  rw [Nat.div_add_mod'] at before
  rw [numNewPages,after,before]
  split
  · rename_i full
    rw [full,(ceil_eq_zero positive).mpr rfl]; omega
  · rename_i begun
    rw [ceil_eq_one positive (Nat.pos_of_ne_zero begun) small.le]; omega

theorem freeSlots_extend {own pages fresh : List Nat} (laid : Laid pageSize own pages) (count : Nat)
    (enough : fresh.length = ceil pageSize (own.length + count) - ceil pageSize own.length)
    (taken : freeSlots pageSize allocator = slotsOf pageSize fresh + freeSlots pageSize after) (out : List Nat)
    (isOut : out = (unused pageSize own ++ slotsOf pageSize fresh).take count) :
    Laid pageSize (own ++ out) (pages ++ fresh) ∧ out.length = count ∧
      freeSlots pageSize allocator + ↑(own ++ unused pageSize own) =
        freeSlots pageSize after + ↑(own ++ out ++ unused pageSize (own ++ out)) := by
  have extended := laid.extend positive enough
  rw [← isOut] at extended
  refine ⟨extended,?_,?_⟩
  · have low := le_ceil_mul positive own.length
    have high := le_ceil_mul positive (own.length + count)
    have more := ceil_mono pageSize (Nat.le_add_right own.length count)
    rw [isOut,length_take,length_append,unused_length positive,slotsOf_length,enough,Nat.sub_mul]
    have := Nat.mul_le_mul_right pageSize more
    omega
  · rw [laid.unused positive,extended.unused positive,slotsOf_append,taken,← coe_add]
    abel

/-- An extension lays the new entries behind the request's own and takes the pages for them from the free ones. -/
theorem allocExtend_spec {batch : BatchSize} {own pages : List Nat} (laid : Laid pageSize own pages)
    {prefixLen seqLen shared : Nat} (isPrefix : prefixLen = shared * pageSize + own.length) (longer : prefixLen < seqLen)
    (isLast : ∀ last ∈ own.getLast?, lastLoc = last) {out : List Nat}
    (allocates : allocExtend pageSize batch allocator prefixLen seqLen lastLoc = some (out,after)) :
    ∃ fresh, Laid pageSize (own ++ out) (pages ++ fresh) ∧ out.length = seqLen - prefixLen ∧
      freeSlots pageSize allocator + ↑(own ++ unused pageSize own) =
        freeSlots pageSize after + ↑(own ++ out ++ unused pageSize (own ++ out)) := by
  have new : numNewPages pageSize prefixLen seqLen = ceil pageSize (own.length + (seqLen - prefixLen)) - ceil pageSize own.length := by
    rw [← numNewPages_shared positive shared,← isPrefix,Nat.add_sub_cancel' longer.le]
  unfold allocExtend at allocates
  split at allocates
  · rename_i single
    subst single
    obtain ⟨length,taken⟩ := freeSlots_takeFront 1 allocates
    have noRest : unused 1 own = [] := length_eq_zero_iff.mp (by rw [unused_length positive,ceil_one]; omega)
    refine ⟨out,freeSlots_extend positive laid _ ?_ taken out ?_⟩
    · rw [length,ceil_one,ceil_one]; omega
    · rw [noRest,slotsOf_one,nil_append,take_of_length_le (by omega)]
  · obtain ⟨⟨fresh,left⟩,takes,same⟩ := Option.map_eq_some_iff.mp allocates
    cases same
    obtain ⟨length,taken⟩ := freeSlots_takeFront pageSize takes
    exact ⟨fresh,freeSlots_extend positive laid _ (by rw [length,new]) taken _ (extendIndices_eq positive isPrefix longer isLast length)⟩

theorem allocDecode_spec {batch : BatchSize} {own pages : List Nat} (laid : Laid pageSize own pages)
    {prefixLen shared : Nat} (isPrefix : prefixLen = shared * pageSize + own.length)
    (isLast : ∀ last ∈ own.getLast?, lastLoc = last) {out : Nat}
    (allocates : allocDecode pageSize batch allocator (prefixLen + 1) lastLoc = some (out,after)) :
    ∃ fresh, Laid pageSize (own ++ [out]) (pages ++ fresh) ∧
      freeSlots pageSize allocator + ↑(own ++ unused pageSize own) =
        freeSlots pageSize after + ↑(own ++ [out] ++ unused pageSize (own ++ [out])) := by
  have new : numNewPages pageSize prefixLen (prefixLen + 1) = ceil pageSize (own.length + 1) - ceil pageSize own.length := by
    rw [← numNewPages_shared positive shared,← isPrefix]
  unfold allocDecode at allocates
  split at allocates
  · rename_i single
    subst single
    obtain ⟨⟨fresh,left⟩,takes,same⟩ := Option.map_eq_some_iff.mp allocates
    cases same
    obtain ⟨length,taken⟩ := freeSlots_takeFront 1 takes
    obtain ⟨slot,rfl⟩ := length_eq_one_iff.mp length
    have noRest : unused 1 own = [] := length_eq_zero_iff.mp (by rw [unused_length positive,ceil_one]; omega)
    have spec := freeSlots_extend positive laid 1 (by rw [ceil_one,ceil_one]; simp) taken [slot] (by rw [noRest,slotsOf_one]; rfl)
    exact ⟨[slot],spec.1,spec.2.2⟩
  · rename_i several
    obtain ⟨⟨fresh,left⟩,takes,same⟩ := Option.map_eq_some_iff.mp allocates
    cases same
    obtain ⟨length,taken⟩ := freeSlots_takeFront pageSize takes
    have rest : (unused pageSize own).length = 0 ↔ prefixLen % pageSize = 0 := by
      have low := le_ceil_mul positive own.length
      have high := ceil_mul_lt positive own.length
      rw [unused_length positive,isPrefix,Nat.mul_add_mod']
      constructor
      · intro none
        rw [show own.length = ceil pageSize own.length * pageSize by omega,Nat.mul_mod_left]
      · intro full
        obtain ⟨whole,isWhole⟩ := Nat.dvd_of_mod_eq_zero full
        rw [isWhole,Nat.mul_comm pageSize whole,ceil_mul positive,Nat.sub_self]
    have begins : (if (prefixLen + 1) % pageSize = 1 then 1 else 0) = numNewPages pageSize prefixLen (prefixLen + 1) := by
      have small := Nat.mod_lt prefixLen positive
      rw [numNewPages_succ positive,Nat.add_mod,Nat.mod_eq_of_lt (show 1 < pageSize by omega)]
      by_cases full : prefixLen % pageSize = 0
      · rw [if_pos full,full,Nat.zero_add,Nat.mod_eq_of_lt (show 1 < pageSize by omega),if_pos rfl]
      · rw [if_neg full,if_neg]
        by_cases last : prefixLen % pageSize + 1 = pageSize
        · rw [last,Nat.mod_self]; omega
        · rw [Nat.mod_eq_of_lt (by omega)]; omega
    rw [begins] at length
    have isOut : [decodeIndex pageSize (prefixLen + 1) lastLoc fresh] = (unused pageSize own ++ slotsOf pageSize fresh).take 1 := by
      rw [decodeIndex,Nat.add_sub_cancel]
      rw [numNewPages_succ positive] at length ⊢
      by_cases full : prefixLen % pageSize = 0
      · rw [if_pos full] at length ⊢
        obtain ⟨page,rfl⟩ := length_eq_one_iff.mp length
        obtain ⟨more,isSize⟩ := Nat.exists_eq_succ_of_ne_zero positive.ne'
        rw [length_eq_zero_iff.mp (rest.mpr full),if_neg (by decide),slotsOf_cons,pageSlots,isSize]
        rfl
      · rw [if_neg full] at length ⊢
        have some : 1 ≤ (unused pageSize own).length := Nat.pos_of_ne_zero (fun none => full (rest.mp none))
        rw [take_append_of_le_length some,← part1_eq pageSize isLast some,if_pos rfl]
        simp
    have spec := freeSlots_extend positive laid 1 (by rw [length,new]) taken _ isOut
    exact ⟨fresh,spec.1,spec.2.2⟩

end

end Hypic.PagedAllocator
