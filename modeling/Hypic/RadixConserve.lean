import Hypic.RadixCalls
import Hypic.RadixServe

/-! Requests and a radix cache share the KV slots: every slot is free, held by the tree, or a request's own. -/

namespace Hypic.RadixServe
open Policy Agree Forest RadixTree Radix RadixCache Pages PagedAllocator Allocator List Option Dict RadixKey
variable {params : CacheInitParams} {req : Req} {forest : Forest TreeNode} {cache : RadixCache} {holds : Multiset Nat}
  {allocator : TokenToKVPoolAllocator}

/-! ### Keys of a request -/

/-- The units of a request's tokens. -/
def reqUnits (params : CacheInitParams) (req : Req) : List KeyUnit := RadixKey.unitsFrom params.isEagle req.tokenIds

/-- How many units of so many tokens are cached. -/
def keyLen (params : CacheInitParams) (count : Nat) : Nat :=
  RadixKey.unitCount params.isEagle count / params.pageSize * params.pageSize

theorem keyLen_le (count : Nat) : keyLen params count ≤ count := by
  refine (Nat.div_mul_le_self ..).trans ?_
  unfold RadixKey.unitCount
  split <;> omega

theorem radixKey_isBigram (count : Nat) : (radixKey params req count).isBigram = params.isEagle := by
  unfold radixKey RadixKey.pageAligned
  split
  · rfl
  · unfold RadixKey.slice
    dsimp only
    split
    · rename_i eagle; exact eagle.symm
    · rename_i plain; simpa using plain

@[simp] theorem radixKey_extraKey (count : Nat) : (radixKey params req count).extraKey = req.extraKey := pageAligned_extraKey

variable {count : Nat}

theorem radixKey_length (inside : count ≤ req.tokenIds.length) : (radixKey params req count).length = keyLen params count := by
  rw [radixKey,RadixKey.pageAligned_length,← RadixKey.units_length,RadixKey.units_of_limit rfl]
  show (RadixKey.unitsFrom params.isEagle (req.tokenIds.take count)).length / _ * _ = _
  rw [RadixKey.unitsFrom_length,length_take_of_le inside]
  rfl

theorem radixKey_units (inside : count ≤ req.tokenIds.length) :
    (radixKey params req count).units = (reqUnits params req).take (keyLen params count) := by
  have length : (radixKey params req count).length = _ := radixKey_length inside
  have all : (radixKey params req count).units <+: reqUnits params req := by
    rw [radixKey,RadixKey.pageAligned_units,RadixKey.units_of_limit rfl]
    refine ( take_prefix ..).trans ?_
    show RadixKey.unitsFrom params.isEagle (req.tokenIds.take count) <+: _
    rw [RadixKey.unitsFrom_take]
    exact take_prefix ..
  rw [prefix_iff_eq_take.mp all,RadixKey.units_length,length]

theorem lookupKey_radixKey (count : Nat) : (lookupKey params (radixKey params req count)).units = (radixKey params req count).units := by
  have same : ((radixKey params req count).maybeToBigramView params.isEagle none).1 = radixKey params req count := by
    rw [RadixKey.maybeToBigramView,radixKey_isBigram,if_neg (by simp)]
  have aligned : params.pageSize ∣ (radixKey params req count).length := by
    rw [radixKey,RadixKey.pageAligned_length]; exact Nat.dvd_mul_left ..
  rw [lookupKey,same,RadixKey.pageAligned_units,Nat.div_mul_cancel aligned,← RadixKey.units_length,take_length]

theorem lookupKey_tokens (params : CacheInitParams) (tokenIds : List Token) (extraKey : Option String) (limit : Option Nat) :
    (lookupKey params ⟨tokenIds,extraKey,false,limit⟩).units <+: RadixKey.unitsFrom params.isEagle tokenIds := by
  rw [lookupKey,pageAligned_units]
  refine ( take_prefix ..).trans ?_
  unfold RadixKey.maybeToBigramView
  cases params.isEagle with
  | true => exact take_prefix ..
  | false => exact take_prefix ..

/-! ### What holds of every request -/

/-- The row a request has, or will have when its first chunk is written. -/
def entries (req : Req) : List Slot := if req.stage = .matched then req.prefixIndices else req.row

/-- A request's own slots with what its last page has left. -/
def ownSlots (params : CacheInitParams) (req : Req) : Multiset Slot :=
  ↑((entries req).drop req.cacheProtectedLen ++ unused params.pageSize ((entries req).drop req.cacheProtectedLen))

/-- A request in order: up to its protected length it reads what its locked node stands for, and from there on its own pages. -/
structure ReqOk (params : CacheInitParams) (forest : Forest TreeNode) (req : Req) : Prop where
  leads : Leads forest req.extraKey ((reqUnits params req).take req.cacheProtectedLen) ((entries req).take req.cacheProtectedLen) req.lastNode
  aligned : params.pageSize ∣ req.cacheProtectedLen
  laid : ∃ pages, Laid params.pageSize ((entries req).drop req.cacheProtectedLen) pages
  inside : req.cacheProtectedLen ≤ (entries req).length
  known : (entries req).length ≤ req.tokenIds.length
  matched : req.stage = .matched → req.prefixIndices.length = req.cacheProtectedLen
  filled : req.stage ≠ .matched → req.fillLen ≤ req.row.length ∧ req.cacheProtectedLen ≤ keyLen params req.fillLen
  cached : req.stage = .cached → req.prefixIndices = req.row.take req.fillLen

theorem ReqOk.keep (ok : ReqOk params forest req) {after : Forest TreeNode}
    (keeps : Leads forest req.extraKey ((reqUnits params req).take req.cacheProtectedLen) ((entries req).take req.cacheProtectedLen) req.lastNode →
      Leads after req.extraKey ((reqUnits params req).take req.cacheProtectedLen) ((entries req).take req.cacheProtectedLen) req.lastNode) :
    ReqOk params after req := { ok with leads := keeps ok.leads }

theorem ReqOk.entries_laid (ok : ReqOk params forest req) (whole : WholePages params.pageSize forest) :
    ∃ pages, Laid params.pageSize (entries req) pages := by
  obtain ⟨shared,isShared⟩ := pages_of_leads whole ok.leads
  obtain ⟨own,laid⟩ := ok.laid
  have both := laid.cons_pages params.pagePositive shared
  rw [← isShared,take_append_drop] at both
  exact ⟨_,both⟩

theorem owned_split {pageSize : Nat} (positive : 0 < pageSize) {own pages : List Nat} (laid : Laid pageSize own pages) {cut : Nat}
    (aligned : pageSize ∣ cut) (inside : cut ≤ own.length) :
    (↑(own ++ unused pageSize own) : Multiset Nat) = ↑(own.take cut) + ↑(own.drop cut ++ unused pageSize (own.drop cut)) := by
  obtain ⟨count,rfl⟩ := aligned
  rw [Nat.mul_comm] at inside ⊢
  rw [laid.unused positive,(laid.drop positive inside).unused positive,laid.take inside,coe_add,← slotsOf_append,take_append_drop]

/-! ### Inserting a request -/

/-- What is inserted for a request's first tokens: the slots of its row, of which the tree knew at least the protected ones. -/
structure Stored (params : CacheInitParams) (cache : RadixCache) (holds : Multiset Nat) (req : Req) (count : Nat) (result : Nat × RadixCache) :
    Prop extends Inserted params cache holds req.extraKey ((reqUnits params req).take (keyLen params count))
      (req.row.take (keyLen params count)) result where
  shared : req.cacheProtectedLen ≤ result.1
  bounded : result.1 ≤ keyLen params count
  aligned : params.pageSize ∣ result.1
  front : req.row.take req.cacheProtectedLen <+:
    trace params.pageSize req.extraKey ((reqUnits params req).take (keyLen params count)) cache.forest

theorem insertReq_spec (ok : ReqOk params cache.forest req) (begun : req.stage ≠ .matched) (inside : count ≤ req.row.length)
    (enough : req.cacheProtectedLen ≤ keyLen params count) (balanced : BalancedBy params cache holds) (chunked : Bool) (now : Int) :
    ∃ result, insertReq params req (radixKey params req count) chunked now cache = some result ∧ Stored params cache holds req count result := by
  have isRow : entries req = req.row := if_neg begun
  have known : count ≤ req.tokenIds.length := inside.trans (isRow ▸ ok.known)
  have length : (radixKey params req count).length = _ := radixKey_length known
  have short : keyLen params count ≤ count := keyLen_le count
  have paired : (radixKey params req count).length ≤ (req.row.take (radixKey params req count).length).length := by
    rw [length,length_take]; omega
  refine ⟨_,dif_pos paired,?_⟩
  generalize isGiven : (InsertParams.mk (radixKey params req count) _ _ _ _) = given
  have isKey : given.key = radixKey params req count := by rw [← isGiven]
  have isValue : insertedValue params given = req.row.take (keyLen params count) := by
    have same : (lookupKey params given.key).length = keyLen params count := by
      rw [isKey,← RadixKey.units_length,lookupKey_radixKey,RadixKey.units_length,length]
    unfold insertedValue
    dsimp only
    rw [same,← isGiven]
    dsimp only
    rw [RadixKey.maybeToBigramView,radixKey_isBigram,if_neg (by simp)]
    dsimp only
    rw [length,take_take,min_self]
  have inserted := balanced.insert given now
  rw [isValue,isKey,lookupKey_radixKey,radixKey_units known,radixKey_extraKey] at inserted
  have units : (reqUnits params req).take (keyLen params count) = (reqUnits params req).take req.cacheProtectedLen ++
      ((reqUnits params req).take (keyLen params count)).drop req.cacheProtectedLen := by
    have split := (take_append_drop req.cacheProtectedLen ((reqUnits params req).take (keyLen params count))).symm
    rwa [take_take,min_eq_left enough] at split
  obtain ⟨sized,front⟩ := ok.leads.trace params.pagePositive balanced.sound.tidy
    (((reqUnits params req).take (keyLen params count)).drop req.cacheProtectedLen)
  rw [← units,isRow] at front
  have protectedLen : (req.row.take req.cacheProtectedLen).length = req.cacheProtectedLen := by
    have := ok.inside
    rw [isRow] at this
    rw [length_take]; omega
  refine { inserted with shared := ?_, bounded := ?_, aligned := ?_, front := front }
  · rw [inserted.known,← protectedLen]; exact front.length_le
  · rw [inserted.known]
    refine (trace_length_le balanced.sound.tidy _).trans ?_
    rw [length_take]; exact min_le_left ..
  · rw [inserted.known]; exact trace_length_dvd balanced.sound.tidy _

/-! ### Caching a request -/

theorem slice_append {slots : List Slot} {first second third : Nat} (le : first ≤ second) (le' : second ≤ third) (inside : third ≤ slots.length) :
    (slots.take second).drop first ++ (slots.take third).drop second = (slots.take third).drop first := by
  have split := take_append_drop second (slots.take third)
  rw [take_take,min_eq_left le'] at split
  conv_rhs => rw [← split,drop_append_of_le_length (by rw [length_take]; omega)]

/-- A request's own slots from its protected length to two later page boundaries. -/
theorem own_parts (ok : ReqOk params forest req) (begun : req.stage ≠ .matched) {known cached : Nat} (shared : req.cacheProtectedLen ≤ known)
    (le : known ≤ cached) (inside : cached ≤ req.row.length) (alignedKnown : params.pageSize ∣ known) (alignedCached : params.pageSize ∣ cached) :
    ownSlots params req = ↑((req.row.take known).drop req.cacheProtectedLen) + ↑((req.row.take cached).drop known) +
        ↑(req.row.drop cached ++ unused params.pageSize (req.row.drop cached)) ∧
      (∃ pages, (req.row.take known).drop req.cacheProtectedLen = slotsOf params.pageSize pages) ∧
      ∃ pages, Laid params.pageSize (req.row.drop cached) pages := by
  have positive := params.pagePositive
  have isRow : entries req = req.row := if_neg begun
  obtain ⟨pages,laid⟩ := ok.laid
  rw [isRow] at laid
  have length : (req.row.drop req.cacheProtectedLen).length = req.row.length - req.cacheProtectedLen := length_drop ..
  have cutCached : params.pageSize ∣ cached - req.cacheProtectedLen := Nat.dvd_sub alignedCached ok.aligned
  obtain ⟨count,isCount⟩ : params.pageSize ∣ known - req.cacheProtectedLen := Nat.dvd_sub alignedKnown ok.aligned
  obtain ⟨count',isCount'⟩ := cutCached
  have dropped : (req.row.drop req.cacheProtectedLen).drop (cached - req.cacheProtectedLen) = req.row.drop cached := by
    rw [drop_drop,Nat.add_sub_cancel' (shared.trans le)]
  refine ⟨?_,⟨pages.take count,?_⟩,pages.drop count',?_⟩
  · rw [ownSlots,isRow,owned_split positive laid (Dvd.intro _ isCount'.symm) (by omega),dropped,← drop_take,
      ← slice_append shared le inside,← coe_add]
  · rw [drop_take,isCount,Nat.mul_comm,laid.take (by rw [Nat.mul_comm,← isCount]; omega)]
  · rw [← dropped,isCount',Nat.mul_comm]
    exact laid.drop positive (by rw [Nat.mul_comm,← isCount']; omega)

theorem keyLen_dvd (count : Nat) : params.pageSize ∣ keyLen params count := Nat.dvd_mul_left ..

theorem keyLen_mono {less more : Nat} (le : less ≤ more) : keyLen params less ≤ keyLen params more := by
  refine Nat.mul_le_mul_right _ (Nat.div_le_div_right ?_)
  unfold RadixKey.unitCount
  split <;> omega

/-- `cache_unfinished_req` succeeds: the tree takes over the request's full pages that it lacks, and the request reads the tree. -/
theorem cacheUnfinishedReq_spec (ok : ReqOk params cache.forest req) (isFilled : req.stage = .filled)
    (balanced : BalancedBy params cache (↑req.lastNode.toList + holds)) (whole : WholePages params.pageSize cache.forest)
    (distinct : (ownSlots params req).Nodup) (allocator : TokenToKVPoolAllocator) (chunked : Bool) (now : Int) :
    ∃ req' cache' allocator', cacheUnfinishedReq params chunked now req cache allocator = some (req',cache',allocator') ∧
      BalancedBy params cache' (↑req'.lastNode.toList + holds) ∧ WholePages params.pageSize cache'.forest ∧ Keeps cache.forest cache'.forest ∧
      ReqOk params cache'.forest req' ∧
      freeSlots params.pageSize allocator' + treeSlots cache'.forest + ownSlots params req' =
        freeSlots params.pageSize allocator + treeSlots cache.forest + ownSlots params req := by
  have positive := params.pagePositive
  have begun : req.stage ≠ .matched := by rw [isFilled]; nofun
  have isRow : entries req = req.row := if_neg begun
  obtain ⟨inRow,enough⟩ := ok.filled begun
  have known : req.row.length ≤ req.tokenIds.length := isRow ▸ ok.known
  have short : keyLen params req.fillLen ≤ req.fillLen := keyLen_le _
  have length : (radixKey params req req.fillLen).length = keyLen params req.fillLen := radixKey_length (inRow.trans known)
  obtain ⟨inserted,inserts,stored⟩ := insertReq_spec ok begun inRow enough balanced chunked now
  obtain ⟨owned,⟨freedPages,isFreed⟩,restPages,laidRest⟩ := own_parts ok begun stored.shared stored.bounded (short.trans inRow) stored.aligned
    (keyLen_dvd _)
  have shorter := stored.bounded
  have shared := stored.shared
  have freed : ((req.row.take req.fillLen).take inserted.1).drop req.cacheProtectedLen = (req.row.take inserted.1).drop req.cacheProtectedLen := by
    rw [take_take,min_eq_left (shorter.trans short)]
  have freedDistinct : ((req.row.take inserted.1).drop req.cacheProtectedLen).Nodup := by
    rw [owned,add_assoc] at distinct
    exact nodup_of_le (Multiset.le_add_right ..) distinct
  have freeing : freeSlots params.pageSize (free params.pageSize allocator _) = _ := freeSlots_free_pages positive isFreed freedDistinct
  have wholeRow : ∃ pages, req.row.take (keyLen params req.fillLen) = slotsOf params.pageSize pages := by
    obtain ⟨pages,laid⟩ := ok.entries_laid whole
    rw [isRow] at laid
    exact ⟨_,laid.take (short.trans inRow)⟩
  have whole' := stored.whole whole wholeRow
  -- the match after the insertion finds the whole key
  have matched := stored.balanced.matchPrefix (radixKey params req req.fillLen) now
  have found := matched.found
  rw [lookupKey_radixKey,radixKey_units (inRow.trans known),radixKey_extraKey,stored.found] at found
  have leads := matched.leads
  rw [lookupKey_radixKey,radixKey_units (inRow.trans known),radixKey_extraKey] at leads
  generalize isMatch : inserted.2.matchPrefix params (radixKey params req req.fillLen) now = result at matched found leads
  have full : result.1.deviceIndices.length = keyLen params req.fillLen := by
    rw [found,length_append,← stored.known,length_drop,length_take]; omega
  have front : result.1.deviceIndices.take req.cacheProtectedLen = req.row.take req.cacheProtectedLen := by
    have starts := stored.front.trans (prefix_append _ ((req.row.take (keyLen params req.fillLen)).drop inserted.1))
    rw [← found] at starts
    have := prefix_iff_eq_take.mp starts
    rw [length_take_of_le (by omega)] at this
    exact this.symm
  have isRow' : (adopt result.1.deviceIndices result.1.lastNode req).row =
      result.1.deviceIndices ++ req.row.drop (keyLen params req.fillLen) := by
    rw [adopt]
    dsimp only
    rw [← front,take_append_drop,full]
  have entries' : entries (adopt result.1.deviceIndices result.1.lastNode req) =
      result.1.deviceIndices ++ req.row.drop (keyLen params req.fillLen) := isRow'
  obtain ⟨delta,unlocked,unlocks,freeMoved⟩ := matched.balanced.decLockRef
  obtain ⟨delta',locked,locks,lockMoved⟩ := freeMoved.balanced.incLockRef (freeMoved.keeps _ _ _ _ leads).mem
  have keeps : Keeps result.2.forest locked.forest := freeMoved.keeps.trans lockMoved.keeps
  refine ⟨adopt result.1.deviceIndices result.1.lastNode req,locked,
    free params.pageSize allocator (((req.row.take req.fillLen).take inserted.1).drop req.cacheProtectedLen),?_,lockMoved.balanced,
    lockMoved.whole (freeMoved.whole (matched.whole whole')),stored.keeps.trans (matched.keeps.trans keeps),?_,?_⟩
  · rw [cacheUnfinishedReq,inserts]
    dsimp only [bind_some]
    rw [isMatch,if_pos (by rw [full,length]),unlocks]
    dsimp only [bind_some]
    rw [locks]
    rfl
  · have isLen : (adopt result.1.deviceIndices result.1.lastNode req).cacheProtectedLen = keyLen params req.fillLen := full
    constructor
    · rw [entries',isLen,take_left' full]
      rw [full,take_take,min_self] at leads
      exact keeps _ _ _ _ leads
    · rw [isLen]; exact keyLen_dvd _
    · rw [entries',isLen,drop_left' full]
      exact ⟨restPages,laidRest⟩
    · rw [entries',isLen,length_append]; omega
    · rw [entries',length_append,full,length_drop]
      show _ ≤ req.tokenIds.length
      omega
    · nofun
    · intro _
      rw [isRow',isLen,length_append,full,length_drop]
      exact ⟨by show req.fillLen ≤ _; omega,le_rfl⟩
    · intro _
      rw [isRow']
      have split := take_append_drop result.1.deviceIndices.length
        ((result.1.deviceIndices ++ req.row.drop (keyLen params req.fillLen)).take req.fillLen)
      rw [take_take,min_eq_left (by omega),take_left] at split
      refine Eq.trans ?_ split
      rw [← isRow']
      rfl
  · have rest : ownSlots params (adopt result.1.deviceIndices result.1.lastNode req) =
        ↑(req.row.drop (keyLen params req.fillLen) ++ unused params.pageSize (req.row.drop (keyLen params req.fillLen))) := by
      rw [ownSlots,entries',show (adopt result.1.deviceIndices result.1.lastNode req).cacheProtectedLen = _ from full,drop_left' full]
    rw [freed,freeing,lockMoved.slots,freeMoved.slots,matched.slots,stored.slots,owned,rest]
    abel

/-- `cache_finished_req` succeeds: every slot of the request's own goes to the tree or back to the allocator. -/
theorem cacheFinishedReq_spec (ok : ReqOk params cache.forest req) (begun : req.stage ≠ .matched)
    (balanced : BalancedBy params cache (↑req.lastNode.toList + holds)) (whole : WholePages params.pageSize cache.forest)
    (distinct : (ownSlots params req).Nodup) (allocator : TokenToKVPoolAllocator) (isInsert : Bool) (now : Int) :
    ∃ cache' allocator', cacheFinishedReq params isInsert now req cache allocator = some (cache',allocator') ∧
      BalancedBy params cache' holds ∧ WholePages params.pageSize cache'.forest ∧ Keeps cache.forest cache'.forest ∧
      freeSlots params.pageSize allocator' + treeSlots cache'.forest =
        freeSlots params.pageSize allocator + treeSlots cache.forest + ownSlots params req := by
  have positive := params.pagePositive
  have isRow : entries req = req.row := if_neg begun
  obtain ⟨inRow,enough⟩ := ok.filled begun
  have enough : req.cacheProtectedLen ≤ keyLen params req.row.length := enough.trans (keyLen_mono inRow)
  have known : req.row.length ≤ req.tokenIds.length := isRow ▸ ok.known
  have short : keyLen params req.row.length ≤ req.row.length := keyLen_le _
  have length : (radixKey params req req.row.length).length = keyLen params req.row.length := radixKey_length known
  -- what the tree takes over, if anything
  obtain ⟨inserted,inserts,between,le,aligned,balanced',whole',keeps',slots'⟩ : ∃ inserted,
      (if isInsert then insertReq params req (radixKey params req req.row.length) false now cache
        else some ((radixKey params req req.row.length).length,cache)) = some inserted ∧
      req.cacheProtectedLen ≤ inserted.1 ∧ inserted.1 ≤ keyLen params req.row.length ∧ params.pageSize ∣ inserted.1 ∧
      BalancedBy params inserted.2 (↑req.lastNode.toList + holds) ∧ WholePages params.pageSize inserted.2.forest ∧
      Keeps cache.forest inserted.2.forest ∧
      treeSlots inserted.2.forest = treeSlots cache.forest + ↑((req.row.take (keyLen params req.row.length)).drop inserted.1) := by
    cases isInsert with
    | true =>
      obtain ⟨inserted,inserts,stored⟩ := insertReq_spec ok begun le_rfl enough balanced false now
      obtain ⟨pages,laid⟩ := ok.entries_laid whole
      rw [isRow] at laid
      exact ⟨inserted,inserts,stored.shared,stored.bounded,stored.aligned,stored.balanced,stored.whole whole ⟨_,laid.take short⟩,stored.keeps,
        stored.slots⟩
    | false =>
      refine ⟨_,rfl,by rw [length]; exact enough,by rw [length],by rw [length]; exact keyLen_dvd _,balanced,whole,Keeps.refl _,?_⟩
      rw [length,drop_of_length_le (by rw [length_take]; exact min_le_left ..)]
      simp
  obtain ⟨owned,⟨freedPages,isFreed⟩,restPages,laidRest⟩ := own_parts ok begun between le short aligned (keyLen_dvd _)
  have freedDistinct : ((req.row.take inserted.1).drop req.cacheProtectedLen).Nodup := by
    rw [owned,add_assoc] at distinct
    exact nodup_of_le (Multiset.le_add_right ..) distinct
  have restDistinct : restPages.Nodup := by
    have apart : (↑(req.row.drop (keyLen params req.row.length) ++ unused params.pageSize (req.row.drop (keyLen params req.row.length))) :
        Multiset Slot).Nodup := by
      rw [owned] at distinct
      exact nodup_of_le (Multiset.le_add_left ..) distinct
    rw [laidRest.unused positive] at apart
    exact (slotsOf_nodup positive).mp apart
  obtain ⟨delta,unlocked,unlocks,moved⟩ := balanced'.decLockRef
  refine ⟨unlocked,free params.pageSize (free params.pageSize allocator ((req.row.take inserted.1).drop req.cacheProtectedLen))
    (req.row.drop (radixKey params req req.row.length).length),?_,moved.balanced,moved.whole whole',keeps'.trans moved.keeps,?_⟩
  · rw [cacheFinishedReq]
    dsimp only
    rw [inserts,bind_some,unlocks]
    rfl
  · rw [length,freeSlots_free positive laidRest restDistinct,freeSlots_free_pages positive isFreed freedDistinct,moved.slots,slots',owned]
    abel

/-! ### The other calls of a request -/

theorem beginReq_spec (balanced : BalancedBy params cache holds) (whole : WholePages params.pageSize cache.forest) (tokenIds : List Token)
    (extraKey : Option String) (limit : Option Nat) (priority now : Int) :
    ∃ req' cache', beginReq params tokenIds extraKey limit priority now cache = some (req',cache') ∧
      BalancedBy params cache' (↑req'.lastNode.toList + holds) ∧ WholePages params.pageSize cache'.forest ∧ Keeps cache.forest cache'.forest ∧
      ReqOk params cache'.forest req' ∧ treeSlots cache'.forest = treeSlots cache.forest ∧ ownSlots params req' = 0 := by
  have positive := params.pagePositive
  have matched := balanced.matchPrefix ⟨tokenIds,extraKey,false,limit⟩ now
  generalize isMatch : cache.matchPrefix params ⟨tokenIds,extraKey,false,limit⟩ now = result at matched
  obtain ⟨delta,locked,locks,moved⟩ := matched.balanced.incLockRef matched.leads.mem
  have units := lookupKey_tokens params tokenIds extraKey limit
  have found := matched.found
  have bound : result.1.deviceIndices.length ≤ (lookupKey params ⟨tokenIds,extraKey,false,limit⟩).units.length := by
    rw [found]; exact trace_length_le balanced.sound.tidy _
  have tokens : result.1.deviceIndices.length ≤ tokenIds.length := by
    refine bound.trans (units.length_le.trans ?_)
    rw [unitsFrom_length]
    unfold RadixKey.unitCount
    split <;> omega
  have leads := matched.leads
  rw [prefix_iff_eq_take.mp units,take_take,min_eq_left bound] at leads
  refine ⟨_,locked,by rw [beginReq,isMatch,locks]; rfl,moved.balanced,moved.whole (matched.whole whole),
    matched.keeps.trans moved.keeps,?_,by rw [moved.slots,matched.slots],?_⟩
  · constructor
    · simp only [entries,if_true,take_length]
      exact moved.keeps _ _ _ _ leads
    · dsimp only
      rw [found]; exact trace_length_dvd balanced.sound.tidy _
    · simp only [entries,if_true,drop_length]
      exact ⟨[],laid_nil positive⟩
    · simp only [entries,if_true]; exact le_rfl
    · simp only [entries,if_true]; exact tokens
    · exact fun _ => rfl
    · exact fun begun => absurd rfl begun
    · nofun
  · simp [ownSlots,entries]

theorem lastLoc_own {slots : List Slot} : ∀ last ∈ (slots.drop count).getLast?, lastLoc slots = last := by
  intro last isLast
  have ends : slots.getLast? = some last := by
    rw [← take_append_drop count slots,getLast?_append,isLast]; rfl
  rw [lastLoc,ends]; rfl

theorem ReqOk.grow (ok : ReqOk params forest req) {out : List Slot} {req' : Req} (isEntries : entries req' = entries req ++ out)
    (sameExtra : req'.extraKey = req.extraKey) (sameLen : req'.cacheProtectedLen = req.cacheProtectedLen) (sameNode : req'.lastNode = req.lastNode)
    (tokens : req.tokenIds <+: req'.tokenIds) (laid : ∃ pages, Laid params.pageSize ((entries req).drop req.cacheProtectedLen ++ out) pages)
    (known : (entries req').length ≤ req'.tokenIds.length) (begun : req'.stage ≠ .matched)
    (filled : req'.fillLen ≤ req'.row.length ∧ req'.cacheProtectedLen ≤ keyLen params req'.fillLen)
    (cached : req'.stage = .cached → req'.prefixIndices = req'.row.take req'.fillLen) (sound : Tidy params.pageSize none forest) :
    ReqOk params forest req' := by
  have inside := ok.inside
  have sized := (ok.leads.trace params.pagePositive sound []).1
  rw [length_take,length_take,min_eq_left inside] at sized
  have units : (reqUnits params req').take req.cacheProtectedLen = (reqUnits params req).take req.cacheProtectedLen := by
    have front := unitsFrom_take params.isEagle req'.tokenIds req.tokenIds.length
    rw [← prefix_iff_eq_take.mp tokens] at front
    rw [reqUnits,reqUnits,front,take_take]
    have count : req.cacheProtectedLen ≤ (reqUnits params req).length := by omega
    rw [reqUnits,unitsFrom_length] at count
    rw [min_eq_left count]
  refine ⟨?_,by rw [sameLen]; exact ok.aligned,?_,?_,known,fun isMatched => absurd isMatched begun,fun _ => filled,cached⟩
  · rw [isEntries,sameLen,sameNode,sameExtra,units,take_append_of_le_length inside]
    exact ok.leads
  · rw [isEntries,sameLen,drop_append_of_le_length inside]
    exact laid
  · rw [isEntries,sameLen,length_append]
    omega

theorem extendReq_spec (ok : ReqOk params forest req) (sound : Tidy params.pageSize none forest) {batch : BatchSize} {req' : Req}
    {allocator' : TokenToKVPoolAllocator} (extends_ : extendReq params count batch req allocator = some (req',allocator')) :
    ReqOk params forest req' ∧ req'.lastNode = req.lastNode ∧
      freeSlots params.pageSize allocator' + ownSlots params req' = freeSlots params.pageSize allocator + ownSlots params req := by
  have positive := params.pagePositive
  rw [extendReq] at extends_
  split at extends_
  · rename_i allowed
    obtain ⟨some,short,ready⟩ := allowed
    obtain ⟨⟨out,left⟩,allocates,same⟩ := map_eq_some_iff.mp extends_
    cases same
    -- what the request reads so far is its prefix
    have isPrefix : entries req = req.prefixIndices := by
      rcases ready with isMatched | ⟨isCached,all⟩
      · exact if_pos isMatched
      · have isRow : entries req = req.row := if_neg (by rw [isCached]; nofun)
        have cached := ok.cached isCached
        rw [isRow,cached]
        rw [cached,length_take] at all
        rw [take_of_length_le (by omega)]
    have inside := ok.inside
    rw [isPrefix] at inside
    obtain ⟨pages,laid⟩ := ok.laid
    rw [isPrefix] at laid
    obtain ⟨shared,isShared⟩ := ok.aligned
    have length : req.prefixIndices.length = shared * params.pageSize + (req.prefixIndices.drop req.cacheProtectedLen).length := by
      rw [length_drop,Nat.mul_comm,← isShared]; omega
    obtain ⟨fresh,laid',outLen,moved⟩ := allocExtend_spec positive laid length (by omega) lastLoc_own allocates
    rw [Nat.add_sub_cancel_left] at outLen
    have isEntries : entries { req with row := req.prefixIndices ++ out, fillLen := req.prefixIndices.length + count, stage := Stage.filled } =
        entries req ++ out := by rw [isPrefix]; rfl
    refine ⟨ok.grow isEntries rfl rfl rfl (prefix_refl _) ⟨_,by rw [isPrefix]; exact laid'⟩ ?_ nofun ?_ nofun sound,rfl,?_⟩
    · rw [isEntries,isPrefix,length_append,outLen]; exact short
    · refine ⟨by dsimp only; rw [length_append,outLen],?_⟩
      dsimp only
      rw [keyLen,le_floor_iff positive ok.aligned]
      unfold RadixKey.unitCount
      split <;> omega
    · rw [ownSlots,ownSlots,isEntries,isPrefix]
      dsimp only
      rw [drop_append_of_le_length inside,moved]
  · cases extends_

theorem decodeReq_spec (ok : ReqOk params forest req) (sound : Tidy params.pageSize none forest) {token : Token} {batch : BatchSize} {req' : Req}
    {allocator' : TokenToKVPoolAllocator} (decodes : decodeReq params token batch req allocator = some (req',allocator')) :
    ReqOk params forest req' ∧ req'.lastNode = req.lastNode ∧
      freeSlots params.pageSize allocator' + ownSlots params req' = freeSlots params.pageSize allocator + ownSlots params req := by
  have positive := params.pagePositive
  rw [decodeReq] at decodes
  split at decodes
  · rename_i allowed
    obtain ⟨begun,all⟩ := allowed
    obtain ⟨⟨out,left⟩,allocates,same⟩ := map_eq_some_iff.mp decodes
    cases same
    have isRow : entries req = req.row := if_neg begun
    have inside := ok.inside
    rw [isRow] at inside
    obtain ⟨pages,laid⟩ := ok.laid
    rw [isRow] at laid
    obtain ⟨shared,isShared⟩ := ok.aligned
    have length : req.row.length = shared * params.pageSize + (req.row.drop req.cacheProtectedLen).length := by
      rw [length_drop,Nat.mul_comm,← isShared]; omega
    obtain ⟨fresh,laid',moved⟩ := allocDecode_spec positive laid length lastLoc_own allocates
    have isEntries : entries { req with tokenIds := req.tokenIds ++ [token], row := req.row ++ [out] } = entries req ++ [out] := by
      rw [isRow]; exact if_neg begun
    obtain ⟨filled,enough⟩ := ok.filled begun
    refine ⟨ok.grow isEntries rfl rfl rfl (prefix_append ..) ⟨_,by rw [isRow]; exact laid'⟩ ?_ begun ⟨?_,enough⟩ ?_ sound,rfl,?_⟩
    · rw [isEntries,isRow,length_append]
      dsimp only
      rw [length_append,all]
      simp
    · dsimp only
      rw [length_append]; omega
    · intro isCached
      dsimp only
      rw [take_append_of_le_length filled]
      exact ok.cached isCached
    · rw [ownSlots,ownSlots,isEntries,isRow]
      dsimp only
      rw [drop_append_of_le_length inside,moved]
  · cases decodes

/-! ### Engines -/

/-- Every slot is in one place, every request in order. -/
structure Conserved (params : CacheInitParams) (numPages : Nat) (engine : Engine) : Prop where
  balanced : BalancedBy params engine.cache (engine.reqs.total (fun item => (item.2.lastNode.toList : Multiset Nat)))
  whole : WholePages params.pageSize engine.cache.forest
  reqs : ∀ rid req, engine.reqs.get? rid = some req → ReqOk params engine.cache.forest req
  ledger : freeSlots params.pageSize engine.allocator + treeSlots engine.cache.forest + engine.reqs.total (fun item => ownSlots params item.2) =
    ↑(slotsOf params.pageSize (List.range' 1 numPages))

theorem all_distinct (params : CacheInitParams) (numPages : Nat) : (slotsOf params.pageSize (List.range' 1 numPages)).Nodup :=
  (slotsOf_nodup params.pagePositive).mpr (nodup_range' ..)

section Steps
variable {numPages : Nat} {engine next : Engine}

variable {rid : Nat}

section
variable (conserved : Conserved params numPages engine)
include conserved

theorem Conserved.own_distinct {req : Req} (found : engine.reqs.get? rid = some req) :
    (ownSlots params req).Nodup := by
  have all : (↑(slotsOf params.pageSize (List.range' 1 numPages)) : Multiset Slot).Nodup := all_distinct params numPages
  rw [← conserved.ledger,total_of_get? _ found] at all
  exact nodup_of_le ((Multiset.le_add_right ..).trans (Multiset.le_add_left ..)) all

theorem Conserved.tidy : Tidy params.pageSize none engine.cache.forest := conserved.balanced.sound.tidy

/-- A request replaced by one in order, the tree keeping what nodes stand for and the slots only moving between the three places. -/
theorem Conserved.replace {req req' : Req} (found : engine.reqs.get? rid = some req)
    {cache : RadixCache} {allocator : TokenToKVPoolAllocator}
    (balanced : BalancedBy params cache (↑req'.lastNode.toList + (engine.reqs.erase rid).total (fun item => (item.2.lastNode.toList : Multiset Nat))))
    (whole : WholePages params.pageSize cache.forest) (keeps : Keeps engine.cache.forest cache.forest) (ok : ReqOk params cache.forest req')
    (moved : freeSlots params.pageSize allocator + treeSlots cache.forest + ownSlots params req' =
      freeSlots params.pageSize engine.allocator + treeSlots engine.cache.forest + ownSlots params req) :
    Conserved params numPages ⟨cache,allocator,engine.reqs.set rid req'⟩ := by
  refine ⟨by rw [total_set]; exact balanced,whole,fun other sought present => ?_,?_⟩
  · dsimp only at present
    rw [get?_set] at present
    split at present
    · cases present
      exact ok
    · exact (conserved.reqs other sought present).keep (keeps _ _ _ _)
  · rw [← conserved.ledger,total_of_get? _ found,total_set,← add_assoc,← add_assoc,moved]

theorem Conserved.balanced_of {req : Req} (found : engine.reqs.get? rid = some req) :
    BalancedBy params engine.cache
      (↑req.lastNode.toList + (engine.reqs.erase rid).total (fun item => (item.2.lastNode.toList : Multiset Nat))) := by
  have balanced := conserved.balanced
  rwa [total_of_get? _ found] at balanced

theorem step_begin {tokenIds : List Token} {extraKey : Option String} {limit : Option Nat}
    {priority now : Int} (stepped : step params engine (.begin rid tokenIds extraKey limit priority now) = some next) :
    Conserved params numPages next := by
  rw [step] at stepped
  split at stepped
  · cases stepped
  · rename_i absent
    obtain ⟨req,cache,begins,balanced,whole,keeps,ok,slots,nothing⟩ :=
      beginReq_spec conserved.balanced conserved.whole tokenIds extraKey limit priority now
    rw [begins] at stepped
    cases stepped
    refine ⟨by rw [total_set,erase_absent absent]; exact balanced,whole,fun other sought present => ?_,?_⟩
    · dsimp only at present
      rw [get?_set] at present
      split at present
      · cases present
        exact ok
      · exact (conserved.reqs other sought present).keep (keeps _ _ _ _)
    · rw [total_set,erase_absent absent,slots,nothing,zero_add]
      exact conserved.ledger

theorem step_extend {rid count : Nat} {batch : BatchSize}
    (stepped : step params engine (.extend rid count batch) = some next) : Conserved params numPages next := by
  obtain ⟨req,found,stepped⟩ := bind_eq_some_iff.mp stepped
  obtain ⟨⟨req',allocator'⟩,extended,rfl⟩ := map_eq_some_iff.mp stepped
  obtain ⟨ok,sameNode,moved⟩ := extendReq_spec (conserved.reqs rid req found) conserved.tidy extended
  refine conserved.replace found (by rw [sameNode]; exact conserved.balanced_of found) conserved.whole (Keeps.refl _) ok ?_
  rw [add_right_comm,moved,add_right_comm]

theorem step_decode {token : Token} {batch : BatchSize}
    (stepped : step params engine (.decode rid token batch) = some next) : Conserved params numPages next := by
  obtain ⟨req,found,stepped⟩ := bind_eq_some_iff.mp stepped
  obtain ⟨⟨req',allocator'⟩,decoded,rfl⟩ := map_eq_some_iff.mp stepped
  obtain ⟨ok,sameNode,moved⟩ := decodeReq_spec (conserved.reqs rid req found) conserved.tidy decoded
  refine conserved.replace found (by rw [sameNode]; exact conserved.balanced_of found) conserved.whole (Keeps.refl _) ok ?_
  rw [add_right_comm,moved,add_right_comm]

theorem step_cacheUnfinished {chunked : Bool} {now : Int}
    (stepped : step params engine (.cacheUnfinished rid chunked now) = some next) : Conserved params numPages next := by
  obtain ⟨req,found,stepped⟩ := bind_eq_some_iff.mp stepped
  split at stepped
  · rename_i isFilled
    obtain ⟨req',cache',allocator',caches,balanced,whole,keeps,ok,moved⟩ := cacheUnfinishedReq_spec (conserved.reqs rid req found) isFilled
      (conserved.balanced_of found) conserved.whole (conserved.own_distinct found) engine.allocator chunked now
    rw [caches] at stepped
    cases stepped
    exact conserved.replace found balanced whole keeps ok moved
  · cases stepped

theorem step_cacheFinished {isInsert : Bool} {now : Int}
    (stepped : step params engine (.cacheFinished rid isInsert now) = some next) : Conserved params numPages next := by
  obtain ⟨req,found,stepped⟩ := bind_eq_some_iff.mp stepped
  split at stepped
  · rename_i begun
    obtain ⟨cache',allocator',caches,balanced,whole,keeps,moved⟩ := cacheFinishedReq_spec (conserved.reqs rid req found) begun
      (conserved.balanced_of found) conserved.whole (conserved.own_distinct found) engine.allocator isInsert now
    rw [caches] at stepped
    cases stepped
    refine ⟨balanced,whole,fun other sought present => ?_,?_⟩
    · dsimp only at present
      rw [get?_erase] at present
      split at present
      · cases present
      · exact (conserved.reqs other sought present).keep (keeps _ _ _ _)
    · rw [← conserved.ledger,total_of_get? _ found,← add_assoc,← moved]
  · cases stepped

end

theorem freeSlots_freeAll (params : CacheInitParams) {values : List (List Slot)}
    (whole : ∀ value ∈ values, ∃ pages, value = slotsOf params.pageSize pages) (distinct : values.flatten.Nodup) (allocator : TokenToKVPoolAllocator) :
    freeSlots params.pageSize (freeAll params values allocator) = ↑values.flatten + freeSlots params.pageSize allocator := by
  induction values generalizing allocator with
  | nil => simp [freeAll]
  | cons value rest ih =>
    rw [flatten_cons,nodup_append] at distinct
    obtain ⟨pages,isPages⟩ := whole value mem_cons_self
    have later := ih (forall_mem_cons.mp whole).2 distinct.2.1 (free params.pageSize allocator value)
    rw [freeAll,foldl_cons]
    rw [freeAll] at later
    rw [later,freeSlots_free_pages params.pagePositive isPages distinct.1,flatten_cons,← coe_add]
    abel

theorem step_evict (conserved : Conserved params numPages engine) {numTokens : Nat} {leaves : List Nat}
    (stepped : step params engine (.evict numTokens leaves) = some next) : Conserved params numPages next := by
  rw [step] at stepped
  split at stepped
  · rename_i listing
    obtain ⟨final,evicts,balanced,whole,slots,leads⟩ := conserved.balanced.evict numTokens (isPerm_iff.mp listing)
    rw [evicts] at stepped
    cases stepped
    obtain ⟨wholeTree,wholeFreed⟩ := whole conserved.whole
    have distinct : final.freed.flatten.Nodup := by
      have all : (↑(slotsOf params.pageSize (List.range' 1 numPages)) : Multiset Slot).Nodup := all_distinct params numPages
      rw [← conserved.ledger,slots] at all
      have part : (↑final.freed.flatten : Multiset Slot).Nodup :=
        nodup_of_le ((Multiset.le_add_right ..).trans ((Multiset.le_add_left ..).trans (Multiset.le_add_right ..))) all
      exact part
    refine ⟨balanced,wholeTree,fun rid req found => ?_,?_⟩
    · refine (conserved.reqs rid req found).keep (leads _ _ _ _ (fun id isNode => ?_))
      rw [total_of_get? _ found]
      exact mem_add.mpr (.inl (by rw [show req.lastNode = some id from isNode]; simp))
    · rw [freeSlots_freeAll params wholeFreed distinct,← conserved.ledger,slots]
      abel
  · cases stepped

theorem step_conserved {action : Action} (conserved : Conserved params numPages engine) (stepped : step params engine action = some next) :
    Conserved params numPages next := by
  cases action with
  | begin rid tokenIds extraKey limit priority now => exact step_begin conserved stepped
  | extend rid count batch => exact step_extend conserved stepped
  | cacheUnfinished rid chunked now => exact step_cacheUnfinished conserved stepped
  | decode rid token batch => exact step_decode conserved stepped
  | cacheFinished rid isInsert now => exact step_cacheFinished conserved stepped
  | evict numTokens leaves => exact step_evict conserved stepped
  | matchPrefix key now =>
    cases stepped
    have matched := conserved.balanced.matchPrefix key now
    refine ⟨matched.balanced,matched.whole conserved.whole,fun rid req found => (conserved.reqs rid req found).keep (matched.keeps _ _ _ _),?_⟩
    dsimp only
    rw [matched.slots]
    exact conserved.ledger

end Steps

/-! ### Whole runs -/

theorem start_conserved (params : CacheInitParams) (numPages : Nat) (needSort : Bool) :
    Conserved params numPages (start params numPages needSort) where
  balanced := ⟨[],rfl,reset_balanced params⟩
  whole _ member := by cases member
  reqs _ _ found := by cases found
  ledger := by
    rw [start]
    dsimp only
    rw [freeSlots_clear,total_empty]
    simp [treeSlots,RadixCache.reset]

/-- What a request reads below its protected length are the slots of the nodes on the way to its node, all locked. -/
def ReadsLocked (forest : Forest TreeNode) (req : Req) : Prop :=
  match req.lastNode with
  | none => req.cacheProtectedLen = 0
  | some id => ∃ way, path Node.id id forest = some way ∧ (entries req).take req.cacheProtectedLen = waySlots way ∧
      ∀ step ∈ way, 0 < step.1.data.lockRef

theorem Conserved.readsLocked {numPages : Nat} {engine : Engine} (conserved : Conserved params numPages engine) {rid : Nat} {req : Req}
    (found : engine.reqs.get? rid = some req) : ReadsLocked engine.cache.forest req := by
  have ok := conserved.reqs rid req found
  have leads := ok.leads
  obtain ⟨held,same,balanced⟩ := conserved.balanced_of found
  unfold ReadsLocked
  cases isNode : req.lastNode with
  | none =>
    rw [isNode] at leads
    have none := congrArg List.length leads.2
    rw [length_take_of_le ok.inside] at none
    exact none
  | some id =>
    rw [isNode] at leads
    obtain ⟨way,led,-,-,slots⟩ := leads
    have isHeld : id ∈ held := by
      have member : id ∈ (held : Multiset Nat) := by rw [same,isNode]; simp
      exact member
    exact ⟨way,led,slots.symm,balanced.holds.locked balanced.sound.distinct isHeld led⟩

/-- After every run each slot is free, held by one tree node, or one unfinished request's own: an entry of its row from the protected
    length on, or a slot behind its last entry on the same page. Below the protected length a request reads locked nodes on its path, and
    caching and releasing it succeed. -/
theorem kv_conserved (params : CacheInitParams) (numPages : Nat) (needSort : Bool) (history : List Action) (engine : Engine)
    (executed : Runs.run (step params) (start params numPages needSort) history = some engine) :
    freeSlots params.pageSize engine.allocator + total (fun node => (node.value : Multiset Slot)) engine.cache.forest +
        engine.reqs.total (fun item => ↑((entries item.2).drop item.2.cacheProtectedLen ++
          unused params.pageSize ((entries item.2).drop item.2.cacheProtectedLen))) =
        ↑(slotsOf params.pageSize (List.range' 1 numPages)) ∧
      (slotsOf params.pageSize (List.range' 1 numPages)).Nodup ∧
      (∀ slots, params.pageSize = 1 → unused params.pageSize slots = []) ∧
      ∀ rid req, engine.reqs.get? rid = some req → ReadsLocked engine.cache.forest req ∧
        (req.stage = .filled → ∀ chunked now, (step params engine (.cacheUnfinished rid chunked now)).isSome = true) ∧
        (req.stage ≠ .matched → ∀ isInsert now, (step params engine (.cacheFinished rid isInsert now)).isSome = true) := by
  have conserved : Conserved params numPages engine :=
    Runs.run_always (Conserved params numPages) (fun _ _ _ conserved stepped => step_conserved conserved stepped)
      (start_conserved params numPages needSort) executed
  refine ⟨conserved.ledger,all_distinct params numPages,fun slots single => ?_,fun rid req found => ⟨conserved.readsLocked found,?_,?_⟩⟩
  · refine length_eq_zero_iff.mp ?_
    rw [unused_length params.pagePositive,single,ceil_one]; omega
  · intro isFilled chunked now
    obtain ⟨req',cache',allocator',caches,-⟩ := cacheUnfinishedReq_spec (conserved.reqs rid req found) isFilled (conserved.balanced_of found)
      conserved.whole (conserved.own_distinct found) engine.allocator chunked now
    rw [step,found,bind_some,if_pos isFilled,caches]
    rfl
  · intro begun isInsert now
    obtain ⟨cache',allocator',caches,-⟩ := cacheFinishedReq_spec (conserved.reqs rid req found) begun (conserved.balanced_of found)
      conserved.whole (conserved.own_distinct found) engine.allocator isInsert now
    rw [step,found,bind_some,if_pos begun,caches]
    rfl

/-- Two requests with a common first page: the second reads the page of the first, decodes and is released while the first is cached. -/
def sharing : List Action :=
  [.begin 1 [5,6,7] none none 0 1,.extend 1 3 ⟨3,1⟩,.cacheUnfinished 1 false 2,.begin 2 [5,6,9,8] none none 0 3,.extend 2 2 ⟨2,1⟩,
    .cacheUnfinished 2 false 4,.decode 2 3 ⟨1,1⟩,.cacheFinished 2 true 5,.evict 1 [2]]

theorem kv_conserved_sharing : ∃ engine, Runs.run (step pairPages) (start pairPages 4 false) sharing = some engine ∧
    ∀ rid req, engine.reqs.get? rid = some req → ReadsLocked engine.cache.forest req := by
  obtain ⟨engine,executed⟩ : ∃ engine, Runs.run (step pairPages) (start pairPages 4 false) sharing = some engine :=
    isSome_iff_exists.mp (by decide +kernel)
  exact ⟨engine,executed,fun rid req found => ((kv_conserved pairPages 4 false sharing engine executed).2.2.2 rid req found).1⟩

/-- With pages of two, a request with one token leaves the second slot of its page in no place: it is not free, not in the tree, and no
    entry of a row. -/
theorem kv_conserved_partial_page : ∃ engine ∈ Runs.run (step pairPages) (start pairPages 4 false) [.begin 1 [5] none none 0 1,.extend 1 1 ⟨1,1⟩],
    3 ∈ slotsOf 2 (List.range' 1 4) ∧ 3 ∉ slotsOf 2 engine.allocator.slots ∧ (∀ node ∈ engine.cache.forest.nodes, 3 ∉ node.value) ∧
      ∀ item ∈ engine.reqs.items, 3 ∉ item.2.row.drop item.2.cacheProtectedLen := by decide +kernel

theorem treeSlots_card (sized : ∀ node ∈ forest.nodes, unlockedLength node = node.value.length) :
    Forest.total unlockedLength forest = (treeSlots forest).card := by
  induction forest with
  | nil => rfl
  | cons node under after inChildren inRest =>
    simp only [Forest.nodes,forall_mem_cons,forall_mem_append] at sized
    rw [treeSlots] at inChildren inRest ⊢
    simp [inChildren sized.2.1,inRest sized.2.2,sized.1]

section
variable {numPages : Nat} {needSort : Bool} {history : List Action} {engine : Engine}
  (executed : Runs.run (step params) (start params numPages needSort) history = some engine)
include executed

theorem run_conserved : Conserved params numPages engine :=
  Runs.run_always (Conserved params numPages) (fun _ _ _ conserved stepped => step_conserved conserved stepped)
    (start_conserved params numPages needSort) executed

/-- Whatever happens beside it, a prompt that starts like an unfinished request is given the slots this request reads there. -/
theorem reads_found {rid : Nat} (found : engine.reqs.get? rid = some req) {key : RadixKey} (owner : key.extraKey = req.extraKey)
    {count : Nat} (aligned : params.pageSize ∣ count) (inside : count ≤ req.cacheProtectedLen)
    (common : (lookupKey params key).units.take count = (reqUnits params req).take count) (now : Int) :
    (engine.cache.matchPrefix params key now).1.deviceIndices.take count = (entries req).take count := by
  have conserved := run_conserved executed
  have ok := conserved.reqs rid req found
  obtain ⟨-,start⟩ := ok.leads.trace params.pagePositive conserved.tidy ((reqUnits params req).drop req.cacheProtectedLen)
  rw [take_append_drop] at start
  have reads := congrArg (take count) (prefix_iff_eq_take.mp start)
  rw [length_take_of_le ok.inside,take_take,take_take,min_eq_left inside] at reads
  rw [(conserved.balanced.matchPrefix key now).found,← trace_take params.pagePositive conserved.tidy _ aligned,common,
    trace_take params.pagePositive conserved.tidy _ aligned,owner,reads]

omit executed in
theorem reads_found_sharing : ∃ engine, Runs.run (step pairPages) (start pairPages 4 false) sharing = some engine ∧
    ∃ req, engine.reqs.get? 1 = some req ∧
      (engine.cache.matchPrefix pairPages ⟨[5,6,9],none,false,none⟩ 6).1.deviceIndices.take 2 = (entries req).take 2 := by
  obtain ⟨engine,executed,req,found,owner,inside,common⟩ : ∃ engine ∈ Runs.run (step pairPages) (start pairPages 4 false) sharing,
      ∃ req ∈ engine.reqs.get? 1, none = req.extraKey ∧ 2 ≤ req.cacheProtectedLen ∧
        (lookupKey pairPages ⟨[5,6,9],none,false,none⟩).units.take 2 = (reqUnits pairPages req).take 2 := by decide +kernel
  exact ⟨engine,executed,req,found,reads_found executed found owner (by decide) inside common 6⟩

/-- With no request left no lock is left: evicting what counts as evictable gives every slot back. -/
theorem released_reclaimed (ended : engine.reqs.items = []) {numTokens : Nat} (enough : engine.cache.evictableSize ≤ numTokens)
    {leaves : List Nat} (listing : leaves.Perm engine.cache.evictableLeaves) :
    ∃ next, step params engine (.evict numTokens leaves) = some next ∧
      freeSlots params.pageSize next.allocator = ↑(slotsOf params.pageSize (List.range' 1 numPages)) := by
  have conserved := run_conserved executed
  obtain ⟨final,evicts,-,-,slots,-⟩ := conserved.balanced.evict numTokens listing
  obtain ⟨held,same,balanced⟩ := conserved.balanced
  obtain rfl : held = [] := by simpa [Dict.total,ended] using same
  obtain ⟨_,_,again,-,-,-,-,most,-⟩ := balanced.evict numTokens listing
  cases evicts.symm.trans again
  have stepped : step params engine (.evict numTokens leaves) =
      some { engine with cache := final.cache, allocator := freeAll params final.freed engine.allocator } := by
    simp [step,isPerm_iff.mpr listing,evicts]
  have nothing : treeSlots final.cache.forest = 0 := by
    have counted := balanced.evictable.trans (treeSlots_card fun node member => ?_)
    · rw [slots,Multiset.card_add,Multiset.coe_card] at counted
      refine Multiset.card_eq_zero.mp ?_
      omega
    · obtain ⟨children,inside⟩ := mem_nodes_iff.mp member
      have unlocked : node.data.lockRef = 0 := by simpa [Forest.total] using balanced.holds _ inside
      rw [unlockedLength,if_pos unlocked,(conserved.tidy.whole_of_mem inside).sized]
  exact ⟨_,stepped,by simpa [nothing,Dict.total,ended] using (step_conserved conserved stepped).ledger⟩

end

theorem released_reclaimed_sharing : ∃ engine, Runs.run (step pairPages) (start pairPages 4 false) (sharing ++ [.cacheFinished 1 true 6]) =
    some engine ∧ ∃ next, step pairPages engine (.evict 8 engine.cache.evictableLeaves) = some next ∧
      freeSlots 2 next.allocator = ↑(slotsOf 2 (List.range' 1 4)) := by
  obtain ⟨engine,executed,ended,enough⟩ : ∃ engine ∈ Runs.run (step pairPages) (start pairPages 4 false) (sharing ++ [.cacheFinished 1 true 6]),
      engine.reqs.items = [] ∧ engine.cache.evictableSize ≤ (8 : Nat) := by decide +kernel
  exact ⟨engine,executed,released_reclaimed executed ended enough (List.Perm.refl _)⟩

end Hypic.RadixServe
