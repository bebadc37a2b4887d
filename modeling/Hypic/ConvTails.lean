import Hypic.Persist

/-! The convolution of a GDN layer across segment boundaries. A miss row reads the last inputs of the segment before it in
    the prompt: tails of misses are captured from the batch, and loaded with those of hits into the slots of the rows. -/

namespace Hypic.ConvTails
open Policy Allocator Cache Request Alloc Scheduler Forward Affine Ragged Gdn Persist List
universe u v w x
variable {Hash : Type u} [DecidableEq Hash]

/-- The part of the batch plan that the convolution uses: for each row its slot and the slot of the tail before it. -/
structure ConvMeta where
  segConvIndices : List Slot
  prevTailSlot : List (Option Slot)
  deriving DecidableEq, Repr

def ConvMeta.hasInitialStates (conv : ConvMeta) : List Bool := conv.prevTailSlot.map Option.isSome

section Plan

/-- A request's segments by start, each with the slot of its tail. A miss without a state slot is no source (`-1`). -/
def tailPositions (req : Req Hash) : Option (List (Nat × Option Slot)) :=
  (req.picHitSegments.mapM fun hit => ((picHitMambaSlots req).get? hit.2).map fun slot => (hit.1.1,some slot)).map fun hits =>
    (hits ++ req.picMissSegments.map fun seg => (seg.1,(picMissMambaSlots req).get? seg)).insertionSort fun left right =>
      left.1 ≤ right.1

/-- The slot listed before the first segment that starts at `start`. -/
def prevSlot (start : Nat) : Option Slot → List (Nat × Option Slot) → Option Slot
  | _, [] => none
  | before, (pos,slot)::rest => if pos = start then before else prevSlot start slot rest

def buildPrevTailSlots (batch : List (Req Hash)) : Option (List (Option Slot)) :=
  (batch.mapM fun req => (tailPositions req).map fun position =>
    req.picMissSegments.map fun seg => prevSlot seg.1 none position).map List.flatten

/-- Rows convolve in their miss's own slot, the last miss in the request's. The addition mode counts no reuse. -/
def segConvSlots (isAddition : Bool) (req : Req Hash) : List Slot :=
  let reuse := if isAddition then 0 else req.picHitSegments.length
  req.picMissSegments.zipIdx.map fun item =>
    if item.2 + 1 < req.picMissSegments.length ∨ reuse + req.picMissSegments.length = 1 then
      ((picMissMambaSlots req).get? item.1).getD (mambaCacheIndex req)
    else mambaCacheIndex req

def initConvMetadata (isAddition : Bool) (batch : List (Req Hash)) : Option ConvMeta :=
  (buildPrevTailSlots batch).map fun prev => ⟨batch.flatMap (segConvSlots isAddition),prev⟩

/-- `init_pic_metadata` of the addition and transition modes as a whole. -/
def segMetadata (isAddition : Bool) (batch : List (Req Hash)) : Option (SegMeta × ConvMeta) :=
  (initPicMetadata isAddition 0 batch).bind fun plan => (initConvMetadata isAddition batch).map fun conv => (plan,conv)
end Plan

section Kernel
variable {T : Type v} {S : Type w} {X : Type x} [Semiring T] [AddCommMonoid S] [Module Tᵐᵒᵖ S] [Zero X]

def captureConvTails (width : Nat) (plan : SegMeta) (inputs : Req Hash → Nat → Cell T S X) (batch : List (Req Hash))
    (convTails : Slot → List X) : Slot → List X :=
  persist convTails plan.fusedPersist fun payload => convTail width (row (cuSeqlens plan.segLengths) (packed inputs batch) payload)

def loadConvHistory (convStates convTails : Slot → List X) (conv : ConvMeta) : Slot → List X :=
  scatter convStates ((conv.segConvIndices.zip conv.prevTailSlot).filterMap fun row => row.2.map fun src => (row.1,convTails src))

end Kernel

section Rows
variable {args : ServerArgs Hash}

/-- Rows whose slot is the miss's own. -/
def Tailed (isAddition : Bool) (req : Req Hash) (seg : Seg) : Prop :=
  some seg ≠ req.lastSeg ∨ (if isAddition then 0 else req.picHitSegments.length) + req.picMissSegments.length = 1
instance (isAddition : Bool) (req : Req Hash) (seg : Seg) : Decidable (Tailed isAddition req seg) :=
  inferInstanceAs (Decidable (_ ∨ _))

def rowSlot (isAddition : Bool) (req : Req Hash) (seg : Seg) : Slot :=
  if Tailed isAddition req seg then ((picMissMambaSlots req).get? seg).getD (mambaCacheIndex req) else mambaCacheIndex req

/-- Where the tail of a segment is kept. -/
def tailSlot (req : Req Hash) (item : Seg × Option Hash) : Option Slot :=
  match item.2 with
  | some segHash => (picHitMambaSlots req).get? segHash
  | none => (picMissMambaSlots req).get? item.1

def tails (req : Req Hash) : List (Nat × Option Slot) := (ordered req).map fun item => (item.1.1,tailSlot req item)

def prevTail (req : Req Hash) (seg : Seg) : Option Slot := prevSlot seg.1 none (tails req)

variable {req : Req Hash}

theorem tailPositions_eq (loaded : Loaded args req) : tailPositions req = some (tails req) := by
  have hits : (req.picHitSegments.mapM fun hit => ((picHitMambaSlots req).get? hit.2).map fun slot => (hit.1.1,some slot)) =
      some (req.picHitSegments.map fun hit => (hit.1.1,(picHitMambaSlots req).get? hit.2)) := by
    refine Related.mapM_map fun hit listed => ?_
    obtain ⟨slot,found⟩ := loaded.hitSlot listed
    rw [found]
    rfl
  rw [tailPositions,hits,map_some,tails,ordered,
    map_insertionSort (s := fun left right : Nat × Option Slot => left.1 ≤ right.1) _ _ _ fun _ _ _ _ => Iff.rfl,
    map_append,map_map,map_map]
  rfl

theorem prevSlot_consecutive (req : Req Hash) (items : List (Seg × Option Hash)) {start stop : Nat}
    (consecutive : Consecutive start (items.map Prod.fst) stop) (before : Option Slot) {item : Seg × Option Hash}
    (member : item ∈ items) :
    let found := prevSlot item.1.1 before (items.map fun item => (item.1.1,tailSlot req item))
    (item.1.1 = start ∧ found = before) ∨
      (start < item.1.1 ∧ ∃ earlier ∈ items, earlier.1.2 = item.1.1 ∧ found = tailSlot req earlier) := by
  induction items generalizing start before with
  | nil => cases member
  | cons head rest ih =>
    obtain ⟨first,positive,later⟩ := consecutive
    rcases mem_cons.mp member with rfl | inside
    · exact .inl ⟨first,by simp [prevSlot]⟩
    · have bound := (later.mem_bounds (mem_map_of_mem inside)).1
      have other : head.1.1 ≠ item.1.1 := by omega
      simp only [map_cons,prevSlot,other,if_false]
      rcases ih later (tailSlot req head) inside with ⟨here,found⟩ | ⟨ahead,earlier,listed,ends,found⟩
      · exact .inr ⟨by omega,head,mem_cons_self ..,here.symm,found⟩
      · exact .inr ⟨by omega,earlier,mem_cons_of_mem _ listed,ends,found⟩

theorem prevTail_spec (partition : Partitioned req) {seg : Seg} (missed : seg ∈ req.picMissSegments) :
    (seg.1 = 0 ∧ prevTail req seg = none) ∨
      (0 < seg.1 ∧ ∃ earlier ∈ ordered req, earlier.1.2 = seg.1 ∧ prevTail req seg = tailSlot req earlier) := by
  have consecutive := partition.consecutive
  rw [← ordered_segs partition] at consecutive
  exact prevSlot_consecutive req (ordered req) consecutive none (mem_ordered_miss.mpr missed)

variable {batch : List (Req Hash)}

theorem buildPrevTailSlots_rows (loaded : AllLoaded args batch) :
    buildPrevTailSlots batch = some ((missRows batch).map fun row => prevTail row.1 row.2) := by
  have each : (batch.mapM fun req => (tailPositions req).map fun position =>
      req.picMissSegments.map fun seg => prevSlot seg.1 none position) =
        some (batch.map fun req => req.picMissSegments.map (prevTail req)) := by
    refine Related.mapM_map fun req member => ?_
    rw [tailPositions_eq (loaded req member)]
    rfl
  rw [buildPrevTailSlots,each,map_some,missRows,map_flatMap,flatMap_def]
  simp only [map_map]
  rfl

theorem segConvSlots_eq (isAddition : Bool) (partition : Partitioned req) :
    segConvSlots isAddition req = req.picMissSegments.map (rowSlot isAddition req) := by
  have each : segConvSlots isAddition req = req.picMissSegments.zipIdx.map (rowSlot isAddition req ∘ Prod.fst) := by
    refine map_congr_left fun item member => ?_
    have place := inner_miss partition (mem_zipIdx_iff_getElem?.mp member)
    exact if_congr (or_congr_left place) rfl rfl
  rw [each,← map_map,zipIdx_map_fst]

theorem initConvMetadata_rows (isAddition : Bool) (loaded : AllLoaded args batch) :
    initConvMetadata isAddition batch = some ⟨(missRows batch).map fun row => rowSlot isAddition row.1 row.2,
      (missRows batch).map fun row => prevTail row.1 row.2⟩ := by
  have slots : batch.flatMap (segConvSlots isAddition) = (missRows batch).map fun row => rowSlot isAddition row.1 row.2 := by
    rw [missRows,map_flatMap]
    refine flatMap_congr fun req member => ?_
    rw [segConvSlots_eq isAddition (loaded req member).matched.toPartitioned,map_map]
    rfl
  rw [initConvMetadata,buildPrevTailSlots_rows loaded,map_some,slots]

theorem tailSlot_none (loaded : Loaded args req) {item : Seg × Option Hash} (listed : item ∈ ordered req)
    (absent : tailSlot req item = none) : item.1 ∈ req.picMissSegments ∧ (picMissMambaSlots req).get? item.1 = none := by
  obtain ⟨seg,kind⟩ := item
  cases kind with
  | none => exact ⟨mem_ordered_miss.mp listed,absent⟩
  | some segHash =>
    obtain ⟨slot,found⟩ := loaded.hitSlot (mem_ordered_hit.mp listed)
    exact absurd (absent.symm.trans found) nofun

theorem slotless (loaded : Loaded args req) {seg : Seg} (missed : seg ∈ req.picMissSegments) :
    (picMissMambaSlots req).get? seg = none ↔ args.rope = false ∧ some seg ≠ req.lastSeg ∧ args.short seg = true := by
  rw [← not_isSome_iff_eq_none,loaded.missSlot missed,not_not]

/-- A row in its miss's own slot, or in the request's when the miss has none or is the last. -/
def RowIn (req : Req Hash) (seg : Seg) (slot : Slot) : Prop :=
  (picMissMambaSlots req).get? seg = some slot ∨
    slot = mambaCacheIndex req ∧ ((picMissMambaSlots req).get? seg = none ∨ some seg = req.lastSeg)

theorem rowSlot_rowIn (isAddition : Bool) (req : Req Hash) (seg : Seg) : RowIn req seg (rowSlot isAddition req seg) := by
  by_cases tailed : Tailed isAddition req seg
  · rw [rowSlot,if_pos tailed]
    cases found : (picMissMambaSlots req).get? seg with
    | none => exact .inr ⟨rfl,.inl found⟩
    | some slot => exact .inl found
  · rw [rowSlot,if_neg tailed]
    exact .inr ⟨rfl,.inr (not_not.mp fun inner => tailed (.inl inner))⟩

theorem RowIn.own {seg : Seg} {slot : Slot} (inRow : RowIn req seg slot) : slot ∈ ownSlots req := by
  rcases inRow with found | ⟨rfl,-⟩
  · exact mem_append_left _ (Dict.mem_values_of_get? found)
  · exact mem_append_right _ (mem_singleton.mpr rfl)

theorem RowIn.same (laid : Laid batch) {req other : Req Hash} (member : req ∈ batch)
    (otherMember : other ∈ batch) {seg otherSeg : Seg} {slot : Slot} (mine : RowIn req seg slot) (theirs : RowIn other otherSeg slot) :
    req = other ∧ (seg = otherSeg ∨ ((picMissMambaSlots req).get? seg = none ∨ some seg = req.lastSeg) ∧
      ((picMissMambaSlots req).get? otherSeg = none ∨ some otherSeg = req.lastSeg)) := by
  rcases mine with own | ⟨index,shared⟩ <;> rcases theirs with otherOwn | ⟨otherIndex,otherShared⟩
  · obtain ⟨rfl,rfl⟩ := laid.owner member otherMember own otherOwn
    exact ⟨rfl,.inl rfl⟩
  · exact absurd (mem_map.mpr ⟨other,otherMember,otherIndex.symm⟩) (laid.notIndex member own)
  · exact absurd (mem_map.mpr ⟨req,member,index.symm⟩) (laid.notIndex otherMember otherOwn)
  · obtain rfl := inj_on_of_nodup_map laid.indices_nodup member otherMember (index.symm.trans otherIndex)
    exact ⟨rfl,.inr ⟨shared,otherShared⟩⟩

theorem RowIn.unique (laid : Laid batch) {req other : Req Hash} (member : req ∈ batch) (otherMember : other ∈ batch)
    {seg otherSeg : Seg} {slot : Slot} (mine : RowIn req seg slot) (theirs : RowIn other otherSeg slot)
    (stated : ((picMissMambaSlots req).get? seg).isSome) (otherStated : ((picMissMambaSlots other).get? otherSeg).isSome) :
    req = other ∧ seg = otherSeg := by
  rw [Option.isSome_iff_ne_none] at stated otherStated
  obtain ⟨rfl,same | ⟨shared,otherShared⟩⟩ := mine.same laid member otherMember theirs
  · exact ⟨rfl,same⟩
  · have last := shared.resolve_left stated
    have otherLast := otherShared.resolve_left otherStated
    exact ⟨rfl,Option.some.inj (last.trans otherLast.symm)⟩

theorem slotless_shares {seg last : Seg} (missed : seg ∈ req.picMissSegments) (inner : some seg ≠ req.lastSeg)
    (absent : (picMissMambaSlots req).get? seg = none) (lastMissed : last ∈ req.picMissSegments) (lastSeg : req.lastSeg = some last) :
    rowSlot true req seg = mambaCacheIndex req ∧ rowSlot true req last = mambaCacheIndex req := by
  constructor
  · rw [rowSlot,absent,getD_none,ite_self]
  · rw [rowSlot,if_neg]
    rintro (differs | lone)
    · exact differs lastSeg.symm
    · obtain ⟨only,single⟩ := length_eq_one_iff.mp (show req.picMissSegments.length = 1 by simpa using lone)
      rw [single,mem_singleton] at missed lastMissed
      exact inner (by rw [missed,← lastMissed,lastSeg])
end Rows

section History
variable {T : Type v} {S : Type w} {X : Type x} [Semiring T] [AddCommMonoid S] [Module Tᵐᵒᵖ S] [Zero X]
variable {args : ServerArgs Hash} (inputs : Req Hash → Nat → Cell T S X)

/-- The raw inputs right before a position. -/
def history (width : Nat) (req : Req Hash) (pos : Nat) : List X := (List.range' (pos - width) width).map fun pos => (inputs req pos).raw

theorem convTail_segTokens {width : Nat} (req : Req Hash) {seg : Seg} (positive : seg.1 < seg.2) (long : width ≤ seg.2 - seg.1) :
    convTail width (segTokens inputs req seg) = history inputs width req seg.2 := by
  have first : seg.1 + (seg.2 - seg.1 - width) = seg.2 - width := by omega
  have count : seg.2 - seg.1 - (seg.2 - seg.1 - width) = width := by omega
  rw [convTail,segTokens_length,Nat.sub_eq_zero_of_le long,replicate_zero,nil_append,segTokens,← map_drop,
    drop_range',Nat.mul_one,first,count,map_map]
  rfl

/-- What the convolution finds: a row behind the first segment starts from the inputs before it, any other from nothing. -/
def Carried (width : Nat) (batch : List (Req Hash)) (conv : ConvMeta) (convStates : Slot → List X) : Prop :=
  ∀ (payload : Nat) (req : Req Hash) (seg : Seg), (missRows batch)[payload]? = some (req,seg) →
    ∃ slot, conv.segConvIndices[payload]? = some slot ∧ conv.hasInitialStates[payload]? = some (decide (seg.1 ≠ 0)) ∧
      (seg.1 ≠ 0 → convStates slot = history inputs width req seg.1)

/-- A miss without a state slot leaves no tail and shares the request's slot with the last segment. That does no harm in
    the addition mode right before a hit, at the start of the prompt or behind the same inputs as the last segment. -/
def Bridged (args : ServerArgs Hash) (width : Nat) (batch : List (Req Hash)) : Prop :=
  ∀ req ∈ batch, ∀ seg ∈ req.picMissSegments, args.rope = false → some seg ≠ req.lastSeg → args.short seg = true →
    args.isTransition = false ∧ (∃ hit ∈ req.picHitSegments, hit.1.1 = seg.2) ∧
      (seg.1 = 0 ∨ ∀ last, req.lastSeg = some last → history inputs width req seg.1 = history inputs width req last.1)

variable {convTails : Slot → List X} {isAddition : Bool} {plan : SegMeta}

/-- Every tail a row can load is the end of its segment: captured from this batch for a miss, cached for a hit. -/
theorem captured (width : Nat) {batch : List (Req Hash)}
    (loaded : AllLoaded args batch) (laid : Laid batch) (plain : args.recompute = false)
    (executed : initPicMetadata isAddition 0 batch = some plan)
    (filled : ∀ req ∈ batch, HitsHold inputs (fun slot tokens => convTails slot = convTail width tokens) req) {req : Req Hash} (member : req ∈ batch)
    {item : Seg × Option Hash} (listed : item ∈ ordered req) (inner : some item.1 ≠ req.lastSeg) {slot : Slot}
    (found : tailSlot req item = some slot) :
    captureConvTails width plan inputs batch convTails slot = convTail width (segTokens inputs req item.1) := by
  obtain ⟨seg,kind⟩ := item
  cases kind with
  | none =>
    have missed := mem_ordered_miss.mp listed
    have rows := transPersist_rows inputs loaded plain executed
    exact persist_written inputs laid (fun item listed => rows item (fusedPersist_subset executed listed)) convTails (convTail width)
      member found (mem_fusedPersist loaded executed member missed found (.inl inner))
  | some segHash =>
    refine Eq.trans (scatter_other _ _ fun written => ?_) (filled req member (seg,segHash) (mem_ordered_hit.mp listed) slot found)
    rw [map_map] at written
    have own : slot ∈ missSlots batch := by
      rw [← transPersist_slots executed]
      exact map_subset Prod.snd (fusedPersist_subset executed) written
    exact laid.apart req member slot (Dict.mem_values_of_get? found) (missSlots_subset batch own)

theorem loaded_history (width : Nat) {batch : List (Req Hash)}
    (loaded : AllLoaded args batch) (laid : Laid batch) (plain : args.recompute = false)
    (executed : initPicMetadata isAddition 0 batch = some plan)
    (long : ∀ req ∈ batch, ∀ seg ∈ req.picSegments, width ≤ seg.2 - seg.1)
    (filled : ∀ req ∈ batch, HitsHold inputs (fun slot tokens => convTails slot = convTail width tokens) req) {req : Req Hash} (member : req ∈ batch) {seg : Seg}
    (missed : seg ∈ req.picMissSegments) {src : Slot} (found : prevTail req seg = some src) :
    seg.1 ≠ 0 ∧ captureConvTails width plan inputs batch convTails src = history inputs width req seg.1 := by
  have partition := (loaded req member).matched.toPartitioned
  rcases prevTail_spec partition missed with ⟨-,absent⟩ | ⟨behind,earlier,listed,ends,tail⟩
  · exact absurd (absent.symm.trans found) nofun
  · have inside : earlier.1 ∈ req.picSegments := ordered_segs partition ▸ mem_map_of_mem listed
    have bounds := partition.consecutive.mem_bounds (partition.misses.subset missed)
    have inner : some earlier.1 ≠ req.lastSeg := by
      intro last
      have := partition.consecutive.last last.symm
      omega
    refine ⟨by omega,?_⟩
    rw [captured inputs width loaded laid plain executed filled member listed inner (tail.symm.trans found),← ends]
    exact convTail_segTokens inputs req (partition.consecutive.mem_bounds inside).2.1 (long req member earlier.1 inside)

theorem carried_rows (isAddition : Bool) (width : Nat) (batch : List (Req Hash)) (convStates : Slot → List X) :
    Carried inputs width batch ⟨(missRows batch).map fun row => rowSlot isAddition row.1 row.2,
      (missRows batch).map fun row => prevTail row.1 row.2⟩ convStates ↔
    ∀ req ∈ batch, ∀ seg ∈ req.picMissSegments, ((prevTail req seg).isSome ↔ seg.1 ≠ 0) ∧
      (seg.1 ≠ 0 → convStates (rowSlot isAddition req seg) = history inputs width req seg.1) := by
  constructor
  · intro carried req member seg missed
    obtain ⟨payload,listed⟩ := mem_iff_getElem?.mp (mem_missRows.mpr ⟨member,missed⟩)
    obtain ⟨slot,here,initial,value⟩ := carried payload req seg listed
    simp only [ConvMeta.hasInitialStates,map_map,getElem?_map,listed,map_some,Option.some.injEq] at here initial
    subst here
    exact ⟨(Bool.eq_iff_iff.mp initial).trans decide_eq_true_iff,value⟩
  · intro rows payload req seg listed
    obtain ⟨member,missed⟩ := mem_missRows.mp (mem_of_getElem? listed)
    obtain ⟨initial,value⟩ := rows req member seg missed
    refine ⟨rowSlot isAddition req seg,?_,?_,value⟩
    · simp only [getElem?_map,listed,map_some]
    · simp only [ConvMeta.hasInitialStates,map_map,getElem?_map,listed,map_some,comp_apply]
      rw [Option.some.injEq,Bool.eq_iff_iff,decide_eq_true_iff]
      exact initial

theorem loadConvHistory_rows (isAddition : Bool) (batch : List (Req Hash)) (convStates convTails : Slot → List X) :
    loadConvHistory convStates convTails ⟨(missRows batch).map fun row => rowSlot isAddition row.1 row.2,
      (missRows batch).map fun row => prevTail row.1 row.2⟩ =
    scatter convStates ((missRows batch).filterMap fun row =>
      (prevTail row.1 row.2).map fun src => (rowSlot isAddition row.1 row.2,convTails src)) := by
  rw [loadConvHistory,zip_map',filterMap_map]
  rfl

theorem prevTail_isSome {req : Req Hash} (loaded : Loaded args req) {seg : Seg} (missed : seg ∈ req.picMissSegments)
    (tails : ∀ earlier ∈ req.picMissSegments, earlier.2 = seg.1 → (picMissMambaSlots req).get? earlier ≠ none) :
    (prevTail req seg).isSome ↔ seg.1 ≠ 0 := by
  rcases prevTail_spec loaded.matched.toPartitioned missed with ⟨first,absent⟩ | ⟨behind,earlier,listed,ends,tail⟩
  · rw [absent,first]
    simp
  · cases found : prevTail req seg with
    | some slot => simpa using Nat.pos_iff_ne_zero.mp behind
    | none =>
      obtain ⟨missedEarlier,slotless⟩ := tailSlot_none loaded listed (tail.symm.trans found)
      exact absurd slotless (tails earlier.1 missedEarlier ends)

theorem carried_of_bridged (width : Nat) {batch : List (Req Hash)}
    (loaded : AllLoaded args batch) (laid : Laid batch) (plain : args.recompute = false)
    (executed : initPicMetadata isAddition 0 batch = some plan)
    (long : ∀ req ∈ batch, ∀ seg ∈ req.picSegments, width ≤ seg.2 - seg.1)
    (filled : ∀ req ∈ batch, HitsHold inputs (fun slot tokens => convTails slot = convTail width tokens) req) (convStates : Slot → List X)
    (bridged : Bridged inputs args width batch) :
    ∀ req ∈ batch, ∀ seg ∈ req.picMissSegments, ((prevTail req seg).isSome ↔ seg.1 ≠ 0) ∧
      (seg.1 ≠ 0 → scatter convStates ((missRows batch).filterMap fun row => (prevTail row.1 row.2).map fun src =>
        (rowSlot isAddition row.1 row.2,captureConvTails width plan inputs batch convTails src)) (rowSlot isAddition req seg) =
          history inputs width req seg.1) := by
  intro req member seg missed
  have partition := (loaded req member).matched.toPartitioned
  have initial : (prevTail req seg).isSome ↔ seg.1 ≠ 0 := by
    refine prevTail_isSome (loaded req member) missed fun earlier missedEarlier ends absent => ?_
    -- a hit follows the slotless miss, and no miss starts where a hit does
    obtain ⟨rope,inner,short⟩ := (slotless (loaded req member) missedEarlier).mp absent
    obtain ⟨-,⟨hit,listed,follows⟩,-⟩ := bridged req member earlier missedEarlier rope inner short
    have atHit := partition.consecutive.mem_bounds (partition.hits.subset (mem_map_of_mem listed))
    have atSeg := partition.consecutive.mem_bounds (partition.misses.subset missed)
    have same : hit.1 = seg := partition.consecutive.unique (partition.hits.subset (mem_map_of_mem listed))
      (partition.misses.subset missed) ⟨Nat.le_refl _,atHit.2.1⟩ ⟨by omega,by omega⟩
    exact partition.exclusive seg missed (same ▸ mem_map_of_mem listed)
  refine ⟨initial,fun behind => ?_⟩
  obtain ⟨src,found⟩ := isSome_iff_exists.mp (initial.mpr behind)
  have value := (loaded_history inputs width loaded laid plain executed long filled member missed found).2
  refine scatter_unique _ _ (mem_filterMap.mpr ⟨(req,seg),mem_missRows.mpr ⟨member,missed⟩,by rw [found,map_some,value]⟩)
    fun other written => ?_
  obtain ⟨⟨otherReq,otherSeg⟩,listed,written⟩ := mem_filterMap.mp written
  obtain ⟨otherMember,otherMissed⟩ := mem_missRows.mp listed
  obtain ⟨otherSrc,otherFound,written⟩ := map_eq_some_iff.mp written
  obtain ⟨same,rfl⟩ := Prod.mk.inj written
  obtain ⟨otherBehind,otherValue⟩ := loaded_history inputs width loaded laid plain executed long filled otherMember otherMissed otherFound
  rw [otherValue]
  obtain ⟨rfl,rfl | ⟨shared,otherShared⟩⟩ := (rowSlot_rowIn isAddition req seg).same laid member otherMember
    (same ▸ rowSlot_rowIn isAddition otherReq otherSeg)
  · rfl
  · -- both rows convolve in the request's slot, behind the same inputs as the last segment
    have last : ∀ seg ∈ req.picMissSegments, seg.1 ≠ 0 → ((picMissMambaSlots req).get? seg = none ∨ some seg = req.lastSeg) →
        ∀ last, req.lastSeg = some last → history inputs width req seg.1 = history inputs width req last.1 := by
      rintro seg missed behind (absent | isLast) last lastSeg
      · obtain ⟨rope,inner,short⟩ := (slotless (loaded req member) missed).mp absent
        obtain ⟨-,-,start | same⟩ := bridged req member seg missed rope inner short
        · exact absurd start behind
        · exact same last lastSeg
      · rw [Option.some.inj (isLast.trans lastSeg)]
    cases lastSeg : req.lastSeg with
    | none =>
      have empty := getLast?_eq_none_iff.mp lastSeg
      exact absurd (partition.misses.subset missed) (by rw [empty]; exact not_mem_nil)
    | some final =>
      rw [last otherSeg otherMissed otherBehind otherShared final lastSeg,last seg missed behind shared final lastSeg]

theorem bridged_of_carried (width : Nat) {batch : List (Req Hash)} {convStates : Slot → List X} (loaded : AllLoaded args batch)
    (planned : (initPicMetadata (!args.isTransition) 0 batch).isSome)
    (rows : ∀ req ∈ batch, ∀ seg ∈ req.picMissSegments, ((prevTail req seg).isSome ↔ seg.1 ≠ 0) ∧
      (seg.1 ≠ 0 → convStates (rowSlot (!args.isTransition) req seg) = history inputs width req seg.1)) :
    Bridged inputs args width batch := by
  intro req member seg missed rope inner short
  have partition := (loaded req member).matched.toPartitioned
  have absent := (slotless (loaded req member) missed).mpr ⟨rope,inner,short⟩
  have addition : args.isTransition = false := by
    by_contra transition
    rw [Bool.not_eq_false] at transition
    rw [transition] at planned
    have found := (initPicMetadata_isSome 0 batch loaded).mp planned req member seg missed
    rw [absent] at found
    cases found
  have inside := partition.misses.subset missed
  have bounds := partition.consecutive.mem_bounds inside
  obtain ⟨last,lastSeg⟩ : ∃ last, req.lastSeg = some last := by
    cases lastSeg : req.lastSeg with
    | none => exact absurd inside (by rw [getLast?_eq_none_iff.mp lastSeg]; exact not_mem_nil)
    | some last => exact ⟨last,rfl⟩
  have lastMissed := partition.last last lastSeg
  have lastBounds := partition.consecutive.mem_bounds (partition.misses.subset lastMissed)
  have ending := partition.consecutive.last lastSeg
  have early : seg.2 < req.originInputIds.length := by
    by_contra late
    have covers : seg.1 ≤ req.originInputIds.length - 1 ∧ req.originInputIds.length - 1 < seg.2 := by omega
    have same := partition.consecutive.unique inside (partition.misses.subset lastMissed) covers ⟨by omega,by omega⟩
    exact inner ((congrArg some same).trans lastSeg.symm)
  refine ⟨addition,?_,?_⟩
  · obtain ⟨next,listed,follows⟩ := partition.consecutive.next inside early
    rcases partition.cover next listed with nextMissed | nextHit
    · -- the row after a slotless miss would have no history
      rcases prevTail_spec partition nextMissed with ⟨first,-⟩ | ⟨behind,earlier,earlierListed,ends,tail⟩
      · omega
      · have found := (rows req member next nextMissed).1.mpr (Nat.pos_iff_ne_zero.mp behind)
        have earlierInside : earlier.1 ∈ req.picSegments := ordered_segs partition ▸ mem_map_of_mem earlierListed
        have earlierBounds := partition.consecutive.mem_bounds earlierInside
        have covers : seg.1 ≤ seg.2 - 1 ∧ seg.2 - 1 < seg.2 := by omega
        have same : earlier.1 = seg := partition.consecutive.unique earlierInside inside ⟨by omega,by omega⟩ covers
        obtain ⟨earlierSeg,kind⟩ := earlier
        obtain rfl : earlierSeg = seg := same
        cases kind with
        | some segHash =>
          exact absurd (mem_map_of_mem (f := Prod.fst) (mem_ordered_hit.mp earlierListed)) (partition.exclusive _ missed)
        | none =>
          rw [tail] at found
          exact absurd found (by rw [show tailSlot req (earlierSeg,none) = none from absent]; nofun)
    · obtain ⟨hit,hitListed,rfl⟩ := mem_map.mp nextHit
      exact ⟨hit,hitListed,follows⟩
  · rw [or_iff_not_imp_left]
    intro behind final finalSeg
    obtain rfl : last = final := Option.some.inj (lastSeg.symm.trans finalSeg)
    have other : seg ≠ last := fun same => inner (same ▸ lastSeg.symm)
    have lastBehind : last.1 ≠ 0 := by
      intro first
      exact other (partition.consecutive.unique inside (partition.misses.subset lastMissed) ⟨Nat.le_refl seg.1,by omega⟩
        ⟨by omega,by omega⟩)
    obtain ⟨mine,lasts⟩ := slotless_shares missed inner absent lastMissed lastSeg
    rw [addition] at rows
    rw [← (rows req member seg missed).2 behind,← (rows req member last lastMissed).2 lastBehind,Bool.not_false,mine,lasts]

/-- Plans of the addition mode always exist, those of the transition modes when every miss has a slot. -/
theorem planned_of_bridged {width : Nat} {batch : List (Req Hash)} (loaded : AllLoaded args batch)
    (bridged : Bridged inputs args width batch) : (initPicMetadata (!args.isTransition) 0 batch).isSome := by
  cases transition : args.isTransition with
  | false => exact initPicMetadata_addition 0 batch loaded
  | true =>
    refine (initPicMetadata_isSome 0 batch loaded).mpr fun req member seg missed => ?_
    by_contra absent
    obtain ⟨rope,inner,short⟩ := (slotless (loaded req member) missed).mp (not_isSome_iff_eq_none.mp absent)
    exact absurd (transition.symm.trans (bridged req member seg missed rope inner short).1) nofun

/-- The convolution history of an allocated batch in the addition and transition paths: capturing and loading gives every
    row the inputs before it in its own prompt exactly when no short miss without a slot stands in the way. -/
theorem conv_history_iff (width : Nat) (pools : Pools Hash) (reqs : List (Req Hash)) (extended : Extended Hash)
    (plain : args.recompute = false) (scheduled : ∀ req ∈ reqs, Scheduled args pools req) (distinct : pools.ledger.2.Nodup)
    (executed : picAllocForExtend args pools reqs = some extended) (convStates convTails : Slot → List X)
    (long : ∀ req ∈ extended.reqs, ∀ seg ∈ req.picSegments, width ≤ seg.2 - seg.1)
    (filled : ∀ req ∈ extended.reqs, ∀ hit ∈ req.picHitSegments, ∀ slot, (picHitMambaSlots req).get? hit.2 = some slot →
      convTails slot = convTail width (segTokens inputs req hit.1)) :
    (∃ plan, segMetadata (!args.isTransition) extended.reqs = some plan ∧ Carried inputs width extended.reqs plan.2
      (loadConvHistory convStates (captureConvTails width plan.1 inputs extended.reqs convTails) plan.2)) ↔
        Bridged inputs args width extended.reqs := by
  obtain ⟨loaded,laid⟩ := picAllocForExtend_laid scheduled distinct executed
  simp only [segMetadata,initConvMetadata_rows (!args.isTransition) loaded,map_some]
  constructor
  · rintro ⟨⟨plan,conv⟩,executed,carried⟩
    obtain ⟨seg,planned,same⟩ := bind_eq_some_iff.mp executed
    obtain ⟨rfl,rfl⟩ := Prod.mk.inj (Option.some.inj same)
    exact bridged_of_carried inputs width loaded (isSome_iff_exists.mpr ⟨seg,planned⟩) ((carried_rows ..).mp carried)
  · intro bridged
    obtain ⟨plan,planned⟩ := isSome_iff_exists.mp (planned_of_bridged inputs loaded bridged)
    refine ⟨(plan,_),by rw [planned,bind_some],(carried_rows ..).mpr ?_⟩
    rw [loadConvHistory_rows]
    exact carried_of_bridged inputs width loaded laid plain planned long filled convStates bridged
end History

section Runs
/-- Raw inputs that number the positions. -/
def countedInputs (_ : Req (List Token)) (pos : Nat) : Cell ℤ ℤ Nat := ⟨⟨1,1⟩,pos⟩

/-- A hit `[1,2]` at the start, a miss and the last segment: the rows start from the tails of the hit and of the miss. -/
theorem conv_history_iff_warmPass : ∃ final, warmPass (plainArgs .transition (-1)) [[1,2],[4,7],[5,6]] = some final ∧
    ∃ extended, picAllocForExtend (plainArgs .transition (-1)) final.pools final.canRunList = some extended ∧
      (extended.reqs.map fun req => req.picHitSegments.map Prod.fst) = [[(0,2)]] ∧
      ∃ plan, segMetadata false extended.reqs = some plan ∧ Carried countedInputs 2 extended.reqs plan.2
        (loadConvHistory (fun _ => []) (captureConvTails 2 plan.1 countedInputs extended.reqs fun _ => [0,1]) plan.2) := by
  obtain ⟨final,passed,extended,executed,distinct,hits,long⟩ : ∃ final ∈ warmPass (plainArgs .transition (-1)) [[1,2],[4,7],[5,6]],
      ∃ extended ∈ picAllocForExtend (plainArgs .transition (-1)) final.pools final.canRunList,
        final.pools.ledger.2.Nodup ∧ (extended.reqs.map fun req => req.picHitSegments.map Prod.fst) = [[(0,2)]] ∧
          ∀ req ∈ extended.reqs, ∀ seg ∈ req.picSegments, 2 ≤ seg.2 - seg.1 := by decide +kernel
  refine ⟨final,passed,extended,executed,hits,?_⟩
  refine (conv_history_iff countedInputs 2 final.pools final.canRunList extended rfl (warmPass_scheduled _ _ (by decide) passed)
    distinct executed (fun _ => []) (fun _ => [0,1]) long ?_).mpr ?_
  · intro req member hit listed slot _
    rw [hit_of_map hits member listed]
    rfl
  · intro req member seg missed plain inner short
    cases short

/-- A short first miss has no slot in the addition mode: the row behind it starts from nothing. -/
theorem slotless_miss_loses_history : ∃ final ∈ warmPass (plainArgs .addition 3) [[4,7],[5,6]],
    ∃ extended ∈ picAllocForExtend (plainArgs .addition 3) final.pools final.canRunList,
      extended.reqs.map Req.picMissSegments = [[(0,2),(2,4)]] ∧
      ∃ plan ∈ segMetadata true extended.reqs, plan.2.hasInitialStates = [false,false] ∧
        ∀ convStates convTails : Slot → List Nat, ¬ Carried countedInputs 2 extended.reqs plan.2
          (loadConvHistory convStates (captureConvTails 2 plan.1 countedInputs extended.reqs convTails) plan.2) := by
  have facts : ∃ final ∈ warmPass (plainArgs .addition 3) [[4,7],[5,6]],
      ∃ extended ∈ picAllocForExtend (plainArgs .addition 3) final.pools final.canRunList,
        extended.reqs.map Req.picMissSegments = [[(0,2),(2,4)]] ∧
        (missRows extended.reqs).map Prod.snd = [(0,2),(2,4)] ∧
        (segMetadata true extended.reqs).map (fun plan => plan.2.hasInitialStates) = some [false,false] := by decide +kernel
  obtain ⟨final,passed,extended,executed,segs,rows,built⟩ := facts
  obtain ⟨plan,planned,initial⟩ := map_eq_some_iff.mp built
  refine ⟨final,passed,extended,executed,segs,plan,planned,initial,fun convStates convTails carried => ?_⟩
  have second : ((missRows extended.reqs).map Prod.snd)[1]? = some (2,4) := by rw [rows]; rfl
  rw [getElem?_map,map_eq_some_iff] at second
  obtain ⟨⟨req,seg⟩,listed,rfl⟩ := second
  obtain ⟨slot,-,behind,-⟩ := carried 1 req (2,4) listed
  rw [initial] at behind
  cases behind
end Runs

end Hypic.ConvTails
