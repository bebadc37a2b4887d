import Mathlib.Algebra.Group.Int.TypeTags
import Hypic.Lightning

/-! The SegLA forward pass composes the states of a prompt's segments to the recurrence over the whole prompt. A cached
    state is kept as if its segment began at position zero; rotating its key axis moves it to where the segment is now. -/

namespace Hypic.SegLaCompose
open Policy Cache Request Alloc Forward Affine Ragged Recompute Lightning MulOpposite List Function
universe u v w x
variable {Hash : Type u} [DecidableEq Hash]
variable {T : Type v} {S : Type w} [Semiring T] [AddCommMonoid S] [Module Tᵐᵒᵖ S]

/-! ### Rotation -/
variable {slot : Slot} {items : List (Seg × Option Hash)}

section Rotation
variable {M : Type x} [Monoid M] [DistribMulAction M S] [SMulCommClass M Tᵐᵒᵖ S]

/-- RoPE multiplies the key axis by `R(p)`, and `R(a) R(b) = R(a + b)`. -/
def Rotates (rope : RopeArgs S) (R : Multiplicative ℤ →* M) : Prop :=
  ∀ state delta, rope.rotateStateKeyAxis state delta = R (Multiplicative.ofAdd delta) • state

/-- What a key and its value add to the state, with the key at a position. -/
def place (rope : RopeArgs S) (position : Int) (state : S) : S :=
  if rope.needsRope then rope.rotateStateKeyAxis state position else state

variable {rope : RopeArgs S} {R : Multiplicative ℤ →* M} (rotates : Rotates rope R)
include rotates

theorem place_zero (state : S) : place rope 0 state = state := by
  unfold place
  split
  · rw [rotates,ofAdd_zero,map_one,one_smul]
  · rfl

theorem place_place (left right : Int) (state : S) : place rope left (place rope right state) = place rope (left + right) state := by
  unfold place
  split
  · rw [rotates,rotates,rotates,ofAdd_add,map_mul,mul_smul]
  · rfl

theorem rotateUnless_eq (state : S) {start : Nat} {delta : Int} (still : start = 0 → delta = 0) :
    (if rope.needsRope = false ∨ start = 0 then state else rope.rotateStateKeyAxis state delta) = place rope delta state := by
  cases needed : rope.needsRope with
  | false => simp [place,needed]
  | true =>
    by_cases first : start = 0
    · rw [still first,place_zero rotates]
      simp [first]
    · simp [place,needed,first]

theorem rotateForReplay_eq (state : S) (start : Nat) : rotateForReplay rope state start = place rope start state :=
  rotateUnless_eq rotates state fun first => by rw [first,Nat.cast_zero]

theorem derotateToCanonical_eq (state : S) (start : Nat) : derotateToCanonical rope state start = place rope (-start) state :=
  rotateUnless_eq rotates state fun first => by rw [first,Nat.cast_zero,neg_zero]

theorem place_segLaFwd (decay : T) (position : Int) (tokens : List S) (h : S) :
    place rope position (segLaFwd decay tokens h) = segLaFwd decay (tokens.map (place rope position)) (place rope position h) := by
  induction tokens generalizing h with
  | nil => rfl
  | cons token rest ih =>
    have moved : place rope position (Step.apply ⟨decay,token⟩ h) = Step.apply ⟨decay,place rope position token⟩ (place rope position h) := by
      unfold place Step.apply
      split
      · rw [rotates,rotates,rotates,smul_add,smul_comm]
      · rfl
    have later := ih (Step.apply ⟨decay,token⟩ h)
    rw [moved] at later
    exact later

end Rotation

/-! ### Rows and segments -/

section Segments
variable (decay : T) (inputs : Req Hash → Nat → S)

theorem segLaFwd_append (left right : List S) (h : S) :
    segLaFwd decay (left ++ right) h = segLaFwd decay right (segLaFwd decay left h) := by
  rw [segLaFwd,map_append,fold_append]
  rfl

theorem segLaFwd_summary (tokens : List S) (h : S) :
    Step.apply ⟨decay ^ tokens.length,segLaFwd decay tokens 0⟩ h = segLaFwd decay tokens h := by
  have whole := fold_eq (tokens.map fun token => Step.mk decay token) h
  have product : transition (tokens.map fun token => Step.mk decay token) = decay ^ tokens.length := by
    rw [transition,map_map]
    simp [comp_def]
  rw [product] at whole
  exact whole.symm

/-- The state before a position of a request's prompt. -/
def stateBefore (req : Req Hash) (position : Nat) : S := segLaFwd decay (prefixTokens inputs req position) 0

@[simp] theorem stateBefore_zero (req : Req Hash) : stateBefore decay inputs req 0 = 0 := rfl

theorem stateBefore_seg (req : Req Hash) {seg : Seg} (positive : seg.1 < seg.2) :
    Step.apply ⟨decay ^ (seg.2 - seg.1),segLaFwd decay (segTokens inputs req seg) 0⟩ (stateBefore decay inputs req seg.1) =
      stateBefore decay inputs req seg.2 := by
  have whole := segLaFwd_summary decay (segTokens inputs req seg) (stateBefore decay inputs req seg.1)
  rw [segTokens_length] at whole
  rw [whole,stateBefore,stateBefore,← prefixTokens_seg inputs req positive,segLaFwd_append]

end Segments

/-! ### Hits -/

section Hits
variable {M : Type x} [Monoid M] [DistribMulAction M S] [SMulCommClass M Tᵐᵒᵖ S]
variable (decay : T) (rope : RopeArgs S) (raw : Req Hash → Nat → S)

/-- What the tokens of a prompt add to the state at their real positions. -/
def placed (req : Req Hash) (position : Nat) : S := place rope position (raw req position)

/-- Two segments of the same tokens, perhaps of different prompts and at different positions. -/
def SameTokens (source : Req Hash) (origin : Seg) (req : Req Hash) (seg : Seg) : Prop :=
  origin.2 - origin.1 = seg.2 - seg.1 ∧ ∀ offset < seg.2 - seg.1, raw source (origin.1 + offset) = raw req (seg.1 + offset)

/-- What a hit reads: the mirror where it has the slot, the pool otherwise. -/
def readState (cache : SegLaCache S) (slot : Slot) : S := (cache.segStateFp32 slot).getD (cache.ssmStates slot)

/-- Every hit's slot holds the canonical state that the prefill of some request stored for the same tokens. -/
def Stored (cache : SegLaCache S) (batch : List (Req Hash)) : Prop :=
  ∀ req ∈ batch, ∀ hit ∈ req.picHitSegments, ∀ slot, (picHitMambaSlots req).get? hit.2 = some slot →
    ∃ source origin, SameTokens raw source origin req hit.1 ∧
      readState cache slot = canonicalState decay rope (placed rope raw) source origin

variable {rope} {R : Multiplicative ℤ →* M} (rotates : Rotates rope R)
include rotates

/-- Wherever the tokens were when their state was stored, the replayed state is that of the tokens where they are now. -/
theorem replay_canonicalState {source req : Req Hash} {origin seg : Seg} (same : SameTokens raw source origin req seg) :
    rotateForReplay rope (canonicalState decay rope (placed rope raw) source origin) seg.1 =
      segLaFwd decay (segTokens (placed rope raw) req seg) 0 := by
  have still (position : Int) : place rope position (0 : S) = 0 := by
    unfold place
    split
    · rw [rotates,smul_zero]
    · rfl
  obtain ⟨width,each⟩ := same
  rw [canonicalState,rotateForReplay_eq rotates,derotateToCanonical_eq rotates,place_place rotates,place_segLaFwd rotates,still]
  congr 1
  rw [segTokens,segTokens,width,List.range'_eq_map_range,List.range'_eq_map_range,map_map,map_map,map_map]
  refine map_congr_left fun offset inside => ?_
  simp only [comp_apply,placed,place_place rotates,each offset (mem_range.mp inside)]
  congr 1
  push_cast
  ring

theorem loadHitState_eq {cache : SegLaCache S} {source req : Req Hash} {origin seg : Seg}
    (same : SameTokens raw source origin req seg)
    (stored : readState cache slot = canonicalState decay rope (placed rope raw) source origin) :
    loadHitState rope cache slot seg.1 = segLaFwd decay (segTokens (placed rope raw) req seg) 0 := by
  have replayed := replay_canonicalState decay raw rotates same
  rw [← stored] at replayed
  exact replayed

end Hits

section Batch
variable {args : ServerArgs Hash} (decay : T) (rope : RopeArgs S) (inputs : Req Hash → Nat → S)

/-- Reading a hit of the request gives the state of its tokens. -/
def Replays (cache : SegLaCache S) (req : Req Hash) : Prop :=
  ∀ hit ∈ req.picHitSegments, ∀ slot, (picHitMambaSlots req).get? hit.2 = some slot →
    loadHitState rope cache slot hit.1.1 = segLaFwd decay (segTokens inputs req hit.1) 0

variable {req : Req Hash}

theorem Replays.congr {before after : SegLaCache S} (replays : Replays decay rope inputs before req)
    (same : ∀ slot ∈ (picHitMambaSlots req).values, readState after slot = readState before slot) :
    Replays decay rope inputs after req := by
  intro hit listed slot found
  rw [← replays hit listed slot found]
  exact congrArg (fun state => rotateForReplay rope state hit.1.1) (same slot (Dict.mem_values_of_get? found))

/-- A row of the batch begins with the token it is seeded for: `seed` is the state before that token. -/
def SeededAt (tokens : List (Req Hash × Nat)) (qStart : Nat) (seed : S) : Prop :=
  ∃ req position, tokens[qStart]? = some (req,position) ∧ seed = stateBefore decay inputs req position

theorem recordOf_first {tokens : List (Req Hash × Nat)} {record : MissRecord}
    (recordOf : RecordOf Prod.mk tokens req record) (positive : record.seg.1 < record.seg.2) :
    tokens[record.qStart]? = some (req,record.seg.1) := by
  have width : record.qEnd - record.qStart = record.seg.2 - record.seg.1 := by
    rw [recordOf.eq]
    simp [Lightning.recordOf]
  have head := congrArg (fun tokens => tokens[0]?) recordOf.cut
  simp only [segTokens,getElem?_map] at head
  rw [getElem?_take_of_lt (by omega),getElem?_drop,Nat.add_zero,getElem?_range' (by omega)] at head
  simpa using head

/-! ### The plain modes -/

variable {cache : SegLaCache S}

theorem composeSteps_exact {fresh : List S} (loaded : Loaded args req)
    (replays : Replays decay rope inputs cache req) (members : ∀ item ∈ items, item ∈ ordered req)
    {start stop : Nat} (consecutive : Consecutive start (items.map Prod.fst) stop) (offset missId : Nat)
    (rows : ∀ index record, (recordsOf req offset items)[index]? = some record →
      fresh[missId + index]? = some (segLaFwd decay (segTokens inputs req record.seg) 0)) (initStates : Nat → S) :
    ∃ seeds, (stepsOf req missId items).foldlM (composeStep true decay rope cache fresh) ⟨stateBefore decay inputs req start,initStates⟩ =
        some ⟨stateBefore decay inputs req stop,seeds⟩ ∧
      (∀ id < missId, seeds id = initStates id) ∧
      ∀ index record, (recordsOf req offset items)[index]? = some record →
        seeds (missId + index) = stateBefore decay inputs req record.seg.1 := by
  induction items generalizing start offset missId initStates with
  | nil =>
    obtain rfl : start = stop := consecutive
    exact ⟨initStates,rfl,fun _ _ => rfl,fun index record found => by simp [recordsOf] at found⟩
  | cons item rest ih =>
    obtain ⟨seg,kind⟩ := item
    obtain ⟨first,positive,later⟩ := consecutive
    dsimp only at first positive later
    subst first
    have inner : ∀ item ∈ rest, item ∈ ordered req := (forall_mem_cons.mp members).2
    cases kind with
    | some segHash =>
      have listed := mem_ordered_hit.mp (members _ mem_cons_self)
      obtain ⟨slot,found⟩ := loaded.hitSlot listed
      have loads := replays _ listed slot found
      obtain ⟨seeds,executed,kept,seeded⟩ := ih inner later (offset + (rowPositions req (seg,some segHash)).length) missId
        (fun index record found => rows index record found) initStates
      refine ⟨seeds,?_,kept,seeded⟩
      simp only [stepsOf,foldlM_cons,composeStep,found,map_some,advance,if_true,Option.bind_eq_bind,bind_some]
      rw [loads,stateBefore_seg decay inputs req positive]
      exact executed
    | none =>
      have own := rows 0 (recordOf req offset seg) rfl
      rw [Nat.add_zero] at own
      obtain ⟨seeds,executed,kept,seeded⟩ := ih inner later (offset + (seg.2 - seg.1)) (missId + 1)
        (fun index record found => by
          rw [Nat.add_assoc,Nat.add_comm 1]
          exact rows (index + 1) record found)
        (Function.update initStates missId (stateBefore decay inputs req seg.1))
      refine ⟨seeds,?_,?_,?_⟩
      · simp only [stepsOf,foldlM_cons,composeStep,own,map_some,advance,if_true,Option.bind_eq_bind,bind_some,recordOf]
        rw [stateBefore_seg decay inputs req positive]
        exact executed
      · intro id less
        rw [kept id (by omega),update_of_ne (by omega)]
      · intro index record found
        cases index with
        | zero =>
          obtain rfl : recordOf req offset seg = record := by simpa [recordsOf] using found
          rw [Nat.add_zero,kept missId (by omega),update_self]
          rfl
        | succ index =>
          rw [Nat.add_comm index,← Nat.add_assoc]
          exact seeded index record found

variable {batch : List (Req Hash)}

theorem composeReqs_exact (isRecompute : Bool) {fresh : List S}
    (loaded : AllLoaded args batch) (replays : ∀ req ∈ batch, Replays decay rope inputs cache req)
    (distinct : (batch.map mambaCacheIndex).Nodup)
    (apart : ∀ req ∈ batch, ∀ slot ∈ (picHitMambaSlots req).values, slot ∉ batch.map mambaCacheIndex)
    (before : List (Req Hash × Nat)) (missId : Nat)
    (rows : ∀ index record, (batchRecords before.length batch)[index]? = some record → ∀ req,
      RecordOf Prod.mk (before ++ packed Prod.mk batch) req record →
        fresh[missId + index]? = some (segLaFwd decay (segTokens inputs req record.seg) 0)) (initStates : Nat → S) :
    ∃ after seeds, composeReqs true decay rope fresh ((batchPlans isRecompute before.length missId batch).zip (batch.map mambaCacheIndex))
        cache initStates = some (after,seeds) ∧
      (∀ req ∈ batch, after.ssmStates (mambaCacheIndex req) = stateBefore decay inputs req req.originInputIds.length) ∧
      (∀ id < missId, seeds id = initStates id) ∧
      ∀ index record, (batchRecords before.length batch)[index]? = some record →
        SeededAt decay inputs (before ++ packed Prod.mk batch) record.qStart (seeds (missId + index)) := by
  induction batch generalizing before missId cache initStates with
  | nil => exact ⟨cache,initStates,rfl,nofun,fun _ _ => rfl,fun index record found => by simp [batchRecords] at found⟩
  | cons req rest ih =>
    have here := loaded req mem_cons_self
    obtain ⟨alone,distinct⟩ := nodup_cons.mp distinct
    have segs := ordered_segs here.matched.toPartitioned
    have positions := positions_rows here
    have whole : before ++ packed Prod.mk (req::rest) =
        (before ++ req.picMissTokenPositions.map (Prod.mk req)) ++ packed Prod.mk rest := by simp [packed]
    have recordIn {record : MissRecord} (listed : record ∈ recordsOf req before.length (ordered req)) :
        RecordOf Prod.mk (before ++ packed Prod.mk (req::rest)) req record := by
      have cut := recordsOf_cut Prod.mk (fun _ member => member) before (packed Prod.mk rest) listed
      rw [← positions] at cut
      exact cut
    obtain ⟨seeds,executed,kept,seeded⟩ := composeSteps_exact decay rope inputs here (replays req mem_cons_self)
      (fun _ member => member) (segs ▸ here.matched.consecutive) before.length missId (fun index record found =>
        rows index record (by rw [batchRecords,getElem?_append_left (List.getElem?_eq_some_iff.mp found).1,found]) req
          (recordIn (mem_of_getElem? found))) initStates
    let dst := mambaCacheIndex req
    let final := stateBefore decay inputs req req.originInputIds.length
    let updated : SegLaCache S := { cache with ssmStates := Function.update cache.ssmStates dst final }
    have replaysRest : ∀ other ∈ rest, Replays decay rope inputs updated other := by
      intro other member
      refine (replays other (mem_cons_of_mem _ member)).congr decay rope inputs fun slot listed => ?_
      have elsewhere : slot ≠ dst := fun same => apart other (mem_cons_of_mem _ member) slot listed (same ▸ mem_cons_self ..)
      simp only [readState,updated,update_of_ne elsewhere]
    obtain ⟨after,finals,executedRest,written,keptRest,seededRest⟩ := ih
      (forall_mem_cons.mp loaded).2 replaysRest distinct
      (fun other member slot listed inside => apart other (mem_cons_of_mem _ member) slot listed (mem_cons_of_mem _ inside))
      (before ++ req.picMissTokenPositions.map (Prod.mk req)) (missId + (recordsOf req before.length (ordered req)).length)
      (fun index record found other recordOf => by
        rw [Nat.add_assoc]
        refine rows _ record ?_ other (whole ▸ recordOf)
        rw [length_append,length_map] at found
        rw [batchRecords,getElem?_append_right (Nat.le_add_right ..),Nat.add_sub_cancel_left,found]) seeds
    rw [length_append,length_map] at executedRest seededRest
    refine ⟨after,finals,?_,?_,?_,?_⟩
    · simp only [batchPlans,map_cons,zip_cons_cons,composeReqs]
      rw [stateBefore_zero] at executed
      rw [executed]
      exact executedRest
    · intro other member
      rcases mem_cons.mp member with rfl | later
      · have frame : after.ssmStates dst = updated.ssmStates dst := by
          refine composeReqs_frame decay rope true fresh executedRest fun listed => ?_
          obtain ⟨pair,inside,same⟩ := mem_map.mp listed
          have own := (of_mem_zip inside).2
          rw [same] at own
          exact alone own
        exact frame.trans (update_self ..)
      · exact written other later
    · intro id less
      rw [keptRest id (by omega),kept id less]
    · intro index record found
      rw [batchRecords,getElem?_append] at found
      split at found
      · rename_i inside
        have recordOf := recordIn (mem_of_getElem? found)
        refine ⟨req,record.seg.1,recordOf_first recordOf (here.matched.consecutive.mem_bounds ?_).2.1,?_⟩
        · exact here.matched.misses.subset recordOf.missed
        · rw [keptRest _ (by omega)]
          exact seeded index record found
      · rename_i outside
        have moved := seededRest _ record found
        rw [show missId + (recordsOf req before.length (ordered req)).length + (index - (recordsOf req before.length (ordered req)).length) =
          missId + index by omega,← whole] at moved
        exact moved

theorem packed_map (batch : List (Req Hash)) :
    packed inputs batch = (packed Prod.mk batch).map fun token => inputs token.1 token.2 := by
  simp only [packed,map_flatMap,map_map]
  rfl

theorem segTokens_map (req : Req Hash) (seg : Seg) :
    segTokens inputs req seg = (segTokens Prod.mk req seg).map fun token => inputs token.1 token.2 := by
  simp only [segTokens,map_map]
  rfl

theorem recordOf_tokens {record : MissRecord}
    (recordOf : RecordOf Prod.mk (packed Prod.mk batch) req record) :
    ((packed inputs batch).drop record.qStart).take (record.qEnd - record.qStart) = segTokens inputs req record.seg := by
  rw [packed_map,segTokens_map,← recordOf.cut,map_take,map_drop]

theorem cachedSlots_subset (req : Req Hash) : cachedSlots req ⊆ ownSlots req := by
  intro slot listed
  obtain ⟨seg,-,found⟩ := mem_filterMap.mp listed
  exact mem_append_left _ (Dict.mem_values_of_get? found)

theorem Replays.write (laid : Laid batch) {writes : List (Slot × S)}
    (slots : writes.map Prod.fst = batch.flatMap cachedSlots) (member : req ∈ batch)
    (replays : Replays decay rope inputs cache req) : Replays decay rope inputs (cache.write writes) req := by
  refine replays.congr decay rope inputs fun slot listed => ?_
  have absent : slot ∉ writes.map Prod.fst := by
    rw [slots]
    intro inside
    obtain ⟨other,otherMember,cached⟩ := mem_flatMap.mp inside
    exact laid.apart req member slot listed (mem_flatMap.mpr ⟨other,otherMember,cachedSlots_subset other cached⟩)
  have mirrored : slot ∉ (writes.map fun item => (item.1,some item.2)).map Prod.fst := by
    rw [map_map]
    exact absent
  simp only [readState,SegLaCache.write]
  rw [scatter_other _ _ absent,scatter_other _ _ mirrored]

theorem apart_indices (laid : Laid batch) (member : req ∈ batch)
    (listed : slot ∈ (picHitMambaSlots req).values) : slot ∉ batch.map mambaCacheIndex := by
  intro inside
  obtain ⟨other,otherMember,same⟩ := mem_map.mp inside
  refine laid.apart req member slot listed (mem_flatMap.mpr ⟨other,otherMember,?_⟩)
  rw [← same]
  exact mem_append_right _ (mem_singleton.mpr rfl)

/-- The plain modes that decay: the request's slot gets the state behind the prompt, and each miss the state before it. -/
theorem forwardExtendPicV2_exact (maxSegments : Nat) (loaded : AllLoaded args batch) (laid : Laid batch)
    (isRecompute : Bool) (replays : ∀ req ∈ batch, Replays decay rope inputs cache req) :
    ∃ after seeds, forwardExtendPicV2 true decay rope maxSegments ⟨batchPlans isRecompute 0 0 batch,batchRecords 0 batch⟩
        (packed inputs batch) (batch.map mambaCacheIndex) cache = some (after,seeds) ∧
      (∀ req ∈ batch, after.ssmStates (mambaCacheIndex req) = stateBefore decay inputs req req.originInputIds.length) ∧
      ∀ index record, (batchRecords 0 batch)[index]? = some record →
        SeededAt decay inputs (packed Prod.mk batch) record.qStart (seeds index) := by
  obtain ⟨sorted,bounds⟩ := batchRecords_sorted loaded 0
  have widths : ∀ record ∈ batchRecords 0 batch, record.qStart ≤ record.qEnd ∧ record.seg.2 - record.seg.1 = record.qEnd - record.qStart := by
    intro record listed
    obtain ⟨req,-,recordOf⟩ := batchRecords_cut inputs loaded [] listed
    refine ⟨(bounds record listed).2,?_⟩
    rw [recordOf.eq]
    simp [Lightning.recordOf]
  have fresh := freshStates_eq decay maxSegments (packed inputs batch) sorted widths
  have slots : (canonicalWrites rope (batchRecords 0 batch) (freshStates decay maxSegments (packed inputs batch) (batchRecords 0 batch))).map
      Prod.fst = batch.flatMap cachedSlots := by
    rw [fresh,canonicalWrites_eq,map_filterMap,← batchRecords_cached 0]
    refine filterMap_congr fun record _ => ?_
    rw [Option.map_map]
    exact Option.map_id_apply
  have rows : ∀ index record, (batchRecords 0 batch)[index]? = some record → ∀ req : Req Hash,
      RecordOf Prod.mk ([] ++ packed Prod.mk batch) req record →
      (freshStates decay maxSegments (packed inputs batch) (batchRecords 0 batch))[0 + index]? =
        some (segLaFwd decay (segTokens inputs req record.seg) 0) := by
    intro index record found req recordOf
    rw [Nat.zero_add,fresh,getElem?_map,found,map_some,recordOf_tokens inputs recordOf]
  obtain ⟨after,seeds,executed,finals,-,seeded⟩ := composeReqs_exact decay rope inputs isRecompute loaded
    (fun req member => (replays req member).write decay rope inputs laid slots member) laid.indices_nodup
    (fun req member slot listed => apart_indices laid member listed) [] 0 rows fun _ => 0
  refine ⟨after,seeds,executed,finals,fun index record found => ?_⟩
  have seed := seeded index record found
  rw [Nat.zero_add] at seed
  exact seed

/-! ### Seam recompute -/

theorem rowPositions_first (loaded : Loaded args req) {item : Seg × Option Hash} (positive : item.1.1 < item.1.2)
    (some : (rowPositions req item).length ≠ 0) : (rowPositions req item)[0]? = Option.some item.1.1 := by
  obtain ⟨seg,kind⟩ := item
  cases kind with
  | none =>
    have first := miss_place req (show 0 < seg.2 - seg.1 from Nat.sub_pos_of_lt positive)
    exact first
  | some segHash =>
    simp only [rowPositions,isSome_some,if_true] at some ⊢
    cases seam : req.picHitSeamPositions.get? seg with
    | none => simp [seam] at some
    | some positions =>
      obtain ⟨-,-,width,rfl,wide,-⟩ := loaded.seamed seg positions seam
      rw [getD_some,getElem?_range' wide]
      simp

/-- What the operations of one request leave alone. -/
structure Ran (program final : Program S) (reqId row : Nat) : Prop where
  ssmStates : final.ssmStates = program.ssmStates
  others : ∀ other, other ≠ reqId → final.hAccumByReq other = program.hAccumByReq other
  earlier : ∀ index < row, final.kernelH0 index = program.kernelH0 index

theorem Ran.trans {program middle final : Program S} {reqId row later : Nat} (first : Ran program middle reqId row)
    (second : Ran middle final reqId later) (behind : row ≤ later) : Ran program final reqId row :=
  ⟨second.ssmStates.trans first.ssmStates,fun other differ => (second.others other differ).trans (first.others other differ),
    fun index less => (second.earlier index (by omega)).trans (first.earlier index less)⟩

/-- A program whose request has come to `state`. -/
def Program.reach (program : Program S) (reqId : Nat) (state : S) (kernelH0 : Nat → S) : Program S :=
  { program with hAccumByReq := Function.update program.hAccumByReq reqId (some state), kernelH0 := kernelH0 }

theorem Program.reach_ran (program : Program S) (reqId row : Nat) (state : S) {kernelH0 : Nat → S}
    (earlier : ∀ index < row, kernelH0 index = program.kernelH0 index) : Ran program (Program.reach program reqId state kernelH0) reqId row :=
  ⟨rfl,fun _ differ => update_of_ne differ ..,earlier⟩

theorem Program.hAccum_reach (reqCacheIndices : List Slot) (program : Program S) (reqId : Nat) (state : S) (kernelH0 : Nat → S) :
    (Program.reach program reqId state kernelH0).hAccum reqCacheIndices reqId = state := by
  simp [Program.reach,Program.hAccum]

section Rows
variable {reqCacheIndices : List Slot} {mirror : Slot → Option S} {rows : List PassRow} {rowState : Nat → S}
variable {tokens : List (Req Hash × Nat)}
variable (states : ∀ index passRow, rows[index]? = some passRow → rowState index =
  segLaFwd decay (passRow.qIdx.map fun place => (tokens.map fun token => inputs token.1 token.2).getD place 0) 0)
include states

variable {program : Program S}

/-- The operation of a segment takes its request behind the segment and seeds the segment's row, if it has one. -/
theorem exec_first {req : Req Hash} (loaded : Loaded args req) (reqId : Nat) {item : Seg × Option Hash} {rest : List (Seg × Option Hash)}
    (member : item ∈ ordered req) (positive : item.1.1 < item.1.2) {offset row : Nat} {after : List (Req Hash × Nat)} {later : List PassRow}
    (inside : tokens.drop offset = (rowPositions req item).map (Prod.mk req) ++ after)
    (ahead : rows.drop row = passRowsOf req reqId offset (item::rest) ++ later)
    (replays : Replays decay rope inputs ⟨program.ssmStates,mirror⟩ req)
    (current : program.hAccum reqCacheIndices reqId = stateBefore decay inputs req item.1.1) :
    ∃ op, programOf req reqId row (item::rest) = op::programOf req reqId (if (rowPositions req item).length = 0 then row else row + 1) rest ∧
      program.exec reqCacheIndices decay rope mirror rows rowState op =
        Program.reach program reqId (stateBefore decay inputs req item.1.2)
          (if (rowPositions req item).length = 0 then program.kernelH0
          else Function.update program.kernelH0 row (stateBefore decay inputs req item.1.1)) := by
  obtain ⟨seg,kind⟩ := item
  have rowHere (some : (rowPositions req (seg,kind)).length ≠ 0) : rows[row]? =
      Option.some ⟨if kind.isSome then .hitSink else .miss,reqId,List.range' offset (rowPositions req (seg,kind)).length⟩ := by
    have head := congrArg (fun rows => rows[0]?) ahead
    simpa [passRowsOf,some] using head
  cases kind with
  | some segHash =>
    have listed := mem_ordered_hit.mp member
    obtain ⟨slot,found⟩ := loaded.hitSlot listed
    have loads := replays _ listed slot found
    dsimp only at loads
    by_cases none : (rowPositions req (seg,some segHash)).length = 0
    · refine ⟨.hitPoolOnly slot reqId seg,by simp [programOf,none,found],?_⟩
      simp only [Program.exec,Program.passHit,Program.reach,loads,current,none,if_true]
      rw [stateBefore_seg decay inputs req positive]
    · refine ⟨.seedPoolThenLocal row slot seg,by simp [programOf,none,found],?_⟩
      have same : (Program.mk program.hAccumByReq (Function.update program.kernelH0 row (stateBefore decay inputs req seg.1))
          program.ssmStates).hAccum reqCacheIndices reqId = stateBefore decay inputs req seg.1 := current
      simp only [Program.exec,rowHere none,Program.passHit,Program.reach,loads,current,same,none,if_false]
      rw [stateBefore_seg decay inputs req positive]
  | none =>
    have width := rowPositions_miss req seg
    have wide : seg.2 - seg.1 ≠ 0 := Nat.sub_ne_zero_of_lt positive
    have some : (rowPositions req (seg,none)).length ≠ 0 := by rwa [width]
    refine ⟨.seedLocal row,by simp [programOf,some],?_⟩
    have cut : ((tokens.map fun token => inputs token.1 token.2).drop offset).take (seg.2 - seg.1) = segTokens inputs req seg := by
      rw [← map_drop,inside,map_append,take_left' (by simp [width]),segTokens_map]
      simp [rowPositions,segTokens]
    have state := states row _ (rowHere some)
    dsimp only at state
    rw [width,range_getD (by rw [cut]; simp),cut] at state
    simp only [Program.exec,Program.passRow,rowHere some,Program.reach,current,state,length_range',width,wide,if_false]
    rw [stateBefore_seg decay inputs req positive]

theorem programOf_exact {req : Req Hash} (loaded : Loaded args req) (reqId : Nat)
    (members : ∀ item ∈ items, item ∈ ordered req) {start stop : Nat} (consecutive : Consecutive start (items.map Prod.fst) stop)
    {offset row : Nat} {after : List (Req Hash × Nat)} {later : List PassRow}
    (inside : tokens.drop offset = (items.flatMap (rowPositions req)).map (Prod.mk req) ++ after)
    (ahead : rows.drop row = passRowsOf req reqId offset items ++ later)
    (current : program.hAccum reqCacheIndices reqId = stateBefore decay inputs req start)
    (replays : Replays decay rope inputs ⟨program.ssmStates,mirror⟩ req) :
    ∃ final, (programOf req reqId row items).foldl (Program.exec reqCacheIndices decay rope mirror rows rowState) program = final ∧
      Ran program final reqId row ∧ final.hAccum reqCacheIndices reqId = stateBefore decay inputs req stop ∧
      ∀ index passRow, (passRowsOf req reqId offset items)[index]? = some passRow →
        SeededAt decay inputs tokens (passRow.qIdx.headD 0) (final.kernelH0 (row + index)) := by
  induction items generalizing start offset row program with
  | nil =>
    obtain rfl : start = stop := consecutive
    exact ⟨program,rfl,⟨rfl,fun _ _ => rfl,fun _ _ => rfl⟩,current,
      fun index passRow found => by simp [passRowsOf] at found⟩
  | cons item rest ih =>
    obtain ⟨first,positive,behind⟩ := consecutive
    subst first
    have inner : ∀ item ∈ rest, item ∈ ordered req := (forall_mem_cons.mp members).2
    have insideRest : tokens.drop (offset + (rowPositions req item).length) =
        (rest.flatMap (rowPositions req)).map (Prod.mk req) ++ after := by
      rw [← drop_drop,inside,flatMap_cons,map_append,append_assoc,drop_left' (by simp)]
    have insideHere : tokens.drop offset = (rowPositions req item).map (Prod.mk req) ++
        ((rest.flatMap (rowPositions req)).map (Prod.mk req) ++ after) := by
      rw [inside,flatMap_cons,map_append,append_assoc]
    obtain ⟨op,unfolded,stepped⟩ := exec_first decay rope inputs states loaded reqId (members item mem_cons_self) positive
      insideHere ahead replays current
    rw [unfolded,foldl_cons,stepped]
    by_cases none : (rowPositions req item).length = 0
    · simp only [none,if_true,passRowsOf,nil_append,Nat.add_zero] at ahead insideRest ⊢
      have next := Program.hAccum_reach reqCacheIndices program reqId (stateBefore decay inputs req item.1.2) program.kernelH0
      obtain ⟨final,executed,ran,reached,seeded⟩ := ih inner behind insideRest ahead next replays
      exact ⟨final,executed,(Program.reach_ran program reqId row _ fun _ _ => rfl).trans ran le_rfl,reached,seeded⟩
    · simp only [none,if_false,passRowsOf,cons_append,nil_append] at ahead ⊢
      have aheadRest : rows.drop (row + 1) = passRowsOf req reqId (offset + (rowPositions req item).length) rest ++ later := by
        rw [← drop_drop,ahead,drop_succ_cons,drop_zero]
      have next := Program.hAccum_reach reqCacheIndices program reqId (stateBefore decay inputs req item.1.2)
        (Function.update program.kernelH0 row (stateBefore decay inputs req item.1.1))
      obtain ⟨final,executed,ran,reached,seeded⟩ := ih inner behind insideRest aheadRest next replays
      have fresh : ∀ index < row, Function.update program.kernelH0 row (stateBefore decay inputs req item.1.1) index =
          program.kernelH0 index := fun index less => update_of_ne (Nat.ne_of_lt less) ..
      refine ⟨final,executed,(Program.reach_ran program reqId row _ fresh).trans ran (Nat.le_succ row),reached,?_⟩
      intro index passRow found
      cases index with
      | zero =>
        obtain rfl : _ = passRow := by simpa using found
        refine ⟨req,item.1.1,?_,?_⟩
        · have head := congrArg (fun tokens => tokens[0]?) insideHere
          rw [getElem?_drop,Nat.add_zero,getElem?_append_left (by simp; omega),getElem?_map,
            rowPositions_first loaded positive none] at head
          rw [show (List.range' offset (rowPositions req item).length).headD 0 = offset by
            cases width : (rowPositions req item).length with
            | zero => exact absurd width none
            | succ width => rfl]
          exact head
        · rw [Nat.add_zero,ran.earlier row (Nat.lt_succ_self row)]
          exact update_self ..
      | succ index =>
        rw [Nat.add_comm index,← Nat.add_assoc]
        exact seeded index passRow found

/-- Each request in turn comes from its own clear slot to the state behind its prompt, and writes it back there. -/
theorem batchProgram_exact {batch : List (Req Hash)} (loaded : AllLoaded args batch) (distinct : (batch.map mambaCacheIndex).Nodup)
    (apart : ∀ req ∈ batch, ∀ slot ∈ (picHitMambaSlots req).values, slot ∉ batch.map mambaCacheIndex) {offset reqId row : Nat}
    (indices : reqCacheIndices.drop reqId = batch.map mambaCacheIndex) (inside : tokens.drop offset = packed Prod.mk batch)
    (ahead : rows.drop row = batchPassRows offset reqId batch)
    (unset : ∀ id, reqId ≤ id → program.hAccumByReq id = none) (clear : ∀ req ∈ batch, program.ssmStates (mambaCacheIndex req) = 0)
    (replays : ∀ req ∈ batch, Replays decay rope inputs ⟨program.ssmStates,mirror⟩ req) :
    ∃ final, (batchProgram offset reqId row batch).foldl (Program.exec reqCacheIndices decay rope mirror rows rowState) program = final ∧
      (∀ slot, slot ∉ batch.map mambaCacheIndex → final.ssmStates slot = program.ssmStates slot) ∧
      (∀ index < row, final.kernelH0 index = program.kernelH0 index) ∧
      (∀ req ∈ batch, final.ssmStates (mambaCacheIndex req) = stateBefore decay inputs req req.originInputIds.length) ∧
      ∀ index passRow, (batchPassRows offset reqId batch)[index]? = some passRow →
        SeededAt decay inputs tokens (passRow.qIdx.headD 0) (final.kernelH0 (row + index)) := by
  induction batch generalizing offset reqId row program with
  | nil => exact ⟨program,rfl,fun _ _ => rfl,fun _ _ => rfl,nofun,fun index passRow found => by simp [batchPassRows] at found⟩
  | cons req rest ih =>
    have here := loaded req mem_cons_self
    obtain ⟨alone,distinct⟩ := nodup_cons.mp distinct
    have segs := ordered_segs here.matched.toPartitioned
    have positions := positions_rows here
    have consecutive : Consecutive 0 ((ordered req).map Prod.fst) req.originInputIds.length := segs ▸ here.matched.consecutive
    have ownIndex : reqCacheIndices[reqId]? = some (mambaCacheIndex req) := by
      have head := congrArg (fun slots => slots[0]?) indices
      simpa using head
    have insideHere : tokens.drop offset = ((ordered req).flatMap (rowPositions req)).map (Prod.mk req) ++ packed Prod.mk rest := by
      rw [inside,← positions]
      simp [packed]
    have start : program.hAccum reqCacheIndices reqId = stateBefore decay inputs req 0 := by
      simp only [Program.hAccum,unset reqId le_rfl,getD_none,getD_eq_getElem?_getD,ownIndex,getD_some,
        clear req mem_cons_self,stateBefore_zero]
    obtain ⟨middle,executed,ran,reached,seeded⟩ := programOf_exact decay rope inputs states here reqId (fun _ member => member)
      consecutive insideHere ahead start (replays req mem_cons_self)
    let written : Program S := ⟨middle.hAccumByReq,middle.kernelH0,
      Function.update program.ssmStates (mambaCacheIndex req) (stateBefore decay inputs req req.originInputIds.length)⟩
    have stepped : middle.exec reqCacheIndices decay rope mirror rows rowState (.writeback reqId) = written := by
      cases accum : middle.hAccumByReq reqId with
      | some h =>
        simp only [Program.hAccum,accum,getD_some] at reached
        simp only [Program.exec,accum,ownIndex,reached,ran.ssmStates,written]
      | none =>
        -- Only a request without segments is here: its slot is clear already.
        simp only [Program.hAccum,accum,getD_none,getD_eq_getElem?_getD,ownIndex,getD_some,ran.ssmStates] at reached
        simp only [Program.exec,accum,written,← reached,update_eq_self,← ran.ssmStates]
    have elsewhere (slot : Slot) (differ : slot ≠ mambaCacheIndex req) : written.ssmStates slot = program.ssmStates slot :=
      update_of_ne differ ..
    have indicesRest : reqCacheIndices.drop (reqId + 1) = rest.map mambaCacheIndex := by
      rw [← drop_drop,indices]
      rfl
    have insideRest : tokens.drop (offset + req.picMissTokenPositions.length) = packed Prod.mk rest := by
      rw [← drop_drop,insideHere,← positions,drop_left' (by simp)]
    have aheadRest : rows.drop (row + (passRowsOf req reqId offset (ordered req)).length) =
        batchPassRows (offset + req.picMissTokenPositions.length) (reqId + 1) rest := by
      rw [← drop_drop,ahead,batchPassRows,drop_left' rfl]
    have unsetRest : ∀ id, reqId + 1 ≤ id → written.hAccumByReq id = none := by
      intro id less
      rw [show written.hAccumByReq = middle.hAccumByReq from rfl,ran.others id (by omega),unset id (by omega)]
    have clearRest : ∀ other ∈ rest, written.ssmStates (mambaCacheIndex other) = 0 := by
      intro other member
      rw [elsewhere _ fun same => alone (same ▸ mem_map_of_mem member)]
      exact clear other (mem_cons_of_mem _ member)
    have replaysRest : ∀ other ∈ rest, Replays decay rope inputs ⟨written.ssmStates,mirror⟩ other := by
      intro other member
      refine (replays other (mem_cons_of_mem _ member)).congr decay rope inputs fun slot listed => ?_
      have outside : slot ≠ mambaCacheIndex req :=
        fun same => apart other (mem_cons_of_mem _ member) slot listed (same ▸ mem_cons_self ..)
      simp only [readState,elsewhere slot outside]
    obtain ⟨final,executedRest,frame,earlier,finals,seededRest⟩ := ih
      (forall_mem_cons.mp loaded).2 distinct
      (fun other member slot listed inside => apart other (mem_cons_of_mem _ member) slot listed (mem_cons_of_mem _ inside))
      indicesRest insideRest aheadRest unsetRest clearRest replaysRest
    refine ⟨final,?_,?_,?_,?_,?_⟩
    · rw [batchProgram,foldl_append,executed,foldl_cons,stepped,executedRest]
    · intro slot outside
      rw [map_cons,mem_cons,not_or] at outside
      rw [frame slot outside.2,elsewhere slot outside.1]
    · intro index less
      rw [earlier index (by omega)]
      exact ran.earlier index less
    · intro other member
      rcases mem_cons.mp member with rfl | later
      · rw [frame _ alone]
        exact update_self ..
      · exact finals other later
    · intro index passRow found
      rw [batchPassRows,getElem?_append] at found
      split at found
      · rename_i short
        rw [earlier _ (by omega)]
        exact seeded index passRow found
      · rename_i long
        have moved := seededRest _ passRow found
        rwa [show row + (passRowsOf req reqId offset (ordered req)).length + (index - (passRowsOf req reqId offset (ordered req)).length) =
          row + index by omega] at moved

end Rows

theorem passRowsOf_nil (req : Req Hash) (reqId : Nat) {offset : Nat}
    (none : passRowsOf req reqId offset items = []) : ∀ item ∈ items, (rowPositions req item).length = 0 := by
  induction items generalizing offset with
  | nil => nofun
  | cons first rest ih =>
    obtain ⟨here,later⟩ := append_eq_nil_iff.mp none
    intro item member
    rcases mem_cons.mp member with rfl | inner
    · by_contra some
      simp [some] at here
    · exact ih later item inner

theorem batchPassRows_nil (loaded : AllLoaded args batch) {offset reqId : Nat}
    (none : batchPassRows offset reqId batch = []) : ∀ req ∈ batch, req.originInputIds.length = 0 := by
  induction batch generalizing offset reqId with
  | nil => nofun
  | cons first rest ih =>
    obtain ⟨here,later⟩ := append_eq_nil_iff.mp none
    intro req member
    rcases mem_cons.mp member with rfl | inner
    · have matched := (loaded req member).matched
      cases last : req.lastSeg with
      | none =>
        have consecutive := matched.consecutive
        rw [getLast?_eq_none_iff.mp last] at consecutive
        exact consecutive.symm
      | some seg =>
        have missed := matched.last seg last
        have width := passRowsOf_nil req reqId here (seg,Option.none) (mem_ordered_miss.mpr missed)
        have bounds := matched.consecutive.mem_bounds (matched.misses.subset missed)
        simp [rowPositions] at width
        omega
    · exact ih (forall_mem_cons.mp loaded).2 later req inner

/-- Seam recompute: each request's slot gets the state behind the prompt, and each row the state before it. -/
theorem forwardExtendPicRecompute3Pass_exact (loaded : AllLoaded args batch) (laid : Laid batch)
    (clear : ∀ req ∈ batch, cache.ssmStates (mambaCacheIndex req) = 0)
    (replays : ∀ req ∈ batch, Replays decay rope inputs cache req) :
    let final := forwardExtendPicRecompute3Pass decay rope ⟨batchPlans true 0 0 batch,batchRecords 0 batch⟩
      ⟨batchPassRows 0 0 batch,batchProgram 0 0 0 batch⟩ (packed inputs batch) (batch.map mambaCacheIndex) cache
    (∀ req ∈ batch, final.1.ssmStates (mambaCacheIndex req) = stateBefore decay inputs req req.originInputIds.length) ∧
      ∀ index passRow, (batchPassRows 0 0 batch)[index]? = some passRow →
        SeededAt decay inputs (packed Prod.mk batch) (passRow.qIdx.headD 0) (final.2 index) := by
  intro final
  by_cases none : batchPassRows 0 0 batch = []
  · simp only [final,forwardExtendPicRecompute3Pass,none,if_true]
    constructor
    · intro req member
      rw [clear req member,batchPassRows_nil loaded none req member,stateBefore_zero]
    · intro index passRow found
      simp at found
  · simp only [final,forwardExtendPicRecompute3Pass,none,if_false]
    rw [missRowMap_items loaded laid]
    set stateBuf := fun index => segLaFwd decay (row (cuSeqlens ((batchPassRows 0 0 batch).map fun row => row.qIdx.length))
      (((batchPassRows 0 0 batch).flatMap PassRow.qIdx).map fun index => (packed inputs batch).getD index 0) index) 0
    set writes := (batchPairs 0 0 0 0 batch).map fun item : Slot × Nat × Nat =>
      (item.1,derotateToCanonical rope (stateBuf item.2.1) (((batchRecords 0 batch)[item.2.2]?.map fun record => record.seg.1).getD 0))
    have slots : writes.map Prod.fst = batch.flatMap cachedSlots := by
      rw [map_map]
      exact batchPairs_slots 0 0 0 0 batch
    have states : ∀ index passRow, (batchPassRows 0 0 batch)[index]? = some passRow → stateBuf index =
        segLaFwd decay (passRow.qIdx.map fun place => ((packed Prod.mk batch).map fun token => inputs token.1 token.2).getD place 0) 0 := by
      intro index passRow found
      simp only [stateBuf]
      rw [packed_row _ _ found,packed_map]
    have stillClear : ∀ req ∈ batch, (cache.write writes).ssmStates (mambaCacheIndex req) = 0 := by
      intro req member
      have outside : mambaCacheIndex req ∉ writes.map Prod.fst := by
        rw [slots]
        intro inside
        obtain ⟨other,otherMember,cached⟩ := mem_flatMap.mp inside
        obtain ⟨seg,-,found⟩ := mem_filterMap.mp cached
        exact laid.notIndex otherMember found (mem_map_of_mem member)
      exact (scatter_other _ _ outside).trans (clear req member)
    have indices : (batch.map mambaCacheIndex).drop 0 = batch.map mambaCacheIndex := rfl
    have inside : (packed Prod.mk batch).drop 0 = packed Prod.mk batch := rfl
    have ahead : (batchPassRows 0 0 batch).drop 0 = batchPassRows 0 0 batch := rfl
    let start : Program S := ⟨fun _ => Option.none,fun _ => 0,(cache.write writes).ssmStates⟩
    have unset : ∀ id, 0 ≤ id → start.hAccumByReq id = Option.none := fun _ _ => rfl
    have startReplays : ∀ req ∈ batch, Replays decay rope inputs ⟨start.ssmStates,(cache.write writes).segStateFp32⟩ req :=
      fun req member => (replays req member).write decay rope inputs laid slots member
    obtain ⟨after,executed,-,-,finals,seeded⟩ := batchProgram_exact decay rope inputs states loaded laid.indices_nodup
      (fun req member slot listed => apart_indices laid member listed) indices inside ahead unset stillClear startReplays
    rw [executed]
    refine ⟨finals,fun index passRow found => ?_⟩
    have seed := seeded index passRow found
    rwa [Nat.zero_add] at seed

/-- `_execute_deferred_mamba_cow_and_clear`: allocation marked each new request slot, and the pool is cleared there before the layers
    run; nothing is copied under PIC. -/
def executeDeferredMambaCowAndClear (batch : List (Req Hash)) (cache : SegLaCache S) : SegLaCache S :=
  { cache with ssmStates := scatter cache.ssmStates (batch.map fun req => (mambaCacheIndex req,0)) }

theorem cleared_own (cache : SegLaCache S) (distinct : (batch.map mambaCacheIndex).Nodup)
    (member : req ∈ batch) : (executeDeferredMambaCowAndClear batch cache).ssmStates (mambaCacheIndex req) = 0 := by
  refine scatter_mem _ _ ?_ (mem_map_of_mem (f := fun req => (mambaCacheIndex req,(0 : S))) member)
  rw [map_map]
  exact distinct

theorem cleared_read (cache : SegLaCache S) (other : slot ∉ batch.map mambaCacheIndex) :
    readState (executeDeferredMambaCowAndClear batch cache) slot = readState cache slot := by
  simp only [readState,executeDeferredMambaCowAndClear]
  rw [scatter_other]
  rw [map_map]
  exact other

/-- The first tokens of the rows that a forward pass runs from a seed: the misses, and under seam recompute the seams too. -/
def rowStarts (args : ServerArgs Hash) (batch : List (Req Hash)) : List Nat :=
  if args.recompute then (batchPassRows 0 0 batch).map fun passRow => passRow.qIdx.headD 0 else (batchRecords 0 batch).map MissRecord.qStart

end Batch

section Exact
variable {M : Type x} [Monoid M] [DistribMulAction M S] [SMulCommClass M Tᵐᵒᵖ S]
variable {args : ServerArgs Hash} (decay : T) (raw : Req Hash → Nat → S)

end Exact

section Runs
open Gdn (warmPass warmPass_scheduled)

/-- Rotations of a number: position `p` multiplies by `2 ^ p`. -/
def powerRope : RopeArgs ℚ := ⟨true,fun state delta => Units.mk0 (2 : ℚ) two_ne_zero ^ delta • state⟩

/-- Each token adds its own number. -/
def tokenInputs (req : Req (List Token)) (position : Nat) : ℚ := req.originInputIds.getD position 0

/-- A layer whose every slot holds the state of `[1,2]`, stored from the front of a prompt. -/
def storedCache : SegLaCache ℚ :=
  ⟨fun _ => canonicalState (3 : ℚ) powerRope (placed powerRope tokenInputs) (Req.create [[1,2],[3]] false 1) (0,2),fun _ => none⟩

end Runs
end Hypic.SegLaCompose
