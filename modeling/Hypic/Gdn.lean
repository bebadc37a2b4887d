import Hypic.Admission
import Mathlib.Data.Matrix.Mul

/-! The GDN linear layer over a batch of segments. The plan numbers the miss segments of all requests as
    rows; the transition mode computes each row's end state and transition from zero, composes them with
    the cached ones in prompt order and runs the rows again from the composed states. -/

namespace Hypic.Gdn
open Policy Allocator Cache Request Alloc Runs Custody Scheduler Admission Forward Affine Ragged List
universe u v w x
variable {Hash : Type u} [DecidableEq Hash]

/-- The batch plan of `init_pic_metadata`. Rows are named by their payload index. -/
structure SegMeta where
  segLengths : List Nat
  transComposeOrder : List (List (Slot × Option Nat))
  transPersist : List (Nat × Slot)
  fusedPersist : List (Nat × Slot)
  reqLastMissPayload : List Nat
  deriving DecidableEq, Repr

section Plan

/-- Hits and misses by start, each with its slot and a miss with its row. A segment without a slot is a `KeyError`. -/
def composeItems (cursor : Nat) (req : Req Hash) : Option (List (Seg × Slot × Option Nat)) :=
  (req.picHitSegments.mapM fun hit => ((picHitMambaSlots req).get? hit.2).map fun slot => (hit.1,slot,(none : Option Nat))).bind
    fun reuse =>
      ((req.picMissSegments.zipIdx cursor).mapM fun item =>
        ((picMissMambaSlots req).get? item.1).map fun slot => (item.1,slot,some item.2)).map fun compute =>
          (reuse ++ compute).insertionSort fun left right => left.1.1 ≤ right.1.1

/-- Every miss with a slot is written back, the last one of a request included. -/
def transPersist (cursor : Nat) (req : Req Hash) : List (Nat × Slot) :=
  (req.picMissSegments.zipIdx cursor).filterMap fun item => ((picMissMambaSlots req).get? item.1).map fun slot => (item.2,slot)

/-- Convolution tails are kept of all misses but the last, and of a lone segment. The addition mode counts no reuse. -/
def fusedPersist (isAddition : Bool) (cursor : Nat) (req : Req Hash) : List (Nat × Slot) :=
  let reuse := if isAddition then 0 else req.picHitSegments.length
  (req.picMissSegments.zipIdx cursor).filterMap fun item =>
    if item.2 + 1 < cursor + req.picMissSegments.length ∨ reuse + req.picMissSegments.length = 1 then
      ((picMissMambaSlots req).get? item.1).map fun slot => (item.2,slot)
    else none

/-- The loop over the batch's requests. Misses that are not listed by start fail an assertion. -/
def initPicMetadata (isAddition : Bool) : Nat → List (Req Hash) → Option SegMeta
  | _, [] => some ⟨[],[],[],[],[]⟩
  | cursor, req::rest =>
    if req.picMissSegments.Pairwise fun left right => left.1 < right.1 then
      (if isAddition then some [] else (composeItems cursor req).map fun items => [items.map Prod.snd]).bind fun order =>
        (initPicMetadata isAddition (cursor + req.picMissSegments.length) rest).map fun later =>
          { segLengths := (req.picMissSegments.map fun seg => seg.2 - seg.1) ++ later.segLengths
            transComposeOrder := order ++ later.transComposeOrder
            transPersist := transPersist cursor req ++ later.transPersist
            fusedPersist := fusedPersist isAddition cursor req ++ later.fusedPersist
            reqLastMissPayload := (cursor + req.picMissSegments.length - 1)::later.reqLastMissPayload }
    else none
end Plan

section Kernel
variable {T : Type v} {S : Type w} {X : Type x} [Semiring T] [AddCommMonoid S] [Module Tᵐᵒᵖ S] [Zero X]

/-- `_fla_fwd_h` over one row, in exact arithmetic. -/
def fwdH (cells : List (Cell T S X)) (h0 : S) : S := fold (cells.map Cell.toStep) h0

/-- `_fla_fwd_h` over one row with `u = 0` and the identity as initial state. -/
def fwdTransition (cells : List (Cell T S X)) : T := fold (cells.map fun cell => cell.toStep.linear) (1 : T)

/-- The last inputs of the convolution, with zeros in front of a short row. -/
def convTail (width : Nat) (cells : List (Cell T S X)) : List X :=
  List.replicate (width - cells.length) 0 ++ (cells.drop (cells.length - width)).map Cell.raw

/-- `pool[dst] = buf[src]` -/
def persist {β : Type*} (pool : Slot → β) (plan : List (Nat × Slot)) (buf : Nat → β) : Slot → β :=
  scatter pool (plan.map fun item => (item.2,buf item.1))

/-- One request's compose loop: a miss row is seeded with the state before it, and every segment advances
    the state by the pair in its slot. -/
def composeReq (cache : LayerCache T S X) : List (Slot × Option Nat) → S → (Nat → S) → S × (Nat → S)
  | [], hAccum, kernelH0 => (hAccum,kernelH0)
  | (slot,payload)::rest, hAccum, kernelH0 =>
    composeReq cache rest (Step.apply ⟨cache.transition slot,cache.temporal slot⟩ hAccum)
      (match payload with
        | some row => Function.update kernelH0 row hAccum
        | none => kernelH0)

def compose (cache : LayerCache T S X) : List (List (Slot × Option Nat)) → (Nat → S) → List S × (Nat → S)
  | [], kernelH0 => ([],kernelH0)
  | order::rest, kernelH0 =>
    let composed := composeReq cache order 0 kernelH0
    let later := compose cache rest composed.2
    (composed.1::later.1,later.2)

/-- The layer after a forward pass, with the initial states of the seeded rows. -/
structure Forwarded (T : Type v) (S : Type w) (X : Type x) where
  cache : LayerCache T S X
  kernelH0 : Nat → S

def forwardExtendPicTransition (width : Nat) (plan : SegMeta) (inputs : Req Hash → Nat → Cell T S X) (batch : List (Req Hash))
    (cache : LayerCache T S X) : Forwarded T S X :=
  let cells := row (cuSeqlens plan.segLengths) (packed inputs batch)
  let convTails := persist cache.convTails plan.fusedPersist fun payload => convTail width (cells payload)
  let temporal := persist cache.temporal plan.transPersist fun payload => fwdH (cells payload) 0
  let transition := persist cache.transition plan.transPersist fun payload => fwdTransition (cells payload)
  let composed := compose ⟨temporal,transition,convTails⟩ plan.transComposeOrder fun _ => 0
  ⟨⟨scatter temporal ((batch.map mambaCacheIndex).zip composed.1),transition,convTails⟩,composed.2⟩

/-- The first miss row of a request with hits is seeded with the sum of the hits' states. -/
def additionSeeds (cache : LayerCache T S X) : Nat → List (Req Hash) → (Nat → S) → Nat → S
  | _, [], tempStates => tempStates
  | cursor, req::rest, tempStates =>
    additionSeeds cache (cursor + req.picMissSegments.length) rest
      (if 0 < req.picMissSegments.length ∧ (picHitMambaSlots req).items ≠ [] then
        Function.update tempStates cursor ((picHitMambaSlots req).values.map cache.temporal).sum
      else tempStates)

def forwardExtendPicAddition (width : Nat) (plan : SegMeta) (inputs : Req Hash → Nat → Cell T S X) (batch : List (Req Hash))
    (cache : LayerCache T S X) : Forwarded T S X :=
  let cells := row (cuSeqlens plan.segLengths) (packed inputs batch)
  let seeds := additionSeeds cache 0 batch fun _ => 0
  let convTails := persist cache.convTails plan.fusedPersist fun payload => convTail width (cells payload)
  let tempStates := fun payload => fwdH (cells payload) (seeds payload)
  let temporal := persist cache.temporal plan.transPersist tempStates
  ⟨⟨scatter temporal ((batch.map mambaCacheIndex).zip (plan.reqLastMissPayload.map tempStates)),cache.transition,convTails⟩,seeds⟩
end Kernel

section PlanFacts
variable {args : ServerArgs Hash}

variable {isAddition : Bool} {plan : SegMeta} {cursor : Nat} {req : Req Hash}

theorem initPicMetadata_cons {rest : List (Req Hash)}
    (executed : initPicMetadata isAddition cursor (req::rest) = some plan) :
    ∃ order later, (if isAddition then some [] else (composeItems cursor req).map fun items => [items.map Prod.snd]) = some order ∧
      initPicMetadata isAddition (cursor + req.picMissSegments.length) rest = some later ∧
      plan =
        { segLengths := (req.picMissSegments.map fun seg => seg.2 - seg.1) ++ later.segLengths
          transComposeOrder := order ++ later.transComposeOrder
          transPersist := transPersist cursor req ++ later.transPersist
          fusedPersist := fusedPersist isAddition cursor req ++ later.fusedPersist
          reqLastMissPayload := (cursor + req.picMissSegments.length - 1)::later.reqLastMissPayload } := by
  simp only [initPicMetadata] at executed
  split at executed
  · obtain ⟨order,ordered,executed⟩ := bind_eq_some_iff.mp executed
    obtain ⟨later,planned,same⟩ := map_eq_some_iff.mp executed
    exact ⟨order,later,ordered,planned,same.symm⟩
  · cases executed

variable {batch : List (Req Hash)}

section
variable (executed : initPicMetadata isAddition cursor batch = some plan)
include executed

theorem initPicMetadata_segLengths :
    plan.segLengths = (missRows batch).map fun row => row.2.2 - row.2.1 := by
  induction batch generalizing cursor plan with
  | nil => cases executed; rfl
  | cons req rest ih =>
    obtain ⟨order,later,-,planned,rfl⟩ := initPicMetadata_cons executed
    simp only [missRows,flatMap_cons,map_append,map_map] at ih ⊢
    rw [ih planned]
    rfl

theorem initPicMetadata_transPersist :
    plan.transPersist = ((missRows batch).zipIdx cursor).filterMap fun item =>
      ((picMissMambaSlots item.1.1).get? item.1.2).map fun slot => (item.2,slot) := by
  induction batch generalizing cursor plan with
  | nil => cases executed; rfl
  | cons req rest ih =>
    obtain ⟨order,later,-,planned,rfl⟩ := initPicMetadata_cons executed
    simp only [missRows,flatMap_cons,zipIdx_append,filterMap_append] at ih ⊢
    rw [ih planned,length_map,transPersist,zipIdx_map,filterMap_map]
    rfl

theorem transPersist_slots : plan.transPersist.map Prod.snd = missSlots batch := by
  have only (rows : List (Req Hash × Seg)) (start : Nat) : ((rows.zipIdx start).filterMap fun item =>
      ((picMissMambaSlots item.1.1).get? item.1.2).map fun slot => (item.2,slot)).map Prod.snd =
        rows.filterMap fun row => (picMissMambaSlots row.1).get? row.2 := by
    induction rows generalizing start with
    | nil => rfl
    | cons row rest ih =>
      rw [zipIdx_cons,filterMap_cons,filterMap_cons]
      cases (picMissMambaSlots row.1).get? row.2 with
      | none => exact ih (start + 1)
      | some slot => exact congrArg (slot :: ·) (ih (start + 1))
  rw [initPicMetadata_transPersist executed,only]
  rfl

end

theorem mem_transPersist
    (executed : initPicMetadata isAddition 0 batch = some plan) {payload : Nat} {seg : Seg} {slot : Slot}
    (listed : (missRows batch)[payload]? = some (req,seg)) (found : (picMissMambaSlots req).get? seg = some slot) :
    (payload,slot) ∈ plan.transPersist := by
  rw [initPicMetadata_transPersist executed,mem_filterMap]
  refine ⟨((req,seg),payload),?_,?_⟩
  · simpa [mem_zipIdx_iff_getElem?] using listed
  · simp [found]

/-- An item of the compose order is a hit with its entry's slot or a miss with its own slot and row. -/
def ItemOf (cursor : Nat) (req : Req Hash) (item : Seg × Slot × Option Nat) : Prop :=
  (∃ hit ∈ req.picHitSegments, item.1 = hit.1 ∧ (picHitMambaSlots req).get? hit.2 = some item.2.1 ∧ item.2.2 = none) ∨
    ∃ index, req.picMissSegments[index]? = some item.1 ∧ (picMissMambaSlots req).get? item.1 = some item.2.1 ∧
      item.2.2 = some (cursor + index)

structure ComposeOrder (cursor : Nat) (req : Req Hash) (items : List (Seg × Slot × Option Nat)) : Prop where
  segs : items.map Prod.fst = req.picSegments
  each : ∀ item ∈ items, ItemOf cursor req item
  rows : ∀ index seg, req.picMissSegments[index]? = some seg → ∃ slot, (seg,slot,some (cursor + index)) ∈ items
  distinct : (items.filterMap fun item => item.2.2).Nodup

/-- Sorting by start puts hits and misses back into the order of the prompt. -/
theorem composeItems_spec {items : List (Seg × Slot × Option Nat)} (partition : Partitioned req)
    (executed : composeItems cursor req = some items) : ComposeOrder cursor req items := by
  obtain ⟨reuse,hits,executed⟩ := bind_eq_some_iff.mp executed
  obtain ⟨compute,misses,rfl⟩ := map_eq_some_iff.mp executed
  have hits := Related.of_mapM hits
  have misses := Related.of_mapM misses
  have perm := perm_insertionSort (fun left right : Seg × Slot × Option Nat => left.1.1 ≤ right.1.1) (reuse ++ compute)
  have reused : ∀ item ∈ reuse, ∃ hit ∈ req.picHitSegments, item.1 = hit.1 ∧
      (picHitMambaSlots req).get? hit.2 = some item.2.1 ∧ item.2.2 = none := by
    intro item member
    obtain ⟨hit,listed,found⟩ := exists_left hits member
    obtain ⟨slot,known,rfl⟩ := map_eq_some_iff.mp found
    exact ⟨hit,listed,rfl,known,rfl⟩
  have computed : ∀ item ∈ compute, ∃ index, req.picMissSegments[index]? = some item.1 ∧
      (picMissMambaSlots req).get? item.1 = some item.2.1 ∧ item.2.2 = some (cursor + index) := by
    intro item member
    obtain ⟨⟨seg,payload⟩,listed,found⟩ := exists_left misses member
    obtain ⟨slot,known,rfl⟩ := map_eq_some_iff.mp found
    obtain ⟨le,listed⟩ := mk_mem_zipIdx_iff_le_and_getElem?_sub.mp listed
    exact ⟨payload - cursor,listed,known,by simp only [Option.some.injEq]; omega⟩
  refine ⟨?_,?_,?_,?_⟩
  · refine insertionSort_starts Prod.fst (reuse ++ compute) ?_ partition.consecutive.increasing
    rw [map_append]
    have same : reuse.map Prod.fst = req.picHitSegments.map Prod.fst := by
      refine Related.map_eq hits Prod.fst Prod.fst fun hit item found => ?_
      obtain ⟨slot,-,rfl⟩ := map_eq_some_iff.mp found
      rfl
    have others : compute.map Prod.fst = (req.picMissSegments.zipIdx cursor).map Prod.fst := by
      refine Related.map_eq misses Prod.fst Prod.fst fun hit item found => ?_
      obtain ⟨slot,-,rfl⟩ := map_eq_some_iff.mp found
      rfl
    rw [same,others,zipIdx_map_fst]
    exact partition_perm partition
  · intro item member
    rcases mem_append.mp (perm.subset member) with hit | miss
    · exact .inl (reused item hit)
    · exact .inr (computed item miss)
  · intro index seg listed
    have member : (seg,cursor + index) ∈ req.picMissSegments.zipIdx cursor :=
      mk_add_mem_zipIdx_iff_getElem?.mpr listed
    obtain ⟨item,inside,found⟩ := exists_right misses member
    obtain ⟨slot,-,rfl⟩ := map_eq_some_iff.mp found
    exact ⟨slot,perm.symm.subset (mem_append_right _ inside)⟩
  · have none : (reuse.filterMap fun item => item.2.2) = [] := by
      refine filterMap_eq_nil_iff.mpr fun item member => ?_
      obtain ⟨-,-,-,-,payload⟩ := reused item member
      exact payload
    have payloads : compute.map (fun item => item.2.2) = (req.picMissSegments.zipIdx cursor).map fun item => some item.2 := by
      refine Related.map_eq misses (fun item => some item.2) (fun item => item.2.2) fun item image found => ?_
      obtain ⟨slot,-,rfl⟩ := map_eq_some_iff.mp found
      rfl
    have some : (compute.filterMap fun item => item.2.2) = (req.picMissSegments.zipIdx cursor).map Prod.snd := by
      have mapped := congrArg (List.filterMap id) payloads
      rw [filterMap_map,filterMap_map] at mapped
      refine mapped.trans ?_
      rw [← filterMap_eq_map]
      rfl
    rw [(perm.filterMap _).nodup_iff,filterMap_append,none,some,nil_append,zipIdx_map_snd]
    exact nodup_range' ..

theorem initPicMetadata_isSome (cursor : Nat) (batch : List (Req Hash)) (loaded : AllLoaded args batch) :
    (initPicMetadata false cursor batch).isSome ↔ ∀ req ∈ batch, ∀ seg ∈ req.picMissSegments, ((picMissMambaSlots req).get? seg).isSome := by
  induction batch generalizing cursor with
  | nil => simp [initPicMetadata]
  | cons req rest ih =>
    have here := loaded req mem_cons_self
    have later := ih (cursor + req.picMissSegments.length) (forall_mem_cons.mp loaded).2
    have listed := here.increasing
    constructor
    · intro planned
      obtain ⟨plan,planned⟩ := isSome_iff_exists.mp planned
      obtain ⟨order,after,ordered,planned,-⟩ := initPicMetadata_cons planned
      refine forall_mem_cons.mpr ⟨fun seg missed => ?_,later.mp (isSome_iff_exists.mpr ⟨after,planned⟩)⟩
      obtain ⟨items,composed,-⟩ := map_eq_some_iff.mp ordered
      obtain ⟨index,found⟩ := mem_iff_getElem?.mp missed
      have spec := composeItems_spec here.matched.toPartitioned composed
      obtain ⟨slot,member⟩ := spec.rows index seg found
      rcases spec.each _ member with ⟨-,-,-,-,absent⟩ | ⟨-,-,known,-⟩
      · cases absent
      · exact isSome_iff_exists.mpr ⟨slot,known⟩
    · intro stated
      obtain ⟨mine,others⟩ := forall_mem_cons.mp stated
      obtain ⟨after,planned⟩ := isSome_iff_exists.mp (later.mpr others)
      have reuse : (req.picHitSegments.mapM fun hit =>
          ((picHitMambaSlots req).get? hit.2).map fun slot => (hit.1,slot,(none : Option Nat))).isSome := by
        refine Related.mapM_isSome _ _ fun hit member => ?_
        obtain ⟨slot,found⟩ := here.hitSlot member
        rw [found]
        rfl
      have compute : ((req.picMissSegments.zipIdx cursor).mapM fun item =>
          ((picMissMambaSlots req).get? item.1).map fun slot => (item.1,slot,some item.2)).isSome := by
        refine Related.mapM_isSome _ _ fun item member => ?_
        rw [isSome_map]
        exact mine item.1 (fst_mem_of_mem_zipIdx member)
      obtain ⟨reuse,reused⟩ := isSome_iff_exists.mp reuse
      obtain ⟨compute,computed⟩ := isSome_iff_exists.mp compute
      simp [initPicMetadata,listed,composeItems,reused,computed,planned]

theorem initPicMetadata_addition (cursor : Nat) (batch : List (Req Hash)) (loaded : AllLoaded args batch) :
    (initPicMetadata true cursor batch).isSome := by
  induction batch generalizing cursor with
  | nil => rfl
  | cons req rest ih =>
    have here := loaded req mem_cons_self
    obtain ⟨later,planned⟩ := isSome_iff_exists.mp
      (ih (cursor + req.picMissSegments.length) fun other member => loaded other (mem_cons_of_mem _ member))
    have listed := here.increasing
    simp [initPicMetadata,listed,planned]
end PlanFacts

section Exact
variable {T : Type v} {S : Type w} {X : Type x} [Semiring T] [AddCommMonoid S] [Module Tᵐᵒᵖ S] [Zero X]
variable {args : ServerArgs Hash} (inputs : Req Hash → Nat → Cell T S X)

/-- A slot holds a segment's end state from zero and its transition. -/
structure Holds (cache : LayerCache T S X) (slot : Slot) (cells : List (Cell T S X)) : Prop where
  temporal : cache.temporal slot = fwdH cells 0
  transition : cache.transition slot = transition (cells.map Cell.toStep)

theorem fwdTransition_eq (cells : List (Cell T S X)) : fwdTransition cells = transition (cells.map Cell.toStep) := by
  have linear := fold_linear_one (cells.map Cell.toStep)
  rwa [map_map] at linear

theorem fwdH_append (left right : List (Cell T S X)) (h : S) : fwdH (left ++ right) h = fwdH right (fwdH left h) := by
  rw [fwdH,map_append,fold_append]
  rfl

variable {cache : LayerCache T S X}

theorem Holds.advance {slot : Slot} {cells : List (Cell T S X)} (holds : Holds cache slot cells) (h : S) :
    Step.apply ⟨cache.transition slot,cache.temporal slot⟩ h = fwdH cells h := by
  rw [holds.temporal,holds.transition]
  exact summary_apply (cells.map Cell.toStep) h

/-- The compose loop over consecutive segments is the recurrence over their tokens, and it seeds each miss with the
    state before it. -/
theorem composeReq_exact (req : Req Hash) (items : List (Seg × Slot × Option Nat)) {start stop : Nat}
    (consecutive : Consecutive start (items.map Prod.fst) stop)
    (holds : ∀ item ∈ items, Holds cache item.2.1 (segTokens inputs req item.1))
    (distinct : (items.filterMap fun item => item.2.2).Nodup) (kernelH0 : Nat → S) :
    let composed := composeReq cache (items.map Prod.snd) (fwdH (prefixTokens inputs req start) 0) kernelH0
    composed.1 = fwdH (prefixTokens inputs req stop) 0 ∧
      (∀ item ∈ items, ∀ payload, item.2.2 = some payload → composed.2 payload = fwdH (prefixTokens inputs req item.1.1) 0) ∧
      ∀ payload, (∀ item ∈ items, item.2.2 ≠ some payload) → composed.2 payload = kernelH0 payload := by
  induction items generalizing start kernelH0 with
  | nil =>
    obtain rfl : start = stop := consecutive
    exact ⟨rfl,nofun,fun _ _ => rfl⟩
  | cons item rest ih =>
    obtain ⟨seg,slot,payload⟩ := item
    obtain ⟨rfl,positive,later⟩ := consecutive
    have advanced : Step.apply ⟨cache.transition slot,cache.temporal slot⟩ (fwdH (prefixTokens inputs req seg.1) 0) =
        fwdH (prefixTokens inputs req seg.2) 0 := by
      rw [(holds _ mem_cons_self).advance,← fwdH_append,prefixTokens_seg inputs req positive]
    have others : ∀ item ∈ rest, Holds cache item.2.1 (segTokens inputs req item.1) :=
      (forall_mem_cons.mp holds).2
    simp only [map_cons,composeReq,advanced]
    cases payload with
    | none =>
      obtain ⟨final,seeds,frame⟩ := ih later others (by simpa using distinct) kernelH0
      refine ⟨final,forall_mem_cons.mpr ⟨nofun,seeds⟩,fun payload absent => ?_⟩
      exact frame payload (forall_mem_cons.mp absent).2
    | some row =>
      rw [filterMap_cons,nodup_cons] at distinct
      obtain ⟨final,seeds,frame⟩ := ih later others distinct.2 (Function.update kernelH0 row (fwdH (prefixTokens inputs req seg.1) 0))
      refine ⟨final,forall_mem_cons.mpr ⟨?_,seeds⟩,fun payload absent => ?_⟩
      · -- no later item names this row, so its seed stays
        rintro payload same
        cases same
        refine (frame row fun item member same => ?_).trans (Function.update_self ..)
        exact distinct.1 (mem_filterMap.mpr ⟨item,member,same⟩)
      · refine (frame payload fun item member => absent item (mem_cons_of_mem _ member)).trans ?_
        refine update_of_ne (fun same => ?_) ..
        exact absent (seg,slot,some row) mem_cons_self (same ▸ rfl)

/-- Every slot the compose loop reads holds its segment. -/
structure Stocked (cache : LayerCache T S X) (batch : List (Req Hash)) : Prop where
  hits : ∀ req ∈ batch, ∀ hit ∈ req.picHitSegments, ∀ slot, (picHitMambaSlots req).get? hit.2 = some slot →
    Holds cache slot (segTokens inputs req hit.1)
  misses : ∀ req ∈ batch, ∀ seg ∈ req.picMissSegments, ∀ slot, (picMissMambaSlots req).get? seg = some slot →
    Holds cache slot (segTokens inputs req seg)

variable {batch : List (Req Hash)}

/-- The compose loops of a batch. Rows before `cursor` belong to earlier requests and keep their seeds. -/
theorem compose_exact {cursor : Nat} {plan : SegMeta}
    (loaded : AllLoaded args batch) (stocked : Stocked inputs cache batch)
    (executed : initPicMetadata false cursor batch = some plan) (kernelH0 : Nat → S) :
    let composed := compose cache plan.transComposeOrder kernelH0
    composed.1 = batch.map (fun req => fwdH (promptTokens inputs req) 0) ∧
      (∀ index req seg, (missRows batch)[index]? = some (req,seg) →
        composed.2 (cursor + index) = fwdH (prefixTokens inputs req seg.1) 0) ∧
      ∀ payload < cursor, composed.2 payload = kernelH0 payload := by
  induction batch generalizing cursor plan kernelH0 with
  | nil =>
    cases executed
    exact ⟨rfl,by simp [missRows],fun _ _ => rfl⟩
  | cons req rest ih =>
    obtain ⟨order,later,ordered,planned,rfl⟩ := initPicMetadata_cons executed
    obtain ⟨items,composed,rfl⟩ := map_eq_some_iff.mp ordered
    have here := loaded req mem_cons_self
    have spec := composeItems_spec here.matched.toPartitioned composed
    have consecutive : Consecutive 0 (items.map Prod.fst) req.originInputIds.length := by
      rw [spec.segs]; exact here.matched.consecutive
    have holds : ∀ item ∈ items, Holds cache item.2.1 (segTokens inputs req item.1) := by
      intro item member
      rcases spec.each item member with ⟨hit,listed,same,found,-⟩ | ⟨index,listed,found,-⟩
      · rw [same]; exact stocked.hits req mem_cons_self hit listed item.2.1 found
      · exact stocked.misses req mem_cons_self item.1 (mem_of_getElem? listed) item.2.1 found
    obtain ⟨final,seeds,frame⟩ := composeReq_exact inputs req items consecutive holds spec.distinct kernelH0
    have empty : fwdH (prefixTokens inputs req 0) 0 = 0 := rfl
    rw [empty] at final seeds frame
    obtain ⟨finals,laterSeeds,laterFrame⟩ := ih (forall_mem_cons.mp loaded).2
      ⟨fun other member => stocked.hits other (mem_cons_of_mem _ member),
        fun other member => stocked.misses other (mem_cons_of_mem _ member)⟩ planned
      (composeReq cache (items.map Prod.snd) 0 kernelH0).2
    simp only [cons_append,nil_append,compose,map_cons]
    refine ⟨?_,?_,?_⟩
    · rw [final,finals]
      rfl
    · intro index other seg listed
      simp only [missRows,flatMap_cons,getElem?_append,length_map] at listed
      split at listed
      · -- a row of this request: later requests number theirs after it
        rename_i mine
        rw [laterFrame (cursor + index) (by omega)]
        rw [getElem?_map,map_eq_some_iff] at listed
        obtain ⟨found,missed,same⟩ := listed
        cases same
        obtain ⟨slot,member⟩ := spec.rows index seg missed
        exact seeds _ member _ rfl
      · rename_i others
        have shifted := laterSeeds (index - req.picMissSegments.length) other seg listed
        rwa [show cursor + req.picMissSegments.length + (index - req.picMissSegments.length) = cursor + index by omega] at shifted
    · intro payload before
      rw [laterFrame payload (by omega)]
      refine frame payload fun item member same => ?_
      rcases spec.each item member with ⟨-,-,-,-,absent⟩ | ⟨index,-,-,row⟩
      · rw [absent] at same; cases same
      · rw [row,Option.some.injEq] at same; omega

/-- What the transition mode promises of a forward pass. -/
structure Exact (batch : List (Req Hash)) (result : Forwarded T S X) : Prop where
  final : ∀ req ∈ batch, result.cache.temporal (mambaCacheIndex req) = fwdH (promptTokens inputs req) 0
  seeded : ∀ payload req seg, (missRows batch)[payload]? = some (req,seg) →
    result.kernelH0 payload = fwdH (prefixTokens inputs req seg.1) 0

theorem row_segTokens {isAddition : Bool} {plan : SegMeta} (loaded : AllLoaded args batch)
    (plain : args.recompute = false) (executed : initPicMetadata isAddition 0 batch = some plan) {payload : Nat} {req : Req Hash}
    {seg : Seg} (listed : (missRows batch)[payload]? = some (req,seg)) :
    row (cuSeqlens plan.segLengths) (packed inputs batch) payload = segTokens inputs req seg := by
  have lengths : plan.segLengths = ((missRows batch).map fun row => segTokens inputs row.1 row.2).map List.length := by
    rw [initPicMetadata_segLengths executed,map_map]
    exact map_congr_left fun row _ => (segTokens_length inputs row.1 row.2).symm
  rw [packed_rows inputs fun req member => (loaded req member).plainPositions plain,lengths]
  refine row_flatten _ ?_
  rw [getElem?_map,listed]
  rfl

theorem persist_row {β : Type*} {isAddition : Bool} {plan : SegMeta}
    (loaded : AllLoaded args batch) (laid : Laid batch) (executed : initPicMetadata isAddition 0 batch = some plan)
    (pool : Slot → β) (buf : Nat → β) :
    (∀ payload req seg slot, (missRows batch)[payload]? = some (req,seg) → (picMissMambaSlots req).get? seg = some slot →
      persist pool plan.transPersist buf slot = buf payload) ∧
    ∀ slot, slot ∉ missSlots batch → persist pool plan.transPersist buf slot = pool slot := by
  have places : ((plan.transPersist.map fun item => (item.2,buf item.1)).map Prod.fst) = missSlots batch := by
    rw [map_map]
    exact transPersist_slots executed
  have distinct : (missSlots batch).Nodup :=
    laid.missSlots_nodup fun req member => (loaded req member).matched.consecutive.nodup.sublist (loaded req member).matched.misses
  constructor
  · intro payload req seg slot listed found
    refine scatter_mem _ pool (places ▸ distinct) ?_
    exact mem_map.mpr ⟨(payload,slot),mem_transPersist executed listed found,rfl⟩
  · intro slot absent
    exact scatter_other _ pool (places ▸ absent)

theorem persist_stocked {plan : SegMeta}
    (loaded : AllLoaded args batch) (laid : Laid batch) (plain : args.recompute = false)
    (executed : initPicMetadata false 0 batch = some plan)
    (filled : ∀ req ∈ batch, HitsHold inputs (Holds cache) req) (convTails : Slot → List X) :
    let cells := row (cuSeqlens plan.segLengths) (packed inputs batch)
    Stocked inputs ⟨persist cache.temporal plan.transPersist fun payload => fwdH (cells payload) 0,
      persist cache.transition plan.transPersist fun payload => fwdTransition (cells payload),convTails⟩ batch := by
  intro cells
  obtain ⟨states,otherStates⟩ := persist_row loaded laid executed cache.temporal fun payload => fwdH (cells payload) 0
  obtain ⟨transitions,otherTransitions⟩ := persist_row loaded laid executed cache.transition fun payload => fwdTransition (cells payload)
  constructor
  · intro req member hit listed slot found
    have apart : slot ∉ missSlots batch := fun written =>
      laid.apart req member slot (Dict.mem_values_of_get? found) (missSlots_subset batch written)
    have held := filled req member hit listed slot found
    exact ⟨(otherStates slot apart).trans held.temporal,(otherTransitions slot apart).trans held.transition⟩
  · intro req member seg missed slot found
    obtain ⟨payload,listed⟩ := mem_iff_getElem?.mp (mem_missRows.mpr ⟨member,missed⟩)
    have cut : cells payload = segTokens inputs req seg := row_segTokens inputs loaded plain executed listed
    refine ⟨(states payload req seg slot listed found).trans ?_,(transitions payload req seg slot listed found).trans ?_⟩
    · rw [cut]
    · rw [cut,fwdTransition_eq]

theorem forwardExtendPicTransition_exact (width : Nat) {plan : SegMeta}
    (loaded : AllLoaded args batch) (laid : Laid batch) (plain : args.recompute = false)
    (executed : initPicMetadata false 0 batch = some plan)
    (filled : ∀ req ∈ batch, HitsHold inputs (Holds cache) req) :
    Exact inputs batch (forwardExtendPicTransition width plan inputs batch cache) := by
  have stocked := persist_stocked inputs loaded laid plain executed filled
    (persist cache.convTails plan.fusedPersist fun payload => convTail width (row (cuSeqlens plan.segLengths) (packed inputs batch) payload))
  obtain ⟨finals,seeds,-⟩ := compose_exact inputs loaded stocked executed fun _ => 0
  constructor
  · intro req member
    simp only [forwardExtendPicTransition]
    rw [finals]
    refine scatter_mem _ _ ?_ ?_
    · rw [map_fst_zip (by simp)]
      exact laid.indices_nodup
    · rw [zip_map']
      exact mem_map.mpr ⟨req,member,rfl⟩
  · intro payload req seg listed
    have seed := seeds payload req seg listed
    rwa [Nat.zero_add] at seed

/-- No short segment before the last one is a miss without a state slot. Rope modes give every miss one. -/
def Stateful (args : ServerArgs Hash) (reqs : List (Req Hash)) : Prop :=
  ∀ req ∈ reqs, ∀ seg ∈ req.picMissSegments, args.rope = false → some seg ≠ req.lastSeg → args.short seg = false

theorem prefilled_stateful {reqs batch : List (Req Hash)} (prefilled : Forall₂ (Prefilled args) reqs batch)
    (loaded : AllLoaded args batch) :
    (∀ req ∈ batch, ∀ seg ∈ req.picMissSegments, ((picMissMambaSlots req).get? seg).isSome) ↔ Stateful args reqs := by
  have same {before after : Req Hash} (related : Prefilled args before after) :
      after.picMissSegments = before.picMissSegments ∧ after.lastSeg = before.lastSeg := by
    have matched := prefilled_match related
    exact ⟨matched.picMissSegments,congrArg List.getLast? matched.picSegments⟩
  constructor
  · intro stated req member seg missed plain notLast
    obtain ⟨after,inside,related⟩ := exists_right prefilled member
    obtain ⟨misses,last⟩ := same related
    rw [← misses] at missed
    have found := ((loaded after inside).missSlot missed).mp (stated after inside seg missed)
    by_contra short
    exact found ⟨plain,last ▸ notLast,by simpa using short⟩
  · intro stateful req member seg missed
    obtain ⟨before,inside,related⟩ := exists_left prefilled member
    obtain ⟨misses,last⟩ := same related
    rw [(loaded req member).missSlot missed]
    rintro ⟨plain,notLast,short⟩
    rw [stateful before inside seg (misses ▸ missed) plain (last ▸ notLast)] at short
    cases short

/-- The transition modes without seam recompute: the forward pass of an allocated batch leaves the recurrence over each
    whole prompt in the request's slot and seeds each miss with the state before it, unless the plan meets a short
    segment that was given no state slot. -/
theorem transition_exact (width : Nat) (pools : Pools Hash) (reqs : List (Req Hash)) (extended : Extended Hash)
    (transition : args.isTransition = true) (plain : args.recompute = false)
    (scheduled : ∀ req ∈ reqs, Scheduled args pools req) (distinct : pools.ledger.2.Nodup)
    (executed : picAllocForExtend args pools reqs = some extended) (cache : LayerCache T S X)
    (filled : ∀ req ∈ extended.reqs, ∀ hit ∈ req.picHitSegments, ∀ slot, (picHitMambaSlots req).get? hit.2 = some slot →
      Holds cache slot (segTokens inputs req hit.1)) :
    (∃ plan, initPicMetadata (!args.isTransition) 0 extended.reqs = some plan ∧
      Exact inputs extended.reqs (forwardExtendPicTransition width plan inputs extended.reqs cache)) ↔ Stateful args reqs := by
  obtain ⟨loaded,laid⟩ := picAllocForExtend_laid scheduled distinct executed
  obtain ⟨prefilled,-⟩ := scheduled_spec scheduled executed
  rw [← prefilled_stateful prefilled loaded,← initPicMetadata_isSome 0 extended.reqs loaded,transition,isSome_iff_exists]
  exact exists_congr fun plan =>
    ⟨And.left,fun planned => ⟨planned,forwardExtendPicTransition_exact inputs width loaded laid plain planned filled⟩⟩
end Exact

section Shapes
variable {Head V K R : Type*} [Fintype K] [DecidableEq K] [Semiring R]

/-- The layer's shapes: for each head a state of `V × K` and transitions of `K × K` that multiply it from the right. -/
instance headsModule : Module (Head → Matrix K K R)ᵐᵒᵖ (Head → Matrix V K R) where
  smul transition h := fun head => h head * transition.unop head
  one_smul h := funext fun head => Matrix.mul_one (h head)
  mul_smul left right h := funext fun head => (Matrix.mul_assoc (h head) (right.unop head) (left.unop head)).symm
  smul_zero transition := funext fun head => Matrix.zero_mul (transition.unop head)
  smul_add transition left right := funext fun head => Matrix.add_mul (left head) (right head) (transition.unop head)
  add_smul left right h := funext fun head => Matrix.mul_add (h head) (left.unop head) (right.unop head)
  zero_smul h := funext fun head => Matrix.mul_zero (h head)
end Shapes

section Runs
/-- Pools with the segment `[1,2]` in the cache, left by a finished request. -/
def warmPools (args : ServerArgs (List Token)) : Option (Pools (List Token)) :=
  (run (step args) (.start 16 16 4 false) [.arrive 0 [[1,2],[3]] 1,.matchPrefix 0 1,.incLockRef 0,.allocForExtend [0],
    .cacheUnfinished 0 2,.finish 0 3 false]).map Engine.pools

/-- A request that shares the cached segment, admitted and allocated. -/
def warmPass (args : ServerArgs (List Token)) (parts : List (List Token)) : Option (PrefillAdder (List Token)) :=
  (warmPools args).bind fun pools => getNewBatchPrefill args 4 4 [(Req.create parts false 1,true)] (.idle pools 100)

theorem warmPass_scheduled (args : ServerArgs (List Token)) (parts : List (List Token)) {final : PrefillAdder (List Token)}
    (nonempty : (Req.create parts false 1 : Req (List Token)).picSegments ≠ []) (executed : warmPass args parts = some final) :
    ∀ req ∈ final.canRunList, Scheduled args final.pools req := by
  obtain ⟨pools,-,executed⟩ := bind_eq_some_iff.mp executed
  obtain ⟨count,passed⟩ := getNewBatchPrefill_front args 4 4 _ (.idle pools 100) rfl executed
  refine passed.scheduled args fun req member => ?_
  obtain ⟨item,queued,rfl⟩ := mem_map.mp member
  rw [mem_singleton.mp (mem_of_mem_take queued)]
  exact create_waiting parts 1 nonempty

/-- Two heads with states of `1 × 2`; a token's step depends on its position. -/
def headInputs (_ : Req (List Token)) (pos : Nat) :
    Cell (Fin 2 → Matrix (Fin 2) (Fin 2) ℚ) (Fin 2 → Matrix (Fin 1) (Fin 2) ℚ) ℚ :=
  ⟨⟨fun _ => Matrix.of fun row col => if row ≤ col then pos + 1 else 0,fun head => Matrix.of fun _ _ => pos + head.val⟩,pos⟩

/-- A layer in which every slot holds the pair of the first two tokens. -/
def headCache : LayerCache (Fin 2 → Matrix (Fin 2) (Fin 2) ℚ) (Fin 2 → Matrix (Fin 1) (Fin 2) ℚ) ℚ :=
  let cells := segTokens headInputs (Req.create [] false 0) (0,2)
  ⟨fun _ => fwdH cells 0,fun _ => transition (cells.map Cell.toStep),fun _ => []⟩

theorem hit_of_map {batch : List (Req Hash)} {seg : Seg} (hits : batch.map (fun req => req.picHitSegments.map Prod.fst) = [[seg]])
    {req : Req Hash} (member : req ∈ batch) {hit : Seg × Hash} (listed : hit ∈ req.picHitSegments) : hit.1 = seg := by
  have only := mem_map_of_mem member (f := fun req => req.picHitSegments.map Prod.fst)
  rw [hits,mem_singleton] at only
  have first := mem_map_of_mem listed (f := Prod.fst)
  rwa [only,mem_singleton] at first

theorem transition_exact_warmPass : ∃ final, warmPass (plainArgs .transition (-1)) [[1,2],[4],[5,6]] = some final ∧
    ∃ extended, picAllocForExtend (plainArgs .transition (-1)) final.pools final.canRunList = some extended ∧
      (extended.reqs.map fun req => req.picHitSegments.map Prod.fst) = [[(0,2)]] ∧
      ∃ plan, initPicMetadata false 0 extended.reqs = some plan ∧
        Exact headInputs extended.reqs (forwardExtendPicTransition 3 plan headInputs extended.reqs headCache) := by
  obtain ⟨final,passed,extended,executed,distinct,hits⟩ : ∃ final ∈ warmPass (plainArgs .transition (-1)) [[1,2],[4],[5,6]],
      ∃ extended ∈ picAllocForExtend (plainArgs .transition (-1)) final.pools final.canRunList,
        final.pools.ledger.2.Nodup ∧ (extended.reqs.map fun req => req.picHitSegments.map Prod.fst) = [[(0,2)]] := by decide +kernel
  refine ⟨final,passed,extended,executed,hits,?_⟩
  have filled : ∀ req ∈ extended.reqs, HitsHold headInputs (Holds headCache) req := by
    intro req member hit listed slot _
    rw [hit_of_map hits member listed]
    exact ⟨rfl,rfl⟩
  refine (transition_exact headInputs 3 final.pools final.canRunList extended rfl rfl
    (warmPass_scheduled _ _ (by decide) passed) distinct executed headCache filled).mpr ?_
  intro req member seg missed plain notLast
  rfl

/-- A short segment before the last one has no state slot, and building the plan fails. -/
theorem short_miss_fails : ∃ final ∈ warmPass (plainArgs .transition 2) [[4],[5,6]],
    ∃ extended ∈ picAllocForExtend (plainArgs .transition 2) final.pools final.canRunList,
      (extended.reqs.map Req.picMissSegments) = [[(0,1),(1,3)]] ∧ initPicMetadata false 0 extended.reqs = none := by decide +kernel
end Runs

end Hypic.Gdn
