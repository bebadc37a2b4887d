import Hypic.Admission
import Hypic.Rows

/-! A request between two prefills: its fill ids grow with decoding, are cut by length validation or are
    replaced by a stub, while its segments stay as they were tokenized. -/

namespace Hypic.Refill
open Policy Cache Request Alloc Release Runs Custody Handover Scheduler Ownership Rows Admission List
universe u
variable {Hash : Type u} [DecidableEq Hash]

/-- A request with the token arrays that `init_next_round_input` reads besides its prompt. -/
structure Intake (Hash : Type u) where
  req : Req Hash
  outputIds : List Token
  fullUntruncatedFillIds : List Token
  extendInputLen : Int
  inputEmbeds : Bool

/-- Where the prompt comes from: a text cut at its separators, plain ids (one segment when there are any),
    or a request that is given no segments at all. -/
inductive Prompt where
  | text (parts : List (List Token))
  | inputIds (ids : List Token)
  | bare (ids : List Token)

def Prompt.ids : Prompt → List Token
  | .text parts => (splitAndTokenize parts).1
  | .inputIds ids | .bare ids => ids

def Prompt.segments : Prompt → List Seg
  | .text parts => (splitAndTokenize parts).2
  | .inputIds ids => if ids = [] then [] else [(0,ids.length)]
  | .bare _ => []

def Intake.create (prompt : Prompt) (scatterSingleSeg : Bool) (maxNewTokens : Nat) (inputEmbeds : Bool) : Intake Hash :=
  ⟨{ Req.create [] scatterSingleSeg maxNewTokens with originInputIds := prompt.ids, picSegments := prompt.segments },
    [],[],0,inputEmbeds⟩

namespace Intake
open List
variable (intake : Intake Hash)

/-- Appends the new output tokens, or rebuilds when the lengths do not fit. -/
def refreshFillIds : List Token :=
  let nHaveOutput : Int := intake.fullUntruncatedFillIds.length - intake.req.originInputIds.length
  if 0 ≤ nHaveOutput ∧ nHaveOutput ≤ intake.outputIds.length then
    intake.fullUntruncatedFillIds ++ intake.outputIds.drop nHaveOutput.toNat
  else intake.req.originInputIds ++ intake.outputIds

def initNextRoundInput (args : ServerArgs Hash) (now : Nat) (cache : PICache Hash) : Intake Hash :=
  let fill := intake.refreshFillIds
  let matched := (Request.initNextRoundInput args now intake.req cache).1
  { intake with
    req := matched
    fullUntruncatedFillIds := fill
    extendInputLen := fill.length - matched.prefixIndices.length }

/-- The prompt becomes one token, to skip the long prefill. -/
def setFinishWithAbort : Intake Hash := { intake with req := { intake.req with originInputIds := [0] } }

/-- A prompt that is too long is cut, or ends the request with an error. -/
def validateInputLength (maxReqInputLen : Nat) (allowAutoTruncate : Bool) : Intake Hash :=
  if maxReqInputLen ≤ intake.req.originInputIds.length then
    if allowAutoTruncate then
      { intake with req := { intake.req with originInputIds := intake.req.originInputIds.take maxReqInputLen } }
    else intake.setFinishWithAbort
  else intake

def decode (token : Token) : Intake Hash := { intake with outputIds := intake.outputIds ++ [token] }

def resetForRetract : Intake Hash :=
  { intake with
    req := { intake.req with prefixIndices := [], mambaPoolIdx := none, kvCommittedLen := 0 }
    extendInputLen := 0
    outputIds := if intake.inputEmbeds then [] else intake.outputIds }

/-- The positions `prepare_for_extend` gathers: those of the misses, or all when matching named none. -/
def forwarded : List Nat :=
  if intake.req.picMissTokenPositions = [] then List.range intake.fullUntruncatedFillIds.length
  else intake.req.picMissTokenPositions

/-- `fill[i] for i in pos`; an index past the end is an error. -/
def gather : Option (List Token) := intake.forwarded.mapM fun pos => intake.fullUntruncatedFillIds[pos]?

end Intake

/-- What can happen to a request before it is matched again. -/
inductive Event (Hash : Type u) [DecidableEq Hash] where
  | validateInputLength (maxReqInputLen : Nat) (allowAutoTruncate : Bool)
  | setFinishWithAbort
  | decode (token : Token)
  | resetForRetract
  | initNextRoundInput (now : Nat) (cache : PICache Hash)

def Intake.apply (args : ServerArgs Hash) (intake : Intake Hash) : Event Hash → Intake Hash
  | .validateInputLength maxReqInputLen allowAutoTruncate => intake.validateInputLength maxReqInputLen allowAutoTruncate
  | .setFinishWithAbort => intake.setFinishWithAbort
  | .decode token => intake.decode token
  | .resetForRetract => intake.resetForRetract
  | .initNextRoundInput now cache => intake.initNextRoundInput args now cache

/-- The positions are increasing indices of the fill ids, as many as there are tokens to extend by, so the
    gather gives as many ids. -/
def Fits (intake : Intake Hash) : Prop :=
  (∀ pos ∈ intake.forwarded, pos < intake.fullUntruncatedFillIds.length) ∧ intake.forwarded.Pairwise (· < ·) ∧
    (intake.forwarded.length : Int) = intake.extendInputLen ∧
    intake.extendInputLen = intake.fullUntruncatedFillIds.length - intake.req.prefixIndices.length ∧
    ∃ ids ∈ intake.gather, (ids.length : Int) = intake.extendInputLen

/-- The segments end where the fill ids end, and no segment that reaches past the prompt is found in the cache
    by the tokens that are left of it. -/
def Reconciled (args : ServerArgs Hash) (intake : Intake Hash) (cache : PICache Hash) : Prop :=
  intake.req.picSegments = [] ∨
    (∃ last ∈ intake.req.picSegments.getLast?, last.2 = intake.req.originInputIds.length + intake.outputIds.length) ∧
      ∀ seg ∈ intake.req.picSegments.dropLast, intake.req.originInputIds.length < seg.2 → args.short seg = true ∨
        ∀ entry ∈ cache.entries.get? (intake.req.segmentHash args seg),
          entry.tokenIds ≠ segmentIds intake.req.originInputIds seg

instance (intake : Intake Hash) : Decidable (Fits intake) := inferInstanceAs (Decidable (_ ∧ _ ∧ _ ∧ _ ∧ _))

section Counting
variable (args : ServerArgs Hash)

abbrev Lookups (Hash : Type u) := List (Seg × Option (SegmentEntry Hash))

def misses (items : Lookups Hash) : List Seg := items.filterMap fun item => if item.2 = none then some item.1 else none

/-- Tokens a prompt's segments account for: a miss is forwarded whole, of a hit the seam is forwarded and
    the rest of the entry's slots is reused. -/
def covered : Nat → Lookups Hash → Nat
  | _, [] => 0
  | index, (seg,none)::rest => seg.2 - seg.1 + covered (index + 1) rest
  | index, (seg,some entry)::rest =>
    seamWidth args index seg + (entry.fullKvSlots.length - seamWidth args index seg) + covered (index + 1) rest

def seamTokens (seams : Dict Seg (List Nat)) : Nat := seams.total fun item => item.2.length

theorem collectHits_covered (index : Nat) (items : Lookups Hash) (slots : List Slot) (seams : Dict Seg (List Nat))
    (distinct : (items.map Prod.fst).Nodup) (fresh : ∀ item ∈ items, seams.get? item.1 = none) :
    (collectHits args index items slots seams).1.length + seamTokens (collectHits args index items slots seams).2 +
      tokens (misses items) = slots.length + seamTokens seams + covered args index items := by
  induction items generalizing index slots seams with
  | nil => simp [collectHits,misses,tokens,covered]
  | cons item rest ih =>
    obtain ⟨seg,found⟩ := item
    rw [map_cons,nodup_cons] at distinct
    have later : ∀ item ∈ rest, seams.get? item.1 = none := (forall_mem_cons.mp fresh).2
    cases found with
    | none =>
      have tail := ih (index + 1) slots seams distinct.2 later
      have counted : tokens (misses ((seg,none)::rest)) = seg.2 - seg.1 + tokens (misses rest) := by
        simp [misses,tokens]
      simp only [collectHits,covered,counted] at tail ⊢
      omega
    | some entry =>
      have skipped : misses ((seg,some entry)::rest) = misses rest := by simp [misses]
      simp only [collectHits,covered,skipped]
      split
      · rename_i positive
        have apart : ∀ item ∈ rest, (seams.set seg (List.range' seg.1 (seamWidth args index seg))).get? item.1 = none := by
          intro item member
          rw [Dict.get?_set,if_neg fun same : item.1 = seg => distinct.1 (mem_map.mpr ⟨item,member,same⟩)]
          exact later item member
        have tail := ih (index + 1) (slots ++ entry.fullKvSlots.drop (seamWidth args index seg)) _ distinct.2 apart
        have grown : seamTokens (seams.set seg (List.range' seg.1 (seamWidth args index seg))) =
            seamWidth args index seg + seamTokens seams := by
          rw [seamTokens,Dict.total_set_absent _ _ (fresh _ mem_cons_self),length_range']
          rfl
        rw [grown,length_append,length_drop] at tail
        omega
      · have tail := ih (index + 1) (slots ++ entry.fullKvSlots) seams distinct.2 later
        rw [length_append] at tail
        omega

theorem seamWidth_lt (index : Nat) {seg : Seg} (positive : seg.1 < seg.2) : seamWidth args index seg < seg.2 - seg.1 := by
  have bound : seamWidth args index seg ≤ seg.2 - seg.1 - 1 := by
    unfold seamWidth
    split
    · exact resolveSeamSinkTokens_le ..
    · exact Nat.zero_le _
  omega

/-- Nothing is counted beyond the segments, and all of them only where every hit has a slot for each token. -/
theorem covered_le (index : Nat) (items : Lookups Hash) (positive : ∀ item ∈ items, item.1.1 < item.1.2)
    (bounded : ∀ seg entry, (seg,some entry) ∈ items → entry.fullKvSlots.length ≤ seg.2 - seg.1) :
    covered args index items ≤ tokens (items.map Prod.fst) ∧
      (covered args index items = tokens (items.map Prod.fst) ↔
        ∀ seg entry, (seg,some entry) ∈ items → entry.fullKvSlots.length = seg.2 - seg.1) := by
  induction items generalizing index with
  | nil => simp [covered,tokens]
  | cons item rest ih =>
    obtain ⟨seg,found⟩ := item
    obtain ⟨le,iff⟩ := ih (index + 1) (forall_mem_cons.mp positive).2
      (fun seg entry member => bounded seg entry (mem_cons_of_mem _ member))
    have total : tokens (((seg,found)::rest).map Prod.fst) = seg.2 - seg.1 + tokens (rest.map Prod.fst) := by
      simp [tokens]
    rw [total]
    cases found with
    | none =>
      simp only [covered]
      refine ⟨by omega,?_⟩
      rw [Nat.add_left_cancel_iff,iff]
      simp
    | some entry =>
      have short := seamWidth_lt args index (positive _ mem_cons_self)
      have here := bounded seg entry mem_cons_self
      simp only [covered] at short ⊢
      refine ⟨by omega,?_⟩
      constructor
      · intro equal other held member
        rcases mem_cons.mp member with same | member
        · cases same
          omega
        · exact iff.mp (by omega) other held member
      · intro full
        have first := full seg entry mem_cons_self
        have last := iff.mpr fun other held member => full other held (mem_cons_of_mem _ member)
        omega

theorem tokens_consecutive {start stop : Nat} {segs : List Seg} (consecutive : Consecutive start segs stop) :
    start + tokens segs = stop := by
  induction segs generalizing start with
  | nil => simpa [tokens,Consecutive] using consecutive
  | cons seg rest ih =>
    obtain ⟨rfl,positive,later⟩ := consecutive
    have tail := ih later
    have total : tokens (seg::rest) = seg.2 - seg.1 + tokens rest := by simp [tokens]
    omega

theorem missTokenPositions_length (miss : List Seg) (seams : Dict Seg (List Nat)) :
    (missTokenPositions miss seams).length = tokens miss + seamTokens seams := by
  have own : (miss.flatMap fun seg => List.range' seg.1 (seg.2 - seg.1)).length = tokens miss := by
    simp [length_flatMap,tokens]
  have seam : seams.values.flatten.length = seamTokens seams := by
    simp [seamTokens,Dict.total,Dict.values,length_flatten,comp_def]
  unfold missTokenPositions
  simp only
  split
  · rename_i nothing
    rw [own,seamTokens,Dict.total,nothing]
    simp
  · rw [length_insertionSort,length_append,own,seam]

/-- Seams lie at the front of segments that are not misses. -/
def SeamsApart (segs miss : List Seg) (seams : Dict Seg (List Nat)) : Prop :=
  ∀ seg positions, seams.get? seg = some positions →
    seg ∈ segs ∧ seg ∉ miss ∧ ∃ width, positions = List.range' seg.1 width ∧ width < seg.2 - seg.1

section Order
variable {segs miss : List Seg} {seams : Dict Seg (List Nat)} {stop : Nat}

theorem SeamsApart.inside (apart : SeamsApart segs miss seams) {seg : Seg} {positions : List Nat}
    (found : seams.get? seg = some positions) {pos : Nat} (member : pos ∈ positions) : seg.1 ≤ pos ∧ pos < seg.2 := by
  obtain ⟨-,-,width,rfl,short⟩ := apart seg positions found
  have := mem_range'_1.mp member
  omega

theorem miss_increasing (consecutive : Consecutive 0 segs stop) (sub : miss.Sublist segs) :
    (miss.flatMap fun seg => List.range' seg.1 (seg.2 - seg.1)).Pairwise (· < ·) := by
  refine pairwise_flatMap.mpr ⟨fun seg _ => pairwise_lt_range',?_⟩
  refine (consecutive.sorted.sublist sub).imp fun before left inLeft right inRight => ?_
  have := mem_range'_1.mp inLeft
  have := mem_range'_1.mp inRight
  omega

theorem seams_nodup (consecutive : Consecutive 0 segs stop) (apart : SeamsApart segs miss seams) :
    seams.values.flatten.Nodup := by
  refine nodup_flatten.mpr ⟨fun positions value => ?_,?_⟩
  · obtain ⟨seg,found⟩ := (Dict.mem_values ..).mp value
    obtain ⟨-,-,width,rfl,-⟩ := apart seg positions found
    exact nodup_range'
  · refine pairwise_map.mpr ?_
    refine (pairwise_map.mp seams.distinct).imp_of_mem fun {left right} leftMember rightMember differs => ?_
    intro pos inLeft inRight
    have leftFound := (Dict.get?_eq_some ..).mpr leftMember
    have rightFound := (Dict.get?_eq_some ..).mpr rightMember
    exact differs (consecutive.unique (apart _ _ leftFound).1 (apart _ _ rightFound).1 (apart.inside leftFound inLeft)
      (apart.inside rightFound inRight))

theorem missTokenPositions_increasing (consecutive : Consecutive 0 segs stop) (sub : miss.Sublist segs)
    (apart : SeamsApart segs miss seams) :
    (missTokenPositions miss seams).Pairwise (· < ·) ∧ ∀ pos ∈ missTokenPositions miss seams, pos < stop := by
  have own := miss_increasing consecutive sub
  constructor
  · unfold missTokenPositions
    simp only
    split
    · exact own
    · have distinct : ((miss.flatMap fun seg => List.range' seg.1 (seg.2 - seg.1)) ++ seams.values.flatten).Nodup := by
        refine nodup_append.mpr ⟨own.imp Nat.ne_of_lt,seams_nodup consecutive apart,?_⟩
        rintro pos inMiss other inSeam rfl
        obtain ⟨seg,missed,inside⟩ := mem_flatMap.mp inMiss
        obtain ⟨positions,value,member⟩ := mem_flatten.mp inSeam
        obtain ⟨hit,found⟩ := (Dict.mem_values ..).mp value
        have bounds := mem_range'_1.mp inside
        have same := consecutive.unique (sub.subset missed) (apart hit positions found).1 ⟨bounds.1,by omega⟩
          (apart.inside found member)
        exact (apart hit positions found).2.1 (same ▸ missed)
      have sorted := pairwise_insertionSort (· ≤ ·)
        ((miss.flatMap fun seg => List.range' seg.1 (seg.2 - seg.1)) ++ seams.values.flatten)
      have unique := (perm_insertionSort (· ≤ ·) _).nodup_iff.mpr distinct
      exact sorted.imp₂ (fun _ _ le ne => Nat.lt_of_le_of_ne le ne) unique
  · intro pos member
    rcases (mem_missTokenPositions miss seams pos).1 member with ⟨seg,missed,-,before⟩ | ⟨seg,positions,found,inside⟩
    · exact Nat.lt_of_lt_of_le before (consecutive.mem_bounds (sub.subset missed)).2.2
    · exact Nat.lt_of_lt_of_le (apart.inside found inside).2 (consecutive.mem_bounds (apart seg positions found).1).2.2
end Order
end Counting

theorem gather_some (fill : List Token) (positions : List Nat) (inside : ∀ pos ∈ positions, pos < fill.length) :
    ∃ ids ∈ positions.mapM (fun pos => fill[pos]?), ids.length = positions.length := by
  induction positions with
  | nil => exact ⟨[],rfl,rfl⟩
  | cons pos rest ih =>
    obtain ⟨ids,gathered,length⟩ := ih (forall_mem_cons.mp inside).2
    obtain ⟨token,here⟩ : ∃ token, fill[pos]? = some token :=
      ⟨_,getElem?_eq_getElem (inside pos mem_cons_self)⟩
    refine ⟨token::ids,?_,by simp [length]⟩
    rw [mapM_cons,here,Option.mem_def.mp gathered]
    rfl

theorem refreshFillIds_length (intake : Intake Hash) :
    intake.refreshFillIds.length = intake.req.originInputIds.length + intake.outputIds.length := by
  unfold Intake.refreshFillIds
  simp only
  split
  · rename_i fits
    rw [length_append,length_drop]
    omega
  · rw [length_append]

theorem Prompt.consecutive (prompt : Prompt) (some : prompt.segments ≠ []) :
    Consecutive 0 prompt.segments prompt.ids.length := by
  cases prompt with
  | text parts => simpa [Prompt.segments,Prompt.ids,splitAndTokenize] using offsets_consecutive parts 0
  | inputIds ids =>
    by_cases nothing : ids = []
    · simp [Prompt.segments,nothing] at some
    · simp [Prompt.segments,Prompt.ids,nothing,Consecutive,length_pos_iff]
  | bare ids => exact absurd rfl some

/-- What no event changes: the segments, and that nothing was ever matched for a request without any. -/
structure Kept (args : ServerArgs Hash) (prompt : Prompt) (intake : Intake Hash) : Prop where
  segments : intake.req.picSegments = prompt.segments
  seams : args.recompute = false → intake.req.picHitSeamPositions = .empty
  unmatched : prompt.segments = [] → intake.req.picMissTokenPositions = []

section Match
variable {args : ServerArgs Hash} {now : Nat} {cache : PICache Hash} {prompt : Prompt} {intake : Intake Hash}

/-- What matching looks up for the segments of the prompt. -/
def lookups (args : ServerArgs Hash) (now : Nat) (req : Req Hash) (cache : PICache Hash) : Lookups Hash :=
  req.picSegments.zip (matchSegments args now req.originInputIds req.picSegments cache).1

variable (args now cache) in
theorem lookups_segs (req : Req Hash) : (lookups args now req cache).map Prod.fst = req.picSegments :=
  map_fst_zip (Nat.le_of_eq (matchSegments_looked ..).length_eq)

variable (args now cache) in
theorem initNextRoundInput_bare {req : Req Hash} (nothing : req.picSegments = []) :
    (Request.initNextRoundInput args now req cache).1 =
      { req with prefixIndices := [], extendInputLen := req.originInputIds.length } := by
  simp [Request.initNextRoundInput,matchPrefix,nothing]

variable (now cache) in
theorem initNextRoundInput_lookups {req : Req Hash} (several : req.picSegments ≠ []) {stop : Nat}
    (consecutive : Consecutive 0 req.picSegments stop) (seams : args.recompute = false → req.picHitSeamPositions = .empty) :
    let hits := collectHits args 0 (lookups args now req cache) [] .empty
    let after := (Request.initNextRoundInput args now req cache).1
    after.prefixIndices = hits.1 ∧ after.picHitSeamPositions = hits.2 ∧
      after.picMissTokenPositions = missTokenPositions (misses (lookups args now req cache)) hits.2 ∧
      after.picMissTokenPositions ≠ [] := by
  have fresh : (if args.recompute then .empty else req.picHitSeamPositions : Dict Seg (List Nat)) = .empty := by
    by_cases recompute : args.recompute = true
    · simp [recompute]
    · simp [recompute,seams (by simpa using recompute)]
  obtain ⟨last,isLast⟩ := getLast?_isSome.mpr several |> isSome_iff_exists.mp
  have missed : last ∈ misses (lookups args now req cache) :=
    mem_filterMap.mpr ⟨(last,none),matchSegments_last args now req.originInputIds req.picSegments cache isLast,rfl⟩
  have positive := (consecutive.mem_bounds (mem_of_getLast? isLast)).2.1
  have first := (mem_missTokenPositions (misses (lookups args now req cache))
    (collectHits args 0 (lookups args now req cache) [] .empty).2 last.1).2 ⟨last,missed,Nat.le_refl _,positive⟩
  have named := ne_nil_of_mem first
  simp only [Request.initNextRoundInput,matchPrefix,several,if_false,fresh]
  exact ⟨rfl,rfl,if_neg named,fun nothing => named ((if_neg named).symm.trans nothing)⟩

theorem lookups_apart {req : Req Hash} {stop : Nat} (consecutive : Consecutive 0 req.picSegments stop) :
    SeamsApart req.picSegments (misses (lookups args now req cache))
      (collectHits args 0 (lookups args now req cache) [] .empty).2 := by
  have seams := collectHits_seams args (lookups args now req cache) 0 [] .empty (fun seg positions found => by simp at found)
  rw [drop_zero] at seams
  intro seg positions found
  obtain ⟨place,entry,listed,-,rfl,-⟩ := seams seg positions found
  have member := mem_of_getElem? listed
  have inside : seg ∈ req.picSegments := lookups_segs args _ _ req ▸ mem_map_of_mem member
  refine ⟨inside,?_,_,rfl,seamWidth_lt args place (consecutive.mem_bounds inside).2.1⟩
  intro missed
  obtain ⟨⟨other,found⟩,there,same⟩ := mem_filterMap.mp missed
  obtain ⟨rfl,same⟩ := ite_none_right_eq_some.mp same
  have distinct : ((lookups args now req cache).map Prod.fst).Nodup := by
    rw [lookups_segs]; exact consecutive.nodup
  have equal := inj_on_of_nodup_map distinct there member (by simpa using same)
  simp at equal

theorem lookups_slots (sized : Sized cache) {req : Req Hash} {seg : Seg} {entry : SegmentEntry Hash}
    (member : (seg,some entry) ∈ lookups args now req cache) :
    entry.fullKvSlots.length = min (seg.2 - seg.1) (req.originInputIds.length - seg.1) := by
  obtain ⟨present,tokens,-⟩ := forall₂_zip (matchSegments_looked args now req.originInputIds req.picSegments cache) member entry rfl
  rw [sized _ _ present,tokens,segmentIds,length_take,length_drop]

/-- The entry matching finds for a segment that is looked up. -/
def lookup (args : ServerArgs Hash) (ids : List Token) (entries : Dict Hash (SegmentEntry Hash)) (seg : Seg) :
    Option (SegmentEntry Hash) :=
  if args.short seg then none
  else (entries.get? (args.segmentHash (segmentIds ids seg))).filter fun entry => entry.tokenIds = segmentIds ids seg

variable (now cache) in
theorem matchSegment_lookup (ids : List Token) {seg : Seg} (long : ¬ args.short seg = true) :
    (cache.matchSegment now (args.segmentHash (segmentIds ids seg)) (segmentIds ids seg)).1 = lookup args ids cache.entries seg := by
  unfold PICache.matchSegment lookup
  rw [if_neg long]
  cases cache.entries.get? (args.segmentHash (segmentIds ids seg)) with
  | none => rfl
  | some entry =>
    by_cases same : entry.tokenIds = segmentIds ids seg
    · simp [same,Option.filter_some]
    · simp [same,Option.filter_some]

theorem matchSegments_lookup (ids : List Token) (segs : List Seg) (several : segs ≠ []) :
    (matchSegments args now ids segs cache).1 = segs.dropLast.map (lookup args ids cache.entries) ++ [none] := by
  fun_induction matchSegments args now ids segs cache with
  | case1 cache => exact absurd rfl several
  | case2 cache seg => rfl
  | case3 seg next rest cache short found after heq ih =>
    rw [heq] at ih
    have later : found = _ := ih (cons_ne_nil _ _)
    rw [dropLast_cons_cons,map_cons,cons_append,← later,lookup,if_pos short]
  | case4 seg next rest cache long entry after heq found last heqLast ih =>
    have entries := (cache.matchSegment_frame now (args.segmentHash (segmentIds ids seg)) (segmentIds ids seg)).1
    have here := matchSegment_lookup now cache ids long
    rw [heq] at entries here
    rw [heqLast] at ih
    have later : found = _ := ih (cons_ne_nil _ _)
    rw [show after.entries = _ from entries] at later
    rw [dropLast_cons_cons,map_cons,cons_append,← later,← here]

theorem mem_lookups {req : Req Hash} (several : req.picSegments ≠ []) {seg : Seg} {entry : SegmentEntry Hash} :
    (seg,some entry) ∈ lookups args now req cache ↔
      seg ∈ req.picSegments.dropLast ∧ lookup args req.originInputIds cache.entries seg = some entry := by
  unfold lookups
  rw [matchSegments_lookup _ _ several]
  nth_rewrite 1 [← dropLast_append_getLast several]
  have paired (f : Seg → Option (SegmentEntry Hash)) (segs : List Seg) :
      segs.zip (segs.map f) = segs.map fun seg => (seg,f seg) := by
    induction segs with
    | nil => rfl
    | cons seg rest ih => simp [ih]
  rw [zip_append (by simp),mem_append,paired,mem_map]
  constructor
  · rintro (⟨other,inside,same⟩ | last)
    · obtain ⟨rfl,found⟩ := Prod.mk.injEq .. ▸ same
      exact ⟨inside,found⟩
    · simp at last
  · rintro ⟨inside,found⟩
    exact .inl ⟨seg,inside,by rw [found]⟩

theorem lookups_cut {req : Req Hash} (several : req.picSegments ≠ []) (cut : Seg → Prop) :
    (∀ seg entry, (seg,some entry) ∈ lookups args now req cache → ¬ cut seg) ↔
      ∀ seg ∈ req.picSegments.dropLast, cut seg → args.short seg = true ∨
        ∀ entry ∈ cache.entries.get? (req.segmentHash args seg), entry.tokenIds ≠ segmentIds req.originInputIds seg := by
  constructor
  · intro clear seg inside cuts
    by_cases short : args.short seg = true
    · exact .inl short
    · refine .inr fun entry found same => clear seg entry ((mem_lookups several).mpr ⟨inside,?_⟩) cuts
      rw [lookup,if_neg short]
      exact Option.filter_eq_some_iff.mpr ⟨found,by simpa using same⟩
  · intro clear seg entry member cuts
    obtain ⟨inside,found⟩ := (mem_lookups several).mp member
    obtain ⟨long,found⟩ := Option.ite_none_left_eq_some.mp found
    obtain ⟨present,same⟩ := Option.filter_eq_some_iff.mp found
    rcases clear seg inside cuts with short | other
    · exact long short
    · exact other entry present (by simpa using same)

variable (args now) in
/-- Reused and forwarded tokens together: at most the segments, and all of them only where no hit is cut. -/
theorem lookups_total (sized : Sized cache) {req : Req Hash} {stop : Nat} (consecutive : Consecutive 0 req.picSegments stop) :
    let hits := collectHits args 0 (lookups args now req cache) [] .empty
    let forwarded := missTokenPositions (misses (lookups args now req cache)) hits.2
    hits.1.length + forwarded.length ≤ stop ∧
      (hits.1.length + forwarded.length = stop ↔
        ∀ seg entry, (seg,some entry) ∈ lookups args now req cache → ¬ req.originInputIds.length < seg.2) := by
  have inside {item : Seg × Option (SegmentEntry Hash)} (member : item ∈ lookups args now req cache) :
      item.1.1 < item.1.2 := (consecutive.mem_bounds (lookups_segs args _ _ req ▸ mem_map_of_mem member)).2.1
  have counted := collectHits_covered args 0 (lookups args now req cache) [] .empty
    (by rw [lookups_segs]; exact consecutive.nodup) (by simp)
  have bound := covered_le args 0 (lookups args now req cache) (fun item member => inside member) (fun seg entry member => by
    rw [lookups_slots sized member]
    exact Nat.min_le_left ..)
  have whole := tokens_consecutive consecutive
  have full (seg : Seg) (entry : SegmentEntry Hash) (member : (seg,some entry) ∈ lookups args now req cache) :
      entry.fullKvSlots.length = seg.2 - seg.1 ↔ ¬ req.originInputIds.length < seg.2 := by
    have positive : seg.1 < seg.2 := inside member
    rw [lookups_slots sized member]
    omega
  rw [lookups_segs] at bound
  simp only [missTokenPositions_length]
  have none : seamTokens Dict.empty = 0 := rfl
  rw [none,length_nil] at counted
  refine ⟨by omega,?_⟩
  rw [← forall₂_congr fun seg entry => forall_congr' fun member => full seg entry member,← bound.2]
  omega

theorem fits_segments (kept : Kept args prompt intake) (sized : Sized cache) (several : intake.req.picSegments ≠ []) :
    Fits (intake.initNextRoundInput args now cache) ↔ Reconciled args intake cache := by
  have total := refreshFillIds_length intake
  have consecutive := kept.segments ▸ prompt.consecutive (kept.segments ▸ several)
  obtain ⟨reused,-,named,some⟩ := initNextRoundInput_lookups now cache several consecutive kept.seams
  obtain ⟨bound,whole⟩ := lookups_total args now sized consecutive
  have sub : (misses (lookups args now intake.req cache)).Sublist intake.req.picSegments :=
    lookups_segs args _ _ intake.req ▸ misses_sublist (lookups args now intake.req cache)
  obtain ⟨increasing,inside⟩ := missTokenPositions_increasing consecutive sub (lookups_apart consecutive)
  obtain ⟨last,isLast⟩ := isSome_iff_exists.mp (getLast?_isSome.mpr several)
  have missed : last ∈ misses (lookups args now intake.req cache) :=
    mem_filterMap.mpr ⟨(last,none),matchSegments_last args now intake.req.originInputIds _ cache isLast,rfl⟩
  have positive := (consecutive.mem_bounds (mem_of_getLast? isLast)).2.1
  have ends : last.2 = prompt.ids.length := consecutive.last isLast
  have final := (mem_missTokenPositions _ (collectHits args 0 (lookups args now intake.req cache) [] .empty).2 (last.2 - 1)).2
    ⟨last,missed,by omega,by omega⟩
  rw [← named] at bound whole increasing inside final
  rw [← reused] at bound whole
  have forwarded : (intake.initNextRoundInput args now cache).forwarded =
      (Request.initNextRoundInput args now intake.req cache).1.picMissTokenPositions := if_neg some
  have length : (intake.initNextRoundInput args now cache).extendInputLen = (intake.refreshFillIds.length : Int) -
      (Request.initNextRoundInput args now intake.req cache).1.prefixIndices.length := rfl
  constructor
  · rintro ⟨valid,-,counted,-,-⟩
    rw [forwarded] at valid counted
    have reach : last.2 - 1 < intake.refreshFillIds.length := valid _ final
    rw [length] at counted
    refine .inr ⟨⟨last,isLast,by omega⟩,(lookups_cut several _).mp (whole.mp (by omega))⟩
  · rintro (nothing | ⟨⟨other,isOther,fits⟩,clear⟩)
    · exact absurd nothing several
    · obtain rfl : last = other := Option.some.inj (isLast.symm.trans isOther)
      have all := whole.mpr ((lookups_cut several _).mpr clear)
      have valid : ∀ pos ∈ (Request.initNextRoundInput args now intake.req cache).1.picMissTokenPositions,
          pos < intake.refreshFillIds.length := fun pos member => by have := inside pos member; omega
      obtain ⟨ids,gathered,same⟩ := gather_some intake.refreshFillIds _ valid
      unfold Fits Intake.gather
      rw [forwarded,length]
      exact ⟨valid,increasing,by omega,rfl,ids,gathered,by omega⟩

theorem fits_iff (kept : Kept args prompt intake) (sized : Sized cache) :
    Fits (intake.initNextRoundInput args now cache) ↔ Reconciled args intake cache := by
  have total := refreshFillIds_length intake
  by_cases nothing : intake.req.picSegments = []
  · have bare := initNextRoundInput_bare args now cache nothing
    have unmatched := kept.unmatched (kept.segments ▸ nothing)
    have whole : (intake.initNextRoundInput args now cache).forwarded = List.range intake.refreshFillIds.length := by
      simp [Intake.forwarded,Intake.initNextRoundInput,bare,unmatched]
    have length : (intake.initNextRoundInput args now cache).extendInputLen = intake.refreshFillIds.length := by
      simp [Intake.initNextRoundInput,bare]
    refine iff_of_true ?_ (.inl nothing)
    unfold Fits Intake.gather
    rw [whole,length]
    obtain ⟨ids,gathered,same⟩ := gather_some intake.refreshFillIds (List.range intake.refreshFillIds.length) (by simp)
    refine ⟨by simp [Intake.initNextRoundInput],pairwise_lt_range,by simp,?_,ids,gathered,by simp [same]⟩
    simp [Intake.initNextRoundInput,bare]
  · exact fits_segments kept sized nothing

end Match

section History
variable {args : ServerArgs Hash} {prompt : Prompt}

theorem create_kept (scatterSingleSeg : Bool) (maxNewTokens : Nat) (inputEmbeds : Bool) :
    Kept args prompt (Intake.create prompt scatterSingleSeg maxNewTokens inputEmbeds) :=
  ⟨rfl,fun _ => rfl,fun _ => rfl⟩

theorem apply_kept {intake : Intake Hash} (kept : Kept args prompt intake) (event : Event Hash) :
    Kept args prompt (intake.apply args event) := by
  cases event with
  | validateInputLength maxReqInputLen allowAutoTruncate =>
    simp only [Intake.apply,Intake.validateInputLength]
    split
    · split
      · exact ⟨kept.segments,kept.seams,kept.unmatched⟩
      · exact ⟨kept.segments,kept.seams,kept.unmatched⟩
    · exact kept
  | setFinishWithAbort => exact ⟨kept.segments,kept.seams,kept.unmatched⟩
  | decode token => exact ⟨kept.segments,kept.seams,kept.unmatched⟩
  | resetForRetract => exact ⟨kept.segments,kept.seams,kept.unmatched⟩
  | initNextRoundInput now cache =>
    by_cases nothing : intake.req.picSegments = []
    · have bare := initNextRoundInput_bare args now cache nothing
      refine ⟨?_,?_,?_⟩
      · simpa [Intake.apply,Intake.initNextRoundInput,bare] using kept.segments
      · simpa [Intake.apply,Intake.initNextRoundInput,bare] using kept.seams
      · simpa [Intake.apply,Intake.initNextRoundInput,bare] using kept.unmatched
    · refine ⟨?_,fun plain => ?_,fun none => absurd (kept.segments.trans none) nothing⟩
      · simpa [Intake.apply,Intake.initNextRoundInput,Request.initNextRoundInput,matchPrefix,nothing] using kept.segments
      · simp only [Intake.apply,Intake.initNextRoundInput,Request.initNextRoundInput,matchPrefix,nothing,if_false,plain,
          false_eq_true]
        exact (collectHits_plain args plain ..).trans (kept.seams plain)

theorem history_kept {intake : Intake Hash} (kept : Kept args prompt intake) (history : List (Event Hash)) :
    Kept args prompt (history.foldl (Intake.apply args) intake) := by
  induction history generalizing intake with
  | nil => exact kept
  | cons event rest ih => exact ih (apply_kept kept event)
end History

/-- The slots of a miss are as many as its tokens. -/
def SlotsSized (req : Req Hash) : Prop :=
  ∀ seg miss, req.picMissSegmentSlots.get? seg = some miss →
    miss.kv.length = (segmentIds req.originInputIds seg).length ∧
      ∀ slots, miss.pub = some slots → slots.length = (segmentIds req.originInputIds seg).length

/-- Entries and misses have one KV slot for each token. -/
structure Measured (args : ServerArgs Hash) (engine : Engine Hash) : Prop where
  ok : JobsOk args engine
  sized : Sized engine.pools.cache
  slots : ∀ rid job, engine.jobs.get? rid = some job → SlotsSized job.req

section Run
variable {args : ServerArgs Hash} {engine next : Engine Hash} {rid : Nat}

theorem slotsSized_unallocated {req : Req Hash} (fresh : Unallocated req) : SlotsSized req := by
  intro seg miss found
  simp [fresh.misses] at found

theorem slotsSized_prefilled {before after : Req Hash} (matched : Matched args before) (prefilled : Prefilled args before after) :
    SlotsSized after := by
  obtain ⟨assigned,⟨row,slot,rfl⟩,allocated⟩ := prefilled
  intro seg miss found
  have missed := (allocated.misses seg).mpr (isSome_iff_exists.mpr ⟨miss,found⟩)
  have ids : after.originInputIds = before.originInputIds := (congrArg Req.originInputIds allocated.frame).trans rfl
  have bound := (matched.consecutive.mem_bounds (matched.misses.subset missed)).2.2
  have ready := allocated.ready seg miss found
  rw [ids,segmentIds_length _ _ bound]
  exact ⟨ready.row.1,ready.pubLength⟩

theorem cacheUnfinishedReq_sized {now : Nat} {req after : Req Hash} {pools final : Pools Hash} (sized : Sized pools.cache)
    (slots : SlotsSized req) (executed : cacheUnfinishedReq args now req pools = some (after,final)) : Sized final.cache := by
  obtain ⟨state,looped,same⟩ := map_eq_some_iff.mp executed
  obtain ⟨rfl,rfl⟩ := Prod.mk.injEq .. ▸ same
  have begun : CachedOnly req { req with picCacheOwnedMissSegments := [], picFreedMissSegments := [] } := rfl
  have loop : CachedOnly req state.req ∧ Sized state.pools.cache :=
    Runs.foldlM_keeps (fun state _ => CachedOnly req state.req ∧ Sized state.pools.cache) ?_ ⟨begun,sized⟩ looped
  · split
    · exact loop.2
    · exact loop.2
  · rintro state seg rest next ⟨frame,sized⟩ stepped
    cases cacheMiss_step stepped with
    | skip skipped => exact ⟨frame,sized⟩
    | adopt files present tokens entries created locks ledger => exact ⟨frame.trans files.frame,sized_congr entries sized⟩
    | @insert _ miss kvSlots mambaSlot fresh files unmatched made entries created locks ledger =>
      refine ⟨frame.trans files.frame,fun key entry held => ?_⟩
      rw [entries,Dict.get?_set] at held
      split at held
      · rw [← Option.some.inj held,made]
        have given := slots seg miss (frame.slots ▸ files.found)
        have kv := files.kv
        rw [← frame.ids] at given
        by_cases rope : args.rope = true
        · exact given.2 kvSlots (by simpa [rope] using kv)
        · obtain rfl : miss.kv = kvSlots := by simpa [rope] using kv
          exact given.1
      · exact sized key entry held

theorem step_measured (measured : Measured args engine) {action : Action} (stepped : step args engine action = some next) :
    Measured args next := by
  have ok := step_ok measured.ok stepped
  cases step_stepped measured.ok stepped with
  | arrive absent created =>
    exact ⟨ok,measured.sized,putJob_all measured.slots _ _ (slotsSized_unallocated created.2.2.1)⟩
  | @matchPrefix rid now job found stage consecutive nonempty fresh ordinary =>
    obtain ⟨entries,-,-⟩ := initNextRoundInput_frame args now job.req engine.pools.cache
    exact ⟨ok,sized_congr entries measured.sized,putJob_all measured.slots _ _
      (slotsSized_unallocated (initNextRoundInput_unallocated args now engine.pools.cache fresh))⟩
  | incLockRef job here found stage known =>
    exact ⟨ok,sized_congr (incLockRef_frame ..).1 measured.sized,putJob_all measured.slots _ _ (slotsSized_unallocated known.2.2.1)⟩
  | allocForExtend jobs extended batch distinct found admitted allocated ready prefilled =>
    obtain ⟨-,evicts,-⟩ := picAllocForExtend_spec ready allocated
    refine ⟨ok,sized_evicts evicts measured.sized,putBatch_all measured.slots _ _ fun job member => ?_⟩
    obtain ⟨after,inside,rfl⟩ := mem_map.mp member
    obtain ⟨req,listed,related⟩ := exists_left prefilled inside
    have slots := slotsSized_prefilled (ready req listed).1 related
    exact slots
  | cacheUnfinished job after pools here found stage running unsettled executed =>
    have slots := measured.slots _ job found
    have frame := (cacheUnfinishedReq_ledger running.plainPub running.distinct executed).1.frame
    refine ⟨ok,cacheUnfinishedReq_sized measured.sized slots executed,putJob_all measured.slots _ _ fun seg miss there => ?_⟩
    rw [frame.ids]
    exact slots seg miss (frame.slots ▸ there)
  | allocForDecode jobs slots pools distinct found running lengths allocated =>
    obtain ⟨-,evicts,-⟩ := Pools.allocTokenSlots_spec allocated
    refine ⟨ok,sized_evicts evicts measured.sized,putBatch_all measured.slots _ _ fun job member => ?_⟩
    obtain ⟨⟨before,slot⟩,inside,rfl⟩ := mem_map.mp member
    obtain ⟨owner,-,there⟩ := exists_left found (of_mem_zip inside).1
    exact measured.slots owner before there
  | finish job mid final midPools freed here found stage running cached ended =>
    refine ⟨ok,sized_congr ended.entries ?_,eraseJob_all measured.slots _⟩
    unfold CachedAtEnd at cached
    split at cached
    · exact cacheUnfinishedReq_sized measured.sized (measured.slots _ job found) cached
    · exact cached.2 ▸ measured.sized
  | evict => exact ⟨ok,sized_evicts (engine.pools.evict_evicts _ _).1 measured.sized,measured.slots⟩

theorem run_sized {kvSize mambaSize reqSize : Nat} {needSort : Bool} {actions : List Action}
    (executed : run (step args) (.start kvSize mambaSize reqSize needSort) actions = some engine) : Sized engine.pools.cache := by
  have start : Measured args (Engine.start kvSize mambaSize reqSize needSort) :=
    ⟨start_ok args kvSize mambaSize reqSize needSort,fun key entry found => by simp [Engine.start,Pools.clear,PICache.empty] at found,
      fun rid job present => by simp [Engine.start] at present⟩
  exact (run_always (Measured args) (fun _ _ _ measured stepped => step_measured measured stepped) start executed).sized
end Run

/-- After any history, and against any cache the engine can reach, the positions fit the fill ids exactly when
    the segments still end where the fill ids end and nothing cut is found in the cache. -/
theorem positions_fit_iff (args : ServerArgs Hash) (kvSize mambaSize reqSize : Nat) (needSort : Bool) (actions : List Action)
    (engine : Engine Hash) (executed : run (step args) (.start kvSize mambaSize reqSize needSort) actions = some engine)
    (prompt : Prompt) (scatterSingleSeg : Bool) (maxNewTokens : Nat) (inputEmbeds : Bool) (history : List (Event Hash))
    (now : Nat) :
    let intake := history.foldl (Intake.apply args) (.create prompt scatterSingleSeg maxNewTokens inputEmbeds)
    Fits (intake.initNextRoundInput args now engine.pools.cache) ↔ Reconciled args intake engine.pools.cache :=
  fits_iff (history_kept (create_kept scatterSingleSeg maxNewTokens inputEmbeds) history) (run_sized executed)

/-- A prompt whose first segment another request has cached. -/
theorem positions_fit_iff_warm :
    ∃ engine ∈ run (step (plainArgs .transition (-1))) (.start 8 8 4 false)
      [.arrive 0 [[1],[2]] 1,.matchPrefix 0 1,.incLockRef 0,.allocForExtend [0],.cacheUnfinished 0 2],
      Fits ((Intake.create (.text [[1],[3,4]]) false 1 false).initNextRoundInput (plainArgs .transition (-1)) 3 engine.pools.cache) := by
  obtain ⟨engine,executed⟩ : ∃ engine, run (step (plainArgs .transition (-1))) (.start 8 8 4 false)
      [.arrive 0 [[1],[2]] 1,.matchPrefix 0 1,.incLockRef 0,.allocForExtend [0],.cacheUnfinished 0 2] = some engine :=
    isSome_iff_exists.mp (by decide +kernel)
  refine ⟨engine,executed,(positions_fit_iff (plainArgs .transition (-1)) 8 8 4 false _ engine executed (.text [[1],[3,4]])
    false 1 false [] 3).mpr (Or.inr ⟨⟨(1,3),rfl,rfl⟩,?_⟩)⟩
  -- the only segment before the last ends inside the prompt
  intro seg member cut
  obtain rfl : seg = (0,1) := by
    simpa [Intake.create,Prompt.segments,splitAndTokenize,offsets] using member
  simp [Intake.create,Prompt.ids,splitAndTokenize] at cut

/-- A request that ends with an error on arrival still has all its segments. -/
theorem abort_stub_misfits :
    ¬ Fits ((Intake.create (.text [[1,2],[3]]) false 1 false).setFinishWithAbort.initNextRoundInput
      (plainArgs .transition (-1)) 0 .empty) := by decide +kernel

end Hypic.Refill
