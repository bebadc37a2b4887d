import Hypic.Policy
import Hypic.Split

/-! The router's scatter step against the engine's segmenter. The router drops parts that are blank
    text, the engine drops parts without tokens, and a position in the one list names a segment of the other. -/

namespace Hypic.Router
open Policy List
universe u

abbrev Text := List Char
abbrev Url := Text
abbrev Room := Nat

def defaultPicSeparator : Text := "<<PIC_SEP>>".toList

/-- `char::is_whitespace`: Unicode's White_Space. -/
def isWhitespace (c : Char) : Bool :=
  let n := c.toNat
  (9 ≤ n ∧ n ≤ 13) ∨ n ∈ [0x20,0x85,0xA0,0x1680,0x2028,0x2029,0x202F,0x205F,0x3000] ∨ (0x2000 ≤ n ∧ n ≤ 0x200A)

/-- `s.trim().is_empty()` -/
def blank (text : Text) : Bool := text.all isWhitespace

def splitSegments (prompt sep : Text) : List Text := Split.split sep prompt

/-- A scatter sub-request: one segment's text, sent to one worker. -/
structure SubRequest where
  workerAddr : Url
  text : Text
  combineAddr : Url
  scatterRoom : Room
  segIndex : Nat
  deriving DecidableEq

/-- One row of the table the combine request carries. -/
structure CombineItem where
  segIndex : Nat
  workerAddr : Url
  room : Room
  deriving DecidableEq

/-- What the step reads besides the prompt. -/
structure Route where
  combineAddr : Url
  prefillWorkers : List Url
  assignWithDirectory : List Text → List Url
  generateRoomId : Nat → Room

inductive Dispatch where
  | fallThrough
  | noWorkers
  | scattered (subs : List SubRequest) (picCombine : List CombineItem)
  deriving DecidableEq

/-- The worker of a segment; an address that has left the registry falls back to the first worker. -/
def Route.worker (route : Route) (assigned : List Url) (segIndex : Nat) : Url :=
  let addr := assigned.getD segIndex []
  if addr ∈ route.prefillWorkers then addr else route.prefillWorkers.headD []

/-- The segments the router sees, its last one being the query. -/
def routedSegments (text : Text) : List Text := (splitSegments text defaultPicSeparator).filter fun part => !blank part

def scatterPrefill (route : Route) (text : Text) : Dispatch :=
  if ¬ defaultPicSeparator <:+: text then .fallThrough
  else
    let segments := routedSegments text
    if segments.length < 2 then .fallThrough
    else if route.prefillWorkers = [] then .noWorkers
    else
      let scatterSegs := segments.dropLast
      let assigned := route.assignWithDirectory scatterSegs
      .scattered
        (scatterSegs.zipIdx.map fun (segText,segIndex) =>
          ⟨route.worker assigned segIndex,segText,route.combineAddr,route.generateRoomId segIndex,segIndex⟩)
        (scatterSegs.zipIdx.map fun (_,segIndex) =>
          ⟨segIndex,route.worker assigned segIndex,route.generateRoomId segIndex⟩)

/-- `tokenizer.encode(_, add_special_tokens=False)` -/
structure Tokenizer where
  encode : Text → List Token
  encode_empty : encode [] = []

/-- `origin_input_ids` and `pic_segments` of a request with this text. -/
def tokenizeText (tokenizer : Tokenizer) (text : Text) : List Token × List Seg :=
  splitAndTokenize ((splitSegments text defaultPicSeparator).map tokenizer.encode)

/-- The hashes a combine request waits for: all segments but the last. -/
def gatedHashes {Hash : Type u} (args : ServerArgs Hash) (ids : List Token) (picSegments : List Seg) : List Hash :=
  if 2 ≤ picSegments.length then picSegments.dropLast.map fun seg => args.segmentHash (segmentIds ids seg) else []

/-- A destination as `prealloc_and_push_handles` files it. -/
structure Destination (Hash : Type u) where
  room : Room
  segIndex : Nat
  segHash : Hash
  tokenIds : List Token

/-- One destination per remote row of the table; a position past the segments is an error that is logged and skipped. -/
def destinations {Hash : Type u} (args : ServerArgs Hash) (isLocal : Url → Bool) (ids : List Token) (picSegments : List Seg)
    (picCombine : List CombineItem) : List (Destination Hash) :=
  picCombine.filterMap fun item =>
    if isLocal item.workerAddr then none
    else picSegments[item.segIndex]?.map fun seg =>
      ⟨item.room,item.segIndex,args.segmentHash (segmentIds ids seg),segmentIds ids seg⟩

section Agreement
variable {Hash : Type u} (args : ServerArgs Hash) (tokenizer : Tokenizer)

/-- What the worker of a sub-request tokenizes. -/
def workerIds (sub : SubRequest) : List Token := (tokenizeText tokenizer sub.text).1

/-- Each sub-request carries the segment its position names, the gate is on the scattered segments, and
    every destination is filed under the hash of what its sub-request will write to it. -/
def SubsNamed (isLocal : Url → Bool) (text : Text) (subs : List SubRequest) (picCombine : List CombineItem) : Prop :=
  let (ids,picSegments) := tokenizeText tokenizer text
  (∀ sub ∈ subs, ∃ seg ∈ picSegments[sub.segIndex]?, workerIds tokenizer sub = segmentIds ids seg) ∧
    gatedHashes args ids picSegments = subs.map (fun sub => args.segmentHash (workerIds tokenizer sub)) ∧
    ∀ dst ∈ destinations args isLocal ids picSegments picCombine, ∀ sub ∈ subs,
      dst.room = sub.scatterRoom ∧ dst.segIndex = sub.segIndex → dst.segHash = args.segmentHash (workerIds tokenizer sub)

def Corresponds (route : Route) (isLocal : Url → Bool) (text : Text) : Prop :=
  match scatterPrefill route text with
  | .scattered subs picCombine => SubsNamed args tokenizer isLocal text subs picCombine
  | .fallThrough | .noWorkers => True

instance [DecidableEq Hash] (isLocal : Url → Bool) (text : Text) (subs : List SubRequest) (picCombine : List CombineItem) :
    Decidable (SubsNamed args tokenizer isLocal text subs picCombine) := inferInstanceAs (Decidable (_ ∧ _ ∧ _))
instance [DecidableEq Hash] (route : Route) (isLocal : Url → Bool) (text : Text) :
    Decidable (Corresponds args tokenizer route isLocal text) :=
  match dispatched : scatterPrefill route text with
  | .scattered subs picCombine =>
    decidable_of_iff (SubsNamed args tokenizer isLocal text subs picCombine) (by simp [Corresponds,dispatched])
  | .fallThrough | .noWorkers => isTrue (by simp [Corresponds,dispatched])

/-- The router takes this prompt apart. -/
def Scatters (route : Route) (text : Text) : Prop :=
  defaultPicSeparator <:+: text ∧ 2 ≤ (routedSegments text).length ∧ route.prefillWorkers ≠ []

/-- The tokens of the parts that are not blank and the token lists that are not empty differ in the last one at most. -/
def CutsAgree (text : Text) : Prop :=
  ∃ front query lastTokens, (routedSegments text).map tokenizer.encode = front ++ [query] ∧
    ((splitSegments text defaultPicSeparator).map tokenizer.encode).filter (fun tokens => tokens ≠ []) = front ++ [lastTokens]

theorem offsets_segmentIds (parts : List (List Token)) (front : List Token) :
    (offsets front.length parts).map (segmentIds (front ++ parts.flatten)) = parts.filter fun tokens => tokens ≠ [] := by
  induction parts generalizing front with
  | nil => rfl
  | cons part rest ih =>
    by_cases nothing : part = []
    · subst nothing
      simpa [offsets] using ih front
    · have later := ih (front ++ part)
      rw [length_append,append_assoc] at later
      rw [offsets,if_neg nothing,map_cons,flatten_cons,later,filter_cons_of_pos (by simpa using nothing)]
      congr 1
      simp [segmentIds]

theorem tokenizeText_segments (text : Text) :
    (tokenizeText tokenizer text).2.map (segmentIds (tokenizeText tokenizer text).1) =
      ((splitSegments text defaultPicSeparator).map tokenizer.encode).filter fun tokens => tokens ≠ [] :=
  offsets_segmentIds ((splitSegments text defaultPicSeparator).map tokenizer.encode) []

theorem tokenizeText_part {text part : Text} (member : part ∈ splitSegments text defaultPicSeparator) :
    (tokenizeText tokenizer part).1 = tokenizer.encode part := by
  have whole : splitSegments part defaultPicSeparator = [part] := Split.split_piece _ member
  simp [tokenizeText,whole,splitAndTokenize]

theorem gatedHashes_eq (ids : List Token) (picSegments : List Seg) :
    gatedHashes args ids picSegments = (picSegments.map (segmentIds ids)).dropLast.map args.segmentHash := by
  unfold gatedHashes
  split
  · rw [← map_dropLast,map_map]; rfl
  · rename_i short
    obtain _ | ⟨seg,_ | ⟨next,rest⟩⟩ := picSegments
    · rfl
    · rfl
    · simp at short

variable {args tokenizer} {route : Route} {isLocal : Url → Bool} {text : Text}

theorem scatterPrefill_scatters (scatters : Scatters route text) :
    ∃ worker : Nat → Url, scatterPrefill route text = .scattered
      ((routedSegments text).dropLast.zipIdx.map fun item =>
        ⟨worker item.2,item.1,route.combineAddr,route.generateRoomId item.2,item.2⟩)
      ((routedSegments text).dropLast.zipIdx.map fun item => ⟨item.2,worker item.2,route.generateRoomId item.2⟩) := by
  obtain ⟨inside,several,workers⟩ := scatters
  refine ⟨route.worker (route.assignWithDirectory (routedSegments text).dropLast),?_⟩
  simp only [scatterPrefill,inside,not_true,if_false,if_neg (Nat.not_lt.mpr several),workers]

theorem corresponds_scattered (scatters : Scatters route text) :
    Corresponds args tokenizer route isLocal text ↔
      let scattered := ((routedSegments text).map tokenizer.encode).dropLast
      let segments := ((splitSegments text defaultPicSeparator).map tokenizer.encode).filter fun tokens => tokens ≠ []
      (∀ (index : Nat) tokens, scattered[index]? = some tokens → segments[index]? = some tokens) ∧
        segments.dropLast.map args.segmentHash = scattered.map args.segmentHash := by
  have tokenized {part : Text} {index : Nat} (member : (part,index) ∈ (routedSegments text).dropLast.zipIdx) :
      (tokenizeText tokenizer part).1 = tokenizer.encode part :=
    tokenizeText_part tokenizer (mem_of_mem_filter (mem_of_mem_dropLast (fst_mem_of_mem_zipIdx member)))
  have named (index : Nat) (tokens : List Token) :
      (∃ seg ∈ (tokenizeText tokenizer text).2[index]?, tokens = segmentIds (tokenizeText tokenizer text).1 seg) ↔
        (((splitSegments text defaultPicSeparator).map tokenizer.encode).filter fun tokens => tokens ≠ [])[index]?
          = some tokens := by
    rw [← tokenizeText_segments,getElem?_map,Option.map_eq_some_iff]
    exact ⟨fun ⟨seg,found,same⟩ => ⟨seg,found,same.symm⟩,fun ⟨seg,found,same⟩ => ⟨seg,found,same.symm⟩⟩
  have texts : (routedSegments text).dropLast.zipIdx.map (fun item => (tokenizeText tokenizer item.1).1) =
      ((routedSegments text).map tokenizer.encode).dropLast := by
    rw [map_congr_left fun item member => tokenized member,← map_dropLast]
    conv_rhs => rw [← zipIdx_map_fst 0 (routedSegments text).dropLast,map_map]
    rfl
  obtain ⟨worker,dispatched⟩ := scatterPrefill_scatters scatters
  simp only [Corresponds,SubsNamed,dispatched,gatedHashes_eq,tokenizeText_segments,forall_mem_map,workerIds,named,map_map]
  rw [← Function.comp_def args.segmentHash,Function.comp_assoc,← map_map,Function.comp_def,texts]
  constructor
  · rintro ⟨each,gate,-⟩
    refine ⟨fun index tokens found => ?_,gate⟩
    rw [← map_dropLast,getElem?_map,Option.map_eq_some_iff] at found
    obtain ⟨part,found,rfl⟩ := found
    have member : (part,index) ∈ (routedSegments text).dropLast.zipIdx := mk_mem_zipIdx_iff_getElem?.mpr found
    rw [each _ member,tokenized member]
  · rintro ⟨each,gate⟩
    have carried : ∀ item ∈ (routedSegments text).dropLast.zipIdx,
        (((splitSegments text defaultPicSeparator).map tokenizer.encode).filter fun tokens => tokens ≠ [])[item.2]?
          = some (tokenizeText tokenizer item.1).1 := by
      rintro ⟨part,index⟩ member
      refine each index _ ?_
      rw [tokenized member,← map_dropLast,getElem?_map,mk_mem_zipIdx_iff_getElem?.mp member]
      rfl
    refine ⟨carried,gate,?_⟩
    rintro dst filed item member ⟨-,position⟩
    obtain ⟨row,-,filed⟩ := mem_filterMap.mp filed
    obtain ⟨remote,filed⟩ := Option.ite_none_left_eq_some.mp filed
    obtain ⟨seg,found,rfl⟩ := Option.map_eq_some_iff.mp filed
    obtain ⟨same,there,tokens⟩ := (named item.2 _).mpr (carried item member)
    rw [show row.segIndex = item.2 from position,there,Option.some.injEq] at found
    rw [tokens,found]

theorem scatters_of_scattered {subs : List SubRequest} {picCombine : List CombineItem}
    (dispatched : scatterPrefill route text = .scattered subs picCombine) : Scatters route text := by
  unfold scatterPrefill at dispatched
  by_cases inside : defaultPicSeparator <:+: text
  · by_cases few : (routedSegments text).length < 2
    · simp [inside,few] at dispatched
    · by_cases workers : route.prefillWorkers = []
      · simp [inside,few,workers] at dispatched
      · exact ⟨inside,Nat.le_of_not_lt few,workers⟩
  · simp [inside] at dispatched

theorem corresponds_whole (whole : ¬ Scatters route text) : Corresponds args tokenizer route isLocal text := by
  unfold Corresponds
  split
  · rename_i subs picCombine dispatched
    exact absurd (scatters_of_scattered dispatched) whole
  · trivial
  · trivial

/-- The cuts correspond exactly when the router leaves the prompt alone, or the two filters keep the same
    tokens up to the query. -/
theorem segments_correspond_iff (args : ServerArgs Hash) (tokenizer : Tokenizer) (route : Route) (isLocal : Url → Bool)
    (text : Text) :
    Corresponds args tokenizer route isLocal text ↔ ¬ Scatters route text ∨ CutsAgree tokenizer text := by
  by_cases scatters : Scatters route text
  · rw [corresponds_scattered scatters]
    simp only [scatters,not_true,false_or,CutsAgree]
    have several : 2 ≤ ((routedSegments text).map tokenizer.encode).length := by simpa using scatters.2.1
    generalize (routedSegments text).map tokenizer.encode = routed at several ⊢
    generalize ((splitSegments text defaultPicSeparator).map tokenizer.encode).filter (fun tokens => tokens ≠ []) = segments
    constructor
    · rintro ⟨each,gate⟩
      -- equally many hashes: the list of segments is as long as the router's
      have sameLength : segments.length = routed.length := by
        have := congrArg List.length gate
        simp only [length_map,length_dropLast] at this
        omega
      have front : segments.dropLast = routed.dropLast := by
        refine ext_getElem (by simp [sameLength]) fun index inside scattered => ?_
        have found := each index _ (getElem?_eq_getElem scattered)
        rw [getElem_dropLast]
        exact (List.getElem?_eq_some_iff.mp found).2
      have routedSome : routed ≠ [] := ne_nil_of_length_pos (by omega)
      have segmentsSome : segments ≠ [] := ne_nil_of_length_pos (by omega)
      refine ⟨routed.dropLast,routed.getLast routedSome,segments.getLast segmentsSome,?_,?_⟩
      · exact (dropLast_append_getLast routedSome).symm
      · exact front ▸ (dropLast_append_getLast segmentsSome).symm
    · rintro ⟨front,query,lastTokens,rfl,rfl⟩
      simp only [dropLast_concat]
      refine ⟨fun index tokens found => ?_,trivial⟩
      exact (getElem?_append_left (List.getElem?_eq_some_iff.mp found).1).trans found
  · simp [scatters,corresponds_whole scatters]

end Agreement

/-- Every character is a token of its own. -/
def charTokenizer : Tokenizer := ⟨fun text => text.map Char.toNat,rfl⟩

/-- Two workers in turn, neither of them the combine engine. -/
def twoWorkers : Route :=
  ⟨"http://c:1".toList,["http://a:2".toList,"http://b:3".toList],
    fun segs => segs.zipIdx.map fun item => if item.2 % 2 = 0 then "http://a:2".toList else "http://b:3".toList,id⟩

/-- A part of one blank between two segments: the router numbers the second one 1, the engine numbers it 2. -/
theorem blank_part_shifts :
    ¬ Corresponds (⟨.transition,-1,0,id⟩ : ServerArgs (List Token)) charTokenizer twoWorkers (fun _ => false)
      "a<<PIC_SEP>> <<PIC_SEP>>b<<PIC_SEP>>q".toList := by decide +kernel

/-! ### Local or remote -/

/-- Host and port as `urlparse` reads them from an address with a scheme. -/
def urlEndpoint (addr : Url) : Text × Option Nat :=
  let netloc := ((addr.dropWhile fun c => c ≠ '/').drop 2).takeWhile fun c => c ≠ '/' ∧ c ≠ '?' ∧ c ≠ '#'
  let hostinfo := (netloc.reverse.takeWhile fun c => c ≠ '@').reverse
  let colon := if '[' ∈ hostinfo then hostinfo.dropWhile fun c => c ≠ ']' else hostinfo
  let port := (colon.dropWhile fun c => c ≠ ':').drop 1
  (hostinfo.take (hostinfo.length - port.length),
    if port = [] then none else some (port.foldl (fun n c => 10 * n + (c.toNat - 48)) 0))

/-- An engine listens on the port of its own address. -/
def serverPort (engine : Url) : Option Nat := (urlEndpoint engine).2

/-- `prealloc_and_push_handles` skips the row: the segment gets no destination. -/
def skipsRow (engine : Url) (row : CombineItem) : Bool := (urlEndpoint row.workerAddr).2 = serverPort engine

/-- `maybe_push_after_prefill` takes an arrival hold and pushes nothing. -/
def holdsOnly (engine : Url) (sub : SubRequest) : Bool := (urlEndpoint sub.combineAddr).2 = serverPort engine

/-- Both sides treat a segment as local exactly when its worker is the combine engine; otherwise the one allocates a
    destination and the other pushes to it. -/
def DecidedRight (combine : Url) (sub : SubRequest) (row : CombineItem) : Prop :=
  (skipsRow combine row = true ↔ sub.workerAddr = combine) ∧
    (holdsOnly sub.workerAddr sub = true ↔ sub.workerAddr = combine) ∧
    (sub.workerAddr = combine ∨ skipsRow combine row = false ∧ holdsOnly sub.workerAddr sub = false)

instance (combine : Url) (sub : SubRequest) (row : CombineItem) : Decidable (DecidedRight combine sub row) :=
  inferInstanceAs (Decidable (_ ∧ _ ∧ _))

theorem decidedRight_iff {combine : Url} {sub : SubRequest} {row : CombineItem} (sameWorker : row.workerAddr = sub.workerAddr)
    (toCombine : sub.combineAddr = combine) :
    DecidedRight combine sub row ↔ (serverPort sub.workerAddr = serverPort combine → sub.workerAddr = combine) := by
  have combineSide : skipsRow combine row = true ↔ serverPort sub.workerAddr = serverPort combine := by
    simp [skipsRow,sameWorker,serverPort]
  have workerSide : holdsOnly sub.workerAddr sub = true ↔ serverPort sub.workerAddr = serverPort combine := by
    simp [holdsOnly,toCombine,serverPort,eq_comm]
  rw [DecidedRight,← Bool.not_eq_true,← Bool.not_eq_true,combineSide,workerSide]
  constructor
  · rintro ⟨right,-,-⟩ samePort
    exact right.mp samePort
  · intro alone
    have exactly : serverPort sub.workerAddr = serverPort combine ↔ sub.workerAddr = combine :=
      ⟨alone,fun same => by rw [same]⟩
    exact ⟨exactly,exactly,by rw [exactly,and_self]; exact em _⟩

/-- Two hosts, one port. -/
def samePortHosts : Route :=
  ⟨"http://a:1".toList,["http://a:1".toList,"http://b:1".toList],fun segs => segs.map fun _ => "http://b:1".toList,id⟩

end Hypic.Router
