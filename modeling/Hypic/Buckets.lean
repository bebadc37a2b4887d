import Hypic.Dict
import Hypic.Runs
import Mathlib.Data.List.Sort

/-! The bucket policy: each worker has an interval of prompt lengths, adjusted to the loads of the last requests. -/

namespace Hypic.Buckets
open List Option Dict

abbrev Url := String

def usizeMax : Nat := 2 ^ 64 - 1

/-- The sum of two `usize`, unless it overflows. -/
def add (left right : Nat) : Option Nat := if left + right ≤ usizeMax then some (left + right) else none

structure SequencerRequest where
  id : Nat
  charCnt : Nat
  timestamp : Nat
  prefillWorkerUrl : Url

structure Boundary where
  url : Url
  low : Nat
  high : Nat
deriving DecidableEq

/-- Ids are numbers never given twice; `nextId` is the next. -/
structure Bucket where
  lMax : Nat
  bucketCnt : Nat
  prefillWorkerUrls : List Url
  loadTotal : Nat
  period : Nat
  bucketLoad : Nat
  boundary : List Boundary
  requestList : List SequencerRequest
  tReqLoads : Dict Nat Nat
  charsPerUrl : Dict Url Nat
  nextId : Nat

namespace Bucket

def new (period : Nat) : Bucket := ⟨4096,0,[],0,period,0,[],[],.empty,.empty,0⟩

def evenly (lMax : Nat) (urls : List Url) : List Boundary :=
  let gap := lMax / urls.length
  urls.mapIdx fun i url => ⟨url,i * gap,if i = urls.length - 1 then usizeMax else (i + 1) * gap - 1⟩

/-- The first initialisation with a worker leaves `usize::MAX` in `l_max` for the later ones. -/
def initPrefillWorkerUrls (urls : List Url) (bucket : Bucket) : Bucket :=
  { bucket with
    bucketCnt := urls.length
    prefillWorkerUrls := urls
    charsPerUrl := Dict.empty.setAll (urls.map (·,0))
    lMax := if urls = [] then bucket.lMax else usizeMax
    boundary := evenly bucket.lMax urls }

def expired (now : Nat) (bucket : Bucket) (req : SequencerRequest) : Bool := now < req.timestamp ∨ bucket.period < now - req.timestamp

/-- What an expired request takes from the counter of its worker, if there is one. -/
def uncount (chars : Dict Url Nat) (req : SequencerRequest) : Dict Url Nat :=
  match chars.get? req.prefillWorkerUrl with
  | some count => chars.set req.prefillWorkerUrl (count - req.charCnt)
  | none => chars

def postProcessRequest (now charCnt : Nat) (url : Url) (bucket : Bucket) : Option Bucket := do
  let counted ← add ((bucket.charsPerUrl.get? url).getD 0) charCnt
  let gone := bucket.requestList.takeWhile (bucket.expired now)
  some { bucket with
    charsPerUrl := gone.foldl uncount (bucket.charsPerUrl.set url counted)
    tReqLoads := (gone.foldl (fun loads req => loads.erase req.id) bucket.tReqLoads).set bucket.nextId charCnt
    requestList := bucket.requestList.dropWhile (bucket.expired now) ++ [⟨bucket.nextId,charCnt,now,url⟩]
    loadTotal := min (bucket.loadTotal - (gone.map SequencerRequest.charCnt).sum + charCnt) usizeMax
    nextId := bucket.nextId + 1 }

/-- The binary search of `find_boundary` between `left` and `right`. -/
def findFrom (boundary : List Boundary) (charCount : Nat) : Nat → Nat → Nat → Option Url
  | 0, _, _ => none
  | fuel + 1, left, right =>
    if left < right then
      let mid := left + (right - left) / 2
      boundary[mid]?.bind fun found =>
        if charCount < found.low then findFrom boundary charCount fuel left mid
        else if charCount > found.high then findFrom boundary charCount fuel (mid + 1) right
        else some found.url
    else none

def findBoundary (charCount : Nat) (bucket : Bucket) : Option Url :=
  findFrom bucket.boundary charCount bucket.boundary.length 0 bucket.boundary.length

def updateWorkersCnt (bucket : Bucket) : Bucket :=
  let urls := bucket.prefillWorkerUrls
  let missing := urls.filter (fun url => ¬ bucket.charsPerUrl.contains url)
  let gone := bucket.charsPerUrl.keys.filter fun url => url ∉ urls ∧ bucket.charsPerUrl.get? url = some 0
  { bucket with
    bucketCnt := urls.length
    charsPerUrl := gone.foldl Dict.erase (bucket.charsPerUrl.setAll (missing.map (·,0))) }

/-- The loads up to the one with which `target` is reached: that load, if any, and the loads behind it. -/
def reach (target : Nat) : Nat → List Nat → Option Nat × List Nat
  | _, [] => (none,[])
  | accumulator, load::rest => if target ≤ accumulator + load then (some load,rest) else reach target (accumulator + load) rest

/-- The new boundaries. The last worker takes the rest of the lengths, whatever loads are left. -/
def spread (target : Nat) : List Url → Nat → List Nat → Option (List Boundary)
  | [], _, _ => some []
  | [url], upper, _ => some [⟨url,upper,usizeMax⟩]
  | url::next::urls, upper, loads => do
    let real ← add upper target
    let (reached,rest) := reach target 0 loads
    let high := match reached with
      | some load => if load ≤ upper then real else load
      | none => real
    let after ← add high 1
    let others ← spread target (next::urls) after rest
    some (⟨url,upper,high⟩::others)

def adjustBoundary (bucket : Bucket) : Option Bucket :=
  if bucket.tReqLoads.items = [] then some bucket
  else
    let bucket := bucket.updateWorkersCnt
    if bucket.bucketCnt = 0 then some bucket
    else
      let target := bucket.loadTotal / bucket.bucketCnt
      if target ≤ 2 * bucket.bucketLoad ∧ bucket.bucketLoad ≤ 2 * target ∧ bucket.bucketLoad ≠ 0 then some bucket
      else (spread target bucket.prefillWorkerUrls 0 (bucket.tReqLoads.values.insertionSort (· ≤ ·))).map fun boundary =>
        { bucket with boundary, bucketLoad := target }

/-- The entry `add_prefill_url` makes in `chars_per_url` is cleared again. -/
def addPrefillUrl (url : Url) (bucket : Bucket) : Bucket :=
  let urls := bucket.prefillWorkerUrls
  bucket.initPrefillWorkerUrls (if url ∈ urls then urls else urls ++ [url])

def removePrefillUrl (url : Url) (bucket : Bucket) : Bucket :=
  let urls := bucket.prefillWorkerUrls.filter (· ≠ url)
  if urls = [] then { bucket with bucketCnt := 0, prefillWorkerUrls := [], charsPerUrl := bucket.charsPerUrl.erase url }
  else bucket.initPrefillWorkerUrls urls

end Bucket

inductive Action where
  | init (urls : List Url)
  | add (url : Url)
  | remove (url : Url)
  | post (now charCnt : Nat) (url : Url)
  | adjust

def step (bucket : Bucket) : Action → Option Bucket
  | .init urls => some (bucket.initPrefillWorkerUrls urls)
  | .add url => some (bucket.addPrefillUrl url)
  | .remove url => some (bucket.removePrefillUrl url)
  | .post now charCnt url => bucket.postProcessRequest now charCnt url
  | .adjust => bucket.adjustBoundary

/-! ### Boundaries -/

/-- From `low` on the intervals follow one another without a gap, one for each worker, up to `usize::MAX`. -/
inductive Covers : Nat → List Url → List Boundary → Prop
  | last {low : Nat} (url : Url) (bound : low ≤ usizeMax) : Covers low [url] [⟨url,low,usizeMax⟩]
  | next {low high : Nat} (url : Url) {urls : List Url} {boundary : List Boundary} (order : low ≤ high) (rest : Covers (high + 1) urls boundary) :
      Covers low (url::urls) (⟨url,low,high⟩::boundary)

open Bucket
variable {bucket next : Bucket} {urls : List Url} {boundary : List Boundary} {low charCount : Nat}

theorem add_eq_some {left right sum : Nat} : add left right = some sum ↔ left + right ≤ usizeMax ∧ left + right = sum := by
  rw [add,ite_none_right_eq_some,some_inj]

theorem spread_covers {target upper : Nat} {loads : List Nat} (given : urls ≠ []) (bound : upper ≤ usizeMax)
    (built : spread target urls upper loads = some boundary) : Covers upper urls boundary := by
  induction urls generalizing upper loads boundary with
  | nil => exact absurd rfl given
  | cons url urls ih =>
    cases urls with
    | nil =>
      cases built
      exact .last url bound
    | cons next urls =>
      obtain ⟨real,sum,built⟩ := bind_eq_some_iff.mp built
      obtain ⟨after,succ,built⟩ := bind_eq_some_iff.mp built
      obtain ⟨others,later,made⟩ := bind_eq_some_iff.mp built
      obtain ⟨-,rfl⟩ := add_eq_some.mp sum
      obtain ⟨bound,rfl⟩ := add_eq_some.mp succ
      cases made
      refine .next url ?_ (ih (cons_ne_nil _ _) bound later)
      split
      · split <;> omega
      · omega

theorem mapIdx_covers {gap total i : Nat} (positive : 0 < gap) (bound : total * gap ≤ usizeMax) (given : urls ≠ [])
    (rest : i + urls.length = total) :
    Covers (i * gap) urls (urls.mapIdx fun j url => ⟨url,(i + j) * gap,if i + j = total - 1 then usizeMax else (i + j + 1) * gap - 1⟩) := by
  induction urls generalizing i with
  | nil => exact absurd rfl given
  | cons url urls ih =>
    have inside : (i + 1) * gap ≤ total * gap := Nat.mul_le_mul_right gap (by simp at rest; omega)
    have more : (i + 1) * gap = i * gap + gap := Nat.succ_mul i gap
    rw [mapIdx_cons,Nat.add_zero]
    cases urls with
    | nil =>
      rw [if_pos (by simp at rest; omega)]
      exact .last url (by omega)
    | cons next urls =>
      rw [if_neg (by simp at rest; omega)]
      refine .next url (by omega) ?_
      have later := ih (cons_ne_nil next urls) (i := i + 1) (by simp at rest ⊢; omega)
      rw [show (i + 1) * gap - 1 + 1 = (i + 1) * gap by omega]
      simpa only [Nat.add_assoc,Nat.add_comm 1] using later

theorem evenly_covers {lMax : Nat} (given : urls ≠ []) (enough : urls.length ≤ lMax) (bound : lMax ≤ usizeMax) :
    Covers 0 urls (evenly lMax urls) := by
  have positive : 0 < urls.length := length_pos_iff.mpr given
  have whole := @mapIdx_covers urls (lMax / urls.length) urls.length 0 (Nat.div_pos enough positive)
    ((Nat.mul_div_le lMax urls.length).trans bound) given (Nat.zero_add _)
  simpa only [Nat.zero_mul,Nat.zero_add,evenly] using whole

theorem Covers.ordered (covers : Covers low urls boundary) : boundary.map Boundary.url = urls ∧
    (∀ part ∈ boundary, low ≤ part.low ∧ part.low ≤ part.high) ∧ boundary.Pairwise (fun left right => left.high < right.low) ∧
    ∀ count, low ≤ count → count ≤ usizeMax → ∃ part ∈ boundary, part.low ≤ count ∧ count ≤ part.high ∧
      ∀ other ∈ boundary, other.low ≤ count → count ≤ other.high → other = part := by
  induction covers with
  | last url bound => simpa using ⟨bound,fun count from' bound => ⟨from',bound⟩⟩
  | @next low high url urls boundary order rest ih =>
    obtain ⟨named,above,sorted,found⟩ := ih
    refine ⟨by simp [named],?_,?_,fun count from' bound => ?_⟩
    · grind
    · exact pairwise_cons.mpr ⟨fun part member => (above part member).1,sorted⟩
    · by_cases here : count ≤ high
      · refine ⟨_,mem_cons_self,from',here,fun other member => ?_⟩
        grind
      · obtain ⟨part,member,inside⟩ := found count (by omega) bound
        refine ⟨part,mem_cons_of_mem _ member,inside.1,inside.2.1,fun other member => ?_⟩
        grind

theorem findFrom_eq {part : Boundary} {place fuel left right : Nat} (proper : ∀ part ∈ boundary, part.low ≤ part.high)
    (sorted : boundary.Pairwise fun left right => left.high < right.low) (found : boundary[place]? = some part) (above : part.low ≤ charCount) (below : charCount ≤ part.high) (from' : left ≤ place)
    (upto : place < right) (bound : right ≤ boundary.length) (enough : right - left ≤ fuel) :
    findFrom boundary charCount fuel left right = some part.url := by
  induction fuel generalizing left right with
  | zero => omega
  | succ fuel ih =>
    obtain ⟨inside,rfl⟩ := List.getElem?_eq_some_iff.mp found
    have middle : left + (right - left) / 2 < boundary.length := by omega
    rw [pairwise_iff_getElem] at sorted
    simp only [findFrom,if_pos (from'.trans_lt upto),getElem?_eq_getElem middle,bind_some]
    rcases Nat.lt_trichotomy place (left + (right - left) / 2) with before|rfl|behind
    · have := sorted _ _ inside middle before
      rw [if_pos (by omega)]
      exact ih from' before (by omega) (by omega)
    · rw [if_neg (by omega),if_neg (by omega)]
    · have := sorted _ _ middle inside behind
      have := proper _ (getElem_mem middle)
      rw [if_neg (by omega),if_pos (by omega)]
      exact ih behind upto bound (by omega)

/-- The worker list after the action has from 1 to 4096 workers. -/
def Staffed (bucket : Bucket) : Action → Prop
  | .init urls => 1 ≤ urls.length ∧ urls.length ≤ 4096
  | .add url => (bucket.addPrefillUrl url).prefillWorkerUrls.length ≤ 4096
  | .remove url => (bucket.removePrefillUrl url).prefillWorkerUrls ≠ []
  | _ => True

structure Covered (bucket : Bucket) : Prop where
  few : bucket.prefillWorkerUrls.length ≤ 4096
  range : 4096 ≤ bucket.lMax ∧ bucket.lMax ≤ usizeMax
  covers : bucket.prefillWorkerUrls ≠ [] → Covers 0 bucket.prefillWorkerUrls bucket.boundary

theorem init_covered (covered : Covered bucket) (few : urls.length ≤ 4096) : Covered (bucket.initPrefillWorkerUrls urls) := by
  have room := covered.range
  refine ⟨few,?_,fun given => evenly_covers given (few.trans room.1) room.2⟩
  show 4096 ≤ ite _ _ _ ∧ ite _ _ _ ≤ usizeMax
  split
  · exact room
  · decide

theorem adjust_cases (executed : bucket.adjustBoundary = some next) :
    ∃ middle boundary load, (middle = bucket ∨ middle = bucket.updateWorkersCnt) ∧ next = { middle with boundary, bucketLoad := load } ∧
      (boundary = bucket.boundary ∨ ∃ target loads, spread target bucket.prefillWorkerUrls 0 loads = some boundary) := by
  simp only [adjustBoundary] at executed
  split at executed
  · cases executed
    exact ⟨_,_,_,.inl rfl,rfl,.inl rfl⟩
  split at executed
  · cases executed
    exact ⟨_,_,_,.inr rfl,rfl,.inl rfl⟩
  split at executed
  · cases executed
    exact ⟨_,_,_,.inr rfl,rfl,.inl rfl⟩
  · obtain ⟨boundary,built,rfl⟩ := map_eq_some_iff.mp executed
    exact ⟨_,boundary,_,.inr rfl,rfl,.inr ⟨_,_,built⟩⟩

theorem step_covered (bucket : Bucket) (action : Action) (next : Bucket) (covered : Covered bucket) (staffed : Staffed bucket action)
    (stepped : step bucket action = some next) : Covered next := by
  cases action with
  | init urls =>
    cases stepped
    exact init_covered covered staffed.2
  | add url =>
    cases stepped
    exact init_covered covered staffed
  | remove url =>
    cases stepped
    simp only [removePrefillUrl]
    split
    · exact ⟨Nat.zero_le _,covered.range,fun given => absurd rfl given⟩
    · exact init_covered covered ((length_filter_le ..).trans covered.few)
  | post now charCnt url =>
    obtain ⟨counted,-,posted⟩ := bind_eq_some_iff.mp stepped
    cases posted
    exact ⟨covered.few,covered.range,covered.covers⟩
  | adjust =>
    obtain ⟨middle,boundary,load,rfl|rfl,rfl,rfl|⟨target,loads,built⟩⟩ := adjust_cases stepped
    · exact ⟨covered.few,covered.range,covered.covers⟩
    · exact ⟨covered.few,covered.range,fun given => spread_covers given (Nat.zero_le _) built⟩
    · exact ⟨covered.few,covered.range,covered.covers⟩
    · exact ⟨covered.few,covered.range,fun given => spread_covers given (Nat.zero_le _) built⟩

/-- After every run the intervals cover all lengths, one for each worker in order, and `find_boundary` gives the worker of the one
    interval that holds the length. -/
theorem lengths_covered {period : Nat} {actions : List Action} (staffed : Runs.Guarded step Staffed (new period) actions)
    (executed : Runs.run step (new period) actions = some bucket) (given : bucket.prefillWorkerUrls ≠ []) :
    Covers 0 bucket.prefillWorkerUrls bucket.boundary ∧ ∀ charCount ≤ usizeMax, ∃! part, part ∈ bucket.boundary ∧ part.low ≤ charCount ∧
      charCount ≤ part.high ∧ bucket.findBoundary charCount = some part.url := by
  have start : Covered (new period) := ⟨Nat.zero_le _,⟨le_rfl,show 4096 ≤ usizeMax by decide⟩,fun given => absurd rfl given⟩
  have covers := (Runs.run_keeps Covered step_covered start staffed executed).covers given
  refine ⟨covers,fun charCount bound => ?_⟩
  obtain ⟨-,proper,sorted,found⟩ := covers.ordered
  obtain ⟨part,member,above,below,only⟩ := found charCount (Nat.zero_le _) bound
  obtain ⟨place,stored⟩ := mem_iff_getElem?.mp member
  have inside := (List.getElem?_eq_some_iff.mp stored).1
  refine ⟨part,⟨member,above,below,?_⟩,?_⟩
  · exact findFrom_eq (fun part member => (proper part member).2) sorted stored above below (Nat.zero_le _) inside le_rfl (by omega)
  · rintro other ⟨member,above,below,-⟩
    exact only other member above below

theorem lengths_covered_adjusted : ∃ bucket, Runs.run step (new 1000) [.init ["a","b"],.post 0 5 "a",.adjust] = some bucket ∧
    Covers 0 ["a","b"] bucket.boundary := by
  refine ⟨_,rfl,(@lengths_covered _ 1000 [.init ["a","b"],.post 0 5 "a",.adjust] ⟨⟨by decide,by decide⟩,?_⟩ rfl (by decide)).1⟩
  rintro _ ⟨⟩
  refine ⟨trivial,?_⟩
  rintro _ -
  exact ⟨trivial,fun _ _ => trivial⟩

/-! ### Membership changes -/

theorem evenly_eq_iff (given : urls ≠ []) (few : urls.length ≤ 4096) :
    evenly usizeMax urls = evenly 4096 urls ↔ urls.length = 1 := by
  cases urls with
  | nil => exact absurd rfl given
  | cons url urls =>
    cases urls with
    | nil => simp [evenly]
    | cons next urls =>
      refine iff_of_false (fun same => ?_) (by simp)
      simp only [evenly,mapIdx_cons,List.cons.injEq,Boundary.mk.injEq,Nat.zero_add,Nat.one_mul] at same
      have gap := same.1.2.2
      rw [if_neg (by simp),if_neg (by simp)] at gap
      have wide := Nat.div_le_div_left few (Nat.succ_pos _) (a := usizeMax)
      have narrow := Nat.div_le_self 4096 (url::next::urls).length
      have : usizeMax / 4096 = 4503599627370495 := by decide
      omega

theorem lMax_cases {period : Nat} {actions : List Action} (executed : Runs.run step (new period) actions = some bucket) :
    bucket.lMax = 4096 ∧ bucket.prefillWorkerUrls = [] ∨ bucket.lMax = usizeMax := by
  refine Runs.run_always (fun bucket => bucket.lMax = 4096 ∧ bucket.prefillWorkerUrls = [] ∨ bucket.lMax = usizeMax) ?_ (.inl ⟨rfl,rfl⟩) executed
  intro bucket action next before stepped
  have init (urls : List Url) : (bucket.initPrefillWorkerUrls urls).lMax = 4096 ∧ (bucket.initPrefillWorkerUrls urls).prefillWorkerUrls = [] ∨
      (bucket.initPrefillWorkerUrls urls).lMax = usizeMax := by
    simp only [initPrefillWorkerUrls]
    grind
  cases action with
  | init urls =>
    cases stepped
    exact init urls
  | add url =>
    cases stepped
    exact init _
  | remove url =>
    cases stepped
    simp only [removePrefillUrl]
    split
    · exact before.imp_left fun first => ⟨first.1,rfl⟩
    · exact init _
  | post now charCnt url =>
    obtain ⟨counted,-,posted⟩ := bind_eq_some_iff.mp stepped
    cases posted
    exact before
  | adjust =>
    obtain ⟨middle,boundary,load,rfl|rfl,rfl,-⟩ := adjust_cases stepped <;> exact before

/-- Right after a worker is added or removed the boundaries are those of a fresh bucket exactly if it is the only worker. -/
theorem fresh_iff_single {period : Nat} {actions : List Action} (executed : Runs.run step (new period) actions = some bucket) {url : Url}
    (changed : next = bucket.addPrefillUrl url ∨ next = bucket.removePrefillUrl url) (given : next.prefillWorkerUrls ≠ [])
    (few : next.prefillWorkerUrls.length ≤ 4096) :
    next.boundary = ((new period).initPrefillWorkerUrls next.prefillWorkerUrls).boundary ↔ next.prefillWorkerUrls.length = 1 := by
  obtain ⟨urls,rfl,first⟩ : ∃ urls, next = bucket.initPrefillWorkerUrls urls ∧ (bucket.prefillWorkerUrls = [] → urls.length ≤ 1) := by
    rcases changed with rfl|rfl
    · exact ⟨_,rfl,fun none => by simp [none]⟩
    · simp only [removePrefillUrl] at given ⊢
      split
      next none =>
        rw [if_pos none] at given
        exact absurd rfl given
      next => exact ⟨_,rfl,fun none => by simp [none]⟩
  rcases lMax_cases executed with ⟨lMax,none⟩|lMax
  · simp only [initPrefillWorkerUrls,lMax] at given ⊢
    have := length_pos_iff.mpr given
    exact iff_of_true rfl (by have := first none; omega)
  · simp only [initPrefillWorkerUrls,lMax] at given few ⊢
    exact evenly_eq_iff given few

theorem fresh_single_left : ((((new 1000).initPrefillWorkerUrls ["a","b"]).removePrefillUrl "b").boundary =
    ((new 1000).initPrefillWorkerUrls ["a"]).boundary) :=
  (@fresh_iff_single _ _ 1000 [.init ["a","b"]] rfl "b" (.inr rfl) (by decide) (by decide)).mpr rfl

/-- With a second worker, all lengths below `2 ^ 63 - 1` are the first one's. -/
theorem added_takes_nothing : ((((new 1000).addPrefillUrl "a").addPrefillUrl "b").boundary =
      [⟨"a",0,2 ^ 63 - 2⟩,⟨"b",2 ^ 63 - 1,usizeMax⟩]) ∧
    ((new 1000).initPrefillWorkerUrls ["a","b"]).boundary = [⟨"a",0,2047⟩,⟨"b",2048,usizeMax⟩] := by decide

/-! ### Loads -/

/-- The loads of the requests in the window that are assigned to a worker. -/
def assigned (url : Url) (requests : List SequencerRequest) : Nat :=
  ((requests.filter (·.prefillWorkerUrl = url)).map SequencerRequest.charCnt).sum

/-- Workers come and go only while no request is in the window, and the loads in it sum up to a `usize`. -/
def Settled (bucket : Bucket) : Action → Prop
  | .init _ | .add _ | .remove _ => bucket.requestList = []
  | .post _ charCnt _ => (bucket.requestList.map SequencerRequest.charCnt).sum + charCnt ≤ usizeMax
  | .adjust => True

structure Exact (bucket : Bucket) : Prop where
  total : bucket.loadTotal = (bucket.requestList.map SequencerRequest.charCnt).sum
  counted : ∀ url, (bucket.charsPerUrl.get? url).getD 0 = assigned url bucket.requestList
  known : ∀ url ∈ bucket.prefillWorkerUrls, (bucket.charsPerUrl.get? url).isSome

theorem uncount_getD (chars : Dict Url Nat) (req : SequencerRequest) (url : Url) :
    ((uncount chars req).get? url).getD 0 = (chars.get? url).getD 0 - (if req.prefillWorkerUrl = url then req.charCnt else 0) := by
  unfold uncount
  split
  next count found => grind [get?_set]
  next absent => grind

theorem uncount_isSome (chars : Dict Url Nat) (req : SequencerRequest) (url : Url) :
    ((uncount chars req).get? url).isSome = (chars.get? url).isSome := by
  unfold uncount
  split
  next count found => grind [get?_set]
  next absent => rfl

theorem uncounts (gone : List SequencerRequest) (chars : Dict Url Nat) (url : Url) :
    ((gone.foldl uncount chars).get? url).getD 0 = (chars.get? url).getD 0 - assigned url gone ∧
      ((gone.foldl uncount chars).get? url).isSome = (chars.get? url).isSome := by
  induction gone generalizing chars with
  | nil => simp [assigned]
  | cons req rest ih =>
    obtain ⟨value,there⟩ := ih (uncount chars req)
    rw [foldl_cons,value,there,uncount_getD,uncount_isSome]
    refine ⟨?_,rfl⟩
    unfold assigned
    grind

theorem zeros_getD (urls : List Url) (chars : Dict Url Nat) (zero : ∀ url ∈ urls, (chars.get? url).getD 0 = 0) (url : Url) :
    ((chars.setAll (urls.map (·,0))).get? url).getD 0 = (chars.get? url).getD 0 ∧
      ((urls.foldl Dict.erase chars).get? url).getD 0 = (chars.get? url).getD 0 ∧
      (url ∉ urls → (urls.foldl Dict.erase chars).get? url = chars.get? url) := by
  induction urls generalizing chars with
  | nil => exact ⟨rfl,rfl,fun _ => rfl⟩
  | cons first urls ih =>
    have written (other : Url) : ((chars.set first 0).get? other).getD 0 = (chars.get? other).getD 0 := by
      have := zero first mem_cons_self
      grind [get?_set]
    have erased (other : Url) : ((chars.erase first).get? other).getD 0 = (chars.get? other).getD 0 := by
      have := zero first mem_cons_self
      grind [get?_erase]
    have write := ih (chars.set first 0) fun other member => (written other).trans (zero other (mem_cons_of_mem _ member))
    have erase := ih (chars.erase first) fun other member => (erased other).trans (zero other (mem_cons_of_mem _ member))
    refine ⟨write.1.trans (written url),erase.2.1.trans (erased url),fun absent => ?_⟩
    rw [mem_cons,not_or] at absent
    exact (erase.2.2 absent.2).trans (by rw [get?_erase,if_neg absent.1])

theorem update_getD (bucket : Bucket) (url : Url) :
    (bucket.updateWorkersCnt.charsPerUrl.get? url).getD 0 = (bucket.charsPerUrl.get? url).getD 0 ∧
      (url ∈ bucket.prefillWorkerUrls → (bucket.charsPerUrl.get? url).isSome → (bucket.updateWorkersCnt.charsPerUrl.get? url).isSome) := by
  simp only [updateWorkersCnt]
  have missing := zeros_getD (bucket.prefillWorkerUrls.filter fun url => ¬ bucket.charsPerUrl.contains url) bucket.charsPerUrl
    (by simp +contextual [Dict.contains])
  have erased := zeros_getD (bucket.charsPerUrl.keys.filter fun url => url ∉ bucket.prefillWorkerUrls ∧ bucket.charsPerUrl.get? url = some 0)
    (bucket.charsPerUrl.setAll ((bucket.prefillWorkerUrls.filter fun url => ¬ bucket.charsPerUrl.contains url).map (·,0)))
    (fun other member => (missing other).1.trans (by simp only [mem_filter,decide_eq_true_eq] at member; simp [member.2.2])) url
  refine ⟨erased.2.1.trans (missing url).1,fun inside there => ?_⟩
  rw [erased.2.2 (by simp [inside])]
  exact get?_setAll_isSome _ _ (.inr there)

theorem step_exact (bucket : Bucket) (action : Action) (next : Bucket) (exact' : Exact bucket) (settled : Settled bucket action)
    (stepped : step bucket action = some next) : Exact next := by
  obtain ⟨total,counted,known⟩ := exact'
  have init (urls : List Url) (empty : bucket.requestList = []) : Exact (bucket.initPrefillWorkerUrls urls) := by
    rw [empty] at total counted
    refine ⟨?_,fun url => ?_,fun url member => ?_⟩
    · simpa [initPrefillWorkerUrls,empty] using total
    · simp only [initPrefillWorkerUrls,empty]
      exact (zeros_getD urls .empty (fun _ _ => rfl) url).1
    · exact get?_setAll_isSome _ _ (.inl (by simpa [initPrefillWorkerUrls] using member))
  cases action with
  | init urls =>
    cases stepped
    exact init urls settled
  | add url =>
    cases stepped
    exact init _ settled
  | remove url =>
    cases stepped
    simp only [removePrefillUrl]
    split
    · refine ⟨total,fun other => ?_,nofun⟩
      have := counted other
      rw [settled] at this ⊢
      grind [get?_erase,assigned]
    · exact init _ settled
  | post now charCnt url =>
    obtain ⟨sum,added,posted⟩ := bind_eq_some_iff.mp stepped
    obtain ⟨-,rfl⟩ := add_eq_some.mp added
    cases posted
    have settled : (bucket.requestList.map SequencerRequest.charCnt).sum + charCnt ≤ usizeMax := settled
    have split : bucket.requestList.takeWhile (bucket.expired now) ++ bucket.requestList.dropWhile (bucket.expired now) = bucket.requestList :=
      takeWhile_append_dropWhile
    generalize bucket.requestList.takeWhile (bucket.expired now) = gone, bucket.requestList.dropWhile (bucket.expired now) = kept at split ⊢
    simp only [← split,assigned,filter_append,map_append,sum_append] at total settled counted
    refine ⟨?_,fun other => ?_,fun other member => ?_⟩
    · simp only [map_append,sum_append,map_singleton,sum_singleton,total]
      omega
    · simp only [(uncounts _ _ other).1,get?_set,assigned,filter_append,map_append,sum_append]
      have := counted other
      by_cases same : other = url
      · subst same
        simp
        omega
      · simp [same,Ne.symm same]
        omega
    · simp only [(uncounts _ _ other).2,get?_set]
      have := known other member
      grind
  | adjust =>
    obtain ⟨middle,boundary,load,rfl|rfl,rfl,-⟩ := adjust_cases stepped
    · exact ⟨total,counted,known⟩
    · exact ⟨total,fun url => (update_getD bucket url).1.trans (counted url),fun url member => (update_getD bucket url).2 member (known url member)⟩

/-- In every such run the counter of each worker is the load of its requests in the window, and `load_total` that of all. -/
theorem loads_counted {period : Nat} {actions : List Action} (settled : Runs.Guarded step Settled (new period) actions)
    (executed : Runs.run step (new period) actions = some bucket) :
    (∀ url ∈ bucket.prefillWorkerUrls, bucket.charsPerUrl.get? url = some (assigned url bucket.requestList)) ∧
      bucket.loadTotal = (bucket.requestList.map SequencerRequest.charCnt).sum := by
  have start : Exact (new period) := ⟨rfl,fun _ => rfl,nofun⟩
  obtain ⟨total,counted,known⟩ := Runs.run_keeps Exact step_exact start settled executed
  refine ⟨fun url member => ?_,total⟩
  obtain ⟨count,found⟩ := isSome_iff_exists.mp (known url member)
  rw [← counted url,found]
  rfl

theorem loads_counted_request : ∃ bucket, Runs.run step (new 1000) [.init ["a"],.post 0 5 "a"] = some bucket ∧
    bucket.charsPerUrl.get? "a" = some 5 ∧ bucket.loadTotal = 5 := by
  have counted := @loads_counted _ 1000 [.init ["a"],.post 0 5 "a"] ⟨rfl,by rintro _ ⟨⟩; exact ⟨show 0 + 5 ≤ usizeMax by decide,fun _ _ => trivial⟩⟩ rfl
  exact ⟨_,rfl,counted.1 "a" (by decide),counted.2⟩

/-- A second worker clears the counter of the first, whose request stays in the window. -/
theorem counter_cleared : ∃ bucket, Runs.run step (new 1000) [.init ["a"],.post 0 5 "a",.add "b"] = some bucket ∧
    bucket.charsPerUrl.get? "a" = some 0 ∧ assigned "a" bucket.requestList = 5 := by
  refine ⟨_,rfl,rfl,rfl⟩

/-! ### Selection -/

structure Worker where
  url : Url
  healthy : Bool

/-- `select_worker`. The bucket is the one of the workers' model. `imbalanced` is the test of the loads against the thresholds, `pick`
    the random number, and `tie` tells which of the least loaded workers comes first in the map. -/
def selectWorker (imbalanced : Dict Url Nat → Bool) (pick tie charCount : Nat) (workers : List Worker) (bucket : Option Bucket) : Option Nat := do
  let healthy := workers.filter (·.healthy)
  let random ← healthy[pick % healthy.length]?
  let url := match bucket with
    | none => random.url
    | some bucket =>
      if imbalanced bucket.charsPerUrl then
        let least := bucket.charsPerUrl.items.filter fun item => bucket.charsPerUrl.values.all (item.2 ≤ ·)
        (least[tie % least.length]?).elim random.url Prod.fst
      else
        match bucket.findBoundary charCount with
        | some url => if url = "" then random.url else url
        | none => random.url
  workers.findIdx? (·.url = url)

theorem findFrom_mem {url : Url} {fuel left right : Nat} (found : findFrom boundary charCount fuel left right = some url) :
    url ∈ boundary.map Boundary.url := by
  induction fuel generalizing left right with
  | zero => cases found
  | succ fuel ih =>
    simp only [findFrom] at found
    obtain ⟨-,found⟩ := ite_none_right_eq_some.mp found
    obtain ⟨part,stored,found⟩ := bind_eq_some_iff.mp found
    split at found
    · exact ih found
    split at found
    · exact ih found
    · exact Option.some.inj found ▸ mem_map_of_mem (mem_of_getElem? stored)

end Hypic.Buckets
