import Mathlib.Data.List.Sort
import Mathlib.Tactic.FieldSimp
import Mathlib.Tactic.Positivity
import Mathlib.Data.Rat.Cast.Order
import Hypic.Dict
import Hypic.Makespan
import Hypic.Router

/-! The router's placement of scatter segments: a segment in the directory goes to its holder, the others in
    turn, or longest first to the worker with the least load. -/

namespace Hypic.Assign
open Router Makespan List Dict
variable {i : Nat} {seg : Text}

def asBytes (text : Text) : List UInt8 := text.flatMap String.utf8EncodeChar
def len (text : Text) : Nat := (asBytes text).length

/-- FNV-1a over the bytes. -/
def textHash (text : Text) : UInt64 :=
  (asBytes text).foldl (fun h byte => (h ^^^ byte.toUInt64) * 0x100000001b3) 0xcbf29ce484222325

structure PicRouteState where
  dir : Dict UInt64 Url
  rrCursor : Nat
  loads : Dict Url Nat

/-- `loads.get(url).copied().unwrap_or(0)` -/
def loadOf (loads : Dict Url Nat) (url : Url) : Nat := (loads.get? url).getD 0

/-- `min_by_key` over the workers: the first of those with the least load. -/
def leastLoaded (loads : Dict Url Nat) : List Url → Option Url
  | [] => none
  | url::rest =>
    match leastLoaded loads rest with
    | none => some url
    | some best => if loadOf loads url ≤ loadOf loads best then some url else some best

/-- A miss of the round robin takes the next worker. -/
def assignRoundRobin (workers : List Url) : List Text → PicRouteState → PicRouteState × List Url
  | [], state => (state,[])
  | seg::rest, state =>
    match state.dir.get? (textHash seg) with
    | some holder =>
      let (state,out) := assignRoundRobin workers rest state
      (state,holder::out)
    | none =>
      let url := workers.getD (state.rrCursor % workers.length) []
      let (state,out) := assignRoundRobin workers rest
        { state with rrCursor := (state.rrCursor + 1) % 2 ^ 64, dir := state.dir.set (textHash seg) url }
      (state,url::out)

def charge (loads : Dict Url Nat) (url : Url) (amount : Nat) : Dict Url Nat := loads.set url (loadOf loads url + amount)

/-- One miss of the second pass. A repeated segment has its holder from the first time and adds no load. -/
def placeMiss (workers : List Url) (run : PicRouteState × List Url) (miss : Text × Nat) : PicRouteState × List Url :=
  match run.1.dir.get? (textHash miss.1) with
  | some holder => (run.1,run.2.set miss.2 holder)
  | none =>
    match leastLoaded run.1.loads workers with
    | none => run
    | some url =>
      ({ run.1 with loads := charge run.1.loads url (len miss.1), dir := run.1.dir.set (textHash miss.1) url },
        run.2.set miss.2 url)

/-- The misses with their places, longest first; equally long ones keep their order. -/
def missIndices (segs : List Text) (dir : Dict UInt64 Url) : List (Text × Nat) :=
  (segs.zipIdx.filter fun item => (dir.get? (textHash item.1)).isNone).insertionSort fun a b => len b.1 ≤ len a.1

def assignLpt (segs : List Text) (workers : List Url) (state : PicRouteState) : PicRouteState × List Url :=
  (missIndices segs state.dir).foldl (placeMiss workers)
    (state,segs.map fun seg => (state.dir.get? (textHash seg)).getD [])

def assignWithDirectory (segs : List Text) (workers : List Url) (state : PicRouteState) (lpt : Bool) :
    PicRouteState × List Url :=
  if workers = [] then (state,[])
  else if lpt then assignLpt segs workers state
  else assignRoundRobin workers segs state

/-! ### The least loaded worker -/

def Least (loads : Dict Url Nat) (workers : List Url) (url : Url) : Prop :=
  url ∈ workers ∧ ∀ other ∈ workers, loadOf loads url ≤ loadOf loads other

theorem leastLoaded_spec (loads : Dict Url Nat) {workers : List Url} (staffed : workers ≠ []) :
    ∃ url, leastLoaded loads workers = some url ∧ Least loads workers url := by
  induction workers with
  | nil => exact absurd rfl staffed
  | cons url rest ih =>
    rw [leastLoaded]
    cases rest with
    | nil => exact ⟨url,rfl,by simp [Least]⟩
    | cons next rest =>
      obtain ⟨best,found,member,least⟩ := ih (cons_ne_nil _ _)
      rw [found]
      by_cases less : loadOf loads url ≤ loadOf loads best
      · refine ⟨url,if_pos less,mem_cons_self,forall_mem_cons.mpr ⟨le_rfl,fun other later => ?_⟩⟩
        exact less.trans (least other later)
      · exact ⟨best,if_neg less,mem_cons_of_mem url member,forall_mem_cons.mpr ⟨by omega,least⟩⟩

theorem loadOf_charge (loads : Dict Url Nat) (url sought : Url) (amount : Nat) :
    loadOf (charge loads url amount) sought = loadOf loads sought + if sought = url then amount else 0 := by
  rw [loadOf,charge,get?_set]
  by_cases here : sought = url
  · simp [here]
  · simp [here,loadOf]

/-! ### The second pass -/

/-- Segments charged in order, each to a worker that has the least load at that moment. -/
def Charged (workers : List Url) : Dict Url Nat → List (Text × Url) → Dict Url Nat → Prop
  | loads, [], final => final = loads
  | loads, (seg,url)::rest, final => Least loads workers url ∧ Charged workers (charge loads url (len seg)) rest final

/-- The loads after segments of these lengths: the choice of the worker looks at nothing else. -/
def chargeAll (workers : List Url) : Dict Url Nat → List Nat → Dict Url Nat
  | loads, [] => loads
  | loads, amount::rest => chargeAll workers (charge loads ((leastLoaded loads workers).getD []) amount) rest

variable {workers : List Url}

theorem placeMiss_step (staffed : workers ≠ []) (run : PicRouteState × List Url) (miss : Text × Nat) :
    ∃ holder, (placeMiss workers run miss).2 = run.2.set miss.2 holder ∧
      (∀ h found, run.1.dir.get? h = some found → (placeMiss workers run miss).1.dir.get? h = some found) ∧
      (placeMiss workers run miss).1.dir.get? (textHash miss.1) = some holder := by
  unfold placeMiss
  cases held : run.1.dir.get? (textHash miss.1) with
  | some holder => exact ⟨holder,rfl,fun _ _ found => found,held⟩
  | none =>
    obtain ⟨url,chosen,_⟩ := leastLoaded_spec run.1.loads staffed
    simp only [chosen]
    refine ⟨url,rfl,fun h found isFound => ?_,get?_set_same ..⟩
    rw [get?_set_other _ _ (by rintro rfl; rw [held] at isFound; cases isFound)]
    exact isFound

section
variable (staffed : workers ≠ []) (misses : List (Text × Nat)) (run : PicRouteState × List Url)
include staffed misses run

theorem placeMisses_keep {h : UInt64} {holder : Url} (found : run.1.dir.get? h = some holder) :
    (misses.foldl (placeMiss workers) run).1.dir.get? h = some holder := by
  induction misses generalizing run with
  | nil => exact found
  | cons miss rest ih =>
    obtain ⟨_,_,kept,_⟩ := placeMiss_step staffed run miss
    exact ih _ (kept h holder found)

theorem placeMisses_out (inside : ∀ miss ∈ misses, miss.2 < run.2.length) (distinct : (misses.map Prod.snd).Nodup) :
    let final := misses.foldl (placeMiss workers) run
    (∀ i, i ∉ misses.map Prod.snd → final.2[i]? = run.2[i]?) ∧
      ∀ miss ∈ misses, ∃ holder, final.2[miss.2]? = some holder ∧ final.1.dir.get? (textHash miss.1) = some holder := by
  induction misses generalizing run with
  | nil => simp
  | cons miss rest ih =>
    obtain ⟨fresh,restDistinct⟩ := nodup_cons.mp distinct
    obtain ⟨here,later⟩ := forall_mem_cons.mp inside
    obtain ⟨holder,out,_,written⟩ := placeMiss_step staffed run miss
    obtain ⟨others,places⟩ := ih (placeMiss workers run miss) (by rw [out]; simpa using later) restDistinct
    simp only [foldl_cons]
    refine ⟨fun i absent => ?_,forall_mem_cons.mpr ⟨⟨holder,?_,placeMisses_keep staffed rest _ written⟩,places⟩⟩
    · simp only [map_cons,mem_cons,not_or] at absent
      rw [others i absent.2,out,getElem?_set_ne (Ne.symm absent.1)]
    · rw [others miss.2 fresh,out,getElem?_set_self here]

theorem placeMisses_charged :
    let final := misses.foldl (placeMiss workers) run
    ∃ charged : List (Text × Url), (charged.map Prod.fst).Sublist (misses.map Prod.fst) ∧
      (charged.map fun item => textHash item.1).Nodup ∧
      (∀ h, h ∈ charged.map (fun item => textHash item.1) ↔ h ∈ misses.map (fun miss => textHash miss.1) ∧ run.1.dir.get? h = none) ∧
      Charged workers run.1.loads charged final.1.loads ∧
      final.1.loads = chargeAll workers run.1.loads (charged.map fun item => len item.1) ∧
      ∀ item ∈ charged, final.1.dir.get? (textHash item.1) = some item.2 := by
  induction misses generalizing run with
  | nil => exact ⟨[],by simp [Charged,chargeAll]⟩
  | cons miss rest ih =>
    obtain ⟨charged,sub,once,which,loads,all,holders⟩ := ih (placeMiss workers run miss)
    rw [foldl_cons]
    cases held : run.1.dir.get? (textHash miss.1) with
    | some holder =>
      have stays : (placeMiss workers run miss).1 = run.1 := by simp [placeMiss,held]
      rw [stays] at which loads all
      refine ⟨charged,sub.cons _,once,fun h => ?_,loads,all,holders⟩
      rw [which,map_cons,mem_cons]
      refine ⟨fun both => ⟨.inr both.1,both.2⟩,fun both => ⟨both.1.resolve_left ?_,both.2⟩⟩
      rintro rfl
      rw [held] at both
      cases both.2
    | none =>
      obtain ⟨url,chosen,least⟩ := leastLoaded_spec run.1.loads staffed
      have next : (placeMiss workers run miss).1 =
          { run.1 with loads := charge run.1.loads url (len miss.1), dir := run.1.dir.set (textHash miss.1) url } := by
        simp [placeMiss,held,chosen]
      rw [next] at which loads all
      dsimp only at which loads all
      refine ⟨(miss.1,url)::charged,sub.cons_cons _,nodup_cons.mpr ⟨fun again => ?_,once⟩,fun h => ?_,⟨least,loads⟩,?_,?_⟩
      · have taken := ((which _).mp again).2
        rw [get?_set_same] at taken
        cases taken
      · rw [map_cons,map_cons,mem_cons,mem_cons,which]
        by_cases same : h = textHash miss.1
        · subst same
          exact ⟨fun _ => ⟨.inl rfl,held⟩,fun _ => .inl rfl⟩
        · simp only [same,false_or,get?_set_other _ _ same]
      · rw [all,map_cons,chargeAll,chosen]
        rfl
      · refine forall_mem_cons.mpr ⟨?_,holders⟩
        exact placeMisses_keep staffed rest _ (by rw [next]; exact get?_set_same ..)

/-! ### The whole call -/

end

theorem mem_missIndices {segs : List Text} {dir : Dict UInt64 Url} (miss : Text × Nat) :
    miss ∈ missIndices segs dir ↔ segs[miss.2]? = some miss.1 ∧ dir.get? (textHash miss.1) = none := by
  rw [missIndices,(perm_insertionSort _ _).mem_iff,mem_filter,mem_zipIdx_iff_getElem?]
  simp

theorem mem_missTexts {segs : List Text} {dir : Dict UInt64 Url} (seg : Text) :
    seg ∈ (missIndices segs dir).map Prod.fst ↔ seg ∈ segs ∧ dir.get? (textHash seg) = none := by
  rw [mem_map,mem_iff_getElem?]
  constructor
  · rintro ⟨miss,member,rfl⟩
    obtain ⟨here,absent⟩ := (mem_missIndices miss).mp member
    exact ⟨⟨miss.2,here⟩,absent⟩
  · rintro ⟨⟨i,here⟩,absent⟩
    exact ⟨(seg,i),(mem_missIndices _).mpr ⟨here,absent⟩,rfl⟩

theorem missIndices_places (segs : List Text) (dir : Dict UInt64 Url) : ((missIndices segs dir).map Prod.snd).Nodup := by
  refine ((perm_insertionSort _ _).map Prod.snd).nodup_iff.mpr ?_
  refine List.Nodup.sublist ((filter_sublist).map Prod.snd) ?_
  rw [zipIdx_map_snd]
  exact nodup_range'

variable {segs : List Text} (state : PicRouteState)

theorem assignLpt_out (staffed : workers ≠ []) (here : segs[i]? = some seg) :
    ∃ holder, (assignLpt segs workers state).2[i]? = some holder ∧
      (assignLpt segs workers state).1.dir.get? (textHash seg) = some holder := by
  have bound : ∀ miss ∈ missIndices segs state.dir,
      miss.2 < (segs.map fun seg => (state.dir.get? (textHash seg)).getD []).length := by
    intro miss member
    rw [length_map]
    exact (List.getElem?_eq_some_iff.mp ((mem_missIndices miss).mp member).1).1
  obtain ⟨others,places⟩ := placeMisses_out staffed (missIndices segs state.dir) (state,_) bound (missIndices_places _ _)
  cases held : state.dir.get? (textHash seg) with
  | none => exact places (seg,i) ((mem_missIndices _).mpr ⟨here,held⟩)
  | some holder =>
    refine ⟨holder,?_,placeMisses_keep staffed _ (state,_) held⟩
    rw [assignLpt,others i]
    · simp [here,held]
    · intro again
      obtain ⟨miss,member,rfl⟩ := mem_map.mp again
      obtain ⟨same,absent⟩ := (mem_missIndices miss).mp member
      rw [here] at same
      cases same
      rw [held] at absent
      cases absent

theorem assignLpt_charges (staffed : workers ≠ []) :
    ∃ charged : List (Text × Url), (∀ item ∈ charged, item.1 ∈ segs) ∧ (charged.map fun item => textHash item.1).Nodup ∧
      (∀ h, h ∈ charged.map (fun item => textHash item.1) ↔ h ∈ segs.map textHash ∧ state.dir.get? h = none) ∧
      (charged.map fun item => len item.1).Pairwise (· ≥ ·) ∧
      Charged workers state.loads charged (assignLpt segs workers state).1.loads ∧
      (assignLpt segs workers state).1.loads = chargeAll workers state.loads (charged.map fun item => len item.1) ∧
      ∀ item ∈ charged, (assignLpt segs workers state).1.dir.get? (textHash item.1) = some item.2 := by
  obtain ⟨charged,sub,once,which,loads,all,holders⟩ := placeMisses_charged staffed (missIndices segs state.dir)
    (state,segs.map fun seg => (state.dir.get? (textHash seg)).getD [])
  refine ⟨charged,fun item member => ?_,once,fun h => ?_,?_,loads,all,holders⟩
  · exact ((mem_missTexts _).mp (sub.subset (mem_map_of_mem member))).1
  · rw [which,mem_map,mem_map]
    constructor
    · rintro ⟨⟨miss,member,rfl⟩,absent⟩
      exact ⟨⟨miss.1,((mem_missTexts _).mp (mem_map_of_mem member)).1,rfl⟩,absent⟩
    · rintro ⟨⟨seg,member,rfl⟩,absent⟩
      obtain ⟨miss,isMiss,rfl⟩ := mem_map.mp ((mem_missTexts seg).mpr ⟨member,absent⟩)
      exact ⟨⟨miss,isMiss,rfl⟩,absent⟩
  · have sorted : ((missIndices segs state.dir).map Prod.fst).Pairwise fun a b => len b ≤ len a :=
      pairwise_map.mpr (pairwise_insertionSort _ _)
    have := pairwise_map.mp (sorted.sublist sub)
    exact pairwise_map.mpr this

theorem assignLpt_charged (staffed : workers ≠ [])
    (injective : ∀ a ∈ segs, ∀ b ∈ segs, textHash a = textHash b → a = b) :
    ∃ charged : List (Text × Url), (charged.map Prod.fst).Nodup ∧
      (∀ seg, seg ∈ charged.map Prod.fst ↔ seg ∈ segs ∧ state.dir.get? (textHash seg) = none) ∧
      (charged.map fun item => len item.1).Pairwise (· ≥ ·) ∧
      Charged workers state.loads charged (assignLpt segs workers state).1.loads ∧
      (assignLpt segs workers state).1.loads = chargeAll workers state.loads (charged.map fun item => len item.1) ∧
      ∀ item ∈ charged, (assignLpt segs workers state).1.dir.get? (textHash item.1) = some item.2 := by
  obtain ⟨charged,inside,once,which,rest⟩ := @assignLpt_charges workers segs state staffed
  refine ⟨charged,List.Nodup.of_map textHash (by rw [map_map]; exact once),fun seg => ?_,rest⟩
  constructor
  · intro member
    obtain ⟨item,isItem,rfl⟩ := mem_map.mp member
    exact ⟨inside item isItem,((which _).mp (mem_map_of_mem isItem)).2⟩
  · rintro ⟨member,absent⟩
    obtain ⟨item,isItem,same⟩ := mem_map.mp ((which _).mpr ⟨mem_map_of_mem member,absent⟩)
    rw [← injective _ (inside item isItem) seg member same]
    exact mem_map_of_mem isItem

variable {charged : List (Text × Url)} {loads final : Dict Url Nat}

theorem Charged.total
    (done : Charged workers loads charged final) :
    ∑ url ∈ workers.toFinset, loadOf final url =
      ∑ url ∈ workers.toFinset, loadOf loads url + (charged.map fun item => len item.1).sum := by
  induction charged generalizing loads with
  | nil =>
    cases done
    simp
  | cons item rest ih =>
    obtain ⟨least,later⟩ := done
    have member : item.2 ∈ workers.toFinset := mem_toFinset.mpr least.1
    rw [ih later]
    simp only [loadOf_charge,Finset.sum_add_distrib,Finset.sum_ite_eq',member,if_true,map_cons,sum_cons]
    omega

/-- The outcome depends on the set of segments only, equal segments stay together, hits go to their holders and
    the distinct misses are charged once each, to a least loaded worker. -/
theorem lpt_depends_on_set (staffed : workers ≠ [])
    (injective : ∀ a ∈ segs, ∀ b ∈ segs, textHash a = textHash b → a = b) :
    let (final,out) := assignWithDirectory segs workers state true
    (∀ shuffled : List Text, shuffled.Perm segs →
      (assignWithDirectory shuffled workers state true).1.loads = final.loads) ∧
    (∀ i j : Nat, i < segs.length → segs[i]? = segs[j]? → out[i]? = out[j]?) ∧
    (∀ (i : Nat) seg holder, segs[i]? = some seg → state.dir.get? (textHash seg) = some holder → out[i]? = some holder) ∧
    ∃ charged : List (Text × Url), (charged.map Prod.fst).Nodup ∧
      (∀ seg, seg ∈ charged.map Prod.fst ↔ seg ∈ segs ∧ state.dir.get? (textHash seg) = none) ∧
      (∀ (i : Nat) seg url, segs[i]? = some seg → (seg,url) ∈ charged → out[i]? = some url) ∧
      Charged workers state.loads charged final.loads ∧
      ∑ url ∈ workers.toFinset, loadOf final.loads url =
        ∑ url ∈ workers.toFinset, loadOf state.loads url + (charged.map fun item => len item.1).sum := by
  simp only [assignWithDirectory,staffed,if_false,if_true]
  obtain ⟨charged,once,which,sorted,loads,all,holders⟩ := assignLpt_charged state staffed injective
  refine ⟨fun shuffled same => ?_,fun i j inside same => ?_,fun i seg holder here held => ?_,charged,once,which,
    fun i seg url here member => ?_,loads,loads.total⟩
  · have injective' : ∀ a ∈ shuffled, ∀ b ∈ shuffled, textHash a = textHash b → a = b :=
      fun a isA b isB => injective a (same.mem_iff.mp isA) b (same.mem_iff.mp isB)
    obtain ⟨charged',once',which',sorted',_,all',_⟩ := assignLpt_charged state staffed injective'
    have texts : (charged'.map Prod.fst).Perm (charged.map Prod.fst) :=
      (perm_ext_iff_of_nodup once' once).mpr fun seg => by rw [which,which',same.mem_iff]
    have lengths := texts.map len
    simp only [map_map,comp_def] at lengths
    rw [all,all',List.Perm.eq_of_pairwise' sorted' sorted lengths]
  · obtain ⟨seg,here⟩ : ∃ seg, segs[i]? = some seg := ⟨_,getElem?_eq_getElem inside⟩
    obtain ⟨holder,out,dir⟩ := assignLpt_out state staffed here
    obtain ⟨holder',out',dir'⟩ := assignLpt_out state staffed (same ▸ here)
    rw [out,out',← dir,← dir']
  · obtain ⟨found,out,dir⟩ := assignLpt_out state staffed here
    rw [out,← dir]
    exact placeMisses_keep staffed _ (state,_) held
  · obtain ⟨found,out,dir⟩ := assignLpt_out state staffed here
    rw [out,← dir]
    exact holders _ member

/-- Two workers without load and a directory that knows one segment. -/
def twoIdle : PicRouteState := ⟨Dict.empty.set (textHash ['h']) ['b'],0,.empty⟩

theorem reversed_same_loads :
    (assignWithDirectory [['x'],['y','y'],['h'],['x']].reverse [['a'],['b']] twoIdle true).1.loads =
      (assignWithDirectory [['x'],['y','y'],['h'],['x']] [['a'],['b']] twoIdle true).1.loads :=
  (lpt_depends_on_set twoIdle (by decide) (by decide +kernel)).1 _ (reverse_perm _)

/-! ### Distance from the best assignment -/

theorem Charged.lpt {base : Nat} {jobs : List (Nat × Url)}
    (done : Charged workers loads charged final) (placed : Lpt workers.toFinset jobs)
    (start : ∀ url ∈ workers, loadOf loads url = base + load jobs url)
    (sorted : (charged.map fun item => len item.1).Pairwise (· ≥ ·))
    (below : ∀ item ∈ charged, ∀ job ∈ jobs, len item.1 ≤ job.1) :
    Lpt workers.toFinset ((charged.map fun item => (len item.1,item.2)).reverse ++ jobs) ∧
      ∀ url ∈ workers, loadOf final url = base + load ((charged.map fun item => (len item.1,item.2)).reverse ++ jobs) url := by
  induction charged generalizing loads jobs with
  | nil =>
    cases done
    exact ⟨placed,start⟩
  | cons item rest ih =>
    obtain ⟨least,later⟩ := done
    obtain ⟨longest,restSorted⟩ := pairwise_cons.mp sorted
    obtain ⟨shortest,restBelow⟩ := forall_mem_cons.mp below
    have next : Lpt workers.toFinset ((len item.1,item.2)::jobs) := by
      refine .place placed (mem_toFinset.mpr least.1) (fun other member => ?_) shortest
      have isOther := mem_toFinset.mp member
      have order := least.2 other isOther
      rw [start _ least.1,start _ isOther] at order
      omega
    have loaded : ∀ url ∈ workers,
        loadOf (charge loads item.2 (len item.1)) url = base + load ((len item.1,item.2)::jobs) url := by
      intro url member
      rw [loadOf_charge,load_cons,start url member]
      simp only [eq_comm (a := url)]
      omega
    have restShorter : ∀ other ∈ rest, ∀ job ∈ (len item.1,item.2)::jobs, len other.1 ≤ job.1 := fun other member =>
      forall_mem_cons.mpr ⟨longest _ (mem_map.mpr ⟨other,member,rfl⟩),restBelow other member⟩
    simpa using ih later next loaded restSorted restShorter

def largest (workers : List Url) (amount : Url → Nat) : Nat := (workers.map amount).foldr max 0

theorem le_largest {amount : Url → Nat} {url : Url} (member : url ∈ workers) : amount url ≤ largest workers amount := by
  induction workers with
  | nil => cases member
  | cons first rest ih =>
    rcases mem_cons.mp member with rfl | later
    · exact le_max_left ..
    · exact (ih later).trans (le_max_right ..)

theorem largest_attained (amount : Url → Nat) (staffed : workers ≠ []) :
    ∃ url ∈ workers, largest workers amount = amount url := by
  induction workers with
  | nil => exact absurd rfl staffed
  | cons first rest ih =>
    have unfolded : largest (first::rest) amount = max (amount first) (largest rest amount) := rfl
    by_cases more : rest = []
    · subst more
      exact ⟨first,mem_cons_self,by simp [largest]⟩
    · obtain ⟨url,member,same⟩ := ih more
      rcases max_choice (amount first) (largest rest amount) with left | right
      · exact ⟨first,mem_cons_self,unfolded.trans left⟩
      · exact ⟨url,mem_cons_of_mem first member,by rw [unfolded,right,same]⟩

/-- From equal loads, the largest load a call adds is at most 4/3 - 1/(3m) times that of any assignment. -/
theorem lpt_within_graham (staffed : workers ≠ []) (distinct : workers.Nodup) {base : Nat}
    (level : ∀ url ∈ workers, loadOf state.loads url = base) (hashes : (segs.map textHash).Nodup)
    (misses : ∀ seg ∈ segs, state.dir.get? (textHash seg) = none) {other : List Url}
    (parallel : other.length = segs.length) (members : ∀ url ∈ other, url ∈ workers) :
    ((largest workers fun url =>
        loadOf (assignWithDirectory segs workers state true).1.loads url - loadOf state.loads url : Nat) : Rat) ≤
      (4 / 3 - 1 / (3 * workers.length)) * (largest workers fun url => load ((segs.map len).zip other) url : Nat) := by
  simp only [assignWithDirectory,staffed,if_false,if_true]
  have injective : ∀ a ∈ segs, ∀ b ∈ segs, textHash a = textHash b → a = b :=
    fun a isA b isB same => inj_on_of_nodup_map hashes isA isB same
  obtain ⟨charged,once,which,sorted,loads,-,-⟩ := assignLpt_charged state staffed injective
  have start : ∀ url ∈ workers, loadOf state.loads url = base + load [] url := by simpa [load,onMachine] using level
  obtain ⟨placed,added⟩ := loads.lpt .nil start sorted (by simp)
  rw [append_nil] at placed added
  set jobs := (charged.map fun item => (len item.1,item.2)).reverse with isJobs
  have texts : (charged.map Prod.fst).Perm segs := by
    refine (perm_ext_iff_of_nodup once (List.Nodup.of_map _ hashes)).mpr fun seg => ?_
    rw [which]
    exact ⟨And.left,fun member => ⟨member,misses seg member⟩⟩
  have same : (((segs.map len).zip other).map Prod.fst).Perm (jobs.map Prod.fst) := by
    have lengths : jobs.map Prod.fst = ((charged.map Prod.fst).map len).reverse := by
      simp [isJobs,map_reverse,comp_def]
    rw [map_fst_zip (by simp [parallel]),lengths]
    exact (texts.map len).symm.trans (reverse_perm _).symm
  have inside : ∀ job ∈ (segs.map len).zip other, job.2 ∈ workers.toFinset :=
    fun job member => mem_toFinset.mpr (members _ (of_mem_zip member).2)
  obtain ⟨-,bounded⟩ := placed.graham same inside fun url member => le_largest (mem_toFinset.mp member)
  obtain ⟨url,member,most⟩ := largest_attained
    (fun url => loadOf (assignLpt segs workers state).1.loads url - loadOf state.loads url) staffed
  have scaled := bounded url (mem_toFinset.mpr member)
  rw [toFinset_card_of_nodup distinct] at scaled
  have positive : 0 < workers.length := length_pos_iff.mpr staffed
  rw [most,added url member,level url member,Nat.add_sub_cancel_left]
  generalize largest workers _ = bound at scaled ⊢
  have cast : (3 * workers.length * load jobs url : Rat) ≤ (4 * workers.length - 1) * bound := by
    have := (Nat.cast_le (α := Rat)).mpr scaled
    rw [Nat.cast_mul,Nat.cast_mul,Nat.cast_mul,Nat.cast_sub (by omega)] at this
    simpa using this
  have count : (0 : Rat) < 3 * workers.length := by positivity
  have ratio : (4 / 3 - 1 / (3 * workers.length) : Rat) = (4 * workers.length - 1) / (3 * workers.length) := by
    field_simp
  rw [ratio,div_mul_eq_mul_div,le_div_iff₀ count,mul_comm]
  exact cast

theorem two_segments_within_graham :
    ((largest [['a'],['b']] fun url =>
        loadOf (assignWithDirectory [['x'],['y','y']] [['a'],['b']] twoIdle true).1.loads url - loadOf twoIdle.loads url :
          Nat) : Rat) ≤
      (4 / 3 - 1 / (3 * [['a'],['b']].length)) * (largest [['a'],['b']] fun url => load ([1,2].zip [['a'],['a']]) url : Nat) := by
  have level : ∀ url ∈ [['a'],['b']], loadOf twoIdle.loads url = 0 := by decide +kernel
  exact lpt_within_graham twoIdle (by decide) (by decide) level (by decide +kernel) (by decide +kernel) rfl (by decide)

/-! ### The directory across requests -/

/-- A prompt that comes in, with the prefill workers of that moment. -/
structure Request where
  text : Text
  combineAddr : Url
  prefillWorkers : List Url
  generateRoomId : Nat → Room

/-- What happens to the route state: a prompt, or a rebuild with the hashes that the workers report. -/
inductive Action where
  | scatterPrefill (request : Request)
  | rebuild (reports : List (UInt64 × Url))

def Request.route (request : Request) (lpt : Bool) (state : PicRouteState) : Route :=
  ⟨request.combineAddr,request.prefillWorkers,fun segs => (assignWithDirectory segs request.prefillWorkers state lpt).2,
    request.generateRoomId⟩

def step (lpt : Bool) (state : PicRouteState) : Action → PicRouteState
  | .scatterPrefill request =>
    match scatterPrefill (request.route lpt state) request.text with
    | .scattered _ _ => (assignWithDirectory (routedSegments request.text).dropLast request.prefillWorkers state lpt).1
    | _ => state
  | .rebuild reports => { state with dir := Dict.empty.setAll reports, loads := state.loads.filterMap fun load => some (load / 2) }

theorem assignRoundRobin_keep {h : UInt64} {holder : Url} (found : state.dir.get? h = some holder) :
    (assignRoundRobin workers segs state).1.dir.get? h = some holder := by
  induction segs generalizing state with
  | nil => exact found
  | cons seg rest ih =>
    rw [assignRoundRobin]
    cases held : state.dir.get? (textHash seg) with
    | some other => exact ih _ found
    | none =>
      refine ih _ ?_
      rw [get?_set_other _ _ (by rintro rfl; rw [held] at found; cases found)]
      exact found

/-- The round robin assigns what the directory says at the end: the recorded holder or, of a miss, one of the workers. -/
theorem assignRoundRobin_out (staffed : workers ≠ []) (here : segs[i]? = some seg) :
    ∃ holder, (assignRoundRobin workers segs state).2[i]? = some holder ∧
      (assignRoundRobin workers segs state).1.dir.get? (textHash seg) = some holder ∧
      (state.dir.get? (textHash seg) = none → holder ∈ workers) := by
  induction segs generalizing state i with
  | nil => cases here
  | cons first rest ih =>
    rw [assignRoundRobin]
    cases held : state.dir.get? (textHash first) with
    | some holder =>
      cases i with
      | zero =>
        cases here
        exact ⟨holder,rfl,assignRoundRobin_keep state held,fun absent => by rw [held] at absent; cases absent⟩
      | succ i => exact ih state here
    | none =>
      have bound := Nat.mod_lt state.rrCursor (length_pos_iff.mpr staffed)
      have inside : workers.getD (state.rrCursor % workers.length) [] ∈ workers := by
        simp [getD_eq_getElem?_getD,getElem?_eq_getElem bound]
      generalize workers.getD (state.rrCursor % workers.length) [] = url at inside ⊢
      set next : PicRouteState := { state with rrCursor := (state.rrCursor + 1) % 2 ^ 64, dir := state.dir.set (textHash first) url }
      have recorded : (assignRoundRobin workers rest next).1.dir.get? (textHash first) = some url :=
        assignRoundRobin_keep next (get?_set_same ..)
      cases i with
      | zero =>
        cases here
        exact ⟨url,rfl,recorded,fun _ => inside⟩
      | succ i =>
        obtain ⟨holder,out,dir,member⟩ := ih next here
        refine ⟨holder,out,dir,fun absent => ?_⟩
        by_cases same : textHash seg = textHash first
        · rw [same,recorded] at dir
          cases dir
          exact inside
        · exact member ((get?_set_other _ _ same).trans absent)

theorem Charged.member (done : Charged workers loads charged final) :
    ∀ item ∈ charged, item.2 ∈ workers := by
  induction charged generalizing loads with
  | nil => nofun
  | cons item rest ih => exact forall_mem_cons.mpr ⟨done.1.1,ih done.2⟩

/-- Either way a segment is assigned what the directory says at the end: its recorded holder or, of a miss, one of the workers. -/
theorem assignWithDirectory_out (staffed : workers ≠ []) (lpt : Bool) (here : segs[i]? = some seg) :
    ∃ holder, (assignWithDirectory segs workers state lpt).2[i]? = some holder ∧
      (assignWithDirectory segs workers state lpt).1.dir.get? (textHash seg) = some holder ∧
      (state.dir.get? (textHash seg) = none → holder ∈ workers) ∧
      ∀ recorded, state.dir.get? (textHash seg) = some recorded → holder = recorded := by
  cases lpt with
  | false =>
    obtain ⟨holder,out,dir,member⟩ := assignRoundRobin_out state staffed here
    simp only [assignWithDirectory,staffed,if_false,false_eq_true]
    refine ⟨holder,out,dir,member,fun recorded found => ?_⟩
    exact Option.some.inj (dir.symm.trans (assignRoundRobin_keep state found))
  | true =>
    obtain ⟨holder,out,dir⟩ := assignLpt_out state staffed here
    obtain ⟨charged,-,-,which,-,done,-,holders⟩ := @assignLpt_charges workers segs state staffed
    simp only [assignWithDirectory,staffed,if_false,if_true]
    refine ⟨holder,out,dir,fun absent => ?_,fun recorded found => ?_⟩
    · obtain ⟨item,isItem,same⟩ := mem_map.mp ((which _).mpr ⟨mem_map_of_mem (mem_of_getElem? here),absent⟩)
      have held := holders item isItem
      rw [same,dir] at held
      exact Option.some.inj held ▸ done.member item isItem
    · exact Option.some.inj (dir.symm.trans (placeMisses_keep staffed _ (state,_) found))

/-- One worker `a`, then one worker `b`; the same segment twice. -/
def comes (workers : List Url) : Request := ⟨"s<<PIC_SEP>>q".toList,['c'],workers,id⟩

end Hypic.Assign
