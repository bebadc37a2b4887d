import Hypic.Lightning

/-! The SegLA backend keeps the last plan under the identity of its forward batch. An identity is an address: it tells
    apart the objects that are alive, and names another object once the first is gone. -/

namespace Hypic.PlanCache
open Policy Request Lightning Option
universe u
variable {Hash : Type u} [DecidableEq Hash]

/-- A plan with the rows and the program that seam recompute adds. -/
abbrev FullPlan := PicPlan × PassRows

/-- `_pic_get_or_build_plan` without the cache. -/
def buildPlan (picMode : PICMode) (batch : List (Req Hash)) (qTotal : Nat) : Option FullPlan :=
  (picGetOrBuildPlan picMode.policy.recompute batch qTotal).bind fun plan =>
    if picMode.policy.recompute then (passRows plan).map fun rows => (plan,rows) else some (plan,⟨[],[]⟩)

structure CacheKey where
  id : Nat
  picMode : PICMode
  qTotal : Nat
  deriving DecidableEq, Repr

structure Backend where
  picPlanCacheKey : Option CacheKey
  picPlanCacheValue : Option FullPlan

/-- A batch that cannot be planned raises and leaves the cache as it is. -/
def getOrBuildPlan (backend : Backend) (id : Nat) (batch : List (Req Hash)) (picMode : PICMode) (qTotal : Nat) :
    Option FullPlan × Backend :=
  let cacheKey : CacheKey := ⟨id,picMode,qTotal⟩
  if backend.picPlanCacheKey = some cacheKey then (backend.picPlanCacheValue,backend)
  else
    match buildPlan picMode batch qTotal with
    | some plan => (some plan,⟨some cacheKey,some plan⟩)
    | none => (none,backend)

/-- A forward batch with the number of objects created before it. -/
structure ForwardBatch (Hash : Type u) where
  serial : Nat
  reqs : List (Req Hash)

/-- What a layer call returned, and the plan of its batch. -/
structure Call where
  returned : Option FullPlan
  fresh : Option FullPlan

structure State (Hash : Type u) where
  /-- The objects that are alive, by address. -/
  heap : Dict Nat (ForwardBatch Hash)
  created : Nat
  backend : Backend
  /-- The object whose plan is in the cache. -/
  filledBy : Option Nat
  calls : List Call

def State.start : State Hash := ⟨.empty,0,⟨none,none⟩,none,[]⟩

inductive Action (Hash : Type u) where
  | create (address : Nat) (reqs : List (Req Hash))
  | delete (address : Nat)
  | call (address : Nat) (picMode : PICMode) (qTotal : Nat)

/-- An object is created where none is alive; a layer is called with one that is. -/
def step (state : State Hash) : Action Hash → Option (State Hash)
  | .create address reqs =>
    if (state.heap.get? address).isNone then
      some { state with heap := state.heap.set address ⟨state.created,reqs⟩, created := state.created + 1 }
    else none
  | .delete address => some { state with heap := state.heap.erase address }
  | .call address picMode qTotal =>
    (state.heap.get? address).map fun batch =>
      let result := getOrBuildPlan state.backend address batch.reqs picMode qTotal
      let rebuilt := state.backend.picPlanCacheKey ≠ some ⟨address,picMode,qTotal⟩ ∧ result.1.isSome = true
      { state with
        backend := result.2
        filledBy := if rebuilt then some batch.serial else state.filledBy
        calls := state.calls ++ [⟨result.1,buildPlan picMode batch.reqs qTotal⟩] }

/-- No layer is called with a batch that has taken over the address, mode and token count of an earlier batch
    whose plan is still cached. -/
def NotTakenOver (state : State Hash) : Action Hash → Prop
  | .call address picMode qTotal => state.backend.picPlanCacheKey = some ⟨address,picMode,qTotal⟩ →
      ∀ batch ∈ state.heap.get? address, state.filledBy = some batch.serial
  | _ => True

instance (state : State Hash) : (action : Action Hash) → Decidable (NotTakenOver state action)
  | .create .. => isTrue trivial
  | .delete _ => isTrue trivial
  | .call address picMode qTotal => inferInstanceAs (Decidable (state.backend.picPlanCacheKey = some ⟨address,picMode,qTotal⟩ →
      ∀ batch ∈ state.heap.get? address, state.filledBy = some batch.serial))

/-- The cached plan is that of the object it was filled by, as long as that object is alive. -/
structure Sound (state : State Hash) : Prop where
  numbered : ∀ address batch, state.heap.get? address = some batch → batch.serial < state.created
  filled : ∀ serial, state.filledBy = some serial → serial < state.created
  exact : ∀ key, state.backend.picPlanCacheKey = some key → ∀ address batch, state.heap.get? address = some batch →
    state.filledBy = some batch.serial → state.backend.picPlanCacheValue = buildPlan key.picMode batch.reqs key.qTotal
  single : ∀ left right first second, state.heap.get? left = some first → state.heap.get? right = some second →
    first.serial = second.serial → left = right
  fresh : ∀ call ∈ state.calls, call.returned = call.fresh

theorem start_sound : Sound (State.start : State Hash) where
  numbered := by intro address batch found; simp [State.start] at found
  filled := by intro serial filled; cases filled
  exact := by intro key cached; cases cached
  single := by intro left right first second found; simp [State.start] at found
  fresh := by intro call member; cases member

variable {state next : State Hash}

theorem create_sound {address : Nat} {reqs : List (Req Hash)} (sound : Sound state)
    (stepped : step state (.create address reqs) = some next) : Sound next := by
  simp only [step] at stepped
  split at stepped
  · rename_i free
    cases stepped
    have unused := isNone_iff_eq_none.mp free
    have found {other : Nat} {batch : ForwardBatch Hash}
        (looked : (state.heap.set address ⟨state.created,reqs⟩).get? other = some batch) :
        (other = address ∧ batch = ⟨state.created,reqs⟩) ∨ state.heap.get? other = some batch := by
      rw [Dict.get?_set] at looked
      split at looked
      · rename_i same
        exact .inl ⟨same,(some.inj looked).symm⟩
      · exact .inr looked
    refine ⟨?_,?_,?_,?_,sound.fresh⟩
    · intro other batch looked
      rcases found looked with ⟨-,rfl⟩ | older
      · exact Nat.lt_succ_self _
      · exact Nat.lt_succ_of_lt (sound.numbered other batch older)
    · intro serial filled
      exact Nat.lt_succ_of_lt (sound.filled serial filled)
    · intro key cached other batch looked filled
      rcases found looked with ⟨-,rfl⟩ | older
      · exact absurd (sound.filled _ filled) (lt_irrefl _)
      · exact sound.exact key cached other batch older filled
    · intro left right first second foundLeft foundRight same
      rcases found foundLeft with ⟨rfl,rfl⟩ | olderLeft <;> rcases found foundRight with ⟨rfl,rfl⟩ | olderRight
      · rfl
      · have bound := sound.numbered right second olderRight
        exact absurd same bound.ne'
      · have bound := sound.numbered left first olderLeft
        exact absurd same bound.ne
      · exact sound.single left right first second olderLeft olderRight same
  · cases stepped

theorem delete_sound {address : Nat} (sound : Sound state)
    (stepped : step state (.delete address) = some next) : Sound next := by
  cases some.inj stepped
  have alive {other : Nat} {batch : ForwardBatch Hash} (looked : (state.heap.erase address).get? other = some batch) :
      state.heap.get? other = some batch := by
    rw [Dict.get?_erase] at looked
    split at looked
    · cases looked
    · exact looked
  exact ⟨fun other batch looked => sound.numbered other batch (alive looked),sound.filled,
    fun key cached other batch looked => sound.exact key cached other batch (alive looked),
    fun left right first second foundLeft foundRight => sound.single left right first second (alive foundLeft) (alive foundRight),
    sound.fresh⟩

theorem getOrBuildPlan_cases (backend : Backend) (id : Nat) (batch : List (Req Hash)) (picMode : PICMode) (qTotal : Nat) :
    (backend.picPlanCacheKey = some ⟨id,picMode,qTotal⟩ ∧
      getOrBuildPlan backend id batch picMode qTotal = (backend.picPlanCacheValue,backend)) ∨
    (backend.picPlanCacheKey ≠ some ⟨id,picMode,qTotal⟩ ∧ ∃ plan, buildPlan picMode batch qTotal = some plan ∧
      getOrBuildPlan backend id batch picMode qTotal = (some plan,⟨some ⟨id,picMode,qTotal⟩,some plan⟩)) ∨
    (backend.picPlanCacheKey ≠ some ⟨id,picMode,qTotal⟩ ∧ buildPlan picMode batch qTotal = none ∧
      getOrBuildPlan backend id batch picMode qTotal = (none,backend)) := by
  by_cases cached : backend.picPlanCacheKey = some ⟨id,picMode,qTotal⟩
  · exact .inl ⟨cached,if_pos cached⟩
  · cases built : buildPlan picMode batch qTotal with
    | some plan => exact .inr (.inl ⟨cached,plan,rfl,by simp [getOrBuildPlan,cached,built]⟩)
    | none => exact .inr (.inr ⟨cached,rfl,by simp [getOrBuildPlan,cached,built]⟩)

theorem call_sound {address qTotal : Nat} {picMode : PICMode} (sound : Sound state)
    (guarded : NotTakenOver state (.call address picMode qTotal)) (stepped : step state (.call address picMode qTotal) = some next) :
    Sound next := by
  obtain ⟨batch,alive,rfl⟩ := map_eq_some_iff.mp stepped
  -- in every case the call returns the plan of its batch
  have logged {outcome : Option FullPlan} (same : outcome = buildPlan picMode batch.reqs qTotal) :
      ∀ call ∈ state.calls ++ [⟨outcome,buildPlan picMode batch.reqs qTotal⟩], call.returned = call.fresh := by
    intro call member
    rcases List.mem_append.mp member with earlier | last
    · exact sound.fresh call earlier
    · rw [List.mem_singleton.mp last]
      exact same
  rcases getOrBuildPlan_cases state.backend address batch.reqs picMode qTotal with
    ⟨cached,result⟩ | ⟨other,plan,built,result⟩ | ⟨other,failed,result⟩
  · have own := guarded cached batch alive
    have same := sound.exact _ cached address batch alive own
    simp only [result,cached,ne_eq,not_true_eq_false,false_and,if_false]
    exact ⟨sound.numbered,sound.filled,sound.exact,sound.single,logged same⟩
  · simp only [result,other,ne_eq,not_false_eq_true,isSome_some,and_self,if_true]
    refine ⟨sound.numbered,?_,?_,sound.single,logged built.symm⟩
    · intro serial filled
      exact some.inj filled ▸ sound.numbered address batch alive
    · intro key cached place found looked filled
      cases some.inj cached
      obtain rfl := sound.single place address found batch looked alive (some.inj filled).symm
      obtain rfl := some.inj (looked.symm.trans alive)
      exact built.symm
  · simp only [result,isSome_none,false_eq_true,and_false,if_false]
    exact ⟨sound.numbered,sound.filled,sound.exact,sound.single,logged failed.symm⟩

/-- Every layer call of a run is given the plan of its own batch, if no batch takes over the key of a cached plan. -/
theorem cached_plan_fresh (history : List (Action Hash)) (final : State Hash)
    (guarded : Runs.Guarded step NotTakenOver State.start history) (executed : Runs.run step State.start history = some final) :
    ∀ call ∈ final.calls, call.returned = call.fresh := by
  refine (Runs.run_keeps Sound ?_ start_sound guarded executed).fresh
  intro state action next sound allowed stepped
  cases action with
  | create address reqs => exact create_sound sound stepped
  | delete address => exact delete_sound sound stepped
  | call address picMode qTotal => exact call_sound sound allowed stepped

/-- A request of one segment, or of two, that finds nothing in the cache. -/
def coldRequest (parts : List (List Token)) : Req (List Token) :=
  let req : Req (List Token) := Req.create parts false 1
  { req with picMissSegments := req.picSegments, picMissTokenPositions := List.range req.originInputIds.length }

/-- Two layers of one batch, and two of the next one elsewhere. -/
def twoSteps (second : Nat) : List (Action (List Token)) :=
  [.create 100 [coldRequest [[1,2]]],.call 100 .transition 2,.call 100 .transition 2,.delete 100,
    .create second [coldRequest [[4],[5]]],.call second .transition 2]

theorem cached_plan_fresh_elsewhere :
    ∃ final, Runs.run step State.start (twoSteps 200) = some final ∧ final.calls.length = 3 ∧
      ∀ call ∈ final.calls, call.returned = call.fresh := by
  have counted : (Runs.run step State.start (twoSteps 200)).map (·.calls.length) = some 3 := by decide +kernel
  obtain ⟨final,executed,three⟩ := map_eq_some_iff.mp counted
  exact ⟨final,executed,three,cached_plan_fresh (twoSteps 200) final (by decide +kernel) executed⟩

/-- The second batch lies at the address of the first one and has as many tokens: it is given the first one's plan. -/
theorem stale_plan_returned :
    ∃ final, Runs.run step State.start (twoSteps 100) = some final ∧ ¬ ∀ call ∈ final.calls, call.returned = call.fresh := by
  let ranges (plan : Option FullPlan) : Option (List Seg) := plan.map fun plan => plan.1.missRecords.map MissRecord.seg
  have last : ((Runs.run step State.start (twoSteps 100)).bind (·.calls.getLast?)).map
      (fun call => (ranges call.returned,ranges call.fresh)) = some (some [(0,2)],some [(0,1),(1,2)]) := by decide +kernel
  obtain ⟨call,called,different⟩ := map_eq_some_iff.mp last
  obtain ⟨final,executed,isLast⟩ := bind_eq_some_iff.mp called
  refine ⟨final,executed,fun all => ?_⟩
  rw [all call (List.mem_of_getLast? isLast),Prod.mk.injEq] at different
  exact absurd (different.1.symm.trans different.2) (by decide)

end Hypic.PlanCache
