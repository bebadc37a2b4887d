import Mathlib.Algebra.GroupWithZero.Nat
import Mathlib.Tactic.Common
import Hypic.Runs

/-! The router's circuit breaker of one worker, with the requests it has admitted. Calls are whole steps, as each
    takes the breaker's lock. -/

namespace Hypic.Breaker

structure CircuitBreakerConfig where
  threshold : Nat
  coolDown : Nat

inductive State where
  | closed
  | opened (openedAt : Nat)
  | halfOpen (probeInFlight : Bool)
deriving DecidableEq

structure Inner where
  state : State
  consecutiveFailures : Nat
deriving DecidableEq

def allow (config : CircuitBreakerConfig) (now : Nat) (inner : Inner) : Bool × Inner :=
  match inner.state with
  | .closed => (true,inner)
  | .opened openedAt =>
    if config.coolDown ≤ now - openedAt then (true,{ inner with state := .halfOpen true }) else (false,inner)
  | .halfOpen probeInFlight =>
    if probeInFlight then (false,inner) else (true,{ inner with state := .halfOpen true })

def recordSuccess : Inner := ⟨.closed,0⟩

def recordFailure (config : CircuitBreakerConfig) (now : Nat) (inner : Inner) : Inner :=
  match inner.state with
  | .opened _ => inner
  | _ =>
    let consecutiveFailures := (inner.consecutiveFailures + 1) % 2 ^ 32
    if config.threshold ≤ consecutiveFailures then ⟨.opened now,consecutiveFailures⟩
    else { inner with consecutiveFailures }

/-- The breaker, the time of the last call, and the admitted requests without an outcome, numbered by admission. -/
structure Traffic where
  inner : Inner
  now : Nat
  admitted : Nat
  outstanding : List Nat
  numbered : ∀ request ∈ outstanding, request < admitted
deriving DecidableEq

def start : Traffic := ⟨⟨.closed,0⟩,0,0,[],nofun⟩

inductive Call where
  | allow
  | recordSuccess (request : Nat)
  | recordFailure (request : Nat)
deriving DecidableEq

/-- The outcome of a request changes the breaker. -/
def Traffic.settle (traffic : Traffic) (now request : Nat) (inner : Inner) : Traffic :=
  ⟨inner,now,traffic.admitted,traffic.outstanding.erase request,fun other present => traffic.numbered other (List.mem_of_mem_erase present)⟩

/-- A call at a time. Only an outstanding request records an outcome. -/
def step (config : CircuitBreakerConfig) (traffic : Traffic) : Nat × Call → Option Traffic
  | (now,call) =>
    if now < traffic.now then none
    else match call with
      | .allow =>
        let (admits,inner) := allow config now traffic.inner
        if admits then some ⟨inner,now,traffic.admitted + 1,traffic.admitted::traffic.outstanding,by
          have := traffic.numbered
          grind⟩
        else some { traffic with inner, now }
      | .recordSuccess request => if request ∈ traffic.outstanding then some (traffic.settle now request recordSuccess) else none
      | .recordFailure request =>
        if request ∈ traffic.outstanding then some (traffic.settle now request (recordFailure config now traffic.inner)) else none

/-- The outstanding requests admitted from a number on. -/
def Traffic.since (traffic : Traffic) (first : Nat) : Nat := traffic.outstanding.countP (first ≤ ·)

/-- Isolation after an opening: nothing is admitted before the cool-down is over, and one request at a time. -/
def Isolated (config : CircuitBreakerConfig) (openedAt first : Nat) (traffic : Traffic) : Prop :=
  (∀ now, traffic.now ≤ now → (allow config now traffic.inner).1 = true → openedAt + config.coolDown ≤ now) ∧
    traffic.since first ≤ 1

/-- No request succeeds, and an older one fails only while the breaker is open, which ignores it. -/
def Quiet (first : Nat) (traffic : Traffic) : Nat × Call → Prop
  | (_,.allow) => True
  | (_,.recordSuccess _) => False
  | (_,.recordFailure request) => first ≤ request ∨ ∃ openedAt, traffic.inner.state = .opened openedAt

variable {config : CircuitBreakerConfig} {traffic next final : Traffic} {openedAt first : Nat}

/-- What holds from an opening on: the breaker is open and nothing new is outstanding, or it waits for its probe. -/
structure Watched (config : CircuitBreakerConfig) (openedAt first : Nat) (traffic : Traffic) : Prop where
  known : first ≤ traffic.admitted
  later : openedAt ≤ traffic.now
  guarded : (∃ reopenedAt, traffic.inner.state = .opened reopenedAt ∧ openedAt ≤ reopenedAt ∧ traffic.since first = 0) ∨
    traffic.inner.state = .halfOpen true ∧ openedAt + config.coolDown ≤ traffic.now ∧ traffic.since first ≤ 1

theorem Watched.isolated (watched : Watched config openedAt first traffic) : Isolated config openedAt first traffic := by
  have later := watched.later
  rcases watched.guarded with ⟨reopenedAt,state,after,none⟩ | ⟨state,cooled,one⟩
  · refine ⟨fun now passed admits => ?_,by omega⟩
    simp only [allow,state] at admits
    split at admits
    · omega
    · cases admits
  · exact ⟨fun now passed admits => by simp [allow,state] at admits,one⟩

theorem since_settle {now request : Nat} {inner : Inner} (present : request ∈ traffic.outstanding) :
    (traffic.settle now request inner).since first + (if first ≤ request then 1 else 0) = traffic.since first := by
  simp [Traffic.since,Traffic.settle,(List.perm_cons_erase present).countP_eq,List.countP_cons]

theorem step_watched (traffic : Traffic) (event : Nat × Call) (next : Traffic) (watched : Watched config openedAt first traffic)
    (quiet : Quiet first traffic event) (stepped : step config traffic event = some next) : Watched config openedAt first next := by
  obtain ⟨now,call⟩ := event
  obtain ⟨known,later,guarded⟩ := watched
  simp only [step] at stepped
  split at stepped
  · cases stepped
  rename_i passed
  cases call with
  | allow =>
    rcases guarded with ⟨reopenedAt,state,after,none⟩ | ⟨state,cooled,one⟩
    · by_cases cool : config.coolDown ≤ now - reopenedAt
      · simp only [allow,state,cool,if_true,Option.some.injEq] at stepped
        subst stepped
        refine ⟨by simp only; omega,by simp only; omega,.inr ⟨rfl,by simp only; omega,?_⟩⟩
        simp only [Traffic.since] at none
        simp [Traffic.since,none,known]
      · simp only [allow,state,cool,if_false,Bool.false_eq_true,Option.some.injEq] at stepped
        subst stepped
        exact ⟨known,by simp only; omega,.inl ⟨reopenedAt,state,after,none⟩⟩
    · simp only [allow,state,if_true,Bool.false_eq_true,if_false,Option.some.injEq] at stepped
      subst stepped
      exact ⟨known,by simp only; omega,.inr ⟨state,by simp only; omega,one⟩⟩
  | recordSuccess request => exact quiet.elim
  | recordFailure request =>
    simp only [Option.ite_none_right_eq_some,Option.some.injEq] at stepped
    obtain ⟨present,rfl⟩ := stepped
    have fewer := @since_settle traffic first now request (recordFailure config now traffic.inner) present
    refine ⟨known,by simp only [Traffic.settle]; omega,?_⟩
    rcases guarded with ⟨reopenedAt,state,after,none⟩ | ⟨state,cooled,one⟩
    · exact .inl ⟨reopenedAt,by simp only [Traffic.settle,recordFailure,state],after,by omega⟩
    · rcases quiet with newer | ⟨reopenedAt,opened⟩
      · rw [if_pos newer] at fewer
        by_cases tripped : config.threshold ≤ (traffic.inner.consecutiveFailures + 1) % 2 ^ 32
        · exact .inl ⟨now,by simp [Traffic.settle,recordFailure,state,tripped,-Nat.reducePow],by omega,by omega⟩
        · exact .inr ⟨by simp [Traffic.settle,recordFailure,state,tripped,-Nat.reducePow],by simp only [Traffic.settle]; omega,by omega⟩
      · rw [state] at opened
        cases opened

/-- After every opening the worker is isolated until a request succeeds, as long as older requests that fail do so while
    the breaker is open. -/
theorem isolated_until_success {later : List (Nat × Call)} (opened : traffic.inner.state = .opened openedAt)
    (passed : openedAt ≤ traffic.now) (quiet : Runs.Guarded (step config) (Quiet traffic.admitted) traffic later)
    (executed : Runs.run (step config) traffic later = some final) : Isolated config openedAt traffic.admitted final := by
  have none : traffic.since traffic.admitted = 0 := by simpa [Traffic.since,List.countP_eq_zero] using traffic.numbered
  have watched : Watched config openedAt traffic.admitted traffic :=
    ⟨Nat.le_refl _,passed,.inl ⟨openedAt,opened,Nat.le_refl _,none⟩⟩
  exact (Runs.run_keeps _ step_watched watched quiet executed).isolated

/-- One of two admitted requests has failed, which opened the breaker; the other has not answered. -/
def oneFailed : Traffic := ⟨⟨.opened 1,1⟩,1,2,[1],by decide⟩

theorem isolated_after_failure : Isolated ⟨1,30⟩ 1 2 ⟨⟨.halfOpen true,1⟩,31,3,[2],by decide⟩ :=
  @isolated_until_success ⟨1,30⟩ oneFailed _ 1 [(2,.recordFailure 1),(31,.allow)] rfl (by decide)
    ⟨.inr ⟨1,rfl⟩,fun _ _ => ⟨trivial,fun _ _ => trivial⟩⟩ (by decide)

/-- The other request succeeds after the opening: the breaker closes and admits two more during its cool-down. -/
theorem late_success_admits :
    Runs.run (step ⟨1,30⟩) start [(0,.allow),(0,.allow),(1,.recordFailure 0)] = some oneFailed ∧
      Runs.run (step ⟨1,30⟩) oneFailed [(2,.recordSuccess 1),(3,.allow),(3,.allow)] = some ⟨⟨.closed,0⟩,3,4,[3,2],by decide⟩ := by
  decide

end Hypic.Breaker
