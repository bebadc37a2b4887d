import Hypic.Runs
import Mathlib.Tactic.Common

/-! The gateway's circuit breaker. A call is a sequence of atomic operations on shared cells, and the operations of different threads
    interleave. -/

namespace Hypic.CircuitBreaker
open Runs

/-- The timeout is in whole milliseconds. -/
structure CircuitBreakerConfig where
  failureThreshold : UInt32
  successThreshold : UInt32
  timeoutMs : Nat

inductive CircuitState where
  | closed
  | opened
  | halfOpen
deriving DecidableEq

/-- The cells and the clock. The last two fields are an observer's: when the state last became open, and the successes recorded since
    it last became half open or a failure was recorded. -/
structure Cells where
  state : CircuitState
  consecutiveFailures : UInt32
  consecutiveSuccesses : UInt32
  lastStateChangeMs : Nat
  clock : Nat
  openedAt : Nat
  streak : Nat

/-- What is left of a call: the next operation, and what follows on the value it gives. -/
inductive Code where
  | done
  | loadState (next : CircuitState → Code)
  | loadChange (next : Nat → Code)
  | nowMs (next : Nat → Code)
  | compareExchange (current new : CircuitState) (next : Bool → Code)
  | swap (new : CircuitState) (next : CircuitState → Code)
  | storeChange (value : Nat) (next : Code)
  | storeFailures (value : UInt32) (next : Code)
  | storeSuccesses (value : UInt32) (next : Code)
  | addFailure (next : UInt32 → Code)
  | addSuccess (next : UInt32 → Code)

def transitionTo (newState : CircuitState) : Code :=
  .swap newState fun oldState =>
    if oldState ≠ newState then
      .nowMs fun now => .storeChange now <|
        match newState with
        | .closed => .storeFailures 0 (.storeSuccesses 0 .done)
        | .opened => .storeSuccesses 0 .done
        | .halfOpen => .storeFailures 0 (.storeSuccesses 0 .done)
    else .done

variable (config : CircuitBreakerConfig)

/-- `check_and_update_state_returning`, without the value it returns. -/
def checkAndUpdateState : Code :=
  .loadState fun currentState =>
    if currentState = .opened then
      .loadChange fun lastChange => .nowMs fun now =>
        if config.timeoutMs ≤ now - lastChange then
          .compareExchange .opened .halfOpen fun exchanged =>
            if exchanged then .nowMs fun now => .storeChange now (.storeFailures 0 (.storeSuccesses 0 .done))
            else .loadState fun _ => .done
        else .done
    else .done

def recordSuccess : Code :=
  .storeFailures 0 <| .addSuccess fun before => .loadState fun currentState =>
    match currentState with
    | .halfOpen => if config.successThreshold ≤ before + 1 then transitionTo .closed else .done
    | .closed => .done
    | .opened => .done

def recordFailure : Code :=
  .storeSuccesses 0 <| .addFailure fun before => .loadState fun currentState =>
    match currentState with
    | .closed => if config.failureThreshold ≤ before + 1 then transitionTo .opened else .done
    | .halfOpen => transitionTo .opened
    | .opened => .done

/-- The state variable takes a value, and the observer notes what it became. -/
def Cells.become (new : CircuitState) (cells : Cells) : Cells :=
  { cells with
    state := new
    openedAt := if new = .opened ∧ cells.state ≠ .opened then cells.clock else cells.openedAt
    streak := if new = .halfOpen ∧ cells.state ≠ .halfOpen then 0 else cells.streak }

/-- One operation of a call. -/
def exec : Code → Cells → Code × Cells
  | .done, cells => (.done,cells)
  | .loadState next, cells => (next cells.state,cells)
  | .loadChange next, cells => (next cells.lastStateChangeMs,cells)
  | .nowMs next, cells => (next cells.clock,cells)
  | .compareExchange current new next, cells =>
    if cells.state = current then (next true,cells.become new) else (next false,cells)
  | .swap new next, cells => (next cells.state,cells.become new)
  | .storeChange value next, cells => (next,{ cells with lastStateChangeMs := value })
  | .storeFailures value next, cells => (next,{ cells with consecutiveFailures := value })
  | .storeSuccesses value next, cells => (next,{ cells with consecutiveSuccesses := value })
  | .addFailure next, cells =>
    (next cells.consecutiveFailures,{ cells with consecutiveFailures := cells.consecutiveFailures + 1, streak := 0 })
  | .addSuccess next, cells =>
    (next cells.consecutiveSuccesses,
      { cells with consecutiveSuccesses := cells.consecutiveSuccesses + 1, streak := cells.streak + 1 })

structure System where
  cells : Cells
  threads : Nat → Code

inductive Call where
  | state
  | recordSuccess
  | recordFailure

def Call.code : Call → Code
  | .state => checkAndUpdateState config
  | .recordSuccess => CircuitBreaker.recordSuccess config
  | .recordFailure => CircuitBreaker.recordFailure config

inductive Action where
  | tick (ms : Nat)
  | call (thread : Nat) (call : Call)
  | operate (thread : Nat)

def Cells.wait (ms : Nat) (cells : Cells) : Cells := { cells with clock := cells.clock + ms }

/-- Time passes, a thread between two calls starts one, or a thread takes the next operation of its call. -/
def step (system : System) : Action → Option System
  | .tick ms => some { system with cells := system.cells.wait ms }
  | .call thread call =>
    match system.threads thread with
    | .done => some { system with threads := Function.update system.threads thread (call.code config) }
    | _ => none
  | .operate thread =>
    let after := exec (system.threads thread) system.cells
    some ⟨after.2,Function.update system.threads thread after.1⟩

def start (now : Nat) : System := ⟨⟨.closed,0,0,now,now,0,0⟩,fun _ => .done⟩

/-- A change of the state variable the breaker's automaton has. -/
def Legal (before after : Cells) : Prop :=
  before.state ≠ after.state →
    match before.state, after.state with
    | .closed, .opened => True
    | .opened, .halfOpen => before.openedAt + config.timeoutMs ≤ before.clock
    | .halfOpen, .opened => True
    | .halfOpen, .closed => config.successThreshold.toNat ≤ before.streak
    | _, _ => False

/-- No other thread is inside a call. -/
def Alone (system : System) : Action → Prop
  | .tick _ => True
  | .call thread _ => ∀ other ≠ thread, system.threads other = .done
  | .operate thread => ∀ other ≠ thread, system.threads other = .done

/-- What holds between two calls. -/
structure Settled (cells : Cells) : Prop where
  past : cells.openedAt ≤ cells.clock
  stamped : cells.state = .opened → cells.openedAt ≤ cells.lastStateChangeMs
  counted : cells.state = .halfOpen → cells.consecutiveSuccesses.toNat ≤ cells.streak

/-- The rest of a call makes legal changes and ends settled, however much time passes between its operations. -/
inductive Safe : Code → Cells → Prop where
  | done {cells : Cells} (settled : Settled cells) : Safe .done cells
  | operate {code : Code} {cells : Cells} (legal : ∀ ms, Legal config (cells.wait ms) (exec code (cells.wait ms)).2)
      (rest : ∀ ms, Safe (exec code (cells.wait ms)).1 (exec code (cells.wait ms)).2) : Safe code cells

variable {config} {code : Code} {cells : Cells}

theorem Settled.wait (settled : Settled cells) (ms : Nat) : Settled (cells.wait ms) :=
  ⟨Nat.le_trans settled.past (Nat.le_add_right ..),settled.stamped,settled.counted⟩

theorem Legal.same {before after : Cells} (same : before.state = after.state) : Legal config before after :=
  fun changed => absurd same changed

theorem Safe.wait (safe : Safe config code cells) (ms : Nat) : Safe config code (cells.wait ms) := by
  cases safe with
  | done settled => exact .done (settled.wait ms)
  | operate legal rest =>
    have waits (more : Nat) : (cells.wait ms).wait more = cells.wait (ms + more) := by simp [Cells.wait,Nat.add_assoc]
    exact .operate (fun more => waits more ▸ legal (ms + more)) fun more => waits more ▸ rest (ms + more)

theorem Safe.exec (safe : Safe config code cells) :
    Legal config cells (exec code cells).2 ∧ Safe config (exec code cells).1 (exec code cells).2 := by
  cases safe with
  | done settled => exact ⟨.same rfl,.done settled⟩
  | operate legal rest => exact ⟨legal 0,rest 0⟩

theorem Safe.quiet (same : ∀ ms, (CircuitBreaker.exec code (cells.wait ms)).2.state = cells.state)
    (rest : ∀ ms, Safe config (CircuitBreaker.exec code (cells.wait ms)).1 (CircuitBreaker.exec code (cells.wait ms)).2) :
    Safe config code cells :=
  .operate (fun ms => .same (same ms).symm) rest

theorem safe_transitionTo {new : CircuitState} (past : cells.openedAt ≤ cells.clock) (moved : cells.state ≠ new) (whole : new ≠ .halfOpen)
    (legal : ∀ ms, Legal config (cells.wait ms) ((cells.wait ms).become new)) : Safe config (transitionTo new) cells := by
  refine .operate legal fun swapped => ?_
  simp only [transitionTo,exec,Cells.wait,if_pos moved]
  refine .quiet (fun _ => rfl) fun read => .quiet (fun _ => rfl) fun stored => ?_
  have later := Nat.le_add_right
  cases new with
  | halfOpen => exact absurd rfl whole
  | closed =>
    refine .quiet (fun _ => rfl) fun _ => .quiet (fun _ => rfl) fun _ => .done ⟨?_,nofun,nofun⟩
    simp only [exec,Cells.wait,Cells.become]
    grind
  | opened =>
    refine .quiet (fun _ => rfl) fun _ => .done ⟨?_,fun _ => ?_,nofun⟩
    · simp only [exec,Cells.wait,Cells.become]
      grind
    · simp only [exec,Cells.wait,Cells.become]
      grind

theorem safe_checkAndUpdateState (settled : Settled cells) : Safe config (checkAndUpdateState config) cells := by
  refine .quiet (fun _ => rfl) fun first => ?_
  simp only [checkAndUpdateState,exec]
  split_ifs with isOpen
  · refine .quiet (fun _ => rfl) fun second => .quiet (fun _ => rfl) fun third => ?_
    simp only [exec]
    split_ifs with elapsed
    · have isOpen : cells.state = .opened := isOpen
      have past := settled.past
      have stamped := settled.stamped isOpen
      simp only [Cells.wait] at elapsed
      refine .operate (fun ms changed => ?_) fun exchanged => ?_
      · simp only [exec,Cells.wait,Cells.become,isOpen,if_true]
        omega
      · simp only [exec,Cells.wait,isOpen,if_true]
        refine .quiet (fun _ => rfl) fun _ => .quiet (fun _ => rfl) fun _ => .quiet (fun _ => rfl) fun _ =>
          .quiet (fun _ => rfl) fun _ => .done ⟨?_,nofun,fun _ => Nat.zero_le _⟩
        simp only [exec,Cells.wait,Cells.become]
        grind
    · exact .done (((settled.wait first).wait second).wait third)
  · exact .done (settled.wait first)

theorem safe_recordSuccess (settled : Settled cells) : Safe config (recordSuccess config) cells := by
  refine .quiet (fun _ => rfl) fun first => .quiet (fun _ => rfl) fun second => .quiet (fun _ => rfl) fun third => ?_
  simp only [recordSuccess,exec,Cells.wait]
  have past := settled.past
  cases current : cells.state with
  | halfOpen =>
    have counted := settled.counted current
    have added : (cells.consecutiveSuccesses + 1).toNat ≤ cells.consecutiveSuccesses.toNat + 1 := by
      rw [UInt32.toNat_add]
      exact Nat.mod_le ..
    simp only
    split_ifs with enough
    · refine safe_transitionTo (by grind) nofun nofun fun ms changed => ?_
      simp only [Cells.wait,Cells.become]
      exact Nat.le_trans (UInt32.le_iff_toNat_le.mp enough) (by omega)
    · exact .done ⟨by grind,nofun,fun _ => by grind⟩
  | closed => exact .done ⟨by grind,nofun,nofun⟩
  | opened => exact .done ⟨by grind,fun _ => settled.stamped current,nofun⟩

theorem safe_recordFailure (settled : Settled cells) : Safe config (recordFailure config) cells := by
  refine .quiet (fun _ => rfl) fun first => .quiet (fun _ => rfl) fun second => .quiet (fun _ => rfl) fun third => ?_
  simp only [recordFailure,exec,Cells.wait]
  have past := settled.past
  cases current : cells.state with
  | closed =>
    simp only
    split_ifs with enough
    · exact safe_transitionTo (by grind) nofun nofun fun _ _ => trivial
    · exact .done ⟨by grind,nofun,nofun⟩
  | halfOpen => exact safe_transitionTo (by grind) nofun nofun fun _ _ => trivial
  | opened => exact .done ⟨by grind,fun _ => settled.stamped current,nofun⟩

theorem safe_call (settled : Settled cells) (call : Call) : Safe config (call.code config) cells := by
  cases call with
  | state => exact safe_checkAndUpdateState settled
  | recordSuccess => exact safe_recordSuccess settled
  | recordFailure => exact safe_recordFailure settled

/-- At most one thread is inside a call, and the rest of it is safe. -/
def Exclusive (config : CircuitBreakerConfig) (system : System) : Prop :=
  ∃ thread, (∀ other ≠ thread, system.threads other = .done) ∧ Safe config (system.threads thread) system.cells

theorem Safe.settled (safe : Safe config .done cells) : Settled cells := by
  generalize ended : Code.done = code at safe
  induction safe with
  | done settled => exact settled
  | operate legal rest ih =>
    subst ended
    exact ih 0 rfl

theorem Exclusive.of_alone {system : System} (exclusive : Exclusive config system) {thread : Nat}
    (alone : ∀ other ≠ thread, system.threads other = .done) : Safe config (system.threads thread) system.cells := by
  obtain ⟨holder,others,safe⟩ := exclusive
  by_cases same : thread = holder
  · exact same ▸ safe
  · rw [others thread same]
    rw [alone holder (Ne.symm same)] at safe
    exact safe

theorem step_exclusive (system : System) (action : Action) (next : System) (exclusive : Exclusive config system)
    (alone : Alone system action) (stepped : step config system action = some next) :
    Exclusive config next ∧ Legal config system.cells next.cells := by
  cases action with
  | tick ms =>
    obtain ⟨thread,others,safe⟩ := exclusive
    cases stepped
    exact ⟨⟨thread,others,safe.wait ms⟩,.same rfl⟩
  | call thread call =>
    have safe := exclusive.of_alone alone
    simp only [step] at stepped
    split at stepped
    · rename_i between
      cases stepped
      rw [between] at safe
      refine ⟨⟨thread,fun other different => ?_,?_⟩,.same rfl⟩
      · simpa [Function.update_of_ne different] using alone other different
      · simpa using safe_call safe.settled call
    · cases stepped
  | operate thread =>
    have safe := (exclusive.of_alone alone).exec
    cases stepped
    refine ⟨⟨thread,fun other different => ?_,?_⟩,safe.1⟩
    · simpa [Function.update_of_ne different] using alone other different
    · simpa using safe.2

/-- When calls do not overlap, every change of the state variable is one of the automaton's. -/
theorem transitions_legal (config : CircuitBreakerConfig) (now : Nat) (actions : List Action) (action : Action) (system next : System)
    (guarded : Guarded (step config) Alone (start now) actions) (executed : run (step config) (start now) actions = some system)
    (alone : Alone system action) (stepped : step config system action = some next) : Legal config system.cells next.cells := by
  have exclusive : Exclusive config system := run_keeps (Exclusive config)
    (fun state action next inv guard stepped => (step_exclusive state action next inv guard stepped).1)
    ⟨0,fun _ _ => rfl,.done ⟨Nat.zero_le _,by simp [start],by simp [start]⟩⟩ guarded executed
  exact (step_exclusive system action next exclusive alone stepped).2

theorem transitions_legal_failure : ∃ system next,
    run (step ⟨1,1,0⟩) (start 0) (.call 0 .recordFailure::List.replicate 3 (.operate 0)) = some system ∧
    step ⟨1,1,0⟩ system (.operate 0) = some next ∧ next.cells.state = .opened ∧ Legal ⟨1,1,0⟩ system.cells next.cells := by
  refine ⟨_,_,rfl,rfl,rfl,transitions_legal _ 0 (.call 0 .recordFailure::List.replicate 3 (.operate 0)) (.operate 0) _ _ ?_ rfl ?_ rfl⟩
  · simp +contextual [Guarded,Alone,step,start,Function.update_of_ne,List.replicate]
  · simp +contextual [Alone,start,Function.update_of_ne]

/-- A success has seen the state half open; a failure opens the circuit before the success swaps the state. -/
def overtaken : List Action :=
  .call 0 .recordFailure::List.replicate 7 (.operate 0) ++ .call 0 .state::List.replicate 8 (.operate 0) ++
    .call 0 .recordSuccess::List.replicate 3 (.operate 0) ++ .call 1 .recordFailure::List.replicate 4 (.operate 1)

theorem opened_closes : (run (step ⟨1,1,0⟩) (start 0) overtaken).map (·.cells.state) = some .opened ∧
    (run (step ⟨1,1,0⟩) (start 0) (overtaken ++ [.operate 0])).map (·.cells.state) = some .closed := by
  decide

end Hypic.CircuitBreaker
