import Mathlib.Algebra.BigOperators.Group.Finset.Piecewise
import Mathlib.Algebra.Group.Action.Defs
import Mathlib.Algebra.Order.BigOperators.Group.Finset
import Mathlib.Tactic.Linarith
import Mathlib.Tactic.Ring

/-! Longest-first list scheduling on identical machines and its distance from an optimal assignment. -/

namespace Hypic.Makespan
open List
universe u
variable {M : Type u} [DecidableEq M]

/-- The lengths of the jobs on one machine. -/
def onMachine (jobs : List (Nat × M)) (machine : M) : List Nat :=
  (jobs.filter fun job => job.2 = machine).map Prod.fst

def load (jobs : List (Nat × M)) (machine : M) : Nat := (onMachine jobs machine).sum

/-- Jobs placed longest first on a least loaded machine; the last one placed comes first. -/
inductive Lpt (machines : Finset M) : List (Nat × M) → Prop
  | nil : Lpt machines []
  | place {jobs : List (Nat × M)} {length : Nat} {machine : M} (placed : Lpt machines jobs) (member : machine ∈ machines)
      (least : ∀ other ∈ machines, load jobs machine ≤ load jobs other) (shortest : ∀ job ∈ jobs, length ≤ job.1) :
      Lpt machines ((length,machine)::jobs)

variable {machines : Finset M} {jobs other : List (Nat × M)}

theorem onMachine_cons (length : Nat) (machine sought : M) :
    onMachine ((length,machine)::jobs) sought =
      if machine = sought then length::onMachine jobs sought else onMachine jobs sought := by
  by_cases here : machine = sought
  · simp [onMachine,here]
  · simp [onMachine,here]

theorem load_cons (length : Nat) (machine sought : M) :
    load ((length,machine)::jobs) sought = (if machine = sought then length else 0) + load jobs sought := by
  rw [load,onMachine_cons]
  split <;> simp [load]

theorem sum_onMachine (measure : Nat → Nat) (inside : ∀ job ∈ jobs, job.2 ∈ machines) :
    ∑ machine ∈ machines, ((onMachine jobs machine).map measure).sum = (jobs.map fun job => measure job.1).sum := by
  induction jobs with
  | nil => simp [onMachine]
  | cons job jobs ih =>
    obtain ⟨here,later⟩ := forall_mem_cons.mp inside
    have split : ∀ machine, ((onMachine (job::jobs) machine).map measure).sum =
        (if job.2 = machine then measure job.1 else 0) + ((onMachine jobs machine).map measure).sum := by
      intro machine
      rw [onMachine_cons job.1 job.2]
      split <;> simp
    simp only [split,Finset.sum_add_distrib,ih later,Finset.sum_ite_eq,here,if_true,map_cons,sum_cons]

/-- A job counts twice when no job of the given length fits beside it. -/
def weight (bound length : Nat) (job : Nat) : Nat := if bound < job + length then 2 else 1

theorem weight_pos (bound length job : Nat) : 1 ≤ weight bound length job := by unfold weight; split <;> omega
theorem weight_le (bound length job : Nat) : weight bound length job ≤ 2 := by unfold weight; split <;> omega

variable {bound length : Nat}

theorem two_le_weights {lengths : List Nat} (fits : length ≤ bound)
    (full : bound < lengths.sum + length) : 2 ≤ (lengths.map (weight bound length)).sum := by
  match lengths, full with
  | [], full => simp at full; omega
  | [job], full =>
    have big : bound < job + length := by simpa using full
    simp [weight,big]
  | first::second::rest, _ =>
    have := weight_pos bound length first
    have := weight_pos bound length second
    simp only [map_cons,sum_cons]
    omega

theorem weights_le_two {lengths : List Nat} (long : bound < 3 * length)
    (shortest : ∀ job ∈ lengths, length ≤ job) (fits : lengths.sum ≤ bound) :
    (lengths.map (weight bound length)).sum ≤ 2 := by
  match lengths, shortest, fits with
  | [], _, _ => simp
  | [job], _, _ => simpa using weight_le bound length job
  | [first,second], shortest, fits =>
    simp only [forall_mem_cons,sum_cons,sum_nil] at shortest fits
    simp only [map_cons,map_nil,sum_cons,sum_nil,weight]
    rw [if_neg (by omega),if_neg (by omega)]
    rfl
  | first::second::third::rest, shortest, fits =>
    simp only [forall_mem_cons,sum_cons] at shortest fits
    omega

/-- The same jobs, the last one of them taken out of the other assignment. -/
theorem take_out {length : Nat} (same : (other.map Prod.fst).Perm (length::jobs.map Prod.fst)) :
    ∃ machine rest, other.Perm ((length,machine)::rest) ∧ (rest.map Prod.fst).Perm (jobs.map Prod.fst) := by
  obtain ⟨job,member,rfl⟩ := mem_map.mp (same.mem_iff.mpr mem_cons_self)
  have out := perm_cons_erase member
  exact ⟨job.2,other.erase job,out,List.Perm.cons_inv ((out.map Prod.fst).symm.trans same)⟩

theorem load_perm {left right : List (Nat × M)} (same : left.Perm right) (machine : M) :
    load left machine = load right machine := ((same.filter _).map _).sum_eq

/-- Where every job is longer than a third of the bound, a least loaded machine takes the next one within it:
    counted with their weights, the jobs would otherwise not fit into two per machine. -/
theorem fits_of_long {machine : M} (inside : ∀ job ∈ jobs, job.2 ∈ machines)
    (least : ∀ free ∈ machines, load jobs machine ≤ load jobs free) (shortest : ∀ job ∈ jobs, length ≤ job.1)
    (long : bound < 3 * length) (same : (other.map Prod.fst).Perm (length::jobs.map Prod.fst))
    (otherInside : ∀ job ∈ other, job.2 ∈ machines) (within : ∀ free ∈ machines, load other free ≤ bound) :
    load jobs machine + length ≤ bound := by
  by_contra exceeds
  obtain ⟨holder,rest,out,restSame⟩ := take_out same
  have holderInside : holder ∈ machines := otherInside (length,holder) (out.mem_iff.mpr mem_cons_self)
  have fits : length ≤ bound := by
    have held := within holder holderInside
    rw [load_perm out,load_cons,if_pos rfl] at held
    omega
  have below : machines.card * 2 ≤ (jobs.map fun job => weight bound length job.1).sum := by
    rw [← sum_onMachine (weight bound length) inside,← smul_eq_mul]
    refine Finset.card_nsmul_le_sum _ _ _ fun free member => two_le_weights fits ?_
    have := least free member
    simp only [load] at *
    omega
  have above : (other.map fun job => weight bound length job.1).sum ≤ machines.card * 2 := by
    rw [← sum_onMachine (weight bound length) otherInside,← smul_eq_mul]
    refine Finset.sum_le_card_nsmul _ _ _ fun free member => weights_le_two long (fun job placed => ?_) (within free member)
    obtain ⟨found,isOther,rfl⟩ := mem_map.mp placed
    have counted : found.1 ∈ length::jobs.map Prod.fst :=
      same.mem_iff.mp (mem_map.mpr ⟨found,(mem_filter.mp isOther).1,rfl⟩)
    rcases mem_cons.mp counted with equal | earlier
    · exact equal.ge
    · obtain ⟨job,isJob,equal⟩ := mem_map.mp earlier
      exact equal ▸ shortest job isJob
  have total : (other.map fun job => weight bound length job.1).sum =
      weight bound length length + (jobs.map fun job => weight bound length job.1).sum := by
    have := (same.map (weight bound length)).sum_eq
    simpa [map_map,Function.comp_def] using this
  have := weight_pos bound length length
  omega

/-- Graham's bound: no machine gets more than 4/3 - 1/(3m) times the largest load of any assignment. -/
theorem Lpt.graham (placed : Lpt machines jobs) {bound : Nat} (same : (other.map Prod.fst).Perm (jobs.map Prod.fst))
    (otherInside : ∀ job ∈ other, job.2 ∈ machines) (within : ∀ free ∈ machines, load other free ≤ bound) :
    (∀ job ∈ jobs, job.2 ∈ machines) ∧
      ∀ machine ∈ machines, 3 * machines.card * load jobs machine ≤ (4 * machines.card - 1) * bound := by
  induction placed generalizing other with
  | nil => simp [load,onMachine]
  | @place jobs length chosen placed member least shortest ih =>
    obtain ⟨holder,rest,out,restSame⟩ := take_out same
    have restInside : ∀ job ∈ rest, job.2 ∈ machines :=
      fun job isRest => otherInside job (out.mem_iff.mpr (mem_cons_of_mem _ isRest))
    have restWithin : ∀ free ∈ machines, load rest free ≤ bound := by
      intro free isFree
      have all := within free isFree
      rw [load_perm out,load_cons] at all
      omega
    obtain ⟨inside,bounded⟩ := ih restSame restInside restWithin
    refine ⟨forall_mem_cons.mpr ⟨member,inside⟩,fun machine isMachine => ?_⟩
    rw [load_cons]
    have some : 1 ≤ machines.card := Finset.card_pos.mpr ⟨chosen,member⟩
    by_cases here : chosen = machine
    · subst here
      rw [if_pos rfl]
      obtain ⟨more,count⟩ : ∃ more, machines.card = more + 1 := ⟨machines.card - 1,by omega⟩
      have factor : 4 * machines.card - 1 = 3 * machines.card + more := by omega
      rw [factor]
      by_cases long : bound < 3 * length
      · have fits := fits_of_long inside least shortest long same otherInside within
        calc 3 * machines.card * (length + load jobs chosen) ≤ 3 * machines.card * bound :=
              Nat.mul_le_mul_left _ (by omega)
          _ ≤ (3 * machines.card + more) * bound := Nat.mul_le_mul_right _ (by omega)
      · -- The average argument: the least load is at most what the others leave of the total.
        have average : machines.card * load jobs chosen ≤ (jobs.map Prod.fst).sum := by
          have := Finset.card_nsmul_le_sum machines (load jobs) _ least
          have sums := sum_onMachine id inside
          simp only [map_id,id] at sums
          rwa [smul_eq_mul,show ∑ free ∈ machines, load jobs free = _ from sums] at this
        have total : length + (jobs.map Prod.fst).sum ≤ machines.card * bound := by
          have := Finset.sum_le_card_nsmul machines (load other) bound within
          have sums := sum_onMachine id otherInside
          simp only [map_id,id] at sums
          rw [smul_eq_mul,show ∑ free ∈ machines, load other free = _ from sums,same.sum_eq] at this
          simpa using this
        rw [count] at *
        nlinarith
    · rw [if_neg here,zero_add]
      exact bounded machine isMachine

end Hypic.Makespan
