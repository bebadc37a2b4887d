import Hypic.RadixPrune

/-! Locks on tree nodes. Whoever holds a node holds its whole way from the root, so the lock count of a node is the number
    of holds on it and below it. -/

namespace Hypic.RadixTree
open Policy Forest
universe u
variable {δ : Type u} {pageSize : Nat} {scope : Option (Option String)} {forest : Forest (Node δ)} {lock : δ → Int} {held : List Nat}

/-- Every node's lock count is the number of holds on it and below it. -/
def Held (lock : δ → Int) (held : List Nat) (forest : Forest (Node δ)) : Prop :=
  Carries (fun node => lock node.data) (fun node => (held.count node.id : Int)) forest

theorem total_count_nonneg (held : List Nat) (forest : Forest (Node δ)) : 0 ≤ total (fun node => (held.count node.id : Int)) forest := by
  induction forest with
  | nil => exact le_rfl
  | cons node under after inChildren inRest => rw [total_cons]; omega

theorem held_cons {node : Node δ} {under after : Forest (Node δ)} :
    Held lock held (.cons node under after) ↔
      lock node.data = held.count node.id + total (fun node => (held.count node.id : Int)) under ∧ Held lock held under ∧
        Held lock held after := carries_cons

variable {step : Node δ × Forest (Node δ)}

theorem Held.nonneg (holds : Held lock held forest) (inside : step ∈ forest.subtrees) :
    0 ≤ lock step.1.data := by
  have carried := holds step inside
  have below := total_count_nonneg held step.2
  dsimp only at carried
  omega

theorem Held.roots (holds : Held lock held forest) :
    (forest.roots.map (fun node => lock node.data)).sum = total (fun node => (held.count node.id : Int)) forest := by
  induction forest with
  | nil => rfl
  | cons node under after _ inRest =>
    obtain ⟨here,-,beside⟩ := held_cons.mp holds
    rw [Forest.roots,List.map_cons,List.sum_cons,inRest beside,total_cons]
    omega

theorem Held.below (holds : Held lock held forest) (inside : step ∈ forest.subtrees) :
    Held lock held step.2 := by
  induction forest with
  | nil => cases inside
  | cons node under after inChildren inRest =>
    obtain ⟨-,below,beside⟩ := held_cons.mp holds
    rcases List.mem_cons.mp inside with rfl | later
    · exact below
    · rcases List.mem_append.mp later with under | after
      · exact inChildren below under
      · exact inRest beside after

theorem Held.children (holds : Held lock held forest) (inside : step ∈ forest.subtrees) :
    (step.2.roots.map (fun node => lock node.data)).sum ≤ lock step.1.data := by
  rw [(holds.below inside).roots]
  have carried := holds step inside
  dsimp only at carried
  omega

theorem le_total_of_mem {forest : Forest (Node δ)} (inside : step ∈ forest.subtrees) :
    (held.count step.1.id : Int) ≤ total (fun node => (held.count node.id : Int)) forest := by
  induction forest with
  | nil => cases inside
  | cons node under after inChildren inRest =>
    have below := total_count_nonneg held under
    have beside := total_count_nonneg held after
    rw [total_cons]
    rcases List.mem_cons.mp inside with rfl | later
    · dsimp only; omega
    · rcases List.mem_append.mp later with deeper | later
      · have := inChildren deeper; omega
      · have := inRest later; omega

theorem Held.locked (holds : Held lock held forest) (distinct : (labels Node.id forest).Nodup) {id : Nat} (isHeld : id ∈ held)
    {way : List (Node δ × Forest (Node δ))} (found : path Node.id id forest = some way) :
    ∀ step ∈ way, 0 < lock step.1.data := by
  intro step member
  obtain ⟨inside,reaches⟩ := (mem_path_iff distinct found step).mp member
  have carried := holds step inside
  have counted : 0 < held.count id := List.count_pos_iff.mpr isHeld
  have below := total_count_nonneg held step.2
  dsimp only at carried
  rcases reaches with here | deeper
  · rw [here] at carried; omega
  · obtain ⟨lower,lowerInside,named⟩ := mem_labels_iff.mp deeper
    have bound : (held.count lower.1.id : Int) ≤ _ := le_total_of_mem lowerInside
    rw [named] at bound
    omega

theorem Held.exists_leaf (holds : Held lock held forest) (inside : step ∈ forest.subtrees)
    (unlocked : lock step.1.data = 0) : ∃ id, Childless (fun data => lock data = 0) forest id := by
  induction forest generalizing step with
  | nil => cases inside
  | cons node under after inChildren inRest =>
    obtain ⟨-,below,beside⟩ := held_cons.mp holds
    rcases List.mem_cons.mp inside with rfl | later
    · cases under with
      | nil => exact ⟨node.id,node,List.mem_cons_self ..,rfl,unlocked⟩
      | cons child deeper others =>
        have sum := holds.children inside
        have free : lock child.data = 0 := by
          have nonneg : 0 ≤ lock child.data := below.nonneg (List.mem_cons_self ..)
          have siblings : 0 ≤ (others.roots.map (fun node => lock node.data)).sum := by
            rw [(held_cons.mp below).2.2.roots]; exact total_count_nonneg held others
          rw [Forest.roots,List.map_cons,List.sum_cons] at sum
          dsimp only at sum unlocked
          omega
        obtain ⟨id,childless⟩ := inChildren below (List.mem_cons_self ..) free
        exact ⟨id,childless_cons.mpr (.inr (.inl childless))⟩
    · rcases List.mem_append.mp later with deeper | later
      · obtain ⟨id,childless⟩ := inChildren below deeper unlocked
        exact ⟨id,childless_cons.mpr (.inr (.inl childless))⟩
      · obtain ⟨id,childless⟩ := inRest beside later unlocked
        exact ⟨id,childless_cons.mpr (.inr (.inr childless))⟩

/-! ### Walks -/

/-- A walk copies the lock count to both halves of a split node, and starts a new leaf unlocked. -/
structure Locking (visit : Visit δ) (lock : δ → Int) : Prop where
  touch : ∀ data, lock (visit.touch data) = lock data
  pass : ∀ data, lock (visit.pass data) = lock data
  upper : ∀ splitLen data, lock (visit.divide splitLen data).1 = lock data
  lower : ∀ splitLen data, lock (visit.divide splitLen data).2 = lock data
  grow : ∀ data ∈ visit.grow, ∀ parent key, lock (data parent key) = 0

theorem Locking.inherited {visit : Visit δ} (locking : Locking visit lock) {counter : Nat} (fresh : counter ∉ held) :
    Inherited pageSize visit counter (fun node => lock node.data) (fun node => (held.count node.id : Int)) where
  additive := ⟨fun _ => rfl,fun node splitLen => by simp [List.count_eq_zero.mpr fresh]⟩
  met node := by rw [Node.met,Node.passed,locking.pass,Node.touched,locking.touch]
  upper node splitLen := by rw [halves,Node.passed,locking.pass,splitNode,locking.upper,Node.touched,locking.touch]
  lower node splitLen := by rw [halves,splitNode,locking.lower,Node.touched,locking.touch]
  fresh node splitLen := by simp [List.count_eq_zero.mpr fresh]

theorem Walks.keepsHeld {visit : Visit δ} {value : List Slot} {counter : Nat} {parent : Option (Node δ)} {key : RadixKey} {walked : Walked δ}
    (walks : Walks pageSize visit counter parent forest key value walked) (locking : Locking visit lock) (fresh : ∀ id ∈ held, id < counter)
    (holds : Held lock held forest) : Held lock held walked.forest := by
  have unheld : counter ∉ held := fun member => lt_irrefl _ (fresh counter member)
  refine walks.carries (locking.inherited unheld) (fun leaf grown => ?_) holds
  obtain ⟨-,-,-,later,data,grows,isData⟩ := walks.leaf_spec grown
  refine ⟨by rw [isData]; exact locking.grow data grows _ _,?_⟩
  have unheld : leaf.id ∉ held := fun member => absurd (fresh leaf.id member) (by omega)
  rw [List.count_eq_zero.mpr unheld]; rfl

/-! ### Locking a way -/

/-- Some nodes with their data changed. -/
def relock (ids : List Nat) (set : δ → δ) (node : Node δ) : Node δ :=
  if node.id ∈ ids then { node with data := set node.data } else node

section Relock
variable {ids : List Nat} {set : δ → δ}

@[simp] theorem relock_id (node : Node δ) : (relock ids set node).id = node.id := by unfold relock; split <;> rfl
@[simp] theorem relock_key (node : Node δ) : (relock ids set node).key = node.key := by unfold relock; split <;> rfl

theorem total_relock (distinct : (labels Node.id forest).Nodup) {id : Nat} {way : List (Node δ × Forest (Node δ))}
    (found : path Node.id id forest = some way) (measure : Node δ → Int) (set : δ → δ) :
    total measure (forest.map (relock (way.map (·.1.id)) set)) = total measure forest +
      (way.map (fun step => measure { step.1 with data := set step.1.data } - measure step.1)).sum := by
  have along := total_path distinct found (fun node => measure { node with data := set node.data } - measure node)
  rw [total_map,← along,← total_add]
  refine total_congr (fun node _ => ?_)
  rw [Function.comp_apply]
  unfold relock
  split
  · exact (add_sub_cancel ..).symm
  · exact (add_zero _).symm

end Relock

theorem held_relock (distinct : (labels Node.id forest).Nodup) {id : Nat} {way : List (Node δ × Forest (Node δ))}
    (found : path Node.id id forest = some way) {amount : Int} (set : δ → δ) (shifts : ∀ data, lock (set data) = lock data + amount)
    {held' : List Nat} (counts : ∀ other, (held'.count other : Int) = held.count other + if other = id then amount else 0)
    (holds : Held lock held forest) : Held lock held' (forest.map (relock (way.map (·.1.id)) set)) := by
  have moved {part : Forest (Node δ)} (apart : (labels Node.id part).Nodup) :
      total (fun node => (held'.count node.id : Int)) part =
        total (fun node => (held.count node.id : Int)) part + if id ∈ labels Node.id part then amount else 0 := by
    rw [← total_label apart,← total_add]
    exact total_congr (fun node _ => counts node.id)
  intro step inside
  rw [subtrees_map] at inside
  obtain ⟨old,oldInside,rfl⟩ := List.mem_map.mp inside
  obtain ⟨notBelow,apart⟩ := subtrees_distinct distinct oldInside
  have carried := holds old oldInside
  have onWay : old.1.id ∈ way.map (·.1.id) ↔ old.1.id = id ∨ id ∈ labels Node.id old.2 := by
    rw [List.mem_map]
    constructor
    · rintro ⟨other,member,same⟩
      have equal := subtrees_injective distinct (path_subset found member) oldInside same
      exact (((mem_path_iff distinct found old).mp (equal ▸ member))).2
    · intro reaches
      exact ⟨old,(mem_path_iff distinct found old).mpr ⟨oldInside,reaches⟩,rfl⟩
  dsimp only at carried ⊢
  have below : total (fun node => (held'.count node.id : Int)) (old.2.map (relock (way.map (·.1.id)) set)) =
      total (fun node => (held'.count node.id : Int)) old.2 := by
    rw [total_map]
    exact total_congr (fun node _ => by rw [Function.comp_apply,relock_id])
  rw [below,relock_id,moved apart,counts]
  unfold relock
  by_cases reached : old.1.id ∈ way.map (·.1.id)
  · rw [if_pos reached]
    dsimp only
    rw [shifts,carried]
    rcases onWay.mp reached with here | deeper
    · rw [if_pos here,if_neg (here ▸ notBelow)]; omega
    · have notHere : old.1.id ≠ id := fun here => notBelow (by rw [here]; exact deeper)
      rw [if_pos deeper,if_neg notHere]; omega
  · rw [if_neg reached]
    obtain ⟨notHere,notDeeper⟩ := not_or.mp (fun reaches => reached (onWay.mpr reaches))
    rw [if_neg notHere,if_neg notDeeper,carried]; omega

/-! ### Deleting an unlocked leaf -/

theorem total_erase_of_zero {M : Type v} [AddCommMonoid M] {measure : Node δ → M} (distinct : (labels Node.id forest).Nodup)
    {leaf : Node δ} (inside : (leaf,Forest.nil) ∈ forest.subtrees) (nothing : measure leaf = 0) :
    total measure (erase Node.id leaf.id forest) = total measure forest := by
  rw [total_erase measure distinct inside,nothing,zero_add]

theorem Held.erase (holds : Held lock held forest) (distinct : (labels Node.id forest).Nodup) {leaf : Node δ}
    (inside : (leaf,Forest.nil) ∈ forest.subtrees) (unlocked : lock leaf.data = 0) :
    Held lock held (erase Node.id leaf.id forest) ∧ leaf.id ∉ held := by
  have carried := holds _ inside
  have none : held.count leaf.id = 0 := by
    rw [total_nil] at carried
    dsimp only at carried
    omega
  refine ⟨fun step member => ?_,List.count_eq_zero.mp none⟩
  obtain ⟨old,oldInside,other,rfl⟩ := (subtrees_erase distinct ⟨leaf,inside,rfl⟩ step).mp member
  have carriedOld := holds old oldInside
  have apart := (subtrees_distinct distinct oldInside).2
  dsimp only at carriedOld ⊢
  rw [carriedOld]
  by_cases deeper : leaf.id ∈ labels Node.id old.2
  · -- the leaf below the node is the one in the forest
    obtain ⟨lower,lowerInside,named⟩ := mem_labels_iff.mp deeper
    have same := subtrees_injective distinct (subtrees_subset oldInside lowerInside) inside named
    rw [total_erase_of_zero apart (same ▸ lowerInside) (by rw [none]; rfl)]
  · rw [erase_of_not_mem deeper]

theorem childless_of_erase {holds : δ → Prop} (distinct : (labels Node.id forest).Nodup) {target id : Nat}
    (leaf : IsLeaf Node.id target forest) (childless : Childless holds (erase Node.id target forest) id) :
    id ≠ target ∧ (Childless holds forest id ∨ ∃ step, parent? Node.id target forest = some step ∧ step.1.id = id) := by
  obtain ⟨node,inside,rfl,fits⟩ := childless
  obtain ⟨⟨old,children⟩,oldInside,other,equal⟩ := (subtrees_erase distinct leaf _).mp inside
  obtain ⟨rfl,bare⟩ := Prod.mk.inj equal
  refine ⟨other,?_⟩
  cases children with
  | nil => exact .inl ⟨_,oldInside,rfl,fits⟩
  | cons child under after =>
    dsimp only at bare
    rw [Forest.erase] at bare
    split at bare
    · rename_i isTarget
      subst isTarget
      exact .inr ⟨_,parent?_of_child distinct oldInside (List.mem_cons_self ..),rfl⟩
    · cases bare

end Hypic.RadixTree
