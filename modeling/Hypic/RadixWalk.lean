import Hypic.RadixTree

/-! What a walk does to the tree besides what it holds: the nodes it meets, the new nodes and their ids, sums over the
    nodes, the childless nodes, and the ways down to the nodes that were there. -/

namespace Hypic.RadixTree
open Policy Agree Forest List Option
universe u w
variable {δ : Type u} {pageSize : Nat} {visit : Visit δ} {scope : Option (Option String)} {forest : Forest (Node δ)} {key : RadixKey}
  {value : List Slot} {counter : Nat} {parent : Option (Node δ)} {walked : Walked δ}
  (walks : Walks pageSize visit counter parent forest key value walked)

section Visited
include walks

theorem Walks.slots : walked.visited.flatMap Node.value = trace pageSize key.extraKey key.units forest := by
  induction walks with
  | leaf => rfl
  | other _ unasked _ ih =>
    rw [trace_other unasked]
    exact ih
  | split _ asked agreed inside =>
    rw [trace_inside asked (by omega),agreed]
    simp
  | deeper _ asked through _ ih =>
    rw [remaining_extraKey,remaining_units] at ih
    rw [trace_through asked through]
    simp only [flatMap_cons,met_value,ih]

theorem Walks.units : walked.visited.flatMap Node.units = key.units.take (trace pageSize key.extraKey key.units forest).length := by
  induction walks with
  | leaf => rfl
  | other _ unasked _ ih =>
    rw [trace_other unasked]
    exact ih
  | split whole asked agreed inside =>
    rw [trace_inside asked (by omega),agreed,length_take,whole.sized,min_eq_left inside.le]
    simp only [flatMap_cons,flatMap_nil,append_nil,upper_units]
    rw [← agreed]
    exact take_agree ..
  | @deeper _ node _ _ key _ _ whole asked through _ ih =>
    have front : key.units.take node.key.length = node.units := by
      rw [← through,← take_agree,through,← units_length,take_length]
    rw [remaining_extraKey,remaining_units] at ih
    rw [trace_through asked through,length_append,whole.sized,take_add,front]
    simp only [flatMap_cons,met_units,ih]

theorem Walks.head {first : Node δ} (isFirst : first ∈ walked.visited.head?) : first.key.extraKey = key.extraKey := by
  induction walks with
  | leaf => cases isFirst
  | other _ _ _ ih => exact ih isFirst
  | split _ asked =>
    cases isFirst
    rw [upper_extraKey,asked.1]
  | deeper _ asked =>
    cases isFirst
    exact asked.1

theorem Walks.leaf_spec {leaf : Node δ} (isLeaf : walked.leaf = some leaf) :
    leaf.key.units = key.units.drop (trace pageSize key.extraKey key.units forest).length ∧
      leaf.value = value.drop (trace pageSize key.extraKey key.units forest).length ∧ leaf.key.extraKey = key.extraKey ∧
      counter ≤ leaf.id ∧ ∃ data ∈ visit.grow, leaf.data = data (walked.visited.getLast?.or parent) leaf.key := by
  induction walks with
  | leaf grown =>
    obtain ⟨named,sameKey,sameValue,-,-,data,isGrow,isData⟩ := newLeaf_eq_some (grown.trans isLeaf)
    refine ⟨by rw [sameKey]; rfl,by rw [sameValue]; rfl,by rw [sameKey],named.ge,data,isGrow,?_⟩
    rw [isData,sameKey]
    rfl
  | other _ unasked _ ih =>
    rw [trace_other unasked]
    exact ih isLeaf
  | split whole asked agreed inside _ _ grown =>
    obtain ⟨named,sameKey,sameValue,-,-,data,isGrow,isData⟩ := newLeaf_eq_some (grown.trans isLeaf)
    rw [trace_inside asked (by omega),agreed,length_take,whole.sized,min_eq_left inside.le]
    refine ⟨by rw [sameKey,remaining_units],sameValue,by rw [sameKey,remaining_extraKey],by omega,data,isGrow,?_⟩
    rw [isData,sameKey]
    rfl
  | @deeper _ _ _ _ _ _ walked whole asked through _ ih =>
    obtain ⟨units,slots,extra,new,data,isGrow,isData⟩ := ih isLeaf
    rw [trace_through asked through,length_append,whole.sized]
    rw [remaining_units,remaining_extraKey,drop_drop] at units slots
    refine ⟨units,slots,by rw [extra,remaining_extraKey],new,data,isGrow,?_⟩
    rw [isData,getLast?_cons]
    cases walked.visited.getLast? <;> rfl

theorem Walks.leaf_isNone :
    walked.leaf = none ↔ visit.grow = none ∨ (trace pageSize key.extraKey key.units forest).length = key.length := by
  have alone {parent : Option (Node δ)} {key : RadixKey} {value : List Slot} {counter : Nat} :
      newLeaf pageSize visit parent key value counter = none ↔ visit.grow = none ∨ key.length = 0 := by
    unfold newLeaf
    split
    · rename_i done; simp [done]
    · rename_i more; simp [more]
  induction walks with
  | leaf grown =>
    dsimp only
    rw [← grown,alone,trace,length_nil]
    exact or_congr_right eq_comm
  | other _ unasked _ ih =>
    rw [trace_other unasked]
    exact ih
  | @split _ node _ _ key _ _ _ whole asked agreed inside _ _ grown =>
    have reach := agree_le_right pageSize node.units key.units
    rw [RadixKey.units_length] at reach
    dsimp only
    rw [trace_inside asked (by omega),agreed,length_take,whole.sized,min_eq_left inside.le,← grown,alone,remaining_length]
    refine or_congr_right ?_
    omega
  | @deeper _ node _ _ key _ _ whole asked through _ ih =>
    have reach := agree_le_right pageSize node.units key.units
    rw [RadixKey.units_length] at reach
    have below : _ ↔ _ := ih
    dsimp only
    rw [trace_through asked through,length_append,whole.sized,below,remaining_extraKey,remaining_units,
      remaining_length]
    refine or_congr_right ?_
    omega

theorem Walks.roots {root : Node δ} (member : root ∈ walked.forest.roots) :
    Asked pageSize key.extraKey key.units root ∨ ∃ old ∈ forest.roots, old.key.childKey pageSize = root.key.childKey pageSize := by
  induction walks with
  | @leaf _ _ _ leaf grown =>
    cases leaf with
    | none => cases member
    | some leaf =>
      rw [mem_singleton.mp member,Asked,Node.units,(newLeaf_eq_some grown).2.1]
      exact .inl ⟨rfl,rfl⟩
  | other _ _ _ ih =>
    rcases mem_cons.mp member with rfl | later
    · exact .inr ⟨root,mem_cons_self ..,rfl⟩
    · rcases ih later with own | ⟨old,inside,same⟩
      · exact .inl own
      · exact .inr ⟨old,mem_cons_of_mem _ inside,same⟩
  | split whole _ _ inside nonzero aligned =>
    rcases mem_cons.mp member with rfl | later
    · exact .inr ⟨_,mem_cons_self ..,(upper_childKey visit counter whole aligned nonzero inside).symm⟩
    · exact .inr ⟨root,mem_cons_of_mem _ later,rfl⟩
  | deeper =>
    rcases mem_cons.mp member with rfl | later
    · exact .inr ⟨_,mem_cons_self ..,rfl⟩
    · exact .inr ⟨root,mem_cons_of_mem _ later,rfl⟩

end Visited

theorem tidy_single {leaf : Option (Node δ)} (whole : ∀ node ∈ leaf, node.Whole pageSize)
    (owned : ∀ node ∈ leaf, ∀ extraKey ∈ scope, node.key.extraKey = extraKey) : Tidy pageSize scope (single leaf) := by
  cases leaf with
  | none => trivial
  | some leaf =>
    refine ⟨whole leaf rfl,owned leaf rfl,?_,trivial,trivial⟩
    intro other member
    cases member

theorem newLeaf_whole (aligned : pageSize ∣ key.length) (supplied : Supplied visit key value) :
    ∀ node ∈ newLeaf pageSize visit parent key value counter, node.Whole pageSize := by
  intro leaf grown
  obtain ⟨-,sameKey,sameValue,more,labelled,data,isGrow,-⟩ := newLeaf_eq_some grown
  exact ⟨by rw [sameKey]; omega,by rwa [sameKey],by rw [sameKey,sameValue,supplied.1 (by rw [isGrow]; rfl)],labelled⟩

include walks in
theorem Walks.tidy (positive : 0 < pageSize) (tidy : Tidy pageSize scope forest) (aligned : pageSize ∣ key.length)
    (supplied : Supplied visit key value) (owned : ∀ extraKey ∈ scope, key.extraKey = extraKey) : Tidy pageSize scope walked.forest := by
  induction walks generalizing scope with
  | leaf grown =>
    rw [← grown]
    refine tidy_single (newLeaf_whole aligned supplied) (fun leaf grown extraKey within => ?_)
    rw [(newLeaf_eq_some grown).2.1]
    exact owned extraKey within
  | other whole unasked later ih =>
    have later' := ih tidy.rest aligned supplied owned
    refine ⟨whole,tidy.2.1,fun other member => ?_,tidy.children,later'⟩
    rcases later.roots member with own | ⟨old,inside,same⟩
    · rw [Ne,childKey_eq_iff (later'.roots_whole member).long whole.long]
      exact fun same => unasked ⟨same.1.symm.trans own.1,same.2.symm.trans own.2⟩
    · rw [← same]; exact tidy.2.2.1 old inside
  | @split _ node _ _ key value splitLen leaf whole asked agreed inside nonzero page grown =>
    have wholeLower := whole.lower visit counter page inside
    have wholeLeaf := @newLeaf_whole _ pageSize _ _ _ (counter + 1) (some (halves pageSize visit counter node splitLen).1)
      (by rw [remaining_length]; exact Nat.dvd_sub aligned page) (supplied.remaining splitLen)
    rw [grown] at wholeLeaf
    have left : ∀ node ∈ leaf, node.key = remaining key splitLen := fun node isLeaf => (newLeaf_eq_some (grown.trans isLeaf)).2.1
    refine ⟨whole.upper visit counter page nonzero inside,fun extraKey within => by rw [upper_extraKey]; exact tidy.2.1 extraKey within,
      fun other member => by rw [upper_childKey visit counter whole page nonzero inside]; exact tidy.2.2.1 other member,?_,tidy.rest⟩
    refine ⟨wholeLower,fun extraKey within => by rw [lower_extraKey,← some.inj within,upper_extraKey],?_,
      by rw [lower_extraKey]; exact tidy.children,tidy_single wholeLeaf (fun leaf isLeaf extraKey within => ?_)⟩
    · intro other member
      cases leaf with
      | none => cases member
      | some leaf =>
        obtain rfl := mem_singleton.mp member
        rw [Ne,childKey_eq_iff (wholeLeaf other rfl).long wholeLower.long,left other rfl,remaining_units]
        rintro ⟨-,first⟩
        exact agree_eq_zero positive (by rw [units_length]; exact wholeLower.long)
          (lower_parted visit counter positive agreed page inside) first.symm
    · rw [left leaf isLeaf,remaining_extraKey,← some.inj within,upper_extraKey,asked.1]
  | deeper whole asked _ _ ih =>
    refine ⟨whole.met,tidy.2.1,tidy.2.2.1,ih tidy.children ?_ (supplied.remaining _) (fun extraKey within => ?_),tidy.rest⟩
    · rw [remaining_length]; exact Nat.dvd_sub aligned whole.aligned
    · rw [remaining_extraKey,← some.inj within]
      exact asked.1.symm

/-! ### Sums over the nodes -/

section Sums
variable {M : Type w} [AddCommMonoid M]

/-- A measure that visiting does not change and splitting divides. -/
structure Additive (pageSize : Nat) (visit : Visit δ) (counter : Nat) (measure : Node δ → M) : Prop where
  met : ∀ node, measure (node.met visit) = measure node
  halves : ∀ node splitLen, measure (halves pageSize visit counter node splitLen).1 + measure (halves pageSize visit counter node splitLen).2 = measure node

@[simp] theorem total_single (measure : Node δ → M) (leaf : Option (Node δ)) :
    total measure (single leaf) = (leaf.toList.map measure).sum := by
  cases leaf <;> simp [single]

include walks in
theorem Walks.total_eq {measure : Node δ → M} (additive : Additive pageSize visit counter measure) :
    total measure walked.forest = total measure forest + (walked.leaf.toList.map measure).sum := by
  induction walks with
  | leaf => rw [total_single,total_nil,zero_add]
  | other _ _ _ ih =>
    rw [total_cons,total_cons,ih]
    abel
  | @split _ node _ _ _ _ splitLen =>
    simp only [total_cons,total_single]
    rw [← additive.halves node splitLen]
    abel
  | deeper _ _ _ _ ih =>
    simp only [total_cons,additive.met,ih]
    abel

/-- Every node carries the sum of a measure over itself and all that lies below it. -/
def Carries (carried measure : Node δ → M) (forest : Forest (Node δ)) : Prop :=
  ∀ step ∈ forest.subtrees, carried step.1 = measure step.1 + total measure step.2

theorem carries_cons {carried measure : Node δ → M} {node : Node δ} {under after : Forest (Node δ)} :
    Carries carried measure (.cons node under after) ↔
      carried node = measure node + total measure under ∧ Carries carried measure under ∧ Carries carried measure after := by
  simp only [Carries,subtrees,mem_cons,mem_append,or_imp,forall_and,forall_eq]

/-- A measure that new nodes do not have, carried unchanged to both halves of a split node. -/
structure Inherited (pageSize : Nat) (visit : Visit δ) (counter : Nat) (carried measure : Node δ → M) : Prop where
  additive : Additive pageSize visit counter measure
  met : ∀ node, carried (node.met visit) = carried node
  upper : ∀ node splitLen, carried (halves pageSize visit counter node splitLen).1 = carried node
  lower : ∀ node splitLen, carried (halves pageSize visit counter node splitLen).2 = carried node
  fresh : ∀ node splitLen, measure (halves pageSize visit counter node splitLen).1 = 0

include walks in
theorem Walks.carries {carried measure : Node δ → M} (inherited : Inherited pageSize visit counter carried measure)
    (bare : ∀ leaf ∈ walked.leaf, carried leaf = 0 ∧ measure leaf = 0) (carries : Carries carried measure forest) :
    Carries carried measure walked.forest := by
  have alone {leaf : Option (Node δ)} (bare : ∀ node ∈ leaf, carried node = 0 ∧ measure node = 0) :
      Carries carried measure (single leaf) ∧ (leaf.toList.map measure).sum = 0 := by
    cases leaf with
    | none => exact ⟨fun step member => absurd member (not_mem_nil),rfl⟩
    | some node =>
      obtain ⟨empty,none⟩ := bare node rfl
      refine ⟨carries_cons.mpr ⟨by simp [empty,none],?_,?_⟩,by simp [none]⟩
      · exact fun step member => absurd member (not_mem_nil)
      · exact fun step member => absurd member (not_mem_nil)
  induction walks with
  | leaf => exact (alone bare).1
  | other _ _ _ ih =>
    obtain ⟨here,inUnder,inAfter⟩ := carries_cons.mp carries
    exact carries_cons.mpr ⟨here,inUnder,ih bare inAfter⟩
  | @split _ node _ _ _ _ splitLen =>
    obtain ⟨here,inUnder,inAfter⟩ := carries_cons.mp carries
    obtain ⟨leafCarries,leafNone⟩ := alone bare
    have lower : measure (halves pageSize visit counter node splitLen).2 = measure node := by
      have parts := inherited.additive.halves node splitLen
      rwa [inherited.fresh,zero_add] at parts
    refine carries_cons.mpr ⟨?_,carries_cons.mpr ⟨?_,inUnder,leafCarries⟩,inAfter⟩
    · rw [inherited.upper,inherited.fresh,total_cons,total_single,leafNone,lower,here,zero_add,add_zero]
    · rw [inherited.lower,lower,here]
  | deeper _ _ _ lower ih =>
    obtain ⟨here,inUnder,inAfter⟩ := carries_cons.mp carries
    refine carries_cons.mpr ⟨?_,ih bare inUnder,inAfter⟩
    rw [inherited.met,inherited.additive.met,lower.total_eq inherited.additive,(alone bare).2,add_zero,here]

end Sums

/-! ### New nodes -/

section New
include walks

theorem Walks.numbered : counter ≤ walked.counter ∧
    (labels Node.id walked.forest : Multiset Nat) = labels Node.id forest + (List.range' counter (walked.counter - counter) : List Nat) := by
  have alone {leaf : Option (Node δ)} {place : Nat} (named : ∀ node ∈ leaf, node.id = place) :
      labels Node.id (single leaf) = List.range' place leaf.toList.length := by
    cases leaf with
    | none => rfl
    | some node => simp [single,named node rfl]
  induction walks with
  | leaf grown =>
    refine ⟨Nat.le_add_right ..,?_⟩
    rw [alone (fun leaf isLeaf => (newLeaf_eq_some (grown.trans isLeaf)).1),Nat.add_sub_cancel_left,labels_nil]
    simp
  | other _ _ _ ih =>
    refine ⟨ih.1,?_⟩
    simp only [labels_cons,← Multiset.cons_coe,← Multiset.coe_add,ih.2,Multiset.cons_add,add_assoc]
  | @split _ _ _ _ _ _ _ leaf _ _ _ _ _ _ grown =>
    refine ⟨by dsimp only; omega,?_⟩
    have count : counter + 1 + leaf.toList.length - counter = leaf.toList.length + 1 := by omega
    dsimp only
    rw [count,List.range'_succ]
    simp only [labels_cons,alone (fun leaf isLeaf => (newLeaf_eq_some (grown.trans isLeaf)).1),upper_id,lower_id,← Multiset.cons_coe,
      ← Multiset.coe_add,Multiset.cons_add,Multiset.add_cons]
    rw [add_assoc,add_assoc,add_comm (List.range' (counter + 1) _ : Multiset Nat),Multiset.cons_swap]
  | deeper _ _ _ _ ih =>
    refine ⟨ih.1,?_⟩
    simp only [labels_cons,met_id,← Multiset.cons_coe,← Multiset.coe_add,ih.2,Multiset.cons_add]
    rw [add_assoc,add_assoc,add_comm (List.range' counter _ : Multiset Nat)]

variable {id : Nat}

theorem Walks.mem_labels (old : id < counter) : id ∈ labels Node.id walked.forest ↔ id ∈ labels Node.id forest := by
  rw [← Multiset.mem_coe,walks.numbered.2,Multiset.mem_add,Multiset.mem_coe,Multiset.mem_coe,mem_range'_1]
  constructor
  · rintro (before | ⟨new,-⟩)
    · exact before
    · omega
  · exact .inl

theorem Walks.distinct (distinct : (labels Node.id forest).Nodup) (bounded : ∀ id ∈ labels Node.id forest, id < counter) :
    (labels Node.id walked.forest).Nodup ∧ ∀ id ∈ labels Node.id walked.forest, id < walked.counter := by
  obtain ⟨later,listed⟩ := walks.numbered
  constructor
  · rw [← Multiset.coe_nodup,listed,Multiset.nodup_add]
    refine ⟨by simpa using distinct,by simpa using nodup_range',?_⟩
    rw [Multiset.disjoint_left]
    intro id old new
    have := bounded id (by simpa using old)
    have := (mem_range'_1.mp (by simpa using new)).1
    omega
  · intro id member
    rw [← Multiset.mem_coe,listed,Multiset.mem_add] at member
    rcases member with old | new
    · exact lt_of_lt_of_le (bounded id (by simpa using old)) later
    · have := (mem_range'_1.mp (by simpa using new)).2
      omega

theorem Walks.visited_labels {node : Node δ} (member : node ∈ walked.visited) :
    node.id ∈ labels Node.id forest ∨ node.id = counter := by
  induction walks with
  | leaf => cases member
  | other _ _ _ ih =>
    simp only [labels_cons,mem_cons,mem_append]
    rcases ih member with old | new
    · exact .inl (.inr (.inr old))
    · exact .inr new
  | split =>
    rw [mem_singleton.mp member]
    exact .inr rfl
  | deeper _ _ _ _ ih =>
    simp only [labels_cons,mem_cons,mem_append]
    rcases mem_cons.mp member with rfl | later
    · exact .inl (.inl rfl)
    · rcases ih later with old | new
      · exact .inl (.inr (.inl old))
      · exact .inr new

end New

/-! ### Childless nodes -/

/-- A node without children whose data satisfies a predicate. -/
def Childless (holds : δ → Prop) (forest : Forest (Node δ)) (id : Nat) : Prop :=
  ∃ node, (node,Forest.nil) ∈ forest.subtrees ∧ node.id = id ∧ holds node.data

variable {id : Nat} {holds : δ → Prop} {node : Node δ}

theorem childless_cons {under after : Forest (Node δ)} :
    Childless holds (.cons node under after) id ↔
      (under = .nil ∧ node.id = id ∧ holds node.data) ∨ Childless holds under id ∨ Childless holds after id := by
  constructor
  · rintro ⟨only,member,named,fits⟩
    rcases mem_cons.mp member with same | later
    · cases same; exact .inl ⟨rfl,named,fits⟩
    · rcases mem_append.mp later with inUnder | inAfter
      · exact .inr (.inl ⟨only,inUnder,named,fits⟩)
      · exact .inr (.inr ⟨only,inAfter,named,fits⟩)
  · rintro (⟨rfl,named,fits⟩ | ⟨only,inUnder,named,fits⟩ | ⟨only,inAfter,named,fits⟩)
    · exact ⟨node,mem_cons_self ..,named,fits⟩
    · exact ⟨only,mem_cons_of_mem _ (mem_append_left _ inUnder),named,fits⟩
    · exact ⟨only,mem_cons_of_mem _ (mem_append_right _ inAfter),named,fits⟩

theorem Childless.mem_labels {forest : Forest (Node δ)} (childless : Childless holds forest id) :
    id ∈ labels Node.id forest := by
  obtain ⟨node,member,named,-⟩ := childless
  exact mem_labels_iff.mpr ⟨_,member,named⟩

theorem childless_nil : ¬ Childless holds (.nil : Forest (Node δ)) id := by
  rintro ⟨_,member,-⟩
  cases member

/-- The id of the node a walk stopped at: the root where it matched nothing. -/
def Walked.lastId (walked : Walked δ) : Option Nat := walked.visited.getLast?.map Node.id

/-- Data predicates that a walk leaves alone. -/
structure Unmoved (visit : Visit δ) (holds : δ → Prop) : Prop where
  met : ∀ data, holds (visit.pass (visit.touch data)) ↔ holds data
  lower : ∀ splitLen data, holds (visit.divide splitLen (visit.touch data)).2 ↔ holds data

section Walked
include walks

theorem Walks.lastId_ne (missing : id ∉ labels Node.id forest) (old : id < counter) : walked.lastId ≠ some id := by
  intro last
  obtain ⟨node,isLast,named⟩ := map_eq_some_iff.mp last
  rcases walks.visited_labels (mem_of_getLast? isLast) with inside | new
  · exact missing (named ▸ inside)
  · omega

theorem Walks.forest_eq_nil : walked.forest = .nil ↔ forest = .nil ∧ walked.leaf = none := by
  cases walks with
  | @leaf _ _ _ leaf => cases leaf <;> simp [single]
  | other => simp
  | split => simp
  | deeper => simp

/-- A walk makes its leaf childless and the node above it not; all other nodes keep their children. -/
theorem Walks.childless (distinct : (labels Node.id forest).Nodup) (bounded : ∀ id ∈ labels Node.id forest, id < counter)
    (unmoved : Unmoved visit holds) (id : Nat) :
    Childless holds walked.forest id ↔ (Childless holds forest id ∧ (walked.leaf.isSome = true → walked.lastId ≠ some id)) ∨
      ∃ leaf ∈ walked.leaf, leaf.id = id ∧ holds leaf.data := by
  have alone (leaf : Option (Node δ)) : Childless holds (single leaf) id ↔ ∃ node ∈ leaf, node.id = id ∧ holds node.data := by
    cases leaf with
    | none => simp [single,childless_nil]
    | some node => simp [single,childless_cons,childless_nil]
  induction walks with
  | leaf => simp only [alone,childless_nil,false_and,false_or]
  | @other _ node under after _ _ walked _ _ later ih =>
    obtain ⟨⟨-,notAfter,apart⟩,-,afterDistinct⟩ := labels_apart distinct
    simp only [labels_cons,mem_cons,mem_append] at bounded
    have inAfter : _ ↔ _ := ih afterDistinct (fun id inside => bounded id (.inr (.inr inside)))
    have here (named : node.id = id) := later.lastId_ne (named ▸ notAfter) (bounded id (.inl named.symm))
    have lower (childless : Childless holds under id) :=
      later.lastId_ne (apart id childless.mem_labels) (bounded id (.inr (.inl childless.mem_labels)))
    show Childless holds (.cons node under _) id ↔ (_ ∧ (_ → walked.lastId ≠ some id)) ∨ _
    rw [childless_cons,childless_cons,inAfter]
    grind
  | @split _ node under after _ _ splitLen =>
    have fresh (old : Childless holds (.cons node under after) id) : some counter ≠ some id := by
      have := bounded id old.mem_labels
      rw [Ne,some.injEq]; omega
    have lowerHolds : holds (halves pageSize visit counter node splitLen).2.data ↔ holds node.data := unmoved.lower splitLen node.data
    show _ ↔ (_ ∧ (_ → some counter ≠ some id)) ∨ _
    rw [childless_cons] at fresh
    rw [childless_cons,childless_cons,childless_cons,alone,lowerHolds,lower_id]
    simp only [reduceCtorEq,false_and,false_or]
    grind
  | @deeper _ node under after _ _ lower _ _ _ walks ih =>
    obtain ⟨⟨notUnder,notAfter,apart⟩,underDistinct,-⟩ := labels_apart distinct
    simp only [labels_cons,mem_cons,mem_append] at bounded
    have inUnder : _ ↔ _ := ih underDistinct (fun id inside => bounded id (.inr (.inl inside)))
    have metHolds : holds (node.met visit).data ↔ holds node.data := unmoved.met node.data
    have last : Walked.lastId
          ⟨.cons (node.met visit) lower.forest after,node.met visit::lower.visited,lower.leaf,lower.counter,lower.parted⟩ =
        some (lower.lastId.getD node.id) := by
      simp only [Walked.lastId,getLast?_cons,map_some]
      cases lower.visited.getLast? <;> rfl
    have below (childless : Childless holds under id) : some (lower.lastId.getD node.id) ≠ some id ↔ lower.lastId ≠ some id := by
      have differs : node.id ≠ id := fun named => notUnder (named ▸ childless.mem_labels)
      cases lower.lastId with
      | none => simp [differs]
      | some last => simp
    have beside (childless : Childless holds after id) : some (lower.lastId.getD node.id) ≠ some id := by
      have differs : node.id ≠ id := fun named => notAfter (named ▸ childless.mem_labels)
      have stopped := walks.lastId_ne (fun inside => apart id inside childless.mem_labels) (bounded id (.inr (.inr childless.mem_labels)))
      cases isLast : lower.lastId with
      | none => simpa using differs
      | some last => rw [isLast] at stopped; simpa using stopped
    have named (bare : under = .nil) : some (lower.lastId.getD node.id) ≠ some id ↔ node.id ≠ id := by
      subst bare
      cases walks
      simp [Walked.lastId]
    rw [last,childless_cons,childless_cons,inUnder,metHolds,met_id,walks.forest_eq_nil]
    cases lower.leaf with
    | none => simp
    | some leaf =>
      simp only [isSome_some,reduceCtorEq,and_false,false_and,false_or,forall_true_left]
      grind

end Walked

/-! ### Ways down the tree -/

/-- The units on the way to a node. -/
def wayUnits (way : List (Node δ × Forest (Node δ))) : List KeyUnit := way.flatMap (fun step => step.1.units)
/-- The slots on the way to a node. -/
def waySlots (way : List (Node δ × Forest (Node δ))) : List Slot := way.flatMap (fun step => step.1.value)

/-- The `extra_key` the way starts under. -/
def wayExtraKey (way : List (Node δ × Forest (Node δ))) : Option (Option String) := way.head?.map (fun step => step.1.key.extraKey)

@[simp] theorem wayUnits_cons (step : Node δ × Forest (Node δ)) (way : List (Node δ × Forest (Node δ))) :
    wayUnits (step::way) = step.1.units ++ wayUnits way := rfl
@[simp] theorem waySlots_cons (step : Node δ × Forest (Node δ)) (way : List (Node δ × Forest (Node δ))) :
    waySlots (step::way) = step.1.value ++ waySlots way := rfl
@[simp] theorem wayUnits_nil : wayUnits ([] : List (Node δ × Forest (Node δ))) = [] := rfl
@[simp] theorem waySlots_nil : waySlots ([] : List (Node δ × Forest (Node δ))) = [] := rfl

theorem Walks.way (walks : Walks pageSize visit counter parent forest key value walked) (distinct : (labels Node.id forest).Nodup)
    (bounded : ∀ id ∈ labels Node.id forest, id < counter) {last : Node δ} (isLast : last ∈ walked.visited.getLast?) :
    ∃ way, Way Node.id last.id walked.forest way ∧ way.map Prod.fst = walked.visited := by
  induction walks with
  | leaf => cases isLast
  | @other _ node under _ _ _ _ _ _ later ih =>
    obtain ⟨⟨-,notAfter,apart⟩,-,afterDistinct⟩ := labels_apart distinct
    simp only [labels_cons,mem_cons,mem_append] at bounded
    obtain ⟨way,leads,named⟩ := ih afterDistinct (fun id inside => bounded id (.inr (.inr inside))) isLast
    -- the last node lies among the later siblings, or is new
    have elsewhere : node.id ≠ last.id ∧ last.id ∉ labels Node.id under := by
      have nodeBound := bounded node.id (.inl rfl)
      rcases later.visited_labels (mem_of_getLast? isLast) with old | new
      · exact ⟨fun equal => notAfter (equal ▸ old),fun inUnder => apart _ inUnder old⟩
      · exact ⟨by omega,fun inUnder => absurd (bounded _ (.inr (.inl inUnder))) (by omega)⟩
    exact ⟨way,.beside elsewhere.1 elsewhere.2 leads,named⟩
  | split =>
    cases isLast
    exact ⟨_,.here rfl,rfl⟩
  | @deeper _ node _ _ _ _ walked _ _ _ lower ih =>
    obtain ⟨⟨notUnder,-⟩,underDistinct,-⟩ := labels_apart distinct
    simp only [labels_cons,mem_cons,mem_append] at bounded
    dsimp only at isLast ⊢
    rw [getLast?_cons] at isLast
    cases deep : walked.visited.getLast? with
    | none =>
      rw [deep] at isLast
      cases isLast
      rw [getLast?_eq_none_iff.mp deep]
      exact ⟨_,.here rfl,rfl⟩
    | some deepest =>
      rw [deep] at isLast
      obtain rfl : deepest = last := some.inj isLast
      obtain ⟨way,leads,named⟩ := ih underDistinct (fun id inside => bounded id (.inr (.inl inside))) deep
      have other : (node.met visit).id ≠ deepest.id := by
        have nodeBound := bounded node.id (.inl rfl)
        rw [met_id]
        rcases lower.visited_labels (mem_of_getLast? deep) with old | new
        · exact fun equal => notUnder (equal ▸ old)
        · omega
      exact ⟨_,.under other leads,by rw [map_cons,named]⟩

variable {way : List (Node δ × Forest (Node δ))}

/-- A walk leaves the units and slots on the way to every node as they are; a split only adds a stop. -/
theorem Walks.keepsWay (walks : Walks pageSize visit counter parent forest key value walked) (old : id < counter)
    (leads : Way Node.id id forest way) :
    ∃ way', Way Node.id id walked.forest way' ∧ wayUnits way' = wayUnits way ∧ waySlots way' = waySlots way ∧
      wayExtraKey way' = wayExtraKey way := by
  induction walks generalizing way with
  | leaf => cases leads
  | other _ _ _ ih =>
    cases leads with
    | here named => exact ⟨_,.here named,rfl,rfl,rfl⟩
    | under differs lower => exact ⟨_,.under differs lower,rfl,rfl,rfl⟩
    | beside differs missing later =>
      obtain ⟨way',leads',same⟩ := ih later
      exact ⟨way',.beside differs missing leads',same⟩
  | @split _ node under after _ _ splitLen leaf _ _ _ _ _ _ grown =>
    have fresh : (halves pageSize visit counter node splitLen).1.id ≠ id := by rw [upper_id]; omega
    cases leads with
    | here named => exact ⟨_,.under fresh (.here named),by simp,by simp,by simp [wayExtraKey]⟩
    | under differs lower =>
      refine ⟨_,.under fresh (.under differs lower),?_,?_,by simp [wayExtraKey]⟩
      · simp only [wayUnits_cons,← append_assoc,upper_units,lower_units,take_append_drop]
      · simp only [waySlots_cons,← append_assoc,upper_value,lower_value,take_append_drop]
    | beside differs missing later =>
      have elsewhere : id ∉ labels Node.id (single leaf) := by
        cases leaf with
        | none => exact not_mem_nil
        | some leaf =>
          have named := (newLeaf_eq_some grown).1
          simp only [single,labels_cons,labels_nil,append_nil,mem_singleton]
          omega
      refine ⟨way,.beside fresh ?_ later,rfl,rfl,rfl⟩
      rw [labels_cons,mem_cons,mem_append,not_or,not_or]
      exact ⟨fun same => differs same.symm,missing,elsewhere⟩
  | deeper _ _ _ lower ih =>
    cases leads with
    | here named => exact ⟨_,.here named,rfl,rfl,rfl⟩
    | under differs inUnder =>
      obtain ⟨way',leads',units,slots,-⟩ := ih inUnder
      exact ⟨_,.under differs leads',by simp [units],by simp [slots],rfl⟩
    | beside differs missing later => exact ⟨way,.beside differs (mt (lower.mem_labels old).mp missing) later,rfl,rfl,rfl⟩

theorem way_extraKey {own : Option String} (tidy : Tidy pageSize (some own) forest) (leads : Way Node.id id forest way) :
    ∀ step ∈ way, step.1.key.extraKey = own := by
  induction leads generalizing own with
  | here =>
    intro step member
    rw [mem_singleton.mp member]
    exact tidy.2.1 own rfl
  | under _ _ ih =>
    intro step member
    rcases mem_cons.mp member with rfl | later
    · exact tidy.2.1 own rfl
    · exact (ih tidy.children step later).trans (tidy.2.1 own rfl)
  | beside _ _ _ ih => exact ih tidy.rest

/-- What the tree holds along the units on the way to a node: the slots on the way, and then what it holds below. -/
theorem trace_way (positive : 0 < pageSize) {extraKey : Option String}
    (tidy : Tidy pageSize scope forest) (leads : Way Node.id id forest way)
    (own : ∀ step ∈ way.head?, step.1.key.extraKey = extraKey) (more : List KeyUnit) :
    ∃ step ∈ way.getLast?, trace pageSize extraKey (wayUnits way ++ more) forest =
      waySlots way ++ trace pageSize extraKey more step.2 := by
  -- the way starts at this node
  have starts {node : Node δ} {under after : Forest (Node δ)} (whole : node.Whole pageSize) {lower : List KeyUnit}
      (extra : node.key.extraKey = extraKey) :
      trace pageSize extraKey (node.units ++ lower) (.cons node under after) = node.value ++ trace pageSize extraKey lower under := by
    have asked : Asked pageSize extraKey (node.units ++ lower) node :=
      ⟨extra,by rw [take_append_of_le_length (by rw [units_length]; exact whole.long)]⟩
    have through : agree pageSize node.units (node.units ++ lower) = node.key.length := by
      have both := agree_append positive (by rw [units_length]; exact whole.aligned : pageSize ∣ node.units.length) [] lower
      have nothing := agree_le_left pageSize [] lower
      rw [append_nil,units_length] at both
      rw [length_nil] at nothing
      omega
    rw [trace_through asked through,← units_length,drop_left]
  induction leads generalizing scope with
  | here =>
    refine ⟨_,rfl,?_⟩
    simp only [wayUnits_cons,wayUnits_nil,waySlots_cons,waySlots_nil,append_nil]
    exact starts tidy.whole (own _ rfl)
  | under _ lower ih =>
    have extra := own _ rfl
    obtain ⟨step,last,along⟩ := ih tidy.children (fun step first =>
      (way_extraKey tidy.children lower step (mem_of_head? first)).trans extra)
    refine ⟨step,by rw [getLast?_cons,last]; rfl,?_⟩
    rw [wayUnits_cons,waySlots_cons,append_assoc,starts tidy.whole extra,along,append_assoc]
  | beside _ _ later ih =>
    obtain ⟨step,last,along⟩ := ih tidy.rest own
    refine ⟨step,last,?_⟩
    rw [← along]
    obtain ⟨first,isFirst,root⟩ := later.head
    have whole := tidy.rest.roots_whole root
    refine trace_other (not_asked_of_ne whole tidy.whole (fun same => tidy.2.2.1 _ root same.symm) ⟨own first isFirst,?_⟩)
    obtain ⟨others,rfl⟩ := head?_eq_some_iff.mp isFirst
    rw [wayUnits_cons,append_assoc,take_append_of_le_length]
    rw [units_length]
    exact whole.long

end Hypic.RadixTree
