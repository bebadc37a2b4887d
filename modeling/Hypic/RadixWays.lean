import Hypic.RadixLocks

/-! What a node stands for: the units and the slots on the way to it. Walks, locks and deletions elsewhere leave it as it is. -/

namespace Hypic.RadixTree
open Policy Forest List
universe u
variable {δ : Type u} {pageSize : Nat} {scope : Option (Option String)} {forest : Forest (Node δ)} {extraKey : Option String}
  {units : List KeyUnit} {slots : List Slot} {node : Option Nat}

/-- A node with what is on the way to it; the root has nothing on the way. -/
def Leads (forest : Forest (Node δ)) (extraKey : Option String) (units : List KeyUnit) (slots : List Slot) : Option Nat → Prop
  | none => units = [] ∧ slots = []
  | some id => ∃ way, path Node.id id forest = some way ∧ wayExtraKey way = some extraKey ∧ wayUnits way = units ∧ waySlots way = slots

theorem Leads.mem (leads : Leads forest extraKey units slots node) : ∀ id ∈ node, id ∈ labels Node.id forest := by
  rintro id ⟨⟩
  obtain ⟨way,found,-⟩ := leads
  exact path_isSome.mp (by rw [found]; rfl)

variable {key : RadixKey} {visit : Visit δ} {value : List Slot} {counter : Nat} {parent : Option (Node δ)} {walked : Walked δ}

theorem Leads.walk (leads : Leads forest extraKey units slots node) (walks : Walks pageSize visit counter parent forest key value walked)
    (bounded : ∀ id ∈ labels Node.id forest, id < counter) : Leads walked.forest extraKey units slots node := by
  cases node with
  | none => exact leads
  | some id =>
    have present := leads.mem id rfl
    obtain ⟨way,found,rest⟩ := leads
    obtain ⟨way',found',units',slots',extra'⟩ := walks.keepsWay (bounded id present) (path_eq_some.mp found)
    exact ⟨way',path_eq_some.mpr found',by rw [extra',units',slots']; exact rest⟩

variable {change : Node δ → Node δ}

section
variable (leads : Leads forest extraKey units slots node)
include leads

theorem Leads.map (sameId : ∀ node, (change node).id = node.id)
    (sameKey : ∀ node, (change node).key = node.key) (sameValue : ∀ node, (change node).value = node.value) :
    Leads (forest.map change) extraKey units slots node := by
  cases node with
  | none => exact leads
  | some id =>
    obtain ⟨way,found,extra,rfl,rfl⟩ := leads
    refine ⟨_,by rw [path_map sameId,found]; rfl,?_,?_,?_⟩
    · rw [← extra]
      cases way <;> simp [wayExtraKey,sameKey]
    · simp [wayUnits,flatMap_map,Node.units,sameKey]
    · simp [waySlots,flatMap_map,sameValue]

theorem Leads.erase (distinct : (labels Node.id forest).Nodup) {target : Nat}
    (leaf : IsLeaf Node.id target forest) (other : node ≠ some target) : Leads (erase Node.id target forest) extraKey units slots node := by
  cases node with
  | none => exact leads
  | some id =>
    obtain ⟨way,found,extra,rfl,rfl⟩ := leads
    have different : id ≠ target := fun same => other (by rw [same])
    refine ⟨_,by rw [path_erase distinct leaf different,found]; rfl,?_,?_,?_⟩
    · rw [← extra]
      cases way <;> simp [wayExtraKey]
    · simp [wayUnits,flatMap_map]
    · simp [waySlots,flatMap_map]

theorem Leads.trace (positive : 0 < pageSize) (tidy : Tidy pageSize scope forest)
    (more : List KeyUnit) : slots.length = units.length ∧ slots <+: trace pageSize extraKey (units ++ more) forest := by
  cases node with
  | none =>
    obtain ⟨rfl,rfl⟩ := leads
    exact ⟨rfl, nil_prefix⟩
  | some id =>
    obtain ⟨way,found,extra,rfl,rfl⟩ := leads
    have own : ∀ step ∈ way.head?, step.1.key.extraKey = extraKey := by
      intro step first
      rw [wayExtraKey,first] at extra
      exact Option.some.inj extra
    have sized : (waySlots way).length = (wayUnits way).length := by
      have inside := path_subset found
      clear found extra own
      induction way with
      | nil => rfl
      | cons step rest ih =>
        rw [wayUnits_cons,waySlots_cons,length_append,length_append,ih (fun inner member => inside (mem_cons_of_mem _ member)),
          (tidy.whole_of_mem (inside mem_cons_self)).sized,units_length]
    obtain ⟨step,-,along⟩ := trace_way positive tidy (path_eq_some.mp found) own more
    exact ⟨sized,by rw [along]; exact prefix_append ..⟩

end

section Walked
variable (walks : Walks pageSize visit counter parent forest key value walked)
include walks

theorem Walks.leads (distinct : (labels Node.id forest).Nodup) (bounded : ∀ id ∈ labels Node.id forest, id < counter) :
    Leads walked.forest key.extraKey (key.units.take (trace pageSize key.extraKey key.units forest).length)
      (trace pageSize key.extraKey key.units forest) walked.lastId := by
  rw [← walks.units,← walks.slots]
  cases ends : walked.visited.getLast? with
  | none =>
    rw [Walked.lastId,ends,getLast?_eq_none_iff.mp ends]
    exact ⟨rfl,rfl⟩
  | some last =>
    rw [Walked.lastId,ends]
    obtain ⟨way,found,visited⟩ := walks.way distinct bounded ends
    refine ⟨way,path_eq_some.mpr found,?_,?_,?_⟩
    · rw [wayExtraKey]
      cases way with
      | nil => exact absurd rfl (path_ne_nil (path_eq_some.mpr found))
      | cons step rest =>
        have first : step.1 ∈ walked.visited.head? := by rw [← visited]; rfl
        exact congrArg some (walks.head first)
    · rw [← visited,flatMap_map]; rfl
    · rw [← visited,flatMap_map]; rfl

/-! ### Facts about every node -/

/-- A fact about single nodes that visiting and splitting at a page boundary keep, and that holds of the new leaf. -/
theorem Walks.every {fact : Node δ → Prop} (met : ∀ node, fact node → fact (node.met visit))
    (split : ∀ node splitLen, fact node → pageSize ∣ splitLen → splitLen < node.key.length → node.Whole pageSize →
      fact (halves pageSize visit counter node splitLen).1 ∧ fact (halves pageSize visit counter node splitLen).2)
    (grown : ∀ leaf ∈ walked.leaf, fact leaf) (every : ∀ node ∈ forest.nodes, fact node) : ∀ node ∈ walked.forest.nodes, fact node := by
  have alone {leaf : Option (Node δ)} (holds : ∀ node ∈ leaf, fact node) : ∀ node ∈ (single leaf).nodes, fact node := by
    cases leaf with
    | none => intro node member; cases member
    | some leaf =>
      intro node member
      rw [mem_singleton.mp member]
      exact holds leaf rfl
  induction walks with
  | leaf => exact alone grown
  | other _ _ _ ih =>
    simp only [nodes,forall_mem_cons,forall_mem_append] at every ⊢
    exact ⟨every.1,every.2.1,ih grown every.2.2⟩
  | split whole _ _ inside _ aligned =>
    simp only [nodes,forall_mem_cons,forall_mem_append] at every ⊢
    obtain ⟨upper,lower⟩ := split _ _ every.1 aligned inside whole
    exact ⟨upper,⟨lower,every.2.1,alone grown⟩,every.2.2⟩
  | deeper _ _ _ _ ih =>
    simp only [nodes,forall_mem_cons,forall_mem_append] at every ⊢
    exact ⟨met _ every.1,ih grown every.2.1,every.2.2⟩

end Walked

theorem every_map {fact : Node δ → Prop} (keeps : ∀ node, fact node → fact (change node))
    (every : ∀ node ∈ forest.nodes, fact node) : ∀ node ∈ (forest.map change).nodes, fact node := by
  rw [nodes_map]
  intro node member
  obtain ⟨old,inside,rfl⟩ := mem_map.mp member
  exact keeps old (every old inside)

/-! ### The slots of a tree -/

/-- All slots the nodes hold. -/
def treeSlots (forest : Forest (Node δ)) : Multiset Slot := total (fun node => (node.value : Multiset Slot)) forest

theorem additive_value (visit : Visit δ) (counter : Nat) : Additive pageSize visit counter (fun node => (node.value : Multiset Slot)) where
  met _ := rfl
  halves node splitLen := by
    rw [upper_value,lower_value,Multiset.coe_add,take_append_drop]

theorem Walks.treeSlots_eq (walks : Walks pageSize visit counter parent forest key value walked) (supplied : Supplied visit key value) :
    treeSlots walked.forest =
      treeSlots forest + ↑(value.drop (trace pageSize key.extraKey key.units forest).length) := by
  rw [treeSlots,walks.total_eq (additive_value visit counter),treeSlots]
  congr 1
  cases grown : walked.leaf with
  | some leaf =>
    obtain ⟨-,isValue,-⟩ := walks.leaf_spec grown
    simp [isValue]
  | none =>
    rcases walks.leaf_isNone.mp grown with looks | all
    · rw [supplied.2 looks]; simp
    · have sized : value.length ≤ key.length := by
        cases isGrow : visit.grow with
        | none => rw [supplied.2 isGrow]; exact Nat.zero_le _
        | some data => exact (supplied.1 (by rw [isGrow]; rfl)).le
      rw [all,drop_of_length_le sized]; rfl

theorem treeSlots_map (sameValue : ∀ node, (change node).value = node.value) :
    treeSlots (forest.map change) = treeSlots forest := by
  rw [treeSlots,total_map]
  exact total_congr (fun node _ => by rw [Function.comp_apply,sameValue])

end Hypic.RadixTree
