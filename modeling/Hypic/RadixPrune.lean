import Hypic.RadixWalk
import Hypic.PrefixMap

/-! Changing the data of nodes and removing a leaf, and what the tree holds afterwards. A tree in order is read
    as a map from whole-page sequences to pages of slots. -/

namespace Hypic.RadixTree
open Policy Agree Forest
universe u
variable {δ : Type u} {pageSize : Nat} {scope : Option (Option String)} {forest : Forest (Node δ)}

/-- The map a tree stands for. -/
def contents (pageSize : Nat) (forest : Forest (Node δ)) : PrefixMap (Option String) KeyUnit Slot :=
  .ofReading pageSize (fun extraKey units => trace pageSize extraKey units forest)

section
variable (positive : 0 < pageSize) (tidy : Tidy pageSize scope forest)
include positive tidy

theorem Tidy.reading :
    PrefixMap.Reading pageSize (fun extraKey units => trace pageSize extraKey units forest) :=
  ⟨fun _ units => trace_length_le tidy units,fun _ units => trace_length_dvd tidy units,
    fun _ units _ aligned => trace_take positive tidy units aligned⟩

theorem Tidy.closed :
    PrefixMap.Closed pageSize (contents pageSize forest) := (tidy.reading positive).closed

theorem Tidy.along (extraKey : Option String) (units : List KeyUnit) :
    (contents pageSize forest).along pageSize extraKey units = trace pageSize extraKey units forest :=
  (tidy.reading positive).along_eq positive extraKey units

end

theorem Tidy.whole_of_mem (tidy : Tidy pageSize scope forest) {step : Node δ × Forest (Node δ)} (inside : step ∈ forest.subtrees) :
    step.1.Whole pageSize := by
  induction forest generalizing scope with
  | nil => cases inside
  | cons node under after inChildren inRest =>
    rcases List.mem_cons.mp inside with rfl | later
    · exact tidy.whole
    · rcases List.mem_append.mp later with below | beside
      · exact inChildren tidy.children below
      · exact inRest tidy.rest beside

section Map
variable {change : Node δ → Node δ} (sameKey : ∀ node, (change node).key = node.key) (sameValue : ∀ node, (change node).value = node.value)
include sameKey

theorem roots_map (forest : Forest (Node δ)) : (forest.map change).roots = forest.roots.map change := by
  induction forest with
  | nil => rfl
  | cons node under after _ inRest => simp [map,roots,inRest]

include sameValue

theorem trace_map (extraKey : Option String) (units : List KeyUnit) :
    trace pageSize extraKey units (forest.map change) = trace pageSize extraKey units forest := by
  induction forest generalizing units with
  | nil => rfl
  | cons node under after inChildren inRest =>
    rw [map,trace,trace,inChildren,inRest,sameKey,sameValue,Node.units,Node.units,sameKey]

theorem contents_map : contents pageSize (forest.map change) = contents pageSize forest := by
  unfold contents
  congr 1
  funext extraKey units
  exact trace_map sameKey sameValue extraKey units

theorem Tidy.map (sameLabel : ∀ node, (change node).label = node.label) (tidy : Tidy pageSize scope forest) : Tidy pageSize scope (forest.map change) := by
  induction forest generalizing scope with
  | nil => trivial
  | cons node under after inChildren inRest =>
    refine ⟨⟨?_,?_,?_,?_⟩,?_,?_,?_,inRest tidy.rest⟩
    · rw [sameKey]; exact tidy.whole.positive
    · rw [sameKey]; exact tidy.whole.aligned
    · rw [sameKey,sameValue]; exact tidy.whole.sized
    · rw [sameKey,sameLabel]; exact tidy.whole.labelled
    · rw [sameKey]; exact tidy.2.1
    · intro other member
      rw [roots_map sameKey] at member
      obtain ⟨old,inside,rfl⟩ := List.mem_map.mp member
      rw [sameKey,sameKey]
      exact tidy.2.2.1 old inside
    · rw [sameKey]; exact inChildren tidy.children

end Map

theorem roots_erase (id : Nat) (forest : Forest (Node δ)) : (erase Node.id id forest).roots ⊆ forest.roots := by
  induction forest with
  | nil => exact List.Subset.refl _
  | cons node under after _ inRest =>
    rw [erase]
    split
    · exact List.subset_cons_self ..
    · exact List.cons_subset_cons _ inRest

theorem Tidy.erase (id : Nat) (tidy : Tidy pageSize scope forest) : Tidy pageSize scope (erase Node.id id forest) := by
  induction forest generalizing scope with
  | nil => trivial
  | cons node under after inChildren inRest =>
    rw [Forest.erase]
    split
    · exact tidy.rest
    · exact ⟨tidy.whole,tidy.2.1,fun other member => tidy.2.2.1 other (roots_erase id after member),
        inChildren tidy.children,inRest tidy.rest⟩

/-- What removing a leaf takes away: along `units` the slots after the first `kept`, and nothing else. -/
structure Pruned (pageSize : Nat) (extraKey : Option String) (units : List KeyUnit) (slots : List Slot) (kept : Nat)
    (old new : Forest (Node δ)) : Prop where
  leaf : ∀ sought, kept < agree pageSize units sought →
    trace pageSize extraKey sought old = slots.take (agree pageSize units sought)
  pruned : ∀ asker sought, trace pageSize asker sought new =
    if asker = extraKey ∧ kept < agree pageSize units sought then slots.take kept else trace pageSize asker sought old

/-- The units lead into one of the trees of a forest. -/
def Enters (pageSize : Nat) (extraKey : Option String) (units : List KeyUnit) (forest : Forest (Node δ)) : Prop :=
  ∃ root ∈ forest.roots, root.key.extraKey = extraKey ∧ root.units.take pageSize = units.take pageSize

theorem take_of_agree (positive : 0 < pageSize) {units sought : List KeyUnit} {kept : Nat} (deep : kept < agree pageSize units sought) :
    units.take pageSize = sought.take pageSize :=
  ((le_agree_iff positive (Nat.dvd_refl _)).mp (Nat.le_of_dvd (by omega) (agree_dvd ..))).2.2

theorem agree_pos_of_asked (positive : 0 < pageSize) {node : Node δ} (whole : node.Whole pageSize) {extraKey : Option String}
    {sought : List KeyUnit} (asked : Asked pageSize extraKey sought node) : 0 < agree pageSize node.units sought := by
  refine lt_of_lt_of_le positive ((le_agree_iff positive (Nat.dvd_refl _)).mpr ⟨?_,?_,asked.2⟩)
  · rw [units_length]; exact whole.long
  · have lengths := congrArg List.length asked.2
    have := whole.long
    simp only [List.length_take,units_length] at lengths
    omega

theorem Tidy.roots_own {own : Option String} (tidy : Tidy pageSize (some own) forest) : ∀ root ∈ forest.roots, root.key.extraKey = own := by
  intro root member
  induction forest with
  | nil => cases member
  | cons first _ _ _ inRest =>
    rcases List.mem_cons.mp member with rfl | later
    · exact tidy.2.1 _ rfl
    · exact inRest tidy.rest later

theorem erase_pruned (positive : 0 < pageSize) (tidy : Tidy pageSize scope forest) (distinct : (labels Node.id forest).Nodup)
    {leaf : Node δ} (inside : (leaf,Forest.nil) ∈ forest.subtrees) :
    ∃ extraKey units slots kept, units.length = kept + leaf.key.length ∧ slots.length = units.length ∧ pageSize ∣ kept ∧
      slots.drop kept = leaf.value ∧ (∃ way, Way Node.id leaf.id forest way ∧ wayUnits way = units) ∧
      Enters pageSize extraKey units forest ∧ Pruned pageSize extraKey units slots kept forest (erase Node.id leaf.id forest) := by
  have plucks := plucks_erase distinct inside
  generalize erase Node.id leaf.id forest = less at plucks ⊢
  clear inside distinct
  induction plucks generalizing scope with
  | here =>
    have whole := tidy.whole
    refine ⟨leaf.key.extraKey,leaf.units,leaf.value,0,by rw [units_length,Nat.zero_add],by rw [units_length,whole.sized],
      Nat.dvd_zero _,rfl,⟨_,.here rfl,List.append_nil _⟩,⟨leaf,List.mem_cons_self ..,rfl,rfl⟩,?_,?_⟩
    · intro sought some
      have asked : Asked pageSize leaf.key.extraKey sought leaf := ⟨rfl,take_of_agree positive some⟩
      rcases agree_cases pageSize leaf sought with early | through
      · exact trace_inside asked early
      · rw [trace_through asked through,through,List.take_of_length_le (le_of_eq whole.sized)]
        exact List.append_nil _
    · intro asker sought
      by_cases asked : Asked pageSize asker sought leaf
      · rw [if_pos ⟨asked.1.symm,agree_pos_of_asked positive whole asked⟩,List.take_zero]
        exact trace_unasked (fun root isRoot => not_asked_of_ne whole (tidy.rest.roots_whole isRoot) (tidy.2.2.1 root isRoot) asked)
      · rw [if_neg,trace_other asked]
        rintro ⟨own,some⟩
        exact asked ⟨own.symm,take_of_agree positive some⟩
  | @under node under after _ differs _ _ ih =>
    have whole := tidy.whole
    obtain ⟨extraKey,units,slots,kept,length,sized,aligned,value,⟨way,leads,isWay⟩,⟨root,isRoot,extra,page⟩,gone⟩ := ih tidy.children
    obtain rfl : node.key.extraKey = extraKey := (tidy.children.roots_own root isRoot).symm.trans extra
    have nodeAligned : pageSize ∣ node.units.length := by rw [units_length]; exact whole.aligned
    have first : (node.units ++ units).take pageSize = node.units.take pageSize :=
      List.take_append_of_le_length (by rw [units_length]; exact whole.long)
    -- how far a sequence follows the way to the leaf
    have reach (sought : List KeyUnit) :
        (agree pageSize node.units sought < node.key.length ∧
          agree pageSize (node.units ++ units) sought = agree pageSize node.units sought) ∨
        (agree pageSize node.units sought = node.key.length ∧
          agree pageSize (node.units ++ units) sought = node.key.length + agree pageSize units (sought.drop node.key.length)) := by
      rcases agree_cases pageSize node sought with early | through
      · exact .inl ⟨early,agree_append_left positive (by rwa [units_length]) nodeAligned _⟩
      · refine .inr ⟨through,?_⟩
        conv_lhs => rw [follows_of_through through,agree_append positive nodeAligned,units_length]
    refine ⟨node.key.extraKey,node.units ++ units,node.value ++ slots,node.key.length + kept,?_,?_,
      Nat.dvd_add whole.aligned aligned,?_,⟨_,.under differs leads,by rw [wayUnits_cons,isWay]⟩,
      ⟨node,List.mem_cons_self ..,rfl,first.symm⟩,?_,?_⟩
    · rw [List.length_append,units_length,length]; omega
    · rw [List.length_append,List.length_append,units_length,whole.sized,sized]
    · rw [← whole.sized,List.drop_length_add_append,value]
    · intro sought deep
      have asked : Asked pageSize node.key.extraKey sought node := ⟨rfl,first.symm.trans (take_of_agree positive deep)⟩
      rcases reach sought with ⟨early,same⟩ | ⟨through,same⟩
      · omega
      · rw [trace_through asked through,gone.leaf _ (by omega),same,← whole.sized,List.take_length_add_append]
    · intro asker sought
      by_cases asked : Asked pageSize asker sought node
      · obtain rfl := asked.1
        rcases reach sought with ⟨early,same⟩ | ⟨through,same⟩
        · rw [trace_inside asked early,trace_inside asked early,if_neg (by omega)]
        · rw [trace_through asked through,trace_through asked through,gone.pruned]
          by_cases deep : kept < agree pageSize units (sought.drop node.key.length)
          · rw [if_pos ⟨rfl,deep⟩,if_pos ⟨rfl,by omega⟩,← whole.sized,List.take_length_add_append]
          · rw [if_neg (fun both => deep both.2),if_neg (fun both => deep (by omega))]
      · rw [trace_other asked,trace_other asked,if_neg]
        rintro ⟨own,deep⟩
        exact asked ⟨own.symm,first.symm.trans (take_of_agree positive deep)⟩
  | @beside node under after _ differs missing _ ih =>
    obtain ⟨extraKey,units,slots,kept,length,sized,aligned,value,⟨way,leads,isWay⟩,⟨root,isRoot,extra,page⟩,gone⟩ := ih tidy.rest
    have passes (sought : List KeyUnit) (deep : kept < agree pageSize units sought) : ¬ Asked pageSize extraKey sought node :=
      not_asked_of_ne (tidy.rest.roots_whole isRoot) tidy.whole (fun equal => tidy.2.2.1 root isRoot equal.symm)
        ⟨extra,page.trans (take_of_agree positive deep)⟩
    refine ⟨extraKey,units,slots,kept,length,sized,aligned,value,⟨way,.beside differs missing leads,isWay⟩,
      ⟨root,List.mem_cons_of_mem _ isRoot,extra,page⟩,?_,?_⟩
    · intro sought deep
      rw [trace_other (passes sought deep)]
      exact gone.leaf sought deep
    · intro asker sought
      by_cases asked : Asked pageSize asker sought node
      · rw [if_neg]
        · rcases agree_cases pageSize node sought with early | through
          · rw [trace_inside asked early,trace_inside asked early]
          · rw [trace_through asked through,trace_through asked through]
        · rintro ⟨rfl,deep⟩
          exact passes sought deep asked
      · rw [trace_other asked,trace_other asked]
        exact gone.pruned asker sought

theorem erase_trims (positive : 0 < pageSize) (tidy : Tidy pageSize scope forest) (distinct : (labels Node.id forest).Nodup)
    {leaf : Node δ} (inside : (leaf,Forest.nil) ∈ forest.subtrees) (aligned : pageSize ∣ leaf.key.length) :
    PrefixMap.TrimsAll (contents pageSize forest) (contents pageSize (erase Node.id leaf.id forest)) := by
  obtain ⟨extraKey,units,slots,kept,length,sized,dvd,-,-,-,gone⟩ := erase_pruned positive tidy distinct inside
  exact PrefixMap.trims_of_pruned positive dvd (by rw [length]; exact Nat.dvd_add dvd aligned) (by omega) sized gone.leaf gone.pruned

end Hypic.RadixTree
