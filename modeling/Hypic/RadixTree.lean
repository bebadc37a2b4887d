import Hypic.Forest
import Hypic.RadixKey

/-! The tree the radix caches share. A walk follows a key down from the root, splits the node the key leaves in the
    middle of, and may hang a leaf for the rest of the key below the last node it reached. What the caches keep
    at a node besides its key and slots is their own. -/

namespace Hypic.RadixTree
open Policy Agree Forest List
universe u
variable {δ : Type u}

/-- A tree node but the root, with the key it stands under in its parent's dictionary of children. -/
structure Node (δ : Type u) where
  id : Nat
  label : ChildKey
  key : RadixKey
  value : List Slot
  data : δ
deriving DecidableEq, Repr

def Node.units (node : Node δ) : List KeyUnit := node.key.units

/-- What a cache does to the data of the nodes it meets. -/
structure Visit (δ : Type u) where
  /-- Of every node found under the key's next page. -/
  touch : δ → δ
  /-- Of the two halves of a node that is split after so many units. -/
  divide : Nat → δ → δ × δ
  /-- Of every node wholly matched, and of the upper half of a split one. -/
  pass : δ → δ
  /-- Of a new leaf under a node, for the rest of the key; nothing where the walk only looks. -/
  grow : Option (Option (Node δ) → RadixKey → δ)

structure Walked (δ : Type u) where
  forest : Forest (Node δ)
  /-- The nodes matched, from the root on, as the walk leaves them. -/
  visited : List (Node δ)
  leaf : Option (Node δ)
  counter : Nat
  /-- The node that was split; the last one matched is now above it. -/
  parted : Option Nat

section Walk
variable (pageSize : Nat) (visit : Visit δ)

def Node.touched (node : Node δ) : Node δ := { node with data := visit.touch node.data }
def Node.passed (node : Node δ) : Node δ := { node with data := visit.pass node.data }

/-- `_split_node`: the new node takes the front of the key, the slots and the child's place. -/
def splitNode (counter : Nat) (child : Node δ) (splitLen : Nat) : Node δ × Node δ :=
  (⟨counter,child.key.childKey pageSize,child.key.slice 0 splitLen,child.value.take splitLen,(visit.divide splitLen child.data).1⟩,
    { child with
      label := (child.key.slice splitLen child.key.length).childKey pageSize
      key := child.key.slice splitLen child.key.length
      value := child.value.drop splitLen
      data := (visit.divide splitLen child.data).2 })

/-- The leaf for what is left of the key. -/
def newLeaf (parent : Option (Node δ)) (key : RadixKey) (value : List Slot) (counter : Nat) : Option (Node δ) :=
  if key.length = 0 then none else visit.grow.map (fun data => ⟨counter,key.childKey pageSize,key,value,data parent key⟩)

/-- A leaf as the last of a node's children. -/
def single : Option (Node δ) → Forest (Node δ)
  | some leaf => .cons leaf .nil .nil
  | none => .nil

/-- The loop of `_match_prefix_helper` and `_insert_helper` from one node's children on. -/
def walk (counter : Nat) : Option (Node δ) → Forest (Node δ) → RadixKey → List Slot → Walked δ
  | parent, .nil, key, value =>
    let leaf := newLeaf pageSize visit parent key value counter
    ⟨single leaf,[],leaf,counter + leaf.toList.length,none⟩
  | parent, .cons node children rest, key, value =>
    if node.label = key.childKey pageSize then
      let child := node.touched visit
      let prefixLen := node.key.matchWith key pageSize
      let key := key.slice prefixLen key.length
      let value := value.drop prefixLen
      if prefixLen < node.key.length then
        -- the rest of the key starts with another page than the lower half, so the loop ends here
        let upper := (splitNode pageSize visit counter child prefixLen).1.passed visit
        let lower := (splitNode pageSize visit counter child prefixLen).2
        let leaf := newLeaf pageSize visit (some upper) key value (counter + 1)
        ⟨.cons upper (.cons lower children (single leaf)) rest,[upper],leaf,counter + 1 + leaf.toList.length,some node.id⟩
      else
        let child := child.passed visit
        if key.length = 0 then ⟨.cons child children rest,[child],none,counter,none⟩
        else
          let under := walk counter (some child) children key value
          ⟨.cons child under.forest rest,child::under.visited,under.leaf,under.counter,under.parted⟩
    else
      let after := walk counter parent rest key value
      ⟨.cons node children after.forest,after.visited,after.leaf,after.counter,after.parted⟩

end Walk

/-- A node's key is a positive number of whole pages, with a slot for each unit. -/
structure Node.Whole (pageSize : Nat) (node : Node δ) : Prop where
  positive : 0 < node.key.length
  aligned : pageSize ∣ node.key.length
  sized : node.value.length = node.key.length
  labelled : node.label = node.key.childKey pageSize

/-- Whole nodes, siblings told apart by their first pages, one `extra_key` below every child of the root. -/
def Tidy (pageSize : Nat) : Option (Option String) → Forest (Node δ) → Prop
  | _, .nil => True
  | scope, .cons node children rest =>
    node.Whole pageSize ∧ (∀ extraKey ∈ scope, node.key.extraKey = extraKey) ∧
      (∀ other ∈ rest.roots, other.key.childKey pageSize ≠ node.key.childKey pageSize) ∧
      Tidy pageSize (some node.key.extraKey) children ∧ Tidy pageSize scope rest

/-- The slots along the longest start of a sequence of units, in whole pages, that the tree holds under an `extra_key`. -/
def trace (pageSize : Nat) (extraKey : Option String) : List KeyUnit → Forest (Node δ) → List Slot
  | _, .nil => []
  | units, .cons node children rest =>
    if node.key.extraKey = extraKey ∧ node.units.take pageSize = units.take pageSize then
      if agree pageSize node.units units < node.key.length then node.value.take (agree pageSize node.units units)
      else node.value ++ trace pageSize extraKey (units.drop node.key.length) children
    else trace pageSize extraKey units rest

section Trace
variable {pageSize : Nat} {node : Node δ} {under after : Forest (Node δ)} {extraKey : Option String} {units : List KeyUnit}
  {scope : Option (Option String)}

@[simp] theorem units_length : node.units.length = node.key.length := RadixKey.units_length

theorem Node.Whole.long (whole : node.Whole pageSize) : pageSize ≤ node.key.length := Nat.le_of_dvd whole.positive whole.aligned

theorem Tidy.whole (tidy : Tidy pageSize scope (.cons node under after)) : node.Whole pageSize := tidy.1
theorem Tidy.children (tidy : Tidy pageSize scope (.cons node under after)) :
    Tidy pageSize (some node.key.extraKey) under := tidy.2.2.2.1
theorem Tidy.rest (tidy : Tidy pageSize scope (.cons node under after)) : Tidy pageSize scope after := tidy.2.2.2.2

/-- Two keys that hold a whole page stand under one child key when `extra_key` and first page agree. -/
theorem childKey_eq_iff {left right : RadixKey} (longLeft : pageSize ≤ left.length) (longRight : pageSize ≤ right.length) :
    left.childKey pageSize = right.childKey pageSize ↔
      left.extraKey = right.extraKey ∧ left.units.take pageSize = right.units.take pageSize := by
  rw [ChildKey.ext_iff,RadixKey.childKey_plain longLeft,RadixKey.childKey_plain longRight]
  rfl

theorem Node.Whole.label_iff (whole : node.Whole pageSize) {key : RadixKey} (long : pageSize ≤ key.length) :
    node.label = key.childKey pageSize ↔ node.key.extraKey = key.extraKey ∧ node.units.take pageSize = key.units.take pageSize := by
  rw [whole.labelled]
  exact childKey_eq_iff whole.long long

/-- A node is asked when `extra_key` and first page are its own. -/
def Asked (pageSize : Nat) (extraKey : Option String) (units : List KeyUnit) (node : Node δ) : Prop :=
  node.key.extraKey = extraKey ∧ node.units.take pageSize = units.take pageSize

theorem trace_other (apart : ¬ Asked pageSize extraKey units node) :
    trace pageSize extraKey units (.cons node under after) = trace pageSize extraKey units after := by
  rw [trace]; exact if_neg apart

theorem trace_inside (asked : Asked pageSize extraKey units node) (inside : agree pageSize node.units units < node.key.length) :
    trace pageSize extraKey units (.cons node under after) = node.value.take (agree pageSize node.units units) := by
  rw [trace]; exact (if_pos asked).trans (if_pos inside)

theorem trace_through (asked : Asked pageSize extraKey units node) (through : agree pageSize node.units units = node.key.length) :
    trace pageSize extraKey units (.cons node under after) =
      node.value ++ trace pageSize extraKey (units.drop node.key.length) under := by
  rw [trace]; exact (if_pos asked).trans (if_neg (by omega))

variable (pageSize) in
theorem agree_cases (node : Node δ) (units : List KeyUnit) :
    agree pageSize node.units units < node.key.length ∨ agree pageSize node.units units = node.key.length := by
  have bound := agree_le_left pageSize node.units units
  rw [units_length] at bound
  omega

theorem follows_of_through (through : agree pageSize node.units units = node.key.length) :
    units = node.units ++ units.drop node.key.length := by
  have same := take_agree pageSize node.units units
  rw [through,← units_length,take_length] at same
  conv_lhs => rw [← take_append_drop node.units.length units,← same]
  rw [units_length]

theorem not_asked_of_ne {other : Node δ} (whole : node.Whole pageSize) (whole' : other.Whole pageSize)
    (apart : other.key.childKey pageSize ≠ node.key.childKey pageSize) (asked : Asked pageSize extraKey units node) :
    ¬ Asked pageSize extraKey units other := by
  intro asked'
  exact apart ((childKey_eq_iff whole'.long whole.long).mpr ⟨asked'.1.trans asked.1.symm,asked'.2.trans asked.2.symm⟩)

variable {forest : Forest (Node δ)}

theorem Tidy.roots_whole (tidy : Tidy pageSize scope forest) {root : Node δ} (member : root ∈ forest.roots) :
    root.Whole pageSize := by
  induction forest with
  | nil => cases member
  | cons node under after _ inRest =>
    rcases mem_cons.mp member with rfl | later
    · exact tidy.whole
    · exact inRest tidy.rest later

theorem trace_unasked (unasked : ∀ root ∈ forest.roots, ¬ Asked pageSize extraKey units root) :
    trace pageSize extraKey units forest = [] := by
  induction forest with
  | nil => rfl
  | cons node under after _ inRest =>
    rw [trace_other (unasked node (mem_cons_self ..))]
    exact inRest (forall_mem_cons.mp unasked).2

theorem not_asked_nil (positive : 0 < pageSize) (whole : node.Whole pageSize) : ¬ Asked pageSize extraKey [] node := by
  rintro ⟨-,same⟩
  have lengths := congrArg List.length same
  simp only [length_take,units_length,length_nil] at lengths
  have := whole.positive
  omega

theorem trace_nil (positive : 0 < pageSize) (tidy : Tidy pageSize scope forest) :
    trace pageSize extraKey [] forest = [] :=
  trace_unasked (fun _ member => not_asked_nil positive (tidy.roots_whole member))

/-- What is held along a shorter sequence, in whole pages, is the start of what is held along the longer one. -/
theorem trace_take (positive : 0 < pageSize) (tidy : Tidy pageSize scope forest) (units : List KeyUnit)
    {m : Nat} (aligned : pageSize ∣ m) :
    trace pageSize extraKey (units.take m) forest = (trace pageSize extraKey units forest).take m := by
  induction forest generalizing units m scope with
  | nil => rw [trace,trace,take_nil]
  | cons node under after inChildren inRest =>
    rcases Nat.eq_zero_or_pos m with rfl | some
    · rw [take_zero,take_zero,trace_nil positive tidy]
    have page : pageSize ≤ m := Nat.le_of_dvd some aligned
    have sized := tidy.whole.sized
    have asked_iff : Asked pageSize extraKey (units.take m) node ↔ Asked pageSize extraKey units node := by
      rw [Asked,Asked,take_take,min_eq_left page]
    have shorter := agree_take positive node.units units aligned
    by_cases asked : Asked pageSize extraKey units node
    · rcases agree_cases pageSize node units with inside | through
      · rw [trace_inside (asked_iff.mpr asked) (by rw [shorter]; omega),trace_inside asked inside,shorter,take_take,min_comm]
      · rw [trace_through asked through]
        rcases Nat.lt_or_ge m node.key.length with cut | whole
        · rw [trace_inside (asked_iff.mpr asked) (by rw [shorter]; omega),shorter,through,
            take_append_of_le_length (by omega),min_eq_right (by omega)]
        · rw [trace_through (asked_iff.mpr asked) (by rw [shorter]; omega),take_append,
            take_of_length_le (by omega : node.value.length ≤ m),drop_take,
            inChildren tidy.children _ (Nat.dvd_sub aligned tidy.whole.aligned),sized]
    · rw [trace_other (fun here => asked (asked_iff.mp here)),trace_other asked,inRest tidy.rest _ aligned]

theorem trace_length_le (tidy : Tidy pageSize scope forest) (units : List KeyUnit) :
    (trace pageSize extraKey units forest).length ≤ units.length := by
  induction forest generalizing units scope with
  | nil => exact Nat.zero_le _
  | cons node under after inChildren inRest =>
    by_cases asked : Asked pageSize extraKey units node
    · have bound := agree_le_right pageSize node.units units
      rcases agree_cases pageSize node units with inside | through
      · rw [trace_inside asked inside,length_take]; omega
      · rw [trace_through asked through,length_append,tidy.whole.sized]
        have later := inChildren tidy.children (units.drop node.key.length)
        rw [length_drop] at later
        omega
    · rw [trace_other asked]
      exact inRest tidy.rest units

theorem trace_length_dvd (tidy : Tidy pageSize scope forest) (units : List KeyUnit) :
    pageSize ∣ (trace pageSize extraKey units forest).length := by
  induction forest generalizing units scope with
  | nil => exact Nat.dvd_zero _
  | cons node under after inChildren inRest =>
    by_cases asked : Asked pageSize extraKey units node
    · rcases agree_cases pageSize node units with inside | through
      · rw [trace_inside asked inside,length_take,min_eq_left (by rw [tidy.whole.sized]; omega)]
        exact agree_dvd ..
      · rw [trace_through asked through,length_append,tidy.whole.sized]
        exact Nat.dvd_add tidy.whole.aligned (inChildren tidy.children _)
    · rw [trace_other asked]
      exact inRest tidy.rest units

end Trace

/-! ### What a walk adds -/

section Grown
variable {pageSize : Nat} (positive : 0 < pageSize) {node : Node δ} {under under' after after' : Forest (Node δ)}
  {extraKey : Option String} {units : List KeyUnit} {value : List Slot}
include positive

/-- The tree holds what it held, and along `units` the given slots where it held nothing. -/
def Grown (pageSize : Nat) (extraKey : Option String) (units : List KeyUnit) (value : List Slot) (old new : Forest (Node δ)) : Prop :=
  ∀ asker sought, trace pageSize asker sought new = trace pageSize asker sought old ++
    if asker = extraKey then (value.take (agree pageSize units sought)).drop (trace pageSize asker sought old).length else []

omit positive in
theorem Grown.nothing (forest : Forest (Node δ)) : Grown pageSize extraKey units [] forest forest := by
  intro asker sought
  simp

theorem agree_of_not_asked {sought : List KeyUnit} (apart : ¬ Asked pageSize node.key.extraKey sought node) :
    agree pageSize node.units sought = 0 := agree_eq_zero_of_ne positive (fun same => apart ⟨rfl,same⟩)

theorem Grown.leaf (whole : node.Whole pageSize) :
    Grown pageSize node.key.extraKey node.units node.value .nil (.cons node .nil .nil) := by
  intro asker sought
  rw [show trace pageSize asker sought (.nil : Forest (Node δ)) = [] from rfl,nil_append,length_nil,drop_zero]
  by_cases asked : Asked pageSize asker sought node
  · rw [if_pos asked.1.symm]
    rcases agree_cases pageSize node sought with inside | through
    · exact trace_inside asked inside
    · rw [trace_through asked through,through,take_of_length_le (le_of_eq whole.sized)]
      exact append_nil _
  · rw [trace_other asked]
    split
    · rename_i own
      subst own
      rw [agree_of_not_asked positive asked]
      rfl
    · rfl

theorem Grown.beside (grown : Grown pageSize extraKey units value after after')
    (apart : ¬ (node.key.extraKey = extraKey ∧ node.units.take pageSize = units.take pageSize)) :
    Grown pageSize extraKey units value (.cons node under after) (.cons node under after') := by
  intro asker sought
  by_cases asked : Asked pageSize asker sought node
  · have same : trace pageSize asker sought (.cons node under after') = trace pageSize asker sought (.cons node under after) := by
      rcases agree_cases pageSize node sought with inside | through
      · rw [trace_inside asked inside,trace_inside asked inside]
      · rw [trace_through asked through,trace_through asked through]
    rw [same]
    split
    · rename_i own
      have differ : units.take pageSize ≠ sought.take pageSize := fun page =>
        apart ⟨asked.1.trans own,asked.2.trans page.symm⟩
      rw [agree_eq_zero_of_ne positive differ]
      simp
    · simp
  · rw [trace_other asked,trace_other asked]
    exact grown asker sought

theorem Grown.through (after : Forest (Node δ)) (whole : node.Whole pageSize) (leads : units = node.units ++ units.drop node.key.length)
    (grown : Grown pageSize node.key.extraKey (units.drop node.key.length) (value.drop node.key.length) under under') :
    Grown pageSize node.key.extraKey units value (.cons node under after) (.cons node under' after) := by
  intro asker sought
  have aligned : pageSize ∣ node.units.length := by rw [units_length]; exact whole.aligned
  by_cases asked : Asked pageSize asker sought node
  · rw [if_pos asked.1.symm]
    rcases agree_cases pageSize node sought with inside | through
    · rw [trace_inside asked inside,trace_inside asked inside,leads,
        agree_append_left positive (by rwa [units_length]) aligned,length_take,whole.sized,min_eq_left inside.le,
        drop_take,Nat.sub_self,take_zero,append_nil]
    · have follows := follows_of_through through
      have along := grown asker (sought.drop node.key.length)
      rw [if_pos asked.1.symm] at along
      have further : agree pageSize units sought =
          node.key.length + agree pageSize (units.drop node.key.length) (sought.drop node.key.length) := by
        conv_lhs => rw [leads,follows,agree_append positive aligned,units_length]
      have window (count skipped : Nat) : (value.take (node.key.length + count)).drop (node.key.length + skipped) =
          ((value.drop node.key.length).take count).drop skipped := by
        rw [← drop_drop,drop_take,Nat.add_sub_cancel_left]
      rw [trace_through asked through,trace_through asked through,along,append_assoc,further,length_append,whole.sized,
        window]
  · rw [trace_other asked,trace_other asked]
    split
    · rename_i own
      subst own
      have first : units.take pageSize = node.units.take pageSize := by
        rw [leads,take_append_of_le_length (by rw [units_length]; exact whole.long)]
      rw [agree_eq_zero_of_ne positive (fun same => asked ⟨rfl,first.symm.trans same⟩)]
      simp
    · simp

theorem trace_cut (under after : Forest (Node δ)) {upper lower : Node δ} (wholeUpper : upper.Whole pageSize) (wholeLower : lower.Whole pageSize)
    (extraUpper : upper.key.extraKey = node.key.extraKey) (extraLower : lower.key.extraKey = node.key.extraKey)
    (units : node.units = upper.units ++ lower.units) (slots : node.value = upper.value ++ lower.value)
    (asker : Option String) (sought : List KeyUnit) :
    trace pageSize asker sought (.cons upper (.cons lower under .nil) after) =
      trace pageSize asker sought (.cons node under after) := by
  have length : node.key.length = upper.key.length + lower.key.length := by
    rw [← units_length,units,length_append,units_length,units_length]
  have aligned : pageSize ∣ upper.units.length := by rw [units_length]; exact wholeUpper.aligned
  have asked_iff : Asked pageSize asker sought upper ↔ Asked pageSize asker sought node := by
    rw [Asked,Asked,extraUpper,units,take_append_of_le_length (by rw [units_length]; exact wholeUpper.long)]
  by_cases asked : Asked pageSize asker sought upper
  · have asked' := asked_iff.mp asked
    rcases agree_cases pageSize upper sought with inside | through
    · have same : agree pageSize node.units sought = agree pageSize upper.units sought := by
        rw [units,agree_append_left positive (by rwa [units_length]) aligned]
      rw [trace_inside asked inside,trace_inside asked' (by omega),same,slots,take_append_of_le_length]
      rw [wholeUpper.sized]; exact inside.le
    · have follows := follows_of_through through
      have further : agree pageSize node.units sought =
          upper.key.length + agree pageSize lower.units (sought.drop upper.key.length) := by
        conv_lhs => rw [units,follows,agree_append positive aligned,units_length]
      rw [trace_through asked through]
      by_cases deeper : Asked pageSize asker (sought.drop upper.key.length) lower
      · rcases agree_cases pageSize lower (sought.drop upper.key.length) with inside' | through'
        · rw [trace_inside deeper inside',trace_inside asked' (by omega),further,slots,← wholeUpper.sized,take_length_add_append]
        · rw [trace_through deeper through',trace_through asked' (by omega),slots,length,drop_drop,append_assoc]
      · have stop : agree pageSize lower.units (sought.drop upper.key.length) = 0 := by
          refine agree_of_not_asked positive (fun here => deeper ?_)
          rwa [extraLower,asked'.1] at here
        have short := wholeLower.positive
        rw [trace_other deeper,trace_inside asked' (by omega),further,stop,slots,Nat.add_zero,← wholeUpper.sized,take_left]
        exact append_nil _
  · rw [trace_other asked,trace_other (fun here => asked (asked_iff.mpr here))]

end Grown

/-! ### The walk, case by case -/

/-- A key that can be walked: a positive number of whole pages. -/
structure Fit (pageSize : Nat) (key : RadixKey) : Prop where
  positive : 0 < key.length
  aligned : pageSize ∣ key.length

theorem Fit.long {pageSize : Nat} {key : RadixKey} (fit : Fit pageSize key) : pageSize ≤ key.length :=
  Nat.le_of_dvd fit.positive fit.aligned

/-- What is left of a key after so many units. -/
def remaining (key : RadixKey) (count : Nat) : RadixKey := key.slice count key.length

@[simp] theorem remaining_units (key : RadixKey) (count : Nat) : (remaining key count).units = key.units.drop count := by
  rw [remaining,RadixKey.slice_units,← RadixKey.units_length,take_length]
@[simp] theorem remaining_length (key : RadixKey) (count : Nat) : (remaining key count).length = key.length - count := by
  rw [← RadixKey.units_length,remaining_units,length_drop,RadixKey.units_length]
@[simp] theorem remaining_extraKey (key : RadixKey) (count : Nat) : (remaining key count).extraKey = key.extraKey :=
  RadixKey.slice_extraKey ..

theorem Fit.remaining {pageSize count : Nat} {key : RadixKey} (fit : Fit pageSize key) (aligned : pageSize ∣ count)
    (more : (RadixTree.remaining key count).length ≠ 0) : Fit pageSize (RadixTree.remaining key count) :=
  ⟨Nat.pos_of_ne_zero more,by rw [remaining_length]; exact Nat.dvd_sub fit.aligned aligned⟩

section Cases
variable {pageSize : Nat} {visit : Visit δ} {counter : Nat} {parent : Option (Node δ)} {node : Node δ}
  {under after : Forest (Node δ)} {key : RadixKey} {value : List Slot}

/-- The two halves of a node that a walk splits. -/
def halves (pageSize : Nat) (visit : Visit δ) (counter : Nat) (node : Node δ) (splitLen : Nat) : Node δ × Node δ :=
  ((splitNode pageSize visit counter (node.touched visit) splitLen).1.passed visit,(splitNode pageSize visit counter (node.touched visit) splitLen).2)

/-- The node a walk leaves behind where the key goes through it. -/
def Node.met (visit : Visit δ) (node : Node δ) : Node δ := (node.touched visit).passed visit

@[simp] theorem met_id : (node.met visit).id = node.id := rfl
@[simp] theorem met_key : (node.met visit).key = node.key := rfl
@[simp] theorem met_value : (node.met visit).value = node.value := rfl
@[simp] theorem met_units : (node.met visit).units = node.units := rfl
section
variable (splitLen : Nat)
include splitLen

@[simp] theorem upper_id : (halves pageSize visit counter node splitLen).1.id = counter := rfl
@[simp] theorem lower_id : (halves pageSize visit counter node splitLen).2.id = node.id := rfl
@[simp] theorem upper_extraKey : (halves pageSize visit counter node splitLen).1.key.extraKey = node.key.extraKey :=
  RadixKey.slice_extraKey ..
@[simp] theorem lower_extraKey : (halves pageSize visit counter node splitLen).2.key.extraKey = node.key.extraKey :=
  RadixKey.slice_extraKey ..
@[simp] theorem upper_units : (halves pageSize visit counter node splitLen).1.units = node.units.take splitLen := by
  show (node.key.slice 0 splitLen).units = _
  rw [RadixKey.slice_units,drop_zero]
  rfl
@[simp] theorem lower_units : (halves pageSize visit counter node splitLen).2.units = node.units.drop splitLen :=
  remaining_units ..
theorem halves_units (pageSize : Nat) (visit : Visit δ) (counter : Nat) (node : Node δ) : node.units =
    (halves pageSize visit counter node splitLen).1.units ++ (halves pageSize visit counter node splitLen).2.units := by
  rw [upper_units,lower_units,take_append_drop]
@[simp] theorem upper_value : (halves pageSize visit counter node splitLen).1.value = node.value.take splitLen := rfl
@[simp] theorem lower_value : (halves pageSize visit counter node splitLen).2.value = node.value.drop splitLen := rfl

end

theorem Node.Whole.met (whole : node.Whole pageSize) : (node.met visit).Whole pageSize :=
  ⟨whole.positive,whole.aligned,whole.sized,whole.labelled⟩

variable (pageSize visit counter) in
theorem upper_length {splitLen : Nat} (inside : splitLen < node.key.length) :
    (halves pageSize visit counter node splitLen).1.key.length = splitLen := by
  rw [← units_length,upper_units,length_take,units_length,min_eq_left inside.le]

variable (visit counter) in
theorem upper_childKey (whole : node.Whole pageSize) {splitLen : Nat} (aligned : pageSize ∣ splitLen) (nonzero : 0 < splitLen)
    (inside : splitLen < node.key.length) :
    (halves pageSize visit counter node splitLen).1.key.childKey pageSize = node.key.childKey pageSize := by
  have page : pageSize ≤ splitLen := Nat.le_of_dvd nonzero aligned
  rw [childKey_eq_iff (by rw [upper_length pageSize visit counter inside]; exact page) whole.long]
  refine ⟨upper_extraKey ..,?_⟩
  show (halves pageSize visit counter node splitLen).1.units.take pageSize = node.units.take pageSize
  rw [upper_units,take_take,min_eq_left page]

variable (visit counter) in
theorem Node.Whole.upper (whole : node.Whole pageSize) {splitLen : Nat} (aligned : pageSize ∣ splitLen) (some : 0 < splitLen)
    (inside : splitLen < node.key.length) : (halves pageSize visit counter node splitLen).1.Whole pageSize := by
  have length := upper_length pageSize visit counter inside
  exact ⟨by rwa [length],by rwa [length],by rw [length,upper_value,length_take,whole.sized,min_eq_left inside.le],
    (upper_childKey visit counter whole aligned some inside).symm⟩

variable (visit counter) in
theorem Node.Whole.lower (whole : node.Whole pageSize) {splitLen : Nat} (aligned : pageSize ∣ splitLen)
    (inside : splitLen < node.key.length) : (halves pageSize visit counter node splitLen).2.Whole pageSize := by
  have length : (halves pageSize visit counter node splitLen).2.key.length = node.key.length - splitLen := by
    rw [← units_length,lower_units,length_drop,units_length]
  exact ⟨by omega,by rw [length]; exact Nat.dvd_sub whole.aligned aligned,
    by rw [length,lower_value,length_drop,whole.sized],rfl⟩

theorem matched_eq (positive : 0 < pageSize) (whole : node.Whole pageSize) (same : node.label = key.childKey pageSize) :
    node.key.matchWith key pageSize = agree pageSize node.units key.units :=
  RadixKey.matchWith_eq_agree positive (RadixKey.isBigram_of_childKey positive whole.long (whole.labelled.symm.trans same))

theorem agree_positive (positive : 0 < pageSize) (whole : node.Whole pageSize) (fit : Fit pageSize key)
    (same : node.label = key.childKey pageSize) : pageSize ≤ agree pageSize node.units key.units := by
  refine (le_agree_iff positive (Nat.dvd_refl _)).mpr ⟨?_,?_,((whole.label_iff fit.long).mp same).2⟩
  · rw [units_length]; exact whole.long
  · rw [RadixKey.units_length]; exact fit.long

variable (visit counter) in
theorem upper_leads {splitLen : Nat} (agreed : agree pageSize node.units key.units = splitLen) :
    key.units = (halves pageSize visit counter node splitLen).1.units ++ key.units.drop splitLen := by
  have front : (halves pageSize visit counter node splitLen).1.units = key.units.take splitLen := by
    rw [upper_units,← agreed]; exact take_agree ..
  rw [front,take_append_drop]

variable (visit counter) in
theorem lower_parted (positive : 0 < pageSize) {splitLen : Nat} (agreed : agree pageSize node.units key.units = splitLen)
    (aligned : pageSize ∣ splitLen) (inside : splitLen < node.key.length) :
    agree pageSize (halves pageSize visit counter node splitLen).2.units (key.units.drop splitLen) = 0 := by
  have parts := halves_units splitLen pageSize visit counter node
  have leads := upper_leads visit counter agreed
  rw [parts,leads,agree_append positive (by rw [units_length,upper_length pageSize visit counter inside]; exact aligned),units_length,
    upper_length pageSize visit counter inside] at agreed
  omega

/-- How a walk goes through a tidy forest. A key that ends with a node is walked on below it with nothing left, which changes nothing. -/
inductive Walks (pageSize : Nat) (visit : Visit δ) (counter : Nat) :
    Option (Node δ) → Forest (Node δ) → RadixKey → List Slot → Walked δ → Prop
  | leaf {parent : Option (Node δ)} {key : RadixKey} {value : List Slot} {leaf : Option (Node δ)}
      (grown : newLeaf pageSize visit parent key value counter = leaf) :
      Walks pageSize visit counter parent .nil key value ⟨single leaf,[],leaf,counter + leaf.toList.length,none⟩
  | other {parent : Option (Node δ)} {node : Node δ} {under after : Forest (Node δ)} {key : RadixKey} {value : List Slot} {walked : Walked δ}
      (whole : node.Whole pageSize) (unasked : ¬ Asked pageSize key.extraKey key.units node)
      (later : Walks pageSize visit counter parent after key value walked) :
      Walks pageSize visit counter parent (.cons node under after) key value { walked with forest := .cons node under walked.forest }
  | split {parent : Option (Node δ)} {node : Node δ} {under after : Forest (Node δ)} {key : RadixKey} {value : List Slot} {splitLen : Nat}
      {leaf : Option (Node δ)} (whole : node.Whole pageSize) (asked : Asked pageSize key.extraKey key.units node)
      (agreed : agree pageSize node.units key.units = splitLen) (inside : splitLen < node.key.length) (nonzero : 0 < splitLen)
      (aligned : pageSize ∣ splitLen) (grown : newLeaf pageSize visit (some (halves pageSize visit counter node splitLen).1)
        (remaining key splitLen) (value.drop splitLen) (counter + 1) = leaf) :
      Walks pageSize visit counter parent (.cons node under after) key value
        ⟨.cons (halves pageSize visit counter node splitLen).1 (.cons (halves pageSize visit counter node splitLen).2 under (single leaf)) after,
          [(halves pageSize visit counter node splitLen).1],leaf,counter + 1 + leaf.toList.length,some node.id⟩
  | deeper {parent : Option (Node δ)} {node : Node δ} {under after : Forest (Node δ)} {key : RadixKey} {value : List Slot} {walked : Walked δ}
      (whole : node.Whole pageSize) (asked : Asked pageSize key.extraKey key.units node)
      (through : agree pageSize node.units key.units = node.key.length)
      (lower : Walks pageSize visit counter (some (node.met visit)) under (remaining key node.key.length) (value.drop node.key.length) walked) :
      Walks pageSize visit counter parent (.cons node under after) key value
        ⟨.cons (node.met visit) walked.forest after,node.met visit::walked.visited,walked.leaf,walked.counter,walked.parted⟩

theorem walks_walk (positive : 0 < pageSize) (visit : Visit δ) (value : List Slot) (counter : Nat) (parent : Option (Node δ))
    {scope : Option (Option String)} {forest : Forest (Node δ)} (tidy : Tidy pageSize scope forest) (fit : Fit pageSize key) :
    Walks pageSize visit counter parent forest key value (walk pageSize visit counter parent forest key value) := by
  have ended {parent : Option (Node δ)} {scope : Option (Option String)} {forest : Forest (Node δ)} {key : RadixKey} {value : List Slot}
      (tidy : Tidy pageSize scope forest) (done : key.length = 0) :
      Walks pageSize visit counter parent forest key value ⟨forest,[],none,counter,none⟩ := by
    induction forest generalizing scope with
    | nil => exact @Walks.leaf _ _ _ _ _ _ _ none (by rw [newLeaf,if_pos done])
    | cons node under after _ inRest =>
      refine .other tidy.whole ?_ (inRest tidy.rest)
      rw [RadixKey.units_eq_nil.mpr done]
      exact not_asked_nil positive tidy.whole
  induction forest generalizing parent key value scope with
  | nil => exact .leaf rfl
  | cons node under after inChildren inRest =>
    have whole := tidy.whole
    rw [walk]
    by_cases same : node.label = key.childKey pageSize
    · have asked := (whole.label_iff fit.long).mp same
      have page := agree_positive positive whole fit same
      rw [if_pos same,matched_eq positive whole same]
      dsimp only
      rcases agree_cases pageSize node key.units with inside | through
      · rw [if_pos inside]
        exact .split whole asked rfl inside (by omega) (agree_dvd ..) rfl
      · rw [if_neg through.not_lt,through]
        by_cases done : (key.slice node.key.length key.length).length = 0
        · rw [if_pos done]
          exact .deeper whole asked through (ended tidy.children done)
        · rw [if_neg done]
          exact .deeper whole asked through (inChildren _ _ tidy.children (fit.remaining whole.aligned done))
    · rw [if_neg same]
      exact .other whole (fun asked => same ((whole.label_iff fit.long).mpr asked)) (inRest value parent tidy.rest fit)

end Cases

section Spec
variable {pageSize : Nat} (positive : 0 < pageSize) {visit : Visit δ} {scope : Option (Option String)}

theorem newLeaf_eq_some {parent : Option (Node δ)} {key : RadixKey} {value : List Slot} {counter : Nat} {leaf : Node δ}
    (grown : newLeaf pageSize visit parent key value counter = some leaf) :
    leaf.id = counter ∧ leaf.key = key ∧ leaf.value = value ∧ key.length ≠ 0 ∧ leaf.label = leaf.key.childKey pageSize ∧
      ∃ data ∈ visit.grow, leaf.data = data parent key := by
  unfold newLeaf at grown
  split at grown
  · cases grown
  · rename_i more
    obtain ⟨data,isGrow,rfl⟩ := Option.map_eq_some_iff.mp grown
    exact ⟨rfl,rfl,rfl,more,rfl,data,isGrow,rfl⟩

/-- A walk that hangs a leaf is given a slot for every unit of the key; one that only looks is given none. -/
def Supplied (visit : Visit δ) (key : RadixKey) (value : List Slot) : Prop :=
  (visit.grow.isSome = true → value.length = key.length) ∧ (visit.grow = none → value = [])

theorem Supplied.remaining {key : RadixKey} {value : List Slot} (supplied : Supplied visit key value) (count : Nat) :
    Supplied visit (remaining key count) (value.drop count) :=
  ⟨fun grows => by rw [length_drop,remaining_length,supplied.1 grows],fun looks => by rw [supplied.2 looks,drop_nil]⟩

theorem Supplied.eq_nil {key : RadixKey} {value : List Slot} (supplied : Supplied visit key value)
    (nothing : key.length = 0 ∨ visit.grow = none) : value = [] := by
  rcases nothing with done | looks
  · cases grow : visit.grow with
    | none => exact supplied.2 grow
    | some data => exact length_eq_zero_iff.mp ((supplied.1 (by rw [grow]; rfl)).trans done)
  · exact supplied.2 looks

include positive in
theorem grown_single (parent : Option (Node δ)) {key : RadixKey} {value : List Slot} (counter : Nat)
    (aligned : pageSize ∣ key.length) (supplied : Supplied visit key value) :
    Grown pageSize key.extraKey key.units value .nil (single (newLeaf pageSize visit parent key value counter)) := by
  cases grown : newLeaf pageSize visit parent key value counter with
  | some leaf =>
    obtain ⟨-,sameKey,sameValue,more,labelled,data,isGrow,-⟩ := newLeaf_eq_some grown
    have sized := supplied.1 (by rw [isGrow]; rfl)
    have whole : leaf.Whole pageSize := ⟨by rw [sameKey]; omega,by rwa [sameKey],by rw [sameKey,sameValue,sized],labelled⟩
    have added := Grown.leaf positive whole
    rwa [sameKey,sameValue,Node.units,sameKey] at added
  | none =>
    have nothing : value = [] := by
      refine supplied.eq_nil ?_
      unfold newLeaf at grown
      split at grown
      · rename_i done
        exact .inl done
      · exact .inr (Option.map_eq_none_iff.mp grown)
    rw [nothing]
    exact Grown.nothing _

/-- After a walk the tree holds what it held and, along the key, the slots given for it where it held none. -/
theorem Walks.grown {parent : Option (Node δ)} {forest : Forest (Node δ)} {key : RadixKey} {value : List Slot} {counter : Nat} {walked : Walked δ}
    (walks : Walks pageSize visit counter parent forest key value walked) (positive : 0 < pageSize) (aligned : pageSize ∣ key.length)
    (supplied : Supplied visit key value) : Grown pageSize key.extraKey key.units value forest walked.forest := by
  induction walks with
  | leaf grown =>
    rw [← grown]
    exact grown_single positive _ counter aligned supplied
  | other _ unasked _ ih => exact Grown.beside positive (ih aligned supplied) unasked
  | @split parent node under after key value splitLen leaf whole asked agreed inside nonzero page grown =>
    have wholeUpper := whole.upper visit counter page nonzero inside
    have wholeLower := whole.lower visit counter page inside
    have upperLength := upper_length pageSize visit counter inside
    have leads := upper_leads visit counter agreed
    have parted := lower_parted visit counter positive agreed page inside
    have parts := halves_units splitLen pageSize visit counter node
    have inner : Grown pageSize key.extraKey (key.units.drop splitLen) (value.drop splitLen)
        (.cons (halves pageSize visit counter node splitLen).2 under .nil)
        (.cons (halves pageSize visit counter node splitLen).2 under (single leaf)) := by
      have added := grown_single positive (some (halves pageSize visit counter node splitLen).1) (counter + 1)
        (by rw [remaining_length]; exact Nat.dvd_sub aligned page) (supplied.remaining splitLen)
      rw [remaining_extraKey,remaining_units,grown] at added
      refine Grown.beside positive added (fun both => ?_)
      exact agree_eq_zero positive (by rw [units_length]; exact wholeLower.long) parted both.2
    have outer := Grown.through positive after wholeUpper (by rw [upperLength]; exact leads)
      (by rw [upperLength,upper_extraKey,asked.1]; exact inner)
    rw [upper_extraKey,asked.1] at outer
    intro asker sought
    have cut := trace_cut positive under after wholeUpper wholeLower (upper_extraKey ..) (lower_extraKey ..)
      parts (by rw [upper_value,lower_value,take_append_drop]) asker sought
    rw [← cut]
    exact outer asker sought
  | @deeper _ node _ after key _ _ whole asked through _ ih =>
    have inner := ih (by rw [remaining_length]; exact Nat.dvd_sub aligned whole.aligned) (supplied.remaining node.key.length)
    rw [remaining_extraKey,remaining_units,← asked.1] at inner
    have outer := Grown.through positive after whole (follows_of_through through) inner
    rw [asked.1] at outer
    exact outer

end Spec
end Hypic.RadixTree
