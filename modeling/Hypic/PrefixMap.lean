import Hypic.Agree

/-! Maps from sequences of whole pages, within a namespace, to one page of values, closed under whole-page starts.
    A reading of such a map gives the values along the longest start of a sequence that is present. -/

namespace Hypic
open Agree List
universe u v w

/-- One page of values for a namespace and a sequence of whole pages. -/
def PrefixMap (ε : Type u) (υ : Type v) (σ : Type w) := ε → List υ → Option (List σ)

namespace PrefixMap
open List
variable {ε : Type u} {υ : Type v} {σ : Type w} {pageSize : Nat}

/-- A sequence that can be present: some whole pages. -/
def Paged (pageSize : Nat) (units : List υ) : Prop := units ≠ [] ∧ pageSize ∣ units.length

instance (units : List υ) [DecidableEq υ] : Decidable (Paged pageSize units) := inferInstanceAs (Decidable (_ ∧ _))

/-- Only whole pages are present, each with one page of values, and with a sequence all its starts. -/
structure Closed (pageSize : Nat) (map : PrefixMap ε υ σ) : Prop where
  paged : ∀ space units page, map space units = some page → Paged pageSize units ∧ page.length = pageSize
  closed : ∀ space units page, map space units = some page →
    ∀ start, start <+: units → Paged pageSize start → (map space start).isSome = true

/-- The values of the pages from the `index`-th on, as far as the starts of the sequence are present. -/
def alongFrom (pageSize : Nat) (map : PrefixMap ε υ σ) (space : ε) (units : List υ) : Nat → Nat → List σ
  | 0, _ => []
  | fuel+1, index =>
    match map space (units.take ((index + 1) * pageSize)) with
    | some page => page ++ alongFrom pageSize map space units fuel (index + 1)
    | none => []

/-- The values along the longest start of the sequence that is present. -/
def along (pageSize : Nat) (map : PrefixMap ε υ σ) (space : ε) (units : List υ) : List σ :=
  alongFrom pageSize map space units (units.length / pageSize) 0

section Update
variable [DecidableEq ε] [DecidableEq υ]

/-- The map with the pages of a sequence added that it lacks. -/
def insert (pageSize : Nat) (map : PrefixMap ε υ σ) (space : ε) (units : List υ) (values : List σ) : PrefixMap ε υ σ :=
  fun asker sought =>
    match map asker sought with
    | some page => some page
    | none =>
      if asker = space ∧ Paged pageSize sought ∧ sought <+: units then
        some ((values.take sought.length).drop (sought.length - pageSize))
      else none

theorem insert_isSome {map : PrefixMap ε υ σ} {space asker : ε} {units sought : List υ} {values : List σ} :
    (map.insert pageSize space units values asker sought).isSome = true ↔
      (map asker sought).isSome = true ∨ asker = space ∧ Paged pageSize sought ∧ sought <+: units := by
  rw [insert]
  cases map asker sought with
  | some page => simp
  | none => simp

/-- The map without one sequence. -/
def remove (map : PrefixMap ε υ σ) (space : ε) (units : List υ) : PrefixMap ε υ σ :=
  fun asker sought => if asker = space ∧ sought = units then none else map asker sought

/-- One maximal sequence is taken out: one with nothing present beyond it. -/
def Trims (map next : PrefixMap ε υ σ) : Prop :=
  ∃ space units, (map space units).isSome = true ∧
    (∀ longer, units <+: longer → longer ≠ units → map space longer = none) ∧ next = map.remove space units

/-- Maximal sequences are taken out one after another. -/
def TrimsAll : PrefixMap ε υ σ → PrefixMap ε υ σ → Prop := Relation.ReflTransGen Trims

end Update

/-! ### What is present came in -/

theorem TrimsAll.present {map next : PrefixMap ε υ σ} [DecidableEq ε] [DecidableEq υ] (trims : map.TrimsAll next) {space : ε} {units : List υ}
    {page : List σ} (present : next space units = some page) : map space units = some page := by
  induction trims with
  | refl => exact present
  | tail _ last ih =>
    obtain ⟨gone,sequence,-,-,rfl⟩ := last
    rw [remove] at present
    split at present
    · cases present
    · exact ih present

theorem mem_alongFrom {map : PrefixMap ε υ σ} {space : ε} {units : List υ} {fuel index : Nat} {value : σ}
    (member : value ∈ alongFrom pageSize map space units fuel index) :
    ∃ count page, map space (units.take count) = some page ∧ value ∈ page := by
  induction fuel generalizing index with
  | zero => cases member
  | succ fuel ih =>
    rw [alongFrom] at member
    split at member
    · rename_i page present
      rcases mem_append.mp member with here | later
      · exact ⟨_,page,present,here⟩
      · exact ih later
    · cases member

theorem mem_along {map : PrefixMap ε υ σ} {space : ε} {units : List υ} {value : σ} (member : value ∈ map.along pageSize space units) :
    ∃ count page, map space (units.take count) = some page ∧ value ∈ page := mem_alongFrom member

/-! ### Readings -/

/-- A function that gives, for every sequence, values along a whole-page start of it, and less for shorter sequences. -/
structure Reading (pageSize : Nat) (read : ε → List υ → List σ) : Prop where
  bounded : ∀ space units, (read space units).length ≤ units.length
  aligned : ∀ space units, pageSize ∣ (read space units).length
  shorter : ∀ space units count, pageSize ∣ count → read space (units.take count) = (read space units).take count

/-- The map that a reading reads. -/
def ofReading (pageSize : Nat) (read : ε → List υ → List σ) : PrefixMap ε υ σ :=
  fun space units =>
    if units.length ≠ 0 ∧ pageSize ∣ units.length ∧ (read space units).length = units.length then
      some ((read space units).drop (units.length - pageSize))
    else none

variable {read : ε → List υ → List σ}

theorem ofReading_eq_some {space : ε} {units : List υ} {page : List σ} :
    ofReading pageSize read space units = some page ↔
      Paged pageSize units ∧ (read space units).length = units.length ∧ (read space units).drop (units.length - pageSize) = page := by
  simp only [ofReading,Option.ite_none_right_eq_some,Option.some.injEq,Paged,ne_eq,length_eq_zero_iff,and_assoc]

theorem ofReading_isSome {space : ε} {units : List υ} :
    (ofReading pageSize read space units).isSome = true ↔ Paged pageSize units ∧ (read space units).length = units.length := by
  rw [Option.isSome_iff_exists]
  constructor
  · rintro ⟨page,present⟩
    obtain ⟨paged,whole,-⟩ := ofReading_eq_some.mp present
    exact ⟨paged,whole⟩
  · rintro ⟨paged,whole⟩
    exact ⟨_,ofReading_eq_some.mpr ⟨paged,whole,rfl⟩⟩

theorem Paged.long {units : List υ} (paged : Paged pageSize units) : pageSize ≤ units.length :=
  Nat.le_of_dvd (length_pos_iff_ne_nil.mpr paged.1) paged.2

theorem Reading.closed (reading : Reading pageSize read) : Closed pageSize (ofReading pageSize read) := by
  constructor
  · intro space units page present
    obtain ⟨paged,whole,rfl⟩ := ofReading_eq_some.mp present
    refine ⟨paged,?_⟩
    have := paged.long
    rw [length_drop,whole]
    omega
  · rintro space units page present start ⟨more,rfl⟩ paged
    obtain ⟨-,whole,-⟩ := ofReading_eq_some.mp present
    refine ofReading_isSome.mpr ⟨paged,?_⟩
    have less := reading.shorter space (start ++ more) start.length paged.2
    rw [take_left] at less
    rw [less,length_take,whole,length_append]
    omega

theorem Reading.along_eq (positive : 0 < pageSize) (reading : Reading pageSize read) (space : ε) (units : List υ) :
    along pageSize (ofReading pageSize read) space units = read space units := by
  have present (index : Nat) (inside : (index + 1) * pageSize ≤ units.length) :
      ofReading pageSize read space (units.take ((index + 1) * pageSize)) =
        if (index + 1) * pageSize ≤ (read space units).length then
          some (((read space units).take ((index + 1) * pageSize)).drop (index * pageSize)) else none := by
    have less := reading.shorter space units ((index + 1) * pageSize) (Nat.dvd_mul_left ..)
    have whole : (units.take ((index + 1) * pageSize)).length = (index + 1) * pageSize := by rw [length_take]; omega
    have size : (index + 1) * pageSize = index * pageSize + pageSize := by rw [Nat.succ_mul]
    have some : (index + 1) * pageSize ≠ 0 := by omega
    rw [ofReading,whole,less,length_take]
    by_cases enough : (index + 1) * pageSize ≤ (read space units).length
    · rw [if_pos ⟨some,Nat.dvd_mul_left ..,min_eq_left enough⟩,if_pos enough,size,Nat.add_sub_cancel]
    · rw [if_neg enough,if_neg (fun all => enough (by omega))]
  -- the pages still to come are those from the index on
  have later (fuel index : Nat) (enough : units.length / pageSize = index + fuel) :
      alongFrom pageSize (ofReading pageSize read) space units fuel index = (read space units).drop (index * pageSize) := by
    induction fuel generalizing index with
    | zero =>
      rw [alongFrom,drop_eq_nil_of_le]
      have bound := (le_floor_iff positive (reading.aligned space units)).mpr (reading.bounded space units)
      rwa [enough] at bound
    | succ fuel ih =>
      have inside : (index + 1) * pageSize ≤ units.length := by
        rw [← Nat.le_div_iff_mul_le positive]; omega
      rw [alongFrom,present index inside]
      by_cases more : (index + 1) * pageSize ≤ (read space units).length
      · rw [if_pos more]
        dsimp only
        rw [ih (index + 1) (by omega)]
        conv_rhs => rw [← take_append_drop ((index + 1) * pageSize) (read space units)]
        rw [drop_append_of_le_length]
        rw [length_take_of_le more]
        exact Nat.mul_le_mul_right _ (Nat.le_succ _)
      · rw [if_neg more,drop_eq_nil_of_le]
        obtain ⟨pages,whole⟩ := reading.aligned space units
        rw [whole,Nat.mul_comm pageSize pages] at more ⊢
        refine Nat.mul_le_mul_right _ ?_
        by_contra beyond
        exact more (Nat.mul_le_mul_right _ (by omega))
  rw [along,later _ 0 (by omega),Nat.zero_mul,drop_zero]

section Changes
variable [DecidableEq ε] [DecidableEq υ] {read' : ε → List υ → List σ} {space : ε} {units : List υ} {values : List σ}

/-- A reading that goes on along one sequence where it stopped before reads the map with that sequence inserted. -/
theorem Reading.insert_eq (positive : 0 < pageSize) (reading : Reading pageSize read) (sized : values.length = units.length)
    (grown : ∀ asker sought, read' asker sought = read asker sought ++
      if asker = space then (values.take (agree pageSize units sought)).drop (read asker sought).length else []) :
    ofReading pageSize read' = (ofReading pageSize read).insert pageSize space units values := by
  funext asker sought
  rw [insert]
  have bound := reading.bounded asker sought
  cases present : ofReading pageSize read asker sought with
  | some page =>
    obtain ⟨paged,whole,isPage⟩ := ofReading_eq_some.mp present
    have same : read' asker sought = read asker sought := by
      rw [grown]
      split
      · have short := agree_le_right pageSize units sought
        rw [drop_eq_nil_of_le (by rw [length_take]; omega),append_nil]
      · rw [append_nil]
    exact ofReading_eq_some.mpr ⟨paged,by rw [same,whole],by rw [same,isPage]⟩
  | none =>
    dsimp only
    have absent (paged : Paged pageSize sought) : (read asker sought).length < sought.length := by
      refine lt_of_le_of_ne bound (fun whole => ?_)
      have := ofReading_isSome.mpr ⟨paged,whole⟩
      rw [present] at this
      cases this
    by_cases added : asker = space ∧ Paged pageSize sought ∧ sought <+: units
    · obtain ⟨own,paged,more,rfl⟩ := added
      have whole : agree pageSize (sought ++ more) sought = sought.length := by
        have both := agree_append positive paged.2 more []
        have nothing := agree_le_right pageSize more ([] : List υ)
        rw [append_nil] at both
        rw [length_nil] at nothing
        omega
      have gap := absent paged
      have short : (values.take sought.length).length = sought.length := by
        rw [length_take,sized,length_append]; omega
      have length : (read' asker sought).length = sought.length := by
        rw [grown,if_pos own,whole,length_append,length_drop,short]; omega
      rw [if_pos ⟨own,paged,prefix_append ..⟩]
      refine ofReading_eq_some.mpr ⟨paged,length,?_⟩
      -- the reading stopped before the last page
      have before : (read asker sought).length ≤ sought.length - pageSize := by
        have := add_page_le (reading.aligned asker sought) paged.2 gap
        omega
      rw [grown,if_pos own,whole,drop_append,drop_eq_nil_of_le before,nil_append,drop_drop]
      congr 1
      omega
    · rw [if_neg added]
      rw [← Option.not_isSome_iff_eq_none,ofReading_isSome]
      rintro ⟨paged,whole⟩
      have gap := absent paged
      rw [grown] at whole
      split at whole
      · rename_i own
        have reach := agree_le_right pageSize units sought
        rw [length_append,length_drop,length_take] at whole
        have all : sought.length ≤ agree pageSize units sought := by omega
        obtain ⟨long,-,same⟩ := (le_agree_iff positive paged.2).mp all
        rw [take_length] at same
        exact added ⟨own,paged,same ▸ take_prefix ..⟩
      · rw [append_nil] at whole
        omega

section Pruned
variable {kept : Nat}

section Leaf
variable (positive : 0 < pageSize) (sized : values.length = units.length)
  (leaf : ∀ sought, kept < agree pageSize units sought → read space sought = values.take (agree pageSize units sought))
include positive sized leaf

theorem leaf_isSome_iff {sought : List υ} (deep : kept < agree pageSize units sought) :
    (ofReading pageSize read space sought).isSome = true ↔ Paged pageSize sought ∧ sought <+: units := by
  have bound := agree_le_left pageSize units sought
  rw [ofReading_isSome,leaf sought deep,length_take_of_le (by omega)]
  exact and_congr_right fun paged => agree_eq_length_iff positive paged.2

theorem leaf_isSome {sought : List υ} (paged : Paged pageSize sought) (start : sought <+: units) (longer : kept < sought.length) :
    (ofReading pageSize read space sought).isSome = true := by
  refine (leaf_isSome_iff positive sized leaf ?_).mpr ⟨paged,start⟩
  rwa [(agree_eq_length_iff positive paged.2).mpr start]

open Classical in
/-- A reading that stops short of the end of one sequence, beyond which there is nothing, has lost the last starts of it. -/
theorem pruned_eq (pruned : ∀ asker sought, read' asker sought =
      if asker = space ∧ kept < agree pageSize units sought then values.take kept else read asker sought) (asker : ε) (sought : List υ) :
    ofReading pageSize read' asker sought =
      if asker = space ∧ sought <+: units ∧ kept < sought.length then none else ofReading pageSize read asker sought := by
  by_cases deep : asker = space ∧ kept < agree pageSize units sought
  · obtain ⟨rfl,deep⟩ := deep
    have bound := agree_le_right pageSize units sought
    have gone : ofReading pageSize read' asker sought = none := by
      rw [← Option.not_isSome_iff_eq_none,ofReading_isSome,pruned,if_pos ⟨rfl,deep⟩,length_take]
      rintro ⟨-,whole⟩
      omega
    rw [gone]
    split
    · rfl
    · rename_i other
      rw [eq_comm,← Option.not_isSome_iff_eq_none,leaf_isSome_iff positive sized leaf deep]
      exact fun present => other ⟨rfl,present.2,by omega⟩
  · have same : ofReading pageSize read' asker sought = ofReading pageSize read asker sought := by
      rw [ofReading,ofReading,pruned,if_neg deep]
    rw [same]
    split
    · rename_i start
      rw [← Option.not_isSome_iff_eq_none,ofReading_isSome]
      rintro ⟨paged,-⟩
      refine deep ⟨start.1,?_⟩
      rw [(agree_eq_length_iff positive paged.2).mpr start.2.1]
      exact start.2.2
    · rfl

end Leaf

/-- It reads the map with these starts taken out page by page, the longest first. -/
theorem trims_of_pruned (positive : 0 < pageSize) (aligned : pageSize ∣ kept)
    (whole : pageSize ∣ units.length) (inside : kept ≤ units.length) (sized : values.length = units.length)
    (leaf : ∀ sought, kept < agree pageSize units sought → read space sought = values.take (agree pageSize units sought))
    (pruned : ∀ asker sought, read' asker sought =
      if asker = space ∧ kept < agree pageSize units sought then values.take kept else read asker sought) :
    TrimsAll (ofReading pageSize read) (ofReading pageSize read') := by
  classical
  -- the map after the starts longer than `count` have gone
  let cut (count : Nat) : PrefixMap ε υ σ := fun asker sought =>
    if asker = space ∧ sought <+: units ∧ count < sought.length then none else ofReading pageSize read asker sought
  have first : cut units.length = ofReading pageSize read := by
    funext asker sought
    exact if_neg fun ⟨_,start,longer⟩ => by have := start.length_le; omega
  have last : cut kept = ofReading pageSize read' := by
    funext asker sought
    exact (pruned_eq positive sized leaf pruned asker sought).symm
  have step (count : Nat) (low : kept ≤ count) (high : count + pageSize ≤ units.length) (aligned : pageSize ∣ count) :
      Trims (cut (count + pageSize)) (cut count) := by
    have length : (units.take (count + pageSize)).length = count + pageSize := by rw [length_take]; omega
    have start : units.take (count + pageSize) <+: units := List.take_prefix ..
    have paged : Paged pageSize (units.take (count + pageSize)) := by
      refine ⟨?_,by rw [length]; exact Nat.dvd_add aligned (Nat.dvd_refl _)⟩
      rw [← length_pos_iff_ne_nil,length]; omega
    refine ⟨space,units.take (count + pageSize),?_,fun longer goesOn differs => ?_,?_⟩
    · show (if _ then _ else _ : Option _).isSome = true
      rw [if_neg (by rw [length]; omega)]
      exact leaf_isSome positive sized leaf paged start (by rw [length]; omega)
    · have size := goesOn.length_le
      have further : longer.length ≠ count + pageSize := fun same => differs (goesOn.eq_of_length (by rw [length,same])).symm
      show (if _ then _ else _) = none
      split
      · rfl
      · rename_i other
        have reach : count + pageSize ≤ agree pageSize units longer :=
          (le_agree_iff positive (length ▸ paged.2)).mpr ⟨high,by omega,by rw [prefix_iff_eq_take.mp goesOn,length]⟩
        rw [← Option.not_isSome_iff_eq_none,leaf_isSome_iff positive sized leaf (by omega)]
        exact fun present => other ⟨rfl,present.2,by omega⟩
    · funext asker sought
      rw [remove]
      show (if _ then _ else _) = if _ then _ else if _ then _ else _
      by_cases gone : asker = space ∧ sought <+: units ∧ count < sought.length
      · obtain ⟨rfl,inside,more⟩ := gone
        rw [if_pos ⟨rfl,inside,more⟩]
        split
        · rfl
        · rename_i other
          split
          · rfl
          · rename_i kept
            -- between two page ends nothing is read
            rw [eq_comm,← Option.not_isSome_iff_eq_none,ofReading_isSome]
            rintro ⟨paged,-⟩
            have next := add_page_le aligned paged.2 more
            have same : sought.length = count + pageSize := by
              by_contra differs
              exact kept ⟨rfl,inside,by omega⟩
            exact other ⟨rfl,same ▸ prefix_iff_eq_take.mp inside⟩
      · rw [if_neg gone,if_neg,if_neg fun both => gone ⟨both.1,both.2.1,by omega⟩]
        rintro ⟨rfl,rfl⟩
        exact gone ⟨rfl,start,by omega⟩
  -- page after page, from the end of the sequence down to what is kept
  have all (pages : Nat) (low : kept + pages * pageSize ≤ units.length) : TrimsAll (cut (kept + pages * pageSize)) (cut kept) := by
    induction pages with
    | zero => rw [Nat.zero_mul,Nat.add_zero]; exact Relation.ReflTransGen.refl
    | succ pages ih =>
      rw [Nat.succ_mul,← Nat.add_assoc] at low ⊢
      exact Relation.ReflTransGen.head (step _ (by omega) low (Nat.dvd_add aligned (Nat.dvd_mul_left ..))) (ih (by omega))
  obtain ⟨pages,gap⟩ := Nat.dvd_sub whole aligned
  rw [Nat.mul_comm] at gap
  have down := all pages (by omega)
  rwa [show kept + pages * pageSize = units.length by omega,first,last] at down

end Pruned

end Changes
end PrefixMap
end Hypic
