import Mathlib.Data.List.Dedup
import Mathlib.Data.List.Sort
import Mathlib.Data.Multiset.Basic
import Mathlib.Tactic.Ring

/-! Numbers grouped into pages. A list is laid on pages when it is the numbers of those pages in order, the last page
    possibly only begun. -/

namespace Hypic.Pages
open List
variable {pageSize : Nat}
variable {pages : List Nat}

def pageSlots (pageSize page : Nat) : List Nat := List.range' (page * pageSize) pageSize

def slotsOf (pageSize : Nat) (pages : List Nat) : List Nat := pages.flatMap (pageSlots pageSize)

/-- The number of pages that so many entries begin. -/
def ceil (pageSize count : Nat) : Nat := (count + pageSize - 1) / pageSize

/-- What the page of the last entry still has after it. -/
def unused (pageSize : Nat) (slots : List Nat) : List Nat :=
  match slots.getLast? with
  | some last => List.range' (last + 1) ((pageSize - slots.length % pageSize) % pageSize)
  | none => []

structure Laid (pageSize : Nat) (slots pages : List Nat) : Prop where
  front : slots = (slotsOf pageSize pages).take slots.length
  count : pages.length = ceil pageSize slots.length

/-! ### Whole pages -/

@[simp] theorem slotsOf_nil : slotsOf pageSize [] = [] := rfl
@[simp] theorem slotsOf_cons (page : Nat) (pages : List Nat) :
    slotsOf pageSize (page::pages) = pageSlots pageSize page ++ slotsOf pageSize pages := rfl
@[simp] theorem slotsOf_append (left right : List Nat) :
    slotsOf pageSize (left ++ right) = slotsOf pageSize left ++ slotsOf pageSize right := flatMap_append ..

@[simp] theorem pageSlots_length (page : Nat) : (pageSlots pageSize page).length = pageSize := length_range' ..
@[simp] theorem slotsOf_length (pages : List Nat) : (slotsOf pageSize pages).length = pages.length * pageSize := by
  induction pages with
  | nil => simp
  | cons page pages ih => simp [ih,Nat.succ_mul,Nat.add_comm]

theorem slotsOf_one (pages : List Nat) : slotsOf 1 pages = pages := by
  induction pages with
  | nil => rfl
  | cons page pages ih => simp [ih,pageSlots]

theorem slotsOf_take (pages : List Nat) (count : Nat) :
    (slotsOf pageSize pages).take (count * pageSize) = slotsOf pageSize (pages.take count) := by
  induction pages generalizing count with
  | nil => simp
  | cons page pages ih =>
    cases count with
    | zero => simp
    | succ count =>
      rw [Nat.succ_mul,Nat.add_comm,slotsOf_cons,take_append,pageSlots_length,take_of_length_le (by simp),
        Nat.add_sub_cancel_left,ih]
      rfl

theorem slotsOf_drop (pages : List Nat) (count : Nat) :
    (slotsOf pageSize pages).drop (count * pageSize) = slotsOf pageSize (pages.drop count) := by
  have parts : slotsOf pageSize (pages.take count) ++ slotsOf pageSize (pages.drop count) = slotsOf pageSize pages := by
    rw [← slotsOf_append,take_append_drop]
  have split := take_append_drop (count * pageSize) (slotsOf pageSize pages)
  rw [slotsOf_take] at split
  exact append_cancel_left (split.trans parts.symm)

theorem mem_slotsOf (positive : 0 < pageSize) {slot : Nat} :
    slot ∈ slotsOf pageSize pages ↔ slot / pageSize ∈ pages := by
  have inPage (page : Nat) : slot ∈ pageSlots pageSize page ↔ slot / pageSize = page := by
    rw [pageSlots,mem_range'_1,Nat.div_eq_iff positive]
    have : pageSize * page = page * pageSize := Nat.mul_comm ..
    omega
  simp [slotsOf,mem_flatMap,inPage]

theorem slotsOf_nodup (positive : 0 < pageSize) : (slotsOf pageSize pages).Nodup ↔ pages.Nodup := by
  induction pages with
  | nil => simp
  | cons page pages ih =>
    rw [slotsOf_cons,nodup_append,nodup_cons,ih]
    constructor
    · rintro ⟨-,distinct,apart⟩
      refine ⟨fun again => ?_,distinct⟩
      have first : page * pageSize ∈ pageSlots pageSize page := by
        rw [pageSlots,mem_range'_1]; omega
      exact apart _ first _ ((mem_slotsOf positive).mpr (by rwa [Nat.mul_div_cancel _ positive])) rfl
    · rintro ⟨fresh,distinct⟩
      refine ⟨nodup_range' ..,distinct,fun left inLeft right inRight same => fresh ?_⟩
      rw [← same,mem_slotsOf positive] at inRight
      have inPage : left ∈ slotsOf pageSize [page] := by simpa using inLeft
      rw [mem_slotsOf positive,mem_singleton] at inPage
      rwa [inPage] at inRight

theorem slotsOf_perm {left right : List Nat} (same : left.Perm right) : (slotsOf pageSize left).Perm (slotsOf pageSize right) :=
  same.flatMap_right _

/-! ### Counting pages -/

theorem ceil_mul (positive : 0 < pageSize) (count : Nat) : ceil pageSize (count * pageSize) = count := by
  rw [ceil,Nat.add_sub_assoc positive,Nat.mul_comm,Nat.mul_add_div positive,Nat.div_eq_of_lt (by omega),add_zero]

theorem ceil_add_mul (positive : 0 < pageSize) (count more : Nat) : ceil pageSize (count * pageSize + more) = count + ceil pageSize more := by
  rw [ceil,ceil,Nat.add_assoc,Nat.add_sub_assoc (by omega),Nat.mul_comm,Nat.mul_add_div positive]

theorem le_ceil_mul (positive : 0 < pageSize) (count : Nat) : count ≤ ceil pageSize count * pageSize := by
  have below := Nat.lt_mul_div_succ (count + pageSize - 1) positive
  rw [ceil,Nat.mul_comm]
  rw [Nat.mul_add] at below
  omega

theorem ceil_mul_lt (positive : 0 < pageSize) (count : Nat) : ceil pageSize count * pageSize < count + pageSize := by
  have below := Nat.div_mul_le_self (count + pageSize - 1) pageSize
  rw [ceil]
  omega

theorem ceil_mono (pageSize : Nat) {less more : Nat} (le : less ≤ more) : ceil pageSize less ≤ ceil pageSize more :=
  Nat.div_le_div_right (by omega)

variable {count : Nat}

theorem ceil_eq_zero (positive : 0 < pageSize) : ceil pageSize count = 0 ↔ count = 0 := by
  have low := le_ceil_mul positive count
  have high := ceil_mul_lt positive count
  constructor
  · intro none; rw [none] at low; omega
  · rintro rfl; rw [ceil]; exact Nat.div_eq_of_lt (by omega)

theorem ceil_eq_one (positive : 0 < pageSize) {part : Nat} (some : 0 < part) (small : part ≤ pageSize) : ceil pageSize part = 1 := by
  rw [ceil,show part + pageSize - 1 = pageSize + (part - 1) by omega,Nat.add_div_left _ positive,Nat.div_eq_of_lt (by omega)]

theorem unused_count (positive : 0 < pageSize) (count : Nat) :
    (pageSize - count % pageSize) % pageSize = ceil pageSize count * pageSize - count := by
  obtain ⟨whole,part,rfl,small⟩ : ∃ whole part, count = whole * pageSize + part ∧ part < pageSize :=
    ⟨count / pageSize,count % pageSize,by rw [Nat.mul_comm]; exact (Nat.div_add_mod ..).symm,Nat.mod_lt _ positive⟩
  rw [ceil_add_mul positive,Nat.mul_comm whole,Nat.mul_add_mod,Nat.mod_eq_of_lt small,Nat.mul_comm pageSize,Nat.add_mul]
  rcases Nat.eq_zero_or_pos part with rfl | some
  · rw [(ceil_eq_zero positive).mpr rfl]; simp
  · rw [ceil_eq_one positive some small.le,Nat.mod_eq_of_lt (by omega)]
    omega

/-! ### Laid lists -/

@[simp] theorem unused_nil : unused pageSize [] = [] := rfl

theorem unused_length (positive : 0 < pageSize) (slots : List Nat) :
    (unused pageSize slots).length = ceil pageSize slots.length * pageSize - slots.length := by
  rw [unused]
  cases ends : slots.getLast? with
  | none =>
    obtain rfl := getLast?_eq_none_iff.mp ends
    rw [length_nil,(ceil_eq_zero positive).mpr rfl]; simp
  | some last => rw [length_range',unused_count positive]

theorem laid_nil (positive : 0 < pageSize) : Laid pageSize [] [] := ⟨rfl,((ceil_eq_zero positive).mpr rfl).symm⟩

theorem laid_slotsOf (positive : 0 < pageSize) (pages : List Nat) : Laid pageSize (slotsOf pageSize pages) pages :=
  ⟨(take_length ..).symm,by rw [slotsOf_length,ceil_mul positive]⟩

theorem laid_take (positive : 0 < pageSize) (inside : count ≤ pages.length * pageSize) :
    Laid pageSize ((slotsOf pageSize pages).take count) (pages.take (ceil pageSize count)) := by
  have length : ((slotsOf pageSize pages).take count).length = count := by rw [length_take,slotsOf_length]; omega
  have enough : ceil pageSize count ≤ pages.length := by
    have := ceil_mono pageSize inside
    rwa [ceil_mul positive] at this
  refine ⟨?_,by rw [length,length_take]; omega⟩
  rw [length,← slotsOf_take,take_take,min_eq_left (le_ceil_mul positive count)]

variable {slots pages : List Nat}

theorem Laid.unused (positive : 0 < pageSize) (laid : Laid pageSize slots pages) :
    slots ++ Pages.unused pageSize slots = slotsOf pageSize pages := by
  have split := take_append_drop slots.length (slotsOf pageSize pages)
  rw [← laid.front] at split
  suffices same : Pages.unused pageSize slots = (slotsOf pageSize pages).drop slots.length by rw [same,split]
  cases ends : slots.getLast? with
  | none =>
    obtain rfl := getLast?_eq_none_iff.mp ends
    have none : pages = [] := length_eq_zero_iff.mp (by rw [laid.count]; exact (ceil_eq_zero positive).mpr rfl)
    rw [none]; rfl
  | some last =>
    -- the last page is the one its last entry lies in
    have length : 0 < slots.length := length_pos_iff.mpr (fun none => by rw [none] at ends; cases ends)
    have high := ceil_mul_lt positive slots.length
    have low := le_ceil_mul positive slots.length
    have count := laid.count
    obtain ⟨others,page,rfl⟩ : ∃ others page, pages = others ++ [page] := by
      rcases eq_nil_or_concat pages with rfl | ⟨others,page,same⟩
      · rw [length_nil] at count; rw [← count] at low; omega
      · exact ⟨others,page,by simpa using same⟩
    have before : others.length * pageSize < slots.length := by
      rw [← count,length_append,length_singleton,Nat.add_mul] at high; omega
    have after : slots.length ≤ others.length * pageSize + pageSize := by
      rw [← count,length_append,length_singleton,Nat.add_mul] at low; omega
    have isLast : last = page * pageSize + (slots.length - 1 - others.length * pageSize) := by
      have here : ((slotsOf pageSize (others ++ [page])).take slots.length)[slots.length - 1]? = some last := by
        rw [← laid.front,← getLast?_eq_getElem?,ends]
      rw [getElem?_take,if_pos (by omega),slotsOf_append,getElem?_append_right (by rw [slotsOf_length]; omega),
        slotsOf_length] at here
      simp only [slotsOf_cons,slotsOf_nil,append_nil,pageSlots] at here
      rw [getElem?_range' (by omega)] at here
      have := Option.some.inj here
      omega
    have tail : (slotsOf pageSize (others ++ [page])).drop slots.length =
        List.range' (last + 1) (others.length * pageSize + pageSize - slots.length) := by
      rw [slotsOf_append,drop_append,drop_of_length_le (by rw [slotsOf_length]; omega),slotsOf_length,nil_append]
      simp only [slotsOf_cons,slotsOf_nil,append_nil,pageSlots]
      rw [drop_range']
      congr 1 <;> omega
    rw [tail,Pages.unused,ends]
    dsimp only
    rw [unused_count positive,← count,length_append,length_singleton,Nat.add_mul,Nat.one_mul]

theorem Laid.take (laid : Laid pageSize slots pages)
    (inside : count * pageSize ≤ slots.length) : slots.take (count * pageSize) = slotsOf pageSize (pages.take count) := by
  have cut := congrArg (List.take (count * pageSize)) laid.front
  rwa [take_take,min_eq_left inside,slotsOf_take] at cut

theorem Laid.drop (positive : 0 < pageSize) (laid : Laid pageSize slots pages)
    (inside : count * pageSize ≤ slots.length) : Laid pageSize (slots.drop (count * pageSize)) (pages.drop count) := by
  constructor
  · have cut := congrArg (List.drop (count * pageSize)) laid.front
    rw [drop_take,slotsOf_drop] at cut
    rw [length_drop]
    exact cut
  · have whole := ceil_add_mul positive count (slots.length - count * pageSize)
    rw [Nat.add_sub_cancel' inside,← laid.count] at whole
    rw [length_drop,length_drop]
    omega

theorem Laid.cons_pages (positive : 0 < pageSize) (laid : Laid pageSize slots pages) (front : List Nat) :
    Laid pageSize (slotsOf pageSize front ++ slots) (front ++ pages) := by
  constructor
  · rw [length_append,slotsOf_length,slotsOf_append,take_append,take_of_length_le (by rw [slotsOf_length]; omega),slotsOf_length,
      Nat.add_sub_cancel_left,← laid.front]
  · rw [length_append,length_append,slotsOf_length,ceil_add_mul positive,laid.count]

theorem slotsOf_take_add (pages : List Nat) (page count more : Nat) (isLength : pages.length = count) :
    (slotsOf pageSize (pages ++ [page])).take (count * pageSize + more) = slotsOf pageSize pages ++ (pageSlots pageSize page).take more := by
  rw [slotsOf_append,← isLength,← slotsOf_length,take_length_add_append]
  simp

theorem Laid.extend (positive : 0 < pageSize) {slots pages fresh : List Nat} (laid : Laid pageSize slots pages)
    (enough : fresh.length = ceil pageSize (slots.length + count) - ceil pageSize slots.length) :
    Laid pageSize (slots ++ (Pages.unused pageSize slots ++ slotsOf pageSize fresh).take count) (pages ++ fresh) := by
  have whole := laid.unused positive
  have more := ceil_mono pageSize (Nat.le_add_right slots.length count)
  have total : (pages ++ fresh).length = ceil pageSize (slots.length + count) := by
    rw [length_append,laid.count,enough]; omega
  have front : slots ++ (Pages.unused pageSize slots ++ slotsOf pageSize fresh).take count =
      (slotsOf pageSize (pages ++ fresh)).take (slots.length + count) := by
    rw [slotsOf_append,← whole,append_assoc,take_length_add_append]
  have inside : slots.length + count ≤ (pages ++ fresh).length * pageSize := by rw [total]; exact le_ceil_mul positive _
  rw [front]
  have laid' := laid_take positive inside
  rwa [← total,take_length] at laid'

/-! ### Reading the pages back -/

/-- The pages of some entries, each once and in order. -/
def uniquePages (pageSize : Nat) (slots : List Nat) : List Nat := (slots.map (· / pageSize)).dedup.insertionSort (· ≤ ·)

theorem Laid.uniquePages (positive : 0 < pageSize) (laid : Laid pageSize slots pages) (distinct : pages.Nodup) :
    (Pages.uniquePages pageSize slots).Perm pages := by
  refine (perm_insertionSort ..).trans ((perm_ext_iff_of_nodup (nodup_dedup _) distinct).mpr fun page => ?_)
  rw [mem_dedup,mem_map]
  constructor
  · rintro ⟨slot,member,rfl⟩
    rw [laid.front] at member
    exact (mem_slotsOf positive).mp (mem_of_mem_take member)
  · intro member
    -- every page has at least its first entry taken
    obtain ⟨index,inside,isPage⟩ := getElem_of_mem member
    have high := ceil_mul_lt positive slots.length
    rw [← laid.count] at high
    have begun : index * pageSize < slots.length := by
      have := Nat.mul_le_mul_right pageSize (Nat.succ_le_of_lt inside)
      rw [Nat.succ_mul] at this
      omega
    have here : ((slotsOf pageSize pages).take slots.length)[index * pageSize]? = some (page * pageSize) := by
      have first : (slotsOf pageSize (pages.drop index))[0]? = some (page * pageSize) := by
        rw [drop_eq_getElem_cons inside,isPage,slotsOf_cons,getElem?_append_left (by simp; omega),pageSlots,
          getElem?_range' positive]
        simp
      rw [← slotsOf_drop,getElem?_drop,add_zero] at first
      rw [getElem?_take,if_pos begun,first]
    rw [← laid.front] at here
    exact ⟨_,mem_of_getElem? here,Nat.mul_div_cancel _ positive⟩

end Hypic.Pages
