import Mathlib.Algebra.Order.Group.Multiset
import Mathlib.Algebra.Group.Prod
import Mathlib.Data.List.Sort
import Mathlib.Tactic.Abel
import Hypic.Policy

/-! The two slot allocators, and the pairs of slot multisets every owner is accounted with. -/

namespace Hypic
export Multiset (coe_add mem_add cons_coe nodup_of_le)
namespace Allocator
open Policy Multiset

/-- Slots of one owner: of the KV pool and of the mamba pool. -/
abbrev Holding := Multiset Slot × Multiset Slot

def kvHolding (slots : List Slot) : Holding := (↑slots,0)
def mambaHolding (slots : List Slot) : Holding := (0,↑slots)

@[simp] theorem kvHolding_nil : kvHolding [] = 0 := rfl
@[simp] theorem mambaHolding_nil : mambaHolding [] = 0 := rfl
theorem kvHolding_append (left right : List Slot) : kvHolding (left ++ right) = kvHolding left + kvHolding right := by
  simp [kvHolding]
theorem mambaHolding_append (left right : List Slot) :
    mambaHolding (left ++ right) = mambaHolding left + mambaHolding right := by simp [mambaHolding]
@[simp] theorem kvHolding_fst (slots : List Slot) : (kvHolding slots).1 = ↑slots := rfl
@[simp] theorem kvHolding_snd (slots : List Slot) : (kvHolding slots).2 = 0 := rfl
@[simp] theorem mambaHolding_fst (slots : List Slot) : (mambaHolding slots).1 = 0 := rfl
@[simp] theorem mambaHolding_snd (slots : List Slot) : (mambaHolding slots).2 = ↑slots := rfl

/-- The numbers of slots of both pools. -/
def count : Holding →+ ℕ × ℕ := Multiset.cardHom.prodMap Multiset.cardHom

@[simp] theorem count_kvHolding (slots : List Slot) : count (kvHolding slots) = (slots.length,0) := rfl
@[simp] theorem count_mambaHolding (slots : List Slot) : count (mambaHolding slots) = (0,slots.length) := rfl

/-- No slot of either pool is owned twice. -/
def Unshared (holding : Holding) : Prop := holding.1.Nodup ∧ holding.2.Nodup

theorem Unshared.left {left right : Holding} (unshared : Unshared (left + right)) : Unshared left :=
  ⟨nodup_of_le (Multiset.le_add_right ..) unshared.1,nodup_of_le (Multiset.le_add_right ..) unshared.2⟩
theorem Unshared.right {left right : Holding} (unshared : Unshared (left + right)) : Unshared right :=
  Unshared.left (add_comm left right ▸ unshared)
theorem Unshared.fst_disjoint {left right : Holding} (unshared : Unshared (left + right)) {slot : Slot}
    (inLeft : slot ∈ left.1) (inRight : slot ∈ right.1) : False :=
  disjoint_left.mp (nodup_add.mp unshared.1).2.2 inLeft inRight
theorem Unshared.snd_disjoint {left right : Holding} (unshared : Unshared (left + right)) {slot : Slot}
    (inLeft : slot ∈ left.2) (inRight : slot ∈ right.2) : False :=
  disjoint_left.mp (nodup_add.mp unshared.2).2.2 inLeft inRight

/-- The KV allocator. Released slots wait for a sort only when `need_sort` is set. -/
structure TokenToKVPoolAllocator where
  needSort : Bool
  freePages : List Slot
  releasePages : List Slot
  settled : needSort = false → releasePages = []

namespace TokenToKVPoolAllocator
open Multiset
variable (allocator : TokenToKVPoolAllocator)

/-- Slot 0 is the padding slot and never handed out. -/
def clear (size : Nat) (needSort : Bool) : TokenToKVPoolAllocator :=
  ⟨needSort,List.range' 1 size,[],fun _ => rfl⟩

def availableSize : Nat := allocator.freePages.length + allocator.releasePages.length

def mergeAndSortFree : TokenToKVPoolAllocator :=
  if 0 < allocator.releasePages.length then
    ⟨allocator.needSort,(allocator.freePages ++ allocator.releasePages).insertionSort (· ≤ ·),[],fun _ => rfl⟩
  else allocator

def takeFront (needSize : Nat) : Option (List Slot × TokenToKVPoolAllocator) :=
  if allocator.freePages.length < needSize then none
  else some (allocator.freePages.take needSize,{ allocator with freePages := allocator.freePages.drop needSize })

def alloc (needSize : Nat) : Option (List Slot × TokenToKVPoolAllocator) :=
  if allocator.needSort = true ∧ allocator.freePages.length < needSize then allocator.mergeAndSortFree.takeFront needSize
  else allocator.takeFront needSize

def free (freeIndex : List Slot) : TokenToKVPoolAllocator :=
  if sorted : allocator.needSort = true then
    { allocator with releasePages := allocator.releasePages ++ freeIndex, settled := by simp [sorted] }
  else { allocator with freePages := allocator.freePages ++ freeIndex }

/-- The free list. -/
def slots : List Slot := allocator.freePages ++ allocator.releasePages

theorem slots_length : allocator.slots.length = allocator.availableSize := by simp [slots,availableSize]

theorem slots_free (freeIndex : List Slot) :
    ((allocator.free freeIndex).slots : Multiset Slot) = freeIndex + allocator.slots := by
  unfold free
  split
  · simp only [slots,← coe_add]; abel
  · simp only [slots,← coe_add]; abel

theorem mergeAndSortFree_slots : (allocator.mergeAndSortFree.slots : Multiset Slot) = allocator.slots := by
  unfold mergeAndSortFree
  split
  · simp only [slots,List.append_nil]; exact coe_eq_coe.mpr (List.perm_insertionSort ..)
  · rfl

section
variable {allocator after : TokenToKVPoolAllocator} {needSize : Nat} {taken : List Slot}

theorem takeFront_slots (allocated : allocator.takeFront needSize = some (taken,after)) :
    taken.length = needSize ∧ (allocator.slots : Multiset Slot) = taken + after.slots := by
  simp only [takeFront] at allocated
  split at allocated
  · cases allocated
  · rename_i enough
    cases allocated
    refine ⟨by simp; omega,?_⟩
    simp only [slots,coe_add,← List.append_assoc,List.take_append_drop]

theorem alloc_slots (allocated : allocator.alloc needSize = some (taken,after)) :
    taken.length = needSize ∧ (allocator.slots : Multiset Slot) = taken + after.slots := by
  unfold alloc at allocated
  split at allocated
  · have spec := takeFront_slots allocated
    rwa [mergeAndSortFree_slots] at spec
  · exact takeFront_slots allocated

end

private theorem takeFront_isSome (needSize : Nat) :
    (allocator.takeFront needSize).isSome ↔ needSize ≤ allocator.freePages.length := by
  unfold takeFront
  split <;> simp <;> omega

theorem alloc_isSome (needSize : Nat) : (allocator.alloc needSize).isSome ↔ needSize ≤ allocator.availableSize := by
  unfold alloc
  split
  · rename_i merging
    rw [takeFront_isSome]
    unfold mergeAndSortFree
    split
    · simp [availableSize,List.length_insertionSort]
    · simp only [availableSize]; omega
  · rename_i direct
    rw [takeFront_isSome]
    by_cases sorted : allocator.needSort = true
    · simp only [sorted,true_and,not_lt] at direct
      exact ⟨fun _ => by simp only [availableSize]; omega,fun _ => direct⟩
    · simp [availableSize,allocator.settled (by simpa using sorted)]

@[simp] theorem clear_slots (size : Nat) (needSort : Bool) : (clear size needSort).slots = List.range' 1 size := by
  simp [clear,slots]
end TokenToKVPoolAllocator

/-- The mamba allocator: one slot holds one whole recurrent state. -/
structure MambaSlotAllocator where
  freeSlots : List Slot

namespace MambaSlotAllocator
open Multiset
variable (allocator : MambaSlotAllocator)

def clear (size : Nat) : MambaSlotAllocator := ⟨List.range' 1 size⟩
def availableSize : Nat := allocator.freeSlots.length
def alloc (needSize : Nat) : Option (List Slot × MambaSlotAllocator) :=
  if allocator.freeSlots.length < needSize then none
  else some (allocator.freeSlots.take needSize,⟨allocator.freeSlots.drop needSize⟩)
/-- Every caller here takes a single slot. -/
def allocOne : Option (Slot × MambaSlotAllocator) :=
  match allocator.alloc 1 with
  | some ([slot],after) => some (slot,after)
  | _ => none
def free (freeIndex : List Slot) : MambaSlotAllocator := ⟨allocator.freeSlots ++ freeIndex⟩

theorem freeSlots_free (freeIndex : List Slot) :
    ((allocator.free freeIndex).freeSlots : Multiset Slot) = freeIndex + allocator.freeSlots := by
  simp only [free,← coe_add]; abel

theorem allocOne_nil (exhausted : allocator.freeSlots = []) : allocator.allocOne = none := by
  simp [allocOne,alloc,exhausted]
theorem allocOne_cons {slot : Slot} {rest : List Slot} (available : allocator.freeSlots = slot::rest) :
    allocator.allocOne = some (slot,⟨rest⟩) := by simp [allocOne,alloc,available]

theorem allocOne_slots {allocator after : MambaSlotAllocator} {slot : Slot}
    (allocated : allocator.allocOne = some (slot,after)) :
    allocator.freeSlots = slot::after.freeSlots := by
  cases available : allocator.freeSlots with
  | nil => rw [allocOne_nil _ available] at allocated; cases allocated
  | cons head rest =>
    rw [allocOne_cons _ available] at allocated
    cases allocated
    rfl
end MambaSlotAllocator

end Allocator
end Hypic
