import Hypic.Agree
import Hypic.Policy

/-! `RadixKey`: the token ids a radix cache is asked about, read one by one or as overlapping pairs. Slices,
    comparisons and child keys work on the raw tokens; all of them are slices and comparisons of the logical units. -/

namespace Hypic
open Policy Agree List

/-- What a key is a sequence of: token ids, or bigrams of neighbouring token ids. -/
inductive KeyUnit where
  | token (id : Token)
  | pair (first second : Token)
deriving DecidableEq, Repr

structure RadixKey where
  tokenIds : List Token
  extraKey : Option String
  isBigram : Bool
  limit : Option Nat
deriving DecidableEq, Repr

/-- A dictionary key: the first page, namespaced by `extra_key`. -/
@[ext] structure ChildKey where
  extraKey : Option String
  plain : List KeyUnit
deriving DecidableEq, Repr

/-- A SHA-256 digest; Python keeps its hex string. -/
abbrev Digest := List UInt8

/-- `t.to_bytes(4, byteorder="little", signed=False)`. -/
def tokenBytes (t : Token) : List UInt8 :=
  [UInt8.ofNat t,UInt8.ofNat (t / 2 ^ 8),UInt8.ofNat (t / 2 ^ 16),UInt8.ofNat (t / 2 ^ 24)]

def KeyUnit.bytes : KeyUnit → List UInt8
  | .token t => tokenBytes t
  | .pair first second => tokenBytes first ++ tokenBytes second

namespace RadixKey
open List
variable (key other : RadixKey) (pageSize : Nat)

def rawLen : Nat :=
  match key.limit with
  | some limit => if limit < key.tokenIds.length then limit else key.tokenIds.length
  | none => key.tokenIds.length

/-- `__len__`. -/
def length : Nat := if key.isBigram then key.rawLen - 1 else key.rawLen

/-- `key[start:stop]`; the bigrams `[start, stop)` span one raw token more. -/
def slice (start stop : Nat) : RadixKey :=
  let start := min start key.length
  let stop := min stop key.length
  if key.isBigram then
    ⟨if start < stop then (key.tokenIds.take (stop + 1)).drop start else [],key.extraKey,true,none⟩
  else ⟨(key.tokenIds.take stop).drop start,key.extraKey,false,none⟩

def pageAligned : RadixKey :=
  if pageSize = 1 then key else key.slice 0 (key.length / pageSize * pageSize)

def maybeToBigramView (isEagle : Bool) (value : Option (List Slot)) : RadixKey × Option (List Slot) :=
  if isEagle = true ∧ key.isBigram = false then
    let view := { key with isBigram := true }
    (view,value.map (List.take view.length))
  else (key,value)

/-- `t0[lo:hi] == t1[lo:hi]`. -/
def sameWindow (lo hi : Nat) : Bool :=
  (key.tokenIds.take hi).drop lo == (other.tokenIds.take hi).drop lo

/-- `match`: the logical units shared with the other key, in whole pages. Both keys have the child key in common
    wherever it is called, so `_check_compatible` does not raise. -/
def matchWith : Nat :=
  let n := min key.tokenIds.length other.tokenIds.length
  let matchedTokens := gallop (sameWindow key other) n n 0 1
  if key.isBigram then
    let matched := min (min (matchedTokens - 1) key.length) other.length
    if 1 < pageSize then matched / pageSize * pageSize else matched
  else
    let matchedTokens := min (min matchedTokens key.length) other.length
    if pageSize = 1 then matchedTokens else matchedTokens / pageSize * pageSize

/-- The raw tokens as logical units, whatever the limit. -/
def allUnits : List KeyUnit :=
  if key.isBigram then List.zipWith .pair key.tokenIds key.tokenIds.tail else key.tokenIds.map .token

def childKey : ChildKey := ⟨key.extraKey,key.allUnits.take pageSize⟩

/-- The hash of the units `[start, stop)`, chained to the page before. -/
def hashPage (sha256 : List UInt8 → Digest) (start stop : Nat) (priorHash : Option Digest) : Digest :=
  sha256 (priorHash.getD [] ++ ((key.allUnits.take stop).drop start).flatMap KeyUnit.bytes)

/-- The key as the sequence that `__iter__` yields. -/
def units : List KeyUnit := key.allUnits.take key.length

variable {key other pageSize}

theorem rawLen_le : key.rawLen ≤ key.tokenIds.length := by
  unfold rawLen
  split
  · split <;> omega
  · exact le_rfl

theorem allUnits_length :
    key.allUnits.length = if key.isBigram then key.tokenIds.length - 1 else key.tokenIds.length := by
  unfold allUnits
  split <;> simp

@[simp] theorem units_length : key.units.length = key.length := by
  have raw := key.rawLen_le
  simp only [units,length_take,allUnits_length,length]
  split <;> omega

theorem units_eq_nil : key.units = [] ↔ key.length = 0 := by
  rw [← length_eq_zero_iff,units_length]

private theorem pairs_slice (tokens : List Token) (start stop : Nat) :
    List.zipWith KeyUnit.pair ((tokens.take (stop + 1)).drop start) ((tokens.take (stop + 1)).drop start).tail =
      ((List.zipWith KeyUnit.pair tokens tokens.tail).take stop).drop start := by
  refine ext_getElem? (fun place => ?_)
  simp only [getElem?_zipWith,getElem?_drop,getElem?_take,getElem?_tail]
  by_cases inside : start + place < stop
  · rw [if_pos (by omega),if_pos (by omega),if_pos inside,← Nat.add_assoc]
  · rw [if_neg inside]
    by_cases edge : start + place < stop + 1
    · rw [if_pos edge,if_neg (show ¬ start + (place + 1) < stop + 1 by omega)]
      cases tokens[start + place]? <;> rfl
    · rw [if_neg edge]

/-- The logical units of some raw tokens. -/
def unitsFrom (isBigram : Bool) (tokenIds : List Token) : List KeyUnit :=
  if isBigram then List.zipWith .pair tokenIds tokenIds.tail else tokenIds.map .token

/-- The number of logical units of so many raw tokens. -/
def unitCount (isBigram : Bool) (count : Nat) : Nat := if isBigram then count - 1 else count

theorem unitsFrom_length (isBigram : Bool) (tokenIds : List Token) :
    (unitsFrom isBigram tokenIds).length = unitCount isBigram tokenIds.length := by
  unfold unitsFrom unitCount
  split <;> simp

theorem unitsFrom_take (isBigram : Bool) (tokenIds : List Token) (count : Nat) :
    unitsFrom isBigram (tokenIds.take count) = (unitsFrom isBigram tokenIds).take (unitCount isBigram count) := by
  cases isBigram with
  | false => simp [unitsFrom,unitCount]
  | true =>
    cases count with
    | zero => rfl
    | succ count => simpa [unitsFrom,unitCount] using pairs_slice tokenIds 0 count

theorem slice_allUnits (start stop : Nat) :
    (key.slice start stop).allUnits = (key.units.take stop).drop start := by
  have whole : (key.units.take stop).drop start = (key.allUnits.take (min stop key.length)).drop (min start key.length) := by
    rw [units,take_take]
    by_cases inside : start ≤ key.length
    · rw [min_eq_left inside]
    · have none : (key.allUnits.take (min stop key.length)).length ≤ min start key.length := by simp; omega
      rw [drop_eq_nil_of_le none,drop_eq_nil_of_le (by simp; omega)]
  rw [whole]
  unfold slice
  by_cases bigram : key.isBigram = true
  · simp only [bigram,if_true,allUnits]
    split
    · exact pairs_slice ..
    · rename_i single
      rw [drop_eq_nil_of_le (by simp only [length_take]; omega)]
      rfl
  · simp [bigram,allUnits,map_take,map_drop]

theorem slice_limit (start stop : Nat) : (key.slice start stop).limit = none := by
  unfold slice
  dsimp only
  split <;> rfl

@[simp] theorem slice_extraKey (start stop : Nat) : (key.slice start stop).extraKey = key.extraKey := by
  unfold slice
  dsimp only
  split <;> rfl

theorem units_of_limit (unlimited : key.limit = none) : key.units = key.allUnits := by
  refine take_of_length_le ?_
  rw [allUnits_length,length,rawLen,unlimited]

@[simp] theorem slice_units (start stop : Nat) : (key.slice start stop).units = (key.units.take stop).drop start := by
  rw [units_of_limit (slice_limit start stop),slice_allUnits]

theorem slice_length (start stop : Nat) : (key.slice start stop).length = min stop key.length - start := by
  rw [← units_length,slice_units]; simp

theorem pageAligned_units :
    (key.pageAligned pageSize).units = key.units.take (key.length / pageSize * pageSize) := by
  unfold pageAligned
  split
  · rename_i single
    rw [single,Nat.div_one,Nat.mul_one,← units_length,take_length]
  · rw [slice_units,drop_zero]

@[simp] theorem pageAligned_extraKey : (key.pageAligned pageSize).extraKey = key.extraKey := by
  unfold pageAligned
  split
  · rfl
  · exact slice_extraKey ..

theorem pageAligned_length :
    (key.pageAligned pageSize).length = key.length / pageSize * pageSize := by
  rw [← units_length,pageAligned_units,length_take,units_length]
  exact min_eq_left (Nat.div_mul_le_self ..)

@[simp] theorem childKey_extraKey : (key.childKey pageSize).extraKey = key.extraKey := rfl

theorem childKey_plain (long : pageSize ≤ key.length) : (key.childKey pageSize).plain = key.units.take pageSize := by
  rw [childKey,units,take_take,min_eq_left long]

private def KeyUnit.isPair : KeyUnit → Bool
  | .token _ => false
  | .pair .. => true

private theorem isPair_of_mem {unit : KeyUnit} (member : unit ∈ key.allUnits) : KeyUnit.isPair unit = key.isBigram := by
  unfold allUnits at member
  cases bigram : key.isBigram with
  | true =>
    rw [if_pos bigram] at member
    obtain ⟨place,inside,rfl⟩ := getElem_of_mem member
    simp [KeyUnit.isPair]
  | false =>
    rw [if_neg (by simp [bigram])] at member
    obtain ⟨token,-,rfl⟩ := mem_map.mp member
    rfl

theorem isBigram_of_childKey (positive : 0 < pageSize) (long : pageSize ≤ key.length)
    (same : key.childKey pageSize = other.childKey pageSize) : key.isBigram = other.isBigram := by
  have nonempty : key.units.take pageSize ≠ [] := by
    rw [← length_pos_iff_ne_nil,length_take,units_length]; omega
  obtain ⟨unit,member⟩ := exists_mem_of_ne_nil _ nonempty
  rw [← childKey_plain long] at member
  have here : KeyUnit.isPair unit = key.isBigram := isPair_of_mem (mem_of_mem_take member)
  rw [same] at member
  exact here.symm.trans (isPair_of_mem (mem_of_mem_take member))

private theorem sameWindow_iff {lo hi : Nat} (left : lo ≤ shared key.tokenIds other.tokenIds) (order : lo ≤ hi)
    (inside : hi ≤ min key.tokenIds.length other.tokenIds.length) :
    sameWindow key other lo hi = true ↔ hi ≤ shared key.tokenIds other.tokenIds := by
  have before := (le_shared_iff.mp left).2.2
  rw [sameWindow,beq_iff_eq,le_shared_iff]
  constructor
  · intro window
    refine ⟨by omega,by omega,?_⟩
    rw [← take_append_drop lo (key.tokenIds.take hi),← take_append_drop lo (other.tokenIds.take hi),window,
      take_take,take_take,min_eq_left order,before]
  · rintro ⟨-,-,same⟩
    rw [same]

theorem matchWith_eq_agree (positive : 0 < pageSize) (mode : key.isBigram = other.isBigram) :
    key.matchWith other pageSize = agree pageSize key.units other.units := by
  have found : gallop (sameWindow key other) (min key.tokenIds.length other.tokenIds.length)
      (min key.tokenIds.length other.tokenIds.length) 0 1 = shared key.tokenIds other.tokenIds :=
    gallop_eq (fun lo hi => sameWindow_iff) (le_min (shared_le_left ..) (shared_le_right ..)) (by omega) (by omega) (by omega)
  have units : shared key.units other.units = min (shared key.allUnits other.allUnits) (min key.length other.length) :=
    shared_take ..
  unfold matchWith agree
  dsimp only
  rw [found,units]
  by_cases bigram : key.isBigram = true
  · have bigram' := mode ▸ bigram
    have pairs : shared key.allUnits other.allUnits = shared key.tokenIds other.tokenIds - 1 := by
      rw [allUnits,allUnits,if_pos bigram,if_pos bigram']
      exact shared_pairs (fun a b c d equal => by cases equal; exact ⟨rfl,rfl⟩) ..
    rw [if_pos bigram,pairs,← min_assoc]
    split
    · rfl
    · rw [show pageSize = 1 by omega,Nat.div_one,Nat.mul_one]
  · have bigram' : ¬ other.isBigram = true := mode ▸ bigram
    have tokens : shared key.allUnits other.allUnits = shared key.tokenIds other.tokenIds := by
      rw [allUnits,allUnits,if_neg bigram,if_neg bigram']
      exact shared_map (fun a b equal => by cases equal; rfl) ..
    rw [if_neg bigram,tokens,← min_assoc]
    split
    · rename_i single
      rw [single,Nat.div_one,Nat.mul_one]
    · rfl

theorem maybeToBigramView_extraKey (isEagle : Bool) (value : Option (List Slot)) :
    (key.maybeToBigramView isEagle value).1.extraKey = key.extraKey := by
  unfold maybeToBigramView
  split <;> rfl

theorem maybeToBigramView_length_le (key : RadixKey) (isEagle : Bool) (value : Option (List Slot)) :
    (key.maybeToBigramView isEagle value).1.length ≤ key.length := by
  unfold maybeToBigramView
  split
  · rename_i flips
    simp [length,flips.2,rawLen]
  · exact le_rfl

theorem length_le_tokenIds : key.length ≤ key.tokenIds.length := by
  have raw : key.rawLen ≤ _ := rawLen_le
  unfold length
  split <;> omega

theorem maybeToBigramView_none (isEagle : Bool) : (key.maybeToBigramView isEagle none).2 = none := by
  unfold maybeToBigramView
  split <;> rfl

theorem maybeToBigramView_some (isEagle : Bool) {slots : List Slot} (enough : key.length ≤ slots.length) :
    ∃ value, (key.maybeToBigramView isEagle (some slots)).2 = some value ∧ (key.maybeToBigramView isEagle none).1.length ≤ value.length := by
  have shorter := maybeToBigramView_length_le key isEagle none
  by_cases flips : isEagle = true ∧ key.isBigram = false
  · simp only [maybeToBigramView,if_pos flips] at shorter ⊢
    exact ⟨_,rfl,by rw [length_take]; omega⟩
  · simp only [maybeToBigramView,if_neg flips] at shorter ⊢
    exact ⟨_,rfl,enough⟩

end RadixKey
end Hypic
