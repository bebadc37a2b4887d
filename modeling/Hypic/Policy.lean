import Mathlib.Data.Rat.Floor
import Mathlib.Data.List.Basic

/-! PIC methods, the seam width and the segments of a prompt. -/

namespace Hypic.Policy
open List
universe u

inductive PICCompose where | addition | transition
  deriving DecidableEq, Repr

/-- A PIC method; code branches on these attributes, never on the method's name. -/
structure PICPolicy where
  compose : PICCompose
  rope : Bool
  recompute : Bool
  deriving DecidableEq, Repr

inductive PICMode where | addition | transition | transitionRope | transitionRopeRecompute
  deriving DecidableEq, Repr

def PICMode.policy : PICMode → PICPolicy
  | .addition => ⟨.addition,false,false⟩
  | .transition => ⟨.transition,false,false⟩
  | .transitionRope => ⟨.transition,true,false⟩
  | .transitionRopeRecompute => ⟨.transition,true,true⟩

theorem PICMode.rope_transition (mode : PICMode) (rope : mode.policy.rope = true) :
    mode.policy.compose = .transition := by cases mode <;> simp_all [PICMode.policy]
theorem PICMode.recompute_rope (mode : PICMode) (recompute : mode.policy.recompute = true) :
    mode.policy.rope = true := by cases mode <;> simp_all [PICMode.policy]

/-- Tokens of a hit segment to forward again: none, a ratio of the segment, or a count. -/
def resolveSeamSinkTokens (sinkSpec : ℚ) (maxTokens : Nat) : Nat :=
  if sinkSpec ≤ 0 ∨ maxTokens = 0 then 0
  else if sinkSpec ≤ 1 then min maxTokens ⌈maxTokens * sinkSpec⌉.toNat
  else min maxTokens ⌊sinkSpec⌋.toNat

theorem resolveSeamSinkTokens_le (sinkSpec : ℚ) (maxTokens : Nat) :
    resolveSeamSinkTokens sinkSpec maxTokens ≤ maxTokens := by
  unfold resolveSeamSinkTokens
  split
  · exact Nat.zero_le _
  · split <;> exact Nat.min_le_left ..

abbrev Token := Nat
abbrev Slot := Nat
/-- A half-open range of prompt positions. -/
abbrev Seg := Nat × Nat

instance : LawfulBEq Seg := inferInstance

/-- The settings PIC reads, with the segment hash as a parameter. -/
structure ServerArgs (Hash : Type u) where
  picMode : PICMode
  picSegmentMinTokens : Int
  picSeamSink : ℚ
  segmentHash : List Token → Hash

namespace ServerArgs
open List
variable {Hash : Type u} (args : ServerArgs Hash)
def rope : Bool := args.picMode.policy.rope
def isTransition : Bool := args.picMode.policy.compose = .transition
def recompute : Bool := args.picMode.policy.recompute
/-- The length test that keeps short segments out of the cache. -/
def short (seg : Seg) : Bool :=
  0 < args.picSegmentMinTokens ∧ ((seg.2 - seg.1 : Nat) : Int) < args.picSegmentMinTokens

theorem isTransition_of_rope (rope : args.rope = true) : args.isTransition = true := by
  simp [isTransition,PICMode.rope_transition _ rope]
end ServerArgs

/-- Endpoints of the non-empty parts in the concatenated prompt. -/
def offsets : Nat → List (List Token) → List Seg
  | _, [] => []
  | start, part::rest =>
    if part = [] then offsets start rest else (start,start + part.length)::offsets (start + part.length) rest

/-- The prompt's tokens and its segments, from the separately tokenized parts. -/
def splitAndTokenize (parts : List (List Token)) : List Token × List Seg := (parts.flatten,offsets 0 parts)

def segmentIds (ids : List Token) (seg : Seg) : List Token := (ids.drop seg.1).take (seg.2 - seg.1)

/-- Non-empty ranges that follow one another from `start` to `stop`. -/
def Consecutive : Nat → List Seg → Nat → Prop
  | start, [], stop => start = stop
  | start, seg::rest, stop => seg.1 = start ∧ start < seg.2 ∧ Consecutive seg.2 rest stop

theorem offsets_consecutive (parts : List (List Token)) (start : Nat) :
    Consecutive start (offsets start parts) (start + parts.flatten.length) := by
  induction parts generalizing start with
  | nil => simp [offsets,Consecutive]
  | cons part rest ih =>
    by_cases nothing : part = []
    · simpa [offsets,nothing] using ih start
    · have positive : 0 < part.length := length_pos_iff.mpr nothing
      simp only [offsets,nothing,if_false,Consecutive,flatten_cons,length_append]
      refine ⟨trivial,by omega,?_⟩
      simpa [Nat.add_assoc] using ih (start + part.length)

variable {start stop : Nat} {segs : List Seg}

section
variable (consecutive : Consecutive start segs stop)
include consecutive

theorem Consecutive.le :
    start ≤ stop := by
  induction segs generalizing start with
  | nil => exact Nat.le_of_eq consecutive
  | cons seg rest ih => have later := ih consecutive.2.2; have := consecutive.2.1; omega

theorem Consecutive.mem_bounds {seg : Seg} (member : seg ∈ segs) : start ≤ seg.1 ∧ seg.1 < seg.2 ∧ seg.2 ≤ stop := by
  induction segs generalizing start with
  | nil => simp at member
  | cons head rest ih =>
    obtain ⟨first,positive,later⟩ := consecutive
    rcases mem_cons.mp member with rfl | member
    · exact ⟨by omega,by omega,later.le⟩
    · have bounds := ih later member
      exact ⟨by omega,bounds.2⟩

theorem Consecutive.sorted :
    segs.Pairwise (fun left right => left.2 ≤ right.1) := by
  induction segs generalizing start with
  | nil => exact List.Pairwise.nil
  | cons seg rest ih =>
    exact pairwise_cons.mpr ⟨fun _ member => (consecutive.2.2.mem_bounds member).1,ih consecutive.2.2⟩

theorem Consecutive.increasing :
    segs.Pairwise fun left right => left.1 < right.1 := by
  induction segs generalizing start with
  | nil => exact List.Pairwise.nil
  | cons seg rest ih =>
    obtain ⟨rfl,positive,later⟩ := consecutive
    refine pairwise_cons.mpr ⟨fun other member => ?_,ih later⟩
    have := (later.mem_bounds member).1
    omega

theorem Consecutive.apart {seg other : Seg}
    (member : seg ∈ segs) (otherMember : other ∈ segs) (before : seg.1 < other.1) : seg.2 ≤ other.1 := by
  induction segs generalizing start with
  | nil => cases member
  | cons head rest ih =>
    obtain ⟨rfl,positive,later⟩ := consecutive
    rcases mem_cons.mp member with rfl | inside
    · rcases mem_cons.mp otherMember with rfl | otherInside
      · omega
      · exact (later.mem_bounds otherInside).1
    · rcases mem_cons.mp otherMember with rfl | otherInside
      · have := (later.mem_bounds inside).1
        omega
      · exact ih later inside otherInside

theorem Consecutive.nodup :
    segs.Nodup := by
  induction segs generalizing start with
  | nil => exact nodup_nil
  | cons seg rest ih =>
    refine nodup_cons.mpr ⟨fun member => ?_,ih consecutive.2.2⟩
    have later := (consecutive.2.2.mem_bounds member).1
    have := consecutive.1; have := consecutive.2.1
    omega

theorem Consecutive.covers {pos : Nat} (lower : start ≤ pos) (upper : pos < stop) : ∃ seg ∈ segs, seg.1 ≤ pos ∧ pos < seg.2 := by
  induction segs generalizing start with
  | nil => simp only [Consecutive] at consecutive; omega
  | cons seg rest ih =>
    obtain ⟨first,positive,later⟩ := consecutive
    by_cases inside : pos < seg.2
    · exact ⟨seg,mem_cons_self ..,by omega,inside⟩
    · obtain ⟨found,member,bounds⟩ := ih later (by omega)
      exact ⟨found,mem_cons_of_mem _ member,bounds⟩

theorem Consecutive.unique {left right : Seg} (leftMember : left ∈ segs) (rightMember : right ∈ segs) {pos : Nat}
    (inLeft : left.1 ≤ pos ∧ pos < left.2) (inRight : right.1 ≤ pos ∧ pos < right.2) : left = right := by
  induction segs generalizing start with
  | nil => simp at leftMember
  | cons seg rest ih =>
    have later := consecutive.2.2
    rcases mem_cons.mp leftMember with leftHere | leftLater <;>
      rcases mem_cons.mp rightMember with rightHere | rightLater
    · rw [leftHere,rightHere]
    · have bound := (later.mem_bounds rightLater).1
      subst leftHere; omega
    · have bound := (later.mem_bounds leftLater).1
      subst rightHere; omega
    · exact ih later leftLater rightLater

theorem Consecutive.last {seg : Seg} (last : segs.getLast? = some seg) : seg.2 = stop := by
  induction segs generalizing start with
  | nil => simp at last
  | cons head rest ih =>
    obtain ⟨_,_,later⟩ := consecutive
    cases rest with
    | nil =>
      simp only [getLast?_singleton,Option.some.injEq] at last
      subst last; exact later
    | cons next rest => exact ih later (by simpa using last)

theorem Consecutive.next {seg : Seg}
    (member : seg ∈ segs) (inner : seg.2 < stop) : ∃ next ∈ segs, next.1 = seg.2 := by
  induction segs generalizing start with
  | nil => cases member
  | cons head rest ih =>
    obtain ⟨-,-,later⟩ := consecutive
    rcases mem_cons.mp member with rfl | member
    · cases rest with
      | nil =>
        have ends : seg.2 = stop := later
        omega
      | cons next rest => exact ⟨next,mem_cons_of_mem _ mem_cons_self,later.1⟩
    · obtain ⟨next,listed,follows⟩ := ih later member
      exact ⟨next,mem_cons_of_mem _ listed,follows⟩

end

theorem segmentIds_length (ids : List Token) (seg : Seg) (inside : seg.2 ≤ ids.length) :
    (segmentIds ids seg).length = seg.2 - seg.1 := by
  simp only [segmentIds,length_take,length_drop]; omega

end Hypic.Policy
