import Mathlib.Data.List.Infix

/-! Occurrences of a pattern in a text that is put together from parts: across a separator that the
    pattern does not contain, and under an escaping that leaves the pattern's characters alone. -/

namespace Hypic.Search
open List
universe u
variable {Sym : Type u} {pattern : List Sym} {sep : Sym}

theorem isPrefix_append_cons (absent : sep ∉ pattern) (left right : List Sym) :
    pattern <+: left ++ sep::right ↔ pattern <+: left := by
  constructor
  · intro here
    rcases le_or_gt pattern.length left.length with short | long
    · exact prefix_of_prefix_length_le here (prefix_append left _) short
    · have inside : left ++ [sep] <+: pattern :=
        prefix_of_prefix_length_le ⟨right,by simp⟩ here (by simp; omega)
      exact absurd (inside.subset (by simp)) absent
  · intro here
    exact here.trans (prefix_append left _)

theorem infix_append_cons (absent : sep ∉ pattern) (left right : List Sym) :
    pattern <:+: left ++ sep::right ↔ pattern <:+: left ∨ pattern <:+: right := by
  induction left with
  | nil =>
    have start := isPrefix_append_cons absent [] right
    rw [nil_append] at start ⊢
    rw [infix_cons_iff,start,prefix_nil,infix_nil]
  | cons first left ih =>
    have start := isPrefix_append_cons absent (first::left) right
    rw [cons_append] at start ⊢
    rw [infix_cons_iff,infix_cons_iff,start,ih,or_assoc]

theorem infix_append_of_foreign {left : List Sym} (foreign : ∀ sym ∈ left, sym ∉ pattern) (written : left ≠ [])
    (right : List Sym) :
    pattern <:+: left ++ right ↔ pattern <:+: right := by
  induction left with
  | nil => exact absurd rfl written
  | cons first left ih =>
    have skip := infix_append_cons (foreign first mem_cons_self) [] (left ++ right)
    rw [nil_append] at skip
    rw [cons_append,skip,infix_nil]
    cases left with
    | nil => exact ⟨fun either => either.elim (fun none => none ▸ nil_infix) id,.inr⟩
    | cons second left =>
      rw [ih (fun sym later => foreign sym (mem_cons_of_mem first later)) (cons_ne_nil _ _)]
      exact ⟨fun either => either.elim (fun none => none ▸ nil_infix) id,.inr⟩

/-- An escaping keeps the symbols of the pattern and writes every other one without them. -/
structure Keeps (pattern : List Sym) (escape : Sym → List Sym) : Prop where
  own : ∀ sym ∈ pattern, escape sym = [sym]
  foreign : ∀ sym, sym ∉ pattern → ∀ written ∈ escape sym, written ∉ pattern
  written : ∀ sym, escape sym ≠ []

variable {escape : Sym → List Sym}

theorem isPrefix_flatMap (keeps : Keeps pattern escape) (text : List Sym) {front : List Sym}
    (part : ∀ sym ∈ front, sym ∈ pattern) :
    front <+: text.flatMap escape ↔ front <+: text := by
  induction text generalizing front with
  | nil => rfl
  | cons sym text ih =>
    cases front with
    | nil => simp
    | cons first front =>
      rw [flatMap_cons]
      have rest := ih fun other later => part other (mem_cons_of_mem first later)
      by_cases known : sym ∈ pattern
      · rw [keeps.own sym known,singleton_append,cons_prefix_cons,cons_prefix_cons,rest]
      · obtain ⟨lead,more,escaped⟩ := exists_cons_of_ne_nil (keeps.written sym)
        have firstKnown := part first mem_cons_self
        have leadForeign : lead ∉ pattern := keeps.foreign sym known lead (escaped ▸ mem_cons_self)
        rw [escaped,cons_append,cons_prefix_cons,cons_prefix_cons]
        exact ⟨fun both => absurd (both.1 ▸ firstKnown) leadForeign,fun both => absurd (both.1 ▸ firstKnown) known⟩

theorem infix_flatMap (keeps : Keeps pattern escape) (text : List Sym) :
    pattern <:+: text.flatMap escape ↔ pattern <:+: text := by
  induction text with
  | nil => rfl
  | cons sym text ih =>
    by_cases known : sym ∈ pattern
    · have start := isPrefix_flatMap keeps (sym::text) fun _ (member : _ ∈ pattern) => member
      rw [flatMap_cons,keeps.own sym known,singleton_append] at start ⊢
      rw [infix_cons_iff,infix_cons_iff,start,ih]
    · rw [flatMap_cons,infix_append_of_foreign (keeps.foreign sym known) (keeps.written sym),ih]
      have single : ∀ other ∈ [sym], other ∉ pattern := by simpa using known
      exact (infix_append_of_foreign single (cons_ne_nil _ _) text).symm

end Hypic.Search
