import Mathlib.Algebra.Order.Group.Nat
import Mathlib.Algebra.Order.BigOperators.Group.List
import Mathlib.Data.List.GetD

/-! Lossy decoding of UTF-8: the units of a byte string, valid or not, and the character read from each. -/

namespace Hypic.Utf8
open List
variable {skip : Nat} {bytes : Bytes}

abbrev Bytes := List UInt8

/-- U+FFFD, read in place of an invalid unit. -/
def replacement : Char := Char.ofNat 0xFFFD

def isContinuation (byte : UInt8) : Bool := 0x80 ≤ byte ∧ byte ≤ 0xBF

/-- Length of the character a lead byte announces; 0 for a byte that leads none. -/
def charWidth (lead : UInt8) : Nat :=
  if lead < 0x80 then 1 else if lead < 0xC2 then 0 else if lead < 0xE0 then 2
  else if lead < 0xF0 then 3 else if lead < 0xF5 then 4 else 0

/-- Bounds on the second byte that exclude overlong forms, surrogates and values past U+10FFFF. -/
def secondOk (lead second : UInt8) : Bool :=
  if lead = 0xE0 then 0xA0 ≤ second ∧ second ≤ 0xBF
  else if lead = 0xED then 0x80 ≤ second ∧ second ≤ 0x9F
  else if lead = 0xF0 then 0x90 ≤ second ∧ second ≤ 0xBF
  else if lead = 0xF4 then 0x80 ≤ second ∧ second ≤ 0x8F
  else isContinuation second

def low (byte : UInt8) : Nat := byte.toNat % 64

/-- The unit a byte begins: how many of the following bytes belong to it, and its character when it is
    valid. Past the end of the input 0 is read, which continues nothing. -/
def unit (lead : UInt8) (rest : Bytes) : Nat × Option Char :=
  let byte := fun i => rest.getD i 0
  match charWidth lead with
  | 1 => (0,some (Char.ofNat lead.toNat))
  | 2 =>
    if isContinuation (byte 0) then (1,some (Char.ofNat (lead.toNat % 32 * 64 + low (byte 0)))) else (0,none)
  | 3 =>
    if secondOk lead (byte 0) then
      if isContinuation (byte 1) then
        (2,some (Char.ofNat (lead.toNat % 16 * 4096 + low (byte 0) * 64 + low (byte 1))))
      else (1,none)
    else (0,none)
  | 4 =>
    if secondOk lead (byte 0) then
      if isContinuation (byte 1) then
        if isContinuation (byte 2) then
          (3,some (Char.ofNat
            (lead.toNat % 8 * 262144 + low (byte 0) * 4096 + low (byte 1) * 64 + low (byte 2))))
        else (2,none)
      else (1,none)
    else (0,none)
  | _ => (0,none)

/-- Reads unit after unit; `skip` counts the bytes left of the unit being read. -/
def decodeFrom : Nat → Bytes → List Char
  | _, [] => []
  | skip + 1, _::rest => decodeFrom skip rest
  | 0, lead::rest => (unit lead rest).2.getD replacement::decodeFrom (unit lead rest).1 rest

def fromUtf8Lossy (bytes : Bytes) : List Char := decodeFrom 0 bytes

def validFrom : Nat → Bytes → Bool
  | skip, [] => skip = 0
  | skip + 1, _::rest => validFrom skip rest
  | 0, lead::rest => (unit lead rest).2.isSome && validFrom (unit lead rest).1 rest

/-- Every unit is valid, so that no character is left open at the end. -/
def WellFormed (bytes : Bytes) : Prop := validFrom 0 bytes = true

instance (bytes : Bytes) : Decidable (WellFormed bytes) := inferInstanceAs (Decidable (_ = true))

theorem inside_of_continuation {rest : Bytes} {i : Nat} (continues : isContinuation (rest.getD i 0) = true)
    (more : Bytes) : (rest ++ more).getD i 0 = rest.getD i 0 := by
  by_cases inside : i < rest.length
  · exact getD_append rest more 0 i inside
  · rw [getD_eq_default _ _ (Nat.le_of_not_lt inside)] at continues
    exact absurd continues (by decide)

theorem isContinuation_of_secondOk {lead second : UInt8} (ok : secondOk lead second = true) :
    isContinuation second = true := by
  unfold secondOk isContinuation at *
  split_ifs at ok <;> simp [UInt8.le_iff_toNat_le] at ok ⊢ <;> omega

theorem unit_continues (lead : UInt8) (rest : Bytes) {i : Nat} (taken : i < (unit lead rest).1) :
    isContinuation (rest.getD i 0) = true := by
  unfold unit at taken
  dsimp only at taken
  have second := @isContinuation_of_secondOk lead (rest.getD 0 0)
  split at taken <;> (try split_ifs at taken) <;> rcases i with _ | _ | _ | i <;> simp_all <;> omega

variable {lead : UInt8}

theorem unit_congr {rest other : Bytes} (valid : (unit lead rest).2.isSome = true)
    (same : ∀ i < (unit lead rest).1, other.getD i 0 = rest.getD i 0) : unit lead other = unit lead rest := by
  have known : (unit lead rest).1 = charWidth lead - 1 := by
    unfold unit at *
    dsimp only at *
    split at valid <;> (try split_ifs at valid ⊢) <;> simp_all
  have agree : ∀ i, i + 1 < charWidth lead → other.getD i 0 = rest.getD i 0 := fun i inside => same i (by omega)
  unfold unit at *
  dsimp only at *
  split
  · rfl
  · rename_i two
    simp only [agree 0 (by omega)]
  · rename_i three
    simp only [agree 0 (by omega),agree 1 (by omega)]
  · rename_i four
    simp only [agree 0 (by omega),agree 1 (by omega),agree 2 (by omega)]
  · rfl

theorem unit_append {rest : Bytes} (valid : (unit lead rest).2.isSome = true) (more : Bytes) :
    unit lead (rest ++ more) = unit lead rest :=
  unit_congr valid fun _ taken => inside_of_continuation (unit_continues lead rest taken) more

theorem decodeFrom_append (valid : validFrom skip bytes = true) (more : Bytes) :
    decodeFrom skip (bytes ++ more) = decodeFrom skip bytes ++ decodeFrom 0 more := by
  induction bytes generalizing skip with
  | nil =>
    have finished : skip = 0 := by simpa [validFrom] using valid
    simp [finished,decodeFrom]
  | cons lead rest ih =>
    cases skip with
    | succ skip => exact ih valid
    | zero =>
      simp only [validFrom,Bool.and_eq_true] at valid
      simp only [cons_append,decodeFrom,unit_append valid.1,ih valid.2]

theorem fromUtf8Lossy_append (wellFormed : WellFormed bytes) (more : Bytes) :
    fromUtf8Lossy (bytes ++ more) = fromUtf8Lossy bytes ++ fromUtf8Lossy more := decodeFrom_append wellFormed more

variable {chunks : List Bytes}

theorem fromUtf8Lossy_flatten (wellFormed : ∀ chunk ∈ chunks, WellFormed chunk) :
    chunks.flatMap fromUtf8Lossy = fromUtf8Lossy chunks.flatten := by
  induction chunks with
  | nil => rfl
  | cons chunk rest ih =>
    rw [flatMap_cons,flatten_cons,fromUtf8Lossy_append (wellFormed chunk mem_cons_self),
      ih fun other later => wellFormed other (mem_cons_of_mem chunk later)]

/-! ### Cuts inside a character -/

/-- The bytes that continue no character: one for each character of a well-formed string. -/
def starts (bytes : Bytes) : Nat := bytes.countP fun byte => !isContinuation byte

theorem charWidth_continuation {byte : UInt8} (continues : isContinuation byte = true) : charWidth byte = 0 := by
  unfold isContinuation charWidth at *
  simp only [decide_eq_true_eq,UInt8.le_iff_toNat_le,UInt8.lt_iff_toNat_lt] at *
  split_ifs <;> simp at * <;> omega

theorem unit_of_continuation (continues : isContinuation lead = true) (rest : Bytes) :
    unit lead rest = (0,none) := by simp [unit,charWidth_continuation continues]

section Count
variable {skip : Nat} {bytes : Bytes}

/-- What is decoded is at least one character per start, and exactly that when it is valid. -/
theorem starts_le_decodeFrom (pending : ∀ i < skip, isContinuation (bytes.getD i 0) = true) :
    starts bytes ≤ (decodeFrom skip bytes).length := by
  induction bytes generalizing skip with
  | nil => simp [starts]
  | cons lead rest ih =>
    cases skip with
    | succ skip =>
      have continues : isContinuation lead = true := by simpa using pending 0 (Nat.succ_pos skip)
      have := ih fun i inside => by simpa using pending (i + 1) (Nat.succ_lt_succ inside)
      simpa [starts,decodeFrom,continues] using this
    | zero =>
      have := ih fun i inside => unit_continues lead rest inside
      simp only [starts,countP_cons,decodeFrom,length_cons] at this ⊢
      split <;> omega

theorem starts_eq_decodeFrom (pending : ∀ i < skip, isContinuation (bytes.getD i 0) = true)
    (valid : validFrom skip bytes = true) : (decodeFrom skip bytes).length = starts bytes := by
  induction bytes generalizing skip with
  | nil => simp [starts,decodeFrom]
  | cons lead rest ih =>
    cases skip with
    | succ skip =>
      have continues : isContinuation lead = true := by simpa using pending 0 (Nat.succ_pos skip)
      have := ih (fun i inside => by simpa using pending (i + 1) (Nat.succ_lt_succ inside)) valid
      simpa [starts,decodeFrom,continues] using this
    | zero =>
      simp only [validFrom,Bool.and_eq_true] at valid
      have begins : isContinuation lead = false := by
        by_contra continues
        simp [unit_of_continuation (Bool.not_eq_false _ ▸ continues)] at valid
      have := ih (fun i inside => unit_continues lead rest inside) valid.2
      simp only [starts,countP_cons,decodeFrom,length_cons,begins] at this ⊢
      simp [this]
end Count

/-- A string that is empty or begins with the start of a character. -/
def Opens (bytes : Bytes) : Prop := ∀ byte ∈ bytes.head?, isContinuation byte = false

theorem length_of_validFrom (valid : validFrom skip bytes = true) :
    skip ≤ bytes.length := by
  induction bytes generalizing skip with
  | nil => simpa [validFrom] using valid
  | cons lead rest ih =>
    cases skip with
    | succ skip => exact Nat.succ_le_succ (ih valid)
    | zero => exact Nat.zero_le _

theorem validFrom_cut {front back : Bytes} (opens : Opens back)
    (pending : ∀ i < skip, isContinuation ((front ++ back).getD i 0) = true)
    (valid : validFrom skip (front ++ back) = true) : validFrom skip front = true ∧ WellFormed back := by
  induction front generalizing skip with
  | nil =>
    cases skip with
    | zero => exact ⟨rfl,valid⟩
    | succ skip =>
      cases back with
      | nil => simp [validFrom] at valid
      | cons byte rest =>
        have continues := pending 0 (Nat.succ_pos skip)
        exact absurd (opens byte rfl) (by simpa using continues)
  | cons lead rest ih =>
    cases skip with
    | succ skip => exact ih (fun i inside => by simpa using pending (i + 1) (Nat.succ_lt_succ inside)) valid
    | zero =>
      simp only [cons_append,validFrom,Bool.and_eq_true] at valid ⊢
      obtain ⟨restValid,backWhole⟩ := ih (fun i inside => unit_continues lead (rest ++ back) inside) valid.2
      have same : unit lead rest = unit lead (rest ++ back) := by
        refine unit_congr valid.1 fun i taken => (getD_append rest back 0 i ?_).symm
        exact lt_of_lt_of_le taken (length_of_validFrom restValid)
      rw [same]
      exact ⟨⟨valid.1,restValid⟩,backWhole⟩

theorem wellFormed_of_opens (whole : WellFormed chunks.flatten)
    (opens : ∀ chunk ∈ chunks, Opens chunk) : ∀ chunk ∈ chunks, WellFormed chunk := by
  induction chunks with
  | nil => simp
  | cons chunk rest ih =>
    have later : ∀ other ∈ rest, Opens other := fun other member => opens other (mem_cons_of_mem chunk member)
    have restOpens : Opens rest.flatten := by
      clear whole ih opens
      induction rest with
      | nil => simp [Opens]
      | cons second rest ih =>
        cases second with
        | nil => exact ih (forall_mem_cons.mp later).2
        | cons byte bytes => exact later (byte::bytes) mem_cons_self
    obtain ⟨chunkWhole,restWhole⟩ := validFrom_cut restOpens (by simp) whole
    exact forall_mem_cons.mpr ⟨chunkWhole,ih restWhole later⟩

/-- A chunk that begins inside a character decodes to more characters than it has starts. -/
theorem opens_of_length {chunk : Bytes} (exactly : (fromUtf8Lossy chunk).length = starts chunk) : Opens chunk := by
  cases chunk with
  | nil => simp [Opens]
  | cons byte rest =>
    intro lead isHead
    cases isHead
    by_contra continues
    have continues : isContinuation byte = true := by simpa using continues
    have atLeast := @starts_le_decodeFrom 0 rest (by simp)
    simp only [fromUtf8Lossy,decodeFrom,unit_of_continuation continues,starts,countP_cons,continues] at exactly atLeast
    simp at exactly
    omega

/-- Decoded chunk by chunk, a well-formed string is read as a whole exactly when no cut is inside a character. -/
theorem fromUtf8Lossy_chunks_iff (whole : WellFormed chunks.flatten) :
    chunks.flatMap fromUtf8Lossy = fromUtf8Lossy chunks.flatten ↔ ∀ chunk ∈ chunks, WellFormed chunk := by
  refine ⟨fun same => wellFormed_of_opens whole ?_,fromUtf8Lossy_flatten⟩
  have total : (chunks.map fun chunk => (fromUtf8Lossy chunk).length).sum = (chunks.map starts).sum := by
    have counted := starts_eq_decodeFrom (by simp) whole
    rw [← fromUtf8Lossy,← same,length_flatMap] at counted
    rw [counted,starts,countP_flatten]
    rfl
  have bounded : ∀ chunk ∈ chunks, starts chunk ≤ (fromUtf8Lossy chunk).length :=
    fun chunk _ => starts_le_decodeFrom (by simp)
  intro chunk member
  refine opens_of_length (le_antisymm ?_ (bounded chunk member))
  by_contra more
  exact absurd total (ne_of_gt (sum_lt_sum starts _ bounded ⟨chunk,member,not_le.mp more⟩))

end Hypic.Utf8
