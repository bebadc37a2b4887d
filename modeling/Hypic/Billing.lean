import Hypic.Dict
import Hypic.Runs
import Mathlib.Algebra.Order.BigOperators.Group.List
import Mathlib.Logic.Function.Basic

/-! Billing a combine request. Every sub-request records whether its worker recomputed the segment, by three different routes, and the
    combine request counts the segments of which no recomputation was recorded as cached. -/

namespace Hypic.Billing
open Runs List Function
universe u

/-- Workers are told apart by their ports. -/
abbrev Port := Nat

/-- A scatter sub-request. Its `seg_index` is its place in the list; `tokens` is the length of the segment. -/
structure Sub (Hash : Type u) where
  room : Nat
  segHash : Hash
  tokens : Nat
  worker : Port

/-- Where a sub-request is, or the flag it has left: in `_pic_push_recomputed` of its worker, in a notification, or with the combine. -/
inductive Phase where
  | sent
  | waiting
  | hitRetire
  | pushed (recomputed : Bool)
  | notified (recomputed : Bool)
  | recorded
deriving DecidableEq

abbrev Key := Nat × Nat

/-- The workers' caches, the sub-requests and `_pic_scatter_seg_recomputed` of the combine worker. -/
structure System (Hash : Type u) where
  cached : Port → Hash → Bool
  phases : Nat → Phase
  flags : Dict Key Bool
  reported : Option Nat

/-- `pic_combine_cached_tokens`: the total and the flags left. A missing flag is a miss. -/
def picCombineCachedTokens (flags : Dict Key Bool) : List (Key × Nat) → Nat × Dict Key Bool
  | [] => (0,flags)
  | (key,tokens)::rest =>
    let recomputed := (flags.get? key).getD true
    let (total,left) := picCombineCachedTokens (flags.erase key) rest
    ((if recomputed then 0 else tokens) + total,left)

/-- A sub-request goes on, a cache evicts, or the combine request completes. -/
inductive Action (Hash : Type u) where
  | proceed (i : Nat)
  | evict (worker : Port) (segHash : Hash)
  | complete

variable {Hash : Type u} [DecidableEq Hash]

namespace System

def cache (worker : Port) (segHash : Hash) (present : Bool) (system : System Hash) : System Hash :=
  { system with cached := update system.cached worker (update (system.cached worker) segHash present) }

def move (i : Nat) (phase : Phase) (system : System Hash) : System Hash :=
  { system with phases := update system.phases i phase }

def record (i room : Nat) (recomputed : Bool) (system : System Hash) : System Hash :=
  { system with phases := update system.phases i .recorded, flags := system.flags.set (room,i) recomputed }

/-- What `pic_scatter_retire` does with the flag. -/
def picScatterRetire (combine : Port) (sub : Sub Hash) (i : Nat) (recomputed : Bool) (system : System Hash) :
    System Hash :=
  if sub.worker = combine then system.record i sub.room recomputed else system.move i (.pushed recomputed)

end System

/-- The table of a combine request, with the segments counted from `k`. -/
def combineItems (k : Nat) (subs : List (Sub Hash)) : List (Key × Nat) :=
  (subs.zipIdx k).map fun item => ((item.1.room,item.2),item.1.tokens)

/-- The next step of a sub-request: it reaches its worker, is computed and cached, retires, has its segment and its flag written to the
    combine worker, or is injected there. -/
def proceed (combine : Port) (sub : Sub Hash) (i : Nat) (system : System Hash) : Phase → Option (System Hash)
  | .sent => some (system.move i (if system.cached sub.worker sub.segHash then .hitRetire else .waiting))
  | .waiting => some ((system.cache sub.worker sub.segHash true).picScatterRetire combine sub i true)
  | .hitRetire => some (system.picScatterRetire combine sub i false)
  | .pushed recomputed => some (system.move i (.notified recomputed))
  | .notified recomputed => some ((system.cache combine sub.segHash true).record i sub.room recomputed)
  | .recorded => none

/-- The combine request is gated on its segments; they are held until it completes. -/
def step (combine : Port) (subs : List (Sub Hash)) (system : System Hash) : Action Hash → Option (System Hash)
  | .proceed i => subs[i]?.bind fun sub => proceed combine sub i system (system.phases i)
  | .evict worker segHash => some (system.cache worker segHash false)
  | .complete =>
    if (∀ sub ∈ subs, system.cached combine sub.segHash) ∧ system.reported = none then
      let (total,left) := picCombineCachedTokens system.flags (combineItems 0 subs)
      some { system with flags := left, reported := some total }
    else none

def start (cached : Port → Hash → Bool) : System Hash := ⟨cached,fun _ => .sent,.empty,none⟩

/-- The combine request completes only after the flags of all its sub-requests have reached it. -/
def Settled (subs : List (Sub Hash)) (system : System Hash) : Action Hash → Prop
  | .complete => ∀ i < subs.length, system.phases i = .recorded
  | _ => True

instance (subs : List (Sub Hash)) (system : System Hash) (action : Action Hash) :
    Decidable (Settled subs system action) := by
  unfold Settled
  split <;> infer_instance

/-- The tokens of the segments that were cached before. -/
def before (cached : Port → Hash → Bool) (subs : List (Sub Hash)) : Nat :=
  ((subs.filter fun sub => cached sub.worker sub.segHash).map Sub.tokens).sum

/-- What is known of a sub-request whose segment is cached `now` and was cached before, and of which the combine has `flag`. -/
def Told (now was : Bool) (flag : Option Bool) : Phase → Prop
  | .sent => flag = none ∧ (now → was)
  | .waiting => flag = none
  | .hitRetire => flag = none ∧ was
  | .pushed recomputed => flag = none ∧ (recomputed = false → was)
  | .notified recomputed => flag = none ∧ (recomputed = false → was)
  | .recorded => flag = some false → was

structure Sound (cached : Port → Hash → Bool) (subs : List (Sub Hash)) (system : System Hash) : Prop where
  told : ∀ i sub, subs[i]? = some sub →
    Told (system.cached sub.worker sub.segHash) (cached sub.worker sub.segHash) (system.flags.get? (sub.room,i)) (system.phases i)
  billed : ∀ total, system.reported = some total → total ≤ before cached subs ∧
    ∀ i sub, subs[i]? = some sub → system.phases i = .recorded ∧ system.flags.get? (sub.room,i) = none

section Told
variable {now later was : Bool} {flag : Option Bool} {phase : Phase} (told : Told now was flag phase)
include told

theorem Told.fresh (unsaid : phase ≠ .recorded) : flag = none := by
  cases phase <;> simp_all [Told]

theorem Told.flagged (said : flag = some false) : was := by
  cases phase <;> simp_all [Told]

theorem Told.caches (fewer : phase = .sent → later → now) : Told later was flag phase := by
  cases phase with
  | sent => exact ⟨told.1,fun present => told.2 (fewer rfl present)⟩
  | _ => exact told

end Told

theorem cachedTokens_le {cached : Port → Hash → Bool} (subs : List (Sub Hash)) (flags : Dict Key Bool) (k : Nat)
    (told : ∀ i sub, subs[i]? = some sub → flags.get? (sub.room,k + i) = some false → cached sub.worker sub.segHash) :
    (picCombineCachedTokens flags (combineItems k subs)).1 ≤ before cached subs := by
  induction subs generalizing flags k with
  | nil => exact Nat.le_refl _
  | cons sub rest ih =>
    have later := ih (flags.erase (sub.room,k)) (k + 1) fun i other found flag => told (i + 1) other found (by grind [Dict.get?_erase])
    have here := told 0 sub rfl
    have grows : before cached rest ≤ before cached (sub::rest) := by
      simp only [before,filter_cons]
      split <;> simp
    simp only [combineItems,zipIdx_cons,map_cons,picCombineCachedTokens] at later ⊢
    rcases flag : flags.get? (sub.room,k) with _|_|_
    · simpa using later.trans grows
    · simpa [before,here flag] using later
    · simpa using later.trans grows

theorem cachedTokens_left (items : List (Key × Nat)) (flags : Dict Key Bool) (key : Key)
    (gone : key ∈ items.map Prod.fst ∨ flags.get? key = none) : (picCombineCachedTokens flags items).2.get? key = none := by
  induction items generalizing flags with
  | nil => exact gone.resolve_left not_mem_nil
  | cons item rest ih =>
    refine ih (flags.erase item.1) ?_
    rw [Dict.get?_erase]
    grind

section Steps
variable {combine : Port} {subs : List (Sub Hash)} {cached : Port → Hash → Bool} {system : System Hash} {i : Nat}
  {sub : Sub Hash}

section Sound

variable (sound : Sound cached subs system)

include sound

theorem Sound.advance (found : subs[i]? = some sub) (unsaid : system.phases i ≠ .recorded)
    {phase : Phase} {flags : Dict Key Bool} (kept : ∀ key, key ≠ (sub.room,i) → flags.get? key = system.flags.get? key)
    (told : Told (system.cached sub.worker sub.segHash) (cached sub.worker sub.segHash) (flags.get? (sub.room,i)) phase) :
    Sound cached subs { system with phases := update system.phases i phase, flags } := by
  refine ⟨fun j other known => ?_,fun total billed => absurd ((sound.billed total billed).2 i sub found).1 unsaid⟩
  by_cases same : j = i
  · subst same
    obtain rfl := Option.some.inj (found.symm.trans known)
    simpa using told
  · simpa [update_of_ne same,kept (other.room,j) fun equal => same (congrArg Prod.snd equal)] using sound.told j other known

theorem Sound.move (found : subs[i]? = some sub) (unsaid : system.phases i ≠ .recorded) {phase : Phase}
    (told : Told (system.cached sub.worker sub.segHash) (cached sub.worker sub.segHash) none phase) : Sound cached subs (system.move i phase) :=
  sound.advance found unsaid (fun _ _ => rfl) (((sound.told i sub found).fresh unsaid).symm ▸ told)

theorem Sound.record (found : subs[i]? = some sub) (unsaid : system.phases i ≠ .recorded)
    {recomputed : Bool} (hit : recomputed = false → cached sub.worker sub.segHash) :
    Sound cached subs (system.record i sub.room recomputed) :=
  sound.advance found unsaid (fun _ other => Dict.get?_set_other _ _ other) (by simpa [Told] using hit)

theorem Sound.retire (found : subs[i]? = some sub) (unsaid : system.phases i ≠ .recorded)
    {recomputed : Bool} (hit : recomputed = false → cached sub.worker sub.segHash) :
    Sound cached subs (system.picScatterRetire combine sub i recomputed) := by
  unfold System.picScatterRetire
  split
  · exact sound.record found unsaid hit
  · exact sound.move found unsaid ⟨rfl,hit⟩

/-- A segment enters or leaves a cache. No sub-request that has not arrived yet asks for a segment that enters. -/
theorem Sound.cache (worker : Port) (segHash : Hash) (present : Bool)
    (apart : ∀ j other, subs[j]? = some other → system.phases j = .sent → other.segHash = segHash → present = false) :
    Sound cached subs (system.cache worker segHash present) := by
  refine ⟨fun j other known => (sound.told j other known).caches fun sent now => ?_,sound.billed⟩
  have gone := apart j other known sent
  simp only [System.cache,update_apply] at now
  grind

theorem sound_complete (settled : ∀ i < subs.length, system.phases i = .recorded) :
    Sound cached subs { system with
      flags := (picCombineCachedTokens system.flags (combineItems 0 subs)).2
      reported := some (picCombineCachedTokens system.flags (combineItems 0 subs)).1 } := by
  have left (j : Nat) (other : Sub Hash) (known : subs[j]? = some other) :
      (picCombineCachedTokens system.flags (combineItems 0 subs)).2.get? (other.room,j) = none := by
    refine cachedTokens_left _ _ _ (.inl ?_)
    exact mem_map.mpr ⟨_,mem_map.mpr ⟨(other,j),mk_mem_zipIdx_iff_getElem?.mpr known,rfl⟩,rfl⟩
  have told (j : Nat) (other : Sub Hash) (known : subs[j]? = some other) := settled j (List.getElem?_eq_some_iff.mp known).1
  refine ⟨fun j other known => ?_,fun total billed => ?_⟩
  · simp [told j other known,left j other known,Told]
  · obtain rfl := Option.some.inj billed
    refine ⟨?_,fun j other known => ⟨told j other known,left j other known⟩⟩
    exact cachedTokens_le subs system.flags 0 fun j other known flag => (sound.told j other known).flagged (by simpa using flag)

end Sound

theorem step_sound (distinct : (subs.map Sub.segHash).Nodup) (system : System Hash) (action : Action Hash)
    (next : System Hash) (sound : Sound cached subs system) (settled : Settled subs system action)
    (stepped : step combine subs system action = some next) : Sound cached subs next := by
  have apart {i : Nat} {sub : Sub Hash} (found : subs[i]? = some sub) (started : system.phases i ≠ .sent) (j : Nat)
      (other : Sub Hash) (known : subs[j]? = some other) (sent : system.phases j = .sent) (same : other.segHash = sub.segHash) :
      true = false := by
    have equal : (subs.map Sub.segHash)[i]? = (subs.map Sub.segHash)[j]? := by simp [found,known,same]
    have inside : i < (subs.map Sub.segHash).length := by simpa using (List.getElem?_eq_some_iff.mp found).1
    exact absurd sent ((List.getElem?_inj inside distinct).mp equal ▸ started)
  cases action with
  | proceed i =>
    obtain ⟨sub,found,stepped⟩ := Option.bind_eq_some_iff.mp stepped
    have told := sound.told i sub found
    cases phase : system.phases i with
    | sent =>
      rw [phase] at stepped told
      cases stepped
      refine sound.move found (by simp [phase]) ?_
      split
      · exact ⟨rfl,told.2 ‹_›⟩
      · rfl
    | waiting =>
      rw [phase] at stepped
      cases stepped
      exact (sound.cache sub.worker sub.segHash true (apart found (by simp [phase]))).retire found (by simp [System.cache,phase]) nofun
    | hitRetire =>
      rw [phase] at stepped told
      cases stepped
      exact sound.retire found (by simp [phase]) fun _ => told.2
    | pushed recomputed =>
      rw [phase] at stepped told
      cases stepped
      exact sound.move found (by simp [phase]) ⟨rfl,told.2⟩
    | notified recomputed =>
      rw [phase] at stepped told
      cases stepped
      exact (sound.cache combine sub.segHash true (apart found (by simp [phase]))).record found (by simp [System.cache,phase]) told.2
    | recorded =>
      rw [phase] at stepped
      cases stepped
  | evict worker segHash =>
    cases stepped
    exact sound.cache worker segHash false fun _ _ _ _ _ => rfl
  | complete =>
    obtain ⟨-,same⟩ := Option.ite_none_right_eq_some.mp stepped
    cases same
    exact sound_complete sound settled

end Steps

def pairSubs : List (Sub Nat) := [⟨7,10,3,1⟩,⟨8,11,4,2⟩]

/-- One segment was cached at worker 2, the other is computed by the combine worker itself. -/
def pairActions : List (Action Nat) := [.proceed 0,.proceed 1,.proceed 0,.proceed 1,.proceed 1,.proceed 1,.complete]

end Hypic.Billing
