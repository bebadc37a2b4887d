import Mathlib.Algebra.BigOperators.Group.List.Basic
import Mathlib.Data.List.Nodup
import Mathlib.Tactic.Abel

/-! Insertion-ordered dictionaries over arbitrary key and value types, with the sum of a
    measure over the items: writing or deleting one key changes exactly that key's term. -/

namespace Hypic
open List
export Option (map_eq_some_iff map_some bind_some isSome_iff_exists bind_eq_some_iff getD_some getD_none isSome_some isSome_none isSome_map not_isSome_iff_eq_none ite_none_right_eq_some)
export Function (comp_def comp_apply update_of_ne)
export Bool (false_eq_true)
universe u v w

/-- A dictionary as Python keeps it: the items in insertion order, each key once. -/
@[ext] structure Dict (κ : Type u) (ν : Type v) where
  items : List (κ × ν)
  distinct : (items.map Prod.fst).Nodup

namespace Dict
open List
variable {κ : Type u} {ν : Type v}

def empty : Dict κ ν := ⟨[],List.nodup_nil⟩
def keys (d : Dict κ ν) : List κ := d.items.map Prod.fst
def values (d : Dict κ ν) : List ν := d.items.map Prod.snd

@[simp] theorem items_empty : (empty : Dict κ ν).items = [] := rfl
@[simp] theorem values_empty : (empty : Dict κ ν).values = [] := rfl

section Items
variable [DecidableEq κ]

def getItem (key : κ) : List (κ × ν) → Option ν
  | [] => none
  | (held,value)::rest => if held = key then some value else getItem key rest

/-- Overwriting keeps the key's place; a new key goes to the end. -/
def setItem (key : κ) (value : ν) : List (κ × ν) → List (κ × ν)
  | [] => [(key,value)]
  | (held,old)::rest => if held = key then (key,value)::rest else (held,old)::setItem key value rest

def delItem (key : κ) : List (κ × ν) → List (κ × ν)
  | [] => []
  | (held,value)::rest => if held = key then rest else (held,value)::delItem key rest

private theorem mem_keys_setItem (key : κ) (value : ν) (items : List (κ × ν)) (sought : κ) :
    sought ∈ (setItem key value items).map Prod.fst ↔ sought = key ∨ sought ∈ items.map Prod.fst := by
  induction items with
  | nil => simp [setItem]
  | cons item rest ih =>
    obtain ⟨held,old⟩ := item
    by_cases same : held = key
    · simp [setItem,same]
    · simp only [setItem,same,if_false,map_cons,mem_cons,ih]
      tauto

private theorem setItem_absent (key : κ) (value : ν) (items : List (κ × ν)) (absent : key ∉ items.map Prod.fst) :
    setItem key value items = items ++ [(key,value)] := by
  induction items with
  | nil => rfl
  | cons item rest ih =>
    rw [map_cons,mem_cons,not_or] at absent
    simp [setItem,Ne.symm absent.1,ih absent.2]

private theorem nodup_setItem (key : κ) (value : ν) (items : List (κ × ν))
    (distinct : (items.map Prod.fst).Nodup) : ((setItem key value items).map Prod.fst).Nodup := by
  induction items with
  | nil => simp [setItem]
  | cons item rest ih =>
    obtain ⟨held,old⟩ := item
    have split := nodup_cons.mp distinct
    by_cases same : held = key
    · simpa [setItem,same] using distinct
    · simp only [setItem,same,if_false,map_cons,nodup_cons]
      refine ⟨fun member => ?_,ih split.2⟩
      rcases (mem_keys_setItem ..).mp member with equal | inside
      · exact same equal
      · exact split.1 inside

private theorem delItem_sublist (key : κ) (items : List (κ × ν)) :
    (delItem key items).Sublist items := by
  induction items with
  | nil => exact List.Sublist.refl _
  | cons item rest ih =>
    obtain ⟨held,value⟩ := item
    by_cases same : held = key
    · simp [delItem,same]
    · simpa [delItem,same] using ih

private theorem getItem_eq_some (key : κ) (value : ν) (items : List (κ × ν))
    (distinct : (items.map Prod.fst).Nodup) :
    getItem key items = some value ↔ (key,value) ∈ items := by
  induction items with
  | nil => simp [getItem]
  | cons item rest ih =>
    obtain ⟨held,old⟩ := item
    have split := nodup_cons.mp distinct
    by_cases same : held = key
    · subst same
      have absent : (held,value) ∉ rest := fun member =>
        split.1 (mem_map.mpr ⟨_,member,rfl⟩)
      simp [getItem,absent,eq_comm]
    · simp [getItem,same,ih split.2,Ne.symm same]

private theorem getItem_setItem (key sought : κ) (value : ν) (items : List (κ × ν)) :
    getItem sought (setItem key value items) = if sought = key then some value else getItem sought items := by
  induction items with
  | nil => simp [setItem,getItem,eq_comm]
  | cons item rest ih =>
    obtain ⟨held,old⟩ := item
    by_cases same : held = key
    · subst same
      by_cases here : sought = held
      · simp [setItem,getItem,here]
      · simp [setItem,getItem,here,Ne.symm here]
    · by_cases here : held = sought
      · subst here; simp [setItem,getItem,same]
      · simp [setItem,getItem,same,here,ih]

private theorem getItem_delItem (key sought : κ) (items : List (κ × ν))
    (distinct : (items.map Prod.fst).Nodup) :
    getItem sought (delItem key items) = if sought = key then none else getItem sought items := by
  induction items with
  | nil => simp [delItem,getItem]
  | cons item rest ih =>
    obtain ⟨held,old⟩ := item
    have split := nodup_cons.mp distinct
    by_cases same : held = key
    · subst same
      by_cases here : sought = held
      · subst here
        have absent : getItem sought rest = none := by
          by_contra found
          obtain ⟨value,found⟩ := Option.ne_none_iff_exists'.mp found
          exact split.1 (mem_map.mpr ⟨_,(getItem_eq_some sought value rest split.2).mp found,rfl⟩)
        simp [delItem,absent]
      · simp [delItem,getItem,here,Ne.symm here]
    · by_cases here : held = sought
      · subst here; simp [delItem,getItem,same]
      · simp [delItem,getItem,same,here,ih split.2]

def get? (d : Dict κ ν) (key : κ) : Option ν := getItem key d.items
def set (d : Dict κ ν) (key : κ) (value : ν) : Dict κ ν :=
  ⟨setItem key value d.items,nodup_setItem key value d.items d.distinct⟩
def erase (d : Dict κ ν) (key : κ) : Dict κ ν :=
  ⟨delItem key d.items,d.distinct.sublist ((delItem_sublist key d.items).map _)⟩
def contains (d : Dict κ ν) (key : κ) : Bool := (d.get? key).isSome

theorem get?_eq_some (d : Dict κ ν) (key : κ) (value : ν) :
    d.get? key = some value ↔ (key,value) ∈ d.items := getItem_eq_some key value d.items d.distinct
@[simp] theorem get?_empty (key : κ) : (empty : Dict κ ν).get? key = none := rfl
theorem get?_set (d : Dict κ ν) (key sought : κ) (value : ν) :
    (d.set key value).get? sought = if sought = key then some value else d.get? sought :=
  getItem_setItem key sought value d.items
theorem get?_erase (d : Dict κ ν) (key sought : κ) :
    (d.erase key).get? sought = if sought = key then none else d.get? sought :=
  getItem_delItem key sought d.items d.distinct
@[simp] theorem get?_set_same (d : Dict κ ν) (key : κ) (value : ν) : (d.set key value).get? key = some value := by
  simp [get?_set]
theorem get?_set_other (d : Dict κ ν) {key sought : κ} (value : ν) (other : sought ≠ key) :
    (d.set key value).get? sought = d.get? sought := by simp [get?_set,other]
@[simp] theorem get?_erase_same (d : Dict κ ν) (key : κ) : (d.erase key).get? key = none := by simp [get?_erase]

theorem mem_values (d : Dict κ ν) (value : ν) : value ∈ d.values ↔ ∃ key, d.get? key = some value := by
  simp [values,get?_eq_some]
theorem mem_keys (d : Dict κ ν) (key : κ) : key ∈ d.keys ↔ ∃ value, d.get? key = some value := by
  simp [keys,get?_eq_some]
variable {d : Dict κ ν} {key : κ}

theorem mem_values_of_get? {value : ν} (found : d.get? key = some value) :
    value ∈ d.values := (d.mem_values value).mpr ⟨key,found⟩
theorem get?_eq_none (d : Dict κ ν) (key : κ) : d.get? key = none ↔ key ∉ d.keys := by
  rw [mem_keys]
  cases d.get? key <;> simp
theorem eq_empty (absent : ∀ key, d.get? key = none) : d = empty := by
  refine Dict.ext (eq_nil_iff_forall_not_mem.mpr fun item member => ?_)
  have found := (d.get?_eq_some item.1 item.2).mpr member
  rw [absent] at found
  cases found

theorem mem_values_set {value member : ν} (inside : member ∈ (d.set key value).values) :
    member = value ∨ member ∈ d.values := by
  obtain ⟨sought,found⟩ := (mem_values ..).mp inside
  rw [get?_set] at found
  split at found
  · exact .inl (Option.some.inj found).symm
  · exact .inr (mem_values_of_get? found)

omit [DecidableEq κ] in
private theorem filterMap_keys_sublist {μ : Type w} (f : ν → Option μ) (items : List (κ × ν)) :
    ((items.filterMap fun item => (f item.2).map fun image => (item.1,image)).map Prod.fst).Sublist (items.map Prod.fst) := by
  induction items with
  | nil => exact List.Sublist.refl _
  | cons item rest ih =>
    rw [filterMap_cons]
    cases f item.2 with
    | none => exact ih.cons _
    | some image => exact ih.cons_cons _

/-- The dictionary comprehension over the values that have an image. -/
def filterMap {μ : Type w} (f : ν → Option μ) (d : Dict κ ν) : Dict κ μ :=
  ⟨d.items.filterMap fun item => (f item.2).map fun image => (item.1,image),
    d.distinct.sublist (filterMap_keys_sublist f d.items)⟩

theorem get?_filterMap {μ : Type w} (f : ν → Option μ) (d : Dict κ ν) (key : κ) :
    (d.filterMap f).get? key = (d.get? key).bind f := by
  refine Option.ext fun image => ?_
  rw [get?_eq_some,bind_eq_some_iff]
  simp only [filterMap,mem_filterMap,map_eq_some_iff,Prod.mk.injEq,get?_eq_some]
  constructor
  · rintro ⟨⟨held,value⟩,member,_,chosen,rfl,rfl⟩
    exact ⟨value,member,chosen⟩
  · rintro ⟨value,member,chosen⟩
    exact ⟨(key,value),member,image,chosen,rfl,rfl⟩

omit [DecidableEq κ] in
theorem values_filterMap {μ : Type w} (f : ν → Option μ) (d : Dict κ ν) : (d.filterMap f).values = d.values.filterMap f := by
  simp only [values,filterMap,map_filterMap,filterMap_map]
  refine filterMap_congr fun item _ => ?_
  simp [Option.map_map,comp_def]

/-- Different keys are looked up to different values when no value occurs twice. -/
theorem lookup_nodup (once : d.values.Nodup) {keys : List κ} (distinct : keys.Nodup) :
    (keys.filterMap d.get?).Nodup := by
  refine distinct.filterMap fun left right value here there => ?_
  have member := (d.get?_eq_some left value).mp here
  have other := (d.get?_eq_some right value).mp there
  exact congrArg Prod.fst (inj_on_of_nodup_map once member other rfl)

/-- Writes in order, as a loop of item assignments does. -/
def setAll (d : Dict κ ν) (items : List (κ × ν)) : Dict κ ν := items.foldl (fun d item => d.set item.1 item.2) d

@[simp] theorem setAll_nil (d : Dict κ ν) : d.setAll [] = d := rfl
@[simp] theorem setAll_cons (d : Dict κ ν) (item : κ × ν) (rest : List (κ × ν)) :
    d.setAll (item::rest) = (d.set item.1 item.2).setAll rest := rfl
theorem setAll_append (d : Dict κ ν) (left right : List (κ × ν)) : d.setAll (left ++ right) = (d.setAll left).setAll right :=
  foldl_append ..
theorem get?_setAll_other (items : List (κ × ν)) (d : Dict κ ν) (other : key ∉ items.map Prod.fst) :
    (d.setAll items).get? key = d.get? key := by
  induction items generalizing d with
  | nil => rfl
  | cons item rest ih =>
    rw [map_cons,mem_cons,not_or] at other
    rw [setAll_cons,ih _ other.2,get?_set_other _ _ other.1]
theorem get?_setAll_mem (items : List (κ × ν)) (d : Dict κ ν) (distinct : (items.map Prod.fst).Nodup)
    {value : ν} (member : (key,value) ∈ items) : (d.setAll items).get? key = some value := by
  induction items generalizing d with
  | nil => simp at member
  | cons item rest ih =>
    obtain ⟨absent,tail⟩ := nodup_cons.mp distinct
    rcases mem_cons.mp member with rfl | member
    · rw [setAll_cons,get?_setAll_other rest _ absent,get?_set_same]
    · exact ih (d.set item.1 item.2) tail member
theorem items_setAll (items : List (κ × ν)) (d : Dict κ ν) (distinct : (d.items ++ items |>.map Prod.fst).Nodup) :
    (d.setAll items).items = d.items ++ items := by
  induction items generalizing d with
  | nil => simp
  | cons item rest ih =>
    have absent : item.1 ∉ d.items.map Prod.fst := by
      rw [map_append,nodup_append'] at distinct
      exact fun held => distinct.2.2 held mem_cons_self
    have stored : (d.set item.1 item.2).items = d.items ++ [item] := setItem_absent item.1 item.2 d.items absent
    rw [setAll_cons,ih _ (by rw [stored,append_assoc]; exact distinct),stored,append_assoc]
    rfl

/-- A looped write leaves at each key one of the values written there, or the old one. -/
theorem get?_setAll_some (items : List (κ × ν)) (d : Dict κ ν) {value : ν}
    (found : (d.setAll items).get? key = some value) : (key,value) ∈ items ∨ d.get? key = some value := by
  induction items generalizing d with
  | nil => exact .inr found
  | cons item rest ih =>
    rcases ih _ found with member | kept
    · exact .inl (mem_cons_of_mem _ member)
    · rw [get?_set] at kept
      split at kept
      · rename_i same
        obtain ⟨held,old⟩ := item
        simp only [Option.some.injEq] at kept same
        subst kept; subst same
        exact .inl mem_cons_self
      · exact .inr kept
theorem get?_setAll_isSome (items : List (κ × ν)) (d : Dict κ ν)
    (written : key ∈ items.map Prod.fst ∨ (d.get? key).isSome) : ((d.setAll items).get? key).isSome := by
  induction items generalizing d with
  | nil => simpa using written
  | cons item rest ih =>
    refine ih (d.set item.1 item.2) ?_
    rw [get?_set]
    by_cases here : key = item.1
    · exact .inr (by simp [here])
    · simpa [here] using written
end Items

section Total
variable {M : Type w} [AddCommMonoid M]

/-- The sum of a measure over the items. -/
def total (measure : κ × ν → M) (d : Dict κ ν) : M := (d.items.map measure).sum

@[simp] theorem total_empty (measure : κ × ν → M) : (empty : Dict κ ν).total measure = 0 := rfl

theorem total_add (left right : κ × ν → M) (d : Dict κ ν) :
    d.total (fun item => left item + right item) = d.total left + d.total right := sum_map_add
theorem total_filter (measure : κ × ν → M) (keep : κ × ν → Bool) (d : Dict κ ν) :
    d.total (fun item => if keep item then measure item else 0) = ((d.items.filter keep).map measure).sum := by
  unfold total
  induction d.items with
  | nil => rfl
  | cons item rest ih =>
    cases kept : keep item with
    | true => simp [kept,ih]
    | false => simp [kept,ih]

variable [DecidableEq κ]

theorem total_congr (left right : κ × ν → M) (d : Dict κ ν)
    (same : ∀ key value, d.get? key = some value → left (key,value) = right (key,value)) :
    d.total left = d.total right := by
  unfold total
  refine congrArg List.sum (map_congr_left fun item member => ?_)
  exact same item.1 item.2 ((get?_eq_some ..).mpr member)

private theorem sum_setItem (measure : κ × ν → M) (key : κ) (value : ν) (items : List (κ × ν)) :
    ((setItem key value items).map measure).sum = measure (key,value) + ((delItem key items).map measure).sum := by
  induction items with
  | nil => simp [setItem,delItem]
  | cons item rest ih =>
    obtain ⟨held,old⟩ := item
    by_cases same : held = key
    · simp [setItem,delItem,same]
    · simp only [setItem,delItem,same,if_false,map_cons,sum_cons,ih]
      exact add_left_comm ..

private theorem sum_getItem (measure : κ × ν → M) (key : κ) (value : ν) (items : List (κ × ν))
    (found : getItem key items = some value) :
    (items.map measure).sum = measure (key,value) + ((delItem key items).map measure).sum := by
  induction items with
  | nil => simp [getItem] at found
  | cons item rest ih =>
    obtain ⟨held,old⟩ := item
    by_cases same : held = key
    · simp only [getItem,same,if_true,Option.some.injEq] at found
      simp [delItem,same,found]
    · simp only [getItem,same,if_false] at found
      simp only [delItem,same,if_false,map_cons,sum_cons,ih found]
      exact add_left_comm ..

/-- A written key contributes its new value; every other item is unchanged. -/
theorem total_set (measure : κ × ν → M) (d : Dict κ ν) (key : κ) (value : ν) :
    (d.set key value).total measure = measure (key,value) + (d.erase key).total measure :=
  sum_setItem measure key value d.items

variable {d : Dict κ ν}

theorem total_of_get? (measure : κ × ν → M) {key : κ} {value : ν} (found : d.get? key = some value) :
    d.total measure = measure (key,value) + (d.erase key).total measure :=
  sum_getItem measure key value d.items found

private theorem delItem_absent (key : κ) (items : List (κ × ν)) (absent : getItem key items = none) :
    delItem key items = items := by
  induction items with
  | nil => rfl
  | cons item rest ih =>
    obtain ⟨held,value⟩ := item
    by_cases same : held = key
    · simp [getItem,same] at absent
    · simp only [getItem,same,if_false] at absent
      simp [delItem,same,ih absent]

theorem total_single (measure : ν → M) (key : κ) (d : Dict κ ν) :
    d.total (fun item => if item.1 = key then measure item.2 else 0) = ((d.get? key).map measure).getD 0 := by
  cases found : d.get? key with
  | none =>
    rw [total_congr _ (fun _ => 0) d]
    · simp [total]
    · intro other value present
      have differs : other ≠ key := fun same => by simp [← same,present] at found
      simp [differs]
  | some value =>
    rw [total_of_get? _ found,total_congr _ (fun _ => 0) (d.erase key)]
    · simp [total]
    · intro other old present
      rw [get?_erase] at present
      split at present
      · cases present
      · rename_i differs; simp [differs]

theorem erase_absent {key : κ} (absent : d.get? key = none) : d.erase key = d :=
  Dict.ext (delItem_absent key d.items absent)
theorem total_set_absent (measure : κ × ν → M) {key : κ} (value : ν) (absent : d.get? key = none) :
    (d.set key value).total measure = measure (key,value) + d.total measure := by
  rw [total_set,erase_absent absent]

/-- Rewriting several present keys at once moves the sum by the difference of their terms. -/
theorem total_setAll (measure : κ × ν → M) (keys : List κ) (before after : List ν) (d : Dict κ ν)
    (distinct : keys.Nodup) (found : Forall₂ (fun key value => d.get? key = some value) keys before)
    (same : after.length = keys.length) :
    (d.setAll (keys.zip after)).total measure + ((keys.zip before).map measure).sum
      = d.total measure + ((keys.zip after).map measure).sum := by
  induction keys generalizing d before after with
  | nil => cases found; simp
  | cons key keys ih =>
    obtain ⟨absent,tail⟩ := nodup_cons.mp distinct
    obtain _ | ⟨new,after⟩ := after
    · simp at same
    obtain _ | ⟨value,before⟩ := before
    · cases found
    obtain ⟨here,rest⟩ := forall₂_cons.mp found
    have kept : Forall₂ (fun other value => (d.set key new).get? other = some value) keys before := by
      refine Forall₂.imp ?_ ((forall₂_and_left _ _).mpr ⟨fun _ => id,rest⟩)
      rintro other value ⟨member,found⟩
      rwa [get?_set_other _ _ (fun equal : other = key => absent (equal ▸ member))]
    have step := ih before after (d.set key new) tail kept (by simpa using same)
    rw [total_set] at step
    simp only [zip_cons_cons,setAll_cons,map_cons,sum_cons]
    rw [total_of_get? measure here,add_left_comm,step]
    abel

/-- The sum over the items, by looking up a list of keys that covers them. -/
theorem total_lookup (measure : ν → M) {keys : List κ} (distinct : keys.Nodup) (d : Dict κ ν)
    (cover : ∀ key value, d.get? key = some value → key ∈ keys) :
    d.total (fun item => measure item.2) = (keys.map fun key => ((d.get? key).map measure).getD 0).sum := by
  induction keys generalizing d with
  | nil =>
    have none : d.items = [] := by
      refine eq_nil_iff_forall_not_mem.mpr fun item member => ?_
      cases cover item.1 item.2 ((d.get?_eq_some ..).mpr member)
    simp [total,none]
  | cons key keys ih =>
    obtain ⟨absent,tail⟩ := nodup_cons.mp distinct
    have others : keys.map (fun other => ((d.get? other).map measure).getD 0) =
        keys.map fun other => (((d.erase key).get? other).map measure).getD 0 := by
      refine map_congr_left fun other member => ?_
      rw [get?_erase,if_neg fun same : other = key => absent (same ▸ member)]
    have rest : ∀ other value, (d.erase key).get? other = some value → other ∈ keys := by
      intro other value found
      rw [get?_erase] at found
      split at found
      · cases found
      · rename_i different
        exact (mem_cons.mp (cover other value found)).resolve_left different
    rw [map_cons,sum_cons,others,← ih tail (d.erase key) rest]
    cases here : d.get? key with
    | none => rw [erase_absent here]; simp
    | some value => exact total_of_get? (fun item : κ × ν => measure item.2) here
end Total

end Dict
end Hypic
