import Mathlib.Algebra.BigOperators.Group.Multiset.Basic
import Mathlib.Data.Multiset.AddSub
import Mathlib.Tactic.Abel

/-! Ordered forests with labelled nodes: the way from a root to a node, changing nodes in place, and removing a leaf.
    Every node is listed together with the forest of its children, so that a statement about each node can
    speak of what lies below it. -/

namespace Hypic
open List
set_option linter.unusedSectionVars false
universe u v w

/-- A forest: its first tree's root, that root's children and the trees after it. -/
inductive Forest (ν : Type u) where
  | nil
  | cons (node : ν) (children rest : Forest ν)
deriving DecidableEq, Repr

namespace Forest
open List
variable {ν : Type u}

def roots : Forest ν → List ν
  | nil => []
  | cons node _ rest => node::roots rest

def nodes : Forest ν → List ν
  | nil => []
  | cons node children rest => node::(nodes children ++ nodes rest)

/-- Every node with its children. -/
def subtrees : Forest ν → List (ν × Forest ν)
  | nil => []
  | cons node children rest => (node,children)::(subtrees children ++ subtrees rest)

def map (change : ν → ν) : Forest ν → Forest ν
  | nil => nil
  | cons node children rest => cons (change node) (map change children) (map change rest)

@[simp] theorem nodes_nil : (nil : Forest ν).nodes = [] := rfl
@[simp] theorem subtrees_nil : (nil : Forest ν).subtrees = [] := rfl

theorem subtrees_fst (forest : Forest ν) : forest.subtrees.map Prod.fst = forest.nodes := by
  induction forest with
  | nil => rfl
  | cons node children rest inChildren inRest => simp [subtrees,nodes,inChildren,inRest]

variable {forest : Forest ν}

theorem mem_nodes_iff {node : ν} : node ∈ forest.nodes ↔ ∃ children, (node,children) ∈ forest.subtrees := by
  rw [← subtrees_fst]; simp

theorem subtrees_subset {forest children : Forest ν} {node : ν} (member : (node,children) ∈ forest.subtrees) :
    children.subtrees ⊆ forest.subtrees := by
  induction forest with
  | nil => cases member
  | cons first inner rest inChildren inRest =>
    intro step inside
    rcases mem_cons.mp member with same | later
    · cases same; exact mem_cons_of_mem _ (mem_append_left _ inside)
    · rcases mem_append.mp later with under | after
      · exact mem_cons_of_mem _ (mem_append_left _ (inChildren under inside))
      · exact mem_cons_of_mem _ (mem_append_right _ (inRest after inside))

@[simp] theorem nodes_map (change : ν → ν) (forest : Forest ν) : (forest.map change).nodes = forest.nodes.map change := by
  induction forest with
  | nil => rfl
  | cons node children rest inChildren inRest => simp [map,nodes,inChildren,inRest]

theorem subtrees_map (change : ν → ν) (forest : Forest ν) :
    (forest.map change).subtrees = forest.subtrees.map (fun step => (change step.1,step.2.map change)) := by
  induction forest with
  | nil => rfl
  | cons node children rest inChildren inRest => simp [map,subtrees,inChildren,inRest]

theorem map_eq_nil {change : ν → ν} : forest.map change = nil ↔ forest = nil := by
  cases forest <;> simp [map]

section Total
variable {M : Type w} [AddCommMonoid M] (measure : ν → M)

/-- The sum of a measure over all nodes. -/
def total (forest : Forest ν) : M := (forest.nodes.map measure).sum

@[simp] theorem total_nil : total measure nil = 0 := rfl
@[simp] theorem total_cons (node : ν) (children rest : Forest ν) :
    total measure (cons node children rest) = measure node + (total measure children + total measure rest) := by
  simp [total,nodes]

theorem total_map (change : ν → ν) (forest : Forest ν) :
    total measure (forest.map change) = total (measure ∘ change) forest := by
  simp [total,nodes_map]

theorem total_congr {measure other : ν → M} {forest : Forest ν} (same : ∀ node ∈ forest.nodes, measure node = other node) :
    total measure forest = total other forest := by
  rw [total,total,map_congr_left same]

theorem total_add (measure other : ν → M) (forest : Forest ν) :
    total (fun node => measure node + other node) forest = total measure forest + total other forest := by
  simp [total,sum_map_add]

theorem total_eq_zero {measure : ν → M} {forest : Forest ν} (nothing : ∀ node ∈ forest.nodes, measure node = 0) :
    total measure forest = 0 := by
  rw [total_congr nothing]
  simp [total]

end Total

section Labelled
variable {ι : Type v} [DecidableEq ι] (label : ν → ι) (target : ι)

def labels (forest : Forest ν) : List ι := forest.nodes.map label

/-- The way from a root down to the node with a label. -/
def path : Forest ν → Option (List (ν × Forest ν))
  | nil => none
  | cons node children rest =>
    if label node = target then some [(node,children)]
    else match path children with
      | some way => some ((node,children)::way)
      | none => path rest

/-- The node with a label. -/
def find? (forest : Forest ν) : Option (ν × Forest ν) := (path label target forest).bind List.getLast?

/-- The node above it; none for a root. -/
def parent? (forest : Forest ν) : Option (ν × Forest ν) :=
  (path label target forest).bind (fun way => way.dropLast.getLast?)

/-- The forest without the tree whose root has the label. -/
def erase : Forest ν → Forest ν
  | nil => nil
  | cons node children rest => if label node = target then rest else cons node (erase children) (erase rest)

variable {label target}

@[simp] theorem labels_nil : labels label nil = [] := rfl
@[simp] theorem labels_cons (node : ν) (children rest : Forest ν) :
    labels label (cons node children rest) = label node::(labels label children ++ labels label rest) := by simp [labels,nodes]

/-- The labels of a node, of what lies under it and of what comes after it are apart. -/
theorem labels_apart {node : ν} {children rest : Forest ν} (distinct : (labels label (cons node children rest)).Nodup) :
    (label node ∉ labels label children ∧ label node ∉ labels label rest ∧ ∀ name ∈ labels label children, name ∉ labels label rest) ∧
      (labels label children).Nodup ∧ (labels label rest).Nodup := by
  rw [labels_cons,nodup_cons,nodup_append,mem_append,not_or] at distinct
  obtain ⟨⟨notUnder,notAfter⟩,under,after,apart⟩ := distinct
  exact ⟨⟨notUnder,notAfter,fun name left right => apart name left name right rfl⟩,under,after⟩

variable {forest : Forest ν}

theorem mem_labels_iff : target ∈ labels label forest ↔ ∃ step ∈ forest.subtrees, label step.1 = target := by
  rw [labels,← subtrees_fst]; simp

theorem labels_map {change : ν → ν} (keeps : ∀ node, label (change node) = label node) (forest : Forest ν) :
    labels label (forest.map change) = labels label forest := by simp [labels,keeps]

/-- In a forest whose labels are distinct, two listed nodes with one label are the same. -/
theorem subtrees_injective (distinct : (labels label forest).Nodup) {left right : ν × Forest ν}
    (inLeft : left ∈ forest.subtrees) (inRight : right ∈ forest.subtrees) (same : label left.1 = label right.1) : left = right := by
  have mapped : (forest.subtrees.map (fun step => label step.1)).Nodup := by
    rw [labels,← subtrees_fst,map_map] at distinct; exact distinct
  exact inj_on_of_nodup_map mapped inLeft inRight same

theorem path_isSome : (path label target forest).isSome ↔ target ∈ labels label forest := by
  induction forest with
  | nil => simp [path]
  | cons node children rest inChildren inRest =>
    rw [path,labels_cons,mem_cons,mem_append,← inChildren,← inRest]
    by_cases here : label node = target
    · simp [here]
    · rw [if_neg here]
      have other : target ≠ label node := fun same => here same.symm
      cases path label target children <;> simp [other]

theorem path_eq_none : path label target forest = none ↔ target ∉ labels label forest := by
  rw [← path_isSome,Option.not_isSome_iff_eq_none]

variable {way : List (ν × Forest ν)}

/-- A way down to the node with a label, as `path` finds it. -/
inductive Way (label : ν → ι) (target : ι) : Forest ν → List (ν × Forest ν) → Prop
  | here {node : ν} {children rest : Forest ν} (named : label node = target) : Way label target (cons node children rest) [(node,children)]
  | under {node : ν} {children rest : Forest ν} {way : List (ν × Forest ν)} (differs : label node ≠ target)
      (lower : Way label target children way) : Way label target (cons node children rest) ((node,children)::way)
  | beside {node : ν} {children rest : Forest ν} {way : List (ν × Forest ν)} (differs : label node ≠ target)
      (missing : target ∉ labels label children) (later : Way label target rest way) : Way label target (cons node children rest) way

theorem path_eq_some : path label target forest = some way ↔ Way label target forest way := by
  constructor
  · intro found
    induction forest generalizing way with
    | nil => cases found
    | cons node children rest inChildren inRest =>
      rw [path] at found
      by_cases here : label node = target
      · rw [if_pos here] at found
        cases found
        exact .here here
      · rw [if_neg here] at found
        cases under : path label target children with
        | some lower =>
          rw [under] at found
          cases found
          exact .under here (inChildren under)
        | none =>
          rw [under] at found
          exact .beside here (path_eq_none.mp under) (inRest found)
  · intro leads
    induction leads with
    | here named => rw [path,if_pos named]
    | under differs _ ih => rw [path,if_neg differs,ih]
    | beside differs missing _ ih => rw [path,if_neg differs,path_eq_none.mpr missing,ih]

section Way
variable (leads : Way label target forest way)
include leads

theorem Way.last : ∃ step ∈ way.getLast?, label step.1 = target := by
  induction leads with
  | here named => exact ⟨_,rfl,named⟩
  | under _ _ ih =>
    obtain ⟨step,last,named⟩ := ih
    exact ⟨step,by rw [getLast?_cons,last]; rfl,named⟩
  | beside _ _ _ ih => exact ih

theorem Way.head : ∃ step ∈ way.head?, step.1 ∈ forest.roots := by
  induction leads with
  | here => exact ⟨_,rfl,mem_cons_self ..⟩
  | under => exact ⟨_,rfl,mem_cons_self ..⟩
  | beside _ _ _ ih =>
    obtain ⟨step,first,root⟩ := ih
    exact ⟨step,first,mem_cons_of_mem _ root⟩

theorem Way.subset : way ⊆ forest.subtrees := by
  induction leads with
  | here => simp [subtrees]
  | under _ _ ih => exact cons_subset_cons _ (List.Subset.trans ih (subset_append_left ..))
  | beside _ _ _ ih => exact List.Subset.trans ih (subset_cons_of_subset _ (subset_append_right ..))

theorem Way.present : target ∈ labels label forest := by
  obtain ⟨step,last,named⟩ := leads.last
  exact mem_labels_iff.mpr ⟨step,leads.subset (mem_of_getLast? last),named⟩

theorem Way.names {name : ι} (member : name ∈ way.map (fun step => label step.1)) : name ∈ labels label forest := by
  obtain ⟨step,inWay,rfl⟩ := mem_map.mp member
  exact mem_labels_iff.mpr ⟨step,leads.subset inWay,rfl⟩

end Way

theorem path_last (found : path label target forest = some way) : ∃ step ∈ way.getLast?, label step.1 = target := (path_eq_some.mp found).last

theorem path_ne_nil (found : path label target forest = some way) : way ≠ [] := by
  obtain ⟨step,last,-⟩ := path_last found
  rintro rfl
  cases last

theorem path_subset (found : path label target forest = some way) : way ⊆ forest.subtrees := (path_eq_some.mp found).subset

theorem mem_path_iff (distinct : (labels label forest).Nodup)
    (found : path label target forest = some way) (step : ν × Forest ν) :
    step ∈ way ↔ step ∈ forest.subtrees ∧ (label step.1 = target ∨ target ∈ labels label step.2) := by
  -- the label occurs in one part of the forest only
  have elsewhere {part : Forest ν} (missing : target ∉ labels label part) (inside : step ∈ part.subtrees) :
      ¬ (label step.1 = target ∨ target ∈ labels label step.2) := by
    rintro (named | deeper)
    · exact missing (mem_labels_iff.mpr ⟨step,inside,named⟩)
    · obtain ⟨inner,member,named⟩ := mem_labels_iff.mp deeper
      exact missing (mem_labels_iff.mpr ⟨inner,subtrees_subset inside member,named⟩)
  replace found := path_eq_some.mp found
  induction found with
  | here named =>
    obtain ⟨⟨notUnder,notAfter,-⟩,-⟩ := labels_apart distinct
    rw [named] at notUnder notAfter
    rw [mem_singleton,subtrees,mem_cons,mem_append]
    constructor
    · intro same
      exact ⟨.inl same,.inl (by rw [same]; exact named)⟩
    · rintro ⟨same | inside | inside,reaches⟩
      · exact same
      · exact absurd reaches (elsewhere notUnder inside)
      · exact absurd reaches (elsewhere notAfter inside)
  | under _ lower ih =>
    obtain ⟨⟨-,-,apart⟩,underDistinct,-⟩ := labels_apart distinct
    have inWay : _ ↔ _ := ih underDistinct
    rw [mem_cons,inWay,subtrees,mem_cons,mem_append]
    constructor
    · rintro (same | ⟨inside,reaches⟩)
      · exact ⟨.inl same,.inr (by rw [same]; exact lower.present)⟩
      · exact ⟨.inr (.inl inside),reaches⟩
    · rintro ⟨same | inside | inside,reaches⟩
      · exact .inl same
      · exact .inr ⟨inside,reaches⟩
      · exact absurd reaches (elsewhere (apart target lower.present) inside)
  | beside differs missing _ ih =>
    have inWay : _ ↔ _ := ih (labels_apart distinct).2.2
    rw [inWay,subtrees,mem_cons,mem_append]
    constructor
    · rintro ⟨inside,reaches⟩
      exact ⟨.inr (.inr inside),reaches⟩
    · rintro ⟨same | inside | inside,reaches⟩
      · subst same
        exact absurd reaches (not_or.mpr ⟨differs,missing⟩)
      · exact absurd reaches (elsewhere missing inside)
      · exact ⟨inside,reaches⟩

theorem find?_isSome : (find? label target forest).isSome ↔ target ∈ labels label forest := by
  rw [← path_isSome,find?]
  cases found : path label target forest with
  | none => simp
  | some way =>
    obtain ⟨step,last,-⟩ := path_last found
    rw [Option.bind_some,last]
    simp

variable {step : ν × Forest ν}

theorem find?_spec (distinct : (labels label forest).Nodup) :
    find? label target forest = some step ↔ step ∈ forest.subtrees ∧ label step.1 = target := by
  constructor
  · intro found
    obtain ⟨way,led,last⟩ := Option.bind_eq_some_iff.mp found
    obtain ⟨step',last',named⟩ := path_last led
    rw [last] at last'
    cases last'
    exact ⟨path_subset led (mem_of_getLast? last),named⟩
  · rintro ⟨inside,named⟩
    obtain ⟨step',found⟩ := Option.isSome_iff_exists.mp (find?_isSome.mpr (mem_labels_iff.mpr ⟨step,inside,named⟩))
    obtain ⟨way,led,last⟩ := Option.bind_eq_some_iff.mp found
    obtain ⟨step'',last',named'⟩ := path_last led
    rw [last] at last'
    cases last'
    have inside' := path_subset led (mem_of_getLast? last)
    rw [found,subtrees_injective distinct inside' inside (named'.trans named.symm)]

theorem subtrees_distinct (distinct : (labels label forest).Nodup)
    (inside : step ∈ forest.subtrees) : label step.1 ∉ labels label step.2 ∧ (labels label step.2).Nodup := by
  induction forest with
  | nil => cases inside
  | cons node children rest inChildren inRest =>
    obtain ⟨⟨notUnder,-⟩,underDistinct,afterDistinct⟩ := labels_apart distinct
    rcases mem_cons.mp inside with rfl | later
    · exact ⟨notUnder,underDistinct⟩
    · rcases mem_append.mp later with under | after
      · exact inChildren underDistinct under
      · exact inRest afterDistinct after

theorem parent?_cons (node : ν) (children rest : Forest ν) :
    parent? label target (cons node children rest) =
      if label node = target then none
      else if target ∈ labels label children then some ((parent? label target children).getD (node,children))
      else parent? label target rest := by
  unfold parent?
  rw [path]
  by_cases here : label node = target
  · rw [if_pos here,if_pos here]; rfl
  · rw [if_neg here,if_neg here]
    cases under : path label target children with
    | none =>
      rw [if_neg (path_eq_none.mp under)]
    | some way =>
      rw [if_pos (path_isSome.mp (by rw [under]; rfl))]
      obtain ⟨first,rest,rfl⟩ := exists_cons_of_ne_nil (path_ne_nil under)
      simp only [Option.bind_some,dropLast_cons_cons,getLast?_cons]

theorem parent?_spec (found : parent? label target forest = some step) :
    step ∈ forest.subtrees ∧ ∃ child ∈ step.2.roots, label child = target := by
  induction forest generalizing step with
  | nil => cases found
  | cons node children rest inChildren inRest =>
    rw [parent?_cons] at found
    split at found
    · cases found
    · split at found
      · rename_i present
        cases upper : parent? label target children with
        | some inner =>
          rw [upper] at found
          cases found
          obtain ⟨inside,child⟩ := inChildren upper
          exact ⟨mem_cons_of_mem _ (mem_append_left _ inside),child⟩
        | none =>
          rw [upper] at found
          cases found
          refine ⟨mem_cons_self ..,?_⟩
          -- without a node above it, the node is a root
          clear inChildren inRest
          show ∃ child ∈ children.roots, label child = target
          induction children with
          | nil => cases present
          | cons first inner others _ inOthers =>
            rw [parent?_cons] at upper
            split at upper
            · rename_i here
              exact ⟨first,mem_cons_self ..,here⟩
            · rename_i differs
              split at upper
              · cases upper
              · rename_i missing
                rw [labels_cons,mem_cons,mem_append] at present
                have later : target ∈ labels label others := by
                  rcases present with here | deeper | later
                  · exact absurd here.symm differs
                  · exact absurd deeper missing
                  · exact later
                obtain ⟨child,root,named⟩ := inOthers later upper
                exact ⟨child,mem_cons_of_mem _ root,named⟩
      · obtain ⟨inside,child⟩ := inRest found
        exact ⟨mem_cons_of_mem _ (mem_append_right _ inside),child⟩

theorem roots_subset (forest : Forest ν) : forest.roots ⊆ forest.nodes := by
  induction forest with
  | nil => exact List.Subset.refl _
  | cons node children rest _ inRest =>
    intro root member
    rcases mem_cons.mp member with rfl | later
    · exact mem_cons_self ..
    · exact mem_cons_of_mem _ (mem_append_right _ (inRest later))

variable (label) in
theorem labels_of_root {root : ν} (isRoot : root ∈ forest.roots) : label root ∈ labels label forest :=
  mem_map_of_mem (roots_subset _ isRoot)

theorem labels_subset (inside : step ∈ forest.subtrees) :
    labels label step.2 ⊆ labels label forest := by
  intro name member
  obtain ⟨lower,lowerInside,named⟩ := mem_labels_iff.mp member
  exact mem_labels_iff.mpr ⟨lower,subtrees_subset inside lowerInside,named⟩

theorem parent?_root (distinct : (labels label forest).Nodup) {root : ν} (isRoot : root ∈ forest.roots) :
    parent? label (label root) forest = none := by
  induction forest with
  | nil => cases isRoot
  | cons node children rest _ inRest =>
    obtain ⟨⟨-,notAfter,apart⟩,-,afterDistinct⟩ := labels_apart distinct
    rw [parent?_cons]
    rcases mem_cons.mp isRoot with rfl | later
    · rw [if_pos rfl]
    · have beside := labels_of_root label later
      rw [if_neg (fun same : label node = label root => notAfter (same ▸ beside)),if_neg (fun under => apart _ under beside),inRest afterDistinct later]

theorem parent?_of_child (distinct : (labels label forest).Nodup)
    (inside : step ∈ forest.subtrees) {child : ν} (isChild : child ∈ step.2.roots) : parent? label (label child) forest = some step := by
  induction forest with
  | nil => cases inside
  | cons node children rest inChildren inRest =>
    obtain ⟨⟨notUnder,notAfter,apart⟩,underDistinct,afterDistinct⟩ := labels_apart distinct
    have below := labels_of_root label isChild
    rw [parent?_cons]
    rcases mem_cons.mp inside with rfl | later
    · rw [if_neg (fun same : label node = label child => notUnder (same ▸ below)),if_pos below,parent?_root underDistinct isChild]
      rfl
    · rcases mem_append.mp later with under | beside
      · have deeper := labels_subset under below
        rw [if_neg (fun same : label node = label child => notUnder (same ▸ deeper)),if_pos deeper,inChildren underDistinct under]
        rfl
      · have deeper := labels_subset beside below
        rw [if_neg (fun same : label node = label child => notAfter (same ▸ deeper)),if_neg (fun under => apart _ under deeper),inRest afterDistinct beside]

theorem path_map {change : ν → ν} (keeps : ∀ node, label (change node) = label node) (forest : Forest ν) :
    path label target (forest.map change) =
      (path label target forest).map (List.map (fun step => (change step.1,step.2.map change))) := by
  induction forest with
  | nil => rfl
  | cons node children rest inChildren inRest =>
    rw [map,path,path,keeps,inChildren,inRest]
    by_cases here : label node = target
    · simp [here]
    · simp only [if_neg here]
      cases path label target children <;> rfl

theorem erase_of_not_mem (missing : target ∉ labels label forest) : erase label target forest = forest := by
  induction forest with
  | nil => rfl
  | cons node children rest inChildren inRest =>
    rw [labels_cons,mem_cons,mem_append,not_or,not_or] at missing
    rw [erase,if_neg (fun same => missing.1 same.symm),inChildren missing.2.1,inRest missing.2.2]

/-- A leaf: a node without children. -/
def IsLeaf (label : ν → ι) (target : ι) (forest : Forest ν) : Prop := ∃ node, (node,nil) ∈ forest.subtrees ∧ label node = target

section Sums
variable {M : Type w} [AddCommMonoid M]

theorem total_label {forest : Forest ν} (distinct : (labels label forest).Nodup) {amount : M} :
    total (fun node => if label node = target then amount else 0) forest = if target ∈ labels label forest then amount else 0 := by
  induction forest with
  | nil => simp
  | cons node children rest inChildren inRest =>
    obtain ⟨⟨notUnder,notAfter,apart⟩,underDistinct,afterDistinct⟩ := labels_apart distinct
    rw [total_cons,inChildren underDistinct,inRest afterDistinct,labels_cons]
    by_cases here : label node = target
    · subst here
      rw [if_pos rfl,if_neg notUnder,if_neg notAfter,if_pos mem_cons_self]
      simp
    · rw [if_neg here,zero_add]
      by_cases under : target ∈ labels label children
      · rw [if_pos under,if_neg (apart target under),add_zero,if_pos (mem_cons_of_mem _ (mem_append_left _ under))]
      · rw [if_neg under,zero_add]
        by_cases beside : target ∈ labels label rest
        · rw [if_pos beside,if_pos (mem_cons_of_mem _ (mem_append_right _ beside))]
        · rw [if_neg beside,if_neg]
          simp [under,beside,Ne.symm here]

theorem total_path {forest : Forest ν} (distinct : (labels label forest).Nodup) {way : List (ν × Forest ν)}
    (found : path label target forest = some way) (measure : ν → M) :
    total (fun node => if label node ∈ way.map (fun step => label step.1) then measure node else 0) forest =
      (way.map (fun step => measure step.1)).sum := by
  have off {part : Forest ν} {names : List ι} (missing : ∀ name ∈ labels label part, name ∉ names) :
      total (fun node => if label node ∈ names then measure node else 0) part = 0 :=
    total_eq_zero (fun node member => if_neg (missing _ (mem_map_of_mem member)))
  replace found := path_eq_some.mp found
  induction found with
  | @here node children rest named =>
    obtain ⟨⟨notUnder,notAfter,-⟩,-⟩ := labels_apart distinct
    have notIn {part : Forest ν} (missing : label node ∉ labels label part) :
        total (fun inner => if label inner ∈ [label node] then measure inner else 0) part = 0 := by
      refine off (fun name member same => missing ?_)
      rw [← mem_singleton.mp same]; exact member
    simp only [map_cons,map_nil]
    rw [total_cons,notIn notUnder,notIn notAfter,if_pos (mem_singleton_self _)]
    simp
  | @under node children rest lower _ leads ih =>
    obtain ⟨⟨notUnder,notAfter,apart⟩,underDistinct,-⟩ := labels_apart distinct
    have beside : total (fun inner => if label inner ∈ label node::lower.map (fun step => label step.1) then measure inner else 0) rest = 0 := by
      refine off (fun name member inWay => ?_)
      rcases mem_cons.mp inWay with same | deeper
      · exact notAfter (same ▸ member)
      · exact apart name (leads.names deeper) member
    simp only [map_cons,sum_cons]
    rw [total_cons,if_pos mem_cons_self,← ih underDistinct,beside,add_zero]
    congr 1
    refine total_congr (fun inner member => ?_)
    have other : label inner ≠ label node := fun same => notUnder (same ▸ mem_map_of_mem member)
    simp only [mem_cons,other,false_or]
  | beside _ _ leads ih =>
    obtain ⟨⟨-,notAfter,apart⟩,-,afterDistinct⟩ := labels_apart distinct
    rw [total_cons,ih afterDistinct,if_neg (fun member => notAfter (leads.names member)),
      off (fun name member inWay => apart name member (leads.names inWay))]
    simp

end Sums

/-- A forest without one of its leaves. -/
inductive Plucks (label : ν → ι) (leaf : ν) : Forest ν → Forest ν → Prop
  | here {rest : Forest ν} (after : label leaf ∉ labels label rest) : Plucks label leaf (cons leaf nil rest) rest
  | under {node : ν} {children rest less : Forest ν} (differs : label node ≠ label leaf) (after : label leaf ∉ labels label rest)
      (lower : Plucks label leaf children less) : Plucks label leaf (cons node children rest) (cons node less rest)
  | beside {node : ν} {children rest less : Forest ν} (differs : label node ≠ label leaf) (under : label leaf ∉ labels label children)
      (later : Plucks label leaf rest less) : Plucks label leaf (cons node children rest) (cons node children less)

variable {leaf : ν}

theorem plucks_erase (distinct : (labels label forest).Nodup) (inside : (leaf,nil) ∈ forest.subtrees) :
    Plucks label leaf forest (erase label (label leaf) forest) := by
  induction forest with
  | nil => cases inside
  | cons node children rest inChildren inRest =>
    obtain ⟨⟨notUnder,notAfter,apart⟩,underDistinct,afterDistinct⟩ := labels_apart distinct
    rw [erase]
    rcases mem_cons.mp inside with same | later
    · cases same
      rw [if_pos rfl]
      exact .here notAfter
    · rcases mem_append.mp later with under | after
      · have present : label leaf ∈ labels label children := mem_labels_iff.mpr ⟨_,under,rfl⟩
        have differs : label node ≠ label leaf := fun here => notUnder (here ▸ present)
        rw [if_neg differs,erase_of_not_mem (apart _ present)]
        exact .under differs (apart _ present) (inChildren underDistinct under)
      · have present : label leaf ∈ labels label rest := mem_labels_iff.mpr ⟨_,after,rfl⟩
        have differs : label node ≠ label leaf := fun here => notAfter (here ▸ present)
        have missing : label leaf ∉ labels label children := fun under => apart _ under present
        rw [if_neg differs,erase_of_not_mem missing]
        exact .beside differs missing (inRest afterDistinct after)

theorem Plucks.eq_erase {less : Forest ν} (plucks : Plucks label leaf forest less) : erase label (label leaf) forest = less := by
  induction plucks with
  | here => rw [erase,if_pos rfl]
  | under differs after _ ih => rw [erase,if_neg differs,ih,erase_of_not_mem after]
  | beside differs under _ ih => rw [erase,if_neg differs,ih,erase_of_not_mem under]

theorem Plucks.nodes_eq {less : Forest ν} (plucks : Plucks label leaf forest less) :
    (forest.nodes : Multiset ν) = leaf ::ₘ (less.nodes : Multiset ν) := by
  induction plucks with
  | here => simp [nodes]
  | under _ _ _ ih =>
    simp only [nodes,← Multiset.cons_coe,← Multiset.coe_add,ih,Multiset.cons_add]
    exact Multiset.cons_swap ..
  | beside _ _ _ ih =>
    simp only [nodes,← Multiset.cons_coe,← Multiset.coe_add,ih,Multiset.add_cons]
    exact Multiset.cons_swap ..

theorem nodes_erase (distinct : (labels label forest).Nodup) (inside : (leaf,nil) ∈ forest.subtrees) :
    (forest.nodes : Multiset ν) = leaf ::ₘ ((erase label (label leaf) forest).nodes : Multiset ν) := (plucks_erase distinct inside).nodes_eq

theorem total_erase {M : Type w} [AddCommMonoid M] (measure : ν → M) (distinct : (labels label forest).Nodup)
    (inside : (leaf,nil) ∈ forest.subtrees) :
    total measure forest = measure leaf + total measure (erase label (label leaf) forest) := by
  have same := congrArg (fun nodes : Multiset ν => (nodes.map measure).sum) (nodes_erase distinct inside)
  simpa [total] using same

theorem labels_erase (distinct : (labels label forest).Nodup) (leaf : IsLeaf label target forest) :
    (labels label forest : Multiset ι) = target ::ₘ (labels label (erase label target forest) : Multiset ι) := by
  obtain ⟨last,inside,rfl⟩ := leaf
  have same := congrArg (Multiset.map label) (nodes_erase distinct inside)
  simpa [labels] using same

theorem labels_erase_nodup (distinct : (labels label forest).Nodup) (leaf : IsLeaf label target forest) :
    (labels label (erase label target forest)).Nodup ∧ target ∉ labels label (erase label target forest) := by
  have same := labels_erase distinct leaf
  rw [← Multiset.coe_nodup,same,Multiset.nodup_cons] at distinct
  exact ⟨by simpa using distinct.2,by simpa using distinct.1⟩

theorem subtrees_erase (distinct : (labels label forest).Nodup) (leaf : IsLeaf label target forest) :
    ∀ step, step ∈ (erase label target forest).subtrees ↔
      ∃ old ∈ forest.subtrees, label old.1 ≠ target ∧ step = (old.1,erase label target old.2) := by
  -- where the label is missing, nothing is erased
  have untouched {part : Forest ν} (missing : target ∉ labels label part) (step : ν × Forest ν) :
      step ∈ part.subtrees ↔ ∃ old ∈ part.subtrees, label old.1 ≠ target ∧ step = (old.1,erase label target old.2) := by
    have fixed (old : ν × Forest ν) (inside : old ∈ part.subtrees) : label old.1 ≠ target ∧ erase label target old.2 = old.2 := by
      refine ⟨fun named => missing (mem_labels_iff.mpr ⟨old,inside,named⟩),erase_of_not_mem (fun member => ?_)⟩
      obtain ⟨inner,deeper,named⟩ := mem_labels_iff.mp member
      exact missing (mem_labels_iff.mpr ⟨inner,subtrees_subset inside deeper,named⟩)
    constructor
    · intro inside
      exact ⟨step,inside,(fixed step inside).1,by rw [(fixed step inside).2]⟩
    · rintro ⟨old,inside,-,rfl⟩
      rwa [(fixed old inside).2]
  obtain ⟨leaf,inside,rfl⟩ := leaf
  have plucks := plucks_erase distinct inside
  generalize erase label (label leaf) forest = less at plucks
  clear inside distinct
  intro step
  induction plucks with
  | here after =>
    rw [untouched after]
    simp [subtrees]
  | under differs after lower ih =>
    have below : _ ↔ _ := ih
    rw [subtrees,mem_cons,mem_append,below,untouched after]
    simp only [subtrees,mem_cons,mem_append,or_and_right,exists_or,exists_eq_left,ne_eq,differs,not_false_eq_true,true_and,lower.eq_erase]
  | beside differs under _ ih =>
    have later : _ ↔ _ := ih
    rw [subtrees,mem_cons,mem_append,later,untouched under]
    simp only [subtrees,mem_cons,mem_append,or_and_right,exists_or,exists_eq_left,ne_eq,differs,not_false_eq_true,true_and,
      erase_of_not_mem under]

theorem path_erase (distinct : (labels label forest).Nodup) (leaf : IsLeaf label target forest)
    {other : ι} (different : other ≠ target) :
    path label other (erase label target forest) =
      (path label other forest).map (List.map (fun step => (step.1,erase label target step.2))) := by
  have untouched {part : Forest ν} (missing : target ∉ labels label part) :
      path label other part = (path label other part).map (List.map (fun step => (step.1,erase label target step.2))) := by
    cases found : path label other part with
    | none => rfl
    | some way =>
      have fixed : way.map (fun step => (step.1,erase label target step.2)) = way.map id := by
        refine map_congr_left (fun step member => ?_)
        have inside := subtrees_subset (path_subset found member)
        rw [erase_of_not_mem (fun present => ?_)]
        · rfl
        · obtain ⟨inner,deeper,named⟩ := mem_labels_iff.mp present
          exact missing (mem_labels_iff.mpr ⟨inner,inside deeper,named⟩)
      rw [Option.map_some,fixed,map_id]
  obtain ⟨leaf,inside,rfl⟩ := leaf
  have plucks := plucks_erase distinct inside
  generalize erase label (label leaf) forest = less at plucks
  clear inside distinct
  induction plucks with
  | here after =>
    rw [path,if_neg (fun same => different same.symm)]
    exact untouched after
  | @under node _ _ _ _ after lower ih =>
    rw [path,path,ih]
    by_cases reached : label node = other
    · simp [reached,lower.eq_erase]
    · rw [if_neg reached,if_neg reached]
      cases path label other _ with
      | none => exact untouched after
      | some way => simp [lower.eq_erase]
  | @beside node children _ _ _ under _ ih =>
    rw [path,path,ih]
    by_cases reached : label node = other
    · simp [reached,erase_of_not_mem under]
    · rw [if_neg reached,if_neg reached]
      have same := untouched under
      cases found : path label other children with
      | none => rfl
      | some way =>
        rw [found] at same
        simp only [Option.map_some,Option.some.injEq] at same ⊢
        rw [map_cons,← same,erase_of_not_mem under]

end Labelled
end Forest
end Hypic
