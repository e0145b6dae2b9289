import Durable7.FingerTree.SortedSet.Operations
import Durable7.Foundation.Branching

/-!
# The algebra of sorted sets

Each loop adopts the run of one operand below the first element of the other, which on lists is
one step of the set operation.
-/

namespace Durable7.FingerTree.SortedSet

open Foundation
open Measured.Ranked (treeList sameClass splitAtLeast Sorted treeList_empty treeList_append
  treeList_cons)

section

open List SortedSets Nat

variable {a : Type} [Ord a] [Std.TransOrd a] {left right : SetTree a}

variable {tree : SetTree a}

theorem splitBelow_eq (h : Sorted tree) (value : a) :
    treeList (splitBelow value tree).1 = below compare id value (treeList tree) ∧
      treeList (splitBelow value tree).2 = atLeast compare id value (treeList tree) := by
  unfold splitBelow
  rcases Measured.Ranked.splitAtLeast_parts h value with ⟨hsplit, hbelow, hnil⟩ |
    ⟨left, stored, right, hsplit, hbelow, hcut⟩
  · rw [hsplit]
    exact ⟨hbelow.symm, treeList_empty.trans hnil.symm⟩
  · rw [hsplit]
    exact ⟨hbelow.symm, (treeList_cons _ _).trans hcut.symm⟩

theorem sorted_splitBelow (h : Sorted tree) (value : a) : Sorted (splitBelow value tree).2 := by
  rw [Sorted, (splitBelow_eq h value).2]
  exact sorted_atLeast h

variable {first : SetElement a} {rest : SetTree a}

omit [Ord a] [Std.TransOrd a] in
theorem treeList_of_viewL (h : tree.viewL = some (first, rest)) :
    treeList tree = first.value :: treeList rest := by
  rw [treeList, Measured.ValidTree.toList_of_viewL h]
  rfl

omit [Ord a] [Std.TransOrd a] in
theorem treeList_of_none (h : tree.viewL = none) : treeList tree = [] := by
  rcases tree.viewL_cases with ⟨-, hlist⟩ | ⟨_, _, hsome, -⟩
  · rw [treeList, hlist]
    rfl
  · rw [h] at hsome
    cases hsome

omit [Std.TransOrd a] in
theorem sorted_of_viewL (h : tree.viewL = some (first, rest)) (hsorted : Sorted tree) :
    StrictlySorted compare id (first.value :: treeList rest) ∧ Sorted rest := by
  rw [Sorted, treeList_of_viewL h] at hsorted
  exact ⟨hsorted, (pairwise_cons.mp hsorted).2⟩

theorem first_isLE (h : tree.viewL = some (first, rest)) (hsorted : Sorted tree) :
    ∀ other ∈ treeList tree, (compare first.value other).isLE := by
  rw [treeList_of_viewL h]
  exact head_isLE (sorted_of_viewL h hsorted).1

section

variable (hleft : Sorted left) (hright : Sorted right)
include hleft hright

theorem unionTrees_eq :
    treeList (unionTrees left right) =
      SortedSets.union compare (treeList left) (treeList right) := by
  fun_induction unionTrees left right with
  | case1 left right hnone =>
      rw [treeList_of_none hnone, SortedSets.union, nil_merge, SortedSets.difference,
        filter_eq_self.mpr]
      exact fun _ _ => rfl
  | case2 left right leftFirst leftRest hview hnone =>
      rw [treeList_of_none hnone, SortedSets.union]
      exact (merge_right _).symm
  | case3 left right leftFirst leftRest hviewLeft rightFirst rightRest hviewRight hcompare ih =>
      obtain ⟨hrun, hrest⟩ := splitBelow_eq hleft rightFirst.value
      rw [treeList_append, ih (sorted_splitBelow hleft _) hright, hrun, hrest]
      exact (union_left hleft hright (first_isLE hviewRight hright)).symm
  | case4 left right leftFirst leftRest hviewLeft rightFirst rightRest hviewRight hcompare ih =>
      rw [ih hleft (sorted_of_viewL hviewRight hright).2, treeList_of_viewL hviewLeft,
        treeList_of_viewL hviewRight]
      exact (union_match hcompare).symm
  | case5 left right leftFirst leftRest hviewLeft rightFirst rightRest hviewRight hcompare ih =>
      obtain ⟨hrun, hrest⟩ := splitBelow_eq hright leftFirst.value
      rw [treeList_append, ih hleft (sorted_splitBelow hright _), hrun, hrest]
      exact (union_right hleft hright (first_isLE hviewLeft hleft)).symm

theorem intersectionTrees_eq :
    treeList (intersectionTrees left right) =
      SortedSets.intersection compare (treeList left) (treeList right) := by
  fun_induction intersectionTrees left right with
  | case1 left right hnone =>
      rw [treeList_of_none hnone, treeList_empty]
      rfl
  | case2 left right leftFirst leftRest hview hnone =>
      rw [treeList_of_none hnone, treeList_empty, SortedSets.intersection, eq_comm,
        filter_eq_nil_iff]
      exact fun _ _ => Bool.false_ne_true
  | case3 left right leftFirst leftRest hviewLeft rightFirst rightRest hviewRight hcompare ih =>
      rw [ih (sorted_splitBelow hleft _) hright, (splitBelow_eq hleft rightFirst.value).2]
      exact (intersection_left hleft (first_isLE hviewRight hright)).symm
  | case4 left right leftFirst leftRest hviewLeft rightFirst rightRest hviewRight hcompare ih =>
      obtain ⟨hcons, hrest⟩ := sorted_of_viewL hviewLeft hleft
      rw [treeList_cons, ih hrest (sorted_of_viewL hviewRight hright).2,
        treeList_of_viewL hviewLeft, treeList_of_viewL hviewRight]
      exact (intersection_match hcompare hcons).symm
  | case5 left right leftFirst leftRest hviewLeft rightFirst rightRest hviewRight hcompare ih =>
      rw [ih hleft (sorted_splitBelow hright _), (splitBelow_eq hright leftFirst.value).2]
      exact (intersection_right hright (first_isLE hviewLeft hleft)).symm

theorem differenceTrees_eq :
    treeList (differenceTrees left right) =
      SortedSets.difference compare (treeList left) (treeList right) := by
  fun_induction differenceTrees left right with
  | case1 left right hnone =>
      rw [treeList_of_none hnone, treeList_empty]
      rfl
  | case2 left right leftFirst leftRest hview hnone =>
      rw [treeList_of_none hnone, SortedSets.difference, filter_eq_self.mpr]
      exact fun _ _ => rfl
  | case3 left right leftFirst leftRest hviewLeft rightFirst rightRest hviewRight hcompare ih =>
      obtain ⟨hrun, hrest⟩ := splitBelow_eq hleft rightFirst.value
      rw [treeList_append, ih (sorted_splitBelow hleft _) hright, hrun, hrest]
      exact (difference_left hleft (first_isLE hviewRight hright)).symm
  | case4 left right leftFirst leftRest hviewLeft rightFirst rightRest hviewRight hcompare ih =>
      obtain ⟨hcons, hrest⟩ := sorted_of_viewL hviewLeft hleft
      rw [ih hrest (sorted_of_viewL hviewRight hright).2, treeList_of_viewL hviewLeft,
        treeList_of_viewL hviewRight]
      exact (difference_match hcompare hcons).symm
  | case5 left right leftFirst leftRest hviewLeft rightFirst rightRest hviewRight hcompare ih =>
      rw [ih hleft (sorted_splitBelow hright _), (splitBelow_eq hright leftFirst.value).2]
      exact (difference_right hright (first_isLE hviewLeft hleft)).symm

theorem subsetTrees_eq :
    subsetTrees left right = SortedSets.isSubsetOf compare (treeList left) (treeList right) := by
  fun_induction subsetTrees left right with
  | case1 left right hnone =>
      rw [treeList_of_none hnone]
      rfl
  | case2 left right leftFirst leftRest hview hsplit =>
      have hcons := (sorted_of_viewL hview hleft).1
      rw [treeList_of_viewL hview, isSubsetOf_cons hcons, holds]
      rcases splitAtLeast_cut hright leftFirst.value with ⟨-, hfind, -⟩ | ⟨_, _, _, hsome, -⟩
      · rw [hfind]
        rfl
      · rw [hsplit] at hsome
        cases hsome
  | case3 left right leftFirst leftRest hview below stored rightRest hsplit hsame ih =>
      obtain ⟨hcons, hrest⟩ := sorted_of_viewL hview hleft
      rw [treeList_of_viewL hview, isSubsetOf_cons hcons, holds]
      rcases splitAtLeast_cut hright leftFirst.value with ⟨hnone, -⟩ |
        ⟨_, _, _, hsome, -, ⟨-, hfind, habove⟩ | ⟨hapart, -⟩⟩
      · rw [hsplit] at hnone
        cases hnone
      · rw [hsplit] at hsome
        cases hsome
        have hrestRight : Sorted rightRest := by
          rw [Sorted, ← habove]
          exact List.Pairwise.filter _ hright
        rw [ih hrest hrestRight, hfind, habove]
        rfl
      · rw [hsplit] at hsome
        cases hsome
        rw [hsame] at hapart
        cases hapart
  | case4 left right leftFirst leftRest hview below stored rightRest hsplit hapart =>
      have hcons := (sorted_of_viewL hview hleft).1
      rw [treeList_of_viewL hview, isSubsetOf_cons hcons, holds]
      rcases splitAtLeast_cut hright leftFirst.value with ⟨hnone, -⟩ |
        ⟨_, _, _, hsome, -, ⟨hsame, -⟩ | ⟨-, hfind, -⟩⟩
      · rw [hsplit] at hnone
        cases hnone
      · rw [hsplit] at hsome
        cases hsome
        exact absurd hsame hapart
      · rw [hfind]
        rfl

theorem overlapsTrees_eq :
    overlapsTrees left right = SortedSets.overlaps compare (treeList left) (treeList right) := by
  fun_induction overlapsTrees left right with
  | case1 left right hnone =>
      rw [treeList_of_none hnone]
      rfl
  | case2 left right leftFirst leftRest hview hnone =>
      rw [treeList_of_none hnone, SortedSets.overlaps, eq_comm, any_eq_false]
      exact fun _ _ => Bool.false_ne_true
  | case3 left right leftFirst leftRest hviewLeft rightFirst rightRest hviewRight hcompare ih =>
      rw [ih (sorted_splitBelow hleft _) hright, (splitBelow_eq hleft rightFirst.value).2]
      exact (overlaps_left hleft (first_isLE hviewRight hright)).symm
  | case4 left right leftFirst leftRest hviewLeft rightFirst rightRest hviewRight hcompare =>
      rw [treeList_of_viewL hviewLeft, treeList_of_viewL hviewRight]
      exact (overlaps_match hcompare).symm
  | case5 left right leftFirst leftRest hviewLeft rightFirst rightRest hviewRight hcompare ih =>
      rw [ih hleft (sorted_splitBelow hright _), (splitBelow_eq hright leftFirst.value).2]
      exact (overlaps_right hright (first_isLE hviewLeft hleft)).symm

end

/-! ## Sets -/

variable {leftSet rightSet : SortedSet a}

section

variable (hleft : Sorted leftSet.values) (hright : Sorted rightSet.values)
include hleft hright

theorem toList_union :
    toList (union leftSet rightSet) =
      SortedSets.union compare (toList leftSet) (toList rightSet) := by
  unfold union
  split
  · rename_i hnull
    have hnil : toList rightSet = [] := (null_iff rightSet).mp hnull
    rw [hnil]
    exact (merge_right _).symm
  · exact unionTrees_eq hleft hright

theorem toList_intersection :
    toList (intersection leftSet rightSet) =
      SortedSets.intersection compare (toList leftSet) (toList rightSet) :=
  intersectionTrees_eq hleft hright

theorem toList_difference :
    toList (difference leftSet rightSet) =
      SortedSets.difference compare (toList leftSet) (toList rightSet) :=
  differenceTrees_eq hleft hright

theorem toList_symmetricDifference :
    toList (symmetricDifference leftSet rightSet) =
      SortedSets.symmetricDifference compare (toList leftSet) (toList rightSet) := by
  have hunion := toList_union hleft hright
  have hintersection := toList_intersection hleft hright
  have hunionSorted : Sorted (union leftSet rightSet).values := by
    change StrictlySorted compare id (toList (union leftSet rightSet))
    rw [hunion]
    exact sorted_union hleft hright
  have hintersectionSorted : Sorted (intersection leftSet rightSet).values := by
    change StrictlySorted compare id (toList (intersection leftSet rightSet))
    rw [hintersection]
    exact sorted_intersection hleft
  rw [symmetricDifference, toList_difference hunionSorted hintersectionSorted, hunion,
    hintersection]
  exact difference_union_intersection hleft hright

theorem isSubsetOf_eq :
    isSubsetOf leftSet rightSet =
      SortedSets.isSubsetOf compare (toList leftSet) (toList rightSet) := by
  unfold isSubsetOf
  split
  · rename_i hcount
    rw [count_eq, count_eq] at hcount
    rw [eq_comm, ← Bool.not_eq_true]
    intro hsubset
    have hlength := (length_le_of_subset hleft hright hsubset).1
    exact absurd hcount (not_lt.mpr hlength)
  · exact subsetTrees_eq hleft hright

theorem isProperSubsetOf_eq :
    isProperSubsetOf leftSet rightSet =
      (SortedSets.isSubsetOf compare (toList leftSet) (toList rightSet) &&
        !SortedSets.isSubsetOf compare (toList rightSet) (toList leftSet)) := by
  rw [isProperSubsetOf, isSubsetOf_eq hleft hright, count_eq, count_eq, Bool.and_comm]
  cases hsubset : SortedSets.isSubsetOf compare (toList leftSet) (toList rightSet) with
  | false => rfl
  | true =>
      have hback := SortedSets.length_le_of_subset hleft hright hsubset
      rw [Bool.true_and, Bool.true_and, Bool.eq_iff_iff, decide_eq_true_iff, Bool.not_eq_true',
        ← Bool.not_eq_true]
      constructor
      · intro hlt hsubset'
        have hle := (SortedSets.length_le_of_subset hright hleft hsubset').1
        exact absurd hlt (not_lt.mpr hle)
      · intro hproper
        exact lt_of_le_of_ne hback.1 fun hlength => hproper (hback.2 hlength)

theorem overlaps_eq :
    overlaps leftSet rightSet = SortedSets.overlaps compare (toList leftSet) (toList rightSet) :=
  overlapsTrees_eq hleft hright

theorem setEquals_eq :
    setEquals leftSet rightSet =
      (SortedSets.isSubsetOf compare (toList leftSet) (toList rightSet) &&
        SortedSets.isSubsetOf compare (toList rightSet) (toList leftSet)) := by
  rw [setEquals, isSubsetOf_eq hleft hright, count_eq, count_eq, Bool.and_comm]
  cases hsubset : SortedSets.isSubsetOf compare (toList leftSet) (toList rightSet) with
  | false => rfl
  | true =>
      have hback := SortedSets.length_le_of_subset hleft hright hsubset
      rw [Bool.true_and, Bool.true_and, Bool.eq_iff_iff, beq_iff_eq]
      constructor
      · exact hback.2
      · intro hsubset'
        exact le_antisymm hback.1 (SortedSets.length_le_of_subset hright hleft hsubset').1

end

end

/-!
## Histories of sorted sets

Every version of every branching history shows the strictly sorted list of the model.
-/

variable {a : Type} [Ord a]

/-- One edit.  Versions are numbered in the order they were made. -/
inductive Edit (a : Type) where
  | empty
  | singleton (value : a)
  | fromList (values : List a)
  | insert (version : Nat) (value : a)
  | delete (version : Nat) (value : a)
  | slice (version : Nat) (position lengthValue : Int)
  | union (first second : Nat)
  | intersection (first second : Nat)
  | difference (first second : Nat)
  | symmetricDifference (first second : Nat)

def produce [Std.OrientedOrd a] (versions : List (SortedSet a)) :
    Edit a → Except Empty (List (SortedSet a))
  | .empty => .ok [empty]
  | .singleton value => .ok [singleton value]
  | .fromList values => .ok [fromList values]
  | .insert version value => onVersion versions version fun set => .ok [insert value set]
  | .delete version value => onVersion versions version fun set => .ok [delete value set]
  | .slice version position lengthValue => onVersion versions version fun set =>
      .ok (slice position lengthValue set).toList
  | .union first second => .ok (onPair versions first second union).toList
  | .intersection first second => .ok (onPair versions first second intersection).toList
  | .difference first second => .ok (onPair versions first second difference).toList
  | .symmetricDifference first second =>
      .ok (onPair versions first second symmetricDifference).toList

def ListModel.produce (models : List (List a)) : Edit a → Except Empty (List (List a))
  | .empty => .ok [[]]
  | .singleton value => .ok [[value]]
  | .fromList values => .ok [SortedSets.fromList compare values]
  | .insert version value => onVersion models version fun items =>
      .ok [SortedSets.insert compare value items]
  | .delete version value => onVersion models version fun items =>
      .ok [SortedSets.delete compare value items]
  | .slice version position lengthValue => onVersion models version fun items =>
      .ok (ListModel.slice position lengthValue items).toList
  | .union first second => .ok (onPair models first second (SortedSets.union compare)).toList
  | .intersection first second =>
      .ok (onPair models first second (SortedSets.intersection compare)).toList
  | .difference first second =>
      .ok (onPair models first second (SortedSets.difference compare)).toList
  | .symmetricDifference first second =>
      .ok (onPair models first second (SortedSets.symmetricDifference compare)).toList

/-! ### Refinement -/

structure Refines (set : SortedSet a) (items : List a) : Prop where
  listed : toList set = items
  sorted : StrictlySorted compare id items

variable {set : SortedSet a} {items : List a}

theorem Refines.ordered (h : Refines set items) : Sorted set.values := by
  change StrictlySorted compare id (toList set)
  rw [h.listed]
  exact h.sorted

theorem refines_empty : Refines (empty : SortedSet a) [] := ⟨treeList_empty, .nil⟩

theorem refines_singleton (value : a) : Refines (singleton value) [value] :=
  ⟨Measured.Ranked.treeList_singleton _,
    List.pairwise_singleton _ _⟩

theorem refines_slice (h : Refines set items) (position lengthValue : Int) :
    Option.Rel Refines (slice position lengthValue set)
      (ListModel.slice position lengthValue items) :=
  ListModel.slice_rel (h.listed ▸ slice_eq set position lengthValue) fun _ hsublist =>
    ⟨rfl, h.sorted.sublist hsublist⟩

variable [Std.TransOrd a]

theorem refines_insert (h : Refines set items) (value : a) :
    Refines (insert value set) (SortedSets.insert compare value items) :=
  ⟨by rw [toList_insert h.ordered, h.listed], SortedSets.sorted_insert h.sorted⟩

theorem refines_delete (h : Refines set items) (value : a) :
    Refines (delete value set) (SortedSets.delete compare value items) :=
  ⟨by rw [toList_delete h.ordered, h.listed], SortedSets.sorted_delete h.sorted⟩

theorem refines_fold (h : Refines set items) (values : List a) :
    Refines (values.foldl (fun set value => insert value set) set)
      (values.foldl (fun items value => SortedSets.insert compare value items) items) := by
  induction values generalizing set items with
  | nil => exact h
  | cons value values ih => exact ih (refines_insert h value)

theorem produce_agrees (versions : List (SortedSet a)) (models : List (List a)) (edit : Edit a)
    (h : List.Forall₂ Refines versions models) :
    Agrees (List.Forall₂ Refines) (produce versions edit) (ListModel.produce models edit) := by
  cases edit with
  | empty => exact .ok (.cons refines_empty .nil)
  | singleton value => exact .ok (.cons (refines_singleton value) .nil)
  | fromList values => exact .ok (.cons (refines_fold refines_empty values) .nil)
  | insert version value =>
      exact onVersion_agrees h version fun _ _ hrefines =>
        .ok (.cons (refines_insert hrefines value) .nil)
  | delete version value =>
      exact onVersion_agrees h version fun _ _ hrefines =>
        .ok (.cons (refines_delete hrefines value) .nil)
  | slice version position lengthValue =>
      exact onVersion_agrees h version fun _ _ hrefines =>
        .ok (toList_refines (refines_slice hrefines position lengthValue))
  | union first second =>
      exact .ok <| onPair_refines h first second fun _ _ _ _ hleft hright =>
        ⟨by rw [toList_union hleft.ordered hright.ordered, hleft.listed, hright.listed],
          SortedSets.sorted_union hleft.sorted hright.sorted⟩
  | intersection first second =>
      exact .ok <| onPair_refines h first second fun _ _ _ _ hleft hright =>
        ⟨by rw [toList_intersection hleft.ordered hright.ordered, hleft.listed, hright.listed],
          SortedSets.sorted_intersection hleft.sorted⟩
  | difference first second =>
      exact .ok <| onPair_refines h first second fun _ _ _ _ hleft hright =>
        ⟨by rw [toList_difference hleft.ordered hright.ordered, hleft.listed, hright.listed],
          SortedSets.sorted_difference hleft.sorted⟩
  | symmetricDifference first second =>
      exact .ok <| onPair_refines h first second fun _ _ _ _ hleft hright =>
        ⟨by rw [toList_symmetricDifference hleft.ordered hright.ordered, hleft.listed,
            hright.listed],
          SortedSets.sorted_symmetricDifference hleft.sorted hright.sorted⟩

/-! ### Observations -/

/-- What a version shows of its list. -/
structure Observes (set : SortedSet a) (items : List a) : Prop where
  contents : toList set = items
  ascending : StrictlySorted compare id items
  counted : count set = items.length
  isEmpty : null set = items.isEmpty
  least : minValue set = items.head?
  greatest : maxValue set = items.getLast?
  contains : ∀ value, member value set = SortedSets.holds compare items value
  floors : ∀ value, floor value set = SortedSets.floor compare value items
  ceilings : ∀ value, ceiling value set = SortedSets.ceiling compare value items
  lowers : ∀ value, lower value set = SortedSets.lower compare value items
  highers : ∀ value, higher value set = SortedSets.higher compare value items
  selects : ∀ position, index position set = elementAt position items
  ranks : ∀ value, indexOf value set = SortedSets.indexOf compare value items
  countsLess : ∀ value, countLessThan value set = (below compare id value items).length
  countsAtMost : ∀ value, countAtMost value set = (atMost compare id value items).length

theorem Refines.observes (h : Refines set items) : Observes set items := by
  obtain ⟨rfl, hsorted⟩ := h
  exact ⟨rfl, hsorted, count_eq set,
    by rw [Bool.eq_iff_iff, null_iff, List.isEmpty_iff],
    minValue_eq set, maxValue_eq set, member_eq hsorted, floor_eq hsorted, ceiling_eq hsorted,
    lower_eq hsorted, higher_eq hsorted, fun position => index_eq set position,
    indexOf_eq hsorted, countLessThan_eq hsorted, countAtMost_eq hsorted⟩

def ListModel.isProperSubsetOf (left right : List a) : Bool :=
  SortedSets.isSubsetOf compare left right && !SortedSets.isSubsetOf compare right left

def ListModel.setEquals (left right : List a) : Bool :=
  SortedSets.isSubsetOf compare left right && SortedSets.isSubsetOf compare right left

/-- What any two versions show of their two lists. -/
structure Relates (versions : List (SortedSet a)) (models : List (List a)) : Prop where
  subset : ∀ first second, onPair versions first second isSubsetOf =
    onPair models first second (SortedSets.isSubsetOf compare)
  properSubset : ∀ first second, onPair versions first second isProperSubsetOf =
    onPair models first second ListModel.isProperSubsetOf
  superset : ∀ first second, onPair versions first second isSupersetOf =
    onPair models first second fun left right => SortedSets.isSubsetOf compare right left
  properSuperset : ∀ first second, onPair versions first second isProperSupersetOf =
    onPair models first second fun left right => ListModel.isProperSubsetOf right left
  overlapping : ∀ first second, onPair versions first second overlaps =
    onPair models first second (SortedSets.overlaps compare)
  equal : ∀ first second, onPair versions first second setEquals =
    onPair models first second ListModel.setEquals

section

variable (left right : SortedSet a) (leftItems rightItems : List a) (hleft : Refines left leftItems)
  (hright : Refines right rightItems)
include hleft hright

theorem subset_of_refines :
    isSubsetOf left right = SortedSets.isSubsetOf compare leftItems rightItems := by
  rw [isSubsetOf_eq hleft.ordered hright.ordered, hleft.listed, hright.listed]

theorem properSubset_of_refines :
    isProperSubsetOf left right = ListModel.isProperSubsetOf leftItems rightItems := by
  rw [isProperSubsetOf_eq hleft.ordered hright.ordered, hleft.listed, hright.listed]
  rfl

end

theorem relates_of_refines {versions : List (SortedSet a)} {models : List (List a)}
    (h : List.Forall₂ Refines versions models) : Relates versions models where
  subset := onPair_eq h subset_of_refines
  properSubset := onPair_eq h properSubset_of_refines
  superset := onPair_eq h fun left right _ _ hleft hright =>
    subset_of_refines right left _ _ hright hleft
  properSuperset := onPair_eq h fun left right _ _ hleft hright =>
    properSubset_of_refines right left _ _ hright hleft
  overlapping := onPair_eq h fun left right _ _ hleft hright => by
    rw [overlaps_eq hleft.ordered hright.ordered, hleft.listed, hright.listed]
  equal := onPair_eq h fun left right _ _ hleft hright => by
    rw [setEquals_eq hleft.ordered hright.ordered, hleft.listed, hright.listed]
    rfl

theorem grow_refines_lists (edits : List (Edit a)) :
    List.Forall₂ Refines (grow produce [] edits) (grow ListModel.produce [] edits) :=
  grow_refines produce_agrees .nil edits

theorem grow_observes (edits : List (Edit a)) :
    List.Forall₂ Observes (grow produce [] edits) (grow ListModel.produce [] edits) :=
  (grow_refines_lists edits).imp fun _ _ h => h.observes

theorem grow_relates (edits : List (Edit a)) :
    Relates (grow produce [] edits) (grow ListModel.produce [] edits) :=
  relates_of_refines (grow_refines_lists edits)

end Durable7.FingerTree.SortedSet
