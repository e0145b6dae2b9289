import Durable7.FingerTree.Measured.Ranks
import Durable7.Foundation.SortedSets

/-!
# Sorted sets

A measured tree of elements in ascending order.  The measure counts the elements and remembers
the last one.  The set algebra adopts whole runs of one operand between splits at the other's
first element.
-/

namespace Durable7.FingerTree

open Foundation List Nat

abbrev SortedSet.SetMeasure (a : Type) := Measured.Ranked Nat a

structure SortedSet.SetElement (a : Type) where
  value : a

instance {a : Type} : Measured.Ranked.Element (SortedSet.SetElement a) a a where
  measure element := ⟨1, some element.value⟩
  shown := SortedSet.SetElement.value
  key := id
  measure_eq _ := rfl

structure SortedSet (a : Type) where
  values : Measured.ValidTree (SortedSet.SetMeasure a) (SortedSet.SetElement a)

namespace SortedSet

open Measured.Ranked (treeList sameClass reaches splitAtLeast)

variable {a : Type}

abbrev SetTree (a : Type) := Measured.ValidTree (SetMeasure a) (SetElement a)

def empty : SortedSet a := ⟨.empty⟩

def singleton (value : a) : SortedSet a := ⟨.singleton ⟨value⟩⟩

def toList (set : SortedSet a) : List a := treeList set.values

def count (set : SortedSet a) : Nat := set.values.measure.total

def null (set : SortedSet a) : Bool := set.values.null

def minValue (set : SortedSet a) : Option a := set.values.head.map SetElement.value

def maxValue (set : SortedSet a) : Option a := set.values.last.map SetElement.value

def slice (position lengthValue : Int) (set : SortedSet a) : Option (SortedSet a) :=
  (Measured.Ranked.slice position lengthValue set.values).map SortedSet.mk

def index (position : Int) (set : SortedSet a) : Option a :=
  Measured.Ranked.index position set.values

section Ordered

variable [Ord a]

def member (value : a) (set : SortedSet a) : Bool := Measured.Ranked.member value set.values

def insert (value : a) (set : SortedSet a) : SortedSet a :=
  match splitAtLeast value set.values with
  | none => ⟨set.values.snoc ⟨value⟩⟩
  | some (left, stored, right) =>
      if sameClass stored value then set
      else ⟨(left.snoc ⟨value⟩).append (right.cons stored)⟩

def fromList (values : List a) : SortedSet a :=
  values.foldl (fun set value => insert value set) empty

def delete (value : a) (set : SortedSet a) : SortedSet a :=
  ⟨Measured.Ranked.delete value set.values⟩

def floor (value : a) (set : SortedSet a) : Option a := Measured.Ranked.floor value set.values

def ceiling (value : a) (set : SortedSet a) : Option a := Measured.Ranked.ceiling value set.values

def lower (value : a) (set : SortedSet a) : Option a := Measured.Ranked.lower value set.values

def higher (value : a) (set : SortedSet a) : Option a := Measured.Ranked.higher value set.values

def indexOf (value : a) (set : SortedSet a) : Option Nat := Measured.Ranked.indexOf value set.values

def countLessThan (value : a) (set : SortedSet a) : Nat :=
  Measured.Ranked.countLessThan value set.values

def countAtMost (value : a) (set : SortedSet a) : Nat :=
  Measured.Ranked.countAtMost value set.values

def splitBelow (value : a) (values : SetTree a) : SetTree a × SetTree a :=
  match splitAtLeast value values with
  | none => (values, .empty)
  | some (below, stored, rest) => (below, rest.cons stored)

/-! ## Set algebra -/

variable {first : SetElement a}

theorem splitBelow_shorter {value : a} {values : SetTree a}
    {rest : SetTree a} (hview : values.viewL = some (first, rest))
    (hless : compare first.value value = .lt) :
    (splitBelow value values).2.toList.length < values.toList.length := by
  have hlist := Measured.ValidTree.toList_of_viewL hview
  rw [splitBelow, splitAtLeast]
  rcases values.split_cases (reaches value) with ⟨left, stored, right, hsplit, hflips⟩ | ⟨hsplit, -⟩
  · rw [hsplit]
    dsimp only
    have hvalues := hflips.values_eq
    have hreached := hflips.reached
    rw [Measured.ValidTree.toList_cons, hvalues, length_append]
    cases hleft : left.toList with
    | nil =>
        rw [hleft, hlist, nil_append, List.cons.injEq] at hvalues
        rw [hleft, Measured.foldMeasure_nil, one_mul, ← hvalues.1] at hreached
        change (compare first.value value != .lt) = true at hreached
        rw [hless] at hreached
        cases hreached
    | cons other others =>
        rw [length_cons, length_cons]
        omega
  · rw [hsplit, hlist]
    dsimp only
    rw [Measured.ValidTree.toList_empty]
    exact zero_lt_succ _

theorem splitBelow_shorter_gt [Std.OrientedOrd a] {value other : a} {values : SetTree a}
    {rest : SetTree a} (hview : values.viewL = some (first, rest)) (hvalue : first.value = other)
    (hgreater : compare value other = .gt) :
    (splitBelow value values).2.toList.length < values.toList.length :=
  splitBelow_shorter hview (by rw [hvalue]; exact Std.OrientedCmp.lt_of_gt hgreater)

def unionTrees [Std.OrientedOrd a] (left right : SetTree a) : SetTree a :=
  match _hleft : left.viewL with
  | none => right
  | some (leftFirst, _) =>
      match _hright : right.viewL with
      | none => left
      | some (rightFirst, rightRest) =>
          match _hcompare : compare leftFirst.value rightFirst.value with
          | .lt =>
              (splitBelow rightFirst.value left).1.append
                (unionTrees (splitBelow rightFirst.value left).2 right)
          | .eq => unionTrees left rightRest
          | .gt =>
              (splitBelow leftFirst.value right).1.append
                (unionTrees left (splitBelow leftFirst.value right).2)
termination_by left.toList.length + right.toList.length
decreasing_by
  · have := splitBelow_shorter _hleft _hcompare
    omega
  · have := Measured.ValidTree.viewL_shorter _hright
    omega
  · have := splitBelow_shorter_gt _hright rfl _hcompare
    omega

def intersectionTrees [Std.OrientedOrd a] (left right : SetTree a) : SetTree a :=
  match _hleft : left.viewL with
  | none => .empty
  | some (leftFirst, leftRest) =>
      match _hright : right.viewL with
      | none => .empty
      | some (rightFirst, rightRest) =>
          match _hcompare : compare leftFirst.value rightFirst.value with
          | .lt => intersectionTrees (splitBelow rightFirst.value left).2 right
          | .eq => (intersectionTrees leftRest rightRest).cons leftFirst
          | .gt => intersectionTrees left (splitBelow leftFirst.value right).2
termination_by left.toList.length + right.toList.length
decreasing_by
  · have := splitBelow_shorter _hleft _hcompare
    omega
  · have := Measured.ValidTree.viewL_shorter _hleft
    have := Measured.ValidTree.viewL_shorter _hright
    omega
  · have := splitBelow_shorter_gt _hright rfl _hcompare
    omega

def differenceTrees [Std.OrientedOrd a] (left right : SetTree a) : SetTree a :=
  match _hleft : left.viewL with
  | none => .empty
  | some (leftFirst, leftRest) =>
      match _hright : right.viewL with
      | none => left
      | some (rightFirst, rightRest) =>
          match _hcompare : compare leftFirst.value rightFirst.value with
          | .lt =>
              (splitBelow rightFirst.value left).1.append
                (differenceTrees (splitBelow rightFirst.value left).2 right)
          | .eq => differenceTrees leftRest rightRest
          | .gt => differenceTrees left (splitBelow leftFirst.value right).2
termination_by left.toList.length + right.toList.length
decreasing_by
  · have := splitBelow_shorter _hleft _hcompare
    omega
  · have := Measured.ValidTree.viewL_shorter _hleft
    have := Measured.ValidTree.viewL_shorter _hright
    omega
  · have := splitBelow_shorter_gt _hright rfl _hcompare
    omega

def subsetTrees (left right : SetTree a) : Bool :=
  match _hleft : left.viewL with
  | none => true
  | some (leftFirst, leftRest) =>
      match splitAtLeast leftFirst.value right with
      | none => false
      | some (_, stored, rightRest) =>
          if sameClass stored leftFirst.value then subsetTrees leftRest rightRest else false
termination_by left.toList.length
decreasing_by exact Measured.ValidTree.viewL_shorter _hleft

def overlapsTrees [Std.OrientedOrd a] (left right : SetTree a) : Bool :=
  match _hleft : left.viewL with
  | none => false
  | some (leftFirst, _) =>
      match _hright : right.viewL with
      | none => false
      | some (rightFirst, _) =>
          match _hcompare : compare leftFirst.value rightFirst.value with
          | .lt => overlapsTrees (splitBelow rightFirst.value left).2 right
          | .eq => true
          | .gt => overlapsTrees left (splitBelow leftFirst.value right).2
termination_by left.toList.length + right.toList.length
decreasing_by
  · have := splitBelow_shorter _hleft _hcompare
    omega
  · have := splitBelow_shorter_gt _hright rfl _hcompare
    omega

def union [Std.OrientedOrd a] (left right : SortedSet a) : SortedSet a :=
  if right.values.null then left else ⟨unionTrees left.values right.values⟩

def intersection [Std.OrientedOrd a] (left right : SortedSet a) : SortedSet a :=
  ⟨intersectionTrees left.values right.values⟩

def difference [Std.OrientedOrd a] (left right : SortedSet a) : SortedSet a :=
  ⟨differenceTrees left.values right.values⟩

def symmetricDifference [Std.OrientedOrd a] (left right : SortedSet a) : SortedSet a :=
  difference (union left right) (intersection left right)

def isSubsetOf (left right : SortedSet a) : Bool :=
  if count left > count right then false else subsetTrees left.values right.values

def isProperSubsetOf (left right : SortedSet a) : Bool :=
  decide (count left < count right) && isSubsetOf left right

def isSupersetOf (left right : SortedSet a) : Bool := isSubsetOf right left

def isProperSupersetOf (left right : SortedSet a) : Bool := isProperSubsetOf right left

def overlaps [Std.OrientedOrd a] (left right : SortedSet a) : Bool :=
  overlapsTrees left.values right.values

def setEquals (left right : SortedSet a) : Bool :=
  count left == count right && isSubsetOf left right

end Ordered

end SortedSet

end Durable7.FingerTree

/-!
## Sorted sets as sorted lists

Each search and each edit of one set against the strictly sorted list of its elements.
-/

namespace Durable7.FingerTree.SortedSet

open Foundation List
open Measured.Ranked (treeList sameClass splitAtLeast Sorted treeList_append treeList_cons
  treeList_snoc)

variable {a : Type}

section

variable (set : SortedSet a)

theorem count_eq : count set = (toList set).length := Measured.Ranked.measure_total _

theorem null_iff : null set = true ↔ toList set = [] := Measured.Ranked.null_iff _

theorem minValue_eq : minValue set = (toList set).head? := Measured.Ranked.head_eq _

theorem maxValue_eq : maxValue set = (toList set).getLast? := Measured.Ranked.last_eq _

theorem slice_eq (position lengthValue : Int) :
    (slice position lengthValue set).map toList =
      ListModel.slice position lengthValue (toList set) := by
  rw [slice, Option.map_map]
  exact Measured.Ranked.slice_eq position lengthValue set.values

theorem index_eq (position : Int) :
    index position set = elementAt position (toList set) :=
  Measured.Ranked.index_eq position set.values

end

/-! ### Searches -/

variable [Ord a] [Std.TransOrd a]

theorem splitAtLeast_cut {tree : SetTree a} (h : Sorted tree) (value : a) :
    (splitAtLeast value tree = none ∧ findKey compare id value (treeList tree) = none ∧
      below compare id value (treeList tree) = treeList tree ∧
      above compare id value (treeList tree) = []) ∨
    ∃ left stored right, splitAtLeast value tree = some (left, stored, right) ∧
      below compare id value (treeList tree) = treeList left ∧
      ((sameClass stored value = true ∧
        findKey compare id value (treeList tree) = some stored.value ∧
        above compare id value (treeList tree) = treeList right) ∨
      (sameClass stored value = false ∧ findKey compare id value (treeList tree) = none ∧
        above compare id value (treeList tree) = stored.value :: treeList right)) :=
  Measured.Ranked.splitAtLeast_cut h value

variable {set : SortedSet a} (h : Sorted set.values) (value : a)

include h

theorem member_eq : member value set = SortedSets.holds compare (toList set) value :=
  Measured.Ranked.member_eq h value

theorem toList_insert :
    toList (insert value set) = SortedSets.insert compare value (toList set) := by
  unfold insert SortedSets.insert SortedSets.holds
  rcases splitAtLeast_cut h value with ⟨hsplit, hfind, hbelow, habove⟩ |
    ⟨left, stored, right, hsplit, hbelow, ⟨hsame, hfind, habove⟩ | ⟨hsame, hfind, habove⟩⟩
  · rw [hsplit, toList, toList, hfind, hbelow, habove, treeList_snoc]
    rfl
  · rw [hsplit, toList, toList, hfind]
    dsimp only
    rw [if_pos hsame]
    rfl
  · rw [hsplit, toList, toList, hfind, hbelow, habove]
    dsimp only
    rw [if_neg (by rw [hsame]; decide), treeList_append, treeList_snoc, treeList_cons, append_assoc]
    rfl

theorem toList_delete :
    toList (delete value set) = SortedSets.delete compare value (toList set) :=
  (Measured.Ranked.treeList_delete h value).trans (SortedSets.delete_eq h).symm

theorem floor_eq : floor value set = SortedSets.floor compare value (toList set) :=
  Measured.Ranked.floor_atMost h value

theorem ceiling_eq : ceiling value set = SortedSets.ceiling compare value (toList set) :=
  Measured.Ranked.ceiling_atLeast h value

theorem lower_eq : lower value set = SortedSets.lower compare value (toList set) :=
  Measured.Ranked.lower_eq h value

theorem higher_eq : higher value set = SortedSets.higher compare value (toList set) :=
  Measured.Ranked.higher_eq h value

theorem indexOf_eq : indexOf value set = SortedSets.indexOf compare value (toList set) :=
  Measured.Ranked.indexOf_eq h value

theorem countLessThan_eq :
    countLessThan value set = (below compare id value (toList set)).length :=
  Measured.Ranked.countLessThan_eq h value

theorem countAtMost_eq : countAtMost value set = (atMost compare id value (toList set)).length :=
  Measured.Ranked.countAtMost_eq h value

end Durable7.FingerTree.SortedSet
