import Durable7.FingerTree.SortedSet.Algebra
import Durable7.FingerTree.SortedMap.Histories

/-!
# Sorted collections

Sorted sets and sorted maps over one order of keys.  The order may put different keys into one
class: a set keeps the key it has, a map takes the new one.
-/

namespace Durable7.FingerTree

open Foundation SortedMap

theorem sortedCollections_refine {k v : Type} [Ord k] [Std.TransOrd k] :
    (∀ edits : List (SortedSet.Edit k),
      List.Forall₂ SortedSet.Observes (grow SortedSet.produce [] edits)
        (grow SortedSet.ListModel.produce [] edits) ∧
      SortedSet.Relates (grow SortedSet.produce [] edits)
        (grow SortedSet.ListModel.produce [] edits) ∧
      ∀ edit, Agrees (List.Forall₂ SortedSet.Observes)
        (SortedSet.produce (grow SortedSet.produce [] edits) edit)
        (SortedSet.ListModel.produce (grow SortedSet.ListModel.produce [] edits) edit)) ∧
    ∀ edits : List (SortedMap.Edit k v),
      List.Forall₂ SortedMap.Observes (grow produce [] edits)
        (grow SortedMap.ListModel.produce [] edits) ∧
      ∀ edit, Agrees (List.Forall₂ SortedMap.Observes)
        (produce (grow produce [] edits) edit)
        (SortedMap.ListModel.produce (grow SortedMap.ListModel.produce [] edits) edit) := by
  refine ⟨fun edits => ⟨SortedSet.grow_observes edits, SortedSet.grow_relates edits, ?_⟩,
    fun edits => ⟨grow_observes edits, ?_⟩⟩
  · intro edit
    exact (SortedSet.produce_agrees _ _ edit (SortedSet.grow_refines_lists edits)).imp
      fun _ _ h => h.imp fun _ _ hrefines => hrefines.observes
  · intro edit
    exact (produce_agrees _ _ edit (grow_refines_lists edits)).imp
      fun _ _ h => h.imp fun _ _ hrefines => hrefines.observes

/-- A key whose order sees its number only. -/
structure Tagged where
  number : Nat
  tag : Nat

instance : Ord Tagged := ⟨fun left right => compare left.number right.number⟩

instance : Std.TransOrd Tagged where
  eq_swap {left right} := Std.OrientedOrd.eq_swap (a := left.number) (b := right.number)
  isLE_trans {left middle right} :=
    @Std.TransOrd.isLE_trans _ _ _ left.number middle.number right.number

def taggedSets : List (SortedSet.Edit Tagged) :=
  [.fromList [⟨1, 0⟩, ⟨2, 0⟩, ⟨1, 1⟩], .fromList [⟨2, 2⟩, ⟨3, 2⟩], .union 0 1,
    .symmetricDifference 0 1, .delete 2 ⟨1, 5⟩]

def taggedMaps : List (SortedMap.Edit Tagged Nat) :=
  [.fromList [(⟨1, 0⟩, 7), (⟨2, 0⟩, 8)], .insert 0 ⟨2, 1⟩ 9, .keyRange 1 ⟨2, 0⟩ ⟨4, 0⟩]

theorem sortedCollections_refine_tagged :
    List.Forall₂ SortedSet.Observes (grow SortedSet.produce [] taggedSets)
        (grow SortedSet.ListModel.produce [] taggedSets) ∧
      List.Forall₂ SortedMap.Observes (grow produce [] taggedMaps)
        (grow SortedMap.ListModel.produce [] taggedMaps) :=
  ⟨((@sortedCollections_refine Tagged Nat _ _).1 taggedSets).1,
    ((@sortedCollections_refine Tagged Nat _ _).2 taggedMaps).1⟩

end Durable7.FingerTree
