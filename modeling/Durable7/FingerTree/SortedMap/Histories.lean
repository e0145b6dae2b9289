import Durable7.FingerTree.SortedMap
import Durable7.Foundation.Branching

/-!
# Histories of sorted maps

Every version of every branching history shows the strictly sorted list of the model.
-/

namespace Durable7.FingerTree.SortedMap

open Foundation List

variable {k v : Type} [Ord k]

/-- One edit.  Versions are numbered in the order they were made. -/
inductive Edit (k v : Type) where
  | empty
  | singleton (key : k) (value : v)
  | fromList (entries : List (k × v))
  | insert (version : Nat) (key : k) (value : v)
  | insertNew (version : Nat) (key : k) (value : v)
  | delete (version : Nat) (key : k)
  | keyRange (version : Nat) (low high : k)
  | slice (version : Nat) (position lengthValue : Int)

def produce (versions : List (SortedMap k v)) : Edit k v → Except Empty (List (SortedMap k v))
  | .empty => .ok [empty]
  | .singleton key value => .ok [singleton key value]
  | .fromList entries => .ok [fromList entries]
  | .insert version key value => onVersion versions version fun map => .ok [insert key value map]
  | .insertNew version key value => onVersion versions version fun map =>
      .ok (insertNew key value map).toList
  | .delete version key => onVersion versions version fun map => .ok [delete key map]
  | .keyRange version low high => onVersion versions version fun map => .ok [keyRange low high map]
  | .slice version position lengthValue => onVersion versions version fun map =>
      .ok (slice position lengthValue map).toList

/-! ## The model -/

/-- The newest key of a class and its value. -/
def ListModel.insert (key : k) (value : v) (entries : List (k × v)) : List (k × v) :=
  below compare Prod.fst key entries ++ (key, value) :: above compare Prod.fst key entries

def ListModel.fromList (entries : List (k × v)) : List (k × v) :=
  entries.foldl (fun stored entry => ListModel.insert entry.1 entry.2 stored) []

def ListModel.find (key : k) (entries : List (k × v)) : Option (k × v) :=
  findKey compare Prod.fst key entries

def ListModel.insertNew (key : k) (value : v) (entries : List (k × v)) : Option (List (k × v)) :=
  if (ListModel.find key entries).isSome then none else some (ListModel.insert key value entries)

def ListModel.delete (key : k) (entries : List (k × v)) : List (k × v) :=
  entries.filter fun entry => compare entry.1 key != .eq

def ListModel.keyRange (low high : k) (entries : List (k × v)) : List (k × v) :=
  entries.filter fun entry => compare entry.1 low != .lt && compare entry.1 high != .gt

def ListModel.indexOfKey (key : k) (entries : List (k × v)) : Option Nat :=
  if (ListModel.find key entries).isSome then some (below compare Prod.fst key entries).length
  else none

def ListModel.produce (models : List (List (k × v))) : Edit k v → Except Empty (List (List (k × v)))
  | .empty => .ok [[]]
  | .singleton key value => .ok [[(key, value)]]
  | .fromList entries => .ok [ListModel.fromList entries]
  | .insert version key value => onVersion models version fun entries =>
      .ok [ListModel.insert key value entries]
  | .insertNew version key value => onVersion models version fun entries =>
      .ok (ListModel.insertNew key value entries).toList
  | .delete version key => onVersion models version fun entries =>
      .ok [ListModel.delete key entries]
  | .keyRange version low high => onVersion models version fun entries =>
      .ok [ListModel.keyRange low high entries]
  | .slice version position lengthValue => onVersion models version fun entries =>
      .ok (ListModel.slice position lengthValue entries).toList

/-! ## Refinement -/

structure Refines (map : SortedMap k v) (entries : List (k × v)) : Prop where
  listed : toList map = entries
  sorted : StrictlySorted compare Prod.fst entries

variable {map : SortedMap k v} {entries : List (k × v)}

theorem Refines.ordered (h : Refines map entries) : Sorted map := by
  rw [Sorted, h.listed]
  exact h.sorted

theorem refines_empty : Refines (empty : SortedMap k v) [] := ⟨toList_empty, .nil⟩

theorem refines_singleton (key : k) (value : v) : Refines (singleton key value) [(key, value)] :=
  ⟨Measured.Ranked.treeList_singleton _, pairwise_singleton _ _⟩

theorem refines_slice (h : Refines map entries) (position lengthValue : Int) :
    Option.Rel Refines (slice position lengthValue map)
      (ListModel.slice position lengthValue entries) :=
  ListModel.slice_rel (h.listed ▸ slice_eq map position lengthValue) fun _ hsublist =>
    ⟨rfl, h.sorted.sublist hsublist⟩

variable [Std.TransOrd k]

theorem refines_insert (h : Refines map entries) (key : k) (value : v) :
    Refines (insert key value map) (ListModel.insert key value entries) := by
  have hlisted := toList_insert h.ordered key value
  have hsorted := sorted_insert h.ordered key value
  rw [h.listed] at hlisted
  rw [Sorted, hlisted] at hsorted
  exact ⟨hlisted, hsorted⟩

theorem refines_insertNew (h : Refines map entries) (key : k) (value : v) :
    Option.Rel Refines (insertNew key value map) (ListModel.insertNew key value entries) := by
  rw [insertNew, ListModel.insertNew, member_eq h.ordered, find, h.listed, ListModel.find]
  split
  · exact .none
  · exact .some (refines_insert h key value)

theorem listModel_delete (h : StrictlySorted compare Prod.fst entries) (key : k) :
    ListModel.delete key entries =
      below compare Prod.fst key entries ++ above compare Prod.fst key entries := by
  unfold ListModel.delete
  apply StrictlySorted.ext_mem (h.filter _) h.erase
  intro entry
  rw [mem_filter, mem_append, mem_below, mem_above, ← and_or_left]
  cases compare entry.1 key <;> simp

theorem refines_delete (h : Refines map entries) (key : k) :
    Refines (delete key map) (ListModel.delete key entries) := by
  rw [listModel_delete h.sorted]
  have hlisted := toList_delete h.ordered key
  have hsorted := sorted_delete h.ordered key
  rw [h.listed] at hlisted
  rw [Sorted, hlisted] at hsorted
  exact ⟨hlisted, hsorted⟩

theorem refines_keyRange (h : Refines map entries) (low high : k) :
    Refines (keyRange low high map) (ListModel.keyRange low high entries) := by
  refine ⟨?_, h.sorted.filter _⟩
  rw [toList_keyRange h.ordered, h.listed, atMost, atLeast, filter_filter]
  exact filter_congr fun _ _ => Bool.and_comm _ _

theorem refines_fold (h : Refines map entries) (added : List (k × v)) :
    Refines (added.foldl (fun stored entry => insert entry.1 entry.2 stored) map)
      (added.foldl (fun stored entry => ListModel.insert entry.1 entry.2 stored) entries) := by
  induction added generalizing map entries with
  | nil => exact h
  | cons entry added ih => exact ih (refines_insert h entry.1 entry.2)

theorem produce_agrees (versions : List (SortedMap k v)) (models : List (List (k × v)))
    (edit : Edit k v) (h : List.Forall₂ Refines versions models) :
    Agrees (List.Forall₂ Refines) (produce versions edit) (ListModel.produce models edit) := by
  cases edit with
  | empty => exact .ok (.cons refines_empty .nil)
  | singleton key value => exact .ok (.cons (refines_singleton key value) .nil)
  | fromList entries => exact .ok (.cons (refines_fold refines_empty entries) .nil)
  | insert version key value =>
      exact onVersion_agrees h version fun _ _ hrefines =>
        .ok (.cons (refines_insert hrefines key value) .nil)
  | insertNew version key value =>
      exact onVersion_agrees h version fun _ _ hrefines =>
        .ok (toList_refines (refines_insertNew hrefines key value))
  | delete version key =>
      exact onVersion_agrees h version fun _ _ hrefines =>
        .ok (.cons (refines_delete hrefines key) .nil)
  | keyRange version low high =>
      exact onVersion_agrees h version fun _ _ hrefines =>
        .ok (.cons (refines_keyRange hrefines low high) .nil)
  | slice version position lengthValue =>
      exact onVersion_agrees h version fun _ _ hrefines =>
        .ok (toList_refines (refines_slice hrefines position lengthValue))

/-- What a version shows of its list. -/
structure Observes (map : SortedMap k v) (entries : List (k × v)) : Prop where
  contents : toList map = entries
  ascending : StrictlySorted compare Prod.fst entries
  keyList : keys map = entries.map Prod.fst
  valueList : elems map = entries.map Prod.snd
  counted : count map = entries.length
  isEmpty : null map = entries.isEmpty
  least : minEntry map = entries.head?
  greatest : maxEntry map = entries.getLast?
  contains : ∀ key, member key map = (ListModel.find key entries).isSome
  looksUp : ∀ key, lookup key map = (ListModel.find key entries).map Prod.snd
  defaults : ∀ defaultValue key, findWithDefault defaultValue key map =
    ((ListModel.find key entries).map Prod.snd).getD defaultValue
  floors : ∀ key, floorEntry key map = (atMost compare Prod.fst key entries).getLast?
  ceilings : ∀ key, ceilingEntry key map = (atLeast compare Prod.fst key entries).head?
  lowers : ∀ key, lowerEntry key map = (below compare Prod.fst key entries).getLast?
  highers : ∀ key, higherEntry key map = (above compare Prod.fst key entries).head?
  selects : ∀ position, index position map = elementAt position entries
  ranks : ∀ key, indexOfKey key map = ListModel.indexOfKey key entries
  countsLess : ∀ key, countKeysLessThan key map = (below compare Prod.fst key entries).length
  countsAtMost : ∀ key, countKeysAtMost key map = (atMost compare Prod.fst key entries).length

theorem Refines.observes (h : Refines map entries) : Observes map entries := by
  obtain ⟨rfl, hsorted⟩ := h
  refine ⟨rfl, hsorted, rfl, rfl, count_eq map, ?_, minEntry_eq map, maxEntry_eq map,
    member_eq hsorted, lookup_eq hsorted, ?_, floorEntry_atMost hsorted,
    ceilingEntry_atLeast hsorted, lowerEntry_eq hsorted, higherEntry_eq hsorted, index_eq map,
    indexOfKey_eq hsorted, countKeysLessThan_eq hsorted, countKeysAtMost_eq hsorted⟩
  · rw [Bool.eq_iff_iff, null_iff, List.isEmpty_iff]
  · intro defaultValue key
    rw [findWithDefault, lookup_eq hsorted]
    rfl

theorem grow_refines_lists (edits : List (Edit k v)) :
    List.Forall₂ Refines (grow produce [] edits) (grow ListModel.produce [] edits) :=
  grow_refines produce_agrees .nil edits

theorem grow_observes (edits : List (Edit k v)) :
    List.Forall₂ Observes (grow produce [] edits) (grow ListModel.produce [] edits) :=
  (grow_refines_lists edits).imp fun _ _ h => h.observes

end Durable7.FingerTree.SortedMap
