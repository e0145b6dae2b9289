import Durable7.FingerTree.Measured.Ranks

/-!
# Sorted maps

A measured tree of entries in ascending order of their keys.  The measure counts the
entries and remembers the last key, so a search by key is a split.
-/

namespace Durable7.FingerTree

open Foundation List

abbrev SortedMap.MapMeasure (k : Type) := Measured.Ranked Nat k

structure SortedMap.MapEntry (k v : Type) where
  key : k
  value : v

def SortedMap.entryPair {k v : Type} (entry : SortedMap.MapEntry k v) : k × v :=
  (entry.key, entry.value)

instance {k v : Type} : Measured.Ranked.Element (SortedMap.MapEntry k v) (k × v) k where
  measure entry := ⟨1, some entry.key⟩
  shown := SortedMap.entryPair
  key := Prod.fst
  measure_eq _ := rfl

structure SortedMap (k v : Type) where
  entries : Measured.ValidTree (SortedMap.MapMeasure k) (SortedMap.MapEntry k v)

namespace SortedMap

open Measured.Ranked (treeList sameClass passes splitAtLeast locateAtLeast splitAtLeast_cut
  treeList_empty treeList_cons treeList_snoc treeList_append)

variable {k v : Type}

abbrev MapTree (k v : Type) := Measured.ValidTree (MapMeasure k) (MapEntry k v)

def empty : SortedMap k v := ⟨.empty⟩

def singleton (key : k) (value : v) : SortedMap k v := ⟨.singleton ⟨key, value⟩⟩

def toList (map : SortedMap k v) : List (k × v) := treeList map.entries

def count (map : SortedMap k v) : Nat := map.entries.measure.total

def null (map : SortedMap k v) : Bool := map.entries.null

def minEntry (map : SortedMap k v) : Option (k × v) := map.entries.head.map entryPair

def maxEntry (map : SortedMap k v) : Option (k × v) := map.entries.last.map entryPair

def keys (map : SortedMap k v) : List k := (toList map).map Prod.fst

def elems (map : SortedMap k v) : List v := (toList map).map Prod.snd

def index (position : Int) (map : SortedMap k v) : Option (k × v) :=
  Measured.Ranked.index position map.entries

def slice (position lengthValue : Int) (map : SortedMap k v) : Option (SortedMap k v) :=
  (Measured.Ranked.slice position lengthValue map.entries).map SortedMap.mk

section Ordered

variable [Ord k]

def joinWithEntry (left : MapTree k v) (entry : MapEntry k v) (right : MapTree k v) : MapTree k v :=
  (left.snoc entry).append right

def member (key : k) (map : SortedMap k v) : Bool := Measured.Ranked.member key map.entries

def lookup (key : k) (map : SortedMap k v) : Option v :=
  match locateAtLeast key map.entries with
  | some (_, stored) => if sameClass stored key then some stored.value else none
  | none => none

def findWithDefault (defaultValue : v) (key : k) (map : SortedMap k v) : v :=
  (lookup key map).getD defaultValue

def insert (key : k) (value : v) (map : SortedMap k v) : SortedMap k v :=
  match splitAtLeast key map.entries with
  | none => ⟨map.entries.snoc ⟨key, value⟩⟩
  | some (left, stored, right) =>
      if sameClass stored key then ⟨joinWithEntry left ⟨key, value⟩ right⟩
      else ⟨(left.snoc ⟨key, value⟩).append (right.cons stored)⟩

def fromList (entries : List (k × v)) : SortedMap k v :=
  entries.foldl (fun stored entry => insert entry.1 entry.2 stored) empty

def insertNew (key : k) (value : v) (map : SortedMap k v) : Option (SortedMap k v) :=
  if member key map then none else some (insert key value map)

def delete (key : k) (map : SortedMap k v) : SortedMap k v :=
  ⟨Measured.Ranked.delete key map.entries⟩

def floorEntry (key : k) (map : SortedMap k v) : Option (k × v) :=
  Measured.Ranked.floor key map.entries

def ceilingEntry (key : k) (map : SortedMap k v) : Option (k × v) :=
  Measured.Ranked.ceiling key map.entries

def lowerEntry (key : k) (map : SortedMap k v) : Option (k × v) :=
  Measured.Ranked.lower key map.entries

def higherEntry (key : k) (map : SortedMap k v) : Option (k × v) :=
  Measured.Ranked.higher key map.entries

def indexOfKey (key : k) (map : SortedMap k v) : Option Nat :=
  Measured.Ranked.indexOf key map.entries

def countKeysLessThan (key : k) (map : SortedMap k v) : Nat :=
  Measured.Ranked.countLessThan key map.entries

def countKeysAtMost (key : k) (map : SortedMap k v) : Nat :=
  Measured.Ranked.countAtMost key map.entries

def keyRange (low high : k) (map : SortedMap k v) : SortedMap k v :=
  if compare low high = .gt then empty
  else
    match splitAtLeast low map.entries with
    | none => empty
    | some (_, stored, right) =>
        let fromLow := right.cons stored
        match fromLow.split (passes high) with
        | none => ⟨fromLow⟩
        | some (kept, _, _) => ⟨kept⟩

end Ordered

/-! ## Ranks -/

section

variable (map : SortedMap k v)

theorem count_eq : count map = (toList map).length := Measured.Ranked.measure_total _

theorem null_iff : null map = true ↔ toList map = [] := Measured.Ranked.null_iff _

theorem minEntry_eq : minEntry map = (toList map).head? := Measured.Ranked.head_eq _

theorem maxEntry_eq : maxEntry map = (toList map).getLast? := Measured.Ranked.last_eq _

theorem toList_empty : toList (empty : SortedMap k v) = [] := treeList_empty

theorem index_eq (position : Int) :
    index position map = elementAt position (toList map) :=
  Measured.Ranked.index_eq position map.entries

theorem slice_eq (position lengthValue : Int) :
    (slice position lengthValue map).map toList =
      ListModel.slice position lengthValue (toList map) := by
  rw [slice, Option.map_map]
  exact Measured.Ranked.slice_eq position lengthValue map.entries

end

/-! ## Searches by key -/

variable [Ord k]

/-- The entries ascend strictly. -/
def Sorted (map : SortedMap k v) : Prop := StrictlySorted compare Prod.fst (toList map)

theorem Sorted.ranked {map : SortedMap k v} (h : Sorted map) :
    Measured.Ranked.Sorted map.entries := h

/-- The entry of the class of a key. -/
def find (key : k) (map : SortedMap k v) : Option (k × v) :=
  findKey compare Prod.fst key (toList map)

theorem sorted_empty : Sorted (empty : SortedMap k v) := by
  rw [Sorted, toList_empty]
  exact .nil

theorem find_empty (key : k) : find key (empty : SortedMap k v) = none := by
  rw [find, toList_empty]
  rfl

variable [Std.TransOrd k] {map : SortedMap k v} (h : Sorted map)

include h

section

variable (key : k)

theorem member_eq : member key map = (find key map).isSome := Measured.Ranked.member_eq h.ranked key

theorem lookup_eq : lookup key map = (find key map).map Prod.snd := by
  rw [lookup, Measured.Ranked.locateAtLeast_eq, find, toList]
  rcases splitAtLeast_cut h.ranked key with ⟨hsplit, hfind, -⟩ |
    ⟨left, stored, right, hsplit, -, ⟨hsame, hfind, -⟩ | ⟨hsame, hfind, -⟩⟩
  · rw [hsplit]
    exact congrArg (Option.map Prod.snd) hfind.symm
  · rw [hsplit]
    exact (if_pos hsame).trans (congrArg (Option.map Prod.snd) hfind.symm)
  · rw [hsplit]
    exact (if_neg (by rw [hsame]; decide)).trans (congrArg (Option.map Prod.snd) hfind.symm)

theorem toList_insert (value : v) :
    toList (insert key value map) = below compare Prod.fst key (toList map) ++
      (key, value) :: above compare Prod.fst key (toList map) := by
  have happend : ∀ {front back other rest : List (k × v)}, front = other → back = rest →
      other ++ [(key, value)] ++ rest = front ++ (key, value) :: back := by
    rintro front back _ _ rfl rfl
    rw [append_assoc]
    rfl
  unfold insert
  rcases splitAtLeast_cut h.ranked key with ⟨hsplit, -, hbelow, habove⟩ |
    ⟨left, stored, right, hsplit, hbelow, ⟨hsame, -, habove⟩ | ⟨hsame, -, habove⟩⟩
  · rw [hsplit, toList, treeList_snoc, ← append_nil (_ ++ _)]
    exact happend hbelow habove
  · rw [hsplit]
    dsimp only
    rw [if_pos hsame, toList, joinWithEntry, treeList_append, treeList_snoc]
    exact happend hbelow habove
  · rw [hsplit]
    dsimp only
    rw [if_neg (by rw [hsame]; decide), toList, treeList_append, treeList_snoc, treeList_cons]
    exact happend hbelow habove

theorem sorted_insert (value : v) : Sorted (insert key value map) := by
  rw [Sorted, toList_insert h]
  exact StrictlySorted.replace h Std.ReflCmp.compare_self

theorem find_insert (value : v) (target : k) :
    find target (insert key value map) =
      if compare key target = .eq then some (key, value) else find target map := by
  have hself : compare ((key, value) : k × v).1 key = .eq := Std.ReflCmp.compare_self
  rw [find, toList_insert h]
  exact StrictlySorted.findKey_replace h hself target

theorem toList_delete :
    toList (delete key map) = below compare Prod.fst key (toList map) ++
      above compare Prod.fst key (toList map) :=
  Measured.Ranked.treeList_delete h.ranked key

theorem sorted_delete : Sorted (delete key map) := by
  rw [Sorted, toList_delete h]
  exact StrictlySorted.erase h

theorem find_delete (target : k) :
    find target (delete key map) = if compare key target = .eq then none else find target map := by
  rw [find, toList_delete h]
  exact StrictlySorted.findKey_erase h target

theorem floorEntry_eq :
    floorEntry key map = (find key map).or (below compare Prod.fst key (toList map)).getLast? :=
  Measured.Ranked.floor_eq h.ranked key

theorem floorEntry_atMost :
    floorEntry key map = (atMost compare Prod.fst key (toList map)).getLast? :=
  Measured.Ranked.floor_atMost h.ranked key

theorem ceilingEntry_eq :
    ceilingEntry key map = (find key map).or (above compare Prod.fst key (toList map)).head? :=
  Measured.Ranked.ceiling_eq h.ranked key

theorem ceilingEntry_atLeast :
    ceilingEntry key map = (atLeast compare Prod.fst key (toList map)).head? :=
  Measured.Ranked.ceiling_atLeast h.ranked key

theorem lowerEntry_eq :
    lowerEntry key map = (below compare Prod.fst key (toList map)).getLast? :=
  Measured.Ranked.lower_eq h.ranked key

theorem higherEntry_eq :
    higherEntry key map = (above compare Prod.fst key (toList map)).head? :=
  Measured.Ranked.higher_eq h.ranked key

theorem indexOfKey_eq :
    indexOfKey key map = if (find key map).isSome then
      some (below compare Prod.fst key (toList map)).length else none :=
  Measured.Ranked.indexOf_eq h.ranked key

theorem countKeysLessThan_eq :
    countKeysLessThan key map = (below compare Prod.fst key (toList map)).length :=
  Measured.Ranked.countLessThan_eq h.ranked key

theorem countKeysAtMost_eq :
    countKeysAtMost key map = (atMost compare Prod.fst key (toList map)).length :=
  Measured.Ranked.countAtMost_eq h.ranked key

end

theorem toList_keyRange (low high : k) :
    toList (keyRange low high map) =
      atMost compare Prod.fst high (atLeast compare Prod.fst low (toList map)) := by
  have hlow : StrictlySorted compare Prod.fst (atLeast compare Prod.fst low (toList map)) :=
    h.filter _
  unfold keyRange
  by_cases hinverted : compare low high = .gt
  · rw [if_pos hinverted, toList_empty, eq_comm, atMost, filter_eq_nil_iff]
    intro pair hpair
    have hge := (mem_filter.mp hpair).2
    have hle : (compare low pair.1).isLE := by
      rw [← Std.OrientedCmp.isGE_iff_isLE]
      cases hcompare : compare pair.1 low <;> simp_all
    have hgt : compare pair.1 high = .gt :=
      Std.OrientedCmp.gt_of_lt
        (Std.TransCmp.lt_of_lt_of_isLE (Std.OrientedCmp.lt_of_gt hinverted) hle)
    rw [hgt]
    decide
  rw [if_neg hinverted]
  have hfrom : ∀ {stored : MapEntry k v} {right : MapTree k v},
      entryPair stored :: treeList right = atLeast compare Prod.fst low (toList map) →
      toList (match (right.cons stored).split (passes high) with
        | none => ⟨right.cons stored⟩
        | some (kept, _, _) => ⟨kept⟩) =
        atMost compare Prod.fst high (atLeast compare Prod.fst low (toList map)) := by
    intro stored right hlist
    have htree := (treeList_cons right stored).trans hlist
    have hsorted : Sorted ⟨right.cons stored⟩ := by
      rw [Sorted, toList, htree]
      exact hlow
    rw [← htree]
    rcases Measured.Ranked.split_passes hsorted.ranked high with ⟨hsplit, -, hkept⟩ |
      ⟨kept, _, _, hsplit, -, hkept⟩
    · rw [hsplit]
      exact hkept.symm
    · rw [hsplit]
      exact hkept.symm
  rcases Measured.Ranked.splitAtLeast_parts h.ranked low with ⟨hsplit, -, hnil⟩ |
    ⟨left, stored, right, hsplit, -, hcut⟩
  · change atLeast compare Prod.fst low (toList map) = [] at hnil
    rw [hsplit, hnil, toList_empty]
    rfl
  · rw [hsplit]
    exact hfrom hcut.symm

end SortedMap

end Durable7.FingerTree
