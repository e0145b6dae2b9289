import Durable7.FingerTree.IntervalTree.Refinement
import Mathlib.Data.List.Sort

/-!
# Operations on interval maps

An interval tree beside an ordered map from its intervals to their values.  The map orders by the
low and then by the high end, and the tree by the low end only.  An exception of the source is an
error here.
-/

namespace Durable7.FingerTree

open Foundation

namespace IntervalMap

variable {a : Type} [Ord a]

/-- The derived order of intervals. -/
def compareInterval (left right : Interval a) : Ordering :=
  compareLex (compareOn Interval.low) (compareOn Interval.high) left right

instance [Std.TransOrd a] : Std.TransCmp (compareInterval (a := a)) :=
  inferInstanceAs (Std.TransCmp (compareLex (compareOn Interval.low) (compareOn Interval.high)))

end IntervalMap

structure IntervalMap (a v : Type) [Ord a] [Std.TransOrd a] where
  intervals : IntervalTree a
  payloads : Std.TreeMap (Interval a) v IntervalMap.compareInterval

namespace IntervalMap

variable {a v : Type} [Ord a] [Std.TransOrd a]

def empty : IntervalMap a v := ⟨.empty, ∅⟩

def member (interval : Interval a) (map : IntervalMap a v) : Bool := map.payloads.contains interval

def lookup (interval : Interval a) (map : IntervalMap a v) : Option v := map.payloads[interval]?

def invalid (interval : Interval a) : Bool := compare interval.low interval.high == .gt

def set (interval : Interval a) (value : v) (map : IntervalMap a v) :
    Except String (IntervalMap a v) :=
  if invalid interval then .error "IntervalMap.set: invalid interval"
  else if map.payloads.contains interval then
    .ok ⟨map.intervals, map.payloads.insert interval value⟩
  else do
    let intervals ← IntervalTree.insert interval map.intervals
    .ok ⟨intervals, map.payloads.insert interval value⟩

def add (interval : Interval a) (value : v) (map : IntervalMap a v) :
    Except String (Option (IntervalMap a v)) :=
  if invalid interval then .error "IntervalMap.add: invalid interval"
  else if member interval map then .ok none
  else do
    let after ← set interval value map
    .ok (some after)

def delete (interval : Interval a) (map : IntervalMap a v) : IntervalMap a v :=
  if map.payloads.contains interval then
    ⟨IntervalTree.delete interval map.intervals, map.payloads.erase interval⟩
  else map

def attach (map : IntervalMap a v) (interval : Interval a) : Except String (Interval a × v) :=
  match map.payloads[interval]? with
  | some value => .ok (interval, value)
  | none => .error "IntervalMap indexes disagree"

def findOverlaps (probe : Interval a) (map : IntervalMap a v) :
    Except String (List (Interval a × v)) :=
  (IntervalTree.findOverlaps probe map.intervals).mapM (attach map)

def toList (map : IntervalMap a v) : List (Interval a × v) := map.payloads.toList

def validStructure (map : IntervalMap a v) : Bool :=
  IntervalTree.count map.intervals == map.payloads.size &&
    (IntervalTree.toList map.intervals).all map.payloads.contains &&
    map.payloads.keys.all fun interval => IntervalTree.contains interval map.intervals

end IntervalMap

end Durable7.FingerTree

/-!
## Interval maps with one key set

The tree holds one interval for every key of the map, and nothing else.
-/

namespace Durable7.FingerTree.IntervalMap

open Foundation List Bool
open IntervalTree (Ascending Proper meets sameInterval)

variable {a v : Type} [Ord a]

theorem compareInterval_eq_iff {left right : Interval a} :
    compareInterval left right = .eq ↔ sameInterval left right = true := by
  unfold sameInterval
  rw [and_eq_true, beq_iff_eq, beq_iff_eq]
  exact compareLex_eq_eq

theorem same_eq {left right : Interval a} :
    sameInterval left right = (compareInterval left right == .eq) := by
  rw [Bool.eq_iff_iff, ← compareInterval_eq_iff, beq_iff_eq]

variable [Std.TransOrd a]

theorem invalid_iff {interval : Interval a} : invalid interval = true ↔ ¬Proper interval := by
  rw [invalid, beq_iff_eq, Proper, IntervalTree.not_isLE, ← Std.OrientedCmp.gt_iff_lt]

/-- The intervals of the tree, in its order. -/
def treeKeys (map : IntervalMap a v) : List (Interval a) := IntervalTree.toList map.intervals

structure Valid (map : IntervalMap a v) : Prop where
  ascending : Ascending (treeKeys map)
  proper : ∀ item ∈ treeKeys map, Proper item
  distinct : (treeKeys map).Pairwise fun before after => sameInterval before after = false
  keys_eq : ∀ interval, map.payloads.contains interval =
    (treeKeys map).any fun item => sameInterval item interval
  count_eq : (treeKeys map).length = map.payloads.size

theorem empty_valid : (empty : IntervalMap a v).Valid := by
  have hnil : treeKeys (empty : IntervalMap a v) = [] := IntervalTree.treeList_empty
  refine ⟨hnil ▸ .nil, hnil ▸ forall_mem_nil _, hnil ▸ .nil, ?_, ?_⟩
  · intro interval
    rw [hnil]
    exact Std.TreeMap.contains_emptyc
  · rw [hnil]
    exact Std.TreeMap.size_emptyc.symm

section Classes

variable {left right third : Interval a}

theorem same_self (interval : Interval a) : sameInterval interval interval = true :=
  compareInterval_eq_iff.mp Std.ReflCmp.compare_self

theorem same_symm (h : sameInterval left right = true) : sameInterval right left = true :=
  compareInterval_eq_iff.mp (Std.OrientedCmp.eq_symm (compareInterval_eq_iff.mpr h))

theorem same_trans (hfirst : sameInterval left right = true)
    (hsecond : sameInterval right third = true) : sameInterval left third = true :=
  compareInterval_eq_iff.mp (Std.TransCmp.eq_trans (compareInterval_eq_iff.mpr hfirst)
    (compareInterval_eq_iff.mpr hsecond))

theorem same_swap (left right : Interval a) : sameInterval left right = sameInterval right left :=
  eq_iff_iff.mpr ⟨same_symm, same_symm⟩

theorem any_delete {items : List (Interval a)} (interval other : Interval a)
    (h : items.Pairwise fun before after => sameInterval before after = false) :
    ((IntervalTree.ListModel.delete interval items).any fun item => sameInterval item other) =
      (!sameInterval interval other && items.any fun item => sameInterval item other) := by
  change ((items.eraseP fun item => sameInterval item interval).any
    fun item => sameInterval item other) = _
  induction items with
  | nil => exact (Bool.and_false _).symm
  | cons item items ih =>
      obtain ⟨habsent, hrest⟩ := pairwise_cons.mp h
      rw [eraseP_cons, any_cons]
      cases hitem : sameInterval item interval with
      | true =>
          rw [cond_true]
          cases hother : sameInterval interval other with
          | true =>
              have hsame := same_trans hitem hother
              rw [any_eq_false.mpr]
              · rfl
              · intro next hnext hnextSame
                have hclash := habsent next hnext
                rw [same_trans hsame (same_symm hnextSame)] at hclash
                cases hclash
          | false =>
              have hne : sameInterval item other = false := by
                rw [← not_eq_true] at hother ⊢
                exact fun hsame => hother (same_trans (same_symm hitem) hsame)
              rw [hne]
              rfl
      | false =>
          rw [cond_false, any_cons, ih hrest]
          cases hsame : sameInterval item other with
          | false => rfl
          | true =>
              have hne : sameInterval interval other = false := by
                rw [← not_eq_true] at hitem ⊢
                exact fun hother => hitem (same_trans hsame (same_symm hother))
              rw [hne]
              rfl

end Classes

section Edits

variable {map : IntervalMap a v} (h : map.Valid)

include h

/-- A value is put under a key, and a new key goes to its place in the tree. -/
structure Puts (map after : IntervalMap a v) (interval : Interval a) (value : v) : Prop where
  valid : after.Valid
  payloads_eq : after.payloads = map.payloads.insert interval value
  treeKeys_eq : treeKeys after = if member interval map = true then treeKeys map
    else IntervalTree.ListModel.insert interval (treeKeys map)

theorem Valid.set_gives (interval : Interval a) (value : v) :
    (¬Proper interval ∧ set interval value map = .error "IntervalMap.set: invalid interval") ∨
    (Proper interval ∧ ∃ after, set interval value map = .ok after ∧
      Puts map after interval value) := by
  unfold set
  by_cases hproper : Proper interval
  · right
    refine ⟨hproper, ?_⟩
    rw [if_neg (fun hinvalid => invalid_iff.mp hinvalid hproper)]
    by_cases hmember : map.payloads.contains interval = true
    · rw [if_pos hmember]
      refine ⟨_, rfl, ⟨h.ascending, h.proper, h.distinct, ?_, ?_⟩, rfl, (if_pos hmember).symm⟩
      · intro other
        change (map.payloads.insert interval value).contains other = _
        rw [Std.TreeMap.contains_insert, h.keys_eq]
        have hany := hmember
        rw [h.keys_eq, any_eq_true] at hany
        obtain ⟨item, hitem, hsame⟩ := hany
        cases hother : compareInterval interval other == .eq with
        | false => rfl
        | true =>
            rw [← same_eq] at hother
            rw [Bool.true_or, eq_comm, any_eq_true]
            exact ⟨item, hitem, same_trans hsame hother⟩
      · change (treeKeys map).length = (map.payloads.insert interval value).size
        rw [Std.TreeMap.size_insert, if_pos hmember, h.count_eq]
    · rw [if_neg hmember]
      obtain ⟨intervals, hinsert, hlist⟩ := IntervalTree.toList_insert h.ascending hproper
      rw [hinsert]
      have hcut : below compare Interval.low interval.low (treeKeys map) ++
          atLeast compare Interval.low interval.low (treeKeys map) = treeKeys map :=
        IntervalTree.below_append_atLeast h.ascending interval.low
      have hperm : (IntervalTree.ListModel.insert interval (treeKeys map)).Perm
          (interval :: treeKeys map) := by
        conv_rhs => rw [← hcut]
        exact perm_middle
      have hkeys : treeKeys ⟨intervals, map.payloads.insert interval value⟩ =
          IntervalTree.ListModel.insert interval (treeKeys map) := hlist
      refine ⟨_, rfl, ⟨?_, ?_, ?_, ?_, ?_⟩, rfl, hkeys.trans (if_neg hmember).symm⟩
      · rw [hkeys]
        exact IntervalTree.ascending_insert h.ascending
      · rw [hkeys]
        exact IntervalTree.mem_insert_proper h.proper hproper
      · rw [hkeys, hperm.pairwise_iff fun hne => by rwa [same_swap] at hne]
        refine pairwise_cons.mpr ⟨?_, h.distinct⟩
        intro item hitem
        rw [← not_eq_true]
        intro hsame
        apply hmember
        rw [h.keys_eq, any_eq_true]
        exact ⟨item, hitem, same_symm hsame⟩
      · intro other
        change (map.payloads.insert interval value).contains other = _
        rw [Std.TreeMap.contains_insert, h.keys_eq, hkeys, hperm.any_eq, any_cons, same_eq]
      · change _ = (map.payloads.insert interval value).size
        rw [hkeys, hperm.length_eq, length_cons, Std.TreeMap.size_insert, if_neg hmember,
          h.count_eq]
  · exact .inl ⟨hproper, if_pos (invalid_iff.mpr hproper)⟩

theorem Valid.delete_gives (interval : Interval a) :
    (delete interval map).Valid ∧ (treeKeys (delete interval map)).Sublist (treeKeys map) := by
  unfold delete
  split
  · rename_i hmember
    have hkeys : treeKeys ⟨IntervalTree.delete interval map.intervals,
        map.payloads.erase interval⟩ =
        IntervalTree.ListModel.delete interval (treeKeys map) :=
      IntervalTree.toList_delete h.ascending interval
    have hsublist : (IntervalTree.ListModel.delete interval (treeKeys map)).Sublist
        (treeKeys map) := eraseP_sublist
    rw [hkeys]
    refine ⟨⟨?_, ?_, ?_, ?_, ?_⟩, hsublist⟩
    · rw [hkeys]
      exact h.ascending.sublist hsublist
    · rw [hkeys]
      exact fun item hitem => h.proper item (hsublist.mem hitem)
    · rw [hkeys]
      exact h.distinct.sublist hsublist
    · intro other
      rw [hkeys, any_delete interval other h.distinct, ← h.keys_eq, same_eq]
      change (map.payloads.erase interval).contains other = _
      rw [Std.TreeMap.contains_erase]
      rfl
    · change _ = (map.payloads.erase interval).size
      obtain ⟨item, hitem, hsame⟩ := any_eq_true.mp ((h.keys_eq interval).symm.trans hmember)
      have hshorter := length_eraseP_of_mem
        (p := fun item => sameInterval item interval) hitem hsame
      rw [hkeys, Std.TreeMap.size_erase, if_pos hmember, ← h.count_eq]
      exact hshorter
  · exact ⟨h, List.Sublist.refl _⟩

theorem Valid.mem_payloads {item : Interval a} (hitem : item ∈ treeKeys map) :
    ∃ value, map.payloads[item]? = some value := by
  have hmember : map.payloads.contains item = true := by
    rw [h.keys_eq, any_eq_true]
    exact ⟨item, hitem, same_self item⟩
  rw [Std.TreeMap.contains_iff_mem] at hmember
  exact ⟨_, Std.TreeMap.getElem?_eq_some_getElem hmember⟩

/-- Every interval that meets the probe is found with its value, in the order of the tree. -/
theorem Valid.findOverlaps_gives (probe : Interval a) :
    ∃ found, findOverlaps probe map = .ok found ∧
      List.Forall₂ (fun item entry => entry.1 = item ∧ map.payloads[item]? = some entry.2)
        ((treeKeys map).filter (meets probe)) found := by
  have hoverlaps : IntervalTree.findOverlaps probe map.intervals =
      (treeKeys map).filter (meets probe) := IntervalTree.findOverlaps_eq h.ascending probe
  rw [findOverlaps, hoverlaps]
  apply exists_mapM_eq_ok
  intro item hitem
  obtain ⟨value, hvalue⟩ := h.mem_payloads (mem_of_mem_filter hitem)
  refine ⟨(item, value), ?_, rfl, hvalue⟩
  rw [attach, hvalue]

theorem Valid.keys_iff {interval : Interval a} : member interval map = true ↔
    ∃ item ∈ treeKeys map, sameInterval item interval = true := by
  rw [member, h.keys_eq, any_eq_true]

theorem Valid.mem_toList {entry : Interval a × v} (hentry : entry ∈ toList map) :
    map.payloads[entry.1]? = some entry.2 ∧
      ∃ item ∈ treeKeys map, sameInterval item entry.1 = true := by
  obtain ⟨-, hvalue⟩ := Std.TreeMap.mem_toList_iff_getKey?_eq_some_and_getElem?_eq_some.mp hentry
  refine ⟨hvalue, h.keys_iff.mp ?_⟩
  rw [member, Std.TreeMap.contains_iff_mem, Std.TreeMap.mem_iff_isSome_getElem?, hvalue]
  rfl

theorem Valid.toList_of_treeKey {item : Interval a} (hitem : item ∈ treeKeys map) :
    ∃ entry ∈ toList map, sameInterval item entry.1 = true ∧
      map.payloads[item]? = some entry.2 := by
  obtain ⟨value, hvalue⟩ := h.mem_payloads hitem
  obtain ⟨key, hsame, hentry⟩ :=
    Std.TreeMap.getElem?_eq_some_iff_exists_compare_eq_eq_and_mem_toList.mp hvalue
  exact ⟨(key, value), hentry, compareInterval_eq_iff.mp hsame, hvalue⟩

theorem Valid.validStructure_eq : validStructure map = true := by
  have hcount : (IntervalTree.count map.intervals == map.payloads.size) = true := by
    rw [beq_iff_eq, IntervalTree.count_eq]
    exact h.count_eq
  have htree : (IntervalTree.toList map.intervals).all map.payloads.contains = true := by
    rw [all_eq_true]
    intro item hitem
    rw [h.keys_eq, any_eq_true]
    exact ⟨item, hitem, same_self item⟩
  have hkeys : (map.payloads.keys.all fun interval =>
      IntervalTree.contains interval map.intervals) = true := by
    rw [all_eq_true]
    intro interval hinterval
    have hmember := Std.TreeMap.contains_iff_mem.mpr (Std.TreeMap.mem_of_mem_keys hinterval)
    rw [IntervalTree.contains_eq h.ascending, ← hmember, h.keys_eq]
    rfl
  rw [validStructure, hcount, htree, hkeys]
  rfl

omit h in
theorem sorted_toList (map : IntervalMap a v) :
    StrictlySorted compareInterval Prod.fst (toList map) :=
  Std.TreeMap.ordered_keys_toList

end Edits

end Durable7.FingerTree.IntervalMap
