import Durable7.Foundation.Cuts
import Mathlib.Data.List.Sort
import Mathlib.Data.List.Induction

/-!
# Sets as strictly sorted lists

A list with one item for each class of a comparer, in ascending order.  The algebra keeps the
items of the left operand.
-/

namespace Durable7.Foundation.SortedSets

open List Std.TransCmp Std.OrientedCmp
open Bool hiding or_assoc

universe u

variable {α : Type u} (compare : α → α → Ordering)

def holds (items : List α) (target : α) : Bool := (findKey compare id target items).isSome

/-- A class that is there keeps its item. -/
def insert (value : α) (items : List α) : List α :=
  if holds compare items value then items
  else below compare id value items ++ value :: above compare id value items

/-- The first of equal values stays. -/
def fromList (values : List α) : List α :=
  values.foldl (fun items value => insert compare value items) []

def delete (value : α) (items : List α) : List α :=
  items.filter fun item => compare item value != .eq

def intersection (left right : List α) : List α := left.filter (holds compare right)

def difference (left right : List α) : List α := left.filter fun item => !holds compare right item

def union (left right : List α) : List α :=
  List.merge left (difference compare right left) fun item other => (compare item other).isLE

def symmetricDifference (left right : List α) : List α :=
  List.merge (difference compare left right) (difference compare right left)
    fun item other => (compare item other).isLE

def isSubsetOf (left right : List α) : Bool := left.all (holds compare right)

def overlaps (left right : List α) : Bool := left.any (holds compare right)

/-! ## Navigation -/

def floor (target : α) (items : List α) : Option α := (atMost compare id target items).getLast?

def ceiling (target : α) (items : List α) : Option α := (atLeast compare id target items).head?

def lower (target : α) (items : List α) : Option α := (below compare id target items).getLast?

def higher (target : α) (items : List α) : Option α := (above compare id target items).head?

def indexOf (target : α) (items : List α) : Option Nat :=
  if holds compare items target then some (below compare id target items).length else none

section Lawful

variable {compare} {left right items : List α} {item value target : α}

theorem holds_iff :
    holds compare items target = true ↔ ∃ item ∈ items, compare item target = .eq := by
  rw [holds, Option.isSome_iff_ne_none, Ne, findKey_eq_none]
  simp

theorem holds_eq_false : holds compare items target = false ↔
    ∀ item ∈ items, compare item target ≠ .eq := by
  rw [← not_eq_true, holds_iff]
  simp

theorem holds_append : holds compare (left ++ right) target =
    (holds compare left target || holds compare right target) := by
  rw [holds, holds, holds, findKey_append]
  cases findKey compare id target left <;> rfl

theorem fromList_append :
    fromList compare (left ++ right) =
      right.foldl (fun items value => insert compare value items) (fromList compare left) :=
  foldl_append

/-- Values whose classes are there change nothing. -/
theorem foldl_insert_held (h : ∀ value ∈ right, holds compare items value = true) :
    right.foldl (fun items value => insert compare value items) items = items := by
  induction right with
  | nil => rfl
  | cons value right ih =>
      rw [forall_mem_cons] at h
      rw [foldl_cons, insert, if_pos h.1]
      exact ih h.2

theorem insert_last (h : ∀ item ∈ items, compare item value = .lt) :
    insert compare value items = items ++ [value] := by
  have hheld : ¬ holds compare items value = true := by
    rw [not_eq_true, holds_eq_false]
    intro item hitem
    rw [h item hitem]
    decide
  have habove : above compare id value items = [] := by
    apply above_nil
    intro item hitem
    rw [id, h item hitem]
    decide
  have hbelow : below compare id value items = items := below_self h
  rw [insert, if_neg hheld, hbelow, habove]

theorem mem_intersection :
    item ∈ intersection compare left right ↔ item ∈ left ∧ holds compare right item = true :=
  mem_filter

theorem mem_difference :
    item ∈ difference compare left right ↔ item ∈ left ∧ holds compare right item = false := by
  rw [difference, mem_filter, not_eq_true']

theorem mem_union :
    item ∈ union compare left right ↔
      item ∈ left ∨ item ∈ right ∧ holds compare left item = false := by
  rw [union, mem_merge, mem_difference]

theorem mem_symmetricDifference :
    item ∈ symmetricDifference compare left right ↔
      item ∈ left ∧ holds compare right item = false ∨
        item ∈ right ∧ holds compare left item = false := by
  rw [symmetricDifference, mem_merge, mem_difference, mem_difference]

theorem sorted_delete (h : StrictlySorted compare id items) :
    StrictlySorted compare id (delete compare value items) := h.filter _

theorem sorted_intersection (h : StrictlySorted compare id left) :
    StrictlySorted compare id (intersection compare left right) := h.filter _

theorem sorted_difference (h : StrictlySorted compare id left) :
    StrictlySorted compare id (difference compare left right) := h.filter _

variable [Std.TransCmp compare]

theorem holds_congr {other : α} (h : compare target other = .eq) :
    holds compare items target = holds compare items other := by
  rw [holds, holds, findKey_congr h]

/-- Two sorted lists without a common class merge into a sorted list. -/
theorem sorted_merge (hleft : StrictlySorted compare id left)
    (hright : StrictlySorted compare id right)
    (happart : ∀ item ∈ left, ∀ other ∈ right, compare item other ≠ .eq) :
    StrictlySorted compare id
      (List.merge left right fun item other => (compare item other).isLE) := by
  induction left generalizing right with
  | nil => rwa [nil_merge]
  | cons first rest ih =>
      induction right with
      | nil => rwa [merge_right]
      | cons head tail ihtail =>
          rw [StrictlySorted, pairwise_cons] at hleft hright
          have hne := happart first mem_cons_self head mem_cons_self
          rw [cons_merge_cons]
          cases hcompare : compare first head with
          | eq => exact absurd hcompare hne
          | lt =>
              rw [if_pos (by rfl), StrictlySorted, pairwise_cons]
              refine ⟨?_, ih hleft.2 (pairwise_cons.mpr hright)
                fun item hitem => happart item (mem_cons_of_mem _ hitem)⟩
              intro item hitem
              rcases mem_merge.mp hitem with hitem | hitem
              · exact hleft.1 item hitem
              · rcases mem_cons.mp hitem with rfl | hitem
                · exact hcompare
                · exact lt_trans hcompare (hright.1 item hitem)
          | gt =>
              have hless := lt_of_gt hcompare
              rw [if_neg (by decide), StrictlySorted, pairwise_cons]
              refine ⟨?_, ihtail hright.2
                fun item hitem other hother => happart item hitem other (mem_cons_of_mem _ hother)⟩
              intro item hitem
              rcases mem_merge.mp hitem with hitem | hitem
              · rcases mem_cons.mp hitem with rfl | hitem
                · exact hless
                · exact lt_trans hless (hleft.1 item hitem)
              · exact hright.1 item hitem

theorem sorted_insert (h : StrictlySorted compare id items) :
    StrictlySorted compare id (insert compare value items) := by
  unfold insert
  split
  · exact h
  · exact h.replace Std.ReflCmp.compare_self

theorem sorted_union (hleft : StrictlySorted compare id left)
    (hright : StrictlySorted compare id right) :
    StrictlySorted compare id (union compare left right) := by
  apply sorted_merge hleft (sorted_difference hright)
  intro item hitem other hother
  exact holds_eq_false.mp (mem_difference.mp hother).2 item hitem

theorem sorted_symmetricDifference (hleft : StrictlySorted compare id left)
    (hright : StrictlySorted compare id right) :
    StrictlySorted compare id (symmetricDifference compare left right) := by
  apply sorted_merge (sorted_difference hleft) (sorted_difference hright)
  intro item hitem other hother
  exact holds_eq_false.mp (mem_difference.mp hother).2 item (mem_difference.mp hitem).1

section

variable (h : StrictlySorted compare id items)
include h

theorem delete_eq :
    delete compare value items = below compare id value items ++ above compare id value items := by
  apply (sorted_delete h).ext_mem h.erase
  intro item
  rw [delete, mem_filter, mem_append, mem_below, mem_above, ← and_or_left, id]
  cases compare item value <;> simp

end

/-- The symmetric difference is the union without the intersection. -/
theorem difference_union_intersection (hleft : StrictlySorted compare id left)
    (hright : StrictlySorted compare id right) :
    difference compare (union compare left right) (intersection compare left right) =
      symmetricDifference compare left right := by
  apply (sorted_difference (sorted_union hleft hright)).ext_mem
    (sorted_symmetricDifference hleft hright)
  intro item
  have hself : compare item item = .eq := Std.ReflCmp.compare_self
  have hcommon : holds compare (intersection compare left right) item = true ↔
      holds compare left item = true ∧ holds compare right item = true := by
    rw [holds_iff, holds_iff]
    constructor
    · rintro ⟨other, hother, hsame⟩
      obtain ⟨hmem, hholds⟩ := mem_intersection.mp hother
      exact ⟨⟨other, hmem, hsame⟩, (holds_congr hsame).symm.trans hholds⟩
    · rintro ⟨⟨other, hmem, hsame⟩, hholds⟩
      exact ⟨other, mem_intersection.mpr ⟨hmem, (holds_congr hsame).trans hholds⟩, hsame⟩
  have hown : ∀ {items : List α}, item ∈ items → holds compare items item = true :=
    fun hmem => holds_iff.mpr ⟨item, hmem, hself⟩
  have hapart : holds compare (intersection compare left right) item = false ↔
      ¬ (holds compare left item = true ∧ holds compare right item = true) := by
    rw [← hcommon, not_eq_true]
  rw [mem_difference, mem_union, mem_symmetricDifference, hapart]
  constructor
  · rintro ⟨hmem | ⟨hmem, habsent⟩, hnot⟩
    · refine .inl ⟨hmem, ?_⟩
      exact eq_false_of_ne_true fun hpresent => hnot ⟨hown hmem, hpresent⟩
    · exact .inr ⟨hmem, habsent⟩
  · rintro (⟨hmem, habsent⟩ | ⟨hmem, habsent⟩)
    · exact ⟨.inl hmem, fun hboth => by rw [habsent] at hboth; cases hboth.2⟩
    · exact ⟨.inr ⟨hmem, habsent⟩, fun hboth => by rw [habsent] at hboth; cases hboth.1⟩

/-! ## Runs -/

/-- What a class cuts off a sorted list, and the rest. -/
theorem below_append_atLeast (h : StrictlySorted compare id items) (target : α) :
    items = below compare id target items ++ atLeast compare id target items := by
  rw [h.atLeast_eq, ← append_assoc]
  exact h.cut target

omit [Std.TransCmp compare] in
theorem sorted_atLeast (h : StrictlySorted compare id items) :
    StrictlySorted compare id (atLeast compare id target items) := h.filter _

/-- Classes below a target do not hold it. -/
theorem holds_below (h : (compare target item).isLE) :
    holds compare (below compare id target items) item = false := by
  rw [holds_eq_false]
  intro other hother hsame
  have hlt := lt_of_lt_of_isLE (mem_below.mp hother).2 h
  rw [id] at hlt
  rw [hlt] at hsame
  cases hsame

theorem holds_atLeast (hitems : StrictlySorted compare id items) (h : (compare target item).isLE) :
    holds compare (atLeast compare id target items) item = holds compare items item := by
  conv_rhs => rw [below_append_atLeast hitems target]
  rw [holds_append, holds_below h, Bool.false_or]

/-- A class below a sorted list is not in it. -/
theorem holds_of_lt (h : ∀ other ∈ items, (compare target other).isLE)
    (hitem : compare item target = .lt) : holds compare items item = false := by
  rw [holds_eq_false]
  intro other hother hsame
  have hlt := lt_of_lt_of_isLE hitem (h other hother)
  rw [gt_of_lt hlt] at hsame
  cases hsame

theorem head_isLE (h : StrictlySorted compare id (item :: items)) :
    ∀ other ∈ item :: items, (compare item other).isLE := by
  intro other hother
  rcases mem_cons.mp hother with rfl | hother
  · exact Std.ReflCmp.isLE_rfl
  · rw [show compare item other = .lt from (pairwise_cons.mp h).1 other hother]
    rfl

section Runs

variable (hleft : StrictlySorted compare id left) (hright : StrictlySorted compare id right)

include hleft

section

variable (h : ∀ other ∈ right, (compare target other).isLE)
include h

theorem intersection_left :
    intersection compare left right =
      intersection compare (atLeast compare id target left) right := by
  conv_lhs => rw [below_append_atLeast hleft target]
  rw [intersection, filter_append, filter_eq_nil_iff.mpr, nil_append]
  · rfl
  · intro item hitem
    rw [@holds_of_lt _ _ right item target _ h (mem_below.mp hitem).2]
    decide

theorem difference_left :
    difference compare left right = below compare id target left ++
      difference compare (atLeast compare id target left) right := by
  conv_lhs => rw [below_append_atLeast hleft target]
  rw [difference, filter_append]
  congr 1
  apply filter_eq_self.mpr
  intro item hitem
  rw [@holds_of_lt _ _ right item target _ h (mem_below.mp hitem).2]
  rfl

theorem overlaps_left :
    overlaps compare left right = overlaps compare (atLeast compare id target left) right := by
  conv_lhs => rw [below_append_atLeast hleft target]
  rw [overlaps, any_append, any_eq_false.mpr, Bool.false_or]
  · rfl
  · intro item hitem
    rw [@holds_of_lt _ _ right item target _ h (mem_below.mp hitem).2]
    decide

end

include hright

theorem union_left (h : ∀ other ∈ right, (compare target other).isLE) :
    union compare left right = below compare id target left ++
      union compare (atLeast compare id target left) right := by
  have hparts : StrictlySorted compare id (below compare id target left ++
      union compare (atLeast compare id target left) right) := by
    refine pairwise_append.mpr ⟨hleft.filter _, sorted_union (sorted_atLeast hleft) hright, ?_⟩
    intro item hitem other hother
    refine lt_of_lt_of_isLE (mem_below.mp hitem).2 ?_
    rcases mem_union.mp hother with hother | hother
    · rw [← isGE_iff_isLE]
      have hge := (mem_filter.mp hother).2
      cases hcompare : compare other target <;> simp_all
    · exact h other hother.1
  apply (sorted_union hleft hright).ext_mem hparts
  intro item
  have hmem : item ∈ left ↔ item ∈ below compare id target left ∨
      item ∈ atLeast compare id target left := by
    conv_lhs => rw [below_append_atLeast hleft target]
    exact mem_append
  rw [mem_union, mem_append, mem_union, hmem, or_assoc]
  refine or_congr_right (or_congr_right (and_congr_right fun hitem => ?_))
  rw [holds_atLeast hleft (h item hitem)]

theorem union_right (h : ∀ other ∈ left, (compare target other).isLE) :
    union compare left right = below compare id target right ++
      union compare left (atLeast compare id target right) := by
  have hparts : StrictlySorted compare id (below compare id target right ++
      union compare left (atLeast compare id target right)) := by
    refine pairwise_append.mpr ⟨hright.filter _, sorted_union hleft (sorted_atLeast hright), ?_⟩
    intro item hitem other hother
    refine lt_of_lt_of_isLE (mem_below.mp hitem).2 ?_
    rcases mem_union.mp hother with hother | hother
    · exact h other hother
    · rw [← isGE_iff_isLE]
      have hge := (mem_filter.mp hother.1).2
      cases hcompare : compare other target <;> simp_all
  apply (sorted_union hleft hright).ext_mem hparts
  intro item
  have hmem : item ∈ right ↔ item ∈ below compare id target right ∨
      item ∈ atLeast compare id target right := by
    conv_lhs => rw [below_append_atLeast hright target]
    exact mem_append
  have hbelow : item ∈ below compare id target right →
      holds compare left item = false := fun hitem => holds_of_lt h (mem_below.mp hitem).2
  rw [mem_union, mem_append, mem_union, hmem]
  tauto

end Runs

section

variable (hright : StrictlySorted compare id right)
  (h : ∀ other ∈ left, (compare target other).isLE)
include hright h

theorem intersection_right :
    intersection compare left right = intersection compare left (atLeast compare id target right) :=
  filter_congr fun item hitem => (holds_atLeast hright (h item hitem)).symm

theorem difference_right :
    difference compare left right = difference compare left (atLeast compare id target right) :=
  filter_congr fun item hitem => by rw [holds_atLeast hright (h item hitem)]

theorem overlaps_right :
    overlaps compare left right = overlaps compare left (atLeast compare id target right) := by
  rw [overlaps, overlaps, Bool.eq_iff_iff, any_eq_true, any_eq_true]
  refine exists_congr fun item => and_congr_right fun hitem => ?_
  rw [holds_atLeast hright (h item hitem)]

end

/-! ## Matches -/

omit [Std.TransCmp compare] in
theorem holds_cons {other : α} :
    holds compare (other :: items) item =
      ((compare other item == .eq) || holds compare items item) := by
  rw [holds, holds, findKey, List.find?_cons]
  cases hcompare : compare other item <;> simp [findKey, hcompare]

section Matches

variable {first other : α} (hsame : compare first other = .eq)

include hsame

omit [Std.TransCmp compare] in
theorem union_match :
    union compare (first :: left) (other :: right) = union compare (first :: left) right := by
  have hholds : holds compare (first :: left) other = true := by
    rw [holds_cons, hsame]
    rfl
  rw [union, union, difference, difference, filter_cons_of_neg]
  rw [hholds]
  decide

section

variable (hleft : StrictlySorted compare id (first :: left))
include hleft

theorem holds_tail (hitem : item ∈ left) :
    holds compare (other :: right) item = holds compare right item := by
  have hlt : compare other item = .lt := by
    rw [← congr_left hsame]
    exact (pairwise_cons.mp hleft).1 item hitem
  rw [holds_cons, hlt]
  rfl

theorem intersection_match :
    intersection compare (first :: left) (other :: right) =
      first :: intersection compare left right := by
  rw [intersection, filter_cons_of_pos]
  · exact congrArg (List.cons first) (filter_congr fun item hitem => holds_tail hsame hleft hitem)
  · rw [holds_cons, eq_symm hsame]
    rfl

theorem difference_match :
    difference compare (first :: left) (other :: right) = difference compare left right := by
  rw [difference, filter_cons_of_neg]
  · exact filter_congr fun item hitem => by rw [holds_tail hsame hleft hitem]
  · rw [holds_cons, eq_symm hsame]
    exact not_eq_true _ |>.mpr rfl

end

theorem overlaps_match : overlaps compare (first :: left) (other :: right) = true := by
  rw [overlaps, any_cons, holds_cons, eq_symm hsame]
  rfl

end Matches

theorem isSubsetOf_cons {first : α} (hleft : StrictlySorted compare id (first :: left)) :
    isSubsetOf compare (first :: left) right =
      (holds compare right first && isSubsetOf compare left (above compare id first right)) := by
  rw [isSubsetOf, all_cons]
  congr 1
  rw [isSubsetOf, Bool.eq_iff_iff, all_eq_true, all_eq_true]
  refine forall_congr' fun item => forall_congr' fun hitem => ?_
  rw [holds_iff, holds_iff]
  constructor
  · rintro ⟨other, hother, hsame⟩
    refine ⟨other, mem_above.mpr ⟨hother, ?_⟩, hsame⟩
    rw [id, congr_left hsame]
    exact gt_of_lt ((pairwise_cons.mp hleft).1 item hitem)
  · rintro ⟨other, hother, hsame⟩
    exact ⟨other, (mem_above.mp hother).1, hsame⟩

/-- A subset has no more classes, and with as many it is the whole. -/
theorem length_le_of_subset (hleft : StrictlySorted compare id left)
    (hright : StrictlySorted compare id right) (h : isSubsetOf compare left right = true) :
    left.length ≤ right.length ∧
      (left.length = right.length → isSubsetOf compare right left = true) := by
  induction left generalizing right with
  | nil =>
      refine ⟨Nat.zero_le _, ?_⟩
      intro hlength
      rw [length_eq_zero_iff.mp hlength.symm]
      rfl
  | cons first rest ih =>
      rw [StrictlySorted, pairwise_cons] at hleft
      rw [isSubsetOf, all_cons, and_eq_true] at h
      have hcut := hright.cut first
      have hfound := h.1
      rw [holds, Option.isSome_iff_exists] at hfound
      obtain ⟨found, hfound⟩ := hfound
      rw [hfound, Option.toList_some, append_assoc, singleton_append] at hcut
      have hrest : isSubsetOf compare rest (above compare id first right) = true := by
        rw [isSubsetOf, all_eq_true]
        intro item hitem
        obtain ⟨other, hother, hsame⟩ := holds_iff.mp (all_eq_true.mp h.2 item hitem)
        refine holds_iff.mpr ⟨other, mem_above.mpr ⟨hother, ?_⟩, hsame⟩
        rw [id, congr_left hsame]
        exact gt_of_lt (hleft.1 item hitem)
      obtain ⟨hle, heq⟩ := @ih (above compare id first right) hleft.2 (hright.filter _) hrest
      have hlength := congrArg List.length hcut
      rw [length_append, length_cons] at hlength
      rw [length_cons]
      refine ⟨by omega, ?_⟩
      intro hsame
      have hnil := length_eq_zero_iff.mp (show (below compare id first right).length = 0 by omega)
      rw [hnil, nil_append] at hcut
      have hback := heq (by omega)
      rw [hcut, isSubsetOf, all_cons, and_eq_true]
      refine ⟨holds_iff.mpr ⟨first, mem_cons_self, eq_symm (findKey_mem hfound).2⟩, ?_⟩
      rw [isSubsetOf, all_eq_true] at hback
      rw [all_eq_true]
      intro item hitem
      obtain ⟨other, hother, hother'⟩ := holds_iff.mp (hback item hitem)
      exact holds_iff.mpr ⟨other, mem_cons_of_mem _ hother, hother'⟩

end Lawful

end Durable7.Foundation.SortedSets

/-!
## Multisets as sorted lists

A list in ascending order with all instances of a class.  A value cuts it into what is below its
class, the class, and what is above.  Lists of groups with one group a class flatten to such lists.
-/

namespace Durable7.Foundation.SortedBags

open List SortedSets

universe u v

variable {α : Type u} (compare : α → α → Ordering)

/-- Equal items are allowed. -/
def Ascending (items : List α) : Prop :=
  items.Pairwise fun before after => (compare before after).isLE

/-- The newest instance of a class goes last. -/
def insert (value : α) (items : List α) : List α :=
  atMost compare id value items ++ value :: above compare id value items

/-- The oldest instance of a class goes first. -/
def deleteOne (value : α) (items : List α) : List α :=
  items.eraseP fun item => compare item value == .eq

def deleteAll (value : α) (items : List α) : List α :=
  items.filter fun item => compare item value != .eq

def countOf (value : α) (items : List α) : Nat := items.countP fun item => compare item value == .eq

/-- The first instances of all classes. -/
def distinct (items : List α) : List α := fromList compare items

def counts (items : List α) : List (α × Nat) :=
  (distinct compare items).map fun item => (item, countOf compare item items)

/-! ### Cuts at a class -/

/-- The parts of a list at the class of a value. -/
structure Parted (value : α) (front same back : List α) : Prop where
  front_lt : ∀ item ∈ front, compare item value = .lt
  same_eq : ∀ item ∈ same, compare item value = .eq
  back_gt : ∀ item ∈ back, compare item value = .gt

namespace Parted

variable {compare} {value : α} {front same back : List α} (h : Parted compare value front same back)

include h

theorem filter_eq (keeps : Ordering → Bool) :
    (front ++ same ++ back).filter (fun item => keeps (compare item value)) =
      (if keeps .lt then front else []) ++ (if keeps .eq then same else []) ++
        if keeps .gt then back else [] := by
  have hpart : ∀ {items : List α} {ordering : Ordering},
      (∀ item ∈ items, compare item value = ordering) →
      items.filter (fun item => keeps (compare item value)) =
        if keeps ordering then items else [] := by
    intro items ordering hitems
    split
    · rename_i hkeeps
      exact filter_eq_self.mpr fun item hitem => by rwa [hitems item hitem]
    · rename_i hdrops
      exact filter_eq_nil_iff.mpr fun item hitem => by rwa [hitems item hitem]
  rw [filter_append, filter_append, hpart h.front_lt, hpart h.same_eq, hpart h.back_gt]

theorem below_eq : below compare id value (front ++ same ++ back) = front :=
  (h.filter_eq (· == .lt)).trans (by simp)

theorem above_eq : above compare id value (front ++ same ++ back) = back :=
  (h.filter_eq (· == .gt)).trans (by simp)

theorem atMost_eq : atMost compare id value (front ++ same ++ back) = front ++ same :=
  (h.filter_eq (· != .gt)).trans (by simp)

theorem insert_eq :
    insert compare value (front ++ same ++ back) = front ++ (same ++ [value]) ++ back := by
  rw [insert, h.atMost_eq, h.above_eq]
  simp

theorem deleteAll_eq : deleteAll compare value (front ++ same ++ back) = front ++ back :=
  (h.filter_eq (· != .eq)).trans (by simp)

theorem countOf_eq : countOf compare value (front ++ same ++ back) = same.length := by
  rw [countOf, countP_eq_length_filter]
  exact congrArg List.length ((h.filter_eq (· == .eq)).trans (by simp))

theorem deleteOne_eq :
    deleteOne compare value (front ++ same ++ back) = front ++ same.tail ++ back := by
  have hfront : ∀ item ∈ front, ¬ (compare item value == .eq) = true := by
    intro item hitem
    rw [h.front_lt item hitem]
    decide
  rw [deleteOne, append_assoc, append_assoc, eraseP_append_right _ hfront]
  congr 1
  cases same with
  | nil =>
      apply eraseP_of_forall_not
      intro item hitem
      rw [h.back_gt item hitem]
      decide
  | cons first rest =>
      apply eraseP_cons_of_pos
      rw [h.same_eq first mem_cons_self]
      rfl

end Parted

/-! ### Groups -/

section Groups

variable {γ : Type v} {compare} (key : γ → α) (values : γ → List α)

/-- One group a class, each keyed by its first instance. -/
structure Grouped (compare : α → α → Ordering) (groups : List γ) : Prop where
  first : ∀ group ∈ groups, (values group).head? = some (key group)
  alike : ∀ group ∈ groups, ∀ value ∈ values group, compare value (key group) = .eq
  ascending : StrictlySorted compare key groups

variable {key values} {groups left right : List γ}

theorem Grouped.nil : Grouped key values compare [] := ⟨forall_mem_nil _, forall_mem_nil _, .nil⟩

section

variable (h : Grouped key values compare groups)
include h

theorem Grouped.sublist (hsub : left.Sublist groups) : Grouped key values compare left :=
  ⟨fun group hgroup => h.first group (hsub.subset hgroup),
    fun group hgroup => h.alike group (hsub.subset hgroup), h.ascending.sublist hsub⟩

theorem Grouped.key_mem {group : γ} (hgroup : group ∈ groups) : key group ∈ values group :=
  mem_of_mem_head? (h.first group hgroup)

theorem Grouped.key_mem_flat {group : γ}
    (hgroup : group ∈ groups) : key group ∈ groups.flatMap values :=
  mem_flatMap.mpr ⟨group, hgroup, h.key_mem hgroup⟩

end

/-- Two lists of groups join when every instance of one is below every instance of the other. -/
theorem Grouped.append (hleft : Grouped key values compare left)
    (hright : Grouped key values compare right)
    (hless : ∀ before ∈ left.flatMap values, ∀ after ∈ right.flatMap values,
      compare before after = .lt) :
    Grouped key values compare (left ++ right) := by
  refine ⟨?_, ?_, pairwise_append.mpr ⟨hleft.ascending, hright.ascending, ?_⟩⟩
  · intro group hgroup
    rcases mem_append.mp hgroup with hgroup | hgroup
    · exact hleft.first group hgroup
    · exact hright.first group hgroup
  · intro group hgroup
    rcases mem_append.mp hgroup with hgroup | hgroup
    · exact hleft.alike group hgroup
    · exact hright.alike group hgroup
  · intro before hbefore after hafter
    exact hless _ (hleft.key_mem_flat hbefore) _ (hright.key_mem_flat hafter)

theorem Grouped.singleton {group : γ} (hfirst : (values group).head? = some (key group))
    (halike : ∀ value ∈ values group, compare value (key group) = .eq) :
    Grouped key values compare [group] :=
  ⟨forall_mem_singleton.mpr hfirst, forall_mem_singleton.mpr halike, pairwise_singleton _ _⟩

variable [Std.TransCmp compare]

/-- Every instance of an earlier group is below every instance of a later one. -/
theorem Grouped.flat_lt (h : Grouped key values compare (left ++ right)) :
    ∀ before ∈ left.flatMap values, ∀ after ∈ right.flatMap values, compare before after = .lt := by
  intro before hbefore after hafter
  obtain ⟨first, hfirst, hbefore⟩ := mem_flatMap.mp hbefore
  obtain ⟨second, hsecond, hafter⟩ := mem_flatMap.mp hafter
  have hkeys : compare (key first) (key second) = .lt :=
    (pairwise_append.mp h.ascending).2.2 first hfirst second hsecond
  rw [Std.TransCmp.congr_left (h.alike first (mem_append_left _ hfirst) before hbefore),
    Std.TransCmp.congr_right (h.alike second (mem_append_right _ hsecond) after hafter)]
  exact hkeys

theorem Grouped.cons_lt {group : γ} (h : Grouped key values compare (group :: right)) :
    ∀ before ∈ values group, ∀ after ∈ right.flatMap values, compare before after = .lt := by
  have hless := @Grouped.flat_lt _ _ _ key values [group] right _ h
  rwa [flatMap_singleton] at hless

section

variable (h : Grouped key values compare groups)
include h

theorem Grouped.flat_ascending : Ascending compare (groups.flatMap values) := by
  induction groups with
  | nil => exact .nil
  | cons group groups ih =>
      have hrest := ih (h.sublist (sublist_cons_self _ _))
      rw [Ascending, flatMap_cons, pairwise_append]
      refine ⟨?_, hrest, ?_⟩
      · apply pairwise_of_forall_mem_list
        intro before hbefore after hafter
        rw [Std.TransCmp.congr_left (h.alike group mem_cons_self before hbefore),
          Std.OrientedCmp.eq_symm (h.alike group mem_cons_self after hafter)]
        rfl
      · intro before hbefore after hafter
        rw [h.cons_lt before hbefore after hafter]
        rfl

/-- The keys of the groups are the first instances of the classes. -/
theorem Grouped.distinct_eq : distinct compare (groups.flatMap values) = groups.map key := by
  induction groups using List.reverseRecOn with
  | nil => rfl
  | append_singleton groups group ih =>
      have hgroup := mem_append_right groups (mem_singleton_self group)
      have hbefore := ih (h.sublist (sublist_append_left _ _))
      have hfirst := h.first group hgroup
      have hless := h.flat_lt
      rw [flatMap_singleton] at hless
      obtain ⟨rest, hvalues⟩ := List.head?_eq_some_iff.mp hfirst
      have hkey : ∀ item ∈ groups.map key, compare item (key group) = .lt := by
        intro item hitem
        obtain ⟨other, hother, rfl⟩ := mem_map.mp hitem
        exact hless _ ((h.sublist (sublist_append_left _ _)).key_mem_flat hother) _
          (h.key_mem hgroup)
      have hholds : ∀ value ∈ rest, holds compare (groups.map key ++ [key group]) value = true := by
        intro value hvalue
        refine holds_iff.mpr ⟨key group, mem_append_right _ mem_cons_self, ?_⟩
        exact Std.OrientedCmp.eq_symm
          (h.alike group hgroup value (by rw [hvalues]; exact mem_cons_of_mem _ hvalue))
      rw [flatMap_append, flatMap_singleton, hvalues, distinct, fromList_append]
      rw [distinct] at hbefore
      rw [hbefore, foldl_cons, insert_last hkey, foldl_insert_held hholds,
        map_append, map_singleton]

theorem Grouped.counts_eq :
    counts compare (groups.flatMap values) =
      groups.map fun group => (key group, (values group).length) := by
  rw [counts, h.distinct_eq, map_map]
  apply map_congr_left
  intro group hgroup
  obtain ⟨left, right, rfl⟩ := append_of_mem hgroup
  have hparted : Parted compare (key group) (left.flatMap values) (values group)
      (right.flatMap values) := by
    have hright : Grouped key values compare (group :: right) :=
      h.sublist (sublist_append_right _ _)
    refine ⟨fun item hitem => h.flat_lt item hitem _ (hright.key_mem_flat mem_cons_self),
      h.alike group hgroup, fun item hitem => ?_⟩
    exact Std.OrientedCmp.gt_of_lt (hright.cons_lt _ (hright.key_mem mem_cons_self) item hitem)
  rw [flatMap_append, flatMap_cons, ← append_assoc]
  exact congrArg (Prod.mk _) hparted.countOf_eq

end

end Groups

end Durable7.Foundation.SortedBags
