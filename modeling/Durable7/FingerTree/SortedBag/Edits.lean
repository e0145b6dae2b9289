import Durable7.FingerTree.SortedBag.Operations
import Durable7.Foundation.Branching

/-!
# Edits of sorted bags

The edits by key keep one bucket a class.  A cut by rank keeps it on both sides, and so does a join
of two parts that share no class.
-/

namespace Durable7.FingerTree.SortedBag

open Foundation

variable {a : Type}

section

open List Measured.ValidTree Int
open Foundation.SortedBags (Grouped Parted)
open Measured (foldMeasure)

theorem toList_joinWithBucket (left : BagTree a) (bucket : Bucket a) (right : BagTree a) :
    (joinWithBucket left bucket right).toList = left.toList ++ bucket :: right.toList := by
  rw [joinWithBucket, toList_append, toList_snoc, append_assoc]
  rfl

theorem index_eq (position : Int) (bag : SortedBag a) :
    index position bag = if position < 0 then none else (toList bag)[position.toNat]? := by
  have hcount := count_eq bag
  unfold index
  by_cases hnegative : position < 0
  · rw [if_pos (.inl hnegative), if_pos hnegative]
  rw [if_neg hnegative]
  by_cases hhigh : position ≥ count bag
  · rw [if_pos (.inr hhigh), List.getElem?_eq_none (by omega)]
  rw [if_neg (by omega), locate]
  rcases bag.buckets.split_weight foldMeasure_total position.toNat with ⟨-, hsum⟩ |
    ⟨left, bucket, right, hsplit, hlist, hbefore, hafter⟩
  · rw [weights_sum] at hsum
    have hlength : (toList bag).length = (bag.buckets.toList.flatMap Bucket.values).length := rfl
    omega
  rw [weights_sum] at hbefore hafter
  have hleftTotal := measure_total left
  change (treeList left).length ≤ _ at hbefore
  change _ < (treeList left).length + bucket.values.length at hafter
  rw [hsplit, Option.map_some, Option.bind_some, toList, treeList_parts hlist, append_assoc,
    List.getElem?_append_right hbefore, List.getElem?_append_left (by omega), ← hleftTotal]

variable [Ord a] {tree left right : BagTree a} {bag : SortedBag a}

theorem valid_append (hleft : Valid left) (hright : Valid right)
    (hless : ∀ before ∈ treeList left, ∀ after ∈ treeList right, compare before after = .lt) :
    Valid (left.append right) := by
  rw [Valid, toList_append]
  exact hleft.append hright hless

theorem valid_parts {bucket : Bucket a} (h : Valid tree)
    (hlist : tree.toList = left.toList ++ bucket :: right.toList) :
    Valid left ∧ Valid right ∧ Valid (right.cons bucket) ∧ Valid (left.append right) := by
  rw [Valid, hlist] at h
  refine ⟨h.sublist (sublist_append_left _ _),
    h.sublist ((sublist_cons_self _ _).trans (sublist_append_right _ _)), ?_, ?_⟩
  · rw [Valid, toList_cons]
    exact h.sublist (sublist_append_right _ _)
  · rw [Valid, toList_append]
    exact h.sublist ((sublist_cons_self _ _).append_left _)

variable [Std.TransOrd a]

theorem valid_snoc {value : a} (hleft : Valid left)
    (hless : ∀ before ∈ treeList left, compare before value = .lt) :
    Valid (left.snoc (singletonBucket value)) := by
  rw [Valid, toList_snoc]
  refine hleft.append (grouped_singleton value) fun before hbefore after hafter => ?_
  rw [flatMap_singleton] at hafter
  rw [mem_singleton.mp hafter]
  exact hless before hbefore

theorem valid_joinWithBucket {bucket next : Bucket a} (h : Valid tree)
    (hlist : tree.toList = left.toList ++ bucket :: right.toList)
    (hfirst : next.values.head? = some next.key)
    (halike : ∀ value ∈ next.values, compare value bucket.key = .eq) :
    Valid (joinWithBucket left next right) := by
  rw [Valid, hlist] at h
  rw [Valid, toList_joinWithBucket]
  exact grouped_replace h hfirst halike

section Keyed

variable [BEq a] [FinerEq a] {value : a}

section

variable (h : Valid bag.buckets) (hheeds : Heeds value bag.buckets)
include h hheeds

theorem insert_spec :
    Valid (insert value bag).buckets ∧
      toList (insert value bag) = SortedBags.insert compare value (toList bag) := by
  unfold insert
  rcases splitAtLeast_cases h value with ⟨hsplit, hparted⟩ |
    ⟨left, bucket, right, hsplit, hlist, ⟨hcompare, hparted⟩ | ⟨hcompare, hparted⟩⟩
  · have hmodel := hparted.insert_eq
    rw [append_nil, append_nil, nil_append, append_nil] at hmodel
    rw [hsplit]
    refine ⟨valid_snoc h hparted.front_lt, ?_⟩
    rw [toList, treeList_snoc, toList, hmodel]
    rfl
  · have hbucket : bucket ∈ bag.buckets.toList := by
      rw [hlist]
      exact mem_append_right _ mem_cons_self
    rw [hsplit]
    dsimp only
    rw [if_pos (hheeds.beq hlist hcompare)]
    constructor
    · apply valid_joinWithBucket h hlist
      · rw [appendBucket, List.head?_append, h.first bucket hbucket]
        rfl
      · intro other hother
        rcases mem_append.mp hother with hother | hother
        · exact h.alike bucket hbucket other hother
        · rw [mem_singleton.mp hother]
          exact Std.OrientedCmp.eq_symm hcompare
    · rw [toList, treeList_parts (toList_joinWithBucket left _ right), toList,
        treeList_parts hlist, hparted.insert_eq]
      rfl
  · have hmodel := hparted.insert_eq
    obtain ⟨hleft, -, hright, -⟩ := valid_parts h hlist
    rw [append_nil, nil_append, ← append_assoc, ← append_assoc] at hmodel
    rw [hsplit]
    dsimp only
    rw [if_neg (not_beq_of_gt hcompare)]
    constructor
    · refine valid_append (valid_snoc hleft hparted.front_lt) hright ?_
      intro before hbefore after hafter
      rw [treeList_snoc] at hbefore
      rw [treeList_cons] at hafter
      have hafter := Std.OrientedCmp.lt_of_gt (hparted.back_gt after hafter)
      rcases mem_append.mp hbefore with hbefore | hbefore
      · exact Std.TransCmp.lt_trans (hparted.front_lt before hbefore) hafter
      · rw [mem_singleton.mp hbefore]
        exact hafter
    · rw [toList, treeList_append, treeList_snoc, treeList_cons, toList, treeList_parts hlist,
        hmodel, append_assoc, append_assoc, append_assoc]
      rfl

theorem deleteOne_spec :
    Valid (deleteOne value bag).buckets ∧
      toList (deleteOne value bag) = SortedBags.deleteOne compare value (toList bag) := by
  unfold deleteOne
  rcases splitAtLeast_cases h value with ⟨hsplit, hparted⟩ |
    ⟨left, bucket, right, hsplit, hlist, ⟨hcompare, hparted⟩ | ⟨hcompare, hparted⟩⟩
  · have hmodel := hparted.deleteOne_eq
    rw [tail_nil, append_nil, append_nil] at hmodel
    rw [hsplit]
    exact ⟨h, hmodel.symm⟩
  · have hbucket : bucket ∈ bag.buckets.toList := by
      rw [hlist]
      exact mem_append_right _ mem_cons_self
    have hmodel := hparted.deleteOne_eq
    rw [← treeList_parts hlist] at hmodel
    have hfirst := h.first bucket hbucket
    have halike := h.alike bucket hbucket
    rw [hsplit]
    dsimp only
    rw [if_pos (hheeds.beq hlist hcompare)]
    rw [toList, toList]
    split
    · rename_i hnil
      rw [hnil] at hfirst
      cases hfirst
    · rename_i first hvalues
      rw [hvalues, tail_cons, append_nil] at hmodel
      exact ⟨(valid_parts h hlist).2.2.2, (treeList_append _ _).trans hmodel.symm⟩
    · rename_i first next rest hvalues
      rw [hvalues, tail_cons] at hmodel
      refine ⟨valid_joinWithBucket h hlist rfl fun other hother => ?_, ?_⟩
      · exact halike other (by rw [hvalues]; exact mem_cons_of_mem _ hother)
      · exact (treeList_parts (toList_joinWithBucket left _ right)).trans hmodel.symm
  · have hmodel := hparted.deleteOne_eq
    rw [tail_nil, append_nil, ← append_assoc, ← treeList_parts hlist] at hmodel
    rw [hsplit]
    dsimp only
    rw [if_neg (not_beq_of_gt hcompare)]
    exact ⟨h, hmodel.symm⟩

theorem deleteAll_spec :
    Valid (deleteAll value bag).buckets ∧
      toList (deleteAll value bag) = SortedBags.deleteAll compare value (toList bag) := by
  unfold deleteAll
  rcases splitAtLeast_cases h value with ⟨hsplit, hparted⟩ |
    ⟨left, bucket, right, hsplit, hlist, ⟨hcompare, hparted⟩ | ⟨hcompare, hparted⟩⟩
  · have hmodel := hparted.deleteAll_eq
    rw [append_nil, append_nil] at hmodel
    rw [hsplit]
    exact ⟨h, hmodel.symm⟩
  · have hmodel := hparted.deleteAll_eq
    rw [← treeList_parts hlist] at hmodel
    rw [hsplit]
    dsimp only
    rw [if_pos (hheeds.beq hlist hcompare)]
    exact ⟨(valid_parts h hlist).2.2.2, (treeList_append _ _).trans hmodel.symm⟩
  · have hmodel := hparted.deleteAll_eq
    rw [append_nil, ← append_assoc, ← treeList_parts hlist] at hmodel
    rw [hsplit]
    dsimp only
    rw [if_neg (not_beq_of_gt hcompare)]
    exact ⟨h, hmodel.symm⟩

end

end Keyed

theorem splitAtRank_spec (h : Valid tree) (position : Int) :
    Valid (splitAtRank position tree).1 ∧ Valid (splitAtRank position tree).2 ∧
      treeList (splitAtRank position tree).1 = (treeList tree).take position.toNat ∧
      treeList (splitAtRank position tree).2 = (treeList tree).drop position.toNat := by
  have htotal := measure_total tree
  unfold splitAtRank
  by_cases hlow : position ≤ 0
  · rw [if_pos hlow, show position.toNat = 0 by omega, take_zero, drop_zero]
    exact ⟨valid_empty, h, treeList_empty, rfl⟩
  rw [if_neg hlow]
  by_cases hhigh : position ≥ tree.measure.total
  · rw [if_pos hhigh, take_of_length_le (by omega), drop_eq_nil_of_le (by omega)]
    exact ⟨h, valid_empty, rfl, treeList_empty⟩
  rw [if_neg hhigh]
  rcases tree.split_weight foldMeasure_total position.toNat with ⟨-, hsum⟩ |
    ⟨left, bucket, right, hsplit, hlist, hbefore, hafter⟩
  · rw [weights_sum] at hsum
    have hlength : (treeList tree).length = (tree.toList.flatMap Bucket.values).length := rfl
    omega
  rw [hsplit]
  dsimp only
  rw [weights_sum] at hbefore hafter
  have hleftTotal := measure_total left
  change (treeList left).length ≤ _ at hbefore
  change _ < (treeList left).length + bucket.values.length at hafter
  have hparts := treeList_parts hlist
  obtain ⟨hleft, hright, -⟩ := valid_parts h hlist
  have hbucket : bucket ∈ tree.toList := by
    rw [hlist]
    exact mem_append_right _ mem_cons_self
  have hfirst := h.first bucket hbucket
  have halike := h.alike bucket hbucket
  have hgrouped := h
  rw [Valid, hlist] at hgrouped
  generalize hoffset : position.toNat - left.measure.total = offset
  have hposition : position.toNat = (treeList left).length + offset := by omega
  have htake : (treeList tree).take position.toNat =
      treeList left ++ bucket.values.take offset := by
    rw [hposition, hparts, append_assoc, take_length_add_append,
      take_append_of_le_length (by omega)]
  have hdrop : (treeList tree).drop position.toNat =
      bucket.values.drop offset ++ treeList right := by
    rw [hposition, hparts, append_assoc, drop_length_add_append,
      drop_append_of_le_length (by omega)]
  rw [htake, hdrop]
  have hsnoc : Valid (snocInstances left bucket.key (bucket.values.take offset)) ∧
      treeList (snocInstances left bucket.key (bucket.values.take offset)) =
        treeList left ++ bucket.values.take offset := by
    unfold snocInstances
    split
    · rename_i hempty
      rw [isEmpty_iff.mp hempty, append_nil]
      exact ⟨hleft, rfl⟩
    · rename_i hfilled
      rw [List.isEmpty_iff] at hfilled
      refine ⟨?_, treeList_snoc _ _⟩
      have hreplaced := @grouped_replace _ _ _ left.toList right.toList bucket
        ⟨bucket.key, bucket.values.take offset⟩ hgrouped
        (by
          rw [List.head?_take, if_neg, hfirst]
          rintro rfl
          exact hfilled take_zero)
        fun value hvalue => halike value (mem_of_mem_take hvalue)
      rw [Valid, toList_snoc]
      exact hreplaced.sublist (((nil_sublist _).cons_cons _).append_left _)
  have hcons : Valid (consInstances (bucket.values.drop offset) right) ∧
      treeList (consInstances (bucket.values.drop offset) right) =
        bucket.values.drop offset ++ treeList right := by
    have hdropped : ∀ value ∈ bucket.values.drop offset, compare value bucket.key = .eq :=
      fun value hvalue => halike value (mem_of_mem_drop hvalue)
    unfold consInstances
    split
    · rename_i hnil
      rw [hnil]
      exact ⟨hright, rfl⟩
    · rename_i value rest hvalues
      rw [hvalues] at hdropped ⊢
      refine ⟨?_, treeList_cons _ _⟩
      have hreplaced := @grouped_replace _ _ _ left.toList right.toList bucket
        (rekeyedBucket value rest) hgrouped rfl hdropped
      rw [Valid, toList_cons]
      exact hreplaced.sublist (sublist_append_right _ _)
  exact ⟨hsnoc.1, hcons.1, hsnoc.2, hcons.2⟩

theorem slice_spec (h : Valid bag.buckets) (position lengthValue : Int) :
    (slice position lengthValue bag = none ∧
      (position < 0 ∨ lengthValue < 0 ∨ position + lengthValue > (toList bag).length)) ∨
    ∃ made, slice position lengthValue bag = some made ∧ Valid made.buckets ∧
      ¬ (position < 0 ∨ lengthValue < 0 ∨ position + lengthValue > (toList bag).length) ∧
      toList made = ((toList bag).drop position.toNat).take lengthValue.toNat := by
  rw [slice, count_eq]
  by_cases hvalid : Measured.Ranked.isValidRange position lengthValue (toList bag).length = true
  · obtain ⟨-, hafter, -, hafterList⟩ := splitAtRank_spec h position
    obtain ⟨hmade, -, hmadeList, -⟩ := splitAtRank_spec hafter lengthValue
    rw [hafterList] at hmadeList
    exact .inr ⟨_, if_neg (by rw [hvalid]; decide), hmade,
      Measured.Ranked.isValidRange_iff.mp hvalid, hmadeList⟩
  · exact .inl ⟨if_pos (by simpa using hvalid),
      not_not.mp (mt Measured.Ranked.isValidRange_iff.mpr hvalid)⟩

/-- The position is strictly between two instances of one class. -/
def insideRun (position : Int) (items : List a) : Bool :=
  decide (position > 0) &&
    items[position.toNat - 1]?.any fun before =>
      items[position.toNat + 1]?.any fun after => compare before after == .eq

theorem outside_lt {items : List a} (h : SortedBags.Ascending compare items) {position : Nat}
    (hposition : position < items.length) (houtside : insideRun position items = false) :
    ∀ before ∈ items.take position, ∀ after ∈ items.drop (position + 1),
      compare before after = .lt := by
  intro before hbefore after hafter
  obtain ⟨first, hfirst, hbefore⟩ := mem_take_iff_getElem.mp hbefore
  obtain ⟨second, hsecond, hafter⟩ := mem_drop_iff_getElem.mp hafter
  have hle : ∀ (low high : Nat) (hlow : low < items.length) (hhigh : high < items.length),
      low ≤ high → (compare items[low] items[high]).isLE := by
    intro low high hlow hhigh hle
    rcases Nat.lt_or_eq_of_le hle with hlt | rfl
    · exact pairwise_iff_getElem.mp h low high hlow hhigh hlt
    · exact Std.ReflCmp.isLE_rfl
  have hinside : compare items[position - 1] items[position + 1] = .lt := by
    have hbelow := hle (position - 1) (position + 1) (by omega) (by omega) (by omega)
    rw [insideRun, toNat_natCast, List.getElem?_eq_getElem (by omega),
      List.getElem?_eq_getElem (by omega), Option.any_some, Option.any_some,
      Bool.and_eq_false_iff] at houtside
    rcases houtside with hzero | hne
    · rw [decide_eq_false_iff_not] at hzero
      omega
    · rw [beq_eq_false_iff_ne] at hne
      cases hcompare : compare items[position - 1] items[position + 1] <;> simp_all
  rw [← hbefore, ← hafter]
  exact Std.TransCmp.lt_of_isLE_of_lt (hle first (position - 1) (by omega) (by omega) (by omega))
    (Std.TransCmp.lt_of_lt_of_isLE hinside
      (hle (position + 1) (position + 1 + second) (by omega) (by omega) (by omega)))

theorem deleteAt_spec (h : Valid bag.buckets) (position : Int)
    (houtside : insideRun position (toList bag) = false) :
    (deleteAt position bag = none ∧ (position < 0 ∨ position ≥ (toList bag).length)) ∨
    ∃ made, deleteAt position bag = some made ∧ Valid made.buckets ∧
      ¬ (position < 0 ∨ position ≥ (toList bag).length) ∧
      toList made = (toList bag).eraseIdx position.toNat := by
  have hcount := count_eq bag
  unfold deleteAt
  by_cases hout : position < 0 ∨ position ≥ count bag
  · exact .inl ⟨if_pos hout, by omega⟩
  obtain ⟨position, rfl⟩ := eq_ofNat_of_zero_le (show 0 ≤ position by omega)
  obtain ⟨hleft, hselected, hleftList, hselectedList⟩ := splitAtRank_spec h position
  obtain ⟨-, hright, -, hrightList⟩ := splitAtRank_spec hselected 1
  rw [hselectedList, drop_drop, toNat_natCast] at hrightList
  rw [toNat_natCast] at hleftList
  refine .inr ⟨_, if_neg hout, valid_append hleft hright ?_, by omega, ?_⟩
  · rw [hleftList, hrightList]
    exact @outside_lt _ _ _ (toList bag) h.flat_ascending position (by omega) houtside
  · rw [toList, treeList_append, hleftList, hrightList, toNat_natCast, eraseIdx_eq_take_drop_succ]
    rfl

end

/-!
## Histories of sorted bags

Every version of every branching history shows the sorted list of the model, as long as no deletion
by rank takes an instance from strictly inside its class.  Such a deletion leaves two buckets of one
class.
-/

/-- One edit.  Versions are numbered in the order they were made. -/
inductive Edit (a : Type) where
  | empty
  | singleton (value : a)
  | fromList (values : List a)
  | insert (version : Nat) (value : a)
  | deleteOne (version : Nat) (value : a)
  | deleteAll (version : Nat) (value : a)
  | deleteAt (version : Nat) (position : Int)
  | slice (version : Nat) (position lengthValue : Int)

/-! ### The model -/

variable [Ord a]

def ListModel.fromList (values : List a) : List a :=
  values.foldl (fun items value => SortedBags.insert compare value items) []

def ListModel.produce (models : List (List a)) : Edit a → Except Empty (List (List a))
  | .empty => .ok [[]]
  | .singleton value => .ok [[value]]
  | .fromList values => .ok [ListModel.fromList values]
  | .insert version value => onVersion models version fun items =>
      .ok [SortedBags.insert compare value items]
  | .deleteOne version value => onVersion models version fun items =>
      .ok [SortedBags.deleteOne compare value items]
  | .deleteAll version value => onVersion models version fun items =>
      .ok [SortedBags.deleteAll compare value items]
  | .deleteAt version position => onVersion models version fun items =>
      .ok (ListModel.deleteAt position items).toList
  | .slice version position lengthValue => onVersion models version fun items =>
      .ok (ListModel.slice position lengthValue items).toList

/-- A deletion by rank takes the first or the last instance of a class. -/
def Allowed (versions : List (SortedBag a)) : Edit a → Prop
  | .deleteAt version position =>
      ∀ bag, versions[version]? = some bag → insideRun position (toList bag) = false
  | _ => True

structure Refines (bag : SortedBag a) (items : List a) : Prop where
  listed : toList bag = items
  valid : Valid bag.buckets

variable {bag : SortedBag a} {items : List a}

theorem refines_empty : Refines (empty : SortedBag a) [] := ⟨treeList_empty, valid_empty⟩

variable [BEq a]

def produce (versions : List (SortedBag a)) : Edit a → Except Empty (List (SortedBag a))
  | .empty => .ok [empty]
  | .singleton value => .ok [singleton value]
  | .fromList values => .ok [fromList values]
  | .insert version value => onVersion versions version fun bag => .ok [insert value bag]
  | .deleteOne version value => onVersion versions version fun bag => .ok [deleteOne value bag]
  | .deleteAll version value => onVersion versions version fun bag => .ok [deleteAll value bag]
  | .deleteAt version position => onVersion versions version fun bag =>
      .ok (deleteAt position bag).toList
  | .slice version position lengthValue => onVersion versions version fun bag =>
      .ok (slice position lengthValue bag).toList

/-- What a version shows of its list. -/
structure Observes (bag : SortedBag a) (items : List a) : Prop where
  contents : toList bag = items
  ascending : SortedBags.Ascending compare items
  filled : ∀ bucket ∈ bag.buckets.toList, bucket.values ≠ []
  increasing : StrictlySorted compare Bucket.key bag.buckets.toList
  counted : count bag = items.length
  isEmpty : null bag = items.isEmpty
  distinct : distinctCount bag = (SortedBags.distinct compare items).length
  summary : toCounts bag = SortedBags.counts compare items
  least : minValue bag = items.head?
  greatest : maxValue bag = items.getLast?
  occurrences : ∀ value, countOf value bag = SortedBags.countOf compare value items
  contains : ∀ value, member value bag = items.any fun item => compare item value == .eq
  countsLess : ∀ value, countLessThan value bag = (below compare id value items).length
  countsAtMost : ∀ value, countAtMost value bag = (atMost compare id value items).length
  selects : ∀ position, index position bag = elementAt position items

/-! ### Refinement -/

section Steps

variable [Std.TransOrd a]

omit [BEq a] in
theorem refines_singleton (value : a) : Refines (singleton value) [value] := by
  constructor
  · rw [toList, singleton, treeList, Measured.ValidTree.toList_singleton, List.flatMap_singleton]
    rfl
  · rw [Valid, singleton, Measured.ValidTree.toList_singleton]
    exact grouped_singleton value

omit [BEq a] in
theorem refines_slice (h : Refines bag items) (position lengthValue : Int) :
    Option.Rel Refines (slice position lengthValue bag)
      (ListModel.slice position lengthValue items) := by
  obtain ⟨rfl, hvalid⟩ := h
  rcases slice_spec hvalid position lengthValue with ⟨hnone, hout⟩ |
    ⟨made, hmade, hmadeValid, hin, hlisted⟩
  · rw [hnone, ListModel.slice, if_pos hout]
    exact .none
  · rw [hmade, ListModel.slice, if_neg hin]
    exact .some ⟨hlisted, hmadeValid⟩

omit [BEq a] in
theorem refines_deleteAt (h : Refines bag items) (position : Int)
    (houtside : insideRun position (toList bag) = false) :
    Option.Rel Refines (deleteAt position bag) (ListModel.deleteAt position items) := by
  obtain ⟨rfl, hvalid⟩ := h
  rcases deleteAt_spec hvalid position houtside with ⟨hnone, hout⟩ |
    ⟨made, hmade, hmadeValid, hin, hlisted⟩
  · rw [hnone, ListModel.deleteAt, if_pos hout]
    exact .none
  · rw [hmade, ListModel.deleteAt, if_neg hin]
    exact .some ⟨hlisted, hmadeValid⟩

variable [Std.LawfulBEqOrd a]

section

variable (h : Refines bag items)
include h

theorem refines_insert (value : a) :
    Refines (insert value bag) (SortedBags.insert compare value items) := by
  obtain ⟨rfl, hvalid⟩ := h
  obtain ⟨hnext, hlisted⟩ := insert_spec hvalid (heeds_of_lawful value _)
  exact ⟨hlisted, hnext⟩

theorem refines_deleteOne (value : a) :
    Refines (deleteOne value bag) (SortedBags.deleteOne compare value items) := by
  obtain ⟨rfl, hvalid⟩ := h
  obtain ⟨hnext, hlisted⟩ := deleteOne_spec hvalid (heeds_of_lawful value _)
  exact ⟨hlisted, hnext⟩

theorem refines_deleteAll (value : a) :
    Refines (deleteAll value bag) (SortedBags.deleteAll compare value items) := by
  obtain ⟨rfl, hvalid⟩ := h
  obtain ⟨hnext, hlisted⟩ := deleteAll_spec hvalid (heeds_of_lawful value _)
  exact ⟨hlisted, hnext⟩

theorem refines_fold (values : List a) :
    Refines (values.foldl (fun bag value => insert value bag) bag)
      (values.foldl (fun items value => SortedBags.insert compare value items) items) := by
  induction values generalizing bag items with
  | nil => exact h
  | cons value values ih => exact ih (refines_insert h value)

end

theorem produce_agrees (versions : List (SortedBag a)) (models : List (List a)) (edit : Edit a)
    (h : List.Forall₂ Refines versions models) (hallowed : Allowed versions edit) :
    Agrees (List.Forall₂ Refines) (produce versions edit) (ListModel.produce models edit) := by
  cases edit with
  | empty => exact .ok (.cons refines_empty .nil)
  | singleton value => exact .ok (.cons (refines_singleton value) .nil)
  | fromList values => exact .ok (.cons (refines_fold refines_empty values) .nil)
  | insert version value =>
      exact onVersion_agrees h version fun _ _ hrefines =>
        .ok (.cons (refines_insert hrefines value) .nil)
  | deleteOne version value =>
      exact onVersion_agrees h version fun _ _ hrefines =>
        .ok (.cons (refines_deleteOne hrefines value) .nil)
  | deleteAll version value =>
      exact onVersion_agrees h version fun _ _ hrefines =>
        .ok (.cons (refines_deleteAll hrefines value) .nil)
  | deleteAt version position =>
      have hpicked := getElem?_refines h version
      rw [Allowed] at hallowed
      rw [produce, ListModel.produce, onVersion, onVersion]
      generalize versions[version]? = bag at hpicked hallowed ⊢
      generalize models[version]? = items at hpicked ⊢
      cases hpicked with
      | none => exact .ok .nil
      | some hrefines =>
          exact .ok (toList_refines (refines_deleteAt hrefines position (hallowed _ rfl)))
  | slice version position lengthValue =>
      exact onVersion_agrees h version fun _ _ hrefines =>
        .ok (toList_refines (refines_slice hrefines position lengthValue))

theorem Refines.observes (h : Refines bag items) : Observes bag items := by
  obtain ⟨rfl, hvalid⟩ := h
  exact ⟨rfl, hvalid.flat_ascending, fun _ hbucket => values_ne_nil hvalid hbucket,
    hvalid.ascending, count_eq bag,
    by rw [Bool.eq_iff_iff, null_iff hvalid, List.isEmpty_iff],
    distinctCount_eq hvalid, toCounts_eq hvalid, minValue_eq hvalid, maxValue_eq hvalid,
    fun value => countOf_eq hvalid (heeds_of_lawful value _),
    fun value =>
      member_eq hvalid (heeds_of_lawful value _), countLessThan_eq hvalid, countAtMost_eq hvalid,
    fun position => index_eq position bag⟩

end Steps

theorem grow_observes_allowed [Std.TransOrd a] [Std.LawfulBEqOrd a] (edits : List (Edit a))
    (hallowed : AllAllowed produce Allowed [] edits) :
    List.Forall₂ Observes (grow produce [] edits) (grow ListModel.produce [] edits) ∧
    ∀ edit, Allowed (grow produce [] edits) edit →
      Agrees (List.Forall₂ Observes) (produce (grow produce [] edits) edit)
        (ListModel.produce (grow ListModel.produce [] edits) edit) := by
  have hversions : List.Forall₂ Refines (grow produce [] edits) (grow ListModel.produce [] edits) :=
    grow_refines_allowed produce_agrees .nil edits hallowed
  refine ⟨hversions.imp fun _ _ h => h.observes, fun edit hedit => ?_⟩
  exact (produce_agrees _ _ edit hversions hedit).imp fun _ _ h =>
    h.imp fun _ _ hrefines => hrefines.observes

def endDeletions : List (Edit Nat) :=
  [.fromList [5, 3, 5, 5], .deleteAt 0 3, .slice 0 1 2, .deleteAll 1 5]

theorem grow_observes_ends :
    List.Forall₂ Observes (grow produce [] endDeletions)
      (grow ListModel.produce [] endDeletions) := by
  refine (grow_observes_allowed endDeletions ⟨trivial, ?_, trivial, trivial, trivial⟩).1
  intro bag hbag
  cases hbag
  have hlisted : toList (fromList [5, 3, 5, 5]) = [3, 5, 5, 5] :=
    (refines_fold refines_empty [5, 3, 5, 5]).listed
  rw [hlisted]
  decide

/-- Three equal values without the middle one become two buckets. -/
theorem middle_not_observed :
    ¬ ∀ edits : List (Edit Nat),
      List.Forall₂ Observes (grow produce [] edits) (grow ListModel.produce [] edits) := by
  intro h
  have hsplit := h [.fromList [5, 5, 5], .deleteAt 0 1]
  have hmodel : grow ListModel.produce [] [Edit.fromList [5, 5, 5], .deleteAt 0 1] =
      [[5, 5, 5], [5, 5]] := by decide
  rw [hmodel] at hsplit
  cases hsplit with
  | cons _ hrest =>
      cases hrest with
      | cons hlast _ => exact absurd hlast.distinct (by decide)

end Durable7.FingerTree.SortedBag
