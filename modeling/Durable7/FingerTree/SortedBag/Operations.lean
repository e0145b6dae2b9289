import Durable7.FingerTree.Measured.Ranks
import Durable7.Foundation.SortedSets

/-!
# Sorted bags

A measured tree of buckets in ascending order.  A bucket holds the equal instances of one key, and
the measure counts instances and buckets and remembers the last key.  An edit by rank cuts buckets.
-/

namespace Durable7.FingerTree

open Foundation Nat

@[ext]
structure SortedBag.BagMeasure (a : Type) where
  total : Nat
  distinct : Nat
  lastKey : Option a

structure SortedBag.Bucket (a : Type) where
  key : a
  values : List a

instance {a : Type} : Monoid (SortedBag.BagMeasure a) where
  one := ⟨0, 0, none⟩
  mul left right :=
    ⟨left.total + right.total, left.distinct + right.distinct, right.lastKey.or left.lastKey⟩
  one_mul measure := by
    ext1
    · exact zero_add _
    · exact zero_add _
    · exact Option.or_none
  mul_one measure := by
    ext1
    · exact add_zero _
    · exact add_zero _
    · exact Option.none_or
  mul_assoc first second third := by
    ext1
    · exact add_assoc _ _ _
    · exact add_assoc _ _ _
    · exact Option.or_assoc.symm

instance {a : Type} : Measured (SortedBag.BagMeasure a) (SortedBag.Bucket a) where
  measure bucket := ⟨bucket.values.length, 1, some bucket.key⟩

structure SortedBag (a : Type) where
  buckets : Measured.ValidTree (SortedBag.BagMeasure a) (SortedBag.Bucket a)

namespace SortedBag

variable {a : Type}

abbrev BagTree (a : Type) := Measured.ValidTree (BagMeasure a) (Bucket a)

def singletonBucket (value : a) : Bucket a := ⟨value, [value]⟩

def appendBucket (value : a) (bucket : Bucket a) : Bucket a :=
  ⟨bucket.key, bucket.values ++ [value]⟩

/-- The first surviving instance becomes the key. -/
def rekeyedBucket (value : a) (rest : List a) : Bucket a := ⟨value, value :: rest⟩

def empty : SortedBag a := ⟨.empty⟩

def singleton (value : a) : SortedBag a := ⟨.singleton (singletonBucket value)⟩

/-- The instances of a tree. -/
def treeList (tree : BagTree a) : List a := tree.toList.flatMap Bucket.values

def toList (bag : SortedBag a) : List a := treeList bag.buckets

def toCounts (bag : SortedBag a) : List (a × Nat) :=
  bag.buckets.toList.map fun bucket => (bucket.key, bucket.values.length)

def count (bag : SortedBag a) : Nat := bag.buckets.measure.total

def null (bag : SortedBag a) : Bool := bag.buckets.null

def distinctCount (bag : SortedBag a) : Nat := bag.buckets.measure.distinct

def minValue (bag : SortedBag a) : Option a := bag.buckets.head.bind fun bucket => bucket.values[0]?

def maxValue (bag : SortedBag a) : Option a :=
  bag.buckets.last.bind fun bucket => bucket.values[bucket.values.length - 1]?

def snocInstances (left : BagTree a) (key : a) (values : List a) : BagTree a :=
  if values.isEmpty then left else left.snoc ⟨key, values⟩

def consInstances (values : List a) (right : BagTree a) : BagTree a :=
  match values with
  | [] => right
  | value :: rest => right.cons (rekeyedBucket value rest)

def splitAtRank (position : Int) (buckets : BagTree a) : BagTree a × BagTree a :=
  if position ≤ 0 then (.empty, buckets)
  else if position ≥ buckets.measure.total then (buckets, .empty)
  else
    match buckets.split fun measure => decide (measure.total > position.toNat) with
    | none => (buckets, .empty)
    | some (left, bucket, right) =>
        let offset := position.toNat - left.measure.total
        (snocInstances left bucket.key (bucket.values.take offset),
          consInstances (bucket.values.drop offset) right)

def index (position : Int) (bag : SortedBag a) : Option a :=
  if position < 0 ∨ position ≥ count bag then none
  else
    (bag.buckets.locate fun measure => decide (measure.total > position.toNat)).bind fun found =>
      found.2.values[position.toNat - found.1.total]?

def deleteAt (position : Int) (bag : SortedBag a) : Option (SortedBag a) :=
  if position < 0 ∨ position ≥ count bag then none
  else
    let parts := splitAtRank position bag.buckets
    let right := (splitAtRank 1 parts.2).2
    some ⟨parts.1.append right⟩

def slice (position lengthValue : Int) (bag : SortedBag a) : Option (SortedBag a) :=
  if !Measured.Ranked.isValidRange position lengthValue (count bag) then none
  else
    let afterPosition := (splitAtRank position bag.buckets).2
    some ⟨(splitAtRank lengthValue afterPosition).1⟩

/-! ## By key -/

def joinWithBucket (left : BagTree a) (bucket : Bucket a) (right : BagTree a) : BagTree a :=
  (left.snoc bucket).append right

def measureBeforeCount (located : Option (BagMeasure a × Bucket a)) (whole : BagMeasure a) : Nat :=
  match located with
  | some (before, _) => before.total
  | none => whole.total

section Ordered

variable [Ord a]

def reaches (value : a) (measure : BagMeasure a) : Bool :=
  measure.lastKey.any fun last => compare last value != .lt

def passes (value : a) (measure : BagMeasure a) : Bool :=
  measure.lastKey.any fun last => compare last value == .gt

def locateAtLeast (value : a) (buckets : BagTree a) : Option (BagMeasure a × Bucket a) :=
  buckets.locate (reaches value)

def locateAbove (value : a) (buckets : BagTree a) : Option (BagMeasure a × Bucket a) :=
  buckets.locate (passes value)

def splitAtLeast (value : a) (buckets : BagTree a) : Option (BagTree a × Bucket a × BagTree a) :=
  buckets.split (reaches value)

def countLessThan (value : a) (bag : SortedBag a) : Nat :=
  measureBeforeCount (locateAtLeast value bag.buckets) bag.buckets.measure

def countAtMost (value : a) (bag : SortedBag a) : Nat :=
  measureBeforeCount (locateAbove value bag.buckets) bag.buckets.measure

variable [BEq a]

def countOf (value : a) (bag : SortedBag a) : Nat :=
  match locateAtLeast value bag.buckets with
  | some (_, bucket) => if bucket.key == value then bucket.values.length else 0
  | none => 0

def member (value : a) (bag : SortedBag a) : Bool := decide (countOf value bag > 0)

def insert (value : a) (bag : SortedBag a) : SortedBag a :=
  match splitAtLeast value bag.buckets with
  | none => ⟨bag.buckets.snoc (singletonBucket value)⟩
  | some (left, bucket, right) =>
      if bucket.key == value then ⟨joinWithBucket left (appendBucket value bucket) right⟩
      else ⟨(left.snoc (singletonBucket value)).append (right.cons bucket)⟩

def fromList (values : List a) : SortedBag a :=
  values.foldl (fun bag value => insert value bag) empty

def deleteOne (value : a) (bag : SortedBag a) : SortedBag a :=
  match splitAtLeast value bag.buckets with
  | none => bag
  | some (left, bucket, right) =>
      if bucket.key == value then
        match bucket.values with
        | [] => bag
        | [_] => ⟨left.append right⟩
        | _ :: next :: rest => ⟨joinWithBucket left (rekeyedBucket next rest) right⟩
      else bag

def deleteAll (value : a) (bag : SortedBag a) : SortedBag a :=
  match splitAtLeast value bag.buckets with
  | none => bag
  | some (left, bucket, right) => if bucket.key == value then ⟨left.append right⟩ else bag

end Ordered

end SortedBag

end Durable7.FingerTree

/-!
## Sorted bags as sorted lists

One bucket a class is the invariant.  Under it the searches by key and the cuts by rank are those of
the sorted list of all instances.
-/

namespace Durable7.FingerTree.SortedBag

open Foundation List
open Foundation.SortedBags (Grouped Parted)

variable {a : Type}

section

open Measured.ValidTree Std.TransCmp
open Measured (foldMeasure)

/-! ### Measures -/

def weight (bucket : Bucket a) : Nat := bucket.values.length

section

variable (buckets : List (Bucket a))

theorem foldMeasure_total :
    (foldMeasure buckets : BagMeasure a).total = (buckets.map weight).sum := by
  induction buckets with
  | nil => rfl
  | cons bucket buckets ih =>
      rw [Measured.foldMeasure_cons, map_cons, sum_cons, ← ih]
      rfl

theorem foldMeasure_distinct :
    (foldMeasure buckets : BagMeasure a).distinct = buckets.length := by
  induction buckets with
  | nil => rfl
  | cons bucket buckets ih =>
      rw [Measured.foldMeasure_cons, length_cons, ← ih]
      exact Nat.add_comm _ _

theorem foldMeasure_lastKey :
    (foldMeasure buckets : BagMeasure a).lastKey = (buckets.map id).getLast?.map Bucket.key := by
  induction buckets with
  | nil => rfl
  | cons bucket buckets ih =>
      rw [Measured.foldMeasure_cons]
      change (foldMeasure buckets : BagMeasure a).lastKey.or (some bucket.key) = _
      rw [ih, map_cons, List.getLast?_cons]
      cases (buckets.map id).getLast? <;> rfl

theorem weights_sum :
    (buckets.map weight).sum = (buckets.flatMap Bucket.values).length :=
  length_flatMap.symm

end

theorem measure_total (tree : BagTree a) : tree.measure.total = (treeList tree).length := by
  rw [tree.measure_eq, foldMeasure_total, weights_sum, treeList]

theorem count_eq (bag : SortedBag a) : count bag = (toList bag).length := measure_total _

theorem treeList_empty : treeList (.empty : BagTree a) = [] := by
  rw [treeList, toList_empty]
  rfl

theorem treeList_cons (bucket : Bucket a) (tree : BagTree a) :
    treeList (tree.cons bucket) = bucket.values ++ treeList tree := by
  rw [treeList, toList_cons]
  rfl

theorem treeList_snoc (tree : BagTree a) (bucket : Bucket a) :
    treeList (tree.snoc bucket) = treeList tree ++ bucket.values := by
  rw [treeList, toList_snoc, flatMap_append, flatMap_singleton]
  rfl

theorem treeList_append (left right : BagTree a) :
    treeList (left.append right) = treeList left ++ treeList right := by
  rw [treeList, toList_append, flatMap_append]
  rfl

theorem treeList_parts {tree left right : BagTree a} {bucket : Bucket a}
    (h : tree.toList = left.toList ++ bucket :: right.toList) :
    treeList tree = treeList left ++ bucket.values ++ treeList right := by
  rw [treeList, h, flatMap_append, flatMap_cons, append_assoc]
  rfl

variable [Ord a]

/-- One bucket a class. -/
def Valid (tree : BagTree a) : Prop := Grouped Bucket.key Bucket.values compare tree.toList

variable {tree : BagTree a} {bag : SortedBag a}

theorem valid_empty : Valid (.empty : BagTree a) := by
  rw [Valid, toList_empty]
  exact .nil

variable [Std.TransOrd a]

theorem grouped_singleton (value : a) :
    Grouped Bucket.key Bucket.values compare [singletonBucket value] :=
  .singleton rfl fun other hother => by
    rw [mem_singleton.mp hother]
    exact Std.ReflCmp.compare_self

theorem grouped_replace {left right : List (Bucket a)} {bucket next : Bucket a}
    (h : Grouped Bucket.key Bucket.values compare (left ++ bucket :: right))
    (hfirst : next.values.head? = some next.key)
    (halike : ∀ value ∈ next.values, compare value bucket.key = .eq) :
    Grouped Bucket.key Bucket.values compare (left ++ next :: right) := by
  have hbucket : bucket ∈ left ++ bucket :: right := mem_append_right _ mem_cons_self
  have hkey : compare next.key bucket.key = .eq := halike _ (mem_of_mem_head? hfirst)
  have hless := h.flat_lt
  rw [flatMap_cons] at hless
  have hright : Grouped Bucket.key Bucket.values compare (bucket :: right) :=
    h.sublist (sublist_append_right _ _)
  have hmember := hright.key_mem mem_cons_self
  have hsingle : Grouped Bucket.key Bucket.values compare [next] := by
    refine .singleton hfirst fun value hvalue => ?_
    rw [congr_left (halike value hvalue)]
    exact Std.OrientedCmp.eq_symm hkey
  have hnext : Grouped Bucket.key Bucket.values compare ([next] ++ right) := by
    refine hsingle.append (hright.sublist (sublist_cons_self _ _)) ?_
    intro before hbefore after hafter
    rw [flatMap_singleton] at hbefore
    rw [congr_left (halike before hbefore)]
    exact hright.cons_lt _ hmember after hafter
  refine (h.sublist (sublist_append_left _ _)).append hnext ?_
  intro before hbefore after hafter
  rw [flatMap_cons] at hafter
  rcases mem_append.mp hafter with hafter | hafter
  · rw [congr_right (halike after hafter)]
    exact hless before hbefore _ (mem_append_left _ hmember)
  · exact hless before hbefore after (mem_append_right _ hafter)

/-- Equality implies comparing equal. -/
class FinerEq (a : Type) [Ord a] [BEq a] : Prop where
  compare_eq : ∀ {first second : a}, (first == second) = true → compare first second = .eq

/-- A probe equals every key that compares equal with it. -/
def Heeds [BEq a] (value : a) (tree : BagTree a) : Prop :=
  ∀ bucket ∈ tree.toList, compare bucket.key value = .eq → (bucket.key == value) = true

section Same

variable [BEq a]

instance [Std.LawfulBEqOrd a] : FinerEq a := ⟨Std.LawfulBEqOrd.compare_eq_iff_beq.mpr⟩

omit [Std.TransOrd a] in
theorem heeds_of_lawful [Std.LawfulBEqOrd a] (value : a) (tree : BagTree a) : Heeds value tree :=
  fun _ _ => Std.LawfulBEqOrd.compare_eq_iff_beq.mp

omit [Std.TransOrd a] in
theorem Heeds.beq {value : a} {bucket : Bucket a} {front back : List (Bucket a)}
    (h : Heeds value tree) (hlist : tree.toList = front ++ bucket :: back)
    (hcompare : compare bucket.key value = .eq) : (bucket.key == value) = true :=
  h bucket (hlist ▸ mem_append_right _ mem_cons_self) hcompare

omit [Std.TransOrd a] in
theorem not_beq_of_gt [FinerEq a] {first second : a} (h : compare first second = .gt) :
    ¬ (first == second) = true := by
  intro hbeq
  rw [FinerEq.compare_eq hbeq] at h
  cases h

end Same

theorem splitAtLeast_cases (h : Valid tree) (value : a) :
    (splitAtLeast value tree = none ∧ Parted compare value (treeList tree) [] []) ∨
    ∃ left bucket right, splitAtLeast value tree = some (left, bucket, right) ∧
      tree.toList = left.toList ++ bucket :: right.toList ∧
      ((compare bucket.key value = .eq ∧
        Parted compare value (treeList left) bucket.values (treeList right)) ∨
      (compare bucket.key value = .gt ∧
        Parted compare value (treeList left) [] (bucket.values ++ treeList right))) := by
  have hordering : ∀ {buckets : List (Bucket a)} {ordering : Ordering},
      (∀ bucket ∈ buckets, bucket ∈ tree.toList ∧ compare bucket.key value = ordering) →
      ∀ item ∈ buckets.flatMap Bucket.values, compare item value = ordering := by
    intro buckets ordering hbuckets item hitem
    obtain ⟨bucket, hbucket, hitem⟩ := mem_flatMap.mp hitem
    obtain ⟨hmem, hcompare⟩ := hbuckets bucket hbucket
    rw [congr_left (h.alike bucket hmem item hitem)]
    exact hcompare
  have hsorted : StrictlySorted compare Bucket.key (tree.toList.map id) := by
    rw [map_id]
    exact h.ascending
  rcases @split_atLeast _ _ _ _ _ _ _ _ _ _ _ foldMeasure_lastKey tree hsorted
    (reaches value) value (fun measure => rfl) with
    ⟨hsplit, -, hbelow, -⟩ | ⟨left, bucket, right, hsplit, hlist, hbelow, hcases⟩
  · rw [map_id] at hbelow
    refine .inl ⟨hsplit, hordering fun bucket hbucket => ⟨hbucket, ?_⟩, ?_, ?_⟩
    · rw [← hbelow] at hbucket
      exact (mem_below.mp hbucket).2
    · exact forall_mem_nil _
    · exact forall_mem_nil _
  · rw [map_id, map_id] at hbelow
    have hfront : ∀ item ∈ treeList left, compare item value = .lt := by
      refine hordering fun other hother => ?_
      rw [← hbelow] at hother
      exact mem_below.mp hother
    rw [map_id, map_id] at hcases
    refine .inr ⟨left, bucket, right, hsplit, hlist, ?_⟩
    rcases hcases with ⟨hcompare, -, habove⟩ | ⟨hcompare, -, habove⟩
    · refine .inl ⟨hcompare, hfront, ?_, hordering fun other hother => ?_⟩
      · have hbucket := @hordering [bucket] .eq (by
          rw [forall_mem_singleton, hlist]
          exact ⟨mem_append_right _ mem_cons_self, hcompare⟩)
        rwa [flatMap_singleton] at hbucket
      · rw [← habove] at hother
        exact mem_above.mp hother
    · refine .inr ⟨hcompare, hfront, forall_mem_nil _, ?_⟩
      change ∀ item ∈ (bucket :: right.toList).flatMap Bucket.values, compare item value = .gt
      refine hordering fun other hother => ?_
      rw [id] at habove
      rw [← habove] at hother
      exact mem_above.mp hother

end

/-!
## Reads of sorted bags
-/

variable [Ord a] {bag : SortedBag a} (h : Valid bag.buckets)

include h

theorem values_ne_nil {bucket : Bucket a} (hbucket : bucket ∈ bag.buckets.toList) :
    bucket.values ≠ [] :=
  ne_nil_of_mem (h.key_mem hbucket)

theorem null_iff : null bag = true ↔ toList bag = [] := by
  rw [null, bag.buckets.null_iff, toList, treeList]
  constructor
  · intro hnil
    rw [hnil]
    rfl
  · intro hnil
    apply eq_nil_iff_forall_not_mem.mpr
    intro bucket hbucket
    exact values_ne_nil h hbucket (flatMap_eq_nil_iff.mp hnil bucket hbucket)

theorem minValue_eq : minValue bag = (toList bag).head? := by
  rw [minValue, bag.buckets.head_eq, toList, treeList]
  cases hbuckets : bag.buckets.toList with
  | nil => rfl
  | cons bucket buckets =>
      have hfilled := values_ne_nil h (hbuckets ▸ mem_cons_self)
      rw [List.head?_cons, Option.bind_some, flatMap_cons, List.head?_append_of_ne_nil _ hfilled,
        List.head?_eq_getElem?]

theorem maxValue_eq : maxValue bag = (toList bag).getLast? := by
  rw [maxValue, bag.buckets.last_eq, toList, treeList]
  cases hbuckets : bag.buckets.toList using List.reverseRecOn with
  | nil => rfl
  | append_singleton buckets bucket =>
      have hfilled := values_ne_nil h (hbuckets ▸ mem_append_right _ mem_cons_self)
      rw [List.getLast?_concat, Option.bind_some, flatMap_append, flatMap_singleton,
        List.getLast?_append_of_ne_nil _ hfilled, List.getLast?_eq_getElem?]

variable [Std.TransOrd a]

theorem distinctCount_eq :
    distinctCount bag = (SortedBags.distinct compare (toList bag)).length := by
  rw [distinctCount, bag.buckets.measure_eq, foldMeasure_distinct, toList, treeList, h.distinct_eq,
    length_map]

theorem toCounts_eq : toCounts bag = SortedBags.counts compare (toList bag) := h.counts_eq.symm

theorem countLessThan_eq (value : a) :
    countLessThan value bag = (below compare id value (toList bag)).length := by
  have hlocate : locateAtLeast value bag.buckets =
      (splitAtLeast value bag.buckets).map fun parts => (parts.1.measure, parts.2.1) := rfl
  rw [countLessThan, hlocate]
  rcases splitAtLeast_cases h value with ⟨hsplit, hparted⟩ |
    ⟨left, bucket, right, hsplit, hlist, ⟨-, hparted⟩ | ⟨-, hparted⟩⟩
  · have hbelow := hparted.below_eq
    rw [append_nil, append_nil] at hbelow
    rw [hsplit, toList, hbelow]
    exact measure_total _
  · rw [hsplit, toList, treeList_parts hlist, hparted.below_eq]
    exact measure_total _
  · have hbelow := hparted.below_eq
    rw [append_nil, ← append_assoc, ← treeList_parts hlist] at hbelow
    rw [hsplit, toList, hbelow]
    exact measure_total _

theorem countAtMost_eq (value : a) :
    countAtMost value bag = (atMost compare id value (toList bag)).length := by
  have hlocate : locateAbove value bag.buckets =
      (bag.buckets.split (passes value)).map fun parts => (parts.1.measure, parts.2.1) := rfl
  have hsorted : StrictlySorted compare Bucket.key (bag.buckets.toList.map id) := by
    rw [map_id]
    exact h.ascending
  have hkeep : ∀ buckets : List (Bucket a), (∀ bucket ∈ buckets, bucket ∈ bag.buckets.toList) →
      (∀ bucket ∈ buckets, compare bucket.key value ≠ .gt) →
      ∀ item ∈ buckets.flatMap Bucket.values, (compare item value != .gt) = true := by
    intro buckets hmem hne item hitem
    obtain ⟨bucket, hbucket, hitem⟩ := mem_flatMap.mp hitem
    rw [Std.TransCmp.congr_left (h.alike bucket (hmem bucket hbucket) item hitem), bne_iff_ne]
    exact hne bucket hbucket
  rw [countAtMost, hlocate]
  rcases @Measured.ValidTree.split_above _ _ _ _ _ _ _ _ _ _ _ foldMeasure_lastKey bag.buckets
    hsorted (passes value) value (fun measure => rfl) with
    ⟨hsplit, habove⟩ | ⟨left, bucket, right, hsplit, hlist, habove, hleft⟩
  · rw [map_id] at habove
    have hall : atMost compare id value (toList bag) = toList bag := by
      apply filter_eq_self.mpr
      apply hkeep bag.buckets.toList fun bucket hbucket => hbucket
      intro bucket hbucket hgt
      exact not_mem_nil (habove ▸ mem_above.mpr ⟨hbucket, hgt⟩)
    rw [hsplit, hall]
    exact measure_total _
  · rw [map_id, map_id] at habove
    have hfront : atMost compare id value (toList bag) = treeList left := by
      rw [toList, treeList, hlist, flatMap_append, atMost, filter_append,
        filter_eq_self.mpr, filter_eq_nil_iff.mpr, append_nil]
      · rfl
      · intro item hitem
        obtain ⟨other, hother, hitem⟩ := mem_flatMap.mp hitem
        change other ∈ id bucket :: right.toList at hother
        rw [← habove] at hother
        obtain ⟨hmem, hgt⟩ := mem_above.mp hother
        rw [id, Std.TransCmp.congr_left (h.alike other hmem item hitem), hgt]
        decide
      · refine hkeep left.toList (fun other hother => ?_) fun other hother => ?_
        · rw [hlist]
          exact mem_append_left _ hother
        · exact hleft other (by rwa [map_id])
    rw [hsplit, hfront]
    exact measure_total _

variable [BEq a] [FinerEq a] {value : a} (hheeds : Heeds value bag.buckets)

include hheeds

theorem countOf_eq : countOf value bag = SortedBags.countOf compare value (toList bag) := by
  have hlocate : locateAtLeast value bag.buckets =
      (splitAtLeast value bag.buckets).map fun parts => (parts.1.measure, parts.2.1) := rfl
  rw [countOf, hlocate]
  rcases splitAtLeast_cases h value with ⟨hsplit, hparted⟩ |
    ⟨left, bucket, right, hsplit, hlist, ⟨hcompare, hparted⟩ | ⟨hcompare, hparted⟩⟩
  · have hcount := hparted.countOf_eq
    rw [append_nil, append_nil] at hcount
    rw [hsplit, toList, hcount]
    rfl
  · rw [hsplit, toList, treeList_parts hlist, hparted.countOf_eq]
    exact if_pos (hheeds.beq hlist hcompare)
  · have hcount := hparted.countOf_eq
    rw [append_nil, ← append_assoc, ← treeList_parts hlist] at hcount
    rw [hsplit, toList, hcount]
    exact if_neg (not_beq_of_gt hcompare)

theorem member_eq : member value bag = (toList bag).any fun item => compare item value == .eq := by
  rw [member, countOf_eq h hheeds, SortedBags.countOf, Bool.eq_iff_iff, decide_eq_true_iff,
    gt_iff_lt,
    countP_pos_iff, any_eq_true]

end Durable7.FingerTree.SortedBag
