import Durable7.FingerTree.Measured.Searches

/-!
# Interval trees

A measured tree of closed intervals in the order of their low ends.  The measure counts intervals
and remembers the maximum high end and the last low end.
-/

namespace Durable7.FingerTree

open Foundation

structure Interval (a : Type) where
  low : a
  high : a

namespace IntervalTree

variable {a : Type}

@[ext]
structure IntervalMeasure (a : Type) where
  total : Nat
  maximumHigh : Option a
  lastLow : Option a

structure IntervalEntry (a : Type) where
  getInterval : Interval a

/-! ## Maxima -/

section Maxima

variable [Ord a]

/-- The later one of equivalent values. -/
def max (left right : a) : a := if (compare left right).isLE then right else left

def maxMaybe : Option a → Option a → Option a
  | none, right => right
  | left, none => left
  | some left, some right => some (max left right)

theorem maxMaybe_none (left : Option a) : maxMaybe left none = left := by
  cases left <;> rfl

variable [Std.TransOrd a]

theorem max_assoc (first second third : a) :
    max (max first second) third = max first (max second third) := by
  unfold max
  by_cases hfirst : (compare first second).isLE
  · rw [if_pos hfirst]
    by_cases hsecond : (compare second third).isLE
    · rw [if_pos hsecond, if_pos (Std.TransCmp.isLE_trans hfirst hsecond)]
    · rw [if_neg hsecond, if_pos hfirst]
  · rw [if_neg hfirst]
    by_cases hsecond : (compare second third).isLE
    · rw [if_pos hsecond]
    · rw [if_neg hsecond, if_neg hfirst, if_neg]
      intro hthird
      have hgreater : compare second first = .lt := by
        rw [← Std.OrientedCmp.gt_iff_lt]
        cases hcompare : compare first second <;> simp_all
      exact hsecond (Std.TransCmp.isLE_trans (by rw [hgreater]; rfl) hthird)

theorem maxMaybe_assoc (first second third : Option a) :
    maxMaybe (maxMaybe first second) third = maxMaybe first (maxMaybe second third) := by
  cases first with
  | none => rfl
  | some first =>
      cases second with
      | none => rfl
      | some second =>
          cases third with
          | none => rfl
          | some third => exact congrArg some (max_assoc first second third)

end Maxima

instance [Ord a] [Std.TransOrd a] : Monoid (IntervalMeasure a) where
  one := ⟨0, none, none⟩
  mul left right :=
    ⟨left.total + right.total, maxMaybe left.maximumHigh right.maximumHigh,
      right.lastLow.or left.lastLow⟩
  one_mul measure := by
    ext1
    · exact Nat.zero_add _
    · rfl
    · exact Option.or_none
  mul_one measure := by
    ext1
    · exact Nat.add_zero _
    · exact maxMaybe_none _
    · exact Option.none_or
  mul_assoc first second third := by
    ext1
    · exact Nat.add_assoc _ _ _
    · exact maxMaybe_assoc _ _ _
    · exact Option.or_assoc.symm

instance [Ord a] [Std.TransOrd a] : Measured (IntervalMeasure a) (IntervalEntry a) where
  measure entry := ⟨1, some entry.getInterval.high, some entry.getInterval.low⟩

end IntervalTree

variable {a : Type} [Ord a] [Std.TransOrd a]

structure IntervalTree (a : Type) [Ord a] [Std.TransOrd a] where
  values : Measured.ValidTree (IntervalTree.IntervalMeasure a) (IntervalTree.IntervalEntry a)

namespace IntervalTree

abbrev EntryTree (a : Type) [Ord a] [Std.TransOrd a] :=
  Measured.ValidTree (IntervalMeasure a) (IntervalEntry a)

def mkInterval (lowValue highValue : a) : Option (Interval a) :=
  if (compare lowValue highValue).isLE then some ⟨lowValue, highValue⟩ else none

def empty : IntervalTree a := ⟨.empty⟩

/-- The intervals of a tree. -/
def treeList (tree : EntryTree a) : List (Interval a) := tree.toList.map IntervalEntry.getInterval

def toList (tree : IntervalTree a) : List (Interval a) := treeList tree.values

def count (tree : IntervalTree a) : Nat := tree.values.measure.total

def null (tree : IntervalTree a) : Bool := tree.values.null

def sameInterval (left right : Interval a) : Bool :=
  compare left.low right.low == .eq && compare left.high right.high == .eq

def atOrAbove (lowValue : a) (measure : IntervalMeasure a) : Bool :=
  measure.lastLow.any fun last => compare last lowValue != .lt

def splitLowerBound (lowValue : a) (tree : EntryTree a) : EntryTree a × EntryTree a :=
  match tree.split (atOrAbove lowValue) with
  | none => (tree, .empty)
  | some (left, entry, right) => (left, right.cons entry)

def insert (interval : Interval a) (tree : IntervalTree a) : Except String (IntervalTree a) :=
  if compare interval.low interval.high = .gt then
    .error "Durable7.FingerTree.IntervalTree.insert: invalid interval"
  else
    let parts := splitLowerBound interval.low tree.values
    .ok ⟨parts.1.append (parts.2.cons ⟨interval⟩)⟩

def singleton (interval : Interval a) : Except String (IntervalTree a) := insert interval empty

def fromList (intervals : List (Interval a)) : Except String (IntervalTree a) :=
  intervals.foldlM (fun tree interval => insert interval tree) empty

def deleteFromEqualRun (target : Interval a) (skipped candidates : EntryTree a) :
    Option (EntryTree a) :=
  match _hview : candidates.viewL with
  | none => none
  | some (entry, rest) =>
      if compare entry.getInterval.low target.low ≠ .eq then none
      else if sameInterval entry.getInterval target then some (skipped.append rest)
      else deleteFromEqualRun target (skipped.snoc entry) rest
termination_by candidates.toList.length
decreasing_by exact Measured.ValidTree.viewL_shorter _hview

def delete (interval : Interval a) (tree : IntervalTree a) : IntervalTree a :=
  let parts := splitLowerBound interval.low tree.values
  match deleteFromEqualRun interval .empty parts.2 with
  | none => tree
  | some remaining => ⟨parts.1.append remaining⟩

def containsInEqualRun (target : Interval a) (candidates : EntryTree a) : Bool :=
  match _hview : candidates.viewL with
  | none => false
  | some (entry, rest) =>
      if compare entry.getInterval.low target.low ≠ .eq then false
      else if sameInterval entry.getInterval target then true
      else containsInEqualRun target rest
termination_by candidates.toList.length
decreasing_by exact Measured.ValidTree.viewL_shorter _hview

def contains (interval : Interval a) (tree : IntervalTree a) : Bool :=
  containsInEqualRun interval (splitLowerBound interval.low tree.values).2

/-! ## Overlaps -/

def reachesProbe (probe : Interval a) (measure : IntervalMeasure a) : Bool :=
  measure.maximumHigh.any fun maximum => compare maximum probe.low != .lt

def nextOverlap (probe : Interval a) (tree : EntryTree a) : Option (Interval a × EntryTree a) :=
  match tree.split (reachesProbe probe) with
  | none => none
  | some (_, candidate, right) =>
      if (compare candidate.getInterval.low probe.high).isLE then
        some (candidate.getInterval, right)
      else none

theorem nextOverlap_shorter {probe found : Interval a} {tree rest : EntryTree a}
    (h : nextOverlap probe tree = some (found, rest)) :
    rest.toList.length < tree.toList.length := by
  unfold nextOverlap at h
  split at h
  · cases h
  · rename_i hsplit
    split at h
    · cases h
      exact Measured.ValidTree.split_shorter hsplit
    · cases h

def findOverlap (probe : Interval a) (tree : IntervalTree a) : Option (Interval a) :=
  (nextOverlap probe tree.values).map Prod.fst

def findOverlapsFrom (probe : Interval a) (tree : EntryTree a) : List (Interval a) :=
  match _hnext : nextOverlap probe tree with
  | none => []
  | some (interval, rest) => interval :: findOverlapsFrom probe rest
termination_by tree.toList.length
decreasing_by exact nextOverlap_shorter _hnext

def findOverlaps (probe : Interval a) (tree : IntervalTree a) : List (Interval a) :=
  findOverlapsFrom probe tree.values

def countOverlapsFrom (probe : Interval a) (total : Nat) (tree : EntryTree a) : Nat :=
  match _hnext : nextOverlap probe tree with
  | none => total
  | some (_, rest) => countOverlapsFrom probe (total + 1) rest
termination_by tree.toList.length
decreasing_by exact nextOverlap_shorter _hnext

def countOverlaps (probe : Interval a) (tree : IntervalTree a) : Nat :=
  countOverlapsFrom probe 0 tree.values

def findContaining (point : a) (tree : IntervalTree a) : Option (Interval a) :=
  findOverlap ⟨point, point⟩ tree

def mergeStep : List (Interval a) → Interval a → List (Interval a)
  | [], interval => [interval]
  | current :: merged, next =>
      if (compare next.low current.high).isLE then
        ⟨current.low, max current.high next.high⟩ :: merged
      else next :: current :: merged

def mergeSorted : List (Interval a) → List (Interval a)
  | [] => []
  | firstInterval :: rest => (rest.foldl mergeStep [firstInterval]).reverse

def coalesce (tree : IntervalTree a) : Except String (IntervalTree a) :=
  fromList (mergeSorted (toList tree))

def lowerBoundRank (lowValue : a) (tree : IntervalTree a) : Nat :=
  (splitLowerBound lowValue tree.values).1.measure.total

def index (position : Int) (tree : IntervalTree a) : Option (Interval a) :=
  if position < 0 ∨ position ≥ count tree then none
  else
    (tree.values.locate fun measure => decide (measure.total > position.toNat)).map fun found =>
      found.2.getInterval

def upperBoundFrom (lowValue : a) (tree : IntervalTree a) (position : Nat) : Nat :=
  match _hindex : index position tree with
  | none => position
  | some interval =>
      if compare interval.low lowValue = .eq then upperBoundFrom lowValue tree (position + 1)
      else position
termination_by count tree - position
decreasing_by
  unfold index at _hindex
  split at _hindex
  · cases _hindex
  · omega

def upperBoundRank (lowValue : a) (tree : IntervalTree a) : Nat :=
  upperBoundFrom lowValue tree (lowerBoundRank lowValue tree)

def deleteAt (position : Int) (tree : IntervalTree a) : Option (IntervalTree a) :=
  if position < 0 ∨ position ≥ count tree then none
  else
    match tree.values.split fun measure => decide (measure.total > position.toNat) with
    | none => none
    | some (left, _, right) => some ⟨left.append right⟩

end IntervalTree

end Durable7.FingerTree

/-!
## Lists of intervals

Closed intervals in the order of their low ends, and the merge of the ones that touch.
-/

namespace Durable7.FingerTree.IntervalTree

open Foundation List Std.TransCmp Std.ReflCmp

variable {a : Type} [Ord a]

/-- The low end is not above the high one. -/
def Proper (interval : Interval a) : Prop := (compare interval.low interval.high).isLE

def Covers (interval : Interval a) (point : a) : Prop :=
  (compare interval.low point).isLE ∧ (compare point interval.high).isLE

def CoveredBy (items : List (Interval a)) (point : a) : Prop :=
  ∃ interval ∈ items, Covers interval point

/-- Two closed intervals meet. -/
def meets (probe interval : Interval a) : Bool :=
  (compare interval.low probe.high).isLE && (compare probe.low interval.high).isLE

def Ascending (items : List (Interval a)) : Prop :=
  items.Pairwise fun before after => (compare before.low after.low).isLE

/-- Each interval ends before the next one begins. -/
def Separated (items : List (Interval a)) : Prop :=
  items.Pairwise fun before after => compare before.high after.low = .lt

namespace ListModel

def insert (interval : Interval a) (items : List (Interval a)) : List (Interval a) :=
  below compare Interval.low interval.low items ++
    interval :: atLeast compare Interval.low interval.low items

def delete (interval : Interval a) (items : List (Interval a)) : List (Interval a) :=
  items.eraseP fun item => compare item.low interval.low == .eq &&
    compare item.high interval.high == .eq

def overlapping (probe : Interval a) (items : List (Interval a)) : List (Interval a) :=
  items.filter (meets probe)

/-- The merge of an interval with those after it. -/
def absorb (current : Interval a) : List (Interval a) → List (Interval a)
  | [] => [current]
  | next :: rest =>
      if (compare next.low current.high).isLE then
        absorb ⟨current.low, max current.high next.high⟩ rest
      else current :: absorb next rest

def coalesce : List (Interval a) → List (Interval a)
  | [] => []
  | first :: rest => absorb first rest

end ListModel

theorem mergeSorted_eq (items : List (Interval a)) :
    mergeSorted items = ListModel.coalesce items := by
  cases items with
  | nil => rfl
  | cons first rest =>
      suffices h : ∀ current merged,
          (rest.foldl mergeStep (current :: merged)).reverse =
            merged.reverse ++ ListModel.absorb current rest from h first []
      induction rest with
      | nil =>
          intro current merged
          exact reverse_cons
      | cons next rest ih =>
          intro current merged
          rw [foldl_cons, mergeStep, ListModel.absorb]
          split
          · exact ih _ _
          · rw [ih, reverse_cons, append_assoc]
            rfl

/-! ### Orders -/

section Orders

variable [Std.TransOrd a] {left right third : a}

theorem not_isLE : ¬ (compare left right).isLE = true ↔ compare right left = .lt := by
  rw [← Std.OrientedCmp.gt_iff_lt]
  cases compare left right <;> simp

theorem ne_lt_iff : compare left right ≠ .lt ↔ (compare right left).isLE = true := by
  rw [← not_iff_not, not_not, not_isLE]

theorem isLE_max_left : (compare left (max left right)).isLE := by
  unfold max
  split
  · assumption
  · exact isLE_rfl

theorem isLE_max_right : (compare right (max left right)).isLE := by
  unfold max
  split
  · exact isLE_rfl
  · rename_i h
    rw [not_isLE.mp h]
    rfl

theorem max_isLE : (compare (max left right) third).isLE ↔
    (compare left third).isLE ∧ (compare right third).isLE := by
  constructor
  · intro h
    exact ⟨isLE_trans isLE_max_left h, isLE_trans isLE_max_right h⟩
  · rintro ⟨hleft, hright⟩
    unfold max
    split
    · exact hright
    · exact hleft

theorem isLE_max : (compare third (max left right)).isLE ↔
    (compare third left).isLE ∨ (compare third right).isLE := by
  constructor
  · unfold max
    split
    · exact Or.inr
    · exact Or.inl
  · rintro (h | h)
    · exact isLE_trans h isLE_max_left
    · exact isLE_trans h isLE_max_right

end Orders

variable [Std.TransOrd a] {items front back : List (Interval a)}
  {interval probe first next : Interval a} {target : a}

theorem meets_iff (hprobe : Proper probe) (hinterval : Proper interval) :
    meets probe interval = true ↔ ∃ point, Covers interval point ∧ Covers probe point := by
  rw [meets, Bool.and_eq_true]
  constructor
  · rintro ⟨hlow, hhigh⟩
    exact ⟨max interval.low probe.low,
      ⟨isLE_max_left, max_isLE.mpr ⟨hinterval, hhigh⟩⟩,
      ⟨isLE_max_right, max_isLE.mpr ⟨hlow, hprobe⟩⟩⟩
  · rintro ⟨point, hcovers, hprobed⟩
    exact ⟨isLE_trans hcovers.1 hprobed.2, isLE_trans hprobed.1 hcovers.2⟩

omit [Std.TransOrd a] in
theorem cut_eq (hfront : ∀ item ∈ front, compare item.low target = .lt)
    (hback : ∀ item ∈ back, compare item.low target ≠ .lt) :
    below compare Interval.low target (front ++ back) = front ∧
      atLeast compare Interval.low target (front ++ back) = back := by
  constructor
  · rw [below_append, below_self hfront, below_nil hback, append_nil]
  · rw [atLeast, filter_append, filter_eq_nil_iff.mpr, nil_append, filter_eq_self.mpr]
    · intro item hitem
      rw [bne_iff_ne]
      exact hback item hitem
    · intro item hitem
      rw [hfront item hitem]
      decide

theorem ascending_insert (h : Ascending items) : Ascending (ListModel.insert interval items) := by
  refine pairwise_append.mpr ⟨h.filter _, pairwise_cons.mpr ⟨?_, h.filter _⟩, ?_⟩
  · intro item hitem
    have hle := (mem_filter.mp hitem).2
    rw [bne_iff_ne] at hle
    exact ne_lt_iff.mp hle
  · intro before hbefore after hafter
    have hlt := (mem_below.mp hbefore).2
    rcases mem_cons.mp hafter with rfl | hafter
    · rw [hlt]
      rfl
    · have hle := (mem_filter.mp hafter).2
      rw [bne_iff_ne, ne_lt_iff] at hle
      exact isLE_trans (by rw [hlt]; rfl) hle

omit [Std.TransOrd a] in
theorem mem_insert_proper (h : ∀ item ∈ items, Proper item) (hinterval : Proper interval) :
    ∀ item ∈ ListModel.insert interval items, Proper item := by
  intro item hitem
  rcases mem_append.mp hitem with hitem | hitem
  · exact h item (mem_of_mem_filter hitem)
  · rcases mem_cons.mp hitem with rfl | hitem
    · exact hinterval
    · exact h item (mem_of_mem_filter hitem)

omit [Std.TransOrd a] in
theorem covered_cons {point : a} :
    CoveredBy (first :: items) point ↔ Covers first point ∨ CoveredBy items point := by
  rw [CoveredBy, exists_mem_cons_iff]
  rfl

theorem covers_merged (hle : (compare first.low next.low).isLE)
    (htouch : (compare next.low first.high).isLE) (point : a) :
    Covers ⟨first.low, max first.high next.high⟩ point ↔
      Covers first point ∨ Covers next point := by
  unfold Covers
  dsimp only
  rw [isLE_max]
  constructor
  · rintro ⟨hlow, hhigh | hhigh⟩
    · exact .inl ⟨hlow, hhigh⟩
    · by_cases hinside : (compare point first.high).isLE
      · exact .inl ⟨hlow, hinside⟩
      · have hafter := not_isLE.mp hinside
        exact .inr ⟨isLE_trans htouch (by rw [hafter]; rfl), hhigh⟩
  · rintro (⟨hlow, hhigh⟩ | ⟨hlow, hhigh⟩)
    · exact ⟨hlow, .inl hhigh⟩
    · exact ⟨isLE_trans hle hlow, .inr hhigh⟩

theorem absorb_spec (hproper : ∀ item ∈ first :: items, Proper item)
    (h : Ascending (first :: items)) :
    Separated (ListModel.absorb first items) ∧
      (∀ item ∈ ListModel.absorb first items, Proper item) ∧
      (∀ item ∈ ListModel.absorb first items, (compare first.low item.low).isLE) ∧
      ∀ point, CoveredBy (ListModel.absorb first items) point ↔
        CoveredBy (first :: items) point := by
  induction items generalizing first with
  | nil =>
      refine ⟨pairwise_singleton _ _, hproper, ?_, fun point => Iff.rfl⟩
      intro item hitem
      rw [mem_singleton.mp hitem]
      exact isLE_rfl
  | cons next items ih =>
      rw [forall_mem_cons, forall_mem_cons] at hproper
      obtain ⟨hfirst, hnext, hitems⟩ := hproper
      obtain ⟨hle, hrest⟩ := pairwise_cons.mp h
      rw [forall_mem_cons] at hle
      rw [ListModel.absorb]
      split
      · rename_i htouch
        have hmerged : Proper ⟨first.low, max first.high next.high⟩ :=
          isLE_trans hfirst isLE_max_left
        obtain ⟨hseparated, hkept, hlow, hcovered⟩ := ih
          (forall_mem_cons.mpr ⟨hmerged, hitems⟩)
          (pairwise_cons.mpr ⟨hle.2, (pairwise_cons.mp hrest).2⟩)
        refine ⟨hseparated, hkept, hlow, fun point => ?_⟩
        rw [hcovered, covered_cons, covered_cons, covered_cons,
          covers_merged hle.1 htouch, or_assoc]
      · rename_i happart
        obtain ⟨hseparated, hkept, hlow, hcovered⟩ := ih (forall_mem_cons.mpr ⟨hnext, hitems⟩) hrest
        have hless := not_isLE.mp happart
        refine ⟨pairwise_cons.mpr ⟨?_, hseparated⟩,
          forall_mem_cons.mpr ⟨hfirst, hkept⟩,
          forall_mem_cons.mpr ⟨isLE_rfl, ?_⟩, fun point => ?_⟩
        · intro item hitem
          exact lt_of_lt_of_isLE hless (hlow item hitem)
        · intro item hitem
          exact isLE_trans hle.1 (hlow item hitem)
        · rw [covered_cons, covered_cons, hcovered]

theorem coalesce_spec (hproper : ∀ item ∈ items, Proper item) (h : Ascending items) :
    Separated (ListModel.coalesce items) ∧
      (∀ item ∈ ListModel.coalesce items, Proper item) ∧
      ∀ point, CoveredBy (ListModel.coalesce items) point ↔ CoveredBy items point := by
  cases items with
  | nil => exact ⟨.nil, forall_mem_nil _, fun point => Iff.rfl⟩
  | cons first items =>
      obtain ⟨hseparated, hkept, -, hcovered⟩ := absorb_spec hproper h
      exact ⟨hseparated, hkept, hcovered⟩

theorem coalesce_separated (h : Separated items) : ListModel.coalesce items = items := by
  cases items with
  | nil => rfl
  | cons first items =>
      rw [ListModel.coalesce]
      induction items generalizing first with
      | nil => rfl
      | cons next items ih =>
          obtain ⟨hless, hrest⟩ := pairwise_cons.mp h
          rw [ListModel.absorb, if_neg (not_isLE.mpr (hless next mem_cons_self)), ih next hrest]

theorem Separated.low_lt (h : Separated items) (hproper : ∀ item ∈ items, Proper item) :
    items.Pairwise fun before after => compare before.low after.low = .lt := by
  induction items with
  | nil => exact .nil
  | cons first items ih =>
      obtain ⟨hless, hrest⟩ := pairwise_cons.mp h
      rw [forall_mem_cons] at hproper
      refine pairwise_cons.mpr ⟨fun item hitem => ?_, ih hrest hproper.2⟩
      exact lt_of_isLE_of_lt hproper.1 (hless item hitem)

end Durable7.FingerTree.IntervalTree
