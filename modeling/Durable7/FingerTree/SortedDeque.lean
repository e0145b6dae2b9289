import Durable7.FingerTree.Deque
import Durable7.Foundation.SortedSets

/-!
# Deques that are already sorted

The helpers of the deque that search, insert and remove by a comparison.  They agree with the
sorted list wherever the elements do not decrease, but a deque of `maxBound` elements takes no
more.
-/

namespace Durable7.FingerTree.Deque

open Foundation Foundation.SortedBags List

inductive SearchResult where
  | found (position : Int)
  | missing (position : Int)
  deriving DecidableEq

section

variable {c α β : Type} [DequeCount c]

def removeRange (position lengthValue : Int) (deque : Deque c α) : Option (Deque c α) :=
  if lengthValue < 0 then none
  else (splitAt position deque).bind fun parts =>
    (splitAt lengthValue parts.2).map fun rest => append parts.1 rest.2

def sortedUpperBoundBy (comparison : α → β → Ordering) (value : β) (deque : Deque c α) : Int :=
  (sortedBoundBy (fun order => order == .gt) comparison value deque).1

def sortedBinarySearchBy (comparison : α → β → Ordering) (value : β) (deque : Deque c α) :
    SearchResult :=
  let (lower, candidate) := sortedBoundBy (fun order => order != .lt) comparison value deque
  match candidate with
  | some stored => if comparison stored value = .eq then .found lower else .missing lower
  | none => .missing lower

def insertSortedBy (comparison : α → α → Ordering) (value : α) (deque : Deque c α) : Deque c α :=
  (insertAt (sortedUpperBoundBy comparison value deque) value deque).getD deque

def removeAllSortedBy (comparison : α → β → Ordering) (value : β) (deque : Deque c α) : Deque c α :=
  let lower := sortedLowerBoundBy comparison value deque
  let upper := sortedUpperBoundBy comparison value deque
  (removeRange lower (upper - lower) deque).getD deque

end

/-- The deque once it is evaluated, which raises what the sum of its counts raises. -/
def forced {α : Type} (deque : Deque Count α) : Except DequeError (Deque Count α) :=
  deque.tree.measure.total.outcome.map fun _ => deque

open DequeCount (Fits)

variable {c α : Type} [DequeCount c] {comparison : α → α → Ordering} {value : α}
  {deque : Deque c α}

/-! ## Bounds -/

theorem sortedBoundBy_append {accepts : Ordering → Bool} {left right : List α}
    (hfits : Fits c (toList deque).length) (hlist : toList deque = left ++ right)
    (hleft : ∀ stored ∈ left, accepts (comparison stored value) = false)
    (hright : ∀ stored ∈ right, accepts (comparison stored value) = true) :
    sortedBoundBy accepts comparison value deque = ((left.length : Int), right.head?) := by
  have hmono : (toList deque).Pairwise fun before after =>
      accepts (comparison before value) = true → accepts (comparison after value) = true := by
    rw [hlist, pairwise_append]
    exact ⟨pairwise_of_forall_mem_list fun before hbefore _ _ => by simp [hleft before hbefore],
      pairwise_of_forall_mem_list fun _ _ after hafter _ => hright after hafter,
      fun before hbefore _ _ => by simp [hleft before hbefore]⟩
  rw [sortedBoundBy_eq comparison value deque hfits hmono, hlist, findIdx_append,
    findIdx_eq_length_of_false hleft, find?_append, find?_eq_none.mpr (by simpa using hleft)]
  cases right with
  | nil => simp
  | cons stored right => simp [findIdx_cons, hright stored mem_cons_self]

section

variable {front same back : List α} (h : Parted comparison value front same back)
  (hlist : toList deque = front ++ same ++ back) (hfits : Fits c (toList deque).length)

include h hlist hfits

theorem lowerBound_parted : sortedBoundBy (fun order => order != .lt) comparison value deque =
    ((front.length : Int), (same ++ back).head?) := by
  rw [append_assoc] at hlist
  apply sortedBoundBy_append hfits hlist
  · simpa using h.front_lt
  · intro stored hstored
    rcases mem_append.mp hstored with hstored | hstored
    · simp [h.same_eq stored hstored]
    · simp [h.back_gt stored hstored]

theorem upperBound_parted : sortedUpperBoundBy comparison value deque = (front ++ same).length := by
  rw [sortedUpperBoundBy, sortedBoundBy_append hfits hlist]
  · intro stored hstored
    rcases mem_append.mp hstored with hstored | hstored
    · simp [h.front_lt stored hstored]
    · simp [h.same_eq stored hstored]
  · simpa using h.back_gt

theorem binarySearch_parted : sortedBinarySearchBy comparison value deque =
    match (toList deque).findIdx? fun stored => comparison stored value == .eq with
    | some position => .found position
    | none => .missing front.length := by
  have hfront : front.findIdx? (fun stored => comparison stored value == .eq) = none := by
    simpa using fun stored hstored => by simp [h.front_lt stored hstored]
  have hback : back.findIdx? (fun stored => comparison stored value == .eq) = none := by
    simpa using fun stored hstored => by simp [h.back_gt stored hstored]
  rw [sortedBinarySearchBy, lowerBound_parted h hlist hfits, hlist, findIdx?_append,
    findIdx?_append,
    hfront, hback]
  cases same with
  | nil =>
      cases back with
      | nil => rfl
      | cons stored back => simp [h.back_gt stored mem_cons_self]
  | cons stored same => simp [h.same_eq stored mem_cons_self, findIdx?_cons]

theorem toList_insertSortedBy : toList (insertSortedBy comparison value deque) =
    front ++ (same ++ [value]) ++ back := by
  have hinsert := insertAt_eq (sortedUpperBoundBy comparison value deque) value deque hfits
  rw [upperBound_parted h hlist hfits, hlist, if_neg (by simp only [length_append]; omega),
    Int.toNat_natCast, take_left, drop_left] at hinsert
  obtain ⟨made, hmade, hlisted⟩ := Option.map_eq_some_iff.mp hinsert
  rw [insertSortedBy, upperBound_parted h hlist hfits, hmade, Option.getD_some, hlisted]
  simp

theorem toList_removeAllSortedBy :
    toList (removeAllSortedBy comparison value deque) = front ++ back := by
  have hsplit := splitAt_eq (front.length : Int) deque hfits
  rw [append_assoc] at hlist
  rw [hlist, if_neg (by simp only [length_append]; omega), Int.toNat_natCast, take_left,
    drop_left] at hsplit
  obtain ⟨parts, hparts, hlists⟩ := Option.map_eq_some_iff.mp hsplit
  obtain ⟨hfront, hsuffix⟩ := Prod.mk.inj hlists
  have hsuffixFits : Fits c (toList parts.2).length :=
    DequeCount.fits_of_le (by rw [hsuffix, hlist]; exact (sublist_append_right _ _).length_le)
      hfits
  have hrest := splitAt_eq (same.length : Int) parts.2 hsuffixFits
  rw [hsuffix, if_neg (by simp only [length_append]; omega), Int.toNat_natCast, take_left,
    drop_left] at hrest
  obtain ⟨rest, hrests, hlists⟩ := Option.map_eq_some_iff.mp hrest
  rw [← append_assoc] at hlist
  rw [removeAllSortedBy, sortedLowerBoundBy, lowerBound_parted h hlist hfits,
    upperBound_parted h hlist hfits,
    length_append, removeRange, if_neg (by omega), hparts, Option.bind_some,
    show (((front.length + same.length : Nat) : Int) - front.length) = same.length by omega,
    hrests]
  rw [Option.map_some, Option.getD_some, append, toList, Measured.ValidTree.toList_append]
  exact congr (congrArg _ hfront) (Prod.mk.inj hlists).2

end

variable [Std.TransCmp comparison]

theorem exists_parted {items : List α} (value : α) (h : Ascending comparison items) :
    ∃ front same back, items = front ++ same ++ back ∧ Parted comparison value front same back := by
  induction items with
  | nil => exact ⟨[], [], [], rfl, by simp, by simp, by simp⟩
  | cons item items ih =>
      obtain ⟨hitem, hitems⟩ := pairwise_cons.mp h
      obtain ⟨front, same, back, rfl, hparted⟩ := ih hitems
      cases hcompare : comparison item value with
      | lt => exact ⟨item :: front, same, back, rfl,
          forall_mem_cons.mpr ⟨hcompare, hparted.front_lt⟩, hparted.same_eq, hparted.back_gt⟩
      | eq =>
          have hfront : front = [] := by
            refine eq_nil_iff_forall_not_mem.mpr fun stored hstored => ?_
            have hle := hitem stored (by simp [hstored])
            have hlt := hparted.front_lt stored hstored
            have := Std.TransCmp.lt_of_isLE_of_lt hle hlt
            simp [hcompare] at this
          subst hfront
          exact ⟨[], item :: same, back, rfl, by simp,
            forall_mem_cons.mpr ⟨hcompare, hparted.same_eq⟩, hparted.back_gt⟩
      | gt =>
          have hrest : ∀ stored ∈ front ++ same ++ back, comparison stored value = .gt := by
            intro stored hstored
            exact Std.TransCmp.gt_of_isGE_of_gt
              (Std.OrientedCmp.isGE_iff_isLE.mpr (hitem stored hstored)) hcompare
          exact ⟨[], [], _, rfl, by simp, by simp, forall_mem_cons.mpr ⟨hcompare, hrest⟩⟩

theorem ascending_insert {front same back : List α} (h : Parted comparison value front same back)
    (hsorted : Ascending comparison (front ++ same ++ back)) :
    Ascending comparison (front ++ (same ++ [value]) ++ back) := by
  have hback : ∀ stored ∈ back, (comparison value stored).isLE := by
    intro stored hstored
    rw [Std.OrientedCmp.lt_of_gt (h.back_gt stored hstored)]
    rfl
  have hfront : ∀ stored ∈ front ++ same, (comparison stored value).isLE := by
    rw [forall_mem_append]
    exact ⟨fun stored hstored => by simp [h.front_lt stored hstored],
      fun stored hstored => by simp [h.same_eq stored hstored]⟩
  rw [show front ++ (same ++ [value]) ++ back = (front ++ same) ++ value :: back by simp]
  obtain ⟨hbelow, habove, hacross⟩ := pairwise_append.mp hsorted
  refine pairwise_append.mpr ⟨hbelow, pairwise_cons.mpr ⟨hback, habove⟩, ?_⟩
  exact fun stored hstored => forall_mem_cons.mpr ⟨hfront stored hstored, hacross stored hstored⟩

/-! ## Forced deques -/

theorem forced_eq (deque : Deque Count α) :
    forced deque = (checkedLength (toList deque).length).map fun _ => deque := by
  rw [forced, Measured.ValidTree.measure_eq, foldMeasure_eq, Count.outcome_natCast, toList]

theorem forced_iff {deque : Deque Count α} :
    forced deque = .ok deque ↔ Fits Count (toList deque).length := by
  rw [forced_eq, checkedLength]
  change _ ↔ ((toList deque).length : Int) ≤ maxBound
  by_cases hfits : ((toList deque).length : Int) ≤ maxBound
  · rw [if_pos hfits]
    exact iff_of_true rfl hfits
  · rw [if_neg hfits]
    exact iff_of_false (by simp [Except.map]) hfits

theorem forced_overflow {deque : Deque Count α} (h : maxBound < (toList deque).length) :
    forced deque = .error .lengthOverflow := by
  rw [forced_eq, checkedLength, if_neg (Int.not_le.mpr h)]
  rfl

/--
The helpers on a deque whose elements do not decrease.  A deque of `maxBound` elements takes no
more.
-/
theorem sorted_helpers (value : α) {deque : Deque Count α} (hforced : forced deque = .ok deque)
    (hsorted : Ascending comparison (toList deque)) :
    sortedLowerBoundBy comparison value deque = (toList deque).countP (comparison · value == .lt) ∧
      sortedUpperBoundBy comparison value deque =
        (toList deque).countP (comparison · value != .gt) ∧
      sortedBinarySearchBy comparison value deque =
        (match (toList deque).findIdx? (comparison · value == .eq) with
        | some position => .found position
        | none => .missing (sortedLowerBoundBy comparison value deque)) ∧
      ((toList deque).length = maxBound →
        forced (insertSortedBy comparison value deque) = .error .lengthOverflow) ∧
      ((toList deque).length ≠ maxBound →
        forced (insertSortedBy comparison value deque) =
            .ok (insertSortedBy comparison value deque) ∧
          toList (insertSortedBy comparison value deque) =
            SortedBags.insert comparison value (toList deque) ∧
          Ascending comparison (toList (insertSortedBy comparison value deque)) ∧
          ((∀ stored ∈ toList deque, comparison stored value ≠ .eq) →
            toList (removeAllSortedBy comparison value
              (insertSortedBy comparison value deque)) = toList deque)) ∧
      forced (removeAllSortedBy comparison value deque) =
        .ok (removeAllSortedBy comparison value deque) ∧
      toList (removeAllSortedBy comparison value deque) =
        SortedBags.deleteAll comparison value (toList deque) := by
  obtain ⟨front, same, back, hlist, h⟩ := exists_parted value hsorted
  have hfits := forced_iff.mp hforced
  have hbound : ((toList deque).length : Int) ≤ maxBound := hfits
  have hinserted := toList_insertSortedBy h hlist hfits
  have hlonger : (toList (insertSortedBy comparison value deque)).length =
      (toList deque).length + 1 := by
    rw [hinserted, hlist]
    simp only [length_append, length_singleton]
    omega
  have hremoved := toList_removeAllSortedBy h hlist hfits
  have hshorter : (front ++ back).length ≤ (toList deque).length := by
    rw [hlist]
    simp only [length_append]
    omega
  have hlower : sortedLowerBoundBy comparison value deque = front.length := by
    rw [sortedLowerBoundBy, lowerBound_parted h hlist hfits]
  have hcount := fun keeps => congrArg List.length (h.filter_eq keeps)
  simp only [← countP_eq_length_filter] at hcount
  refine ⟨?_, ?_, ?_, fun hfull => ?_, fun hroom => ?_, ?_, ?_⟩
  · rw [hlower, hlist, hcount (· == .lt)]
    simp
  · rw [upperBound_parted h hlist hfits, hlist, hcount (· != .gt)]
    simp
  · rw [hlower, binarySearch_parted h hlist hfits]
  · exact forced_overflow (by rw [hlonger]; omega)
  · have hfitsInserted : Fits Count (toList (insertSortedBy comparison value deque)).length := by
      change (_ : Int) ≤ maxBound
      rw [hlonger]
      omega
    refine ⟨forced_iff.mpr hfitsInserted, ?_, ?_, fun habsent => ?_⟩
    · rw [hinserted, hlist, h.insert_eq]
    · rw [hinserted]
      exact ascending_insert h (hlist ▸ hsorted)
    · have hparted : Parted comparison value front (same ++ [value]) back :=
        ⟨h.front_lt, forall_mem_append.mpr ⟨h.same_eq, by simp [Std.ReflCmp.compare_self]⟩,
          h.back_gt⟩
      rw [toList_removeAllSortedBy hparted hinserted hfitsInserted, hlist]
      cases same with
      | nil => simp
      | cons stored same =>
          exact absurd (h.same_eq stored mem_cons_self) (habsent stored (by simp [hlist]))
  · exact forced_iff.mpr (hremoved ▸ DequeCount.fits_of_le hshorter hfits)
  · rw [hremoved, hlist, h.deleteAll_eq]

theorem toList_ties : toList (fromList [1, 2, 2, 3] : Deque Count Nat) = [1, 2, 2, 3] :=
  Measured.ValidTree.toList_fromList _

theorem sorted_helpers_ties :
    toList (insertSortedBy compare 2 (fromList [1, 2, 2, 3] : Deque Count Nat)) =
      SortedBags.insert compare 2 (toList (fromList [1, 2, 2, 3] : Deque Count Nat)) :=
  ((sorted_helpers 2 (forced_iff.mpr (by
      rw [toList_ties]
      exact show (4 : Int) ≤ maxBound by decide))
    (by rw [toList_ties, Ascending]; decide)).2.2.2.2.1 (by rw [toList_ties]; decide)).2.1

/-- Equal elements, doubled by self-appends. -/
def doubled : Nat → Deque Count Nat
  | 0 => empty
  | rounds + 1 => snoc (append (doubled rounds) (doubled rounds)) 1

theorem toList_doubled (rounds : Nat) : toList (doubled rounds) = replicate (2 ^ rounds - 1) 1 := by
  induction rounds with
  | zero => exact Measured.ValidTree.toList_empty
  | succ rounds ih =>
      have hpos := Nat.two_pow_pos rounds
      rw [toList] at ih
      rw [doubled, append, snoc, toList, Measured.ValidTree.toList_snoc,
        Measured.ValidTree.toList_append, ih, replicate_append_replicate, ← replicate_succ']
      congr 1
      omega

/-- A deque of `maxBound` equal elements is sorted and has no room for one more. -/
theorem insertSorted_overflow :
    forced (doubled 63) = .ok (doubled 63) ∧ Ascending compare (toList (doubled 63)) ∧
      forced (insertSortedBy compare 1 (doubled 63)) = .error .lengthOverflow := by
  have hlength : (toList (doubled 63)).length = 9223372036854775807 := by
    rw [toList_doubled, length_replicate]
    decide
  have hsorted : Ascending compare (toList (doubled 63)) := by
    rw [toList_doubled]
    exact pairwise_replicate.mpr (.inr rfl)
  obtain ⟨front, same, back, hlist, h⟩ := exists_parted 1 hsorted
  have hfits : Fits Count (toList (doubled 63)).length := by
    change (_ : Int) ≤ maxBound
    rw [hlength]
    decide
  refine ⟨forced_iff.mpr hfits, hsorted, forced_overflow ?_⟩
  have hgrown := congrArg length (toList_insertSortedBy h hlist hfits)
  have hwhole := congrArg length hlist
  rw [hlength] at hwhole
  simp only [length_append, length_singleton] at hgrown hwhole
  rw [hgrown, maxBound]
  omega

end Durable7.FingerTree.Deque
