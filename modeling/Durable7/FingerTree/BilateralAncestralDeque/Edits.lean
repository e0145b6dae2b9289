import Durable7.FingerTree.BilateralAncestralDeque.Slices
import Durable7.Foundation.Branching

/-!
# Edits of bilateral ancestral deques

A handle shows its left values from the tail and then its right values from the base.  The two
root paths together stay within the number of values ever added.
-/

namespace Durable7.FingerTree.BilateralAncestralDeque

open IncrementalAncestor Nat Foundation List
open RrbVector (maxBound)

section

variable {α : Type}

/-- The two arms of a handle and what it shows of them. -/
structure Arms (deque : BilateralAncestralDeque α)
    (leftBefore leftValues rightBefore rightValues values : List α) :
    Prop where
  left : Holds deque.dequeLeft leftBefore leftValues
  right : Holds deque.dequeRight rightBefore rightValues
  shown : values = leftValues.reverse ++ rightValues
  counted : deque.dequeCount = values.length

structure Refines (additions : Nat) (deque : BilateralAncestralDeque α) (values : List α) :
    Prop where
  arms : ∃ leftBefore leftValues rightBefore rightValues,
    Arms deque leftBefore leftValues rightBefore rightValues values
  bounded : (path deque.dequeLeft.segmentTail).length +
    (path deque.dequeRight.segmentTail).length ≤ additions

/-- A costed result within a number of queries. -/
def Costs (additions limit : Nat) (made : BilateralAncestralDeque α × QueryCost)
    (values : List α) : Prop :=
  Refines additions made.1 values ∧ made.2.queryCostQueries ≤ limit

theorem Refines.mono {additions : Nat} {deque : BilateralAncestralDeque α} {values : List α}
    (h : Refines additions deque values) (more : Nat) : Refines (additions + more) deque values :=
  ⟨h.arms, le_trans h.bounded (le_add_right _ _)⟩

theorem refines_empty {additions : Nat} :
    Refines additions (empty : BilateralAncestralDeque α) [] where
  arms := ⟨[], [], [], [], holds_emptySegmentAt .bottom, holds_emptySegmentAt .bottom, rfl, rfl⟩
  bounded := zero_le _

section Arms

variable {additions : Nat} {deque : BilateralAncestralDeque α}
  {leftBefore leftValues rightBefore rightValues values : List α}

theorem Arms.length_eq (h : Arms deque leftBefore leftValues rightBefore rightValues values) :
    values.length = leftValues.length + rightValues.length := by
  rw [h.shown, length_append, length_reverse]

section

variable (h : Refines additions deque values)
include h

theorem Refines.count_zero : deque.dequeCount = 0 ↔ values = [] := by
  obtain ⟨_, _, _, _, harms⟩ := h.arms
  rw [harms.counted, ← length_eq_zero_iff]
  omega

/-! ## Growth at the ends -/

theorem addLast_refines (hroom : additions + 1 ≤ maxBound) (value : α) :
    ∃ next, addLast value deque = .ok next ∧ Refines (additions + 1) next (values ++ [value]) := by
  obtain ⟨leftBefore, leftValues, rightBefore, rightValues, harms⟩ := h.arms
  have hbounded := h.bounded
  have hleft := harms.left.length_eq
  have hright := harms.right.length_eq
  have hlength := harms.length_eq
  have hcounted := harms.counted
  rw [addLast, checkedIncrement, if_neg (by omega)]
  refine ⟨_, rfl, ⟨_, _, _, _, harms.left, addToTail_holds harms.right value (by omega), ?_, ?_⟩,
    ?_⟩
  · rw [harms.shown, append_assoc]
  · rw [length_append, length_singleton]
    dsimp only
    omega
  · dsimp only [addToTail]
    rw [path_addLeaf, length_append, length_singleton]
    omega

theorem addFirst_refines (hroom : additions + 1 ≤ maxBound) (value : α) :
    ∃ next, addFirst value deque = .ok next ∧ Refines (additions + 1) next (value :: values) := by
  obtain ⟨leftBefore, leftValues, rightBefore, rightValues, harms⟩ := h.arms
  have hbounded := h.bounded
  have hleft := harms.left.length_eq
  have hright := harms.right.length_eq
  have hlength := harms.length_eq
  have hcounted := harms.counted
  rw [addFirst, checkedIncrement, if_neg (by omega)]
  refine ⟨_, rfl, ⟨_, _, _, _, addToTail_holds harms.left value (by omega), harms.right, ?_, ?_⟩,
    ?_⟩
  · rw [harms.shown, reverse_append]
    rfl
  · rw [length_cons]
    dsimp only
    omega
  · dsimp only [addToTail]
    rw [path_addLeaf, length_append, length_singleton]
    omega

end

theorem fromList_refines (added : List α) (hroom : additions + added.length ≤ maxBound) :
    ∃ next, fromList added = .ok next ∧ Refines (additions + added.length) next added :=
  @foldlM_refines_within _ _ _ Refines
    (fun deque value => addLast value deque) maxBound additions empty []
    (fun _ _ _ value h hroom => addLast_refines h hroom value) added refines_empty hroom

section

variable (h : Refines additions deque values)
include h

theorem reverse_refines : Refines additions (reverse deque) values.reverse := by
  obtain ⟨leftBefore, leftValues, rightBefore, rightValues, harms⟩ := h.arms
  have hcounted := harms.counted
  have hbounded := h.bounded
  unfold reverse
  split
  · have hshort : values.reverse = values := by
      cases values with
      | nil => rfl
      | cons value rest =>
          rw [length_cons] at hcounted
          rw [length_eq_zero_iff.mp (show rest.length = 0 by omega), reverse_singleton]
    rwa [hshort]
  · refine ⟨⟨_, _, _, _, harms.right, harms.left, ?_, ?_⟩, ?_⟩
    · rw [harms.shown, reverse_append, reverse_reverse]
    · rw [length_reverse]
      exact harms.counted
    · dsimp only
      omega

theorem clear_refines : Refines additions (clear deque) [] := by
  unfold clear
  split
  · rename_i hzero
    rw [h.count_zero.mp hzero] at h
    exact h
  · exact refines_empty

theorem removeFirstCost_refines (hroom : additions ≤ maxBound) :
    ∃ result, removeFirstCost deque = .ok result ∧
      Option.Rel (Costs additions 1) result (ListModel.removeFirst values) := by
  obtain ⟨leftBefore, leftValues, rightBefore, rightValues, harms⟩ := h.arms
  have hcounted := harms.counted
  have hbounded := h.bounded
  unfold removeFirstCost
  cases values with
  | nil => exact ⟨none, if_pos (h.count_zero.mpr rfl), .none⟩
  | cons value rest =>
      have hshown := harms.shown
      rw [length_cons] at hcounted
      rw [if_neg (by omega)]
      by_cases hone : deque.dequeCount = 1
      · rw [if_pos hone, length_eq_zero_iff.mp (show rest.length = 0 by omega)]
        exact ⟨_, rfl, .some ⟨refines_empty, zero_le _⟩⟩
      rw [if_neg hone]
      cases leftValues using List.reverseRecOn with
      | nil =>
          rw [reverse_nil, nil_append] at hshown
          have hright := harms.right
          rw [← hshown] at hright
          obtain ⟨shortened, cost, hshortened, hholds, hcost⟩ := removeBase_holds hright (by omega)
          rw [if_neg (not_not_intro (harms.left.count_zero.mpr rfl)), hshortened]
          refine ⟨_, rfl, .some ⟨⟨⟨_, _, _, _, harms.left, hholds, rfl, ?_⟩, ?_⟩, hcost⟩⟩
          · dsimp only
            rw [tail_cons]
            omega
          · have hlength := hholds.length_eq
            have hlength' := hright.length_eq
            rw [length_append, length_singleton] at hlength
            rw [length_cons] at hlength'
            dsimp only
            omega
      | append_singleton front last =>
          have hcount := harms.left.counted
          rw [length_append, length_singleton] at hcount
          obtain ⟨shortened, hshortened, hholds⟩ := removeTail_holds harms.left
          rw [reverse_append, reverse_singleton, singleton_append, cons_append,
            List.cons.injEq] at hshown
          rw [if_pos (by omega), hshortened]
          refine ⟨_, rfl, .some ⟨⟨⟨_, _, _, _, hholds, harms.right, hshown.2, ?_⟩, ?_⟩, zero_le _⟩⟩
          · dsimp only
            rw [tail_cons]
            omega
          · have hlength := hholds.length_eq
            have hlength' := harms.left.length_eq
            rw [length_append, length_singleton] at hlength'
            dsimp only
            omega

theorem removeLastCost_refines (hroom : additions ≤ maxBound) :
    ∃ result, removeLastCost deque = .ok result ∧
      Option.Rel (Costs additions 1) result (ListModel.removeLast values) := by
  obtain ⟨leftBefore, leftValues, rightBefore, rightValues, harms⟩ := h.arms
  have hcounted := harms.counted
  have hbounded := h.bounded
  unfold removeLastCost
  cases values using List.reverseRecOn with
  | nil => exact ⟨none, if_pos (h.count_zero.mpr rfl), .none⟩
  | append_singleton initial value =>
      have hshown := harms.shown
      rw [length_append, length_singleton] at hcounted
      have hremoved : ListModel.removeLast (initial ++ [value]) = some initial := by
        rw [ListModel.removeLast, if_neg (by simp), dropLast_concat]
      rw [if_neg (by omega), hremoved]
      by_cases hone : deque.dequeCount = 1
      · rw [if_pos hone, length_eq_zero_iff.mp (show initial.length = 0 by omega)]
        exact ⟨_, rfl, .some ⟨refines_empty, zero_le _⟩⟩
      rw [if_neg hone]
      cases rightValues using List.reverseRecOn with
      | nil =>
          have hreversed := congrArg List.reverse hshown
          rw [append_nil, reverse_reverse, reverse_append, reverse_singleton,
            singleton_append] at hreversed
          have hleft := harms.left
          rw [← hreversed] at hleft
          obtain ⟨shortened, cost, hshortened, hholds, hcost⟩ := removeBase_holds hleft (by omega)
          rw [if_neg (not_not_intro (harms.right.count_zero.mpr rfl)), hshortened]
          refine ⟨_, rfl, .some ⟨⟨⟨_, _, _, _, hholds, harms.right, ?_, ?_⟩, ?_⟩, hcost⟩⟩
          · rw [reverse_reverse, append_nil]
          · dsimp only
            omega
          · have hlength := hholds.length_eq
            have hlength' := hleft.length_eq
            rw [length_append, length_singleton] at hlength
            rw [length_cons] at hlength'
            dsimp only
            omega
      | append_singleton front last =>
          have hcount := harms.right.counted
          rw [length_append, length_singleton] at hcount
          obtain ⟨shortened, hshortened, hholds⟩ := removeTail_holds harms.right
          rw [← append_assoc] at hshown
          rw [if_pos (by omega), hshortened]
          refine ⟨_, rfl, .some ⟨⟨⟨_, _, _, _, harms.left, hholds,
            (append_inj' hshown rfl).1, ?_⟩, ?_⟩, zero_le _⟩⟩
          · dsimp only
            omega
          · have hlength := hholds.length_eq
            have hlength' := harms.right.length_eq
            rw [length_append, length_singleton] at hlength'
            dsimp only
            omega

end

end Arms

end

/-!
## Ranges of bilateral ancestral deques

A range meets each arm at most once, and asks the forest for at most the endpoints that are not
endpoints of the whole.
-/

open Int

variable {α : Type} {additions : Nat} {deque : BilateralAncestralDeque α} {values : List α}

theorem range_append (left right : List α) (position amount : Nat) :
    ((left ++ right).drop position).take amount =
      (left.drop (min position left.length)).take
        (min (position + amount) left.length - min position left.length) ++
      (right.drop (position - left.length)).take
        ((position + amount - left.length) - (position - left.length)) := by
  rw [drop_append, take_append, length_drop]
  congr 1
  · by_cases hinside : position ≤ left.length
    · rw [min_eq_left hinside, take_eq_take_iff, length_drop]
      omega
    · rw [drop_eq_nil_of_le (by omega), drop_eq_nil_of_le (by omega), take_nil, take_nil]
  · congr 1
    omega

theorem sliceLimit_add (position amount left right : Nat)
    (hinside : position + amount ≤ left + right) :
    sliceLimit (min position left) (min (position + amount) left - min position left) left +
        sliceLimit (position - left) ((position + amount - left) - (position - left)) right ≤
      endpointCost (position = 0) + endpointCost (position + amount = left + right) := by
  unfold sliceLimit endpointCost
  split_ifs <;> omega

section

variable (h : Refines additions deque values) (hroom : additions ≤ maxBound)
include h hroom

theorem sliceCost_refines {position amount : Nat} (hinside : position + amount ≤ values.length) :
    ∃ made, sliceCost position amount deque = .ok (some made) ∧
      Costs additions (endpointCost (position = 0) +
        endpointCost (position + amount = values.length)) made
        ((values.drop position).take amount) := by
  obtain ⟨leftBefore, leftValues, rightBefore, rightValues, harms⟩ := h.arms
  have hcounted := harms.counted
  have hbounded := h.bounded
  have hlength := harms.length_eq
  have hleftCount := harms.left.counted
  have hrightCount := harms.right.counted
  unfold sliceCost
  dsimp only
  rw [if_neg (by omega), if_neg (by omega), if_neg (by omega)]
  by_cases hall : (position : Int) = 0 ∧ (amount : Int) = deque.dequeCount
  · rw [if_pos hall, show position = 0 by omega, drop_zero, take_of_length_le (by omega)]
    exact ⟨_, rfl, h, zero_le _⟩
  rw [if_neg hall]
  by_cases hzero : (amount : Int) = 0
  · rw [if_pos hzero, show amount = 0 by omega, take_zero]
    exact ⟨_, rfl, refines_empty, zero_le _⟩
  rw [if_neg hzero]
  have hleftInside : min position leftValues.length +
      (min (position + amount) leftValues.length - min position leftValues.length) ≤
      leftValues.length := by omega
  have hrightInside : (position - leftValues.length) +
      ((position + amount - leftValues.length) - (position - leftValues.length)) ≤
      rightValues.length := by omega
  obtain ⟨leftKept, hleftKept, leftSlices⟩ := sliceLeft_slices harms.left (by omega) hleftInside
  obtain ⟨slicedLeft, leftCost, leftFront, hslicedLeft, hleftHolds, hleftLength, hleftCost⟩ :=
    leftSlices.spec
  obtain ⟨slicedRight, rightCost, rightFront, hslicedRight, hrightHolds, hrightLength,
    hrightCost⟩ :=
    (sliceRight_slices harms.right (by omega) hrightInside).spec
  rw [hleftCount,
    show min (position : Int) leftValues.length = (min position leftValues.length : Nat) by omega,
    show min ((position : Int) + amount) leftValues.length -
      (min position leftValues.length : Nat) = (min (position + amount) leftValues.length -
        min position leftValues.length : Nat) by omega,
    show max 0 ((position : Int) - leftValues.length) =
      (position - leftValues.length : Nat) by omega,
    show max 0 ((position : Int) + amount - leftValues.length) -
      (position - leftValues.length : Nat) =
      ((position + amount - leftValues.length) - (position - leftValues.length) : Nat) by omega,
    hslicedLeft, except_bind_ok, hslicedRight]
  have hrange := range_append leftValues.reverse rightValues position amount
  rw [length_reverse, ← hleftKept, ← harms.shown] at hrange
  refine ⟨_, rfl, ⟨⟨_, _, _, _, hleftHolds, hrightHolds, hrange, ?_⟩, ?_⟩, ?_⟩
  · rw [length_take, length_drop]
    dsimp only
    omega
  · dsimp only
    omega
  · rw [hlength]
    exact Nat.le_trans (Nat.add_le_add hleftCost hrightCost) (sliceLimit_add _ _ _ _ (by omega))

theorem slice_refines (position amount : Int) :
    ∃ result, sliceCost position amount deque = .ok result ∧
      Option.Rel (Costs additions 2) result (ListModel.slice position amount values) := by
  obtain ⟨_, _, _, _, harms⟩ := h.arms
  have hcounted := harms.counted
  by_cases hout : position < 0 ∨ amount < 0 ∨ position + amount > values.length
  · rw [ListModel.slice, if_pos hout]
    refine ⟨none, ?_, .none⟩
    unfold sliceCost
    dsimp only
    by_cases hsign : position < 0 ∨ amount < 0
    · rw [if_pos hsign]
    rw [if_neg hsign]
    by_cases hposition : position > deque.dequeCount
    · rw [if_pos hposition]
    · rw [if_neg hposition, if_pos (by omega)]
  · rw [ListModel.slice, if_neg hout]
    obtain ⟨position, rfl⟩ := eq_ofNat_of_zero_le (show 0 ≤ position by omega)
    obtain ⟨amount, rfl⟩ := eq_ofNat_of_zero_le (show 0 ≤ amount by omega)
    obtain ⟨made, hmade, hrefines, hcost⟩ := sliceCost_refines h hroom
      (show position + amount ≤ values.length by omega)
    refine ⟨_, hmade, .some ⟨hrefines, le_trans hcost ?_⟩⟩
    unfold endpointCost
    split <;> split <;> omega

theorem take_refines (amount : Int) :
    ∃ result, takeCost amount deque = .ok result ∧
      Option.Rel (Costs additions 1) result (ListModel.take amount values) := by
  obtain ⟨_, _, _, _, harms⟩ := h.arms
  have hcounted := harms.counted
  rw [takeCost, ListModel.take, hcounted]
  by_cases hout : amount < 0 ∨ amount > values.length
  · rw [if_pos hout, if_pos hout]
    exact ⟨none, rfl, .none⟩
  rw [if_neg hout, if_neg hout]
  obtain ⟨amount, rfl⟩ := eq_ofNat_of_zero_le (show 0 ≤ amount by omega)
  rw [toNat_natCast]
  by_cases hall : (amount : Int) = values.length
  · rw [if_pos hall, take_of_length_le (by omega)]
    exact ⟨_, rfl, .some ⟨h, zero_le _⟩⟩
  · obtain ⟨made, hmade, hrefines, hcost⟩ := @sliceCost_refines _ _ _ _ h hroom 0 amount (by omega)
    rw [if_neg hall]
    refine ⟨_, hmade, .some ⟨hrefines, le_trans hcost ?_⟩⟩
    unfold endpointCost
    rw [if_pos rfl]
    split <;> omega

theorem drop_refines (amount : Int) :
    ∃ result, dropCost amount deque = .ok result ∧
      Option.Rel (Costs additions 1) result (ListModel.drop amount values) := by
  obtain ⟨_, _, _, _, harms⟩ := h.arms
  have hcounted := harms.counted
  rw [dropCost, ListModel.drop, hcounted]
  by_cases hout : amount < 0 ∨ amount > values.length
  · rw [if_pos hout, if_pos hout]
    exact ⟨none, rfl, .none⟩
  rw [if_neg hout, if_neg hout]
  obtain ⟨amount, rfl⟩ := eq_ofNat_of_zero_le (show 0 ≤ amount by omega)
  rw [toNat_natCast]
  by_cases hzero : (amount : Int) = 0
  · rw [if_pos hzero, show amount = 0 by omega, drop_zero]
    exact ⟨_, rfl, .some ⟨h, zero_le _⟩⟩
  · obtain ⟨made, hmade, hrefines, hcost⟩ := @sliceCost_refines _ _ _ _ h hroom amount
      (values.length - amount) (by omega)
    rw [if_neg hzero, show (values.length : Int) - amount = (values.length - amount : Nat) by omega]
    rw [take_of_length_le (le_of_eq length_drop)] at hrefines
    refine ⟨_, hmade, .some ⟨hrefines, le_trans hcost ?_⟩⟩
    unfold endpointCost
    rw [if_pos (show amount + (values.length - amount) = values.length by omega)]
    split <;> omega

end

/-- Both parts of a split within a number of queries. -/
def CostsParts (additions limit : Nat)
    (made : (BilateralAncestralDeque α × BilateralAncestralDeque α) × QueryCost)
    (parts : List α × List α) : Prop :=
  Refines additions made.1.1 parts.1 ∧ Refines additions made.1.2 parts.2 ∧
    made.2.queryCostQueries ≤ limit

theorem splitAt_refines (h : Refines additions deque values) (hroom : additions ≤ maxBound)
    (position : Int) :
    ∃ result, splitAtCost position deque = .ok result ∧
      Option.Rel (CostsParts additions 2) result (ListModel.splitAt position values) := by
  obtain ⟨_, _, _, _, harms⟩ := h.arms
  have hcounted := harms.counted
  obtain ⟨taken, htaken, hprefix⟩ := take_refines h hroom position
  obtain ⟨dropped, hdropped, hsuffix⟩ := drop_refines h hroom position
  rw [splitAtCost, ListModel.splitAt, hcounted]
  rw [ListModel.take] at hprefix
  rw [ListModel.drop] at hsuffix
  by_cases hout : position < 0 ∨ position > values.length
  · rw [if_pos hout, if_pos hout]
    exact ⟨none, rfl, .none⟩
  rw [if_neg hout] at hprefix hsuffix
  rw [if_neg hout, if_neg hout, htaken, except_bind_ok, hdropped, except_bind_ok]
  cases hprefix with
  | @some made _ hmade =>
      cases hsuffix with
      | @some other _ hother =>
          exact ⟨_, rfl, .some ⟨hmade.1, hother.1, Nat.add_le_add hmade.2 hother.2⟩⟩

end Durable7.FingerTree.BilateralAncestralDeque
