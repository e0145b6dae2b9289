import Durable7.FingerTree.BilateralAncestralDeque.Edits

/-!
# Reads of bilateral ancestral deques

The endpoints are cached, every other position is one query away, and the audit of a handle
passes.
-/

namespace Durable7.FingerTree.BilateralAncestralDeque

open IncrementalAncestor Nat Foundation List
open RrbVector (maxBound)

section

variable {α : Type} {additions : Nat} {deque : BilateralAncestralDeque α} {segment : Segment α}
  {before values : List α}

theorem toList_eq (h : Refines additions deque values) : toList deque = .ok values := by
  obtain ⟨_, _, _, _, harms⟩ := h.arms
  rw [toList, harms.left.values_eq, except_bind_ok, harms.right.values_eq, harms.shown]
  rw [Except.map, reverseOnto_eq, reverse_reverse, append_nil]

/-! ## Positions -/

/-- The value at a position, within one query. -/
def Reads (expected : Option α) (result : Except DequeError (Option (α × QueryCost))) : Prop :=
  ∃ found, result = .ok found ∧ found.map Prod.fst = expected ∧
    ∀ entry ∈ found, entry.2.queryCostQueries ≤ 1

theorem cachedValue_reads {node : Node α} {value : α} (h : expectValue node = .ok value) :
    Reads (some value) (cachedValue node) := by
  rw [cachedValue, h]
  refine ⟨_, rfl, rfl, ?_⟩
  intro entry hentry
  cases hentry
  exact zero_le _

section

variable (h : Holds segment before values)
include h

theorem Holds.base_reads (hnonempty : 0 < values.length) :
    Reads values[0]? (cachedValue segment.segmentBase) := by
  cases values with
  | nil => exact absurd hnonempty (lt_irrefl 0)
  | cons value rest => exact cachedValue_reads h.base_value

theorem Holds.tail_reads (hnonempty : 0 < values.length) :
    Reads values[values.length - 1]? (cachedValue segment.segmentTail) := by
  cases values using List.reverseRecOn with
  | nil => exact absurd hnonempty (lt_irrefl 0)
  | append_singleton front value =>
      rw [length_append, length_singleton, Nat.add_sub_cancel, List.getElem?_concat_length]
      exact cachedValue_reads h.tail_value

theorem Holds.queried_reads {position : Nat} (hposition : position < values.length) {depth : Int}
    (hdepth : depth = before.length + position) :
    Reads values[position]? (queriedValue segment.segmentTail depth) := by
  have hlength := h.length_eq
  obtain ⟨found, cost, hfound, hancestor, hpath, hcost⟩ :=
    @queryAncestor_spec _ _ h.sound (before.length + (position + 1)) (by omega) depth (by omega)
  rw [h.tail_path, take_length_add_append, take_succ_eq_append_getElem hposition,
    ← append_assoc] at hpath
  rw [queriedValue, hfound, except_bind_ok, (ends_with (h.sound.ancestor hancestor) hpath).1,
    List.getElem?_eq_getElem hposition]
  refine ⟨_, rfl, rfl, ?_⟩
  intro entry hentry
  cases hentry
  exact le_of_eq hcost

end

section

variable (h : Refines additions deque values)
include h

theorem indexCost_reads (hroom : additions ≤ maxBound)
    (position : Int) : Reads (elementAt position values) (indexCost position deque) := by
  obtain ⟨leftBefore, leftValues, rightBefore, rightValues, harms⟩ := h.arms
  have hcounted := harms.counted
  have hbounded := h.bounded
  have hlength := harms.length_eq
  have hleftCount := harms.left.counted
  have hrightCount := harms.right.counted
  have hleftLength := harms.left.length_eq
  have hrightLength := harms.right.length_eq
  have hleftDepth := harms.left.tail_depth
  have hrightDepth := harms.right.anchor_depth
  unfold indexCost elementAt
  dsimp only
  by_cases hnegative : position < 0
  · rw [if_pos (show position < 0 ∨ position ≥ deque.dequeCount from .inl hnegative),
      if_pos hnegative]
    exact ⟨none, rfl, rfl, fun entry hentry => (Option.not_mem_none entry hentry).elim⟩
  rw [if_neg hnegative]
  obtain ⟨position, rfl⟩ := Int.eq_ofNat_of_zero_le (show 0 ≤ position by omega)
  rw [Int.toNat_natCast]
  by_cases hhigh : position ≥ values.length
  · rw [if_pos (by omega), List.getElem?_eq_none hhigh]
    exact ⟨none, rfl, rfl, fun entry hentry => (Option.not_mem_none entry hentry).elim⟩
  rw [if_neg (by omega), harms.shown]
  by_cases hleft : (position : Int) < deque.dequeLeft.segmentCount
  · -- The left arm is read from its tail.
    rw [if_pos hleft, List.getElem?_append_left (by rw [length_reverse]; omega),
      List.getElem?_reverse (by omega)]
    by_cases hzero : (position : Int) = 0
    · rw [if_pos hzero, show leftValues.length - 1 - position = leftValues.length - 1 by omega]
      exact harms.left.tail_reads (by omega)
    rw [if_neg hzero]
    by_cases hfinal : (position : Int) = deque.dequeLeft.segmentCount - 1
    · rw [if_pos hfinal, show leftValues.length - 1 - position = 0 by omega]
      exact harms.left.base_reads (by omega)
    · rw [if_neg hfinal, checkedSub_ok (by omega) (by omega), except_bind_ok]
      exact harms.left.queried_reads (by omega) (by omega)
  · rw [if_neg hleft, List.getElem?_append_right (by rw [length_reverse]; omega), length_reverse]
    by_cases hzero : (position : Int) - deque.dequeLeft.segmentCount = 0
    · rw [if_pos hzero, show position - leftValues.length = 0 by omega]
      exact harms.right.base_reads (by omega)
    rw [if_neg hzero]
    by_cases hfinal : (position : Int) - deque.dequeLeft.segmentCount =
        deque.dequeRight.segmentCount - 1
    · rw [if_pos hfinal, show position - leftValues.length = rightValues.length - 1 by omega]
      exact harms.right.tail_reads (by omega)
    · rw [if_neg hfinal, checkedAdd_ok (by omega) (by omega), except_bind_ok,
        checkedAdd_ok (by omega) (by omega), except_bind_ok]
      exact harms.right.queried_reads (by omega) (by omega)

theorem first_eq : first deque = .ok values.head? := by
  obtain ⟨leftBefore, leftValues, rightBefore, rightValues, harms⟩ := h.arms
  unfold first
  cases values with
  | nil => exact if_pos (h.count_zero.mpr rfl)
  | cons value rest =>
      have hshown := harms.shown
      rw [if_neg fun hzero => cons_ne_nil _ _ (h.count_zero.mp hzero)]
      cases leftValues using List.reverseRecOn with
      | nil =>
          rw [reverse_nil, nil_append] at hshown
          have hright := harms.right
          rw [← hshown] at hright
          rw [if_neg (not_not_intro (harms.left.count_zero.mpr rfl)), hright.base_value]
          rfl
      | append_singleton front last =>
          rw [reverse_append, reverse_singleton, singleton_append, cons_append,
            List.cons.injEq] at hshown
          have hnonempty : deque.dequeLeft.segmentCount ≠ 0 := fun hzero =>
            absurd (harms.left.count_zero.mp hzero)
              (append_ne_nil_of_right_ne_nil _ (cons_ne_nil _ _))
          rw [if_pos hnonempty, harms.left.tail_value, hshown.1]
          rfl

theorem last_eq : last deque = .ok values.getLast? := by
  obtain ⟨leftBefore, leftValues, rightBefore, rightValues, harms⟩ := h.arms
  unfold last
  cases values using List.reverseRecOn with
  | nil => exact if_pos (h.count_zero.mpr rfl)
  | append_singleton initial value =>
      have hshown := harms.shown
      rw [List.getLast?_concat, if_neg fun hzero => append_ne_nil_of_right_ne_nil _
        (cons_ne_nil _ _) (h.count_zero.mp hzero)]
      cases rightValues using List.reverseRecOn with
      | nil =>
          have hreversed := congrArg List.reverse hshown
          rw [append_nil, reverse_reverse, reverse_append, reverse_singleton,
            singleton_append] at hreversed
          have hleft := harms.left
          rw [← hreversed] at hleft
          rw [if_neg (not_not_intro (harms.right.count_zero.mpr rfl)), hleft.base_value]
          rfl
      | append_singleton front last =>
          rw [← append_assoc] at hshown
          have hnonempty : deque.dequeRight.segmentCount ≠ 0 := fun hzero =>
            absurd (harms.right.count_zero.mp hzero)
              (append_ne_nil_of_right_ne_nil _ (cons_ne_nil _ _))
          rw [if_pos hnonempty, harms.right.tail_value, singleton_inj.mp (append_inj' hshown rfl).2]
          rfl

end

theorem validateSegment_spec (h : Holds segment before values)
    (hroom : (path segment.segmentTail).length ≤ maxBound) :
    validateSegment segment = .ok (.ok ()) := by
  have hcounted := h.counted
  have hlength := h.length_eq
  have htailDepth := h.tail_depth
  have hanchorDepth := h.anchor_depth
  unfold validateSegment
  dsimp only
  cases values with
  | nil =>
      rw [length_nil] at htailDepth
      rw [if_pos (h.count_zero.mpr rfl), h.base_of_nil, if_pos ⟨by omega, rfl⟩]
  | cons value rest =>
      rw [length_cons] at hcounted hlength htailDepth
      have hbaseDepth := h.base_sound.nodeDepth_eq
      rw [h.base_path, length_append] at hbaseDepth
      obtain ⟨-, parent, hparent, -, hparentSound, hparentPath⟩ :=
        ends_with h.base_sound h.base_path
      have hparentDepth := hparentSound.nodeDepth_eq
      rw [hparentPath] at hparentDepth
      obtain ⟨anchor, hanchor, hanchorAncestor, hanchorLength⟩ := @ancestorAtDepth_spec _ _ h.sound
        (nodeDepth segment.segmentAnchor) (by omega) (by omega)
      obtain ⟨base, hbase, hbaseAncestor, hbaseLength⟩ := @ancestorAtDepth_spec _ _ h.sound
        (nodeDepth segment.segmentAnchor + 1) (by omega) (by omega)
      have hanchorQuery := (h.sound.ancestor hanchorAncestor).nodeDepth_eq
      have hbaseQuery := (h.sound.ancestor hbaseAncestor).nodeDepth_eq
      have hone : ((List.take 1 (value :: rest)).length : Int) = 1 := rfl
      have hparentEq : nodeDepth parent = nodeDepth segment.segmentAnchor := by omega
      have hcachedEq : nodeDepth segment.segmentBase = nodeDepth segment.segmentAnchor + 1 := by
        omega
      have hanchorEq : nodeDepth anchor = nodeDepth segment.segmentAnchor := by omega
      have hbaseEq : nodeDepth base = nodeDepth segment.segmentAnchor + 1 := by omega
      rw [if_neg (by omega), checkedSub_ok (by omega) (by omega), Except.map, if_neg (by omega),
        hparent, Option.map_some, hparentEq,
        if_neg (not_or.mpr ⟨not_not_intro hcachedEq, not_not_intro rfl⟩), hanchor, Option.map_some,
        hanchorEq,
        if_neg (not_not_intro rfl), hbase, Option.map_some, hbaseEq, if_neg (not_not_intro rfl)]

theorem validateStructure_spec (h : Refines additions deque values) (hroom : additions ≤ maxBound) :
    ∃ statistics, validateStructure deque = .ok (.ok statistics) ∧
      statistics.bilateralCount = values.length := by
  obtain ⟨leftBefore, leftValues, rightBefore, rightValues, harms⟩ := h.arms
  have hcounted := harms.counted
  have hbounded := h.bounded
  have hlength := harms.length_eq
  have hleftCount := harms.left.counted
  have hrightCount := harms.right.counted
  have hleftLength := harms.left.length_eq
  have hrightLength := harms.right.length_eq
  unfold validateStructure
  dsimp only
  rw [if_neg (by omega), if_neg (by omega), if_neg (by omega),
    validateSegment_spec harms.left (by omega), except_bind_ok,
    validateSegment_spec harms.right (by omega)]
  exact ⟨_, rfl, hcounted⟩

end

/-!
## Histories of bilateral ancestral deques

Every version of every branching history shows the list of the model within the reported query
costs, as long as the history adds no more values than the source's `Int` can count.
-/

variable {α : Type}

/-! ### Edits -/

/-- One edit.  Versions are numbered in the order they were made. -/
inductive Edit (α : Type) where
  | empty
  | fromList (values : List α)
  | addFirst (value : α) (version : Nat)
  | addLast (value : α) (version : Nat)
  | removeFirst (version : Nat)
  | removeLast (version : Nat)
  | take (amount : Int) (version : Nat)
  | drop (amount : Int) (version : Nat)
  | slice (position amount : Int) (version : Nat)
  | splitAt (position : Int) (version : Nat)
  | reverse (version : Nat)
  | clear (version : Nat)

def produce (versions : List (BilateralAncestralDeque α)) :
    Edit α → Except DequeError (List (BilateralAncestralDeque α))
  | .empty => .ok [empty]
  | .fromList values => (fromList values).map fun made => [made]
  | .addFirst value version => onVersion versions version fun deque =>
      (addFirst value deque).map fun made => [made]
  | .addLast value version => onVersion versions version fun deque =>
      (addLast value deque).map fun made => [made]
  | .removeFirst version => onVersion versions version fun deque =>
      (removeFirst deque).map Option.toList
  | .removeLast version => onVersion versions version fun deque =>
      (removeLast deque).map Option.toList
  | .take amount version => onVersion versions version fun deque =>
      (take amount deque).map Option.toList
  | .drop amount version => onVersion versions version fun deque =>
      (drop amount deque).map Option.toList
  | .slice position amount version => onVersion versions version fun deque =>
      (slice position amount deque).map Option.toList
  | .splitAt position version => onVersion versions version fun deque =>
      (splitAt position deque).map partsList
  | .reverse version => onVersion versions version fun deque => .ok [reverse deque]
  | .clear version => onVersion versions version fun deque => .ok [clear deque]

/-- Nothing fails on lists. -/
def ListModel.produce (models : List (List α)) : Edit α → Except DequeError (List (List α))
  | .empty => .ok [[]]
  | .fromList values => .ok [values]
  | .addFirst value version => onVersion models version fun values => .ok [value :: values]
  | .addLast value version => onVersion models version fun values => .ok [values ++ [value]]
  | .removeFirst version => onVersion models version fun values =>
      .ok (ListModel.removeFirst values).toList
  | .removeLast version => onVersion models version fun values =>
      .ok (ListModel.removeLast values).toList
  | .take amount version => onVersion models version fun values =>
      .ok (ListModel.take amount values).toList
  | .drop amount version => onVersion models version fun values =>
      .ok (ListModel.drop amount values).toList
  | .slice position amount version => onVersion models version fun values =>
      .ok (ListModel.slice position amount values).toList
  | .splitAt position version => onVersion models version fun values =>
      .ok (partsList (ListModel.splitAt position values))
  | .reverse version => onVersion models version fun values => .ok [values.reverse]
  | .clear version => onVersion models version fun _ => .ok [[]]

/-- How many values an edit adds. -/
def additions : Edit α → Nat
  | .fromList values => values.length
  | .addFirst _ _ => 1
  | .addLast _ _ => 1
  | _ => 0

section Steps

variable {spent limit : Nat}

theorem uncosted_agrees
    {result : Except DequeError (Option (BilateralAncestralDeque α × QueryCost))}
    {expected : Option (List α)}
    (h : ∃ made, result = .ok made ∧ Option.Rel (Costs spent limit) made expected) :
    Agrees (List.Forall₂ (Refines spent)) ((uncosted result).map Option.toList)
      (.ok expected.toList) := by
  obtain ⟨made, rfl, hrelated⟩ := h
  cases hrelated with
  | none => exact .ok .nil
  | some hcosts => exact .ok (.cons hcosts.1 .nil)

theorem splitAt_agrees {result : Except DequeError
      (Option ((BilateralAncestralDeque α × BilateralAncestralDeque α) × QueryCost))}
    {expected : Option (List α × List α)}
    (h : ∃ made, result = .ok made ∧ Option.Rel (CostsParts spent limit) made expected) :
    Agrees (List.Forall₂ (Refines spent)) ((uncosted result).map partsList)
      (.ok (partsList expected)) := by
  obtain ⟨made, rfl, hrelated⟩ := h
  cases hrelated with
  | none => exact .ok .nil
  | some hcosts => exact .ok (.cons hcosts.1 (.cons hcosts.2.1 .nil))

theorem produce_agrees (spent : Nat) (versions : List (BilateralAncestralDeque α))
    (models : List (List α)) (edit : Edit α) (hroom : spent + additions edit ≤ maxBound)
    (h : List.Forall₂ (Refines spent) versions models) :
    Agrees (List.Forall₂ (Refines (spent + additions edit))) (produce versions edit)
      (ListModel.produce models edit) := by
  cases edit with
  | empty => exact .ok (.cons refines_empty .nil)
  | fromList values => exact single_agrees (.total (fromList_refines values hroom))
  | addFirst value version =>
      exact onVersion_agrees h version fun _ _ hrefines =>
        single_agrees (.total (addFirst_refines hrefines hroom value))
  | addLast value version =>
      exact onVersion_agrees h version fun _ _ hrefines =>
        single_agrees (.total (addLast_refines hrefines hroom value))
  | removeFirst version =>
      exact onVersion_agrees h version fun _ _ hrefines =>
        uncosted_agrees (removeFirstCost_refines hrefines hroom)
  | removeLast version =>
      exact onVersion_agrees h version fun _ _ hrefines =>
        uncosted_agrees (removeLastCost_refines hrefines hroom)
  | take amount version =>
      exact onVersion_agrees h version fun _ _ hrefines =>
        uncosted_agrees (take_refines hrefines hroom amount)
  | drop amount version =>
      exact onVersion_agrees h version fun _ _ hrefines =>
        uncosted_agrees (drop_refines hrefines hroom amount)
  | slice position amount version =>
      exact onVersion_agrees h version fun _ _ hrefines =>
        uncosted_agrees (slice_refines hrefines hroom position amount)
  | splitAt position version =>
      exact onVersion_agrees h version fun _ _ hrefines =>
        splitAt_agrees (splitAt_refines hrefines hroom position)
  | reverse version =>
      exact onVersion_agrees h version fun _ _ hrefines =>
        .ok (.cons (reverse_refines hrefines) .nil)
  | clear version =>
      exact onVersion_agrees h version fun _ _ hrefines => .ok (.cons (clear_refines hrefines) .nil)

end Steps

/-- What a result costs when there is one. -/
def Within {β : Type} (limit : Nat) (result : Except DequeError (Option (β × QueryCost))) : Prop :=
  ∃ made, result = .ok made ∧ ∀ entry ∈ made, entry.2.queryCostQueries ≤ limit

/-- What a version shows of its list, with the costs it reports. -/
structure Observes (deque : BilateralAncestralDeque α) (values : List α) : Prop where
  contents : toList deque = .ok values
  counted : count deque = values.length
  empty : null deque = values.isEmpty
  reads : ∀ position, index position deque = .ok (elementAt position values)
  head : first deque = .ok values.head?
  tail : last deque = .ok values.getLast?
  valid : ∃ statistics, validateStructure deque = .ok (.ok statistics) ∧
    statistics.bilateralCount = values.length
  indexWithin : ∀ position, Within 1 (indexCost position deque)
  removeFirstWithin : Within 1 (removeFirstCost deque)
  removeLastWithin : Within 1 (removeLastCost deque)
  sliceWithin : ∀ position amount, Within 2 (sliceCost position amount deque)
  splitAtWithin : ∀ position, Within 2 (splitAtCost position deque)

section Observations

variable {spent limit : Nat} {deque : BilateralAncestralDeque α} {values : List α}

theorem within_of_rel {β γ : Type} {related : β × QueryCost → γ → Prop}
    {result : Except DequeError (Option (β × QueryCost))} {expected : Option γ}
    (h : ∃ made, result = .ok made ∧ Option.Rel related made expected)
    (hcost : ∀ entry value, related entry value → entry.2.queryCostQueries ≤ limit) :
    Within limit result := by
  obtain ⟨made, hmade, hrelated⟩ := h
  refine ⟨made, hmade, ?_⟩
  intro entry hentry
  cases hrelated with
  | none => cases hentry
  | some hcosts =>
      cases hentry
      exact hcost _ _ hcosts

theorem observes_of_refines (h : Refines spent deque values) (hroom : spent ≤ maxBound) :
    Observes deque values where
  contents := toList_eq h
  counted := by
    obtain ⟨_, _, _, _, harms⟩ := h.arms
    exact harms.counted
  empty := by rw [null, Bool.eq_iff_iff, beq_iff_eq, h.count_zero, List.isEmpty_iff]
  reads position := by
    obtain ⟨found, hfound, hmodel, -⟩ := indexCost_reads h hroom position
    rw [index, hfound, Except.map, hmodel]
  head := first_eq h
  tail := last_eq h
  valid := validateStructure_spec h hroom
  indexWithin position := by
    obtain ⟨found, hfound, -, hcost⟩ := indexCost_reads h hroom position
    exact ⟨found, hfound, hcost⟩
  removeFirstWithin := within_of_rel (removeFirstCost_refines h hroom) fun _ _ hcosts => hcosts.2
  removeLastWithin := within_of_rel (removeLastCost_refines h hroom) fun _ _ hcosts => hcosts.2
  sliceWithin position amount :=
    within_of_rel (slice_refines h hroom position amount) fun _ _ hcosts => hcosts.2
  splitAtWithin position :=
    within_of_rel (splitAt_refines h hroom position) fun _ _ hcosts => hcosts.2.2

end Observations

/-- How many values a history adds. -/
def totalAdditions (edits : List (Edit α)) : Nat := (edits.map additions).sum

theorem sliced_deques_exact (edits : List (Edit α)) (h : totalAdditions edits ≤ maxBound) :
    List.Forall₂ Observes (grow produce [] edits) (grow ListModel.produce [] edits) ∧
    ∀ edit, totalAdditions edits + additions edit ≤ maxBound →
      Agrees (List.Forall₂ Observes) (produce (grow produce [] edits) edit)
        (ListModel.produce (grow ListModel.produce [] edits) edit) :=
  grow_observes_within (fun _ more _ _ hrefines => hrefines.mono more) produce_agrees
    (fun _ _ _ => observes_of_refines) edits h

theorem sliced_deques_exact_branches :
    List.Forall₂ Observes
      (grow produce [] [.fromList [1, 2, 3, 4], .addFirst 9 0, .slice 1 3 1, .reverse 2,
        .addLast 7 3, .splitAt 2 1, .addFirst 8 5, .removeFirst 6, .removeLast 7])
      (grow ListModel.produce [] [.fromList [1, 2, 3, 4], .addFirst 9 0, .slice 1 3 1, .reverse 2,
        .addLast 7 3, .splitAt 2 1, .addFirst 8 5, .removeFirst 6, .removeLast 7]) :=
  (sliced_deques_exact _ (by decide)).1

/-- The append after the last length the source's `Int` can count fails. -/
theorem sliced_deques_overflow :
    ¬ ∀ edits : List (Edit Unit),
      List.Forall₂ Observes (grow produce [] edits) (grow ListModel.produce [] edits) := by
  refine grow_overflows (fun _ more _ _ hrefines => hrefines.mono more) produce_agrees .empty
    (fun version => .addLast () version) (fun length => List.replicate length ())
    ⟨rfl, fun _ => rfl⟩ rfl ?_ ?_
  · intro models version hpicked
    rw [ListModel.produce, onVersion, hpicked, replicate_succ']
    rfl
  intro versions version hpicked hrefines
  obtain ⟨_, _, _, _, harms⟩ := hrefines.arms
  have hvisible := harms.counted
  rw [length_replicate] at hvisible
  rw [produce, onVersion, hpicked, Option.elim_some, addLast, checkedIncrement, if_pos hvisible]
  rfl

end Durable7.FingerTree.BilateralAncestralDeque
