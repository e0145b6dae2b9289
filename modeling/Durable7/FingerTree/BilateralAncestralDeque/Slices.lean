import Durable7.FingerTree.BilateralAncestralDeque.Operations
import Mathlib.Data.List.Induction

/-!
# Intervals on root paths

What a segment holds, and what each operation on one makes of it.  The costs are bounded by the
endpoints that no cache holds.
-/

namespace Durable7.FingerTree.BilateralAncestralDeque

open List Foundation
open RrbVector (maxBound)

section

open IncrementalAncestor (Node IsAncestor Sound addLeaf ancestorAtDepthHops_spec
  ancestorAtDepth_spec nodeDepth nodeParent nodeValue path path_addLeaf
  sound_addLeaf)

variable {α : Type}

/-- The values of an interval from its base to its tail, over those below it. -/
structure Holds (segment : Segment α) (before values : List α) : Prop where
  sound : Sound segment.segmentTail
  anchored : IsAncestor segment.segmentAnchor segment.segmentTail
  based : IsAncestor segment.segmentBase segment.segmentTail
  tail_path : path segment.segmentTail = before ++ values
  anchor_path : path segment.segmentAnchor = before
  base_path : path segment.segmentBase = before ++ values.take 1
  counted : segment.segmentCount = values.length

variable {node : Node α}

theorem holds_emptySegmentAt (h : Sound node) : Holds (emptySegmentAt node) (path node) [] where
  sound := h
  anchored := .refl
  based := .refl
  tail_path := (append_nil _).symm
  anchor_path := rfl
  base_path := (append_nil _).symm
  counted := rfl

theorem checkedAdd_ok {left right : Int} (hright : 0 ≤ right)
    (h : left + right ≤ maxBound) : checkedAdd left right = .ok (left + right) := by
  rw [checkedAdd, if_neg (by omega), if_neg (by omega)]

theorem checkedSub_ok {left right : Int} (hlow : -1 ≤ left - right) (h : left - right ≤ maxBound) :
    checkedSub left right = .ok (left - right) := by
  rw [checkedSub, if_neg (by omega), if_neg (by unfold minBound; omega)]

variable {value : α} {front : List α}

theorem ends_with (hsound : Sound node) (h : path node = front ++ [value]) :
    expectValue node = .ok value ∧
      ∃ parent, nodeParent node = some parent ∧ IsAncestor parent node ∧ Sound parent ∧
        path parent = front := by
  cases hsound with
  | bottom => exact absurd h (by simp [path])
  | @labelled stored parent skip depth skipDistance hparent _ _ _ =>
      rw [path] at h
      obtain ⟨hfront, hvalue⟩ := append_inj' h rfl
      rw [singleton_inj] at hvalue
      exact ⟨by rw [← hvalue]; rfl, parent, rfl, .parent .refl _ _ _ _, hparent, hfront⟩

theorem expectParent_ok {parent : Node α} (h : nodeParent node = some parent) :
    expectParent node = .ok parent := by
  rw [expectParent, h, Option.elim_some]

theorem queryAncestor_spec (hsound : Sound node) {amount : Nat}
    (hamount : amount ≤ (path node).length) {depth : Int} (hdepth : depth = amount - 1) :
    ∃ found cost, queryAncestor node depth = .ok (found, cost) ∧ IsAncestor found node ∧
      path found = (path node).take amount ∧ cost.queryCostQueries = 1 := by
  have hnode := hsound.nodeDepth_eq
  obtain ⟨found, hops, hfound, hancestor, hlength⟩ :=
    @ancestorAtDepthHops_spec _ _ hsound depth (by omega) (by omega)
  refine ⟨found, ⟨1, hops⟩, by rw [queryAncestor, hfound]; rfl, hancestor, ?_, rfl⟩
  have hpath := hancestor.path_eq
  rwa [show (path found).length = amount by omega] at hpath

section Holds

variable {segment : Segment α} {before values : List α}

section

variable (h : Holds segment before values)
include h

theorem Holds.length_eq : (path segment.segmentTail).length = before.length + values.length := by
  rw [h.tail_path, length_append]

theorem Holds.tail_depth : nodeDepth segment.segmentTail = before.length + values.length - 1 := by
  rw [h.sound.nodeDepth_eq, h.length_eq, Int.natCast_add]

theorem Holds.anchor_sound : Sound segment.segmentAnchor := h.sound.ancestor h.anchored

theorem Holds.base_sound : Sound segment.segmentBase := h.sound.ancestor h.based

theorem Holds.anchor_depth : nodeDepth segment.segmentAnchor = before.length - 1 := by
  rw [h.anchor_sound.nodeDepth_eq, h.anchor_path]

theorem Holds.count_zero : segment.segmentCount = 0 ↔ values = [] := by
  rw [h.counted, ← length_eq_zero_iff]
  omega

end

theorem Holds.base_of_nil (h : Holds segment before []) :
    segment.segmentBase = segment.segmentTail := by
  apply h.based.unique .refl
  rw [h.base_path, h.tail_path]
  rfl

theorem Holds.base_value {rest : List α} (h : Holds segment before (value :: rest)) :
    expectValue segment.segmentBase = .ok value :=
  (ends_with h.base_sound h.base_path).1

theorem Holds.tail_value (h : Holds segment before (front ++ [value])) :
    expectValue segment.segmentTail = .ok value := by
  have hpath := h.tail_path
  rw [← append_assoc] at hpath
  exact (ends_with h.sound hpath).1

theorem valuesFromTail_spec (hsound : Sound node) (front values : List α)
    (h : path node = front ++ values) :
    valuesFromTail node values.length = .ok values.reverse := by
  induction values using List.reverseRecOn generalizing node with
  | nil => rfl
  | append_singleton values value ih =>
      rw [← append_assoc] at h
      obtain ⟨hvalue, parent, hparent, -, hparentSound, hpath⟩ := ends_with hsound h
      rw [length_append, length_singleton, valuesFromTail, hvalue, except_bind_ok,
        expectParent_ok hparent, except_bind_ok, ih hparentSound hpath, reverse_append]
      rfl

theorem Holds.values_eq (h : Holds segment before values) :
    valuesFromTail segment.segmentTail segment.segmentCount.toNat = .ok values.reverse := by
  rw [h.counted, Int.toNat_natCast]
  exact valuesFromTail_spec h.sound before values h.tail_path

theorem reverseOnto_eq (values suffix : List α) :
    reverseOnto values suffix = values.reverse ++ suffix := by
  induction values generalizing suffix with
  | nil => rfl
  | cons value values ih =>
      rw [reverseOnto, ih, reverse_cons, append_assoc]
      rfl

theorem addToTail_holds (h : Holds segment before values) (value : α)
    (hroom : (path segment.segmentTail).length < maxBound) :
    Holds (addToTail segment value) before (values ++ [value]) where
  sound := sound_addLeaf h.sound value (by unfold maxBound at hroom; omega)
  anchored := .parent h.anchored _ _ _ _
  based := by
    dsimp only [addToTail]
    split
    · exact .refl
    · exact .parent h.based _ _ _ _
  tail_path := by rw [addToTail, path_addLeaf, h.tail_path, append_assoc]
  anchor_path := h.anchor_path
  base_path := by
    dsimp only [addToTail]
    split
    · rename_i hzero
      rw [path_addLeaf, h.tail_path, h.count_zero.mp hzero, append_nil]
      rfl
    · rename_i hzero
      rw [h.base_path, take_append_of_le_length]
      have hcounted := h.counted
      omega
  counted := by
    have hcounted := h.counted
    rw [length_append, length_singleton]
    dsimp only [addToTail]
    omega

theorem removeTail_holds (h : Holds segment before (front ++ [value])) :
    ∃ shortened, removeTail segment = .ok shortened ∧ Holds shortened before front := by
  have hcounted := h.counted
  rw [length_append, length_singleton] at hcounted
  have hpath := h.tail_path
  rw [← append_assoc] at hpath
  obtain ⟨-, parent, hparent, hancestor, hsound, hfront⟩ := ends_with h.sound hpath
  rw [removeTail, if_neg (by omega), expectParent_ok hparent]
  by_cases hone : segment.segmentCount = 1
  · have hnil : front = [] := length_eq_zero_iff.mp (by omega)
    rw [hnil, append_nil] at hfront
    rw [hnil, Except.map, if_pos hone]
    refine ⟨_, rfl, ?_⟩
    rw [← hfront]
    exact holds_emptySegmentAt hsound
  · have hlength := h.length_eq
    have hparentLength := congrArg List.length hfront
    rw [length_append, length_singleton] at hlength
    rw [length_append] at hparentLength
    rw [Except.map, if_neg hone]
    refine ⟨_, rfl, hsound, ?_, ?_, hfront, h.anchor_path, ?_, ?_⟩
    · refine h.anchored.above hancestor ?_
      rw [h.anchor_path]
      dsimp only
      omega
    · refine h.based.above hancestor ?_
      dsimp only
      rw [h.base_path, length_append, length_take, length_append, length_singleton]
      omega
    · rw [h.base_path, take_append_of_le_length (by omega)]
    · dsimp only
      omega

theorem removeBase_holds {rest : List α} (h : Holds segment before (value :: rest))
    (hroom : (path segment.segmentTail).length ≤ maxBound) :
    ∃ shortened cost, removeBase segment = .ok (shortened, cost) ∧
      Holds shortened (before ++ [value]) rest ∧ cost.queryCostQueries ≤ 1 := by
  have hcounted := h.counted
  have hlength := h.length_eq
  have hdepth := h.tail_depth
  have hpath := h.tail_path
  have hbase := h.base_path
  rw [length_cons] at hcounted hlength hdepth
  rw [← singleton_append, ← append_assoc] at hpath
  rw [removeBase, if_neg (by omega)]
  by_cases hone : segment.segmentCount = 1
  · have hnil : rest = [] := length_eq_zero_iff.mp (by omega)
    rw [hnil, append_nil] at hpath
    rw [if_pos hone, hnil, ← hpath]
    exact ⟨_, _, rfl, holds_emptySegmentAt h.sound, Nat.zero_le _⟩
  rw [if_neg hone]
  by_cases htwo : segment.segmentCount = 2
  · rw [if_pos htwo]
    refine ⟨_, _, rfl, ⟨h.sound, h.based, .refl, hpath, hbase, ?_, ?_⟩, Nat.zero_le _⟩
    · dsimp only
      rw [hpath, take_of_length_le (by omega)]
    · dsimp only
      omega
  rw [if_neg htwo, checkedSub_ok (by omega) (by omega), except_bind_ok,
    checkedAdd_ok (by omega) (by omega), except_bind_ok]
  obtain ⟨found, cost, hfound, hancestor, hfoundPath, hcost⟩ :=
    @queryAncestor_spec _ _ h.sound (before.length + 2)
      (by omega) (nodeDepth segment.segmentTail - segment.segmentCount + 2) (by omega)
  rw [hfound]
  refine ⟨_, _, rfl, ⟨h.sound, h.based, hancestor, hpath, hbase, ?_, ?_⟩, Nat.le_of_eq hcost⟩
  · dsimp only
    rw [hfoundPath, hpath, show before.length + 2 = (before ++ [value]).length + 1 by
      rw [length_append, length_singleton], take_length_add_append]
  · dsimp only
    omega

end Holds

end

/-!
## Slices of intervals

A slice keeps a consecutive part of the values.  It queries for at most the two endpoints that
are not endpoints of the interval.
-/

open IncrementalAncestor (Node IsAncestor Sound nodeDepth nodeParent path)
open Nat

variable {α : Type} {segment : Segment α} {before values : List α}

/-- An endpoint counts when it is not an endpoint of the interval. -/
def endpointCost (cached : Prop) [Decidable cached] : Nat := if cached then 0 else 1

/-- The node at a depth of the root path, within `limit` queries. -/
def Finds (tail : Node α) (amount limit : Nat)
    (result : Except DequeError (Node α × QueryCost)) : Prop :=
  ∃ found cost, result = .ok (found, cost) ∧ IsAncestor found tail ∧
    path found = (path tail).take amount ∧ cost.queryCostQueries ≤ limit

theorem endpoint_finds {tail node : Node α} (hsound : Sound tail) {cached same : Prop}
    [Decidable cached] [Decidable same] (hsame : same → cached) {amount : Nat}
    (hcached : cached → IsAncestor node tail ∧ path node = (path tail).take amount)
    (hamount : amount ≤ (path tail).length) {depth : Int} (hdepth : depth = amount - 1) :
    Finds tail amount (endpointCost same) (endpoint cached node tail depth) := by
  unfold endpoint endpointCost
  by_cases hyes : cached
  · rw [if_pos (decide_eq_true hyes)]
    exact ⟨node, noQueries, rfl, (hcached hyes).1, (hcached hyes).2, zero_le _⟩
  · obtain ⟨found, cost, hfound, hancestor, hpath, hcost⟩ :=
      queryAncestor_spec hsound hamount hdepth
    rw [decide_eq_false hyes, if_neg Bool.false_ne_true, if_neg (mt hsame hyes)]
    exact ⟨found, cost, hfound, hancestor, hpath, le_of_eq hcost⟩

section

variable (h : Holds segment before values)
include h

theorem Holds.inside {low high : Nat} (hlow : low < high)
    (hhigh : high ≤ values.length) {newAnchor newBase newTail : Node α}
    (hanchor : IsAncestor newAnchor segment.segmentTail)
    (hbase : IsAncestor newBase segment.segmentTail)
    (htail : IsAncestor newTail segment.segmentTail)
    (hanchorPath : path newAnchor = (path segment.segmentTail).take (before.length + low))
    (hbasePath : path newBase = (path segment.segmentTail).take (before.length + (low + 1)))
    (htailPath : path newTail = (path segment.segmentTail).take (before.length + high))
    {amount : Int} (hamount : amount = high - low) :
    Holds ⟨newAnchor, newBase, newTail, amount⟩ (before ++ values.take low)
      ((values.take high).drop low) := by
  have hlength := h.length_eq
  have hfront : values.take low ++ (values.take high).drop low = values.take high := by
    have hsplit := take_append_drop low (values.take high)
    rwa [take_take, min_eq_left (by omega)] at hsplit
  rw [h.tail_path, take_length_add_append] at hanchorPath hbasePath htailPath
  have hlengths := congrArg List.length hanchorPath
  have hbaseLengths := congrArg List.length hbasePath
  have htailLengths := congrArg List.length htailPath
  rw [length_append, length_take] at hlengths hbaseLengths htailLengths
  refine ⟨h.sound.ancestor htail, ?_, ?_, ?_, hanchorPath, ?_, ?_⟩
  · refine hanchor.above htail ?_
    dsimp only
    omega
  · refine hbase.above htail ?_
    dsimp only
    omega
  · dsimp only
    rw [htailPath, append_assoc, hfront]
  · dsimp only
    rw [hbasePath, append_assoc]
    congr 1
    rw [drop_take, take_take, min_eq_left (by omega), ← take_add]
  · rw [length_drop, length_take]
    dsimp only
    omega

section

variable {low : Nat} (hlow : low < values.length) {newBase : Node α}
  (hbase : IsAncestor newBase segment.segmentTail)
  (hbasePath : path newBase = (path segment.segmentTail).take (before.length + (low + 1)))
include hlow hbase hbasePath

theorem Holds.anchor_of_base :
    ∃ newAnchor, expectParent newBase = .ok newAnchor ∧
      IsAncestor newAnchor segment.segmentTail ∧
      path newAnchor = (path segment.segmentTail).take (before.length + low) := by
  rw [h.tail_path, take_length_add_append] at hbasePath ⊢
  rw [take_succ_eq_append_getElem hlow, ← append_assoc] at hbasePath
  obtain ⟨-, parent, hparent, hancestor, -, hpath⟩ := ends_with (h.sound.ancestor hbase) hbasePath
  exact ⟨parent, expectParent_ok hparent, hancestor.trans hbase, hpath⟩

theorem Holds.anchor_finds {first : Prop} [Decidable first] (hfirst : first → low = 0) :
    ∃ newAnchor,
      (if first then .ok segment.segmentAnchor else expectParent newBase) = .ok newAnchor ∧
      IsAncestor newAnchor segment.segmentTail ∧
      path newAnchor = (path segment.segmentTail).take (before.length + low) := by
  split
  · next hyes =>
      rw [hfirst hyes]
      refine ⟨_, rfl, h.anchored, ?_⟩
      rw [h.anchor_path, h.tail_path, take_length_add_append, take_zero, append_nil]
  · exact h.anchor_of_base hlow hbase hbasePath

end

theorem Holds.base_finds {low : Nat} (hlow : low < values.length) {cached same : Prop}
    [Decidable cached] [Decidable same] (hsame : same → cached) (hcached : cached → low = 0)
    {depth : Int} (hdepth : depth = ((before.length + (low + 1) : Nat) : Int) - 1) :
    Finds segment.segmentTail (before.length + (low + 1)) (endpointCost same)
      (endpoint cached segment.segmentBase segment.segmentTail depth) := by
  have hlength := h.length_eq
  refine endpoint_finds h.sound hsame (fun hyes => ⟨h.based, ?_⟩) (by omega) hdepth
  rw [hcached hyes, h.base_path, h.tail_path, take_length_add_append]

theorem Holds.tail_finds {high : Nat} (hhigh : high ≤ values.length) {cached same : Prop}
    [Decidable cached] [Decidable same] (hsame : same → cached)
    (hcached : cached → high = values.length) {depth : Int}
    (hdepth : depth = ((before.length + high : Nat) : Int) - 1) :
    Finds segment.segmentTail (before.length + high) (endpointCost same)
      (endpoint cached segment.segmentTail segment.segmentTail depth) := by
  have hlength := h.length_eq
  refine endpoint_finds h.sound hsame (fun hyes => ⟨.refl, ?_⟩) (by omega) hdepth
  rw [hcached hyes, ← hlength, take_length]

end

/-- What a slice keeps, and how many endpoints it asks for. -/
structure Slices (segment : Segment α) (result : Except DequeError (Segment α × QueryCost))
    (kept : List α) (limit : Nat) : Prop where
  spec : ∃ sliced cost front, result = .ok (sliced, cost) ∧ Holds sliced front kept ∧
    (path sliced.segmentTail).length ≤ (path segment.segmentTail).length ∧
    cost.queryCostQueries ≤ limit

/-- An empty slice asks for no endpoint. -/
def sliceLimit (startIndex amount length : Nat) : Nat :=
  if amount = 0 then 0
  else endpointCost (startIndex = 0) + endpointCost (startIndex + amount = length)

theorem slices_empty (result : Except DequeError (Segment α × QueryCost))
    (h : result = .ok (emptySegmentAt .bottom, noQueries)) (limit : Nat) :
    Slices segment result [] limit :=
  ⟨_, _, _, h, holds_emptySegmentAt .bottom, zero_le _, zero_le _⟩

section

variable (h : Holds segment before values)
include h

theorem slices_whole {result : Except DequeError (Segment α × QueryCost)}
    (hresult : result = .ok (segment, noQueries)) (limit : Nat) :
    Slices segment result values limit :=
  ⟨_, _, _, hresult, h, le_refl _, zero_le _⟩

section

variable (hroom : (path segment.segmentTail).length ≤ maxBound) {startIndex amount : Nat}
  (hinside : startIndex + amount ≤ values.length)
include hroom hinside

theorem sliceRight_slices :
    Slices segment (sliceRight segment startIndex amount)
      ((values.drop startIndex).take amount)
      (sliceLimit startIndex amount values.length) := by
  have hcounted := h.counted
  have hlength := h.length_eq
  have hanchorDepth := h.anchor_depth
  by_cases hzero : amount = 0
  · rw [hzero, take_zero]
    exact slices_empty _ (if_pos rfl) _
  by_cases hall : startIndex = 0 ∧ amount = values.length
  · rw [hall.1, drop_zero, take_of_length_le (le_of_eq hall.2.symm)]
    exact slices_whole h (by rw [sliceRight, if_neg (by omega), if_pos (by omega)]) _
  obtain ⟨newBase, baseCost, hnewBase, hbase, hbasePath, hbaseCost⟩ :=
    @Holds.base_finds _ _ _ _ h startIndex (by omega) ((startIndex : Int) = 0) (startIndex = 0) _ _
      (by omega) (by omega) (nodeDepth segment.segmentAnchor + startIndex + 1) (by omega)
  have htailChosen : Finds segment.segmentTail (before.length + (startIndex + amount))
      (endpointCost (startIndex + amount = values.length))
      (if nodeDepth segment.segmentAnchor + startIndex + 1 + amount - 1 =
          nodeDepth segment.segmentAnchor + startIndex + 1 then .ok (newBase, noQueries)
        else endpoint (startIndex + amount = segment.segmentCount) segment.segmentTail
          segment.segmentTail (nodeDepth segment.segmentAnchor + startIndex + 1 + amount - 1)) := by
    split
    · rw [show amount = 1 by omega]
      exact ⟨_, _, rfl, hbase, hbasePath, zero_le _⟩
    · exact h.tail_finds hinside (by omega) (by omega) (by omega)
  obtain ⟨newTail, tailCost, hnewTail, htail, htailPath, htailCost⟩ := htailChosen
  obtain ⟨newAnchor, hnewAnchor, hanchor, hanchorPath⟩ :=
    @Holds.anchor_finds _ _ _ _ h startIndex (by omega) newBase hbase hbasePath
      ((startIndex : Int) = 0) _ (by omega)
  rw [sliceRight, if_neg (by omega), if_neg (by omega), checkedAdd_ok (by omega) (by omega),
    except_bind_ok, checkedAdd_ok (by omega) (by omega), except_bind_ok,
    checkedAdd_ok (by omega) (by omega), except_bind_ok,
    checkedSub_ok (by omega) (by omega), except_bind_ok, hnewBase, except_bind_ok,
    hnewTail, except_bind_ok, hnewAnchor]
  have hkept := h.inside (show startIndex < startIndex + amount by omega) hinside hanchor hbase
    htail hanchorPath hbasePath htailPath (show (amount : Int) = _ by omega)
  rw [← take_drop] at hkept
  refine ⟨_, _, _, rfl, hkept, htail.length_le, ?_⟩
  rw [sliceLimit, if_neg hzero]
  exact Nat.add_le_add hbaseCost htailCost

theorem sliceLeft_slices :
    ∃ kept, kept.reverse = (values.reverse.drop startIndex).take amount ∧
      Slices segment (sliceLeft segment startIndex amount) kept
        (sliceLimit startIndex amount values.length) := by
  have hcounted := h.counted
  have hlength := h.length_eq
  have htailDepth := h.tail_depth
  by_cases hzero : amount = 0
  · rw [hzero, take_zero]
    exact ⟨[], rfl, slices_empty _ (if_pos rfl) _⟩
  by_cases hall : startIndex = 0 ∧ amount = values.length
  · rw [hall.1, drop_zero, take_of_length_le (by rw [length_reverse]; omega)]
    exact ⟨values, rfl, slices_whole h (by rw [sliceLeft, if_neg (by omega), if_pos (by omega)]) _⟩
  obtain ⟨high, hhigh⟩ : ∃ high, high + startIndex = values.length :=
    ⟨values.length - startIndex, by omega⟩
  obtain ⟨low, hlow⟩ : ∃ low, low + amount = high := ⟨high - amount, by omega⟩
  refine ⟨(values.take high).drop low, ?_, ?_⟩
  · rw [drop_reverse, take_reverse, length_take,
      show values.length - startIndex = high by omega,
      show min high values.length - amount = low by omega]
  obtain ⟨newTail, tailCost, hnewTail, htail, htailPath, htailCost⟩ :=
    @Holds.tail_finds _ _ _ _ h high (by omega) (nodeDepth segment.segmentTail - startIndex =
      nodeDepth segment.segmentTail) (startIndex = 0) _ _ (by omega) (by omega)
      (nodeDepth segment.segmentTail - startIndex) (by omega)
  have hbaseChosen : Finds segment.segmentTail (before.length + (low + 1))
      (endpointCost (startIndex + amount = values.length))
      (if nodeDepth segment.segmentTail - startIndex - amount + 1 =
          nodeDepth segment.segmentTail - startIndex then .ok (newTail, noQueries)
        else endpoint (nodeDepth segment.segmentTail - startIndex - amount + 1 =
          nodeDepth segment.segmentTail - segment.segmentCount + 1) segment.segmentBase
          segment.segmentTail (nodeDepth segment.segmentTail - startIndex - amount + 1)) := by
    split
    · rw [show low + 1 = high by omega]
      exact ⟨_, _, rfl, htail, htailPath, zero_le _⟩
    · exact h.base_finds (by omega) (by omega) (by omega) (by omega)
  obtain ⟨newBase, baseCost, hnewBase, hbase, hbasePath, hbaseCost⟩ := hbaseChosen
  obtain ⟨newAnchor, hnewAnchor, hanchor, hanchorPath⟩ :=
    @Holds.anchor_finds _ _ _ _ h low (by omega) newBase hbase hbasePath
      (nodeDepth segment.segmentTail - startIndex - amount + 1 =
        nodeDepth segment.segmentTail - segment.segmentCount + 1) _ (by omega)
  rw [sliceLeft, if_neg (by omega), if_neg (by omega)]
  dsimp only
  rw [checkedSub_ok (by omega) (by omega), except_bind_ok, checkedAdd_ok (by omega) (by omega),
    except_bind_ok,
    checkedSub_ok (by omega) (by omega), except_bind_ok, checkedSub_ok (by omega) (by omega),
    except_bind_ok, checkedAdd_ok (by omega) (by omega), except_bind_ok, hnewTail, except_bind_ok,
    hnewBase, except_bind_ok, hnewAnchor]
  have hkept := h.inside (show low < high by omega) (show high ≤ values.length by omega) hanchor
    hbase htail hanchorPath hbasePath htailPath (show (amount : Int) = high - low by omega)
  refine ⟨_, _, _, rfl, hkept, htail.length_le, ?_⟩
  rw [sliceLimit, if_neg hzero]
  exact Nat.add_le_add htailCost hbaseCost

end

end

end Durable7.FingerTree.BilateralAncestralDeque
