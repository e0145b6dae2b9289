import Durable7.FingerTree.IncrementalAncestor
import Durable7.FingerTree.RrbVector.Node

/-!
# A bilateral ancestral deque

A handle is two intervals on root paths of a shared forest, the left one read from its tail and
the right one read towards it.  Every operation that can query the forest reports its cost.
-/

namespace Durable7.FingerTree

namespace BilateralAncestralDeque

open IncrementalAncestor (Node addLeaf ancestorAtDepth ancestorAtDepthHops nodeDepth nodeParent
  nodeValue)

/-- The interval above the anchor up to the tail.  The base is the first node after the anchor. -/
structure Segment (α : Type) where
  segmentAnchor : Node α
  segmentBase : Node α
  segmentTail : Node α
  segmentCount : Int

end BilateralAncestralDeque

structure BilateralAncestralDeque (α : Type) where
  dequeLeft : BilateralAncestralDeque.Segment α
  dequeRight : BilateralAncestralDeque.Segment α
  dequeCount : Int

namespace BilateralAncestralDeque

open IncrementalAncestor (Node addLeaf ancestorAtDepth ancestorAtDepthHops nodeDepth nodeParent
  nodeValue)

open RrbVector (maxBound)

variable {α : Type}

/-- What the source raises. -/
inductive DequeError where
  | visibleCountOverflow
  | ancestryDepthOverflow
  | emptyInterval
  | outsideInterval
  | unlabelledEndpoint
  | endpointWithoutParent
  | splitBoundary
  deriving DecidableEq

structure BilateralStatistics where
  bilateralCount : Int
  bilateralLeftCount : Int
  bilateralRightCount : Int

structure QueryCost where
  queryCostQueries : Nat
  queryCostHops : Nat
  deriving DecidableEq

def minBound : Int := -maxBound - 1

def noQueries : QueryCost := ⟨0, 0⟩

def addCost (left right : QueryCost) : QueryCost :=
  ⟨left.queryCostQueries + right.queryCostQueries, left.queryCostHops + right.queryCostHops⟩

def expectValue (node : Node α) : Except DequeError α :=
  (nodeValue node).elim (.error .unlabelledEndpoint) .ok

def expectParent (node : Node α) : Except DequeError (Node α) :=
  (nodeParent node).elim (.error .endpointWithoutParent) .ok

def checkedIncrement (value : Int) : Except DequeError Int :=
  if value = maxBound then .error .visibleCountOverflow else .ok (value + 1)

def checkedAdd (left right : Int) : Except DequeError Int :=
  if right > 0 ∧ left > maxBound - right then .error .ancestryDepthOverflow
  else if right < 0 ∧ left < minBound - right then .error .ancestryDepthOverflow
  else .ok (left + right)

def checkedSub (left right : Int) : Except DequeError Int :=
  if right < 0 ∧ left > maxBound + right then .error .ancestryDepthOverflow
  else if right > 0 ∧ left < minBound + right then .error .ancestryDepthOverflow
  else .ok (left - right)

def queryAncestor (node : Node α) (depth : Int) : Except DequeError (Node α × QueryCost) :=
  (ancestorAtDepthHops node depth).elim (.error .outsideInterval) fun found =>
    .ok (found.1, ⟨1, found.2⟩)

/-! ## Segments -/

def emptySegmentAt (node : Node α) : Segment α := ⟨node, node, node, 0⟩

def addToTail (segment : Segment α) (value : α) : Segment α :=
  let newTail := addLeaf segment.segmentTail value
  ⟨segment.segmentAnchor, if segment.segmentCount = 0 then newTail else segment.segmentBase,
    newTail, segment.segmentCount + 1⟩

def removeTail (segment : Segment α) : Except DequeError (Segment α) :=
  if segment.segmentCount = 0 then .error .emptyInterval
  else
    (expectParent segment.segmentTail).map fun newTail =>
      if segment.segmentCount = 1 then emptySegmentAt newTail
      else ⟨segment.segmentAnchor, segment.segmentBase, newTail, segment.segmentCount - 1⟩

def removeBase (segment : Segment α) : Except DequeError (Segment α × QueryCost) :=
  if segment.segmentCount = 0 then .error .emptyInterval
  else if segment.segmentCount = 1 then .ok (emptySegmentAt segment.segmentTail, noQueries)
  else if segment.segmentCount = 2 then
    .ok (⟨segment.segmentBase, segment.segmentTail, segment.segmentTail, 1⟩, noQueries)
  else
    (checkedSub (nodeDepth segment.segmentTail) segment.segmentCount).bind fun anchorDepth =>
      (checkedAdd anchorDepth 2).bind fun baseDepth =>
        (queryAncestor segment.segmentTail baseDepth).map fun found =>
          (⟨segment.segmentBase, found.1, segment.segmentTail, segment.segmentCount - 1⟩, found.2)

/-- The endpoint a cache holds, or the one a query finds. -/
def endpoint (cached : Bool) (node : Node α) (tail : Node α) (depth : Int) :
    Except DequeError (Node α × QueryCost) :=
  if cached then .ok (node, noQueries) else queryAncestor tail depth

def sliceLeft (segment : Segment α) (startIndex amount : Int) :
    Except DequeError (Segment α × QueryCost) :=
  if amount = 0 then .ok (emptySegmentAt .bottom, noQueries)
  else if startIndex = 0 ∧ amount = segment.segmentCount then .ok (segment, noQueries)
  else
    let tailDepth := nodeDepth segment.segmentTail
    (checkedSub tailDepth segment.segmentCount).bind fun anchorDepth =>
      (checkedAdd anchorDepth 1).bind fun baseDepth =>
        (checkedSub tailDepth startIndex).bind fun slicedTailDepth =>
          (checkedSub slicedTailDepth amount).bind fun slicedAnchorDepth =>
            (checkedAdd slicedAnchorDepth 1).bind fun slicedBaseDepth =>
              (endpoint (slicedTailDepth = tailDepth) segment.segmentTail segment.segmentTail
                slicedTailDepth).bind fun newTail =>
                (if slicedBaseDepth = slicedTailDepth then .ok (newTail.1, noQueries)
                  else endpoint (slicedBaseDepth = baseDepth) segment.segmentBase
                    segment.segmentTail slicedBaseDepth).bind fun newBase =>
                  (if slicedBaseDepth = baseDepth then .ok segment.segmentAnchor
                    else expectParent newBase.1).map fun newAnchor =>
                    (⟨newAnchor, newBase.1, newTail.1, amount⟩, addCost newTail.2 newBase.2)

def sliceRight (segment : Segment α) (startIndex amount : Int) :
    Except DequeError (Segment α × QueryCost) :=
  if amount = 0 then .ok (emptySegmentAt .bottom, noQueries)
  else if startIndex = 0 ∧ amount = segment.segmentCount then .ok (segment, noQueries)
  else
    (checkedAdd (nodeDepth segment.segmentAnchor) startIndex).bind fun slicedAnchorDepth =>
      (checkedAdd slicedAnchorDepth 1).bind fun slicedBaseDepth =>
        (checkedAdd slicedBaseDepth amount).bind fun slicedEndDepth =>
          (checkedSub slicedEndDepth 1).bind fun slicedTailDepth =>
            (endpoint (startIndex = 0) segment.segmentBase segment.segmentTail
              slicedBaseDepth).bind fun newBase =>
              (if slicedTailDepth = slicedBaseDepth then .ok (newBase.1, noQueries)
                else endpoint (startIndex + amount = segment.segmentCount) segment.segmentTail
                  segment.segmentTail slicedTailDepth).bind fun newTail =>
                (if startIndex = 0 then .ok segment.segmentAnchor
                  else expectParent newBase.1).map fun newAnchor =>
                  (⟨newAnchor, newBase.1, newTail.1, amount⟩, addCost newBase.2 newTail.2)

/-- The values from a tail towards the bottom. -/
def valuesFromTail (node : Node α) : Nat → Except DequeError (List α)
  | 0 => .ok []
  | amount + 1 =>
      (expectValue node).bind fun value => (expectParent node).bind fun parent =>
        (valuesFromTail parent amount).map fun values => value :: values

def reverseOnto : List α → List α → List α
  | [], suffix => suffix
  | value :: values, suffix => reverseOnto values (value :: suffix)

def validateSegment (segment : Segment α) : Except DequeError (Except String Unit) :=
  let anchorDepth := nodeDepth segment.segmentAnchor
  let tailDepth := nodeDepth segment.segmentTail
  if segment.segmentCount = 0 then
    if anchorDepth = nodeDepth segment.segmentBase ∧ nodeDepth segment.segmentBase = tailDepth then
      .ok (.ok ())
    else .ok (.error "An empty interval does not have one shared endpoint.")
  else
    (checkedSub tailDepth anchorDepth).map fun span =>
      if span ≠ segment.segmentCount then
        .error "An interval count disagrees with its endpoint depths."
      else if nodeDepth segment.segmentBase ≠ anchorDepth + 1 ∨
          (nodeParent segment.segmentBase).map nodeDepth ≠ some anchorDepth then
        .error "The cached base is not the first node after the anchor."
      else if (ancestorAtDepth segment.segmentTail anchorDepth).map nodeDepth ≠
        some anchorDepth then
        .error "The interval anchor is not an ancestor of its tail."
      else if (ancestorAtDepth segment.segmentTail (anchorDepth + 1)).map nodeDepth ≠
          some (anchorDepth + 1) then
        .error "The cached base is not on the tail's ancestry path."
      else .ok ()

/-! ## Deques -/

def empty : BilateralAncestralDeque α := ⟨emptySegmentAt .bottom, emptySegmentAt .bottom, 0⟩

def addFirst (value : α) (deque : BilateralAncestralDeque α) :
    Except DequeError (BilateralAncestralDeque α) :=
  (checkedIncrement deque.dequeCount).map fun total =>
    ⟨addToTail deque.dequeLeft value, deque.dequeRight, total⟩

def addLast (value : α) (deque : BilateralAncestralDeque α) :
    Except DequeError (BilateralAncestralDeque α) :=
  (checkedIncrement deque.dequeCount).map fun total =>
    ⟨deque.dequeLeft, addToTail deque.dequeRight value, total⟩

def fromList (values : List α) : Except DequeError (BilateralAncestralDeque α) :=
  values.foldlM (fun deque value => addLast value deque) empty

def toList (deque : BilateralAncestralDeque α) : Except DequeError (List α) :=
  (valuesFromTail deque.dequeLeft.segmentTail deque.dequeLeft.segmentCount.toNat).bind
    fun leftValues =>
      (valuesFromTail deque.dequeRight.segmentTail deque.dequeRight.segmentCount.toNat).map
        fun rightValues => leftValues ++ reverseOnto rightValues []

def count (deque : BilateralAncestralDeque α) : Int := deque.dequeCount

def null (deque : BilateralAncestralDeque α) : Bool := deque.dequeCount == 0

def first (deque : BilateralAncestralDeque α) : Except DequeError (Option α) :=
  if deque.dequeCount = 0 then .ok none
  else if deque.dequeLeft.segmentCount ≠ 0 then (expectValue deque.dequeLeft.segmentTail).map some
  else (expectValue deque.dequeRight.segmentBase).map some

def last (deque : BilateralAncestralDeque α) : Except DequeError (Option α) :=
  if deque.dequeCount = 0 then .ok none
  else if deque.dequeRight.segmentCount ≠ 0 then (expectValue deque.dequeRight.segmentTail).map some
  else (expectValue deque.dequeLeft.segmentBase).map some

def cachedValue (node : Node α) : Except DequeError (Option (α × QueryCost)) :=
  (expectValue node).map fun value => some (value, noQueries)

def queriedValue (node : Node α) (depth : Int) : Except DequeError (Option (α × QueryCost)) :=
  (queryAncestor node depth).bind fun found =>
    (expectValue found.1).map fun value => some (value, found.2)

def indexCost (position : Int) (deque : BilateralAncestralDeque α) :
    Except DequeError (Option (α × QueryCost)) :=
  let leftSegment := deque.dequeLeft
  let rightSegment := deque.dequeRight
  let leftTotal := leftSegment.segmentCount
  let rightPosition := position - leftTotal
  if position < 0 ∨ position ≥ deque.dequeCount then .ok none
  else if position < leftTotal then
    if position = 0 then cachedValue leftSegment.segmentTail
    else if position = leftTotal - 1 then cachedValue leftSegment.segmentBase
    else
      (checkedSub (nodeDepth leftSegment.segmentTail) position).bind fun depth =>
        queriedValue leftSegment.segmentTail depth
  else if rightPosition = 0 then cachedValue rightSegment.segmentBase
  else if rightPosition = rightSegment.segmentCount - 1 then cachedValue rightSegment.segmentTail
  else
    (checkedAdd (nodeDepth rightSegment.segmentAnchor) rightPosition).bind fun before =>
      (checkedAdd before 1).bind fun depth => queriedValue rightSegment.segmentTail depth

def index (position : Int) (deque : BilateralAncestralDeque α) : Except DequeError (Option α) :=
  (indexCost position deque).map fun found => found.map Prod.fst

def removeFirstCost (deque : BilateralAncestralDeque α) :
    Except DequeError (Option (BilateralAncestralDeque α × QueryCost)) :=
  if deque.dequeCount = 0 then .ok none
  else if deque.dequeCount = 1 then .ok (some (empty, noQueries))
  else if deque.dequeLeft.segmentCount ≠ 0 then
    (removeTail deque.dequeLeft).map fun shortened =>
      some (⟨shortened, deque.dequeRight, deque.dequeCount - 1⟩, noQueries)
  else
    (removeBase deque.dequeRight).map fun shortened =>
      some (⟨deque.dequeLeft, shortened.1, deque.dequeCount - 1⟩, shortened.2)

def removeLastCost (deque : BilateralAncestralDeque α) :
    Except DequeError (Option (BilateralAncestralDeque α × QueryCost)) :=
  if deque.dequeCount = 0 then .ok none
  else if deque.dequeCount = 1 then .ok (some (empty, noQueries))
  else if deque.dequeRight.segmentCount ≠ 0 then
    (removeTail deque.dequeRight).map fun shortened =>
      some (⟨deque.dequeLeft, shortened, deque.dequeCount - 1⟩, noQueries)
  else
    (removeBase deque.dequeLeft).map fun shortened =>
      some (⟨shortened.1, deque.dequeRight, deque.dequeCount - 1⟩, shortened.2)

def sliceCost (position amount : Int) (deque : BilateralAncestralDeque α) :
    Except DequeError (Option (BilateralAncestralDeque α × QueryCost)) :=
  let total := deque.dequeCount
  let endPosition := position + amount
  let leftTotal := deque.dequeLeft.segmentCount
  let leftStart := min position leftTotal
  let leftStop := min endPosition leftTotal
  let rightStart := max 0 (position - leftTotal)
  let rightStop := max 0 (endPosition - leftTotal)
  if position < 0 ∨ amount < 0 then .ok none
  else if position > total then .ok none
  else if amount > total - position then .ok none
  else if position = 0 ∧ amount = total then .ok (some (deque, noQueries))
  else if amount = 0 then .ok (some (empty, noQueries))
  else
    (sliceLeft deque.dequeLeft leftStart (leftStop - leftStart)).bind fun slicedLeft =>
      (sliceRight deque.dequeRight rightStart (rightStop - rightStart)).map fun slicedRight =>
        some (⟨slicedLeft.1, slicedRight.1, amount⟩, addCost slicedLeft.2 slicedRight.2)

def takeCost (amount : Int) (deque : BilateralAncestralDeque α) :
    Except DequeError (Option (BilateralAncestralDeque α × QueryCost)) :=
  if amount < 0 ∨ amount > deque.dequeCount then .ok none
  else if amount = deque.dequeCount then .ok (some (deque, noQueries))
  else sliceCost 0 amount deque

def dropCost (amount : Int) (deque : BilateralAncestralDeque α) :
    Except DequeError (Option (BilateralAncestralDeque α × QueryCost)) :=
  if amount < 0 ∨ amount > deque.dequeCount then .ok none
  else if amount = 0 then .ok (some (deque, noQueries))
  else sliceCost amount (deque.dequeCount - amount) deque

def splitAtCost (position : Int) (deque : BilateralAncestralDeque α) :
    Except DequeError
      (Option ((BilateralAncestralDeque α × BilateralAncestralDeque α) × QueryCost)) :=
  if position < 0 ∨ position > deque.dequeCount then .ok none
  else
    (takeCost position deque).bind fun taken => (dropCost position deque).bind fun dropped =>
      match taken, dropped with
      | some (before, beforeCost), some (after, afterCost) =>
          .ok (some ((before, after), addCost beforeCost afterCost))
      | _, _ => .error .splitBoundary

def reverse (deque : BilateralAncestralDeque α) : BilateralAncestralDeque α :=
  if deque.dequeCount ≤ 1 then deque
  else ⟨deque.dequeRight, deque.dequeLeft, deque.dequeCount⟩

def clear (deque : BilateralAncestralDeque α) : BilateralAncestralDeque α :=
  if deque.dequeCount = 0 then deque else empty

/-- The operation without its cost. -/
def uncosted {β : Type} (result : Except DequeError (Option (β × QueryCost))) :
    Except DequeError (Option β) :=
  result.map fun found => found.map Prod.fst

def removeFirst (deque : BilateralAncestralDeque α) :
    Except DequeError (Option (BilateralAncestralDeque α)) := uncosted (removeFirstCost deque)

def removeLast (deque : BilateralAncestralDeque α) :
    Except DequeError (Option (BilateralAncestralDeque α)) := uncosted (removeLastCost deque)

def take (amount : Int) (deque : BilateralAncestralDeque α) :
    Except DequeError (Option (BilateralAncestralDeque α)) := uncosted (takeCost amount deque)

def drop (amount : Int) (deque : BilateralAncestralDeque α) :
    Except DequeError (Option (BilateralAncestralDeque α)) := uncosted (dropCost amount deque)

def slice (position amount : Int) (deque : BilateralAncestralDeque α) :
    Except DequeError (Option (BilateralAncestralDeque α)) :=
  uncosted (sliceCost position amount deque)

def splitAt (position : Int) (deque : BilateralAncestralDeque α) :
    Except DequeError (Option (BilateralAncestralDeque α × BilateralAncestralDeque α)) :=
  uncosted (splitAtCost position deque)

def validateStructure (deque : BilateralAncestralDeque α) :
    Except DequeError (Except String BilateralStatistics) :=
  let leftTotal := deque.dequeLeft.segmentCount
  let rightTotal := deque.dequeRight.segmentCount
  if leftTotal < 0 ∨ rightTotal < 0 then .ok (.error "An interval count is negative.")
  else if leftTotal > maxBound - rightTotal then
    .ok (.error "The interval counts overflow the visible count.")
  else if deque.dequeCount ≠ leftTotal + rightTotal then
    .ok (.error "The total count disagrees with the interval counts.")
  else
    (validateSegment deque.dequeLeft).bind fun leftValid =>
      (validateSegment deque.dequeRight).map fun rightValid =>
        leftValid.bind fun _ => rightValid.map fun _ => ⟨deque.dequeCount, leftTotal, rightTotal⟩

end BilateralAncestralDeque

end Durable7.FingerTree
