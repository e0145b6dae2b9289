import Durable7.FingerTree.RangeUpdateSequence.Shape
import Durable7.Foundation.Branching

/-!
# Range-update sequences

A sequence over one algebra.  Positions are `Int`, as the caller gives them, and a result
is `none` where the source gives `Nothing`.
-/

namespace Durable7.FingerTree

open Foundation
open RangeUpdateSequence (Node RangeError)

variable {element measureValue tag : Type}

structure RangeUpdateSequence (algebra : RangeUpdateAlgebra element measureValue tag) where
  root : Node element measureValue tag

structure RangeUpdateSequence.ValidationStatistics where
  validationCount : Nat
  validationHeight : Nat
  validationNodeCount : Nat
  validationPendingTagCount : Nat
  deriving DecidableEq

namespace RangeUpdateSequence

variable (algebra : RangeUpdateAlgebra element measureValue tag)

def checkedLength (values : List element) : Except RangeError Nat :=
  if values.length > RrbVector.maxBound then .error .lengthOverflow else .ok values.length

def buildBalanced (lengthValue : Nat) (values : List element) :
    Except RangeError (Node element measureValue tag × List element) :=
  if lengthValue = 0 then .ok (.nothing, values)
  else do
    let leftLength := lengthValue / 2
    let rightLength := lengthValue - leftLength - 1
    let (left, afterLeft) ← buildBalanced leftLength values
    match afterLeft with
    | [] => .error .truncatedBuild
    | value :: afterValue => do
        let (right, remainder) ← buildBalanced rightLength afterValue
        let root ← makeNode algebra value left right
        .ok (root, remainder)
  termination_by lengthValue
  decreasing_by all_goals omega

def emptyWith : RangeUpdateSequence algebra := ⟨.nothing⟩

def singletonWith (value : element) : Except RangeError (RangeUpdateSequence algebra) := do
  let root ← makeNode algebra value .nothing .nothing
  .ok ⟨root⟩

def fromListWith (values : List element) : Except RangeError (RangeUpdateSequence algebra) := do
  let lengthValue ← checkedLength values
  let (root, remainder) ← buildBalanced algebra lengthValue values
  match remainder with
  | [] => .ok ⟨root⟩
  | _ :: _ => .error .buildRemainder

variable {algebra}

def toList (sequence : RangeUpdateSequence algebra) : List element :=
  enumerate algebra sequence.root none []

def count (sequence : RangeUpdateSequence algebra) : Nat := countOf sequence.root

def null (sequence : RangeUpdateSequence algebra) : Bool :=
  match sequence.root with
  | .nothing => true
  | .node _ _ _ _ _ _ _ => false

def measure (sequence : RangeUpdateSequence algebra) : measureValue :=
  match sequence.root with
  | .nothing => algebra.algebraEmptyMeasure
  | .node _ _ _ _ _ measure _ => measure

def index (position : Int) (sequence : RangeUpdateSequence algebra) :
    Except RangeError (Option element) :=
  if position < 0 ∨ position ≥ count sequence then .ok none
  else some <$> getElement algebra sequence.root position.toNat none

def validRange (position amount : Int) (lengthValue : Nat) : Bool :=
  position ≥ 0 && amount ≥ 0 && position ≤ lengthValue && amount ≤ lengthValue - position

def measureRange (position amount : Int) (sequence : RangeUpdateSequence algebra) :
    Except RangeError (Option measureValue) :=
  if !validRange position amount (count sequence) then .ok none
  else if amount = 0 then .ok (some algebra.algebraEmptyMeasure)
  else if amount = count sequence then
    match sequence.root with
    | .nothing => .error .missingNode
    | .node _ _ _ _ _ measure _ => .ok (some measure)
  else some <$> measureRangeCore algebra sequence.root position.toNat amount.toNat none

/-! ## Edits -/

def insertAt (position : Int) (value : element) (sequence : RangeUpdateSequence algebra) :
    Except RangeError (Option (RangeUpdateSequence algebra)) :=
  if position < 0 ∨ position > count sequence then .ok none
  else do
    let _ ← checkedAdd (count sequence) 1
    let root ← insertCore algebra sequence.root position.toNat value
    .ok (some ⟨root⟩)

def cons (value : element) (sequence : RangeUpdateSequence algebra) :
    Except RangeError (RangeUpdateSequence algebra) := do
  match ← insertAt 0 value sequence with
  | some result => .ok result
  | none => .error .consBoundary

def snoc (sequence : RangeUpdateSequence algebra) (value : element) :
    Except RangeError (RangeUpdateSequence algebra) := do
  match ← insertAt (count sequence) value sequence with
  | some result => .ok result
  | none => .error .snocBoundary

def setAt (position : Int) (value : element) (sequence : RangeUpdateSequence algebra) :
    Except RangeError (Option (RangeUpdateSequence algebra)) :=
  if position < 0 ∨ position ≥ count sequence then .ok none
  else do
    let root ← setCore algebra sequence.root position.toNat value
    .ok (some ⟨root⟩)

def deleteAt (position : Int) (sequence : RangeUpdateSequence algebra) :
    Except RangeError (Option (RangeUpdateSequence algebra)) :=
  if position < 0 ∨ position ≥ count sequence then .ok none
  else do
    let root ← deleteCore algebra sequence.root position.toNat
    .ok (some ⟨root⟩)

def append (left right : RangeUpdateSequence algebra) :
    Except RangeError (RangeUpdateSequence algebra) := do
  let _ ← checkedAdd (count left) (count right)
  match left.root, right.root with
  | .nothing, _ => .ok right
  | _, .nothing => .ok left
  | leftNode, rightNode => do
      let (pivot, remainder) ← extractMinimum algebra rightNode
      let root ← join algebra leftNode pivot remainder
      .ok ⟨root⟩

def splitAt (position : Int) (sequence : RangeUpdateSequence algebra) :
    Except RangeError (Option (RangeUpdateSequence algebra × RangeUpdateSequence algebra)) :=
  if position < 0 ∨ position > count sequence then .ok none
  else if position = 0 then .ok (some (emptyWith algebra, sequence))
  else if position = count sequence then .ok (some (sequence, emptyWith algebra))
  else do
    let (left, right) ← splitCore algebra sequence.root position.toNat
    .ok (some (⟨left⟩, ⟨right⟩))

def slice (position amount : Int) (sequence : RangeUpdateSequence algebra) :
    Except RangeError (Option (RangeUpdateSequence algebra)) :=
  if !validRange position amount (count sequence) then .ok none
  else if amount = 0 then .ok (some (emptyWith algebra))
  else if amount = count sequence then .ok (some sequence)
  else do
    let (_, tailRoot) ← splitCore algebra sequence.root position.toNat
    let (middle, _) ← splitCore algebra tailRoot amount.toNat
    .ok (some ⟨middle⟩)

/-- `applySubtree` at a node that has to be there. -/
def applyRoot (update : tag) (root : Node element measureValue tag) :
    Except RangeError (Node element measureValue tag) :=
  match root with
  | .nothing => .error .missingNode
  | .node _ _ _ _ _ _ _ => .ok (applySubtree algebra update root)

def applyRange (position amount : Int) (update : tag) (sequence : RangeUpdateSequence algebra) :
    Except RangeError (Option (RangeUpdateSequence algebra)) :=
  if !validRange position amount (count sequence) then .ok none
  else if amount = 0 then .ok (some sequence)
  else if algebra.algebraIsIdentity update then .ok (some sequence)
  else if amount = count sequence then do
    let root ← @applyRoot _ _ _ algebra update sequence.root
    .ok (some ⟨root⟩)
  else do
    let (left, tailRoot) ← splitCore algebra sequence.root position.toNat
    let (middle, right) ← splitCore algebra tailRoot amount.toNat
    let changed ← @applyRoot _ _ _ algebra update middle
    let front ← joinConcatenated algebra left changed
    let rebuilt ← joinConcatenated algebra front right
    .ok (some ⟨rebuilt⟩)

section Validation

variable [BEq measureValue]

variable (algebra) in
def validateNode : Node element measureValue tag → Option (measureValue × ValidationStatistics)
  | .nothing => some (algebra.algebraEmptyMeasure, ⟨0, 0, 0, 0⟩)
  | .node value left right height count measure pending => do
      let (leftMeasure, leftStats) ← validateNode left
      let (rightMeasure, rightStats) ← validateNode right
      let leftCount := leftStats.validationCount
      let rightCount := rightStats.validationCount
      let expectedCount := leftCount + 1 + rightCount
      let expectedHeight := 1 + max leftStats.validationHeight rightStats.validationHeight
      let balanced := leftStats.validationHeight ≤ rightStats.validationHeight + 1 ∧
        rightStats.validationHeight ≤ leftStats.validationHeight + 1
      if expectedCount > RrbVector.maxBound ∨ count ≠ expectedCount ∨ height ≠ expectedHeight ∨
          ¬ balanced then
        none
      else
        let pendingIsCanonical := pending.all fun update => !algebra.algebraIsIdentity update
        let ownMeasure := algebra.algebraMeasureElement value
        let withLeft :=
          if leftCount = 0 then ownMeasure
          else algebra.algebraCombine
            (applyInheritedToMeasure algebra pending leftMeasure leftCount)
            ownMeasure
        let expectedMeasure :=
          if rightCount = 0 then withLeft
          else algebra.algebraCombine withLeft
            (applyInheritedToMeasure algebra pending rightMeasure rightCount)
        let statistics : ValidationStatistics := {
          validationCount := count
          validationHeight := height
          validationNodeCount := 1 + leftStats.validationNodeCount + rightStats.validationNodeCount
          validationPendingTagCount :=
            (if pending.isSome then 1 else 0) + leftStats.validationPendingTagCount +
              rightStats.validationPendingTagCount }
        if pendingIsCanonical && expectedMeasure == measure then some (measure, statistics)
        else none

def validateStructure (sequence : RangeUpdateSequence algebra) : Option ValidationStatistics :=
  (validateNode algebra sequence.root).map Prod.snd

end Validation

end RangeUpdateSequence

end Durable7.FingerTree

/-!
## The list model of range-update sequences

A version is a list.  A length over the source's `Int` is the only failure.
-/

namespace Durable7.FingerTree.RangeUpdateSequence

open Foundation
open RrbVector (maxBound)

variable {element measureValue tag : Type}

/-- The part of a list from a position on. -/
def listSlice (position amount : Nat) (values : List element) : List element :=
  (values.drop position).take amount

namespace ListModel

/-- A list, as long as its length is a number of the source's `Int`. -/
def bounded (values : List element) : Except RangeError (List element) :=
  if values.length > maxBound then .error .lengthOverflow else .ok values

def fromList (values : List element) : Except RangeError (List element) := bounded values

def cons (value : element) (values : List element) : Except RangeError (List element) :=
  bounded (value :: values)

def snoc (values : List element) (value : element) : Except RangeError (List element) :=
  bounded (values ++ [value])

def insertAt (position : Int) (value : element) (values : List element) :
    Except RangeError (Option (List element)) :=
  if position < 0 ∨ position > values.length then .ok none
  else some <$> bounded (values.take position.toNat ++ value :: values.drop position.toNat)

def append (left right : List element) : Except RangeError (List element) := bounded (left ++ right)

def slice (position amount : Int) (values : List element) : Option (List element) :=
  if validRange position amount values.length then
    some (listSlice position.toNat amount.toNat values)
  else none

/-- The update reaches the elements of the slice and no others. -/
def applyRange (algebra : RangeUpdateAlgebra element measureValue tag) (position amount : Int)
    (update : tag) (values : List element) : Option (List element) :=
  if validRange position amount values.length then
    some (values.take position.toNat ++
      ((listSlice position.toNat amount.toNat values).map (algebra.algebraApplyElement update) ++
        values.drop (position.toNat + amount.toNat)))
  else none

def measureRange (algebra : RangeUpdateAlgebra element measureValue tag) (position amount : Int)
    (values : List element) : Option measureValue :=
  (slice position amount values).map (foldMeasure algebra)

end ListModel

/-- One edit.  Versions are numbered in the order they were made. -/
inductive Edit (element tag : Type) where
  | emptyWith
  | singletonWith (value : element)
  | fromListWith (values : List element)
  | cons (value : element) (version : Nat)
  | snoc (version : Nat) (value : element)
  | insertAt (position : Int) (value : element) (version : Nat)
  | setAt (position : Int) (value : element) (version : Nat)
  | deleteAt (position : Int) (version : Nat)
  | append (left right : Nat)
  | splitAt (position : Int) (version : Nat)
  | slice (position amount : Int) (version : Nat)
  | applyRange (position amount : Int) (update : tag) (version : Nat)

variable (algebra : RangeUpdateAlgebra element measureValue tag)

def produce (versions : List (RangeUpdateSequence algebra)) :
    Edit element tag → Except RangeError (List (RangeUpdateSequence algebra))
  | .emptyWith => .ok [emptyWith algebra]
  | .singletonWith value => (singletonWith algebra value).map fun made => [made]
  | .fromListWith values => (fromListWith algebra values).map fun made => [made]
  | .cons value version => onVersion versions version fun sequence =>
      (cons value sequence).map fun made => [made]
  | .snoc version value => onVersion versions version fun sequence =>
      (snoc sequence value).map fun made => [made]
  | .insertAt position value version => onVersion versions version fun sequence =>
      (insertAt position value sequence).map Option.toList
  | .setAt position value version => onVersion versions version fun sequence =>
      (setAt position value sequence).map Option.toList
  | .deleteAt position version => onVersion versions version fun sequence =>
      (deleteAt position sequence).map Option.toList
  | .append left right => onVersion versions left fun leftSequence =>
      onVersion versions right fun rightSequence =>
        (append leftSequence rightSequence).map fun made => [made]
  | .splitAt position version => onVersion versions version fun sequence =>
      (splitAt position sequence).map partsList
  | .slice position amount version => onVersion versions version fun sequence =>
      (slice position amount sequence).map Option.toList
  | .applyRange position amount update version => onVersion versions version fun sequence =>
      (applyRange position amount update sequence).map Option.toList

def ListModel.produce (versions : List (List element)) :
    Edit element tag → Except RangeError (List (List element))
  | .emptyWith => .ok [[]]
  | .singletonWith value => .ok [[value]]
  | .fromListWith values => (ListModel.fromList values).map fun made => [made]
  | .cons value version => onVersion versions version fun values =>
      (ListModel.cons value values).map fun made => [made]
  | .snoc version value => onVersion versions version fun values =>
      (ListModel.snoc values value).map fun made => [made]
  | .insertAt position value version => onVersion versions version fun values =>
      (ListModel.insertAt position value values).map Option.toList
  | .setAt position value version => onVersion versions version fun values =>
      .ok (ListModel.setAt position value values).toList
  | .deleteAt position version => onVersion versions version fun values =>
      .ok (ListModel.deleteAt position values).toList
  | .append left right => onVersion versions left fun leftValues =>
      onVersion versions right fun rightValues =>
        (ListModel.append leftValues rightValues).map fun made => [made]
  | .splitAt position version => onVersion versions version fun values =>
      .ok (partsList (ListModel.splitAt position values))
  | .slice position amount version => onVersion versions version fun values =>
      .ok (ListModel.slice position amount values).toList
  | .applyRange position amount update version => onVersion versions version fun values =>
      .ok (ListModel.applyRange algebra position amount update values).toList

end Durable7.FingerTree.RangeUpdateSequence
