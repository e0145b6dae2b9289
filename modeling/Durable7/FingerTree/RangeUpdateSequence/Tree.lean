import Durable7.FingerTree.RrbVector.Node

/-!
# Range-update trees

An AVL tree by position.  A pending tag has already been applied to the value and the
measure of its node, and is still owed to the children.  `nothing` is the source's
`Nothing` in the place of a node.
-/

namespace Durable7.FingerTree

open Foundation

structure RangeUpdateAlgebra (element measureValue tag : Type) where
  algebraEmptyMeasure : measureValue
  algebraCombine : measureValue → measureValue → measureValue
  algebraMeasureElement : element → measureValue
  algebraIdentityTag : tag
  algebraIsIdentity : tag → Bool
  algebraCompose : tag → tag → tag
  algebraApplyElement : tag → element → element
  algebraApplyMeasure : tag → measureValue → Nat → measureValue

namespace RangeUpdateSequence

inductive Node (element measureValue tag : Type) where
  | nothing
  | node (value : element) (left right : Node element measureValue tag) (height count : Nat)
      (measure : measureValue) (pending : Option tag)

inductive RangeError where
  | missingNode
  | lengthOverflow
  | emptyQuery
  | truncatedBuild
  | buildRemainder
  | consBoundary
  | snocBoundary
  deriving DecidableEq

def RangeError.message : RangeError → String
  | .missingNode => "Durable7.FingerTree.RangeUpdateSequence: internal missing node"
  | .lengthOverflow => "Durable7.FingerTree.RangeUpdateSequence: length overflow"
  | .emptyQuery => "Durable7.FingerTree.RangeUpdateSequence: internal empty measure query"
  | .truncatedBuild => "Durable7.FingerTree.RangeUpdateSequence: truncated build input"
  | .buildRemainder => "Durable7.FingerTree.RangeUpdateSequence: internal build remainder"
  | .consBoundary => "Durable7.FingerTree.RangeUpdateSequence: internal cons boundary"
  | .snocBoundary => "Durable7.FingerTree.RangeUpdateSequence: internal snoc boundary"

variable {element measureValue tag : Type}

def heightOf : Node element measureValue tag → Nat
  | .nothing => 0
  | .node _ _ _ height _ _ _ => height

def countOf : Node element measureValue tag → Nat
  | .nothing => 0
  | .node _ _ _ _ count _ _ => count

/-- The number of nodes, for the termination of the descents below. -/
def size : Node element measureValue tag → Nat
  | .nothing => 0
  | .node _ left right _ _ _ _ => size left + 1 + size right

def checkedAdd (left right : Nat) : Except RangeError Nat :=
  if right > RrbVector.maxBound - left then .error .lengthOverflow else .ok (left + right)

variable (algebra : RangeUpdateAlgebra element measureValue tag)

/-- The ordered measure of a value between two children. -/
def combinedMeasure (value : element) (left right : Node element measureValue tag) : measureValue :=
  let ownMeasure := algebra.algebraMeasureElement value
  let leftCombined :=
    match left with
    | .nothing => ownMeasure
    | .node _ _ _ _ _ leftMeasure _ => algebra.algebraCombine leftMeasure ownMeasure
  match right with
  | .nothing => leftCombined
  | .node _ _ _ _ _ rightMeasure _ => algebra.algebraCombine leftCombined rightMeasure

def makeNode (value : element) (left right : Node element measureValue tag) :
    Except RangeError (Node element measureValue tag) := do
  let countValue ← checkedAdd (countOf left) 1
  let countValue ← checkedAdd countValue (countOf right)
  .ok (.node value left right (1 + max (heightOf left) (heightOf right)) countValue
    (combinedMeasure algebra value left right) none)

/-! ## Pending tags -/

/-- The tag that is left when a newer one is applied over an older one. -/
def composeTags : Option tag → Option tag → Option tag
  | none, older => older
  | some newer, none => some newer
  | some newer, some older =>
      let composed := algebra.algebraCompose newer older
      if algebra.algebraIsIdentity composed then none else some composed

def applySubtree (newerTag : tag) : Node element measureValue tag → Node element measureValue tag
  | .nothing => .nothing
  | .node value left right height count measure pending =>
      .node (algebra.algebraApplyElement newerTag value) left right height count
        (algebra.algebraApplyMeasure newerTag measure count)
        (composeTags algebra (some newerTag) pending)

def push : Node element measureValue tag → Node element measureValue tag
  | .node value left right height count measure (some tag) =>
      .node value (applySubtree algebra tag left) (applySubtree algebra tag right) height count
        measure none
  | original => original

def childInheritance (inherited pending : Option tag) : Option tag :=
  composeTags algebra inherited pending

def applyInheritedToElement (inherited : Option tag) (value : element) : element :=
  inherited.elim value fun tag => algebra.algebraApplyElement tag value

def applyInheritedToMeasure (inherited : Option tag) (value : measureValue) (amount : Nat) :
    measureValue :=
  inherited.elim value fun tag => algebra.algebraApplyMeasure tag value amount

theorem size_applySubtree (newerTag : tag) (root : Node element measureValue tag) :
    size (applySubtree algebra newerTag root) = size root := by
  cases root <;> rfl

theorem size_push (root : Node element measureValue tag) :
    size (push algebra root) = size root := by
  cases root with
  | nothing => rfl
  | node value left right height count measure pending =>
      cases pending with
      | none => rfl
      | some tag => simp only [push, size, size_applySubtree]

theorem size_of_push {root left right : Node element measureValue tag} {value : element}
    {height count : Nat} {measure : measureValue} {pending : Option tag}
    (h : push algebra root = .node value left right height count measure pending) :
    size root = size left + 1 + size right := by
  rw [← size_push algebra, h]
  rfl

def rotateLeft (original : Node element measureValue tag) :
    Except RangeError (Node element measureValue tag) :=
  match push algebra original with
  | .nothing => .error .missingNode
  | .node value left right _ _ _ _ =>
      match push algebra right with
      | .nothing => .error .missingNode
      | .node pivotValue pivotLeft pivotRight _ _ _ _ => do
          let lower ← makeNode algebra value left pivotLeft
          makeNode algebra pivotValue lower pivotRight

def rotateRight (original : Node element measureValue tag) :
    Except RangeError (Node element measureValue tag) :=
  match push algebra original with
  | .nothing => .error .missingNode
  | .node value left right _ _ _ _ =>
      match push algebra left with
      | .nothing => .error .missingNode
      | .node pivotValue pivotLeft pivotRight _ _ _ _ => do
          let lower ← makeNode algebra value pivotRight right
          makeNode algebra pivotValue pivotLeft lower

/-- The heights of the two children of a node. -/
def childHeights : Node element measureValue tag → Except RangeError (Nat × Nat)
  | .nothing => .error .missingNode
  | .node _ left right _ _ _ _ => .ok (heightOf left, heightOf right)

def balance (original : Node element measureValue tag) :
    Except RangeError (Node element measureValue tag) :=
  match original with
  | .nothing => .error .missingNode
  | .node _ left right _ _ _ _ =>
      if heightOf left > heightOf right + 1 then do
        let (outer, inner) ← childHeights left
        if outer < inner then
          match push algebra original with
          | .nothing => .error .missingNode
          | .node value left right _ _ _ _ => do
              let rotated ← rotateLeft algebra left
              let prepared ← makeNode algebra value rotated right
              rotateRight algebra prepared
        else rotateRight algebra original
      else if heightOf right > heightOf left + 1 then do
        let (inner, outer) ← childHeights right
        if outer < inner then
          match push algebra original with
          | .nothing => .error .missingNode
          | .node value left right _ _ _ _ => do
              let rotated ← rotateRight algebra right
              let prepared ← makeNode algebra value left rotated
              rotateLeft algebra prepared
        else rotateLeft algebra original
      else .ok original

/-! ## Descents -/

def insertCore (root : Node element measureValue tag) (position : Nat) (value : element) :
    Except RangeError (Node element measureValue tag) :=
  match _h : push algebra root with
  | .nothing => makeNode algebra value .nothing .nothing
  | .node stored left right _ _ _ _ =>
      if position ≤ countOf left then do
        let inserted ← insertCore left position value
        let rebuilt ← makeNode algebra stored inserted right
        balance algebra rebuilt
      else do
        let inserted ← insertCore right (position - countOf left - 1) value
        let rebuilt ← makeNode algebra stored left inserted
        balance algebra rebuilt
  termination_by size root
  decreasing_by all_goals (rw [size_of_push algebra _h]; omega)

def setCore (root : Node element measureValue tag) (position : Nat) (value : element) :
    Except RangeError (Node element measureValue tag) :=
  match _h : push algebra root with
  | .nothing => .error .missingNode
  | .node stored left right _ _ _ _ =>
      if position < countOf left then do
        let updated ← setCore left position value
        makeNode algebra stored updated right
      else if position > countOf left then do
        let updated ← setCore right (position - countOf left - 1) value
        makeNode algebra stored left updated
      else makeNode algebra value left right
  termination_by size root
  decreasing_by all_goals (rw [size_of_push algebra _h]; omega)

def extractMinimum (root : Node element measureValue tag) :
    Except RangeError (element × Node element measureValue tag) :=
  match _h : push algebra root with
  | .nothing => .error .missingNode
  | .node value .nothing right _ _ _ _ => .ok (value, right)
  | .node value
      (.node leftValue leftLeft leftRight height count measure pending) right _ _ _ _ => do
      let (minimumValue, remainder) ←
        extractMinimum (.node leftValue leftLeft leftRight height count measure pending)
      let rebuilt ← makeNode algebra value remainder right
      let balanced ← balance algebra rebuilt
      .ok (minimumValue, balanced)
  termination_by size root
  decreasing_by all_goals (rw [size_of_push algebra _h]; omega)

def deleteCore (root : Node element measureValue tag) (position : Nat) :
    Except RangeError (Node element measureValue tag) :=
  match _h : push algebra root with
  | .nothing => .error .missingNode
  | .node stored left right _ _ _ _ =>
      if position < countOf left then do
        let remaining ← deleteCore left position
        let rebuilt ← makeNode algebra stored remaining right
        balance algebra rebuilt
      else if position > countOf left then do
        let remaining ← deleteCore right (position - countOf left - 1)
        let rebuilt ← makeNode algebra stored left remaining
        balance algebra rebuilt
      else
        match left, right with
        | .nothing, right => .ok right
        | left, .nothing => .ok left
        | left, right => do
            let (successor, remainder) ← extractMinimum algebra right
            let rebuilt ← makeNode algebra successor left remainder
            balance algebra rebuilt
  termination_by size root
  decreasing_by all_goals (rw [size_of_push algebra _h]; omega)

def join (left : Node element measureValue tag) (pivot : element)
    (right : Node element measureValue tag) : Except RangeError (Node element measureValue tag) :=
  if heightOf left ≤ heightOf right + 1 ∧ heightOf right ≤ heightOf left + 1 then
    makeNode algebra pivot left right
  else if heightOf left > heightOf right then
    match _h : push algebra left with
    | .nothing => .error .missingNode
    | .node value outer inner _ _ _ _ => do
        let boundary ← join inner pivot right
        let rebuilt ← makeNode algebra value outer boundary
        balance algebra rebuilt
  else
    match _h : push algebra right with
    | .nothing => .error .missingNode
    | .node value inner outer _ _ _ _ => do
        let leading ← join left pivot inner
        let rebuilt ← makeNode algebra value leading outer
        balance algebra rebuilt
  termination_by size left + size right
  decreasing_by all_goals (rw [size_of_push algebra _h]; omega)

def joinConcatenated (left right : Node element measureValue tag) :
    Except RangeError (Node element measureValue tag) :=
  match left, right with
  | .nothing, right => .ok right
  | left, .nothing => .ok left
  | left, right => do
      let (pivot, remainder) ← extractMinimum algebra right
      join algebra left pivot remainder

def splitCore (root : Node element measureValue tag) (position : Nat) :
    Except RangeError (Node element measureValue tag × Node element measureValue tag) :=
  match root with
  | .nothing => .ok (.nothing, .nothing)
  | root =>
      if position = 0 then .ok (.nothing, root)
      else if position = countOf root then .ok (root, .nothing)
      else
        match _h : push algebra root with
        | .nothing => .error .missingNode
        | .node value left right _ _ _ _ =>
            if position ≤ countOf left then do
              let (front, middle) ← splitCore left position
              let back ← join algebra middle value right
              .ok (front, back)
            else do
              let (middle, back) ← splitCore right (position - countOf left - 1)
              let front ← join algebra left value middle
              .ok (front, back)
  termination_by size root
  decreasing_by all_goals (rw [size_of_push algebra _h]; omega)

def enumerate (root : Node element measureValue tag) (inherited : Option tag)
    (suffix : List element) : List element :=
  match root with
  | .nothing => suffix
  | .node value left right _ _ _ pending =>
      let childTag := childInheritance algebra inherited pending
      let rightValues := enumerate right childTag suffix
      enumerate left childTag (applyInheritedToElement algebra inherited value :: rightValues)

def getElement (root : Node element measureValue tag) (position : Nat) (inherited : Option tag) :
    Except RangeError element :=
  match root with
  | .nothing => .error .missingNode
  | .node value left right _ _ _ pending =>
      let leftCount := countOf left
      if position = leftCount then .ok (applyInheritedToElement algebra inherited value)
      else
        let childTag := childInheritance algebra inherited pending
        if position < leftCount then getElement left position childTag
        else getElement right (position - leftCount - 1) childTag

def combineNonEmpty : List measureValue → Except RangeError measureValue
  | [] => .error .emptyQuery
  | value :: values => .ok (values.foldl algebra.algebraCombine value)

def measureRangeCore (root : Node element measureValue tag) (position amount : Nat)
    (inherited : Option tag) : Except RangeError measureValue :=
  match root with
  | .nothing => .error .missingNode
  | .node value left right _ count measure pending =>
      if position = 0 ∧ amount = count then
        .ok (applyInheritedToMeasure algebra inherited measure count)
      else
        let finish := position + amount
        let leftCount := countOf left
        let childTag := childInheritance algebra inherited pending
        let leftPart :=
          if position < leftCount then
            List.singleton <$>
              measureRangeCore left position (min amount (leftCount - position)) childTag
          else .ok []
        let valuePart :=
          if position ≤ leftCount ∧ finish > leftCount then
            [applyInheritedToMeasure algebra inherited (algebra.algebraMeasureElement value) 1]
          else []
        let rightStart := leftCount + 1
        let rightPart :=
          if finish > rightStart then
            let localStart := position - rightStart
            let localEnd := finish - rightStart
            List.singleton <$> measureRangeCore right localStart (localEnd - localStart) childTag
          else .ok []
        leftPart.bind fun leftMeasures =>
          rightPart.bind fun rightMeasures =>
            combineNonEmpty algebra (leftMeasures ++ valuePart ++ rightMeasures)

end RangeUpdateSequence

end Durable7.FingerTree
