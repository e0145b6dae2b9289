import Durable7.FingerTree.PersistentMonotoneActionHeap.Clamps
import Durable7.FingerTree.RrbVector.Node
import Durable7.Foundation.BoundedQueues

/-!
# Action-tagged heaps

A tree tag is owed to the tree and everything below it, a forest tag to every tree of that
suffix of the spine.  Ranks are built from zero by adding one, so they are `Nat`.
-/

namespace Durable7.FingerTree

open Foundation Foundation.BoundedQueues

namespace PersistentMonotoneActionHeap

mutual

inductive Tree (element priority action : Type) where
  | tree (treeRank : Nat) (treeElement : element) (treePriority : priority)
      (treeChildren : Forest element priority action) (treeAction : action)

inductive Forest (element priority action : Type) where
  | nil
  | cons (forestAction : action) (rawHead : Tree element priority action)
      (rawTail : Forest element priority action)

end

structure MonotoneHeapEntry (element priority : Type) where
  entryElement : element
  entryPriority : priority
  deriving DecidableEq

end PersistentMonotoneActionHeap

open PersistentMonotoneActionHeap in
structure PersistentMonotoneActionHeap (element : Type) {priority action : Type}
    (policy : MonotoneActionPolicy priority action) where
  total : Nat
  root : Option (Tree element priority action)

namespace PersistentMonotoneActionHeap

structure Statistics where
  monotoneStatisticsCount : Nat
  monotoneStatisticsRootForestLength : Nat
  monotoneStatisticsMaximumRank : Nat
  monotoneStatisticsMaximumDepth : Nat
  monotoneStatisticsTaggedComponentCount : Nat
  deriving DecidableEq

inductive HeapError where
  | invalidSingletonCount
  | headOfEmptyForest
  | invalidSkewLinkRanks
  | invalidBinomialLinkRanks
  | minimumOfEmptyForest
  | invalidSkewForest
  | countOverflow
  | countUnderflow
  deriving DecidableEq

def HeapError.message : HeapError → String
  | .invalidSingletonCount =>
      "Durable7.FingerTree.PersistentMonotoneActionHeap: invalid singleton count"
  | .headOfEmptyForest =>
      "Durable7.FingerTree.PersistentMonotoneActionHeap: head of an empty forest"
  | .invalidSkewLinkRanks =>
      "Durable7.FingerTree.PersistentMonotoneActionHeap: invalid skew-link ranks"
  | .invalidBinomialLinkRanks =>
      "Durable7.FingerTree.PersistentMonotoneActionHeap: invalid binomial-link ranks"
  | .minimumOfEmptyForest =>
      "Durable7.FingerTree.PersistentMonotoneActionHeap: minimum of an empty forest"
  | .invalidSkewForest =>
      "Durable7.FingerTree.PersistentMonotoneActionHeap: invalid skew-binomial forest"
  | .countOverflow => "Durable7.FingerTree.PersistentMonotoneActionHeap: count overflow"
  | .countUnderflow => "Durable7.FingerTree.PersistentMonotoneActionHeap: count underflow"

variable {element priority action : Type}

namespace Tree

def treeRank : Tree element priority action → Nat
  | .tree treeRank _ _ _ _ => treeRank

def treeElement : Tree element priority action → element
  | .tree _ treeElement _ _ _ => treeElement

def treePriority : Tree element priority action → priority
  | .tree _ _ treePriority _ _ => treePriority

def treeChildren : Tree element priority action → Forest element priority action
  | .tree _ _ _ treeChildren _ => treeChildren

def treeAction : Tree element priority action → action
  | .tree _ _ _ _ treeAction => treeAction

end Tree

/-- The number of trees in a spine, for the termination of the walks along it. -/
def Forest.length : Forest element priority action → Nat
  | .nil => 0
  | .cons _ _ rawTail => rawTail.length + 1

def checkedAdd (left right : Nat) : Except HeapError Nat :=
  checkedSum .countOverflow RrbVector.maxBound left right

def checkedSubtract (left right : Nat) : Except HeapError Nat :=
  if left < right then .error .countUnderflow else .ok (left - right)

variable (policy : MonotoneActionPolicy priority action)

/-! ## Pending actions -/

def logicalPriority (tree : Tree element priority action) : priority :=
  policy.actionApply tree.treeAction tree.treePriority

def entryOf (tree : Tree element priority action) : MonotoneHeapEntry element priority :=
  ⟨tree.treeElement, logicalPriority policy tree⟩

def lessOrEqual (left right : Tree element priority action) : Bool :=
  policy.priorityCompare (logicalPriority policy left) (logicalPriority policy right) != .gt

def tagTree (outer : action) (tree : Tree element priority action) : Tree element priority action :=
  if policy.actionIsIdentity outer then tree
  else .tree tree.treeRank tree.treeElement tree.treePriority tree.treeChildren
    (policy.actionCompose outer tree.treeAction)

def tagForest (outer : action) (forest : Forest element priority action) :
    Forest element priority action :=
  match forest with
  | .nil => .nil
  | .cons action rawHead rawTail =>
      if policy.actionIsIdentity outer then forest
      else .cons (policy.actionCompose outer action) rawHead rawTail

def expose (tree : Tree element priority action) : Tree element priority action :=
  if policy.actionIsIdentity tree.treeAction then tree
  else .tree tree.treeRank tree.treeElement (policy.actionApply tree.treeAction tree.treePriority)
    (tagForest policy tree.treeAction tree.treeChildren) policy.actionIdentity

def cons (headTree : Tree element priority action) (tailForest : Forest element priority action) :
    Forest element priority action :=
  .cons policy.actionIdentity headTree tailForest

/-- `forestHead` and `forestTail` of a forest that has them. -/
def forestView (forest : Forest element priority action) :
    Option (Tree element priority action × Forest element priority action) :=
  match forest with
  | .nil => none
  | .cons action rawHead rawTail =>
      some (tagTree policy action rawHead, tagForest policy action rawTail)

theorem length_tagForest (outer : action) (forest : Forest element priority action) :
    (tagForest policy outer forest).length = forest.length := by
  cases forest with
  | nil => rfl
  | cons action rawHead rawTail =>
      rw [tagForest]
      split <;> rfl

theorem length_of_view {forest rest : Forest element priority action}
    {tree : Tree element priority action} (h : forestView policy forest = some (tree, rest)) :
    forest.length = rest.length + 1 := by
  cases forest with
  | nil => cases h
  | cons action rawHead rawTail =>
      cases h
      rw [Forest.length, length_tagForest]

def forestToList (forest : Forest element priority action) : List (Tree element priority action) :=
  match _h : forestView policy forest with
  | none => []
  | some (headTree, tailForest) => headTree :: forestToList tailForest
  termination_by forest.length
  decreasing_by rw [length_of_view policy _h]; omega

/-! ## Forests -/

/-- A tree over an exposed winner and the children it gains. -/
def crown (rank : Nat) (winner : Tree element priority action)
    (children : Forest element priority action) : Tree element priority action :=
  .tree rank winner.treeElement winner.treePriority children policy.actionIdentity

def skewLink (zero firstTree secondTree : Tree element priority action) :
    Except HeapError (Tree element priority action) :=
  if firstTree.treeRank ≠ secondTree.treeRank then .error .invalidSkewLinkRanks
  else if lessOrEqual policy firstTree zero && lessOrEqual policy firstTree secondTree then
    let winner := expose policy firstTree
    .ok (crown policy (firstTree.treeRank + 1) winner
      (cons policy zero (cons policy secondTree winner.treeChildren)))
  else if lessOrEqual policy secondTree zero && lessOrEqual policy secondTree firstTree then
    let winner := expose policy secondTree
    .ok (crown policy (secondTree.treeRank + 1) winner
      (cons policy zero (cons policy firstTree winner.treeChildren)))
  else
    let winner := expose policy zero
    .ok (crown policy (firstTree.treeRank + 1) winner
      (cons policy firstTree (cons policy secondTree winner.treeChildren)))

def skewInsert (tree : Tree element priority action) (forest : Forest element priority action) :
    Except HeapError (Forest element priority action) :=
  match forest with
  | .cons action rawHead (.cons tailAction tailRawHead tailRawTail) =>
      if rawHead.treeRank = tailRawHead.treeRank then
        match forestView policy
          (tagForest policy action (.cons tailAction tailRawHead tailRawTail)) with
        | none => .error .headOfEmptyForest
        | some (second, rest) => do
            let linked ← skewLink policy tree (tagTree policy action rawHead) second
            .ok (cons policy linked rest)
      else .ok (cons policy tree forest)
  | _ => .ok (cons policy tree forest)

def link (firstTree secondTree : Tree element priority action) :
    Except HeapError (Tree element priority action) :=
  if firstTree.treeRank ≠ secondTree.treeRank then .error .invalidBinomialLinkRanks
  else
    let firstWins := lessOrEqual policy firstTree secondTree
    let winner := expose policy (if firstWins then firstTree else secondTree)
    let loser := if firstWins then secondTree else firstTree
    .ok (crown policy (winner.treeRank + 1) winner (cons policy loser winner.treeChildren))

def getMinimum (forest : Forest element priority action) :
    Except HeapError (Tree element priority action × Forest element priority action) :=
  match _h : forestView policy forest with
  | none => .error .minimumOfEmptyForest
  | some (headTree, .nil) => .ok (headTree, .nil)
  | some (headTree, .cons action rawHead rawTail) => do
      let (smallest, remainder) ← getMinimum (.cons action rawHead rawTail)
      if lessOrEqual policy headTree smallest then .ok (headTree, .cons action rawHead rawTail)
      else .ok (smallest, cons policy headTree remainder)
  termination_by forest.length
  decreasing_by rw [length_of_view policy _h]; omega

def splitForest : Nat → Forest element priority action → Forest element priority action →
    Forest element priority action →
    Except HeapError (Forest element priority action × Forest element priority action ×
      Forest element priority action)
  | 0, zeros, trees, forest => .ok (zeros, trees, forest)
  | rank + 1, zeros, trees, forest =>
      match forestView policy forest with
      | none => .error .invalidSkewForest
      | some (firstTree, tailForest) =>
          match forestView policy tailForest with
          | none =>
              if rank + 1 = 1 then .ok (zeros, cons policy firstTree trees, .nil)
              else .error .invalidSkewForest
          | some (secondTree, restForest) =>
              if rank + 1 = 1 then
                if secondTree.treeRank = 0 then
                  .ok (cons policy firstTree zeros, cons policy secondTree trees, restForest)
                else .ok (zeros, cons policy firstTree trees, cons policy secondTree restForest)
              else if firstTree.treeRank = secondTree.treeRank then
                .ok (zeros, cons policy firstTree (cons policy secondTree trees), restForest)
              else if firstTree.treeRank = 0 then
                splitForest rank (cons policy firstTree zeros) (cons policy secondTree trees)
                  restForest
              else
                splitForest rank zeros (cons policy firstTree trees)
                  (cons policy secondTree restForest)

def insertRanked (tree : Tree element priority action) (forest : Forest element priority action) :
    Except HeapError (Forest element priority action) :=
  match _h : forestView policy forest with
  | none => .ok (cons policy tree .nil)
  | some (headTree, tailForest) =>
      if tree.treeRank < headTree.treeRank then .ok (cons policy tree forest)
      else do
        let linked ← link policy tree headTree
        insertRanked linked tailForest
  termination_by forest.length
  decreasing_by rw [length_of_view policy _h]; omega

def uniquify (forest : Forest element priority action) :
    Except HeapError (Forest element priority action) :=
  match _h : forestView policy forest with
  | none => .ok .nil
  | some (headTree, tailForest) => do
      let unique ← uniquify tailForest
      insertRanked policy headTree unique
  termination_by forest.length
  decreasing_by rw [length_of_view policy _h]; omega

def unionUnique (left right : Forest element priority action) :
    Except HeapError (Forest element priority action) :=
  match _hleft : forestView policy left, _hright : forestView policy right with
  | none, _ => .ok right
  | some _, none => .ok left
  | some (leftHead, leftTail), some (rightHead, rightTail) =>
      if leftHead.treeRank < rightHead.treeRank then do
        let union ← unionUnique leftTail right
        .ok (cons policy leftHead union)
      else if leftHead.treeRank > rightHead.treeRank then do
        let union ← unionUnique left rightTail
        .ok (cons policy rightHead union)
      else do
        let linked ← link policy leftHead rightHead
        let union ← unionUnique leftTail rightTail
        insertRanked policy linked union
  termination_by left.length + right.length
  decreasing_by
    · rw [length_of_view policy _hleft]; omega
    · rw [length_of_view policy _hright]; omega
    · rw [length_of_view policy _hleft, length_of_view policy _hright]; omega

def skewMeld (left right : Forest element priority action) :
    Except HeapError (Forest element priority action) := do
  let left ← uniquify policy left
  let right ← uniquify policy right
  unionUnique policy left right

/-! ## Heaps -/

def emptyWith : PersistentMonotoneActionHeap element policy := ⟨0, none⟩

variable {policy}

def count (heap : PersistentMonotoneActionHeap element policy) : Nat := heap.total

def null (heap : PersistentMonotoneActionHeap element policy) : Bool := heap.root.isNone

def minimum (heap : PersistentMonotoneActionHeap element policy) :
    Option (MonotoneHeapEntry element priority) :=
  heap.root.map (entryOf policy)

def insert (elementValue : element) (priorityValue : priority)
    (heap : PersistentMonotoneActionHeap element policy) :
    Except HeapError (PersistentMonotoneActionHeap element policy) :=
  let singleton := .tree 0 elementValue priorityValue .nil policy.actionIdentity
  match heap.root with
  | none => .ok ⟨1, some singleton⟩
  | some current => do
      let total ← checkedAdd heap.total 1
      if lessOrEqual policy singleton current then
        .ok ⟨total, some (.tree 0 elementValue priorityValue (cons policy current .nil)
          policy.actionIdentity)⟩
      else do
        let exposed := expose policy current
        let children ← skewInsert policy singleton exposed.treeChildren
        .ok ⟨total, some (crown policy 0 exposed children)⟩

variable (policy) in
def fromListWith (pairs : List (element × priority)) :
    Except HeapError (PersistentMonotoneActionHeap element policy) :=
  pairs.foldlM (fun heap pair => insert pair.1 pair.2 heap) (emptyWith policy)

def transformAll (action : action) (heap : PersistentMonotoneActionHeap element policy) :
    PersistentMonotoneActionHeap element policy :=
  match heap.root with
  | none => heap
  | some current =>
      if policy.actionIsIdentity action then heap
      else ⟨heap.total, some (tagTree policy action current)⟩

def meld (left right : PersistentMonotoneActionHeap element policy) :
    Except HeapError (PersistentMonotoneActionHeap element policy) :=
  match left.root, right.root with
  | none, _ => .ok right
  | _, none => .ok left
  | some leftTree, some rightTree => do
      let total ← checkedAdd left.total right.total
      let leftWins := lessOrEqual policy leftTree rightTree
      let winner := expose policy (if leftWins then leftTree else rightTree)
      let loser := if leftWins then rightTree else leftTree
      let children ← skewInsert policy loser winner.treeChildren
      .ok ⟨total, some (crown policy 0 winner children)⟩

variable (policy) in
/-- The root that takes the place of a removed minimum over nonempty children. -/
def promote (children : Forest element priority action) :
    Except HeapError (Tree element priority action) := do
  let (taggedMinimum, remainder) ← getMinimum policy children
  let smallest := expose policy taggedMinimum
  let (zeros, trees, embedded) ←
    splitForest policy smallest.treeRank .nil .nil smallest.treeChildren
  let melded ← skewMeld policy trees remainder
  let merged ← skewMeld policy melded embedded
  let restored ← (forestToList policy zeros).reverse.foldlM
    (fun forest zero => skewInsert policy zero forest) merged
  .ok (crown policy 0 smallest restored)

def minView (heap : PersistentMonotoneActionHeap element policy) :
    Except HeapError (Option (MonotoneHeapEntry element priority ×
      PersistentMonotoneActionHeap element policy)) :=
  match heap.root with
  | none => .ok none
  | some current =>
      match (expose policy current).treeChildren with
      | .nil =>
          if heap.total = 1 then .ok (some (entryOf policy current, ⟨0, none⟩))
          else .error .invalidSingletonCount
      | .cons action rawHead rawTail => do
          let total ← checkedSubtract heap.total 1
          let promoted ← promote policy (.cons action rawHead rawTail)
          .ok (some (entryOf policy current, ⟨total, some promoted⟩))

end PersistentMonotoneActionHeap

end Durable7.FingerTree

/-!
## Enumeration and audit of action-tagged heaps

Both walk a worklist of tagged trees and expose one tree at a time.  The tree that is
exposed has as many trees below it as before.
-/

namespace Durable7.FingerTree.PersistentMonotoneActionHeap

open Foundation Foundation.BoundedQueues List

variable {element priority action : Type} (policy : MonotoneActionPolicy priority action)

/-! ### Sizes -/

mutual

def treeSize : Tree element priority action → Nat
  | .tree _ _ _ children _ => 1 + forestSize children

def forestSize : Forest element priority action → Nat
  | .nil => 0
  | .cons _ rawHead rawTail => treeSize rawHead + forestSize rawTail

end

theorem treeSize_eq (tree : Tree element priority action) :
    treeSize tree = 1 + forestSize tree.treeChildren := by
  cases tree
  rfl

theorem treeSize_tagTree (outer : action) (tree : Tree element priority action) :
    treeSize (tagTree policy outer tree) = treeSize tree := by
  rw [tagTree]
  split
  · rfl
  · exact (treeSize_eq tree).symm

theorem forestSize_tagForest (outer : action) (forest : Forest element priority action) :
    forestSize (tagForest policy outer forest) = forestSize forest := by
  cases forest with
  | nil => rfl
  | cons action rawHead rawTail =>
      rw [tagForest]
      split <;> rfl

theorem forestSize_expose (tree : Tree element priority action) :
    forestSize (expose policy tree).treeChildren = forestSize tree.treeChildren := by
  rw [expose]
  split
  · rfl
  · exact forestSize_tagForest policy _ _

variable {tree : Tree element priority action}

theorem forestSize_of_view {forest rest : Forest element priority action}
    (h : forestView policy forest = some (tree, rest)) :
    forestSize forest = treeSize tree + forestSize rest := by
  cases forest with
  | nil => cases h
  | cons action rawHead rawTail =>
      cases h
      rw [forestSize, treeSize_tagTree, forestSize_tagForest]

theorem sizes_forestToList (forest : Forest element priority action) :
    ((forestToList policy forest).map treeSize).sum = forestSize forest := by
  induction hlength : forest.length using Nat.strongRecOn generalizing forest with
  | ind length ih =>
      rw [forestToList.eq_def]
      split
      · next hview =>
        cases forest with
        | nil => rfl
        | cons action rawHead rawTail => cases hview
      · next headTree tailForest hview =>
        have htail := length_of_view policy hview
        rw [map_cons, sum_cons, ih _ (by omega) tailForest rfl, forestSize_of_view policy hview]

/-- The walk of the source's worklist. -/
def walk (pending : List (Tree element priority action)) :
    List (MonotoneHeapEntry element priority) :=
  match pending with
  | [] => []
  | tagged :: pending =>
      let tree := expose policy tagged
      ⟨tree.treeElement, tree.treePriority⟩ ::
        walk (forestToList policy tree.treeChildren ++ pending)
  termination_by (pending.map treeSize).sum
  decreasing_by
    rw [map_append, sum_append, sizes_forestToList, forestSize_expose, map_cons,
      sum_cons, treeSize_eq tagged]
    omega

def toList {policy : MonotoneActionPolicy priority action}
    (heap : PersistentMonotoneActionHeap element policy) :
    List (MonotoneHeapEntry element priority) :=
  match heap.root with
  | none => []
  | some current => walk policy [current]

/-! ### Audit -/

inductive AuditError where
  | nonzeroEmptyCount
  | rootRank
  | logicalCount
  | childOutranksParent
  | missingChildren
  | incompleteChildren
  | rankOneBeginning
  | skewLinkedRanks
  | skewLinkedRankedChild
  | linkedRankedChild
  | decreasingRanks
  | equalRanks
  deriving DecidableEq

def AuditError.message : AuditError → String
  | .nonzeroEmptyCount => "an empty action heap has a nonzero count"
  | .rootRank => "the global heap root must have rank zero"
  | .logicalCount => "the action heap's logical count is invalid"
  | .childOutranksParent => "an action-heap child outranks its parent"
  | .missingChildren => "a ranked action-heap tree is missing children"
  | .incompleteChildren => "a ranked action-heap tree has incomplete children"
  | .rankOneBeginning => "a rank-one tree must begin with rank zero"
  | .skewLinkedRanks => "a skew-linked tree has invalid child ranks"
  | .skewLinkedRankedChild => "a skew-linked tree has an invalid ranked child"
  | .linkedRankedChild => "a linked tree has an invalid ranked child"
  | .decreasingRanks => "action-heap forest ranks are not nondecreasing"
  | .equalRanks => "only the first two forest ranks may be equal"

def fusedChildren : Nat → Forest element priority action →
    Except AuditError (Forest element priority action)
  | 0, forest => .ok forest
  | rank + 1, forest =>
      match forestView policy forest with
      | none => .error .missingChildren
      | some (firstTree, tailForest) =>
          if rank + 1 = 1 then
            if firstTree.treeRank ≠ 0 then .error .rankOneBeginning
            else
              match forestView policy tailForest with
              | none => .ok .nil
              | some (secondTree, restForest) =>
                  if secondTree.treeRank = 0 then .ok restForest else .ok tailForest
          else
            match forestView policy tailForest with
            | none => .error .incompleteChildren
            | some (secondTree, restForest) =>
                if firstTree.treeRank = secondTree.treeRank then
                  if firstTree.treeRank ≠ rank then .error .skewLinkedRanks else .ok restForest
                else if firstTree.treeRank = 0 then
                  if secondTree.treeRank ≠ rank then .error .skewLinkedRankedChild
                  else fusedChildren rank restForest
                else if firstTree.treeRank ≠ rank then .error .linkedRankedChild
                else fusedChildren rank tailForest

def validateFusedChildren (tree : Tree element priority action) :
    Except AuditError (Forest element priority action) :=
  fusedChildren policy tree.treeRank tree.treeChildren

def skewForestLength (lengthValue : Nat) (previousRank : Int) (duplicate : Bool)
    (forest : Forest element priority action) : Except AuditError Nat :=
  match forest with
  | .nil => .ok lengthValue
  | .cons action rawHead rawTail =>
      if (rawHead.treeRank : Int) < previousRank then .error .decreasingRanks
      else if (rawHead.treeRank : Int) = previousRank ∧ (lengthValue ≠ 1 ∨ duplicate = true) then
        .error .equalRanks
      else
        skewForestLength (lengthValue + 1) rawHead.treeRank
          (duplicate || (rawHead.treeRank : Int) == previousRank) (tagForest policy action rawTail)
  termination_by forest.length
  decreasing_by rw [length_tagForest, Forest.length]; omega

def validateSkewForest (forest : Forest element priority action) : Except AuditError Nat :=
  skewForestLength policy 0 (-1) false forest

structure Audit where
  auditCount : Nat
  auditMaximumRank : Nat
  auditMaximumDepth : Nat
  auditTaggedComponents : Nat
  deriving DecidableEq

def observe (policy : MonotoneActionPolicy priority action) (pending : action) (observed : Nat) :
    Nat :=
  if policy.actionIsIdentity pending then observed else observed + 1

def validateChildren (parent : Tree element priority action)
    (forest : Forest element priority action) (observed : Nat) :
    Except AuditError (List (Tree element priority action) × Nat) :=
  match forest with
  | .nil => .ok ([], observed)
  | .cons action rawHead rawTail =>
      let child := tagTree policy action rawHead
      if !lessOrEqual policy parent child then .error .childOutranksParent
      else do
        let (rest, finalObserved) ←
          validateChildren parent (tagForest policy action rawTail) (observe policy action observed)
        .ok (child :: rest, finalObserved)
  termination_by forest.length
  decreasing_by rw [length_tagForest, Forest.length]; omega

variable {children : List (Tree element priority action)}

theorem validateChildren_trees {parent : Tree element priority action}
    {forest : Forest element priority action} {observed finalObserved : Nat}
    (h : validateChildren policy parent forest observed = .ok (children, finalObserved)) :
    children = forestToList policy forest := by
  induction hlength : forest.length using Nat.strongRecOn generalizing forest observed children with
  | ind length ih =>
      rw [validateChildren.eq_def] at h
      cases forest with
      | nil =>
          cases h
          rw [forestToList.eq_def]
          rfl
      | cons action rawHead rawTail =>
          dsimp only at h
          split at h
          · cases h
          · obtain ⟨⟨rest, final⟩, hrest, hall⟩ := bind_eq_ok.mp h
            cases hall
            rw [Forest.length] at hlength
            have htail : (tagForest policy action rawTail).length < length := by
              rw [length_tagForest]
              omega
            rw [forestToList.eq_def, forestView]
            exact congrArg _ (ih _ htail hrest rfl)

/-- One exposed tree: its embedded forest, and its children. -/
def validateTree (tree : Tree element priority action) (observed : Nat) :
    Except AuditError (List (Tree element priority action) × Nat) := do
  let embedded ← validateFusedChildren policy tree
  let _ ← validateSkewForest policy embedded
  validateChildren policy tree tree.treeChildren observed

theorem validateTree_trees {observed finalObserved : Nat}
    (h : validateTree policy tree observed = .ok (children, finalObserved)) :
    children = forestToList policy tree.treeChildren := by
  obtain ⟨embedded, -, h⟩ := bind_eq_ok.mp h
  obtain ⟨length, -, h⟩ := bind_eq_ok.mp h
  exact validateChildren_trees policy h

def validateTrees (pending : List (Tree element priority action × Nat)) (audit : Audit) :
    Except HeapError (Except AuditError Audit) :=
  match pending with
  | [] => .ok (.ok audit)
  | (tagged, depth) :: pending =>
      let tree := expose policy tagged
      match _h : validateTree policy tree
          (observe policy tagged.treeAction audit.auditTaggedComponents) with
      | .error problem => .ok (.error problem)
      | .ok (children, taggedAfter) => do
          let below ← depthBelow .countOverflow RrbVector.maxBound depth children
          let counted ← checkedAdd audit.auditCount 1
          validateTrees (atDepth below children ++ pending)
            ⟨counted, max audit.auditMaximumRank tree.treeRank,
              max audit.auditMaximumDepth depth, taggedAfter⟩
  termination_by (pending.map fun entry => treeSize entry.1).sum
  decreasing_by
    rw [map_append, sum_append, sizes_atDepth treeSize, validateTree_trees policy _h,
      sizes_forestToList, forestSize_expose, map_cons, sum_cons, treeSize_eq tagged]
    omega

def validateStructure {policy : MonotoneActionPolicy priority action}
    (heap : PersistentMonotoneActionHeap element policy) :
    Except HeapError (Except AuditError Statistics) :=
  match heap.root with
  | none => .ok (if heap.total ≠ 0 then .error .nonzeroEmptyCount else .ok ⟨0, 0, 0, 0, 0⟩)
  | some root =>
      if root.treeRank ≠ 0 then .ok (.error .rootRank)
      else
        match validateSkewForest policy (expose policy root).treeChildren with
        | .error problem => .ok (.error problem)
        | .ok rootForestLength => do
            let validated ← validateTrees policy [(root, 1)] ⟨0, 0, 0, 0⟩
            .ok (validated.bind fun audit =>
              if audit.auditCount ≠ heap.total then .error .logicalCount
              else .ok ⟨heap.total, rootForestLength, audit.auditMaximumRank,
                audit.auditMaximumDepth, audit.auditTaggedComponents⟩)

end Durable7.FingerTree.PersistentMonotoneActionHeap
