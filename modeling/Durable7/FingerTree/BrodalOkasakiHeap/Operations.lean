import Durable7.FingerTree.RrbVector.Node
import Durable7.Foundation.BoundedQueues
import Mathlib.Tactic.Abel

/-!
# Brodal-Okasaki heaps

The children of a tree fuse its primitive skew-binomial children with an embedded forest.
Ranks are built from zero by adding one, so they are `Nat`, and the source's checks for a
negative rank have no counterpart.  `le` is the `<=` of the elements, and `>` is its
negation.
-/

namespace Durable7.FingerTree

open Foundation Foundation.BoundedQueues List

namespace BrodalOkasakiHeap

inductive Tree (α : Type) where
  | tree (rank : Nat) (value : α) (children : List (Tree α))

end BrodalOkasakiHeap

structure BrodalOkasakiHeap (α : Type) where
  total : Nat
  root : Option (BrodalOkasakiHeap.Tree α)

namespace BrodalOkasakiHeap

structure Statistics where
  brodalStatisticsCount : Nat
  brodalStatisticsRootForestLength : Nat
  brodalStatisticsMaximumRank : Nat
  brodalStatisticsMaximumDepth : Nat
  deriving DecidableEq

inductive HeapError where
  | invalidSingletonCount
  | invalidSkewLinkRanks
  | invalidBinomialLinkRanks
  | emptyForest
  | invalidSkewForest
  | invalidInsertionOrder
  | countOverflow
  | countUnderflow
  deriving DecidableEq

def HeapError.message : HeapError → String
  | .invalidSingletonCount => "invalid Brodal-Okasaki singleton count"
  | .invalidSkewLinkRanks => "invalid skew-link ranks"
  | .invalidBinomialLinkRanks => "invalid binomial-link ranks"
  | .emptyForest => "empty Brodal-Okasaki forest"
  | .invalidSkewForest => "invalid skew-binomial forest invariant"
  | .invalidInsertionOrder => "invalid ranked insertion order"
  | .countOverflow => "Brodal-Okasaki count overflow"
  | .countUnderflow => "Brodal-Okasaki count underflow"

variable {α : Type}

namespace Tree

def rank : Tree α → Nat
  | .tree rank _ _ => rank

def value : Tree α → α
  | .tree _ value _ => value

def children : Tree α → List (Tree α)
  | .tree _ _ children => children

/-- The number of elements, for the termination of the walks below. -/
def size : Tree α → Nat
  | .tree _ _ children => 1 + (children.map size).sum

end Tree

def checkedAdd (left right : Nat) : Except HeapError Nat :=
  checkedSum .countOverflow RrbVector.maxBound left right

def checkedSubtract (left right : Nat) : Except HeapError Nat :=
  if left < right then .error .countUnderflow else .ok (left - right)

/-! ## Forests -/

section Forests

variable (le : α → α → Bool)

def skewLink (zero first second : Tree α) : Except HeapError (Tree α) :=
  if first.rank ≠ second.rank then .error .invalidSkewLinkRanks
  else if le first.value zero.value && le first.value second.value then
    .ok (.tree (first.rank + 1) first.value (zero :: second :: first.children))
  else if le second.value zero.value && le second.value first.value then
    .ok (.tree (second.rank + 1) second.value (zero :: first :: second.children))
  else .ok (.tree (first.rank + 1) zero.value (first :: second :: zero.children))

def skewInsert (tree : Tree α) (forest : List (Tree α)) : Except HeapError (List (Tree α)) :=
  match forest with
  | first :: second :: rest =>
      if first.rank = second.rank then do
        let linked ← skewLink le tree first second
        .ok (linked :: rest)
      else .ok (tree :: forest)
  | _ => .ok (tree :: forest)

def link (first second : Tree α) : Except HeapError (Tree α) :=
  if first.rank ≠ second.rank then .error .invalidBinomialLinkRanks
  else if le first.value second.value then
    .ok (.tree (first.rank + 1) first.value (second :: first.children))
  else .ok (.tree (second.rank + 1) second.value (first :: second.children))

def getMinimum : List (Tree α) → Except HeapError (Tree α × List (Tree α))
  | [] => .error .emptyForest
  | [tree] => .ok (tree, [])
  | tree :: next :: rest => do
      let (minimumTree, remainder) ← getMinimum (next :: rest)
      if le tree.value minimumTree.value then .ok (tree, next :: rest)
      else .ok (minimumTree, tree :: remainder)

def splitForest : Nat → List (Tree α) → List (Tree α) → List (Tree α) →
    Except HeapError (List (Tree α) × List (Tree α) × List (Tree α))
  | 0, zeros, trees, forest => .ok (zeros, trees, forest)
  | _ + 1, _, _, [] => .error .invalidSkewForest
  | 1, zeros, trees, [first] => .ok (zeros, first :: trees, [])
  | _ + 2, _, _, [_] => .error .invalidSkewForest
  | 1, zeros, trees, first :: second :: rest =>
      if second.rank = 0 then .ok (first :: zeros, second :: trees, rest)
      else .ok (zeros, first :: trees, second :: rest)
  | rank + 2, zeros, trees, first :: second :: rest =>
      if first.rank = second.rank then .ok (zeros, first :: second :: trees, rest)
      else if first.rank = 0 then splitForest (rank + 1) (first :: zeros) (second :: trees) rest
      else splitForest (rank + 1) zeros (first :: trees) (second :: rest)

def insertRanked (tree : Tree α) : List (Tree α) → Except HeapError (List (Tree α))
  | [] => .ok [tree]
  | first :: rest =>
      if tree.rank < first.rank then .ok (tree :: first :: rest)
      else if tree.rank = first.rank then do
        let linked ← link le tree first
        insertRanked linked rest
      else .error .invalidInsertionOrder

def uniquify : List (Tree α) → Except HeapError (List (Tree α))
  | [] => .ok []
  | tree :: forest => do
      let unique ← uniquify forest
      insertRanked le tree unique

def unionUnique (left right : List (Tree α)) : Except HeapError (List (Tree α)) :=
  match left, right with
  | [], right => .ok right
  | left, [] => .ok left
  | first :: leftRest, second :: rightRest =>
      if first.rank < second.rank then do
        let union ← unionUnique leftRest (second :: rightRest)
        .ok (first :: union)
      else if first.rank > second.rank then do
        let union ← unionUnique (first :: leftRest) rightRest
        .ok (second :: union)
      else do
        let linked ← link le first second
        let union ← unionUnique leftRest rightRest
        insertRanked le linked union
  termination_by left.length + right.length

def skewMeld (left right : List (Tree α)) : Except HeapError (List (Tree α)) := do
  let left ← uniquify le left
  let right ← uniquify le right
  unionUnique le left right

end Forests

/-! ## Heaps -/

def empty : BrodalOkasakiHeap α := ⟨0, none⟩

def singleton (value : α) : BrodalOkasakiHeap α := ⟨1, some (.tree 0 value [])⟩

def count (heap : BrodalOkasakiHeap α) : Nat := heap.total

def null (heap : BrodalOkasakiHeap α) : Bool := heap.root.isNone

def minimum (heap : BrodalOkasakiHeap α) : Option α := heap.root.map Tree.value

section Order

variable (le : α → α → Bool)

def insert (value : α) (heap : BrodalOkasakiHeap α) : Except HeapError (BrodalOkasakiHeap α) :=
  match heap.root with
  | none => .ok (singleton value)
  | some root => do
      let total ← checkedAdd heap.total 1
      if le value root.value then .ok ⟨total, some (.tree 0 value [root])⟩
      else do
        let children ← skewInsert le (.tree 0 value []) root.children
        .ok ⟨total, some (.tree 0 root.value children)⟩

def fromList (values : List α) : Except HeapError (BrodalOkasakiHeap α) :=
  values.foldlM (fun heap value => insert le value heap) empty

def meld (left right : BrodalOkasakiHeap α) : Except HeapError (BrodalOkasakiHeap α) :=
  match left.root, right.root with
  | none, _ => .ok right
  | _, none => .ok left
  | some leftRoot, some rightRoot => do
      let total ← checkedAdd left.total right.total
      if le leftRoot.value rightRoot.value then do
        let children ← skewInsert le rightRoot leftRoot.children
        .ok ⟨total, some (.tree 0 leftRoot.value children)⟩
      else do
        let children ← skewInsert le leftRoot rightRoot.children
        .ok ⟨total, some (.tree 0 rightRoot.value children)⟩

/-- The root that takes the place of a removed minimum over nonempty children. -/
def promote (children : List (Tree α)) : Except HeapError (Tree α) := do
  let (smallest, remainder) ← getMinimum le children
  let (zeros, trees, embeddedForest) ← splitForest smallest.rank [] [] smallest.children
  let melded ← skewMeld le trees remainder
  let merged ← skewMeld le melded embeddedForest
  let restored ← zeros.reverse.foldlM (fun forest zero => skewInsert le zero forest) merged
  .ok (.tree 0 smallest.value restored)

def minView (heap : BrodalOkasakiHeap α) : Except HeapError (Option (α × BrodalOkasakiHeap α)) :=
  match heap.root with
  | none => .ok none
  | some (.tree _ value []) =>
      if heap.total = 1 then .ok (some (value, empty)) else .error .invalidSingletonCount
  | some (.tree _ value (child :: children)) => do
      let total ← checkedSubtract heap.total 1
      let root ← promote le (child :: children)
      .ok (some (value, ⟨total, some root⟩))

end Order

/-- The walk of the source's worklist. -/
def walk : List (Tree α) → List α
  | [] => []
  | .tree _ value children :: pending => value :: walk (children ++ pending)
  termination_by pending => (pending.map Tree.size).sum
  decreasing_by
    rw [map_append, sum_append, map_cons, sum_cons, Tree.size]
    omega

def toList (heap : BrodalOkasakiHeap α) : List α :=
  match heap.root with
  | none => []
  | some root => walk [root]

/-! ## Validation -/

/-- The embedded forest behind the primitive children. -/
def fusedChildren : Nat → List (Tree α) → Option (List (Tree α))
  | 0, forest => some forest
  | _ + 1, [] => none
  | 1, first :: rest =>
      if first.rank ≠ 0 then none
      else
        match rest with
        | [] => some []
        | second :: remaining => if second.rank = 0 then some remaining else some rest
  | _ + 2, [_] => none
  | rank + 2, first :: second :: rest =>
      if first.rank = second.rank then if first.rank = rank + 1 then some rest else none
      else if first.rank = 0 then
        if second.rank = rank + 1 then fusedChildren (rank + 1) rest else none
      else if first.rank = rank + 1 then fusedChildren (rank + 1) (second :: rest)
      else none

def validateFusedChildren (tree : Tree α) : Option (List (Tree α)) :=
  fusedChildren tree.rank tree.children

def skewForestLength (lengthValue : Nat) (previousRank : Int) (duplicate : Bool) :
    List (Tree α) → Option Nat
  | [] => some lengthValue
  | tree :: rest =>
      if (tree.rank : Int) < previousRank then none
      else if (tree.rank : Int) = previousRank ∧ (lengthValue ≠ 1 ∨ duplicate = true) then none
      else
        skewForestLength (lengthValue + 1) tree.rank
          (duplicate || (tree.rank : Int) == previousRank) rest

def validateSkewForest (forest : List (Tree α)) : Option Nat := skewForestLength 0 (-1) false forest

structure Validated where
  validatedCount : Nat
  validatedMaximumRank : Nat
  validatedMaximumDepth : Nat
  deriving DecidableEq

variable (le : α → α → Bool)

def validateTrees (pending : List (Tree α × Nat)) (logicalCount maximumRank maximumDepth : Nat) :
    Except HeapError (Option Validated) :=
  match pending with
  | [] => .ok (some ⟨logicalCount, maximumRank, maximumDepth⟩)
  | (.tree rank value children, depth) :: pending =>
      if children.any fun child => !le value child.value then .ok none
      else
        match (validateFusedChildren (.tree rank value children)).bind validateSkewForest with
        | none => .ok none
        | some _ => do
            let below ← depthBelow .countOverflow RrbVector.maxBound depth children
            let counted ← checkedAdd logicalCount 1
            validateTrees (atDepth below children ++ pending) counted
              (max maximumRank rank) (max maximumDepth depth)
  termination_by (pending.map fun entry => entry.1.size).sum
  decreasing_by
    rw [map_append, sum_append, sizes_atDepth Tree.size, map_cons, sum_cons, Tree.size]
    omega

def validateStructure (heap : BrodalOkasakiHeap α) : Except HeapError (Option Statistics) :=
  match heap.root with
  | none => .ok (if heap.total = 0 then some ⟨0, 0, 0, 0⟩ else none)
  | some root =>
      if root.rank ≠ 0 then .ok none
      else
        match validateSkewForest root.children with
        | none => .ok none
        | some rootForestLength => do
            let validated ← validateTrees le [(root, 1)] 0 0 0
            .ok (validated.bind fun result =>
              if result.validatedCount ≠ heap.total then none
              else some ⟨heap.total, rootForestLength, result.validatedMaximumRank,
                result.validatedMaximumDepth⟩)

end BrodalOkasakiHeap

end Durable7.FingerTree

/-!
## The shape of skew-binomial trees

`Fused` reads the children of a tree of a rank as its primitive children before an embedded
forest.  A sound tree is fused at every node and nowhere below its own value.
-/

namespace Durable7.FingerTree.BrodalOkasakiHeap

open List

variable {α : Type}

class TotalPreorder (le : α → α → Bool) : Prop where
  trans : ∀ {first second third}, le first second = true → le second third = true →
    le first third = true
  total : ∀ first second, le first second = true ∨ le second first = true

/-! ### Elements -/

def Tree.bag : Tree α → Multiset α
  | .tree _ value children => value ::ₘ (children.map bag).sum

def forestBag (forest : List (Tree α)) : Multiset α := (forest.map Tree.bag).sum

@[simp] theorem forestBag_nil : forestBag ([] : List (Tree α)) = 0 := rfl

@[simp] theorem forestBag_cons (tree : Tree α) (forest : List (Tree α)) :
    forestBag (tree :: forest) = tree.bag + forestBag forest := by
  rw [forestBag, map_cons, sum_cons]
  rfl

@[simp] theorem forestBag_append (front back : List (Tree α)) :
    forestBag (front ++ back) = forestBag front + forestBag back := by
  rw [forestBag, map_append, sum_append]
  rfl

theorem bag_eq (tree : Tree α) : tree.bag = {tree.value} + forestBag tree.children := by
  cases tree with
  | tree rank value children => rw [Tree.bag, Multiset.singleton_add]; rfl

theorem bag_tree (rank : Nat) (value : α) (children : List (Tree α)) :
    (Tree.tree rank value children).bag = {value} + forestBag children := bag_eq _

variable {forest : List (Tree α)}

theorem mem_forestBag {value : α} :
    value ∈ forestBag forest ↔ ∃ tree ∈ forest, value ∈ tree.bag := by
  induction forest with
  | nil => simp
  | cons tree forest ih =>
      rw [forestBag_cons, Multiset.mem_add, ih]
      simp

theorem size_tree (rank : Nat) (value : α) (children : List (Tree α)) :
    (Tree.tree rank value children).size = 1 + (children.map Tree.size).sum := by
  rw [Tree.size]

theorem card_forestBag (forest : List (Tree α)) (h : ∀ tree ∈ forest, tree.bag.card = tree.size) :
    (forestBag forest).card = (forest.map Tree.size).sum := by
  induction forest with
  | nil => rfl
  | cons tree forest ih =>
      rw [forestBag_cons, Multiset.card_add, h tree mem_cons_self,
        ih fun other hother => h other (mem_cons_of_mem _ hother), map_cons,
        sum_cons]

theorem card_bag : ∀ tree : Tree α, tree.bag.card = tree.size
  | .tree rank value children => by
      rw [bag_tree, Multiset.card_add, Multiset.card_singleton, size_tree]
      congr 1
      exact card_forestBag children fun child _ => card_bag child

/-! ### Ranks -/

/-- The children of a tree of a rank, in front of an embedded forest. -/
inductive Fused : Nat → List (Tree α) → List (Tree α) → Prop where
  | zero (forest : List (Tree α)) : Fused 0 forest forest
  | link {rank : Nat} {loser : Tree α} {children embedded : List (Tree α)}
      (hloser : loser.rank = rank) (h : Fused rank children embedded) :
      Fused (rank + 1) (loser :: children) embedded
  | skewZero {rank : Nat} {zero loser : Tree α} {children embedded : List (Tree α)}
      (hzero : zero.rank = 0) (hloser : loser.rank = rank) (h : Fused rank children embedded) :
      Fused (rank + 1) (zero :: loser :: children) embedded
  | skewPair {rank : Nat} {first second : Tree α} {embedded : List (Tree α)}
      (hfirst : first.rank = rank) (hsecond : second.rank = rank) :
      Fused (rank + 1) (first :: second :: embedded) embedded

def Ascending (forest : List (Tree α)) : Prop :=
  forest.Pairwise fun left right => left.rank < right.rank

def Nondecreasing (forest : List (Tree α)) : Prop :=
  forest.Pairwise fun left right => left.rank ≤ right.rank

/-- At most the first two ranks are equal. -/
def SkewForest (forest : List (Tree α)) : Prop := Nondecreasing forest ∧ Ascending forest.tail

theorem Ascending.nondecreasing (h : Ascending forest) : Nondecreasing forest :=
  h.imp fun hlt => Nat.le_of_lt hlt

theorem Ascending.skewForest (h : Ascending forest) : SkewForest forest := ⟨h.nondecreasing, h.tail⟩

theorem SkewForest.tail (h : SkewForest forest) : SkewForest forest.tail := h.2.skewForest

theorem Fused.embedded_of_zero {children embedded : List (Tree α)} (h : Fused 0 children embedded) :
    children = embedded := by
  cases h
  rfl

theorem Fused.ranked {rank : Nat} {children embedded : List (Tree α)}
    (h : Fused (rank + 1) children embedded) :
    ∃ first rest, children = first :: rest ∧ first.rank ≤ rank := by
  cases h with
  | link hloser _ => exact ⟨_, _, rfl, Nat.le_of_eq hloser⟩
  | skewZero hzero _ _ => exact ⟨_, _, rfl, by omega⟩
  | skewPair hfirst _ => exact ⟨_, _, rfl, Nat.le_of_eq hfirst⟩

/-! ### Sound trees -/

inductive Sound (le : α → α → Bool) : Tree α → Prop where
  | tree {rank : Nat} {value : α} {children embedded : List (Tree α)}
      (hfused : Fused rank children embedded) (hembedded : SkewForest embedded)
      (horder : ∀ child ∈ children, le value child.value = true)
      (hchildren : ∀ child ∈ children, Sound le child) :
      Sound le (.tree rank value children)

def AllSound (le : α → α → Bool) (forest : List (Tree α)) : Prop := ∀ tree ∈ forest, Sound le tree

section Sound

variable {le : α → α → Bool} {tree : Tree α} {forest : List (Tree α)}

theorem Sound.fused (h : Sound le tree) :
    ∃ embedded, Fused tree.rank tree.children embedded ∧ SkewForest embedded := by
  cases h with
  | tree hfused hembedded _ _ => exact ⟨_, hfused, hembedded⟩

theorem Sound.order (h : Sound le tree) :
    ∀ child ∈ tree.children, le tree.value child.value = true := by
  cases h with
  | tree _ _ horder _ => exact horder

theorem Sound.children (h : Sound le tree) : AllSound le tree.children := by
  cases h with
  | tree _ _ _ hchildren => exact hchildren

theorem allSound_nil : AllSound le ([] : List (Tree α)) := fun _ h => by cases h

theorem allSound_cons : AllSound le (tree :: forest) ↔ Sound le tree ∧ AllSound le forest :=
  forall_mem_cons

theorem Sound.root_le [preorder : TotalPreorder le] (h : Sound le tree) :
    ∀ value ∈ tree.bag, le tree.value value = true := by
  induction h with
  | @tree rank root children embedded hfused hembedded horder hchildren ih =>
      intro value hvalue
      rw [bag_tree, Multiset.mem_add, Multiset.mem_singleton] at hvalue
      rcases hvalue with rfl | hvalue
      · exact (preorder.total _ _).elim id id
      · obtain ⟨child, hchild, hmem⟩ := mem_forestBag.mp hvalue
        exact preorder.trans (horder child hchild) (ih child hchild value hmem)

theorem sound_zero {value : α} (hforest : SkewForest forest) (hsound : AllSound le forest)
    (horder : ∀ child ∈ forest, le value child.value = true) : Sound le (.tree 0 value forest) :=
  .tree (.zero forest) hforest horder hsound

theorem sound_leaf (value : α) : Sound le (.tree 0 value []) :=
  sound_zero (Ascending.skewForest List.Pairwise.nil) allSound_nil (fun _ h => by cases h)

theorem Sound.skewForest (h : Sound le tree) (hzero : tree.rank = 0) :
    SkewForest tree.children := by
  obtain ⟨embedded, hfused, hembedded⟩ := h.fused
  rw [hzero] at hfused
  rw [hfused.embedded_of_zero]
  exact hembedded

end Sound

end Durable7.FingerTree.BrodalOkasakiHeap
