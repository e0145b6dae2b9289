import Durable7.Foundation.Outcome

/-!
# Nodes of a relaxed radix-balanced vector

Leaves hold up to 32 elements, and branches up to 32 children of one height.  A
branch whose layout is regular is addressed by its radix digits.  Any other branch
carries the running totals of its children's counts.  Every error call of the
source is an `RrbError`, and so is an array access out of bounds.
-/

namespace Durable7.FingerTree

open Foundation List

inductive RrbVector.Node (α : Type) where
  | leaf (values : List α)
  | branch (count height : Nat) (children : List (RrbVector.Node α)) (sizes : Option (List Nat))

structure RrbVector (α : Type) where
  root : Option (RrbVector.Node α)

namespace RrbVector

variable {α : Type}

def branchFactor : Nat := 32

instance : NeZero branchFactor := ⟨by decide⟩

def radixBits : Nat := 5

/-- `maxBound :: Int`. -/
def maxBound : Nat := 9223372036854775807

/-- The greatest minimum height in the count domain and one level of slack. -/
def maximumHeight : Nat := 63 / radixBits + 1

inductive RrbError where
  | leafLength
  | branchArity
  | unequalHeights
  | heightInvariant
  | branchInvariant
  | kindMismatch
  | escapedSelection
  | selectionOnLeaf
  | emptyList
  | emptyLevel
  | countOverflow
  | arrayIndex
  | cursorEdit (operation : String)
  | invalidCursor
  deriving DecidableEq

def RrbError.message : RrbError → String
  | .leafLength => "RRB leaf length is outside 1..32"
  | .branchArity => "RRB branch arity is outside 1..32"
  | .unequalHeights => "RRB branch children have unequal heights"
  | .heightInvariant => "RRB height invariant violated"
  | .branchInvariant => "RRB branch invariant violated"
  | .kindMismatch => "RRB equal-height node kinds differ"
  | .escapedSelection => "RRB regular child selection escaped the branch"
  | .selectionOnLeaf => "RRB child selection requires a branch"
  | .emptyList => "RRB internal list cannot be empty"
  | .emptyLevel => "RRB level cannot be empty"
  | .countOverflow => "RRB vector count exceeds maxBound :: Int"
  | .arrayIndex => "Error in array index"
  | .cursorEdit operation => "Durable7.FingerTree.RrbVector cursor " ++ operation ++ " failed"
  | .invalidCursor => "Durable7.FingerTree.RrbVector.cursorInsertVector: invalid cursor"

/-! ## Counts and contents -/

def nodeCount : Node α → Nat
  | .leaf values => values.length
  | .branch count _ _ _ => count

def nodeHeight : Node α → Nat
  | .leaf _ => 0
  | .branch _ height _ _ => height

theorem nodeCount_branch (count height : Nat) (children : List (Node α))
    (sizes : Option (List Nat)) : nodeCount (.branch count height children sizes) = count := rfl

theorem nodeHeight_branch (count height : Nat) (children : List (Node α))
    (sizes : Option (List Nat)) : nodeHeight (.branch count height children sizes) = height := rfl

mutual

def nodeToList : Node α → List α
  | .leaf values => values
  | .branch _ _ children _ => nodesToList children

def nodesToList : List (Node α) → List α
  | [] => []
  | child :: children => nodeToList child ++ nodesToList children

end

def checkedAdd (left right : Nat) : Except RrbError Nat :=
  if left + right > maxBound then .error .countOverflow else .ok (left + right)

def checkedSum (counts : List Nat) : Except RrbError Nat := counts.foldlM checkedAdd 0

/-- `drop 1 (scanl checkedAdd total counts)`. -/
def checkedScan (total : Nat) : List Nat → Except RrbError (List Nat)
  | [] => .ok []
  | count :: counts => do
      let next ← checkedAdd total count
      let sizes ← checkedScan next counts
      .ok (next :: sizes)

def splitLastFrom (value : α) : List α → List α × α
  | [] => ([], value)
  | next :: rest => (value :: (splitLastFrom next rest).1, (splitLastFrom next rest).2)

def splitLast : List α → Except RrbError (List α × α)
  | [] => .error .emptyList
  | value :: values => .ok (splitLastFrom value values)

/-- The least amount is one, or the source would not come to an end. -/
def chunksOf (amount : Nat) [NeZero amount] (values : List α) : List (List α) :=
  match values with
  | [] => []
  | value :: values =>
      (value :: values).take amount :: chunksOf amount ((value :: values).drop amount)
termination_by values.length
decreasing_by
  have := Nat.pos_of_neZero amount
  simp only [length_drop, length_cons]
  omega

/-! ## Building nodes -/

def leafFromList (values : List α) : Except RrbError (Node α) :=
  if values.isEmpty ∨ branchFactor < values.length then .error .leafLength
  else .ok (.leaf values)

def hasRegularLayout (children : List (Node α)) (branchHeight : Nat) : Bool :=
  match children with
  | [] => false
  | first :: rest =>
      if branchHeight < 1 ∨ maximumHeight < branchHeight then false
      else
        let capacity := 1 <<< (branchHeight * radixBits)
        let (front, finalChild) := splitLastFrom first rest
        front.all (fun child => nodeCount child == capacity) && nodeCount finalChild ≤ capacity

def mkBranch (children : List (Node α)) : Except RrbError (Node α) :=
  match children with
  | [] => .error .branchArity
  | firstChild :: rest => do
      if branchFactor < (firstChild :: rest).length then .error .branchArity
      else if (firstChild :: rest).any fun child => nodeHeight child != nodeHeight firstChild then
        .error .unequalHeights
      else
        let branchHeight ← checkedAdd (nodeHeight firstChild) 1
        let total ← checkedSum ((firstChild :: rest).map nodeCount)
        if hasRegularLayout (firstChild :: rest) branchHeight then
          .ok (.branch total branchHeight (firstChild :: rest) none)
        else
          let sizes ← checkedScan 0 ((firstChild :: rest).map nodeCount)
          .ok (.branch total branchHeight (firstChild :: rest) (some sizes))

section

variable (amount : Nat) [NeZero amount]

theorem chunksOf_nil : chunksOf amount ([] : List α) = [] := by
  rw [chunksOf]

theorem chunksOf_ne_nil {values : List α} (h : values ≠ []) :
    chunksOf amount values = values.take amount :: chunksOf amount (values.drop amount) := by
  cases values with
  | nil => exact absurd rfl h
  | cons value values => rw [chunksOf]

theorem length_chunksOf_le (values : List α) :
    (chunksOf amount values).length ≤ values.length := by
  induction values using chunksOf.induct amount with
  | case1 => simp [chunksOf_nil]
  | case2 value values ih =>
      have := Nat.pos_of_neZero amount
      rw [chunksOf_ne_nil amount (by simp), length_cons]
      simp only [length_drop, length_cons] at ih ⊢
      omega

theorem length_chunksOf_lt (hamount : 1 < amount)
    {values : List α} (h : 1 < values.length) :
    (chunksOf amount values).length < values.length := by
  have hne : values ≠ [] := by
    rintro rfl
    simp at h
  have hrest := length_chunksOf_le amount (values.drop amount)
  rw [chunksOf_ne_nil amount hne, length_cons]
  rw [length_drop] at hrest
  omega

end

def buildLevel (nodes : List (Node α)) : Except RrbError (Node α) :=
  match nodes with
  | [] => .error .emptyLevel
  | [node] => .ok node
  | first :: second :: rest =>
      match h : (chunksOf branchFactor (first :: second :: rest)).mapM mkBranch with
      | .error problem => .error problem
      | .ok parents => buildLevel parents
termination_by nodes.length
decreasing_by
  rw [← (mapM_eq_ok.mp h).length_eq]
  exact length_chunksOf_lt branchFactor (by decide) (by simp)

def findInSizes (position childIndex before : Nat) : List Nat → Except RrbError (Nat × Nat)
  | [] => .error .arrayIndex
  | size :: sizes =>
      if position < size then .ok (childIndex, before)
      else findInSizes position (childIndex + 1) size sizes

def findChild (position : Nat) : Node α → Except RrbError (Nat × Nat)
  | .leaf _ => .error .selectionOnLeaf
  | .branch _ branchHeight children none =>
      let childIndex := position >>> (branchHeight * radixBits)
      let before := childIndex <<< (branchHeight * radixBits)
      if childIndex < children.length then .ok (childIndex, before)
      else .error .escapedSelection
  | .branch _ _ _ (some sizes) => findInSizes position 0 0 sizes

theorem sizeOf_child_lt {children : List (Node α)} {childIndex count height : Nat}
    {sizes : Option (List Nat)} {child : Node α} (h : children[childIndex]? = some child) :
    sizeOf child < sizeOf (Node.branch count height children sizes) := by
  have := sizeOf_lt_of_mem (mem_of_getElem? h)
  rw [Node.branch.sizeOf_spec]
  omega

def indexNode (position : Nat) (node : Node α) : Except RrbError α :=
  match node with
  | .leaf values => presentOr values[position]? .arrayIndex
  | .branch count height children sizes => do
      let (childIndex, before) ← findChild position (.branch count height children sizes)
      match h : children[childIndex]? with
      | none => .error .arrayIndex
      | some child => indexNode (position - before) child
termination_by sizeOf node
decreasing_by exact sizeOf_child_lt h

/-- Pointer equality or `==`.  The pointer test may answer for equal values only. -/
def sameValue [BEq α] (identical : α → α → Bool) (left right : α) : Bool :=
  identical left right || left == right

def setNode [BEq α] (identical : α → α → Bool) (position : Nat) (value : α) (node : Node α) :
    Except RrbError (Node α × Bool) :=
  match node with
  | .leaf values => do
      let found ← presentOr values[position]? .arrayIndex
      if sameValue identical found value then .ok (.leaf values, false)
      else .ok (.leaf (values.set position value), true)
  | .branch count height children sizes => do
      let (childIndex, before) ← findChild position (.branch count height children sizes)
      match h : children[childIndex]? with
      | none => .error .arrayIndex
      | some found => do
          let (child, changed) ← setNode identical (position - before) value found
          if changed then
            let updated ← mkBranch (children.set childIndex child)
            .ok (updated, true)
          else .ok (.branch count height children sizes, false)
termination_by sizeOf node
decreasing_by exact sizeOf_child_lt h

/-! ## Concatenation -/

def partitionNodes (children : List (Node α)) : Except RrbError (List (Node α)) :=
  if children.length ≤ branchFactor then do
    let parent ← mkBranch children
    .ok [parent]
  else do
    let left ← mkBranch (children.take (children.length / 2))
    let right ← mkBranch (children.drop (children.length / 2))
    .ok [left, right]

theorem splitLastFrom_eq (value : α) (values : List α) :
    (splitLastFrom value values).1 ++ [(splitLastFrom value values).2] = value :: values := by
  induction values generalizing value with
  | nil => rfl
  | cons next rest ih => rw [splitLastFrom, cons_append, ih next]

theorem splitLast_append (front : List α) (last : α) :
    splitLast (front ++ [last]) = .ok (front, last) := by
  have hsplit : ∀ (value : α) (values : List α), value :: values = front ++ [last] →
      splitLastFrom value values = (front, last) := by
    intro value values h
    rw [← splitLastFrom_eq value values] at h
    obtain ⟨hfront, hlast⟩ := append_inj' h rfl
    exact Prod.ext hfront (singleton_inj.mp hlast)
  cases hvalues : front ++ [last] with
  | nil => simp at hvalues
  | cons value values => rw [splitLast, hsplit value values hvalues.symm]

theorem splitLast_eq_ok {values front : List α} {last : α} :
    splitLast values = .ok (front, last) ↔ values = front ++ [last] := by
  constructor
  · intro h
    cases values with
    | nil => cases h
    | cons value values =>
        have hsplit : splitLastFrom value values = (front, last) := Except.ok.inj h
        rw [← splitLastFrom_eq value values, hsplit]
  · rintro rfl
    exact splitLast_append front last

theorem sizeOf_last_lt {children front : List (Node α)} {count height : Nat}
    {sizes : Option (List Nat)} {last : Node α} (h : splitLast children = .ok (front, last)) :
    sizeOf last < sizeOf (Node.branch count height children sizes) := by
  rw [splitLast_eq_ok.mp h]
  have : last ∈ front ++ [last] := by simp
  have := sizeOf_lt_of_mem this
  rw [Node.branch.sizeOf_spec]
  omega

def concatSameHeight (left right : Node α) : Except RrbError (List (Node α)) :=
  match left, right with
  | .leaf leftValues, .leaf rightValues =>
      if leftValues.length = branchFactor ∧ rightValues.length = branchFactor then
        .ok [.leaf leftValues, .leaf rightValues]
      else
        let combined := leftValues ++ rightValues
        if combined.length ≤ branchFactor then do
          let joined ← leafFromList combined
          .ok [joined]
        else do
          let first ← leafFromList (combined.take (combined.length / 2))
          let second ← leafFromList (combined.drop (combined.length / 2))
          .ok [first, second]
  | .branch _ _ leftChildren _, .branch _ _ (rightBoundary :: rightSuffix) _ =>
      match h : splitLast leftChildren with
      | .error problem => .error problem
      | .ok (leftPrefix, leftBoundary) => do
          let boundary ← concatSameHeight leftBoundary rightBoundary
          partitionNodes (leftPrefix ++ boundary ++ rightSuffix)
  | .branch _ _ leftChildren _, .branch _ _ [] _ => do
      let _ ← splitLast leftChildren
      .error .branchInvariant
  | _, _ => .error .kindMismatch
termination_by sizeOf left
decreasing_by exact sizeOf_last_lt h

def concatNodes (left right : Node α) : Except RrbError (List (Node α)) :=
  if nodeHeight left = nodeHeight right then concatSameHeight left right
  else if nodeHeight right < nodeHeight left then
    match left with
    | .leaf _ => .error .heightInvariant
    | .branch _ _ children _ =>
        match h : splitLast children with
        | .error problem => .error problem
        | .ok (front, boundaryChild) => do
            let boundary ← concatNodes boundaryChild right
            partitionNodes (front ++ boundary)
  else
    match right with
    | .leaf _ => .error .heightInvariant
    | .branch _ _ [] _ => .error .branchInvariant
    | .branch _ _ (boundaryChild :: suffix) _ => do
        let boundary ← concatNodes left boundaryChild
        partitionNodes (boundary ++ suffix)
termination_by sizeOf left + sizeOf right
decreasing_by
  · exact Nat.add_lt_add_right (sizeOf_last_lt h) _
  · simp only [Node.branch.sizeOf_spec, List.cons.sizeOf_spec]
    omega

def buildSameHeight : List (Node α) → Except RrbError (Option (Node α))
  | [] => .ok none
  | first :: rest => do
      let parent ← mkBranch (first :: rest)
      .ok (some parent)

def splitNode (position : Nat) (node : Node α) :
    Except RrbError (Option (Node α) × Option (Node α)) :=
  if position = 0 then .ok (none, some node)
  else if position = nodeCount node then .ok (some node, none)
  else
    match node with
    | .leaf values => do
        let left ← leafFromList (values.take position)
        let right ← leafFromList (values.drop position)
        .ok (some left, some right)
    | .branch count height children sizes => do
        let (childIndex, before) ← findChild position (.branch count height children sizes)
        match h : children[childIndex]? with
        | none => .error .arrayIndex
        | some child => do
            let (childLeft, childRight) ← splitNode (position - before) child
            let left ← buildSameHeight (children.take childIndex ++ childLeft.toList)
            let right ← buildSameHeight (childRight.toList ++ children.drop (childIndex + 1))
            .ok (left, right)
termination_by sizeOf node
decreasing_by exact sizeOf_child_lt h

/-- A root with one child only is not kept. -/
def fromNode : Node α → RrbVector α
  | .branch _ _ [only] _ => fromNode only
  | node => ⟨some node⟩

def fromRoot : Option (Node α) → RrbVector α
  | none => ⟨none⟩
  | some root => fromNode root

def fromRoots : List (Node α) → Except RrbError (RrbVector α)
  | [] => .ok ⟨none⟩
  | [root] => .ok (fromRoot (some root))
  | first :: second :: rest => do
      let parent ← mkBranch (first :: second :: rest)
      .ok (fromRoot (some parent))

end RrbVector

end Durable7.FingerTree
