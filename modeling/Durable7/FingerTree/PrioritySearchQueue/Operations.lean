import Durable7.Foundation.Cuts

/-!
# Operations on priority search queues

A search tree by key that is balanced by heights.  A node remembers the winner of its subtree, the
entry of the least priority, and of the least key among these.
-/

namespace Durable7.FingerTree

open Foundation

structure PrioritySearchQueue.PrioritySearchEntry (k p v : Type) where
  entryKey : k
  entryPriority : p
  entryValue : v

/-- A node of the source, or no node. -/
inductive PrioritySearchQueue.Node (k p v : Type) where
  | nothing
  | just (nodeCount nodeHeight : Nat)
      (nodeEntry nodeWinner : PrioritySearchQueue.PrioritySearchEntry k p v)
      (nodeLeft nodeRight : PrioritySearchQueue.Node k p v)

structure PrioritySearchQueue (k p v : Type) where
  root : PrioritySearchQueue.Node k p v

namespace PrioritySearchQueue

variable {k p v : Type}

/-! ## Nodes -/

def countOf : Node k p v → Nat
  | .nothing => 0
  | .just nodeCount _ _ _ _ _ => nodeCount

def heightOf : Node k p v → Nat
  | .nothing => 0
  | .just _ nodeHeight _ _ _ _ => nodeHeight

def winnerOf : Node k p v → Option (PrioritySearchEntry k p v)
  | .nothing => none
  | .just _ _ _ nodeWinner _ _ => some nodeWinner

def nodeList : Node k p v → List (PrioritySearchEntry k p v) → List (PrioritySearchEntry k p v)
  | .nothing, tailValues => tailValues
  | .just _ _ entry _ left right, tailValues => nodeList left (entry :: nodeList right tailValues)

def leaf (entry : PrioritySearchEntry k p v) : Node k p v := .just 1 1 entry entry .nothing .nothing

def minimumKeyNode (entry : PrioritySearchEntry k p v) : Node k p v → PrioritySearchEntry k p v
  | .nothing => entry
  | .just _ _ first _ left _ => minimumKeyNode first left

section Search

variable [Ord k]

def lookupNode (key : k) : Node k p v → Option (PrioritySearchEntry k p v)
  | .nothing => none
  | .just _ _ entry _ left right =>
      match compare key entry.entryKey with
      | .lt => lookupNode key left
      | .gt => lookupNode key right
      | .eq => some entry

def boundRank (upper : Bool) (key : k) : Nat → Node k p v → Nat
  | rank, .nothing => rank
  | rank, .just _ _ entry _ left right =>
      match compare entry.entryKey key with
      | .lt => boundRank upper key (rank + countOf left + 1) right
      | .eq =>
          if upper then boundRank upper key (rank + countOf left + 1) right
          else boundRank upper key rank left
      | .gt => boundRank upper key rank left

end Search

def indexNode : Nat → Node k p v → Option (PrioritySearchEntry k p v)
  | _, .nothing => none
  | remaining, .just _ _ entry _ left right =>
      if remaining < countOf left then indexNode remaining left
      else if remaining = countOf left then some entry
      else indexNode (remaining - countOf left - 1) right

section Balance

variable [Ord k] [Ord p]

def entryBefore (left right : PrioritySearchEntry k p v) : Bool :=
  compare left.entryPriority right.entryPriority == .lt ||
    (compare left.entryPriority right.entryPriority == .eq &&
      compare left.entryKey right.entryKey == .lt)

def choose (candidate : Option (PrioritySearchEntry k p v)) (current : PrioritySearchEntry k p v) :
    PrioritySearchEntry k p v :=
  match candidate with
  | none => current
  | some candidate => if entryBefore candidate current then candidate else current

def chooseWinner (entry : PrioritySearchEntry k p v)
    (left right : Option (PrioritySearchEntry k p v)) : PrioritySearchEntry k p v :=
  choose right (choose left entry)

def mkNode (entry : PrioritySearchEntry k p v) (left right : Node k p v) : Node k p v :=
  .just (1 + countOf left + countOf right) (1 + max (heightOf left) (heightOf right)) entry
    (chooseWinner entry (winnerOf left) (winnerOf right)) left right

def rotateLeft (entry : PrioritySearchEntry k p v) (left : Node k p v) : Node k p v → Node k p v
  | .just _ _ pivot _ pivotLeft pivotRight => mkNode pivot (mkNode entry left pivotLeft) pivotRight
  | .nothing => mkNode entry left .nothing

def rotateRight (entry : PrioritySearchEntry k p v) (left right : Node k p v) : Node k p v :=
  match left with
  | .just _ _ pivot _ pivotLeft pivotRight => mkNode pivot pivotLeft (mkNode entry pivotRight right)
  | .nothing => mkNode entry .nothing right

def balanceNode (entry : PrioritySearchEntry k p v) (left right : Node k p v) : Node k p v :=
  let factor : Int := heightOf left - heightOf right
  if factor > 1 then
    match left with
    | .just _ _ leftEntry _ leftLeft leftRight =>
        if heightOf leftLeft < heightOf leftRight then
          rotateRight entry (rotateLeft leftEntry leftLeft leftRight) right
        else rotateRight entry left right
    | .nothing => mkNode entry left right
  else if factor < -1 then
    match right with
    | .just _ _ rightEntry _ rightLeft rightRight =>
        if heightOf rightRight < heightOf rightLeft then
          rotateLeft entry left (rotateRight rightEntry rightLeft rightRight)
        else rotateLeft entry left right
    | .nothing => mkNode entry left right
  else mkNode entry left right

/-- The node, whether an entry was added, and whether anything changed.  The identity of two
values is not tested on its own, since it implies their equality. -/
def setNode [BEq v] (overwrite : Bool) (entry : PrioritySearchEntry k p v) :
    Node k p v → Node k p v × Bool × Bool
  | .nothing => (leaf entry, true, true)
  | .just count height stored winner left right =>
      match compare entry.entryKey stored.entryKey with
      | .lt =>
          let (next, added, changed) := setNode overwrite entry left
          if changed then (balanceNode stored next right, added, true)
          else (.just count height stored winner left right, added, false)
      | .gt =>
          let (next, added, changed) := setNode overwrite entry right
          if changed then (balanceNode stored left next, added, true)
          else (.just count height stored winner left right, added, false)
      | .eq =>
          if !overwrite then (.just count height stored winner left right, false, false)
          else if compare entry.entryPriority stored.entryPriority == .eq &&
              entry.entryValue == stored.entryValue then
            (.just count height stored winner left right, false, false)
          else
            (mkNode ⟨stored.entryKey, entry.entryPriority, entry.entryValue⟩ left right, false,
              true)

def deleteNode (key : k) : Node k p v → Node k p v × Option (PrioritySearchEntry k p v)
  | .nothing => (.nothing, none)
  | .just count height entry winner left right =>
      match compare key entry.entryKey with
      | .lt =>
          match deleteNode key left with
          | (_, none) => (.just count height entry winner left right, none)
          | (rest, some removed) => (balanceNode entry rest right, some removed)
      | .gt =>
          match deleteNode key right with
          | (_, none) => (.just count height entry winner left right, none)
          | (rest, some removed) => (balanceNode entry left rest, some removed)
      | .eq =>
          match left, right with
          | .nothing, _ => (right, some entry)
          | _, .nothing => (left, some entry)
          | _, .just _ _ first _ firstLeft _ =>
              let successor := minimumKeyNode first firstLeft
              let (rest, _) := deleteNode successor.entryKey right
              (balanceNode successor left rest, some entry)

def atMostNode (minimumKey maximumKey : k) (maximumPriority : p) :
    Node k p v → List (PrioritySearchEntry k p v) → List (PrioritySearchEntry k p v)
  | .nothing, tailValues => tailValues
  | .just _ _ entry winner left right, tailValues =>
      if compare winner.entryPriority maximumPriority = .gt then tailValues
      else if compare entry.entryKey minimumKey = .lt then
        atMostNode minimumKey maximumKey maximumPriority right tailValues
      else if compare entry.entryKey maximumKey = .gt then
        atMostNode minimumKey maximumKey maximumPriority left tailValues
      else
        let rest := atMostNode minimumKey maximumKey maximumPriority right tailValues
        atMostNode minimumKey maximumKey maximumPriority left
          (if compare entry.entryPriority maximumPriority ≠ .gt then entry :: rest else rest)

end Balance

/-! ## Queues -/

def empty : PrioritySearchQueue k p v := ⟨.nothing⟩

def count (queue : PrioritySearchQueue k p v) : Nat := countOf queue.root

def height (queue : PrioritySearchQueue k p v) : Nat := heightOf queue.root

def toAscList (queue : PrioritySearchQueue k p v) : List (PrioritySearchEntry k p v) :=
  nodeList queue.root []

def minimumEntry (queue : PrioritySearchQueue k p v) : Option (PrioritySearchEntry k p v) :=
  winnerOf queue.root

def cursorIndex (position : Int) (queue : PrioritySearchQueue k p v) :
    Option (PrioritySearchEntry k p v) :=
  if position < 0 then none else indexNode position.toNat queue.root

section Keyed

variable [Ord k]

def lookup (key : k) (queue : PrioritySearchQueue k p v) : Option (PrioritySearchEntry k p v) :=
  lookupNode key queue.root

def member (key : k) (queue : PrioritySearchQueue k p v) : Bool := (lookup key queue).isSome

def cursorBoundRank (upper : Bool) (key : k) (queue : PrioritySearchQueue k p v) : Nat :=
  boundRank upper key 0 queue.root

variable [Ord p]

def setItem [BEq v] (key : k) (priority : p) (value : v) (queue : PrioritySearchQueue k p v) :
    PrioritySearchQueue k p v :=
  ⟨(setNode true ⟨key, priority, value⟩ queue.root).1⟩

def insertNew [BEq v] (key : k) (priority : p) (value : v) (queue : PrioritySearchQueue k p v) :
    Option (PrioritySearchQueue k p v) :=
  let (updated, added, _) := setNode false ⟨key, priority, value⟩ queue.root
  if added then some ⟨updated⟩ else none

def deleteLookup (key : k) (queue : PrioritySearchQueue k p v) :
    Option (PrioritySearchEntry k p v) × PrioritySearchQueue k p v :=
  match deleteNode key queue.root with
  | (_, none) => (none, queue)
  | (updated, some removed) => (some removed, ⟨updated⟩)

def delete (key : k) (queue : PrioritySearchQueue k p v) : PrioritySearchQueue k p v :=
  (deleteLookup key queue).2

def minView (queue : PrioritySearchQueue k p v) :
    Option (PrioritySearchEntry k p v × PrioritySearchQueue k p v) :=
  match minimumEntry queue with
  | none => none
  | some winner =>
      match deleteLookup winner.entryKey queue with
      | (some entry, remaining) => some (entry, remaining)
      | (none, _) => none

def enumerateAtMost (minimumKey maximumKey : k) (maximumPriority : p)
    (queue : PrioritySearchQueue k p v) : Option (List (PrioritySearchEntry k p v)) :=
  if compare minimumKey maximumKey = .gt then none
  else some (atMostNode minimumKey maximumKey maximumPriority queue.root [])

end Keyed

structure PrioritySearchQueueStatistics where
  count : Nat
  height : Nat
  maximumAbsoluteBalance : Nat

structure Validated (k p v : Type) where
  count : Nat
  height : Nat
  winner : PrioritySearchEntry k p v
  maximumBalance : Nat

section Validation

variable [Ord k] [Ord p] [BEq v]

def sameEntry (left right : PrioritySearchEntry k p v) : Bool :=
  compare left.entryKey right.entryKey == .eq &&
    compare left.entryPriority right.entryPriority == .eq && left.entryValue == right.entryValue

/-- What a node validates to, and nothing in the place of no node. -/
def validateNode (lower upper : Option k) : Node k p v → Option (Option (Validated k p v))
  | .nothing => some none
  | .just count height entry winner left right =>
      if lower.any fun bound => compare entry.entryKey bound != .gt then none
      else if upper.any fun bound => compare entry.entryKey bound != .lt then none
      else do
        let left ← validateNode lower (some entry.entryKey) left
        let right ← validateNode (some entry.entryKey) upper right
        let leftHeight := left.elim 0 Validated.height
        let rightHeight := right.elim 0 Validated.height
        let expectedCount := 1 + left.elim 0 Validated.count + right.elim 0 Validated.count
        let expectedHeight := 1 + max leftHeight rightHeight
        let balance : Int := leftHeight - rightHeight
        let expectedWinner :=
          chooseWinner entry (left.map Validated.winner) (right.map Validated.winner)
        let maximumBalance := max (max balance.natAbs (left.elim 0 Validated.maximumBalance))
          (right.elim 0 Validated.maximumBalance)
        if balance.natAbs > 1 ∨ count ≠ expectedCount ∨ height ≠ expectedHeight ∨
            sameEntry winner expectedWinner = false then none
        else some (some ⟨expectedCount, expectedHeight, expectedWinner, maximumBalance⟩)

def validateStructure (queue : PrioritySearchQueue k p v) : Option PrioritySearchQueueStatistics :=
  match validateNode none none queue.root with
  | none => none
  | some none => some ⟨0, 0, 0⟩
  | some (some validated) =>
      if validated.count ≠ count queue ∨ validated.height ≠ height queue then none
      else some ⟨validated.count, validated.height, validated.maximumBalance⟩

end Validation

/-! ## Cursors -/

structure PrioritySearchQueueCursor (k p v : Type) where
  queue : PrioritySearchQueue k p v
  position : Int

def peekPrevious (cursor : PrioritySearchQueueCursor k p v) : Option (PrioritySearchEntry k p v) :=
  cursorIndex (cursor.position - 1) cursor.queue

def peekNext (cursor : PrioritySearchQueueCursor k p v) : Option (PrioritySearchEntry k p v) :=
  cursorIndex cursor.position cursor.queue

section CursorEdits

variable [Ord k]

variable [Ord p]

/-- Whether an entry came in, and the cursor at its place. -/
def cursorTryInsert [BEq v] (key : k) (priority : p) (value : v)
    (cursor : PrioritySearchQueueCursor k p v) : Bool × PrioritySearchQueueCursor k p v :=
  let lower : Int := cursorBoundRank false key cursor.queue
  match insertNew key priority value cursor.queue with
  | some updated => (true, ⟨updated, lower + 1⟩)
  | none => (false, ⟨cursor.queue, lower⟩)

def cursorSetItem [BEq v] (key : k) (priority : p) (value : v)
    (cursor : PrioritySearchQueueCursor k p v) : PrioritySearchQueueCursor k p v :=
  let lower : Int := cursorBoundRank false key cursor.queue
  ⟨setItem key priority value cursor.queue, lower + if member key cursor.queue then 0 else 1⟩

def cursorSetNext [BEq v] (priority : p) (value : v) (cursor : PrioritySearchQueueCursor k p v) :
    Option (PrioritySearchQueueCursor k p v) :=
  (peekNext cursor).map fun entry =>
    ⟨setItem entry.entryKey priority value cursor.queue, cursor.position⟩

def cursorDeletePrevious (cursor : PrioritySearchQueueCursor k p v) :
    Option (PrioritySearchQueueCursor k p v) :=
  (peekPrevious cursor).map fun entry => ⟨delete entry.entryKey cursor.queue, cursor.position - 1⟩

def cursorDeleteNext (cursor : PrioritySearchQueueCursor k p v) :
    Option (PrioritySearchQueueCursor k p v) :=
  (peekNext cursor).map fun entry => ⟨delete entry.entryKey cursor.queue, cursor.position⟩

end CursorEdits

end PrioritySearchQueue

end Durable7.FingerTree

/-!
## Balanced nodes with their winners

Every count, height and winner of a valid node is exact, and the heights of two siblings differ by
at most one.  A rotation brings a difference of two back.
-/

namespace Durable7.FingerTree.PrioritySearchQueue

open Foundation List Nat

variable {k p v : Type}

def entriesOf : Node k p v → List (PrioritySearchEntry k p v)
  | .nothing => []
  | .just _ _ entry _ left right => entriesOf left ++ entry :: entriesOf right

theorem nodeList_eq (node : Node k p v) (tailValues : List (PrioritySearchEntry k p v)) :
    nodeList node tailValues = entriesOf node ++ tailValues := by
  induction node generalizing tailValues with
  | nothing => rfl
  | just count height entry winner left right ihLeft ihRight =>
      rw [nodeList, ihLeft, ihRight, entriesOf, append_assoc]
      rfl

theorem toAscList_eq (queue : PrioritySearchQueue k p v) :
    toAscList queue = entriesOf queue.root := by
  rw [toAscList, nodeList_eq, append_nil]

variable [Ord k] [Ord p]

inductive Valid : Node k p v → Prop where
  | nothing : Valid .nothing
  | just {count height : Nat} {entry winner : PrioritySearchEntry k p v} {left right : Node k p v}
      (hleft : Valid left) (hright : Valid right)
      (hcount : count = 1 + countOf left + countOf right)
      (hheight : height = 1 + max (heightOf left) (heightOf right))
      (hwinner : winner = chooseWinner entry (winnerOf left) (winnerOf right))
      (hrightLow : heightOf left ≤ heightOf right + 1)
      (hleftLow : heightOf right ≤ heightOf left + 1) :
      Valid (.just count height entry winner left right)

theorem Valid.countOf_eq {node : Node k p v} (h : Valid node) :
    countOf node = (entriesOf node).length := by
  induction h with
  | nothing => rfl
  | just hleft hright hcount _ _ _ _ ihLeft ihRight =>
      rw [countOf, hcount, entriesOf, length_append, length_cons, ihLeft, ihRight]
      omega

/-! ### Rotations -/

section Rotations

variable {entry : PrioritySearchEntry k p v} {left right : Node k p v}

omit [Ord k] [Ord p] in
theorem heightOf_just {count height : Nat} {winner : PrioritySearchEntry k p v} :
    heightOf (.just count height entry winner left right) = height := rfl

theorem heightOf_mkNode :
    heightOf (mkNode entry left right) = 1 + max (heightOf left) (heightOf right) := rfl

theorem entriesOf_mkNode :
    entriesOf (mkNode entry left right) = entriesOf left ++ entry :: entriesOf right := rfl

theorem mkNode_valid (hleft : Valid left) (hright : Valid right)
    (hrightLow : heightOf left ≤ heightOf right + 1)
    (hleftLow : heightOf right ≤ heightOf left + 1) : Valid (mkNode entry left right) :=
  .just hleft hright rfl rfl rfl hrightLow hleftLow

theorem leaf_valid (entry : PrioritySearchEntry k p v) : Valid (leaf entry) :=
  mkNode_valid .nothing .nothing (zero_le _) (zero_le _)

theorem entriesOf_rotateLeft :
    entriesOf (rotateLeft entry left right) = entriesOf left ++ entry :: entriesOf right := by
  cases right with
  | nothing => rfl
  | just _ _ pivot _ pivotLeft pivotRight =>
      rw [rotateLeft, entriesOf_mkNode, entriesOf_mkNode, entriesOf, append_assoc]
      rfl

theorem entriesOf_rotateRight :
    entriesOf (rotateRight entry left right) = entriesOf left ++ entry :: entriesOf right := by
  cases left with
  | nothing => rfl
  | just _ _ pivot _ pivotLeft pivotRight =>
      rw [rotateRight, entriesOf_mkNode, entriesOf_mkNode, entriesOf, append_assoc]
      rfl

theorem entriesOf_balanceNode :
    entriesOf (balanceNode entry left right) = entriesOf left ++ entry :: entriesOf right := by
  unfold balanceNode
  dsimp only
  split
  · cases left with
    | nothing => rfl
    | just _ _ leftEntry _ leftLeft leftRight =>
        dsimp only
        split
        · rw [entriesOf_rotateRight, entriesOf_rotateLeft]
          rfl
        · exact entriesOf_rotateRight
  · split
    · cases right with
      | nothing => rfl
      | just _ _ rightEntry _ rightLeft rightRight =>
          dsimp only
          split
          · rw [entriesOf_rotateLeft, entriesOf_rotateRight]
            rfl
          · exact entriesOf_rotateLeft
    · rfl

/-- A balanced node over two nodes that may be one edit apart. -/
structure Balances (node left right : Node k p v) : Prop where
  valid : Valid node
  height_ge : max (heightOf left) (heightOf right) ≤ heightOf node
  height_le : heightOf node ≤ 1 + max (heightOf left) (heightOf right)
  height_eq : heightOf node = 1 + max (heightOf left) (heightOf right) ∨
    heightOf right + 1 < heightOf left ∨ heightOf left + 1 < heightOf right

variable {pivot winner : PrioritySearchEntry k p v}

section

variable (hleft : Valid left) (hright : Valid right) (hgap : heightOf left = heightOf right + 2)
  {count height : Nat}
include hleft hright hgap

theorem rotateRight_single {pivotLeft pivotRight : Node k p v}
    (hpivot : left = .just count height pivot winner pivotLeft pivotRight)
    (houter : heightOf pivotRight ≤ heightOf pivotLeft) :
    Balances (rotateRight entry left right) left right := by
  subst hpivot
  cases hleft with
  | just hpivotLeft hpivotRight _ hheight _ hrightLow hleftLow =>
      rw [heightOf, hheight] at hgap
      have hinner : Valid (mkNode entry pivotRight right) :=
        mkNode_valid hpivotRight hright (by omega) (by omega)
      refine ⟨mkNode_valid hpivotLeft hinner ?_ ?_, ?_, ?_, ?_⟩ <;>
        simp only [rotateRight, heightOf_mkNode, heightOf_just] <;> omega

theorem rotateRight_double
    {leftEntry winner : PrioritySearchEntry k p v} {leftLeft leftRight : Node k p v}
    (hpivot : left = .just count height leftEntry winner leftLeft leftRight)
    (hinner : heightOf leftLeft < heightOf leftRight) :
    Balances (rotateRight entry (rotateLeft leftEntry leftLeft leftRight) right) left right := by
  subst hpivot
  cases hleft with
  | just hleftLeft hleftRight _ hheight _ hrightLow hleftLow =>
      rw [heightOf, hheight] at hgap
      cases hleftRight with
      | nothing => exact absurd hinner (not_lt_zero _)
      | just hpivotLeft hpivotRight _ hpivotHeight _ hpivotRightLow hpivotLeftLow =>
          simp only [heightOf_just] at hheight hgap hinner hrightLow hleftLow
          have hfirst : Valid (mkNode leftEntry leftLeft _) :=
            mkNode_valid hleftLeft hpivotLeft (by omega) (by omega)
          have hsecond : Valid (mkNode entry _ right) :=
            mkNode_valid hpivotRight hright (by omega) (by omega)
          change Balances (mkNode _ (mkNode leftEntry leftLeft _) (mkNode entry _ right)) _ _
          refine ⟨mkNode_valid hfirst hsecond ?_ ?_, ?_, ?_, ?_⟩ <;>
            simp only [heightOf_mkNode, heightOf_just] <;> omega

end

section

variable (hleft : Valid left) (hright : Valid right) (hgap : heightOf right = heightOf left + 2)
  {count height : Nat}
include hleft hright hgap

theorem rotateLeft_single {pivotLeft pivotRight : Node k p v}
    (hpivot : right = .just count height pivot winner pivotLeft pivotRight)
    (houter : heightOf pivotLeft ≤ heightOf pivotRight) :
    Balances (rotateLeft entry left right) left right := by
  subst hpivot
  cases hright with
  | just hpivotLeft hpivotRight _ hheight _ hrightLow hleftLow =>
      rw [heightOf, hheight] at hgap
      have hinner : Valid (mkNode entry left pivotLeft) :=
        mkNode_valid hleft hpivotLeft (by omega) (by omega)
      refine ⟨mkNode_valid hinner hpivotRight ?_ ?_, ?_, ?_, ?_⟩ <;>
        simp only [rotateLeft, heightOf_mkNode, heightOf_just] <;> omega

theorem rotateLeft_double
    {rightEntry winner : PrioritySearchEntry k p v} {rightLeft rightRight : Node k p v}
    (hpivot : right = .just count height rightEntry winner rightLeft rightRight)
    (hinner : heightOf rightRight < heightOf rightLeft) :
    Balances (rotateLeft entry left (rotateRight rightEntry rightLeft rightRight)) left right := by
  subst hpivot
  cases hright with
  | just hrightLeft hrightRight _ hheight _ hrightLow hleftLow =>
      rw [heightOf, hheight] at hgap
      cases hrightLeft with
      | nothing => exact absurd hinner (not_lt_zero _)
      | just hpivotLeft hpivotRight _ hpivotHeight _ hpivotRightLow hpivotLeftLow =>
          simp only [heightOf_just] at hheight hgap hinner hrightLow hleftLow
          have hfirst : Valid (mkNode entry left _) :=
            mkNode_valid hleft hpivotLeft (by omega) (by omega)
          have hsecond : Valid (mkNode rightEntry _ rightRight) :=
            mkNode_valid hpivotRight hrightRight (by omega) (by omega)
          change Balances (mkNode _ (mkNode entry left _) (mkNode rightEntry _ rightRight)) _ _
          refine ⟨mkNode_valid hfirst hsecond ?_ ?_, ?_, ?_, ?_⟩ <;>
            simp only [heightOf_mkNode, heightOf_just] <;> omega

end

theorem balanceNode_balances (entry : PrioritySearchEntry k p v) (hleft : Valid left)
    (hright : Valid right) (hrightLow : heightOf left ≤ heightOf right + 2)
    (hleftLow : heightOf right ≤ heightOf left + 2) :
    Balances (balanceNode entry left right) left right := by
  unfold balanceNode
  dsimp only
  split
  · rename_i hfactor
    have hgap : heightOf left = heightOf right + 2 := by omega
    cases left with
    | nothing =>
        rw [heightOf] at hgap
        omega
    | just _ _ leftEntry _ leftLeft leftRight =>
        dsimp only
        split
        · rename_i hinner
          exact rotateRight_double hleft hright hgap rfl hinner
        · rename_i houter
          exact rotateRight_single hleft hright hgap rfl (not_lt.mp houter)
  · split
    · rename_i hfactor
      have hgap : heightOf right = heightOf left + 2 := by omega
      cases right with
      | nothing =>
          rw [heightOf] at hgap
          omega
      | just _ _ rightEntry _ rightLeft rightRight =>
          dsimp only
          split
          · rename_i hinner
            exact rotateLeft_double hleft hright hgap rfl hinner
          · rename_i houter
            exact rotateLeft_single hleft hright hgap rfl (not_lt.mp houter)
    · refine ⟨mkNode_valid hleft hright (by omega) (by omega), ?_, ?_, ?_⟩ <;>
        rw [heightOf_mkNode] <;> omega

end Rotations

end Durable7.FingerTree.PrioritySearchQueue
