import Durable7.Foundation.Interleave
import Durable7.Foundation.Keyed
import Durable7.Hamt.MerkleEncoding
import Mathlib.Data.List.TakeWhile

/-!
# Blocks of a Merkle search tree

A boxed Haskell array with indices `0 .. n - 1` is its list of elements.
Counts, heights, and block counts are natural numbers: `newNode` rejects every
count above `maxBound :: Int32`, so the source's 64-bit sums cannot wrap.
-/

namespace Durable7.Hamt

open Foundation

section

/-- One retained key/value representative and its canonical encodings. -/
structure MerkleEntry (k v : Type) where
  entryKey : k
  entryValue : v
  entryKeyBytes : ByteString
  entryValueBytes : ByteString
  entryLevel : UInt8

structure MerkleNode (k v : Type) where
  nodeLevel : UInt8
  nodeEntries : List (MerkleEntry k v)
  nodeChildren : List (Option (MerkleNode k v))
  nodeCount : Nat
  nodeHeight : Nat
  nodeBlockCount : Nat
  nodeMinimumKey : k
  nodeMaximumKey : k
  nodeBlockBytes : ByteString
  nodeDigest : MerkleDigest

structure MerkleSearchTree (k v : Type) where
  treeRoot : Option (MerkleNode k v)
  policy : MerkleSearchTreePolicy k v

inductive MerkleTreeError where
  | MerkleTreeCodecError (problem : MerkleCodecError)
  | MerkleTreeSizeOverflow
  | IncompatibleMerklePolicy
  | InvalidMerkleRepresentation (message : String)
  deriving DecidableEq

variable {k v : Type}

/-! ## Recursion into child intervals -/

namespace MerkleNode

/-- The subtree in one child interval, `nodeChildren node ! position`. -/
def child (node : MerkleNode k v) (position : Nat) : Option (MerkleNode k v) :=
  node.nodeChildren[position]?.join

def presentChildren (node : MerkleNode k v) : List (MerkleNode k v) :=
  node.nodeChildren.filterMap id

variable {node child : MerkleNode k v}

@[simp] theorem mem_presentChildren :
    child ∈ node.presentChildren ↔ some child ∈ node.nodeChildren := by
  simp [presentChildren]

theorem child_eq_some {position : Nat} (h : node.child position = some child) :
    some child ∈ node.nodeChildren := by
  rw [MerkleNode.child, Option.join_eq_some_iff] at h
  exact List.mem_of_getElem? h

theorem sizeOf_lt (h : some child ∈ node.nodeChildren) : sizeOf child < sizeOf node := by
  cases node
  have := List.sizeOf_lt_of_mem h
  simp only [Option.some.sizeOf_spec, MerkleNode.mk.sizeOf_spec] at this ⊢
  omega

theorem sizeOf_pos (node : MerkleNode k v) : 0 < sizeOf node := by
  cases node
  rw [MerkleNode.mk.sizeOf_spec]
  omega

theorem sizeOf_child_lt (node : MerkleNode k v) (position : Nat) :
    sizeOf (node.child position) < sizeOf (some node) := by
  cases h : node.child position with
  | none =>
      have := sizeOf_pos node
      rw [Option.none.sizeOf_spec, Option.some.sizeOf_spec]
      omega
  | some child =>
      have := sizeOf_lt (child_eq_some h)
      rw [Option.some.sizeOf_spec, Option.some.sizeOf_spec]
      omega

theorem childInduction {motive : MerkleNode k v → Prop}
    (step : ∀ node, (∀ child, some child ∈ node.nodeChildren → motive child) →
      motive node) (node : MerkleNode k v) : motive node :=
  step node fun child _ => childInduction step child
termination_by sizeOf node
decreasing_by exact sizeOf_lt ‹_›

end MerkleNode

def replaceAt {α : Type} (index : Nat) (value : α) (source : List α) : List α :=
  source.take index ++ [value] ++ source.drop (index + 1)

def insertAt {α : Type} (index : Nat) (value : α) (source : List α) : List α :=
  source.take index ++ [value] ++ source.drop index

def removeAt {α : Type} (index : Nat) (source : List α) : List α :=
  source.take index ++ source.drop (index + 1)

/-! ## Encoding and construction -/

def encodeEntryBytes (entry : ByteString × ByteString) : ByteString :=
  lengthBigEndian entry.1.length ++ entry.1 ++ lengthBigEndian entry.2.length ++ entry.2

/-- The `MST2` layout of a nonempty block. -/
def blockBytes (domain : MerkleDigest) (level : UInt8) (subtreeCount : Nat)
    (entries : List (ByteString × ByteString)) (children : List MerkleDigest) :
    ByteString :=
  blockMagic ++ [1] ++ domain.digestBytes ++ [level] ++
    lengthBigEndian subtreeCount ++ lengthBigEndian entries.length ++
    entries.flatMap encodeEntryBytes ++
    children.flatMap MerkleDigest.digestBytes

namespace MerkleEntry

def encoded (entry : MerkleEntry k v) : ByteString × ByteString :=
  (entry.entryKeyBytes, entry.entryValueBytes)

end MerkleEntry

/-- The address of a child interval: its block digest, or the empty digest. -/
def childDigest (policy : MerkleSearchTreePolicy k v)
    (child : Option (MerkleNode k v)) : MerkleDigest :=
  child.elim policy.merkleEmptyDigest MerkleNode.nodeDigest

def checkEntryLength (entry : MerkleEntry k v) : Except MerkleTreeError Unit :=
  if entry.entryKeyBytes.length > maxInt32 then .error .MerkleTreeSizeOverflow
  else if entry.entryValueBytes.length > maxInt32 then .error .MerkleTreeSizeOverflow
  else .ok ()

def encodeBlock (policy : MerkleSearchTreePolicy k v) (level : UInt8)
    (subtreeCount : Nat) (nodeEntryList : List (MerkleEntry k v))
    (childList : List (Option (MerkleNode k v))) :
    Except MerkleTreeError ByteString := do
  nodeEntryList.forM checkEntryLength
  .ok (blockBytes policy.merkleDomainDigest level subtreeCount
    (nodeEntryList.map MerkleEntry.encoded)
    (childList.map (childDigest policy)))

def newNode (policy : MerkleSearchTreePolicy k v) (level : UInt8)
    (nodeEntryList : List (MerkleEntry k v)) (childList : List (Option (MerkleNode k v))) :
    Except MerkleTreeError (MerkleNode k v) :=
  let presentChildren := childList.filterMap id
  if level > 64 ∨ nodeEntryList = [] ∨ childList.length ≠ nodeEntryList.length + 1 then
    .error (.InvalidMerkleRepresentation
      "an MST block must contain a valid level, entries, and one extra child interval")
  else if ∃ child ∈ presentChildren, child.nodeLevel ≥ level then
    .error (.InvalidMerkleRepresentation "an MST child level must be lower than its parent level")
  else
    let entryCount := nodeEntryList.length
    let count := entryCount + (presentChildren.map MerkleNode.nodeCount).sum
    let blockHeight := 1 + (presentChildren.map MerkleNode.nodeHeight).foldl max 0
    let blocks := 1 + (presentChildren.map MerkleNode.nodeBlockCount).sum
    if count > maxInt32 ∨ entryCount > maxInt32 then .error .MerkleTreeSizeOverflow
    else do
      let bytes ← encodeBlock policy level count nodeEntryList childList
      match nodeEntryList, childList, nodeEntryList.reverse, childList.reverse with
      | firstEntry :: _, firstChild :: _, lastEntry :: _, lastChild :: _ =>
          .ok {
            nodeLevel := level
            nodeEntries := nodeEntryList
            nodeChildren := childList
            nodeCount := count
            nodeHeight := blockHeight
            nodeBlockCount := blocks
            nodeMinimumKey := firstChild.elim firstEntry.entryKey MerkleNode.nodeMinimumKey
            nodeMaximumKey := lastChild.elim lastEntry.entryKey MerkleNode.nodeMaximumKey
            nodeBlockBytes := bytes
            nodeDigest := hashBytes bytes }
      | _, _, _, _ => .error (.InvalidMerkleRepresentation "an MST block cannot be empty")

/-- Drops a shell that has lost its last separator. -/
def createOrCollapse (policy : MerkleSearchTreePolicy k v) (level : UInt8)
    (nodeEntryList : List (MerkleEntry k v)) (childList : List (Option (MerkleNode k v))) :
    Except MerkleTreeError (Option (MerkleNode k v)) :=
  match nodeEntryList, childList with
  | [], [child] => .ok child
  | _, _ => some <$> newNode policy level nodeEntryList childList

def mapCodecError {α : Type} : Except MerkleCodecError α → Except MerkleTreeError α :=
  Except.mapError .MerkleTreeCodecError

def createEntry (policy : MerkleSearchTreePolicy k v) (key : k) (value : v) :
    Except MerkleTreeError (MerkleEntry k v) := do
  let keyBytes ← mapCodecError (policy.merkleKeyCodec.encodeMerkleValue key)
  let valueBytes ← mapCodecError (policy.merkleValueCodec.encodeMerkleValue value)
  let level := merkleLevel (hashMerkleKeyBytes policy keyBytes)
  .ok ⟨key, value, keyBytes, valueBytes, level⟩

/-- The ordering of an entry's key relative to a probed key. -/
def probeKey (policy : MerkleSearchTreePolicy k v) (key : k) (entry : MerkleEntry k v) : Ordering :=
  policy.compareMerkleKeys entry.entryKey key

def findPosition (policy : MerkleSearchTreePolicy k v)
    (entries : List (MerkleEntry k v)) (key : k) : Nat × Bool :=
  binarySearch (probeKey policy key) entries 0 entries.length (Nat.le_refl _)

def enumerateNode (node : MerkleNode k v) : List (MerkleEntry k v) :=
  interleave node.nodeEntries (node.nodeChildren.attach.map fun
    | ⟨none, _⟩ => []
    | ⟨some child, _⟩ => enumerateNode child)
termination_by sizeOf node
decreasing_by exact MerkleNode.sizeOf_lt ‹_›

/-- The entries below one child interval. -/
def enumerateChild (child : Option (MerkleNode k v)) : List (MerkleEntry k v) :=
  child.elim [] enumerateNode

theorem enumerateNode_eq (node : MerkleNode k v) :
    enumerateNode node = interleave node.nodeEntries (node.nodeChildren.map enumerateChild) := by
  rw [enumerateNode]
  congr 1
  conv_rhs => rw [← List.attach_map_subtype_val node.nodeChildren, List.map_map]
  refine List.map_congr_left fun child _ => ?_
  obtain ⟨child, hchild⟩ := child
  cases child <;> rfl

/-- The blocks of a subtree in preorder. -/
def nodePreorder (node : MerkleNode k v) : List (MerkleNode k v) :=
  node :: node.presentChildren.attach.flatMap fun
    | ⟨child, _⟩ => nodePreorder child
termination_by sizeOf node
decreasing_by exact MerkleNode.sizeOf_lt (MerkleNode.mem_presentChildren.mp ‹_›)

theorem nodePreorder_eq (node : MerkleNode k v) :
    nodePreorder node = node :: node.presentChildren.flatMap nodePreorder := by
  rw [nodePreorder]
  congr 1
  simp [List.flatMap]

end

/-!
## Operations of the Merkle search tree

The edits copy the affected path: insertion splits the subtree below the new
entry's level, deletion joins the two subtrees around the removed entry, and a
bulk build partitions the sorted entries by their hash-derived levels.
-/

open MerkleNode

variable {k v : Type}

/-! ### Bulk construction -/

def comparePending (policy : MerkleSearchTreePolicy k v) (left right : (k × v) × Nat) : Ordering :=
  match policy.compareMerkleKeys left.1.1 right.1.1 with
  | .eq => compare left.2 right.2
  | ordering => ordering

/-- First key and last value of every run of equivalent keys. -/
def groupPending (policy : MerkleSearchTreePolicy k v) : List ((k × v) × Nat) → List (k × v)
  | [] => []
  | ((firstKey, firstValue), _) :: rest =>
      let equivalentTo := fun item : (k × v) × Nat =>
        policy.compareMerkleKeys firstKey item.1.1 == .eq
      let equivalent := rest.takeWhile equivalentTo
      let remaining := rest.dropWhile equivalentTo
      let lastValue := equivalent.foldl (fun _ item => item.1.2) firstValue
      (firstKey, lastValue) :: groupPending policy remaining
termination_by pending => pending.length
decreasing_by exact Nat.lt_succ_of_le (List.length_dropWhile_le _ rest)

def maximumLevel (first : MerkleEntry k v) (rest : List (MerkleEntry k v)) : UInt8 :=
  rest.foldl (fun level entry => max level entry.entryLevel) first.entryLevel

theorem maximumLevel_mem (first : MerkleEntry k v) (rest : List (MerkleEntry k v)) :
    ∃ entry ∈ first :: rest, entry.entryLevel = maximumLevel first rest := by
  unfold maximumLevel
  induction rest generalizing first with
  | nil => exact ⟨first, by simp, rfl⟩
  | cons entry rest ih =>
      have hmax : max first.entryLevel entry.entryLevel =
          if first.entryLevel ≤ entry.entryLevel then entry.entryLevel
          else first.entryLevel := rfl
      rw [List.foldl_cons, hmax]
      split
      · obtain ⟨found, hfound, hlevel⟩ := ih entry
        exact ⟨found, List.mem_cons_of_mem _ hfound, hlevel⟩
      · obtain ⟨found, hfound, hlevel⟩ := ih first
        refine ⟨found, ?_, hlevel⟩
        rcases List.mem_cons.mp hfound with rfl | hrest
        · simp
        · simp [hrest]

mutual

def buildCanonical (policy : MerkleSearchTreePolicy k v) (source : List (MerkleEntry k v)) :
    Except MerkleTreeError (Option (MerkleNode k v)) :=
  match source with
  | [] => .ok none
  | first :: rest =>
      buildSegments policy (maximumLevel first rest) (first :: rest) [] []
        (.inr (maximumLevel_mem first rest))
termination_by 3 * source.length + 1

/--
Cuts the remaining entries at those of the maximum level.  The last argument
records that such an entry is still ahead or has already been passed, without
which the recursion would not descend.
-/
def buildSegments (policy : MerkleSearchTreePolicy k v) (maximum : UInt8)
    (remaining blockEntries : List (MerkleEntry k v)) (children : List (Option (MerkleNode k v)))
    (h : blockEntries ≠ [] ∨ ∃ entry ∈ remaining, entry.entryLevel = maximum) :
    Except MerkleTreeError (Option (MerkleNode k v)) := do
  let segment := remaining.takeWhile fun entry => entry.entryLevel != maximum
  let child ← buildCanonical policy segment
  match hsuffix : remaining.dropWhile fun entry => entry.entryLevel != maximum with
  | [] => some <$> newNode policy maximum blockEntries (children ++ [child])
  | separator :: rest =>
      buildSegments policy maximum rest (blockEntries ++ [separator])
        (children ++ [child]) (.inl (by simp))
termination_by 3 * remaining.length + if blockEntries = [] then 0 else 2
decreasing_by
  · have hle := (List.takeWhile_prefix (l := remaining)
      fun entry => entry.entryLevel != maximum).length_le
    by_cases hempty : blockEntries = []
    · obtain ⟨entry, hentry, hlevel⟩ := h.resolve_left (not_not.mpr hempty)
      have hlt : (remaining.takeWhile
          fun entry => entry.entryLevel != maximum).length < remaining.length := by
        refine lt_of_le_of_ne hle fun heq => ?_
        have hall := (List.takeWhile_prefix (l := remaining)
          fun entry => entry.entryLevel != maximum).eq_of_length heq
        have := List.mem_takeWhile_imp (hall ▸ hentry)
        simp [hlevel] at this
      simp only [hempty, if_true]
      omega
    · simp only [hempty, if_false]
      omega
  · have hle := List.length_dropWhile_le (fun entry => entry.entryLevel != maximum) remaining
    rw [hsuffix, List.length_cons] at hle
    have hne : blockEntries ++ [separator] ≠ [] := by simp
    simp only [hne, if_false]
    split <;> omega

end

def emptyTree (policy : MerkleSearchTreePolicy k v) : MerkleSearchTree k v := ⟨none, policy⟩

def fromList (source : List (k × v)) (policy : MerkleSearchTreePolicy k v) :
    Except MerkleTreeError (MerkleSearchTree k v) :=
  match source with
  | [] => .ok (emptyTree policy)
  | source => do
      let sorted := source.zipIdx.mergeSort
        fun left right => (comparePending policy left right).isLE
      let grouped := groupPending policy sorted
      let encoded ← grouped.mapM fun pair => createEntry policy pair.1 pair.2
      let root ← buildCanonical policy encoded
      .ok ⟨root, policy⟩

/-! ### Observations -/

namespace MerkleSearchTree

def size (tree : MerkleSearchTree k v) : Nat := tree.treeRoot.elim 0 nodeCount

def height (tree : MerkleSearchTree k v) : Nat := tree.treeRoot.elim 0 nodeHeight

def blockCount (tree : MerkleSearchTree k v) : Nat := tree.treeRoot.elim 0 nodeBlockCount

def rootDigest (tree : MerkleSearchTree k v) : MerkleDigest :=
  tree.treeRoot.elim tree.policy.merkleEmptyDigest nodeDigest

def entries (tree : MerkleSearchTree k v) : List (MerkleEntry k v) :=
  tree.treeRoot.elim [] enumerateNode

end MerkleSearchTree

def lookupNode (policy : MerkleSearchTreePolicy k v) (key : k) :
    Option (MerkleNode k v) → Option (MerkleEntry k v)
  | none => none
  | some node =>
      let (position, found) := findPosition policy node.nodeEntries key
      if found then node.nodeEntries[position]?
      else lookupNode policy key (node.child position)
termination_by node => sizeOf node
decreasing_by exact node.sizeOf_child_lt position

def lookupEntry (key : k) (tree : MerkleSearchTree k v) : Option (MerkleEntry k v) :=
  lookupNode tree.policy key tree.treeRoot

def lookup (key : k) (tree : MerkleSearchTree k v) : Option v :=
  (lookupEntry key tree).map MerkleEntry.entryValue

def member (key : k) (tree : MerkleSearchTree k v) : Bool := (lookupEntry key tree).isSome

def updateValue (policy : MerkleSearchTreePolicy k v) (node : MerkleNode k v)
    (key : k) (replacement : MerkleEntry k v) :
    Except MerkleTreeError (MerkleNode k v) :=
  let (position, found) := findPosition policy node.nodeEntries key
  if found then
    newNode policy node.nodeLevel
      (replaceAt position replacement node.nodeEntries) node.nodeChildren
  else
    match hchild : node.child position with
    | none => .error (.InvalidMerkleRepresentation
        "an existing key path ended at an empty interval")
    | some child => do
        let updated ← updateValue policy child key replacement
        newNode policy node.nodeLevel node.nodeEntries
          (replaceAt position (some updated) node.nodeChildren)
termination_by sizeOf node
decreasing_by exact sizeOf_lt (child_eq_some hchild)

def splitNode (policy : MerkleSearchTreePolicy k v) (key : k) :
    Option (MerkleNode k v) →
      Except MerkleTreeError (Option (MerkleNode k v) × Option (MerkleNode k v))
  | none => .ok (none, none)
  | some node => do
      let (position, _) := findPosition policy node.nodeEntries key
      let (childLeft, childRight) ← splitNode policy key (node.child position)
      let leftEntries := node.nodeEntries.take position
      let leftChildren := replaceAt position childLeft (node.nodeChildren.take (position + 1))
      let rightEntries := node.nodeEntries.drop position
      let rightChildren := replaceAt 0 childRight (node.nodeChildren.drop position)
      let left ← createOrCollapse policy node.nodeLevel leftEntries leftChildren
      let right ← createOrCollapse policy node.nodeLevel rightEntries rightChildren
      .ok (left, right)
termination_by node => sizeOf node
decreasing_by exact node.sizeOf_child_lt position

def insertNode (policy : MerkleSearchTreePolicy k v) (entry : MerkleEntry k v) :
    Option (MerkleNode k v) → Except MerkleTreeError (MerkleNode k v)
  | none => newNode policy entry.entryLevel [entry] [none, none]
  | some node =>
      if entry.entryLevel > node.nodeLevel then do
        let (left, right) ← splitNode policy entry.entryKey (some node)
        newNode policy entry.entryLevel [entry] [left, right]
      else if entry.entryLevel < node.nodeLevel then do
        let (position, _) := findPosition policy node.nodeEntries entry.entryKey
        let child ← insertNode policy entry (node.child position)
        newNode policy node.nodeLevel node.nodeEntries
          (replaceAt position (some child) node.nodeChildren)
      else do
        let (position, _) := findPosition policy node.nodeEntries entry.entryKey
        let (left, right) ← splitNode policy entry.entryKey (node.child position)
        let updatedEntries := insertAt position entry node.nodeEntries
        let updatedChildren := insertAt (position + 1) right
          (replaceAt position left node.nodeChildren)
        newNode policy node.nodeLevel updatedEntries updatedChildren
termination_by node => sizeOf node
decreasing_by exact node.sizeOf_child_lt position

def insert (key : k) (value : v) (tree : MerkleSearchTree k v) :
    Except MerkleTreeError (MerkleSearchTree k v) :=
  match lookupEntry key tree with
  | some existing => do
      let valueBytes ← mapCodecError (tree.policy.merkleValueCodec.encodeMerkleValue value)
      if existing.entryValueBytes = valueBytes then .ok tree
      else
        let replacement := { existing with entryValue := value, entryValueBytes := valueBytes }
        match tree.treeRoot with
        | none => .error (.InvalidMerkleRepresentation "an existing entry requires a root block")
        | some node => do
            let root ← updateValue tree.policy node key replacement
            .ok { tree with treeRoot := some root }
  | none => do
      let entry ← createEntry tree.policy key value
      let root ← insertNode tree.policy entry tree.treeRoot
      .ok { tree with treeRoot := some root }

def joinNodes (policy : MerkleSearchTreePolicy k v) :
    Option (MerkleNode k v) → Option (MerkleNode k v) →
      Except MerkleTreeError (Option (MerkleNode k v))
  | none, none => .ok none
  | some node, none => .ok (some node)
  | none, some node => .ok (some node)
  | some left, some right =>
      if left.nodeLevel > right.nodeLevel then do
        let lastIndex := left.nodeChildren.length - 1
        let joined ← joinNodes policy (left.child lastIndex) (some right)
        some <$> newNode policy left.nodeLevel left.nodeEntries
          (replaceAt lastIndex joined left.nodeChildren)
      else if left.nodeLevel < right.nodeLevel then do
        let joined ← joinNodes policy (some left) (right.child 0)
        some <$> newNode policy right.nodeLevel right.nodeEntries
          (replaceAt 0 joined right.nodeChildren)
      else do
        let middle ← joinNodes policy (left.child left.nodeEntries.length) (right.child 0)
        let children := left.nodeChildren.take left.nodeEntries.length ++
          [middle] ++ right.nodeChildren.drop 1
        some <$> newNode policy left.nodeLevel (left.nodeEntries ++ right.nodeEntries) children
termination_by left right => sizeOf left + sizeOf right
decreasing_by
  · exact Nat.add_lt_add_right (left.sizeOf_child_lt _) _
  · exact Nat.add_lt_add_left (right.sizeOf_child_lt 0) _
  · exact Nat.add_lt_add (left.sizeOf_child_lt _) (right.sizeOf_child_lt 0)

def removeNode (policy : MerkleSearchTreePolicy k v) (key : k) :
    Option (MerkleNode k v) → Except MerkleTreeError (Option (MerkleNode k v) × Bool)
  | none => .ok (none, false)
  | some node =>
      let (position, found) := findPosition policy node.nodeEntries key
      if ¬ found then do
        let (child, removed) ← removeNode policy key (node.child position)
        if ¬ removed then .ok (some node, false)
        else do
          let rebuilt ← newNode policy node.nodeLevel node.nodeEntries
            (replaceAt position child node.nodeChildren)
          .ok (some rebuilt, true)
      else do
        let joined ← joinNodes policy (node.child position) (node.child (position + 1))
        let updatedEntries := removeAt position node.nodeEntries
        let updatedChildren := removeAt (position + 1) (replaceAt position joined node.nodeChildren)
        let rebuilt ← createOrCollapse policy node.nodeLevel updatedEntries updatedChildren
        .ok (rebuilt, true)
termination_by node => sizeOf node
decreasing_by exact node.sizeOf_child_lt position

def delete (key : k) (tree : MerkleSearchTree k v) :
    Except MerkleTreeError (MerkleSearchTree k v) := do
  let (root, removed) ← removeNode tree.policy key tree.treeRoot
  .ok (if removed then { tree with treeRoot := root } else tree)

def clear (tree : MerkleSearchTree k v) : MerkleSearchTree k v :=
  if tree.size = 0 then tree else emptyTree tree.policy

/-! ### Ranges and blocks -/

structure MerkleBlockView where
  blockViewDigest : MerkleDigest
  blockViewBytes : ByteString
  deriving DecidableEq

/-- An inclusive range had reversed bounds. -/
structure MerkleRangeError where
  deriving DecidableEq

def inRange (policy : MerkleSearchTreePolicy k v) (minimumKey maximumKey : k)
    (entry : MerkleEntry k v) : Bool :=
  policy.compareMerkleKeys minimumKey entry.entryKey != .gt &&
    policy.compareMerkleKeys entry.entryKey maximumKey != .gt

/--
The in-order visit of a range: a block whose cached key interval misses the
range contributes nothing, and a separator appears only when it is in range.
-/
def visitRange (policy : MerkleSearchTreePolicy k v) (minimumKey maximumKey : k)
    (node : MerkleNode k v) : List (MerkleEntry k v) :=
  if policy.compareMerkleKeys node.nodeMaximumKey minimumKey = .lt then []
  else if policy.compareMerkleKeys node.nodeMinimumKey maximumKey = .gt then []
  else
    let visited := node.nodeChildren.attach.map fun
      | ⟨none, _⟩ => []
      | ⟨some child, _⟩ => visitRange policy minimumKey maximumKey child
    ((node.nodeEntries.zip visited).flatMap fun pair =>
      pair.2 ++ [pair.1].filter (inRange policy minimumKey maximumKey)) ++
      (visited[node.nodeEntries.length]?).getD []
termination_by sizeOf node
decreasing_by exact sizeOf_lt ‹_›

def range (minimumKey maximumKey : k) (tree : MerkleSearchTree k v) :
    Except MerkleRangeError (List (MerkleEntry k v)) :=
  if tree.policy.compareMerkleKeys minimumKey maximumKey = .gt then .error ⟨⟩
  else .ok (tree.treeRoot.elim [] (visitRange tree.policy minimumKey maximumKey))

namespace MerkleNode

def blockView (node : MerkleNode k v) : MerkleBlockView := ⟨node.nodeDigest, node.nodeBlockBytes⟩

end MerkleNode

/-- The blocks of a tree in canonical preorder. -/
def treePreorder (tree : MerkleSearchTree k v) : List (MerkleNode k v) :=
  tree.treeRoot.elim [] nodePreorder

def blocksPreorder (tree : MerkleSearchTree k v) : List MerkleBlockView :=
  (treePreorder tree).map blockView

/-- Trusted block detail for the persistence algorithms. -/
structure MerklePersistenceBlockView (k v : Type) where
  persistenceBlockDigest : MerkleDigest
  persistenceBlockBytes : ByteString
  persistenceBlockLevel : UInt8
  persistenceBlockSubtreeCount : Nat
  persistenceBlockEntries : List (MerkleEntry k v)
  persistenceBlockChildDigests : List MerkleDigest

def persistenceBlocksPreorder (tree : MerkleSearchTree k v) :
    List (MerklePersistenceBlockView k v) :=
  (treePreorder tree).map fun node => {
    persistenceBlockDigest := node.nodeDigest
    persistenceBlockBytes := node.nodeBlockBytes
    persistenceBlockLevel := node.nodeLevel
    persistenceBlockSubtreeCount := node.nodeCount
    persistenceBlockEntries := node.nodeEntries
    persistenceBlockChildDigests := node.nodeChildren.map (childDigest tree.policy) }

end Durable7.Hamt
