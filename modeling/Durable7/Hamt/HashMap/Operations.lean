import Durable7.Hamt.HashMap.Node

/-!
# Structural set algebra and comparison

Two tries are walked together, slot by slot.  A leaf or a bucket that faces a branch
stands in the one slot its hash selects.
-/

namespace Durable7.Hamt.HashMap

section

open Foundation Nat

universe z

variable {k : Type} {v : Type z}

def isEmptyNode : Node k v → Bool
  | .emptyNode => true
  | _ => false

def isHashNode : Node k v → Bool
  | .leaf _ _ _ => true
  | .collision _ _ _ => true
  | _ => false

/-- Only a leaf and a bucket have one full hash.  Elsewhere the source calls `error`. -/
def hashNodeHash : Node k v → BitVec 32
  | .leaf hashValue _ _ => hashValue
  | .collision _ hashValue _ => hashValue
  | _ => 0#32

def logicalSlot (node : Node k v) (index shift : Nat) : Node k v :=
  match node with
  | .emptyNode => .emptyNode
  | .leaf hashValue key value =>
      if hashIndex hashValue shift = index then .leaf hashValue key value else .emptyNode
  | .collision count hashValue entries =>
      if hashIndex hashValue shift = index then .collision count hashValue entries else .emptyNode
  | .branch _ dataMap nodeMap payloads children =>
      let selectedBit := 1#32 <<< index
      if dataMap &&& selectedBit ≠ 0#32 then
        match payloads[childIndex dataMap selectedBit]? with
        | none => .emptyNode
        | some (hashValue, key, value) => .leaf hashValue key value
      else if nodeMap &&& selectedBit ≠ 0#32 then
        children[childIndex nodeMap selectedBit]?.getD .emptyNode
      else .emptyNode

def nodesMatch [BEq v] (identity : Identity k v) (hashPolicy : HashPolicy k)
    (expected actual : Node k v) : Bool :=
  if identity.nodes expected actual then true
  else
    match expected, actual with
    | .leaf leftHash leftKey leftValue, .leaf rightHash rightKey rightValue =>
        leftHash == rightHash && hashPolicy.equalKeys leftKey rightKey &&
          valuesEqual identity leftValue rightValue
    | .emptyNode, .emptyNode => true
    | _, _ => false

def logicalSlotsMatch [BEq v] (identity : Identity k v) (hashPolicy : HashPolicy k) (shift : Nat)
    (original : Node k v) (slots : List (Node k v)) : Bool :=
  ((List.range 32).zip slots).all fun slot =>
    nodesMatch identity hashPolicy (logicalSlot original slot.1 shift) slot.2

/-- The parts of a branch while its slots are added in order, the lists in reverse. -/
structure BranchParts (k : Type) (v : Type z) where
  index : Nat
  dataMap : BitVec 32
  nodeMap : BitVec 32
  payloads : List (BitVec 32 × k × v)
  children : List (Node k v)

def addSlot (parts : BranchParts k v) (node : Node k v) : BranchParts k v :=
  let selectedBit := 1#32 <<< parts.index
  match node with
  | .emptyNode => { parts with index := parts.index + 1 }
  | .leaf hashValue key value =>
      { parts with
        index := parts.index + 1
        dataMap := parts.dataMap ||| selectedBit
        payloads := (hashValue, key, value) :: parts.payloads }
  | node =>
      { parts with
        index := parts.index + 1
        nodeMap := parts.nodeMap ||| selectedBit
        children := node :: parts.children }

def buildLogicalNode [BEq v] (identity : Identity k v) (hashPolicy : HashPolicy k) (shift : Nat)
    (original : Node k v) (slots : List (Node k v)) : Node k v :=
  if logicalSlotsMatch identity hashPolicy shift original slots then original
  else
    let parts := slots.foldl addSlot ⟨0, 0#32, 0#32, [], []⟩
    normalizeBranch parts.dataMap parts.nodeMap parts.payloads.reverse parts.children.reverse

/-! ## Set algebra -/

inductive CombineOperation where
  | combineUnion
  | combineIntersection
  | combineDifference
  | combineSymmetricDifference
  deriving DecidableEq

def findEquivalentEntry (hashPolicy : HashPolicy k) (key : k) (entries : List (k × v)) :
    Option (k × v) :=
  entries.find? fun entry => hashPolicy.equalKeys key entry.1

def combineLeft [BEq v] (identity : Identity k v) (hashPolicy : HashPolicy k)
    (operation : CombineOperation) (rightEntries : List (k × v)) (entry : k × v) :
    List (k × v) :=
  match findEquivalentEntry hashPolicy entry.1 rightEntries with
  | some (_, rightValue) =>
      match operation with
      | .combineUnion =>
          [(entry.1, if valuesEqual identity entry.2 rightValue then entry.2 else rightValue)]
      | .combineIntersection => [entry]
      | .combineDifference => []
      | .combineSymmetricDifference => []
  | none =>
      match operation with
      | .combineIntersection => []
      | _ => [entry]

def combineHashEntries [BEq v] (identity : Identity k v) (hashPolicy : HashPolicy k)
    (operation : CombineOperation) (leftEntries rightEntries : List (k × v)) : List (k × v) :=
  leftEntries.flatMap (combineLeft identity hashPolicy operation rightEntries) ++
    if operation = .combineUnion ∨ operation = .combineSymmetricDifference then
      rightEntries.filter fun entry =>
        !leftEntries.any fun other => hashPolicy.equalKeys entry.1 other.1
    else []

def entriesMatch [BEq v] (identity : Identity k v) (hashPolicy : HashPolicy k)
    (left right : List (k × v)) : Bool :=
  left.length == right.length &&
    (left.zip right).all fun pair =>
      hashPolicy.equalKeys pair.1.1 pair.2.1 && valuesEqual identity pair.1.2 pair.2.2

def combineHashNodes [BEq v] (identity : Identity k v) (hashPolicy : HashPolicy k)
    (operation : CombineOperation) (shift : Nat) (left right : Node k v) : Node k v :=
  let leftHash := hashNodeHash left
  let rightHash := hashNodeHash right
  if leftHash ≠ rightHash then
    match operation with
    | .combineIntersection => .emptyNode
    | .combineDifference => left
    | _ =>
        let leftIndex := hashIndex leftHash shift
        let rightIndex := hashIndex rightHash shift
        let emptySlots := List.replicate 32 .emptyNode
        -- Distinct hashes that exhaust every level are an error of the source.
        if shift ≥ hashBits then left
        else if leftIndex ≠ rightIndex then
          buildLogicalNode identity hashPolicy shift left
            (replaceAt rightIndex right (replaceAt leftIndex left emptySlots))
        else
          buildLogicalNode identity hashPolicy shift left
            (replaceAt leftIndex (combineHashNodes identity hashPolicy operation
              (shift + bitsPerLevel) left right) emptySlots)
  else
    let resultEntries :=
      combineHashEntries identity hashPolicy operation (nodeEntries left) (nodeEntries right)
    if entriesMatch identity hashPolicy (nodeEntries left) resultEntries then left
    else entriesToNode leftHash resultEntries
termination_by hashBits - shift
decreasing_by
  rw [bitsPerLevel]
  omega

theorem sizeOf_logicalSlot_le (node : Node k v) (index shift : Nat) :
    sizeOf (logicalSlot node index shift) ≤ sizeOf node ∧
      (isHashNode node = false → ¬isEmptyNode node = true →
        sizeOf (logicalSlot node index shift) < sizeOf node) := by
  cases node with
  | emptyNode => exact ⟨le_refl _, fun _ h => absurd rfl h⟩
  | leaf hashValue key value =>
      refine ⟨?_, by simp [isHashNode]⟩
      rw [logicalSlot]
      split
      · exact le_refl _
      · simp
  | collision count hashValue entries =>
      refine ⟨?_, by simp [isHashNode]⟩
      rw [logicalSlot]
      split
      · exact le_refl _
      · simp
        omega
  | branch count dataMap nodeMap payloads children =>
      have hlt :
          sizeOf (logicalSlot (.branch count dataMap nodeMap payloads children) index shift) <
          sizeOf (Node.branch count dataMap nodeMap payloads children) := by
        rw [logicalSlot]
        split
        · split
          · simp
            omega
          · rename_i hpayload
            have := List.sizeOf_lt_of_mem (List.mem_of_getElem? hpayload)
            simp at this ⊢
            omega
        · split
          · cases hchild : children[childIndex nodeMap (1#32 <<< index)]? with
            | none =>
                simp
                omega
            | some child => exact sizeOf_child_lt hchild
          · simp
            omega
      exact ⟨le_of_lt hlt, fun _ _ => hlt⟩

theorem sizeOf_logicalSlots_lt {left right : Node k v} (hleft : ¬isEmptyNode left = true)
    (hright : ¬isEmptyNode right = true)
    (hnodes : ¬(isHashNode left = true ∧ isHashNode right = true)) (index shift : Nat) :
    sizeOf (logicalSlot left index shift) + sizeOf (logicalSlot right index shift) <
      sizeOf left + sizeOf right := by
  obtain ⟨hleftLe, hleftLt⟩ := sizeOf_logicalSlot_le left index shift
  obtain ⟨hrightLe, hrightLt⟩ := sizeOf_logicalSlot_le right index shift
  cases hleftNode : isHashNode left with
  | false =>
      have := hleftLt hleftNode hleft
      omega
  | true =>
      cases hrightNode : isHashNode right with
      | false =>
          have := hrightLt hrightNode hright
          omega
      | true => exact absurd ⟨hleftNode, hrightNode⟩ hnodes

def combineNodes [BEq v] (identity : Identity k v) (hashPolicy : HashPolicy k)
    (operation : CombineOperation) (shift : Nat) (left right : Node k v) : Node k v :=
  if identity.nodes left right then
    match operation with
    | .combineUnion => left
    | .combineIntersection => left
    | .combineDifference => .emptyNode
    | .combineSymmetricDifference => .emptyNode
  else if _ : isEmptyNode left = true then
    match operation with
    | .combineUnion => right
    | .combineIntersection => .emptyNode
    | .combineDifference => .emptyNode
    | .combineSymmetricDifference => right
  else if _ : isEmptyNode right = true then
    match operation with
    | .combineIntersection => .emptyNode
    | _ => left
  else if _ : isHashNode left = true ∧ isHashNode right = true then
    combineHashNodes identity hashPolicy operation shift left right
  else
    buildLogicalNode identity hashPolicy shift left
      ((List.range 32).map fun index =>
        combineNodes identity hashPolicy operation (shift + bitsPerLevel)
          (logicalSlot left index shift) (logicalSlot right index shift))
termination_by sizeOf left + sizeOf right
decreasing_by
  exact sizeOf_logicalSlots_lt ‹_› ‹_› ‹¬(isHashNode left = true ∧ isHashNode right = true)› index
    shift

end

/-!
## Operations on hash maps
-/

section

variable {k : Type} {v : Type z}

def emptyWith (hashPolicy : HashPolicy k) : HashMap k v := ⟨hashPolicy, 0, .emptyNode⟩

def toList (map : HashMap k v) : List (k × v) :=
  foldrNode (fun entry rest => entry :: rest) [] map.root

def lookup (key : k) (map : HashMap k v) : Option v :=
  lookupNode map.policy (hashFor map.policy key) key 0 map.root

def member (key : k) (map : HashMap k v) : Bool := (lookup key map).isSome

def actualKey (key : k) (map : HashMap k v) : Option k :=
  actualKeyNode map.policy (hashFor map.policy key) key 0 map.root

def insert (key : k) (value : v) (map : HashMap k v) : HashMap k v :=
  match insertNode map.policy false (hashFor map.policy key) key value 0 map.root with
  | .inserted root => { map with size := map.size + 1, root := root }
  | .replaced root => { map with root := root }
  | .duplicate => map

def insertNew (key : k) (value : v) (map : HashMap k v) : Option (HashMap k v) :=
  match insertNode map.policy true (hashFor map.policy key) key value 0 map.root with
  | .inserted root => some { map with size := map.size + 1, root := root }
  | .replaced root => some { map with root := root }
  | .duplicate => none

def fromListWith (hashPolicy : HashPolicy k) (entries : List (k × v)) : HashMap k v :=
  entries.foldl (fun map entry => insert entry.1 entry.2 map) (emptyWith hashPolicy)

def tryRemove (key : k) (map : HashMap k v) : Option (v × HashMap k v) :=
  match removeNode map.policy (hashFor map.policy key) key 0 map.root with
  | .missing => none
  | .removed root value => some (value, { map with size := map.size - 1, root := root })

def delete (key : k) (map : HashMap k v) : HashMap k v :=
  match tryRemove key map with
  | some (_, rest) => rest
  | none => map

def adjust (updater : v → v) (key : k) (map : HashMap k v) : HashMap k v :=
  match adjustNode map.policy updater (hashFor map.policy key) key 0 map.root with
  | .notFound => map
  | .adjusted root => { map with root := root }

section Factories

variable {m : Type z → Type z} [Monad m]

def applyFactoryUpdate (valueEquality : v → v → Bool) (key : k) (addFactory : k → m v)
    (updateFactory : Option (k → v → m v)) (map : HashMap k v) : m (HashMap k v × v) :=
  let hashValue := hashFor map.policy key
  match map.root with
  | .emptyNode => do
      let selected ← addFactory key
      pure ({ map with size := map.size + 1, root := .leaf hashValue key selected }, selected)
  | root => do
      let result ← factoryUpdateNode valueEquality map.policy addFactory updateFactory hashValue
        key 0 root
      match result with
      | .factoryUnchanged selected => pure (map, selected)
      | .factoryChanged added root' selected =>
          pure ({ map with size := map.size + (if added then 1 else 0), root := root' }, selected)

end Factories

/-- Without an update factory no stored value is compared. -/
def unusedValueEquality (_ _ : v) : Bool := false

def getOrAdd (key : k) (addFactory : k → v) (map : HashMap k v) : HashMap k v × v :=
  Id.run (applyFactoryUpdate unusedValueEquality key (fun caller => pure (addFactory caller)) none
    map)

def addOrUpdate [BEq v] (identity : Identity k v) (key : k) (addFactory : k → v)
    (updateFactory : k → v → v) (map : HashMap k v) : HashMap k v × v :=
  Id.run (applyFactoryUpdate (valuesEqual identity) key (fun caller => pure (addFactory caller))
    (some fun caller stored => pure (updateFactory caller stored)) map)

def addOrUpdateEither {ε : Type} [BEq v] (identity : Identity k v) (key : k)
    (addFactory : k → Except ε v) (updateFactory : k → v → Except ε v) (map : HashMap k v) :
    Except ε (HashMap k v × v) :=
  applyFactoryUpdate (valuesEqual identity) key addFactory (some updateFactory) map

def combineMaps [BEq v] (identity : Identity k v) (operation : CombineOperation)
    (left right : HashMap k v) : HashMap k v :=
  let fromRoot := fun root => (⟨left.policy, nodeCardinality root, root⟩ : HashMap k v)
  if identity.nodes left.root right.root then
    fromRoot (match operation with
      | .combineUnion => left.root
      | .combineIntersection => left.root
      | .combineDifference => .emptyNode
      | .combineSymmetricDifference => .emptyNode)
  else if identity.policies left.policy right.policy then
    fromRoot (combineNodes identity left.policy operation 0 left.root right.root)
  else
    let normalizedRight := fromListWith left.policy (nodeEntries right.root)
    fromRoot (combineNodes identity left.policy operation 0 left.root normalizedRight.root)

def union [BEq v] (identity : Identity k v) : HashMap k v → HashMap k v → HashMap k v :=
  combineMaps identity .combineUnion

def intersection [BEq v] (identity : Identity k v) : HashMap k v → HashMap k v → HashMap k v :=
  combineMaps identity .combineIntersection

def difference [BEq v] (identity : Identity k v) : HashMap k v → HashMap k v → HashMap k v :=
  combineMaps identity .combineDifference

def symmetricDifference [BEq v] (identity : Identity k v) :
    HashMap k v → HashMap k v → HashMap k v :=
  combineMaps identity .combineSymmetricDifference

end

/-!
## Structural checks

`validStructure` checks the bitmaps, the routes of the hashes and the cached counts.
`sameTopology` compares two tries without their values.
-/

section

open Foundation

universe z

variable {k : Type} {v w : Type z}

def bitmapSlots (bitmap : BitVec 32) : List Nat :=
  (List.range 32).filter fun slot => bitmap &&& 1#32 <<< slot ≠ 0#32

def hashHasPrefix (entryHash hashPrefix prefixMask : BitVec 32) : Bool :=
  entryHash &&& prefixMask == hashPrefix

def nextPrefixMask (shift : Nat) : BitVec 32 :=
  if shift ≥ 27 then BitVec.allOnes 32 else 1#32 <<< (shift + 5) - 1#32

def slotPrefix (shift : Nat) (hashPrefix : BitVec 32) (slot : Nat) : BitVec 32 :=
  hashPrefix ||| BitVec.ofNat 32 slot <<< shift

def payloadRoutesTo (shift : Nat) (hashPrefix : BitVec 32) (slot : Nat)
    (payload : BitVec 32 × k × v) : Bool :=
  hashHasPrefix payload.1 (slotPrefix shift hashPrefix slot) (nextPrefixMask shift)

def invalidTerminalSlot (shift slot : Nat) : Bool := shift == 30 && decide (slot > 3)

def singleBranch : List (Node k v) → Bool
  | [.branch _ _ _ _ _] => true
  | _ => false

mutual

def nodeCountIfValid (shift : Nat) (hashPrefix prefixMask : BitVec 32) : Node k v → Option Nat
  | .emptyNode => some 0
  | .leaf entryHash _ _ => if hashHasPrefix entryHash hashPrefix prefixMask then some 1 else none
  | .collision cachedCount entryHash entries =>
      if entries.length ≥ 2 ∧ cachedCount = entries.length ∧
          hashHasPrefix entryHash hashPrefix prefixMask = true then
        some cachedCount
      else none
  | .branch cachedCount dataMap nodeMap payloads children =>
      if shift > 30 then none
      else if dataMap &&& nodeMap ≠ 0#32 then none
      else if dataMap = 0#32 ∧ nodeMap = 0#32 then none
      else if popCount dataMap ≠ payloads.length then none
      else if popCount nodeMap ≠ children.length then none
      else if children.any isLeaf = true then none
      else if payloads.length + children.length < 2 ∧
          ¬(payloads.isEmpty = true ∧ singleBranch children = true) then
        none
      else if (bitmapSlots dataMap ++ bitmapSlots nodeMap).any (invalidTerminalSlot shift) =
        true then
        none
      else if ((bitmapSlots dataMap).zip payloads).all
          (fun routed => payloadRoutesTo shift hashPrefix routed.1 routed.2) = false then
        none
      else
        match childCounts shift hashPrefix (bitmapSlots nodeMap) children with
        | none => none
        | some counts =>
            if cachedCount = payloads.length + counts.sum then some cachedCount else none

def childCounts (shift : Nat) (hashPrefix : BitVec 32) :
    List Nat → List (Node k v) → Option (List Nat)
  | _, [] => some []
  | [], _ :: _ => some []
  | slot :: slots, child :: children =>
      match nodeCountIfValid (shift + 5) (slotPrefix shift hashPrefix slot) (nextPrefixMask shift)
        child with
      | none => none
      | some count => (childCounts shift hashPrefix slots children).map fun counts =>
          count :: counts

end

def validStructure (map : HashMap k v) : Bool :=
  nodeCountIfValid 0 0#32 0#32 map.root == some map.size

mutual

def sameNodeTopology (hashPolicy : HashPolicy k) : Node k v → Node k w → Bool
  | .emptyNode, .emptyNode => true
  | .leaf leftHash _ _, .leaf rightHash _ _ => leftHash == rightHash
  | .collision _ leftHash leftEntries, .collision _ rightHash rightEntries =>
      leftHash == rightHash && leftEntries.length == rightEntries.length &&
        leftEntries.all fun entry =>
          rightEntries.any fun other => hashPolicy.equalKeys entry.1 other.1
  | .branch _ leftDataMap leftNodeMap leftPayloads leftChildren,
      .branch _ rightDataMap rightNodeMap rightPayloads rightChildren =>
      leftDataMap == rightDataMap && leftNodeMap == rightNodeMap &&
        leftPayloads.map Prod.fst == rightPayloads.map Prod.fst &&
        leftChildren.length == rightChildren.length &&
        sameTopologies hashPolicy leftChildren rightChildren
  | _, _ => false

def sameTopologies (hashPolicy : HashPolicy k) : List (Node k v) → List (Node k w) → Bool
  | left :: lefts, right :: rights =>
      sameNodeTopology hashPolicy left right && sameTopologies hashPolicy lefts rights
  | _, _ => true

end

def sameTopology (left : HashMap k v) (right : HashMap k w) : Bool :=
  sameNodeTopology left.policy left.root right.root

end

/-!
## Equality and difference of hash maps

Maps under one policy are walked together and shared nodes are skipped.  Maps under
two policies are compared by lookups.
-/

variable {k : Type} {v : Type z}

def nodeOccupiedBitmap (node : Node k v) (shift : Nat) : BitVec 32 :=
  match node with
  | .emptyNode => 0#32
  | .leaf hashValue _ _ => bitFor hashValue shift
  | .collision _ hashValue _ => bitFor hashValue shift
  | .branch _ dataMap nodeMap _ _ => dataMap ||| nodeMap

/-- The slots of a node in the order in which its entries are listed. -/
def nodeTraversalSlots (node : Node k v) (shift : Nat) : List Nat :=
  match node with
  | .emptyNode => []
  | .leaf hashValue _ _ => [hashIndex hashValue shift]
  | .collision _ hashValue _ => [hashIndex hashValue shift]
  | .branch _ dataMap nodeMap _ _ => bitmapSlots dataMap ++ bitmapSlots nodeMap

def occupiedSlots (left right : Node k v) (shift : Nat) : List Nat :=
  bitmapSlots (nodeOccupiedBitmap left shift ||| nodeOccupiedBitmap right shift)

def hashEntriesEqual [BEq v] (identity : Identity k v) (hashPolicy : HashPolicy k)
    (leftEntries rightEntries : List (k × v)) : Bool :=
  leftEntries.length == rightEntries.length &&
    leftEntries.all fun entry =>
      match findEquivalentEntry hashPolicy entry.1 rightEntries with
      | some (_, rightValue) => valuesEqual identity entry.2 rightValue
      | none => false

def nodesEqual [BEq v] (identity : Identity k v) (hashPolicy : HashPolicy k) (shift : Nat)
    (left right : Node k v) : Bool :=
  if identity.nodes left right then true
  else if nodeCardinality left ≠ nodeCardinality right then false
  else if isEmptyNode left && isEmptyNode right then true
  else if isHashNode left && isHashNode right then
    hashNodeHash left == hashNodeHash right &&
      hashEntriesEqual identity hashPolicy (nodeEntries left) (nodeEntries right)
  else if shift < hashBits then
    (occupiedSlots left right shift).all fun slot =>
      nodesEqual identity hashPolicy (shift + bitsPerLevel) (logicalSlot left slot shift)
        (logicalSlot right slot shift)
  else false
termination_by hashBits - shift
decreasing_by
  rw [bitsPerLevel]
  omega

def mapEquals [BEq v] (identity : Identity k v) (left right : HashMap k v) : Bool :=
  if identity.nodes left.root right.root then true
  else if left.size ≠ right.size then false
  else if identity.policies left.policy right.policy then
    nodesEqual identity right.policy 0 left.root right.root
  else
    (nodeEntries left.root).all fun entry =>
      match lookup entry.1 right with
      | some value => valuesEqual identity entry.2 value
      | none => false

/-! #### Difference -/

inductive MapDifference (k : Type) (v : Type z) where
  | entryAdded (key : k) (value : v)
  | entryRemoved (key : k) (value : v)
  | entryChanged (key : k) (before after : v)
  deriving DecidableEq

def removals (entries : List (k × v)) : List (MapDifference k v) :=
  entries.map fun entry => .entryRemoved entry.1 entry.2

def additions (entries : List (k × v)) : List (MapDifference k v) :=
  entries.map fun entry => .entryAdded entry.1 entry.2

def diffHashEntries [BEq v] (identity : Identity k v) (hashPolicy : HashPolicy k)
    (leftEntries rightEntries : List (k × v)) :
    List (MapDifference k v) × List (MapDifference k v) :=
  (leftEntries.flatMap fun entry =>
    match findEquivalentEntry hashPolicy entry.1 rightEntries with
    | none => [.entryRemoved entry.1 entry.2]
    | some (_, rightValue) =>
        if valuesEqual identity entry.2 rightValue then []
        else [.entryChanged entry.1 entry.2 rightValue],
  rightEntries.flatMap fun entry =>
    match findEquivalentEntry hashPolicy entry.1 leftEntries with
    | none => [.entryAdded entry.1 entry.2]
    | some _ => [])

def diffHashNodes [BEq v] (identity : Identity k v) (hashPolicy : HashPolicy k)
    (left right : Node k v) : List (MapDifference k v) × List (MapDifference k v) :=
  if hashNodeHash left = hashNodeHash right then
    diffHashEntries identity hashPolicy (nodeEntries left) (nodeEntries right)
  else (removals (nodeEntries left), additions (nodeEntries right))

/-- The result of one slot.  A slot without a result is an error of the source. -/
def resultFor (slotResults : List (Nat × List (MapDifference k v) × List (MapDifference k v)))
    (slot : Nat) : List (MapDifference k v) × List (MapDifference k v) :=
  match slotResults.find? fun entry => entry.1 == slot with
  | some (_, result) => result
  | none => ([], [])

def diffNodes [BEq v] (identity : Identity k v) (hashPolicy : HashPolicy k) (shift : Nat)
    (left right : Node k v) : List (MapDifference k v) × List (MapDifference k v) :=
  if identity.nodes left right then ([], [])
  else if isEmptyNode left then ([], additions (nodeEntries right))
  else if isEmptyNode right then (removals (nodeEntries left), [])
  else if isHashNode left && isHashNode right then diffHashNodes identity hashPolicy left right
  else if shift < hashBits then
    let slotResults := (occupiedSlots left right shift).map fun slot =>
      (slot, diffNodes identity hashPolicy (shift + bitsPerLevel) (logicalSlot left slot shift)
        (logicalSlot right slot shift))
    ((nodeTraversalSlots left shift).flatMap fun slot => (resultFor slotResults slot).1,
      (nodeTraversalSlots right shift).flatMap fun slot => (resultFor slotResults slot).2)
  else diffHashEntries identity hashPolicy (nodeEntries left) (nodeEntries right)
termination_by hashBits - shift
decreasing_by
  rw [bitsPerLevel]
  omega

def semanticRemovedOrChanged [BEq v] (identity : Identity k v) (left right : HashMap k v) :
    List (MapDifference k v) :=
  (toList left).flatMap fun entry =>
    match lookup entry.1 right with
    | none => [.entryRemoved entry.1 entry.2]
    | some after =>
        if !valuesEqual identity entry.2 after then [.entryChanged entry.1 entry.2 after]
        else []

def semanticAdded (left right : HashMap k v) : List (MapDifference k v) :=
  ((toList right).filter fun entry => !member entry.1 left).map fun entry =>
    .entryAdded entry.1 entry.2

def diff [BEq v] (identity : Identity k v) (left right : HashMap k v) : List (MapDifference k v) :=
  if identity.nodes left.root right.root then []
  else if identity.policies left.policy right.policy then
    let result := diffNodes identity right.policy 0 left.root right.root
    result.1 ++ result.2
  else semanticRemovedOrChanged identity left right ++ semanticAdded left right

end Durable7.Hamt.HashMap
