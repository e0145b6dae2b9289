import Durable7.Foundation.Bitmap

/-!
# Nodes of the CHAMP trie

A branch keeps its single entries inline and its larger parts in child nodes, each
behind a bitmap of 32 places.  Entries whose keys share all 32 hash bits lie in one
collision bucket.  Indexing a list past its end, an error in the source, gives the
result of an absent entry here.
-/

namespace Durable7.Hamt

open Foundation

universe z

structure HashPolicy (k : Type) where
  hashKey : k → Int
  equalKeys : k → k → Bool

inductive HashMap.Node (k : Type) (v : Type z) where
  | emptyNode
  | leaf (hash : BitVec 32) (key : k) (value : v)
  | collision (count : Nat) (hash : BitVec 32) (entries : List (k × v))
  | branch (count : Nat) (dataMap nodeMap : BitVec 32) (payloads : List (BitVec 32 × k × v))
      (children : List (HashMap.Node k v))

structure HashMap (k : Type) (v : Type z) where
  policy : HashPolicy k
  size : Nat
  root : HashMap.Node k v

namespace HashMap

variable {k : Type} {v : Type z}

def bitsPerLevel : Nat := 5

def hashBits : Nat := 32

def hashFor (hashPolicy : HashPolicy k) (key : k) : BitVec 32 :=
  BitVec.ofInt 32 (hashPolicy.hashKey key)

def hashIndex (hashValue : BitVec 32) (shift : Nat) : Nat :=
  ((hashValue >>> shift) &&& 0x1f#32).toNat

def bitFor (hashValue : BitVec 32) (shift : Nat) : BitVec 32 := 1#32 <<< hashIndex hashValue shift

def childIndex (bitmap bit : BitVec 32) : Nat := popCount (bitmap &&& (bit - 1#32))

section Lists

variable {α : Type z}

def replaceAt : Nat → α → List α → List α
  | 0, value, _ :: rest => value :: rest
  | index + 1, value, item :: rest => item :: replaceAt index value rest
  | _, _, [] => []

def insertAt : Nat → α → List α → List α
  | 0, value, values => value :: values
  | index + 1, value, item :: rest => item :: insertAt index value rest
  | _ + 1, value, [] => [value]

def removeAt : Nat → List α → List α
  | 0, _ :: rest => rest
  | index + 1, item :: rest => item :: removeAt index rest
  | _, [] => []

end Lists

def nodeCardinality : Node k v → Nat
  | .emptyNode => 0
  | .leaf _ _ _ => 1
  | .collision count _ _ => count
  | .branch count _ _ _ _ => count

mutual

def nodeEntries : Node k v → List (k × v)
  | .emptyNode => []
  | .leaf _ key value => [(key, value)]
  | .collision _ _ entries => entries
  | .branch _ _ _ payloads children =>
      payloads.map (fun payload => payload.2) ++ nodesEntries children

def nodesEntries : List (Node k v) → List (k × v)
  | [] => []
  | child :: children => nodeEntries child ++ nodesEntries children

end

section Folding

variable {β : Type z}

mutual

def foldrNode (folder : k × v → β → β) (seed : β) : Node k v → β
  | .emptyNode => seed
  | .leaf _ key value => folder (key, value) seed
  | .collision _ _ entries => entries.foldr folder seed
  | .branch _ _ _ payloads children =>
      payloads.foldr (fun payload rest => folder payload.2 rest) (foldrNodes folder seed children)

def foldrNodes (folder : k × v → β → β) (seed : β) : List (Node k v) → β
  | [] => seed
  | child :: children => foldrNode folder (foldrNodes folder seed children) child

end

end Folding

/-! ## Building nodes -/

def makeCollision (hashValue : BitVec 32) (entries : List (k × v)) : Node k v :=
  .collision entries.length hashValue entries

def makeBranchNode (dataMap nodeMap : BitVec 32) (payloads : List (BitVec 32 × k × v))
    (children : List (Node k v)) : Node k v :=
  .branch (payloads.length + (children.map nodeCardinality).sum) dataMap nodeMap payloads children

def entriesToNode (hashValue : BitVec 32) : List (k × v) → Node k v
  | [] => .emptyNode
  | [(key, value)] => .leaf hashValue key value
  | entries => makeCollision hashValue entries

def payload? : Node k v → Option (BitVec 32 × k × v)
  | .leaf hashValue key value => some (hashValue, key, value)
  | _ => none

def isLeaf : Node k v → Bool
  | .leaf _ _ _ => true
  | _ => false

def makeBranch (leftBit : BitVec 32) (leftNode : Node k v) (rightBit : BitVec 32)
    (rightNode : Node k v) : Node k v :=
  let slots :=
    if leftBit < rightBit then [(leftBit, leftNode), (rightBit, rightNode)]
    else [(rightBit, rightNode), (leftBit, leftNode)]
  let payloadSlots :=
    slots.filterMap fun slot => (payload? slot.2).map fun payload => (slot.1, payload)
  let nodeSlots := slots.filter fun slot => !isLeaf slot.2
  makeBranchNode (payloadSlots.foldr (fun slot bitmap => slot.1 ||| bitmap) 0#32)
    (nodeSlots.foldr (fun slot bitmap => slot.1 ||| bitmap) 0#32)
    (payloadSlots.map Prod.snd) (nodeSlots.map Prod.snd)

def mergeTwo (shift : Nat) (leftHash : BitVec 32) (leftNode : Node k v) (rightHash : BitVec 32)
    (rightNode : Node k v) : Node k v :=
  if leftHash = rightHash then
    makeCollision leftHash (nodeEntries leftNode ++ nodeEntries rightNode)
  else if shift ≥ hashBits then
    makeCollision leftHash (nodeEntries leftNode ++ nodeEntries rightNode)
  else if bitFor leftHash shift = bitFor rightHash shift then
    makeBranchNode 0#32 (bitFor leftHash shift) []
      [mergeTwo (shift + bitsPerLevel) leftHash leftNode rightHash rightNode]
  else makeBranch (bitFor leftHash shift) leftNode (bitFor rightHash shift) rightNode
termination_by hashBits - shift
decreasing_by
  rw [bitsPerLevel]
  omega

def normalizeBranch (dataMap nodeMap : BitVec 32) (payloads : List (BitVec 32 × k × v))
    (children : List (Node k v)) : Node k v :=
  if dataMap = 0#32 ∧ nodeMap = 0#32 then .emptyNode
  else
    match payloads, children with
    | [(hashValue, key, value)], [] =>
        if nodeMap = 0#32 then .leaf hashValue key value
        else makeBranchNode dataMap nodeMap payloads children
    | [], [.collision count hashValue entries] =>
        if dataMap = 0#32 then .collision count hashValue entries
        else makeBranchNode dataMap nodeMap payloads children
    | payloads, children => makeBranchNode dataMap nodeMap payloads children

def singletonPayload : Node k v → Option (BitVec 32 × k × v)
  | .leaf hashValue key value => some (hashValue, key, value)
  | .collision _ hashValue [(key, value)] => some (hashValue, key, value)
  | .branch _ _ nodeMap [payload] [] => if nodeMap = 0#32 then some payload else none
  | _ => none

theorem sizeOf_child_lt {children : List (Node k v)} {index count : Nat}
    {dataMap nodeMap : BitVec 32} {payloads : List (BitVec 32 × k × v)} {child : Node k v}
    (h : children[index]? = some child) :
    sizeOf child < sizeOf (Node.branch count dataMap nodeMap payloads children) := by
  have := List.sizeOf_lt_of_mem (List.mem_of_getElem? h)
  rw [Node.branch.sizeOf_spec]
  omega

section Search

variable {β : Type*} (select : k × v → β) (hashPolicy : HashPolicy k) (hashValue : BitVec 32)
  (key : k)

/-- What `select` shows of the entry of a key in a collision. -/
def searchCollision : List (k × v) → Option β
  | [] => none
  | entry :: rest =>
      if hashPolicy.equalKeys key entry.1 then some (select entry) else searchCollision rest

/-- What `select` shows of the entry of a key below a node. -/
def searchNode (shift : Nat) (node : Node k v) : Option β :=
  match node with
  | .emptyNode => none
  | .leaf leafHash leafKey value =>
      if hashValue = leafHash ∧ hashPolicy.equalKeys key leafKey = true then
        some (select (leafKey, value))
      else none
  | .collision _ collisionHash entries =>
      if hashValue = collisionHash then searchCollision select hashPolicy key entries else none
  | .branch _ dataMap nodeMap payloads children =>
      if dataMap &&& bitFor hashValue shift ≠ 0#32 then
        match payloads[childIndex dataMap (bitFor hashValue shift)]? with
        | none => none
        | some (_, entry) =>
            if hashPolicy.equalKeys key entry.1 then some (select entry) else none
      else if nodeMap &&& bitFor hashValue shift ≠ 0#32 then
        match h : children[childIndex nodeMap (bitFor hashValue shift)]? with
        | none => none
        | some child => searchNode (shift + bitsPerLevel) child
      else none
termination_by sizeOf node
decreasing_by exact sizeOf_child_lt h

def lookupCollision (entries : List (k × v)) : Option v :=
  searchCollision Prod.snd hashPolicy key entries

def lookupNode (shift : Nat) (node : Node k v) : Option v :=
  searchNode Prod.snd hashPolicy hashValue key shift node

def actualKeyCollision (entries : List (k × v)) : Option k :=
  searchCollision Prod.fst hashPolicy key entries

def actualKeyNode (shift : Nat) (node : Node k v) : Option k :=
  searchNode Prod.fst hashPolicy hashValue key shift node

end Search

inductive InsertResult (k : Type) (v : Type z) where
  | inserted (node : Node k v)
  | replaced (node : Node k v)
  | duplicate

inductive CollisionInsert (k : Type) (v : Type z) where
  | insertedEntries (entries : List (k × v))
  | replacedEntries (entries : List (k × v))
  | duplicateEntry

def insertCollision (hashPolicy : HashPolicy k) (addOnly : Bool) (key : k) (value : v) :
    List (k × v) → CollisionInsert k v
  | [] => .insertedEntries [(key, value)]
  | (candidate, oldValue) :: rest =>
      if hashPolicy.equalKeys key candidate then
        if addOnly then .duplicateEntry else .replacedEntries ((candidate, value) :: rest)
      else
        match insertCollision hashPolicy addOnly key value rest with
        | .insertedEntries entries => .insertedEntries ((candidate, oldValue) :: entries)
        | .replacedEntries entries => .replacedEntries ((candidate, oldValue) :: entries)
        | .duplicateEntry => .duplicateEntry

def insertNode (hashPolicy : HashPolicy k) (addOnly : Bool) (hashValue : BitVec 32) (key : k)
    (value : v) (shift : Nat) (node : Node k v) : InsertResult k v :=
  match node with
  | .emptyNode => .inserted (.leaf hashValue key value)
  | .leaf leafHash leafKey leafValue =>
      if hashValue = leafHash ∧ hashPolicy.equalKeys key leafKey = true then
        if addOnly then .duplicate else .replaced (.leaf leafHash leafKey value)
      else
        .inserted (mergeTwo shift leafHash (.leaf leafHash leafKey leafValue) hashValue
          (.leaf hashValue key value))
  | .collision _ collisionHash entries =>
      if hashValue = collisionHash then
        match insertCollision hashPolicy addOnly key value entries with
        | .insertedEntries entries' => .inserted (makeCollision collisionHash entries')
        | .replacedEntries entries' => .replaced (makeCollision collisionHash entries')
        | .duplicateEntry => .duplicate
      else
        .inserted (mergeTwo shift collisionHash (makeCollision collisionHash entries) hashValue
          (.leaf hashValue key value))
  | .branch _ dataMap nodeMap payloads children =>
      let bit := bitFor hashValue shift
      if dataMap &&& bit ≠ 0#32 then
        let dataIndex := childIndex dataMap bit
        match payloads[dataIndex]? with
        | none => .duplicate
        | some (leafHash, leafKey, leafValue) =>
            if hashValue = leafHash ∧ hashPolicy.equalKeys key leafKey = true then
              if addOnly then .duplicate
              else
                .replaced (makeBranchNode dataMap nodeMap
                  (replaceAt dataIndex (leafHash, leafKey, value) payloads) children)
            else
              let child := mergeTwo (shift + bitsPerLevel) leafHash
                (.leaf leafHash leafKey leafValue) hashValue (.leaf hashValue key value)
              .inserted (makeBranchNode (dataMap &&& ~~~bit) (nodeMap ||| bit)
                (removeAt dataIndex payloads) (insertAt (childIndex nodeMap bit) child children))
      else if nodeMap &&& bit ≠ 0#32 then
        let nodeIndex := childIndex nodeMap bit
        match h : children[nodeIndex]? with
        | none => .duplicate
        | some found =>
            match insertNode hashPolicy addOnly hashValue key value
              (shift + bitsPerLevel) found with
            | .inserted child =>
                .inserted (makeBranchNode dataMap nodeMap payloads
                  (replaceAt nodeIndex child children))
            | .replaced child =>
                .replaced (makeBranchNode dataMap nodeMap payloads
                  (replaceAt nodeIndex child children))
            | .duplicate => .duplicate
      else
        .inserted (makeBranchNode (dataMap ||| bit) nodeMap
          (insertAt (childIndex dataMap bit) (hashValue, key, value) payloads) children)
termination_by sizeOf node
decreasing_by exact sizeOf_child_lt h

inductive RemoveResult (k : Type) (v : Type z) where
  | missing
  | removed (node : Node k v) (value : v)

def removeCollision (hashPolicy : HashPolicy k) (key : k) : List (k × v) → Option (v × List (k × v))
  | [] => none
  | (candidate, value) :: rest =>
      if hashPolicy.equalKeys key candidate then some (value, rest)
      else
        match removeCollision hashPolicy key rest with
        | none => none
        | some (removed, remaining) => some (removed, (candidate, value) :: remaining)

def removeNode (hashPolicy : HashPolicy k) (hashValue : BitVec 32) (key : k) (shift : Nat)
    (node : Node k v) : RemoveResult k v :=
  match node with
  | .emptyNode => .missing
  | .leaf leafHash leafKey value =>
      if hashValue = leafHash ∧ hashPolicy.equalKeys key leafKey = true then
        .removed .emptyNode value
      else .missing
  | .collision _ collisionHash entries =>
      if hashValue ≠ collisionHash then .missing
      else
        match removeCollision hashPolicy key entries with
        | none => .missing
        | some (value, remaining) => .removed (entriesToNode collisionHash remaining) value
  | .branch _ dataMap nodeMap payloads children =>
      let bit := bitFor hashValue shift
      if dataMap &&& bit ≠ 0#32 then
        let index := childIndex dataMap bit
        match payloads[index]? with
        | none => .missing
        | some (leafHash, leafKey, value) =>
            if leafHash = hashValue ∧ hashPolicy.equalKeys key leafKey = true then
              .removed (normalizeBranch (dataMap &&& ~~~bit) nodeMap (removeAt index payloads)
                children) value
            else .missing
      else if nodeMap &&& bit = 0#32 then .missing
      else
        let index := childIndex nodeMap bit
        match h : children[index]? with
        | none => .missing
        | some found =>
            match removeNode hashPolicy hashValue key (shift + bitsPerLevel) found with
            | .missing => .missing
            | .removed .emptyNode value =>
                .removed (normalizeBranch dataMap (nodeMap &&& ~~~bit) payloads
                  (removeAt index children)) value
            | .removed child value =>
                match singletonPayload child with
                | some payload =>
                    .removed (normalizeBranch (dataMap ||| bit) (nodeMap &&& ~~~bit)
                      (insertAt (childIndex dataMap bit) payload payloads)
                      (removeAt index children)) value
                | none =>
                    .removed (normalizeBranch dataMap nodeMap payloads
                      (replaceAt index child children)) value
termination_by sizeOf node
decreasing_by exact sizeOf_child_lt h

inductive AdjustResult (k : Type) (v : Type z) where
  | notFound
  | adjusted (node : Node k v)

def adjustCollision (hashPolicy : HashPolicy k) (updater : v → v) (key : k) :
    List (k × v) → Option (List (k × v))
  | [] => none
  | (candidate, value) :: rest =>
      if hashPolicy.equalKeys key candidate then some ((candidate, updater value) :: rest)
      else
        (adjustCollision hashPolicy updater key rest).map fun entries =>
          (candidate, value) :: entries

def adjustNode (hashPolicy : HashPolicy k) (updater : v → v) (hashValue : BitVec 32) (key : k)
    (shift : Nat) (node : Node k v) : AdjustResult k v :=
  match node with
  | .emptyNode => .notFound
  | .leaf leafHash leafKey value =>
      if hashValue = leafHash ∧ hashPolicy.equalKeys key leafKey = true then
        .adjusted (.leaf leafHash leafKey (updater value))
      else .notFound
  | .collision _ collisionHash entries =>
      if hashValue ≠ collisionHash then .notFound
      else
        match adjustCollision hashPolicy updater key entries with
        | none => .notFound
        | some entries' => .adjusted (makeCollision collisionHash entries')
  | .branch _ dataMap nodeMap payloads children =>
      let bit := bitFor hashValue shift
      if dataMap &&& bit ≠ 0#32 then
        let index := childIndex dataMap bit
        match payloads[index]? with
        | none => .notFound
        | some (leafHash, leafKey, value) =>
            if leafHash = hashValue ∧ hashPolicy.equalKeys key leafKey = true then
              .adjusted (makeBranchNode dataMap nodeMap
                (replaceAt index (leafHash, leafKey, updater value) payloads) children)
            else .notFound
      else if nodeMap &&& bit ≠ 0#32 then
        let index := childIndex nodeMap bit
        match h : children[index]? with
        | none => .notFound
        | some found =>
            match adjustNode hashPolicy updater hashValue key (shift + bitsPerLevel) found with
            | .notFound => .notFound
            | .adjusted child =>
                .adjusted (makeBranchNode dataMap nodeMap payloads (replaceAt index child children))
      else .notFound
termination_by sizeOf node
decreasing_by exact sizeOf_child_lt h

/-- A test of two references for identity.  It may answer for equal values only, and it need
not answer for all of them. -/
structure Identity (k : Type) (v : Type z) where
  nodes : Node k v → Node k v → Bool
  values : v → v → Bool
  policies : HashPolicy k → HashPolicy k → Bool

def valuesEqual [BEq v] (identity : Identity k v) (left right : v) : Bool :=
  identity.values left right || left == right

inductive FactoryUpdateResult (k : Type) (v : Type z) where
  | factoryUnchanged (selected : v)
  | factoryChanged (added : Bool) (node : Node k v) (selected : v)

section Factories

variable {m : Type z → Type z} [Monad m]

def selectFactoryValue (valueEquality : v → v → Bool) (key : k) (stored : v) :
    Option (k → v → m v) → m (Bool × v)
  | none => pure (false, stored)
  | some updateFactory => do
      let selected ← updateFactory key stored
      if valueEquality stored selected then pure (false, stored) else pure (true, selected)

def factoryUpdateNode (valueEquality : v → v → Bool) (hashPolicy : HashPolicy k)
    (addFactory : k → m v) (updateFactory : Option (k → v → m v)) (hashValue : BitVec 32)
    (key : k) (shift : Nat) (node : Node k v) : m (FactoryUpdateResult k v) :=
  match node with
  | .emptyNode => do
      let selected ← addFactory key
      pure (.factoryChanged true (.leaf hashValue key selected) selected)
  | .leaf leafHash leafKey leafValue =>
      if hashValue = leafHash ∧ hashPolicy.equalKeys key leafKey = true then do
        let (changed, selected) ← selectFactoryValue valueEquality key leafValue updateFactory
        pure (if changed then .factoryChanged false (.leaf leafHash leafKey selected) selected
        else .factoryUnchanged selected)
      else do
        let selected ← addFactory key
        pure (.factoryChanged true (mergeTwo shift leafHash (.leaf leafHash leafKey leafValue)
          hashValue (.leaf hashValue key selected)) selected)
  | .collision count collisionHash entries =>
      if hashValue ≠ collisionHash then do
        let selected ← addFactory key
        pure (.factoryChanged true (mergeTwo shift collisionHash
          (.collision count collisionHash entries) hashValue (.leaf hashValue key selected))
          selected)
      else
        match entries.findIdx? (fun entry => hashPolicy.equalKeys key entry.1) with
        | none => do
            let selected ← addFactory key
            pure (.factoryChanged true (makeCollision collisionHash (entries ++ [(key, selected)]))
              selected)
        | some index =>
            match entries[index]? with
            | none => do
                let selected ← addFactory key
                pure (.factoryUnchanged selected)
            | some (storedKey, storedValue) => do
                let (changed, selected) ←
                  selectFactoryValue valueEquality key storedValue updateFactory
                pure (if changed then
                  .factoryChanged false (makeCollision collisionHash
                    (replaceAt index (storedKey, selected) entries)) selected
                else .factoryUnchanged selected)
  | .branch _ dataMap nodeMap payloads children =>
      let bit := bitFor hashValue shift
      if dataMap &&& bit ≠ 0#32 then
        let dataIndex := childIndex dataMap bit
        match payloads[dataIndex]? with
        | none => do
            let selected ← addFactory key
            pure (.factoryUnchanged selected)
        | some (leafHash, leafKey, leafValue) =>
            if hashValue = leafHash ∧ hashPolicy.equalKeys key leafKey = true then do
              let (changed, selected) ← selectFactoryValue valueEquality key leafValue updateFactory
              pure (if changed then
                .factoryChanged false (makeBranchNode dataMap nodeMap
                  (replaceAt dataIndex (leafHash, leafKey, selected) payloads) children) selected
              else .factoryUnchanged selected)
            else do
              let selected ← addFactory key
              let child := mergeTwo (shift + bitsPerLevel) leafHash
                (.leaf leafHash leafKey leafValue) hashValue (.leaf hashValue key selected)
              pure (.factoryChanged true (makeBranchNode (dataMap &&& ~~~bit) (nodeMap ||| bit)
                (removeAt dataIndex payloads) (insertAt (childIndex nodeMap bit) child children))
                selected)
      else if nodeMap &&& bit ≠ 0#32 then
        let nodeIndex := childIndex nodeMap bit
        match h : children[nodeIndex]? with
        | none => do
            let selected ← addFactory key
            pure (.factoryUnchanged selected)
        | some found => do
            let childResult ← factoryUpdateNode valueEquality hashPolicy addFactory updateFactory
              hashValue key (shift + bitsPerLevel) found
            pure (match childResult with
              | .factoryUnchanged selected => .factoryUnchanged selected
              | .factoryChanged added child selected =>
                  .factoryChanged added (makeBranchNode dataMap nodeMap payloads
                    (replaceAt nodeIndex child children)) selected)
      else do
        let selected ← addFactory key
        pure (.factoryChanged true (makeBranchNode (dataMap ||| bit) nodeMap
          (insertAt (childIndex dataMap bit) (hashValue, key, selected) payloads) children)
          selected)
termination_by sizeOf node
decreasing_by exact sizeOf_child_lt h

end Factories

end HashMap

end Durable7.Hamt
