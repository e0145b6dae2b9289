import Durable7.Hamt.MerklePersistence.Authentication

/-!
# Merkle proofs

A proof carries the blocks on the way to its answer, each with the child
intervals it expands.  The verifier trusts neither: it checks and decodes every
block, walks from the declared root, and requires that every block it was given
lies on the canonical walk of the query.
-/

namespace Durable7.Hamt

open Foundation

variable {k v : Type} {budget : MerkleVerificationBudget}

inductive MerkleProofKind where
  | MembershipProof
  | NonMembershipProof
  | RangeProof
  deriving DecidableEq

structure MerkleProofStep where
  proofStepBlock : MerkleBlock
  proofStepExpandedChildIndexes : List Int
  deriving DecidableEq

structure MerkleProof where
  proofAlgorithmId : HaskellString
  proofDomainDigest : MerkleDigest
  proofRootDigest : MerkleDigest
  proofKind : MerkleProofKind
  proofQuery : ByteString
  proofSteps : List MerkleProofStep
  proofTotalByteCount : Nat
  deriving DecidableEq

inductive MerkleProofCreationError where
  | ProofCodecError (problem : MerkleCodecError)
  | ReversedProofRange
  | ProofSizeOverflow
  deriving DecidableEq

structure MerkleProofVerificationResult where
  proofIsValid : Bool
  proofFailureKind : MerkleVerificationFailureKind
  proofFailureMessage : Option String
  proofComputedRootDigest : Option MerkleDigest
  proofVerifiedBlockCount : Nat
  proofVerifiedByteCount : Nat
  deriving DecidableEq

def adjacentDuplicate : List Int → Bool
  | [] => false
  | [_] => false
  | first :: second :: rest => first == second || adjacentDuplicate (second :: rest)

def makeMerkleProofStep (block : MerkleBlock) (indexes : List Int) :
    Except MerkleVerificationError MerkleProofStep :=
  let sorted := indexes.mergeSort
  if indexes.any fun index => index < 0 then
    .error ⟨.ProofMismatch, "a proof step contains a negative child index",
      some block.merkleBlockDigest⟩
  else if adjacentDuplicate sorted then
    .error ⟨.ProofMismatch, "a proof step expands one child index more than once",
      some block.merkleBlockDigest⟩
  else .ok ⟨block, sorted⟩

def makeMerkleProof (algorithm : HaskellString) (domain root : MerkleDigest)
    (kind : MerkleProofKind) (query : ByteString) (steps : List MerkleProofStep) :
    Except MerkleVerificationError MerkleProof := do
  rejectIf (algorithm.isEmpty || algorithm.all isSpace) ⟨.MalformedBlock,
    "a Merkle proof algorithm identifier must not be empty", none⟩
  let total ← accountDistinct "a proof repeats a block digest"
    "a Merkle proof byte count overflowed"
    (steps.map MerkleProofStep.proofStepBlock) query.length
  .ok ⟨algorithm, domain, root, kind, query, steps, total⟩

def findDecodedPositionFrom (policy : MerkleSearchTreePolicy k v) (key : k)
    (index : Nat) : List (DecodedEntry k v) → Nat × Bool
  | [] => (index, false)
  | entry :: rest =>
      match policy.compareMerkleKeys entry.decodedKey key with
      | .lt => findDecodedPositionFrom policy key (index + 1) rest
      | .eq => (index, true)
      | .gt => (index, false)

def findDecodedPosition (policy : MerkleSearchTreePolicy k v)
    (entries : List (DecodedEntry k v)) (key : k) : Nat × Bool :=
  findDecodedPositionFrom policy key 0 entries

def childIntervalIntersects (policy : MerkleSearchTreePolicy k v)
    (entries : List (DecodedEntry k v)) (index : Nat) (minimumKey maximumKey : k) :
    Bool :=
  (index == 0 || entries[index - 1]?.any fun lower =>
    policy.compareMerkleKeys lower.decodedKey maximumKey == .lt) &&
  (index == entries.length || entries[index]?.any fun upper =>
    policy.compareMerkleKeys upper.decodedKey minimumKey == .gt)

namespace DecodedBlock

/-- `decodedChildDigests block !! index`; every use is inside the list. -/
def childAt (block : DecodedBlock k v) (policy : MerkleSearchTreePolicy k v)
    (index : Nat) : MerkleDigest :=
  block.decodedChildDigests.getD index policy.merkleEmptyDigest

/-- The nonempty child intervals that a range query has to expand. -/
def expandedIndexes (block : DecodedBlock k v) (policy : MerkleSearchTreePolicy k v)
    (minimumKey maximumKey : k) : List Nat :=
  (List.range block.decodedChildDigests.length).filter fun index =>
    block.childAt policy index ≠ policy.merkleEmptyDigest ∧
      childIntervalIntersects policy block.decodedEntries index minimumKey maximumKey

end DecodedBlock

/-! ## Creating proofs -/

def checkedProofLength (bytes : ByteString) : Except MerkleProofCreationError Unit :=
  rejectIf (bytes.length > maxInt32) .ProofSizeOverflow

def mapProofCodec {α : Type} : Except MerkleCodecError α → Except MerkleProofCreationError α :=
  Except.mapError .ProofCodecError

def queryField (bytes : ByteString) : ByteString := lengthBigEndian bytes.length ++ bytes

def checkPointLengths (keyBytes : ByteString) (valueBytes : Option ByteString) :
    Except MerkleProofCreationError Unit := do
  checkedProofLength keyBytes
  valueBytes.elim (.ok ()) checkedProofLength

def encodePointQuery (kind : MerkleProofKind) (keyBytes : ByteString)
    (valueBytes : Option ByteString) :
    Option (Except MerkleProofCreationError ByteString) :=
  match checkPointLengths keyBytes valueBytes with
  | .error problem => some (.error problem)
  | .ok () =>
      match kind, valueBytes with
      | .MembershipProof, some value =>
          some (.ok (proofMagic ++ [0] ++ queryField keyBytes ++ queryField value))
      | .NonMembershipProof, none => some (.ok (proofMagic ++ [1] ++ queryField keyBytes))
      | _, _ => none

def encodeRangeQuery (minimumBytes maximumBytes : ByteString) :
    Except MerkleProofCreationError ByteString := do
  checkedProofLength minimumBytes
  checkedProofLength maximumBytes
  .ok (proofMagic ++ [2] ++ queryField minimumBytes ++ queryField maximumBytes)

def trustedProofStep (block : MerkleBlock) (indexes : List Nat) : Option MerkleProofStep :=
  (makeMerkleProofStep block (indexes.map Int.ofNat)).toOption

def trustedProof (tree : MerkleSearchTree k v) (kind : MerkleProofKind)
    (query : ByteString) (steps : List MerkleProofStep) :
    Except MerkleProofCreationError MerkleProof :=
  (makeMerkleProof merkleAlgorithmId tree.policy.merkleDomainDigest
    tree.rootDigest kind query steps).mapError fun _ => .ProofSizeOverflow

/--
The walk to a key, the last step first.  A path cannot be longer than the number
of blocks, so that number of block visits is enough.
-/
def walkPoint (policy : MerkleSearchTreePolicy k v)
    (decoded : DigestMap (DecodedBlock k v)) (key : k) (visits : Nat)
    (digest : MerkleDigest) (result : List MerkleProofStep) :
    Option (MerkleProofKind × Option ByteString × List MerkleProofStep) :=
  if digest = policy.merkleEmptyDigest then some (.NonMembershipProof, none, result)
  else
    match visits with
    | 0 => none
    | visits + 1 => do
        let block ← decoded.lookup digest
        let (position, found) := findDecodedPosition policy block.decodedEntries key
        let child := block.childAt policy position
        let expanded := if ¬ found ∧ child ≠ policy.merkleEmptyDigest then [position] else []
        let step ← trustedProofStep block.decodedBlockSource expanded
        if found then do
          let entry ← block.decodedEntries[position]?
          some (.MembershipProof, some entry.decodedValueBytes, step :: result)
        else if child = policy.merkleEmptyDigest then
          some (.NonMembershipProof, none, step :: result)
        else walkPoint policy decoded key visits child (step :: result)

def collectRange (policy : MerkleSearchTreePolicy k v)
    (decoded : DigestMap (DecodedBlock k v)) (minimumKey maximumKey : k)
    (visits : Nat) (digest : MerkleDigest) : Option (List MerkleProofStep) :=
  if digest = policy.merkleEmptyDigest then some []
  else
    match visits with
    | 0 => none
    | visits + 1 => do
        let block ← decoded.lookup digest
        let indexes := block.expandedIndexes policy minimumKey maximumKey
        let step ← trustedProofStep block.decodedBlockSource indexes
        let below ← indexes.mapM fun index =>
          collectRange policy decoded minimumKey maximumKey visits (block.childAt policy index)
        some (step :: below.flatten)

def createProof (key : k) (tree : MerkleSearchTree k v) :
    Option (Except MerkleProofCreationError MerkleProof) :=
  match mapProofCodec (tree.policy.merkleKeyCodec.encodeMerkleValue key) with
  | .error problem => some (.error problem)
  | .ok keyBytes => do
      let (kind, valueBytes, steps) ← walkPoint tree.policy (trustedDecoded tree)
        key (treePreorder tree).length tree.rootDigest []
      match ← encodePointQuery kind keyBytes valueBytes with
      | .error problem => some (.error problem)
      | .ok query => some (trustedProof tree kind query steps.reverse)

/-- The checks of a range request and its encoded query. -/
def requestRange (policy : MerkleSearchTreePolicy k v) (minimumKey maximumKey : k) :
    Except MerkleProofCreationError ByteString := do
  rejectIf (policy.compareMerkleKeys minimumKey maximumKey = .gt) .ReversedProofRange
  let minimumBytes ← mapProofCodec (policy.merkleKeyCodec.encodeMerkleValue minimumKey)
  let maximumBytes ← mapProofCodec (policy.merkleKeyCodec.encodeMerkleValue maximumKey)
  encodeRangeQuery minimumBytes maximumBytes

def createRangeProof (minimumKey maximumKey : k) (tree : MerkleSearchTree k v) :
    Option (Except MerkleProofCreationError MerkleProof) :=
  match requestRange tree.policy minimumKey maximumKey with
  | .error problem => some (.error problem)
  | .ok query => do
      let steps ← collectRange tree.policy (trustedDecoded tree) minimumKey
        maximumKey (treePreorder tree).length tree.rootDigest
      some (trustedProof tree .RangeProof query steps)

/-! ## Reading queries -/

def proofProblem (proof : MerkleProof) (message : String) : MerkleVerificationError :=
  ⟨.ProofMismatch, message, some proof.proofRootDigest⟩

def proofTake (proof : MerkleProof) (offset count : Nat) :
    Except MerkleVerificationError (ByteString × Nat) :=
  if offset + count > proof.proofQuery.length then
    .error (proofProblem proof "a proof query field is truncated")
  else .ok ((proof.proofQuery.drop offset).take count, offset + count)

def readProofHeader (proof : MerkleProof) (tag : UInt8) : Except MerkleVerificationError Nat := do
  let (magic, offset1) ← proofTake proof 0 4
  rejectIf (magic ≠ proofMagic) (proofProblem proof "a proof query has the wrong magic")
  let (actual, offset2) ← proofTake proof offset1 1
  rejectIf (byteAt actual 0 ≠ tag)
    (proofProblem proof "a proof query kind disagrees with its envelope")
  .ok offset2

def readProofField (proof : MerkleProof) (offset : Nat) :
    Except MerkleVerificationError (ByteString × Nat) := do
  let (lengthBytes, next) ← proofTake proof offset 4
  let signed := decodeInt32 lengthBytes
  rejectIf (signed < 0) (proofProblem proof "a proof query field has a negative length")
  proofTake proof next signed.toNatClampNeg

def proofCodecDecode {α : Type} (proof : MerkleProof) (message : String)
    (codec : MerkleCodec α) (bytes : ByteString) :
    Except MerkleVerificationError α :=
  (codec.decodeMerkleValue bytes).mapError fun problem =>
    proofProblem proof (message ++ ": " ++ showMerkleCodecError problem false)

def proofCodecEncode {α : Type} (proof : MerkleProof) (message : String)
    (codec : MerkleCodec α) (value : α) :
    Except MerkleVerificationError ByteString :=
  (codec.encodeMerkleValue value).mapError fun problem =>
    proofProblem proof (message ++ ": " ++ showMerkleCodecError problem false)

def decodeCanonicalQueryKey (proof : MerkleProof)
    (policy : MerkleSearchTreePolicy k v) (bytes : ByteString) :
    Except MerkleVerificationError k := do
  let key ← proofCodecDecode proof "a proof query has an invalid key encoding"
    policy.merkleKeyCodec bytes
  let canonical ← proofCodecEncode proof
    "a proof query key could not be re-encoded" policy.merkleKeyCodec key
  rejectIf (canonical ≠ bytes) (proofProblem proof "a proof query key is not canonical")
  .ok key

/-- The claimed value of a membership query; other queries carry none. -/
def readClaimedValue (proof : MerkleProof) (policy : MerkleSearchTreePolicy k v) (offset : Nat) :
    Except MerkleVerificationError (Option ByteString × Nat) :=
  if proof.proofKind = .MembershipProof then do
    let (bytes, next) ← readProofField proof offset
    let value ← proofCodecDecode proof
      "a membership query has an invalid value encoding"
      policy.merkleValueCodec bytes
    let canonical ← proofCodecEncode proof
      "a membership query value could not be re-encoded"
      policy.merkleValueCodec value
    rejectIf (canonical ≠ bytes) (proofProblem proof "a membership query value is not canonical")
    .ok (some bytes, next)
  else .ok (none, offset)

def MerkleProofKind.queryTag : MerkleProofKind → UInt8
  | .MembershipProof => 0
  | .NonMembershipProof => 1
  | .RangeProof => 2

def decodePointQuery (proof : MerkleProof) (policy : MerkleSearchTreePolicy k v) :
    Except MerkleVerificationError (k × Option ByteString) := do
  rejectIf (proof.proofKind = .RangeProof)
    (proofProblem proof "a point proof has the wrong proof kind")
  let offset ← readProofHeader proof proof.proofKind.queryTag
  let (keyBytes, offset1) ← readProofField proof offset
  let (valueBytes, offset2) ← readClaimedValue proof policy offset1
  rejectIf (offset2 ≠ proof.proofQuery.length)
    (proofProblem proof "a point proof query has trailing bytes")
  let key ← decodeCanonicalQueryKey proof policy keyBytes
  .ok (key, valueBytes)

def decodeRangeQuery (proof : MerkleProof) (policy : MerkleSearchTreePolicy k v) :
    Except MerkleVerificationError (k × k) := do
  rejectIf (proof.proofKind ≠ .RangeProof)
    (proofProblem proof "a range proof has the wrong proof kind")
  let offset ← readProofHeader proof 2
  let (minimumBytes, offset1) ← readProofField proof offset
  let (maximumBytes, offset2) ← readProofField proof offset1
  rejectIf (offset2 ≠ proof.proofQuery.length)
    (proofProblem proof "a range proof query has trailing bytes")
  let minimumKey ← decodeCanonicalQueryKey proof policy minimumBytes
  let maximumKey ← decodeCanonicalQueryKey proof policy maximumBytes
  rejectIf (policy.compareMerkleKeys minimumKey maximumKey = .gt)
    (proofProblem proof "a range proof query has reversed bounds")
  .ok (minimumKey, maximumKey)

/-! ## Verifying proofs -/

def verifyEnvelope (algorithm : HaskellString) (domain : MerkleDigest)
    (policy : MerkleSearchTreePolicy k v) : Except MerkleVerificationError Unit := do
  rejectIf (algorithm ≠ merkleAlgorithmId) ⟨.UnsupportedAlgorithm,
    "the Merkle envelope uses an unsupported algorithm", none⟩
  rejectIf (domain ≠ policy.merkleDomainDigest) ⟨.DomainMismatch,
    "the Merkle envelope belongs to another policy domain", none⟩

def preflightProofStructure (proof : MerkleProof) (budget : MerkleVerificationBudget) :
    Except MerkleVerificationError Unit := do
  rejectIf (proof.proofSteps.length > budget.maxBlockCount)
    (limit "a Merkle proof exceeds its block-count budget" proof.proofRootDigest)
  proof.proofSteps.forM fun step =>
    rejectIf (step.proofStepExpandedChildIndexes.length > budget.maxChildReferencesPerBlock)
      (limit "a Merkle proof step exceeds its expanded-child budget"
        step.proofStepBlock.merkleBlockDigest)

def validateExpandedIndexes (policy : MerkleSearchTreePolicy k v)
    (block : DecodedBlock k v) (step : MerkleProofStep) :
    Except MerkleVerificationError Unit :=
  let digest := step.proofStepBlock.merkleBlockDigest
  step.proofStepExpandedChildIndexes.forM fun index => do
    rejectIf (index < 0 ∨ index ≥ block.decodedChildDigests.length)
      ⟨.ProofMismatch, "a proof expands a child index outside its block",
        some digest⟩
    rejectIf (block.childAt policy index.toNat = policy.merkleEmptyDigest)
      ⟨.ProofMismatch, "a proof expands an empty child interval", some digest⟩

/-- The decoded blocks and the steps of a proof by digest. -/
abbrev ProofMaps (k v : Type) := DigestMap (DecodedBlock k v) × DigestMap MerkleProofStep

def decodeProofSteps (policy : MerkleSearchTreePolicy k v) :
    List MerkleProofStep → DigestMap (DecodedBlock k v) →
      DigestMap MerkleProofStep → VerificationContext budget →
      Except MerkleVerificationError (ProofMaps k v) × VerificationContext budget
  | [], decoded, steps, context => (.ok (decoded, steps), context)
  | step :: rest, decoded, steps, context =>
      let block := step.proofStepBlock
      let digest := block.merkleBlockDigest
      match accountBlock 1 block context with
      | .error problem => (.error problem, context)
      | .ok (_, admittedContext) =>
          match decodeBlock policy block 1 context with
          | .error problem => (.error problem, admittedContext)
          | .ok (parsed, nextContext) =>
              if digest ∈ decoded ∨ digest ∈ steps then
                (.error ⟨.DuplicateBlock, "a proof repeats a block digest",
                  some digest⟩, nextContext)
              else
                match validateExpandedIndexes policy parsed step with
                | .error problem => (.error problem, nextContext)
                | .ok () => decodeProofSteps policy rest
                    (decoded.insert digest parsed) (steps.insert digest step)
                    nextContext

def validateProofReference (policy : MerkleSearchTreePolicy k v)
    (parent : DecodedBlock k v) (index : Nat) (child : DecodedBlock k v) :
    Except MerkleVerificationError Unit := do
  let invalid := fun message : String => (⟨.InvalidReference, message,
    some child.decodedBlockSource.merkleBlockDigest⟩ : MerkleVerificationError)
  rejectIf (child.decodedLevel ≥ parent.decodedLevel)
    (invalid "an expanded child is not below its parent level")
  child.decodedEntries.forM fun entry => do
    rejectIf (index ≠ 0 ∧ parent.decodedEntries[index - 1]?.any fun lower =>
        policy.compareMerkleKeys entry.decodedKey lower.decodedKey != .gt)
      (invalid "an expanded child crosses its lower separator")
    rejectIf (parent.decodedEntries[index]?.any fun upper =>
        policy.compareMerkleKeys entry.decodedKey upper.decodedKey != .lt)
      (invalid "an expanded child crosses its upper separator")

def requireExpandedExactly (step : MerkleProofStep) (expected : List Nat) :
    Except MerkleVerificationError Unit :=
  rejectIf (step.proofStepExpandedChildIndexes ≠ expected.map Int.ofNat)
    ⟨.ProofMismatch,
      "a proof step expands a noncanonical set of child intervals",
      some step.proofStepBlock.merkleBlockDigest⟩

/-- The walk of a point proof; it returns the digests it visited. -/
def walkPointProof (kind : MerkleProofKind) (policy : MerkleSearchTreePolicy k v)
    (budget : MerkleVerificationBudget) (maps : ProofMaps k v) (key : k)
    (claimed : Option ByteString) (digest : MerkleDigest) (depth : Nat)
    (visited : Finset MerkleDigest) :
    Except MerkleVerificationError (Finset MerkleDigest) :=
  match hdepth : checkDepth depth (some digest) budget with
  | .error problem => .error problem
  | .ok () => do
      rejectIf (digest ∈ visited) ⟨.CycleDetected, "a point proof contains a cycle", some digest⟩
      let block ← presentOr (maps.1.lookup digest) ⟨.MissingBlock,
        "a point proof omits an expanded block", some digest⟩
      let step ← presentOr (maps.2.lookup digest) ⟨.MissingBlock,
        "a point proof omits an expanded step", some digest⟩
      let visited' := Insert.insert digest visited
      let (position, found) := findDecodedPosition policy block.decodedEntries key
      if found then do
        requireExpandedExactly step []
        rejectIf (kind ≠ .MembershipProof) ⟨.ProofMismatch,
          "the proof claims absence for a present key", some digest⟩
        rejectIf (claimed ≠ block.decodedEntries[position]?.map
            DecodedEntry.decodedValueBytes) ⟨.ProofMismatch,
          "the membership value does not match the authenticated entry",
          some digest⟩
        .ok visited'
      else
        let childDigest := block.childAt policy position
        if childDigest = policy.merkleEmptyDigest then do
          requireExpandedExactly step []
          rejectIf (kind ≠ .NonMembershipProof) ⟨.ProofMismatch,
            "the proof claims membership for an absent key", some digest⟩
          .ok visited'
        else do
          requireExpandedExactly step [position]
          let child ← presentOr (maps.1.lookup childDigest) ⟨.MissingBlock,
            "a point proof omits its expanded child", some childDigest⟩
          validateProofReference policy block position child
          walkPointProof kind policy budget maps key claimed childDigest (depth + 1) visited'
termination_by budget.maxDepth + 1 - depth
decreasing_by
  have hle := (checkDepth_eq_ok.mp hdepth).2
  omega

mutual

def walkRangeProof (policy : MerkleSearchTreePolicy k v)
    (budget : MerkleVerificationBudget) (maps : ProofMaps k v)
    (minimumKey maximumKey : k) (digest : MerkleDigest) (depth : Nat)
    (visited : Finset MerkleDigest) :
    Except MerkleVerificationError (Finset MerkleDigest) :=
  match hdepth : checkDepth depth (some digest) budget with
  | .error problem => .error problem
  | .ok () => do
      rejectIf (digest ∈ visited) ⟨.CycleDetected, "a range proof repeats a block", some digest⟩
      let block ← presentOr (maps.1.lookup digest) ⟨.MissingBlock,
        "a range proof omits an expanded block", some digest⟩
      let step ← presentOr (maps.2.lookup digest) ⟨.MissingBlock,
        "a range proof omits an expanded step", some digest⟩
      let expected := block.expandedIndexes policy minimumKey maximumKey
      requireExpandedExactly step expected
      visitRangeChildren policy budget maps minimumKey maximumKey block expected
        (depth + 1) (Insert.insert digest visited)
termination_by (budget.maxDepth + 1 - depth, 0)
decreasing_by
  have hle := (checkDepth_eq_ok.mp hdepth).2
  apply Prod.Lex.left
  omega

/-- Walks the expanded children of `parent` from left to right. -/
def visitRangeChildren (policy : MerkleSearchTreePolicy k v)
    (budget : MerkleVerificationBudget) (maps : ProofMaps k v)
    (minimumKey maximumKey : k) (parent : DecodedBlock k v) (indexes : List Nat)
    (depth : Nat) (visited : Finset MerkleDigest) :
    Except MerkleVerificationError (Finset MerkleDigest) :=
  match indexes with
  | [] => .ok visited
  | index :: indexes => do
      let childDigest := parent.childAt policy index
      let child ← presentOr (maps.1.lookup childDigest) ⟨.MissingBlock,
        "a range proof omits an expanded child", some childDigest⟩
      validateProofReference policy parent index child
      let visited' ← walkRangeProof policy budget maps minimumKey maximumKey
        childDigest depth visited
      visitRangeChildren policy budget maps minimumKey maximumKey parent indexes depth visited'
termination_by (budget.maxDepth + 1 - depth, 1 + indexes.length)
decreasing_by
  all_goals
    apply Prod.Lex.right
    simp only [List.length_cons]
    omega

end

def verifyEmptyProofQuery (proof : MerkleProof)
    (policy : MerkleSearchTreePolicy k v) : Except MerkleVerificationError Unit :=
  match proof.proofKind with
  | .MembershipProof => .error ⟨.ProofMismatch,
      "an empty tree cannot prove membership", some proof.proofRootDigest⟩
  | .NonMembershipProof => do
      let _ ← decodePointQuery proof policy
      .ok ()
  | .RangeProof => do
      let _ ← decodeRangeQuery proof policy
      .ok ()

def verifyPointProof (proof : MerkleProof) (policy : MerkleSearchTreePolicy k v)
    (budget : MerkleVerificationBudget) (maps : ProofMaps k v) :
    Except MerkleVerificationError (Finset MerkleDigest) := do
  let (key, claimedValue) ← decodePointQuery proof policy
  walkPointProof proof.proofKind policy budget maps key claimedValue proof.proofRootDigest 1 ∅

def verifyRangeProof (proof : MerkleProof) (policy : MerkleSearchTreePolicy k v)
    (budget : MerkleVerificationBudget) (maps : ProofMaps k v) :
    Except MerkleVerificationError (Finset MerkleDigest) := do
  let (minimumKey, maximumKey) ← decodeRangeQuery proof policy
  walkRangeProof policy budget maps minimumKey maximumKey proof.proofRootDigest 1 ∅

/-- The walk that the kind of the proof calls for. -/
def verifyWalk (proof : MerkleProof) (policy : MerkleSearchTreePolicy k v)
    (budget : MerkleVerificationBudget) (maps : ProofMaps k v) :
    Except MerkleVerificationError (Finset MerkleDigest) :=
  match proof.proofKind with
  | .MembershipProof => verifyPointProof proof policy budget maps
  | .NonMembershipProof => verifyPointProof proof policy budget maps
  | .RangeProof => verifyRangeProof proof policy budget maps

def verifyDecodedProof (proof : MerkleProof) (policy : MerkleSearchTreePolicy k v)
    (budget : MerkleVerificationBudget) (maps : ProofMaps k v) :
    Except MerkleVerificationError Unit :=
  let root := proof.proofRootDigest
  if root = policy.merkleEmptyDigest then do
    rejectIf (proof.proofSteps ≠ []) ⟨.ProofMismatch,
      "an empty-root proof must not contain blocks", some root⟩
    verifyEmptyProofQuery proof policy
  else if root ∉ maps.1 then
    .error ⟨.RootMismatch, "the proof does not contain its declared root block", some root⟩
  else do
    let visited ← verifyWalk proof policy budget maps
    rejectIf (visited.card ≠ proof.proofSteps.length) ⟨.ProofMismatch,
      "the proof contains blocks outside the canonical query expansion",
      some root⟩

/--
Admission order: query budget, proof shape, envelope, and only then maps,
hashing, codecs, and block decoding.
-/
def verifyProofWithBudget (proof : MerkleProof)
    (policy : MerkleSearchTreePolicy k v) (budget : MerkleVerificationBudget) :
    MerkleProofVerificationResult :=
  let failed := fun (problem : MerkleVerificationError)
      (context : VerificationContext budget) => (⟨false,
    problem.verificationFailureKind, some problem.verificationMessage,
    some proof.proofRootDigest, context.contextBlockCount,
    context.contextTotalBytes⟩ : MerkleProofVerificationResult)
  let initial := newContext budget
  match accountProofQuery proof.proofQuery.length proof.proofRootDigest initial with
  | .error problem => failed problem initial
  | .ok queryContext =>
      match (do
        preflightProofStructure proof budget
        verifyEnvelope proof.proofAlgorithmId proof.proofDomainDigest policy) with
      | .error problem => failed problem queryContext
      | .ok () =>
          match decodeProofSteps policy proof.proofSteps ∅ ∅ queryContext with
          | (.error problem, finalContext) => failed problem finalContext
          | (.ok maps, finalContext) =>
              match verifyDecodedProof proof policy budget maps with
              | .error problem => failed problem finalContext
              | .ok () => ⟨true, .NoVerificationFailure, none,
                  some proof.proofRootDigest, finalContext.contextBlockCount,
                  finalContext.contextTotalBytes⟩

def verifyProof (proof : MerkleProof) (policy : MerkleSearchTreePolicy k v) :
    MerkleProofVerificationResult :=
  verifyProofWithBudget proof policy defaultMerkleVerificationBudget

end Durable7.Hamt
