import Durable7.Hamt.MerklePersistence.Loading
import Durable7.Hamt.MerklePersistence.Proofs

/-!
# Packs and synchronization plans

A pack carries blocks of one tree to a receiver.  The receiver imports it after
verifying every supplied block and the closure of the declared root.  Export and
planning walk a trusted tree and prune at what the receiver already holds.

The walks are bounded by the number of blocks they may visit; `none` stands for
running out of visits or for Haskell's `error`, which a tree whose digests are
distinct never reaches.
-/

namespace Durable7.Hamt

open Foundation

variable {k v : Type}

/-- One field of every block of a tree, by digest. -/
def blockIndex {α : Type} (tree : MerkleSearchTree k v)
    (field : MerkleBlockView → α) : DigestMap α :=
  digestMapFromList ((blocksPreorder tree).map fun view => (view.blockViewDigest, field view))

/-- `select`: the requested block, unless the digest was requested before. -/
def selectRequested (available : DigestMap MerkleBlock)
    (state : Finset MerkleDigest × List MerkleBlock) (digest : MerkleDigest) :
    Except MerkleVerificationError (Finset MerkleDigest × List MerkleBlock) :=
  if digest ∈ state.1 then
    .error ⟨.DuplicateBlock, "a digest was requested more than once", some digest⟩
  else
    match available.lookup digest with
    | none => .error ⟨.MissingBlock, "a requested digest is not in this tree",
        some digest⟩
    | some block => .ok (Insert.insert digest state.1, state.2 ++ [block])

def exportPackFor (requested : List MerkleDigest) (tree : MerkleSearchTree k v) :
    Except MerkleVerificationError MerkleBlockPack := do
  let (_, result) ← requested.foldlM
    (selectRequested (blockIndex tree MerkleBlockView.block)) (∅, [])
  makeMerkleBlockPack merkleAlgorithmId tree.policy.merkleDomainDigest tree.rootDigest result

/-- The walk of `createSyncPack`; a block the receiver holds is not entered. -/
def walkMissing (policy : MerkleSearchTreePolicy k v) (receiver : MerkleBlockStore)
    (blocks : DigestMap MerkleBlock) (available : DigestMap (DecodedBlock k v))
    (visits : Nat) (digests : List MerkleDigest) (result : List MerkleBlock) :
    Option (List MerkleBlock) :=
  match digests with
  | [] => some result.reverse
  | digest :: rest =>
      if digest = policy.merkleEmptyDigest then
        walkMissing policy receiver blocks available visits rest result
      else if blockStoreContains digest receiver then
        walkMissing policy receiver blocks available visits rest result
      else
        match visits with
        | 0 => none
        | visits + 1 => do
            let block ← blocks.lookup digest
            let decoded ← available.lookup digest
            walkMissing policy receiver blocks available visits
              (decoded.decodedChildDigests ++ rest) (block :: result)
termination_by (visits, digests.length)

def createSyncPack (receiver : MerkleBlockStore) (tree : MerkleSearchTree k v) :
    Option MerkleBlockPack := do
  let blocks ← walkMissing tree.policy receiver (blockIndex tree MerkleBlockView.block)
    (trustedDecoded tree) (treePreorder tree).length [tree.rootDigest] []
  trustedPack tree blocks

def verifySupplied {budget : MerkleVerificationBudget}
    (policy : MerkleSearchTreePolicy k v) (blocks : List MerkleBlock)
    (context : VerificationContext budget) :
    Except MerkleVerificationError (VerificationContext budget) :=
  blocks.foldlM (fun current block => Prod.snd <$> decodeBlock policy block 1 current) context

/-- `stage`: the supplied blocks by digest, each digest once. -/
def stageBlock (staged : MerkleBlockStore) (block : MerkleBlock) :
    Except MerkleVerificationError MerkleBlockStore :=
  match blockStoreLookup block.merkleBlockDigest staged with
  | none => .ok (staged.insertBlock block)
  | some existing =>
      if existing = block then
        .error ⟨.DuplicateBlock, "the pack repeats a block digest",
          some block.merkleBlockDigest⟩
      else
        .error ⟨.ConflictingBlock,
          "the pack associates one digest with conflicting bytes",
          some block.merkleBlockDigest⟩

def importPackWithBudget (pack : MerkleBlockPack)
    (policy : MerkleSearchTreePolicy k v) (destination : MerkleBlockStore)
    (budget : MerkleVerificationBudget) :
    Except MerkleVerificationError (MerkleSearchTree k v × MerkleBlockStore) := do
  verifyEnvelope pack.packAlgorithmId pack.packDomainDigest policy
  let context ← verifySupplied policy pack.packBlocks (newContext budget)
  let staged ← pack.packBlocks.foldlM stageBlock emptyBlockStore
  let (tree, _) ← loadWithContext pack.packRootDigest policy (staged.union destination) context
  preflightStore pack.packBlocks destination
  let (_, published) ← publishBlocks pack.packBlocks destination
  .ok (tree, published)

def importPack (pack : MerkleBlockPack) (policy : MerkleSearchTreePolicy k v)
    (destination : MerkleBlockStore) :
    Except MerkleVerificationError (MerkleSearchTree k v × MerkleBlockStore) :=
  importPackWithBudget pack policy destination defaultMerkleVerificationBudget

structure MerkleSyncPlan where
  syncAlgorithmId : HaskellString
  syncDomainDigest : MerkleDigest
  syncLocalRootDigest : MerkleDigest
  syncTargetRootDigest : MerkleDigest
  syncRequestedBlocks : List MerkleDigest
  syncExaminedBlockCount : Nat
  syncExaminedByteCount : Nat
  deriving DecidableEq

/-- What a planning walk has collected; `requested` is in reverse. -/
structure PlanState where
  requested : List MerkleDigest
  count : Nat
  bytes : Nat

/-- The walk of `planSync`; a block the receiver lacks is requested, not entered. -/
def walkFrontier (policy : MerkleSearchTreePolicy k v) (receiver : MerkleBlockStore)
    (blocks : DigestMap ByteString) (decoded : DigestMap (DecodedBlock k v))
    (visits : Nat) (digests : List MerkleDigest) (state : PlanState) :
    Option (Except MerkleTreeError PlanState) :=
  match digests with
  | [] => some (.ok state)
  | digest :: rest =>
      if digest = policy.merkleEmptyDigest then
        walkFrontier policy receiver blocks decoded visits rest state
      else
        match visits with
        | 0 => none
        | visits + 1 =>
            match blocks.lookup digest, decoded.lookup digest with
            | some blockBytes, some block =>
                match checkedAddWord64 state.bytes blockBytes.length
                  "a synchronization examined-byte count overflowed" (some digest) with
                | .error _ => some (.error .MerkleTreeSizeOverflow)
                | .ok bytes =>
                    if blockStoreContains digest receiver then
                      walkFrontier policy receiver blocks decoded visits
                        (block.decodedChildDigests ++ rest)
                        ⟨state.requested, state.count + 1, bytes⟩
                    else
                      walkFrontier policy receiver blocks decoded visits rest
                        ⟨digest :: state.requested, state.count + 1, bytes⟩
            | _, _ => some (.error .MerkleTreeSizeOverflow)
termination_by (visits, digests.length)

def makePlan (localTree target : MerkleSearchTree k v) (state : PlanState) : MerkleSyncPlan where
  syncAlgorithmId := merkleAlgorithmId
  syncDomainDigest := target.policy.merkleDomainDigest
  syncLocalRootDigest := localTree.rootDigest
  syncTargetRootDigest := target.rootDigest
  syncRequestedBlocks := state.requested.reverse
  syncExaminedBlockCount := state.count
  syncExaminedByteCount := state.bytes

def planSync (localTree : MerkleSearchTree k v) (receiver : MerkleBlockStore)
    (target : MerkleSearchTree k v) : Option (Except MerkleTreeError MerkleSyncPlan) :=
  if ¬ compatibleMerklePolicies localTree.policy target.policy then
    some (.error .IncompatibleMerklePolicy)
  else if localTree.rootDigest = target.rootDigest then
    some (.ok (makePlan localTree target ⟨[], 0, 0⟩))
  else do
    let walked ← walkFrontier target.policy receiver
      (blockIndex target MerkleBlockView.blockViewBytes) (trustedDecoded target)
      (treePreorder target).length [target.rootDigest] ⟨[], 0, 0⟩
    some (makePlan localTree target <$> walked)

end Durable7.Hamt
