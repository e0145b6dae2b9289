import Durable7.Hamt.MerklePersistence.Accounting

/-!
# Saving and loading trees

A load reads the closure of a root depth first, rebuilds the tree from the
entries it found, and compares the digests.  Whatever the store holds, a
successful load has read a complete closure out of it.

`none` stands for Haskell's `error`; the trusted paths that could reach it need
two blocks of one tree to share a digest.
-/

namespace Durable7.Hamt

open Foundation List MerkleNode

variable {k v : Type} {budget : MerkleVerificationBudget}

namespace MerkleBlockView

def block (view : MerkleBlockView) : MerkleBlock := ⟨view.blockViewDigest, view.blockViewBytes⟩

end MerkleBlockView

def trustedPack (tree : MerkleSearchTree k v) (blocks : List MerkleBlock) :
    Option MerkleBlockPack :=
  (makeMerkleBlockPack merkleAlgorithmId tree.policy.merkleDomainDigest
    tree.rootDigest blocks).toOption

def exportPack (tree : MerkleSearchTree k v) : Option MerkleBlockPack :=
  trustedPack tree ((blocksPreorder tree).map MerkleBlockView.block)

def saveTree (tree : MerkleSearchTree k v) (store : MerkleBlockStore) :
    Option (Except MerkleVerificationError (Nat × MerkleBlockStore)) := do
  let pack ← exportPack tree
  some do
    preflightStore pack.packBlocks store
    publishBlocks pack.packBlocks store

/-! ## Loading -/

/-- The counts fit `Int32`, so their source's 64-bit sum cannot wrap. -/
structure LoadedNode (k v : Type) where
  loadedLevel : UInt8
  loadedCount : Nat
  loadedMinimum : k
  loadedMaximum : k
  loadedEntries : List (k × v)

namespace DecodedEntry

def pair (entry : DecodedEntry k v) : k × v := (entry.decodedKey, entry.decodedValue)

end DecodedEntry

def interleaveLoaded (entries : List (DecodedEntry k v))
    (children : List (Option (LoadedNode k v))) : List (k × v) :=
  ((entries.zip children).flatMap fun pair =>
    pair.2.elim [] LoadedNode.loadedEntries ++ [pair.1.pair]) ++
    children.getLast?.join.elim [] LoadedNode.loadedEntries

def validateChild (parent : DecodedBlock k v) (policy : MerkleSearchTreePolicy k v) :
    Option (LoadedNode k v) × Nat → Except MerkleVerificationError Unit
  | (none, _) => .ok ()
  | (some child, index) => do
      let invalid := fun message : String => (⟨.InvalidReference, message,
        some parent.decodedBlockSource.merkleBlockDigest⟩ : MerkleVerificationError)
      rejectIf (child.loadedLevel ≥ parent.decodedLevel)
        (invalid "a child is not below its parent level")
      rejectIf (index ≠ 0 ∧ parent.decodedEntries[index - 1]?.any fun lower =>
          policy.compareMerkleKeys child.loadedMinimum lower.decodedKey != .gt)
        (invalid "a child crosses its lower key separator")
      rejectIf (parent.decodedEntries[index]?.any fun upper =>
          policy.compareMerkleKeys child.loadedMaximum upper.decodedKey != .lt)
        (invalid "a child crosses its upper key separator")

def validateChildren (parent : DecodedBlock k v) (children : List (Option (LoadedNode k v)))
    (policy : MerkleSearchTreePolicy k v) : Except MerkleVerificationError Unit :=
  children.zipIdx.forM (validateChild parent policy)

/-- The checks and the summary of a block whose children are loaded. -/
def assembleNode (digest : MerkleDigest) (decoded : DecodedBlock k v)
    (children : List (Option (LoadedNode k v))) (policy : MerkleSearchTreePolicy k v) :
    Except MerkleVerificationError (LoadedNode k v) := do
  validateChildren decoded children policy
  let actualCount := decoded.decodedEntries.length +
    ((children.filterMap id).map LoadedNode.loadedCount).sum
  rejectIf (actualCount ≠ decoded.decodedSubtreeCount) ⟨.InvalidReference,
    "a block's declared subtree count disagrees with its closure", some digest⟩
  match interleaveLoaded decoded.decodedEntries children with
  | [] => .error ⟨.InvalidReference, "a Merkle node cannot be empty", some digest⟩
  | firstEntry :: remainingEntries =>
      let finalEntry := remainingEntries.foldl (fun _ entry => entry) firstEntry
      .ok {
        loadedLevel := decoded.decodedLevel
        loadedCount := actualCount
        loadedMinimum := firstEntry.1
        loadedMaximum := finalEntry.1
        loadedEntries := firstEntry :: remainingEntries }

mutual

def loadNode (digest : MerkleDigest) (depth : Nat)
    (policy : MerkleSearchTreePolicy k v) (store : MerkleBlockStore)
    (cache : DigestMap (LoadedNode k v)) (active : Finset MerkleDigest)
    (context : VerificationContext budget) :
    Except MerkleVerificationError
      (LoadedNode k v × DigestMap (LoadedNode k v) × VerificationContext budget) :=
  match hdepth : checkDepth depth (some digest) budget with
  | .error problem => .error problem
  | .ok () =>
      match cache.lookup digest with
      | some loaded => .ok (loaded, cache, context)
      | none =>
          if digest ∈ active then
            .error ⟨.CycleDetected, "the Merkle closure contains a reference cycle", some digest⟩
          else
            match blockStoreLookup digest store with
            | none => .error ⟨.MissingBlock, "a required Merkle block is absent", some digest⟩
            | some block => do
                let (decoded, context1) ← decodeBlock policy block depth context
                let (children, cache1, context2) ←
                  loadChildren decoded.decodedChildDigests (depth + 1) policy store
                    cache (Insert.insert digest active) context1
                let loaded ← assembleNode digest decoded children policy
                .ok (loaded, cache1.insert digest loaded, context2)
termination_by (budget.maxDepth + 1 - depth, 0)
decreasing_by
  have hle := (checkDepth_eq_ok.mp hdepth).2
  apply Prod.Lex.left
  omega

/-- Loads the child intervals from left to right. -/
def loadChildren (digests : List MerkleDigest) (depth : Nat)
    (policy : MerkleSearchTreePolicy k v) (store : MerkleBlockStore)
    (cache : DigestMap (LoadedNode k v)) (active : Finset MerkleDigest)
    (context : VerificationContext budget) :
    Except MerkleVerificationError (List (Option (LoadedNode k v)) ×
      DigestMap (LoadedNode k v) × VerificationContext budget) :=
  match digests with
  | [] => .ok ([], cache, context)
  | childDigest :: digests =>
      if childDigest = policy.merkleEmptyDigest then do
        let (rest, nextCache, nextContext) ←
          loadChildren digests depth policy store cache active context
        .ok (none :: rest, nextCache, nextContext)
      else do
        let (child, nextCache, nextContext) ←
          loadNode childDigest depth policy store cache active context
        let (rest, finalCache, finalContext) ←
          loadChildren digests depth policy store nextCache active nextContext
        .ok (some child :: rest, finalCache, finalContext)
termination_by (budget.maxDepth + 1 - depth, 1 + digests.length)
decreasing_by
  all_goals
    apply Prod.Lex.right
    simp only [length_cons]
    omega

end

def mapTreeError {α : Type} (digest : MerkleDigest) :
    Except MerkleTreeError α → Except MerkleVerificationError α
  | .ok value => .ok value
  | .error .MerkleTreeSizeOverflow => .error (limit "a decoded tree exceeds the size limit" digest)
  | .error problem => .error ⟨.NonCanonicalBlock,
      "a decoded tree could not be reconstructed: " ++ showMerkleTreeError problem,
      some digest⟩

/-- Rebuilds the loaded closure and compares it with the requested root. -/
def rebuildTree (root : MerkleDigest) (policy : MerkleSearchTreePolicy k v)
    (loaded : LoadedNode k v) :
    Except MerkleVerificationError (MerkleSearchTree k v) := do
  let tree ← mapTreeError root (fromList loaded.loadedEntries policy)
  rejectIf (tree.rootDigest ≠ root) ⟨.RootMismatch,
    "the reconstructed root does not match the requested root", some root⟩
  match validateStructure tree with
  | .error problem => .error ⟨.InvalidReference,
      "the verified closure failed final structure validation: " ++ problem,
      some root⟩
  | .ok _ => .ok tree

def loadWithContext (root : MerkleDigest) (policy : MerkleSearchTreePolicy k v)
    (store : MerkleBlockStore) (initial : VerificationContext budget) :
    Except MerkleVerificationError (MerkleSearchTree k v × VerificationContext budget) :=
  if root = policy.merkleEmptyDigest then .ok (emptyTree policy, initial)
  else do
    let (loaded, _, context) ← loadNode root 1 policy store ∅ ∅ initial
    let tree ← rebuildTree root policy loaded
    .ok (tree, context)

def loadTreeWithBudget (root : MerkleDigest)
    (policy : MerkleSearchTreePolicy k v) (store : MerkleBlockStore)
    (budget : MerkleVerificationBudget) :
    Except MerkleVerificationError (MerkleSearchTree k v) :=
  Prod.fst <$> loadWithContext root policy store (newContext budget)

def loadTree (root : MerkleDigest) (policy : MerkleSearchTreePolicy k v)
    (store : MerkleBlockStore) :
    Except MerkleVerificationError (MerkleSearchTree k v) :=
  loadTreeWithBudget root policy store defaultMerkleVerificationBudget

/-! ## Complete closures in a store -/

/-- The store holds a well-formed block under the digest, and so on below it. -/
inductive StoredClosure (policy : MerkleSearchTreePolicy k v)
    (store : MerkleBlockStore) : MerkleDigest → Prop where
  | intro {digest : MerkleDigest} (decoded : DecodedBlock k v)
      (stored : blockStoreLookup digest store = some decoded.decodedBlockSource)
      (wellFormed : WellFormedBlock policy decoded)
      (children : ∀ child ∈ decoded.decodedChildDigests,
        child ≠ policy.merkleEmptyDigest → StoredClosure policy store child) :
      StoredClosure policy store digest

variable {policy : MerkleSearchTreePolicy k v} {store : MerkleBlockStore}

theorem StoredClosure.mono {successor : MerkleBlockStore} {digest : MerkleDigest}
    (h : StoredClosure policy store digest)
    (hkeep : ∀ digest block, blockStoreLookup digest store = some block →
      blockStoreLookup digest successor = some block) :
    StoredClosure policy successor digest := by
  induction h with
  | intro decoded stored wellFormed _ ih => exact ⟨decoded, hkeep _ _ stored, wellFormed, ih⟩

/-- Every cached digest has its closure in the store. -/
def CacheClosed (policy : MerkleSearchTreePolicy k v) (store : MerkleBlockStore)
    (cache : DigestMap (LoadedNode k v)) : Prop :=
  ∀ digest loaded, cache.lookup digest = some loaded → StoredClosure policy store digest

theorem CacheClosed.empty : CacheClosed policy store ∅ := by
  intro digest loaded h
  simp at h

theorem CacheClosed.insert {cache : DigestMap (LoadedNode k v)}
    (h : CacheClosed policy store cache) {digest : MerkleDigest}
    (hclosed : StoredClosure policy store digest) (loaded : LoadedNode k v) :
    CacheClosed policy store (cache.insert digest loaded) := by
  intro other found hfound
  by_cases heq : other = digest
  · exact heq ▸ hclosed
  · rw [Finmap.lookup_insert_of_ne _ heq] at hfound
    exact h other found hfound

/-- The outcome of loading one digest keeps the cache closed. -/
private def LoadCloses (policy : MerkleSearchTreePolicy k v)
    (store : MerkleBlockStore) (budget : MerkleVerificationBudget) (depth : Nat) : Prop :=
  ∀ (digest : MerkleDigest) (cache : DigestMap (LoadedNode k v))
    (active : Finset MerkleDigest) (context : VerificationContext budget)
    (loaded : LoadedNode k v) (cache' : DigestMap (LoadedNode k v))
    (context' : VerificationContext budget),
    loadNode digest depth policy store cache active context = .ok (loaded, cache', context') →
    CacheClosed policy store cache →
    StoredClosure policy store digest ∧ CacheClosed policy store cache'

private theorem loadChildren_closed {depth : Nat} (hnode : LoadCloses policy store budget depth)
    {digests : List MerkleDigest} {cache cache' : DigestMap (LoadedNode k v)}
    {active : Finset MerkleDigest} {context context' : VerificationContext budget}
    {children : List (Option (LoadedNode k v))}
    (h : loadChildren digests depth policy store cache active context =
      .ok (children, cache', context')) (hcache : CacheClosed policy store cache) :
    (∀ child ∈ digests, child ≠ policy.merkleEmptyDigest → StoredClosure policy store child) ∧
      CacheClosed policy store cache' := by
  induction digests generalizing cache context children with
  | nil =>
      rw [loadChildren] at h
      cases h
      exact ⟨forall_mem_nil _, hcache⟩
  | cons digest digests ih =>
      rw [loadChildren] at h
      split at h
      · rename_i hempty
        simp only [bind_eq_ok, Prod.exists] at h
        obtain ⟨rest, _, _, hrest, ⟨⟩⟩ := h
        obtain ⟨hclosed, hcache'⟩ := ih hrest hcache
        exact ⟨forall_mem_cons.mpr ⟨fun hne => absurd hempty hne, hclosed⟩, hcache'⟩
      · simp only [bind_eq_ok, Prod.exists] at h
        obtain ⟨child, _, _, hchild, rest, _, _, hrest, ⟨⟩⟩ := h
        obtain ⟨hfirst, hnextCache⟩ := hnode _ _ _ _ _ _ _ hchild hcache
        obtain ⟨hclosed, hcache'⟩ := ih hrest hnextCache
        exact ⟨forall_mem_cons.mpr ⟨fun _ => hfirst, hclosed⟩, hcache'⟩

theorem loadNode_closed (depth : Nat) : LoadCloses policy store budget depth := by
  -- induction on the depth that is still allowed
  generalize hremaining : budget.maxDepth + 1 - depth = remaining
  induction remaining generalizing depth with
  | zero =>
      intro digest cache active context loaded cache' context' h _
      rw [loadNode] at h
      split at h
      · cases h
      · rename_i hdepth
        have hle := (checkDepth_eq_ok.mp hdepth).2
        omega
  | succ remaining ih =>
      intro digest cache active context loaded cache' context' h hcache
      rw [loadNode] at h
      split at h
      · cases h
      split at h
      · rename_i hfound
        cases h
        exact ⟨hcache digest loaded hfound, hcache⟩
      split at h
      · cases h
      split at h
      · cases h
      rename_i block hblock
      simp only [bind_eq_ok, Prod.exists] at h
      obtain ⟨decoded, context1, hdecode, children, cache1, context2, hchildren, node, -, ⟨⟩⟩ := h
      obtain ⟨rfl, hwellFormed, -⟩ := decodeBlock_eq_ok.mp hdecode
      obtain ⟨hbelow, hcache1⟩ := loadChildren_closed (ih (depth + 1) (by omega)) hchildren hcache
      have hclosed : StoredClosure policy store digest := ⟨decoded, hblock, hwellFormed, hbelow⟩
      exact ⟨hclosed, hcache1.insert hclosed _⟩

variable {tree : MerkleSearchTree k v}

theorem rebuildTree_eq_ok {root : MerkleDigest} {loaded : LoadedNode k v} :
    rebuildTree root policy loaded = .ok tree ↔
      fromList loaded.loadedEntries policy = .ok tree ∧ tree.rootDigest = root ∧
        ∃ statistics, validateStructure tree = .ok statistics := by
  have hmap : ∀ {result : Except MerkleTreeError (MerkleSearchTree k v)},
      mapTreeError root result = .ok tree ↔ result = .ok tree := by
    intro result
    match result with
    | .ok _ => simp [mapTreeError]
    | .error problem => cases problem <;> simp [mapTreeError]
  simp only [rebuildTree, bind_eq_ok, rejectIf_eq_ok, exists_const, ne_eq, not_not]
  constructor
  · rintro ⟨_, hbuild, hroot, h⟩
    split at h
    · cases h
    · next statistics hvalid =>
      cases h
      exact ⟨hmap.mp hbuild, hroot, statistics, hvalid⟩
  · rintro ⟨hbuild, hroot, statistics, hvalid⟩
    exact ⟨tree, hmap.mpr hbuild, hroot, by rw [hvalid]⟩

theorem loadWithContext_spec {root : MerkleDigest} {initial context : VerificationContext budget}
    (h : loadWithContext root policy store initial = .ok (tree, context)) :
    (root ≠ policy.merkleEmptyDigest → StoredClosure policy store root) ∧
      tree.rootDigest = root ∧ (∃ source, fromList source policy = .ok tree) ∧
      ∃ statistics, validateStructure tree = .ok statistics := by
  unfold loadWithContext at h
  split at h
  · rename_i hempty
    cases h
    subst hempty
    exact ⟨fun hne => absurd rfl hne, rfl, ⟨[], rfl⟩, _, rfl⟩
  · simp only [bind_eq_ok, Prod.exists, rebuildTree_eq_ok] at h
    obtain ⟨loaded, cache, context', hload, _, ⟨hbuild, hroot, hvalid⟩, ⟨⟩⟩ := h
    exact ⟨fun _ => (loadNode_closed 1 _ _ _ _ _ _ _ hload CacheClosed.empty).1,
      hroot, ⟨_, hbuild⟩, hvalid⟩

/-- The bytes of all blocks in a store. -/
def storedBytes (store : MerkleBlockStore) : Set ByteString :=
  {bytes | ∃ digest block, blockStoreLookup digest store = some block ∧
    block.merkleBlockBytes = bytes}

/-- Every block of the tree is in the store under its digest. -/
def HoldsTree (store : MerkleBlockStore) (tree : MerkleSearchTree k v) : Prop :=
  ∀ node ∈ treePreorder tree, blockStoreLookup node.nodeDigest store = some node.storedBlock

section Tree

variable {tree : MerkleSearchTree k v} {inputs : Set ByteString}
  (htree : CanonicalTree tree) (hcollision : CollisionFree inputs)
  (hinputs : hashedBytes tree ⊆ inputs) (hstored : storedBytes store ⊆ inputs)

include htree hcollision hinputs hstored

theorem StoredClosure.holdsNode {node : MerkleNode k v} (hnode : node ∈ treePreorder tree)
    (hclosed : StoredClosure tree.policy store node.nodeDigest) :
    ∀ below ∈ nodePreorder node,
      blockStoreLookup below.nodeDigest store = some below.storedBlock := by
  induction node using childInduction with
  | step node ih =>
      obtain ⟨decoded, hlookup, hwellFormed, hchildren⟩ := hclosed
      obtain ⟨hsource, hmatches⟩ := hwellFormed.matches_of_digest htree hcollision
        hinputs (hstored ⟨_, _, hlookup, rfl⟩) hnode
        (blockStoreLookup_digest hlookup)
      intro below hbelow
      rcases mem_nodePreorder.mp hbelow with rfl | ⟨child, hchild, hbelow⟩
      · rw [hlookup, hsource]
      · have hmem := treePreorder_child hnode hchild
        refine ih child hchild hmem (hchildren _ ?_ ?_) below hbelow
        · rw [hmatches.children_eq]
          exact mem_map.mpr ⟨some child, hchild, rfl⟩
        · exact nodeDigest_ne_empty htree hcollision hinputs hmem

theorem StoredClosure.holdsTree (hclosed : tree.rootDigest ≠ tree.policy.merkleEmptyDigest →
      StoredClosure tree.policy store tree.rootDigest) : HoldsTree store tree := by
  intro node hnode
  have hroot := rootDigest_eq_empty htree hcollision hinputs
  cases htreeRoot : tree.treeRoot with
  | none => simp [treePreorder, htreeRoot] at hnode
  | some root =>
      have hmem := root_mem_treePreorder htreeRoot
      have hdigest := rootDigest_some htreeRoot
      have hclosure := hclosed (by rw [ne_eq, hroot, htreeRoot]; simp)
      rw [hdigest] at hclosure
      rw [treePreorder, htreeRoot] at hnode
      exact hclosure.holdsNode htree hcollision hinputs hstored hmem node hnode

end Tree

theorem blocksPreorder_block (tree : MerkleSearchTree k v) :
    (blocksPreorder tree).map MerkleBlockView.block = (treePreorder tree).map storedBlock := by
  rw [blocksPreorder, map_map]
  rfl

theorem trustedPack_spec {blocks : List MerkleBlock}
    {pack : MerkleBlockPack} (h : trustedPack tree blocks = some pack) :
    pack.packAlgorithmId = merkleAlgorithmId ∧
      pack.packDomainDigest = tree.policy.merkleDomainDigest ∧
      pack.packRootDigest = tree.rootDigest ∧ pack.packBlocks = blocks := by
  rw [trustedPack] at h
  cases hpack : makeMerkleBlockPack merkleAlgorithmId tree.policy.merkleDomainDigest
      tree.rootDigest blocks with
  | error problem =>
      rw [hpack] at h
      cases h
  | ok built =>
      rw [hpack] at h
      cases h
      exact makeMerkleBlockPack_spec hpack

theorem trustedPack_total (htree : CanonicalTree tree) {nodes : List (MerkleNode k v)}
    (hnodup : (nodes.map nodeDigest).Nodup) (hsub : nodes.Subperm (treePreorder tree)) :
    ∃ pack, trustedPack tree (nodes.map storedBlock) = some pack := by
  have hle := htree.sum_byteCount_le hsub
  have hpack : ∃ pack, makeMerkleBlockPack merkleAlgorithmId
      tree.policy.merkleDomainDigest tree.rootDigest
      (nodes.map storedBlock) = .ok pack := by
    apply makeMerkleBlockPack_total (by decide +kernel)
    · rw [map_map]
      exact hnodup
    · rw [blockByteSum, map_map]
      exact lt_of_le_of_lt hle (by decide)
  obtain ⟨pack, hpack⟩ := hpack
  exact ⟨pack, by rw [trustedPack, hpack]; rfl⟩

theorem saveTree_total (htree : CanonicalTree tree)
    (hnodup : ((treePreorder tree).map nodeDigest).Nodup)
    (h : ∀ node ∈ treePreorder tree, ∀ existing,
      blockStoreLookup node.nodeDigest store = some existing → existing = node.storedBlock) :
    ∃ added successor, saveTree tree store = some (.ok (added, successor)) := by
  obtain ⟨pack, hpack⟩ := trustedPack_total htree hnodup (List.Subperm.refl _)
  obtain ⟨-, -, -, hblocks⟩ := trustedPack_spec hpack
  have hconflicts : ∀ block ∈ pack.packBlocks, ∀ existing,
      blockStoreLookup block.merkleBlockDigest store = some existing → existing = block := by
    intro block hblock
    rw [hblocks] at hblock
    obtain ⟨node, hnode, rfl⟩ := mem_map.mp hblock
    exact h node hnode
  have hdistinct : (pack.packBlocks.map MerkleBlock.merkleBlockDigest).Nodup := by
    rw [hblocks, map_map]
    exact hnodup
  obtain ⟨added, successor, hpublish⟩ := publishBlocks_total hdistinct hconflicts
  refine ⟨added, successor, ?_⟩
  rw [saveTree, exportPack, blocksPreorder_block, hpack, Option.bind_eq_bind,
    Option.bind_some, preflightStore_eq_ok.mpr hconflicts, except_ok_bind, hpublish]

theorem saveTree_spec {store successor : MerkleBlockStore}
    {added : Nat} (h : saveTree tree store = some (.ok (added, successor))) :
    HoldsTree successor tree ∧
      (∀ digest block, blockStoreLookup digest store = some block →
        blockStoreLookup digest successor = some block) ∧
      ∀ digest block, blockStoreLookup digest successor = some block →
        (∃ node ∈ treePreorder tree, block = node.storedBlock) ∨
          blockStoreLookup digest store = some block := by
  rw [saveTree, Option.bind_eq_bind, Option.bind_eq_some_iff] at h
  obtain ⟨pack, hpack, h⟩ := h
  rw [Option.some.injEq, bind_eq_ok] at h
  obtain ⟨⟨⟩, -, hpublish⟩ := h
  obtain ⟨-, -, -, hblocks⟩ := trustedPack_spec hpack
  rw [hblocks, blocksPreorder_block] at hpublish
  obtain ⟨hhere, hkeep, hback⟩ := publishBlocks_spec hpublish
  refine ⟨fun node hnode => hhere _ (mem_map_of_mem hnode), hkeep, fun digest block hblock => ?_⟩
  rcases hback digest block hblock with hmem | hold
  · obtain ⟨node, hnode, rfl⟩ := mem_map.mp hmem
    exact .inl ⟨node, hnode, rfl⟩
  · exact .inr hold

end Durable7.Hamt
