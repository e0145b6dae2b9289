import Durable7.Foundation.Lists
import Durable7.Hamt.MerklePersistence.ProofCreation
import Durable7.Hamt.MerklePersistence.Transfers

/-!
# Imports and the closures they complete

A successful import leaves the complete closure of the declared root in the
receiver, and no later save or import removes it.  A receiver that holds every
child its blocks refer to can be brought up to date with one pruned pack.
-/

namespace Durable7.Hamt

open Foundation List MerkleNode MerkleBlockView Nat

variable {k v : Type} {policy : MerkleSearchTreePolicy k v} {budget : MerkleVerificationBudget}

theorem stageBlock_eq_ok {staged next : MerkleBlockStore} {block : MerkleBlock}
    (h : stageBlock staged block = .ok next) : putBlock block staged = .ok (true, next) := by
  unfold stageBlock at h
  rw [putBlock]
  cases hfound : blockStoreLookup block.merkleBlockDigest staged with
  | none =>
      rw [hfound] at h
      cases h
      rfl
  | some existing =>
      rw [hfound] at h
      dsimp only at h
      split at h <;> cases h

theorem stageBlocks_publish {blocks : List MerkleBlock} {staged : MerkleBlockStore}
    (h : blocks.foldlM stageBlock emptyBlockStore = .ok staged) :
    ∃ added, publishBlocks blocks emptyBlockStore = .ok (added, staged) := by
  have hfold : ∀ (blocks : List MerkleBlock) (start : MerkleBlockStore) (count : Nat),
      blocks.foldlM stageBlock start = .ok staged →
      ∃ added, blocks.foldlM (fun (state : Nat × MerkleBlockStore) block =>
        putBlock block state.2 >>= fun result =>
          .ok (state.1 + (if result.1 then 1 else 0), result.2)) (count, start) =
            .ok (added, staged) := by
    intro blocks
    induction blocks with
    | nil =>
        intro start count hstart
        cases hstart
        exact ⟨count, rfl⟩
    | cons block blocks ih =>
        intro start count hstart
        rw [foldlM_cons, bind_eq_ok] at hstart
        obtain ⟨next, hnext, hrest⟩ := hstart
        rw [foldlM_cons, stageBlock_eq_ok hnext, except_ok_bind, except_ok_bind]
        exact ih next _ hrest
  exact hfold blocks emptyBlockStore 0 h

theorem stageBlocks_total {blocks : List MerkleBlock}
    (hnodup : (blocks.map MerkleBlock.merkleBlockDigest).Nodup) :
    ∃ staged, blocks.foldlM stageBlock emptyBlockStore = .ok staged := by
  have hfold : ∀ (blocks : List MerkleBlock) (start : MerkleBlockStore),
      (blocks.map MerkleBlock.merkleBlockDigest).Nodup →
      (∀ block ∈ blocks, blockStoreLookup block.merkleBlockDigest start = none) →
      ∃ staged, blocks.foldlM stageBlock start = .ok staged := by
    intro blocks
    induction blocks with
    | nil => exact fun start _ _ => ⟨start, rfl⟩
    | cons block blocks ih =>
        intro start hnodup hfresh
        rw [map_cons, nodup_cons] at hnodup
        have hstage : stageBlock start block = .ok (start.insertBlock block) := by
          rw [stageBlock, hfresh block (by simp)]
        rw [foldlM_cons, hstage, except_ok_bind]
        refine ih _ hnodup.2 fun other hother => ?_
        rw [blockStoreLookup_insertBlock, if_neg, hfresh other (by simp [hother])]
        intro heq
        exact hnodup.1 (heq ▸ mem_map_of_mem hother)
  exact hfold blocks emptyBlockStore hnodup (by simp)

variable {tree : MerkleSearchTree k v} {destination published : MerkleBlockStore}

theorem importPackWithBudget_eq_ok {pack : MerkleBlockPack} :
    importPackWithBudget pack policy destination budget = .ok (tree, published) ↔
      (pack.packAlgorithmId = merkleAlgorithmId ∧
        pack.packDomainDigest = policy.merkleDomainDigest) ∧
      ∃ context staged final added,
        verifySupplied policy pack.packBlocks (newContext budget) = .ok context ∧
        pack.packBlocks.foldlM stageBlock emptyBlockStore = .ok staged ∧
        loadWithContext pack.packRootDigest policy (staged.union destination) context =
          .ok (tree, final) ∧
        preflightStore pack.packBlocks destination = .ok () ∧
        publishBlocks pack.packBlocks destination = .ok (added, published) := by
  rw [importPackWithBudget, bind_eq_ok]
  constructor
  · rintro ⟨⟨⟩, henvelope, h⟩
    rw [bind_eq_ok] at h
    obtain ⟨context, hcontext, h⟩ := h
    rw [bind_eq_ok] at h
    obtain ⟨staged, hstaged, h⟩ := h
    rw [bind_eq_ok] at h
    obtain ⟨⟨loaded, final⟩, hload, h⟩ := h
    simp only at h
    rw [bind_eq_ok] at h
    obtain ⟨⟨⟩, hpreflight, h⟩ := h
    rw [bind_eq_ok] at h
    obtain ⟨⟨added, successor⟩, hpublish, h⟩ := h
    cases h
    exact ⟨verifyEnvelope_eq_ok.mp henvelope, context, staged, final, added, hcontext,
      hstaged, hload, hpreflight, hpublish⟩
  · rintro ⟨henvelope, context, staged, final, added, hcontext, hstaged, hload,
      hpreflight, hpublish⟩
    refine ⟨⟨⟩, verifyEnvelope_eq_ok.mpr henvelope, ?_⟩
    rw [hcontext, except_ok_bind, hstaged, except_ok_bind, hload, except_ok_bind]
    simp only
    rw [hpreflight, except_ok_bind, hpublish, except_ok_bind]

/-- The closure of a digest that is not that of the empty tree. -/
def ClosureStored (policy : MerkleSearchTreePolicy k v) (store : MerkleBlockStore)
    (root : MerkleDigest) : Prop :=
  root ≠ policy.merkleEmptyDigest → StoredClosure policy store root

theorem importPackWithBudget_spec {pack : MerkleBlockPack}
    (h : importPackWithBudget pack policy destination budget = .ok (tree, published)) :
    ClosureStored policy published pack.packRootDigest ∧
      (∀ digest block, blockStoreLookup digest destination = some block →
        blockStoreLookup digest published = some block) ∧
      ∀ digest block, blockStoreLookup digest published = some block →
        block ∈ pack.packBlocks ∨ blockStoreLookup digest destination = some block := by
  obtain ⟨-, context, staged, final, added, -, hstaged, hload, -, hpublish⟩ :=
    importPackWithBudget_eq_ok.mp h
  obtain ⟨count, hstagedPublish⟩ := stageBlocks_publish hstaged
  obtain ⟨-, -, hstagedBack⟩ := publishBlocks_spec hstagedPublish
  obtain ⟨hhere, hkeep, hback⟩ := publishBlocks_spec hpublish
  obtain ⟨hclosed, -⟩ := loadWithContext_spec hload
  refine ⟨fun hne => (hclosed hne).mono fun digest block hblock => ?_, hkeep, hback⟩
  rw [blockStoreLookup_union] at hblock
  cases hfront : blockStoreLookup digest staged with
  | none =>
      rw [hfront, Option.none_or] at hblock
      exact hkeep digest block hblock
  | some supplied =>
      rw [hfront, Option.some_or] at hblock
      cases hblock
      rcases hstagedBack digest block hfront with hmem | hempty
      · have hdigest := blockStoreLookup_digest hfront
        exact hdigest ▸ hhere block hmem
      · simp at hempty

/-! ## Runs of a receiver -/

/-- Saves and successful imports from the empty store, latest first. -/
inductive ReceiverRun (policy : MerkleSearchTreePolicy k v) :
    List (MerkleSearchTree k v) → List MerkleBlockPack → MerkleBlockStore → Prop where
  | start : ReceiverRun policy [] [] emptyBlockStore
  | save {trees : List (MerkleSearchTree k v)} {packs : List MerkleBlockPack}
      {store successor : MerkleBlockStore} {added : Nat}
      (run : ReceiverRun policy trees packs store) (tree : MerkleSearchTree k v)
      (reachable : Reachable policy tree)
      (saved : saveTree tree store = some (.ok (added, successor))) :
      ReceiverRun policy (tree :: trees) packs successor
  | receive {trees : List (MerkleSearchTree k v)} {packs : List MerkleBlockPack}
      {store successor : MerkleBlockStore} {tree : MerkleSearchTree k v}
      (run : ReceiverRun policy trees packs store) (pack : MerkleBlockPack)
      (budget : MerkleVerificationBudget)
      (imported : importPackWithBudget pack policy store budget = .ok (tree, successor)) :
      ReceiverRun policy trees (pack :: packs) successor

variable {store : MerkleBlockStore}

theorem HoldsTree.closureStored (hlaw : LawfulWirePolicy policy)
    (htree : CanonicalTree tree) (hpolicy : tree.policy = policy) (h : HoldsTree store tree) :
    (∀ node ∈ treePreorder tree, StoredClosure policy store node.nodeDigest) ∧
      ClosureStored policy store tree.rootDigest := by
  subst hpolicy
  have hnodes : ∀ node ∈ treePreorder tree,
      StoredClosure tree.policy store node.nodeDigest := by
    intro node
    induction node using childInduction with
    | step node ih =>
        intro hnode
        refine ⟨node.decoded tree.policy, h node hnode,
          (htree.orderedNode node hnode).wellFormed hlaw, fun digest hdigest hne => ?_⟩
        obtain ⟨child, hchild, rfl⟩ := mem_map.mp hdigest
        cases child with
        | none => exact absurd rfl hne
        | some child => exact ih child hchild (treePreorder_child hnode hchild)
  refine ⟨hnodes, fun hne => ?_⟩
  obtain ⟨root, policy⟩ := tree
  cases root with
  | none => exact absurd rfl hne
  | some root => exact hnodes root (self_mem_nodePreorder root)

variable {trees : List (MerkleSearchTree k v)}

theorem ReceiverRun.closures (hlaw : LawfulWirePolicy policy)
    {packs : List MerkleBlockPack} (h : ReceiverRun policy trees packs store) :
    (∀ tree ∈ trees, ClosureStored policy store tree.rootDigest) ∧
      (∀ pack ∈ packs, ClosureStored policy store pack.packRootDigest) ∧
      ∀ digest block, blockStoreLookup digest store = some block →
        StoredClosure policy store digest ∨ ∃ pack ∈ packs, block ∈ pack.packBlocks := by
  induction h with
  | start => simp
  | @save trees packs store successor added run tree reachable saved ih =>
      obtain ⟨hsavedTrees, himported, hblocks⟩ := ih
      obtain ⟨hholds, hkeep, hback⟩ := saveTree_spec saved
      obtain ⟨hcanonical, hpolicy⟩ := reachable.canonical hlaw.toLawfulPolicy
      obtain ⟨hnodes, hroot⟩ := hholds.closureStored hlaw hcanonical hpolicy
      refine ⟨fun other hother hne => ?_, fun pack hpack hne =>
        (himported pack hpack hne).mono hkeep, fun digest block hblock => ?_⟩
      · rcases mem_cons.mp hother with rfl | hother
        · exact hroot hne
        · exact (hsavedTrees other hother hne).mono hkeep
      · rcases hback digest block hblock with ⟨node, hnode, rfl⟩ | hbefore
        · have hdigest := blockStoreLookup_digest hblock
          exact .inl (hdigest ▸ hnodes node hnode)
        · rcases hblocks digest block hbefore with hclosed | hpack
          · exact .inl (hclosed.mono hkeep)
          · exact .inr hpack
  | @receive trees packs store successor tree run pack budget imported ih =>
      obtain ⟨hsavedTrees, himported, hblocks⟩ := ih
      obtain ⟨hclosed, hkeep, hback⟩ := importPackWithBudget_spec imported
      refine ⟨fun other hother hne => (hsavedTrees other hother hne).mono hkeep,
        fun other hother hne => ?_, fun digest block hblock => ?_⟩
      · rcases mem_cons.mp hother with rfl | hother
        · exact hclosed hne
        · exact (himported other hother hne).mono hkeep
      · rcases hback digest block hblock with hmem | hbefore
        · exact .inr ⟨pack, mem_cons_self, hmem⟩
        · rcases hblocks digest block hbefore with hclosed | ⟨other, hother, hmem⟩
          · exact .inl (hclosed.mono hkeep)
          · exact .inr ⟨other, mem_cons_of_mem _ hother, hmem⟩

/-- Digests reached from a root through stored blocks. -/
inductive StoredBelow (policy : MerkleSearchTreePolicy k v) (store : MerkleBlockStore)
    (root : MerkleDigest) : MerkleDigest → Prop where
  | root (nonempty : root ≠ policy.merkleEmptyDigest) : StoredBelow policy store root root
  | child {digest child : MerkleDigest} (decoded : DecodedBlock k v)
      (above : StoredBelow policy store root digest)
      (stored : blockStoreLookup digest store = some decoded.decodedBlockSource)
      (wellFormed : WellFormedBlock policy decoded)
      (referenced : child ∈ decoded.decodedChildDigests)
      (nonempty : child ≠ policy.merkleEmptyDigest) :
      StoredBelow policy store root child

/-- Every child that a stored block refers to is stored. -/
def ClosedStore (policy : MerkleSearchTreePolicy k v) (store : MerkleBlockStore) : Prop :=
  ∀ digest block, blockStoreLookup digest store = some block →
    ∃ decoded, decoded.decodedBlockSource = block ∧ WellFormedBlock policy decoded ∧
      ∀ child ∈ decoded.decodedChildDigests, child ≠ policy.merkleEmptyDigest →
        blockStoreContains child store = true

theorem WellFormedBlock.children_unique {left right : DecodedBlock k v}
    (hleft : WellFormedBlock policy left) (hright : WellFormedBlock policy right)
    (h : left.decodedBlockSource = right.decodedBlockSource) :
    left.decodedChildDigests = right.decodedChildDigests := by
  have hbytes := congrArg MerkleBlock.merkleBlockBytes h
  have hleftLength := hleft.entries_le
  have hrightLength := hright.entries_le
  have hleftCount := hleft.subtree_le
  have hrightCount := hright.subtree_le
  have hfits : ∀ {block : DecodedBlock k v}, WellFormedBlock policy block →
      ∀ entry ∈ block.decodedEntries.map DecodedEntry.encoded, FitsPrefix entry := by
    intro block hblock encoded hencoded
    obtain ⟨entry, hentry, rfl⟩ := mem_map.mp hencoded
    exact ⟨(hblock.valid entry hentry).key_le, (hblock.valid entry hentry).value_le⟩
  rw [hleft.bytes_eq, hright.bytes_eq, encodeRawBlock, encodeRawBlock] at hbytes
  obtain ⟨-, -, -, hchildren⟩ := blockBytes_injective hleftCount hrightCount
    (by rw [length_map]; omega) (by rw [length_map]; omega) (hfits hleft)
    (hfits hright) hbytes
  exact hchildren

theorem ClosureStored.of_below {root digest : MerkleDigest} (h : ClosureStored policy store root)
    (hbelow : StoredBelow policy store root digest) :
    StoredClosure policy store digest := by
  induction hbelow with
  | root hne => exact h hne
  | child decoded _ stored wellFormed referenced hne ih =>
      obtain ⟨other, hstored, hother, hchildren⟩ := ih
      rw [stored] at hstored
      have hsame := wellFormed.children_unique hother (Option.some.inj hstored)
      exact hchildren _ (hsame ▸ referenced) hne

theorem StoredClosure.contains {digest : MerkleDigest} (h : StoredClosure policy store digest) :
    blockStoreContains digest store = true := by
  obtain ⟨decoded, hstored, -, -⟩ := h
  exact blockStoreContains_iff.mpr ⟨_, hstored⟩

theorem ReceiverRun.closedStore (hlaw : LawfulWirePolicy policy) {packs : List MerkleBlockPack}
    (h : ReceiverRun policy trees packs store) (hpacks : ∀ pack ∈ packs, ∀ block ∈ pack.packBlocks,
      StoredBelow policy store pack.packRootDigest block.merkleBlockDigest) :
    ClosedStore policy store := by
  obtain ⟨-, hroots, hblocks⟩ := h.closures hlaw
  intro digest block hblock
  have hclosed : StoredClosure policy store digest := by
    rcases hblocks digest block hblock with hclosed | ⟨pack, hpack, hmem⟩
    · exact hclosed
    · rw [← blockStoreLookup_digest hblock]
      exact (hroots pack hpack).of_below (hpacks pack hpack block hmem)
  obtain ⟨decoded, hstored, hwellFormed, hchildren⟩ := hclosed
  rw [hblock] at hstored
  exact ⟨decoded, (Option.some.inj hstored).symm, hwellFormed,
    fun child hchild hne => (hchildren child hchild hne).contains⟩

/-! ## The blocks a receiver lacks -/

def missingIndexes (receiver : MerkleBlockStore) (node : MerkleNode k v) : List Nat :=
  (List.range node.nodeChildren.length).filter fun index =>
    (node.child index).any fun child => !blockStoreContains child.nodeDigest receiver

/-- The blocks of an interval, pruned at those the receiver holds. -/
def missingBelow (receiver : MerkleBlockStore) (interval : Option (MerkleNode k v)) :
    List (MerkleNode k v) :=
  expansion (missingIndexes receiver)
    (interval.filter fun node => !blockStoreContains node.nodeDigest receiver)

theorem missingIndexes_expands (receiver : MerkleBlockStore) :
    ExpandsIntervals (missingIndexes (k := k) (v := v) receiver) where
  sublist _ := filter_sublist
  present node index hindex := by
    have hpresent := (mem_filter.mp hindex).2
    cases hchild : node.child index with
    | none => simp [hchild] at hpresent
    | some child => exact ⟨child, rfl⟩

variable {node : MerkleNode k v}

section Missing

variable {receiver : MerkleBlockStore}

@[simp] theorem missingBelow_none : missingBelow (k := k) (v := v) receiver none = [] := by
  simp [missingBelow]

theorem missingBelow_contained (h : blockStoreContains node.nodeDigest receiver = true) :
    missingBelow receiver (some node) = [] := by
  rw [missingBelow, Option.filter_some, h]
  simp

theorem missingBelow_some (h : blockStoreContains node.nodeDigest receiver = false) :
    missingBelow receiver (some node) = expansion (missingIndexes receiver) (some node) := by
  rw [missingBelow, Option.filter_some, h]
  rfl

theorem missingBelow_missing (h : blockStoreContains node.nodeDigest receiver = false) :
    missingBelow receiver (some node) =
      node :: node.nodeChildren.flatMap (missingBelow receiver) := by
  rw [missingBelow_some h, expansion_some, ← flatMap_nodeChildren]
  congr 1
  have hskipped : ∀ index ∈ List.range node.nodeChildren.length,
      ((node.child index).any fun child => !blockStoreContains child.nodeDigest receiver) = false →
      missingBelow receiver (node.child index) = [] := by
    intro index _ hkeep
    cases hchild : node.child index with
    | none => exact missingBelow_none
    | some child => exact missingBelow_contained (by simpa [hchild] using hkeep)
  rw [← flatMap_filter_of_skipped hskipped]
  refine flatMap_congr fun index hindex => ?_
  have hmissing := (mem_filter.mp hindex).2
  cases hchild : node.child index with
  | none => simp [hchild] at hmissing
  | some child => rw [missingBelow_some (by simpa [hchild] using hmissing)]

/-- An empty store misses everything. -/
theorem missingBelow_empty (node : MerkleNode k v) :
    missingBelow emptyBlockStore (some node) = nodePreorder node := by
  induction node using childInduction with
  | step node ih =>
      rw [missingBelow_missing (by simp [blockStoreContains, emptyBlockStore]), nodePreorder_eq,
        flatMap_presentChildren missingBelow_none]
      exact congrArg _ (flatMap_congr fun child hchild => ih child (mem_presentChildren.mp hchild))

variable (receiver) in
theorem missingBelow_sublist (tree : MerkleSearchTree k v) :
    (missingBelow receiver tree.treeRoot).Sublist (treePreorder tree) := by
  obtain ⟨root, policy⟩ := tree
  cases root with
  | none => simp
  | some root =>
      cases h : blockStoreContains root.nodeDigest receiver with
      | true => simp [missingBelow_contained h]
      | false =>
          rw [missingBelow_some h]
          exact expansion_sublist (missingIndexes_expands receiver) root

end Missing

/-! ## Synchronization packs -/

section SyncPack

variable {receiver : MerkleBlockStore} {tree : MerkleSearchTree k v}
  (htree : CanonicalTree tree) (hlaw : LawfulPolicy tree.policy)
  (hcollision : CollisionFree (hashedBytes tree))

include htree hlaw hcollision

theorem lookup_blockIndex {α : Type} (field : MerkleBlockView → α)
    (hnode : node ∈ treePreorder tree) :
    (blockIndex tree field).lookup node.nodeDigest = some (field node.blockView) := by
  rw [blockIndex, blocksPreorder, map_map]
  apply lookup_digestMapFromList
  · rw [map_map]
    exact htree.digests_nodup hlaw hcollision
  · exact mem_map.mpr ⟨node, hnode, rfl⟩

private theorem walkMissing_cons {visits : Nat} (hnode : node ∈ treePreorder tree)
    (rest : List MerkleDigest) (result : List MerkleBlock) :
    (blockStoreContains node.nodeDigest receiver = true →
      walkMissing tree.policy receiver (blockIndex tree block)
        (trustedDecoded tree) visits (node.nodeDigest :: rest) result =
      walkMissing tree.policy receiver (blockIndex tree block)
        (trustedDecoded tree) visits rest result) ∧
    (blockStoreContains node.nodeDigest receiver = false →
      walkMissing tree.policy receiver (blockIndex tree block)
        (trustedDecoded tree) (visits + 1) (node.nodeDigest :: rest) result =
      walkMissing tree.policy receiver (blockIndex tree block)
        (trustedDecoded tree) visits
        (node.nodeChildren.map (childDigest tree.policy) ++ rest)
        (node.storedBlock :: result)) := by
  have hne := nodeDigest_ne_empty htree hcollision (fun _ h => h) hnode
  constructor
  · intro hcontains
    rw [walkMissing.eq_def]
    simp only
    rw [if_neg hne, if_pos hcontains]
  · intro hcontains
    rw [walkMissing.eq_def]
    simp only
    rw [if_neg hne, if_neg (by simp [hcontains]),
      lookup_blockIndex htree hlaw hcollision _ hnode,
      lookup_trustedDecoded htree hlaw hcollision hnode]
    rfl

omit htree hlaw hcollision in
private theorem walkMissing_intervals (visits : Nat)
    (hwalk : ∀ child, some child ∈ node.nodeChildren → ∀ visits rest result,
      walkMissing tree.policy receiver (blockIndex tree block)
        (trustedDecoded tree) (visits + (missingBelow receiver (some child)).length)
        (child.nodeDigest :: rest) result =
      walkMissing tree.policy receiver (blockIndex tree block)
        (trustedDecoded tree) visits rest
        (((missingBelow receiver (some child)).map storedBlock).reverse ++ result)) :
    ∀ (intervals : List (Option (MerkleNode k v))) (rest : List MerkleDigest)
      (result : List MerkleBlock),
      (∀ interval ∈ intervals, interval ∈ node.nodeChildren) →
      walkMissing tree.policy receiver (blockIndex tree block)
        (trustedDecoded tree)
        (visits + (intervals.flatMap (missingBelow receiver)).length)
        (intervals.map (childDigest tree.policy) ++ rest) result =
      walkMissing tree.policy receiver (blockIndex tree block)
        (trustedDecoded tree) visits rest
        (((intervals.flatMap (missingBelow receiver)).map storedBlock).reverse ++ result) := by
  intro intervals
  induction intervals with
  | nil =>
      intro rest result _
      rfl
  | cons interval intervals ih =>
      intro rest result hmem
      have hrest := fun other hother => hmem other (mem_cons_of_mem _ hother)
      cases interval with
      | none =>
          rw [map_cons, cons_append, walkMissing.eq_def]
          simp only
          rw [if_pos (show childDigest tree.policy none = tree.policy.merkleEmptyDigest
            from rfl), flatMap_cons, missingBelow_none, nil_append]
          exact ih rest result hrest
      | some child =>
          rw [flatMap_cons, length_append, map_cons, cons_append,
            add_comm (missingBelow receiver (some child)).length, ← add_assoc,
            childDigest, Option.elim_some, hwalk child (hmem _ (by simp)),
            ih rest _ hrest, map_append, reverse_append, append_assoc]

private theorem walkMissing_node (hnode : node ∈ treePreorder tree) :
    ∀ (visits : Nat) (rest : List MerkleDigest) (result : List MerkleBlock),
      walkMissing tree.policy receiver (blockIndex tree block)
        (trustedDecoded tree) (visits + (missingBelow receiver (some node)).length)
        (node.nodeDigest :: rest) result =
      walkMissing tree.policy receiver (blockIndex tree block)
        (trustedDecoded tree) visits rest
        (((missingBelow receiver (some node)).map storedBlock).reverse ++ result) := by
  induction node using childInduction with
  | step node ih =>
      intro visits rest result
      cases hcontains : blockStoreContains node.nodeDigest receiver with
      | true =>
          rw [missingBelow_contained hcontains]
          exact (walkMissing_cons htree hlaw hcollision hnode rest result).1 hcontains
      | false =>
          rw [missingBelow_missing hcontains, length_cons, ← add_assoc,
            (walkMissing_cons htree hlaw hcollision hnode rest result).2 hcontains,
            walkMissing_intervals visits
              (fun child hchild => ih child hchild (treePreorder_child hnode hchild))
              _ _ _ fun _ h => h]
          rw [map_cons, reverse_cons, append_assoc]
          rfl

theorem walkMissing_root :
    walkMissing tree.policy receiver (blockIndex tree block)
      (trustedDecoded tree) (treePreorder tree).length [tree.rootDigest] [] =
      some ((missingBelow receiver tree.treeRoot).map storedBlock) := by
  have hlength := (missingBelow_sublist receiver tree).length_le
  cases hroot : tree.treeRoot with
  | none =>
      have hdigest := (rootDigest_eq_empty htree hcollision fun _ h => h).mpr hroot
      rw [walkMissing.eq_def]
      simp only
      rw [if_pos hdigest, walkMissing.eq_def, missingBelow_none]
      rfl
  | some root =>
      have hmem := root_mem_treePreorder hroot
      have hdigest := rootDigest_some hroot
      rw [hroot] at hlength
      rw [← Nat.sub_add_cancel hlength, hdigest,
        walkMissing_node htree hlaw hcollision hmem, walkMissing.eq_def]
      simp

theorem createSyncPack_eq (receiver : MerkleBlockStore) :
    ∃ pack, createSyncPack receiver tree = some pack ∧
      pack.packAlgorithmId = merkleAlgorithmId ∧
      pack.packDomainDigest = tree.policy.merkleDomainDigest ∧
      pack.packRootDigest = tree.rootDigest ∧
      pack.packBlocks = (missingBelow receiver tree.treeRoot).map storedBlock := by
  have hsublist := missingBelow_sublist receiver tree
  obtain ⟨pack, hpack⟩ := trustedPack_total htree
    ((htree.digests_nodup hlaw hcollision).sublist (hsublist.map _)) hsublist.subperm
  refine ⟨pack, ?_, trustedPack_spec hpack⟩
  rw [createSyncPack, walkMissing_root htree hlaw hcollision, Option.bind_eq_bind,
    Option.bind_some, hpack]

end SyncPack

section ImportSync

variable {receiver : MerkleBlockStore} {tree : MerkleSearchTree k v}
  (htree : CanonicalTree tree) (hlaw : LawfulWirePolicy tree.policy)
  (hcollision : CollisionFree (hashedBytes tree ∪ storedBytes receiver))
  (hclosed : ClosedStore tree.policy receiver)

include htree hcollision hclosed in
theorem ClosedStore.holdsNode (hnode : node ∈ treePreorder tree)
    (hcontains : blockStoreContains node.nodeDigest receiver = true) :
    ∀ below ∈ nodePreorder node,
      blockStoreLookup below.nodeDigest receiver = some below.storedBlock := by
  induction node using childInduction with
  | step node ih =>
      obtain ⟨block, hblock⟩ := blockStoreContains_iff.mp hcontains
      obtain ⟨decoded, rfl, hwellFormed, hchildren⟩ := hclosed _ _ hblock
      obtain ⟨hsource, hmatches⟩ := hwellFormed.matches_of_digest htree hcollision
        Set.subset_union_left (.inr ⟨_, _, hblock, rfl⟩) hnode
        (blockStoreLookup_digest hblock)
      intro below hbelow
      rcases mem_nodePreorder.mp hbelow with rfl | ⟨child, hchild, hbelow⟩
      · rw [hblock, hsource]
      · have hmem := treePreorder_child hnode hchild
        refine ih child hchild hmem (hchildren _ ?_ ?_) below hbelow
        · rw [hmatches.children_eq]
          exact mem_map.mpr ⟨some child, hchild, rfl⟩
        · exact nodeDigest_ne_empty htree hcollision Set.subset_union_left hmem

include htree hcollision hclosed in
theorem ClosedStore.missing_or_held (hnode : node ∈ treePreorder tree) :
    ∀ below ∈ nodePreorder node,
    below ∈ missingBelow receiver (some node) ∨
      blockStoreLookup below.nodeDigest receiver = some below.storedBlock := by
  induction node using childInduction with
  | step node ih =>
      intro below hbelow
      cases hcontains : blockStoreContains node.nodeDigest receiver with
      | true => exact .inr (hclosed.holdsNode htree hcollision hnode hcontains below hbelow)
      | false =>
          rw [missingBelow_missing hcontains]
          rcases mem_nodePreorder.mp hbelow with rfl | ⟨child, hchild, hbelow⟩
          · exact .inl mem_cons_self
          · rcases ih child hchild (treePreorder_child hnode hchild) below hbelow with
              hmissing | hheld
            · exact .inl (mem_cons_of_mem _ (mem_flatMap.mpr ⟨some child, hchild, hmissing⟩))
            · exact .inr hheld

theorem missingBelow_not_contained {interval : Option (MerkleNode k v)} :
    ∀ node ∈ missingBelow receiver interval, blockStoreLookup node.nodeDigest receiver = none := by
  have hexpansion : ∀ node : MerkleNode k v,
      blockStoreContains node.nodeDigest receiver = false →
      ∀ other ∈ missingBelow receiver (some node),
        blockStoreContains other.nodeDigest receiver = false := by
    intro node
    induction node using childInduction with
    | step node ih =>
        intro hcontains other hother
        rw [missingBelow_missing hcontains] at hother
        rcases mem_cons.mp hother with rfl | hother
        · exact hcontains
        · obtain ⟨interval, hinterval, hother⟩ := mem_flatMap.mp hother
          cases interval with
          | none => simp at hother
          | some child =>
              cases hchild : blockStoreContains child.nodeDigest receiver with
              | true => simp [missingBelow_contained hchild] at hother
              | false => exact ih child hinterval hchild other hother
  intro node hnode
  cases interval with
  | none => simp at hnode
  | some root =>
      cases hroot : blockStoreContains root.nodeDigest receiver with
      | true => simp [missingBelow_contained hroot] at hnode
      | false =>
          have hmissing := hexpansion root hroot node hnode
          rwa [blockStoreContains, Option.isSome_eq_false_iff, Option.isNone_iff_eq_none]
            at hmissing

theorem verifySupplied_total (hlaw : LawfulWirePolicy policy)
    {nodes : List (MerkleNode k v)} {base : Nat} (hnodup : (nodes.map nodeDigest).Nodup)
    (hcovers : CoversNodes budget base nodes) :
    ∀ (supplied : List (MerkleNode k v)) (context : VerificationContext budget),
      (∀ node ∈ supplied, node ∈ nodes ∧ OrderedNode policy node) →
      ChargedNodes nodes base context →
      ∃ final, verifySupplied policy (supplied.map storedBlock) context =
        .ok final ∧ ChargedNodes nodes base final := by
  intro supplied
  induction supplied with
  | nil => exact fun context _ hcharged => ⟨context, rfl, hcharged⟩
  | cons node supplied ih =>
      intro context hmem hcharged
      obtain ⟨hnode, hordered⟩ := hmem node mem_cons_self
      have hdepth : 0 < budget.maxDepth := budget.positive.2.2.2.1
      obtain ⟨next, hdecode, hnext, -⟩ := decodeBlock_node hlaw hordered hnodup hcovers
        hcharged hnode one_pos hdepth
      obtain ⟨final, hfinal, hcharged'⟩ :=
        ih next (fun other hother => hmem other (mem_cons_of_mem _ hother)) hnext
      refine ⟨final, ?_, hcharged'⟩
      rw [verifySupplied, map_cons, foldlM_cons, hdecode]
      exact hfinal

include htree hlaw hcollision hclosed in
theorem importSyncPack_total (hcovers : CoversTree budget tree) :
    ∃ pack loaded successor, createSyncPack receiver tree = some pack ∧
      importPackWithBudget pack tree.policy receiver budget = .ok (loaded, successor) ∧
      SameTree tree loaded := by
  have htreeCollision := hcollision.mono (Set.subset_union_left (t := storedBytes receiver))
  have hnodup := htree.digests_nodup hlaw.toLawfulPolicy htreeCollision
  have hsublist := missingBelow_sublist receiver tree
  have hdistinct : (((missingBelow receiver tree.treeRoot).map
      storedBlock).map MerkleBlock.merkleBlockDigest).Nodup := by
    rw [map_map]
    exact hnodup.sublist (hsublist.map _)
  obtain ⟨pack, hpack, halgorithm, hdomain, hroot, hblocks⟩ :=
    createSyncPack_eq htree hlaw.toLawfulPolicy htreeCollision receiver
  obtain ⟨context, hcontext, hcharged⟩ := verifySupplied_total hlaw hnodup hcovers.nodes
    (missingBelow receiver tree.treeRoot) (newContext budget)
    (fun node hnode => ⟨hsublist.subset hnode,
      htree.orderedNode node (hsublist.subset hnode)⟩) (ChargedNodes.newContext _)
  obtain ⟨staged, hstaged⟩ := stageBlocks_total hdistinct
  obtain ⟨count, hstagedPublish⟩ := stageBlocks_publish hstaged
  obtain ⟨hstagedHere, -, hstagedBack⟩ := publishBlocks_spec hstagedPublish
  have hholds : HoldsTree (staged.union receiver) tree := by
    intro node hnode
    rw [blockStoreLookup_union]
    cases hfront : blockStoreLookup node.nodeDigest staged with
    | some block =>
        rcases hstagedBack _ _ hfront with hmem | hempty
        · obtain ⟨other, hother, rfl⟩ := mem_map.mp hmem
          have hsame := eq_of_nodeDigest_eq htree hlaw htreeCollision
            (hsublist.subset hother) hnode (blockStoreLookup_digest hfront)
          rw [Option.some_or, hsame]
        · simp at hempty
    | none =>
        rw [Option.none_or]
        cases htreeRoot : tree.treeRoot with
        | none => simp [treePreorder, htreeRoot] at hnode
        | some root =>
            have hmem := root_mem_treePreorder htreeRoot
            rw [treePreorder, htreeRoot] at hnode
            rcases hclosed.missing_or_held htree hcollision hmem node hnode with
              hmissing | hheld
            · rw [← htreeRoot] at hmissing
              have hhere := hstagedHere _ (mem_map_of_mem hmissing)
              rw [show node.storedBlock.merkleBlockDigest = node.nodeDigest from rfl,
                hfront] at hhere
              cases hhere
            · exact hheld
  obtain ⟨loaded, final, hload, hsame⟩ := loadWithContext_total htree hlaw
    htreeCollision hcovers hholds hcharged
  have hconflicts : ∀ block ∈ (missingBelow receiver tree.treeRoot).map
      storedBlock, ∀ existing,
      blockStoreLookup block.merkleBlockDigest receiver = some existing → existing = block := by
    intro block hblock existing hexisting
    obtain ⟨node, hnode, rfl⟩ := mem_map.mp hblock
    rw [show node.storedBlock.merkleBlockDigest = node.nodeDigest from rfl,
      missingBelow_not_contained node hnode] at hexisting
    cases hexisting
  obtain ⟨added, successor, hpublish⟩ := publishBlocks_total hdistinct hconflicts
  refine ⟨pack, loaded, successor, hpack, ?_, hsame⟩
  refine importPackWithBudget_eq_ok.mpr ⟨⟨halgorithm, hdomain⟩, context, staged, final, added, ?_⟩
  rw [hblocks, hroot]
  exact ⟨hcontext, hstaged, hload, preflightStore_eq_ok.mpr hconflicts, hpublish⟩

end ImportSync

/--
Closure completeness: the roots that were saved or imported keep their complete
closures.  Where every supplied block lies below the root of its pack, nothing
that the store refers to is missing, and a pruned pack brings any tree across.
-/
theorem receiverRun_closed (hlaw : LawfulWirePolicy policy)
    {trees : List (MerkleSearchTree k v)} {packs : List MerkleBlockPack}
    (hrun : ReceiverRun policy trees packs store) :
    (∀ tree ∈ trees, ClosureStored policy store tree.rootDigest) ∧
    (∀ pack ∈ packs, ClosureStored policy store pack.packRootDigest) ∧
    ((∀ pack ∈ packs, ∀ block ∈ pack.packBlocks,
        StoredBelow policy store pack.packRootDigest block.merkleBlockDigest) →
      ClosedStore policy store ∧
      ∀ tree budget, Reachable policy tree →
        CollisionFree (hashedBytes tree ∪ storedBytes store) → CoversTree budget tree →
        ∃ pack loaded successor, createSyncPack store tree = some pack ∧
          importPackWithBudget pack policy store budget = .ok (loaded, successor) ∧
          SameTree tree loaded) := by
  obtain ⟨htrees, hpacks, -⟩ := hrun.closures hlaw
  refine ⟨htrees, hpacks, fun hsupplied => ?_⟩
  have hclosed := hrun.closedStore hlaw hsupplied
  refine ⟨hclosed, fun tree budget hreachable hcollision hcovers => ?_⟩
  obtain ⟨hcanonical, rfl⟩ := hreachable.canonical hlaw.toLawfulPolicy
  exact importSyncPack_total hcanonical hlaw hcollision hclosed hcovers

/-- The root block of the tree with two blocks. -/
def upperBytesBlock : DecodedBlock (Option ByteString) (Option ByteString) :=
  (upperNode none).decoded bytesPolicy

theorem upperBytesBlock_wellFormed : WellFormedBlock bytesPolicy upperBytesBlock := by
  obtain ⟨hcanonical, -⟩ := bytesTree_reachable.canonical bytesPolicy_lawful.toLawfulPolicy
  exact (hcanonical.orderedNode _ (root_mem_treePreorder rfl)).wellFormed bytesPolicy_lawful

theorem receiverRun_closed_bytes : ∃ pack store,
    ReceiverRun bytesPolicy [] [pack] store ∧
      pack.packBlocks = [(upperNode none).storedBlock, (lowerNode none).storedBlock] ∧
      ClosedStore bytesPolicy store ∧
      ∃ again loaded successor, createSyncPack store bytesTree = some again ∧
        importPackWithBudget again bytesPolicy store defaultMerkleVerificationBudget =
          .ok (loaded, successor) ∧ SameTree bytesTree loaded := by
  obtain ⟨hcanonical, -⟩ := bytesTree_reachable.canonical bytesPolicy_lawful.toLawfulPolicy
  have hempty : ClosedStore bytesTree.policy emptyBlockStore := by
    intro digest block hblock
    simp at hblock
  have hcollision : CollisionFree (hashedBytes bytesTree ∪ storedBytes emptyBlockStore) := by
    refine bytesTree_collisionFree.mono (Set.union_subset subset_rfl ?_)
    rintro bytes ⟨digest, block, hblock, rfl⟩
    simp at hblock
  obtain ⟨pack, loaded, store, hpack, himport, -⟩ := importSyncPack_total hcanonical
    bytesPolicy_lawful hcollision hempty bytesTree_covered
  obtain ⟨other, hother, -, -, hroot, hblocks⟩ := createSyncPack_eq hcanonical
    bytesPolicy_lawful.toLawfulPolicy bytesTree_collisionFree emptyBlockStore
  rw [hpack] at hother
  cases hother
  rw [show missingBelow emptyBlockStore bytesTree.treeRoot = [upperNode none, lowerNode none] from
    (missingBelow_empty _).trans (treePreorder_over none)] at hblocks
  have hrun : ReceiverRun bytesPolicy [] [pack] store :=
    .receive .start pack defaultMerkleVerificationBudget himport
  obtain ⟨-, _, _, _, _, -, -, -, -, hpublish⟩ := importPackWithBudget_eq_ok.mp himport
  obtain ⟨hhere, -, hback⟩ := publishBlocks_spec hpublish
  have hstored : storedBytes store ⊆ hashedBytes bytesTree := by
    rintro bytes ⟨digest, block, hblock, rfl⟩
    rcases hback digest block hblock with hmem | hbefore
    · rw [hblocks] at hmem
      obtain ⟨node, hnode, rfl⟩ := mem_map.mp hmem
      exact node_mem_hashedBytes (by rwa [bytesTree, treePreorder_over])
    · simp at hbefore
  obtain ⟨-, -, hclosed⟩ := receiverRun_closed bytesPolicy_lawful hrun
  obtain ⟨hstore, hsync⟩ := hclosed (by
    intro supplied hsupplied block hblock
    rw [mem_singleton.mp hsupplied] at hblock ⊢
    rw [hblocks, map_cons, map_singleton, mem_pair] at hblock
    have habove :
        StoredBelow bytesPolicy store pack.packRootDigest (upperNode none).nodeDigest := by
      rw [hroot]
      exact .root rivalTree_digests.1
    have hupper : blockStoreLookup (upperNode none).nodeDigest store =
        some (upperNode none).storedBlock := hhere (upperNode none).storedBlock (by simp [hblocks])
    rcases hblock with rfl | rfl
    · exact habove
    · exact .child upperBytesBlock habove hupper upperBytesBlock_wellFormed mem_cons_self
        lowerNode_digest.1)
  exact ⟨pack, store, hrun, hblocks, hstore, hsync bytesTree _ bytesTree_reachable
    (bytesTree_collisionFree.mono (Set.union_subset subset_rfl hstored))
    bytesTree_covered⟩

/-- An import publishes a supplied block although its child is nowhere stored. -/
theorem receiverRun_open_bytes : ∃ pack store,
    ReceiverRun bytesPolicy [] [pack] store ∧
      blockStoreLookup upperBytesBlock.decodedBlockSource.merkleBlockDigest store =
        some upperBytesBlock.decodedBlockSource ∧
      WellFormedBlock bytesPolicy upperBytesBlock ∧
      (lowerNode none).nodeDigest ∈ upperBytesBlock.decodedChildDigests ∧
      (lowerNode none).nodeDigest ≠ bytesPolicy.merkleEmptyDigest ∧
      blockStoreContains (lowerNode none).nodeDigest store = false := by
  obtain ⟨hcanonical, -⟩ := bytesTree_reachable.canonical bytesPolicy_lawful.toLawfulPolicy
  have hroot : upperNode none ∈ treePreorder bytesTree := root_mem_treePreorder rfl
  have hdistinct :
      ([upperBytesBlock.decodedBlockSource].map MerkleBlock.merkleBlockDigest).Nodup := by simp
  have hsum : blockByteSum [upperBytesBlock.decodedBlockSource] < 2 ^ 64 := by
    have hbytes := bytesTree_covered.nodes.blockBytes _ hroot
    rw [blockByteSum, map_singleton, sum_singleton]
    exact lt_of_le_of_lt hbytes (by decide)
  obtain ⟨pack, hpack⟩ := makeMerkleBlockPack_total
    (show (merkleAlgorithmId.isEmpty || merkleAlgorithmId.all isSpace) = false by decide +kernel)
    hdistinct hsum
  obtain ⟨halgorithm, hdomain, hempty, hblocks⟩ := makeMerkleBlockPack_spec
    (show makeMerkleBlockPack merkleAlgorithmId bytesPolicy.merkleDomainDigest
      bytesPolicy.merkleEmptyDigest [upperBytesBlock.decodedBlockSource] = .ok pack from
      hpack)
  obtain ⟨context, hcontext, -⟩ := verifySupplied_total bytesPolicy_lawful
    (hcanonical.digests_nodup bytesPolicy_lawful.toLawfulPolicy bytesTree_collisionFree)
    bytesTree_covered.nodes [upperNode none] (newContext defaultMerkleVerificationBudget)
    (by
      intro node hnode
      rw [mem_singleton.mp hnode]
      exact ⟨hroot, hcanonical.orderedNode _ hroot⟩)
    (ChargedNodes.newContext _)
  obtain ⟨staged, hstaged⟩ := stageBlocks_total hdistinct
  obtain ⟨added, store, hpublish⟩ := publishBlocks_total hdistinct
    (show ∀ block ∈ [upperBytesBlock.decodedBlockSource], ∀ existing,
      blockStoreLookup block.merkleBlockDigest emptyBlockStore = some existing →
        existing = block by simp)
  have himport : importPackWithBudget pack bytesPolicy emptyBlockStore
      defaultMerkleVerificationBudget = .ok (emptyTree bytesPolicy, store) := by
    refine importPackWithBudget_eq_ok.mpr ⟨⟨halgorithm, hdomain⟩, context, staged,
      context, added, ?_⟩
    rw [hblocks, hempty]
    exact ⟨hcontext, hstaged, if_pos rfl, preflightStore_eq_ok.mpr (by simp), hpublish⟩
  obtain ⟨hhere, -, hback⟩ := publishBlocks_spec hpublish
  refine ⟨pack, store, .receive .start pack _ himport, hhere _ (by simp),
    upperBytesBlock_wellFormed, mem_cons_self, lowerNode_digest.1, ?_⟩
  rw [Bool.eq_false_iff]
  intro hcontains
  obtain ⟨block, hblock⟩ := blockStoreContains_iff.mp hcontains
  rcases hback _ block hblock with hmem | hbefore
  · rw [mem_singleton.mp hmem] at hblock
    exact lowerNode_digest.2 (blockStoreLookup_digest hblock)
  · simp at hbefore

end Durable7.Hamt
