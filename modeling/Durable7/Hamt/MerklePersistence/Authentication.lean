import Durable7.Hamt.MerklePersistence.Decoding

/-!
# Authenticated blocks

Where the hash does not collide, a digest determines the bytes of a block, and
the bytes determine every field of it.  A decoded block found under the digest
of a tree node therefore matches that node, and the digests of one tree are
distinct.
-/

namespace Durable7.Hamt

open Foundation List MerkleNode

variable {k v : Type} {policy : MerkleSearchTreePolicy k v}

theorem lengthBigEndian_injective {left right : Nat} (hleft : left ≤ maxInt32)
    (hright : right ≤ maxInt32)
    (h : lengthBigEndian left = lengthBigEndian right) : left = right := by
  have hdecoded := congrArg decodeInt32 h
  rw [lengthBigEndian, lengthBigEndian, decodeInt32_int32BigEndian,
    decodeInt32_int32BigEndian] at hdecoded
  rw [← (toNatClampNeg_ofNat hleft).1, ← (toNatClampNeg_ofNat hright).1, hdecoded]

/-- Both encodings of an entry fit their length prefixes. -/
def FitsPrefix (encoded : ByteString × ByteString) : Prop :=
  encoded.1.length ≤ maxInt32 ∧ encoded.2.length ≤ maxInt32

theorem encodeEntryBytes_append_injective
    {left right : ByteString × ByteString} {leftRest rightRest : ByteString}
    (hleft : FitsPrefix left) (hright : FitsPrefix right)
    (h : encodeEntryBytes left ++ leftRest = encodeEntryBytes right ++ rightRest) :
    left = right ∧ leftRest = rightRest := by
  simp only [encodeEntryBytes, append_assoc] at h
  obtain ⟨hkeyLength, h⟩ := append_inj h (by simp)
  obtain ⟨hkey, h⟩ := append_inj h (lengthBigEndian_injective hleft.1 hright.1 hkeyLength)
  obtain ⟨hvalueLength, h⟩ := append_inj h (by simp)
  obtain ⟨hvalue, hrest⟩ := append_inj h (lengthBigEndian_injective hleft.2 hright.2 hvalueLength)
  exact ⟨Prod.ext hkey hvalue, hrest⟩

theorem encodeEntries_append_injective
    {left right : List (ByteString × ByteString)} {leftRest rightRest : ByteString}
    (hlength : left.length = right.length) (hleft : ∀ entry ∈ left, FitsPrefix entry)
    (hright : ∀ entry ∈ right, FitsPrefix entry) (h : left.flatMap encodeEntryBytes ++ leftRest =
      right.flatMap encodeEntryBytes ++ rightRest) :
    left = right ∧ leftRest = rightRest := by
  induction left generalizing right with
  | nil =>
      obtain rfl := length_eq_zero_iff.mp hlength.symm
      exact ⟨rfl, by simpa using h⟩
  | cons entry left ih =>
      obtain ⟨entry', right, rfl⟩ := exists_cons_of_length_eq_add_one hlength.symm
      rw [flatMap_cons, flatMap_cons, append_assoc, append_assoc] at h
      obtain ⟨rfl, htail⟩ := encodeEntryBytes_append_injective
        (hleft entry (by simp)) (hright entry' (by simp)) h
      obtain ⟨rfl, hrest⟩ := ih (by simpa using hlength)
        (fun other hother => hleft other (by simp [hother]))
        (fun other hother => hright other (by simp [hother])) htail
      exact ⟨rfl, hrest⟩

theorem flatMap_digestBytes_injective {left right : List MerkleDigest}
    (h : left.flatMap MerkleDigest.digestBytes =
      right.flatMap MerkleDigest.digestBytes) : left = right := by
  induction left generalizing right with
  | nil =>
      cases right with
      | nil => rfl
      | cons digest right =>
          have hlength := congrArg List.length h
          simp [digest.length_eq] at hlength
          omega
  | cons digest left ih =>
      cases right with
      | nil =>
          have hlength := congrArg List.length h
          simp [digest.length_eq] at hlength
      | cons digest' right =>
          rw [flatMap_cons, flatMap_cons] at h
          obtain ⟨hdigest, hrest⟩ := append_inj h (by rw [digest.length_eq, digest'.length_eq])
          have heq : digest = digest' := by
            cases digest
            cases digest'
            simpa using hdigest
          rw [heq, ih hrest]

theorem blockBytes_injective {domain : MerkleDigest} {level level' : UInt8}
    {count count' : Nat} {entries entries' : List (ByteString × ByteString)}
    {children children' : List MerkleDigest}
    (hcount : count ≤ maxInt32) (hcount' : count' ≤ maxInt32)
    (hlength : entries.length ≤ maxInt32) (hlength' : entries'.length ≤ maxInt32)
    (hfits : ∀ entry ∈ entries, FitsPrefix entry) (hfits' : ∀ entry ∈ entries', FitsPrefix entry)
    (h : blockBytes domain level count entries children =
      blockBytes domain level' count' entries' children') :
    level = level' ∧ count = count' ∧ entries = entries' ∧ children = children' := by
  simp only [blockBytes, append_assoc] at h
  obtain ⟨-, h⟩ := append_inj h rfl
  obtain ⟨-, h⟩ := append_inj h rfl
  obtain ⟨-, h⟩ := append_inj h rfl
  obtain ⟨hlevel, h⟩ := append_inj h rfl
  obtain ⟨hcounts, h⟩ := append_inj h (by simp)
  obtain ⟨hlengths, h⟩ := append_inj h (by simp)
  obtain ⟨hentries, hchildren⟩ := encodeEntries_append_injective
    (lengthBigEndian_injective hlength hlength' hlengths) hfits hfits' h
  exact ⟨by simpa using hlevel, lengthBigEndian_injective hcount hcount' hcounts,
    hentries, flatMap_digestBytes_injective hchildren⟩

/-! ## Ordered subtrees -/

/-- A canonical subtree whose traversal is ordered. -/
structure OrderedNode (policy : MerkleSearchTreePolicy k v) (node : MerkleNode k v) : Prop where
  canonical : CanonicalNode policy node
  ordered : OrderedEntries policy (enumerateNode node)

namespace OrderedNode

variable {node : MerkleNode k v}

section

variable (h : OrderedNode policy node)
include h

theorem block : BlockInvariant policy node := h.canonical.block

theorem entries : OrderedEntries policy node.nodeEntries :=
  h.ordered.sublist h.block.nodeEntries_sublist

theorem child {below : MerkleNode k v}
    (hchild : some below ∈ node.nodeChildren) : OrderedNode policy below :=
  ⟨h.canonical.children below hchild, h.ordered.sublist (h.block.child_sublist hchild)⟩

end

end OrderedNode

theorem mem_nodePreorder {node other : MerkleNode k v} :
    other ∈ nodePreorder node ↔ other = node ∨
      ∃ child, some child ∈ node.nodeChildren ∧ other ∈ nodePreorder child := by
  rw [nodePreorder_eq, mem_cons, mem_flatMap]
  simp only [mem_presentChildren]

theorem self_mem_nodePreorder (node : MerkleNode k v) : node ∈ nodePreorder node :=
  mem_nodePreorder.mpr (.inl rfl)

theorem nodePreorder_child {root : MerkleNode k v} : ∀ {node child : MerkleNode k v},
    node ∈ nodePreorder root → some child ∈ node.nodeChildren → child ∈ nodePreorder root := by
  induction root using childInduction with
  | step root ih =>
      intro node child hnode hchild
      rcases mem_nodePreorder.mp hnode with rfl | ⟨below, hbelow, hnode⟩
      · exact mem_nodePreorder.mpr (.inr ⟨child, hchild, self_mem_nodePreorder child⟩)
      · exact mem_nodePreorder.mpr (.inr ⟨below, hbelow, ih below hbelow hnode hchild⟩)

theorem OrderedNode.of_mem {root : MerkleNode k v} (h : OrderedNode policy root) :
    ∀ node ∈ nodePreorder root, OrderedNode policy node := by
  induction root using childInduction with
  | step root ih =>
      intro node hnode
      rcases mem_nodePreorder.mp hnode with rfl | ⟨below, hbelow, hnode⟩
      · exact h
      · exact ih below hbelow (h.child hbelow) node hnode

variable {tree : MerkleSearchTree k v}

theorem CanonicalTree.orderedNode (h : CanonicalTree tree) :
    ∀ node ∈ treePreorder tree, OrderedNode tree.policy node := by
  obtain ⟨root, policy⟩ := tree
  cases root with
  | none => simp [treePreorder]
  | some root =>
      have hroot : OrderedNode policy root := ⟨canonicalChild_some.mp h.root, h.ordered⟩
      exact hroot.of_mem

theorem root_mem_treePreorder {root : MerkleNode k v} (h : tree.treeRoot = some root) :
    root ∈ treePreorder tree := by
  rw [treePreorder, h]
  exact self_mem_nodePreorder root

theorem rootDigest_some {root : MerkleNode k v} (h : tree.treeRoot = some root) :
    tree.rootDigest = root.nodeDigest := by
  rw [MerkleSearchTree.rootDigest, h]
  rfl

theorem treePreorder_child {node child : MerkleNode k v} (hnode : node ∈ treePreorder tree)
    (hchild : some child ∈ node.nodeChildren) : child ∈ treePreorder tree := by
  obtain ⟨root, policy⟩ := tree
  cases root with
  | none => simp [treePreorder] at hnode
  | some root => exact nodePreorder_child hnode hchild

/-! ## Decoded blocks of a tree -/

namespace MerkleEntry

def decoded (entry : MerkleEntry k v) : DecodedEntry k v where
  decodedKey := entry.entryKey
  decodedValue := entry.entryValue
  decodedKeyBytes := entry.entryKeyBytes
  decodedValueBytes := entry.entryValueBytes

end MerkleEntry

/-- `Map.fromList`: a later pair replaces an earlier one. -/
def digestMapFromList {α : Type} (pairs : List (MerkleDigest × α)) : DigestMap α :=
  pairs.foldl (fun result pair => result.insert pair.1 pair.2) ∅

namespace MerklePersistenceBlockView

def decoded (view : MerklePersistenceBlockView k v) : DecodedBlock k v where
  decodedBlockSource := ⟨view.persistenceBlockDigest, view.persistenceBlockBytes⟩
  decodedLevel := view.persistenceBlockLevel
  decodedSubtreeCount := view.persistenceBlockSubtreeCount
  decodedEntries := view.persistenceBlockEntries.map MerkleEntry.decoded
  decodedChildDigests := view.persistenceBlockChildDigests

end MerklePersistenceBlockView

def trustedDecoded (tree : MerkleSearchTree k v) : DigestMap (DecodedBlock k v) :=
  digestMapFromList ((persistenceBlocksPreorder tree).map fun view =>
    (view.persistenceBlockDigest, view.decoded))

namespace MerkleNode

def storedBlock (node : MerkleNode k v) : MerkleBlock := ⟨node.nodeDigest, node.nodeBlockBytes⟩

/-- The trusted decoding of one block of a tree. -/
def decoded (policy : MerkleSearchTreePolicy k v) (node : MerkleNode k v) : DecodedBlock k v where
  decodedBlockSource := node.storedBlock
  decodedLevel := node.nodeLevel
  decodedSubtreeCount := node.nodeCount
  decodedEntries := node.nodeEntries.map MerkleEntry.decoded
  decodedChildDigests := node.nodeChildren.map (childDigest policy)

end MerkleNode

theorem trustedDecoded_eq (tree : MerkleSearchTree k v) :
    trustedDecoded tree = digestMapFromList ((treePreorder tree).map fun node =>
      (node.nodeDigest, node.decoded tree.policy)) := by
  rw [trustedDecoded, persistenceBlocksPreorder, map_map]
  rfl

theorem encoded_decoded (entries : List (MerkleEntry k v)) :
    (entries.map MerkleEntry.decoded).map DecodedEntry.encoded =
      entries.map MerkleEntry.encoded := by
  rw [map_map]
  rfl

variable {node : MerkleNode k v}

theorem OrderedNode.wellFormed (hlaw : LawfulWirePolicy policy) (h : OrderedNode policy node) :
    WellFormedBlock policy (node.decoded policy) where
  digest_eq := h.block.digest_eq.symm
  bytes_eq := by
    rw [encodeRawBlock, decoded, encoded_decoded]
    exact h.block.bytes_eq
  level_le := h.block.level_le
  nonempty := by
    rw [decoded, length_map]
    exact length_pos_iff.mpr h.block.nonempty
  entries_le := by
    have hcount := h.block.count_eq
    simp only [decoded, length_map]
    omega
  subtree_le := h.block.count_le
  arity := by
    simp only [decoded, length_map]
    exact h.block.arity
  valid := by
    intro decoded hdecoded
    obtain ⟨entry, hentry, rfl⟩ := mem_map.mp hdecoded
    have hvalid := h.entries.valid entry hentry
    obtain ⟨hkey, hvalue⟩ := h.block.lengths entry hentry
    exact {
      decodeKey := hlaw.decodeKey_encode _ _ hvalid.keyBytes
      decodeValue := hlaw.decodeValue_encode _ _ hvalid.valueBytes
      encodeKey := hvalid.keyBytes
      encodeValue := hvalid.valueBytes
      key_le := hkey
      value_le := hvalue
      level_eq := by
        rw [keyLevel]
        exact hvalid.level_eq.symm.trans (h.canonical.levels entry hentry) }
  chain := by
    have hsorted : ((node.nodeEntries.map MerkleEntry.decoded)).Pairwise (KeyBefore policy) := by
      rw [pairwise_map]
      exact h.entries.sorted
    exact hsorted.isChain

/-- Decoded block and tree node have the same fields, byte for byte. -/
structure Matches (policy : MerkleSearchTreePolicy k v)
    (decoded : DecodedBlock k v) (node : MerkleNode k v) : Prop where
  level_eq : decoded.decodedLevel = node.nodeLevel
  count_eq : decoded.decodedSubtreeCount = node.nodeCount
  entries_eq : decoded.decodedEntries.map DecodedEntry.encoded =
    node.nodeEntries.map MerkleEntry.encoded
  children_eq : decoded.decodedChildDigests = node.nodeChildren.map (childDigest policy)

theorem BlockInvariant.entries_le
    (h : BlockInvariant policy node) : node.nodeEntries.length ≤ maxInt32 := by
  have hcount := h.count_eq
  have hle := h.count_le
  omega

theorem BlockInvariant.fitsPrefix (h : BlockInvariant policy node) :
    ∀ entry ∈ node.nodeEntries.map MerkleEntry.encoded, FitsPrefix entry := by
  intro encoded hencoded
  obtain ⟨entry, hentry, rfl⟩ := mem_map.mp hencoded
  exact h.lengths entry hentry

theorem WellFormedBlock.matches {decoded : DecodedBlock k v} (h : WellFormedBlock policy decoded)
    (hnode : BlockInvariant policy node)
    (hbytes : decoded.decodedBlockSource.merkleBlockBytes = node.nodeBlockBytes) :
    Matches policy decoded node := by
  rw [h.bytes_eq, hnode.bytes_eq, encodeRawBlock] at hbytes
  have hle := h.entries_le
  have hsubtree := h.subtree_le
  obtain ⟨hlevel, hcount, hentries, hchildren⟩ := blockBytes_injective
    hsubtree hnode.count_le (by rw [length_map]; omega)
    (by rw [length_map]; exact hnode.entries_le)
    (by
      intro encoded hencoded
      obtain ⟨entry, hentry, rfl⟩ := mem_map.mp hencoded
      exact ⟨(h.valid entry hentry).key_le, (h.valid entry hentry).value_le⟩)
    hnode.fitsPrefix hbytes
  exact ⟨hlevel, hcount, hentries, hchildren⟩

/-! ## Collision freedom -/

/-- No two of the inputs have the same digest. -/
def CollisionFree (inputs : Set ByteString) : Prop := Set.InjOn hashBytes inputs

theorem CollisionFree.mono {inputs fewer : Set ByteString}
    (h : CollisionFree inputs) (hsub : fewer ⊆ inputs) : CollisionFree fewer :=
  Set.InjOn.mono hsub h

/-- What is hashed for a tree: its blocks and the empty manifest. -/
def hashedBytes (tree : MerkleSearchTree k v) : Set ByteString :=
  {bytes | bytes = emptyManifest tree.policy.merkleDomainDigest ∨
    ∃ node ∈ treePreorder tree, node.nodeBlockBytes = bytes}

theorem manifest_mem_hashedBytes (tree : MerkleSearchTree k v) :
    emptyManifest tree.policy.merkleDomainDigest ∈ hashedBytes tree := .inl rfl

theorem node_mem_hashedBytes (h : node ∈ treePreorder tree) :
    node.nodeBlockBytes ∈ hashedBytes tree := .inr ⟨node, h, rfl⟩

theorem BlockInvariant.bytes_ne_manifest (h : BlockInvariant policy node) :
    node.nodeBlockBytes ≠ emptyManifest policy.merkleDomainDigest := by
  intro heq
  rw [h.bytes_eq, blockBytes, emptyManifest] at heq
  simp [blockMagic] at heq

section Tree

variable {tree : MerkleSearchTree k v} {inputs : Set ByteString}
  (htree : CanonicalTree tree) (hcollision : CollisionFree inputs)
  (hinputs : hashedBytes tree ⊆ inputs)

include htree hcollision hinputs

theorem WellFormedBlock.matches_of_digest {decoded : DecodedBlock k v}
    (h : WellFormedBlock tree.policy decoded)
    (hmem : decoded.decodedBlockSource.merkleBlockBytes ∈ inputs)
    {node : MerkleNode k v} (hnode : node ∈ treePreorder tree)
    (hdigest : decoded.decodedBlockSource.merkleBlockDigest = node.nodeDigest) :
    decoded.decodedBlockSource = node.storedBlock ∧
      Matches tree.policy decoded node := by
  have hblock := (htree.orderedNode node hnode).block
  have hbytes : decoded.decodedBlockSource.merkleBlockBytes =
      node.nodeBlockBytes :=
    hcollision hmem (hinputs (node_mem_hashedBytes hnode)) (by
      rw [h.digest_eq, hdigest, hblock.digest_eq])
  refine ⟨?_, h.matches hblock hbytes⟩
  rw [storedBlock, ← hbytes, ← hdigest]

theorem nodeDigest_ne_empty {node : MerkleNode k v} (hnode : node ∈ treePreorder tree) :
    node.nodeDigest ≠ tree.policy.merkleEmptyDigest := by
  have hblock := (htree.orderedNode node hnode).block
  intro heq
  rw [hblock.digest_eq, tree.policy.emptyDigest_eq] at heq
  exact hblock.bytes_ne_manifest (hcollision
    (hinputs (node_mem_hashedBytes hnode)) (hinputs (manifest_mem_hashedBytes tree))
    heq)

theorem childDigest_eq_empty {node : MerkleNode k v}
    (hnode : node ∈ treePreorder tree) {child : Option (MerkleNode k v)}
    (hchild : child ∈ node.nodeChildren) :
    childDigest tree.policy child = tree.policy.merkleEmptyDigest ↔ child = none := by
  cases child with
  | none => simp [childDigest]
  | some child =>
      simp only [reduceCtorEq, iff_false]
      exact nodeDigest_ne_empty htree hcollision hinputs (treePreorder_child hnode hchild)

theorem rootDigest_eq_empty :
    tree.rootDigest = tree.policy.merkleEmptyDigest ↔ tree.treeRoot = none := by
  cases hroot : tree.treeRoot with
  | none => simp [MerkleSearchTree.rootDigest, hroot]
  | some root =>
      simp only [MerkleSearchTree.rootDigest, hroot, Option.elim_some, reduceCtorEq, iff_false]
      exact nodeDigest_ne_empty htree hcollision hinputs (root_mem_treePreorder hroot)

end Tree

theorem presentChildren_perm {β : Type} {f : MerkleNode k v → List β}
    {g : Option (MerkleNode k v) → List β} (hnone : g none = [])
    {intervals : List (Option (MerkleNode k v))}
    (h : ∀ child, some child ∈ intervals → (f child).Perm (g (some child))) :
    ((intervals.filterMap id).flatMap f).Perm ((intervals.map g).flatten) := by
  induction intervals with
  | nil => simp
  | cons interval intervals ih =>
      have hrest := ih fun child hchild => h child (by simp [hchild])
      cases interval with
      | none => simpa [hnone] using hrest
      | some child =>
          rw [filterMap_cons_some (f := id) rfl, flatMap_cons, map_cons, flatten_cons]
          exact (h child (by simp)).append hrest

theorem CanonicalNode.blockEntries_perm (h : CanonicalNode policy node) :
    ((nodePreorder node).flatMap nodeEntries).Perm (enumerateNode node) := by
  induction h with
  | @intro node block levels children ih =>
      rw [nodePreorder_eq, flatMap_cons, flatMap_assoc, enumerateNode_eq node]
      refine (List.Perm.append_left node.nodeEntries ?_).trans
        (interleave_perm (by simp [block.arity])).symm
      exact presentChildren_perm enumerateChild_none ih

theorem OrderedNode.preorder_pairwise (hlaw : LawfulPolicy policy) (h : OrderedNode policy node) :
    (nodePreorder node).Pairwise fun before after =>
      before.nodeBlockBytes ≠ after.nodeBlockBytes := by
  have hkeys : ((nodePreorder node).flatMap fun block =>
      block.nodeEntries.map MerkleEntry.entryKeyBytes).Nodup := by
    have hperm := h.canonical.blockEntries_perm.map MerkleEntry.entryKeyBytes
    rw [map_flatMap] at hperm
    rw [hperm.nodup_iff, List.Nodup, pairwise_map]
    exact h.ordered.keyBytes_pairwise hlaw
  refine (nodup_flatMap.mp hkeys).2.imp_of_mem ?_
  intro before after hbefore hafter hdisjoint hbytes
  have hbefore := (h.of_mem before hbefore).block
  have hafter := (h.of_mem after hafter).block
  rw [hbefore.bytes_eq, hafter.bytes_eq] at hbytes
  obtain ⟨-, -, hentries, -⟩ := blockBytes_injective hbefore.count_le
    hafter.count_le (by rw [length_map]; exact hbefore.entries_le)
    (by rw [length_map]; exact hafter.entries_le) hbefore.fitsPrefix
    hafter.fitsPrefix hbytes
  have hsame : before.nodeEntries.map MerkleEntry.entryKeyBytes =
      after.nodeEntries.map MerkleEntry.entryKeyBytes := by
    have hfirst := congrArg (List.map Prod.fst) hentries
    rw [map_map, map_map] at hfirst
    exact hfirst
  obtain ⟨entry, hentry⟩ := exists_mem_of_ne_nil _ hbefore.nonempty
  have hmem := mem_map_of_mem (f := MerkleEntry.entryKeyBytes) hentry
  refine hdisjoint hmem ?_
  simp only
  rw [← hsame]
  exact hmem

theorem CanonicalTree.digests_nodup (h : CanonicalTree tree) (hlaw : LawfulPolicy tree.policy)
    (hcollision : CollisionFree (hashedBytes tree)) :
    ((treePreorder tree).map nodeDigest).Nodup := by
  have hpairwise : (treePreorder tree).Pairwise fun before after =>
      before.nodeBlockBytes ≠ after.nodeBlockBytes := by
    obtain ⟨root, policy⟩ := tree
    cases root with
    | none => exact List.Pairwise.nil
    | some root => exact (h.orderedNode root (self_mem_nodePreorder root)).preorder_pairwise hlaw
  rw [List.Nodup, pairwise_map]
  refine hpairwise.imp_of_mem ?_
  intro before after hbefore hafter hne heq
  rw [(h.orderedNode before hbefore).block.digest_eq,
    (h.orderedNode after hafter).block.digest_eq] at heq
  exact hne (hcollision (node_mem_hashedBytes hbefore) (node_mem_hashedBytes hafter) heq)

section DigestMap

variable {α : Type}

private theorem lookup_foldl_of_not_mem {pairs : List (MerkleDigest × α)}
    {start : DigestMap α} {digest : MerkleDigest} (h : digest ∉ pairs.map Prod.fst) :
    (pairs.foldl (fun result pair => result.insert pair.1 pair.2) start).lookup
      digest = start.lookup digest := by
  induction pairs generalizing start with
  | nil => rfl
  | cons pair pairs ih =>
      simp only [map_cons, mem_cons, not_or] at h
      rw [foldl_cons, ih h.2, Finmap.lookup_insert_of_ne _ h.1]

section

variable {pairs : List (MerkleDigest × α)} (hnodup : (pairs.map Prod.fst).Nodup)
  {digest : MerkleDigest} {value : α} (h : (digest, value) ∈ pairs)
include hnodup h

private theorem lookup_foldl_of_mem {start : DigestMap α} :
    (pairs.foldl (fun result pair => result.insert pair.1 pair.2) start).lookup
      digest = some value := by
  induction pairs generalizing start with
  | nil => cases h
  | cons pair pairs ih =>
      rw [map_cons, nodup_cons] at hnodup
      rcases mem_cons.mp h with rfl | h
      · rw [foldl_cons, lookup_foldl_of_not_mem hnodup.1, Finmap.lookup_insert]
      · rw [foldl_cons]
        exact ih hnodup.2 h

theorem lookup_digestMapFromList : (digestMapFromList pairs).lookup digest = some value :=
  lookup_foldl_of_mem hnodup h

end

end DigestMap

theorem lookup_trustedDecoded (h : CanonicalTree tree) (hlaw : LawfulPolicy tree.policy)
    (hcollision : CollisionFree (hashedBytes tree)) (hnode : node ∈ treePreorder tree) :
    (trustedDecoded tree).lookup node.nodeDigest = some (node.decoded tree.policy) := by
  rw [trustedDecoded_eq]
  apply lookup_digestMapFromList
  · rw [map_map]
    exact h.digests_nodup hlaw hcollision
  · exact mem_map.mpr ⟨node, hnode, rfl⟩

end Durable7.Hamt
