import Durable7.Hamt.MerklePersistence.Reloading

/-!
# The block format

A block is canonical when its bytes encode a level, a count, ordered entries of
that level, and the digests of their intervals.  The decoder accepts exactly the
canonical blocks that the budget pays for, and gives back their parts.
-/

namespace Durable7.Hamt

open Foundation List

variable {k v : Type}

/-- What a block says. -/
structure BlockParts (k v : Type) where
  level : UInt8
  subtreeCount : Nat
  entries : List (k × v)
  childDigests : List MerkleDigest

namespace BlockParts

def encode (policy : MerkleSearchTreePolicy k v) (parts : BlockParts k v) : ByteString :=
  blockBytes policy.merkleDomainDigest parts.level parts.subtreeCount
    (parts.entries.map fun entry => (encodedKey policy entry.1, encodedValue policy entry.2))
    parts.childDigests

end BlockParts

/-- Parts that a canonical block may have; counts and lengths are signed 32-bit fields. -/
structure CanonicalParts (policy : MerkleSearchTreePolicy k v) (parts : BlockParts k v) : Prop where
  nonempty : parts.entries ≠ []
  entries_le : parts.entries.length ≤ parts.subtreeCount
  subtree_le : parts.subtreeCount ≤ maxInt32
  sorted : StrictlySorted policy.compareMerkleKeys Prod.fst parts.entries
  levels : ∀ entry ∈ parts.entries, keyLevel policy (encodedKey policy entry.1) = parts.level
  lengths : ∀ entry ∈ parts.entries, (encodedKey policy entry.1).length ≤ maxInt32 ∧
    (encodedValue policy entry.2).length ≤ maxInt32
  arity : parts.childDigests.length = parts.entries.length + 1

/-- The entry count that the header of a block declares. -/
def declaredEntryCount (bytes : ByteString) : Nat :=
  (decodeInt32 ((bytes.drop 42).take 4)).toNatClampNeg

/-- The budget pays for one more visit of the block at the depth. -/
def PaysFor {budget : MerkleVerificationBudget} (context : VerificationContext budget)
    (depth : Nat) (block : MerkleBlock) : Prop :=
  ∃ next, chargeBlock block depth (declaredEntryCount block.merkleBlockBytes) context = .ok next

namespace DecodedBlock

def parts (decoded : DecodedBlock k v) : BlockParts k v where
  level := decoded.decodedLevel
  subtreeCount := decoded.decodedSubtreeCount
  entries := decoded.decodedEntries.map fun entry => (entry.decodedKey, entry.decodedValue)
  childDigests := decoded.decodedChildDigests

end DecodedBlock

namespace BlockParts

/-- The parts of a block, as the decoder gives them. -/
def decoded (policy : MerkleSearchTreePolicy k v) (block : MerkleBlock)
    (parts : BlockParts k v) : DecodedBlock k v where
  decodedBlockSource := block
  decodedLevel := parts.level
  decodedSubtreeCount := parts.subtreeCount
  decodedEntries := parts.entries.map fun entry =>
    ⟨entry.1, entry.2, encodedKey policy entry.1, encodedValue policy entry.2⟩
  decodedChildDigests := parts.childDigests

end BlockParts

variable {policy : MerkleSearchTreePolicy k v}

theorem declaredEntryCount_blockBytes {domain : MerkleDigest} {level : UInt8}
    {subtreeCount : Nat} {entries : List (ByteString × ByteString)}
    {children : List MerkleDigest} (h : entries.length ≤ maxInt32) :
    declaredEntryCount (blockBytes domain level subtreeCount entries children) =
      entries.length := by
  have hwhole := ReadsAt.whole (rfl : blockBytes domain level subtreeCount entries children = _)
  rw [blockBytes] at hwhole
  obtain ⟨hwhole, -⟩ := hwhole.split
  obtain ⟨hwhole, -⟩ := hwhole.split
  obtain ⟨-, hcount⟩ := hwhole.split
  have hfield := hcount.eq_take_drop
  simp only [length_append, lengthBigEndian_length, domain.length_eq,
    length_singleton, show blockMagic.length = 4 from rfl] at hfield
  rw [declaredEntryCount, blockBytes, ← hfield, lengthBigEndian, decodeInt32_int32BigEndian]
  exact (toNatClampNeg_ofNat h).1

variable {parts : BlockParts k v}

theorem CanonicalParts.level_le (h : CanonicalParts policy parts) : parts.level ≤ 64 := by
  obtain ⟨entry, hentry⟩ := exists_mem_of_ne_nil _ h.nonempty
  rw [← h.levels entry hentry]
  exact merkleLevel_le _

theorem WellFormedBlock.canonical (hlaw : LawfulPolicy policy) {decoded : DecodedBlock k v}
    (h : WellFormedBlock policy decoded) :
    CanonicalParts policy decoded.parts ∧
      decoded.decodedBlockSource.merkleBlockBytes = decoded.parts.encode policy := by
  have := hlaw.compare_total
  have hencoded : ∀ entry ∈ decoded.decodedEntries,
      encodedKey policy entry.decodedKey = entry.decodedKeyBytes ∧
        encodedValue policy entry.decodedValue = entry.decodedValueBytes := by
    intro entry hentry
    have hvalid := h.valid entry hentry
    rw [encodedKey, encodedValue, hvalid.encodeKey, hvalid.encodeValue]
    exact ⟨rfl, rfl⟩
  refine ⟨⟨?_, ?_, h.subtree_le, ?_, ?_, ?_, ?_⟩, ?_⟩
  · rw [DecodedBlock.parts, ne_eq, map_eq_nil_iff]
    exact length_pos_iff.mp h.nonempty
  · rw [DecodedBlock.parts, length_map]
    exact h.entries_le
  · have : IsTrans (DecodedEntry k v) (KeyBefore policy) := ⟨fun _ _ _ => Std.TransCmp.lt_trans⟩
    have hpairwise : decoded.decodedEntries.Pairwise (KeyBefore policy) :=
      isChain_iff_pairwise.mp h.chain
    rw [DecodedBlock.parts, StrictlySorted, pairwise_map]
    exact hpairwise
  · intro pair hpair
    obtain ⟨entry, hentry, rfl⟩ := mem_map.mp hpair
    rw [(hencoded entry hentry).1]
    exact (h.valid entry hentry).level_eq
  · intro pair hpair
    obtain ⟨entry, hentry, rfl⟩ := mem_map.mp hpair
    rw [(hencoded entry hentry).1, (hencoded entry hentry).2]
    exact ⟨(h.valid entry hentry).key_le, (h.valid entry hentry).value_le⟩
  · rw [DecodedBlock.parts, length_map]
    exact h.arity
  · rw [h.bytes_eq, encodeRawBlock, BlockParts.encode, DecodedBlock.parts, map_map]
    congr 1
    refine map_congr_left fun entry hentry => ?_
    rw [DecodedEntry.encoded, Function.comp_apply, (hencoded entry hentry).1,
      (hencoded entry hentry).2]

theorem CanonicalParts.wellFormed (hlaw : LawfulWirePolicy policy)
    (h : CanonicalParts policy parts) {block : MerkleBlock}
    (hbytes : block.merkleBlockBytes = parts.encode policy)
    (hdigest : hashBytes block.merkleBlockBytes = block.merkleBlockDigest) :
    WellFormedBlock policy (parts.decoded policy block) where
  digest_eq := hdigest
  bytes_eq := by
    rw [encodeRawBlock, BlockParts.decoded, map_map]
    exact hbytes
  level_le := h.level_le
  nonempty := by
    rw [BlockParts.decoded, length_map]
    exact length_pos_iff.mpr h.nonempty
  entries_le := by
    rw [BlockParts.decoded, length_map]
    exact h.entries_le
  subtree_le := h.subtree_le
  arity := by
    rw [BlockParts.decoded, length_map]
    exact h.arity
  valid := by
    intro entry hentry
    obtain ⟨pair, hpair, rfl⟩ := mem_map.mp hentry
    have hkey := hlaw.toLawfulPolicy.encode_key pair.1
    have hvalue := hlaw.toLawfulPolicy.encode_value pair.2
    exact ⟨hlaw.decodeKey_encode _ _ hkey, hlaw.decodeValue_encode _ _ hvalue, hkey, hvalue,
      (h.lengths pair hpair).1, (h.lengths pair hpair).2, h.levels pair hpair⟩
  chain := by
    rw [BlockParts.decoded]
    apply List.Pairwise.isChain
    rw [pairwise_map]
    exact h.sorted

theorem CanonicalParts.declared (h : CanonicalParts policy parts) :
    declaredEntryCount (parts.encode policy) = parts.entries.length := by
  rw [BlockParts.encode, declaredEntryCount_blockBytes, length_map]
  rw [length_map]
  exact h.entries_le.trans h.subtree_le

theorem decodeBlock_canonical {budget : MerkleVerificationBudget} (hlaw : LawfulWirePolicy policy)
    (h : CanonicalParts policy parts) {block : MerkleBlock}
    (hbytes : block.merkleBlockBytes = parts.encode policy)
    (hdigest : hashBytes block.merkleBlockBytes = block.merkleBlockDigest) {depth : Nat}
    {context : VerificationContext budget} (hpays : PaysFor context depth block) :
    ∃ next, decodeBlock policy block depth context = .ok (parts.decoded policy block, next) := by
  obtain ⟨next, hnext⟩ := hpays
  refine ⟨next, decodeBlock_eq_ok.mpr ⟨rfl, h.wellFormed hlaw hbytes hdigest, ?_⟩⟩
  rw [hbytes, h.declared] at hnext
  rw [BlockParts.decoded, length_map]
  exact hnext

/--
The round trip of the block format: a block that is paid for and lies under its own
digest decodes exactly when it encodes canonical parts; what a decode gives encodes to
the same bytes; and every block of a reachable tree decodes to its own parts.
-/
theorem decodeBlock_roundTrip (hlaw : LawfulWirePolicy policy) :
    (∀ (budget : MerkleVerificationBudget) (context : VerificationContext budget)
        (depth : Nat) (block : MerkleBlock),
      hashBytes block.merkleBlockBytes = block.merkleBlockDigest →
      PaysFor context depth block →
      ((∃ decoded next, decodeBlock policy block depth context = .ok (decoded, next)) ↔
        ∃ parts, CanonicalParts policy parts ∧ block.merkleBlockBytes = parts.encode policy)) ∧
    (∀ (budget : MerkleVerificationBudget) (context : VerificationContext budget)
        (depth : Nat) (block : MerkleBlock) (decoded : DecodedBlock k v)
        (next : VerificationContext budget),
      decodeBlock policy block depth context = .ok (decoded, next) →
      encodeRawBlock policy decoded.decodedLevel decoded.decodedSubtreeCount
          decoded.decodedEntries decoded.decodedChildDigests = block.merkleBlockBytes ∧
        CanonicalParts policy decoded.parts ∧
        decoded.parts.encode policy = block.merkleBlockBytes) ∧
    (∀ tree, Reachable policy tree → ∀ node ∈ treePreorder tree,
      ∀ (budget : MerkleVerificationBudget) (context : VerificationContext budget)
        (depth : Nat), PaysFor context depth node.storedBlock →
      ∃ decoded next,
        decodeBlock policy node.storedBlock depth context = .ok (decoded, next) ∧
        decoded.parts = ⟨node.nodeLevel, node.nodeCount,
          node.nodeEntries.map MerkleEntry.pair,
          node.nodeChildren.map (childDigest policy)⟩) := by
  refine ⟨fun budget context depth block hdigest hpays => ⟨?_, ?_⟩, ?_, ?_⟩
  · rintro ⟨decoded, next, hdecode⟩
    obtain ⟨rfl, hblock, -⟩ := decodeBlock_eq_ok.mp hdecode
    exact ⟨decoded.parts, hblock.canonical hlaw.toLawfulPolicy⟩
  · rintro ⟨parts, hparts, hbytes⟩
    obtain ⟨next, hdecode⟩ := decodeBlock_canonical hlaw hparts hbytes hdigest hpays
    exact ⟨_, next, hdecode⟩
  · intro budget context depth block decoded next hdecode
    obtain ⟨rfl, hblock, -⟩ := decodeBlock_eq_ok.mp hdecode
    obtain ⟨hparts, hbytes⟩ := hblock.canonical hlaw.toLawfulPolicy
    exact ⟨hblock.bytes_eq.symm, hparts, hbytes.symm⟩
  · intro tree htree node hnode budget context depth hpays
    obtain ⟨hcanonical, hpolicy⟩ := htree.canonical hlaw.toLawfulPolicy
    have hordered := hcanonical.orderedNode node hnode
    rw [hpolicy] at hordered
    have hblock := hordered.wellFormed hlaw
    obtain ⟨hparts, hbytes⟩ := hblock.canonical hlaw.toLawfulPolicy
    obtain ⟨next, hdecode⟩ := decodeBlock_canonical hlaw hparts hbytes hblock.digest_eq hpays
    refine ⟨_, next, hdecode, ?_⟩
    simp [BlockParts.decoded, DecodedBlock.parts, MerkleNode.decoded, MerkleEntry.decoded,
      MerkleEntry.pair, Function.comp_def]

/-- The root block of the two-block tree decodes under the default budget. -/
theorem decodeBlock_roundTrip_bytes : ∃ decoded next,
    decodeBlock bytesPolicy (upperNode none).storedBlock 1
        (newContext defaultMerkleVerificationBudget) = .ok (decoded, next) ∧
      decoded.parts.entries = [(some [1], none)] := by
  have hnode : upperNode none ∈ treePreorder bytesTree := by
    rw [bytesTree, treePreorder_over]
    exact mem_cons_self
  have hpays : PaysFor (newContext defaultMerkleVerificationBudget) 1
      (upperNode none).storedBlock := by
    have hnodup := (bytesTree_reachable.canonical
      bytesPolicy_lawful.toLawfulPolicy).1.digests_nodup bytesPolicy_lawful.toLawfulPolicy
      bytesTree_collisionFree
    obtain ⟨next, hnext, -⟩ := chargeBlock_total hnodup bytesTree_covered.nodes
      (ChargedNodes.newContext _) hnode Nat.one_pos (by decide)
    refine ⟨next, ?_⟩
    rw [show declaredEntryCount (upperNode none).storedBlock.merkleBlockBytes =
      (upperNode none).entryCount by decide +kernel]
    exact hnext
  obtain ⟨decoded, next, hdecode, hparts⟩ := (decodeBlock_roundTrip bytesPolicy_lawful).2.2
    bytesTree bytesTree_reachable _ hnode _ _ 1 hpays
  refine ⟨decoded, next, hdecode, ?_⟩
  rw [hparts]
  rfl

end Durable7.Hamt
