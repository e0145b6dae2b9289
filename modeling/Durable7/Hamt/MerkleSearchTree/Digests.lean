import Durable7.Hamt.MerklePersistence.Authentication
import Durable7.Hamt.MerkleSearchTree.History

/-!
# Trees of coherent policies

A policy id names the comparer and the codecs, so policies of one domain compare
and encode alike.  Trees of such policies can be read under either of them, and
where the hash does not collide their digests decide equality of the entries.
-/

namespace Durable7.Hamt

open Foundation List MerkleEntry

variable {k v : Type} {policy other : MerkleSearchTreePolicy k v}

/-- Compatible policies that keep the promise of their common id. -/
structure CoherentPolicies (policy other : MerkleSearchTreePolicy k v) : Prop where
  compatible : compatibleMerklePolicies policy other = true
  compare_eq : other.compareMerkleKeys = policy.compareMerkleKeys
  encodeKey_eq : other.merkleKeyCodec.encodeMerkleValue = policy.merkleKeyCodec.encodeMerkleValue
  encodeValue_eq : other.merkleValueCodec.encodeMerkleValue =
    policy.merkleValueCodec.encodeMerkleValue

namespace CoherentPolicies

theorem refl (policy : MerkleSearchTreePolicy k v) : CoherentPolicies policy policy :=
  ⟨by simp [compatibleMerklePolicies], rfl, rfl, rfl⟩

variable (h : CoherentPolicies policy other)

include h

theorem domain_eq : other.merkleDomainDigest = policy.merkleDomainDigest := by
  have hcompatible := h.compatible
  rw [compatibleMerklePolicies, beq_iff_eq] at hcompatible
  exact hcompatible.symm

theorem empty_eq : other.merkleEmptyDigest = policy.merkleEmptyDigest := by
  rw [other.emptyDigest_eq, policy.emptyDigest_eq, h.domain_eq]

theorem lawful (hlaw : LawfulPolicy policy) : LawfulPolicy other where
  compare_total := by
    rw [h.compare_eq]
    exact hlaw.compare_total
  compare_eq_iff := by
    rw [h.compare_eq, h.encodeKey_eq]
    exact hlaw.compare_eq_iff
  encodeKey_total := by
    rw [h.encodeKey_eq]
    exact hlaw.encodeKey_total
  encodeValue_total := by
    rw [h.encodeValue_eq]
    exact hlaw.encodeValue_total

theorem orderedEntries {entries : List (MerkleEntry k v)}
    (hordered : OrderedEntries other entries) : OrderedEntries policy entries where
  sorted := h.compare_eq ▸ hordered.sorted
  valid entry hentry := by
    obtain ⟨hkey, hvalue, hlevel⟩ := hordered.valid entry hentry
    rw [h.encodeKey_eq] at hkey
    rw [h.encodeValue_eq] at hvalue
    rw [hashMerkleKeyBytes, h.domain_eq] at hlevel
    exact ⟨hkey, hvalue, hlevel⟩

theorem canonicalNode {node : MerkleNode k v} (hnode : CanonicalNode other node) :
    CanonicalNode policy node := by
  induction hnode with
  | @intro node block levels children ih =>
      have hdigests : childDigest (k := k) (v := v) other = childDigest policy := by
        funext child
        rw [childDigest, childDigest, h.empty_eq]
      refine ⟨{ block with bytes_eq := ?_ }, levels, ih⟩
      rw [block.bytes_eq, h.domain_eq, hdigests]

end CoherentPolicies

namespace MerkleSearchTree

/-- The same blocks, read under another policy. -/
def withPolicy (tree : MerkleSearchTree k v) (policy : MerkleSearchTreePolicy k v) :
    MerkleSearchTree k v :=
  ⟨tree.treeRoot, policy⟩

end MerkleSearchTree

section Coherent

variable {tree : MerkleSearchTree k v} (h : CoherentPolicies policy tree.policy)

include h

theorem CoherentPolicies.canonicalTree (htree : CanonicalTree tree) :
    CanonicalTree (tree.withPolicy policy) where
  root node hnode := h.canonicalNode (htree.root node hnode)
  ordered := h.orderedEntries htree.ordered

theorem CoherentPolicies.rootDigest_eq : (tree.withPolicy policy).rootDigest = tree.rootDigest := by
  rw [MerkleSearchTree.rootDigest, MerkleSearchTree.rootDigest, h.empty_eq]
  rfl

theorem CoherentPolicies.hashedBytes_eq :
    hashedBytes (tree.withPolicy policy) = hashedBytes tree := by
  rw [hashedBytes, hashedBytes, h.domain_eq]
  rfl

end Coherent

theorem CanonicalTree.lookupEntry_eq {tree : MerkleSearchTree k v}
    (h : CanonicalTree tree) (hlaw : LawfulPolicy tree.policy) (key : k) :
    lookupEntry key tree =
      findKey tree.policy.compareMerkleKeys entryKey key tree.entries :=
  lookupNode_spec h.root (h.ordered.searchable hlaw key)

section Digests

variable {inputs : Set ByteString} (hcollision : CollisionFree inputs)
  (hmanifest : emptyManifest policy.merkleDomainDigest ∈ inputs)

include hcollision hmanifest

private theorem childDigest_some_ne {node : MerkleNode k v}
    (h : BlockInvariant policy node) (hbytes : node.nodeBlockBytes ∈ inputs) :
    childDigest policy (some node) ≠ childDigest policy none := by
  intro heq
  rw [childDigest, childDigest, Option.elim_some, Option.elim_none, h.digest_eq,
    policy.emptyDigest_eq] at heq
  exact h.bytes_ne_manifest (hcollision hbytes hmanifest heq)

theorem OrderedNode.encoded_eq_of_digest {node twin : MerkleNode k v}
    (hnode : OrderedNode policy node) (htwin : OrderedNode policy twin)
    (hinputs : ∀ below ∈ nodePreorder node, below.nodeBlockBytes ∈ inputs)
    (htwinInputs : ∀ below ∈ nodePreorder twin, below.nodeBlockBytes ∈ inputs)
    (h : node.nodeDigest = twin.nodeDigest) :
    (enumerateNode node).map encoded = (enumerateNode twin).map encoded := by
  induction node using MerkleNode.childInduction generalizing twin with
  | step node ih =>
      have hbytes : node.nodeBlockBytes = twin.nodeBlockBytes :=
        hcollision (hinputs node (self_mem_nodePreorder node))
          (htwinInputs twin (self_mem_nodePreorder twin))
          (by rw [← hnode.block.digest_eq, ← htwin.block.digest_eq, h])
      rw [hnode.block.bytes_eq, htwin.block.bytes_eq] at hbytes
      obtain ⟨-, -, hentries, hchildren⟩ := blockBytes_injective hnode.block.count_le
        htwin.block.count_le (by rw [length_map]; exact hnode.block.entries_le)
        (by rw [length_map]; exact htwin.block.entries_le) hnode.block.fitsPrefix
        htwin.block.fitsPrefix hbytes
      have hsegments : ∀ (intervals twins : List (Option (MerkleNode k v))),
          (∀ child ∈ intervals, child ∈ node.nodeChildren) →
          (∀ child ∈ twins, child ∈ twin.nodeChildren) →
          intervals.map (childDigest policy) = twins.map (childDigest policy) →
          (intervals.map enumerateChild).map (List.map encoded) =
            (twins.map enumerateChild).map (List.map encoded) := by
        intro intervals
        induction intervals with
        | nil =>
            intro twins _ _ heq
            rw [map_eq_nil_iff.mp heq.symm]
        | cons interval intervals ihRest =>
            intro twins hmem htwins heq
            cases twins with
            | nil => cases heq
            | cons twinInterval twins =>
                rw [map_cons, map_cons, List.cons.injEq] at heq
                simp only [map_cons]
                rw [ihRest twins (fun child hchild => hmem child (by simp [hchild]))
                  (fun child hchild => htwins child (by simp [hchild])) heq.2]
                congr 1
                have hinterval := hmem interval (by simp)
                have htwinInterval := htwins twinInterval (by simp)
                have hbelow : ∀ child, some child ∈ node.nodeChildren →
                    ∀ below ∈ nodePreorder child, below.nodeBlockBytes ∈ inputs :=
                  fun child hchild below hbelow => hinputs below
                    (mem_nodePreorder.mpr (.inr ⟨child, hchild, hbelow⟩))
                have htwinBelow : ∀ child, some child ∈ twin.nodeChildren →
                    ∀ below ∈ nodePreorder child, below.nodeBlockBytes ∈ inputs :=
                  fun child hchild below hbelow => htwinInputs below
                    (mem_nodePreorder.mpr (.inr ⟨child, hchild, hbelow⟩))
                match interval, twinInterval with
                | none, none => rfl
                | some child, none =>
                    exact absurd heq.1 (childDigest_some_ne hcollision hmanifest
                      (hnode.child hinterval).block
                      (hbelow child hinterval child (self_mem_nodePreorder child)))
                | none, some twinChild =>
                    exact absurd heq.1.symm (childDigest_some_ne hcollision hmanifest
                      (htwin.child htwinInterval).block (htwinBelow twinChild
                        htwinInterval twinChild (self_mem_nodePreorder twinChild)))
                | some child, some twinChild =>
                    exact ih child hinterval (hnode.child hinterval)
                      (htwin.child htwinInterval) (hbelow child hinterval)
                      (htwinBelow twinChild htwinInterval) heq.1
      rw [enumerateNode_eq, enumerateNode_eq, map_interleave, map_interleave, hentries,
        hsegments _ _ (fun _ h => h) (fun _ h => h) hchildren]

end Digests

theorem CanonicalTree.encoded_eq_of_rootDigest {tree twin : MerkleSearchTree k v}
    (htree : CanonicalTree tree) (htwin : CanonicalTree twin) (hpolicy : twin.policy = tree.policy)
    (hcollision : CollisionFree (hashedBytes tree ∪ hashedBytes twin))
    (h : tree.rootDigest = twin.rootDigest) :
    tree.entries.map encoded = twin.entries.map encoded := by
  have hleft := rootDigest_eq_empty htree hcollision Set.subset_union_left
  have hright := rootDigest_eq_empty htwin hcollision Set.subset_union_right
  rw [hpolicy, ← h] at hright
  have hnone := hleft.symm.trans hright
  obtain ⟨root, policy⟩ := tree
  obtain ⟨twinRoot, twinPolicy⟩ := twin
  subst hpolicy
  match root, twinRoot with
  | none, none => rfl
  | some root, none => simp at hnone
  | none, some twinRoot => simp at hnone
  | some root, some twinRoot =>
      exact (htree.orderedNode root (self_mem_nodePreorder root)).encoded_eq_of_digest
        hcollision (.inl (.inl rfl))
        (htwin.orderedNode twinRoot (self_mem_nodePreorder twinRoot))
        (fun below hbelow => .inl (node_mem_hashedBytes hbelow))
        (fun below hbelow => .inr (node_mem_hashedBytes hbelow)) h

theorem treePreorder_over (value : Option ByteString) :
    treePreorder ⟨some (upperNode value), bytesPolicy⟩ = [upperNode value, lowerNode value] := by
  rw [treePreorder, Option.elim_some, nodePreorder_eq]
  change upperNode value :: (nodePreorder (lowerNode value) ++ []) = _
  rw [nodePreorder_eq]
  rfl

theorem entries_over (value : Option ByteString) :
    MerkleSearchTree.entries ⟨some (upperNode value), bytesPolicy⟩ =
      [lowerEntry value, upperEntry] := by
  rw [MerkleSearchTree.entries_eq, enumerateChild_some, enumerateNode_eq]
  change interleave [upperEntry] [enumerateNode (lowerNode value), []] = _
  rw [enumerateNode_eq]
  rfl

/-- What is hashed for the two trees. -/
def bytesInputs : List ByteString :=
  [emptyManifest bytesDomainDigest, (upperNode none).nodeBlockBytes,
    (lowerNode none).nodeBlockBytes, (upperNode (some [7])).nodeBlockBytes,
    (lowerNode (some [7])).nodeBlockBytes]

theorem bytesInputs_nodup : (bytesInputs.map hashBytes).Nodup := by decide +kernel

theorem bytes_collisionFree : CollisionFree (hashedBytes bytesTree ∪ hashedBytes rivalTree) := by
  have hfree : CollisionFree {bytes | bytes ∈ bytesInputs} := inj_on_of_nodup_map bytesInputs_nodup
  refine hfree.mono ?_
  rintro bytes ((rfl | ⟨node, hnode, rfl⟩) | (rfl | ⟨node, hnode, rfl⟩))
  · exact mem_cons_self
  · rw [bytesTree, treePreorder_over, mem_pair] at hnode
    rcases hnode with rfl | rfl <;> simp [bytesInputs]
  · exact mem_cons_self
  · rw [rivalTree, treePreorder_over, mem_pair] at hnode
    rcases hnode with rfl | rfl <;> simp [bytesInputs]

theorem bytesTree_collisionFree : CollisionFree (hashedBytes bytesTree) :=
  bytes_collisionFree.mono Set.subset_union_left

theorem bytesDigests_nodup : [bytesEmptyDigest, (upperNode none).nodeDigest,
    (lowerNode none).nodeDigest, (upperNode (some [7])).nodeDigest,
    (lowerNode (some [7])).nodeDigest].Nodup := by
  have hnodup := bytesInputs_nodup
  rwa [bytesInputs, map_cons, show hashBytes (emptyManifest bytesDomainDigest) = bytesEmptyDigest
    from bytesPolicy.emptyDigest_eq.symm] at hnodup

theorem lowerNode_digest :
    (lowerNode none).nodeDigest ≠ bytesEmptyDigest ∧
      (upperNode none).nodeDigest ≠ (lowerNode none).nodeDigest := by
  have hnodup := bytesDigests_nodup
  simp only [nodup_cons, mem_cons, not_or] at hnodup
  exact ⟨Ne.symm hnodup.1.2.1, hnodup.2.1.1⟩

theorem rivalTree_digests :
    bytesTree.rootDigest ≠ (emptyTree bytesPolicy).rootDigest ∧
      rivalTree.rootDigest ≠ (emptyTree bytesPolicy).rootDigest ∧
      bytesTree.rootDigest ≠ rivalTree.rootDigest := by
  have hnodup := bytesDigests_nodup
  simp only [nodup_cons, mem_cons, not_or] at hnodup
  exact ⟨Ne.symm hnodup.1.1, Ne.symm hnodup.1.2.2.1, hnodup.2.1.2.1⟩

/--
Content addressing: the root digests of two successful histories agree exactly
when the final mappings do, unless the hash collides on the blocks of the trees.
-/
theorem runHistory_content_addressed (hlaw : LawfulPolicy policy)
    {left right : List (MapOperation k v)} {leftTree rightTree : MerkleSearchTree k v}
    (hleft : runHistory policy left = .ok leftTree)
    (hright : runHistory policy right = .ok rightTree)
    (hcollision : CollisionFree (hashedBytes leftTree ∪ hashedBytes rightTree)) :
    leftTree.rootDigest = rightTree.rootDigest ↔
      historyMeaning policy left = historyMeaning policy right := by
  obtain ⟨hpolicy, hcanonical, hcontents⟩ := runHistory_represents hlaw hleft
  obtain ⟨hpolicy', hcanonical', hcontents'⟩ := runHistory_represents hlaw hright
  rw [← hcontents, ← hcontents']
  constructor
  · intro hdigest
    have hencoded := hcanonical.encoded_eq_of_rootDigest hcanonical'
      (hpolicy'.trans hpolicy.symm) hcollision hdigest
    funext keyBytes
    simp only [MerkleSearchTree.contents, contentsOf, hencoded]
  · intro hmeaning
    exact (hcanonical.sameBlocks hcanonical' (hpolicy.trans hpolicy'.symm) (hpolicy ▸ hlaw)
      hmeaning).2

theorem runHistory_content_addressed_bytes : bytesTree.rootDigest ≠ rivalTree.rootDigest ∧
    historyMeaning bytesPolicy [.insert (some [1]) none, .insert none none] ≠
      historyMeaning bytesPolicy [.insert (some [1]) none, .insert none (some [7])] := by
  have hne := rivalTree_digests.2.2
  exact ⟨hne, fun h => hne ((runHistory_content_addressed bytesPolicy_lawful.toLawfulPolicy
    (runHistory_over (by decide)) (runHistory_over (by decide)) bytes_collisionFree).mpr h)⟩

end Durable7.Hamt
