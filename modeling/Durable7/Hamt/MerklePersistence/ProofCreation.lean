import Durable7.Hamt.MerklePersistence.ProofVerification

/-!
# Created proofs

The prover walks the trusted decodings of a tree and collects the steps of an
expansion.  It fails only on a key whose encoding does not fit its length prefix.
-/

namespace Durable7.Hamt

open Foundation List MerkleNode MerkleProofStep Int Nat
open MerkleEntry hiding decoded

variable {k v : Type} {policy : MerkleSearchTreePolicy k v}

/-! ## Collecting the steps -/

theorem adjacentDuplicate_sorted {indexes : List Int}
    (h : indexes.Pairwise (· < ·)) : adjacentDuplicate indexes = false := by
  induction indexes with
  | nil => rfl
  | cons first rest ih =>
      cases rest with
      | nil => rfl
      | cons second rest =>
          obtain ⟨hfirst, hrest⟩ := pairwise_cons.mp h
          have hne : first ≠ second := ne_of_lt (hfirst second (by simp))
          simp [adjacentDuplicate, hne, ih hrest]

theorem trustedProofStep_sorted {block : MerkleBlock} {indexes : List Nat}
    (h : indexes.Pairwise (· < ·)) :
    trustedProofStep block indexes = some ⟨block, indexes.map ofNat⟩ := by
  have hsorted : (indexes.map ofNat).Pairwise (· < ·) := by
    rw [pairwise_map]
    exact h.imp fun hlt => ofNat_lt.mpr hlt
  have hmerge : (indexes.map ofNat).mergeSort = indexes.map ofNat :=
    mergeSort_of_pairwise (hsorted.imp fun hlt => by simpa using le_of_lt hlt)
  have hnonneg : ((indexes.map ofNat).any fun index => index < 0) = false := by simp
  rw [trustedProofStep, makeMerkleProofStep, hnonneg, hmerge, adjacentDuplicate_sorted hsorted]
  rfl

variable {expand : MerkleNode k v → List Nat}

theorem ExpandsIntervals.trustedStep (h : ExpandsIntervals expand) (node : MerkleNode k v) :
    trustedProofStep node.storedBlock (expand node) = some (expandedStep expand node) :=
  trustedProofStep_sorted (List.Pairwise.sublist (h.sublist node) pairwise_lt_range)

/-- The kind of the proof that answers a lookup. -/
def pointKind (found : Option (MerkleEntry k v)) : MerkleProofKind :=
  if found.isSome then .MembershipProof else .NonMembershipProof

theorem rootDigest_eq_childDigest (tree : MerkleSearchTree k v) :
    tree.rootDigest = childDigest tree.policy tree.treeRoot := rfl

theorem expansion_root_sublist (h : ExpandsIntervals expand) (tree : MerkleSearchTree k v) :
    (expansion expand tree.treeRoot).Sublist (treePreorder tree) := by
  obtain ⟨root, policy⟩ := tree
  cases root with
  | none => simp
  | some root => exact expansion_sublist h root

private theorem mapM_eq_some {α β : Type} {f : α → Option β} {g : α → β}
    {items : List α} (h : ∀ item ∈ items, f item = some (g item)) :
    items.mapM f = some (items.map g) := by
  induction items with
  | nil => rfl
  | cons item items ih =>
      rw [mapM_cons, h item (by simp), ih fun other hother => h other (by simp [hother])]
      rfl

variable {key : k}

section Prover

variable {tree : MerkleSearchTree k v} (htree : CanonicalTree tree)
  (hlaw : LawfulWirePolicy tree.policy) (hcollision : CollisionFree (hashedBytes tree))

include htree hlaw hcollision

private theorem walkPoint_node {node : MerkleNode k v} (hnode : node ∈ treePreorder tree) :
    ∀ {visits : Nat} (result : List MerkleProofStep),
      (expansion (pointIndexes tree.policy key) (some node)).length ≤ visits →
      walkPoint tree.policy (trustedDecoded tree) key visits node.nodeDigest result =
        some (pointKind (lookupNode tree.policy key (some node)),
          (lookupNode tree.policy key (some node)).map MerkleEntry.entryValueBytes,
          ((expansion (pointIndexes tree.policy key) (some node)).map
            (expandedStep (pointIndexes tree.policy key))).reverse ++ result) := by
  induction node using childInduction with
  | step node ih =>
      intro visits result hvisits
      have hordered := htree.orderedNode node hnode
      have hmatches := node.decoded_matches tree.policy
      have hdecoded := hmatches.findDecodedPosition_eq hlaw.toLawfulPolicy
        (hordered.wellFormed hlaw) hordered key
      have hstep := (pointIndexes_expands tree.policy key).trustedStep node
      have hsource : (node.decoded tree.policy).decodedBlockSource = node.storedBlock := rfl
      rw [expansion_some] at hvisits ⊢
      cases visits with
      | zero => simp at hvisits
      | succ visits =>
          rw [walkPoint.eq_def, if_neg (nodeDigest_ne_empty htree hcollision (fun _ h => h) hnode)]
          simp only
          rw [lookup_trustedDecoded htree hlaw.toLawfulPolicy hcollision hnode]
          simp only [Option.bind_eq_bind, Option.bind_some, hdecoded, hsource, hmatches.childAt_eq]
          cases hordered.pointCase hlaw.toLawfulPolicy key with
          | @found position entry hfind hentry hlookup hindexes =>
              have hentryDecoded : (node.decoded tree.policy).decodedEntries[position]? =
                  some entry.decoded := by
                rw [decoded, List.getElem?_map, hentry]
                rfl
              rw [hindexes] at hstep
              rw [hfind, hlookup, hindexes]
              simp [hstep, hentryDecoded, pointKind, MerkleEntry.decoded]
          | @absent position hfind hlt hchild hlookup hindexes =>
              rw [hindexes] at hstep
              rw [hfind, hlookup, hindexes]
              simp [hstep, hchild, childDigest, pointKind]
          | @below position child hfind hlt hchild hlookup hindexes =>
              have hsome := child_eq_some hchild
              have hchildMem := treePreorder_child hnode hsome
              have hne := nodeDigest_ne_empty htree hcollision (fun _ h => h) hchildMem
              rw [hindexes, flatMap_singleton, hchild, length_cons, add_le_add_iff_right] at hvisits
              rw [hindexes] at hstep
              rw [hfind, hlookup, hindexes, flatMap_singleton, hchild]
              simp only [childDigest, Option.elim_some, Bool.false_eq_true, not_false_eq_true,
                ne_eq, hne, and_self, if_true, if_false, hstep, Option.bind_some]
              rw [ih child hsome hchildMem _ hvisits]
              simp

theorem walkPoint_root (key : k) :
    walkPoint tree.policy (trustedDecoded tree) key (treePreorder tree).length tree.rootDigest [] =
      some (pointKind (lookupEntry key tree),
        (lookupEntry key tree).map entryValueBytes,
        ((expansion (pointIndexes tree.policy key) tree.treeRoot).map
          (expandedStep (pointIndexes tree.policy key))).reverse) := by
  have hlength := (expansion_root_sublist (pointIndexes_expands tree.policy key) tree).length_le
  rw [lookupEntry, rootDigest_eq_childDigest]
  cases hroot : tree.treeRoot with
  | none =>
      rw [walkPoint.eq_def, childDigest, Option.elim_none, if_pos rfl]
      simp [lookupNode, pointKind]
  | some root =>
      rw [hroot] at hlength
      have hmem := root_mem_treePreorder hroot
      have hwalk := walkPoint_node htree hlaw hcollision hmem [] hlength
      rw [append_nil] at hwalk
      exact hwalk

private theorem collectRange_node {minimumKey maximumKey : k} {node : MerkleNode k v}
    (hnode : node ∈ treePreorder tree) :
    ∀ {visits : Nat}, (expansion (rangeIndexes tree.policy minimumKey maximumKey)
        (some node)).length ≤ visits →
      collectRange tree.policy (trustedDecoded tree) minimumKey maximumKey visits node.nodeDigest =
        some ((expansion (rangeIndexes tree.policy minimumKey maximumKey) (some node)).map
          (expandedStep (rangeIndexes tree.policy minimumKey maximumKey))) := by
  induction node using childInduction with
  | step node ih =>
      intro visits hvisits
      have hordered := htree.orderedNode node hnode
      have hexpands := rangeIndexes_expands tree.policy minimumKey maximumKey
      have hmatches := node.decoded_matches tree.policy
      have hindexes := hmatches.expandedIndexes_eq hlaw.toLawfulPolicy
        (hordered.wellFormed hlaw) hordered (fun child hchild =>
          childDigest_eq_empty htree hcollision (fun _ h => h) hnode hchild)
        minimumKey maximumKey
      rw [expansion_some] at hvisits ⊢
      cases visits with
      | zero => simp at hvisits
      | succ visits =>
          rw [length_cons, add_le_add_iff_right, length_flatMap] at hvisits
          rw [collectRange.eq_def, if_neg
            (nodeDigest_ne_empty htree hcollision (fun _ h => h) hnode)]
          simp only
          rw [lookup_trustedDecoded htree hlaw.toLawfulPolicy hcollision hnode]
          simp only [Option.bind_eq_bind, Option.bind_some]
          rw [hindexes,
            show (node.decoded tree.policy).decodedBlockSource = node.storedBlock from rfl,
            hexpands.trustedStep node, Option.bind_some]
          have hbelow : (rangeIndexes tree.policy minimumKey maximumKey node).mapM
              (fun index => collectRange tree.policy (trustedDecoded tree) minimumKey
                maximumKey visits ((node.decoded tree.policy).childAt tree.policy index)) =
              some ((rangeIndexes tree.policy minimumKey maximumKey node).map fun index =>
                (expansion (rangeIndexes tree.policy minimumKey maximumKey)
                  (node.child index)).map
                  (expandedStep (rangeIndexes tree.policy minimumKey maximumKey))) := by
            refine mapM_eq_some fun index hindex => ?_
            obtain ⟨child, hchild⟩ := hexpands.present node index hindex
            have hsome := child_eq_some hchild
            have hle := single_le_sum (fun _ _ => zero_le _) _
              (mem_map_of_mem (f := fun index => (expansion
                (rangeIndexes tree.policy minimumKey maximumKey)
                (node.child index)).length) hindex)
            rw [hmatches.childAt_eq, hchild]
            rw [hchild] at hle
            exact ih child hsome (treePreorder_child hnode hsome) (hle.trans hvisits)
          rw [hbelow, Option.bind_some, map_cons, map_flatMap]
          rfl

theorem collectRange_root (minimumKey maximumKey : k) :
    collectRange tree.policy (trustedDecoded tree) minimumKey maximumKey
        (treePreorder tree).length tree.rootDigest =
      some ((expansion (rangeIndexes tree.policy minimumKey maximumKey)
        tree.treeRoot).map (expandedStep (rangeIndexes tree.policy minimumKey maximumKey))) := by
  have hlength := (expansion_root_sublist
    (rangeIndexes_expands tree.policy minimumKey maximumKey) tree).length_le
  rw [rootDigest_eq_childDigest]
  cases hroot : tree.treeRoot with
  | none =>
      rw [collectRange.eq_def, childDigest, Option.elim_none, if_pos rfl]
      simp
  | some root =>
      rw [hroot] at hlength
      have hmem := root_mem_treePreorder hroot
      exact collectRange_node htree hlaw hcollision hmem hlength

end Prover

/-! ## Created proofs -/

theorem queryField_length (bytes : ByteString) : (queryField bytes).length = 4 + bytes.length := by
  simp [queryField]

variable {tree : MerkleSearchTree k v}

theorem trustedProof_eq_ok {kind : MerkleProofKind}
    {query : ByteString} {steps : List MerkleProofStep} {proof : MerkleProof}
    (hquery : query.length < 2 ^ 64) : trustedProof tree kind query steps = .ok proof ↔
      (steps.map digest).Nodup ∧
      query.length + blockByteSum (steps.map proofStepBlock) < 2 ^ 64 ∧
      proof = ⟨merkleAlgorithmId, tree.policy.merkleDomainDigest, tree.rootDigest, kind,
        query, steps, query.length + blockByteSum (steps.map proofStepBlock)⟩ := by
  have hdigests : (steps.map proofStepBlock).map
      MerkleBlock.merkleBlockDigest = steps.map digest := by
    rw [map_map]
    rfl
  rw [trustedProof, mapError_eq_ok, makeMerkleProof, rejectIf_neg (by decide +kernel),
    except_ok_bind, bind_eq_ok]
  simp only [accountDistinct_eq_ok hquery, hdigests, Except.ok.injEq]
  constructor
  · rintro ⟨total, ⟨hnodup, hlt, rfl⟩, rfl⟩
    exact ⟨hnodup, hlt, rfl⟩
  · rintro ⟨hnodup, hlt, rfl⟩
    exact ⟨_, ⟨hnodup, hlt, rfl⟩, rfl⟩

theorem checkedProofLength_eq_ok {bytes : ByteString} {done : Unit} :
    checkedProofLength bytes = .ok done ↔ bytes.length ≤ maxInt32 := by
  rw [checkedProofLength, rejectIf_eq_ok, not_lt]

theorem pointKind_ne_range (found : Option (MerkleEntry k v)) : pointKind found ≠ .RangeProof := by
  rw [pointKind]
  split <;> simp

/-- Everything in the query of a point proof fits its length prefix. -/
def FitsPointQuery (keyBytes : ByteString) (found : Option (MerkleEntry k v)) : Prop :=
  keyBytes.length ≤ maxInt32 ∧ ∀ entry, found = some entry → entry.entryValueBytes.length ≤ maxInt32

variable {keyBytes : ByteString}

theorem checkPointLengths_eq_ok {found : Option (MerkleEntry k v)} :
    checkPointLengths keyBytes (found.map entryValueBytes) = .ok () ↔
      FitsPointQuery keyBytes found := by
  rw [checkPointLengths, bind_eq_ok, FitsPointQuery]
  simp only [checkedProofLength_eq_ok]
  cases found with
  | none => simp
  | some entry => simp [checkedProofLength_eq_ok]

theorem encodePointQuery_eq (found : Option (MerkleEntry k v)) (keyBytes : ByteString) :
    encodePointQuery (pointKind found) keyBytes (found.map entryValueBytes) =
      some ((fun _ => pointQuery (pointKind found) keyBytes
        (found.map entryValueBytes)) <$>
          checkPointLengths keyBytes (found.map entryValueBytes)) := by
  rw [encodePointQuery.eq_def]
  cases checkPointLengths keyBytes (found.map entryValueBytes) with
  | error problem => rfl
  | ok done =>
      cases found with
      | none => simp [pointQuery, pointKind, MerkleProofKind.queryTag]
      | some entry => rfl

theorem pointQuery_length {found : Option (MerkleEntry k v)} (h : FitsPointQuery keyBytes found) :
    (pointQuery (pointKind found) keyBytes
      (found.map entryValueBytes)).length ≤ 13 + 2 * maxInt32 := by
  obtain ⟨hkey, hvalue⟩ := h
  cases found with
  | none =>
      simp only [pointQuery, Option.map_none, Option.elim_none, length_append,
        queryField_length, length_singleton, length_nil,
        show proofMagic.length = 4 from rfl]
      omega
  | some entry =>
      have hle := hvalue entry rfl
      simp only [pointQuery, Option.map_some, Option.elim_some, length_append,
        queryField_length, length_singleton, show proofMagic.length = 4 from rfl]
      omega

theorem rangeQuery_length {minimumBytes maximumBytes : ByteString}
    (hminimum : minimumBytes.length ≤ maxInt32) (hmaximum : maximumBytes.length ≤ maxInt32) :
    (rangeQuery minimumBytes maximumBytes).length ≤ 13 + 2 * maxInt32 := by
  simp only [rangeQuery, length_append, queryField_length, length_singleton,
    show proofMagic.length = 4 from rfl]
  omega

theorem lookupEntry_valid (htree : CanonicalTree tree)
    (hlaw : LawfulPolicy tree.policy) {entry : MerkleEntry k v}
    (h : lookupEntry key tree = some entry) :
    ValidEntry tree.policy entry ∧ entry.entryKeyBytes.length ≤ maxInt32 ∧
      entry.entryValueBytes.length ≤ maxInt32 := by
  rw [lookupEntry, lookupNode_spec htree.root (htree.ordered.searchable hlaw key)] at h
  have hmem := mem_of_find?_eq_some h
  exact ⟨htree.ordered.valid entry hmem, htree.root.fitsBlocks.lengths entry hmem⟩

theorem fitsPointQuery_iff (htree : CanonicalTree tree) (hlaw : LawfulPolicy tree.policy) :
    FitsPointQuery keyBytes (lookupEntry key tree) ↔ keyBytes.length ≤ maxInt32 :=
  ⟨And.left, fun hle => ⟨hle, fun _ hfound => (lookupEntry_valid htree hlaw hfound).2.2⟩⟩

/-- The fields of a proof made from an expansion of a tree. -/
structure ProvesExpansion (proof : MerkleProof) (expand : MerkleNode k v → List Nat)
    (tree : MerkleSearchTree k v) : Prop where
  algorithm_eq : proof.proofAlgorithmId = merkleAlgorithmId
  domain_eq : proof.proofDomainDigest = tree.policy.merkleDomainDigest
  root_eq : proof.proofRootDigest = tree.rootDigest
  steps_eq : proof.proofSteps = (expansion expand tree.treeRoot).map (expandedStep expand)
  total_eq : proof.proofTotalByteCount = proof.proofQuery.length +
    ((expansion expand tree.treeRoot).map byteCount).sum

section Creation

variable {tree : MerkleSearchTree k v} (htree : CanonicalTree tree)
  (hlaw : LawfulWirePolicy tree.policy) (hcollision : CollisionFree (hashedBytes tree))

include htree hlaw hcollision

theorem trustedProof_expansion (hexpands : ExpandsIntervals expand) {kind : MerkleProofKind}
    {query : ByteString} (hquery : query.length ≤ 13 + 2 * maxInt32) :
    ∃ proof, trustedProof tree kind query
        ((expansion expand tree.treeRoot).map (expandedStep expand)) = .ok proof ∧
      ProvesExpansion proof expand tree ∧ proof.proofKind = kind ∧
      proof.proofQuery = query := by
  have hsublist := expansion_root_sublist hexpands tree
  have hsum := htree.sum_byteCount_le hsublist.subperm
  have hbytes : blockByteSum (((expansion expand tree.treeRoot).map
      (expandedStep expand)).map proofStepBlock) =
      ((expansion expand tree.treeRoot).map byteCount).sum := by
    rw [blockByteSum, map_map, map_map]
    rfl
  refine ⟨_, (trustedProof_eq_ok ?_).mpr ⟨?_, ?_, rfl⟩, ⟨rfl, rfl, rfl, rfl, ?_⟩, rfl, rfl⟩
  · unfold maxInt32 at hquery
    omega
  · rw [map_map]
    exact (htree.digests_nodup hlaw.toLawfulPolicy hcollision).sublist (hsublist.map _)
  · rw [hbytes]
    unfold maxInt32 at hquery hsum
    omega
  · rw [hbytes]

section

variable (hkey : tree.policy.merkleKeyCodec.encodeMerkleValue key = .ok keyBytes)
include hkey

theorem createProof_eq :
    createProof key tree = some (checkPointLengths keyBytes
        ((lookupEntry key tree).map entryValueBytes) >>= fun _ =>
      trustedProof tree (pointKind (lookupEntry key tree))
        (pointQuery (pointKind (lookupEntry key tree)) keyBytes
          ((lookupEntry key tree).map entryValueBytes))
        ((expansion (pointIndexes tree.policy key) tree.treeRoot).map
          (expandedStep (pointIndexes tree.policy key)))) := by
  rw [createProof, hkey]
  simp only [mapProofCodec, Except.mapError, walkPoint_root htree hlaw hcollision,
    Option.bind_eq_bind, Option.bind_some, encodePointQuery_eq, reverse_reverse]
  cases checkPointLengths keyBytes ((lookupEntry key tree).map entryValueBytes) <;> rfl

theorem createProof_eq_ok :
    ∃ result, createProof key tree = some result ∧
      (keyBytes.length ≤ maxInt32 → ∃ proof, result = .ok proof) ∧
      ∀ proof, result = .ok proof → FitsPointQuery keyBytes (lookupEntry key tree) ∧
        ProvesExpansion proof (pointIndexes tree.policy key) tree ∧
        proof.proofKind = pointKind (lookupEntry key tree) ∧
        proof.proofQuery = pointQuery (pointKind (lookupEntry key tree)) keyBytes
          ((lookupEntry key tree).map entryValueBytes) := by
  refine ⟨_, createProof_eq htree hlaw hcollision hkey, fun hle => ?_, fun proof hproof => ?_⟩
  · have hfits : FitsPointQuery keyBytes (lookupEntry key tree) :=
      (fitsPointQuery_iff htree hlaw.toLawfulPolicy).mpr hle
    obtain ⟨proof, hproof, -⟩ := trustedProof_expansion htree hlaw hcollision
      (pointIndexes_expands tree.policy key) (pointQuery_length hfits)
    exact ⟨proof, bind_eq_ok.mpr ⟨⟨⟩, checkPointLengths_eq_ok.mpr hfits, hproof⟩⟩
  · obtain ⟨⟨⟩, hlengths, hproof⟩ := bind_eq_ok.mp hproof
    have hfits := checkPointLengths_eq_ok.mp hlengths
    obtain ⟨other, hother, hfields⟩ := trustedProof_expansion htree hlaw hcollision
      (pointIndexes_expands tree.policy key) (pointQuery_length hfits)
    rw [hother] at hproof
    cases hproof
    exact ⟨hfits, hfields⟩

end

theorem createRangeProof_eq_ok {minimumKey maximumKey : k} {minimumBytes maximumBytes : ByteString}
    (hminimum : tree.policy.merkleKeyCodec.encodeMerkleValue minimumKey = .ok minimumBytes)
    (hmaximum : tree.policy.merkleKeyCodec.encodeMerkleValue maximumKey = .ok maximumBytes)
    (horder : tree.policy.compareMerkleKeys minimumKey maximumKey ≠ .gt) :
    ∃ result, createRangeProof minimumKey maximumKey tree = some result ∧
      (minimumBytes.length ≤ maxInt32 → maximumBytes.length ≤ maxInt32 →
        ∃ proof, result = .ok proof) ∧
      ∀ proof, result = .ok proof →
        (minimumBytes.length ≤ maxInt32 ∧ maximumBytes.length ≤ maxInt32) ∧
        ProvesExpansion proof (rangeIndexes tree.policy minimumKey maximumKey) tree ∧
        proof.proofKind = .RangeProof ∧
        proof.proofQuery = rangeQuery minimumBytes maximumBytes := by
  have hrequest : ∀ query, requestRange tree.policy minimumKey maximumKey = .ok query ↔
      (minimumBytes.length ≤ maxInt32 ∧ maximumBytes.length ≤ maxInt32) ∧
        query = rangeQuery minimumBytes maximumBytes := by
    intro query
    rw [requestRange, rejectIf_neg horder, except_ok_bind, hminimum, hmaximum]
    simp only [mapProofCodec, Except.mapError, except_ok_bind]
    rw [encodeRangeQuery, bind_eq_ok]
    simp only [bind_eq_ok, checkedProofLength_eq_ok, Except.ok.injEq]
    constructor
    · rintro ⟨-, hminimumLe, -, hmaximumLe, rfl⟩
      exact ⟨⟨hminimumLe, hmaximumLe⟩, rfl⟩
    · rintro ⟨⟨hminimumLe, hmaximumLe⟩, rfl⟩
      exact ⟨⟨⟩, hminimumLe, ⟨⟩, hmaximumLe, rfl⟩
  rw [createRangeProof]
  cases hresult : requestRange tree.policy minimumKey maximumKey with
  | error problem =>
      refine ⟨_, rfl, fun hminimumLe hmaximumLe => ?_, fun proof h => by cases h⟩
      rw [(hrequest _).mpr ⟨⟨hminimumLe, hmaximumLe⟩, rfl⟩] at hresult
      cases hresult
  | ok query =>
      obtain ⟨hlengths, rfl⟩ := (hrequest query).mp hresult
      obtain ⟨proof, hproof, hfields⟩ := trustedProof_expansion htree hlaw hcollision
        (rangeIndexes_expands tree.policy minimumKey maximumKey)
        (rangeQuery_length hlengths.1 hlengths.2)
      simp only [collectRange_root htree hlaw hcollision, Option.bind_eq_bind, Option.bind_some]
      refine ⟨_, rfl, fun _ _ => ⟨proof, hproof⟩, fun other h => ?_⟩
      rw [hproof] at h
      cases h
      exact ⟨hlengths, hfields⟩

end Creation

end Durable7.Hamt
