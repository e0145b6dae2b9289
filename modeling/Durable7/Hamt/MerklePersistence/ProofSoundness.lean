import Durable7.Hamt.MerklePersistence.ProofCompleteness
import Durable7.Foundation.Lists

/-!
# Soundness of proofs

An accepted proof may come from anyone.  Every block the verifier walked over
was reached by digest from the declared root, so it matches a block of the tree,
and the walk took the intervals that the tree's own operations would take.
-/

namespace Durable7.Hamt

open Foundation List MerkleNode

variable {k v : Type} {policy : MerkleSearchTreePolicy k v} {budget : MerkleVerificationBudget}

/-- The bytes of the blocks a proof carries. -/
def proofBytes (proof : MerkleProof) : Set ByteString :=
  {bytes | ∃ step ∈ proof.proofSteps, step.proofStepBlock.merkleBlockBytes = bytes}

theorem ProvesExpansion.proofBytes_subset {expand : MerkleNode k v → List Nat}
    {tree : MerkleSearchTree k v} {proof : MerkleProof}
    (h : ProvesExpansion proof expand tree) (hexpands : ExpandsIntervals expand) :
    proofBytes proof ⊆ hashedBytes tree := by
  rintro bytes ⟨step, hstep, rfl⟩
  rw [h.steps_eq] at hstep
  obtain ⟨node, hnode, rfl⟩ := mem_map.mp hstep
  exact .inr ⟨node, (expansion_root_sublist hexpands tree).subset hnode, rfl⟩

theorem verifyProofWithBudget_decoded {proof : MerkleProof}
    (h : (verifyProofWithBudget proof policy budget).proofIsValid = true) :
    ∃ blocks maps, DecodedSteps policy proof.proofSteps blocks maps ∧
      verifyDecodedProof proof policy budget maps = .ok () := by
  obtain ⟨queryContext, final, maps, -, -, -, hdecode, hverify⟩ := verifyProofWithBudget_valid.mp h
  obtain ⟨blocks, hblocks⟩ := decodeProofSteps_spec (DecodedSteps.nil policy) hdecode
  exact ⟨blocks, maps, by simpa using hblocks, hverify⟩

section Walks

variable {tree : MerkleSearchTree k v} {proof : MerkleProof}
  {blocks : List (DecodedBlock k v)} {maps : ProofMaps k v}
  (htree : CanonicalTree tree) (hlaw : LawfulPolicy tree.policy)
  (hcollision : CollisionFree (hashedBytes tree ∪ proofBytes proof))
  (hmaps : DecodedSteps tree.policy proof.proofSteps blocks maps)

include htree hcollision hmaps in
theorem DecodedSteps.matches_of_mem {block : DecodedBlock k v}
    {node : MerkleNode k v} (hnode : node ∈ treePreorder tree) (hblock : block ∈ blocks)
    (hdigest : block.decodedBlockSource.merkleBlockDigest = node.nodeDigest) :
    WellFormedBlock tree.policy block ∧ block.decodedBlockSource = node.storedBlock ∧
      Matches tree.policy block node := by
  have hwellFormed := hmaps.wellFormed block hblock
  have hsource : block.decodedBlockSource ∈
      proof.proofSteps.map MerkleProofStep.proofStepBlock := by
    rw [← hmaps.sources]
    exact mem_map_of_mem hblock
  obtain ⟨step, hstep, heq⟩ := mem_map.mp hsource
  obtain ⟨hstored, hmatches⟩ := hwellFormed.matches_of_digest htree hcollision
    Set.subset_union_left (.inr ⟨step, hstep, by rw [heq]⟩) hnode hdigest
  exact ⟨hwellFormed, hstored, hmatches⟩

include htree hcollision hmaps in
theorem DecodedSteps.matches_of_lookup {block : DecodedBlock k v}
    {node : MerkleNode k v} (hnode : node ∈ treePreorder tree)
    (hblock : maps.1.lookup node.nodeDigest = some block) :
    WellFormedBlock tree.policy block ∧ Matches tree.policy block node := by
  obtain ⟨hmem, hdigest⟩ := (hmaps.block_iff _ _).mp hblock
  obtain ⟨hwellFormed, -, hmatches⟩ := hmaps.matches_of_mem htree hcollision hnode hmem hdigest
  exact ⟨hwellFormed, hmatches⟩

include htree hlaw hcollision hmaps

theorem walkPointProof_sound {kind : MerkleProofKind} {key : k}
    {claimed : Option ByteString} {node : MerkleNode k v} (hnode : node ∈ treePreorder tree) :
    ∀ {depth : Nat} {visited final : Finset MerkleDigest},
      walkPointProof kind tree.policy budget maps key claimed node.nodeDigest depth
          visited = .ok final →
      kind = pointKind (lookupNode tree.policy key (some node)) ∧
        (kind = .MembershipProof → claimed =
          (lookupNode tree.policy key (some node)).map MerkleEntry.entryValueBytes) := by
  induction node using childInduction with
  | step node ih =>
      intro depth visited final h
      obtain ⟨-, -, block, step, hblock, -, hcase⟩ := walkPointProof_eq_ok.mp h
      obtain ⟨hwellFormed, hmatches⟩ := hmaps.matches_of_lookup htree hcollision hnode hblock
      have hordered := htree.orderedNode node hnode
      have hdecoded := hmatches.findDecodedPosition_eq hlaw hwellFormed hordered key
      have hempty : ∀ {position : Nat}, position < node.nodeChildren.length →
          (block.childAt tree.policy position = tree.policy.merkleEmptyDigest ↔
            node.child position = none) := by
        intro position hlt
        rw [hmatches.childAt_eq]
        exact childDigest_eq_empty htree hcollision Set.subset_union_left hnode
          (child_mem_of_lt hlt)
      cases hordered.pointCase hlaw key with
      | @found position entry hfind hentry hlookup hindexes =>
          rw [hfind] at hdecoded
          rcases hcase with ⟨hanswer, -, -⟩ | ⟨other, child, hother, -⟩
          · cases hanswer with
            | present hother hkind hvalue =>
                rw [hdecoded] at hother
                cases hother
                rw [hlookup]
                refine ⟨hkind, fun _ => ?_⟩
                rw [hvalue, hmatches.valueBytes_eq, hentry]
            | absent hother hchild hkind =>
                rw [hdecoded] at hother
                cases hother
          · rw [hdecoded] at hother
            cases hother
      | @absent position hfind hlt hchild hlookup hindexes =>
          rw [hfind] at hdecoded
          rcases hcase with ⟨hanswer, -, -⟩ | ⟨other, child, hother, hne, -⟩
          · cases hanswer with
            | present hother hkind hvalue =>
                rw [hdecoded] at hother
                cases hother
            | absent hother hchildAt hkind =>
                rw [hlookup]
                exact ⟨hkind, fun hmember => by rw [hkind] at hmember; cases hmember⟩
          · rw [hdecoded] at hother
            cases hother
            exact absurd ((hempty hlt).mpr hchild) hne
      | @below position child hfind hlt hchild hlookup hindexes =>
          rw [hfind] at hdecoded
          have hpresent : block.childAt tree.policy position = child.nodeDigest := by
            rw [hmatches.childAt_eq, hchild]
            rfl
          have hsome := child_eq_some hchild
          rcases hcase with ⟨hanswer, -, -⟩ | ⟨other, _, hother, -, -, -, -, hwalk⟩
          · cases hanswer with
            | present hother hkind hvalue =>
                rw [hdecoded] at hother
                cases hother
            | absent hother hchildAt hkind =>
                rw [hdecoded] at hother
                cases hother
                rw [(hempty hlt).mp hchildAt] at hchild
                cases hchild
          · rw [hdecoded] at hother
            cases hother
            rw [hpresent] at hwalk
            rw [hlookup]
            exact ih child hsome (treePreorder_child hnode hsome) hwalk

theorem walkRangeProof_sound {minimumKey maximumKey : k} {node : MerkleNode k v}
    (hnode : node ∈ treePreorder tree) :
    ∀ {depth : Nat} {visited final : Finset MerkleDigest},
      walkRangeProof tree.policy budget maps minimumKey maximumKey node.nodeDigest depth
          visited = .ok final →
      final = visited ∪ nodeDigests (expansion
          (rangeIndexes tree.policy minimumKey maximumKey) (some node)) ∧
        ∀ other ∈ expansion (rangeIndexes tree.policy minimumKey maximumKey) (some node),
          other.nodeDigest ∈ maps.1 := by
  induction node using childInduction with
  | step node ih =>
      intro depth visited final h
      obtain ⟨-, -, block, step, hblock, -, -, hwalk⟩ := walkRangeProof_eq_ok.mp h
      obtain ⟨hwellFormed, hmatches⟩ := hmaps.matches_of_lookup htree hcollision hnode hblock
      have hindexes := hmatches.expandedIndexes_eq hlaw hwellFormed
        (htree.orderedNode node hnode) (fun child hchild =>
          childDigest_eq_empty htree hcollision Set.subset_union_left hnode hchild)
        minimumKey maximumKey
      have hchildren : ∀ (indexes : List Nat) {depth : Nat}
          {visited final : Finset MerkleDigest},
          (∀ index ∈ indexes, index ∈ rangeIndexes tree.policy minimumKey maximumKey node) →
          visitRangeChildren tree.policy budget maps minimumKey maximumKey block indexes
            depth visited = .ok final →
          final = visited ∪ nodeDigests (indexes.flatMap fun index =>
              expansion (rangeIndexes tree.policy minimumKey maximumKey) (node.child index)) ∧
            ∀ other ∈ indexes.flatMap (fun index =>
              expansion (rangeIndexes tree.policy minimumKey maximumKey)
                (node.child index)), other.nodeDigest ∈ maps.1 := by
        intro indexes
        induction indexes with
        | nil =>
            intro depth visited final _ h
            rw [visitRangeChildren_nil] at h
            cases h
            simp [nodeDigests]
        | cons index indexes ihRest =>
            intro depth visited final hall h
            obtain ⟨_, middle, -, -, hchildWalk, hrest⟩ := visitRangeChildren_cons_eq_ok.mp h
            obtain ⟨child, hchild⟩ :=
              (rangeIndexes_expands tree.policy minimumKey maximumKey).present node index
                (hall index (by simp))
            have hsome := child_eq_some hchild
            have hpresent : block.childAt tree.policy index = child.nodeDigest := by
              rw [hmatches.childAt_eq, hchild]
              rfl
            rw [hpresent] at hchildWalk
            obtain ⟨rfl, hfirst⟩ := ih child hsome (treePreorder_child hnode hsome) hchildWalk
            obtain ⟨rfl, hothers⟩ :=
              ihRest (fun other hother => hall other (by simp [hother])) hrest
            rw [flatMap_cons, hchild]
            refine ⟨by rw [nodeDigests_append, Finset.union_assoc], fun other hother => ?_⟩
            rcases mem_append.mp hother with hother | hother
            · exact hfirst other hother
            · exact hothers other hother
      rw [hindexes] at hwalk
      obtain ⟨rfl, hbelow⟩ := hchildren _ (fun _ h => h) hwalk
      rw [expansion_some]
      refine ⟨by rw [nodeDigests_cons, Finset.insert_union, Finset.union_insert], ?_⟩
      intro other hother
      rcases mem_cons.mp hother with rfl | hother
      · exact Finmap.mem_iff.mpr ⟨block, hblock⟩
      · exact hbelow other hother

end Walks

/--
Point-proof soundness: whatever the steps, an accepted membership proof claims
the stored value of its key, and an accepted absence proof names an absent key.
-/
theorem verifyProof_point_sound (hlaw : LawfulPolicy policy)
    {tree : MerkleSearchTree k v} (hreachable : Reachable policy tree)
    (proof : MerkleProof) (budget : MerkleVerificationBudget)
    (hroot : proof.proofRootDigest = tree.rootDigest)
    (hcollision : CollisionFree (hashedBytes tree ∪ proofBytes proof))
    (hvalid : (verifyProofWithBudget proof policy budget).proofIsValid = true) :
    (proof.proofKind = .MembershipProof → ∃ key valueBytes entry,
      decodePointQuery proof policy = .ok (key, some valueBytes) ∧
        lookupEntry key tree = some entry ∧ entry.entryValueBytes = valueBytes) ∧
    (proof.proofKind = .NonMembershipProof → ∃ key,
      decodePointQuery proof policy = .ok (key, none) ∧ lookupEntry key tree = none) := by
  obtain ⟨htree, rfl⟩ := hreachable.canonical hlaw
  obtain ⟨blocks, maps, hmaps, hverify⟩ := verifyProofWithBudget_decoded hvalid
  by_cases hrange : proof.proofKind = .RangeProof
  · simp [hrange]
  have hanswer : ∃ key claimed, decodePointQuery proof tree.policy = .ok (key, claimed) ∧
      proof.proofKind = pointKind (lookupEntry key tree) ∧
      (proof.proofKind = .MembershipProof → claimed =
        (lookupEntry key tree).map MerkleEntry.entryValueBytes) := by
    rcases (verifyDecodedProof_point hrange).mp hverify with
      ⟨hempty, -, hkind, ⟨key, claimed⟩, hquery⟩ |
      ⟨hne, -, key, claimed, visited, hquery, hwalk, -⟩
    · rw [hroot, rootDigest_eq_empty htree hcollision Set.subset_union_left] at hempty
      refine ⟨key, claimed, hquery, ?_, fun h => by rw [hkind] at h; cases h⟩
      rw [hkind, lookupEntry, hempty, lookupNode]
      rfl
    · rw [hroot] at hne hwalk
      cases htreeRoot : tree.treeRoot with
      | none =>
          exact absurd ((rootDigest_eq_empty htree hcollision
            Set.subset_union_left).mpr htreeRoot) hne
      | some root =>
          have hmem := root_mem_treePreorder htreeRoot
          rw [rootDigest_eq_childDigest, htreeRoot] at hwalk
          have hsound := walkPointProof_sound htree hlaw hcollision hmaps hmem hwalk
          exact ⟨key, claimed, hquery, by rw [lookupEntry, htreeRoot]; exact hsound⟩
  obtain ⟨key, claimed, hquery, hkind, hvalue⟩ := hanswer
  obtain ⟨-, keyBytes, -, -, hclaimed, -⟩ := decodePointQuery_eq_ok.mp hquery
  constructor
  · intro hmember
    rw [hmember] at hkind
    cases hfound : lookupEntry key tree with
    | none =>
        rw [hfound] at hkind
        cases hkind
    | some entry =>
        rw [hvalue hmember, hfound] at hquery
        exact ⟨key, entry.entryValueBytes, entry, hquery, hfound, rfl⟩
  · intro habsent
    rw [habsent] at hkind
    cases hfound : lookupEntry key tree with
    | none =>
        cases claimed with
        | none => exact ⟨key, hquery, hfound⟩
        | some bytes => exact absurd (hclaimed.1.symm.trans habsent) (by simp)
    | some entry =>
        rw [hfound] at hkind
        cases hkind

theorem verifyProof_point_sound_bytes : ∃ proof,
    proof.proofKind = .MembershipProof ∧
      (verifyProofWithBudget proof bytesPolicy
        defaultMerkleVerificationBudget).proofIsValid = true ∧
      ∃ key valueBytes entry,
        decodePointQuery proof bytesPolicy = .ok (key, some valueBytes) ∧
          lookupEntry key bytesTree = some entry ∧
          entry.entryValueBytes = valueBytes := by
  obtain ⟨proof, -, hproof, hkind, -, hvalid⟩ := createProof_bytes
  have hcollision : CollisionFree (hashedBytes bytesTree ∪ proofBytes proof) :=
    bytesTree_collisionFree.mono (Set.union_subset subset_rfl
      (hproof.proofBytes_subset (pointIndexes_expands bytesPolicy none)))
  obtain ⟨hmember, -⟩ := verifyProof_point_sound bytesPolicy_lawful.toLawfulPolicy
    bytesTree_reachable proof defaultMerkleVerificationBudget hproof.root_eq hcollision
    hvalid
  exact ⟨proof, hkind, hvalid, hmember hkind⟩

/-!
## Soundness of range proofs

A range query skips only intervals that hold nothing in the range, so the blocks
of its expansion hold the whole range.  An accepted proof carries one block for
each of them and no other.
-/

open Std.TransCmp

section Disclosure

variable {minimumKey maximumKey : k}

theorem OrderedNode.skipped_interval (hlaw : LawfulPolicy policy)
    {node : MerkleNode k v} (h : OrderedNode policy node) {index : Nat}
    (hindex : index < node.nodeChildren.length)
    (hskipped : index ∉ rangeIndexes policy minimumKey maximumKey node) :
    (enumerateChild (node.child index)).filter (inRange policy minimumKey maximumKey) = [] := by
  have := hlaw.compare_total
  refine filter_eq_nil_iff.mpr fun entry hentry => ?_
  cases hchild : node.child index with
  | none => simp [hchild] at hentry
  | some child =>
      have hle : index ≤ node.nodeEntries.length := by
        rw [h.block.arity] at hindex
        omega
      obtain ⟨hlower, hupper⟩ := h.canonical.interval_order h.ordered.sorted hle
      rw [rangeIndexes, mem_filter, mem_range, hchild] at hskipped
      simp only [hindex, Option.isSome_some, true_and, decide_eq_true_eq, Bool.not_eq_true,
        childIntervalIntersects, Bool.and_eq_false_iff, List.getElem?_map, length_map,
        Bool.or_eq_false_iff, beq_eq_false_iff_ne] at hskipped
      rcases hskipped with ⟨hpos, hbefore⟩ | ⟨hlast, hafter⟩
      · have hlt : index - 1 < node.nodeEntries.length := by omega
        rw [List.getElem?_eq_getElem hlt] at hbefore
        simp only [Option.map_some, Option.any_some, beq_eq_false_iff_ne] at hbefore
        have hentryLower := hlower _ (List.getElem?_eq_getElem hlt) (by omega) entry hentry
        have habove := lt_of_isLE_of_lt
          (Std.OrientedCmp.isGE_iff_isLE.mp (Ordering.isGE_iff_ne_lt.mpr hbefore))
          hentryLower
        simp [inRange_eq_false_of_gt (Std.OrientedCmp.gt_of_lt habove)]
      · have hlt : index < node.nodeEntries.length := by omega
        rw [List.getElem?_eq_getElem hlt] at hafter
        simp only [Option.map_some, Option.any_some, beq_eq_false_iff_ne] at hafter
        have hentryUpper := hupper _ (List.getElem?_eq_getElem hlt) entry hentry
        have hbelow := lt_of_lt_of_isLE hentryUpper (Ordering.isLE_iff_ne_gt.mpr hafter)
        simp [inRange_eq_false_of_lt hlaw hbelow]

theorem OrderedNode.expansion_range (hlaw : LawfulPolicy policy)
    {node : MerkleNode k v} (h : OrderedNode policy node) :
    (((expansion (rangeIndexes policy minimumKey maximumKey) (some node)).flatMap
      nodeEntries).filter (inRange policy minimumKey maximumKey)).Perm
      ((enumerateNode node).filter (inRange policy minimumKey maximumKey)) := by
  induction node using childInduction with
  | step node ih =>
      have hbelow : ∀ index ∈ rangeIndexes policy minimumKey maximumKey node,
          (((expansion (rangeIndexes policy minimumKey maximumKey)
            (node.child index)).flatMap nodeEntries).filter
              (inRange policy minimumKey maximumKey)).Perm
            ((enumerateChild (node.child index)).filter
              (inRange policy minimumKey maximumKey)) := by
        intro index hindex
        obtain ⟨child, hchild⟩ :=
          (rangeIndexes_expands policy minimumKey maximumKey).present node index hindex
        have hsome := child_eq_some hchild
        rw [hchild]
        exact ih child hsome (h.child hsome)
      have hskipped : (rangeIndexes policy minimumKey maximumKey node).flatMap
          (fun index => (enumerateChild (node.child index)).filter
            (inRange policy minimumKey maximumKey)) =
          (node.nodeChildren.flatMap enumerateChild).filter
            (inRange policy minimumKey maximumKey) := by
        rw [filter_flatMap, ← flatMap_nodeChildren, rangeIndexes]
        refine flatMap_filter_of_skipped fun index hindex hkeep => ?_
        refine h.skipped_interval hlaw (mem_range.mp hindex) fun hmem => ?_
        rw [rangeIndexes, mem_filter, hkeep] at hmem
        exact Bool.false_ne_true hmem.2
      rw [expansion_some, flatMap_cons, filter_append, flatMap_assoc, filter_flatMap]
      refine (List.Perm.append_left _ (List.Perm.flatMap_left _ hbelow)).trans ?_
      rw [hskipped, ← filter_append, enumerateNode_eq, flatMap_def]
      exact (interleave_perm (by simp [h.block.arity])).symm.filter _

theorem CanonicalTree.expansion_range {tree : MerkleSearchTree k v}
    (h : CanonicalTree tree) (hlaw : LawfulPolicy tree.policy) :
    (((expansion (rangeIndexes tree.policy minimumKey maximumKey)
      tree.treeRoot).flatMap nodeEntries).filter (inRange tree.policy minimumKey maximumKey)).Perm
      (tree.entries.filter (inRange tree.policy minimumKey maximumKey)) := by
  obtain ⟨root, policy⟩ := tree
  cases root with
  | none => simp [MerkleSearchTree.entries]
  | some root => exact (h.orderedNode root (self_mem_nodePreorder root)).expansion_range hlaw

end Disclosure

theorem DecodedSteps.aligned {steps : List MerkleProofStep}
    {blocks : List (DecodedBlock k v)} {maps : ProofMaps k v}
    (h : DecodedSteps policy steps blocks maps) {nodes : List (MerkleNode k v)}
    (hnodup : (nodes.map nodeDigest).Nodup) (hfound : ∀ node ∈ nodes, node.nodeDigest ∈ maps.1)
    (hlength : nodes.length = steps.length) :
    ∃ aligned, List.Perm aligned blocks ∧ List.Forall₂ (fun block node =>
      maps.1.lookup node.nodeDigest = some block) aligned nodes := by
  have htotal : ∀ node ∈ nodes, ∃ block, maps.1.lookup node.nodeDigest = some block :=
    fun node hnode => Finmap.mem_iff.mp (hfound node hnode)
  obtain ⟨aligned, haligned⟩ := forall₂_of_total htotal
  refine ⟨aligned, ?_, haligned⟩
  have hdigests : aligned.map (fun block => block.decodedBlockSource.merkleBlockDigest) =
      nodes.map nodeDigest := by
    rw [← forall₂_eq_eq_eq, forall₂_map_left_iff, forall₂_map_right_iff]
    exact haligned.imp fun block node hblock => ((h.block_iff _ _).mp hblock).2
  have hsubset : aligned ⊆ blocks := by
    intro block hblock
    obtain ⟨node, -, hlookup⟩ := exists_of_forall₂ haligned hblock
    exact ((h.block_iff _ _).mp hlookup).1
  have hblocks : blocks.length = steps.length := by simpa using congrArg List.length h.sources
  refine (subperm_of_subset ?_ hsubset).perm_of_length_le ?_
  · exact List.Nodup.of_map _ (hdigests ▸ hnodup)
  · rw [hblocks, ← hlength, haligned.length_eq]

/-- The range test on a decoded key. -/
def decodedInRange (policy : MerkleSearchTreePolicy k v) (minimumKey maximumKey : k)
    (entry : DecodedEntry k v) : Bool :=
  policy.compareMerkleKeys minimumKey entry.decodedKey != .gt &&
    policy.compareMerkleKeys entry.decodedKey maximumKey != .gt

theorem SameEntry.inRange_eq (hlaw : LawfulPolicy policy) {minimumKey maximumKey : k}
    {entry : DecodedEntry k v} {stored : MerkleEntry k v} (h : SameEntry policy entry stored) :
    decodedInRange policy minimumKey maximumKey entry =
      inRange policy minimumKey maximumKey stored := by
  have := hlaw.compare_total
  rw [decodedInRange, inRange, congr_left h.2, congr_right h.2]

theorem SameEntry.strictlySorted (hlaw : LawfulPolicy policy)
    {entries : List (DecodedEntry k v)} {stored : List (MerkleEntry k v)}
    (h : List.Forall₂ (SameEntry policy) entries stored)
    (hsorted : StrictlySorted policy.compareMerkleKeys MerkleEntry.entryKey stored) :
    StrictlySorted policy.compareMerkleKeys DecodedEntry.decodedKey entries := by
  have := hlaw.compare_total
  induction h with
  | nil => exact List.Pairwise.nil
  | @cons entry first entries stored hfirst hrest ih =>
      obtain ⟨hbefore, hsorted⟩ := pairwise_cons.mp hsorted
      refine pairwise_cons.mpr ⟨fun other hother => ?_, ih hsorted⟩
      obtain ⟨source, hmem, hsame⟩ := exists_of_forall₂ hrest hother
      rw [congr_left hfirst.2, congr_right hsame.2]
      exact hbefore source hmem

/-- The decodings of the blocks that a proof carries, in their order. -/
structure DecodedProof (policy : MerkleSearchTreePolicy k v) (proof : MerkleProof)
    (blocks : List (DecodedBlock k v)) : Prop where
  sources : blocks.map DecodedBlock.decodedBlockSource =
    proof.proofSteps.map MerkleProofStep.proofStepBlock
  wellFormed : ∀ block ∈ blocks, WellFormedBlock policy block

theorem verifyDecodedProof_range_aligned {tree : MerkleSearchTree k v}
    {proof : MerkleProof} {blocks : List (DecodedBlock k v)} {maps : ProofMaps k v}
    (htree : CanonicalTree tree) (hlaw : LawfulPolicy tree.policy)
    (hcollision : CollisionFree (hashedBytes tree ∪ proofBytes proof))
    (hmaps : DecodedSteps tree.policy proof.proofSteps blocks maps)
    (hkind : proof.proofKind = .RangeProof) (hroot : proof.proofRootDigest = tree.rootDigest)
    (hverify : verifyDecodedProof proof tree.policy budget maps = .ok ()) :
    ∃ minimumKey maximumKey,
      decodeRangeQuery proof tree.policy = .ok (minimumKey, maximumKey) ∧
      ∃ aligned, List.Perm aligned blocks ∧
        List.Forall₂ (fun block node => block.decodedBlockSource = node.storedBlock ∧
          List.Forall₂ (SameEntry tree.policy) block.decodedEntries node.nodeEntries)
          aligned
          (expansion (rangeIndexes tree.policy minimumKey maximumKey) tree.treeRoot) := by
  have hempty := rootDigest_eq_empty htree hcollision Set.subset_union_left
  rcases (verifyDecodedProof_range hkind).mp hverify with
    ⟨hnone, hsteps, ⟨minimumKey, maximumKey⟩, hquery⟩ |
    ⟨hne, -, minimumKey, maximumKey, visited, hquery, hwalk, hcard⟩
  · rw [hroot, hempty] at hnone
    have hblocks : blocks = [] := by
      have hsources := hmaps.sources
      rw [hsteps] at hsources
      exact map_eq_nil_iff.mp hsources
    refine ⟨minimumKey, maximumKey, hquery, [], by rw [hblocks], ?_⟩
    rw [hnone, expansion_none]
    exact .nil
  · rw [hroot] at hne hwalk
    cases htreeRoot : tree.treeRoot with
    | none => exact absurd (hempty.mpr htreeRoot) hne
    | some root =>
        have hmem := root_mem_treePreorder htreeRoot
        have hexpands := rangeIndexes_expands tree.policy minimumKey maximumKey
        rw [rootDigest_eq_childDigest, htreeRoot] at hwalk
        obtain ⟨rfl, hfound⟩ := walkRangeProof_sound htree hlaw hcollision hmaps hmem hwalk
        have hnodup := (htree.digests_nodup hlaw
          (hcollision.mono Set.subset_union_left)).sublist
            ((expansion_sublist_tree hexpands hmem).map _)
        have hlength : (expansion (rangeIndexes tree.policy minimumKey maximumKey)
            (some root)).length = proof.proofSteps.length := by
          rw [← hcard, Finset.empty_union, nodeDigests, toFinset_card_of_nodup hnodup, length_map]
        obtain ⟨aligned, hperm, haligned⟩ := hmaps.aligned hnodup hfound hlength
        refine ⟨minimumKey, maximumKey, hquery, aligned, hperm, ?_⟩
        rw [forall₂_iff_zip] at haligned ⊢
        refine ⟨haligned.1, fun {block node} hpair => ?_⟩
        have hnode := (expansion_sublist_tree hexpands hmem).subset (of_mem_zip hpair).2
        obtain ⟨hblock, hdigest⟩ := (hmaps.block_iff _ _).mp (haligned.2 hpair)
        obtain ⟨hwellFormed, hstored, hmatches⟩ :=
          hmaps.matches_of_mem htree hcollision hnode hblock hdigest
        exact ⟨hstored, hmatches.sameEntries hlaw hwellFormed (htree.orderedNode node hnode)⟩

/--
Range-proof soundness: whatever the steps, the blocks of an accepted range proof
are those of the expansion, and their entries in the range are those of `range`.
-/
theorem verifyProof_range_sound (hlaw : LawfulPolicy policy)
    {tree : MerkleSearchTree k v} (hreachable : Reachable policy tree)
    (proof : MerkleProof) (budget : MerkleVerificationBudget)
    (hkind : proof.proofKind = .RangeProof) (hroot : proof.proofRootDigest = tree.rootDigest)
    (hcollision : CollisionFree (hashedBytes tree ∪ proofBytes proof))
    (hvalid : (verifyProofWithBudget proof policy budget).proofIsValid = true) :
    ∃ minimumKey maximumKey entries blocks disclosed,
      decodeRangeQuery proof policy = .ok (minimumKey, maximumKey) ∧
      range minimumKey maximumKey tree = .ok entries ∧
      DecodedProof policy proof blocks ∧
      List.Perm disclosed ((blocks.flatMap DecodedBlock.decodedEntries).filter
        (decodedInRange policy minimumKey maximumKey)) ∧
      StrictlySorted policy.compareMerkleKeys DecodedEntry.decodedKey disclosed ∧
      disclosed.map DecodedEntry.encoded = entries.map MerkleEntry.encoded ∧
      (proof.proofSteps.map MerkleProofStep.proofStepBlock).Perm
        ((expansion (rangeIndexes policy minimumKey maximumKey) tree.treeRoot).map
          storedBlock) := by
  obtain ⟨htree, rfl⟩ := hreachable.canonical hlaw
  obtain ⟨blocks, maps, hmaps, hverify⟩ := verifyProofWithBudget_decoded hvalid
  obtain ⟨minimumKey, maximumKey, hquery, aligned, hperm, haligned⟩ :=
    verifyDecodedProof_range_aligned htree hlaw hcollision hmaps hkind hroot hverify
  obtain ⟨-, horder, -⟩ := decodeRangeQuery_eq_ok.mp hquery
  have hentries : List.Forall₂ (SameEntry tree.policy)
      ((aligned.flatMap DecodedBlock.decodedEntries).filter
        (decodedInRange tree.policy minimumKey maximumKey))
      (((expansion (rangeIndexes tree.policy minimumKey maximumKey)
        tree.treeRoot).flatMap nodeEntries).filter
          (inRange tree.policy minimumKey maximumKey)) := by
    refine rel_filter (fun entry stored hsame => ?_) (rel_flatMap haligned fun block node h => h.2)
    exact Bool.eq_iff_iff.mp (hsame.inRange_eq hlaw)
  -- The expansion lists the range block by block; `range` lists it in key order.
  have hcomp : Relation.Comp (List.Forall₂ (SameEntry tree.policy)) List.Perm
      ((aligned.flatMap DecodedBlock.decodedEntries).filter
        (decodedInRange tree.policy minimumKey maximumKey))
      (tree.entries.filter (inRange tree.policy minimumKey maximumKey)) :=
    ⟨_, hentries, htree.expansion_range hlaw⟩
  rw [forall₂_comp_perm_eq_perm_comp_forall₂] at hcomp
  obtain ⟨disclosed, hdisclosed, hsame⟩ := hcomp
  refine ⟨minimumKey, maximumKey, _, blocks, disclosed, hquery,
    htree.range_eq hlaw horder, ⟨hmaps.sources, hmaps.wellFormed⟩, ?_, ?_, ?_, ?_⟩
  · exact hdisclosed.symm.trans ((hperm.flatMap_right _).filter _)
  · exact SameEntry.strictlySorted hlaw hsame (htree.ordered.sorted.sublist filter_sublist)
  · rw [← forall₂_eq_eq_eq, forall₂_map_left_iff, forall₂_map_right_iff]
    exact hsame.imp fun _ _ h => h.1
  · have hsources : aligned.map DecodedBlock.decodedBlockSource =
        (expansion (rangeIndexes tree.policy minimumKey maximumKey) tree.treeRoot).map
          storedBlock := by
      rw [← forall₂_eq_eq_eq, forall₂_map_left_iff, forall₂_map_right_iff]
      exact haligned.imp fun _ _ h => h.1
    rw [← hmaps.sources, ← hsources]
    exact (hperm.map _).symm

theorem verifyProof_range_sound_bytes : ∃ proof,
    (verifyProofWithBudget proof bytesPolicy defaultMerkleVerificationBudget).proofIsValid = true ∧
    ∃ minimumKey maximumKey entries blocks disclosed,
      decodeRangeQuery proof bytesPolicy = .ok (minimumKey, maximumKey) ∧
      range minimumKey maximumKey bytesTree = .ok entries ∧
      DecodedProof bytesPolicy proof blocks ∧
      List.Perm disclosed ((blocks.flatMap DecodedBlock.decodedEntries).filter
        (decodedInRange bytesPolicy minimumKey maximumKey)) ∧
      StrictlySorted bytesPolicy.compareMerkleKeys DecodedEntry.decodedKey disclosed ∧
      disclosed.map DecodedEntry.encoded = entries.map MerkleEntry.encoded ∧
      (proof.proofSteps.map MerkleProofStep.proofStepBlock).Perm
        ((expansion (rangeIndexes bytesPolicy minimumKey maximumKey)
          bytesTree.treeRoot).map storedBlock) := by
  obtain ⟨proof, -, hproof, hkind, hvalid⟩ := createRangeProof_bytes
  have hcollision : CollisionFree (hashedBytes bytesTree ∪ proofBytes proof) :=
    bytesTree_collisionFree.mono (Set.union_subset subset_rfl
      (hproof.proofBytes_subset (rangeIndexes_expands bytesPolicy none none)))
  exact ⟨proof, hvalid, verifyProof_range_sound bytesPolicy_lawful.toLawfulPolicy
    bytesTree_reachable proof defaultMerkleVerificationBudget hkind hproof.root_eq
    hcollision hvalid⟩

end Durable7.Hamt
