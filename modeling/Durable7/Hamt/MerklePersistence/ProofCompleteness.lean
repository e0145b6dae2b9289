import Durable7.Hamt.MerklePersistence.ProofCreation

/-!
# Completeness of proofs

The verifier admits the steps of an expansion and walks exactly its blocks, under
every budget that covers them.
-/

namespace Durable7.Hamt

open Foundation List MerkleNode Nat
open MerkleEntry hiding decoded

variable {k v : Type} {policy : MerkleSearchTreePolicy k v} {budget : MerkleVerificationBudget}

/-! ## Admitting the steps -/

theorem nodeDigests_cons (node : MerkleNode k v) (nodes : List (MerkleNode k v)) :
    nodeDigests (node :: nodes) = Insert.insert node.nodeDigest (nodeDigests nodes) := by
  simp [nodeDigests]

theorem nodeDigests_append (front back : List (MerkleNode k v)) :
    nodeDigests (front ++ back) = nodeDigests front ∪ nodeDigests back := by
  simp [nodeDigests]

theorem accountProofQuery_total {nodes : List (MerkleNode k v)} {count : Nat}
    (root : MerkleDigest) (hquery : count ≤ budget.maxProofQueryByteCount)
    (htotal : count ≤ budget.maxTotalByteCount) :
    ∃ context, accountProofQuery count root (newContext budget) = .ok context ∧
      ChargedNodes nodes count context := by
  rw [accountProofQuery]
  split
  · rename_i hlimit
    simp only [newContext] at hlimit
    omega
  · exact ⟨_, rfl, by simp [newContext], rfl, by simp [newContext], rfl⟩

variable {context next : VerificationContext budget}

theorem decodeBlock_accountBlock {block : MerkleBlock} {depth : Nat} {decoded : DecodedBlock k v}
    (h : decodeBlock policy block depth context = .ok (decoded, next)) :
    ∃ admitted, accountBlock depth block context = .ok admitted := by
  rw [decodeBlock, bind_eq_ok] at h
  obtain ⟨admitted, hadmitted, -⟩ := h
  exact ⟨admitted, hadmitted⟩

variable {maps : ProofMaps k v}

theorem decodeProofSteps_cons {step : MerkleProofStep} {rest : List MerkleProofStep}
    {admitted : Bool × VerificationContext budget} {parsed : DecodedBlock k v}
    (haccount : accountBlock 1 step.proofStepBlock context = .ok admitted)
    (hdecode : decodeBlock policy step.proofStepBlock 1 context = .ok (parsed, next))
    (hfresh : ¬ (step.digest ∈ maps.1 ∨ step.digest ∈ maps.2))
    (hindexes : validateExpandedIndexes policy parsed step = .ok ()) :
    decodeProofSteps policy (step :: rest) maps.1 maps.2 context =
      decodeProofSteps policy rest (maps.1.insert step.digest parsed)
        (maps.2.insert step.digest step) next := by
  rw [decodeProofSteps]
  simp only [haccount, hdecode]
  split
  · rename_i hseen
    exact absurd hseen hfresh
  · rw [hindexes]
    rfl

variable {node : MerkleNode k v}

theorem OrderedNode.validateProofReference (hlaw : LawfulPolicy policy) {child : MerkleNode k v}
    (h : OrderedNode policy node) {index : Nat} (hchild : node.child index = some child) :
    validateProofReference policy (node.decoded policy) index (child.decoded policy) = .ok () := by
  have := hlaw.compare_total
  have hmem := child_eq_some hchild
  have hlt : index < node.nodeChildren.length := child_isSome_lt (by rw [hchild]; rfl)
  have hposition : index ≤ node.nodeEntries.length := by
    have harity := h.block.arity
    omega
  obtain ⟨hlower, hupper⟩ := h.canonical.interval_order h.ordered.sorted hposition
  rw [hchild, enumerateChild_some] at hlower hupper
  have hlevel : ¬ child.nodeLevel ≥ node.nodeLevel :=
    UInt8.not_le.mpr (h.block.child_level child hmem)
  refine bind_eq_ok.mpr ⟨⟨⟩, rejectIf_eq_ok.mpr hlevel, forM_eq_ok.mpr ?_⟩
  intro decoded hdecoded
  obtain ⟨entry, hentry, rfl⟩ := mem_map.mp hdecoded
  have hbelow : entry ∈ enumerateNode child :=
    (h.child hmem).block.nodeEntries_sublist.subset hentry
  refine bind_eq_ok.mpr ⟨⟨⟩, rejectIf_eq_ok.mpr ?_, rejectIf_eq_ok.mpr ?_⟩
  · rintro ⟨hpos, hcrossed⟩
    rw [decoded, List.getElem?_map] at hcrossed
    cases hget : node.nodeEntries[index - 1]? with
    | none => simp [hget] at hcrossed
    | some lower =>
        have hless := hlower lower hget (pos_of_ne_zero hpos) entry hbelow
        rw [hget] at hcrossed
        simp [MerkleEntry.decoded, Std.OrientedCmp.gt_of_lt hless] at hcrossed
  · rw [decoded, List.getElem?_map]
    cases hget : node.nodeEntries[index]? with
    | none => simp
    | some upper =>
        have hless := hupper upper hget entry hbelow
        simp [MerkleEntry.decoded, hless]

variable {maximumKey minimumKey key : k}

section Verifier

variable {tree : MerkleSearchTree k v} (htree : CanonicalTree tree)
  (hlaw : LawfulWirePolicy tree.policy) (hcollision : CollisionFree (hashedBytes tree))
  {expand : MerkleNode k v → List Nat} (hexpands : ExpandsIntervals expand)

include htree hcollision hexpands in
theorem validateExpandedIndexes_node (hnode : node ∈ treePreorder tree) :
    validateExpandedIndexes tree.policy (node.decoded tree.policy)
      (expandedStep expand node) = .ok () := by
  refine forM_eq_ok.mpr fun expanded hexpanded => ?_
  obtain ⟨index, hindex, rfl⟩ := mem_map.mp hexpanded
  obtain ⟨child, hchild⟩ := hexpands.present node index hindex
  have hlt := child_isSome_lt (show (node.child index).isSome = true by rw [hchild]; rfl)
  refine bind_eq_ok.mpr ⟨⟨⟩, rejectIf_eq_ok.mpr ?_, rejectIf_eq_ok.mpr ?_⟩
  · simp only [decoded, length_map, Int.ofNat_eq_natCast]
    omega
  · rw [Int.ofNat_eq_natCast, Int.toNat_natCast,
      (node.decoded_matches tree.policy).childAt_eq,
      childDigest_eq_empty htree hcollision (fun _ h => h) hnode (child_mem_of_lt hlt),
      hchild]
    simp

include htree hlaw hcollision hexpands in
theorem decodeProofSteps_total {nodes : List (MerkleNode k v)} {base : Nat}
    (hnodes : ∀ node ∈ nodes, node ∈ treePreorder tree) (hnodup : (nodes.map nodeDigest).Nodup)
    (hcovers : CoversNodes budget base nodes) :
    ∀ (rest done : List (MerkleNode k v)) (start : ProofMaps k v)
      (context : VerificationContext budget), done ++ rest = nodes →
      DecodedSteps tree.policy (done.map (expandedStep expand))
        (done.map (decoded tree.policy)) start →
      ChargedNodes nodes base context →
      ∃ maps final, decodeProofSteps tree.policy (rest.map (expandedStep expand))
          start.1 start.2 context = (.ok maps, final) ∧
        DecodedSteps tree.policy (nodes.map (expandedStep expand))
          (nodes.map (decoded tree.policy)) maps := by
  intro rest
  induction rest with
  | nil =>
      rintro done start context rfl hstart -
      rw [append_nil]
      exact ⟨start, context, rfl, hstart⟩
  | cons node rest ih =>
      intro done start context hsplit hstart hcharged
      have hmem : node ∈ nodes := by simp [← hsplit]
      have hordered := htree.orderedNode node (hnodes node hmem)
      obtain ⟨next, hdecode, hcharged', -⟩ := decodeBlock_node hlaw hordered hnodup
        hcovers hcharged hmem one_pos budget.positive.2.2.2.1
      obtain ⟨admitted, hadmitted⟩ := decodeBlock_accountBlock hdecode
      have hfresh : (expandedStep expand node).digest ∉
          (done.map (expandedStep expand)).map MerkleProofStep.digest := by
        rw [← hsplit, map_append, map_cons, nodup_append] at hnodup
        rw [map_map]
        intro hseen
        exact hnodup.2.2 _ hseen _ mem_cons_self rfl
      have hsnoc := hstart.snoc
        (show (node.decoded tree.policy).decodedBlockSource =
          (expandedStep expand node).proofStepBlock from rfl)
        (hordered.wellFormed hlaw) hfresh
      obtain ⟨maps, final, hrest, hmaps⟩ := ih (done ++ [node]) _ next
        (by simpa using hsplit) (by simpa using hsnoc) hcharged'
      refine ⟨maps, final, ?_, hmaps⟩
      have hseen : ¬ ((expandedStep expand node).digest ∈ start.1 ∨
          (expandedStep expand node).digest ∈ start.2) := by
        rw [hstart.mem_blocks, hstart.mem_steps, or_self]
        exact hfresh
      rw [map_cons, decodeProofSteps_cons hadmitted hdecode hseen
        (validateExpandedIndexes_node htree hcollision hexpands (hnodes node hmem))]
      exact hrest

/-! ## Walking the steps -/

omit hexpands in
theorem expansionDepth_pos (expand : MerkleNode k v → List Nat)
    (node : MerkleNode k v) : 0 < expansionDepth expand (some node) := by
  rw [expansionDepth]
  omega

omit hexpands in
include htree hlaw hcollision in
theorem expansion_digests_nodup (hexpands : ExpandsIntervals expand)
    (hnode : node ∈ treePreorder tree) :
    ((expansion expand (some node)).map nodeDigest).Nodup :=
  (htree.digests_nodup hlaw.toLawfulPolicy hcollision).sublist
    ((expansion_sublist_tree hexpands hnode).map _)

/-- The verifier's maps for the steps of an expansion. -/
def MapsExpansion (policy : MerkleSearchTreePolicy k v)
    (expand : MerkleNode k v → List Nat) (maps : ProofMaps k v)
    (nodes : List (MerkleNode k v)) : Prop :=
  ∀ node ∈ nodes, maps.1.lookup node.nodeDigest = some (node.decoded policy) ∧
    maps.2.lookup node.nodeDigest = some (expandedStep expand node)

theorem DecodedSteps.mapsExpansion
    {nodes : List (MerkleNode k v)} (h : DecodedSteps policy (nodes.map (expandedStep expand))
      (nodes.map (decoded policy)) maps) :
    MapsExpansion policy expand maps nodes := fun _ hnode =>
  ⟨(h.block_iff _ _).mpr ⟨mem_map_of_mem hnode, rfl⟩,
    (h.step_iff _ _).mpr ⟨mem_map_of_mem hnode, rfl⟩⟩

include htree hlaw hcollision in
theorem walkPointProof_node (hnode : node ∈ treePreorder tree)
    (hmaps : MapsExpansion tree.policy (pointIndexes tree.policy key) maps
      (expansion (pointIndexes tree.policy key) (some node))) :
    ∀ {depth : Nat} (visited : Finset MerkleDigest), 0 < depth →
      depth + expansionDepth (pointIndexes tree.policy key) (some node) ≤ budget.maxDepth + 1 →
      (∀ other ∈ expansion (pointIndexes tree.policy key) (some node), other.nodeDigest ∉ visited) →
      walkPointProof (pointKind (lookupNode tree.policy key (some node))) tree.policy
          budget maps key
          ((lookupNode tree.policy key (some node)).map entryValueBytes)
          node.nodeDigest depth visited =
        .ok (visited ∪ nodeDigests (expansion (pointIndexes tree.policy key) (some node))) := by
  induction node using childInduction with
  | step node ih =>
      intro depth visited hpos hdepth hfresh
      have hordered := htree.orderedNode node hnode
      have hexpands := pointIndexes_expands tree.policy key
      have hmatches := node.decoded_matches tree.policy
      have hdecoded := hmatches.findDecodedPosition_eq hlaw.toLawfulPolicy
        (hordered.wellFormed hlaw) hordered key
      have hnodup := expansion_digests_nodup htree hlaw hcollision hexpands hnode
      have hroot := expansionDepth_pos (pointIndexes tree.policy key) node
      rw [expansion_some] at hmaps hfresh hnodup ⊢
      obtain ⟨hblock, hstep⟩ := hmaps node (by simp)
      refine walkPointProof_eq_ok.mpr ⟨⟨hpos, by omega⟩, hfresh node (by simp),
        node.decoded tree.policy, expandedStep (pointIndexes tree.policy key) node,
        hblock, hstep, ?_⟩
      cases hordered.pointCase hlaw.toLawfulPolicy key with
      | found hfind hentry hlookup hindexes =>
          refine .inl ⟨.present (hdecoded.trans hfind) ?_ ?_, ?_, ?_⟩
          · rw [hlookup]
            rfl
          · rw [hlookup, hmatches.valueBytes_eq, hentry]
          · simp [expandedStep, hindexes]
          · simp [hindexes, nodeDigests]
      | absent hfind hlt hchild hlookup hindexes =>
          refine .inl ⟨.absent (hdecoded.trans hfind) ?_ ?_, ?_, ?_⟩
          · rw [hmatches.childAt_eq, hchild]
            rfl
          · rw [hlookup]
            rfl
          · simp [expandedStep, hindexes]
          · simp [hindexes, nodeDigests]
      | @below position child hfind hlt hchild hlookup hindexes =>
          have hsome := child_eq_some hchild
          have hchildMem := treePreorder_child hnode hsome
          have hchildAt : (node.decoded tree.policy).childAt tree.policy position =
              child.nodeDigest := by
            rw [hmatches.childAt_eq, hchild]
            rfl
          have hchildDepth := expansionDepth_child
            (show position ∈ pointIndexes tree.policy key node by simp [hindexes])
          rw [hchild] at hchildDepth
          rw [hindexes, flatMap_singleton, hchild] at hmaps hfresh hnodup ⊢
          rw [map_cons, nodup_cons] at hnodup
          refine .inr ⟨position, child.decoded tree.policy, hdecoded.trans hfind, ?_,
            by simp [expandedStep, hindexes], ?_,
            hordered.validateProofReference hlaw.toLawfulPolicy hchild, ?_⟩
          · rw [hchildAt]
            exact nodeDigest_ne_empty htree hcollision (fun _ h => h) hchildMem
          · rw [hchildAt]
            exact (hmaps child (by simp)).1
          · rw [hchildAt, hlookup, ih child hsome hchildMem
              (fun other hother => hmaps other (mem_cons_of_mem _ hother)) _
              (succ_pos depth) (by omega) ?_]
            · rw [nodeDigests_cons, Finset.insert_union, Finset.union_insert]
            · intro other hother hmem
              rcases Finset.mem_insert.mp hmem with heq | hmem
              · exact hnodup.1 (heq ▸ mem_map_of_mem hother)
              · exact hfresh other (mem_cons_of_mem _ hother) hmem

/-- A range walk from `node` visits exactly its expansion. -/
def RangeWalks (policy : MerkleSearchTreePolicy k v) (budget : MerkleVerificationBudget)
    (maps : ProofMaps k v) (minimumKey maximumKey : k) (depth : Nat)
    (node : MerkleNode k v) : Prop :=
  ∀ visited : Finset MerkleDigest,
    (∀ other ∈ expansion (rangeIndexes policy minimumKey maximumKey) (some node),
      other.nodeDigest ∉ visited) →
    walkRangeProof policy budget maps minimumKey maximumKey node.nodeDigest depth
        visited = .ok (visited ∪ nodeDigests (expansion
          (rangeIndexes policy minimumKey maximumKey) (some node)))

include htree in
private theorem visitRangeChildren_node (hlawful : LawfulPolicy tree.policy)
    (hnode : node ∈ treePreorder tree) {depth : Nat} :
    ∀ (indexes : List Nat) {visited : Finset MerkleDigest},
      (∀ index ∈ indexes, ∃ child, node.child index = some child ∧
        maps.1.lookup child.nodeDigest = some (child.decoded tree.policy) ∧
        RangeWalks tree.policy budget maps minimumKey maximumKey depth child) →
      ((indexes.flatMap fun index => expansion
        (rangeIndexes tree.policy minimumKey maximumKey) (node.child index)).map nodeDigest).Nodup →
      (∀ other ∈ indexes.flatMap (fun index => expansion
        (rangeIndexes tree.policy minimumKey maximumKey) (node.child index)),
          other.nodeDigest ∉ visited) →
      visitRangeChildren tree.policy budget maps minimumKey maximumKey
          (node.decoded tree.policy) indexes depth visited =
        .ok (visited ∪ nodeDigests (indexes.flatMap fun index => expansion
          (rangeIndexes tree.policy minimumKey maximumKey) (node.child index))) := by
  intro indexes
  induction indexes with
  | nil =>
      intro visited _ _ _
      simp [visitRangeChildren_nil, nodeDigests]
  | cons index indexes ih =>
      intro visited hwalks hnodup hfresh
      obtain ⟨child, hchild, hlookup, hwalk⟩ := hwalks index (by simp)
      have hordered := htree.orderedNode node hnode
      have hchildAt : (node.decoded tree.policy).childAt tree.policy index =
          child.nodeDigest := by
        rw [(node.decoded_matches tree.policy).childAt_eq, hchild]
        rfl
      rw [flatMap_cons, hchild] at hnodup hfresh ⊢
      rw [map_append, nodup_append] at hnodup
      have hfirst := hwalk visited fun other hother => hfresh other (mem_append_left _ hother)
      rw [← hchildAt] at hlookup hfirst
      refine visitRangeChildren_cons_eq_ok.mpr ⟨child.decoded tree.policy, _, hlookup,
        hordered.validateProofReference hlawful hchild, hfirst, ?_⟩
      rw [ih (fun other hother => hwalks other (by simp [hother])) hnodup.2.1 ?_]
      · rw [nodeDigests_append, Finset.union_assoc]
      · intro other hother hmem
        rcases Finset.mem_union.mp hmem with hmem | hmem
        · exact hfresh other (mem_append_right _ hother) hmem
        · obtain ⟨earlier, hearlier, heq⟩ := mem_nodeDigests.mp hmem
          exact hnodup.2.2 _ (mem_map_of_mem hearlier) _ (mem_map_of_mem hother) heq

include htree hlaw hcollision in
theorem walkRangeProof_node (hnode : node ∈ treePreorder tree)
    (hmaps : MapsExpansion tree.policy (rangeIndexes tree.policy minimumKey maximumKey)
      maps (expansion (rangeIndexes tree.policy minimumKey maximumKey) (some node))) :
    ∀ {depth : Nat}, 0 < depth →
      depth + expansionDepth (rangeIndexes tree.policy minimumKey maximumKey)
        (some node) ≤ budget.maxDepth + 1 →
      RangeWalks tree.policy budget maps minimumKey maximumKey depth node := by
  induction node using childInduction with
  | step node ih =>
      intro depth hpos hdepth visited hfresh
      have hordered := htree.orderedNode node hnode
      have hexpands := rangeIndexes_expands tree.policy minimumKey maximumKey
      have hindexes := (node.decoded_matches tree.policy).expandedIndexes_eq
        hlaw.toLawfulPolicy (hordered.wellFormed hlaw) hordered (fun child hchild =>
          childDigest_eq_empty htree hcollision (fun _ h => h) hnode hchild)
        minimumKey maximumKey
      have hnodup := expansion_digests_nodup htree hlaw hcollision hexpands hnode
      have hroot := expansionDepth_pos (rangeIndexes tree.policy minimumKey maximumKey) node
      rw [expansion_some] at hmaps hfresh hnodup ⊢
      rw [map_cons, nodup_cons] at hnodup
      obtain ⟨hblock, hstep⟩ := hmaps node (by simp)
      refine walkRangeProof_eq_ok.mpr ⟨⟨hpos, by omega⟩, hfresh node (by simp),
        node.decoded tree.policy, _, hblock, hstep, by rw [hindexes]; rfl, ?_⟩
      have hwalks : ∀ index ∈ rangeIndexes tree.policy minimumKey maximumKey node,
          ∃ child, node.child index = some child ∧
            maps.1.lookup child.nodeDigest = some (child.decoded tree.policy) ∧
            RangeWalks tree.policy budget maps minimumKey maximumKey (depth + 1)
              child := by
        intro index hindex
        obtain ⟨child, hchild⟩ := hexpands.present node index hindex
        have hsome := child_eq_some hchild
        have hchildMaps : MapsExpansion tree.policy
            (rangeIndexes tree.policy minimumKey maximumKey) maps
            (expansion (rangeIndexes tree.policy minimumKey maximumKey)
              (some child)) := fun other hother =>
          hmaps other (mem_cons_of_mem _ (mem_flatMap.mpr ⟨index, hindex, hchild ▸ hother⟩))
        have hchildDepth := expansionDepth_child hindex
        rw [hchild] at hchildDepth
        exact ⟨child, hchild, (hchildMaps child (by simp)).1,
          ih child hsome (treePreorder_child hnode hsome) hchildMaps (succ_pos depth) (by omega)⟩
      rw [hindexes, visitRangeChildren_node htree hlaw.toLawfulPolicy hnode _ hwalks hnodup.2 ?_]
      · rw [nodeDigests_cons, Finset.insert_union, Finset.union_insert]
      · intro other hother hmem
        rcases Finset.mem_insert.mp hmem with heq | hmem
        · exact hnodup.1 (heq ▸ mem_map_of_mem hother)
        · exact hfresh other (mem_cons_of_mem _ hother) hmem

end Verifier

/-- The seven limits suffice for the proof and the expansion behind it. -/
structure CoversProof (budget : MerkleVerificationBudget) (proof : MerkleProof)
    (expand : MerkleNode k v → List Nat) (tree : MerkleSearchTree k v) : Prop where
  query_le : proof.proofQuery.length ≤ budget.maxProofQueryByteCount
  steps_le : proof.proofSteps.length ≤ budget.maxBlockCount
  total_le : proof.proofTotalByteCount ≤ budget.maxTotalByteCount
  block_le : ∀ step ∈ proof.proofSteps,
    step.proofStepBlock.merkleBlockBytes.length ≤ budget.maxBlockByteCount
  depth_le : expansionDepth expand tree.treeRoot ≤ budget.maxDepth
  entries_le : ((expansion expand tree.treeRoot).map entryCount).sum ≤ budget.maxEntryCount
  children_le : ∀ node ∈ expansion expand tree.treeRoot,
    node.entryCount + 1 ≤ budget.maxChildReferencesPerBlock

theorem CoversProof.nodes {proof : MerkleProof} {expand : MerkleNode k v → List Nat}
    {tree : MerkleSearchTree k v} (h : CoversProof budget proof expand tree)
    (hproof : ProvesExpansion proof expand tree) :
    CoversNodes budget proof.proofQuery.length (expansion expand tree.treeRoot) where
  blockCount := by
    have hle := h.steps_le
    rwa [hproof.steps_eq, length_map] at hle
  totalBytes := hproof.total_eq ▸ h.total_le
  blockBytes node hnode := by
    refine h.block_le (expandedStep expand node) ?_
    rw [hproof.steps_eq]
    exact mem_map_of_mem hnode
  entryCount := h.entries_le
  childReferences := h.children_le

section Verification

variable {tree : MerkleSearchTree k v} {proof : MerkleProof} {expand : MerkleNode k v → List Nat}

theorem ProvesExpansion.verified (hproof : ProvesExpansion proof expand tree)
    (htree : CanonicalTree tree) (hlaw : LawfulWirePolicy tree.policy)
    (hcollision : CollisionFree (hashedBytes tree)) (hexpands : ExpandsIntervals expand)
    (hcovers : CoversProof budget proof expand tree)
    (hdecoded : ∀ maps, MapsExpansion tree.policy expand maps
      (expansion expand tree.treeRoot) →
        verifyDecodedProof proof tree.policy budget maps = .ok ()) :
    (verifyProofWithBudget proof tree.policy budget).proofIsValid = true := by
  have hnodes : ∀ node ∈ expansion expand tree.treeRoot, node ∈ treePreorder tree :=
    fun node hnode => (expansion_root_sublist hexpands tree).subset hnode
  have hnodup : ((expansion expand tree.treeRoot).map nodeDigest).Nodup :=
    (htree.digests_nodup hlaw.toLawfulPolicy hcollision).sublist
      ((expansion_root_sublist hexpands tree).map _)
  have hbytes := hcovers.query_le.trans budget.queryBytes_le
  obtain ⟨context, hcontext, hcharged⟩ :=
    accountProofQuery_total proof.proofRootDigest hcovers.query_le hbytes
  obtain ⟨maps, final, hdecode, hmaps⟩ := decodeProofSteps_total htree hlaw hcollision
    hexpands hnodes hnodup (hcovers.nodes hproof) _ [] (∅, ∅) context
    (nil_append _) (DecodedSteps.nil tree.policy) hcharged
  refine verifyProofWithBudget_valid.mpr ⟨context, final, maps, hcontext,
    preflightProofStructure_eq_ok.mpr ⟨hcovers.steps_le, ?_⟩,
    verifyEnvelope_eq_ok.mpr ⟨hproof.algorithm_eq, hproof.domain_eq⟩, ?_,
    hdecoded maps hmaps.mapsExpansion⟩
  · intro step hstep
    rw [hproof.steps_eq] at hstep
    obtain ⟨node, hnode, rfl⟩ := mem_map.mp hstep
    have hle := (hexpands.sublist node).length_le
    have harity := (htree.orderedNode node (hnodes node hnode)).block.arity
    have hchildren := hcovers.children_le node hnode
    rw [length_range] at hle
    rw [entryCount] at hchildren
    rw [expandedStep, length_map]
    omega
  · rw [hproof.steps_eq]
    exact hdecode

theorem MapsExpansion.root_mem {root : MerkleNode k v}
    (h : MapsExpansion policy expand maps (expansion expand (some root))) :
    root.nodeDigest ∈ maps.1 :=
  Finmap.mem_iff.mpr ⟨_, (h root (by simp)).1⟩

variable (htree : CanonicalTree tree) (hlaw : LawfulWirePolicy tree.policy)
  (hcollision : CollisionFree (hashedBytes tree))

include htree hlaw hcollision

theorem verifyDecodedProof_pointExpansion
    (hproof : ProvesExpansion proof (pointIndexes tree.policy key) tree)
    (hkind : proof.proofKind = pointKind (lookupEntry key tree))
    (hquery : decodePointQuery proof tree.policy =
      .ok (key, (lookupEntry key tree).map entryValueBytes))
    (hdepth : expansionDepth (pointIndexes tree.policy key) tree.treeRoot ≤
      budget.maxDepth) (hmaps : MapsExpansion tree.policy (pointIndexes tree.policy key) maps
      (expansion (pointIndexes tree.policy key) tree.treeRoot)) :
    verifyDecodedProof proof tree.policy budget maps = .ok () := by
  have hpoint : proof.proofKind ≠ .RangeProof := by
    rw [hkind, pointKind]
    split <;> simp
  have hempty := rootDigest_eq_empty htree hcollision (fun _ h => h)
  have hsteps := hproof.steps_eq
  refine (verifyDecodedProof_point hpoint).mpr ?_
  rw [lookupEntry] at hkind hquery
  rw [hproof.root_eq]
  cases hroot : tree.treeRoot with
  | none =>
      rw [hroot] at hkind hsteps
      refine .inl ⟨hempty.mpr hroot, by simpa using hsteps, ?_, _, hquery⟩
      rw [hkind, lookupNode]
      rfl
  | some root =>
      rw [hroot] at hkind hquery hdepth hmaps hsteps
      have hmem := root_mem_treePreorder hroot
      have hdigest := rootDigest_some hroot
      have hnodup := expansion_digests_nodup htree hlaw hcollision
        (pointIndexes_expands tree.policy key) hmem
      have hwalk := walkPointProof_node htree hlaw hcollision hmem hmaps ∅ one_pos
        (show 1 + _ ≤ budget.maxDepth + 1 by omega) (by simp)
      refine .inr ⟨by rw [ne_eq, hempty, hroot]; simp, hdigest ▸ hmaps.root_mem, key, _, _,
        hquery, by rw [hkind, hdigest]; exact hwalk, ?_⟩
      rw [Finset.empty_union, nodeDigests, toFinset_card_of_nodup hnodup, hsteps,
        length_map, length_map]

theorem verifyDecodedProof_rangeExpansion (hproof : ProvesExpansion proof
      (rangeIndexes tree.policy minimumKey maximumKey) tree) (hkind : proof.proofKind = .RangeProof)
    (hquery : decodeRangeQuery proof tree.policy = .ok (minimumKey, maximumKey))
    (hdepth : expansionDepth (rangeIndexes tree.policy minimumKey maximumKey)
      tree.treeRoot ≤ budget.maxDepth)
    (hmaps : MapsExpansion tree.policy (rangeIndexes tree.policy minimumKey maximumKey)
      maps (expansion (rangeIndexes tree.policy minimumKey maximumKey) tree.treeRoot)) :
    verifyDecodedProof proof tree.policy budget maps = .ok () := by
  have hempty := rootDigest_eq_empty htree hcollision (fun _ h => h)
  have hsteps := hproof.steps_eq
  refine (verifyDecodedProof_range hkind).mpr ?_
  rw [hproof.root_eq]
  cases hroot : tree.treeRoot with
  | none =>
      rw [hroot] at hsteps
      exact .inl ⟨hempty.mpr hroot, by simpa using hsteps, _, hquery⟩
  | some root =>
      rw [hroot] at hdepth hmaps hsteps
      have hmem := root_mem_treePreorder hroot
      have hdigest := rootDigest_some hroot
      have hnodup := expansion_digests_nodup htree hlaw hcollision
        (rangeIndexes_expands tree.policy minimumKey maximumKey) hmem
      have hwalk := walkRangeProof_node htree hlaw hcollision hmem hmaps one_pos
        (show 1 + _ ≤ budget.maxDepth + 1 by omega) ∅ (by simp)
      refine .inr ⟨by rw [ne_eq, hempty, hroot]; simp, hdigest ▸ hmaps.root_mem,
        minimumKey, maximumKey, _, hquery, by rw [hdigest]; exact hwalk, ?_⟩
      rw [Finset.empty_union, nodeDigests, toFinset_card_of_nodup hnodup, hsteps,
        length_map, length_map]

theorem ProvesExpansion.point_verified {keyBytes : ByteString}
    (hproof : ProvesExpansion proof (pointIndexes tree.policy key) tree)
    (hkey : tree.policy.merkleKeyCodec.encodeMerkleValue key = .ok keyBytes)
    (hfits : FitsPointQuery keyBytes (lookupEntry key tree))
    (hkind : proof.proofKind = pointKind (lookupEntry key tree))
    (hquery : proof.proofQuery = pointQuery (pointKind (lookupEntry key tree)) keyBytes
      ((lookupEntry key tree).map entryValueBytes))
    (hcovers : CoversProof budget proof (pointIndexes tree.policy key) tree) :
    (verifyProofWithBudget proof tree.policy budget).proofIsValid = true := by
  have hclaimed : ClaimedValue tree.policy (pointKind (lookupEntry key tree))
      ((lookupEntry key tree).map entryValueBytes) := by
    cases hfound : lookupEntry key tree with
    | none => simp [ClaimedValue, pointKind]
    | some entry =>
        have hvalue := (lookupEntry_valid htree hlaw.toLawfulPolicy hfound).1.valueBytes
        exact ⟨rfl, hfits.2 entry hfound, entry.entryValue,
          hlaw.decodeValue_encode _ _ hvalue, hvalue⟩
  have hdecoded : decodePointQuery proof tree.policy =
      .ok (key, (lookupEntry key tree).map entryValueBytes) :=
    decodePointQuery_eq_ok.mpr ⟨hkind ▸ pointKind_ne_range _, keyBytes,
      ⟨hlaw.decodeKey_encode _ _ hkey, hkey⟩, hfits.1, hkind ▸ hclaimed,
      hkind ▸ hquery⟩
  exact hproof.verified htree hlaw hcollision (pointIndexes_expands tree.policy key)
    hcovers fun maps hmaps => verifyDecodedProof_pointExpansion htree hlaw hcollision
      hproof hkind hdecoded hcovers.depth_le hmaps

theorem ProvesExpansion.range_verified {minimumBytes maximumBytes : ByteString}
    (hproof : ProvesExpansion proof (rangeIndexes tree.policy minimumKey maximumKey) tree)
    (hminimum : tree.policy.merkleKeyCodec.encodeMerkleValue minimumKey = .ok minimumBytes)
    (hmaximum : tree.policy.merkleKeyCodec.encodeMerkleValue maximumKey = .ok maximumBytes)
    (horder : tree.policy.compareMerkleKeys minimumKey maximumKey ≠ .gt)
    (hlengths : minimumBytes.length ≤ maxInt32 ∧ maximumBytes.length ≤ maxInt32)
    (hkind : proof.proofKind = .RangeProof)
    (hquery : proof.proofQuery = rangeQuery minimumBytes maximumBytes)
    (hcovers : CoversProof budget proof (rangeIndexes tree.policy minimumKey maximumKey) tree) :
    (verifyProofWithBudget proof tree.policy budget).proofIsValid = true := by
  have hdecoded : decodeRangeQuery proof tree.policy = .ok (minimumKey, maximumKey) :=
    decodeRangeQuery_eq_ok.mpr ⟨hkind, horder, minimumBytes, maximumBytes,
      ⟨hlaw.decodeKey_encode _ _ hminimum, hminimum⟩,
      ⟨hlaw.decodeKey_encode _ _ hmaximum, hmaximum⟩, hlengths.1, hlengths.2, hquery⟩
  exact hproof.verified htree hlaw hcollision
    (rangeIndexes_expands tree.policy minimumKey maximumKey) hcovers
    fun maps hmaps => verifyDecodedProof_rangeExpansion htree hlaw hcollision hproof hkind
      hdecoded hcovers.depth_le hmaps

end Verification

section Covered

variable {tree : MerkleSearchTree k v} {expand : MerkleNode k v → List Nat}
  (hexpands : ExpandsIntervals expand) (htree : CanonicalTree tree)
include hexpands htree

theorem expansionDepth_le_height (node : MerkleNode k v) (hnode : node ∈ treePreorder tree) :
    expansionDepth expand (some node) ≤ node.nodeHeight := by
  induction node using childInduction with
  | step node ih =>
      rw [expansionDepth, (htree.orderedNode node hnode).block.height_eq]
      refine Nat.add_le_add_left (foldl_max_le ?_ (zero_le _)) 1
      intro depth hdepth
      obtain ⟨index, hindex, rfl⟩ := mem_map.mp hdepth
      obtain ⟨child, hchild⟩ := hexpands.present node index hindex
      have hmem := child_eq_some hchild
      rw [hchild]
      exact (ih child hmem (treePreorder_child hnode hmem)).trans
        (le_foldl_max_of_mem 0 (.inr (mem_map_of_mem (mem_presentChildren.mpr hmem))))

/-- A budget for the query and the whole tree covers every proof about the tree. -/
theorem ProvesExpansion.covered {proof : MerkleProof} (hproof : ProvesExpansion proof expand tree)
    (hquery : proof.proofQuery.length ≤ budget.maxProofQueryByteCount)
    (hnodes : CoversNodes budget proof.proofQuery.length (treePreorder tree))
    (hheight : tree.height ≤ budget.maxDepth) : CoversProof budget proof expand tree := by
  have hsublist := expansion_root_sublist hexpands tree
  refine ⟨hquery, ?_, ?_, ?_, ?_, ?_,
    fun node hnode => hnodes.childReferences node (hsublist.subset hnode)⟩
  · rw [hproof.steps_eq, length_map]
    exact hsublist.length_le.trans hnodes.blockCount
  · rw [hproof.total_eq]
    exact (Nat.add_le_add_left ((hsublist.map byteCount).sum_le_sum (by simp)) _).trans
      hnodes.totalBytes
  · intro step hstep
    rw [hproof.steps_eq] at hstep
    obtain ⟨node, hnode, rfl⟩ := mem_map.mp hstep
    exact hnodes.blockBytes node (hsublist.subset hnode)
  · refine le_trans ?_ hheight
    cases hroot : tree.treeRoot with
    | none => rw [expansionDepth]; exact zero_le _
    | some root =>
        rw [MerkleSearchTree.height, hroot]
        exact expansionDepth_le_height hexpands htree root (root_mem_treePreorder hroot)
  · exact ((hsublist.map entryCount).sum_le_sum (by simp)).trans hnodes.entryCount

end Covered

theorem lookupEntry_bytes : lookupEntry none bytesTree = some (lowerEntry none) := by
  have hlaw := bytesPolicy_lawful.toLawfulPolicy
  rw [(bytesTree_reachable.canonical hlaw).1.lookupEntry_eq hlaw, bytesTree, entries_over]
  rfl

theorem createProof_bytes : ∃ proof, createProof none bytesTree = some (.ok proof) ∧
    ProvesExpansion proof (pointIndexes bytesPolicy none) bytesTree ∧
    proof.proofKind = .MembershipProof ∧
    CoversProof defaultMerkleVerificationBudget proof (pointIndexes bytesPolicy none) bytesTree ∧
    (verifyProofWithBudget proof bytesPolicy
      defaultMerkleVerificationBudget).proofIsValid = true := by
  obtain ⟨hcanonical, -⟩ := bytesTree_reachable.canonical bytesPolicy_lawful.toLawfulPolicy
  have hkey : bytesPolicy.merkleKeyCodec.encodeMerkleValue none = .ok [0] := rfl
  obtain ⟨result, hcreate, hok, hspec⟩ := createProof_eq_ok hcanonical
    bytesPolicy_lawful bytesTree_collisionFree hkey
  obtain ⟨proof, rfl⟩ := hok (by decide)
  obtain ⟨hfits, hproof, hkind, hquery⟩ := hspec proof rfl
  have hlength : proof.proofQuery.length ≤ 16 * 1024 * 1024 := by
    rw [hquery, lookupEntry_bytes]
    decide
  have hcovers : CoversProof defaultMerkleVerificationBudget proof (pointIndexes bytesPolicy none)
      bytesTree :=
    hproof.covered (pointIndexes_expands bytesPolicy none) hcanonical hlength
      (bytesTree_coversNodes hlength) (by decide)
  refine ⟨proof, hcreate, hproof, ?_, hcovers, ?_⟩
  · rw [hkind, lookupEntry_bytes]
    rfl
  · exact hproof.point_verified hcanonical bytesPolicy_lawful bytesTree_collisionFree
      hkey hfits hkind hquery hcovers

theorem createRangeProof_bytes : ∃ proof,
    createRangeProof none none bytesTree = some (.ok proof) ∧
    ProvesExpansion proof (rangeIndexes bytesPolicy none none) bytesTree ∧
    proof.proofKind = .RangeProof ∧
    (verifyProofWithBudget proof bytesPolicy
      defaultMerkleVerificationBudget).proofIsValid = true := by
  obtain ⟨hcanonical, -⟩ := bytesTree_reachable.canonical bytesPolicy_lawful.toLawfulPolicy
  have hkey : bytesPolicy.merkleKeyCodec.encodeMerkleValue none = .ok [0] := rfl
  have horder : bytesPolicy.compareMerkleKeys none none ≠ .gt := by decide
  obtain ⟨result, hcreate, hok, hspec⟩ := createRangeProof_eq_ok hcanonical
    bytesPolicy_lawful bytesTree_collisionFree hkey hkey horder
  obtain ⟨proof, rfl⟩ := hok (by decide) (by decide)
  obtain ⟨hlengths, hproof, hkind, hquery⟩ := hspec proof rfl
  have hlength : proof.proofQuery.length ≤ 16 * 1024 * 1024 := by
    rw [hquery]
    decide
  refine ⟨proof, hcreate, hproof, hkind, ?_⟩
  exact hproof.range_verified hcanonical bytesPolicy_lawful bytesTree_collisionFree
    hkey hkey horder hlengths hkind hquery
    (hproof.covered (rangeIndexes_expands bytesPolicy none none) hcanonical hlength
      (bytesTree_coversNodes hlength) (by decide))

/--
Proof completeness: the prover answers every point and every non-reversed range,
a created proof is of the kind that membership demands, and the verifier accepts
it under every budget that covers it.
-/
theorem createProof_complete (hlaw : LawfulWirePolicy policy)
    {tree : MerkleSearchTree k v} (hreachable : Reachable policy tree)
    (hcollision : CollisionFree (hashedBytes tree)) :
    (∀ key, ∃ result, createProof key tree = some result ∧
      ∀ proof, result = .ok proof →
        (proof.proofKind = if member key tree then .MembershipProof
          else .NonMembershipProof) ∧
        ∀ budget, CoversProof budget proof (pointIndexes policy key) tree →
          (verifyProofWithBudget proof policy budget).proofIsValid = true) ∧
    ∀ minimumKey maximumKey,
      policy.compareMerkleKeys minimumKey maximumKey ≠ .gt →
      ∃ result, createRangeProof minimumKey maximumKey tree = some result ∧
        ∀ proof, result = .ok proof → proof.proofKind = .RangeProof ∧
          ∀ budget, CoversProof budget proof
            (rangeIndexes policy minimumKey maximumKey) tree →
              (verifyProofWithBudget proof policy budget).proofIsValid = true := by
  obtain ⟨hcanonical, rfl⟩ := hreachable.canonical hlaw.toLawfulPolicy
  constructor
  · intro key
    obtain ⟨keyBytes, hkey⟩ := hlaw.encodeKey_total key
    obtain ⟨result, hcreate, -, hspec⟩ := createProof_eq_ok hcanonical hlaw hcollision hkey
    refine ⟨result, hcreate, fun proof hresult => ?_⟩
    obtain ⟨hfits, hproof, hkind, hquery⟩ := hspec proof hresult
    exact ⟨hkind, fun budget hcovers => hproof.point_verified hcanonical hlaw hcollision
      hkey hfits hkind hquery hcovers⟩
  · intro minimumKey maximumKey horder
    obtain ⟨minimumBytes, hminimum⟩ := hlaw.encodeKey_total minimumKey
    obtain ⟨maximumBytes, hmaximum⟩ := hlaw.encodeKey_total maximumKey
    obtain ⟨result, hcreate, -, hspec⟩ :=
      createRangeProof_eq_ok hcanonical hlaw hcollision hminimum hmaximum horder
    refine ⟨result, hcreate, fun proof hresult => ?_⟩
    obtain ⟨hlengths, hproof, hkind, hquery⟩ := hspec proof hresult
    exact ⟨hkind, fun budget hcovers => hproof.range_verified hcanonical hlaw hcollision
      hminimum hmaximum horder hlengths hkind hquery hcovers⟩

theorem createProof_complete_bytes : ∃ proof,
    createProof none bytesTree = some (.ok proof) ∧
      proof.proofKind = .MembershipProof ∧
      (verifyProofWithBudget proof bytesPolicy
        defaultMerkleVerificationBudget).proofIsValid = true := by
  obtain ⟨proof, hcreate, -, hkind, hcovers, -⟩ := createProof_bytes
  obtain ⟨hpoint, -⟩ := createProof_complete bytesPolicy_lawful bytesTree_reachable
    bytesTree_collisionFree
  obtain ⟨result, hresult, hspec⟩ := hpoint none
  rw [hcreate] at hresult
  cases hresult
  exact ⟨proof, hcreate, hkind, (hspec proof rfl).2 _ hcovers⟩

end Durable7.Hamt
