import Durable7.Hamt.MerklePersistence.Importing

/-!
# Iterative synchronization

A plan asks for the blocks where the target leaves what the receiver holds.  One
round fetches them, so the receiver comes to hold one more level of the target
at least, whatever it held before.
-/

namespace Durable7.Hamt

open Foundation List MerkleNode MerkleBlockView Nat

variable {k v : Type}

/-! ## The frontier of a receiver -/

def heldIndexes (receiver : MerkleBlockStore) (node : MerkleNode k v) : List Nat :=
  (List.range node.nodeChildren.length).filter fun index =>
    blockStoreContains node.nodeDigest receiver && (node.child index).isSome

/-- The blocks that a plan examines below an interval. -/
def examinedBelow (receiver : MerkleBlockStore) : Option (MerkleNode k v) → List (MerkleNode k v) :=
  expansion (heldIndexes receiver)

def missingFrom (receiver : MerkleBlockStore) (node : MerkleNode k v) : Bool :=
  !blockStoreContains node.nodeDigest receiver

/-- The blocks that a plan requests below an interval. -/
def requestedBelow (receiver : MerkleBlockStore) (interval : Option (MerkleNode k v)) :
    List (MerkleNode k v) :=
  (examinedBelow receiver interval).filter (missingFrom receiver)

theorem heldIndexes_expands (receiver : MerkleBlockStore) :
    ExpandsIntervals (heldIndexes (k := k) (v := v) receiver) where
  sublist _ := filter_sublist
  present node index hindex := by
    have hpresent := (mem_filter.mp hindex).2
    rw [Bool.and_eq_true] at hpresent
    exact Option.isSome_iff_exists.mp hpresent.2

section Frontier

variable {receiver : MerkleBlockStore} {node : MerkleNode k v}

@[simp] theorem examinedBelow_none :
    examinedBelow (k := k) (v := v) receiver none = [] := expansion_none _

theorem examinedBelow_held (h : blockStoreContains node.nodeDigest receiver = true) :
    examinedBelow receiver (some node) =
      node :: node.nodeChildren.flatMap (examinedBelow receiver) := by
  have hskipped : ∀ index ∈ List.range node.nodeChildren.length,
      (blockStoreContains node.nodeDigest receiver && (node.child index).isSome) = false →
      examinedBelow receiver (node.child index) = [] := by
    intro index _ hkeep
    rw [h, Bool.true_and, Option.isSome_eq_false_iff, Option.isNone_iff_eq_none] at hkeep
    rw [hkeep, examinedBelow_none]
  rw [← flatMap_nodeChildren, ← flatMap_filter_of_skipped hskipped]
  exact expansion_some _ node

theorem examinedBelow_missing (h : blockStoreContains node.nodeDigest receiver = false) :
    examinedBelow receiver (some node) = [node] := by
  rw [examinedBelow, expansion_some, heldIndexes]
  simp [h]

theorem requestedBelow_held (h : blockStoreContains node.nodeDigest receiver = true) :
    requestedBelow receiver (some node) = node.nodeChildren.flatMap (requestedBelow receiver) := by
  have hskip : missingFrom receiver node = false := by simp [missingFrom, h]
  rw [requestedBelow, examinedBelow_held h, filter_cons, hskip, filter_flatMap]
  rfl

theorem requestedBelow_missing (h : blockStoreContains node.nodeDigest receiver = false) :
    requestedBelow receiver (some node) = [node] := by
  rw [requestedBelow, examinedBelow_missing h, filter_cons]
  simp [missingFrom, h]

variable (receiver) in
theorem examinedBelow_sublist (tree : MerkleSearchTree k v) :
    (examinedBelow receiver tree.treeRoot).Sublist (treePreorder tree) :=
  expansion_root_sublist (heldIndexes_expands receiver) tree

variable (receiver) in
theorem requestedBelow_sublist (tree : MerkleSearchTree k v) :
    (requestedBelow receiver tree.treeRoot).Sublist (treePreorder tree) :=
  filter_sublist.trans (examinedBelow_sublist receiver tree)

theorem requestedBelow_not_contained {interval : Option (MerkleNode k v)} :
    ∀ node ∈ requestedBelow receiver interval,
      blockStoreContains node.nodeDigest receiver = false := by
  intro node hnode
  simpa [missingFrom] using (mem_filter.mp hnode).2

end Frontier

namespace PlanState

/-- The state of a walk after it has examined further blocks. -/
def examine (receiver : MerkleBlockStore) (nodes : List (MerkleNode k v))
    (state : PlanState) : PlanState where
  requested := ((nodes.filter (missingFrom receiver)).map nodeDigest).reverse ++ state.requested
  count := state.count + nodes.length
  bytes := state.bytes + (nodes.map byteCount).sum

theorem examine_append (receiver : MerkleBlockStore)
    (front back : List (MerkleNode k v)) (state : PlanState) :
    state.examine receiver (front ++ back) =
      (state.examine receiver front).examine receiver back := by
  simp [examine, add_assoc]

end PlanState

section Plan

variable {receiver : MerkleBlockStore} {tree : MerkleSearchTree k v}
  (htree : CanonicalTree tree) (hlaw : LawfulPolicy tree.policy)
  (hcollision : CollisionFree (hashedBytes tree))

include htree hlaw hcollision

variable {node : MerkleNode k v}

private theorem walkFrontier_cons {visits : Nat}
    (hnode : node ∈ treePreorder tree) (rest : List MerkleDigest) {state : PlanState}
    (hbytes : state.bytes + node.byteCount < 2 ^ 64) :
    walkFrontier tree.policy receiver (blockIndex tree blockViewBytes)
      (trustedDecoded tree) (visits + 1) (node.nodeDigest :: rest) state =
    walkFrontier tree.policy receiver (blockIndex tree blockViewBytes)
      (trustedDecoded tree) visits
      ((if blockStoreContains node.nodeDigest receiver then
        node.nodeChildren.map (childDigest tree.policy) else []) ++ rest)
      (state.examine receiver [node]) := by
  have hne := nodeDigest_ne_empty htree hcollision (fun _ h => h) hnode
  have hsize : node.blockView.blockViewBytes.length = node.byteCount := rfl
  rw [walkFrontier.eq_def]
  simp only
  rw [if_neg hne, lookup_blockIndex htree hlaw hcollision _ hnode,
    lookup_trustedDecoded htree hlaw hcollision hnode]
  simp only
  rw [checkedAddWord64, if_neg (by rw [hsize]; omega)]
  simp only
  cases hcontains : blockStoreContains node.nodeDigest receiver with
  | true => simp [PlanState.examine, missingFrom, hcontains, hsize, decoded]
  | false => simp [PlanState.examine, missingFrom, hcontains, hsize]

omit htree hlaw hcollision in
private theorem walkFrontier_intervals
    (hwalk : ∀ child, some child ∈ node.nodeChildren → ∀ visits rest (state : PlanState),
      state.bytes + ((examinedBelow receiver (some child)).map byteCount).sum < 2 ^ 64 →
      walkFrontier tree.policy receiver (blockIndex tree blockViewBytes)
        (trustedDecoded tree) (visits + (examinedBelow receiver (some child)).length)
        (child.nodeDigest :: rest) state =
      walkFrontier tree.policy receiver (blockIndex tree blockViewBytes)
        (trustedDecoded tree) visits rest
        (state.examine receiver (examinedBelow receiver (some child)))) (visits : Nat) :
    ∀ (intervals : List (Option (MerkleNode k v))) (rest : List MerkleDigest)
      (state : PlanState),
      (∀ interval ∈ intervals, interval ∈ node.nodeChildren) →
      state.bytes + ((intervals.flatMap (examinedBelow receiver)).map byteCount).sum < 2 ^ 64 →
      walkFrontier tree.policy receiver (blockIndex tree blockViewBytes)
        (trustedDecoded tree)
        (visits + (intervals.flatMap (examinedBelow receiver)).length)
        (intervals.map (childDigest tree.policy) ++ rest) state =
      walkFrontier tree.policy receiver (blockIndex tree blockViewBytes)
        (trustedDecoded tree) visits rest
        (state.examine receiver (intervals.flatMap (examinedBelow receiver))) := by
  intro intervals
  induction intervals with
  | nil =>
      intro rest state _ _
      rfl
  | cons interval intervals ih =>
      intro rest state hmem hbytes
      have hrest := fun other hother => hmem other (mem_cons_of_mem _ hother)
      cases interval with
      | none =>
          rw [flatMap_cons, examinedBelow_none, nil_append] at hbytes ⊢
          rw [map_cons, cons_append, walkFrontier.eq_def]
          simp only
          rw [if_pos (show childDigest tree.policy none = tree.policy.merkleEmptyDigest from rfl)]
          exact ih rest state hrest hbytes
      | some child =>
          rw [flatMap_cons, map_append, sum_append_nat] at hbytes
          rw [flatMap_cons, length_append, map_cons, cons_append,
            add_comm (examinedBelow receiver (some child)).length, ← add_assoc,
            childDigest, Option.elim_some, hwalk child (hmem _ (by simp)) _ _ _ (by omega),
            PlanState.examine_append]
          apply ih rest _ hrest
          simp only [PlanState.examine]
          omega

private theorem walkFrontier_node (hnode : node ∈ treePreorder tree) :
    ∀ (visits : Nat) (rest : List MerkleDigest) (state : PlanState),
      state.bytes + ((examinedBelow receiver (some node)).map byteCount).sum < 2 ^ 64 →
      walkFrontier tree.policy receiver (blockIndex tree blockViewBytes)
        (trustedDecoded tree) (visits + (examinedBelow receiver (some node)).length)
        (node.nodeDigest :: rest) state =
      walkFrontier tree.policy receiver (blockIndex tree blockViewBytes)
        (trustedDecoded tree) visits rest
        (state.examine receiver (examinedBelow receiver (some node))) := by
  induction node using childInduction with
  | step node ih =>
      intro visits rest state hbytes
      cases hcontains : blockStoreContains node.nodeDigest receiver with
      | false =>
          rw [examinedBelow_missing hcontains] at hbytes ⊢
          rw [map_singleton, sum_singleton] at hbytes
          rw [length_singleton, walkFrontier_cons htree hlaw hcollision hnode rest
            hbytes, hcontains]
          rfl
      | true =>
          rw [examinedBelow_held hcontains] at hbytes ⊢
          rw [map_cons, sum_cons] at hbytes
          rw [length_cons, ← add_assoc,
            walkFrontier_cons htree hlaw hcollision hnode rest (by omega), hcontains,
            if_pos rfl, walkFrontier_intervals
              (fun child hchild => ih child hchild (treePreorder_child hnode hchild))
              visits _ _ _ (fun _ h => h)
              (by
                simp only [PlanState.examine, map_singleton, sum_singleton]
                omega),
            ← PlanState.examine_append]
          rfl

theorem planSync_eq {localTree : MerkleSearchTree k v}
    (hcompatible : compatibleMerklePolicies localTree.policy tree.policy = true)
    (hne : localTree.rootDigest ≠ tree.rootDigest) (receiver : MerkleBlockStore) :
    ∃ plan, planSync localTree receiver tree = some (.ok plan) ∧
      plan.syncRequestedBlocks = (requestedBelow receiver tree.treeRoot).map nodeDigest := by
  have hsublist := examinedBelow_sublist receiver tree
  have hlength := hsublist.length_le
  have hbytes : ((examinedBelow receiver tree.treeRoot).map byteCount).sum < 2 ^ 64 :=
    lt_of_le_of_lt (htree.sum_byteCount_le hsublist.subperm) (by decide)
  have hwalk : walkFrontier tree.policy receiver
      (blockIndex tree blockViewBytes) (trustedDecoded tree)
      (treePreorder tree).length [tree.rootDigest] ⟨[], 0, 0⟩ =
      some (.ok (PlanState.examine receiver (examinedBelow receiver tree.treeRoot)
        ⟨[], 0, 0⟩)) := by
    cases hroot : tree.treeRoot with
    | none =>
        have hdigest := (rootDigest_eq_empty htree hcollision fun _ h => h).mpr hroot
        rw [walkFrontier.eq_def]
        simp only
        rw [if_pos hdigest, walkFrontier.eq_def, examinedBelow_none]
        rfl
    | some root =>
        have hmem := root_mem_treePreorder hroot
        have hdigest := rootDigest_some hroot
        rw [hroot] at hlength hbytes
        rw [← Nat.sub_add_cancel hlength, hdigest,
          walkFrontier_node htree hlaw hcollision hmem _ _ _ (by simpa using hbytes),
          walkFrontier.eq_def]
  refine ⟨makePlan localTree tree (PlanState.examine receiver
    (examinedBelow receiver tree.treeRoot) ⟨[], 0, 0⟩), ?_, ?_⟩
  · rw [planSync, if_neg (by simp [hcompatible]), if_neg hne, hwalk]
    rfl
  · simp [makePlan, PlanState.examine, requestedBelow]

theorem exportPackFor_total {nodes : List (MerkleNode k v)}
    (hsub : nodes.Sublist (treePreorder tree)) :
    ∃ pack, exportPackFor (nodes.map nodeDigest) tree = .ok pack ∧
      pack.packBlocks = nodes.map storedBlock := by
  have hnodup := (htree.digests_nodup hlaw hcollision).sublist (hsub.map nodeDigest)
  have hfold : ∀ (nodes : List (MerkleNode k v)) (seen : Finset MerkleDigest)
      (blocks : List MerkleBlock), (∀ node ∈ nodes, node ∈ treePreorder tree) →
      (nodes.map nodeDigest).Nodup →
      (∀ node ∈ nodes, node.nodeDigest ∉ seen) →
      ∃ final, (nodes.map nodeDigest).foldlM
        (selectRequested (blockIndex tree block)) (seen, blocks) =
          .ok (final, blocks ++ nodes.map storedBlock) := by
    intro nodes
    induction nodes with
    | nil => exact fun seen blocks _ _ _ => ⟨seen, by simp⟩
    | cons node nodes ih =>
        intro seen blocks hmem hnodup hfresh
        rw [map_cons, nodup_cons] at hnodup
        rw [map_cons, foldlM_cons, selectRequested,
          if_neg (hfresh node (by simp)),
          lookup_blockIndex htree hlaw hcollision _ (hmem node (by simp))]
        simp only [except_ok_bind]
        obtain ⟨final, hfinal⟩ := ih (Insert.insert node.nodeDigest seen)
          (blocks ++ [node.storedBlock])
          (fun other hother => hmem other (mem_cons_of_mem _ hother)) hnodup.2
          (fun other hother hseen => by
            rcases Finset.mem_insert.mp hseen with heq | hseen
            · exact hnodup.1 (heq ▸ mem_map_of_mem hother)
            · exact hfresh other (mem_cons_of_mem _ hother) hseen)
        refine ⟨final, ?_⟩
        rw [append_assoc] at hfinal
        exact hfinal
  obtain ⟨final, hfinal⟩ := hfold nodes ∅ [] (fun node hnode => hsub.subset hnode) hnodup (by simp)
  obtain ⟨pack, hpack⟩ := makeMerkleBlockPack_total
    (show (merkleAlgorithmId.isEmpty || merkleAlgorithmId.all isSpace) = false by decide +kernel)
    (show ((nodes.map storedBlock).map MerkleBlock.merkleBlockDigest).Nodup by
      rw [map_map]
      exact hnodup)
    (show blockByteSum (nodes.map storedBlock) < 2 ^ 64 by
      rw [blockByteSum, map_map]
      exact lt_of_le_of_lt (htree.sum_byteCount_le hsub.subperm) (by decide))
  have hpack' : makeMerkleBlockPack merkleAlgorithmId tree.policy.merkleDomainDigest
      tree.rootDigest (nodes.map storedBlock) = .ok pack := hpack
  refine ⟨pack, ?_, (makeMerkleBlockPack_spec hpack').2.2.2⟩
  rw [exportPackFor, hfinal, except_ok_bind]
  exact hpack'

end Plan

/-! ## Rounds -/

/-- A receiver plans, fetches what it asked for, and stores every block of it. -/
def syncRound (localTree target : MerkleSearchTree k v) (receiver : MerkleBlockStore) :
    Option MerkleBlockStore := do
  let plan ← (planSync localTree receiver target).bind Except.toOption
  let pack ← (exportPackFor plan.syncRequestedBlocks target).toOption
  let published ← (publishBlocks pack.packBlocks receiver).toOption
  some published.2

def syncRounds (localTree target : MerkleSearchTree k v) :
    Nat → MerkleBlockStore → Option MerkleBlockStore
  | 0, receiver => some receiver
  | rounds + 1, receiver =>
      (syncRounds localTree target rounds receiver).bind (syncRound localTree target)

/-- Under a digest of the tree the receiver holds the block of the tree, or none. -/
def HoldsCopies (tree : MerkleSearchTree k v) (receiver : MerkleBlockStore) : Prop :=
  ∀ node ∈ treePreorder tree, ∀ block,
    blockStoreLookup node.nodeDigest receiver = some block → block = node.storedBlock

/-- The receiver holds the first `depth` levels of blocks of an interval. -/
def HeldWithin (receiver : MerkleBlockStore) : Nat → Option (MerkleNode k v) → Prop
  | 0, _ => True
  | _ + 1, none => True
  | depth + 1, some node => blockStoreContains node.nodeDigest receiver = true ∧
      ∀ child ∈ node.nodeChildren, HeldWithin receiver depth child

section Levels

variable {receiver successor : MerkleBlockStore}

theorem HeldWithin.fetch (hkeep : ∀ digest, blockStoreContains digest receiver = true →
      blockStoreContains digest successor = true) :
    ∀ {depth : Nat} {interval : Option (MerkleNode k v)},
      HeldWithin receiver depth interval →
      (∀ node ∈ requestedBelow receiver interval,
        blockStoreContains node.nodeDigest successor = true) →
      HeldWithin successor (depth + 1) interval := by
  intro depth
  induction depth with
  | zero =>
      intro interval _ hfetched
      cases interval with
      | none => trivial
      | some node =>
          refine ⟨?_, fun _ _ => trivial⟩
          cases hcontains : blockStoreContains node.nodeDigest receiver with
          | true => exact hkeep _ hcontains
          | false =>
              rw [requestedBelow_missing hcontains] at hfetched
              exact hfetched node mem_cons_self
  | succ depth ih =>
      intro interval hheld hfetched
      cases interval with
      | none => trivial
      | some node =>
          obtain ⟨hcontains, hchildren⟩ := hheld
          rw [requestedBelow_held hcontains] at hfetched
          refine ⟨hkeep _ hcontains, fun child hchild =>
            ih (hchildren child hchild) fun other hother => ?_⟩
          exact hfetched other (mem_flatMap.mpr ⟨child, hchild, hother⟩)

theorem requestedBelow_of_heldWithin {policy : MerkleSearchTreePolicy k v} :
    ∀ {depth : Nat} {node : MerkleNode k v}, OrderedNode policy node →
      node.nodeHeight ≤ depth → HeldWithin receiver depth (some node) →
      requestedBelow receiver (some node) = [] := by
  intro depth
  induction depth with
  | zero =>
      intro node hordered hheight _
      have hpos := hordered.block.height_eq
      omega
  | succ depth ih =>
      intro node hordered hheight hheld
      obtain ⟨hcontains, hchildren⟩ := hheld
      rw [requestedBelow_held hcontains, flatMap_eq_nil_iff]
      intro interval hinterval
      cases interval with
      | none => simp [requestedBelow]
      | some child =>
          have hlt := hordered.block.child_height hinterval
          exact ih (hordered.child hinterval) (by omega) (hchildren _ hinterval)

theorem requestedBelow_of_height {tree : MerkleSearchTree k v} (htree : CanonicalTree tree)
    {rounds : Nat} (hheight : tree.height ≤ rounds)
    (hheld : HeldWithin receiver rounds tree.treeRoot) :
    requestedBelow receiver tree.treeRoot = [] := by
  cases hroot : tree.treeRoot with
  | none => simp [requestedBelow]
  | some root =>
      rw [MerkleSearchTree.height, hroot] at hheight
      exact requestedBelow_of_heldWithin (htree.orderedNode root (root_mem_treePreorder hroot))
        hheight (hroot ▸ hheld)

theorem contains_of_requestedBelow {node : MerkleNode k v}
    (h : requestedBelow receiver (some node) = []) :
    ∀ below ∈ nodePreorder node, blockStoreContains below.nodeDigest receiver = true := by
  induction node using childInduction with
  | step node ih =>
      cases hcontains : blockStoreContains node.nodeDigest receiver with
      | false =>
          rw [requestedBelow_missing hcontains] at h
          cases h
      | true =>
          rw [requestedBelow_held hcontains, flatMap_eq_nil_iff] at h
          intro below hbelow
          rcases mem_nodePreorder.mp hbelow with rfl | ⟨child, hchild, hbelow⟩
          · exact hcontains
          · exact ih child hchild (h _ hchild) below hbelow

theorem HoldsCopies.holdsTree {tree : MerkleSearchTree k v} (hcopies : HoldsCopies tree receiver)
    (hnone : requestedBelow receiver tree.treeRoot = []) : HoldsTree receiver tree := by
  intro node hnode
  have hcontains : blockStoreContains node.nodeDigest receiver = true := by
    cases hroot : tree.treeRoot with
    | none => simp [treePreorder, hroot] at hnode
    | some root =>
        rw [treePreorder, hroot] at hnode
        exact contains_of_requestedBelow (hroot ▸ hnone) node hnode
  obtain ⟨block, hblock⟩ := blockStoreContains_iff.mp hcontains
  rw [hblock, hcopies node hnode block hblock]

end Levels

section Rounds

variable {tree localTree : MerkleSearchTree k v} (htree : CanonicalTree tree)
  (hlaw : LawfulPolicy tree.policy) (hcollision : CollisionFree (hashedBytes tree))
  (hcompatible : compatibleMerklePolicies localTree.policy tree.policy = true)
  (hne : localTree.rootDigest ≠ tree.rootDigest)

include htree hlaw hcollision hcompatible hne

theorem syncRound_total {receiver : MerkleBlockStore} (hcopies : HoldsCopies tree receiver) :
    ∃ successor, syncRound localTree tree receiver = some successor ∧
      HoldsCopies tree successor ∧
      (∀ digest, blockStoreContains digest receiver = true →
        blockStoreContains digest successor = true) ∧
      ∀ node ∈ requestedBelow receiver tree.treeRoot,
        blockStoreContains node.nodeDigest successor = true := by
  have hsublist := requestedBelow_sublist receiver tree
  obtain ⟨plan, hplan, hrequested⟩ := planSync_eq htree hlaw hcollision hcompatible hne receiver
  obtain ⟨pack, hpack, hblocks⟩ := exportPackFor_total htree hlaw hcollision hsublist
  have hdistinct : (((requestedBelow receiver tree.treeRoot).map
      storedBlock).map MerkleBlock.merkleBlockDigest).Nodup := by
    rw [map_map]
    exact (htree.digests_nodup hlaw hcollision).sublist (hsublist.map _)
  obtain ⟨added, successor, hpublish⟩ := publishBlocks_total hdistinct (by
    intro block hblock existing hexisting
    obtain ⟨node, hnode, rfl⟩ := mem_map.mp hblock
    exact hcopies node (hsublist.subset hnode) existing hexisting)
  obtain ⟨hhere, hkeep, hback⟩ := publishBlocks_spec hpublish
  refine ⟨successor, ?_, fun node hnode block hblock => ?_, fun digest hdigest => ?_,
    fun node hnode => ?_⟩
  · simp only [syncRound, hplan, Option.bind_some, Except.toOption, Option.bind_eq_bind,
      hrequested, hpack, hblocks, hpublish]
  · rcases hback _ block hblock with hmem | hbefore
    · obtain ⟨other, hother, rfl⟩ := mem_map.mp hmem
      rw [inj_on_of_nodup_map (htree.digests_nodup hlaw hcollision)
        (hsublist.subset hother) hnode (blockStoreLookup_digest hblock)]
    · exact hcopies node hnode block hbefore
  · obtain ⟨block, hblock⟩ := blockStoreContains_iff.mp hdigest
    exact blockStoreContains_iff.mpr ⟨block, hkeep digest block hblock⟩
  · exact blockStoreContains_iff.mpr ⟨node.storedBlock, hhere _ (mem_map_of_mem hnode)⟩

theorem syncRounds_total {receiver : MerkleBlockStore} (hcopies : HoldsCopies tree receiver)
    (rounds : Nat) :
    ∃ successor, syncRounds localTree tree rounds receiver = some successor ∧
      HoldsCopies tree successor ∧ HeldWithin successor rounds tree.treeRoot := by
  induction rounds with
  | zero => exact ⟨receiver, rfl, hcopies, trivial⟩
  | succ rounds ih =>
      obtain ⟨middle, hmiddle, hmiddleCopies, hheld⟩ := ih
      obtain ⟨successor, hround, hcopies', hkeep, hfetched⟩ :=
        syncRound_total htree hlaw hcollision hcompatible hne hmiddleCopies
      refine ⟨successor, ?_, hcopies', hheld.fetch hkeep hfetched⟩
      rw [syncRounds, hmiddle, Option.bind_some, hround]

end Rounds

/--
Convergence: whatever part of the target the receiver holds, no round fails, no
round asks for a block that is held or twice for one, and once as many rounds as
the target is high have passed nothing is requested and everything is held.
-/
theorem syncRounds_converge {policy : MerkleSearchTreePolicy k v}
    (hlaw : LawfulPolicy policy) {target : MerkleSearchTree k v}
    (hreachable : Reachable policy target)
    (hcollision : CollisionFree (hashedBytes target)) (localTree : MerkleSearchTree k v)
    (hcompatible : compatibleMerklePolicies localTree.policy policy = true)
    (hne : localTree.rootDigest ≠ target.rootDigest) (receiver : MerkleBlockStore)
    (hcopies : HoldsCopies target receiver) (rounds : Nat) :
    ∃ successor plan, syncRounds localTree target rounds receiver = some successor ∧
      planSync localTree successor target = some (.ok plan) ∧
      plan.syncRequestedBlocks.Nodup ∧
      (∀ digest ∈ plan.syncRequestedBlocks, blockStoreContains digest successor = false) ∧
      (plan.syncRequestedBlocks = [] → HoldsTree successor target) ∧
      (target.height ≤ rounds → plan.syncRequestedBlocks = []) := by
  obtain ⟨htree, rfl⟩ := hreachable.canonical hlaw
  obtain ⟨successor, hrounds, hheldCopies, hheld⟩ :=
    syncRounds_total htree hlaw hcollision hcompatible hne hcopies rounds
  obtain ⟨plan, hplan, hrequested⟩ := planSync_eq htree hlaw hcollision hcompatible hne successor
  refine ⟨successor, plan, hrounds, hplan, ?_, ?_, fun hnone => ?_, fun hheight => ?_⟩
  · rw [hrequested]
    exact (htree.digests_nodup hlaw hcollision).sublist
      ((requestedBelow_sublist successor target).map _)
  · intro digest hdigest
    rw [hrequested] at hdigest
    obtain ⟨node, hnode, rfl⟩ := mem_map.mp hdigest
    exact requestedBelow_not_contained node hnode
  · rw [hrequested, map_eq_nil_iff] at hnone
    exact hheldCopies.holdsTree hnone
  · rw [hrequested, map_eq_nil_iff]
    exact requestedBelow_of_height htree hheight hheld

theorem syncRounds_converge_bytes : ∃ successor,
    syncRounds (emptyTree bytesPolicy) bytesTree 2 emptyBlockStore = some successor ∧
      HoldsTree successor bytesTree := by
  obtain ⟨successor, plan, hrounds, -, -, -, hholds, hnone⟩ :=
    syncRounds_converge bytesPolicy_lawful.toLawfulPolicy bytesTree_reachable
      bytesTree_collisionFree (emptyTree bytesPolicy) (by decide) rivalTree_digests.1.symm
      emptyBlockStore (fun node _ block hblock => by simp at hblock) 2
  exact ⟨successor, hrounds, hholds (hnone (by decide))⟩

/--
Replication: after as many rounds as the target is high, a receiver that held any
part of it loads the target from its own store, with the same blocks and entries.
-/
theorem syncRounds_load {policy : MerkleSearchTreePolicy k v} (hlaw : LawfulWirePolicy policy)
    {target : MerkleSearchTree k v} (hreachable : Reachable policy target)
    (hcollision : CollisionFree (hashedBytes target)) (localTree : MerkleSearchTree k v)
    (hcompatible : compatibleMerklePolicies localTree.policy policy = true)
    (hne : localTree.rootDigest ≠ target.rootDigest) {receiver : MerkleBlockStore}
    (hcopies : HoldsCopies target receiver) {rounds : Nat} (hheight : target.height ≤ rounds)
    {budget : MerkleVerificationBudget} (hcovers : CoversTree budget target) :
    ∃ successor loaded, syncRounds localTree target rounds receiver = some successor ∧
      loadTreeWithBudget target.rootDigest policy successor budget = .ok loaded ∧
      blocksPreorder loaded = blocksPreorder target ∧ loaded.entries = target.entries := by
  obtain ⟨htree, rfl⟩ := hreachable.canonical hlaw.toLawfulPolicy
  obtain ⟨successor, hrounds, hheldCopies, hheld⟩ := syncRounds_total htree
    hlaw.toLawfulPolicy hcollision hcompatible hne hcopies rounds
  have hholds := hheldCopies.holdsTree (requestedBelow_of_height htree hheight hheld)
  obtain ⟨loaded, hload, hsame⟩ := loadTreeWithBudget_total htree hlaw hcollision hcovers hholds
  exact ⟨successor, loaded, hrounds, hload, hsame.blocks_eq, hsame.entries_eq⟩

theorem syncRounds_load_bytes : ∃ successor loaded,
    syncRounds (emptyTree bytesPolicy) bytesTree 2 emptyBlockStore = some successor ∧
      loadTreeWithBudget bytesTree.rootDigest bytesPolicy successor
        defaultMerkleVerificationBudget = .ok loaded ∧
      blocksPreorder loaded = blocksPreorder bytesTree ∧ loaded.entries = bytesTree.entries :=
  syncRounds_load bytesPolicy_lawful bytesTree_reachable bytesTree_collisionFree
    (emptyTree bytesPolicy) (by decide) rivalTree_digests.1.symm
    (fun node _ block hblock => by simp at hblock) (by decide) bytesTree_covered

end Durable7.Hamt
