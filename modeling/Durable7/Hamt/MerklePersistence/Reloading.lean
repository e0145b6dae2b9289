import Durable7.Hamt.MerkleSearchTree.Digests
import Durable7.Hamt.MerklePersistence.Loading

/-!
# Loading what was saved

Under a budget that covers its blocks, the closure of a tree that a store holds
is loaded without a failure, and rebuilding it gives the same blocks and the
same entries.
-/

namespace Durable7.Hamt

open Foundation List MerkleNode MerkleSearchTree
open MerkleEntry hiding decoded

variable {k v : Type} {budget : MerkleVerificationBudget} {policy : MerkleSearchTreePolicy k v}

namespace MerkleNode

def loaded (node : MerkleNode k v) : LoadedNode k v where
  loadedLevel := node.nodeLevel
  loadedCount := node.nodeCount
  loadedMinimum := node.nodeMinimumKey
  loadedMaximum := node.nodeMaximumKey
  loadedEntries := (enumerateNode node).map pair

end MerkleNode

def loadedIntervals (intervals : List (Option (MerkleNode k v))) : List (Option (LoadedNode k v)) :=
  intervals.map (Option.map loaded)

theorem interleaveLoaded_eq {entries : List (MerkleEntry k v)}
    {intervals : List (Option (MerkleNode k v))} (h : intervals.length = entries.length + 1) :
    interleaveLoaded (entries.map MerkleEntry.decoded) (loadedIntervals intervals) =
      (interleave entries (intervals.map enumerateChild)).map pair := by
  have helim : ∀ interval : Option (MerkleNode k v),
      (interval.map loaded).elim [] LoadedNode.loadedEntries =
        (enumerateChild interval).map pair := by
    intro interval
    cases interval <;> rfl
  unfold interleaveLoaded loadedIntervals
  induction entries generalizing intervals with
  | nil =>
      obtain ⟨interval, rfl⟩ := length_eq_one_iff.mp h
      simpa using helim interval
  | cons entry entries ih =>
      obtain ⟨interval, intervals, rfl⟩ := exists_cons_of_length_eq_add_one h
      have hlength : intervals.length = entries.length + 1 := by simpa using h
      have hrest := ih hlength
      obtain ⟨next, others, rfl⟩ := exists_cons_of_length_eq_add_one hlength
      simp only [map_cons] at hrest
      simp only [map_cons, interleave_cons, map_append, ← hrest, ← helim interval, zip_cons_cons,
        flatMap_cons, List.getLast?_cons_cons, append_assoc, cons_append]
      rfl

theorem sum_loadedCount (intervals : List (Option (MerkleNode k v))) :
    (((loadedIntervals intervals).filterMap id).map LoadedNode.loadedCount).sum =
      ((intervals.filterMap id).map nodeCount).sum := by
  induction intervals with
  | nil => rfl
  | cons interval intervals ih =>
      cases interval with
      | none => exact ih
      | some node =>
          simp only [loadedIntervals, map_cons, Option.map_some,
            filterMap_cons, id, sum_cons] at ih ⊢
          rw [ih]
          rfl

theorem OrderedNode.validateChildren (hlaw : LawfulPolicy policy)
    {node : MerkleNode k v} (h : OrderedNode policy node) :
    validateChildren (node.decoded policy) (loadedIntervals node.nodeChildren) policy = .ok () := by
  have := hlaw.compare_total
  rw [Hamt.validateChildren, forM_eq_ok]
  rintro ⟨interval, index⟩ hinterval
  rw [mem_zipIdx_iff_getElem?] at hinterval
  simp only [loadedIntervals, List.getElem?_map, Option.map_eq_some_iff] at hinterval
  obtain ⟨original, horiginal, rfl⟩ := hinterval
  cases original with
  | none => rfl
  | some child =>
      have hchild : node.child index = some child := by
        rw [MerkleNode.child, horiginal]
        rfl
      obtain ⟨hlt, -⟩ := List.getElem?_eq_some_iff.mp horiginal
      have hposition : index ≤ node.nodeEntries.length := by
        have harity := h.block.arity
        omega
      have hmem := child_eq_some hchild
      have hcanonical := h.canonical.children child hmem
      obtain ⟨first, rest, hfirst, hminimum⟩ := hcanonical.minimum_eq
      obtain ⟨front, last, hlast, hmaximum⟩ := hcanonical.maximum_eq
      obtain ⟨hlower, hupper⟩ := h.canonical.interval_order h.ordered.sorted hposition
      rw [hchild, enumerateChild_some] at hlower hupper
      have hlevel : ¬ child.nodeLevel ≥ node.nodeLevel :=
        UInt8.not_le.mpr (h.block.child_level child hmem)
      refine bind_eq_ok.mpr ⟨⟨⟩, rejectIf_eq_ok.mpr hlevel, bind_eq_ok.mpr
        ⟨⟨⟩, rejectIf_eq_ok.mpr ?_, rejectIf_eq_ok.mpr ?_⟩⟩
      · rintro ⟨hpos, hcrossed⟩
        rw [decoded, List.getElem?_map] at hcrossed
        cases hentry : node.nodeEntries[index - 1]? with
        | none => simp [hentry] at hcrossed
        | some lower =>
            have hlt := hlower lower hentry (Nat.pos_of_ne_zero hpos) first
              (by simp [hfirst])
            rw [← hminimum] at hlt
            rw [hentry] at hcrossed
            simp [MerkleEntry.decoded, loaded, Std.OrientedCmp.gt_of_lt hlt] at hcrossed
      · rw [decoded, List.getElem?_map]
        cases hentry : node.nodeEntries[index]? with
        | none => simp
        | some upper =>
            have hlt := hupper upper hentry last (by simp [hlast])
            simp [MerkleEntry.decoded, loaded, hmaximum, hlt]

theorem OrderedNode.assembleNode (hlaw : LawfulPolicy policy)
    {node : MerkleNode k v} (h : OrderedNode policy node) (digest : MerkleDigest) :
    assembleNode digest (node.decoded policy) (loadedIntervals node.nodeChildren)
      policy = .ok node.loaded := by
  obtain ⟨first, rest, hfirst, hminimum⟩ := h.canonical.minimum_eq
  obtain ⟨front, last, hlast, hmaximum⟩ := h.canonical.maximum_eq
  have hcount := h.block.count_eq
  have hentries : interleaveLoaded (node.decoded policy).decodedEntries
      (loadedIntervals node.nodeChildren) = (enumerateNode node).map MerkleEntry.pair := by
    rw [enumerateNode_eq]
    exact interleaveLoaded_eq h.block.arity
  have hsum : (node.decoded policy).decodedEntries.length +
      (((loadedIntervals node.nodeChildren).filterMap id).map
        LoadedNode.loadedCount).sum = node.nodeCount := by
    rw [sum_loadedCount, decoded, length_map, hcount, presentChildren]
  rw [Hamt.assembleNode, h.validateChildren hlaw, except_ok_bind]
  simp only
  rw [hsum, rejectIf_neg (by simp [decoded]), except_ok_bind, hentries]
  rw [hfirst] at hlast
  have hfinal : (rest.map MerkleEntry.pair).foldl (fun _ entry => entry)
      first.pair = last.pair := by
    rcases eq_nil_or_concat rest with rfl | ⟨middle, final, rfl⟩
    · have hsingle : [] ++ [first] = front ++ [last] := hlast
      obtain ⟨rfl, heq⟩ := append_inj' hsingle rfl
      cases heq
      rfl
    · rw [concat_eq_append, ← cons_append] at hlast
      obtain ⟨-, heq⟩ := append_inj' hlast rfl
      cases heq
      simp
  simp only [hfirst, map_cons, hfinal, loaded, hminimum, hmaximum]
  rfl

/-! ## Loading a stored tree -/

theorem foldl_max_le {bound : Nat} {values : List Nat} (h : ∀ value ∈ values, value ≤ bound)
    {start : Nat} (hstart : start ≤ bound) : values.foldl max start ≤ bound := by
  induction values generalizing start with
  | nil => exact hstart
  | cons value values ih =>
      exact ih (fun other hother => h other (mem_cons_of_mem _ hother))
        (Nat.max_le.mpr ⟨hstart, h value mem_cons_self⟩)

theorem le_foldl_max_of_mem {value : Nat} {values : List Nat} (start : Nat)
    (h : value ≤ start ∨ value ∈ values) : value ≤ values.foldl max start := by
  induction values generalizing start with
  | nil => simpa using h
  | cons first values ih =>
      rw [foldl_cons]
      apply ih
      rcases h with hstart | hmem
      · exact .inl (hstart.trans (Nat.le_max_left _ _))
      · rcases mem_cons.mp hmem with rfl | hmem
        · exact .inl (Nat.le_max_right _ _)
        · exact .inr hmem

theorem BlockInvariant.child_height {node child : MerkleNode k v}
    (h : BlockInvariant policy node) (hchild : some child ∈ node.nodeChildren) :
    child.nodeHeight < node.nodeHeight := by
  have hle : child.nodeHeight ≤ (node.presentChildren.map nodeHeight).foldl max 0 :=
    le_foldl_max_of_mem 0 (.inr (mem_map_of_mem (mem_presentChildren.mpr hchild)))
  rw [h.height_eq]
  omega

/-- What is cached for a block of the tree is the summary of that block. -/
def CacheAgrees (tree : MerkleSearchTree k v) (cache : DigestMap (LoadedNode k v)) : Prop :=
  ∀ node ∈ treePreorder tree, ∀ loaded,
    cache.lookup node.nodeDigest = some loaded → loaded = node.loaded

/-- The active blocks of the tree all lie above the node. -/
def ActiveAbove (tree : MerkleSearchTree k v) (node : MerkleNode k v)
    (active : Finset MerkleDigest) : Prop :=
  ∀ ancestor ∈ treePreorder tree, ancestor.nodeDigest ∈ active → node.nodeLevel < ancestor.nodeLevel

section Stored

variable {tree : MerkleSearchTree k v} {store : MerkleBlockStore} {base : Nat}
  (htree : CanonicalTree tree) (hlaw : LawfulWirePolicy tree.policy)
  (hcollision : CollisionFree (hashedBytes tree))
  (hcovers : CoversNodes budget base (treePreorder tree)) (hstore : HoldsTree store tree)

include htree hlaw hcollision

theorem eq_of_nodeDigest_eq {node other : MerkleNode k v}
    (hnode : node ∈ treePreorder tree) (hother : other ∈ treePreorder tree)
    (h : node.nodeDigest = other.nodeDigest) : node = other :=
  inj_on_of_nodup_map (htree.digests_nodup hlaw.toLawfulPolicy hcollision) hnode hother h

include hcovers hstore

/-- Loading one node of the tree succeeds. -/
private def NodeLoads (tree : MerkleSearchTree k v) (store : MerkleBlockStore)
    (budget : MerkleVerificationBudget) (base : Nat) (node : MerkleNode k v) : Prop :=
  ∀ (depth : Nat) (cache : DigestMap (LoadedNode k v))
    (active : Finset MerkleDigest) (context : VerificationContext budget),
    0 < depth → depth + node.nodeHeight ≤ budget.maxDepth + 1 →
    CacheAgrees tree cache → ActiveAbove tree node active →
    ChargedNodes (treePreorder tree) base context →
    ∃ cache' context', loadNode node.nodeDigest depth tree.policy store cache active
        context = .ok (node.loaded, cache', context') ∧
      CacheAgrees tree cache' ∧ ChargedNodes (treePreorder tree) base context'

omit hlaw hcovers hstore in
private theorem loadChildren_total {node : MerkleNode k v}
    (hnode : node ∈ treePreorder tree) {depth : Nat} (hpos : 0 < depth)
    {active : Finset MerkleDigest} :
    ∀ (intervals : List (Option (MerkleNode k v)))
      (cache : DigestMap (LoadedNode k v)) (context : VerificationContext budget),
      (∀ interval ∈ intervals, interval ∈ node.nodeChildren) →
      (∀ child, some child ∈ intervals → NodeLoads tree store budget base child ∧
        depth + child.nodeHeight ≤ budget.maxDepth + 1 ∧
        ActiveAbove tree child active) →
      CacheAgrees tree cache → ChargedNodes (treePreorder tree) base context →
      ∃ cache' context', loadChildren (intervals.map (childDigest tree.policy)) depth
          tree.policy store cache active context =
            .ok (loadedIntervals intervals, cache', context') ∧
        CacheAgrees tree cache' ∧
        ChargedNodes (treePreorder tree) base context' := by
  intro intervals
  induction intervals with
  | nil =>
      intro cache context _ _ hcache hcharged
      refine ⟨cache, context, ?_, hcache, hcharged⟩
      rw [map_nil, loadChildren]
      rfl
  | cons interval intervals ih =>
      intro cache context hmem hloads hcache hcharged
      have hempty := childDigest_eq_empty htree hcollision (fun _ h => h) hnode
        (hmem interval (by simp))
      have hrestMem : ∀ other ∈ intervals, other ∈ node.nodeChildren :=
        fun other hother => hmem other (by simp [hother])
      have hrestLoads := fun child (hchild : some child ∈ intervals) =>
        hloads child (by simp [hchild])
      rw [map_cons, loadChildren]
      cases interval with
      | none =>
          obtain ⟨cache', context', hrest, hcache', hcharged'⟩ :=
            ih cache context hrestMem hrestLoads hcache hcharged
          refine ⟨cache', context', ?_, hcache', hcharged'⟩
          rw [if_pos (hempty.mpr rfl), hrest, except_ok_bind]
          rfl
      | some child =>
          obtain ⟨hchild, hheight, hactive⟩ := hloads child (by simp)
          obtain ⟨nextCache, nextContext, hload, hnextCache, hnextCharged⟩ :=
            hchild depth cache active context hpos hheight hcache hactive hcharged
          obtain ⟨cache', context', hrest, hcache', hcharged'⟩ :=
            ih nextCache nextContext hrestMem hrestLoads hnextCache hnextCharged
          refine ⟨cache', context', ?_, hcache', hcharged'⟩
          rw [if_neg (by rw [hempty]; simp)]
          simp only [childDigest, Option.elim_some] at hrest ⊢
          rw [hload, except_ok_bind]
          simp only
          rw [hrest, except_ok_bind]
          rfl

theorem loadNode_total {node : MerkleNode k v} (hnode : node ∈ treePreorder tree) :
    NodeLoads tree store budget base node := by
  induction node using childInduction with
  | step node ih =>
      intro depth cache active context hpos hheight hcache hactive hcharged
      have hordered := htree.orderedNode node hnode
      have hnodup := htree.digests_nodup hlaw.toLawfulPolicy hcollision
      have hnodeHeight := hordered.block.height_eq
      have hdepth : depth ≤ budget.maxDepth := by omega
      have hcheck : checkDepth depth (some node.nodeDigest) budget = .ok () :=
        checkDepth_eq_ok.mpr ⟨hpos, hdepth⟩
      rw [loadNode]
      split
      · rename_i problem hfailed
        rw [hcheck] at hfailed
        cases hfailed
      split
      · rename_i loaded hfound
        obtain rfl := hcache node hnode loaded hfound
        exact ⟨cache, context, rfl, hcache, hcharged⟩
      rw [if_neg (fun hmem => UInt8.lt_irrefl _ (hactive node hnode hmem)), hstore node hnode]
      simp only
      obtain ⟨context1, hdecode, hcharged1, -⟩ := decodeBlock_node hlaw hordered
        hnodup hcovers hcharged hnode hpos hdepth
      rw [hdecode, except_ok_bind]
      simp only
      have hchildActive : ∀ child, some child ∈ node.nodeChildren →
          ActiveAbove tree child (Insert.insert node.nodeDigest active) := by
        intro child hchild ancestor hancestor hmem
        have hbelow := hordered.block.child_level child hchild
        rcases Finset.mem_insert.mp hmem with heq | hmem
        · rw [eq_of_nodeDigest_eq htree hlaw hcollision hancestor hnode heq]
          exact hbelow
        · exact UInt8.lt_trans hbelow (hactive ancestor hancestor hmem)
      obtain ⟨cache1, context2, hchildren, hcache1, hcharged2⟩ :=
        loadChildren_total htree hcollision hnode (Nat.succ_pos depth)
          node.nodeChildren cache context1 (fun _ h => h)
          (fun child hchild => ⟨ih child hchild (treePreorder_child hnode hchild),
            by
              have := hordered.block.child_height hchild
              omega,
            hchildActive child hchild⟩) hcache hcharged1
      refine ⟨cache1.insert node.nodeDigest node.loaded, context2, ?_, ?_, hcharged2⟩
      · rw [show (node.decoded tree.policy).decodedChildDigests =
          node.nodeChildren.map (childDigest tree.policy) from rfl, hchildren,
          except_ok_bind]
        simp only
        rw [hordered.assembleNode hlaw.toLawfulPolicy, except_ok_bind]
      · intro other hother loaded hlookup
        by_cases heq : other.nodeDigest = node.nodeDigest
        · obtain rfl := eq_of_nodeDigest_eq htree hlaw hcollision hother hnode heq
          rw [Finmap.lookup_insert] at hlookup
          exact (Option.some.inj hlookup).symm
        · rw [Finmap.lookup_insert_of_ne _ heq] at hlookup
          exact hcache1 other hother loaded hlookup

end Stored

theorem ValidEntry.eq_of_pair {entry other : MerkleEntry k v}
    (h : ValidEntry policy entry) (h' : ValidEntry policy other)
    (hpair : entry.pair = other.pair) : entry = other := by
  have hkey : entry.entryKey = other.entryKey := congrArg Prod.fst hpair
  have hvalue : entry.entryValue = other.entryValue := congrArg Prod.snd hpair
  have hkeyBytes : entry.entryKeyBytes = other.entryKeyBytes := by
    rw [h.encoded_eq.1, h'.encoded_eq.1, hkey]
  have hvalueBytes : entry.entryValueBytes = other.entryValueBytes := by
    rw [h.encoded_eq.2, h'.encoded_eq.2, hvalue]
  have hlevel : entry.entryLevel = other.entryLevel := by rw [h.level_eq, h'.level_eq, hkeyBytes]
  cases entry
  cases other
  simp only at hkey hvalue hkeyBytes hvalueBytes hlevel
  subst hkey hvalue hkeyBytes hvalueBytes hlevel
  rfl

theorem OrderedEntries.eq_of_pairs {entries entries' : List (MerkleEntry k v)}
    (h : OrderedEntries policy entries) (h' : OrderedEntries policy entries')
    (hpairs : entries.map pair = entries'.map pair) :
    entries = entries' := by
  induction entries generalizing entries' with
  | nil => exact (map_eq_nil_iff.mp hpairs.symm).symm
  | cons entry entries ih =>
      cases entries' with
      | nil => simp at hpairs
      | cons entry' entries' =>
          rw [map_cons, map_cons, List.cons.injEq] at hpairs
          rw [ih (h.sublist (sublist_cons_self _ _))
            (h'.sublist (sublist_cons_self _ _)) hpairs.2,
            (h.valid entry (by simp)).eq_of_pair (h'.valid entry' (by simp)) hpairs.1]

variable {tree : MerkleSearchTree k v}

theorem CanonicalTree.fromList_entries (h : CanonicalTree tree) (hlaw : LawfulPolicy tree.policy) :
    ∃ rebuilt, fromList (tree.entries.map pair) tree.policy =
        .ok rebuilt ∧ rebuilt.policy = tree.policy ∧ CanonicalTree rebuilt ∧
      rebuilt.entries = tree.entries := by
  obtain ⟨entries, hordered, hpairs, hbuild⟩ := fromList_eq_of_sorted hlaw
    (tree.entries.map pair) (by
      rw [StrictlySorted, pairwise_map]
      exact h.ordered.sorted)
  obtain rfl := hordered.eq_of_pairs h.ordered hpairs
  have houtcome := buildCanonical_ordered hordered
  cases hroot : buildCanonical tree.policy tree.entries with
  | error problem =>
      rw [hroot] at houtcome
      exact absurd h.root.fitsBlocks houtcome.2
  | ok root =>
      rw [hroot] at hbuild houtcome
      obtain ⟨hcanonical, htraversal⟩ := houtcome
      have hentries : entries ⟨root, tree.policy⟩ = tree.entries := htraversal
      exact ⟨⟨root, tree.policy⟩, hbuild, rfl, ⟨hcanonical, hentries ▸ hordered⟩, hentries⟩

theorem CanonicalTree.sameBlocks_of_entries {tree other : MerkleSearchTree k v}
    (h : CanonicalTree tree) (h' : CanonicalTree other)
    (hlaw : LawfulPolicy tree.policy) (hpolicy : other.policy = tree.policy)
    (hentries : other.entries = tree.entries) :
    blocksPreorder other = blocksPreorder tree ∧ other.rootDigest = tree.rootDigest := by
  refine h'.sameBlocks h hpolicy (hpolicy ▸ hlaw) ?_
  rw [contents, contents, hentries]

/-- The limits suffice for one verification of the whole tree. -/
structure CoversTree (budget : MerkleVerificationBudget) (tree : MerkleSearchTree k v) : Prop where
  nodes : CoversNodes budget 0 (treePreorder tree)
  height_le : tree.height ≤ budget.maxDepth

/-- A loaded tree with the blocks and the entries of the original. -/
structure SameTree (tree loaded : MerkleSearchTree k v) : Prop where
  policy_eq : loaded.policy = tree.policy
  blocks_eq : blocksPreorder loaded = blocksPreorder tree
  entries_eq : loaded.entries = tree.entries

variable {store : MerkleBlockStore}

theorem loadWithContext_total (htree : CanonicalTree tree) (hlaw : LawfulWirePolicy tree.policy)
    (hcollision : CollisionFree (hashedBytes tree)) (hcovers : CoversTree budget tree)
    (hstore : HoldsTree store tree) {context : VerificationContext budget}
    (hcharged : ChargedNodes (treePreorder tree) 0 context) :
    ∃ loaded next, loadWithContext tree.rootDigest tree.policy store context =
      .ok (loaded, next) ∧ SameTree tree loaded := by
  have hempty := rootDigest_eq_empty htree hcollision (fun _ h => h)
  unfold loadWithContext
  cases htreeRoot : tree.treeRoot with
  | none =>
      refine ⟨emptyTree tree.policy, context, if_pos (hempty.mpr htreeRoot), rfl, ?_, ?_⟩
      · simp [blocksPreorder, treePreorder, emptyTree, htreeRoot]
      · simp [entries, emptyTree, htreeRoot]
  | some root =>
      have hmem := root_mem_treePreorder htreeRoot
      have hdigest := rootDigest_some htreeRoot
      have hheight := hcovers.height_le
      rw [height, htreeRoot, Option.elim_some] at hheight
      obtain ⟨cache', next, hload, -, -⟩ := loadNode_total htree hlaw hcollision
        hcovers.nodes hstore hmem 1 ∅ ∅ context Nat.one_pos (by omega)
        (fun node _ loaded h => by simp at h) (fun ancestor _ h => by simp at h)
        hcharged
      have hentries : root.loaded.loadedEntries =
          tree.entries.map pair := by
        rw [entries, htreeRoot]
        rfl
      obtain ⟨rebuilt, hbuild, hpolicy, hcanonical, hsame⟩ :=
        htree.fromList_entries hlaw.toLawfulPolicy
      obtain ⟨hblocks, hrootDigest⟩ := htree.sameBlocks_of_entries hcanonical
        hlaw.toLawfulPolicy hpolicy hsame
      obtain ⟨statistics, hvalid, -⟩ :=
        validateStructure_total (hpolicy ▸ hlaw.toLawfulPolicy) hcanonical
      have hrebuild : rebuildTree tree.rootDigest tree.policy root.loaded =
          .ok rebuilt :=
        rebuildTree_eq_ok.mpr ⟨hentries ▸ hbuild, hrootDigest, statistics, hvalid⟩
      refine ⟨rebuilt, next, ?_, hpolicy, hblocks, hsame⟩
      rw [if_neg (by rw [hempty, htreeRoot]; simp)]
      rw [← hdigest] at hload
      rw [hload, except_ok_bind]
      simp only
      rw [hrebuild, except_ok_bind]

section

variable (hlaw : LawfulPolicy policy) {root : MerkleDigest} {loaded : MerkleSearchTree k v}
  (h : loadTreeWithBudget root policy store budget = .ok loaded)
include hlaw h

theorem loadTreeWithBudget_policy :
    loaded.policy = policy := by
  rw [loadTreeWithBudget, map_eq_ok] at h
  obtain ⟨⟨loaded, context⟩, hload, rfl⟩ := h
  obtain ⟨-, -, ⟨source, hsource⟩, -⟩ := loadWithContext_spec hload
  exact (fromList_spec hlaw hsource).2.1

theorem loadTreeWithBudget_sound :
    loaded.rootDigest = root ∧
      (∃ statistics, validateStructure loaded = .ok statistics) ∧
      (CollisionFree (hashedBytes loaded ∪ storedBytes store) → HoldsTree store loaded) := by
  rw [loadTreeWithBudget, map_eq_ok] at h
  obtain ⟨⟨loaded, context⟩, hload, rfl⟩ := h
  obtain ⟨hclosed, hroot, ⟨source, hsource⟩, hvalid⟩ := loadWithContext_spec hload
  obtain ⟨hcanonical, hpolicy, -⟩ := fromList_spec hlaw hsource
  refine ⟨hroot, hvalid, fun hcollision => ?_⟩
  refine StoredClosure.holdsTree hcanonical hcollision Set.subset_union_left
    Set.subset_union_right ?_
  rw [hroot, hpolicy]
  exact hclosed

end

theorem loadTreeWithBudget_total (htree : CanonicalTree tree) (hlaw : LawfulWirePolicy tree.policy)
    (hcollision : CollisionFree (hashedBytes tree)) (hcovers : CoversTree budget tree)
    (hstore : HoldsTree store tree) :
    ∃ loaded, loadTreeWithBudget tree.rootDigest tree.policy store budget =
      .ok loaded ∧ SameTree tree loaded := by
  obtain ⟨loaded, next, hload, hsame⟩ := loadWithContext_total htree hlaw hcollision
    hcovers hstore (ChargedNodes.newContext _)
  exact ⟨loaded, by rw [loadTreeWithBudget, hload]; rfl, hsame⟩

theorem bytesTree_coversNodes {base : Nat} (h : base ≤ 16 * 1024 * 1024) :
    CoversNodes defaultMerkleVerificationBudget base (treePreorder bytesTree) := by
  have hvalue : (encodedValue bytesPolicy none).length = 1 := rfl
  rw [bytesTree, treePreorder_over]
  constructor <;> simp [defaultMerkleVerificationBudget, byteCount, entryCount, upperNode,
    lowerNode, soleNode, blockBytes_length, entrySize, upperEntry, lowerEntry,
    MerkleEntry.encoded, hvalue]
  omega

theorem bytesTree_covered : CoversTree defaultMerkleVerificationBudget bytesTree where
  nodes := bytesTree_coversNodes (Nat.zero_le _)
  height_le := by decide

theorem bytesTree_saved : ∃ added store,
    saveTree bytesTree emptyBlockStore = some (.ok (added, store)) := by
  obtain ⟨hcanonical, -⟩ := bytesTree_reachable.canonical bytesPolicy_lawful.toLawfulPolicy
  exact saveTree_total hcanonical (hcanonical.digests_nodup
    bytesPolicy_lawful.toLawfulPolicy bytesTree_collisionFree) (by simp)

/--
Authenticated load: whatever the store holds, a loaded tree has the requested
root digest, is valid, and lies in the store byte for byte; and a saved tree is
loaded again with the same blocks and entries under a budget that covers it.
-/
theorem loadTree_authenticated (hlaw : LawfulWirePolicy policy)
    (store : MerkleBlockStore) (budget : MerkleVerificationBudget) :
    (∀ root loaded, loadTreeWithBudget root policy store budget = .ok loaded →
      CollisionFree (hashedBytes loaded ∪ storedBytes store) →
      loaded.rootDigest = root ∧
        (∃ statistics, validateStructure loaded = .ok statistics) ∧
        ∀ view ∈ blocksPreorder loaded,
          blockStoreLookup view.blockViewDigest store = some view.block) ∧
    ∀ tree, Reachable policy tree → CollisionFree (hashedBytes tree) →
      CoversTree budget tree → ∀ earlier added,
      saveTree tree earlier = some (.ok (added, store)) →
      ∃ loaded, loadTreeWithBudget tree.rootDigest policy store budget =
        .ok loaded ∧ blocksPreorder loaded = blocksPreorder tree ∧
        loaded.entries = tree.entries := by
  constructor
  · intro root loaded hload hcollision
    obtain ⟨hroot, hvalid, hholds⟩ := loadTreeWithBudget_sound hlaw.toLawfulPolicy hload
    refine ⟨hroot, hvalid, fun view hview => ?_⟩
    obtain ⟨node, hnode, rfl⟩ := mem_map.mp hview
    exact hholds hcollision node hnode
  · intro tree hreachable hcollision hcovers earlier added hsave
    obtain ⟨hcanonical, rfl⟩ := hreachable.canonical hlaw.toLawfulPolicy
    obtain ⟨loaded, hload, hsame⟩ := loadTreeWithBudget_total hcanonical hlaw
      hcollision hcovers (saveTree_spec hsave).1
    exact ⟨loaded, hload, hsame.blocks_eq, hsame.entries_eq⟩

theorem loadTree_authenticated_bytes : ∃ added store loaded,
    saveTree bytesTree emptyBlockStore = some (.ok (added, store)) ∧
      loadTreeWithBudget bytesTree.rootDigest bytesPolicy store
        defaultMerkleVerificationBudget = .ok loaded ∧
      loaded.rootDigest = bytesTree.rootDigest ∧
      blocksPreorder loaded = blocksPreorder bytesTree ∧
      ∀ view ∈ blocksPreorder loaded,
        blockStoreLookup view.blockViewDigest store = some view.block := by
  obtain ⟨added, store, hsave⟩ := bytesTree_saved
  obtain ⟨hsound, hcomplete⟩ := loadTree_authenticated bytesPolicy_lawful store
    defaultMerkleVerificationBudget
  obtain ⟨loaded, hload, hblocks, -⟩ := hcomplete bytesTree bytesTree_reachable
    bytesTree_collisionFree bytesTree_covered emptyBlockStore added hsave
  have hloadedBytes : hashedBytes loaded ⊆ hashedBytes bytesTree := by
    have hpolicy := loadTreeWithBudget_policy bytesPolicy_lawful.toLawfulPolicy hload
    rintro bytes (rfl | ⟨node, hnode, rfl⟩)
    · rw [hpolicy]
      exact manifest_mem_hashedBytes bytesTree
    · have hview : node.blockView ∈ blocksPreorder bytesTree := hblocks ▸ mem_map_of_mem hnode
      obtain ⟨other, hother, heq⟩ := mem_map.mp hview
      rw [show node.nodeBlockBytes = other.nodeBlockBytes from
        (congrArg MerkleBlockView.blockViewBytes heq).symm]
      exact node_mem_hashedBytes hother
  have hstoredBytes : storedBytes store ⊆ hashedBytes bytesTree := by
    rintro bytes ⟨digest, block, hblock, rfl⟩
    obtain ⟨-, -, hback⟩ := saveTree_spec hsave
    rcases hback digest block hblock with ⟨node, hnode, rfl⟩ | hempty
    · exact node_mem_hashedBytes hnode
    · simp at hempty
  obtain ⟨hroot, -, hviews⟩ := hsound _ loaded hload
    (bytesTree_collisionFree.mono (Set.union_subset hloadedBytes hstoredBytes))
  exact ⟨added, store, loaded, hsave, hload, hroot, hblocks, hviews⟩

end Durable7.Hamt
