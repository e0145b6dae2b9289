import Durable7.Hamt.MerklePersistence.Proofs
import Durable7.Hamt.MerklePersistence.Reloading

/-!
# Expansions

A query expands some child intervals of each block it reaches.  Which ones is a
function of the block alone, so the blocks a query reaches form a subtree, its
expansion.  Prover and verifier both compute it, one from the trusted decodings
and one from untrusted blocks that match the nodes of the tree.
-/

namespace Durable7.Hamt

open Foundation List MerkleNode MerkleEntry Nat

variable {k v : Type} {policy : MerkleSearchTreePolicy k v}

/-! ## The expansion of a choice of intervals -/

/-- The blocks reached below an interval, in preorder. -/
def expansion (expand : MerkleNode k v → List Nat) : Option (MerkleNode k v) → List (MerkleNode k v)
  | none => []
  | some node => node :: (expand node).flatMap fun index => expansion expand (node.child index)
termination_by interval => sizeOf interval
decreasing_by exact node.sizeOf_child_lt index

def expansionDepth (expand : MerkleNode k v → List Nat) : Option (MerkleNode k v) → Nat
  | none => 0
  | some node => 1 + ((expand node).map fun index =>
      expansionDepth expand (node.child index)).foldl max 0
termination_by interval => sizeOf interval
decreasing_by exact node.sizeOf_child_lt index

/-- The step of a proof for a block of the expansion. -/
def expandedStep (expand : MerkleNode k v → List Nat) (node : MerkleNode k v) : MerkleProofStep :=
  ⟨node.storedBlock, (expand node).map Int.ofNat⟩

/-- Intervals are chosen from left to right, and none of them is empty. -/
structure ExpandsIntervals (expand : MerkleNode k v → List Nat) : Prop where
  sublist : ∀ node, (expand node).Sublist (List.range node.nodeChildren.length)
  present : ∀ node, ∀ index ∈ expand node, ∃ child, node.child index = some child

@[simp] theorem expansion_none (expand : MerkleNode k v → List Nat) :
    expansion expand none = [] := by
  rw [expansion]

@[simp] theorem expansion_some (expand : MerkleNode k v → List Nat)
    (node : MerkleNode k v) : expansion expand (some node) =
      node :: (expand node).flatMap fun index => expansion expand (node.child index) := by
  rw [expansion]

theorem map_child_range (node : MerkleNode k v) :
    (List.range node.nodeChildren.length).map node.child = node.nodeChildren := by
  apply ext_getElem
  · simp
  · intro index h₁ h₂
    simp [child, h₂]

theorem flatMap_nodeChildren {β : Type} (f : Option (MerkleNode k v) → List β)
    (node : MerkleNode k v) :
    ((List.range node.nodeChildren.length).flatMap fun index =>
      f (node.child index)) = node.nodeChildren.flatMap f := by
  conv_rhs => rw [← map_child_range node, flatMap_map]

theorem flatMap_presentChildren {β : Type} {f : Option (MerkleNode k v) → List β}
    (h : f none = []) (node : MerkleNode k v) :
    node.nodeChildren.flatMap f = node.presentChildren.flatMap fun child => f (some child) := by
  rw [presentChildren]
  induction node.nodeChildren with
  | nil => rfl
  | cons interval intervals ih => cases interval <;> simp [h, ih]

variable {expand : MerkleNode k v → List Nat}

theorem expansion_sublist (h : ExpandsIntervals expand) (node : MerkleNode k v) :
    (expansion expand (some node)).Sublist (nodePreorder node) := by
  induction node using childInduction with
  | step node ih =>
      rw [expansion_some, nodePreorder_eq]
      apply List.Sublist.cons_cons
      refine ((h.sublist node).flatMap _).trans ?_
      rw [flatMap_nodeChildren (expansion expand), flatMap_presentChildren (expansion_none expand)]
      exact List.Sublist.flatMap_right _ fun child hchild =>
        ih child (mem_presentChildren.mp hchild)

theorem nodePreorder_sublist {root node : MerkleNode k v} (h : node ∈ nodePreorder root) :
    (nodePreorder node).Sublist (nodePreorder root) := by
  induction root using childInduction with
  | step root ih =>
      rcases mem_nodePreorder.mp h with rfl | ⟨child, hchild, hnode⟩
      · exact List.Sublist.refl _
      · refine (ih child hchild hnode).trans ?_
        rw [nodePreorder_eq root]
        refine List.Sublist.trans ?_ (sublist_cons_self _ _)
        exact sublist_flatten_of_mem (mem_map_of_mem (mem_presentChildren.mpr hchild))

variable {node : MerkleNode k v}

theorem nodePreorder_sublist_tree {tree : MerkleSearchTree k v} (h : node ∈ treePreorder tree) :
    (nodePreorder node).Sublist (treePreorder tree) := by
  obtain ⟨root, policy⟩ := tree
  cases root with
  | none => simp [treePreorder] at h
  | some root => exact nodePreorder_sublist h

theorem expansion_sublist_tree {tree : MerkleSearchTree k v} (h : ExpandsIntervals expand)
    (hnode : node ∈ treePreorder tree) :
    (expansion expand (some node)).Sublist (treePreorder tree) :=
  (expansion_sublist h node).trans (nodePreorder_sublist_tree hnode)

theorem expansionDepth_child {index : Nat} (hindex : index ∈ expand node) :
    expansionDepth expand (node.child index) + 1 ≤ expansionDepth expand (some node) := by
  have hle := le_foldl_max_of_mem 0 (.inr
    (mem_map_of_mem (f := fun index => expansionDepth expand (node.child index)) hindex))
  rw [expansionDepth]
  omega

/-! ## The intervals of a query -/

/-- A point query goes on below the one interval that can hold the key. -/
def pointIndexes (policy : MerkleSearchTreePolicy k v) (key : k)
    (node : MerkleNode k v) : List Nat :=
  let (position, found) := findPosition policy node.nodeEntries key
  if ¬ found ∧ (node.child position).isSome then [position] else []

/-- A range query goes on below every nonempty interval that meets the range. -/
def rangeIndexes (policy : MerkleSearchTreePolicy k v) (minimumKey maximumKey : k)
    (node : MerkleNode k v) : List Nat :=
  (List.range node.nodeChildren.length).filter fun index =>
    (node.child index).isSome ∧ childIntervalIntersects policy
      (node.nodeEntries.map decoded) index minimumKey maximumKey

theorem child_isSome_lt {index : Nat}
    (h : (node.child index).isSome = true) : index < node.nodeChildren.length := by
  by_contra hge
  rw [child, List.getElem?_eq_none (not_lt.mp hge)] at h
  simp at h

theorem pointIndexes_expands (policy : MerkleSearchTreePolicy k v) (key : k) :
    ExpandsIntervals (pointIndexes policy key) where
  sublist node := by
    unfold pointIndexes
    split
    split
    · rename_i hpresent
      rw [singleton_sublist, mem_range]
      exact child_isSome_lt hpresent.2
    · simp
  present node index hindex := by
    unfold pointIndexes at hindex
    split at hindex
    split at hindex
    · rename_i hpresent
      obtain rfl := mem_singleton.mp hindex
      exact Option.isSome_iff_exists.mp hpresent.2
    · simp at hindex

theorem rangeIndexes_expands (policy : MerkleSearchTreePolicy k v) (minimumKey maximumKey : k) :
    ExpandsIntervals (rangeIndexes policy minimumKey maximumKey) where
  sublist _ := filter_sublist
  present node index hindex := by
    have hpresent := (mem_filter.mp hindex).2
    simp only [decide_eq_true_eq] at hpresent
    exact Option.isSome_iff_exists.mp hpresent.1

theorem child_mem_of_lt {index : Nat}
    (h : index < node.nodeChildren.length) : node.child index ∈ node.nodeChildren := by
  simp [child, h]

/-- A point query at one block: found, absent, or passed on to one child. -/
inductive PointCase (policy : MerkleSearchTreePolicy k v) (key : k)
    (node : MerkleNode k v) : Prop where
  | found {position : Nat} {entry : MerkleEntry k v}
      (hfind : findPosition policy node.nodeEntries key = (position, true))
      (hentry : node.nodeEntries[position]? = some entry)
      (hlookup : lookupNode policy key (some node) = some entry)
      (hindexes : pointIndexes policy key node = [])
  | absent {position : Nat}
      (hfind : findPosition policy node.nodeEntries key = (position, false))
      (hlt : position < node.nodeChildren.length)
      (hchild : node.child position = none)
      (hlookup : lookupNode policy key (some node) = none)
      (hindexes : pointIndexes policy key node = [])
  | below {position : Nat} {child : MerkleNode k v}
      (hfind : findPosition policy node.nodeEntries key = (position, false))
      (hlt : position < node.nodeChildren.length)
      (hchild : node.child position = some child)
      (hlookup : lookupNode policy key (some node) = lookupNode policy key (some child))
      (hindexes : pointIndexes policy key node = [position])

theorem OrderedNode.pointCase (hlaw : LawfulPolicy policy)
    (h : OrderedNode policy node) (key : k) : PointCase policy key node := by
  rcases hfind : findPosition policy node.nodeEntries key with ⟨position, found⟩
  obtain ⟨hposition, -⟩ := findPosition_spec h.block.arity (h.ordered.searchable hlaw key) hfind
  have hlt : position < node.nodeChildren.length := by
    have hle := hposition.le
    rw [h.block.arity]
    omega
  cases found with
  | true =>
      obtain ⟨entry, hentry, -⟩ := hposition.atPosition
      refine .found hfind hentry ?_ (by simp [pointIndexes, hfind])
      rw [lookupNode, hfind]
      exact hentry
  | false =>
      cases hchild : node.child position with
      | none =>
          refine .absent hfind hlt hchild ?_ (by simp [pointIndexes, hfind, hchild])
          rw [lookupNode, hfind]
          simp [hchild, lookupNode]
      | some child =>
          refine .below hfind hlt hchild ?_ (by simp [pointIndexes, hfind, hchild])
          rw [lookupNode, hfind]
          simp [hchild]

/-- The ordering of a decoded key relative to a probed key. -/
def probeDecoded (policy : MerkleSearchTreePolicy k v) (key : k)
    (entry : DecodedEntry k v) : Ordering :=
  policy.compareMerkleKeys entry.decodedKey key

theorem findDecodedPositionFrom_eq {key : k} {entries : List (DecodedEntry k v)}
    (hsearch : Searchable (probeDecoded policy key) entries) (index : Nat) :
    ∃ position found, findDecodedPositionFrom policy key index entries = (index + position, found) ∧
      IsPosition (probeDecoded policy key) entries position found := by
  induction entries generalizing index with
  | nil => exact ⟨0, false, rfl, ⟨le_refl _, by simp, by simp, by simp⟩⟩
  | cons entry entries ih =>
      obtain ⟨hfirst, hrest⟩ := pairwise_cons.mp hsearch
      rw [findDecodedPositionFrom]
      cases hprobe : policy.compareMerkleKeys entry.decodedKey key with
      | lt =>
          obtain ⟨position, found, heq, hposition⟩ := ih hrest (index + 1)
          refine ⟨position + 1, found, ?_, ?_⟩
          · simp only
            rw [heq, add_right_comm, add_assoc]
          · refine ⟨by simpa using hposition.le, ?_, ?_, ?_⟩
            · intro item hitem
              rcases mem_cons.mp hitem with rfl | hitem
              · exact hprobe
              · exact hposition.below item hitem
            · simpa using hposition.notBelow
            · simpa using hposition.found_iff
      | eq | gt =>
          refine ⟨0, _, rfl, ⟨zero_le _, by simp, ?_, ?_⟩⟩
          · intro item hitem
            rcases mem_cons.mp hitem with rfl | hitem
            · simp [probeDecoded, hprobe]
            · rw [hfirst item hitem (by simp [probeDecoded, hprobe])]
              simp
          · simp [probeDecoded, hprobe]

/-! ## Blocks that match a node -/

section Matches

variable {block : DecodedBlock k v} {node : MerkleNode k v}

/-- A decoded entry is a stored one, up to the representative of its key. -/
def SameEntry (policy : MerkleSearchTreePolicy k v) (decoded : DecodedEntry k v)
    (stored : MerkleEntry k v) : Prop :=
  decoded.encoded = stored.encoded ∧
    policy.compareMerkleKeys decoded.decodedKey stored.entryKey = .eq

section

variable (hlaw : LawfulPolicy policy)
include hlaw

theorem SameEntry.of_encoded {entry : DecodedEntry k v} {level : UInt8}
    (h : ValidDecodedEntry policy level entry) {stored : MerkleEntry k v}
    (hstored : ValidEntry policy stored) (hencoded : entry.encoded = stored.encoded) :
    SameEntry policy entry stored := by
  have hkey : entry.decodedKeyBytes = stored.entryKeyBytes := congrArg Prod.fst hencoded
  exact ⟨hencoded, by rw [hlaw.compare_eq_iff, h.encodeKey, hstored.keyBytes, hkey]⟩

theorem SameEntry.probe_eq {entry : DecodedEntry k v}
    {stored : MerkleEntry k v} (h : SameEntry policy entry stored) (key : k) :
    probeDecoded policy key entry = probeKey policy key stored := by
  have := hlaw.compare_total
  exact Std.TransCmp.congr_left h.2

section

variable (h : Matches policy block node) (hblock : WellFormedBlock policy block)
include h hblock

theorem Matches.sameEntries (hnode : OrderedNode policy node) :
    List.Forall₂ (SameEntry policy) block.decodedEntries node.nodeEntries := by
  have hencoded : List.Forall₂ (fun decoded stored =>
      DecodedEntry.encoded decoded = encoded stored)
      block.decodedEntries node.nodeEntries := by
    have heq := h.entries_eq
    rw [← forall₂_eq_eq_eq, forall₂_map_left_iff, forall₂_map_right_iff] at heq
    exact heq
  rw [forall₂_iff_zip] at hencoded ⊢
  refine ⟨hencoded.1, fun {decoded stored} hmem => ?_⟩
  obtain ⟨hdecoded, hstored⟩ := of_mem_zip hmem
  exact .of_encoded hlaw (hblock.valid decoded hdecoded)
    (hnode.entries.valid stored hstored) (hencoded.2 hmem)

theorem Matches.probes_eq (hnode : OrderedNode policy node) (key : k) :
    block.decodedEntries.map (probeDecoded policy key) =
      node.nodeEntries.map (probeKey policy key) := by
  rw [← forall₂_eq_eq_eq, forall₂_map_left_iff, forall₂_map_right_iff]
  exact (h.sameEntries hlaw hblock hnode).imp fun _ _ hsame => hsame.probe_eq hlaw key

theorem Matches.findDecodedPosition_eq (hnode : OrderedNode policy node) (key : k) :
    findDecodedPosition policy block.decodedEntries key =
      findPosition policy node.nodeEntries key := by
  have hprobes := h.probes_eq hlaw hblock hnode key
  have hstored := hnode.entries.searchable hlaw key
  have hsearch : Searchable (probeDecoded policy key) block.decodedEntries := by
    have hmapped : (node.nodeEntries.map (probeKey policy key)).Pairwise
        fun before after => before ≠ .lt → after = .gt := by
      rw [pairwise_map]
      exact hstored
    rw [← hprobes, pairwise_map] at hmapped
    exact hmapped
  obtain ⟨position, found, heq, hposition⟩ := findDecodedPositionFrom_eq hsearch 0
  have hbinary := binarySearch_isPosition hstored 0 node.nodeEntries.length
    (le_refl _) (zero_le _) (by simp) (by simp)
  obtain ⟨hsame, hfound⟩ := (hposition.transport hprobes).unique hbinary
  rw [findDecodedPosition, heq, findPosition, zero_add, hsame, hfound]

end

end

theorem Matches.childAt_eq (h : Matches policy block node) (index : Nat) :
    block.childAt policy index = childDigest policy (node.child index) := by
  rw [DecodedBlock.childAt, h.children_eq, getD_eq_getElem?_getD, List.getElem?_map, child]
  cases node.nodeChildren[index]? <;> rfl

theorem Matches.valueBytes_eq (h : Matches policy block node) (index : Nat) :
    block.decodedEntries[index]?.map DecodedEntry.decodedValueBytes =
      node.nodeEntries[index]?.map entryValueBytes := by
  have hencoded := congrArg (fun entries => (entries[index]?).map Prod.snd) h.entries_eq
  simpa [List.getElem?_map, Option.map_map, Function.comp_def, DecodedEntry.encoded,
    encoded] using hencoded

theorem MerkleNode.decoded_matches (policy : MerkleSearchTreePolicy k v) (node : MerkleNode k v) :
    Matches policy (node.decoded policy) node where
  level_eq := rfl
  count_eq := rfl
  entries_eq := encoded_decoded _
  children_eq := rfl

theorem probes_decoded (entries : List (MerkleEntry k v)) (key : k) :
    (entries.map MerkleEntry.decoded).map (probeDecoded policy key) =
      entries.map (probeKey policy key) := by
  rw [map_map]
  rfl

theorem childIntervalIntersects_eq {entries entries' : List (DecodedEntry k v)}
    (h : ∀ key, entries.map (probeDecoded policy key) =
      entries'.map (probeDecoded policy key)) (index : Nat) (minimumKey maximumKey : k) :
    childIntervalIntersects policy entries index minimumKey maximumKey =
      childIntervalIntersects policy entries' index minimumKey maximumKey := by
  have hany : ∀ (ordering : Ordering) (position : Nat) (key : k),
      (entries[position]?.any fun entry =>
        policy.compareMerkleKeys entry.decodedKey key == ordering) =
      (entries'[position]?.any fun entry =>
        policy.compareMerkleKeys entry.decodedKey key == ordering) := by
    intro ordering position key
    have hprobe := congrArg (fun probes => (probes[position]?).any (· == ordering)) (h key)
    simpa [List.getElem?_map, Option.any_map, Function.comp_def, probeDecoded] using hprobe
  have hlength : entries.length = entries'.length := by
    simpa using congrArg List.length (h minimumKey)
  rw [childIntervalIntersects, childIntervalIntersects, hany, hany, hlength]

theorem Matches.expandedIndexes_eq (hlaw : LawfulPolicy policy)
    (h : Matches policy block node) (hblock : WellFormedBlock policy block)
    (hnode : OrderedNode policy node) (hempty : ∀ child ∈ node.nodeChildren,
      childDigest policy child = policy.merkleEmptyDigest ↔ child = none)
    (minimumKey maximumKey : k) :
    block.expandedIndexes policy minimumKey maximumKey =
      rangeIndexes policy minimumKey maximumKey node := by
  have hlength : block.decodedChildDigests.length = node.nodeChildren.length := by
    rw [h.children_eq, length_map]
  rw [DecodedBlock.expandedIndexes, rangeIndexes, hlength]
  refine filter_congr fun index hindex => ?_
  have hlt := mem_range.mp hindex
  have hmem : node.child index ∈ node.nodeChildren := by simp [child, hlt]
  have hprobes : ∀ key, block.decodedEntries.map (probeDecoded policy key) =
      (node.nodeEntries.map MerkleEntry.decoded).map (probeDecoded policy key) := by
    intro key
    rw [probes_decoded, h.probes_eq hlaw hblock hnode]
  rw [h.childAt_eq, childIntervalIntersects_eq hprobes, decide_eq_decide]
  refine and_congr_left' ?_
  rw [ne_eq, hempty _ hmem, Option.isSome_iff_ne_none]

end Matches

end Durable7.Hamt
