import Durable7.Hamt.MerklePersistence.Authentication
import Mathlib.Algebra.Order.BigOperators.Group.Finset

/-!
# Charging the blocks of a tree

A budget covers a list of blocks when each limit is at least what charging every
block once adds up to.  Under such a budget no charge for one of the blocks
fails, whatever the order and however often a block is charged.
-/

namespace Durable7.Hamt

open Foundation List MerkleNode
open Finset hiding cons map map_cons map_map mem_map sum_cons

variable {k v : Type} {budget : MerkleVerificationBudget}

/-- The size of the block under a digest, zero where there is none. -/
def sizeUnder (nodes : List (MerkleNode k v)) (size : MerkleNode k v → Nat)
    (digest : MerkleDigest) : Nat :=
  (nodes.find? fun node => node.nodeDigest = digest).elim 0 size

def nodeDigests (nodes : List (MerkleNode k v)) : Finset MerkleDigest :=
  (nodes.map nodeDigest).toFinset

variable {nodes : List (MerkleNode k v)}

theorem mem_nodeDigests {digest : MerkleDigest} :
    digest ∈ nodeDigests nodes ↔ ∃ node ∈ nodes, node.nodeDigest = digest := by
  rw [nodeDigests, mem_toFinset, mem_map]

variable {node : MerkleNode k v}

section

variable {nodes : List (MerkleNode k v)} (hnodup : (nodes.map nodeDigest).Nodup)
include hnodup

theorem sizeUnder_nodeDigest (hnode : node ∈ nodes) (size : MerkleNode k v → Nat) :
    sizeUnder nodes size node.nodeDigest = size node := by
  induction nodes with
  | nil => cases hnode
  | cons first nodes ih =>
      rw [map_cons, nodup_cons] at hnodup
      rw [sizeUnder]
      rcases mem_cons.mp hnode with rfl | hrest
      · simp
      · rw [List.find?_cons_of_neg]
        · exact ih hnodup.2 hrest
        · simp only [decide_eq_true_eq]
          intro heq
          exact hnodup.1 (heq ▸ mem_map_of_mem hrest)

theorem sum_sizeUnder (size : MerkleNode k v → Nat) :
    ∑ digest ∈ nodeDigests nodes, sizeUnder nodes size digest = (nodes.map size).sum := by
  rw [nodeDigests, sum_toFinset _ hnodup, map_map]
  congr 1
  exact map_congr_left fun node hnode => sizeUnder_nodeDigest hnodup hnode size

end

/-- Bytes in a block, and entries in it. -/
def MerkleNode.byteCount (node : MerkleNode k v) : Nat := node.nodeBlockBytes.length

def MerkleNode.entryCount (node : MerkleNode k v) : Nat := node.nodeEntries.length

variable {policy : MerkleSearchTreePolicy k v}

theorem OrderedNode.byteCount_le (h : OrderedNode policy node) :
    node.byteCount ≤ (118 + 2 * maxInt32) * node.entryCount := by
  have hsize : ∀ entries : List (MerkleEntry k v),
      (∀ entry ∈ entries, entry.entryKeyBytes.length ≤ maxInt32 ∧
        entry.entryValueBytes.length ≤ maxInt32) →
      ((entries.map MerkleEntry.encoded).map entrySize).sum ≤
        (8 + 2 * maxInt32) * entries.length := by
    intro entries
    induction entries with
    | nil => simp
    | cons entry entries ih =>
        intro hlengths
        have hrest := ih fun other hother => hlengths other (by simp [hother])
        obtain ⟨hkey, hvalue⟩ := hlengths entry (by simp)
        have hentry : entrySize entry.encoded ≤ 8 + 2 * maxInt32 := by
          simp only [entrySize, MerkleEntry.encoded]
          omega
        rw [map_cons, map_cons, sum_cons, length_cons, Nat.mul_succ]
        omega
  have hentries := hsize node.nodeEntries h.block.lengths
  have hpos := length_pos_iff.mpr h.block.nonempty
  rw [byteCount, h.block.bytes_eq, blockBytes_length, length_map, h.block.arity, entryCount]
  unfold maxInt32 at hentries ⊢
  omega

theorem CanonicalTree.sum_entryCount {tree : MerkleSearchTree k v} (h : CanonicalTree tree) :
    ((treePreorder tree).map entryCount).sum ≤ maxInt32 := by
  obtain ⟨root, policy⟩ := tree
  cases root with
  | none => simp [treePreorder]
  | some root =>
      have hroot := canonicalChild_some.mp h.root
      have hlength := hroot.blockEntries_perm.length_eq
      rw [length_flatMap, ← hroot.nodeCount_eq] at hlength
      exact hlength.trans_le hroot.block.count_le

theorem CanonicalTree.sum_byteCount_le {tree : MerkleSearchTree k v} (h : CanonicalTree tree)
    (hsub : nodes.Subperm (treePreorder tree)) :
    (nodes.map byteCount).sum ≤ (118 + 2 * maxInt32) * maxInt32 := by
  have hle : ∀ nodes : List (MerkleNode k v),
      (∀ node ∈ nodes, OrderedNode tree.policy node) →
      (nodes.map byteCount).sum ≤ (118 + 2 * maxInt32) * (nodes.map entryCount).sum := by
    intro nodes
    induction nodes with
    | nil => simp
    | cons node nodes ih =>
        intro hnodes
        have hrest := ih fun other hother => hnodes other (by simp [hother])
        have hnode := (hnodes node (by simp)).byteCount_le
        rw [map_cons, sum_cons, map_cons, sum_cons, Nat.mul_add]
        omega
  obtain ⟨fewer, hperm, hsublist⟩ := hsub
  rw [← (hperm.map byteCount).sum_eq]
  exact (List.Sublist.sum_le_sum (hsublist.map _) (by simp)).trans
    ((hle _ h.orderedNode).trans (Nat.mul_le_mul_left _ h.sum_entryCount))

/-- The limits suffice to charge `base` bytes and then each block once. -/
structure CoversNodes (budget : MerkleVerificationBudget) (base : Nat)
    (nodes : List (MerkleNode k v)) : Prop where
  blockCount : nodes.length ≤ budget.maxBlockCount
  totalBytes : base + (nodes.map byteCount).sum ≤ budget.maxTotalByteCount
  blockBytes : ∀ node ∈ nodes, node.byteCount ≤ budget.maxBlockByteCount
  entryCount : (nodes.map entryCount).sum ≤ budget.maxEntryCount
  childReferences : ∀ node ∈ nodes, node.entryCount + 1 ≤ budget.maxChildReferencesPerBlock

/-- The context has been charged `base` bytes and some of the blocks. -/
structure ChargedNodes (nodes : List (MerkleNode k v)) (base : Nat)
    (context : VerificationContext budget) : Prop where
  subset : context.contextBlocks ⊆ nodeDigests nodes
  blockCount_eq : context.contextBlockCount = context.contextBlocks.card
  totalBytes_eq : context.contextTotalBytes = base +
    ∑ digest ∈ context.contextBlocks, sizeUnder nodes byteCount digest
  entryCount_eq : context.contextEntryCount =
    ∑ digest ∈ context.contextBlocks, sizeUnder nodes entryCount digest

theorem ChargedNodes.newContext (nodes : List (MerkleNode k v)) :
    ChargedNodes nodes 0 (newContext budget) :=
  ⟨by simp [Hamt.newContext], rfl, rfl, rfl⟩

section Charge

variable {nodes : List (MerkleNode k v)} {base : Nat}

section

variable (hnodup : (nodes.map nodeDigest).Nodup)
include hnodup

section

variable (hnode : node ∈ nodes) {charged : Finset MerkleDigest}
  (hsubset : charged ⊆ nodeDigests nodes) (hfresh : node.nodeDigest ∉ charged)
include hnode hsubset hfresh

private theorem sum_insert_le (size : MerkleNode k v → Nat) :
    size node + ∑ digest ∈ charged, sizeUnder nodes size digest ≤ (nodes.map size).sum := by
  rw [← sum_sizeUnder hnodup size, ← sizeUnder_nodeDigest hnodup hnode size, ← sum_insert hfresh]
  apply sum_le_sum_of_subset
  rw [insert_subset_iff]
  exact ⟨mem_nodeDigests.mpr ⟨node, hnode, rfl⟩, hsubset⟩

private theorem card_insert_le :
    charged.card + 1 ≤ nodes.length := by
  rw [← card_insert_of_notMem hfresh]
  have hle : (Insert.insert node.nodeDigest charged).card ≤ (nodeDigests nodes).card := by
    apply card_le_card
    rw [insert_subset_iff]
    exact ⟨mem_nodeDigests.mpr ⟨node, hnode, rfl⟩, hsubset⟩
  rwa [nodeDigests, toFinset_card_of_nodup hnodup, length_map] at hle

end

theorem chargeBlock_total
    (hcovers : CoversNodes budget base nodes) {context : VerificationContext budget}
    (hcharged : ChargedNodes nodes base context) (hnode : node ∈ nodes) {depth : Nat}
    (hpos : 0 < depth) (hdepth : depth ≤ budget.maxDepth) :
    ∃ next, chargeBlock node.storedBlock depth node.entryCount context = .ok next ∧
      ChargedNodes nodes base next ∧
      next.contextBlocks =
        Insert.insert node.nodeDigest context.contextBlocks := by
  have hchildren := hcovers.childReferences node hnode
  rw [chargeBlock]
  by_cases hfresh : node.nodeDigest ∈ context.contextBlocks
  · rw [accountBlock_repeated hpos hdepth hfresh, except_ok_bind]
    simp only
    rw [rejectIf_neg (by omega), except_ok_bind]
    exact ⟨context, rfl, hcharged, (insert_eq_of_mem hfresh).symm⟩
  · have hblocks := card_insert_le hnodup hnode hcharged.subset hfresh
    have hbytes := sum_insert_le hnodup hnode hcharged.subset hfresh byteCount
    have hentries := sum_insert_le hnodup hnode hcharged.subset hfresh entryCount
    have hblockEq := hcharged.blockCount_eq
    have hbytesEq := hcharged.totalBytes_eq
    have hentriesEq := hcharged.entryCount_eq
    have hblockCount := hcovers.blockCount
    have htotal := hcovers.totalBytes
    have hentryCount := hcovers.entryCount
    have hsize : node.storedBlock.merkleBlockBytes.length = node.byteCount := rfl
    obtain ⟨first, hfirst, hfirstCount, hfirstBytes, hfirstEntries, hfirstBlocks⟩ :=
      accountBlock_first hpos hdepth
        (show node.storedBlock.merkleBlockDigest ∉ context.contextBlocks from hfresh)
        (hcovers.blockBytes node hnode) (by omega) (by omega)
    have hentriesFit : ∀ first : VerificationContext budget,
        first.contextEntryCount = context.contextEntryCount →
        first.contextEntryCount + node.entryCount ≤ budget.maxEntryCount := by
      omega
    obtain ⟨next, hnext, hnextCount, hnextBytes, hnextEntries, hnextBlocks⟩ :=
      accountEntries_total (hentriesFit first hfirstEntries)
    rw [hfirst, except_ok_bind]
    simp only
    rw [rejectIf_neg (by omega), except_ok_bind]
    have hinserted : next.contextBlocks =
        Insert.insert node.nodeDigest context.contextBlocks :=
      hnextBlocks.trans hfirstBlocks
    refine ⟨next, hnext, ⟨?_, ?_, ?_, ?_⟩, hinserted⟩
    · rw [hinserted, insert_subset_iff]
      exact ⟨mem_nodeDigests.mpr ⟨node, hnode, rfl⟩, hcharged.subset⟩
    · rw [hinserted, card_insert_of_notMem hfresh]
      omega
    · rw [hinserted, sum_insert hfresh, sizeUnder_nodeDigest hnodup hnode]
      omega
    · rw [hinserted, sum_insert hfresh, sizeUnder_nodeDigest hnodup hnode]
      omega

end

end Charge

theorem decodeBlock_node (hlaw : LawfulWirePolicy policy) (h : OrderedNode policy node) {base : Nat}
    (hnodup : (nodes.map nodeDigest).Nodup) (hcovers : CoversNodes budget base nodes)
    {context : VerificationContext budget} (hcharged : ChargedNodes nodes base context)
    (hnode : node ∈ nodes) {depth : Nat} (hpos : 0 < depth) (hdepth : depth ≤ budget.maxDepth) :
    ∃ next, decodeBlock policy node.storedBlock depth context = .ok (node.decoded policy, next) ∧
      ChargedNodes nodes base next ∧
      next.contextBlocks =
        Insert.insert node.nodeDigest context.contextBlocks := by
  obtain ⟨next, hnext, hcharged', hblocks⟩ :=
    chargeBlock_total hnodup hcovers hcharged hnode hpos hdepth
  refine ⟨next, decodeBlock_eq_ok.mpr ⟨rfl, h.wellFormed hlaw, ?_⟩, hcharged', hblocks⟩
  rw [decoded, length_map]
  exact hnext

end Durable7.Hamt
