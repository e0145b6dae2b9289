import Durable7.Hamt.MerkleSearchTree.Contents

/-!
# Ranks

The cached counts turn a descent into a search by rank and back: the entry at a
rank is the entry of the traversal at that index, and the lower bound of a key is
the number of entries below it.
-/

namespace Durable7.Hamt

open Foundation List MerkleNode Nat

variable {k v : Type}

namespace MerkleNode

def childCount (node : MerkleNode k v) (index : Nat) : Nat := (node.child index).elim 0 nodeCount

end MerkleNode

/-- `scan`, from one child interval of a block to the next. -/
def scanRank (node : MerkleNode k v) (index remaining : Nat) : Option (MerkleEntry k v) :=
  if index > node.nodeEntries.length then none
  else if remaining < node.childCount index then
    match hchild : node.child index with
    | none => none
    | some child => scanRank child 0 remaining
  else if index = node.nodeEntries.length then none
  else if remaining = node.childCount index then node.nodeEntries[index]?
  else scanRank node (index + 1) (remaining - node.childCount index - 1)
termination_by (sizeOf node, node.nodeEntries.length - index)
decreasing_by
  · exact Prod.Lex.left _ _ (sizeOf_lt (child_eq_some hchild))
  · apply Prod.Lex.right
    omega

def entryAtRank (rank : Int) (tree : MerkleSearchTree k v) : Option (MerkleEntry k v) :=
  if rank < 0 ∨ rank ≥ tree.size then none
  else tree.treeRoot.bind fun root => scanRank root 0 rank.toNat

def lowerBoundNode (policy : MerkleSearchTreePolicy k v) (key : k) (rank : Nat) :
    Option (MerkleNode k v) → Nat × Bool
  | none => (rank, false)
  | some node =>
      let (position, found) := findPosition policy node.nodeEntries key
      let preceding := ((List.range position).map fun index => node.childCount index + 1).sum
      let nextRank := rank + preceding
      if found then (nextRank + node.childCount position, true)
      else lowerBoundNode policy key nextRank (node.child position)
termination_by node => sizeOf node
decreasing_by exact node.sizeOf_child_lt position

def lowerBoundRank (key : k) (tree : MerkleSearchTree k v) : Nat × Bool :=
  lowerBoundNode tree.policy key 0 tree.treeRoot

variable {policy : MerkleSearchTreePolicy k v} {node : MerkleNode k v}
  {interval : Option (MerkleNode k v)}

theorem CanonicalChild.count_eq (h : CanonicalChild policy interval) :
    interval.elim 0 nodeCount = (enumerateChild interval).length := by
  cases interval with
  | none => rfl
  | some node => exact (canonicalChild_some.mp h).nodeCount_eq

theorem CanonicalNode.childCount_eq (h : CanonicalNode policy node) (index : Nat) :
    node.childCount index = (enumerateChild (node.child index)).length :=
  (h.child index).count_eq

theorem MerkleNode.before_zero (node : MerkleNode k v) : node.before 0 = [] := by
  simp [before]

theorem MerkleNode.after_length (node : MerkleNode k v) :
    node.after node.nodeEntries.length = [] := by
  simp [after]

theorem CanonicalNode.sum_preceding (h : CanonicalNode policy node) {position : Nat}
    (hposition : position ≤ node.nodeEntries.length) :
    ((List.range position).map fun index => node.childCount index + 1).sum =
      (node.before position).length := by
  induction position with
  | zero => rw [node.before_zero]; rfl
  | succ position ih =>
      have hentry : node.nodeEntries[position]? = some node.nodeEntries[position] :=
        List.getElem?_eq_getElem (by omega)
      have hhere := congrArg List.length (enumerateNode_focus h.block.arity
        (show position ≤ node.nodeEntries.length by omega))
      have hnext := congrArg List.length (enumerateNode_focus h.block.arity hposition)
      rw [after_eq_cons h.block.arity hentry] at hhere
      simp only [length_append, length_cons] at hhere hnext
      rw [range_succ, map_append, List.sum_append_nat, ih (by omega)]
      simp only [map_cons, map_nil, sum_cons, sum_nil, h.childCount_eq]
      omega

theorem scanRank_eq (node : MerkleNode k v) (index remaining : Nat)
    (h : CanonicalNode policy node) (hindex : index ≤ node.nodeEntries.length) :
    scanRank node index remaining =
      (enumerateChild (node.child index) ++ node.after index)[remaining]? := by
  induction node, index, remaining using scanRank.induct with
  | case1 node index remaining hgt => omega
  | case2 node index remaining _ hlt hchild =>
      rw [h.childCount_eq, hchild] at hlt
      cases hlt
  | case3 node index remaining hle hlt child hchild ih =>
      rw [scanRank, if_neg hle, if_pos hlt]
      split
      · rename_i hnone
        rw [hnone] at hchild
        cases hchild
      · rename_i other hother
        obtain rfl : child = other := Option.some.inj (hchild.symm.trans hother)
        have hnode := h.children child (child_eq_some hchild)
        rw [h.childCount_eq, hchild, enumerateChild_some] at hlt
        rw [ih hnode (zero_le _), hchild, enumerateChild_some, List.getElem?_append_left hlt,
          enumerateNode_focus hnode.block.arity (zero_le _), child.before_zero, nil_append]
  | case4 node remaining hle hge =>
      rw [h.childCount_eq] at hge
      rw [scanRank, if_neg (by omega), if_neg (by rw [h.childCount_eq]; exact hge), if_pos rfl,
        node.after_length, append_nil, List.getElem?_eq_none (by omega)]
  | case5 node index hle hne hge =>
      obtain ⟨entry, hentry⟩ : ∃ entry, node.nodeEntries[index]? = some entry :=
        ⟨_, List.getElem?_eq_getElem (by omega)⟩
      rw [scanRank, if_neg hle, if_neg hge, if_neg hne, if_pos rfl, hentry,
        after_eq_cons h.block.arity
        hentry, h.childCount_eq, List.getElem?_append_right le_rfl, Nat.sub_self]
      rfl
  | case6 node index remaining hle hge hne hother ih =>
      obtain ⟨entry, hentry⟩ : ∃ entry, node.nodeEntries[index]? = some entry :=
        ⟨_, List.getElem?_eq_getElem (by omega)⟩
      rw [scanRank, if_neg hle, if_neg hge, if_neg hne, if_neg hother, ih h (by omega)]
      rw [h.childCount_eq] at hge hother ⊢
      rw [after_eq_cons h.block.arity hentry]
      conv_rhs => rw [List.getElem?_append_right (by omega), List.getElem?_cons, if_neg (by omega)]

theorem CanonicalTree.entryAtRank_eq {tree : MerkleSearchTree k v} (h : CanonicalTree tree)
    (rank : Int) :
    entryAtRank rank tree = if rank < 0 then none else tree.entries[rank.toNat]? := by
  have hsize : tree.size = tree.entries.length := h.root.count_eq
  rw [entryAtRank]
  by_cases hnegative : rank < 0
  · rw [if_pos (.inl hnegative), if_pos hnegative]
  · rw [if_neg hnegative]
    by_cases hlarge : rank ≥ tree.size
    · rw [if_pos (.inr hlarge), List.getElem?_eq_none (by omega)]
    · rw [if_neg (by omega)]
      obtain ⟨root, policy⟩ := tree
      cases root with
      | none => rfl
      | some root =>
          have hroot := canonicalChild_some.mp h.root
          rw [MerkleSearchTree.entries_eq, enumerateChild_some, Option.bind_some,
            scanRank_eq root 0 _ hroot (zero_le _),
            enumerateNode_focus hroot.block.arity (zero_le _), root.before_zero, nil_append]

theorem lowerBoundNode_eq {key : k} (h : CanonicalChild policy interval)
    (hsearch : Searchable (probeKey policy key) (enumerateChild interval)) (rank : Nat) :
    lowerBoundNode policy key rank interval =
      (rank + ((enumerateChild interval).filter
          fun entry => probeKey policy key entry == .lt).length,
        (enumerateChild interval).any fun entry => probeKey policy key entry == .eq) := by
  have hall : ∀ {entries : List (MerkleEntry k v)},
      (∀ entry ∈ entries, probeKey policy key entry = .lt) →
      entries.filter (fun entry => probeKey policy key entry == .lt) = entries ∧
        entries.any (fun entry => probeKey policy key entry == .eq) = false := by
    intro entries hlt
    refine ⟨filter_eq_self.mpr fun entry hentry => by simp [hlt entry hentry], ?_⟩
    rw [any_eq_false]
    intro entry hentry
    simp [hlt entry hentry]
  have hnone : ∀ {entries : List (MerkleEntry k v)},
      (∀ entry ∈ entries, probeKey policy key entry = .gt) →
      entries.filter (fun entry => probeKey policy key entry == .lt) = [] ∧
        entries.any (fun entry => probeKey policy key entry == .eq) = false := by
    intro entries hgt
    refine ⟨filter_eq_nil_iff.mpr fun entry hentry => by simp [hgt entry hentry], ?_⟩
    rw [any_eq_false]
    intro entry hentry
    simp [hgt entry hentry]
  induction rank, interval using lowerBoundNode.induct policy key with
  | case1 => simp [lowerBoundNode]
  | case2 rank node position hfind =>
      have hnode := canonicalChild_some.mp h
      rw [enumerateChild_some] at hsearch ⊢
      obtain ⟨hposition, -⟩ := findPosition_spec hnode.block.arity hsearch hfind
      obtain ⟨entry, hentry, heq, -, htraversal⟩ := focus_found hnode.block.arity hsearch hfind
      rw [htraversal] at hsearch
      obtain ⟨hbelow, -⟩ := hall fun other hother => hsearch.below_of_match heq other hother
      obtain ⟨habove, -⟩ := hnone fun other hother => hsearch.above_of_match heq other hother
      rw [lowerBoundNode, hfind, htraversal, filter_append, hbelow,
        filter_cons_of_neg (by simp [heq]), habove]
      simp only [if_true]
      rw [hnode.sum_preceding hposition.le, hnode.childCount_eq]
      simp [heq, add_assoc]
  | case3 rank node position found hfind preceding nextRank hfound ih =>
      obtain rfl : found = false := by simpa using hfound
      have hnode := canonicalChild_some.mp h
      rw [enumerateChild_some] at hsearch ⊢
      obtain ⟨hposition, hbelow, -, habove⟩ := findPosition_spec hnode.block.arity hsearch hfind
      obtain ⟨hbefore, hbeforeAny⟩ := hall hbelow
      obtain ⟨hafter, hafterAny⟩ := hnone (habove rfl)
      rw [lowerBoundNode, hfind, enumerateNode_focus hnode.block.arity hposition.le]
      simp only [Bool.false_eq_true, if_false]
      rw [show rank + ((List.range position).map fun index => node.childCount index + 1).sum =
        nextRank from rfl,
          ih (hnode.child position) (searchable_child hnode.block.arity hsearch hposition.le),
        show nextRank = rank + (node.before position).length from
          congrArg (rank + ·) (hnode.sum_preceding hposition.le), filter_append, filter_append,
            hbefore, hafter,
        any_append, any_append, hbeforeAny, hafterAny]
      simp [add_assoc]

theorem CanonicalTree.lowerBoundRank_eq {tree : MerkleSearchTree k v}
    (h : CanonicalTree tree) (hlaw : LawfulPolicy tree.policy) (key : k) :
    lowerBoundRank key tree =
      ((tree.entries.filter fun entry => probeKey tree.policy key entry == .lt).length,
        tree.entries.any fun entry => probeKey tree.policy key entry == .eq) := by
  rw [lowerBoundRank, lowerBoundNode_eq h.root (h.ordered.searchable hlaw key), zero_add]
  rfl

end Durable7.Hamt
