import Durable7.Hamt.MerkleSearchTree.Operations

/-!
# The canonical-block invariant

`BlockInvariant` is what a block built by `newNode` satisfies, cached metadata
and bytes included; a `CanonicalNode` satisfies it throughout its subtree, with
every entry stored at its own level.  Neither mentions key order: order is a
property of the traversal, and the traversal of each edit is known exactly.
-/

namespace Durable7.Hamt

open Foundation MerkleNode

variable {k v : Type}

structure BlockInvariant (policy : MerkleSearchTreePolicy k v) (node : MerkleNode k v) : Prop where
  level_le : node.nodeLevel ≤ 64
  nonempty : node.nodeEntries ≠ []
  arity : node.nodeChildren.length = node.nodeEntries.length + 1
  child_level : ∀ child, some child ∈ node.nodeChildren → child.nodeLevel < node.nodeLevel
  count_eq : node.nodeCount = node.nodeEntries.length + (node.presentChildren.map nodeCount).sum
  count_le : node.nodeCount ≤ maxInt32
  height_eq : node.nodeHeight = 1 + (node.presentChildren.map nodeHeight).foldl max 0
  blockCount_eq : node.nodeBlockCount = 1 + (node.presentChildren.map nodeBlockCount).sum
  lengths : ∀ entry ∈ node.nodeEntries,
    entry.entryKeyBytes.length ≤ maxInt32 ∧ entry.entryValueBytes.length ≤ maxInt32
  bytes_eq : node.nodeBlockBytes =
    blockBytes policy.merkleDomainDigest node.nodeLevel node.nodeCount
      (node.nodeEntries.map MerkleEntry.encoded)
      (node.nodeChildren.map (childDigest policy))
  digest_eq : node.nodeDigest = hashBytes node.nodeBlockBytes
  minimum_eq : ∀ entry child, node.nodeEntries.head? = some entry →
    node.nodeChildren.head? = some child →
      node.nodeMinimumKey = child.elim entry.entryKey nodeMinimumKey
  maximum_eq : ∀ entry child, node.nodeEntries.getLast? = some entry →
    node.nodeChildren.getLast? = some child →
      node.nodeMaximumKey = child.elim entry.entryKey nodeMaximumKey

@[simp] theorem checkEntryLength_eq_ok {entry : MerkleEntry k v} :
    checkEntryLength entry = .ok () ↔
      entry.entryKeyBytes.length ≤ maxInt32 ∧ entry.entryValueBytes.length ≤ maxInt32 := by
  unfold checkEntryLength
  split
  · simp
    omega
  split
  · simp
    omega
  · simp
    omega

variable {policy : MerkleSearchTreePolicy k v}

theorem encodeBlock_eq_ok {level : UInt8} {subtreeCount : Nat} {entries : List (MerkleEntry k v)}
    {children : List (Option (MerkleNode k v))} {bytes : ByteString} :
    encodeBlock policy level subtreeCount entries children = .ok bytes ↔
      (∀ entry ∈ entries, entry.entryKeyBytes.length ≤ maxInt32 ∧
        entry.entryValueBytes.length ≤ maxInt32) ∧
      bytes = blockBytes policy.merkleDomainDigest level subtreeCount
        (entries.map MerkleEntry.encoded)
        (children.map (childDigest policy)) := by
  rw [encodeBlock, bind_eq_ok]
  constructor
  · rintro ⟨⟨⟩, hcheck, hbytes⟩
    cases hbytes
    exact ⟨fun entry hentry => checkEntryLength_eq_ok.mp (forM_eq_ok.mp hcheck entry hentry), rfl⟩
  · rintro ⟨hlengths, rfl⟩
    exact ⟨⟨⟩, forM_eq_ok.mpr fun entry hentry =>
      checkEntryLength_eq_ok.mpr (hlengths entry hentry), rfl⟩

variable {node : MerkleNode k v}

theorem newNode_eq_ok {level : UInt8} {entries : List (MerkleEntry k v)}
    {children : List (Option (MerkleNode k v))} :
    newNode policy level entries children = .ok node ↔
      BlockInvariant policy node ∧ node.nodeLevel = level ∧
        node.nodeEntries = entries ∧ node.nodeChildren = children := by
  constructor
  · intro h
    unfold newNode at h
    simp only at h
    split at h
    · cases h
    rename_i harity
    split at h
    · cases h
    rename_i hlevels
    split at h
    · cases h
    rename_i hcount
    rw [bind_eq_ok] at h
    obtain ⟨bytes, hbytes, h⟩ := h
    obtain ⟨hlengths, rfl⟩ := encodeBlock_eq_ok.mp hbytes
    simp only [not_or, ne_eq, not_not] at harity hcount
    simp only [not_exists, not_and, List.mem_filterMap, id] at hlevels
    split at h
    · rename_i hre hrc
      cases h
      refine ⟨⟨UInt8.not_lt.mp harity.1, harity.2.1, harity.2.2, ?_, rfl,
        Nat.not_lt.mp hcount.1, rfl, rfl, hlengths, rfl, rfl, ?_, ?_⟩,
        rfl, rfl, rfl⟩
      · intro below hbelow
        exact UInt8.not_le.mp (hlevels below ⟨some below, hbelow, rfl⟩)
      · rintro _ _ ⟨⟩ ⟨⟩
        rfl
      · intro final finalChild hfinal hfinalChild
        rw [← List.head?_reverse] at hfinal hfinalChild
        simp only [hre, List.head?_cons, Option.some.injEq] at hfinal
        simp only [hrc, List.head?_cons, Option.some.injEq] at hfinalChild
        subst hfinal hfinalChild
        rfl
    · cases h
  · rintro ⟨hinv, rfl, rfl, rfl⟩
    have harity := hinv.arity
    have hcount := hinv.count_le
    have hcountEq := hinv.count_eq
    have hchildren : ¬ ∃ child ∈ node.nodeChildren.filterMap id,
        child.nodeLevel ≥ node.nodeLevel := by
      rintro ⟨child, hmem, hge⟩
      have := hinv.child_level child (by simpa using hmem)
      exact absurd hge (by simpa using this)
    have hencode : encodeBlock policy node.nodeLevel node.nodeCount
        node.nodeEntries node.nodeChildren = .ok node.nodeBlockBytes :=
      encodeBlock_eq_ok.mpr ⟨hinv.lengths, hinv.bytes_eq⟩
    unfold newNode
    simp only
    have hlevel := hinv.level_le
    rw [if_neg (by simp [hlevel, hinv.nonempty, harity]), if_neg hchildren]
    simp only [presentChildren] at hcountEq
    rw [if_neg (by omega), ← hcountEq, hencode]
    obtain ⟨entry, entries, hentries⟩ := List.exists_cons_of_ne_nil hinv.nonempty
    obtain ⟨child, children, hchildrenList⟩ := List.exists_cons_of_ne_nil
      (l := node.nodeChildren) (by
        intro hnil
        simp [hnil] at harity)
    obtain ⟨lastEntry, frontEntries, hlastEntry⟩ := List.exists_cons_of_ne_nil
      (List.reverse_ne_nil_iff.mpr hinv.nonempty)
    obtain ⟨lastChild, frontChildren, hlastChild⟩ := List.exists_cons_of_ne_nil
      (l := node.nodeChildren.reverse) (by simp [hchildrenList])
    have hmin := hinv.minimum_eq entry child (by simp [hentries]) (by simp [hchildrenList])
    have hmax := hinv.maximum_eq lastEntry lastChild
      (by rw [← List.head?_reverse, hlastEntry]; rfl)
      (by rw [← List.head?_reverse, hlastChild]; rfl)
    have hheight := hinv.height_eq
    have hblocks := hinv.blockCount_eq
    have hdigest := hinv.digest_eq
    simp only [presentChildren] at hheight hblocks
    rw [except_ok_bind, hlastEntry, hlastChild, ← hheight, ← hblocks, ← hdigest]
    cases node with
    | mk level nodeEntries nodeChildren =>
        simp only at hentries hchildrenList hmin hmax
        subst hentries hchildrenList hmin hmax
        rfl

/-! ## Canonical subtrees -/

inductive CanonicalNode (policy : MerkleSearchTreePolicy k v) : MerkleNode k v → Prop where
  | intro {node : MerkleNode k v} (block : BlockInvariant policy node)
      (levels : ∀ entry ∈ node.nodeEntries, entry.entryLevel = node.nodeLevel)
      (children : ∀ child, some child ∈ node.nodeChildren → CanonicalNode policy child) :
      CanonicalNode policy node

/-- Every block of a subtree has one child interval more than entries. -/
inductive Shaped : MerkleNode k v → Prop where
  | intro {node : MerkleNode k v} (arity : node.nodeChildren.length = node.nodeEntries.length + 1)
      (children : ∀ child, some child ∈ node.nodeChildren → Shaped child) : Shaped node

/-- A child interval is canonical when the subtree in it, if any, is. -/
def CanonicalChild (policy : MerkleSearchTreePolicy k v) (child : Option (MerkleNode k v)) : Prop :=
  ∀ node, child = some node → CanonicalNode policy node

@[simp] theorem canonicalChild_none (policy : MerkleSearchTreePolicy k v) :
    CanonicalChild policy none := fun _ h => by cases h

@[simp] theorem canonicalChild_some :
    CanonicalChild policy (some node) ↔ CanonicalNode policy node :=
  ⟨fun h => h node rfl, fun h _ heq => by cases heq; exact h⟩

namespace CanonicalNode

variable {policy : MerkleSearchTreePolicy k v} {node : MerkleNode k v}

section

variable (h : CanonicalNode policy node)
include h

theorem block : BlockInvariant policy node := by
  cases h
  assumption

theorem levels : ∀ entry ∈ node.nodeEntries, entry.entryLevel = node.nodeLevel := by
  cases h
  assumption

theorem children : ∀ child, some child ∈ node.nodeChildren → CanonicalNode policy child := by
  cases h
  assumption

theorem child (position : Nat) : CanonicalChild policy (node.child position) :=
  fun _ heq => h.children _ (child_eq_some heq)

theorem shaped : Shaped node := by
  induction h with
  | intro block _ _ ih => exact .intro block.arity ih

end

end CanonicalNode

@[simp] theorem enumerateChild_none :
    enumerateChild (none : Option (MerkleNode k v)) = [] := rfl

@[simp] theorem enumerateChild_some (node : MerkleNode k v) :
    enumerateChild (some node) = enumerateNode node := rfl

theorem BlockInvariant.mem_enumerateNode (h : BlockInvariant policy node)
    {entry : MerkleEntry k v} :
    entry ∈ enumerateNode node ↔
      entry ∈ node.nodeEntries ∨
        ∃ child, some child ∈ node.nodeChildren ∧ entry ∈ enumerateNode child := by
  rw [enumerateNode_eq, mem_interleave (by simp [h.arity])]
  refine or_congr_right ⟨?_, ?_⟩
  · rintro ⟨segment, hsegment, hentry⟩
    obtain ⟨child, hchild, rfl⟩ := List.mem_map.mp hsegment
    cases child with
    | none => simp at hentry
    | some child => exact ⟨child, hchild, hentry⟩
  · rintro ⟨child, hchild, hentry⟩
    exact ⟨_, List.mem_map_of_mem hchild, hentry⟩

theorem CanonicalNode.entryLevel_le (h : CanonicalNode policy node) :
    ∀ entry ∈ enumerateNode node, entry.entryLevel ≤ node.nodeLevel := by
  induction h with
  | intro block levels children ih =>
      intro entry hentry
      rcases block.mem_enumerateNode.mp hentry with hown | ⟨child, hchild, hbelow⟩
      · rw [levels entry hown]
        exact UInt8.le_refl _
      · have h₁ := ih child hchild entry hbelow
        have h₂ := block.child_level child hchild
        rw [UInt8.le_iff_toNat_le] at h₁ ⊢
        rw [UInt8.lt_iff_toNat_lt] at h₂
        omega

theorem CanonicalNode.entryLevel_lt_of_child {node child : MerkleNode k v}
    (h : CanonicalNode policy node) (hchild : some child ∈ node.nodeChildren) :
    ∀ entry ∈ enumerateNode child, entry.entryLevel < node.nodeLevel := by
  intro entry hentry
  have h₁ := (h.children child hchild).entryLevel_le entry hentry
  have h₂ := h.block.child_level child hchild
  rw [UInt8.le_iff_toNat_le] at h₁
  rw [UInt8.lt_iff_toNat_lt] at h₂ ⊢
  omega

theorem CanonicalNode.enumerateNode_ne_nil
    (h : CanonicalNode policy node) : enumerateNode node ≠ [] := by
  obtain ⟨entry, hentry⟩ := List.exists_mem_of_ne_nil _ h.block.nonempty
  exact List.ne_nil_of_mem (h.block.mem_enumerateNode.mpr (.inl hentry))

theorem sum_nodeCount {intervals : List (Option (MerkleNode k v))}
    (hcounts : ∀ child, some child ∈ intervals → child.nodeCount = (enumerateNode child).length) :
    ((intervals.filterMap id).map nodeCount).sum =
      ((intervals.map enumerateChild).map List.length).sum := by
  induction intervals with
  | nil => rfl
  | cons interval intervals ih =>
      have hrest := ih fun child hchild => hcounts child (by simp [hchild])
      cases interval with
      | none => simpa using hrest
      | some child =>
          have hcount := hcounts child (by simp)
          simp only [id, List.filterMap_cons, List.map_cons, List.sum_cons,
            enumerateChild_some, hcount]
          rw [← hrest]
          rfl

theorem CanonicalNode.nodeCount_eq (h : CanonicalNode policy node) :
    node.nodeCount = (enumerateNode node).length := by
  induction h with
  | @intro node block levels children ih =>
      rw [enumerateNode_eq, length_interleave (by simp [block.arity]),
        block.count_eq, presentChildren, sum_nodeCount ih]

namespace MerkleNode

/-- The traversal in front of a child interval. -/
def before (node : MerkleNode k v) (position : Nat) : List (MerkleEntry k v) :=
  leading (node.nodeEntries.take position) ((node.nodeChildren.take position).map enumerateChild)

/-- The traversal behind a child interval. -/
def after (node : MerkleNode k v) (position : Nat) : List (MerkleEntry k v) :=
  trailing (node.nodeEntries.drop position)
    ((node.nodeChildren.drop (position + 1)).map enumerateChild)

end MerkleNode

section Focus

variable {policy : MerkleSearchTreePolicy k v} {node : MerkleNode k v} {position : Nat}

section

variable (harity : node.nodeChildren.length = node.nodeEntries.length + 1)
include harity

section

variable (hposition : position ≤ node.nodeEntries.length)
include hposition

theorem nodeChildren_eq :
    node.nodeChildren = node.nodeChildren.take position ++
      node.child position :: node.nodeChildren.drop (position + 1) := by
  have hlt : position < node.nodeChildren.length := by
    rw [harity]
    omega
  have hchild : node.child position = node.nodeChildren[position] := by simp [child, hlt]
  rw [hchild, ← List.drop_eq_getElem_cons, List.take_append_drop]

theorem traversal_replaceAt (child : Option (MerkleNode k v)) :
    interleave node.nodeEntries ((replaceAt position child node.nodeChildren).map enumerateChild) =
      node.before position ++ enumerateChild child ++ node.after position := by
  conv_lhs => rw [← List.take_append_drop position node.nodeEntries]
  rw [replaceAt, List.append_assoc, List.map_append, List.singleton_append, List.map_cons]
  refine interleave_split ?_ ?_ _
  · simp
    omega
  · simp
    omega

theorem enumerateNode_focus :
    enumerateNode node = node.before position ++
      enumerateChild (node.child position) ++ node.after position := by
  rw [enumerateNode_eq, ← traversal_replaceAt harity hposition, replaceAt,
    List.append_assoc, List.singleton_append, ← nodeChildren_eq harity hposition]

end

theorem after_eq_cons
    {entry : MerkleEntry k v} (hentry : node.nodeEntries[position]? = some entry) :
    node.after position = entry ::
      (enumerateChild (node.child (position + 1)) ++ node.after (position + 1)) := by
  obtain ⟨hlt, rfl⟩ := List.getElem?_eq_some_iff.mp hentry
  have hlt' : position + 1 < node.nodeChildren.length := by
    rw [harity]
    omega
  rw [after, List.drop_eq_getElem_cons hlt,
    List.drop_eq_getElem_cons hlt', List.map_cons, trailing_cons]
  simp [after, child, hlt']

theorem findPosition_spec
    {key : k} (hsearch : Searchable (probeKey policy key) (enumerateNode node)) {found : Bool}
    (hfind : findPosition policy node.nodeEntries key = (position, found)) :
    IsPosition (probeKey policy key) node.nodeEntries position found ∧
      (∀ entry ∈ node.before position, probeKey policy key entry = .lt) ∧
      (∀ entry ∈ node.after position, probeKey policy key entry ≠ .lt) ∧
      (found = false → ∀ entry ∈ node.after position, probeKey policy key entry = .gt) := by
  have hsublist : node.nodeEntries.Sublist (enumerateNode node) := by
    rw [enumerateNode_eq]
    exact separators_sublist (by simp [harity])
  have hown : Searchable (probeKey policy key) node.nodeEntries :=
    List.Pairwise.sublist hsublist hsearch
  have hpos := binarySearch_isPosition hown 0 node.nodeEntries.length
    (Nat.le_refl _) (Nat.zero_le _) (by simp) (by simp)
  rw [findPosition] at hfind
  rw [hfind] at hpos
  rw [enumerateNode_focus harity hpos.le] at hsearch
  simp only [Searchable, List.pairwise_append] at hsearch
  refine ⟨hpos, ?_, ?_, ?_⟩
  · refine forall_mem_leading (fun earlier later hrel hlt => ?_) hsearch.1.1 hpos.below
    by_contra hne
    rw [hrel hne] at hlt
    cases hlt
  · refine forall_mem_trailing (fun earlier later hrel hge => ?_) hsearch.2.1 hpos.notBelow
    rw [hrel hge]
    simp
  · rintro rfl
    refine forall_mem_trailing (fun earlier later hrel hgt => ?_) hsearch.2.1 (hpos.above hown)
    exact hrel (by rw [hgt]; simp)

end

end Focus

end Durable7.Hamt
