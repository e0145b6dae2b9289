import Durable7.Foundation.Reader
import Durable7.Hamt.MerkleSearchTree.FromList

/-!
# `validateStructure`

The validator recomputes every cached field of every block.  A canonical tree
under a lawful policy passes each of its checks.
-/

namespace Durable7.Hamt

open Foundation List

section

open MerkleNode

variable {k v : Type}

/-- The derived `show`; an argument position adds the parentheses. -/
def showMerkleCodecError (problem : MerkleCodecError) (nested : Bool) : String :=
  let text := "MerkleCodecError \x7bmerkleCodecErrorMessage = " ++
    showString problem.merkleCodecErrorMessage ++ "\x7d"
  if nested then "(" ++ text ++ ")" else text

def showMerkleTreeError : MerkleTreeError → String
  | .MerkleTreeCodecError problem => "MerkleTreeCodecError " ++ showMerkleCodecError problem true
  | .MerkleTreeSizeOverflow => "MerkleTreeSizeOverflow"
  | .IncompatibleMerklePolicy => "IncompatibleMerklePolicy"
  | .InvalidMerkleRepresentation message => "InvalidMerkleRepresentation " ++ showString message

/-! ## The validator -/

structure MerkleSearchTreeStatistics where
  statisticsCount : Nat
  statisticsBlockCount : Nat
  statisticsHeight : Nat
  statisticsMinimumEntriesPerBlock : Nat
  statisticsMaximumEntriesPerBlock : Nat
  statisticsMinimumBlockBytes : Nat
  statisticsMaximumBlockBytes : Nat
  deriving DecidableEq

structure Validation where
  validationCount : Nat
  validationBlocks : Nat
  validationMinimumEntries : Nat
  validationMaximumEntries : Nat
  validationMinimumBytes : Nat
  validationMaximumBytes : Nat

def require (condition : Bool) (message : String) : Except String Unit :=
  rejectIf (condition = false) message

@[simp] theorem require_eq_ok {condition : Bool} {message : String} :
    require condition message = .ok () ↔ condition = true := by
  simp [require]

def strictlyOrdered (policy : MerkleSearchTreePolicy k v) : List k → Bool
  | [] => true
  | [_] => true
  | left :: right :: rest =>
      policy.compareMerkleKeys left right == .lt && strictlyOrdered policy (right :: rest)

def combineValidation (ownEntries ownBytes : Nat) (children : List Validation) : Validation where
  validationCount := ownEntries + (children.map Validation.validationCount).sum
  validationBlocks := 1 + (children.map Validation.validationBlocks).sum
  validationMinimumEntries :=
    (children.map Validation.validationMinimumEntries).foldl min ownEntries
  validationMaximumEntries :=
    (children.map Validation.validationMaximumEntries).foldl max ownEntries
  validationMinimumBytes := (children.map Validation.validationMinimumBytes).foldl min ownBytes
  validationMaximumBytes := (children.map Validation.validationMaximumBytes).foldl max ownBytes

def statisticsFromValidation (rootHeight : Nat) (validation : Validation) :
    MerkleSearchTreeStatistics where
  statisticsCount := validation.validationCount
  statisticsBlockCount := validation.validationBlocks
  statisticsHeight := rootHeight
  statisticsMinimumEntriesPerBlock := validation.validationMinimumEntries
  statisticsMaximumEntriesPerBlock := validation.validationMaximumEntries
  statisticsMinimumBlockBytes := validation.validationMinimumBytes
  statisticsMaximumBlockBytes := validation.validationMaximumBytes

def validateInterval (policy : MerkleSearchTreePolicy k v) (entries : List (MerkleEntry k v))
    (children : List (Option (MerkleNode k v))) (index : Nat) :
    Except String Unit :=
  match children[index]?.join with
  | none => .ok ()
  | some child =>
      let lowerCheck := if index > 0 then
          match entries[index - 1]? with
          | some lower =>
              require (policy.compareMerkleKeys lower.entryKey child.nodeMinimumKey == .lt)
                "Merkle child minimum crosses its lower separator"
          | none => .ok ()
        else .ok ()
      let upperCheck := match entries[index]? with
        | some upper =>
            require (policy.compareMerkleKeys child.nodeMaximumKey upper.entryKey == .lt)
              "Merkle child maximum crosses its upper separator"
        | none => .ok ()
      lowerCheck >>= fun _ => upperCheck

def showCodecError {α : Type} (result : Except MerkleCodecError α) : Except String α :=
  result.mapError fun problem => showMerkleCodecError problem false

def validateEntry (policy : MerkleSearchTreePolicy k v)
    (entry : MerkleEntry k v) : Except String Unit := do
  let keyBytes ← showCodecError (policy.merkleKeyCodec.encodeMerkleValue entry.entryKey)
  let valueBytes ← showCodecError (policy.merkleValueCodec.encodeMerkleValue entry.entryValue)
  require (keyBytes = entry.entryKeyBytes) "Merkle cached key encoding is invalid"
  require (valueBytes = entry.entryValueBytes) "Merkle cached value encoding is invalid"
  require (merkleLevel (hashMerkleKeyBytes policy keyBytes) = entry.entryLevel)
    "Merkle cached key level is invalid"

def validateBounds (policy : MerkleSearchTreePolicy k v)
    (node : MerkleNode k v) : Except String Unit :=
  match node.nodeEntries, node.nodeChildren, node.nodeEntries.reverse,
      node.nodeChildren.reverse with
  | firstEntry :: _, firstChild :: _, lastEntry :: _, lastChild :: _ => do
      require (policy.compareMerkleKeys node.nodeMinimumKey
          (firstChild.elim firstEntry.entryKey nodeMinimumKey) == .eq)
        "Merkle cached minimum key is invalid"
      require (policy.compareMerkleKeys node.nodeMaximumKey
          (lastChild.elim lastEntry.entryKey nodeMaximumKey) == .eq)
        "Merkle cached maximum key is invalid"
  | _, _, _, _ => .error "Merkle block cannot be empty"

def validateNode (policy : MerkleSearchTreePolicy k v) (node : MerkleNode k v) :
    Except String Validation := do
  let entryCount := node.nodeEntries.length
  require (node.nodeLevel ≤ 64) "Merkle block level exceeds 64"
  require (entryCount > 0 && node.nodeChildren.length = entryCount + 1)
    "Merkle block entry/child arity is invalid"
  require (node.nodeEntries.all fun entry => entry.entryLevel == node.nodeLevel)
    "Merkle entry level disagrees with its block"
  require (strictlyOrdered policy (node.nodeEntries.map MerkleEntry.entryKey))
    "Merkle block keys are not strictly ordered"
  require (node.presentChildren.all fun child => child.nodeLevel < node.nodeLevel)
    "Merkle child level does not descend"
  node.nodeEntries.forM (validateEntry policy)
  (List.range (entryCount + 1)).forM (validateInterval policy node.nodeEntries node.nodeChildren)
  let childrenValidation ← node.presentChildren.attach.mapM fun
    | ⟨child, _⟩ => validateNode policy child
  let expectedCount := entryCount + (childrenValidation.map Validation.validationCount).sum
  let expectedHeight := 1 + (node.presentChildren.map nodeHeight).foldl max 0
  let expectedBlocks := 1 + (childrenValidation.map Validation.validationBlocks).sum
  require (node.nodeCount = expectedCount) "Merkle cached subtree count is invalid"
  require (node.nodeHeight = expectedHeight) "Merkle cached height is invalid"
  require (node.nodeBlockCount = expectedBlocks) "Merkle cached block count is invalid"
  let expectedBlock ← (encodeBlock policy node.nodeLevel expectedCount
    node.nodeEntries node.nodeChildren).mapError showMerkleTreeError
  require (node.nodeBlockBytes = expectedBlock) "Merkle block bytes are not canonical"
  require (node.nodeDigest = hashBytes expectedBlock) "Merkle block digest is invalid"
  validateBounds policy node
  .ok (combineValidation entryCount expectedBlock.length childrenValidation)
termination_by sizeOf node
decreasing_by exact sizeOf_lt (mem_presentChildren.mp ‹_›)

def validateStructure (tree : MerkleSearchTree k v) : Except String MerkleSearchTreeStatistics :=
  match tree.treeRoot with
  | none => .ok ⟨0, 0, 0, 0, 0, 0, 0⟩
  | some root => do
      let accumulation ← validateNode tree.policy root
      if accumulation.validationCount ≠ tree.size ∨
          accumulation.validationBlocks ≠ tree.blockCount then
        .error "Merkle root metadata disagrees with validated contents"
      else .ok (statisticsFromValidation tree.height accumulation)

variable {policy : MerkleSearchTreePolicy k v}

variable {node : MerkleNode k v}

section

variable (h : CanonicalNode policy node)
include h

theorem CanonicalNode.minimum_eq : ∃ entry rest,
      enumerateNode node = entry :: rest ∧ node.nodeMinimumKey = entry.entryKey := by
  induction h with
  | @intro node block levels children ih =>
      obtain ⟨first, entries, hentries⟩ := exists_cons_of_ne_nil block.nonempty
      obtain ⟨interval, intervals, hintervals⟩ := exists_cons_of_ne_nil
        (l := node.nodeChildren) (by
          intro hnil
          have harity := block.arity
          simp [hnil] at harity)
      have hminimum := block.minimum_eq first interval (by simp [hentries]) (by simp [hintervals])
      rw [enumerateNode_eq, hentries, hintervals, map_cons, interleave_cons]
      cases interval with
      | none => exact ⟨first, _, rfl, hminimum⟩
      | some child =>
          obtain ⟨entry, rest, htraversal, hkey⟩ := ih child (by simp [hintervals])
          rw [enumerateChild_some, htraversal]
          exact ⟨entry, _, rfl, hminimum.trans hkey⟩

theorem CanonicalNode.maximum_eq : ∃ front entry,
      enumerateNode node = front ++ [entry] ∧ node.nodeMaximumKey = entry.entryKey := by
  induction h with
  | @intro node block levels children ih =>
      have harity := block.arity
      obtain ⟨entries, last, hentries⟩ :=
        (eq_nil_or_concat node.nodeEntries).resolve_left block.nonempty
      obtain ⟨intervals, interval, hintervals⟩ :=
        (eq_nil_or_concat node.nodeChildren).resolve_left (by
          intro hnil
          simp [hnil] at harity)
      have hmaximum := block.maximum_eq last interval (by simp [hentries]) (by simp [hintervals])
      have hlast : node.child node.nodeEntries.length = interval := by
        have hlength : intervals.length = node.nodeEntries.length := by
          rw [hintervals] at harity
          simpa using harity
        rw [MerkleNode.child, hintervals, ← hlength]
        simp
      have hfocus := enumerateNode_focus block.arity (Nat.le_refl _)
      rw [hlast, show node.after node.nodeEntries.length = [] by
        simp [MerkleNode.after], append_nil] at hfocus
      cases interval with
      | none =>
          refine ⟨leading entries ((node.nodeChildren.take entries.length).map
            enumerateChild) ++ enumerateChild (node.child entries.length), last,
            ?_, hmaximum⟩
          have hposition : entries.length < node.nodeEntries.length := by simp [hentries]
          have hentry : node.nodeEntries[entries.length]? = some last := by simp [hentries]
          rw [enumerateNode_focus block.arity hposition.le, after_eq_cons block.arity hentry,
            show entries.length + 1 = node.nodeEntries.length by simp [hentries],
            hlast]
          simp [MerkleNode.before, MerkleNode.after, hentries]
      | some child =>
          obtain ⟨front, entry, htraversal, hkey⟩ := ih child (by simp [hintervals])
          rw [enumerateChild_some, htraversal] at hfocus
          exact ⟨_, entry, by rw [hfocus, append_assoc], hmaximum.trans hkey⟩

theorem CanonicalNode.interval_order
    (hsorted : StrictlySorted policy.compareMerkleKeys MerkleEntry.entryKey
      (enumerateNode node)) {position : Nat} (hposition : position ≤ node.nodeEntries.length) :
    (∀ lower, node.nodeEntries[position - 1]? = some lower → 0 < position →
      ∀ entry ∈ enumerateChild (node.child position),
        policy.compareMerkleKeys lower.entryKey entry.entryKey = .lt) ∧
    (∀ upper, node.nodeEntries[position]? = some upper →
      ∀ entry ∈ enumerateChild (node.child position),
        policy.compareMerkleKeys entry.entryKey upper.entryKey = .lt) := by
  have harity := h.block.arity
  rw [enumerateNode_focus h.block.arity hposition, StrictlySorted,
    pairwise_append, pairwise_append] at hsorted
  refine ⟨fun lower hlower hpos entry hentry => ?_, fun upper hupper entry hentry => ?_⟩
  · refine hsorted.1.2.2 lower (mem_leading_of_mem (by simp; omega) ?_) entry hentry
    obtain ⟨hlt, rfl⟩ := List.getElem?_eq_some_iff.mp hlower
    exact mem_take_iff_getElem.mpr ⟨position - 1, by omega, rfl⟩
  · refine hsorted.2.2 entry (by simp [hentry]) upper (mem_trailing_of_mem (by simp; omega) ?_)
    obtain ⟨hlt, rfl⟩ := List.getElem?_eq_some_iff.mp hupper
    exact mem_drop_iff_getElem.mpr ⟨0, by omega, by simp⟩

end

theorem BlockInvariant.nodeEntries_sublist (h : BlockInvariant policy node) :
    node.nodeEntries.Sublist (enumerateNode node) := by
  rw [enumerateNode_eq]
  exact separators_sublist (by simp [h.arity])

theorem BlockInvariant.child_sublist {child : MerkleNode k v} (h : BlockInvariant policy node)
    (hchild : some child ∈ node.nodeChildren) :
    (enumerateNode child).Sublist (enumerateNode node) := by
  rw [enumerateNode_eq node]
  apply segment_sublist
  · simp [h.arity]
  · exact mem_map.mpr ⟨some child, hchild, rfl⟩

theorem strictlyOrdered_of_sorted {keys : List k} (h : keys.Pairwise fun left right =>
      policy.compareMerkleKeys left right = .lt) :
    strictlyOrdered policy keys = true := by
  induction keys with
  | nil => rfl
  | cons left keys ih =>
      cases keys with
      | nil => rfl
      | cons right rest =>
          obtain ⟨hleft, hrest⟩ := pairwise_cons.mp h
          simp [strictlyOrdered, hleft right (by simp), ih hrest]

theorem validateEntry_eq_ok {entry : MerkleEntry k v}
    (h : ValidEntry policy entry) : validateEntry policy entry = .ok () := by
  simp [validateEntry, showCodecError, Except.mapError, h.keyBytes, h.valueBytes,
    h.level_eq, require, rejectIf]

theorem validateInterval_eq_ok (h : CanonicalNode policy node)
    (hsorted : StrictlySorted policy.compareMerkleKeys MerkleEntry.entryKey
      (enumerateNode node)) {position : Nat} (hposition : position ≤ node.nodeEntries.length) :
    validateInterval policy node.nodeEntries node.nodeChildren position = .ok () := by
  obtain ⟨hlower, hupper⟩ := h.interval_order hsorted hposition
  unfold validateInterval
  cases hchild : node.nodeChildren[position]?.join with
  | none => rfl
  | some child =>
      have hinterval : node.child position = some child := hchild
      have hcanonical := h.children child (child_eq_some hinterval)
      rw [hinterval, enumerateChild_some] at hlower hupper
      obtain ⟨first, rest, hfirst, hminimum⟩ := hcanonical.minimum_eq
      obtain ⟨front, last, hlast, hmaximum⟩ := hcanonical.maximum_eq
      simp only
      rw [bind_eq_ok]
      refine ⟨(), ?_, ?_⟩
      · split
        · rename_i hpos
          split
          · rename_i lower hentry
            rw [require_eq_ok, hminimum, hlower lower hentry hpos first (by simp [hfirst])]
            rfl
          · rfl
        · rfl
      · split
        · rename_i upper hentry
          rw [require_eq_ok, hmaximum, hupper upper hentry last (by simp [hlast])]
          rfl
        · rfl

theorem validateBounds_eq_ok (hlaw : LawfulPolicy policy) (h : BlockInvariant policy node) :
    validateBounds policy node = .ok () := by
  have := hlaw.compare_total
  have harity := h.arity
  obtain ⟨first, entries, hentries⟩ := exists_cons_of_ne_nil h.nonempty
  obtain ⟨child, children, hchildren⟩ := exists_cons_of_ne_nil
    (l := node.nodeChildren) (by
      intro hnil
      simp [hnil] at harity)
  obtain ⟨last, front, hlast⟩ := exists_cons_of_ne_nil (reverse_ne_nil_iff.mpr h.nonempty)
  obtain ⟨lastChild, frontChildren, hlastChild⟩ := exists_cons_of_ne_nil
    (l := node.nodeChildren.reverse) (by simp [hchildren])
  have hminimum := h.minimum_eq first child (by simp [hentries]) (by simp [hchildren])
  have hmaximum := h.maximum_eq last lastChild
    (by rw [← List.head?_reverse, hlast]; rfl)
    (by rw [← List.head?_reverse, hlastChild]; rfl)
  unfold validateBounds
  rw [hlast, hlastChild, hentries, hchildren]
  simp [← hminimum, ← hmaximum, Std.ReflCmp.compare_self, require, rejectIf]

private theorem forall₂_sum {α β : Type} {f : α → Nat} {g : β → Nat}
    {items : List α} {results : List β}
    (h : List.Forall₂ (fun item result => g result = f item) items results) :
    (results.map g).sum = (items.map f).sum := by
  induction h with
  | nil => rfl
  | cons hhead _ ih => simp [hhead, ih]

theorem validateNode_total (hlaw : LawfulPolicy policy) (h : CanonicalNode policy node)
    (hordered : OrderedEntries policy (enumerateNode node)) :
    ∃ validation, validateNode policy node = .ok validation ∧
      validation.validationCount = node.nodeCount ∧
      validation.validationBlocks = node.nodeBlockCount := by
  induction h with
  | @intro node block levels children ih =>
      have h : CanonicalNode policy node := ⟨block, levels, children⟩
      have hown := hordered.sublist block.nodeEntries_sublist
      have hbelow : ∀ child ∈ node.presentChildren.attach, ∃ validation,
          validateNode policy child.1 = .ok validation ∧
            validation.validationCount = child.1.nodeCount ∧
            validation.validationBlocks = child.1.nodeBlockCount := by
        rintro ⟨child, hchild⟩ -
        have hmem := mem_presentChildren.mp hchild
        exact ih child hmem (hordered.sublist (block.child_sublist hmem))
      obtain ⟨results, hresults, hforall⟩ := exists_mapM_eq_ok hbelow
      have hcounts : (results.map Validation.validationCount).sum =
          (node.presentChildren.map nodeCount).sum := by
        rw [forall₂_sum (hforall.imp fun _ _ hr => hr.1),
          ← attach_map_subtype_val node.presentChildren, map_map]
        simp [Function.comp_def]
      have hblocks : (results.map Validation.validationBlocks).sum =
          (node.presentChildren.map nodeBlockCount).sum := by
        rw [forall₂_sum (hforall.imp fun _ _ hr => hr.2),
          ← attach_map_subtype_val node.presentChildren, map_map]
        simp [Function.comp_def]
      have hencode : encodeBlock policy node.nodeLevel node.nodeCount
          node.nodeEntries node.nodeChildren = .ok node.nodeBlockBytes :=
        encodeBlock_eq_ok.mpr ⟨block.lengths, block.bytes_eq⟩
      have hentries : node.nodeEntries.forM (validateEntry policy) = .ok () :=
        forM_eq_ok.mpr fun entry hentry => validateEntry_eq_ok (hown.valid entry hentry)
      have hintervals : (List.range (node.nodeEntries.length + 1)).forM
          (validateInterval policy node.nodeEntries node.nodeChildren) = .ok () :=
        forM_eq_ok.mpr fun position hposition =>
          validateInterval_eq_ok h hordered.sorted (Nat.le_of_lt_succ (mem_range.mp hposition))
      have hpass : ∀ {condition : Bool} {message : String},
          condition = true → require condition message = .ok () :=
        require_eq_ok.mpr
      refine ⟨combineValidation node.nodeEntries.length
        node.nodeBlockBytes.length results, ?_, ?_, ?_⟩
      · rw [validateNode]
        simp only
        rw [hpass (by simpa using block.level_le), except_ok_bind,
          hpass (by simp [block.arity, length_pos_iff.mpr block.nonempty]),
          except_ok_bind,
          hpass (by simpa using levels), except_ok_bind,
          hpass (strictlyOrdered_of_sorted (by
            rw [pairwise_map]
            exact hown.sorted)), except_ok_bind,
          hpass (by simpa using block.child_level), except_ok_bind,
          hentries, except_ok_bind, hintervals, except_ok_bind, hresults,
          except_ok_bind, hcounts, hblocks, ← block.count_eq,
          ← block.height_eq, ← block.blockCount_eq]
        rw [hpass (by simp), except_ok_bind, hpass (by simp), except_ok_bind,
          hpass (by simp), except_ok_bind, hencode]
        simp only [Except.mapError]
        rw [except_ok_bind, hpass (by simp), except_ok_bind,
          hpass (by simpa using block.digest_eq), except_ok_bind,
          validateBounds_eq_ok hlaw block, except_ok_bind]
      · rw [combineValidation, block.count_eq, hcounts]
      · rw [combineValidation, block.blockCount_eq, hblocks]

theorem validateStructure_total {tree : MerkleSearchTree k v}
    (hlaw : LawfulPolicy tree.policy) (h : CanonicalTree tree) :
    ∃ statistics, validateStructure tree = .ok statistics ∧
      statistics.statisticsCount = tree.size ∧
      statistics.statisticsBlockCount = tree.blockCount ∧
      statistics.statisticsHeight = tree.height := by
  obtain ⟨root, policy⟩ := tree
  cases root with
  | none => exact ⟨_, rfl, rfl, rfl, rfl⟩
  | some node =>
      have hroot := canonicalChild_some.mp h.root
      have hordered : OrderedEntries policy (enumerateNode node) := h.ordered
      obtain ⟨validation, hvalid, hcount, hblocks⟩ := validateNode_total hlaw hroot hordered
      refine ⟨statisticsFromValidation node.nodeHeight validation, ?_, hcount, hblocks, rfl⟩
      rw [validateStructure]
      simp only [hvalid, except_ok_bind]
      exact if_neg (by
        rw [hcount, hblocks]
        simp [MerkleSearchTree.size, MerkleSearchTree.blockCount])

end

/-!
## Inclusive ranges

A range visit prunes every block whose cached key interval misses the range.  On
a canonical tree it returns exactly the entries of the traversal in the range.
-/

variable {k v : Type} {policy : MerkleSearchTreePolicy k v}

theorem CanonicalNode.bounds {node : MerkleNode k v} (hlaw : LawfulPolicy policy)
    (h : CanonicalNode policy node)
    (hsorted : StrictlySorted policy.compareMerkleKeys MerkleEntry.entryKey
      (enumerateNode node)) : ∀ entry ∈ enumerateNode node,
    (policy.compareMerkleKeys node.nodeMinimumKey entry.entryKey).isLE ∧
      (policy.compareMerkleKeys entry.entryKey node.nodeMaximumKey).isLE := by
  have := hlaw.compare_total
  have hself : ∀ key, policy.compareMerkleKeys key key = .eq := fun key => Std.ReflCmp.compare_self
  obtain ⟨first, rest, hfirst, hminimum⟩ := h.minimum_eq
  obtain ⟨front, last, hlast, hmaximum⟩ := h.maximum_eq
  intro entry hentry
  constructor
  · rw [hfirst, StrictlySorted, pairwise_cons] at hsorted
    rw [hminimum]
    rcases mem_cons.mp (hfirst ▸ hentry) with rfl | hrest
    · rw [hself]
      rfl
    · rw [hsorted.1 entry hrest]
      rfl
  · rw [hlast, StrictlySorted, pairwise_append] at hsorted
    rw [hmaximum]
    rcases mem_append.mp (hlast ▸ hentry) with hfront | hentry
    · rw [hsorted.2.2 entry hfront last (by simp)]
      rfl
    · rw [mem_singleton.mp hentry, hself]
      rfl

variable {maximumKey minimumKey : k}

theorem inRange_eq_false_of_lt (hlaw : LawfulPolicy policy) {entry : MerkleEntry k v}
    (h : policy.compareMerkleKeys entry.entryKey minimumKey = .lt) :
    inRange policy minimumKey maximumKey entry = false := by
  have := hlaw.compare_total
  simp [inRange, Std.OrientedCmp.gt_of_lt h]

theorem inRange_eq_false_of_gt {entry : MerkleEntry k v}
    (h : policy.compareMerkleKeys entry.entryKey maximumKey = .gt) :
    inRange policy minimumKey maximumKey entry = false := by
  simp [inRange, h]

theorem visitRange_eq (hlaw : LawfulPolicy policy) {node : MerkleNode k v}
    (h : CanonicalNode policy node)
    (hsorted : StrictlySorted policy.compareMerkleKeys MerkleEntry.entryKey (enumerateNode node)) :
    visitRange policy minimumKey maximumKey node =
      (enumerateNode node).filter (inRange policy minimumKey maximumKey) := by
  have := hlaw.compare_total
  induction node using MerkleNode.childInduction with
  | step node ih =>
      have hbounds := h.bounds hlaw hsorted
      rw [visitRange]
      split
      · rename_i hbelow
        refine (filter_eq_nil_iff.mpr fun entry hentry => ?_).symm
        have hlt := Std.TransCmp.lt_of_isLE_of_lt (hbounds entry hentry).2 hbelow
        simp [inRange_eq_false_of_lt hlaw hlt]
      split
      · rename_i habove
        refine (filter_eq_nil_iff.mpr fun entry hentry => ?_).symm
        have hlt := Std.TransCmp.lt_of_lt_of_isLE (Std.OrientedCmp.lt_of_gt habove)
          (hbounds entry hentry).1
        simp [inRange_eq_false_of_gt (Std.OrientedCmp.gt_of_lt hlt)]
      · have hvisited : ∀ visit : {child // child ∈ node.nodeChildren} → List (MerkleEntry k v),
            (∀ child, visit child = (enumerateChild child.1).filter
              (inRange policy minimumKey maximumKey)) →
            node.nodeChildren.attach.map visit =
              (node.nodeChildren.map enumerateChild).map
                (List.filter (inRange policy minimumKey maximumKey)) := by
          intro visit hvisit
          conv_rhs => rw [← attach_map_subtype_val node.nodeChildren, map_map, map_map]
          exact map_congr_left fun child _ => hvisit child
        simp only
        rw [hvisited, enumerateNode_eq, filter_interleave]
        rintro ⟨child, hchild⟩
        cases child with
        | none => rfl
        | some child =>
            exact ih child hchild (h.children child hchild)
              (List.Pairwise.sublist (h.block.child_sublist hchild) hsorted)

theorem CanonicalTree.range_eq {tree : MerkleSearchTree k v} (h : CanonicalTree tree)
    (hlaw : LawfulPolicy tree.policy)
    (horder : tree.policy.compareMerkleKeys minimumKey maximumKey ≠ .gt) :
    range minimumKey maximumKey tree =
      .ok (tree.entries.filter (inRange tree.policy minimumKey maximumKey)) := by
  obtain ⟨root, policy⟩ := tree
  rw [range, if_neg horder]
  cases root with
  | none => rfl
  | some root =>
      simp only [Option.elim_some, MerkleSearchTree.entries]
      rw [visitRange_eq hlaw (canonicalChild_some.mp h.root) h.ordered.sorted]

end Durable7.Hamt
