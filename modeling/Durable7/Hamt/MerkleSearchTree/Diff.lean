import Durable7.Hamt.MerkleSearchTree.OrderedMap

/-!
# Digest-pruned differences

The difference of two trees walks them together.  It prunes subtrees with equal
digests, descends where the separators of two blocks agree, and merges the flat
traversals elsewhere.  All three give what the merge of the full entry lists gives.
-/

namespace Durable7.Hamt

open Foundation List MerkleEntry MerkleSearchTree MapOperation
open Std.TransCmp Std.OrientedCmp Std.ReflCmp

variable {k v : Type}

/-- A semantic key-level map difference. -/
inductive MerkleMapDifference (k v : Type) where
  | MerkleEntryAdded (key : k) (value : v)
  | MerkleEntryRemoved (key : k) (value : v)
  | MerkleEntryChanged (key : k) (oldValue newValue : v)

namespace MerkleMapDifference

def added (entry : MerkleEntry k v) : MerkleMapDifference k v :=
  .MerkleEntryAdded entry.entryKey entry.entryValue

def removed (entry : MerkleEntry k v) : MerkleMapDifference k v :=
  .MerkleEntryRemoved entry.entryKey entry.entryValue

/-- The difference of two entries under equivalent keys. -/
def changed (valuesEqual : v → v → Bool) (oldEntry newEntry : MerkleEntry k v) :
    List (MerkleMapDifference k v) :=
  if valuesEqual oldEntry.entryValue newEntry.entryValue then []
  else [.MerkleEntryChanged oldEntry.entryKey oldEntry.entryValue newEntry.entryValue]

end MerkleMapDifference

open MerkleMapDifference

section Definitions

variable (policy : MerkleSearchTreePolicy k v) (valuesEqual : v → v → Bool)

def sameSeparators (leftNode rightNode : MerkleNode k v) : Bool :=
  leftNode.nodeLevel == rightNode.nodeLevel &&
    leftNode.nodeEntries.length == rightNode.nodeEntries.length &&
    (leftNode.nodeEntries.zip rightNode.nodeEntries).all fun pair =>
      policy.compareMerkleKeys pair.1.entryKey pair.2.entryKey == .eq

/-- The ordered `merge` of two entry lists. -/
def mergeDifferences : List (MerkleEntry k v) → List (MerkleEntry k v) →
    List (MerkleMapDifference k v)
  | [], remainingRight => remainingRight.map added
  | remainingLeft, [] => remainingLeft.map removed
  | leftEntry :: leftRest, rightEntry :: rightRest =>
      match policy.compareMerkleKeys leftEntry.entryKey rightEntry.entryKey with
      | .lt => removed leftEntry :: mergeDifferences leftRest (rightEntry :: rightRest)
      | .gt => added rightEntry :: mergeDifferences (leftEntry :: leftRest) rightRest
      | .eq => changed valuesEqual leftEntry rightEntry ++ mergeDifferences leftRest rightRest
termination_by left right => left.length + right.length

/-- The difference of the separators at an index. -/
def changedAt (leftNode rightNode : MerkleNode k v) (index : Nat) :
    List (MerkleMapDifference k v) :=
  match leftNode.nodeEntries[index]?, rightNode.nodeEntries[index]? with
  | some oldEntry, some newEntry => changed valuesEqual oldEntry newEntry
  | _, _ => []

def diffNodes : Option (MerkleNode k v) → Option (MerkleNode k v) → List (MerkleMapDifference k v)
  | none, none => []
  | some leftNode, some rightNode =>
      if leftNode.nodeDigest = rightNode.nodeDigest then []
      else if sameSeparators policy leftNode rightNode then
        ((List.range leftNode.nodeEntries.length).flatMap fun index =>
          diffNodes (leftNode.child index) (rightNode.child index) ++
            changedAt valuesEqual leftNode rightNode index) ++
          diffNodes (leftNode.child leftNode.nodeEntries.length)
            (rightNode.child leftNode.nodeEntries.length)
      else mergeDifferences policy valuesEqual (enumerateNode leftNode) (enumerateNode rightNode)
  | none, some rightNode => (enumerateNode rightNode).map added
  | some leftNode, none => (enumerateNode leftNode).map removed
termination_by left => sizeOf left
decreasing_by all_goals exact leftNode.sizeOf_child_lt _

end Definitions

def diffWith (valuesEqual : v → v → Bool) (left right : MerkleSearchTree k v) :
    Except MerkleTreeError (List (MerkleMapDifference k v)) :=
  if ¬ compatibleMerklePolicies left.policy right.policy then .error .IncompatibleMerklePolicy
  else .ok (diffNodes left.policy valuesEqual left.treeRoot right.treeRoot)

def mapEqualsWith (valuesEqual : v → v → Bool) (left right : MerkleSearchTree k v) : Bool :=
  if left.size ≠ right.size then false
  else if left.policy.merkleDomainDigest ≠ right.policy.merkleDomainDigest then false
  else
    (left.entries.zip right.entries).all fun pair =>
      left.policy.compareMerkleKeys pair.1.entryKey pair.2.entryKey == .eq &&
        valuesEqual pair.1.entryValue pair.2.entryValue

/-! ## Merges of segments -/

variable {entries : List (MerkleEntry k v)} {entry : MerkleEntry k v} {inputs : Set ByteString}
  {pairs : List (k × v)}

section Merge

variable {policy : MerkleSearchTreePolicy k v} {valuesEqual : v → v → Bool}

@[simp] theorem mergeDifferences_nil_left (right : List (MerkleEntry k v)) :
    mergeDifferences policy valuesEqual [] right = right.map added := by
  rw [mergeDifferences]

@[simp] theorem mergeDifferences_nil_right (left : List (MerkleEntry k v)) :
    mergeDifferences policy valuesEqual left [] = left.map removed := by
  cases left <;> simp [mergeDifferences]

section Step

variable {leftEntry rightEntry : MerkleEntry k v} {leftRest rightRest : List (MerkleEntry k v)}

theorem mergeDifferences_lt
    (h : policy.compareMerkleKeys leftEntry.entryKey rightEntry.entryKey = .lt) :
    mergeDifferences policy valuesEqual (leftEntry :: leftRest) (rightEntry :: rightRest) =
      removed leftEntry ::
        mergeDifferences policy valuesEqual leftRest (rightEntry :: rightRest) := by
  rw [mergeDifferences, h]

theorem mergeDifferences_gt
    (h : policy.compareMerkleKeys leftEntry.entryKey rightEntry.entryKey = .gt) :
    mergeDifferences policy valuesEqual (leftEntry :: leftRest) (rightEntry :: rightRest) =
      added rightEntry ::
        mergeDifferences policy valuesEqual (leftEntry :: leftRest) rightRest := by
  rw [mergeDifferences, h]

theorem mergeDifferences_eq
    (h : policy.compareMerkleKeys leftEntry.entryKey rightEntry.entryKey = .eq) :
    mergeDifferences policy valuesEqual (leftEntry :: leftRest) (rightEntry :: rightRest) =
      changed valuesEqual leftEntry rightEntry ++
        mergeDifferences policy valuesEqual leftRest rightRest := by
  rw [mergeDifferences, h]

end Step

theorem mergeDifferences_append {leftEntry rightEntry : MerkleEntry k v}
    (hsame : policy.compareMerkleKeys leftEntry.entryKey rightEntry.entryKey = .eq)
    (leftRest rightRest left right : List (MerkleEntry k v)) (hleft : ∀ entry ∈ left,
      policy.compareMerkleKeys entry.entryKey rightEntry.entryKey = .lt)
    (hright : ∀ entry ∈ right, policy.compareMerkleKeys leftEntry.entryKey entry.entryKey = .gt) :
    mergeDifferences policy valuesEqual (left ++ leftEntry :: leftRest)
        (right ++ rightEntry :: rightRest) =
      mergeDifferences policy valuesEqual left right ++
        (changed valuesEqual leftEntry rightEntry ++
          mergeDifferences policy valuesEqual leftRest rightRest) := by
  induction left, right using mergeDifferences.induct policy with
  | case1 right =>
      rw [mergeDifferences_nil_left, nil_append]
      induction right with
      | nil => exact mergeDifferences_eq hsame
      | cons entry right ih =>
          rw [cons_append, mergeDifferences_gt (hright entry mem_cons_self),
            ih fun other hother => hright other (mem_cons_of_mem _ hother)]
          rfl
  | case2 left hne =>
      rw [mergeDifferences_nil_right, nil_append]
      clear hne
      induction left with
      | nil => exact mergeDifferences_eq hsame
      | cons entry left ih =>
          rw [cons_append, mergeDifferences_lt (hleft entry mem_cons_self),
            ih fun other hother => hleft other (mem_cons_of_mem _ hother)]
          rfl
  | case3 first left other right hlt ih =>
      rw [cons_append, cons_append, mergeDifferences_lt hlt, mergeDifferences_lt hlt,
        ← cons_append,
        ih (fun entry hentry => hleft entry (mem_cons_of_mem _ hentry)) hright,
        cons_append]
  | case4 first left other right hgt ih =>
      rw [cons_append, cons_append, mergeDifferences_gt hgt, mergeDifferences_gt hgt,
        ← cons_append,
        ih hleft fun entry hentry => hright entry (mem_cons_of_mem _ hentry),
        cons_append]
  | case5 first left other right heq ih =>
      rw [cons_append, cons_append, mergeDifferences_eq heq, mergeDifferences_eq heq,
        ih (fun entry hentry => hleft entry (mem_cons_of_mem _ hentry))
          fun entry hentry => hright entry (mem_cons_of_mem _ hentry),
        append_assoc]

theorem mergeDifferences_of_encoded (hlaw : LawfulPolicy policy)
    (hequal : ∀ one other, encodedValue policy one = encodedValue policy other →
      valuesEqual one other = true) {left right : List (MerkleEntry k v)}
    (hleft : ∀ entry ∈ left, ValidEntry policy entry)
    (hright : ∀ entry ∈ right, ValidEntry policy entry)
    (h : left.map encoded = right.map encoded) :
    mergeDifferences policy valuesEqual left right = [] := by
  induction left generalizing right with
  | nil =>
      rw [map_eq_nil_iff.mp h.symm, mergeDifferences_nil_left]
      rfl
  | cons entry left ih =>
      cases right with
      | nil => cases h
      | cons twin right =>
          rw [map_cons, map_cons, List.cons.injEq] at h
          obtain ⟨hencoded, hrest⟩ := h
          obtain ⟨hkey, hvalue⟩ := Prod.ext_iff.mp hencoded
          have hentry := (hleft entry mem_cons_self).encoded_eq
          have htwin := (hright twin mem_cons_self).encoded_eq
          simp only [encoded] at hkey hvalue
          rw [hentry.1, htwin.1] at hkey
          rw [hentry.2, htwin.2] at hvalue
          rw [mergeDifferences_eq ((hlaw.compare_eq_iff_encodedKey _ _).mpr hkey), changed,
            if_pos (hequal _ _ hvalue), nil_append]
          exact ih (fun other hother => hleft other (mem_cons_of_mem _ hother))
            (fun other hother => hright other (mem_cons_of_mem _ hother)) hrest

theorem sameSeparators_iff {leftNode rightNode : MerkleNode k v}
    (h : sameSeparators policy leftNode rightNode = true) :
    leftNode.nodeEntries.length = rightNode.nodeEntries.length ∧
      ∀ (index : Nat) (leftEntry rightEntry : MerkleEntry k v),
        leftNode.nodeEntries[index]? = some leftEntry →
        rightNode.nodeEntries[index]? = some rightEntry →
        policy.compareMerkleKeys leftEntry.entryKey rightEntry.entryKey = .eq := by
  rw [sameSeparators, Bool.and_eq_true, Bool.and_eq_true, beq_iff_eq, beq_iff_eq, all_eq_true] at h
  obtain ⟨⟨-, hlength⟩, hall⟩ := h
  refine ⟨hlength, fun index leftEntry rightEntry hleft hright => ?_⟩
  have hmem : (leftEntry, rightEntry) ∈ leftNode.nodeEntries.zip rightNode.nodeEntries := by
    apply mem_of_getElem? (i := index)
    rw [List.getElem?_zip_eq_some]
    exact ⟨hleft, hright⟩
  simpa using hall _ hmem

theorem OrderedNode.child_lt {node : MerkleNode k v} (h : OrderedNode policy node) {index : Nat}
    (hentry : node.nodeEntries[index]? = some entry) :
    ∀ stored ∈ enumerateChild (node.child index),
      policy.compareMerkleKeys stored.entryKey entry.entryKey = .lt := by
  obtain ⟨hindex, -⟩ := List.getElem?_eq_some_iff.mp hentry
  have hsorted := h.ordered.sorted
  rw [enumerateNode_focus h.block.arity hindex.le, after_eq_cons h.block.arity hentry,
    StrictlySorted,
    append_assoc, pairwise_append, pairwise_append] at hsorted
  intro stored hstored
  exact hsorted.2.1.2.2 stored hstored entry mem_cons_self

section Aligned

variable [Std.TransCmp policy.compareMerkleKeys] {leftNode rightNode : MerkleNode k v}
  (hleft : OrderedNode policy leftNode) (hright : OrderedNode policy rightNode)
  (hsame : sameSeparators policy leftNode rightNode = true)

include hleft hright hsame

theorem mergeDifferences_aligned (count : Nat) :
    ∀ index, index + count = leftNode.nodeEntries.length →
      mergeDifferences policy valuesEqual
          (enumerateChild (leftNode.child index) ++ leftNode.after index)
          (enumerateChild (rightNode.child index) ++ rightNode.after index) =
        ((List.range' index count).flatMap fun position =>
          mergeDifferences policy valuesEqual (enumerateChild (leftNode.child position))
              (enumerateChild (rightNode.child position)) ++
            changedAt valuesEqual leftNode rightNode position) ++
          mergeDifferences policy valuesEqual
            (enumerateChild (leftNode.child leftNode.nodeEntries.length))
            (enumerateChild (rightNode.child leftNode.nodeEntries.length)) := by
  obtain ⟨hlength, hseparators⟩ := sameSeparators_iff hsame
  induction count with
  | zero =>
      intro index hindex
      obtain rfl : index = leftNode.nodeEntries.length := hindex
      rw [leftNode.after_length, hlength, rightNode.after_length, append_nil, append_nil]
      rfl
  | succ count ih =>
      intro index hindex
      obtain ⟨leftEntry, hleftEntry⟩ : ∃ entry, leftNode.nodeEntries[index]? = some entry :=
        ⟨_, List.getElem?_eq_getElem (by omega)⟩
      obtain ⟨rightEntry, hrightEntry⟩ : ∃ entry, rightNode.nodeEntries[index]? = some entry :=
        ⟨_, List.getElem?_eq_getElem (by omega)⟩
      have heq := hseparators index leftEntry rightEntry hleftEntry hrightEntry
      have hchanged : changedAt valuesEqual leftNode rightNode index =
          changed valuesEqual leftEntry rightEntry := by
        rw [changedAt, hleftEntry, hrightEntry]
      rw [after_eq_cons hleft.block.arity hleftEntry, after_eq_cons hright.block.arity hrightEntry,
        mergeDifferences_append heq, ih (index + 1) (by omega), range'_succ,
        flatMap_cons, hchanged]
      · simp only [append_assoc]
      · intro entry hentry
        rw [← congr_right heq]
        exact hleft.child_lt hleftEntry entry hentry
      · intro entry hentry
        rw [congr_left heq]
        exact gt_of_lt (hright.child_lt hrightEntry entry hentry)

end Aligned

/-- Blocks of an ordered subtree, all of them among the hashed inputs. -/
structure OrderedInterval (policy : MerkleSearchTreePolicy k v) (inputs : Set ByteString)
    (interval : Option (MerkleNode k v)) : Prop where
  ordered : ∀ node, interval = some node → OrderedNode policy node
  hashed : ∀ node, interval = some node → ∀ below ∈ nodePreorder node, below.nodeBlockBytes ∈ inputs

theorem OrderedInterval.child {node : MerkleNode k v}
    (h : OrderedInterval policy inputs (some node)) (position : Nat) :
    OrderedInterval policy inputs (node.child position) where
  ordered child hchild := (h.ordered node rfl).child (MerkleNode.child_eq_some hchild)
  hashed child hchild below hbelow := h.hashed node rfl below
    (mem_nodePreorder.mpr (.inr ⟨child, MerkleNode.child_eq_some hchild, hbelow⟩))

theorem diffNodes_eq (hlaw : LawfulPolicy policy)
    (hequal : ∀ one other, encodedValue policy one = encodedValue policy other →
      valuesEqual one other = true) (hcollision : CollisionFree inputs)
    (hmanifest : emptyManifest policy.merkleDomainDigest ∈ inputs)
    {left right : Option (MerkleNode k v)} (hleft : OrderedInterval policy inputs left)
    (hright : OrderedInterval policy inputs right) :
    diffNodes policy valuesEqual left right =
      mergeDifferences policy valuesEqual (enumerateChild left) (enumerateChild right) := by
  have := hlaw.compare_total
  induction left, right using diffNodes.induct policy with
  | case1 =>
      rw [diffNodes]
      simp
  | case2 leftNode rightNode hdigest =>
      rw [diffNodes, if_pos hdigest, enumerateChild_some, enumerateChild_some,
        mergeDifferences_of_encoded hlaw hequal (hleft.ordered leftNode rfl).ordered.valid
        (hright.ordered rightNode rfl).ordered.valid]
      exact (hleft.ordered leftNode rfl).encoded_eq_of_digest hcollision hmanifest
        (hright.ordered rightNode rfl) (hleft.hashed leftNode rfl)
        (hright.hashed rightNode rfl) hdigest
  | case3 leftNode rightNode hdigest hsame ihInterval ihLast =>
      have hleftNode := hleft.ordered leftNode rfl
      have hrightNode := hright.ordered rightNode rfl
      rw [diffNodes, if_neg hdigest, if_pos hsame, enumerateChild_some, enumerateChild_some,
        enumerateNode_focus hleftNode.block.arity (Nat.zero_le _),
        enumerateNode_focus hrightNode.block.arity
        (Nat.zero_le _), leftNode.before_zero, rightNode.before_zero, nil_append, nil_append,
        mergeDifferences_aligned hleftNode hrightNode hsame _ 0 (Nat.zero_add _), ihLast
        (hleft.child _) (hright.child _), ← range_eq_range']
      congr 2
      funext position
      rw [ihInterval position (hleft.child position) (hright.child position)]
  | case4 leftNode rightNode hdigest hsame => 
      rw [diffNodes, if_neg hdigest, if_neg hsame]
      rfl
  | case5 rightNode =>
      rw [diffNodes]
      simp
  | case6 leftNode =>
      rw [diffNodes]
      simp

/-! ## Applying a difference -/

/-- The edit of a map that a difference asks for. -/
def MerkleMapDifference.operation : MerkleMapDifference k v → MapOperation k v
  | .MerkleEntryAdded key value => .insert key value
  | .MerkleEntryRemoved key _ => .delete key
  | .MerkleEntryChanged key _ newValue => .insert key newValue

def applyDifferences (compare : k → k → Ordering) (differences : List (MerkleMapDifference k v))
    (pairs : List (k × v)) : List (k × v) :=
  (differences.map operation).foldl (MapOperation.pairs compare) pairs

/-- Equal maps up to the equality of the values. -/
def SamePairs (compare : k → k → Ordering) (valuesEqual : v → v → Bool) :
    List (k × v) → List (k × v) → Prop :=
  List.Forall₂ fun pair twin => compare pair.1 twin.1 = .eq ∧ valuesEqual pair.2 twin.2 = true

/-- Pairs in front of all of the entries. -/
def InFront (compare : k → k → Ordering) (pairs : List (k × v))
    (entries : List (MerkleEntry k v)) : Prop :=
  ∀ pair ∈ pairs, ∀ entry ∈ entries, compare pair.1 entry.entryKey = .lt

theorem InFront.rest {compare : k → k → Ordering} (h : InFront compare pairs (entry :: entries)) :
    InFront compare pairs entries :=
  fun pair hpair other hother => h pair hpair other (mem_cons_of_mem _ hother)

theorem InFront.snoc {compare : k → k → Ordering} (h : InFront compare pairs entries) {pair : k × v}
    (hpair : ∀ entry ∈ entries, compare pair.1 entry.entryKey = .lt) :
    InFront compare (pairs ++ [pair]) entries := by
  intro other hother
  rcases mem_append.mp hother with hother | hother
  · exact h other hother
  · rw [mem_singleton.mp hother]
    exact hpair

section Apply

variable [Std.TransCmp policy.compareMerkleKeys]

theorem erasePair_front (hfront : InFront policy.compareMerkleKeys pairs (entry :: entries))
    (hsorted : StrictlySorted policy.compareMerkleKeys entryKey (entry :: entries)) :
    erasePair policy.compareMerkleKeys entry.entryKey (pairs ++ entry.pair :: entries.map pair) =
      pairs ++ entries.map pair := by
  obtain ⟨hfirst, -⟩ := pairwise_cons.mp hsorted
  apply erasePair_match
  · intro pair hpair
    rw [hfront pair hpair entry mem_cons_self]
    decide
  · exact compare_self
  · intro pair hpair heq
    obtain ⟨other, hother, rfl⟩ := mem_map.mp hpair
    have hlt := hfirst other hother
    rw [pair] at heq
    rw [eq_symm heq] at hlt
    cases hlt

theorem applyDifferences_merge (hrefl : ∀ value, valuesEqual value value = true)
    {left right : List (MerkleEntry k v)}
    (hleft : StrictlySorted policy.compareMerkleKeys entryKey left)
    (hright : StrictlySorted policy.compareMerkleKeys entryKey right)
    (front : List (k × v)) (hfrontLeft : InFront policy.compareMerkleKeys front left)
    (hfrontRight : InFront policy.compareMerkleKeys front right) :
    ∃ result, applyDifferences policy.compareMerkleKeys
        (mergeDifferences policy valuesEqual left right)
        (front ++ left.map pair) = front ++ result ∧
      SamePairs policy.compareMerkleKeys valuesEqual result (right.map pair) := by
  induction left, right using mergeDifferences.induct policy generalizing front with
  | case1 right =>
      rw [mergeDifferences_nil_left]
      induction right generalizing front with
      | nil => exact ⟨[], rfl, .nil⟩
      | cons entry right ih =>
          obtain ⟨hfirst, hrest⟩ := pairwise_cons.mp hright
          have hput : putPair policy.compareMerkleKeys entry.entryKey entry.entryValue
              (front ++ []) = front ++ [entry.pair] :=
            putPair_gap (fun pair hpair => hfrontRight pair hpair entry mem_cons_self) (by simp)
          obtain ⟨result, hresult, hsame⟩ := ih hrest (front ++ [entry.pair])
            (by simp [InFront]) (hfrontRight.rest.snoc hfirst)
          refine ⟨entry.pair :: result, ?_, .cons ⟨compare_self, hrefl _⟩ hsame⟩
          rw [append_assoc front [entry.pair] result, singleton_append] at hresult
          rw [← hresult]
          simp only [applyDifferences, map_cons, foldl_cons, map_nil,
            append_nil, added, operation, pairs] at hput ⊢
          rw [hput]
  | case2 left hne =>
      clear hne
      rw [mergeDifferences_nil_right]
      refine ⟨[], ?_, .nil⟩
      induction left with
      | nil => rfl
      | cons entry left ih =>
          have herase := erasePair_front hfrontLeft hleft
          have hrest := ih (pairwise_cons.mp hleft).2 hfrontLeft.rest
          simp only [applyDifferences, map_cons, foldl_cons, removed, operation, pairs] at hrest ⊢
          rw [herase]
          exact hrest
  | case3 leftEntry left rightEntry right hlt ih =>
      obtain ⟨result, hresult, hsame⟩ := ih (pairwise_cons.mp hleft).2 hright front
        hfrontLeft.rest hfrontRight
      refine ⟨result, ?_, hsame⟩
      rw [← hresult, mergeDifferences_lt hlt]
      simp only [applyDifferences, map_cons, foldl_cons, removed, operation, pairs]
      rw [erasePair_front hfrontLeft hleft]
  | case4 leftEntry left rightEntry right hgt ih =>
      obtain ⟨hfirst, hrest⟩ := pairwise_cons.mp hright
      have hbelow : ∀ entry ∈ leftEntry :: left,
          policy.compareMerkleKeys rightEntry.entryKey entry.entryKey = .lt := by
        intro entry hentry
        have hlt := lt_of_gt hgt
        rcases mem_cons.mp hentry with rfl | hentry
        · exact hlt
        · exact lt_trans hlt ((pairwise_cons.mp hleft).1 entry hentry)
      have hput : putPair policy.compareMerkleKeys rightEntry.entryKey rightEntry.entryValue
          (front ++ (leftEntry :: left).map pair) =
            front ++ rightEntry.pair :: (leftEntry :: left).map pair := by
        refine putPair_gap
          (fun pair hpair => hfrontRight pair hpair rightEntry mem_cons_self)
          fun pair hpair => ?_
        obtain ⟨entry, hentry, rfl⟩ := mem_map.mp hpair
        exact gt_of_lt (hbelow entry hentry)
      obtain ⟨result, hresult, hsame⟩ := ih hleft hrest (front ++ [rightEntry.pair])
        (hfrontLeft.snoc hbelow) (hfrontRight.rest.snoc hfirst)
      refine ⟨rightEntry.pair :: result, ?_, .cons ⟨compare_self, hrefl _⟩ hsame⟩
      rw [append_assoc, singleton_append, append_assoc, singleton_append] at hresult
      rw [← hresult, mergeDifferences_gt hgt]
      simp only [applyDifferences, map_cons, foldl_cons, added, operation, pairs] at hput ⊢
      rw [hput]
  | case5 leftEntry left rightEntry right heq ih =>
      obtain ⟨hleftFirst, hleftRest⟩ := pairwise_cons.mp hleft
      obtain ⟨hrightFirst, hrightRest⟩ := pairwise_cons.mp hright
      have hnext : ∀ value : v, ∃ result,
          applyDifferences policy.compareMerkleKeys
              (mergeDifferences policy valuesEqual left right)
              (front ++ (leftEntry.entryKey, value) :: left.map pair) =
            front ++ (leftEntry.entryKey, value) :: result ∧
          SamePairs policy.compareMerkleKeys valuesEqual result (right.map pair) := by
        intro value
        have hfront : InFront policy.compareMerkleKeys
            (front ++ [(leftEntry.entryKey, value)]) right := by
          refine hfrontRight.rest.snoc fun entry hentry => ?_
          rw [congr_left heq]
          exact hrightFirst entry hentry
        obtain ⟨result, hresult, hsame⟩ := ih hleftRest hrightRest
          (front ++ [(leftEntry.entryKey, value)]) (hfrontLeft.rest.snoc hleftFirst) hfront
        rw [append_assoc, append_assoc] at hresult
        exact ⟨result, hresult, hsame⟩
      rw [mergeDifferences_eq heq, changed]
      by_cases hvalues : valuesEqual leftEntry.entryValue rightEntry.entryValue = true
      · rw [if_pos hvalues, nil_append]
        obtain ⟨result, hresult, hsame⟩ := hnext leftEntry.entryValue
        exact ⟨leftEntry.pair :: result, hresult, .cons ⟨heq, hvalues⟩ hsame⟩
      · rw [if_neg hvalues]
        obtain ⟨result, hresult, hsame⟩ := hnext rightEntry.entryValue
        have hput : putPair policy.compareMerkleKeys leftEntry.entryKey rightEntry.entryValue
            (front ++ leftEntry.pair :: left.map pair) =
              front ++ (leftEntry.entryKey, rightEntry.entryValue) ::
                left.map pair :=
          putPair_match (fun pair hpair => hfrontLeft pair hpair leftEntry mem_cons_self)
            compare_self
        refine ⟨(leftEntry.entryKey, rightEntry.entryValue) :: result, ?_,
          .cons ⟨heq, hrefl _⟩ hsame⟩
        rw [← hresult]
        simp only [applyDifferences, map_cons, foldl_cons, singleton_append, operation, pairs]
        rw [hput]

end Apply

end Merge

theorem mapEqualsWith_of_samePairs {valuesEqual : v → v → Bool}
    {left right : MerkleSearchTree k v} (hleft : CanonicalTree left) (hright : CanonicalTree right)
    (hdomain : left.policy.merkleDomainDigest = right.policy.merkleDomainDigest)
    (h : SamePairs left.policy.compareMerkleKeys valuesEqual left.toAscList right.toAscList) :
    mapEqualsWith valuesEqual left right = true := by
  have hsize : left.size = right.size := by
    have hlength := h.length_eq
    rw [toAscList, toAscList, length_map, length_map] at hlength
    exact (hleft.root.count_eq.trans hlength).trans hright.root.count_eq.symm
  rw [mapEqualsWith, if_neg (not_not.mpr hsize), if_neg (not_not.mpr hdomain), all_eq_true]
  rw [SamePairs, toAscList, toAscList, forall₂_map_left_iff, forall₂_map_right_iff] at h
  intro pair hpair
  obtain ⟨hkey, hvalue⟩ := (forall₂_iff_zip.mp h).2 hpair
  simp only [MerkleEntry.pair] at hkey hvalue
  rw [hkey, hvalue]
  rfl

theorem OrderedInterval.ofTree {tree : MerkleSearchTree k v} (h : CanonicalTree tree)
    (hinputs : hashedBytes tree ⊆ inputs) :
    OrderedInterval tree.policy inputs tree.treeRoot := by
  have hroot : ∀ node, tree.treeRoot = some node → treePreorder tree = nodePreorder node := by
    intro node hnode
    rw [treePreorder, hnode]
    rfl
  constructor
  · intro node hnode
    apply h.orderedNode node
    rw [hroot node hnode]
    exact self_mem_nodePreorder node
  · intro node hnode below hbelow
    rw [← hroot node hnode] at hbelow
    exact hinputs (node_mem_hashedBytes hbelow)

/--
The pruned difference of two reachable trees is the ordered merge of their entries.
Applied to the left map it gives the right one up to the equality of the values,
on the pairs as well as on every tree that a run of its edits produces.
-/
theorem diffWith_eq_merge {policy other : MerkleSearchTreePolicy k v}
    {valuesEqual : v → v → Bool} {left right : MerkleSearchTree k v}
    (hlaw : LawfulWirePolicy policy) (hcoherent : CoherentPolicies policy other)
    (hleft : Reachable policy left) (hright : Reachable other right)
    (hequal : ∀ one other, encodedValue policy one = encodedValue policy other →
      valuesEqual one other = true)
    (hcollision : CollisionFree (hashedBytes left ∪ hashedBytes right)) :
    ∃ differences, diffWith valuesEqual left right = .ok differences ∧
      differences = mergeDifferences policy valuesEqual left.entries right.entries ∧
      SamePairs policy.compareMerkleKeys valuesEqual
        (applyDifferences policy.compareMerkleKeys differences left.toAscList)
        right.toAscList ∧
      ∀ edited, (differences.map MerkleMapDifference.operation).foldlM MapOperation.apply left =
          .ok edited →
        mapEqualsWith valuesEqual edited right = true := by
  have hlaw' := hlaw.toLawfulPolicy
  have := hlaw.compare_total
  obtain ⟨hleftTree, rfl⟩ := hleft.canonical hlaw'
  obtain ⟨hrightTree, rfl⟩ := hright.canonical (hcoherent.lawful hlaw')
  have hrightLike := hcoherent.canonicalTree hrightTree
  have hinputs : hashedBytes (right.withPolicy left.policy) ⊆
      hashedBytes left ∪ hashedBytes right := by
    rw [hcoherent.hashedBytes_eq]
    exact Set.subset_union_right
  have hdiff : diffNodes left.policy valuesEqual left.treeRoot right.treeRoot =
      mergeDifferences left.policy valuesEqual left.entries right.entries := by
    rw [entries_eq, entries_eq]
    exact diffNodes_eq hlaw' hequal hcollision (.inl (manifest_mem_hashedBytes left))
      (OrderedInterval.ofTree hleftTree Set.subset_union_left)
      (OrderedInterval.ofTree hrightLike hinputs)
  have hsame : SamePairs left.policy.compareMerkleKeys valuesEqual
      (applyDifferences left.policy.compareMerkleKeys
        (mergeDifferences left.policy valuesEqual left.entries right.entries) left.toAscList)
      right.toAscList := by
    obtain ⟨result, hresult, hsame⟩ := applyDifferences_merge
      (fun value => hequal value value rfl) hleftTree.ordered.sorted hrightLike.ordered.sorted
      [] (by simp [InFront]) (by simp [InFront])
    rw [nil_append, nil_append] at hresult
    rw [toAscList, toAscList]
    exact hresult ▸ hsame
  refine ⟨_, ?_, rfl, hsame, fun edited hrun => ?_⟩
  · rw [diffWith, if_neg (not_not.mpr hcoherent.compatible), hdiff]
  · obtain ⟨hedited, hpolicy, hpairs⟩ := CanonicalTree.applyAll_pairs _ hleftTree hlaw hrun
    apply mapEqualsWith_of_samePairs hedited hrightTree
    · rw [hpolicy, hcoherent.domain_eq]
    · rw [hpolicy, hpairs]
      exact hsame

theorem diffWith_eq_merge_bytes :
    ∃ differences, diffWith (fun one other => one == other) bytesTree rivalTree =
        .ok differences ∧
      differences = mergeDifferences bytesPolicy (fun one other => one == other)
        bytesTree.entries rivalTree.entries ∧
      SamePairs bytesPolicy.compareMerkleKeys (fun one other => one == other)
        (applyDifferences bytesPolicy.compareMerkleKeys differences bytesTree.toAscList)
        rivalTree.toAscList ∧
      ∀ edited, (differences.map MerkleMapDifference.operation).foldlM apply bytesTree =
          .ok edited →
        mapEqualsWith (fun one other => one == other) edited rivalTree = true :=
  diffWith_eq_merge bytesPolicy_lawful (CoherentPolicies.refl bytesPolicy) bytesTree_reachable
    rivalTree_reachable beq_of_encodedValue_bytes bytes_collisionFree

end Durable7.Hamt
