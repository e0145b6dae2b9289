import Durable7.Hamt.MerkleSearchTree.Updates

/-!
# Contents of a tree

A tree stands for a map from encoded keys to encoded values.  Ordered entries
with the same contents have the same encodings in the same order, and the
encodings determine every block of a canonical tree.
-/

namespace Durable7.Hamt

open Foundation List MerkleNode MerkleEntry Function

variable {k v : Type}

/-! ## Valid and ordered entries -/

structure ValidEntry (policy : MerkleSearchTreePolicy k v) (entry : MerkleEntry k v) : Prop where
  keyBytes : policy.merkleKeyCodec.encodeMerkleValue entry.entryKey = .ok entry.entryKeyBytes
  valueBytes : policy.merkleValueCodec.encodeMerkleValue entry.entryValue =
    .ok entry.entryValueBytes
  level_eq : entry.entryLevel = merkleLevel (hashMerkleKeyBytes policy entry.entryKeyBytes)

structure OrderedEntries (policy : MerkleSearchTreePolicy k v)
    (entries : List (MerkleEntry k v)) : Prop where
  sorted : StrictlySorted policy.compareMerkleKeys entryKey entries
  valid : ∀ entry ∈ entries, ValidEntry policy entry

/-- A tree whose blocks are canonical and whose traversal is ordered. -/
structure CanonicalTree (tree : MerkleSearchTree k v) : Prop where
  root : CanonicalChild tree.policy tree.treeRoot
  ordered : OrderedEntries tree.policy tree.entries

theorem MerkleSearchTree.entries_eq (tree : MerkleSearchTree k v) :
    tree.entries = enumerateChild tree.treeRoot := rfl

variable {policy : MerkleSearchTreePolicy k v}

namespace ValidEntry

variable {entry other : MerkleEntry k v}

theorem compare_eq_iff (h : ValidEntry policy entry)
    (h' : ValidEntry policy other) (hlaw : LawfulPolicy policy) :
    policy.compareMerkleKeys entry.entryKey other.entryKey = .eq ↔
      entry.entryKeyBytes = other.entryKeyBytes := by
  rw [hlaw.compare_eq_iff, h.keyBytes, h'.keyBytes, Except.ok.injEq]

theorem probeKey_eq_iff (h : ValidEntry policy entry)
    (hlaw : LawfulPolicy policy) {key : k} {bytes : ByteString}
    (hbytes : policy.merkleKeyCodec.encodeMerkleValue key = .ok bytes) :
    probeKey policy key entry = .eq ↔ entry.entryKeyBytes = bytes := by
  rw [probeKey, hlaw.compare_eq_iff, h.keyBytes, hbytes, Except.ok.injEq]

end ValidEntry

namespace OrderedEntries

variable {entries : List (MerkleEntry k v)}

theorem nil (policy : MerkleSearchTreePolicy k v) : OrderedEntries policy [] := ⟨.nil, by simp⟩

section

variable (h : OrderedEntries policy entries)
include h

theorem sublist {fewer : List (MerkleEntry k v)} (hsub : fewer.Sublist entries) :
    OrderedEntries policy fewer :=
  ⟨List.Pairwise.sublist hsub h.sorted, fun entry hentry => h.valid entry (hsub.subset hentry)⟩

theorem searchable (hlaw : LawfulPolicy policy) (key : k) :
    Searchable (probeKey policy key) entries := by
  have := hlaw.compare_total
  exact h.sorted.searchable key

theorem keyBytes_pairwise (hlaw : LawfulPolicy policy) :
    entries.Pairwise fun before after => before.entryKeyBytes ≠ after.entryKeyBytes := by
  refine List.Pairwise.imp_of_mem ?_ h.sorted
  intro before after hbefore hafter hlt heq
  rw [← (h.valid before hbefore).compare_eq_iff (h.valid after hafter) hlaw, hlt] at heq
  cases heq

theorem eq_of_keyBytes_eq (hlaw : LawfulPolicy policy) {entry other : MerkleEntry k v}
    (hentry : entry ∈ entries) (hother : other ∈ entries)
    (heq : entry.entryKeyBytes = other.entryKeyBytes) : entry = other := by
  have : Std.Symm fun before after : MerkleEntry k v =>
      before.entryKeyBytes ≠ after.entryKeyBytes := ⟨fun _ _ => Ne.symm⟩
  by_contra hne
  exact (h.keyBytes_pairwise hlaw).forall hentry hother hne heq

end

end OrderedEntries

/-! ## The abstract contents -/

/-- A finite map from encoded keys to encoded values. -/
abbrev MerkleContents := ByteString → Option ByteString

def contentsOf (entries : List (MerkleEntry k v)) : MerkleContents :=
  fun keyBytes => (entries.map encoded).lookup keyBytes

namespace MerkleSearchTree

def contents (tree : MerkleSearchTree k v) : MerkleContents := contentsOf tree.entries

end MerkleSearchTree

@[simp] theorem contentsOf_nil :
    contentsOf ([] : List (MerkleEntry k v)) = fun _ => none := rfl

theorem contentsOf_cons (entry : MerkleEntry k v) (entries : List (MerkleEntry k v)) :
    contentsOf (entry :: entries) = update (contentsOf entries)
      entry.entryKeyBytes (some entry.entryValueBytes) := by
  funext keyBytes
  simp only [contentsOf, map_cons, encoded, lookup_cons, update_apply]
  by_cases h : keyBytes = entry.entryKeyBytes
  · simp [h]
  · rw [if_neg h, beq_false_of_ne h]

theorem contentsOf_eq_none {entries : List (MerkleEntry k v)} {keyBytes : ByteString} :
    contentsOf entries keyBytes = none ↔ ∀ entry ∈ entries, entry.entryKeyBytes ≠ keyBytes := by
  simp only [contentsOf, lookup_eq_none_iff, mem_map]
  constructor
  · intro h entry hentry heq
    have := h entry.encoded ⟨entry, hentry, rfl⟩
    simp [encoded, heq] at this
  · rintro h _ ⟨entry, hentry, rfl⟩
    have := h entry hentry
    simpa [encoded] using fun heq => this heq.symm

theorem contentsOf_insert {below above : List (MerkleEntry k v)} {entry : MerkleEntry k v}
    (h : ∀ other ∈ below, other.entryKeyBytes ≠ entry.entryKeyBytes) :
    contentsOf (below ++ entry :: above) =
      update (contentsOf (below ++ above)) entry.entryKeyBytes (some entry.entryValueBytes) := by
  induction below with
  | nil => exact contentsOf_cons entry above
  | cons first below ih =>
      rw [cons_append, cons_append, contentsOf_cons, contentsOf_cons,
        ih fun other hother => h other (by simp [hother]),
        update_comm (h first (by simp))]

theorem OrderedEntries.encoded_eq {entries entries' : List (MerkleEntry k v)}
    (h : OrderedEntries policy entries) (h' : OrderedEntries policy entries')
    (hlaw : LawfulPolicy policy) (hcontents : contentsOf entries = contentsOf entries') :
    entries.map encoded = entries'.map encoded := by
  have := hlaw.compare_total
  induction entries generalizing entries' with
  | nil =>
      cases entries' with
      | nil => rfl
      | cons entry' entries' =>
          have := congrFun hcontents entry'.entryKeyBytes
          simp [contentsOf_cons] at this
  | cons entry entries ih =>
      cases entries' with
      | nil =>
          have := congrFun hcontents entry.entryKeyBytes
          simp [contentsOf_cons] at this
      | cons entry' entries' =>
          -- the least key of either list is present in the other one
          have hnotLess : ∀ {first first' : MerkleEntry k v}
              {rest rest' : List (MerkleEntry k v)},
              OrderedEntries policy (first :: rest) →
              OrderedEntries policy (first' :: rest') →
              contentsOf (first :: rest) = contentsOf (first' :: rest') →
              policy.compareMerkleKeys first.entryKey first'.entryKey ≠ .lt := by
            intro first first' rest rest' ho ho' hc hlt
            have hnone : contentsOf (first' :: rest') first.entryKeyBytes =
                none := by
              rw [contentsOf_eq_none]
              intro other hother heq
              rw [← (ho'.valid other hother).compare_eq_iff
                (ho.valid first (by simp)) hlaw,
                Std.OrientedCmp.eq_comm] at heq
              rcases mem_cons.mp hother with rfl | hrest
              · rw [hlt] at heq
                cases heq
              · have hnext := (pairwise_cons.mp ho'.sorted).1 other hrest
                rw [Std.TransCmp.lt_trans hlt hnext] at heq
                cases heq
            rw [← hc, contentsOf_cons] at hnone
            simp at hnone
          have hkeys : entry.entryKeyBytes = entry'.entryKeyBytes := by
            rw [← (h.valid entry (by simp)).compare_eq_iff (h'.valid entry' (by simp)) hlaw]
            cases hcmp : policy.compareMerkleKeys entry.entryKey entry'.entryKey with
            | lt => exact absurd hcmp (hnotLess h h' hcontents)
            | eq => rfl
            | gt => exact absurd (Std.OrientedCmp.lt_of_gt hcmp) (hnotLess h' h hcontents.symm)
          have hvalues : entry.entryValueBytes = entry'.entryValueBytes := by
            have hvalue := congrFun hcontents entry.entryKeyBytes
            rw [contentsOf_cons, contentsOf_cons, hkeys] at hvalue
            simpa using hvalue
          have hrest := h.sublist (sublist_cons_self entry entries)
          have hrest' := h'.sublist (sublist_cons_self entry' entries')
          have htail : contentsOf entries = contentsOf entries' := by
            funext keyBytes
            by_cases heq : keyBytes = entry.entryKeyBytes
            · subst heq
              rw [contentsOf_eq_none.mpr fun other hother =>
                Ne.symm ((pairwise_cons.mp (h.keyBytes_pairwise hlaw)).1 other hother)]
              rw [hkeys, contentsOf_eq_none.mpr fun other hother =>
                Ne.symm ((pairwise_cons.mp (h'.keyBytes_pairwise hlaw)).1 other hother)]
            · have hvalue := congrFun hcontents keyBytes
              rw [contentsOf_cons, contentsOf_cons, ← hkeys,
                update_of_ne heq, update_of_ne heq] at hvalue
              exact hvalue
          rw [map_cons, map_cons, ih hrest hrest' htail, encoded, encoded, hkeys, hvalues]

/-! ## The encodings determine the blocks -/

def encodedLevel (policy : MerkleSearchTreePolicy k v)
    (encoded : ByteString × ByteString) : UInt8 :=
  merkleLevel (hashMerkleKeyBytes policy encoded.1)

def encodedChild (child : Option (MerkleNode k v)) : List (ByteString × ByteString) :=
  (enumerateChild child).map encoded

theorem CanonicalNode.nodeLevel_eq {node node' : MerkleNode k v}
    (h : CanonicalNode policy node) (h' : CanonicalNode policy node')
    (hlevels : (enumerateNode node).map entryLevel = (enumerateNode node').map entryLevel) :
    node.nodeLevel = node'.nodeLevel := by
  have hle : ∀ {n n' : MerkleNode k v}, CanonicalNode policy n →
      CanonicalNode policy n' →
      (enumerateNode n).map entryLevel = (enumerateNode n').map entryLevel →
      n.nodeLevel ≤ n'.nodeLevel := by
    intro n n' hn hn' heq
    obtain ⟨entry, hentry, hlevel⟩ := hn.exists_entryLevel
    have hmem : n.nodeLevel ∈ (enumerateNode n').map entryLevel := by
      rw [← heq, ← hlevel]
      exact mem_map_of_mem hentry
    obtain ⟨other, hother, heq'⟩ := mem_map.mp hmem
    rw [← heq']
    exact hn'.entryLevel_le other hother
  exact UInt8.le_antisymm (hle h h' hlevels) (hle h' h hlevels.symm)

theorem CanonicalNode.encoded_segments {node : MerkleNode k v} (h : CanonicalNode policy node)
    (hvalid : ∀ entry ∈ enumerateNode node, ValidEntry policy entry) :
    (∀ encoded ∈ node.nodeEntries.map MerkleEntry.encoded,
      encodedLevel policy encoded = node.nodeLevel) ∧
    (∀ segment ∈ node.nodeChildren.map encodedChild, ∀ encoded ∈ segment,
      ¬ encodedLevel policy encoded = node.nodeLevel) := by
  have hencoded : ∀ entry ∈ enumerateNode node,
      encodedLevel policy entry.encoded = entry.entryLevel :=
    fun entry hentry => (hvalid entry hentry).level_eq.symm
  constructor
  · intro encoded hmem
    obtain ⟨entry, hentry, rfl⟩ := mem_map.mp hmem
    rw [hencoded entry (h.block.mem_enumerateNode.mpr (.inl hentry))]
    exact h.levels entry hentry
  · intro segment hsegment encoded hmem
    obtain ⟨interval, hinterval, rfl⟩ := mem_map.mp hsegment
    obtain ⟨entry, hentry, rfl⟩ := mem_map.mp hmem
    cases interval with
    | none => simp at hentry
    | some child =>
        rw [hencoded entry (h.block.mem_enumerateNode.mpr (.inr ⟨child, hinterval, hentry⟩))]
        exact UInt8.ne_of_lt (h.entryLevel_lt_of_child hinterval entry hentry)

/-- What two subtrees with equal encodings share. -/
structure SameBlocks (node node' : MerkleNode k v) : Prop where
  digest : node.nodeDigest = node'.nodeDigest
  preorder : (nodePreorder node).map blockView = (nodePreorder node').map blockView

private theorem intervals_sameBlocks {intervals intervals' : List (Option (MerkleNode k v))}
    (hcanonical : ∀ interval ∈ intervals, CanonicalChild policy interval)
    (hcanonical' : ∀ interval ∈ intervals', CanonicalChild policy interval)
    (heq : intervals.map encodedChild = intervals'.map encodedChild)
    (hsame : ∀ child, some child ∈ intervals →
      ∀ child', some child' ∈ intervals' →
        (enumerateNode child).map encoded = (enumerateNode child').map encoded →
        SameBlocks child child') :
    intervals.map (childDigest policy) = intervals'.map (childDigest policy) ∧
      ((intervals.filterMap id).flatMap nodePreorder).map blockView =
        ((intervals'.filterMap id).flatMap nodePreorder).map
          blockView := by
  induction intervals generalizing intervals' with
  | nil =>
      cases intervals' with
      | nil => simp
      | cons interval' intervals' => simp at heq
  | cons interval intervals ih =>
      cases intervals' with
      | nil => simp at heq
      | cons interval' intervals' =>
          simp only [map_cons, List.cons.injEq] at heq
          obtain ⟨hdigests, hpreorders⟩ := ih
            (fun i hi => hcanonical i (by simp [hi]))
            (fun i hi => hcanonical' i (by simp [hi])) heq.2
            (fun c hc c' hc' => hsame c (by simp [hc]) c' (by simp [hc']))
          have hempty : ∀ {c : MerkleNode k v}, CanonicalNode policy c →
              encodedChild (some c) ≠ [] := by
            intro c hc
            simpa [encodedChild] using hc.enumerateNode_ne_nil
          match interval, interval' with
          | none, none => simpa [childDigest] using ⟨hdigests, hpreorders⟩
          | none, some child' =>
              exact absurd heq.1.symm (hempty (hcanonical' _ (by simp) child' rfl))
          | some child, none => exact absurd heq.1 (hempty (hcanonical _ (by simp) child rfl))
          | some child, some child' =>
              have hchild := hsame child (by simp) child' (by simp) heq.1
              refine ⟨?_, ?_⟩
              · rw [map_cons, map_cons, hdigests]
                simp [childDigest, hchild.digest]
              · rw [filterMap_cons_some (f := id) rfl,
                  filterMap_cons_some (f := id) rfl,
                  flatMap_cons, flatMap_cons, map_append,
                  map_append, hchild.preorder, hpreorders]

theorem CanonicalNode.sameBlocks {node node' : MerkleNode k v}
    (h : CanonicalNode policy node) (h' : CanonicalNode policy node')
    (hvalid : ∀ entry ∈ enumerateNode node, ValidEntry policy entry)
    (hvalid' : ∀ entry ∈ enumerateNode node', ValidEntry policy entry)
    (heq : (enumerateNode node).map MerkleEntry.encoded =
      (enumerateNode node').map MerkleEntry.encoded) :
    SameBlocks node node' := by
  induction h generalizing node' with
  | @intro node block levels children ih =>
      have h : CanonicalNode policy node := ⟨block, levels, children⟩
      have hlevels : ∀ {n : MerkleNode k v},
          (∀ entry ∈ enumerateNode n, ValidEntry policy entry) →
          (enumerateNode n).map MerkleEntry.entryLevel =
            ((enumerateNode n).map MerkleEntry.encoded).map (encodedLevel policy) := by
        intro n hn
        rw [map_map]
        exact map_congr_left fun entry hentry => (hn entry hentry).level_eq
      have hlevel : node.nodeLevel = node'.nodeLevel := by
        apply h.nodeLevel_eq h'
        rw [hlevels hvalid, hlevels hvalid', heq]
      have hcount : node.nodeCount = node'.nodeCount := by
        rw [h.nodeCount_eq, h'.nodeCount_eq]
        simpa using congrArg List.length heq
      obtain ⟨hown, hbelow⟩ := h.encoded_segments hvalid
      obtain ⟨hown', hbelow'⟩ := h'.encoded_segments hvalid'
      rw [enumerateNode_eq, enumerateNode_eq, map_interleave, map_interleave,
        map_map, map_map] at heq
      rw [← hlevel] at hown' hbelow'
      obtain ⟨hentries, hintervals⟩ := interleave_unique
        (p := fun encoded => encodedLevel policy encoded = node.nodeLevel)
        (by simp [block.arity]) (by simp [h'.block.arity]) hown hown'
        hbelow hbelow' heq
      obtain ⟨hdigests, hpreorders⟩ := intervals_sameBlocks h.intervals
        h'.intervals hintervals fun child hchild child' hchild' hsame =>
          ih child hchild (h'.children child' hchild')
            (fun entry hentry => hvalid entry
              (block.mem_enumerateNode.mpr (.inr ⟨child, hchild, hentry⟩)))
            (fun entry hentry => hvalid' entry
              (h'.block.mem_enumerateNode.mpr (.inr ⟨child', hchild', hentry⟩)))
            hsame
      have hbytes : node.nodeBlockBytes = node'.nodeBlockBytes := by
        rw [block.bytes_eq, h'.block.bytes_eq, hlevel, hcount, hentries, hdigests]
      have hdigest : node.nodeDigest = node'.nodeDigest := by
        rw [block.digest_eq, h'.block.digest_eq, hbytes]
      refine ⟨hdigest, ?_⟩
      rw [nodePreorder_eq, nodePreorder_eq, map_cons, map_cons, blockView, blockView, hbytes,
        hdigest, presentChildren, presentChildren, hpreorders]

theorem CanonicalTree.sameBlocks {tree tree' : MerkleSearchTree k v}
    (h : CanonicalTree tree) (h' : CanonicalTree tree')
    (hpolicy : tree.policy = tree'.policy) (hlaw : LawfulPolicy tree.policy)
    (hcontents : tree.contents = tree'.contents) :
    blocksPreorder tree = blocksPreorder tree' ∧ tree.rootDigest = tree'.rootDigest := by
  obtain ⟨root, policy⟩ := tree
  obtain ⟨root', policy'⟩ := tree'
  simp only at hpolicy hlaw
  subst hpolicy
  have heq := h.ordered.encoded_eq h'.ordered hlaw hcontents
  have hroot := h.root
  have hroot' := h'.root
  have hvalid := h.ordered.valid
  have hvalid' := h'.ordered.valid
  simp only [MerkleSearchTree.entries_eq] at heq hvalid hvalid' hroot hroot'
  match root, root' with
  | none, none => exact ⟨rfl, rfl⟩
  | none, some node' =>
      rw [canonicalChild_some] at hroot'
      exact absurd (by simpa using heq.symm) hroot'.enumerateNode_ne_nil
  | some node, none =>
      rw [canonicalChild_some] at hroot
      exact absurd (by simpa using heq) hroot.enumerateNode_ne_nil
  | some node, some node' =>
      rw [canonicalChild_some] at hroot hroot'
      have hsame := hroot.sameBlocks hroot' hvalid hvalid' heq
      exact ⟨hsame.preorder, hsame.digest⟩

end Durable7.Hamt
