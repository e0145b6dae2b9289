import Durable7.Hamt.MerklePersistence.MergeTable
import Durable7.Hamt.MerklePersistence.Reloading

/-!
# The shortcuts of a three-way merge

A merge that finds two of its root digests equal returns a side without walking
the entries.  The walk would have stored the same bytes, unless a coarse value
equality hides an edit from it.
-/

namespace Durable7.Hamt

open Foundation List MerkleEntry

variable {k v : Type}
variable {policy : MerkleSearchTreePolicy k v} {valuesEqual : v → v → Bool}
  {resolver : Option (MerkleThreeWayMergeConflict k v → MerkleMergeResolution v)}

theorem OrderedEntries.findKey_bytes (hlaw : LawfulPolicy policy)
    {entries : List (MerkleEntry k v)} (h : OrderedEntries policy entries) (key : k) :
    (findKey policy.compareMerkleKeys entryKey key entries).map entryValueBytes =
      contentsOf entries (encodedKey policy key) := by
  induction entries with
  | nil => rfl
  | cons entry entries ih =>
      have hrest := ih (h.sublist (sublist_cons_self entry entries))
      have hiff : policy.compareMerkleKeys entry.entryKey key = .eq ↔
          encodedKey policy key = entry.entryKeyBytes := by
        rw [hlaw.compare_eq_iff_encodedKey, (h.valid entry (by simp)).encoded_eq.1, eq_comm]
      rw [contentsOf_cons, Function.update_apply, ← hrest, findKey, findKey, List.find?_cons]
      by_cases heq : policy.compareMerkleKeys entry.entryKey key = .eq
      · rw [if_pos (hiff.mp heq), heq]
        rfl
      · rw [if_neg fun hbytes => heq (hiff.mpr hbytes), beq_false_of_ne heq]

section Shortcuts

variable {base left right result : MerkleSearchTree k v} (hlaw : LawfulPolicy policy)

include hlaw

section

variable {tree : MerkleSearchTree k v} (h : CoherentPolicies policy tree.policy)
include h

theorem CoherentPolicies.lookupEntry_bytes (htree : CanonicalTree tree) (key : k) :
    (lookupEntry key tree).map entryValueBytes = tree.contents (encodedKey policy key) := by
  rw [h.lookupEntry_eq hlaw htree, (h.orderedEntries htree.ordered).findKey_bytes hlaw]
  rfl

theorem CoherentPolicies.lookupEntry_valid (htree : CanonicalTree tree) {key : k}
    {entry : MerkleEntry k v} (hentry : lookupEntry key tree = some entry) :
    ValidEntry policy entry ∧ entry.entryKeyBytes.length ≤ maxInt32 ∧
      entry.entryValueBytes.length ≤ maxInt32 := by
  rw [h.lookupEntry_eq hlaw htree] at hentry
  obtain ⟨hmem, -⟩ := findKey_mem hentry
  exact ⟨(h.orderedEntries htree.ordered).valid entry hmem,
    htree.root.fitsBlocks.lengths entry hmem⟩

end

theorem mergeSidesEqual_of_bytes
    (hequal : ∀ one other, encodedValue policy one = encodedValue policy other →
      valuesEqual one other = true)
    (hleftPolicy : CoherentPolicies policy left.policy)
    (hrightPolicy : CoherentPolicies policy right.policy)
    (hleft : CanonicalTree left) (hright : CanonicalTree right)
    (h : left.contents = right.contents) (key : k) :
    mergeSidesEqual valuesEqual (lookupEntry key left) (lookupEntry key right) = true := by
  have hbytes : (lookupEntry key left).map entryValueBytes =
      (lookupEntry key right).map entryValueBytes := by
    rw [hleftPolicy.lookupEntry_bytes hlaw hleft, hrightPolicy.lookupEntry_bytes hlaw hright, h]
  cases hleftEntry : lookupEntry key left with
  | none =>
      rw [hleftEntry] at hbytes
      rw [Option.map_eq_none_iff.mp hbytes.symm]
      rfl
  | some entry =>
      rw [hleftEntry] at hbytes
      obtain ⟨twin, htwin, hsame⟩ := Option.map_eq_some_iff.mp hbytes.symm
      rw [htwin]
      apply hequal
      rw [← (hleftPolicy.lookupEntry_valid hlaw hleft hleftEntry).1.encoded_eq.2,
        ← (hrightPolicy.lookupEntry_valid hlaw hright htwin).1.encoded_eq.2, hsame]

theorem length_le_of_keys {pairs : List (k × v)}
    (hsorted : StrictlySorted policy.compareMerkleKeys Prod.fst pairs)
    (hpolicy : CoherentPolicies policy result.policy) (hresult : CanonicalTree result)
    (h : ∀ pair ∈ pairs, (lookupEntry pair.1 result).isSome) :
    pairs.length ≤ result.entries.length := by
  have hnodup : (pairs.map fun pair => encodedKey policy pair.1).Nodup := by
    rw [List.Nodup, pairwise_map]
    refine List.Pairwise.imp (fun {before after} hlt heq => ?_) hsorted
    rw [← hlaw.compare_eq_iff_encodedKey, hlt] at heq
    cases heq
  have hsubset : (pairs.map fun pair => encodedKey policy pair.1) ⊆
      result.entries.map entryKeyBytes := by
    intro bytes hbytes
    obtain ⟨pair, hpair, rfl⟩ := mem_map.mp hbytes
    obtain ⟨entry, hentry⟩ := Option.isSome_iff_exists.mp (h pair hpair)
    have hvalid := (hpolicy.lookupEntry_valid hlaw hresult hentry).1
    rw [hpolicy.lookupEntry_eq hlaw hresult] at hentry
    obtain ⟨hmem, heq⟩ := findKey_mem hentry
    refine mem_map.mpr ⟨entry, hmem, ?_⟩
    rw [hvalid.encoded_eq.1, (hlaw.compare_eq_iff_encodedKey _ _).mp heq]
  simpa using (hnodup.subperm hsubset).length_le

end Shortcuts

section Walked

variable (resolver) {base left right result : MerkleSearchTree k v}

theorem mergeEntries_of_sides (side : k → Option (MerkleEntry k v))
    (hlaw : LawfulPolicy base.policy) (hleftPolicy : CoherentPolicies base.policy left.policy)
    (hrightPolicy : CoherentPolicies base.policy right.policy)
    (hresultPolicy : CoherentPolicies base.policy result.policy)
    (hbase : CanonicalTree base) (hleft : CanonicalTree left)
    (hright : CanonicalTree right) (hresult : CanonicalTree result)
    (htable : ∀ key, mergeTable valuesEqual resolver base left right key = takeSide (side key))
    (hside : ∀ key, side key = lookupEntry key left ∨ side key = lookupEntry key right)
    (hwithin : ∀ key, (side key).isSome → (lookupEntry key result).isSome) :
    ∃ walked, mergeEntries valuesEqual resolver base left right =
        some (.ok (.MerkleMergeSucceeded walked)) ∧
      ∀ key, walked.contents (encodedKey base.policy key) = (side key).map entryValueBytes := by
  have := hlaw.compare_total
  obtain ⟨pairs, conflicts, hpairs, hconflicts, hmerge⟩ := mergeEntries_lists
    valuesEqual resolver hlaw hleftPolicy hrightPolicy hbase
    hleft hright
  have hnone : conflicts = [] := by
    apply eq_nil_iff_forall_not_mem.mpr
    intro found hfound
    have hlisted := hconflicts.listed found.mergeConflictKey
    rw [htable, takeSide, MergeDecision.conflict?, findKey_eq_none] at hlisted
    exact hlisted found hfound Std.ReflCmp.compare_self
  have hentry : ∀ {key entry}, side key = some entry → ValidEntry base.policy entry ∧
      entry.entryKeyBytes.length ≤ maxInt32 ∧ entry.entryValueBytes.length ≤ maxInt32 := by
    intro key entry hsome
    rcases hside key with heq | heq
    · exact hleftPolicy.lookupEntry_valid hlaw hleft (heq ▸ hsome)
    · exact hrightPolicy.lookupEntry_valid hlaw hright (heq ▸ hsome)
  have hpair : ∀ pair ∈ pairs, ∃ entry, side pair.1 = some entry ∧ entry.pair = pair := by
    intro pair hmem
    have hlisted := hpairs.listed pair.1
    rw [hpairs.sorted.findKey_eq_some.mpr ⟨hmem, Std.ReflCmp.compare_self⟩, htable] at hlisted
    exact Option.map_eq_some_iff.mp hlisted.symm
  have hfits : FitsPairs base.policy pairs := by
    constructor
    · refine le_trans (length_le_of_keys hlaw hpairs.sorted hresultPolicy hresult
        fun pair hmem => hwithin pair.1 ?_) hresult.root.fitsBlocks.count_le
      obtain ⟨entry, hsome, -⟩ := hpair pair hmem
      rw [hsome]
      rfl
    · intro pair hmem
      obtain ⟨entry, hsome, rfl⟩ := hpair pair hmem
      obtain ⟨hvalid, hlengths⟩ := hentry hsome
      rw [pair, ← hvalid.encoded_eq.1, ← hvalid.encoded_eq.2]
      exact hlengths
  obtain ⟨walked, htree, hholds⟩ := (fromList_listed hlaw hpairs).1 hfits
  refine ⟨walked, ?_, fun key => ?_⟩
  · rw [hmerge, hnone, finishMerge]
    simp only [reverse_nil, reverse_reverse, htree]
    rfl
  · have hpolicy : CoherentPolicies base.policy walked.policy :=
      hholds.policy_eq ▸ CoherentPolicies.refl base.policy
    have hlookup := hholds.lookup_eq key
    rw [← hpolicy.lookupEntry_bytes hlaw hholds.canonical]
    rw [htable, takeSide, MergeDecision.pair?] at hlookup
    cases hsome : side key with
    | none =>
        rw [hsome, Option.map_none, Option.map_eq_none_iff] at hlookup
        rw [hlookup]
    | some entry =>
        rw [hsome] at hlookup
        obtain ⟨stored, hstored, heq⟩ := Option.map_eq_some_iff.mp hlookup
        have hvalid := (hpolicy.lookupEntry_valid hlaw hholds.canonical hstored).1
        rw [hstored, Option.map_some, Option.map_some, hvalid.encoded_eq.2,
          (hentry hsome).1.encoded_eq.2, show stored.entryValue = entry.entryValue from
            congrArg Prod.snd heq]

theorem CoherentPolicies.contents_eq_of_rootDigest
    (hleftPolicy : CoherentPolicies policy left.policy)
    (hrightPolicy : CoherentPolicies policy right.policy)
    (hleft : CanonicalTree left) (hright : CanonicalTree right)
    (hcollision : CollisionFree (hashedBytes left ∪ hashedBytes right))
    (h : left.rootDigest = right.rootDigest) : left.contents = right.contents := by
  have hencoded := (hleftPolicy.canonicalTree hleft).encoded_eq_of_rootDigest
    (hrightPolicy.canonicalTree hright) rfl
    (by rw [hleftPolicy.hashedBytes_eq, hrightPolicy.hashedBytes_eq]; exact hcollision)
    (by rw [hleftPolicy.rootDigest_eq, hrightPolicy.rootDigest_eq, h])
  funext keyBytes
  exact congrArg (List.lookup keyBytes) hencoded

theorem mergeSidesEqual_isSome {one other : Option (MerkleEntry k v)}
    (h : mergeSidesEqual valuesEqual one other = true) : one.isSome = other.isSome := by
  cases one <;> cases other
  · rfl
  · cases h
  · cases h
  · rfl

/--
A shortcut succeeds, and so does the walk it saves.  They store the same bytes, except
that where the right side is the base, the walk keeps the base at the keys at which
`valuesEqual` relates it to the left side.
-/
theorem mergeThreeWayWith_shortcut (hlaw : LawfulPolicy base.policy)
    (hleftPolicy : CoherentPolicies base.policy left.policy)
    (hrightPolicy : CoherentPolicies base.policy right.policy)
    (hbase : Reachable base.policy base) (hleft : Reachable left.policy left)
    (hright : Reachable right.policy right)
    (hcollision : CollisionFree (hashedBytes base ∪ hashedBytes left ∪ hashedBytes right))
    (hequal : ∀ one other, encodedValue base.policy one = encodedValue base.policy other →
      valuesEqual one other = true)
    (hshortcut : left.rootDigest = base.rootDigest ∨ right.rootDigest = base.rootDigest ∨
      left.rootDigest = right.rootDigest) :
    ∃ returned walked,
      mergeThreeWayWith valuesEqual resolver base left right =
        some (.ok (.MerkleMergeSucceeded returned)) ∧
      mergeEntries valuesEqual resolver base left right =
        some (.ok (.MerkleMergeSucceeded walked)) ∧
      (left.rootDigest = base.rootDigest ∨ left.rootDigest = right.rootDigest →
        ∀ key, walked.contents (encodedKey base.policy key) =
          returned.contents (encodedKey base.policy key)) ∧
      (right.rootDigest = base.rootDigest →
        ∀ key, walked.contents (encodedKey base.policy key) =
          if mergeSidesEqual valuesEqual (lookupEntry key left) (lookupEntry key base) then
            base.contents (encodedKey base.policy key)
          else returned.contents (encodedKey base.policy key)) := by
  have hbasePolicy := CoherentPolicies.refl base.policy
  have hbaseTree := (hbase.canonical hlaw).1
  have hleftTree := (hleft.canonical (hleftPolicy.lawful hlaw)).1
  have hrightTree := (hright.canonical (hrightPolicy.lawful hlaw)).1
  have hleftBase : left.rootDigest = base.rootDigest → left.contents = base.contents :=
    hleftPolicy.contents_eq_of_rootDigest hbasePolicy hleftTree hbaseTree
      (hcollision.mono fun _ hmem => hmem.elim (fun h => .inl (.inr h)) fun h => .inl (.inl h))
  have hrightBase : right.rootDigest = base.rootDigest → right.contents = base.contents :=
    hrightPolicy.contents_eq_of_rootDigest hbasePolicy hrightTree hbaseTree
      (hcollision.mono fun _ hmem => hmem.elim .inr fun h => .inl (.inl h))
  have hleftRight : left.rootDigest = right.rootDigest → left.contents = right.contents :=
    hleftPolicy.contents_eq_of_rootDigest hrightPolicy hleftTree hrightTree
      (hcollision.mono fun _ hmem => hmem.elim (fun h => .inl (.inr h)) .inr)
  have hguard : ¬ (¬ compatibleMerklePolicies base.policy left.policy ∨
      ¬ compatibleMerklePolicies base.policy right.policy) := by
    simp [hleftPolicy.compatible, hrightPolicy.compatible]
  by_cases hsame : left.rootDigest = base.rootDigest
  · have hsides : ∀ key, mergeSidesEqual valuesEqual (lookupEntry key left)
        (lookupEntry key base) = true :=
      mergeSidesEqual_of_bytes hlaw hequal hleftPolicy hbasePolicy hleftTree hbaseTree
        (hleftBase hsame)
    obtain ⟨walked, hmerge, hwalked⟩ := mergeEntries_of_sides resolver
      (fun key => lookupEntry key right) hlaw hleftPolicy hrightPolicy hrightPolicy
      hbaseTree hleftTree hrightTree hrightTree
      (fun key => by rw [mergeTable_eq, mergeDecision, if_pos (hsides key)])
      (fun _ => .inr rfl) (fun _ h => h)
    have hcontents : ∀ key, walked.contents (encodedKey base.policy key) =
        right.contents (encodedKey base.policy key) := by
      intro key
      rw [hwalked, hrightPolicy.lookupEntry_bytes hlaw hrightTree]
    refine ⟨right, walked, ?_, hmerge, fun _ => hcontents, fun hrightSame key => ?_⟩
    · rw [mergeThreeWayWith, if_neg hguard, if_pos hsame]
    · rw [if_pos (hsides key), hcontents, hrightBase hrightSame]
  · have hshortcut : right.rootDigest = base.rootDigest ∨ left.rootDigest = right.rootDigest :=
      hshortcut.resolve_left hsame
    have hother : ∀ key,
        (mergeSidesEqual valuesEqual (lookupEntry key right) (lookupEntry key base) ||
          mergeSidesEqual valuesEqual (lookupEntry key left) (lookupEntry key right)) =
            true := by
      intro key
      rw [Bool.or_eq_true]
      exact hshortcut.imp
        (fun h => mergeSidesEqual_of_bytes hlaw hequal hrightPolicy hbasePolicy hrightTree
          hbaseTree (hrightBase h) key)
        (fun h => mergeSidesEqual_of_bytes hlaw hequal hleftPolicy hrightPolicy hleftTree
          hrightTree (hleftRight h) key)
    have hpresent : ∀ key,
        mergeSidesEqual valuesEqual (lookupEntry key left) (lookupEntry key base) = true →
        (lookupEntry key right).isSome → (lookupEntry key left).isSome := by
      intro key heq hsome
      rcases hshortcut with h | h
      · rw [mergeSidesEqual_isSome heq, ← mergeSidesEqual_isSome
          (mergeSidesEqual_of_bytes hlaw hequal hrightPolicy hbasePolicy hrightTree
            hbaseTree (hrightBase h) key)]
        exact hsome
      · rw [mergeSidesEqual_isSome (mergeSidesEqual_of_bytes hlaw hequal hleftPolicy
          hrightPolicy hleftTree hrightTree (hleftRight h) key)]
        exact hsome
    obtain ⟨walked, hmerge, hwalked⟩ := mergeEntries_of_sides resolver
      (fun key =>
        if mergeSidesEqual valuesEqual (lookupEntry key left) (lookupEntry key base) then
          lookupEntry key right
        else lookupEntry key left)
      hlaw hleftPolicy hrightPolicy hleftPolicy hbaseTree hleftTree hrightTree hleftTree
      (fun key => by
        by_cases heq : mergeSidesEqual valuesEqual (lookupEntry key left)
            (lookupEntry key base) = true
        · rw [mergeTable_eq, mergeDecision, if_pos heq, if_pos heq]
        · rw [mergeTable_eq, mergeDecision, if_neg heq, if_neg heq, if_pos (hother key)])
      (fun key => by
        split
        · exact .inr rfl
        · exact .inl rfl)
      (fun key h => by
        split at h
        · rename_i heq
          exact hpresent key heq h
        · exact h)
    have hcontents : ∀ key, walked.contents (encodedKey base.policy key) =
        if mergeSidesEqual valuesEqual (lookupEntry key left) (lookupEntry key base) then
          right.contents (encodedKey base.policy key)
        else left.contents (encodedKey base.policy key) := by
      intro key
      rw [hwalked, ← hrightPolicy.lookupEntry_bytes hlaw hrightTree,
        ← hleftPolicy.lookupEntry_bytes hlaw hleftTree]
      split
      · rfl
      · rfl
    refine ⟨left, walked, ?_, hmerge, fun h key => ?_, fun h key => ?_⟩
    · rw [mergeThreeWayWith, if_neg hguard, if_neg hsame, if_pos hshortcut]
    · rw [hcontents, hleftRight (h.resolve_left hsame), ite_self]
    · rw [hcontents, hrightBase h]

end Walked

/-- Where the right side is the base, an edit on the left is the whole merge. -/
theorem mergeThreeWayWith_shortcut_bytes : ∃ returned walked,
    mergeThreeWayWith (fun one other => one == other) none bytesTree rivalTree bytesTree =
        some (.ok (.MerkleMergeSucceeded returned)) ∧
      mergeEntries (fun one other => one == other) none bytesTree rivalTree bytesTree =
        some (.ok (.MerkleMergeSucceeded walked)) := by
  obtain ⟨returned, walked, hmerge, hwalk, -⟩ := mergeThreeWayWith_shortcut none
    bytesPolicy_lawful.toLawfulPolicy (CoherentPolicies.refl bytesPolicy)
    (CoherentPolicies.refl bytesPolicy) bytesTree_reachable rivalTree_reachable
    bytesTree_reachable
    (bytes_collisionFree.mono (Set.union_subset subset_rfl Set.subset_union_left))
    beq_of_encodedValue_bytes (.inr (.inl rfl))
  exact ⟨returned, walked, hmerge, hwalk⟩

/-- A coarse equality hides an edit from the walk, but not from the shortcut. -/
theorem mergeThreeWayWith_shortcut_differs_bytes : ∃ walked,
    mergeThreeWayWith (fun _ _ => true) none bytesTree rivalTree bytesTree =
        some (.ok (.MerkleMergeSucceeded rivalTree)) ∧
      mergeEntries (fun _ _ => true) none bytesTree rivalTree bytesTree =
        some (.ok (.MerkleMergeSucceeded walked)) ∧
      walked.contents (encodedKey bytesPolicy none) ≠
        rivalTree.contents (encodedKey bytesPolicy none) := by
  have hlaw := bytesPolicy_lawful.toLawfulPolicy
  have hpolicy := CoherentPolicies.refl bytesPolicy
  have hbytesTree := (bytesTree_reachable.canonical hlaw).1
  have hrivalTree := (rivalTree_reachable.canonical hlaw).1
  obtain ⟨walked, hwalk, hcontents⟩ := @mergeEntries_of_sides
    (Option ByteString) (Option ByteString) (fun _ _ => true) none bytesTree rivalTree bytesTree
    bytesTree (fun key => lookupEntry key bytesTree) hlaw hpolicy hpolicy hpolicy
    hbytesTree hrivalTree hbytesTree hbytesTree
    (fun key => by
      obtain ⟨-, hbytes, hrival⟩ := lookupEntry_rival key
      rw [mergeTable_eq, hbytes, hrival]
      split
      · rfl
      · split <;> rfl)
    (fun _ => .inr rfl) (fun _ h => h)
  refine ⟨walked, ?_, hwalk, ?_⟩
  · rw [mergeThreeWayWith, if_neg (by simp [compatibleMerklePolicies, bytesTree, rivalTree]),
      if_neg rivalTree_digests.2.2.symm, if_pos (.inl rfl)]
  · obtain ⟨-, hbytes, hrival⟩ := lookupEntry_rival none
    have hwalked : walked.contents (encodedKey bytesPolicy none) = some [0] := by
      refine (hcontents none).trans ?_
      rw [hbytes]
      rfl
    rw [hwalked, ← hpolicy.lookupEntry_bytes hlaw hrivalTree, hrival]
    decide

end Durable7.Hamt
