import Durable7.Hamt.MerklePersistence.Merge

/-!
# The table of a three-way merge

Away from its digest shortcuts, a merge lists the table of its decisions: the
conflicts in comparer order where there are any, and otherwise a tree of the
merged pairs.  A shortcut gives the bytes of the same table, except where a
coarse value equality hides an edit of one side.
-/

namespace Durable7.Hamt

open Foundation List MerkleEntry MerkleSearchTree

variable {k v : Type}

/-- Two sides agree at a key that both lack, or that both hold with equal values. -/
def SidesAgree (valuesEqual : v → v → Bool) :
    Option (MerkleEntry k v) → Option (MerkleEntry k v) → Prop :=
  Option.Rel fun one other => valuesEqual one.entryValue other.entryValue = true

theorem mergeSidesEqual_iff {valuesEqual : v → v → Bool} {one other : Option (MerkleEntry k v)} :
    mergeSidesEqual valuesEqual one other = true ↔ SidesAgree valuesEqual one other := by
  cases one <;> cases other <;> simp [mergeSidesEqual, SidesAgree]

instance (valuesEqual : v → v → Bool) (one other : Option (MerkleEntry k v)) :
    Decidable (SidesAgree valuesEqual one other) :=
  decidable_of_iff _ mergeSidesEqual_iff

/-- What a merge makes of a key: an unchanged side gives way, and the resolver has the rest. -/
def mergeTable (valuesEqual : v → v → Bool)
    (resolver : Option (MerkleThreeWayMergeConflict k v → MerkleMergeResolution v))
    (base left right : MerkleSearchTree k v) (key : k) : MergeDecision k v :=
  let side := lookupEntry key
  if SidesAgree valuesEqual (side left) (side base) then takeSide (side right)
  else if SidesAgree valuesEqual (side right) (side base) ∨
      SidesAgree valuesEqual (side left) (side right) then
    takeSide (side left)
  else
    ((side left).or ((side right).or (side base))).elim (.output none) fun representative =>
      resolveConflict resolver representative (side base) (side left) (side right)

/-- The branches of the walk are the rows of the table. -/
theorem mergeTable_eq (valuesEqual : v → v → Bool)
    (resolver : Option (MerkleThreeWayMergeConflict k v → MerkleMergeResolution v))
    (base left right : MerkleSearchTree k v) (key : k) :
    mergeTable valuesEqual resolver base left right key =
      mergeDecision valuesEqual resolver (lookupEntry key base) (lookupEntry key left)
        (lookupEntry key right) := by
  unfold mergeTable mergeDecision
  simp only [Bool.or_eq_true, mergeSidesEqual_iff]
  cases (lookupEntry key left).or ((lookupEntry key right).or (lookupEntry key base)) <;> rfl

/-- The pairs a table puts out, in comparer order. -/
structure ListsOutput (policy : MerkleSearchTreePolicy k v)
    (table : k → MergeDecision k v) (pairs : List (k × v)) : Prop where
  sorted : StrictlySorted policy.compareMerkleKeys Prod.fst pairs
  listed : ∀ key, findKey policy.compareMerkleKeys Prod.fst key pairs = (table key).pair?

/-- The conflicts of a table, in comparer order. -/
structure ListsConflicts (policy : MerkleSearchTreePolicy k v) (table : k → MergeDecision k v)
    (conflicts : List (MerkleThreeWayMergeConflict k v)) : Prop where
  sorted : StrictlySorted policy.compareMerkleKeys
    MerkleThreeWayMergeConflict.mergeConflictKey conflicts
  listed : ∀ key, findKey policy.compareMerkleKeys
    MerkleThreeWayMergeConflict.mergeConflictKey key conflicts = (table key).conflict?

/-- Pairs whose count and encodings fit the signed 32-bit fields of a block. -/
structure FitsPairs (policy : MerkleSearchTreePolicy k v) (pairs : List (k × v)) : Prop where
  count_le : pairs.length ≤ maxInt32
  lengths : ∀ pair ∈ pairs, (encodedKey policy pair.1).length ≤ maxInt32 ∧
    (encodedValue policy pair.2).length ≤ maxInt32

/-- A tree that holds exactly the pairs a table puts out. -/
structure HoldsOutput (policy : MerkleSearchTreePolicy k v)
    (table : k → MergeDecision k v) (tree : MerkleSearchTree k v) : Prop where
  policy_eq : tree.policy = policy
  canonical : CanonicalTree tree
  lookup_eq : ∀ key, (lookupEntry key tree).map pair = (table key).pair?

variable {policy : MerkleSearchTreePolicy k v} {valuesEqual : v → v → Bool}
  {resolver : Option (MerkleThreeWayMergeConflict k v → MerkleMergeResolution v)}

/-! ## Decisions and their keys -/

namespace MergeDecision

/-- The key of the pair or of the conflict, where there is one. -/
def key? : MergeDecision k v → Option k
  | .output pair => pair.map Prod.fst
  | .conflict found => some found.mergeConflictKey

theorem key?_of_pair? {decision : MergeDecision k v} {pair : k × v}
    (h : decision.pair? = some pair) : decision.key? = some pair.1 := by
  cases decision with
  | output found =>
      cases h
      rfl
  | conflict found => cases h

theorem key?_of_conflict? {decision : MergeDecision k v}
    {found : MerkleThreeWayMergeConflict k v} (h : decision.conflict? = some found) :
    decision.key? = some found.mergeConflictKey := by
  cases decision with
  | output pair => cases h
  | conflict conflict =>
      cases h
      rfl

end MergeDecision

theorem takeSide_key {side : Option (MerkleEntry k v)} :
    (takeSide side).key? = side.map entryKey := by
  cases side <;> rfl

theorem mergeDecision_key {base left right : Option (MerkleEntry k v)} (good : k → Prop)
    (hbase : ∀ entry, base = some entry → good entry.entryKey)
    (hleft : ∀ entry, left = some entry → good entry.entryKey)
    (hright : ∀ entry, right = some entry → good entry.entryKey) {key : k}
    (h : (mergeDecision valuesEqual resolver base left right).key? = some key) :
    good key := by
  have htake : ∀ {side : Option (MerkleEntry k v)},
      (∀ entry, side = some entry → good entry.entryKey) →
      (takeSide side).key? = some key → good key := by
    intro side hside hkey
    rw [takeSide_key] at hkey
    obtain ⟨entry, hentry, rfl⟩ := Option.map_eq_some_iff.mp hkey
    exact hside entry hentry
  unfold mergeDecision at h
  split at h
  · exact htake hright h
  split at h
  · exact htake hleft h
  split at h
  · cases h
  · rename_i representative hrepresentative
    have hgood : good representative.entryKey := by
      rcases Option.or_eq_some_iff.mp hrepresentative with hside | ⟨-, hside⟩
      · exact hleft _ hside
      · rcases Option.or_eq_some_iff.mp hside with hside | ⟨-, hside⟩
        · exact hright _ hside
        · exact hbase _ hside
    simp only [resolveConflict] at h
    split at h
    · cases h
      exact hgood
    · exact htake hbase h
    · exact htake hleft h
    · exact htake hright h
    · cases h
    · cases h
      exact hgood

section Decisions

variable {base left right : List (MerkleEntry k v)}

theorem decisionAt_key {key target : k}
    (h : (decisionAt policy valuesEqual resolver base left right target).key? = some key) :
    policy.compareMerkleKeys key target = .eq :=
  mergeDecision_key (fun key => policy.compareMerkleKeys key target = .eq)
    (fun _ hfound => (findKey_mem hfound).2) (fun _ hfound => (findKey_mem hfound).2)
    (fun _ hfound => (findKey_mem hfound).2) h

variable [Std.TransCmp policy.compareMerkleKeys]

theorem decisionAt_congr {key other : k} (h : policy.compareMerkleKeys key other = .eq) :
    decisionAt policy valuesEqual resolver base left right key =
      decisionAt policy valuesEqual resolver base left right other := by
  simp only [decisionAt, findKey_congr h]

theorem WalkedKeys.cover {keys : List k} (h : WalkedKeys policy base left right keys) {key : k}
    {entries : List (MerkleEntry k v)} (hentries : entries ⊆ base ++ left ++ right)
    (hfound : findKey policy.compareMerkleKeys entryKey key entries ≠ none) :
    ∃ walked ∈ keys, policy.compareMerkleKeys walked key = .eq := by
  obtain ⟨entry, hentry⟩ := Option.ne_none_iff_exists'.mp hfound
  obtain ⟨hmem, heq⟩ := findKey_mem hentry
  obtain ⟨walked, hwalked, hsame⟩ := h.covers entry (hentries hmem)
  exact ⟨walked, hwalked, Std.TransCmp.eq_trans hsame heq⟩

theorem WalkedKeys.cover_decision {keys : List k} (h : WalkedKeys policy base left right keys)
    {key : k} (hdecision : decisionAt policy valuesEqual resolver base left right key ≠
      .output none) :
    ∃ walked ∈ keys, policy.compareMerkleKeys walked key = .eq := by
  by_contra hnone
  have habsent : ∀ {entries : List (MerkleEntry k v)}, entries ⊆ base ++ left ++ right →
      findKey policy.compareMerkleKeys entryKey key entries = none :=
    fun hsubset => by_contra fun hsome => hnone (h.cover hsubset hsome)
  apply hdecision
  rw [decisionAt, habsent (fun _ hmem => by simp [hmem]),
    habsent (fun _ hmem => by simp [hmem]), habsent (fun _ hmem => by simp [hmem])]
  rfl

end Decisions

section Table

variable [Std.TransCmp policy.compareMerkleKeys] {table : k → MergeDecision k v} {keys : List k}

/-- Sorted keys list a table that respects the comparer and decides nothing away from them. -/
theorem lists_of_covers (hsorted : StrictlySorted policy.compareMerkleKeys id keys)
    (hkey : ∀ target key, (table target).key? = some key →
      policy.compareMerkleKeys key target = .eq)
    (hcongr : ∀ target other, policy.compareMerkleKeys target other = .eq →
      table target = table other)
    (hcover : ∀ target, table target ≠ .output none →
      ∃ walked ∈ keys, policy.compareMerkleKeys walked target = .eq) :
    ListsOutput policy table (keys.filterMap fun key => (table key).pair?) ∧
      ListsConflicts policy table (keys.filterMap fun key => (table key).conflict?) := by
  have hpair : ∀ target pair, (table target).pair? = some pair →
      policy.compareMerkleKeys pair.1 target = .eq :=
    fun _ _ hpair => hkey _ _ (MergeDecision.key?_of_pair? hpair)
  have hconflict : ∀ target found, (table target).conflict? = some found →
      policy.compareMerkleKeys found.mergeConflictKey target = .eq :=
    fun _ _ hfound => hkey _ _ (MergeDecision.key?_of_conflict? hfound)
  refine ⟨⟨hsorted.filterMap hpair, findKey_filterMap hpair hsorted
      (fun target other heq => by rw [hcongr target other heq]) fun target pair hsome => ?_⟩,
    ⟨hsorted.filterMap hconflict, findKey_filterMap hconflict hsorted
      (fun target other heq => by rw [hcongr target other heq]) fun target found hsome => ?_⟩⟩
  all_goals
    refine hcover target fun hnone => ?_
    rw [hnone] at hsome
    cases hsome

end Table

variable (valuesEqual) (resolver)

theorem walkMerge_lists [Std.TransCmp policy.compareMerkleKeys]
    {base left right : List (MerkleEntry k v)}
    (hbase : StrictlySorted policy.compareMerkleKeys entryKey base)
    (hleft : StrictlySorted policy.compareMerkleKeys entryKey left)
    (hright : StrictlySorted policy.compareMerkleKeys entryKey right) :
    ∃ pairs conflicts,
      walkMerge policy valuesEqual resolver (base.length + left.length + right.length)
        base left right ⟨[], []⟩ = some ⟨pairs.reverse, conflicts.reverse⟩ ∧
      ListsOutput policy (decisionAt policy valuesEqual resolver base left right) pairs ∧
      ListsConflicts policy (decisionAt policy valuesEqual resolver base left right)
        conflicts := by
  obtain ⟨keys, hkeys, hwalk⟩ :=
    walkMerge_spec valuesEqual resolver _ ⟨[], []⟩ hbase hleft hright le_rfl
  exact ⟨_, _, by simpa using hwalk, lists_of_covers hkeys.sorted
    (fun _ _ => decisionAt_key) (fun _ _ => decisionAt_congr) fun _ => hkeys.cover_decision⟩

theorem fromList_listed (hlaw : LawfulPolicy policy) {table : k → MergeDecision k v}
    {pairs : List (k × v)} (h : ListsOutput policy table pairs) :
    (FitsPairs policy pairs → ∃ tree, fromList pairs policy = .ok tree ∧
      HoldsOutput policy table tree) ∧
    (¬ FitsPairs policy pairs → fromList pairs policy = .error .MerkleTreeSizeOverflow) := by
  obtain ⟨entries, hordered, hpairs, hbuild⟩ := fromList_eq_of_sorted hlaw pairs h.sorted
  have hfits : FitsPairs policy pairs ↔ FitsBlocks entries := by
    have hlength : entries.length = pairs.length := by rw [← hpairs, length_map]
    constructor
    · refine fun hfits => ⟨hlength ▸ hfits.count_le, fun entry hentry => ?_⟩
      obtain ⟨hkey, hvalue⟩ := (hordered.valid entry hentry).encoded_eq
      rw [hkey, hvalue]
      exact hfits.lengths entry.pair (hpairs ▸ mem_map_of_mem hentry)
    · refine fun hfits => ⟨hlength ▸ hfits.count_le, fun pair hpair => ?_⟩
      rw [← hpairs] at hpair
      obtain ⟨entry, hentry, rfl⟩ := mem_map.mp hpair
      obtain ⟨hkey, hvalue⟩ := (hordered.valid entry hentry).encoded_eq
      rw [pair, ← hkey, ← hvalue]
      exact hfits.lengths entry hentry
  have houtcome := buildCanonical_ordered hordered
  rw [hbuild]
  cases hroot : buildCanonical policy entries with
  | error problem =>
      rw [hroot] at houtcome
      refine ⟨fun hyes => absurd (hfits.mp hyes) houtcome.2, fun _ => ?_⟩
      rw [houtcome.1]
      rfl
  | ok root =>
      rw [hroot] at houtcome
      obtain ⟨hcanonical, htraversal⟩ := houtcome
      have htree : CanonicalTree ⟨root, policy⟩ := by
        refine ⟨hcanonical, ?_⟩
        rw [entries_eq, htraversal]
        exact hordered
      refine ⟨fun _ => ⟨_, rfl, rfl, htree, fun key => ?_⟩, fun hno => ?_⟩
      · rw [htree.lookupEntry_eq hlaw, entries_eq, htraversal,
          ← h.listed key, ← hpairs, findKey_map]
        rfl
      · refine absurd (hfits.mpr ?_) hno
        rw [← htraversal]
        exact hcanonical.fitsBlocks

section Trees

variable {base left right : MerkleSearchTree k v}

theorem CoherentPolicies.lookupEntry_eq {tree : MerkleSearchTree k v}
    (h : CoherentPolicies policy tree.policy) (hlaw : LawfulPolicy policy)
    (htree : CanonicalTree tree) (key : k) :
    lookupEntry key tree =
      findKey policy.compareMerkleKeys entryKey key tree.entries := by
  rw [htree.lookupEntry_eq (h.lawful hlaw), h.compare_eq]

theorem mergeEntries_lists (hlaw : LawfulPolicy base.policy)
    (hleftPolicy : CoherentPolicies base.policy left.policy)
    (hrightPolicy : CoherentPolicies base.policy right.policy)
    (hbase : CanonicalTree base) (hleft : CanonicalTree left) (hright : CanonicalTree right) :
    ∃ pairs conflicts,
      ListsOutput base.policy (mergeTable valuesEqual resolver base left right) pairs ∧
      ListsConflicts base.policy (mergeTable valuesEqual resolver base left right) conflicts ∧
      mergeEntries valuesEqual resolver base left right =
        some (finishMerge base.policy ⟨pairs.reverse, conflicts.reverse⟩) := by
  have := hlaw.compare_total
  have htable : mergeTable valuesEqual resolver base left right =
      decisionAt base.policy valuesEqual resolver base.entries left.entries
        right.entries := by
    funext key
    rw [mergeTable_eq, hbase.lookupEntry_eq hlaw, hleftPolicy.lookupEntry_eq hlaw hleft,
      hrightPolicy.lookupEntry_eq hlaw hright]
    rfl
  obtain ⟨pairs, conflicts, hwalk, hpairs, hconflicts⟩ :=
    walkMerge_lists valuesEqual resolver
      hbase.ordered.sorted (hleftPolicy.orderedEntries hleft.ordered).sorted
      (hrightPolicy.orderedEntries hright.ordered).sorted
  refine ⟨pairs, conflicts, htable ▸ hpairs, htable ▸ hconflicts, ?_⟩
  rw [mergeEntries, hwalk]
  rfl

theorem mergeThreeWayWith_eq_mergeEntries (hleftPolicy : CoherentPolicies base.policy left.policy)
    (hrightPolicy : CoherentPolicies base.policy right.policy)
    (hleftBase : left.rootDigest ≠ base.rootDigest)
    (hrightBase : right.rootDigest ≠ base.rootDigest)
    (hleftRight : left.rootDigest ≠ right.rootDigest) :
    mergeThreeWayWith valuesEqual resolver base left right =
      mergeEntries valuesEqual resolver base left right := by
  rw [mergeThreeWayWith, if_neg (by simp [hleftPolicy.compatible, hrightPolicy.compatible]),
    if_neg hleftBase, if_neg (by simp [hrightBase, hleftRight])]

/--
The table of a merge none of whose root digests agree: the conflicts of the table
if there are any, and otherwise a tree of its output, unless the output overflows
the fields of a block.
-/
theorem mergeThreeWayWith_table (hlaw : LawfulPolicy base.policy)
    (hleftPolicy : CoherentPolicies base.policy left.policy)
    (hrightPolicy : CoherentPolicies base.policy right.policy)
    (hbase : Reachable base.policy base) (hleft : Reachable left.policy left)
    (hright : Reachable right.policy right) (hleftBase : left.rootDigest ≠ base.rootDigest)
    (hrightBase : right.rootDigest ≠ base.rootDigest)
    (hleftRight : left.rootDigest ≠ right.rootDigest) :
    ∃ pairs conflicts,
      ListsOutput base.policy (mergeTable valuesEqual resolver base left right) pairs ∧
      ListsConflicts base.policy (mergeTable valuesEqual resolver base left right) conflicts ∧
      (conflicts ≠ [] → mergeThreeWayWith valuesEqual resolver base left right =
        some (.ok (.MerkleMergeConflicted conflicts))) ∧
      (conflicts = [] → FitsPairs base.policy pairs →
        ∃ tree, mergeThreeWayWith valuesEqual resolver base left right =
            some (.ok (.MerkleMergeSucceeded tree)) ∧
          HoldsOutput base.policy (mergeTable valuesEqual resolver base left right) tree) ∧
      (conflicts = [] → ¬ FitsPairs base.policy pairs →
        mergeThreeWayWith valuesEqual resolver base left right =
          some (.error .MerkleTreeSizeOverflow)) := by
  obtain ⟨pairs, conflicts, hpairs, hconflicts, hmerge⟩ :=
    mergeEntries_lists valuesEqual resolver hlaw hleftPolicy
      hrightPolicy (hbase.canonical hlaw).1
      (hleft.canonical (hleftPolicy.lawful hlaw)).1
      (hright.canonical (hrightPolicy.lawful hlaw)).1
  rw [mergeThreeWayWith_eq_mergeEntries valuesEqual resolver hleftPolicy hrightPolicy
    hleftBase hrightBase hleftRight, hmerge]
  obtain ⟨hfits, hoverflow⟩ := fromList_listed hlaw hpairs
  refine ⟨pairs, conflicts, hpairs, hconflicts, fun hsome => ?_, fun hnone hyes => ?_,
    fun hnone hno => ?_⟩
  · cases hreverse : conflicts.reverse with
    | nil => exact absurd (reverse_eq_nil_iff.mp hreverse) hsome
    | cons last rest =>
        rw [finishMerge]
        simp only
        rw [← hreverse, reverse_reverse]
  · obtain ⟨tree, htree, hholds⟩ := hfits hyes
    refine ⟨tree, ?_, hholds⟩
    rw [hnone, finishMerge]
    simp only [reverse_nil, reverse_reverse, htree]
    rfl
  · rw [hnone, finishMerge]
    simp only [reverse_nil, reverse_reverse, hoverflow hno]
    rfl

end Trees

/-! ### Two one-block trees that differ in a value -/

theorem lookupEntry_over {value : Option ByteString}
    (h : Reachable bytesPolicy ⟨some (upperNode value), bytesPolicy⟩) (key : Option ByteString) :
    lookupEntry key ⟨some (upperNode value), bytesPolicy⟩ =
      if key = none then some (lowerEntry value)
      else if key = some [1] then some upperEntry else none := by
  have hlaw := bytesPolicy_lawful.toLawfulPolicy
  rw [(h.canonical hlaw).1.lookupEntry_eq hlaw, entries_over]
  change findKey compare entryKey key [lowerEntry value, upperEntry] = _
  split
  · rename_i hkey
    rw [hkey]
    rfl
  rename_i hkey
  split
  · rename_i hupper
    rw [hupper]
    rfl
  · rename_i hupper
    refine findKey_eq_none.mpr ?_
    simpa [lowerEntry, upperEntry, eq_comm (b := key)] using ⟨hkey, hupper⟩

theorem lookupEntry_rival (key : Option ByteString) :
    lookupEntry key (emptyTree bytesPolicy) = none ∧
      lookupEntry key bytesTree = (if key = none then some (lowerEntry none)
        else if key = some [1] then some upperEntry else none) ∧
      lookupEntry key rivalTree = if key = none then some (lowerEntry (some [7]))
        else if key = some [1] then some upperEntry else none :=
  ⟨by rw [lookupEntry, emptyTree, lookupNode], lookupEntry_over bytesTree_reachable key,
    lookupEntry_over rivalTree_reachable key⟩

/-- Two additions of one key conflict where no resolver decides. -/
theorem mergeThreeWayWith_table_bytes : ∃ conflicts, conflicts ≠ [] ∧
    mergeThreeWayWith (fun left right => left == right) none (emptyTree bytesPolicy)
      bytesTree rivalTree = some (.ok (.MerkleMergeConflicted conflicts)) := by
  obtain ⟨hbytes, hrival, hdifferent⟩ := rivalTree_digests
  obtain ⟨pairs, conflicts, -, hconflicts, hmerge, -⟩ := mergeThreeWayWith_table
    (fun left right => left == right) none
    bytesPolicy_lawful.toLawfulPolicy (CoherentPolicies.refl bytesPolicy)
    (CoherentPolicies.refl bytesPolicy) emptyTree_reachable bytesTree_reachable
    rivalTree_reachable hbytes hrival hdifferent
  have hsome : conflicts ≠ [] := by
    intro hnone
    have hlisted := hconflicts.listed none
    obtain ⟨hempty, hleft, hright⟩ := lookupEntry_rival none
    rw [hnone, mergeTable_eq, hempty, hleft, hright] at hlisted
    cases hlisted
  exact ⟨conflicts, hsome, hmerge hsome⟩

section Overflow

variable (value : Option ByteString)

/-- The merge of the two trees from the empty one, where the resolver sets a value. -/
def settingMerge :
    Option (Except MerkleTreeError
      (MerkleThreeWayMergeResult (Option ByteString) (Option ByteString))) :=
  mergeThreeWayWith (fun left right => left == right) (some fun _ => .MergeSetValue value)
    (emptyTree bytesPolicy) bytesTree rivalTree

def settingTable (key : Option ByteString) :
    MergeDecision (Option ByteString) (Option ByteString) :=
  mergeTable (fun left right => left == right) (some fun _ => .MergeSetValue value)
    (emptyTree bytesPolicy) bytesTree rivalTree key

theorem settingTable_eq (key : Option ByteString) :
    settingTable value key = .output (if key = none then some (none, value)
      else if key = some [1] then some (some [1], none) else none) := by
  obtain ⟨hempty, hleft, hright⟩ := lookupEntry_rival key
  rw [settingTable, mergeTable_eq, hempty, hleft, hright]
  split
  · rfl
  · split <;> rfl

theorem settingMerge_overflow (hlarge : maxInt32 < (encodedValue bytesPolicy value).length) :
    settingMerge value = some (.error .MerkleTreeSizeOverflow) := by
  have hlaw := bytesPolicy_lawful.toLawfulPolicy
  have : Std.TransCmp (emptyTree bytesPolicy).policy.compareMerkleKeys := hlaw.compare_total
  obtain ⟨hbytes, hrival, hdifferent⟩ := rivalTree_digests
  obtain ⟨pairs, conflicts, hpairs, hconflicts, hmerge⟩ := mergeEntries_lists
    (fun left right => left == right) (some fun _ => .MergeSetValue value) hlaw
      (CoherentPolicies.refl bytesPolicy) (CoherentPolicies.refl bytesPolicy)
    (emptyTree_reachable.canonical hlaw).1 (bytesTree_reachable.canonical hlaw).1
    (rivalTree_reachable.canonical hlaw).1
  have htable : mergeTable (fun left right => left == right)
      (some fun _ => .MergeSetValue value) (emptyTree bytesPolicy) bytesTree rivalTree =
      settingTable value := rfl
  rw [htable] at hpairs hconflicts
  have hnone : conflicts = [] := by
    apply eq_nil_iff_forall_not_mem.mpr
    intro found hfound
    have hlisted := hconflicts.listed found.mergeConflictKey
    rw [settingTable_eq, MergeDecision.conflict?, findKey_eq_none] at hlisted
    exact hlisted found hfound Std.ReflCmp.compare_self
  have hoverflow : ¬ FitsPairs bytesPolicy pairs := by
    intro hfits
    have hlisted := hpairs.listed none
    rw [settingTable_eq, if_pos rfl, MergeDecision.pair?] at hlisted
    obtain ⟨hmem, -⟩ := findKey_mem hlisted
    exact absurd (hfits.lengths _ hmem).2 (Nat.not_le.mpr hlarge)
  rw [settingMerge, mergeThreeWayWith_eq_mergeEntries _ _ (CoherentPolicies.refl bytesPolicy)
    (CoherentPolicies.refl bytesPolicy) hbytes hrival hdifferent, hmerge, hnone, finishMerge]
  simp only [reverse_nil, reverse_reverse]
  rw [show (emptyTree bytesPolicy).policy = bytesPolicy from rfl,
    (fromList_listed hlaw hpairs).2 hoverflow]
  rfl

end Overflow

/-- A resolver's value that does not fit a block makes the merge overflow. -/
theorem mergeThreeWayWith_overflow_bytes :
    Reachable bytesPolicy (emptyTree bytesPolicy) ∧ Reachable bytesPolicy bytesTree ∧
      Reachable bytesPolicy rivalTree ∧
      (∀ key, (settingTable (some (List.replicate (2 ^ 31) 0)) key).conflict? = none) ∧
      settingMerge (some (List.replicate (2 ^ 31) 0)) = some (.error .MerkleTreeSizeOverflow) := by
  have hlength : ∀ count, (encodedValue bytesPolicy
      (some (List.replicate count 0))).length = count + 1 := by
    intro count
    rw [encodedValue]
    exact congrArg (· + 1) length_replicate
  refine ⟨emptyTree_reachable, bytesTree_reachable, rivalTree_reachable, fun key => ?_,
    settingMerge_overflow _ ?_⟩
  · rw [settingTable_eq]
    rfl
  · rw [hlength]
    decide

end Durable7.Hamt
