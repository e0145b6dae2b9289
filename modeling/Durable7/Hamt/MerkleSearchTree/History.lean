import Durable7.Hamt.MerkleSearchTree.FromList

/-!
# Edit histories

A history is a finite sequence of edits starting from the empty tree.  Its
meaning is the map it leaves behind, and every successful history realizes its
meaning by a canonical tree.
-/

namespace Durable7.Hamt

open Foundation List Function

variable {k v : Type} {policy : MerkleSearchTreePolicy k v}

inductive MapOperation (k v : Type) where
  | insert (key : k) (value : v)
  | delete (key : k)
  | clear
  | fromList (source : List (k × v))

namespace MapOperation

/-- The effect of an edit on the contents. -/
def meaning (policy : MerkleSearchTreePolicy k v) (contents : MerkleContents) :
    MapOperation k v → MerkleContents
  | .insert key value => storePair policy contents (key, value)
  | .delete key => update contents (encodedKey policy key) none
  | .clear => fun _ => none
  | .fromList source => storeAll policy (fun _ => none) source

def apply (tree : MerkleSearchTree k v) :
    MapOperation k v → Except MerkleTreeError (MerkleSearchTree k v)
  | .insert key value => Hamt.insert key value tree
  | .delete key => Hamt.delete key tree
  | .clear => .ok (Hamt.clear tree)
  | .fromList source => Hamt.fromList source tree.policy

end MapOperation

/-- The final mapping of a history. -/
def historyMeaning (policy : MerkleSearchTreePolicy k v)
    (operations : List (MapOperation k v)) : MerkleContents :=
  operations.foldl (MapOperation.meaning policy) fun _ => none

def runHistory (policy : MerkleSearchTreePolicy k v) (operations : List (MapOperation k v)) :
    Except MerkleTreeError (MerkleSearchTree k v) :=
  operations.foldlM MapOperation.apply (emptyTree policy)

/-- A tree produced by some successful history under the policy. -/
def Reachable (policy : MerkleSearchTreePolicy k v) (tree : MerkleSearchTree k v) : Prop :=
  ∃ operations, runHistory policy operations = .ok tree

/-! ## Each edit realizes its meaning -/

/-- A canonical tree of the policy with the given contents. -/
structure Represents (policy : MerkleSearchTreePolicy k v)
    (contents : MerkleContents) (tree : MerkleSearchTree k v) : Prop where
  policy_eq : tree.policy = policy
  canonical : CanonicalTree tree
  contents_eq : tree.contents = contents

variable {entry : MerkleEntry k v}

namespace OrderedEntries

variable {below above : List (MerkleEntry k v)}

theorem replace (hlaw : LawfulPolicy policy)
    {replacement : MerkleEntry k v} (h : OrderedEntries policy (below ++ entry :: above))
    (hvalid : ValidEntry policy replacement) (hkey : replacement.entryKey = entry.entryKey) :
    OrderedEntries policy (below ++ replacement :: above) ∧
      contentsOf (below ++ replacement :: above) =
        update (contentsOf (below ++ entry :: above))
          replacement.entryKeyBytes (some replacement.entryValueBytes) := by
  have hbytes : replacement.entryKeyBytes = entry.entryKeyBytes := by
    rw [hvalid.encoded_eq.1, (h.valid entry (by simp)).encoded_eq.1, hkey]
  have hpair := h.keyBytes_pairwise hlaw
  rw [pairwise_append] at hpair
  have hbelow : ∀ other ∈ below, other.entryKeyBytes ≠ entry.entryKeyBytes :=
    fun other hother => hpair.2.2 other hother entry (by simp)
  refine ⟨⟨?_, ?_⟩, ?_⟩
  · have hsorted := h.sorted
    simp only [StrictlySorted, pairwise_append, pairwise_cons,
      mem_cons, forall_eq_or_imp] at hsorted ⊢
    rw [hkey]
    exact hsorted
  · intro other hother
    rcases mem_append.mp hother with hother | hother
    · exact h.valid other (by simp [hother])
    rcases mem_cons.mp hother with rfl | hother
    · exact hvalid
    · exact h.valid other (by simp [hother])
  · rw [contentsOf_insert (by rw [hbytes]; exact hbelow),
      contentsOf_insert hbelow, hbytes, update_idem]

theorem insert_between (hlaw : LawfulPolicy policy)
    (h : OrderedEntries policy (below ++ above)) (hvalid : ValidEntry policy entry)
    (hbelow : ∀ other ∈ below, probeKey policy entry.entryKey other = .lt)
    (habove : ∀ other ∈ above, probeKey policy entry.entryKey other = .gt) :
    OrderedEntries policy (below ++ entry :: above) ∧
      contentsOf (below ++ entry :: above) =
        update (contentsOf (below ++ above)) entry.entryKeyBytes (some entry.entryValueBytes) := by
  have := hlaw.compare_total
  refine ⟨⟨?_, ?_⟩, contentsOf_insert fun other hother heq => ?_⟩
  · have hsorted := h.sorted
    simp only [StrictlySorted, pairwise_append, pairwise_cons,
      mem_cons, forall_eq_or_imp] at hsorted ⊢
    refine ⟨hsorted.1, ⟨fun other hother => ?_, hsorted.2.1⟩,
      fun other hother => ⟨hbelow other hother, hsorted.2.2 other hother⟩⟩
    exact Std.OrientedCmp.lt_of_gt (habove other hother)
  · intro other hother
    rcases mem_append.mp hother with hother | hother
    · exact h.valid other (by simp [hother])
    rcases mem_cons.mp hother with rfl | hother
    · exact hvalid
    · exact h.valid other (by simp [hother])
  · have hlt := hbelow other hother
    rw [probeKey, ((h.valid other (by simp [hother])).compare_eq_iff hvalid hlaw).mpr heq] at hlt
    cases hlt

theorem erase (hlaw : LawfulPolicy policy) (h : OrderedEntries policy (below ++ entry :: above)) :
    OrderedEntries policy (below ++ above) ∧
      contentsOf (below ++ above) =
        update (contentsOf (below ++ entry :: above))
          entry.entryKeyBytes none := by
  have hpair := h.keyBytes_pairwise hlaw
  rw [pairwise_append] at hpair
  have hbelow : ∀ other ∈ below, other.entryKeyBytes ≠ entry.entryKeyBytes :=
    fun other hother => hpair.2.2 other hother entry (by simp)
  have habove : ∀ other ∈ above, other.entryKeyBytes ≠ entry.entryKeyBytes :=
    fun other hother => ((pairwise_cons.mp hpair.2.1).1 other hother).symm
  refine ⟨h.sublist ((sublist_cons_self entry above).append_left below), ?_⟩
  rw [contentsOf_insert hbelow, update_idem, eq_comm,
    update_eq_self_iff, eq_comm, contentsOf_eq_none]
  intro other hother
  exact (mem_append.mp hother).elim (hbelow other) (habove other)

end OrderedEntries

/-- What a successful insertion does to the entries. -/
inductive InsertedEntries (policy : MerkleSearchTreePolicy k v) (key : k) (value : v) :
    List (MerkleEntry k v) → List (MerkleEntry k v) → Prop
  | replaced {below above : List (MerkleEntry k v)} {existing : MerkleEntry k v}
      (stored : v) (heq : probeKey policy key existing = .eq)
      (hstored : encodedValue policy stored = encodedValue policy value) :
      InsertedEntries policy key value (below ++ existing :: above)
        (below ++ { existing with
          entryValue := stored
          entryValueBytes := encodedValue policy value } :: above)
  | added {below above : List (MerkleEntry k v)} {entry : MerkleEntry k v}
      (hbelow : ∀ other ∈ below, probeKey policy key other = .lt)
      (habove : ∀ other ∈ above, probeKey policy key other = .gt)
      (hentry : createEntry policy key value = .ok entry) :
      InsertedEntries policy key value (below ++ above) (below ++ entry :: above)

variable {tree updated : MerkleSearchTree k v} {key : k} {value : v}

theorem insert_gives (hlaw : LawfulPolicy tree.policy) (h : CanonicalTree tree) (key : k)
    (value : v) :
    Gives (fun updated => updated.policy = tree.policy ∧
        CanonicalChild tree.policy updated.treeRoot ∧
        InsertedEntries tree.policy key value tree.entries updated.entries)
      (Hamt.insert key value tree) := by
  have hlookup := lookupNode_spec h.root (h.ordered.searchable hlaw key)
  obtain ⟨oldRoot, policy⟩ := tree
  obtain ⟨hroot, hordered⟩ := h
  simp only [MerkleSearchTree.entries_eq] at hroot hordered hlookup hlaw ⊢
  have hsearch := hordered.searchable hlaw key
  unfold Hamt.insert
  split
  · rename_i existing hexisting
    rw [lookupEntry] at hexisting
    rw [hexisting] at hlookup
    have hmem := mem_of_find?_eq_some hlookup.symm
    have hprobe : probeKey policy key existing = .eq := by simpa using List.find?_some hlookup.symm
    have hbytes := ((hordered.valid existing hmem).probeKey_eq_iff hlaw
      (hlaw.encode_key key)).mp hprobe
    rw [hlaw.encode_value value]
    simp only [mapCodecError, Except.mapError, except_ok_bind]
    split
    · rename_i hsame
      obtain ⟨below, above, htraversal⟩ := append_of_mem hmem
      have hreplaced := @InsertedEntries.replaced k v policy key value below above existing
        existing.entryValue hprobe
        (by rw [← (hordered.valid existing hmem).encoded_eq.2, hsame])
      rw [← hsame] at hreplaced
      rw [htraversal]
      exact .ok ⟨rfl, hroot, htraversal ▸ hreplaced⟩
    · cases oldRoot with
      | none => simp at hmem
      | some node =>
          rw [canonicalChild_some] at hroot
          rw [enumerateChild_some] at hordered hsearch hmem
          have hunique : ∀ entry ∈ enumerateNode node,
              probeKey policy key entry = .eq → entry = existing := by
            intro entry hentry heq
            refine hordered.eq_of_keyBytes_eq hlaw hentry hmem ?_
            rw [hbytes]
            exact ((hordered.valid entry hentry).probeKey_eq_iff hlaw (hlaw.encode_key key)).mp heq
          refine (updateValue_gives hroot hsearch ⟨existing, hmem, hprobe⟩
            fun entry hentry heq => by rw [hunique entry hentry heq]).bind
            fun root hupdated => .ok ?_
          obtain ⟨hcanonical, below, entry, above, htraversal, heq, hresult⟩ := hupdated
          obtain rfl := hunique entry (by rw [htraversal]; simp) heq
          refine ⟨rfl, canonicalChild_some.mpr hcanonical, ?_⟩
          rw [enumerateChild_some, enumerateChild_some, htraversal, hresult]
          exact .replaced value heq rfl
  · rename_i hnone
    rw [lookupEntry] at hnone
    rw [hnone, eq_comm, List.find?_eq_none] at hlookup
    obtain ⟨entry, hentry⟩ := createEntry_total hlaw key value
    obtain ⟨hvalid, rfl, rfl⟩ := createEntry_eq_ok.mp hentry
    rw [hentry, except_ok_bind]
    refine (insertNode_gives (by rw [hvalid.level_eq]; exact merkleLevel_le _) hroot hsearch).bind
      fun root hadded => .ok ?_
    obtain ⟨hcanonical, below, above, htraversal, hbelow, habove, hresult⟩ := hadded
    rw [htraversal] at hlookup
    have hgreater : ∀ other ∈ above, probeKey policy entry.entryKey other = .gt := by
      intro other hother
      have hne := hlookup other (by simp [hother])
      have hge := habove other hother
      cases hcmp : probeKey policy entry.entryKey other <;> simp_all
    refine ⟨rfl, canonicalChild_some.mpr hcanonical, ?_⟩
    rw [enumerateChild_some, htraversal, hresult]
    exact .added hbelow hgreater hentry

theorem InsertedEntries.ordered (hlaw : LawfulPolicy policy)
    {entries inserted : List (MerkleEntry k v)}
    (h : InsertedEntries policy key value entries inserted)
    (hordered : OrderedEntries policy entries) :
    OrderedEntries policy inserted ∧
      contentsOf inserted = storePair policy (contentsOf entries) (key, value) := by
  cases h with
  | @replaced below above existing stored heq hstored =>
      have hvalid := hordered.valid existing (by simp)
      have hbytes := (hvalid.probeKey_eq_iff hlaw (hlaw.encode_key key)).mp heq
      have hreplacement : ValidEntry policy { existing with
          entryValue := stored
          entryValueBytes := encodedValue policy value } :=
        ⟨hvalid.keyBytes, hstored ▸ hlaw.encode_value stored, hvalid.level_eq⟩
      obtain ⟨hreplaced, hcontents⟩ := hordered.replace hlaw hreplacement rfl
      refine ⟨hreplaced, ?_⟩
      rw [hcontents, storePair, hbytes]
  | @added below above entry hbelow habove hentry =>
      obtain ⟨hvalid, rfl, rfl⟩ := createEntry_eq_ok.mp hentry
      obtain ⟨hinserted, hcontents⟩ := hordered.insert_between hlaw hvalid hbelow habove
      obtain ⟨hkeyBytes, hvalueBytes⟩ := hvalid.encoded_eq
      refine ⟨hinserted, ?_⟩
      rw [hcontents, storePair, hkeyBytes, hvalueBytes]

variable {contents : MerkleContents}

theorem Represents.insert (hlaw : LawfulPolicy policy) (h : Represents policy contents tree)
    (hinsert : Hamt.insert key value tree = .ok updated) :
    Represents policy (storePair policy contents (key, value)) updated := by
  obtain ⟨rfl, hcanonical, rfl⟩ := h
  obtain ⟨hpolicy, hroot, hentries⟩ := (insert_gives hlaw hcanonical key value).of_ok hinsert
  obtain ⟨hordered, hcontents⟩ := hentries.ordered hlaw hcanonical.ordered
  rw [← hpolicy] at hroot hordered
  exact ⟨hpolicy, ⟨hroot, hordered⟩, hcontents⟩

/-- What a successful deletion does to the entries. -/
inductive DeletedEntries (policy : MerkleSearchTreePolicy k v) (key : k) :
    List (MerkleEntry k v) → List (MerkleEntry k v) → Prop
  | absent {entries : List (MerkleEntry k v)}
      (hne : ∀ entry ∈ entries, probeKey policy key entry ≠ .eq) :
      DeletedEntries policy key entries entries
  | removed {below above : List (MerkleEntry k v)} {entry : MerkleEntry k v}
      (heq : probeKey policy key entry = .eq) :
      DeletedEntries policy key (below ++ entry :: above) (below ++ above)

theorem delete_gives (hlaw : LawfulPolicy tree.policy) (h : CanonicalTree tree) (key : k) :
    Gives (fun updated => updated.policy = tree.policy ∧
        CanonicalChild tree.policy updated.treeRoot ∧
        DeletedEntries tree.policy key tree.entries updated.entries)
      (Hamt.delete key tree) := by
  obtain ⟨oldRoot, policy⟩ := tree
  obtain ⟨hroot, hordered⟩ := h
  simp only [MerkleSearchTree.entries_eq] at hroot hordered hlaw ⊢
  refine (removeNode_gives hroot (hordered.searchable hlaw key)).bind fun outcome houtcome => .ok ?_
  obtain ⟨root, removed⟩ := outcome
  cases removed with
  | false => exact ⟨rfl, hroot, .absent (houtcome.missing rfl)⟩
  | true =>
      obtain ⟨below, entry, above, htraversal, heq, hresult⟩ := houtcome.present rfl
      refine ⟨rfl, houtcome.canonical, ?_⟩
      simp only [if_true]
      rw [htraversal, hresult]
      exact .removed heq

theorem DeletedEntries.ordered (hlaw : LawfulPolicy policy)
    {entries remaining : List (MerkleEntry k v)} (h : DeletedEntries policy key entries remaining)
    (hordered : OrderedEntries policy entries) :
    OrderedEntries policy remaining ∧
      contentsOf remaining = update (contentsOf entries) (encodedKey policy key) none := by
  cases h with
  | absent hne =>
      refine ⟨hordered, ?_⟩
      rw [eq_comm, update_eq_self_iff, eq_comm]
      exact contentsOf_eq_none.mpr fun entry hentry heq => hne entry hentry
        (((hordered.valid entry hentry).probeKey_eq_iff hlaw (hlaw.encode_key key)).mpr heq)
  | @removed below above entry heq =>
      have hbytes := ((hordered.valid entry (by simp)).probeKey_eq_iff hlaw
        (hlaw.encode_key key)).mp heq
      obtain ⟨herased, hcontents⟩ := hordered.erase hlaw
      exact ⟨herased, by rw [hcontents, hbytes]⟩

theorem Represents.delete (hlaw : LawfulPolicy policy) (h : Represents policy contents tree)
    (hdelete : Hamt.delete key tree = .ok updated) :
    Represents policy (update contents (encodedKey policy key) none) updated := by
  obtain ⟨rfl, hcanonical, rfl⟩ := h
  obtain ⟨hpolicy, hroot, hentries⟩ := (delete_gives hlaw hcanonical key).of_ok hdelete
  obtain ⟨hordered, hcontents⟩ := hentries.ordered hlaw hcanonical.ordered
  rw [← hpolicy] at hroot hordered
  exact ⟨hpolicy, ⟨hroot, hordered⟩, hcontents⟩

theorem Represents.empty (policy : MerkleSearchTreePolicy k v) :
    Represents policy (fun _ => none) (emptyTree policy) :=
  ⟨rfl, ⟨canonicalChild_none policy, OrderedEntries.nil policy⟩, rfl⟩

theorem Represents.clear (h : Represents policy contents tree) :
    Represents policy (fun _ => none) (Hamt.clear tree) := by
  obtain ⟨oldRoot, policy⟩ := tree
  obtain ⟨rfl, ⟨hroot, hordered⟩, rfl⟩ := h
  unfold Hamt.clear
  split
  · rename_i hsize
    cases oldRoot with
    | none => exact Represents.empty policy
    | some node =>
        have hnode := canonicalChild_some.mp hroot
        have hpos := length_pos_of_ne_nil hnode.enumerateNode_ne_nil
        rw [← hnode.nodeCount_eq] at hpos
        exact absurd hsize (Nat.ne_of_gt hpos)
  · exact Represents.empty policy

theorem MapOperation.apply_represents (hlaw : LawfulPolicy policy)
    (h : Represents policy contents tree) (operation : MapOperation k v)
    (hstep : operation.apply tree = .ok updated) :
    Represents policy (operation.meaning policy contents) updated := by
  cases operation with
  | insert key value => exact h.insert hlaw hstep
  | delete key => exact h.delete hlaw hstep
  | clear =>
      cases hstep
      exact h.clear
  | fromList source =>
      have hbuild : Hamt.fromList source policy = .ok updated := by
        rw [← h.policy_eq]
        exact hstep
      obtain ⟨hcanonical, hpolicy, hcontents⟩ := fromList_spec hlaw hbuild
      exact ⟨hpolicy, hcanonical, hcontents⟩

theorem runHistory_represents (hlaw : LawfulPolicy policy) {operations : List (MapOperation k v)}
    (h : runHistory policy operations = .ok tree) :
    Represents policy (historyMeaning policy operations) tree := by
  have hrun : ∀ (operations : List (MapOperation k v)) contents start,
      Represents policy contents start →
      operations.foldlM MapOperation.apply start = .ok tree →
      Represents policy (operations.foldl (MapOperation.meaning policy) contents) tree := by
    intro operations
    induction operations with
    | nil =>
        intro contents start hstart hfold
        cases hfold
        exact hstart
    | cons operation operations ih =>
        intro contents start hstart hfold
        rw [foldlM_cons, bind_eq_ok] at hfold
        obtain ⟨next, hnext, hrest⟩ := hfold
        rw [foldl_cons]
        exact ih _ next (operation.apply_represents hlaw hstart hnext) hrest
  exact hrun operations _ _ (Represents.empty policy) h

theorem Reachable.canonical (hlaw : LawfulPolicy policy) (h : Reachable policy tree) :
    CanonicalTree tree ∧ tree.policy = policy := by
  obtain ⟨operations, hrun⟩ := h
  have hrepresents := runHistory_represents hlaw hrun
  exact ⟨hrepresents.canonical, hrepresents.policy_eq⟩

/-! ## Two-block trees of the `bytes` policy -/

/-- A block with one entry and at most a child in front of it. -/
def soleNode (entry : MerkleEntry (Option ByteString) (Option ByteString))
    (child : Option (MerkleNode (Option ByteString) (Option ByteString))) :
    MerkleNode (Option ByteString) (Option ByteString) :=
  let bytes := blockBytes bytesDomainDigest entry.entryLevel (1 + child.elim 0 MerkleNode.nodeCount)
    [entry.encoded] [childDigest bytesPolicy child, bytesEmptyDigest]
  { nodeLevel := entry.entryLevel
    nodeEntries := [entry]
    nodeChildren := [child, none]
    nodeCount := 1 + child.elim 0 MerkleNode.nodeCount
    nodeHeight := 1 + child.elim 0 MerkleNode.nodeHeight
    nodeBlockCount := 1 + child.elim 0 MerkleNode.nodeBlockCount
    nodeMinimumKey := child.elim entry.entryKey MerkleNode.nodeMinimumKey
    nodeMaximumKey := entry.entryKey
    nodeBlockBytes := bytes
    nodeDigest := hashBytes bytes }

def upperEntry : MerkleEntry (Option ByteString) (Option ByteString) :=
  ⟨some [1], none, [1, 1], [0], 1⟩

def lowerEntry (value : Option ByteString) :
    MerkleEntry (Option ByteString) (Option ByteString) :=
  ⟨none, value, [0], encodedValue bytesPolicy value, 0⟩

def lowerNode (value : Option ByteString) : MerkleNode (Option ByteString) (Option ByteString) :=
  soleNode (lowerEntry value) none

def upperNode (value : Option ByteString) : MerkleNode (Option ByteString) (Option ByteString) :=
  soleNode upperEntry (some (lowerNode value))

def bytesTree : MerkleSearchTree (Option ByteString) (Option ByteString) :=
  ⟨some (upperNode none), bytesPolicy⟩

def rivalTree : MerkleSearchTree (Option ByteString) (Option ByteString) :=
  ⟨some (upperNode (some [7])), bytesPolicy⟩

theorem newNode_sole {entry : MerkleEntry (Option ByteString) (Option ByteString)}
    {child : Option (MerkleNode (Option ByteString) (Option ByteString))}
    (hlevel : entry.entryLevel ≤ 64) (hchild : ∀ node ∈ child, node.nodeLevel < entry.entryLevel)
    (hcount : (soleNode entry child).nodeCount ≤ maxInt32)
    (hlengths : entry.entryKeyBytes.length ≤ maxInt32 ∧ entry.entryValueBytes.length ≤ maxInt32) :
    newNode bytesPolicy entry.entryLevel [entry] [child, none] = .ok (soleNode entry child) :=
  newNode_eq_ok.mpr ⟨{
    level_le := hlevel
    nonempty := cons_ne_nil _ _
    arity := rfl
    child_level := by simpa [soleNode, eq_comm] using hchild
    count_eq := by cases child <;> simp [soleNode, MerkleNode.presentChildren]
    count_le := hcount
    height_eq := by cases child <;> simp [soleNode, MerkleNode.presentChildren]
    blockCount_eq := by cases child <;> simp [soleNode, MerkleNode.presentChildren]
    lengths := by simpa [soleNode] using hlengths
    bytes_eq := rfl
    digest_eq := rfl
    minimum_eq := by rintro _ _ ⟨⟩ ⟨⟩; rfl
    maximum_eq := by rintro _ _ ⟨⟩ ⟨⟩; rfl }, rfl, rfl, rfl⟩

theorem insert_upper : Hamt.insert (some [1]) none (emptyTree bytesPolicy) =
    .ok ⟨some (soleNode upperEntry none), bytesPolicy⟩ := by
  have hentry : createEntry bytesPolicy (some [1]) none = .ok upperEntry :=
    createEntry_eq_ok.mpr ⟨⟨rfl, rfl, by decide +kernel⟩, rfl, rfl⟩
  have hlookup : lookupEntry (some [1]) (emptyTree bytesPolicy) = none := by
    rw [lookupEntry, emptyTree, lookupNode]
  have hnode : insertNode bytesPolicy upperEntry none = .ok (soleNode upperEntry none) := by
    rw [insertNode]
    exact newNode_sole (by decide) (by simp) (by decide) (by decide)
  rw [Hamt.insert, hlookup]
  simp only [emptyTree, hentry, hnode, except_ok_bind]

/-- The least key belongs in front of the upper entry. -/
theorem findPosition_upper : findPosition bytesPolicy [upperEntry] none = (0, false) := by
  have hprobe : probeKey bytesPolicy none upperEntry = .gt := rfl
  rw [findPosition]
  simp [binarySearch, hprobe]

theorem insert_over {value : Option ByteString}
    (hlength : (encodedValue bytesPolicy value).length ≤ maxInt32) :
    Hamt.insert none value ⟨some (soleNode upperEntry none), bytesPolicy⟩ =
      .ok ⟨some (upperNode value), bytesPolicy⟩ := by
  have hlevel : (0 : UInt8) = merkleLevel (hashMerkleKeyBytes bytesPolicy [0]) := by decide +kernel
  have hentry : createEntry bytesPolicy none value = .ok (lowerEntry value) :=
    createEntry_eq_ok.mpr ⟨⟨rfl, by cases value <;> rfl, hlevel⟩, rfl, rfl⟩
  have hposition : findPosition bytesPolicy (soleNode upperEntry none).nodeEntries none =
      (0, false) := findPosition_upper
  have hlookup : lookupEntry none
      (⟨some (soleNode upperEntry none), bytesPolicy⟩ : MerkleSearchTree _ _) = none := by
    rw [lookupEntry, lookupNode, hposition]
    exact lookupNode.eq_1 _ _
  have hlower : insertNode bytesPolicy (lowerEntry value) none =
      .ok (lowerNode value) := by
    rw [insertNode]
    exact newNode_sole (show (0 : UInt8) ≤ 64 by decide) (by simp) (show 1 ≤ maxInt32 by decide)
      ⟨show 1 ≤ maxInt32 by decide, hlength⟩
  have hupper : insertNode bytesPolicy (lowerEntry value) (some (soleNode upperEntry none)) =
      .ok (upperNode value) := by
    have hlow : (lowerEntry value).entryLevel < (soleNode upperEntry none).nodeLevel :=
      show (0 : UInt8) < 1 by decide
    rw [insertNode, if_neg (UInt8.lt_asymm hlow), if_pos hlow,
      show (lowerEntry value).entryKey = none from rfl, hposition]
    change (insertNode bytesPolicy (lowerEntry value) none >>= _) = _
    rw [hlower, except_ok_bind]
    exact @newNode_sole upperEntry (some (lowerNode value)) (by decide)
      (by simp [lowerNode, soleNode, lowerEntry, upperEntry]) (show 2 ≤ maxInt32 by decide)
        (by decide)
  rw [Hamt.insert, hlookup]
  simp only [hentry, hupper, except_ok_bind]

theorem runHistory_over {value : Option ByteString}
    (hlength : (encodedValue bytesPolicy value).length ≤ maxInt32) :
    runHistory bytesPolicy [.insert (some [1]) none, .insert none value] =
      .ok ⟨some (upperNode value), bytesPolicy⟩ := by
  simp [runHistory, MapOperation.apply, insert_upper, insert_over hlength]

theorem emptyTree_reachable : Reachable bytesPolicy (emptyTree bytesPolicy) := ⟨[], rfl⟩

theorem bytesTree_reachable : Reachable bytesPolicy bytesTree :=
  ⟨_, runHistory_over (by decide)⟩

theorem rivalTree_reachable : Reachable bytesPolicy rivalTree := ⟨_, runHistory_over (by decide)⟩

theorem beq_of_encodedValue_bytes (one other : Option ByteString)
    (h : encodedValue bytesPolicy one = encodedValue bytesPolicy other) :
    (one == other) = true := by
  have hone := bytesPolicy_lawful.encode_value one
  have hother := bytesPolicy_lawful.encode_value other
  rw [h, ← hother] at hone
  rw [beq_iff_eq]
  exact nullableBytes_encode_injective hone

/--
History independence: two successful histories with the same final mapping from
encoded keys to encoded values leave trees with the same blocks in preorder.
-/
theorem runHistory_history_independent (hlaw : LawfulPolicy policy)
    {left right : List (MapOperation k v)} {leftTree rightTree : MerkleSearchTree k v}
    (hleft : runHistory policy left = .ok leftTree)
    (hright : runHistory policy right = .ok rightTree)
    (hmeaning : historyMeaning policy left = historyMeaning policy right) :
    blocksPreorder leftTree = blocksPreorder rightTree ∧
      leftTree.rootDigest = rightTree.rootDigest := by
  have hleftRep := runHistory_represents hlaw hleft
  have hrightRep := runHistory_represents hlaw hright
  apply hleftRep.canonical.sameBlocks hrightRep.canonical
  · rw [hleftRep.policy_eq, hrightRep.policy_eq]
  · rw [hleftRep.policy_eq]
    exact hlaw
  · rw [hleftRep.contents_eq, hrightRep.contents_eq, hmeaning]

theorem runHistory_history_independent_bytes :
    ∃ tree, runHistory bytesPolicy [.fromList [(none, some [7]), (none, none),
        (some [1], none)]] = .ok tree ∧
      blocksPreorder bytesTree = blocksPreorder tree ∧
      bytesTree.rootDigest = tree.rootDigest := by
  have htree : ∃ tree, fromList [(none, some [7]), (none, none), (some [1], none)] bytesPolicy =
      .ok tree :=
    fromList_total bytesPolicy_lawful.toLawfulPolicy (by decide) (by decide)
  obtain ⟨tree, htree⟩ := htree
  have hright : runHistory bytesPolicy [.fromList [(none, some [7]), (none, none),
      (some [1], none)]] = .ok tree := by
    simp [runHistory, MapOperation.apply, emptyTree, htree]
  refine ⟨tree, hright, runHistory_history_independent bytesPolicy_lawful.toLawfulPolicy
    (runHistory_over (by decide)) hright ?_⟩
  have hkeys : encodedKey bytesPolicy (some [1]) ≠ encodedKey bytesPolicy none := by decide
  simp [historyMeaning, MapOperation.meaning, storeAll, storePair, update_comm hkeys]

end Durable7.Hamt
