import Durable7.Hamt.MerkleSearchTree.Contents

/-!
# The bulk build

`buildCanonical` succeeds exactly when every count and length fits the signed
32-bit fields of a block, and reports the overflow otherwise.  `fromList` first
reduces its source to the first key and last value of every class of equivalent
keys, so that it stores what inserting the pairs one by one would store.
-/

namespace Durable7.Hamt

open Foundation List

variable {k v : Type} {policy : MerkleSearchTreePolicy k v}

section

/-! ## The outcome of a build -/

/-- Every count and length fits the signed 32-bit fields of a block. -/
structure FitsBlocks (entries : List (MerkleEntry k v)) : Prop where
  count_le : entries.length ≤ maxInt32
  lengths : ∀ entry ∈ entries, entry.entryKeyBytes.length ≤ maxInt32 ∧
    entry.entryValueBytes.length ≤ maxInt32

variable {entries : List (MerkleEntry k v)}

theorem FitsBlocks.sublist {fewer : List (MerkleEntry k v)} (h : FitsBlocks entries)
    (hsub : fewer.Sublist entries) :
    FitsBlocks fewer :=
  ⟨hsub.length_le.trans h.count_le, fun entry hentry => h.lengths entry (hsub.subset hentry)⟩

theorem CanonicalNode.fitsBlocks {node : MerkleNode k v}
    (h : CanonicalNode policy node) : FitsBlocks (enumerateNode node) := by
  induction h with
  | @intro node block levels children ih =>
      have h : CanonicalNode policy node := ⟨block, levels, children⟩
      refine ⟨h.nodeCount_eq ▸ block.count_le, fun entry hentry => ?_⟩
      rcases block.mem_enumerateNode.mp hentry with hown | ⟨child, hchild, hbelow⟩
      · exact block.lengths entry hown
      · exact (ih child hchild).lengths entry hbelow

variable {interval : Option (MerkleNode k v)}

theorem CanonicalChild.fitsBlocks (h : CanonicalChild policy interval) :
    FitsBlocks (enumerateChild interval) := by
  cases interval with
  | none => exact ⟨Nat.zero_le _, by simp⟩
  | some node => exact (canonicalChild_some.mp h).fitsBlocks

def BuildOutcome (policy : MerkleSearchTreePolicy k v) (source : List (MerkleEntry k v)) :
    Except MerkleTreeError (Option (MerkleNode k v)) → Prop
  | .ok root => CanonicalChild policy root ∧ enumerateChild root = source
  | .error problem => problem = .MerkleTreeSizeOverflow ∧ ¬ FitsBlocks source

variable {children : List (Option (MerkleNode k v))} {level : UInt8}

theorem newNode_outcome (hlevel : level ≤ 64) (hne : entries ≠ [])
    (harity : children.length = entries.length + 1)
    (hlevels : ∀ entry ∈ entries, entry.entryLevel = level)
    (hchildren : ∀ interval ∈ children, CanonicalChild policy interval)
    (hdescend : ∀ child, some child ∈ children → child.nodeLevel < level) :
    BuildOutcome policy (interleave entries (children.map enumerateChild))
      (some <$> newNode policy level entries children) := by
  cases hnode : newNode policy level entries children with
  | ok node =>
      obtain ⟨hcanonical, htraversal⟩ := newNode_spec hnode hlevels hchildren
      exact ⟨canonicalChild_some.mpr hcanonical, htraversal⟩
  | error problem =>
      obtain ⟨hproblem, hsize⟩ := newNode_eq_error hlevel hne harity hdescend hnode
      refine ⟨hproblem, fun hfits => ?_⟩
      have harity' : (children.map enumerateChild).length =
          entries.length + 1 := by simpa using harity
      rcases hsize with hcount | ⟨entry, hentry, hlengths⟩
      · have hlength := hfits.count_le
        rw [length_interleave harity', ← sum_nodeCount fun child hchild =>
          (hchildren _ hchild child rfl).nodeCount_eq] at hlength
        omega
      · exact hlengths (hfits.lengths entry ((separators_sublist harity').subset hentry))

private theorem le_foldl_max (rest : List (MerkleEntry k v)) (start : UInt8) :
    start ≤ rest.foldl (fun level entry => max level entry.entryLevel) start ∧
      ∀ entry ∈ rest, entry.entryLevel ≤
        rest.foldl (fun level entry => max level entry.entryLevel) start := by
  induction rest generalizing start with
  | nil => simp
  | cons entry rest ih =>
      have hmax : max start entry.entryLevel =
          if start ≤ entry.entryLevel then entry.entryLevel else start := rfl
      have hbounds : start ≤ max start entry.entryLevel ∧
          entry.entryLevel ≤ max start entry.entryLevel := by
        rw [hmax]
        split
        · exact ⟨‹_›, UInt8.le_refl _⟩
        · exact ⟨UInt8.le_refl _, (UInt8.le_total _ _).resolve_left ‹_›⟩
      obtain ⟨hstart, hrest⟩ := ih (max start entry.entryLevel)
      rw [foldl_cons]
      refine ⟨UInt8.le_trans hbounds.1 hstart, fun other hother => ?_⟩
      rcases mem_cons.mp hother with rfl | hother
      · exact UInt8.le_trans hbounds.2 hstart
      · exact hrest other hother

theorem le_maximumLevel (first : MerkleEntry k v) (rest : List (MerkleEntry k v)) :
    ∀ entry ∈ first :: rest, entry.entryLevel ≤ maximumLevel first rest := by
  obtain ⟨hfirst, hrest⟩ := le_foldl_max rest first.entryLevel
  intro entry hentry
  rcases mem_cons.mp hentry with rfl | hentry
  · exact hfirst
  · exact hrest entry hentry

private theorem child_level_lt {segment : List (MerkleEntry k v)} {maximum : UInt8}
    (h : CanonicalChild policy interval) (htraversal : enumerateChild interval = segment)
    (hbelow : ∀ entry ∈ segment, entry.entryLevel < maximum) :
    ∀ child, interval = some child → child.nodeLevel < maximum := by
  rintro child rfl
  obtain ⟨entry, hentry, hlevel⟩ := (canonicalChild_some.mp h).exists_entryLevel
  rw [← hlevel]
  exact hbelow entry (htraversal ▸ hentry)

/--
The outcome of the remaining cuts: `blockEntries` and `children` have been cut
off already, and everything is at most at the maximum level.
-/
private def SegmentsOutcome (policy : MerkleSearchTreePolicy k v)
    (maximum : UInt8) (remaining blockEntries : List (MerkleEntry k v))
    (children : List (Option (MerkleNode k v)))
    (h : blockEntries ≠ [] ∨ ∃ entry ∈ remaining, entry.entryLevel = maximum) :
    Prop :=
  maximum ≤ 64 →
  (∀ entry ∈ remaining, entry.entryLevel ≤ maximum) →
  (∀ entry ∈ blockEntries, entry.entryLevel = maximum) →
  blockEntries.length = children.length →
  (∀ interval ∈ children, CanonicalChild policy interval) →
  (∀ child, some child ∈ children → child.nodeLevel < maximum) →
  BuildOutcome policy
    (leading blockEntries (children.map enumerateChild) ++ remaining)
    (buildSegments policy maximum remaining blockEntries children h)

theorem buildCanonical_outcome (source : List (MerkleEntry k v))
    (hlevels : ∀ entry ∈ source, entry.entryLevel ≤ 64) :
    BuildOutcome policy source (buildCanonical policy source) := by
  revert hlevels
  refine buildCanonical.induct (fun source =>
      (∀ entry ∈ source, entry.entryLevel ≤ 64) →
        BuildOutcome policy source (buildCanonical policy source))
    (SegmentsOutcome policy) ?empty ?nonempty ?segments source
  case empty =>
      intro _
      rw [buildCanonical]
      exact ⟨canonicalChild_none policy, rfl⟩
  case nonempty =>
      intro first rest ih hlevels
      rw [buildCanonical]
      have hmaximum : maximumLevel first rest ≤ 64 := by
        obtain ⟨entry, hentry, hlevel⟩ := maximumLevel_mem first rest
        exact hlevel ▸ hlevels entry hentry
      have houtcome := ih hmaximum (le_maximumLevel first rest) (by simp) rfl (by simp) (by simp)
      simpa using houtcome
  case segments =>
      intro maximum remaining blockEntries children h segment ihSegment ihRest
        hmaximum hremaining hblock hlength hcanonical hdescend
      have hsplit : segment ++ remaining.dropWhile
          (fun entry => entry.entryLevel != maximum) = remaining :=
        takeWhile_append_dropWhile
      have hbelow : ∀ entry ∈ segment, entry.entryLevel < maximum := by
        intro entry hentry
        have hne : entry.entryLevel ≠ maximum := by simpa using mem_takeWhile_imp hentry
        have hle := hremaining entry ((List.takeWhile_prefix _).subset hentry)
        exact UInt8.lt_of_le_of_ne hle hne
      have hsegment := ihSegment fun entry hentry =>
        UInt8.le_trans (UInt8.le_of_lt (hbelow entry hentry)) hmaximum
      have hsublist : segment.Sublist
          (leading blockEntries (children.map enumerateChild) ++ remaining) :=
        (List.takeWhile_prefix _).sublist.trans (sublist_append_right _ _)
      rw [buildSegments]
      cases hchild : buildCanonical policy segment with
      | error problem =>
          rw [hchild] at hsegment
          exact ⟨hsegment.1, fun hfits => hsegment.2 (hfits.sublist hsublist)⟩
      | ok child =>
          rw [hchild] at hsegment
          obtain ⟨hcanonicalChild, htraversal⟩ := hsegment
          have hchildren : ∀ interval ∈ children ++ [child],
              CanonicalChild policy interval := by
            intro interval hmem
            rcases mem_append.mp hmem with hmem | hmem
            · exact hcanonical interval hmem
            · rw [mem_singleton.mp hmem]
              exact hcanonicalChild
          have hlevelsBelow : ∀ below, some below ∈ children ++ [child] →
              below.nodeLevel < maximum := by
            intro below hmem
            rcases mem_append.mp hmem with hmem | hmem
            · exact hdescend below hmem
            · exact child_level_lt hcanonicalChild htraversal hbelow below
                (mem_singleton.mp hmem).symm
          rw [except_ok_bind]
          split
          · rename_i hsuffix
            rw [hsuffix, append_nil] at hsplit
            have hne : blockEntries ≠ [] := by
              rcases h with h | ⟨entry, hentry, hlevel⟩
              · exact h
              · have hlt := hbelow entry (hsplit ▸ hentry)
                rw [hlevel] at hlt
                exact absurd hlt (UInt8.lt_irrefl _)
            have hlengths : (children ++ [child]).length =
                blockEntries.length + 1 := by simp [hlength]
            have houtcome := newNode_outcome hmaximum hne hlengths hblock hchildren hlevelsBelow
            rw [map_append, map_singleton,
              interleave_eq_leading (by simpa using hlength), htraversal,
              hsplit] at houtcome
            exact houtcome
          · rename_i separator rest hsuffix
            rw [hsuffix] at hsplit
            have hseparator : separator.entryLevel = maximum := by
              have hnot := head_dropWhile_not
                (fun entry : MerkleEntry k v => entry.entryLevel != maximum)
                (l := remaining) (by simp [hsuffix])
              simpa [hsuffix] using hnot
            have houtcome := ihRest child separator rest hsuffix hmaximum
              (fun entry hentry => hremaining entry (by rw [← hsplit]; simp [hentry]))
              (by
                intro entry hentry
                rcases mem_append.mp hentry with hentry | hentry
                · exact hblock entry hentry
                · rw [mem_singleton.mp hentry]
                  exact hseparator)
              (by simp [hlength]) hchildren hlevelsBelow
            have hleading : leading (blockEntries ++ [separator])
                ((children ++ [child]).map enumerateChild) =
                  leading blockEntries (children.map enumerateChild) ++
                    (segment ++ [separator]) := by
              rw [leading, map_append, zip_append (by simpa using hlength), flatMap_append]
              simp [leading, htraversal]
            rw [hleading] at houtcome
            rw [← hsplit]
            simpa using houtcome

end

/-!
## `fromList`

The source pairs are sorted stably, every class of equivalent keys is reduced to
its first key and last value, and the reduced entries are built in bulk.
-/

open MerkleEntry Std.TransCmp Function

/-! ### Storing pairs in the contents -/

/-- The encoding of a key; a lawful policy encodes every key. -/
def encodedKey (policy : MerkleSearchTreePolicy k v) (key : k) : ByteString :=
  (policy.merkleKeyCodec.encodeMerkleValue key).toOption.getD []

def encodedValue (policy : MerkleSearchTreePolicy k v) (value : v) : ByteString :=
  (policy.merkleValueCodec.encodeMerkleValue value).toOption.getD []

theorem LawfulPolicy.encode_key (h : LawfulPolicy policy) (key : k) :
    policy.merkleKeyCodec.encodeMerkleValue key = .ok (encodedKey policy key) := by
  obtain ⟨bytes, hbytes⟩ := h.encodeKey_total key
  simp [encodedKey, hbytes, Except.toOption]

theorem LawfulPolicy.encode_value (h : LawfulPolicy policy) (value : v) :
    policy.merkleValueCodec.encodeMerkleValue value = .ok (encodedValue policy value) := by
  obtain ⟨bytes, hbytes⟩ := h.encodeValue_total value
  simp [encodedValue, hbytes, Except.toOption]

theorem LawfulPolicy.compare_eq_iff_encodedKey (h : LawfulPolicy policy)
    (left right : k) : policy.compareMerkleKeys left right = .eq ↔
      encodedKey policy left = encodedKey policy right := by
  rw [h.compare_eq_iff, h.encode_key, h.encode_key, Except.ok.injEq]

def storePair (policy : MerkleSearchTreePolicy k v) (contents : MerkleContents)
    (pair : k × v) : MerkleContents :=
  update contents (encodedKey policy pair.1) (some (encodedValue policy pair.2))

def storeAll (policy : MerkleSearchTreePolicy k v) (contents : MerkleContents)
    (source : List (k × v)) : MerkleContents :=
  source.foldl (storePair policy) contents

theorem storeAll_apply (contents : MerkleContents) (source : List (k × v)) (keyBytes : ByteString) :
    storeAll policy contents source keyBytes =
      ((source.filter fun pair => encodedKey policy pair.1 = keyBytes).getLast?.map
        fun pair => encodedValue policy pair.2).or (contents keyBytes) := by
  induction source generalizing contents with
  | nil => simp [storeAll]
  | cons pair source ih =>
      have hstep := ih (storePair policy contents pair)
      simp only [storeAll, foldl_cons] at hstep ⊢
      rw [hstep, storePair, update_apply]
      by_cases h : encodedKey policy pair.1 = keyBytes
      · rw [filter_cons_of_pos (by simpa using h), if_pos h.symm, List.getLast?_cons]
        cases (source.filter fun pair => encodedKey policy pair.1 = keyBytes).getLast? <;> simp
      · rw [filter_cons_of_neg (by simpa using h), if_neg fun heq => h heq.symm]

theorem comparePending_total (hlaw : LawfulPolicy policy) :
    Std.TransCmp (comparePending policy) := by
  have := hlaw.compare_total
  have hkeys : Std.TransCmp fun left right : (k × v) × Nat =>
      policy.compareMerkleKeys left.1.1 right.1.1 :=
    { eq_swap := Std.OrientedCmp.eq_swap
      isLE_trans := isLE_trans }
  have hindices : Std.TransCmp fun left right : (k × v) × Nat =>
      compare left.2 right.2 :=
    { eq_swap := Std.OrientedCmp.eq_swap
      isLE_trans := isLE_trans }
  have heq : comparePending policy = compareLex
      (fun left right : (k × v) × Nat => policy.compareMerkleKeys left.1.1 right.1.1)
      (fun left right => compare left.2 right.2) := by
    funext left right
    simp only [comparePending, compareLex]
    cases policy.compareMerkleKeys left.1.1 right.1.1 <;> rfl
  rw [heq]
  infer_instance

/-- `sortBy comparePending` of the numbered source. -/
def sortPending (policy : MerkleSearchTreePolicy k v) (source : List (k × v)) :
    List ((k × v) × Nat) :=
  source.zipIdx.mergeSort fun left right => (comparePending policy left right).isLE

section

variable (hlaw : LawfulPolicy policy)
include hlaw

theorem sortPending_pairwise (source : List (k × v)) :
    (sortPending policy source).Pairwise fun left right =>
      (comparePending policy left right).isLE := by
  have := comparePending_total hlaw
  exact pairwise_mergeSort (fun _ _ _ => isLE_trans) isLE_total _

theorem filter_sortPending (source : List (k × v)) (keyBytes : ByteString) :
    ((sortPending policy source).map Prod.fst).filter
        (fun pair => encodedKey policy pair.1 = keyBytes) =
      source.filter fun pair => encodedKey policy pair.1 = keyBytes := by
  have := comparePending_total hlaw
  have hpairwise : (source.zipIdx.filter fun item =>
      encodedKey policy item.1.1 = keyBytes).Pairwise
        fun left right => (comparePending policy left right).isLE := by
    have hindices : source.zipIdx.Pairwise fun left right => left.2 < right.2 := by
      rw [← pairwise_map (f := Prod.snd), zipIdx_map_snd]
      exact pairwise_lt_range'
    refine List.Pairwise.imp_of_mem ?_ (List.Pairwise.filter _ hindices)
    intro left right hleft hright hlt
    have heq : policy.compareMerkleKeys left.1.1 right.1.1 = .eq := by
      rw [hlaw.compare_eq_iff_encodedKey]
      have hl := (mem_filter.mp hleft).2
      have hr := (mem_filter.mp hright).2
      simp only [decide_eq_true_eq] at hl hr
      rw [hl, hr]
    simp [comparePending, heq, Nat.compare_eq_lt.mpr hlt]
  have hsublist : (source.zipIdx.filter fun item =>
      encodedKey policy item.1.1 = keyBytes).Sublist
        ((sortPending policy source).filter fun item => encodedKey policy item.1.1 = keyBytes) := by
    have hsort : (source.zipIdx.filter fun item =>
        encodedKey policy item.1.1 = keyBytes).Sublist (sortPending policy source) :=
      sublist_mergeSort (fun _ _ _ => isLE_trans) isLE_total hpairwise filter_sublist
    have hfilter := hsort.filter fun item => decide (encodedKey policy item.1.1 = keyBytes)
    simpa using hfilter
  have hlength := ((mergeSort_perm source.zipIdx fun left right =>
    (comparePending policy left right).isLE).filter
      fun item => encodedKey policy item.1.1 = keyBytes).length_eq
  have heq := hsublist.eq_of_length hlength.symm
  rw [filter_map]
  change ((sortPending policy source).filter fun item =>
    encodedKey policy item.1.1 = keyBytes).map Prod.fst = _
  rw [← heq]
  conv_rhs => rw [← zipIdx_map_fst 0 source, filter_map]
  rfl

theorem storeAll_sortPending (contents : MerkleContents) (source : List (k × v)) :
    storeAll policy contents ((sortPending policy source).map Prod.fst) =
      storeAll policy contents source := by
  funext keyBytes
  rw [storeAll_apply, storeAll_apply, filter_sortPending hlaw]

end

/-! ### Grouping equivalent keys -/

theorem groupPending_length (pending : List ((k × v) × Nat)) :
    (groupPending policy pending).length ≤ pending.length := by
  induction pending using groupPending.induct policy with
  | case1 => simp [groupPending]
  | case2 firstKey firstValue index rest equivalentTo remaining ih =>
      have hle : remaining.length ≤ rest.length := length_dropWhile_le _ _
      rw [groupPending]
      exact Nat.succ_le_succ (ih.trans hle)

private theorem foldl_last_mem (items : List ((k × v) × Nat)) (value : v) :
    items.foldl (fun _ item => item.1.2) value = value ∨
      ∃ item ∈ items, item.1.2 = items.foldl (fun _ item => item.1.2) value := by
  induction items generalizing value with
  | nil => exact .inl rfl
  | cons item items ih =>
      rw [foldl_cons]
      rcases ih item.1.2 with heq | ⟨other, hother, heq⟩
      · exact .inr ⟨item, by simp, heq.symm⟩
      · exact .inr ⟨other, by simp [hother], heq⟩

theorem groupPending_subset (pending : List ((k × v) × Nat)) :
    ∀ pair ∈ groupPending policy pending,
      (∃ item ∈ pending, item.1.1 = pair.1) ∧ ∃ item ∈ pending, item.1.2 = pair.2 := by
  induction pending using groupPending.induct policy with
  | case1 => simp [groupPending]
  | case2 firstKey firstValue index rest equivalentTo remaining ih =>
      intro pair hpair
      rw [groupPending] at hpair
      rcases mem_cons.mp hpair with rfl | hpair
      · refine ⟨⟨_, mem_cons_self, rfl⟩, ?_⟩
        rcases foldl_last_mem (rest.takeWhile equivalentTo) firstValue with heq | ⟨item, hitem, heq⟩
        · exact ⟨_, mem_cons_self, heq.symm⟩
        · exact ⟨item, mem_cons_of_mem _ ((List.takeWhile_prefix _).subset hitem), heq⟩
      · have hsubset : ∀ item ∈ remaining, item ∈ ((firstKey, firstValue), index) :: rest :=
          fun item hitem => mem_cons_of_mem _ ((dropWhile_sublist _).subset hitem)
        obtain ⟨⟨item, hitem, hkey⟩, other, hother, hvalue⟩ := ih pair hpair
        exact ⟨⟨item, hsubset item hitem, hkey⟩, other, hsubset other hother, hvalue⟩

theorem lt_of_mem_dropWhile {compare : k → k → Ordering}
    [Std.TransCmp compare] {key : k} {rest : List ((k × v) × Nat)}
    (hle : ∀ item ∈ rest, (compare key item.1.1).isLE) (hsorted : rest.Pairwise fun left right =>
      (compare left.1.1 right.1.1).isLE) :
    ∀ item ∈ rest.dropWhile fun item => compare key item.1.1 == .eq,
      compare key item.1.1 = .lt := by
  induction rest with
  | nil => simp
  | cons next rest ih =>
      obtain ⟨hnext, hrest⟩ := pairwise_cons.mp hsorted
      rw [dropWhile_cons]
      split
      · exact ih (fun item hitem => hle item (by simp [hitem])) hrest
      · rename_i hne
        have hlt : compare key next.1.1 = .lt := by
          have := hle next (by simp)
          cases hcmp : compare key next.1.1 <;> simp_all
        intro item hitem
        rcases mem_cons.mp hitem with rfl | hitem
        · exact hlt
        · exact lt_of_lt_of_isLE hlt (hnext item hitem)

theorem groupPending_sorted (hlaw : LawfulPolicy policy) (pending : List ((k × v) × Nat))
    (h : pending.Pairwise fun left right => (policy.compareMerkleKeys left.1.1 right.1.1).isLE) :
    StrictlySorted policy.compareMerkleKeys Prod.fst (groupPending policy pending) := by
  have := hlaw.compare_total
  induction pending using groupPending.induct policy with
  | case1 =>
      rw [groupPending]
      exact List.Pairwise.nil
  | case2 firstKey firstValue index rest equivalentTo remaining ih =>
      rw [groupPending]
      obtain ⟨hfirst, hrest⟩ := pairwise_cons.mp h
      have hgroups := ih (hrest.sublist (dropWhile_sublist _))
      refine pairwise_cons.mpr ⟨fun pair hpair => ?_, hgroups⟩
      obtain ⟨⟨item, hitem, heq⟩, -⟩ := groupPending_subset _ pair hpair
      rw [← heq]
      exact lt_of_mem_dropWhile hfirst hrest item hitem

theorem storeAll_groupPending (hlaw : LawfulPolicy policy)
    (contents : MerkleContents) (pending : List ((k × v) × Nat)) :
    storeAll policy contents (groupPending policy pending) =
      storeAll policy contents (pending.map Prod.fst) := by
  induction pending using groupPending.induct policy generalizing contents with
  | case1 => simp [groupPending]
  | case2 firstKey firstValue index rest equivalentTo remaining ih =>
      have hequivalent : ∀ (items : List ((k × v) × Nat)) (value : v),
          (∀ item ∈ items, policy.compareMerkleKeys firstKey item.1.1 = .eq) →
          storeAll policy (storePair policy contents (firstKey, value)) (items.map Prod.fst) =
            storePair policy contents (firstKey, items.foldl (fun _ item => item.1.2) value) := by
        intro items
        induction items with
        | nil => simp [storeAll]
        | cons item items ihItems =>
            intro value hall
            have hkey := (hlaw.compare_eq_iff_encodedKey firstKey item.1.1).mp (hall item (by simp))
            have hnext := ihItems item.1.2 fun other hother => hall other (by simp [hother])
            simp only [storeAll, map_cons, foldl_cons] at hnext ⊢
            rw [← hnext]
            congr 1
            simp [storePair, ← hkey]
      have hsplit : rest.takeWhile equivalentTo ++ remaining = rest := takeWhile_append_dropWhile
      have hgroup := hequivalent (rest.takeWhile equivalentTo) firstValue
        fun item hitem => by simpa [equivalentTo] using mem_takeWhile_imp hitem
      rw [groupPending]
      have hrest := ih (storePair policy contents (firstKey,
        (rest.takeWhile equivalentTo).foldl (fun _ item => item.1.2) firstValue))
      rw [← hgroup] at hrest
      conv_rhs => rw [map_cons, ← hsplit, map_append]
      simp only [storeAll, foldl_cons, foldl_append] at hrest hgroup ⊢
      rw [← hgroup]
      exact hrest

theorem groupPending_of_sorted (source : List (k × v)) (start : Nat)
    (h : StrictlySorted policy.compareMerkleKeys Prod.fst source) :
    groupPending policy (source.zipIdx start) = source := by
  induction source generalizing start with
  | nil => simp [groupPending]
  | cons pair source ih =>
      obtain ⟨hpair, hsource⟩ := pairwise_cons.mp h
      rw [zipIdx_cons, groupPending]
      have hnone : ∀ item ∈ source.zipIdx (start + 1),
          ¬ (policy.compareMerkleKeys pair.1 item.1.1 == .eq) = true := by
        intro item hitem
        rw [hpair item.1 (fst_mem_of_mem_zipIdx hitem)]
        decide
      have htake : (source.zipIdx (start + 1)).takeWhile (fun item =>
          policy.compareMerkleKeys pair.1 item.1.1 == .eq) = [] := by
        rw [takeWhile_eq_nil_iff]
        intro hlt
        exact hnone _ (get_mem _ _)
      have hdrop : (source.zipIdx (start + 1)).dropWhile (fun item =>
          policy.compareMerkleKeys pair.1 item.1.1 == .eq) = source.zipIdx (start + 1) := by
        rw [dropWhile_eq_self_iff]
        intro hlt
        exact hnone _ (get_mem _ _)
      rw [htake, hdrop, ih _ hsource]
      rfl

theorem sortPending_of_sorted (source : List (k × v))
    (h : StrictlySorted policy.compareMerkleKeys Prod.fst source) :
    sortPending policy source = source.zipIdx := by
  refine mergeSort_of_pairwise ?_
  have hkeys : source.zipIdx.Pairwise fun left right =>
      policy.compareMerkleKeys left.1.1 right.1.1 = .lt := by
    rw [← pairwise_map (f := Prod.fst)
      (R := fun left right : k × v =>
        policy.compareMerkleKeys left.1 right.1 = .lt), zipIdx_map_fst]
    exact h
  refine hkeys.imp fun {left right} hlt => ?_
  simp [comparePending, hlt]

/-! ### Encoding the grouped pairs -/

theorem createEntry_eq_ok {key : k} {value : v} {entry : MerkleEntry k v} :
    createEntry policy key value = .ok entry ↔
      ValidEntry policy entry ∧ entry.entryKey = key ∧ entry.entryValue = value := by
  have hmap : ∀ {α : Type} {first : Except MerkleCodecError α} {a : α},
      mapCodecError first = .ok a ↔ first = .ok a := by
    intro α first a
    cases first <;> simp [mapCodecError, Except.mapError]
  rw [createEntry, bind_eq_ok]
  constructor
  · rintro ⟨keyBytes, hkey, h⟩
    rw [bind_eq_ok] at h
    obtain ⟨valueBytes, hvalue, h⟩ := h
    cases h
    exact ⟨⟨hmap.mp hkey, hmap.mp hvalue, rfl⟩, rfl, rfl⟩
  · rintro ⟨hvalid, rfl, rfl⟩
    refine ⟨_, hmap.mpr hvalid.keyBytes, ?_⟩
    rw [bind_eq_ok]
    refine ⟨_, hmap.mpr hvalid.valueBytes, ?_⟩
    rw [← hvalid.level_eq]

theorem createEntry_total (hlaw : LawfulPolicy policy) (key : k) (value : v) :
    ∃ entry, createEntry policy key value = .ok entry :=
  ⟨⟨key, value, encodedKey policy key, encodedValue policy value,
      merkleLevel (hashMerkleKeyBytes policy (encodedKey policy key))⟩,
    createEntry_eq_ok.mpr ⟨⟨hlaw.encode_key key, hlaw.encode_value value, rfl⟩, rfl, rfl⟩⟩

namespace MerkleEntry

def pair (entry : MerkleEntry k v) : k × v := (entry.entryKey, entry.entryValue)

end MerkleEntry

theorem ValidEntry.encoded_eq {entry : MerkleEntry k v} (h : ValidEntry policy entry) :
    entry.entryKeyBytes = encodedKey policy entry.entryKey ∧
      entry.entryValueBytes = encodedValue policy entry.entryValue := by
  simp [encodedKey, encodedValue, h.keyBytes, h.valueBytes, Except.toOption]

theorem createEntries_total (hlaw : LawfulPolicy policy) (source : List (k × v))
    (h : StrictlySorted policy.compareMerkleKeys Prod.fst source) :
    ∃ entries, source.mapM (fun pair => createEntry policy pair.1 pair.2) =
      .ok entries ∧ OrderedEntries policy entries ∧ entries.map pair = source := by
  have hencode : ∃ entries, List.Forall₂ (fun pair entry =>
      createEntry policy pair.1 pair.2 = .ok entry) source entries := by
    induction source with
    | nil => exact ⟨[], .nil⟩
    | cons pair source ih =>
        obtain ⟨entries, hentries⟩ := ih (pairwise_cons.mp h).2
        obtain ⟨entry, hentry⟩ := createEntry_total hlaw pair.1 pair.2
        exact ⟨entry :: entries, .cons hentry hentries⟩
  obtain ⟨entries, hentries⟩ := hencode
  have hall : ∀ {pairs : List (k × v)} {entries : List (MerkleEntry k v)},
      List.Forall₂ (fun pair entry => createEntry policy pair.1 pair.2 = .ok entry) pairs entries →
      (∀ entry ∈ entries, ValidEntry policy entry) ∧ entries.map pair = pairs := by
    intro pairs entries hforall
    induction hforall with
    | nil => simp
    | cons hentry _ ih =>
        obtain ⟨hvalid, hkey, hvalue⟩ := createEntry_eq_ok.mp hentry
        refine ⟨?_, ?_⟩
        · intro entry hmem
          rcases mem_cons.mp hmem with rfl | hmem
          · exact hvalid
          · exact ih.1 entry hmem
        · rw [map_cons, ih.2, pair, hkey, hvalue]
  obtain ⟨hvalid, hpairs⟩ := hall hentries
  refine ⟨entries, mapM_eq_ok.mpr hentries, ⟨?_, hvalid⟩, hpairs⟩
  rw [← hpairs, StrictlySorted, pairwise_map] at h
  exact h

theorem OrderedEntries.contentsOf_eq_storeAll (hlaw : LawfulPolicy policy)
    {entries : List (MerkleEntry k v)} (h : OrderedEntries policy entries) :
    contentsOf entries = storeAll policy (fun _ => none) (entries.map pair) := by
  have hgeneral : ∀ contents keyBytes,
      storeAll policy contents (entries.map pair) keyBytes =
        (contentsOf entries keyBytes).or (contents keyBytes) := by
    induction entries with
    | nil => simp [storeAll]
    | cons entry entries ih =>
        intro contents keyBytes
        obtain ⟨hkey, hvalue⟩ := (h.valid entry (by simp)).encoded_eq
        have hdistinct := (pairwise_cons.mp (h.keyBytes_pairwise hlaw)).1
        have hrest := ih (h.sublist (sublist_cons_self entry entries))
          (storePair policy contents entry.pair) keyBytes
        simp only [storeAll, map_cons, foldl_cons] at hrest ⊢
        rw [hrest, contentsOf_cons, storePair, pair, ← hkey, ← hvalue, update_apply, update_apply]
        split
        · rename_i heq
          rw [heq, contentsOf_eq_none.mpr fun other hother => (hdistinct other hother).symm]
          simp
        · rfl
  funext keyBytes
  rw [hgeneral]
  simp

theorem buildCanonical_ordered {entries : List (MerkleEntry k v)}
    (h : OrderedEntries policy entries) :
    BuildOutcome policy entries (buildCanonical policy entries) :=
  buildCanonical_outcome entries fun entry hentry => by
    rw [(h.valid entry hentry).level_eq]
    exact merkleLevel_le _

section

variable (hlaw : LawfulPolicy policy)
include hlaw

theorem fromList_eq (source : List (k × v)) :
    ∃ entries, OrderedEntries policy entries ∧
      entries.map pair = groupPending policy (sortPending policy source) ∧
      fromList source policy = (fun root => ⟨root, policy⟩) <$> buildCanonical policy entries := by
  have hsorted : (sortPending policy source).Pairwise fun left right =>
      (policy.compareMerkleKeys left.1.1 right.1.1).isLE := by
    refine (sortPending_pairwise hlaw source).imp fun {left right} hle => ?_
    unfold comparePending at hle
    cases hcmp : policy.compareMerkleKeys left.1.1 right.1.1 <;> simp_all
  obtain ⟨entries, hencode, hordered, hpairs⟩ :=
    createEntries_total hlaw _ (groupPending_sorted hlaw _ hsorted)
  refine ⟨entries, hordered, hpairs, ?_⟩
  cases source with
  | nil =>
      simp only [sortPending, zipIdx_nil, mergeSort_nil, groupPending] at hpairs
      rw [map_eq_nil_iff] at hpairs
      rw [hpairs, buildCanonical]
      rfl
  | cons pair source =>
      rw [sortPending] at hencode
      rw [fromList]
      · simp only [hencode, except_ok_bind]
        cases buildCanonical policy entries <;> rfl
      · simp

theorem fromList_eq_of_sorted (source : List (k × v))
    (h : StrictlySorted policy.compareMerkleKeys Prod.fst source) :
    ∃ entries, OrderedEntries policy entries ∧
      entries.map pair = source ∧
      fromList source policy = (fun root => ⟨root, policy⟩) <$> buildCanonical policy entries := by
  obtain ⟨entries, hordered, hpairs, hbuild⟩ := fromList_eq hlaw source
  rw [sortPending_of_sorted source h, groupPending_of_sorted source 0 h] at hpairs
  exact ⟨entries, hordered, hpairs, hbuild⟩

theorem fromList_spec {source : List (k × v)}
    {tree : MerkleSearchTree k v} (h : fromList source policy = .ok tree) :
    CanonicalTree tree ∧ tree.policy = policy ∧
      tree.contents = storeAll policy (fun _ => none) source := by
  obtain ⟨entries, hordered, hpairs, hbuild⟩ := fromList_eq hlaw source
  have hcontents : contentsOf entries = storeAll policy (fun _ => none) source := by
    rw [hordered.contentsOf_eq_storeAll hlaw, hpairs,
      storeAll_groupPending hlaw, storeAll_sortPending hlaw]
  rw [hbuild, map_eq_ok] at h
  obtain ⟨root, hroot, rfl⟩ := h
  have houtcome := buildCanonical_ordered hordered
  rw [hroot] at houtcome
  obtain ⟨hcanonical, htraversal⟩ := houtcome
  refine ⟨⟨hcanonical, ?_⟩, rfl, ?_⟩
  · rw [MerkleSearchTree.entries_eq, htraversal]
    exact hordered
  · rw [MerkleSearchTree.contents, MerkleSearchTree.entries_eq, htraversal, hcontents]

theorem fromList_total {source : List (k × v)} (hcount : source.length ≤ maxInt32)
    (hlengths : ∀ pair ∈ source,
      (encodedKey policy pair.1).length ≤ maxInt32 ∧
        (encodedValue policy pair.2).length ≤ maxInt32) :
    ∃ tree, fromList source policy = .ok tree := by
  obtain ⟨entries, hordered, hpairs, hbuild⟩ := fromList_eq hlaw source
  have hmem : ∀ item ∈ sortPending policy source, item.1 ∈ source := by
    intro item hitem
    rw [sortPending, mem_mergeSort] at hitem
    exact fst_mem_of_mem_zipIdx hitem
  have hfits : FitsBlocks entries := by
    constructor
    · have hlength : (groupPending policy (sortPending policy source)).length ≤
          (sortPending policy source).length := groupPending_length _
      rw [← hpairs, length_map, sortPending, length_mergeSort, length_zipIdx] at hlength
      omega
    · intro entry hentry
      obtain ⟨hkey, hvalue⟩ := (hordered.valid entry hentry).encoded_eq
      have hpair : entry.pair ∈ groupPending policy (sortPending policy source) :=
        hpairs ▸ mem_map_of_mem hentry
      obtain ⟨⟨item, hitem, heq⟩, other, hother, heq'⟩ := groupPending_subset _ _ hpair
      rw [hkey, hvalue, show entry.entryKey = item.1.1 from heq.symm,
        show entry.entryValue = other.1.2 from heq'.symm]
      exact ⟨(hlengths _ (hmem item hitem)).1, (hlengths _ (hmem other hother)).2⟩
  have houtcome := buildCanonical_ordered hordered
  rw [hbuild]
  cases hroot : buildCanonical policy entries with
  | ok root => exact ⟨_, rfl⟩
  | error problem =>
      rw [hroot] at houtcome
      exact absurd hfits houtcome.2

end

end Durable7.Hamt
