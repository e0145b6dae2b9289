import Durable7.Hamt.HashMap.Removal

/-!
# Structural set algebra

The structural walk computes, for every class of keys, the entry that the operation gives
to the two entries of that class.  No identity test changes a result.
-/

namespace Durable7.Hamt.HashMap

open Foundation List Function Bool

universe z

variable {k : Type} {v : Type z} {hashPolicy : HashPolicy k}

/-- A test of identity holds for equal arguments only. -/
structure Identity.Sound (identity : Identity k v) : Prop where
  nodes_eq : ∀ left right, identity.nodes left right = true → left = right
  values_eq : ∀ left right, identity.values left right = true → left = right
  policies_eq : ∀ left right, identity.policies left right = true → left = right

variable [BEq v]

def combineAt : CombineOperation → Option (k × v) → Option (k × v) → Option (k × v)
  | .combineUnion, some left, some right =>
      some (left.1, if left.2 == right.2 then left.2 else right.2)
  | .combineUnion, some left, none => some left
  | .combineUnion, none, right => right
  | .combineIntersection, some left, some _ => some left
  | .combineIntersection, _, _ => none
  | .combineDifference, some left, none => some left
  | .combineDifference, _, _ => none
  | .combineSymmetricDifference, some left, none => some left
  | .combineSymmetricDifference, none, right => right
  | .combineSymmetricDifference, some _, some _ => none

variable {identity : Identity k v}

theorem Identity.Sound.select_eq (hsound : identity.Sound) (left right : v) :
    (if valuesEqual identity left right = true then left else right) =
      if (left == right) = true then left else right := by
  unfold valuesEqual
  cases hidentity : identity.values left right with
  | true =>
      rw [hsound.values_eq left right hidentity]
      simp
  | false => simp

variable {operation : CombineOperation} {entry : k × v}

theorem combineAt_left {left : k × v} {right : Option (k × v)}
    (h : combineAt operation (some left) right = some entry) :
    entry.1 = left.1 := by
  cases right with
  | none => cases operation <;> cases h <;> rfl
  | some right => cases operation <;> cases h <;> rfl

theorem combineAt_key {left right : Option (k × v)}
    (h : combineAt operation left right = some entry) :
    (∃ stored, left = some stored ∧ stored.1 = entry.1) ∨
      ∃ stored, right = some stored ∧ stored.1 = entry.1 := by
  cases left with
  | some left => exact .inl ⟨left, rfl, (combineAt_left h).symm⟩
  | none =>
      cases operation with
      | combineUnion => exact .inr ⟨entry, h, rfl⟩
      | combineIntersection => cases right <;> cases h
      | combineDifference => cases right <;> cases h
      | combineSymmetricDifference => cases right <;> exact .inr ⟨entry, h, rfl⟩

theorem combineAt_match (hsound : identity.Sound) {left : k × v} {right : Option (k × v)}
    (h : combineAt operation (some left) right = some entry)
    (hvalues : valuesEqual identity left.2 entry.2 = true) : entry = left := by
  cases right with
  | none => cases operation <;> cases h <;> rfl
  | some right =>
      cases operation with
      | combineUnion =>
          cases h
          rw [← hsound.select_eq] at hvalues ⊢
          by_cases hequal : valuesEqual identity left.2 right.2 = true
          · rw [if_pos hequal]
          · rw [if_neg hequal] at hvalues
            exact absurd hvalues hequal
      | combineIntersection => cases h; rfl
      | combineDifference => cases h
      | combineSymmetricDifference => cases h

theorem combineLeft_eq (hsound : identity.Sound) (operation : CombineOperation)
    (rightEntries : List (k × v)) (entry : k × v) :
    combineLeft identity hashPolicy operation rightEntries entry =
      (combineAt operation (some entry)
        (entryAt hashPolicy.equalKeys entry.1 rightEntries)).toList := by
  unfold combineLeft
  rw [findEquivalentEntry, ← entryAt]
  cases entryAt hashPolicy.equalKeys entry.1 rightEntries with
  | none => cases operation <;> rfl
  | some right =>
      cases operation with
      | combineUnion =>
          have hselect := hsound.select_eq entry.2 right.2
          simp only [combineAt, Option.toList_some, hselect]
      | combineIntersection => rfl
      | combineDifference => rfl
      | combineSymmetricDifference => rfl

theorem combineHashEntries_eq (hsound : identity.Sound) (operation : CombineOperation)
    (leftEntries rightEntries : List (k × v)) :
    combineHashEntries identity hashPolicy operation leftEntries rightEntries =
      leftEntries.filterMap (fun entry => combineAt operation (some entry)
        (entryAt hashPolicy.equalKeys entry.1 rightEntries)) ++
      rightEntries.filterMap fun entry =>
        if entryAt hashPolicy.equalKeys entry.1 leftEntries = none then
          combineAt operation none (some entry)
        else
          none := by
  have hleft : leftEntries.flatMap (combineLeft identity hashPolicy operation rightEntries) =
      leftEntries.filterMap fun entry => combineAt operation (some entry)
        (entryAt hashPolicy.equalKeys entry.1 rightEntries) := by
    rw [filterMap_eq_flatMap_toList]
    congr 1
    funext entry
    exact combineLeft_eq hsound operation rightEntries entry
  have hright : ∀ entry : k × v,
      (!leftEntries.any fun other => hashPolicy.equalKeys entry.1 other.1) =
        decide (entryAt hashPolicy.equalKeys entry.1 leftEntries = none) := by
    intro entry
    rw [Bool.eq_iff_iff, decide_eq_true_iff, entryAt_eq_none]
    simp
  have hfilter : rightEntries.filter (fun entry =>
      !leftEntries.any fun other => hashPolicy.equalKeys entry.1 other.1) =
      rightEntries.filterMap fun entry =>
        if entryAt hashPolicy.equalKeys entry.1 leftEntries = none then some entry else none := by
    rw [← filterMap_eq_filter]
    congr 1
    funext entry
    unfold Option.guard
    simp only [hright, decide_eq_true_eq]
  unfold combineHashEntries
  rw [hleft, hfilter]
  congr 1
  cases operation with
  | combineUnion => simp [combineAt]
  | combineIntersection => simp [combineAt]
  | combineDifference => simp [combineAt]
  | combineSymmetricDifference => simp [combineAt]

theorem combineHashEntries_spec (hlawful : hashPolicy.Lawful) (hsound : identity.Sound)
    (operation : CombineOperation) {leftEntries rightEntries : List (k × v)}
    (hleft : Distinct hashPolicy.equalKeys leftEntries)
    (hright : Distinct hashPolicy.equalKeys rightEntries) :
    Distinct hashPolicy.equalKeys
        (combineHashEntries identity hashPolicy operation leftEntries rightEntries) ∧
      ∀ key, entryAt hashPolicy.equalKeys key
          (combineHashEntries identity hashPolicy operation leftEntries rightEntries) =
        combineAt operation (entryAt hashPolicy.equalKeys key leftEntries)
          (entryAt hashPolicy.equalKeys key rightEntries) := by
  rw [combineHashEntries_eq hsound]
  have hkeepLeft : ∀ {entry kept : k × v}, combineAt operation (some entry)
      (entryAt hashPolicy.equalKeys entry.1 rightEntries) = some kept → kept.1 = entry.1 :=
    combineAt_left
  have hkeepRight : ∀ {entry kept : k × v},
      (if entryAt hashPolicy.equalKeys entry.1 leftEntries = none then
        combineAt operation none (some entry) else none) = some kept → kept = entry ∧
        entryAt hashPolicy.equalKeys entry.1 leftEntries = none := by
    intro entry kept h
    split at h
    · rename_i habsent
      refine ⟨?_, habsent⟩
      cases operation <;> cases h <;> rfl
    · cases h
  refine ⟨?_, ?_⟩
  · refine pairwise_append.mpr ⟨hleft.selected hkeepLeft,
      hright.selected fun h => congrArg Prod.fst (hkeepRight h).1, ?_⟩
    intro left hleftMem right hrightMem
    obtain ⟨stored, hstored, -, hkey⟩ := mem_selected hkeepLeft hleftMem
    obtain ⟨source, -, hselect⟩ := mem_filterMap.mp hrightMem
    obtain ⟨rfl, habsent⟩ := hkeepRight hselect
    rw [hkey, same_comm hlawful.equivalence]
    exact entryAt_eq_none.mp habsent stored hstored
  · intro key
    rw [entryAt_append, entryAt_selected hlawful.equivalence hkeepLeft hleft,
      entryAt_selected hlawful.equivalence (fun h => congrArg Prod.fst (hkeepRight h).1) hright]
    cases hleftEntry : entryAt hashPolicy.equalKeys key leftEntries with
    | some left =>
        have hkey := (mem_of_entryAt hleftEntry).2
        have habsent : ∀ right, entryAt hashPolicy.equalKeys key rightEntries = some right →
            entryAt hashPolicy.equalKeys right.1 leftEntries ≠ none := by
          intro right hrightEntry
          rw [← entryAt_congr hlawful.equivalence (mem_of_entryAt hrightEntry).2, hleftEntry]
          simp
        rw [Option.bind_some, ← entryAt_congr hlawful.equivalence hkey]
        cases hrightEntry : entryAt hashPolicy.equalKeys key rightEntries with
        | none => exact Option.or_none
        | some right =>
            rw [Option.bind_some, if_neg (habsent right hrightEntry)]
            exact Option.or_none
    | none =>
        rw [Option.bind_none, Option.none_or]
        cases hrightEntry : entryAt hashPolicy.equalKeys key rightEntries with
        | none => cases operation <;> rfl
        | some right =>
            have habsent := hleftEntry
            rw [entryAt_congr hlawful.equivalence (mem_of_entryAt hrightEntry).2] at habsent
            rw [Option.bind_some, if_pos habsent]

theorem entriesMatch_eq (hlawful : hashPolicy.Lawful) (hsound : identity.Sound)
    {leftEntries entries : List (k × v)} {right : k → Option (k × v)}
    (hleft : Distinct hashPolicy.equalKeys leftEntries)
    (hentries : Distinct hashPolicy.equalKeys entries)
    (hcombined : ∀ key, entryAt hashPolicy.equalKeys key entries =
      combineAt operation (entryAt hashPolicy.equalKeys key leftEntries) (right key))
    (hmatch : entriesMatch identity hashPolicy leftEntries entries = true) :
    entries = leftEntries := by
  unfold entriesMatch at hmatch
  rw [and_eq_true, beq_iff_eq, all_eq_true] at hmatch
  obtain ⟨hlength, hpairs⟩ := hmatch
  apply ext_getElem hlength.symm
  intro index hindex hindex'
  have hpair := hpairs (leftEntries[index], entries[index]) (by
    rw [mem_iff_getElem]
    exact ⟨index, by rw [length_zip]; omega, getElem_zip⟩)
  rw [and_eq_true] at hpair
  have hstored := entryAt_self hlawful.equivalence hleft (getElem_mem hindex')
  have hfound := (entryAt_eq_some hlawful.equivalence hentries).mpr ⟨getElem_mem hindex, hpair.1⟩
  rw [hcombined, hstored] at hfound
  exact combineAt_match hsound hfound hpair.2

/-! ## Tries -/

/-- A trie that holds, class by class, what the operation gives to two others. -/
structure Combined (hashPolicy : HashPolicy k) (operation : CombineOperation) (shift : Nat)
    (left right result : Node k v) : Prop where
  canonical : Canonical hashPolicy shift result
  entries : ∀ key, entryAt hashPolicy.equalKeys key (nodeEntries result) =
    combineAt operation (entryAt hashPolicy.equalKeys key (nodeEntries left))
      (entryAt hashPolicy.equalKeys key (nodeEntries right))

variable {node : Node k v}

omit [BEq v] in
theorem logicalSlot_hashNode (hnode : isHashNode node = true) (place shift : Nat) :
    logicalSlot node place shift =
      if hashIndex (hashNodeHash node) shift = place then node else .emptyNode := by
  cases node with
  | emptyNode => cases hnode
  | leaf hashValue key value => rfl
  | collision count hashValue entries => rfl
  | branch => cases hnode

variable {shift : Nat}

omit [BEq v] in
theorem Canonical.slots_spec (h : Canonical hashPolicy shift node) :
    Routed hashPolicy shift (fun place => logicalSlot node place shift) ∧
      (slotEntries fun place => logicalSlot node place shift).Perm (nodeEntries node) := by
  by_cases hnode : isHashNode node = true
  · have hplace := hashIndex_lt (hashNodeHash node) shift
    have hhash := (entriesToNode_eq h hnode).2
    refine ⟨⟨?_, ?_⟩, ?_⟩
    · intro place hplace
      rw [logicalSlot_hashNode hnode]
      split
      · exact h.lift hnode _
      · exact .emptyNode
    · intro place hplace entry hentry
      simp only [logicalSlot_hashNode hnode] at hentry
      split at hentry
      · rename_i hindex
        rw [hhash entry hentry, hindex]
      · cases hentry
    · rw [slotEntries_single hplace]
      · rw [logicalSlot_hashNode hnode, if_pos rfl]
      · intro other hother hne
        rw [logicalSlot_hashNode hnode, if_neg (Ne.symm hne)]
  · cases h with
    | emptyNode =>
        refine ⟨⟨fun _ _ => .emptyNode, ?_⟩, ?_⟩
        · intro place hplace entry hentry
          cases hentry
        · exact List.Perm.of_eq (slotEntries_single (by decide : 0 < 32) fun _ _ _ => rfl)
    | leaf hhash => exact absurd rfl hnode
    | collision hcount hlength hhash hdistinct => exact absurd rfl hnode
    | branch hcount hshift' hpacked hslots hroutes hspread =>
        refine ⟨⟨?_, ?_⟩, ?_⟩
        · intro place hplace
          rw [hpacked.logicalSlot_eq hplace]
          exact hslots place hplace
        · intro place hplace entry hentry
          simp only [hpacked.logicalSlot_eq hplace] at hentry
          exact hroutes place hplace entry hentry
        · rw [slotEntries_congr fun place hplace => hpacked.logicalSlot_eq hplace _ _]
          exact (hpacked.entries_perm _).symm

omit [BEq v] in
theorem Canonical.entryAt_slot (hlawful : hashPolicy.Lawful) (h : Canonical hashPolicy shift node)
    (key : k) :
    entryAt hashPolicy.equalKeys key (nodeEntries node) =
      entryAt hashPolicy.equalKeys key
        (nodeEntries (logicalSlot node (hashIndex (hashFor hashPolicy key) shift) shift)) := by
  obtain ⟨hrouted, hperm⟩ := h.slots_spec
  rw [entryAt_perm hlawful.equivalence (h.distinct hlawful) hperm.symm]
  exact hrouted.entryAt_eq hlawful key

variable {left right : Node k v} {slots : Nat → Node k v}

section

variable (hlawful : hashPolicy.Lawful)
include hlawful

theorem combined_slots (hleft : Canonical hashPolicy shift left)
    (hright : Canonical hashPolicy shift right)
    (hslots : ∀ place < 32, Combined hashPolicy operation (shift + bitsPerLevel)
      (logicalSlot left place shift) (logicalSlot right place shift) (slots place)) :
    Routed hashPolicy shift slots ∧
      ∀ key, entryAt hashPolicy.equalKeys key (slotEntries slots) =
        combineAt operation (entryAt hashPolicy.equalKeys key (nodeEntries left))
          (entryAt hashPolicy.equalKeys key (nodeEntries right)) := by
  have hleftRouted := (hleft.slots_spec).1
  have hrightRouted := (hright.slots_spec).1
  have hrouted : Routed hashPolicy shift slots := by
    refine ⟨fun place hplace => (hslots place hplace).canonical, ?_⟩
    intro place hplace entry hentry
    have hslot := hslots place hplace
    have hfound := entryAt_self hlawful.equivalence (hslot.canonical.distinct hlawful) hentry
    rw [hslot.entries] at hfound
    rcases combineAt_key hfound with ⟨stored, hstored, hkey⟩ | ⟨stored, hstored, hkey⟩
    · rw [← hkey]
      exact hleftRouted.routes place hplace stored (mem_of_entryAt hstored).1
    · rw [← hkey]
      exact hrightRouted.routes place hplace stored (mem_of_entryAt hstored).1
  refine ⟨hrouted, ?_⟩
  intro key
  rw [hrouted.entryAt_eq hlawful, (hslots _ (hashIndex_lt _ shift)).entries,
    hleft.entryAt_slot hlawful, hright.entryAt_slot hlawful]

theorem nodesMatch_eq (hsound : identity.Sound)
    (h : Combined hashPolicy operation shift left right node)
    (hmatch : nodesMatch identity hashPolicy left node = true) : left = node := by
  unfold nodesMatch at hmatch
  split at hmatch
  · rename_i hidentity
    exact hsound.nodes_eq left node hidentity
  · split at hmatch
    · rename_i leftHash leftKey leftValue rightHash rightKey rightValue _
      rw [and_eq_true, and_eq_true, beq_iff_eq] at hmatch
      obtain ⟨⟨rfl, hkey⟩, hvalue⟩ := hmatch
      have hentry := h.entries leftKey
      rw [entryAt_leaf, entryAt_leaf, if_pos hkey,
        if_pos (same_refl hlawful.equivalence leftKey)] at hentry
      have heq := combineAt_match hsound hentry.symm hvalue
      rw [Prod.mk.injEq] at heq
      rw [heq.1, heq.2]
    · rfl
    · cases hmatch

theorem logicalSlotsMatch_eq (hsound : identity.Sound)
    (hslots : ∀ place < 32, Combined hashPolicy operation (shift + bitsPerLevel)
      (logicalSlot left place shift) (logicalSlot right place shift) (slots place))
    (hmatch : logicalSlotsMatch identity hashPolicy shift left ((List.range 32).map slots) = true) :
    ∀ place < 32, logicalSlot left place shift = slots place := by
  unfold logicalSlotsMatch at hmatch
  rw [← map_prod_left_eq_zip, all_eq_true] at hmatch
  intro place hplace
  apply nodesMatch_eq hlawful hsound (hslots place hplace)
  exact hmatch (place, slots place) (mem_map.mpr ⟨place, mem_range.mpr hplace, rfl⟩)

theorem buildLogicalNode_spec (hsound : identity.Sound)
    (hshift : shift < hashBits) (hleft : Canonical hashPolicy shift left)
    (hright : Canonical hashPolicy shift right)
    (hslots : ∀ place < 32, Combined hashPolicy operation (shift + bitsPerLevel)
      (logicalSlot left place shift) (logicalSlot right place shift) (slots place)) :
    Combined hashPolicy operation shift left right
      (buildLogicalNode identity hashPolicy shift left ((List.range 32).map slots)) := by
  obtain ⟨hrouted, hentries⟩ := combined_slots hlawful hleft hright hslots
  have hbuilt : ∀ {node : Node k v}, Canonical hashPolicy shift node →
      (nodeEntries node).Perm (slotEntries slots) →
      Combined hashPolicy operation shift left right node := by
    intro node hnode hperm
    refine ⟨hnode, ?_⟩
    intro key
    rw [entryAt_perm hlawful.equivalence (hnode.distinct hlawful) hperm]
    exact hentries key
  unfold buildLogicalNode
  split
  · rename_i hmatch
    have hsame := logicalSlotsMatch_eq hlawful hsound hslots hmatch
    apply hbuilt hleft
    rw [← slotEntries_congr hsame]
    exact (hleft.slots_spec).2.symm
  · obtain ⟨hcanonical, hperm⟩ := normalizeBranch_spec hshift (packed_addSlot slots) hrouted
    exact hbuilt hcanonical hperm

end

/-! ## The walk -/

/-- The hashes of two nodes have the same parts below a level. -/
def Beside (hashPolicy : HashPolicy k) (shift : Nat) (left right : Node k v) : Prop :=
  ∀ entry ∈ nodeEntries left, ∀ other ∈ nodeEntries right,
    Agree shift (hashFor hashPolicy entry.1) (hashFor hashPolicy other.1)

omit [BEq v] in
theorem Beside.slot (hleft : Canonical hashPolicy shift left)
    (hright : Canonical hashPolicy shift right) (h : Beside hashPolicy shift left right)
    {place : Nat} (hplace : place < 32) :
    Beside hashPolicy (shift + bitsPerLevel) (logicalSlot left place shift)
      (logicalSlot right place shift) := by
  obtain ⟨hleftRouted, hleftPerm⟩ := hleft.slots_spec
  obtain ⟨hrightRouted, hrightPerm⟩ := hright.slots_spec
  intro entry hentry other hother
  apply agree_next
  · exact h entry (hleftPerm.mem_iff.mp (mem_slotEntries.mpr ⟨place, hplace, hentry⟩))
      other (hrightPerm.mem_iff.mp (mem_slotEntries.mpr ⟨place, hplace, hother⟩))
  · rw [hleftRouted.routes place hplace entry hentry, hrightRouted.routes place hplace other hother]

theorem combined_left (operation : CombineOperation) (hleft : Canonical hashPolicy shift left) :
    Combined hashPolicy operation shift left .emptyNode
      (if operation = .combineIntersection then .emptyNode else left) := by
  refine ⟨?_, ?_⟩
  · split
    · exact .emptyNode
    · exact hleft
  · intro key
    have hnone : entryAt hashPolicy.equalKeys key (nodeEntries (.emptyNode : Node k v)) = none :=
      rfl
    rw [hnone]
    cases operation with
    | combineIntersection => cases entryAt hashPolicy.equalKeys key (nodeEntries left) <;> rfl
    | combineUnion =>
        rw [if_neg (by decide)]
        cases entryAt hashPolicy.equalKeys key (nodeEntries left) <;> rfl
    | combineDifference =>
        rw [if_neg (by decide)]
        cases entryAt hashPolicy.equalKeys key (nodeEntries left) <;> rfl
    | combineSymmetricDifference =>
        rw [if_neg (by decide)]
        cases entryAt hashPolicy.equalKeys key (nodeEntries left) <;> rfl

theorem combined_right (operation : CombineOperation) (hright : Canonical hashPolicy shift right) :
    Combined hashPolicy operation shift .emptyNode right
      (if operation = .combineUnion ∨ operation = .combineSymmetricDifference then right
        else .emptyNode) := by
  refine ⟨?_, ?_⟩
  · split
    · exact hright
    · exact .emptyNode
  · intro key
    have hnone : entryAt hashPolicy.equalKeys key (nodeEntries (.emptyNode : Node k v)) = none :=
      rfl
    rw [hnone]
    cases operation with
    | combineUnion =>
        rw [if_pos (by decide)]
        cases entryAt hashPolicy.equalKeys key (nodeEntries right) <;> rfl
    | combineSymmetricDifference =>
        rw [if_pos (by decide)]
        cases entryAt hashPolicy.equalKeys key (nodeEntries right) <;> rfl
    | combineIntersection =>
        rw [if_neg (by decide), hnone]
        cases entryAt hashPolicy.equalKeys key (nodeEntries right) <;> rfl
    | combineDifference =>
        rw [if_neg (by decide), hnone]
        cases entryAt hashPolicy.equalKeys key (nodeEntries right) <;> rfl

theorem combined_same (operation : CombineOperation) (hnode : Canonical hashPolicy shift node) :
    Combined hashPolicy operation shift node node
      (if operation = .combineUnion ∨ operation = .combineIntersection then node
        else .emptyNode) := by
  refine ⟨?_, ?_⟩
  · split
    · exact hnode
    · exact .emptyNode
  · intro key
    have hnone : entryAt hashPolicy.equalKeys key (nodeEntries (.emptyNode : Node k v)) = none :=
      rfl
    cases operation with
    | combineUnion =>
        rw [if_pos (by decide)]
        cases entryAt hashPolicy.equalKeys key (nodeEntries node) with
        | none => rfl
        | some entry => simp [combineAt]
    | combineIntersection =>
        rw [if_pos (by decide)]
        cases entryAt hashPolicy.equalKeys key (nodeEntries node) <;> rfl
    | combineDifference =>
        rw [if_neg (by decide), hnone]
        cases entryAt hashPolicy.equalKeys key (nodeEntries node) <;> rfl
    | combineSymmetricDifference =>
        rw [if_neg (by decide), hnone]
        cases entryAt hashPolicy.equalKeys key (nodeEntries node) <;> rfl

theorem combineHashNodes_same (hlawful : hashPolicy.Lawful) (hsound : identity.Sound)
    (operation : CombineOperation) (hleft : Canonical hashPolicy shift left)
    (hright : Canonical hashPolicy shift right) (hleftNode : isHashNode left = true)
    (hrightNode : isHashNode right = true) (hhash : hashNodeHash left = hashNodeHash right) :
    Combined hashPolicy operation shift left right
      (combineHashNodes identity hashPolicy operation shift left right) := by
  obtain ⟨hdistinct, hentries⟩ := combineHashEntries_spec hlawful hsound operation
    (hleft.distinct hlawful) (hright.distinct hlawful)
  obtain ⟨hleftEq, hleftHash⟩ := entriesToNode_eq hleft hleftNode
  have hrightHash := (entriesToNode_eq hright hrightNode).2
  have hequation : combineHashNodes identity hashPolicy operation shift left right =
      entriesToNode (hashNodeHash left) (combineHashEntries identity hashPolicy operation
        (nodeEntries left) (nodeEntries right)) := by
    rw [combineHashNodes.eq_def, if_neg (not_not.mpr hhash)]
    dsimp only
    split
    · rename_i hmatch
      rw [entriesMatch_eq hlawful hsound (hleft.distinct hlawful) hdistinct hentries hmatch]
      exact hleftEq.symm
    · rfl
  have hresultHash : ∀ entry ∈ combineHashEntries identity hashPolicy operation
      (nodeEntries left) (nodeEntries right), hashFor hashPolicy entry.1 = hashNodeHash left := by
    intro entry hentry
    have hfound := entryAt_self hlawful.equivalence hdistinct hentry
    rw [hentries] at hfound
    rcases combineAt_key hfound with ⟨stored, hstored, hkey⟩ | ⟨stored, hstored, hkey⟩
    · rw [← hkey, hleftHash stored (mem_of_entryAt hstored).1]
    · rw [← hkey, hrightHash stored (mem_of_entryAt hstored).1, hhash]
  obtain ⟨hcanonical, hnode⟩ := @entriesToNode_spec _ _ hashPolicy shift _ _ hresultHash hdistinct
  rw [hequation]
  refine ⟨hcanonical, ?_⟩
  intro key
  rw [hnode]
  exact hentries key

omit [BEq v] in
theorem hashNodes_apart (hlawful : hashPolicy.Lawful) (hleft : Canonical hashPolicy shift left)
    (hright : Canonical hashPolicy shift right) (hleftNode : isHashNode left = true)
    (hrightNode : isHashNode right = true) (hhash : hashNodeHash left ≠ hashNodeHash right)
    (key : k) :
    entryAt hashPolicy.equalKeys key (nodeEntries left) = none ∨
      entryAt hashPolicy.equalKeys key (nodeEntries right) = none := by
  by_cases hkey : hashFor hashPolicy key = hashNodeHash left
  · apply Or.inr
    apply entryAt_other_hash hlawful (entriesToNode_eq hright hrightNode).2
    rw [hkey]
    exact hhash
  · exact .inl (entryAt_other_hash hlawful (entriesToNode_eq hleft hleftNode).2 hkey)

theorem combineHashNodes_apart (identity : Identity k v) (hashPolicy : HashPolicy k)
    (hoperation : operation = .combineUnion ∨ operation = .combineSymmetricDifference)
    (hhash : hashNodeHash left ≠ hashNodeHash right) (hshift : ¬shift ≥ hashBits) :
    combineHashNodes identity hashPolicy operation shift left right =
      if hashIndex (hashNodeHash left) shift ≠ hashIndex (hashNodeHash right) shift then
        buildLogicalNode identity hashPolicy shift left
          (replaceAt (hashIndex (hashNodeHash right) shift) right
            (replaceAt (hashIndex (hashNodeHash left) shift) left (List.replicate 32 .emptyNode)))
      else
        buildLogicalNode identity hashPolicy shift left
          (replaceAt (hashIndex (hashNodeHash left) shift)
            (combineHashNodes identity hashPolicy operation (shift + bitsPerLevel) left right)
            (List.replicate 32 .emptyNode)) := by
  rw [combineHashNodes.eq_def, if_pos hhash]
  rcases hoperation with rfl | rfl
  · exact if_neg hshift
  · exact if_neg hshift

theorem combineHashNodes_spec (hlawful : hashPolicy.Lawful) (hsound : identity.Sound)
    (operation : CombineOperation) {shift : Nat} {left right : Node k v}
    (hleft : Canonical hashPolicy shift left) (hright : Canonical hashPolicy shift right)
    (hleftNode : isHashNode left = true) (hrightNode : isHashNode right = true)
    (hbeside : Beside hashPolicy shift left right) :
    Combined hashPolicy operation shift left right
      (combineHashNodes identity hashPolicy operation shift left right) := by
  by_cases hhash : hashNodeHash left = hashNodeHash right
  · exact combineHashNodes_same hlawful hsound operation hleft hright hleftNode hrightNode hhash
  · have hapart := hashNodes_apart hlawful hleft hright hleftNode hrightNode hhash
    obtain ⟨first, hfirst⟩ := hleft.exists_entry hleftNode
    obtain ⟨second, hsecond⟩ := hright.exists_entry hrightNode
    have hagree := hbeside first hfirst second hsecond
    rw [(entriesToNode_eq hleft hleftNode).2 first hfirst,
      (entriesToNode_eq hright hrightNode).2 second hsecond] at hagree
    have hshift : ¬shift ≥ hashBits := fun hge => hhash (agree_eq hagree hge)
    by_cases hoperation : operation = .combineUnion ∨ operation = .combineSymmetricDifference
    · rw [combineHashNodes_apart identity hashPolicy hoperation hhash hshift]
      have hempty : List.replicate 32 (.emptyNode : Node k v) =
          (List.range 32).map fun _ => .emptyNode := rfl
      have hnothing := combined_left operation
        (@Canonical.emptyNode _ v hashPolicy (shift + bitsPerLevel))
      rw [ite_self] at hnothing
      have hleftOnly := combined_left operation (hleft.lift hleftNode (shift + bitsPerLevel))
      have hrightOnly := combined_right operation (hright.lift hrightNode (shift + bitsPerLevel))
      rw [if_neg (by rcases hoperation with rfl | rfl <;> decide)] at hleftOnly
      rw [if_pos hoperation] at hrightOnly
      split
      · rename_i hindex
        rw [hempty, replaceAt_map, replaceAt_map]
        apply buildLogicalNode_spec hlawful hsound (by omega) hleft hright
        intro place hplace
        rw [logicalSlot_hashNode hleftNode, logicalSlot_hashNode hrightNode]
        by_cases hplaceRight : hashIndex (hashNodeHash right) shift = place
        · subst hplaceRight
          rw [if_neg hindex, if_pos rfl, update_self]
          exact hrightOnly
        · rw [if_neg hplaceRight, update_of_ne (Ne.symm hplaceRight)]
          by_cases hplaceLeft : hashIndex (hashNodeHash left) shift = place
          · subst hplaceLeft
            rw [if_pos rfl, update_self]
            exact hleftOnly
          · rw [if_neg hplaceLeft, update_of_ne (Ne.symm hplaceLeft)]
            exact hnothing
      · rename_i hindex
        rw [hempty, replaceAt_map]
        apply buildLogicalNode_spec hlawful hsound (by omega) hleft hright
        intro place hplace
        rw [logicalSlot_hashNode hleftNode, logicalSlot_hashNode hrightNode, ← not_not.mp hindex]
        by_cases hplaceLeft : hashIndex (hashNodeHash left) shift = place
        · subst hplaceLeft
          rw [if_pos rfl, if_pos rfl, update_self]
          apply combineHashNodes_spec hlawful hsound operation (hleft.lift hleftNode _)
            (hright.lift hrightNode _) hleftNode hrightNode
          intro entry hentry other hother
          apply agree_next (hbeside entry hentry other hother)
          rw [(entriesToNode_eq hleft hleftNode).2 entry hentry,
            (entriesToNode_eq hright hrightNode).2 other hother]
          exact not_not.mp hindex
        · rw [if_neg hplaceLeft, if_neg hplaceLeft, update_of_ne (Ne.symm hplaceLeft)]
          exact hnothing
    · cases operation with
      | combineUnion => exact absurd (.inl rfl) hoperation
      | combineSymmetricDifference => exact absurd (.inr rfl) hoperation
      | combineIntersection =>
          rw [combineHashNodes.eq_def, if_pos hhash]
          refine ⟨.emptyNode, ?_⟩
          intro key
          rcases hapart key with hnone | hnone
          · rw [hnone]
            rfl
          · rw [hnone]
            cases entryAt hashPolicy.equalKeys key (nodeEntries left) <;> rfl
      | combineDifference =>
          rw [combineHashNodes.eq_def, if_pos hhash]
          refine ⟨hleft, ?_⟩
          intro key
          rcases hapart key with hnone | hnone
          · rw [hnone]
            rfl
          · rw [hnone]
            cases entryAt hashPolicy.equalKeys key (nodeEntries left) <;> rfl
termination_by hashBits - shift
decreasing_by
  rw [bitsPerLevel]
  omega

theorem combineNodes_slots (identity : Identity k v) (hashPolicy : HashPolicy k)
    (hidentity : ¬identity.nodes left right = true) (hleft : ¬isEmptyNode left = true)
    (hright : ¬isEmptyNode right = true)
    (hnodes : ¬(isHashNode left = true ∧ isHashNode right = true)) :
    combineNodes identity hashPolicy operation shift left right =
      buildLogicalNode identity hashPolicy shift left
        ((List.range 32).map fun index =>
          combineNodes identity hashPolicy operation (shift + bitsPerLevel)
            (logicalSlot left index shift) (logicalSlot right index shift)) := by
  rw [combineNodes.eq_def, if_neg hidentity, dif_neg hleft, dif_neg hright, dif_neg hnodes]

omit [BEq v] in
theorem eq_emptyNode_of_isEmptyNode (h : isEmptyNode node = true) : node = .emptyNode := by
  cases node with
  | emptyNode => rfl
  | leaf => cases h
  | collision => cases h
  | branch => cases h

omit [BEq v] in
theorem Canonical.shift_lt (h : Canonical hashPolicy shift node) (hempty : ¬isEmptyNode node = true)
    (hnode : ¬isHashNode node = true) : shift < hashBits := by
  cases h with
  | emptyNode => exact absurd rfl hempty
  | leaf hhash => exact absurd rfl hnode
  | collision hcount hlength hhash hdistinct => exact absurd rfl hnode
  | branch hcount hshift hpacked hslots hroutes hspread => exact hshift

theorem combineNodes_spec (hlawful : hashPolicy.Lawful) (hsound : identity.Sound)
    (operation : CombineOperation) {shift : Nat} {left right : Node k v}
    (hleft : Canonical hashPolicy shift left) (hright : Canonical hashPolicy shift right)
    (hbeside : Beside hashPolicy shift left right) :
    Combined hashPolicy operation shift left right
      (combineNodes identity hashPolicy operation shift left right) := by
  by_cases hidentity : identity.nodes left right = true
  · rw [combineNodes.eq_def, if_pos hidentity, ← hsound.nodes_eq left right hidentity]
    have hsame := combined_same operation hleft
    cases operation with
    | combineUnion => exact hsame
    | combineIntersection => exact hsame
    | combineDifference => exact hsame
    | combineSymmetricDifference => exact hsame
  · by_cases hleftEmpty : isEmptyNode left = true
    · rw [combineNodes.eq_def, if_neg hidentity, dif_pos hleftEmpty,
        eq_emptyNode_of_isEmptyNode hleftEmpty]
      have honly := combined_right operation hright
      cases operation with
      | combineUnion => exact honly
      | combineIntersection => exact honly
      | combineDifference => exact honly
      | combineSymmetricDifference => exact honly
    · by_cases hrightEmpty : isEmptyNode right = true
      · rw [combineNodes.eq_def, if_neg hidentity, dif_neg hleftEmpty, dif_pos hrightEmpty,
          eq_emptyNode_of_isEmptyNode hrightEmpty]
        have honly := combined_left operation hleft
        cases operation with
        | combineUnion => exact honly
        | combineIntersection => exact honly
        | combineDifference => exact honly
        | combineSymmetricDifference => exact honly
      · by_cases hnodes : isHashNode left = true ∧ isHashNode right = true
        · rw [combineNodes.eq_def, if_neg hidentity, dif_neg hleftEmpty, dif_neg hrightEmpty,
            dif_pos hnodes]
          exact combineHashNodes_spec hlawful hsound operation hleft hright hnodes.1 hnodes.2
            hbeside
        · rw [combineNodes_slots identity hashPolicy hidentity hleftEmpty hrightEmpty hnodes]
          have hshift : shift < hashBits := by
            by_cases hleftNode : isHashNode left = true
            · exact hright.shift_lt hrightEmpty fun hrightNode => hnodes ⟨hleftNode, hrightNode⟩
            · exact hleft.shift_lt hleftEmpty hleftNode
          apply buildLogicalNode_spec hlawful hsound hshift hleft hright
          intro place hplace
          exact combineNodes_spec hlawful hsound operation
            (hleft.slots_spec.1.canonical place hplace)
            (hright.slots_spec.1.canonical place hplace) (hbeside.slot hleft hright hplace)
termination_by sizeOf left + sizeOf right
decreasing_by
  exact sizeOf_logicalSlots_lt hleftEmpty hrightEmpty hnodes place shift

end Durable7.Hamt.HashMap
