import Durable7.Hamt.HashMap.Histories

/-!
# Differences and equality of hash maps

The lockstep walk finds the differences that lookups find, in the same order.
-/

namespace Durable7.Hamt.HashMap

open Foundation List
open Bool hiding not_or

variable {k v : Type} {hashPolicy : HashPolicy k}

section Lists

variable [BEq v]

def removedOrChanged (same : k → k → Bool) (others : List (k × v)) (entry : k × v) :
    List (MapDifference k v) :=
  match entryAt same entry.1 others with
  | none => [.entryRemoved entry.1 entry.2]
  | some other => if entry.2 == other.2 then [] else [.entryChanged entry.1 entry.2 other.2]

omit [BEq v] in
def added (same : k → k → Bool) (others : List (k × v)) (entry : k × v) :
    List (MapDifference k v) :=
  match entryAt same entry.1 others with
  | none => [.entryAdded entry.1 entry.2]
  | some _ => []

def entryDifferences (same : k → k → Bool) (left right : List (k × v)) :
    List (MapDifference k v) × List (MapDifference k v) :=
  (left.flatMap (removedOrChanged same right), right.flatMap (added same left))

/-- Two lists store the same values under the same classes. -/
def SameValues (same : k → k → Bool) (left right : List (k × v)) : Prop :=
  ∀ key, (entryAt same key left).map Prod.snd = (entryAt same key right).map Prod.snd

def valuesMatch (same : k → k → Bool) (left right : List (k × v)) : Bool :=
  left.length == right.length &&
    left.all fun entry =>
      match entryAt same entry.1 right with
      | some other => entry.2 == other.2
      | none => false

end Lists

variable {entry : k × v}

section Entries

variable [BEq v] [LawfulBEq v] {same : k → k → Bool} {left right : List (k × v)}

theorem removedOrChanged_nil :
    removedOrChanged same right entry = [] ↔
      (entryAt same entry.1 right).map Prod.snd = some entry.2 := by
  unfold removedOrChanged
  cases entryAt same entry.1 right with
  | none => simp
  | some other =>
      simp only [Option.map_some, Option.some.injEq]
      split
      · rename_i hvalue
        exact ⟨fun _ => (eq_of_beq hvalue).symm, fun _ => rfl⟩
      · rename_i hvalue
        refine ⟨fun hnil => (by cases hnil), fun heq => ?_⟩
        rw [heq] at hvalue
        simp at hvalue

omit [BEq v] [LawfulBEq v] in
theorem added_nil : added same left entry = [] ↔ (entryAt same entry.1 left).isSome = true := by
  unfold added
  cases entryAt same entry.1 left with
  | none => simp
  | some other => simp

section Distinct

variable (hsame : Equivalence fun left right => same left right = true)
  (hleft : Distinct same left) (hright : Distinct same right)

include hsame hleft

theorem removedOrChanged_self : left.flatMap (removedOrChanged same left) = [] := by
  apply flatMap_eq_nil_iff.mpr
  intro entry hentry
  rw [removedOrChanged_nil, entryAt_self hsame hleft hentry]
  rfl

omit [BEq v] [LawfulBEq v] in
theorem added_self : left.flatMap (added same left) = [] := by
  apply flatMap_eq_nil_iff.mpr
  intro entry hentry
  rw [added_nil, entryAt_self hsame hleft hentry]
  rfl

include hright

omit [BEq v] [LawfulBEq v] in
theorem SameValues.length_eq (h : SameValues same left right) : left.length = right.length := by
  apply length_of_classes hsame hleft hright
  intro key
  have hkey := congrArg Option.isSome (h key)
  rwa [Option.isSome_map, Option.isSome_map] at hkey

theorem valuesMatch_iff : valuesMatch same left right = true ↔ SameValues same left right := by
  have hentry : ∀ entry : k × v, (match entryAt same entry.1 right with
      | some other => entry.2 == other.2
      | none => false) = true ↔ (entryAt same entry.1 right).map Prod.snd = some entry.2 := by
    intro entry
    cases entryAt same entry.1 right with
    | none => simp
    | some other =>
        rw [beq_iff_eq, Option.map_some, Option.some.injEq]
        exact eq_comm
  unfold valuesMatch
  rw [and_eq_true, beq_iff_eq, all_eq_true]
  constructor
  · rintro ⟨hlength, hall⟩ key
    have hfound : ∀ entry ∈ left, (entryAt same entry.1 right).map Prod.snd = some entry.2 :=
      fun entry hmem => (hentry entry).mp (hall entry hmem)
    cases hstored : entryAt same key left with
    | some entry =>
        obtain ⟨hmem, hkey⟩ := mem_of_entryAt hstored
        rw [entryAt_congr hsame hkey, hfound entry hmem]
        rfl
    | none =>
        cases hother : entryAt same key right with
        | none => rfl
        | some other =>
            obtain ⟨hmem, hkey⟩ := mem_of_entryAt hother
            have hclass := classes_of_length hsame hleft hright hlength (by
              intro entry hentry
              rw [← Option.isSome_map, hfound entry hentry]
              rfl) hmem
            rw [← entryAt_congr hsame hkey, hstored] at hclass
            cases hclass
  · intro h
    refine ⟨h.length_eq hsame hleft hright, ?_⟩
    intro entry hmem
    rw [hentry, ← h, entryAt_self hsame hleft hmem]
    rfl

end Distinct

end Entries

variable {shift : Nat} {node : Node k v}

theorem Canonical.entries_slots (h : Canonical hashPolicy shift node) :
    nodeEntries node = (nodeTraversalSlots node shift).flatMap fun slot =>
      nodeEntries (logicalSlot node slot shift) := by
  cases h with
  | emptyNode => rfl
  | leaf hhash => simp [nodeTraversalSlots, logicalSlot]
  | collision hcount hlength hhash hdistinct => simp [nodeTraversalSlots, logicalSlot]
  | branch hcount hshift hpacked hslots hroutes hspread =>
      rw [hpacked.entries_eq, nodeTraversalSlots, bitmapSlots_eq hpacked.data,
        bitmapSlots_eq hpacked.nodes]
      apply flatMap_congr
      intro place hplace
      have hlt : place < 32 := by
        rcases mem_append.mp hplace with hmem | hmem
        · exact mem_range.mp (mem_filter.mp hmem).1
        · exact mem_range.mp (mem_filter.mp hmem).1
      rw [hpacked.logicalSlot_eq hlt]

variable {slot : Nat}

theorem mem_bitmapSlots {bitmap : BitVec 32} :
    slot ∈ bitmapSlots bitmap ↔ slot < 32 ∧ bitmap.getLsbD slot = true := by
  unfold bitmapSlots
  rw [mem_filter, mem_range]
  apply and_congr_right
  intro hslot
  rw [decide_eq_true_iff, Ne, and_bit_eq_zero bitmap hslot, not_eq_false]

theorem occupied_iff (hslot : slot < 32) :
    (nodeOccupiedBitmap node shift).getLsbD slot = true ↔ slot ∈ nodeTraversalSlots node shift := by
  cases node with
  | emptyNode => simp [nodeOccupiedBitmap, nodeTraversalSlots]
  | leaf hashValue key value =>
      rw [nodeOccupiedBitmap, nodeTraversalSlots, bitFor, getLsbD_bit hslot, decide_eq_true_iff,
        mem_singleton]
  | collision count hashValue entries =>
      rw [nodeOccupiedBitmap, nodeTraversalSlots, bitFor, getLsbD_bit hslot, decide_eq_true_iff,
        mem_singleton]
  | branch count dataMap nodeMap payloads children =>
      rw [nodeOccupiedBitmap, nodeTraversalSlots, BitVec.getLsbD_or, or_eq_true,
        mem_append, mem_bitmapSlots, mem_bitmapSlots]
      simp [hslot]

theorem traversalSlot_lt (h : slot ∈ nodeTraversalSlots node shift) : slot < 32 := by
  cases node with
  | emptyNode => cases h
  | leaf hashValue key value =>
      rw [mem_singleton.mp h]
      exact hashIndex_lt hashValue shift
  | collision count hashValue entries =>
      rw [mem_singleton.mp h]
      exact hashIndex_lt hashValue shift
  | branch count dataMap nodeMap payloads children =>
      rcases mem_append.mp h with hmem | hmem
      · exact (mem_bitmapSlots.mp hmem).1
      · exact (mem_bitmapSlots.mp hmem).1

theorem mem_occupiedSlots {left right : Node k v} :
    slot ∈ occupiedSlots left right shift ↔
      slot ∈ nodeTraversalSlots left shift ∨ slot ∈ nodeTraversalSlots right shift := by
  unfold occupiedSlots
  rw [mem_bitmapSlots, BitVec.getLsbD_or, or_eq_true]
  constructor
  · rintro ⟨hslot, hleft | hright⟩
    · exact .inl ((occupied_iff hslot).mp hleft)
    · exact .inr ((occupied_iff hslot).mp hright)
  · rintro (hleft | hright)
    · exact ⟨traversalSlot_lt hleft, .inl ((occupied_iff (traversalSlot_lt hleft)).mpr hleft)⟩
    · exact ⟨traversalSlot_lt hright, .inr ((occupied_iff (traversalSlot_lt hright)).mpr hright)⟩

theorem Canonical.slot_listed (h : Canonical hashPolicy shift node) (hslot : slot < 32)
    (hentry : entry ∈ nodeEntries (logicalSlot node slot shift)) :
    slot ∈ nodeTraversalSlots node shift := by
  obtain ⟨hrouted, hperm⟩ := h.slots_spec
  have hmem : entry ∈ nodeEntries node :=
    hperm.mem_iff.mp (mem_slotEntries.mpr ⟨slot, hslot, hentry⟩)
  rw [h.entries_slots] at hmem
  obtain ⟨other, hother, hfound⟩ := mem_flatMap.mp hmem
  rw [← hrouted.routes slot hslot entry hentry,
    hrouted.routes other (traversalSlot_lt hother) entry hfound]
  exact hother

/-! ## The lockstep difference -/

variable [BEq v] [LawfulBEq v] {identity : Identity k v}

theorem Identity.Sound.valuesEqual_eq (hsound : identity.Sound) (left right : v) :
    valuesEqual identity left right = (left == right) := by
  unfold valuesEqual
  cases hidentity : identity.values left right with
  | true =>
      rw [hsound.values_eq left right hidentity]
      simp
  | false => simp

theorem diffHashEntries_eq (hsound : identity.Sound) (leftEntries rightEntries : List (k × v)) :
    diffHashEntries identity hashPolicy leftEntries rightEntries =
      entryDifferences hashPolicy.equalKeys leftEntries rightEntries := by
  unfold diffHashEntries entryDifferences
  congr 1
  apply flatMap_congr
  intro entry hentry
  unfold removedOrChanged findEquivalentEntry entryAt
  cases rightEntries.find? fun other => hashPolicy.equalKeys entry.1 other.1 with
  | none => rfl
  | some other => simp only [hsound.valuesEqual_eq]

omit [LawfulBEq v] in
theorem entryDifferences_apart {same : k → k → Bool} {left right : List (k × v)}
    (hleft : ∀ entry ∈ left, entryAt same entry.1 right = none)
    (hright : ∀ entry ∈ right, entryAt same entry.1 left = none) :
    entryDifferences same left right = (removals left, additions right) := by
  unfold entryDifferences removals additions
  rw [map_eq_flatMap, map_eq_flatMap]
  congr 1
  · apply flatMap_congr
    intro entry hentry
    rw [removedOrChanged, hleft entry hentry]
  · apply flatMap_congr
    intro entry hentry
    rw [added, hright entry hentry]

theorem diffHashNodes_eq (hlawful : hashPolicy.Lawful) (hsound : identity.Sound)
    {left right : Node k v} (hleft : Canonical hashPolicy shift left)
    (hright : Canonical hashPolicy shift right) (hleftNode : isHashNode left = true)
    (hrightNode : isHashNode right = true) :
    diffHashNodes identity hashPolicy left right =
      entryDifferences hashPolicy.equalKeys (nodeEntries left) (nodeEntries right) := by
  unfold diffHashNodes
  split
  · exact diffHashEntries_eq hsound _ _
  · rename_i hhash
    have hleftHash := (entriesToNode_eq hleft hleftNode).2
    have hrightHash := (entriesToNode_eq hright hrightNode).2
    symm
    apply entryDifferences_apart
    · intro entry hentry
      apply entryAt_other_hash hlawful hrightHash
      rw [hleftHash entry hentry]
      exact hhash
    · intro entry hentry
      apply entryAt_other_hash hlawful hleftHash
      rw [hrightHash entry hentry]
      exact Ne.symm hhash

omit [BEq v] [LawfulBEq v] in
theorem resultFor_eq {slots : List Nat} (hslot : slot ∈ slots)
    (result : Nat → List (MapDifference k v) × List (MapDifference k v)) :
    resultFor (slots.map fun place => (place, result place)) slot = result slot := by
  unfold resultFor
  rw [List.find?_map]
  cases hfind :
    slots.find? ((fun entry : Nat × List (MapDifference k v) × List (MapDifference k v) =>
      entry.1 == slot) ∘ fun place => (place, result place)) with
  | none =>
      have := List.find?_eq_none.mp hfind slot hslot
      simp at this
  | some place =>
      have := List.find?_some hfind
      simp only [Function.comp, beq_iff_eq] at this
      rw [this]
      rfl

theorem diffNodes_spec (hlawful : hashPolicy.Lawful) (hsound : identity.Sound) {shift : Nat}
    {left right : Node k v} (hleft : Canonical hashPolicy shift left)
    (hright : Canonical hashPolicy shift right) :
    diffNodes identity hashPolicy shift left right =
      entryDifferences hashPolicy.equalKeys (nodeEntries left) (nodeEntries right) := by
  have hsame := hlawful.equivalence
  rw [diffNodes.eq_def]
  split
  · rename_i hidentity
    rw [hsound.nodes_eq left right hidentity, entryDifferences,
      removedOrChanged_self hsame (hright.distinct hlawful),
      added_self hsame (hright.distinct hlawful)]
  · split
    · rename_i hempty
      rw [eq_emptyNode_of_isEmptyNode hempty]
      symm
      exact entryDifferences_apart (fun _ hentry => (by cases hentry)) fun _ _ => rfl
    · rename_i hleftEmpty
      split
      · rename_i hempty
        rw [eq_emptyNode_of_isEmptyNode hempty]
        symm
        exact entryDifferences_apart (fun _ _ => rfl) fun _ hentry => (by cases hentry)
      · rename_i hrightEmpty
        split
        · rename_i hnodes
          rw [and_eq_true] at hnodes
          exact diffHashNodes_eq hlawful hsound hleft hright hnodes.1 hnodes.2
        · rename_i hnodes
          split
          · rename_i hshift
            dsimp only
            have hslot : ∀ slot ∈ occupiedSlots left right shift,
                diffNodes identity hashPolicy (shift + bitsPerLevel) (logicalSlot left slot shift)
                  (logicalSlot right slot shift) =
                entryDifferences hashPolicy.equalKeys (nodeEntries (logicalSlot left slot shift))
                  (nodeEntries (logicalSlot right slot shift)) := by
              intro slot hslot
              have hlt := (mem_bitmapSlots.mp hslot).1
              exact diffNodes_spec hlawful hsound (hleft.slots_spec.1.canonical slot hlt)
                (hright.slots_spec.1.canonical slot hlt)
            unfold entryDifferences
            congr 1
            · conv_rhs => rw [hleft.entries_slots, flatMap_assoc]
              apply flatMap_congr
              intro slot hmem
              have hoccupied : slot ∈ occupiedSlots left right shift :=
                mem_occupiedSlots.mpr (.inl hmem)
              rw [resultFor_eq hoccupied, hslot slot hoccupied]
              apply flatMap_congr
              intro entry hentry
              rw [removedOrChanged, removedOrChanged, hright.entryAt_slot hlawful,
                hleft.slots_spec.1.routes slot (traversalSlot_lt hmem) entry hentry]
            · conv_rhs => rw [hright.entries_slots, flatMap_assoc]
              apply flatMap_congr
              intro slot hmem
              have hoccupied : slot ∈ occupiedSlots left right shift :=
                mem_occupiedSlots.mpr (.inr hmem)
              rw [resultFor_eq hoccupied, hslot slot hoccupied]
              apply flatMap_congr
              intro entry hentry
              rw [added, added, hleft.entryAt_slot hlawful,
                hright.slots_spec.1.routes slot (traversalSlot_lt hmem) entry hentry]
          · exact diffHashEntries_eq hsound _ _
termination_by hashBits - shift
decreasing_by
  rw [bitsPerLevel]
  omega

theorem hashEntriesEqual_eq (hsound : identity.Sound) (leftEntries rightEntries : List (k × v)) :
    hashEntriesEqual identity hashPolicy leftEntries rightEntries =
      valuesMatch hashPolicy.equalKeys leftEntries rightEntries := by
  unfold hashEntriesEqual valuesMatch
  congr 2
  funext entry
  unfold findEquivalentEntry entryAt
  cases rightEntries.find? fun other => hashPolicy.equalKeys entry.1 other.1 with
  | none => rfl
  | some other => exact hsound.valuesEqual_eq _ _

omit [BEq v] [LawfulBEq v] in
theorem sameValues_slots (hlawful : hashPolicy.Lawful) {left right : Node k v}
    (hleft : Canonical hashPolicy shift left) (hright : Canonical hashPolicy shift right) :
    SameValues hashPolicy.equalKeys (nodeEntries left) (nodeEntries right) ↔
      ∀ slot ∈ occupiedSlots left right shift, SameValues hashPolicy.equalKeys
        (nodeEntries (logicalSlot left slot shift))
          (nodeEntries (logicalSlot right slot shift)) := by
  constructor
  · intro h slot hslot key
    have hlt := (mem_bitmapSlots.mp hslot).1
    by_cases hindex : hashIndex (hashFor hashPolicy key) shift = slot
    · have hkey := h key
      rwa [hleft.entryAt_slot hlawful, hright.entryAt_slot hlawful, hindex] at hkey
    · have hnone : ∀ {node : Node k v}, Canonical hashPolicy shift node →
          entryAt hashPolicy.equalKeys key (nodeEntries (logicalSlot node slot shift)) = none := by
        intro node hnode
        apply entryAt_eq_none.mpr
        intro entry hentry
        by_contra hkey
        apply hindex
        rw [hashFor_eq hlawful (Bool.of_not_eq_false hkey)]
        exact hnode.slots_spec.1.routes slot hlt entry hentry
      rw [hnone hleft, hnone hright]
  · intro h key
    rw [hleft.entryAt_slot hlawful, hright.entryAt_slot hlawful]
    by_cases hslot : hashIndex (hashFor hashPolicy key) shift ∈ occupiedSlots left right shift
    · exact h _ hslot key
    · rw [mem_occupiedSlots, not_or] at hslot
      have hnone : ∀ {node : Node k v}, Canonical hashPolicy shift node →
          hashIndex (hashFor hashPolicy key) shift ∉ nodeTraversalSlots node shift →
          entryAt hashPolicy.equalKeys key (nodeEntries
            (logicalSlot node (hashIndex (hashFor hashPolicy key) shift) shift)) = none := by
        intro node hnode hunlisted
        cases hentry : entryAt hashPolicy.equalKeys key (nodeEntries
            (logicalSlot node (hashIndex (hashFor hashPolicy key) shift) shift)) with
        | none => rfl
        | some entry =>
            exact absurd (hnode.slot_listed (hashIndex_lt _ shift) (mem_of_entryAt hentry).1)
              hunlisted
      rw [hnone hleft hslot.1, hnone hright hslot.2]

theorem nodesEqual_spec (hlawful : hashPolicy.Lawful) (hsound : identity.Sound) {shift : Nat}
    {left right : Node k v} (hleft : Canonical hashPolicy shift left)
    (hright : Canonical hashPolicy shift right) :
    nodesEqual identity hashPolicy shift left right = true ↔
      SameValues hashPolicy.equalKeys (nodeEntries left) (nodeEntries right) := by
  have hsame := hlawful.equivalence
  have hleftDistinct := hleft.distinct hlawful
  have hrightDistinct := hright.distinct hlawful
  rw [nodesEqual.eq_def]
  split
  · rename_i hidentity
    rw [hsound.nodes_eq left right hidentity]
    exact ⟨fun _ _ => rfl, fun _ => rfl⟩
  · split
    · rename_i hcount
      rw [hleft.cardinality, hright.cardinality] at hcount
      refine ⟨fun h => (by cases h), fun h => ?_⟩
      exact absurd (h.length_eq hsame hleftDistinct hrightDistinct) hcount
    · rename_i hcount
      split
      · rename_i hempty
        rw [Bool.and_eq_true] at hempty
        rw [eq_emptyNode_of_isEmptyNode hempty.1, eq_emptyNode_of_isEmptyNode hempty.2]
        exact ⟨fun _ _ => rfl, fun _ => rfl⟩
      · rename_i hempty
        split
        · rename_i hnodes
          rw [Bool.and_eq_true] at hnodes
          rw [Bool.and_eq_true, beq_iff_eq, hashEntriesEqual_eq hsound,
            valuesMatch_iff hsame hleftDistinct hrightDistinct, and_iff_right_iff_imp]
          intro h
          obtain ⟨entry, hentry⟩ := hleft.exists_entry hnodes.1
          have hkey := h entry.1
          rw [entryAt_self hsame hleftDistinct hentry] at hkey
          by_contra hhash
          rw [entryAt_other_hash hlawful (entriesToNode_eq hright hnodes.2).2] at hkey
          · cases hkey
          · rw [(entriesToNode_eq hleft hnodes.1).2 entry hentry]
            exact hhash
        · rename_i hnodes
          split
          · rename_i hshift
            rw [sameValues_slots hlawful hleft hright, all_eq_true]
            apply forall_congr'
            intro slot
            apply forall_congr'
            intro hslot
            have hlt := (mem_bitmapSlots.mp hslot).1
            exact nodesEqual_spec hlawful hsound (hleft.slots_spec.1.canonical slot hlt)
              (hright.slots_spec.1.canonical slot hlt)
          · rename_i hshift
            refine ⟨fun h => (by cases h), fun h => ?_⟩
            have hlength := h.length_eq hsame hleftDistinct hrightDistinct
            -- below the last level there are only leaves and buckets, so one side is empty
            have hone : isEmptyNode left = true ∨ isEmptyNode right = true := by
              by_contra hneither
              rw [not_or] at hneither
              have hkinds : isHashNode left = true ∧ isHashNode right = true := by
                constructor
                · by_contra hkind
                  exact hshift (hleft.shift_lt hneither.1 hkind)
                · by_contra hkind
                  exact hshift (hright.shift_lt hneither.2 hkind)
              rw [hkinds.1, hkinds.2] at hnodes
              exact hnodes rfl
            have hboth : isEmptyNode left = true ∧ isEmptyNode right = true := by
              rcases hone with hnone | hnone
              · rw [eq_emptyNode_of_isEmptyNode hnone] at hlength ⊢
                rw [hright.eq_emptyNode (eq_nil_of_length_eq_zero hlength.symm)]
                exact ⟨rfl, rfl⟩
              · rw [eq_emptyNode_of_isEmptyNode hnone] at hlength ⊢
                rw [hleft.eq_emptyNode (eq_nil_of_length_eq_zero hlength)]
                exact ⟨rfl, rfl⟩
            rw [hboth.1, hboth.2] at hempty
            exact absurd rfl hempty
termination_by hashBits - shift
decreasing_by
  rw [bitsPerLevel]
  omega

end Durable7.Hamt.HashMap
