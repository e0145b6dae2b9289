import Durable7.Hamt.HashMap.Canonical

/-!
# Lookup and insertion

On a branch each operation works on the slot of the key and puts the new slot in its
place.
-/

namespace Durable7.Hamt.HashMap

open Foundation List Function

universe z

variable {k : Type} {v : Type z} {hashPolicy : HashPolicy k}

/-- The trie after the class of a key has got an entry, or lost it. -/
structure Written (hashPolicy : HashPolicy k) (shift : Nat) (key : k) (entry : Option (k × v))
    (before after : Node k v) : Prop where
  canonical : Canonical hashPolicy shift after
  sets : Sets hashPolicy.equalKeys key entry (nodeEntries before) (nodeEntries after)

/-- All hashes of a node have the parts of the key's hash below a level. -/
def Under (hashPolicy : HashPolicy k) (shift : Nat) (key : k) (node : Node k v) : Prop :=
  ∀ entry ∈ nodeEntries node, Agree shift (hashFor hashPolicy key) (hashFor hashPolicy entry.1)

theorem Routed.under {shift : Nat} {slots : Nat → Node k v} (h : Routed hashPolicy shift slots)
    {key : k} (hunder : ∀ entry ∈ slotEntries slots,
      Agree shift (hashFor hashPolicy key) (hashFor hashPolicy entry.1)) :
    Under hashPolicy (shift + bitsPerLevel) key
      (slots (hashIndex (hashFor hashPolicy key) shift)) := by
  intro entry hentry
  have hplace := hashIndex_lt (hashFor hashPolicy key) shift
  apply agree_next (hunder entry (mem_slotEntries.mpr ⟨_, hplace, hentry⟩))
  exact (h.routes _ hplace entry hentry).symm

variable {node : Node k v}

section Branch

variable {shift count : Nat} {slots : Nat → Node k v} {dataMap nodeMap : BitVec 32}
  {payloads : List (BitVec 32 × k × v)} {children : List (Node k v)}

section

variable (hlawful : hashPolicy.Lawful)
include hlawful

theorem Routed.entryAt_eq (h : Routed hashPolicy shift slots) (key : k) :
    entryAt hashPolicy.equalKeys key (slotEntries slots) =
      entryAt hashPolicy.equalKeys key
        (nodeEntries (slots (hashIndex (hashFor hashPolicy key) shift))) := by
  have hplace := hashIndex_lt (hashFor hashPolicy key) shift
  have hslots : ∀ place < 32, Distinct hashPolicy.equalKeys (nodeEntries (slots place)) :=
    fun place hplace => (h.canonical place hplace).distinct hlawful
  apply entryAt_of_mem_iff hlawful.equivalence (h.distinct hlawful hslots) (hslots _ hplace)
  intro entry hkey
  rw [mem_slotEntries]
  constructor
  · rintro ⟨place, hplace', hentry⟩
    rw [hashFor_eq hlawful hkey, h.routes place hplace' entry hentry]
    exact hentry
  · intro hentry
    exact ⟨_, hplace, hentry⟩

theorem Packed.entryAt_eq (hpacked : Packed slots dataMap nodeMap payloads children)
    (h : Routed hashPolicy shift slots) (count : Nat) (key : k) :
    entryAt hashPolicy.equalKeys key
        (nodeEntries (.branch count dataMap nodeMap payloads children)) =
      entryAt hashPolicy.equalKeys key
        (nodeEntries (slots (hashIndex (hashFor hashPolicy key) shift))) := by
  have hslots : ∀ place < 32, Distinct hashPolicy.equalKeys (nodeEntries (slots place)) :=
    fun place hplace => (h.canonical place hplace).distinct hlawful
  rw [← h.entryAt_eq hlawful]
  apply entryAt_perm hlawful.equivalence _ (hpacked.entries_perm count)
  exact (h.distinct hlawful hslots).perm hlawful.equivalence (hpacked.entries_perm count).symm

section

variable (h : Routed hashPolicy shift slots) {key : k} {entry : Option (k × v)}
  (hnode : Written hashPolicy (shift + bitsPerLevel) key entry
    (slots (hashIndex (hashFor hashPolicy key) shift)) node)
include h hnode

theorem Routed.write :
    Routed hashPolicy shift (update slots (hashIndex (hashFor hashPolicy key) shift) node) := by
  refine ⟨?_, ?_⟩
  · intro place hplace
    by_cases heq : place = hashIndex (hashFor hashPolicy key) shift
    · rw [heq, update_self]
      exact hnode.canonical
    · rw [update_of_ne heq]
      exact h.canonical place hplace
  · intro place hplace stored hstored
    by_cases heq : place = hashIndex (hashFor hashPolicy key) shift
    · rw [heq, update_self] at hstored
      rw [heq]
      have hfound := entryAt_self hlawful.equivalence (hnode.canonical.distinct hlawful) hstored
      rw [hnode.sets stored.1] at hfound
      by_cases hkey : hashPolicy.equalKeys stored.1 key = true
      · rw [hashFor_eq hlawful hkey]
      · rw [if_neg hkey] at hfound
        exact h.routes _ (hashIndex_lt _ _) stored (mem_of_entryAt hfound).1
    · rw [update_of_ne heq] at hstored
      exact h.routes place hplace stored hstored

theorem Routed.write_entryAt :
    Sets hashPolicy.equalKeys key entry (slotEntries slots)
      (slotEntries (update slots (hashIndex (hashFor hashPolicy key) shift) node)) := by
  intro other
  rw [(h.write hlawful hnode).entryAt_eq hlawful, h.entryAt_eq hlawful]
  by_cases hindex : hashIndex (hashFor hashPolicy other) shift =
      hashIndex (hashFor hashPolicy key) shift
  · rw [hindex, update_self]
    exact hnode.sets other
  · have hkey : ¬hashPolicy.equalKeys other key = true := by
      intro hkey
      exact hindex (by rw [hashFor_eq hlawful hkey])
    rw [update_of_ne hindex, if_neg hkey]

end

end

end Branch

/-! ## Lookup -/

theorem searchCollision_eq {β : Type*} (select : k × v → β) (hashPolicy : HashPolicy k) (key : k)
    (entries : List (k × v)) :
    searchCollision select hashPolicy key entries =
      (entryAt hashPolicy.equalKeys key entries).map select := by
  induction entries with
  | nil => rfl
  | cons entry entries ih =>
      rw [searchCollision, entryAt_cons, ih]
      split <;> rfl

variable {entries : List (k × v)}

theorem entryAt_other_hash (hlawful : hashPolicy.Lawful) {hashValue : BitVec 32} {key : k}
    (hhash : ∀ entry ∈ entries, hashFor hashPolicy entry.1 = hashValue)
    (hne : hashFor hashPolicy key ≠ hashValue) :
    entryAt hashPolicy.equalKeys key entries = none := by
  apply entryAt_eq_none.mpr
  intro entry hentry
  by_contra hkey
  apply hne
  rw [← hhash entry hentry]
  exact hashFor_eq hlawful (Bool.of_not_eq_false hkey)

theorem entryAt_leaf (hashPolicy : HashPolicy k) (key : k) (hashValue : BitVec 32) (leafKey : k)
    (leafValue : v) :
    entryAt hashPolicy.equalKeys key (nodeEntries (.leaf hashValue leafKey leafValue)) =
      if hashPolicy.equalKeys key leafKey = true then some (leafKey, leafValue) else none :=
  entryAt_cons

section

variable (hlawful : hashPolicy.Lawful)
include hlawful

section

variable {hashValue : BitVec 32} {key leafKey : k} (hhash : hashFor hashPolicy leafKey = hashValue)
include hhash

theorem leaf_changed {shift : Nat} (hkey : hashPolicy.equalKeys key leafKey = true) (old new : v) :
    Written hashPolicy shift key (some (leafKey, new)) (.leaf hashValue leafKey old)
      (.leaf hashValue leafKey new) := by
  refine ⟨.leaf hhash, ?_⟩
  exact @sets_middle _ _ _ _ (leafKey, old) hlawful.equivalence [] [] (by simp) hkey new

theorem leaf_test :
    (hashFor hashPolicy key = hashValue ∧ hashPolicy.equalKeys key leafKey = true) ↔
      hashPolicy.equalKeys key leafKey = true := by
  constructor
  · exact And.right
  · intro hkey
    exact ⟨(hashFor_eq hlawful hkey).trans hhash, hkey⟩

end

theorem searchNode_eq {β : Type*} (select : k × v → β) {shift : Nat}
    (h : Canonical hashPolicy shift node) (key : k) :
    searchNode select hashPolicy (hashFor hashPolicy key) key shift node =
      (entryAt hashPolicy.equalKeys key (nodeEntries node)).map select := by
  induction h with
  | emptyNode =>
      rw [searchNode]
      rfl
  | leaf hhash =>
      rw [searchNode, nodeEntries, entryAt_cons]
      simp only [leaf_test hlawful hhash]
      split <;> rfl
  | collision hcount hlength hhash hdistinct =>
      rw [searchNode, nodeEntries]
      split
      · exact searchCollision_eq select hashPolicy key _
      · rename_i hne
        rw [entryAt_other_hash hlawful hhash hne]
        rfl
  | @branch shift count dataMap nodeMap payloads children slots hcount hshift hpacked hslots
      hroutes hspread ih =>
      have hplace := hashIndex_lt (hashFor hashPolicy key) shift
      rw [hpacked.entryAt_eq hlawful ⟨hslots, hroutes⟩, ← ih _ hplace, searchNode]
      rcases hpacked.slot_cases hplace with ⟨hslot, hdata, hnodes⟩ |
        ⟨leafHash, leafKey, leafValue, hslot, hdata, hitem⟩ | ⟨-, hdata, hnodes, hitem⟩
      · simp [bitFor, hdata, hnodes, hslot, searchNode]
      · have hleaf := hslots _ hplace
        rw [hslot] at hleaf
        cases hleaf with
        | leaf hhash => simp [bitFor, hdata, hitem, hslot, searchNode, leaf_test hlawful hhash]
      · simp only [bitFor, hdata, hnodes, ne_eq, not_true_eq_false, if_false, not_false_eq_true,
          if_true]
        split
        · simp_all only [reduceCtorEq]
        · simp_all only [Option.some.injEq]

theorem lookupNode_eq {shift : Nat} (h : Canonical hashPolicy shift node) (key : k) :
    lookupNode hashPolicy (hashFor hashPolicy key) key shift node =
      (entryAt hashPolicy.equalKeys key (nodeEntries node)).map Prod.snd :=
  searchNode_eq hlawful Prod.snd h key

theorem actualKeyNode_eq {shift : Nat} (h : Canonical hashPolicy shift node) (key : k) :
    actualKeyNode hashPolicy (hashFor hashPolicy key) key shift node =
      (entryAt hashPolicy.equalKeys key (nodeEntries node)).map Prod.fst :=
  searchNode_eq hlawful Prod.fst h key

end

/-! ## Insertion -/

def InsertResult.map (change : Node k v → Node k v) : InsertResult k v → InsertResult k v
  | .inserted node => .inserted (change node)
  | .replaced node => .replaced (change node)
  | .duplicate => .duplicate

/-- What an insertion does to the class of its key. -/
inductive Inserts (hashPolicy : HashPolicy k) (addOnly : Bool) (shift : Nat) (key : k) (value : v)
    (node : Node k v) : InsertResult k v → Prop where
  | inserted {after : Node k v}
      (habsent : entryAt hashPolicy.equalKeys key (nodeEntries node) = none)
      (hafter : Written hashPolicy shift key (some (key, value)) node after) :
      Inserts hashPolicy addOnly shift key value node (.inserted after)
  | replaced {after : Node k v} {stored : k × v} (hreplace : addOnly = false)
      (hstored : entryAt hashPolicy.equalKeys key (nodeEntries node) = some stored)
      (hafter : Written hashPolicy shift key (some (stored.1, value)) node after) :
      Inserts hashPolicy addOnly shift key value node (.replaced after)
  | duplicate {stored : k × v} (hkeep : addOnly = true)
      (hstored : entryAt hashPolicy.equalKeys key (nodeEntries node) = some stored) :
      Inserts hashPolicy addOnly shift key value node .duplicate

def InsertResult.All (holds : Node k v → Prop) : InsertResult k v → Prop
  | .inserted node => holds node
  | .replaced node => holds node
  | .duplicate => True

theorem insertNode_part (hnode : IsPart node) (addOnly : Bool) (hashValue : BitVec 32) (key : k)
    (value : v) (shift : Nat) :
    (insertNode hashPolicy addOnly hashValue key value shift node).All IsPart := by
  cases node with
  | emptyNode => cases hnode.2
  | leaf leafHash leafKey leafValue => cases hnode.2
  | collision count collisionHash entries =>
      rw [insertNode]
      split
      · split
        · exact ⟨rfl, rfl⟩
        · exact ⟨rfl, rfl⟩
        · trivial
      · exact mergeTwo_kind _ _ _ _ _
  | branch count dataMap nodeMap payloads children =>
      rw [insertNode]
      dsimp only
      repeat' split
      all_goals trivial

theorem insertNode_branch {shift count : Nat} {slots : Nat → Node k v} {dataMap nodeMap : BitVec 32}
    {payloads : List (BitVec 32 × k × v)} {children : List (Node k v)}
    (hpacked : Packed slots dataMap nodeMap payloads children) (addOnly : Bool)
    (hashValue : BitVec 32) (key : k) (value : v) :
    insertNode hashPolicy addOnly hashValue key value shift
        (.branch count dataMap nodeMap payloads children) =
      (insertNode hashPolicy addOnly hashValue key value (shift + bitsPerLevel)
        (slots (hashIndex hashValue shift))).map fun node =>
          exchangedBranch makeBranchNode (hashIndex hashValue shift)
            (slots (hashIndex hashValue shift)) node dataMap nodeMap payloads children := by
  have hplace := hashIndex_lt hashValue shift
  rw [insertNode]
  rcases hpacked.slot_cases hplace with ⟨hslot, hdata, hnodes⟩ |
    ⟨leafHash, leafKey, leafValue, hslot, hdata, hitem⟩ | ⟨hpart, hdata, hnodes, hitem⟩
  · simp [bitFor, hdata, hnodes, hslot, insertNode, InsertResult.map, exchangedBranch,
      exchangedBits, exchangedItems, payload?, child?]
  · have hmerged := mergeTwo_kind (shift + bitsPerLevel) leafHash hashValue
      (.leaf leafHash leafKey leafValue) (.leaf hashValue key value)
    simp only [bitFor, hdata, hitem, hslot, insertNode, ne_eq, not_false_eq_true, if_true]
    split
    · split
      · rfl
      · rfl
    · simp only [InsertResult.map, exchangedBranch, hmerged.1, hmerged.2]
      rfl
  · simp only [bitFor, hdata, hnodes, ne_eq, not_true_eq_false, if_false, not_false_eq_true,
      if_true]
    split
    · simp_all only [reduceCtorEq]
    · rename_i child hchild
      obtain rfl := Option.some.inj (hitem.symm.trans hchild)
      have hafter := @insertNode_part _ _ hashPolicy _ hpart addOnly hashValue key value
        (shift + bitsPerLevel)
      generalize insertNode hashPolicy addOnly hashValue key value (shift + bitsPerLevel)
        (slots (hashIndex hashValue shift)) = result at hafter ⊢
      cases result with
      | inserted after =>
          simp only [InsertResult.map, exchangedBranch, hpart.1, hpart.2, hafter.1, hafter.2]
          rfl
      | replaced after =>
          simp only [InsertResult.map, exchangedBranch, hpart.1, hpart.2, hafter.1, hafter.2]
          rfl
      | duplicate => rfl

theorem insertCollision_absent {key : k} (h : entryAt hashPolicy.equalKeys key entries = none)
    (addOnly : Bool) (value : v) :
    insertCollision hashPolicy addOnly key value entries =
      .insertedEntries (entries ++ [(key, value)]) := by
  induction entries with
  | nil => rfl
  | cons entry entries ih =>
      rw [entryAt_eq_none] at h
      have hentry := h entry mem_cons_self
      rw [insertCollision, hentry, if_neg (by simp),
        ih (entryAt_eq_none.mpr fun other hother => h other (mem_cons_of_mem _ hother))]
      rfl

variable {entry : k × v}

theorem insertCollision_present {key : k} {front back : List (k × v)}
    (hfront : ∀ passed ∈ front, hashPolicy.equalKeys key passed.1 = false)
    (hentry : hashPolicy.equalKeys key entry.1 = true) (addOnly : Bool) (value : v) :
    insertCollision hashPolicy addOnly key value (front ++ entry :: back) =
      if addOnly then .duplicateEntry
      else .replacedEntries (front ++ (entry.1, value) :: back) := by
  induction front with
  | nil =>
      rw [nil_append, insertCollision, if_pos hentry]
      rfl
  | cons passed front ih =>
      rw [cons_append, insertCollision, hfront passed mem_cons_self, if_neg (by simp),
        ih fun other hother => hfront other (mem_cons_of_mem _ hother)]
      cases addOnly with
      | true => rfl
      | false => rfl

section Collision

variable {shift : Nat} {hashValue : BitVec 32} {key : k}

theorem collision_added (hlawful : hashPolicy.Lawful) (hlength : 2 ≤ entries.length)
    (hhash : ∀ entry ∈ entries, hashFor hashPolicy entry.1 = hashValue)
    (hdistinct : Distinct hashPolicy.equalKeys entries)
    (habsent : entryAt hashPolicy.equalKeys key entries = none)
    (hkey : hashFor hashPolicy key = hashValue) (value : v) :
    Canonical hashPolicy shift (makeCollision hashValue (entries ++ [(key, value)])) := by
  refine .collision rfl ?_ ?_ (hdistinct.append_absent hlawful.equivalence habsent value)
  · rw [length_append]
    omega
  · intro entry hentry
    rcases mem_append.mp hentry with hentry | hentry
    · exact hhash entry hentry
    · rw [mem_singleton.mp hentry]
      exact hkey

theorem collision_changed {front back : List (k × v)}
    (hlength : 2 ≤ (front ++ entry :: back).length)
    (hhash : ∀ entry' ∈ front ++ entry :: back, hashFor hashPolicy entry'.1 = hashValue)
    (hdistinct : Distinct hashPolicy.equalKeys (front ++ entry :: back)) (value : v) :
    Canonical hashPolicy shift (makeCollision hashValue (front ++ (entry.1, value) :: back)) := by
  refine .collision rfl ?_ ?_ hdistinct.middle
  · rw [length_append, length_cons] at hlength ⊢
    exact hlength
  · intro other hother
    rcases mem_append.mp hother with hother | hother
    · exact hhash other (mem_append_left _ hother)
    · rcases mem_cons.mp hother with rfl | hother
      · exact hhash entry (mem_append_right _ mem_cons_self)
      · exact hhash other (mem_append_right _ (mem_cons_of_mem _ hother))

end Collision

section

variable (hlawful : hashPolicy.Lawful)
include hlawful

theorem mergeTwo_written {shift : Nat} {key : k}
    (h : Canonical hashPolicy shift node) (hnode : isHashNode node = true)
    (habsent : entryAt hashPolicy.equalKeys key (nodeEntries node) = none)
    (hunder : Under hashPolicy shift key node) (value : v) :
    Written hashPolicy shift key (some (key, value)) node
      (mergeTwo shift (hashNodeHash node) node (hashFor hashPolicy key)
        (.leaf (hashFor hashPolicy key) key value)) := by
  obtain ⟨entry, hentry⟩ := h.exists_entry hnode
  have hagree : Agree shift (hashNodeHash node) (hashFor hashPolicy key) := by
    rw [← (entriesToNode_eq h hnode).2 entry hentry]
    exact (hunder entry hentry).symm
  have hleaf : Canonical hashPolicy shift (.leaf (hashFor hashPolicy key) key value) := .leaf rfl
  obtain ⟨hcanonical, hperm⟩ := mergeTwo_spec hlawful h hleaf hnode rfl rfl rfl
    ((h.distinct hlawful).append_absent hlawful.equivalence habsent value) hagree
  refine ⟨hcanonical, ?_⟩
  intro other
  exact (entryAt_perm hlawful.equivalence (hcanonical.distinct hlawful) hperm other).trans
    (sets_append hlawful.equivalence habsent value other)

theorem Spread.sets {key : k} {before after : List (k × v)} (h : Spread hashPolicy before)
    (hsets : Sets hashPolicy.equalKeys key (some entry) before after) :
    Spread hashPolicy after := by
  have hkept : ∀ stored ∈ before, ∃ kept ∈ after,
      hashFor hashPolicy stored.1 = hashFor hashPolicy kept.1 := by
    intro stored hstored
    have hsome : (entryAt hashPolicy.equalKeys stored.1 after).isSome = true := by
      rw [hsets stored.1]
      split
      · rfl
      · rw [entryAt, List.find?_isSome]
        exact ⟨stored, hstored, same_refl hlawful.equivalence stored.1⟩
    obtain ⟨kept, hkept⟩ := Option.isSome_iff_exists.mp hsome
    obtain ⟨hmem, hkey⟩ := mem_of_entryAt hkept
    exact ⟨kept, hmem, hashFor_eq hlawful hkey⟩
  obtain ⟨left, hleft, right, hright, hne⟩ := h
  obtain ⟨left', hleft', hleftHash⟩ := hkept left hleft
  obtain ⟨right', hright', hrightHash⟩ := hkept right hright
  exact ⟨left', hleft', right', hright', hleftHash ▸ hrightHash ▸ hne⟩

theorem branch_written {shift : Nat} {slots : Nat → Node k v}
    {dataMap nodeMap : BitVec 32} {payloads : List (BitVec 32 × k × v)} {children : List (Node k v)}
    {key : k} (hshift : shift < hashBits) (hpacked : Packed slots dataMap nodeMap payloads children)
    (hrouted : Routed hashPolicy shift slots) (hspread : Spread hashPolicy (slotEntries slots))
    (hnode : Written hashPolicy (shift + bitsPerLevel) key (some entry)
      (slots (hashIndex (hashFor hashPolicy key) shift)) node) (count : Nat) :
    Written hashPolicy shift key (some entry)
      (.branch count dataMap nodeMap payloads children)
      (exchangedBranch makeBranchNode (hashIndex (hashFor hashPolicy key) shift)
        (slots (hashIndex (hashFor hashPolicy key) shift)) node dataMap nodeMap payloads
        children) := by
  have hexchanged := hpacked.exchange (hashIndex_lt (hashFor hashPolicy key) shift) node
  have hwritten := hrouted.write hlawful hnode
  have hsets := hrouted.write_entryAt hlawful hnode
  refine ⟨canonical_makeBranchNode hshift hexchanged hwritten (hspread.sets hlawful hsets), ?_⟩
  intro other
  have := hsets other
  rw [hwritten.entryAt_eq hlawful, hrouted.entryAt_eq hlawful] at this
  rw [hpacked.entryAt_eq hlawful hrouted, ← this]
  exact hexchanged.entryAt_eq hlawful hwritten _ other

theorem insertNode_spec {shift : Nat}
    (h : Canonical hashPolicy shift node) (addOnly : Bool) {key : k} (value : v)
    (hunder : Under hashPolicy shift key node) :
    Inserts hashPolicy addOnly shift key value node
      (insertNode hashPolicy addOnly (hashFor hashPolicy key) key value shift node) := by
  induction h with
  | emptyNode =>
      rw [insertNode]
      exact .inserted rfl ⟨.leaf rfl, sets_append hlawful.equivalence rfl value⟩
  | @leaf shift hashValue leafKey leafValue hhash =>
      have hstored := entryAt_leaf hashPolicy key hashValue leafKey leafValue
      rw [insertNode]
      simp only [leaf_test hlawful hhash]
      by_cases hkey : hashPolicy.equalKeys key leafKey = true
      · rw [if_pos hkey] at hstored ⊢
        cases addOnly with
        | true => exact .duplicate rfl hstored
        | false => exact .replaced rfl hstored (leaf_changed hlawful hhash hkey leafValue value)
      · rw [if_neg hkey] at hstored ⊢
        exact .inserted hstored (mergeTwo_written hlawful (.leaf hhash) rfl hstored hunder value)
  | @collision shift count hashValue entries hcount hlength hhash hdistinct =>
      rw [insertNode]
      split
      · rename_i hkeyHash
        cases hstored : entryAt hashPolicy.equalKeys key entries with
        | none =>
            rw [insertCollision_absent hstored]
            exact .inserted hstored
              ⟨collision_added hlawful hlength hhash hdistinct hstored hkeyHash
              value, sets_append hlawful.equivalence hstored value⟩
        | some stored =>
            obtain ⟨hkey, front, back, rfl, hfront⟩ := entryAt_split hstored
            rw [insertCollision_present hfront hkey]
            cases addOnly with
            | true => exact .duplicate rfl hstored
            | false =>
                exact .replaced rfl hstored ⟨collision_changed hlength hhash hdistinct value,
                  sets_middle hlawful.equivalence hfront hkey value⟩
      · rename_i hne
        have habsent := entryAt_other_hash hlawful hhash hne
        have hcanonical : Canonical hashPolicy shift (.collision count hashValue entries) :=
          .collision hcount hlength hhash hdistinct
        subst hcount
        exact .inserted habsent (mergeTwo_written hlawful hcanonical rfl habsent hunder value)
  | @branch shift count dataMap nodeMap payloads children slots hcount hshift hpacked hslots
      hroutes hspread ih =>
      have hplace := hashIndex_lt (hashFor hashPolicy key) shift
      have hrouted : Routed hashPolicy shift slots := ⟨hslots, hroutes⟩
      have hslot := ih _ hplace (hrouted.under fun entry hentry =>
        hunder entry ((hpacked.entries_perm _).mem_iff.mpr hentry))
      have hentry := hpacked.entryAt_eq hlawful hrouted count key
      rw [insertNode_branch hpacked]
      generalize insertNode hashPolicy addOnly (hashFor hashPolicy key) key value
        (shift + bitsPerLevel) (slots (hashIndex (hashFor hashPolicy key) shift)) = result
        at hslot ⊢
      cases hslot with
      | inserted habsent hafter =>
          exact .inserted (hentry.trans habsent)
            (branch_written hlawful hshift hpacked hrouted hspread hafter count)
      | replaced hreplace hstored hafter =>
          exact .replaced hreplace (hentry.trans hstored)
            (branch_written hlawful hshift hpacked hrouted hspread hafter count)
      | duplicate hkeep hstored => exact .duplicate hkeep (hentry.trans hstored)

end

end Durable7.Hamt.HashMap
