import Durable7.Foundation.Classes
import Durable7.Hamt.HashMap.Slots

/-!
# Canonical tries

In a canonical trie the shape follows from the hashes of the keys: nothing, one entry,
a bucket of entries under one hash, or a branch when two hashes differ.
-/

namespace Durable7.Hamt

open Foundation List Function Nat

universe z

/-- The callbacks of a policy define classes of keys, and a class has one hash. -/
structure HashPolicy.Lawful {k : Type} (hashPolicy : HashPolicy k) : Prop where
  equivalence : Equivalence fun left right => hashPolicy.equalKeys left right = true
  hashKey_eq : ∀ left right,
    hashPolicy.equalKeys left right = true → hashPolicy.hashKey left = hashPolicy.hashKey right

namespace HashMap

variable {k : Type} {v : Type z} {hashPolicy : HashPolicy k}

theorem hashFor_eq (hlawful : hashPolicy.Lawful) {left right : k}
    (h : hashPolicy.equalKeys left right = true) :
    hashFor hashPolicy left = hashFor hashPolicy right := by
  rw [hashFor, hashFor, hlawful.hashKey_eq left right h]

theorem hashIndex_eq (hashValue : BitVec 32) (shift : Nat) :
    hashIndex hashValue shift = hashValue.toNat / 2 ^ shift % 32 := by
  rw [hashIndex, BitVec.toNat_and, BitVec.toNat_ushiftRight, shiftRight_eq_div_pow]
  exact and_two_pow_sub_one_eq_mod _ 5

theorem hashIndex_lt (hashValue : BitVec 32) (shift : Nat) : hashIndex hashValue shift < 32 := by
  rw [hashIndex_eq]
  exact mod_lt _ (by decide)

/-- Two hashes have the same parts below a level. -/
def Agree (shift : Nat) (left right : BitVec 32) : Prop :=
  left.toNat % 2 ^ shift = right.toNat % 2 ^ shift

theorem agree_zero (left right : BitVec 32) : Agree 0 left right := by
  rw [Agree, pow_zero, mod_one, mod_one]

section

variable {shift : Nat} {left right : BitVec 32} (h : Agree shift left right)
include h

theorem agree_next (hindex : hashIndex left shift = hashIndex right shift) :
    Agree (shift + bitsPerLevel) left right := by
  rw [hashIndex_eq, hashIndex_eq] at hindex
  have hpower : 2 ^ (shift + bitsPerLevel) = 2 ^ shift * 32 := pow_add 2 shift 5
  rw [Agree, hpower, mod_mul, mod_mul, h, hindex]

theorem agree_eq (hshift : hashBits ≤ shift) : left = right := by
  have hpower : 2 ^ 32 ≤ 2 ^ shift := Nat.pow_le_pow_right (by decide) hshift
  have hleft := left.isLt
  have hright := right.isLt
  rw [Agree, mod_eq_of_lt (by omega), mod_eq_of_lt (by omega)] at h
  exact BitVec.eq_of_toNat_eq h

end

def Spread (hashPolicy : HashPolicy k) (entries : List (k × v)) : Prop :=
  ∃ left ∈ entries, ∃ right ∈ entries, hashFor hashPolicy left.1 ≠ hashFor hashPolicy right.1

inductive Canonical (hashPolicy : HashPolicy k) : Nat → Node k v → Prop where
  | emptyNode {shift : Nat} : Canonical hashPolicy shift .emptyNode
  | leaf {shift : Nat} {hashValue : BitVec 32} {key : k} {value : v}
      (hhash : hashFor hashPolicy key = hashValue) :
      Canonical hashPolicy shift (.leaf hashValue key value)
  | collision {shift count : Nat} {hashValue : BitVec 32} {entries : List (k × v)}
      (hcount : count = entries.length) (hlength : 2 ≤ entries.length)
      (hhash : ∀ entry ∈ entries, hashFor hashPolicy entry.1 = hashValue)
      (hdistinct : Distinct hashPolicy.equalKeys entries) :
      Canonical hashPolicy shift (.collision count hashValue entries)
  | branch {shift count : Nat} {dataMap nodeMap : BitVec 32}
      {payloads : List (BitVec 32 × k × v)} {children : List (Node k v)} {slots : Nat → Node k v}
      (hcount : count = payloads.length + (children.map nodeCardinality).sum)
      (hshift : shift < hashBits) (hpacked : Packed slots dataMap nodeMap payloads children)
      (hslots : ∀ place < 32, Canonical hashPolicy (shift + bitsPerLevel) (slots place))
      (hroutes : ∀ place < 32, ∀ entry ∈ nodeEntries (slots place),
        hashIndex (hashFor hashPolicy entry.1) shift = place)
      (hspread : Spread hashPolicy (slotEntries slots)) :
      Canonical hashPolicy shift (.branch count dataMap nodeMap payloads children)

/-- Canonical slots whose entries lie where their hashes lead. -/
structure Routed (hashPolicy : HashPolicy k) (shift : Nat) (slots : Nat → Node k v) : Prop where
  canonical : ∀ place < 32, Canonical hashPolicy (shift + bitsPerLevel) (slots place)
  routes : ∀ place < 32, ∀ entry ∈ nodeEntries (slots place),
    hashIndex (hashFor hashPolicy entry.1) shift = place

theorem Spread.mono {entries others : List (k × v)} (h : Spread hashPolicy entries)
    (hsub : ∀ entry ∈ entries, entry ∈ others) : Spread hashPolicy others := by
  obtain ⟨left, hleft, right, hright, hne⟩ := h
  exact ⟨left, hsub left hleft, right, hsub right hright, hne⟩

theorem canonical_makeBranchNode {shift : Nat} {dataMap nodeMap : BitVec 32}
    {payloads : List (BitVec 32 × k × v)} {children : List (Node k v)} {slots : Nat → Node k v}
    (hshift : shift < hashBits) (hpacked : Packed slots dataMap nodeMap payloads children)
    (hrouted : Routed hashPolicy shift slots) (hspread : Spread hashPolicy (slotEntries slots)) :
    Canonical hashPolicy shift (makeBranchNode dataMap nodeMap payloads children) :=
  .branch rfl hshift hpacked hrouted.canonical hrouted.routes hspread

theorem entriesToNode_spec {shift : Nat} {hashValue : BitVec 32} {entries : List (k × v)}
    (hhash : ∀ entry ∈ entries, hashFor hashPolicy entry.1 = hashValue)
    (hdistinct : Distinct hashPolicy.equalKeys entries) :
    Canonical hashPolicy shift (entriesToNode hashValue entries) ∧
      nodeEntries (entriesToNode hashValue entries) = entries := by
  match entries with
  | [] => exact ⟨.emptyNode, rfl⟩
  | [(key, value)] => exact ⟨.leaf (hhash _ mem_cons_self), rfl⟩
  | first :: second :: rest => exact ⟨.collision rfl (by simp) hhash hdistinct, rfl⟩

theorem entriesToNode_eq {shift : Nat} {node : Node k v} (h : Canonical hashPolicy shift node)
    (hnode : isHashNode node = true) :
    entriesToNode (hashNodeHash node) (nodeEntries node) = node ∧
      ∀ entry ∈ nodeEntries node, hashFor hashPolicy entry.1 = hashNodeHash node := by
  cases h with
  | emptyNode => cases hnode
  | leaf hhash =>
      refine ⟨rfl, ?_⟩
      intro entry hentry
      rw [mem_singleton.mp hentry]
      exact hhash
  | collision hcount hlength hhash hdistinct =>
      refine ⟨?_, hhash⟩
      rename_i entries
      subst hcount
      match entries, hlength with
      | first :: second :: rest, _ => rfl
  | branch => cases hnode

/-! ## Contents of a canonical trie -/

theorem Routed.distinct {shift : Nat} {slots : Nat → Node k v}
    (hlawful : hashPolicy.Lawful) (h : Routed hashPolicy shift slots)
    (hslots : ∀ place < 32, Distinct hashPolicy.equalKeys (nodeEntries (slots place))) :
    Distinct hashPolicy.equalKeys (slotEntries slots) := by
  unfold Distinct slotEntries
  rw [pairwise_flatMap]
  refine ⟨fun place hplace => hslots place (mem_range.mp hplace), ?_⟩
  apply pairwise_lt_range.imp_of_mem
  intro first second hfirst hsecond hlt left hleft right hright
  by_contra hsame
  have hhash := hashFor_eq hlawful (Bool.of_not_eq_false hsame)
  have hleftRoute := h.routes first (mem_range.mp hfirst) left hleft
  have hrightRoute := h.routes second (mem_range.mp hsecond) right hright
  rw [hhash] at hleftRoute
  omega

theorem Canonical.distinct {shift : Nat} {node : Node k v} (hlawful : hashPolicy.Lawful)
    (h : Canonical hashPolicy shift node) :
    Distinct hashPolicy.equalKeys (nodeEntries node) := by
  induction h with
  | emptyNode => exact List.Pairwise.nil
  | leaf hhash => exact pairwise_singleton _ _
  | collision hcount hlength hhash hdistinct => exact hdistinct
  | branch hcount hshift hpacked hslots hroutes hspread ih =>
      have hrouted : Routed hashPolicy _ _ := ⟨hslots, hroutes⟩
      exact (hrouted.distinct hlawful ih).perm hlawful.equivalence (hpacked.entries_perm _).symm

section

variable {shift : Nat} {node : Node k v} (h : Canonical hashPolicy shift node)
include h

theorem Canonical.cardinality : nodeCardinality node = (nodeEntries node).length := by
  induction h with
  | emptyNode => rfl
  | leaf hhash => rfl
  | collision hcount hlength hhash hdistinct => exact hcount
  | @branch shift count dataMap nodeMap payloads children slots hcount hshift hpacked hslots
      hroutes hspread ih =>
      have hchildren : ∀ child ∈ children, nodeCardinality child = (nodeEntries child).length := by
        intro child hchild
        obtain ⟨place, hplace, hslot⟩ := hpacked.nodes.mem_iff.mp hchild
        rw [child?_eq hslot]
        exact ih place hplace
      rw [nodeEntries, length_append, length_map, nodesEntries_eq, length_flatMap,
        ← map_congr_left hchildren]
      exact hcount

theorem Canonical.eq_emptyNode (hentries : nodeEntries node = []) : node = .emptyNode := by
  cases h with
  | emptyNode => rfl
  | leaf hhash => cases hentries
  | collision hcount hlength hhash hdistinct =>
      rw [nodeEntries] at hentries
      rw [hentries] at hlength
      contradiction
  | @branch _ count _ _ _ _ _ hcount hshift hpacked hslots hroutes hspread =>
      obtain ⟨left, hleft, -⟩ := hspread
      have hmem := (hpacked.entries_perm count).mem_iff.mpr hleft
      rw [hentries] at hmem
      cases hmem

theorem Canonical.hashNode
    (hspread : ¬Spread hashPolicy (nodeEntries node)) (hentries : nodeEntries node ≠ []) :
    isHashNode node = true := by
  cases h with
  | emptyNode => exact absurd rfl hentries
  | leaf hhash => rfl
  | collision hcount hlength hhash hdistinct => rfl
  | branch hcount hshift hpacked hslots hroutes hspread' =>
      exact absurd (hspread'.mono fun _ => (hpacked.entries_perm _).mem_iff.mpr) hspread

theorem Canonical.lift
    (hnode : isHashNode node = true) (other : Nat) : Canonical hashPolicy other node := by
  cases h with
  | emptyNode => cases hnode
  | leaf hhash => exact .leaf hhash
  | collision hcount hlength hhash hdistinct => exact .collision hcount hlength hhash hdistinct
  | branch => cases hnode

theorem Canonical.not_spread
    (hnode : isHashNode node = true) : ¬Spread hashPolicy (nodeEntries node) := by
  rintro ⟨left, hleft, right, hright, hne⟩
  have hhash := (entriesToNode_eq h hnode).2
  exact hne ((hhash left hleft).trans (hhash right hright).symm)

end

section Branch

variable {shift : Nat} {slots : Nat → Node k v} {dataMap nodeMap : BitVec 32}
  {payloads : List (BitVec 32 × k × v)} {children : List (Node k v)}

theorem normalizeBranch_spread (hpacked : Packed slots dataMap nodeMap payloads children)
    (hrouted : Routed hashPolicy shift slots) (hspread : Spread hashPolicy (slotEntries slots)) :
    normalizeBranch dataMap nodeMap payloads children =
      makeBranchNode dataMap nodeMap payloads children := by
  have hbranch :
      Spread hashPolicy (payloads.map (fun payload => payload.2) ++ nodesEntries children) :=
    hspread.mono fun _ => (hpacked.entries_perm 0).mem_iff.mpr
  unfold normalizeBranch
  split
  · rename_i hzero
    have hpayloads := hpacked.data.length_eq
    have hchildren := hpacked.nodes.length_eq
    rw [hzero.1] at hpayloads
    rw [hzero.2] at hchildren
    rw [eq_nil_of_length_eq_zero hpayloads, eq_nil_of_length_eq_zero hchildren] at hbranch
    obtain ⟨left, hleft, -⟩ := hbranch
    cases hleft
  · split
    · obtain ⟨left, hleft, right, hright, hne⟩ := hbranch
      simp only [map_cons, map_nil, nodesEntries, append_nil, mem_singleton] at hleft hright
      rw [hleft, hright] at hne
      exact absurd rfl hne
    · rename_i count hashValue entries _
      obtain ⟨place, hplace, hslot⟩ := hpacked.nodes.mem_iff.mp mem_cons_self
      have hcanonical := hrouted.canonical place hplace
      rw [← child?_eq hslot] at hcanonical
      apply absurd _ (hcanonical.not_spread rfl)
      simpa [nodesEntries, nodeEntries] using hbranch
    · rfl

theorem normalizeBranch_spec (hshift : shift < hashBits)
    (hpacked : Packed slots dataMap nodeMap payloads children)
    (hrouted : Routed hashPolicy shift slots) :
    Canonical hashPolicy shift (normalizeBranch dataMap nodeMap payloads children) ∧
      (nodeEntries (normalizeBranch dataMap nodeMap payloads children)).Perm
        (slotEntries slots) := by
  by_cases hspread : Spread hashPolicy (slotEntries slots)
  · rw [normalizeBranch_spread hpacked hrouted hspread]
    exact ⟨canonical_makeBranchNode hshift hpacked hrouted hspread, hpacked.entries_perm _⟩
  · rcases eq_nil_or_concat' (slotEntries slots) with hnil | ⟨front, entry, hconcat⟩
    · have hempty : ∀ place < 32, slots place = .emptyNode := by
        intro place hplace
        apply (hrouted.canonical place hplace).eq_emptyNode
        exact flatMap_eq_nil_iff.mp hnil place (mem_range.mpr hplace)
      obtain ⟨rfl, rfl, rfl, rfl⟩ :=
        (hpacked.congr fun place hplace => (hempty place hplace).symm).parts_eq Packed.empty
      rw [hnil]
      exact ⟨.emptyNode, .refl _⟩
    · have hentry : entry ∈ slotEntries slots := by simp [hconcat]
      obtain ⟨place, hplace, hmem⟩ := mem_slotEntries.mp hentry
      have hothers : ∀ other < 32, other ≠ place → slots other = .emptyNode := by
        intro other hother hne
        apply (hrouted.canonical other hother).eq_emptyNode
        rw [eq_nil_iff_forall_not_mem]
        intro stray hstray
        apply hspread
        refine ⟨entry, hentry, stray, mem_slotEntries.mpr ⟨other, hother, hstray⟩, ?_⟩
        intro hhash
        apply hne
        rw [← hrouted.routes other hother stray hstray, ← hhash]
        exact hrouted.routes place hplace entry hmem
      have hupdate : ∀ other < 32, slots other =
          update (fun _ => Node.emptyNode) place (slots place) other := by
        intro other hother
        by_cases heq : other = place
        · rw [heq, update_self]
        · rw [update_of_ne heq, hothers other hother heq]
      have hslots := hpacked.congr fun other hother => (hupdate other hother).symm
      have hslot := hrouted.canonical place hplace
      have hnode : isHashNode (slots place) = true := by
        apply hslot.hashNode
        · intro hbelow
          exact hspread (hbelow.mono fun other hother =>
            mem_slotEntries.mpr ⟨place, hplace, hother⟩)
        · intro hnil
          rw [hnil] at hmem
          cases hmem
      have hperm := hpacked.entries_perm 0
      cases hcase : slots place with
      | emptyNode =>
          rw [hcase] at hnode
          cases hnode
      | leaf hashValue key value =>
          rw [hcase] at hslots hslot
          obtain ⟨rfl, rfl, rfl, rfl⟩ := hslots.parts_eq (packed_leaf hplace hashValue key value)
          have hnormal : normalizeBranch (1#32 <<< place) 0#32 [(hashValue, key, value)] [] =
              .leaf hashValue key value := by
            simp [normalizeBranch, bit_ne_zero hplace]
          rw [hnormal]
          exact ⟨hslot.lift rfl shift, by simpa [nodeEntries, nodesEntries] using hperm⟩
      | collision count hashValue entries =>
          rw [hcase] at hslots hslot
          obtain ⟨rfl, rfl, rfl, rfl⟩ := hslots.parts_eq (packed_child hplace ⟨rfl, rfl⟩)
          have hnormal : normalizeBranch 0#32 (1#32 <<< place) []
              [.collision count hashValue entries] = .collision count hashValue entries := by
            simp [normalizeBranch, bit_ne_zero hplace]
          rw [hnormal]
          exact ⟨hslot.lift rfl shift, by simpa [nodeEntries, nodesEntries] using hperm⟩
      | branch =>
          rw [hcase] at hnode
          cases hnode

end Branch

theorem Canonical.exists_entry {shift : Nat} {node : Node k v}
    (h : Canonical hashPolicy shift node) (hnode : isHashNode node = true) :
    ∃ entry, entry ∈ nodeEntries node := by
  apply exists_mem_of_ne_nil
  intro hnil
  rw [h.eq_emptyNode hnil] at hnode
  cases hnode

theorem bitFor_inj {shift : Nat} {left right : BitVec 32} :
    bitFor left shift = bitFor right shift ↔ hashIndex left shift = hashIndex right shift := by
  constructor
  · intro h
    have hleft := hashIndex_lt left shift
    have hright := hashIndex_lt right shift
    have hlt := bit_lt_iff hleft hright
    have hgt := bit_lt_iff hright hleft
    rw [show 1#32 <<< hashIndex left shift = 1#32 <<< hashIndex right shift from h] at hlt hgt
    have hirrefl := BitVec.lt_irrefl (1#32 <<< hashIndex right shift)
    have := (not_congr hlt).mp hirrefl
    have := (not_congr hgt).mp hirrefl
    omega
  · intro h
    rw [bitFor, bitFor, h]

theorem mergeTwo_spec (hlawful : hashPolicy.Lawful) {shift : Nat} {leftHash rightHash : BitVec 32}
    {left right : Node k v} (hleft : Canonical hashPolicy shift left)
    (hright : Canonical hashPolicy shift right) (hleftNode : isHashNode left = true)
    (hrightNode : isHashNode right = true) (hleftHash : hashNodeHash left = leftHash)
    (hrightHash : hashNodeHash right = rightHash)
    (hdistinct : Distinct hashPolicy.equalKeys (nodeEntries left ++ nodeEntries right))
    (hagree : Agree shift leftHash rightHash) :
    Canonical hashPolicy shift (mergeTwo shift leftHash left rightHash right) ∧
      (nodeEntries (mergeTwo shift leftHash left rightHash right)).Perm
        (nodeEntries left ++ nodeEntries right) := by
  have hleftEntries := (entriesToNode_eq hleft hleftNode).2
  have hrightEntries := (entriesToNode_eq hright hrightNode).2
  obtain ⟨first, hfirst⟩ := hleft.exists_entry hleftNode
  obtain ⟨second, hsecond⟩ := hright.exists_entry hrightNode
  rw [hleftHash] at hleftEntries
  rw [hrightHash] at hrightEntries
  by_cases hhash : leftHash = rightHash
  · rw [mergeTwo, if_pos hhash]
    refine ⟨.collision rfl ?_ ?_ hdistinct, .refl _⟩
    · have := length_pos_of_mem hfirst
      have := length_pos_of_mem hsecond
      rw [length_append]
      omega
    · intro entry hentry
      rcases mem_append.mp hentry with hentry | hentry
      · exact hleftEntries entry hentry
      · rw [hhash]
        exact hrightEntries entry hentry
  · have hshift : ¬shift ≥ hashBits := fun hge => hhash (agree_eq hagree hge)
    have hspread : ∀ {entries : List (k × v)},
        (∀ entry, entry ∈ entries ↔ entry ∈ nodeEntries left ++ nodeEntries right) →
        Spread hashPolicy entries := by
      intro entries hmem
      refine ⟨first, (hmem first).mpr (mem_append_left _ hfirst),
        second, (hmem second).mpr (mem_append_right _ hsecond), ?_⟩
      rw [hleftEntries first hfirst, hrightEntries second hsecond]
      exact hhash
    by_cases hbit : bitFor leftHash shift = bitFor rightHash shift
    · have hindex := bitFor_inj.mp hbit
      obtain ⟨hchild, hperm⟩ := mergeTwo_spec hlawful
        (hleft.lift hleftNode (shift + bitsPerLevel)) (hright.lift hrightNode _) hleftNode
        hrightNode hleftHash hrightHash hdistinct (agree_next hagree hindex)
      have hequation : mergeTwo shift leftHash left rightHash right =
          makeBranchNode 0#32 (bitFor leftHash shift) []
            [mergeTwo (shift + bitsPerLevel) leftHash left rightHash right] := by
        rw [mergeTwo, if_neg hhash, if_neg hshift, if_pos hbit]
      have hkind := mergeTwo_kind (shift + bitsPerLevel) leftHash rightHash left right
      rw [hequation]
      generalize mergeTwo (shift + bitsPerLevel) leftHash left rightHash right = child at *
      have hpacked := packed_child (hashIndex_lt leftHash shift) hkind
      have hperm' : (slotEntries (update (fun _ => Node.emptyNode)
          (hashIndex leftHash shift) child)).Perm (nodeEntries left ++ nodeEntries right) := by
        refine (hpacked.entries_perm 0).symm.trans ?_
        simpa [nodeEntries, nodesEntries] using hperm
      refine ⟨canonical_makeBranchNode (by omega) hpacked ⟨?_, ?_⟩
        (hspread fun entry => hperm'.mem_iff), ?_⟩
      · intro place hplace
        by_cases heq : place = hashIndex leftHash shift
        · rw [heq, update_self]
          exact hchild
        · rw [update_of_ne heq]
          exact .emptyNode
      · intro place hplace entry hentry
        by_cases heq : place = hashIndex leftHash shift
        · rw [heq, update_self] at hentry
          rw [heq]
          rcases mem_append.mp (hperm.mem_iff.mp hentry) with hmem | hmem
          · rw [hleftEntries entry hmem]
          · rw [hrightEntries entry hmem, hindex]
        · rw [update_of_ne heq] at hentry
          cases hentry
      · exact (hpacked.entries_perm _).trans hperm'
    · have hindex : hashIndex leftHash shift ≠ hashIndex rightHash shift :=
        fun heq => hbit (bitFor_inj.mpr heq)
      let slots : Nat → Node k v := fun place =>
        if place = hashIndex leftHash shift then left
        else if place = hashIndex rightHash shift then right
        else .emptyNode
      have hslotLeft : slots (hashIndex leftHash shift) = left := if_pos rfl
      have hslotRight : slots (hashIndex rightHash shift) = right :=
        (if_neg (Ne.symm hindex)).trans (if_pos rfl)
      have hothers : ∀ place, place ≠ hashIndex leftHash shift → place ≠ hashIndex rightHash shift →
          slots place = .emptyNode := fun place hne hne' => (if_neg hne).trans (if_neg hne')
      obtain ⟨dataMap, nodeMap, payloads, children, hbranch, hpacked⟩ :=
        makeBranch_packed (hashIndex_lt leftHash shift) (hashIndex_lt rightHash shift) hindex
          hleftNode hrightNode hslotLeft hslotRight fun place _ => hothers place
      have hequation : mergeTwo shift leftHash left rightHash right =
          makeBranchNode dataMap nodeMap payloads children := by
        rw [mergeTwo, if_neg hhash, if_neg hshift, if_neg hbit]
        exact hbranch
      have hplaces : ∀ place, place = hashIndex leftHash shift ∧ slots place = left ∨
          place = hashIndex rightHash shift ∧ slots place = right ∨ slots place = .emptyNode := by
        intro place
        by_cases heq : place = hashIndex leftHash shift
        · exact .inl ⟨heq, heq ▸ hslotLeft⟩
        · by_cases heq' : place = hashIndex rightHash shift
          · exact .inr (.inl ⟨heq', heq' ▸ hslotRight⟩)
          · exact .inr (.inr (hothers place heq heq'))
      have hmem : ∀ entry,
          entry ∈ slotEntries slots ↔ entry ∈ nodeEntries left ++ nodeEntries right := by
        intro entry
        rw [mem_slotEntries, mem_append]
        constructor
        · rintro ⟨place, -, hentry⟩
          rcases hplaces place with ⟨-, hslot⟩ | ⟨-, hslot⟩ | hslot
          · exact .inl (hslot ▸ hentry)
          · exact .inr (hslot ▸ hentry)
          · rw [hslot] at hentry
            cases hentry
        · rintro (hentry | hentry)
          · exact ⟨_, hashIndex_lt leftHash shift, hslotLeft.symm ▸ hentry⟩
          · exact ⟨_, hashIndex_lt rightHash shift, hslotRight.symm ▸ hentry⟩
      have hcanonical :
          Canonical hashPolicy shift (makeBranchNode dataMap nodeMap payloads children) := by
        refine canonical_makeBranchNode (by omega) hpacked ⟨?_, ?_⟩ (hspread hmem)
        · intro place hplace
          rcases hplaces place with ⟨-, hslot⟩ | ⟨-, hslot⟩ | hslot
          · rw [hslot]
            exact hleft.lift hleftNode _
          · rw [hslot]
            exact hright.lift hrightNode _
          · rw [hslot]
            exact .emptyNode
        · intro place hplace entry hentry
          rcases hplaces place with ⟨heq, hslot⟩ | ⟨heq, hslot⟩ | hslot
          · rw [hslot] at hentry
            rw [heq, hleftEntries entry hentry]
          · rw [hslot] at hentry
            rw [heq, hrightEntries entry hentry]
          · rw [hslot] at hentry
            cases hentry
      rw [hequation]
      refine ⟨hcanonical, ?_⟩
      apply (hcanonical.distinct hlawful).perm_of_mem hlawful.equivalence hdistinct
      intro entry
      exact (hpacked.entries_perm _).mem_iff.trans (hmem entry)
termination_by hashBits - shift
decreasing_by
  rw [bitsPerLevel]
  omega

end HashMap

end Durable7.Hamt
