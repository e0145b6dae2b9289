import Durable7.Hamt.HashMap.Maps

/-!
# The structural check

The check follows the hashes by a prefix and a mask that grow by five bits a level.  It
accepts every canonical trie.
-/

namespace Durable7.Hamt.HashMap

open Foundation List BitVec

universe z

variable {k : Type} {v : Type z} {hashPolicy : HashPolicy k}

/-! ## Prefixes -/

def Masks (shift : Nat) (mask : BitVec 32) : Prop :=
  ∀ hashValue : BitVec 32, (hashValue &&& mask).toNat = hashValue.toNat % 2 ^ shift

def Prefixed (hashPolicy : HashPolicy k) (shift : Nat) (hashPrefix : BitVec 32)
    (node : Node k v) : Prop :=
  ∀ entry ∈ nodeEntries node, (hashFor hashPolicy entry.1).toNat % 2 ^ shift = hashPrefix.toNat

theorem masks_zero : Masks 0 0#32 := by
  intro hashValue
  rw [and_zero, Nat.pow_zero, Nat.mod_one]
  rfl

theorem masks_next (shift : Nat) : Masks (shift + bitsPerLevel) (nextPrefixMask shift) := by
  intro hashValue
  unfold nextPrefixMask
  split
  · rename_i hge
    have hpower : 2 ^ 32 ≤ 2 ^ (shift + bitsPerLevel) := by
      apply Nat.pow_le_pow_right (by decide)
      rw [bitsPerLevel]
      omega
    have := hashValue.isLt
    rw [and_allOnes, Nat.mod_eq_of_lt (by omega)]
  · rename_i hlt
    have hpower : 2 ^ (shift + 5) < 2 ^ 32 := Nat.pow_lt_pow_right (by decide) (by omega)
    have hpos := Nat.two_pow_pos (shift + 5)
    have hmask : (1#32 <<< (shift + 5) - 1#32).toNat = 2 ^ (shift + 5) - 1 := by
      rw [toNat_sub, toNat_shiftLeft, toNat_ofNat,
        Nat.one_mod_eq_one.mpr (by decide), Nat.one_shiftLeft, Nat.mod_eq_of_lt hpower]
      omega
    rw [toNat_and, hmask]
    exact Nat.and_two_pow_sub_one_eq_mod _ _

theorem hashHasPrefix_of_masks {shift : Nat} {hashValue hashPrefix mask : BitVec 32}
    (hmask : Masks shift mask) (h : hashValue.toNat % 2 ^ shift = hashPrefix.toNat) :
    hashHasPrefix hashValue hashPrefix mask = true := by
  rw [hashHasPrefix, beq_iff_eq]
  apply eq_of_toNat_eq
  rw [hmask, h]

theorem slotPrefix_eq {shift place : Nat} {hashValue hashPrefix : BitVec 32}
    (hplace : place < 32) (h : hashValue.toNat % 2 ^ shift = hashPrefix.toNat)
    (hindex : hashIndex hashValue shift = place) :
    hashValue.toNat % 2 ^ (shift + bitsPerLevel) = (slotPrefix shift hashPrefix place).toNat := by
  rw [hashIndex_eq] at hindex
  have hpower : 2 ^ (shift + bitsPerLevel) = 2 ^ shift * 32 := Nat.pow_add 2 shift 5
  have hbound : 2 ^ shift * place < 2 ^ 32 := by
    have hle : place ≤ hashValue.toNat / 2 ^ shift := hindex ▸ Nat.mod_le _ _
    have hproduct := Nat.mul_le_mul_left (2 ^ shift) hle
    have := Nat.mul_div_le hashValue.toNat (2 ^ shift)
    have := hashValue.isLt
    omega
  have hlow : hashPrefix.toNat < 2 ^ shift := h ▸ Nat.mod_lt _ (Nat.two_pow_pos shift)
  have hslot : (BitVec.ofNat 32 place <<< shift).toNat = 2 ^ shift * place := by
    have hword : place % 2 ^ 32 = place := Nat.mod_eq_of_lt (by omega)
    rw [toNat_shiftLeft, toNat_ofNat, hword, Nat.shiftLeft_eq, Nat.mul_comm,
      Nat.mod_eq_of_lt hbound]
  rw [hpower, Nat.mod_mul, h, hindex, slotPrefix, toNat_or, hslot, Nat.or_comm,
    ← Nat.two_pow_add_eq_or_of_lt hlow, Nat.add_comm]

theorem bitmapSlots_eq {β : Type z} {content : Nat → Option β} {bitmap : BitVec 32}
    {items : List β} (h : Sparse content bitmap items) :
    bitmapSlots bitmap = (List.range 32).filter fun place => (content place).isSome := by
  unfold bitmapSlots
  apply filter_congr
  intro place hplace
  have hlt := mem_range.mp hplace
  rw [Bool.eq_iff_iff, decide_eq_true_iff, Ne, and_bit_eq_zero bitmap hlt, h.bit_eq place hlt]
  cases content place with
  | none => simp
  | some item => simp

theorem zip_filterMap {β : Type z} (content : Nat → Option β) (places : List Nat) :
    (places.filter fun place => (content place).isSome).zip (places.filterMap content) =
      places.filterMap fun place => (content place).map fun item => (place, item) := by
  induction places with
  | nil => rfl
  | cons place places ih =>
      cases hcontent : content place with
      | none =>
          rw [filter_cons_of_neg (by simp [hcontent]), filterMap_cons_none hcontent,
            filterMap_cons_none (by simp [hcontent]), ih]
      | some item =>
          rw [filter_cons_of_pos (by simp [hcontent]), filterMap_cons_some hcontent,
            filterMap_cons_some (by simp only [hcontent, Option.map_some]; rfl),
            zip_cons_cons, ih]

theorem mem_zip_slots {β : Type z} {content : Nat → Option β} {bitmap : BitVec 32}
    {items : List β} (h : Sparse content bitmap items) {place : Nat} {item : β}
    (hmem : (place, item) ∈ (bitmapSlots bitmap).zip items) :
    place < 32 ∧ content place = some item := by
  rw [bitmapSlots_eq h, h.items_eq, zip_filterMap] at hmem
  obtain ⟨other, hother, hitem⟩ := mem_filterMap.mp hmem
  obtain ⟨found, hfound, heq⟩ := Option.map_eq_some_iff.mp hitem
  cases heq
  exact ⟨mem_range.mp hother, hfound⟩

theorem childCounts_eq {shift : Nat} {hashPrefix : BitVec 32} {places : List Nat}
    {children : List (Node k v)} (hlength : places.length = children.length)
    (h : ∀ place child, (place, child) ∈ places.zip children →
      nodeCountIfValid (shift + 5) (slotPrefix shift hashPrefix place) (nextPrefixMask shift)
        child = some (nodeCardinality child)) :
    childCounts shift hashPrefix places children = some (children.map nodeCardinality) := by
  induction children generalizing places with
  | nil => cases places <;> rfl
  | cons child children ih =>
      cases places with
      | nil => cases hlength
      | cons place places =>
          rw [childCounts, h place child mem_cons_self]
          have hrest := ih (Nat.succ.inj hlength) fun other node hmem =>
            h other node (mem_cons_of_mem _ hmem)
          simp only [hrest]
          rfl

section Branch

variable {shift count : Nat} {slots : Nat → Node k v} {dataMap nodeMap : BitVec 32}
  {payloads : List (BitVec 32 × k × v)} {children : List (Node k v)}

section

variable (hpacked : Packed slots dataMap nodeMap payloads children)
include hpacked

theorem Packed.disjoint : dataMap &&& nodeMap = 0#32 := by
  apply eq_of_getLsbD_eq
  intro place hplace
  rw [getLsbD_and, hpacked.data.bit_eq place hplace, hpacked.nodes.bit_eq place hplace,
    getLsbD_zero]
  cases slots place with
  | emptyNode => rfl
  | leaf hashValue key value => rfl
  | collision count hashValue entries => rfl
  | branch count dataMap nodeMap payloads children => rfl

theorem Packed.child_kind {child : Node k v} (hchild : child ∈ children) : IsPart child := by
  obtain ⟨place, hplace, hslot⟩ := hpacked.nodes.mem_iff.mp hchild
  have hkind := isPart_of_child? hslot
  rw [← child?_eq hslot] at hkind
  exact hkind

theorem Packed.not_both_zero
    (hspread : Spread hashPolicy (slotEntries slots)) : ¬(dataMap = 0#32 ∧ nodeMap = 0#32) := by
  rintro ⟨hdata, hnodes⟩
  have hpayloads := hpacked.data.length_eq
  have hchildren := hpacked.nodes.length_eq
  rw [hdata] at hpayloads
  rw [hnodes] at hchildren
  obtain ⟨left, hleft, -⟩ := hspread
  have hmem := (hpacked.entries_perm 0).mem_iff.mpr hleft
  rw [eq_nil_of_length_eq_zero hpayloads, eq_nil_of_length_eq_zero hchildren] at hmem
  cases hmem

theorem Packed.single_part
    (hrouted : Routed hashPolicy shift slots) (hspread : Spread hashPolicy (slotEntries slots))
    (hsmall : payloads.length + children.length < 2) :
    payloads.isEmpty = true ∧ singleBranch children = true := by
  obtain ⟨left, hleft, right, hright, hne⟩ :=
    hspread.mono fun _ => (hpacked.entries_perm 0).mem_iff.mpr
  match payloads, children, hsmall with
  | [], [], _ => cases hleft
  | [payload], [], _ =>
      simp only [nodeEntries, nodesEntries, map_cons, map_nil, append_nil,
        mem_singleton] at hleft hright
      rw [hleft, hright] at hne
      exact absurd rfl hne
  | [], [child], _ =>
      refine ⟨rfl, ?_⟩
      obtain ⟨place, hplace, hslot⟩ := hpacked.nodes.mem_iff.mp mem_cons_self
      have hcanonical := hrouted.canonical place hplace
      have hkind := hpacked.child_kind mem_cons_self
      rw [← child?_eq hslot] at hcanonical
      have hchild : ¬isHashNode child = true := by
        intro hnode
        apply hcanonical.not_spread hnode
        refine ⟨left, ?_, right, ?_, hne⟩
        · simpa [nodeEntries, nodesEntries] using hleft
        · simpa [nodeEntries, nodesEntries] using hright
      cases child with
      | emptyNode => cases hkind.2
      | leaf hashValue key value => cases hkind.2
      | collision count hashValue entries => exact absurd rfl hchild
      | branch count dataMap nodeMap payloads children => rfl
  | _ :: _ :: _, _, hsmall => simp at hsmall; omega
  | _ :: _, _ :: _, hsmall => simp at hsmall; omega
  | _, _ :: _ :: _, hsmall => simp at hsmall; omega

end

theorem Routed.terminal (hrouted : Routed hashPolicy shift slots) {place : Nat}
    (hplace : place < 32) (hslot : slots place ≠ .emptyNode) :
    invalidTerminalSlot shift place = false := by
  obtain ⟨entry, hentry⟩ : ∃ entry, entry ∈ nodeEntries (slots place) := by
    apply exists_mem_of_ne_nil
    exact fun hnil => hslot ((hrouted.canonical place hplace).eq_emptyNode hnil)
  have hroute := hrouted.routes place hplace entry hentry
  rw [hashIndex_eq] at hroute
  unfold invalidTerminalSlot
  by_cases hshift : shift = 30
  · subst hshift
    have := (hashFor hashPolicy entry.1).isLt
    simp only [beq_self_eq_true, Bool.true_and, decide_eq_false_iff_not]
    omega
  · simp [hshift]

end Branch

theorem Canonical.nodeCountIfValid_eq {shift : Nat} {node : Node k v}
    (h : Canonical hashPolicy shift node) (hlevel : 5 ∣ shift) {hashPrefix prefixMask : BitVec 32}
    (hmask : Masks shift prefixMask) (hprefixed : Prefixed hashPolicy shift hashPrefix node) :
    nodeCountIfValid shift hashPrefix prefixMask node = some (nodeCardinality node) := by
  induction h generalizing hashPrefix prefixMask with
  | emptyNode => rfl
  | leaf hhash =>
      have hroute := hprefixed _ mem_cons_self
      rw [hhash] at hroute
      rw [nodeCountIfValid, if_pos (hashHasPrefix_of_masks hmask hroute)]
      rfl
  | @collision shift count hashValue entries hcount hlength hhash hdistinct =>
      obtain ⟨entry, hentry⟩ := exists_mem_of_length_pos (l := entries) (by omega)
      have hroute := hprefixed entry hentry
      rw [hhash entry hentry] at hroute
      rw [nodeCountIfValid, if_pos ⟨hlength, hcount, hashHasPrefix_of_masks hmask hroute⟩]
      rfl
  | @branch shift count dataMap nodeMap payloads children slots hcount hshift hpacked hslots
      hroutes hspread ih =>
      have hrouted : Routed hashPolicy shift slots := ⟨hslots, hroutes⟩
      have hbelow : ∀ place < 32, Prefixed hashPolicy (shift + bitsPerLevel)
          (slotPrefix shift hashPrefix place) (slots place) := by
        intro place hplace entry hentry
        apply slotPrefix_eq hplace
        · exact hprefixed entry ((hpacked.entries_perm _).mem_iff.mpr
            (mem_slotEntries.mpr ⟨place, hplace, hentry⟩))
        · exact hroutes place hplace entry hentry
      have hdepth : ¬shift > 30 := by
        rw [hashBits] at hshift
        omega
      have hleaves : ¬children.any isLeaf = true := by
        rw [any_eq_true]
        rintro ⟨child, hchild, hleaf⟩
        have hkind := hpacked.child_kind hchild
        cases child <;> cases hleaf
        cases hkind.2
      have hterminal : ¬(bitmapSlots dataMap ++ bitmapSlots nodeMap).any
          (invalidTerminalSlot shift) = true := by
        rw [any_eq_true]
        rintro ⟨place, hmem, hinvalid⟩
        have hoccupied : place < 32 ∧ slots place ≠ .emptyNode := by
          rw [bitmapSlots_eq hpacked.data, bitmapSlots_eq hpacked.nodes] at hmem
          rcases mem_append.mp hmem with hmem | hmem
          · obtain ⟨hplace, hsome⟩ := mem_filter.mp hmem
            refine ⟨mem_range.mp hplace, ?_⟩
            intro hslot
            rw [hslot] at hsome
            cases hsome
          · obtain ⟨hplace, hsome⟩ := mem_filter.mp hmem
            refine ⟨mem_range.mp hplace, ?_⟩
            intro hslot
            rw [hslot] at hsome
            cases hsome
        rw [hrouted.terminal hoccupied.1 hoccupied.2] at hinvalid
        cases hinvalid
      have hpayloads : ¬((bitmapSlots dataMap).zip payloads).all
          (fun routed => payloadRoutesTo shift hashPrefix routed.1 routed.2) = false := by
        rw [Bool.not_eq_false, all_eq_true]
        rintro ⟨place, payload⟩ hmem
        obtain ⟨hplace, hpayload⟩ := mem_zip_slots hpacked.data hmem
        have hslot := payload?_eq hpayload
        have hleaf := hslots place hplace
        have hentry := hbelow place hplace
        rw [hslot] at hleaf hentry
        cases hleaf with
        | leaf hhash =>
            have hroute := hentry _ mem_cons_self
            rw [hhash] at hroute
            exact hashHasPrefix_of_masks (masks_next shift) hroute
      have hchildren : childCounts shift hashPrefix (bitmapSlots nodeMap) children =
          some (children.map nodeCardinality) := by
        apply childCounts_eq
        · rw [bitmapSlots_eq hpacked.nodes, hpacked.nodes.items_eq, Sparse.filterMap_length]
        · intro place child hmem
          obtain ⟨hplace, hchild⟩ := mem_zip_slots hpacked.nodes hmem
          rw [child?_eq hchild]
          exact ih place hplace (Nat.dvd_add hlevel ⟨1, rfl⟩) (masks_next shift)
            (hbelow place hplace)
      rw [nodeCountIfValid, if_neg hdepth, if_neg (not_not.mpr hpacked.disjoint),
        if_neg (hpacked.not_both_zero hspread),
        if_neg (not_not.mpr hpacked.data.length_eq.symm),
        if_neg (not_not.mpr hpacked.nodes.length_eq.symm), if_neg hleaves,
        if_neg fun hsmall => hsmall.2 (hpacked.single_part hrouted hspread hsmall.1),
        if_neg hterminal, if_neg hpayloads, hchildren]
      exact if_pos hcount

theorem WellFormed.validStructure_eq {map : HashMap k v} (h : map.WellFormed) :
    validStructure map = true := by
  have hprefixed : Prefixed map.policy 0 0#32 map.root := by
    intro entry _
    rw [Nat.pow_zero, Nat.mod_one]
    rfl
  rw [validStructure, h.canonical.nodeCountIfValid_eq ⟨0, rfl⟩ masks_zero hprefixed, h.size_eq]
  exact beq_self_eq_true _

end Durable7.Hamt.HashMap
