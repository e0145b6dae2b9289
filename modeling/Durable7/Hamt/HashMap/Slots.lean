import Durable7.Hamt.HashMap.Operations
import Mathlib.Data.List.Perm.Basic

/-!
# Slots of a branch

A branch stands for 32 slots, each empty, a single entry or a larger part.  An exchange
of one slot changes each bitmap by at most one mark and each list by at most one item.
-/

namespace Durable7.Hamt.HashMap

open Foundation List Function

universe z

section Exchange

variable {β : Type z}

theorem insertAt_length (front back : List β) (item : β) :
    insertAt front.length item (front ++ back) = front ++ item :: back := by
  induction front with
  | nil => cases back <;> rfl
  | cons first front ih => exact congrArg (first :: ·) ih

theorem replaceAt_length (front back : List β) (old item : β) :
    replaceAt front.length item (front ++ old :: back) = front ++ item :: back := by
  induction front with
  | nil => rfl
  | cons first front ih => exact congrArg (first :: ·) ih

theorem removeAt_length (front back : List β) (old : β) :
    removeAt front.length (front ++ old :: back) = front ++ back := by
  induction front with
  | nil => rfl
  | cons first front ih => exact congrArg (first :: ·) ih

theorem replaceAt_eq_set (index : Nat) (item : β) (items : List β) :
    replaceAt index item items = items.set index item := by
  induction items generalizing index with
  | nil => cases index <;> rfl
  | cons first items ih =>
      cases index with
      | zero => rfl
      | succ index => exact congrArg (first :: ·) (ih index)

theorem replaceAt_map (ofPlace : Nat → β) (place bound : Nat) (item : β) :
    replaceAt place item ((List.range bound).map ofPlace) =
      (List.range bound).map (update ofPlace place item) := by
  rw [replaceAt_eq_set]
  apply ext_getElem
  · simp
  · intro index hindex hindex'
    rw [getElem_set, getElem_map, getElem_map, getElem_range]
    by_cases heq : place = index
    · rw [if_pos heq, heq, update_self]
    · rw [if_neg heq, update_of_ne (Ne.symm heq)]

def exchangedBits (bitmap bit : BitVec 32) : Option β → Option β → BitVec 32
  | none, some _ => bitmap ||| bit
  | some _, none => bitmap &&& ~~~bit
  | _, _ => bitmap

def exchangedItems (bitmap bit : BitVec 32) (items : List β) : Option β → Option β → List β
  | none, none => items
  | none, some item => insertAt (childIndex bitmap bit) item items
  | some _, some item => replaceAt (childIndex bitmap bit) item items
  | some _, none => removeAt (childIndex bitmap bit) items

variable {content : Nat → Option β} {bitmap : BitVec 32} {items : List β} {place : Nat}

section

variable (h : Sparse content bitmap items) (hplace : place < 32)
include h hplace

theorem sparse_exchange (item : Option β) :
    Sparse (update content place item)
      (exchangedBits bitmap (1#32 <<< place) (content place) item)
      (exchangedItems bitmap (1#32 <<< place) items (content place) item) := by
  obtain ⟨front, back, hlength, hitems, hupdate⟩ := h.split hplace
  refine ⟨?_, ?_⟩
  · cases hold : content place with
    | none =>
        cases item with
        | none =>
            intro other hother
            rw [← hold, update_eq_self, hold]
            exact h.bit_eq other hother
        | some item => exact h.set_bit item
    | some old =>
        cases item with
        | none => exact h.clear_bit
        | some item =>
            intro other hother
            change bitmap.getLsbD other = _
            rw [h.bit_eq other hother]
            by_cases heq : other = place
            · rw [heq, hold, update_self]
              rfl
            · rw [update_of_ne heq]
  · rw [hupdate, hitems]
    unfold exchangedItems childIndex
    rw [← hlength]
    cases content place with
    | none =>
        cases item with
        | none => rfl
        | some item => simpa using insertAt_length front back item
    | some old =>
        cases item with
        | none => simpa using removeAt_length front back old
        | some item => simpa using replaceAt_length front back old item

theorem sparse_clear (hcontent : content place = none) : bitmap &&& 1#32 <<< place = 0#32 := by
  rw [and_bit_eq_zero bitmap hplace, h.bit_eq place hplace, hcontent]
  rfl

theorem sparse_found {item : β} (hcontent : content place = some item) :
    bitmap &&& 1#32 <<< place ≠ 0#32 ∧ items[childIndex bitmap (1#32 <<< place)]? = some item := by
  constructor
  · rw [Ne, and_bit_eq_zero bitmap hplace, h.bit_eq place hplace, hcontent]
    simp
  · obtain ⟨front, back, hlength, hitems, -⟩ := h.split hplace
    rw [hitems, hcontent, childIndex, ← hlength]
    simp

end

theorem sparse_empty : Sparse (fun _ => (none : Option β)) 0#32 [] := by
  refine ⟨fun place _ => BitVec.getLsbD_zero, ?_⟩
  exact (filterMap_eq_nil_iff.mpr fun _ _ => rfl).symm

end Exchange

variable {k : Type} {v : Type z}

def child? : Node k v → Option (Node k v)
  | .collision count hashValue entries => some (.collision count hashValue entries)
  | .branch count dataMap nodeMap payloads children =>
      some (.branch count dataMap nodeMap payloads children)
  | _ => none

/-- The parts of a branch with the given slots. -/
structure Packed (slots : Nat → Node k v) (dataMap nodeMap : BitVec 32)
    (payloads : List (BitVec 32 × k × v)) (children : List (Node k v)) : Prop where
  data : Sparse (fun place => payload? (slots place)) dataMap payloads
  nodes : Sparse (fun place => child? (slots place)) nodeMap children

/-- A branch after one of its slots is exchanged. -/
def exchangedBranch (make : BitVec 32 → BitVec 32 → List (BitVec 32 × k × v) →
      List (Node k v) → Node k v)
    (place : Nat) (old new : Node k v) (dataMap nodeMap : BitVec 32)
    (payloads : List (BitVec 32 × k × v)) (children : List (Node k v)) : Node k v :=
  make (exchangedBits dataMap (1#32 <<< place) (payload? old) (payload? new))
    (exchangedBits nodeMap (1#32 <<< place) (child? old) (child? new))
    (exchangedItems dataMap (1#32 <<< place) payloads (payload? old) (payload? new))
    (exchangedItems nodeMap (1#32 <<< place) children (child? old) (child? new))

variable {child node : Node k v}

theorem child?_eq (h : child? node = some child) : child = node := by
  cases node with
  | emptyNode => cases h
  | leaf hashValue key value => cases h
  | collision count hashValue entries => exact (Option.some.inj h).symm
  | branch count dataMap nodeMap payloads children => exact (Option.some.inj h).symm

theorem payload?_eq {payload : BitVec 32 × k × v} (h : payload? node = some payload) :
    node = .leaf payload.1 payload.2.1 payload.2.2 := by
  cases node with
  | emptyNode => cases h
  | leaf hashValue key value => cases h; rfl
  | collision count hashValue entries => cases h
  | branch count dataMap nodeMap payloads children => cases h

/-- A larger part of a trie is neither empty nor a single entry. -/
def IsPart (node : Node k v) : Prop := payload? node = none ∧ child? node = some node

theorem isPart_of_child? (h : child? node = some child) : IsPart node := by
  cases node with
  | emptyNode => cases h
  | leaf hashValue key value => cases h
  | collision count hashValue entries => exact ⟨rfl, rfl⟩
  | branch count dataMap nodeMap payloads children => exact ⟨rfl, rfl⟩

theorem mergeTwo_kind (shift : Nat) (leftHash rightHash : BitVec 32) (left right : Node k v) :
    IsPart (mergeTwo shift leftHash left rightHash right) := by
  rw [mergeTwo]
  split
  · exact ⟨rfl, rfl⟩
  · split
    · exact ⟨rfl, rfl⟩
    · split
      · exact ⟨rfl, rfl⟩
      · exact ⟨rfl, rfl⟩

namespace Packed

variable {slots : Nat → Node k v} {dataMap nodeMap : BitVec 32}
  {payloads : List (BitVec 32 × k × v)} {children : List (Node k v)} {place : Nat}

theorem exchange (h : Packed slots dataMap nodeMap payloads children) (hplace : place < 32)
    (new : Node k v) :
    Packed (update slots place new)
      (exchangedBits dataMap (1#32 <<< place) (payload? (slots place)) (payload? new))
      (exchangedBits nodeMap (1#32 <<< place) (child? (slots place)) (child? new))
      (exchangedItems dataMap (1#32 <<< place) payloads (payload? (slots place)) (payload? new))
      (exchangedItems nodeMap (1#32 <<< place) children (child? (slots place)) (child? new)) := by
  have hcomp : ∀ {β : Type z} (part : Node k v → Option β),
      (fun other => part (update slots place new other)) =
        update (fun other => part (slots other)) place (part new) := by
    intro β part
    funext other
    exact apply_update (fun _ => part) slots place new other
  refine ⟨?_, ?_⟩
  · rw [hcomp payload?]
    exact sparse_exchange h.data hplace (payload? new)
  · rw [hcomp child?]
    exact sparse_exchange h.nodes hplace (child? new)

theorem empty : Packed (fun _ => (.emptyNode : Node k v)) 0#32 0#32 [] [] :=
  ⟨sparse_empty, sparse_empty⟩

section

variable (h : Packed slots dataMap nodeMap payloads children)
include h

theorem congr {others : Nat → Node k v} (heq : ∀ place < 32, others place = slots place) :
    Packed others dataMap nodeMap payloads children :=
  ⟨h.data.congr fun place hplace => by rw [heq place hplace],
    h.nodes.congr fun place hplace => by rw [heq place hplace]⟩

theorem slot_cases (hplace : place < 32) :
    (slots place = .emptyNode ∧ dataMap &&& 1#32 <<< place = 0#32 ∧
      nodeMap &&& 1#32 <<< place = 0#32) ∨
    (∃ leafHash leafKey leafValue, slots place = .leaf leafHash leafKey leafValue ∧
      dataMap &&& 1#32 <<< place ≠ 0#32 ∧
      payloads[childIndex dataMap (1#32 <<< place)]? = some (leafHash, leafKey, leafValue)) ∨
    (IsPart (slots place) ∧ dataMap &&& 1#32 <<< place = 0#32 ∧
      nodeMap &&& 1#32 <<< place ≠ 0#32 ∧
      children[childIndex nodeMap (1#32 <<< place)]? = some (slots place)) := by
  cases hdata : payload? (slots place) with
  | some payload =>
      obtain ⟨hbit, hitem⟩ := sparse_found h.data hplace hdata
      exact .inr (.inl ⟨_, _, _, payload?_eq hdata, hbit, hitem⟩)
  | none =>
      have hclear := sparse_clear h.data hplace hdata
      cases hnode : child? (slots place) with
      | some child =>
          obtain ⟨hbit, hitem⟩ := sparse_found h.nodes hplace hnode
          rw [child?_eq hnode] at hitem
          exact .inr (.inr ⟨isPart_of_child? hnode, hclear, hbit, hitem⟩)
      | none =>
          refine .inl ⟨?_, hclear, sparse_clear h.nodes hplace hnode⟩
          cases hslot : slots place with
          | emptyNode => rfl
          | leaf hashValue key value => rw [hslot] at hdata; cases hdata
          | collision count hashValue entries => rw [hslot] at hnode; cases hnode
          | branch count dataMap nodeMap payloads children => rw [hslot] at hnode; cases hnode

theorem logicalSlot_eq (hplace : place < 32) (count shift : Nat) :
    logicalSlot (.branch count dataMap nodeMap payloads children) place shift = slots place := by
  rw [logicalSlot]
  rcases h.slot_cases hplace with ⟨hslot, hdata, hnodes⟩ |
    ⟨leafHash, leafKey, leafValue, hslot, hdata, hitem⟩ | ⟨-, hdata, hnodes, hitem⟩
  · simp [hdata, hnodes, hslot]
  · simp [hdata, hitem, hslot]
  · simp [hdata, hnodes, hitem]

end

end Packed

/-! ## Entries of a branch -/

theorem nodesEntries_eq (children : List (Node k v)) :
    nodesEntries children = children.flatMap nodeEntries := by
  induction children with
  | nil => rfl
  | cons child children ih => rw [nodesEntries, ih, flatMap_cons]

theorem filterMap_flatMap {β γ : Type z} (places : List Nat) {content : Nat → Option β}
    {ofItem : β → List γ} {ofPlace : Nat → List γ}
    (h : ∀ place item, content place = some item → ofItem item = ofPlace place) :
    (places.filterMap content).flatMap ofItem =
      (places.filter fun place => (content place).isSome).flatMap ofPlace := by
  induction places with
  | nil => rfl
  | cons place places ih =>
      cases hcontent : content place with
      | none => rw [filterMap_cons_none hcontent, filter_cons_of_neg (by simp [hcontent]), ih]
      | some item =>
          rw [filterMap_cons_some hcontent, filter_cons_of_pos (by simp [hcontent]),
            flatMap_cons, flatMap_cons, ih, h place item hcontent]

theorem filter_flatMap {γ : Type z} (places : List Nat) (test : Nat → Bool)
    (ofPlace : Nat → List γ) :
    (places.filter test).flatMap ofPlace =
      places.flatMap fun place => if test place = true then ofPlace place else [] := by
  induction places with
  | nil => rfl
  | cons place places ih =>
      rw [flatMap_cons, ← ih]
      by_cases htest : test place = true
      · rw [filter_cons_of_pos htest, if_pos htest, flatMap_cons]
      · rw [filter_cons_of_neg htest, if_neg htest, nil_append]

def slotEntries (slots : Nat → Node k v) : List (k × v) :=
  (List.range 32).flatMap fun place => nodeEntries (slots place)

variable {slots : Nat → Node k v}

theorem mem_slotEntries {entry : k × v} :
    entry ∈ slotEntries slots ↔ ∃ place < 32, entry ∈ nodeEntries (slots place) := by
  simp only [slotEntries, mem_flatMap, mem_range]

theorem slotEntries_congr {slots others : Nat → Node k v}
    (h : ∀ place < 32, slots place = others place) : slotEntries slots = slotEntries others := by
  unfold slotEntries
  apply flatMap_congr
  intro place hplace
  rw [h place (mem_range.mp hplace)]

variable {place : Nat}

theorem slotEntries_single (hplace : place < 32)
    (h : ∀ other < 32, other ≠ place → slots other = .emptyNode) :
    slotEntries slots = nodeEntries (slots place) := by
  have hnone : ∀ {places : List Nat}, (∀ other ∈ places, other < 32 ∧ other ≠ place) →
      places.flatMap (fun other => nodeEntries (slots other)) = [] := by
    intro places hplaces
    apply flatMap_eq_nil_iff.mpr
    intro other hother
    rw [h other (hplaces other hother).1 (hplaces other hother).2]
    rfl
  have hfront : ∀ other ∈ List.range place, other < 32 ∧ other ≠ place := by
    intro other hother
    have := mem_range.mp hother
    omega
  have hback : ∀ other ∈ List.range' (place + 1) (31 - place), other < 32 ∧ other ≠ place := by
    intro other hother
    have := mem_range'_1.mp hother
    omega
  rw [slotEntries, Sparse.range_split hplace, flatMap_append, flatMap_cons,
    hnone hfront, hnone hback, nil_append, append_nil]

def inlineSlots (slots : Nat → Node k v) : List Nat :=
  (List.range 32).filter fun place => (payload? (slots place)).isSome

def childSlots (slots : Nat → Node k v) : List Nat :=
  (List.range 32).filter fun place => (child? (slots place)).isSome

namespace Packed

variable {slots : Nat → Node k v} {dataMap nodeMap : BitVec 32}
  {payloads : List (BitVec 32 × k × v)} {children : List (Node k v)} {place : Nat}

section

variable (h : Packed slots dataMap nodeMap payloads children)
include h

theorem inline_entries :
    payloads.map (fun payload => payload.2) =
      (inlineSlots slots).flatMap fun place => nodeEntries (slots place) := by
  rw [h.data.items_eq, map_eq_flatMap]
  apply filterMap_flatMap
  intro place payload hpayload
  rw [payload?_eq hpayload]
  rfl

theorem child_entries :
    nodesEntries children = (childSlots slots).flatMap fun place => nodeEntries (slots place) := by
  rw [nodesEntries_eq, h.nodes.items_eq]
  apply filterMap_flatMap
  intro place child hchild
  rw [child?_eq hchild]

theorem entries_eq (count : Nat) :
    nodeEntries (.branch count dataMap nodeMap payloads children) =
      (inlineSlots slots ++ childSlots slots).flatMap fun place => nodeEntries (slots place) := by
  rw [nodeEntries, h.inline_entries, h.child_entries, flatMap_append]

theorem entries_perm (count : Nat) :
    (nodeEntries (.branch count dataMap nodeMap payloads children)).Perm (slotEntries slots) := by
  rw [h.entries_eq, flatMap_append, inlineSlots, childSlots, filter_flatMap, filter_flatMap]
  refine (flatMap_append_perm _ _ _).trans (List.Perm.of_eq ?_)
  unfold slotEntries
  congr 1
  funext place
  cases slots place with
  | emptyNode => rfl
  | leaf hashValue key value => rfl
  | collision count hashValue entries => rfl
  | branch count dataMap nodeMap payloads children => rfl

end

end Packed

/-! ## Packing slots -/

variable {β : Type z}

theorem filterMap_none {content : Nat → Option β} {places : List Nat}
    (h : ∀ place ∈ places, content place = none) : places.filterMap content = [] :=
  filterMap_eq_nil_iff.mpr h

variable {bound : Nat}

theorem filterMap_single {content : Nat → Option β}
    (hplace : place < bound) (h : ∀ other < bound, other ≠ place → content other = none) :
    (List.range bound).filterMap content = (content place).toList := by
  induction bound with
  | zero => contradiction
  | succ bound ih =>
      rw [range_succ, filterMap_append]
      rcases Nat.lt_succ_iff_lt_or_eq.mp hplace with hlt | rfl
      · have hlast := h bound (Nat.lt_succ_self bound) (by omega)
        rw [ih hlt fun other hother hne => h other (by omega) hne,
          filterMap_none (by simpa using hlast), append_nil]
      · rw [filterMap_none (by
          intro other hother
          have := mem_range.mp hother
          exact h other (by omega) (by omega)), nil_append]
        cases hcontent : content place with
        | none => simp [hcontent]
        | some item => simp [hcontent]

variable {first second : Nat}

theorem filterMap_pair {content : Nat → Option β} (hfirst : first < second)
    (hsecond : second < bound)
    (h : ∀ other < bound, other ≠ first → other ≠ second → content other = none) :
    (List.range bound).filterMap content = (content first).toList ++ (content second).toList := by
  induction bound with
  | zero => contradiction
  | succ bound ih =>
      rw [range_succ, filterMap_append]
      rcases Nat.lt_succ_iff_lt_or_eq.mp hsecond with hlt | rfl
      · have hlast := h bound (Nat.lt_succ_self bound) (by omega) (by omega)
        rw [ih hlt fun other hother hne hne' => h other (by omega) hne hne',
          filterMap_none (by simpa using hlast), append_nil]
      · rw [filterMap_single hfirst fun other hother hne => h other (by omega) hne (by omega)]
        cases hcontent : content second with
        | none => simp [hcontent]
        | some item => simp [hcontent]

theorem insertAt_nil (index : Nat) (item : β) : insertAt index item [] = [item] := by
  cases index with
  | zero => rfl
  | succ index => rfl

theorem Packed.parts_eq {dataMap nodeMap otherData otherNodes : BitVec 32}
    {payloads otherPayloads : List (BitVec 32 × k × v)} {children otherChildren : List (Node k v)}
    (h : Packed slots dataMap nodeMap payloads children)
    (h' : Packed slots otherData otherNodes otherPayloads otherChildren) :
    dataMap = otherData ∧ nodeMap = otherNodes ∧ payloads = otherPayloads ∧
      children = otherChildren := by
  obtain ⟨hdata, hpayloads⟩ := h.data.bitmap_ext h'.data
  obtain ⟨hnodes, hchildren⟩ := h.nodes.bitmap_ext h'.nodes
  exact ⟨hdata, hnodes, hpayloads, hchildren⟩

theorem packed_leaf (hplace : place < 32) (hashValue : BitVec 32) (key : k) (value : v) :
    Packed (update (fun _ => .emptyNode) place (.leaf hashValue key value))
      (1#32 <<< place) 0#32 [(hashValue, key, value)] [] := by
  have h := Packed.empty.exchange hplace (.leaf hashValue key value)
  simpa [exchangedBits, exchangedItems, payload?, child?, insertAt_nil] using h

theorem packed_child (hplace : place < 32) (hchild : IsPart child) :
    Packed (update (fun _ => .emptyNode) place child) 0#32 (1#32 <<< place) [] [child] := by
  have h := Packed.empty.exchange hplace child
  rw [hchild.1, hchild.2] at h
  simpa [exchangedBits, exchangedItems, payload?, child?, insertAt_nil] using h

def markIf {β : Type z} (place : Nat) : Option β → BitVec 32
  | none => 0#32
  | some _ => 1#32 <<< place

theorem sparse_pair {content : Nat → Option β} {first second : Nat}
    (hfirst : first < second) (hsecond : second < 32)
    (h : ∀ other < 32, other ≠ first → other ≠ second → content other = none) :
    Sparse content (markIf first (content first) ||| markIf second (content second))
      ((content first).toList ++ (content second).toList) := by
  refine ⟨?_, (filterMap_pair hfirst hsecond h).symm⟩
  intro place hplace
  have hmark : ∀ other, (markIf other (content other)).getLsbD place =
      (decide (place = other) && (content other).isSome) := by
    intro other
    cases hcontent : content other with
    | none => simp [markIf]
    | some item => simp [markIf, getLsbD_bit hplace]
  rw [BitVec.getLsbD_or, hmark, hmark]
  by_cases heq : place = first
  · have hne : place ≠ second := by omega
    simp [heq, heq ▸ hne]
  · by_cases heq' : place = second
    · simp [heq', heq' ▸ heq]
    · simp [heq, heq', h place hplace heq heq']

/-- A branch of two leaves or buckets in the order of their places. -/
def pairBranch (first : Nat) (left : Node k v) (second : Nat) (right : Node k v) : Node k v :=
  makeBranchNode (markIf first (payload? left) ||| markIf second (payload? right))
    (markIf first (child? left) ||| markIf second (child? right))
    ((payload? left).toList ++ (payload? right).toList)
    ((child? left).toList ++ (child? right).toList)

theorem bit_lt_iff (hfirst : first < 32) (hsecond : second < 32) :
    1#32 <<< first < 1#32 <<< second ↔ first < second := by
  have hpower : ∀ {place : Nat}, place < 32 → (1#32 <<< place).toNat = 2 ^ place := by
    intro place hplace
    have := Nat.pow_lt_pow_right (by decide : 1 < 2) hplace
    rw [BitVec.toNat_shiftLeft, BitVec.toNat_ofNat, Nat.one_mod_eq_one.mpr (by decide),
      Nat.one_shiftLeft, Nat.mod_eq_of_lt this]
  rw [BitVec.lt_def, hpower hfirst, hpower hsecond, Nat.pow_lt_pow_iff_right (by decide)]

theorem makeBranch_eq {left right : Node k v} (hfirst : first < 32) (hsecond : second < 32)
    (hleft : isHashNode left = true) (hright : isHashNode right = true) :
    makeBranch (1#32 <<< first) left (1#32 <<< second) right =
      if first < second then pairBranch first left second right
      else pairBranch second right first left := by
  unfold makeBranch
  simp only [bit_lt_iff hfirst hsecond]
  cases left with
  | emptyNode => cases hleft
  | branch => cases hleft
  | leaf | collision =>
      cases right with
      | emptyNode => cases hright
      | branch => cases hright
      | leaf | collision => split <;> simp [pairBranch, markIf, payload?, child?, isLeaf]

theorem packed_pair (hlt : first < second) (hsecond : second < 32)
    (h : ∀ other < 32, other ≠ first → other ≠ second → slots other = .emptyNode) :
    Packed slots (markIf first (payload? (slots first)) ||| markIf second (payload? (slots second)))
      (markIf first (child? (slots first)) ||| markIf second (child? (slots second)))
      ((payload? (slots first)).toList ++ (payload? (slots second)).toList)
      ((child? (slots first)).toList ++ (child? (slots second)).toList) := by
  refine ⟨?_, ?_⟩
  · apply @sparse_pair _ (fun place => payload? (slots place)) _ _ hlt hsecond
    intro other hother hne hne'
    rw [h other hother hne hne']
    rfl
  · apply @sparse_pair _ (fun place => child? (slots place)) _ _ hlt hsecond
    intro other hother hne hne'
    rw [h other hother hne hne']
    rfl

theorem makeBranch_packed {left right : Node k v} (hfirst : first < 32)
    (hsecond : second < 32) (hne : first ≠ second) (hleft : isHashNode left = true)
    (hright : isHashNode right = true) (hslotFirst : slots first = left)
    (hslotSecond : slots second = right)
    (h : ∀ other < 32, other ≠ first → other ≠ second → slots other = .emptyNode) :
    ∃ dataMap nodeMap payloads children,
      makeBranch (1#32 <<< first) left (1#32 <<< second) right =
        makeBranchNode dataMap nodeMap payloads children ∧
      Packed slots dataMap nodeMap payloads children := by
  rw [makeBranch_eq hfirst hsecond hleft hright]
  subst hslotFirst hslotSecond
  rcases Nat.lt_or_gt_of_ne hne with horder | horder
  · rw [if_pos horder]
    exact ⟨_, _, _, _, rfl, packed_pair horder hsecond h⟩
  · rw [if_neg (Nat.not_lt_of_gt horder)]
    exact ⟨_, _, _, _, rfl, packed_pair horder hfirst fun other hother hne hne' =>
      h other hother hne' hne⟩

/-- The places below a bound are packed, the items in reverse. -/
structure Filled {β : Type z} (content : Nat → Option β) (bound : Nat) (bitmap : BitVec 32)
    (items : List β) : Prop where
  bit_eq : ∀ place < 32, bitmap.getLsbD place = (decide (place < bound) && (content place).isSome)
  items_eq : items.reverse = (List.range bound).filterMap content

theorem Filled.next {content : Nat → Option β} {bitmap : BitVec 32} {items : List β}
    (h : Filled content bound bitmap items) :
    Filled content (bound + 1) (exchangedBits bitmap (1#32 <<< bound) none (content bound))
      ((content bound).toList ++ items) := by
  have hbelow : ∀ {place : Nat}, place ≠ bound →
      decide (place < bound + 1) = decide (place < bound) := by
    intro place hne
    rw [decide_eq_decide]
    omega
  refine ⟨?_, ?_⟩
  · intro place hplace
    cases hcontent : content bound with
    | none =>
        change bitmap.getLsbD place = _
        rw [h.bit_eq place hplace]
        by_cases heq : place = bound
        · simp [heq, hcontent]
        · rw [hbelow heq]
    | some item =>
        change (bitmap ||| 1#32 <<< bound).getLsbD place = _
        rw [BitVec.getLsbD_or, getLsbD_bit hplace, h.bit_eq place hplace]
        by_cases heq : place = bound
        · simp [heq, hcontent]
        · rw [decide_eq_false heq, Bool.or_false, hbelow heq]
  · rw [reverse_append, h.items_eq, range_succ, filterMap_append]
    cases hcontent : content bound with
    | none => simp [hcontent]
    | some item => simp [hcontent]

theorem Filled.sparse {content : Nat → Option β} {bitmap : BitVec 32}
    {items : List β} (h : Filled content 32 bitmap items) :
    Sparse content bitmap items.reverse := by
  refine ⟨?_, h.items_eq⟩
  intro place hplace
  rw [h.bit_eq place hplace]
  simp [hplace]

theorem addSlot_eq (parts : BranchParts k v) (node : Node k v) :
    addSlot parts node =
      ⟨parts.index + 1, exchangedBits parts.dataMap (1#32 <<< parts.index) none (payload? node),
        exchangedBits parts.nodeMap (1#32 <<< parts.index) none (child? node),
        (payload? node).toList ++ parts.payloads, (child? node).toList ++ parts.children⟩ := by
  cases node with
  | emptyNode => rfl
  | leaf hashValue key value => rfl
  | collision count hashValue entries => rfl
  | branch count dataMap nodeMap payloads children => rfl

theorem filled_addSlot (slots : Nat → Node k v) (bound : Nat) :
    let parts := ((List.range bound).map slots).foldl addSlot ⟨0, 0#32, 0#32, [], []⟩
    parts.index = bound ∧
      Filled (fun place => payload? (slots place)) bound parts.dataMap parts.payloads ∧
      Filled (fun place => child? (slots place)) bound parts.nodeMap parts.children := by
  induction bound with
  | zero => exact ⟨rfl, ⟨by simp, rfl⟩, ⟨by simp, rfl⟩⟩
  | succ bound ih =>
      obtain ⟨hindex, hdata, hnodes⟩ := ih
      rw [range_succ, map_append, foldl_append]
      generalize ((List.range bound).map slots).foldl addSlot ⟨0, 0#32, 0#32, [], []⟩ = parts at *
      rw [map_singleton, foldl_cons, foldl_nil, addSlot_eq, hindex]
      exact ⟨rfl, hdata.next, hnodes.next⟩

theorem packed_addSlot (slots : Nat → Node k v) :
    let parts := ((List.range 32).map slots).foldl addSlot ⟨0, 0#32, 0#32, [], []⟩
    Packed slots parts.dataMap parts.nodeMap parts.payloads.reverse parts.children.reverse := by
  obtain ⟨-, hdata, hnodes⟩ := filled_addSlot slots 32
  exact ⟨hdata.sparse, hnodes.sparse⟩

end Durable7.Hamt.HashMap
