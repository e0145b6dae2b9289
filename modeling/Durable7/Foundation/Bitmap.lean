import Mathlib.Data.List.Basic
import Mathlib.Algebra.Ring.Nat
import Mathlib.Algebra.Ring.Int.Defs

/-!
# Sparse arrays of 32 places

A sparse array keeps the items of its occupied places in one list, in the order of
the places, and a bitmap that marks them.  The item of a place stands behind as many
others as there are marks below it.
-/

namespace Durable7.Foundation

open List Function Nat
open BitVec hiding append_assoc cast

universe u

/-- The number of marks of a bitmap. -/
def popCount (bitmap : BitVec 32) : Nat :=
  ((List.range 32).filter fun place => bitmap.getLsbD place).length

section Bits

variable {place other : Nat}

theorem getLsbD_bit (hother : other < 32) :
    ((1#32) <<< place).getLsbD other = decide (other = place) := by
  rw [getLsbD_shiftLeft, getLsbD_one]
  by_cases heq : other = place
  · simp [heq, heq ▸ hother]
  · have hne : ¬ (other - place = 0 ∧ place ≤ other) := by omega
    simp only [heq, decide_false]
    rcases lt_or_ge other place with hlt | hge
    · simp [hlt]
    · have : other - place ≠ 0 := by omega
      simp [this]

theorem and_bit_eq_zero (bitmap : BitVec 32) (hplace : place < 32) :
    bitmap &&& (1#32) <<< place = 0#32 ↔ bitmap.getLsbD place = false := by
  constructor
  · intro hzero
    have hbit := congrArg (fun word => getLsbD word place) hzero
    simpa [getLsbD_and, getLsbD_bit hplace] using hbit
  · intro hclear
    apply eq_of_getLsbD_eq
    intro other hother
    rw [getLsbD_and, getLsbD_bit hother, getLsbD_zero]
    by_cases heq : other = place
    · rw [heq, hclear, Bool.false_and]
    · simp [heq]

theorem bit_ne_zero (hplace : place < 32) : (1#32) <<< place ≠ 0#32 := by
  intro hzero
  have hbit := @getLsbD_bit place place hplace
  rw [hzero, getLsbD_zero] at hbit
  simp at hbit

theorem getLsbD_below (hplace : place < 32) (hother : other < 32) :
    ((1#32) <<< place - 1#32).getLsbD other = decide (other < place) := by
  have hpower : 2 ^ place < 2 ^ 32 := Nat.pow_lt_pow_right (by omega) hplace
  have hpos : 0 < 2 ^ place := Nat.two_pow_pos place
  have hbit : ((1#32) <<< place).toNat = 2 ^ place := by
    rw [toNat_shiftLeft, toNat_ofNat, one_mod_eq_one.mpr (by decide),
      one_shiftLeft, mod_eq_of_lt hpower]
  have hword : ((1#32) <<< place - 1#32).toNat = 2 ^ place - 1 := by
    rw [toNat_sub, hbit]
    simp only [toNat_ofNat]
    omega
  rw [getLsbD, hword, testBit_two_pow_sub_one]

end Bits

/-- The items of the occupied places, and the bitmap that marks these places. -/
structure Sparse {β : Type u} (content : Nat → Option β) (bitmap : BitVec 32) (items : List β) :
    Prop where
  bit_eq : ∀ place < 32, bitmap.getLsbD place = (content place).isSome
  items_eq : items = (List.range 32).filterMap content

namespace Sparse

variable {β : Type u} {content : Nat → Option β} {bitmap : BitVec 32} {items : List β}

theorem filterMap_length (places : List Nat) (content : Nat → Option β) :
    (places.filterMap content).length =
      (places.filter fun place => (content place).isSome).length := by
  induction places with
  | nil => rfl
  | cons place places ih =>
      cases hcontent : content place with
      | none => rw [filterMap_cons_none hcontent, filter_cons_of_neg (by simp [hcontent]), ih]
      | some item =>
          rw [filterMap_cons_some hcontent, filter_cons_of_pos (by simp [hcontent]),
            length_cons, length_cons, ih]

theorem length_eq (h : Sparse content bitmap items) : items.length = popCount bitmap := by
  rw [h.items_eq, filterMap_length, popCount]
  congr 1
  apply filter_congr
  intro place hplace
  rw [h.bit_eq place (mem_range.mp hplace)]

theorem bitmap_ext {other : BitVec 32} {others : List β} (h : Sparse content bitmap items)
    (h' : Sparse content other others) : bitmap = other ∧ items = others := by
  constructor
  · apply eq_of_getLsbD_eq
    intro place hplace
    rw [h.bit_eq place hplace, h'.bit_eq place hplace]
  · rw [h.items_eq, h'.items_eq]

theorem range_split {place : Nat} (hplace : place < 32) :
    List.range 32 = List.range place ++ place :: List.range' (place + 1) (31 - place) := by
  have hsplit : List.range 32 = List.range place ++ List.range' place (32 - place) := by
    have happend := @range'_append_1 0 place (32 - place)
    rw [Nat.zero_add, Nat.add_sub_cancel' (Nat.le_of_lt hplace)] at happend
    rw [range_eq_range', range_eq_range', happend]
  rw [hsplit, show 32 - place = 31 - place + 1 by omega, range'_succ]

section

variable (h : Sparse content bitmap items)
include h

/-- A change at one place leaves the items before and behind it alone. -/
theorem split {place : Nat} (hplace : place < 32) :
    ∃ front back, front.length = popCount (bitmap &&& ((1#32) <<< place - 1#32)) ∧
      items = front ++ (content place).toList ++ back ∧
      ∀ item, (List.range 32).filterMap (update content place item) =
        front ++ item.toList ++ back := by
  have hfilter : ∀ (changed : Nat → Option β), (∀ other ≠ place, changed other = content other) →
      (List.range 32).filterMap changed = (List.range place).filterMap content ++
        (changed place).toList ++ (List.range' (place + 1) (31 - place)).filterMap content := by
    intro changed hchanged
    rw [range_split hplace, filterMap_append, filterMap_cons]
    have hfront : (List.range place).filterMap changed = (List.range place).filterMap content := by
      apply filterMap_congr
      intro other hother
      exact hchanged other (Nat.ne_of_lt (mem_range.mp hother))
    have hback : (List.range' (place + 1) (31 - place)).filterMap changed =
        (List.range' (place + 1) (31 - place)).filterMap content := by
      apply filterMap_congr
      intro other hother
      apply hchanged other
      have := (mem_range'_1.mp hother).1
      omega
    rw [hfront, hback, append_assoc]
    congr 1
    cases changed place <;> rfl
  refine ⟨(List.range place).filterMap content,
    (List.range' (place + 1) (31 - place)).filterMap content, ?_, ?_, ?_⟩
  · rw [filterMap_length, popCount, range_split hplace, filter_append, length_append]
    have hnone : (place :: List.range' (place + 1) (31 - place)).filter
        (fun other => (bitmap &&& ((1#32) <<< place - 1#32)).getLsbD other) = [] := by
      rw [filter_eq_nil_iff]
      intro other hother
      have hge : place ≤ other ∧ other < 32 := by
        rcases mem_cons.mp hother with rfl | hother
        · exact ⟨le_refl _, hplace⟩
        · have := mem_range'_1.mp hother
          omega
      rw [BitVec.getLsbD_and, getLsbD_below hplace hge.2]
      simp [not_lt.mpr hge.1]
    rw [hnone, length_nil, add_zero]
    congr 1
    apply filter_congr
    intro other hother
    have hlt := mem_range.mp hother
    rw [BitVec.getLsbD_and, getLsbD_below hplace (by omega), h.bit_eq other (by omega)]
    simp [hlt]
  · rw [h.items_eq]
    exact hfilter content fun _ _ => rfl
  · intro item
    rw [hfilter _ fun other hne => update_of_ne hne _ _, update_self]

theorem mem_iff {item : β} : item ∈ items ↔ ∃ place < 32, content place = some item := by
  rw [h.items_eq, mem_filterMap]
  simp only [mem_range]

theorem congr {other : Nat → Option β}
    (heq : ∀ place < 32, other place = content place) : Sparse other bitmap items where
  bit_eq := fun place hplace => by rw [heq place hplace, h.bit_eq place hplace]
  items_eq := by
    rw [h.items_eq]
    apply filterMap_congr
    intro place hplace
    exact (heq place (mem_range.mp hplace)).symm

/-- The marks after a place is filled. -/
theorem set_bit {place : Nat} (item : β) :
    ∀ other < 32, (bitmap ||| (1#32) <<< place).getLsbD other =
      (update content place (some item) other).isSome := by
  intro other hother
  rw [getLsbD_or, getLsbD_bit hother, h.bit_eq other hother]
  by_cases heq : other = place
  · subst heq
    simp
  · rw [update_of_ne heq]
    simp [heq]

/-- The marks after a place is cleared. -/
theorem clear_bit {place : Nat} :
    ∀ other < 32, (bitmap &&& ~~~((1#32) <<< place)).getLsbD other =
      (update content place none other).isSome := by
  intro other hother
  rw [getLsbD_and, getLsbD_not, getLsbD_bit hother, h.bit_eq other hother]
  by_cases heq : other = place
  · subst heq
    simp
  · rw [update_of_ne heq]
    simp [heq, hother]

end

end Sparse

end Durable7.Foundation
