import Mathlib.Algebra.BigOperators.Group.List.Basic
import Mathlib.Algebra.Ring.Nat
import Mathlib.Algebra.Ring.Int.Defs

/-!
# Positions in a list made of blocks

A list that is cut into blocks is read, changed and split inside one block.  The
block of a position comes from a division where the blocks have one length, and
from the running totals of the lengths in general.
-/

namespace Durable7.Foundation

open List Nat

variable {α : Type}

section Middle

variable {front block back : List α} {position : Nat}

section

variable (hfront : front.length ≤ position)
include hfront

theorem getElem?_middle (hblock : position < front.length + block.length) :
    (front ++ (block ++ back))[position]? = block[position - front.length]? := by
  rw [List.getElem?_append_right hfront, List.getElem?_append_left (by omega)]

theorem set_middle (hblock : position < front.length + block.length) (value : α) :
    (front ++ (block ++ back)).set position value =
      front ++ (block.set (position - front.length) value ++ back) := by
  rw [set_append_right _ _ hfront, set_append_left _ _ (by omega)]

theorem take_middle (hblock : position ≤ front.length + block.length) :
    (front ++ (block ++ back)).take position = front ++ block.take (position - front.length) := by
  rw [take_append, take_of_length_le hfront, take_append_of_le_length (by omega)]

theorem drop_middle (hblock : position ≤ front.length + block.length) :
    (front ++ (block ++ back)).drop position = block.drop (position - front.length) ++ back := by
  rw [drop_append, drop_of_length_le hfront, nil_append, drop_append_of_le_length (by omega)]

end

end Middle

/-- The position falls into the block at `index`, and `before` positions come before it. -/
def Locates (lengths : List Nat) (position index before : Nat) : Prop :=
  ∃ front length back, lengths = front ++ length :: back ∧ index = front.length ∧
    before = front.sum ∧ before ≤ position ∧ position < before + length

namespace Locates

theorem here {length position : Nat} (back : List Nat) (h : position < length) :
    Locates (length :: back) position 0 0 :=
  ⟨[], length, back, rfl, rfl, rfl, zero_le _, by omega⟩

section

variable {lengths : List Nat} {position index before : Nat}
  (h : Locates lengths position index before)
include h

/-- One more block in front shifts the position by its length. -/
theorem there (first : Nat) :
    Locates (first :: lengths) (first + position) (index + 1) (first + before) := by
  obtain ⟨front, length, back, rfl, rfl, rfl, hle, hlt⟩ := h
  exact ⟨first :: front, length, back, rfl, rfl, rfl, by omega, by omega⟩

theorem index_lt : index < lengths.length := by
  obtain ⟨front, length, back, rfl, rfl, -⟩ := h
  simp

end

end Locates

/-- Blocks of one length, except that the last may be shorter. -/
theorem locates_uniform {capacity last : Nat} {front : List Nat} {position : Nat}
    (hfront : ∀ length ∈ front, length = capacity) (hlast : last ≤ capacity)
    (hposition : position < front.sum + last) :
    Locates (front ++ [last]) position (position / capacity) (position / capacity * capacity) := by
  induction front generalizing position with
  | nil =>
      have hlt : position < last := by simpa using hposition
      rw [div_eq_of_lt (by omega), zero_mul]
      exact Locates.here [] hlt
  | cons length front ih =>
      have hlength : length = capacity := hfront length (by simp)
      subst hlength
      rw [sum_cons] at hposition
      rw [cons_append]
      rcases lt_or_ge position length with hlt | hge
      · rw [div_eq_of_lt hlt, zero_mul]
        exact Locates.here _ hlt
      · have hpositive : 0 < length := by
          rcases Nat.eq_zero_or_pos length with hzero | hpos
          · have hsum : front.sum = 0 := by
              apply sum_eq_zero
              intro other hother
              rw [hfront other (by simp [hother]), hzero]
            omega
          · exact hpos
        have hrest := ih (fun other hother => hfront other (by simp [hother]))
          (show position - length < front.sum + last by omega)
        have hstep := hrest.there length
        rw [Nat.add_sub_cancel' hge] at hstep
        have hdiv : position / length = (position - length) / length + 1 :=
          div_eq_sub_div hpositive hge
        rw [hdiv, add_mul, one_mul, add_comm _ length]
        exact hstep

end Durable7.Foundation
