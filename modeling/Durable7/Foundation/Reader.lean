import Mathlib.Data.List.Basic
import Mathlib.Algebra.Ring.Nat
import Mathlib.Algebra.Ring.Int.Defs

/-!
# Reading consecutive pieces of a list

A reader that walks a list by offsets consumes, step by step, consecutive
pieces of it.  `ReadsAt` records one consumed piece; pieces compose, and a piece
read from the start to the end is the whole list.
-/

namespace Durable7.Foundation

section

open List

universe u

variable {α : Type u}

structure ReadsAt (source : List α) (offset : Nat) (piece : List α) (next : Nat) : Prop where
  drop_eq : source.drop offset = piece ++ source.drop next
  next_eq : next = offset + piece.length
  next_le : next ≤ source.length

namespace ReadsAt

variable {source piece piece' : List α} {offset next last : Nat}

theorem nil (h : offset ≤ source.length) : ReadsAt source offset [] offset := ⟨rfl, rfl, h⟩

theorem append (h : ReadsAt source offset piece next) (h' : ReadsAt source next piece' last) :
    ReadsAt source offset (piece ++ piece') last where
  drop_eq := by rw [h.drop_eq, h'.drop_eq, append_assoc]
  next_eq := by
    have h₁ := h.next_eq
    have h₂ := h'.next_eq
    rw [length_append]
    omega
  next_le := h'.next_le

theorem offset_le (h : ReadsAt source offset piece next) : offset ≤ source.length := by
  have h₁ := h.next_eq
  have h₂ := h.next_le
  omega

theorem take_drop {count : Nat} (h : offset + count ≤ source.length) :
    ReadsAt source offset ((source.drop offset).take count) (offset + count) where
  drop_eq := by rw [← drop_drop, take_append_drop]
  next_eq := by
    rw [length_take, length_drop]
    omega
  next_le := h

/-- A piece is what `take` and `drop` cut out. -/
theorem eq_take_drop (h : ReadsAt source offset piece next) :
    piece = (source.drop offset).take piece.length := by
  rw [h.drop_eq, take_left]

theorem unique (h : ReadsAt source offset piece next) (h' : ReadsAt source offset piece' last)
    (hlength : piece.length = piece'.length) : piece = piece' ∧ next = last := by
  refine ⟨?_, ?_⟩
  · rw [h.eq_take_drop, h'.eq_take_drop, hlength]
  · rw [h.next_eq, h'.next_eq, hlength]

/-- Splits a piece in two. -/
theorem split (h : ReadsAt source offset (piece ++ piece') last) :
    ReadsAt source offset piece (offset + piece.length) ∧
      ReadsAt source (offset + piece.length) piece' last := by
  have hnext := h.next_eq
  have hle := h.next_le
  rw [length_append] at hnext
  have hdrop : source.drop (offset + piece.length) = piece' ++ source.drop last := by
    rw [← drop_drop, h.drop_eq, append_assoc, drop_left]
  refine ⟨⟨?_, rfl, by omega⟩, ⟨hdrop, by omega, hle⟩⟩
  rw [hdrop, h.drop_eq, append_assoc]

theorem whole (h : source = piece) : ReadsAt source 0 piece source.length :=
  ⟨by simp [h], by simp [h], Nat.le_refl _⟩

theorem eq_of_whole (h : ReadsAt source 0 piece source.length) : source = piece := by
  have hdrop := h.drop_eq
  rw [drop_length, append_nil, drop_zero] at hdrop
  exact hdrop

end ReadsAt

end

/-!
## Haskell's `show` for strings

Diagnostics quote nested messages as Haskell string literals: printable ASCII as
itself, everything else escaped, with `\&` where an escape would swallow the
character behind it.
-/

/-- Names of the control characters below the space. -/
def controlNames : List String :=
  ["NUL", "SOH", "STX", "ETX", "EOT", "ENQ", "ACK", "a", "b", "t", "n", "v",
    "f", "r", "SO", "SI", "DLE", "DC1", "DC2", "DC3", "DC4", "NAK", "SYN",
    "ETB", "CAN", "EM", "SUB", "ESC", "FS", "GS", "RS", "US"]

def protectIf (condition : Bool) : String := if condition then "\\&" else ""

def showCharacters : List Char → String
  | [] => ""
  | character :: rest =>
      let code := character.toNat
      let escape :=
        if character = '"' then "\\\""
        else if character = '\\' then "\\\\"
        else if 127 < code then
          "\\" ++ toString code ++ protectIf ((rest.head?.map Char.isDigit).getD false)
        else if code = 127 then "\\DEL"
        else if 32 ≤ code then character.toString
        else
          "\\" ++ (controlNames[code]?).getD "" ++
            protectIf (code = 14 && rest.head? == some 'H')
      escape ++ showCharacters rest

def showString (text : String) : String := "\"" ++ showCharacters text.toList ++ "\""

end Durable7.Foundation
