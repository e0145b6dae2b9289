import Mathlib.Data.Int.Notation
import Mathlib.Data.List.Basic

/-!
# Lists at integer positions

The list model of a sequence.  An operation outside its range makes no list.
-/

namespace Durable7.Foundation

universe u v

variable {α : Type u}

/-- The list element at a position of the source. -/
def elementAt (position : Int) (values : List α) : Option α :=
  if position < 0 then none else values[position.toNat]?

theorem elementAt_map {β : Type v} (f : α → β) (position : Int) (values : List α) :
    elementAt position (values.map f) = (elementAt position values).map f := by
  rw [elementAt, elementAt]
  split
  · rfl
  · rw [List.getElem?_map]

namespace ListModel

def setAt (position : Int) (value : α) (values : List α) : Option (List α) :=
  if position < 0 ∨ position ≥ values.length then none else some (values.set position.toNat value)

def deleteAt (position : Int) (values : List α) : Option (List α) :=
  if position < 0 ∨ position ≥ values.length then none else some (values.eraseIdx position.toNat)

def removeFirst (values : List α) : Option (List α) :=
  if values.isEmpty then none else some values.tail

def removeLast (values : List α) : Option (List α) :=
  if values.isEmpty then none else some values.dropLast

def take (amount : Int) (values : List α) : Option (List α) :=
  if amount < 0 ∨ amount > values.length then none else some (values.take amount.toNat)

def drop (amount : Int) (values : List α) : Option (List α) :=
  if amount < 0 ∨ amount > values.length then none else some (values.drop amount.toNat)

def slice (position amount : Int) (values : List α) : Option (List α) :=
  if position < 0 ∨ amount < 0 ∨ position + amount > values.length then none
  else some ((values.drop position.toNat).take amount.toNat)

def splitAt (position : Int) (values : List α) : Option (List α × List α) :=
  if position < 0 ∨ position > values.length then none
  else some (values.take position.toNat, values.drop position.toNat)

theorem slice_sublist {position amount : Int} {values part : List α}
    (h : slice position amount values = some part) : part.Sublist values := by
  rw [slice] at h
  split at h
  · cases h
  · cases h
    exact (List.take_sublist _ _).trans (List.drop_sublist _ _)

theorem slice_rel {σ : Type v} {shown : σ → List α} {refines : σ → List α → Prop}
    {result : Option σ} {position amount : Int} {values : List α}
    (hshown : result.map shown = slice position amount values)
    (hrefines : ∀ made, (shown made).Sublist values → refines made (shown made)) :
    Option.Rel refines result (slice position amount values) := by
  cases result with
  | none =>
      rw [← hshown]
      exact .none
  | some made =>
      have hmade := hrefines made (slice_sublist hshown.symm)
      rw [← hshown]
      exact .some hmade

end ListModel

/-- Both parts of a split, as two versions. -/
def partsList (parts : Option (α × α)) : List α :=
  parts.elim [] fun parts => [parts.1, parts.2]

end Durable7.Foundation
