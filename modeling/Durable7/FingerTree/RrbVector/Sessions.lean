import Durable7.FingerTree.RrbVector.Editing

/-!
# Cursors over a vector

A cursor shows a list with a gap.  An edit at the cursor edits the list there.
-/

namespace Durable7.FingerTree.RrbVector

open Foundation

variable {α : Type}

section

open List Int

/-- A list with a gap before one of its elements or after the last. -/
structure ListGap (α : Type) where
  values : List α
  position : Nat

namespace ListGap

def at? (position : Int) (values : List α) : Option (ListGap α) :=
  if position < 0 ∨ position > values.length then none else some ⟨values, position.toNat⟩

def insert (inserted : List α) (gap : ListGap α) : ListGap α :=
  ⟨gap.values.take gap.position ++ inserted ++ gap.values.drop gap.position,
    gap.position + inserted.length⟩

def deletePrevious (gap : ListGap α) : Option (ListGap α) :=
  if gap.position = 0 then none
  else some ⟨gap.values.eraseIdx (gap.position - 1), gap.position - 1⟩

def deleteNext (gap : ListGap α) : Option (ListGap α) :=
  if gap.position = gap.values.length then none
  else some ⟨gap.values.eraseIdx gap.position, gap.position⟩

def replaceNext (same : α → α → Bool) (value : α) (gap : ListGap α) : Option (ListGap α) :=
  if gap.position = gap.values.length then none
  else
    some ⟨gap.values.modify gap.position fun old => if same old value then old else value,
      gap.position⟩

end ListGap

/-- The cursor shows the list at its gap. -/
structure AtGap (fits : Prop) (current : Cursor α) (gap : ListGap α) : Prop where
  kept : Kept fits current.cursorSnapshot gap.values
  position_eq : current.cursorPosition = gap.position
  position_le : gap.position ≤ gap.values.length

section Gaps

variable {fits : Prop} {vector : RrbVector α} {values : List α} {current : Cursor α}
  {gap : ListGap α}

theorem AtGap.mono {more : Prop} (h : AtGap fits current gap) (himp : more → fits) :
    AtGap more current gap :=
  ⟨h.kept.mono himp, h.position_eq, h.position_le⟩

theorem cursor_atGap (h : Kept fits vector values) : AtGap fits (cursor vector) ⟨values, 0⟩ :=
  ⟨h, rfl, Nat.zero_le _⟩

theorem cursorAt_atGap (h : Kept fits vector values) (position : Int) :
    Option.Rel (AtGap fits) (cursorAt position vector) (ListGap.at? position values) := by
  rw [cursorAt, ListGap.at?, h.represents.count_eq]
  split
  · exact .none
  · exact .some ⟨h, rfl, by simp only; omega⟩

section

variable (h : AtGap fits current gap)
include h

theorem cursorMovePrevious_atGap :
    Option.Rel (AtGap fits) (cursorMovePrevious current)
      (ListGap.at? (gap.position - 1) gap.values) := by
  rw [cursorMovePrevious, h.position_eq]
  exact cursorAt_atGap h.kept _

theorem cursorMoveNext_atGap :
    Option.Rel (AtGap fits) (cursorMoveNext current)
      (ListGap.at? (gap.position + 1) gap.values) := by
  have hle := h.position_le
  rw [cursorMoveNext, h.position_eq, h.kept.represents.count_eq]
  split
  · rw [ListGap.at?, if_pos (by omega)]
    exact .none
  · exact cursorAt_atGap h.kept _

theorem cursorSeek_atGap (position : Int) :
    Option.Rel (AtGap fits) (cursorSeek position current) (ListGap.at? position gap.values) :=
  cursorAt_atGap h.kept position

theorem cursorPeekPrevious_spec :
    cursorPeekPrevious current = .ok (elementAt (gap.position - 1) gap.values) := by
  rw [cursorPeekPrevious, h.position_eq, index_spec h.kept.represents]

theorem cursorPeekNext_spec : cursorPeekNext current = .ok gap.values[gap.position]? := by
  rw [cursorPeekNext, h.position_eq, index_spec h.kept.represents, elementAt,
    if_neg (by omega), toNat_natCast]

end

/-! ## Edits at the gap -/

def cursorInsertFits (inserted : List α) (current : Cursor α) : Bool :=
  insertFits current.cursorPosition inserted current.cursorSnapshot

theorem cursorInsertList_atGap (h : AtGap fits current gap) (inserted : List α)
    (hvalues : gap.values.length + inserted.length ≤ maxBound)
    (hheight : heightRoom current.cursorSnapshot) :
    ∃ edited, cursorInsertList inserted current = .ok edited ∧
      AtGap (fits ∧ cursorInsertFits inserted current = true) edited (gap.insert inserted) := by
  have hle := h.position_le
  rw [cursorInsertList]
  by_cases hempty : inserted.isEmpty = true
  · rw [if_pos hempty]
    obtain rfl := isEmpty_iff.mp hempty
    refine ⟨current, rfl, ?_⟩
    rw [ListGap.insert, append_nil, take_append_drop]
    exact h.mono And.left
  · rw [if_neg hempty, cursorInsertFits]
    obtain ⟨result, hinsert, hrelated⟩ := insertListAt_kept h.kept inserted hvalues hheight
      current.cursorPosition
    rw [insertList, splitList, if_neg (by rw [h.position_eq]; omega), h.position_eq,
      toNat_natCast] at hrelated
    cases hrelated with
    | @some edited _ hkept =>
        rw [hinsert, h.position_eq]
        simp only [except_ok_bind, expectCursorEdit,
          checkedAdd_eq (show gap.position + inserted.length ≤ maxBound by omega)]
        refine ⟨_, rfl, by simpa [ListGap.insert] using hkept, rfl, ?_⟩
        simp only [ListGap.insert, length_append, length_take]
        omega

def cursorInsertVectorFits (inserted : RrbVector α) (current : Cursor α) : Bool :=
  inserted.null ||
    match splitAt current.cursorPosition current.cursorSnapshot with
    | .ok (some (left, right)) => spliceFits left inserted right
    | _ => true

theorem cursorInsertVector_atGap (h : AtGap fits current gap) {inserted : RrbVector α}
    (hinserted : Kept fits inserted values) (hvalues : gap.values.length + values.length ≤ maxBound)
    (hheight : heightRoom current.cursorSnapshot) (hheight' : heightRoom inserted) :
    ∃ edited, cursorInsertVector inserted current = .ok edited ∧
      AtGap (fits ∧ cursorInsertVectorFits inserted current = true) edited (gap.insert values) := by
  have hle := h.position_le
  have hroom : current.cursorSnapshot.height + 2 ≤ maxBound := hheight
  rw [cursorInsertVector, cursorInsertVectorFits]
  by_cases hnull : inserted.null = true
  · rw [if_pos hnull]
    rw [hinserted.represents.null_eq] at hnull
    obtain rfl := isEmpty_iff.mp hnull
    refine ⟨current, rfl, ?_⟩
    rw [ListGap.insert, append_nil, take_append_drop]
    exact h.mono And.left
  · obtain ⟨left, right, hsplit, hleft, hright, hleftLe, hrightLe⟩ :=
      splitAt_inside h.kept (by omega) (by omega) (show (0 : Int) ≤ current.cursorPosition by omega)
        (by rw [h.position_eq]; omega)
    rw [h.position_eq, toNat_natCast] at hleft hright
    simp only at hleft hright hleftLe hrightLe
    have hleftRoom : heightRoom left := by
      rw [heightRoom]
      omega
    have hrightRoom : heightRoom right := by
      rw [heightRoom]
      omega
    obtain ⟨front, joined, hfront, hjoined, hkept⟩ := splice_kept hleft hinserted hright
      (by rw [length_take, length_drop]; omega) hleftRoom hheight' hrightRoom
    rw [if_neg hnull, hsplit]
    simp only [except_ok_bind, hfront, hjoined, hinserted.represents.count_eq, h.position_eq,
      checkedAdd_eq (show gap.position + values.length ≤ maxBound by omega)]
    refine ⟨_, rfl, ?_, rfl, ?_⟩
    · simpa [hnull, ListGap.insert] using hkept
    · simp only [ListGap.insert, length_append, length_take]
      omega

theorem removeOne_kept (h : Kept fits vector values) (hvalues : values.length ≤ maxBound)
    (hheight : heightRoom vector) {position : Nat} (hposition : position < values.length) :
    ∃ edited, removeRange position 1 vector = .ok (some edited) ∧
      Kept (fits ∧ removeFits position 1 vector = true) edited (values.eraseIdx position) := by
  obtain ⟨result, hremove, hrelated⟩ := removeRange_kept h hvalues hheight position 1
  have hinside :
      ¬ ((position : Int) < 0 ∨ (1 : Int) < 0 ∨ (1 : Int) > values.length - position) := by
    omega
  rw [removeList, if_neg hinside, toNat_natCast, toNat_one,
    ← eraseIdx_eq_take_drop_succ] at hrelated
  cases hrelated with
  | @some edited _ hkept => exact ⟨edited, hremove, hkept⟩

def cursorDeletePreviousFits (current : Cursor α) : Bool :=
  current.cursorPosition == 0 || removeFits (current.cursorPosition - 1) 1 current.cursorSnapshot

theorem cursorDeletePrevious_atGap (h : AtGap fits current gap)
    (hvalues : gap.values.length ≤ maxBound) (hheight : heightRoom current.cursorSnapshot) :
    ∃ result, cursorDeletePrevious current = .ok result ∧
      Option.Rel (AtGap (fits ∧ cursorDeletePreviousFits current = true)) result
        gap.deletePrevious := by
  have hle := h.position_le
  rw [cursorDeletePrevious, ListGap.deletePrevious, cursorDeletePreviousFits, h.position_eq]
  by_cases hzero : gap.position = 0
  · rw [if_pos hzero, if_pos hzero]
    exact ⟨none, rfl, .none⟩
  · have hcast : (gap.position : Int) - 1 = ((gap.position - 1 : Nat) : Int) := by omega
    obtain ⟨edited, hremove, hkept⟩ := removeOne_kept h.kept hvalues hheight
      (show gap.position - 1 < gap.values.length by omega)
    rw [if_neg hzero, if_neg hzero, hcast, hremove]
    refine ⟨_, rfl, .some ⟨?_, rfl, ?_⟩⟩
    · simpa [hzero] using hkept
    · rw [length_eraseIdx_of_lt (by omega)]
      simp only
      omega

def cursorDeleteNextFits (current : Cursor α) : Bool :=
  removeFits current.cursorPosition 1 current.cursorSnapshot

theorem cursorDeleteNext_atGap (h : AtGap fits current gap)
    (hvalues : gap.values.length ≤ maxBound) (hheight : heightRoom current.cursorSnapshot) :
    ∃ result, cursorDeleteNext current = .ok result ∧
      Option.Rel (AtGap (fits ∧ cursorDeleteNextFits current = true)) result
        gap.deleteNext := by
  have hle := h.position_le
  rw [cursorDeleteNext, ListGap.deleteNext, cursorDeleteNextFits, h.position_eq,
    h.kept.represents.count_eq]
  by_cases hend : gap.position = gap.values.length
  · rw [if_pos hend, if_pos hend]
    exact ⟨none, rfl, .none⟩
  · obtain ⟨edited, hremove, hkept⟩ := removeOne_kept h.kept hvalues hheight
      (show gap.position < gap.values.length by omega)
    rw [if_neg hend, if_neg hend, hremove]
    refine ⟨_, rfl, .some ⟨hkept, rfl, ?_⟩⟩
    rw [length_eraseIdx_of_lt (by omega)]
    simp only
    omega

theorem setAt_kept [BEq α] (h : Kept fits vector values) (hvalues : values.length ≤ maxBound)
    (hheight : vector.height ≤ maxBound) (identical : α → α → Bool) (position : Int) (value : α) :
    ∃ result, setAt identical position value vector = .ok result ∧
      Option.Rel (Kept fits) result (replaceAt (sameValue identical) position value values) := by
  obtain ⟨result, hset, hrelated⟩ :=
    setAt_spec h.represents hvalues hheight identical position value
  refine ⟨result, hset, ?_⟩
  cases hexpected : replaceAt (sameValue identical) position value values with
  | none =>
      rw [hexpected] at hrelated
      cases hrelated
      exact .none
  | some list =>
      rw [hexpected] at hrelated
      cases hrelated with
      | some hboth =>
          exact .some ⟨hboth.1, fun hfits => by
            rw [hboth.2]
            exact h.height_le hfits⟩

theorem cursorReplaceNext_atGap [BEq α] (h : AtGap fits current gap)
    (hvalues : gap.values.length ≤ maxBound) (hheight : heightRoom current.cursorSnapshot)
    (identical : α → α → Bool) (value : α) :
    ∃ result, cursorReplaceNext identical value current = .ok result ∧
      Option.Rel (AtGap fits) result (gap.replaceNext (sameValue identical) value) := by
  have hle := h.position_le
  rw [heightRoom] at hheight
  rw [cursorReplaceNext, ListGap.replaceNext, h.position_eq, h.kept.represents.count_eq]
  by_cases hend : gap.position = gap.values.length
  · rw [if_pos hend, if_pos hend]
    exact ⟨none, rfl, .none⟩
  · obtain ⟨result, hset, hrelated⟩ :=
      setAt_kept h.kept hvalues (by omega) identical gap.position value
    rw [replaceAt, if_neg (by omega), toNat_natCast] at hrelated
    cases hrelated with
    | @some edited _ hkept =>
        rw [if_neg hend, if_neg hend, hset]
        refine ⟨_, rfl, .some ⟨hkept, rfl, ?_⟩⟩
        rw [length_modify]
        exact hle

end Gaps

end

/-!
## Sessions

A session runs public operations on a growing pool of vectors and cursors, newest
first.  Every version stays in the pool, so any of them can be read or edited again.
The same session on lists gives the same answers.
-/

structure Pool (V C : Type) where
  vectors : List V
  cursors : List C

inductive Answer (α : Type) where
  | done
  | missing
  | element (found : Option α)
  | elements (values : List α)
  | number (value : Nat)
  | flag (value : Bool)
  deriving DecidableEq

/-- What one operation adds to the pool, and what it tells the caller. -/
structure Effect (V C α : Type) where
  vectors : List V
  cursors : List C
  answer : Answer α

section Pools

variable {V C β : Type}

namespace Effect

def missing : Effect V C α := ⟨[], [], .missing⟩

def reply (answer : Answer α) : Effect V C α := ⟨[], [], answer⟩

def vector (made : V) : Effect V C α := ⟨[made], [], .done⟩

def cursor (made : C) : Effect V C α := ⟨[], [made], .done⟩

def vector? (made : Option V) : Effect V C α := made.elim missing vector

def cursor? (made : Option C) : Effect V C α := made.elim missing cursor

def halves? (made : Option (V × V)) : Effect V C α :=
  made.elim missing fun halves => ⟨[halves.1, halves.2], [], .done⟩

def unsnoc? (made : Option (V × α)) : Effect V C α :=
  made.elim missing fun found => ⟨[found.1], [], .element (some found.2)⟩

end Effect

namespace Pool

def start : Pool V C := ⟨[], []⟩

def withVector (pool : Pool V C) (target : Nat) (missing : β) (use : V → β) : β :=
  pool.vectors[target]?.elim missing use

def withCursor (pool : Pool V C) (place : Nat) (missing : β) (use : C → β) : β :=
  pool.cursors[place]?.elim missing use

def after (pool : Pool V C) (effect : Effect V C α) : Pool V C :=
  ⟨effect.vectors ++ pool.vectors, effect.cursors ++ pool.cursors⟩

end Pool

end Pools

/-- The public operations, on the pool's vectors and cursors by their places. -/
inductive Operation (α : Type) where
  | empty
  | singleton (value : α)
  | fromList (values : List α)
  | toList (target : Nat)
  | count (target : Nat)
  | null (target : Nat)
  | index (position : Int) (target : Nat)
  | setAt (position : Int) (value : α) (target : Nat)
  | cons (value : α) (target : Nat)
  | snoc (target : Nat) (value : α)
  | append (left right : Nat)
  | splitAt (position : Int) (target : Nat)
  | insertListAt (position : Int) (values : List α) (target : Nat)
  | removeRange (position amount : Int) (target : Nat)
  | unsnoc (target : Nat)
  | cursor (target : Nat)
  | cursorAt (position : Int) (target : Nat)
  | cursorSnapshot (place : Nat)
  | cursorPosition (place : Nat)
  | cursorCount (place : Nat)
  | cursorIsAtStart (place : Nat)
  | cursorIsAtEnd (place : Nat)
  | cursorPeekPrevious (place : Nat)
  | cursorPeekNext (place : Nat)
  | cursorMovePrevious (place : Nat)
  | cursorMoveNext (place : Nat)
  | cursorSeek (position : Int) (place : Nat)
  | cursorInsert (value : α) (place : Nat)
  | cursorInsertList (values : List α) (place : Nat)
  | cursorInsertVector (target place : Nat)
  | cursorDeletePrevious (place : Nat)
  | cursorDeleteNext (place : Nat)
  | cursorReplaceNext (value : α) (place : Nat)

abbrev VectorPool (α : Type) := Pool (RrbVector α) (Cursor α)

abbrev ListPool (α : Type) := Pool (List α) (ListGap α)

namespace Operation

def perform [BEq α] (identical : α → α → Bool) (pool : VectorPool α) :
    Operation α → Except RrbError (Effect (RrbVector α) (Cursor α) α)
  | .empty => .ok (.vector RrbVector.empty)
  | .singleton value => .vector <$> RrbVector.singleton value
  | .fromList values => .vector <$> RrbVector.fromList values
  | .toList target =>
      pool.withVector target (.ok .missing) fun vector => .ok (.reply (.elements vector.toList))
  | .count target =>
      pool.withVector target (.ok .missing) fun vector => .ok (.reply (.number vector.count))
  | .null target =>
      pool.withVector target (.ok .missing) fun vector => .ok (.reply (.flag vector.null))
  | .index position target => pool.withVector target (.ok .missing) fun vector =>
      (fun found => .reply (.element found)) <$> vector.index position
  | .setAt position value target => pool.withVector target (.ok .missing) fun vector =>
      .vector? <$> vector.setAt identical position value
  | .cons value target => pool.withVector target (.ok .missing) fun vector =>
      .vector <$> vector.cons value
  | .snoc target value => pool.withVector target (.ok .missing) fun vector =>
      .vector <$> vector.snoc value
  | .append left right => pool.withVector left (.ok .missing) fun first =>
      pool.withVector right (.ok .missing) fun second => .vector <$> first.append second
  | .splitAt position target => pool.withVector target (.ok .missing) fun vector =>
      .halves? <$> vector.splitAt position
  | .insertListAt position values target => pool.withVector target (.ok .missing) fun vector =>
      .vector? <$> vector.insertListAt position values
  | .removeRange position amount target => pool.withVector target (.ok .missing) fun vector =>
      .vector? <$> vector.removeRange position amount
  | .unsnoc target => pool.withVector target (.ok .missing) fun vector => .unsnoc? <$> vector.unsnoc
  | .cursor target => pool.withVector target (.ok .missing) fun vector =>
      .ok (.cursor (RrbVector.cursor vector))
  | .cursorAt position target => pool.withVector target (.ok .missing) fun vector =>
      .ok (.cursor? (RrbVector.cursorAt position vector))
  | .cursorSnapshot place => pool.withCursor place (.ok .missing) fun current =>
      .ok (.vector current.cursorSnapshot)
  | .cursorPosition place => pool.withCursor place (.ok .missing) fun current =>
      .ok (.reply (.number current.cursorPosition))
  | .cursorCount place => pool.withCursor place (.ok .missing) fun current =>
      .ok (.reply (.number (RrbVector.cursorCount current)))
  | .cursorIsAtStart place => pool.withCursor place (.ok .missing) fun current =>
      .ok (.reply (.flag (RrbVector.cursorIsAtStart current)))
  | .cursorIsAtEnd place => pool.withCursor place (.ok .missing) fun current =>
      .ok (.reply (.flag (RrbVector.cursorIsAtEnd current)))
  | .cursorPeekPrevious place => pool.withCursor place (.ok .missing) fun current =>
      (fun found => .reply (.element found)) <$> RrbVector.cursorPeekPrevious current
  | .cursorPeekNext place => pool.withCursor place (.ok .missing) fun current =>
      (fun found => .reply (.element found)) <$> RrbVector.cursorPeekNext current
  | .cursorMovePrevious place => pool.withCursor place (.ok .missing) fun current =>
      .ok (.cursor? (RrbVector.cursorMovePrevious current))
  | .cursorMoveNext place => pool.withCursor place (.ok .missing) fun current =>
      .ok (.cursor? (RrbVector.cursorMoveNext current))
  | .cursorSeek position place => pool.withCursor place (.ok .missing) fun current =>
      .ok (.cursor? (RrbVector.cursorSeek position current))
  | .cursorInsert value place => pool.withCursor place (.ok .missing) fun current =>
      .cursor <$> RrbVector.cursorInsert value current
  | .cursorInsertList values place => pool.withCursor place (.ok .missing) fun current =>
      .cursor <$> RrbVector.cursorInsertList values current
  | .cursorInsertVector target place => pool.withVector target (.ok .missing) fun inserted =>
      pool.withCursor place (.ok .missing) fun current =>
        .cursor <$> RrbVector.cursorInsertVector inserted current
  | .cursorDeletePrevious place => pool.withCursor place (.ok .missing) fun current =>
      .cursor? <$> RrbVector.cursorDeletePrevious current
  | .cursorDeleteNext place => pool.withCursor place (.ok .missing) fun current =>
      .cursor? <$> RrbVector.cursorDeleteNext current
  | .cursorReplaceNext value place => pool.withCursor place (.ok .missing) fun current =>
      .cursor? <$> RrbVector.cursorReplaceNext identical value current

/-- What an operation does to lists. -/
def meaning (same : α → α → Bool) (pool : ListPool α) : Operation α → Effect (List α) (ListGap α) α
  | .empty => .vector []
  | .singleton value => .vector [value]
  | .fromList values => .vector values
  | .toList target => pool.withVector target .missing fun values => .reply (.elements values)
  | .count target => pool.withVector target .missing fun values => .reply (.number values.length)
  | .null target => pool.withVector target .missing fun values => .reply (.flag values.isEmpty)
  | .index position target => pool.withVector target .missing fun values =>
      .reply (.element (elementAt position values))
  | .setAt position value target => pool.withVector target .missing fun values =>
      .vector? (replaceAt same position value values)
  | .cons value target => pool.withVector target .missing fun values => .vector (value :: values)
  | .snoc target value => pool.withVector target .missing fun values => .vector (values ++ [value])
  | .append left right => pool.withVector left .missing fun first =>
      pool.withVector right .missing fun second => .vector (first ++ second)
  | .splitAt position target => pool.withVector target .missing fun values =>
      .halves? (splitList position values)
  | .insertListAt position inserted target => pool.withVector target .missing fun values =>
      .vector? (insertList position inserted values)
  | .removeRange position amount target => pool.withVector target .missing fun values =>
      .vector? (removeList position amount values)
  | .unsnoc target => pool.withVector target .missing fun values => .unsnoc? (unsnocList values)
  | .cursor target => pool.withVector target .missing fun values => .cursor ⟨values, 0⟩
  | .cursorAt position target => pool.withVector target .missing fun values =>
      .cursor? (ListGap.at? position values)
  | .cursorSnapshot place => pool.withCursor place .missing fun gap => .vector gap.values
  | .cursorPosition place => pool.withCursor place .missing fun gap => .reply (.number gap.position)
  | .cursorCount place => pool.withCursor place .missing fun gap =>
      .reply (.number gap.values.length)
  | .cursorIsAtStart place => pool.withCursor place .missing fun gap =>
      .reply (.flag (gap.position == 0))
  | .cursorIsAtEnd place => pool.withCursor place .missing fun gap =>
      .reply (.flag (gap.position == gap.values.length))
  | .cursorPeekPrevious place => pool.withCursor place .missing fun gap =>
      .reply (.element (elementAt (gap.position - 1) gap.values))
  | .cursorPeekNext place => pool.withCursor place .missing fun gap =>
      .reply (.element gap.values[gap.position]?)
  | .cursorMovePrevious place => pool.withCursor place .missing fun gap =>
      .cursor? (ListGap.at? (gap.position - 1) gap.values)
  | .cursorMoveNext place => pool.withCursor place .missing fun gap =>
      .cursor? (ListGap.at? (gap.position + 1) gap.values)
  | .cursorSeek position place => pool.withCursor place .missing fun gap =>
      .cursor? (ListGap.at? position gap.values)
  | .cursorInsert value place => pool.withCursor place .missing fun gap =>
      .cursor (gap.insert [value])
  | .cursorInsertList values place => pool.withCursor place .missing fun gap =>
      .cursor (gap.insert values)
  | .cursorInsertVector target place => pool.withVector target .missing fun inserted =>
      pool.withCursor place .missing fun gap => .cursor (gap.insert inserted)
  | .cursorDeletePrevious place => pool.withCursor place .missing fun gap =>
      .cursor? gap.deletePrevious
  | .cursorDeleteNext place => pool.withCursor place .missing fun gap => .cursor? gap.deleteNext
  | .cursorReplaceNext value place => pool.withCursor place .missing fun gap =>
      .cursor? (gap.replaceNext same value)

/-- The count of what an operation makes out of its operands. -/
def growth (pool : VectorPool α) : Operation α → Nat
  | .singleton _ => 1
  | .fromList values => values.length
  | .cons _ target => pool.withVector target 0 fun vector => vector.count + 1
  | .snoc target _ => pool.withVector target 0 fun vector => vector.count + 1
  | .append left right => pool.withVector left 0 fun first =>
      pool.withVector right 0 fun second => first.count + second.count
  | .insertListAt _ values target => pool.withVector target 0 fun vector =>
      vector.count + values.length
  | .cursorInsert _ place => pool.withCursor place 0 fun current =>
      RrbVector.cursorCount current + 1
  | .cursorInsertList values place => pool.withCursor place 0 fun current =>
      RrbVector.cursorCount current + values.length
  | .cursorInsertVector target place => pool.withVector target 0 fun inserted =>
      pool.withCursor place 0 fun current => RrbVector.cursorCount current + inserted.count
  | _ => 0

/-- The appends that an operation performs fit. -/
def fits (pool : VectorPool α) : Operation α → Bool
  | .cons value target => pool.withVector target true (consFits value)
  | .snoc target value => pool.withVector target true fun vector => snocFits vector value
  | .append left right => pool.withVector left true fun first =>
      pool.withVector right true (appendFits first)
  | .insertListAt position values target => pool.withVector target true (insertFits position values)
  | .removeRange position amount target => pool.withVector target true (removeFits position amount)
  | .unsnoc target => pool.withVector target true unsnocFits
  | .cursorInsert value place => pool.withCursor place true (cursorInsertFits [value])
  | .cursorInsertList values place => pool.withCursor place true (cursorInsertFits values)
  | .cursorInsertVector target place => pool.withVector target true fun inserted =>
      pool.withCursor place true (cursorInsertVectorFits inserted)
  | .cursorDeletePrevious place => pool.withCursor place true cursorDeletePreviousFits
  | .cursorDeleteNext place => pool.withCursor place true cursorDeleteNextFits
  | _ => true

end Operation

def run [BEq α] (identical : α → α → Bool) (pool : VectorPool α) :
    List (Operation α) → Except RrbError (VectorPool α × List (Answer α))
  | [] => .ok (pool, [])
  | operation :: operations => do
      let effect ← operation.perform identical pool
      let (final, answers) ← run identical (pool.after effect) operations
      .ok (final, effect.answer :: answers)

def listRun (same : α → α → Bool) (pool : ListPool α) :
    List (Operation α) → ListPool α × List (Answer α)
  | [] => (pool, [])
  | operation :: operations =>
      let effect := operation.meaning same pool
      let rest := listRun same (pool.after effect) operations
      (rest.1, effect.answer :: rest.2)

/-- A check that every step of a session passes. -/
def everyStep [BEq α] (identical : α → α → Bool)
    (check : VectorPool α → Operation α → Bool) (pool : VectorPool α) :
    List (Operation α) → Bool
  | [] => true
  | operation :: operations =>
      check pool operation &&
        match operation.perform identical pool with
        | .ok effect => everyStep identical check (pool.after effect) operations
        | .error _ => true

end Durable7.FingerTree.RrbVector
