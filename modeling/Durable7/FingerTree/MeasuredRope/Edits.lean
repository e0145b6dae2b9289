import Durable7.FingerTree.MeasuredRope.Operations
import Durable7.Foundation.ListModel

/-!
# Edits of measured ropes

Each edit makes the list its name says.  An edit that makes the list longer fails when the
list is too long to count.
-/

namespace Durable7.FingerTree.MeasuredRope

open Foundation List Measured.ValidTree Int

variable {v α : Type} [Monoid v] {f : α → v}

/-! ## The model -/

def ListModel.bounded (values : List α) : Except RopeError (List α) :=
  if (values.length : Int) ≤ maxBound then .ok values else .error .lengthOverflow

def ListModel.insertAt (position : Int) (inserted values : List α) :
    Except RopeError (Option (List α)) :=
  if position < 0 ∨ position > values.length then .ok none
  else (bounded (values.take position.toNat ++ (inserted ++ values.drop position.toNat))).map some

variable {values : List α}

theorem bounded_ok (h : (values.length : Int) ≤ maxBound) :
    ListModel.bounded values = .ok values := if_pos h

theorem bounded_error (h : ¬ (values.length : Int) ≤ maxBound) :
    ListModel.bounded values = .error .lengthOverflow := if_neg h

/-! ## Counts -/

theorem checkedAdd_eq {left right : Int} (hleft : 0 ≤ left) (hright : 0 ≤ right) :
    checkedAdd left right =
      if left + right ≤ maxBound then .ok (left + right) else .error .lengthOverflow := by
  rw [checkedAdd]
  by_cases hfits : left + right ≤ maxBound
  · rw [if_pos hfits, if_neg (by omega)]
  · rw [if_neg hfits, if_pos (by omega)]

theorem rangeLength_go (values : List α) {total added : Int} (hadded : 0 ≤ added)
    (hle : added ≤ total) (hfits : total ≤ maxBound) :
    checkedRangeLength.go total added values =
      if total + values.length ≤ maxBound then .ok (added + values.length)
      else .error .lengthOverflow := by
  induction values generalizing total added with
  | nil =>
      rw [checkedRangeLength.go, length_nil, Int.natCast_zero, Int.add_zero, if_pos hfits, add_zero]
  | cons value values ih =>
      have hlength : ((value :: values).length : Int) = 1 + values.length := by
        rw [length_cons]
        omega
      rw [checkedRangeLength.go, checkedAdd_eq (Int.le_trans hadded hle) Int.one_nonneg, hlength]
      by_cases hnext : total + 1 ≤ maxBound
      · rw [if_pos hnext, except_ok_bind, checkedAdd_eq hadded Int.one_nonneg,
          if_pos (by omega), except_ok_bind, ih (by omega) (by omega) hnext, add_assoc,
          add_assoc]
      · rw [if_neg hnext, if_neg (by omega)]
        rfl

theorem checkedRangeLength_eq {initial : Int} (hinitial : 0 ≤ initial) (hfits : initial ≤ maxBound)
    (values : List α) :
    checkedRangeLength initial values =
      if initial + values.length ≤ maxBound then .ok (values.length : Int)
      else .error .lengthOverflow := by
  rw [checkedRangeLength, rangeLength_go values (Int.le_refl 0) hinitial hfits, Int.zero_add]

theorem holds_emptyWith (f : α → v) : Holds f (emptyWith f) [] := by
  refine ⟨rfl, ?_, ?_, show (0 : Int) ≤ maxBound by decide⟩
  · rw [emptyWith, toList_empty]
    exact forall_mem_nil _
  · rw [emptyWith, toList_empty]
    rfl

theorem singleChunk_valid (f : α → v) (value : α) : ChunkValid f (measuredChunk f [value]) :=
  measuredChunk_valid (cons_ne_nil _ _) (show 1 ≤ maxChunkSize by decide)

theorem holds_singletonWith (f : α → v) (value : α) : Holds f (singletonWith f value) [value] := by
  refine ⟨rfl, ?_, ?_, show (1 : Int) ≤ maxBound by decide⟩
  · rw [singletonWith, toList_singleton]
    exact chunksValid_singleton (singleChunk_valid f value)
  · rw [singletonWith, toList_singleton]
    rfl

theorem counted_agrees {tree : ChunkTree v α} (hchunks : ChunksValid f tree.toList)
    (helements : elements tree.toList = values) :
    Agrees (Holds f) (counted ⟨f, tree⟩) (ListModel.bounded values) := by
  have hcount : count ⟨f, tree⟩ = values.length := by
    rw [count, measure_eq, foldMeasure_chunks hchunks, helements]
  rw [counted, hcount]
  by_cases hfits : (values.length : Int) ≤ maxBound
  · rw [if_neg (Int.not_lt.mpr hfits), bounded_ok hfits]
    exact .ok ⟨rfl, hchunks, helements, hfits⟩
  · rw [if_pos (Int.not_le.mp hfits), bounded_error hfits]
    exact .error _

theorem fromListWith_agrees (f : α → v) (values : List α) :
    Agrees (Holds f) (fromListWith f values) (ListModel.bounded values) := by
  have hchunks := measuredChunks_valid (f := f) values
  refine counted_agrees ?_ ?_
  · rw [toList_fromList]
    exact hchunks.1
  · rw [toList_fromList]
    exact hchunks.2

theorem append_agrees {left right : MeasuredRope v α} {front back : List α}
    (hleft : Holds f left front) (hright : Holds f right back) :
    Agrees (Holds f) (append left right) (ListModel.bounded (front ++ back)) := by
  have hlength : ((front ++ back).length : Int) = front.length + back.length := by
    rw [length_append]
    rfl
  rw [append, hleft.count_eq, hright.count_eq, checkedAdd_eq (natCast_nonneg _)
    (natCast_nonneg _), hleft.null_eq, hright.null_eq, ListModel.bounded, hlength]
  by_cases hfits : (front.length + back.length : Int) ≤ maxBound
  · rw [if_pos hfits, if_pos hfits, except_bind_ok]
    cases front with
    | nil => exact .ok hright
    | cons first front =>
        rw [if_neg (by simp)]
        cases back with
        | nil =>
            rw [if_pos isEmpty_nil, append_nil]
            exact .ok hleft
        | cons second back =>
            rw [if_neg (by simp)]
            refine .ok ⟨hleft.function_eq, ?_, ?_, hlength ▸ hfits⟩
            · rw [toList_append]
              exact hleft.chunks.append hright.chunks
            · rw [toList_append, elements_append, hleft.elements_eq, hright.elements_eq]
  · rw [if_neg hfits, if_neg hfits]
    exact .error _

theorem appendValue_valid {tree : ChunkTree v α} (h : ChunksValid f tree.toList) (value : α) :
    ChunksValid f (appendValue f tree value).toList ∧
      elements (appendValue f tree value).toList = elements tree.toList ++ [value] := by
  have hone := singleChunk_valid f value
  rw [appendValue]
  rcases tree.viewR_cases with ⟨hview, hnil⟩ | ⟨rest, chunk, hview, hlist⟩
  · rw [hview, hnil]
    dsimp only
    rw [toList_singleton]
    exact ⟨chunksValid_singleton hone, rfl⟩
  · rw [hlist] at h
    obtain ⟨hrest, hlast⟩ := forall_mem_append.mp h
    have hchunk := forall_mem_singleton.mp hlast
    rw [hview, hlist, elements_append, elements_singleton]
    dsimp only
    split
    · rename_i hroom
      rw [hchunk.length_eq] at hroom
      have hgrown : ChunkValid f (measuredChunk f (chunk.items ++ [value])) := by
        refine measuredChunk_valid (append_ne_nil_of_right_ne_nil _ (cons_ne_nil _ _)) ?_
        rw [length_append]
        exact hroom
      rw [toList_snoc, elements_append, elements_singleton, append_assoc]
      exact ⟨ChunksValid.append hrest (chunksValid_singleton hgrown), rfl⟩
    · rw [toList_snoc, toList_snoc, elements_append,
        elements_append, elements_singleton, elements_singleton]
      exact ⟨ChunksValid.append h (chunksValid_singleton hone), rfl⟩

/-! ## Positions -/

theorem Inside.replaced {tree left right : ChunkTree v α} {position : Int}
    {chunk : MeasuredChunk v α} {offset : Nat} {middle : List (MeasuredChunk v α)}
    {changed edited : List α} (hinside : Inside f tree values position left chunk right offset)
    (hmiddle : ChunksValid f middle ∧ elements middle = changed)
    (hedited : elements left.toList ++ (changed ++ elements right.toList) = edited)
    (hfits : (edited.length : Int) ≤ maxBound) :
    Holds f ⟨f, joinWithChunks left middle right⟩ edited := by
  obtain ⟨hvalid, helements⟩ := hinside.joined hmiddle.1
  refine ⟨rfl, hvalid, ?_, hfits⟩
  rw [helements, hmiddle.2, hedited]

section Positions

variable {rope : MeasuredRope v α} {values : List α} (h : Holds f rope values)

include h

theorem setAt_refines (position : Int) (value : α) :
    Option.Rel (Holds f) (setAt position value rope) (ListModel.setAt position value values) := by
  rw [setAt, ListModel.setAt, h.count_eq]
  by_cases hout : position < 0 ∨ position ≥ values.length
  · rw [if_pos hout, if_pos hout]
    exact .none
  · obtain ⟨left, chunk, right, offset, hinside⟩ := h.inside position (by omega) (by omega)
    have hset : (chunk.items.set offset value).length = chunk.items.length := length_set
    rw [if_neg hout, if_neg hout, hinside.split_eq, h.function_eq]
    dsimp only
    rw [hinside.offset_eq, replaceAt_eq]
    refine .some (hinside.replaced ⟨chunksValid_singleton (measuredChunk_valid ?_ ?_),
      elements_singleton _⟩ ?_ ?_)
    · exact ne_nil_of_length_pos (hset ▸ Nat.zero_lt_of_lt hinside.offset_lt)
    · exact hset ▸ hinside.chunkValid.small
    · conv_rhs => rw [hinside.values_eq, hinside.position_eq,
        set_append_right _ _ (Nat.le_add_right _ _), Nat.add_sub_cancel_left,
        set_append_left _ _ hinside.offset_lt]
      rfl
    · rw [length_set]
      exact h.fits

theorem deleteAt_refines (position : Int) :
    Option.Rel (Holds f) (deleteAt position rope) (ListModel.deleteAt position values) := by
  rw [deleteAt, ListModel.deleteAt, h.count_eq]
  by_cases hout : position < 0 ∨ position ≥ values.length
  · rw [if_pos hout, if_pos hout]
    exact .none
  · obtain ⟨left, chunk, right, offset, hinside⟩ := h.inside position (by omega) (by omega)
    rw [if_neg hout, if_neg hout, hinside.split_eq, h.function_eq]
    dsimp only
    rw [hinside.offset_eq]
    refine .some (hinside.replaced (measuredChunks_valid _) ?_ ?_)
    · rw [eraseIdx_eq_take_drop_succ, hinside.take_eq, hinside.drop_succ_eq, drop_drop,
        append_assoc, append_assoc]
    · have hlength := length_eraseIdx_add_one (l := values) (i := position.toNat) (by omega)
      have hfits := h.fits
      omega

theorem insertAt_agrees (position : Int) (value : α) :
    Agrees (Option.Rel (Holds f)) (insertAt position value rope)
      (ListModel.insertAt position [value] values) := by
  rw [insertAt, ListModel.insertAt, h.count_eq]
  by_cases hout : position < 0 ∨ position > values.length
  · rw [if_pos hout, if_pos hout]
    exact .ok .none
  have hlength : ((values.take position.toNat ++ ([value] ++ values.drop position.toNat)).length :
      Int) = values.length + 1 := by
    rw [length_append, length_append, length_take, length_drop, length_singleton]
    omega
  rw [if_neg hout, if_neg hout, checkedAdd_eq (Int.natCast_nonneg _) Int.one_nonneg,
    ListModel.bounded, hlength]
  by_cases hfits : (values.length : Int) + 1 ≤ maxBound
  · rw [if_pos hfits, if_pos hfits, except_bind_ok]
    by_cases hlast : position = values.length
    · obtain ⟨hvalid, helements⟩ := appendValue_valid h.chunks value
      rw [if_pos hlast, hlast, Int.toNat_natCast, take_length, drop_length,
        append_nil, h.function_eq]
      refine .ok (.some ⟨rfl, hvalid, ?_, ?_⟩)
      · rw [helements, h.elements_eq]
      · rw [length_append]
        exact hfits
    · obtain ⟨left, chunk, right, offset, hinside⟩ := h.inside position (by omega) (by omega)
      rw [if_neg hlast, hinside.split_eq, h.function_eq]
      dsimp only
      rw [hinside.offset_eq]
      refine .ok (.some (hinside.replaced (measuredChunks_valid _) ?_ ?_))
      · rw [hinside.take_eq, hinside.drop_eq, append_assoc, append_assoc,
          singleton_append, cons_append]
      · rw [hlength]
        exact hfits
  · rw [if_neg hfits, if_neg hfits]
    exact .error _

theorem splitAt_refines (position : Int) :
    Option.Rel (fun parts lists => Holds f parts.1 lists.1 ∧ Holds f parts.2 lists.2)
      (splitAt position rope) (ListModel.splitAt position values) := by
  rw [splitAt, ListModel.splitAt, h.count_eq]
  by_cases hout : position < 0 ∨ position > values.length
  · rw [if_pos hout, if_pos hout]
    exact .none
  rw [if_neg hout, if_neg hout, h.function_eq]
  by_cases hzero : position = 0
  · rw [if_pos hzero, hzero]
    exact .some ⟨holds_emptyWith f, h⟩
  rw [if_neg hzero]
  by_cases hlast : position = values.length
  · rw [if_pos hlast, hlast, toNat_natCast, take_length, drop_length]
    exact .some ⟨h, holds_emptyWith f⟩
  · obtain ⟨left, chunk, right, offset, hinside⟩ := h.inside position (by omega) (by omega)
    have hfits := h.fits
    have hbefore := measuredChunks_valid (f := f) (chunk.items.take offset)
    have hafter := measuredChunks_valid (f := f) (chunk.items.drop offset)
    rw [if_neg hlast, hinside.split_eq]
    dsimp only
    rw [hinside.offset_eq]
    refine .some ⟨⟨rfl, ?_, ?_, ?_⟩, ⟨rfl, ?_, ?_, ?_⟩⟩
    · rw [toList_appendChunks]
      exact hinside.leftValid.append hbefore.1
    · rw [toList_appendChunks, elements_append, hbefore.2, hinside.take_eq]
    · rw [length_take]
      omega
    · rw [toList_prependChunks]
      exact hafter.1.append hinside.rightValid
    · rw [toList_prependChunks, elements_append, hafter.2, hinside.drop_eq]
    · rw [length_drop]
      omega

theorem slice_refines (position lengthValue : Int) :
    Option.Rel (Holds f) (slice position lengthValue rope)
      (ListModel.slice position lengthValue values) := by
  rw [slice, ListModel.slice, h.count_eq]
  by_cases hout : position < 0 ∨ lengthValue < 0 ∨ position + lengthValue > values.length
  · rw [if_pos hout, if_pos]
    · exact .none
    · exact decide_eq_false (by omega)
  · have hrange : isValidRange position lengthValue values.length ≠ false :=
      ne_of_eq_of_ne (decide_eq_true (by omega)) Bool.noConfusion
    have hfirst := splitAt_refines h position
    rw [if_neg hout, if_neg hrange]
    rw [ListModel.splitAt, if_neg (by omega)] at hfirst
    generalize splitAt position rope = parts at hfirst ⊢
    cases hfirst with
    | @some parts lists hparts =>
        have hsecond := splitAt_refines hparts.2 lengthValue
        rw [ListModel.splitAt, if_neg (by rw [length_drop]; omega)] at hsecond
        rw [Option.bind_some]
        generalize splitAt lengthValue parts.2 = rest at hsecond ⊢
        cases hsecond with
        | some hrest => exact .some hrest.1

end Positions

theorem bounded_cases {outcome : Outcome (MeasuredRope v α)}
    (h : Agrees (Holds f) outcome (ListModel.bounded values)) :
    (∃ made, outcome = .ok made ∧ Holds f made values) ∨
      (outcome = .error .lengthOverflow ∧ ¬ (values.length : Int) ≤ maxBound) := by
  by_cases hfits : (values.length : Int) ≤ maxBound
  · rw [bounded_ok hfits] at h
    cases h with
    | ok hmade => exact .inl ⟨_, rfl, hmade⟩
  · rw [bounded_error hfits] at h
    cases h
    exact .inr ⟨rfl, hfits⟩

theorem length_inserted {values inserted : List α} {position : Nat} :
    (values.take position ++ (inserted ++ values.drop position)).length =
      values.length + inserted.length := by
  rw [length_append, length_append, length_take, length_drop]
  omega

section Ranges

variable {rope : MeasuredRope v α} {values : List α} (h : Holds f rope values)

include h

theorem insertMeasuredRopeAt_agrees {middle : MeasuredRope v α} {inserted : List α}
    (hmiddle : Holds f middle inserted) {position : Int} (hlow : 0 ≤ position)
    (hhigh : position ≤ values.length) :
    Agrees (Option.Rel (Holds f)) (insertMeasuredRopeAt position middle rope)
      (ListModel.insertAt position inserted values) := by
  have hin : ¬ (position < 0 ∨ position > values.length) := by omega
  rw [insertMeasuredRopeAt, ListModel.insertAt, if_neg hin, hmiddle.null_eq]
  cases inserted with
  | nil =>
      rw [if_pos isEmpty_nil, nil_append, take_append_drop, bounded_ok h.fits]
      exact .ok (.some h)
  | cons value inserted =>
      have hparts := splitAt_refines h position
      rw [if_neg (by simp)]
      rw [ListModel.splitAt, if_neg (by omega)] at hparts
      generalize splitAt position rope = parts at hparts ⊢
      cases hparts with
      | @some parts lists hparts =>
          dsimp only
          rcases bounded_cases (append_agrees hparts.1 hmiddle) with
            ⟨front, hfront, hholds⟩ | ⟨hfront, hnot⟩
          · have hwhole := append_agrees hholds hparts.2
            rw [append_assoc] at hwhole
            rw [hfront, except_bind_ok]
            exact hwhole.map fun _ _ hmade => .some hmade
          · rw [hfront, bounded_error]
            · exact .error _
            · rw [length_append, length_take] at hnot
              rw [length_inserted]
              omega

theorem insertRangeAtKnown_agrees (inserted : List α) {position : Int} (hlow : 0 ≤ position)
    (hhigh : position ≤ values.length) :
    Agrees (Option.Rel (Holds f)) (insertRangeAtKnown position inserted inserted.length rope)
      (ListModel.insertAt position inserted values) := by
  rw [insertRangeAtKnown, h.count_eq, h.function_eq,
    checkedAdd_eq (natCast_nonneg _) (natCast_nonneg _)]
  by_cases hfits : (values.length + inserted.length : Int) ≤ maxBound
  · rw [if_pos hfits, except_bind_ok]
    rcases bounded_cases (fromListWith_agrees f inserted) with ⟨middle, hmade, hholds⟩ | ⟨-, hnot⟩
    · rw [hmade, except_bind_ok]
      exact insertMeasuredRopeAt_agrees h hholds hlow hhigh
    · omega
  · rw [if_neg hfits, ListModel.insertAt, if_neg (by omega), bounded_error]
    · exact .error _
    · rw [length_inserted]
      exact hfits

theorem insertRangeAt_agrees (position : Int) (inserted : List α) :
    Agrees (Option.Rel (Holds f)) (insertRangeAt position inserted rope)
      (ListModel.insertAt position inserted values) := by
  have hfits := h.fits
  rw [insertRangeAt, h.count_eq]
  by_cases hout : position < 0 ∨ position > values.length
  · rw [if_pos hout, ListModel.insertAt, if_pos hout]
    exact .ok .none
  rw [if_neg hout]
  cases inserted with
  | nil =>
      rw [if_pos isEmpty_nil, ListModel.insertAt, if_neg hout, nil_append,
        take_append_drop, bounded_ok hfits]
      exact .ok (.some h)
  | cons value inserted =>
      rw [if_neg (by simp), checkedRangeLength_eq (natCast_nonneg _) hfits]
      by_cases hroom : (values.length + (value :: inserted).length : Int) ≤ maxBound
      · rw [if_pos hroom, except_bind_ok]
        exact insertRangeAtKnown_agrees h (value :: inserted) (by omega) (by omega)
      · rw [if_neg hroom, ListModel.insertAt, if_neg hout, bounded_error]
        · exact .error _
        · rw [length_inserted]
          exact hroom

end Ranges

structure CursorHolds (f : α → v) (cursor : MeasuredRopeCursor v α) (values : List α)
    (position : Int) : Prop where
  rope : Holds f cursor.rope values
  position_eq : cursor.position = position
  low : 0 ≤ position
  high : position ≤ values.length

section Cursors

variable {cursor : MeasuredRopeCursor v α} {values : List α} {position : Int}
  (h : CursorHolds f cursor values position)

include h

theorem insert_agrees (value : α) :
    Agrees (Holds f) ((insert value cursor).map MeasuredRopeCursor.rope)
      (ListModel.bounded
        (values.take position.toNat ++ ([value] ++ values.drop position.toNat))) := by
  have hlow := h.low
  have hhigh := h.high
  have hinsert := insertAt_agrees h.rope position value
  rw [insert, h.position_eq, checkedAdd_eq hlow Int.one_nonneg]
  rw [ListModel.insertAt, if_neg (by omega)] at hinsert
  by_cases hnext : position + 1 ≤ maxBound
  · rw [if_pos hnext, except_bind_ok]
    exact hinsert.some_cases .error fun _ _ => .ok
  · rw [if_neg hnext, bounded_error]
    · exact .error _
    · rw [length_inserted, length_singleton]
      omega

theorem insertRange_agrees (inserted : List α) :
    Agrees (Holds f) ((insertRange inserted cursor).map MeasuredRopeCursor.rope)
      (ListModel.bounded
        (values.take position.toNat ++ (inserted ++ values.drop position.toNat))) := by
  have hlow := h.low
  have hhigh := h.high
  have hfits := h.rope.fits
  cases inserted with
  | nil =>
      rw [insertRange, nil_append, take_append_drop, bounded_ok hfits]
      exact .ok h.rope
  | cons value inserted =>
      have hinsert := insertRangeAtKnown_agrees h.rope (value :: inserted) hlow hhigh
      rw [ListModel.insertAt, if_neg (by omega)] at hinsert
      rw [insertRange, h.rope.count_eq, h.position_eq,
        checkedRangeLength_eq (natCast_nonneg _) hfits]
      · by_cases hroom : (values.length + (value :: inserted).length : Int) ≤ maxBound
        · rw [if_pos hroom, except_bind_ok, checkedAdd_eq hlow (natCast_nonneg _),
            if_pos (by omega), except_bind_ok]
          exact hinsert.some_cases .error fun _ _ => .ok
        · rw [if_neg hroom, bounded_error]
          · exact .error _
          · rw [length_inserted]
            exact hroom
      · exact nofun

theorem deletePrevious_refines :
    Option.Rel (Holds f) ((deletePrevious cursor).map MeasuredRopeCursor.rope)
      (ListModel.deleteAt (position - 1) values) := by
  have hlow := h.low
  have hhigh := h.high
  have hdelete := deleteAt_refines h.rope (position - 1)
  rw [deletePrevious, isAtStart, h.position_eq]
  by_cases hzero : position = 0
  · rw [if_pos (beq_iff_eq.mpr hzero), ListModel.deleteAt, if_pos (by omega)]
    exact .none
  · rw [if_neg (mt beq_iff_eq.mp hzero), Option.map_map]
    exact (Option.map_id' (x := deleteAt (position - 1) cursor.rope)).symm ▸ hdelete

theorem deleteNext_refines :
    Option.Rel (Holds f) ((deleteNext cursor).map MeasuredRopeCursor.rope)
      (ListModel.deleteAt position values) := by
  have hdelete := deleteAt_refines h.rope position
  rw [deleteNext, isAtEnd, h.position_eq, h.rope.count_eq]
  by_cases hend : position = values.length
  · rw [if_pos (beq_iff_eq.mpr hend), ListModel.deleteAt, if_pos (by omega)]
    exact .none
  · rw [if_neg (mt beq_iff_eq.mp hend), Option.map_map]
    exact (Option.map_id' (x := deleteAt position cursor.rope)).symm ▸ hdelete

theorem replaceNext_refines (value : α) :
    Option.Rel (Holds f) ((replaceNext value cursor).map MeasuredRopeCursor.rope)
      (ListModel.setAt position value values) := by
  have hset := setAt_refines h.rope position value
  rw [replaceNext, isAtEnd, h.position_eq, h.rope.count_eq]
  by_cases hend : position = values.length
  · rw [if_pos (beq_iff_eq.mpr hend), ListModel.setAt, if_pos (by omega)]
    exact .none
  · rw [if_neg (mt beq_iff_eq.mp hend), Option.map_map]
    exact (Option.map_id' (x := setAt position value cursor.rope)).symm ▸ hset

end Cursors

end Durable7.FingerTree.MeasuredRope
