import Durable7.FingerTree.RangeUpdateSequence.Reads
import Mathlib.Data.Nat.Size

/-!
# Edits of range-update sequences

Every edit of a sequence of at most `maxBound` elements agrees with the list model.
-/

namespace Durable7.FingerTree.RangeUpdateSequence

open Foundation List Nat

section

open Int
open RrbVector (maxBound)

variable {element measureValue tag : Type} {algebra : RangeUpdateAlgebra element measureValue tag}

/-- The sequence is a balanced tree of the values, and their number is an `Int`. -/
structure Refines (sequence : RangeUpdateSequence algebra) (values : List element) : Prop where
  shown : Shows algebra sequence.root values
  bounded : values.length ≤ maxBound

variable {values : List element}

theorem Refines.count_eq {sequence : RangeUpdateSequence algebra}
    (h : Refines sequence values) : count sequence = values.length := h.shown.count_eq

theorem refines_empty : Refines (emptyWith algebra) [] := ⟨shows_nothing, zero_le _⟩

theorem bounded_ok (h : values.length ≤ maxBound) :
    ListModel.bounded values = .ok values := if_neg (by omega)

theorem bounded_error (h : maxBound < values.length) :
    ListModel.bounded values = .error .lengthOverflow := if_pos h

theorem checkedAdd_ok {left right : Nat} (h : left + right ≤ maxBound) :
    checkedAdd left right = .ok (left + right) := if_neg (by omega)

theorem checkedAdd_error {left right : Nat} (hleft : left ≤ maxBound)
    (h : maxBound < left + right) : checkedAdd left right = .error .lengthOverflow :=
  if_pos (by omega)

theorem validRange_iff {position amount : Int} {lengthValue : Nat} :
    validRange position amount lengthValue = true ↔
      0 ≤ position ∧ 0 ≤ amount ∧ position.toNat + amount.toNat ≤ lengthValue := by
  simp only [validRange, Bool.and_eq_true, decide_eq_true_eq]
  omega

variable [lawful : LawfulAlgebra algebra] {sequence : RangeUpdateSequence algebra}
  {values : List element}

theorem size_half {number : Nat} (h : number ≠ 0) : number.size = (number / 2).size + 1 := by
  apply le_antisymm
  · rw [size_le, pow_succ]
    have := lt_size_self (number / 2)
    omega
  · rw [succ_le_iff, lt_size]
    cases hhalf : (number / 2).size with
    | zero =>
        rw [pow_zero]
        omega
    | succ size =>
        have hpower : 2 ^ size ≤ number / 2 := lt_size.mp (by omega)
        rw [pow_succ]
        omega

theorem buildBalanced_spec (lengthValue : Nat) (hlength : lengthValue ≤ values.length)
    (hbound : lengthValue ≤ maxBound) :
    ∃ root, buildBalanced algebra lengthValue values = .ok (root, values.drop lengthValue) ∧
      Shows algebra root (values.take lengthValue) ∧ heightOf root = lengthValue.size := by
  induction lengthValue using Nat.strongRecOn generalizing values with
  | ind lengthValue ih =>
      rw [buildBalanced.eq_def]
      by_cases hzero : lengthValue = 0
      · rw [if_pos hzero, hzero, take_zero, drop_zero, size_zero]
        exact ⟨_, rfl, shows_nothing, rfl⟩
      rw [if_neg hzero]
      dsimp only
      obtain ⟨left, hleftOk, hleft, hleftHeight⟩ :=
        @ih (lengthValue / 2) (by omega) values (by omega) (by omega)
      rw [hleftOk, except_ok_bind]
      dsimp only
      have hsome : lengthValue / 2 < values.length := by omega
      rw [drop_eq_getElem_cons hsome]
      dsimp only
      obtain ⟨right, hrightOk, hright, hrightHeight⟩ :=
        @ih (lengthValue - lengthValue / 2 - 1) (by omega) (values.drop (lengthValue / 2 + 1))
          (by rw [length_drop]; omega) (by omega)
      have hclose : (lengthValue - lengthValue / 2 - 1).size ≤ (lengthValue / 2).size ∧
          (lengthValue / 2).size ≤ (lengthValue - lengthValue / 2 - 1).size + 1 := by
        constructor
        · exact size_le_size (by omega)
        · by_cases hhalf : lengthValue / 2 = 0
          · rw [hhalf, size_zero]
            exact zero_le _
          · rw [size_half hhalf]
            apply succ_le_succ
            exact size_le_size (by omega)
      have hleftLength := hleft.count_eq
      have hrightLength := hright.count_eq
      rw [length_take] at hleftLength hrightLength
      rw [hrightOk, except_ok_bind]
      dsimp only
      rw [makeNode_eq _ (by omega), except_ok_bind]
      refine ⟨built algebra values[lengthValue / 2] left right, ?_, ?_, ?_⟩
      · rw [drop_drop, show lengthValue / 2 + 1 + (lengthValue - lengthValue / 2 - 1) =
          lengthValue by omega]
      · have hshows := shows_built (values[lengthValue / 2]) hleft hright (by omega) (by omega)
        have hsplit : values.take lengthValue = values.take (lengthValue / 2) ++
            values[lengthValue / 2] ::
              (values.drop (lengthValue / 2 + 1)).take (lengthValue - lengthValue / 2 - 1) := by
          have hamount :
              lengthValue = lengthValue / 2 + (lengthValue - lengthValue / 2 - 1 + 1) := by
            omega
          conv_lhs => rw [hamount, take_add, drop_eq_getElem_cons hsome, take_succ_cons]
        rw [hsplit]
        exact hshows
      · rw [built, heightOf, hleftHeight, hrightHeight, size_half hzero]
        omega

theorem fromListWith_agrees (values : List element) :
    Agrees Refines (fromListWith algebra values) (ListModel.fromList values) := by
  rw [fromListWith, checkedLength, ListModel.fromList]
  by_cases hbound : values.length ≤ maxBound
  · obtain ⟨root, hok, hshown, -⟩ :=
      @buildBalanced_spec _ _ _ algebra _ values values.length (le_refl _) hbound
    rw [if_neg (by omega), except_ok_bind, hok, bounded_ok hbound, drop_length]
    rw [take_length] at hshown
    exact .ok ⟨hshown, hbound⟩
  · rw [if_pos (by omega), bounded_error (by omega)]
    exact .error _

theorem singletonWith_refines (value : element) :
    ∃ made, singletonWith algebra value = .ok made ∧ Refines made [value] := by
  have hone : 1 ≤ maxBound := by decide
  refine ⟨⟨built algebra value .nothing .nothing⟩, ?_, ?_, hone⟩
  · have hmade : makeNode algebra value .nothing .nothing =
        .ok (built algebra value .nothing .nothing) := makeNode_eq value hone
    rw [singletonWith, hmade]
    rfl
  · exact shows_built value shows_nothing shows_nothing (zero_le _) (zero_le _)

section

variable (h : Refines sequence values)
include h

theorem insertAt_agrees (position : Int) (value : element) :
    Agrees (Option.Rel Refines) (insertAt position value sequence)
      (ListModel.insertAt position value values) := by
  rw [insertAt, ListModel.insertAt, h.count_eq]
  by_cases hout : position < 0 ∨ position > values.length
  · rw [if_pos hout, if_pos hout]
    exact .ok .none
  rw [if_neg hout, if_neg hout]
  have hlength : (values.take position.toNat ++ value :: values.drop position.toNat).length =
      values.length + 1 := by
    rw [length_append, length_cons, length_take, length_drop]
    omega
  by_cases hbound : values.length + 1 ≤ maxBound
  · obtain ⟨grown, hok, hshown, -⟩ :=
      @insertCore_spec _ _ _ algebra _ sequence.root value values position.toNat _ h.shown rfl
        (by omega) hbound
    rw [checkedAdd_ok hbound, except_ok_bind, hok, bounded_ok (by omega)]
    exact .ok (.some ⟨hshown, by omega⟩)
  · rw [checkedAdd_error h.bounded (by omega), bounded_error (by omega)]
    exact .error _

theorem cons_agrees (value : element) :
    Agrees Refines (cons value sequence) (ListModel.cons value values) := by
  have hagrees := insertAt_agrees h 0 value
  rw [ListModel.insertAt, if_neg (by omega), toNat_zero, take_zero, drop_zero,
    nil_append] at hagrees
  rw [cons, ListModel.cons]
  exact hagrees.some_cases .error fun _ _ => .ok

theorem snoc_agrees (value : element) :
    Agrees Refines (snoc sequence value) (ListModel.snoc values value) := by
  have hagrees := insertAt_agrees h (count sequence) value
  rw [ListModel.insertAt, h.count_eq, if_neg (by omega), toNat_natCast, take_length,
    drop_length] at hagrees
  rw [snoc, ListModel.snoc, h.count_eq]
  exact hagrees.some_cases .error fun _ _ => .ok

theorem setAt_agrees (position : Int) (value : element) :
    Agrees (Option.Rel Refines) (setAt position value sequence)
      (.ok (ListModel.setAt position value values)) := by
  rw [setAt, ListModel.setAt, h.count_eq]
  by_cases hout : position < 0 ∨ position ≥ values.length
  · rw [if_pos hout, if_pos hout]
    exact .ok .none
  rw [if_neg hout, if_neg hout]
  obtain ⟨updated, hok, hshown, -⟩ :=
    @setCore_spec _ _ _ algebra _ sequence.root value values position.toNat _ h.shown rfl
      (by omega) h.bounded
  rw [hok]
  exact .ok (.some ⟨hshown, by rw [length_set]; exact h.bounded⟩)

theorem deleteAt_agrees (position : Int) :
    Agrees (Option.Rel Refines) (deleteAt position sequence)
      (.ok (ListModel.deleteAt position values)) := by
  rw [deleteAt, ListModel.deleteAt, h.count_eq]
  by_cases hout : position < 0 ∨ position ≥ values.length
  · rw [if_pos hout, if_pos hout]
    exact .ok .none
  rw [if_neg hout, if_neg hout]
  obtain ⟨shrunk, hok, hshown, -⟩ :=
    @deleteCore_spec _ _ _ algebra _ sequence.root values position.toNat _ h.shown rfl
      (by omega) h.bounded
  have hlength := length_eraseIdx_le values position.toNat
  rw [hok]
  exact .ok (.some ⟨hshown, le_trans hlength h.bounded⟩)

/-! ## Parts -/

theorem append_agrees {other : RangeUpdateSequence algebra} {others : List element}
    (hother : Refines other others) :
    Agrees Refines (append sequence other) (ListModel.append values others) := by
  rw [ListModel.append]
  by_cases hbound : values.length + others.length ≤ maxBound
  · obtain ⟨joined, hok, hshown⟩ := joinConcatenated_spec h.shown hother.shown hbound
    rw [bounded_ok (by rw [length_append]; exact hbound)]
    apply Agrees.of_ok (a := ⟨joined⟩)
    · rw [append, h.count_eq, hother.count_eq, checkedAdd_ok hbound, except_ok_bind]
      obtain ⟨root⟩ := sequence
      obtain ⟨otherRoot⟩ := other
      cases root with
      | nothing =>
          obtain rfl : otherRoot = joined := Except.ok.inj hok
          rfl
      | node value left right height count measure pending =>
          cases otherRoot with
          | nothing =>
              obtain rfl : Node.node value left right height count measure pending = joined :=
                Except.ok.inj hok
              rfl
          | node =>
              obtain ⟨⟨pivot, remainder⟩, hextract, hjoin⟩ := bind_eq_ok.mp hok
              dsimp only at hjoin ⊢
              rw [hextract, except_ok_bind]
              dsimp only
              rw [hjoin]
              rfl
    · exact ⟨hshown, by rw [length_append]; exact hbound⟩
  · rw [append, h.count_eq, hother.count_eq, checkedAdd_error h.bounded (by omega),
      bounded_error (by rw [length_append]; omega)]
    exact .error _

end

variable {root : Node element measureValue tag}

theorem splitCore_refines (h : Shows algebra root values)
    (hbound : values.length ≤ maxBound) {position : Nat} (hposition : position ≤ values.length) :
    ∃ front back, splitCore algebra root position = .ok (front, back) ∧
      @Refines _ _ _ algebra ⟨front⟩ (values.take position) ∧
      @Refines _ _ _ algebra ⟨back⟩ (values.drop position) := by
  obtain ⟨front, back, hok, hfront, hback⟩ := splitCore_spec _ h rfl hposition hbound
  refine ⟨front, back, hok, ⟨hfront, ?_⟩, ⟨hback, ?_⟩⟩
  · rw [length_take]
    omega
  · rw [length_drop]
    omega

/-- Both parts of a split refine those of the list. -/
def RefinesParts (parts : RangeUpdateSequence algebra × RangeUpdateSequence algebra)
    (values : List element × List element) : Prop :=
  Refines parts.1 values.1 ∧ Refines parts.2 values.2

section

variable (h : Refines sequence values)
include h

theorem splitAt_agrees (position : Int) :
    Agrees (Option.Rel RefinesParts) (splitAt position sequence)
      (.ok (ListModel.splitAt position values)) := by
  rw [splitAt, ListModel.splitAt, h.count_eq]
  by_cases hout : position < 0 ∨ position > values.length
  · rw [if_pos hout, if_pos hout]
    exact .ok .none
  rw [if_neg hout, if_neg hout]
  by_cases hzero : position = 0
  · rw [if_pos hzero, hzero, toNat_zero, take_zero, drop_zero]
    exact .ok (.some ⟨refines_empty, h⟩)
  rw [if_neg hzero]
  by_cases hall : position = values.length
  · rw [if_pos hall, hall, toNat_natCast, take_length, drop_length]
    exact .ok (.some ⟨h, refines_empty⟩)
  rw [if_neg hall]
  obtain ⟨front, back, hok, hfront, hback⟩ :=
    @splitCore_refines _ _ _ algebra _ values sequence.root h.shown h.bounded position.toNat
      (by omega)
  rw [hok]
  exact .ok (.some ⟨hfront, hback⟩)

theorem splitRange_refines {position amount : Nat} (hinside : position + amount ≤ values.length) :
    ∃ left tailRoot middle right,
      splitCore algebra sequence.root position = .ok (left, tailRoot) ∧
      splitCore algebra tailRoot amount = .ok (middle, right) ∧
      @Refines _ _ _ algebra ⟨left⟩ (values.take position) ∧
      @Refines _ _ _ algebra ⟨middle⟩ (listSlice position amount values) ∧
      @Refines _ _ _ algebra ⟨right⟩ (values.drop (position + amount)) := by
  obtain ⟨left, tailRoot, hfirst, hleft, htail⟩ :=
    @splitCore_refines _ _ _ algebra _ values sequence.root h.shown h.bounded position (by omega)
  obtain ⟨middle, right, hsecond, hmiddle, hright⟩ :=
    @splitCore_refines _ _ _ algebra _ _ tailRoot htail.shown htail.bounded amount
      (by rw [length_drop]; omega)
  rw [drop_drop] at hright
  exact ⟨left, tailRoot, middle, right, hfirst, hsecond, hleft, hmiddle, hright⟩

theorem slice_agrees (position amount : Int) :
    Agrees (Option.Rel Refines) (slice position amount sequence)
      (.ok (ListModel.slice position amount values)) := by
  rw [slice, ListModel.slice, h.count_eq]
  cases hvalid : validRange position amount values.length with
  | false => exact .ok .none
  | true =>
      obtain ⟨-, -, hinside⟩ := validRange_iff.mp hvalid
      rw [if_neg (by decide), if_pos rfl]
      by_cases hzero : amount = 0
      · rw [if_pos hzero, hzero, toNat_zero, listSlice, take_zero]
        exact .ok (.some refines_empty)
      rw [if_neg hzero]
      by_cases hall : amount = values.length
      · rw [if_pos hall, show position.toNat = 0 by omega, hall, toNat_natCast, listSlice,
          drop_zero, take_length]
        exact .ok (.some h)
      rw [if_neg hall]
      obtain ⟨left, tailRoot, middle, right, hfirst, hsecond, -, hmiddle, -⟩ :=
        splitRange_refines h hinside
      rw [hfirst, except_ok_bind]
      dsimp only
      rw [hsecond]
      exact .ok (.some hmiddle)

end

omit lawful in
theorem length_applyRange (position amount : Nat) (update : tag)
    (hinside : position + amount ≤ values.length) :
    (values.take position ++ ((listSlice position amount values).map
      (algebra.algebraApplyElement update) ++ values.drop (position + amount))).length =
      values.length := by
  rw [length_append, length_append, length_map, length_listSlice hinside, length_take, length_drop]
  omega

theorem slice_parts (position amount : Nat) (values : List element) :
    values.take position ++ (listSlice position amount values ++ values.drop (position + amount)) =
      values := by
  rw [listSlice, ← drop_drop, take_append_drop, take_append_drop]

theorem applyRoot_shows {update : tag} (h : Shows algebra root values) (hvalues : values ≠ [])
    (hupdate : algebra.algebraIsIdentity update = false) :
    ∃ changed, @applyRoot _ _ _ algebra update root = .ok changed ∧
      Shows algebra changed (values.map (algebra.algebraApplyElement update)) := by
  refine ⟨applySubtree algebra update root, ?_, shows_applySubtree hupdate h⟩
  cases root with
  | nothing => exact absurd h.contents_eq.symm hvalues
  | node value left right height count measure pending => rfl

theorem applyRange_agrees (h : Refines sequence values) (position amount : Int) (update : tag) :
    Agrees (Option.Rel Refines) (applyRange position amount update sequence)
      (.ok (ListModel.applyRange algebra position amount update values)) := by
  rw [applyRange, ListModel.applyRange, h.count_eq]
  cases hvalid : validRange position amount values.length with
  | false => exact .ok .none
  | true =>
      obtain ⟨-, hnonneg, hinside⟩ := validRange_iff.mp hvalid
      have hlength := @length_applyRange _ _ _ algebra values _ _ update hinside
      rw [if_neg (by decide), if_pos rfl]
      by_cases hzero : amount = 0
      · have hparts := slice_parts position.toNat amount.toNat values
        rw [hzero, toNat_zero, listSlice, take_zero] at hparts
        rw [if_pos hzero, hzero, toNat_zero, listSlice, take_zero, map_nil, hparts]
        exact .ok (.some h)
      rw [if_neg hzero]
      cases hupdate : algebra.algebraIsIdentity update with
      | true =>
          have hsame : (listSlice position.toNat amount.toNat values).map
              (algebra.algebraApplyElement update) =
              listSlice position.toNat amount.toNat values := by
            rw [map_congr_left (g := id) fun value _ =>
              lawful.applyElement_identity update value hupdate, map_id]
          rw [if_pos rfl, hsame, slice_parts]
          exact .ok (.some h)
      | false =>
          rw [if_neg (by decide)]
          by_cases hall : amount = values.length
          · obtain ⟨changed, hok, hshown⟩ :=
              @applyRoot_shows _ _ _ algebra _ values sequence.root update h.shown
                (ne_nil_of_length_pos (by omega)) hupdate
            have hfull : listSlice position.toNat amount.toNat values = values := by
              rw [listSlice, show position.toNat = 0 by omega, drop_zero,
                take_of_length_le (by omega)]
            rw [if_pos hall, hok, hfull, show position.toNat = 0 by omega, take_zero,
              drop_of_length_le (by omega), append_nil, nil_append]
            exact .ok (.some ⟨hshown, by rw [length_map]; exact h.bounded⟩)
          · rw [if_neg hall]
            obtain ⟨left, tailRoot, middle, right, hfirst, hsecond, hleft, hmiddle, hright⟩ :=
              splitRange_refines h hinside
            have hmiddleLength := length_listSlice hinside
            obtain ⟨changed, hchanged, hchangedShown⟩ :=
              @applyRoot_shows _ _ _ algebra _ _ middle update hmiddle.shown
                (ne_nil_of_length_pos (by omega)) hupdate
            have hbound := h.bounded
            rw [← hlength, length_append, length_append] at hbound
            obtain ⟨front, hfront, hfrontShown⟩ :=
              joinConcatenated_spec hleft.shown hchangedShown (by omega)
            obtain ⟨rebuilt, hrebuilt, hrebuiltShown⟩ :=
              joinConcatenated_spec hfrontShown hright.shown (by rw [length_append]; omega)
            rw [append_assoc] at hrebuiltShown
            rw [hfirst, except_ok_bind]
            dsimp only
            rw [hsecond, except_ok_bind]
            dsimp only
            rw [hchanged, except_ok_bind, hfront, except_ok_bind, hrebuilt]
            exact .ok (.some ⟨hrebuiltShown, by rw [hlength]; exact h.bounded⟩)

end

/-!
## Histories of range-update sequences

Every version of every history of edits shows the list of the model, and every read of it
is a read of that list.
-/

variable {element measureValue tag : Type} {algebra : RangeUpdateAlgebra element measureValue tag}
  [lawful : LawfulAlgebra algebra] {sequence : RangeUpdateSequence algebra} {values : List element}

theorem produce_agrees (versions : List (RangeUpdateSequence algebra))
    (models : List (List element)) (edit : Edit element tag)
    (h : List.Forall₂ Refines versions models) :
    Agrees (List.Forall₂ Refines) (produce algebra versions edit)
      (ListModel.produce algebra models edit) := by
  cases edit with
  | emptyWith => exact .ok (.cons refines_empty .nil)
  | singletonWith value => exact single_agrees (.total (singletonWith_refines value))
  | fromListWith values => exact single_agrees (fromListWith_agrees values)
  | cons value version =>
      exact onVersion_agrees h version fun _ _ hrefines =>
        single_agrees (cons_agrees hrefines value)
  | snoc version value =>
      exact onVersion_agrees h version fun _ _ hrefines =>
        single_agrees (snoc_agrees hrefines value)
  | insertAt position value version =>
      exact onVersion_agrees h version fun _ _ hrefines =>
        (insertAt_agrees hrefines position value).map fun _ _ => toList_refines
  | setAt position value version =>
      exact onVersion_agrees h version fun _ _ hrefines =>
        (setAt_agrees hrefines position value).map fun _ _ => toList_refines
  | deleteAt position version =>
      exact onVersion_agrees h version fun _ _ hrefines =>
        (deleteAt_agrees hrefines position).map fun _ _ => toList_refines
  | append left right =>
      exact onVersion_agrees h left fun _ _ hleft => onVersion_agrees h right fun _ _ hright =>
        single_agrees (append_agrees hleft hright)
  | splitAt position version =>
      exact onVersion_agrees h version fun _ _ hrefines =>
        (splitAt_agrees hrefines position).map fun _ _ => partsList_refines
  | slice position amount version =>
      exact onVersion_agrees h version fun _ _ hrefines =>
        (slice_agrees hrefines position amount).map fun _ _ => toList_refines
  | applyRange position amount update version =>
      exact onVersion_agrees h version fun _ _ hrefines =>
        (applyRange_agrees hrefines position amount update).map fun _ _ => toList_refines

/-! ### Observations -/

/-- What a version shows of its list. -/
structure Observes [BEq measureValue] (sequence : RangeUpdateSequence algebra)
    (values : List element) : Prop where
  contents : toList sequence = values
  counted : count sequence = values.length
  empty : null sequence = values.isEmpty
  measured : measure sequence = foldMeasure algebra values
  reads : ∀ position, index position sequence = .ok (elementAt position values)
  ranges : ∀ position amount, measureRange position amount sequence =
    .ok (ListModel.measureRange algebra position amount values)
  sound : Cached algebra sequence.root ∧ Balanced sequence.root
  valid : ∃ statistics, validateStructure sequence = some statistics ∧
    statistics.validationCount = values.length ∧
    statistics.validationHeight = heightOf sequence.root ∧
    statistics.validationNodeCount = values.length
  inserted : ∀ position value next, insertAt position value sequence = .ok (some next) →
    index position next = .ok (some value)
  replaced : ∀ position value next, setAt position value sequence = .ok (some next) →
    index position next = .ok (some value)

theorem toList_eq (h : Refines sequence values) : toList sequence = values := by
  rw [toList, enumerate_eq, carried_none, append_nil, h.shown.contents_eq]

omit lawful in
theorem null_eq (h : Refines sequence values) : null sequence = values.isEmpty := by
  have hcontents := h.shown.contents_eq
  rw [null]
  cases hroot : sequence.root with
  | nothing =>
      rw [hroot] at hcontents
      rw [← hcontents]
      rfl
  | node value left right height count measure pending =>
      rw [hroot, contents] at hcontents
      rw [← hcontents]
      exact (isEmpty_eq_false_iff.mpr (append_ne_nil_of_right_ne_nil _ (cons_ne_nil _ _))).symm

omit lawful in
theorem measure_eq (h : Refines sequence values) :
    measure sequence = foldMeasure algebra values := by
  have hcached := h.shown.cached
  have hcontents := h.shown.contents_eq
  rw [measure]
  cases hroot : sequence.root with
  | nothing =>
      rw [hroot] at hcontents
      rw [← hcontents]
      rfl
  | node value left right height count measure pending =>
      rw [hroot] at hcached hcontents
      rw [← hcontents]
      exact measure_of_cached hcached

theorem index_eq (h : Refines sequence values) (position : Int) :
    index position sequence = .ok (elementAt position values) := by
  rw [index, elementAt, h.count_eq]
  by_cases hlow : position < 0
  · rw [if_pos (.inl hlow), if_pos hlow]
  rw [if_neg hlow]
  by_cases hhigh : position.toNat < values.length
  · rw [if_neg (by omega), List.getElem?_eq_getElem hhigh]
    have hvalue : (carried algebra none (contents algebra sequence.root))[position.toNat]? =
        some values[position.toNat] := by
      rw [carried_none, h.shown.contents_eq]
      exact List.getElem?_eq_getElem hhigh
    rw [getElement_spec h.shown.cached none hvalue]
    rfl
  · rw [if_pos (by omega), List.getElem?_eq_none (by omega)]

theorem measureRange_eq (h : Refines sequence values) (position amount : Int) :
    measureRange position amount sequence =
      .ok (ListModel.measureRange algebra position amount values) := by
  rw [measureRange, ListModel.measureRange, ListModel.slice, h.count_eq]
  cases hvalid : validRange position amount values.length with
  | false => rfl
  | true =>
      obtain ⟨-, hnonneg, hinside⟩ := validRange_iff.mp hvalid
      rw [if_neg (by decide), if_pos rfl, Option.map_some]
      by_cases hzero : amount = 0
      · rw [if_pos hzero, hzero, Int.toNat_zero, listSlice, take_zero]
        rfl
      rw [if_neg hzero]
      by_cases hall : amount = values.length
      · have hmeasure := measure_eq h
        have hcontents := h.shown.contents_eq
        rw [if_pos hall, listSlice, show position.toNat = 0 by omega, drop_zero,
          take_of_length_le (by omega)]
        rw [measure] at hmeasure
        cases hroot : sequence.root with
        | nothing =>
            rw [hroot, RangeUpdateSequence.contents] at hcontents
            rw [← hcontents, length_nil] at hall
            exact absurd hall hzero
        | node value left right height count measure pending =>
            rw [hroot] at hmeasure
            rw [← hmeasure]
      · rw [if_neg hall, measureRangeCore_spec h.shown.cached none (by omega)
          (by rw [h.shown.contents_eq]; exact hinside), carried_none, h.shown.contents_eq]
        rfl

variable {next : RangeUpdateSequence algebra}

theorem insertAt_index (h : Refines sequence values) {position : Int} {value : element}
    (hnext : insertAt position value sequence = .ok (some next)) :
    index position next = .ok (some value) := by
  have hagrees := insertAt_agrees h position value
  rw [hnext, ListModel.insertAt] at hagrees
  by_cases hout : position < 0 ∨ position > values.length
  · rw [if_pos hout] at hagrees
    cases hagrees with
    | ok hrelated => cases hrelated
  · rw [if_neg hout, ListModel.bounded] at hagrees
    split at hagrees
    · cases hagrees
    · cases hagrees with
      | ok hrelated =>
          cases hrelated with
          | some hrefines =>
              have hlength : (values.take position.toNat).length = position.toNat := by
                rw [length_take]
                omega
              rw [index_eq hrefines, elementAt, if_neg (by omega),
                List.getElem?_append_right (by omega), hlength, Nat.sub_self]
              rfl

theorem setAt_index (h : Refines sequence values) {position : Int} {value : element}
    (hnext : setAt position value sequence = .ok (some next)) :
    index position next = .ok (some value) := by
  have hagrees := setAt_agrees h position value
  rw [hnext, ListModel.setAt] at hagrees
  by_cases hout : position < 0 ∨ position ≥ values.length
  · rw [if_pos hout] at hagrees
    cases hagrees with
    | ok hrelated => cases hrelated
  · rw [if_neg hout] at hagrees
    cases hagrees with
    | ok hrelated =>
        cases hrelated with
        | some hrefines =>
            rw [index_eq hrefines, elementAt, if_neg (by omega),
              List.getElem?_set_self (by omega)]

theorem observes_of_refines [BEq measureValue] [ReflBEq measureValue]
    (h : Refines sequence values) : Observes sequence values where
  contents := toList_eq h
  counted := h.count_eq
  empty := null_eq h
  measured := measure_eq h
  reads := index_eq h
  ranges := measureRange_eq h
  sound := ⟨h.shown.cached, h.shown.balanced⟩
  valid := by
    obtain ⟨statistics, hok, hcount, hheight, hnodes⟩ := validateNode_spec h.shown.cached
      h.shown.balanced (by rw [h.shown.contents_eq]; exact h.bounded)
    rw [h.shown.count_eq] at hcount hnodes
    refine ⟨statistics, ?_, hcount, hheight, hnodes⟩
    rw [validateStructure, hok]
    rfl
  inserted _ _ _ := insertAt_index h
  replaced _ _ _ := setAt_index h

theorem sequences_exact [BEq measureValue] [ReflBEq measureValue]
    (edits : List (Edit element tag)) :
    List.Forall₂ Observes (grow (produce algebra) [] edits)
      (grow (ListModel.produce algebra) [] edits) ∧
    ∀ edit, Agrees (List.Forall₂ Observes)
      (produce algebra (grow (produce algebra) [] edits) edit)
      (ListModel.produce algebra (grow (ListModel.produce algebra) [] edits) edit) := by
  have hversions := grow_refines (@produce_agrees _ _ _ algebra _) .nil edits
  constructor
  · exact hversions.imp fun _ _ => observes_of_refines
  · intro edit
    exact (produce_agrees _ _ edit hversions).imp fun _ _ hadded =>
      hadded.imp fun _ _ => observes_of_refines

/-- Affine updates of the elements, with the elements in order as the measure. -/
def affineAlgebra : RangeUpdateAlgebra Nat (List Nat) (Nat × Nat) where
  algebraEmptyMeasure := []
  algebraCombine left right := left ++ right
  algebraMeasureElement value := [value]
  algebraIdentityTag := (1, 0)
  algebraIsIdentity update := update == (1, 0)
  algebraCompose newer older := (newer.1 * older.1, newer.1 * older.2 + newer.2)
  algebraApplyElement update value := update.1 * value + update.2
  algebraApplyMeasure update values _ := values.map fun value => update.1 * value + update.2

instance : LawfulAlgebra affineAlgebra where
  combine_assoc := append_assoc
  empty_combine := nil_append
  combine_empty := append_nil
  applyElement_compose newer older value := by
    simp only [affineAlgebra]
    rw [mul_add, mul_assoc, add_assoc]
  applyElement_identity update value h := by
    rw [eq_of_beq h]
    exact one_mul value
  applyMeasure_element _ _ := rfl
  applyMeasure_combine _ _ _ _ _ _ _ := map_append

theorem grow_observes_affine :
    List.Forall₂ (@Observes _ _ _ affineAlgebra _)
      (grow (produce affineAlgebra) [] [.fromListWith [1, 2, 3, 4, 5], .applyRange 1 3 (2, 1) 0,
        .insertAt 2 7 1, .applyRange 0 4 (3, 0) 2, .append 3 1, .splitAt 4 4])
      (grow (ListModel.produce affineAlgebra) [] [.fromListWith [1, 2, 3, 4, 5],
        .applyRange 1 3 (2, 1) 0, .insertAt 2 7 1, .applyRange 0 4 (3, 0) 2, .append 3 1,
        .splitAt 4 4]) :=
  (@sequences_exact Nat (List Nat) (Nat × Nat) affineAlgebra _ _ _ _).1

end Durable7.FingerTree.RangeUpdateSequence
