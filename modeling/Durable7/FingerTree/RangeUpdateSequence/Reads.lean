import Durable7.FingerTree.RangeUpdateSequence.Descents
import Durable7.FingerTree.RangeUpdateSequence.Operations

/-!
# Reads

A read carries the tags of its path along and changes no node.
-/

namespace Durable7.FingerTree.RangeUpdateSequence

open Foundation List

variable {element measureValue tag : Type} {algebra : RangeUpdateAlgebra element measureValue tag}
  [lawful : LawfulAlgebra algebra] {root : Node element measureValue tag}

theorem enumerate_eq (root : Node element measureValue tag) (inherited : Option tag)
    (suffix : List element) :
    enumerate algebra root inherited suffix =
      carried algebra inherited (contents algebra root) ++ suffix := by
  induction root generalizing inherited suffix with
  | nothing => rfl
  | node value left right height count measure pending ihLeft ihRight =>
      rw [enumerate]
      rw [ihLeft, ihRight, contents, carried_append, childInheritance, carried_compose,
        carried_compose, append_assoc]
      rfl

theorem getElement_spec (h : Cached algebra root) (inherited : Option tag) {position : Nat}
    {value : element} (hvalue : (carried algebra inherited (contents algebra root))[position]? =
      some value) :
    getElement algebra root position inherited = .ok value := by
  induction root generalizing inherited position with
  | nothing => cases hvalue
  | node stored left right height count measure pending ihLeft ihRight =>
      obtain ⟨hleft, hright, -⟩ := h
      have hcount : countOf left =
          (carried algebra inherited (carried algebra pending (contents algebra left))).length := by
        rw [countOf_eq hleft, length_carried, length_carried]
      rw [contents, carried_append] at hvalue
      rw [getElement]
      dsimp only
      by_cases hhere : position = countOf left
      · rw [List.getElem?_append_right (by omega), show position - _ = 0 by omega] at hvalue
        rw [if_pos hhere]
        exact congrArg Except.ok (Option.some_inj.mp hvalue)
      rw [if_neg hhere]
      by_cases hbefore : position < countOf left
      · rw [List.getElem?_append_left (by omega)] at hvalue
        rw [if_pos hbefore]
        apply ihLeft hleft
        rw [childInheritance, carried_compose]
        exact hvalue
      · rw [List.getElem?_append_right (by omega)] at hvalue
        rw [if_neg hbefore]
        apply ihRight hright
        rw [childInheritance, carried_compose]
        obtain ⟨extra, hextra⟩ : ∃ extra, position - (carried algebra inherited
            (carried algebra pending (contents algebra left))).length = extra + 1 :=
          ⟨position - countOf left - 1, by omega⟩
        rw [hextra] at hvalue
        rw [show position - countOf left - 1 = extra by omega]
        exact hvalue

theorem combineNonEmpty_spec (first : List element) (slices : List (List element)) :
    combineNonEmpty algebra ((first :: slices).map (foldMeasure algebra)) =
      .ok (foldMeasure algebra (first :: slices).flatten) := by
  have hfold : ∀ front : List element,
      (slices.map (foldMeasure algebra)).foldl algebra.algebraCombine (foldMeasure algebra front) =
        foldMeasure algebra (front ++ slices.flatten) := by
    induction slices with
    | nil =>
        intro front
        rw [flatten_nil, append_nil]
        rfl
    | cons slice slices ih =>
        intro front
        rw [map_cons, foldl_cons, ← foldMeasure_append, ih, flatten_cons, append_assoc]
  rw [map_cons, combineNonEmpty, hfold, flatten_cons]

section Slices

variable {α : Type}

theorem listSlice_around (front back : List α) (middle : α) (position amount : Nat) :
    listSlice position amount (front ++ middle :: back) =
      (if position < front.length then
        listSlice position (min amount (front.length - position)) front else []) ++
      ((if position ≤ front.length ∧ position + amount > front.length then [middle] else []) ++
      (if position + amount > front.length + 1 then
        listSlice (position - (front.length + 1))
          (position + amount - (front.length + 1) - (position - (front.length + 1))) back
        else [])) := by
  unfold listSlice
  by_cases hbefore : position < front.length
  · rw [if_pos hbefore, drop_within (by omega), take_append, length_drop,
      take_eq_take_min (i := min amount _), length_drop,
      show min (min amount (front.length - position)) (front.length - position) =
        min amount (front.length - position) by omega]
    have hfront : (front.drop position).take amount =
        (front.drop position).take (min amount (front.length - position)) := by
      rw [take_eq_take_min, length_drop]
    rw [hfront]
    congr 1
    by_cases hreach : position + amount > front.length
    · obtain ⟨extra, hextra⟩ : ∃ extra, amount - (front.length - position) = extra + 1 :=
        ⟨amount - (front.length - position) - 1, by omega⟩
      rw [if_pos ⟨by omega, hreach⟩, hextra, take_succ_cons, singleton_append]
      congr 1
      by_cases hfurther : position + amount > front.length + 1
      · rw [if_pos hfurther, show position - (front.length + 1) = 0 by omega, drop_zero]
        congr 1
        omega
      · rw [if_neg hfurther, show extra = 0 by omega, take_zero]
    · rw [if_neg (by omega), if_neg (by omega), show amount - (front.length - position) =
        0 by omega,
        take_zero]
      rfl
  rw [if_neg hbefore, nil_append]
  by_cases hhere : position = front.length
  · rw [hhere, drop_within (Nat.le_refl _), drop_length, nil_append]
    by_cases hreach : amount = 0
    · rw [hreach, if_neg (by omega), if_neg (by omega), take_zero]
      rfl
    · obtain ⟨extra, rfl⟩ := Nat.exists_eq_succ_of_ne_zero hreach
      rw [if_pos (by omega), take_succ_cons, singleton_append]
      congr 1
      by_cases hfurther : extra = 0
      · rw [hfurther, if_neg (by omega), take_zero]
      · rw [if_pos (by omega), show front.length - (front.length + 1) = 0 by omega, drop_zero]
        congr 1
        omega
  · rw [if_neg (by omega), nil_append, drop_beyond (by omega)]
    by_cases hfurther : position + amount > front.length + 1
    · rw [if_pos hfurther]
      congr 1
      omega
    · rw [if_neg hfurther, show amount = 0 by omega, take_zero]

theorem length_listSlice {values : List α} {position amount : Nat}
    (h : position + amount ≤ values.length) :
    (listSlice position amount values).length = amount := by
  rw [listSlice, length_take, length_drop]
  omega

end Slices

omit lawful in
theorem carried_listSlice (inherited : Option tag) (position amount : Nat) (values : List element) :
    carried algebra inherited (listSlice position amount values) =
      listSlice position amount (carried algebra inherited values) := by
  rw [carried, listSlice, listSlice, carried, map_take, map_drop]

theorem measureRangeCore_spec (h : Cached algebra root) (inherited : Option tag)
    {position amount : Nat} (hamount : 0 < amount)
    (hinside : position + amount ≤ (contents algebra root).length) :
    measureRangeCore algebra root position amount inherited =
      .ok (foldMeasure algebra
        (carried algebra inherited (listSlice position amount (contents algebra root)))) := by
  induction root generalizing inherited position amount with
  | nothing =>
      rw [contents, length_nil] at hinside
      omega
  | node value left right height count measure pending ihLeft ihRight =>
      have hcountAll := countOf_eq h
      rw [countOf] at hcountAll
      have hmeasure := measure_of_cached h
      obtain ⟨hleft, hright, -, hcounts, -⟩ := h
      have hcount := countOf_eq hleft
      have hcount' := countOf_eq hright
      rw [measureRangeCore]
      by_cases hwhole : position = 0 ∧ amount = count
      · have hfold := applyInheritedToMeasure_fold algebra inherited (ne_nil_of_length_pos
          (show 0 < (contents algebra (.node value left right height count measure pending)).length
            by omega))
        rw [← hmeasure, ← hcountAll] at hfold
        rw [if_pos hwhole, hwhole.1, listSlice, drop_zero, take_of_length_le (by omega), hfold]
      rw [if_neg hwhole]
      have hlength : (carried algebra pending (contents algebra left)).length = countOf left := by
        rw [length_carried, hcount]
      have hslice := listSlice_around (carried algebra pending (contents algebra left))
        (carried algebra pending (contents algebra right)) value position amount
      rw [hlength] at hslice
      rw [contents, hslice, carried_append, carried_append]
      have hleftPart : (if position < countOf left then
            List.singleton <$> measureRangeCore algebra left position
              (min amount (countOf left - position)) (childInheritance algebra inherited pending)
          else .ok []) = (.ok ((if position < countOf left then
            [carried algebra inherited (listSlice position (min amount (countOf left - position))
              (carried algebra pending (contents algebra left)))]
          else []).map (foldMeasure algebra)) : Except RangeError _) := by
        split
        · rw [ihLeft hleft _ (by omega) (by omega), childInheritance, carried_compose,
            carried_listSlice pending]
          rfl
        · rfl
      have hrightPart : (if position + amount > countOf left + 1 then
            List.singleton <$> measureRangeCore algebra right (position - (countOf left + 1))
              (position + amount - (countOf left + 1) - (position - (countOf left + 1)))
              (childInheritance algebra inherited pending)
          else .ok []) = (.ok ((if position + amount > countOf left + 1 then
            [carried algebra inherited (listSlice (position - (countOf left + 1))
              (position + amount - (countOf left + 1) - (position - (countOf left + 1)))
              (carried algebra pending (contents algebra right)))]
          else []).map (foldMeasure algebra)) : Except RangeError _) := by
        split
        · rw [ihRight hright _ (by omega) (by omega), childInheritance, carried_compose,
            carried_listSlice pending]
          rfl
        · rfl
      have hvaluePart : (if position ≤ countOf left ∧ position + amount > countOf left then
            [applyInheritedToMeasure algebra inherited (algebra.algebraMeasureElement value) 1]
          else []) = (if position ≤ countOf left ∧ position + amount > countOf left then
            [carried algebra inherited [value]] else []).map (foldMeasure algebra) := by
        split
        · have hsingle := applyInheritedToMeasure_fold algebra inherited (cons_ne_nil value [])
          rw [foldMeasure_singleton, length_singleton] at hsingle
          rw [hsingle]
          rfl
        · rfl
      dsimp only
      rw [hleftPart, hrightPart, hvaluePart]
      dsimp only [Except.bind]
      rw [← map_append, ← map_append]
      have hflatten : ∀ (condition : Prop) [Decidable condition] (slice : List element),
          carried algebra inherited (if condition then slice else []) =
            (if condition then [carried algebra inherited slice] else []).flatten := by
        intro condition _ slice
        split
        · rw [flatten_singleton]
        · rfl
      rw [hflatten, hflatten, hflatten, ← flatten_append, ← flatten_append, ← append_assoc]
      generalize hparts : ((if position < countOf left then _ else []) ++
        (if position ≤ countOf left ∧ position + amount > countOf left then _ else []) ++
        (if position + amount > countOf left + 1 then _ else []) : List (List element)) = parts
      cases parts with
      | nil =>
          rw [append_eq_nil_iff, append_eq_nil_iff] at hparts
          obtain ⟨⟨hfirst, hsecond⟩, hthird⟩ := hparts
          have hno : ¬ position < countOf left := fun hcase => by
            rw [if_pos hcase] at hfirst
            cases hfirst
          have hno' : ¬ (position ≤ countOf left ∧ position + amount > countOf left) :=
            fun hcase => by
              rw [if_pos hcase] at hsecond
              cases hsecond
          have hno'' : ¬ position + amount > countOf left + 1 := fun hcase => by
            rw [if_pos hcase] at hthird
            cases hthird
          omega
      | cons first parts => exact combineNonEmpty_spec first parts

theorem validateNode_spec [BEq measureValue] [ReflBEq measureValue] (h : Cached algebra root)
    (hbalanced : Balanced root) (hbound : (contents algebra root).length ≤ RrbVector.maxBound) :
    ∃ statistics, validateNode algebra root =
        some (foldMeasure algebra (contents algebra root), statistics) ∧
      statistics.validationCount = countOf root ∧ statistics.validationHeight = heightOf root ∧
      statistics.validationNodeCount = countOf root := by
  induction root with
  | nothing => exact ⟨_, rfl, rfl, rfl, rfl⟩
  | node value left right height count measure pending ihLeft ihRight =>
      have hmeasure := measure_of_cached h
      obtain ⟨hleft, hright, hheight, hcount, -, hcanonical⟩ := h
      obtain ⟨hleftBalanced, hrightBalanced, hlow, hhigh⟩ := hbalanced
      have hleftCount := countOf_eq hleft
      have hrightCount := countOf_eq hright
      rw [contents, length_append, length_cons, length_carried, length_carried] at hbound
      obtain ⟨leftStats, hleftOk, hleftCounts, hleftHeight, hleftNodes⟩ :=
        ihLeft hleft hleftBalanced (by omega)
      obtain ⟨rightStats, hrightOk, hrightCounts, hrightHeight, hrightNodes⟩ :=
        ihRight hright hrightBalanced (by omega)
      have hcanonical : (pending.all fun update => !algebra.algebraIsIdentity update) = true := by
        cases pending with
        | none => rfl
        | some update =>
            rw [Option.all_some, hcanonical update rfl]
            rfl
      have hpart : ∀ {child : Node element measureValue tag}, countOf child =
          (contents algebra child).length → countOf child ≠ 0 →
          applyInheritedToMeasure algebra pending (foldMeasure algebra (contents algebra child))
            (countOf child) =
          foldMeasure algebra (carried algebra pending (contents algebra child)) := by
        intro child hchild hne
        rw [hchild]
        apply applyInheritedToMeasure_fold
        exact ne_nil_of_length_pos (by omega)
      have hnil : ∀ {child : Node element measureValue tag}, countOf child =
          (contents algebra child).length → countOf child = 0 →
          foldMeasure algebra (carried algebra pending (contents algebra child)) =
            algebra.algebraEmptyMeasure := by
        intro child hchild hzero
        rw [length_eq_zero_iff.mp (hchild.symm.trans hzero)]
        rfl
      have hcons : ∀ values : List element, value :: values = [value] ++ values := fun _ => rfl
      rw [validateNode, hleftOk, hrightOk]
      simp only [Option.bind_eq_bind, Option.bind_some]
      rw [hleftCounts, hrightCounts, hleftHeight, hrightHeight, hleftNodes, hrightNodes,
        if_neg (by omega), if_pos]
      · rw [hmeasure]
        refine ⟨_, rfl, rfl, rfl, ?_⟩
        show 1 + countOf left + countOf right = count
        omega
      · rw [Bool.and_eq_true]
        refine ⟨hcanonical, ?_⟩
        have hexpected : (if countOf right = 0 then
              if countOf left = 0 then algebra.algebraMeasureElement value
              else algebra.algebraCombine
                (applyInheritedToMeasure algebra pending
                  (foldMeasure algebra (contents algebra left)) (countOf left))
                (algebra.algebraMeasureElement value)
            else algebra.algebraCombine
              (if countOf left = 0 then algebra.algebraMeasureElement value
              else algebra.algebraCombine
                (applyInheritedToMeasure algebra pending
                  (foldMeasure algebra (contents algebra left)) (countOf left))
                (algebra.algebraMeasureElement value))
              (applyInheritedToMeasure algebra pending
                (foldMeasure algebra (contents algebra right)) (countOf right))) = measure := by
          rw [hmeasure, contents, hcons, foldMeasure_append, foldMeasure_append,
            foldMeasure_singleton]
          by_cases hleftZero : countOf left = 0 <;> by_cases hrightZero : countOf right = 0
          · rw [if_pos hleftZero, if_pos hrightZero, hnil hleftCount hleftZero,
              hnil hrightCount hrightZero, lawful.combine_empty, lawful.empty_combine]
          · rw [if_pos hleftZero, if_neg hrightZero, hnil hleftCount hleftZero,
              hpart hrightCount hrightZero, lawful.empty_combine]
          · rw [if_neg hleftZero, if_pos hrightZero, hpart hleftCount hleftZero,
              hnil hrightCount hrightZero, lawful.combine_empty]
          · rw [if_neg hleftZero, if_neg hrightZero, hpart hleftCount hleftZero,
              hpart hrightCount hrightZero, lawful.combine_assoc]
        rw [hexpected]
        exact BEq.rfl

end Durable7.FingerTree.RangeUpdateSequence
