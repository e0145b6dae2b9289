import Durable7.FingerTree.Measured.Ends

/-!
# Splitting

A split stops at an element across which the predicate turns true.
-/

namespace Durable7.FingerTree.Measured

open Foundation List

variable {v α : Type} [Monoid v] [Measured v α]

section Digits

variable {a : Type} [Measured v a] {predicate : v → Bool}

theorem clear_before {values : List a} {accumulated : v}
    (h : values = [] ∨ predicate (accumulated * foldMeasure values) = false)
    (hstart : predicate accumulated = false) :
    predicate (accumulated * foldMeasure values) = false := by
  rcases h with rfl | hclear
  · rwa [foldMeasure_nil, mul_one]
  · exact hclear

theorem splitDigitFrom_spec {values : List a} {measureBefore : v} (reversedBefore : List a)
    (hnonempty : values ≠ []) (h : predicate (measureBefore * foldMeasure values) = true) :
    ∃ before value after,
      splitDigitFrom predicate measureBefore reversedBefore values =
        .ok (reversedBefore.reverse ++ before, value, after) ∧
      values = before ++ value :: after ∧
      predicate (measureBefore * foldMeasure before * measure value) = true ∧
      (before = [] ∨ predicate (measureBefore * foldMeasure before) = false) := by
  induction values generalizing measureBefore reversedBefore with
  | nil => exact absurd rfl hnonempty
  | cons value values ih =>
      rw [foldMeasure_cons, ← mul_assoc] at h
      by_cases hvalue : predicate (measureBefore * measure value) = true
      · refine ⟨[], value, values, ?_, rfl, ?_, ?_⟩
        · rw [splitDigitFrom, if_pos hvalue, append_nil]
        · rwa [foldMeasure_nil, mul_one]
        · exact .inl rfl
      · have hrest : values ≠ [] := by
          rintro rfl
          rw [foldMeasure_nil, mul_one] at h
          exact hvalue h
        obtain ⟨before, found, after, hsplit, hvalues, hfound, hbefore⟩ :=
          ih (value :: reversedBefore) hrest h
        refine ⟨value :: before, found, after, ?_, ?_, ?_, ?_⟩
        · rw [splitDigitFrom, if_neg hvalue, hsplit, reverse_cons, append_assoc]
          rfl
        · rw [hvalues]
          rfl
        · rwa [foldMeasure_cons, ← mul_assoc]
        · rw [foldMeasure_cons, ← mul_assoc]
          exact .inr (clear_before hbefore (eq_false_of_ne_true hvalue))

theorem splitDigit_spec {digit : Digit a} {accumulated : v}
    (h : predicate (accumulated * measureDigit digit) = true) :
    ∃ before value after, splitDigit predicate accumulated digit = .ok (before, value, after) ∧
      digitToList digit = before ++ value :: after ∧
      predicate (accumulated * foldMeasure before * measure value) = true ∧
      (before = [] ∨ predicate (accumulated * foldMeasure before) = false) := by
  have hnonempty : digitToList digit ≠ [] := by
    intro hnil
    have hpos := length_digitToList_pos digit
    rw [hnil] at hpos
    contradiction
  exact splitDigitFrom_spec [] hnonempty h

omit [Monoid v] [Measured v a] in
theorem length_digitToList_le (digit : Digit a) : (digitToList digit).length ≤ 4 := by
  cases digit <;> simp [digitToList]

theorem listToDigit_spec {values : List a} (hpos : values ≠ []) (hlength : values.length ≤ 4) :
    ∃ digit, listToDigit values = .ok digit ∧ digitToList digit = values := by
  match values with
  | [] => exact absurd rfl hpos
  | [a] => exact ⟨_, rfl, rfl⟩
  | [a, b] => exact ⟨_, rfl, rfl⟩
  | [a, b, c] => exact ⟨_, rfl, rfl⟩
  | [a, b, c, d] => exact ⟨_, rfl, rfl⟩
  | _ :: _ :: _ :: _ :: _ :: _ =>
      simp only [length_cons] at hlength
      omega

end Digits

section Partial

variable {a : Type} [Measured v a] {layer : Layer v α a} (hsound : layer.Sound)
  {values : List a} (hlength : values.length ≤ 4) (hvalues : ∀ value ∈ values, layer.Cached value)

include hsound hlength hvalues

theorem digitListToTree_yields :
    Yields layer (digitListToTree values : Except MeasuredError (FingerTree v a)) values := by
  cases values with
  | nil => exact ⟨.empty, rfl, trivial, rfl⟩
  | cons value values =>
      obtain ⟨digit, hdigit, hlist⟩ := listToDigit_spec (cons_ne_nil value values) hlength
      rw [← hlist] at hvalues ⊢
      refine ⟨digitToTree digit, ?_, digitToTree_valid hsound hvalues, elements_digitToTree digit⟩
      rw [hlist, digitListToTree, hdigit]
      rfl
      simp

theorem treeWithPrefix_yields {middle : FingerTree v (Node v a)} {suffixDigit : Digit a}
    (hmiddle : Valid layer.nodes middle) (hback : layer.Digits suffixDigit) :
    Yields layer (treeWithPrefix values middle suffixDigit)
      (values ++ (elements middle).flatMap nodeToList ++ digitToList suffixDigit) := by
  cases values with
  | nil =>
      refine ⟨deepL middle suffixDigit, rfl,
        borrowL_valid hsound (viewL_valid nodes_sound hmiddle) hback, ?_⟩
      rw [deepL, elements_borrowL, elements_viewL]
      rfl
  | cons value values =>
      obtain ⟨digit, hdigit, hlist⟩ := listToDigit_spec (cons_ne_nil value values) hlength
      rw [← hlist] at hvalues ⊢
      refine ⟨deep digit middle suffixDigit, ?_, valid_deep hsound hvalues hmiddle hback,
        elements_deep _ _ _⟩
      rw [hlist, treeWithPrefix, hdigit]
      rfl
      simp

theorem treeWithSuffix_yields {prefixDigit : Digit a} {middle : FingerTree v (Node v a)}
    (hfront : layer.Digits prefixDigit) (hmiddle : Valid layer.nodes middle) :
    Yields layer (treeWithSuffix prefixDigit middle values)
      (digitToList prefixDigit ++ (elements middle).flatMap nodeToList ++ values) := by
  cases values with
  | nil =>
      refine ⟨deepR prefixDigit middle, rfl,
        borrowR_valid hsound (viewR_valid nodes_sound hmiddle) hfront, ?_⟩
      rw [deepR, elements_borrowR, elements_viewR, append_nil]
  | cons value values =>
      obtain ⟨digit, hdigit, hlist⟩ := listToDigit_spec (cons_ne_nil value values) hlength
      rw [← hlist] at hvalues ⊢
      refine ⟨deep prefixDigit middle digit, ?_, valid_deep hsound hfront hmiddle hvalues,
        elements_deep _ _ _⟩
      rw [hlist, treeWithSuffix, hdigit]
      rfl
      simp

end Partial

/-- The parts of a split from a left context: across the value the predicate turns true. -/
structure SplitsAt {a : Type} [Measured v a] (layer : Layer v α a) (predicate : v → Bool)
    (accumulated : v) (values : List a) (left : FingerTree v a) (value : a)
    (right : FingerTree v a) : Prop where
  left_valid : Valid layer left
  value_cached : layer.Cached value
  right_valid : Valid layer right
  elements_eq : values = elements left ++ value :: elements right
  reached : predicate (accumulated * foldMeasure (elements left) * measure value) = true
  starts : elements left = [] ∨ predicate (accumulated * foldMeasure (elements left)) = false

variable {predicate : v → Bool}

theorem SplitsAt.before {a : Type} [Measured v a] {layer : Layer v α a}
    {accumulated : v} {values : List a} {left right : FingerTree v a} {value : a}
    (h : SplitsAt layer predicate accumulated values left value right)
    (hstart : predicate accumulated = false) :
    predicate (accumulated * foldMeasure (elements left)) = false :=
  clear_before h.starts hstart

section Parts

variable {a : Type} {digit : Digit a} {before after : List a} {value : a}

theorem length_parts (hdigit : digitToList digit = before ++ value :: after) :
    before.length ≤ 4 ∧ after.length ≤ 4 := by
  have hlength := length_digitToList_le digit
  rw [hdigit, length_append, length_cons] at hlength
  omega

omit [Monoid v] [Measured v α] in
theorem cached_parts {layer : Layer v α a} (hdigits : layer.Digits digit)
    (hdigit : digitToList digit = before ++ value :: after) :
    (∀ other ∈ before, layer.Cached other) ∧ ∀ other ∈ after, layer.Cached other := by
  unfold Layer.Digits at hdigits
  rw [hdigit, forall_mem_append, forall_mem_cons] at hdigits
  exact ⟨hdigits.1, hdigits.2.2⟩

end Parts

theorem splitsAt_digit {a : Type} [Measured v a] {layer : Layer v α a}
    {accumulated context : v} (front back : List a) {before after : List a} {value : a}
    {digit : Digit a} {left right : Except MeasuredError (FingerTree v a)}
    (hdigits : layer.Digits digit)
    (hdigit : digitToList digit = before ++ value :: after)
    (hcontext : context = accumulated * foldMeasure front)
    (hleft : Yields layer left (front ++ before)) (hright : Yields layer right (after ++ back))
    (hreached : predicate (context * foldMeasure before * measure value) = true)
    (hbefore : front ++ before = [] ∨ predicate (context * foldMeasure before) = false) :
    ∃ leftTree rightTree, left = .ok leftTree ∧ right = .ok rightTree ∧
      SplitsAt layer predicate accumulated (front ++ digitToList digit ++ back) leftTree value
        rightTree := by
  obtain ⟨leftTree, rfl, hleftValid, hleftList⟩ := hleft
  obtain ⟨rightTree, rfl, hrightValid, hrightList⟩ := hright
  refine ⟨leftTree, rightTree, rfl, rfl, hleftValid, ?_, hrightValid, ?_, ?_, ?_⟩
  · apply hdigits
    rw [hdigit]
    exact mem_append_right _ mem_cons_self
  · rw [hleftList, hrightList, hdigit]
    simp
  · rwa [hleftList, foldMeasure_append, ← mul_assoc, ← hcontext]
  · rwa [hleftList, foldMeasure_append, ← mul_assoc, ← hcontext]

theorem splitTree_spec {a : Type} [Measured v a] {layer : Layer v α a} (hsound : layer.Sound)
    {accumulated : v} :
    ∀ {tree : FingerTree v a}, Valid layer tree → null tree = false →
      predicate (accumulated * measureTree tree) = true →
      ∃ left value right, splitTree predicate accumulated tree = .ok (left, value, right) ∧
        SplitsAt layer predicate accumulated (elements tree) left value right
  | .empty, _, hnonempty, _ => by cases hnonempty
  | .single value, hvalue, _, h => by
      refine ⟨.empty, value, .empty, rfl, trivial, hvalue, trivial, rfl, ?_, ?_⟩
      · rw [elements, foldMeasure_nil, mul_one]
        exact h
      · exact .inl rfl
  | .deep total prefixDigit middle suffixDigit, hvalid, _, h => by
      obtain ⟨-, hfront, hmiddle, hback⟩ := valid_deep_iff.mp hvalid
      have hmeasure : (measureTree middle : v) =
          foldMeasure ((elements middle).flatMap nodeToList) := by
        rw [measureTree_elements nodes_sound hmiddle, foldMeasure_nodes hsound hmiddle.cached]
      rw [measureTree_elements hsound hvalid, elements, foldMeasure_append, foldMeasure_append,
        ← hmeasure, ← mul_assoc, ← mul_assoc] at h
      rw [elements]
      unfold splitTree
      dsimp only
      split
      · rename_i hprefixed
        obtain ⟨before, value, after, hsplit, hdigit, hreached, hbefore⟩ :=
          splitDigit_spec hprefixed
        obtain ⟨hbeforeLength, hafterLength⟩ := length_parts hdigit
        obtain ⟨hbeforeCached, hafterCached⟩ := cached_parts hfront hdigit
        have hrest := treeWithPrefix_yields hsound hafterLength hafterCached hmiddle hback
        rw [append_assoc] at hrest
        obtain ⟨left, right, hleft, hright, hparts⟩ := splitsAt_digit [] _ hfront hdigit
          (mul_one accumulated).symm
          (show Yields layer (digitListToTree before) ([] ++ before) from
            digitListToTree_yields hsound hbeforeLength hbeforeCached)
          hrest hreached hbefore
        refine ⟨left, value, right, ?_, ?_⟩
        · rw [hsplit]
          dsimp only [Except.bind]
          rw [hleft, hright]
          rfl
        · rwa [nil_append, ← append_assoc] at hparts
      · rename_i hprefixed
        split
        · rename_i hreaches
          have hnonempty : null middle = false := by
            cases middle with
            | empty =>
                rw [measureTree, mul_one] at hreaches
                exact absurd hreaches hprefixed
            | single node => rfl
            | deep => rfl
          obtain ⟨leftMiddle, node, rightMiddle, hsplitMiddle, hleftMiddle, hnode, hrightMiddle,
            hlist, hreachedNode, hstartsNode⟩ :=
            splitTree_spec nodes_sound hmiddle hnonempty hreaches
          rw [← measureTree_elements nodes_sound hleftMiddle, measure_node hsound hnode]
            at hreachedNode
          have hreachedDigit : predicate (accumulated * measureDigit prefixDigit *
              measureTree leftMiddle * measureDigit (nodeToDigit node)) = true := hreachedNode
          have hbeforeMiddle := clear_before hstartsNode (eq_false_of_ne_true hprefixed)
          rw [← measureTree_elements nodes_sound hleftMiddle] at hbeforeMiddle
          obtain ⟨before, value, after, hsplit, hdigit, hreached, hbefore⟩ :=
            splitDigit_spec hreachedDigit
          obtain ⟨hbeforeLength, hafterLength⟩ := length_parts hdigit
          obtain ⟨hbeforeCached, hafterCached⟩ := cached_parts hnode.2 hdigit
          have hcontext : accumulated * measureDigit prefixDigit * measureTree leftMiddle =
              accumulated * foldMeasure
                (digitToList prefixDigit ++ (elements leftMiddle).flatMap nodeToList) := by
            rw [foldMeasure_append, ← foldMeasure_nodes hsound hleftMiddle.cached,
              ← measureTree_elements nodes_sound hleftMiddle, ← mul_assoc]
            rfl
          have hrest := treeWithPrefix_yields hsound hafterLength hafterCached hrightMiddle hback
          rw [append_assoc] at hrest
          obtain ⟨left, right, hleft, hright, hparts⟩ := splitsAt_digit _ _ hnode.2 hdigit hcontext
            (treeWithSuffix_yields hsound hbeforeLength hbeforeCached hfront hleftMiddle)
            hrest hreached (.inr (clear_before hbefore hbeforeMiddle))
          refine ⟨left, value, right, ?_, ?_⟩
          · rw [hsplitMiddle]
            dsimp only [except_ok_bind]
            rw [hsplit]
            dsimp only [Except.bind]
            rw [hleft, hright]
            rfl
          · rw [hlist, flatMap_append, flatMap_cons]
            simpa only [append_assoc, nodeToList] using hparts
        · rename_i hreaches
          have hreachedDigit : predicate (accumulated * measureDigit prefixDigit *
              measureTree middle * measureDigit suffixDigit) = true := h
          obtain ⟨before, value, after, hsplit, hdigit, hreached, hbefore⟩ :=
            splitDigit_spec hreachedDigit
          obtain ⟨hbeforeLength, hafterLength⟩ := length_parts hdigit
          obtain ⟨hbeforeCached, hafterCached⟩ := cached_parts hback hdigit
          have hcontext : accumulated * measureDigit prefixDigit * measureTree middle =
              accumulated * foldMeasure
                (digitToList prefixDigit ++ (elements middle).flatMap nodeToList) := by
            rw [foldMeasure_append, ← hmeasure, ← mul_assoc]
            rfl
          have hrest : Yields layer (digitListToTree after) (after ++ []) := by
            rw [append_nil]
            exact digitListToTree_yields hsound hafterLength hafterCached
          obtain ⟨left, right, hleft, hright, hparts⟩ := splitsAt_digit _ [] hback hdigit hcontext
            (treeWithSuffix_yields hsound hbeforeLength hbeforeCached hfront hmiddle)
            hrest hreached (.inr (clear_before hbefore (eq_false_of_ne_true hreaches)))
          refine ⟨left, value, right, ?_, ?_⟩
          · rw [hsplit]
            dsimp only [Except.bind]
            rw [hleft, hright]
            rfl
          · rwa [append_nil] at hparts

end Durable7.FingerTree.Measured
