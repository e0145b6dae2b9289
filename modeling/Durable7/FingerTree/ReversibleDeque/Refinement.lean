import Durable7.FingerTree.ReversibleDeque.Operations
import Mathlib.Data.List.Flatten

/-!
# Elements of reversible deques

A pending flag reverses the elements below it.  Every operation either makes a valid tree of
the elements it should have or reports that there are too many of them.
-/

namespace Durable7.FingerTree.ReversibleDeque

open Foundation List Nat

variable {α : Type}

/-! ## Elements -/

def orient (reversed : Bool) (values : List α) : List α :=
  if reversed then values.reverse else values

theorem orient_not (reversed : Bool) (values : List α) :
    orient (!reversed) values = (orient reversed values).reverse := by
  cases reversed with
  | false => rfl
  | true => exact (reverse_reverse values).symm

mutual

def elemElements : Elem α → List α
  | .leaf value => [value]
  | .node reversed _ children => orient reversed (digitElements children)

def digitElements : List (Elem α) → List α
  | [] => []
  | element :: rest => elemElements element ++ digitElements rest

end

def treeElements : Tree α → List α
  | .empty => []
  | .single element => elemElements element
  | .deep reversed _ prefixDigit middle suffixDigit =>
      orient reversed
        (digitElements prefixDigit ++ (treeElements middle ++ digitElements suffixDigit))

theorem digitElements_nil : digitElements ([] : List (Elem α)) = [] := rfl

theorem digitElements_cons (element : Elem α) (rest : List (Elem α)) :
    digitElements (element :: rest) = elemElements element ++ digitElements rest := rfl

theorem digitElements_singleton (element : Elem α) :
    digitElements [element] = elemElements element := append_nil _

theorem digitElements_append (left right : List (Elem α)) :
    digitElements (left ++ right) = digitElements left ++ digitElements right := by
  induction left with
  | nil => rfl
  | cons element left ih =>
      rw [cons_append, digitElements_cons, digitElements_cons, ih, append_assoc]

theorem elemElements_mirror (element : Elem α) :
    elemElements (elemMirror element) = (elemElements element).reverse := by
  cases element with
  | leaf value => rfl
  | node reversed size children => exact orient_not reversed _

theorem digitElements_mirror (elements : List (Elem α)) :
    digitElements (mirrorReversed elements) = (digitElements elements).reverse := by
  unfold mirrorReversed
  induction elements with
  | nil => rfl
  | cons element elements ih =>
      rw [reverse_cons, map_append, digitElements_append, ih, digitElements_cons,
        reverse_append, map_singleton, digitElements_singleton, elemElements_mirror]

theorem treeElements_mirror (tree : Tree α) :
    treeElements (treeMirror tree) = (treeElements tree).reverse := by
  cases tree with
  | empty => rfl
  | single element => exact elemElements_mirror element
  | deep reversed size prefixDigit middle suffixDigit => exact orient_not reversed _

theorem digitElements_logicalChildren (element : Elem α) :
    digitElements (logicalChildren element) = elemElements element := by
  cases element with
  | leaf value => rfl
  | node reversed size children =>
      cases reversed with
      | false => rfl
      | true => exact digitElements_mirror children

theorem treeElements_logical (reversed : Bool) (size : Int) (prefixDigit : List (Elem α))
    (middle : Tree α) (suffixDigit : List (Elem α)) :
    treeElements (.deep reversed size prefixDigit middle suffixDigit) =
      digitElements (logicalPrefix (.deep reversed size prefixDigit middle suffixDigit)) ++
        (treeElements (logicalMiddle (.deep reversed size prefixDigit middle suffixDigit)) ++
          digitElements (logicalSuffix (.deep reversed size prefixDigit middle suffixDigit))) := by
  cases reversed with
  | false => rfl
  | true =>
      change (digitElements prefixDigit ++
        (treeElements middle ++ digitElements suffixDigit)).reverse =
        digitElements (mirrorReversed suffixDigit) ++
          (treeElements (treeMirror middle) ++ digitElements (mirrorReversed prefixDigit))
      rw [digitElements_mirror, digitElements_mirror, treeElements_mirror, reverse_append,
        reverse_append, append_assoc]

/-! ## Validity -/

/-- An element of a level has that depth everywhere and exact counts. -/
def ElemValid : Nat → Elem α → Prop
  | 0, .leaf _ => True
  | level + 1, .node _ size children =>
      (children.length = 2 ∨ children.length = 3) ∧
        size = (digitElements children).length ∧ ∀ child ∈ children, ElemValid level child
  | _, _ => False

structure DigitValid (level : Nat) (elements : List (Elem α)) : Prop where
  nonempty : 1 ≤ elements.length
  small : elements.length ≤ 3
  items : ∀ element ∈ elements, ElemValid level element

def TreeValid : Nat → Tree α → Prop
  | _, .empty => True
  | level, .single element => ElemValid level element
  | level, .deep reversed size prefixDigit middle suffixDigit =>
      DigitValid level prefixDigit ∧ TreeValid (level + 1) middle ∧ DigitValid level suffixDigit ∧
        size = (treeElements (.deep reversed size prefixDigit middle suffixDigit)).length

theorem orient_length (reversed : Bool) (values : List α) :
    (orient reversed values).length = values.length := by
  cases reversed with
  | false => rfl
  | true => exact length_reverse

variable {level : Nat} {element : Elem α}

theorem elemValid_mirror (h : ElemValid level element) : ElemValid level (elemMirror element) := by
  cases element with
  | leaf value => exact h
  | node reversed size children =>
      cases level with
      | zero => exact h.elim
      | succ level => exact h

variable {elements : List (Elem α)}

theorem items_mirror (h : ∀ element ∈ elements, ElemValid level element) :
    ∀ element ∈ mirrorReversed elements, ElemValid level element := by
  intro element helement
  obtain ⟨origin, horigin, rfl⟩ := mem_map.mp helement
  exact elemValid_mirror (h origin (mem_reverse.mp horigin))

theorem length_mirrorReversed (elements : List (Elem α)) :
    (mirrorReversed elements).length = elements.length := by
  rw [mirrorReversed, length_map, length_reverse]

theorem digitValid_mirror (h : DigitValid level elements) :
    DigitValid level (mirrorReversed elements) :=
  ⟨length_mirrorReversed elements ▸ h.nonempty, length_mirrorReversed elements ▸ h.small,
    items_mirror h.items⟩

theorem treeValid_mirror {tree : Tree α} (h : TreeValid level tree) :
    TreeValid level (treeMirror tree) := by
  cases tree with
  | empty => exact h
  | single element => exact elemValid_mirror h
  | deep reversed size prefixDigit middle suffixDigit =>
      obtain ⟨hfront, hmiddle, hsuffix, hsize⟩ := h
      refine ⟨hfront, hmiddle, hsuffix, ?_⟩
      rw [treeElements, orient_length] at hsize ⊢
      exact hsize

theorem digitValid_children (h : ElemValid (level + 1) element) :
    DigitValid level (logicalChildren element) := by
  cases element with
  | leaf value => exact h.elim
  | node reversed size children =>
      obtain ⟨hlength, -, hitems⟩ := h
      have hdigit : DigitValid level children := ⟨by omega, by omega, hitems⟩
      cases reversed with
      | false => exact hdigit
      | true => exact digitValid_mirror hdigit

theorem DigitValid.cases (h : DigitValid level elements) :
    (∃ a, elements = [a]) ∨ (∃ a b, elements = [a, b]) ∨ ∃ a b c, elements = [a, b, c] := by
  obtain ⟨hnonempty, hsmall, -⟩ := h
  rcases elements with _ | ⟨a, _ | ⟨b, _ | ⟨c, _ | ⟨d, rest⟩⟩⟩⟩
  · exact absurd hnonempty (not_succ_le_zero 0)
  · exact .inl ⟨a, rfl⟩
  · exact .inr (.inl ⟨a, b, rfl⟩)
  · exact .inr (.inr ⟨a, b, c, rfl⟩)
  · simp only [length_cons] at hsmall
    omega

/-- A tree with the logical parts that its flag makes of it. -/
inductive Layer : Tree α → List (Elem α) → Tree α → List (Elem α) → Prop where
  | deep (reversed : Bool) (size : Int) (prefixDigit : List (Elem α)) (middle : Tree α)
      (suffixDigit : List (Elem α)) :
      Layer (.deep reversed size prefixDigit middle suffixDigit)
        (logicalPrefix (.deep reversed size prefixDigit middle suffixDigit))
        (logicalMiddle (.deep reversed size prefixDigit middle suffixDigit))
        (logicalSuffix (.deep reversed size prefixDigit middle suffixDigit))

/-- A layer of a valid tree: its digits, its valid middle and its elements. -/
structure LayerValid (level : Nat) (tree : Tree α) (front : List (Elem α)) (middle : Tree α)
    (back : List (Elem α)) : Prop where
  layer : Layer tree front middle back
  frontValid : DigitValid level front
  middleValid : TreeValid (level + 1) middle
  backValid : DigitValid level back
  elements_eq : treeElements tree =
    digitElements front ++ (treeElements middle ++ digitElements back)
  spine_eq : spine tree = spine middle + 1

inductive TreeShape (level : Nat) : Tree α → Prop where
  | empty : TreeShape level .empty
  | single {element : Elem α} (h : ElemValid level element) : TreeShape level (.single element)
  | deep {tree middle : Tree α} {front back : List (Elem α)}
      (h : LayerValid level tree front middle back) : TreeShape level tree

theorem treeShape {tree : Tree α} (h : TreeValid level tree) : TreeShape level tree := by
  cases tree with
  | empty => exact .empty
  | single element => exact .single h
  | deep reversed size prefixDigit middle suffixDigit =>
      have hspine := spine_logicalMiddle reversed size prefixDigit suffixDigit middle
      have helements := treeElements_logical reversed size prefixDigit middle suffixDigit
      obtain ⟨hfront, hmiddle, hsuffix, -⟩ := h
      refine .deep ⟨.deep reversed size prefixDigit middle suffixDigit, ?_, ?_, ?_, helements, ?_⟩
      · cases reversed with
        | false => exact hfront
        | true => exact digitValid_mirror hsuffix
      · cases reversed with
        | false => exact hmiddle
        | true => exact treeValid_mirror hmiddle
      · cases reversed with
        | false => exact hsuffix
        | true => exact digitValid_mirror hfront
      · rw [hspine]
        rfl

theorem elemSize_eq (h : ElemValid level element) :
    elemSize element = (elemElements element).length := by
  cases element with
  | leaf value => rfl
  | node reversed size children =>
      cases level with
      | zero => exact h.elim
      | succ level =>
          rw [elemElements, orient_length]
          exact h.2.1

theorem treeSize_eq {tree : Tree α} (h : TreeValid level tree) :
    treeSize tree = (treeElements tree).length := by
  cases tree with
  | empty => rfl
  | single element => exact elemSize_eq h
  | deep reversed size prefixDigit middle suffixDigit => exact h.2.2.2

/-! ## Outcomes -/

def Fits (values : List α) : Prop := (values.length : Int) ≤ maxBound

/-- The outcome shows the values unless there are too many of them. -/
def Makes {β : Type} (shows : β → List α → Prop) (outcome : Outcome β) (values : List α) : Prop :=
  (Fits values ∧ ∃ made, outcome = .ok made ∧ shows made values) ∨
    (¬ Fits values ∧ outcome = .error .lengthOverflow)

theorem Makes.ok {β : Type} {shows : β → List α → Prop} {made : β} {values : List α}
    (hfits : Fits values) (h : shows made values) : Makes shows (.ok made) values :=
  .inl ⟨hfits, made, rfl, h⟩

theorem Makes.of_fits {β : Type} {shows : β → List α → Prop} {outcome : Outcome β}
    {values : List α} (h : Makes shows outcome values) (hfits : Fits values) :
    ∃ made, outcome = .ok made ∧ shows made values := by
  rcases h with ⟨-, hmade⟩ | ⟨hnot, -⟩
  · exact hmade
  · exact absurd hfits hnot

theorem fits_nil : Fits ([] : List α) := by
  change (0 : Int) ≤ maxBound
  decide

theorem fits_of_le {part whole : List α} (hle : part.length ≤ whole.length) (h : Fits whole) :
    Fits part := by
  unfold Fits at h ⊢
  omega

theorem Makes.bind {β γ : Type} {shows : β → List α → Prop} {shows' : γ → List α → Prop}
    {outcome : Outcome β} {next : β → Outcome γ} {part whole : List α}
    (h : Makes shows outcome part) (hle : part.length ≤ whole.length)
    (hnext : ∀ made, Fits part → shows made part → Makes shows' (next made) whole) :
    Makes shows' (outcome >>= next) whole := by
  rcases h with ⟨hfits, made, rfl, hshows⟩ | ⟨hnot, rfl⟩
  · exact hnext made hfits hshows
  · exact .inr ⟨fun hfits => hnot (fits_of_le hle hfits), rfl⟩

def Counts (size : Int) (values : List α) : Prop := size = values.length

theorem checkedAdd_makes {left right : Int} {front back : List α} (hleft : Counts left front)
    (hright : Counts right back) : Makes Counts (checkedAdd left right) (front ++ back) := by
  rw [Counts] at hleft hright
  unfold checkedAdd Makes Fits Counts
  rw [length_append, if_neg (by omega)]
  by_cases hlarge : right > maxBound - left
  · rw [if_pos hlarge]
    exact .inr ⟨by omega, rfl⟩
  · rw [if_neg hlarge]
    exact .inl ⟨by omega, _, rfl, by omega⟩

theorem checkedSum_makes (h : ∀ element ∈ elements, ElemValid level element) :
    Makes Counts (checkedSum (elements.map elemSize)) (digitElements elements) := by
  have hfold : ∀ (elements : List (Elem α)) (front : List α) (size : Int),
      (∀ element ∈ elements, ElemValid level element) → Fits front → Counts size front →
      Makes Counts ((elements.map elemSize).foldlM checkedAdd size)
        (front ++ digitElements elements) := by
    intro elements
    induction elements with
    | nil =>
        intro front size _ hfits hcounts
        rw [digitElements_nil, append_nil]
        exact .ok hfits hcounts
    | cons element elements ih =>
        intro front size hitems hfits hcounts
        rw [map_cons, foldlM_cons, digitElements_cons, ← append_assoc]
        refine (checkedAdd_makes hcounts
          (elemSize_eq (hitems element mem_cons_self))).bind ?_ fun sum hsum hshows => ?_
        · exact (prefix_append _ _).length_le
        · exact ih _ sum (fun other hother => hitems other (mem_cons_of_mem _ hother)) hsum hshows
  exact hfold elements [] 0 h fits_nil rfl

def ShowsElem (level : Nat) (element : Elem α) (values : List α) : Prop :=
  ElemValid level element ∧ elemElements element = values

def ShowsTree (level : Nat) (tree : Tree α) (values : List α) : Prop :=
  TreeValid level tree ∧ treeElements tree = values

theorem makeNode_makes {children : List (Elem α)}
    (hlength : children.length = 2 ∨ children.length = 3)
    (h : ∀ child ∈ children, ElemValid level child) :
    Makes (ShowsElem (level + 1)) (makeNode children) (digitElements children) := by
  refine (checkedSum_makes h).bind (le_refl _) fun size hfits hcounts => ?_
  exact .ok hfits ⟨⟨hlength, hcounts, h⟩, rfl⟩

theorem makeDeep_makes {prefixDigit suffixDigit : List (Elem α)} {middle : Tree α}
    (hfront : DigitValid level prefixDigit) (hmiddle : TreeValid (level + 1) middle)
    (hsuffix : DigitValid level suffixDigit) :
    Makes (ShowsTree level) (makeDeep prefixDigit middle suffixDigit)
      (digitElements prefixDigit ++ (treeElements middle ++ digitElements suffixDigit)) := by
  have hwhole : (digitElements prefixDigit ++
      (treeElements middle ++ digitElements suffixDigit)).length =
      (digitElements prefixDigit).length +
        ((treeElements middle).length + (digitElements suffixDigit).length) := by
    rw [length_append, length_append]
  refine (checkedSum_makes hfront.items).bind (by omega) fun prefixSize _ hfrontSize => ?_
  refine (checkedSum_makes hsuffix.items).bind (by omega) fun suffixSize _ hsuffixSize => ?_
  refine (checkedAdd_makes (treeSize_eq hmiddle) hsuffixSize).bind
    (by rw [length_append]; omega) fun restSize _ hrestSize => ?_
  refine (checkedAdd_makes hfrontSize hrestSize).bind (le_refl _) fun size hfits hsize => ?_
  exact .ok hfits ⟨⟨hfront, hmiddle, hsuffix, hsize⟩, rfl⟩

theorem digitValid_singleton (h : ElemValid level element) : DigitValid level [element] :=
  ⟨le_refl _, le_of_ble_eq_true rfl, fun _ hother => mem_singleton.mp hother ▸ h⟩

theorem fromDigit_makes (hsmall : elements.length ≤ 3)
    (h : ∀ element ∈ elements, ElemValid level element) (hfits : Fits (digitElements elements)) :
    Makes (ShowsTree level) (fromDigit elements) (digitElements elements) := by
  match elements with
  | [] => exact .ok hfits ⟨trivial, rfl⟩
  | [element] => exact .ok hfits ⟨h element mem_cons_self, (digitElements_singleton element).symm⟩
  | element :: next :: rest =>
      have hmade := makeDeep_makes (digitValid_singleton (h element mem_cons_self))
        (show TreeValid (level + 1) (.empty : Tree α) from trivial)
        (⟨succ_pos _, le_of_succ_le_succ (le_succ_of_le hsmall),
          fun other hother => h other (mem_cons_of_mem _ hother)⟩ :
          DigitValid level (next :: rest))
      rw [digitElements_singleton] at hmade
      exact hmade

end Durable7.FingerTree.ReversibleDeque
