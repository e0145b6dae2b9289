import Mathlib.Algebra.BigOperators.Group.List.Basic
import Durable7.Foundation.Outcome

/-!
# Measured finger trees

A nested type: the middle of a tree over `a` is a tree over nodes of `a`.  Every error
call of the source is a `MeasuredError`.  The suspended middle of the source is computed
at once here, so an error that a suspension would hide shows up as well.
-/

set_option linter.dupNamespace false

namespace Durable7.FingerTree

class Measured (v a : Type) where
  measure : a → v

namespace Measured

inductive Digit (a : Type) where
  | one (first : a)
  | two (first second : a)
  | three (first second third : a)
  | four (first second third fourth : a)
  deriving DecidableEq

inductive Node (v a : Type) where
  | node2 (value : v) (first second : a)
  | node3 (value : v) (first second third : a)
  deriving DecidableEq

inductive FingerTree (v : Type) : Type → Type 1 where
  | empty {a : Type} : FingerTree v a
  | single {a : Type} (value : a) : FingerTree v a
  | deep {a : Type} (value : v) (prefixDigit : Digit a) (middle : FingerTree v (Node v a))
      (suffixDigit : Digit a) : FingerTree v a

inductive ViewL (v a : Type) : Type 1 where
  | emptyL
  | consL (value : a) (rest : FingerTree v a)

inductive ViewR (v a : Type) : Type 1 where
  | emptyR
  | snocR (rest : FingerTree v a) (value : a)

inductive MeasuredError where
  | nodes
  | splitTree
  | splitDigit
  | listToDigit
  | consDigit
  | snocDigit
  deriving DecidableEq

def MeasuredError.message : MeasuredError → String
  | .nodes => "Durable7.FingerTree.Measured.nodes: fewer than two elements"
  | .splitTree => "Durable7.FingerTree.Measured.splitTree: empty tree"
  | .splitDigit => "Durable7.FingerTree.Measured.splitDigit: predicate missed digit"
  | .listToDigit => "Durable7.FingerTree.Measured.listToDigit: invalid digit length"
  | .consDigit => "Durable7.FingerTree.Measured.consDigit: full digit"
  | .snocDigit => "Durable7.FingerTree.Measured.snocDigit: full digit"

variable {v a : Type}

instance : Measured v (Node v a) where
  measure
    | .node2 value _ _ => value
    | .node3 value _ _ _ => value

/-! ## Digits and nodes -/

def digitToList : Digit a → List a
  | .one a => [a]
  | .two a b => [a, b]
  | .three a b c => [a, b, c]
  | .four a b c d => [a, b, c, d]

def listToDigit : List a → Except MeasuredError (Digit a)
  | [a] => .ok (.one a)
  | [a, b] => .ok (.two a b)
  | [a, b, c] => .ok (.three a b c)
  | [a, b, c, d] => .ok (.four a b c d)
  | _ => .error .listToDigit

def consDigit (value : a) : Digit a → Except MeasuredError (Digit a)
  | .one a => .ok (.two value a)
  | .two a b => .ok (.three value a b)
  | .three a b c => .ok (.four value a b c)
  | .four _ _ _ _ => .error .consDigit

def snocDigit (digit : Digit a) (value : a) : Except MeasuredError (Digit a) :=
  match digit with
  | .one a => .ok (.two a value)
  | .two a b => .ok (.three a b value)
  | .three a b c => .ok (.four a b c value)
  | .four _ _ _ _ => .error .snocDigit

def nodeToDigit : Node v a → Digit a
  | .node2 _ a b => .two a b
  | .node3 _ a b c => .three a b c

variable [Monoid v]

section Elements

variable [Measured v a]

def measureDigit (digit : Digit a) : v := ((digitToList digit).map measure).prod

def node2 (a₁ a₂ : a) : Node v a := .node2 (measure a₁ * measure a₂) a₁ a₂

def node3 (a₁ a₂ a₃ : a) : Node v a := .node3 (measure a₁ * measure a₂ * measure a₃) a₁ a₂ a₃

def nodes : List a → Except MeasuredError (List (Node v a))
  | [a, b] => .ok [node2 a b]
  | [a, b, c] => .ok [node3 a b c]
  | [a, b, c, d] => .ok [node2 a b, node2 c d]
  | [a, b, c, d, e] => .ok [node2 a b, node3 c d e]
  | [a, b, c, d, e, f] => .ok [node3 a b c, node3 d e f]
  | a :: b :: c :: rest => do
      let others ← nodes rest
      .ok (node3 a b c :: others)
  | _ => .error .nodes

def measureTree : FingerTree v a → v
  | .empty => 1
  | .single value => measure value
  | .deep value _ _ _ => value

def deep (prefixDigit : Digit a) (middle : FingerTree v (Node v a)) (suffixDigit : Digit a) :
    FingerTree v a :=
  .deep (measureDigit prefixDigit * measureTree middle * measureDigit suffixDigit) prefixDigit
    middle suffixDigit

def digitToTree : Digit a → FingerTree v a
  | .one a => .single a
  | .two a b => deep (.one a) .empty (.one b)
  | .three a b c => deep (.two a b) .empty (.one c)
  | .four a b c d => deep (.two a b) .empty (.two c d)

def digitListToTree : List a → Except MeasuredError (FingerTree v a)
  | [] => .ok .empty
  | values => (listToDigit values).bind fun digit => .ok (digitToTree digit)

end Elements

omit [Monoid v] in
def null : FingerTree v a → Bool
  | .empty => true
  | _ => false

/-! ## Ends -/

def cons {a : Type} [Measured v a] (value : a) :
    FingerTree v a → Except MeasuredError (FingerTree v a)
  | .empty => .ok (.single value)
  | .single old => .ok (deep (.one value) .empty (.one old))
  | .deep total (.four a b c d) middle suffixDigit => do
      let middle' ← cons (node3 b c d) middle
      .ok (.deep (measure value * total) (.two value a) middle' suffixDigit)
  | .deep total prefixDigit middle suffixDigit =>
      (consDigit value prefixDigit).bind fun prefixDigit' =>
        .ok (.deep (measure value * total) prefixDigit' middle suffixDigit)

def snoc {a : Type} [Measured v a] (tree : FingerTree v a) (value : a) :
    Except MeasuredError (FingerTree v a) :=
  match tree with
  | .empty => .ok (.single value)
  | .single old => .ok (deep (.one old) .empty (.one value))
  | .deep total prefixDigit middle (.four a b c d) => do
      let middle' ← snoc middle (node3 a b c)
      .ok (.deep (total * measure value) prefixDigit middle' (.two d value))
  | .deep total prefixDigit middle suffixDigit =>
      (snocDigit suffixDigit value).bind fun suffixDigit' =>
        .ok (.deep (total * measure value) prefixDigit middle suffixDigit')

/-- The body of `deepL` at the view of its middle. -/
def borrowL [Measured v a] (view : ViewL v (Node v a)) (suffixDigit : Digit a) : FingerTree v a :=
  match view with
  | .emptyL => digitToTree suffixDigit
  | .consL node middle' => deep (nodeToDigit node) middle' suffixDigit

/-- The body of `deepR` at the view of its middle. -/
def borrowR [Measured v a] (prefixDigit : Digit a) (view : ViewR v (Node v a)) : FingerTree v a :=
  match view with
  | .emptyR => digitToTree prefixDigit
  | .snocR middle' node => deep prefixDigit middle' (nodeToDigit node)

def viewL {a : Type} [Measured v a] : FingerTree v a → ViewL v a
  | .empty => .emptyL
  | .single value => .consL value .empty
  | .deep _ (.one value) middle suffixDigit => .consL value (borrowL (viewL middle) suffixDigit)
  | .deep _ (.two a b) middle suffixDigit => .consL a (deep (.one b) middle suffixDigit)
  | .deep _ (.three a b c) middle suffixDigit => .consL a (deep (.two b c) middle suffixDigit)
  | .deep _ (.four a b c d) middle suffixDigit => .consL a (deep (.three b c d) middle suffixDigit)

def viewR {a : Type} [Measured v a] : FingerTree v a → ViewR v a
  | .empty => .emptyR
  | .single value => .snocR .empty value
  | .deep _ prefixDigit middle (.one value) => .snocR (borrowR prefixDigit (viewR middle)) value
  | .deep _ prefixDigit middle (.two a b) => .snocR (deep prefixDigit middle (.one a)) b
  | .deep _ prefixDigit middle (.three a b c) => .snocR (deep prefixDigit middle (.two a b)) c
  | .deep _ prefixDigit middle (.four a b c d) => .snocR (deep prefixDigit middle (.three a b c)) d

section Parts

variable [Measured v a]

def deepL (middle : FingerTree v (Node v a)) (suffixDigit : Digit a) : FingerTree v a :=
  borrowL (viewL middle) suffixDigit

def deepR (prefixDigit : Digit a) (middle : FingerTree v (Node v a)) : FingerTree v a :=
  borrowR prefixDigit (viewR middle)

def treeWithPrefix (values : List a) (middle : FingerTree v (Node v a)) (suffixDigit : Digit a) :
    Except MeasuredError (FingerTree v a) :=
  match values with
  | [] => .ok (deepL middle suffixDigit)
  | values => (listToDigit values).bind fun digit => .ok (deep digit middle suffixDigit)

def treeWithSuffix (prefixDigit : Digit a) (middle : FingerTree v (Node v a)) (values : List a) :
    Except MeasuredError (FingerTree v a) :=
  match values with
  | [] => .ok (deepR prefixDigit middle)
  | values => (listToDigit values).bind fun digit => .ok (deep prefixDigit middle digit)

def head (tree : FingerTree v a) : Option a :=
  match viewL tree with
  | .emptyL => none
  | .consL value _ => some value

def last (tree : FingerTree v a) : Option a :=
  match viewR tree with
  | .emptyR => none
  | .snocR _ value => some value

def prependList (values : List a) (tree : FingerTree v a) : Except MeasuredError (FingerTree v a) :=
  values.foldr (fun value result => result.bind (cons value)) (.ok tree)

def appendList (tree : FingerTree v a) (values : List a) : Except MeasuredError (FingerTree v a) :=
  values.foldlM snoc tree

end Parts

def app3 {a : Type} [Measured v a] :
    FingerTree v a → List a → FingerTree v a → Except MeasuredError (FingerTree v a)
  | .empty, values, right => prependList values right
  | left, values, .empty => appendList left values
  | .single value, values, right => do
      let rest ← prependList values right
      cons value rest
  | left, values, .single value => do
      let rest ← appendList left values
      snoc rest value
  | .deep _ prefixDigit middle₁ suffixDigit, values,
      .deep _ prefixDigit' middle₂ suffixDigit' =>
      (nodes (digitToList suffixDigit ++ values ++ digitToList prefixDigit')).bind fun between => do
        let middle ← app3 middle₁ between middle₂
        .ok (deep prefixDigit middle suffixDigit')

section Whole

variable [Measured v a]

def append (left right : FingerTree v a) : Except MeasuredError (FingerTree v a) :=
  app3 left [] right

def fromList (values : List a) : Except MeasuredError (FingerTree v a) := values.foldlM snoc .empty

end Whole

def splitDigitFrom [Measured v a] (predicate : v → Bool) (measureBefore : v)
    (reversedBefore : List a) : List a → Except MeasuredError (List a × a × List a)
  | [] => .error .splitDigit
  | value :: rest =>
      if predicate (measureBefore * measure value) then .ok (reversedBefore.reverse, value, rest)
      else splitDigitFrom predicate (measureBefore * measure value) (value :: reversedBefore) rest

def splitDigit [Measured v a] (predicate : v → Bool) (accumulated : v) (digit : Digit a) :
    Except MeasuredError (List a × a × List a) :=
  splitDigitFrom predicate accumulated [] (digitToList digit)

def splitTree {a : Type} [Measured v a] (predicate : v → Bool) (accumulated : v) :
    FingerTree v a → Except MeasuredError (FingerTree v a × a × FingerTree v a)
  | .empty => .error .splitTree
  | .single value => .ok (.empty, value, .empty)
  | .deep _ prefixDigit middle suffixDigit =>
      let prefixMeasure := accumulated * measureDigit prefixDigit
      let middleMeasure := prefixMeasure * measureTree middle
      if predicate prefixMeasure then
        (splitDigit predicate accumulated prefixDigit).bind fun (before, value, after) => do
          let left ← digitListToTree before
          let right ← treeWithPrefix after middle suffixDigit
          .ok (left, value, right)
      else if predicate middleMeasure then do
        let (leftMiddle, node, rightMiddle) ← splitTree predicate prefixMeasure middle
        (splitDigit predicate (prefixMeasure * measureTree leftMiddle) (nodeToDigit node)).bind
          fun (before, value, after) => do
            let left ← treeWithSuffix prefixDigit leftMiddle before
            let right ← treeWithPrefix after rightMiddle suffixDigit
            .ok (left, value, right)
      else
        (splitDigit predicate middleMeasure suffixDigit).bind fun (before, value, after) => do
          let left ← treeWithSuffix prefixDigit middle before
          let right ← digitListToTree after
          .ok (left, value, right)

section Search

variable [Measured v a]

def split (predicate : v → Bool) (tree : FingerTree v a) :
    Except MeasuredError (Option (FingerTree v a × a × FingerTree v a)) :=
  if null tree then .ok none
  else if predicate (measureTree tree) = false then .ok none
  else do
    let parts ← splitTree predicate 1 tree
    .ok (some parts)

end Search

end Measured

end Durable7.FingerTree

/-!
## Cached measures

A layer says which base elements stand below an element of a tree, and when the measures
cached inside it are right.  The middle of a tree lives one layer up.
-/

namespace Durable7.FingerTree.Measured

open Foundation List

variable {v α a : Type}

def nodeToList (node : Node v a) : List a := digitToList (nodeToDigit node)

/-- The elements of a tree over `a`. -/
def elements {a : Type} : FingerTree v a → List a
  | .empty => []
  | .single value => [value]
  | .deep _ prefixDigit middle suffixDigit =>
      digitToList prefixDigit ++ (elements middle).flatMap nodeToList ++ digitToList suffixDigit

variable [Monoid v]

/-- The ordered combination of the measures of a list. -/
def foldMeasure [Measured v a] (values : List a) : v := (values.map measure).prod

theorem foldMeasure_nil [Measured v a] : (foldMeasure ([] : List a) : v) = 1 := rfl

theorem foldMeasure_singleton [Measured v a] (value : a) :
    (foldMeasure [value] : v) = measure value :=
  prod_singleton

theorem foldMeasure_append [Measured v a] (left right : List a) :
    (foldMeasure (left ++ right) : v) = foldMeasure left * foldMeasure right := by
  unfold foldMeasure
  rw [map_append, prod_append]

theorem foldMeasure_cons [Measured v a] (value : a) (values : List a) :
    (foldMeasure (value :: values) : v) = measure value * foldMeasure values := by
  unfold foldMeasure
  rw [map_cons, prod_cons]

/-- A layer over base elements of type `α`. -/
structure Layer (v α a : Type) where
  below : a → List α
  Cached : a → Prop

namespace Layer

def base (v α : Type) : Layer v α α where
  below value := [value]
  Cached _ := True

variable [Measured v α] [Measured v a]

/-- Measures are the ordered combination of what is below. -/
def Sound (layer : Layer v α a) : Prop :=
  ∀ value, layer.Cached value → (measure value : v) = foldMeasure (layer.below value)

def nodes (layer : Layer v α a) : Layer v α (Node v a) where
  below node := (nodeToList node).flatMap layer.below
  Cached node := (measure node : v) = foldMeasure ((nodeToList node).flatMap layer.below) ∧
    ∀ value ∈ nodeToList node, layer.Cached value

def Digits (layer : Layer v α a) (digit : Digit a) : Prop :=
  ∀ value ∈ digitToList digit, layer.Cached value

omit [Measured v α] [Measured v a] in
def contents (layer : Layer v α a) (tree : FingerTree v a) : List α :=
  (elements tree).flatMap layer.below

end Layer

/-- Every cached measure of a tree is the ordered combination of the base elements below. -/
def Valid [Measured v α] {a : Type} [Measured v a] (layer : Layer v α a) : FingerTree v a → Prop
  | .empty => True
  | .single value => layer.Cached value
  | .deep value prefixDigit middle suffixDigit =>
      value = foldMeasure (layer.contents (.deep value prefixDigit middle suffixDigit)) ∧
        layer.Digits prefixDigit ∧ Valid layer.nodes middle ∧ layer.Digits suffixDigit

theorem valid_deep_iff [Measured v α] [Measured v a] {layer : Layer v α a} {total : v}
    {prefixDigit suffixDigit : Digit a} {middle : FingerTree v (Node v a)} :
    Valid layer (.deep total prefixDigit middle suffixDigit) ↔
      total = foldMeasure (layer.contents (.deep total prefixDigit middle suffixDigit)) ∧
        layer.Digits prefixDigit ∧ Valid layer.nodes middle ∧ layer.Digits suffixDigit :=
  Iff.rfl

omit [Monoid v] in
theorem digits_one {layer : Layer v α a} {first : a} :
    layer.Digits (.one first) ↔ layer.Cached first := by
  simp [Layer.Digits, digitToList]

omit [Monoid v] in
theorem digits_two {layer : Layer v α a} {first second : a} :
    layer.Digits (.two first second) ↔ layer.Cached first ∧ layer.Cached second := by
  simp [Layer.Digits, digitToList]

omit [Monoid v] in
theorem digits_three {layer : Layer v α a} {first second third : a} :
    layer.Digits (.three first second third) ↔
      layer.Cached first ∧ layer.Cached second ∧ layer.Cached third := by
  simp [Layer.Digits, digitToList]

omit [Monoid v] in
theorem digits_four {layer : Layer v α a} {first second third fourth : a} :
    layer.Digits (.four first second third fourth) ↔ layer.Cached first ∧ layer.Cached second ∧
      layer.Cached third ∧ layer.Cached fourth := by
  simp [Layer.Digits, digitToList]

theorem Valid.cached [Measured v α] {a : Type} [Measured v a] {layer : Layer v α a} :
    ∀ {tree : FingerTree v a}, Valid layer tree → ∀ value ∈ elements tree, layer.Cached value
  | .empty, _, value, hvalue => by cases hvalue
  | .single single, h, value, hvalue => by
      rw [mem_singleton.mp hvalue]
      exact h
  | .deep total prefixDigit middle suffixDigit, h, value, hvalue => by
      obtain ⟨-, hfront, hmiddle, hback⟩ := h
      rw [elements, mem_append, mem_append] at hvalue
      rcases hvalue with (hvalue | hvalue) | hvalue
      · exact hfront value hvalue
      · obtain ⟨node, hnode, hmem⟩ := mem_flatMap.mp hvalue
        exact (Valid.cached hmiddle node hnode).2 value hmem
      · exact hback value hvalue

variable [Measured v α] [Measured v a] {layer : Layer v α a}

theorem base_sound : (Layer.base v α).Sound := by
  intro value _
  exact (foldMeasure_singleton value).symm

omit [Measured v a] in
theorem nodes_sound : layer.nodes.Sound := fun _ h => h.1

omit [Measured v a] in
theorem contents_deep (value : v) (prefixDigit : Digit a) (middle : FingerTree v (Node v a))
    (suffixDigit : Digit a) :
    layer.contents (.deep value prefixDigit middle suffixDigit) =
      (digitToList prefixDigit).flatMap layer.below ++ layer.nodes.contents middle ++
        (digitToList suffixDigit).flatMap layer.below := by
  unfold Layer.contents
  rw [elements, flatMap_append, flatMap_append, flatMap_assoc]
  rfl

section Sound

variable (hsound : layer.Sound)

include hsound

theorem foldMeasure_below {values : List a} (h : ∀ value ∈ values, layer.Cached value) :
    (foldMeasure values : v) = foldMeasure (values.flatMap layer.below) := by
  induction values with
  | nil => rfl
  | cons value values ih =>
      rw [foldMeasure_cons, flatMap_cons, foldMeasure_append,
        hsound value (h value mem_cons_self),
        ih fun other hother => h other (mem_cons_of_mem _ hother)]

theorem measureDigit_eq {digit : Digit a} (h : layer.Digits digit) :
    (measureDigit digit : v) = foldMeasure ((digitToList digit).flatMap layer.below) :=
  foldMeasure_below hsound h

theorem measureTree_eq {tree : FingerTree v a} (h : Valid layer tree) :
    measureTree tree = foldMeasure (layer.contents tree) := by
  cases tree with
  | empty => rfl
  | single value => rw [measureTree, hsound value h, Layer.contents, elements, flatMap_singleton]
  | deep value prefixDigit middle suffixDigit => exact h.1

theorem measureTree_elements {tree : FingerTree v a} (h : Valid layer tree) :
    (measureTree tree : v) = foldMeasure (elements tree) := by
  rw [measureTree_eq hsound h, foldMeasure_below hsound h.cached]
  rfl

theorem measure_node {node : Node v a} (h : layer.nodes.Cached node) :
    (measure node : v) = foldMeasure (nodeToList node) := by
  rw [h.1, foldMeasure_below hsound h.2]

theorem foldMeasure_nodes {grouped : List (Node v a)}
    (h : ∀ node ∈ grouped, layer.nodes.Cached node) :
    (foldMeasure grouped : v) = foldMeasure (grouped.flatMap nodeToList) := by
  induction grouped with
  | nil => rfl
  | cons node grouped ih =>
      rw [forall_mem_cons] at h
      rw [foldMeasure_cons, flatMap_cons, foldMeasure_append, ih h.2, measure_node hsound h.1]

theorem valid_deep {prefixDigit suffixDigit : Digit a} {middle : FingerTree v (Node v a)}
    (hfront : layer.Digits prefixDigit) (hmiddle : Valid layer.nodes middle)
    (hback : layer.Digits suffixDigit) : Valid layer (deep prefixDigit middle suffixDigit) := by
  refine ⟨?_, hfront, hmiddle, hback⟩
  rw [contents_deep, foldMeasure_append, foldMeasure_append, measureDigit_eq hsound hfront,
    measureDigit_eq hsound hback, measureTree_eq nodes_sound hmiddle]

theorem node2_cached {first second : a} (hfirst : layer.Cached first)
    (hsecond : layer.Cached second) : layer.nodes.Cached (node2 first second) := by
  have hall : ∀ value ∈ [first, second], layer.Cached value := by simp [hfirst, hsecond]
  refine ⟨?_, hall⟩
  rw [show nodeToList (node2 first second : Node v a) = [first, second] from rfl,
    ← foldMeasure_below hsound hall, foldMeasure_cons, foldMeasure_singleton]
  rfl

theorem node3_cached {first second third : a} (hfirst : layer.Cached first)
    (hsecond : layer.Cached second) (hthird : layer.Cached third) :
    layer.nodes.Cached (node3 first second third) := by
  have hall : ∀ value ∈ [first, second, third], layer.Cached value := by
    simp [hfirst, hsecond, hthird]
  refine ⟨?_, hall⟩
  rw [show nodeToList (node3 first second third : Node v a) = [first, second, third] from rfl,
    ← foldMeasure_below hsound hall, foldMeasure_cons, foldMeasure_cons, foldMeasure_singleton,
    ← mul_assoc]
  rfl

end Sound

theorem elements_deep (prefixDigit : Digit a) (middle : FingerTree v (Node v a))
    (suffixDigit : Digit a) :
    elements (deep prefixDigit middle suffixDigit) = digitToList prefixDigit ++
      (elements middle).flatMap nodeToList ++ digitToList suffixDigit := rfl

end Durable7.FingerTree.Measured
