import Durable7.FingerTree.RangeUpdateSequence.Tree
import Durable7.FingerTree.RrbVector.Shape

/-!
# The contents of range-update trees

The contents of a tree carry every pending tag down to the elements.  The cached fields
of a sound tree are those of its contents.
-/

namespace Durable7.FingerTree.RangeUpdateSequence

open Foundation List

variable {element measureValue tag : Type}

class LawfulAlgebra (algebra : RangeUpdateAlgebra element measureValue tag) : Prop where
  combine_assoc : ∀ first second third,
    algebra.algebraCombine (algebra.algebraCombine first second) third =
      algebra.algebraCombine first (algebra.algebraCombine second third)
  empty_combine : ∀ value, algebra.algebraCombine algebra.algebraEmptyMeasure value = value
  combine_empty : ∀ value, algebra.algebraCombine value algebra.algebraEmptyMeasure = value
  applyElement_compose : ∀ newer older value,
    algebra.algebraApplyElement (algebra.algebraCompose newer older) value =
      algebra.algebraApplyElement newer (algebra.algebraApplyElement older value)
  applyElement_identity : ∀ update value, algebra.algebraIsIdentity update = true →
    algebra.algebraApplyElement update value = value
  applyMeasure_element : ∀ update value,
    algebra.algebraApplyMeasure update (algebra.algebraMeasureElement value) 1 =
      algebra.algebraMeasureElement (algebra.algebraApplyElement update value)
  applyMeasure_combine : ∀ update left right leftCount rightCount, 0 < leftCount → 0 < rightCount →
    algebra.algebraApplyMeasure update (algebra.algebraCombine left right)
        (leftCount + rightCount) =
      algebra.algebraCombine (algebra.algebraApplyMeasure update left leftCount)
        (algebra.algebraApplyMeasure update right rightCount)

variable (algebra : RangeUpdateAlgebra element measureValue tag)

/-! ## Ordered measures -/

def foldMeasure (values : List element) : measureValue :=
  values.foldr (fun value rest => algebra.algebraCombine (algebra.algebraMeasureElement value) rest)
    algebra.algebraEmptyMeasure

/-- The elements under a tag that may be missing. -/
def carried (inherited : Option tag) (values : List element) : List element :=
  values.map (applyInheritedToElement algebra inherited)

variable {values : List element}

section Measures

variable [lawful : LawfulAlgebra algebra]

theorem foldMeasure_singleton (value : element) :
    foldMeasure algebra [value] = algebra.algebraMeasureElement value :=
  lawful.combine_empty _

theorem foldMeasure_append (front back : List element) :
    foldMeasure algebra (front ++ back) =
      algebra.algebraCombine (foldMeasure algebra front) (foldMeasure algebra back) := by
  induction front with
  | nil => exact (lawful.empty_combine _).symm
  | cons value front ih =>
      change algebra.algebraCombine _ (foldMeasure algebra (front ++ back)) = _
      rw [ih]
      exact (lawful.combine_assoc _ _ _).symm

theorem applyMeasure_fold (update : tag) (hne : values ≠ []) :
    algebra.algebraApplyMeasure update (foldMeasure algebra values) values.length =
      foldMeasure algebra (values.map (algebra.algebraApplyElement update)) := by
  induction values with
  | nil => exact absurd rfl hne
  | cons value values ih =>
      by_cases hnil : values = []
      · rw [hnil, foldMeasure_singleton]
        exact (lawful.applyMeasure_element update value).trans
          (foldMeasure_singleton algebra _).symm
      · have hsplit : value :: values = [value] ++ values := rfl
        rw [hsplit, foldMeasure_append, map_append, foldMeasure_append, length_append,
          length_singleton, lawful.applyMeasure_combine update _ _ _ _ Nat.zero_lt_one
          (length_pos_iff.mpr hnil), ih hnil, foldMeasure_singleton, lawful.applyMeasure_element,
          map_singleton, foldMeasure_singleton]

theorem applyInheritedToMeasure_fold (inherited : Option tag) (hne : values ≠ []) :
    applyInheritedToMeasure algebra inherited (foldMeasure algebra values) values.length =
      foldMeasure algebra (carried algebra inherited values) := by
  cases inherited with
  | none =>
      rw [carried]
      exact congrArg (foldMeasure algebra) (map_id values).symm
  | some update => exact applyMeasure_fold algebra update hne

theorem applyInherited_compose (newer older : Option tag) (value : element) :
    applyInheritedToElement algebra (composeTags algebra newer older) value =
      applyInheritedToElement algebra newer (applyInheritedToElement algebra older value) := by
  cases newer with
  | none => rfl
  | some update =>
      cases older with
      | none => rfl
      | some previous =>
          rw [composeTags]
          split
          · next hidentity =>
            have hsame := lawful.applyElement_identity _ value hidentity
            rw [lawful.applyElement_compose] at hsame
            exact hsame.symm
          · exact lawful.applyElement_compose update previous value

theorem carried_compose (newer older : Option tag) (values : List element) :
    carried algebra (composeTags algebra newer older) values =
      carried algebra newer (carried algebra older values) := by
  rw [carried, carried, carried, map_map]
  apply map_congr_left
  intro value _
  exact applyInherited_compose algebra newer older value

end Measures

theorem carried_none (values : List element) : carried algebra none values = values := map_id values

theorem carried_append (inherited : Option tag) (front back : List element) :
    carried algebra inherited (front ++ back) =
      carried algebra inherited front ++ carried algebra inherited back :=
  map_append

theorem length_carried (inherited : Option tag) (values : List element) :
    (carried algebra inherited values).length = values.length :=
  length_map _

/-! ## Sound trees -/

def contents : Node element measureValue tag → List element
  | .nothing => []
  | .node value left right _ _ _ pending =>
      carried algebra pending (contents left) ++ value :: carried algebra pending (contents right)

def Canonical (pending : Option tag) : Prop :=
  ∀ update, pending = some update → algebra.algebraIsIdentity update = false

/-- The cached fields are those of the contents. -/
def Cached : Node element measureValue tag → Prop
  | .nothing => True
  | .node value left right height count measure pending =>
      Cached left ∧ Cached right ∧ height = 1 + max (heightOf left) (heightOf right) ∧
        count = countOf left + 1 + countOf right ∧
        measure = foldMeasure algebra
          (carried algebra pending (contents algebra left) ++
            value :: carried algebra pending (contents algebra right)) ∧
        Canonical algebra pending

def Balanced : Node element measureValue tag → Prop
  | .nothing => True
  | .node _ left right _ _ _ _ =>
      Balanced left ∧ Balanced right ∧ heightOf left ≤ heightOf right + 1 ∧
        heightOf right ≤ heightOf left + 1

/-- A balanced tree of the values. -/
structure Shows (root : Node element measureValue tag) (values : List element) : Prop where
  cached : Cached algebra root
  balanced : Balanced root
  contents_eq : contents algebra root = values

variable {algebra} {root left right : Node element measureValue tag}

theorem countOf_eq (h : Cached algebra root) : countOf root = (contents algebra root).length := by
  induction root with
  | nothing => rfl
  | node value left right height count measure pending ihLeft ihRight =>
      obtain ⟨hleft, hright, -, hcount, -⟩ := h
      rw [countOf, hcount, ihLeft hleft, ihRight hright, contents, length_append,
        length_cons, length_carried, length_carried]
      omega

theorem Shows.count_eq (h : Shows algebra root values) : countOf root = values.length := by
  rw [countOf_eq h.cached, h.contents_eq]

theorem shows_nothing : Shows algebra .nothing [] := ⟨trivial, trivial, rfl⟩

variable {height : Nat} {pending : Option tag} {value : element}

theorem height_pos_of_cached {count : Nat} {measure : measureValue}
    (h : Cached algebra (.node value left right height count measure pending)) : 0 < height := by
  have := h.2.2.1
  omega

theorem Shows.eq_nothing (h : Shows algebra root []) : root = .nothing := by
  cases root with
  | nothing => rfl
  | node value left right height count measure pending =>
      have hcontents := h.contents_eq
      rw [contents] at hcontents
      simp at hcontents

theorem heightOf_eq_zero (h : Shows algebra root values) : heightOf root = 0 ↔ values = [] := by
  cases root with
  | nothing => exact iff_of_true rfl h.contents_eq.symm
  | node value left right height count measure pending =>
      apply iff_of_false (Nat.ne_of_gt (height_pos_of_cached h.cached))
      rintro rfl
      cases h.eq_nothing

/-- The node over two children with nothing pending. -/
def built (algebra : RangeUpdateAlgebra element measureValue tag) (value : element)
    (left right : Node element measureValue tag) : Node element measureValue tag :=
  .node value left right (1 + max (heightOf left) (heightOf right))
    (countOf left + 1 + countOf right) (combinedMeasure algebra value left right) none

theorem makeNode_eq (value : element)
    (hbound : countOf left + 1 + countOf right ≤ RrbVector.maxBound) :
    makeNode algebra value left right = .ok (built algebra value left right) := by
  have hfirst : ∀ {first second : Nat}, first + second ≤ RrbVector.maxBound →
      checkedAdd first second = .ok (first + second) := by
    intro first second hsum
    exact if_neg (by omega)
  rw [makeNode, hfirst (by omega), except_ok_bind, hfirst (by omega), except_ok_bind]
  rfl

theorem contents_built (value : element) :
    contents algebra (built algebra value left right) =
      contents algebra left ++ value :: contents algebra right := by
  rw [built, contents, carried_none, carried_none]

section Lawful

variable [lawful : LawfulAlgebra algebra]

omit lawful in
theorem measure_of_cached {count : Nat} {measure : measureValue}
    (h : Cached algebra (.node value left right height count measure pending)) :
    measure = foldMeasure algebra
      (contents algebra (.node value left right height count measure pending)) :=
  h.2.2.2.2.1

theorem combinedMeasure_eq (value : element) (hleft : Cached algebra left)
    (hright : Cached algebra right) :
    combinedMeasure algebra value left right =
      foldMeasure algebra (contents algebra left ++ value :: contents algebra right) := by
  have hcons : ∀ values : List element, value :: values = [value] ++ values := fun _ => rfl
  rw [hcons, foldMeasure_append, foldMeasure_append, foldMeasure_singleton]
  unfold combinedMeasure
  cases left with
  | nothing =>
      cases right with
      | nothing =>
          rw [contents]
          exact ((lawful.empty_combine _).trans (lawful.combine_empty _)).symm
      | node rightValue _ _ _ _ _ _ =>
          rw [measure_of_cached hright]
          exact (lawful.empty_combine _).symm
  | node leftValue _ _ _ _ _ _ =>
      cases right with
      | nothing =>
          dsimp only
          rw [measure_of_cached hleft]
          exact congrArg (algebra.algebraCombine _) (lawful.combine_empty _).symm
      | node rightValue _ _ _ _ _ _ =>
          dsimp only
          rw [measure_of_cached hleft, measure_of_cached hright]
          exact lawful.combine_assoc _ _ _

theorem cached_built (value : element) (hleft : Cached algebra left)
    (hright : Cached algebra right) :
    Cached algebra (built algebra value left right) := by
  refine ⟨hleft, hright, rfl, rfl, ?_, fun update h => by cases h⟩
  rw [carried_none, carried_none]
  exact combinedMeasure_eq value hleft hright

theorem shows_built {lefts rights : List element} (value : element)
    (hleft : Shows algebra left lefts)
    (hright : Shows algebra right rights) (hlow : heightOf left ≤ heightOf right + 1)
    (hhigh : heightOf right ≤ heightOf left + 1) :
    Shows algebra (built algebra value left right) (lefts ++ value :: rights) where
  cached := cached_built value hleft.cached hright.cached
  balanced := ⟨hleft.balanced, hright.balanced, hlow, hhigh⟩
  contents_eq := by rw [contents_built, hleft.contents_eq, hright.contents_eq]

/-! ## Pending tags -/

omit lawful in
theorem heightOf_applySubtree (update : tag) :
    heightOf (applySubtree algebra update root) = heightOf root := by
  cases root <;> rfl

omit lawful in
theorem balanced_applySubtree (update : tag) (h : Balanced root) :
    Balanced (applySubtree algebra update root) := by
  cases root with
  | nothing => trivial
  | node value left right height count measure pending => exact h

theorem contents_applySubtree (update : tag) :
    contents algebra (applySubtree algebra update root) =
      (contents algebra root).map (algebra.algebraApplyElement update) := by
  cases root with
  | nothing => rfl
  | node value left right height count measure pending =>
      rw [applySubtree, contents, contents, carried_compose, carried_compose, map_append, map_cons]
      rfl

omit lawful in
theorem canonical_compose {newer older : Option tag} (hnewer : Canonical algebra newer)
    (holder : Canonical algebra older) : Canonical algebra (composeTags algebra newer older) := by
  cases newer with
  | none => exact holder
  | some update =>
      cases older with
      | none => exact hnewer
      | some previous =>
          rw [composeTags]
          split
          · intro composed hcomposed
            cases hcomposed
          · next hidentity =>
            intro composed hcomposed
            cases hcomposed
            exact eq_false_of_ne_true hidentity

theorem cached_applySubtree {update : tag} (hupdate : algebra.algebraIsIdentity update = false)
    (h : Cached algebra root) : Cached algebra (applySubtree algebra update root) := by
  cases root with
  | nothing => trivial
  | node value left right height count measure pending =>
      have hcontents := @contents_applySubtree _ _ _ algebra
        (.node value left right height count measure pending) _ update
      have hcount := countOf_eq h
      have hmeasure := measure_of_cached h
      obtain ⟨hleft, hright, hheight, hcounts, -, hcanonical⟩ := h
      refine ⟨hleft, hright, hheight, hcounts, ?_, ?_⟩
      · rw [countOf] at hcount
        have hfold := applyMeasure_fold algebra update (ne_nil_of_length_pos
          (show 0 < (contents algebra (.node value left right height count measure pending)).length
            by omega))
        rw [← hcontents, ← hcount, ← hmeasure] at hfold
        exact hfold
      · apply canonical_compose _ hcanonical
        intro newer hnewer
        cases hnewer
        exact hupdate

theorem shows_applySubtree {update : tag} (hupdate : algebra.algebraIsIdentity update = false)
    (h : Shows algebra root values) :
    Shows algebra (applySubtree algebra update root)
      (values.map (algebra.algebraApplyElement update)) where
  cached := cached_applySubtree hupdate h.cached
  balanced := balanced_applySubtree update h.balanced
  contents_eq := by rw [contents_applySubtree, h.contents_eq]

theorem push_cached {count : Nat} {measure : measureValue}
    (h : Cached algebra (.node value left right height count measure pending)) :
    ∃ pushedLeft pushedRight,
      push algebra (.node value left right height count measure pending) =
        .node value pushedLeft pushedRight height count measure none ∧
      Cached algebra pushedLeft ∧ Cached algebra pushedRight ∧
      contents algebra pushedLeft = carried algebra pending (contents algebra left) ∧
      contents algebra pushedRight = carried algebra pending (contents algebra right) ∧
      heightOf pushedLeft = heightOf left ∧ heightOf pushedRight = heightOf right ∧
      (Balanced left → Balanced pushedLeft) ∧ (Balanced right → Balanced pushedRight) := by
  obtain ⟨hleft, hright, -, -, -, hcanonical⟩ := h
  cases pending with
  | none =>
      exact ⟨left, right, rfl, hleft, hright, (carried_none algebra _).symm,
        (carried_none algebra _).symm, rfl, rfl, id, id⟩
  | some update =>
      have hupdate := hcanonical update rfl
      exact ⟨_, _, rfl, cached_applySubtree hupdate hleft, cached_applySubtree hupdate hright,
        contents_applySubtree update, contents_applySubtree update, heightOf_applySubtree update,
        heightOf_applySubtree update, balanced_applySubtree update, balanced_applySubtree update⟩

theorem Shows.push_cases (h : Shows algebra root values) :
    (root = .nothing ∧ values = []) ∨
    ∃ value left right lefts rights count measure,
      push algebra root = .node value left right (heightOf root) count measure none ∧
      values = lefts ++ value :: rights ∧ Shows algebra left lefts ∧ Shows algebra right rights ∧
      childHeights root = .ok (heightOf left, heightOf right) ∧
      heightOf root = 1 + max (heightOf left) (heightOf right) ∧
      heightOf left ≤ heightOf right + 1 ∧ heightOf right ≤ heightOf left + 1 := by
  cases root with
  | nothing => exact .inl ⟨rfl, h.contents_eq.symm⟩
  | node value left right height count measure pending =>
      obtain ⟨pushedLeft, pushedRight, hpush, hleft, hright, hlefts, hrights, hleftHeight,
        hrightHeight, hleftBalanced, hrightBalanced⟩ := push_cached h.cached
      obtain ⟨hbalancedLeft, hbalancedRight, hlow, hhigh⟩ := h.balanced
      have hheight := h.cached.2.2.1
      refine .inr ⟨value, pushedLeft, pushedRight, _, _, count, measure, hpush, ?_,
        ⟨hleft, hleftBalanced hbalancedLeft, rfl⟩, ⟨hright, hrightBalanced hbalancedRight, rfl⟩,
        ?_, ?_, by omega, by omega⟩
      · rw [← h.contents_eq, contents, hlefts, hrights]
      · rw [childHeights, hleftHeight, hrightHeight]
      · rw [heightOf, hheight, hleftHeight, hrightHeight]

end Lawful

end Durable7.FingerTree.RangeUpdateSequence
