import Mathlib.Data.Option.Basic
import Mathlib.Order.Lattice
import Mathlib.Algebra.Ring.Nat
import Mathlib.Algebra.Ring.Int.Defs

/-!
# Monotone actions and clamps

A policy bundles a family of actions with the order its actions are monotone for.  Closed
clamps are such a family for every total preorder: the lower bound of a two-sided clamp is
not above its upper bound.
-/

namespace Durable7.FingerTree.PersistentMonotoneActionHeap

structure MonotoneActionPolicy (priority action : Type) where
  actionIdentity : action
  actionIsIdentity : action → Bool
  actionCompose : action → action → action
  actionApply : action → priority → priority
  priorityCompare : priority → priority → Ordering

class LawfulIdentity {priority action : Type} (policy : MonotoneActionPolicy priority action) :
    Prop where
  isIdentity_identity : policy.actionIsIdentity policy.actionIdentity = true
  apply_identity : ∀ {action}, policy.actionIsIdentity action = true →
    ∀ value, policy.actionApply action value = value

class LawfulPolicy {priority action : Type} (policy : MonotoneActionPolicy priority action)
    (admissible : outParam (action → Prop)) : Prop extends LawfulIdentity policy where
  identity_admissible : admissible policy.actionIdentity
  compose_admissible : ∀ {outer inner}, admissible outer → admissible inner →
    admissible (policy.actionCompose outer inner)
  apply_compose : ∀ {outer inner}, admissible outer → admissible inner → ∀ value,
    policy.actionApply (policy.actionCompose outer inner) value =
      policy.actionApply outer (policy.actionApply inner value)
  apply_monotone : ∀ {action}, admissible action → ∀ {first second},
    policy.priorityCompare first second ≠ .gt →
    policy.priorityCompare (policy.actionApply action first) (policy.actionApply action second) ≠
      .gt

/-! ## Clamps -/

structure OrderClamp (priority : Type) where
  constantValue : Option priority
  lowerBound : Option priority
  upperBound : Option priority
  deriving DecidableEq

variable {priority : Type}

def clampIdentity : OrderClamp priority := ⟨none, none, none⟩

def clampAtLeast (lowerBound : priority) : OrderClamp priority := ⟨none, some lowerBound, none⟩

def clampAtMost (upperBound : priority) : OrderClamp priority := ⟨none, none, some upperBound⟩

def clampIsIdentity (clamp : OrderClamp priority) : Bool :=
  clamp.constantValue.isNone && clamp.lowerBound.isNone && clamp.upperBound.isNone

variable (compareValues : priority → priority → Ordering)

/-- The value below the upper bound. -/
def capped (upperBound : Option priority) (value : priority) : priority :=
  match upperBound with
  | some bound => if compareValues value bound = .gt then bound else value
  | none => value

def applyClamp (clamp : OrderClamp priority) (value : priority) : priority :=
  match clamp.constantValue with
  | some result => result
  | none =>
      match clamp.lowerBound with
      | some bound =>
          if compareValues value bound = .lt then bound
          else capped compareValues clamp.upperBound value
      | none => capped compareValues clamp.upperBound value

def mergedLower (outerLower innerLower : Option priority) : Option priority :=
  match innerLower, outerLower with
  | none, newer => newer
  | some older, none => some older
  | some older, some newer => some (if compareValues older newer ≠ .lt then older else newer)

def mergedUpper (outerUpper innerUpper : Option priority) : Option priority :=
  match innerUpper, outerUpper with
  | none, newer => newer
  | some older, none => some older
  | some older, some newer => some (if compareValues older newer ≠ .gt then older else newer)

def disjointBelow (outer inner : OrderClamp priority) : Bool :=
  match inner.upperBound, outer.lowerBound with
  | some ceiling, some floor => compareValues ceiling floor = .lt
  | _, _ => false

def disjointAbove (outer inner : OrderClamp priority) : Bool :=
  match inner.lowerBound, outer.upperBound with
  | some floor, some ceiling => compareValues floor ceiling = .gt
  | _, _ => false

def composeClamp (outer inner : OrderClamp priority) : OrderClamp priority :=
  if clampIsIdentity outer then inner
  else if clampIsIdentity inner then outer
  else if outer.constantValue.isSome then outer
  else
    match inner.constantValue with
    | some value => ⟨some (applyClamp compareValues outer value), none, none⟩
    | none =>
        if disjointBelow compareValues outer inner then ⟨outer.lowerBound, none, none⟩
        else if disjointAbove compareValues outer inner then ⟨outer.upperBound, none, none⟩
        else ⟨none, mergedLower compareValues outer.lowerBound inner.lowerBound,
          mergedUpper compareValues outer.upperBound inner.upperBound⟩

def orderClampPolicy : MonotoneActionPolicy priority (OrderClamp priority) where
  actionIdentity := clampIdentity
  actionIsIdentity := clampIsIdentity
  actionCompose := composeClamp compareValues
  actionApply := applyClamp compareValues
  priorityCompare := compareValues

/-- The bounds of a two-sided clamp are in order. -/
def ClosedClamp (clamp : OrderClamp priority) : Prop :=
  ∀ lower ∈ clamp.lowerBound, ∀ upper ∈ clamp.upperBound, compareValues lower upper ≠ .gt

variable {compareValues}

theorem closed_identity : ClosedClamp compareValues (clampIdentity : OrderClamp priority) :=
  fun _ h => by cases h

theorem closed_atLeast (lower : priority) : ClosedClamp compareValues (clampAtLeast lower) :=
  fun _ _ _ h => by cases h

theorem closed_atMost (upper : priority) : ClosedClamp compareValues (clampAtMost upper) :=
  fun _ h => by cases h

variable {clamp : OrderClamp priority}

theorem applyClamp_identity (h : clampIsIdentity clamp = true)
    (value : priority) : applyClamp compareValues clamp value = value := by
  obtain ⟨constant, lower, upper⟩ := clamp
  cases constant with
  | some result => cases h
  | none =>
      cases lower with
      | some bound => cases h
      | none =>
          cases upper with
          | some bound => cases h
          | none => rfl

section Lawful

variable [lawful : Std.TransCmp compareValues] {outer inner : OrderClamp priority}

theorem not_gt_trans {first second third : priority} (h : compareValues first second ≠ .gt)
    (hnext : compareValues second third ≠ .gt) : compareValues first third ≠ .gt := by
  rw [ne_eq, ← Ordering.isLE_iff_ne_gt] at h hnext ⊢
  exact lawful.isLE_trans h hnext

theorem gt_iff_lt {first second : priority} :
    compareValues first second = .gt ↔ compareValues second first = .lt :=
  Std.OrientedCmp.gt_iff_lt

/-! ## Composition -/

theorem apply_disjointBelow (hinner : ClosedClamp compareValues inner)
    (hinnerConstant : inner.constantValue = none) (houterConstant : outer.constantValue = none)
    (h : disjointBelow compareValues outer inner = true) (value : priority) :
    outer.lowerBound =
      some (applyClamp compareValues outer (applyClamp compareValues inner value)) := by
  have htrans := @not_gt_trans _ compareValues _
  have hswap := @gt_iff_lt _ compareValues _
  obtain ⟨constant, floor, top⟩ := outer
  obtain ⟨innerConstant, bottom, ceiling⟩ := inner
  cases hinnerConstant
  cases houterConstant
  cases ceiling with
  | none => cases h
  | some ceiling =>
      cases floor with
      | none => cases h
      | some floor =>
          have hbelow : compareValues ceiling floor = .lt := of_decide_eq_true h
          cases bottom with
          | none =>
              simp only [applyClamp, capped]
              grind
          | some bottom =>
              have hclosed := hinner bottom rfl ceiling rfl
              simp only [applyClamp, capped]
              grind

section

variable (houter : ClosedClamp compareValues outer) (hinner : ClosedClamp compareValues inner)
include houter hinner

theorem apply_disjointAbove (hinnerConstant : inner.constantValue = none)
    (houterConstant : outer.constantValue = none)
    (h : disjointAbove compareValues outer inner = true) (value : priority) :
    outer.upperBound =
      some (applyClamp compareValues outer (applyClamp compareValues inner value)) := by
  have htrans := @not_gt_trans _ compareValues _
  have hswap := @gt_iff_lt _ compareValues _
  obtain ⟨constant, bottom, ceiling⟩ := outer
  obtain ⟨innerConstant, floor, top⟩ := inner
  cases hinnerConstant
  cases houterConstant
  cases floor with
  | none => cases h
  | some floor =>
      cases ceiling with
      | none => cases h
      | some ceiling =>
          have habove : compareValues floor ceiling = .gt := of_decide_eq_true h
          have houterClosed : ∀ low, bottom = some low → compareValues low ceiling ≠ .gt :=
            fun low hlow => houter low hlow ceiling rfl
          have hinnerClosed : ∀ high, top = some high → compareValues floor high ≠ .gt :=
            fun high hhigh => hinner floor rfl high hhigh
          cases bottom <;> cases top <;> simp only [applyClamp, capped] <;> grind

theorem apply_overlapping (hinnerConstant : inner.constantValue = none)
    (houterConstant : outer.constantValue = none)
    (hbelow : disjointBelow compareValues outer inner = false)
    (habove : disjointAbove compareValues outer inner = false) (value : priority) :
    applyClamp compareValues ⟨none, mergedLower compareValues outer.lowerBound inner.lowerBound,
      mergedUpper compareValues outer.upperBound inner.upperBound⟩ value =
      applyClamp compareValues outer (applyClamp compareValues inner value) := by
  have htrans := @not_gt_trans _ compareValues _
  have hswap := @gt_iff_lt _ compareValues _
  obtain ⟨constant, floor, top⟩ := outer
  obtain ⟨innerConstant, bottom, ceiling⟩ := inner
  cases hinnerConstant
  cases houterConstant
  have houterClosed : ∀ low high, floor = some low → top = some high →
      compareValues low high ≠ .gt := fun low high hlow hhigh => houter low hlow high hhigh
  have hinnerClosed : ∀ low high, bottom = some low → ceiling = some high →
      compareValues low high ≠ .gt := fun low high hlow hhigh => hinner low hlow high hhigh
  unfold disjointBelow at hbelow
  unfold disjointAbove at habove
  cases floor <;> cases top <;> cases bottom <;> cases ceiling <;>
    simp only [applyClamp, capped, mergedLower, mergedUpper] at hbelow habove ⊢ <;> grind

theorem applyClamp_compose (value : priority) :
    applyClamp compareValues (composeClamp compareValues outer inner) value =
      applyClamp compareValues outer (applyClamp compareValues inner value) := by
  unfold composeClamp
  split
  · next hidentity => rw [applyClamp_identity hidentity]
  split
  · next hidentity => rw [applyClamp_identity hidentity]
  split
  · next hconstant =>
    obtain ⟨result, hresult⟩ := Option.isSome_iff_exists.mp hconstant
    rw [applyClamp, applyClamp, hresult]
  next hnoConstant =>
  have houterConstant : outer.constantValue = none := Option.not_isSome_iff_eq_none.mp hnoConstant
  split
  · next result hresult =>
    have hconstant : applyClamp compareValues inner value = result := by rw [applyClamp, hresult]
    rw [hconstant]
    rfl
  · next hinnerConstant =>
    split
    · next hbelow =>
      exact congrArg (fun bound => applyClamp compareValues ⟨bound, none, none⟩ value)
        (apply_disjointBelow hinner hinnerConstant houterConstant hbelow value)
    · next hnotBelow =>
      split
      · next habove =>
        exact congrArg (fun bound => applyClamp compareValues ⟨bound, none, none⟩ value)
          (apply_disjointAbove houter hinner hinnerConstant houterConstant habove value)
      · next hnotAbove =>
        exact apply_overlapping houter hinner hinnerConstant houterConstant
          (eq_false_of_ne_true hnotBelow) (eq_false_of_ne_true hnotAbove) value

theorem closed_compose : ClosedClamp compareValues (composeClamp compareValues outer inner) := by
  have hbound : ∀ constant : Option priority,
      ClosedClamp compareValues (⟨constant, none, none⟩ : OrderClamp priority) :=
    fun _ _ h => by cases h
  unfold composeClamp
  split
  · exact hinner
  split
  · exact houter
  split
  · exact houter
  split
  · exact hbound _
  split
  · exact hbound _
  next hnotBelow =>
  split
  · exact hbound _
  next hnotAbove =>
  have htrans := @not_gt_trans _ compareValues _
  have hswap := @gt_iff_lt _ compareValues _
  obtain ⟨constant, floor, top⟩ := outer
  obtain ⟨innerConstant, bottom, ceiling⟩ := inner
  unfold ClosedClamp at houter hinner ⊢
  unfold disjointBelow at hnotBelow
  unfold disjointAbove at hnotAbove
  cases floor <;> cases top <;> cases bottom <;> cases ceiling <;>
    simp only [mergedLower, mergedUpper] at hnotBelow hnotAbove houter hinner ⊢ <;> grind

end

theorem applyClamp_monotone {clamp : OrderClamp priority}
    (hclosed : ClosedClamp compareValues clamp)
    {first second : priority} (h : compareValues first second ≠ .gt) :
    compareValues (applyClamp compareValues clamp first) (applyClamp compareValues clamp second) ≠
      .gt := by
  have htrans := @not_gt_trans _ compareValues _
  have hswap := @gt_iff_lt _ compareValues _
  have hrefl : ∀ value, compareValues value value ≠ .gt := fun value => by
    rw [@Std.ReflCmp.compare_self _ compareValues _ value]
    decide
  obtain ⟨constant, lower, upper⟩ := clamp
  unfold ClosedClamp at hclosed
  cases constant with
  | some result => exact hrefl result
  | none => cases lower <;> cases upper <;> simp only [applyClamp, capped] at hclosed ⊢ <;> grind

/-- Over a linear order a closed clamp is the greater with its floor, then the lesser with its
ceiling. -/
theorem applyClamp_eq_min_max [LinearOrder priority] {clamp : OrderClamp priority}
    (hclosed : ClosedClamp compare clamp) (value : priority) :
    applyClamp compare clamp value =
      clamp.constantValue.getD (clamp.upperBound.elim id min
        (clamp.lowerBound.elim id max value)) := by
  obtain ⟨constant, lower, upper⟩ := clamp
  unfold ClosedClamp at hclosed
  cases constant with
  | some result => rfl
  | none =>
      cases lower <;> cases upper <;>
        simp only [applyClamp, capped, compare_lt_iff_lt, compare_gt_iff_gt, Option.getD_none,
          Option.elim, id, Option.mem_def, Option.some.injEq, forall_eq',
          ne_eq] at hclosed ⊢ <;> grind

instance : Std.TransCmp (orderClampPolicy compareValues).priorityCompare := lawful

instance : LawfulPolicy (orderClampPolicy compareValues) (ClosedClamp compareValues) where
  identity_admissible := closed_identity
  isIdentity_identity := rfl
  compose_admissible := closed_compose
  apply_identity := applyClamp_identity
  apply_compose := applyClamp_compose
  apply_monotone := applyClamp_monotone

end Lawful

/-! ## Associativity -/

theorem composeClamp_identity (clamp : OrderClamp priority) :
    composeClamp compareValues clampIdentity clamp = clamp ∧
      composeClamp compareValues clamp clampIdentity = clamp := by
  obtain ⟨constant, lower, upper⟩ := clamp
  cases constant <;> cases lower <;> cases upper <;> exact ⟨rfl, rfl⟩

theorem eq_identity (h : clampIsIdentity clamp = true) : clamp = clampIdentity := by
  obtain ⟨constant, lower, upper⟩ := clamp
  simpa [clampIsIdentity, clampIdentity, and_assoc] using h

theorem constant_composeClamp {outer : OrderClamp priority} (h : outer.constantValue.isSome = true)
    (inner : OrderClamp priority) : composeClamp compareValues outer inner = outer := by
  obtain ⟨constant, lower, upper⟩ := outer
  cases constant <;> simp [composeClamp, clampIsIdentity] at h ⊢

variable {outer inner : OrderClamp priority}

theorem composeClamp_constant {value : priority}
    (houter : clampIsIdentity outer = false) (hconstant : outer.constantValue = none)
    (hinner : inner.constantValue = some value) :
    composeClamp compareValues outer inner =
      ⟨some (applyClamp compareValues outer value), none, none⟩ := by
  have hfilled : clampIsIdentity inner = false := by simp [clampIsIdentity, hinner]
  simp [composeClamp, houter, hfilled, hconstant, hinner]

section Bounds

variable (floor top bottom ceiling : Option priority)

theorem composeClamp_value (value : priority) :
    composeClamp compareValues ⟨none, floor, top⟩ ⟨some value, none, none⟩ =
      ⟨some (applyClamp compareValues ⟨none, floor, top⟩ value), none, none⟩ := by
  cases floor <;> cases top <;> rfl

theorem composeClamp_bounds :
    composeClamp compareValues ⟨none, floor, top⟩ ⟨none, bottom, ceiling⟩ =
      if disjointBelow compareValues ⟨none, floor, top⟩ ⟨none, bottom, ceiling⟩ then
        ⟨floor, none, none⟩
      else if disjointAbove compareValues ⟨none, floor, top⟩ ⟨none, bottom, ceiling⟩ then
        ⟨top, none, none⟩
      else ⟨none, mergedLower compareValues floor bottom,
        mergedUpper compareValues top ceiling⟩ := by
  cases floor <;> cases top <;> cases bottom <;> cases ceiling <;> rfl

end Bounds

theorem disjointBelow_iff :
    disjointBelow compareValues outer inner = true ↔ ∃ floor, outer.lowerBound = some floor ∧
      ∃ ceiling, inner.upperBound = some ceiling ∧ compareValues ceiling floor = .lt := by
  unfold disjointBelow
  cases outer.lowerBound <;> cases inner.upperBound <;> simp

theorem disjointAbove_iff :
    disjointAbove compareValues outer inner = true ↔ ∃ ceiling, outer.upperBound = some ceiling ∧
      ∃ floor, inner.lowerBound = some floor ∧ compareValues floor ceiling = .gt := by
  unfold disjointAbove
  cases outer.upperBound <;> cases inner.lowerBound <;> simp

section Associative

variable [lawful : Std.TransCmp compareValues]

theorem composeClamp_assoc_bounds {a b c d e f : Option priority}
    (hfirst : ClosedClamp compareValues ⟨none, a, b⟩)
    (hsecond : ClosedClamp compareValues ⟨none, c, d⟩)
    (hthird : ClosedClamp compareValues ⟨none, e, f⟩) :
    composeClamp compareValues (composeClamp compareValues ⟨none, a, b⟩ ⟨none, c, d⟩) ⟨none, e, f⟩ =
      composeClamp compareValues ⟨none, a, b⟩
        (composeClamp compareValues ⟨none, c, d⟩ ⟨none, e, f⟩) := by
  have htrans := @not_gt_trans _ compareValues _
  have hswap := @gt_iff_lt _ compareValues _
  unfold ClosedClamp at hfirst hsecond hthird
  rw [composeClamp_bounds, composeClamp_bounds]
  by_cases hbelow : disjointBelow compareValues ⟨none, a, b⟩ ⟨none, c, d⟩ = true
  · -- Everything the middle clamp leaves is below the floor of the outer one.
    obtain ⟨floor, rfl, ceiling, rfl, hlt⟩ := disjointBelow_iff.mp hbelow
    rw [if_pos hbelow, constant_composeClamp rfl]
    split
    · obtain ⟨bottom, rfl, -⟩ := disjointBelow_iff.mp ‹_›
      rw [composeClamp_value]
      simp only [applyClamp, capped]
      grind
    split
    · rw [composeClamp_value]
      simp only [applyClamp, capped]
      grind
    rw [composeClamp_bounds, if_pos]
    cases f <;> simp only [disjointBelow, mergedUpper] at * <;> grind
  rw [if_neg hbelow]
  by_cases habove : disjointAbove compareValues ⟨none, a, b⟩ ⟨none, c, d⟩ = true
  · -- Everything the middle clamp leaves is above the ceiling of the outer one.
    obtain ⟨top, rfl, bottom, rfl, hgt⟩ := disjointAbove_iff.mp habove
    rw [if_pos habove, constant_composeClamp rfl]
    split
    · rw [composeClamp_value]
      simp only [applyClamp, capped]
      grind
    split
    · obtain ⟨ceiling, rfl, -⟩ := disjointAbove_iff.mp ‹_›
      rw [composeClamp_value]
      simp only [applyClamp, capped]
      grind
    rw [composeClamp_bounds, if_neg, if_pos]
    · cases e <;> simp only [disjointAbove, mergedLower] at * <;> grind
    · cases a <;> cases d <;> cases f <;> simp only [disjointBelow, mergedUpper] at * <;> grind
  rw [if_neg habove]
  by_cases hbelow' : disjointBelow compareValues ⟨none, c, d⟩ ⟨none, e, f⟩ = true
  · obtain ⟨bottom, rfl, ceiling, rfl, hlt⟩ := disjointBelow_iff.mp hbelow'
    rw [if_pos hbelow', composeClamp_value, composeClamp_bounds, if_pos]
    · cases a <;> cases b <;>
        simp only [disjointAbove, mergedLower, applyClamp, capped] at * <;> grind
    · cases a <;> simp only [disjointBelow, mergedLower] at * <;> grind
  rw [if_neg hbelow']
  by_cases habove' : disjointAbove compareValues ⟨none, c, d⟩ ⟨none, e, f⟩ = true
  · obtain ⟨ceiling, rfl, bottom, rfl, hgt⟩ := disjointAbove_iff.mp habove'
    rw [if_pos habove', composeClamp_value, composeClamp_bounds, if_neg, if_pos]
    · cases a <;> cases b <;>
        simp only [disjointBelow, mergedUpper, applyClamp, capped] at * <;> grind
    · cases b <;> simp only [disjointAbove, mergedUpper] at * <;> grind
    · cases a <;> cases c <;> cases f <;> simp only [disjointBelow, mergedLower] at * <;> grind
  rw [if_neg habove']
  -- Both pairs overlap, so only the outer and the inner clamp can still be disjoint.
  have hleft : disjointBelow compareValues ⟨none, mergedLower compareValues a c,
      mergedUpper compareValues b d⟩ ⟨none, e, f⟩ =
      disjointBelow compareValues ⟨none, a, b⟩ ⟨none, e, f⟩ := by
    cases a <;> cases c <;> cases f <;> simp only [disjointBelow, mergedLower] at * <;> grind
  have hright : disjointBelow compareValues ⟨none, a, b⟩ ⟨none, mergedLower compareValues c e,
      mergedUpper compareValues d f⟩ = disjointBelow compareValues ⟨none, a, b⟩ ⟨none, e, f⟩ := by
    cases a <;> cases d <;> cases f <;> simp only [disjointBelow, mergedUpper] at * <;> grind
  have hleft' : disjointAbove compareValues ⟨none, mergedLower compareValues a c,
      mergedUpper compareValues b d⟩ ⟨none, e, f⟩ =
      disjointAbove compareValues ⟨none, a, b⟩ ⟨none, e, f⟩ := by
    cases b <;> cases d <;> cases e <;> simp only [disjointAbove, mergedUpper] at * <;> grind
  have hright' : disjointAbove compareValues ⟨none, a, b⟩ ⟨none, mergedLower compareValues c e,
      mergedUpper compareValues d f⟩ = disjointAbove compareValues ⟨none, a, b⟩ ⟨none, e, f⟩ := by
    cases b <;> cases c <;> cases e <;> simp only [disjointAbove, mergedLower] at * <;> grind
  rw [composeClamp_bounds, composeClamp_bounds, hleft, hright, hleft', hright']
  split
  · cases a <;> cases c <;> cases f <;> simp only [disjointBelow, mergedLower] at * <;> grind
  split
  · cases b <;> cases d <;> cases e <;> simp only [disjointAbove, mergedUpper] at * <;> grind
  · congr 1
    · cases a <;> cases c <;> cases e <;> grind [mergedLower]
    · cases b <;> cases d <;> cases f <;> grind [mergedUpper]

variable {outer middle inner : OrderClamp priority}

theorem composeClamp_assoc_constant (houter : ClosedClamp compareValues outer)
    (hmiddle : ClosedClamp compareValues middle) (hfirst : clampIsIdentity outer = false)
    (hsecond : clampIsIdentity middle = false) (houterConstant : outer.constantValue = none)
    (hmiddleConstant : middle.constantValue = none) {value : priority}
    (hvalue : inner.constantValue = some value) :
    composeClamp compareValues (composeClamp compareValues outer middle) inner =
      composeClamp compareValues outer (composeClamp compareValues middle inner) := by
  have hpushed : composeClamp compareValues outer ⟨some (applyClamp compareValues middle value),
      none, none⟩ = _ := composeClamp_constant hfirst houterConstant rfl
  rw [composeClamp_constant hsecond hmiddleConstant hvalue, hpushed]
  have hbelow := apply_disjointBelow hmiddle hmiddleConstant houterConstant
  have habove := apply_disjointAbove houter hmiddle hmiddleConstant houterConstant
  have hoverlap := apply_overlapping houter hmiddle hmiddleConstant houterConstant
  obtain ⟨constant, a, b⟩ := outer
  obtain ⟨middleConstant, c, d⟩ := middle
  cases houterConstant
  cases hmiddleConstant
  rw [composeClamp_bounds]
  split
  · next hdisjoint =>
    have hfloor := hbelow hdisjoint value
    rw [constant_composeClamp (Option.isSome_of_eq_some hfloor)]
    exact congrArg (OrderClamp.mk · none none) hfloor
  next hnotBelow =>
  split
  · next hdisjoint =>
    have htop := habove hdisjoint value
    rw [constant_composeClamp (Option.isSome_of_eq_some htop)]
    exact congrArg (OrderClamp.mk · none none) htop
  · next hnotAbove =>
    rw [composeClamp_constant _ rfl hvalue,
      hoverlap (eq_false_of_ne_true hnotBelow) (eq_false_of_ne_true hnotAbove)]
    cases a <;> cases b <;> cases c <;> cases d <;>
      simp [clampIsIdentity, mergedLower, mergedUpper] at hfirst ⊢

theorem composeClamp_assoc (houter : ClosedClamp compareValues outer)
    (hmiddle : ClosedClamp compareValues middle) (hinner : ClosedClamp compareValues inner) :
    composeClamp compareValues (composeClamp compareValues outer middle) inner =
      composeClamp compareValues outer (composeClamp compareValues middle inner) := by
  cases hfirst : clampIsIdentity outer with
  | true => simp only [eq_identity hfirst, composeClamp_identity]
  | false =>
  cases hsecond : clampIsIdentity middle with
  | true => simp only [eq_identity hsecond, composeClamp_identity]
  | false =>
  cases hthird : clampIsIdentity inner with
  | true => simp only [eq_identity hthird, composeClamp_identity]
  | false =>
  cases hconstant : outer.constantValue with
  | some value =>
      have hfilled := Option.isSome_of_eq_some hconstant
      simp only [constant_composeClamp hfilled]
  | none =>
  cases hmiddleConstant : middle.constantValue with
  | some value =>
      rw [constant_composeClamp (Option.isSome_of_eq_some hmiddleConstant),
        composeClamp_constant hfirst hconstant hmiddleConstant, constant_composeClamp rfl]
  | none =>
  cases hinnerConstant : inner.constantValue with
  | some value =>
      exact composeClamp_assoc_constant houter hmiddle hfirst hsecond hconstant hmiddleConstant
        hinnerConstant
  | none =>
      cases outer
      cases middle
      cases inner
      cases hconstant
      cases hmiddleConstant
      cases hinnerConstant
      exact composeClamp_assoc_bounds houter hmiddle hinner

end Associative

/-- Composition of closed clamps is composition of functions, and a monoid. -/
theorem clamps_compose (compareValues : priority → priority → Ordering)
    [Std.TransCmp compareValues] :
    (∀ outer inner, ClosedClamp compareValues outer → ClosedClamp compareValues inner →
      ClosedClamp compareValues (composeClamp compareValues outer inner) ∧
      ∀ value, applyClamp compareValues (composeClamp compareValues outer inner) value =
        applyClamp compareValues outer (applyClamp compareValues inner value)) ∧
    (∀ outer middle inner, ClosedClamp compareValues outer → ClosedClamp compareValues middle →
      ClosedClamp compareValues inner →
      composeClamp compareValues (composeClamp compareValues outer middle) inner =
        composeClamp compareValues outer (composeClamp compareValues middle inner)) ∧
    ClosedClamp compareValues (clampIdentity : OrderClamp priority) ∧
    (∀ value, applyClamp compareValues clampIdentity value = value) ∧
    ∀ clamp, composeClamp compareValues clampIdentity clamp = clamp ∧
      composeClamp compareValues clamp clampIdentity = clamp := by
  refine ⟨fun outer inner houter hinner => ⟨closed_compose houter hinner, ?_⟩, ?_,
    closed_identity, applyClamp_identity rfl, composeClamp_identity⟩
  · exact applyClamp_compose houter hinner
  · exact fun outer middle inner => composeClamp_assoc

/-- A cap after a floor, where the two bounds compare equal and the input is below them. -/
theorem clamps_compose_equivalent :
    applyClamp (compareOn (Prod.fst : Nat × Nat → Nat))
      (composeClamp (compareOn Prod.fst) (clampAtMost (2, 1)) (clampAtLeast (2, 0))) (1, 5) =
        (2, 0) :=
  ((clamps_compose (compareOn Prod.fst)).1 (clampAtMost (2, 1)) (clampAtLeast (2, 0))
    (closed_atMost _) (closed_atLeast _)).2 (1, 5)

end Durable7.FingerTree.PersistentMonotoneActionHeap
