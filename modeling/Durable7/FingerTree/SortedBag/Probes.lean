import Durable7.FingerTree.SortedBag.Edits

/-!
# Sorted bags with a coarse order

The searches by key descend by the comparison and end with a test for equality.  Where the two agree
on every probe of a history, the operations by key work on classes of the comparison.
-/

namespace Durable7.FingerTree.SortedBag

section

open Foundation

variable {a : Type}

inductive Step (a : Type) where
  | insert (value : a)
  | deleteOne (value : a)
  | deleteAll (value : a)
  | countOf (value : a)
  deriving DecidableEq

def Step.probe : Step a → a
  | .insert value | .deleteOne value | .deleteAll value | .countOf value => value

variable [Ord a]

def Step.applyList (items : List a) : Step a → List a
  | .insert value => SortedBags.insert compare value items
  | .deleteOne value => SortedBags.deleteOne compare value items
  | .deleteAll value => SortedBags.deleteAll compare value items
  | .countOf _ => items

variable [BEq a]

def Step.apply (bag : SortedBag a) : Step a → SortedBag a
  | .insert value => SortedBag.insert value bag
  | .deleteOne value => SortedBag.deleteOne value bag
  | .deleteAll value => SortedBag.deleteAll value bag
  | .countOf _ => bag

/-- Every probe equals the keys it compares equal with. -/
def AllHeed (bag : SortedBag a) : List (Step a) → Prop
  | [] => True
  | step :: steps => Heeds step.probe bag.buckets ∧ AllHeed (step.apply bag) steps

/-- The occurrences of a probe are the elements that compare equal with it. -/
structure TreatsClass (value : a) (bag : SortedBag a) (items : List a) : Prop where
  occurrences : countOf value bag = SortedBags.countOf compare value items
  contains : member value bag = items.any fun item => compare item value == .eq
  ranks : countOf value bag = countAtMost value bag - countLessThan value bag
  inserted : toList (insert value bag) = SortedBags.insert compare value items
  bucketed : toCounts (insert value bag) =
    SortedBags.counts compare (SortedBags.insert compare value items)
  deletedOne : toList (deleteOne value bag) = SortedBags.deleteOne compare value items
  deletedAll : toList (deleteAll value bag) = SortedBags.deleteAll compare value items

omit [BEq a] in
theorem length_atMost (value : a) (items : List a) : (atMost compare id value items).length =
    SortedBags.countOf compare value items + (below compare id value items).length := by
  induction items with
  | nil => rfl
  | cons item items ih =>
      simp only [atMost, below, SortedBags.countOf, id] at ih ⊢
      cases hcompare : compare item value <;> simp [hcompare] <;> omega

variable {bag : SortedBag a} {items : List a} [Std.TransOrd a] [FinerEq a]

theorem Refines.treatsClass (h : Refines bag items) {value : a}
    (hheeds : Heeds value bag.buckets) : TreatsClass value bag items := by
  obtain ⟨rfl, hvalid⟩ := h
  have hinsert := insert_spec hvalid hheeds
  refine ⟨countOf_eq hvalid hheeds, member_eq hvalid hheeds, ?_, hinsert.2, ?_,
    (deleteOne_spec hvalid hheeds).2, (deleteAll_spec hvalid hheeds).2⟩
  · rw [countOf_eq hvalid hheeds, countAtMost_eq hvalid, countLessThan_eq hvalid, length_atMost,
      Nat.add_sub_cancel]
  · rw [toCounts_eq hinsert.1, hinsert.2]

theorem refines_step (h : Refines bag items) (step : Step a)
    (hheeds : Heeds step.probe bag.buckets) :
    Refines (step.apply bag) (step.applyList items) := by
  obtain ⟨rfl, hvalid⟩ := h
  cases step with
  | insert value => exact ⟨(insert_spec hvalid hheeds).2, (insert_spec hvalid hheeds).1⟩
  | deleteOne value => exact ⟨(deleteOne_spec hvalid hheeds).2, (deleteOne_spec hvalid hheeds).1⟩
  | deleteAll value => exact ⟨(deleteAll_spec hvalid hheeds).2, (deleteAll_spec hvalid hheeds).1⟩
  | countOf value => exact ⟨rfl, hvalid⟩

theorem refines_steps (h : Refines bag items) (steps : List (Step a)) (hheeds : AllHeed bag steps) :
    Refines (steps.foldl Step.apply bag) (steps.foldl Step.applyList items) := by
  induction steps generalizing bag items with
  | nil => exact h
  | cons step steps ih => exact ih (refines_step h step hheeds.1) hheeds.2

/-- In a history whose probes tell no equals apart, the next such probe is treated as its class. -/
theorem steps_treat_classes (steps : List (Step a)) (hsteps : AllHeed empty steps) (value : a)
    (hvalue : Heeds value (steps.foldl Step.apply empty).buckets) :
    toList (steps.foldl Step.apply empty) = steps.foldl Step.applyList [] ∧
      TreatsClass value (steps.foldl Step.apply empty) (steps.foldl Step.applyList []) := by
  have hrefines := refines_steps refines_empty steps hsteps
  exact ⟨hrefines.listed, hrefines.treatsClass hvalue⟩

end

structure Labelled where
  rank : Nat
  label : Bool
  deriving DecidableEq

instance : Ord Labelled := ⟨compareOn Labelled.rank⟩

instance : Std.TransOrd Labelled := inferInstanceAs (Std.TransCmp (compareOn Labelled.rank))

instance : FinerEq Labelled where
  compare_eq h := by
    rw [eq_of_beq h]
    exact Std.ReflCmp.compare_self

/-- The labels of a rank change once the rank is gone. -/
def relabelled : List (Step Labelled) :=
  [.insert ⟨1, true⟩, .insert ⟨2, false⟩, .insert ⟨1, true⟩, .deleteAll ⟨1, true⟩,
    .insert ⟨1, false⟩, .insert ⟨1, false⟩]

theorem steps_treat_classes_labelled :
    toList (relabelled.foldl Step.apply empty) = [⟨1, false⟩, ⟨1, false⟩, ⟨2, false⟩] ∧
      countOf ⟨1, false⟩ (relabelled.foldl Step.apply empty) = 2 := by
  have hsteps : AllHeed empty relabelled := by
    simp only [relabelled, AllHeed, Heeds]
    decide +kernel
  have htreats := steps_treat_classes relabelled hsteps ⟨1, false⟩ (by
    unfold Heeds
    decide +kernel)
  exact ⟨htreats.1.trans (by decide), htreats.2.occurrences.trans (by decide)⟩

/-- Two labels of one rank take a bucket each, and each is counted alone. -/
theorem labels_apart :
    ¬ ∀ (steps : List (Step Labelled)) (value : Labelled),
      countOf value (steps.foldl Step.apply empty) =
        countAtMost value (steps.foldl Step.apply empty) -
          countLessThan value (steps.foldl Step.apply empty) := by
  intro h
  have hcounts := h [.insert ⟨1, false⟩, .insert ⟨1, true⟩] ⟨1, true⟩
  revert hcounts
  decide

end Durable7.FingerTree.SortedBag
