import Durable7.FingerTree.Measured.Ranks

/-!
# Deques

A measured tree of elements.  The measure counts the elements and remembers the last one; its sum
refuses a count that does not fit.  A collection that keeps its order in a deque uses the
operations of `OrderDeque` only.
-/

namespace Durable7.FingerTree

open Foundation List Measured.ValidTree Nat

universe u

/-- The operations of a deque beside the list they act on. -/
class OrderDeque (D : Type → Type u) where
  toList {α : Type} : D α → List α
  empty {α : Type} : D α
  fromList {α : Type} : List α → D α
  count {α : Type} : D α → Int
  first {α : Type} : D α → Option α
  last {α : Type} : D α → Option α
  index {α : Type} : Int → D α → Option α
  splitAt {α : Type} : Int → D α → Option (D α × D α)
  insertAt {α : Type} : Int → α → D α → Option (D α)
  deleteAt {α : Type} : Int → D α → Option (D α)
  sortedLowerBoundBy {α β : Type} : (α → β → Ordering) → β → D α → Int
  toList_empty {α : Type} : toList (empty : D α) = []
  toList_fromList {α : Type} (values : List α) : toList (fromList values) = values
  count_eq {α : Type} (deque : D α) : count deque = (toList deque).length
  first_eq {α : Type} (deque : D α) : first deque = (toList deque).head?
  last_eq {α : Type} (deque : D α) : last deque = (toList deque).getLast?
  index_eq {α : Type} (position : Int) (deque : D α) :
    index position deque = if position < 0 then none else (toList deque)[position.toNat]?
  splitAt_eq {α : Type} (position : Int) (deque : D α) :
    (splitAt position deque).map (Prod.map toList toList) =
      if position < 0 ∨ position > (toList deque).length then none
      else some ((toList deque).take position.toNat, (toList deque).drop position.toNat)
  insertAt_eq {α : Type} (position : Int) (value : α) (deque : D α) :
    (insertAt position value deque).map toList =
      if position < 0 ∨ position > (toList deque).length then none
      else some ((toList deque).take position.toNat ++ value :: (toList deque).drop position.toNat)
  deleteAt_eq {α : Type} (position : Int) (deque : D α) :
    (deleteAt position deque).map toList =
      if position < 0 ∨ position ≥ (toList deque).length then none
      else some ((toList deque).eraseIdx position.toNat)
  sortedLowerBoundBy_eq {α β : Type} (comparison : α → β → Ordering) (value : β) (deque : D α)
    (hsorted : (toList deque).Pairwise fun before after =>
      (comparison before value != .lt) = true → (comparison after value != .lt) = true) :
    sortedLowerBoundBy comparison value deque =
      (toList deque).findIdx fun stored => comparison stored value != .lt

/-! ## Counts -/

inductive Deque.DequeError where
  | negativeCount
  | lengthOverflow
  deriving DecidableEq

def Deque.DequeError.message : Deque.DequeError → String
  | .negativeCount => "Durable7.FingerTree.Deque: internal negative count"
  | .lengthOverflow => "Durable7.FingerTree.Deque: length overflow"

def Deque.maxBound : Int := 9223372036854775807

def Deque.checkedAdd (left right : Int) : Except DequeError Int :=
  if left < 0 ∨ right < 0 then .error .negativeCount
  else if right > maxBound - left then .error .lengthOverflow
  else .ok (left + right)

/-- What `checkedAdd` makes of so many ones. -/
def Deque.checkedLength (length : Nat) : Except DequeError Int :=
  if (length : Int) ≤ maxBound then .ok length else .error .lengthOverflow

theorem Deque.checkedAdd_lengths (left right : Nat) :
    ((checkedLength left).bind fun first => (checkedLength right).bind (checkedAdd first)) =
      checkedLength (left + right) := by
  unfold checkedLength
  by_cases hfits : ((left + right : Nat) : Int) ≤ maxBound
  · rw [if_pos (show (left : Int) ≤ maxBound by omega),
      if_pos (show (right : Int) ≤ maxBound by omega), if_pos hfits]
    simp only [Except.bind, checkedAdd]
    rw [if_neg (by omega), if_neg (by omega), Int.natCast_add]
  rw [if_neg hfits]
  by_cases hleft : (left : Int) ≤ maxBound
  · by_cases hright : (right : Int) ≤ maxBound
    · rw [if_pos hleft, if_pos hright]
      simp only [Except.bind, checkedAdd]
      rw [if_neg (by omega), if_pos (by omega)]
    · rw [if_pos hleft, if_neg hright]
      rfl
  · rw [if_neg hleft]
    rfl

/-- The strict count of a measure: a number, or what its evaluation raises. -/
@[ext]
structure Deque.Count where
  outcome : Except DequeError Int
  total : ∃ length, outcome = checkedLength length

instance : Zero Deque.Count := ⟨.ok 0, 0, rfl⟩

instance : One Deque.Count := ⟨.ok 1, 1, rfl⟩

instance : Add Deque.Count where
  add left right :=
    ⟨left.outcome.bind fun first => right.outcome.bind (Deque.checkedAdd first), by
      obtain ⟨-, first, rfl⟩ := left
      obtain ⟨-, second, rfl⟩ := right
      exact ⟨first + second, Deque.checkedAdd_lengths first second⟩⟩

theorem Deque.Count.add_outcome {left right : Count} {first second : Nat}
    (hleft : left.outcome = checkedLength first) (hright : right.outcome = checkedLength second) :
    (left + right).outcome = checkedLength (first + second) := by
  rw [← checkedAdd_lengths, ← hleft, ← hright]
  rfl

instance : AddMonoidWithOne Deque.Count where
  zero_add := by
    rintro ⟨outcome, length, hlength⟩
    have hzero : (0 : Deque.Count).outcome = Deque.checkedLength 0 := rfl
    refine Deque.Count.ext ((Deque.Count.add_outcome hzero hlength).trans ?_)
    rw [zero_add]
    exact hlength.symm
  add_zero := by
    rintro ⟨outcome, length, hlength⟩
    have hzero : (0 : Deque.Count).outcome = Deque.checkedLength 0 := rfl
    exact Deque.Count.ext ((Deque.Count.add_outcome hlength hzero).trans hlength.symm)
  add_assoc := by
    rintro ⟨-, first, hfirst⟩ ⟨-, second, hsecond⟩ ⟨-, third, hthird⟩
    refine Deque.Count.ext ?_
    rw [Deque.Count.add_outcome (Deque.Count.add_outcome hfirst hsecond) hthird, add_assoc]
    exact (Deque.Count.add_outcome hfirst (Deque.Count.add_outcome hsecond hthird)).symm
  nsmul := nsmulRec

theorem Deque.Count.outcome_natCast (length : Nat) :
    (length : Count).outcome = checkedLength length := by
  induction length with
  | zero => rfl
  | succ length ih =>
      rw [Nat.cast_succ, ← checkedAdd_lengths, ← ih]
      rfl

/-- What counts the elements of a deque, exactly while their number fits. -/
class DequeCount (c : Type) extends AddMonoidWithOne c where
  value : c → Int
  Fits : Nat → Prop
  fits_of_le {length longer : Nat} (hle : length ≤ longer) (h : Fits longer) : Fits length
  value_natCast {length : Nat} (h : Fits length) : value (length : c) = length

/-- The counts of the source.  No operation reads a count that raised. -/
instance : DequeCount Deque.Count where
  value count :=
    match count.outcome with
    | .ok value => value
    | .error _ => -1
  Fits length := (length : Int) ≤ Deque.maxBound
  fits_of_le hle h := by omega
  value_natCast h := by rw [Deque.Count.outcome_natCast, Deque.checkedLength, if_pos h]

/-- Counts without a bound, for the orders of collections of distinct items. -/
instance : DequeCount Nat where
  value count := count
  Fits _ := True
  fits_of_le _ h := h
  value_natCast _ := rfl

/-! ## The measured deque -/

abbrev Deque.DequeMeasure (c α : Type) := Measured.Ranked c α

instance {c α : Type} [DequeCount c] : Measured (Deque.DequeMeasure c α) α where
  measure value := ⟨1, some value⟩

structure Deque (c : Type) [DequeCount c] (α : Type) where
  tree : Measured.ValidTree (Deque.DequeMeasure c α) α

namespace Deque

open DequeCount (Fits)

variable {c α β : Type} [DequeCount c]

def measureCount (measure : DequeMeasure c α) : Int := DequeCount.value measure.total

def empty : Deque c α := ⟨.empty⟩

def fromList (values : List α) : Deque c α := ⟨.fromList values⟩

def toList (deque : Deque c α) : List α := deque.tree.toList

def count (deque : Deque c α) : Int := measureCount deque.tree.measure

def snoc (deque : Deque c α) (value : α) : Deque c α := ⟨deque.tree.snoc value⟩

def append (left right : Deque c α) : Deque c α := ⟨left.tree.append right.tree⟩

def first (deque : Deque c α) : Option α := deque.tree.viewL.map Prod.fst

def last (deque : Deque c α) : Option α := deque.tree.viewR.map Prod.snd

def past (position : Int) (measure : DequeMeasure c α) : Bool :=
  decide (measureCount measure > position)

def index (position : Int) (deque : Deque c α) : Option α :=
  if position < 0 ∨ position ≥ count deque then none
  else (deque.tree.split (past position)).map fun parts => parts.2.1

def splitAt (position : Int) (deque : Deque c α) : Option (Deque c α × Deque c α) :=
  if position < 0 ∨ position > count deque then none
  else if position = 0 then some (empty, deque)
  else if position = count deque then some (deque, empty)
  else (deque.tree.split (past position)).map fun parts => (⟨parts.1⟩, ⟨.cons parts.2.1 parts.2.2⟩)

def insertAt (position : Int) (value : α) (deque : Deque c α) : Option (Deque c α) :=
  if position < 0 ∨ position > count deque then none
  else (splitAt position deque).map fun parts => append (snoc parts.1 value) parts.2

def deleteAt (position : Int) (deque : Deque c α) : Option (Deque c α) :=
  if position < 0 ∨ position ≥ count deque then none
  else (deque.tree.split (past position)).map fun parts => ⟨parts.1.append parts.2.2⟩

def boundPredicate (accepts : Ordering → Bool) (comparison : α → β → Ordering) (value : β)
    (measure : DequeMeasure c α) : Bool :=
  measure.lastKey.any fun stored => accepts (comparison stored value)

def sortedBoundBy (accepts : Ordering → Bool) (comparison : α → β → Ordering) (value : β)
    (deque : Deque c α) : Int × Option α :=
  match deque.tree.locate (boundPredicate accepts comparison value) with
  | some (before, candidate) => (measureCount before, some candidate)
  | none => (count deque, none)

def sortedLowerBoundBy (comparison : α → β → Ordering) (value : β) (deque : Deque c α) : Int :=
  (sortedBoundBy (fun order => order != .lt) comparison value deque).1

theorem foldMeasure_eq (values : List α) :
    Measured.foldMeasure values = (⟨values.length, values.getLast?⟩ : DequeMeasure c α) := by
  have hfold := @Measured.Ranked.foldMeasure_eq c α α _ _ id (fun _ => rfl) values
  rwa [map_id] at hfold

theorem measureCount_eq {values : List α} (h : Fits c values.length) :
    measureCount (Measured.foldMeasure values : DequeMeasure c α) = values.length := by
  rw [foldMeasure_eq, measureCount, DequeCount.value_natCast h]

theorem count_eq (deque : Deque c α) (hfits : Fits c (toList deque).length) :
    count deque = (toList deque).length := by
  rw [toList] at hfits ⊢
  rw [count, measure_eq, measureCount_eq hfits]

theorem first_eq (deque : Deque c α) : first deque = (toList deque).head? := by
  rw [first, toList]
  rcases deque.tree.viewL_cases with ⟨hview, hnil⟩ | ⟨value, rest, hview, hlist⟩
  · rw [hview, hnil]
    rfl
  · rw [hview, hlist]
    rfl

theorem last_eq (deque : Deque c α) : last deque = (toList deque).getLast? := by
  rw [last, toList]
  rcases deque.tree.viewR_cases with ⟨hview, hnil⟩ | ⟨rest, value, hview, hlist⟩
  · rw [hview, hnil]
    rfl
  · rw [hview, hlist, List.getLast?_concat]
    rfl

theorem split_past {deque : Deque c α} (hfits : Fits c (toList deque).length) (position : Int)
    (hlow : 0 ≤ position) (hhigh : position < (toList deque).length) :
    ∃ left value right, deque.tree.split (past position) = some (left, value, right) ∧
      toList deque = left.toList ++ value :: right.toList ∧
      left.toList.length = position.toNat := by
  rw [toList] at hfits hhigh ⊢
  have hpast : ∀ values : List α, values.length ≤ deque.tree.toList.length →
      past position (Measured.foldMeasure values : DequeMeasure c α) =
        decide ((values.length : Int) > position) := fun values hle => by
    rw [past, measureCount_eq (DequeCount.fits_of_le hle hfits)]
  have hone : past position (1 : DequeMeasure c α) = false :=
    (hpast [] (Nat.zero_le _)).trans (decide_eq_false (by simpa using hlow))
  rcases deque.tree.split_cases (past position) with ⟨left, value, right, hsplit, hflips⟩ |
    ⟨-, hmissed⟩
  · have hlength : deque.tree.toList.length = left.toList.length + (right.toList.length + 1) := by
      rw [hflips.values_eq, length_append, length_cons]
    have hbefore := hflips.before hone
    have hreached := hflips.reached
    rw [hpast _ (by omega), decide_eq_false_iff_not] at hbefore
    rw [← Measured.foldMeasure_singleton value, ← Measured.foldMeasure_append,
      hpast _ (by rw [length_append, length_singleton]; omega), decide_eq_true_iff, length_append,
      length_singleton] at hreached
    exact ⟨left, value, right, hsplit, hflips.values_eq, by omega⟩
  · rcases hmissed with hnil | hwhole
    · rw [hnil, length_nil] at hhigh
      omega
    · rw [hpast _ (Nat.le_refl _), decide_eq_false_iff_not] at hwhole
      exact absurd hhigh hwhole

section

variable (position : Int) (value : α) (deque : Deque c α) (hfits : Fits c (toList deque).length)

include hfits

theorem index_eq :
    index position deque = if position < 0 then none else (toList deque)[position.toNat]? := by
  rw [index, count_eq deque hfits]
  by_cases hnegative : position < 0
  · rw [if_pos (.inl hnegative), if_pos hnegative]
  rw [if_neg hnegative]
  by_cases hlarge : position ≥ (toList deque).length
  · rw [if_pos (.inr hlarge), List.getElem?_eq_none (by omega)]
  · obtain ⟨left, value, right, hsplit, hlist, hlength⟩ :=
      split_past hfits position (Int.not_lt.mp hnegative) (Int.not_le.mp hlarge)
    rw [if_neg (by omega), hsplit, hlist, ← hlength, List.getElem?_append_right (le_refl _),
      Nat.sub_self]
    rfl

theorem splitAt_eq :
    (splitAt position deque).map (Prod.map toList toList) =
      if position < 0 ∨ position > (toList deque).length then none
      else some ((toList deque).take position.toNat, (toList deque).drop position.toNat) := by
  have hempty : toList (empty : Deque c α) = [] := toList_empty
  rw [splitAt, count_eq deque hfits]
  by_cases hout : position < 0 ∨ position > (toList deque).length
  · rw [if_pos hout, if_pos hout]
    rfl
  rw [if_neg hout, if_neg hout]
  by_cases hzero : position = 0
  · rw [if_pos hzero, hzero, Option.map_some, Prod.map_apply, hempty]
    rfl
  rw [if_neg hzero]
  by_cases hlast : position = (toList deque).length
  · rw [if_pos hlast, hlast, Option.map_some, Prod.map_apply, hempty, Int.toNat_natCast,
      take_length, drop_length]
  · obtain ⟨left, value, right, hsplit, hlist, hlength⟩ :=
      split_past hfits position (by omega) (by omega)
    rw [if_neg hlast, hsplit, Option.map_some, Option.map_some, Prod.map_apply, toList, toList,
      toList_cons, hlist, ← hlength, take_left, drop_left]

theorem insertAt_eq :
    (insertAt position value deque).map toList =
      if position < 0 ∨ position > (toList deque).length then none
      else some
        ((toList deque).take position.toNat ++ value :: (toList deque).drop position.toNat) := by
  have hparts := splitAt_eq position deque hfits
  rw [insertAt, count_eq deque hfits]
  by_cases hout : position < 0 ∨ position > (toList deque).length
  · rw [if_pos hout, if_pos hout]
    rfl
  · rw [if_neg hout] at hparts
    rw [if_neg hout, if_neg hout]
    obtain ⟨parts, hsplit, hlists⟩ := Option.map_eq_some_iff.mp hparts
    obtain ⟨hleft, hright⟩ := Prod.mk.inj hlists
    rw [hsplit, Option.map_some, Option.map_some, append, snoc, toList, toList_append, toList_snoc,
      append_assoc, singleton_append, ← hleft, ← hright, toList, toList]

theorem deleteAt_eq :
    (deleteAt position deque).map toList =
      if position < 0 ∨ position ≥ (toList deque).length then none
      else some ((toList deque).eraseIdx position.toNat) := by
  rw [deleteAt, count_eq deque hfits]
  by_cases hout : position < 0 ∨ position ≥ (toList deque).length
  · rw [if_pos hout, if_pos hout]
    rfl
  · obtain ⟨left, value, right, hsplit, hlist, hlength⟩ :=
      split_past hfits position (by omega) (by omega)
    rw [if_neg hout, if_neg hout, hsplit, Option.map_some, Option.map_some, toList, toList_append,
      hlist, ← hlength, eraseIdx_append_of_length_le (Nat.le_refl _), Nat.sub_self]
    rfl

end

theorem sortedBoundBy_eq {accepts : Ordering → Bool} (comparison : α → β → Ordering) (value : β)
    (deque : Deque c α) (hfits : Fits c (toList deque).length)
    (hsorted : (toList deque).Pairwise fun before after =>
      accepts (comparison before value) = true → accepts (comparison after value) = true) :
    sortedBoundBy accepts comparison value deque =
      ((((toList deque).findIdx fun stored => accepts (comparison stored value) : Nat) : Int),
        (toList deque).find? fun stored => accepts (comparison stored value)) := by
  have hlast : ∀ (front : List α) (stored : α),
      boundPredicate accepts comparison value
          (Measured.foldMeasure (front ++ [stored]) : DequeMeasure c α) =
            accepts (comparison stored value) := by
    intro front stored
    rw [foldMeasure_eq, List.getLast?_concat]
    rfl
  rw [sortedBoundBy, locate]
  rcases split_last hlast rfl deque.tree hsorted with ⟨hsplit, hnone⟩ |
    ⟨left, found, right, hsplit, hlist, hbefore, hfound, -⟩
  · rw [hsplit, toList, findIdx_eq_length_of_false hnone, find?_eq_none.mpr (by simpa using hnone)]
    exact congrArg (·, none) (count_eq deque hfits)
  · have hleft : Fits c left.toList.length :=
      DequeCount.fits_of_le (by rw [toList, hlist, length_append]; omega) hfits
    rw [hsplit, toList, hlist, findIdx_append, findIdx_eq_length_of_false hbefore,
      if_neg (lt_irrefl _), findIdx_cons, find?_append,
      find?_eq_none.mpr (by simpa using hbefore)]
    simp [measure_eq, measureCount_eq hleft, hfound]

theorem sortedLowerBoundBy_eq (comparison : α → β → Ordering) (value : β) (deque : Deque c α)
    (hfits : Fits c (toList deque).length) (hsorted : (toList deque).Pairwise fun before after =>
      (comparison before value != .lt) = true → (comparison after value != .lt) = true) :
    sortedLowerBoundBy comparison value deque =
      (toList deque).findIdx fun stored => comparison stored value != .lt := by
  rw [sortedLowerBoundBy, sortedBoundBy_eq comparison value deque hfits hsorted]

instance : OrderDeque (Deque Nat) where
  toList := toList
  empty := empty
  fromList := fromList
  count := count
  first := first
  last := last
  index := index
  splitAt := splitAt
  insertAt := insertAt
  deleteAt := deleteAt
  sortedLowerBoundBy := sortedLowerBoundBy
  toList_empty := toList_empty
  toList_fromList := toList_fromList
  count_eq deque := count_eq deque trivial
  first_eq := first_eq
  last_eq := last_eq
  index_eq position deque := index_eq position deque trivial
  splitAt_eq position deque := splitAt_eq position deque trivial
  insertAt_eq position value deque := insertAt_eq position value deque trivial
  deleteAt_eq position deque := deleteAt_eq position deque trivial
  sortedLowerBoundBy_eq comparison value deque :=
    sortedLowerBoundBy_eq comparison value deque trivial

end Deque

/-- A list is a deque of its own elements. -/
instance : OrderDeque List where
  toList values := values
  empty := []
  fromList values := values
  count values := values.length
  first values := values.head?
  last values := values.getLast?
  index position values := if position < 0 then none else values[position.toNat]?
  splitAt position values :=
    if position < 0 ∨ position > values.length then none
    else some (values.take position.toNat, values.drop position.toNat)
  insertAt position value values :=
    if position < 0 ∨ position > values.length then none
    else some (values.take position.toNat ++ value :: values.drop position.toNat)
  deleteAt position values :=
    if position < 0 ∨ position ≥ values.length then none
    else some (values.eraseIdx position.toNat)
  sortedLowerBoundBy comparison value values :=
    values.findIdx fun stored => comparison stored value != .lt
  toList_empty := rfl
  toList_fromList _ := rfl
  count_eq _ := rfl
  first_eq _ := rfl
  last_eq _ := rfl
  index_eq _ _ := rfl
  splitAt_eq _ _ := by split <;> rfl
  insertAt_eq _ _ _ := by split <;> rfl
  deleteAt_eq _ _ := by split <;> rfl
  sortedLowerBoundBy_eq _ _ _ _ := rfl

end Durable7.FingerTree
