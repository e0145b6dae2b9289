import Durable7.FingerTree.Measured.Searches
import Durable7.Foundation.ListModel

/-!
# Ranks and keys

A tree whose measure counts the elements and remembers the last key.  A rank is found by the count
of a prefix and a key by its last key.
-/

namespace Durable7.FingerTree.Measured

open Foundation List ValidTree

@[ext]
structure Ranked (c k : Type) where
  total : c
  lastKey : Option k

instance {c k : Type} [AddMonoid c] : Monoid (Ranked c k) where
  one := ⟨0, none⟩
  mul left right := ⟨left.total + right.total, right.lastKey.or left.lastKey⟩
  one_mul measure := by
    ext1
    · exact zero_add _
    · exact Option.or_none
  mul_one measure := by
    ext1
    · exact add_zero _
    · exact Option.none_or
  mul_assoc first second third := by
    ext1
    · exact add_assoc _ _ _
    · exact Option.or_assoc.symm

namespace Ranked

theorem foldMeasure_eq {c e k : Type} [AddMonoidWithOne c] [Measured (Ranked c k) e] {key : e → k}
    (h : ∀ element, (measure element : Ranked c k) = ⟨1, some (key element)⟩) (elements : List e) :
    foldMeasure elements = (⟨elements.length, (elements.map key).getLast?⟩ : Ranked c k) := by
  induction elements with
  | nil => exact Ranked.ext Nat.cast_zero.symm rfl
  | cons element elements ih =>
      rw [foldMeasure_cons, ih, h]
      refine Ranked.ext ?_ ?_
      · rw [length_cons, Nat.add_comm, Nat.cast_add, Nat.cast_one]
        rfl
      · change (elements.map key).getLast?.or (some (key element)) = _
        rw [map_cons, List.getLast?_cons]
        cases (elements.map key).getLast? <;> rfl

/-- An element shows an item, and the item has a key. -/
class Element (e : Type) (b k : outParam Type) extends Measured (Ranked Nat k) e where
  shown : e → b
  key : b → k
  measure_eq (element : e) : (measure element : Ranked Nat k) = ⟨1, some (key (shown element))⟩

open Element (shown key)

variable {e b k : Type} [Element e b k]

/-- The items of a tree. -/
def treeList (tree : ValidTree (Ranked Nat k) e) : List b := tree.toList.map shown

def isValidRange (position lengthValue total : Int) : Bool :=
  position ≥ 0 && lengthValue ≥ 0 && position ≤ total && lengthValue ≤ total - position

section Ranks

variable (position lengthValue : Int) (tree : ValidTree (Ranked Nat k) e)

def splitAtRank : ValidTree (Ranked Nat k) e × ValidTree (Ranked Nat k) e :=
  if position ≤ 0 then (.empty, tree)
  else if position ≥ tree.measure.total then (tree, .empty)
  else
    match tree.split fun measure => decide (measure.total > position.toNat) with
    | none => (tree, .empty)
    | some (left, stored, right) => (left, right.cons stored)

def slice : Option (ValidTree (Ranked Nat k) e) :=
  if !isValidRange position lengthValue tree.measure.total then none
  else
    let afterPosition := (splitAtRank position tree).2
    some (splitAtRank lengthValue afterPosition).1

def index : Option b :=
  if position < 0 ∨ position ≥ tree.measure.total then none
  else
    (tree.locate fun measure => decide (measure.total > position.toNat)).map fun found =>
      shown found.2

end Ranks

def measureBeforeCount (located : Option (Ranked Nat k × e)) (whole : Ranked Nat k) : Nat :=
  match located with
  | some (before, _) => before.total
  | none => whole.total

section Searches

variable [Ord k]

def sameClass (stored : e) (target : k) : Bool := compare (key e (shown stored)) target == .eq

variable (target : k) (tree : ValidTree (Ranked Nat k) e)

def reaches (measure : Ranked Nat k) : Bool :=
  measure.lastKey.any fun last => compare last target != .lt

def passes (measure : Ranked Nat k) : Bool :=
  measure.lastKey.any fun last => compare last target == .gt

def locateAtLeast : Option (Ranked Nat k × e) := tree.locate (reaches target)

def locateAbove : Option (Ranked Nat k × e) := tree.locate (passes target)

def splitAtLeast : Option (ValidTree (Ranked Nat k) e × e × ValidTree (Ranked Nat k) e) :=
  tree.split (reaches target)

def member : Bool :=
  match locateAtLeast target tree with
  | some (_, stored) => sameClass stored target
  | none => false

def delete : ValidTree (Ranked Nat k) e :=
  match splitAtLeast target tree with
  | some (left, stored, right) => if sameClass stored target then left.append right else tree
  | none => tree

def floor : Option b :=
  match splitAtLeast target tree with
  | none => tree.last.map shown
  | some (left, stored, _) =>
      if sameClass stored target then some (shown stored) else left.last.map shown

def ceiling : Option b := (locateAtLeast target tree).map fun found => shown found.2

def lower : Option b :=
  match splitAtLeast target tree with
  | none => tree.last.map shown
  | some (left, _, _) => left.last.map shown

def higher : Option b := (locateAbove target tree).map fun found => shown found.2

def indexOf : Option Nat :=
  match locateAtLeast target tree with
  | some (before, stored) => if sameClass stored target then some before.total else none
  | none => none

def countLessThan : Nat := measureBeforeCount (locateAtLeast target tree) tree.measure

def countAtMost : Nat := measureBeforeCount (locateAbove target tree) tree.measure

end Searches

/-! ## Lists -/

theorem foldMeasure_element (elements : List e) :
    foldMeasure elements =
      (⟨elements.length, ((elements.map shown).map (key e)).getLast?⟩ : Ranked Nat k) := by
  rw [map_map]
  exact foldMeasure_eq Element.measure_eq elements

theorem foldMeasure_total (elements : List e) :
    (foldMeasure elements : Ranked Nat k).total = (elements.map fun _ => 1).sum := by
  rw [foldMeasure_element, map_const', sum_replicate_nat, Nat.mul_one]

theorem foldMeasure_lastKey (elements : List e) :
    (foldMeasure elements : Ranked Nat k).lastKey = (elements.map shown).getLast?.map (key e) := by
  rw [foldMeasure_element, List.getLast?_map]

section

variable (tree left right : ValidTree (Ranked Nat k) e) (element : e)

theorem length_treeList : (treeList tree).length = tree.toList.length := length_map _

theorem measure_total : tree.measure.total = (treeList tree).length := by
  rw [tree.measure_eq, foldMeasure_element, length_treeList]

theorem null_iff : tree.null = true ↔ treeList tree = [] := by
  rw [tree.null_iff, treeList, map_eq_nil_iff]

theorem head_eq : tree.head.map shown = (treeList tree).head? := by
  rw [tree.head_eq, treeList, List.head?_map]

theorem last_eq : tree.last.map shown = (treeList tree).getLast? := by
  rw [tree.last_eq, treeList, List.getLast?_map]

theorem treeList_empty : treeList (.empty : ValidTree (Ranked Nat k) e) = [] := by
  rw [treeList, toList_empty]
  rfl

theorem treeList_singleton :
    treeList (.singleton element : ValidTree (Ranked Nat k) e) = [shown element] := by
  rw [treeList, toList_singleton]
  rfl

theorem treeList_cons : treeList (tree.cons element) = shown element :: treeList tree := by
  rw [treeList, toList_cons]
  rfl

theorem treeList_snoc : treeList (tree.snoc element) = treeList tree ++ [shown element] := by
  rw [treeList, toList_snoc, map_append]
  rfl

theorem treeList_append : treeList (left.append right) = treeList left ++ treeList right := by
  rw [treeList, toList_append, map_append]
  rfl

end

theorem treeList_parts {tree left right : ValidTree (Ranked Nat k) e} {stored : e}
    (h : tree.toList = left.toList ++ stored :: right.toList) :
    treeList tree = treeList left ++ shown stored :: treeList right := by
  rw [treeList, h, map_append, map_cons]
  rfl

/-! ## Cuts by rank -/

theorem isValidRange_iff {position lengthValue total : Int} :
    isValidRange position lengthValue total = true ↔
      ¬ (position < 0 ∨ lengthValue < 0 ∨ position + lengthValue > total) := by
  simp only [isValidRange, Bool.and_eq_true, decide_eq_true_eq]
  omega

section

variable (position lengthValue : Int) (tree : ValidTree (Ranked Nat k) e)

/-- The cut at the element that holds a rank. -/
theorem split_rank (hlow : 0 ≤ position) (hhigh : position < (treeList tree).length) :
    ∃ left stored right,
      tree.split (fun measure => decide (measure.total > position.toNat)) =
        some (left, stored, right) ∧
      treeList tree = treeList left ++ shown stored :: treeList right ∧
      (treeList left).length = position.toNat := by
  rw [length_treeList] at hhigh
  rcases tree.split_weight foldMeasure_total position.toNat with ⟨-, hsum⟩ |
    ⟨left, stored, right, hsplit, hlist, hbefore, hafter⟩
  · rw [map_const', sum_replicate_nat, Nat.mul_one] at hsum
    omega
  · rw [map_const', sum_replicate_nat, Nat.mul_one, ← length_treeList] at hbefore hafter
    exact ⟨left, stored, right, hsplit, treeList_parts hlist, by omega⟩

theorem splitAtRank_eq :
    treeList (splitAtRank position tree).1 = (treeList tree).take position.toNat ∧
      treeList (splitAtRank position tree).2 = (treeList tree).drop position.toNat := by
  rw [splitAtRank, measure_total]
  by_cases hlow : position ≤ 0
  · rw [if_pos hlow, show position.toNat = 0 by omega, take_zero, drop_zero]
    exact ⟨treeList_empty, rfl⟩
  rw [if_neg hlow]
  by_cases hhigh : position ≥ (treeList tree).length
  · rw [if_pos hhigh, take_of_length_le (by omega), drop_eq_nil_of_le (by omega)]
    exact ⟨rfl, treeList_empty⟩
  · obtain ⟨left, stored, right, hsplit, hlist, hlength⟩ :=
      split_rank position tree (by omega) (by omega)
    rw [if_neg hhigh, hsplit, hlist, ← hlength, take_left, drop_left]
    exact ⟨rfl, treeList_cons _ _⟩

theorem slice_eq :
    (slice position lengthValue tree).map treeList =
      ListModel.slice position lengthValue (treeList tree) := by
  rw [slice, ListModel.slice, measure_total]
  by_cases hvalid : isValidRange position lengthValue (treeList tree).length = true
  · rw [if_neg (by rw [hvalid]; decide), if_neg (isValidRange_iff.mp hvalid)]
    dsimp only
    rw [Option.map_some, (splitAtRank_eq lengthValue _).1, (splitAtRank_eq position tree).2]
  · rw [if_pos (by simpa using hvalid), if_pos (not_not.mp (mt isValidRange_iff.mpr hvalid))]
    rfl

theorem index_eq : index position tree = elementAt position (treeList tree) := by
  rw [index, elementAt, measure_total]
  by_cases hnegative : position < 0
  · rw [if_pos (.inl hnegative), if_pos hnegative]
  rw [if_neg hnegative]
  by_cases hhigh : position ≥ (treeList tree).length
  · rw [if_pos (.inr hhigh), List.getElem?_eq_none (by omega)]
  · obtain ⟨left, stored, right, hsplit, hlist, hlength⟩ :=
      split_rank position tree (by omega) (by omega)
    rw [if_neg (by omega), ValidTree.locate, hsplit, hlist, ← hlength,
      List.getElem?_append_right (Nat.le_refl _), Nat.sub_self]
    rfl

end

/-! ## Searches by key -/

section

variable [Ord k] {tree : ValidTree (Ranked Nat k) e}

/-- The items ascend strictly. -/
def Sorted (tree : ValidTree (Ranked Nat k) e) : Prop :=
  StrictlySorted compare (key e) (treeList tree)

theorem locateAtLeast_eq (target : k) (tree : ValidTree (Ranked Nat k) e) :
    locateAtLeast target tree =
      (splitAtLeast target tree).map fun parts => (parts.1.measure, parts.2.1) := rfl

variable [Std.TransOrd k] (h : Sorted tree) (target : k)

include h

theorem splitAtLeast_cut :
    (splitAtLeast target tree = none ∧ findKey compare (key e) target (treeList tree) = none ∧
      below compare (key e) target (treeList tree) = treeList tree ∧
      above compare (key e) target (treeList tree) = []) ∨
    ∃ left stored right, splitAtLeast target tree = some (left, stored, right) ∧
      below compare (key e) target (treeList tree) = treeList left ∧
      ((sameClass stored target = true ∧
        findKey compare (key e) target (treeList tree) = some (shown stored) ∧
        above compare (key e) target (treeList tree) = treeList right) ∨
      (sameClass stored target = false ∧ findKey compare (key e) target (treeList tree) = none ∧
        above compare (key e) target (treeList tree) = shown stored :: treeList right)) := by
  rcases split_atLeast foldMeasure_lastKey h (fun measure => rfl) with hnone |
    ⟨left, stored, right, hsplit, -, hbelow, ⟨hcompare, hcut⟩ | ⟨hcompare, hcut⟩⟩
  · exact .inl hnone
  · refine .inr ⟨left, stored, right, hsplit, hbelow, .inl ⟨?_, hcut⟩⟩
    rw [sameClass, hcompare]
    rfl
  · refine .inr ⟨left, stored, right, hsplit, hbelow, .inr ⟨?_, hcut⟩⟩
    rw [sameClass, hcompare]
    rfl

theorem splitAtLeast_parts :
    (splitAtLeast target tree = none ∧
      below compare (key e) target (treeList tree) = treeList tree ∧
      atLeast compare (key e) target (treeList tree) = []) ∨
    ∃ left stored right, splitAtLeast target tree = some (left, stored, right) ∧
      below compare (key e) target (treeList tree) = treeList left ∧
      atLeast compare (key e) target (treeList tree) = shown stored :: treeList right := by
  rw [StrictlySorted.atLeast_eq h]
  rcases splitAtLeast_cut h target with ⟨hsplit, hfind, hbelow, habove⟩ |
    ⟨left, stored, right, hsplit, hbelow, ⟨-, hfind, habove⟩ | ⟨-, hfind, habove⟩⟩
  · rw [hfind, habove]
    exact .inl ⟨hsplit, hbelow, rfl⟩
  · rw [hfind, habove]
    exact .inr ⟨left, stored, right, hsplit, hbelow, rfl⟩
  · rw [hfind, habove]
    exact .inr ⟨left, stored, right, hsplit, hbelow, rfl⟩

theorem member_eq :
    member target tree = (findKey compare (key e) target (treeList tree)).isSome := by
  rw [member, locateAtLeast_eq]
  rcases splitAtLeast_cut h target with ⟨hsplit, hfind, -⟩ |
    ⟨left, stored, right, hsplit, -, ⟨hsame, hfind, -⟩ | ⟨hsame, hfind, -⟩⟩
  · rw [hsplit, hfind]
    rfl
  · rw [hsplit, hfind]
    exact hsame
  · rw [hsplit, hfind]
    exact hsame

theorem treeList_delete :
    treeList (delete target tree) =
      below compare (key e) target (treeList tree) ++ above compare (key e) target
        (treeList tree) := by
  have hcut := StrictlySorted.cut h target
  unfold delete
  rcases splitAtLeast_cut h target with ⟨hsplit, hfind, hbelow, habove⟩ |
    ⟨left, stored, right, hsplit, hbelow, ⟨hsame, hfind, habove⟩ | ⟨hsame, hfind, habove⟩⟩
  · rw [hsplit, hbelow, habove, append_nil]
  · rw [hsplit, hbelow, habove]
    dsimp only
    rw [if_pos hsame, treeList_append]
  · rw [hsplit]
    dsimp only
    rw [if_neg (by rw [hsame]; decide)]
    rwa [hfind, Option.toList_none, append_nil] at hcut

theorem floor_eq :
    floor target tree = (findKey compare (key e) target (treeList tree)).or
      (below compare (key e) target (treeList tree)).getLast? := by
  unfold floor
  rcases splitAtLeast_cut h target with ⟨hsplit, hfind, hbelow, -⟩ |
    ⟨left, stored, right, hsplit, hbelow, ⟨hsame, hfind, -⟩ | ⟨hsame, hfind, -⟩⟩
  · rw [hsplit, hfind, hbelow, Option.none_or, ← last_eq]
  · rw [hsplit, hfind]
    exact if_pos hsame
  · rw [hsplit, hfind, hbelow, Option.none_or, ← last_eq]
    exact if_neg (by rw [hsame]; decide)

theorem floor_atMost :
    floor target tree = (atMost compare (key e) target (treeList tree)).getLast? := by
  rw [floor_eq h, StrictlySorted.atMost_eq h, List.getLast?_append]
  cases findKey compare (key e) target (treeList tree) <;> rfl

theorem ceiling_eq :
    ceiling target tree = (findKey compare (key e) target (treeList tree)).or
      (above compare (key e) target (treeList tree)).head? := by
  rw [ceiling, locateAtLeast_eq]
  rcases splitAtLeast_cut h target with ⟨hsplit, hfind, -, habove⟩ |
    ⟨left, stored, right, hsplit, -, ⟨hsame, hfind, habove⟩ | ⟨hsame, hfind, habove⟩⟩
  · rw [hsplit, hfind, habove]
    rfl
  · rw [hsplit, hfind]
    rfl
  · rw [hsplit, hfind, habove]
    rfl

theorem ceiling_atLeast :
    ceiling target tree = (atLeast compare (key e) target (treeList tree)).head? := by
  rw [ceiling_eq h, StrictlySorted.atLeast_eq h, List.head?_append]
  cases findKey compare (key e) target (treeList tree) <;> rfl

theorem lower_eq : lower target tree = (below compare (key e) target (treeList tree)).getLast? := by
  unfold lower
  rcases splitAtLeast_cut h target with ⟨hsplit, -, hbelow, -⟩ |
    ⟨left, stored, right, hsplit, hbelow, -⟩
  · rw [hsplit, hbelow, ← last_eq]
  · rw [hsplit, hbelow, ← last_eq]

theorem split_passes :
    (tree.split (passes target) = none ∧ above compare (key e) target (treeList tree) = [] ∧
      atMost compare (key e) target (treeList tree) = treeList tree) ∨
    ∃ left stored right, tree.split (passes target) = some (left, stored, right) ∧
      above compare (key e) target (treeList tree) = shown stored :: treeList right ∧
      atMost compare (key e) target (treeList tree) = treeList left := by
  have hkept : ∀ {items : List b}, (∀ item ∈ items, compare (key e item) target ≠ .gt) →
      atMost compare (key e) target items = items := fun hitems =>
    filter_eq_self.mpr fun item hitem => bne_iff_ne.mpr (hitems item hitem)
  rcases split_above foldMeasure_lastKey h fun measure => (rfl : passes target measure = _) with
    ⟨hsplit, habove⟩ | ⟨left, stored, right, hsplit, hlist, habove, hleft⟩
  · refine .inl ⟨hsplit, habove, hkept fun item hitem hgt => ?_⟩
    have hmem := mem_above.mpr ⟨hitem, hgt⟩
    rw [treeList, habove] at hmem
    cases hmem
  · refine .inr ⟨left, stored, right, hsplit, habove, ?_⟩
    have hdropped : atMost compare (key e) target (shown stored :: treeList right) = [] := by
      refine filter_eq_nil_iff.mpr fun item hitem => ?_
      have hmem : item ∈ above compare (key e) target (treeList tree) := habove ▸ hitem
      rw [(mem_above.mp hmem).2]
      decide
    rw [treeList_parts hlist, atMost, filter_append]
    exact (congrArg₂ _ (hkept hleft) hdropped).trans (append_nil _)

theorem higher_eq : higher target tree = (above compare (key e) target (treeList tree)).head? := by
  rw [higher, locateAbove, ValidTree.locate]
  rcases split_passes h target with ⟨hsplit, habove, -⟩ | ⟨left, stored, right, hsplit, habove, -⟩
  · rw [hsplit, habove]
    rfl
  · rw [hsplit, habove]
    rfl

theorem indexOf_eq :
    indexOf target tree = if (findKey compare (key e) target (treeList tree)).isSome then
      some (below compare (key e) target (treeList tree)).length else none := by
  rw [indexOf, locateAtLeast_eq]
  rcases splitAtLeast_cut h target with ⟨hsplit, hfind, -⟩ |
    ⟨left, stored, right, hsplit, hbelow, ⟨hsame, hfind, -⟩ | ⟨hsame, hfind, -⟩⟩
  · rw [hsplit, hfind]
    rfl
  · rw [hsplit, hfind, hbelow, ← measure_total]
    exact if_pos hsame
  · rw [hsplit, hfind]
    exact if_neg (by rw [hsame]; decide)

theorem countLessThan_eq :
    countLessThan target tree = (below compare (key e) target (treeList tree)).length := by
  rw [countLessThan, locateAtLeast_eq]
  rcases splitAtLeast_cut h target with ⟨hsplit, -, hbelow, -⟩ |
    ⟨left, stored, right, hsplit, hbelow, -⟩
  · rw [hsplit, hbelow]
    exact measure_total _
  · rw [hsplit, hbelow]
    exact measure_total _

theorem countAtMost_eq :
    countAtMost target tree = (atMost compare (key e) target (treeList tree)).length := by
  rw [countAtMost, locateAbove, ValidTree.locate]
  rcases split_passes h target with ⟨hsplit, -, hkept⟩ | ⟨left, stored, right, hsplit, -, hkept⟩
  · rw [hsplit, hkept]
    exact measure_total _
  · rw [hsplit, hkept]
    exact measure_total _

end

end Ranked

end Durable7.FingerTree.Measured
