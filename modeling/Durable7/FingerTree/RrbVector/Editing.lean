import Durable7.FingerTree.RrbVector.Refinement

/-!
# Edits made of appends and splits

What an edit does to the list, and when the appends inside it keep the greatest
height.
-/

namespace Durable7.FingerTree.RrbVector

open Foundation List Nat

variable {α : Type}

/-- Room for the two levels that one edit can add at most. -/
def heightRoom (vector : RrbVector α) : Prop := vector.height + 2 ≤ maxBound

section Edits

variable {fits : Prop} {vector : RrbVector α} {values : List α}

theorem singleton_kept (fits : Prop) (value : α) :
    Kept fits (⟨some (.leaf [value])⟩ : RrbVector α) [value] :=
  ⟨(singleton_spec value).2, fun _ => zero_le _⟩

def consFits (value : α) (vector : RrbVector α) : Bool := appendFits ⟨some (.leaf [value])⟩ vector

def snocFits (vector : RrbVector α) (value : α) : Bool := appendFits vector ⟨some (.leaf [value])⟩

section

variable (h : Kept fits vector values) (hvalues : values.length + 1 ≤ maxBound)
  (hheight : heightRoom vector) (value : α)
include h hvalues hheight

theorem cons_kept :
    ∃ joined, cons value vector = .ok joined ∧
      Kept (fits ∧ consFits value vector = true) joined (value :: values) := by
  rw [heightRoom] at hheight
  have hlow : RrbVector.height (⟨some (.leaf [value])⟩ : RrbVector α) < maxBound :=
    show 0 < maxBound by decide
  obtain ⟨joined, happend, hkept, -⟩ := append_kept (singleton_kept fits value) h
    (by rw [length_singleton]; omega) hlow (by omega)
  exact ⟨joined, by rw [cons, (singleton_spec value).1, except_ok_bind, happend], hkept⟩

theorem snoc_kept :
    ∃ joined, snoc vector value = .ok joined ∧
      Kept (fits ∧ snocFits vector value = true) joined (values ++ [value]) := by
  rw [heightRoom] at hheight
  have hlow : RrbVector.height (⟨some (.leaf [value])⟩ : RrbVector α) < maxBound :=
    show 0 < maxBound by decide
  obtain ⟨joined, happend, hkept, -⟩ := append_kept h (singleton_kept fits value) hvalues
    (by omega) hlow
  exact ⟨joined, by rw [snoc, (singleton_spec value).1, except_ok_bind, happend], hkept⟩

end

def splitList (position : Int) (values : List α) : Option (List α × List α) :=
  if position < 0 ∨ position > values.length then none
  else some (values.take position.toNat, values.drop position.toNat)

/-- Both halves are kept, and neither is higher than the whole. -/
structure Halves (fits : Prop) (vector : RrbVector α) (halves : RrbVector α × RrbVector α)
    (lists : List α × List α) : Prop where
  left : Kept fits halves.1 lists.1
  right : Kept fits halves.2 lists.2
  left_le : halves.1.height ≤ vector.height
  right_le : halves.2.height ≤ vector.height

theorem splitAt_kept (h : Kept fits vector values) (hvalues : values.length ≤ maxBound)
    (hheight : vector.height ≤ maxBound) (position : Int) :
    ∃ result, splitAt position vector = .ok result ∧
      Option.Rel (Halves fits vector) result (splitList position values) := by
  rw [splitAt, splitList, h.represents.count_eq]
  by_cases houtside : position < 0 ∨ position > values.length
  · rw [if_pos houtside, if_pos houtside]
    exact ⟨none, rfl, .none⟩
  rw [if_neg houtside, if_neg houtside]
  by_cases hzero : position = 0
  · subst hzero
    exact ⟨_, rfl, .some ⟨Kept.empty fits, h, zero_le _, le_refl _⟩⟩
  rw [if_neg hzero]
  by_cases hend : position = values.length
  · subst hend
    rw [if_pos rfl, Int.toNat_natCast, take_length, drop_length]
    exact ⟨_, rfl, .some ⟨h, Kept.empty fits, le_refl _, zero_le _⟩⟩
  rw [if_neg hend]
  obtain ⟨hrepresents, hkept⟩ := h
  cases hrepresents with
  | empty => simp at houtside hend; omega
  | @rooted height node _ hrow hroot =>
      obtain ⟨hwell, hcontents⟩ := hrow.head
      have hcount := hwell.count_eq
      rw [hcontents] at hcount
      have hnodeHeight : RrbVector.height ⟨some node⟩ = height := hwell.height_eq
      rw [hnodeHeight] at hheight
      obtain ⟨left, right, hsplit, hleft, hright⟩ := splitNode_spec hwell
        (show position.toNat ≤ nodeCount node by omega) (by omega) hheight
      rw [hcontents] at hleft hright
      obtain ⟨hleftRep, hleftLe⟩ := fromRoot_spec hleft
      obtain ⟨hrightRep, hrightLe⟩ := fromRoot_spec hright
      simp only [hsplit, except_ok_bind]
      rw [← hnodeHeight] at hleftLe hrightLe
      exact ⟨_, rfl, .some ⟨⟨hleftRep, fun hfits => le_trans hleftLe (hkept hfits)⟩,
        ⟨hrightRep, fun hfits => le_trans hrightLe (hkept hfits)⟩, hleftLe, hrightLe⟩⟩

def insertList (position : Int) (inserted values : List α) : Option (List α) :=
  (splitList position values).map fun halves => halves.1 ++ inserted ++ halves.2

/-- Two appends around a vector. -/
def spliceFits (left middle right : RrbVector α) : Bool :=
  appendFits left middle &&
    match append left middle with
    | .ok front => appendFits front right
    | .error _ => false

theorem splice_kept {left middle right : RrbVector α} {lefts middles rights : List α}
    (hleft : Kept fits left lefts) (hmiddle : Kept fits middle middles)
    (hright : Kept fits right rights)
    (hvalues : lefts.length + middles.length + rights.length ≤ maxBound)
    (hleftRoom : heightRoom left) (hmiddleRoom : heightRoom middle)
    (hrightRoom : heightRoom right) :
    ∃ front joined, append left middle = .ok front ∧ append front right = .ok joined ∧
      Kept (fits ∧ spliceFits left middle right = true) joined (lefts ++ middles ++ rights) := by
  rw [heightRoom] at hleftRoom hmiddleRoom hrightRoom
  obtain ⟨front, hfront, hfrontKept, hle⟩ := append_kept hleft hmiddle (by omega) (by omega)
    (by omega)
  obtain ⟨joined, hjoined, hkept, -⟩ := append_kept hfrontKept
    (hright.mono fun hboth : fits ∧ appendFits left middle = true => hboth.1)
    (by rw [length_append]; omega) (by omega) (by omega)
  refine ⟨front, joined, hfront, hjoined, hkept.mono ?_⟩
  rintro ⟨hfits, hsplice⟩
  rw [spliceFits, Bool.and_eq_true, hfront] at hsplice
  exact ⟨⟨hfits, hsplice.1⟩, hsplice.2⟩

def insertFits (position : Int) (inserted : List α) (vector : RrbVector α) : Bool :=
  match splitAt position vector, fromList inserted with
  | .ok (some (left, right)), .ok middle => middle.null || spliceFits left middle right
  | _, _ => true

theorem insertListAt_kept (h : Kept fits vector values) (inserted : List α)
    (hvalues : values.length + inserted.length ≤ maxBound) (hheight : heightRoom vector)
    (position : Int) :
    ∃ result, insertListAt position inserted vector = .ok result ∧
      Option.Rel (Kept (fits ∧ insertFits position inserted vector = true)) result
        (insertList position inserted values) := by
  have hroom : vector.height + 2 ≤ maxBound := hheight
  obtain ⟨halves, hsplit, hrelated⟩ := splitAt_kept h (by omega) (by omega) position
  have hlists : ∀ pair, splitList position values = some pair → pair.1 ++ pair.2 = values := by
    intro pair hpair
    rw [splitList] at hpair
    split at hpair
    · cases hpair
    · cases hpair
      exact take_append_drop _ _
  rw [insertListAt, insertFits, insertList, hsplit, except_ok_bind]
  cases hlist : splitList position values with
  | none =>
      rw [hlist] at hrelated
      cases hrelated
      exact ⟨none, rfl, .none⟩
  | some lists =>
      rw [hlist] at hrelated
      obtain ⟨lefts, rights⟩ := lists
      cases hrelated with
      | @some halves _ hhalves =>
          obtain ⟨left, right⟩ := halves
          obtain ⟨hleft, hright, hleftLe, hrightLe⟩ := hhalves
          have hwhole := hlists _ hlist
          obtain ⟨middle, hmiddle, hmiddleRep, hmiddleLow⟩ := @fromList_spec _ inserted (by omega)
          simp only at hleft hright hleftLe hrightLe hwhole ⊢
          simp only [hmiddle, except_ok_bind, hmiddleRep.null_eq]
          have hlength := congrArg List.length hwhole
          rw [length_append] at hlength
          cases inserted with
          | nil =>
              refine ⟨some vector, rfl, .some ?_⟩
              simp only [append_nil, hwhole]
              exact h.mono And.left
          | cons first rest =>
              have hbound : maximumHeight + 2 ≤ maxBound := by decide
              have hmiddleRoom : heightRoom middle := by
                rw [heightRoom]
                omega
              have hleftRoom : heightRoom left := by
                rw [heightRoom]
                omega
              have hrightRoom : heightRoom right := by
                rw [heightRoom]
                omega
              have hmiddleKept : Kept fits middle (first :: rest) :=
                ⟨hmiddleRep, fun _ => le_of_lt hmiddleLow⟩
              obtain ⟨front, joined, hfront, hjoined, hkept⟩ := splice_kept hleft hmiddleKept
                hright (by omega) hleftRoom hmiddleRoom hrightRoom
              refine ⟨some joined, ?_, .some ?_⟩
              · simp [hfront, hjoined]
              · simpa using hkept

def removeList (position amount : Int) (values : List α) : Option (List α) :=
  if position < 0 ∨ amount < 0 ∨ amount > values.length - position then none
  else some (values.take position.toNat ++ values.drop (position.toNat + amount.toNat))

def removeFits (position amount : Int) (vector : RrbVector α) : Bool :=
  amount == 0 ||
    match splitAt position vector with
    | .ok (some (left, tailVector)) =>
        match splitAt amount tailVector with
        | .ok (some (_, right)) => appendFits left right
        | _ => true
    | _ => true

theorem splitAt_inside (h : Kept fits vector values) (hvalues : values.length ≤ maxBound)
    (hheight : vector.height ≤ maxBound) {position : Int} (hlow : 0 ≤ position)
    (hhigh : position ≤ values.length) :
    ∃ left right, splitAt position vector = .ok (some (left, right)) ∧
      Halves fits vector (left, right)
        (values.take position.toNat, values.drop position.toNat) := by
  obtain ⟨result, hsplit, hrelated⟩ := splitAt_kept h hvalues hheight position
  rw [splitList, if_neg (by omega)] at hrelated
  cases hrelated with
  | @some halves _ hhalves => exact ⟨halves.1, halves.2, hsplit, hhalves⟩

theorem removeRange_kept (h : Kept fits vector values) (hvalues : values.length ≤ maxBound)
    (hheight : heightRoom vector) (position amount : Int) :
    ∃ result, removeRange position amount vector = .ok result ∧
      Option.Rel (Kept (fits ∧ removeFits position amount vector = true)) result
        (removeList position amount values) := by
  have hroom : vector.height + 2 ≤ maxBound := hheight
  rw [removeRange, removeList, h.represents.count_eq]
  by_cases hneg : position < 0 ∨ amount < 0
  · rw [if_pos hneg, if_pos (by omega)]
    exact ⟨none, rfl, .none⟩
  rw [if_neg hneg]
  by_cases hbeyond : amount > values.length - position
  · rw [if_pos hbeyond, if_pos (by omega)]
    exact ⟨none, rfl, .none⟩
  have hinside : ¬ (position < 0 ∨ amount < 0 ∨ amount > values.length - position) := by omega
  rw [if_neg hbeyond, if_neg hinside]
  by_cases hzero : amount = 0
  · subst hzero
    refine ⟨some vector, rfl, .some ?_⟩
    rw [Int.toNat_zero, add_zero, take_append_drop]
    exact h.mono And.left
  rw [if_neg hzero]
  obtain ⟨left, tailVector, hsplit, hleft, htail, hleftLe, htailLe⟩ :=
    splitAt_inside h hvalues (by omega) (show 0 ≤ position by omega) (by omega)
  simp only at hleft htail hleftLe htailLe
  have htailLength : (values.drop position.toNat).length ≤ maxBound := by
    rw [length_drop]
    omega
  obtain ⟨removed, right, hsplit', -, hright, -, hrightLe⟩ :=
    splitAt_inside htail htailLength (by omega) (show 0 ≤ amount by omega)
      (by rw [length_drop]; omega)
  simp only [drop_drop] at hright hrightLe
  obtain ⟨joined, hjoined, hkept, -⟩ := append_kept hleft hright
    (by rw [length_take, length_drop]; omega) (by omega) (by omega)
  refine ⟨some joined, ?_, .some (hkept.mono ?_)⟩
  · simp [hsplit, hsplit', hjoined]
  · rintro ⟨hfits, hremove⟩
    refine ⟨hfits, ?_⟩
    simpa [removeFits, hzero, hsplit, hsplit'] using hremove

def unsnocList (values : List α) : Option (List α × α) :=
  values.getLast?.map fun last => (values.dropLast, last)

def unsnocFits (vector : RrbVector α) : Bool := removeFits (vector.count - 1) 1 vector

theorem unsnoc_kept (h : Kept fits vector values) (hvalues : values.length ≤ maxBound)
    (hheight : heightRoom vector) :
    ∃ result, unsnoc vector = .ok result ∧
      Option.Rel (fun found expected => Kept (fits ∧ unsnocFits vector = true) found.1 expected.1 ∧
        found.2 = expected.2) result (unsnocList values) := by
  rw [unsnoc, unsnocList, unsnocFits, h.represents.null_eq, h.represents.count_eq]
  rcases (eq_nil_or_concat' values) with rfl | ⟨front, last, rfl⟩
  · exact ⟨none, rfl, .none⟩
  · have hlength : (front ++ [last]).length = front.length + 1 := by simp
    obtain ⟨result, hremove, hrelated⟩ :=
      removeRange_kept h hvalues hheight ((front ++ [last]).length - 1) 1
    rw [removeList, if_neg (by omega)] at hrelated
    have hposition : (((front ++ [last]).length : Int) - 1).toNat = front.length := by omega
    rw [hposition] at hrelated
    cases hrelated with
    | @some joined _ hkept =>
        have helement : elementAt ((front ++ [last]).length - 1) (front ++ [last]) = some last := by
          rw [elementAt, if_neg (by omega), hposition]
          simp
        refine ⟨some (joined, last), ?_, ?_⟩
        · rw [if_neg (by simp), index_spec h.represents, helement, except_ok_bind, hremove]
          rfl
        · rw [List.getLast?_concat, Option.map_some, dropLast_concat]
          refine .some ⟨?_, rfl⟩
          simpa using hkept

end Edits

end Durable7.FingerTree.RrbVector
