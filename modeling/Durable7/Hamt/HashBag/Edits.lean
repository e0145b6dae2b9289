import Durable7.Hamt.HashBag.Operations

/-!
# Edits of one class

Adding is checked against both bounds, removing saturates at zero.
-/

namespace Durable7.Hamt.HashBag

open Foundation List HashMap Nat
open HashMap (Identity Becomes entryOf)

variable {k : Type}

/-- The numbers after an edit of the class of one item. -/
def edited (combine : Nat → Nat → Nat) (bag : HashBag k) (item : k) (count : Nat) :
    List (k × Nat) :=
  pointwise bag.policy.equalKeys combine bag.contents [(item, count)]

theorem fits_added {same : k → k → Bool}
    (hsame : Equivalence fun left right => same left right = true) (left right : List (k × Nat)) :
    Fits (pointwise same (· + ·) left right) ↔
      (∀ item, occurrences same item left + occurrences same item right ≤ maxMultiplicity) ∧
        totalOf left + totalOf right ≤ maxTotal := by
  have hdistinct := @distinct_pointwise _ same (· + ·) left right
  unfold Fits
  rw [totalOf_pointwise_add hsame]
  constructor
  · rintro ⟨hmultiplicity, htotal⟩
    refine ⟨?_, htotal⟩
    intro item
    have hcount := @occurrences_pointwise _ _ hsame (· + ·) rfl left right item
    rw [← hcount, occurrences_of_distinct hsame hdistinct]
    cases hentry : entryAt same item (pointwise same (· + ·) left right) with
    | none => exact zero_le _
    | some entry => exact hmultiplicity entry (mem_of_entryAt hentry).1
  · rintro ⟨hmultiplicity, htotal⟩
    refine ⟨?_, htotal⟩
    intro entry hentry
    have hself := entryAt_self hsame hdistinct hentry
    have hcount := occurrences_of_distinct hsame hdistinct entry.1
    rw [hself, occurrences_pointwise hsame rfl] at hcount
    rw [← numberAt_some entry, ← hcount]
    exact hmultiplicity entry.1

namespace Valid

variable {bag : HashBag k} (h : bag.Valid) {combine : Nat → Nat → Nat}

include h

omit h in
theorem entryAt_contents (item : k) :
    entryAt bag.policy.equalKeys item bag.contents = (entryOf bag.counts item).map counted :=
  entryAt_numbers bag.counts item

theorem occurrences_contents (item : k) :
    occurrences bag.policy.equalKeys item bag.contents =
      numberAt ((entryOf bag.counts item).map counted) := by
  rw [occurrences_of_distinct h.equivalence h.distinct, entryAt_contents]

section

variable (hzero : ∀ count, combine count 0 = count)
include hzero

theorem sets_edited (item : k) (count : Nat) :
    Sets bag.policy.equalKeys item
      (pointwiseAt combine ((entryOf bag.counts item).map counted) (some (item, count)))
      bag.contents (edited combine bag item count) := by
  rw [← entryAt_contents]
  exact sets_pointwise_single h.equivalence hzero h.distinct (fun _ hentry => h.pos hentry) item
    count

theorem kept {item : k} {count : Nat}
    (hkept : pointwiseAt combine ((entryOf bag.counts item).map counted) (some (item, count)) =
      (entryOf bag.counts item).map counted) :
    Holds bag.policy (edited combine bag item count) bag := by
  apply Holds.of_entryAt h rfl (distinct_pointwise _ _ _)
  intro other
  change _ = entryAt _ other (edited combine bag item count)
  rw [h.sets_edited hzero item count other]
  split
  · rename_i hother
    rw [hkept, entryAt_congr h.equivalence hother, entryAt_contents]
  · rfl

theorem kept_zero (item : k) :
    Holds bag.policy (edited combine bag item 0) bag := by
  apply h.kept hzero
  cases hentry : entryOf bag.counts item with
  | none =>
      change occurring item (combine 0 0) = none
      rw [hzero]
      rfl
  | some stored =>
      have hpos := pos_iff.mp (h.positive_at hentry)
      change occurring stored.1 (combine (amount stored.2) 0) = some (counted stored)
      rw [hzero, occurring_of_pos hpos]
      rfl

end

theorem edit_holds {identity : Identity k Int32} (hsound : identity.Sound)
    (hzero : ∀ count, combine count 0 = count) {item : k} {now : Option (k × Int32)}
    {next : HashMap k Int32} (hnext : Becomes bag.counts next item now)
    (hpositive : ∀ entry, now = some entry → 0 < entry.2) {count : Nat} (hnow : now.map counted =
      pointwiseAt combine ((entryOf bag.counts item).map counted) (some (item, count)))
    {nextTotal : Int64}
    (htotal : nextTotal.toInt + (numberAt ((entryOf bag.counts item).map counted) : Int) =
      bag.total.toInt + (numberAt (now.map counted) : Int)) :
    ∃ after, withCounts identity bag next nextTotal = .ok after ∧
      Holds bag.policy (edited combine bag item count) after := by
  obtain ⟨hvalid, hpolicy, hsets⟩ := h.written hnext hpositive htotal
  refine ⟨_, withCounts_eq hsound h hpolicy hvalid, ?_⟩
  apply Holds.of_entryAt hvalid hpolicy (distinct_pointwise _ _ _)
  intro other
  change _ = entryAt _ other (edited combine bag item count)
  rw [h.sets_edited hzero item count other, ← hnow]
  exact hsets other

end Valid

section Edits

variable {identity : Identity k Int32} (hsound : identity.Sound) {bag : HashBag k} (h : bag.Valid)

include hsound h

variable {copies : Int32}

theorem addCopies_gives (item : k) (hcopies : ¬copies < 0) :
    Gives bag.policy (Fits (edited (· + ·) bag item (amount copies)))
      (edited (· + ·) bag item (amount copies)) (addCopies identity item copies bag) := by
  have hfits := fits_added h.equivalence bag.contents [(item, amount copies)]
  have htotals : totalOf [(item, amount copies)] = amount copies := by simp [totalOf]
  have hself : occurrences bag.policy.equalKeys item [(item, amount copies)] = amount copies := by
    rw [occurrences_cons, if_pos (same_refl h.equivalence item)]
    rfl
  rw [htotals] at hfits
  unfold addCopies
  rw [if_neg hcopies]
  by_cases hzero : copies = 0
  · have hkept := h.kept_zero add_zero item
    rw [if_pos hzero]
    rw [show amount copies = 0 by rw [hzero]; rfl]
    exact hkept.gives
  · have hpos := pos_of_nonzero hcopies hzero
    have hcopiesInt := toInt_of_pos hpos
    rw [← Int32.toInt_toInt64] at hcopiesInt
    rw [if_neg hzero]
    rcases checkedAddTotal_cases h.total_eq hcopiesInt with ⟨hle, hok, hsum⟩ | ⟨hlt, herror⟩
    · rw [hok, except_ok_bind, addOrUpdateEither_eq h.wellFormed]
      cases hstored : entryOf bag.counts item with
      | none =>
          have hbecomes := (addOrUpdate_becomes hsound h.wellFormed item
            (fun _ => copies) (fun _ _ => copies)).2
          rw [hstored] at hbecomes
          have hnow : some (item, amount copies) = occurring item (0 + amount copies) := by
            rw [zero_add, occurring_of_pos (pos_iff.mp hpos)]
          obtain ⟨after, hafter, hholds⟩ := h.edit_holds hsound add_zero hbecomes
            (fun entry hentry => Option.some.inj hentry ▸ hpos) (by rw [hstored]; exact hnow)
            (by rw [hstored, hsum, h.total_eq]; rfl)
          change Gives _ _ _ (withCounts identity bag (addOrUpdate identity item
            (fun _ => copies) (fun _ _ => copies) bag.counts).1 (bag.total + copies.toInt64))
          rw [hafter]
          exact hholds.gives
      | some stored =>
          have hstoredPos := h.positive_at hstored
          have hcount := h.occurrences_contents item
          rw [hstored] at hcount
          rcases checkedAddMultiplicity_cases hstoredPos hpos with ⟨hmul, hmulOk, hmulSum⟩ |
            ⟨hmulLt, hmulError⟩
          · have hbecomes := (addOrUpdate_becomes hsound h.wellFormed item
              (fun _ => stored.2 + copies) (fun _ _ => stored.2 + copies)).2
            have hselected : addedOrUpdated item (fun _ => stored.2 + copies)
                (fun _ _ => stored.2 + copies) (some stored) = (stored.1, stored.2 + copies) := by
              rw [addedOrUpdated]
              split
              · rename_i heq
                rw [← eq_of_beq heq]
              · rfl
            have hsumPos : 0 < stored.2 + copies := by
              rw [pos_iff, hmulSum]
              exact Nat.add_pos_right _ (pos_iff.mp hpos)
            rw [hstored, hselected] at hbecomes
            have hnow : some (stored.1, amount (stored.2 + copies)) =
                occurring stored.1 (amount stored.2 + amount copies) := by
              rw [← hmulSum, occurring_of_pos (pos_iff.mp hsumPos)]
            have htotal : (bag.total + copies.toInt64).toInt + (amount stored.2 : Int) =
                bag.total.toInt + (amount (stored.2 + copies) : Int) := by
              rw [hsum, h.total_eq]
              omega
            obtain ⟨after, hafter, hholds⟩ := h.edit_holds hsound add_zero hbecomes
              (fun entry hentry => Option.some.inj hentry ▸ hsumPos) (by rw [hstored]; exact hnow)
              (by rw [hstored]; exact htotal)
            rw [selectedEffect, hmulOk]
            change Gives _ _ _ (withCounts identity bag (addOrUpdate identity item
              (fun _ => stored.2 + copies) (fun _ _ => stored.2 + copies) bag.counts).1
              (bag.total + copies.toInt64))
            rw [hafter]
            exact hholds.gives
          · rw [selectedEffect, hmulError]
            refine .overflowed ?_ trivial
            intro hall
            have := (hfits.mp hall).1 item
            rw [hcount, hself] at this
            exact absurd this (not_le.mpr hmulLt)
    · rw [herror, except_error_bind]
      refine .overflowed ?_ trivial
      intro hall
      have := (hfits.mp hall).2
      omega

omit hsound in
theorem sub_total {item : k} {stored : k × Int32} (hstored : entryOf bag.counts item = some stored)
    (hcopies : 0 < copies) (hle : copies ≤ stored.2) :
    (bag.total - copies.toInt64).toInt = bag.total.toInt - (amount copies : Int) := by
  have hmem : counted stored ∈ bag.contents := mem_map_of_mem (mem_of_entryAt hstored).1
  have htotal := h.total_eq
  have hbound : amount stored.2 ≤ totalOf bag.contents := le_totalOf hmem
  have hamounts := (le_iff_amount hcopies (h.positive_at hstored)).mp hle
  have hcopiesInt := toInt_of_pos hcopies
  have hlt := bag.total.toInt_lt
  rw [Int64.toInt_sub, Int32.toInt_toInt64, hcopiesInt]
  apply Int.bmod_eq_of_le <;> omega

theorem removed_holds {combine : Nat → Nat → Nat} (hzero : ∀ count, combine count 0 = count)
    {item : k} {stored : k × Int32} (hstored : entryOf bag.counts item = some stored)
    {next : HashMap k Int32} (hnext : Becomes bag.counts next item none) {count : Nat}
    (hcount : combine (amount stored.2) count = 0) :
    ∃ after, withCounts identity bag next (bag.total - stored.2.toInt64) = .ok after ∧
      Holds bag.policy (edited combine bag item count) after := by
  apply h.edit_holds hsound hzero hnext
  · intro entry hentry
    cases hentry
  · rw [hstored]
    change none = occurring stored.1 (combine (amount stored.2) count)
    rw [hcount]
    rfl
  · rw [sub_total h hstored (h.positive_at hstored) (Int32.le_refl _), hstored]
    change _ + (amount stored.2 : Int) = _ + 0
    omega

theorem removeCopiesPositive_holds (item : k) (hcopies : 0 < copies) :
    ∃ after, removeCopiesPositive identity item copies bag = .ok after ∧
      Holds bag.policy (edited (· - ·) bag item (amount copies)) after := by
  unfold removeCopiesPositive
  rw [h.wellFormed.lookup_eq]
  cases hstored : entryOf bag.counts item with
  | none =>
      refine ⟨bag, rfl, h.kept Nat.sub_zero ?_⟩
      rw [hstored]
      change occurring item (0 - amount copies) = none
      rw [Nat.zero_sub]
      rfl
  | some stored =>
      have hstoredPos := h.positive_at hstored
      have hamounts := le_iff_amount hstoredPos hcopies
      rw [Option.map_some]
      by_cases hle : stored.2 ≤ copies
      · rcases tryRemove_becomes h.wellFormed item with ⟨habsent, -⟩ |
          ⟨removed, next, hremoved, hresult, hnext⟩
        · rw [hstored] at habsent
          cases habsent
        · rw [hstored] at hremoved
          obtain rfl := Option.some.inj hremoved
          simp only [if_pos hle, hresult]
          exact removed_holds hsound h Nat.sub_zero hstored hnext
            (Nat.sub_eq_zero_of_le (hamounts.mp hle))
      · have hlt : copies < stored.2 := Int32.not_le.mp hle
        have hsub := amount_sub hcopies hlt
        have hltAmount := not_le.mp (mt hamounts.mpr hle)
        have hsubPos : 0 < stored.2 - copies := by
          rw [pos_iff, hsub]
          omega
        have hbecomes := insert_becomes h.wellFormed item (stored.2 - copies)
        rw [hstored] at hbecomes
        simp only [if_neg hle]
        apply h.edit_holds hsound Nat.sub_zero hbecomes
        · intro entry hentry
          rw [← Option.some.inj hentry]
          exact hsubPos
        · rw [hstored]
          change some (stored.1, amount (stored.2 - copies)) =
            occurring stored.1 (amount stored.2 - amount copies)
          rw [hsub, occurring_of_pos (Nat.sub_pos_of_lt hltAmount)]
        · rw [sub_total h hstored hcopies (Int32.le_of_lt hlt), hstored]
          change _ + (amount stored.2 : Int) = _ + (amount (stored.2 - copies) : Int)
          rw [hsub]
          omega

theorem removeCopies_holds (item : k) (hcopies : ¬copies < 0) :
    ∃ after, removeCopies identity item copies bag = .ok after ∧
      Holds bag.policy (edited (· - ·) bag item (amount copies)) after := by
  unfold removeCopies
  rw [if_neg hcopies]
  by_cases hzero : copies = 0
  · rw [if_pos hzero, show amount copies = 0 by rw [hzero]; rfl]
    exact ⟨bag, rfl, h.kept_zero Nat.sub_zero item⟩
  · rw [if_neg hzero]
    exact removeCopiesPositive_holds hsound h item (pos_of_nonzero hcopies hzero)

/-- An item that is asked for at all loses every occurrence. -/
def withoutAll (stored asked : Nat) : Nat := if asked = 0 then stored else 0

omit hsound h in
theorem withoutAll_zero (stored : Nat) : withoutAll stored 0 = stored := if_pos rfl

theorem removeAll_holds (item : k) :
    ∃ after, removeAll identity item bag = .ok after ∧
      Holds bag.policy (edited withoutAll bag item 1) after := by
  unfold removeAll
  rcases tryRemove_becomes h.wellFormed item with ⟨habsent, hresult⟩ |
    ⟨stored, next, hstored, hresult, hnext⟩
  · rw [hresult]
    refine ⟨bag, rfl, h.kept withoutAll_zero ?_⟩
    rw [habsent]
    rfl
  · rw [hresult]
    exact removed_holds hsound h withoutAll_zero hstored hnext (if_neg Nat.one_ne_zero)

theorem addEntries_gives {entries : List (k × Int32)} (hpositive : ∀ entry ∈ entries, 0 < entry.2) :
    Gives bag.policy
      (Fits (pointwise bag.policy.equalKeys (· + ·) bag.contents (entries.map counted)))
      (pointwise bag.policy.equalKeys (· + ·) bag.contents (entries.map counted))
      (entries.foldlM (addEntry identity) bag) := by
  induction entries generalizing bag with
  | nil =>
      apply Holds.gives
      apply Holds.of_entryAt h rfl (distinct_pointwise _ _ _)
      intro item
      rw [map_nil, entryAt_pointwise_of_distinct h.equivalence _ h.distinct List.Pairwise.nil]
      cases hentry : entryAt bag.policy.equalKeys item bag.contents with
      | none => rfl
      | some entry =>
          have hpos := h.pos (mem_of_entryAt hentry).1
          change some entry = occurring entry.1 (entry.2 + 0)
          rw [add_zero, occurring_of_pos hpos]
  | cons entry entries ih =>
      have hentryPos := hpositive entry mem_cons_self
      have hrestPos : ∀ other ∈ entries, 0 < other.2 := fun other hother =>
        hpositive other (mem_cons_of_mem _ hother)
      have hadd := addCopies_gives hsound h entry.1 (not_neg_of_pos hentryPos)
      have hequivalence := h.equivalence
      rw [foldlM_cons, addEntry]
      generalize addCopies identity entry.1 entry.2 bag = result at hadd ⊢
      cases hadd with
      | completed hfits hafter =>
          have hrest := ih hafter.valid hrestPos
          have hdistinct := hafter.valid.distinct
          rw [hafter.policy_eq] at hrest hdistinct
          apply hrest.perm
          refine (pointwise_perm hequivalence hdistinct hafter.perm _).trans ?_
          apply pointwise_append hequivalence (fun _ hitem => h.pos hitem)
          intro item hitem
          rw [mem_singleton.mp hitem]
          exact pos_iff.mp hentryPos
      | overflowed hfits hproblem =>
          refine .overflowed ?_ hproblem
          intro hall
          apply hfits
          rw [fits_added hequivalence] at hall
          refine (fits_added hequivalence _ _).mpr ⟨?_, ?_⟩
          · intro item
            have := hall.1 item
            rw [map_cons, occurrences_cons] at this
            rw [occurrences_cons]
            change _ + (_ + 0) ≤ _
            exact Nat.le_trans (Nat.add_le_add_left (Nat.le_add_right _ _) _) this
          · have := hall.2
            rw [map_cons, totalOf_cons] at this
            rw [totalOf_cons]
            change _ + (_ + 0) ≤ _
            exact Nat.le_trans (Nat.add_le_add_left (Nat.le_add_right _ _) _) this

end Edits

end Durable7.Hamt.HashBag
