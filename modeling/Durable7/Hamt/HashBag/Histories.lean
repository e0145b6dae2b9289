import Durable7.Hamt.HashBag.Algebra
import Durable7.Hamt.HashMap.Equality

/-!
# Histories of a hash bag

A bag is reached by steps that each succeeded.  What the next step does depends on the numbers of
occurrences alone.
-/

namespace Durable7.Hamt.HashBag

open Foundation HashMap
open HashMap (Identity LawfulPolicy SoundIdentity entryOf)

variable {k : Type}

/-- The operations on two bags. -/
inductive MultisetOperation where
  | union
  | intersection
  | difference
  | sum

namespace MultisetOperation

def run (identity : Identity k Int32) :
    MultisetOperation → HashBag k → HashBag k → Except Failure (HashBag k)
  | .union => HashBag.union identity
  | .intersection => HashBag.intersection identity
  | .difference => HashBag.difference identity
  | .sum => HashBag.sum identity

def combine : MultisetOperation → Nat → Nat → Nat
  | .union => max
  | .intersection => min
  | .difference => (· - ·)
  | .sum => (· + ·)

theorem combine_zero (operation : MultisetOperation) : operation.combine 0 0 = 0 := by
  cases operation <;> rfl

end MultisetOperation

/-- The bags under a policy that some sequence of operations gives. -/
inductive Reached : LawfulPolicy k → HashBag k → Prop where
  | emptyWith (policy : LawfulPolicy k) : Reached policy (emptyWith policy.toHashPolicy)
  | add {policy : LawfulPolicy k} {bag after : HashBag k} (identity : SoundIdentity k Int32)
      (item : k) (h : Reached policy bag) (hstep : add identity.toIdentity item bag = .ok after) :
      Reached policy after
  | addCopies {policy : LawfulPolicy k} {bag after : HashBag k} (identity : SoundIdentity k Int32)
      (item : k) (copies : Int32) (h : Reached policy bag)
      (hstep : addCopies identity.toIdentity item copies bag = .ok after) : Reached policy after
  | remove {policy : LawfulPolicy k} {bag after : HashBag k} (identity : SoundIdentity k Int32)
      (item : k) (h : Reached policy bag)
      (hstep : remove identity.toIdentity item bag = .ok after) : Reached policy after
  | removeCopies {policy : LawfulPolicy k} {bag after : HashBag k}
      (identity : SoundIdentity k Int32) (item : k) (copies : Int32) (h : Reached policy bag)
      (hstep : removeCopies identity.toIdentity item copies bag = .ok after) :
      Reached policy after
  | removeAll {policy : LawfulPolicy k} {bag after : HashBag k} (identity : SoundIdentity k Int32)
      (item : k) (h : Reached policy bag)
      (hstep : removeAll identity.toIdentity item bag = .ok after) : Reached policy after
  | multiset {policy other : LawfulPolicy k} {receiver argument after : HashBag k}
      (identity : SoundIdentity k Int32) (operation : MultisetOperation)
      (h : Reached policy receiver) (hargument : Reached other argument)
      (hstep : operation.run identity.toIdentity receiver argument = .ok after) :
      Reached policy after

section Steps

variable {identity : Identity k Int32} (hsound : identity.Sound) {receiver argument : HashBag k}
  (hreceiver : receiver.Valid) (hargument : argument.Valid)

include hsound hreceiver hargument

theorem multiset_gives (operation : MultisetOperation) :
    Gives receiver.policy
      (Fits (rekeyed receiver argument) ∧ Fits (combined operation.combine receiver argument))
      (combined operation.combine receiver argument)
      (operation.run identity receiver argument) := by
  cases operation with
  | union =>
      exact normalized_gives hsound hreceiver hargument rfl fun normalized hnormalized hpolicy =>
        union_body_gives hsound hreceiver hnormalized hpolicy
  | intersection =>
      exact normalized_gives hsound hreceiver hargument rfl fun normalized hnormalized hpolicy =>
        intersection_body_gives hsound hreceiver hnormalized hpolicy
  | difference =>
      exact normalized_gives hsound hreceiver hargument rfl fun normalized hnormalized hpolicy =>
        difference_body_gives hsound hreceiver hnormalized hpolicy
  | sum =>
      exact normalized_gives hsound hreceiver hargument rfl fun normalized hnormalized _ =>
        addEntries_gives hsound hreceiver hnormalized.positive

end Steps

variable {bag : HashBag k} {policy : HashPolicy k}

theorem Gives.holds {fits : Prop} {contents : List (k × Nat)}
    (h : Gives policy fits contents (.ok bag)) : Holds policy contents bag := by
  cases h with
  | completed hfits hbag => exact hbag

variable {after : HashBag k}

theorem nonneg_of_add {item : k} {copies : Int32} {identity : Identity k Int32}
    (h : addCopies identity item copies bag = .ok after) :
    ¬copies < 0 := by
  intro hneg
  rw [addCopies, if_pos hneg] at h
  cases h

theorem nonneg_of_remove {item : k} {copies : Int32} {identity : Identity k Int32}
    (h : removeCopies identity item copies bag = .ok after) :
    ¬copies < 0 := by
  intro hneg
  rw [removeCopies, if_pos hneg] at h
  cases h

theorem holds_of_eq {contents : List (k × Nat)}
    {result : Except Failure (HashBag k)} (h : ∃ bag, result = .ok bag ∧ Holds policy contents bag)
    (hstep : result = .ok after) :
    Holds policy contents after := by
  obtain ⟨bag, hresult, hbag⟩ := h
  rw [hstep] at hresult
  cases hresult
  exact hbag

theorem Reached.valid {policy : LawfulPolicy k} (h : Reached policy bag) :
    bag.Valid ∧ bag.policy = policy.toHashPolicy := by
  induction h with
  | emptyWith policy => exact ⟨emptyWith_valid policy.lawful, rfl⟩
  | add identity item _ hstep ih =>
      change HashBag.addCopies identity.toIdentity item 1 _ = _ at hstep
      have hgives := addCopies_gives identity.sound ih.1 item (nonneg_of_add hstep)
      rw [hstep] at hgives
      exact ⟨hgives.holds.valid, hgives.holds.policy_eq.trans ih.2⟩
  | addCopies identity item copies _ hstep ih =>
      have hgives := addCopies_gives identity.sound ih.1 item (nonneg_of_add hstep)
      rw [hstep] at hgives
      exact ⟨hgives.holds.valid, hgives.holds.policy_eq.trans ih.2⟩
  | remove identity item _ hstep ih =>
      have hholds := holds_of_eq
        (removeCopiesPositive_holds identity.sound ih.1 item (by decide)) hstep
      exact ⟨hholds.valid, hholds.policy_eq.trans ih.2⟩
  | removeCopies identity item copies _ hstep ih =>
      have hholds := holds_of_eq
        (removeCopies_holds identity.sound ih.1 item (nonneg_of_remove hstep)) hstep
      exact ⟨hholds.valid, hholds.policy_eq.trans ih.2⟩
  | removeAll identity item _ hstep ih =>
      have hholds := holds_of_eq (removeAll_holds identity.sound ih.1 item) hstep
      exact ⟨hholds.valid, hholds.policy_eq.trans ih.2⟩
  | multiset identity operation _ _ hstep ih ihArgument =>
      have hgives := multiset_gives identity.sound ih.1 ihArgument.1 operation
      rw [hstep] at hgives
      exact ⟨hgives.holds.valid, hgives.holds.policy_eq.trans ih.2⟩

/-- The reads of a bag agree with its contents, and the structure passes its check. -/
structure Consistent (policy : HashPolicy k) (bag : HashBag k) : Prop where
  policy_eq : bag.policy = policy
  validStructure_eq : validStructure bag = true
  positive : ∀ entry ∈ bag.entries, 0 < entry.2
  total_eq : bag.total.toInt = (totalOf bag.contents : Int)
  countOf_eq : ∀ item,
    (countOf item bag).toInt = (occurrences policy.equalKeys item bag.contents : Int)
  actualValue_eq : ∀ item,
    actualValue item bag = (entryAt policy.equalKeys item bag.contents).map Prod.fst

theorem Valid.countOf_eq (h : bag.Valid) (item : k) :
    (countOf item bag).toInt = (occurrences bag.policy.equalKeys item bag.contents : Int) := by
  rw [countOf, h.wellFormed.lookup_eq, h.occurrences_contents]
  cases hstored : entryOf bag.counts item with
  | none => rfl
  | some stored => exact toInt_of_pos (h.positive_at hstored)

theorem Valid.actualValue_eq (h : bag.Valid) (item : k) :
    actualValue item bag = (entryAt bag.policy.equalKeys item bag.contents).map Prod.fst := by
  rw [actualValue, h.wellFormed.actualKey_eq, entryAt_contents, Option.map_map]
  rfl

theorem Valid.consistent (h : bag.Valid) (hpolicy : bag.policy = policy) :
    Consistent policy bag := by
  subst hpolicy
  exact ⟨rfl, h.validStructure_eq, h.positive, h.total_eq, h.countOf_eq, h.actualValue_eq⟩

/-- The number of every class is the combined one, under the key of the receiver if there is one. -/
theorem combined_reads {combine : Nat → Nat → Nat} (hzero : combine 0 0 = 0)
    {receiver argument : HashBag k} (hreceiver : receiver.Valid)
    (h : Holds receiver.policy (combined combine receiver argument) after) (item : k) :
    (countOf item after).toInt = (combine (amount (countOf item receiver))
        (occurrences receiver.policy.equalKeys item argument.contents) : Int) ∧
      ∀ kept, actualValue item receiver = some kept → countOf item after ≠ 0 →
        actualValue item after = some kept := by
  have hcount := h.valid.countOf_eq item
  have hdistinct := h.valid.distinct
  rw [h.policy_eq] at hcount hdistinct
  rw [occurrences_perm h.perm, combined,
    occurrences_pointwise hreceiver.equivalence hzero] at hcount
  have hold : amount (countOf item receiver) =
      occurrences receiver.policy.equalKeys item receiver.contents := by
    rw [amount, hreceiver.countOf_eq item, Int.toNat_natCast]
  refine ⟨by rw [hcount, hold], ?_⟩
  intro kept hkept hne
  have hentry := entryAt_perm hreceiver.equivalence hdistinct h.perm item
  have hvalue := h.valid.actualValue_eq item
  rw [h.policy_eq, hentry, combined, entryAt_pointwise hreceiver.equivalence,
    entryAt_append] at hvalue
  rw [hreceiver.actualValue_eq] at hkept
  obtain ⟨stored, hstored, rfl⟩ := Option.map_eq_some_iff.mp hkept
  rw [hvalue, hstored]
  cases hnow : combine (occurrences receiver.policy.equalKeys item receiver.contents)
      (occurrences receiver.policy.equalKeys item argument.contents) with
  | zero =>
      rw [hnow] at hcount
      exact absurd (Int32.toInt_inj.mp hcount) hne
  | succ count => rfl

structure Version (policy : LawfulPolicy k) where
  bag : HashBag k
  reached : Reached policy bag

/-- Every bag that is reached is a multiset with exact numbers, and every step from it gives the
numbers of the multiset or reports that they do not fit. -/
theorem multiset_refines {policy other : LawfulPolicy k} (identity : SoundIdentity k Int32)
    (receiver : Version policy) (argument : Version other) :
    Consistent policy.toHashPolicy receiver.bag ∧
      (∀ item copies, copies < 0 →
        addCopies identity.toIdentity item copies receiver.bag =
            .error (.returned (.negativeCopies copies)) ∧
          removeCopies identity.toIdentity item copies receiver.bag =
            .error (.returned (.negativeCopies copies))) ∧
      (∀ item copies, ¬copies < 0 →
        Gives policy.toHashPolicy (Fits (edited (· + ·) receiver.bag item (amount copies)))
            (edited (· + ·) receiver.bag item (amount copies))
            (addCopies identity.toIdentity item copies receiver.bag) ∧
          Gives policy.toHashPolicy True (edited (· - ·) receiver.bag item (amount copies))
            (removeCopies identity.toIdentity item copies receiver.bag)) ∧
      (∀ item,
        Gives policy.toHashPolicy (Fits (edited (· + ·) receiver.bag item 1))
            (edited (· + ·) receiver.bag item 1) (add identity.toIdentity item receiver.bag) ∧
          Gives policy.toHashPolicy True (edited (· - ·) receiver.bag item 1)
            (remove identity.toIdentity item receiver.bag) ∧
          Gives policy.toHashPolicy True (edited withoutAll receiver.bag item 1)
            (removeAll identity.toIdentity item receiver.bag)) ∧
      ∀ operation : MultisetOperation,
        Gives policy.toHashPolicy
            (Fits (rekeyed receiver.bag argument.bag) ∧
              Fits (combined operation.combine receiver.bag argument.bag))
            (combined operation.combine receiver.bag argument.bag)
            (operation.run identity.toIdentity receiver.bag argument.bag) ∧
          ∀ after, operation.run identity.toIdentity receiver.bag argument.bag = .ok after →
            ∀ item, (countOf item after).toInt =
                (operation.combine (amount (countOf item receiver.bag))
                  (occurrences policy.equalKeys item argument.bag.contents) : Int) ∧
              ∀ kept, actualValue item receiver.bag = some kept → countOf item after ≠ 0 →
                actualValue item after = some kept := by
  obtain ⟨hvalid, hpolicy⟩ := receiver.reached.valid
  obtain ⟨hargument, -⟩ := argument.reached.valid
  have hone : ¬(1 : Int32) < 0 := by decide
  have hremoved : ∀ {combine : Nat → Nat → Nat} {item : k} {count : Nat} {result},
      (∃ after, result = .ok after ∧
        Holds receiver.bag.policy (edited combine receiver.bag item count) after) →
      Gives receiver.bag.policy True (edited combine receiver.bag item count) result := by
    rintro combine item count result ⟨after, rfl, hafter⟩
    exact .completed trivial hafter
  rw [← hpolicy]
  refine ⟨hvalid.consistent rfl, ?_, ?_, ?_, ?_⟩
  · intro item copies hneg
    rw [addCopies, if_pos hneg, removeCopies, if_pos hneg]
    exact ⟨rfl, rfl⟩
  · intro item copies hnonneg
    exact ⟨addCopies_gives identity.sound hvalid item hnonneg,
      hremoved (removeCopies_holds identity.sound hvalid item hnonneg)⟩
  · intro item
    exact ⟨addCopies_gives identity.sound hvalid item hone,
      hremoved (removeCopiesPositive_holds identity.sound hvalid item (by decide)),
      hremoved (removeAll_holds identity.sound hvalid item)⟩
  · intro operation
    have hgives := multiset_gives identity.sound hvalid hargument operation
    refine ⟨hgives, ?_⟩
    intro after hstep item
    rw [hstep] at hgives
    exact combined_reads operation.combine_zero hvalid hgives.holds item

/-- A version with some copies added, where they fit. -/
def Version.added {policy : LawfulPolicy k} (item : k) (copies : Int32)
    (version : Version policy) : Version policy :=
  match h : addCopies unknownIdentity.toIdentity item copies version.bag with
  | .ok bag => ⟨bag, .addCopies unknownIdentity item copies version.reached h⟩
  | .error _ => version

def parities : Version parityPolicy := .added 2 4 (.added 1 2 ⟨_, .emptyWith parityPolicy⟩)

def remainders : Version remainderPolicy := .added 4 1 (.added 3 5 ⟨_, .emptyWith remainderPolicy⟩)

theorem multiset_refines_parity :
    ∃ after, union unknownIdentity.toIdentity parities.bag remainders.bag = .ok after ∧
      (countOf 7 after).toInt = 5 ∧ actualValue 7 after = some 1 ∧ (countOf 0 after).toInt = 4 := by
  obtain ⟨hgives, hreads⟩ :=
    (multiset_refines unknownIdentity parities remainders).2.2.2.2 .union
  change Gives _ _ _ (union unknownIdentity.toIdentity _ _) at hgives
  generalize hunion :
    union unknownIdentity.toIdentity parities.bag remainders.bag = result at hgives
  cases hgives with
  | @completed after hfits hbag =>
      have hodd := hreads after hunion 7
      have heven := hreads after hunion 0
      have hcount : (countOf 7 after).toInt = 5 := hodd.1.trans (by decide +kernel)
      refine ⟨after, rfl, hcount, ?_, heven.1.trans (by decide +kernel)⟩
      exact hodd.2 1 (by decide +kernel) fun hzero => by simp [hzero] at hcount
  | overflowed hfits hproblem =>
      exact absurd (by unfold Fits; decide +kernel) hfits

end Durable7.Hamt.HashBag
