import Durable7.Hamt.HashBag.Edits
import Durable7.Hamt.HashMap.Assignments

/-!
# Multiset algebra of hash bags

An argument under another policy is first gathered by the classes of the receiver.
-/

namespace Durable7.Hamt.HashBag

open Foundation HashMap Nat
open HashMap (Identity Becomes entryOf)

variable {k : Type}

/-- The numbers of both bags combined by the classes of the receiver. -/
def combined (combine : Nat → Nat → Nat) (receiver argument : HashBag k) : List (k × Nat) :=
  pointwise receiver.policy.equalKeys combine receiver.contents argument.contents

/-- The argument by the classes of the receiver. -/
def rekeyed (receiver argument : HashBag k) : List (k × Nat) :=
  pointwise receiver.policy.equalKeys (· + ·) [] argument.contents

variable {identity : Identity k Int32} (hsound : identity.Sound) {receiver argument : HashBag k}
  (hreceiver : receiver.Valid) (hargument : argument.Valid)

include hsound hreceiver

section Normalized

include hargument

theorem normalizeArgument_gives :
    Gives receiver.policy (Fits (rekeyed receiver argument)) (rekeyed receiver argument)
      (normalizeArgument identity receiver argument) := by
  unfold normalizeArgument
  split
  · rename_i hpolicies
    have hpolicy := hsound.policies_eq _ _ hpolicies
    have hdistinct := hargument.distinct
    rw [← hpolicy] at hdistinct
    apply Holds.gives
    apply Holds.of_entryAt hargument hpolicy.symm (distinct_pointwise _ _ _)
    intro item
    rw [entryAt_pointwise_of_distinct hreceiver.equivalence _ List.Pairwise.nil hdistinct]
    cases hentry : entryAt receiver.policy.equalKeys item argument.contents with
    | none => rfl
    | some entry =>
        have hpos := hargument.pos (mem_of_entryAt hentry).1
        change some entry = occurring entry.1 (0 + entry.2)
        rw [zero_add, occurring_of_pos hpos]
  · exact addEntries_gives hsound (emptyWith_valid hreceiver.wellFormed.lawful) hargument.positive

/-- An operation is settled by what it does with an argument under the receiver's policy. -/
theorem normalized_gives {combine : Nat → Nat → Nat} (hzero : combine 0 0 = 0)
    {body : HashBag k → Except Failure (HashBag k)}
    (hbody : ∀ normalized : HashBag k, normalized.Valid → normalized.policy = receiver.policy →
      Gives receiver.policy (Fits (combined combine receiver normalized))
        (combined combine receiver normalized) (body normalized)) :
    Gives receiver.policy
      (Fits (rekeyed receiver argument) ∧ Fits (combined combine receiver argument))
      (combined combine receiver argument)
      (normalizeArgument identity receiver argument >>= body) := by
  have hnormalized := normalizeArgument_gives hsound hreceiver hargument
  generalize normalizeArgument identity receiver argument = result at hnormalized ⊢
  cases hnormalized with
  | @completed normalized hfits hbag =>
      have hdistinct := hbag.valid.distinct
      rw [hbag.policy_eq] at hdistinct
      have hperm : (combined combine receiver normalized).Perm
          (combined combine receiver argument) := by
        apply perm_of_entryAt hreceiver.equivalence (distinct_pointwise _ _ _)
          (distinct_pointwise _ _ _)
        intro item
        rw [← pointwise_gathered hreceiver.equivalence hzero _ argument.contents,
          entryAt_pointwise_of_distinct hreceiver.equivalence _ hreceiver.distinct hdistinct,
          entryAt_pointwise_of_distinct hreceiver.equivalence _ hreceiver.distinct
            (distinct_pointwise _ _ _), entryAt_perm hreceiver.equivalence hdistinct hbag.perm]
        rfl
      have hgives := (hbody normalized hbag.valid hbag.policy_eq).perm hperm
      rw [except_ok_bind]
      generalize body normalized = after at hgives ⊢
      cases hgives with
      | completed hafter hholds => exact .completed ⟨hfits, hafter⟩ hholds
      | overflowed hafter hproblem => exact .overflowed (fun hall => hafter hall.2) hproblem
  | overflowed hfits hproblem => exact .overflowed (fun hall => hfits hall.1) hproblem

end Normalized

omit hsound

variable {normalized : HashBag k} (hnormalized : normalized.Valid)
  (hpolicy : normalized.policy = receiver.policy) {combine : Nat → Nat → Nat}

include hnormalized hpolicy

theorem entryAt_combined (item : k) :
    entryAt receiver.policy.equalKeys item (combined combine receiver normalized) =
      pointwiseAt combine ((entryOf receiver.counts item).map counted)
        ((entryOf normalized.counts item).map counted) := by
  have hdistinct := hnormalized.distinct
  rw [hpolicy] at hdistinct
  rw [combined, entryAt_pointwise_of_distinct hreceiver.equivalence _ hreceiver.distinct hdistinct,
    Valid.entryAt_contents, ← hpolicy, Valid.entryAt_contents]

omit hreceiver hnormalized hpolicy in
theorem sameVersion_roots (hsound : identity.Sound)
    (h : sameVersion identity receiver normalized = true) :
    receiver.counts.root = normalized.counts.root := by
  unfold sameVersion at h
  rw [Bool.and_eq_true] at h
  exact hsound.nodes_eq _ _ h.2

omit hreceiver hnormalized in
theorem entryOf_same (hroots : receiver.counts.root = normalized.counts.root) (item : k) :
    entryOf normalized.counts item = entryOf receiver.counts item := by
  change entryAt normalized.policy.equalKeys item _ = entryAt receiver.policy.equalKeys item _
  rw [hpolicy, toList_eq, toList_eq, hroots]

theorem combined_same (hidempotent : ∀ count, combine count count = count)
    (hroots : receiver.counts.root = normalized.counts.root) :
    Holds receiver.policy (combined combine receiver normalized) receiver := by
  apply Holds.of_entryAt hreceiver rfl (distinct_pointwise _ _ _)
  intro item
  change _ = entryAt _ item (combined combine receiver normalized)
  rw [entryAt_combined hreceiver hnormalized hpolicy, entryOf_same hpolicy hroots,
    Valid.entryAt_contents]
  cases hstored : entryOf receiver.counts item with
  | none => rfl
  | some stored =>
      have hpos := pos_iff.mp (hreceiver.positive_at hstored)
      change some (counted stored) =
        occurring stored.1 (combine (amount stored.2) (amount stored.2))
      rw [hidempotent, occurring_of_pos hpos]
      rfl

include hsound

theorem combined_gives {next : HashMap k Int32} (hnext : next.WellFormed)
    (hnextPolicy : next.policy = receiver.policy)
    (hentries : ∀ item, (entryOf next item).map counted =
      pointwiseAt combine ((entryOf receiver.counts item).map counted)
        ((entryOf normalized.counts item).map counted)) :
    Gives receiver.policy (Fits (combined combine receiver normalized))
      (combined combine receiver normalized) (do
        let nextTotal ← totalFromCounts next
        withCounts identity receiver next nextTotal) := by
  apply rebuilt_gives hsound hreceiver hnext hnextPolicy _ (distinct_pointwise _ _ _)
  · intro item
    exact (hentries item).trans (entryAt_combined hreceiver hnormalized hpolicy item).symm
  · intro entry hentry
    have hself : entryOf next entry.1 = some entry :=
      entryAt_self hnext.lawful.equivalence hnext.distinct hentry
    have hpoint := hentries entry.1
    rw [hself] at hpoint
    obtain ⟨first, -, hoccurring⟩ := Option.bind_eq_some_iff.mp hpoint.symm
    exact pos_iff.mpr (occurring_pos hoccurring)

def raised (stored : Option (k × Int32)) (entry : k × Int32) : Option (k × Int32) :=
  some (stored.elim entry fun kept => (kept.1, max kept.2 entry.2))

omit hreceiver hnormalized hpolicy in
theorem addMaximum_becomes {counts : HashMap k Int32} (h : counts.WellFormed) (entry : k × Int32) :
    Becomes counts (addMaximum identity counts entry) entry.1
      (raised (entryOf counts entry.1) entry) := by
  have hbecomes := (addOrUpdate_becomes hsound h entry.1 (fun _ => entry.2)
    (fun _ receiverCount => max receiverCount entry.2)).2
  cases hstored : entryOf counts entry.1 with
  | none =>
      rw [hstored] at hbecomes
      exact hbecomes
  | some stored =>
      have hselected : addedOrUpdated entry.1 (fun _ => entry.2)
          (fun _ receiverCount => max receiverCount entry.2) (some stored) =
          (stored.1, max stored.2 entry.2) := by
        rw [addedOrUpdated]
        split
        · rename_i heq
          rw [← eq_of_beq heq]
        · rfl
      rw [hstored, hselected] at hbecomes
      exact hbecomes

theorem union_body_gives :
    Gives receiver.policy (Fits (combined max receiver normalized))
      (combined max receiver normalized)
      (if sameVersion identity receiver normalized then .ok receiver
        else do
          let nextTotal ← totalFromCounts
            (normalized.entries.foldl (addMaximum identity) receiver.counts)
          withCounts identity receiver
            (normalized.entries.foldl (addMaximum identity) receiver.counts) nextTotal) := by
  split
  · rename_i hversion
    exact (combined_same hreceiver hnormalized hpolicy max_self
      (sameVersion_roots hsound hversion)).gives
  · have hdistinct := hnormalized.wellFormed.distinct
    change Distinct normalized.policy.equalKeys _ at hdistinct
    rw [hpolicy] at hdistinct
    obtain ⟨hnext, hnextPolicy, hentries⟩ := foldl_becomes hreceiver.wellFormed
      (fun before hbefore _ entry _ => addMaximum_becomes hsound hbefore entry) hdistinct
    apply combined_gives hsound hreceiver hnormalized hpolicy hnext hnextPolicy
    intro item
    have hargument : entryAt receiver.policy.equalKeys item normalized.entries =
        entryOf normalized.counts item := by
      rw [← hpolicy]
      rfl
    rw [hentries]
    change Option.map _ ((entryAt receiver.policy.equalKeys item normalized.entries).elim _ _) = _
    rw [hargument]
    cases hentry : entryOf normalized.counts item with
    | none =>
        cases hstored : entryOf receiver.counts item with
        | none => rfl
        | some stored =>
            have hpos := pos_iff.mp (hreceiver.positive_at hstored)
            change some (counted stored) = occurring stored.1 (max (amount stored.2) 0)
            rw [Nat.max_zero, occurring_of_pos hpos]
            rfl
    | some entry =>
        have hentryPos := hnormalized.positive_at hentry
        have hamount := pos_iff.mp hentryPos
        cases hstored : entryOf receiver.counts item with
        | none =>
            change some (counted entry) = occurring entry.1 (max 0 (amount entry.2))
            rw [Nat.zero_max, occurring_of_pos hamount]
            rfl
        | some stored =>
            have hstoredPos := hreceiver.positive_at hstored
            change some (stored.1, amount (max stored.2 entry.2)) =
              occurring stored.1 (max (amount stored.2) (amount entry.2))
            rw [amount_max hstoredPos hentryPos, occurring_of_pos (by omega)]

def keptMinimum (argument : Option Int32) (stored : Option (k × Int32)) (entry : k × Int32) :
    Option (k × Int32) :=
  match argument with
  | none => none
  | some argumentCount =>
      if argumentCount < entry.2 then putSlot stored (entry.1, argumentCount) else stored

def subtracted (argument : Option Int32) (stored : Option (k × Int32)) (entry : k × Int32) :
    Option (k × Int32) :=
  match argument with
  | none => stored
  | some argumentCount =>
      if entry.2 ≤ argumentCount then none else putSlot stored (entry.1, entry.2 - argumentCount)

omit hsound hreceiver hnormalized hpolicy in
theorem keepMinimum_becomes (argumentCounts : HashMap k Int32) {counts : HashMap k Int32}
    (h : counts.WellFormed) (entry : k × Int32) :
    Becomes counts (keepMinimum argumentCounts counts entry) entry.1
      (keptMinimum (lookup entry.1 argumentCounts) (entryOf counts entry.1) entry) := by
  unfold keepMinimum keptMinimum
  cases lookup entry.1 argumentCounts with
  | none => exact delete_becomes h entry.1
  | some argumentCount =>
      dsimp only
      split
      · exact insert_becomes h entry.1 argumentCount
      · exact h.becomes_same entry.1

omit hsound hreceiver hnormalized hpolicy in
theorem subtractCount_becomes (argumentCounts : HashMap k Int32) {counts : HashMap k Int32}
    (h : counts.WellFormed) (entry : k × Int32) :
    Becomes counts (subtractCount argumentCounts counts entry) entry.1
      (subtracted (lookup entry.1 argumentCounts) (entryOf counts entry.1) entry) := by
  unfold subtractCount subtracted
  cases lookup entry.1 argumentCounts with
  | none => exact h.becomes_same entry.1
  | some argumentCount =>
      dsimp only
      split
      · exact delete_becomes h entry.1
      · exact insert_becomes h entry.1 (entry.2 - argumentCount)

/-- A sweep over the classes of the receiver itself, with the argument looked up for each. -/
theorem swept_gives {step : HashMap k Int32 → HashMap k Int32 → k × Int32 → HashMap k Int32}
    {effect : Option Int32 → Option (k × Int32) → k × Int32 → Option (k × Int32)}
    (hstep : ∀ (argumentCounts : HashMap k Int32) {counts : HashMap k Int32}, counts.WellFormed →
      ∀ entry, Becomes counts (step argumentCounts counts entry) entry.1
        (effect (lookup entry.1 argumentCounts) (entryOf counts entry.1) entry))
    (habsent : ∀ count, combine 0 count = 0)
    (heffect : ∀ (stored : k × Int32) (argument : Option (k × Int32)), 0 < stored.2 →
      (∀ entry, argument = some entry → 0 < entry.2) →
      (effect (argument.map Prod.snd) (some stored) stored).map counted =
        pointwiseAt combine (some (counted stored)) (argument.map counted)) :
    Gives receiver.policy (Fits (combined combine receiver normalized))
      (combined combine receiver normalized) (do
        let nextTotal ← totalFromCounts
          (receiver.entries.foldl (step normalized.counts) receiver.counts)
        withCounts identity receiver
          (receiver.entries.foldl (step normalized.counts) receiver.counts) nextTotal) := by
  obtain ⟨hnext, hnextPolicy, hentries⟩ := @foldl_becomes _ _ _ _ _
    (fun stored entry => effect (lookup entry.1 normalized.counts) stored entry) _
    hreceiver.wellFormed
    (fun before hbefore _ entry _ => hstep normalized.counts hbefore entry)
    hreceiver.wellFormed.distinct
  apply combined_gives hsound hreceiver hnormalized hpolicy hnext hnextPolicy
  intro item
  have hrewrite := hentries item
  change _ = (entryOf receiver.counts item).elim _ _ at hrewrite
  change (entryOf (receiver.entries.foldl _ _) item).map counted = _
  rw [entries, hrewrite]
  cases hstored : entryOf receiver.counts item with
  | none =>
      change none = ((entryOf normalized.counts item).map counted).bind _
      cases entryOf normalized.counts item with
      | none => rfl
      | some entry =>
          change none = occurring entry.1 (combine 0 (amount entry.2))
          rw [habsent]
          rfl
  | some stored =>
      have hkey : normalized.counts.policy.equalKeys stored.1 item = true := by
        change normalized.policy.equalKeys stored.1 item = true
        rw [hpolicy]
        exact hreceiver.equivalence.symm (mem_of_entryAt hstored).2
      have hlookup := hnormalized.wellFormed.lookup_congr hkey
      rw [hnormalized.wellFormed.lookup_eq item] at hlookup
      rw [Option.elim_some, hlookup, heffect stored _ (hreceiver.positive_at hstored)
        (fun entry hentry => hnormalized.positive_at hentry), Option.map_some]

theorem intersection_body_gives :
    Gives receiver.policy (Fits (combined min receiver normalized))
      (combined min receiver normalized)
      (if sameVersion identity receiver normalized then .ok receiver
        else do
          let nextTotal ← totalFromCounts
            (receiver.entries.foldl (keepMinimum normalized.counts) receiver.counts)
          withCounts identity receiver
            (receiver.entries.foldl (keepMinimum normalized.counts) receiver.counts)
            nextTotal) := by
  split
  · rename_i hversion
    exact (combined_same hreceiver hnormalized hpolicy min_self
      (sameVersion_roots hsound hversion)).gives
  · apply swept_gives hsound hreceiver hnormalized hpolicy keepMinimum_becomes Nat.zero_min
    intro stored argument hstored hargument
    cases argument with
    | none =>
        change none = occurring stored.1 (min (amount stored.2) 0)
        rw [Nat.min_zero]
        rfl
    | some entry =>
        have hentry := hargument entry rfl
        have hamounts := le_iff_amount hstored hentry
        have hpos := pos_iff.mp hstored
        have hentryPos := pos_iff.mp hentry
        change (keptMinimum (some entry.2) (some stored) stored).map counted =
          occurring stored.1 (min (amount stored.2) (amount entry.2))
        rw [keptMinimum]
        by_cases hlt : entry.2 < stored.2
        · have hle := mt hamounts.mpr (Int32.not_le.mpr hlt)
          rw [if_pos hlt, min_eq_right (by omega), occurring_of_pos hentryPos]
          rfl
        · have hle := hamounts.mp (Int32.not_lt.mp hlt)
          rw [if_neg hlt, min_eq_left hle, occurring_of_pos hpos]
          rfl

theorem difference_body_gives :
    Gives receiver.policy (Fits (combined (· - ·) receiver normalized))
      (combined (· - ·) receiver normalized)
      (if sameVersion identity receiver normalized then clear identity receiver
        else do
          let nextTotal ← totalFromCounts
            (receiver.entries.foldl (subtractCount normalized.counts) receiver.counts)
          withCounts identity receiver
            (receiver.entries.foldl (subtractCount normalized.counts) receiver.counts)
            nextTotal) := by
  split
  · rename_i hversion
    have hroots := sameVersion_roots hsound hversion
    have hempty := emptyWith_valid hreceiver.wellFormed.lawful
    have hclear : clear identity receiver = .ok (emptyWith receiver.policy) :=
      @withCounts_eq _ _ _ hsound hreceiver (emptyWith receiver.policy).counts 0 rfl hempty
    rw [hclear]
    apply Holds.gives
    apply Holds.of_entryAt hempty rfl (distinct_pointwise _ _ _)
    intro item
    change none = entryAt receiver.policy.equalKeys item (combined (· - ·) receiver normalized)
    rw [entryAt_combined hreceiver hnormalized hpolicy, entryOf_same hpolicy hroots]
    cases entryOf receiver.counts item with
    | none => rfl
    | some stored =>
        change none = occurring stored.1 (amount stored.2 - amount stored.2)
        rw [Nat.sub_self]
        rfl
  · apply swept_gives hsound hreceiver hnormalized hpolicy subtractCount_becomes Nat.zero_sub
    intro stored argument hstored hargument
    have hpos := pos_iff.mp hstored
    cases argument with
    | none =>
        change some (counted stored) = occurring stored.1 (amount stored.2 - 0)
        rw [Nat.sub_zero, occurring_of_pos hpos]
        rfl
    | some entry =>
        have hentry := hargument entry rfl
        have hamounts := le_iff_amount hstored hentry
        change (subtracted (some entry.2) (some stored) stored).map counted =
          occurring stored.1 (amount stored.2 - amount entry.2)
        rw [subtracted]
        by_cases hle : stored.2 ≤ entry.2
        · rw [if_pos hle, Nat.sub_eq_zero_of_le (hamounts.mp hle)]
          rfl
        · have hlt := not_le.mp (mt hamounts.mpr hle)
          rw [if_neg hle, ← amount_sub hentry (Int32.not_le.mp hle), occurring_of_pos]
          · rfl
          · rw [amount_sub hentry (Int32.not_le.mp hle)]
            omega

end Durable7.Hamt.HashBag
