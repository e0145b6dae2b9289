import Durable7.Foundation.Occurrences
import Durable7.Foundation.Outcome
import Durable7.Hamt.HashMap.Histories

/-!
# Operations on hash bags

A bag stores one positive number of 32 bits for each class beside a total of 64 bits.  An error
that is a value of the source and an exception of the source are both failures here.
-/

namespace Durable7.Hamt

open HashMap

inductive HashBagError where
  | negativeCopies (copies : Int32)
  | multiplicityOverflow
  | totalCountOverflow
deriving DecidableEq

structure HashBag (k : Type) where
  counts : HashMap k Int32
  total : Int64

namespace HashBag

open HashMap (Identity)

inductive Failure where
  | returned (problem : HashBagError)
  | raised (message : String)

variable {k : Type}

def emptyWith (hashPolicy : HashPolicy k) : HashBag k := ⟨HashMap.emptyWith hashPolicy, 0⟩

def policy (bag : HashBag k) : HashPolicy k := bag.counts.policy

def countOf (item : k) (bag : HashBag k) : Int32 := (lookup item bag.counts).getD 0

def actualValue (item : k) (bag : HashBag k) : Option k := actualKey item bag.counts

def entries (bag : HashBag k) : List (k × Int32) := toList bag.counts

def withCounts (identity : Identity k Int32) (bag : HashBag k) (nextCounts : HashMap k Int32)
    (nextTotal : Int64) : Except Failure (HashBag k) :=
  if identity.nodes bag.counts.root nextCounts.root then
    if bag.total = nextTotal then .ok bag
    else .error (.raised "Durable7.Hamt.HashBag: unchanged root has a different total")
  else .ok ⟨nextCounts, nextTotal⟩

def checkedAddMultiplicity (left right : Int32) : Except Failure Int32 :=
  if 0 < right ∧ Int32.maxValue - right < left then .error (.returned .multiplicityOverflow)
  else .ok (left + right)

def checkedAddTotal (left right : Int64) : Except Failure Int64 :=
  if 0 < right ∧ Int64.maxValue - right < left then .error (.returned .totalCountOverflow)
  else .ok (left + right)

def totalFromCounts (counts : HashMap k Int32) : Except Failure Int64 :=
  ((toList counts).map Prod.snd).foldlM (fun total copies => checkedAddTotal total copies.toInt64) 0

/-- The empty bag under the same policy. -/
def clear (identity : Identity k Int32) (bag : HashBag k) : Except Failure (HashBag k) :=
  withCounts identity bag (HashMap.emptyWith bag.counts.policy) 0

def addCopies (identity : Identity k Int32) (item : k) (copies : Int32) (bag : HashBag k) :
    Except Failure (HashBag k) :=
  if copies < 0 then .error (.returned (.negativeCopies copies))
  else if copies = 0 then .ok bag
  else do
    let nextTotal ← checkedAddTotal bag.total copies.toInt64
    let result ← addOrUpdateEither identity item (fun _ => .ok copies)
      (fun _ stored => checkedAddMultiplicity stored copies) bag.counts
    withCounts identity bag result.1 nextTotal

def add (identity : Identity k Int32) (item : k) : HashBag k → Except Failure (HashBag k) :=
  addCopies identity item 1

def removeCopiesPositive (identity : Identity k Int32) (item : k) (copies : Int32)
    (bag : HashBag k) : Except Failure (HashBag k) :=
  match lookup item bag.counts with
  | none => .ok bag
  | some stored =>
      if stored ≤ copies then
        match tryRemove item bag.counts with
        | some (removedCount, nextCounts) =>
            withCounts identity bag nextCounts (bag.total - removedCount.toInt64)
        | none => .error (.raised "Durable7.Hamt.HashBag: located class could not be removed")
      else
        withCounts identity bag (insert item (stored - copies) bag.counts)
          (bag.total - copies.toInt64)

def remove (identity : Identity k Int32) (item : k) : HashBag k → Except Failure (HashBag k) :=
  removeCopiesPositive identity item 1

def removeCopies (identity : Identity k Int32) (item : k) (copies : Int32) (bag : HashBag k) :
    Except Failure (HashBag k) :=
  if copies < 0 then .error (.returned (.negativeCopies copies))
  else if copies = 0 then .ok bag
  else removeCopiesPositive identity item copies bag

def removeAll (identity : Identity k Int32) (item : k) (bag : HashBag k) :
    Except Failure (HashBag k) :=
  match tryRemove item bag.counts with
  | none => .ok bag
  | some (removedCount, nextCounts) =>
      withCounts identity bag nextCounts (bag.total - removedCount.toInt64)

/-! ## Multiset algebra -/

def addEntry (identity : Identity k Int32) (bag : HashBag k) (entry : k × Int32) :
    Except Failure (HashBag k) :=
  addCopies identity entry.1 entry.2 bag

def normalizeArgument (identity : Identity k Int32) (receiver argument : HashBag k) :
    Except Failure (HashBag k) :=
  if identity.policies receiver.policy argument.policy then .ok argument
  else argument.entries.foldlM (addEntry identity) (emptyWith receiver.policy)

def sameVersion (identity : Identity k Int32) (left right : HashBag k) : Bool :=
  left.total == right.total && identity.policies left.policy right.policy &&
    identity.nodes left.counts.root right.counts.root

def addMaximum (identity : Identity k Int32) (counts : HashMap k Int32) (entry : k × Int32) :
    HashMap k Int32 :=
  (addOrUpdate identity entry.1 (fun _ => entry.2)
    (fun _ receiverCount => max receiverCount entry.2) counts).1

def union (identity : Identity k Int32) (receiver argument : HashBag k) :
    Except Failure (HashBag k) := do
  let normalized ← normalizeArgument identity receiver argument
  if sameVersion identity receiver normalized then .ok receiver
  else
    let nextCounts := normalized.entries.foldl (addMaximum identity) receiver.counts
    let nextTotal ← totalFromCounts nextCounts
    withCounts identity receiver nextCounts nextTotal

def keepMinimum (argumentCounts counts : HashMap k Int32) (entry : k × Int32) : HashMap k Int32 :=
  match lookup entry.1 argumentCounts with
  | none => delete entry.1 counts
  | some argumentCount =>
      if argumentCount < entry.2 then insert entry.1 argumentCount counts else counts

def intersection (identity : Identity k Int32) (receiver argument : HashBag k) :
    Except Failure (HashBag k) := do
  let normalized ← normalizeArgument identity receiver argument
  if sameVersion identity receiver normalized then .ok receiver
  else
    let nextCounts := receiver.entries.foldl (keepMinimum normalized.counts) receiver.counts
    let nextTotal ← totalFromCounts nextCounts
    withCounts identity receiver nextCounts nextTotal

def subtractCount (argumentCounts counts : HashMap k Int32) (entry : k × Int32) : HashMap k Int32 :=
  match lookup entry.1 argumentCounts with
  | none => counts
  | some argumentCount =>
      if entry.2 ≤ argumentCount then delete entry.1 counts
      else insert entry.1 (entry.2 - argumentCount) counts

def difference (identity : Identity k Int32) (receiver argument : HashBag k) :
    Except Failure (HashBag k) := do
  let normalized ← normalizeArgument identity receiver argument
  if sameVersion identity receiver normalized then clear identity receiver
  else
    let nextCounts := receiver.entries.foldl (subtractCount normalized.counts) receiver.counts
    let nextTotal ← totalFromCounts nextCounts
    withCounts identity receiver nextCounts nextTotal

def sum (identity : Identity k Int32) (receiver argument : HashBag k) :
    Except Failure (HashBag k) := do
  let normalized ← normalizeArgument identity receiver argument
  normalized.entries.foldlM (addEntry identity) receiver

def validStructure (bag : HashBag k) : Bool :=
  HashMap.validStructure bag.counts &&
    (HashMap.toList bag.counts).all (fun entry => decide (0 < entry.2)) &&
    match totalFromCounts bag.counts with
    | .ok total => total == bag.total
    | .error _ => false

end HashBag

end Durable7.Hamt

/-!
## Hash bags as numbers of occurrences

The stored numbers are positive and the total is their exact sum.
-/

namespace Durable7.Hamt.HashBag

open Foundation List HashMap Int Int32
open HashMap (Identity Becomes entryOf)

variable {k : Type}

def maxMultiplicity : Nat := 2 ^ 31 - 1

def maxTotal : Nat := 2 ^ 63 - 1

def amount (copies : Int32) : Nat := copies.toInt.toNat

def counted (entry : k × Int32) : k × Nat := (entry.1, amount entry.2)

def contents (bag : HashBag k) : List (k × Nat) := bag.entries.map counted

def Fits (contents : List (k × Nat)) : Prop :=
  (∀ entry ∈ contents, entry.2 ≤ maxMultiplicity) ∧ totalOf contents ≤ maxTotal

structure Valid (bag : HashBag k) : Prop where
  wellFormed : bag.counts.WellFormed
  positive : ∀ entry ∈ bag.entries, 0 < entry.2
  total_eq : bag.total.toInt = (totalOf bag.contents : Int)

/-! ### Machine numbers -/

theorem amount_le (copies : Int32) : amount copies ≤ maxMultiplicity := by
  have := copies.toInt_lt
  rw [amount, maxMultiplicity]
  omega

variable {copies : Int32}

theorem pos_iff : 0 < copies ↔ 0 < amount copies := by
  rw [lt_iff_toInt_lt, toInt_zero, amount]
  omega

theorem pos_of_nonzero (h : ¬copies < 0) (hzero : copies ≠ 0) : 0 < copies := by
  rw [lt_iff_toInt_lt, toInt_zero] at h ⊢
  have hne : copies.toInt ≠ 0 := fun heq => hzero (toInt_inj.mp heq)
  omega

theorem not_neg_of_pos (h : 0 < copies) : ¬copies < 0 := by
  rw [lt_iff_toInt_lt, toInt_zero] at h ⊢
  omega

theorem toInt_of_pos (h : 0 < copies) : copies.toInt = (amount copies : Int) := by
  rw [lt_iff_toInt_lt, toInt_zero] at h
  rw [amount]
  omega

variable {left right : Int32}

theorem le_iff_amount (hleft : 0 < left) (hright : 0 < right) :
    left ≤ right ↔ amount left ≤ amount right := by
  rw [le_iff_toInt_le, toInt_of_pos hleft, toInt_of_pos hright]
  omega

theorem amount_sub (hright : 0 < right) (h : right < left) :
    amount (left - right) = amount left - amount right := by
  have hlt := left.toInt_lt
  have hpos := toInt_of_pos hright
  rw [lt_iff_toInt_lt] at h
  have hsub : (left - right).toInt = left.toInt - right.toInt := by
    rw [toInt_sub]
    apply bmod_eq_of_le <;> omega
  rw [amount, amount, hsub, amount]
  omega

theorem amount_max (hleft : 0 < left) (hright : 0 < right) :
    amount (max left right) = max (amount left) (amount right) := by
  have hle := le_iff_amount hleft hright
  change amount (if left ≤ right then right else left) = _
  by_cases h : left ≤ right
  · have hamounts := hle.mp h
    rw [if_pos h]
    omega
  · have hamounts := mt hle.mpr h
    rw [if_neg h]
    omega

theorem checkedAddMultiplicity_cases (hleft : 0 < left) (hright : 0 < right) :
    (amount left + amount right ≤ maxMultiplicity ∧
      checkedAddMultiplicity left right = .ok (left + right) ∧
      amount (left + right) = amount left + amount right) ∨
    (maxMultiplicity < amount left + amount right ∧
      checkedAddMultiplicity left right = .error (.returned .multiplicityOverflow)) := by
  have hl := toInt_of_pos hleft
  have hr := toInt_of_pos hright
  have hlt := right.toInt_lt
  have hmax : (maxValue - right).toInt = 2147483647 - right.toInt := by
    rw [toInt_sub, show maxValue.toInt = 2147483647 from rfl]
    apply bmod_eq_of_le <;> omega
  unfold checkedAddMultiplicity
  by_cases h : 0 < right ∧ maxValue - right < left
  · rw [if_pos h]
    rw [lt_iff_toInt_lt (x := maxValue - right), hmax] at h
    refine .inr ⟨?_, rfl⟩
    rw [maxMultiplicity]
    omega
  · rw [if_neg h]
    have hle : ¬maxValue - right < left := fun hover => h ⟨hright, hover⟩
    rw [lt_iff_toInt_lt (x := maxValue - right), hmax] at hle
    have hadd : (left + right).toInt = left.toInt + right.toInt := by
      rw [toInt_add]
      apply bmod_eq_of_le <;> omega
    refine .inl ⟨?_, rfl, ?_⟩
    · rw [maxMultiplicity]
      omega
    · rw [amount, hadd]
      omega

theorem checkedAddTotal_cases {left right : Int64} {total copies : Nat}
    (hleft : left.toInt = (total : Int)) (hright : right.toInt = (copies : Int)) :
    (total + copies ≤ maxTotal ∧ checkedAddTotal left right = .ok (left + right) ∧
      (left + right).toInt = ((total + copies : Nat) : Int)) ∨
    (maxTotal < total + copies ∧
      checkedAddTotal left right = .error (.returned .totalCountOverflow)) := by
  have hl := left.toInt_lt
  have hr := right.toInt_lt
  have hmax : (Int64.maxValue - right).toInt = 9223372036854775807 - right.toInt := by
    rw [Int64.toInt_sub, show Int64.maxValue.toInt = 9223372036854775807 from rfl]
    apply bmod_eq_of_le <;> omega
  have hpos : 0 < right ↔ 0 < copies := by
    rw [Int64.lt_iff_toInt_lt, Int64.toInt_zero]
    omega
  unfold checkedAddTotal
  by_cases h : 0 < right ∧ Int64.maxValue - right < left
  · rw [if_pos h]
    rw [Int64.lt_iff_toInt_lt (x := Int64.maxValue - right), hmax] at h
    refine .inr ⟨?_, rfl⟩
    rw [maxTotal]
    omega
  · rw [if_neg h]
    rw [hpos, Int64.lt_iff_toInt_lt (x := Int64.maxValue - right), hmax] at h
    have hadd : (left + right).toInt = left.toInt + right.toInt := by
      rw [Int64.toInt_add]
      apply bmod_eq_of_le <;> omega
    refine .inl ⟨?_, rfl, ?_⟩
    · rw [maxTotal]
      omega
    · rw [hadd]
      omega

/-! ### Contents -/

def numbers (counts : HashMap k Int32) : List (k × Nat) := (toList counts).map counted

theorem entryAt_counted (same : k → k → Bool) (item : k) (entries : List (k × Int32)) :
    entryAt same item (entries.map counted) = (entryAt same item entries).map counted := by
  rw [entryAt, List.find?_map]
  rfl

theorem distinct_counted {same : k → k → Bool} {entries : List (k × Int32)}
    (h : Distinct same entries) : Distinct same (entries.map counted) := by
  rw [Distinct, pairwise_map]
  exact h

theorem entryAt_numbers (counts : HashMap k Int32) (item : k) :
    entryAt counts.policy.equalKeys item (numbers counts) = (entryOf counts item).map counted :=
  entryAt_counted _ item _

theorem distinct_numbers {counts : HashMap k Int32} (h : counts.WellFormed) :
    Distinct counts.policy.equalKeys (numbers counts) :=
  distinct_counted h.distinct

theorem le_maxMultiplicity {entries : List (k × Int32)} {entry : k × Nat}
    (h : entry ∈ entries.map counted) : entry.2 ≤ maxMultiplicity := by
  obtain ⟨stored, -, rfl⟩ := mem_map.mp h
  exact amount_le stored.2

namespace Valid

variable {bag : HashBag k} (h : bag.Valid)

include h

theorem equivalence : Equivalence fun left right => bag.policy.equalKeys left right = true :=
  h.wellFormed.lawful.equivalence

theorem distinct : Distinct bag.policy.equalKeys bag.contents := distinct_numbers h.wellFormed

theorem pos {entry : k × Nat} (hentry : entry ∈ bag.contents) : 0 < entry.2 := by
  obtain ⟨stored, hstored, rfl⟩ := mem_map.mp hentry
  exact pos_iff.mp (h.positive stored hstored)

theorem fits : Fits bag.contents := by
  refine ⟨fun entry => le_maxMultiplicity, ?_⟩
  have hlt := bag.total.toInt_lt
  have htotal := h.total_eq
  rw [maxTotal]
  omega

theorem positive_at {item : k} {stored : k × Int32}
    (hstored : entryOf bag.counts item = some stored) :
    0 < stored.2 :=
  h.positive stored (mem_of_entryAt hstored).1

end Valid

theorem emptyWith_valid {hashPolicy : HashPolicy k} (hlawful : hashPolicy.Lawful) :
    (emptyWith hashPolicy).Valid := by
  refine ⟨HashMap.emptyWith_wellFormed hlawful, ?_, rfl⟩
  intro entry hentry
  cases hentry

/-! ### Results -/

structure Holds (policy : HashPolicy k) (contents : List (k × Nat)) (bag : HashBag k) : Prop where
  valid : bag.Valid
  policy_eq : bag.policy = policy
  perm : bag.contents.Perm contents

def IsOverflow : HashBagError → Prop
  | .negativeCopies _ => False
  | .multiplicityOverflow => True
  | .totalCountOverflow => True

/-- The result fits and is there, or it does not fit and there is an overflow. -/
inductive Gives (policy : HashPolicy k) (fits : Prop) (contents : List (k × Nat)) :
    Except Failure (HashBag k) → Prop where
  | completed {bag : HashBag k} (hfits : fits) (hbag : Holds policy contents bag) :
      Gives policy fits contents (.ok bag)
  | overflowed {problem : HashBagError} (hfits : ¬fits) (hproblem : IsOverflow problem) :
      Gives policy fits contents (.error (.returned problem))

variable {bag : HashBag k} {policy : HashPolicy k}

theorem Holds.of_entryAt {expected : List (k × Nat)}
    (hvalid : bag.Valid) (hpolicy : bag.policy = policy)
    (hexpected : Distinct policy.equalKeys expected)
    (h : ∀ item, entryAt policy.equalKeys item bag.contents =
      entryAt policy.equalKeys item expected) : Holds policy expected bag := by
  subst hpolicy
  exact ⟨hvalid, rfl, perm_of_entryAt hvalid.equivalence hvalid.distinct hexpected h⟩

theorem Fits.perm {left right : List (k × Nat)} (h : left.Perm right) (hfits : Fits left) :
    Fits right :=
  ⟨fun entry hentry => hfits.1 entry (h.mem_iff.mpr hentry), totalOf_perm h ▸ hfits.2⟩

theorem Holds.gives {contents : List (k × Nat)}
    (h : Holds policy contents bag) : Gives policy (Fits contents) contents (.ok bag) :=
  .completed (h.valid.fits.perm h.perm) h

theorem Gives.perm {left right : List (k × Nat)}
    {result : Except Failure (HashBag k)} (h : Gives policy (Fits left) left result)
    (hperm : left.Perm right) : Gives policy (Fits right) right result := by
  cases h with
  | completed hfits hbag =>
      exact .completed (hfits.perm hperm) ⟨hbag.valid, hbag.policy_eq, hbag.perm.trans hperm⟩
  | overflowed hfits hproblem =>
      exact .overflowed (fun hright => hfits (hright.perm hperm.symm)) hproblem

theorem withCounts_eq {identity : Identity k Int32} (hsound : identity.Sound)
    (h : bag.Valid) {nextCounts : HashMap k Int32} {nextTotal : Int64}
    (hpolicy : nextCounts.policy = bag.counts.policy) (hnext : Valid ⟨nextCounts, nextTotal⟩) :
    withCounts identity bag nextCounts nextTotal = .ok ⟨nextCounts, nextTotal⟩ := by
  unfold withCounts
  by_cases hroots : identity.nodes bag.counts.root nextCounts.root = true
  · rw [if_pos hroots]
    have hroot := hsound.nodes_eq _ _ hroots
    have hcounts : bag.counts = nextCounts := by
      have hsize := h.wellFormed.size_eq
      have hnextSize := hnext.wellFormed.size_eq
      rw [hroot] at hsize
      obtain ⟨⟨policy, size, root⟩, total⟩ := bag
      obtain ⟨nextPolicy, nextSize, nextRoot⟩ := nextCounts
      simp_all
    have htotal : bag.total = nextTotal := by
      apply Int64.toInt_inj.mp
      rw [h.total_eq, hnext.total_eq, contents, contents, entries, entries, hcounts]
    rw [if_pos htotal, ← htotal, ← hcounts]
  · rw [if_neg hroots]

theorem Valid.written (h : bag.Valid) {item : k} {now : Option (k × Int32)}
    {next : HashMap k Int32} (hnext : Becomes bag.counts next item now)
    (hpositive : ∀ entry, now = some entry → 0 < entry.2) {nextTotal : Int64}
    (htotal : nextTotal.toInt + (numberAt ((entryOf bag.counts item).map counted) : Int) =
      bag.total.toInt + (numberAt (now.map counted) : Int)) :
    Valid ⟨next, nextTotal⟩ ∧ next.policy = bag.policy ∧
      Sets bag.policy.equalKeys item (now.map counted) bag.contents (numbers next) := by
  have hpolicy := hnext.policy_eq
  have hsets : Sets bag.policy.equalKeys item (now.map counted) bag.contents (numbers next) := by
    intro other
    have hentry := hnext.entryOf_eq other
    rw [entryOf, hpolicy] at hentry
    change entryAt bag.counts.policy.equalKeys other ((toList next).map counted) =
      if bag.counts.policy.equalKeys other item = true then _
      else entryAt bag.counts.policy.equalKeys other ((toList bag.counts).map counted)
    rw [entryAt_counted, hentry, entryAt_counted, apply_ite (Option.map counted)]
    rfl
  have hdistinct := distinct_numbers hnext.wellFormed
  rw [hpolicy] at hdistinct
  refine ⟨⟨hnext.wellFormed, ?_, ?_⟩, hpolicy, hsets⟩
  · intro entry hentry
    have hself : entryOf next entry.1 = some entry :=
      entryAt_self hnext.wellFormed.lawful.equivalence hnext.wellFormed.distinct hentry
    rw [hnext.entryOf_eq] at hself
    split at hself
    · exact hpositive entry hself
    · exact h.positive_at hself
  · have hsum := totalOf_of_sets h.equivalence h.distinct hdistinct hsets
    have hbefore := entryAt_numbers bag.counts item
    change entryAt bag.policy.equalKeys item bag.contents = _ at hbefore
    have hold := h.total_eq
    rw [hbefore] at hsum
    change nextTotal.toInt = (totalOf (numbers next) : Int)
    omega

theorem totalFromEntries_cases (entries : List (k × Int32))
    (hpositive : ∀ entry ∈ entries, 0 < entry.2)
    {start : Int64} {number : Nat} (hstart : start.toInt = (number : Int)) :
    (number + totalOf (entries.map counted) ≤ maxTotal ∧ ∃ total,
      (entries.map Prod.snd).foldlM
      (fun total copies => checkedAddTotal total copies.toInt64) start =
        .ok total ∧ total.toInt = ((number + totalOf (entries.map counted) : Nat) : Int)) ∨
    (maxTotal < number + totalOf (entries.map counted) ∧
      (entries.map Prod.snd).foldlM
        (fun total copies => checkedAddTotal total copies.toInt64) start =
        .error (.returned .totalCountOverflow)) := by
  induction entries generalizing start number with
  | nil =>
      have hlt := start.toInt_lt
      refine .inl ⟨?_, start, rfl, ?_⟩
      · rw [maxTotal]
        simp [totalOf]
        omega
      · rw [hstart]
        rfl
  | cons entry entries ih =>
      have hentry := toInt_of_pos (hpositive entry mem_cons_self)
      rw [← toInt_toInt64] at hentry
      have htotal : totalOf ((entry :: entries).map counted) =
          amount entry.2 + totalOf (entries.map counted) := totalOf_cons _ _
      rw [map_cons, map_cons, foldlM_cons, ← map_cons (f := counted), htotal, ← Nat.add_assoc]
      rcases checkedAddTotal_cases hstart hentry with ⟨hle, hok, hsum⟩ | ⟨hlt, herror⟩
      · rw [hok, except_ok_bind]
        exact ih (fun other hother => hpositive other (mem_cons_of_mem _ hother)) hsum
      · rw [herror, except_error_bind]
        refine .inr ⟨?_, rfl⟩
        omega

theorem totalFromCounts_cases {counts : HashMap k Int32}
    (hpositive : ∀ entry ∈ toList counts, 0 < entry.2) :
    (totalOf (numbers counts) ≤ maxTotal ∧ ∃ total, totalFromCounts counts = .ok total ∧
      total.toInt = (totalOf (numbers counts) : Int)) ∨
    (maxTotal < totalOf (numbers counts) ∧
      totalFromCounts counts = .error (.returned .totalCountOverflow)) := by
  have hcases := @totalFromEntries_cases _ _ hpositive 0 0 rfl
  rw [Nat.zero_add] at hcases
  exact hcases

theorem Valid.validStructure_eq (h : bag.Valid) : validStructure bag = true := by
  have hall : (HashMap.toList bag.counts).all (fun entry => decide (0 < entry.2)) = true := by
    rw [all_eq_true]
    intro entry hentry
    exact decide_eq_true (h.positive entry hentry)
  unfold validStructure
  rw [h.wellFormed.validStructure_eq, hall]
  rcases totalFromCounts_cases h.positive with ⟨-, total, hok, htotal⟩ | ⟨hlt, -⟩
  · rw [hok]
    have heq : total = bag.total := Int64.toInt_inj.mp (htotal.trans h.total_eq.symm)
    simp [heq]
  · exact absurd h.fits.2 (Nat.not_le.mpr hlt)

theorem rebuilt_gives {identity : Identity k Int32} (hsound : identity.Sound)
    (h : bag.Valid) {next : HashMap k Int32} (hnext : next.WellFormed)
    (hpolicy : next.policy = bag.policy)
    (hpositive : ∀ entry ∈ toList next, 0 < entry.2) {expected : List (k × Nat)}
    (hexpected : Distinct bag.policy.equalKeys expected)
    (hentries : ∀ item, (entryOf next item).map counted =
      entryAt bag.policy.equalKeys item expected) :
    Gives bag.policy (Fits expected) expected (do
      let nextTotal ← totalFromCounts next
      withCounts identity bag next nextTotal) := by
  have hdistinct := distinct_numbers hnext
  rw [hpolicy] at hdistinct
  have hperm : (numbers next).Perm expected := by
    apply perm_of_entryAt h.equivalence hdistinct hexpected
    intro item
    rw [← hentries, ← entryAt_numbers, hpolicy]
  have htotals := totalOf_perm hperm
  rcases totalFromCounts_cases hpositive with ⟨hle, nextTotal, hok, htotal⟩ | ⟨hlt, herror⟩
  · rw [hok, except_ok_bind]
    have hvalid : Valid ⟨next, nextTotal⟩ := ⟨hnext, hpositive, htotal⟩
    rw [withCounts_eq hsound h hpolicy hvalid]
    exact Holds.gives ⟨hvalid, hpolicy, hperm⟩
  · rw [herror, except_error_bind]
    refine .overflowed ?_ trivial
    rintro ⟨-, hle⟩
    rw [← htotals] at hle
    omega

end Durable7.Hamt.HashBag
