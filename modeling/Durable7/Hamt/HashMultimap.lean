import Durable7.Hamt.HashSet
import Durable7.Foundation.Outcome

/-!
# Operations on hash multimaps

A key has a group of values that is never empty.  The number of pairs is stored, and increasing it
past its bound is an exception of the source, which is an error here.
-/

namespace Durable7.Hamt

structure HashMultimap (k v : Type) where
  valuesPolicy : HashPolicy v
  pairCount : Int
  groups : HashMap k (HashSet v)

namespace HashMultimap

variable {k v : Type}

def emptyWith (keys : HashPolicy k) (values : HashPolicy v) : HashMultimap k v :=
  ⟨values, 0, HashMap.emptyWith keys⟩

def size (values : HashMultimap k v) : Int := values.pairCount

def keyPolicy (values : HashMultimap k v) : HashPolicy k := values.groups.policy

def valuePolicy (values : HashMultimap k v) : HashPolicy v := values.valuesPolicy

def lookupValues (key : k) (values : HashMultimap k v) : Option (HashSet v) :=
  HashMap.lookup key values.groups

def member (key : k) (value : v) (values : HashMultimap k v) : Bool :=
  match lookupValues key values with
  | none => false
  | some group => HashSet.member value group

def actualKey (key : k) (values : HashMultimap k v) : Option k :=
  HashMap.actualKey key values.groups

def maxBound : Int := 2 ^ 63 - 1

def checkedIncrement (value : Int) : Except String Int :=
  if value = maxBound then .error "HashMultimap pair count overflow" else .ok (value + 1)

def insert (key : k) (value : v) (values : HashMultimap k v) : Except String (HashMultimap k v) :=
  match HashMap.lookup key values.groups with
  | none => do
      let pairCount ← checkedIncrement values.pairCount
      .ok ⟨values.valuesPolicy, pairCount,
        HashMap.insert key (HashSet.singletonWith values.valuesPolicy value) values.groups⟩
  | some group =>
      if HashSet.member value group then .ok values
      else do
        let pairCount ← checkedIncrement values.pairCount
        .ok ⟨values.valuesPolicy, pairCount,
          HashMap.insert key (HashSet.insert value group) values.groups⟩

def delete (key : k) (value : v) (values : HashMultimap k v) : HashMultimap k v :=
  match HashMap.lookup key values.groups with
  | none => values
  | some group =>
      match HashSet.tryRemove value group with
      | none => values
      | some rest =>
          if HashSet.null rest then
            ⟨values.valuesPolicy, values.pairCount - 1, HashMap.delete key values.groups⟩
          else ⟨values.valuesPolicy, values.pairCount - 1, HashMap.insert key rest values.groups⟩

def clear (values : HashMultimap k v) : HashMultimap k v :=
  emptyWith values.keyPolicy values.valuePolicy

def toList (values : HashMultimap k v) : List (k × v) :=
  (HashMap.toList values.groups).flatMap fun entry =>
    (HashSet.toList entry.2).map fun value => (entry.1, value)

def validStructure (values : HashMultimap k v) : Bool :=
  HashMap.validStructure values.groups && decide (0 ≤ values.pairCount) &&
    (HashMap.toList values.groups).all (fun entry => !HashSet.null entry.2) &&
    values.pairCount == (((HashMap.toList values.groups).map fun entry =>
      HashSet.size entry.2).sum : Nat) &&
    ((toList values).length : Int) == values.pairCount

end HashMultimap

end Durable7.Hamt

/-!
## Hash multimaps as sets of pairs

The pair of two classes is there or not, under the representative of its value.  An edit writes
one pair and counts it.
-/

namespace Durable7.Hamt.HashMultimap

open Foundation
open HashMap (Becomes entryOf)

variable {k v : Type}

section

open List

structure Valid (values : HashMultimap k v) : Prop where
  groups : values.groups.WellFormed
  lawful : values.valuesPolicy.Lawful
  group : ∀ entry ∈ HashMap.toList values.groups,
    entry.2.Valid ∧ entry.2.policy = values.valuesPolicy ∧ ¬entry.2.null = true
  pairCount_eq : values.pairCount = (HashMap.totalWeight HashSet.size values.groups : Int)

/-- The group of a key, empty when there is none. -/
def groupAt (values : HashMultimap k v) (key : k) : HashSet v :=
  ((entryOf values.groups key).map Prod.snd).getD (HashSet.emptyWith values.valuesPolicy)

/-- The stored value of the pair of two classes. -/
def elementAt (values : HashMultimap k v) (key : k) (value : v) : Option v :=
  HashSet.actualValue value (groupAt values key)

theorem emptyWith_valid {keys : HashPolicy k} {valuesPolicy : HashPolicy v} (hkeys : keys.Lawful)
    (hvalues : valuesPolicy.Lawful) : (emptyWith keys valuesPolicy).Valid := by
  refine ⟨HashMap.emptyWith_wellFormed hkeys, hvalues, ?_, rfl⟩
  intro entry hentry
  cases hentry

section Reads

variable {values : HashMultimap k v} (h : values.Valid)

include h

theorem Valid.keyEquivalence :
    Equivalence fun left right => values.keyPolicy.equalKeys left right = true :=
  h.groups.lawful.equivalence

theorem Valid.valueEquivalence :
    Equivalence fun left right => values.valuePolicy.equalKeys left right = true :=
  h.lawful.equivalence

theorem Valid.group_of {key : k} {entry : k × HashSet v}
    (hentry : entryOf values.groups key = some entry) :
    entry.2.Valid ∧ entry.2.policy = values.valuesPolicy ∧ ¬entry.2.null = true :=
  h.group entry (mem_of_entryAt hentry).1

theorem Valid.groupAt_valid (key : k) :
    (groupAt values key).Valid ∧ (groupAt values key).policy = values.valuesPolicy := by
  unfold groupAt
  cases hentry : entryOf values.groups key with
  | none => exact ⟨HashSet.emptyWith_valid h.lawful, rfl⟩
  | some entry =>
      obtain ⟨hvalid, hpolicy, -⟩ := h.group_of hentry
      exact ⟨hvalid, hpolicy⟩

theorem Valid.groupAt_congr {left right : k}
    (hsame : values.keyPolicy.equalKeys left right = true) :
    groupAt values left = groupAt values right := by
  rw [groupAt, groupAt, h.groups.entryOf_congr hsame]

theorem Valid.lookupValues_eq (key : k) :
    lookupValues key values = (entryOf values.groups key).map Prod.snd :=
  h.groups.lookup_eq key

theorem Valid.actualKey_eq (key : k) :
    actualKey key values = (entryOf values.groups key).map Prod.fst :=
  h.groups.actualKey_eq key

theorem Valid.actualKey_congr {left right : k}
    (hsame : values.keyPolicy.equalKeys left right = true) :
    actualKey left values = actualKey right values := by
  rw [h.actualKey_eq, h.actualKey_eq, h.groups.entryOf_congr hsame]

omit h in
theorem Valid.groupAt_size (key : k) :
    (groupAt values key).size = HashMap.weightOf HashSet.size (entryOf values.groups key) := by
  unfold groupAt
  cases entryOf values.groups key <;> rfl

theorem Valid.member_eq (key : k) (value : v) :
    member key value values = (elementAt values key value).isSome := by
  have hgroup := (h.groupAt_valid key).1.member_eq value
  rw [elementAt, ← hgroup, member, h.lookupValues_eq, groupAt]
  cases entryOf values.groups key with
  | some entry => rfl
  | none =>
      have hempty := (HashSet.emptyWith_valid h.lawful).member_eq value
      rw [HashSet.emptyWith_actualValue h.lawful] at hempty
      exact hempty.symm

theorem Valid.elementAt_congr {key otherKey : k} {value otherValue : v}
    (hkey : values.keyPolicy.equalKeys key otherKey = true)
    (hvalue : values.valuePolicy.equalKeys value otherValue = true) :
    elementAt values key value = elementAt values otherKey otherValue := by
  obtain ⟨hvalid, hpolicy⟩ := h.groupAt_valid otherKey
  rw [elementAt, elementAt, h.groupAt_congr hkey]
  apply hvalid.actualValue_congr
  rwa [hpolicy]

theorem Valid.lookupValues_cases (key : k) :
    (lookupValues key values = none ∧ actualKey key values = none ∧
      ∀ value, elementAt values key value = none) ∨
    ∃ rep group, lookupValues key values = some group ∧ actualKey key values = some rep ∧
      values.keyPolicy.equalKeys key rep = true ∧ group.Valid ∧
      group.policy = values.valuesPolicy ∧
      (∀ value, HashSet.actualValue value group = elementAt values key value) ∧
      ∃ value, (elementAt values key value).isSome = true := by
  rw [h.lookupValues_eq, h.actualKey_eq]
  unfold elementAt groupAt
  cases hentry : entryOf values.groups key with
  | none => exact .inl ⟨rfl, rfl, HashSet.emptyWith_actualValue h.lawful⟩
  | some entry =>
      obtain ⟨hvalid, hpolicy, hfull⟩ := h.group_of hentry
      refine .inr ⟨entry.1, entry.2, rfl, rfl, (mem_of_entryAt hentry).2, hvalid, hpolicy,
        fun _ => rfl, ?_⟩
      by_contra hnone
      apply hfull
      apply hvalid.null_iff.mpr
      intro value
      rw [← Option.not_isSome_iff_eq_none]
      exact fun hsome => hnone ⟨value, hsome⟩

theorem Valid.toList_length : ((toList values).length : Int) = values.pairCount := by
  have hlengths : ∀ entries : List (k × HashSet v), (∀ entry ∈ entries, entry.2.Valid) →
      (entries.flatMap fun entry => (HashSet.toList entry.2).map fun value =>
        (entry.1, value)).length = (entries.map fun entry => HashSet.size entry.2).sum := by
    intro entries hvalid
    induction entries with
    | nil => rfl
    | cons entry entries ih =>
        rw [flatMap_cons, length_append, length_map, map_cons, sum_cons,
          ih fun other hother => hvalid other (mem_cons_of_mem _ hother),
          (hvalid entry mem_cons_self).size_toList]
  rw [h.pairCount_eq, toList, hlengths _ fun entry hentry => (h.group entry hentry).1]
  rfl

theorem Valid.validStructure_eq : validStructure values = true := by
  have hgroups : (HashMap.toList values.groups).all (fun entry => !HashSet.null entry.2) =
      true := by
    rw [all_eq_true]
    intro entry hentry
    simpa using (h.group entry hentry).2.2
  have hcount := h.pairCount_eq
  unfold HashMap.totalWeight at hcount
  have hnonneg : 0 ≤ values.pairCount := by omega
  rw [validStructure, h.groups.validStructure_eq, hgroups, h.toList_length, ← hcount]
  simp [hnonneg]

theorem Valid.mem_toList {key : k} {value : v} :
    (key, value) ∈ toList values ↔
      actualKey key values = some key ∧ elementAt values key value = some value := by
  rw [toList, mem_flatMap]
  constructor
  · rintro ⟨entry, hentry, hmem⟩
    obtain ⟨element, helement, heq⟩ := mem_map.mp hmem
    obtain ⟨rfl, rfl⟩ := Prod.mk.inj heq
    have hstored := h.groups.mem_iff.mp hentry
    rw [h.actualKey_eq, elementAt, groupAt, hstored]
    exact ⟨rfl, (h.group entry hentry).1.mem_toList.mp helement⟩
  · rintro ⟨hkey, hvalue⟩
    rw [h.actualKey_eq] at hkey
    obtain ⟨entry, hentry, rfl⟩ := Option.map_eq_some_iff.mp hkey
    rw [elementAt, groupAt, hentry] at hvalue
    refine ⟨entry, (mem_of_entryAt hentry).1, mem_map.mpr ⟨value, ?_, rfl⟩⟩
    exact (h.group_of hentry).1.mem_toList.mpr hvalue

theorem Valid.toList_distinct : (toList values).Pairwise fun left right =>
    ¬(values.keyPolicy.equalKeys left.1 right.1 = true ∧
      values.valuePolicy.equalKeys left.2 right.2 = true) := by
  rw [toList, pairwise_flatMap]
  constructor
  · intro entry hentry
    obtain ⟨hvalid, hpolicy, -⟩ := h.group entry hentry
    have hdistinct := hvalid.values.distinct
    rw [HashSet.toList, map_map, pairwise_map]
    apply hdistinct.imp
    intro left right hne hsame
    have hvalue : entry.2.policy.equalKeys left.1 right.1 = true := hpolicy ▸ hsame.2
    rw [HashSet.policy, hne] at hvalue
    cases hvalue
  · apply h.groups.distinct.imp
    intro left right hne first hfirst second hsecond hsame
    obtain ⟨_, -, rfl⟩ := mem_map.mp hfirst
    obtain ⟨_, -, rfl⟩ := mem_map.mp hsecond
    have hkey := hsame.1
    rw [keyPolicy, hne] at hkey
    cases hkey

theorem Valid.member_toList {key : k} {value : v} : member key value values = true ↔
    ∃ pair ∈ toList values, values.keyPolicy.equalKeys key pair.1 = true ∧
      values.valuePolicy.equalKeys value pair.2 = true := by
  rw [h.member_eq]
  constructor
  · intro hmember
    obtain ⟨element, helement⟩ := Option.isSome_iff_exists.mp hmember
    rcases h.lookupValues_cases key with ⟨-, -, hnone⟩ | ⟨rep, group, -, hkey, hsame, -⟩
    · rw [hnone] at hmember
      cases hmember
    · obtain ⟨hgroup, hpolicy⟩ := h.groupAt_valid key
      have hvalue := hgroup.same_of_actualValue helement
      rw [hpolicy] at hvalue
      refine ⟨(rep, element), h.mem_toList.mpr ⟨?_, ?_⟩, hsame, hvalue⟩
      · rw [← h.actualKey_congr hsame, hkey]
      · rw [← h.elementAt_congr hsame hvalue, helement]
  · rintro ⟨pair, hmem, hkey, hvalue⟩
    rw [h.elementAt_congr hkey hvalue, (h.mem_toList.mp hmem).2]
    rfl

end Reads

theorem emptyWith_member {keys : HashPolicy k} {valuesPolicy : HashPolicy v} (hkeys : keys.Lawful)
    (hvalues : valuesPolicy.Lawful) (key : k) (value : v) :
    ¬member key value (emptyWith keys valuesPolicy) = true := by
  rw [member, (emptyWith_valid hkeys hvalues).lookupValues_eq]
  exact Bool.false_ne_true

/-- The pair of two classes is written, and counted. -/
structure Writes (before after : HashMultimap k v) (key : k) (value : v) (element : Option v) :
    Prop where
  valid : after.Valid
  keyPolicy_eq : after.keyPolicy = before.keyPolicy
  valuePolicy_eq : after.valuePolicy = before.valuePolicy
  elementAt_eq : ∀ otherKey otherValue, elementAt after otherKey otherValue =
    if before.keyPolicy.equalKeys otherKey key = true ∧
      before.valuePolicy.equalKeys otherValue value = true then element
    else elementAt before otherKey otherValue
  pairCount_eq : after.pairCount + ((elementAt before key value).toList.length : Int) =
    before.pairCount + (element.toList.length : Int)

/-- A group is stored under its key when it is not empty. -/
inductive Stored (rep : k) (group : HashSet v) : Option (k × HashSet v) → Prop where
  | kept (hfull : ¬group.null = true) : Stored rep group (some (rep, group))
  | gone (hempty : group.null = true) : Stored rep group none

theorem Valid.regrouped {before : HashMultimap k v} (h : before.Valid) {key : k} {value : v}
    {rep : k} {group : HashSet v} {element : Option v}
    (hgroup : HashSet.Writes (groupAt before key) group value element)
    {now : Option (k × HashSet v)} (hnow : Stored rep group now)
    {groups : HashMap k (HashSet v)} (hgroups : Becomes before.groups groups key now)
    {pairCount : Int} (hcount : pairCount + ((elementAt before key value).toList.length : Int) =
      before.pairCount + (element.toList.length : Int)) :
    Writes before ⟨before.valuesPolicy, pairCount, groups⟩ key value element := by
  obtain ⟨hold, holdPolicy⟩ := h.groupAt_valid key
  have hafterGroup : ∀ other, ∀ otherValue,
      elementAt ⟨before.valuesPolicy, pairCount, groups⟩ other otherValue =
        if before.keyPolicy.equalKeys other key = true then HashSet.actualValue otherValue group
        else elementAt before other otherValue := by
    intro other otherValue
    have hentry := hgroups.entryOf_eq other
    unfold elementAt groupAt
    rw [hentry]
    change HashSet.actualValue otherValue (((if before.keyPolicy.equalKeys other key = true then
      now else entryOf before.groups other).map Prod.snd).getD _) = _
    split
    · cases hnow with
      | kept hfull => rfl
      | gone hempty =>
          rw [hgroup.valid.null_iff.mp hempty]
          exact HashSet.emptyWith_actualValue h.lawful otherValue
    · rfl
  refine ⟨⟨hgroups.wellFormed, h.lawful, ?_, ?_⟩, hgroups.policy_eq, rfl, ?_, hcount⟩
  · rintro ⟨entryKey, entryGroup⟩ hentry
    have hstored := hgroups.wellFormed.mem_iff.mp hentry
    rw [hgroups.entryOf_eq] at hstored
    split at hstored
    · cases hnow with
      | kept hfull =>
          cases hstored
          exact ⟨hgroup.valid, hgroup.policy_eq.trans holdPolicy, hfull⟩
      | gone hempty => cases hstored
    · exact h.group_of hstored
  · have hweight := hgroups.totalWeight_eq h.groups HashSet.size
    have hsize := hgroup.size_eq
    have hnowSize : HashMap.weightOf HashSet.size now = group.size := by
      cases hnow with
      | kept hfull => rfl
      | gone hempty => exact (beq_iff_eq.mp hempty).symm
    have htotal := h.pairCount_eq
    rw [Valid.groupAt_size] at hsize
    change pairCount = (HashMap.totalWeight HashSet.size groups : Int)
    change _ + (elementAt before key value).toList.length = _ at hsize
    omega
  · intro otherKey otherValue
    rw [hafterGroup, hgroup.actualValue_eq, holdPolicy]
    by_cases hkey : before.keyPolicy.equalKeys otherKey key = true
    · rw [if_pos hkey]
      by_cases hvalue : before.valuesPolicy.equalKeys otherValue value = true
      · have hboth : before.keyPolicy.equalKeys otherKey key = true ∧
            before.valuePolicy.equalKeys otherValue value = true := ⟨hkey, hvalue⟩
        rw [if_pos hvalue, if_pos hboth]
      · have hother : ¬(before.keyPolicy.equalKeys otherKey key = true ∧
            before.valuePolicy.equalKeys otherValue value = true) := fun hboth => hvalue hboth.2
        rw [if_neg hvalue, if_neg hother, elementAt, h.groupAt_congr hkey]
    · rw [if_neg hkey, if_neg (fun hboth => hkey hboth.1)]

end

/-!
## Insertion and deletion of pairs

A group that gets its first value is stored under the given key, and a group that loses its last
value goes.  In between the key of a group stays.
-/

inductive Inserts (before : HashMultimap k v) (key : k) (value : v) :
    Except String (HashMultimap k v) → Prop where
  | present (hmember : member key value before = true) : Inserts before key value (.ok before)
  | overflow (habsent : ¬member key value before = true)
      (hcount : before.pairCount = maxBound) :
      Inserts before key value (.error "HashMultimap pair count overflow")
  | inserted {after : HashMultimap k v} (habsent : ¬member key value before = true)
      (hcount : before.pairCount ≠ maxBound) (hafter : Writes before after key value (some value))
      (hkeys : ∀ other, actualKey other after =
        if before.keyPolicy.equalKeys other key = true then some ((actualKey key before).getD key)
        else actualKey other before) : Inserts before key value (.ok after)

section

variable {before : HashMultimap k v} (h : before.Valid)
include h

section

variable {key : k} {value : v} (habsent : ¬member key value before = true)
include habsent

theorem Valid.absent : elementAt before key value = none := by
  rw [h.member_eq] at habsent
  simpa using habsent

theorem Valid.not_member_group : ¬HashSet.member value (groupAt before key) = true := by
  have hnone := h.absent habsent
  rw [elementAt] at hnone
  rw [(h.groupAt_valid key).1.member_eq, hnone]
  exact Bool.false_ne_true

/-- The group with one more value is stored under the key that it had, or the given one. -/
theorem Valid.insert_writes :
    let after : HashMultimap k v := ⟨before.valuesPolicy, before.pairCount + 1,
      HashMap.insert key (HashSet.insert value (groupAt before key)) before.groups⟩
    Writes before after key value (some value) ∧
      ∀ other, actualKey other after =
        if before.keyPolicy.equalKeys other key = true then some ((actualKey key before).getD key)
        else actualKey other before := by
  intro after
  have hnone := h.absent habsent
  have hgroup := HashSet.insert_writes (h.groupAt_valid key).1 (h.not_member_group habsent)
  have hgroups := HashMap.insert_becomes h.groups key (HashSet.insert value (groupAt before key))
  have hfull : ¬(HashSet.insert value (groupAt before key)).null = true := by
    intro hempty
    have hmember := hgroup.valid.null_iff.mp hempty value
    rw [hgroup.actualValue_eq, if_pos (same_refl (h.groupAt_valid key).1.equivalence value)]
      at hmember
    cases hmember
  have hafter : Writes before after key value (some value) := by
    apply h.regrouped hgroup (.kept hfull) hgroups
    rw [hnone]
    exact Int.add_zero _
  refine ⟨hafter, ?_⟩
  intro other
  rw [hafter.valid.actualKey_eq, hgroups.entryOf_eq, h.actualKey_eq, h.actualKey_eq,
    apply_ite (Option.map _)]
  cases entryOf before.groups key <;> rfl

end

theorem Valid.insert_cases (key : k) (value : v) :
    Inserts before key value (insert key value before) := by
  have hlookup := h.lookupValues_eq key
  unfold lookupValues at hlookup
  by_cases hmember : member key value before = true
  · have hresult : insert key value before = .ok before := by
      unfold insert
      rw [member, lookupValues] at hmember
      cases hentry : HashMap.lookup key before.groups with
      | none =>
          rw [hentry] at hmember
          cases hmember
      | some group =>
          rw [hentry] at hmember
          exact if_pos hmember
    rw [hresult]
    exact .present hmember
  · obtain ⟨hafter, hkeys⟩ := h.insert_writes hmember
    have hresult : insert key value before = (checkedIncrement before.pairCount >>= fun pairCount =>
        .ok ⟨before.valuesPolicy, pairCount,
          HashMap.insert key (HashSet.insert value (groupAt before key)) before.groups⟩) := by
      unfold insert groupAt
      rw [← hlookup]
      rw [member, lookupValues] at hmember
      cases hentry : HashMap.lookup key before.groups with
      | none => rfl
      | some group =>
          rw [hentry] at hmember
          exact if_neg hmember
    rw [hresult, checkedIncrement]
    split
    · rename_i hcount
      exact .overflow hmember hcount
    · rename_i hcount
      exact .inserted hmember hcount hafter hkeys

theorem Valid.insert_full {key : k} {value : v}
    (habsent : ¬member key value before = true) (hcount : before.pairCount = maxBound) :
    insert key value before = .error "HashMultimap pair count overflow" := by
  have hinsert := h.insert_cases key value
  revert hinsert
  generalize insert key value before = result
  intro hinsert
  cases hinsert with
  | present hmember => exact absurd hmember habsent
  | overflow => rfl
  | inserted _ hroom => exact absurd hcount hroom

/-- A deletion finds its pair or changes nothing, and every group that is left keeps its key. -/
theorem Valid.delete_cases (key : k) (value : v) :
    (¬member key value before = true ∧ delete key value before = before) ∨
    (member key value before = true ∧ Writes before (delete key value before) key value none ∧
      ∀ other otherValue, (elementAt (delete key value before) other otherValue).isSome = true →
        actualKey other (delete key value before) = actualKey other before) := by
  have hlookup := h.lookupValues_eq key
  unfold lookupValues at hlookup
  unfold delete member lookupValues
  rw [hlookup]
  cases hentry : entryOf before.groups key with
  | none => exact .inl ⟨Bool.false_ne_true, rfl⟩
  | some stored =>
      have hgroupAt : groupAt before key = stored.2 := by rw [groupAt, hentry]; rfl
      rcases HashSet.tryRemove_cases (h.group_of hentry).1 value with ⟨habsent, hresult⟩ |
        ⟨hmember, rest, hresult, hrest⟩
      · rw [Option.map_some]
        simp only [hresult]
        exact .inl ⟨habsent, trivial⟩
      · rw [Option.map_some]
        simp only [hresult]
        refine .inr ⟨hmember, ?_⟩
        have hsome : (elementAt before key value).toList.length = 1 := by
          rw [(h.group_of hentry).1.member_eq] at hmember
          obtain ⟨element, helement⟩ := Option.isSome_iff_exists.mp hmember
          rw [elementAt, hgroupAt, helement]
          rfl
        have hcount : before.pairCount - 1 + ((elementAt before key value).toList.length : Int) =
            before.pairCount + ((none : Option v).toList.length : Int) := by
          rw [hsome]
          simp
        rw [← hgroupAt] at hrest
        by_cases hempty : rest.null = true
        · have hgroups := HashMap.delete_becomes h.groups key
          have hafter := @Valid.regrouped _ _ _ h key value key rest none hrest none (.gone hempty)
            _ hgroups _ hcount
          rw [if_pos hempty]
          refine ⟨hafter, ?_⟩
          intro other otherValue hother
          rw [hafter.valid.actualKey_eq, h.actualKey_eq, hgroups.entryOf_eq]
          split
          · rename_i hsame
            rcases hafter.valid.lookupValues_cases other with ⟨-, -, hnone⟩ |
              ⟨rep, group, -, hkey, -⟩
            · rw [hnone] at hother
              cases hother
            · rw [hafter.valid.actualKey_eq, hgroups.entryOf_eq, if_pos hsame] at hkey
              cases hkey
          · rfl
        · have hgroups := HashMap.insert_becomes h.groups key rest
          rw [hentry] at hgroups
          have hafter := @Valid.regrouped _ _ _ h key value stored.1 rest none hrest _
            (.kept hempty) _ hgroups _ hcount
          rw [if_neg hempty]
          refine ⟨hafter, ?_⟩
          intro other otherValue _
          rw [hafter.valid.actualKey_eq, h.actualKey_eq, hgroups.entryOf_eq]
          split
          · rename_i hsame
            rw [h.groups.entryOf_congr hsame, hentry]
            rfl
          · rfl

end

section Membership

variable {before after : HashMultimap k v} {key : k} {value : v} {element : Option v}

theorem Writes.member_iff (h : Writes before after key value element) (hbefore : before.Valid)
    {otherKey : k} {otherValue : v} : member otherKey otherValue after = true ↔
      if before.keyPolicy.equalKeys otherKey key = true ∧
        before.valuePolicy.equalKeys otherValue value = true then element.isSome = true
      else member otherKey otherValue before = true := by
  rw [h.valid.member_eq, h.elementAt_eq, hbefore.member_eq]
  split <;> rfl

theorem Valid.member_congr (h : before.Valid) {otherKey : k} {otherValue : v}
    (hkey : before.keyPolicy.equalKeys otherKey key = true)
    (hvalue : before.valuePolicy.equalKeys otherValue value = true) :
    member otherKey otherValue before = member key value before := by
  rw [h.member_eq, h.member_eq, h.elementAt_congr hkey hvalue]

end Membership

end Durable7.Hamt.HashMultimap
