import Durable7.FingerTree.SortedMap

/-!
# Delta maps

A sorted map beside its checkpoint and an index of the classes on which the two differ.
The keys carry the comparison of the policy in their type.
-/

namespace Durable7.FingerTree

open SortedMap

section

structure DeltaMapPolicy (key value : Type) where
  policyCompareKeys : key → key → Ordering
  policyValuesEqual : value → value → Bool

variable {key value : Type}

structure OrderedKey (policy : DeltaMapPolicy key value) where
  orderedKeyValue : key

instance {policy : DeltaMapPolicy key value} : Ord (OrderedKey policy) where
  compare left right := policy.policyCompareKeys left.orderedKeyValue right.orderedKeyValue

structure DeltaRecord (value : Type) where
  recordBefore : Option value
  recordAfter : Option value

structure PersistentDeltaMap (policy : DeltaMapPolicy key value) where
  deltaCurrent : SortedMap (OrderedKey policy) value
  deltaCheckpoint : SortedMap (OrderedKey policy) value
  deltaChanges : SortedMap (OrderedKey policy) (DeltaRecord value)

inductive PersistentMapChangeKind where
  | added
  | removed
  | updated
  deriving DecidableEq

structure PersistentMapChange (key value : Type) where
  changeKey : key
  changeBefore : Option value
  changeAfter : Option value
  deriving DecidableEq

structure ValidationStatistics where
  validationCount : Nat
  validationCheckpointCount : Nat
  validationChangeCount : Nat
  validationAddedCount : Nat
  validationRemovedCount : Nat
  validationUpdatedCount : Nat
  deriving DecidableEq

namespace PersistentDeltaMap

variable {policy : DeltaMapPolicy key value}

def lookupStoredEntry {payload : Type} (entries : SortedMap (OrderedKey policy) payload)
    (probe : OrderedKey policy) : Option (OrderedKey policy × payload) :=
  match ceilingEntry probe entries with
  | some entry => if compare entry.1 probe = .eq then some entry else none
  | none => none

def storedChange (entry : OrderedKey policy × DeltaRecord value) : PersistentMapChange key value :=
  ⟨entry.1.orderedKeyValue, entry.2.recordBefore, entry.2.recordAfter⟩

def unwrapEntry {payload : Type} (entry : OrderedKey policy × payload) : key × payload :=
  (entry.1.orderedKeyValue, entry.2)

def equivalentEndpoints (policy : DeltaMapPolicy key value) : Option value → Option value → Bool
  | none, none => true
  | some left, some right => policy.policyValuesEqual left right
  | _, _ => false

def successor (deltaMap : PersistentDeltaMap policy)
    (nextCurrent : SortedMap (OrderedKey policy) value)
    (nextChanges : SortedMap (OrderedKey policy) (DeltaRecord value)) :
    PersistentDeltaMap policy where
  deltaCurrent := if null nextChanges then deltaMap.deltaCheckpoint else nextCurrent
  deltaCheckpoint := deltaMap.deltaCheckpoint
  deltaChanges := nextChanges

/-! ## Construction and queries -/

def fromListWith (policy : DeltaMapPolicy key value) (entries : List (key × value)) :
    PersistentDeltaMap policy :=
  let state := entries.foldl (fun stored entry => insert ⟨entry.1⟩ entry.2 stored)
    (empty : SortedMap (OrderedKey policy) value)
  ⟨state, state, .empty⟩

def count (deltaMap : PersistentDeltaMap policy) : Nat := SortedMap.count deltaMap.deltaCurrent

def lookup (probe : key) (deltaMap : PersistentDeltaMap policy) : Option value :=
  SortedMap.lookup ⟨probe⟩ deltaMap.deltaCurrent

def toList (deltaMap : PersistentDeltaMap policy) : List (key × value) :=
  (SortedMap.toList deltaMap.deltaCurrent).map unwrapEntry

def checkpointCount (deltaMap : PersistentDeltaMap policy) : Nat :=
  SortedMap.count deltaMap.deltaCheckpoint

def checkpointLookup (probe : key) (deltaMap : PersistentDeltaMap policy) : Option value :=
  SortedMap.lookup ⟨probe⟩ deltaMap.deltaCheckpoint

def checkpointToList (deltaMap : PersistentDeltaMap policy) : List (key × value) :=
  (SortedMap.toList deltaMap.deltaCheckpoint).map unwrapEntry

def changeCount (deltaMap : PersistentDeltaMap policy) : Nat :=
  SortedMap.count deltaMap.deltaChanges

def changeKind (change : PersistentMapChange key value) : Except String PersistentMapChangeKind :=
  match change.changeBefore, change.changeAfter with
  | some _, some _ => .ok .updated
  | some _, none => .ok .removed
  | none, some _ => .ok .added
  | none, none =>
      .error "Durable7.FingerTree.PersistentDeltaMap: a change is absent at both endpoints"

def lookupChange (probe : key) (deltaMap : PersistentDeltaMap policy) :
    Option (PersistentMapChange key value) :=
  (lookupStoredEntry deltaMap.deltaChanges ⟨probe⟩).map storedChange

def changes (deltaMap : PersistentDeltaMap policy) : List (PersistentMapChange key value) :=
  (SortedMap.toList deltaMap.deltaChanges).map storedChange

def setItem (probe : key) (newValue : value) (deltaMap : PersistentDeltaMap policy) :
    PersistentDeltaMap policy :=
  let currentEntry := lookupStoredEntry deltaMap.deltaCurrent ⟨probe⟩
  let changeEntry := lookupStoredEntry deltaMap.deltaChanges ⟨probe⟩
  let representative : OrderedKey policy :=
    match currentEntry, changeEntry with
    | some (storedKey, _), _ => storedKey
    | none, some (storedKey, _) => storedKey
    | none, none => ⟨probe⟩
  let before :=
    match changeEntry with
    | some (_, record) => record.recordBefore
    | none => currentEntry.map Prod.snd
  let nextCurrent := insert representative newValue deltaMap.deltaCurrent
  let nextChanges :=
    if equivalentEndpoints policy before (some newValue) then
      delete representative deltaMap.deltaChanges
    else insert representative ⟨before, some newValue⟩ deltaMap.deltaChanges
  if currentEntry.any fun entry => policy.policyValuesEqual entry.2 newValue then deltaMap
  else successor deltaMap nextCurrent nextChanges

def setItems (entries : List (key × value)) (deltaMap : PersistentDeltaMap policy) :
    PersistentDeltaMap policy :=
  entries.foldl (fun stored entry => setItem entry.1 entry.2 stored) deltaMap

def remove (probe : key) (deltaMap : PersistentDeltaMap policy) : PersistentDeltaMap policy :=
  match lookupStoredEntry deltaMap.deltaCurrent ⟨probe⟩ with
  | none => deltaMap
  | some (currentKey, currentValue) =>
      let changeEntry := lookupStoredEntry deltaMap.deltaChanges ⟨probe⟩
      let representative :=
        match changeEntry with
        | some (storedKey, _) => storedKey
        | none => currentKey
      let before :=
        match changeEntry with
        | some (_, record) => record.recordBefore
        | none => some currentValue
      let nextCurrent := delete currentKey deltaMap.deltaCurrent
      let nextChanges :=
        if equivalentEndpoints policy before none then delete representative deltaMap.deltaChanges
        else insert representative ⟨before, none⟩ deltaMap.deltaChanges
      successor deltaMap nextCurrent nextChanges

def checkpoint (deltaMap : PersistentDeltaMap policy) : PersistentDeltaMap policy :=
  if null deltaMap.deltaChanges then deltaMap
  else ⟨deltaMap.deltaCurrent, deltaMap.deltaCurrent, .empty⟩

def rollback (deltaMap : PersistentDeltaMap policy) : PersistentDeltaMap policy :=
  if null deltaMap.deltaChanges then deltaMap
  else ⟨deltaMap.deltaCheckpoint, deltaMap.deltaCheckpoint, .empty⟩

/-! ## Validation -/

def checkAscending (message : String) (comparer : key → key → Ordering) :
    List key → Except String Unit
  | left :: right :: rest =>
      if comparer left right ≠ .lt then .error message
      else checkAscending message comparer (right :: rest)
  | _ => .ok ()

def requireThat (message : String) (condition : Bool) : Except String Unit :=
  if condition then .ok () else .error message

def classify (deltaMap : PersistentDeltaMap policy) (counts : Nat × Nat × Nat)
    (entry : OrderedKey policy × DeltaRecord value) : Except String (Nat × Nat × Nat) := do
  let before := entry.2.recordBefore
  let after := entry.2.recordAfter
  requireThat "a recorded change has equivalent endpoints"
    (!equivalentEndpoints policy before after)
  requireThat "a change's before endpoint differs from the checkpoint state"
    (equivalentEndpoints policy before (SortedMap.lookup entry.1 deltaMap.deltaCheckpoint))
  requireThat "a change's after endpoint differs from the current state"
    (equivalentEndpoints policy after (SortedMap.lookup entry.1 deltaMap.deltaCurrent))
  match before, after with
  | none, some _ => .ok (counts.1 + 1, counts.2.1, counts.2.2)
  | some _, none => .ok (counts.1, counts.2.1 + 1, counts.2.2)
  | some _, some _ => .ok (counts.1, counts.2.1, counts.2.2 + 1)
  | none, none => .error "a recorded change is absent at both endpoints"

def checkpointDifferences (deltaMap : PersistentDeltaMap policy) : List (OrderedKey policy) :=
  ((SortedMap.toList deltaMap.deltaCheckpoint).filter fun entry =>
    !equivalentEndpoints policy (some entry.2)
      (SortedMap.lookup entry.1 deltaMap.deltaCurrent)).map Prod.fst

def currentAdditions (deltaMap : PersistentDeltaMap policy) : List (OrderedKey policy) :=
  ((SortedMap.toList deltaMap.deltaCurrent).filter fun entry =>
    !member entry.1 deltaMap.deltaCheckpoint).map Prod.fst

def requireRecords (deltaMap : PersistentDeltaMap policy) (message : String)
    (probes : List (OrderedKey policy)) : Except String Unit :=
  requireThat message (probes.all fun probe => member probe deltaMap.deltaChanges)

def extensionallyClean (deltaMap : PersistentDeltaMap policy) : Bool :=
  SortedMap.count deltaMap.deltaCurrent == SortedMap.count deltaMap.deltaCheckpoint &&
    (checkpointDifferences deltaMap).isEmpty

def validateStructure (deltaMap : PersistentDeltaMap policy) :
    Except String ValidationStatistics := do
  let changeEntries := SortedMap.toList deltaMap.deltaChanges
  checkAscending "the current state is not strictly ascending by key" policy.policyCompareKeys
    ((SortedMap.toList deltaMap.deltaCurrent).map fun entry => entry.1.orderedKeyValue)
  checkAscending "the checkpoint state is not strictly ascending by key" policy.policyCompareKeys
    ((SortedMap.toList deltaMap.deltaCheckpoint).map fun entry => entry.1.orderedKeyValue)
  checkAscending "the change index is not strictly ascending by key" policy.policyCompareKeys
    (changeEntries.map fun entry => entry.1.orderedKeyValue)
  let counts ← changeEntries.foldlM (classify deltaMap) (0, 0, 0)
  requireRecords deltaMap "a checkpoint difference has no recorded change"
    (checkpointDifferences deltaMap)
  requireRecords deltaMap "a current addition has no recorded change" (currentAdditions deltaMap)
  let expected := (checkpointDifferences deltaMap).length + (currentAdditions deltaMap).length
  if expected ≠ SortedMap.count deltaMap.deltaChanges then
    .error "the recorded change cardinality is not exact"
  else if changeEntries.isEmpty && !extensionallyClean deltaMap then
    .error "a version without changes differs from its checkpoint"
  else
    .ok {
      validationCount := SortedMap.count deltaMap.deltaCurrent
      validationCheckpointCount := SortedMap.count deltaMap.deltaCheckpoint
      validationChangeCount := SortedMap.count deltaMap.deltaChanges
      validationAddedCount := counts.1
      validationRemovedCount := counts.2.1
      validationUpdatedCount := counts.2.2 }

end PersistentDeltaMap

end

/-!
## The invariant of delta maps

The change index holds exactly the classes whose two endpoints differ, and a class
has one key in all three maps.
-/

open Foundation

variable {key value : Type}

class LawfulPolicy (policy : DeltaMapPolicy key value) : Prop where
  comparer : Std.TransCmp policy.policyCompareKeys
  refl : ∀ first, policy.policyValuesEqual first first = true
  symm : ∀ first second, policy.policyValuesEqual first second = true →
    policy.policyValuesEqual second first = true
  trans : ∀ first second third, policy.policyValuesEqual first second = true →
    policy.policyValuesEqual second third = true → policy.policyValuesEqual first third = true

variable {policy : DeltaMapPolicy key value}

instance [lawful : LawfulPolicy policy] : Std.TransOrd (OrderedKey policy) where
  eq_swap {_ _} := lawful.comparer.eq_swap
  isLE_trans {_ _ _} hfirst hsecond := lawful.comparer.isLE_trans hfirst hsecond

namespace PersistentDeltaMap

def Equivalent (policy : DeltaMapPolicy key value) (left right : Option value) : Prop :=
  equivalentEndpoints policy left right = true

section Endpoints

variable [lawful : LawfulPolicy policy]

theorem Equivalent.refl (endpoint : Option value) : Equivalent policy endpoint endpoint := by
  cases endpoint with
  | none => rfl
  | some stored => exact lawful.refl stored

theorem Equivalent.symm {left right : Option value} (h : Equivalent policy left right) :
    Equivalent policy right left := by
  cases left <;> cases right
  · rfl
  · cases h
  · cases h
  · exact lawful.symm _ _ h

theorem Equivalent.trans {first second third : Option value}
    (hfirst : Equivalent policy first second) (hsecond : Equivalent policy second third) :
    Equivalent policy first third := by
  cases first with
  | none =>
      cases second with
      | none => exact hsecond
      | some middle => cases hfirst
  | some left =>
      cases second with
      | none => cases hfirst
      | some middle =>
          cases third with
          | none => cases hsecond
          | some right => exact lawful.trans _ _ _ hfirst hsecond

end Endpoints

theorem Equivalent.isSome_eq {left right : Option value} (h : Equivalent policy left right) :
    left.isSome = right.isSome := by
  cases left <;> cases right
  · rfl
  · cases h
  · cases h
  · rfl

section Searches

variable [LawfulPolicy policy] {payload : Type} {entries : SortedMap (OrderedKey policy) payload}

theorem lookupStoredEntry_eq (h : SortedMap.Sorted entries) (probe : OrderedKey policy) :
    lookupStoredEntry entries probe = SortedMap.find probe entries := by
  unfold lookupStoredEntry
  rw [SortedMap.ceilingEntry_eq h]
  cases hfind : SortedMap.find probe entries with
  | some entry =>
      rw [Option.some_or]
      exact if_pos (findKey_mem hfind).2
  | none =>
      rw [Option.none_or]
      cases hhead : (above compare Prod.fst probe (SortedMap.toList entries)).head? with
      | none => rfl
      | some entry =>
          have habove := (mem_above.mp (List.mem_of_head? hhead)).2
          apply if_neg
          rw [habove]
          decide

theorem find_congr {left right : OrderedKey policy} (h : compare left right = .eq) :
    find left entries = find right entries :=
  findKey_congr h

theorem lookup_congr (hsorted : SortedMap.Sorted entries) {left right : OrderedKey policy}
    (h : compare left right = .eq) :
    SortedMap.lookup left entries = SortedMap.lookup right entries := by
  rw [lookup_eq hsorted, lookup_eq hsorted, find_congr h]

omit [LawfulPolicy policy] in
variable {entry : OrderedKey policy × payload}

omit [LawfulPolicy policy] in
theorem find_class {probe : OrderedKey policy}
    (h : find probe entries = some entry) : compare entry.1 probe = .eq :=
  (findKey_mem h).2

theorem find_mem (hsorted : SortedMap.Sorted entries) :
    SortedMap.find entry.1 entries = some entry ↔ entry ∈ SortedMap.toList entries := by
  rw [find, hsorted.findKey_eq_some]
  exact and_iff_left Std.ReflCmp.compare_self

end Searches

/-! ### Writes -/

def write (stored : OrderedKey policy) (after : Option value)
    (entries : SortedMap (OrderedKey policy) value) : SortedMap (OrderedKey policy) value :=
  match after with
  | some newValue => insert stored newValue entries
  | none => delete stored entries

def record (stored : OrderedKey policy) (before after : Option value)
    (entries : SortedMap (OrderedKey policy) (DeltaRecord value)) :
    SortedMap (OrderedKey policy) (DeltaRecord value) :=
  if equivalentEndpoints policy before after then delete stored entries
  else insert stored ⟨before, after⟩ entries

/-- Where a map holds the class of a key it holds it under the given key. -/
def Represents {payload : Type} (stored probe : OrderedKey policy)
    (entries : SortedMap (OrderedKey policy) payload) : Prop :=
  ∀ entry, find probe entries = some entry → entry.1 = stored

section Writes

variable [LawfulPolicy policy] {entries : SortedMap (OrderedKey policy) value}
  {index : SortedMap (OrderedKey policy) (DeltaRecord value)}

section

variable (h : SortedMap.Sorted entries)
include h

section

variable (stored : OrderedKey policy) (after : Option value)

theorem sorted_write : SortedMap.Sorted (write stored after entries) := by
  cases after with
  | none => exact sorted_delete h stored
  | some newValue => exact sorted_insert h stored newValue

theorem find_write (probe : OrderedKey policy) :
    find probe (write stored after entries) =
      if compare stored probe = .eq then after.map (Prod.mk stored)
      else find probe entries := by
  cases after with
  | none => exact find_delete h stored probe
  | some newValue => exact find_insert h stored newValue probe

theorem lookup_write (probe : OrderedKey policy) :
    SortedMap.lookup probe (write stored after entries) =
      if compare stored probe = .eq then after else SortedMap.lookup probe entries := by
  rw [lookup_eq (sorted_write h stored after), lookup_eq h, find_write h]
  split
  · cases after <;> rfl
  · rfl

end

end

section

variable (h : SortedMap.Sorted index) (stored : OrderedKey policy) (before after : Option value)
include h

theorem sorted_record : SortedMap.Sorted (record stored before after index) := by
  unfold record
  split
  · exact sorted_delete h stored
  · exact sorted_insert h stored _

theorem find_record (probe : OrderedKey policy) :
    find probe (record stored before after index) =
      if compare stored probe = .eq then
        if equivalentEndpoints policy before after then none else some (stored, ⟨before, after⟩)
      else find probe index := by
  unfold record
  split
  · exact find_delete h stored probe
  · exact find_insert h stored _ probe

end

end Writes

structure Tracks (current checkpoint : SortedMap (OrderedKey policy) value)
    (index : SortedMap (OrderedKey policy) (DeltaRecord value)) : Prop where
  currentSorted : SortedMap.Sorted current
  checkpointSorted : SortedMap.Sorted checkpoint
  indexSorted : SortedMap.Sorted index
  unchanged : ∀ probe, find probe index = none →
    Equivalent policy (SortedMap.lookup probe checkpoint) (SortedMap.lookup probe current)
  recorded : ∀ probe entry, find probe index = some entry →
    Equivalent policy entry.2.recordBefore (SortedMap.lookup probe checkpoint) ∧
      entry.2.recordAfter = SortedMap.lookup probe current ∧
      ¬ Equivalent policy entry.2.recordBefore entry.2.recordAfter
  oneKey : ∀ probe, ∃ stored, compare stored probe = .eq ∧ Represents stored probe current ∧
    Represents stored probe checkpoint ∧ Represents stored probe index

section Tracks

variable [LawfulPolicy policy] {current checkpoint : SortedMap (OrderedKey policy) value}
  {index : SortedMap (OrderedKey policy) (DeltaRecord value)}

theorem represents_congr {payload : Type} {entries : SortedMap (OrderedKey policy) payload}
    {stored left right : OrderedKey policy} (h : compare left right = .eq)
    (hleft : Represents stored left entries) : Represents stored right entries := by
  intro entry hentry
  rw [← find_congr h] at hentry
  exact hleft entry hentry

theorem represents_self {payload : Type} {entries : SortedMap (OrderedKey policy) payload}
    (probe : OrderedKey policy) :
    ∃ stored, compare stored probe = .eq ∧ Represents stored probe entries := by
  cases hfind : find probe entries with
  | none =>
      refine ⟨probe, Std.ReflCmp.compare_self, ?_⟩
      intro entry hentry
      rw [hfind] at hentry
      cases hentry
  | some found =>
      refine ⟨found.1, find_class hfind, ?_⟩
      intro entry hentry
      rw [hfind, Option.some_inj] at hentry
      rw [hentry]

omit [LawfulPolicy policy] in
theorem represents_empty {payload : Type} (stored probe : OrderedKey policy) :
    Represents stored probe (empty : SortedMap (OrderedKey policy) payload) := by
  intro entry hentry
  rw [find_empty] at hentry
  cases hentry

theorem Tracks.clean (h : SortedMap.Sorted current) : Tracks current current .empty where
  currentSorted := h
  checkpointSorted := h
  indexSorted := SortedMap.sorted_empty
  unchanged _ _ := Equivalent.refl _
  recorded probe entry hentry := by
    rw [SortedMap.find_empty] at hentry
    cases hentry
  oneKey probe := by
    obtain ⟨stored, hclass, hstored⟩ := @represents_self _ _ policy _ _ current probe
    exact ⟨stored, hclass, hstored, hstored, represents_empty stored probe⟩

theorem Tracks.edit (h : Tracks current checkpoint index) {stored : OrderedKey policy}
    {before : Option value} (after : Option value)
    (hcheckpoint : Represents stored stored checkpoint)
    (hbefore : Equivalent policy before (SortedMap.lookup stored checkpoint)) :
    Tracks (write stored after current) checkpoint (record stored before after index) where
  currentSorted := sorted_write h.currentSorted stored after
  checkpointSorted := h.checkpointSorted
  indexSorted := sorted_record h.indexSorted stored before after
  unchanged probe hnone := by
    rw [find_record h.indexSorted] at hnone
    rw [lookup_write h.currentSorted]
    split at hnone
    · next hclass =>
      rw [if_pos hclass, ← lookup_congr h.checkpointSorted hclass]
      split at hnone
      · next hequivalent => exact hbefore.symm.trans hequivalent
      · cases hnone
    · next hclass =>
      rw [if_neg hclass]
      exact h.unchanged probe hnone
  recorded probe entry hentry := by
    rw [find_record h.indexSorted] at hentry
    rw [lookup_write h.currentSorted]
    split at hentry
    · next hclass =>
      rw [if_pos hclass, ← lookup_congr h.checkpointSorted hclass]
      split at hentry
      · cases hentry
      · next hdiffers =>
        cases hentry
        exact ⟨hbefore, rfl, hdiffers⟩
    · next hclass =>
      rw [if_neg hclass]
      exact h.recorded probe entry hentry
  oneKey probe := by
    by_cases hclass : compare stored probe = .eq
    · refine ⟨stored, hclass, ?_, represents_congr hclass hcheckpoint, ?_⟩
      · intro entry hentry
        rw [find_write h.currentSorted, if_pos hclass] at hentry
        cases after with
        | none => cases hentry
        | some newValue =>
            cases hentry
            rfl
      · intro entry hentry
        rw [find_record h.indexSorted, if_pos hclass] at hentry
        split at hentry
        · cases hentry
        · cases hentry
          rfl
    · obtain ⟨kept, hkept, hrepresents, hbaseline, hindexed⟩ := h.oneKey probe
      refine ⟨kept, hkept, ?_, hbaseline, ?_⟩
      · intro entry hentry
        rw [find_write h.currentSorted, if_neg hclass] at hentry
        exact hrepresents entry hentry
      · intro entry hentry
        rw [find_record h.indexSorted, if_neg hclass] at hentry
        exact hindexed entry hentry

end Tracks

end PersistentDeltaMap

end Durable7.FingerTree
