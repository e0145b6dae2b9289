import Durable7.Hamt.HashMultimap

/-!
# Operations on indexed maps

A row keeps a value beside the index key that the secondary index retains for it.  An exception of
the source is an error here.
-/

namespace Durable7.Hamt

structure PersistentIndexedMap.IndexedEntry (v i : Type) where
  valueOf : v
  indexOf : i

structure PersistentIndexedMap (k v i : Type) where
  primary : HashMap k (PersistentIndexedMap.IndexedEntry v i)
  secondary : HashMultimap i k
  selector : k → v → i
  equalValues : v → v → Bool

namespace PersistentIndexedMap

variable {k v i : Type}

def emptyWith (selector : k → v → i) (keys : HashPolicy k) (equalValues : v → v → Bool)
    (indexes : HashPolicy i) : PersistentIndexedMap k v i :=
  ⟨HashMap.emptyWith keys, HashMultimap.emptyWith indexes keys, selector, equalValues⟩

def indexPolicy (values : PersistentIndexedMap k v i) : HashPolicy i := values.secondary.keyPolicy

def lookup (key : k) (values : PersistentIndexedMap k v i) : Option v :=
  (HashMap.lookup key values.primary).map IndexedEntry.valueOf

def actualKey (key : k) (values : PersistentIndexedMap k v i) : Option k :=
  HashMap.actualKey key values.primary

def lookupIndexKey (key : k) (values : PersistentIndexedMap k v i) : Option i :=
  (HashMap.lookup key values.primary).map IndexedEntry.indexOf

def lookupKeysByIndex (indexKey : i) (values : PersistentIndexedMap k v i) : Option (HashSet k) :=
  HashMultimap.lookupValues indexKey values.secondary

def requiredKey {w : Type} (key : k) (primary : HashMap k w) : Except String k :=
  match HashMap.actualKey key primary with
  | some actual => .ok actual
  | none => .error "PersistentIndexedMap failed to retain a primary key"

def requiredIndex (indexKey : i) (secondary : HashMultimap i k) : Except String i :=
  match HashMultimap.actualKey indexKey secondary with
  | some actual => .ok actual
  | none => .error "PersistentIndexedMap failed to retain an index key"

def insert (key : k) (value : v) (values : PersistentIndexedMap k v i) :
    Except String (Option (PersistentIndexedMap k v i)) :=
  if HashMap.member key values.primary then .ok none
  else do
    let selectedIndex := values.selector key value
    let nextSecondary ← HashMultimap.insert selectedIndex key values.secondary
    let actualIndex ← requiredIndex selectedIndex nextSecondary
    let nextPrimary := HashMap.insert key ⟨value, actualIndex⟩ values.primary
    .ok (some ⟨nextPrimary, nextSecondary, values.selector, values.equalValues⟩)

def set (key : k) (value : v) (values : PersistentIndexedMap k v i) :
    Except String (PersistentIndexedMap k v i) :=
  match HashMap.lookup key values.primary with
  | none => do
      let result ← insert key value values
      .ok (result.getD values)
  | some current =>
      if values.equalValues current.valueOf value then .ok values
      else do
        let storedKey ← requiredKey key values.primary
        let selectedIndex := values.selector storedKey value
        if values.indexPolicy.equalKeys current.indexOf selectedIndex then
          .ok ⟨HashMap.insert storedKey ⟨value, current.indexOf⟩ values.primary,
            values.secondary, values.selector, values.equalValues⟩
        else do
          let withoutOld := HashMultimap.delete current.indexOf storedKey values.secondary
          let nextSecondary ← HashMultimap.insert selectedIndex storedKey withoutOld
          let actualIndex ← requiredIndex selectedIndex nextSecondary
          .ok ⟨HashMap.insert storedKey ⟨value, actualIndex⟩ values.primary, nextSecondary,
            values.selector, values.equalValues⟩

def delete (key : k) (values : PersistentIndexedMap k v i) :
    Except String (PersistentIndexedMap k v i) :=
  match HashMap.lookup key values.primary with
  | none => .ok values
  | some current => do
      let storedKey ← requiredKey key values.primary
      .ok ⟨HashMap.delete storedKey values.primary,
        HashMultimap.delete current.indexOf storedKey values.secondary, values.selector,
        values.equalValues⟩

def clear (values : PersistentIndexedMap k v i) : PersistentIndexedMap k v i :=
  if values.primary.size = 0 then values
  else ⟨HashMap.emptyWith values.primary.policy, HashMultimap.clear values.secondary,
    values.selector, values.equalValues⟩

def primaryHasIndex (values : PersistentIndexedMap k v i) (entry : k × IndexedEntry v i) : Bool :=
  HashMultimap.member entry.2.indexOf entry.1 values.secondary

def indexHasPrimary (values : PersistentIndexedMap k v i) (pair : i × k) : Bool :=
  match HashMap.lookup pair.2 values.primary with
  | some entry => values.indexPolicy.equalKeys entry.indexOf pair.1
  | none => false

def validStructure (values : PersistentIndexedMap k v i) : Bool :=
  HashMap.validStructure values.primary && HashMultimap.validStructure values.secondary &&
    (values.primary.size : Int) == values.secondary.size &&
    (HashMap.toList values.primary).all values.primaryHasIndex &&
    (HashMultimap.toList values.secondary).all values.indexHasPrimary

end PersistentIndexedMap

end Durable7.Hamt

/-!
## Indexed maps as rows

A row of the model is a stored key, a value and the value its index was chosen for.  The secondary
index has exactly the stored keys under the classes of their index keys.
-/

namespace Durable7.Hamt.PersistentIndexedMap

open Foundation List HashMultimap
open HashMap (Becomes entryOf)

variable {k v i : Type}

structure Row (k v : Type) where
  key : k
  value : v
  chosen : v

/-- A stored entry against a row of the model. -/
inductive Matches (indexes : HashPolicy i) (selector : k → v → i) (secondary : HashMultimap i k) :
    Option (k × IndexedEntry v i) → Option (Row k v) → Prop where
  | absent : Matches indexes selector secondary none none
  | present {key : k} {value chosen : v} {index : i}
      (hchosen : indexes.equalKeys index (selector key chosen) = true)
      (hkept : HashMultimap.actualKey index secondary = some index) :
      Matches indexes selector secondary (some (key, ⟨value, index⟩)) (some ⟨key, value, chosen⟩)

/-- The stored key of an entry that has an index of the given class. -/
def indexedKey (indexes : HashPolicy i) (index : i) (entry : Option (k × IndexedEntry v i)) :
    Option k :=
  entry.bind fun stored => if indexes.equalKeys index stored.2.indexOf then some stored.1 else none

/-- Both structures of the map show the same rows. -/
structure Consistent (keys : HashPolicy k) (indexes : HashPolicy i)
    (primary : HashMap k (IndexedEntry v i)) (secondary : HashMultimap i k) : Prop where
  rows : primary.WellFormed
  groups : secondary.Valid
  keys_eq : primary.policy = keys ∧ secondary.valuePolicy = keys
  indexes_eq : secondary.keyPolicy = indexes
  elementAt_eq : ∀ index key,
    elementAt secondary index key = indexedKey indexes index (entryOf primary key)
  count_eq : secondary.pairCount = (primary.size : Int)
  count_le : secondary.pairCount ≤ maxBound

structure Holds (keys : HashPolicy k) (indexes : HashPolicy i) (selector : k → v → i)
    (equalValues : v → v → Bool) (rows : k → Option (Row k v))
    (values : PersistentIndexedMap k v i) : Prop where
  consistent : Consistent keys indexes values.primary values.secondary
  selector_eq : values.selector = selector
  equalValues_eq : values.equalValues = equalValues
  row : ∀ key, Matches indexes selector values.secondary (entryOf values.primary key) (rows key)

theorem emptyWith_holds {keys : HashPolicy k} {indexes : HashPolicy i} (hkeys : keys.Lawful)
    (hindexes : indexes.Lawful) (selector : k → v → i) (equalValues : v → v → Bool) :
    Holds keys indexes selector equalValues (fun _ => none)
      (emptyWith selector keys equalValues indexes) := by
  have hsecondary := HashMultimap.emptyWith_valid hindexes hkeys
  have hroom : (0 : Int) ≤ HashMultimap.maxBound := by decide
  refine ⟨⟨HashMap.emptyWith_wellFormed hkeys, hsecondary, ⟨rfl, rfl⟩, rfl, ?_, rfl, hroom⟩,
    rfl, rfl, fun _ => .absent⟩
  intro index key
  exact HashSet.emptyWith_actualValue hkeys key

section Structures

variable {keys : HashPolicy k} {indexes : HashPolicy i}
  {primary : HashMap k (IndexedEntry v i)} {secondary : HashMultimap i k}
  (h : Consistent keys indexes primary secondary)

include h

theorem Consistent.keyEquivalence :
    Equivalence fun left right => keys.equalKeys left right = true :=
  h.keys_eq.1 ▸ h.rows.lawful.equivalence

theorem Consistent.indexEquivalence :
    Equivalence fun left right => indexes.equalKeys left right = true :=
  h.indexes_eq ▸ h.groups.keyEquivalence

theorem Consistent.entry_congr {key other : k} (hsame : keys.equalKeys key other = true) :
    entryOf primary key = entryOf primary other :=
  h.rows.entryOf_congr (h.keys_eq.1 ▸ hsame)

section

variable {key : k} {entry : k × IndexedEntry v i} (hentry : entryOf primary key = some entry)
include hentry

theorem Consistent.entry_same : keys.equalKeys key entry.1 = true :=
  h.keys_eq.1 ▸ (mem_of_entryAt hentry).2

theorem Consistent.member_own : member entry.2.indexOf entry.1 secondary = true := by
  rw [h.groups.member_eq, h.elementAt_eq, ← h.entry_congr (h.entry_same hentry), hentry,
    indexedKey, Option.bind_some, if_pos (same_refl h.indexEquivalence _)]
  rfl

end

theorem Consistent.index_keys (index : i) :
    (lookupValues index secondary = none ∧
      ∀ key, indexedKey indexes index (entryOf primary key) = none) ∨
    ∃ group, lookupValues index secondary = some group ∧
      (∀ key, key ∈ HashSet.toList group ↔
        indexedKey indexes index (entryOf primary key) = some key) ∧
      ∃ key, (indexedKey indexes index (entryOf primary key)).isSome = true := by
  rcases h.groups.lookupValues_cases index with ⟨hresult, -, hnone⟩ |
    ⟨rep, group, hresult, -, -, hgroup, -, helements, hsome⟩
  · refine .inl ⟨hresult, fun key => ?_⟩
    rw [← h.elementAt_eq, hnone]
  · refine .inr ⟨group, hresult, fun key => ?_, ?_⟩
    · rw [hgroup.mem_toList, helements, h.elementAt_eq]
    · obtain ⟨key, hkey⟩ := hsome
      exact ⟨key, h.elementAt_eq index key ▸ hkey⟩

end Structures

theorem Consistent.validStructure_eq {keys : HashPolicy k} {indexes : HashPolicy i}
    {values : PersistentIndexedMap k v i}
    (h : Consistent keys indexes values.primary values.secondary) :
    validStructure values = true := by
  have hprimary : (HashMap.toList values.primary).all values.primaryHasIndex = true := by
    rw [all_eq_true]
    intro entry hentry
    exact h.member_own (h.rows.mem_iff.mp hentry)
  have hsecondary : (HashMultimap.toList values.secondary).all values.indexHasPrimary = true := by
    rw [all_eq_true]
    intro pair hpair
    have hmem := (h.groups.mem_toList.mp hpair).2
    rw [h.elementAt_eq] at hmem
    obtain ⟨entry, hentry, hindexed⟩ := Option.bind_eq_some_iff.mp hmem
    split at hindexed
    · rename_i hsame
      rw [indexHasPrimary, h.rows.lookup_eq, hentry, indexPolicy, h.indexes_eq]
      exact h.indexEquivalence.symm hsame
    · cases hindexed
  have hcount : ((values.primary.size : Int) == values.secondary.size) = true :=
    beq_iff_eq.mpr h.count_eq.symm
  rw [validStructure, h.rows.validStructure_eq, h.groups.validStructure_eq, hcount, hprimary,
    hsecondary]
  rfl

section Halves

variable {keys : HashPolicy k} {indexes : HashPolicy i}
  {primary : HashMap k (IndexedEntry v i)} {secondary : HashMultimap i k}
  (h : Consistent keys indexes primary secondary)

include h

/-- A row without its index key: the secondary index may still hold every other row. -/
structure Detached (keys : HashPolicy k) (indexes : HashPolicy i)
    (primary : HashMap k (IndexedEntry v i)) (secondary after : HashMultimap i k) (key : k) :
    Prop where
  valid : after.Valid
  keys_eq : after.valuePolicy = keys
  indexes_eq : after.keyPolicy = indexes
  elementAt_eq : ∀ index other, elementAt after index other =
    if keys.equalKeys other key = true then none
    else indexedKey indexes index (entryOf primary other)
  kept : ∀ other index, keys.equalKeys other key = false →
    (indexedKey indexes index (entryOf primary other)).isSome = true →
    HashMultimap.actualKey index after = HashMultimap.actualKey index secondary

theorem Consistent.detached_absent {key : k} (habsent : entryOf primary key = none) :
    Detached keys indexes primary secondary secondary key := by
  refine ⟨h.groups, h.keys_eq.2, h.indexes_eq, ?_, fun _ _ _ _ => rfl⟩
  intro index other
  rw [h.elementAt_eq]
  split
  · rename_i hsame
    rw [h.entry_congr hsame, habsent]
    rfl
  · rfl

theorem Consistent.detached {key : k} {entry : k × IndexedEntry v i}
    (hentry : entryOf primary key = some entry) :
    Detached keys indexes primary secondary
        (HashMultimap.delete entry.2.indexOf entry.1 secondary) key ∧
      (HashMultimap.delete entry.2.indexOf entry.1 secondary).pairCount =
        secondary.pairCount - 1 := by
  have hsame := h.entry_same hentry
  have hown := h.entry_congr hsame
  rcases h.groups.delete_cases entry.2.indexOf entry.1 with ⟨habsent, -⟩ | ⟨-, hafter, hkeys⟩
  · exact absurd (h.member_own hentry) habsent
  have helements : ∀ index other, HashMultimap.elementAt
      (HashMultimap.delete entry.2.indexOf entry.1 secondary) index other =
      if keys.equalKeys other key = true then none
      else indexedKey indexes index (entryOf primary other) := by
    intro index other
    rw [hafter.elementAt_eq, h.keys_eq.2, h.indexes_eq, h.elementAt_eq]
    have hother : keys.equalKeys other entry.1 = keys.equalKeys other key := by
      rw [same_comm h.keyEquivalence, ← same_congr h.keyEquivalence hsame,
        same_comm h.keyEquivalence]
    rw [hother]
    by_cases hkey : keys.equalKeys other key = true
    · rw [if_pos hkey]
      split
      · rfl
      · rename_i hindex
        have hne : ¬indexes.equalKeys index entry.2.indexOf = true := fun heq => hindex ⟨heq, hkey⟩
        rw [h.entry_congr hkey, hentry, indexedKey, Option.bind_some, if_neg hne]
    · rw [if_neg hkey, if_neg (fun hboth => hkey hboth.2)]
  refine ⟨⟨hafter.valid, hafter.valuePolicy_eq.trans h.keys_eq.2,
    hafter.keyPolicy_eq.trans h.indexes_eq, helements, ?_⟩, ?_⟩
  · intro other index hother hstored
    apply hkeys index other
    rw [helements, if_neg (by rw [hother]; exact Bool.false_ne_true)]
    exact hstored
  · have hcount := hafter.pairCount_eq
    have hstored := h.member_own hentry
    rw [h.groups.member_eq] at hstored
    obtain ⟨element, helement⟩ := Option.isSome_iff_exists.mp hstored
    rw [helement] at hcount
    simp only [Option.toList_some, Option.toList_none, length_singleton, length_nil] at hcount
    omega

end Halves

section Attaching

variable {keys : HashPolicy k} {indexes : HashPolicy i}
  {primary : HashMap k (IndexedEntry v i)} {secondary detached : HashMultimap i k} {key : k}
  (h : Consistent keys indexes primary secondary)
  (hdetached : Detached keys indexes primary secondary detached key)

include h hdetached

theorem Detached.absent (index : i) {storedKey : k} (hsame : keys.equalKeys key storedKey = true) :
    ¬HashMultimap.member index storedKey detached = true := by
  have hstored := h.keyEquivalence.symm hsame
  rw [hdetached.valid.member_eq, hdetached.elementAt_eq, if_pos hstored]
  exact Bool.false_ne_true

/-- The row of the key is written with the representative that the secondary index retains. -/
theorem Detached.attached {storedKey : k} {value : v} (selected : i)
    (hsame : keys.equalKeys key storedKey = true)
    (hroom : detached.pairCount ≠ HashMultimap.maxBound)
    {nextPrimary : i → HashMap k (IndexedEntry v i)}
    (hprimary : ∀ index, Becomes primary (nextPrimary index) key (some (storedKey, ⟨value, index⟩)))
    (hcount : ∀ index, detached.pairCount + 1 = ((nextPrimary index).size : Int))
    (hle : detached.pairCount + 1 ≤ HashMultimap.maxBound) :
    ∃ nextSecondary index, HashMultimap.insert selected storedKey detached = .ok nextSecondary ∧
      requiredIndex selected nextSecondary = .ok index ∧
      indexes.equalKeys index selected = true ∧
      HashMultimap.actualKey index nextSecondary = some index ∧
      Consistent keys indexes (nextPrimary index) nextSecondary ∧
      ∀ other otherIndex, keys.equalKeys other key = false →
        (indexedKey indexes otherIndex (entryOf primary other)).isSome = true →
        HashMultimap.actualKey otherIndex secondary = some otherIndex →
        HashMultimap.actualKey otherIndex nextSecondary = some otherIndex := by
  have hkeys := h.keyEquivalence
  have hindexes := h.indexEquivalence
  have hkeysEq := hdetached.keys_eq
  have hindexesEq := hdetached.indexes_eq
  have habsent := hdetached.absent h selected hsame
  have hinsert := hdetached.valid.insert_cases selected storedKey
  cases hresult : HashMultimap.insert selected storedKey detached with
  | error text =>
      rw [hresult] at hinsert
      cases hinsert with
      | overflow _ hfull => exact absurd hfull hroom
  | ok nextSecondary =>
      rw [hresult] at hinsert
      cases hinsert with
      | present hmember => exact absurd hmember habsent
      | inserted _ _ hafter hactual =>
          rw [hindexesEq] at hactual
          obtain ⟨index, hindex, hclass⟩ : ∃ index,
              (HashMultimap.actualKey selected detached).getD selected = index ∧
                indexes.equalKeys index selected = true := by
            refine ⟨_, rfl, ?_⟩
            rcases hdetached.valid.lookupValues_cases selected with ⟨-, hnone, -⟩ |
              ⟨rep, -, -, hsome, hrep, -⟩
            · rw [hnone]
              exact same_refl hindexes selected
            · rw [hsome]
              exact hindexes.symm (hindexesEq ▸ hrep)
          have hkept := hactual index
          rw [if_pos hclass, hindex] at hkept
          have hown := hactual selected
          rw [if_pos (same_refl hindexes selected), hindex] at hown
          have hrequired : requiredIndex selected nextSecondary = .ok index := by
            rw [requiredIndex, hown]
          have hpairs := hafter.pairCount_eq
          rw [hdetached.valid.absent habsent] at hpairs
          have hcounted : nextSecondary.pairCount = detached.pairCount + 1 := by simpa using hpairs
          refine ⟨nextSecondary, index, rfl, hrequired, hclass, hkept,
            ⟨(hprimary index).wellFormed, hafter.valid,
              ⟨(hprimary index).policy_eq.trans h.keys_eq.1,
              hafter.valuePolicy_eq.trans hkeysEq⟩, hafter.keyPolicy_eq.trans hindexesEq, ?_,
              hcounted.trans (hcount index), hcounted ▸ hle⟩, ?_⟩
          · intro otherIndex other
            rw [hafter.elementAt_eq, hindexesEq, hkeysEq, hdetached.elementAt_eq,
              (hprimary index).entryOf_eq, h.keys_eq.1, same_comm hkeys other storedKey,
              ← same_congr hkeys hsame, same_comm hkeys key other]
            by_cases hother : keys.equalKeys other key = true
            · rw [if_pos hother, if_pos hother, indexedKey, Option.bind_some,
                same_comm hindexes otherIndex index, same_congr hindexes hclass,
                same_comm hindexes selected otherIndex]
              simp only [hother, and_true]
            · rw [if_neg (fun hboth => hother hboth.2), if_neg hother, if_neg hother]
          · intro other otherIndex hother hstored hsecondary
            have hbefore := (hdetached.kept other otherIndex hother hstored).trans hsecondary
            rw [hactual otherIndex]
            split
            · rename_i hselected
              rw [← hindexesEq] at hselected
              rw [← hdetached.valid.actualKey_congr hselected, hbefore]
              rfl
            · exact hbefore

end Attaching

end Durable7.Hamt.PersistentIndexedMap
