import Durable7.Hamt.PersistentIndexedMap.Operations
import Durable7.Hamt.HashMap.Equality

/-!
# Edits of rows

An insertion and a move write a row under the representative that the secondary index retains.
No edit of a row that is there can run out of places.
-/

namespace Durable7.Hamt.PersistentIndexedMap

open Foundation HashMap

variable {k v i : Type}

section

open List
open HashMap (Becomes entryOf)

def writeRow (keys : HashPolicy k) (rows : k → Option (Row k v)) (key : k)
    (row : Option (Row k v)) : k → Option (Row k v) :=
  fun other => if keys.equalKeys other key = true then row else rows other

/-- A row is kept, gets its value, or gets its value and another index class. -/
def changedRow (indexes : HashPolicy i) (selector : k → v → i) (equalValues : v → v → Bool)
    (row : Row k v) (value : v) : Row k v :=
  if equalValues row.value value then row
  else if indexes.equalKeys (selector row.key row.chosen) (selector row.key value) then
    ⟨row.key, value, row.chosen⟩
  else ⟨row.key, value, value⟩

theorem Matches.kept {indexes : HashPolicy i} {selector : k → v → i}
    {secondary after : HashMultimap i k} {entry : Option (k × IndexedEntry v i)}
    {row : Option (Row k v)} (h : Matches indexes selector secondary entry row)
    (hindexes : Equivalence fun left right => indexes.equalKeys left right = true)
    (hkept : ∀ index, (indexedKey indexes index entry).isSome = true →
      HashMultimap.actualKey index after = HashMultimap.actualKey index secondary) :
    Matches indexes selector after entry row := by
  cases h with
  | absent => exact .absent
  | present hchosen hindex =>
      refine .present hchosen ((hkept _ ?_).trans hindex)
      rw [indexedKey, Option.bind_some, if_pos (same_refl hindexes _)]
      rfl

section Writing

variable {keys : HashPolicy k} {indexes : HashPolicy i} {selector : k → v → i}
  {equalValues : v → v → Bool} {rows : k → Option (Row k v)} {values : PersistentIndexedMap k v i}
  (h : Holds keys indexes selector equalValues rows values)

include h

theorem Holds.lookup_eq (key : k) :
    HashMap.lookup key values.primary = (entryOf values.primary key).map Prod.snd :=
  h.consistent.rows.lookup_eq key

theorem Holds.becomes_row {key storedKey : k} (entry : IndexedEntry v i)
    (hsame : keys.equalKeys key storedKey = true)
    (hstored : ∀ stored, entryOf values.primary key = some stored → stored.1 = storedKey) :
    Becomes values.primary (HashMap.insert storedKey entry values.primary) key
      (some (storedKey, entry)) := by
  have hrows := h.consistent.rows
  have hpolicy := h.consistent.keys_eq.1
  have hbecomes := HashMap.insert_becomes hrows storedKey entry
  rw [← h.consistent.entry_congr hsame] at hbecomes
  have hclass := hbecomes.congr hrows (hpolicy ▸ h.consistent.keyEquivalence.symm hsame)
  cases hentry : entryOf values.primary key with
  | none => rwa [hentry] at hclass
  | some stored =>
      rw [hentry, putSlot, Option.elim_some, hstored stored hentry] at hclass
      exact hclass

theorem Holds.attached {key storedKey : k} (value : v) {detached : HashMultimap i k}
    (hdetached : Detached keys indexes values.primary values.secondary detached key)
    (hsame : keys.equalKeys key storedKey = true)
    (hstored : ∀ stored, entryOf values.primary key = some stored → stored.1 = storedKey)
    (hcount : detached.pairCount + ((entryOf values.primary key).toList.length : Int) =
      values.secondary.pairCount)
    (hroom : detached.pairCount ≠ HashMultimap.maxBound) :
    ∃ nextSecondary index,
      HashMultimap.insert (values.selector storedKey value) storedKey detached = .ok nextSecondary ∧
        requiredIndex (values.selector storedKey value) nextSecondary = .ok index ∧
        Holds keys indexes selector equalValues
          (writeRow keys rows key (some ⟨storedKey, value, value⟩))
          ⟨HashMap.insert storedKey ⟨value, index⟩ values.primary, nextSecondary, values.selector,
            values.equalValues⟩ := by
  have hprimary : ∀ index, Becomes values.primary
      (HashMap.insert storedKey ⟨value, index⟩ values.primary) key
      (some (storedKey, ⟨value, index⟩)) :=
    fun index => h.becomes_row ⟨value, index⟩ hsame hstored
  have hsize : ∀ index, detached.pairCount + 1 =
      ((HashMap.insert storedKey (⟨value, index⟩ : IndexedEntry v i) values.primary).size :
        Int) := by
    intro index
    have hnext := (hprimary index).size_eq h.consistent.rows
    have htotal := h.consistent.count_eq
    cases hentry : entryOf values.primary key <;>
      simp only [hentry, weightOf_none, weightOf_some, Option.toList_none,
        Option.toList_some, length_nil, length_singleton] at hnext hcount <;> omega
  have hle : detached.pairCount + 1 ≤ HashMultimap.maxBound := by
    have hbound := h.consistent.count_le
    omega
  obtain ⟨nextSecondary, index, hinsert, hrequired, hclass, hkept, hconsistent, hothers⟩ :=
    hdetached.attached h.consistent (values.selector storedKey value) hsame hroom hprimary hsize hle
  refine ⟨nextSecondary, index, hinsert, hrequired, hconsistent, h.selector_eq, h.equalValues_eq,
    ?_⟩
  intro other
  have hentry := (hprimary index).entryOf_eq other
  rw [h.consistent.keys_eq.1] at hentry
  rw [hentry, writeRow]
  split
  · exact .present (h.selector_eq ▸ hclass) hkept
  · rename_i hother
    rw [Bool.not_eq_true] at hother
    have hrow := h.row other
    revert hrow
    have hretained := hothers other
    generalize rows other = row
    cases hold : entryOf values.primary other with
    | none =>
        intro hrow
        cases hrow
        exact .absent
    | some stored =>
        intro hrow
        cases hrow with
        | present hchosen hindex =>
            refine .present hchosen (hretained _ hother ?_ hindex)
            rw [hold, indexedKey, Option.bind_some,
              if_pos (same_refl h.consistent.indexEquivalence _)]
            rfl

variable {key : k}

theorem Holds.requiredKey_eq {entry : k × IndexedEntry v i}
    (hentry : entryOf values.primary key = some entry) :
    requiredKey key values.primary = .ok entry.1 := by
  rw [requiredKey, h.consistent.rows.actualKey_eq, hentry]
  rfl

/-! ## Operations -/

theorem insert_present (value : v) (hpresent : (rows key).isSome = true) :
    insert key value values = .ok none := by
  have hrow := h.row key
  have hmember : member key values.primary = true := by
    rw [h.consistent.rows.member_eq]
    revert hrow hpresent
    generalize entryOf values.primary key = entry
    generalize rows key = row
    intro hpresent hrow
    cases hrow with
    | absent => cases hpresent
    | present => rfl
  exact if_pos hmember

theorem Holds.entry_absent (habsent : rows key = none) : entryOf values.primary key = none := by
  have hrow := h.row key
  revert hrow
  rw [habsent]
  generalize entryOf values.primary key = entry
  intro hrow
  cases hrow
  rfl

theorem Holds.entry_present {row : Row k v} (hpresent : rows key = some row) :
    ∃ index, entryOf values.primary key = some (row.key, ⟨row.value, index⟩) ∧
      indexes.equalKeys index (selector row.key row.chosen) = true ∧
      HashMultimap.actualKey index values.secondary = some index := by
  have hrow := h.row key
  revert hrow
  rw [hpresent]
  generalize entryOf values.primary key = entry
  intro hrow
  cases hrow with
  | present hchosen hkept => exact ⟨_, rfl, hchosen, hkept⟩

theorem insert_absent (value : v) (habsent : rows key = none) :
    (values.secondary.pairCount = HashMultimap.maxBound ∧
      insert key value values = .error "HashMultimap pair count overflow") ∨
    ∃ after, insert key value values = .ok (some after) ∧
      Holds keys indexes selector equalValues
        (writeRow keys rows key (some ⟨key, value, value⟩)) after := by
  have hentry := h.entry_absent habsent
  have hmember : ¬HashMap.member key values.primary = true := by
    rw [h.consistent.rows.member_eq, hentry]
    exact Bool.false_ne_true
  have hdetached := h.consistent.detached_absent hentry
  rw [insert, if_neg hmember]
  by_cases hfull : values.secondary.pairCount = HashMultimap.maxBound
  · left
    refine ⟨hfull, ?_⟩
    have hnew := hdetached.absent h.consistent (values.selector key value)
      (same_refl h.consistent.keyEquivalence key)
    simp only [h.consistent.groups.insert_full hnew hfull, except_error_bind]
  · right
    have hcount : values.secondary.pairCount +
        ((entryOf values.primary key).toList.length : Int) = values.secondary.pairCount := by
      rw [hentry]
      exact Int.add_zero _
    obtain ⟨nextSecondary, index, hinsert, hrequired, hafter⟩ :=
      h.attached value hdetached (same_refl h.consistent.keyEquivalence key)
        (fun stored hstored => by rw [hentry] at hstored; cases hstored) hcount hfull
    refine ⟨_, ?_, hafter⟩
    simp only [hinsert, hrequired, except_ok_bind]

theorem Holds.revalued {row : Row k v} {index : i} (value : v)
    (hentry : entryOf values.primary key = some (row.key, ⟨row.value, index⟩))
    (hchosen : indexes.equalKeys index (selector row.key row.chosen) = true)
    (hkept : HashMultimap.actualKey index values.secondary = some index) :
    Holds keys indexes selector equalValues
      (writeRow keys rows key (some ⟨row.key, value, row.chosen⟩))
      ⟨HashMap.insert row.key ⟨value, index⟩ values.primary, values.secondary, values.selector,
        values.equalValues⟩ := by
  have hsame := h.consistent.entry_same hentry
  have hnext := h.becomes_row ⟨value, index⟩ hsame
    (fun stored hstored => by rw [hentry] at hstored; cases hstored; rfl)
  have hentryOf : ∀ other, entryOf (HashMap.insert row.key ⟨value, index⟩ values.primary) other =
      if keys.equalKeys other key = true then some (row.key, ⟨value, index⟩)
      else entryOf values.primary other := by
    intro other
    rw [hnext.entryOf_eq, h.consistent.keys_eq.1]
  have hcount : values.secondary.pairCount =
      ((HashMap.insert row.key (⟨value, index⟩ : IndexedEntry v i) values.primary).size : Int) := by
    have hsize := hnext.size_eq h.consistent.rows
    rw [hentry, weightOf_some, weightOf_some] at hsize
    rw [h.consistent.count_eq, Nat.add_right_cancel hsize]
  refine ⟨⟨hnext.wellFormed, h.consistent.groups,
    ⟨hnext.policy_eq.trans h.consistent.keys_eq.1, h.consistent.keys_eq.2⟩,
    h.consistent.indexes_eq, ?_, hcount, h.consistent.count_le⟩, h.selector_eq,
    h.equalValues_eq, ?_⟩
  · intro otherIndex other
    rw [h.consistent.elementAt_eq, hentryOf]
    split
    · rename_i hother
      rw [h.consistent.entry_congr hother, hentry]
      rfl
    · rfl
  · intro other
    rw [hentryOf, writeRow]
    split
    · exact .present hchosen hkept
    · exact h.row other

theorem Holds.rewritten {row : Option (Row k v)} (hrow : rows key = row) :
    Holds keys indexes selector equalValues (writeRow keys rows key row) values := by
  refine ⟨h.consistent, h.selector_eq, h.equalValues_eq, ?_⟩
  intro other
  rw [writeRow]
  split
  · rename_i hsame
    rw [h.consistent.entry_congr hsame, ← hrow]
    exact h.row key
  · exact h.row other

theorem set_gives (key : k) (value : v) :
    (rows key = none ∧ values.secondary.pairCount = HashMultimap.maxBound ∧
      set key value values = .error "HashMultimap pair count overflow") ∨
    ∃ after, set key value values = .ok after ∧
      Holds keys indexes selector equalValues (writeRow keys rows key
        (some ((rows key).elim ⟨key, value, value⟩
          fun row => changedRow indexes selector equalValues row value))) after := by
  cases hrow : rows key with
  | none =>
      have hlookup := h.lookup_eq key
      rw [h.entry_absent hrow] at hlookup
      unfold set
      rw [hlookup]
      rcases insert_absent h value hrow with ⟨hfull, hresult⟩ | ⟨after, hresult, hafter⟩
      · refine .inl ⟨rfl, hfull, ?_⟩
        simp only [Option.map_none, hresult, except_error_bind]
      · refine .inr ⟨after, ?_, hafter⟩
        simp only [Option.map_none, hresult, except_ok_bind, Option.getD_some]
  | some row =>
      right
      obtain ⟨index, hentry, hchosen, hkept⟩ := h.entry_present hrow
      have hlookup := h.lookup_eq key
      rw [hentry, Option.map_some] at hlookup
      unfold set
      rw [hlookup, Option.elim_some, changedRow]
      simp only [h.equalValues_eq, h.requiredKey_eq hentry, except_ok_bind, indexPolicy,
        h.consistent.indexes_eq, h.selector_eq]
      by_cases hequal : equalValues row.value value = true
      · rw [if_pos hequal, if_pos hequal]
        exact ⟨values, rfl, h.rewritten hrow⟩
      · rw [if_neg hequal, if_neg hequal, same_congr h.consistent.indexEquivalence hchosen]
        split
        · have hafter := h.revalued value hentry hchosen hkept
          rw [h.selector_eq, h.equalValues_eq] at hafter
          exact ⟨_, rfl, hafter⟩
        · obtain ⟨hdetached, hdeleted⟩ := h.consistent.detached hentry
          have hfreed : (HashMultimap.delete index row.key values.secondary).pairCount =
              values.secondary.pairCount - 1 := hdeleted
          have hbound := h.consistent.count_le
          have hcount : (HashMultimap.delete index row.key values.secondary).pairCount +
              ((entryOf values.primary key).toList.length : Int) = values.secondary.pairCount := by
            rw [hentry, Option.toList_some, length_singleton]
            omega
          obtain ⟨nextSecondary, nextIndex, hinsert, hrequired, hafter⟩ :=
            h.attached value hdetached (h.consistent.entry_same hentry)
              (fun stored hstored => by rw [hentry] at hstored; cases hstored; rfl) hcount
              (by omega)
          rw [h.selector_eq] at hinsert hrequired
          rw [h.selector_eq, h.equalValues_eq] at hafter
          refine ⟨_, ?_, hafter⟩
          simp only [hinsert, hrequired, except_ok_bind]

theorem delete_gives (key : k) : ∃ after, delete key values = .ok after ∧
    Holds keys indexes selector equalValues (writeRow keys rows key none) after := by
  have hlookup := h.lookup_eq key
  unfold delete
  rw [hlookup]
  cases hrow : rows key with
  | none =>
      have hentry := h.entry_absent hrow
      rw [hentry]
      exact ⟨values, rfl, hrow ▸ h.rewritten rfl⟩
  | some row =>
      obtain ⟨index, hentry, -⟩ := h.entry_present hrow
      rw [hentry, Option.map_some]
      simp only [h.requiredKey_eq hentry, except_ok_bind]
      refine ⟨_, rfl, ?_⟩
      obtain ⟨hdetached, hdeleted⟩ := h.consistent.detached hentry
      have hfreed : (HashMultimap.delete index row.key values.secondary).pairCount =
          values.secondary.pairCount - 1 := hdeleted
      have hsame := h.consistent.entry_same hentry
      have hnext := (HashMap.delete_becomes h.consistent.rows row.key).congr h.consistent.rows
        (h.consistent.keys_eq.1 ▸ h.consistent.keyEquivalence.symm hsame)
      have hentryOf : ∀ other, entryOf (HashMap.delete row.key values.primary) other =
          if keys.equalKeys other key = true then none else entryOf values.primary other := by
        intro other
        rw [hnext.entryOf_eq, h.consistent.keys_eq.1]
      have hsize := hnext.size_eq h.consistent.rows
      rw [hentry, HashMap.weightOf_some, HashMap.weightOf_none] at hsize
      have hcount := h.consistent.count_eq
      have hbound := h.consistent.count_le
      refine ⟨⟨hnext.wellFormed, hdetached.valid,
        ⟨hnext.policy_eq.trans h.consistent.keys_eq.1, hdetached.keys_eq⟩, hdetached.indexes_eq,
        ?_, ?_, ?_⟩, h.selector_eq, h.equalValues_eq, ?_⟩
      · intro otherIndex other
        rw [hdetached.elementAt_eq, hentryOf]
        split <;> rfl
      · change (HashMultimap.delete index row.key values.secondary).pairCount =
          ((HashMap.delete row.key values.primary).size : Int)
        omega
      · change (HashMultimap.delete index row.key values.secondary).pairCount ≤ _
        omega
      · intro other
        rw [hentryOf, writeRow]
        split
        · exact .absent
        · rename_i hother
          rw [Bool.not_eq_true] at hother
          exact (h.row other).kept h.consistent.indexEquivalence (hdetached.kept other · hother)

theorem clear_holds : Holds keys indexes selector equalValues (fun _ => none) (clear values) := by
  have hkeys := h.consistent.keys_eq.1
  have hrows := h.consistent.rows
  unfold clear
  split
  · rename_i hsize
    rw [hrows.size_toList, length_eq_zero_iff] at hsize
    have hentry : ∀ key, entryOf values.primary key = none := by
      intro key
      rw [entryOf, hsize]
      rfl
    refine ⟨h.consistent, h.selector_eq, h.equalValues_eq, ?_⟩
    intro key
    rw [hentry]
    exact .absent
  · have hempty := emptyWith_holds (hkeys ▸ hrows.lawful : keys.Lawful)
      (h.consistent.indexes_eq ▸ h.consistent.groups.groups.lawful : indexes.Lawful)
      values.selector values.equalValues
    rw [HashMultimap.clear, h.consistent.indexes_eq, h.consistent.keys_eq.2, hkeys]
    rw [h.selector_eq, h.equalValues_eq] at hempty ⊢
    exact hempty

end Writing

end

/-!
## Histories of an indexed map

A version stands beside the rows that its history calls for.  The index of a row is chosen again
only when a new value has another index class.
-/

open HashMap (LawfulPolicy entryOf)

/-- The parameters of a family of indexed maps. -/
structure Parameters (k v i : Type) where
  keys : LawfulPolicy k
  indexes : LawfulPolicy i
  selector : k → v → i
  equalValues : v → v → Bool

def setRow (parameters : Parameters k v i) (rows : k → Option (Row k v)) (key : k) (value : v) :
    k → Option (Row k v) :=
  writeRow parameters.keys.toHashPolicy rows key (some ((rows key).elim ⟨key, value, value⟩
    fun row => changedRow parameters.indexes.toHashPolicy parameters.selector
      parameters.equalValues row value))

inductive Reached (parameters : Parameters k v i) :
    (k → Option (Row k v)) → PersistentIndexedMap k v i → Prop where
  | emptyWith :
      Reached parameters (fun _ => none) (emptyWith parameters.selector
        parameters.keys.toHashPolicy parameters.equalValues parameters.indexes.toHashPolicy)
  | insert {rows : k → Option (Row k v)} {values after : PersistentIndexedMap k v i} (key : k)
      (value : v) (h : Reached parameters rows values) (habsent : rows key = none)
      (hstep : insert key value values = .ok (some after)) :
      Reached parameters
        (writeRow parameters.keys.toHashPolicy rows key (some ⟨key, value, value⟩)) after
  | set {rows : k → Option (Row k v)} {values after : PersistentIndexedMap k v i} (key : k)
      (value : v) (h : Reached parameters rows values)
      (hstep : set key value values = .ok after) :
      Reached parameters (setRow parameters rows key value) after
  | delete {rows : k → Option (Row k v)} {values after : PersistentIndexedMap k v i} (key : k)
      (h : Reached parameters rows values) (hstep : delete key values = .ok after) :
      Reached parameters (writeRow parameters.keys.toHashPolicy rows key none) after
  | clear {rows : k → Option (Row k v)} {values : PersistentIndexedMap k v i}
      (h : Reached parameters rows values) : Reached parameters (fun _ => none) (clear values)

def Shows (parameters : Parameters k v i) (rows : k → Option (Row k v))
    (values : PersistentIndexedMap k v i) : Prop :=
  Holds parameters.keys.toHashPolicy parameters.indexes.toHashPolicy parameters.selector
    parameters.equalValues rows values

theorem Reached.shows {parameters : Parameters k v i} {rows : k → Option (Row k v)}
    {values : PersistentIndexedMap k v i} (h : Reached parameters rows values) :
    Shows parameters rows values := by
  induction h with
  | emptyWith => exact emptyWith_holds parameters.keys.lawful parameters.indexes.lawful _ _
  | insert key value _ habsent hstep ih =>
      rcases insert_absent ih value habsent with ⟨-, hresult⟩ | ⟨after, hresult, hafter⟩
      · rw [hresult] at hstep
        cases hstep
      · rw [hresult] at hstep
        cases hstep
        exact hafter
  | set key value _ hstep ih =>
      rcases set_gives ih key value with ⟨-, -, hresult⟩ | ⟨after, hresult, hafter⟩
      · rw [hresult] at hstep
        cases hstep
      · rw [hresult] at hstep
        cases hstep
        exact hafter
  | delete key _ hstep ih =>
      obtain ⟨after, hresult, hafter⟩ := delete_gives ih key
      rw [hresult] at hstep
      cases hstep
      exact hafter
  | clear _ ih => exact clear_holds ih

structure Version (parameters : Parameters k v i) where
  rows : k → Option (Row k v)
  values : PersistentIndexedMap k v i
  reached : Reached parameters rows values

/-- The row of a stored key has an index of the given class. -/
def Indexed (parameters : Parameters k v i) (rows : k → Option (Row k v)) (index : i) (key : k) :
    Prop :=
  ∃ row, rows key = some row ∧ row.key = key ∧
    parameters.indexes.equalKeys index (parameters.selector key row.chosen) = true

/-- What the two structures of a map say about one row. -/
inductive Stored (parameters : Parameters k v i) (values : PersistentIndexedMap k v i) (key : k) :
    Option (Row k v) → Prop where
  | absent (hlookup : lookup key values = none) (hkey : actualKey key values = none)
      (hindex : lookupIndexKey key values = none) : Stored parameters values key none
  | present {row : Row k v} {index : i} (hlookup : lookup key values = some row.value)
      (hkey : actualKey key values = some row.key)
      (hindex : lookupIndexKey key values = some index)
      (hkept : HashMultimap.actualKey index values.secondary = some index)
      (hchosen : parameters.indexes.equalKeys index
        (parameters.selector row.key row.chosen) = true) : Stored parameters values key (some row)

/-- The answer of the secondary index is exactly the stored keys of its class. -/
inductive Grouped (indexed : k → Prop) : Option (HashSet k) → Prop where
  | empty (hnone : ∀ key, ¬indexed key) : Grouped indexed none
  | group {keys : HashSet k} {key : k} (hkey : indexed key)
      (hkeys : ∀ key, key ∈ HashSet.toList keys ↔ indexed key) : Grouped indexed (some keys)

section Reads

variable {parameters : Parameters k v i} {rows : k → Option (Row k v)}
  {values : PersistentIndexedMap k v i} (h : Shows parameters rows values)

include h

theorem Shows.stored (key : k) : Stored parameters values key (rows key) := by
  have hlookup := h.lookup_eq key
  have hkey := h.consistent.rows.actualKey_eq key
  cases hrow : rows key with
  | none =>
      rw [h.entry_absent hrow] at hlookup hkey
      refine .absent ?_ hkey ?_
      · rw [lookup, hlookup]
        rfl
      · rw [lookupIndexKey, hlookup]
        rfl
  | some row =>
      obtain ⟨index, hentry, hchosen, hkept⟩ := h.entry_present hrow
      rw [hentry] at hlookup hkey
      refine .present ?_ hkey ?_ hkept hchosen
      · rw [lookup, hlookup]
        rfl
      · rw [lookupIndexKey, hlookup]
        rfl

theorem Shows.indexed_iff (index : i) (key : k) :
    indexedKey parameters.indexes.toHashPolicy index (entryOf values.primary key) = some key ↔
      Indexed parameters rows index key := by
  have hindexes := h.consistent.indexEquivalence
  rw [Indexed]
  cases hrow : rows key with
  | none =>
      rw [h.entry_absent hrow]
      constructor
      · intro hindexed
        cases hindexed
      · rintro ⟨row, hrow, -⟩
        cases hrow
  | some row =>
      obtain ⟨own, hentry, hchosen, -⟩ := h.entry_present hrow
      rw [hentry, indexedKey, Option.bind_some, same_comm hindexes index own,
        same_congr hindexes hchosen, same_comm hindexes _ index]
      constructor
      · intro hindexed
        split at hindexed
        · rename_i hsame
          cases hindexed
          exact ⟨row, rfl, rfl, hsame⟩
        · cases hindexed
      · rintro ⟨other, hother, rfl, hsame⟩
        cases hother
        exact if_pos hsame

theorem Shows.grouped (index : i) :
    Grouped (Indexed parameters rows index) (lookupKeysByIndex index values) := by
  rw [lookupKeysByIndex]
  rcases h.consistent.index_keys index with ⟨hresult, hnone⟩ | ⟨group, hresult, hgroup, key, hkey⟩
  · rw [hresult]
    refine .empty fun key hindexed => ?_
    rw [← h.indexed_iff, hnone] at hindexed
    cases hindexed
  · rw [hresult]
    obtain ⟨entry, hentry, hstored⟩ := Option.bind_eq_some_iff.mp
      (Option.isSome_iff_exists.mp hkey).choose_spec
    have hfirst : Indexed parameters rows index entry.1 := by
      rw [← h.indexed_iff, ← h.consistent.entry_congr (h.consistent.entry_same hentry), hentry,
        indexedKey, Option.bind_some]
      split at hstored
      · rename_i hsame
        exact if_pos hsame
      · cases hstored
    exact .group hfirst fun other => (hgroup other).trans (h.indexed_iff index other)

end Reads

/-- Every version has the rows of its history, its secondary index is exact, and a next edit
either succeeds or has no place for its count. -/
theorem secondary_index_exact {parameters : Parameters k v i} (version : Version parameters) :
    let values := version.values
    validStructure values = true ∧
      (∀ key, Stored parameters values key (version.rows key)) ∧
      (∀ index, Grouped (Indexed parameters version.rows index) (lookupKeysByIndex index values)) ∧
      (∀ key value, (version.rows key).isSome = true → insert key value values = .ok none) ∧
      (∀ key value, version.rows key = none →
        (∃ after, insert key value values = .ok (some after)) ∨
          (values.secondary.size = HashMultimap.maxBound ∧
            insert key value values = .error "HashMultimap pair count overflow")) ∧
      (∀ key value, (∃ after, set key value values = .ok after) ∨
        (version.rows key = none ∧ values.secondary.size = HashMultimap.maxBound ∧
          set key value values = .error "HashMultimap pair count overflow")) ∧
      ∀ key, ∃ after, delete key values = .ok after := by
  obtain ⟨rows, values, hreached⟩ := version
  have h := hreached.shows
  refine ⟨h.consistent.validStructure_eq, h.stored, h.grouped,
    fun key value => insert_present h value, ?_, ?_, ?_⟩
  · intro key value habsent
    rcases insert_absent h value habsent with hfull | ⟨after, hresult, -⟩
    · exact .inr hfull
    · exact .inl ⟨after, hresult⟩
  · intro key value
    rcases set_gives h key value with hfull | ⟨after, hresult, -⟩
    · exact .inr hfull
    · exact .inl ⟨after, hresult⟩
  · intro key
    obtain ⟨after, hresult, -⟩ := delete_gives h key
    exact ⟨after, hresult⟩

/-- A key that moves to another class leaves an empty group, which goes. -/
theorem secondary_index_exact_parity : let parameters : Parameters Nat Nat Nat :=
      ⟨parityPolicy, parityPolicy, fun _ value => value, fun x y => x == y⟩
    ∀ first second,
      set 0 5 (emptyWith parameters.selector parameters.keys.toHashPolicy parameters.equalValues
        parameters.indexes.toHashPolicy) = .ok first →
      set 2 8 first = .ok second →
      Stored parameters second 4 (some ⟨0, 8, 8⟩) ∧ lookupKeysByIndex 3 second = none := by
  intro parameters first second hfirst hsecond
  have hreached : Reached parameters _ second := .set 2 8 (.set 0 5 .emptyWith hfirst) hsecond
  have hrows : setRow parameters (setRow parameters (fun _ => none) 0 5) 2 8 =
      fun key => if key % 2 = 0 then some ⟨0, 8, 8⟩ else none := by
    funext key
    by_cases heven : key % 2 = 0 <;>
      simp [setRow, writeRow, changedRow, parameters, parityPolicy, heven]
  rw [hrows] at hreached
  have hexact := secondary_index_exact ⟨_, _, hreached⟩
  refine ⟨hexact.2.1 4, ?_⟩
  have hgroup := hexact.2.2.1 3
  revert hgroup
  generalize lookupKeysByIndex 3 second = result
  intro hgroup
  cases hgroup with
  | empty => rfl
  | group hindexed hkeys =>
      obtain ⟨row, hrow, -, hsame⟩ := hindexed
      simp only at hrow
      split at hrow
      · cases hrow
        simp [parameters, parityPolicy] at hsame
      · cases hrow

end Durable7.Hamt.PersistentIndexedMap
