import Mathlib.Data.Prod.Basic
import Durable7.Hamt.HashMap.Equality

/-!
# Operations on bimaps

One map runs from keys to values and one from values to keys.  An exception of the source is a
failure that is raised.
-/

namespace Durable7.Hamt

open HashMap

inductive BiMapConflict where
  | keyConflict
  | valueConflict
deriving DecidableEq

structure BiMap (k v : Type) where
  forward : HashMap k v
  backward : HashMap v k

namespace BiMap

inductive Failure where
  | returned (conflict : BiMapConflict)
  | raised (message : String)

variable {k v : Type}

def emptyWith (keysPolicy : HashPolicy k) (valuesPolicy : HashPolicy v) : BiMap k v :=
  ⟨HashMap.emptyWith keysPolicy, HashMap.emptyWith valuesPolicy⟩

def lookup (key : k) (source : BiMap k v) : Option v := HashMap.lookup key source.forward

def lookupKey (value : v) (source : BiMap k v) : Option k := HashMap.lookup value source.backward

def toList (source : BiMap k v) : List (k × v) := HashMap.toList source.forward

def tryAdd (key : k) (value : v) (source : BiMap k v) : BiMap k v × Option BiMapConflict :=
  if member key source.forward then (source, some .keyConflict)
  else if member value source.backward then (source, some .valueConflict)
  else (⟨insert key value source.forward, insert value key source.backward⟩, none)

def set (key : k) (value : v) (source : BiMap k v) : Except Failure (BiMap k v) :=
  match HashMap.lookup key source.forward with
  | none =>
      if member value source.backward then .error (.returned .valueConflict)
      else .ok ⟨insert key value source.forward, insert value key source.backward⟩
  | some oldValue =>
      if source.backward.policy.equalKeys oldValue value then .ok source
      else if member value source.backward then .error (.returned .valueConflict)
      else
        match actualKey key source.forward with
        | none => .error (.raised "persistent bimap invariant failure")
        | some storedKey =>
            .ok ⟨insert storedKey value (delete storedKey source.forward),
              insert value storedKey (delete oldValue source.backward)⟩

def tryRemoveKey (key : k) (source : BiMap k v) : BiMap k v × Option v :=
  match HashMap.actualKey key source.forward, HashMap.lookup key source.forward with
  | some storedKey, some storedValue =>
      (⟨delete storedKey source.forward, delete storedValue source.backward⟩, some storedValue)
  | _, _ => (source, none)

def tryRemoveValue (value : v) (source : BiMap k v) : BiMap k v × Option k :=
  match HashMap.actualKey value source.backward, HashMap.lookup value source.backward with
  | some storedValue, some storedKey =>
      (⟨delete storedKey source.forward, delete storedValue source.backward⟩, some storedKey)
  | _, _ => (source, none)

def clear (source : BiMap k v) : BiMap k v :=
  if source.forward.size = 0 then source
  else ⟨HashMap.emptyWith source.forward.policy, HashMap.emptyWith source.backward.policy⟩

def inverse (source : BiMap k v) : BiMap v k := ⟨source.backward, source.forward⟩

def forwardEntryValid (source : BiMap k v) (entry : k × v) : Bool :=
  match HashMap.lookup entry.2 source.backward with
  | some inverseKey => source.forward.policy.equalKeys entry.1 inverseKey
  | none => false

def backwardEntryValid (source : BiMap k v) (entry : v × k) : Bool :=
  match HashMap.lookup entry.2 source.forward with
  | some forwardValue => source.backward.policy.equalKeys entry.1 forwardValue
  | none => false

def validStructure (source : BiMap k v) : Bool :=
  source.forward.size == source.backward.size &&
    HashMap.validStructure source.forward && HashMap.validStructure source.backward &&
    (HashMap.toList source.forward).all source.forwardEntryValid &&
    (HashMap.toList source.backward).all source.backwardEntryValid

end BiMap

end Durable7.Hamt

/-!
## The two maps of a bimap

Each map holds the pairs of the other the other way round, representatives included.  An edit is
made of two steps that keep this: a pair goes, or a pair comes whose two classes are free.
-/

namespace Durable7.Hamt.BiMap

open Foundation HashMap

section

open List
open HashMap (Becomes entryOf)

variable {k v : Type}

def Mirrored (forward : HashMap k v) (backward : HashMap v k) : Prop :=
  ∀ key value, (key, value) ∈ HashMap.toList forward ↔ (value, key) ∈ HashMap.toList backward

structure Valid (source : BiMap k v) : Prop where
  forward : source.forward.WellFormed
  backward : source.backward.WellFormed
  mirrored : Mirrored source.forward source.backward

theorem Valid.inverse {source : BiMap k v} (h : source.Valid) : source.inverse.Valid :=
  ⟨h.backward, h.forward, fun value key => (h.mirrored key value).symm⟩

theorem emptyWith_valid {keysPolicy : HashPolicy k} {valuesPolicy : HashPolicy v}
    (hkeys : keysPolicy.Lawful) (hvalues : valuesPolicy.Lawful) :
    (emptyWith keysPolicy valuesPolicy).Valid := by
  refine ⟨HashMap.emptyWith_wellFormed hkeys, HashMap.emptyWith_wellFormed hvalues, ?_⟩
  intro key value
  constructor
  · intro hmem
    cases hmem
  · intro hmem
    cases hmem

variable {key : k} {value : v} {pair : k × v}

section Steps

variable {source : BiMap k v} (h : source.Valid)

include h

theorem Valid.of_key (hpair : entryOf source.forward key = some pair) :
    entryOf source.backward pair.2 = some (pair.2, pair.1) :=
  h.backward.mem_iff.mp ((h.mirrored _ _).mp (mem_of_entryAt hpair).1)

theorem Valid.of_value {pair : v × k} (hpair : entryOf source.backward value = some pair) :
    entryOf source.forward pair.2 = some (pair.2, pair.1) :=
  h.inverse.of_key hpair

theorem Valid.removed (hpair : (key, value) ∈ HashMap.toList source.forward) {forward : HashMap k v}
    {backward : HashMap v k} (hforward : Becomes source.forward forward key none)
    (hbackward : Becomes source.backward backward value none) :
    Valid ⟨forward, backward⟩ := by
  refine ⟨hforward.wellFormed, hbackward.wellFormed, ?_⟩
  have hother := (h.mirrored key value).mp hpair
  intro otherKey otherValue
  rw [hforward.mem_iff h.forward, hbackward.mem_iff h.backward]
  by_cases hkey : source.forward.policy.equalKeys otherKey key = true
  · rw [if_pos hkey]
    split
    · simp
    · rename_i hvalue
      constructor
      · intro hnone
        cases hnone
      · intro hmem
        have heq := h.forward.entry_unique ((h.mirrored _ _).mpr hmem) hpair hkey
        rw [(Prod.mk.inj heq).2] at hvalue
        exact absurd (same_refl h.backward.lawful.equivalence value) hvalue
  · rw [if_neg hkey]
    split
    · rename_i hvalue
      constructor
      · intro hmem
        have heq := h.backward.entry_unique ((h.mirrored _ _).mp hmem) hother hvalue
        rw [(Prod.mk.inj heq).2] at hkey
        exact absurd (same_refl h.forward.lawful.equivalence key) hkey
      · intro hnone
        cases hnone
    · exact h.mirrored otherKey otherValue

theorem Valid.added (hkeyFree : entryOf source.forward key = none)
    (hvalueFree : entryOf source.backward value = none) {forward : HashMap k v}
    {backward : HashMap v k} (hforward : Becomes source.forward forward key (some (key, value)))
    (hbackward : Becomes source.backward backward value (some (value, key))) :
    Valid ⟨forward, backward⟩ := by
  refine ⟨hforward.wellFormed, hbackward.wellFormed, ?_⟩
  intro otherKey otherValue
  rw [hforward.mem_iff h.forward, hbackward.mem_iff h.backward]
  by_cases hkey : source.forward.policy.equalKeys otherKey key = true
  · rw [if_pos hkey]
    split
    · simp [and_comm]
    · rename_i hvalue
      constructor
      · intro heq
        rw [← (Prod.mk.inj (Option.some.inj heq)).2] at hvalue
        exact absurd (same_refl h.backward.lawful.equivalence value) hvalue
      · intro hmem
        have hstored := h.forward.mem_iff.mp ((h.mirrored _ _).mpr hmem)
        rw [h.forward.entryOf_congr hkey, hkeyFree] at hstored
        cases hstored
  · rw [if_neg hkey]
    split
    · rename_i hvalue
      constructor
      · intro hmem
        have hstored := h.backward.mem_iff.mp ((h.mirrored _ _).mp hmem)
        rw [h.backward.entryOf_congr hvalue, hvalueFree] at hstored
        cases hstored
      · intro heq
        rw [← (Prod.mk.inj (Option.some.inj heq)).2] at hkey
        exact absurd (same_refl h.forward.lawful.equivalence key) hkey
    · exact h.mirrored otherKey otherValue

end Steps

section

variable {source : BiMap k v} (h : source.Valid)
include h

theorem Valid.forwardEntryValid {entry : k × v}
    (hentry : entry ∈ HashMap.toList source.forward) : source.forwardEntryValid entry = true := by
  unfold BiMap.forwardEntryValid
  rw [h.backward.lookup_eq, h.of_key (h.forward.mem_iff.mp hentry)]
  exact same_refl h.forward.lawful.equivalence entry.1

theorem Valid.sizes : source.forward.size = source.backward.size := by
  have hforward := h.forward.distinct.nodup h.forward.lawful.equivalence
  have hbackward := h.backward.distinct.nodup h.backward.lawful.equivalence
  have hswapped : ((HashMap.toList source.forward).map Prod.swap).Nodup :=
    hforward.map Prod.swap_injective
  have hperm : ((HashMap.toList source.forward).map Prod.swap).Perm
      (HashMap.toList source.backward) := by
    rw [perm_ext_iff_of_nodup hswapped hbackward]
    rintro ⟨value, key⟩
    rw [← h.mirrored key value, mem_map]
    constructor
    · rintro ⟨⟨otherKey, otherValue⟩, hmem, heq⟩
      obtain ⟨rfl, rfl⟩ := Prod.mk.inj heq
      exact hmem
    · intro hmem
      exact ⟨(key, value), hmem, rfl⟩
  have hlength := hperm.length_eq
  rwa [length_map, ← h.forward.size_toList, ← h.backward.size_toList] at hlength

theorem Valid.validStructure_eq : validStructure source = true := by
  have hforward : (HashMap.toList source.forward).all source.forwardEntryValid = true :=
    all_eq_true.mpr fun _ hentry => h.forwardEntryValid hentry
  have hbackward : (HashMap.toList source.backward).all source.backwardEntryValid = true :=
    all_eq_true.mpr fun _ hentry => h.inverse.forwardEntryValid hentry
  rw [validStructure, h.sizes, h.forward.validStructure_eq, h.backward.validStructure_eq, hforward,
    hbackward]
  simp

end

/-! ### Operations -/

/-- The pair of the class of a key becomes another one, and the other pairs stay. -/
def Rebinds (source after : BiMap k v) (key : k) (pair : Option (k × v)) : Prop :=
  after.Valid ∧ after.forward.policy = source.forward.policy ∧
    after.backward.policy = source.backward.policy ∧
    ∀ other, entryOf after.forward other =
      if source.forward.policy.equalKeys other key = true then pair
      else entryOf source.forward other

section Operations

variable {source : BiMap k v} (h : source.Valid)

include h

theorem Valid.rebinds_added (hkeyFree : entryOf source.forward key = none)
    (hvalueFree : entryOf source.backward value = none) :
    Rebinds source
      ⟨insert key value source.forward, insert value key source.backward⟩ key
      (some (key, value)) := by
  have hforward := insert_becomes h.forward key value
  have hbackward := insert_becomes h.backward value key
  rw [hkeyFree] at hforward
  rw [hvalueFree] at hbackward
  exact ⟨h.added hkeyFree hvalueFree hforward hbackward, hforward.policy_eq, hbackward.policy_eq,
    hforward.entryOf_eq⟩

theorem Valid.rebinds_removed (hpair : entryOf source.forward key = some pair) :
    Rebinds source ⟨delete pair.1 source.forward, delete pair.2 source.backward⟩ key none := by
  obtain ⟨hmem, hkey⟩ := mem_of_entryAt hpair
  have hforward := delete_becomes h.forward pair.1
  have hbackward := delete_becomes h.backward pair.2
  refine ⟨h.removed hmem hforward hbackward, hforward.policy_eq, hbackward.policy_eq, ?_⟩
  intro other
  have hsame := same_congr h.forward.lawful.equivalence hkey other
  rw [same_comm h.forward.lawful.equivalence key, same_comm h.forward.lawful.equivalence pair.1]
    at hsame
  rw [hforward.entryOf_eq, hsame]

theorem tryAdd_cases (key : k) (value : v) :
    ((entryOf source.forward key).isSome = true ∧
      tryAdd key value source = (source, some .keyConflict)) ∨
    (entryOf source.forward key = none ∧ (entryOf source.backward value).isSome = true ∧
      tryAdd key value source = (source, some .valueConflict)) ∨
    (entryOf source.forward key = none ∧ entryOf source.backward value = none ∧
      ∃ after, tryAdd key value source = (after, none) ∧
        Rebinds source after key (some (key, value))) := by
  unfold tryAdd
  rw [h.forward.member_eq, h.backward.member_eq]
  cases hkey : entryOf source.forward key with
  | some pair => exact .inl ⟨rfl, rfl⟩
  | none =>
      cases hvalue : entryOf source.backward value with
      | some pair => exact .inr (.inl ⟨rfl, rfl, rfl⟩)
      | none => exact .inr (.inr ⟨rfl, rfl, _, rfl, h.rebinds_added hkey hvalue⟩)

theorem tryRemoveKey_cases (key : k) :
    (entryOf source.forward key = none ∧ tryRemoveKey key source = (source, none)) ∨
    ∃ pair after, entryOf source.forward key = some pair ∧
      tryRemoveKey key source = (after, some pair.2) ∧ Rebinds source after key none := by
  unfold tryRemoveKey
  rw [h.forward.actualKey_eq, h.forward.lookup_eq]
  cases hkey : entryOf source.forward key with
  | none => exact .inl ⟨rfl, rfl⟩
  | some pair => exact .inr ⟨pair, _, rfl, rfl, h.rebinds_removed hkey⟩

theorem tryRemoveValue_cases (value : v) :
    (entryOf source.backward value = none ∧ tryRemoveValue value source = (source, none)) ∨
    ∃ pair after, entryOf source.backward value = some pair ∧
      tryRemoveValue value source = (after, some pair.2) ∧ Rebinds source after pair.2 none := by
  unfold tryRemoveValue
  rw [h.backward.actualKey_eq, h.backward.lookup_eq]
  cases hvalue : entryOf source.backward value with
  | none => exact .inl ⟨rfl, rfl⟩
  | some pair => exact .inr ⟨pair, _, rfl, rfl, h.rebinds_removed (h.of_value hvalue)⟩

theorem Valid.rebinds_replaced (hpair : entryOf source.forward key = some pair)
    (hvalueFree : entryOf source.backward value = none) :
    Rebinds source
      ⟨insert pair.1 value (delete pair.1 source.forward),
        insert value pair.1 (delete pair.2 source.backward)⟩ key
      (some (pair.1, value)) := by
  obtain ⟨hvalid, hkeys, hvalues, hentries⟩ := h.rebinds_removed hpair
  have hkey := (mem_of_entryAt hpair).2
  have hself := hkeys ▸ h.forward.lawful.equivalence.symm hkey
  have hkeyFree : entryOf (delete pair.1 source.forward) pair.1 = none := by
    rw [hvalid.forward.entryOf_congr hself, hentries, if_pos (same_refl h.forward.lawful.equivalence
      key)]
  have hstillFree : entryOf (delete pair.2 source.backward) value = none := by
    rw [(delete_becomes h.backward pair.2).entryOf_eq]
    split
    · rfl
    · exact hvalueFree
  obtain ⟨hvalid', hkeys', hvalues', hentries'⟩ := hvalid.rebinds_added hkeyFree hstillFree
  refine ⟨hvalid', hkeys'.trans hkeys, hvalues'.trans hvalues, ?_⟩
  intro other
  have hsame := same_congr h.forward.lawful.equivalence hkey other
  rw [same_comm h.forward.lawful.equivalence key, same_comm h.forward.lawful.equivalence pair.1]
    at hsame
  rw [hentries', hentries, hkeys, hsame]
  split <;> rfl

theorem set_cases (key : k) (value : v) :
    ((∃ pair, entryOf source.backward value = some pair ∧
        source.forward.policy.equalKeys key pair.2 = false) ∧
      set key value source = .error (.returned .valueConflict)) ∨
    ((∃ pair, entryOf source.backward value = some pair ∧
        source.forward.policy.equalKeys key pair.2 = true) ∧ set key value source = .ok source) ∨
    (entryOf source.backward value = none ∧ ∃ after, set key value source = .ok after ∧
      Rebinds source after key (putSlot (entryOf source.forward key) (key, value))) := by
  unfold set
  rw [h.forward.lookup_eq, h.forward.actualKey_eq, h.backward.member_eq]
  cases hkey : entryOf source.forward key with
  | none =>
      cases hvalue : entryOf source.backward value with
      | none => exact .inr (.inr ⟨rfl, _, rfl, h.rebinds_added hkey hvalue⟩)
      | some pair =>
          refine .inl ⟨⟨pair, rfl, ?_⟩, rfl⟩
          have hother := h.of_value hvalue
          rw [← Bool.not_eq_true]
          intro hsame
          rw [← h.forward.entryOf_congr hsame, hkey] at hother
          cases hother
  | some stored =>
      have hmirror := h.of_key hkey
      simp only [Option.map_some]
      by_cases hsame : source.backward.policy.equalKeys stored.2 value = true
      · rw [if_pos hsame]
        refine .inr (.inl ⟨⟨(stored.2, stored.1), ?_, (mem_of_entryAt hkey).2⟩, rfl⟩)
        rw [← h.backward.entryOf_congr hsame, hmirror]
      · rw [if_neg hsame]
        cases hvalue : entryOf source.backward value with
        | none => exact .inr (.inr ⟨rfl, _, rfl, h.rebinds_replaced hkey hvalue⟩)
        | some pair =>
            refine .inl ⟨⟨pair, rfl, ?_⟩, rfl⟩
            have hother := h.of_value hvalue
            rw [← Bool.not_eq_true]
            intro hkeys
            rw [← h.forward.entryOf_congr hkeys, hkey] at hother
            have hstored := congrArg Prod.snd (Option.some.inj hother)
            apply hsame
            rw [hstored]
            exact h.backward.lawful.equivalence.symm (mem_of_entryAt hvalue).2

theorem clear_spec :
    (clear source).Valid ∧ (clear source).forward.policy = source.forward.policy ∧
      (clear source).backward.policy = source.backward.policy ∧ toList (clear source) = [] := by
  unfold clear
  split
  · rename_i hzero
    rw [h.forward.size_toList] at hzero
    exact ⟨h, rfl, rfl, length_eq_zero_iff.mp hzero⟩
  · exact ⟨emptyWith_valid h.forward.lawful h.backward.lawful, rfl, rfl, rfl⟩

end Operations

end

/-!
## Histories of a bimap

Every version that a sequence of operations reaches is a bijection between classes of keys and
classes of values.  An inversion exchanges the two policies.
-/

open HashMap (LawfulPolicy entryOf)

inductive Reached : {k v : Type} → LawfulPolicy k → LawfulPolicy v → BiMap k v → Prop where
  | emptyWith {k v : Type} (keys : LawfulPolicy k) (values : LawfulPolicy v) :
      Reached keys values (emptyWith keys.toHashPolicy values.toHashPolicy)
  | tryAdd {k v : Type} {keys : LawfulPolicy k} {values : LawfulPolicy v} {source : BiMap k v}
      (key : k) (value : v) (h : Reached keys values source) :
      Reached keys values (tryAdd key value source).1
  | set {k v : Type} {keys : LawfulPolicy k} {values : LawfulPolicy v} {source after : BiMap k v}
      (key : k) (value : v) (h : Reached keys values source)
      (hstep : set key value source = .ok after) : Reached keys values after
  | tryRemoveKey {k v : Type} {keys : LawfulPolicy k} {values : LawfulPolicy v}
      {source : BiMap k v} (key : k) (h : Reached keys values source) :
      Reached keys values (tryRemoveKey key source).1
  | tryRemoveValue {k v : Type} {keys : LawfulPolicy k} {values : LawfulPolicy v}
      {source : BiMap k v} (value : v) (h : Reached keys values source) :
      Reached keys values (tryRemoveValue value source).1
  | clear {k v : Type} {keys : LawfulPolicy k} {values : LawfulPolicy v} {source : BiMap k v}
      (h : Reached keys values source) : Reached keys values (clear source)
  | inverse {k v : Type} {keys : LawfulPolicy k} {values : LawfulPolicy v} {source : BiMap k v}
      (h : Reached keys values source) : Reached values keys (inverse source)

/-- A valid bimap under two policies. -/
structure Holds {k v : Type} (keys : HashPolicy k) (values : HashPolicy v) (source : BiMap k v) :
    Prop where
  valid : source.Valid
  keys_eq : source.forward.policy = keys
  values_eq : source.backward.policy = values

theorem Holds.rebinds {k v : Type} {keys : HashPolicy k} {values : HashPolicy v}
    {source after : BiMap k v} {key : k} {pair : Option (k × v)} (h : Holds keys values source)
    (hafter : Rebinds source after key pair) : Holds keys values after :=
  ⟨hafter.1, hafter.2.1.trans h.keys_eq, hafter.2.2.1.trans h.values_eq⟩

theorem Reached.holds {k v : Type} {keys : LawfulPolicy k} {values : LawfulPolicy v}
    {source : BiMap k v} (h : Reached keys values source) :
    Holds keys.toHashPolicy values.toHashPolicy source := by
  induction h with
  | emptyWith keys values => exact ⟨emptyWith_valid keys.lawful values.lawful, rfl, rfl⟩
  | tryAdd key value _ ih =>
      rcases tryAdd_cases ih.valid key value with ⟨-, hresult⟩ | ⟨-, -, hresult⟩ |
        ⟨-, -, after, hresult, hafter⟩
      · rwa [hresult]
      · rwa [hresult]
      · rw [hresult]
        exact ih.rebinds hafter
  | set key value _ hstep ih =>
      rcases set_cases ih.valid key value with ⟨-, hresult⟩ | ⟨-, hresult⟩ |
        ⟨-, after, hresult, hafter⟩
      · rw [hresult] at hstep
        cases hstep
      · rw [hresult] at hstep
        cases hstep
        exact ih
      · rw [hresult] at hstep
        cases hstep
        exact ih.rebinds hafter
  | tryRemoveKey key _ ih =>
      rcases tryRemoveKey_cases ih.valid key with ⟨-, hresult⟩ | ⟨pair, after, -, hresult, hafter⟩
      · rwa [hresult]
      · rw [hresult]
        exact ih.rebinds hafter
  | tryRemoveValue value _ ih =>
      rcases tryRemoveValue_cases ih.valid value with ⟨-, hresult⟩ |
        ⟨pair, after, -, hresult, hafter⟩
      · rwa [hresult]
      · rw [hresult]
        exact ih.rebinds hafter
  | clear _ ih =>
      obtain ⟨hvalid, hkeys, hvalues, -⟩ := clear_spec ih.valid
      exact ⟨hvalid, hkeys.trans ih.keys_eq, hvalues.trans ih.values_eq⟩
  | inverse _ ih => exact ⟨ih.valid.inverse, ih.values_eq, ih.keys_eq⟩

variable {k v : Type}

structure Version (keys : LawfulPolicy k) (values : LawfulPolicy v) where
  source : BiMap k v
  reached : Reached keys values source

/-- The pair of the class of a key. -/
def pairOf (keys : HashPolicy k) (source : BiMap k v) (key : k) : Option (k × v) :=
  entryAt keys.equalKeys key (toList source)

/-- The pair of the class of a key becomes another one, and the other pairs stay. -/
def Assigns (keys : HashPolicy k) (source after : BiMap k v) (key : k) (pair : Option (k × v)) :
    Prop :=
  ∀ other, pairOf keys after other =
    if keys.equalKeys other key = true then pair else pairOf keys source other

/-- A pair comes in unless one of its classes is taken, the key first. -/
inductive Adds (keys : HashPolicy k) (values : HashPolicy v) (source : BiMap k v) (key : k)
    (value : v) : BiMap k v × Option BiMapConflict → Prop where
  | keyTaken {pair : k × v} (hkey : pairOf keys source key = some pair) :
      Adds keys values source key value (source, some .keyConflict)
  | valueTaken {pair : v × k} (hkey : pairOf keys source key = none)
      (hvalue : pairOf values (inverse source) value = some pair) :
      Adds keys values source key value (source, some .valueConflict)
  | added {after : BiMap k v} (hkey : pairOf keys source key = none)
      (hvalue : pairOf values (inverse source) value = none)
      (hafter : Assigns keys source after key (some (key, value))) :
      Adds keys values source key value (after, none)

/-- A key gets a value unless the value belongs to another key. -/
inductive Sets (keys : HashPolicy k) (values : HashPolicy v) (source : BiMap k v) (key : k)
    (value : v) : Except Failure (BiMap k v) → Prop where
  | valueTaken {pair : v × k} (hvalue : pairOf values (inverse source) value = some pair)
      (hother : keys.equalKeys key pair.2 = false) :
      Sets keys values source key value (.error (.returned .valueConflict))
  | same {pair : v × k} (hvalue : pairOf values (inverse source) value = some pair)
      (hkey : keys.equalKeys key pair.2 = true) : Sets keys values source key value (.ok source)
  | assigned {after : BiMap k v} (hvalue : pairOf values (inverse source) value = none)
      (hafter : Assigns keys source after key (putSlot (pairOf keys source key) (key, value))) :
      Sets keys values source key value (.ok after)

inductive RemovesKey (keys : HashPolicy k) (source : BiMap k v) (key : k) :
    BiMap k v × Option v → Prop where
  | missing (hkey : pairOf keys source key = none) : RemovesKey keys source key (source, none)
  | removed {pair : k × v} {after : BiMap k v} (hkey : pairOf keys source key = some pair)
      (hafter : Assigns keys source after key none) :
      RemovesKey keys source key (after, some pair.2)

inductive RemovesValue (keys : HashPolicy k) (values : HashPolicy v) (source : BiMap k v)
    (value : v) : BiMap k v × Option k → Prop where
  | missing (hvalue : pairOf values (inverse source) value = none) :
      RemovesValue keys values source value (source, none)
  | removed {pair : v × k} {after : BiMap k v}
      (hvalue : pairOf values (inverse source) value = some pair)
      (hafter : Assigns keys source after pair.2 none) :
      RemovesValue keys values source value (after, some pair.2)

section Reads

variable {keys : HashPolicy k} {values : HashPolicy v} {source : BiMap k v}
  (h : Holds keys values source)

include h

theorem Holds.pairOf_eq (key : k) : pairOf keys source key = entryOf source.forward key := by
  rw [← h.keys_eq]
  rfl

theorem Holds.pairOf_inverse (value : v) :
    pairOf values (inverse source) value = entryOf source.backward value := by
  rw [← h.values_eq]
  rfl

theorem Holds.assigns {after : BiMap k v} {key : k} {pair : Option (k × v)}
    (hafter : Rebinds source after key pair) : Assigns keys source after key pair := by
  intro other
  rw [(h.rebinds hafter).pairOf_eq, h.pairOf_eq, hafter.2.2.2, h.keys_eq]

theorem Holds.separate : (toList source).Pairwise fun left right =>
    keys.equalKeys left.1 right.1 = false ∧ values.equalKeys left.2 right.2 = false := by
  have hkeys := h.valid.forward.distinct
  have hnodup := hkeys.nodup h.valid.forward.lawful.equivalence
  rw [h.keys_eq] at hkeys
  apply List.Pairwise.and hkeys
  apply List.Pairwise.imp_of_mem _ hnodup
  intro left right hleft hright hne
  rw [← Bool.not_eq_true]
  intro hvalues
  rw [← h.values_eq] at hvalues
  have heq := h.valid.backward.entry_unique ((h.valid.mirrored _ _).mp hleft)
    ((h.valid.mirrored _ _).mp hright) hvalues
  obtain ⟨hvalue, hkey⟩ := Prod.mk.inj heq
  exact hne (Prod.ext hkey hvalue)

end Reads

/-- Every version is a bijection of classes, and what a step does is decided by its classes. -/
theorem bijection_kept {keys : LawfulPolicy k} {values : LawfulPolicy v}
    (version : Version keys values) :
    let source := version.source
    validStructure source = true ∧
      (∀ key value, (key, value) ∈ toList source ↔ (value, key) ∈ toList (inverse source)) ∧
      ((toList source).Pairwise fun left right =>
        keys.equalKeys left.1 right.1 = false ∧ values.equalKeys left.2 right.2 = false) ∧
      (∀ key, lookup key source = (pairOf keys.toHashPolicy source key).map Prod.snd) ∧
      (∀ value, lookupKey value source =
        (pairOf values.toHashPolicy (inverse source) value).map Prod.snd) ∧
      (∀ key value,
        Adds keys.toHashPolicy values.toHashPolicy source key value (tryAdd key value source)) ∧
      (∀ key value,
        Sets keys.toHashPolicy values.toHashPolicy source key value (set key value source)) ∧
      (∀ key, RemovesKey keys.toHashPolicy source key (tryRemoveKey key source)) ∧
      (∀ value, RemovesValue keys.toHashPolicy values.toHashPolicy source value
        (tryRemoveValue value source)) ∧
      toList (clear source) = [] := by
  obtain ⟨source, hreached⟩ := version
  have h := hreached.holds
  have hvalid := h.valid
  refine ⟨hvalid.validStructure_eq, hvalid.mirrored, h.separate, ?_, ?_, ?_, ?_, ?_, ?_,
    (clear_spec hvalid).2.2.2⟩
  · intro key
    rw [h.pairOf_eq]
    exact hvalid.forward.lookup_eq key
  · intro value
    rw [h.pairOf_inverse]
    exact hvalid.backward.lookup_eq value
  · intro key value
    rcases tryAdd_cases hvalid key value with ⟨hkey, hresult⟩ | ⟨hkey, hvalue, hresult⟩ |
      ⟨hkey, hvalue, after, hresult, hafter⟩
    · obtain ⟨pair, hpair⟩ := Option.isSome_iff_exists.mp hkey
      rw [hresult]
      exact .keyTaken ((h.pairOf_eq key).trans hpair)
    · obtain ⟨pair, hpair⟩ := Option.isSome_iff_exists.mp hvalue
      rw [hresult]
      exact .valueTaken ((h.pairOf_eq key).trans hkey) ((h.pairOf_inverse value).trans hpair)
    · rw [hresult]
      exact .added ((h.pairOf_eq key).trans hkey) ((h.pairOf_inverse value).trans hvalue)
        (h.assigns hafter)
  · intro key value
    rcases set_cases hvalid key value with ⟨⟨pair, hpair, hother⟩, hresult⟩ |
      ⟨⟨pair, hpair, hsame⟩, hresult⟩ | ⟨hvalue, after, hresult, hafter⟩
    · rw [hresult]
      exact .valueTaken ((h.pairOf_inverse value).trans hpair) (h.keys_eq ▸ hother)
    · rw [hresult]
      exact .same ((h.pairOf_inverse value).trans hpair) (h.keys_eq ▸ hsame)
    · rw [hresult]
      rw [← h.pairOf_eq] at hafter
      exact .assigned ((h.pairOf_inverse value).trans hvalue) (h.assigns hafter)
  · intro key
    rcases tryRemoveKey_cases hvalid key with ⟨hkey, hresult⟩ | ⟨pair, after, hkey, hresult, hafter⟩
    · rw [hresult]
      exact .missing ((h.pairOf_eq key).trans hkey)
    · rw [hresult]
      exact .removed ((h.pairOf_eq key).trans hkey) (h.assigns hafter)
  · intro value
    rcases tryRemoveValue_cases hvalid value with ⟨hvalue, hresult⟩ |
      ⟨pair, after, hvalue, hresult, hafter⟩
    · rw [hresult]
      exact .missing ((h.pairOf_inverse value).trans hvalue)
    · rw [hresult]
      exact .removed ((h.pairOf_inverse value).trans hvalue) (h.assigns hafter)

def parities : Version parityPolicy parityPolicy :=
  ⟨_, .tryAdd 2 5 (.tryAdd 1 2 (.emptyWith parityPolicy parityPolicy))⟩

theorem bijection_kept_parity :
    (tryAdd 3 7 parities.source).2 = some .keyConflict ∧
      Sets parityPolicy.toHashPolicy parityPolicy.toHashPolicy parities.source 0 4
        (set 0 4 parities.source) ∧
      RemovesKey parityPolicy.toHashPolicy parities.source 3 (tryRemoveKey 3 parities.source) := by
  obtain ⟨-, -, -, -, -, hadds, hsets, hremoves, -⟩ := bijection_kept parities
  refine ⟨?_, hsets 0 4, hremoves 3⟩
  have hadds := hadds 3 7
  generalize tryAdd 3 7 parities.source = result at hadds ⊢
  cases hadds with
  | keyTaken hkey => rfl
  | valueTaken hkey hvalue => exact absurd hkey (by decide +kernel)
  | added hkey hvalue hafter => exact absurd hkey (by decide +kernel)

end Durable7.Hamt.BiMap
