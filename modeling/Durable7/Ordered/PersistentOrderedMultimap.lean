import Durable7.Ordered.PersistentOrderedMap
import Mathlib.Algebra.BigOperators.Ring.Finset

/-!
# Insertion-ordered multimaps

The value of a key in an ordered map is an ordered set of values.  Every group has a value, and
the multimap counts its pairs.
-/

namespace Durable7.Ordered

open Foundation FingerTree Hamt PersistentOrderedSet PersistentOrderedMap.ListModel Int Bool List
open PersistentOrderedMap hiding Outcome add

universe u w

inductive PersistentOrderedMultimap.OrderedMultimapError where
  | groups (problem : PersistentOrderedMap.OrderedMapError)
  | values (problem : PersistentOrderedSet.OrderedError)
  | pairCountOverflow
  deriving DecidableEq

def PersistentOrderedMultimap.OrderedMultimapError.message :
    PersistentOrderedMultimap.OrderedMultimapError → String
  | .groups problem => problem.message
  | .values problem => problem.message
  | .pairCountOverflow => "PersistentOrderedMultimap pair count overflow"

structure PersistentOrderedMultimap (D : Type → Type u) (k v : Type) where
  valuesPolicy : HashPolicy v
  pairCount : Int
  groups : PersistentOrderedMap D k (PersistentOrderedSet D v)

namespace PersistentOrderedMultimap

variable {D : Type → Type u} [OrderDeque D] {k v : Type}

abbrev Outcome (β : Type w) := Except OrderedMultimapError β

def maxBound : Int := 9223372036854775807

def checkedIncrement (value : Int) : Outcome Int :=
  if value = maxBound then .error .pairCountOverflow else .ok (value + 1)

def emptyWith (keys : HashPolicy k) (values : HashPolicy v) : PersistentOrderedMultimap D k v :=
  ⟨values, 0, .emptyWith keys⟩

def keyCount (values : PersistentOrderedMultimap D k v) : Int := values.groups.size

omit [OrderDeque D] in
def size (values : PersistentOrderedMultimap D k v) : Int := values.pairCount

omit [OrderDeque D] in
def null (values : PersistentOrderedMultimap D k v) : Bool := size values == 0

omit [OrderDeque D] in
def keyPolicy (values : PersistentOrderedMultimap D k v) : HashPolicy k := values.groups.policy

omit [OrderDeque D] in
def valuePolicy (values : PersistentOrderedMultimap D k v) : HashPolicy v := values.valuesPolicy

def lookupValues (key : k) (values : PersistentOrderedMultimap D k v) :
    Option (PersistentOrderedSet D v) :=
  lookup key values.groups

def member (key : k) (value : v) (values : PersistentOrderedMultimap D k v) : Bool :=
  (lookupValues key values).elim false (contains value)

def actualKey (key : k) (values : PersistentOrderedMultimap D k v) : Option k :=
  PersistentOrderedMap.actualKey key values.groups

/-- A multimap with a group in place of that of a key. -/
def setGroup (key : k) (pairCount : Int) (group : PersistentOrderedSet D v)
    (values : PersistentOrderedMultimap D k v) : Outcome (PersistentOrderedMultimap D k v) :=
  ((set key group values.groups).mapError .groups).map fun groups =>
    ⟨values.valuesPolicy, pairCount, groups⟩

def deleteGroup (key : k) (pairCount : Int) (values : PersistentOrderedMultimap D k v) :
    Outcome (PersistentOrderedMultimap D k v) :=
  ((delete key values.groups).mapError .groups).map fun groups =>
    ⟨values.valuesPolicy, pairCount, groups⟩

def insert (key : k) (value : v) (values : PersistentOrderedMultimap D k v) :
    Outcome (PersistentOrderedMultimap D k v) :=
  match lookupValues key values with
  | none =>
      (checkedIncrement values.pairCount).bind fun pairCount =>
        ((add value (.emptyWith values.valuesPolicy)).mapError .values).bind
          fun group => setGroup key pairCount group values
  | some group =>
      if contains value group then .ok values
      else
        (checkedIncrement values.pairCount).bind fun pairCount =>
          ((add value group).mapError .values).bind fun group => setGroup key pairCount group values

def fromListWith (keys : HashPolicy k) (values : HashPolicy v) (pairs : List (k × v)) :
    Outcome (PersistentOrderedMultimap D k v) :=
  pairs.foldlM (fun current pair => insert pair.1 pair.2 current) (emptyWith keys values)

def delete (key : k) (value : v) (values : PersistentOrderedMultimap D k v) :
    Outcome (PersistentOrderedMultimap D k v) :=
  match lookupValues key values with
  | none => .ok values
  | some group =>
      ((tryRemove value group).mapError .values).bind fun removed =>
        match removed with
        | none => .ok values
        | some group =>
            if PersistentOrderedSet.null group then deleteGroup key (values.pairCount - 1) values
            else setGroup key (values.pairCount - 1) group values

def deleteKey (key : k) (values : PersistentOrderedMultimap D k v) :
    Outcome (PersistentOrderedMultimap D k v) :=
  match lookupValues key values with
  | none => .ok values
  | some group => deleteGroup key (values.pairCount - PersistentOrderedSet.size group) values

def clear (values : PersistentOrderedMultimap D k v) : PersistentOrderedMultimap D k v :=
  if null values then values else emptyWith (keyPolicy values) (valuePolicy values)

def toList (values : PersistentOrderedMultimap D k v) : Outcome (List (k × v)) :=
  ((PersistentOrderedMap.toList values.groups).mapError .groups).bind fun entries =>
    .ok (entries.flatMap fun entry => entry.2.toList.map fun value => (entry.1, value))

def validStructure (values : PersistentOrderedMultimap D k v) : Bool :=
  PersistentOrderedMap.validStructure values.groups && decide (0 ≤ values.pairCount) &&
    match PersistentOrderedMap.toList values.groups, toList values with
    | .ok entries, .ok pairs =>
        entries.all (fun entry => !PersistentOrderedSet.null entry.2) &&
          entries.all (fun entry => PersistentOrderedSet.validStructure entry.2) &&
          values.pairCount == (entries.map fun entry => PersistentOrderedSet.size entry.2).sum &&
          (pairs.length : Int) == values.pairCount
    | _, _ => false

/-- The groups of a multimap and their values, both in the order they came. -/
abbrev Groups (k v : Type) := List (k × List v)

def ListModel.total (groups : Groups k v) : Nat := (groups.map fun group => group.2.length).sum

def ListModel.pairs (groups : Groups k v) : List (k × v) :=
  groups.flatMap fun group => group.2.map fun value => (group.1, value)

def ListModel.insert (sameKey : k → k → Bool) (sameValue : v → v → Bool) (key : k) (value : v)
    (groups : Groups k v) : Groups k v :=
  match entryAt sameKey key groups with
  | none => groups ++ [(key, [value])]
  | some group =>
      if PersistentOrderedSet.ListModel.contains sameValue value group.2 then groups
      else set sameKey key (group.2 ++ [value]) groups

def ListModel.deleteKey {α : Type w} (sameKey : k → k → Bool) (key : k) (items : List (k × α)) :
    List (k × α) :=
  (tryRemove sameKey key items).getD items

def ListModel.delete (sameKey : k → k → Bool) (sameValue : v → v → Bool) (key : k) (value : v)
    (groups : Groups k v) : Groups k v :=
  match entryAt sameKey key groups with
  | none => groups
  | some group =>
      match PersistentOrderedSet.ListModel.tryRemove sameValue value group.2 with
      | none => groups
      | some [] => deleteKey sameKey key groups
      | some rest => set sameKey key rest groups

def ListModel.fromList (sameKey : k → k → Bool) (sameValue : v → v → Bool) (groups : Groups k v)
    (pairs : List (k × v)) : Groups k v :=
  pairs.foldl (fun groups pair => insert sameKey sameValue pair.1 pair.2 groups) groups

section Entries

universe x

variable {α : Type w} {β : Type x} {same : k → k → Bool}

theorem keys_map (f : α → β) (items : List (k × α)) :
    (items.map (Prod.map id f)).map Prod.fst = items.map Prod.fst := by
  rw [map_map]
  rfl

section

variable (f : α → β) (key : k)

theorem entryAt_map (items : List (k × α)) :
    entryAt same key (items.map (Prod.map id f)) =
      (entryAt same key items).map (Prod.map id f) := List.find?_map

theorem set_map (value : α) (items : List (k × α)) :
    PersistentOrderedMap.ListModel.set same key (f value) (items.map (Prod.map id f)) =
      (PersistentOrderedMap.ListModel.set same key value items).map (Prod.map id f) := by
  rw [PersistentOrderedMap.ListModel.set, PersistentOrderedMap.ListModel.set,
    PersistentOrderedMap.ListModel.contains, PersistentOrderedMap.ListModel.contains, keys_map]
  split
  · rw [map_map, map_map]
    refine map_congr_left fun pair _ => ?_
    dsimp only [Function.comp_apply, Prod.map_fst, id_eq]
    split <;> rfl
  · rw [map_append]
    rfl

theorem tryRemove_map (items : List (k × α)) :
    tryRemove same key (items.map (Prod.map id f)) =
      (tryRemove same key items).map (List.map (Prod.map id f)) := by
  rw [PersistentOrderedMap.ListModel.tryRemove, PersistentOrderedMap.ListModel.tryRemove, position,
    position, keys_map, Option.map_map]
  refine congrArg (fun g => Option.map g _) (funext fun index => ?_)
  rw [eraseIdx_map]
  rfl

theorem deleteKey_map (items : List (k × α)) :
    ListModel.deleteKey same key (items.map (Prod.map id f)) =
      (ListModel.deleteKey same key items).map (Prod.map id f) := by
  rw [ListModel.deleteKey, ListModel.deleteKey, tryRemove_map]
  cases tryRemove same key items <;> rfl

end

theorem distinct_cases (hsame : Equivalence fun left right => same left right = true)
    {items : List (k × α)} (hdistinct : Distinct same items) (key : k) :
    (entryAt same key items = none ∧
      (∀ value, set same key value items = items ++ [(key, value)]) ∧
      tryRemove same key items = none) ∨
    ∃ front pair back, items = front ++ pair :: back ∧ entryAt same key items = some pair ∧
      (∀ value, set same key value items = front ++ (pair.1, value) :: back) ∧
      tryRemove same key items = some (front ++ back) := by
  cases hentry : entryAt same key items with
  | none =>
      have hnone : ∀ item ∈ items.map Prod.fst, same key item = false := by
        intro item hitem
        obtain ⟨pair, hpair, rfl⟩ := mem_map.mp hitem
        exact entryAt_eq_none.mp hentry pair hpair
      refine .inl ⟨rfl, fun value => ?_, ?_⟩
      · refine if_neg (eq_false_iff.mp ?_)
        exact any_eq_false.mpr fun item hitem => eq_false_iff.mp (hnone item hitem)
      · rw [PersistentOrderedMap.ListModel.tryRemove, PersistentOrderedMap.ListModel.position,
          PersistentOrderedSet.ListModel.position, List.findIdx?_eq_none_iff.mpr hnone]
        rfl
  | some pair =>
      obtain ⟨hkey, front, back, rfl, hfront⟩ := entryAt_split hentry
      have hback : ∀ passed ∈ back, same key passed.1 = false := by
        intro passed hpassed
        rw [same_congr hsame hkey]
        exact (pairwise_cons.mp (pairwise_append.mp hdistinct).2.1).1 passed hpassed
      have hkept :
          ∀ {part : List (k × α)} (value : α), (∀ passed ∈ part, same key passed.1 = false) →
          part.map (fun pair => if same key pair.1 then (pair.1, value) else pair) = part := by
        intro part value hpart
        refine (map_congr_left fun passed hpassed => ?_).trans (map_id part)
        rw [if_neg (eq_false_iff.mp (hpart passed hpassed))]
        rfl
      have hpassed : (front.map Prod.fst).findIdx? (same key) = none := by
        refine List.findIdx?_eq_none_iff.mpr fun item hitem => ?_
        obtain ⟨passed, hmem, rfl⟩ := mem_map.mp hitem
        exact hfront passed hmem
      refine .inr ⟨front, pair, back, rfl, rfl, fun value => ?_, ?_⟩
      · have hcontains : contains same key (front ++ pair :: back) =
            true :=
          any_eq_true.mpr ⟨pair.1, mem_map_of_mem (mem_append_right _ mem_cons_self), hkey⟩
        rw [PersistentOrderedMap.ListModel.set, if_pos hcontains, map_append, map_cons,
          hkept value hfront, hkept value hback, if_pos hkey]
      · rw [PersistentOrderedMap.ListModel.tryRemove, PersistentOrderedMap.ListModel.position,
          PersistentOrderedSet.ListModel.position, map_append, map_cons,
          List.findIdx?_append, hpassed, List.findIdx?_cons, if_pos hkey, length_map]
        refine congrArg some ?_
        rw [show (fun index => index + front.length) 0 = front.length from Nat.zero_add _,
          eraseIdx_append_of_length_le (Nat.le_refl _), Nat.sub_self]
        rfl

end Entries

/-! ## Groups beside sets -/

variable {keyPolicy : HashPolicy k} {valuePolicy : HashPolicy v}

/-- A key with its set and with the list of the set. -/
abbrev Entry (D : Type → Type u) (k v : Type) := k × PersistentOrderedSet D v × List v

omit [OrderDeque D] in
def sets (entries : List (Entry D k v)) : List (k × PersistentOrderedSet D v) :=
  entries.map (Prod.map id Prod.fst)

omit [OrderDeque D] in
def lists (entries : List (Entry D k v)) : Groups k v := entries.map (Prod.map id Prod.snd)

structure Grouped (keyPolicy : HashPolicy k) (valuePolicy : HashPolicy v)
    (values : PersistentOrderedMultimap D k v) (entries : List (Entry D k v)) : Prop where
  groups : PersistentOrderedMap.Holds keyPolicy values.groups (sets entries)
  holds : ∀ entry ∈ entries, PersistentOrderedSet.Holds valuePolicy entry.2.1 entry.2.2
  nonempty : ∀ entry ∈ entries, entry.2.2 ≠ []
  pairCount_eq : values.pairCount = ListModel.total (lists entries)
  policy_eq : values.valuesPolicy = valuePolicy
  lawful : valuePolicy.Lawful

def Holds (keyPolicy : HashPolicy k) (valuePolicy : HashPolicy v)
    (values : PersistentOrderedMultimap D k v) (groups : Groups k v) : Prop :=
  ∃ entries, Grouped keyPolicy valuePolicy values entries ∧ lists entries = groups

/-- More groups or values than stamps, or more pairs than the source can count. -/
def Excuses (problem : OrderedMultimapError) (groups : Groups k v) : Prop :=
  (problem = .groups (.order .stampSpaceExhausted) ∧ stampCapacity < groups.length) ∨
  (problem = .values .stampSpaceExhausted ∧ ∃ group ∈ groups, stampCapacity < group.2.length) ∨
  (problem = .pairCountOverflow ∧ maxBound < ListModel.total groups)

inductive Makes (keyPolicy : HashPolicy k) (valuePolicy : HashPolicy v) :
    Outcome (PersistentOrderedMultimap D k v) → Groups k v → Prop where
  | made {made : PersistentOrderedMultimap D k v} {expected : Groups k v}
      (h : Holds keyPolicy valuePolicy made expected) :
        Makes keyPolicy valuePolicy (.ok made) expected
  | excused {problem : OrderedMultimapError} {expected : Groups k v}
      (h : Excuses problem expected) :
      Makes keyPolicy valuePolicy (.error problem) expected

theorem emptyWith_holds (hkeys : keyPolicy.Lawful) (hvalues : valuePolicy.Lawful) :
    Holds keyPolicy valuePolicy (emptyWith keyPolicy valuePolicy : PersistentOrderedMultimap D k v)
      [] := by
  have hnone : ∀ {p : Entry D k v → Prop}, ∀ entry ∈ ([] : List (Entry D k v)), p entry :=
    fun entry hentry => absurd hentry not_mem_nil
  exact ⟨[], ⟨PersistentOrderedMap.emptyWith_holds hkeys, hnone, hnone, rfl, rfl, hvalues⟩, rfl⟩

theorem total_append (left right : Groups k v) :
    ListModel.total (left ++ right) = ListModel.total left + ListModel.total right := by
  rw [ListModel.total, map_append, sum_append]
  rfl

theorem total_cons (group : k × List v) (groups : Groups k v) :
    ListModel.total (group :: groups) = group.2.length + ListModel.total groups := by
  rw [ListModel.total, map_cons, sum_cons]
  rfl

theorem makes_add {group : PersistentOrderedSet D v} {items : List v}
    (h : PersistentOrderedSet.Holds valuePolicy group items) {value : v}
    (habsent : PersistentOrderedSet.ListModel.contains valuePolicy.equalKeys value items = false) :
    PersistentOrderedSet.Makes valuePolicy (add value group) (items ++ [value]) := by
  have hinsert := insertCore_makes h (natCast_nonneg _) (le_refl _) value
  rw [PersistentOrderedSet.ListModel.insert, habsent, if_neg Bool.false_ne_true, toNat_natCast,
    PersistentOrderedSet.ListModel.placed, take_length, drop_length] at hinsert
  rw [add, h.size_eq]
  exact hinsert

section Grouped

variable {values : PersistentOrderedMultimap D k v} {entries : List (Entry D k v)}
  (h : Grouped keyPolicy valuePolicy values entries)

include h

theorem Grouped.equivalence :
    Equivalence fun left right => keyPolicy.equalKeys left right = true := h.groups.equivalence

theorem Grouped.distinct : Distinct keyPolicy.equalKeys entries := by
  have hdistinct := h.groups.distinct
  rw [apart_iff, sets, keys_map, ← apart_iff] at hdistinct
  exact hdistinct

theorem Grouped.lookup_eq (key : k) :
    lookupValues key values =
      (entryAt keyPolicy.equalKeys key entries).map fun entry => entry.2.1 := by
  rw [lookupValues, h.groups.lookup_eq, sets, entryAt_map, Option.map_map]
  rfl

theorem Grouped.setGroup_makes {key : k} {pairCount : Int} {group : PersistentOrderedSet D v}
    {items : List v} (hgroup : PersistentOrderedSet.Holds valuePolicy group items)
    (hitems : items ≠ []) (hcount : pairCount = ListModel.total
      (set keyPolicy.equalKeys key items (lists entries))) :
    Makes keyPolicy valuePolicy (setGroup key pairCount group values)
      (set keyPolicy.equalKeys key items (lists entries)) := by
  have hsets := set_makes h.groups key group
  rw [sets, set_map Prod.fst key (group, items)] at hsets
  rw [lists, set_map Prod.snd key (group, items)] at hcount ⊢
  have hmem : ∀ entry ∈ set keyPolicy.equalKeys key (group, items)
      entries, entry ∈ entries ∨ entry.2 = (group, items) := by
    intro entry hentry
    rcases distinct_cases h.equivalence h.distinct key with ⟨-, hset, -⟩ |
      ⟨front, pair, back, hentries, -, hset, -⟩
    · rw [hset] at hentry
      rcases mem_append.mp hentry with hentry | hentry
      · exact .inl hentry
      · exact .inr (mem_singleton.mp hentry ▸ rfl)
    · rw [hset] at hentry
      rw [hentries]
      rcases mem_append.mp hentry with hentry | hentry
      · exact .inl (mem_append_left _ hentry)
      · rcases mem_cons.mp hentry with rfl | hentry
        · exact .inr rfl
        · exact .inl (mem_append_right _ (mem_cons_of_mem _ hentry))
  rw [setGroup]
  generalize set key group values.groups = outcome at hsets
  generalize hexpected : (set keyPolicy.equalKeys key (group, items)
    entries).map (Prod.map id Prod.fst) = expected at hsets
  cases hsets with
  | made hmade =>
      rw [← hexpected] at hmade
      refine .made ⟨_, ⟨hmade, fun entry hentry => ?_, fun entry hentry => ?_, hcount, h.policy_eq,
        h.lawful⟩, rfl⟩
      · rcases hmem entry hentry with hold | hnew
        · exact h.holds entry hold
        · rw [hnew]
          exact hgroup
      · rcases hmem entry hentry with hold | hnew
        · exact h.nonempty entry hold
        · rw [hnew]
          exact hitems
  | exhausted hlong =>
      refine .excused (.inl ⟨rfl, ?_⟩)
      rwa [← hexpected, length_map, ← length_map (Prod.map id Prod.snd)] at hlong

theorem Grouped.deleteGroup_makes {key : k} {pairCount : Int} (hcount : pairCount = ListModel.total
      (ListModel.deleteKey keyPolicy.equalKeys key (lists entries))) :
    Makes keyPolicy valuePolicy (deleteGroup key pairCount values)
      (ListModel.deleteKey keyPolicy.equalKeys key (lists entries)) := by
  have hsets := delete_makes h.groups key
  have hfirst : ListModel.deleteKey keyPolicy.equalKeys key (entries.map (Prod.map id Prod.fst)) =
      (ListModel.deleteKey keyPolicy.equalKeys key entries).map (Prod.map id Prod.fst) :=
    deleteKey_map Prod.fst key entries
  rw [ListModel.deleteKey] at hfirst
  rw [sets, hfirst] at hsets
  rw [lists, deleteKey_map] at hcount ⊢
  have hmem : ∀ entry ∈ ListModel.deleteKey keyPolicy.equalKeys key entries, entry ∈ entries := by
    intro entry hentry
    rw [ListModel.deleteKey] at hentry
    rcases distinct_cases h.equivalence h.distinct key with ⟨-, -, hremove⟩ |
      ⟨front, pair, back, hentries, -, -, hremove⟩
    · rwa [hremove] at hentry
    · rw [hremove] at hentry
      rw [hentries]
      rcases mem_append.mp hentry with hentry | hentry
      · exact mem_append_left _ hentry
      · exact mem_append_right _ (mem_cons_of_mem _ hentry)
  rw [deleteGroup]
  generalize PersistentOrderedMap.delete key values.groups = outcome at hsets
  generalize hexpected : (ListModel.deleteKey keyPolicy.equalKeys key entries).map
    (Prod.map id Prod.fst) = expected at hsets
  cases hsets with
  | made hmade =>
      rw [← hexpected] at hmade
      exact .made ⟨_, ⟨hmade, fun entry hentry => h.holds entry (hmem entry hentry),
        fun entry hentry => h.nonempty entry (hmem entry hentry), hcount, h.policy_eq, h.lawful⟩,
          rfl⟩
  | exhausted hlong =>
      refine .excused (.inl ⟨rfl, ?_⟩)
      rwa [← hexpected, length_map, ← length_map (Prod.map id Prod.snd)] at hlong

theorem Grouped.cases (key : k) :
    (lookupValues key values = none ∧ entryAt keyPolicy.equalKeys key (lists entries) = none ∧
      (∀ items, set keyPolicy.equalKeys key items (lists entries) =
        lists entries ++ [(key, items)])) ∨
    ∃ entry ∈ entries, lookupValues key values = some entry.2.1 ∧
      entryAt keyPolicy.equalKeys key (lists entries) = some (entry.1, entry.2.2) ∧
      (∀ items, ListModel.total
        (set keyPolicy.equalKeys key items (lists entries)) +
          entry.2.2.length = ListModel.total (lists entries) + items.length) ∧
      ListModel.total (ListModel.deleteKey keyPolicy.equalKeys key (lists entries)) +
        entry.2.2.length = ListModel.total (lists entries) := by
  have hlists : entryAt keyPolicy.equalKeys key (lists entries) =
      (entryAt keyPolicy.equalKeys key entries).map (Prod.map id Prod.snd) := entryAt_map _ _ _
  have hdistinct := h.distinct
  rw [h.lookup_eq, hlists]
  have hset : ∀ items, set keyPolicy.equalKeys key items
      (lists entries) = lists (set keyPolicy.equalKeys key
        (.emptyWith valuePolicy, items) entries) :=
    fun items => set_map Prod.snd key (PersistentOrderedSet.emptyWith valuePolicy, items) entries
  rcases distinct_cases h.equivalence hdistinct key with ⟨hentry, happend, -⟩ |
    ⟨front, pair, back, hentries, hentry, hsplit, hremove⟩
  · rw [hentry]
    refine .inl ⟨rfl, rfl, fun items => ?_⟩
    rw [hset, happend, lists, map_append]
    rfl
  · rw [hentry]
    have hwhole : ListModel.total (lists entries) =
        ListModel.total (lists front) + (pair.2.2.length + ListModel.total (lists back)) := by
      rw [hentries, lists, map_append, map_cons, total_append, total_cons]
      rfl
    refine .inr ⟨pair, hentries ▸ mem_append_right _ mem_cons_self, rfl, rfl, fun items => ?_, ?_⟩
    · rw [hset, hsplit, hwhole, lists, map_append, map_cons, total_append, total_cons]
      dsimp only [Prod.map_snd, lists]
      omega
    · have hdelete : ListModel.deleteKey keyPolicy.equalKeys key (lists entries) =
          lists (front ++ back) := by
        rw [lists, deleteKey_map, ListModel.deleteKey, hremove]
        rfl
      rw [hdelete, hwhole, lists, map_append, total_append]
      dsimp only [lists]
      omega

theorem Grouped.add_makes (key : k) {value : v} {group : PersistentOrderedSet D v} {items : List v}
    (hgroup : PersistentOrderedSet.Holds valuePolicy group items)
    (habsent : PersistentOrderedSet.ListModel.contains valuePolicy.equalKeys value items = false)
    (htotal : ListModel.total (set keyPolicy.equalKeys key
      (items ++ [value]) (lists entries)) = ListModel.total (lists entries) + 1)
    (hlong : ∃ group ∈ set keyPolicy.equalKeys key (items ++ [value])
      (lists entries), group.2 = items ++ [value]) :
    Makes keyPolicy valuePolicy
      ((checkedIncrement values.pairCount).bind fun pairCount =>
        ((add value group).mapError .values).bind fun group => setGroup key pairCount group values)
      (set keyPolicy.equalKeys key (items ++ [value]) (lists entries)) := by
  rw [checkedIncrement, h.pairCount_eq]
  split
  · rename_i hfull
    refine .excused (.inr (.inr ⟨rfl, ?_⟩))
    rw [htotal]
    omega
  · rw [except_bind_ok]
    have hadd := makes_add hgroup habsent
    generalize add value group = outcome at hadd
    generalize hexpected : items ++ [value] = expected at hadd hlong ⊢
    cases hadd with
    | made hmade =>
        refine h.setGroup_makes hmade ?_ ?_
        · rw [← hexpected]
          exact append_ne_nil_of_right_ne_nil _ (cons_ne_nil _ _)
        · rw [← hexpected, htotal]
          rfl
    | exhausted hcapacity =>
        obtain ⟨group, hmem, hgroup⟩ := hlong
        exact .excused (.inr (.inl ⟨rfl, group, hmem, hgroup ▸ hcapacity⟩))

omit h in
theorem set_mem {same : k → k → Bool} {key : k} {groups : Groups k v} {group : k × List v}
    (hsame : Equivalence fun left right => same left right = true)
    (hdistinct : Distinct same groups)
    (hgroup : entryAt same key groups = some group) (items : List v) :
    (group.1, items) ∈ set same key items groups := by
  rcases distinct_cases hsame hdistinct key with ⟨hentry, -⟩ | ⟨_, pair, _, -, hentry, hset, -⟩
  · rw [hgroup] at hentry
    cases hentry
  · obtain rfl := Option.some.inj (hgroup.symm.trans hentry)
    rw [hset]
    exact mem_append_right _ mem_cons_self

theorem Grouped.distinct_lists : Distinct keyPolicy.equalKeys (lists entries) := by
  rw [apart_iff, lists, keys_map, ← apart_iff]
  exact h.distinct

theorem Grouped.insert_makes (key : k) (value : v) :
    Makes keyPolicy valuePolicy (insert key value values)
      (ListModel.insert keyPolicy.equalKeys valuePolicy.equalKeys key value (lists entries)) := by
  rw [insert, ListModel.insert]
  rcases h.cases key with ⟨hlookup, hentry, happend⟩ | ⟨entry, hmem, hlookup, hentry, htotal, -⟩
  · rw [hlookup, hentry]
    have hadd := h.add_makes key (PersistentOrderedSet.emptyWith_holds h.lawful)
      (show PersistentOrderedSet.ListModel.contains valuePolicy.equalKeys value [] = false from rfl)
    rw [nil_append, happend, total_append, total_cons] at hadd
    dsimp only
    rw [h.policy_eq]
    exact hadd rfl ⟨_, mem_append_right _ (mem_singleton_self _), rfl⟩
  · have hgroup := h.holds entry hmem
    rw [hlookup, hentry]
    dsimp only
    rw [PersistentOrderedSet.contains, hgroup.member_eq]
    cases hcontains :
      PersistentOrderedSet.ListModel.contains valuePolicy.equalKeys value entry.2.2 with
    | true =>
        rw [if_pos rfl, if_pos rfl]
        exact .made ⟨entries, h, rfl⟩
    | false =>
        rw [if_neg Bool.false_ne_true, if_neg Bool.false_ne_true]
        refine h.add_makes key hgroup hcontains ?_
          ⟨_, set_mem h.equivalence h.distinct_lists hentry _, rfl⟩
        have hsum := htotal (entry.2.2 ++ [value])
        rw [length_append, length_singleton] at hsum
        omega

theorem Grouped.delete_makes (key : k) (value : v) :
    Makes keyPolicy valuePolicy (delete key value values)
      (ListModel.delete keyPolicy.equalKeys valuePolicy.equalKeys key value (lists entries)) := by
  rw [delete, ListModel.delete]
  rcases h.cases key with ⟨hlookup, hentry, -⟩ | ⟨entry, hmem, hlookup, hentry, htotal, hdeleted⟩
  · rw [hlookup, hentry]
    exact .made ⟨entries, h, rfl⟩
  · have hgroup := h.holds entry hmem
    have hremove := tryRemove_makes hgroup value
    have hshorter : ∀ rest, PersistentOrderedSet.ListModel.tryRemove valuePolicy.equalKeys value
        entry.2.2 = some rest → rest.length + 1 = entry.2.2.length := by
      intro rest hrest
      obtain ⟨index, hindex, rfl⟩ := Option.map_eq_some_iff.mp hrest
      obtain ⟨hlt, -⟩ := List.findIdx?_eq_some_iff_getElem.mp hindex
      rw [length_eraseIdx_of_lt hlt]
      omega
    rw [hlookup, hentry]
    dsimp only
    generalize tryRemove value entry.2.1 = outcome at hremove
    generalize PersistentOrderedSet.ListModel.tryRemove valuePolicy.equalKeys value entry.2.2 =
      expected at hremove hshorter
    cases hremove with
    | nothing => exact .made ⟨entries, h, rfl⟩
    | @made made rest hmade =>
        have hlength := hshorter rest rfl
        have hnull : PersistentOrderedSet.null made = (rest.length == 0) := by
          rw [PersistentOrderedSet.null, hmade.size_eq]
          exact eq_iff_iff.mpr (by rw [beq_iff_eq, beq_iff_eq]; omega)
        rw [show (Except.ok (some made)).mapError OrderedMultimapError.values = .ok (some made)
          from rfl, except_bind_ok]
        dsimp only
        rw [hnull]
        cases rest with
        | nil =>
            refine h.deleteGroup_makes ?_
            rw [h.pairCount_eq]
            rw [length_nil] at hlength
            omega
        | cons first rest =>
            refine h.setGroup_makes hmade (cons_ne_nil _ _) ?_
            have hsum := htotal (first :: rest)
            rw [h.pairCount_eq]
            omega
    | @exhausted rest hlong =>
        cases rest with
        | nil => cases hlong
        | cons first rest =>
            exact .excused (.inr (.inl ⟨rfl, _,
              set_mem h.equivalence h.distinct_lists hentry (first :: rest), hlong⟩))

theorem Grouped.deleteKey_makes (key : k) :
    Makes keyPolicy valuePolicy (deleteKey key values)
      (ListModel.deleteKey keyPolicy.equalKeys key (lists entries)) := by
  rw [deleteKey]
  rcases h.cases key with ⟨hlookup, hentry, -⟩ | ⟨entry, hmem, hlookup, hentry, -, hdeleted⟩
  · rw [hlookup]
    rcases distinct_cases h.equivalence h.distinct_lists key with ⟨-, -, hremove⟩ |
      ⟨_, _, _, -, hsome, -⟩
    · rw [ListModel.deleteKey, hremove]
      exact .made ⟨entries, h, rfl⟩
    · rw [hentry] at hsome
      cases hsome
  · rw [hlookup]
    refine h.deleteGroup_makes ?_
    rw [(h.holds entry hmem).size_eq, h.pairCount_eq]
    omega

theorem Grouped.clear_holds : Holds keyPolicy valuePolicy (clear values) [] := by
  rw [clear, null, size, h.pairCount_eq]
  split
  · rename_i hzero
    have htotal : ListModel.total (lists entries) = 0 := ofNat.inj (beq_iff_eq.mp hzero)
    cases entries with
    | nil => exact ⟨[], h, rfl⟩
    | cons entry entries =>
        rw [lists, map_cons, total_cons] at htotal
        have hnil : entry.2.2.length = 0 := Nat.eq_zero_of_add_eq_zero_right htotal
        exact absurd (length_eq_zero_iff.mp hnil) (h.nonempty entry mem_cons_self)
  · rw [PersistentOrderedMultimap.keyPolicy, PersistentOrderedMultimap.valuePolicy,
      h.groups.policyOf, h.policy_eq]
    exact emptyWith_holds h.groups.lawful h.lawful

end Grouped

section Insertions

variable {sameKey : k → k → Bool} {sameValue : v → v → Bool} {groups : Groups k v}
  (hsame : Equivalence fun left right => sameKey left right = true)
  (hdistinct : Distinct sameKey groups)

include hsame hdistinct

omit [OrderDeque D] in
theorem insert_cases (sameValue : v → v → Bool) (key : k) (value : v) :
    ListModel.insert sameKey sameValue key value groups = groups ∨
    (entryAt sameKey key groups = none ∧
      ListModel.insert sameKey sameValue key value groups = groups ++ [(key, [value])]) ∨
    ∃ front pair back, groups = front ++ pair :: back ∧
      ListModel.insert sameKey sameValue key value groups =
        front ++ (pair.1, pair.2 ++ [value]) :: back := by
  rw [ListModel.insert]
  rcases distinct_cases hsame hdistinct key with ⟨hentry, -⟩ |
    ⟨front, pair, back, hgroups, hentry, hset, -⟩
  · rw [hentry]
    exact .inr (.inl ⟨rfl, rfl⟩)
  · rw [hentry]
    dsimp only
    split
    · exact .inl rfl
    · exact .inr (.inr ⟨front, pair, back, hgroups, hset _⟩)

theorem insert_distinct (key : k) (value : v) :
    Distinct sameKey (ListModel.insert sameKey sameValue key value groups) := by
  rcases insert_cases hsame hdistinct sameValue key value with hkept | ⟨hentry, hadded⟩ |
    ⟨front, pair, back, hgroups, hchanged⟩
  · rw [hkept]
    exact hdistinct
  · rw [hadded]
    exact hdistinct.append_absent hsame hentry [value]
  · rw [hgroups, apart_iff, map_append, map_cons] at hdistinct
    rw [hchanged, apart_iff, map_append, map_cons]
    exact hdistinct

theorem insert_excuses {problem : OrderedMultimapError} (h : Excuses problem groups) (key : k)
    (value : v) : Excuses problem (ListModel.insert sameKey sameValue key value groups) := by
  rcases insert_cases hsame hdistinct sameValue key value with hkept | ⟨-, hadded⟩ |
    ⟨front, pair, back, hgroups, hchanged⟩
  · rw [hkept]
    exact h
  · rw [hadded]
    refine h.imp (fun ⟨hproblem, hlong⟩ => ⟨hproblem, ?_⟩) (Or.imp
      (fun ⟨hproblem, group, hmem, hlong⟩ => ⟨hproblem, group, mem_append_left _ hmem, hlong⟩)
      fun ⟨hproblem, hlong⟩ => ⟨hproblem, ?_⟩)
    · rw [length_append]
      exact Nat.lt_add_right _ hlong
    · rw [total_append]
      omega
  · rw [hchanged]
    rw [hgroups] at h
    refine h.imp (fun ⟨hproblem, hlong⟩ => ⟨hproblem, ?_⟩) (Or.imp
      (fun ⟨hproblem, group, hmem, hlong⟩ => ⟨hproblem, ?_⟩)
      fun ⟨hproblem, hlong⟩ => ⟨hproblem, ?_⟩)
    · rw [length_append, length_cons] at hlong ⊢
      exact hlong
    · rcases mem_append.mp hmem with hmem | hmem
      · exact ⟨group, mem_append_left _ hmem, hlong⟩
      rcases mem_cons.mp hmem with rfl | hmem
      · refine ⟨_, mem_append_right _ mem_cons_self, ?_⟩
        rw [length_append]
        exact Nat.lt_add_right _ hlong
      · exact ⟨group, mem_append_right _ (mem_cons_of_mem _ hmem), hlong⟩
    · rw [total_append, total_cons] at hlong ⊢
      rw [length_append]
      omega

end Insertions

variable {values : PersistentOrderedMultimap D k v}

theorem Holds.distinct {groups : Groups k v}
    (h : Holds keyPolicy valuePolicy values groups) : Distinct keyPolicy.equalKeys groups := by
  obtain ⟨entries, hgrouped, rfl⟩ := h
  exact hgrouped.distinct_lists

theorem foldlM_insert_makes (hkeys : keyPolicy.Lawful) {groups : Groups k v}
    (h : Holds keyPolicy valuePolicy values groups) (pairs : List (k × v)) :
    Makes keyPolicy valuePolicy
      (pairs.foldlM (fun current pair => insert pair.1 pair.2 current) values)
      (ListModel.fromList keyPolicy.equalKeys valuePolicy.equalKeys groups pairs) := by
  have hsame := hkeys.equivalence
  have hexcuses : ∀ {problem : OrderedMultimapError} (pairs : List (k × v)) {groups : Groups k v},
      Distinct keyPolicy.equalKeys groups → Excuses problem groups →
      Excuses problem
        (ListModel.fromList keyPolicy.equalKeys valuePolicy.equalKeys groups pairs) := by
    intro problem pairs
    induction pairs with
    | nil => exact fun _ h => h
    | cons pair pairs ih =>
        exact fun hdistinct h => ih (insert_distinct hsame hdistinct pair.1 pair.2)
          (insert_excuses hsame hdistinct h pair.1 pair.2)
  induction pairs generalizing values groups with
  | nil => exact .made h
  | cons pair pairs ih =>
      have hnext : Distinct keyPolicy.equalKeys
          (ListModel.insert keyPolicy.equalKeys valuePolicy.equalKeys pair.1 pair.2 groups) :=
        insert_distinct hsame h.distinct pair.1 pair.2
      obtain ⟨entries, hgrouped, rfl⟩ := h
      have hinsert := hgrouped.insert_makes pair.1 pair.2
      have hrest : ListModel.fromList keyPolicy.equalKeys valuePolicy.equalKeys (lists entries)
          (pair :: pairs) = ListModel.fromList keyPolicy.equalKeys valuePolicy.equalKeys
            (ListModel.insert keyPolicy.equalKeys valuePolicy.equalKeys pair.1 pair.2
              (lists entries)) pairs := rfl
      rw [foldlM_cons, hrest]
      generalize ListModel.insert keyPolicy.equalKeys valuePolicy.equalKeys pair.1 pair.2
        (lists entries) = expected at hinsert hnext ⊢
      generalize insert pair.1 pair.2 values = outcome at hinsert ⊢
      cases hinsert with
      | made hmade => exact ih hmade
      | excused hproblem => exact .excused (hexcuses pairs hnext hproblem)

/-- One edit.  Versions are numbered in the order they were made. -/
inductive Edit (k v : Type) where
  | emptyWith
  | fromListWith (pairs : List (k × v))
  | insert (key : k) (value : v) (version : Nat)
  | delete (key : k) (value : v) (version : Nat)
  | deleteKey (key : k) (version : Nat)
  | clear (version : Nat)

def single (outcome : Outcome (PersistentOrderedMultimap D k v)) :
    Outcome (List (PersistentOrderedMultimap D k v)) :=
  outcome.map fun made => [made]

def produce (keyPolicy : HashPolicy k) (valuePolicy : HashPolicy v)
    (versions : List (PersistentOrderedMultimap D k v)) :
    Edit k v → Outcome (List (PersistentOrderedMultimap D k v))
  | .emptyWith => .ok [emptyWith keyPolicy valuePolicy]
  | .fromListWith pairs => single (fromListWith keyPolicy valuePolicy pairs)
  | .insert key value version => onVersion versions version fun values =>
      single (insert key value values)
  | .delete key value version => onVersion versions version fun values =>
      single (delete key value values)
  | .deleteKey key version => onVersion versions version fun values => single (deleteKey key values)
  | .clear version => onVersion versions version fun values => .ok [clear values]

/-- The groups an edit adds where they can be stamped and counted. -/
def ListModel.produce (sameKey : k → k → Bool) (sameValue : v → v → Bool)
    (models : List (Groups k v)) : Edit k v → List (Groups k v)
  | .emptyWith => [[]]
  | .fromListWith pairs => [fromList sameKey sameValue [] pairs]
  | .insert key value version => onModel models version fun groups =>
      [insert sameKey sameValue key value groups]
  | .delete key value version => onModel models version fun groups =>
      [delete sameKey sameValue key value groups]
  | .deleteKey key version => onModel models version fun groups => [deleteKey sameKey key groups]
  | .clear version => onModel models version fun _ => [[]]

def Exhausts (problem : OrderedMultimapError) (expected : List (Groups k v)) : Prop :=
  ∃ groups ∈ expected, Excuses problem groups

theorem Makes.adds {outcome : Outcome (PersistentOrderedMultimap D k v)} {expected : Groups k v}
    (h : Makes keyPolicy valuePolicy outcome expected) :
    AddsOr (Holds keyPolicy valuePolicy) Exhausts (single outcome) [expected] := by
  cases h with
  | made h => exact addsOr_ok (.cons h .nil)
  | excused h => exact addsOr_error ⟨expected, mem_cons_self, h⟩

theorem produce_adds (hkeys : keyPolicy.Lawful) (hvalues : valuePolicy.Lawful)
    (versions : List (PersistentOrderedMultimap D k v)) (models : List (Groups k v))
    (edit : Edit k v) (h : List.Forall₂ (Holds keyPolicy valuePolicy) versions models) :
    AddsOr (Holds keyPolicy valuePolicy) Exhausts (produce keyPolicy valuePolicy versions edit)
      (ListModel.produce keyPolicy.equalKeys valuePolicy.equalKeys models edit) := by
  cases edit with
  | emptyWith => exact addsOr_ok (.cons (emptyWith_holds hkeys hvalues) .nil)
  | fromListWith pairs =>
      exact (foldlM_insert_makes hkeys (emptyWith_holds hkeys hvalues) pairs).adds
  | insert key value version =>
      refine onVersion_addsOr h version fun values groups hvalues => ?_
      obtain ⟨entries, hgrouped, rfl⟩ := hvalues
      exact (hgrouped.insert_makes key value).adds
  | delete key value version =>
      refine onVersion_addsOr h version fun values groups hvalues => ?_
      obtain ⟨entries, hgrouped, rfl⟩ := hvalues
      exact (hgrouped.delete_makes key value).adds
  | deleteKey key version =>
      refine onVersion_addsOr h version fun values groups hvalues => ?_
      obtain ⟨entries, hgrouped, rfl⟩ := hvalues
      exact (hgrouped.deleteKey_makes key).adds
  | clear version =>
      refine onVersion_addsOr h version fun values groups hvalues => ?_
      obtain ⟨entries, hgrouped, rfl⟩ := hvalues
      exact addsOr_ok (.cons hgrouped.clear_holds .nil)

/-- What a multimap shows of its groups. -/
structure Observes (keyPolicy : HashPolicy k) (valuePolicy : HashPolicy v)
    (values : PersistentOrderedMultimap D k v) (groups : Groups k v) : Prop where
  valid : validStructure values = true
  listed : toList values = .ok (ListModel.pairs groups)
  nonempty : ∀ group ∈ groups, group.2 ≠ []
  distinct : Distinct keyPolicy.equalKeys groups
  apart : ∀ group ∈ groups, PersistentOrderedSet.Apart valuePolicy.equalKeys group.2
  sized : size values = ListModel.total groups
  keyed : keyCount values = groups.length
  orderIndex : values.groups.keys.toList = groups.map Prod.fst
  valueIndex : ((HashMap.toList values.groups.payloads).map Prod.fst).Perm (groups.map Prod.fst)
  group : ∀ key, (lookupValues key values).map PersistentOrderedSet.toList =
    (entryAt keyPolicy.equalKeys key groups).map Prod.snd
  member : ∀ key value, member key value values =
    ((entryAt keyPolicy.equalKeys key groups).elim false fun group =>
      PersistentOrderedSet.ListModel.contains valuePolicy.equalKeys value group.2)
  storedKey : ∀ key, actualKey key values = (entryAt keyPolicy.equalKeys key groups).map Prod.fst

section Reading

variable {values : PersistentOrderedMultimap D k v} {entries : List (Entry D k v)}
  (h : Grouped keyPolicy valuePolicy values entries)

include h

theorem Grouped.toList_eq : toList values = .ok (ListModel.pairs (lists entries)) := by
  rw [toList, h.groups.toList_eq,
    show (Except.ok (sets entries)).mapError OrderedMultimapError.groups =
    .ok (sets entries) from rfl, except_bind_ok, ListModel.pairs, sets, lists, flatMap_map,
    flatMap_map]
  refine congrArg Except.ok (flatMap_congr fun entry hentry => ?_)
  exact congrArg (List.map _) (h.holds entry hentry).items_eq

omit [OrderDeque D] h in
theorem length_pairs (groups : Groups k v) :
    (ListModel.pairs groups).length = ListModel.total groups := by
  rw [ListModel.pairs, length_flatMap, ListModel.total]
  exact congrArg List.sum (map_congr_left fun group _ => length_map _)

theorem Grouped.validStructure_eq : validStructure values = true := by
  have hnonempty : (sets entries).all (fun entry => !PersistentOrderedSet.null entry.2) = true := by
    refine all_eq_true.mpr fun pair hpair => ?_
    obtain ⟨entry, hentry, rfl⟩ := mem_map.mp hpair
    have hlength := length_pos_iff.mpr (h.nonempty entry hentry)
    rw [not_eq_true', PersistentOrderedSet.null, Prod.map_snd, (h.holds entry hentry).size_eq]
    exact beq_eq_false_iff_ne.mpr (by omega)
  have hvalid :
      (sets entries).all (fun entry => PersistentOrderedSet.validStructure entry.2) = true := by
    refine all_eq_true.mpr fun pair hpair => ?_
    obtain ⟨entry, hentry, rfl⟩ := mem_map.mp hpair
    exact (h.holds entry hentry).validStructure_eq
  have hsum : ((sets entries).map fun entry => PersistentOrderedSet.size entry.2).sum =
      (ListModel.total (lists entries) : Int) := by
    rw [ListModel.total, lists, sets, map_map, map_map, Nat.cast_list_sum, map_map]
    exact congrArg List.sum (map_congr_left fun entry hentry => (h.holds entry hentry).size_eq)
  rw [validStructure, PersistentOrderedMap.validStructure_eq h.groups, h.groups.toList_eq,
    h.toList_eq,
    h.pairCount_eq]
  dsimp only
  rw [hnonempty, hvalid, hsum, length_pairs, BEq.rfl, decide_eq_true (natCast_nonneg _)]
  rfl

theorem Grouped.observes : Observes keyPolicy valuePolicy values (lists entries) where
  valid := h.validStructure_eq
  listed := h.toList_eq
  nonempty group hgroup := by
    obtain ⟨entry, hentry, rfl⟩ := mem_map.mp hgroup
    exact h.nonempty entry hentry
  distinct := h.distinct_lists
  apart group hgroup := by
    obtain ⟨entry, hentry, rfl⟩ := mem_map.mp hgroup
    exact (h.holds entry hentry).apart
  sized := h.pairCount_eq
  keyed := by rw [keyCount, h.groups.size_eq, sets, lists, length_map, length_map]
  orderIndex := by rw [lists, keys_map, h.groups.keys.items_eq, sets, keys_map]
  valueIndex := by
    rw [lists, keys_map, ← keys_map Prod.fst entries]
    exact (payloads_perm h.groups).map Prod.fst
  group key := by
    rw [h.lookup_eq, lists, entryAt_map, Option.map_map, Option.map_map]
    cases hentry : entryAt keyPolicy.equalKeys key entries with
    | none => rfl
    | some entry => exact congrArg some (h.holds entry (mem_of_entryAt hentry).1).items_eq
  member key value := by
    rw [member, h.lookup_eq, lists, entryAt_map]
    cases hentry : entryAt keyPolicy.equalKeys key entries with
    | none => rfl
    | some entry => exact (h.holds entry (mem_of_entryAt hentry).1).member_eq value
  storedKey key := by
    rw [actualKey, PersistentOrderedMap.actualKey_eq h.groups, lists, sets, entryAt_map,
      entryAt_map,
      Option.map_map, Option.map_map]
    rfl

end Reading

/-- Every version of every branching history shows its groups, and an edit fails only where it has
more groups, values or pairs than can be stamped or counted. -/
theorem histories_exact (hkeys : keyPolicy.Lawful) (hvalues : valuePolicy.Lawful)
    (edits : List (Edit k v)) :
    ∃ models,
      Grows (fun models edit => Excused Exhausts
        (ListModel.produce keyPolicy.equalKeys valuePolicy.equalKeys models edit)) [] edits models ∧
      List.Forall₂ (Observes keyPolicy valuePolicy)
        (grow (produce keyPolicy valuePolicy) ([] : List (PersistentOrderedMultimap D k v)) edits)
        models ∧
      ∀ edit, AddsOr (Observes keyPolicy valuePolicy) Exhausts
        (produce keyPolicy valuePolicy
          (grow (produce keyPolicy valuePolicy) ([] : List (PersistentOrderedMultimap D k v)) edits)
          edit)
        (ListModel.produce keyPolicy.equalKeys valuePolicy.equalKeys models edit) := by
  refine grow_addsOr (fun values groups h => ?_) (produce_adds hkeys hvalues) edits
  obtain ⟨entries, hgrouped, rfl⟩ := h
  exact hgrouped.observes

/-- Ordered maps and ordered multimaps keep their indexes in step in every branching history. -/
theorem indexes_exact {α : Type w} (keys : HashMap.LawfulPolicy k) (values : HashMap.LawfulPolicy v)
    (mapEdits : List (PersistentOrderedMap.Edit k α)) (edits : List (Edit k v)) :
    (∃ models,
      Grows (fun models edit => Excused PersistentOrderedMap.Exhausts
        (PersistentOrderedMap.ListModel.produce keys.equalKeys models edit)) [] mapEdits models ∧
      List.Forall₂ (PersistentOrderedMap.Observes keys.toHashPolicy)
        (grow (PersistentOrderedMap.produce keys.toHashPolicy)
          ([] : List (PersistentOrderedMap D k α)) mapEdits) models ∧
      ∀ edit, AddsOr (PersistentOrderedMap.Observes keys.toHashPolicy) PersistentOrderedMap.Exhausts
        (PersistentOrderedMap.produce keys.toHashPolicy
          (grow (PersistentOrderedMap.produce keys.toHashPolicy)
            ([] : List (PersistentOrderedMap D k α)) mapEdits) edit)
        (PersistentOrderedMap.ListModel.produce keys.equalKeys models edit)) ∧
    ∃ models,
      Grows (fun models edit => Excused Exhausts
        (ListModel.produce keys.equalKeys values.equalKeys models edit)) [] edits models ∧
      List.Forall₂ (Observes keys.toHashPolicy values.toHashPolicy)
        (grow (produce keys.toHashPolicy values.toHashPolicy)
          ([] : List (PersistentOrderedMultimap D k v)) edits) models ∧
      ∀ edit, AddsOr (Observes keys.toHashPolicy values.toHashPolicy) Exhausts
        (produce keys.toHashPolicy values.toHashPolicy
          (grow (produce keys.toHashPolicy values.toHashPolicy)
            ([] : List (PersistentOrderedMultimap D k v)) edits) edit)
        (ListModel.produce keys.equalKeys values.equalKeys models edit) :=
  ⟨PersistentOrderedMap.histories_exact keys.lawful mapEdits,
    histories_exact keys.lawful values.lawful edits⟩

end PersistentOrderedMultimap

end Durable7.Ordered
