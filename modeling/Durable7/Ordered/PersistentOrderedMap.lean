import Durable7.Ordered.PersistentOrderedSet.Histories

/-!
# Insertion-ordered maps

An ordered set keeps the keys, a hash map their values.  Both have the same keys, and an update
of a present key keeps its position and the stored key.
-/

namespace Durable7.Ordered

open Foundation FingerTree Hamt HashMap PersistentOrderedSet List

universe u w z

inductive PersistentOrderedMap.OrderedMapError where
  | order (problem : PersistentOrderedSet.OrderedError)
  | indexesDisagree
  deriving DecidableEq

def PersistentOrderedMap.OrderedMapError.message : PersistentOrderedMap.OrderedMapError → String
  | .order problem => problem.message
  | .indexesDisagree => "PersistentOrderedMap indexes disagree"

structure PersistentOrderedMap (D : Type → Type u) (k : Type) (v : Type z) where
  keys : PersistentOrderedSet D k
  payloads : HashMap k v

namespace PersistentOrderedMap

variable {D : Type → Type u} [OrderDeque D] {k : Type} {v : Type z}

abbrev Outcome (β : Type w) := Except OrderedMapError β

/-- An error of the order index is an error of the map. -/
def ordered {β : Type w} (outcome : Except PersistentOrderedSet.OrderedError β) : Outcome β :=
  outcome.mapError .order

def emptyWith (hashPolicy : HashPolicy k) : PersistentOrderedMap D k v :=
  ⟨.emptyWith hashPolicy, HashMap.emptyWith hashPolicy⟩

def size (map : PersistentOrderedMap D k v) : Int := map.keys.size

omit [OrderDeque D] in
def policy (map : PersistentOrderedMap D k v) : HashPolicy k := map.keys.policy

def member (key : k) (map : PersistentOrderedMap D k v) : Bool := HashMap.member key map.payloads

def lookup (key : k) (map : PersistentOrderedMap D k v) : Option v :=
  HashMap.lookup key map.payloads

def actualKey (key : k) (map : PersistentOrderedMap D k v) : Option k := map.keys.actualValue key

def entryAt? (index : Int) (map : PersistentOrderedMap D k v) : Option (k × v) :=
  (map.keys.at? index).bind fun key => (HashMap.lookup key map.payloads).map fun value =>
    (key, value)

def indexOf (key : k) (map : PersistentOrderedMap D k v) : Outcome Int :=
  ordered (map.keys.indexOf key)

/-- A key beside its value. -/
def attach (map : PersistentOrderedMap D k v) (key : k) : Outcome (k × v) :=
  match lookup key map with
  | some value => .ok (key, value)
  | none => .error .indexesDisagree

def toList (map : PersistentOrderedMap D k v) : Outcome (List (k × v)) :=
  map.keys.toList.mapM (attach map)

/-! ## Edits -/

def insertAt (index : Int) (key : k) (value : v) (map : PersistentOrderedMap D k v) :
    Outcome (Option (PersistentOrderedMap D k v)) :=
  if index < 0 ∨ index > size map then .ok none
  else if member key map then .ok none
  else (ordered (map.keys.insertAt index key)).map fun nextKeys =>
    nextKeys.map fun keys => ⟨keys, insert key value map.payloads⟩

def add (key : k) (value : v) (map : PersistentOrderedMap D k v) :
    Outcome (Option (PersistentOrderedMap D k v)) :=
  insertAt (size map) key value map

def addFirst (key : k) (value : v) (map : PersistentOrderedMap D k v) :
    Outcome (Option (PersistentOrderedMap D k v)) :=
  insertAt 0 key value map

def set (key : k) (value : v) (map : PersistentOrderedMap D k v) :
    Outcome (PersistentOrderedMap D k v) :=
  if member key map then .ok ⟨map.keys, insert key value map.payloads⟩
  else (ordered (map.keys.add key)).map fun keys => ⟨keys, insert key value map.payloads⟩

def fromListWith (hashPolicy : HashPolicy k) (pairs : List (k × v)) :
    Outcome (PersistentOrderedMap D k v) :=
  pairs.foldlM (fun current pair => set pair.1 pair.2 current) (emptyWith hashPolicy)

def moveWith (edit : PersistentOrderedSet D k →
      PersistentOrderedSet.Outcome (Option (PersistentOrderedSet D k)))
    (map : PersistentOrderedMap D k v) : Outcome (Option (PersistentOrderedMap D k v)) :=
  (ordered (edit map.keys)).map fun moved => moved.map fun keys => ⟨keys, map.payloads⟩

def moveToFirst (key : k) (map : PersistentOrderedMap D k v) :
    Outcome (Option (PersistentOrderedMap D k v)) :=
  moveWith (PersistentOrderedSet.moveToFirst key) map

def moveToLast (key : k) (map : PersistentOrderedMap D k v) :
    Outcome (Option (PersistentOrderedMap D k v)) :=
  moveWith (PersistentOrderedSet.moveToLast key) map

def moveTo (index : Int) (key : k) (map : PersistentOrderedMap D k v) :
    Outcome (Option (PersistentOrderedMap D k v)) :=
  moveWith (PersistentOrderedSet.moveTo index key) map

def tryRemove (key : k) (map : PersistentOrderedMap D k v) :
    Outcome (Option (PersistentOrderedMap D k v)) :=
  (ordered (map.keys.tryRemove key)).map fun removed =>
    removed.map fun keys => ⟨keys, delete key map.payloads⟩

def delete (key : k) (map : PersistentOrderedMap D k v) : Outcome (PersistentOrderedMap D k v) :=
  (tryRemove key map).map fun removed => removed.getD map

def deleteAt (index : Int) (map : PersistentOrderedMap D k v) :
    Outcome (Option (PersistentOrderedMap D k v)) :=
  match map.keys.at? index with
  | none => .ok none
  | some key =>
      (ordered (map.keys.deleteAt index)).map fun removed =>
        removed.map fun keys => ⟨keys, HashMap.delete key map.payloads⟩

def removeFirst (map : PersistentOrderedMap D k v) :
    Outcome (Option (PersistentOrderedMap D k v)) :=
  deleteAt 0 map

def removeLast (map : PersistentOrderedMap D k v) : Outcome (Option (PersistentOrderedMap D k v)) :=
  deleteAt (size map - 1) map

def clear (map : PersistentOrderedMap D k v) : PersistentOrderedMap D k v := emptyWith (policy map)

def getRange (index count : Int) (map : PersistentOrderedMap D k v) :
    Option (PersistentOrderedMap D k v) :=
  (map.keys.getRange index count).map fun nextKeys =>
    let nextValues := HashMap.fromListWith (policy map) (nextKeys.toList.filterMap fun key =>
      (HashMap.lookup key map.payloads).map fun value => (key, value))
    ⟨nextKeys, nextValues⟩

def take (count : Int) (map : PersistentOrderedMap D k v) : Option (PersistentOrderedMap D k v) :=
  getRange 0 count map

def drop (count : Int) (map : PersistentOrderedMap D k v) : Option (PersistentOrderedMap D k v) :=
  getRange count (size map - count) map

def reverse (map : PersistentOrderedMap D k v) : Outcome (PersistentOrderedMap D k v) :=
  (ordered map.keys.reverse).map fun keys => ⟨keys, map.payloads⟩

def compareKeys (compareEntries : k × v → k × v → Ordering) (map : PersistentOrderedMap D k v)
    (left right : k) : Ordering :=
  match lookup left map, lookup right map with
  | some leftValue, some rightValue => compareEntries (left, leftValue) (right, rightValue)
  | _, _ => .eq

/-- A comparison that finds no value stops the sort, so each key looks for its own first. -/
def sortBy (compareEntries : k × v → k × v → Ordering) (map : PersistentOrderedMap D k v) :
    Outcome (PersistentOrderedMap D k v) :=
  (toList map).bind fun _ =>
    (ordered (map.keys.sortBy (compareKeys compareEntries map))).map fun keys =>
      ⟨keys, map.payloads⟩

def validStructure (map : PersistentOrderedMap D k v) : Bool :=
  map.keys.validStructure && HashMap.validStructure map.payloads &&
    map.keys.size == (map.payloads.size : Int) &&
    map.keys.toList.all (fun key => HashMap.member key map.payloads) &&
    (HashMap.toList map.payloads).all (fun pair => map.keys.contains pair.1) &&
    match toList map with
    | .ok entries => (entries.length : Int) == size map
    | .error _ => false

open PersistentOrderedSet

def ListModel.position (same : k → k → Bool) (key : k) (items : List (k × v)) : Option Nat :=
  PersistentOrderedSet.ListModel.position same key (items.map Prod.fst)

def ListModel.contains (same : k → k → Bool) (key : k) (items : List (k × v)) : Bool :=
  PersistentOrderedSet.ListModel.contains same key (items.map Prod.fst)

def ListModel.insertAt (same : k → k → Bool) (index : Int) (key : k) (value : v)
    (items : List (k × v)) : Option (List (k × v)) :=
  if index < 0 ∨ index > items.length then none
  else if contains same key items then none
  else some (ListModel.placed index.toNat (key, value) items)

/-- A present key keeps its place and its representative. -/
def ListModel.set (same : k → k → Bool) (key : k) (value : v) (items : List (k × v)) :
    List (k × v) :=
  if contains same key items then
    items.map fun pair => if same key pair.1 then (pair.1, value) else pair
  else items ++ [(key, value)]

def ListModel.moveTo (same : k → k → Bool) (index : Nat) (key : k) (items : List (k × v)) :
    Option (List (k × v)) :=
  (position same key items).bind fun old =>
    items[old]?.map fun stored => ListModel.placed index stored (items.eraseIdx old)

def ListModel.tryRemove (same : k → k → Bool) (key : k) (items : List (k × v)) :
    Option (List (k × v)) :=
  (position same key items).map items.eraseIdx

/-! ## The two indexes -/

variable {hashPolicy : HashPolicy k}

/-- The order index lists the keys, the value index has the pairs. -/
structure Holds (hashPolicy : HashPolicy k) (map : PersistentOrderedMap D k v)
    (items : List (k × v)) : Prop where
  keys : PersistentOrderedSet.Holds hashPolicy map.keys (items.map Prod.fst)
  wellFormed : map.payloads.WellFormed
  policy_eq : map.payloads.policy = hashPolicy
  entryOf_eq : ∀ key, entryOf map.payloads key = entryAt hashPolicy.equalKeys key items

inductive Makes (hashPolicy : HashPolicy k) :
    Outcome (PersistentOrderedMap D k v) → List (k × v) → Prop where
  | made {made : PersistentOrderedMap D k v} {expected : List (k × v)}
      (h : Holds hashPolicy made expected) : Makes hashPolicy (.ok made) expected
  | exhausted {expected : List (k × v)} (h : stampCapacity < expected.length) :
      Makes hashPolicy (.error (.order .stampSpaceExhausted)) expected

inductive MakesOption (hashPolicy : HashPolicy k) :
    Outcome (Option (PersistentOrderedMap D k v)) → Option (List (k × v)) → Prop where
  | nothing : MakesOption hashPolicy (.ok none) none
  | made {made : PersistentOrderedMap D k v} {expected : List (k × v)}
      (h : Holds hashPolicy made expected) :
        MakesOption hashPolicy (.ok (some made)) (some expected)
  | exhausted {expected : List (k × v)} (h : stampCapacity < expected.length) :
      MakesOption hashPolicy (.error (.order .stampSpaceExhausted)) (some expected)

variable {finish : PersistentOrderedSet D k → PersistentOrderedMap D k v}

theorem makes_of_keys {outcome : PersistentOrderedSet.Outcome (PersistentOrderedSet D k)}
    {expected : List (k × v)}
    (h : PersistentOrderedSet.Makes hashPolicy outcome (expected.map Prod.fst))
    (hfinish : ∀ keys, PersistentOrderedSet.Holds hashPolicy keys (expected.map Prod.fst) →
      Holds hashPolicy (finish keys) expected) :
    Makes hashPolicy ((ordered outcome).map finish) expected := by
  generalize hkeys : expected.map Prod.fst = keys at h
  cases h with
  | made hmade => exact .made (hfinish _ (hkeys ▸ hmade))
  | exhausted hlong =>
      refine .exhausted ?_
      rwa [← hkeys, length_map] at hlong

theorem makesOption_of_keys
    {outcome : PersistentOrderedSet.Outcome (Option (PersistentOrderedSet D k))}
    {expected : Option (List (k × v))}
    (h : PersistentOrderedSet.MakesOption hashPolicy outcome (expected.map (List.map Prod.fst)))
    (hfinish : ∀ keys items, expected = some items →
      PersistentOrderedSet.Holds hashPolicy keys (items.map Prod.fst) →
      Holds hashPolicy (finish keys) items) :
    MakesOption hashPolicy ((ordered outcome).map fun made => made.map finish) expected := by
  cases expected with
  | none =>
      cases h
      exact .nothing
  | some items =>
      rw [Option.map_some] at h
      generalize hkeys : items.map Prod.fst = keys at h
      cases h with
      | made hmade => exact .made (hfinish _ items rfl (hkeys ▸ hmade))
      | exhausted hlong =>
          refine .exhausted ?_
          rwa [← hkeys, length_map] at hlong

theorem emptyWith_holds (hlawful : hashPolicy.Lawful) :
    Holds hashPolicy (emptyWith hashPolicy : PersistentOrderedMap D k v) [] :=
  ⟨PersistentOrderedSet.emptyWith_holds hlawful, HashMap.emptyWith_wellFormed hlawful, rfl,
    fun _ => rfl⟩

section Holds

variable {map : PersistentOrderedMap D k v} {items : List (k × v)} (h : Holds hashPolicy map items)

include h

theorem Holds.lawful : hashPolicy.Lawful := h.policy_eq ▸ h.wellFormed.lawful

theorem Holds.equivalence :
    Equivalence fun left right => hashPolicy.equalKeys left right = true := h.lawful.equivalence

theorem Holds.distinct : Distinct hashPolicy.equalKeys items := (apart_iff items).mpr h.keys.apart

theorem Holds.size_eq : size map = items.length := by
  rw [size, h.keys.size_eq, length_map]

theorem Holds.policyOf : policy map = hashPolicy := h.keys.policy_eq

theorem Holds.cases (key : k) :
    (entryOf map.payloads key = none ∧
      ListModel.position hashPolicy.equalKeys key items = none ∧
      ListModel.contains hashPolicy.equalKeys key items = false) ∨
    ∃ front pair back, items = front ++ pair :: back ∧
      entryOf map.payloads key = some pair ∧ hashPolicy.equalKeys key pair.1 = true ∧
      ListModel.position hashPolicy.equalKeys key items = some front.length ∧
      ListModel.contains hashPolicy.equalKeys key items = true ∧
      (∀ passed ∈ front, hashPolicy.equalKeys key passed.1 = false) ∧
      ∀ passed ∈ back, hashPolicy.equalKeys key passed.1 = false := by
  rw [h.entryOf_eq]
  cases hentry : entryAt hashPolicy.equalKeys key items with
  | none =>
      have hnone : ∀ item ∈ items.map Prod.fst, hashPolicy.equalKeys key item = false := by
        intro item hitem
        obtain ⟨pair, hpair, rfl⟩ := mem_map.mp hitem
        exact entryAt_eq_none.mp hentry pair hpair
      refine .inl ⟨rfl, List.findIdx?_eq_none_iff.mpr hnone, ?_⟩
      exact any_eq_false.mpr fun item hitem => Bool.eq_false_iff.mp (hnone item hitem)
  | some pair =>
      obtain ⟨hkey, front, back, hitems, hfront⟩ := entryAt_split hentry
      refine .inr ⟨front, pair, back, hitems, rfl, hkey, ?_, ?_, hfront, ?_⟩
      · have hpassed : (front.map Prod.fst).findIdx? (hashPolicy.equalKeys key) = none := by
          refine List.findIdx?_eq_none_iff.mpr fun item hitem => ?_
          obtain ⟨passed, hmem, rfl⟩ := mem_map.mp hitem
          exact hfront passed hmem
        rw [ListModel.position, PersistentOrderedSet.ListModel.position, hitems, map_append,
          map_cons, List.findIdx?_append, hpassed, List.findIdx?_cons, if_pos hkey, length_map]
        exact congrArg some (Nat.zero_add _)
      · rw [ListModel.contains, PersistentOrderedSet.ListModel.contains, hitems, map_append,
          map_cons]
        exact any_eq_true.mpr ⟨pair.1, mem_append_right _ mem_cons_self, hkey⟩
      · intro passed hpassed
        have hdistinct := h.distinct
        rw [hitems] at hdistinct
        rw [same_congr h.equivalence hkey]
        exact (pairwise_cons.mp (pairwise_append.mp hdistinct).2.1).1 passed hpassed

theorem Holds.member_eq (key : k) :
    member key map = ListModel.contains hashPolicy.equalKeys key items := by
  rw [member, h.wellFormed.member_eq]
  rcases h.cases key with ⟨hentry, -, hcontains⟩ | ⟨_, _, _, -, hentry, -, -, hcontains, -⟩
  · rw [hentry, hcontains]
    rfl
  · rw [hentry, hcontains]
    rfl

theorem Holds.lookup_eq (key : k) :
    lookup key map = (entryAt hashPolicy.equalKeys key items).map Prod.snd := by
  rw [lookup, h.wellFormed.lookup_eq, h.entryOf_eq]

theorem Holds.attach_eq {pair : k × v} (hpair : pair ∈ items) : attach map pair.1 = .ok pair := by
  rw [attach, h.lookup_eq, entryAt_self h.equivalence h.distinct hpair]
  rfl

theorem Holds.toList_eq : toList map = .ok items := by
  rw [toList, h.keys.items_eq, mapM_eq_ok, forall₂_map_left_iff, forall₂_same]
  exact fun pair hpair => h.attach_eq hpair

variable {keys : PersistentOrderedSet D k}

theorem Holds.permuted {others : List (k × v)} (hperm : items.Perm others)
    (hkeys : PersistentOrderedSet.Holds hashPolicy keys (others.map Prod.fst)) :
    Holds hashPolicy ⟨keys, map.payloads⟩ others := by
  refine ⟨hkeys, h.wellFormed, h.policy_eq, fun key => ?_⟩
  rw [h.entryOf_eq, entryAt_perm h.equivalence h.distinct hperm]

theorem Holds.inserted {index : Nat} {key : k} {value : v}
    (habsent : ListModel.contains hashPolicy.equalKeys key items = false)
    (hkeys : PersistentOrderedSet.Holds hashPolicy keys
      ((ListModel.placed index (key, value) items).map Prod.fst)) :
    Holds hashPolicy ⟨keys, insert key value map.payloads⟩
      (ListModel.placed index (key, value) items) := by
  have hsame := h.equivalence
  have hself := same_refl hsame key
  rcases h.cases key with ⟨hentry, -⟩ | ⟨_, _, _, -, -, -, -, hcontains, -⟩
  · have hbecomes := insert_becomes h.wellFormed key value
    have hfree := entryAt_eq_none.mp ((h.entryOf_eq key).symm.trans hentry)
    rw [hentry] at hbecomes
    refine ⟨hkeys, hbecomes.wellFormed, hbecomes.policy_eq.trans h.policy_eq, fun other => ?_⟩
    rw [hbecomes.entryOf_eq, h.policy_eq, h.entryOf_eq, ListModel.placed]
    by_cases hother : hashPolicy.equalKeys other key = true
    · have hfront : ∀ passed ∈ items.take index, hashPolicy.equalKeys key passed.1 = false :=
        fun passed hpassed => hfree passed (mem_of_mem_take hpassed)
      rw [if_pos hother]
      exact (entryAt_middle hsame hfront hself hother).symm
    · rw [if_neg hother, @entryAt_around _ _ _ _ _ (key, value) hsame _ _ hself hother,
        take_append_drop]
  · rw [habsent] at hcontains
    cases hcontains

theorem Holds.changed {key : k} {value : v}
    (hpresent : ListModel.contains hashPolicy.equalKeys key items = true) :
    Holds hashPolicy ⟨map.keys, insert key value map.payloads⟩
      (ListModel.set hashPolicy.equalKeys key value items) := by
  have hsame := h.equivalence
  rw [ListModel.set, if_pos hpresent]
  rcases h.cases key with ⟨-, -, hcontains⟩ |
    ⟨front, pair, back, hitems, hentry, hkey, -, -, hfront, hback⟩
  · rw [hpresent] at hcontains
    cases hcontains
  · have hbecomes := insert_becomes h.wellFormed key value
    have hkept : ∀ {part : List (k × v)},
        (∀ passed ∈ part, hashPolicy.equalKeys key passed.1 = false) →
          part.map (fun pair => if hashPolicy.equalKeys key pair.1 then (pair.1, value) else pair) =
            part := by
      intro part hpart
      refine (map_congr_left fun passed hpassed => ?_).trans (map_id part)
      rw [if_neg (Bool.eq_false_iff.mp (hpart passed hpassed))]
      rfl
    have hset : items.map
        (fun pair => if hashPolicy.equalKeys key pair.1 then (pair.1, value) else pair) =
          front ++ (pair.1, value) :: back := by
      rw [hitems, map_append, map_cons, hkept hfront, hkept hback, if_pos hkey]
    rw [hentry] at hbecomes
    rw [hset]
    refine ⟨?_, hbecomes.wellFormed, hbecomes.policy_eq.trans h.policy_eq, fun other => ?_⟩
    · have hkeys := h.keys
      rw [hitems, map_append, map_cons] at hkeys
      rw [map_append, map_cons]
      exact hkeys
    · rw [hbecomes.entryOf_eq, h.policy_eq, h.entryOf_eq, hitems]
      exact (sets_middle hsame hfront hkey value other).symm

theorem Holds.removed {front back : List (k × v)} {pair : k × v}
    {key : k} (hitems : items = front ++ pair :: back)
    (hkey : hashPolicy.equalKeys key pair.1 = true)
    (hkeys : PersistentOrderedSet.Holds hashPolicy keys ((front ++ back).map Prod.fst)) :
    Holds hashPolicy ⟨keys, HashMap.delete key map.payloads⟩ (front ++ back) := by
  have hsame := h.equivalence
  have hbecomes := delete_becomes h.wellFormed key
  have hdistinct := h.distinct
  rw [hitems] at hdistinct
  have hfront : ∀ passed ∈ front, hashPolicy.equalKeys key passed.1 = false := by
    intro passed hpassed
    rw [same_congr hsame hkey, same_comm hsame]
    exact (pairwise_append.mp hdistinct).2.2 passed hpassed pair mem_cons_self
  refine ⟨hkeys, hbecomes.wellFormed, hbecomes.policy_eq.trans h.policy_eq, fun other => ?_⟩
  rw [hbecomes.entryOf_eq, h.policy_eq, h.entryOf_eq, hitems,
    sets_removed hsame hfront hkey hdistinct other]

end Holds

theorem placed_keys (index : Nat) (pair : k × v) (items : List (k × v)) :
    (ListModel.placed index pair items).map Prod.fst =
      ListModel.placed index pair.1 (items.map Prod.fst) := by
  rw [ListModel.placed, map_append, map_cons, map_take, map_drop, ListModel.placed]

theorem moveTo_keys (same : k → k → Bool) (index : Nat) (key : k) (items : List (k × v)) :
    (ListModel.moveTo same index key items).map (List.map Prod.fst) =
      PersistentOrderedSet.ListModel.moveTo same index key (items.map Prod.fst) := by
  rw [ListModel.moveTo, PersistentOrderedSet.ListModel.moveTo, ListModel.position]
  cases PersistentOrderedSet.ListModel.position same key (items.map Prod.fst) with
  | none => rfl
  | some old =>
      rw [Option.bind_some, Option.bind_some, List.getElem?_map, eraseIdx_map]
      cases items[old]? with
      | none => rfl
      | some stored => exact congrArg some (placed_keys index stored (items.eraseIdx old))

theorem moveTo_perm {same : k → k → Bool} {index : Nat} {key : k} {items others : List (k × v)}
    (h : ListModel.moveTo same index key items = some others) : items.Perm others := by
  obtain ⟨old, -, hmoved⟩ := Option.bind_eq_some_iff.mp h
  obtain ⟨stored, hstored, rfl⟩ := Option.map_eq_some_iff.mp hmoved
  obtain ⟨hlt, rfl⟩ := List.getElem?_eq_some_iff.mp hstored
  refine (getElem_cons_eraseIdx_perm hlt).symm.trans ?_
  have hmiddle := @perm_middle _ items[old] ((items.eraseIdx old).take index)
    ((items.eraseIdx old).drop index)
  rw [take_append_drop] at hmiddle
  exact hmiddle.symm

theorem tryRemove_keys (same : k → k → Bool) (key : k) (items : List (k × v)) :
    (ListModel.tryRemove same key items).map (List.map Prod.fst) =
      PersistentOrderedSet.ListModel.tryRemove same key (items.map Prod.fst) := by
  rw [ListModel.tryRemove, PersistentOrderedSet.ListModel.tryRemove, ListModel.position,
    Option.map_map]
  refine congrArg (fun f => Option.map f _) (funext fun old => ?_)
  rw [eraseIdx_map]
  rfl

theorem deleteAt_keys (index : Int) (items : List (k × v)) :
    (ListModel.deleteAt index items).map (List.map Prod.fst) =
      ListModel.deleteAt index (items.map Prod.fst) := by
  rw [ListModel.deleteAt, ListModel.deleteAt, length_map]
  split
  · rfl
  · rw [Option.map_some, eraseIdx_map]

theorem getRange_keys (index count : Int) (items : List (k × v)) :
    (ListModel.getRange index count items).map (List.map Prod.fst) =
      ListModel.getRange index count (items.map Prod.fst) := by
  rw [ListModel.getRange, ListModel.getRange, length_map]
  split
  · rfl
  · rw [Option.map_some, map_take, map_drop]

/-! ## Results of edits -/

section Edits

variable {map : PersistentOrderedMap D k v} {items : List (k × v)} (h : Holds hashPolicy map items)

include h

theorem insertAt_makes (index : Int) (key : k) (value : v) :
    MakesOption hashPolicy (insertAt index key value map)
      (ListModel.insertAt hashPolicy.equalKeys index key value items) := by
  rw [insertAt, ListModel.insertAt, h.size_eq, h.member_eq]
  by_cases hout : index < 0 ∨ index > items.length
  · rw [if_pos hout, if_pos hout]
    exact .nothing
  rw [if_neg hout, if_neg hout]
  cases habsent : ListModel.contains hashPolicy.equalKeys key items with
  | true => exact .nothing
  | false =>
      have hkeys := insertCore_makes h.keys (show 0 ≤ index by omega)
        (by rw [length_map]; omega) key
      rw [ListModel.insert, if_neg
        (Bool.eq_false_iff.mp (show PersistentOrderedSet.ListModel.contains hashPolicy.equalKeys key
          (items.map Prod.fst) = false from habsent)),
            ← placed_keys index.toNat (key, value)] at hkeys
      rw [if_neg Bool.false_ne_true, if_neg Bool.false_ne_true, PersistentOrderedSet.insertAt,
        h.keys.size_eq, length_map, if_neg hout]
      refine makesOption_of_keys hkeys.option fun keys others hothers hholds => ?_
      obtain rfl := Option.some.inj hothers
      exact h.inserted habsent hholds

omit [OrderDeque D] h in
theorem placed_last (pair : k × v) :
    ListModel.placed items.length pair items = items ++ [pair] := by
  rw [ListModel.placed, take_length, drop_length]

theorem set_makes (key : k) (value : v) :
    Makes hashPolicy (set key value map) (ListModel.set hashPolicy.equalKeys key value items) := by
  rw [set, h.member_eq]
  cases hpresent : ListModel.contains hashPolicy.equalKeys key items with
  | true =>
      rw [if_pos rfl]
      exact .made (h.changed hpresent)
  | false =>
      have hkeys := insertCore_makes h.keys (Int.natCast_nonneg _) (Int.le_refl _) key
      have hlength : (items.map Prod.fst).length = items.length := length_map _
      have hset : ListModel.set hashPolicy.equalKeys key value items =
          ListModel.placed items.length (key, value) items := by
        rw [ListModel.set, hpresent, if_neg Bool.false_ne_true, placed_last]
      rw [ListModel.insert, if_neg
        (Bool.eq_false_iff.mp (show PersistentOrderedSet.ListModel.contains hashPolicy.equalKeys key
          (items.map Prod.fst) = false from hpresent)), Int.toNat_natCast, hlength,
        ← placed_keys items.length (key, value)] at hkeys
      rw [if_neg Bool.false_ne_true, PersistentOrderedSet.add, h.keys.size_eq, hlength, hset]
      exact makes_of_keys hkeys fun keys hholds => h.inserted hpresent hholds

theorem moveWith_makes {index : Nat} {key : k} {edit : PersistentOrderedSet D k →
      PersistentOrderedSet.Outcome (Option (PersistentOrderedSet D k))}
    (hedit : PersistentOrderedSet.MakesOption hashPolicy (edit map.keys)
      (PersistentOrderedSet.ListModel.moveTo hashPolicy.equalKeys index key (items.map Prod.fst))) :
    MakesOption hashPolicy (moveWith edit map)
      (ListModel.moveTo hashPolicy.equalKeys index key items) := by
  rw [← moveTo_keys] at hedit
  exact makesOption_of_keys hedit fun keys others hmoved hkeys =>
    h.permuted (moveTo_perm hmoved) hkeys

theorem moveExisting_makes {index : Int}
    (hindex : items ≠ [] → 0 ≤ index ∧ index < items.length) (key : k) :
    MakesOption hashPolicy (moveWith (moveExisting index key) map)
      (ListModel.moveTo hashPolicy.equalKeys index.toNat key items) := by
  refine moveWith_makes h (PersistentOrderedSet.moveExisting_makes h.keys (fun hkeys => ?_) key)
  rw [length_map]
  exact hindex fun hnil => hkeys (hnil ▸ rfl)

theorem tryRemove_makes (key : k) :
    MakesOption hashPolicy (tryRemove key map)
      (ListModel.tryRemove hashPolicy.equalKeys key items) := by
  have hkeys := PersistentOrderedSet.tryRemove_makes h.keys key
  rw [← tryRemove_keys] at hkeys
  refine makesOption_of_keys hkeys fun keys others hothers hholds => ?_
  rcases h.cases key with ⟨-, hposition, -⟩ | ⟨front, pair, back, hitems, -, hkey, hposition, -⟩
  · rw [ListModel.tryRemove, hposition] at hothers
    cases hothers
  · rw [ListModel.tryRemove, hposition, Option.map_some, hitems,
      eraseIdx_append_of_length_le (Nat.le_refl _), Nat.sub_self] at hothers
    obtain rfl := Option.some.inj hothers
    exact h.removed hitems hkey hholds

theorem delete_makes (key : k) :
    Makes hashPolicy (delete key map)
      ((ListModel.tryRemove hashPolicy.equalKeys key items).getD items) := by
  have hremoved := tryRemove_makes h key
  rw [delete]
  generalize tryRemove key map = outcome at hremoved ⊢
  generalize ListModel.tryRemove hashPolicy.equalKeys key items = expected at hremoved ⊢
  cases hremoved with
  | nothing => exact .made h
  | made hmade => exact .made hmade
  | exhausted hlong => exact .exhausted hlong

theorem deleteAt_makes (index : Int) :
    MakesOption hashPolicy (deleteAt index map) (ListModel.deleteAt index items) := by
  have hkeys := PersistentOrderedSet.deleteAt_makes h.keys index
  rw [← deleteAt_keys] at hkeys
  rw [deleteAt, PersistentOrderedSet.at_eq h.keys]
  by_cases hout : index < 0 ∨ index ≥ items.length
  · have hnone : (if index < 0 then none else (items.map Prod.fst)[index.toNat]?) = none := by
      split
      · rfl
      · exact List.getElem?_eq_none (by rw [length_map]; omega)
    rw [hnone, ListModel.deleteAt, if_pos hout]
    exact .nothing
  · have hlt : index.toNat < items.length := by omega
    rw [if_neg (by omega), List.getElem?_map, List.getElem?_eq_getElem hlt]
    refine makesOption_of_keys hkeys fun keys others hothers hholds => ?_
    have hitems :
        items = items.take index.toNat ++ items[index.toNat] :: items.drop (index.toNat + 1) := by
      rw [← drop_eq_getElem_cons hlt, take_append_drop]
    rw [ListModel.deleteAt, if_neg hout] at hothers
    obtain rfl := Option.some.inj hothers
    rw [eraseIdx_eq_take_drop_succ] at hholds ⊢
    exact h.removed hitems (same_refl h.equivalence _) hholds

theorem clear_holds : Holds hashPolicy (clear map) [] := by
  rw [clear, h.policyOf]
  exact emptyWith_holds h.lawful

theorem getRange_refines (index count : Int) :
    Option.Rel (Holds hashPolicy) (getRange index count map)
      (ListModel.getRange index count items) := by
  have hkeys := PersistentOrderedSet.getRange_refines h.keys index count
  rw [← getRange_keys] at hkeys
  rw [getRange]
  generalize map.keys.getRange index count = made at hkeys ⊢
  cases hrange : ListModel.getRange index count items with
  | none =>
      rw [hrange] at hkeys
      cases hkeys
      exact .none
  | some kept =>
      rw [hrange, Option.map_some] at hkeys
      cases hkeys with
      | some hholds =>
          have hsublist : kept.Sublist items := by
            rw [ListModel.getRange] at hrange
            split at hrange
            · cases hrange
            · obtain rfl := Option.some.inj hrange
              exact (take_sublist _ _).trans (drop_sublist _ _)
          have hattached : (kept.map Prod.fst).filterMap (fun key =>
              (HashMap.lookup key map.payloads).map fun value => (key, value)) = kept := by
            rw [filterMap_map]
            refine (filterMap_congr fun pair hpair => ?_).trans filterMap_some
            have hlookup := h.lookup_eq pair.1
            rw [entryAt_self h.equivalence h.distinct (hsublist.subset hpair)] at hlookup
            exact congrArg (Option.map fun value => (pair.1, value)) hlookup
          have hdistinct : Distinct hashPolicy.equalKeys kept := h.distinct.sublist hsublist
          obtain ⟨hwellFormed, hpolicy, hentries⟩ := fromListWith_spec h.lawful kept
          rw [Option.map_some]
          dsimp only
          rw [hholds.items_eq, hattached, h.policyOf]
          refine .some ⟨hholds, hwellFormed, hpolicy, fun key => ?_⟩
          rw [hentries, gathered_of_distinct h.equivalence hdistinct]

theorem reverse_makes : Makes hashPolicy (reverse map) items.reverse := by
  have hkeys := PersistentOrderedSet.reverse_makes h.keys
  rw [← map_reverse] at hkeys
  exact makes_of_keys hkeys fun keys hholds => h.permuted (reverse_perm items).symm hholds

theorem sortBy_makes (compareEntries : k × v → k × v → Ordering) :
    Makes hashPolicy (sortBy compareEntries map) (ListModel.sortBy compareEntries items) := by
  have hkeys := PersistentOrderedSet.sortBy_makes h.keys (compareKeys compareEntries map)
  have hsorted : ListModel.sortBy (compareKeys compareEntries map)
      (items.map Prod.fst) = (ListModel.sortBy compareEntries items).map Prod.fst := by
    refine (map_mergeSort fun left hleft right hright => ?_).symm
    rw [compareKeys, h.lookup_eq, h.lookup_eq, entryAt_self h.equivalence h.distinct hleft,
      entryAt_self h.equivalence h.distinct hright]
    rfl
  rw [hsorted] at hkeys
  rw [sortBy, h.toList_eq, except_bind_ok]
  exact makes_of_keys hkeys fun keys hholds => h.permuted (mergeSort_perm _ _).symm hholds

end Edits

theorem length_set (same : k → k → Bool) (key : k) (value : v) (items : List (k × v)) :
    items.length ≤ (ListModel.set same key value items).length := by
  rw [ListModel.set]
  split
  · rw [length_map]
  · rw [length_append]
    exact Nat.le_add_right _ _

def ListModel.fromList (same : k → k → Bool) (items pairs : List (k × v)) : List (k × v) :=
  pairs.foldl (fun items pair => set same pair.1 pair.2 items) items

theorem length_fromList (same : k → k → Bool) (items pairs : List (k × v)) :
    items.length ≤ (ListModel.fromList same items pairs).length := by
  induction pairs generalizing items with
  | nil => exact Nat.le_refl _
  | cons pair pairs ih => exact (length_set same pair.1 pair.2 items).trans (ih _)

theorem foldlM_set_makes {map : PersistentOrderedMap D k v} {items : List (k × v)}
    (h : Holds hashPolicy map items) (pairs : List (k × v)) :
    Makes hashPolicy (pairs.foldlM (fun current pair => set pair.1 pair.2 current) map)
      (ListModel.fromList hashPolicy.equalKeys items pairs) := by
  induction pairs generalizing map items with
  | nil => exact .made h
  | cons pair pairs ih =>
      have hset := set_makes h pair.1 pair.2
      rw [foldlM_cons]
      generalize hlist : ListModel.set hashPolicy.equalKeys pair.1 pair.2 items = next at hset
      have hrest : ListModel.fromList hashPolicy.equalKeys items (pair :: pairs) =
          ListModel.fromList hashPolicy.equalKeys next pairs := by
        rw [← hlist]
        rfl
      rw [hrest]
      generalize set pair.1 pair.2 map = outcome at hset
      cases hset with
      | made hmade => exact ih hmade
      | exhausted hlong => exact .exhausted (hlong.trans_le (length_fromList _ _ _))

/-! ## Branching histories -/

/-- One edit.  Versions are numbered in the order they were made. -/
inductive Edit (k : Type) (v : Type z) where
  | emptyWith
  | fromListWith (pairs : List (k × v))
  | add (key : k) (value : v) (version : Nat)
  | addFirst (key : k) (value : v) (version : Nat)
  | insertAt (index : Int) (key : k) (value : v) (version : Nat)
  | set (key : k) (value : v) (version : Nat)
  | moveToFirst (key : k) (version : Nat)
  | moveToLast (key : k) (version : Nat)
  | moveTo (index : Int) (key : k) (version : Nat)
  | delete (key : k) (version : Nat)
  | tryRemove (key : k) (version : Nat)
  | deleteAt (index : Int) (version : Nat)
  | removeFirst (version : Nat)
  | removeLast (version : Nat)
  | clear (version : Nat)
  | getRange (index count : Int) (version : Nat)
  | take (count : Int) (version : Nat)
  | drop (count : Int) (version : Nat)
  | reverse (version : Nat)
  | sortBy (compareEntries : k × v → k × v → Ordering) (version : Nat)

def single (outcome : Outcome (PersistentOrderedMap D k v)) :
    Outcome (List (PersistentOrderedMap D k v)) :=
  outcome.map fun made => [made]

def optional (outcome : Outcome (Option (PersistentOrderedMap D k v))) :
    Outcome (List (PersistentOrderedMap D k v)) :=
  outcome.map Option.toList

def produce (hashPolicy : HashPolicy k) (versions : List (PersistentOrderedMap D k v)) :
    Edit k v → Outcome (List (PersistentOrderedMap D k v))
  | .emptyWith => .ok [emptyWith hashPolicy]
  | .fromListWith pairs => single (fromListWith hashPolicy pairs)
  | .add key value version => onVersion versions version fun map => optional (add key value map)
  | .addFirst key value version => onVersion versions version fun map =>
      optional (addFirst key value map)
  | .insertAt index key value version => onVersion versions version fun map =>
      optional (insertAt index key value map)
  | .set key value version => onVersion versions version fun map => single (set key value map)
  | .moveToFirst key version => onVersion versions version fun map => optional (moveToFirst key map)
  | .moveToLast key version => onVersion versions version fun map => optional (moveToLast key map)
  | .moveTo index key version => onVersion versions version fun map =>
      optional (moveTo index key map)
  | .delete key version => onVersion versions version fun map => single (delete key map)
  | .tryRemove key version => onVersion versions version fun map => optional (tryRemove key map)
  | .deleteAt index version => onVersion versions version fun map => optional (deleteAt index map)
  | .removeFirst version => onVersion versions version fun map => optional (removeFirst map)
  | .removeLast version => onVersion versions version fun map => optional (removeLast map)
  | .clear version => onVersion versions version fun map => .ok [clear map]
  | .getRange index count version => onVersion versions version fun map =>
      .ok (getRange index count map).toList
  | .take count version => onVersion versions version fun map => .ok (take count map).toList
  | .drop count version => onVersion versions version fun map => .ok (drop count map).toList
  | .reverse version => onVersion versions version fun map => single (reverse map)
  | .sortBy compareEntries version => onVersion versions version fun map =>
      single (sortBy compareEntries map)

/-- The lists an edit adds where there are stamps for them. -/
def ListModel.produce (same : k → k → Bool) (models : List (List (k × v))) :
    Edit k v → List (List (k × v))
  | .emptyWith => [[]]
  | .fromListWith pairs => [fromList same [] pairs]
  | .add key value version => onModel models version fun items =>
      (insertAt same items.length key value items).toList
  | .addFirst key value version => onModel models version fun items =>
      (insertAt same 0 key value items).toList
  | .insertAt index key value version => onModel models version fun items =>
      (insertAt same index key value items).toList
  | .set key value version => onModel models version fun items => [set same key value items]
  | .moveToFirst key version => onModel models version fun items => (moveTo same 0 key items).toList
  | .moveToLast key version => onModel models version fun items =>
      (moveTo same (items.length - 1) key items).toList
  | .moveTo index key version => onModel models version fun items =>
      if index < 0 ∨ index ≥ items.length then [] else (moveTo same index.toNat key items).toList
  | .delete key version => onModel models version fun items =>
      [(tryRemove same key items).getD items]
  | .tryRemove key version => onModel models version fun items => (tryRemove same key items).toList
  | .deleteAt index version => onModel models version fun items =>
      (ListModel.deleteAt index items).toList
  | .removeFirst version => onModel models version fun items => (ListModel.deleteAt 0 items).toList
  | .removeLast version => onModel models version fun items =>
      (ListModel.deleteAt (items.length - 1) items).toList
  | .clear version => onModel models version fun _ => [[]]
  | .getRange index count version => onModel models version fun items =>
      (ListModel.getRange index count items).toList
  | .take count version => onModel models version fun items =>
      (ListModel.getRange 0 count items).toList
  | .drop count version => onModel models version fun items =>
      (ListModel.getRange count (items.length - count) items).toList
  | .reverse version => onModel models version fun items => [items.reverse]
  | .sortBy compareEntries version => onModel models version fun items =>
      [ListModel.sortBy compareEntries items]

/-- More keys than there are stamps. -/
def Exhausts (problem : OrderedMapError) (expected : List (List (k × v))) : Prop :=
  problem = .order .stampSpaceExhausted ∧ ∃ items ∈ expected, stampCapacity < items.length

abbrev Adds (hashPolicy : HashPolicy k) (outcome : Outcome (List (PersistentOrderedMap D k v)))
    (expected : List (List (k × v))) : Prop :=
  AddsOr (Holds hashPolicy) Exhausts outcome expected

theorem Makes.adds {outcome : Outcome (PersistentOrderedMap D k v)} {expected : List (k × v)}
    (h : Makes hashPolicy outcome expected) : Adds hashPolicy (single outcome) [expected] := by
  cases h with
  | made h => exact addsOr_ok (.cons h .nil)
  | exhausted h => exact addsOr_error ⟨rfl, expected, mem_cons_self, h⟩

theorem MakesOption.adds {outcome : Outcome (Option (PersistentOrderedMap D k v))}
    {expected : Option (List (k × v))} (h : MakesOption hashPolicy outcome expected) :
    Adds hashPolicy (optional outcome) expected.toList := by
  cases h with
  | nothing => exact addsOr_ok .nil
  | made h => exact addsOr_ok (.cons h .nil)
  | @exhausted expected h => exact addsOr_error ⟨rfl, expected, mem_cons_self, h⟩

section

variable {map : PersistentOrderedMap D k v} {items : List (k × v)} (h : Holds hashPolicy map items)
include h

theorem moveTo_adds (index : Int) (key : k) :
    Adds hashPolicy (optional (moveTo index key map))
      (if index < 0 ∨ index ≥ items.length then []
        else (ListModel.moveTo hashPolicy.equalKeys index.toNat key items).toList) := by
  by_cases hout : index < 0 ∨ index ≥ items.length
  · have hnone : PersistentOrderedSet.moveTo index key map.keys = .ok none := by
      rw [PersistentOrderedSet.moveTo, h.keys.size_eq, length_map, if_pos hout]
    rw [if_pos hout, moveTo, moveWith, hnone]
    exact addsOr_ok .nil
  · have hmove : PersistentOrderedSet.moveTo index key map.keys =
        moveExisting index key map.keys := by
      rw [PersistentOrderedSet.moveTo, h.keys.size_eq, length_map, if_neg hout]
    have hmoved :=
      moveExisting_makes h (fun _ => show 0 ≤ index ∧ index < items.length by omega) key
    rw [moveWith, ← hmove] at hmoved
    rw [if_neg hout]
    exact hmoved.adds

theorem moveToLast_adds (key : k) :
    Adds hashPolicy (optional (moveToLast key map))
      (ListModel.moveTo hashPolicy.equalKeys (items.length - 1) key items).toList := by
  have hmove : PersistentOrderedSet.moveToLast key map.keys =
      moveExisting ((items.length : Int) - 1) key map.keys := by
    rw [PersistentOrderedSet.moveToLast, h.keys.size_eq, length_map]
  have hmoved := moveExisting_makes h (fun hitems =>
    show 0 ≤ (items.length : Int) - 1 ∧ (items.length : Int) - 1 < items.length by
      have hpositive := length_pos_iff.mpr hitems
      omega) key
  rw [show ((items.length : Int) - 1).toNat = items.length - 1 by omega, moveWith,
    ← hmove] at hmoved
  exact hmoved.adds

end

theorem produce_adds (hlawful : hashPolicy.Lawful) (versions : List (PersistentOrderedMap D k v))
    (models : List (List (k × v))) (edit : Edit k v)
    (h : List.Forall₂ (Holds hashPolicy) versions models) :
    Adds hashPolicy (produce hashPolicy versions edit)
      (ListModel.produce hashPolicy.equalKeys models edit) := by
  cases edit with
  | emptyWith => exact addsOr_ok (.cons (emptyWith_holds hlawful) .nil)
  | fromListWith pairs => exact (foldlM_set_makes (emptyWith_holds hlawful) pairs).adds
  | add key value version =>
      refine onVersion_addsOr h version fun map items hmap => ?_
      rw [add, hmap.size_eq]
      exact (insertAt_makes hmap _ key value).adds
  | addFirst key value version =>
      exact onVersion_addsOr h version fun _ _ hmap => (insertAt_makes hmap 0 key value).adds
  | insertAt index key value version =>
      exact onVersion_addsOr h version fun _ _ hmap => (insertAt_makes hmap index key value).adds
  | set key value version =>
      exact onVersion_addsOr h version fun _ _ hmap => (set_makes hmap key value).adds
  | moveToFirst key version =>
      refine onVersion_addsOr h version fun map items hmap => ?_
      refine (moveExisting_makes hmap (fun hitems => ?_) key).adds
      have hpositive := length_pos_iff.mpr hitems
      omega
  | moveToLast key version =>
      exact onVersion_addsOr h version fun _ _ hmap => moveToLast_adds hmap key
  | moveTo index key version =>
      exact onVersion_addsOr h version fun _ _ hmap => moveTo_adds hmap index key
  | delete key version =>
      exact onVersion_addsOr h version fun _ _ hmap => (delete_makes hmap key).adds
  | tryRemove key version =>
      exact onVersion_addsOr h version fun _ _ hmap => (tryRemove_makes hmap key).adds
  | deleteAt index version =>
      exact onVersion_addsOr h version fun _ _ hmap => (deleteAt_makes hmap index).adds
  | removeFirst version =>
      exact onVersion_addsOr h version fun _ _ hmap => (deleteAt_makes hmap 0).adds
  | removeLast version =>
      refine onVersion_addsOr h version fun map items hmap => ?_
      rw [removeLast, hmap.size_eq]
      exact (deleteAt_makes hmap _).adds
  | clear version =>
      exact onVersion_addsOr h version fun _ _ hmap => addsOr_ok (.cons (clear_holds hmap) .nil)
  | getRange index count version =>
      exact onVersion_addsOr h version fun _ _ hmap =>
        addsOr_ok (toList_refines (getRange_refines hmap index count))
  | take count version =>
      exact onVersion_addsOr h version fun _ _ hmap =>
        addsOr_ok (toList_refines (getRange_refines hmap 0 count))
  | drop count version =>
      refine onVersion_addsOr h version fun map items hmap => ?_
      rw [drop, hmap.size_eq]
      exact addsOr_ok (toList_refines (getRange_refines hmap count _))
  | reverse version => exact onVersion_addsOr h version fun _ _ hmap => (reverse_makes hmap).adds
  | sortBy compareEntries version =>
      exact onVersion_addsOr h version fun _ _ hmap => (sortBy_makes hmap compareEntries).adds

/-- What a map shows of its pairs. -/
structure Observes (hashPolicy : HashPolicy k) (map : PersistentOrderedMap D k v)
    (items : List (k × v)) : Prop where
  valid : validStructure map = true
  listed : toList map = .ok items
  distinct : Distinct hashPolicy.equalKeys items
  orderIndex : map.keys.toList = items.map Prod.fst
  valueIndex : (HashMap.toList map.payloads).Perm items
  sized : size map = items.length
  ranked : ∀ index, entryAt? index map = if index < 0 then none else items[index.toNat]?
  found : ∀ key, indexOf key map =
    .ok ((ListModel.position hashPolicy.equalKeys key items).elim (-1) Nat.cast)
  member : ∀ key, member key map = ListModel.contains hashPolicy.equalKeys key items
  value : ∀ key, lookup key map = (entryAt hashPolicy.equalKeys key items).map Prod.snd
  stored : ∀ key, actualKey key map = (entryAt hashPolicy.equalKeys key items).map Prod.fst

section Reading

variable {map : PersistentOrderedMap D k v} {items : List (k × v)} (h : Holds hashPolicy map items)

include h

theorem payloads_perm : (HashMap.toList map.payloads).Perm items := by
  have hdistinct := h.wellFormed.distinct
  rw [h.policy_eq] at hdistinct
  refine perm_of_entryAt h.equivalence hdistinct h.distinct fun key => ?_
  rw [← h.entryOf_eq, entryOf, h.policy_eq]

theorem entryAt_eq (index : Int) :
    entryAt? index map = if index < 0 then none else items[index.toNat]? := by
  rw [entryAt?, at_eq h.keys]
  split
  · rfl
  · rw [List.getElem?_map]
    cases hitem : items[index.toNat]? with
    | none => rfl
    | some pair =>
        have hlookup := h.lookup_eq pair.1
        rw [entryAt_self h.equivalence h.distinct (mem_of_getElem? hitem)] at hlookup
        exact congrArg (Option.map fun value => (pair.1, value)) hlookup

theorem actualKey_eq (key : k) :
    actualKey key map = (entryAt hashPolicy.equalKeys key items).map Prod.fst := by
  rw [actualKey, actualValue_eq h.keys, ← h.entryOf_eq]
  rcases h.cases key with ⟨hentry, hposition, -⟩ |
    ⟨front, pair, back, hitems, hentry, -, hposition, -⟩
  · rw [hentry, show PersistentOrderedSet.ListModel.position _ _ _ = none from hposition]
    rfl
  · rw [hentry, show PersistentOrderedSet.ListModel.position _ _ _ = some _ from hposition,
      Option.bind_some, List.getElem?_map, hitems, List.getElem?_append_right (Nat.le_refl _),
      Nat.sub_self]
    rfl

theorem validStructure_eq : validStructure map = true := by
  have hvalid := h.wellFormed.validStructure_eq
  have hsize : map.keys.size = (map.payloads.size : Int) := by
    have hkeys := h.size_eq
    rw [size] at hkeys
    rw [hkeys, h.wellFormed.size_toList, (payloads_perm h).length_eq]
  have hforward : map.keys.toList.all (fun key => HashMap.member key map.payloads) = true := by
    refine all_eq_true.mpr fun key hkey => ?_
    have hmember := h.member_eq key
    rw [h.keys.items_eq] at hkey
    rw [member] at hmember
    rw [hmember]
    exact any_eq_true.mpr ⟨key, hkey, same_refl h.equivalence key⟩
  have hbackward :
      (HashMap.toList map.payloads).all (fun pair => map.keys.contains pair.1) = true := by
    refine all_eq_true.mpr fun pair hpair => ?_
    rw [PersistentOrderedSet.contains, h.keys.member_eq]
    refine any_eq_true.mpr ⟨pair.1, ?_, same_refl h.equivalence pair.1⟩
    exact mem_map_of_mem ((payloads_perm h).mem_iff.mp hpair)
  rw [validStructure, h.keys.validStructure_eq, hvalid, hsize, hforward, hbackward, h.toList_eq,
    h.size_eq, BEq.rfl]
  exact beq_self_eq_true _

theorem Holds.observes : Observes hashPolicy map items where
  valid := validStructure_eq h
  listed := h.toList_eq
  distinct := h.distinct
  orderIndex := h.keys.items_eq
  valueIndex := payloads_perm h
  sized := h.size_eq
  ranked := entryAt_eq h
  found key := by
    rw [indexOf, indexOf_eq h.keys]
    rfl
  member := h.member_eq
  value := h.lookup_eq
  stored := actualKey_eq h

end Reading

/-- Every version of every branching history shows its pairs in their order from both indexes, and
an edit fails only where it has more keys than stamps. -/
theorem histories_exact (hlawful : hashPolicy.Lawful) (edits : List (Edit k v)) :
    ∃ models,
      Grows (fun models edit =>
        Excused Exhausts (ListModel.produce hashPolicy.equalKeys models edit))
        [] edits models ∧
      List.Forall₂ (Observes hashPolicy)
        (grow (produce hashPolicy) ([] : List (PersistentOrderedMap D k v)) edits) models ∧
      ∀ edit, AddsOr (Observes hashPolicy) Exhausts
        (produce hashPolicy
          (grow (produce hashPolicy) ([] : List (PersistentOrderedMap D k v)) edits)
          edit)
        (ListModel.produce hashPolicy.equalKeys models edit) :=
  grow_addsOr (fun _ _ => Holds.observes) (produce_adds hlawful) edits

end PersistentOrderedMap

end Durable7.Ordered
