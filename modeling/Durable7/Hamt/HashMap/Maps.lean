import Durable7.Hamt.HashMap.Algebra

/-!
# Hash maps as maps on classes of keys

A well-formed map stands for a partial function from classes of keys to entries.  Every
operation is described by what it does to this function.
-/

namespace Durable7.Hamt

open Foundation List

universe z

structure HashMap.WellFormed {k : Type} {v : Type z} (map : HashMap k v) : Prop where
  lawful : map.policy.Lawful
  canonical : HashMap.Canonical map.policy 0 map.root
  size_eq : map.size = HashMap.nodeCardinality map.root

namespace HashMap

variable {k : Type} {v : Type z}

/-- The entry of the class of a key. -/
def entryOf (map : HashMap k v) (key : k) : Option (k × v) :=
  entryAt map.policy.equalKeys key (toList map)

/-! ## Enumeration -/

mutual

theorem foldrNode_eq {β : Type z} (folder : k × v → β → β) (seed : β) :
    ∀ node : Node k v, foldrNode folder seed node = (nodeEntries node).foldr folder seed
  | .emptyNode => rfl
  | .leaf _ _ _ => rfl
  | .collision _ _ _ => rfl
  | .branch _ _ _ payloads children => by
      rw [foldrNode, nodeEntries, foldr_append, foldr_map, foldrNodes_eq folder seed children]

theorem foldrNodes_eq {β : Type z} (folder : k × v → β → β) (seed : β) :
    ∀ nodes : List (Node k v), foldrNodes folder seed nodes = (nodesEntries nodes).foldr folder seed
  | [] => rfl
  | node :: nodes => by
      rw [foldrNodes, nodesEntries, foldr_append, foldrNodes_eq folder seed nodes,
        foldrNode_eq folder _ node]

end

theorem toList_eq (map : HashMap k v) : toList map = nodeEntries map.root := by
  rw [toList, foldrNode_eq]
  exact foldr_cons_nil

namespace WellFormed

variable {map : HashMap k v} (h : map.WellFormed)

include h

theorem distinct : Distinct map.policy.equalKeys (toList map) := by
  rw [toList_eq]
  exact h.canonical.distinct h.lawful

theorem size_toList : map.size = (toList map).length := by
  rw [toList_eq, h.size_eq, h.canonical.cardinality]

theorem lookup_eq (key : k) : lookup key map = (entryOf map key).map Prod.snd := by
  rw [lookup, entryOf, toList_eq, lookupNode_eq h.lawful h.canonical]

theorem actualKey_eq (key : k) : actualKey key map = (entryOf map key).map Prod.fst := by
  rw [actualKey, entryOf, toList_eq, actualKeyNode_eq h.lawful h.canonical]

theorem member_eq (key : k) : member key map = (entryOf map key).isSome := by
  rw [member, h.lookup_eq, Option.isSome_map]

omit h in
theorem under_root {hashPolicy : HashPolicy k} (key : k) (node : Node k v) :
    Under hashPolicy 0 key node :=
  fun _ _ => agree_zero _ _

end WellFormed

/-! ## Operations on one class -/

/-- A map after the class of a key has got an entry, or lost it. -/
structure Becomes (before after : HashMap k v) (key : k) (entry : Option (k × v)) : Prop where
  wellFormed : after.WellFormed
  policy_eq : after.policy = before.policy
  entryOf_eq : ∀ other, entryOf after other =
    if before.policy.equalKeys other key = true then entry else entryOf before other

section Becoming

variable {map : HashMap k v} {key : k}

theorem emptyWith_wellFormed {hashPolicy : HashPolicy k} (hlawful : hashPolicy.Lawful) :
    (emptyWith hashPolicy : HashMap k v).WellFormed :=
  ⟨hlawful, .emptyNode, rfl⟩

section

variable (h : map.WellFormed)
include h

theorem WellFormed.becomes_same (key : k) : Becomes map map key (entryOf map key) := by
  refine ⟨h, rfl, ?_⟩
  intro other
  split
  · rename_i hkey
    exact entryAt_congr h.lawful.equivalence hkey _
  · rfl

variable {root : Node k v}

theorem WellFormed.becomes {entry : Option (k × v)}
    (hroot : Written map.policy 0 key entry map.root root) {size : Nat}
    (hsize : size = (nodeEntries root).length) :
    Becomes map { map with size := size, root := root } key entry := by
  refine ⟨⟨h.lawful, hroot.canonical, hsize.trans hroot.canonical.cardinality.symm⟩, rfl, ?_⟩
  intro other
  unfold entryOf
  rw [toList_eq, toList_eq]
  exact hroot.sets other

theorem WellFormed.added {value : v}
    (habsent : entryAt map.policy.equalKeys key (nodeEntries map.root) = none)
    (hroot : Written map.policy 0 key (some (key, value)) map.root root) :
    Becomes map { map with size := map.size + 1, root := root } key (some (key, value)) := by
  apply h.becomes hroot
  have hlength := hroot.sets.length_added h.lawful.equivalence (h.canonical.distinct h.lawful)
    (hroot.canonical.distinct h.lawful) habsent
  rw [h.size_eq, h.canonical.cardinality, hlength]

theorem WellFormed.changed {stored entry : k × v}
    (hstored : entryAt map.policy.equalKeys key (nodeEntries map.root) = some stored)
    (hroot : Written map.policy 0 key (some entry) map.root root) :
    Becomes map { map with root := root } key (some entry) := by
  apply h.becomes hroot
  have hlength := hroot.sets.length_changed h.lawful.equivalence (h.canonical.distinct h.lawful)
    (hroot.canonical.distinct h.lawful) hstored
  rw [h.size_eq, h.canonical.cardinality, hlength]

theorem WellFormed.removed {stored : k × v}
    (hstored : entryAt map.policy.equalKeys key (nodeEntries map.root) = some stored)
    (hroot : Written map.policy 0 key none map.root root) :
    Becomes map { map with size := map.size - 1, root := root } key none := by
  apply h.becomes hroot
  have hlength := hroot.sets.length_removed h.lawful.equivalence (h.canonical.distinct h.lawful)
    (hroot.canonical.distinct h.lawful) hstored
  rw [h.size_eq, h.canonical.cardinality]
  omega

theorem insert_becomes (key : k) (value : v) :
    Becomes map (insert key value map) key (putSlot (entryOf map key) (key, value)) := by
  have hspec := insertNode_spec h.lawful h.canonical false value
    (WellFormed.under_root key map.root)
  unfold insert entryOf
  rw [toList_eq]
  generalize insertNode map.policy false (hashFor map.policy key) key value 0 map.root = result
    at hspec ⊢
  cases hspec with
  | inserted habsent hafter =>
      rw [habsent]
      exact h.added habsent hafter
  | replaced hreplace hstored hafter =>
      rw [hstored]
      exact h.changed hstored hafter
  | duplicate hkeep hstored => cases hkeep

theorem insertNew_becomes (key : k) (value : v) :
    (entryOf map key = none ∧ ∃ after, insertNew key value map = some after ∧
      Becomes map after key (some (key, value))) ∨
    ((entryOf map key).isSome = true ∧ insertNew key value map = none) := by
  have hspec := insertNode_spec h.lawful h.canonical true value (WellFormed.under_root key map.root)
  unfold insertNew entryOf
  rw [toList_eq]
  generalize insertNode map.policy true (hashFor map.policy key) key value 0 map.root = result
    at hspec ⊢
  cases hspec with
  | inserted habsent hafter => exact .inl ⟨habsent, _, rfl, h.added habsent hafter⟩
  | replaced hreplace hstored hafter => cases hreplace
  | duplicate hkeep hstored =>
      rw [hstored]
      exact .inr ⟨rfl, rfl⟩

theorem tryRemove_becomes (key : k) :
    (entryOf map key = none ∧ tryRemove key map = none) ∨
    ∃ stored after, entryOf map key = some stored ∧ tryRemove key map = some (stored.2, after) ∧
      Becomes map after key none := by
  have hspec := removeNode_spec h.lawful h.canonical key
  unfold tryRemove entryOf
  rw [toList_eq]
  generalize removeNode map.policy (hashFor map.policy key) key 0 map.root = result at hspec ⊢
  cases hspec with
  | missing habsent => exact .inl ⟨habsent, rfl⟩
  | removed hstored hafter => exact .inr ⟨_, _, hstored, rfl, h.removed hstored hafter⟩

theorem delete_becomes (key : k) : Becomes map (delete key map) key none := by
  unfold delete
  rcases tryRemove_becomes h key with ⟨habsent, hresult⟩ | ⟨stored, after, -, hresult, hafter⟩
  · rw [hresult]
    have := h.becomes_same key
    rwa [habsent] at this
  · rw [hresult]
    exact hafter

theorem adjust_becomes (updater : v → v) (key : k) :
    Becomes map (adjust updater key map) key
      ((entryOf map key).map fun stored => (stored.1, updater stored.2)) := by
  have hspec := adjustNode_spec h.lawful h.canonical updater key
  have hsame := h.becomes_same key
  unfold adjust
  unfold entryOf at hsame ⊢
  rw [toList_eq] at hsame ⊢
  generalize adjustNode map.policy updater (hashFor map.policy key) key 0 map.root = result
    at hspec ⊢
  cases hspec with
  | notFound habsent =>
      rw [habsent] at hsame ⊢
      exact hsame
  | adjusted hstored hafter =>
      rw [hstored]
      exact h.changed hstored hafter

end

section Factories

variable {m : Type z → Type z} [Monad m] [LawfulMonad m]

theorem applyFactoryUpdate_missing (h : map.WellFormed) (valueEquality : v → v → Bool)
    (habsent : entryOf map key = none) (addFactory : k → m v)
    (updateFactory : Option (k → v → m v)) :
    applyFactoryUpdate valueEquality key addFactory updateFactory map =
      addFactory key >>= fun selected => pure (insert key selected map, selected) := by
  have hplan := factoryUpdateNode_planned h.lawful valueEquality key h.canonical
  obtain ⟨policy, size, root⟩ := map
  unfold entryOf at habsent
  rw [toList_eq] at habsent
  cases hplan with
  | found stored rebuild hstored hinsert hrun =>
      rw [hstored] at habsent
      cases habsent
  | missing rebuild hmissing hinsert hrun =>
      cases root with
      | emptyNode => simp [applyFactoryUpdate, insert, insertNode]
      | leaf | collision | branch => simp [applyFactoryUpdate, insert, hinsert, hrun]

/-- On a present class the effect of the second factory is followed by an insertion, when it
changed the value. -/
theorem applyFactoryUpdate_found (h : map.WellFormed) (valueEquality : v → v → Bool)
    {stored : k × v} (hstored : entryOf map key = some stored) (addFactory : k → m v)
    (updateFactory : Option (k → v → m v)) :
    applyFactoryUpdate valueEquality key addFactory updateFactory map =
      selectFactoryValue valueEquality key stored.2 updateFactory >>= fun result =>
        pure (if result.1 then insert key result.2 map else map, result.2) := by
  have hplan := factoryUpdateNode_planned h.lawful valueEquality key h.canonical
  obtain ⟨policy, size, root⟩ := map
  unfold entryOf at hstored
  rw [toList_eq] at hstored
  cases hplan with
  | missing rebuild habsent hinsert hrun =>
      rw [habsent] at hstored
      cases hstored
  | found other rebuild hother hinsert hrun =>
      rw [hstored] at hother
      cases hother
      have hroot : root ≠ .emptyNode := by
        rintro rfl
        cases hstored
      simp only [applyFactoryUpdate, insert, hinsert, hrun, bind_assoc, pure_bind]
      congr 1
      funext result
      obtain ⟨changed, selected⟩ := result
      cases changed <;> rfl

end Factories

theorem getOrAdd_missing (h : map.WellFormed) (habsent : entryOf map key = none)
    (addFactory : k → v) :
    getOrAdd key addFactory map = (insert key (addFactory key) map, addFactory key) := by
  rw [getOrAdd, applyFactoryUpdate_missing h _ habsent]
  rfl

theorem getOrAdd_found (h : map.WellFormed) {stored : k × v}
    (hstored : entryOf map key = some stored) (addFactory : k → v) :
    getOrAdd key addFactory map = (map, stored.2) := by
  rw [getOrAdd, applyFactoryUpdate_found h _ hstored]
  rfl

theorem getOrAdd_becomes (h : map.WellFormed) (key : k) (addFactory : k → v) :
    (getOrAdd key addFactory map).2 = ((entryOf map key).getD (key, addFactory key)).2 ∧
      Becomes map (getOrAdd key addFactory map).1 key
        (some ((entryOf map key).getD (key, addFactory key))) := by
  cases hentry : entryOf map key with
  | none =>
      have hbecomes := insert_becomes h key (addFactory key)
      rw [hentry] at hbecomes
      rw [getOrAdd_missing h hentry]
      exact ⟨rfl, hbecomes⟩
  | some stored =>
      have hbecomes := h.becomes_same key
      rw [hentry] at hbecomes
      rw [getOrAdd_found h hentry]
      exact ⟨rfl, hbecomes⟩

section Updates

variable [BEq v]

/-- The effect that a factory update selects. -/
def selectedEffect {ε : Type} (key : k) (addFactory : k → Except ε v)
    (updateFactory : k → v → Except ε v) : Option (k × v) → Except ε v
  | none => addFactory key
  | some stored => updateFactory key stored.2

/-- The map that a factory update makes of a selected value, and the value it holds then. -/
def selectedMap (identity : Identity k v) (key : k) (map : HashMap k v) (selected : v) :
    HashMap k v × v :=
  match entryOf map key with
  | none => (insert key selected map, selected)
  | some stored =>
      if valuesEqual identity stored.2 selected then (map, stored.2)
      else (insert key selected map, selected)

theorem addOrUpdateEither_selects {ε : Type} (identity : Identity k v) (h : map.WellFormed)
    (key : k) (addFactory : k → Except ε v) (updateFactory : k → v → Except ε v) :
    addOrUpdateEither identity key addFactory updateFactory map =
      (selectedEffect key addFactory updateFactory (entryOf map key)).map
        (selectedMap identity key map) := by
  unfold addOrUpdateEither selectedMap
  cases hentry : entryOf map key with
  | none =>
      rw [applyFactoryUpdate_missing h _ hentry]
      rfl
  | some stored =>
      rw [applyFactoryUpdate_found h _ hentry, selectFactoryValue, selectedEffect]
      cases updateFactory key stored.2 with
      | error problem => rfl
      | ok selected =>
          by_cases hequal : valuesEqual identity stored.2 selected = true <;>
            simp [Except.map, bind, Except.bind, pure, Except.pure, hequal]

theorem addOrUpdate_selects (identity : Identity k v) (h : map.WellFormed) (key : k)
    (addFactory : k → v) (updateFactory : k → v → v) :
    addOrUpdate identity key addFactory updateFactory map =
      selectedMap identity key map
        (((entryOf map key).map fun stored => updateFactory key stored.2).getD
          (addFactory key)) := by
  unfold addOrUpdate selectedMap
  cases hentry : entryOf map key with
  | none =>
      rw [applyFactoryUpdate_missing h _ hentry]
      rfl
  | some stored =>
      rw [applyFactoryUpdate_found h _ hentry, selectFactoryValue]
      dsimp only [Id.run, bind, pure, Option.map, Option.getD]
      split <;> rfl

theorem addOrUpdateEither_eq {ε : Type} (h : map.WellFormed) (identity : Identity k v) (key : k)
    (addFactory : k → Except ε v) (updateFactory : k → v → Except ε v) :
    addOrUpdateEither identity key addFactory updateFactory map =
      (selectedEffect key addFactory updateFactory (entryOf map key)).map fun value =>
        addOrUpdate identity key (fun _ => value) (fun _ _ => value) map := by
  rw [addOrUpdateEither_selects identity h]
  congr 1
  funext value
  rw [addOrUpdate_selects identity h]
  cases entryOf map key <;> rfl

/-- The entry of a class after an update by one of two factories. -/
def addedOrUpdated (key : k) (addFactory : k → v) (updateFactory : k → v → v) :
    Option (k × v) → k × v
  | none => (key, addFactory key)
  | some stored =>
      (stored.1, if stored.2 == updateFactory key stored.2 then stored.2
        else updateFactory key stored.2)

theorem addOrUpdate_becomes {identity : Identity k v} (hsound : identity.Sound)
    (h : map.WellFormed) (key : k) (addFactory : k → v) (updateFactory : k → v → v) :
    (addOrUpdate identity key addFactory updateFactory map).2 =
        (addedOrUpdated key addFactory updateFactory (entryOf map key)).2 ∧
      Becomes map (addOrUpdate identity key addFactory updateFactory map).1 key
        (some (addedOrUpdated key addFactory updateFactory (entryOf map key))) := by
  rw [addOrUpdate_selects identity h, selectedMap]
  cases hentry : entryOf map key with
  | none =>
      have hbecomes := insert_becomes h key (addFactory key)
      rw [hentry] at hbecomes
      exact ⟨rfl, hbecomes⟩
  | some stored =>
      have hsame := h.becomes_same key
      have hbecomes := insert_becomes h key (updateFactory key stored.2)
      rw [hentry] at hsame hbecomes
      simp only [addedOrUpdated, ← hsound.select_eq, Option.map_some, Option.getD_some]
      split
      · exact ⟨rfl, hsame⟩
      · exact ⟨rfl, hbecomes⟩

end Updates

end Becoming

theorem fromListWith_spec {hashPolicy : HashPolicy k} (hlawful : hashPolicy.Lawful)
    (entries : List (k × v)) :
    (fromListWith hashPolicy entries).WellFormed ∧
      (fromListWith hashPolicy entries).policy = hashPolicy ∧
      ∀ key, entryOf (fromListWith hashPolicy entries) key =
        gathered hashPolicy.equalKeys key entries := by
  induction entries using List.reverseRecOn with
  | nil => exact ⟨emptyWith_wellFormed hlawful, rfl, fun _ => rfl⟩
  | append_singleton entries entry ih =>
      obtain ⟨hwellFormed, hpolicy, hentries⟩ := ih
      have hinsert := insert_becomes hwellFormed entry.1 entry.2
      have hstep : fromListWith hashPolicy (entries ++ [entry]) =
          insert entry.1 entry.2 (fromListWith hashPolicy entries) := by
        rw [fromListWith, foldl_append]
        rfl
      rw [hstep]
      refine ⟨hinsert.wellFormed, hinsert.policy_eq.trans hpolicy, ?_⟩
      intro key
      rw [hinsert.entryOf_eq, hpolicy, gathered_concat, hentries, hentries]
      split
      · rename_i hkey
        have hgathered : gathered hashPolicy.equalKeys entry.1 entries =
            gathered hashPolicy.equalKeys key entries := by
          unfold gathered
          congr 1
          apply filter_congr
          intro other _
          exact (same_congr hlawful.equivalence hkey other.1).symm
        rw [hgathered]
      · rfl

variable [BEq v] {identity : Identity k v}

theorem combineMaps_spec (hsound : identity.Sound) (operation : CombineOperation)
    {left right : HashMap k v} (hleft : left.WellFormed) (hright : right.WellFormed) :
    (combineMaps identity operation left right).WellFormed ∧
      (combineMaps identity operation left right).policy = left.policy ∧
      ∀ key, entryOf (combineMaps identity operation left right) key =
        combineAt operation (entryOf left key)
          (gathered left.policy.equalKeys key (toList right)) := by
  have hequivalence := hleft.lawful.equivalence
  have hbuilt : ∀ {root : Node k v} {node : Node k v},
      Combined left.policy operation 0 left.root node root →
      (∀ key, entryAt left.policy.equalKeys key (nodeEntries node) =
        gathered left.policy.equalKeys key (toList right)) →
      (⟨left.policy, nodeCardinality root, root⟩ : HashMap k v).WellFormed ∧
        (⟨left.policy, nodeCardinality root, root⟩ : HashMap k v).policy = left.policy ∧
        ∀ key, entryOf (⟨left.policy, nodeCardinality root, root⟩ : HashMap k v) key =
          combineAt operation (entryOf left key)
            (gathered left.policy.equalKeys key (toList right)) := by
    intro root node hroot hnode
    refine ⟨⟨hleft.lawful, hroot.canonical, rfl⟩, rfl, ?_⟩
    intro key
    rw [entryOf, toList_eq, hroot.entries, hnode, entryOf, toList_eq left]
  have hbeside : ∀ node : Node k v, Beside left.policy 0 left.root node :=
    fun _ _ _ _ _ => agree_zero _ _
  unfold combineMaps
  dsimp only
  split
  · rename_i hidentity
    have hroots := hsound.nodes_eq _ _ hidentity
    have hsame := combined_same operation hleft.canonical
    have hgathered : ∀ key, entryAt left.policy.equalKeys key (nodeEntries left.root) =
        gathered left.policy.equalKeys key (toList right) := by
      intro key
      rw [toList_eq, ← hroots, gathered_of_distinct hequivalence
        (hleft.canonical.distinct hleft.lawful)]
    cases operation with
    | combineUnion => exact hbuilt hsame hgathered
    | combineIntersection => exact hbuilt hsame hgathered
    | combineDifference => exact hbuilt hsame hgathered
    | combineSymmetricDifference => exact hbuilt hsame hgathered
  · split
    · rename_i hpolicies
      have hpolicy := hsound.policies_eq _ _ hpolicies
      have hcanonical : Canonical left.policy 0 right.root := hpolicy ▸ hright.canonical
      apply hbuilt (combineNodes_spec hleft.lawful hsound operation hleft.canonical hcanonical
        (hbeside _))
      intro key
      rw [toList_eq, gathered_of_distinct hequivalence (hcanonical.distinct hleft.lawful)]
    · obtain ⟨hwellFormed, hpolicy, hentries⟩ :=
        fromListWith_spec hleft.lawful (nodeEntries right.root)
      have hcanonical := hwellFormed.canonical
      rw [hpolicy] at hcanonical
      apply hbuilt (combineNodes_spec hleft.lawful hsound operation hleft.canonical hcanonical
        (hbeside _))
      intro key
      rw [toList_eq, ← hentries, entryOf, hpolicy, toList_eq]

end HashMap

end Durable7.Hamt
