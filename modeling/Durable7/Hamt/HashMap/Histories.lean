import Durable7.Hamt.HashMap.Validation

/-!
# Histories of a hash map

A history is a finite expression over the operations.  Its meaning assigns to every class
of keys the first key that is still there beside the value stored last.
-/

namespace Durable7.Hamt.HashMap

open Foundation

section

structure LawfulPolicy (k : Type) extends HashPolicy k where
  lawful : toHashPolicy.Lawful

structure SoundIdentity (k v : Type) extends Identity k v where
  sound : toIdentity.Sound

/-- The versions under one policy.  A combination may take a right version under another. -/
inductive History (k v : Type) : LawfulPolicy k → Type where
  | empty {policy : LawfulPolicy k} : History k v policy
  | insert {policy : LawfulPolicy k} (key : k) (value : v) (history : History k v policy) :
      History k v policy
  | insertNew {policy : LawfulPolicy k} (key : k) (value : v) (history : History k v policy) :
      History k v policy
  | delete {policy : LawfulPolicy k} (key : k) (history : History k v policy) : History k v policy
  | tryRemove {policy : LawfulPolicy k} (key : k) (history : History k v policy) :
      History k v policy
  | adjust {policy : LawfulPolicy k} (updater : v → v) (key : k) (history : History k v policy) :
      History k v policy
  | getOrAdd {policy : LawfulPolicy k} (key : k) (addFactory : k → v)
      (history : History k v policy) : History k v policy
  | addOrUpdate {policy : LawfulPolicy k} (identity : SoundIdentity k v) (key : k)
      (addFactory : k → v) (updateFactory : k → v → v) (history : History k v policy) :
      History k v policy
  | combine {policy : LawfulPolicy k} (identity : SoundIdentity k v)
      (operation : CombineOperation) (left right : History k v policy) : History k v policy
  | combineForeign {policy other : LawfulPolicy k} (identity : SoundIdentity k v)
      (operation : CombineOperation) (left : History k v policy) (right : History k v other) :
      History k v policy

namespace History

variable {k v : Type} [BEq v]

def eval {policy : LawfulPolicy k} : History k v policy → HashMap k v
  | .empty => emptyWith policy.toHashPolicy
  | .insert key value history => HashMap.insert key value history.eval
  | .insertNew key value history => (HashMap.insertNew key value history.eval).getD history.eval
  | .delete key history => HashMap.delete key history.eval
  | .tryRemove key history =>
      match HashMap.tryRemove key history.eval with
      | some (_, rest) => rest
      | none => history.eval
  | .adjust updater key history => HashMap.adjust updater key history.eval
  | .getOrAdd key addFactory history => (HashMap.getOrAdd key addFactory history.eval).1
  | .addOrUpdate identity key addFactory updateFactory history =>
      (HashMap.addOrUpdate identity.toIdentity key addFactory updateFactory history.eval).1
  | .combine identity operation left right =>
      combineMaps identity.toIdentity operation left.eval right.eval
  | .combineForeign identity operation left right =>
      combineMaps identity.toIdentity operation left.eval right.eval

/-- One class gets a new entry, or loses it. -/
def assign (same : k → k → Bool) (key : k) (entry : Option (k × v))
    (meaning : k → Option (k × v)) (other : k) : Option (k × v) :=
  if same other key then entry else meaning other

def meaning {policy : LawfulPolicy k} : History k v policy → k → Option (k × v)
  | .empty => fun _ => none
  | .insert key value history =>
      assign policy.equalKeys key (putSlot (history.meaning key) (key, value)) history.meaning
  | .insertNew key value history =>
      assign policy.equalKeys key (some ((history.meaning key).getD (key, value))) history.meaning
  | .delete key history => assign policy.equalKeys key none history.meaning
  | .tryRemove key history => assign policy.equalKeys key none history.meaning
  | .adjust updater key history =>
      assign policy.equalKeys key
        ((history.meaning key).map fun stored => (stored.1, updater stored.2)) history.meaning
  | .getOrAdd key addFactory history =>
      assign policy.equalKeys key (some ((history.meaning key).getD (key, addFactory key)))
        history.meaning
  | .addOrUpdate _ key addFactory updateFactory history =>
      assign policy.equalKeys key
        (some (addedOrUpdated key addFactory updateFactory (history.meaning key)))
        history.meaning
  | .combine _ operation left right => fun key =>
      combineAt operation (left.meaning key) (right.meaning key)
  | .combineForeign _ operation left right => fun key =>
      combineAt operation (left.meaning key) (gathered policy.equalKeys key (toList right.eval))

/-- A version of the map against its abstract meaning. -/
structure Refines (policy : LawfulPolicy k) (map : HashMap k v) (meaning : k → Option (k × v)) :
    Prop where
  wellFormed : map.WellFormed
  policy_eq : map.policy = policy.toHashPolicy
  entryOf_eq : ∀ key, entryOf map key = meaning key

omit [BEq v] in
theorem Refines.step {policy : LawfulPolicy k} {map after : HashMap k v}
    {meaning : k → Option (k × v)} {key : k} {entry : Option (k × v)}
    (h : Refines policy map meaning) (hafter : Becomes map after key entry) :
    Refines policy after (assign policy.equalKeys key entry meaning) := by
  refine ⟨hafter.wellFormed, hafter.policy_eq.trans h.policy_eq, ?_⟩
  intro other
  rw [hafter.entryOf_eq, h.policy_eq, h.entryOf_eq]
  rfl

theorem eval_meaning {policy : LawfulPolicy k} (history : History k v policy) :
    Refines policy history.eval history.meaning := by
  induction history with
  | empty => exact ⟨emptyWith_wellFormed (LawfulPolicy.lawful _), rfl, fun _ => rfl⟩
  | insert key value history ih =>
      have hstep := ih.step (insert_becomes ih.wellFormed key value)
      rwa [ih.entryOf_eq] at hstep
  | insertNew key value history ih =>
      rcases insertNew_becomes ih.wellFormed key value with ⟨habsent, after, hresult, hafter⟩ |
        ⟨hpresent, hresult⟩
      · rw [eval, hresult, meaning, ← ih.entryOf_eq, habsent]
        exact ih.step hafter
      · have hsame := ih.step (ih.wellFormed.becomes_same key)
        obtain ⟨stored, hstored⟩ := Option.isSome_iff_exists.mp hpresent
        rw [eval, hresult, meaning, ← ih.entryOf_eq, hstored]
        rw [hstored] at hsame
        exact hsame
  | delete key history ih => exact ih.step (delete_becomes ih.wellFormed key)
  | tryRemove key history ih => exact ih.step (delete_becomes ih.wellFormed key)
  | adjust updater key history ih =>
      have hstep := ih.step (adjust_becomes ih.wellFormed updater key)
      rwa [ih.entryOf_eq] at hstep
  | getOrAdd key addFactory history ih =>
      have hstep := ih.step (getOrAdd_becomes ih.wellFormed key addFactory).2
      rwa [ih.entryOf_eq] at hstep
  | addOrUpdate identity key addFactory updateFactory history ih =>
      have hstep := ih.step
        (addOrUpdate_becomes identity.sound ih.wellFormed key addFactory updateFactory).2
      rwa [ih.entryOf_eq] at hstep
  | @combine policy identity operation left right ihLeft ihRight =>
      obtain ⟨hwellFormed, hpolicy, hentries⟩ :=
        combineMaps_spec identity.sound operation ihLeft.wellFormed ihRight.wellFormed
      refine ⟨hwellFormed, hpolicy.trans ihLeft.policy_eq, ?_⟩
      intro key
      have hright := ihRight.wellFormed.distinct
      rw [ihRight.policy_eq] at hright
      change _ = combineAt operation (left.meaning key) (right.meaning key)
      rw [eval, hentries, ihLeft.entryOf_eq, ihLeft.policy_eq, gathered_of_distinct
        policy.lawful.equivalence hright, ← ihRight.entryOf_eq, entryOf, ihRight.policy_eq]
  | @combineForeign policy other identity operation left right ihLeft ihRight =>
      obtain ⟨hwellFormed, hpolicy, hentries⟩ :=
        combineMaps_spec identity.sound operation ihLeft.wellFormed ihRight.wellFormed
      refine ⟨hwellFormed, hpolicy.trans ihLeft.policy_eq, ?_⟩
      intro key
      rw [eval, hentries, ihLeft.entryOf_eq, ihLeft.policy_eq, meaning]

/-- A version passes the structural check and shows exactly its meaning. -/
theorem eval_refines {policy : LawfulPolicy k} (history : History k v policy) :
    validStructure history.eval = true ∧
      history.eval.size = (toList history.eval).length ∧
      (toList history.eval).Pairwise (fun left right => policy.equalKeys left.1 right.1 = false) ∧
      (∀ key, (∃ entry ∈ toList history.eval, policy.equalKeys key entry.1 = true) ↔
        (history.meaning key).isSome = true) ∧
      (∀ entry ∈ toList history.eval, history.meaning entry.1 = some entry) ∧
      (∀ key, lookup key history.eval = (history.meaning key).map Prod.snd) ∧
      ∀ key, actualKey key history.eval = (history.meaning key).map Prod.fst := by
  have h := history.eval_meaning
  have hdistinct := h.wellFormed.distinct
  rw [h.policy_eq] at hdistinct
  have hentry : ∀ key, entryAt policy.equalKeys key (toList history.eval) =
      history.meaning key := by
    intro key
    rw [← h.entryOf_eq, entryOf, h.policy_eq]
  refine ⟨h.wellFormed.validStructure_eq, h.wellFormed.size_toList, hdistinct, ?_, ?_, ?_, ?_⟩
  · intro key
    rw [← hentry, entryAt, List.find?_isSome]
  · intro entry hmem
    rw [← hentry]
    exact entryAt_self policy.lawful.equivalence hdistinct hmem
  · intro key
    rw [h.wellFormed.lookup_eq, h.entryOf_eq]
  · intro key
    rw [h.wellFormed.actualKey_eq, h.entryOf_eq]

end History

structure CanonicalMap (k v : Type) where
  map : HashMap k v
  wellFormed : map.WellFormed

variable {k v : Type} [BEq v]

def History.version {policy : LawfulPolicy k} (history : History k v policy) : CanonicalMap k v :=
  ⟨history.eval, history.eval_meaning.wellFormed⟩

theorem History.version_policy {policy : LawfulPolicy k} (history : History k v policy) :
    history.version.map.policy = policy.toHashPolicy :=
  history.eval_meaning.policy_eq

omit [BEq v] in
theorem WellFormed.size_of_entries {left right : HashMap k v} (hleft : left.WellFormed)
    (hright : right.WellFormed) (hpolicy : right.policy = left.policy)
    (h : ∀ key, entryOf left key = entryOf right key) : left.size = right.size := by
  have hdistinct := hright.distinct
  rw [hpolicy] at hdistinct
  have hperm := perm_of_entryAt hleft.lawful.equivalence hleft.distinct hdistinct (by
    intro key
    have := h key
    unfold entryOf at this
    rwa [hpolicy] at this)
  rw [hleft.size_toList, hright.size_toList, hperm.length_eq]

/-- A right map under another policy counts as inserted again, in its order. -/
theorem combineMaps_pointwise (identity : SoundIdentity k v) (operation : CombineOperation)
    (left right : CanonicalMap k v) :
    let result := combineMaps identity.toIdentity operation left.map right.map
    let again := fromListWith left.map.policy (toList right.map)
    result.policy = left.map.policy ∧
      (∀ key, lookup key result =
          (combineAt operation (entryOf left.map key) (entryOf again key)).map Prod.snd ∧
        actualKey key result =
          (combineAt operation (entryOf left.map key) (entryOf again key)).map Prod.fst) ∧
      (right.map.policy = left.map.policy → ∀ key, entryOf again key = entryOf right.map key) ∧
      result.size = (toList result).length ∧
      (toList result).Pairwise
        (fun first second => left.map.policy.equalKeys first.1 second.1 = false) ∧
      (∀ key, (∃ entry ∈ toList result, left.map.policy.equalKeys key entry.1 = true) ↔
        (combineAt operation (entryOf left.map key) (entryOf again key)).isSome = true) ∧
      ∀ other : SoundIdentity k v,
        (combineMaps other.toIdentity operation left.map right.map).size = result.size := by
  intro result again
  obtain ⟨hresult, hpolicy, hentries⟩ :=
    combineMaps_spec identity.sound operation left.wellFormed right.wellFormed
  obtain ⟨-, -, hagain⟩ := fromListWith_spec left.wellFormed.lawful (toList right.map)
  have hentry : ∀ key, entryOf result key =
      combineAt operation (entryOf left.map key) (entryOf again key) := by
    intro key
    rw [hentries, hagain]
  refine ⟨hpolicy, ?_, ?_, hresult.size_toList, ?_, ?_, ?_⟩
  · intro key
    rw [hresult.lookup_eq, hresult.actualKey_eq, hentry]
    exact ⟨rfl, rfl⟩
  · intro hsame key
    have hdistinct := right.wellFormed.distinct
    rw [hsame] at hdistinct
    rw [hagain, gathered_of_distinct left.wellFormed.lawful.equivalence hdistinct, entryOf, hsame]
  · have hdistinct := hresult.distinct
    rwa [hpolicy] at hdistinct
  · intro key
    rw [← hentry, entryOf, hpolicy, entryAt, List.find?_isSome]
  · intro other
    obtain ⟨hother, hotherPolicy, hotherEntries⟩ :=
      combineMaps_spec other.sound operation left.wellFormed right.wellFormed
    apply hother.size_of_entries hresult (hpolicy.trans hotherPolicy.symm)
    intro key
    rw [hotherEntries, hentries]

end

/-!
## Topology

The classes of a canonical trie determine its shape, whatever built it.
-/

open List

variable {k v w : Type} {hashPolicy : HashPolicy k}

/-- Two lists hold the same classes of keys. -/
def SameClasses (hashPolicy : HashPolicy k) (left : List (k × v)) (right : List (k × w)) : Prop :=
  ∀ key, (entryAt hashPolicy.equalKeys key left).isSome =
    (entryAt hashPolicy.equalKeys key right).isSome

variable {left : List (k × v)} {right : List (k × w)}

theorem SameClasses.symm (h : SameClasses hashPolicy left right) :
    SameClasses hashPolicy right left :=
  fun key => (h key).symm

theorem SameClasses.exists_same (hlawful : hashPolicy.Lawful)
    (h : SameClasses hashPolicy left right) {entry : k × v} (hentry : entry ∈ left) :
    ∃ other ∈ right, hashPolicy.equalKeys entry.1 other.1 = true := by
  have hsome : (entryAt hashPolicy.equalKeys entry.1 right).isSome = true := by
    rw [← h, entryAt, List.find?_isSome]
    exact ⟨entry, hentry, same_refl hlawful.equivalence entry.1⟩
  obtain ⟨other, hother⟩ := Option.isSome_iff_exists.mp hsome
  exact ⟨other, mem_of_entryAt hother⟩

theorem SameClasses.spread (hlawful : hashPolicy.Lawful) (h : SameClasses hashPolicy left right)
    (hspread : Spread hashPolicy left) : Spread hashPolicy right := by
  obtain ⟨first, hfirst, second, hsecond, hne⟩ := hspread
  obtain ⟨first', hfirst', hkey⟩ := h.exists_same hlawful hfirst
  obtain ⟨second', hsecond', hkey'⟩ := h.exists_same hlawful hsecond
  refine ⟨first', hfirst', second', hsecond', ?_⟩
  rwa [← hashFor_eq hlawful hkey, ← hashFor_eq hlawful hkey']

variable {others : Nat → Node k w} {slots : Nat → Node k v}

theorem SameClasses.slot (hlawful : hashPolicy.Lawful) {shift : Nat}
    (hslots : Routed hashPolicy shift slots) (hothers : Routed hashPolicy shift others)
    (h : SameClasses hashPolicy (slotEntries slots) (slotEntries others)) {place : Nat}
    (hplace : place < 32) :
    SameClasses hashPolicy (nodeEntries (slots place)) (nodeEntries (others place)) := by
  intro key
  by_cases hindex : hashIndex (hashFor hashPolicy key) shift = place
  · rw [← hindex, ← hslots.entryAt_eq hlawful, ← hothers.entryAt_eq hlawful]
    exact h key
  · have hnone : ∀ {u : Type} {routed : Nat → Node k u}, Routed hashPolicy shift routed →
        entryAt hashPolicy.equalKeys key (nodeEntries (routed place)) = none := by
      intro u routed hrouted
      apply entryAt_eq_none.mpr
      intro entry hentry
      by_contra hkey
      apply hindex
      rw [hashFor_eq hlawful (Bool.of_not_eq_false hkey)]
      exact hrouted.routes place hplace entry hentry
    rw [hnone hslots, hnone hothers]
    rfl

/-! ### Kinds of nodes -/

section

variable {left : Node k v} {right : Node k w} (h : sameNodeTopology hashPolicy left right = true)
include h

theorem sameNodeTopology_payload :
    (payload? left).map Prod.fst = (payload? right).map Prod.fst := by
  cases left <;> cases right <;> simp_all [sameNodeTopology, payload?]

theorem sameNodeTopology_child :
    (child? left = none ∧ child? right = none) ∨
      (child? left = some left ∧ child? right = some right) := by
  cases left <;> cases right <;> simp_all [sameNodeTopology, child?]

end

theorem sameTopologies_slots {places : List Nat}
    (h : ∀ place ∈ places, sameNodeTopology hashPolicy (slots place) (others place) = true) :
    (places.filterMap fun place => child? (slots place)).length =
        (places.filterMap fun place => child? (others place)).length ∧
      sameTopologies hashPolicy (places.filterMap fun place => child? (slots place))
        (places.filterMap fun place => child? (others place)) = true := by
  induction places with
  | nil => exact ⟨rfl, rfl⟩
  | cons place places ih =>
      obtain ⟨hlength, hrest⟩ := ih fun other hother => h other (mem_cons_of_mem _ hother)
      have hplace := h place mem_cons_self
      rcases sameNodeTopology_child hplace with ⟨hleft, hright⟩ | ⟨hleft, hright⟩
      · rw [filterMap_cons_none (f := fun other => child? (slots other)) hleft,
          filterMap_cons_none (f := fun other => child? (others other)) hright]
        exact ⟨hlength, hrest⟩
      · rw [filterMap_cons_some (f := fun other => child? (slots other)) hleft,
          filterMap_cons_some (f := fun other => child? (others other)) hright, length_cons,
          length_cons, sameTopologies, hplace, hrest, hlength]
        exact ⟨rfl, rfl⟩

theorem sameTopology_branch {dataMap nodeMap otherData otherNodes : BitVec 32}
    {payloads : List (BitVec 32 × k × v)} {otherPayloads : List (BitVec 32 × k × w)}
    {children : List (Node k v)} {otherChildren : List (Node k w)}
    (hpacked : Packed slots dataMap nodeMap payloads children)
    (hother : Packed others otherData otherNodes otherPayloads otherChildren)
    (h : ∀ place < 32, sameNodeTopology hashPolicy (slots place) (others place) = true)
    (count otherCount : Nat) :
    sameNodeTopology hashPolicy (.branch count dataMap nodeMap payloads children)
      (.branch otherCount otherData otherNodes otherPayloads otherChildren) = true := by
  have hdata : dataMap = otherData := by
    apply BitVec.eq_of_getLsbD_eq
    intro place hplace
    have hhash := congrArg Option.isSome (sameNodeTopology_payload (h place hplace))
    rw [hpacked.data.bit_eq place hplace, hother.data.bit_eq place hplace]
    rwa [Option.isSome_map, Option.isSome_map] at hhash
  have hnodes : nodeMap = otherNodes := by
    apply BitVec.eq_of_getLsbD_eq
    intro place hplace
    rw [hpacked.nodes.bit_eq place hplace, hother.nodes.bit_eq place hplace]
    rcases sameNodeTopology_child (h place hplace) with ⟨hleft, hright⟩ | ⟨hleft, hright⟩
    · rw [hleft, hright]
      rfl
    · rw [hleft, hright]
      rfl
  have hhashes : payloads.map Prod.fst = otherPayloads.map Prod.fst := by
    rw [hpacked.data.items_eq, hother.data.items_eq, map_filterMap, map_filterMap]
    apply filterMap_congr
    intro place hplace
    exact sameNodeTopology_payload (h place (mem_range.mp hplace))
  obtain ⟨hlength, hchildren⟩ :=
    sameTopologies_slots fun place hplace => h place (mem_range.mp hplace)
  rw [← hpacked.nodes.items_eq, ← hother.nodes.items_eq] at hlength hchildren
  rw [sameNodeTopology, hdata, hnodes, hhashes, hlength, hchildren]
  simp

theorem Canonical.sameNodeTopology_eq (hlawful : hashPolicy.Lawful) {shift : Nat}
    {left : Node k v} {right : Node k w} (hleft : Canonical hashPolicy shift left)
    (hright : Canonical hashPolicy shift right)
    (h : SameClasses hashPolicy (nodeEntries left) (nodeEntries right)) :
    sameNodeTopology hashPolicy left right = true := by
  have hlength := length_of_classes hlawful.equivalence (hleft.distinct hlawful)
    (hright.distinct hlawful) h
  induction hleft generalizing right with
  | emptyNode =>
      rw [hright.eq_emptyNode (eq_nil_of_length_eq_zero hlength.symm)]
      rfl
  | @leaf shift hashValue key value hhash =>
      obtain ⟨other, hother, hkey⟩ := h.exists_same hlawful mem_cons_self
      have hhashOther := hashFor_eq hlawful hkey
      cases hright with
      | emptyNode => cases hother
      | leaf hhash' =>
          rw [mem_singleton.mp hother] at hhashOther
          rw [sameNodeTopology, ← hhash, ← hhash', hhashOther]
          exact beq_self_eq_true _
      | collision hcount' hsize' hhash' hdistinct' =>
          rw [nodeEntries, nodeEntries, length_singleton] at hlength
          omega
      | branch hcount' hshift' hpacked' hslots' hroutes' hspread' =>
          have hspread := h.symm.spread hlawful
            (hspread'.mono fun _ => (hpacked'.entries_perm _).mem_iff.mpr)
          have hcanonical : Canonical hashPolicy shift (Node.leaf hashValue key value) :=
            .leaf hhash
          exact absurd hspread (hcanonical.not_spread rfl)
  | @collision shift count hashValue entries hcount hsize hhash hdistinct =>
      cases hright with
      | emptyNode =>
          change entries.length = 0 at hlength
          omega
      | leaf hhash' =>
          change entries.length = 1 at hlength
          omega
      | @collision _ count' hashValue' entries' hcount' hsize' hhash' hdistinct' =>
          obtain ⟨entry, hentry⟩ := exists_mem_of_length_pos (l := entries) (by omega)
          obtain ⟨other, hother, hkey⟩ := h.exists_same hlawful hentry
          have hsameHash : hashValue = hashValue' := by
            rw [← hhash entry hentry, hashFor_eq hlawful hkey]
            exact hhash' other hother
          have hall : (entries.all fun entry =>
              entries'.any fun other => hashPolicy.equalKeys entry.1 other.1) = true := by
            rw [all_eq_true]
            intro entry hentry
            rw [any_eq_true]
            exact h.exists_same hlawful hentry
          change entries.length = entries'.length at hlength
          rw [sameNodeTopology, hsameHash, hlength, hall]
          simp
      | branch hcount' hshift' hpacked' hslots' hroutes' hspread' =>
          have hspread := h.symm.spread hlawful
            (hspread'.mono fun _ => (hpacked'.entries_perm _).mem_iff.mpr)
          have hcanonical : Canonical hashPolicy shift (Node.collision count hashValue entries) :=
            .collision hcount hsize hhash hdistinct
          exact absurd hspread (hcanonical.not_spread rfl)
  | @branch shift count dataMap nodeMap payloads children slots hcount hshift hpacked hslots
      hroutes hspread ih =>
      have hspreadRight := h.spread hlawful
        (hspread.mono fun _ => (hpacked.entries_perm _).mem_iff.mpr)
      by_cases hnode : isHashNode right = true
      · exact absurd hspreadRight (hright.not_spread hnode)
      · cases hright with
        | emptyNode =>
            obtain ⟨entry, hentry, -⟩ := hspreadRight
            cases hentry
        | leaf hhash' => exact absurd rfl hnode
        | collision hcount' hsize' hhash' hdistinct' => exact absurd rfl hnode
        | @branch _ count' dataMap' nodeMap' payloads' children' others hcount' hshift' hpacked'
            hslots' hroutes' hspread' =>
            have hrouted : Routed hashPolicy shift slots := ⟨hslots, hroutes⟩
            have hrouted' : Routed hashPolicy shift others := ⟨hslots', hroutes'⟩
            have hclasses : SameClasses hashPolicy (slotEntries slots) (slotEntries others) := by
              intro key
              rw [hrouted.entryAt_eq hlawful, hrouted'.entryAt_eq hlawful,
                ← hpacked.entryAt_eq hlawful hrouted count,
                ← hpacked'.entryAt_eq hlawful hrouted' count']
              exact h key
            apply sameTopology_branch hpacked hpacked'
            intro place hplace
            have hslot := hclasses.slot hlawful hrouted hrouted' hplace
            exact ih place hplace (hslots' place hplace) hslot
              (length_of_classes hlawful.equivalence ((hslots place hplace).distinct hlawful)
                ((hslots' place hplace).distinct hlawful) hslot)

/-- A factory update is the selected effect and then an insertion, unless the value is there. -/
theorem History.updates_in_one_descent [BEq v] {ε : Type} {policy : LawfulPolicy k}
    (history : History k v policy) (identity : SoundIdentity k v) (key : k)
    (addFactory : k → Except ε v) (updateFactory : k → v → Except ε v) :
    (∀ problem, addOrUpdateEither identity.toIdentity key addFactory updateFactory history.eval =
        .error problem ↔
      selectedEffect key addFactory updateFactory (entryOf history.eval key) = .error problem) ∧
    (∀ selected,
      selectedEffect key addFactory updateFactory (entryOf history.eval key) = .ok selected →
      (∀ stored, entryOf history.eval key = some stored →
        valuesEqual identity.toIdentity stored.2 selected = true →
        addOrUpdateEither identity.toIdentity key addFactory updateFactory history.eval =
          .ok (history.eval, stored.2)) ∧
      ((∀ stored, entryOf history.eval key = some stored →
          valuesEqual identity.toIdentity stored.2 selected = false) →
        addOrUpdateEither identity.toIdentity key addFactory updateFactory history.eval =
          .ok (HashMap.insert key selected history.eval, selected))) ∧
    (∀ unused, entryOf history.eval key ≠ none →
      addOrUpdateEither identity.toIdentity key unused updateFactory history.eval =
        addOrUpdateEither identity.toIdentity key addFactory updateFactory history.eval) ∧
    (∀ unused, entryOf history.eval key = none →
      addOrUpdateEither identity.toIdentity key addFactory unused history.eval =
        addOrUpdateEither identity.toIdentity key addFactory updateFactory history.eval) ∧
    (∀ factory stored, entryOf history.eval key = some stored →
      HashMap.getOrAdd key factory history.eval = (history.eval, stored.2)) ∧
    ∀ factory, entryOf history.eval key = none →
      HashMap.getOrAdd key factory history.eval =
        (HashMap.insert key (factory key) history.eval, factory key) := by
  have hmap := history.eval_meaning.wellFormed
  simp only [addOrUpdateEither_selects identity.toIdentity hmap]
  refine ⟨fun problem => ?_, fun selected hselected => ⟨fun stored hstored hequal => ?_, ?_⟩,
    fun unused hpresent => ?_, fun unused habsent => ?_,
    fun factory stored hstored => getOrAdd_found hmap hstored factory,
    fun factory habsent => getOrAdd_missing hmap habsent factory⟩
  · cases selectedEffect key addFactory updateFactory (entryOf history.eval key) <;>
      simp [Except.map]
  · rw [hselected]
    simp [Except.map, selectedMap, hstored, hequal]
  · intro hchanged
    rw [hselected, Except.map, selectedMap]
    cases hentry : entryOf history.eval key with
    | none => rfl
    | some stored => simp [hchanged stored hentry]
  · obtain ⟨stored, hstored⟩ := Option.ne_none_iff_exists'.mp hpresent
    rw [hstored]
    rfl
  · rw [habsent]
    rfl

/-- Two histories that end with the same keys end with the same shape. -/
theorem History.sameTopology [BEq v] {policy : LawfulPolicy k} (left right : History k v policy)
    (hleft : ∀ entry ∈ toList left.eval, ∃ other ∈ toList right.eval,
      policy.equalKeys entry.1 other.1 = true)
    (hright : ∀ entry ∈ toList right.eval, ∃ other ∈ toList left.eval,
      policy.equalKeys entry.1 other.1 = true) :
    sameTopology left.eval right.eval = true := by
  have hleftEval := left.eval_meaning
  have hrightEval := right.eval_meaning
  have hleftCanonical := hleftEval.wellFormed.canonical
  have hrightCanonical := hrightEval.wellFormed.canonical
  rw [hleftEval.policy_eq] at hleftCanonical
  rw [hrightEval.policy_eq] at hrightCanonical
  rw [HashMap.sameTopology, hleftEval.policy_eq]
  apply hleftCanonical.sameNodeTopology_eq policy.lawful hrightCanonical
  intro key
  rw [← toList_eq, ← toList_eq, Bool.eq_iff_iff, entryAt, entryAt, List.find?_isSome,
    List.find?_isSome]
  constructor
  · rintro ⟨entry, hentry, hkey⟩
    obtain ⟨other, hother, hsame⟩ := hleft entry hentry
    exact ⟨other, hother, policy.lawful.equivalence.trans hkey hsame⟩
  · rintro ⟨entry, hentry, hkey⟩
    obtain ⟨other, hother, hsame⟩ := hright entry hentry
    exact ⟨other, hother, policy.lawful.equivalence.trans hkey hsame⟩

def remainderPolicy : LawfulPolicy Nat where
  equalKeys left right := left == right
  hashKey key := ((key % 2 : Nat) : Int)
  lawful := ⟨⟨fun _ => beq_self_eq_true _, fun h => by simp_all, fun h h' => by simp_all⟩,
    fun left right h => by simp_all⟩

theorem History.sameTopology_remainder :
    HashMap.sameTopology
      (History.delete 5 (.insert 2 7 (.insert 5 6 (.insert 0 1 .empty))) :
        History Nat Nat remainderPolicy).eval
      (History.insert 0 3 (.insert 2 4 .empty) : History Nat Nat remainderPolicy).eval = true :=
  History.sameTopology _ _ (by decide +kernel) (by decide +kernel)

end Durable7.Hamt.HashMap
