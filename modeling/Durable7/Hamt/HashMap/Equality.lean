import Durable7.Hamt.HashMap.Assignments
import Durable7.Hamt.HashMap.Differences

/-!
# Equality against difference

The differences of two maps say how to turn the one into the other.
-/

namespace Durable7.Hamt.HashMap

open Foundation List

variable {k v : Type}

/-! ## Applying differences -/

def differenceKey : MapDifference k v → k
  | .entryAdded key _ => key
  | .entryRemoved key _ => key
  | .entryChanged key _ _ => key

/-- The value that a difference leaves under its key. -/
def differenceValue : MapDifference k v → Option v
  | .entryAdded _ value => some value
  | .entryRemoved _ _ => none
  | .entryChanged _ _ after => some after

def isAddition : MapDifference k v → Bool
  | .entryAdded _ _ => true
  | _ => false

def applyDifference (map : HashMap k v) : MapDifference k v → HashMap k v
  | .entryAdded key value => insert key value map
  | .entryRemoved key _ => delete key map
  | .entryChanged key _ after => insert key after map

def applyDifferences (differences : List (MapDifference k v)) (map : HashMap k v) : HashMap k v :=
  differences.foldl applyDifference map

theorem applyDifference_eq (map : HashMap k v) (difference : MapDifference k v) :
    applyDifference map difference =
      assignValue map (differenceKey difference, differenceValue difference) := by
  cases difference <;> rfl

theorem applyDifferences_eq (differences : List (MapDifference k v)) (map : HashMap k v) :
    applyDifferences differences map =
      assignAll (differences.map fun difference =>
        (differenceKey difference, differenceValue difference)) map := by
  rw [applyDifferences, assignAll, foldl_map]
  congr 1
  funext map difference
  exact applyDifference_eq map difference

/-- Differences that are true of a map and touch every class that is not yet right turn any
other map into it. -/
theorem applyDifferences_spec {differences : List (MapDifference k v)} {map : HashMap k v}
    {target : k → Option v} (h : map.WellFormed)
    (htarget : ∀ left right, map.policy.equalKeys left right = true → target left = target right)
    (htrue : ∀ difference ∈ differences,
      differenceValue difference = target (differenceKey difference))
    (hcover : ∀ key, lookup key map = target key ∨
      ∃ difference ∈ differences, map.policy.equalKeys key (differenceKey difference) = true) :
    (applyDifferences differences map).WellFormed ∧
      (applyDifferences differences map).policy = map.policy ∧
      ∀ key, lookup key (applyDifferences differences map) = target key := by
  rw [applyDifferences_eq]
  refine assignAll_spec h htarget (forall_mem_map.mpr htrue) fun key => ?_
  rcases hcover key with heq | ⟨difference, hmem, hkey⟩
  · exact .inl heq
  · exact .inr ⟨_, mem_map_of_mem hmem, hkey⟩

section Values

variable [BEq v] [LawfulBEq v] {identity : Identity k v} {left right : HashMap k v}

theorem semanticRemovedOrChanged_eq (hsound : identity.Sound) (hright : right.WellFormed) :
    semanticRemovedOrChanged identity left right =
      (toList left).flatMap (removedOrChanged right.policy.equalKeys (toList right)) := by
  unfold semanticRemovedOrChanged
  apply flatMap_congr
  intro entry hentry
  rw [hright.lookup_eq, entryOf, removedOrChanged]
  cases entryAt right.policy.equalKeys entry.1 (toList right) with
  | none => rfl
  | some other =>
      simp only [Option.map_some, hsound.valuesEqual_eq, Bool.not_eq_true']
      by_cases hvalue : (entry.2 == other.2) = true
      · rw [if_pos hvalue, if_neg (by simp [hvalue])]
      · rw [if_neg hvalue, if_pos (eq_false_of_ne_true hvalue)]

omit [BEq v] [LawfulBEq v] in
theorem semanticAdded_eq (hleft : left.WellFormed) :
    semanticAdded left right =
      (toList right).flatMap (added left.policy.equalKeys (toList left)) := by
  unfold semanticAdded
  induction toList right with
  | nil => rfl
  | cons entry entries ih =>
      rw [flatMap_cons, ← ih, filter_cons, hleft.member_eq, entryOf, added]
      cases entryAt left.policy.equalKeys entry.1 (toList left) with
      | none => rfl
      | some other => rfl

theorem diff_eq (hsound : identity.Sound) (hleft : left.WellFormed) (hright : right.WellFormed) :
    diff identity left right =
      semanticRemovedOrChanged identity left right ++ semanticAdded left right := by
  rw [semanticRemovedOrChanged_eq hsound hright, semanticAdded_eq hleft]
  unfold diff
  split
  · rename_i hidentity
    have hroot := hsound.nodes_eq _ _ hidentity
    have hlist : toList left = toList right := by rw [toList_eq, toList_eq, hroot]
    rw [hlist, removedOrChanged_self hright.lawful.equivalence hright.distinct, ← hlist,
      added_self hleft.lawful.equivalence hleft.distinct]
    rfl
  · split
    · rename_i hpolicies
      have hpolicy := hsound.policies_eq _ _ hpolicies
      have hcanonical := hleft.canonical
      rw [hpolicy] at hcanonical
      dsimp only
      rw [diffNodes_spec hright.lawful hsound hcanonical hright.canonical, hpolicy, toList_eq,
        toList_eq]
      rfl
    · rw [semanticRemovedOrChanged_eq hsound hright, semanticAdded_eq hleft]

/-! ## Equality by lookups -/

/-- Equal sizes, and every left entry has its value on the right. -/
def equalByLookups (left right : HashMap k v) : Bool :=
  left.size == right.size &&
    (toList left).all fun entry =>
      match lookup entry.1 right with
      | some value => entry.2 == value
      | none => false

omit [LawfulBEq v] in
theorem equalByLookups_eq (hleft : left.WellFormed) (hright : right.WellFormed) :
    equalByLookups left right =
      valuesMatch right.policy.equalKeys (toList left) (toList right) := by
  unfold equalByLookups valuesMatch
  rw [hleft.size_toList, hright.size_toList]
  congr 2
  funext entry
  rw [hright.lookup_eq, entryOf]
  cases entryAt right.policy.equalKeys entry.1 (toList right) <;> rfl

theorem nodesEqual_eq (hsound : identity.Sound) (hleft : left.WellFormed)
    (hright : right.WellFormed) (hpolicy : left.policy = right.policy) :
    nodesEqual identity right.policy 0 left.root right.root = equalByLookups left right := by
  have hcanonical := hleft.canonical
  have hdistinct := hleft.distinct
  rw [hpolicy] at hcanonical hdistinct
  rw [Bool.eq_iff_iff, nodesEqual_spec hright.lawful hsound hcanonical hright.canonical,
    equalByLookups_eq hleft hright,
    valuesMatch_iff hright.lawful.equivalence hdistinct hright.distinct, toList_eq, toList_eq]

theorem mapEquals_eq (hsound : identity.Sound) (hleft : left.WellFormed)
    (hright : right.WellFormed) : mapEquals identity left right = equalByLookups left right := by
  unfold mapEquals
  split
  · rename_i hidentity
    have hroot := hsound.nodes_eq _ _ hidentity
    have hlist : toList left = toList right := by rw [toList_eq, toList_eq, hroot]
    rw [equalByLookups_eq hleft hright, hlist]
    symm
    rw [valuesMatch_iff hright.lawful.equivalence hright.distinct hright.distinct]
    exact fun key => rfl
  · split
    · rename_i hsize
      rw [equalByLookups, beq_eq_false_iff_ne.mpr hsize, Bool.false_and]
    · rename_i hsize
      rw [not_not] at hsize
      split
      · rename_i hpolicies
        exact nodesEqual_eq hsound hleft hright (hsound.policies_eq _ _ hpolicies)
      · rw [equalByLookups, hsize, beq_self_eq_true, Bool.true_and, toList_eq]
        congr 1
        funext entry
        cases lookup entry.1 right with
        | none => rfl
        | some value => exact hsound.valuesEqual_eq _ _

theorem mem_removedOrChanged (hsound : identity.Sound) (hright : right.WellFormed)
    {difference : MapDifference k v}
    (h : difference ∈ semanticRemovedOrChanged identity left right) :
    (∃ entry ∈ toList left, differenceKey difference = entry.1) ∧
      differenceValue difference = lookup (differenceKey difference) right ∧
      isAddition difference = false := by
  rw [semanticRemovedOrChanged_eq hsound hright] at h
  obtain ⟨entry, hentry, hmem⟩ := mem_flatMap.mp h
  unfold removedOrChanged at hmem
  cases hother : entryAt right.policy.equalKeys entry.1 (toList right) with
  | none =>
      rw [hother] at hmem
      rw [mem_singleton.mp hmem]
      refine ⟨⟨entry, hentry, rfl⟩, ?_, rfl⟩
      rw [differenceKey, hright.lookup_eq, entryOf, hother]
      rfl
  | some other =>
      rw [hother] at hmem
      dsimp only at hmem
      split at hmem
      · cases hmem
      · rw [mem_singleton.mp hmem]
        refine ⟨⟨entry, hentry, rfl⟩, ?_, rfl⟩
        rw [differenceKey, hright.lookup_eq, entryOf, hother]
        rfl

omit [BEq v] [LawfulBEq v] in
theorem mem_semanticAdded (hright : right.WellFormed) {difference : MapDifference k v}
    (h : difference ∈ semanticAdded left right) :
    differenceValue difference = lookup (differenceKey difference) right ∧
      isAddition difference = true := by
  unfold semanticAdded at h
  obtain ⟨entry, hentry, rfl⟩ := mem_map.mp h
  refine ⟨?_, rfl⟩
  have hmem := (mem_filter.mp hentry).1
  rw [differenceKey, hright.lookup_eq, entryOf,
    entryAt_self hright.lawful.equivalence hright.distinct hmem]
  rfl

theorem semanticRemovedOrChanged_nil (hsound : identity.Sound) (hright : right.WellFormed) :
    semanticRemovedOrChanged identity left right = [] ↔
      ∀ entry ∈ toList left, lookup entry.1 right = some entry.2 := by
  rw [semanticRemovedOrChanged_eq hsound hright, flatMap_eq_nil_iff]
  apply forall_congr'
  intro entry
  rw [removedOrChanged_nil, hright.lookup_eq, entryOf]

theorem equalByLookups_iff (hsound : identity.Sound) (hright : right.WellFormed) :
    equalByLookups left right = true ↔
      left.size = right.size ∧ semanticRemovedOrChanged identity left right = [] := by
  unfold equalByLookups
  rw [Bool.and_eq_true, beq_iff_eq, all_eq_true, semanticRemovedOrChanged_nil hsound hright]
  apply and_congr_right
  intro hsize
  apply forall_congr'
  intro entry
  apply forall_congr'
  intro hentry
  cases lookup entry.1 right with
  | none => simp
  | some value =>
      rw [beq_iff_eq, Option.some.injEq]
      exact eq_comm

/-- Maps under one equivalence of keys are equal when their classes have the same values. -/
theorem equalByLookups_of_lookup (hleft : left.WellFormed) (hright : right.WellFormed)
    (hpolicy : left.policy = right.policy) (h : ∀ key, lookup key left = lookup key right) :
    equalByLookups left right = true := by
  have hdistinct := hleft.distinct
  rw [hpolicy] at hdistinct
  rw [equalByLookups_eq hleft hright,
    valuesMatch_iff hright.lawful.equivalence hdistinct hright.distinct]
  intro key
  have hkey := h key
  rwa [hleft.lookup_eq, hright.lookup_eq, entryOf, entryOf, hpolicy] at hkey

section

variable (hsound : identity.Sound) (hleft : left.WellFormed) (hright : right.WellFormed)
  (hpolicy : left.policy = right.policy)
include hsound hleft hright hpolicy

theorem diff_covers (key : k) :
    lookup key left = lookup key right ∨ ∃ difference ∈ diff identity left right,
      left.policy.equalKeys key (differenceKey difference) = true := by
  have hlawful := hright.lawful
  rw [diff_eq hsound hleft hright]
  rw [hleft.lookup_eq, hright.lookup_eq]
  by_cases hsame : (entryOf left key).map Prod.snd = (entryOf right key).map Prod.snd
  · exact .inl hsame
  · apply Or.inr
    unfold entryOf at hsame
    rw [hpolicy] at hsame ⊢
    cases hstored : entryAt right.policy.equalKeys key (toList left) with
    | some entry =>
        obtain ⟨hmem, hkey⟩ := mem_of_entryAt hstored
        have hdifference : removedOrChanged right.policy.equalKeys (toList right) entry ≠ [] := by
          rw [Ne, removedOrChanged_nil, ← entryAt_congr hlawful.equivalence hkey]
          intro heq
          apply hsame
          rw [hstored, heq]
          rfl
        obtain ⟨difference, hfound⟩ := exists_mem_of_ne_nil _ hdifference
        have hlisted : difference ∈ semanticRemovedOrChanged identity left right := by
          rw [semanticRemovedOrChanged_eq hsound hright]
          exact mem_flatMap.mpr ⟨entry, hmem, hfound⟩
        refine ⟨difference, mem_append_left _ hlisted, ?_⟩
        have hof : differenceKey difference = entry.1 := by
          unfold removedOrChanged at hfound
          split at hfound
          · rw [mem_singleton.mp hfound]
            rfl
          · split at hfound
            · cases hfound
            · rw [mem_singleton.mp hfound]
              rfl
        rwa [hof]
    | none =>
        cases hother : entryAt right.policy.equalKeys key (toList right) with
        | none =>
            rw [hstored, hother] at hsame
            exact absurd rfl hsame
        | some other =>
            obtain ⟨hmem, hkey⟩ := mem_of_entryAt hother
            refine ⟨.entryAdded other.1 other.2, mem_append_right _ ?_, hkey⟩
            unfold semanticAdded
            refine mem_map.mpr ⟨other, mem_filter.mpr ⟨hmem, ?_⟩, rfl⟩
            rw [hleft.member_eq, entryOf, hpolicy, ← entryAt_congr hlawful.equivalence hkey,
              hstored]
            rfl

theorem applyDifferences_diff :
    (applyDifferences (diff identity left right) left).WellFormed ∧
      (applyDifferences (diff identity left right) left).policy = left.policy ∧
      ∀ key, lookup key (applyDifferences (diff identity left right) left) = lookup key right := by
  apply applyDifferences_spec hleft
  · intro first second hkey
    rw [hpolicy] at hkey
    exact hright.lookup_congr hkey
  · intro difference hmem
    rw [diff_eq hsound hleft hright] at hmem
    rcases mem_append.mp hmem with hmem | hmem
    · exact (mem_removedOrChanged hsound hright hmem).2.1
    · exact (mem_semanticAdded hright hmem).1
  · exact diff_covers hsound hleft hright hpolicy

end

end Values

section Results

variable [BEq v] [LawfulBEq v]

/-- Maps that share a policy: the lockstep walks answer what lookups answer. -/
theorem diff_lockstep (identity : SoundIdentity k v) (left right : CanonicalMap k v)
    (hpolicy : left.map.policy = right.map.policy) :
    let differences := diff identity.toIdentity left.map right.map
    let patched := applyDifferences differences left.map
    diffNodes identity.toIdentity right.map.policy 0 left.map.root right.map.root =
        (semanticRemovedOrChanged identity.toIdentity left.map right.map,
          semanticAdded left.map right.map) ∧
      differences = semanticRemovedOrChanged identity.toIdentity left.map right.map ++
        semanticAdded left.map right.map ∧
      (∀ key, lookup key patched = lookup key right.map) ∧
      patched.size = right.map.size ∧
      mapEquals identity.toIdentity patched right.map = true ∧
      nodesEqual identity.toIdentity right.map.policy 0 left.map.root right.map.root =
        equalByLookups left.map right.map ∧
      mapEquals identity.toIdentity left.map right.map = equalByLookups left.map right.map := by
  intro differences patched
  have hleft := left.wellFormed
  have hright := right.wellFormed
  have hcanonical := hleft.canonical
  rw [hpolicy] at hcanonical
  obtain ⟨hpatched, hpatchedPolicy, hlookup⟩ :=
    applyDifferences_diff identity.sound hleft hright hpolicy
  have hequal := equalByLookups_of_lookup hpatched hright (hpatchedPolicy.trans hpolicy) hlookup
  refine ⟨?_, diff_eq identity.sound hleft hright, hlookup, ?_, ?_,
    nodesEqual_eq identity.sound hleft hright hpolicy, mapEquals_eq identity.sound hleft hright⟩
  · rw [diffNodes_spec hright.lawful identity.sound hcanonical hright.canonical,
      semanticRemovedOrChanged_eq identity.sound hright, semanticAdded_eq hleft, hpolicy,
      toList_eq, toList_eq]
    rfl
  · exact ((equalByLookups_iff identity.sound hright).mp hequal).1
  · rw [mapEquals_eq identity.sound hpatched hright]
    exact hequal

/-- No two references are known to be one. -/
def unknownIdentity : SoundIdentity k v where
  nodes _ _ := false
  values _ _ := false
  policies _ _ := false
  sound := ⟨fun _ _ h => (by cases h), fun _ _ h => (by cases h), fun _ _ h => (by cases h)⟩

theorem diff_lockstep_remainder :
    diff unknownIdentity.toIdentity
        (History.insert 4 1 (.insert 2 7 .empty) : History Nat Nat remainderPolicy).eval
        (History.insert 4 2 (.insert 1 7 .empty) : History Nat Nat remainderPolicy).eval =
      [.entryRemoved 2 7, .entryChanged 4 1 2, .entryAdded 1 7] := by
  have hlockstep := diff_lockstep unknownIdentity
    (History.insert 4 1 (.insert 2 7 .empty) : History Nat Nat remainderPolicy).version
    (History.insert 4 2 (.insert 1 7 .empty) : History Nat Nat remainderPolicy).version
    (by rw [History.version_policy, History.version_policy])
  exact hlockstep.2.1.trans (by decide +kernel)

def parityPolicy : LawfulPolicy Nat where
  equalKeys left right := left % 2 == right % 2
  hashKey key := ((key % 2 : Nat) : Int)
  lawful := ⟨⟨fun _ => beq_self_eq_true _, fun h => by simp_all, fun h h' => by simp_all⟩,
    fun left right h => by simp_all⟩

end Results

end Durable7.Hamt.HashMap
