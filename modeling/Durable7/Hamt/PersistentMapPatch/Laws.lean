import Durable7.Hamt.PersistentMapPatch.Operations

/-!
# The laws of patches

Patches under one policy act on its maps: the difference of two maps leads from the one to the
other, an inverted patch leads back, and a composed one does what its parts do in turn.
-/

namespace Durable7.Hamt.PersistentMapPatch

open Foundation HashMap

variable {k v : Type}

section

open List
open HashMap (Identity LawfulPolicy MapDifference SoundIdentity entryOf)

/-- The map is in every state that the patch expects. -/
def Expects (patch : PersistentMapPatch k v) (map : HashMap k v) : Prop :=
  ∀ key change, changeAt patch key = some change → HashMap.lookup key map = change.2.1

/-- The state of a key after the patch. -/
def leaves (patch : PersistentMapPatch k v) (map : HashMap k v) (key : k) : Option v :=
  match changeAt patch key with
  | some change => change.2.2
  | none => HashMap.lookup key map

variable {patch first next : PersistentMapPatch k v} {map : HashMap k v}

theorem applyEntries_eq (changes : List (k × Option v × Option v)) (map : HashMap k v) :
    (changes.map toEntry).foldl applyEntry map =
      assignAll (changes.map fun change => (change.1, change.2.2)) map := by
  rw [assignAll, foldl_map, foldl_map]
  rfl

theorem applyEntries_spec (h : Valid patch) (hmap : map.WellFormed)
    (hpolicy : map.policy = patch.policy) :
    ((toList patch).foldl applyEntry map).WellFormed ∧
      ((toList patch).foldl applyEntry map).policy = map.policy ∧
      ∀ key, HashMap.lookup key ((toList patch).foldl applyEntry map) = leaves patch map key := by
  rw [toList, applyEntries_eq]
  apply assignAll_spec hmap
  · intro left right hsame
    have hlookup := hmap.lookup_congr hsame
    rw [hpolicy] at hsame
    rw [leaves, leaves, h.changeAt_congr hsame, hlookup]
  · intro change hmem
    obtain ⟨stored, hstored, rfl⟩ := mem_map.mp hmem
    rw [leaves, h.changeAt_self hstored]
  · intro key
    unfold leaves
    cases hchange : changeAt patch key with
    | none => exact .inl rfl
    | some change =>
        obtain ⟨hmem, hkey⟩ := mem_of_changeAt hchange
        rw [hpolicy]
        exact .inr ⟨_, mem_map_of_mem hmem, hkey⟩

section Values

variable [BEq v] [LawfulBEq v]

section

variable (h : Valid patch) (hmap : map.WellFormed) (hpolicy : map.policy = patch.policy)
include h hmap hpolicy

theorem apply_spec :
    (∃ change, changeAt patch change.1 = some change ∧
      HashMap.lookup change.1 map ≠ change.2.1 ∧ apply patch map = .error change.1) ∨
    (Expects patch map ∧ ∃ result, apply patch map = .ok result ∧ result.WellFormed ∧
      result.policy = map.policy ∧ ∀ key, HashMap.lookup key result = leaves patch map key) := by
  unfold apply
  cases hfind : (toList patch).find? (conflicts map) with
  | some entry =>
      obtain ⟨change, hchange, rfl⟩ := mem_map.mp (mem_of_find?_eq_some hfind)
      have hconflict := List.find?_some hfind
      rw [conflicts, bne_iff_ne] at hconflict
      exact .inl ⟨change, h.changeAt_self hchange, hconflict, rfl⟩
  | none =>
      refine .inr ⟨fun key change hchange => ?_, _, rfl, applyEntries_spec h hmap hpolicy⟩
      obtain ⟨hmem, hkey⟩ := mem_of_changeAt hchange
      have hagrees := List.find?_eq_none.mp hfind _ (mem_map_of_mem hmem)
      rw [conflicts, bne_iff_ne, not_not] at hagrees
      rw [← hpolicy] at hkey
      rw [hmap.lookup_congr hkey]
      exact hagrees

theorem apply_of_expects (hexpects : Expects patch map) :
    ∃ result, apply patch map = .ok result ∧ result.WellFormed ∧
      result.policy = map.policy ∧ ∀ key, HashMap.lookup key result = leaves patch map key := by
  rcases apply_spec h hmap hpolicy with ⟨change, hchange, hne, -⟩ | ⟨-, hresult⟩
  · exact absurd (hexpects _ _ hchange) hne
  · exact hresult

theorem apply_ok {result : HashMap k v} (hresult : apply patch map = .ok result) :
    Expects patch map ∧ result.WellFormed ∧ result.policy = map.policy ∧
      ∀ key, HashMap.lookup key result = leaves patch map key := by
  rcases apply_spec h hmap hpolicy with ⟨change, -, -, herror⟩ | ⟨hexpects, other, hok, hspec⟩
  · rw [hresult] at herror
    cases herror
  · rw [hresult] at hok
    cases hok
    exact ⟨hexpects, hspec⟩

end

/-! ## Differences -/

variable {identity : Identity k v} {source target : HashMap k v}

def differenceBefore : MapDifference k v → Option v
  | .entryAdded _ _ => none
  | .entryRemoved _ value => some value
  | .entryChanged _ before _ => some before

theorem mem_diff (hsound : identity.Sound) (hsource : source.WellFormed)
    (htarget : target.WellFormed) {difference : MapDifference k v}
    (h : difference ∈ diff identity source target) :
    differenceBefore difference = HashMap.lookup (HashMap.differenceKey difference) source ∧
      differenceValue difference = HashMap.lookup (HashMap.differenceKey difference) target ∧
      differenceBefore difference ≠ differenceValue difference := by
  have hentry : ∀ {map : HashMap k v} {entry : k × v}, map.WellFormed →
      entry ∈ HashMap.toList map → HashMap.lookup entry.1 map = some entry.2 := by
    intro map entry hmap hmem
    rw [hmap.lookup_eq, entryOf, entryAt_self hmap.lawful.equivalence hmap.distinct hmem]
    rfl
  rw [diff_eq hsound hsource htarget] at h
  rcases mem_append.mp h with h | h
  · refine ⟨?_, (mem_removedOrChanged hsound htarget h).2.1, ?_⟩
    · rw [semanticRemovedOrChanged_eq hsound htarget] at h
      obtain ⟨entry, hmem, hfound⟩ := mem_flatMap.mp h
      have hsourceEntry := hentry hsource hmem
      unfold removedOrChanged at hfound
      split at hfound
      · rw [mem_singleton.mp hfound]
        exact hsourceEntry.symm
      · split at hfound
        · cases hfound
        · rw [mem_singleton.mp hfound]
          exact hsourceEntry.symm
    · rw [semanticRemovedOrChanged_eq hsound htarget] at h
      obtain ⟨entry, -, hfound⟩ := mem_flatMap.mp h
      unfold removedOrChanged at hfound
      split at hfound
      · rw [mem_singleton.mp hfound]
        exact Option.some_ne_none _
      · split at hfound
        · cases hfound
        · rename_i hne
          rw [mem_singleton.mp hfound]
          intro heq
          exact hne (beq_iff_eq.mpr (Option.some.inj heq))
  · unfold semanticAdded at h
    obtain ⟨entry, hmem, rfl⟩ := mem_map.mp h
    obtain ⟨hmem, habsent⟩ := mem_filter.mp hmem
    refine ⟨?_, (hentry htarget hmem).symm, (Option.some_ne_none _).symm⟩
    rw [member, Bool.not_eq_true', Option.isSome_eq_false_iff, Option.isNone_iff_eq_none] at habsent
    exact habsent.symm

/-- Both states of a key that has not the same state in both maps. -/
def stateChange (source target : HashMap k v) (key : k) : Option (Option v × Option v) :=
  if sameState (HashMap.lookup key source) (HashMap.lookup key target) then none
  else some (HashMap.lookup key source, HashMap.lookup key target)

theorem stateChange_none {key : k} (h : HashMap.lookup key source = HashMap.lookup key target) :
    stateChange source target key = none := if_pos (beq_iff_eq.mpr h)

theorem stateChange_some {key : k} (h : HashMap.lookup key source ≠ HashMap.lookup key target) :
    stateChange source target key = some (HashMap.lookup key source, HashMap.lookup key target) :=
  if_neg (by rwa [sameState, beq_iff_eq])

def differenceChange (difference : MapDifference k v) : k × Option (Option v × Option v) :=
  (differenceKey difference, some (differenceBefore difference, differenceValue difference))

omit [LawfulBEq v] in
theorem between_changes :
    (between identity source target).changes =
      assignAll ((diff identity source target).map differenceChange)
        (HashMap.emptyWith source.policy) := by
  have hstep : (addDifference : HashMap k (Option v × Option v) → MapDifference k v → _) =
      fun changes difference => assignValue changes (differenceChange difference) := by
    funext changes difference
    cases difference <;> rfl
  rw [between, assignAll, foldl_map, hstep]

theorem between_spec (hsound : identity.Sound) (hsource : source.WellFormed)
    (htarget : target.WellFormed) (hpolicy : source.policy = target.policy) :
    Valid (between identity source target) ∧
      (between identity source target).policy = source.policy ∧
      ∀ key, (changeAt (between identity source target) key).map Prod.snd =
        stateChange source target key := by
  have hempty := @HashMap.emptyWith_wellFormed k (Option v × Option v) _ hsource.lawful
  obtain ⟨hwellFormed, hkept, hlookup⟩ := @HashMap.assignAll_spec _ _
    (HashMap.emptyWith source.policy)
    ((HashMap.diff identity source target).map differenceChange) (stateChange source target) hempty
      (by
      intro left right hsame
      change source.policy.equalKeys left right = true at hsame
      have htargetSame := hsame
      rw [hpolicy] at htargetSame
      rw [stateChange, stateChange, hsource.lookup_congr hsame, htarget.lookup_congr htargetSame])
    (by
      rw [forall_mem_map]
      intro difference hmem
      obtain ⟨hbefore, hafter, hne⟩ := mem_diff hsound hsource htarget hmem
      rw [hbefore, hafter] at hne
      rw [differenceChange, stateChange_some hne, hbefore, hafter]) (by
      intro key
      rcases HashMap.diff_covers hsound hsource htarget hpolicy key with
        heq | ⟨difference, hmem, hkey⟩
      · left
        rw [stateChange_none heq, hempty.lookup_eq]
        rfl
      · exact .inr ⟨_, mem_map_of_mem hmem, hkey⟩)
  rw [← between_changes] at hwellFormed hkept hlookup
  have hvalues : ∀ key, (changeAt (between identity source target) key).map Prod.snd =
      stateChange source target key := by
    intro key
    rw [← hlookup, hwellFormed.lookup_eq]
    rfl
  refine ⟨⟨hwellFormed, fun change hmem => ?_⟩, hkept, hvalues⟩
  have hself : changeAt (between identity source target) change.1 = some change :=
    entryAt_self hwellFormed.lawful.equivalence hwellFormed.distinct hmem
  have hvalue := hvalues change.1
  rw [hself] at hvalue
  by_cases hsame : HashMap.lookup change.1 source = HashMap.lookup change.1 target
  · rw [stateChange_none hsame] at hvalue
    cases hvalue
  · rw [stateChange_some hsame, Option.map_some, Option.some.injEq] at hvalue
    rw [hvalue]
    exact hsame

theorem changeAt_between {key : k} {change : k × Option v × Option v}
    (h : (changeAt patch key).map Prod.snd = stateChange source target key)
    (hchange : changeAt patch key = some change) :
    change.2 = (HashMap.lookup key source, HashMap.lookup key target) := by
  rw [hchange] at h
  by_cases hsame : HashMap.lookup key source = HashMap.lookup key target
  · rw [stateChange_none hsame] at h
    cases h
  · rw [stateChange_some hsame, Option.map_some, Option.some.injEq] at h
    exact h

theorem apply_between (hsound : identity.Sound) (hsource : source.WellFormed)
    (htarget : target.WellFormed) (hpolicy : source.policy = target.policy) :
    ∃ result, apply (between identity source target) source = .ok result ∧ result.WellFormed ∧
      result.policy = source.policy ∧
      ∀ key, HashMap.lookup key result = HashMap.lookup key target := by
  obtain ⟨hvalid, hkept, hchanges⟩ := between_spec hsound hsource htarget hpolicy
  have hexpects : Expects (between identity source target) source := by
    intro key change hchange
    rw [changeAt_between (hchanges key) hchange]
  obtain ⟨result, hresult, hwellFormed, hresultPolicy, hlookup⟩ :=
    apply_of_expects hvalid hsource hkept.symm hexpects
  refine ⟨result, hresult, hwellFormed, hresultPolicy, fun key => ?_⟩
  rw [hlookup, leaves]
  cases hchange : changeAt (between identity source target) key with
  | some change =>
      dsimp only
      rw [changeAt_between (hchanges key) hchange]
  | none =>
      have hvalue := hchanges key
      rw [hchange] at hvalue
      by_cases hsame : HashMap.lookup key source = HashMap.lookup key target
      · exact hsame
      · rw [stateChange_some hsame] at hvalue
        cases hvalue

theorem apply_invert (h : Valid patch) (hmap : map.WellFormed) (hpolicy : map.policy = patch.policy)
    {result : HashMap k v} (hresult : apply patch map = .ok result) :
    ∃ back, apply (invert patch) result = .ok back ∧ back.WellFormed ∧ back.policy = map.policy ∧
      ∀ key, HashMap.lookup key back = HashMap.lookup key map := by
  obtain ⟨hexpects, hwellFormed, hresultPolicy, hlookup⟩ := apply_ok h hmap hpolicy hresult
  obtain ⟨hinverted, hinvertedPolicy, hchanges⟩ := invert_spec h
  have hback : Expects (invert patch) result := by
    intro key change hchange
    rw [hchanges] at hchange
    obtain ⟨stored, hstored, rfl⟩ := Option.map_eq_some_iff.mp hchange
    rw [hlookup, leaves, hstored]
    rfl
  obtain ⟨back, happlied, hbackWellFormed, hbackPolicy, hbackLookup⟩ :=
    apply_of_expects hinverted hwellFormed
      (hresultPolicy.trans (hpolicy.trans hinvertedPolicy.symm)) hback
  refine ⟨back, happlied, hbackWellFormed, hbackPolicy.trans hresultPolicy, fun key => ?_⟩
  rw [hbackLookup, leaves, hchanges]
  cases hchange : changeAt patch key with
  | some change => exact (hexpects key change hchange).symm
  | none =>
      rw [Option.map_none]
      dsimp only
      rw [hlookup, leaves, hchange]

/-- Patches compose where no class is left in a state that the next one does not expect. -/
theorem compose_spec (hfirst : Valid first) (hnext : Valid next)
    (hpolicy : next.policy = first.policy) :
    (∃ key, compose first next = .error key ∧ Disagree (changeAt first key) (changeAt next key)) ∨
    ((∀ key, ¬ Disagree (changeAt first key) (changeAt next key)) ∧
      ∃ result, compose first next = .ok result ∧ Valid result ∧ result.policy = first.policy ∧
        ∀ key, changeAt result key = composeAt (changeAt first key) (changeAt next key)) := by
  have hdistinct := hnext.wellFormed.distinct
  change Distinct next.policy.equalKeys _ at hdistinct
  rw [hpolicy] at hdistinct
  unfold compose toList
  rcases foldlM_composeEntry hfirst rfl hdistinct hnext.changing with
    ⟨change, hmem, hdisagree, herror⟩ | ⟨hagree, result, hresult, hvalid, hkept, hchanges⟩
  · refine .inl ⟨change.1, herror, ?_⟩
    rw [hnext.changeAt_self hmem]
    exact hdisagree
  · refine .inr ⟨?_, result, hresult, hvalid, hkept, fun key => ?_⟩
    · rintro key ⟨prior, change, hprior, hchange, hne⟩
      obtain ⟨hmem, hkey⟩ := mem_of_changeAt hchange
      rw [hpolicy] at hkey
      exact hagree change hmem
        ⟨prior, change, (hfirst.changeAt_congr hkey).symm.trans hprior, rfl, hne⟩
    · rw [hchanges, ← hpolicy]
      rfl

theorem apply_compose (hfirst : Valid first) (hnext : Valid next)
    (hpolicy : next.policy = first.policy) (hmap : map.WellFormed)
    (hmapPolicy : map.policy = first.policy) {middle final : HashMap k v}
    (hmiddle : apply first map = .ok middle) (hfinal : apply next middle = .ok final) :
    ∃ composed result, compose first next = .ok composed ∧ apply composed map = .ok result ∧
      result.WellFormed ∧ result.policy = map.policy ∧
      ∀ key, HashMap.lookup key result = HashMap.lookup key final := by
  obtain ⟨hexpects, hmiddleFormed, hmiddlePolicy, hmiddleLookup⟩ :=
    apply_ok hfirst hmap hmapPolicy hmiddle
  obtain ⟨hnextExpects, -, -, hfinalLookup⟩ := apply_ok hnext hmiddleFormed
    (hmiddlePolicy.trans (hmapPolicy.trans hpolicy.symm)) hfinal
  rcases compose_spec hfirst hnext hpolicy with ⟨key, -, prior, change, hprior, hchange, hne⟩ |
    ⟨-, composed, hcomposed, hvalid, hkept, hchanges⟩
  · have hexpected := hnextExpects key change hchange
    rw [hmiddleLookup, leaves, hprior] at hexpected
    exact absurd hexpected hne
  have hcomposedExpects : Expects composed map := by
    intro key change hchange
    rw [hchanges] at hchange
    cases hprior : changeAt first key with
    | none =>
        rw [hprior] at hchange
        have hexpected := hnextExpects key change hchange
        rwa [hmiddleLookup, leaves, hprior] at hexpected
    | some prior =>
        have hexpected := hexpects key prior hprior
        rw [hprior] at hchange
        cases hlater : changeAt next key with
        | none =>
            rw [hlater] at hchange
            cases hchange
            exact hexpected
        | some later =>
            rw [hlater, composeAt] at hchange
            split at hchange
            · cases hchange
            · cases hchange
              exact hexpected
  obtain ⟨result, hresult, hwellFormed, hresultPolicy, hlookup⟩ :=
    apply_of_expects hvalid hmap (hmapPolicy.trans hkept.symm) hcomposedExpects
  refine ⟨composed, result, hcomposed, hresult, hwellFormed, hresultPolicy, fun key => ?_⟩
  rw [hlookup, hfinalLookup, leaves, leaves, hchanges]
  cases hprior : changeAt first key with
  | none =>
      cases hlater : changeAt next key with
      | none =>
          dsimp only [composeAt]
          rw [hmiddleLookup, leaves, hprior]
      | some later => rfl
  | some prior =>
      have hexpected := hexpects key prior hprior
      cases hlater : changeAt next key with
      | none =>
          dsimp only [composeAt]
          rw [hmiddleLookup, leaves, hprior]
      | some later =>
          by_cases hcancel : (prior.2.1 == later.2.2) = true
          · rw [composeAt, if_pos hcancel]
            dsimp only
            rw [hexpected]
            exact beq_iff_eq.mp hcancel
          · rw [composeAt, if_neg hcancel]

end Values

end

/-!
## Patches that can be made

Every patch that the operations make under a lawful policy obeys the laws.
-/

open HashMap (Identity LawfulPolicy SoundIdentity entryOf)

structure MapUnder (policy : LawfulPolicy k) (v : Type) where
  map : HashMap k v
  wellFormed : map.WellFormed
  policy_eq : map.policy = policy.toHashPolicy

/-- A patch that is not made is the one it was to be made from. -/
inductive History (policy : LawfulPolicy k) (v : Type) where
  | empty
  | fromList (entries : List (MapPatchEntry k v))
  | between (identity : SoundIdentity k v) (source target : MapUnder policy v)
  | insert (entry : MapPatchEntry k v) (history : History policy v)
  | delete (key : k) (history : History policy v)
  | invert (history : History policy v)
  | compose (first next : History policy v)

variable [BEq v]

def History.eval {policy : LawfulPolicy k} : History policy v → PersistentMapPatch k v
  | .empty => emptyWith policy.toHashPolicy
  | .fromList entries =>
      (fromListWith policy.toHashPolicy entries).getD (emptyWith policy.toHashPolicy)
  | .between identity source target =>
      PersistentMapPatch.between identity.toIdentity source.map target.map
  | .insert entry history => (PersistentMapPatch.insert entry history.eval).getD history.eval
  | .delete key history => PersistentMapPatch.delete key history.eval
  | .invert history => PersistentMapPatch.invert history.eval
  | .compose first next =>
      match PersistentMapPatch.compose first.eval next.eval with
      | .ok composed => composed
      | .error _ => first.eval

variable [LawfulBEq v] {policy : LawfulPolicy k}

theorem insert_valid {patch next : PersistentMapPatch k v} (h : Valid patch)
    (entry : MapPatchEntry k v) (hnext : insert entry patch = some next) :
    Valid next ∧ next.policy = patch.policy := by
  rcases insert_spec h entry with ⟨-, hsame⟩ | ⟨-, -, hnone⟩ | ⟨-, -, made, hmade, hvalid, hbecomes⟩
  · rw [hnext] at hsame
    cases hsame
    exact ⟨h, rfl⟩
  · rw [hnext] at hnone
    cases hnone
  · rw [hnext] at hmade
    cases hmade
    exact ⟨hvalid, hbecomes.policy_eq⟩

theorem foldlM_insert_valid {entries : List (MapPatchEntry k v)}
    {patch result : PersistentMapPatch k v} (h : Valid patch)
    (hresult : entries.foldlM (fun patch entry => insert entry patch) patch = some result) :
    Valid result ∧ result.policy = patch.policy := by
  induction entries generalizing patch with
  | nil =>
      cases hresult
      exact ⟨h, rfl⟩
  | cons entry entries ih =>
      rw [List.foldlM_cons] at hresult
      obtain ⟨next, hnext, hrest⟩ := Option.bind_eq_some_iff.mp hresult
      obtain ⟨hvalid, hpolicy⟩ := insert_valid h entry hnext
      obtain ⟨hmade, hmadePolicy⟩ := ih hvalid hrest
      exact ⟨hmade, hmadePolicy.trans hpolicy⟩

theorem History.eval_valid (history : History policy v) :
    Valid history.eval ∧ history.eval.policy = policy.toHashPolicy := by
  have hempty := @emptyWith_valid k v _ policy.lawful
  induction history with
  | empty => exact ⟨hempty, rfl⟩
  | fromList entries =>
      rw [eval]
      cases hmade : fromListWith policy.toHashPolicy entries with
      | none => exact ⟨hempty, rfl⟩
      | some made => exact foldlM_insert_valid hempty hmade
  | between identity source target =>
      obtain ⟨hvalid, hpolicy, -⟩ := between_spec identity.sound source.wellFormed
        target.wellFormed (source.policy_eq.trans target.policy_eq.symm)
      exact ⟨hvalid, hpolicy.trans source.policy_eq⟩
  | insert entry history ih =>
      rw [eval]
      cases hmade : PersistentMapPatch.insert entry history.eval with
      | none => exact ih
      | some made =>
          obtain ⟨hvalid, hpolicy⟩ := insert_valid ih.1 entry hmade
          exact ⟨hvalid, hpolicy.trans ih.2⟩
  | delete key history ih =>
      obtain ⟨hvalid, hdeleted⟩ := delete_valid ih.1 key
      exact ⟨hvalid, hdeleted.policy_eq.trans ih.2⟩
  | invert history ih =>
      obtain ⟨hvalid, hpolicy, -⟩ := invert_spec ih.1
      exact ⟨hvalid, hpolicy.trans ih.2⟩
  | compose first next ihFirst ihNext =>
      rw [eval]
      rcases compose_spec ihFirst.1 ihNext.1 (ihNext.2.trans ihFirst.2.symm) with
        ⟨key, herror, -⟩ | ⟨-, composed, hcomposed, hvalid, hpolicy, -⟩
      · rw [herror]
        exact ihFirst
      · rw [hcomposed]
        exact ⟨hvalid, hpolicy.trans ihFirst.2⟩

/-! ### The laws -/

omit [LawfulBEq v] in
/-- Two maps show the same values. -/
def EqualMaps (identity : Identity k v) (left right : HashMap k v) : Prop :=
  mapEquals identity left right = true ∧ ∀ key, HashMap.lookup key left = HashMap.lookup key right

theorem equalMaps_of_lookup {identity : Identity k v} (hsound : identity.Sound)
    {left right : HashMap k v} (hleft : left.WellFormed) (hright : right.WellFormed)
    (hpolicy : left.policy = right.policy)
    (h : ∀ key, HashMap.lookup key left = HashMap.lookup key right) :
    EqualMaps identity left right := by
  refine ⟨?_, h⟩
  rw [HashMap.mapEquals_eq hsound hleft hright]
  exact equalByLookups_of_lookup hleft hright hpolicy h

omit [BEq v] [LawfulBEq v] in
theorem disagree_iff {first next : PersistentMapPatch k v} (hfirst : Valid first)
    (hnext : Valid next) (key : k) :
    Disagree (changeAt first key) (changeAt next key) ↔
      ∃ prior later, lookup key first = some prior ∧ lookup key next = some later ∧
        prior.afterValue ≠ later.beforeValue := by
  rw [lookup_eq hfirst, lookup_eq hnext]
  constructor
  · rintro ⟨prior, change, hprior, hchange, hne⟩
    exact ⟨_, _, by rw [hprior]; rfl, by rw [hchange]; rfl, hne⟩
  · rintro ⟨prior, later, hprior, hlater, hne⟩
    obtain ⟨change, hchange, rfl⟩ := Option.map_eq_some_iff.mp hprior
    obtain ⟨other, hother, rfl⟩ := Option.map_eq_some_iff.mp hlater
    exact ⟨change, other, hchange, hother, hne⟩

theorem patch_laws (identity : SoundIdentity k v) (source target map : MapUnder policy v)
    (first next : History policy v) :
    (∃ result, apply (between identity.toIdentity source.map target.map) source.map = .ok result ∧
      EqualMaps identity.toIdentity result target.map) ∧
    (∀ changed, apply first.eval map.map = .ok changed →
      ∃ back, apply (invert first.eval) changed = .ok back ∧
        EqualMaps identity.toIdentity back map.map) ∧
    (∀ middle final, apply first.eval map.map = .ok middle → apply next.eval middle = .ok final →
      ∃ composed result, compose first.eval next.eval = .ok composed ∧
        apply composed map.map = .ok result ∧ EqualMaps identity.toIdentity result final) ∧
    (∀ key, compose first.eval next.eval = .error key →
      ∃ prior later, lookup key first.eval = some prior ∧ lookup key next.eval = some later ∧
        prior.afterValue ≠ later.beforeValue) ∧
    ((∃ key prior later, lookup key first.eval = some prior ∧ lookup key next.eval = some later ∧
      prior.afterValue ≠ later.beforeValue) → ∃ key, compose first.eval next.eval = .error key) ∧
    validStructure (between identity.toIdentity source.map target.map) = true ∧
    validStructure first.eval = true ∧ validStructure (invert first.eval) = true ∧
    (∀ composed, compose first.eval next.eval = .ok composed → validStructure composed = true) ∧
    (∀ key, apply first.eval map.map = .error key →
      ∃ change, lookup key first.eval = some change ∧
        HashMap.lookup key map.map ≠ change.beforeValue) ∧
    ((∃ key change, lookup key first.eval = some change ∧
      HashMap.lookup key map.map ≠ change.beforeValue) →
      ∃ key, apply first.eval map.map = .error key) := by
  obtain ⟨hfirst, hfirstPolicy⟩ := first.eval_valid
  obtain ⟨hnext, hnextPolicy⟩ := next.eval_valid
  have hpolicy : next.eval.policy = first.eval.policy := hnextPolicy.trans hfirstPolicy.symm
  have hmap : map.map.policy = first.eval.policy := map.policy_eq.trans hfirstPolicy.symm
  have hmaps : source.map.policy = target.map.policy := source.policy_eq.trans target.policy_eq.symm
  have hcompose := compose_spec hfirst hnext hpolicy
  have happly := apply_spec hfirst map.wellFormed hmap
  refine ⟨?_, ?_, ?_, ?_, ?_, ?_, validStructure_eq hfirst,
    validStructure_eq (invert_spec hfirst).1,
    ?_, ?_, ?_⟩
  · obtain ⟨result, hresult, hwellFormed, hkept, hlookup⟩ :=
      apply_between identity.sound source.wellFormed target.wellFormed hmaps
    exact ⟨result, hresult, equalMaps_of_lookup identity.sound hwellFormed target.wellFormed
      (hkept.trans hmaps) hlookup⟩
  · intro changed hchanged
    obtain ⟨back, hback, hwellFormed, hkept, hlookup⟩ :=
      apply_invert hfirst map.wellFormed hmap hchanged
    exact ⟨back, hback, equalMaps_of_lookup identity.sound hwellFormed map.wellFormed hkept hlookup⟩
  · intro middle final hmiddle hfinal
    obtain ⟨composed, result, hcomposed, hresult, hwellFormed, hkept, hlookup⟩ :=
      apply_compose hfirst hnext hpolicy map.wellFormed hmap hmiddle hfinal
    obtain ⟨-, hmiddleFormed, hmiddlePolicy, -⟩ := apply_ok hfirst map.wellFormed hmap hmiddle
    obtain ⟨-, hfinalFormed, hfinalPolicy, -⟩ := apply_ok hnext hmiddleFormed
      (hmiddlePolicy.trans (hmap.trans hpolicy.symm)) hfinal
    exact ⟨composed, result, hcomposed, hresult, equalMaps_of_lookup identity.sound hwellFormed
      hfinalFormed (hkept.trans (hfinalPolicy.trans hmiddlePolicy).symm) hlookup⟩
  · intro key herror
    rcases hcompose with ⟨other, hother, hdisagree⟩ | ⟨-, composed, hcomposed, -⟩
    · rw [herror] at hother
      cases hother
      exact (disagree_iff hfirst hnext key).mp hdisagree
    · rw [herror] at hcomposed
      cases hcomposed
  · rintro ⟨key, hdisagree⟩
    rcases hcompose with ⟨other, hother, -⟩ | ⟨hagree, -⟩
    · exact ⟨other, hother⟩
    · exact absurd ((disagree_iff hfirst hnext key).mpr hdisagree) (hagree key)
  · exact validStructure_eq
      (between_spec identity.sound source.wellFormed target.wellFormed hmaps).1
  · intro composed hcomposed
    rcases hcompose with ⟨key, herror, -⟩ | ⟨-, other, hother, hvalid, -⟩
    · rw [hcomposed] at herror
      cases herror
    · rw [hcomposed] at hother
      cases hother
      exact validStructure_eq hvalid
  · intro key herror
    rcases happly with ⟨change, hchange, hne, hother⟩ | ⟨-, result, hresult, -⟩
    · rw [herror] at hother
      cases hother
      exact ⟨toEntry change, by rw [lookup_eq hfirst, hchange]; rfl, hne⟩
    · rw [herror] at hresult
      cases hresult
  · rintro ⟨key, entry, hentry, hne⟩
    rcases happly with ⟨change, -, -, hother⟩ | ⟨hexpects, -⟩
    · exact ⟨_, hother⟩
    · rw [lookup_eq hfirst] at hentry
      obtain ⟨change, hchange, rfl⟩ := Option.map_eq_some_iff.mp hentry
      exact absurd (hexpects key change hchange) hne

def mapUnder {policy : LawfulPolicy k} (history : HashMap.History k v policy) : MapUnder policy v :=
  ⟨history.eval, history.version.wellFormed, history.version_policy⟩

def olderParities : MapUnder parityPolicy (Option Nat) :=
  mapUnder (.insert 0 none (.insert 3 (some 5) .empty))

def newerParities : MapUnder parityPolicy (Option Nat) := mapUnder (.insert 2 (some 1) .empty)

theorem patch_laws_parity :
    ∃ result, apply (between unknownIdentity.toIdentity olderParities.map newerParities.map)
        olderParities.map = .ok result ∧
      EqualMaps unknownIdentity.toIdentity result newerParities.map :=
  (patch_laws unknownIdentity olderParities newerParities olderParities
    (.between unknownIdentity olderParities newerParities)
    (.between unknownIdentity newerParities olderParities)).1

end Durable7.Hamt.PersistentMapPatch
