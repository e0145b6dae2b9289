import Durable7.Hamt.HashMap.Equality

/-!
# Map patches

A map from changed keys to the state that a change expects and the state it leaves.
-/

namespace Durable7.Hamt

open HashMap (Identity MapDifference)
open HashMap

structure MapPatchEntry (k v : Type) where
  entryKey : k
  beforeValue : Option v
  afterValue : Option v
  deriving DecidableEq

structure PersistentMapPatch (k v : Type) where
  changes : HashMap k (Option v × Option v)

namespace PersistentMapPatch

variable {k v : Type}

def emptyWith (keys : HashPolicy k) : PersistentMapPatch k v := ⟨HashMap.emptyWith keys⟩

def policy (patch : PersistentMapPatch k v) : HashPolicy k := patch.changes.policy

def lookup (key : k) (patch : PersistentMapPatch k v) : Option (MapPatchEntry k v) :=
  match HashMap.actualKey key patch.changes, HashMap.lookup key patch.changes with
  | some actual, some (before, after) => some ⟨actual, before, after⟩
  | _, _ => none

def delete (key : k) (patch : PersistentMapPatch k v) : PersistentMapPatch k v :=
  if !HashMap.member key patch.changes then patch else ⟨HashMap.delete key patch.changes⟩

def toEntry (change : k × Option v × Option v) : MapPatchEntry k v :=
  ⟨change.1, change.2.1, change.2.2⟩

def toList (patch : PersistentMapPatch k v) : List (MapPatchEntry k v) :=
  (HashMap.toList patch.changes).map toEntry

def invert (patch : PersistentMapPatch k v) : PersistentMapPatch k v :=
  ⟨fromListWith (policy patch)
    ((toList patch).map fun entry => (entry.entryKey, entry.afterValue, entry.beforeValue))⟩

def addDifference (changes : HashMap k (Option v × Option v)) :
    MapDifference k v → HashMap k (Option v × Option v)
  | .entryAdded key value => insert key (none, some value) changes
  | .entryRemoved key value => insert key (some value, none) changes
  | .entryChanged key oldValue newValue => insert key (some oldValue, some newValue) changes

def applyEntry (current : HashMap k v) (entry : MapPatchEntry k v) : HashMap k v :=
  match entry.afterValue with
  | none => HashMap.delete entry.entryKey current
  | some value => insert entry.entryKey value current

variable [BEq v]

def sameState (left right : Option v) : Bool := left == right

def insert (entry : MapPatchEntry k v) (patch : PersistentMapPatch k v) :
    Option (PersistentMapPatch k v) :=
  if sameState entry.beforeValue entry.afterValue then some patch
  else if member entry.entryKey patch.changes then none
  else some ⟨HashMap.insert entry.entryKey (entry.beforeValue, entry.afterValue) patch.changes⟩

def fromListWith (keys : HashPolicy k) (entries : List (MapPatchEntry k v)) :
    Option (PersistentMapPatch k v) :=
  entries.foldlM (fun patch entry => insert entry patch) (emptyWith keys)

def between (identity : Identity k v) (source target : HashMap k v) : PersistentMapPatch k v :=
  ⟨(HashMap.diff identity source target).foldl addDifference (HashMap.emptyWith source.policy)⟩

def conflicts (source : HashMap k v) (entry : MapPatchEntry k v) : Bool :=
  HashMap.lookup entry.entryKey source != entry.beforeValue

def apply (patch : PersistentMapPatch k v) (source : HashMap k v) : Except k (HashMap k v) :=
  match (toList patch).find? (conflicts source) with
  | some entry => .error entry.entryKey
  | none => .ok ((toList patch).foldl applyEntry source)

def composeEntry (current : PersistentMapPatch k v) (entry : MapPatchEntry k v) :
    Except k (PersistentMapPatch k v) :=
  match lookup entry.entryKey current with
  | none =>
      match insert entry current with
      | some result => .ok result
      | none => .error entry.entryKey
  | some prior =>
      if !sameState prior.afterValue entry.beforeValue then .error entry.entryKey
      else if sameState prior.beforeValue entry.afterValue then .ok (delete prior.entryKey current)
      else .ok ⟨HashMap.insert prior.entryKey (prior.beforeValue, entry.afterValue) current.changes⟩

def compose (first next : PersistentMapPatch k v) : Except k (PersistentMapPatch k v) :=
  (toList next).foldlM composeEntry first

def validStructure (patch : PersistentMapPatch k v) : Bool :=
  HashMap.validStructure patch.changes &&
    (toList patch).all fun entry => !sameState entry.beforeValue entry.afterValue

end PersistentMapPatch

end Durable7.Hamt

/-!
## Patches by classes of keys

The meaning of a patch is the change it holds for each class of keys.
-/

namespace Durable7.Hamt.PersistentMapPatch

open Foundation List
open HashMap (CanonicalMap Identity MapDifference entryOf)

variable {k v : Type}

/-- The change that a patch holds for a key, beside the key it is stored under. -/
def changeAt (patch : PersistentMapPatch k v) (key : k) : Option (k × Option v × Option v) :=
  entryOf patch.changes key

/-- Every change changes something. -/
structure Valid (patch : PersistentMapPatch k v) : Prop where
  wellFormed : patch.changes.WellFormed
  changing : ∀ change ∈ HashMap.toList patch.changes, change.2.1 ≠ change.2.2

variable {patch : PersistentMapPatch k v} {map : HashMap k v}

variable {change : k × Option v × Option v} {key : k}

theorem mem_of_changeAt (h : changeAt patch key = some change) :
    change ∈ HashMap.toList patch.changes ∧ patch.policy.equalKeys key change.1 = true :=
  mem_of_entryAt h

section

variable (h : Valid patch)
include h

theorem Valid.changeAt_self (hmem : change ∈ HashMap.toList patch.changes) :
    changeAt patch change.1 = some change :=
  entryAt_self h.wellFormed.lawful.equivalence h.wellFormed.distinct hmem

theorem Valid.changeAt_congr {left right : k}
    (hsame : patch.policy.equalKeys left right = true) :
    changeAt patch left = changeAt patch right :=
  entryAt_congr h.wellFormed.lawful.equivalence hsame _

theorem Valid.changing_at (hchange : changeAt patch key = some change) : change.2.1 ≠ change.2.2 :=
  h.changing change (mem_of_changeAt hchange).1

theorem Valid.becomes {next : HashMap k (Option v × Option v)}
    {change : Option (k × Option v × Option v)}
    (hnext : HashMap.Becomes patch.changes next key change)
    (hchange : ∀ changed, change = some changed → changed.2.1 ≠ changed.2.2) :
    Valid ⟨next⟩ := by
  refine ⟨hnext.wellFormed, fun changed hmem => ?_⟩
  have hself := entryAt_self hnext.wellFormed.lawful.equivalence hnext.wellFormed.distinct hmem
  change entryOf next changed.1 = some changed at hself
  rw [hnext.entryOf_eq] at hself
  split at hself
  · exact hchange changed hself
  · exact h.changing_at hself

theorem lookup_eq (key : k) : lookup key patch = (changeAt patch key).map toEntry := by
  rw [lookup, h.wellFormed.actualKey_eq, h.wellFormed.lookup_eq, changeAt]
  cases entryOf patch.changes key <;> rfl

end

theorem emptyWith_valid {keys : HashPolicy k} (hlawful : keys.Lawful) :
    Valid (emptyWith keys : PersistentMapPatch k v) :=
  ⟨HashMap.emptyWith_wellFormed hlawful, forall_mem_nil _⟩

theorem delete_valid (h : Valid patch) (key : k) :
    Valid (delete key patch) ∧
      HashMap.Becomes patch.changes (delete key patch).changes key none := by
  unfold delete
  split
  · rename_i habsent
    rw [h.wellFormed.member_eq] at habsent
    have hnone : entryOf patch.changes key = none := by simpa using habsent
    have hsame := h.wellFormed.becomes_same key
    rw [hnone] at hsame
    exact ⟨h, hsame⟩
  · have hdeleted := HashMap.delete_becomes h.wellFormed key
    exact ⟨h.becomes hdeleted (fun _ hsome => by cases hsome), hdeleted⟩

def swapped (change : k × Option v × Option v) : k × Option v × Option v :=
  (change.1, change.2.2, change.2.1)

theorem invert_spec (h : Valid patch) :
    Valid (invert patch) ∧ (invert patch).policy = patch.policy ∧
      ∀ key, changeAt (invert patch) key = (changeAt patch key).map swapped := by
  have hlist : (toList patch).map
      (fun entry => (entry.entryKey, entry.afterValue, entry.beforeValue)) =
        (HashMap.toList patch.changes).map swapped := by
    rw [toList, map_map]
    rfl
  have hselect : (HashMap.toList patch.changes).map swapped =
      (HashMap.toList patch.changes).filterMap fun change => some (swapped change) :=
    (congrFun filterMap_eq_map' _).symm
  have hkeep : ∀ {change kept : k × Option v × Option v}, some (swapped change) = some kept →
      kept.1 = change.1 := by
    rintro change _ ⟨⟩
    rfl
  have hdistinct :
      Distinct patch.policy.equalKeys ((HashMap.toList patch.changes).map swapped) := by
    rw [hselect]
    exact h.wellFormed.distinct.selected hkeep
  obtain ⟨hwellFormed, hpolicy, hentries⟩ := HashMap.fromListWith_spec h.wellFormed.lawful
    ((HashMap.toList patch.changes).map swapped)
  have hchanges : ∀ key, changeAt (invert patch) key = (changeAt patch key).map swapped := by
    intro key
    rw [changeAt, invert, hlist]
    refine (hentries key).trans ?_
    rw [gathered_of_distinct h.wellFormed.lawful.equivalence hdistinct, hselect,
      entryAt_selected h.wellFormed.lawful.equivalence hkeep h.wellFormed.distinct]
    unfold changeAt entryOf
    cases entryAt patch.changes.policy.equalKeys key (HashMap.toList patch.changes) <;> rfl
  have hinverted : (invert patch).changes.WellFormed := by
    rw [invert, hlist]
    exact hwellFormed
  refine ⟨⟨hinverted, fun change hmem => ?_⟩, ?_, hchanges⟩
  · have hself : changeAt (invert patch) change.1 = some change :=
      entryAt_self hinverted.lawful.equivalence hinverted.distinct hmem
    rw [hchanges] at hself
    obtain ⟨stored, hstored, rfl⟩ := Option.map_eq_some_iff.mp hself
    exact (h.changing_at hstored).symm
  · rw [policy, invert, hlist]
    exact hpolicy

variable [BEq v] [LawfulBEq v]

theorem validStructure_eq (h : Valid patch) : validStructure patch = true := by
  rw [validStructure, h.wellFormed.validStructure_eq, Bool.true_and, all_eq_true, toList,
    forall_mem_map]
  intro change hmem
  have hchanging := h.changing change hmem
  simpa [sameState, toEntry] using hchanging

theorem insert_spec (h : Valid patch) (entry : MapPatchEntry k v) :
    (entry.beforeValue = entry.afterValue ∧ insert entry patch = some patch) ∨
    (entry.beforeValue ≠ entry.afterValue ∧ (changeAt patch entry.entryKey).isSome = true ∧
      insert entry patch = none) ∨
    (entry.beforeValue ≠ entry.afterValue ∧ changeAt patch entry.entryKey = none ∧
      ∃ next, insert entry patch = some next ∧ Valid next ∧
        HashMap.Becomes patch.changes next.changes entry.entryKey
          (some (entry.entryKey, entry.beforeValue, entry.afterValue))) := by
  unfold insert sameState
  by_cases hstate : entry.beforeValue = entry.afterValue
  · exact .inl ⟨hstate, if_pos (beq_iff_eq.mpr hstate)⟩
  rw [if_neg (by rwa [beq_iff_eq]), h.wellFormed.member_eq]
  cases hchange : entryOf patch.changes entry.entryKey with
  | some change =>
      rw [changeAt, hchange]
      exact .inr (.inl ⟨hstate, rfl, rfl⟩)
  | none =>
      have hinserted := HashMap.insert_becomes h.wellFormed entry.entryKey
        (entry.beforeValue, entry.afterValue)
      rw [hchange] at hinserted
      refine .inr (.inr ⟨hstate, hchange, _, rfl, h.becomes hinserted ?_, hinserted⟩)
      rintro _ ⟨⟩
      exact hstate

/-- The change that two changes of one class make up. -/
def composeAt (first next : Option (k × Option v × Option v)) : Option (k × Option v × Option v) :=
  match first, next with
  | none, change => change
  | some change, none => some change
  | some (key, before, _), some (_, _, after) =>
      if before == after then none else some (key, before, after)

/-- What the first change leaves is not what the next one expects. -/
def Disagree (first next : Option (k × Option v × Option v)) : Prop :=
  ∃ prior change, first = some prior ∧ next = some change ∧ prior.2.2 ≠ change.2.1

theorem composeEntry_spec (h : Valid patch) (hchange : change.2.1 ≠ change.2.2) :
    (Disagree (changeAt patch change.1) (some change) ∧
      composeEntry patch (toEntry change) = .error change.1) ∨
    (¬ Disagree (changeAt patch change.1) (some change) ∧
      ∃ next, composeEntry patch (toEntry change) = .ok next ∧ Valid next ∧
        HashMap.Becomes patch.changes next.changes change.1
          (composeAt (changeAt patch change.1) (some change))) := by
  obtain ⟨key, before, after⟩ := change
  unfold composeEntry
  rw [lookup_eq h]
  dsimp only [toEntry]
  cases hprior : changeAt patch key with
  | none =>
      refine .inr ⟨?_, ?_⟩
      · rintro ⟨_, _, hsome, -⟩
        cases hsome
      · rcases insert_spec h ⟨key, before, after⟩ with ⟨hstate, -⟩ | ⟨-, hpresent, -⟩ |
          ⟨-, -, next, hnext, hvalid, hbecomes⟩
        · exact absurd hstate hchange
        · rw [hprior] at hpresent
          cases hpresent
        · rw [Option.map_none, hnext]
          exact ⟨next, rfl, hvalid, hbecomes⟩
  | some prior =>
      obtain ⟨actual, first, middle⟩ := prior
      have hactual : patch.policy.equalKeys key actual = true := (mem_of_changeAt hprior).2
      have hself : changeAt patch actual = some (actual, first, middle) := by
        rw [← h.changeAt_congr hactual]
        exact hprior
      have hclass : ∀ {next : HashMap k (Option v × Option v)}
          {changed : Option (k × Option v × Option v)},
          HashMap.Becomes patch.changes next actual changed →
          HashMap.Becomes patch.changes next key changed := by
        rintro next changed ⟨hwellFormed, hpolicy, hentries⟩
        refine ⟨hwellFormed, hpolicy, fun other => ?_⟩
        have hequivalence := h.wellFormed.lawful.equivalence
        rw [hentries, same_comm hequivalence other, same_comm hequivalence other key,
          same_congr hequivalence hactual]
      rw [Option.map_some]
      dsimp only [toEntry]
      by_cases hagree : middle = before
      · subst hagree
        refine .inr ⟨?_, ?_⟩
        · rintro ⟨_, _, hfirst, hnext, hne⟩
          cases hfirst
          cases hnext
          exact hne rfl
        by_cases hcancel : first = after
        · obtain ⟨hvalid, hdeleted⟩ := delete_valid h actual
          rw [composeAt, if_pos (beq_iff_eq.mpr hcancel)]
          refine ⟨delete actual patch, ?_, hvalid, hclass hdeleted⟩
          simp [sameState, hcancel]
        · have hinserted := HashMap.insert_becomes h.wellFormed actual (first, after)
          rw [changeAt] at hself
          rw [hself] at hinserted
          rw [composeAt, if_neg (by rwa [beq_iff_eq])]
          refine ⟨⟨HashMap.insert actual (first, after) patch.changes⟩, ?_,
            h.becomes hinserted ?_, hclass hinserted⟩
          · simp [sameState, hcancel]
          · rintro _ ⟨⟩
            exact hcancel
      · refine .inl ⟨⟨_, _, rfl, rfl, hagree⟩, ?_⟩
        simp [sameState, hagree]

theorem foldlM_composeEntry {keys : HashPolicy k} {changes : List (k × Option v × Option v)}
    (h : Valid patch) (hpolicy : patch.policy = keys) (hdistinct : Distinct keys.equalKeys changes)
    (hchanging : ∀ change ∈ changes, change.2.1 ≠ change.2.2) :
    (∃ change ∈ changes, Disagree (changeAt patch change.1) (some change) ∧
      (changes.map toEntry).foldlM composeEntry patch = .error change.1) ∨
    ((∀ change ∈ changes, ¬ Disagree (changeAt patch change.1) (some change)) ∧
      ∃ result, (changes.map toEntry).foldlM composeEntry patch = .ok result ∧ Valid result ∧
        result.policy = keys ∧
        ∀ key, changeAt result key =
          composeAt (changeAt patch key) (entryAt keys.equalKeys key changes)) := by
  induction changes generalizing patch with
  | nil =>
      refine .inr ⟨forall_mem_nil _, patch, rfl, h, hpolicy, fun key => ?_⟩
      cases changeAt patch key <;> rfl
  | cons change changes ih =>
      rw [forall_mem_cons] at hchanging
      obtain ⟨hapart, hrest⟩ := pairwise_cons.mp hdistinct
      have hequivalence := h.wellFormed.lawful.equivalence
      change Equivalence fun left right => patch.policy.equalKeys left right = true at hequivalence
      rw [hpolicy] at hequivalence
      rw [map_cons, foldlM_cons]
      rcases composeEntry_spec h hchanging.1 with ⟨hdisagree, herror⟩ |
        ⟨hagree, next, hnext, hvalid, hbecomes⟩
      · rw [herror]
        exact .inl ⟨change, mem_cons_self, hdisagree, rfl⟩
      · have hentries : ∀ key, changeAt next key =
            if keys.equalKeys key change.1 = true then
              composeAt (changeAt patch change.1) (some change)
            else changeAt patch key := by
          intro key
          rw [← hpolicy]
          exact hbecomes.entryOf_eq key
        have hkept : ∀ other ∈ changes, changeAt next other.1 = changeAt patch other.1 := by
          intro other hother
          rw [hentries, if_neg]
          rw [same_comm hequivalence, hapart other hother]
          exact Bool.false_ne_true
        rw [hnext]
        rcases ih hvalid (hbecomes.policy_eq.trans hpolicy) hrest hchanging.2 with
          ⟨other, hother, hdisagree, herror⟩ |
          ⟨hagreed, result, hresult, hresultValid, hresultPolicy, hresultChanges⟩
        · rw [hkept other hother] at hdisagree
          exact .inl ⟨other, mem_cons_of_mem _ hother, hdisagree, herror⟩
        · refine .inr ⟨forall_mem_cons.mpr ⟨hagree, fun other hother => ?_⟩, result, hresult,
            hresultValid, hresultPolicy, fun key => ?_⟩
          · rw [← hkept other hother]
            exact hagreed other hother
          · rw [hresultChanges, hentries, entryAt_cons]
            by_cases hkey : keys.equalKeys key change.1 = true
            · have habsent : entryAt keys.equalKeys key changes = none := by
                rw [entryAt_congr hequivalence hkey]
                exact entryAt_eq_none.mpr hapart
              have hpatch : changeAt patch key = changeAt patch change.1 :=
                h.changeAt_congr (by rw [hpolicy]; exact hkey)
              rw [if_pos hkey, if_pos hkey, habsent, hpatch]
              cases composeAt (changeAt patch change.1) (some change) <;> rfl
            · rw [if_neg hkey, if_neg hkey]

end Durable7.Hamt.PersistentMapPatch
