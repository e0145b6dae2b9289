import Durable7.FingerTree.PersistentDeltaMap.Edits
import Durable7.Foundation.Branching

/-!
# Histories of delta maps

The sequential model keeps two tables, the current one and the checkpoint.  Every version
of every branching history shows them and the exact difference between them.
-/

namespace Durable7.FingerTree.PersistentDeltaMap

open Foundation List SortedMap

variable {key value : Type}

inductive Edit (key value : Type) where
  | setItem (probe : key) (newValue : value)
  | setItems (entries : List (key × value))
  | remove (probe : key)
  | checkpoint
  | rollback

def applyEdit {policy : DeltaMapPolicy key value} (deltaMap : PersistentDeltaMap policy) :
    Edit key value → PersistentDeltaMap policy
  | .setItem probe newValue => setItem probe newValue deltaMap
  | .setItems entries => setItems entries deltaMap
  | .remove probe => remove probe deltaMap
  | .checkpoint => checkpoint deltaMap
  | .rollback => rollback deltaMap

/-! ## The sequential model -/

structure EndpointTables (key value : Type) where
  current : key → Option value
  checkpoint : key → Option value

variable {after : Option value} {probe : key} {table : key → Option value}

namespace EndpointTables

variable (policy : DeltaMapPolicy key value)

def put (table : key → Option value) (probe : key) (after : Option value) : key → Option value :=
  fun target => if policy.policyCompareKeys probe target = .eq then after else table target

theorem put_of_eq {target : key} (h : policy.policyCompareKeys probe target = .eq) :
    put policy table probe after target = after :=
  if_pos h

theorem put_of_ne {target : key} (h : policy.policyCompareKeys probe target ≠ .eq) :
    put policy table probe after target = table target :=
  if_neg h

theorem put_self [lawful : LawfulPolicy policy] : put policy table probe after probe = after := by
  have := lawful.comparer
  exact put_of_eq policy Std.ReflCmp.compare_self

def putAll (table : key → Option value) (entries : List (key × value)) : key → Option value :=
  entries.foldl (fun written entry => put policy written entry.1 (some entry.2)) table

def initial (entries : List (key × value)) : EndpointTables key value :=
  ⟨putAll policy (fun _ => none) entries, putAll policy (fun _ => none) entries⟩

def applyEdit (tables : EndpointTables key value) : Edit key value → EndpointTables key value
  | .setItem probe newValue => ⟨put policy tables.current probe (some newValue), tables.checkpoint⟩
  | .setItems entries => ⟨putAll policy tables.current entries, tables.checkpoint⟩
  | .remove probe => ⟨put policy tables.current probe none, tables.checkpoint⟩
  | .checkpoint => ⟨tables.current, tables.current⟩
  | .rollback => ⟨tables.checkpoint, tables.checkpoint⟩

end EndpointTables

/-- The kind of a change between two endpoints. -/
def kindBetween (before after : Option value) : Option PersistentMapChangeKind :=
  match before, after with
  | some _, some _ => some .updated
  | some _, none => some .removed
  | none, some _ => some .added
  | none, none => none

variable {policy : DeltaMapPolicy key value} [LawfulPolicy policy]
  {deltaMap : PersistentDeltaMap policy} {tables : EndpointTables key value}

/-! ## Step refinement -/

structure Refines (deltaMap : PersistentDeltaMap policy) (tables : EndpointTables key value) :
    Prop where
  coherent : Coherent deltaMap
  current : ∀ probe, Equivalent policy (lookup probe deltaMap) (tables.current probe)
  checkpoint : ∀ probe,
    Equivalent policy (checkpointLookup probe deltaMap) (tables.checkpoint probe)

section

variable (h : Refines deltaMap tables)
include h

theorem refines_edited {next : PersistentDeltaMap policy}
    (hedited : Edited deltaMap ⟨probe⟩ after next) :
    Refines next ⟨EndpointTables.put policy tables.current probe after, tables.checkpoint⟩ where
  coherent := hedited.coherent h.coherent
  current target := by
    apply (hedited.lookup h.coherent ⟨target⟩).trans
    dsimp only
    by_cases hclass : compare (⟨probe⟩ : OrderedKey policy) ⟨target⟩ = .eq
    · rw [if_pos hclass, EndpointTables.put_of_eq policy hclass]
      exact Equivalent.refl after
    · rw [if_neg hclass, EndpointTables.put_of_ne policy hclass]
      exact h.current target
  checkpoint target := by
    rw [checkpointLookup, hedited.checkpoint_eq]
    exact h.checkpoint target

theorem refines_setItem (probe : key) (newValue : value) :
    Refines (setItem probe newValue deltaMap)
      ⟨EndpointTables.put policy tables.current probe (some newValue), tables.checkpoint⟩ :=
  refines_edited h (setItem_edited h.coherent probe newValue)

theorem refines_setItems (entries : List (key × value)) :
    Refines (setItems entries deltaMap)
      ⟨EndpointTables.putAll policy tables.current entries, tables.checkpoint⟩ := by
  induction entries generalizing deltaMap tables with
  | nil => exact h
  | cons entry entries ih => exact ih (refines_setItem h entry.1 entry.2)

theorem refines_checkpoint :
    Refines (PersistentDeltaMap.checkpoint deltaMap) ⟨tables.current, tables.current⟩ where
  coherent := coherent_checkpoint h.coherent
  current probe := by
    rw [lookup, checkpoint_current]
    exact h.current probe
  checkpoint probe := by
    rw [checkpointLookup, checkpoint_checkpoint h.coherent]
    exact h.current probe

theorem refines_rollback : Refines (rollback deltaMap) ⟨tables.checkpoint, tables.checkpoint⟩ where
  coherent := coherent_rollback h.coherent
  current probe := by
    rw [lookup, rollback_current h.coherent]
    exact h.checkpoint probe
  checkpoint probe := by
    rw [checkpointLookup, rollback_checkpoint]
    exact h.checkpoint probe

end

theorem refines_applyEdit (deltaMap : PersistentDeltaMap policy)
    (tables : EndpointTables key value) (edit : Edit key value) (h : Refines deltaMap tables) :
    Refines (applyEdit deltaMap edit) (EndpointTables.applyEdit policy tables edit) := by
  cases edit with
  | setItem probe newValue => exact refines_setItem h probe newValue
  | setItems entries => exact refines_setItems h entries
  | remove probe => exact refines_edited h (remove_edited h.coherent probe)
  | checkpoint => exact refines_checkpoint h
  | rollback => exact refines_rollback h

theorem lookup_fromEntries (entries : List (key × value)) (probe : key) :
    ∀ {stored : SortedMap (OrderedKey policy) value} {table : key → Option value},
      SortedMap.Sorted stored → SortedMap.lookup ⟨probe⟩ stored = table probe →
      SortedMap.lookup ⟨probe⟩ (entries.foldl
        (fun stored entry => SortedMap.insert ⟨entry.1⟩ entry.2 stored) stored) =
        EndpointTables.putAll policy table entries probe := by
  induction entries with
  | nil => exact fun _ hprobe => hprobe
  | cons entry entries ih =>
      intro stored table hsorted hprobe
      apply ih (sorted_insert hsorted _ _)
      have hwrite := lookup_write hsorted ⟨entry.1⟩ (some entry.2) ⟨probe⟩
      rw [hprobe] at hwrite
      exact hwrite

theorem refines_initial (entries : List (key × value)) :
    Refines (fromListWith policy entries) (EndpointTables.initial policy entries) := by
  have hreads : ∀ probe, lookup probe (fromListWith policy entries) =
      EndpointTables.putAll policy (fun _ => none) entries probe := by
    intro probe
    apply lookup_fromEntries entries probe SortedMap.sorted_empty
    rw [lookup_eq sorted_empty, find_empty]
    rfl
  refine ⟨coherent_fromListWith entries, fun probe => ?_, fun probe => ?_⟩
  · rw [hreads]
    exact Equivalent.refl _
  · change Equivalent policy (lookup probe (fromListWith policy entries)) _
    rw [hreads]
    exact Equivalent.refl _

/-! ## Observations -/

/-- What a version shows of its two tables. -/
structure Observes (deltaMap : PersistentDeltaMap policy) (tables : EndpointTables key value) :
    Prop where
  valid : ∃ statistics, validateStructure deltaMap = .ok statistics
  reads : ∀ probe, Equivalent policy (lookup probe deltaMap) (tables.current probe)
  checkpointReads : ∀ probe,
    Equivalent policy (checkpointLookup probe deltaMap) (tables.checkpoint probe)
  exactReads : (∀ first second, policy.policyValuesEqual first second = true → first = second) →
    ∀ probe, lookup probe deltaMap = tables.current probe
  changed : ∀ probe, (lookupChange probe deltaMap).isSome = true ↔
    ¬ Equivalent policy (tables.checkpoint probe) (tables.current probe)
  change : ∀ probe found, lookupChange probe deltaMap = some found →
    policy.policyCompareKeys found.changeKey probe = .eq ∧
      Equivalent policy found.changeBefore (tables.checkpoint probe) ∧
      Equivalent policy found.changeAfter (tables.current probe) ∧
      (changeKind found).toOption = kindBetween (tables.checkpoint probe) (tables.current probe)
  listed : ∀ found, found ∈ changes deltaMap ↔ lookupChange found.changeKey deltaMap = some found
  ascending : StrictlySorted policy.policyCompareKeys PersistentMapChange.changeKey
    (changes deltaMap)
  restoredBySet : ∀ probe newValue,
    Equivalent policy (tables.checkpoint probe) (some newValue) →
      lookupChange probe (setItem probe newValue deltaMap) = none
  restoredByRemove : ∀ probe, tables.checkpoint probe = none →
    lookupChange probe (remove probe deltaMap) = none
  rolledBack : toList (rollback deltaMap) = checkpointToList deltaMap ∧
    changes (rollback deltaMap) = []
  oneRepresentative : ∀ entry ∈ toList deltaMap, ∀ baseline ∈ checkpointToList deltaMap,
    policy.policyCompareKeys entry.1 baseline.1 = .eq → entry.1 = baseline.1

omit [LawfulPolicy policy] in
theorem kind_of_equivalent {found : PersistentMapChange key value} {before : Option value}
    (hbefore : Equivalent policy found.changeBefore before)
    (hafter : Equivalent policy found.changeAfter after) :
    (changeKind found).toOption = kindBetween before after := by
  obtain ⟨changedKey, changeBefore, changeAfter⟩ := found
  have hbefore := hbefore.isSome_eq
  have hafter := hafter.isSome_eq
  cases changeBefore <;> cases before <;> cases hbefore <;>
    cases changeAfter <;> cases after <;> cases hafter <;> rfl

theorem lookupChange_eq (h : Coherent deltaMap) (probe : key) :
    lookupChange probe deltaMap = (find ⟨probe⟩ deltaMap.deltaChanges).map storedChange := by
  rw [lookupChange, lookupStoredEntry_eq h.tracks.indexSorted]

theorem mem_changes (h : Coherent deltaMap) (found : PersistentMapChange key value) :
    found ∈ changes deltaMap ↔ lookupChange found.changeKey deltaMap = some found := by
  rw [lookupChange_eq h, Option.map_eq_some_iff, changes, mem_map]
  constructor
  · rintro ⟨entry, hentry, rfl⟩
    exact ⟨entry, (find_mem h.tracks.indexSorted).mpr hentry, rfl⟩
  · rintro ⟨entry, hentry, heq⟩
    exact ⟨entry, (findKey_mem hentry).1, heq⟩

section

variable (h : Refines deltaMap tables)
include h

theorem lookupChange_isSome (probe : key) :
    (lookupChange probe deltaMap).isSome = true ↔
      ¬ Equivalent policy (tables.checkpoint probe) (tables.current probe) := by
  rw [lookupChange_eq h.coherent, Option.isSome_map]
  have hcurrent := h.current probe
  have hcheckpoint := h.checkpoint probe
  cases hfind : find ⟨probe⟩ deltaMap.deltaChanges with
  | none =>
      have hunchanged := h.coherent.tracks.unchanged ⟨probe⟩ hfind
      apply iff_of_false Bool.false_ne_true
      exact not_not_intro ((hcheckpoint.symm.trans hunchanged).trans hcurrent)
  | some entry =>
      obtain ⟨hbaseline, hafter, hdiffers⟩ := h.coherent.tracks.recorded ⟨probe⟩ entry hfind
      apply iff_of_true rfl
      intro hequivalent
      rw [hafter] at hdiffers
      exact hdiffers (((hbaseline.trans hcheckpoint).trans hequivalent).trans hcurrent.symm)

theorem observed_change (probe : key)
    (found : PersistentMapChange key value) (hfound : lookupChange probe deltaMap = some found) :
    policy.policyCompareKeys found.changeKey probe = .eq ∧
      Equivalent policy found.changeBefore (tables.checkpoint probe) ∧
      Equivalent policy found.changeAfter (tables.current probe) ∧
      (changeKind found).toOption =
        kindBetween (tables.checkpoint probe) (tables.current probe) := by
  rw [lookupChange_eq h.coherent, Option.map_eq_some_iff] at hfound
  obtain ⟨entry, hentry, rfl⟩ := hfound
  obtain ⟨hbaseline, hafter, -⟩ := h.coherent.tracks.recorded ⟨probe⟩ entry hentry
  have hbefore : Equivalent policy (storedChange entry).changeBefore (tables.checkpoint probe) :=
    hbaseline.trans (h.checkpoint probe)
  have hnext : Equivalent policy (storedChange entry).changeAfter (tables.current probe) := by
    change Equivalent policy entry.2.recordAfter _
    rw [hafter]
    exact h.current probe
  exact ⟨find_class hentry, hbefore, hnext, kind_of_equivalent hbefore hnext⟩

theorem lookupChange_restored
    (hrestored : Equivalent policy (tables.checkpoint probe) (tables.current probe)) :
    lookupChange probe deltaMap = none := by
  rw [← Option.not_isSome_iff_eq_none, lookupChange_isSome h]
  exact not_not_intro hrestored

end

theorem observed_representative (h : Coherent deltaMap) :
    ∀ entry ∈ toList deltaMap, ∀ baseline ∈ checkpointToList deltaMap,
      policy.policyCompareKeys entry.1 baseline.1 = .eq → entry.1 = baseline.1 := by
  intro entry hentry baseline hbaseline hclass
  obtain ⟨held, hheld, rfl⟩ := mem_map.mp hentry
  obtain ⟨kept, hkept, rfl⟩ := mem_map.mp hbaseline
  have hclass : compare held.1 kept.1 = .eq := hclass
  obtain ⟨stored, -, hcurrent, hcheckpoint, -⟩ := h.tracks.oneKey kept.1
  have hfound := (find_mem h.tracks.currentSorted).mpr hheld
  rw [find_congr hclass] at hfound
  have hsame : held.1 = kept.1 :=
    (hcurrent held hfound).trans
      (hcheckpoint kept ((find_mem h.tracks.checkpointSorted).mpr hkept)).symm
  exact congrArg OrderedKey.orderedKeyValue hsame

theorem observes_of_refines (h : Refines deltaMap tables) : Observes deltaMap tables where
  valid := ⟨_, validateStructure_ok h.coherent⟩
  reads := h.current
  checkpointReads := h.checkpoint
  exactReads hexact probe := by
    have hreads := h.current probe
    generalize lookup probe deltaMap = shown at hreads ⊢
    generalize tables.current probe = expected at hreads ⊢
    cases shown <;> cases expected
    · rfl
    · cases hreads
    · cases hreads
    · rw [hexact _ _ hreads]
  changed := lookupChange_isSome h
  change := observed_change h
  listed := mem_changes h.coherent
  ascending := pairwise_map.mpr h.coherent.tracks.indexSorted
  restoredBySet probe newValue hrestored := by
    apply lookupChange_restored (refines_setItem h probe newValue)
    dsimp only
    rw [EndpointTables.put_self]
    exact hrestored
  restoredByRemove probe habsent := by
    apply lookupChange_restored (refines_edited h (remove_edited h.coherent probe))
    dsimp only
    rw [EndpointTables.put_self, habsent]
    exact Equivalent.refl none
  rolledBack := by
    rw [toList, rollback_current h.coherent]
    exact ⟨rfl, rollback_changes⟩
  oneRepresentative := observed_representative h.coherent

/-- Every version of a branching history shows its tables and their difference. -/
theorem branches_observe (policy : DeltaMapPolicy key value) [LawfulPolicy policy]
    (entries : List (key × value)) (edits : List (Nat × Edit key value)) :
    List.Forall₂ Observes
      (branch applyEdit [fromListWith policy entries] edits)
      (branch (EndpointTables.applyEdit policy) [EndpointTables.initial policy entries] edits) :=
  (branch_refines refines_applyEdit (.cons (refines_initial entries) .nil) edits).imp
    fun _ _ h => observes_of_refines h

/-- Keys and values that count as equal within a block of ten. -/
def tensPolicy : DeltaMapPolicy Nat Nat where
  policyCompareKeys := compareOn (· / 10)
  policyValuesEqual left right := left / 10 == right / 10

instance : LawfulPolicy tensPolicy where
  comparer := inferInstanceAs (Std.TransCmp (compareOn (· / 10)))
  refl _ := beq_self_eq_true _
  symm _ _ h := BEq.symm h
  trans _ _ _ hfirst hsecond := BEq.trans hfirst hsecond

theorem branches_observe_tens :
    List.Forall₂ Observes
      (branch applyEdit [fromListWith tensPolicy [(1, 10)]]
        [(0, .remove 2), (1, .setItem 3 11), (1, .checkpoint), (0, .setItem 40 4), (4, .rollback)])
      (branch (EndpointTables.applyEdit tensPolicy) [EndpointTables.initial tensPolicy [(1, 10)]]
        [(0, .remove 2), (1, .setItem 3 11), (1, .checkpoint), (0, .setItem 40 4),
          (4, .rollback)]) :=
  branches_observe tensPolicy [(1, 10)]
    [(0, .remove 2), (1, .setItem 3 11), (1, .checkpoint), (0, .setItem 40 4), (4, .rollback)]

end Durable7.FingerTree.PersistentDeltaMap
