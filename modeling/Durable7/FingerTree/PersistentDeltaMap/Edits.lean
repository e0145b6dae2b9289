import Durable7.FingerTree.PersistentDeltaMap.Operations

/-!
# Edits of delta maps

`setItem` and `remove` both write one endpoint of one class.  A version without changes
is its checkpoint.
-/

namespace Durable7.FingerTree.PersistentDeltaMap

open Foundation

variable {key value : Type} {policy : DeltaMapPolicy key value}

section

open SortedMap

structure Coherent (deltaMap : PersistentDeltaMap policy) : Prop where
  tracks : Tracks deltaMap.deltaCurrent deltaMap.deltaCheckpoint deltaMap.deltaChanges
  clean : SortedMap.toList deltaMap.deltaChanges = [] →
    deltaMap.deltaCurrent = deltaMap.deltaCheckpoint

/-- The given version with one endpoint written. -/
inductive Edited (deltaMap : PersistentDeltaMap policy) (probe : OrderedKey policy)
    (after : Option value) : PersistentDeltaMap policy → Prop
  | noop : Equivalent policy (SortedMap.lookup probe deltaMap.deltaCurrent) after →
      Edited deltaMap probe after deltaMap
  | effective (stored : OrderedKey policy) (before : Option value) :
      compare stored probe = .eq →
      Represents stored stored deltaMap.deltaCheckpoint →
      Equivalent policy before (SortedMap.lookup stored deltaMap.deltaCheckpoint) →
      Edited deltaMap probe after
        (successor deltaMap (write stored after deltaMap.deltaCurrent)
          (record stored before after deltaMap.deltaChanges))

variable [LawfulPolicy policy] {deltaMap : PersistentDeltaMap policy}

theorem Tracks.emptied {current checkpoint : SortedMap (OrderedKey policy) value}
    {index : SortedMap (OrderedKey policy) (DeltaRecord value)}
    (h : Tracks current checkpoint index) (hempty : SortedMap.toList index = []) :
    Tracks checkpoint checkpoint index where
  currentSorted := h.checkpointSorted
  checkpointSorted := h.checkpointSorted
  indexSorted := h.indexSorted
  unchanged _ _ := Equivalent.refl _
  recorded probe entry hentry := by
    rw [find, hempty] at hentry
    cases hentry
  oneKey probe := by
    obtain ⟨stored, hclass, -, hcheckpoint, hindex⟩ := h.oneKey probe
    exact ⟨stored, hclass, hcheckpoint, hcheckpoint, hindex⟩

section

variable {current : SortedMap (OrderedKey policy) value}
  {index : SortedMap (OrderedKey policy) (DeltaRecord value)}
  (h : Tracks current deltaMap.deltaCheckpoint index)
include h

theorem coherent_successor : Coherent (successor deltaMap current index) := by
  by_cases hempty : SortedMap.toList index = []
  · have hnull := (SortedMap.null_iff index).mpr hempty
    have hcurrent : (successor deltaMap current index).deltaCurrent = deltaMap.deltaCheckpoint :=
      if_pos hnull
    refine ⟨?_, fun _ => hcurrent⟩
    rw [hcurrent]
    exact h.emptied hempty
  · have hnull : ¬ SortedMap.null index = true := mt (SortedMap.null_iff index).mp hempty
    have hcurrent : (successor deltaMap current index).deltaCurrent = current := if_neg hnull
    refine ⟨?_, fun hnil => absurd hnil hempty⟩
    rw [hcurrent]
    exact h

theorem lookup_successor (probe : OrderedKey policy) :
    Equivalent policy
      (SortedMap.lookup probe (successor deltaMap current index).deltaCurrent)
      (SortedMap.lookup probe current) := by
  unfold successor
  dsimp only
  split
  · next hnull =>
    apply h.unchanged probe
    rw [find, (null_iff index).mp hnull]
    rfl
  · exact Equivalent.refl _

end

section Edited

variable {probe : OrderedKey policy} {after : Option value} {next : PersistentDeltaMap policy}

omit [LawfulPolicy policy] in
theorem Edited.checkpoint_eq (h : Edited deltaMap probe after next) :
    next.deltaCheckpoint = deltaMap.deltaCheckpoint := by
  cases h <;> rfl

theorem Edited.coherent (h : Edited deltaMap probe after next) (hmap : Coherent deltaMap) :
    Coherent next := by
  cases h with
  | noop _ => exact hmap
  | effective stored before hclass hcheckpoint hbefore =>
      exact coherent_successor (hmap.tracks.edit after hcheckpoint hbefore)

theorem Edited.lookup (h : Edited deltaMap probe after next) (hmap : Coherent deltaMap)
    (target : OrderedKey policy) :
    Equivalent policy (SortedMap.lookup target next.deltaCurrent)
      (if compare probe target = .eq then after
        else SortedMap.lookup target deltaMap.deltaCurrent) := by
  have hsorted := hmap.tracks.currentSorted
  cases h with
  | noop hequivalent =>
      split
      · next hclass =>
        rw [← lookup_congr hsorted hclass]
        exact hequivalent
      · exact Equivalent.refl _
  | effective stored before hclass hcheckpoint hbefore =>
      apply (lookup_successor (hmap.tracks.edit after hcheckpoint hbefore) target).trans
      rw [lookup_write hsorted, Std.TransCmp.congr_left hclass]
      exact Equivalent.refl _

end Edited

theorem baseline_equivalent (h : Coherent deltaMap) (probe : OrderedKey policy) :
    Equivalent policy
      (match SortedMap.find probe deltaMap.deltaChanges with
        | some (_, change) => change.recordBefore
        | none => (SortedMap.find probe deltaMap.deltaCurrent).map Prod.snd)
      (SortedMap.lookup probe deltaMap.deltaCheckpoint) := by
  cases hchange : SortedMap.find probe deltaMap.deltaChanges with
  | some entry => exact (h.tracks.recorded probe entry hchange).1
  | none =>
      have hunchanged := h.tracks.unchanged probe hchange
      rw [SortedMap.lookup_eq h.tracks.currentSorted] at hunchanged
      exact hunchanged.symm

theorem setItem_edited (h : Coherent deltaMap) (probe : key) (newValue : value) :
    Edited deltaMap ⟨probe⟩ (some newValue) (setItem probe newValue deltaMap) := by
  have hbaseline := baseline_equivalent h ⟨probe⟩
  obtain ⟨stored, hclass, hcurrent, hcheckpoint, hindex⟩ := h.tracks.oneKey ⟨probe⟩
  have hkept : Represents stored stored deltaMap.deltaCheckpoint :=
    represents_congr (Std.OrientedCmp.eq_symm hclass) hcheckpoint
  have hmoved : ∀ {before : Option value},
      Equivalent policy before (SortedMap.lookup ⟨probe⟩ deltaMap.deltaCheckpoint) →
        Equivalent policy before (SortedMap.lookup stored deltaMap.deltaCheckpoint) := by
    intro before hbefore
    rw [lookup_congr h.tracks.checkpointSorted hclass]
    exact hbefore
  unfold setItem
  dsimp only
  rw [lookupStoredEntry_eq h.tracks.currentSorted, lookupStoredEntry_eq h.tracks.indexSorted]
  cases hfound : SortedMap.find ⟨probe⟩ deltaMap.deltaCurrent with
  | some entry =>
      have hentry := hcurrent entry hfound
      rw [hfound] at hbaseline
      split
      · next hequal =>
        apply Edited.noop
        rw [SortedMap.lookup_eq h.tracks.currentSorted, hfound]
        exact hequal
      · obtain ⟨storedKey, currentValue⟩ := entry
        cases hentry
        exact Edited.effective _ _ hclass hkept (hmoved hbaseline)
  | none =>
      rw [hfound] at hbaseline
      rw [if_neg (by exact Bool.false_ne_true)]
      cases hchange : SortedMap.find ⟨probe⟩ deltaMap.deltaChanges with
      | some entry =>
          have hentry := hindex entry hchange
          rw [hchange] at hbaseline
          obtain ⟨storedKey, change⟩ := entry
          cases hentry
          exact Edited.effective _ _ hclass hkept (hmoved hbaseline)
      | none =>
          rw [hchange] at hbaseline
          apply Edited.effective ⟨probe⟩ none Std.ReflCmp.compare_self _ hbaseline
          intro entry hentry
          rw [SortedMap.lookup_eq h.tracks.checkpointSorted, hentry] at hbaseline
          cases hbaseline

theorem remove_edited (h : Coherent deltaMap) (probe : key) :
    Edited deltaMap ⟨probe⟩ none (remove probe deltaMap) := by
  have hbaseline := baseline_equivalent h ⟨probe⟩
  obtain ⟨stored, hclass, hcurrent, hcheckpoint, hindex⟩ := h.tracks.oneKey ⟨probe⟩
  unfold remove
  dsimp only
  rw [lookupStoredEntry_eq h.tracks.currentSorted, lookupStoredEntry_eq h.tracks.indexSorted]
  cases hfound : SortedMap.find ⟨probe⟩ deltaMap.deltaCurrent with
  | none =>
      apply Edited.noop
      rw [SortedMap.lookup_eq h.tracks.currentSorted, hfound]
      rfl
  | some entry =>
      have hentry := hcurrent entry hfound
      rw [hfound] at hbaseline
      rw [← lookup_congr h.tracks.checkpointSorted hclass] at hbaseline
      have hkept : Represents stored stored deltaMap.deltaCheckpoint :=
        represents_congr (Std.OrientedCmp.eq_symm hclass) hcheckpoint
      obtain ⟨currentKey, currentValue⟩ := entry
      cases hentry
      cases hchange : SortedMap.find ⟨probe⟩ deltaMap.deltaChanges with
      | some change =>
          have hsame := hindex change hchange
          rw [hchange] at hbaseline
          dsimp only
          rw [hsame]
          exact Edited.effective _ _ hclass hkept hbaseline
      | none =>
          rw [hchange] at hbaseline
          exact Edited.effective _ _ hclass hkept hbaseline

/-! ## Coherent versions -/

theorem coherent_clean {entries : SortedMap (OrderedKey policy) value}
    (h : SortedMap.Sorted entries) : Coherent ⟨entries, entries, .empty⟩ :=
  ⟨Tracks.clean h, fun _ => rfl⟩

theorem sorted_fromEntries (entries : List (key × value)) :
    ∀ {stored : SortedMap (OrderedKey policy) value}, SortedMap.Sorted stored →
      SortedMap.Sorted (entries.foldl
        (fun stored entry => insert ⟨entry.1⟩ entry.2 stored) stored) := by
  induction entries with
  | nil => exact fun h => h
  | cons entry entries ih => exact fun h => ih (sorted_insert h _ _)

theorem coherent_fromListWith (entries : List (key × value)) :
    Coherent (fromListWith policy entries) :=
  coherent_clean (sorted_fromEntries entries SortedMap.sorted_empty)

theorem coherent_checkpoint (h : Coherent deltaMap) : Coherent (checkpoint deltaMap) := by
  unfold checkpoint
  split
  · exact h
  · exact coherent_clean h.tracks.currentSorted

theorem coherent_rollback (h : Coherent deltaMap) : Coherent (rollback deltaMap) := by
  unfold rollback
  split
  · exact h
  · exact coherent_clean h.tracks.checkpointSorted

omit [LawfulPolicy policy] in
theorem checkpoint_current : (checkpoint deltaMap).deltaCurrent = deltaMap.deltaCurrent := by
  unfold checkpoint
  split <;> rfl

omit [LawfulPolicy policy] in
theorem checkpoint_checkpoint (h : Coherent deltaMap) :
    (checkpoint deltaMap).deltaCheckpoint = deltaMap.deltaCurrent := by
  unfold checkpoint
  split
  · next hnull => exact (h.clean ((SortedMap.null_iff _).mp hnull)).symm
  · rfl

omit [LawfulPolicy policy] in
theorem rollback_checkpoint : (rollback deltaMap).deltaCheckpoint = deltaMap.deltaCheckpoint := by
  unfold rollback
  split <;> rfl

omit [LawfulPolicy policy] in
theorem rollback_current (h : Coherent deltaMap) :
    (rollback deltaMap).deltaCurrent = deltaMap.deltaCheckpoint := by
  unfold rollback
  split
  · next hnull => exact h.clean ((SortedMap.null_iff _).mp hnull)
  · rfl

omit [LawfulPolicy policy] in
theorem rollback_changes : changes (rollback deltaMap) = [] := by
  unfold rollback changes
  split
  · next hnull =>
    rw [(null_iff _).mp hnull]
    rfl
  · dsimp only
    rw [toList_empty]
    rfl

end

/-!
## Validation of delta maps

Every coherent version passes.  The two lists of differences that validation recomputes
from the states are the recorded keys.
-/

open List

theorem checkAscending_ok {message : String} {comparer : key → key → Ordering} {keys : List key}
    (h : StrictlySorted comparer id keys) : checkAscending message comparer keys = .ok () := by
  induction keys with
  | nil => rfl
  | cons left keys ih =>
      cases keys with
      | nil => rfl
      | cons right rest =>
          obtain ⟨hleft, hrest⟩ := pairwise_cons.mp h
          have hlt : comparer left right = .lt := hleft right mem_cons_self
          rw [checkAscending, if_neg (by rw [hlt]; exact fun hne => hne rfl)]
          exact ih hrest

section

variable {payload : Type} {entries : SortedMap (OrderedKey policy) payload}
  (h : SortedMap.Sorted entries)
include h

theorem ascending_keys :
    StrictlySorted policy.policyCompareKeys id
      ((SortedMap.toList entries).map fun entry => entry.1.orderedKeyValue) :=
  pairwise_map.mpr h

theorem ascending_filtered (selects : OrderedKey policy × payload → Bool) :
    StrictlySorted compare id (((SortedMap.toList entries).filter selects).map Prod.fst) :=
  pairwise_map.mpr (h.filter selects)

end

theorem mem_filtered {payload : Type} {entries : List (OrderedKey policy × payload)}
    {selects : OrderedKey policy × payload → Bool} {probe : OrderedKey policy} :
    probe ∈ (entries.filter selects).map Prod.fst ↔
      ∃ stored, (probe, stored) ∈ entries ∧ selects (probe, stored) = true := by
  rw [mem_map]
  constructor
  · rintro ⟨⟨stored, payload⟩, hmem, rfl⟩
    exact ⟨payload, mem_filter.mp hmem⟩
  · rintro ⟨payload, hmem⟩
    exact ⟨(probe, payload), mem_filter.mpr hmem, rfl⟩

variable [LawfulPolicy policy] {deltaMap : PersistentDeltaMap policy}

/-! ### Recomputed differences -/

section Differences

variable (h : Coherent deltaMap)

include h

theorem record_endpoints {entry : OrderedKey policy × DeltaRecord value}
    (hentry : entry ∈ SortedMap.toList deltaMap.deltaChanges) :
    Equivalent policy entry.2.recordBefore (SortedMap.lookup entry.1 deltaMap.deltaCheckpoint) ∧
      entry.2.recordAfter = SortedMap.lookup entry.1 deltaMap.deltaCurrent ∧
      ¬ Equivalent policy entry.2.recordBefore entry.2.recordAfter :=
  h.tracks.recorded entry.1 entry ((find_mem h.tracks.indexSorted).mpr hentry)

variable {side : SortedMap (OrderedKey policy) value}

omit [LawfulPolicy policy] in
theorem recorded_of_differs {probe : OrderedKey policy} {held : value}
    (hside : side = deltaMap.deltaCheckpoint ∨ side = deltaMap.deltaCurrent)
    (hheld : SortedMap.find probe side = some (probe, held))
    (hdiffers : ¬ Equivalent policy (SortedMap.lookup probe deltaMap.deltaCheckpoint)
      (SortedMap.lookup probe deltaMap.deltaCurrent)) :
    ∃ change, (probe, change) ∈ SortedMap.toList deltaMap.deltaChanges := by
  cases hchange : SortedMap.find probe deltaMap.deltaChanges with
  | none => exact absurd (h.tracks.unchanged probe hchange) hdiffers
  | some entry =>
      obtain ⟨stored, -, hcurrent, hcheckpoint, hindex⟩ := h.tracks.oneKey probe
      have hprobe : probe = stored := by
        rcases hside with rfl | rfl
        · exact hcheckpoint _ hheld
        · exact hcurrent _ hheld
      have hentry := hindex entry hchange
      obtain ⟨recordedKey, change⟩ := entry
      cases hentry
      cases hprobe
      exact ⟨change, (findKey_mem hchange).1⟩

theorem held_of_recorded {probe : OrderedKey policy} {change : DeltaRecord value}
    (hside : side = deltaMap.deltaCheckpoint ∨ side = deltaMap.deltaCurrent)
    (hchange : (probe, change) ∈ SortedMap.toList deltaMap.deltaChanges)
    (hheld : (SortedMap.lookup probe side).isSome = true) :
    ∃ held, (probe, held) ∈ SortedMap.toList side ∧ SortedMap.lookup probe side = some held := by
  have hsorted : SortedMap.Sorted side := by
    rcases hside with rfl | rfl
    · exact h.tracks.checkpointSorted
    · exact h.tracks.currentSorted
  rw [SortedMap.lookup_eq hsorted] at hheld ⊢
  cases hfind : SortedMap.find probe side with
  | none =>
      rw [hfind] at hheld
      cases hheld
  | some entry =>
      obtain ⟨stored, -, hcurrent, hcheckpoint, hindex⟩ := h.tracks.oneKey probe
      have hprobe : probe = stored := hindex _ ((find_mem h.tracks.indexSorted).mpr hchange)
      have hentry : entry.1 = stored := by
        rcases hside with rfl | rfl
        · exact hcheckpoint _ hfind
        · exact hcurrent _ hfind
      obtain ⟨heldKey, held⟩ := entry
      cases hentry
      cases hprobe
      exact ⟨held, (findKey_mem hfind).1, rfl⟩

theorem checkpointDifferences_eq :
    checkpointDifferences deltaMap =
      ((SortedMap.toList deltaMap.deltaChanges).filter fun entry =>
        entry.2.recordBefore.isSome).map Prod.fst := by
  apply StrictlySorted.ext_mem (ascending_filtered h.tracks.checkpointSorted _)
    (ascending_filtered h.tracks.indexSorted _)
  intro probe
  rw [mem_filtered, mem_filtered]
  constructor
  · rintro ⟨held, hmem, hdiffers⟩
    have hfind := (find_mem h.tracks.checkpointSorted).mpr hmem
    have hlookup : SortedMap.lookup probe deltaMap.deltaCheckpoint = some held := by
      rw [SortedMap.lookup_eq h.tracks.checkpointSorted, hfind]
      rfl
    obtain ⟨change, hchange⟩ := recorded_of_differs h (.inl rfl) hfind (by
      rw [hlookup, Equivalent]
      simpa using hdiffers)
    refine ⟨change, hchange, ?_⟩
    rw [(record_endpoints h hchange).1.isSome_eq, hlookup]
    rfl
  · rintro ⟨change, hchange, hbefore⟩
    obtain ⟨hbaseline, hafter, hdiffers⟩ := record_endpoints h hchange
    rw [hbaseline.isSome_eq] at hbefore
    obtain ⟨held, hmem, hlookup⟩ := held_of_recorded h (.inl rfl) hchange hbefore
    refine ⟨held, hmem, ?_⟩
    rw [Bool.not_eq_true', ← Bool.not_eq_true]
    intro hequivalent
    rw [hlookup] at hbaseline
    rw [hafter] at hdiffers
    exact hdiffers (hbaseline.trans hequivalent)

theorem currentAdditions_eq :
    currentAdditions deltaMap =
      ((SortedMap.toList deltaMap.deltaChanges).filter fun entry =>
        !entry.2.recordBefore.isSome).map Prod.fst := by
  apply StrictlySorted.ext_mem (ascending_filtered h.tracks.currentSorted _)
    (ascending_filtered h.tracks.indexSorted _)
  intro probe
  rw [mem_filtered, mem_filtered]
  have hmember : SortedMap.member probe deltaMap.deltaCheckpoint =
      (SortedMap.lookup probe deltaMap.deltaCheckpoint).isSome := by
    rw [SortedMap.member_eq h.tracks.checkpointSorted,
      SortedMap.lookup_eq h.tracks.checkpointSorted, Option.isSome_map]
  constructor
  · rintro ⟨held, hmem, habsent⟩
    have hfind := (find_mem h.tracks.currentSorted).mpr hmem
    dsimp only at habsent
    rw [hmember] at habsent
    obtain ⟨change, hchange⟩ := recorded_of_differs h (.inr rfl) hfind (by
      intro hequivalent
      rw [hequivalent.isSome_eq, SortedMap.lookup_eq h.tracks.currentSorted, hfind] at habsent
      cases habsent)
    refine ⟨change, hchange, ?_⟩
    rw [(record_endpoints h hchange).1.isSome_eq]
    exact habsent
  · rintro ⟨change, hchange, hbefore⟩
    obtain ⟨hbaseline, hafter, hdiffers⟩ := record_endpoints h hchange
    dsimp only at hbefore hbaseline hafter hdiffers
    have hpresent : (SortedMap.lookup probe deltaMap.deltaCurrent).isSome = true := by
      rw [hafter] at hdiffers
      cases hlookup : SortedMap.lookup probe deltaMap.deltaCurrent with
      | some held => rfl
      | none =>
          rw [hlookup] at hdiffers
          cases hrecord : change.recordBefore with
          | none =>
              rw [hrecord] at hdiffers
              exact absurd (Equivalent.refl none) hdiffers
          | some held =>
              rw [hrecord] at hbefore
              cases hbefore
    obtain ⟨held, hmem, -⟩ := held_of_recorded h (.inr rfl) hchange hpresent
    refine ⟨held, hmem, ?_⟩
    dsimp only
    rw [hmember, ← hbaseline.isSome_eq]
    exact hbefore

theorem differences_length :
    (checkpointDifferences deltaMap).length + (currentAdditions deltaMap).length =
      SortedMap.count deltaMap.deltaChanges := by
  rw [checkpointDifferences_eq h, currentAdditions_eq h, length_map, length_map, SortedMap.count_eq]
  exact length_eq_length_filter_add _ |>.symm

theorem requireRecords_ok (message : String)
    (selects : OrderedKey policy × DeltaRecord value → Bool) :
    requireRecords deltaMap message
      (((SortedMap.toList deltaMap.deltaChanges).filter selects).map Prod.fst) = .ok () := by
  apply if_pos
  rw [all_eq_true]
  intro probe hprobe
  obtain ⟨change, hchange, -⟩ := mem_filtered.mp hprobe
  rw [SortedMap.member_eq h.tracks.indexSorted, (find_mem h.tracks.indexSorted).mpr hchange]
  rfl

theorem extensionallyClean_of_empty
    (hempty : SortedMap.toList deltaMap.deltaChanges = []) :
    extensionallyClean deltaMap = true := by
  rw [extensionallyClean, checkpointDifferences_eq h, hempty, h.clean hempty, beq_self_eq_true]
  rfl

end Differences

/-- How many records have the given presence at their two endpoints. -/
def countKind (before after : Bool) (entries : List (OrderedKey policy × DeltaRecord value)) :
    Nat :=
  entries.countP fun entry =>
    entry.2.recordBefore.isSome == before && entry.2.recordAfter.isSome == after

theorem classify_fold (h : Coherent deltaMap)
    {entries : List (OrderedKey policy × DeltaRecord value)}
    (hentries : ∀ entry ∈ entries, entry ∈ SortedMap.toList deltaMap.deltaChanges)
    (counts : Nat × Nat × Nat) :
    entries.foldlM (classify deltaMap) counts =
      .ok (counts.1 + countKind false true entries, counts.2.1 + countKind true false entries,
        counts.2.2 + countKind true true entries) := by
  induction entries generalizing counts with
  | nil => rfl
  | cons entry entries ih =>
      obtain ⟨hfirst, hrest⟩ := forall_mem_cons.mp hentries
      obtain ⟨hbaseline, hafter, hdiffers⟩ := record_endpoints h hfirst
      have hcurrent : Equivalent policy entry.2.recordAfter
          (SortedMap.lookup entry.1 deltaMap.deltaCurrent) := by
        rw [hafter]
        exact Equivalent.refl _
      have hpasses : ∀ {message : String} {condition : Bool}, condition = true →
          requireThat message condition = .ok () := fun hcondition => if_pos hcondition
      rw [foldlM_cons, classify.eq_def]
      dsimp only
      rw [hpasses (by simpa [Equivalent] using hdiffers), except_ok_bind, hpasses hbaseline,
        except_ok_bind, hpasses hcurrent, except_ok_bind]
      obtain ⟨stored, before, after⟩ := entry
      cases before with
      | none =>
          cases after with
          | none => exact absurd (Equivalent.refl none) hdiffers
          | some newValue =>
              rw [except_ok_bind, ih hrest]
              simp [countKind]
              omega
      | some oldValue =>
          cases after with
          | none =>
              rw [except_ok_bind, ih hrest]
              simp [countKind]
              omega
          | some newValue =>
              rw [except_ok_bind, ih hrest]
              simp [countKind]
              omega

theorem validateStructure_ok (h : Coherent deltaMap) :
    validateStructure deltaMap = .ok {
      validationCount := count deltaMap
      validationCheckpointCount := checkpointCount deltaMap
      validationChangeCount := changeCount deltaMap
      validationAddedCount := countKind false true (SortedMap.toList deltaMap.deltaChanges)
      validationRemovedCount := countKind true false (SortedMap.toList deltaMap.deltaChanges)
      validationUpdatedCount := countKind true true (SortedMap.toList deltaMap.deltaChanges) } := by
  unfold validateStructure
  dsimp only
  rw [checkAscending_ok (ascending_keys h.tracks.currentSorted), except_ok_bind,
    checkAscending_ok (ascending_keys h.tracks.checkpointSorted), except_ok_bind,
    checkAscending_ok (ascending_keys h.tracks.indexSorted), except_ok_bind,
    classify_fold h (fun _ hentry => hentry), except_ok_bind, differences_length h,
    checkpointDifferences_eq h, requireRecords_ok h, except_ok_bind, currentAdditions_eq h,
    requireRecords_ok h, except_ok_bind, if_neg (fun hne => hne rfl), if_neg, Nat.zero_add,
    Nat.zero_add, Nat.zero_add]
  · rfl
  · rw [Bool.and_eq_true, not_and, List.isEmpty_iff, Bool.not_eq_true', Bool.not_eq_false]
    exact extensionallyClean_of_empty h

end Durable7.FingerTree.PersistentDeltaMap
