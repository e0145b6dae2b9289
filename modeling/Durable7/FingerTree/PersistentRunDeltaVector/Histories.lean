import Durable7.FingerTree.PersistentRunDeltaVector.Edits

/-!
# Histories of run-delta vectors

Every run of edits from a list shows the lists of the sequential model, the maximal runs
of their differences, and the checkpoint's own cells where there is none.
-/

namespace Durable7.FingerTree.PersistentRunDeltaVector

open Foundation List Nat
open RrbVector (maxBound maximumHeight)

variable {α : Type}

/-- One edit, with the counter of the cells. -/
def applyEdit (identical : Cell α → Cell α → Bool) (cellCounter : Nat)
    (vector : PersistentRunDeltaVector α) :
    Edit α → Except RunDeltaError (Option (PersistentRunDeltaVector α) × Nat)
  | .setAt position value => setAt identical cellCounter position value vector
  | .resetAt position => (resetAt identical position vector).map fun result => (result, cellCounter)
  | .checkpoint => .ok (some (checkpoint vector), cellCounter)
  | .rollback => .ok (some (rollback vector), cellCounter)
  | .acceptDirtyRunAt rank => (acceptDirtyRunAt rank vector).map fun result => (result, cellCounter)
  | .revertDirtyRunAt rank => (revertDirtyRunAt rank vector).map fun result => (result, cellCounter)
  | .acceptDirtyRunContaining position =>
      (acceptDirtyRunContaining position vector).map fun result => (result, cellCounter)
  | .revertDirtyRunContaining position =>
      (revertDirtyRunContaining position vector).map fun result => (result, cellCounter)

/--
A run of edits.  Before each of them other vectors may have drawn cells from the
counter; an edit without a result leaves the vector.
-/
def run (identical : Cell α → Cell α → Bool) (cellCounter : Nat)
    (vector : PersistentRunDeltaVector α) :
    List (Nat × Edit α) → Except RunDeltaError (PersistentRunDeltaVector α × Nat)
  | [] => .ok (vector, cellCounter)
  | (drawn, edit) :: edits => do
      let (result, next) ← applyEdit identical (cellCounter + drawn) vector edit
      run identical next (result.getD vector) edits

def runFromList (identical : Cell α → Cell α → Bool) (cellCounter : Nat)
    (policy : EqualityPolicy α) (values : List α) (edits : List (Nat × Edit α)) :
    Except RunDeltaError (PersistentRunDeltaVector α × Nat) := do
  let (vector, next) ← fromListWith cellCounter policy values
  run identical next vector edits

def ListModel.run (policy : EqualityPolicy α) (model : ListModel α)
    (edits : List (Nat × Edit α)) : ListModel α :=
  edits.foldl (fun state edit => (ListModel.applyEdit policy state edit.2).getD state) model

section Lawful

variable {policy : EqualityPolicy α} [LawfulEquality policy] {cellCounter room : Nat}
  {vector : PersistentRunDeltaVector α} {model : ListModel α}

omit [LawfulEquality policy] in
theorem Refines.mono (h : Refines policy cellCounter room vector model) {next less : Nat}
    (hnext : cellCounter ≤ next) (hless : less ≤ room) : Refines policy next less vector model := by
  obtain ⟨current, checkpoint, hcoherent, hmodel⟩ := h
  exact ⟨current, checkpoint, hcoherent.mono hnext hless, hmodel⟩

omit [LawfulEquality policy] in
theorem Moves.draws {outcome : Except RunDeltaError (Option (PersistentRunDeltaVector α))}
    {expected : Option (ListModel α)} (h : Moves policy cellCounter room outcome expected) :
    Draws policy cellCounter room (outcome.map fun result => (result, cellCounter)) expected := by
  obtain ⟨result, rfl, hrelated⟩ := h
  exact ⟨result, cellCounter, rfl, le_refl _, hrelated⟩

section

variable {identical : Cell α → Cell α → Bool}
  (hidentical : ∀ left right, identical left right = true → left = right)
include hidentical

theorem applyEdit_draws (h : Refines policy cellCounter (room + 2) vector model) (edit : Edit α) :
    Draws policy cellCounter room (applyEdit identical cellCounter vector edit)
      (ListModel.applyEdit policy model edit) := by
  have hless : Refines policy cellCounter room vector model := h.mono (le_refl _) (le_add_right _ _)
  cases edit with
  | setAt position value => exact setAt_draws hidentical hless position value
  | resetAt position => exact (resetAt_moves hidentical hless position).draws
  | checkpoint =>
      obtain ⟨current, base, hcoherent, rfl⟩ := hless
      exact ⟨_, cellCounter, rfl, le_refl _, .some (checkpoint_coherent hcoherent).refines⟩
  | rollback =>
      obtain ⟨current, base, hcoherent, rfl⟩ := hless
      exact ⟨_, cellCounter, rfl, le_refl _, .some (rollback_coherent hcoherent).refines⟩
  | acceptDirtyRunAt rank => exact (atRank_moves h acceptRun_edit rank).draws
  | revertDirtyRunAt rank => exact (atRank_moves h revertRun_edit rank).draws
  | acceptDirtyRunContaining position => exact (atContaining_moves h acceptRun_edit position).draws
  | revertDirtyRunContaining position => exact (atContaining_moves h revertRun_edit position).draws

theorem run_refines (edits : List (Nat × Edit α))
    (h : Refines policy cellCounter (2 * edits.length + room) vector model) :
    ∃ final next, run identical cellCounter vector edits = .ok (final, next) ∧
      Refines policy next room final (ListModel.run policy model edits) := by
  induction edits generalizing vector model cellCounter with
  | nil => exact ⟨vector, cellCounter, rfl, h.mono (le_refl _) (le_add_left _ _)⟩
  | cons edit edits ih =>
      obtain ⟨drawn, edit⟩ := edit
      have hroom :
          Refines policy (cellCounter + drawn) (2 * edits.length + room + 2) vector model :=
        h.mono (le_add_right _ _) (by rw [length_cons]; omega)
      obtain ⟨result, next, hok, hnext, hrelated⟩ := applyEdit_draws hidentical hroom edit
      rw [run, hok, except_ok_bind, ListModel.run, foldl_cons]
      apply ih
      dsimp only
      cases hmodel : ListModel.applyEdit policy model edit with
      | none =>
          rw [hmodel] at hrelated
          cases hrelated
          exact hroom.mono hnext (le_add_right _ _)
      | some state =>
          rw [hmodel] at hrelated
          cases hrelated with
          | some hrefines => exact hrefines

end

theorem fromListWith_refines (cellCounter : Nat) {values : List α}
    (hvalues : values.length ≤ maxBound) :
    ∃ vector next, fromListWith cellCounter policy values = .ok (vector, next) ∧
      Refines policy next (maxBound - maximumHeight) vector ⟨values, values⟩ := by
  obtain ⟨hcells, -, -, hissued⟩ := newCells_spec values cellCounter
  generalize hdrawn : newCells cellCounter values = drawn at hcells hissued
  have hlength : drawn.1.length ≤ maxBound := by
    rw [← hcells, length_map] at hvalues
    exact hvalues
  obtain ⟨root, hroot, hshown, hheight⟩ := RrbVector.fromList_spec hlength
  have hmaximum : maximumHeight ≤ maxBound := by decide
  unfold fromListWith
  rw [hdrawn]
  dsimp only
  rw [hroot, onVector_ok, except_bind_ok]
  refine ⟨_, _, rfl, drawn.1, drawn.1, ?_, ?_⟩
  · exact cleanVector_coherent hlength hshown (by omega) hissued
  · rw [modelOf, hcells]

/-! ## Observations -/

/-- What a vector shows of the two lists. -/
structure Observes (policy : EqualityPolicy α) (vector : PersistentRunDeltaVector α)
    (model : ListModel α) : Prop where
  contents : toList vector = model.current
  reads : ∀ position, index position vector = .ok (elementAt position model.current)
  checkpointReads : ∀ position,
    checkpointValue position vector = .ok (elementAt position model.checkpoint)
  dirty : ∀ position, isDirty position vector = elementAt position (ListModel.flags policy model)
  runs : dirtyRuns vector = ListModel.runs policy model
  maximal : ∀ run, run ∈ dirtyRuns vector ↔
    MaximalRun (fun position => elementAt position (ListModel.flags policy model) = some true)
      run.dirtyRunStart (dirtyRunEndExclusive run)
  total : dirtyCount vector = ((dirtyRuns vector).map DirtyRun.dirtyRunLength).sum
  shared : ∀ position, elementAt position (ListModel.flags policy model) ≠ some true →
    RrbVector.index position vector.vectorCurrent = RrbVector.index position vector.vectorCheckpoint
  accepted : ∀ run ∈ dirtyRuns vector, ∃ next, acceptRun vector run = .ok next ∧
    toList next = toList vector ∧ ∀ position, checkpointValue position next =
      if dirtyRunContains position run then index position vector
      else checkpointValue position vector
  reverted : ∀ run ∈ dirtyRuns vector, ∃ next, revertRun vector run = .ok next ∧
    (∀ position, checkpointValue position next = checkpointValue position vector) ∧
    ∀ position, index position next =
      if dirtyRunContains position run then checkpointValue position vector
      else index position vector

omit [LawfulEquality policy] in
theorem index_eq {current checkpoint : List (Cell α)}
    (h : Coherent policy cellCounter room vector current checkpoint) (position : Int) :
    index position vector = .ok ((elementAt position current).map Cell.cellValue) := by
  rw [index, h.index_current, except_ok_bind]

omit [LawfulEquality policy] in
theorem checkpointValue_eq {current checkpoint : List (Cell α)}
    (h : Coherent policy cellCounter room vector current checkpoint) (position : Int) :
    checkpointValue position vector = .ok ((elementAt position checkpoint).map Cell.cellValue) := by
  rw [checkpointValue, h.index_checkpoint, except_ok_bind]

omit [LawfulEquality policy] in
theorem isDirty_eq {current checkpoint : List (Cell α)}
    (h : Coherent policy cellCounter room vector current checkpoint) (position : Int) :
    isDirty position vector =
      elementAt position (ListModel.flags policy (modelOf current checkpoint)) := by
  have hlength : (ListModel.flags policy (modelOf current checkpoint)).length = current.length := by
    have := h.tracks.length_eq
    simp only [ListModel.flags, modelOf, length_zipWith, length_map]
    omega
  have hflag := @flag_iff α policy current checkpoint position
  unfold isDirty
  by_cases hout : outside position vector
  · rw [if_pos hout]
    cases hflagged : elementAt position (ListModel.flags policy (modelOf current checkpoint)) with
    | none => rfl
    | some flag =>
        have := elementAt_inside hflagged
        rw [outside, h.count_eq] at hout
        omega
  · rw [if_neg hout]
    rw [outside, h.count_eq] at hout
    obtain ⟨flag, hflagged⟩ := @elementAt_isSome _ position
      (ListModel.flags policy (modelOf current checkpoint)) (by omega) (by omega)
    rw [hflagged] at hflag ⊢
    by_cases hdiffers : DiffersAt policy current checkpoint position
    · obtain ⟨start, stop, hfound, -⟩ := findDirtyRun_dirty h.tracks.indexed rfl hdiffers
      rw [hfound, hflag.mpr hdiffers]
      rfl
    · rw [findDirtyRun_clean h.tracks.indexed rfl hdiffers]
      cases flag with
      | true => exact absurd (hflag.mp rfl) hdiffers
      | false => rfl

omit [LawfulEquality policy] in
theorem contains_iff (position start stop : Int) :
    dirtyRunContains position (entryToRun (start, stop)) = true ↔
      start ≤ position ∧ position < start + (stop - start) := by
  simp [dirtyRunContains, entryToRun, dirtyRunEndExclusive]

theorem observes_of_refines (h : Refines policy cellCounter 2 vector model) :
    Observes policy vector model := by
  obtain ⟨current, checkpoint, h, rfl⟩ := h
  have hindexed := h.tracks.indexed
  have hentries : ∀ run, run ∈ dirtyRuns vector ↔
      ∃ start stop, ends vector.vectorRuns start = some stop ∧ entryToRun (start, stop) = run := by
    intro run
    rw [dirtyRuns, mem_map]
    constructor
    · rintro ⟨⟨start, stop⟩, hmem, rfl⟩
      exact ⟨start, stop, (ends_eq_some hindexed.sorted).mpr hmem, rfl⟩
    · rintro ⟨start, stop, hends, rfl⟩
      exact ⟨(start, stop), (ends_eq_some hindexed.sorted).mp hends, rfl⟩
  refine {
    contents := by rw [toList, h.currentShown.toList_eq, modelOf]
    reads := fun position => by rw [index_eq h, modelOf, elementAt_map]
    checkpointReads := fun position => by rw [checkpointValue_eq h, modelOf, elementAt_map]
    dirty := isDirty_eq h
    runs := h.dirtyRuns_eq
    maximal := fun run => ?_
    total := ?_
    shared := fun position hclean => ?_
    accepted := fun run hrun => ?_
    reverted := fun run hrun => ?_ }
  · simp only [flag_iff]
    rw [hentries]
    constructor
    · rintro ⟨start, stop, hends, rfl⟩
      have hrun := hindexed.encodes.maximalRun hends
      rw [show dirtyRunEndExclusive (entryToRun (start, stop)) = stop by
        simp [dirtyRunEndExclusive, entryToRun]]
      exact hrun
    · intro hrun
      refine ⟨run.dirtyRunStart, dirtyRunEndExclusive run, ?_, entryToRun_runEntry run⟩
      exact hindexed.encodes.iff_maximalRun.mpr hrun
  · rw [dirtyCount, h.counted, totalLength, dirtyRuns, map_map]
    rfl
  · rw [ne_eq, flag_iff] at hclean
    rw [RrbVector.index_spec h.currentShown, RrbVector.index_spec h.checkpointShown,
      h.tracks.shared position hclean]
  · obtain ⟨start, stop, hends, rfl⟩ := (hentries run).mp hrun
    obtain ⟨hlow, hnonempty, hhigh⟩ := h.tracks.run_inside hends
    have hlength := h.tracks.length_eq
    obtain ⟨next, hok, hnext⟩ := @acceptRun_spec _ _ _ 0 _ _ _ _ h _ _ hends
    refine ⟨next, hok, ?_, fun position => ?_⟩
    · rw [toList, toList, h.currentShown.toList_eq, hnext.currentShown.toList_eq]
    · rw [checkpointValue_eq hnext, index_eq h, checkpointValue_eq h,
        elementAt_splice hlow (by omega) (by omega) hlength]
      by_cases hin : start ≤ position ∧ position < start + (stop - start)
      · rw [if_pos hin, if_pos ((contains_iff position start stop).mpr hin)]
      · rw [if_neg hin, if_neg (mt (contains_iff position start stop).mp hin)]
  · obtain ⟨start, stop, hends, rfl⟩ := (hentries run).mp hrun
    obtain ⟨hlow, hnonempty, hhigh⟩ := h.tracks.run_inside hends
    have hlength := h.tracks.length_eq
    obtain ⟨next, hok, hnext⟩ := @revertRun_spec _ _ _ 0 _ _ _ _ h _ _ hends
    refine ⟨next, hok, fun position => ?_, fun position => ?_⟩
    · rw [checkpointValue_eq hnext, checkpointValue_eq h]
    · rw [index_eq hnext, checkpointValue_eq h, index_eq h,
        elementAt_splice hlow (by omega) (by omega) hlength.symm]
      by_cases hin : start ≤ position ∧ position < start + (stop - start)
      · rw [if_pos hin, if_pos ((contains_iff position start stop).mpr hin)]
      · rw [if_neg hin, if_neg (mt (contains_iff position start stop).mp hin)]

end Lawful

/--
Every run of edits from a list, as long as the counts and the heights it can reach are
numbers of the source's `Int`.
-/
theorem runFromList_observes (policy : EqualityPolicy α) [LawfulEquality policy]
    (identical : Cell α → Cell α → Bool)
    (hidentical : ∀ left right, identical left right = true → left = right)
    (cellCounter : Nat) (values : List α) (edits : List (Nat × Edit α))
    (hvalues : values.length ≤ maxBound)
    (hedits : 2 * edits.length + 2 + maximumHeight ≤ maxBound) :
    ∃ final next, runFromList identical cellCounter policy values edits = .ok (final, next) ∧
      Observes policy final (ListModel.run policy ⟨values, values⟩ edits) := by
  obtain ⟨vector, counter, hstart, hrefines⟩ :=
    @fromListWith_refines _ policy _ cellCounter _ hvalues
  obtain ⟨final, next, hrun, hfinal⟩ := run_refines hidentical edits
    (hrefines.mono (le_refl _) (show 2 * edits.length + 2 ≤ _ by omega))
  refine ⟨final, next, ?_, observes_of_refines hfinal⟩
  rw [runFromList, hstart, except_ok_bind]
  exact hrun

/-- Values that count as equal within a block of ten. -/
def tensEquality : EqualityPolicy Nat where
  policyEquals left right := left / 10 == right / 10

instance : LawfulEquality tensEquality where
  refl _ := beq_self_eq_true _
  symm _ _ h := BEq.symm h

theorem runFromList_observes_tens :
    ∃ final next, runFromList (fun _ _ => false) 0 tensEquality [10, 20, 30, 40]
        [(0, .setAt 0 50), (2, .setAt 2 60), (0, .setAt 1 70), (1, .setAt 1 25),
          (0, .revertDirtyRunAt 1)] = .ok (final, next) ∧
      Observes tensEquality final (ListModel.run tensEquality ⟨[10, 20, 30, 40], [10, 20, 30, 40]⟩
        [(0, .setAt 0 50), (2, .setAt 2 60), (0, .setAt 1 70), (1, .setAt 1 25),
          (0, .revertDirtyRunAt 1)]) :=
  runFromList_observes tensEquality (fun _ _ => false) (fun _ _ h => by cases h) 0
    [10, 20, 30, 40] _ (by decide) (by decide)

end Durable7.FingerTree.PersistentRunDeltaVector
