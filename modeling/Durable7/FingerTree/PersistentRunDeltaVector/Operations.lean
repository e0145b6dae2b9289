import Durable7.FingerTree.RrbVector.Validation
import Durable7.FingerTree.SortedMap

/-!
# Run-delta vectors

Two vectors of cells, the current one and the checkpoint, beside an index of the maximal
runs of positions on which their values differ.  A cell is known by its token, and a
global counter gives every new cell the next one.
-/

namespace Durable7.FingerTree

open Foundation SortedMap

structure EqualityPolicy (α : Type) where
  policyEquals : α → α → Bool

structure DirtyRun where
  dirtyRunStart : Int
  dirtyRunLength : Int
  deriving DecidableEq

def dirtyRunEndExclusive (run : DirtyRun) : Int := run.dirtyRunStart + run.dirtyRunLength

def dirtyRunContains (position : Int) (run : DirtyRun) : Bool :=
  position ≥ run.dirtyRunStart && position < dirtyRunEndExclusive run

structure Cell (α : Type) where
  token : Nat
  cellValue : α

instance {α : Type} : BEq (Cell α) where
  beq left right := left.token == right.token

structure PersistentRunDeltaVector (α : Type) where
  vectorEquality : EqualityPolicy α
  vectorCurrent : RrbVector (Cell α)
  vectorCheckpoint : RrbVector (Cell α)
  vectorRuns : SortedMap Int Int
  vectorDirtyCount : Int

inductive RunDeltaError where
  | vector (problem : RrbVector.RrbError)
  | positionRejected
  | clearedAbsent
  | lengthDisagreement
  | boundaryRejected
  deriving DecidableEq

def RunDeltaError.message : RunDeltaError → String
  | .vector problem => problem.message
  | .positionRejected =>
      "Durable7.FingerTree.PersistentRunDeltaVector: internal validated position rejected"
  | .clearedAbsent =>
      "Durable7.FingerTree.PersistentRunDeltaVector: cleared position absent from the run index"
  | .lengthDisagreement =>
      "Durable7.FingerTree.PersistentRunDeltaVector: internal root length disagreement"
  | .boundaryRejected =>
      "Durable7.FingerTree.PersistentRunDeltaVector: internal run boundary rejected"

namespace PersistentRunDeltaVector

variable {α : Type}

def newCell (cellCounter : Nat) (value : α) : Cell α × Nat :=
  (⟨cellCounter, value⟩, cellCounter + 1)

def newCells (cellCounter : Nat) : List α → List (Cell α) × Nat
  | [] => ([], cellCounter)
  | value :: values =>
      let (cell, next) := newCell cellCounter value
      let (cells, final) := newCells next values
      (cell :: cells, final)

def onVector {β : Type} (result : Except RrbVector.RrbError β) : Except RunDeltaError β :=
  result.mapError .vector

def expectCell (found : Option (Cell α)) : Except RunDeltaError (Cell α) :=
  presentOr found .lengthDisagreement

def expectSplit {β : Type} (found : Option β) : Except RunDeltaError β :=
  presentOr found .boundaryRejected

def entryToRun (entry : Int × Int) : DirtyRun := ⟨entry.1, entry.2 - entry.1⟩

def findDirtyRun (position : Int) (vector : PersistentRunDeltaVector α) : Option DirtyRun :=
  match floorEntry position vector.vectorRuns with
  | some entry => if entry.2 > position then some (entryToRun entry) else none
  | none => none

def leftStart (position : Int) (runs : SortedMap Int Int) : Option Int :=
  match floorEntry position runs with
  | some (start, endExclusive) => if endExclusive = position then some start else none
  | none => none

def rightEntry (position : Int) (runs : SortedMap Int Int) : Option (Int × Int) :=
  match ceilingEntry position runs with
  | some (start, endExclusive) => if start = position + 1 then some (start, endExclusive) else none
  | none => none

def addDirtyPosition (position : Int) (runs : SortedMap Int Int) : SortedMap Int Int :=
  match leftStart position runs, rightEntry position runs with
  | some start, some (rightStart, rightEnd) => insert start rightEnd (delete rightStart runs)
  | some start, none => insert start (position + 1) runs
  | none, some (rightStart, rightEnd) => insert position rightEnd (delete rightStart runs)
  | none, none => insert position (position + 1) runs

def removeDirtyPosition (position : Int) (runs : SortedMap Int Int) :
    Except RunDeltaError (SortedMap Int Int) :=
  match floorEntry position runs with
  | some (start, endExclusive) =>
      if endExclusive > position then
        match start == position, endExclusive == position + 1 with
        | true, true => .ok (delete start runs)
        | true, false => .ok (insert (position + 1) endExclusive (delete start runs))
        | false, true => .ok (insert start position runs)
        | false, false => .ok (insert (position + 1) endExclusive (insert start position runs))
      else .error .clearedAbsent
  | none => .error .clearedAbsent

/-! ## Construction and queries -/

def cleanVector (policy : EqualityPolicy α) (root : RrbVector (Cell α)) :
    PersistentRunDeltaVector α :=
  ⟨policy, root, root, .empty, 0⟩

def fromListWith (cellCounter : Nat) (policy : EqualityPolicy α) (values : List α) :
    Except RunDeltaError (PersistentRunDeltaVector α × Nat) :=
  let (cells, next) := newCells cellCounter values
  (onVector (RrbVector.fromList cells)).bind fun root => .ok (cleanVector policy root, next)

def toList (vector : PersistentRunDeltaVector α) : List α :=
  vector.vectorCurrent.toList.map Cell.cellValue

def count (vector : PersistentRunDeltaVector α) : Nat := vector.vectorCurrent.count

def hasChanges (vector : PersistentRunDeltaVector α) : Bool := vector.vectorDirtyCount != 0

def dirtyCount (vector : PersistentRunDeltaVector α) : Int := vector.vectorDirtyCount

def dirtyRunCount (vector : PersistentRunDeltaVector α) : Nat := SortedMap.count vector.vectorRuns

def index (position : Int) (vector : PersistentRunDeltaVector α) :
    Except RunDeltaError (Option α) := do
  let found ← onVector (RrbVector.index position vector.vectorCurrent)
  .ok (found.map Cell.cellValue)

def checkpointValue (position : Int) (vector : PersistentRunDeltaVector α) :
    Except RunDeltaError (Option α) := do
  let found ← onVector (RrbVector.index position vector.vectorCheckpoint)
  .ok (found.map Cell.cellValue)

def outside (position : Int) (vector : PersistentRunDeltaVector α) : Prop :=
  position < 0 ∨ position ≥ count vector

instance (position : Int) (vector : PersistentRunDeltaVector α) :
    Decidable (outside position vector) :=
  inferInstanceAs (Decidable (_ ∨ _))

def isDirty (position : Int) (vector : PersistentRunDeltaVector α) : Option Bool :=
  if outside position vector then none else some (findDirtyRun position vector).isSome

def dirtyRunAt (rank : Int) (vector : PersistentRunDeltaVector α) : Option DirtyRun :=
  (SortedMap.index rank vector.vectorRuns).map entryToRun

def dirtyRuns (vector : PersistentRunDeltaVector α) : List DirtyRun :=
  (SortedMap.toList vector.vectorRuns).map entryToRun

/-! ## Editing -/

def replaceCell (identical : Cell α → Cell α → Bool) (position : Int) (replacement : Cell α)
    (remainsDirty : Bool) (vector : PersistentRunDeltaVector α) :
    Except RunDeltaError (PersistentRunDeltaVector α) :=
  let wasDirty := (findDirtyRun position vector).isSome
  let nextRuns :=
    if !wasDirty && remainsDirty then .ok (addDirtyPosition position vector.vectorRuns)
    else if wasDirty && !remainsDirty then removeDirtyPosition position vector.vectorRuns
    else .ok vector.vectorRuns
  let nextDirtyCount :=
    if !wasDirty && remainsDirty then vector.vectorDirtyCount + 1
    else if wasDirty && !remainsDirty then vector.vectorDirtyCount - 1
    else vector.vectorDirtyCount
  nextRuns.bind fun runs =>
    let nextCurrent :=
      if null runs then .ok vector.vectorCheckpoint
      else do
        let updated ← onVector (RrbVector.setAt identical position replacement vector.vectorCurrent)
        presentOr updated .positionRejected
    nextCurrent.bind fun current =>
      .ok ⟨vector.vectorEquality, current, vector.vectorCheckpoint, runs, nextDirtyCount⟩

def setAt (identical : Cell α → Cell α → Bool) (cellCounter : Nat) (position : Int) (value : α)
    (vector : PersistentRunDeltaVector α) :
    Except RunDeltaError (Option (PersistentRunDeltaVector α) × Nat) :=
  let policy := vector.vectorEquality
  (onVector (RrbVector.index position vector.vectorCurrent)).bind fun
    | none => .ok (none, cellCounter)
    | some currentCell =>
        if policy.policyEquals currentCell.cellValue value then .ok (some vector, cellCounter)
        else
          (onVector (RrbVector.index position vector.vectorCheckpoint) >>= expectCell).bind fun
            checkpointCell =>
              let remainsDirty := !policy.policyEquals checkpointCell.cellValue value
              let (replacement, next) :=
                if remainsDirty then newCell cellCounter value else (checkpointCell, cellCounter)
              (replaceCell identical position replacement remainsDirty vector).bind fun replaced =>
                .ok (some replaced, next)

def resetAt (identical : Cell α → Cell α → Bool) (position : Int)
    (vector : PersistentRunDeltaVector α) :
    Except RunDeltaError (Option (PersistentRunDeltaVector α)) :=
  (onVector (RrbVector.index position vector.vectorCheckpoint)).bind fun
    | none => .ok none
    | some checkpointCell =>
        (onVector (RrbVector.index position vector.vectorCurrent) >>= expectCell).bind fun
          currentCell =>
            if vector.vectorEquality.policyEquals currentCell.cellValue
                checkpointCell.cellValue then
              .ok (some vector)
            else some <$> replaceCell identical position checkpointCell false vector

def checkpoint (vector : PersistentRunDeltaVector α) : PersistentRunDeltaVector α :=
  if !hasChanges vector then vector else cleanVector vector.vectorEquality vector.vectorCurrent

def rollback (vector : PersistentRunDeltaVector α) : PersistentRunDeltaVector α :=
  if !hasChanges vector then vector else cleanVector vector.vectorEquality vector.vectorCheckpoint

def replaceRange (destination source : RrbVector (Cell α)) (run : DirtyRun) :
    Except RunDeltaError (RrbVector (Cell α)) :=
  let start := run.dirtyRunStart
  let amount := run.dirtyRunLength
  if start = 0 ∧ amount = destination.count then .ok source
  else do
    let (left, destinationTail) ← onVector (destination.splitAt start) >>= expectSplit
    let (_, right) ← onVector (destinationTail.splitAt amount) >>= expectSplit
    let (_, sourceTail) ← onVector (source.splitAt start) >>= expectSplit
    let (middle, _) ← onVector (sourceTail.splitAt amount) >>= expectSplit
    let front ← onVector (left.append middle)
    onVector (front.append right)

def acceptRun (vector : PersistentRunDeltaVector α) (run : DirtyRun) :
    Except RunDeltaError (PersistentRunDeltaVector α) :=
  if dirtyRunCount vector = 1 then .ok (checkpoint vector)
  else
    (replaceRange vector.vectorCheckpoint vector.vectorCurrent run).bind fun accepted =>
      .ok ⟨vector.vectorEquality, vector.vectorCurrent, accepted,
      delete run.dirtyRunStart vector.vectorRuns,
      vector.vectorDirtyCount - run.dirtyRunLength⟩

def revertRun (vector : PersistentRunDeltaVector α) (run : DirtyRun) :
    Except RunDeltaError (PersistentRunDeltaVector α) :=
  if dirtyRunCount vector = 1 then .ok (rollback vector)
  else
    (replaceRange vector.vectorCurrent vector.vectorCheckpoint run).bind fun reverted =>
      .ok ⟨vector.vectorEquality, reverted, vector.vectorCheckpoint,
      delete run.dirtyRunStart vector.vectorRuns,
      vector.vectorDirtyCount - run.dirtyRunLength⟩

def atRank (edit : PersistentRunDeltaVector α → DirtyRun →
      Except RunDeltaError (PersistentRunDeltaVector α))
    (rank : Int) (vector : PersistentRunDeltaVector α) :
    Except RunDeltaError (Option (PersistentRunDeltaVector α)) :=
  match dirtyRunAt rank vector with
  | none => .ok none
  | some run => some <$> edit vector run

def atContaining (edit : PersistentRunDeltaVector α → DirtyRun →
      Except RunDeltaError (PersistentRunDeltaVector α))
    (position : Int) (vector : PersistentRunDeltaVector α) :
    Except RunDeltaError (Option (PersistentRunDeltaVector α)) :=
  if outside position vector then .ok none
  else
    match findDirtyRun position vector with
    | none => .ok (some vector)
    | some run => some <$> edit vector run

def acceptDirtyRunAt (rank : Int) (vector : PersistentRunDeltaVector α) :
    Except RunDeltaError (Option (PersistentRunDeltaVector α)) :=
  atRank acceptRun rank vector

def revertDirtyRunAt (rank : Int) (vector : PersistentRunDeltaVector α) :
    Except RunDeltaError (Option (PersistentRunDeltaVector α)) :=
  atRank revertRun rank vector

def acceptDirtyRunContaining (position : Int) (vector : PersistentRunDeltaVector α) :
    Except RunDeltaError (Option (PersistentRunDeltaVector α)) :=
  atContaining acceptRun position vector

def revertDirtyRunContaining (position : Int) (vector : PersistentRunDeltaVector α) :
    Except RunDeltaError (Option (PersistentRunDeltaVector α)) :=
  atContaining revertRun position vector

def maximalRunsFrom (position : Int) : List Bool → List DirtyRun
  | [] => []
  | false :: rest => maximalRunsFrom (position + 1) rest
  | true :: rest =>
      let amount := (rest.takeWhile id).length + 1
      ⟨position, amount⟩ :: maximalRunsFrom (position + amount) (rest.drop (amount - 1))
  termination_by flags => flags.length
  decreasing_by
    · exact Nat.lt_succ_self _
    · rw [List.length_drop, List.length_cons]
      omega

def maximalRuns (flags : List Bool) : List DirtyRun := maximalRunsFrom 0 flags

end PersistentRunDeltaVector

end Durable7.FingerTree
