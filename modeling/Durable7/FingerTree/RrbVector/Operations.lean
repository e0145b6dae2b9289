import Durable7.FingerTree.RrbVector.Node

/-!
# Operations on vectors and cursors

A position is an `Int`, as the caller gives it.  An operation fails with an error of
the nodes below it, and otherwise gives `none` where the source gives `Nothing`.
-/

namespace Durable7.FingerTree.RrbVector

open Foundation

variable {α : Type}

def empty : RrbVector α := ⟨none⟩

def singleton (value : α) : Except RrbError (RrbVector α) := do
  let leaf ← leafFromList [value]
  .ok ⟨some leaf⟩

def fromList (values : List α) : Except RrbError (RrbVector α) := do
  let leaves ← (chunksOf branchFactor values).mapM leafFromList
  if leaves.isEmpty then .ok empty
  else
    let root ← buildLevel leaves
    .ok ⟨some root⟩

def toList (vector : RrbVector α) : List α := vector.root.elim [] nodeToList

def count (vector : RrbVector α) : Nat := vector.root.elim 0 nodeCount

def null (vector : RrbVector α) : Bool := vector.root.isNone

def height (vector : RrbVector α) : Nat := vector.root.elim 0 nodeHeight

def index (position : Int) (vector : RrbVector α) : Except RrbError (Option α) :=
  if position < 0 then .ok none
  else
    match vector.root with
    | none => .ok none
    | some node =>
        if position ≥ nodeCount node then .ok none else some <$> indexNode position.toNat node

def setAt [BEq α] (identical : α → α → Bool) (position : Int) (value : α) (vector : RrbVector α) :
    Except RrbError (Option (RrbVector α)) :=
  if position < 0 then .ok none
  else
    match vector.root with
    | none => .ok none
    | some node =>
        if position ≥ nodeCount node then .ok none
        else do
          let (updated, changed) ← setNode identical position.toNat value node
          .ok (some (if changed then ⟨some updated⟩ else vector))

def append (left right : RrbVector α) : Except RrbError (RrbVector α) :=
  match left.root, right.root with
  | none, _ => .ok right
  | _, none => .ok left
  | some leftRoot, some rightRoot => do
      let _ ← checkedAdd (nodeCount leftRoot) (nodeCount rightRoot)
      let roots ← concatNodes leftRoot rightRoot
      fromRoots roots

def cons (value : α) (vector : RrbVector α) : Except RrbError (RrbVector α) := do
  let first ← singleton value
  append first vector

def snoc (vector : RrbVector α) (value : α) : Except RrbError (RrbVector α) := do
  let last ← singleton value
  append vector last

def splitAt (position : Int) (vector : RrbVector α) :
    Except RrbError (Option (RrbVector α × RrbVector α)) :=
  if position < 0 ∨ position > vector.count then .ok none
  else if position = 0 then .ok (some (empty, vector))
  else if position = vector.count then .ok (some (vector, empty))
  else
    match vector.root with
    | none => .ok none
    | some node => do
        let (left, right) ← splitNode position.toNat node
        .ok (some (fromRoot left, fromRoot right))

def insertListAt (position : Int) (values : List α) (vector : RrbVector α) :
    Except RrbError (Option (RrbVector α)) := do
  match ← splitAt position vector with
  | none => .ok none
  | some (left, right) =>
      let middle ← fromList values
      if middle.null then .ok (some vector)
      else
        let front ← append left middle
        some <$> append front right

def removeRange (position amount : Int) (vector : RrbVector α) :
    Except RrbError (Option (RrbVector α)) :=
  if position < 0 ∨ amount < 0 then .ok none
  else if amount > vector.count - position then .ok none
  else if amount = 0 then .ok (some vector)
  else do
    match ← splitAt position vector with
    | none => .ok none
    | some (left, tailVector) =>
        match ← splitAt amount tailVector with
        | none => .ok none
        | some (_, right) => some <$> append left right

def unsnoc (vector : RrbVector α) : Except RrbError (Option (RrbVector α × α)) :=
  if vector.null then .ok none
  else do
    match ← index (vector.count - 1) vector with
    | none => .ok none
    | some value =>
        match ← removeRange (vector.count - 1) 1 vector with
        | none => .ok none
        | some remaining => .ok (some (remaining, value))

/-! ## Cursors -/

structure Cursor (α : Type) where
  cursorSnapshot : RrbVector α
  cursorPosition : Nat

def cursor (vector : RrbVector α) : Cursor α := ⟨vector, 0⟩

def cursorAt (position : Int) (vector : RrbVector α) : Option (Cursor α) :=
  if position < 0 ∨ position > vector.count then none else some ⟨vector, position.toNat⟩

def cursorCount (current : Cursor α) : Nat := current.cursorSnapshot.count

def cursorIsAtStart (current : Cursor α) : Bool := current.cursorPosition == 0

def cursorIsAtEnd (current : Cursor α) : Bool := current.cursorPosition == cursorCount current

def cursorPeekPrevious (current : Cursor α) : Except RrbError (Option α) :=
  index (current.cursorPosition - 1) current.cursorSnapshot

def cursorPeekNext (current : Cursor α) : Except RrbError (Option α) :=
  index current.cursorPosition current.cursorSnapshot

def cursorMovePrevious (current : Cursor α) : Option (Cursor α) :=
  cursorAt (current.cursorPosition - 1) current.cursorSnapshot

def cursorMoveNext (current : Cursor α) : Option (Cursor α) :=
  if current.cursorPosition = current.cursorSnapshot.count then none
  else cursorAt (current.cursorPosition + 1) current.cursorSnapshot

def cursorSeek (position : Int) (current : Cursor α) : Option (Cursor α) :=
  cursorAt position current.cursorSnapshot

def expectCursorEdit {β : Type} (operation : String) : Option β → Except RrbError β
  | some value => .ok value
  | none => .error (.cursorEdit operation)

def cursorInsertList (values : List α) (current : Cursor α) : Except RrbError (Cursor α) :=
  if values.isEmpty then .ok current
  else do
    let inserted ← insertListAt current.cursorPosition values current.cursorSnapshot
    let edited ← expectCursorEdit "insert" inserted
    let position ← checkedAdd current.cursorPosition values.length
    .ok ⟨edited, position⟩

def cursorInsert (value : α) (current : Cursor α) : Except RrbError (Cursor α) :=
  cursorInsertList [value] current

def cursorInsertVector (inserted : RrbVector α) (current : Cursor α) : Except RrbError (Cursor α) :=
  if inserted.null then .ok current
  else do
    match ← splitAt current.cursorPosition current.cursorSnapshot with
    | none => .error .invalidCursor
    | some (left, right) =>
        let front ← append left inserted
        let edited ← append front right
        let position ← checkedAdd current.cursorPosition inserted.count
        .ok ⟨edited, position⟩

def cursorDeletePrevious (current : Cursor α) : Except RrbError (Option (Cursor α)) :=
  if current.cursorPosition = 0 then .ok none
  else do
    let removed ← removeRange (current.cursorPosition - 1) 1 current.cursorSnapshot
    let edited ← expectCursorEdit "delete previous" removed
    .ok (some ⟨edited, current.cursorPosition - 1⟩)

def cursorDeleteNext (current : Cursor α) : Except RrbError (Option (Cursor α)) :=
  if current.cursorPosition = current.cursorSnapshot.count then .ok none
  else do
    let removed ← removeRange current.cursorPosition 1 current.cursorSnapshot
    let edited ← expectCursorEdit "delete next" removed
    .ok (some ⟨edited, current.cursorPosition⟩)

def cursorReplaceNext [BEq α] (identical : α → α → Bool) (value : α) (current : Cursor α) :
    Except RrbError (Option (Cursor α)) :=
  if current.cursorPosition = current.cursorSnapshot.count then .ok none
  else do
    let replaced ← setAt identical current.cursorPosition value current.cursorSnapshot
    let edited ← expectCursorEdit "replace next" replaced
    .ok (some ⟨edited, current.cursorPosition⟩)

end Durable7.FingerTree.RrbVector
