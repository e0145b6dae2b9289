import Durable7.Foundation.Outcome
import Durable7.Foundation.Stateful

/-!
# Sliding-window aggregates on a chain of chunks

The TypeScript window keeps its values in chunks that it links, trims and, when a callback throws,
unlinks again.  Chunks live on a heap and are named by their addresses.  The `Monoid` object of the
source is Mathlib's class; `fails` says which callbacks of one call throw, by their number.
-/

namespace Durable7.FingerTree.ChunkedDabaLite

open Foundation Function

def chunkCapacity : Nat := 64

/-- `Number.MAX_SAFE_INTEGER`. -/
def maxSafeInteger : Nat := 2 ^ 53 - 1

structure Block (T : Type) where
  items : Nat → Option T
  previous : Option Nat
  next : Option Nat

structure Cursor where
  block : Nat
  index : Nat
  deriving DecidableEq

/-- The window and the heap of its chunks; addresses from `allocated` on are free. -/
structure Window (T : Type) where
  blocks : Nat → Block T
  allocated : Nat
  first : Nat
  f : Cursor
  l : Cursor
  r : Cursor
  a : Cursor
  b : Cursor
  e : Cursor
  aggregateRA : T
  aggregateB : T
  count : Nat

/-- What a call throws.  Reading a slot without a value would hand `undefined` to a callback. -/
inductive Failure where
  | callback
  | windowTooLarge
  | beyondEnd
  | beforeFront
  | missingValue
  deriving DecidableEq

def Failure.message : Failure → Option String
  | .callback => none
  | .windowTooLarge => some "The DABA Lite window is too large."
  | .beyondEnd => some "Cannot advance beyond the DABA Lite end chunk."
  | .beforeFront => some "Cannot retreat before the DABA Lite front chunk."
  | .missingValue => none

variable {T : Type}

/-- The state of a call: the window and the callbacks made so far. -/
abbrev Operation (T : Type) := EStateM Failure (Window T × Nat)

def getWindow : Operation T (Window T) := Prod.fst <$> get

def modifyWindow (change : Window T → Window T) : Operation T Unit :=
  modify fun state => (change state.1, state.2)

/-! ## The chunked queue -/

def emptyBlock : Block T := ⟨fun _ => none, none, none⟩

def setBlock (address : Nat) (change : Block T → Block T) (window : Window T) : Window T :=
  { window with blocks := update window.blocks address (change (window.blocks address)) }

/-- `new Block<T>()`. -/
def newBlock : Operation T Nat := do
  let window ← getWindow
  modifyWindow fun window => { setBlock window.allocated (fun _ => emptyBlock) window with
    allocated := window.allocated + 1 }
  return window.allocated

def readRaw (cursor : Cursor) : Operation T (Option T) := do
  return ((← getWindow).blocks cursor.block).items cursor.index

def read (cursor : Cursor) : Operation T T := do
  match ← readRaw cursor with
  | none => throw .missingValue
  | some value => return value

def setItem (cursor : Cursor) (value : Option T) : Window T → Window T :=
  setBlock cursor.block fun block => { block with items := update block.items cursor.index value }

def write (cursor : Cursor) (value : Option T) : Operation T Unit :=
  modifyWindow (setItem cursor value)

def reset : Operation T Cursor := do
  let block ← newBlock
  modifyWindow fun window => { window with first := block }
  return ⟨block, 0⟩

def advance (cursor : Cursor) : Operation T Cursor := do
  if cursor.index + 1 < chunkCapacity then return ⟨cursor.block, cursor.index + 1⟩
  else
    match ((← getWindow).blocks cursor.block).next with
    | none => throw .beyondEnd
    | some next => return ⟨next, 0⟩

def advanceEnd (cursor : Cursor) : Operation T Cursor := do
  if cursor.index + 1 < chunkCapacity then return ⟨cursor.block, cursor.index + 1⟩
  else
    match ((← getWindow).blocks cursor.block).next with
    | some next => return ⟨next, 0⟩
    | none =>
        let next ← newBlock
        modifyWindow (setBlock next fun block => { block with previous := some cursor.block })
        modifyWindow (setBlock cursor.block fun block => { block with next := some next })
        return ⟨next, 0⟩

def retreat (cursor : Cursor) : Operation T Cursor := do
  if cursor.index ≠ 0 then return ⟨cursor.block, cursor.index - 1⟩
  else
    match ((← getWindow).blocks cursor.block).previous with
    | none => throw .beforeFront
    | some previous => return ⟨previous, chunkCapacity - 1⟩

def restoreSuccessor (block : Nat) (successor : Option Nat) : Operation T Unit := do
  let current := ((← getWindow).blocks block).next
  if current ≠ successor then
    modifyWindow (setBlock block fun stored => { stored with next := successor })
    if let some address := successor then
      modifyWindow (setBlock address fun stored => { stored with previous := some block })
    if let some address := current then
      modifyWindow (setBlock address fun stored => { stored with previous := none })

def trimBefore (front : Cursor) : Operation T Unit := do
  let window ← getWindow
  if window.first ≠ front.block then
    let predecessor := (window.blocks front.block).previous
    modifyWindow fun window => { window with first := front.block }
    modifyWindow (setBlock front.block fun stored => { stored with previous := none })
    if let some address := predecessor then
      modifyWindow (setBlock address fun stored => { stored with next := none })

/-! ## The window -/

section Operations

variable [Monoid T] (fails : Nat → Bool)

/-- The constructor.  The first chunk is at address zero. -/
def create : Window T :=
  ⟨fun _ => emptyBlock, 1, 0, ⟨0, 0⟩, ⟨0, 0⟩, ⟨0, 0⟩, ⟨0, 0⟩, ⟨0, 0⟩, ⟨0, 0⟩, 1, 1, 0⟩

/-- One callback: it throws, or gives its result. -/
def callback (result : T) : Operation T T := do
  let (window, callbacks) ← get
  set (window, callbacks + 1)
  if fails callbacks then throw .callback else return result

def identityCall : Operation T T := callback fails 1

def combineCall (left right : T) : Operation T T := callback fails (left * right)

def publish (l r a b : Cursor) (aggregateRA aggregateB : T) : Operation T Unit :=
  modifyWindow fun window => { window with l, r, a, b, aggregateRA, aggregateB }

/-- The two writes of a fixup that shrinks both work regions by one. -/
def shrink (l r a b : Cursor) (aggregateRA aggregateB : T) : Operation T Unit := do
  let advancedLeft ← advance l
  let beforeA ← retreat a
  let newLeftValue ← combineCall fails (← read l) aggregateRA
  let productA ← if a = b then identityCall fails else read a
  let newAccumulatorValue ← combineCall fails (← read beforeA) productA
  write l (some newLeftValue)
  write beforeA (some newAccumulatorValue)
  publish advancedLeft r beforeA b aggregateRA aggregateB

def fixup : Operation T Unit := do
  let window ← getWindow
  if window.f = window.b then
    let identity ← identityCall fails
    publish window.e window.e window.e window.e identity identity
  else if window.l = window.b then
    -- the flip; its left region is never empty, so the identity it caches is not asked for again
    let cachedIdentity ← identityCall fails
    if window.f = window.r then
      publish (← advance window.f) (← advance window.r) (← advance window.e) window.e
        cachedIdentity cachedIdentity
    else shrink fails window.f window.r window.e window.e window.aggregateB cachedIdentity
  else if window.l = window.r then
    let identity ← identityCall fails
    publish (← advance window.l) (← advance window.r) (← advance window.a) window.b identity
      window.aggregateB
  else shrink fails window.l window.r window.a window.b window.aggregateRA window.aggregateB

def aggregate : Operation T T := do
  let window ← getWindow
  if window.count = 0 then identityCall fails
  else combineCall fails (← read window.f) window.aggregateB

def insert (value : T) : Operation T Unit := do
  let window ← getWindow
  if window.count = maxSafeInteger then throw .windowTooLarge
  let oldEnd := window.e
  let oldValue ← readRaw oldEnd
  let oldSuccessor := (window.blocks oldEnd.block).next
  let nextAggregateB ← combineCall fails window.aggregateB value
  try
    let newEnd ← advanceEnd oldEnd
    write oldEnd (some value)
    modifyWindow fun window => { window with e := newEnd }
    modifyWindow fun stored => { stored with count := window.count + 1 }
    modifyWindow fun window => { window with aggregateB := nextAggregateB }
    fixup fails
  catch error =>
    write oldEnd oldValue
    restoreSuccessor oldEnd.block oldSuccessor
    modifyWindow fun stored => { stored with e := oldEnd }
    modifyWindow fun stored => { stored with count := window.count }
    modifyWindow fun stored => { stored with aggregateB := window.aggregateB }
    throw error

def tryEvict : Operation T Bool := do
  let window ← getWindow
  if window.count = 0 then return false
  let front ← advance window.f
  modifyWindow fun window => { window with f := front }
  modifyWindow fun window => { window with count := window.count - 1 }
  try fixup fails
  catch error =>
    modifyWindow fun stored => { stored with f := window.f }
    modifyWindow fun stored => { stored with count := window.count }
    throw error
  write window.f none
  trimBefore front
  return true

def clear : Operation T Unit := do
  let window ← getWindow
  if window.count ≠ 0 then
    let identity ← identityCall fails
    let begin ← reset
    modifyWindow fun window =>
      { window with f := begin, l := begin, r := begin, a := begin, b := begin, e := begin }
    modifyWindow fun window =>
      { window with aggregateRA := identity, aggregateB := identity, count := 0 }

end Operations

structure DabaLiteStatistics where
  count : Nat
  frontLength : Int
  backLength : Int
  leftLength : Int
  rightLength : Int
  accumulatorLength : Int
  blockCount : Nat
  allocatedSlotCapacity : Nat
  slackSlotCount : Int
  deriving DecidableEq

def cursors (window : Window T) : List Cursor :=
  [window.f, window.l, window.r, window.a, window.b, window.e]

/--
The loop over the chunks.  Only `allocated` chunks exist, so one pass more than that meets a chunk
twice.
-/
def walkChunks (window : Window T) : Nat → List Nat → Option Nat → Nat → Nat → Nat →
    List (Option Nat) → Except String (List (Option Nat) × Nat)
  | 0, _, _, _, _, _, _ => .error "The DABA Lite chunk chain contains a cycle."
  | passes + 1, seen, previous, block, blockBase, blockCount, positions => do
      rejectIf (block ∈ seen) "The DABA Lite chunk chain contains a cycle."
      rejectIf ((window.blocks block).previous ≠ previous ∨
          ∃ before ∈ previous, (window.blocks before).next ≠ some block)
        "Invalid DABA Lite chunk links."
      let positions := List.zipWith (fun cursor position =>
        if cursor.block = block then some (blockBase + cursor.index) else position)
        (cursors window) positions
      if block = window.e.block then
        rejectIf ((window.blocks block).next ≠ none) "End cursor is not in the last chunk."
        .ok (positions, blockCount + 1)
      else
        match (window.blocks block).next with
        | none => .error "End cursor is unreachable."
        | some next =>
            walkChunks window passes (block :: seen) (some block) next (blockBase + chunkCapacity)
              (blockCount + 1) positions

/-- The equations on the cursor positions, and the statistics. -/
def auditPositions (window : Window T) (f l r a b e : Nat) (blockCount : Nat) :
    Except String DabaLiteStatistics := do
  rejectIf (¬ (f ≤ l ∧ l ≤ r ∧ r ≤ a ∧ a ≤ b ∧ b ≤ e)) "DABA Lite cursor ordering is invalid."
  rejectIf ((e : Int) - f ≠ window.count) "DABA Lite count disagrees with cursor distance."
  let frontLength : Int := b - f
  let backLength : Int := e - b
  let leftLength : Int := r - l
  let rightLength : Int := a - r
  let accumulatorLength : Int := b - a
  if window.count = 0 then
    rejectIf (¬ (f = l ∧ l = r ∧ r = a ∧ a = b ∧ b = e)) "Empty DABA Lite cursors differ."
  else
    rejectIf (leftLength ≠ rightLength) "DABA Lite work-region sizes differ."
    rejectIf (leftLength + rightLength + accumulatorLength + 1 ≠ frontLength - backLength)
      "DABA Lite size equation is invalid."
    rejectIf ((l : Int) - f ≠ backLength + 1) "DABA Lite processed-prefix equation is invalid."
  rejectIf (blockCount ≠ (window.f.index + window.count) / chunkCapacity + 1)
    "DABA Lite block count is invalid."
  let allocatedSlotCapacity := blockCount * chunkCapacity
  let slackSlotCount : Int := allocatedSlotCapacity - window.count
  rejectIf (slackSlotCount < 1 ∨ slackSlotCount ≥ 2 * chunkCapacity)
    "DABA Lite slack exceeds its bound."
  .ok ⟨window.count, frontLength, backLength, leftLength, rightLength, accumulatorLength,
    blockCount, allocatedSlotCapacity, slackSlotCount⟩

def validateStructure (window : Window T) : Except String DabaLiteStatistics := do
  (["F", "L", "R", "A", "B", "E"].zip (cursors window)).forM fun (name, cursor) =>
    rejectIf (cursor.index ≥ chunkCapacity)
      ("The DABA Lite " ++ name ++ " cursor has an invalid index.")
  rejectIf ((window.blocks window.first).previous ≠ none ∨ window.first ≠ window.f.block)
    "Invalid DABA Lite first chunk."
  let (positions, blockCount) ← walkChunks window (window.allocated + 1) [] none window.first 0 0
    (List.replicate 6 none)
  match positions with
  | [some f, some l, some r, some a, some b, some e] => auditPositions window f l r a b e blockCount
  | _ => .error "A cursor lies outside the active chain."

end Durable7.FingerTree.ChunkedDabaLite
