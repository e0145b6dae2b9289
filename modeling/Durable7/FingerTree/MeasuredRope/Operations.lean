import Durable7.FingerTree.Measured.Searches

/-!
# Measured ropes

A measured tree of chunks, each with its length and the measure of its elements.  The
measures of prefixes combine on the left, so their order is kept.  Counts are checked before
an edit makes them larger, and are natural numbers here.
-/

namespace Durable7.FingerTree

open Foundation Nat

inductive MeasuredRope.RopeError where
  | lengthOverflow
  | measureBefore
  | measureAfter
  | insert
  | insertRange
  deriving DecidableEq

def MeasuredRope.RopeError.message : MeasuredRope.RopeError → String
  | .lengthOverflow => "Durable7.FingerTree.MeasuredRope: length overflow"
  | .measureBefore => "Durable7.FingerTree.MeasuredRope.measureBefore: invalid cursor invariant"
  | .measureAfter => "Durable7.FingerTree.MeasuredRope.measureAfter: invalid cursor invariant"
  | .insert => "Durable7.FingerTree.MeasuredRope.insert: invalid cursor invariant"
  | .insertRange => "Durable7.FingerTree.MeasuredRope.insertRange: invalid cursor invariant"

@[ext]
structure MeasuredRope.RopeMeasure (v : Type) where
  total : Nat
  value : v

structure MeasuredRope.MeasuredChunk (v α : Type) where
  lengthValue : Nat
  value : v
  items : List α

instance {v : Type} [Monoid v] : Monoid (MeasuredRope.RopeMeasure v) where
  one := ⟨0, 1⟩
  mul left right := ⟨left.total + right.total, left.value * right.value⟩
  one_mul measure := by
    ext1
    · exact zero_add _
    · exact one_mul _
  mul_one measure := by
    ext1
    · exact add_zero _
    · exact mul_one _
  mul_assoc first second third := by
    ext1
    · exact add_assoc _ _ _
    · exact mul_assoc _ _ _

instance {v α : Type} : Measured (MeasuredRope.RopeMeasure v) (MeasuredRope.MeasuredChunk v α) where
  measure chunk := ⟨chunk.lengthValue, chunk.value⟩

structure MeasuredRope (v α : Type) [Monoid v] where
  elementMeasure : α → v
  tree : Measured.ValidTree (MeasuredRope.RopeMeasure v) (MeasuredRope.MeasuredChunk v α)

namespace MeasuredRope

variable {v α : Type} [Monoid v]

abbrev ChunkTree (v α : Type) [Monoid v] := Measured.ValidTree (RopeMeasure v) (MeasuredChunk v α)

abbrev Outcome (β : Type 1) := Except RopeError β

/-! ## Chunks -/

def maxBound : Int := 9223372036854775807

def maxChunkSize : Nat := 64

def checkedAdd (left right : Int) : Except RopeError Int :=
  if left < 0 ∨ right < 0 ∨ right > maxBound - left then .error .lengthOverflow
  else .ok (left + right)

def checkedRangeLength (initial : Int) (values : List α) : Except RopeError Int :=
  go initial 0 values
where
  go (total added : Int) : List α → Except RopeError Int
    | [] => .ok added
    | _ :: rest => do
        let nextTotal ← checkedAdd total 1
        let nextAdded ← checkedAdd added 1
        go nextTotal nextAdded rest

def foldMap (elementMeasure : α → v) (values : List α) : v := (values.map elementMeasure).prod

def measuredChunk (elementMeasure : α → v) (values : List α) : MeasuredChunk v α :=
  ⟨values.length, foldMap elementMeasure values, values⟩

def chunkify : List α → List (List α)
  | [] => []
  | value :: values =>
      (value :: values).take maxChunkSize :: chunkify ((value :: values).drop maxChunkSize)
termination_by values => values.length
decreasing_by
  rw [List.length_drop]
  exact sub_lt (succ_pos _) (succ_pos _)

def measuredChunks (elementMeasure : α → v) (values : List α) : List (MeasuredChunk v α) :=
  (chunkify values).map (measuredChunk elementMeasure)

def replaceAt : Nat → α → List α → List α
  | 0, value, _ :: rest => value :: rest
  | position + 1, value, first :: rest => first :: replaceAt position value rest
  | _, _, [] => []

def listIndex : Nat → List α → Option α
  | 0, value :: _ => some value
  | position + 1, _ :: rest => listIndex position rest
  | _, [] => none

def isValidRange (position lengthValue total : Int) : Bool :=
  decide (position ≥ 0 ∧ lengthValue ≥ 0 ∧ position ≤ total ∧ lengthValue ≤ total - position)

def past (position : Int) (measure : RopeMeasure v) : Bool :=
  decide ((measure.total : Int) > position)

def treeCount (tree : ChunkTree v α) : Int := tree.measure.total

def treeValue (tree : ChunkTree v α) : v := tree.measure.value

def appendChunks (tree : ChunkTree v α) (chunks : List (MeasuredChunk v α)) : ChunkTree v α :=
  chunks.foldl .snoc tree

def prependChunks (chunks : List (MeasuredChunk v α)) (tree : ChunkTree v α) : ChunkTree v α :=
  chunks.foldr .cons tree

def joinWithChunks (left : ChunkTree v α) (middle : List (MeasuredChunk v α))
    (right : ChunkTree v α) : ChunkTree v α :=
  (appendChunks left middle).append right

def appendValue (elementMeasure : α → v) (tree : ChunkTree v α) (value : α) : ChunkTree v α :=
  match tree.viewR with
  | none => .singleton (measuredChunk elementMeasure [value])
  | some (rest, chunk) =>
      if chunk.lengthValue < maxChunkSize then
        rest.snoc (measuredChunk elementMeasure (chunk.items ++ [value]))
      else (rest.snoc chunk).snoc (measuredChunk elementMeasure [value])

/-! ## Ropes -/

def emptyWith (elementMeasure : α → v) : MeasuredRope v α := ⟨elementMeasure, .empty⟩

def singletonWith (elementMeasure : α → v) (value : α) : MeasuredRope v α :=
  ⟨elementMeasure, .singleton (measuredChunk elementMeasure [value])⟩

def toList (rope : MeasuredRope v α) : List α := rope.tree.toList.flatMap MeasuredChunk.items

def count (rope : MeasuredRope v α) : Int := rope.tree.measure.total

/-- The combination of measures refuses a count that does not fit. -/
def counted (rope : MeasuredRope v α) : Outcome (MeasuredRope v α) :=
  if count rope > maxBound then .error .lengthOverflow else .ok rope

def fromListWith (elementMeasure : α → v) (values : List α) : Outcome (MeasuredRope v α) :=
  counted ⟨elementMeasure, .fromList ((chunkify values).map (measuredChunk elementMeasure))⟩

def null (rope : MeasuredRope v α) : Bool := rope.tree.null

def measure (rope : MeasuredRope v α) : v := rope.tree.measure.value

def prefixMeasure (lengthValue : Int) (rope : MeasuredRope v α) : Option v :=
  if lengthValue < 0 ∨ lengthValue > count rope then none
  else if lengthValue = count rope then some (measure rope)
  else
    match rope.tree.split (past lengthValue) with
    | none => none
    | some (left, chunk, _) =>
        let position := (lengthValue - treeCount left).toNat
        some (treeValue left * foldMap rope.elementMeasure (chunk.items.take position))

def suffixMeasure (position : Int) (rope : MeasuredRope v α) : Option v :=
  if position < 0 ∨ position > count rope then none
  else if position = 0 then some (measure rope)
  else if position = count rope then some 1
  else
    match rope.tree.split (past position) with
    | none => none
    | some (left, chunk, right) =>
        let position := (position - treeCount left).toNat
        some (foldMap rope.elementMeasure (chunk.items.drop position) * treeValue right)

def append (left right : MeasuredRope v α) : Outcome (MeasuredRope v α) :=
  (checkedAdd (count left) (count right)).bind fun _ =>
    if null left then .ok right
    else if null right then .ok left
    else .ok ⟨left.elementMeasure, left.tree.append right.tree⟩

def index (position : Int) (rope : MeasuredRope v α) : Option α :=
  if position < 0 ∨ position ≥ count rope then none
  else
    match rope.tree.split (past position) with
    | none => none
    | some (left, chunk, _) => listIndex (position - treeCount left).toNat chunk.items

def setAt (position : Int) (value : α) (rope : MeasuredRope v α) : Option (MeasuredRope v α) :=
  if position < 0 ∨ position ≥ count rope then none
  else
    match rope.tree.split (past position) with
    | none => none
    | some (left, chunk, right) =>
        let updated := measuredChunk rope.elementMeasure
          (replaceAt (position - treeCount left).toNat value chunk.items)
        some ⟨rope.elementMeasure, joinWithChunks left [updated] right⟩

def insertAt (position : Int) (value : α) (rope : MeasuredRope v α) :
    Outcome (Option (MeasuredRope v α)) :=
  if position < 0 ∨ position > count rope then .ok none
  else
    (checkedAdd (count rope) 1).bind fun _ =>
      if position = count rope then
        .ok (some ⟨rope.elementMeasure, appendValue rope.elementMeasure rope.tree value⟩)
      else
        match rope.tree.split (past position) with
        | none => .ok none
        | some (left, chunk, right) =>
            let position := (position - treeCount left).toNat
            let replacements := measuredChunks rope.elementMeasure
              (chunk.items.take position ++ value :: chunk.items.drop position)
            .ok (some ⟨rope.elementMeasure, joinWithChunks left replacements right⟩)

def deleteAt (position : Int) (rope : MeasuredRope v α) : Option (MeasuredRope v α) :=
  if position < 0 ∨ position ≥ count rope then none
  else
    match rope.tree.split (past position) with
    | none => none
    | some (left, chunk, right) =>
        let position := (position - treeCount left).toNat
        let replacements := measuredChunks rope.elementMeasure
          (chunk.items.take position ++ (chunk.items.drop position).drop 1)
        some ⟨rope.elementMeasure, joinWithChunks left replacements right⟩

def splitAt (position : Int) (rope : MeasuredRope v α) :
    Option (MeasuredRope v α × MeasuredRope v α) :=
  if position < 0 ∨ position > count rope then none
  else if position = 0 then some (emptyWith rope.elementMeasure, rope)
  else if position = count rope then some (rope, emptyWith rope.elementMeasure)
  else
    match rope.tree.split (past position) with
    | none => none
    | some (left, chunk, right) =>
        let position := (position - treeCount left).toNat
        let leftTree := appendChunks left
          (measuredChunks rope.elementMeasure (chunk.items.take position))
        let rightTree := prependChunks
          (measuredChunks rope.elementMeasure (chunk.items.drop position)) right
        some (⟨rope.elementMeasure, leftTree⟩, ⟨rope.elementMeasure, rightTree⟩)

def slice (position lengthValue : Int) (rope : MeasuredRope v α) : Option (MeasuredRope v α) :=
  if isValidRange position lengthValue (count rope) = false then none
  else (splitAt position rope).bind fun parts => (splitAt lengthValue parts.2).map Prod.fst

def insertMeasuredRopeAt (position : Int) (middle rope : MeasuredRope v α) :
    Outcome (Option (MeasuredRope v α)) :=
  if null middle then .ok (some rope)
  else
    match splitAt position rope with
    | none => .ok none
    | some (left, right) => (append left middle).bind fun front => (append front right).map some

def insertRangeAtKnown (position : Int) (values : List α) (added : Int) (rope : MeasuredRope v α) :
    Outcome (Option (MeasuredRope v α)) :=
  (checkedAdd (count rope) added).bind fun _ =>
    (fromListWith rope.elementMeasure values).bind fun middle =>
      insertMeasuredRopeAt position middle rope

def insertRangeAt (position : Int) (values : List α) (rope : MeasuredRope v α) :
    Outcome (Option (MeasuredRope v α)) :=
  if position < 0 ∨ position > count rope then .ok none
  else if values.isEmpty then .ok (some rope)
  else (checkedRangeLength (count rope) values).bind fun added =>
    insertRangeAtKnown position values added rope

def locateInChunk (elementMeasure : α → v) (predicate : v → Bool) (position : Int) (before : v) :
    List α → Option (Int × v × α)
  | [] => none
  | value :: rest =>
      let after := before * elementMeasure value
      if predicate after then some (position, before, value)
      else locateInChunk elementMeasure predicate (position + 1) after rest

def locateByMeasure (predicate : v → Bool) (rope : MeasuredRope v α) : Option (Int × v × α) :=
  match rope.tree.split fun measure => predicate measure.value with
  | none => none
  | some (left, chunk, _) =>
      locateInChunk rope.elementMeasure predicate (treeCount left) (treeValue left) chunk.items

def splitByMeasure (predicate : v → Bool) (rope : MeasuredRope v α) :
    Option (MeasuredRope v α × α × MeasuredRope v α) :=
  (locateByMeasure predicate rope).bind fun (position, _, value) =>
    (splitAt position rope).bind fun (left, suffix) =>
      (splitAt 1 suffix).map fun (_, right) => (left, value, right)

/-! ## Cursors -/

structure MeasuredRopeCursor (v α : Type) [Monoid v] where
  rope : MeasuredRope v α
  position : Int

def cursorAt (position : Int) (rope : MeasuredRope v α) : Option (MeasuredRopeCursor v α) :=
  if position < 0 ∨ position > count rope then none else some ⟨rope, position⟩

def isAtStart (cursor : MeasuredRopeCursor v α) : Bool := cursor.position == 0

def isAtEnd (cursor : MeasuredRopeCursor v α) : Bool := cursor.position == count cursor.rope

def measureBefore (cursor : MeasuredRopeCursor v α) : Except RopeError v :=
  match prefixMeasure cursor.position cursor.rope with
  | some value => .ok value
  | none => .error .measureBefore

def measureAfter (cursor : MeasuredRopeCursor v α) : Except RopeError v :=
  match suffixMeasure cursor.position cursor.rope with
  | some value => .ok value
  | none => .error .measureAfter

def insert (value : α) (cursor : MeasuredRopeCursor v α) : Outcome (MeasuredRopeCursor v α) :=
  (checkedAdd cursor.position 1).bind fun nextPosition =>
    (insertAt cursor.position value cursor.rope).bind fun
      | some edited => .ok ⟨edited, nextPosition⟩
      | none => .error .insert

def insertRange (values : List α) (cursor : MeasuredRopeCursor v α) :
    Outcome (MeasuredRopeCursor v α) :=
  match values with
  | [] => .ok cursor
  | values =>
      (checkedRangeLength (count cursor.rope) values).bind fun added =>
        (checkedAdd cursor.position added).bind fun nextPosition =>
          (insertRangeAtKnown cursor.position values added cursor.rope).bind fun
            | some edited => .ok ⟨edited, nextPosition⟩
            | none => .error .insertRange

def deletePrevious (cursor : MeasuredRopeCursor v α) : Option (MeasuredRopeCursor v α) :=
  if isAtStart cursor then none
  else (deleteAt (cursor.position - 1) cursor.rope).map fun rope => ⟨rope, cursor.position - 1⟩

def deleteNext (cursor : MeasuredRopeCursor v α) : Option (MeasuredRopeCursor v α) :=
  if isAtEnd cursor then none
  else (deleteAt cursor.position cursor.rope).map fun rope => ⟨rope, cursor.position⟩

def replaceNext (value : α) (cursor : MeasuredRopeCursor v α) : Option (MeasuredRopeCursor v α) :=
  if isAtEnd cursor then none
  else (setAt cursor.position value cursor.rope).map fun rope => ⟨rope, cursor.position⟩

end MeasuredRope

end Durable7.FingerTree

/-!
## Elements of measured ropes

The chunks of a rope hold its elements in order.  A position stands inside one chunk, and an
edit there replaces that chunk only.
-/

namespace Durable7.FingerTree.MeasuredRope

open Foundation List Measured.ValidTree Nat

variable {v α : Type} [Monoid v] {f : α → v}

/-! ### Chunks -/

structure ChunkValid (f : α → v) (chunk : MeasuredChunk v α) : Prop where
  nonempty : chunk.items ≠ []
  small : chunk.items.length ≤ maxChunkSize
  length_eq : chunk.lengthValue = chunk.items.length
  value_eq : chunk.value = foldMap f chunk.items

def ChunksValid (f : α → v) (chunks : List (MeasuredChunk v α)) : Prop :=
  ∀ chunk ∈ chunks, ChunkValid f chunk

def elements (chunks : List (MeasuredChunk v α)) : List α := chunks.flatMap MeasuredChunk.items

omit [Monoid v] in
theorem elements_append (left right : List (MeasuredChunk v α)) :
    elements (left ++ right) = elements left ++ elements right := flatMap_append

omit [Monoid v] in
theorem elements_cons (chunk : MeasuredChunk v α) (chunks : List (MeasuredChunk v α)) :
    elements (chunk :: chunks) = chunk.items ++ elements chunks := flatMap_cons

omit [Monoid v] in
theorem elements_singleton (chunk : MeasuredChunk v α) : elements [chunk] = chunk.items :=
  append_nil _

theorem ChunksValid.append {left right : List (MeasuredChunk v α)} (hleft : ChunksValid f left)
    (hright : ChunksValid f right) : ChunksValid f (left ++ right) :=
  forall_mem_append.mpr ⟨hleft, hright⟩

theorem chunksValid_singleton {chunk : MeasuredChunk v α} (h : ChunkValid f chunk) :
    ChunksValid f [chunk] := forall_mem_singleton.mpr h

theorem foldMap_append (left right : List α) :
    foldMap f (left ++ right) = foldMap f left * foldMap f right := by
  rw [foldMap, map_append, prod_append, foldMap, foldMap]

theorem foldMap_nil : foldMap f [] = 1 := rfl

theorem foldMap_cons (value : α) (values : List α) :
    foldMap f (value :: values) = f value * foldMap f values := by
  rw [foldMap, map_cons, prod_cons, foldMap]

theorem foldMeasure_chunks {chunks : List (MeasuredChunk v α)} (h : ChunksValid f chunks) :
    Measured.foldMeasure chunks =
      (⟨(elements chunks).length, foldMap f (elements chunks)⟩ : RopeMeasure v) := by
  induction chunks with
  | nil => rfl
  | cons chunk chunks ih =>
      obtain ⟨hchunk, hrest⟩ := forall_mem_cons.mp h
      rw [Measured.foldMeasure_cons, ih hrest, elements_cons, foldMap_append, length_append,
        ← hchunk.length_eq, ← hchunk.value_eq]
      rfl

theorem measuredChunk_valid {values : List α} (hnonempty : values ≠ [])
    (hsmall : values.length ≤ maxChunkSize) : ChunkValid f (measuredChunk f values) :=
  ⟨hnonempty, hsmall, rfl, rfl⟩

theorem chunkify_valid (values : List α) :
    (chunkify values).flatten = values ∧
      ∀ part ∈ chunkify values, part ≠ [] ∧ part.length ≤ maxChunkSize := by
  induction values using chunkify.induct with
  | case1 =>
      rw [chunkify]
      exact ⟨rfl, forall_mem_nil _⟩
  | case2 value values ih =>
      rw [chunkify, flatten_cons, ih.1, take_append_drop]
      refine ⟨rfl, forall_mem_cons.mpr ⟨⟨?_, length_take_le _ _⟩, ih.2⟩⟩
      exact cons_ne_nil _ _

theorem measuredChunks_valid (values : List α) :
    ChunksValid f (measuredChunks f values) ∧ elements (measuredChunks f values) = values := by
  obtain ⟨hflatten, hparts⟩ := chunkify_valid values
  constructor
  · intro chunk hchunk
    obtain ⟨part, hpart, rfl⟩ := mem_map.mp hchunk
    exact measuredChunk_valid (hparts part hpart).1 (hparts part hpart).2
  · rw [elements, measuredChunks, flatMap_map]
    conv_rhs => rw [← hflatten]
    exact flatMap_id'

theorem replaceAt_eq (position : Nat) (value : α) (values : List α) :
    replaceAt position value values = values.set position value := by
  induction values generalizing position with
  | nil => cases position <;> rfl
  | cons first rest ih =>
      cases position with
      | zero => rfl
      | succ position => exact congrArg (first :: ·) (ih position)

theorem listIndex_eq (position : Nat) (values : List α) :
    listIndex position values = values[position]? := by
  induction values generalizing position with
  | nil => cases position <;> rfl
  | cons first rest ih =>
      cases position with
      | zero => rfl
      | succ position => exact ih position

theorem toList_appendChunks (tree : ChunkTree v α) (chunks : List (MeasuredChunk v α)) :
    (appendChunks tree chunks).toList = tree.toList ++ chunks := by
  induction chunks generalizing tree with
  | nil => exact (append_nil _).symm
  | cons chunk chunks ih =>
      rw [appendChunks, foldl_cons]
      refine (ih (tree.snoc chunk)).trans ?_
      rw [toList_snoc, append_assoc, singleton_append]

theorem toList_prependChunks (tree : ChunkTree v α) (chunks : List (MeasuredChunk v α)) :
    (prependChunks chunks tree).toList = chunks ++ tree.toList := by
  induction chunks with
  | nil => rfl
  | cons chunk chunks ih =>
      rw [prependChunks, foldr_cons, toList_cons, cons_append]
      exact congrArg (chunk :: ·) ih

theorem toList_joinWithChunks (left right : ChunkTree v α) (middle : List (MeasuredChunk v α)) :
    (joinWithChunks left middle right).toList = left.toList ++ (middle ++ right.toList) := by
  rw [joinWithChunks, toList_append, toList_appendChunks, append_assoc]

/-! ### Ropes -/

/-- A rope holds the values: its chunks are valid and there are not too many of them. -/
structure Holds (f : α → v) (rope : MeasuredRope v α) (values : List α) : Prop where
  function_eq : rope.elementMeasure = f
  chunks : ChunksValid f rope.tree.toList
  elements_eq : elements rope.tree.toList = values
  fits : (values.length : Int) ≤ maxBound

section Ropes

variable {rope : MeasuredRope v α} {values : List α} (h : Holds f rope values)

include h

theorem Holds.count_eq : count rope = values.length := by
  rw [count, measure_eq, foldMeasure_chunks h.chunks, h.elements_eq]

theorem Holds.measure_eq : measure rope = foldMap f values := by
  rw [measure, Measured.ValidTree.measure_eq, foldMeasure_chunks h.chunks, h.elements_eq]

theorem Holds.null_eq : null rope = values.isEmpty := by
  rw [Bool.eq_iff_iff, null, null_iff, List.isEmpty_iff, ← h.elements_eq]
  constructor
  · intro hnil
    rw [hnil]
    rfl
  · intro hnil
    cases hchunks : rope.tree.toList with
    | nil => rfl
    | cons chunk chunks =>
        have hchunk := (h.chunks chunk (by rw [hchunks]; exact List.mem_cons_self)).nonempty
        rw [hchunks, elements_cons, List.append_eq_nil_iff] at hnil
        exact absurd hnil.1 hchunk

end Ropes

/-- A position of a rope, seen from the chunk that holds it. -/
structure Inside (f : α → v) (tree : ChunkTree v α) (values : List α) (position : Int)
    (left : ChunkTree v α) (chunk : MeasuredChunk v α) (right : ChunkTree v α) (offset : Nat) :
    Prop where
  split_eq : tree.split (past position) = some (left, chunk, right)
  offset_eq : (position - treeCount left).toNat = offset
  offset_lt : offset < chunk.items.length
  position_eq : position.toNat = (elements left.toList).length + offset
  leftValid : ChunksValid f left.toList
  chunkValid : ChunkValid f chunk
  rightValid : ChunksValid f right.toList
  values_eq : values = elements left.toList ++ (chunk.items ++ elements right.toList)

theorem Holds.inside {rope : MeasuredRope v α} {values : List α} (h : Holds f rope values)
    (position : Int) (hlow : 0 ≤ position) (hhigh : position < values.length) :
    ∃ left chunk right offset, Inside f rope.tree values position left chunk right offset := by
  have hweight : ∀ chunks : List (MeasuredChunk v α),
      (Measured.foldMeasure chunks : RopeMeasure v).total =
        (chunks.map MeasuredChunk.lengthValue).sum := by
    intro chunks
    induction chunks with
    | nil => rfl
    | cons chunk chunks ih =>
        rw [Measured.foldMeasure_cons, map_cons, sum_cons, ← ih]
        rfl
  have hpast : (fun measure : RopeMeasure v => decide (measure.total > position.toNat)) =
      past position := by
    funext measure
    exact decide_eq_decide.mpr (by omega)
  have hsplit := split_weight hweight rope.tree position.toNat
  rw [hpast] at hsplit
  rcases hsplit with ⟨-, hsmall⟩ | ⟨left, chunk, right, hsplit, hlist, hbefore, hlocal⟩
  · rw [← hweight, foldMeasure_chunks h.chunks, h.elements_eq] at hsmall
    simp only at hsmall
    omega
  · have hchunks := h.chunks
    rw [hlist] at hchunks
    obtain ⟨hleft, hrest⟩ := forall_mem_append.mp hchunks
    obtain ⟨hchunk, hright⟩ := forall_mem_cons.mp hrest
    rw [← hweight, foldMeasure_chunks hleft] at hbefore hlocal
    rw [hchunk.length_eq] at hlocal
    have hcount : treeCount left = (elements left.toList).length := by
      rw [treeCount, Measured.ValidTree.measure_eq, foldMeasure_chunks hleft]
    simp only at hbefore hlocal
    refine ⟨left, chunk, right, position.toNat - (elements left.toList).length, hsplit, ?_, ?_, ?_,
      hleft, hchunk, hright, ?_⟩
    · omega
    · omega
    · omega
    · rw [← h.elements_eq, hlist, elements_append, elements_cons]

section Inside

variable {tree left right : ChunkTree v α} {values : List α} {position : Int}
  {chunk : MeasuredChunk v α} {offset : Nat}
  (h : Inside f tree values position left chunk right offset)

include h

theorem Inside.take_eq :
    values.take position.toNat = elements left.toList ++ chunk.items.take offset := by
  rw [h.values_eq, h.position_eq, take_length_add_append,
    take_append_of_le_length (le_of_lt h.offset_lt)]

theorem Inside.drop_eq :
    values.drop position.toNat = chunk.items.drop offset ++ elements right.toList := by
  rw [h.values_eq, h.position_eq, drop_length_add_append,
    drop_append_of_le_length (le_of_lt h.offset_lt)]

theorem Inside.drop_succ_eq :
    values.drop (position.toNat + 1) = chunk.items.drop (offset + 1) ++ elements right.toList := by
  rw [h.values_eq, h.position_eq, add_assoc, drop_length_add_append,
    drop_append_of_le_length h.offset_lt]

theorem Inside.getElem?_eq : values[position.toNat]? = chunk.items[offset]? := by
  rw [h.values_eq, h.position_eq, List.getElem?_append_right (le_add_right _ _),
    Nat.add_sub_cancel_left, List.getElem?_append_left h.offset_lt]

theorem Inside.joined {middle : List (MeasuredChunk v α)} (hmiddle : ChunksValid f middle) :
    ChunksValid f (joinWithChunks left middle right).toList ∧
      elements (joinWithChunks left middle right).toList =
        elements left.toList ++ (elements middle ++ elements right.toList) := by
  rw [toList_joinWithChunks, elements_append, elements_append]
  exact ⟨h.leftValid.append (hmiddle.append h.rightValid), rfl⟩

end Inside

end Durable7.FingerTree.MeasuredRope
