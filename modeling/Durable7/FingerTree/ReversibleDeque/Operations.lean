import Durable7.Foundation.Outcome

/-!
# Reversible deques

Digits hold one to three items, and a pending flag on a node or a tree reverses all that is
below it.  The logical parts of a node or a tree push its flag one layer down.  Every error
call of the source is a `ReversibleError`.
-/

namespace Durable7.FingerTree.ReversibleDeque

open Foundation List Nat

inductive ReversibleError where
  | makeNodeOrChild
  | nodes
  | treeGetLeaf
  | getInDigit
  | negativeCount
  | lengthOverflow
  | splitLast
  deriving DecidableEq

def ReversibleError.message : ReversibleError → String
  | .makeNodeOrChild => "Durable7.FingerTree.ReversibleDeque.makeNodeOrChild: empty child list"
  | .nodes => "Durable7.FingerTree.ReversibleDeque.nodes: fewer than two elements"
  | .treeGetLeaf => "Durable7.FingerTree.ReversibleDeque.treeGetLeaf: empty tree"
  | .getInDigit => "Durable7.FingerTree.ReversibleDeque.getInDigit: index outside digit"
  | .negativeCount => "Durable7.FingerTree.ReversibleDeque: internal negative count"
  | .lengthOverflow => "Durable7.FingerTree.ReversibleDeque: length overflow"
  | .splitLast => "Durable7.FingerTree.ReversibleDeque.splitLast: empty list"

inductive Elem (α : Type) where
  | leaf (value : α)
  | node (reversed : Bool) (size : Int) (children : List (Elem α))

inductive Tree (α : Type) where
  | empty
  | single (element : Elem α)
  | deep (reversed : Bool) (size : Int) (prefixDigit : List (Elem α)) (middle : Tree α)
      (suffixDigit : List (Elem α))

variable {α : Type}

abbrev Outcome (β : Type) := Except ReversibleError β

def maxBound : Int := 9223372036854775807

def checkedAdd (left right : Int) : Outcome Int :=
  if left < 0 ∨ right < 0 then .error .negativeCount
  else if right > maxBound - left then .error .lengthOverflow
  else .ok (left + right)

def checkedSum (sizes : List Int) : Outcome Int := sizes.foldlM checkedAdd 0

def splitLast {β : Type} : List β → Outcome (List β × β)
  | [] => .error .splitLast
  | [value] => .ok ([], value)
  | value :: next :: rest => do
      let (front, lastValue) ← splitLast (next :: rest)
      .ok (value :: front, lastValue)

def elemSize : Elem α → Int
  | .leaf _ => 1
  | .node _ size _ => size

def treeSize : Tree α → Int
  | .empty => 0
  | .single element => elemSize element
  | .deep _ size _ _ _ => size

theorem mem_of_splitLast {β : Type} {values front : List β} {lastValue : β}
    (h : splitLast values = .ok (front, lastValue)) : lastValue ∈ values := by
  induction values using splitLast.induct generalizing front with
  | case1 => cases h
  | case2 value =>
      cases h
      exact mem_cons_self
  | case3 value next rest ih =>
      rw [splitLast, bind_eq_ok] at h
      obtain ⟨⟨inner, found⟩, hinner, hfound⟩ := h
      cases hfound
      exact mem_cons_of_mem _ (ih hinner)

/-! ## Orientation -/

def elemMirror : Elem α → Elem α
  | .leaf value => .leaf value
  | .node reversed size children => .node (!reversed) size children

def treeMirror : Tree α → Tree α
  | .empty => .empty
  | .single element => .single (elemMirror element)
  | .deep reversed size prefixDigit middle suffixDigit =>
      .deep (!reversed) size prefixDigit middle suffixDigit

def mirrorReversed (elements : List (Elem α)) : List (Elem α) := elements.reverse.map elemMirror

def logicalChildren : Elem α → List (Elem α)
  | .leaf value => [.leaf value]
  | .node reversed _ children => if reversed then mirrorReversed children else children

def logicalPrefix : Tree α → List (Elem α)
  | .deep reversed _ prefixDigit _ suffixDigit =>
      if reversed then mirrorReversed suffixDigit else prefixDigit
  | _ => []

def logicalSuffix : Tree α → List (Elem α)
  | .deep reversed _ prefixDigit _ suffixDigit =>
      if reversed then mirrorReversed prefixDigit else suffixDigit
  | _ => []

def logicalMiddle : Tree α → Tree α
  | .deep reversed _ _ middle _ => if reversed then treeMirror middle else middle
  | _ => .empty

/-- The number of layers of a tree. -/
def spine : Tree α → Nat
  | .deep _ _ _ middle _ => spine middle + 1
  | _ => 0

theorem spine_mirror (tree : Tree α) : spine (treeMirror tree) = spine tree := by
  cases tree <;> rfl

theorem spine_logicalMiddle (reversed : Bool) (size : Int) (prefixDigit suffixDigit : List (Elem α))
    (middle : Tree α) :
    spine (logicalMiddle (.deep reversed size prefixDigit middle suffixDigit)) = spine middle := by
  cases reversed with
  | false => rfl
  | true => exact spine_mirror middle

mutual

/-- The number of items in an element, inner ones included. -/
def elemWeight : Elem α → Nat
  | .leaf _ => 1
  | .node _ _ children => digitWeight children + 1

def digitWeight : List (Elem α) → Nat
  | [] => 0
  | element :: rest => elemWeight element + digitWeight rest

end

theorem elemWeight_pos (element : Elem α) : 0 < elemWeight element := by
  cases element with
  | leaf value => exact Nat.one_pos
  | node reversed size children => exact succ_pos _

theorem elemWeight_mirror (element : Elem α) :
    elemWeight (elemMirror element) = elemWeight element := by
  cases element <;> rfl

theorem digitWeight_append (left right : List (Elem α)) :
    digitWeight (left ++ right) = digitWeight left + digitWeight right := by
  induction left with
  | nil => exact (zero_add _).symm
  | cons element left ih => rw [cons_append, digitWeight, digitWeight, ih, add_assoc]

theorem digitWeight_mirror (elements : List (Elem α)) :
    digitWeight (mirrorReversed elements) = digitWeight elements := by
  unfold mirrorReversed
  induction elements with
  | nil => rfl
  | cons element elements ih =>
      rw [reverse_cons, map_append, digitWeight_append, ih, digitWeight, add_comm]
      congr 1
      exact elemWeight_mirror element

theorem digitWeight_logicalChildren (reversed : Bool) (size : Int) (children : List (Elem α)) :
    digitWeight (logicalChildren (.node reversed size children)) <
      elemWeight (.node reversed size children) := by
  cases reversed with
  | false => exact lt_succ_self _
  | true =>
      change digitWeight (mirrorReversed children) < _
      rw [digitWeight_mirror]
      exact lt_succ_self _

theorem elemWeight_mem {element : Elem α} {elements : List (Elem α)} (h : element ∈ elements) :
    elemWeight element ≤ digitWeight elements := by
  induction h with
  | head rest => exact le_add_right _ _
  | tail first _ ih => exact le_trans ih (le_add_left _ _)

def makeNode (children : List (Elem α)) : Outcome (Elem α) := do
  let size ← checkedSum (children.map elemSize)
  .ok (.node false size children)

def makeDeep (prefixDigit : List (Elem α)) (middle : Tree α) (suffixDigit : List (Elem α)) :
    Outcome (Tree α) := do
  let prefixSize ← checkedSum (prefixDigit.map elemSize)
  let suffixSize ← checkedSum (suffixDigit.map elemSize)
  let restSize ← checkedAdd (treeSize middle) suffixSize
  let size ← checkedAdd prefixSize restSize
  .ok (.deep false size prefixDigit middle suffixDigit)

def fromDigit : List (Elem α) → Outcome (Tree α)
  | [] => .ok .empty
  | [element] => .ok (.single element)
  | element :: rest => makeDeep [element] .empty rest

def elemToTree : Elem α → Outcome (Tree α)
  | .leaf value => .ok (.single (.leaf value))
  | element => fromDigit (logicalChildren element)

def makeNodeOrChild : List (Elem α) → Outcome (Elem α)
  | [] => .error .makeNodeOrChild
  | [element] => .ok element
  | elements => makeNode elements

/-! ## Ends -/

def treeCons (value : Elem α) : Tree α → Outcome (Tree α)
  | .empty => .ok (.single value)
  | .single old => makeDeep [value] .empty [old]
  | .deep reversed size prefixDigit middle suffixDigit =>
      let tree := Tree.deep reversed size prefixDigit middle suffixDigit
      match logicalPrefix tree with
      | [a, b, c] => do
          let pushed ← makeNode [b, c]
          let inner ← treeCons pushed (logicalMiddle tree)
          makeDeep [value, a] inner (logicalSuffix tree)
      | front => makeDeep (value :: front) (logicalMiddle tree) (logicalSuffix tree)
termination_by tree => spine tree
decreasing_by
  rw [spine_logicalMiddle]
  exact lt_succ_self _

def treeSnoc : Tree α → Elem α → Outcome (Tree α)
  | .empty, value => .ok (.single value)
  | .single old, value => makeDeep [old] .empty [value]
  | .deep reversed size prefixDigit middle suffixDigit, value =>
      let tree := Tree.deep reversed size prefixDigit middle suffixDigit
      match logicalSuffix tree with
      | [a, b, c] => do
          let pushed ← makeNode [a, b]
          let inner ← treeSnoc (logicalMiddle tree) pushed
          makeDeep (logicalPrefix tree) inner [c, value]
      | back => makeDeep (logicalPrefix tree) (logicalMiddle tree) (back ++ [value])
termination_by tree _ => spine tree
decreasing_by
  rw [spine_logicalMiddle]
  exact lt_succ_self _

mutual

def deepL (prefixDigit : List (Elem α)) (middle : Tree α) (suffixDigit : List (Elem α)) :
    Outcome (Tree α) :=
  if ¬ prefixDigit.isEmpty then makeDeep prefixDigit middle suffixDigit
  else do
    match ← treeViewL middle with
    | some (node, rest) => makeDeep (logicalChildren node) rest suffixDigit
    | none => fromDigit suffixDigit
termination_by (spine middle, 1)
decreasing_by exact Prod.Lex.right _ Nat.one_pos

def treeViewL : Tree α → Outcome (Option (Elem α × Tree α))
  | .empty => .ok none
  | .single element => .ok (some (element, .empty))
  | .deep reversed size prefixDigit middle suffixDigit =>
      let tree := Tree.deep reversed size prefixDigit middle suffixDigit
      match logicalPrefix tree with
      | [] => .ok none
      | headElement :: restPrefix => do
          let rest ←
            if restPrefix.isEmpty then deepL [] (logicalMiddle tree) (logicalSuffix tree)
            else makeDeep restPrefix (logicalMiddle tree) (logicalSuffix tree)
          .ok (some (headElement, rest))
termination_by tree => (spine tree, 0)
decreasing_by
  rw [spine_logicalMiddle]
  exact Prod.Lex.left _ _ (lt_succ_self _)

end

mutual

def deepR (prefixDigit : List (Elem α)) (middle : Tree α) (suffixDigit : List (Elem α)) :
    Outcome (Tree α) :=
  if ¬ suffixDigit.isEmpty then makeDeep prefixDigit middle suffixDigit
  else do
    match ← treeViewR middle with
    | some (rest, node) => makeDeep prefixDigit rest (logicalChildren node)
    | none => fromDigit prefixDigit
termination_by (spine middle, 1)
decreasing_by exact Prod.Lex.right _ Nat.one_pos

def treeViewR : Tree α → Outcome (Option (Tree α × Elem α))
  | .empty => .ok none
  | .single element => .ok (some (.empty, element))
  | .deep reversed size prefixDigit middle suffixDigit =>
      let tree := Tree.deep reversed size prefixDigit middle suffixDigit
      match logicalSuffix tree with
      | [] => .ok none
      | suffix => do
          let (initSuffix, lastElement) ← splitLast suffix
          let rest ←
            if initSuffix.isEmpty then deepR (logicalPrefix tree) (logicalMiddle tree) []
            else makeDeep (logicalPrefix tree) (logicalMiddle tree) initSuffix
          .ok (some (rest, lastElement))
termination_by tree => (spine tree, 0)
decreasing_by
  rw [spine_logicalMiddle]
  exact Prod.Lex.left _ _ (lt_succ_self _)

end

def elemViewL : Elem α → Outcome (Option (α × Elem α))
  | .leaf _ => .ok none
  | .node reversed size children =>
      match hchildren : logicalChildren (.node reversed size children) with
      | [] => .ok none
      | .leaf value :: rest => do .ok (some (value, ← makeNodeOrChild rest))
      | child :: rest => do
          match ← elemViewL child with
          | some (value, remaining) => .ok (some (value, ← makeNodeOrChild (remaining :: rest)))
          | none => .ok none
termination_by element => elemWeight element
decreasing_by
  have hlt := digitWeight_logicalChildren reversed size children
  rw [hchildren] at hlt
  exact lt_of_le_of_lt (elemWeight_mem mem_cons_self) hlt

def elemViewR : Elem α → Outcome (Option (Elem α × α))
  | .leaf _ => .ok none
  | .node reversed size children =>
      if (logicalChildren (.node reversed size children)).isEmpty then .ok none
      else
        match hsplit : splitLast (logicalChildren (.node reversed size children)) with
        | .error problem => .error problem
        | .ok (front, .leaf value) => do .ok (some (← makeNodeOrChild front, value))
        | .ok (front, child) => do
            match ← elemViewR child with
            | some (remaining, value) =>
                .ok (some (← makeNodeOrChild (front ++ [remaining]), value))
            | none => .ok none
termination_by element => elemWeight element
decreasing_by
  exact lt_of_le_of_lt (elemWeight_mem (mem_of_splitLast hsplit))
    (digitWeight_logicalChildren reversed size children)

def nodes : List (Elem α) → Outcome (List (Elem α))
  | [a, b] => do .ok [← makeNode [a, b]]
  | [a, b, c] => do .ok [← makeNode [a, b, c]]
  | [a, b, c, d] => do .ok [← makeNode [a, b], ← makeNode [c, d]]
  | [a, b, c, d, e] => do .ok [← makeNode [a, b], ← makeNode [c, d, e]]
  | [a, b, c, d, e, f] => do .ok [← makeNode [a, b, c], ← makeNode [d, e, f]]
  | a :: b :: c :: rest => do
      let first ← makeNode [a, b, c]
      let others ← nodes rest
      .ok (first :: others)
  | _ => .error .nodes

def glue : Tree α → List (Elem α) → Tree α → Outcome (Tree α)
  | .empty, middle, right => middle.foldrM treeCons right
  | left, middle, .empty => middle.foldlM treeSnoc left
  | .single element, middle, right => do
      let rest ← middle.foldrM treeCons right
      treeCons element rest
  | left, middle, .single element => do
      let rest ← middle.foldlM treeSnoc left
      treeSnoc rest element
  | .deep leftReversed leftSize leftPrefix leftMiddle leftSuffix, middle,
      .deep rightReversed rightSize rightPrefix rightMiddle rightSuffix => do
      let left := Tree.deep leftReversed leftSize leftPrefix leftMiddle leftSuffix
      let right := Tree.deep rightReversed rightSize rightPrefix rightMiddle rightSuffix
      let combined := logicalSuffix left ++ middle ++ logicalPrefix right
      let bridge ← nodes combined
      let inner ← glue (logicalMiddle left) bridge (logicalMiddle right)
      makeDeep (logicalPrefix left) inner (logicalSuffix right)
termination_by left => spine left
decreasing_by
  rw [spine_logicalMiddle]
  exact lt_succ_self _

def treeConcat (left right : Tree α) : Outcome (Tree α) := glue left [] right

mutual

def elemGetLeaf : Elem α → Int → Outcome α
  | .leaf value, _ => .ok value
  | .node reversed size children, position =>
      getInDigit (logicalChildren (.node reversed size children)) position
termination_by element => (elemWeight element, 0)
decreasing_by exact Prod.Lex.left _ _ (digitWeight_logicalChildren reversed size children)

def getInDigit : List (Elem α) → Int → Outcome α
  | [], _ => .error .getInDigit
  | element :: rest, position =>
      if position < elemSize element then elemGetLeaf element position
      else getInDigit rest (position - elemSize element)
termination_by elements => (digitWeight elements, 1)
decreasing_by
  · rw [digitWeight]
    rcases Nat.eq_zero_or_pos (digitWeight rest) with hzero | hpos
    · rw [hzero]
      exact Prod.Lex.right _ Nat.one_pos
    · exact Prod.Lex.left _ _ (Nat.lt_add_of_pos_right hpos)
  · exact Prod.Lex.left _ _ (Nat.lt_add_of_pos_left (elemWeight_pos element))

end

def treeGetLeaf : Tree α → Int → Outcome α
  | .empty, _ => .error .treeGetLeaf
  | .single element, position => elemGetLeaf element position
  | .deep reversed size prefixDigit middle suffixDigit, position =>
      let tree := Tree.deep reversed size prefixDigit middle suffixDigit
      let prefixSize := ((logicalPrefix tree).map elemSize).sum
      let afterPrefix := position - prefixSize
      let middleSize := treeSize (logicalMiddle tree)
      if position < prefixSize then getInDigit (logicalPrefix tree) position
      else if afterPrefix < middleSize then treeGetLeaf (logicalMiddle tree) afterPrefix
      else getInDigit (logicalSuffix tree) (afterPrefix - middleSize)
termination_by tree => spine tree
decreasing_by
  rw [spine_logicalMiddle]
  exact lt_succ_self _

mutual

def buildElem : Elem α → List α → List α
  | .leaf value, rest => value :: rest
  | .node reversed size children, rest =>
      foldBuild (logicalChildren (.node reversed size children)) rest
termination_by element => (elemWeight element, 0)
decreasing_by exact Prod.Lex.left _ _ (digitWeight_logicalChildren reversed size children)

def foldBuild : List (Elem α) → List α → List α
  | [], rest => rest
  | element :: elements, rest => buildElem element (foldBuild elements rest)
termination_by elements => (digitWeight elements, 1)
decreasing_by
  · exact Prod.Lex.left _ _ (Nat.lt_add_of_pos_left (elemWeight_pos element))
  · rw [digitWeight]
    rcases Nat.eq_zero_or_pos (digitWeight elements) with hzero | hpos
    · rw [hzero]
      exact Prod.Lex.right _ Nat.one_pos
    · exact Prod.Lex.left _ _ (Nat.lt_add_of_pos_right hpos)

end

def buildTree : Tree α → List α → List α
  | .empty, rest => rest
  | .single element, rest => buildElem element rest
  | .deep reversed size prefixDigit middle suffixDigit, rest =>
      let tree := Tree.deep reversed size prefixDigit middle suffixDigit
      foldBuild (logicalPrefix tree)
        (buildTree (logicalMiddle tree) (foldBuild (logicalSuffix tree) rest))
termination_by tree => spine tree
decreasing_by
  rw [spine_logicalMiddle]
  exact lt_succ_self _

end Durable7.FingerTree.ReversibleDeque

/-! ## Deques -/

namespace Durable7.FingerTree

open Foundation ReversibleDeque

structure ReversibleDeque (α : Type) where
  tree : ReversibleDeque.Tree α

namespace ReversibleDeque

variable {α : Type}

def empty : ReversibleDeque α := ⟨.empty⟩

def singleton (value : α) : ReversibleDeque α := ⟨.single (.leaf value)⟩

def toList (deque : ReversibleDeque α) : List α := buildTree deque.tree []

def count (deque : ReversibleDeque α) : Int := treeSize deque.tree

def null (deque : ReversibleDeque α) : Bool := count deque == 0

def cons (value : α) (deque : ReversibleDeque α) : Outcome (ReversibleDeque α) := do
  .ok ⟨← treeCons (.leaf value) deque.tree⟩

def snoc (deque : ReversibleDeque α) (value : α) : Outcome (ReversibleDeque α) := do
  .ok ⟨← treeSnoc deque.tree (.leaf value)⟩

def fromList (values : List α) : Outcome (ReversibleDeque α) := values.foldlM snoc empty

def append (left right : ReversibleDeque α) : Outcome (ReversibleDeque α) := do
  .ok ⟨← treeConcat left.tree right.tree⟩

def reverse (deque : ReversibleDeque α) : ReversibleDeque α := ⟨treeMirror deque.tree⟩

def viewL (deque : ReversibleDeque α) : Outcome (Option (α × ReversibleDeque α)) := do
  match ← treeViewL deque.tree with
  | some (.leaf value, rest) => .ok (some (value, ⟨rest⟩))
  | some (element, rest) =>
      match ← elemViewL element with
      | some (value, remaining) =>
          let front ← elemToTree remaining
          let joined ← treeConcat front rest
          .ok (some (value, ⟨joined⟩))
      | none => .ok none
  | none => .ok none

def viewR (deque : ReversibleDeque α) : Outcome (Option (ReversibleDeque α × α)) := do
  match ← treeViewR deque.tree with
  | some (rest, .leaf value) => .ok (some (⟨rest⟩, value))
  | some (rest, element) =>
      match ← elemViewR element with
      | some (remaining, value) =>
          let back ← elemToTree remaining
          let joined ← treeConcat rest back
          .ok (some (⟨joined⟩, value))
      | none => .ok none
  | none => .ok none

def first (deque : ReversibleDeque α) : Outcome (Option α) := do
  .ok ((← viewL deque).map Prod.fst)

def last (deque : ReversibleDeque α) : Outcome (Option α) := do
  .ok ((← viewR deque).map Prod.snd)

def index (position : Int) (deque : ReversibleDeque α) : Outcome (Option α) :=
  if position < 0 ∨ position ≥ treeSize deque.tree then .ok none
  else do .ok (some (← treeGetLeaf deque.tree position))

/-! ### Cursors -/

structure Cursor (α : Type) where
  deque : ReversibleDeque α
  position : Int

def cursor (deque : ReversibleDeque α) : Cursor α := ⟨deque, 0⟩

def cursorAt (position : Int) (deque : ReversibleDeque α) : Option (Cursor α) :=
  if position < 0 ∨ position > count deque then none else some ⟨deque, position⟩

def cursorPosition (cursor : Cursor α) : Int := cursor.position

def cursorCount (cursor : Cursor α) : Int := count cursor.deque

def cursorIsAtStart (cursor : Cursor α) : Bool := cursorPosition cursor == 0

def cursorIsAtEnd (cursor : Cursor α) : Bool := cursorPosition cursor == cursorCount cursor

def cursorPeekPrevious (cursor : Cursor α) : Outcome (Option α) :=
  index (cursor.position - 1) cursor.deque

def cursorPeekNext (cursor : Cursor α) : Outcome (Option α) := index cursor.position cursor.deque

def cursorMovePrevious (cursor : Cursor α) : Option (Cursor α) :=
  cursorAt (cursor.position - 1) cursor.deque

def cursorMoveNext (cursor : Cursor α) : Option (Cursor α) :=
  if cursor.position = count cursor.deque then none
  else cursorAt (cursor.position + 1) cursor.deque

def cursorSeek (position : Int) (cursor : Cursor α) : Option (Cursor α) :=
  cursorAt position cursor.deque

def cursorInsertList (values : List α) (cursor : Cursor α) : Outcome (Cursor α) :=
  match values with
  | [] => .ok cursor
  | values => do
      let (left, right) := (toList cursor.deque).splitAt cursor.position.toNat
      .ok ⟨← fromList (left ++ values ++ right), cursor.position + values.length⟩

def cursorInsert (value : α) (cursor : Cursor α) : Outcome (Cursor α) :=
  cursorInsertList [value] cursor

def cursorDeletePrevious (cursor : Cursor α) : Outcome (Option (Cursor α)) :=
  if cursor.position = 0 then .ok none
  else do
    let values := toList cursor.deque
    let made ← fromList
      (values.take (cursor.position - 1).toNat ++ values.drop cursor.position.toNat)
    .ok (some ⟨made, cursor.position - 1⟩)

def cursorDeleteNext (cursor : Cursor α) : Outcome (Option (Cursor α)) :=
  if cursor.position = count cursor.deque then .ok none
  else do
    let values := toList cursor.deque
    let made ← fromList
      (values.take cursor.position.toNat ++ values.drop (cursor.position + 1).toNat)
    .ok (some ⟨made, cursor.position⟩)

def cursorReplaceNext (value : α) (cursor : Cursor α) : Outcome (Option (Cursor α)) :=
  if cursor.position = count cursor.deque then .ok none
  else do
    let values := toList cursor.deque
    let made ← fromList
      (values.take cursor.position.toNat ++ value :: values.drop (cursor.position + 1).toNat)
    .ok (some ⟨made, cursor.position⟩)

def cursorReverse (cursor : Cursor α) : Cursor α :=
  ⟨reverse cursor.deque, count cursor.deque - cursor.position⟩

def cursorSnapshot (cursor : Cursor α) : ReversibleDeque α := cursor.deque

end ReversibleDeque

end Durable7.FingerTree
