import Durable7.FingerTree.IncrementalAncestor
import Durable7.FingerTree.RrbVector.Node
import Mathlib.Data.List.Induction

/-!
# An ancestral slice queue

A handle is an interval of depths on the root path of a node of a shared forest.  An empty
handle keeps the node before its interval as its anchor.
-/

namespace Durable7.FingerTree

structure AncestralSliceQueue (α : Type) where
  node : IncrementalAncestor.Node α
  low : Int
  visible : Int

namespace AncestralSliceQueue

open IncrementalAncestor (Node addLeaf nodeDepth nodeParent nodeValue ancestorAtDepth)
open RrbVector (maxBound)

variable {α : Type}

/-- What the source raises. -/
inductive QueueError where
  | visibleCountOverflow
  | unlabelledPosition
  | noParentLink
  | outsideRetainedPath
  | negativeDepth
  | ancestryDepthOverflow
  deriving DecidableEq

structure ValidationStatistics where
  validationCount : Int
  validationLowDepth : Int
  validationAnchorDepth : Int
  validationTailDepth : Int
  validationPathLength : Nat
  validationJumpLinkCount : Nat

def expectValue (node : Node α) : Except QueueError α :=
  (nodeValue node).elim (.error .unlabelledPosition) .ok

def expectParent (node : Node α) : Except QueueError (Node α) :=
  (nodeParent node).elim (.error .noParentLink) .ok

def expectAncestor (node : Node α) (depth : Int) : Except QueueError (Node α) :=
  (ancestorAtDepth node depth).elim (.error .outsideRetainedPath) .ok

def checkedAdd (left right : Int) : Except QueueError Int :=
  if left < 0 ∨ right < 0 then .error .negativeDepth
  else if right > maxBound - left then .error .ancestryDepthOverflow
  else .ok (left + right)

def both {β γ : Type} (left : Option β) (right : Option γ) : Option (β × γ) :=
  left.bind fun leftValue => right.map fun rightValue => (leftValue, rightValue)

def empty : AncestralSliceQueue α := ⟨.bottom, 0, 0⟩

def addLast (queue : AncestralSliceQueue α) (value : α) :
    Except QueueError (AncestralSliceQueue α) :=
  if queue.visible = maxBound then .error .visibleCountOverflow
  else .ok ⟨addLeaf queue.node value, queue.low, queue.visible + 1⟩

def fromList (values : List α) : Except QueueError (AncestralSliceQueue α) :=
  values.foldlM addLast empty

def walk (node : Node α) (suffix : List α) : Nat → Except QueueError (List α)
  | 0 => .ok suffix
  | 1 => (expectValue node).map fun value => value :: suffix
  | remaining + 2 =>
      (expectParent node).bind fun parent => (expectValue node).bind fun value =>
        walk parent (value :: suffix) (remaining + 1)

def toList (queue : AncestralSliceQueue α) : Except QueueError (List α) :=
  walk queue.node [] queue.visible.toNat

def count (queue : AncestralSliceQueue α) : Int := queue.visible

def null (queue : AncestralSliceQueue α) : Bool := count queue == 0

def index (position : Int) (queue : AncestralSliceQueue α) : Except QueueError (Option α) :=
  if position < 0 ∨ position ≥ queue.visible then .ok none
  else if position = queue.visible - 1 then (expectValue queue.node).map some
  else
    (checkedAdd queue.low position).bind fun depth =>
      (expectAncestor queue.node depth).bind fun node => (expectValue node).map some

def first (queue : AncestralSliceQueue α) : Except QueueError (Option α) := index 0 queue

def last (queue : AncestralSliceQueue α) : Except QueueError (Option α) :=
  if queue.visible = 0 then .ok none else (expectValue queue.node).map some

def removeFirst (queue : AncestralSliceQueue α) :
    Except QueueError (Option (AncestralSliceQueue α)) :=
  if queue.visible = 0 then .ok none
  else (checkedAdd queue.low 1).map fun low => some ⟨queue.node, low, queue.visible - 1⟩

def removeLast (queue : AncestralSliceQueue α) :
    Except QueueError (Option (AncestralSliceQueue α)) :=
  if queue.visible = 0 then .ok none
  else (expectParent queue.node).map fun parent => some ⟨parent, queue.low, queue.visible - 1⟩

def selectTail (queue : AncestralSliceQueue α) (targetDepth currentTailDepth : Int) :
    Except QueueError (Node α) :=
  if targetDepth = currentTailDepth then .ok queue.node
  else expectAncestor queue.node targetDepth

def slice (position amount : Int) (queue : AncestralSliceQueue α) :
    Except QueueError (Option (AncestralSliceQueue α)) :=
  if position < 0 ∨ amount < 0 then .ok none
  else if position > queue.visible then .ok none
  else if amount > queue.visible - position then .ok none
  else if position = 0 ∧ amount = queue.visible then .ok (some queue)
  else
    (checkedAdd queue.low position).bind fun windowLow =>
      (checkedAdd windowLow amount).bind fun windowEnd =>
        (checkedAdd queue.low queue.visible).bind fun currentEnd =>
          (selectTail queue (windowEnd - 1) (currentEnd - 1)).map fun selected =>
            some ⟨selected, windowLow, amount⟩

def take (amount : Int) (queue : AncestralSliceQueue α) :
    Except QueueError (Option (AncestralSliceQueue α)) :=
  if amount < 0 ∨ amount > queue.visible then .ok none
  else if amount = queue.visible then .ok (some queue)
  else slice 0 amount queue

def drop (amount : Int) (queue : AncestralSliceQueue α) :
    Except QueueError (Option (AncestralSliceQueue α)) :=
  if amount < 0 ∨ amount > queue.visible then .ok none
  else if amount = 0 then .ok (some queue)
  else (checkedAdd queue.low amount).map fun low => some ⟨queue.node, low, queue.visible - amount⟩

def splitAt (position : Int) (queue : AncestralSliceQueue α) :
    Except QueueError (Option (AncestralSliceQueue α × AncestralSliceQueue α)) :=
  (take position queue).bind fun left => (drop position queue).map fun right => both left right

/-- The walk stops at the anchor's depth, or at the bottom node. -/
def walkWindow (low : Int) : Node α → Int → Except String Int
  | .bottom, visited =>
      if -1 = low - 1 then .ok visited
      else .error "A visible window extends past the unlabelled bottom node."
  | .labelled _ parent depth _ _, visited =>
      if depth = low - 1 then .ok visited else walkWindow low parent (visited + 1)

def validateStructure (queue : AncestralSliceQueue α) : Except String ValidationStatistics :=
  if queue.visible < 0 then
    .error ("A visible count of " ++ toString queue.visible ++ " is negative.")
  else if queue.low < 0 then .error ("A low depth of " ++ toString queue.low ++ " is negative.")
  else if nodeDepth queue.node ≠ queue.low + queue.visible - 1 then
    .error ("A tail at depth " ++ toString (nodeDepth queue.node) ++
      " does not close a window of " ++ toString queue.visible ++
      " values starting at depth " ++ toString queue.low ++ ".")
  else
    (IncrementalAncestor.validateStructure queue.node).bind fun pathStatistics =>
      (walkWindow queue.low queue.node 0).bind fun walked =>
        if walked ≠ queue.visible then
          .error ("A window walk visited " ++ toString walked ++ " labelled nodes instead of " ++
            toString queue.visible ++ ".")
        else .ok {
          validationCount := walked
          validationLowDepth := queue.low
          validationAnchorDepth := queue.low - 1
          validationTailDepth := nodeDepth queue.node
          validationPathLength := pathStatistics.ancestorPathLength
          validationJumpLinkCount := pathStatistics.ancestorJumpLinkCount }

end AncestralSliceQueue

end Durable7.FingerTree

/-!
## Ancestral slice queues as lists

A handle shows the part of its node's root path from its low depth on.  The paths stay within
the number of values ever added, so that no depth leaves the source's `Int`.
-/

namespace Durable7.FingerTree.AncestralSliceQueue

open IncrementalAncestor (Node IsAncestor Sound addLeaf ancestorAtDepth ancestorAtDepth_spec
  nodeDepth nodeParent nodeValue path path_addLeaf sound_addLeaf)

open RrbVector (maxBound)
open Foundation List

variable {α : Type}

/-- `before` is what the root path has below the window. -/
structure Window (queue : AncestralSliceQueue α) (before values : List α) : Prop where
  sound : Sound queue.node
  shown : path queue.node = before ++ values
  low_eq : queue.low = before.length
  counted : queue.visible = values.length

structure Refines (additions : Nat) (queue : AncestralSliceQueue α) (values : List α) : Prop where
  window : ∃ before, Window queue before values
  bounded : (path queue.node).length ≤ additions

theorem Refines.mono {additions : Nat} {queue : AncestralSliceQueue α} {values : List α}
    (h : Refines additions queue values) (more : Nat) : Refines (additions + more) queue values :=
  ⟨h.window, Nat.le_trans h.bounded (Nat.le_add_right _ _)⟩

theorem checkedAdd_ok {left right : Int} (hleft : 0 ≤ left) (hright : 0 ≤ right)
    (h : left + right ≤ maxBound) : checkedAdd left right = .ok (left + right) := by
  rw [checkedAdd, if_neg (by omega), if_neg (by omega)]

section Window

variable {queue : AncestralSliceQueue α} {before values : List α}

theorem Window.length_eq (h : Window queue before values) :
    (path queue.node).length = before.length + values.length := by
  rw [h.shown, length_append]

theorem Window.depth_eq (h : Window queue before values) :
    nodeDepth queue.node = before.length + values.length - 1 := by
  rw [h.sound.nodeDepth_eq, h.length_eq, Int.natCast_add]

theorem ends_with {node : Node α} (hsound : Sound node) {front : List α} {value : α}
    (h : path node = front ++ [value]) :
    expectValue node = .ok value ∧
      ∃ parent, expectParent node = .ok parent ∧ Sound parent ∧ path parent = front := by
  cases hsound with
  | bottom => exact absurd h (by simp [path])
  | @labelled stored parent skip depth skipDistance hparent _ _ _ =>
      rw [path] at h
      obtain ⟨hfront, hvalue⟩ := append_inj' h rfl
      rw [singleton_inj] at hvalue
      exact ⟨by rw [← hvalue]; rfl, parent, rfl, hparent, hfront⟩

theorem expectAncestor_spec (h : Window queue before values) {amount : Nat}
    (hamount : amount ≤ (path queue.node).length) {depth : Int} (hdepth : depth = amount - 1) :
    ∃ found, expectAncestor queue.node depth = .ok found ∧ Sound found ∧
      path found = (path queue.node).take amount := by
  have hnode := h.sound.nodeDepth_eq
  obtain ⟨found, hfound, hancestor, hlength⟩ :=
    @ancestorAtDepth_spec _ _ h.sound depth (by omega) (by omega)
  refine ⟨found, by rw [expectAncestor, hfound]; rfl, h.sound.ancestor hancestor, ?_⟩
  have hpath := hancestor.path_eq
  rwa [show (path found).length = amount by omega] at hpath

theorem walk_spec {node : Node α} (hsound : Sound node) (front values suffix : List α)
    (h : path node = front ++ values) :
    walk node suffix values.length = .ok (values ++ suffix) := by
  induction values using List.reverseRecOn generalizing node suffix with
  | nil => rfl
  | append_singleton values value ih =>
      rw [← append_assoc] at h
      obtain ⟨hvalue, parent, hparent, hparentSound, hpath⟩ := ends_with hsound h
      rw [length_append, length_singleton]
      cases values with
      | nil =>
          rw [length_nil, walk, hvalue]
          rfl
      | cons first rest =>
          have hrest := ih hparentSound (value :: suffix) hpath
          rw [length_cons] at hrest ⊢
          rw [walk, hparent, except_bind_ok, hvalue, except_bind_ok, hrest]
          simp

section

variable (h : Window queue before values)
include h

theorem Window.toList_eq : toList queue = .ok values := by
  rw [toList, h.counted, Int.toNat_natCast, walk_spec h.sound before values [] h.shown, append_nil]

theorem Window.low_add {amount : Nat}
    (hamount : amount ≤ values.length) (hroom : (path queue.node).length ≤ maxBound) :
    checkedAdd queue.low amount = .ok (queue.low + amount) := by
  have hlength := h.length_eq
  have hlow := h.low_eq
  exact checkedAdd_ok (by omega) (by omega) (by omega)

theorem Window.dropped {amount : Nat} (hamount : amount ≤ values.length) :
    Window ⟨queue.node, queue.low + amount, queue.visible - amount⟩
      (before ++ values.take amount) (values.drop amount) where
  sound := h.sound
  shown := by
    rw [append_assoc, take_append_drop]
    exact h.shown
  low_eq := by
    have hlow := h.low_eq
    rw [length_append, length_take]
    dsimp only
    omega
  counted := by
    have hcounted := h.counted
    rw [length_drop]
    dsimp only
    omega

theorem Window.sliced {position amount : Nat}
    (hinside : position + amount ≤ values.length) {found : Node α} (hsound : Sound found)
    (hpath : path found = (path queue.node).take (before.length + position + amount)) :
    Window ⟨found, queue.low + position, amount⟩ (before ++ values.take position)
      ((values.drop position).take amount) where
  sound := hsound
  shown := by
    dsimp only
    rw [hpath, h.shown, Nat.add_assoc, take_length_add_append, append_assoc, take_add]
  low_eq := by
    have hlow := h.low_eq
    rw [length_append, length_take]
    dsimp only
    omega
  counted := by
    rw [length_take, length_drop]
    dsimp only
    omega

end

end Window

end Durable7.FingerTree.AncestralSliceQueue
