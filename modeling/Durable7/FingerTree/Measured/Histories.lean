import Durable7.FingerTree.Measured.Cursors

/-!
# Histories of trees and cursors

A history is a finite expression over the operations on any earlier versions.  A tree
stands for a list and a cursor for a gap in one.  Where the predicate of a split turns
true more than once, the list does not say which of these places is taken.
-/

namespace Durable7.FingerTree.Measured

open Foundation

variable {v α : Type}

mutual

inductive TreeHistory (v α : Type) where
  | empty
  | singleton (value : α)
  | fromList (values : List α)
  | cons (value : α) (history : TreeHistory v α)
  | snoc (history : TreeHistory v α) (value : α)
  | append (left right : TreeHistory v α)
  | restL (history : TreeHistory v α)
  | restR (history : TreeHistory v α)
  | splitLeft (predicate : v → Bool) (history : TreeHistory v α)
  | splitRight (predicate : v → Bool) (history : TreeHistory v α)
  | snapshot (history : CursorHistory v α)

inductive CursorHistory (v α : Type) where
  | atStart (history : TreeHistory v α)
  | atEnd (history : TreeHistory v α)
  | byMeasure (predicate : v → Bool) (history : TreeHistory v α)
  | movePrevious (history : CursorHistory v α)
  | moveNext (history : CursorHistory v α)
  | seekByMeasure (predicate : v → Bool) (history : CursorHistory v α)
  | insert (value : α) (history : CursorHistory v α)
  | deletePrevious (history : CursorHistory v α)
  | deleteNext (history : CursorHistory v α)
  | replaceNext (value : α) (history : CursorHistory v α)

end

variable [Monoid v] [Measured v α]

/-- A refused step keeps the cursor. -/
def orStay (step : Cursor v α → Except MeasuredError (Option (Cursor v α)))
    (cursor : Cursor v α) : Except MeasuredError (Cursor v α) := do
  let moved ← step cursor
  .ok (moved.getD cursor)

mutual

def TreeHistory.eval : TreeHistory v α → Except MeasuredError (FingerTree v α)
  | .empty => .ok .empty
  | .singleton value => .ok (.single value)
  | .fromList values => Measured.fromList values
  | .cons value history => do Measured.cons value (← history.eval)
  | .snoc history value => do Measured.snoc (← history.eval) value
  | .append left right => do Measured.append (← left.eval) (← right.eval)
  | .restL history => do
      let tree ← history.eval
      match viewL tree with
      | .emptyL => .ok tree
      | .consL _ rest => .ok rest
  | .restR history => do
      let tree ← history.eval
      match viewR tree with
      | .emptyR => .ok tree
      | .snocR rest _ => .ok rest
  | .splitLeft predicate history => do
      let tree ← history.eval
      match ← split predicate tree with
      | some (left, _, _) => .ok left
      | none => .ok tree
  | .splitRight predicate history => do
      let tree ← history.eval
      match ← split predicate tree with
      | some (_, _, right) => .ok right
      | none => .ok tree
  | .snapshot history => do
      let cursor ← history.eval
      .ok cursor.snapshot

def CursorHistory.eval : CursorHistory v α → Except MeasuredError (Cursor v α)
  | .atStart history => do
      let tree ← history.eval
      .ok (cursorAtStart tree)
  | .atEnd history => do
      let tree ← history.eval
      .ok (cursorAtEnd tree)
  | .byMeasure predicate history => do
      let search ← cursorByMeasure predicate (← history.eval)
      .ok search.cursor
  | .movePrevious history => do orStay cursorMovePrevious (← history.eval)
  | .moveNext history => do orStay cursorMoveNext (← history.eval)
  | .seekByMeasure predicate history => do
      let search ← cursorSeekByMeasure predicate (← history.eval)
      .ok search.cursor
  | .insert value history => do cursorInsert value (← history.eval)
  | .deletePrevious history => do orStay cursorDeletePrevious (← history.eval)
  | .deleteNext history => do orStay cursorDeleteNext (← history.eval)
  | .replaceNext value history => do orStay (cursorReplaceNext value) (← history.eval)

end

/-- The list of a split that keeps the left part. -/
def SplitLeft (predicate : v → Bool) (values left : List α) : Prop :=
  (∃ value right, Flips predicate values left value right) ∨
    ((values = [] ∨ predicate (foldMeasure values) = false) ∧ left = values)

def SplitRight (predicate : v → Bool) (values right : List α) : Prop :=
  (∃ left value, Flips predicate values left value right) ∨
    ((values = [] ∨ predicate (foldMeasure values) = false) ∧ right = values)

mutual

inductive TreeHistory.Denotes : TreeHistory v α → List α → Prop
  | empty : TreeHistory.Denotes .empty []
  | singleton (value : α) : TreeHistory.Denotes (.singleton value) [value]
  | fromList (values : List α) : TreeHistory.Denotes (.fromList values) values
  | cons {value : α} {history : TreeHistory v α} {values : List α} :
      TreeHistory.Denotes history values →
        TreeHistory.Denotes (.cons value history) (value :: values)
  | snoc {value : α} {history : TreeHistory v α} {values : List α} :
      TreeHistory.Denotes history values →
      TreeHistory.Denotes (.snoc history value) (values ++ [value])
  | append {left right : TreeHistory v α} {values others : List α} :
      TreeHistory.Denotes left values → TreeHistory.Denotes right others →
      TreeHistory.Denotes (.append left right) (values ++ others)
  | restL {history : TreeHistory v α} {values : List α} :
      TreeHistory.Denotes history values → TreeHistory.Denotes (.restL history) values.tail
  | restR {history : TreeHistory v α} {values : List α} :
      TreeHistory.Denotes history values → TreeHistory.Denotes (.restR history) values.dropLast
  | splitLeft {predicate : v → Bool} {history : TreeHistory v α} {values left : List α} :
      TreeHistory.Denotes history values → SplitLeft predicate values left →
      TreeHistory.Denotes (.splitLeft predicate history) left
  | splitRight {predicate : v → Bool} {history : TreeHistory v α} {values right : List α} :
      TreeHistory.Denotes history values → SplitRight predicate values right →
      TreeHistory.Denotes (.splitRight predicate history) right
  | snapshot {history : CursorHistory v α} {gap : Gap α} :
      CursorHistory.Denotes history gap → TreeHistory.Denotes (.snapshot history) gap.values

inductive CursorHistory.Denotes : CursorHistory v α → Gap α → Prop
  | atStart {history : TreeHistory v α} {values : List α} :
      TreeHistory.Denotes history values → CursorHistory.Denotes (.atStart history) ⟨[], values⟩
  | atEnd {history : TreeHistory v α} {values : List α} :
      TreeHistory.Denotes history values → CursorHistory.Denotes (.atEnd history) ⟨values, []⟩
  | byMeasure {predicate : v → Bool} {history : TreeHistory v α} {values : List α} {gap : Gap α} :
      TreeHistory.Denotes history values → SearchedTo predicate values gap →
      CursorHistory.Denotes (.byMeasure predicate history) gap
  | movePrevious {history : CursorHistory v α} {gap : Gap α} :
      CursorHistory.Denotes history gap →
      CursorHistory.Denotes (.movePrevious history) (gap.movePrevious.getD gap)
  | moveNext {history : CursorHistory v α} {gap : Gap α} :
      CursorHistory.Denotes history gap →
      CursorHistory.Denotes (.moveNext history) (gap.moveNext.getD gap)
  | seekByMeasure {predicate : v → Bool} {history : CursorHistory v α} {gap found : Gap α} :
      CursorHistory.Denotes history gap → SearchedTo predicate gap.values found →
      CursorHistory.Denotes (.seekByMeasure predicate history) found
  | insert {value : α} {history : CursorHistory v α} {gap : Gap α} :
      CursorHistory.Denotes history gap →
      CursorHistory.Denotes (.insert value history) (gap.insert value)
  | deletePrevious {history : CursorHistory v α} {gap : Gap α} :
      CursorHistory.Denotes history gap →
      CursorHistory.Denotes (.deletePrevious history) (gap.deletePrevious.getD gap)
  | deleteNext {history : CursorHistory v α} {gap : Gap α} :
      CursorHistory.Denotes history gap →
      CursorHistory.Denotes (.deleteNext history) (gap.deleteNext.getD gap)
  | replaceNext {value : α} {history : CursorHistory v α} {gap : Gap α} :
      CursorHistory.Denotes history gap →
      CursorHistory.Denotes (.replaceNext value history) ((gap.replaceNext value).getD gap)

end

/-! ## Refinement -/

theorem orStay_shows {step : Cursor v α → Except MeasuredError (Option (Cursor v α))}
    {cursor : Cursor v α} {gap : Gap α} {result : Option (Gap α)} (h : Shows cursor gap)
    (hstep : StepShows (step cursor) result) :
    ∃ cursor', orStay step cursor = .ok cursor' ∧ Shows cursor' (result.getD gap) := by
  unfold orStay
  rcases hstep with ⟨houtcome, rfl⟩ | ⟨moved, movedGap, houtcome, rfl, hmoved⟩
  · rw [houtcome]
    exact ⟨cursor, rfl, h⟩
  · rw [houtcome]
    exact ⟨moved, rfl, hmoved⟩

/-- A tree is valid and stands for a list that its history denotes. -/
def TreeRefines (history : TreeHistory v α) : Prop :=
  ∃ tree, history.eval = .ok tree ∧ Valid (Layer.base v α) tree ∧ history.Denotes (elements tree)

def CursorRefines (history : CursorHistory v α) : Prop :=
  ∃ cursor gap, history.eval = .ok cursor ∧ Shows cursor gap ∧ history.Denotes gap

theorem treeRefines_of_yields {history : TreeHistory v α}
    {outcome : Except MeasuredError (FingerTree v α)} {values : List α}
    (heval : history.eval = outcome) (h : Yields (Layer.base v α) outcome values)
    (hdenotes : history.Denotes values) : TreeRefines history := by
  obtain ⟨tree, houtcome, hvalid, helements⟩ := h
  exact ⟨tree, heval.trans houtcome, hvalid, helements ▸ hdenotes⟩

mutual

theorem TreeHistory.refines : ∀ history : TreeHistory v α, TreeRefines history
  | .empty => ⟨.empty, rfl, trivial, .empty⟩
  | .singleton value => ⟨.single value, rfl, trivial, .singleton value⟩
  | .fromList values =>
      treeRefines_of_yields rfl (fromList_yields base_sound fun _ _ => trivial) (.fromList values)
  | .cons value history => by
      obtain ⟨tree, heval, hvalid, hdenotes⟩ := history.refines
      refine treeRefines_of_yields ?_
        (cons_yields base_sound (show (Layer.base v α).Cached value from trivial) hvalid)
        (.cons hdenotes)
      rw [TreeHistory.eval, heval]
      rfl
  | .snoc history value => by
      obtain ⟨tree, heval, hvalid, hdenotes⟩ := history.refines
      refine treeRefines_of_yields ?_
        (snoc_yields base_sound (show (Layer.base v α).Cached value from trivial) hvalid)
        (.snoc hdenotes)
      rw [TreeHistory.eval, heval]
      rfl
  | .append left right => by
      obtain ⟨tree, heval, hvalid, hdenotes⟩ := left.refines
      obtain ⟨other, heval', hvalid', hdenotes'⟩ := right.refines
      refine treeRefines_of_yields ?_ (append_yields base_sound hvalid hvalid')
        (.append hdenotes hdenotes')
      rw [TreeHistory.eval, heval, heval']
      rfl
  | .restL history => by
      obtain ⟨tree, heval, hvalid, hdenotes⟩ := history.refines
      have hview := viewL_valid base_sound hvalid
      have helements := elements_viewL tree
      have hrest := TreeHistory.Denotes.restL hdenotes
      cases hcase : viewL tree with
      | emptyL =>
          rw [hcase] at helements
          refine ⟨tree, ?_, hvalid, ?_⟩
          · rw [TreeHistory.eval, heval, except_ok_bind, hcase]
          · rw [← helements] at hrest ⊢
            exact hrest
      | consL value rest =>
          rw [hcase] at helements hview
          refine ⟨rest, ?_, hview.2, ?_⟩
          · rw [TreeHistory.eval, heval, except_ok_bind, hcase]
          · rw [← helements] at hrest
            exact hrest
  | .restR history => by
      obtain ⟨tree, heval, hvalid, hdenotes⟩ := history.refines
      have hview := viewR_valid base_sound hvalid
      have helements := elements_viewR tree
      have hrest := TreeHistory.Denotes.restR hdenotes
      cases hcase : viewR tree with
      | emptyR =>
          rw [hcase] at helements
          refine ⟨tree, ?_, hvalid, ?_⟩
          · rw [TreeHistory.eval, heval, except_ok_bind, hcase]
          · rw [← helements] at hrest ⊢
            exact hrest
      | snocR rest value =>
          rw [hcase] at helements hview
          refine ⟨rest, ?_, hview.2, ?_⟩
          · rw [TreeHistory.eval, heval, except_ok_bind, hcase]
          · rw [← helements, ViewR.elements, List.dropLast_concat] at hrest
            exact hrest
  | .splitLeft predicate history => by
      obtain ⟨tree, heval, hvalid, hdenotes⟩ := history.refines
      rcases split_spec hvalid predicate with ⟨left, value, right, hsplit, hleft, hright, hflips⟩ |
        ⟨hsplit, hmissed⟩
      · refine ⟨left, ?_, hleft, .splitLeft hdenotes (.inl ⟨value, _, hflips⟩)⟩
        rw [TreeHistory.eval, heval, except_ok_bind, hsplit]
        rfl
      · refine ⟨tree, ?_, hvalid, .splitLeft hdenotes (.inr ⟨hmissed, rfl⟩)⟩
        rw [TreeHistory.eval, heval, except_ok_bind, hsplit]
        rfl
  | .splitRight predicate history => by
      obtain ⟨tree, heval, hvalid, hdenotes⟩ := history.refines
      rcases split_spec hvalid predicate with ⟨left, value, right, hsplit, hleft, hright, hflips⟩ |
        ⟨hsplit, hmissed⟩
      · refine ⟨right, ?_, hright, .splitRight hdenotes (.inl ⟨_, value, hflips⟩)⟩
        rw [TreeHistory.eval, heval, except_ok_bind, hsplit]
        rfl
      · refine ⟨tree, ?_, hvalid, .splitRight hdenotes (.inr ⟨hmissed, rfl⟩)⟩
        rw [TreeHistory.eval, heval, except_ok_bind, hsplit]
        rfl
  | .snapshot history => by
      obtain ⟨cursor, gap, heval, hshows, hdenotes⟩ := history.refines
      refine ⟨cursor.snapshot, ?_, hshows.snapshot_valid, ?_⟩
      · rw [TreeHistory.eval, heval]
        rfl
      · rw [hshows.snapshot_eq]
        exact .snapshot hdenotes

theorem CursorHistory.refines : ∀ history : CursorHistory v α, CursorRefines history
  | .atStart history => by
      obtain ⟨tree, heval, hvalid, hdenotes⟩ := history.refines
      refine ⟨cursorAtStart tree, _, ?_, cursorAtStart_shows hvalid, .atStart hdenotes⟩
      rw [CursorHistory.eval, heval]
      rfl
  | .atEnd history => by
      obtain ⟨tree, heval, hvalid, hdenotes⟩ := history.refines
      refine ⟨cursorAtEnd tree, _, ?_, cursorAtEnd_shows hvalid, .atEnd hdenotes⟩
      rw [CursorHistory.eval, heval]
      rfl
  | .byMeasure predicate history => by
      obtain ⟨tree, heval, hvalid, hdenotes⟩ := history.refines
      obtain ⟨search, gap, hsearch, hshows, hsearched, -⟩ := cursorByMeasure_shows hvalid predicate
      refine ⟨search.cursor, gap, ?_, hshows, .byMeasure hdenotes hsearched⟩
      rw [CursorHistory.eval, heval, except_ok_bind, hsearch]
      rfl
  | .seekByMeasure predicate history => by
      obtain ⟨cursor, gap, heval, hshows, hdenotes⟩ := history.refines
      obtain ⟨search, found, hsearch, hfound, hsearched, -⟩ :=
        cursorByMeasure_shows hshows.snapshot_valid predicate
      rw [hshows.snapshot_eq] at hsearched
      refine ⟨search.cursor, found, ?_, hfound, .seekByMeasure hdenotes hsearched⟩
      rw [CursorHistory.eval, heval, except_ok_bind, cursorSeekByMeasure, hsearch]
      rfl
  | .insert value history => by
      obtain ⟨cursor, gap, heval, hshows, hdenotes⟩ := history.refines
      obtain ⟨cursor', hinsert, hinserted⟩ := cursorInsert_shows hshows value
      refine ⟨cursor', _, ?_, hinserted, .insert hdenotes⟩
      rw [CursorHistory.eval, heval]
      exact hinsert
  | .movePrevious history => by
      obtain ⟨cursor, gap, heval, hshows, hdenotes⟩ := history.refines
      obtain ⟨cursor', hstep, hmoved⟩ := orStay_shows hshows (cursorMovePrevious_shows hshows)
      refine ⟨cursor', _, ?_, hmoved, .movePrevious hdenotes⟩
      rw [CursorHistory.eval, heval]
      exact hstep
  | .moveNext history => by
      obtain ⟨cursor, gap, heval, hshows, hdenotes⟩ := history.refines
      obtain ⟨cursor', hstep, hmoved⟩ := orStay_shows hshows (cursorMoveNext_shows hshows)
      refine ⟨cursor', _, ?_, hmoved, .moveNext hdenotes⟩
      rw [CursorHistory.eval, heval]
      exact hstep
  | .deletePrevious history => by
      obtain ⟨cursor, gap, heval, hshows, hdenotes⟩ := history.refines
      obtain ⟨cursor', hstep, hmoved⟩ := orStay_shows hshows (cursorDeletePrevious_shows hshows)
      refine ⟨cursor', _, ?_, hmoved, .deletePrevious hdenotes⟩
      rw [CursorHistory.eval, heval]
      exact hstep
  | .deleteNext history => by
      obtain ⟨cursor, gap, heval, hshows, hdenotes⟩ := history.refines
      obtain ⟨cursor', hstep, hmoved⟩ := orStay_shows hshows (cursorDeleteNext_shows hshows)
      refine ⟨cursor', _, ?_, hmoved, .deleteNext hdenotes⟩
      rw [CursorHistory.eval, heval]
      exact hstep
  | .replaceNext value history => by
      obtain ⟨cursor, gap, heval, hshows, hdenotes⟩ := history.refines
      obtain ⟨cursor', hstep, hmoved⟩ := orStay_shows hshows (cursorReplaceNext_shows hshows value)
      refine ⟨cursor', _, ?_, hmoved, .replaceNext hdenotes⟩
      rw [CursorHistory.eval, heval]
      exact hstep

end

/-- The views of a tree against its list. -/
def ViewsRefine (tree : FingerTree v α) : Prop :=
  (match viewL tree with
    | .emptyL => toList tree = []
    | .consL value rest => toList tree = value :: toList rest) ∧
  match viewR tree with
    | .emptyR => toList tree = []
    | .snocR rest value => toList tree = toList rest ++ [value]

theorem viewsRefine (tree : FingerTree v α) : ViewsRefine tree := by
  have hleft := elements_viewL tree
  have hright := elements_viewR tree
  unfold ViewsRefine
  constructor
  · cases hcase : viewL tree with
    | emptyL =>
        rw [hcase] at hleft
        rw [toList_eq]
        exact hleft.symm
    | consL value rest =>
        rw [hcase] at hleft
        dsimp only
        rw [toList_eq, toList_eq]
        exact hleft.symm
  · cases hcase : viewR tree with
    | emptyR =>
        rw [hcase] at hright
        rw [toList_eq]
        exact hright.symm
    | snocR rest value =>
        rw [hcase] at hright
        dsimp only
        rw [toList_eq, toList_eq]
        exact hright.symm

/-- Every history of trees computes a tree of the list it denotes, with all caches right, and
every split from a left context stops where the predicate turns true.  Every history of cursors
computes a cursor whose sides make up its snapshot. -/
theorem histories_refine :
    (∀ history : TreeHistory v α, ∃ tree, history.eval = .ok tree ∧
      history.Denotes (toList tree) ∧ Valid (Layer.base v α) tree ∧
      measureTree tree = foldMeasure (toList tree) ∧ ViewsRefine tree ∧
      ∀ (predicate : v → Bool) (accumulated : v), predicate accumulated = false →
        predicate (accumulated * measureTree tree) = true →
        ∃ left value right, splitTree predicate accumulated tree = .ok (left, value, right) ∧
          (accumulated = 1 → split predicate tree = .ok (some (left, value, right))) ∧
          toList left ++ [value] ++ toList right = toList tree ∧
          Valid (Layer.base v α) left ∧ Valid (Layer.base v α) right ∧
          predicate (accumulated * measureTree left) = false ∧
          predicate (accumulated * measureTree left * measure value) = true) ∧
    ∀ history : CursorHistory v α, ∃ cursor gap, history.eval = .ok cursor ∧ history.Denotes gap ∧
      toList cursor.left = gap.before ∧ toList cursor.right = gap.after ∧
      toList cursor.left ++ toList cursor.right = toList cursor.snapshot ∧
      Valid (Layer.base v α) cursor.left ∧ Valid (Layer.base v α) cursor.right ∧
      Valid (Layer.base v α) cursor.snapshot := by
  constructor
  · intro history
    obtain ⟨tree, heval, hvalid, hdenotes⟩ := history.refines
    refine ⟨tree, heval, ?_, hvalid, ?_, viewsRefine tree, ?_⟩
    · rwa [toList_eq]
    · rw [toList_eq, measureTree_base hvalid]
    · intro predicate accumulated hbefore hreached
      have hnonempty : null tree = false := by
        cases tree with
        | empty =>
            rw [measureTree, mul_one, hbefore] at hreached
            cases hreached
        | single value => rfl
        | deep => rfl
      obtain ⟨left, value, right, hsplit, hparts⟩ :=
        splitTree_spec base_sound hvalid hnonempty hreached
      have hleft := measureTree_base hparts.left_valid
      refine ⟨left, value, right, hsplit, ?_, ?_, hparts.left_valid, hparts.right_valid, ?_, ?_⟩
      · rintro rfl
        rw [one_mul] at hreached
        unfold split
        rw [hnonempty, hreached, hsplit]
        rfl
      · rw [toList_eq, toList_eq, toList_eq, hparts.elements_eq, List.append_assoc]
        rfl
      · rw [hleft]
        exact hparts.before hbefore
      · rw [hleft]
        exact hparts.reached
  · intro history
    obtain ⟨cursor, gap, heval, hshows, hdenotes⟩ := history.refines
    refine ⟨cursor, gap, heval, hdenotes, ?_, ?_, ?_, hshows.left_valid, hshows.right_valid,
      hshows.snapshot_valid⟩
    · rw [toList_eq, hshows.left_eq]
    · rw [toList_eq, hshows.right_eq]
    · rw [toList_eq, toList_eq, toList_eq, hshows.left_eq, hshows.right_eq, hshows.snapshot_eq]
      rfl

end Durable7.FingerTree.Measured
