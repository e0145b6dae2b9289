import Durable7.FingerTree.Measured.Splits

/-!
# Searches and cursors

A cursor keeps the two sides of a gap beside the tree they came from.
-/

namespace Durable7.FingerTree.Measured

open Foundation List

section

variable {v a : Type}

structure Cursor (v a : Type) where
  snapshot : FingerTree v a
  left : FingerTree v a
  right : FingerTree v a

structure CursorSearch (v a : Type) where
  cursor : Cursor v a
  found : Bool

def cursorAtStart (snapshot : FingerTree v a) : Cursor v a := ⟨snapshot, .empty, snapshot⟩

def cursorAtEnd (snapshot : FingerTree v a) : Cursor v a := ⟨snapshot, snapshot, .empty⟩

def cursorIsAtStart (cursor : Cursor v a) : Bool := null cursor.left

def cursorIsAtEnd (cursor : Cursor v a) : Bool := null cursor.right

section Moves

variable [Monoid v] [Measured v a]

def cursorByMeasure (predicate : v → Bool) (snapshot : FingerTree v a) :
    Except MeasuredError (CursorSearch v a) := do
  match ← split predicate snapshot with
  | some (left, value, right) =>
      let right' ← cons value right
      .ok ⟨⟨snapshot, left, right'⟩, true⟩
  | none => .ok ⟨cursorAtEnd snapshot, false⟩

def cursorMeasureBefore (cursor : Cursor v a) : v := measureTree cursor.left

def cursorMeasureAfter (cursor : Cursor v a) : v := measureTree cursor.right

def cursorPeekPrevious (cursor : Cursor v a) : Option a := last cursor.left

def cursorPeekNext (cursor : Cursor v a) : Option a := head cursor.right

def cursorMovePrevious (cursor : Cursor v a) : Except MeasuredError (Option (Cursor v a)) :=
  match viewR cursor.left with
  | .emptyR => .ok none
  | .snocR remaining value => do
      let right' ← cons value cursor.right
      .ok (some ⟨cursor.snapshot, remaining, right'⟩)

def cursorMoveNext (cursor : Cursor v a) : Except MeasuredError (Option (Cursor v a)) :=
  match viewL cursor.right with
  | .emptyL => .ok none
  | .consL value remaining => do
      let left' ← snoc cursor.left value
      .ok (some ⟨cursor.snapshot, left', remaining⟩)

def cursorSeekByMeasure (predicate : v → Bool) (cursor : Cursor v a) :
    Except MeasuredError (CursorSearch v a) :=
  cursorByMeasure predicate cursor.snapshot

def cursorInsert (value : a) (cursor : Cursor v a) : Except MeasuredError (Cursor v a) := do
  let left' ← snoc cursor.left value
  let snapshot ← append left' cursor.right
  .ok ⟨snapshot, left', cursor.right⟩

def cursorDeletePrevious (cursor : Cursor v a) : Except MeasuredError (Option (Cursor v a)) :=
  match viewR cursor.left with
  | .emptyR => .ok none
  | .snocR remaining _ => do
      let snapshot ← append remaining cursor.right
      .ok (some ⟨snapshot, remaining, cursor.right⟩)

def cursorDeleteNext (cursor : Cursor v a) : Except MeasuredError (Option (Cursor v a)) :=
  match viewL cursor.right with
  | .emptyL => .ok none
  | .consL _ remaining => do
      let snapshot ← append cursor.left remaining
      .ok (some ⟨snapshot, cursor.left, remaining⟩)

def cursorReplaceNext (value : a) (cursor : Cursor v a) :
    Except MeasuredError (Option (Cursor v a)) :=
  match viewL cursor.right with
  | .emptyL => .ok none
  | .consL _ remaining => do
      let right' ← cons value remaining
      let snapshot ← append cursor.left right'
      .ok (some ⟨snapshot, cursor.left, right'⟩)

end Moves

/-! ## Gaps of a list -/

/-- A gap in a list. -/
structure Gap (a : Type) where
  before : List a
  after : List a

namespace Gap

def values (gap : Gap a) : List a := gap.before ++ gap.after

def movePrevious (gap : Gap a) : Option (Gap a) :=
  gap.before.getLast?.map fun value => ⟨gap.before.dropLast, value :: gap.after⟩

def moveNext (gap : Gap a) : Option (Gap a) :=
  match gap.after with
  | [] => none
  | value :: remaining => some ⟨gap.before ++ [value], remaining⟩

def insert (value : a) (gap : Gap a) : Gap a := ⟨gap.before ++ [value], gap.after⟩

def deletePrevious (gap : Gap a) : Option (Gap a) :=
  gap.before.getLast?.map fun _ => ⟨gap.before.dropLast, gap.after⟩

def deleteNext (gap : Gap a) : Option (Gap a) :=
  match gap.after with
  | [] => none
  | _ :: remaining => some ⟨gap.before, remaining⟩

def replaceNext (value : a) (gap : Gap a) : Option (Gap a) :=
  match gap.after with
  | [] => none
  | _ :: remaining => some ⟨gap.before, value :: remaining⟩

end Gap

/-! ## Searches -/

variable {α : Type} [Monoid v] [Measured v α]

/-- The value of a list across which the predicate turns true. -/
structure Flips (predicate : v → Bool) (values left : List α) (value : α) (right : List α) :
    Prop where
  values_eq : values = left ++ value :: right
  reached : predicate (foldMeasure left * measure value) = true
  before : predicate 1 = false → predicate (foldMeasure left) = false

/-- A search by a predicate ends before such a value, or at the end when there is none. -/
def SearchedTo (predicate : v → Bool) (values : List α) (gap : Gap α) : Prop :=
  (∃ value right, Flips predicate values gap.before value right ∧ gap.after = value :: right) ∨
    ((values = [] ∨ predicate (foldMeasure values) = false) ∧ gap = ⟨values, []⟩)

/-- A cursor stands at the gap, and its two sides make up its snapshot. -/
structure Shows (cursor : Cursor v α) (gap : Gap α) : Prop where
  snapshot_valid : Valid (Layer.base v α) cursor.snapshot
  left_valid : Valid (Layer.base v α) cursor.left
  right_valid : Valid (Layer.base v α) cursor.right
  left_eq : elements cursor.left = gap.before
  right_eq : elements cursor.right = gap.after
  snapshot_eq : elements cursor.snapshot = gap.values

theorem measureTree_base {tree : FingerTree v α} (h : Valid (Layer.base v α) tree) :
    (measureTree tree : v) = foldMeasure (elements tree) :=
  measureTree_elements base_sound h

theorem split_spec {tree : FingerTree v α} (hvalid : Valid (Layer.base v α) tree)
    (predicate : v → Bool) :
    (∃ left value right, split predicate tree = .ok (some (left, value, right)) ∧
      Valid (Layer.base v α) left ∧ Valid (Layer.base v α) right ∧
      Flips predicate (elements tree) (elements left) value (elements right)) ∨
    (split predicate tree = .ok none ∧
      (elements tree = [] ∨ predicate (foldMeasure (elements tree)) = false)) := by
  unfold split
  by_cases hnull : null tree = true
  · rw [if_pos hnull]
    exact .inr ⟨rfl, .inl ((null_iff tree).mp hnull)⟩
  · rw [if_neg hnull]
    by_cases hwhole : predicate (measureTree tree) = false
    · rw [if_pos hwhole]
      rw [measureTree_base hvalid] at hwhole
      exact .inr ⟨rfl, .inr hwhole⟩
    · rw [if_neg hwhole]
      have hreached : predicate (1 * measureTree tree) = true := by
        rw [one_mul]
        exact Bool.of_not_eq_false hwhole
      obtain ⟨left, value, right, hsplit, hparts⟩ :=
        splitTree_spec base_sound hvalid (eq_false_of_ne_true hnull) hreached
      have hflip := hparts.reached
      have hbefore := hparts.before
      rw [one_mul] at hflip hbefore
      rw [hsplit]
      exact .inl ⟨left, value, right, rfl, hparts.left_valid, hparts.right_valid,
        hparts.elements_eq, hflip, hbefore⟩

theorem split_starts {tree left right : FingerTree v α} {value : α}
    (hvalid : Valid (Layer.base v α) tree) {predicate : v → Bool}
    (hsplit : split predicate tree = .ok (some (left, value, right))) :
    elements left = [] ∨ predicate (foldMeasure (elements left)) = false := by
  unfold split at hsplit
  split at hsplit
  · cases hsplit
  split at hsplit
  · cases hsplit
  rename_i hnull hwhole
  have hreached : predicate (1 * measureTree tree) = true := by
    rw [one_mul]
    exact Bool.of_not_eq_false hwhole
  obtain ⟨left', value', right', hparts, hat⟩ :=
    splitTree_spec base_sound hvalid (eq_false_of_ne_true hnull) hreached
  rw [hparts] at hsplit
  cases hsplit
  rw [← one_mul (foldMeasure (elements left))]
  exact hat.starts

section

variable {tree : FingerTree v α} (h : Valid (Layer.base v α) tree)
include h

theorem cursorAtStart_shows : Shows (cursorAtStart tree) ⟨[], elements tree⟩ :=
  ⟨h, trivial, h, rfl, rfl, rfl⟩

theorem cursorAtEnd_shows : Shows (cursorAtEnd tree) ⟨elements tree, []⟩ :=
  ⟨h, h, trivial, rfl, rfl, (append_nil _).symm⟩

theorem cursorByMeasure_shows
    (predicate : v → Bool) : ∃ search gap, cursorByMeasure predicate tree = .ok search ∧
      Shows search.cursor gap ∧ SearchedTo predicate (elements tree) gap ∧
      search.cursor.snapshot = tree := by
  unfold cursorByMeasure
  rcases split_spec h predicate with ⟨left, value, right, hsplit, hleft, hright, hflips⟩ |
    ⟨hsplit, hmissed⟩
  · obtain ⟨right', hcons, hvalid, helements⟩ := 
      cons_yields base_sound (show (Layer.base v α).Cached value from trivial) hright
    refine ⟨⟨⟨tree, left, right'⟩, true⟩, ⟨elements left, value :: elements right⟩, ?_,
      ⟨h, hleft, hvalid, rfl, helements, hflips.values_eq⟩, .inl ⟨value, _, hflips, rfl⟩, rfl⟩
    rw [hsplit]
    dsimp only [except_ok_bind]
    rw [hcons]
    rfl
  · refine ⟨⟨cursorAtEnd tree, false⟩, _, ?_, cursorAtEnd_shows h, .inr ⟨hmissed, rfl⟩, rfl⟩
    rw [hsplit]
    rfl

end

/-! ## Moves and edits -/

/-- A step that may be refused answers as the step on the gap does. -/
def StepShows (outcome : Except MeasuredError (Option (Cursor v α))) (result : Option (Gap α)) :
    Prop :=
  (outcome = .ok none ∧ result = none) ∨
    ∃ cursor gap, outcome = .ok (some cursor) ∧ result = some gap ∧ Shows cursor gap

section Steps

variable {cursor : Cursor v α} {gap : Gap α} (h : Shows cursor gap)

include h

theorem Shows.viewR_left : (viewR cursor.left = .emptyR ∧ gap.before = []) ∨
    ∃ remaining value, viewR cursor.left = .snocR remaining value ∧
      Valid (Layer.base v α) remaining ∧ gap.before = elements remaining ++ [value] := by
  have hvalid := viewR_valid base_sound h.left_valid
  have helements := elements_viewR cursor.left
  rw [h.left_eq] at helements
  cases hview : viewR cursor.left with
  | emptyR =>
      rw [hview] at helements
      exact .inl ⟨rfl, helements.symm⟩
  | snocR remaining value =>
      rw [hview] at helements hvalid
      exact .inr ⟨remaining, value, rfl, hvalid.2, helements.symm⟩

theorem Shows.viewL_right : (viewL cursor.right = .emptyL ∧ gap.after = []) ∨
    ∃ value remaining, viewL cursor.right = .consL value remaining ∧
      Valid (Layer.base v α) remaining ∧ gap.after = value :: elements remaining := by
  have hvalid := viewL_valid base_sound h.right_valid
  have helements := elements_viewL cursor.right
  rw [h.right_eq] at helements
  cases hview : viewL cursor.right with
  | emptyL =>
      rw [hview] at helements
      exact .inl ⟨rfl, helements.symm⟩
  | consL value remaining =>
      rw [hview] at helements hvalid
      exact .inr ⟨value, remaining, rfl, hvalid.2, helements.symm⟩

theorem cursorMovePrevious_shows : StepShows (cursorMovePrevious cursor) gap.movePrevious := by
  unfold cursorMovePrevious Gap.movePrevious
  rcases h.viewR_left with ⟨hview, hbefore⟩ | ⟨remaining, value, hview, hvalid, hbefore⟩
  · rw [hview, hbefore]
    exact .inl ⟨rfl, rfl⟩
  · obtain ⟨right', hcons, hright, helements⟩ :=
      cons_yields base_sound (show (Layer.base v α).Cached value from trivial) h.right_valid
    rw [hview, hbefore, List.getLast?_concat, dropLast_concat]
    dsimp only
    rw [hcons]
    rw [h.right_eq] at helements
    refine .inr ⟨_, _, rfl, rfl, h.snapshot_valid, hvalid, hright, rfl, helements, ?_⟩
    rw [h.snapshot_eq, Gap.values, Gap.values, hbefore, append_assoc]
    rfl

theorem cursorMoveNext_shows : StepShows (cursorMoveNext cursor) gap.moveNext := by
  unfold cursorMoveNext Gap.moveNext
  rcases h.viewL_right with ⟨hview, hafter⟩ | ⟨value, remaining, hview, hvalid, hafter⟩
  · rw [hview, hafter]
    exact .inl ⟨rfl, rfl⟩
  · obtain ⟨left', hsnoc, hleft, helements⟩ :=
      snoc_yields base_sound (show (Layer.base v α).Cached value from trivial) h.left_valid
    rw [hview, hafter]
    dsimp only
    rw [hsnoc]
    rw [h.left_eq] at helements
    refine .inr ⟨_, _, rfl, rfl, h.snapshot_valid, hleft, hvalid, helements, rfl, ?_⟩
    rw [h.snapshot_eq, Gap.values, Gap.values, hafter, append_assoc]
    rfl

theorem cursorInsert_shows (value : α) :
    ∃ cursor', cursorInsert value cursor = .ok cursor' ∧ Shows cursor' (gap.insert value) := by
  obtain ⟨left', hsnoc, hleft, helements⟩ :=
    snoc_yields base_sound (show (Layer.base v α).Cached value from trivial) h.left_valid
  obtain ⟨snapshot, happend, hsnapshot, hlist⟩ := append_yields base_sound hleft h.right_valid
  rw [h.left_eq] at helements
  rw [helements, h.right_eq] at hlist
  unfold cursorInsert
  rw [hsnoc, except_ok_bind, happend]
  exact ⟨_, rfl, hsnapshot, hleft, h.right_valid, helements, h.right_eq, hlist⟩

theorem cursorDeletePrevious_shows :
    StepShows (cursorDeletePrevious cursor) gap.deletePrevious := by
  unfold cursorDeletePrevious Gap.deletePrevious
  rcases h.viewR_left with ⟨hview, hbefore⟩ | ⟨remaining, value, hview, hvalid, hbefore⟩
  · rw [hview, hbefore]
    exact .inl ⟨rfl, rfl⟩
  · obtain ⟨snapshot, happend, hsnapshot, hlist⟩ := append_yields base_sound hvalid h.right_valid
    rw [hview, hbefore, List.getLast?_concat, dropLast_concat]
    dsimp only
    rw [happend]
    rw [h.right_eq] at hlist
    exact .inr ⟨_, _, rfl, rfl, hsnapshot, hvalid, h.right_valid, rfl, h.right_eq, hlist⟩

theorem cursorDeleteNext_shows : StepShows (cursorDeleteNext cursor) gap.deleteNext := by
  unfold cursorDeleteNext Gap.deleteNext
  rcases h.viewL_right with ⟨hview, hafter⟩ | ⟨value, remaining, hview, hvalid, hafter⟩
  · rw [hview, hafter]
    exact .inl ⟨rfl, rfl⟩
  · obtain ⟨snapshot, happend, hsnapshot, hlist⟩ := append_yields base_sound h.left_valid hvalid
    rw [hview, hafter]
    dsimp only
    rw [happend]
    rw [h.left_eq] at hlist
    exact .inr ⟨_, _, rfl, rfl, hsnapshot, h.left_valid, hvalid, h.left_eq, rfl, hlist⟩

theorem cursorReplaceNext_shows (value : α) :
    StepShows (cursorReplaceNext value cursor) (gap.replaceNext value) := by
  unfold cursorReplaceNext Gap.replaceNext
  rcases h.viewL_right with ⟨hview, hafter⟩ | ⟨replaced, remaining, hview, hvalid, hafter⟩
  · rw [hview, hafter]
    exact .inl ⟨rfl, rfl⟩
  · obtain ⟨right', hcons, hright, helements⟩ :=
      cons_yields base_sound (show (Layer.base v α).Cached value from trivial) hvalid
    obtain ⟨snapshot, happend, hsnapshot, hlist⟩ := append_yields base_sound h.left_valid hright
    rw [hview, hafter]
    dsimp only
    rw [hcons, except_ok_bind, happend]
    rw [helements, h.left_eq] at hlist
    exact .inr ⟨_, _, rfl, rfl, hsnapshot, h.left_valid, hright, h.left_eq, helements, hlist⟩

end Steps

end

/-!
## Trees with valid caches

On these trees the operations are total, since no error call is reached.
-/

structure ValidTree (v α : Type) [Monoid v] [Measured v α] where
  tree : FingerTree v α
  valid : Valid (Layer.base v α) tree

namespace ValidTree

variable {v α : Type} [Monoid v] [Measured v α]

def toList (tree : ValidTree v α) : List α := Measured.toList tree.tree

def measure (tree : ValidTree v α) : v := measureTree tree.tree

theorem measure_eq (tree : ValidTree v α) : tree.measure = foldMeasure tree.toList := by
  rw [measure, toList, toList_eq, measureTree_base tree.valid]

/-- The tree of an outcome that is no error. -/
def ofYields {outcome : Except MeasuredError (FingerTree v α)} {values : List α}
    (h : Yields (Layer.base v α) outcome values) : ValidTree v α :=
  match outcome, h with
  | .ok tree, h => ⟨tree, by
      obtain ⟨tree', heq, hvalid, -⟩ := h
      cases heq
      exact hvalid⟩
  | .error _, h => absurd h (by
      rintro ⟨tree', heq, -⟩
      cases heq)

theorem toList_ofYields {outcome : Except MeasuredError (FingerTree v α)} {values : List α}
    (h : Yields (Layer.base v α) outcome values) : (ofYields h).toList = values := by
  obtain ⟨tree, rfl, hvalid, helements⟩ := h
  rw [toList, toList_eq]
  exact helements

/-! ### Building -/

def empty : ValidTree v α := ⟨.empty, trivial⟩

def singleton (value : α) : ValidTree v α := ⟨.single value, trivial⟩

def cons (value : α) (tree : ValidTree v α) : ValidTree v α :=
  ofYields (cons_yields base_sound (show (Layer.base v α).Cached value from trivial) tree.valid)

def snoc (tree : ValidTree v α) (value : α) : ValidTree v α :=
  ofYields (snoc_yields base_sound (show (Layer.base v α).Cached value from trivial) tree.valid)

def append (left right : ValidTree v α) : ValidTree v α :=
  ofYields (append_yields base_sound left.valid right.valid)

theorem toList_empty : (empty : ValidTree v α).toList = [] := by
  rw [toList, toList_eq]
  rfl

theorem toList_singleton (value : α) : (singleton value : ValidTree v α).toList = [value] := by
  rw [toList, toList_eq]
  rfl

theorem toList_cons (value : α) (tree : ValidTree v α) :
    (tree.cons value).toList = value :: tree.toList := by
  rw [cons, toList_ofYields, toList, toList_eq]

theorem toList_snoc (tree : ValidTree v α) (value : α) :
    (tree.snoc value).toList = tree.toList ++ [value] := by
  rw [snoc, toList_ofYields, toList, toList_eq]

theorem toList_append (left right : ValidTree v α) :
    (left.append right).toList = left.toList ++ right.toList := by
  rw [append, toList_ofYields, toList, toList, toList_eq, toList_eq]

def fromList (values : List α) : ValidTree v α := values.foldl snoc empty

theorem toList_fromList (values : List α) : (fromList values : ValidTree v α).toList = values := by
  have hfold : ∀ (values : List α) (tree : ValidTree v α),
      (values.foldl snoc tree).toList = tree.toList ++ values := by
    intro values
    induction values with
    | nil => exact fun tree => (append_nil _).symm
    | cons value values ih =>
        intro tree
        rw [foldl_cons, ih, toList_snoc, append_assoc, singleton_append]
  rw [fromList, hfold, toList_empty, nil_append]

/-! ### Inspecting -/

def null (tree : ValidTree v α) : Bool := Measured.null tree.tree

def head (tree : ValidTree v α) : Option α := Measured.head tree.tree

def last (tree : ValidTree v α) : Option α := Measured.last tree.tree

theorem null_iff (tree : ValidTree v α) : tree.null = true ↔ tree.toList = [] := by
  rw [null, toList, toList_eq, Measured.null_iff]

theorem head_eq (tree : ValidTree v α) : tree.head = tree.toList.head? := by
  rw [head, toList, toList_eq, Measured.head_eq]

theorem last_eq (tree : ValidTree v α) : tree.last = tree.toList.getLast? := by
  rw [last, toList, toList_eq, Measured.last_eq]

theorem split_valid (predicate : v → Bool) (tree : ValidTree v α) :
    ∃ parts, Measured.split predicate tree.tree = .ok parts ∧
      ∀ left value right, parts = some (left, value, right) →
        Valid (Layer.base v α) left ∧ Valid (Layer.base v α) right := by
  rcases split_spec tree.valid predicate with ⟨left, value, right, hsplit, hleft, hright, -⟩ |
    ⟨hsplit, -⟩
  · refine ⟨_, hsplit, ?_⟩
    intro left' value' right' heq
    cases heq
    exact ⟨hleft, hright⟩
  · refine ⟨_, hsplit, ?_⟩
    intro left value right heq
    cases heq

def split (predicate : v → Bool) (tree : ValidTree v α) :
    Option (ValidTree v α × α × ValidTree v α) :=
  match hsplit : Measured.split predicate tree.tree with
  | .ok (some (left, value, right)) =>
      have hvalid : Valid (Layer.base v α) left ∧ Valid (Layer.base v α) right := by
        obtain ⟨parts, hparts, hvalid⟩ := split_valid predicate tree
        rw [hsplit] at hparts
        cases hparts
        exact hvalid left value right rfl
      some (⟨left, hvalid.1⟩, value, ⟨right, hvalid.2⟩)
  | .ok none => none
  | .error problem => absurd (split_valid predicate tree) (by
      rintro ⟨parts, hparts, -⟩
      rw [hsplit] at hparts
      cases hparts)

def locate (predicate : v → Bool) (tree : ValidTree v α) : Option (v × α) :=
  (tree.split predicate).map fun (left, value, _) => (left.measure, value)

/-- A split finds a place where the predicate turns true, or there is none on the whole. -/
theorem split_cases (predicate : v → Bool) (tree : ValidTree v α) :
    (∃ left value right, tree.split predicate = some (left, value, right) ∧
      Flips predicate tree.toList left.toList value right.toList) ∨
    (tree.split predicate = none ∧
      (tree.toList = [] ∨ predicate (foldMeasure tree.toList) = false)) := by
  have hspec := split_spec tree.valid predicate
  rw [← toList_eq] at hspec
  unfold split
  split
  · rename_i left value right hsplit
    rw [hsplit] at hspec
    rcases hspec with ⟨left', value', right', heq, hleft, hright, hflips⟩ | ⟨heq, -⟩
    · cases heq
      refine .inl ⟨_, _, _, rfl, ?_⟩
      rw [toList, toList, toList, toList_eq left, toList_eq right]
      exact hflips
    · cases heq
  · rename_i hsplit
    rw [hsplit] at hspec
    rcases hspec with ⟨left', value', right', heq, -⟩ | ⟨-, hmissed⟩
    · cases heq
    · exact .inr ⟨rfl, hmissed⟩
  · rename_i problem hsplit
    rw [hsplit] at hspec
    rcases hspec with ⟨left', value', right', heq, -⟩ | ⟨heq, -⟩
    · cases heq
    · cases heq

/-- A nonempty front of a split does not satisfy the predicate, whatever the empty one does. -/
theorem split_starts {predicate : v → Bool} {tree left right : ValidTree v α} {value : α}
    (hsplit : tree.split predicate = some (left, value, right)) :
    left.toList = [] ∨ predicate (foldMeasure left.toList) = false := by
  unfold split at hsplit
  split at hsplit
  · rename_i leftTree found rightTree hparts
    cases hsplit
    rw [toList, toList_eq]
    exact Measured.split_starts tree.valid hparts
  · cases hsplit
  · rename_i problem hproblem
    obtain ⟨parts, hparts, -⟩ := split_valid predicate tree
    rw [hproblem] at hparts
    cases hparts

end ValidTree

end Durable7.FingerTree.Measured
