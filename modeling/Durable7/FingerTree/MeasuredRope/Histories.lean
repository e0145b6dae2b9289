import Durable7.FingerTree.MeasuredRope.Edits
import Durable7.Foundation.Branching

/-!
# Histories of measured ropes

Every rope of a branching history stands beside the list its edits call for.  The measure of
a prefix is the product of the measures of its elements, from the left.
-/

namespace Durable7.FingerTree.MeasuredRope

open Foundation List Measured.ValidTree

variable {v α : Type} [Monoid v] {f : α → v}

def ListModel.prefixMeasure (f : α → v) (lengthValue : Int) (values : List α) : Option v :=
  if lengthValue < 0 ∨ lengthValue > values.length then none
  else some (foldMap f (values.take lengthValue.toNat))

def ListModel.suffixMeasure (f : α → v) (position : Int) (values : List α) : Option v :=
  if position < 0 ∨ position > values.length then none
  else some (foldMap f (values.drop position.toNat))

section Reading

variable {rope : MeasuredRope v α} {values : List α} (h : Holds f rope values)

include h

theorem prefixMeasure_eq (lengthValue : Int) :
    prefixMeasure lengthValue rope = ListModel.prefixMeasure f lengthValue values := by
  rw [prefixMeasure, ListModel.prefixMeasure, h.count_eq, h.measure_eq]
  by_cases hout : lengthValue < 0 ∨ lengthValue > values.length
  · rw [if_pos hout, if_pos hout]
  rw [if_neg hout, if_neg hout]
  by_cases hlast : lengthValue = values.length
  · rw [if_pos hlast, hlast, Int.toNat_natCast, take_length]
  · obtain ⟨left, chunk, right, offset, hinside⟩ := h.inside lengthValue (by omega) (by omega)
    rw [if_neg hlast, hinside.split_eq, hinside.take_eq, foldMap_append]
    dsimp only
    rw [hinside.offset_eq, h.function_eq, treeValue, measure_eq,
      foldMeasure_chunks hinside.leftValid]

theorem suffixMeasure_eq (position : Int) :
    suffixMeasure position rope = ListModel.suffixMeasure f position values := by
  rw [suffixMeasure, ListModel.suffixMeasure, h.count_eq, h.measure_eq]
  by_cases hout : position < 0 ∨ position > values.length
  · rw [if_pos hout, if_pos hout]
  rw [if_neg hout, if_neg hout]
  by_cases hzero : position = 0
  · rw [if_pos hzero, hzero]
    rfl
  rw [if_neg hzero]
  by_cases hlast : position = values.length
  · rw [if_pos hlast, hlast, Int.toNat_natCast, drop_length, foldMap_nil]
  · obtain ⟨left, chunk, right, offset, hinside⟩ := h.inside position (by omega) (by omega)
    rw [if_neg hlast, hinside.split_eq, hinside.drop_eq, foldMap_append]
    dsimp only
    rw [hinside.offset_eq, h.function_eq, treeValue, measure_eq,
      foldMeasure_chunks hinside.rightValid]

theorem index_eq (position : Int) : index position rope = elementAt position values := by
  rw [index, elementAt, h.count_eq]
  by_cases hlow : position < 0
  · rw [if_pos (.inl hlow), if_pos hlow]
  rw [if_neg hlow]
  by_cases hhigh : position ≥ values.length
  · rw [if_pos (.inr hhigh), List.getElem?_eq_none (by omega)]
  · obtain ⟨left, chunk, right, offset, hinside⟩ := h.inside position (by omega) (by omega)
    rw [if_neg (by omega), hinside.split_eq, hinside.getElem?_eq]
    dsimp only
    rw [hinside.offset_eq, listIndex_eq]

end Reading

/-- A predicate that stays true along the prefixes of the list. -/
def RisesAlong (f : α → v) (predicate : v → Bool) (values : List α) : Prop :=
  ∀ shorter longer : Nat, 0 < shorter → shorter ≤ longer →
    predicate (foldMap f (values.take shorter)) = true →
    predicate (foldMap f (values.take longer)) = true

/-- The element with the first inclusive prefix that satisfies the predicate. -/
structure FirstAt (f : α → v) (predicate : v → Bool) (values : List α) (position : Nat)
    (value : α) : Prop where
  value_eq : values[position]? = some value
  reached : predicate (foldMap f (values.take (position + 1))) = true
  first : ∀ length, 0 < length → length ≤ position →
    predicate (foldMap f (values.take length)) = false

def Located (f : α → v) (predicate : v → Bool) (values : List α)
    (found : Option (Int × v × α)) : Prop :=
  (found = none ∧ ∀ length, 0 < length → length ≤ values.length →
    predicate (foldMap f (values.take length)) = false) ∨
  ∃ (position : Nat) (value : α), FirstAt f predicate values position value ∧
    found = some ((position : Int), foldMap f (values.take position), value)

variable {predicate : v → Bool}

theorem RisesAlong.before {values : List α}
    (h : RisesAlong f predicate values) {shorter longer : Nat} (hpositive : 0 < shorter)
    (hle : shorter ≤ longer) (hlonger : predicate (foldMap f (values.take longer)) = false) :
    predicate (foldMap f (values.take shorter)) = false := by
  cases hshorter : predicate (foldMap f (values.take shorter)) with
  | false => rfl
  | true =>
      rw [h shorter longer hpositive hle hshorter] at hlonger
      exact hlonger

theorem locateInChunk_first {values : List α} (before items after : List α)
    (hvalues : values = before ++ (items ++ after)) (hnonempty : items ≠ [])
    (hbefore : ∀ length, 0 < length → length ≤ before.length →
      predicate (foldMap f (values.take length)) = false)
    (hreached : predicate (foldMap f (before ++ items)) = true) :
    ∃ (position : Nat) (value : α), FirstAt f predicate values position value ∧
      locateInChunk f predicate before.length (foldMap f before) items =
        some ((position : Int), foldMap f (values.take position), value) := by
  induction items generalizing before with
  | nil => exact absurd rfl hnonempty
  | cons value rest ih =>
      have hgrown :
          before ++ (value :: rest ++ after) = (before ++ [value]) ++ (rest ++ after) := by
        rw [append_assoc, cons_append, singleton_append]
      have hlength : (before ++ [value]).length = before.length + 1 := length_append
      have hnext : values.take (before.length + 1) = before ++ [value] := by
        rw [hvalues, hgrown, ← hlength, take_left]
      have hafter : foldMap f before * f value = foldMap f (before ++ [value]) := by
        rw [foldMap_append, foldMap_cons, foldMap_nil, mul_one]
      rw [locateInChunk, hafter]
      split
      · rename_i hfound
        refine ⟨before.length, value, ⟨?_, hnext ▸ hfound, hbefore⟩, ?_⟩
        · rw [hvalues, List.getElem?_append_right (Nat.le_refl _), Nat.sub_self]
          rfl
        · rw [hvalues, take_left]
      · rename_i hmissed
        have hmissed := Bool.eq_false_iff.mpr hmissed
        have hrest := ih (before ++ [value]) (hvalues.trans hgrown) ?_ ?_ ?_
        · rwa [hlength] at hrest
        · rintro rfl
          rw [hreached] at hmissed
          exact Bool.noConfusion hmissed
        · intro length hpositive hle
          rw [hlength] at hle
          rcases Nat.le_succ_iff.mp hle with hle | rfl
          · exact hbefore length hpositive hle
          · rw [hnext]
            exact hmissed
        · rwa [append_assoc, singleton_append]

theorem locateByMeasure_located {rope : MeasuredRope v α} {values : List α}
    (h : Holds f rope values) (hrises : RisesAlong f predicate values) :
    Located f predicate values (locateByMeasure predicate rope) := by
  rw [locateByMeasure, h.function_eq]
  rcases rope.tree.split_cases fun measure => predicate measure.value with
    ⟨left, chunk, right, hsplit, hflips⟩ | ⟨hsplit, hnone⟩
  · have hchunks := h.chunks
    have hvalues := h.elements_eq
    have hstarts := split_starts hsplit
    have hreached := hflips.reached
    rw [hflips.values_eq] at hchunks hvalues
    obtain ⟨hleft, hrest⟩ := forall_mem_append.mp hchunks
    obtain ⟨hchunk, hright⟩ := forall_mem_cons.mp hrest
    have hmeasure :
        left.measure = ⟨(elements left.toList).length, foldMap f (elements left.toList)⟩ :=
      (measure_eq left).trans (foldMeasure_chunks hleft)
    rw [elements_append, elements_cons] at hvalues
    rw [foldMeasure_chunks hleft] at hstarts hreached
    have hlocated := @locateInChunk_first _ _ _ f predicate _ (elements left.toList)
      chunk.items (elements right.toList) hvalues.symm hchunk.nonempty ?_ ?_
    · obtain ⟨position, value, hfirst, hfound⟩ := hlocated
      refine .inr ⟨position, value, hfirst, ?_⟩
      rw [hsplit]
      dsimp only
      rw [treeCount, treeValue, hmeasure]
      exact hfound
    · intro length hpositive hle
      rcases hstarts with hnil | hstarts
      · rw [hnil] at hle
        exact absurd hle (Nat.not_le.mpr hpositive)
      · refine hrises.before hpositive hle ?_
        rw [← hvalues, take_left]
        exact hstarts
    · rw [foldMap_append, ← hchunk.value_eq]
      exact hreached
  · rw [hsplit]
    refine .inl ⟨rfl, fun length hpositive hle => ?_⟩
    rcases hnone with hnil | hnone
    · rw [← h.elements_eq, hnil] at hle
      exact absurd hle (Nat.not_le.mpr hpositive)
    · rw [foldMeasure_chunks h.chunks, h.elements_eq] at hnone
      refine hrises.before hpositive hle ?_
      rw [take_length]
      exact hnone

/-! ## Branching histories -/

/-- One edit.  Versions are numbered in the order they were made. -/
inductive Edit (α : Type) where
  | emptyWith
  | singletonWith (value : α)
  | fromListWith (values : List α)
  | append (left right : Nat)
  | setAt (position : Int) (value : α) (version : Nat)
  | insertAt (position : Int) (value : α) (version : Nat)
  | insertRangeAt (position : Int) (values : List α) (version : Nat)
  | deleteAt (position : Int) (version : Nat)
  | splitAt (position : Int) (version : Nat)
  | slice (position lengthValue : Int) (version : Nat)
  | insert (value : α) (position : Int) (version : Nat)
  | insertRange (values : List α) (position : Int) (version : Nat)
  | deletePrevious (position : Int) (version : Nat)
  | deleteNext (position : Int) (version : Nat)
  | replaceNext (value : α) (position : Int) (version : Nat)

/-- The snapshot of a cursor after an edit at its gap. -/
def atCursor (position : Int) (rope : MeasuredRope v α)
    (edit : MeasuredRopeCursor v α → Outcome (List (MeasuredRope v α))) :
    Outcome (List (MeasuredRope v α)) :=
  (cursorAt position rope).elim (.ok []) edit

/-- The versions an edit adds, over ropes that all measure their elements by one function. -/
def produce (f : α → v) (versions : List (MeasuredRope v α)) :
    Edit α → Outcome (List (MeasuredRope v α))
  | .emptyWith => .ok [emptyWith f]
  | .singletonWith value => .ok [singletonWith f value]
  | .fromListWith values => (fromListWith f values).map fun made => [made]
  | .append left right => onVersion versions left fun front =>
      onVersion versions right fun back => (append front back).map fun made => [made]
  | .setAt position value version => onVersion versions version fun rope =>
      .ok (setAt position value rope).toList
  | .insertAt position value version => onVersion versions version fun rope =>
      (insertAt position value rope).map Option.toList
  | .insertRangeAt position values version => onVersion versions version fun rope =>
      (insertRangeAt position values rope).map Option.toList
  | .deleteAt position version => onVersion versions version fun rope =>
      .ok (deleteAt position rope).toList
  | .splitAt position version => onVersion versions version fun rope =>
      .ok ((splitAt position rope).elim [] fun parts => [parts.1, parts.2])
  | .slice position lengthValue version => onVersion versions version fun rope =>
      .ok (slice position lengthValue rope).toList
  | .insert value position version => onVersion versions version fun rope =>
      atCursor position rope fun cursor =>
        ((insert value cursor).map MeasuredRopeCursor.rope).map fun made => [made]
  | .insertRange values position version => onVersion versions version fun rope =>
      atCursor position rope fun cursor =>
        ((insertRange values cursor).map MeasuredRopeCursor.rope).map fun made => [made]
  | .deletePrevious position version => onVersion versions version fun rope =>
      atCursor position rope fun cursor =>
        .ok ((deletePrevious cursor).map MeasuredRopeCursor.rope).toList
  | .deleteNext position version => onVersion versions version fun rope =>
      atCursor position rope fun cursor =>
        .ok ((deleteNext cursor).map MeasuredRopeCursor.rope).toList
  | .replaceNext value position version => onVersion versions version fun rope =>
      atCursor position rope fun cursor =>
        .ok ((replaceNext value cursor).map MeasuredRopeCursor.rope).toList

def ListModel.atGap (position : Int) (values : List α)
    (edit : Except RopeError (List (List α))) : Except RopeError (List (List α)) :=
  if position < 0 ∨ position > values.length then .ok [] else edit

def ListModel.produce (models : List (List α)) : Edit α → Except RopeError (List (List α))
  | .emptyWith => .ok [[]]
  | .singletonWith value => .ok [[value]]
  | .fromListWith values => (bounded values).map fun made => [made]
  | .append left right => onVersion models left fun front =>
      onVersion models right fun back => (bounded (front ++ back)).map fun made => [made]
  | .setAt position value version => onVersion models version fun values =>
      .ok (ListModel.setAt position value values).toList
  | .insertAt position value version => onVersion models version fun values =>
      (insertAt position [value] values).map Option.toList
  | .insertRangeAt position added version => onVersion models version fun values =>
      (insertAt position added values).map Option.toList
  | .deleteAt position version => onVersion models version fun values =>
      .ok (ListModel.deleteAt position values).toList
  | .splitAt position version => onVersion models version fun values =>
      .ok (partsList (ListModel.splitAt position values))
  | .slice position lengthValue version => onVersion models version fun values =>
      .ok (ListModel.slice position lengthValue values).toList
  | .insert value position version => onVersion models version fun values =>
      (insertAt position [value] values).map Option.toList
  | .insertRange added position version => onVersion models version fun values =>
      (insertAt position added values).map Option.toList
  | .deletePrevious position version => onVersion models version fun values =>
      atGap position values (.ok (ListModel.deleteAt (position - 1) values).toList)
  | .deleteNext position version => onVersion models version fun values =>
      atGap position values (.ok (ListModel.deleteAt position values).toList)
  | .replaceNext value position version => onVersion models version fun values =>
      atGap position values (.ok (ListModel.setAt position value values).toList)

/-- What the code adds beside what the model adds. -/
abbrev Adds (f : α → v) (outcome : Outcome (List (MeasuredRope v α)))
    (expected : Except RopeError (List (List α))) : Prop :=
  Agrees (List.Forall₂ (Holds f)) outcome expected

theorem atCursor_adds {rope : MeasuredRope v α} {values : List α} (h : Holds f rope values)
    (position : Int) {edit : MeasuredRopeCursor v α → Outcome (List (MeasuredRope v α))}
    {expected : Except RopeError (List (List α))}
    (hedit : ∀ cursor, CursorHolds f cursor values position → Adds f (edit cursor) expected) :
    Adds f (atCursor position rope edit) (ListModel.atGap position values expected) := by
  rw [atCursor, cursorAt, ListModel.atGap, h.count_eq]
  by_cases hout : position < 0 ∨ position > values.length
  · rw [if_pos hout, if_pos hout]
    exact .ok .nil
  · rw [if_neg hout, if_neg hout]
    exact hedit _ ⟨h, rfl, by omega, by omega⟩

theorem atGap_insertAt (position : Int) (inserted values : List α) :
    ListModel.atGap position values
        ((ListModel.bounded (values.take position.toNat ++
          (inserted ++ values.drop position.toNat))).map fun made => [made]) =
      (ListModel.insertAt position inserted values).map Option.toList := by
  rw [ListModel.atGap, ListModel.insertAt]
  split
  · rfl
  · generalize ListModel.bounded _ = expected
    cases expected <;> rfl

theorem produce_adds (versions : List (MeasuredRope v α)) (models : List (List α)) (edit : Edit α)
    (h : List.Forall₂ (Holds f) versions models) :
    Adds f (produce f versions edit) (ListModel.produce models edit) := by
  cases edit with
  | emptyWith => exact .ok (.cons (holds_emptyWith f) .nil)
  | singletonWith value => exact .ok (.cons (holds_singletonWith f value) .nil)
  | fromListWith values => exact single_agrees (fromListWith_agrees f values)
  | append left right =>
      exact onVersion_agrees h left fun _ _ hleft => onVersion_agrees h right fun _ _ hright =>
        single_agrees (append_agrees hleft hright)
  | setAt position value version =>
      exact onVersion_agrees h version fun _ _ hrope =>
        .ok (toList_refines (setAt_refines hrope position value))
  | insertAt position value version =>
      exact onVersion_agrees h version fun _ _ hrope =>
        (insertAt_agrees hrope position value).map fun _ _ => toList_refines
  | insertRangeAt position values version =>
      exact onVersion_agrees h version fun _ _ hrope =>
        (insertRangeAt_agrees hrope position values).map fun _ _ => toList_refines
  | deleteAt position version =>
      exact onVersion_agrees h version fun _ _ hrope =>
        .ok (toList_refines (deleteAt_refines hrope position))
  | splitAt position version =>
      exact onVersion_agrees h version fun _ _ hrope =>
        .ok (partsList_refines (splitAt_refines hrope position))
  | slice position lengthValue version =>
      exact onVersion_agrees h version fun _ _ hrope =>
        .ok (toList_refines (slice_refines hrope position lengthValue))
  | insert value position version =>
      refine onVersion_agrees h version fun rope values hrope => ?_
      rw [← atGap_insertAt]
      exact atCursor_adds hrope position fun _ hcursor =>
        single_agrees (insert_agrees hcursor value)
  | insertRange added position version =>
      refine onVersion_agrees h version fun rope values hrope => ?_
      rw [← atGap_insertAt]
      exact atCursor_adds hrope position fun _ hcursor =>
        single_agrees (insertRange_agrees hcursor added)
  | deletePrevious position version =>
      exact onVersion_agrees h version fun _ _ hrope => atCursor_adds hrope position
        fun _ hcursor => .ok (toList_refines (deletePrevious_refines hcursor))
  | deleteNext position version =>
      exact onVersion_agrees h version fun _ _ hrope => atCursor_adds hrope position
        fun _ hcursor => .ok (toList_refines (deleteNext_refines hcursor))
  | replaceNext value position version =>
      exact onVersion_agrees h version fun _ _ hrope => atCursor_adds hrope position
        fun _ hcursor => .ok (toList_refines (replaceNext_refines hcursor value))

/-- What a rope shows of its list: every chunk is full of its own elements, and each read is
that of the list, with the measures multiplied in its order. -/
structure Observes (f : α → v) (rope : MeasuredRope v α) (values : List α) : Prop where
  chunks : ∀ chunk ∈ rope.tree.toList, ChunkValid f chunk
  listed : toList rope = values
  counted : count rope = values.length
  nothing : null rope = values.isEmpty
  measured : measure rope = foldMap f values
  indexed : ∀ position, index position rope = elementAt position values
  front : ∀ lengthValue,
    prefixMeasure lengthValue rope = ListModel.prefixMeasure f lengthValue values
  back : ∀ position, suffixMeasure position rope = ListModel.suffixMeasure f position values
  located : ∀ predicate, RisesAlong f predicate values →
    Located f predicate values (locateByMeasure predicate rope)
  before : ∀ position cursor, cursorAt position rope = some cursor →
    measureBefore cursor = .ok (foldMap f (values.take position.toNat))
  after : ∀ position cursor, cursorAt position rope = some cursor →
    measureAfter cursor = .ok (foldMap f (values.drop position.toNat))

section

variable {rope : MeasuredRope v α} {values : List α} (h : Holds f rope values)
include h

theorem cursorAt_holds
    {position : Int} {cursor : MeasuredRopeCursor v α}
    (hcursor : cursorAt position rope = some cursor) :
    CursorHolds f cursor values position := by
  rw [cursorAt, h.count_eq] at hcursor
  split at hcursor
  · cases hcursor
  · obtain ⟨⟩ := hcursor
    exact ⟨h, rfl, by omega, by omega⟩

theorem Holds.observes : Observes f rope values where
  chunks := h.chunks
  listed := h.elements_eq
  counted := h.count_eq
  nothing := h.null_eq
  measured := h.measure_eq
  indexed := index_eq h
  front := prefixMeasure_eq h
  back := suffixMeasure_eq h
  located _ hrises := locateByMeasure_located h hrises
  before position cursor hcursor := by
    have hholds := cursorAt_holds h hcursor
    have hin : ¬ (position < 0 ∨ position > values.length) :=
      not_or.mpr ⟨Int.not_lt.mpr hholds.low, Int.not_lt.mpr hholds.high⟩
    rw [measureBefore, hholds.position_eq, prefixMeasure_eq hholds.rope, ListModel.prefixMeasure,
      if_neg hin]
  after position cursor hcursor := by
    have hholds := cursorAt_holds h hcursor
    have hin : ¬ (position < 0 ∨ position > values.length) :=
      not_or.mpr ⟨Int.not_lt.mpr hholds.low, Int.not_lt.mpr hholds.high⟩
    rw [measureAfter, hholds.position_eq, suffixMeasure_eq hholds.rope, ListModel.suffixMeasure,
      if_neg hin]

end

theorem grow_holds (f : α → v) (edits : List (Edit α)) :
    List.Forall₂ (Holds f) (grow (produce f) [] edits) (grow ListModel.produce [] edits) :=
  grow_refines produce_adds .nil edits

/-- Every rope of every branching history shows its list, and an edit fails only when its
list is too long. -/
theorem ropes_exact (f : α → v) (edits : List (Edit α)) :
    List.Forall₂ (Observes f) (grow (produce f) [] edits) (grow ListModel.produce [] edits) ∧
      ∀ edit, Agrees (List.Forall₂ (Observes f)) (produce f (grow (produce f) [] edits) edit)
        (ListModel.produce (grow ListModel.produce [] edits) edit) := by
  have hholds := grow_holds f edits
  refine ⟨hholds.imp fun _ _ => Holds.observes, fun edit => ?_⟩
  exact (produce_adds _ _ edit hholds).imp fun _ _ hadded => hadded.imp fun _ _ => Holds.observes

/-- What a cut by measure leaves: the parts on both sides of the first element whose
inclusive prefix satisfies the predicate, or nothing when no prefix does. -/
def CutAt (f : α → v) (predicate : v → Bool) (values : List α)
    (parts : Option (MeasuredRope v α × α × MeasuredRope v α)) : Prop :=
  (parts = none ∧ ∀ length, 0 < length → length ≤ values.length →
    predicate (foldMap f (values.take length)) = false) ∨
  ∃ position left value right, FirstAt f predicate values position value ∧
    parts = some (left, value, right) ∧
    Holds f left (values.take position) ∧ Holds f right (values.drop (position + 1))

theorem Holds.splitByMeasure_cut {rope : MeasuredRope v α} {values : List α}
    (h : Holds f rope values) (hrises : RisesAlong f predicate values) :
    CutAt f predicate values (splitByMeasure predicate rope) := by
  rw [splitByMeasure]
  rcases locateByMeasure_located h hrises with
    ⟨hnone, hbelow⟩ | ⟨position, value, hfirst, hfound⟩
  · rw [hnone]
    exact .inl ⟨rfl, hbelow⟩
  · obtain ⟨hlt, -⟩ := List.getElem?_eq_some_iff.mp hfirst.value_eq
    have hcut := splitAt_refines h position
    rw [ListModel.splitAt, if_neg (by omega)] at hcut
    rw [hfound]
    dsimp only [Option.bind_some]
    generalize splitAt position rope = parts at hcut ⊢
    cases hcut with
    | @some parts _ hparts =>
        have hnext := splitAt_refines hparts.2 1
        rw [ListModel.splitAt, if_neg (by simp; omega)] at hnext
        dsimp only [Option.bind_some]
        generalize splitAt 1 parts.2 = rest at hnext ⊢
        cases hnext with
        | @some rest _ hrest =>
            refine .inr ⟨position, parts.1, value, rest.2, hfirst, rfl, hparts.1, ?_⟩
            simpa using hrest.2

/-- Every rope of every branching history is cut where its list is. -/
theorem ropes_cut (f : α → v) (edits : List (Edit α)) :
    List.Forall₂ (fun rope values => ∀ predicate, RisesAlong f predicate values →
        CutAt f predicate values (splitByMeasure predicate rope))
      (grow (produce f) [] edits) (grow ListModel.produce [] edits) :=
  (grow_holds f edits).imp fun _ _ h _ => h.splitByMeasure_cut

end Durable7.FingerTree.MeasuredRope
