import Durable7.FingerTree.ReversibleDeque.Edits
import Durable7.Foundation.Branching

/-!
# Histories of reversible deques

A version is a deque or a cursor in one, and stands beside the list its history calls for.
The only error of any edit is that of a list that is too long.
-/

namespace Durable7.FingerTree.ReversibleDeque

open Foundation List Int Nat

variable {α : Type}

/-! ## Reading -/

variable {elements : List (Elem α)}

theorem foldBuild_eq
    (h : ∀ element ∈ elements, ∀ rest, buildElem element rest = elemElements element ++ rest)
    (rest : List α) : foldBuild elements rest = digitElements elements ++ rest := by
  induction elements with
  | nil =>
      rw [foldBuild]
      rfl
  | cons element elements ih =>
      rw [foldBuild, h element mem_cons_self,
        ih fun other hother => h other (mem_cons_of_mem _ hother), digitElements_cons,
        append_assoc]

variable {level : Nat}

theorem buildElem_eq {element : Elem α} (h : ElemValid level element) (rest : List α) :
    buildElem element rest = elemElements element ++ rest := by
  induction level generalizing element rest with
  | zero =>
      cases element with
      | leaf value =>
          rw [buildElem]
          rfl
      | node reversed size children => exact h.elim
  | succ level ih =>
      cases element with
      | leaf value => exact h.elim
      | node reversed size children =>
          rw [buildElem, foldBuild_eq, digitElements_logicalChildren]
          exact fun child hchild => ih ((digitValid_children h).items child hchild)

theorem buildTree_eq {tree : Tree α} (h : TreeValid level tree) (rest : List α) :
    buildTree tree rest = treeElements tree ++ rest := by
  induction hspine : spine tree using Nat.strongRecOn generalizing level tree rest with
  | ind depth ih =>
  cases treeShape h with
  | empty =>
      rw [buildTree]
      rfl
  | single helement =>
      rw [buildTree, buildElem_eq helement]
      rfl
  | @deep _ middle front back hlayer =>
      have hbuild : buildTree tree rest =
          foldBuild front (buildTree middle (foldBuild back rest)) := by
        obtain ⟨⟩ := hlayer.layer
        rw [buildTree]
      rw [hbuild, foldBuild_eq fun element helement =>
          buildElem_eq (hlayer.frontValid.items element helement),
        ih (spine middle) (hspine ▸ hlayer.spine_eq ▸ lt_succ_self _) hlayer.middleValid _ rfl,
        foldBuild_eq fun element helement => buildElem_eq (hlayer.backValid.items element helement),
        hlayer.elements_eq, append_assoc, append_assoc]

/-- A read of an element by its position. -/
def Reads (read : Int → Outcome α) (values : List α) : Prop :=
  ∀ (position : Nat) (value : α), values[position]? = some value → read position = .ok value

theorem getInDigit_reads (hitems : ∀ element ∈ elements, ElemValid level element)
    (h : ∀ element ∈ elements, Reads (elemGetLeaf element) (elemElements element)) :
    Reads (getInDigit elements) (digitElements elements) := by
  induction elements with
  | nil => exact fun position value hget => absurd hget (by simp [digitElements_nil])
  | cons element elements ih =>
      intro position value hget
      have hsize := elemSize_eq (hitems element mem_cons_self)
      rw [digitElements_cons] at hget
      rw [getInDigit, hsize]
      by_cases hlt : position < (elemElements element).length
      · rw [List.getElem?_append_left hlt] at hget
        rw [if_pos (by omega)]
        exact h element mem_cons_self position value hget
      · rw [List.getElem?_append_right (not_lt.mp hlt)] at hget
        rw [if_neg (by omega), ← ofNat_sub (not_lt.mp hlt)]
        exact ih (fun other hother => hitems other (mem_cons_of_mem _ hother))
          (fun other hother => h other (mem_cons_of_mem _ hother)) _ value hget

theorem elemGetLeaf_reads {element : Elem α} (h : ElemValid level element) :
    Reads (elemGetLeaf element) (elemElements element) := by
  induction level generalizing element with
  | zero =>
      cases element with
      | leaf value =>
          intro position found hget
          rw [elemGetLeaf]
          rw [elemElements, List.getElem?_singleton] at hget
          split at hget
          · exact congrArg Except.ok (Option.some.inj hget)
          · cases hget
      | node reversed size children => exact h.elim
  | succ level ih =>
      cases element with
      | leaf value => exact h.elim
      | node reversed size children =>
          have hdigit := digitValid_children h
          have hreads := getInDigit_reads hdigit.items
            fun child hchild => ih (hdigit.items child hchild)
          intro position value hget
          rw [elemGetLeaf]
          rw [← digitElements_logicalChildren] at hget
          exact hreads position value hget

theorem sum_elemSize (h : ∀ element ∈ elements, ElemValid level element) :
    (elements.map elemSize).sum = (digitElements elements).length := by
  induction elements with
  | nil => rfl
  | cons element elements ih =>
      rw [map_cons, sum_cons, elemSize_eq (h element mem_cons_self),
        ih fun other hother => h other (mem_cons_of_mem _ hother), digitElements_cons,
        length_append]
      omega

theorem treeGetLeaf_reads {tree : Tree α} (h : TreeValid level tree) :
    Reads (treeGetLeaf tree) (treeElements tree) := by
  induction hspine : spine tree using Nat.strongRecOn generalizing level tree with
  | ind depth ih =>
  intro position value hget
  cases treeShape h with
  | empty => exact absurd hget (by simp [treeElements])
  | single helement =>
      rw [treeGetLeaf]
      exact elemGetLeaf_reads helement position value hget
  | @deep _ middle front back hlayer =>
      have hread : treeGetLeaf tree position =
          if (position : Int) < (front.map elemSize).sum then getInDigit front position
          else if position - (front.map elemSize).sum < treeSize middle then
            treeGetLeaf middle (position - (front.map elemSize).sum)
          else getInDigit back (position - (front.map elemSize).sum - treeSize middle) := by
        obtain ⟨⟩ := hlayer.layer
        rw [treeGetLeaf]
      have hdigit : ∀ {elements : List (Elem α)}, DigitValid level elements →
          Reads (getInDigit elements) (digitElements elements) := fun hvalid =>
        getInDigit_reads hvalid.items fun element helement =>
          elemGetLeaf_reads (hvalid.items element helement)
      rw [hlayer.elements_eq] at hget
      rw [hread, sum_elemSize hlayer.frontValid.items, treeSize_eq hlayer.middleValid]
      by_cases hfront : position < (digitElements front).length
      · rw [List.getElem?_append_left hfront] at hget
        rw [if_pos (by omega)]
        exact hdigit hlayer.frontValid position value hget
      rw [List.getElem?_append_right (not_lt.mp hfront)] at hget
      rw [if_neg (by omega), ← ofNat_sub (not_lt.mp hfront)]
      by_cases hmiddle : position - (digitElements front).length < (treeElements middle).length
      · rw [List.getElem?_append_left hmiddle] at hget
        rw [if_pos (by omega)]
        exact ih (spine middle) (hspine ▸ hlayer.spine_eq ▸ lt_succ_self _)
          hlayer.middleValid rfl _ value hget
      · rw [List.getElem?_append_right (not_lt.mp hmiddle)] at hget
        rw [if_neg (by omega), ← ofNat_sub (not_lt.mp hmiddle)]
        exact hdigit hlayer.backValid _ value hget

/-! ## Deques -/

structure Refines (deque : ReversibleDeque α) (values : List α) : Prop where
  valid : TreeValid 0 deque.tree
  elements_eq : treeElements deque.tree = values
  fits : Fits values

/-- A list that is no longer than the machine can count. -/
def ListModel.bounded (values : List α) : Outcome (List α) :=
  if (values.length : Int) ≤ maxBound then .ok values else .error .lengthOverflow

variable {values : List α}

theorem bounded_ok (h : Fits values) : ListModel.bounded values = .ok values := if_pos h

theorem bounded_error (h : ¬ Fits values) :
    ListModel.bounded values = .error .lengthOverflow := if_neg h

theorem bounded_agrees {outcome : Outcome (Tree α)} (h : Makes (ShowsTree 0) outcome values) :
    Agrees Refines (do .ok (ReversibleDeque.mk (← outcome))) (ListModel.bounded values) := by
  rcases h with ⟨hfits, tree, rfl, hvalid, hshown⟩ | ⟨hnot, rfl⟩
  · rw [bounded_ok hfits]
    exact .ok ⟨hvalid, hshown, hfits⟩
  · rw [bounded_error hnot]
    exact .error _

variable {outcome : Outcome (ReversibleDeque α)}

theorem bounded_cases (h : Agrees Refines outcome (ListModel.bounded values)) :
    (∃ made, outcome = .ok made ∧ ListModel.bounded values = .ok values ∧ Refines made values) ∨
      (outcome = .error .lengthOverflow ∧
        ListModel.bounded values = .error .lengthOverflow ∧ ¬ Fits values) := by
  by_cases hfits : Fits values
  · rw [bounded_ok hfits] at h ⊢
    cases h with
    | ok hmade => exact .inl ⟨_, rfl, rfl, hmade⟩
  · rw [bounded_error hfits] at h ⊢
    cases h
    exact .inr ⟨rfl, rfl, hfits⟩

theorem refines_empty : Refines (empty : ReversibleDeque α) [] := ⟨trivial, rfl, fits_nil⟩

theorem fits_singleton (value : α) : Fits [value] := by
  change (1 : Int) ≤ maxBound
  decide

theorem refines_singleton (value : α) : Refines (singleton value) [value] :=
  ⟨trivial, rfl, fits_singleton value⟩

section Deques

variable {deque : ReversibleDeque α} {values : List α} (h : Refines deque values)

include h

theorem toList_eq : toList deque = values := by
  rw [toList, buildTree_eq h.valid, append_nil, h.elements_eq]

theorem count_eq : count deque = values.length := by
  rw [count, treeSize_eq h.valid, h.elements_eq]

theorem cons_agrees (value : α) :
    Agrees Refines (cons value deque) (ListModel.bounded (value :: values)) := by
  have hmade := treeCons_makes (show ElemValid 0 (.leaf value) from trivial) (fits_singleton value)
    h.valid
  rw [h.elements_eq] at hmade
  exact bounded_agrees hmade

theorem snoc_agrees (value : α) :
    Agrees Refines (snoc deque value) (ListModel.bounded (values ++ [value])) := by
  have hmade := treeSnoc_makes (show ElemValid 0 (.leaf value) from trivial) (fits_singleton value)
    h.valid
  rw [h.elements_eq] at hmade
  exact bounded_agrees hmade

theorem reverse_refines : Refines (reverse deque) values.reverse := by
  refine ⟨treeValid_mirror h.valid, ?_, ?_⟩
  · rw [reverse, treeElements_mirror, h.elements_eq]
  · have hfits := h.fits
    unfold Fits at hfits ⊢
    rwa [length_reverse]

omit h in
theorem append_agrees {left right : ReversibleDeque α} {front back : List α}
    (hleft : Refines left front) (hright : Refines right back) :
    Agrees Refines (append left right) (ListModel.bounded (front ++ back)) := by
  have hmade := glue_makes hleft.valid (hleft.elements_eq ▸ hleft.fits) (forall_mem_nil _)
    hright.valid (hright.elements_eq ▸ hright.fits)
  rw [hleft.elements_eq, hright.elements_eq, digitElements_nil, nil_append] at hmade
  exact bounded_agrees hmade

omit h in
theorem fold_snoc_agrees (added : List α) (h : Refines deque values) :
    Agrees Refines (added.foldlM snoc deque) (ListModel.bounded (values ++ added)) := by
  induction added generalizing deque values with
  | nil =>
      rw [append_nil, bounded_ok h.fits]
      exact .ok h
  | cons value added ih =>
      have hfirst := snoc_agrees h value
      rw [foldlM_cons]
      generalize snoc deque value = outcome at hfirst ⊢
      rcases bounded_cases hfirst with ⟨made, rfl, -, hnext⟩ | ⟨rfl, -, hnot⟩
      · have hrest := ih hnext
        rw [append_assoc] at hrest
        exact hrest
      · rw [bounded_error]
        · exact .error _
        · intro hwhole
          refine hnot (fits_of_le ?_ hwhole)
          rw [length_append, length_append]
          exact Nat.add_le_add_left (Nat.succ_le_succ (Nat.zero_le _)) _

omit h in
theorem fromList_agrees (added : List α) :
    Agrees Refines (fromList added) (ListModel.bounded added) :=
  fold_snoc_agrees added refines_empty

theorem fits_fromList {added : List α} (hle : added.length ≤ values.length) :
    ∃ made, fromList added = .ok made ∧ Refines made added := by
  rcases bounded_cases (fromList_agrees added) with ⟨made, hmade, -, hrefines⟩ | ⟨-, -, hnot⟩
  · exact ⟨made, hmade, hrefines⟩
  · exact absurd (fits_of_le hle h.fits) hnot

theorem viewL_eq : (values = [] ∧ viewL deque = .ok none) ∨
    ∃ value rest after, values = value :: rest ∧ viewL deque = .ok (some (value, after)) ∧
      Refines after rest := by
  have hview := treeViewL_viewed h.valid (h.elements_eq ▸ h.fits)
  unfold viewL
  generalize treeViewL deque.tree = outcome at hview
  cases hview with
  | empty hnil => exact .inl ⟨h.elements_eq ▸ hnil, rfl⟩
  | @first element rest helement hrest hshown =>
      rw [h.elements_eq] at hshown
      cases element with
      | leaf value =>
          refine .inr ⟨value, _, ⟨rest⟩, hshown, rfl, hrest, rfl, ?_⟩
          exact fits_of_le (by rw [hshown]; exact le_succ _) h.fits
      | node reversed size children => exact helement.elim

theorem viewR_eq : (values = [] ∧ viewR deque = .ok none) ∨
    ∃ value rest after, values = rest ++ [value] ∧ viewR deque = .ok (some (after, value)) ∧
      Refines after rest := by
  have hview := treeViewR_viewed h.valid (h.elements_eq ▸ h.fits)
  unfold viewR
  generalize treeViewR deque.tree = outcome at hview
  cases hview with
  | empty hnil => exact .inl ⟨h.elements_eq ▸ hnil, rfl⟩
  | @last element rest helement hrest hshown =>
      rw [h.elements_eq] at hshown
      cases element with
      | leaf value =>
          refine .inr ⟨value, _, ⟨rest⟩, hshown, rfl, hrest, rfl, ?_⟩
          exact fits_of_le (by rw [hshown]; exact (prefix_append _ _).length_le) h.fits
      | node reversed size children => exact helement.elim

theorem first_eq : first deque = .ok values.head? := by
  rcases viewL_eq h with ⟨rfl, hview⟩ | ⟨value, rest, after, rfl, hview, -⟩
  · rw [first, hview]
    rfl
  · rw [first, hview]
    rfl

theorem last_eq : last deque = .ok values.getLast? := by
  rcases viewR_eq h with ⟨rfl, hview⟩ | ⟨value, rest, after, rfl, hview, -⟩
  · rw [last, hview]
    rfl
  · rw [last, hview, List.getLast?_concat]
    rfl

theorem index_eq (position : Int) :
    index position deque = .ok (if position < 0 then none else values[position.toNat]?) := by
  have hsize : treeSize deque.tree = values.length := count_eq h
  unfold index
  rw [hsize]
  by_cases hnegative : position < 0
  · rw [if_pos (.inl hnegative), if_pos hnegative]
  rw [if_neg hnegative]
  by_cases hlarge : position ≥ values.length
  · rw [if_pos (.inr hlarge), List.getElem?_eq_none (by omega)]
  · have hlt : position.toNat < values.length := by omega
    have hread := treeGetLeaf_reads h.valid position.toNat values[position.toNat]
      (by rw [h.elements_eq, List.getElem?_eq_getElem hlt])
    rw [Int.toNat_of_nonneg (Int.not_lt.mp hnegative)] at hread
    rw [if_neg (by omega), hread, List.getElem?_eq_getElem hlt]
    rfl

end Deques

/-! ## Branching histories -/

/-- One edit.  Versions are numbered in the order they were made. -/
inductive Edit (α : Type) where
  | empty
  | singleton (value : α)
  | fromList (values : List α)
  | cons (value : α) (version : Nat)
  | snoc (version : Nat) (value : α)
  | append (left right : Nat)
  | reverse (version : Nat)
  | viewL (version : Nat)
  | viewR (version : Nat)
  | cursor (version : Nat)
  | cursorAt (position : Int) (version : Nat)
  | cursorMovePrevious (version : Nat)
  | cursorMoveNext (version : Nat)
  | cursorSeek (position : Int) (version : Nat)
  | cursorInsert (value : α) (version : Nat)
  | cursorInsertList (values : List α) (version : Nat)
  | cursorDeletePrevious (version : Nat)
  | cursorDeleteNext (version : Nat)
  | cursorReplaceNext (value : α) (version : Nat)
  | cursorReverse (version : Nat)
  | cursorSnapshot (version : Nat)

inductive Version (α : Type) where
  | deque (deque : ReversibleDeque α)
  | cursor (cursor : Cursor α)

/-- What a version stands for: a list, and a gap in it for a cursor. -/
inductive ListModel.Version (α : Type) where
  | deque (values : List α)
  | cursor (values : List α) (position : Int)

def onDeque (versions : List (Version α)) (version : Nat)
    (edit : ReversibleDeque α → Outcome (List (Version α))) : Outcome (List (Version α)) :=
  onVersion versions version fun
    | .deque deque => edit deque
    | .cursor _ => .ok []

def onCursor (versions : List (Version α)) (version : Nat)
    (edit : Cursor α → Outcome (List (Version α))) : Outcome (List (Version α)) :=
  onVersion versions version fun
    | .deque _ => .ok []
    | .cursor cursor => edit cursor

def madeDeque (outcome : Outcome (ReversibleDeque α)) : Outcome (List (Version α)) :=
  outcome.map fun deque => [.deque deque]

def madeCursor (outcome : Outcome (Option (Cursor α))) : Outcome (List (Version α)) :=
  outcome.map fun cursor => (cursor.map .cursor).toList

def produce (versions : List (Version α)) : Edit α → Outcome (List (Version α))
  | .empty => madeDeque (.ok empty)
  | .singleton value => madeDeque (.ok (singleton value))
  | .fromList values => madeDeque (fromList values)
  | .cons value version => onDeque versions version fun deque => madeDeque (cons value deque)
  | .snoc version value => onDeque versions version fun deque => madeDeque (snoc deque value)
  | .append left right => onDeque versions left fun front =>
      onDeque versions right fun back => madeDeque (append front back)
  | .reverse version => onDeque versions version fun deque => madeDeque (.ok (reverse deque))
  | .viewL version => onDeque versions version fun deque =>
      (viewL deque).map fun view => (view.map fun parts => .deque parts.2).toList
  | .viewR version => onDeque versions version fun deque =>
      (viewR deque).map fun view => (view.map fun parts => .deque parts.1).toList
  | .cursor version => onDeque versions version fun deque => madeCursor (.ok (some (cursor deque)))
  | .cursorAt position version => onDeque versions version fun deque =>
      madeCursor (.ok (cursorAt position deque))
  | .cursorMovePrevious version => onCursor versions version fun cursor =>
      madeCursor (.ok (cursorMovePrevious cursor))
  | .cursorMoveNext version => onCursor versions version fun cursor =>
      madeCursor (.ok (cursorMoveNext cursor))
  | .cursorSeek position version => onCursor versions version fun cursor =>
      madeCursor (.ok (cursorSeek position cursor))
  | .cursorInsert value version => onCursor versions version fun cursor =>
      madeCursor ((cursorInsert value cursor).map some)
  | .cursorInsertList values version => onCursor versions version fun cursor =>
      madeCursor ((cursorInsertList values cursor).map some)
  | .cursorDeletePrevious version => onCursor versions version fun cursor =>
      madeCursor (cursorDeletePrevious cursor)
  | .cursorDeleteNext version => onCursor versions version fun cursor =>
      madeCursor (cursorDeleteNext cursor)
  | .cursorReplaceNext value version => onCursor versions version fun cursor =>
      madeCursor (cursorReplaceNext value cursor)
  | .cursorReverse version => onCursor versions version fun cursor =>
      madeCursor (.ok (some (cursorReverse cursor)))
  | .cursorSnapshot version => onCursor versions version fun cursor =>
      madeDeque (.ok (cursorSnapshot cursor))

def ListModel.onDeque (models : List (ListModel.Version α)) (version : Nat)
    (edit : List α → Outcome (List (ListModel.Version α))) :
    Outcome (List (ListModel.Version α)) :=
  onVersion models version fun
    | .deque values => edit values
    | .cursor _ _ => .ok []

def ListModel.onCursor (models : List (ListModel.Version α)) (version : Nat)
    (edit : List α → Int → Outcome (List (ListModel.Version α))) :
    Outcome (List (ListModel.Version α)) :=
  onVersion models version fun
    | .deque _ => .ok []
    | .cursor values position => edit values position

def ListModel.madeDeque (outcome : Outcome (List α)) : Outcome (List (ListModel.Version α)) :=
  outcome.map fun values => [.deque values]

def ListModel.madeCursor (outcome : Outcome (List α)) (position : Int) :
    Outcome (List (ListModel.Version α)) :=
  outcome.map fun values => [.cursor values position]

def ListModel.cursorAt (position : Int) (values : List α) : Outcome (List (ListModel.Version α)) :=
  if position < 0 ∨ position > values.length then .ok []
  else madeCursor (.ok values) position

def ListModel.cursorInsertList (inserted values : List α) (position : Int) :
    Outcome (List (ListModel.Version α)) :=
  madeCursor
    (bounded (values.take position.toNat ++ inserted ++ values.drop position.toNat))
    (position + inserted.length)

def ListModel.produce (models : List (ListModel.Version α)) :
    Edit α → Outcome (List (ListModel.Version α))
  | .empty => madeDeque (.ok [])
  | .singleton value => madeDeque (.ok [value])
  | .fromList values => madeDeque (bounded values)
  | .cons value version => onDeque models version fun values =>
      madeDeque (bounded (value :: values))
  | .snoc version value => onDeque models version fun values =>
      madeDeque (bounded (values ++ [value]))
  | .append left right => onDeque models left fun front =>
      onDeque models right fun back => madeDeque (bounded (front ++ back))
  | .reverse version => onDeque models version fun values => madeDeque (.ok values.reverse)
  | .viewL version => onDeque models version fun values =>
      if values.isEmpty then .ok [] else madeDeque (.ok values.tail)
  | .viewR version => onDeque models version fun values =>
      if values.isEmpty then .ok [] else madeDeque (.ok values.dropLast)
  | .cursor version => onDeque models version fun values => madeCursor (.ok values) 0
  | .cursorAt position version => onDeque models version fun values => cursorAt position values
  | .cursorMovePrevious version => onCursor models version fun values position =>
      cursorAt (position - 1) values
  | .cursorMoveNext version => onCursor models version fun values position =>
      cursorAt (position + 1) values
  | .cursorSeek target version => onCursor models version fun values _ => cursorAt target values
  | .cursorInsert value version => onCursor models version fun values position =>
      cursorInsertList [value] values position
  | .cursorInsertList inserted version => onCursor models version fun values position =>
      cursorInsertList inserted values position
  | .cursorDeletePrevious version => onCursor models version fun values position =>
      if position = 0 then .ok []
      else madeCursor (.ok (values.eraseIdx (position - 1).toNat)) (position - 1)
  | .cursorDeleteNext version => onCursor models version fun values position =>
      if position = values.length then .ok []
      else madeCursor (.ok (values.eraseIdx position.toNat)) position
  | .cursorReplaceNext value version => onCursor models version fun values position =>
      if position = values.length then .ok []
      else madeCursor (.ok (values.set position.toNat value)) position
  | .cursorReverse version => onCursor models version fun values position =>
      madeCursor (.ok values.reverse) (values.length - position)
  | .cursorSnapshot version => onCursor models version fun values _ => madeDeque (.ok values)

/-! ## Refinement -/

structure RefinesCursor (cursor : Cursor α) (values : List α) (position : Int) : Prop where
  deque : Refines cursor.deque values
  position_eq : cursor.position = position
  low : 0 ≤ position
  high : position ≤ values.length

inductive RefinesVersion : Version α → ListModel.Version α → Prop where
  | deque {deque : ReversibleDeque α} {values : List α} (h : Refines deque values) :
      RefinesVersion (.deque deque) (.deque values)
  | cursor {cursor : Cursor α} {values : List α} {position : Int}
      (h : RefinesCursor cursor values position) :
      RefinesVersion (.cursor cursor) (.cursor values position)

abbrev Added (outcome : Outcome (List (Version α)))
    (expected : Outcome (List (ListModel.Version α))) : Prop :=
  Agrees (List.Forall₂ RefinesVersion) outcome expected

section

variable {versions : List (Version α)} {models : List (ListModel.Version α)}
  (h : List.Forall₂ RefinesVersion versions models)
include h

theorem onDeque_added (version : Nat) {edit : ReversibleDeque α → Outcome (List (Version α))}
    {expected : List α → Outcome (List (ListModel.Version α))}
    (hedit : ∀ deque values, Refines deque values → Added (edit deque) (expected values)) :
    Added (onDeque versions version edit) (ListModel.onDeque models version expected) := by
  refine onVersion_agrees h version fun _ _ hrefines => ?_
  cases hrefines with
  | deque hdeque => exact hedit _ _ hdeque
  | cursor hcursor => exact .ok .nil

theorem onCursor_added (version : Nat) {edit : Cursor α → Outcome (List (Version α))}
    {expected : List α → Int → Outcome (List (ListModel.Version α))}
    (hedit : ∀ cursor values position, RefinesCursor cursor values position →
      Added (edit cursor) (expected values position)) :
    Added (onCursor versions version edit) (ListModel.onCursor models version expected) := by
  refine onVersion_agrees h version fun _ _ hrefines => ?_
  cases hrefines with
  | deque hdeque => exact .ok .nil
  | cursor hcursor => exact hedit _ _ _ hcursor

end

theorem madeDeque_added {expected : Outcome (List α)} (h : Agrees Refines outcome expected) :
    Added (madeDeque outcome) (ListModel.madeDeque expected) :=
  h.map fun _ _ hrefines => .cons (.deque hrefines) .nil

theorem madeCursor_added {cursor : Cursor α} {position : Int}
    (h : RefinesCursor cursor values position) :
    Added (madeCursor (.ok (some cursor))) (ListModel.madeCursor (.ok values) position) :=
  .ok (.cons (.cursor h) .nil)

theorem cursorAt_added {deque : ReversibleDeque α} (h : Refines deque values) (position : Int) :
    Added (madeCursor (.ok (cursorAt position deque))) (ListModel.cursorAt position values) := by
  rw [cursorAt, ListModel.cursorAt, count_eq h]
  split
  · exact .ok .nil
  · rename_i hin
    exact madeCursor_added ⟨h, rfl, by omega, by omega⟩

section Cursors

variable {cursor : Cursor α} {values : List α} {position : Int}
  (h : RefinesCursor cursor values position)

include h

theorem cursorMoveNext_added :
    Added (madeCursor (.ok (cursorMoveNext cursor)))
      (ListModel.cursorAt (position + 1) values) := by
  rw [cursorMoveNext, count_eq h.deque, h.position_eq]
  split
  · rw [ListModel.cursorAt, if_pos (.inr (by omega))]
    exact .ok .nil
  · exact cursorAt_added h.deque _

theorem cursorInsertList_added (inserted : List α) :
    Added (madeCursor ((cursorInsertList inserted cursor).map some))
      (ListModel.cursorInsertList inserted values position) := by
  have hlow := h.low
  have hhigh := h.high
  cases inserted with
  | nil =>
      rw [ListModel.cursorInsertList, append_nil, take_append_drop, bounded_ok h.deque.fits]
      exact madeCursor_added ⟨h.deque, by rw [h.position_eq]; exact (add_zero _).symm,
        by rw [length_nil]; omega, by rw [length_nil]; omega⟩
  | cons value rest =>
      have hmade := fromList_agrees
        (values.take position.toNat ++ value :: rest ++ values.drop position.toNat)
      rw [cursorInsertList, ListModel.cursorInsertList, toList_eq h.deque, splitAt_eq,
        h.position_eq]
      · dsimp only
        have hlength : (values.take position.toNat ++ value :: rest ++
            values.drop position.toNat).length = values.length + (value :: rest).length := by
          rw [length_append, length_append, length_take, length_drop]
          omega
        generalize values.take position.toNat ++ value :: rest ++
          values.drop position.toNat = whole at hmade hlength ⊢
        rcases bounded_cases hmade with ⟨made, hok, hbounded, hrefines⟩ | ⟨herror, hbounded, -⟩
        · rw [hok, hbounded]
          exact madeCursor_added ⟨hrefines, rfl, by omega, by omega⟩
        · rw [herror, hbounded]
          exact .error _
      · exact nofun

theorem cursorDeletePrevious_added :
    Added (madeCursor (cursorDeletePrevious cursor))
      (if position = 0 then .ok []
        else ListModel.madeCursor (.ok (values.eraseIdx (position - 1).toNat)) (position - 1)) := by
  have hlow := h.low
  have hhigh := h.high
  rw [cursorDeletePrevious, h.position_eq, toList_eq h.deque]
  split
  · exact .ok .nil
  · have hsplit : values.take (position - 1).toNat ++ values.drop position.toNat =
        values.eraseIdx (position - 1).toNat := by
      rw [eraseIdx_eq_take_drop_succ, show (position - 1).toNat + 1 = position.toNat by omega]
    have hlength : (values.eraseIdx (position - 1).toNat).length + 1 = values.length :=
      length_eraseIdx_add_one (by omega)
    obtain ⟨made, hmade, hrefines⟩ := fits_fromList h.deque
      (show (values.eraseIdx (position - 1).toNat).length ≤ values.length by omega)
    dsimp only
    rw [hsplit, hmade]
    exact madeCursor_added ⟨hrefines, rfl, by omega, by omega⟩

theorem cursorDeleteNext_added :
    Added (madeCursor (cursorDeleteNext cursor))
      (if position = values.length then .ok []
        else ListModel.madeCursor (.ok (values.eraseIdx position.toNat)) position) := by
  have hlow := h.low
  have hhigh := h.high
  rw [cursorDeleteNext, h.position_eq, toList_eq h.deque, count_eq h.deque]
  split
  · exact .ok .nil
  · have hsplit : values.take position.toNat ++ values.drop (position + 1).toNat =
        values.eraseIdx position.toNat := by
      rw [eraseIdx_eq_take_drop_succ, show (position + 1).toNat = position.toNat + 1 by omega]
    have hlength : (values.eraseIdx position.toNat).length + 1 = values.length :=
      length_eraseIdx_add_one (by omega)
    obtain ⟨made, hmade, hrefines⟩ := fits_fromList h.deque
      (show (values.eraseIdx position.toNat).length ≤ values.length by omega)
    dsimp only
    rw [hsplit, hmade]
    exact madeCursor_added ⟨hrefines, rfl, by omega, by omega⟩

theorem cursorReplaceNext_added (value : α) :
    Added (madeCursor (cursorReplaceNext value cursor))
      (if position = values.length then .ok []
        else ListModel.madeCursor (.ok (values.set position.toNat value)) position) := by
  have hlow := h.low
  have hhigh := h.high
  rw [cursorReplaceNext, h.position_eq, toList_eq h.deque, count_eq h.deque]
  split
  · exact .ok .nil
  · have hsplit : values.take position.toNat ++ value :: values.drop (position + 1).toNat =
        values.set position.toNat value := by
      rw [set_eq_take_append_cons_drop, if_pos (by omega),
        show (position + 1).toNat = position.toNat + 1 by omega]
    have hlength : (values.set position.toNat value).length = values.length := length_set
    obtain ⟨made, hmade, hrefines⟩ := fits_fromList h.deque
      (show (values.set position.toNat value).length ≤ values.length by omega)
    dsimp only
    rw [hsplit, hmade]
    exact madeCursor_added ⟨hrefines, rfl, by omega, by omega⟩

theorem cursorReverse_added :
    Added (madeCursor (.ok (some (cursorReverse cursor))))
      (ListModel.madeCursor (.ok values.reverse) (values.length - position)) := by
  have hlow := h.low
  have hhigh := h.high
  refine madeCursor_added ⟨reverse_refines h.deque, ?_, by omega, ?_⟩
  · rw [cursorReverse, count_eq h.deque, h.position_eq]
  · rw [length_reverse]
    omega

end Cursors

section

variable {deque : ReversibleDeque α} {values : List α} (h : Refines deque values)
include h

theorem viewL_added :
    Added ((viewL deque).map fun view => (view.map fun parts => Version.deque parts.2).toList)
      (if values.isEmpty then .ok [] else ListModel.madeDeque (.ok values.tail)) := by
  rcases viewL_eq h with ⟨rfl, hview⟩ | ⟨value, rest, after, rfl, hview, hafter⟩
  · rw [hview]
    exact .ok .nil
  · rw [hview]
    exact .ok (.cons (.deque hafter) .nil)

theorem viewR_added :
    Added ((viewR deque).map fun view => (view.map fun parts => Version.deque parts.1).toList)
      (if values.isEmpty then .ok [] else ListModel.madeDeque (.ok values.dropLast)) := by
  rcases viewR_eq h with ⟨rfl, hview⟩ | ⟨value, rest, after, rfl, hview, hafter⟩
  · rw [hview]
    exact .ok .nil
  · rw [hview, if_neg (by simp), dropLast_concat]
    exact .ok (.cons (.deque hafter) .nil)

end

theorem produce_agrees (versions : List (Version α)) (models : List (ListModel.Version α))
    (edit : Edit α) (h : List.Forall₂ RefinesVersion versions models) :
    Added (produce versions edit) (ListModel.produce models edit) := by
  cases edit with
  | empty => exact madeDeque_added (.ok refines_empty)
  | singleton value => exact madeDeque_added (.ok (refines_singleton value))
  | fromList values => exact madeDeque_added (fromList_agrees values)
  | cons value version =>
      exact onDeque_added h version fun _ _ hdeque => madeDeque_added (cons_agrees hdeque value)
  | snoc version value =>
      exact onDeque_added h version fun _ _ hdeque => madeDeque_added (snoc_agrees hdeque value)
  | append left right =>
      exact onDeque_added h left fun _ _ hleft => onDeque_added h right fun _ _ hright =>
        madeDeque_added (append_agrees hleft hright)
  | reverse version =>
      exact onDeque_added h version fun _ _ hdeque => madeDeque_added (.ok (reverse_refines hdeque))
  | viewL version => exact onDeque_added h version fun _ _ hdeque => viewL_added hdeque
  | viewR version => exact onDeque_added h version fun _ _ hdeque => viewR_added hdeque
  | cursor version =>
      exact onDeque_added h version fun _ _ hdeque =>
        madeCursor_added ⟨hdeque, rfl, Int.le_refl _, Int.natCast_nonneg _⟩
  | cursorAt position version =>
      exact onDeque_added h version fun _ _ hdeque => cursorAt_added hdeque position
  | cursorMovePrevious version =>
      exact onCursor_added h version fun _ _ _ hcursor => by
        rw [cursorMovePrevious, hcursor.position_eq]
        exact cursorAt_added hcursor.deque _
  | cursorMoveNext version =>
      exact onCursor_added h version fun _ _ _ hcursor => cursorMoveNext_added hcursor
  | cursorSeek position version =>
      exact onCursor_added h version fun _ _ _ hcursor => cursorAt_added hcursor.deque position
  | cursorInsert value version =>
      exact onCursor_added h version fun _ _ _ hcursor => cursorInsertList_added hcursor [value]
  | cursorInsertList values version =>
      exact onCursor_added h version fun _ _ _ hcursor => cursorInsertList_added hcursor values
  | cursorDeletePrevious version =>
      exact onCursor_added h version fun _ _ _ hcursor => cursorDeletePrevious_added hcursor
  | cursorDeleteNext version =>
      exact onCursor_added h version fun _ _ _ hcursor => cursorDeleteNext_added hcursor
  | cursorReplaceNext value version =>
      exact onCursor_added h version fun _ _ _ hcursor => cursorReplaceNext_added hcursor value
  | cursorReverse version =>
      exact onCursor_added h version fun _ _ _ hcursor => cursorReverse_added hcursor
  | cursorSnapshot version =>
      exact onCursor_added h version fun _ _ _ hcursor => madeDeque_added (.ok hcursor.deque)

/-- What a deque shows of its list, over a tree whose digits, depths and counts are right. -/
structure Observes (deque : ReversibleDeque α) (values : List α) : Prop where
  valid : TreeValid 0 deque.tree
  bounded : (values.length : Int) ≤ maxBound
  listed : toList deque = values
  counted : count deque = values.length
  nothing : null deque = values.isEmpty
  front : first deque = .ok values.head?
  back : last deque = .ok values.getLast?
  indexed : ∀ position : Int, index position deque =
    .ok (if position < 0 then none else values[position.toNat]?)

inductive ObservesVersion : Version α → ListModel.Version α → Prop where
  | deque {deque : ReversibleDeque α} {values : List α} (h : Observes deque values) :
      ObservesVersion (.deque deque) (.deque values)
  | cursor {cursor : Cursor α} {values : List α} {position : Int}
      (h : Observes (cursorSnapshot cursor) values)
      (hposition : cursorPosition cursor = position) (hlow : 0 ≤ position)
      (hhigh : position ≤ cursorCount cursor)
      (hstart : cursorIsAtStart cursor = decide (position = 0))
      (hend : cursorIsAtEnd cursor = decide (position = values.length))
      (hprevious : cursorPeekPrevious cursor =
        .ok (if position = 0 then none else values[(position - 1).toNat]?))
      (hnext : cursorPeekNext cursor = .ok values[position.toNat]?) :
      ObservesVersion (.cursor cursor) (.cursor values position)

theorem observes {deque : ReversibleDeque α} (h : Refines deque values) :
    Observes deque values where
  valid := h.valid
  bounded := h.fits
  listed := toList_eq h
  counted := count_eq h
  nothing := by
    rw [null, count_eq h]
    cases values with
    | nil => rfl
    | cons value values => exact beq_eq_false_iff_ne.mpr (natCast_ne_zero.mpr (succ_ne_zero _))
  front := first_eq h
  back := last_eq h
  indexed := index_eq h

theorem observesVersion {version : Version α} {model : ListModel.Version α}
    (h : RefinesVersion version model) : ObservesVersion version model := by
  cases h with
  | deque hdeque => exact .deque (observes hdeque)
  | @cursor cursor values position hcursor =>
      have hlow := hcursor.low
      have hcount : cursorCount cursor = values.length := count_eq hcursor.deque
      refine .cursor (observes hcursor.deque) hcursor.position_eq hlow (hcount ▸ hcursor.high) ?_ ?_
        ?_ ?_
      · rw [cursorIsAtStart, cursorPosition, hcursor.position_eq]
        rfl
      · rw [cursorIsAtEnd, cursorPosition, hcursor.position_eq, hcount]
        rfl
      · rw [cursorPeekPrevious, hcursor.position_eq, index_eq hcursor.deque]
        congr 1
        exact if_congr (by omega) rfl rfl
      · rw [cursorPeekNext, hcursor.position_eq, index_eq hcursor.deque,
          if_neg (Int.not_lt.mpr hlow)]

/-- Every version of every branching history shows its list, and an edit fails only when its
list is too long. -/
theorem deques_exact (edits : List (Edit α)) :
    List.Forall₂ ObservesVersion (grow produce [] edits) (grow ListModel.produce [] edits) ∧
      ∀ edit, Agrees (List.Forall₂ ObservesVersion) (produce (grow produce [] edits) edit)
        (ListModel.produce (grow ListModel.produce [] edits) edit) := by
  have hrefines : List.Forall₂ RefinesVersion (grow produce ([] : List (Version α)) edits)
      (grow ListModel.produce [] edits) := grow_refines produce_agrees .nil edits
  refine ⟨hrefines.imp fun _ _ => observesVersion, fun edit => ?_⟩
  exact (produce_agrees _ _ edit hrefines).imp fun _ _ hadded =>
    hadded.imp fun _ _ => observesVersion

end Durable7.FingerTree.ReversibleDeque
