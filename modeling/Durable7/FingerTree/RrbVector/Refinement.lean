import Durable7.FingerTree.RrbVector.Splicing
import Durable7.Foundation.ListModel

/-!
# Vectors as lists

A vector represents the list of its elements.  Each operation is an operation of
this list, and none of the error branches of the nodes is taken.  The height is
followed through every operation, as only an append can raise it.
-/

namespace Durable7.FingerTree.RrbVector

open Foundation List Nat

variable {α : Type}

/-- A root is a leaf, or a branch with more than one child. -/
def Rooted (node : Node α) : Prop := nodeHeight node = 0 ∨ 2 ≤ arity node

inductive Represents : RrbVector α → List α → Prop
  | empty : Represents ⟨none⟩ []
  | rooted {height : Nat} {node : Node α} {values : List α} :
      Row height [node] values → Rooted node → Represents ⟨some node⟩ values

namespace Represents

variable {vector : RrbVector α} {values : List α}

section

variable (h : Represents vector values)
include h

theorem toList_eq : vector.toList = values := by
  cases h with
  | empty => rfl
  | rooted hrow _ => exact hrow.head.2

theorem count_eq : vector.count = values.length := by
  cases h with
  | empty => rfl
  | rooted hrow _ =>
      obtain ⟨hwell, hcontents⟩ := hrow.head
      rw [← hcontents, ← hwell.count_eq]
      rfl

theorem null_eq : vector.null = values.isEmpty := by
  cases h with
  | empty => rfl
  | rooted hrow _ =>
      obtain ⟨hwell, hcontents⟩ := hrow.head
      have hpos := hwell.count_pos
      rw [hwell.count_eq, hcontents] at hpos
      rw [isEmpty_eq_false_iff.mpr (length_pos_iff.mp hpos)]
      rfl

end

end Represents

theorem fromNode_spec {height : Nat} {node : Node α} (h : WellFormed height node) :
    Represents (fromNode node) (nodeToList node) ∧ (fromNode node).height ≤ height := by
  induction h with
  | @leaf values hne hlength =>
      have hleaf := WellFormed.leaf hne hlength
      rw [fromNode]
      · exact ⟨.rooted (Row.single hleaf) (.inl rfl), le_refl 0⟩
      · simp
  | @branch height count children sizes hne hlength hchildren hsum hsizes ih =>
      have hnode := WellFormed.branch hne hlength hchildren hsum hsizes
      match children, hne with
      | [only], _ =>
          obtain ⟨hrepresents, hheight⟩ := ih only (by simp)
          rw [fromNode, nodeToList_branch]
          exact ⟨by simpa using hrepresents, by omega⟩
      | first :: second :: rest, _ =>
          rw [fromNode]
          · exact ⟨.rooted (Row.single hnode) (.inr (by simp [arity])), le_refl _⟩
          · simp

theorem fromNode_wide {node : Node α} (h : 2 ≤ arity node) : fromNode node = ⟨some node⟩ := by
  match node with
  | .leaf values =>
      rw [fromNode]
      simp
  | .branch _ _ [] _ => simp [arity] at h
  | .branch _ _ [_] _ => simp [arity] at h
  | .branch _ _ (_ :: _ :: _) _ =>
      rw [fromNode]
      simp

theorem fromRoot_spec {height : Nat} {root : Option (Node α)} {values : List α}
    (h : Row height root.toList values) :
    Represents (fromRoot root) values ∧ (fromRoot root).height ≤ height := by
  cases root with
  | none =>
      rw [← h.contents]
      exact ⟨.empty, zero_le _⟩
  | some node =>
      obtain ⟨hwell, hcontents⟩ := h.head
      rw [← hcontents]
      exact fromNode_spec hwell

theorem singleton_spec (value : α) :
    singleton value = .ok ⟨some (.leaf [value])⟩ ∧ Represents ⟨some (.leaf [value])⟩ [value] := by
  obtain ⟨hleaf, hwell⟩ := leafFromList_spec [value] (by simp) (by simp [branchFactor])
  have hrow := Row.single hwell
  rw [nodeToList_leaf] at hrow
  exact ⟨by rw [singleton, hleaf, except_ok_bind], .rooted hrow (.inl rfl)⟩

theorem fromList_spec {values : List α} (hvalues : values.length ≤ maxBound) :
    ∃ vector, fromList values = .ok vector ∧ Represents vector values ∧
      vector.height < maximumHeight := by
  obtain ⟨leaves, hleaves, hrow, hlength⟩ :=
    @mapM_row α α 0 leafFromList id (chunksOf branchFactor values) (by
      intro chunk hchunk
      obtain ⟨hne, hle⟩ := mem_chunksOf branchFactor hchunk
      obtain ⟨hleaf, hwell⟩ := leafFromList_spec chunk hne hle
      have hrow := Row.single hwell
      rw [nodeToList_leaf] at hrow
      exact ⟨.leaf chunk, hleaf, hrow⟩)
  rw [flatMap_id, flatten_chunksOf] at hrow
  rw [fromList, hleaves, except_ok_bind]
  match leaves, hrow, hlength with
  | [], hrow, _ =>
      rw [← hrow.contents]
      exact ⟨⟨none⟩, rfl, .empty, show 0 < maximumHeight by decide⟩
  | [leaf], hrow, _ =>
      refine ⟨⟨some leaf⟩, ?_, .rooted hrow (.inl (hrow.height_eq (by simp))), ?_⟩
      · rw [if_neg (by simp), buildLevel, except_ok_bind]
      · rw [height, Option.elim_some, hrow.height_eq (by simp)]
        decide
  | first :: second :: rest, hrow, hlength =>
      have hmost : (first :: second :: rest).length ≤ branchFactor ^ (11 + 1) := by
        rw [hlength]
        apply length_chunksOf_le_of
        refine le_trans hvalues ?_
        decide
      obtain ⟨root, rootHeight, hroot, hrootRow, hle, harity⟩ :=
        buildLevel_spec 11 hrow (by simp) hmost hvalues (by decide)
      refine ⟨⟨some root⟩, ?_, .rooted hrootRow (.inr harity), ?_⟩
      · rw [if_neg (by simp), hroot, except_ok_bind]
      · rw [height, Option.elim_some, hrootRow.height_eq (by simp)]
        have : maximumHeight = 13 := rfl
        omega

theorem index_spec {vector : RrbVector α} {values : List α} (h : Represents vector values)
    (position : Int) : index position vector = .ok (elementAt position values) := by
  rw [index, elementAt]
  split
  · rfl
  · rename_i hnonneg
    cases h with
    | empty => rfl
    | @rooted height node values hrow hroot =>
        obtain ⟨hwell, hcontents⟩ := hrow.head
        have hcount := hwell.count_eq
        rw [hcontents] at hcount
        simp only
        split
        · rename_i hbeyond
          rw [List.getElem?_eq_none (by omega)]
        · rename_i hinside
          obtain ⟨value, hvalue, hindex⟩ := indexNode_spec hwell
            (show position.toNat < nodeCount node by omega)
          rw [hcontents] at hvalue
          rw [hindex, hvalue]
          rfl

/-- A list with the element at a position replaced, unless it is the same value already. -/
def replaceAt (same : α → α → Bool) (position : Int) (value : α) (values : List α) :
    Option (List α) :=
  if position < 0 ∨ position ≥ values.length then none
  else some (values.modify position.toNat fun old => if same old value then old else value)

theorem modify_of_getElem? {values : List α} {position : Nat} {old : α}
    (h : values[position]? = some old) (change : α → α) :
    values.modify position change = values.set position (change old) := by
  apply ext_getElem?
  intro other
  rw [List.getElem?_modify, List.getElem?_set]
  by_cases heq : position = other
  · subst heq
    obtain ⟨hlt, hget⟩ := List.getElem?_eq_some_iff.mp h
    simp [hget, hlt]
  · simp [heq]

theorem setAt_spec [BEq α] {vector : RrbVector α} {values : List α}
    (h : Represents vector values) (hvalues : values.length ≤ maxBound)
    (hheight : vector.height ≤ maxBound) (identical : α → α → Bool) (position : Int) (value : α) :
    ∃ result, setAt identical position value vector = .ok result ∧
      Option.Rel (fun updated list => Represents updated list ∧ updated.height = vector.height)
        result (replaceAt (sameValue identical) position value values) := by
  rw [setAt, replaceAt]
  by_cases hneg : position < 0
  · rw [if_pos hneg, if_pos (.inl hneg)]
    exact ⟨none, rfl, .none⟩
  rw [if_neg hneg]
  cases h with
  | empty =>
      rw [if_pos (by simp; omega)]
      exact ⟨none, rfl, .none⟩
  | @rooted height node values hrow hroot =>
      obtain ⟨hwell, hcontents⟩ := hrow.head
      have hcount := hwell.count_eq
      rw [hcontents] at hcount
      by_cases hbeyond : position ≥ nodeCount node
      · rw [if_pos (by omega)]
        simp only [if_pos hbeyond]
        exact ⟨none, rfl, .none⟩
      have hheights : height ≤ maxBound := by
        rw [← hwell.height_eq]
        exact hheight
      obtain ⟨old, updated, hold, hset, hkept, hreplaced⟩ := setNode_spec hwell
        (show position.toNat < nodeCount node by omega) (by omega) hheights identical value
      rw [hcontents] at hold hreplaced
      rw [if_neg (by omega), modify_of_getElem? hold]
      simp only [if_neg hbeyond, hset, except_ok_bind]
      refine ⟨_, rfl, .some ?_⟩
      cases hsame : sameValue identical old value with
      | true =>
          obtain ⟨hlt, hget⟩ := List.getElem?_eq_some_iff.mp hold
          have hself : values.set position.toNat old = values := by rw [← hget, set_getElem_self]
          simp only [Bool.not_true, Bool.false_eq_true, if_false, if_true, hself]
          exact ⟨.rooted hrow hroot, trivial⟩
      | false =>
          obtain ⟨hresult, harity⟩ := hreplaced hsame
          have hnew := hresult.height_eq (mem_singleton_self updated)
          simp only [Bool.not_false, if_true, Bool.false_eq_true, if_false]
          refine ⟨.rooted hresult ?_, ?_⟩
          · rw [Rooted, hnew, harity, ← hwell.height_eq]
            exact hroot
          · change nodeHeight updated = nodeHeight node
            rw [hnew, hwell.height_eq]

/-! ## Concatenation -/

/-- The number of roots before the new vector gets its one root. -/
def appendWidth (left right : RrbVector α) : Nat :=
  match left.root, right.root with
  | some leftRoot, some rightRoot => seamWidth leftRoot rightRoot
  | _, _ => 1

variable {lefts rights : List α}

theorem append_spec {left right : RrbVector α}
    (hleft : Represents left lefts) (hright : Represents right rights)
    (hvalues : lefts.length + rights.length ≤ maxBound) (hheight : left.height < maxBound)
    (hheight' : right.height < maxBound) :
    ∃ joined, append left right = .ok joined ∧ Represents joined (lefts ++ rights) ∧
      joined.height + 1 ≤ max left.height right.height + appendWidth left right ∧
      (appendWidth left right = 2 → joined.height = max left.height right.height + 1) ∧
      0 < appendWidth left right ∧ appendWidth left right ≤ 2 := by
  cases hleft with
  | empty =>
      rw [append, nil_append]
      refine ⟨right, rfl, hright, ?_, by simp [appendWidth], by simp [appendWidth]⟩
      simp only [appendWidth]
      omega
  | @rooted height leftRoot _ hleftRow hleftRooted =>
      cases hright with
      | empty =>
          rw [append, append_nil]
          · refine ⟨⟨some leftRoot⟩, rfl, .rooted hleftRow hleftRooted, ?_, by simp [appendWidth],
              by simp [appendWidth]⟩
            simp only [appendWidth]
            omega
      | @rooted height' rightRoot _ hrightRow hrightRooted =>
          obtain ⟨hleftWell, hleftContents⟩ := hleftRow.head
          obtain ⟨hrightWell, hrightContents⟩ := hrightRow.head
          have hleftHeight : RrbVector.height ⟨some leftRoot⟩ = height := hleftWell.height_eq
          have hrightHeight : RrbVector.height ⟨some rightRoot⟩ = height' := hrightWell.height_eq
          rw [hleftHeight] at hheight ⊢
          rw [hrightHeight] at hheight' ⊢
          have hwidth : appendWidth ⟨some leftRoot⟩ ⟨some rightRoot⟩ =
            seamWidth leftRoot rightRoot := rfl
          obtain ⟨roots, hroots, hrow, hlength⟩ := concatNodes_spec hleftWell hrightWell
            (by rw [hleftContents, hrightContents, length_append]; exact hvalues) (by omega)
          have hbounds := @climbSeam_bounds 2 (lastEdge leftRoot) (firstEdge rightRoot) (by omega)
          rw [← seamWidth, ← hlength] at hbounds
          rw [hleftContents, hrightContents] at hrow
          rw [hwidth, ← hlength, append]
          simp only
          rw [hleftWell.count_eq, hrightWell.count_eq, hleftContents, hrightContents,
            checkedAdd_eq hvalues, except_ok_bind, hroots, except_ok_bind]
          cases roots with
          | nil => simp at hbounds
          | cons first others =>
          cases others with
          | nil =>
              obtain ⟨hrepresents, hle⟩ := @fromRoot_spec _ _ (some first) _ hrow
              exact ⟨_, rfl, hrepresents, by simpa using hle, by simp, by simp⟩
          | cons second rest =>
              obtain ⟨parent, hparent, hparentRow, harity⟩ := mkBranch_spec hrow (by simp)
                (by have : branchFactor = 32 := rfl; omega)
                (by rw [length_append]; exact hvalues) (by omega)
              have hwide : 2 ≤ arity parent := by
                rw [harity]
                simp
              have hnew := hparentRow.height_eq (mem_singleton_self parent)
              have hjoined : RrbVector.height ⟨some parent⟩ = max height height' + 1 := hnew
              rw [fromRoots, hparent, except_ok_bind, fromRoot, fromNode_wide hwide]
              refine ⟨_, rfl, .rooted hparentRow (.inr hwide), ?_, fun _ => hjoined, hbounds⟩
              rw [hjoined, length_cons, length_cons]
              omega

/-- A second root is no trouble below the greatest height. -/
def appendFits (left right : RrbVector α) : Bool :=
  max left.height right.height < maximumHeight || appendWidth left right == 1

theorem append_height_iff {left right joined : RrbVector α}
    (hleft : Represents left lefts) (hright : Represents right rights)
    (hvalues : lefts.length + rights.length ≤ maxBound) (hheight : left.height ≤ maximumHeight)
    (hheight' : right.height ≤ maximumHeight) (happend : append left right = .ok joined) :
    joined.height ≤ maximumHeight ↔ appendFits left right = true := by
  have hbound : maximumHeight < maxBound := by decide
  obtain ⟨other, hother, -, hle, hexact, hwidth⟩ := append_spec hleft hright hvalues
    (lt_of_le_of_lt hheight hbound) (lt_of_le_of_lt hheight' hbound)
  cases happend.symm.trans hother
  rw [appendFits, Bool.or_eq_true, decide_eq_true_iff, beq_iff_eq]
  constructor
  · intro hfits
    by_contra hnot
    rw [not_or] at hnot
    have htwo : appendWidth left right = 2 := by omega
    have := hexact htwo
    omega
  · rintro (hlow | hone) <;> omega

/-- The vector represents the list, and keeps the greatest height in the runs of interest. -/
structure Kept (fits : Prop) (vector : RrbVector α) (values : List α) : Prop where
  represents : Represents vector values
  height_le : fits → vector.height ≤ maximumHeight

namespace Kept

variable {fits more : Prop} {vector : RrbVector α} {values : List α}

theorem mono (h : Kept fits vector values) (himp : more → fits) : Kept more vector values :=
  ⟨h.represents, fun hmore => h.height_le (himp hmore)⟩

theorem empty (fits : Prop) : Kept fits (empty : RrbVector α) [] := ⟨.empty, fun _ => zero_le _⟩

end Kept

theorem append_kept {fits : Prop} {left right : RrbVector α}
    (hleft : Kept fits left lefts) (hright : Kept fits right rights)
    (hvalues : lefts.length + rights.length ≤ maxBound) (hheight : left.height < maxBound)
    (hheight' : right.height < maxBound) :
    ∃ joined, append left right = .ok joined ∧
      Kept (fits ∧ appendFits left right = true) joined (lefts ++ rights) ∧
      joined.height ≤ max left.height right.height + 1 := by
  obtain ⟨joined, happend, hrepresents, hle, -, hwidth⟩ :=
    append_spec hleft.represents hright.represents hvalues hheight hheight'
  refine ⟨joined, happend, ⟨hrepresents, ?_⟩, by omega⟩
  rintro ⟨hfits, hjoin⟩
  exact (append_height_iff hleft.represents hright.represents hvalues (hleft.height_le hfits)
    (hright.height_le hfits) happend).mpr hjoin

end Durable7.FingerTree.RrbVector
