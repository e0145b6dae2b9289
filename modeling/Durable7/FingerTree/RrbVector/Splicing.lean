import Durable7.FingerTree.RrbVector.Shape
import Mathlib.Data.List.Flatten

/-!
# Concatenating nodes

Two nodes are joined along their facing edges.  Each level of the seam has one node
or two, as the arities on this level and the level below decide.
-/

namespace Durable7.FingerTree.RrbVector

open Foundation List Nat

variable {α : Type}

section

/-! ## The seam -/

mutual

/-- The arities down the last edge of a node, its leaf first. -/
def lastEdge : Node α → List Nat
  | .leaf values => [values.length]
  | .branch _ _ children _ => lastEdgeOf children ++ [children.length]

def lastEdgeOf : List (Node α) → List Nat
  | [] => []
  | [child] => lastEdge child
  | _ :: child :: children => lastEdgeOf (child :: children)

end

/-- The arities down the first edge of a node, its leaf first. -/
def firstEdge : Node α → List Nat
  | .leaf values => [values.length]
  | .branch _ _ [] _ => [0]
  | .branch _ _ (child :: children) _ => firstEdge child ++ [(child :: children).length]

/-- The number of nodes that one level of a seam comes to. -/
def seamLevel (total : Nat) : Nat := if branchFactor < total then 2 else 1

/-- From level to level the two facing nodes give way to the nodes of the level below. -/
def climbSeam (width : Nat) : List Nat → List Nat → Nat
  | [], [] => width
  | left :: lefts, [] => climbSeam (seamLevel (left - 1 + width)) lefts []
  | [], right :: rights => climbSeam (seamLevel (width + (right - 1))) [] rights
  | left :: lefts, right :: rights =>
      climbSeam (seamLevel (left - 1 + width + (right - 1))) lefts rights

/-- The number of roots that joining two nodes leaves. -/
def seamWidth (left right : Node α) : Nat := climbSeam 2 (lastEdge left) (firstEdge right)

theorem lastEdgeOf_append (front : List (Node α)) (last : Node α) :
    lastEdgeOf (front ++ [last]) = lastEdge last := by
  induction front with
  | nil => rw [nil_append, lastEdgeOf]
  | cons child front ih =>
      cases front with
      | nil => rw [cons_append, nil_append, lastEdgeOf, lastEdgeOf]
      | cons next front =>
          rw [cons_append, cons_append, lastEdgeOf]
          exact ih

section

variable {height : Nat} {node : Node α} (h : WellFormed height node)
include h

theorem WellFormed.length_lastEdge : (lastEdge node).length = height + 1 := by
  induction h with
  | leaf _ _ => rw [lastEdge, length_singleton]
  | @branch height count children sizes hne _ _ _ _ ih =>
      obtain ⟨front, last, rfl⟩ := (eq_nil_or_concat' children).resolve_left hne
      rw [lastEdge, lastEdgeOf_append, length_append, ih last (by simp)]
      rfl

theorem WellFormed.length_firstEdge : (firstEdge node).length = height + 1 := by
  induction h with
  | leaf _ _ => rw [firstEdge, length_singleton]
  | @branch height count children sizes hne _ _ _ _ ih =>
      obtain ⟨first, rest, rfl⟩ := exists_cons_of_ne_nil hne
      rw [firstEdge, length_append, ih first (by simp)]
      rfl

end

variable {lefts rights : List Nat}

theorem climbSeam_both (h : lefts.length = rights.length) (width left right : Nat) :
    climbSeam width (lefts ++ [left]) (rights ++ [right]) =
      seamLevel (left - 1 + climbSeam width lefts rights + (right - 1)) := by
  induction lefts generalizing rights width with
  | nil =>
      obtain rfl := length_eq_zero_iff.mp h.symm
      simp [climbSeam]
  | cons first lefts ih =>
      cases rights with
      | nil => simp at h
      | cons other rights =>
          simp only [cons_append, climbSeam]
          exact ih (by simpa using h) _

theorem climbSeam_left (h : rights.length ≤ lefts.length) (width left : Nat) :
    climbSeam width (lefts ++ [left]) rights =
      seamLevel (left - 1 + climbSeam width lefts rights) := by
  induction lefts generalizing rights width with
  | nil =>
      obtain rfl := length_eq_zero_iff.mp (le_zero.mp h)
      simp [climbSeam]
  | cons first lefts ih =>
      cases rights with
      | nil =>
          simp only [cons_append, climbSeam]
          exact ih (by simp) _
      | cons other rights =>
          simp only [cons_append, climbSeam]
          exact ih (by simpa using h) _

theorem climbSeam_right (h : lefts.length ≤ rights.length) (width right : Nat) :
    climbSeam width lefts (rights ++ [right]) =
      seamLevel (climbSeam width lefts rights + (right - 1)) := by
  induction rights generalizing lefts width with
  | nil =>
      obtain rfl := length_eq_zero_iff.mp (le_zero.mp h)
      simp [climbSeam]
  | cons other rights ih =>
      cases lefts with
      | nil =>
          simp only [cons_append, climbSeam]
          exact ih (by simp) _
      | cons first lefts =>
          simp only [cons_append, climbSeam]
          exact ih (by simpa using h) _

/-! ## Joining two nodes -/

theorem partitionNodes_spec {height : Nat} {children : List (Node α)} {values : List α}
    (h : Row height children values) (hne : children ≠ [])
    (hlength : children.length ≤ 2 * branchFactor) (hvalues : values.length ≤ maxBound)
    (hheight : height < maxBound) :
    ∃ parents, partitionNodes children = .ok parents ∧ Row (height + 1) parents values ∧
      parents.length = seamLevel children.length := by
  have hpos := length_pos_iff.mpr hne
  rw [partitionNodes, seamLevel]
  split
  · rename_i hfits
    obtain ⟨parent, hparent, hrow, -⟩ := mkBranch_spec h hne hfits hvalues hheight
    exact ⟨[parent], by rw [hparent, except_ok_bind], hrow, by
      rw [if_neg (not_lt.mpr hfits), length_singleton]⟩
  · rename_i hwide
    have hfactor : branchFactor = 32 := rfl
    have hcontents : (children.take (children.length / 2)).flatMap nodeToList ++
        (children.drop (children.length / 2)).flatMap nodeToList = values := by
      rw [← flatMap_append, take_append_drop, h.contents]
    have htotal := congrArg List.length hcontents
    rw [length_append] at htotal
    obtain ⟨left, hleft, hleftRow, -⟩ := mkBranch_spec (h.take (children.length / 2))
      (by rw [← length_pos_iff, length_take]; omega)
      (by rw [length_take]; omega) (by omega) hheight
    obtain ⟨right, hright, hrightRow, -⟩ := mkBranch_spec (h.drop (children.length / 2))
      (by rw [← length_pos_iff, length_drop]; omega)
      (by rw [length_drop]; omega) (by omega) hheight
    refine ⟨[left, right], ?_, ?_, ?_⟩
    · rw [hleft, except_ok_bind, hright, except_ok_bind]
    · rw [← hcontents]
      exact hleftRow.append hrightRow
    · rw [if_pos (Nat.lt_of_not_le hwide)]
      rfl

theorem concat_leaves {left right : List α} (hleft : WellFormed 0 (.leaf left))
    (hright : WellFormed 0 (.leaf right)) :
    ∃ roots, concatSameHeight (.leaf left) (.leaf right) = .ok roots ∧
      Row 0 roots (left ++ right) ∧ roots.length = seamLevel (left.length + right.length) := by
  have hfactor : branchFactor = 32 := rfl
  have hlefts := hleft.arity_pos
  have hrights := hright.arity_pos
  have hleftLe := hleft.arity_le
  have hrightLe := hright.arity_le
  simp only [arity] at hlefts hrights hleftLe hrightLe
  have hpair : ∀ first second : List α, first ++ second = left ++ right →
      WellFormed 0 (.leaf first) → WellFormed 0 (.leaf second) →
      Row 0 [.leaf first, .leaf second] (left ++ right) := by
    intro first second hcontents hfirst hsecond
    rw [← hcontents]
    have hrow := (Row.single hfirst).append (Row.single hsecond)
    rwa [nodeToList_leaf, nodeToList_leaf] at hrow
  rw [concatSameHeight, seamLevel]
  split
  · rename_i hfull
    exact ⟨_, rfl, hpair left right rfl hleft hright, by rw [if_pos (by omega)]; rfl⟩
  · simp only [length_append]
    split
    · rename_i hfits
      obtain ⟨hleaf, hwell⟩ := leafFromList_spec (left ++ right)
        (by rw [← length_pos_iff, length_append]; omega)
        (by rw [length_append]; exact hfits)
      refine ⟨[.leaf (left ++ right)], by rw [hleaf, except_ok_bind], ?_, ?_⟩
      · have hrow := Row.single hwell
        rwa [nodeToList_leaf] at hrow
      · rw [if_neg (not_lt.mpr hfits), length_singleton]
    · rename_i hwide
      obtain ⟨hfirst, hfirstWell⟩ := leafFromList_spec
        ((left ++ right).take ((left.length + right.length) / 2))
        (by rw [← length_pos_iff, length_take, length_append]; omega)
        (by rw [length_take, length_append]; omega)
      obtain ⟨hsecond, hsecondWell⟩ := leafFromList_spec
        ((left ++ right).drop ((left.length + right.length) / 2))
        (by rw [← length_pos_iff, length_drop, length_append]; omega)
        (by rw [length_drop, length_append]; omega)
      refine ⟨_, by rw [hfirst, except_ok_bind, hsecond, except_ok_bind],
        hpair _ _ (take_append_drop _ _) hfirstWell hsecondWell, ?_⟩
      rw [if_pos (Nat.lt_of_not_le hwide)]
      rfl

variable {lower : Nat}

section Joining

variable {height count : Nat} {left right : Node α} {values : List α}

theorem seamLevel_bounds (total : Nat) : 0 < seamLevel total ∧ seamLevel total ≤ 2 := by
  rw [seamLevel]
  split <;> omega

theorem climbSeam_bounds {width : Nat} {lefts rights : List Nat} (h : 0 < width ∧ width ≤ 2) :
    0 < climbSeam width lefts rights ∧ climbSeam width lefts rights ≤ 2 := by
  induction width, lefts, rights using climbSeam.induct with
  | case1 width => simpa [climbSeam] using h
  | case2 width left lefts ih => simpa [climbSeam] using ih (seamLevel_bounds _)
  | case3 width right rights ih => simpa [climbSeam] using ih (seamLevel_bounds _)
  | case4 width left lefts right rights ih => simpa [climbSeam] using ih (seamLevel_bounds _)

/-- A joined seam between the nodes beside it. -/
theorem splice_level {front middle back : List (Node α)} {before seam after : List α}
    (hwidth : middle.length = seamWidth left right)
    (hfront : Row height front before) (hmiddle : Row height middle seam)
    (hback : Row height back after)
    (hnarrow : front.length < branchFactor ∧ back.length < branchFactor)
    (hvalues : (before ++ seam ++ after).length ≤ maxBound) (hheight : height < maxBound) :
    ∃ parents, partitionNodes (front ++ middle ++ back) = .ok parents ∧
      Row (height + 1) parents (before ++ seam ++ after) ∧
      parents.length = seamLevel (front.length + middle.length + back.length) := by
  have hbounds := @climbSeam_bounds 2 (lastEdge left) (firstEdge right) (by omega)
  rw [← seamWidth, ← hwidth] at hbounds
  have hspec := partitionNodes_spec ((hfront.append hmiddle).append hback)
    (by simp [length_pos_iff.mp hbounds.1]) (by rw [length_append, length_append]; omega) hvalues
    hheight
  rwa [length_append, length_append] at hspec

theorem concatSameHeight_spec (hleft : WellFormed height left) (hright : WellFormed height right)
    (hvalues : (nodeToList left ++ nodeToList right).length ≤ maxBound)
    (hheight : height ≤ maxBound) :
    ∃ roots, concatSameHeight left right = .ok roots ∧
      Row height roots (nodeToList left ++ nodeToList right) ∧
      roots.length = seamWidth left right := by
  induction hleft generalizing right with
  | @leaf leftValues hne hlength =>
      cases hright with
      | @leaf rightValues hne' hlength' =>
          obtain ⟨roots, hroots, hrow, hwidth⟩ :=
            concat_leaves (.leaf hne hlength) (.leaf hne' hlength')
          rw [nodeToList_leaf, nodeToList_leaf]
          refine ⟨roots, hroots, hrow, ?_⟩
          have hpos := length_pos_iff.mpr hne
          have hpos' := length_pos_iff.mpr hne'
          rw [hwidth, seamWidth, lastEdge, firstEdge]
          simp only [climbSeam]
          congr 1
          omega
  | @branch height count children sizes hne hlength hchildren hcount hsizes ih =>
      cases hright with
      | @branch _ count' others sizes' hne' hlength' hothers hcount' hsizes' =>
          obtain ⟨front, last, rfl⟩ := (eq_nil_or_concat' children).resolve_left hne
          obtain ⟨first, back, rfl⟩ := exists_cons_of_ne_nil hne'
          have hlast := hchildren last (by simp)
          have hfirst := hothers first (by simp)
          have hfront : Row height front (front.flatMap nodeToList) :=
            .of_children fun node hnode => hchildren node (by simp [hnode])
          have hback : Row height back (back.flatMap nodeToList) :=
            .of_children fun node hnode => hothers node (by simp [hnode])
          have hcontents : nodeToList (.branch count (height + 1) (front ++ [last]) sizes) ++
              nodeToList (.branch count' (height + 1) (first :: back) sizes') =
                front.flatMap nodeToList ++ (nodeToList last ++ nodeToList first) ++
                  back.flatMap nodeToList := by
            simp [nodeToList_branch]
          rw [hcontents] at hvalues ⊢
          simp only [length_append, length_cons, length_nil] at hvalues hlength hlength'
          obtain ⟨middle, hmiddle, hseam, hwidth⟩ := ih last (by simp) hfirst
            (by rw [length_append]; omega) (by omega)
          obtain ⟨parents, hparents, hrow, hparentWidth⟩ :=
            splice_level hwidth hfront hseam hback (by omega)
              (by simp only [length_append]; omega) (by omega)
          refine ⟨parents, ?_, hrow, ?_⟩
          · rw [concatSameHeight]
            split
            · rename_i hsplit
              rw [splitLast_append] at hsplit
              cases hsplit
            · rename_i hsplit
              rw [splitLast_append] at hsplit
              cases hsplit
              rw [hmiddle, except_ok_bind, hparents]
          · have hlevels : (lastEdge last).length = (firstEdge first).length := by
              rw [hlast.length_lastEdge, hfirst.length_firstEdge]
            rw [hparentWidth, seamWidth, lastEdge, firstEdge, lastEdgeOf_append,
              climbSeam_both hlevels, ← seamWidth, ← hwidth]
            simp

theorem concatNodes_same (h : nodeHeight left = nodeHeight right) :
    concatNodes left right = concatSameHeight left right := by
  rw [concatNodes.eq_def, if_pos h]

theorem concatNodes_last {front : List (Node α)} {last : Node α} {sizes : Option (List Nat)}
    (h : nodeHeight right < height) :
    concatNodes (.branch count height (front ++ [last]) sizes) right =
      concatNodes last right >>= fun boundary => partitionNodes (front ++ boundary) := by
  rw [concatNodes.eq_def, nodeHeight_branch, if_neg (ne_of_gt h), if_pos h]
  simp only
  split
  · rename_i hsplit
    rw [splitLast_append] at hsplit
    cases hsplit
  · rename_i hsplit
    rw [splitLast_append] at hsplit
    cases hsplit
    rfl

theorem concatNodes_first {back : List (Node α)} {first : Node α} {sizes : Option (List Nat)}
    (h : nodeHeight left < height) :
    concatNodes left (.branch count height (first :: back) sizes) =
      concatNodes left first >>= fun boundary => partitionNodes (boundary ++ back) := by
  rw [concatNodes.eq_def, nodeHeight_branch, if_neg (Nat.ne_of_lt h), if_neg (Nat.lt_asymm h)]

theorem concatNodes_left (hleft : WellFormed height left) (hright : WellFormed lower right)
    (hlower : lower ≤ height) (hvalues : (nodeToList left ++ nodeToList right).length ≤ maxBound)
    (hheight : height ≤ maxBound) :
    ∃ roots, concatNodes left right = .ok roots ∧
      Row height roots (nodeToList left ++ nodeToList right) ∧
      roots.length = seamWidth left right := by
  induction hleft with
  | @leaf leftValues hne hlength =>
      obtain rfl := le_zero.mp hlower
      rw [concatNodes_same ((WellFormed.leaf hne hlength).height_eq.trans hright.height_eq.symm)]
      exact concatSameHeight_spec (.leaf hne hlength) hright hvalues hheight
  | @branch height count children sizes hne hlength hchildren hcount hsizes ih =>
      have hwhole := WellFormed.branch hne hlength hchildren hcount hsizes
      rcases eq_or_lt_of_le hlower with rfl | hlt
      · rw [concatNodes_same (hwhole.height_eq.trans hright.height_eq.symm)]
        exact concatSameHeight_spec hwhole hright hvalues hheight
      · obtain ⟨front, last, rfl⟩ := (eq_nil_or_concat' children).resolve_left hne
        have hlast := hchildren last (by simp)
        have hfront : Row height front (front.flatMap nodeToList) :=
          .of_children fun node hnode => hchildren node (by simp [hnode])
        have hcontents : nodeToList (.branch count (height + 1) (front ++ [last]) sizes) ++
            nodeToList right =
              front.flatMap nodeToList ++ (nodeToList last ++ nodeToList right) ++ [] := by
          simp [nodeToList_branch]
        rw [hcontents] at hvalues ⊢
        simp only [length_append, length_cons, length_nil] at hvalues hlength
        obtain ⟨middle, hmiddle, hseam, hwidth⟩ := ih last (by simp) (by omega)
          (by rw [length_append]; omega) (by omega)
        obtain ⟨parents, hparents, hrow, hparentWidth⟩ :=
          splice_level hwidth hfront hseam (Row.nil height) ⟨by omega, Nat.succ_pos 31⟩
            (by simp only [length_append, length_nil]; omega) (by omega)
        rw [append_nil] at hparents
        refine ⟨parents, ?_, hrow, ?_⟩
        · rw [concatNodes_last (by rw [hright.height_eq]; omega), hmiddle, except_ok_bind, hparents]
        · have hlevels : (firstEdge right).length ≤ (lastEdge last).length := by
            rw [hlast.length_lastEdge, hright.length_firstEdge]
            omega
          rw [hparentWidth, seamWidth, lastEdge, lastEdgeOf_append, climbSeam_left hlevels,
            ← seamWidth, ← hwidth]
          simp

theorem concatNodes_right (hright : WellFormed height right) (hleft : WellFormed lower left)
    (hlower : lower ≤ height) (hvalues : (nodeToList left ++ nodeToList right).length ≤ maxBound)
    (hheight : height ≤ maxBound) :
    ∃ roots, concatNodes left right = .ok roots ∧
      Row height roots (nodeToList left ++ nodeToList right) ∧
      roots.length = seamWidth left right := by
  induction hright with
  | @leaf rightValues hne hlength =>
      obtain rfl := le_zero.mp hlower
      rw [concatNodes_same hleft.height_eq]
      exact concatSameHeight_spec hleft (.leaf hne hlength) hvalues hheight
  | @branch height count children sizes hne hlength hchildren hcount hsizes ih =>
      have hwhole := WellFormed.branch hne hlength hchildren hcount hsizes
      rcases eq_or_lt_of_le hlower with rfl | hlt
      · rw [concatNodes_same hleft.height_eq]
        exact concatSameHeight_spec hleft hwhole hvalues hheight
      · obtain ⟨first, back, rfl⟩ := exists_cons_of_ne_nil hne
        have hfirst := hchildren first (by simp)
        have hback : Row height back (back.flatMap nodeToList) :=
          .of_children fun node hnode => hchildren node (by simp [hnode])
        have hcontents : nodeToList left ++
            nodeToList (.branch count (height + 1) (first :: back) sizes) =
              [] ++ (nodeToList left ++ nodeToList first) ++ back.flatMap nodeToList := by
          simp [nodeToList_branch]
        rw [hcontents] at hvalues ⊢
        simp only [length_append, length_cons, length_nil] at hvalues hlength
        obtain ⟨middle, hmiddle, hseam, hwidth⟩ := ih first (by simp) (by omega)
          (by rw [length_append]; omega) (by omega)
        obtain ⟨parents, hparents, hrow, hparentWidth⟩ :=
          splice_level hwidth (Row.nil height) hseam hback ⟨Nat.succ_pos 31, by omega⟩
            (by simp only [length_append, length_nil]; omega) (by omega)
        rw [nil_append] at hparents
        refine ⟨parents, ?_, hrow, ?_⟩
        · rw [concatNodes_first (by rw [hleft.height_eq]; omega), hmiddle, except_ok_bind, hparents]
        · have hlevels : (lastEdge left).length ≤ (firstEdge first).length := by
            rw [hleft.length_lastEdge, hfirst.length_firstEdge]
            omega
          rw [hparentWidth, seamWidth, firstEdge, climbSeam_right hlevels, ← seamWidth, ← hwidth]
          simp

theorem concatNodes_spec (hleft : WellFormed height left) (hright : WellFormed lower right)
    (hvalues : (nodeToList left ++ nodeToList right).length ≤ maxBound)
    (hheight : max height lower ≤ maxBound) :
    ∃ roots, concatNodes left right = .ok roots ∧
      Row (max height lower) roots (nodeToList left ++ nodeToList right) ∧
      roots.length = seamWidth left right := by
  rcases le_total lower height with hle | hle
  · rw [max_eq_left hle] at hheight ⊢
    exact concatNodes_left hleft hright hle hvalues hheight
  · rw [max_eq_right hle] at hheight ⊢
    exact concatNodes_right hright hleft hle hvalues hheight

end Joining

end

/-!
## Splitting and building

A split takes the nodes on both sides of a path apart.  A list is built level by
level, from leaves of 32 elements up to one root.
-/

variable {nodes : List (Node α)} {values : List α}

theorem buildSameHeight_spec {height : Nat} (h : Row height nodes values)
    (hlength : nodes.length ≤ branchFactor) (hvalues : values.length ≤ maxBound)
    (hheight : height < maxBound) :
    ∃ parent, buildSameHeight nodes = .ok parent ∧ Row (height + 1) parent.toList values := by
  cases nodes with
  | nil =>
      refine ⟨none, rfl, ?_⟩
      rw [← h.contents]
      exact Row.nil _
  | cons first rest =>
      obtain ⟨parent, hparent, hrow, -⟩ := mkBranch_spec h (by simp) hlength hvalues hheight
      exact ⟨some parent, by rw [buildSameHeight, hparent, except_ok_bind], hrow⟩

theorem splitNode_zero (node : Node α) : splitNode 0 node = .ok (none, some node) := by
  rw [splitNode.eq_def, if_pos rfl]

theorem splitNode_count {node : Node α} (h : nodeCount node ≠ 0) :
    splitNode (nodeCount node) node = .ok (some node, none) := by
  rw [splitNode.eq_def, if_neg h, if_pos rfl]

theorem splitNode_branch {position count height childIndex before : Nat}
    {children : List (Node α)} {sizes : Option (List Nat)} {child : Node α}
    {childLeft childRight : Option (Node α)} (hzero : position ≠ 0) (hcount : position ≠ count)
    (hfind : findChild position (.branch count height children sizes) = .ok (childIndex, before))
    (hchild : children[childIndex]? = some child)
    (hsplit : splitNode (position - before) child = .ok (childLeft, childRight)) :
    splitNode position (.branch count height children sizes) = (do
      let left ← buildSameHeight (children.take childIndex ++ childLeft.toList)
      let right ← buildSameHeight (childRight.toList ++ children.drop (childIndex + 1))
      .ok (left, right)) := by
  rw [splitNode.eq_def, if_neg hzero, nodeCount_branch, if_neg hcount]
  simp only [hfind, except_ok_bind]
  split
  · simp_all
  · rename_i other hother
    obtain rfl : child = other := Option.some.inj (hchild.symm.trans hother)
    rw [hsplit, except_ok_bind]

theorem splitNode_spec {height position : Nat} {node : Node α} (h : WellFormed height node)
    (hposition : position ≤ nodeCount node) (hcount : nodeCount node ≤ maxBound)
    (hheight : height ≤ maxBound) :
    ∃ left right, splitNode position node = .ok (left, right) ∧
      Row height left.toList ((nodeToList node).take position) ∧
      Row height right.toList ((nodeToList node).drop position) := by
  by_cases hzero : position = 0
  · subst hzero
    exact ⟨none, some node, splitNode_zero node, Row.nil height, Row.single h⟩
  by_cases hwhole : position = nodeCount node
  · subst hwhole
    refine ⟨some node, none, splitNode_count hzero, ?_, ?_⟩
    · rw [h.count_eq, take_length]
      exact Row.single h
    · rw [h.count_eq, drop_length]
      exact Row.nil height
  induction h generalizing position with
  | @leaf values hne hlength =>
      have hlt : position < values.length := lt_of_le_of_ne hposition hwhole
      obtain ⟨hleft, hleftWell⟩ := leafFromList_spec (values.take position)
        (by rw [← length_pos_iff, length_take]; omega)
        (by rw [length_take]; omega)
      obtain ⟨hright, hrightWell⟩ := leafFromList_spec (values.drop position)
        (by rw [← length_pos_iff, length_drop]; omega)
        (by rw [length_drop]; omega)
      have hleftRow := Row.single hleftWell
      have hrightRow := Row.single hrightWell
      rw [nodeToList_leaf] at hleftRow hrightRow
      rw [splitNode.eq_def, if_neg hzero, if_neg hwhole, nodeToList_leaf]
      refine ⟨some (.leaf _), some (.leaf _), ?_, hleftRow, hrightRow⟩
      simp only [hleft, except_ok_bind, hright]
  | @branch height count children sizes hne hlength hchildren hsum hsizes ih =>
      have hnode := WellFormed.branch hne hlength hchildren hsum hsizes
      have hlt : position < count := lt_of_le_of_ne hposition hwhole
      obtain ⟨childIndex, before, front, child, back, hfind, hat⟩ := hnode.findChild_spec hlt
      have hle := hat.before_le
      have hchildLt := hat.position_lt
      have hchild := hchildren child hat.mem
      have hchildCount : nodeCount child ≤ maxBound := by
        rw [nodeCount, hsum] at hcount
        exact le_trans hat.count_le hcount
      have hsplit : ∃ left right, splitNode (position - before) child = .ok (left, right) ∧
          Row height left.toList ((nodeToList child).take (position - before)) ∧
          Row height right.toList ((nodeToList child).drop (position - before)) := by
        by_cases hstart : position - before = 0
        · rw [hstart]
          exact ⟨none, some child, splitNode_zero child, Row.nil height, Row.single hchild⟩
        · exact ih child hat.mem (show position - before ≤ nodeCount child by omega) hchildCount
            (by omega) hstart (by omega)
      obtain ⟨childLeft, childRight, hchildSplit, hchildLeft, hchildRight⟩ := hsplit
      have hfront : Row height front (front.flatMap nodeToList) :=
        .of_children fun node hmem => hchildren node (by rw [hat.children_eq]; simp [hmem])
      have hback : Row height back (back.flatMap nodeToList) :=
        .of_children fun node hmem => hchildren node (by rw [hat.children_eq]; simp [hmem])
      have hleftRow := hfront.append hchildLeft
      have hrightRow := hchildRight.append hback
      rw [hchild.count_eq] at hchildLt
      have harity := congrArg List.length hat.children_eq
      rw [length_append, length_cons] at harity
      have hatMost : ∀ found : Option (Node α), found.toList.length ≤ 1 := by
        intro found
        cases found <;> simp
      have htotal := congrArg List.length hat.contents
      rw [← nodeToList_branch count (height + 1) children sizes, ← hnode.count_eq] at htotal
      rw [hat.before_eq] at hle hchildLt hleftRow hrightRow
      rw [← take_middle hle (le_of_lt hchildLt)] at hleftRow
      rw [← drop_middle hle (le_of_lt hchildLt)] at hrightRow
      obtain ⟨left, hleft, hleftParent⟩ := buildSameHeight_spec hleftRow
        (by rw [length_append]; have := hatMost childLeft; omega)
        (by rw [length_take, ← htotal]; omega) (by omega)
      obtain ⟨right, hright, hrightParent⟩ := buildSameHeight_spec hrightRow
        (by rw [length_append]; have := hatMost childRight; omega)
        (by rw [length_drop, ← htotal]; omega) (by omega)
      refine ⟨left, right, ?_, ?_, ?_⟩
      · rw [splitNode_branch hzero (Nat.ne_of_lt hlt) hfind hat.getElem? hchildSplit, hat.take,
          hat.drop, hleft,
          except_ok_bind, hright, except_ok_bind]
      · rw [nodeToList_branch, hat.contents]
        exact hleftParent
      · rw [nodeToList_branch, hat.contents]
        exact hrightParent

section Chunks

variable {β : Type} (amount : Nat) [NeZero amount]

theorem flatten_chunksOf (values : List β) : (chunksOf amount values).flatten = values := by
  induction values using chunksOf.induct amount with
  | case1 => rw [chunksOf_nil, flatten_nil]
  | case2 value values ih =>
      rw [chunksOf_ne_nil amount (by simp), flatten_cons, ih, take_append_drop]

theorem mem_chunksOf {values chunk : List β} (h : chunk ∈ chunksOf amount values) :
    chunk ≠ [] ∧ chunk.length ≤ amount := by
  induction values using chunksOf.induct amount with
  | case1 =>
      rw [chunksOf_nil] at h
      simp at h
  | case2 value values ih =>
      rw [chunksOf_ne_nil amount (by simp)] at h
      rcases mem_cons.mp h with rfl | h
      · have := pos_of_neZero amount
        refine ⟨?_, by rw [length_take]; omega⟩
        rw [← length_pos_iff, length_take, length_cons]
        omega
      · exact ih h

theorem length_chunksOf_le_of {values : List β} {most : Nat} (h : values.length ≤ amount * most) :
    (chunksOf amount values).length ≤ most := by
  induction values using chunksOf.induct amount generalizing most with
  | case1 => simp [chunksOf_nil]
  | case2 value values ih =>
      rw [chunksOf_ne_nil amount (by simp), length_cons]
      cases most with
      | zero => simp at h
      | succ most =>
          apply succ_le_succ
          apply ih
          rw [length_drop]
          rw [mul_succ] at h
          omega

theorem chunksOf_single {values : List β} (hne : values ≠ []) (h : values.length ≤ amount) :
    chunksOf amount values = [values] := by
  rw [chunksOf_ne_nil amount hne, take_of_length_le h, drop_of_length_le h, chunksOf_nil]

theorem two_le_chunksOf {values : List β} (h : amount < values.length) :
    2 ≤ (chunksOf amount values).length := by
  have hne : values ≠ [] := by
    rintro rfl
    simp at h
  have hrest : values.drop amount ≠ [] := by
    rw [← length_pos_iff, length_drop]
    omega
  rw [chunksOf_ne_nil amount hne, chunksOf_ne_nil amount hrest]
  simp

end Chunks

theorem mapM_row {β : Type} {height : Nat} {build : List β → Except RrbError (Node α)}
    {contents : List β → List α} {chunks : List (List β)}
    (h : ∀ chunk ∈ chunks, ∃ node, build chunk = .ok node ∧ Row height [node] (contents chunk)) :
    ∃ nodes, chunks.mapM build = .ok nodes ∧ Row height nodes (chunks.flatMap contents) ∧
      nodes.length = chunks.length := by
  induction chunks with
  | nil => exact ⟨[], rfl, Row.nil height, rfl⟩
  | cons chunk chunks ih =>
      obtain ⟨node, hnode, hrow⟩ := h chunk (by simp)
      obtain ⟨nodes, hnodes, hrows, hlength⟩ := ih fun other hother => h other (by simp [hother])
      refine ⟨node :: nodes, ?_, ?_, by rw [length_cons, hlength, length_cons]⟩
      · rw [mapM_cons, hnode, except_ok_bind, hnodes, except_ok_bind]
        rfl
      · rw [flatMap_cons]
        exact hrow.append hrows

theorem flatMap_flatMap_nodeToList {chunks : List (List (Node α))}
    (hflatten : chunks.flatten = nodes) (h : nodes.flatMap nodeToList = values) :
    chunks.flatMap (fun chunk => chunk.flatMap nodeToList) = values := by
  rw [← h, ← hflatten, flatMap_def, flatMap_def, map_flatten, flatten_flatten, map_map]
  rfl

theorem mem_of_mem_chunk {β : Type} {chunks : List (List β)} {chunk values : List β}
    (hflatten : chunks.flatten = values) (hchunk : chunk ∈ chunks) : chunk.Sublist values := by
  rw [← hflatten]
  exact sublist_flatten_of_mem hchunk

theorem buildLevel_step {parents : List (Node α)} (h : 2 ≤ nodes.length)
    (hparents : (chunksOf branchFactor nodes).mapM mkBranch = .ok parents) :
    buildLevel nodes = buildLevel parents := by
  match nodes with
  | [] => simp at h
  | [_] => simp at h
  | first :: second :: rest =>
      rw [buildLevel]
      split
      · simp_all
      · simp_all

theorem buildLevel_single {height : Nat} (h : Row height nodes values) (htwo : 2 ≤ nodes.length)
    (hfits : nodes.length ≤ branchFactor) (hvalues : values.length ≤ maxBound)
    (hheight : height < maxBound) :
    ∃ root, buildLevel nodes = .ok root ∧ Row (height + 1) [root] values ∧ 2 ≤ arity root := by
  have hne : nodes ≠ [] := length_pos_iff.mp (by omega)
  obtain ⟨root, hroot, hrow, harity⟩ := mkBranch_spec h hne hfits hvalues (by omega)
  have hparents : (chunksOf branchFactor nodes).mapM mkBranch = .ok [root] := by
    rw [chunksOf_single branchFactor hne hfits, mapM_cons, hroot, except_ok_bind]
    rfl
  refine ⟨root, ?_, hrow, by omega⟩
  rw [buildLevel_step htwo hparents, buildLevel]

theorem buildLevel_spec (levels : Nat) {height : Nat}
    (h : Row height nodes values) (htwo : 2 ≤ nodes.length)
    (hmost : nodes.length ≤ branchFactor ^ (levels + 1)) (hvalues : values.length ≤ maxBound)
    (hheight : height + levels < maxBound) :
    ∃ root rootHeight, buildLevel nodes = .ok root ∧ Row rootHeight [root] values ∧
      rootHeight ≤ height + levels + 1 ∧ 2 ≤ arity root := by
  induction levels generalizing height nodes with
  | zero =>
      obtain ⟨root, hroot, hrow, harity⟩ :=
        buildLevel_single h htwo (by simpa using hmost) hvalues hheight
      exact ⟨root, height + 1, hroot, hrow, le_refl _, harity⟩
  | succ levels ih =>
      rcases lt_or_ge branchFactor nodes.length with hwide | hfits
      · have hflatten := flatten_chunksOf branchFactor nodes
        obtain ⟨parents, hparents, hrow, hlength⟩ :=
          @mapM_row α (Node α) (height + 1) mkBranch (fun chunk => chunk.flatMap nodeToList)
            (chunksOf branchFactor nodes) (by
              intro chunk hchunk
              obtain ⟨hne, hle⟩ := mem_chunksOf branchFactor hchunk
              have hsub := mem_of_mem_chunk hflatten hchunk
              have hchunkRow : Row height chunk (chunk.flatMap nodeToList) :=
                .of_children fun node hnode => h.wellFormed node (hsub.mem hnode)
              have hcontents : (chunk.flatMap nodeToList).length ≤ maxBound := by
                refine le_trans ?_ hvalues
                rw [← h.contents]
                exact (hsub.flatMap _).length_le
              obtain ⟨parent, hparent, hrow, -⟩ :=
                mkBranch_spec hchunkRow hne hle hcontents (by omega)
              exact ⟨parent, hparent, hrow⟩)
        rw [flatMap_flatMap_nodeToList hflatten h.contents] at hrow
        obtain ⟨root, rootHeight, hroot, hrootRow, hle, harity⟩ := ih hrow
          (by rw [hlength]; exact two_le_chunksOf branchFactor hwide)
          (by
            rw [hlength]
            apply length_chunksOf_le_of
            rw [mul_comm, ← pow_succ]
            exact hmost)
          (by omega)
        exact ⟨root, rootHeight, by rw [buildLevel_step htwo hparents, hroot], hrootRow, by omega,
          harity⟩
      · obtain ⟨root, hroot, hrow, harity⟩ := buildLevel_single h htwo hfits hvalues (by omega)
        exact ⟨root, height + 1, hroot, hrow, by omega, harity⟩

end Durable7.FingerTree.RrbVector
