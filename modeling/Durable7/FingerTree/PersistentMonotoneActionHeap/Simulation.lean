import Durable7.FingerTree.PersistentMonotoneActionHeap.Operations
import Durable7.FingerTree.BrodalOkasakiHeap.Heaps

/-!
# Erasure of pending actions

Applying every pending action down to the entries turns an action-tagged forest into a
plain skew-binomial forest.  Tags move along a path without changing what is erased.
-/

namespace Durable7.FingerTree.PersistentMonotoneActionHeap

open Foundation

section

variable {element priority action : Type} (policy : MonotoneActionPolicy priority action)

/-! ## Erasure -/

mutual

/-- The plain tree, with an action that is still to be applied from above. -/
def erasedTree (outer : priority → priority) :
    Tree element priority action → BrodalOkasakiHeap.Tree (MonotoneHeapEntry element priority)
  | .tree treeRank treeElement treePriority treeChildren treeAction =>
      .tree treeRank ⟨treeElement, outer (policy.actionApply treeAction treePriority)⟩
        (erasedForest (outer ∘ policy.actionApply treeAction) treeChildren)

def erasedForest (outer : priority → priority) :
    Forest element priority action →
      List (BrodalOkasakiHeap.Tree (MonotoneHeapEntry element priority))
  | .nil => []
  | .cons forestAction rawHead rawTail =>
      erasedTree (outer ∘ policy.actionApply forestAction) rawHead ::
        erasedForest (outer ∘ policy.actionApply forestAction) rawTail

end

def erase (tree : Tree element priority action) :
    BrodalOkasakiHeap.Tree (MonotoneHeapEntry element priority) :=
  erasedTree policy id tree

def eraseForest (forest : Forest element priority action) :
    List (BrodalOkasakiHeap.Tree (MonotoneHeapEntry element priority)) :=
  erasedForest policy id forest

mutual

def TreeAdmitted (admissible : action → Prop) : Tree element priority action → Prop
  | .tree _ _ _ treeChildren treeAction =>
      admissible treeAction ∧ ForestAdmitted admissible treeChildren

def ForestAdmitted (admissible : action → Prop) : Forest element priority action → Prop
  | .nil => True
  | .cons forestAction rawHead rawTail =>
      admissible forestAction ∧ TreeAdmitted admissible rawHead ∧ ForestAdmitted admissible rawTail

end

/-- Entries in order of their priorities. -/
def entryLe (left right : MonotoneHeapEntry element priority) : Bool :=
  policy.priorityCompare left.entryPriority right.entryPriority != .gt

variable {policy} {admissible : action → Prop}

theorem erase_value (tree : Tree element priority action) :
    (erase policy tree).value = entryOf policy tree := by
  cases tree
  rfl

theorem erase_rank (tree : Tree element priority action) :
    (erase policy tree).rank = tree.treeRank := by
  cases tree
  rfl

theorem lessOrEqual_eq (left right : Tree element priority action) :
    lessOrEqual policy left right =
      entryLe policy (erase policy left).value (erase policy right).value := by
  rw [erase_value, erase_value]
  rfl

variable {tree : Tree element priority action}

theorem treeAdmitted_iff :
    TreeAdmitted admissible tree ↔
      admissible tree.treeAction ∧ ForestAdmitted admissible tree.treeChildren := by
  cases tree
  exact Iff.rfl

instance [ordered : Std.TransCmp policy.priorityCompare] : BrodalOkasakiHeap.TotalPreorder
    (entryLe policy :
      MonotoneHeapEntry element priority → MonotoneHeapEntry element priority → Bool)
    where
  trans {first second third} h hnext := by
    simp only [entryLe, bne_iff_ne] at h hnext ⊢
    exact not_gt_trans h hnext
  total first second := by
    simp only [entryLe, bne_iff_ne]
    by_cases h : policy.priorityCompare first.entryPriority second.entryPriority = .gt
    · right
      rw [gt_iff_lt] at h
      rw [h]
      decide
    · exact .inl h

section Identity

variable [identity : LawfulIdentity policy]

theorem apply_identity_comp {pending : action} (h : policy.actionIsIdentity pending = true)
    (above : priority → priority) : above ∘ policy.actionApply pending = above := by
  funext value
  exact congrArg above (identity.apply_identity h value)

theorem erase_crown (rank : Nat) (winner : Tree element priority action)
    (children : Forest element priority action) :
    erase policy (crown policy rank winner children) =
      .tree rank ⟨winner.treeElement, winner.treePriority⟩ (eraseForest policy children) := by
  have hnone : id ∘ policy.actionApply policy.actionIdentity = id :=
    apply_identity_comp identity.isIdentity_identity id
  exact congrArg (fun applied => BrodalOkasakiHeap.Tree.tree rank
    ⟨winner.treeElement, applied winner.treePriority⟩ (erasedForest policy applied children)) hnone

theorem eraseForest_cons (headTree : Tree element priority action)
    (tailForest : Forest element priority action) :
    eraseForest policy (cons policy headTree tailForest) =
      erase policy headTree :: eraseForest policy tailForest := by
  have hnone : id ∘ policy.actionApply policy.actionIdentity = id :=
    apply_identity_comp identity.isIdentity_identity id
  exact congrArg (fun applied => erasedTree policy applied headTree ::
    erasedForest policy applied tailForest) hnone

end Identity

theorem expose_rank (tree : Tree element priority action) :
    (expose policy tree).treeRank = tree.treeRank := by
  rw [expose]
  split <;> rfl

section Lawful

variable [lawful : LawfulPolicy policy admissible]

theorem apply_comp {outer inner : action} (houter : admissible outer) (hinner : admissible inner)
    (above : priority → priority) :
    above ∘ policy.actionApply (policy.actionCompose outer inner) =
      (above ∘ policy.actionApply outer) ∘ policy.actionApply inner := by
  funext value
  exact congrArg above (lawful.apply_compose houter hinner value)

variable {outer : action}

theorem tagTree_admitted (houter : admissible outer) (htree : TreeAdmitted admissible tree) :
    TreeAdmitted admissible (tagTree policy outer tree) := by
  rw [tagTree]
  split
  · exact htree
  · obtain ⟨haction, hchildren⟩ := treeAdmitted_iff.mp htree
    exact ⟨lawful.compose_admissible houter haction, hchildren⟩

theorem erasedTree_tagTree (houter : admissible outer)
    (htree : TreeAdmitted admissible tree) (above : priority → priority) :
    erasedTree policy above (tagTree policy outer tree) =
      erasedTree policy (above ∘ policy.actionApply outer) tree := by
  rw [tagTree]
  split
  · next hidentity => rw [apply_identity_comp hidentity]
  · cases tree with
    | tree rank stored level children pending =>
        have hcomp := @apply_comp _ _ policy _ _ _ _ houter htree.1 above
        exact congrArg (fun applied => BrodalOkasakiHeap.Tree.tree rank
          ⟨stored, applied level⟩ (erasedForest policy applied children)) hcomp

variable {forest : Forest element priority action}

theorem tagForest_admitted
    (houter : admissible outer) (hforest : ForestAdmitted admissible forest) :
    ForestAdmitted admissible (tagForest policy outer forest) := by
  cases forest with
  | nil => trivial
  | cons pending rawHead rawTail =>
      rw [tagForest]
      split
      · exact hforest
      · exact ⟨lawful.compose_admissible houter hforest.1, hforest.2⟩

theorem erasedForest_tagForest
    (houter : admissible outer) (hforest : ForestAdmitted admissible forest)
    (above : priority → priority) :
    erasedForest policy above (tagForest policy outer forest) =
      erasedForest policy (above ∘ policy.actionApply outer) forest := by
  cases forest with
  | nil => rfl
  | cons pending rawHead rawTail =>
      rw [tagForest]
      split
      · next hidentity => rw [apply_identity_comp hidentity]
      · have hcomp := @apply_comp _ _ policy _ _ _ _ houter hforest.1 above
        exact congrArg (fun applied => erasedTree policy applied rawHead ::
          erasedForest policy applied rawTail) hcomp

theorem expose_admitted (h : TreeAdmitted admissible tree) :
    TreeAdmitted admissible (expose policy tree) := by
  obtain ⟨haction, hchildren⟩ := treeAdmitted_iff.mp h
  rw [expose]
  split
  · exact h
  · exact ⟨lawful.identity_admissible, tagForest_admitted haction hchildren⟩

theorem erase_exposed (h : TreeAdmitted admissible tree) :
    erase policy tree = .tree tree.treeRank
      ⟨(expose policy tree).treeElement, (expose policy tree).treePriority⟩
      (eraseForest policy (expose policy tree).treeChildren) := by
  obtain ⟨haction, hchildren⟩ := treeAdmitted_iff.mp h
  cases tree with
  | tree rank stored level children pending =>
      rw [expose]
      split
      · next hidentity =>
        have hnone : id ∘ policy.actionApply pending = id := apply_identity_comp hidentity id
        exact congrArg (fun applied => BrodalOkasakiHeap.Tree.tree rank
          ⟨stored, applied level⟩ (erasedForest policy applied children)) hnone
      · exact congrArg (BrodalOkasakiHeap.Tree.tree rank _)
          (erasedForest_tagForest haction hchildren id).symm

theorem crown_admitted (rank : Nat) (winner : Tree element priority action)
    {children : Forest element priority action} (h : ForestAdmitted admissible children) :
    TreeAdmitted admissible (crown policy rank winner children) :=
  ⟨lawful.identity_admissible, h⟩

theorem cons_admitted {headTree : Tree element priority action}
    {tailForest : Forest element priority action} (hhead : TreeAdmitted admissible headTree)
    (htail : ForestAdmitted admissible tailForest) :
    ForestAdmitted admissible (cons policy headTree tailForest) :=
  ⟨lawful.identity_admissible, hhead, htail⟩

omit lawful in
theorem forestView_none (h : forestView policy forest = none) : eraseForest policy forest = [] := by
  cases forest with
  | nil => rfl
  | cons => cases h

theorem forestView_some {tailForest : Forest element priority action}
    (h : ForestAdmitted admissible forest)
    (hview : forestView policy forest = some (tree, tailForest)) :
    TreeAdmitted admissible tree ∧ ForestAdmitted admissible tailForest ∧
      eraseForest policy forest = erase policy tree :: eraseForest policy tailForest := by
  cases forest with
  | nil => cases hview
  | cons pending rawHead rawTail =>
      cases hview
      obtain ⟨hpending, hhead, htail⟩ := h
      refine ⟨tagTree_admitted hpending hhead, tagForest_admitted hpending htail, ?_⟩
      rw [eraseForest, erase, eraseForest, erasedTree_tagTree hpending hhead,
        erasedForest_tagForest hpending htail]
      rfl

end Lawful

end

/-!
## Simulation of plain forests

Where an operation on plain skew-binomial forests succeeds, the action-tagged operation
succeeds and erases to the same result.
-/

open List

variable {element priority action : Type} {policy : MonotoneActionPolicy priority action}
  {admissible : action → Prop}

def TreeSimulates (policy : MonotoneActionPolicy priority action) (admissible : action → Prop)
    (result : Except HeapError (Tree element priority action))
    (expected : Except BrodalOkasakiHeap.HeapError
      (BrodalOkasakiHeap.Tree (MonotoneHeapEntry element priority))) : Prop :=
  ∀ plain, expected = .ok plain →
    ∃ made, result = .ok made ∧ TreeAdmitted admissible made ∧ erase policy made = plain

def ForestSimulates (policy : MonotoneActionPolicy priority action) (admissible : action → Prop)
    (result : Except HeapError (Forest element priority action))
    (expected : Except BrodalOkasakiHeap.HeapError
      (List (BrodalOkasakiHeap.Tree (MonotoneHeapEntry element priority)))) : Prop :=
  ∀ plain, expected = .ok plain →
    ∃ made, result = .ok made ∧ ForestAdmitted admissible made ∧ eraseForest policy made = plain

variable [lawful : LawfulPolicy policy admissible]

section

variable {tree : Tree element priority action} (h : TreeAdmitted admissible tree)
include h

theorem erase_children :
    (erase policy tree).children = eraseForest policy (expose policy tree).treeChildren := by
  rw [erase_exposed h]
  rfl

theorem erase_value_exposed :
    (erase policy tree).value =
      ⟨(expose policy tree).treeElement, (expose policy tree).treePriority⟩ := by
  rw [erase_exposed h]
  rfl

theorem exposed_children : ForestAdmitted admissible (expose policy tree).treeChildren :=
  (treeAdmitted_iff.mp (expose_admitted h)).2

end

theorem erase_gaining {winner : Tree element priority action} (h : TreeAdmitted admissible winner)
    (rank : Nat) (children : Forest element priority action) :
    erase policy (crown policy rank (expose policy winner) children) =
      .tree rank (erase policy winner).value (eraseForest policy children) := by
  rw [erase_crown, erase_value_exposed h]

theorem skewLink_simulates {zero first second : Tree element priority action}
    (hzero : TreeAdmitted admissible zero) (hfirst : TreeAdmitted admissible first)
    (hsecond : TreeAdmitted admissible second) :
    TreeSimulates policy admissible (skewLink policy zero first second)
      (BrodalOkasakiHeap.skewLink (entryLe policy) (erase policy zero) (erase policy first)
        (erase policy second)) := by
  rw [skewLink, BrodalOkasakiHeap.skewLink, erase_rank, erase_rank, ← lessOrEqual_eq,
    ← lessOrEqual_eq, ← lessOrEqual_eq, ← lessOrEqual_eq]
  by_cases hranks : first.treeRank ≠ second.treeRank
  · rw [if_pos hranks]
    intro plain h
    rw [if_pos hranks] at h
    cases h
  rw [if_neg hranks, if_neg hranks]
  by_cases hfirstWins : (lessOrEqual policy first zero && lessOrEqual policy first second) = true
  · rw [if_pos hfirstWins, if_pos hfirstWins]
    rintro plain ⟨⟩
    refine ⟨_, rfl, crown_admitted _ _ (cons_admitted hzero (cons_admitted hsecond
      (exposed_children hfirst))), ?_⟩
    rw [erase_gaining hfirst, eraseForest_cons, eraseForest_cons, erase_children hfirst]
  rw [if_neg hfirstWins, if_neg hfirstWins]
  by_cases hsecondWins : (lessOrEqual policy second zero && lessOrEqual policy second first) = true
  · rw [if_pos hsecondWins, if_pos hsecondWins]
    rintro plain ⟨⟩
    refine ⟨_, rfl, crown_admitted _ _ (cons_admitted hzero (cons_admitted hfirst
      (exposed_children hsecond))), ?_⟩
    rw [erase_gaining hsecond, eraseForest_cons, eraseForest_cons, erase_children hsecond]
  · rw [if_neg hsecondWins, if_neg hsecondWins]
    rintro plain ⟨⟩
    refine ⟨_, rfl, crown_admitted _ _ (cons_admitted hfirst (cons_admitted hsecond
      (exposed_children hzero))), ?_⟩
    rw [erase_gaining hzero, eraseForest_cons, eraseForest_cons, erase_children hzero]

theorem link_simulates {first second : Tree element priority action}
    (hfirst : TreeAdmitted admissible first) (hsecond : TreeAdmitted admissible second) :
    TreeSimulates policy admissible (link policy first second)
      (BrodalOkasakiHeap.link (entryLe policy) (erase policy first) (erase policy second)) := by
  rw [link, BrodalOkasakiHeap.link, erase_rank, erase_rank, ← lessOrEqual_eq]
  by_cases hranks : first.treeRank ≠ second.treeRank
  · rw [if_pos hranks]
    intro plain h
    rw [if_pos hranks] at h
    cases h
  rw [if_neg hranks, if_neg hranks]
  dsimp only
  by_cases hwins : lessOrEqual policy first second = true
  · rw [if_pos hwins, if_pos hwins, if_pos hwins, expose_rank]
    rintro plain ⟨⟩
    refine ⟨_, rfl, crown_admitted _ _ (cons_admitted hsecond (exposed_children hfirst)), ?_⟩
    rw [erase_gaining hfirst, eraseForest_cons, erase_children hfirst]
  · rw [if_neg hwins, if_neg hwins, if_neg hwins, expose_rank]
    rintro plain ⟨⟩
    refine ⟨_, rfl, crown_admitted _ _ (cons_admitted hfirst (exposed_children hsecond)), ?_⟩
    rw [erase_gaining hsecond, eraseForest_cons, erase_children hsecond]

omit lawful in
theorem tagTree_rank (outer : action) (tree : Tree element priority action) :
    (tagTree policy outer tree).treeRank = tree.treeRank := by
  rw [tagTree]
  split <;> rfl

omit lawful in
theorem view_tagForest (outer pending : action) (rawHead : Tree element priority action)
    (rawTail : Forest element priority action) :
    ∃ second rest, forestView policy (tagForest policy outer (.cons pending rawHead rawTail)) =
        some (second, rest) ∧ second.treeRank = rawHead.treeRank := by
  rw [tagForest]
  split
  · exact ⟨_, _, rfl, tagTree_rank _ _⟩
  · exact ⟨_, _, rfl, tagTree_rank _ _⟩

variable {forest : Forest element priority action}

theorem skewInsert_simulates
    (htree : TreeAdmitted admissible tree) (hforest : ForestAdmitted admissible forest) :
    ForestSimulates policy admissible (skewInsert policy tree forest)
      (BrodalOkasakiHeap.skewInsert (entryLe policy) (erase policy tree)
        (eraseForest policy forest)) := by
  have hplain : ForestSimulates policy admissible (.ok (cons policy tree forest))
      (.ok (erase policy tree :: eraseForest policy forest)) := by
    rintro plain ⟨⟩
    exact ⟨_, rfl, cons_admitted htree hforest, eraseForest_cons tree forest⟩
  cases forest with
  | nil => exact hplain
  | cons pending rawHead rawTail =>
      cases rawTail with
      | nil => exact hplain
      | cons tailPending tailRawHead tailRawTail =>
          have htagged := @tagForest_admitted _ _ _ policy _ _ _ _ hforest.1 hforest.2.2
          obtain ⟨second, rest, hview, hrank⟩ := @view_tagForest _ _ _ policy pending tailPending
            tailRawHead tailRawTail
          obtain ⟨hsecond, hrest, herased⟩ := forestView_some htagged hview
          obtain ⟨hfirst, -, hall⟩ :=
            forestView_some hforest (show forestView policy _ = some (_, _) from rfl)
          rw [herased] at hall
          rw [hall] at hplain ⊢
          rw [skewInsert, BrodalOkasakiHeap.skewInsert, erase_rank, erase_rank, hrank, tagTree_rank]
          by_cases hranks : rawHead.treeRank = tailRawHead.treeRank
          · rw [if_pos hranks, if_pos hranks, hview]
            intro plain h
            obtain ⟨linked, hlinked, hok⟩ := bind_eq_ok.mp h
            obtain ⟨made, hmade, hmadeAdmitted, hmadeErased⟩ :=
              skewLink_simulates htree hfirst hsecond linked hlinked
            cases hok
            refine ⟨cons policy made rest, ?_, cons_admitted hmadeAdmitted hrest, ?_⟩
            · dsimp only
              rw [hmade]
              rfl
            · rw [eraseForest_cons, hmadeErased]
          · rw [if_neg hranks, if_neg hranks]
            exact hplain

theorem getMinimum_simulates (h : ForestAdmitted admissible forest)
    {smallest : BrodalOkasakiHeap.Tree (MonotoneHeapEntry element priority)}
    {remainder : List (BrodalOkasakiHeap.Tree (MonotoneHeapEntry element priority))}
    (hplain : BrodalOkasakiHeap.getMinimum (entryLe policy) (eraseForest policy forest) =
      .ok (smallest, remainder)) :
    ∃ made rest, getMinimum policy forest = .ok (made, rest) ∧ TreeAdmitted admissible made ∧
      ForestAdmitted admissible rest ∧ erase policy made = smallest ∧
      eraseForest policy rest = remainder := by
  induction hlength : forest.length using Nat.strongRecOn
    generalizing forest smallest remainder with
  | ind length ih =>
      rw [getMinimum.eq_def]
      split
      · next hview =>
        rw [forestView_none hview] at hplain
        cases hplain
      · next headTree hview =>
        obtain ⟨hhead, -, herased⟩ := forestView_some h hview
        rw [herased] at hplain
        cases hplain
        exact ⟨_, _, rfl, hhead, trivial, rfl, rfl⟩
      · next headTree pending rawHead rawTail hview =>
        have hshorter := length_of_view policy hview
        obtain ⟨hhead, htail, herased⟩ := forestView_some h hview
        have htailErased := (forestView_some htail
          (show forestView policy _ = some (_, _) from rfl)).2.2
        rw [herased, htailErased, BrodalOkasakiHeap.getMinimum, ← htailErased] at hplain
        obtain ⟨⟨least, others⟩, hleast, hrest⟩ := bind_eq_ok.mp hplain
        obtain ⟨made, rest, hok, hmade, hrestAdmitted, hmadeErased, hrestErased⟩ :=
          ih _ (by omega) htail hleast rfl
        rw [hok, except_ok_bind]
        dsimp only at hrest ⊢
        rw [← hmadeErased, ← lessOrEqual_eq] at hrest
        by_cases hwins : lessOrEqual policy headTree made = true
        · rw [if_pos hwins] at hrest ⊢
          cases hrest
          exact ⟨_, _, rfl, hhead, htail, rfl, rfl⟩
        · rw [if_neg hwins] at hrest ⊢
          cases hrest
          refine ⟨_, _, rfl, hmade, cons_admitted hhead hrestAdmitted, rfl, ?_⟩
          rw [eraseForest_cons, hrestErased]

/-- The parts of a split, and the plain parts they erase to. -/
structure PartsErase (policy : MonotoneActionPolicy priority action) (admissible : action → Prop)
    (parts : Forest element priority action × Forest element priority action ×
      Forest element priority action)
    (plain : List (BrodalOkasakiHeap.Tree (MonotoneHeapEntry element priority)) ×
      List (BrodalOkasakiHeap.Tree (MonotoneHeapEntry element priority)) ×
      List (BrodalOkasakiHeap.Tree (MonotoneHeapEntry element priority))) : Prop where
  zeros : ForestAdmitted admissible parts.1
  trees : ForestAdmitted admissible parts.2.1
  embedded : ForestAdmitted admissible parts.2.2
  zeros_eq : eraseForest policy parts.1 = plain.1
  trees_eq : eraseForest policy parts.2.1 = plain.2.1
  embedded_eq : eraseForest policy parts.2.2 = plain.2.2

theorem splitForest_simulates (rank : Nat) {zeros trees forest : Forest element priority action}
    (hzeros : ForestAdmitted admissible zeros) (htrees : ForestAdmitted admissible trees)
    (hforest : ForestAdmitted admissible forest)
    {plain : List (BrodalOkasakiHeap.Tree (MonotoneHeapEntry element priority)) ×
      List (BrodalOkasakiHeap.Tree (MonotoneHeapEntry element priority)) ×
      List (BrodalOkasakiHeap.Tree (MonotoneHeapEntry element priority))}
    (hplain : BrodalOkasakiHeap.splitForest rank (eraseForest policy zeros)
      (eraseForest policy trees) (eraseForest policy forest) = .ok plain) :
    ∃ parts, splitForest policy rank zeros trees forest = .ok parts ∧
      PartsErase policy admissible parts plain := by
  induction rank generalizing zeros trees forest with
  | zero =>
      cases hplain
      exact ⟨_, rfl, hzeros, htrees, hforest, rfl, rfl, rfl⟩
  | succ rank ih =>
      rw [splitForest]
      split
      · next hview =>
        rw [forestView_none hview] at hplain
        cases hplain
      next first tail hview =>
      obtain ⟨hfirst, htail, herased⟩ := forestView_some hforest hview
      rw [herased] at hplain
      split
      · next htailView =>
        rw [forestView_none htailView] at hplain
        cases rank with
        | zero =>
            cases hplain
            exact ⟨_, rfl, hzeros, cons_admitted hfirst htrees, trivial, rfl,
              eraseForest_cons _ _, rfl⟩
        | succ rank => cases hplain
      next second rest htailView =>
      obtain ⟨hsecond, hrest, htailErased⟩ := forestView_some htail htailView
      rw [htailErased] at hplain
      cases rank with
      | zero =>
          rw [BrodalOkasakiHeap.splitForest, erase_rank] at hplain
          rw [if_pos rfl]
          by_cases hzero : second.treeRank = 0
          · rw [if_pos hzero] at hplain ⊢
            cases hplain
            exact ⟨_, rfl, cons_admitted hfirst hzeros, cons_admitted hsecond htrees, hrest,
              eraseForest_cons _ _, eraseForest_cons _ _, rfl⟩
          · rw [if_neg hzero] at hplain ⊢
            cases hplain
            exact ⟨_, rfl, hzeros, cons_admitted hfirst htrees, cons_admitted hsecond hrest, rfl,
              eraseForest_cons _ _, eraseForest_cons _ _⟩
      | succ rank =>
          rw [BrodalOkasakiHeap.splitForest, erase_rank, erase_rank] at hplain
          rw [if_neg (by omega)]
          by_cases hsame : first.treeRank = second.treeRank
          · rw [if_pos hsame] at hplain ⊢
            cases hplain
            refine ⟨_, rfl, hzeros, cons_admitted hfirst (cons_admitted hsecond htrees), hrest, rfl,
              ?_, rfl⟩
            dsimp only
            rw [eraseForest_cons, eraseForest_cons]
          rw [if_neg hsame] at hplain ⊢
          by_cases hzero : first.treeRank = 0
          · rw [if_pos hzero] at hplain ⊢
            apply ih (cons_admitted hfirst hzeros) (cons_admitted hsecond htrees) hrest
            rw [eraseForest_cons, eraseForest_cons]
            exact hplain
          · rw [if_neg hzero] at hplain ⊢
            apply ih hzeros (cons_admitted hfirst htrees) (cons_admitted hsecond hrest)
            rw [eraseForest_cons, eraseForest_cons]
            exact hplain

theorem insertRanked_simulates
    (htree : TreeAdmitted admissible tree) (hforest : ForestAdmitted admissible forest) :
    ForestSimulates policy admissible (insertRanked policy tree forest)
      (BrodalOkasakiHeap.insertRanked (entryLe policy) (erase policy tree)
        (eraseForest policy forest)) := by
  induction hlength : forest.length using Nat.strongRecOn generalizing tree forest with
  | ind length ih =>
      rw [insertRanked.eq_def]
      split
      · next hview =>
        rw [forestView_none hview]
        rintro plain ⟨⟩
        exact ⟨_, rfl, cons_admitted htree trivial, eraseForest_cons _ _⟩
      · next headTree tailForest hview =>
        have hshorter := length_of_view policy hview
        obtain ⟨hhead, htail, herased⟩ := forestView_some hforest hview
        rw [herased, BrodalOkasakiHeap.insertRanked, erase_rank, erase_rank, ← herased]
        by_cases hbelow : tree.treeRank < headTree.treeRank
        · rw [if_pos hbelow, if_pos hbelow]
          rintro plain ⟨⟩
          exact ⟨_, rfl, cons_admitted htree hforest, eraseForest_cons _ _⟩
        · rw [if_neg hbelow, if_neg hbelow]
          intro plain hplain
          split at hplain
          · obtain ⟨linked, hlinked, hrest⟩ := bind_eq_ok.mp hplain
            obtain ⟨made, hmade, hadmitted, hmadeErased⟩ :=
              link_simulates htree hhead linked hlinked
            rw [hmade, except_ok_bind]
            apply ih _ (by omega) hadmitted htail rfl
            rw [hmadeErased]
            exact hrest
          · cases hplain

theorem uniquify_simulates (hforest : ForestAdmitted admissible forest) :
    ForestSimulates policy admissible (uniquify policy forest)
      (BrodalOkasakiHeap.uniquify (entryLe policy) (eraseForest policy forest)) := by
  induction hlength : forest.length using Nat.strongRecOn generalizing forest with
  | ind length ih =>
      rw [uniquify.eq_def]
      split
      · next hview =>
        rw [forestView_none hview]
        rintro plain ⟨⟩
        exact ⟨_, rfl, trivial, rfl⟩
      · next headTree tailForest hview =>
        have hshorter := length_of_view policy hview
        obtain ⟨hhead, htail, herased⟩ := forestView_some hforest hview
        rw [herased]
        intro plain hplain
        obtain ⟨unique, hunique, hinserted⟩ := bind_eq_ok.mp hplain
        obtain ⟨made, hmade, hadmitted, hmadeErased⟩ := ih _ (by omega) htail rfl unique hunique
        rw [hmade, except_ok_bind]
        apply insertRanked_simulates hhead hadmitted
        rw [hmadeErased]
        exact hinserted

section

variable {left right : Forest element priority action} (hleft : ForestAdmitted admissible left)
  (hright : ForestAdmitted admissible right)
include hleft hright

theorem unionUnique_simulates :
    ForestSimulates policy admissible (unionUnique policy left right)
      (BrodalOkasakiHeap.unionUnique (entryLe policy) (eraseForest policy left)
        (eraseForest policy right)) := by
  induction hlength : left.length + right.length using Nat.strongRecOn generalizing left right with
  | ind length ih =>
      rw [unionUnique.eq_def, BrodalOkasakiHeap.unionUnique.eq_def]
      split
      · next hview =>
        rw [forestView_none hview]
        rintro plain ⟨⟩
        exact ⟨_, rfl, hright, rfl⟩
      · next hleftView hview =>
        obtain ⟨-, -, hleftErased⟩ := forestView_some hleft hleftView
        rw [hleftErased, forestView_none hview]
        rintro plain ⟨⟩
        exact ⟨_, rfl, hleft, hleftErased⟩
      next leftHead leftTail rightHead rightTail hleftView hrightView =>
      have hleftShorter := length_of_view policy hleftView
      have hrightShorter := length_of_view policy hrightView
      obtain ⟨hleftHead, hleftTail, hleftErased⟩ := forestView_some hleft hleftView
      obtain ⟨hrightHead, hrightTail, hrightErased⟩ := forestView_some hright hrightView
      rw [hleftErased, hrightErased]
      dsimp only
      rw [erase_rank, erase_rank, ← hleftErased, ← hrightErased]
      by_cases hbelow : leftHead.treeRank < rightHead.treeRank
      · rw [if_pos hbelow, if_pos hbelow]
        intro plain hplain
        obtain ⟨union, hunion, hok⟩ := bind_eq_ok.mp hplain
        obtain ⟨made, hmade, hadmitted, hmadeErased⟩ :=
          ih _ (by omega) hleftTail hright rfl union hunion
        cases hok
        rw [hmade, except_ok_bind]
        exact ⟨_, rfl, cons_admitted hleftHead hadmitted, by rw [eraseForest_cons, hmadeErased]⟩
      rw [if_neg hbelow, if_neg hbelow]
      by_cases habove : leftHead.treeRank > rightHead.treeRank
      · rw [if_pos habove, if_pos habove]
        intro plain hplain
        obtain ⟨union, hunion, hok⟩ := bind_eq_ok.mp hplain
        obtain ⟨made, hmade, hadmitted, hmadeErased⟩ :=
          ih _ (by omega) hleft hrightTail rfl union hunion
        cases hok
        rw [hmade, except_ok_bind]
        exact ⟨_, rfl, cons_admitted hrightHead hadmitted, by rw [eraseForest_cons, hmadeErased]⟩
      · rw [if_neg habove, if_neg habove]
        intro plain hplain
        obtain ⟨linked, hlinked, hrest⟩ := bind_eq_ok.mp hplain
        obtain ⟨union, hunion, hinserted⟩ := bind_eq_ok.mp hrest
        obtain ⟨madeLink, hmadeLink, hlinkAdmitted, hlinkErased⟩ :=
          link_simulates hleftHead hrightHead linked hlinked
        obtain ⟨made, hmade, hadmitted, hmadeErased⟩ :=
          ih _ (by omega) hleftTail hrightTail rfl union hunion
        rw [hmadeLink, except_ok_bind, hmade, except_ok_bind]
        apply insertRanked_simulates hlinkAdmitted hadmitted
        rw [hlinkErased, hmadeErased]
        exact hinserted

theorem skewMeld_simulates :
    ForestSimulates policy admissible (skewMeld policy left right)
      (BrodalOkasakiHeap.skewMeld (entryLe policy) (eraseForest policy left)
        (eraseForest policy right)) := by
  intro plain hplain
  obtain ⟨uniqueLeft, hleftOk, hrest⟩ := bind_eq_ok.mp hplain
  obtain ⟨uniqueRight, hrightOk, hunion⟩ := bind_eq_ok.mp hrest
  obtain ⟨madeLeft, hmadeLeft, hleftAdmitted, hleftErased⟩ :=
    uniquify_simulates hleft uniqueLeft hleftOk
  obtain ⟨madeRight, hmadeRight, hrightAdmitted, hrightErased⟩ :=
    uniquify_simulates hright uniqueRight hrightOk
  rw [skewMeld, hmadeLeft, except_ok_bind, hmadeRight, except_ok_bind]
  apply unionUnique_simulates hleftAdmitted hrightAdmitted
  rw [hleftErased, hrightErased]
  exact hunion

end

theorem forestToList_spec (hforest : ForestAdmitted admissible forest) :
    (forestToList policy forest).map (erase policy) = eraseForest policy forest ∧
      ∀ tree ∈ forestToList policy forest, TreeAdmitted admissible tree := by
  induction hlength : forest.length using Nat.strongRecOn generalizing forest with
  | ind length ih =>
      rw [forestToList.eq_def]
      split
      · next hview => exact ⟨(forestView_none hview).symm, forall_mem_nil _⟩
      · next headTree tailForest hview =>
        have hshorter := length_of_view policy hview
        obtain ⟨hhead, htail, herased⟩ := forestView_some hforest hview
        obtain ⟨hlist, hadmitted⟩ := ih _ (by omega) htail rfl
        exact ⟨by rw [map_cons, hlist, herased], forall_mem_cons.mpr ⟨hhead, hadmitted⟩⟩

theorem restore_simulates {zeros : List (Tree element priority action)}
    {merged : Forest element priority action}
    (hzeros : ∀ tree ∈ zeros, TreeAdmitted admissible tree)
    (hmerged : ForestAdmitted admissible merged) :
    ForestSimulates policy admissible
      (zeros.foldlM (fun forest zero => skewInsert policy zero forest) merged)
      ((zeros.map (erase policy)).foldlM
        (fun forest zero => BrodalOkasakiHeap.skewInsert (entryLe policy) zero forest)
        (eraseForest policy merged)) := by
  induction zeros generalizing merged with
  | nil =>
      rintro plain ⟨⟩
      exact ⟨merged, rfl, hmerged, rfl⟩
  | cons zero zeros ih =>
      obtain ⟨hzero, hzeros⟩ := forall_mem_cons.mp hzeros
      intro plain hplain
      rw [map_cons, foldlM_cons] at hplain
      obtain ⟨inserted, hinserted, hrest⟩ := bind_eq_ok.mp hplain
      obtain ⟨made, hmade, hadmitted, herased⟩ :=
        skewInsert_simulates hzero hmerged inserted hinserted
      rw [foldlM_cons, hmade, except_ok_bind]
      apply ih hzeros hadmitted
      rw [herased]
      exact hrest

theorem promote_simulates {children : Forest element priority action}
    (hchildren : ForestAdmitted admissible children) :
    TreeSimulates policy admissible (promote policy children)
      (BrodalOkasakiHeap.promote (entryLe policy) (eraseForest policy children)) := by
  intro plain hplain
  obtain ⟨⟨smallest, remainder⟩, hminimum, hplain⟩ := bind_eq_ok.mp hplain
  obtain ⟨⟨zeros, trees, embedded⟩, hsplit, hplain⟩ := bind_eq_ok.mp hplain
  obtain ⟨melded, hmelded, hplain⟩ := bind_eq_ok.mp hplain
  obtain ⟨merged, hmerged, hplain⟩ := bind_eq_ok.mp hplain
  obtain ⟨restored, hrestored, hplain⟩ := bind_eq_ok.mp hplain
  cases hplain
  obtain ⟨tagged, rest, htagged, htaggedAdmitted, hrestAdmitted, rfl, rfl⟩ :=
    getMinimum_simulates hchildren hminimum
  rw [erase_rank, erase_children htaggedAdmitted] at hsplit
  obtain ⟨⟨madeZeros, madeTrees, madeEmbedded⟩, hparts, hadmitted⟩ :=
    @splitForest_simulates _ _ _ policy _ _ tagged.treeRank .nil .nil _ trivial trivial
      (exposed_children htaggedAdmitted) _ hsplit
  obtain ⟨hzeros, htrees, hembedded, hzerosEq, htreesEq, hembeddedEq⟩ := hadmitted
  dsimp only at hzeros htrees hembedded hzerosEq htreesEq hembeddedEq
  rw [← htreesEq] at hmelded
  obtain ⟨madeMelded, hmadeMelded, hmeldedAdmitted, rfl⟩ :=
    skewMeld_simulates htrees hrestAdmitted melded hmelded
  rw [← hembeddedEq] at hmerged
  obtain ⟨madeMerged, hmadeMerged, hmergedAdmitted, rfl⟩ :=
    skewMeld_simulates hmeldedAdmitted hembedded merged hmerged
  obtain ⟨hlist, hlistAdmitted⟩ := @forestToList_spec _ _ _ policy _ _ _ hzeros
  rw [← hzerosEq, ← hlist, ← map_reverse] at hrestored
  obtain ⟨madeRestored, hmadeRestored, hrestoredAdmitted, rfl⟩ :=
    @restore_simulates _ _ _ policy _ _ (forestToList policy madeZeros).reverse madeMerged
      (fun tree htree => hlistAdmitted tree (mem_reverse.mp htree)) hmergedAdmitted
      restored hrestored
  refine ⟨crown policy 0 (expose policy tagged) madeRestored, ?_,
    crown_admitted _ _ hrestoredAdmitted, erase_gaining htaggedAdmitted _ _⟩
  rw [promote, htagged, except_ok_bind]
  dsimp only
  rw [expose_rank, hparts, except_ok_bind]
  dsimp only
  rw [hmadeMelded, except_ok_bind, hmadeMerged, except_ok_bind, hmadeRestored, except_ok_bind]

end Durable7.FingerTree.PersistentMonotoneActionHeap
