import Durable7.Foundation.Blocks
import Durable7.FingerTree.RrbVector.Operations

/-!
# Well-formed nodes

The shape of a node at a height, and the rows of nodes that concatenation and
splitting pass around.  The choice of a child agrees with the counts of the
children, whether it is made by radix digits or by the size table.
-/

namespace Durable7.FingerTree.RrbVector

open Foundation

variable {α : Type}

section

open List Nat

/-- The size table of a branch: none where its layout is regular. -/
def sizeTable (children : List (Node α)) (branchHeight : Nat) : Option (List Nat) :=
  if hasRegularLayout children branchHeight then none
  else some (((children.map nodeCount).scanl (· + ·) 0).drop 1)

inductive WellFormed : Nat → Node α → Prop
  | leaf {values : List α} : values ≠ [] → values.length ≤ branchFactor →
      WellFormed 0 (.leaf values)
  | branch {height count : Nat} {children : List (Node α)} {sizes : Option (List Nat)} :
      children ≠ [] → children.length ≤ branchFactor →
      (∀ child ∈ children, WellFormed height child) →
      count = (children.map nodeCount).sum → sizes = sizeTable children (height + 1) →
      WellFormed (height + 1) (.branch count (height + 1) children sizes)

/-- The number of elements of a leaf, and of children of a branch. -/
def arity : Node α → Nat
  | .leaf values => values.length
  | .branch _ _ children _ => children.length

@[simp] theorem nodesToList_eq (nodes : List (Node α)) :
    nodesToList nodes = nodes.flatMap nodeToList := by
  induction nodes with
  | nil => rfl
  | cons node nodes ih => rw [nodesToList, ih, flatMap_cons]

theorem nodeToList_branch (count height : Nat) (children : List (Node α))
    (sizes : Option (List Nat)) :
    nodeToList (.branch count height children sizes) = children.flatMap nodeToList := by
  rw [nodeToList, nodesToList_eq]

theorem nodeToList_leaf (values : List α) : nodeToList (.leaf values) = values := by
  rw [nodeToList]

namespace WellFormed

variable {height : Nat} {node : Node α}

section

variable (h : WellFormed height node)
include h

theorem height_eq : nodeHeight node = height := by
  cases h <;> rfl

theorem arity_pos : 0 < arity node := by
  cases h with
  | leaf hne _ => exact length_pos_iff.mpr hne
  | branch hne _ _ _ _ => exact length_pos_iff.mpr hne

theorem arity_le : arity node ≤ branchFactor := by
  cases h with
  | leaf _ hle => exact hle
  | branch _ hle _ _ _ => exact hle

theorem count_eq : nodeCount node = (nodeToList node).length := by
  induction h with
  | leaf _ _ => rw [nodeToList_leaf, nodeCount]
  | branch _ _ _ hcount _ ih =>
      rw [nodeToList_branch, nodeCount, hcount, length_flatMap]
      congr 1
      exact map_congr_left ih

theorem count_pos : 0 < nodeCount node := by
  induction h with
  | leaf hne _ => exact length_pos_iff.mpr hne
  | @branch _ _ children _ hne _ _ hcount _ ih =>
      obtain ⟨first, rest, rfl⟩ := exists_cons_of_ne_nil hne
      have hfirst := ih first (by simp)
      rw [nodeCount, hcount, map_cons, sum_cons]
      omega

end

end WellFormed

/-! ## Rows of nodes -/

/-- Nodes of one height that hold the values in order. -/
structure Row (height : Nat) (nodes : List (Node α)) (values : List α) : Prop where
  wellFormed : ∀ node ∈ nodes, WellFormed height node
  contents : nodes.flatMap nodeToList = values

namespace Row

variable {height : Nat} {node : Node α} {nodes others : List (Node α)} {values more : List α}

theorem nil (height : Nat) : Row height ([] : List (Node α)) [] := ⟨by simp, rfl⟩

theorem single (h : WellFormed height node) : Row height [node] (nodeToList node) :=
  ⟨by simpa using h, by simp⟩

theorem append (h : Row height nodes values) (h' : Row height others more) :
    Row height (nodes ++ others) (values ++ more) where
  wellFormed := by
    intro node hnode
    rcases mem_append.mp hnode with hnode | hnode
    · exact h.wellFormed node hnode
    · exact h'.wellFormed node hnode
  contents := by rw [flatMap_append, h.contents, h'.contents]

theorem of_children (h : ∀ node ∈ nodes, WellFormed height node) :
    Row height nodes (nodes.flatMap nodeToList) :=
  ⟨h, rfl⟩

theorem take (h : Row height nodes values) (amount : Nat) :
    Row height (nodes.take amount) ((nodes.take amount).flatMap nodeToList) :=
  .of_children fun node hnode => h.wellFormed node (mem_of_mem_take hnode)

theorem drop (h : Row height nodes values) (amount : Nat) :
    Row height (nodes.drop amount) ((nodes.drop amount).flatMap nodeToList) :=
  .of_children fun node hnode => h.wellFormed node (mem_of_mem_drop hnode)

theorem head (h : Row height [node] values) : WellFormed height node ∧ nodeToList node = values :=
  ⟨h.wellFormed node (by simp), by simpa using h.contents⟩

theorem sum_count (h : Row height nodes values) : (nodes.map nodeCount).sum = values.length := by
  rw [← h.contents, length_flatMap]
  congr 1
  apply map_congr_left
  intro node hnode
  exact (h.wellFormed node hnode).count_eq

theorem height_eq (h : Row height nodes values) (hnode : node ∈ nodes) : nodeHeight node = height :=
  (h.wellFormed node hnode).height_eq

end Row

theorem checkedAdd_eq {left right : Nat} (h : left + right ≤ maxBound) :
    checkedAdd left right = .ok (left + right) :=
  if_neg (not_lt.mpr h)

variable {counts : List Nat}

theorem foldlM_checkedAdd {total : Nat} (h : total + counts.sum ≤ maxBound) :
    counts.foldlM checkedAdd total = .ok (total + counts.sum) := by
  induction counts generalizing total with
  | nil => rfl
  | cons count counts ih =>
      rw [sum_cons] at h ⊢
      rw [foldlM_cons, checkedAdd_eq (by omega), except_ok_bind, ih (by omega), add_assoc]

theorem checkedSum_eq (h : counts.sum ≤ maxBound) : checkedSum counts = .ok counts.sum := by
  rw [checkedSum, foldlM_checkedAdd (by omega), zero_add]

theorem scanl_drop_cons (total count : Nat) (counts : List Nat) :
    ((count :: counts).scanl (· + ·) total).drop 1 =
      (total + count) :: (counts.scanl (· + ·) (total + count)).drop 1 := by
  cases counts <;> simp

theorem checkedScan_eq {total : Nat} (h : total + counts.sum ≤ maxBound) :
    checkedScan total counts = .ok ((counts.scanl (· + ·) total).drop 1) := by
  induction counts generalizing total with
  | nil => rfl
  | cons count counts ih =>
      rw [sum_cons] at h
      rw [checkedScan, checkedAdd_eq (by omega), except_ok_bind, ih (by omega), except_ok_bind,
        scanl_drop_cons]

theorem leafFromList_spec (values : List α) (hne : values ≠ [])
    (hlength : values.length ≤ branchFactor) :
    leafFromList values = .ok (.leaf values) ∧ WellFormed 0 (.leaf values) := by
  refine ⟨?_, .leaf hne hlength⟩
  rw [leafFromList, if_neg]
  simpa [hne] using hlength

theorem mkBranch_spec {height : Nat} {children : List (Node α)} {values : List α}
    (h : Row height children values) (hne : children ≠ [])
    (hlength : children.length ≤ branchFactor) (hvalues : values.length ≤ maxBound)
    (hheight : height < maxBound) :
    ∃ parent, mkBranch children = .ok parent ∧ Row (height + 1) [parent] values ∧
      arity parent = children.length := by
  have hsum : (children.map nodeCount).sum ≤ maxBound := by rw [h.sum_count]; exact hvalues
  have hwell : WellFormed (height + 1) (.branch (children.map nodeCount).sum (height + 1) children
      (sizeTable children (height + 1))) := .branch hne hlength h.wellFormed rfl rfl
  refine ⟨_, ?_, ⟨by simpa using hwell, ?_⟩, rfl⟩
  · obtain ⟨first, rest, rfl⟩ := exists_cons_of_ne_nil hne
    have hfirst : nodeHeight first = height := h.height_eq (by simp)
    have hequal : ¬ ((first :: rest).any fun child =>
        nodeHeight child != nodeHeight first) = true := by
      rw [any_eq_true]
      rintro ⟨child, hchild, hdiffers⟩
      rw [h.height_eq hchild, hfirst] at hdiffers
      simp at hdiffers
    rw [mkBranch, if_neg (not_lt.mpr hlength), if_neg hequal, hfirst,
      checkedAdd_eq (by omega), except_ok_bind, checkedSum_eq hsum, except_ok_bind, sizeTable]
    split
    · rfl
    · rw [checkedScan_eq (by omega), except_ok_bind]
  · rw [flatMap_cons, flatMap_nil, append_nil, nodeToList_branch, h.contents]

/-! ## Choosing a child -/

theorem findInSizes_spec {position index before : Nat}
    (hbefore : before ≤ position) (hposition : position < before + counts.sum) :
    ∃ skipped total, findInSizes position index before ((counts.scanl (· + ·) before).drop 1) =
        .ok (index + skipped, before + total) ∧
      Locates counts (position - before) skipped total := by
  induction counts generalizing index before with
  | nil => simp at hposition; omega
  | cons count counts ih =>
      rw [sum_cons] at hposition
      rw [scanl_drop_cons, findInSizes]
      rcases lt_or_ge position (before + count) with hlt | hge
      · rw [if_pos hlt]
        exact ⟨0, 0, rfl, .here _ (by omega)⟩
      · obtain ⟨skipped, total, hfind, hlocates⟩ := @ih (index + 1) (before + count) hge (by omega)
        rw [if_neg (not_lt.mpr hge), hfind]
        refine ⟨skipped + 1, count + total, ?_, ?_⟩
        · rw [add_assoc, add_comm 1, add_assoc before]
        · have hstep := hlocates.there count
          rwa [show count + (position - (before + count)) = position - before by omega] at hstep

theorem hasRegularLayout_eq_true {children : List (Node α)} {branchHeight : Nat} :
    hasRegularLayout children branchHeight = true ↔
      1 ≤ branchHeight ∧ branchHeight ≤ maximumHeight ∧
        ∃ front last, children = front ++ [last] ∧
          (∀ child ∈ front, nodeCount child = 2 ^ (branchHeight * radixBits)) ∧
          nodeCount last ≤ 2 ^ (branchHeight * radixBits) := by
  cases children with
  | nil => simp [hasRegularLayout]
  | cons first rest =>
      have hsplit := splitLastFrom_eq first rest
      rw [hasRegularLayout, one_shiftLeft]
      generalize splitLastFrom first rest = pieces at hsplit
      obtain ⟨front, last⟩ := pieces
      simp only at hsplit
      constructor
      · intro h
        split at h
        · cases h
        · rename_i hbounds
          rw [Bool.and_eq_true, all_eq_true, decide_eq_true_iff] at h
          exact ⟨by omega, by omega, front, last, hsplit.symm,
            fun child hchild => by simpa using h.1 child hchild, h.2⟩
      · rintro ⟨hlow, hhigh, front', last', hchildren, hfront, hlast⟩
        rw [← hsplit] at hchildren
        obtain ⟨rfl, hlasts⟩ := append_inj' hchildren rfl
        obtain rfl := singleton_inj.mp hlasts
        rw [if_neg (by omega), Bool.and_eq_true, all_eq_true, decide_eq_true_iff]
        exact ⟨fun child hchild => by simpa using hfront child hchild, hlast⟩

theorem findChild_locates {branchHeight position : Nat} {children : List (Node α)}
    (hposition : position < (children.map nodeCount).sum) (count : Nat) :
    ∃ childIndex before,
      findChild position (.branch count branchHeight children
        (sizeTable children branchHeight)) = .ok (childIndex, before) ∧
      Locates (children.map nodeCount) position childIndex before := by
  rw [sizeTable]
  split
  · rename_i hregular
    obtain ⟨-, -, front, last, rfl, hfront, hlast⟩ := hasRegularLayout_eq_true.mp hregular
    have hcapacity : ∀ length ∈ front.map nodeCount, length = 2 ^ (branchHeight * radixBits) := by
      intro length hlength
      obtain ⟨child, hchild, rfl⟩ := mem_map.mp hlength
      exact hfront child hchild
    have hlocates := locates_uniform hcapacity hlast (show position <
      (front.map nodeCount).sum + nodeCount last by simpa using hposition)
    have hindex := hlocates.index_lt
    simp only [length_append, length_map] at hindex
    rw [findChild, shiftRight_eq_div_pow, shiftLeft_eq, if_pos (by simpa using hindex)]
    exact ⟨_, _, rfl, by simpa using hlocates⟩
  · obtain ⟨skipped, total, hfind, hlocates⟩ :=
      @findInSizes_spec (children.map nodeCount) position 0 0 (zero_le _) (by omega)
    rw [findChild, hfind]
    exact ⟨_, _, rfl, by simpa using hlocates⟩

/-- A child with what stands before and after it in its branch. -/
structure ChildAt (children : List (Node α)) (position childIndex before : Nat)
    (front : List (Node α)) (child : Node α) (back : List (Node α)) : Prop where
  children_eq : children = front ++ child :: back
  index_eq : childIndex = front.length
  before_eq : before = (front.flatMap nodeToList).length
  before_le : before ≤ position
  position_lt : position < before + nodeCount child

theorem WellFormed.findChild_spec {height count position : Nat} {children : List (Node α)}
    {sizes : Option (List Nat)}
    (h : WellFormed (height + 1) (.branch count (height + 1) children sizes))
    (hposition : position < count) :
    ∃ childIndex before front child back,
      findChild position (.branch count (height + 1) children sizes) = .ok (childIndex, before) ∧
      ChildAt children position childIndex before front child back := by
  cases h with
  | branch _ _ hchildren hcount hsizes =>
      subst hsizes
      rw [hcount] at hposition
      obtain ⟨childIndex, before, hfind, hlocates⟩ := findChild_locates hposition count
      obtain ⟨front, length, back, hsplit, hindex, hbefore, hle, hlt⟩ := hlocates
      obtain ⟨nodes, others, rfl, rfl, hothers⟩ := map_eq_append_iff.mp hsplit
      obtain ⟨child, rest, rfl, rfl, rfl⟩ := map_eq_cons_iff.mp hothers
      have hrow : Row height nodes (nodes.flatMap nodeToList) :=
        .of_children fun node hnode => hchildren node (by simp [hnode])
      refine ⟨childIndex, before, nodes, child, rest, hfind, rfl, by simpa using hindex, ?_, hle,
        hlt⟩
      rw [hbefore, hrow.sum_count]

namespace ChildAt

variable {children front back : List (Node α)} {child : Node α} {position childIndex before : Nat}

section

variable (h : ChildAt children position childIndex before front child back)
include h

theorem getElem? : children[childIndex]? = some child := by
  rw [h.children_eq, h.index_eq]
  simp

theorem set (other : Node α) : children.set childIndex other = front ++ other :: back := by
  rw [h.children_eq, h.index_eq]
  simp

theorem take : children.take childIndex = front := by
  rw [h.children_eq, h.index_eq]
  simp

theorem drop : children.drop (childIndex + 1) = back := by
  rw [h.children_eq, h.index_eq]
  simp

theorem mem : child ∈ children := by
  rw [h.children_eq]
  simp

theorem count_le : nodeCount child ≤ (children.map nodeCount).sum := by
  rw [h.children_eq, map_append, map_cons, List.sum_append_nat, sum_cons]
  omega

theorem contents :
    children.flatMap nodeToList =
      front.flatMap nodeToList ++ (nodeToList child ++ back.flatMap nodeToList) := by
  rw [h.children_eq, flatMap_append, flatMap_cons]

end

end ChildAt

end

/-!
## Reading and replacing one element

A path from the root to a leaf reads the element at a position, and a copy of this
path replaces it.
-/

theorem indexNode_branch {position count height childIndex before : Nat}
    {children : List (Node α)} {sizes : Option (List Nat)} {child : Node α}
    (hfind : findChild position (.branch count height children sizes) = .ok (childIndex, before))
    (hchild : children[childIndex]? = some child) :
    indexNode position (.branch count height children sizes) =
      indexNode (position - before) child := by
  rw [indexNode, hfind, except_ok_bind]
  simp only
  split
  · simp_all
  · simp_all

theorem indexNode_spec {height position : Nat} {node : Node α} (h : WellFormed height node)
    (hposition : position < nodeCount node) :
    ∃ value, (nodeToList node)[position]? = some value ∧ indexNode position node = .ok value := by
  induction h generalizing position with
  | @leaf values hne hlength =>
      have hlt : position < values.length := hposition
      refine ⟨values[position], ?_, ?_⟩
      · rw [nodeToList_leaf, List.getElem?_eq_getElem hlt]
      · rw [indexNode, List.getElem?_eq_getElem hlt, presentOr_eq_ok]
  | @branch height count children sizes hne hlength hchildren hcount hsizes ih =>
      have hnode := WellFormed.branch hne hlength hchildren hcount hsizes
      obtain ⟨childIndex, before, front, child, back, hfind, hat⟩ := hnode.findChild_spec hposition
      have hmem := hat.mem
      have hle := hat.before_le
      have hlt := hat.position_lt
      obtain ⟨value, hvalue, hindex⟩ :=
        ih child hmem (show position - before < nodeCount child by omega)
      rw [(hchildren child hmem).count_eq] at hlt
      refine ⟨value, ?_, by rw [indexNode_branch hfind hat.getElem?, hindex]⟩
      rw [hat.before_eq] at hle hlt hvalue
      rw [nodeToList_branch, hat.contents, getElem?_middle hle hlt, hvalue]

section Replacing

variable [BEq α] {identical : α → α → Bool}

theorem setNode_branch {position count height childIndex before : Nat} {value : α}
    {children : List (Node α)} {sizes : Option (List Nat)} {found child : Node α} {changed : Bool}
    (hfind : findChild position (.branch count height children sizes) = .ok (childIndex, before))
    (hfound : children[childIndex]? = some found)
    (hset : setNode identical (position - before) value found = .ok (child, changed)) :
    setNode identical position value (.branch count height children sizes) =
      if changed then do
        let updated ← mkBranch (children.set childIndex child)
        .ok (updated, true)
      else .ok (.branch count height children sizes, false) := by
  rw [setNode, hfind, except_ok_bind]
  simp only
  split
  · simp_all
  · rename_i other hother
    obtain rfl : found = other := Option.some.inj (hfound.symm.trans hother)
    rw [hset, except_ok_bind]

theorem setNode_spec {height position : Nat} {node : Node α} (h : WellFormed height node)
    (hposition : position < nodeCount node) (hcount : nodeCount node ≤ maxBound)
    (hheight : height ≤ maxBound) (identical : α → α → Bool) (value : α) :
    ∃ old updated, (nodeToList node)[position]? = some old ∧
      setNode identical position value node = .ok (updated, !sameValue identical old value) ∧
      (sameValue identical old value = true → updated = node) ∧
      (sameValue identical old value = false →
        Row height [updated] ((nodeToList node).set position value) ∧
          arity updated = arity node) := by
  induction h generalizing position with
  | @leaf values hne hlength =>
      have hlt : position < values.length := hposition
      rw [setNode, nodeToList_leaf, List.getElem?_eq_getElem hlt]
      refine ⟨values[position],
        if sameValue identical values[position] value then .leaf values
        else .leaf (values.set position value), rfl, ?_, ?_, ?_⟩
      · cases hsame : sameValue identical values[position] value <;> simp [presentOr, hsame]
      · intro hsame
        rw [if_pos hsame]
      · intro hsame
        rw [if_neg (by simp [hsame])]
        have hset : WellFormed 0 (.leaf (values.set position value)) :=
          .leaf (by simpa using hne) (by simpa using hlength)
        refine ⟨?_, by simp [arity]⟩
        have hrow := Row.single hset
        rwa [nodeToList_leaf] at hrow
  | @branch height count children sizes hne hlength hchildren hsum hsizes ih =>
      have hnode := WellFormed.branch hne hlength hchildren hsum hsizes
      obtain ⟨childIndex, before, front, child, back, hfind, hat⟩ := hnode.findChild_spec hposition
      have hmem := hat.mem
      have hle := hat.before_le
      have hlt := hat.position_lt
      have hchildCount : nodeCount child ≤ maxBound := by
        rw [nodeCount, hsum] at hcount
        exact Nat.le_trans hat.count_le hcount
      obtain ⟨old, updated, hold, hset, hkept, hreplaced⟩ :=
        ih child hmem (show position - before < nodeCount child by omega) hchildCount (by omega)
      rw [(hchildren child hmem).count_eq] at hlt
      rw [setNode_branch hfind hat.getElem? hset]
      rw [hat.before_eq] at hle hlt hold hreplaced
      have hread : (nodeToList (.branch count (height + 1) children sizes))[position]? =
          some old := by
        rw [nodeToList_branch, hat.contents, getElem?_middle hle hlt, hold]
      cases hsame : sameValue identical old value with
      | true =>
          exact ⟨old, .branch count (height + 1) children sizes, hread, by simp [hsame],
            fun _ => rfl, by simp [hsame]⟩
      | false =>
          obtain ⟨hrow, -⟩ := hreplaced hsame
          have hfront : Row height front (front.flatMap nodeToList) :=
            .of_children fun node hmem' => hchildren node (by rw [hat.children_eq]; simp [hmem'])
          have hback : Row height back (back.flatMap nodeToList) :=
            .of_children fun node hmem' => hchildren node (by rw [hat.children_eq]; simp [hmem'])
          have hrows := hfront.append (hrow.append hback)
          rw [← set_middle hle hlt, ← hat.contents, List.singleton_append, ← hat.set updated]
            at hrows
          have htotal : ((children.flatMap nodeToList).set position value).length ≤ maxBound := by
            rw [List.length_set, ← nodeToList_branch count (height + 1) children sizes,
              ← hnode.count_eq]
            exact hcount
          obtain ⟨parent, hparent, hresult, harity⟩ :=
            mkBranch_spec hrows (by simpa using hne) (by simpa using hlength) htotal (by omega)
          refine ⟨old, parent, hread, ?_, by simp [hsame], ?_⟩
          · simp [hsame, hparent]
          · intro _
            rw [nodeToList_branch]
            exact ⟨hresult, by rw [harity, List.length_set, arity]⟩

end Replacing

end Durable7.FingerTree.RrbVector
