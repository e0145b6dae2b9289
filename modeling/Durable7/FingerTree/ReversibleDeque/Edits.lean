import Durable7.FingerTree.ReversibleDeque.Refinement

/-!
# Edits of reversible deques

Additions, views and concatenations make the trees of the elements they should, level by
level.
-/

namespace Durable7.FingerTree.ReversibleDeque

open Foundation List Nat

variable {α : Type}

/-! ## Additions -/

variable {middle : Tree α} {back front : List (Elem α)} {tree : Tree α}

theorem treeCons_layer (value : Elem α) :
    Layer tree front middle back →
      treeCons value tree = match front with
        | [a, b, c] => do
            let pushed ← makeNode [b, c]
            let inner ← treeCons pushed middle
            makeDeep [value, a] inner back
        | front => makeDeep (value :: front) middle back := by
  rintro ⟨⟩
  rewrite [treeCons]
  generalize logicalPrefix _ = front
  rcases front with _ | ⟨a, _ | ⟨b, _ | ⟨c, _ | ⟨d, rest⟩⟩⟩⟩ <;> rfl

theorem treeSnoc_layer (value : Elem α) :
    Layer tree front middle back →
      treeSnoc tree value = match back with
        | [a, b, c] => do
            let pushed ← makeNode [a, b]
            let inner ← treeSnoc middle pushed
            makeDeep front inner [c, value]
        | back => makeDeep front middle (back ++ [value]) := by
  rintro ⟨⟩
  rewrite [treeSnoc]
  generalize logicalSuffix _ = back
  rcases back with _ | ⟨a, _ | ⟨b, _ | ⟨c, _ | ⟨d, rest⟩⟩⟩⟩ <;> rfl

variable {level : Nat}

theorem digitValid_two {a b : Elem α} (ha : ElemValid level a) (hb : ElemValid level b) :
    DigitValid level [a, b] := by
  refine ⟨succ_pos _, le_succ _, fun element helement => ?_⟩
  rcases mem_pair.mp helement with rfl | rfl
  · exact ha
  · exact hb

theorem items_append {left right : List (Elem α)}
    (hleft : ∀ element ∈ left, ElemValid level element)
    (hright : ∀ element ∈ right, ElemValid level element) :
    ∀ element ∈ left ++ right, ElemValid level element := by
  intro element helement
  rcases mem_append.mp helement with hmem | hmem
  · exact hleft element hmem
  · exact hright element hmem

section

variable {value : Elem α} (hvalue : ElemValid level value) (hfits : Fits (elemElements value))
  (h : TreeValid level tree)
include hvalue hfits h

theorem treeCons_makes :
    Makes (ShowsTree level) (treeCons value tree) (elemElements value ++ treeElements tree) := by
  induction hspine : spine tree using Nat.strongRecOn generalizing level value tree with
  | ind depth ih =>
  cases treeShape h with
  | empty =>
      rw [treeCons, treeElements, append_nil]
      exact .ok hfits ⟨hvalue, rfl⟩
  | @single old hold =>
      have hmade := makeDeep_makes (digitValid_singleton hvalue)
        (show TreeValid (level + 1) (.empty : Tree α) from trivial) (digitValid_singleton hold)
      rw [digitElements_singleton, digitElements_singleton] at hmade
      rw [treeCons]
      exact hmade
  | @deep _ middle front back hlayer =>
      rw [treeCons_layer _ hlayer.layer, hlayer.elements_eq]
      rcases hlayer.frontValid.cases with ⟨a, rfl⟩ | ⟨a, b, rfl⟩ | ⟨a, b, c, rfl⟩
      · have ha := hlayer.frontValid.items a mem_cons_self
        have hmade := makeDeep_makes (digitValid_two hvalue ha) hlayer.middleValid hlayer.backValid
        rwa [digitElements_cons, append_assoc] at hmade
      · have hfront : DigitValid level [value, a, b] :=
          ⟨succ_pos _, le_refl _,
            items_append (digitValid_singleton hvalue).items hlayer.frontValid.items⟩
        have hmade := makeDeep_makes hfront hlayer.middleValid hlayer.backValid
        rwa [digitElements_cons, append_assoc] at hmade
      · have hrest : ∀ child ∈ [b, c], ElemValid level child :=
          fun child hchild => hlayer.frontValid.items child (mem_cons_of_mem a hchild)
        have hshape : elemElements value ++
            (digitElements [a, b, c] ++ (treeElements middle ++ digitElements back)) =
            digitElements [value, a] ++
              ((digitElements [b, c] ++ treeElements middle) ++ digitElements back) := by
          simp only [digitElements_cons, digitElements_nil, append_nil, append_assoc]
        rw [hshape]
        refine (makeNode_makes (.inl rfl) hrest).bind ?_ fun pushed hpushed hshown => ?_
        · simp only [length_append]
          omega
        obtain ⟨hvalid, helements⟩ := hshown
        have hinner := ih (spine middle) (hspine ▸ hlayer.spine_eq ▸ lt_succ_self _) hvalid
          (helements ▸ hpushed) hlayer.middleValid rfl
        rw [helements] at hinner
        refine hinner.bind ?_ fun inner _ hshown => ?_
        · simp only [length_append]
          omega
        rw [← hshown.2]
        exact makeDeep_makes (digitValid_two hvalue (hlayer.frontValid.items a mem_cons_self))
          hshown.1 hlayer.backValid

theorem treeSnoc_makes :
    Makes (ShowsTree level) (treeSnoc tree value) (treeElements tree ++ elemElements value) := by
  induction hspine : spine tree using Nat.strongRecOn generalizing level value tree with
  | ind depth ih =>
  cases treeShape h with
  | empty =>
      rw [treeSnoc]
      exact .ok hfits ⟨hvalue, rfl⟩
  | @single old hold =>
      have hmade := makeDeep_makes (digitValid_singleton hold)
        (show TreeValid (level + 1) (.empty : Tree α) from trivial) (digitValid_singleton hvalue)
      rw [digitElements_singleton, digitElements_singleton] at hmade
      rw [treeSnoc]
      exact hmade
  | @deep _ middle front back hlayer =>
      rw [treeSnoc_layer _ hlayer.layer, hlayer.elements_eq]
      rcases hlayer.backValid.cases with ⟨a, rfl⟩ | ⟨a, b, rfl⟩ | ⟨a, b, c, rfl⟩
      · have ha := hlayer.backValid.items a mem_cons_self
        have hmade := makeDeep_makes hlayer.frontValid hlayer.middleValid (digitValid_two ha hvalue)
        simp only [digitElements_cons, digitElements_nil, append_nil, append_assoc] at hmade ⊢
        exact hmade
      · have hback : DigitValid level [a, b, value] :=
          ⟨succ_pos _, le_refl _,
            items_append hlayer.backValid.items (digitValid_singleton hvalue).items⟩
        have hmade := makeDeep_makes hlayer.frontValid hlayer.middleValid hback
        simp only [digitElements_cons, digitElements_nil, append_nil, append_assoc] at hmade ⊢
        exact hmade
      · have hrest : ∀ child ∈ [a, b], ElemValid level child := by
          intro child hchild
          exact hlayer.backValid.items child (mem_append_left [c] hchild)
        have hlast := hlayer.backValid.items c (by simp)
        have hshape : digitElements front ++
            (treeElements middle ++ digitElements [a, b, c]) ++ elemElements value =
            digitElements front ++
              ((treeElements middle ++ digitElements [a, b]) ++ digitElements [c, value]) := by
          simp only [digitElements_cons, digitElements_nil, append_nil, append_assoc]
        rw [hshape]
        refine (makeNode_makes (.inl rfl) hrest).bind ?_ fun pushed hpushed hshown => ?_
        · simp only [length_append]
          omega
        obtain ⟨hvalid, helements⟩ := hshown
        have hinner := ih (spine middle) (hspine ▸ hlayer.spine_eq ▸ lt_succ_self _) hvalid
          (helements ▸ hpushed) hlayer.middleValid rfl
        rw [helements] at hinner
        refine hinner.bind ?_ fun inner _ hshown => ?_
        · simp only [length_append]
          omega
        rw [← hshown.2]
        exact makeDeep_makes hlayer.frontValid hshown.1 (digitValid_two hlast hvalue)

end

def Held (level : Nat) (elements : List (Elem α)) : Prop :=
  ∀ element ∈ elements, ElemValid level element ∧ Fits (elemElements element)

variable {elements : List (Elem α)}

theorem Held.tail {element : Elem α} (h : Held level (element :: elements)) : Held level elements :=
  fun other hother => h other (mem_cons_of_mem _ hother)

section

variable (h : Held level elements) (htree : TreeValid level tree) (hfits : Fits (treeElements tree))
include h htree hfits

theorem foldrM_treeCons_makes :
    Makes (ShowsTree level) (elements.foldrM treeCons tree)
      (digitElements elements ++ treeElements tree) := by
  induction elements with
  | nil => exact .ok hfits ⟨htree, rfl⟩
  | cons element elements ih =>
      obtain ⟨hvalid, helement⟩ := h element mem_cons_self
      rw [foldrM_cons, digitElements_cons, append_assoc]
      refine (ih h.tail).bind (suffix_append _ _).length_le fun made _ hshown => ?_
      rw [← hshown.2]
      exact treeCons_makes hvalid helement hshown.1

theorem foldlM_treeSnoc_makes :
    Makes (ShowsTree level) (elements.foldlM treeSnoc tree)
      (treeElements tree ++ digitElements elements) := by
  induction elements generalizing tree with
  | nil =>
      rw [digitElements_nil, append_nil]
      exact .ok hfits ⟨htree, rfl⟩
  | cons element elements ih =>
      obtain ⟨hvalid, helement⟩ := h element mem_cons_self
      rw [foldlM_cons, digitElements_cons, ← append_assoc]
      refine (treeSnoc_makes hvalid helement htree).bind (prefix_append _ _).length_le
        fun made hmade hshown => ?_
      rw [← hshown.2] at hmade ⊢
      exact ih h.tail hshown.1 hmade

end

/-! ## Views -/

inductive ViewedL (level : Nat) (tree : Tree α) : Outcome (Option (Elem α × Tree α)) → Prop where
  | empty (h : treeElements tree = []) : ViewedL level tree (.ok none)
  | first {element : Elem α} {rest : Tree α} (helement : ElemValid level element)
      (hrest : TreeValid level rest)
      (h : treeElements tree = elemElements element ++ treeElements rest) :
      ViewedL level tree (.ok (some (element, rest)))

inductive ViewedR (level : Nat) (tree : Tree α) : Outcome (Option (Tree α × Elem α)) → Prop where
  | empty (h : treeElements tree = []) : ViewedR level tree (.ok none)
  | last {element : Elem α} {rest : Tree α} (helement : ElemValid level element)
      (hrest : TreeValid level rest)
      (h : treeElements tree = treeElements rest ++ elemElements element) :
      ViewedR level tree (.ok (some (rest, element)))

theorem treeViewL_layer :
    Layer tree front middle back →
      treeViewL tree = match front with
        | [] => .ok none
        | headElement :: restPrefix => (do
            let rest ←
              if restPrefix.isEmpty then deepL [] middle back else makeDeep restPrefix middle back
            .ok (some (headElement, rest))) := by
  rintro ⟨⟩
  rewrite [treeViewL]
  generalize logicalPrefix _ = front
  cases front <;> rfl

theorem treeViewR_layer :
    Layer tree front middle back →
      treeViewR tree = match back with
        | [] => .ok none
        | suffix => (do
            let (initSuffix, lastElement) ← splitLast suffix
            let rest ←
              if initSuffix.isEmpty then deepR front middle [] else makeDeep front middle initSuffix
            .ok (some (rest, lastElement))) := by
  rintro ⟨⟩
  rewrite [treeViewR]
  generalize logicalSuffix _ = back
  cases back <;> rfl

theorem deepL_makes (hview : ViewedL (level + 1) middle (treeViewL middle))
    (hback : DigitValid level back) (hfits : Fits (treeElements middle ++ digitElements back)) :
    Makes (ShowsTree level) (deepL [] middle back) (treeElements middle ++ digitElements back) := by
  rw [deepL, if_neg (not_not.mpr isEmpty_nil)]
  generalize treeViewL middle = outcome at hview
  cases hview with
  | empty h =>
      rw [h, nil_append] at hfits ⊢
      exact fromDigit_makes hback.small hback.items hfits
  | first helement hrest h =>
      rw [h, append_assoc, ← digitElements_logicalChildren]
      exact makeDeep_makes (digitValid_children helement) hrest hback

theorem deepR_makes (hview : ViewedR (level + 1) middle (treeViewR middle))
    (hfront : DigitValid level front) (hfits : Fits (digitElements front ++ treeElements middle)) :
    Makes (ShowsTree level) (deepR front middle [])
      (digitElements front ++ treeElements middle) := by
  rw [deepR, if_neg (not_not.mpr isEmpty_nil)]
  generalize treeViewR middle = outcome at hview
  cases hview with
  | empty h =>
      rw [h, append_nil] at hfits ⊢
      exact fromDigit_makes hfront.small hfront.items hfits
  | last helement hrest h =>
      rw [h, ← digitElements_logicalChildren]
      exact makeDeep_makes hfront hrest (digitValid_children helement)

theorem DigitValid.tail {a b : Elem α} {rest : List (Elem α)}
    (h : DigitValid level (a :: b :: rest)) : DigitValid level (b :: rest) :=
  ⟨succ_pos _, le_of_succ_le h.small,
    fun element helement => h.items element (mem_cons_of_mem _ helement)⟩

theorem treeViewL_viewed (h : TreeValid level tree)
    (hfits : Fits (treeElements tree)) : ViewedL level tree (treeViewL tree) := by
  induction hspine : spine tree using Nat.strongRecOn generalizing level tree with
  | ind depth ih =>
  cases treeShape h with
  | empty =>
      rw [treeViewL]
      exact .empty rfl
  | single helement =>
      rw [treeViewL]
      exact .first helement trivial (append_nil _).symm
  | @deep _ middle front back hlayer =>
      have helements := hlayer.elements_eq
      cases front with
      | nil => exact absurd hlayer.frontValid.nonempty (not_succ_le_zero 0)
      | cons head rest =>
          have hhead := hlayer.frontValid.items head mem_cons_self
          rw [treeViewL_layer hlayer.layer]
          rw [digitElements_cons, append_assoc] at helements
          have hrestFits :
              Fits (digitElements rest ++ (treeElements middle ++ digitElements back)) :=
            fits_of_le (by rw [helements]; exact (suffix_append _ _).length_le) hfits
          cases rest with
          | nil =>
              rw [digitElements_nil, nil_append] at helements hrestFits
              have hmiddle := ih (spine middle) (hspine ▸ hlayer.spine_eq ▸ lt_succ_self _)
                hlayer.middleValid
                (fits_of_le (prefix_append _ _).length_le hrestFits) rfl
              obtain ⟨made, hmade, hvalid, hshown⟩ :=
                (deepL_makes hmiddle hlayer.backValid hrestFits).of_fits hrestFits
              dsimp only
              rw [if_pos isEmpty_nil, hmade]
              exact .first hhead hvalid (by rw [helements, hshown])
          | cons next others =>
              obtain ⟨made, hmade, hvalid, hshown⟩ := (makeDeep_makes hlayer.frontValid.tail
                hlayer.middleValid hlayer.backValid).of_fits hrestFits
              dsimp only
              rw [if_neg (by exact Bool.false_ne_true), hmade]
              exact .first hhead hvalid (by rw [helements, hshown])

theorem splitLast_append {β : Type} (front : List β) (value : β) :
    splitLast (front ++ [value]) = .ok (front, value) := by
  induction front with
  | nil => rfl
  | cons first front ih =>
      cases front with
      | nil => rfl
      | cons next front =>
          rw [cons_append, cons_append, splitLast, ← cons_append, ih]
          rfl

theorem treeViewR_viewed (h : TreeValid level tree)
    (hfits : Fits (treeElements tree)) : ViewedR level tree (treeViewR tree) := by
  induction hspine : spine tree using Nat.strongRecOn generalizing level tree with
  | ind depth ih =>
  cases treeShape h with
  | empty =>
      rw [treeViewR]
      exact .empty rfl
  | single helement =>
      rw [treeViewR]
      exact .last helement trivial rfl
  | @deep _ middle front back hlayer =>
      have helements := hlayer.elements_eq
      rcases eq_nil_or_concat' back with rfl | ⟨initSuffix, lastElement, rfl⟩
      · exact absurd hlayer.backValid.nonempty (not_succ_le_zero 0)
      have hlast := hlayer.backValid.items lastElement (by simp)
      have hview : treeViewR tree = (do
          let rest ←
            if initSuffix.isEmpty then deepR front middle [] else makeDeep front middle initSuffix
          .ok (some (rest, lastElement))) := by
        rw [treeViewR_layer hlayer.layer]
        have hsplit := splitLast_append initSuffix lastElement
        cases hback : initSuffix ++ [lastElement] with
        | nil => exact absurd hback (by simp)
        | cons first rest =>
            rw [hback] at hsplit
            dsimp only
            rw [hsplit]
            rfl
      rw [hview]
      rw [digitElements_append, digitElements_singleton, ← append_assoc,
        ← append_assoc, append_assoc (digitElements front)] at helements
      have hrestFits : Fits (digitElements front ++
          (treeElements middle ++ digitElements initSuffix)) :=
        fits_of_le (by rw [helements]; exact (prefix_append _ _).length_le) hfits
      cases initSuffix with
      | nil =>
          rw [digitElements_nil, append_nil] at helements hrestFits
          have hmiddle := ih (spine middle) (hspine ▸ hlayer.spine_eq ▸ lt_succ_self _)
            hlayer.middleValid (fits_of_le (suffix_append _ _).length_le hrestFits) rfl
          obtain ⟨made, hmade, hvalid, hshown⟩ :=
            (deepR_makes hmiddle hlayer.frontValid hrestFits).of_fits hrestFits
          rw [if_pos isEmpty_nil, hmade]
          exact .last hlast hvalid (by rw [helements, hshown])
      | cons next others =>
          have hinit : DigitValid level (next :: others) := by
            refine ⟨succ_pos _, ?_, fun element helement =>
              hlayer.backValid.items element (mem_append_left _ helement)⟩
            have hsmall := hlayer.backValid.small
            rw [length_append] at hsmall
            exact le_of_succ_le hsmall
          obtain ⟨made, hmade, hvalid, hshown⟩ := (makeDeep_makes hlayer.frontValid
            hlayer.middleValid hinit).of_fits hrestFits
          rw [if_neg (by exact Bool.false_ne_true), hmade]
          exact .last hlast hvalid (by rw [helements, hshown])

/-! ## Concatenation -/

/-- The nodes of a level above that hold the elements of a digit, unless one holds too many. -/
def Bridges (level : Nat) (outcome : Outcome (List (Elem α))) (values : List α) : Prop :=
  (∃ made, outcome = .ok made ∧ Held (level + 1) made ∧ digitElements made = values) ∨
    (¬ Fits values ∧ outcome = .error .lengthOverflow)

theorem bridge_nil (level : Nat) : Bridges level (.ok ([] : List (Elem α))) [] :=
  .inl ⟨[], rfl, forall_mem_nil _, rfl⟩

theorem bridge_cons {first second : List (Elem α)} {rest : Outcome (List (Elem α))}
    (hlength : first.length = 2 ∨ first.length = 3)
    (hfirst : ∀ element ∈ first, ElemValid level element)
    (hrest : Bridges level rest (digitElements second)) :
    Bridges level (do .ok ((← makeNode first) :: (← rest))) (digitElements (first ++ second)) := by
  rw [digitElements_append]
  rcases makeNode_makes hlength hfirst with ⟨hfits, made, hmade, hvalid, hshown⟩ | ⟨hnot, hmade⟩
  · rcases hrest with ⟨others, hothers, hheld, hothersShown⟩ | ⟨hnot, hothers⟩
    · refine .inl ⟨made :: others, ?_, ?_, ?_⟩
      · rw [hmade, hothers]
        rfl
      · exact forall_mem_cons.mpr ⟨⟨hvalid, hshown ▸ hfits⟩, hheld⟩
      · rw [digitElements_cons, hshown, hothersShown]
    · refine .inr ⟨fun hwhole => hnot (fits_of_le (suffix_append _ _).length_le hwhole), ?_⟩
      rw [hmade, hothers]
      rfl
  · refine .inr ⟨fun hwhole => hnot (fits_of_le (prefix_append _ _).length_le hwhole), ?_⟩
    rw [hmade]
    rfl

theorem bridge_one (hlength : elements.length = 2 ∨ elements.length = 3)
    (h : ∀ element ∈ elements, ElemValid level element) :
    Bridges level (do .ok [← makeNode elements]) (digitElements elements) := by
  have hone := @bridge_cons _ level elements [] _ hlength h (bridge_nil level)
  rw [append_nil] at hone
  exact hone

theorem bridge_two {first second : List (Elem α)} (hfirst : first.length = 2 ∨ first.length = 3)
    (hsecond : second.length = 2 ∨ second.length = 3)
    (h : ∀ element ∈ first ++ second, ElemValid level element) :
    Bridges level (do .ok [← makeNode first, ← makeNode second])
      (digitElements (first ++ second)) := by
  obtain ⟨hleft, hright⟩ := forall_mem_append.mp h
  have htwo := bridge_cons hfirst hleft (bridge_one hsecond hright)
  generalize makeNode first = one at htwo ⊢
  generalize makeNode second = two at htwo ⊢
  cases one <;> cases two <;> exact htwo

theorem nodes_bridges (hlength : 2 ≤ elements.length)
    (h : ∀ element ∈ elements, ElemValid level element) :
    Bridges level (nodes elements) (digitElements elements) := by
  induction elements using nodes.induct with
  | case1 a b => exact bridge_one (.inl rfl) h
  | case2 a b c => exact bridge_one (.inr rfl) h
  | case3 a b c d => exact @bridge_two _ level [a, b] [c, d] (.inl rfl) (.inl rfl) h
  | case4 a b c d e => exact @bridge_two _ level [a, b] [c, d, e] (.inl rfl) (.inr rfl) h
  | case5 a b c d e f => exact @bridge_two _ level [a, b, c] [d, e, f] (.inr rfl) (.inr rfl) h
  | case6 a b c rest h3 h4 h5 h6 ih =>
      have hitems := forall_mem_append.mp (show ∀ element ∈ [a, b, c] ++ rest, _ from h)
      have hrest : 2 ≤ rest.length := by
        rcases rest with _ | ⟨d, _ | ⟨e, rest⟩⟩
        · exact absurd rfl h3
        · exact absurd rfl (h4 d)
        · exact le_add_left _ _
      rw [nodes]
      · exact bridge_cons (.inr rfl) hitems.1 (ih hrest hitems.2)
      all_goals assumption
  | case7 elements h2 h3 h4 h5 h6 h7 =>
      rcases elements with _ | ⟨a, _ | ⟨b, _ | ⟨c, rest⟩⟩⟩
      · exact absurd hlength (not_succ_le_zero 1)
      · exact absurd hlength (not_succ_le_self 1)
      · exact absurd rfl (h2 a b)
      · exact absurd rfl (h7 a b c rest)

theorem glue_layer (elements : List (Elem α)) {left right leftMiddle rightMiddle : Tree α}
    {leftFront leftBack rightFront rightBack : List (Elem α)} :
    Layer left leftFront leftMiddle leftBack → Layer right rightFront rightMiddle rightBack →
      glue left elements right = (do
        let bridge ← nodes (leftBack ++ elements ++ rightFront)
        let inner ← glue leftMiddle bridge rightMiddle
        makeDeep leftFront inner rightBack) := by
  rintro ⟨⟩ ⟨⟩
  rw [glue]

theorem glue_makes {left right : Tree α} (hleft : TreeValid level left)
    (hleftFits : Fits (treeElements left)) (helements : Held level elements)
    (hright : TreeValid level right) (hrightFits : Fits (treeElements right)) :
    Makes (ShowsTree level) (glue left elements right)
      (treeElements left ++ (digitElements elements ++ treeElements right)) := by
  induction hspine : spine left using Nat.strongRecOn generalizing level left right elements with
  | ind depth ih =>
  cases treeShape hleft with
  | empty =>
      rw [glue]
      exact foldrM_treeCons_makes helements hright hrightFits
  | @single element hvalid =>
      cases treeShape hright with
      | empty =>
          rw [glue, treeElements, append_nil]
          · exact foldlM_treeSnoc_makes helements hleft hleftFits
          · simp
      | single hother =>
          rw [glue]
          · refine (foldrM_treeCons_makes helements hright hrightFits).bind
              (suffix_append _ _).length_le fun made _ hshown => ?_
            rw [← hshown.2]
            exact treeCons_makes hvalid hleftFits hshown.1
          · simp
      | deep hlayer =>
          obtain ⟨⟩ := hlayer.layer
          rw [glue]
          · refine (foldrM_treeCons_makes helements hright hrightFits).bind
              (suffix_append _ _).length_le fun made _ hshown => ?_
            rw [← hshown.2]
            exact treeCons_makes hvalid hleftFits hshown.1
          · simp
  | @deep _ leftMiddle leftFront leftBack hlayer =>
      cases treeShape hright with
      | empty =>
          obtain ⟨⟩ := hlayer.layer
          rw [glue, show treeElements (.empty : Tree α) = [] from rfl, append_nil]
          · exact foldlM_treeSnoc_makes helements hleft hleftFits
          · simp
      | @single element hvalid =>
          obtain ⟨⟩ := hlayer.layer
          rw [glue, ← append_assoc]
          · refine (foldlM_treeSnoc_makes helements hleft hleftFits).bind
              (prefix_append _ _).length_le fun made _ hshown => ?_
            rw [← hshown.2]
            exact treeSnoc_makes hvalid hrightFits hshown.1
          · simp
          · simp
      | @deep _ rightMiddle rightFront rightBack hother =>
          have hcombined : ∀ element ∈ leftBack ++ elements ++ rightFront,
              ElemValid level element :=
            items_append (items_append hlayer.backValid.items fun element helement =>
              (helements element helement).1) hother.frontValid.items
          have hlength : 2 ≤ (leftBack ++ elements ++ rightFront).length := by
            have hone := hlayer.backValid.nonempty
            have htwo := hother.frontValid.nonempty
            rw [length_append, length_append]
            omega
          have hleftMiddle : Fits (treeElements leftMiddle) := fits_of_le
            (by rw [hlayer.elements_eq, length_append, length_append]; omega) hleftFits
          have hrightMiddle : Fits (treeElements rightMiddle) := fits_of_le
            (by rw [hother.elements_eq, length_append, length_append]; omega) hrightFits
          have hwhole : treeElements left ++ (digitElements elements ++ treeElements right) =
              digitElements leftFront ++ ((treeElements leftMiddle ++
                (digitElements (leftBack ++ elements ++ rightFront) ++
                  treeElements rightMiddle)) ++ digitElements rightBack) := by
            rw [hlayer.elements_eq, hother.elements_eq, digitElements_append, digitElements_append]
            simp only [append_assoc]
          rw [glue_layer elements hlayer.layer hother.layer, hwhole]
          rcases nodes_bridges hlength hcombined with ⟨bridge, hbridge, hheld, hshown⟩ |
            ⟨hnot, hbridge⟩
          · rw [hbridge, except_ok_bind, ← hshown]
            have hinner := ih (spine leftMiddle)
              (hspine ▸ hlayer.spine_eq ▸ lt_succ_self _) hlayer.middleValid hleftMiddle hheld
              hother.middleValid hrightMiddle rfl
            refine hinner.bind ?_ fun inner _ hinnerShown => ?_
            · simp only [length_append]
              omega
            · rw [← hinnerShown.2]
              exact makeDeep_makes hlayer.frontValid hinnerShown.1 hother.backValid
          · rw [hbridge]
            refine .inr ⟨fun hfits => hnot (fits_of_le ?_ hfits), rfl⟩
            simp only [length_append]
            omega

end Durable7.FingerTree.ReversibleDeque
