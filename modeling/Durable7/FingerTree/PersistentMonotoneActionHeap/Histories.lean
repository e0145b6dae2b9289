import Durable7.FingerTree.BrodalOkasakiHeap.Histories
import Durable7.FingerTree.PersistentMonotoneActionHeap.Heaps

/-!
# Audits of action-tagged heaps

The audit accepts every heap that shows a multiset and counts its entries.
-/

namespace Durable7.FingerTree.PersistentMonotoneActionHeap

open Foundation Foundation.BoundedQueues

section

open List
open RrbVector (maxBound)

variable {element priority action : Type} {policy : MonotoneActionPolicy priority action}
  {admissible : action → Prop}

mutual

theorem size_erasedTree (above : priority → priority) :
    ∀ tree : Tree element priority action, (erasedTree policy above tree).size = treeSize tree
  | .tree treeRank treeElement treePriority treeChildren treeAction => by
      rw [erasedTree, BrodalOkasakiHeap.size_tree, treeSize,
        sizes_erasedForest (above ∘ policy.actionApply treeAction) treeChildren]

theorem sizes_erasedForest (above : priority → priority) :
    ∀ forest : Forest element priority action,
      ((erasedForest policy above forest).map BrodalOkasakiHeap.Tree.size).sum = forestSize forest
  | .nil => rfl
  | .cons forestAction rawHead rawTail => by
      rw [erasedForest, map_cons, sum_cons, forestSize, size_erasedTree (above ∘ policy.actionApply
        forestAction) rawHead, sizes_erasedForest (above ∘ policy.actionApply forestAction) rawTail]

end

section Lawful

variable [lawful : LawfulPolicy policy admissible]

theorem fusedChildren_simulates (rank : Nat) {forest : Forest element priority action}
    (hforest : ForestAdmitted admissible forest)
    {plain : List (BrodalOkasakiHeap.Tree (MonotoneHeapEntry element priority))}
    (hplain : BrodalOkasakiHeap.fusedChildren rank (eraseForest policy forest) = some plain) :
    ∃ embedded, fusedChildren policy rank forest = .ok embedded ∧
      ForestAdmitted admissible embedded ∧ eraseForest policy embedded = plain := by
  induction rank generalizing forest with
  | zero =>
      cases hplain
      exact ⟨_, rfl, hforest, rfl⟩
  | succ rank ih =>
      rw [fusedChildren]
      split
      · next hview =>
        rw [forestView_none hview] at hplain
        cases hplain
      next first tail hview =>
      obtain ⟨hfirst, htail, herased⟩ := forestView_some hforest hview
      rw [herased] at hplain
      obtain htailView | ⟨⟨second, rest⟩, htailView⟩ :=
        (forestView policy tail).eq_none_or_eq_some
      · rw [forestView_none htailView] at hplain
        rw [htailView]
        cases rank with
        | zero =>
            rw [BrodalOkasakiHeap.fusedChildren.eq_def] at hplain
            dsimp only at hplain
            rw [erase_rank] at hplain
            split at hplain
            · cases hplain
            · next hzero =>
              cases hplain
              rw [if_pos rfl, if_neg hzero]
              exact ⟨_, rfl, trivial, rfl⟩
        | succ rank => cases hplain
      obtain ⟨hsecond, hrest, htailErased⟩ := forestView_some htail htailView
      rw [htailErased] at hplain
      rw [htailView]
      dsimp only
      cases rank with
      | zero =>
          rw [BrodalOkasakiHeap.fusedChildren.eq_def] at hplain
          dsimp only at hplain
          rw [erase_rank, erase_rank] at hplain
          rw [if_pos rfl]
          split at hplain
          · cases hplain
          next hzero =>
          rw [if_neg hzero]
          split at hplain
          · next hsecondZero =>
            cases hplain
            rw [if_pos hsecondZero]
            exact ⟨_, rfl, hrest, rfl⟩
          · next hsecondRanked =>
            cases hplain
            rw [if_neg hsecondRanked]
            exact ⟨_, rfl, htail, htailErased⟩
      | succ rank =>
          rw [BrodalOkasakiHeap.fusedChildren, erase_rank, erase_rank] at hplain
          rw [if_neg (by omega)]
          by_cases hsame : first.treeRank = second.treeRank
          · rw [if_pos hsame] at hplain ⊢
            split at hplain
            · next hranked =>
              cases hplain
              rw [if_neg (not_not_intro hranked)]
              exact ⟨_, rfl, hrest, rfl⟩
            · cases hplain
          rw [if_neg hsame] at hplain ⊢
          by_cases hzero : first.treeRank = 0
          · rw [if_pos hzero] at hplain ⊢
            split at hplain
            · next hranked =>
              rw [if_neg (not_not_intro hranked)]
              exact ih hrest hplain
            · cases hplain
          · rw [if_neg hzero] at hplain ⊢
            split at hplain
            · next hranked =>
              rw [if_neg (not_not_intro hranked)]
              apply ih htail
              rw [htailErased]
              exact hplain
            · cases hplain

theorem skewForestLength_simulates {lengthValue total : Nat} {previousRank : Int} {duplicate : Bool}
    {forest : Forest element priority action} (hforest : ForestAdmitted admissible forest)
    (hplain : BrodalOkasakiHeap.skewForestLength lengthValue previousRank duplicate
      (eraseForest policy forest) = some total) :
    skewForestLength policy lengthValue previousRank duplicate forest = .ok total := by
  induction hlength : forest.length using Nat.strongRecOn
    generalizing forest lengthValue previousRank duplicate with
  | ind length ih =>
      rw [skewForestLength.eq_def]
      cases forest with
      | nil =>
          cases hplain
          rfl
      | cons pending rawHead rawTail =>
          have hview : forestView policy (.cons pending rawHead rawTail) = some (_, _) := rfl
          have hshorter := length_of_view policy hview
          obtain ⟨-, htail, herased⟩ := forestView_some hforest hview
          rw [herased, BrodalOkasakiHeap.skewForestLength, erase_rank, tagTree_rank] at hplain
          dsimp only
          split at hplain
          · cases hplain
          next hdecreasing =>
          split at hplain
          · cases hplain
          next hequal =>
          rw [if_neg hdecreasing, if_neg hequal]
          exact ih _ (by omega) htail hplain rfl

theorem validateChildren_ok {parent : Tree element priority action}
    {forest : Forest element priority action} (hforest : ForestAdmitted admissible forest)
    (horder : ∀ child ∈ eraseForest policy forest,
      entryLe policy (erase policy parent).value child.value = true) (observed : Nat) :
    ∃ finalObserved, validateChildren policy parent forest observed =
      .ok (forestToList policy forest, finalObserved) := by
  induction hlength : forest.length using Nat.strongRecOn generalizing forest observed with
  | ind length ih =>
      rw [validateChildren.eq_def, forestToList.eq_def]
      cases forest with
      | nil => exact ⟨observed, rfl⟩
      | cons pending rawHead rawTail =>
          have hview : forestView policy (.cons pending rawHead rawTail) = some (_, _) := rfl
          have hshorter := length_of_view policy hview
          obtain ⟨-, htail, herased⟩ := forestView_some hforest hview
          rw [herased] at horder
          obtain ⟨hle, htailOrder⟩ := forall_mem_cons.mp horder
          rw [← lessOrEqual_eq] at hle
          obtain ⟨finalObserved, hok⟩ :=
            ih _ (by omega) htail htailOrder (observe policy pending observed) rfl
          dsimp only [forestView]
          rw [hle, Bool.not_true, if_neg Bool.false_ne_true, hok]
          exact ⟨finalObserved, rfl⟩

theorem validateTree_ok {tagged : Tree element priority action}
    (htagged : TreeAdmitted admissible tagged)
    (hsound : BrodalOkasakiHeap.Sound (entryLe policy) (erase policy tagged)) (observed : Nat) :
    ∃ finalObserved, validateTree policy (expose policy tagged) observed =
      .ok (forestToList policy (expose policy tagged).treeChildren, finalObserved) := by
  have hchildren := @exposed_children _ _ _ policy _ _ _ htagged
  have hvalue : (erase policy (expose policy tagged)).value = (erase policy tagged).value := by
    rw [erase_value_exposed htagged, erase_value, entryOf, logicalPriority, expose]
    split
    · next hidentity => rw [lawful.apply_identity hidentity]
    · exact congrArg _ (lawful.apply_identity lawful.isIdentity_identity _)
  obtain ⟨embedded, hfused, hembedded⟩ := hsound.fused
  obtain ⟨forest, hforest, hskew⟩ := BrodalOkasakiHeap.fusedChildren_spec hfused hembedded
  rw [erase_rank, erase_children htagged] at hforest
  obtain ⟨made, hmade, hmadeAdmitted, hmadeErased⟩ := fusedChildren_simulates _ hchildren hforest
  have hlength := BrodalOkasakiHeap.validateSkewForest_spec hskew
  rw [← hmadeErased] at hlength
  have horder := hsound.order
  rw [erase_children htagged, ← hvalue] at horder
  obtain ⟨finalObserved, hok⟩ := @validateChildren_ok _ _ _ policy _ _ (expose policy tagged) _
    hchildren horder observed
  refine ⟨finalObserved, ?_⟩
  rw [validateTree, validateFusedChildren, expose_rank, hmade, except_ok_bind, validateSkewForest,
    skewForestLength_simulates hmadeAdmitted hlength, except_ok_bind, hok]

theorem validateTrees_spec (pending : List (Tree element priority action × Nat)) (audit : Audit)
    (hadmitted : ∀ entry ∈ pending, TreeAdmitted admissible entry.1) (hsound : ∀ entry ∈ pending,
      BrodalOkasakiHeap.Sound (entryLe policy) (erase policy entry.1))
    (hcount : audit.auditCount + (pending.map fun entry => treeSize entry.1).sum ≤ maxBound)
    (hdepth : ∀ entry ∈ pending, entry.2 + treeSize entry.1 ≤ maxBound + 1) :
    ∃ final, validateTrees policy pending audit = .ok (.ok final) ∧
      final.auditCount = audit.auditCount + (pending.map fun entry => treeSize entry.1).sum := by
  induction hsize : (pending.map fun entry => treeSize entry.1).sum using Nat.strongRecOn
    generalizing pending audit with
  | ind total ih =>
      rw [validateTrees.eq_def]
      split
      · subst hsize
        exact ⟨audit, rfl, rfl⟩
      · next tagged depth pending =>
        rw [map_cons, sum_cons, treeSize_eq] at hsize hcount
        obtain ⟨htagged, hadmitted⟩ := forall_mem_cons.mp hadmitted
        obtain ⟨htree, hpending⟩ := forall_mem_cons.mp hsound
        obtain ⟨hroot, hdepths⟩ := forall_mem_cons.mp hdepth
        rw [treeSize_eq] at hroot
        dsimp only at hsize hcount htagged htree hroot
        obtain ⟨taggedAfter, hok⟩ := validateTree_ok htagged htree
          (observe policy tagged.treeAction audit.auditTaggedComponents)
        obtain ⟨hlist, hlistAdmitted⟩ :=
          @forestToList_spec _ _ _ policy _ _ _ (@exposed_children _ _ _ policy _ _ _ htagged)
        have hchildrenSize := sizes_forestToList policy (expose policy tagged).treeChildren
        rw [forestSize_expose] at hchildrenSize
        have hchildSound : ∀ child ∈ forestToList policy (expose policy tagged).treeChildren,
            BrodalOkasakiHeap.Sound (entryLe policy) (erase policy child) := by
          intro child hchild
          apply htree.children
          rw [erase_children htagged, ← hlist]
          exact mem_map_of_mem hchild
        dsimp only
        split
        · next problem hproblem =>
          rw [hok] at hproblem
          cases hproblem
        next children after hchildren =>
        rw [hok] at hchildren
        cases hchildren
        generalize forestToList policy (expose policy tagged).treeChildren = children
          at hlistAdmitted hchildrenSize hchildSound ⊢
        have hchildSize : ∀ child ∈ children, treeSize child ≤ forestSize tagged.treeChildren := by
          intro child hchild
          rw [← hchildrenSize]
          exact le_sum_of_mem (mem_map_of_mem hchild)
        have hnonempty : children ≠ [] → depth + 1 ≤ maxBound := by
          intro hne
          obtain ⟨child, hchild⟩ := exists_mem_of_ne_nil children hne
          have hlarge := hchildSize child hchild
          have hpos := treeSize_eq child
          omega
        obtain ⟨below, hbelow, hbelowEq⟩ := depthBelow_ok hnonempty
        have hadd : checkedAdd audit.auditCount 1 = .ok (audit.auditCount + 1) :=
          checkedSum_ok (by omega)
        rw [hbelow, except_ok_bind, hadd, except_ok_bind]
        have hsizes : ((atDepth below children ++ pending).map fun entry =>
            treeSize entry.1).sum =
            forestSize tagged.treeChildren + (pending.map fun entry => treeSize entry.1).sum := by
          rw [map_append, sum_append, sizes_atDepth, hchildrenSize]
        obtain ⟨final, hfinal, hfinalCount⟩ := ih _ (by omega) (atDepth below children ++ pending)
          ⟨audit.auditCount + 1, max audit.auditMaximumRank (expose policy tagged).treeRank,
            max audit.auditMaximumDepth depth, taggedAfter⟩
          (by
            intro entry hentry
            rcases mem_append.mp hentry with hentry | hentry
            · obtain ⟨child, hchild, rfl⟩ := mem_map.mp hentry
              exact hlistAdmitted child hchild
            · exact hadmitted entry hentry)
          (by
            intro entry hentry
            rcases mem_append.mp hentry with hentry | hentry
            · obtain ⟨child, hchild, rfl⟩ := mem_map.mp hentry
              exact hchildSound child hchild
            · exact hpending entry hentry)
          (by dsimp only; omega)
          (by
            intro entry hentry
            rcases mem_append.mp hentry with hentry | hentry
            · obtain ⟨child, hchild, rfl⟩ := mem_map.mp hentry
              have hlarge := hchildSize child hchild
              rw [hbelowEq (ne_nil_of_mem hchild)]
              dsimp only
              omega
            · exact hdepths entry hentry)
          rfl
        refine ⟨final, hfinal, ?_⟩
        dsimp only at hfinalCount
        omega

theorem validateStructure_spec {heap : PersistentMonotoneActionHeap element policy}
    {values : Multiset (MonotoneHeapEntry element priority)} (h : Shows admissible heap values) :
    ∃ statistics, validateStructure heap = .ok (.ok statistics) ∧
      statistics.monotoneStatisticsCount = values.card := by
  have hbounded := h.bounded
  have hcounted := h.counted
  rw [validateStructure]
  cases hroot : heap.root with
  | none =>
      have hempty := h.card_of_none hroot
      dsimp only
      rw [if_neg (not_not_intro (hcounted.trans hempty))]
      exact ⟨_, rfl, hempty.symm⟩
  | some root =>
      have hadmitted := h.admitted root hroot
      have hplainRoot : (eraseHeap heap).root = some (erase policy root) := by
        rw [eraseHeap, hroot]
        rfl
      obtain ⟨hsound, hrank⟩ := h.represents.sound _ hplainRoot
      have hskew := hsound.skewForest hrank
      rw [erase_children hadmitted] at hskew
      have hforest := skewForestLength_simulates
        (@exposed_children _ _ _ policy _ _ _ hadmitted)
        (BrodalOkasakiHeap.validateSkewForest_spec hskew)
      rw [erase_rank] at hrank
      have hsize : treeSize root = values.card := by
        have hbag := h.represents.bag_eq
        rw [BrodalOkasakiHeap.bag, hplainRoot] at hbag
        rw [← hbag, ← size_erasedTree id root]
        exact (BrodalOkasakiHeap.card_bag (erase policy root)).symm
      obtain ⟨final, hok, hfinal⟩ := @validateTrees_spec _ _ _ policy _ _ [(root, 1)] ⟨0, 0, 0, 0⟩
        (forall_mem_singleton.mpr hadmitted) (forall_mem_singleton.mpr hsound)
        (by rw [map_singleton, sum_singleton]; dsimp only; omega)
        (forall_mem_singleton.mpr (by dsimp only; omega))
      rw [map_singleton, sum_singleton] at hfinal
      dsimp only at hfinal ⊢
      rw [if_neg (not_not_intro hrank), validateSkewForest, hforest]
      dsimp only
      rw [hok, except_ok_bind]
      refine ⟨_, congrArg Except.ok (if_neg (not_not_intro ?_)), hcounted⟩
      omega

end Lawful

end

/-!
## Histories of action-tagged heaps

Every version of every history of edits shows a multiset of the specification, in which a
transformation maps the entries that are present and no others.  The specification leaves
open which of the least entries a removal takes.
-/

open Multiset
open RrbVector (maxBound)

variable {element priority action : Type}

/-! ### Edits -/

/-- One edit.  Versions are numbered in the order they were made. -/
inductive Edit (element priority action : Type) where
  | emptyWith
  | fromListWith (pairs : List (element × priority))
  | insert (elementValue : element) (priorityValue : priority) (version : Nat)
  | transformAll (pending : action) (version : Nat)
  | meld (left right : Nat)
  | minView (version : Nat)

variable (policy : MonotoneActionPolicy priority action) {admissible : action → Prop}

def produce (versions : List (PersistentMonotoneActionHeap element policy)) :
    Edit element priority { pending : action // admissible pending } →
      Except HeapError (List (PersistentMonotoneActionHeap element policy))
  | .emptyWith => .ok [emptyWith policy]
  | .fromListWith pairs => (fromListWith policy pairs).map fun made => [made]
  | .insert elementValue priorityValue version => onVersion versions version fun heap =>
      (insert elementValue priorityValue heap).map fun made => [made]
  | .transformAll pending version => onVersion versions version fun heap =>
      .ok [transformAll pending.val heap]
  | .meld left right => onVersion versions left fun leftHeap =>
      onVersion versions right fun rightHeap => (meld leftHeap rightHeap).map fun made => [made]
  | .minView version => onVersion versions version fun heap =>
      (minView heap).map fun view => (view.map Prod.snd).toList

def Specified (models : List (Multiset (MonotoneHeapEntry element priority)))
    (edit : Edit element priority { pending : action // admissible pending })
    (outcome : Except HeapError (List (Multiset (MonotoneHeapEntry element priority)))) : Prop :=
  match edit with
  | .emptyWith => outcome = .ok [0]
  | .fromListWith pairs => outcome =
      (bounded HeapError.countOverflow maxBound
        (pairs.map fun pair => (⟨pair.1, pair.2⟩ : MonotoneHeapEntry element priority))).map
        fun made => [made]
  | .insert elementValue priorityValue version => outcome = onVersion models version fun values =>
      (bounded HeapError.countOverflow maxBound (⟨elementValue, priorityValue⟩ ::ₘ values)).map
        fun made => [made]
  | .transformAll pending version => outcome = onVersion models version fun values =>
      .ok [values.map (onPriority (policy.actionApply pending.val))]
  | .meld left right => outcome = onVersion models left fun leftValues =>
      onVersion models right fun rightValues =>
        (bounded HeapError.countOverflow maxBound (leftValues + rightValues)).map fun made => [made]
  | .minView version => models[version]?.elim (outcome = .ok []) fun values =>
      Removes (entryLe policy) values outcome

variable {policy}

section Lawful

variable [lawful : LawfulPolicy policy admissible] [ordered : Std.TransCmp policy.priorityCompare]
  {heap : PersistentMonotoneActionHeap element policy}
  {values : Multiset (MonotoneHeapEntry element priority)}

theorem produce_specified (versions : List (PersistentMonotoneActionHeap element policy))
    (models : List (Multiset (MonotoneHeapEntry element priority)))
    (edit : Edit element priority { pending : action // admissible pending })
    (h : List.Forall₂ (Shows admissible) versions models) :
    ∃ outcome, Specified policy models edit outcome ∧
      Agrees (List.Forall₂ (Shows admissible)) (produce policy versions edit) outcome := by
  cases edit with
  | emptyWith => exact ⟨_, rfl, .ok (.cons shows_empty .nil)⟩
  | fromListWith pairs => exact ⟨_, rfl, single_agrees (fromListWith_agrees pairs)⟩
  | insert elementValue priorityValue version =>
      exact ⟨_, rfl, onVersion_agrees h version fun _ _ hpicked =>
        single_agrees (insert_agrees hpicked elementValue priorityValue)⟩
  | transformAll pending version =>
      exact ⟨_, rfl, onVersion_agrees h version fun _ _ hpicked =>
        .ok (.cons (transformAll_shows pending.property hpicked) .nil)⟩
  | meld left right =>
      exact ⟨_, rfl, onVersion_agrees h left fun _ _ hleft =>
        onVersion_agrees h right fun _ _ hright => single_agrees (meld_agrees hleft hright)⟩
  | minView version => exact removes_agrees exists_view h version

/-- What a version shows of its multiset. -/
structure Observes (admissible : action → Prop) (heap : PersistentMonotoneActionHeap element policy)
    (values : Multiset (MonotoneHeapEntry element priority)) : Prop where
  counted : count heap = values.card
  empty : null heap = true ↔ values = 0
  contents : (toList heap : Multiset (MonotoneHeapEntry element priority)) = values
  valid : ∃ statistics, validateStructure heap = .ok (.ok statistics) ∧
    statistics.monotoneStatisticsCount = values.card
  view : ∃ view, minView heap = .ok view ∧ minimum heap = view.map Prod.fst ∧
    Views (entryLe policy) (Shows admissible) values view
  drained : ∃ drained, drain minView (count heap + 1) heap = .ok (some drained) ∧
    (drained : Multiset (MonotoneHeapEntry element priority)) = values ∧
    drained.Pairwise fun earlier later => entryLe policy earlier later = true

theorem observes_of_shows (h : Shows admissible heap values) : Observes admissible heap values where
  counted := h.counted
  empty := by
    rw [null, Option.isNone_iff_eq_none]
    constructor
    · intro hnone
      exact card_eq_zero.mp (h.card_of_none hnone)
    · intro hvalues
      cases hroot : heap.root with
      | none => rfl
      | some root =>
          have hbag := h.represents.bag_eq
          rw [BrodalOkasakiHeap.bag, eraseHeap, hroot, hvalues] at hbag
          have hcard := BrodalOkasakiHeap.card_bag (erase policy root)
          have hpos := BrodalOkasakiHeap.size_pos (erase policy root)
          rw [show (erase policy root).bag = 0 from hbag, card_zero] at hcard
          omega
  contents := toList_coe h
  valid := validateStructure_spec h
  view := by
    obtain ⟨view, hok, hviews, hminimum⟩ := minView_views h
    exact ⟨view, hok, hminimum, hviews⟩
  drained := drain_spec exists_view _ h (by rw [count, h.counted]; omega)

theorem grow_shows
    (edits : List (Edit element priority { pending : action // admissible pending })) :
    ∃ models, Grows (Specified policy) [] edits models ∧
      List.Forall₂ (Observes admissible) (grow (produce policy) [] edits) models ∧
      ∀ edit : Edit element priority { pending : action // admissible pending },
        ∃ outcome, Specified policy models edit outcome ∧
        Agrees (List.Forall₂ (Observes admissible))
          (produce policy (grow (produce policy) [] edits) edit) outcome := by
  obtain ⟨models, hgrows, hversions⟩ :=
    grow_simulates (@produce_specified _ _ _ policy admissible _ _) .nil edits
  refine ⟨models, hgrows, hversions.imp fun _ _ => observes_of_shows, fun edit => ?_⟩
  obtain ⟨outcome, hspecified, hagrees⟩ := produce_specified _ _ edit hversions
  exact ⟨outcome, hspecified, hagrees.imp fun _ _ hadded => hadded.imp fun _ _ => observes_of_shows⟩

end Lawful

/-- Histories under the closed clamps of any total preorder. -/
theorem grow_observes_clamps (compareValues : priority → priority → Ordering)
    [Std.TransCmp compareValues] (edits : List (Edit element priority
      { clamp : OrderClamp priority // ClosedClamp compareValues clamp })) :
    ∃ models, Grows (Specified (orderClampPolicy compareValues)) [] edits models ∧
      List.Forall₂ (Observes (ClosedClamp compareValues))
        (grow (produce (orderClampPolicy compareValues)) [] edits) models ∧
      ∀ edit : Edit element priority
        { clamp : OrderClamp priority // ClosedClamp compareValues clamp },
        ∃ outcome, Specified (orderClampPolicy compareValues) models edit outcome ∧
        Agrees (List.Forall₂ (Observes (ClosedClamp compareValues)))
          (produce (orderClampPolicy compareValues)
            (grow (produce (orderClampPolicy compareValues)) [] edits) edit) outcome :=
  grow_shows edits

/-- Numbers in order of their tens. -/
def compareTens (left right : Nat) : Ordering := compare (left / 10) (right / 10)

instance : Std.TransCmp compareTens where
  eq_swap {left right} := @Std.OrientedCmp.eq_swap Nat compare _ (left / 10) (right / 10)
  isLE_trans {first second third} :=
    @Std.TransCmp.isLE_trans Nat compare _ (first / 10) (second / 10) (third / 10)

def floorTwenty : { clamp : OrderClamp Nat // ClosedClamp compareTens clamp } :=
  ⟨clampAtLeast 20, closed_atLeast 20⟩

def capForty : { clamp : OrderClamp Nat // ClosedClamp compareTens clamp } :=
  ⟨clampAtMost 40, closed_atMost 40⟩

theorem grow_shows_tens :
    ∃ models, Grows (Specified (orderClampPolicy compareTens)) []
        [.fromListWith [(1, 31), (2, 12), (3, 55), (4, 18)], .transformAll floorTwenty 0,
          .insert 5 7 1, .transformAll capForty 2, .meld 3 0, .minView 4] models ∧
      List.Forall₂ (Observes (ClosedClamp compareTens))
        (grow (produce (orderClampPolicy compareTens)) []
          [.fromListWith [(1, 31), (2, 12), (3, 55), (4, 18)], .transformAll floorTwenty 0,
            .insert 5 7 1, .transformAll capForty 2, .meld 3 0, .minView 4]) models := by
  obtain ⟨models, hgrows, hversions, -⟩ := @grow_observes_clamps Nat Nat compareTens _
    [.fromListWith [(1, 31), (2, 12), (3, 55), (4, 18)], .transformAll floorTwenty 0,
      .insert 5 7 1, .transformAll capForty 2, .meld 3 0, .minView 4]
  exact ⟨models, hgrows, hversions⟩

end Durable7.FingerTree.PersistentMonotoneActionHeap
