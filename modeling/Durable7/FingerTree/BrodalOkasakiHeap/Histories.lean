import Durable7.FingerTree.BrodalOkasakiHeap.Heaps
import Mathlib.Algebra.Order.BigOperators.Group.List
import Mathlib.Algebra.Order.Group.Nat

/-!
# Validation of heaps

Validation accepts every heap that represents a multiset and counts its elements.
-/

namespace Durable7.FingerTree.BrodalOkasakiHeap

open Foundation Foundation.BoundedQueues

section

open List
open RrbVector (maxBound)

variable {α : Type} {le : α → α → Bool}

theorem fusedChildren_spec {rank : Nat} {children embedded : List (Tree α)}
    (hfused : Fused rank children embedded) (hembedded : SkewForest embedded) :
    ∃ forest, fusedChildren rank children = some forest ∧ SkewForest forest := by
  induction hfused with
  | zero forest => exact ⟨forest, rfl, hembedded⟩
  | @link rank loser children embedded hloser hfused ih =>
      cases rank with
      | zero =>
          obtain rfl := hfused.embedded_of_zero
          rw [fusedChildren.eq_def]
          dsimp only
          rw [if_neg (not_not_intro hloser)]
          cases children with
          | nil => exact ⟨[], rfl, hembedded⟩
          | cons second remaining =>
              dsimp only
              split
              · exact ⟨remaining, rfl, hembedded.tail⟩
              · exact ⟨second :: remaining, rfl, hembedded⟩
      | succ rank =>
          obtain ⟨second, rest, rfl, hsecond⟩ := hfused.ranked
          rw [fusedChildren, if_neg (by omega), if_neg (by omega), if_pos hloser]
          exact ih hembedded
  | @skewZero rank zero loser children embedded hzero hloser hfused ih =>
      cases rank with
      | zero =>
          obtain rfl := hfused.embedded_of_zero
          rw [fusedChildren.eq_def]
          dsimp only
          rw [if_neg (not_not_intro hzero)]
          exact ⟨children, if_pos hloser, hembedded⟩
      | succ rank =>
          rw [fusedChildren, if_neg (by omega), if_pos hzero, if_pos hloser]
          exact ih hembedded
  | @skewPair rank first second embedded hfirst hsecond =>
      cases rank with
      | zero =>
          rw [fusedChildren.eq_def]
          dsimp only
          rw [if_neg (not_not_intro hfirst)]
          exact ⟨embedded, if_pos hsecond, hembedded⟩
      | succ rank =>
          rw [fusedChildren, if_pos (hfirst.trans hsecond.symm), if_pos hfirst]
          exact ⟨embedded, rfl, hembedded⟩

theorem skewForestLength_ascending {forest : List (Tree α)} (h : Ascending forest)
    (lengthValue : Nat) {previousRank : Int} (duplicate : Bool)
    (habove : ∀ tree ∈ forest, previousRank < tree.rank) :
    skewForestLength lengthValue previousRank duplicate forest =
      some (lengthValue + forest.length) := by
  induction forest generalizing lengthValue previousRank duplicate with
  | nil => rfl
  | cons tree forest ih =>
      obtain ⟨hahead, hforest⟩ := pairwise_cons.mp h
      have hfirst := habove tree mem_cons_self
      rw [skewForestLength, if_neg (by omega), if_neg (by omega), ih hforest, length_cons]
      · congr 1
        omega
      · intro other hother
        have := hahead other hother
        omega

theorem validateSkewForest_spec {forest : List (Tree α)} (h : SkewForest forest) :
    validateSkewForest forest = some forest.length := by
  obtain ⟨hnondecreasing, hascending⟩ := h
  match forest, hnondecreasing, hascending with
  | [], _, _ => rfl
  | [tree], _, _ =>
      exact (skewForestLength_ascending (pairwise_singleton _ _) 0 false
        (forall_mem_singleton.mpr (by omega))).trans rfl
  | first :: second :: rest, hnondecreasing, hascending =>
      obtain ⟨hahead, hrest⟩ := pairwise_cons.mp hascending
      have hfirst := (pairwise_cons.mp hnondecreasing).1 second mem_cons_self
      rw [validateSkewForest, skewForestLength, if_neg (by omega), if_neg (by omega),
        skewForestLength, if_neg (by omega)]
      have hno : ¬ ((second.rank : Int) = (first.rank : Int) ∧
          (0 + 1 ≠ 1 ∨ (false || (first.rank : Int) == -1) = true)) := by
        rintro ⟨-, hzero | hduplicate⟩
        · exact hzero rfl
        · rw [Bool.false_or, beq_iff_eq] at hduplicate
          omega
      rw [if_neg hno, skewForestLength_ascending hrest, length_cons, length_cons]
      · congr 1
        omega
      · intro other hother
        have := hahead other hother
        omega

theorem any_greater {value : α} {children : List (Tree α)}
    (h : ∀ child ∈ children, le value child.value = true) :
    (children.any fun child => !le value child.value) = false := by
  rw [any_eq_false]
  intro child hchild
  rw [h child hchild]
  decide

theorem size_pos (tree : Tree α) : 0 < tree.size := by
  cases tree with
  | tree rank value children =>
      rw [size_tree]
      omega

theorem validateTrees_spec (pending : List (Tree α × Nat))
    (logicalCount maximumRank maximumDepth : Nat)
    (hsound : ∀ entry ∈ pending, Sound le entry.1)
    (hcount : logicalCount + (pending.map fun entry => entry.1.size).sum ≤ maxBound)
    (hdepth : ∀ entry ∈ pending, entry.2 + entry.1.size ≤ maxBound + 1) :
    ∃ validated, validateTrees le pending logicalCount maximumRank maximumDepth =
        .ok (some validated) ∧
      validated.validatedCount = logicalCount + (pending.map fun entry => entry.1.size).sum := by
  induction hsize : (pending.map fun entry => entry.1.size).sum using Nat.strongRecOn
    generalizing pending logicalCount maximumRank maximumDepth with
  | ind total ih =>
      rw [validateTrees.eq_def]
      split
      · subst hsize
        exact ⟨_, rfl, rfl⟩
      · next rank value children depth pending =>
        rw [map_cons, sum_cons, size_tree] at hsize hcount
        obtain ⟨htree, hpending⟩ := forall_mem_cons.mp hsound
        obtain ⟨hroot, hdepths⟩ := forall_mem_cons.mp hdepth
        rw [size_tree] at hroot
        obtain ⟨embedded, hfused, hembedded⟩ := htree.fused
        obtain ⟨forest, hforest, hskew⟩ := fusedChildren_spec hfused hembedded
        have hchildSize : ∀ child ∈ children, child.size ≤ (children.map Tree.size).sum :=
          fun child hchild => le_sum_of_mem (mem_map_of_mem hchild)
        have hnonempty : children ≠ [] → depth + 1 ≤ maxBound := by
          intro hne
          obtain ⟨child, hchild⟩ := exists_mem_of_ne_nil children hne
          have hlarge := hchildSize child hchild
          have hpos := size_pos child
          dsimp only at hroot
          omega
        obtain ⟨below, hbelow, hbelowEq⟩ := depthBelow_ok hnonempty
        have hadd : checkedAdd logicalCount 1 = .ok (logicalCount + 1) := checkedSum_ok (by omega)
        have hfusedOk : validateFusedChildren (.tree rank value children) = some forest := hforest
        have hordered : (children.any fun child => !le value child.value) = false :=
          any_greater htree.order
        rw [hordered, if_neg Bool.false_ne_true, hfusedOk, Option.bind_some,
          validateSkewForest_spec hskew]
        dsimp only
        rw [hbelow, except_ok_bind, hadd, except_ok_bind]
        have hsizes : ((atDepth below children ++ pending).map fun entry => entry.1.size).sum =
            (children.map Tree.size).sum + (pending.map fun entry => entry.1.size).sum := by
          rw [map_append, sum_append, sizes_atDepth]
        obtain ⟨validated, hok, hvalidated⟩ := ih _ (by omega) (atDepth below children ++ pending)
          (logicalCount + 1) (max maximumRank rank) (max maximumDepth depth)
          (by
            intro entry hentry
            rcases mem_append.mp hentry with hentry | hentry
            · obtain ⟨child, hchild, rfl⟩ := mem_map.mp hentry
              exact htree.children child hchild
            · exact hpending entry hentry)
          (by omega)
          (by
            intro entry hentry
            rcases mem_append.mp hentry with hentry | hentry
            · obtain ⟨child, hchild, rfl⟩ := mem_map.mp hentry
              have hlarge := hchildSize child hchild
              rw [hbelowEq (ne_nil_of_mem hchild)]
              dsimp only at hroot ⊢
              omega
            · exact hdepths entry hentry)
          rfl
        refine ⟨validated, hok, ?_⟩
        omega

theorem validateStructure_spec {heap : BrodalOkasakiHeap α} {values : Multiset α}
    (h : Represents le heap values) :
    ∃ statistics, validateStructure le heap = .ok (some statistics) ∧
      statistics.brodalStatisticsCount = values.card := by
  have hbounded := h.bounded
  have hcounted := h.counted
  rcases h.cases_root with ⟨hroot, rfl⟩ |
    ⟨value, children, hroot, hsound, hskew, hchildren, hvalues⟩
  · rw [validateStructure, hroot]
    dsimp only
    rw [if_pos (hcounted.trans Multiset.card_zero)]
    exact ⟨_, rfl, rfl⟩
  · have hsize : (Tree.tree 0 value children).size = values.card := by
      rw [← card_bag, bag_tree, hvalues]
    have hsum : ([(Tree.tree 0 value children, 1)].map fun entry => entry.1.size).sum =
        values.card := by
      rw [map_singleton, sum_singleton, hsize]
    obtain ⟨validated, hok, hvalidated⟩ :=
      validateTrees_spec [(Tree.tree 0 value children, 1)] 0 0 0
        (forall_mem_singleton.mpr hsound) (by omega)
        (forall_mem_singleton.mpr (by dsimp only; omega))
    rw [validateStructure, hroot]
    have hforest : validateSkewForest (Tree.tree 0 value children).children =
        some children.length := validateSkewForest_spec hskew
    dsimp only
    rw [if_neg (show ¬ (Tree.tree 0 value children).rank ≠ 0 from not_not_intro rfl), hforest]
    dsimp only
    rw [hok, except_ok_bind, Option.bind_some, if_neg (not_not_intro (by omega))]
    exact ⟨_, rfl, hcounted⟩

end

/-!
## Histories of heaps

Every version of every history of edits represents a multiset of the specification.  The
specification leaves open which of the least elements a removal takes.
-/

open Multiset
open RrbVector (maxBound)

variable {α : Type}

/-! ### Edits -/

/-- One edit.  Versions are numbered in the order they were made. -/
inductive Edit (α : Type) where
  | empty
  | singleton (value : α)
  | fromList (values : List α)
  | insert (value : α) (version : Nat)
  | meld (left right : Nat)
  | minView (version : Nat)

variable (le : α → α → Bool)

def produce (versions : List (BrodalOkasakiHeap α)) :
    Edit α → Except HeapError (List (BrodalOkasakiHeap α))
  | .empty => .ok [empty]
  | .singleton value => .ok [singleton value]
  | .fromList values => (fromList le values).map fun made => [made]
  | .insert value version => onVersion versions version fun heap =>
      (insert le value heap).map fun made => [made]
  | .meld left right => onVersion versions left fun leftHeap =>
      onVersion versions right fun rightHeap => (meld le leftHeap rightHeap).map fun made => [made]
  | .minView version => onVersion versions version fun heap =>
      (minView le heap).map fun view => (view.map Prod.snd).toList

def Specified (models : List (Multiset α)) (edit : Edit α)
    (outcome : Except HeapError (List (Multiset α))) : Prop :=
  match edit with
  | .empty => outcome = .ok [0]
  | .singleton value => outcome = .ok [{value}]
  | .fromList values => outcome =
      (bounded HeapError.countOverflow maxBound (values : Multiset α)).map fun made => [made]
  | .insert value version => outcome = onVersion models version fun values =>
      (bounded HeapError.countOverflow maxBound (value ::ₘ values)).map fun made => [made]
  | .meld left right => outcome = onVersion models left fun leftValues =>
      onVersion models right fun rightValues =>
        (bounded HeapError.countOverflow maxBound (leftValues + rightValues)).map fun made => [made]
  | .minView version => models[version]?.elim (outcome = .ok []) fun values =>
      Removes le values outcome

section Lawful

variable {le} [preorder : TotalPreorder le] {heap : BrodalOkasakiHeap α} {values : Multiset α}

theorem produce_specified (versions : List (BrodalOkasakiHeap α)) (models : List (Multiset α))
    (edit : Edit α) (h : List.Forall₂ (Represents le) versions models) :
    ∃ outcome, Specified le models edit outcome ∧
      Agrees (List.Forall₂ (Represents le)) (produce le versions edit) outcome := by
  cases edit with
  | empty => exact ⟨_, rfl, .ok (.cons represents_empty .nil)⟩
  | singleton value => exact ⟨_, rfl, .ok (.cons (represents_singleton value) .nil)⟩
  | fromList values => exact ⟨_, rfl, single_agrees (fromList_agrees values)⟩
  | insert value version =>
      exact ⟨_, rfl, onVersion_agrees h version fun _ _ hpicked =>
        single_agrees (insert_agrees hpicked value)⟩
  | meld left right =>
      exact ⟨_, rfl, onVersion_agrees h left fun _ _ hleft =>
        onVersion_agrees h right fun _ _ hright => single_agrees (meld_agrees hleft hright)⟩
  | minView version => exact removes_agrees exists_view h version

/-- What a version shows of its multiset. -/
structure Observes (le : α → α → Bool) (heap : BrodalOkasakiHeap α) (values : Multiset α) :
    Prop where
  counted : count heap = values.card
  empty : null heap = true ↔ values = 0
  contents : (toList heap : Multiset α) = values
  sound : ∀ root, heap.root = some root → Sound le root ∧ root.rank = 0
  valid : ∃ statistics, validateStructure le heap = .ok (some statistics) ∧
    statistics.brodalStatisticsCount = values.card
  view : ∃ view, minView le heap = .ok view ∧ minimum heap = view.map Prod.fst ∧
    Views le (Represents le) values view
  drained : ∃ drained, drain (minView le) (count heap + 1) heap = .ok (some drained) ∧
    (drained : Multiset α) = values ∧
    drained.Pairwise fun earlier later => le earlier later = true

theorem observes_of_represents (h : Represents le heap values) : Observes le heap values where
  counted := h.counted
  empty := by
    rcases h.cases_root with ⟨hroot, hvalues⟩ | ⟨value, children, hroot, -, -, -, hvalues⟩
    · rw [null, hroot]
      exact iff_of_true rfl hvalues
    · rw [null, hroot, hvalues, singleton_add]
      exact iff_of_false Bool.false_ne_true (cons_ne_zero)
  contents := toList_coe h
  sound := h.sound
  valid := validateStructure_spec h
  view := by
    obtain ⟨view, hok, hviews, hminimum⟩ := minView_views h
    exact ⟨view, hok, hminimum, hviews⟩
  drained := drain_spec exists_view _ h (by rw [count, h.counted]; omega)

theorem heaps_exact (edits : List (Edit α)) :
    ∃ models, Grows (Specified le) [] edits models ∧
      List.Forall₂ (Observes le) (grow (produce le) [] edits) models ∧
      ∀ edit, ∃ outcome, Specified le models edit outcome ∧
        Agrees (List.Forall₂ (Observes le))
          (produce le (grow (produce le) [] edits) edit) outcome := by
  obtain ⟨models, hgrows, hversions⟩ := grow_simulates (@produce_specified _ le _) .nil edits
  refine ⟨models, hgrows, hversions.imp fun _ _ => observes_of_represents, fun edit => ?_⟩
  obtain ⟨outcome, hspecified, hagrees⟩ := produce_specified _ _ edit hversions
  exact ⟨outcome, hspecified, hagrees.imp fun _ _ hadded =>
    hadded.imp fun _ _ => observes_of_represents⟩

end Lawful

/-- Numbers in order of their tens. -/
def tensLe (left right : Nat) : Bool := left / 10 ≤ right / 10

instance : TotalPreorder tensLe where
  trans hfirst hsecond := decide_eq_true
    (Nat.le_trans (of_decide_eq_true hfirst) (of_decide_eq_true hsecond))
  total first second := (Nat.le_total (first / 10) (second / 10)).imp decide_eq_true decide_eq_true

theorem heaps_exact_tens :
    ∃ models, Grows (Specified tensLe) []
        [.fromList [31, 12, 55, 18, 20, 44, 7], .insert 19 0, .meld 1 1, .minView 2] models ∧
      List.Forall₂ (Observes tensLe) (grow (produce tensLe) []
        [.fromList [31, 12, 55, 18, 20, 44, 7], .insert 19 0, .meld 1 1, .minView 2]) models := by
  obtain ⟨models, hgrows, hversions, -⟩ := @heaps_exact Nat tensLe _
    [.fromList [31, 12, 55, 18, 20, 44, 7], .insert 19 0, .meld 1 1, .minView 2]
  exact ⟨models, hgrows, hversions⟩

end Durable7.FingerTree.BrodalOkasakiHeap
