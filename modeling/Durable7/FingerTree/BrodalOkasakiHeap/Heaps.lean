import Durable7.FingerTree.BrodalOkasakiHeap.Forests

/-!
# Heaps and their elements

A heap represents a multiset: its root is a sound tree of rank zero, and its total is the
number of the elements.
-/

namespace Durable7.FingerTree.BrodalOkasakiHeap

open List

section

open Foundation Foundation.BoundedQueues
open RrbVector (maxBound)
open Multiset hiding map map_cons sum_cons

variable {α : Type} {le : α → α → Bool} {heap : BrodalOkasakiHeap α} {values : Multiset α}

def bag (heap : BrodalOkasakiHeap α) : Multiset α := heap.root.elim 0 Tree.bag

structure Represents (le : α → α → Bool) (heap : BrodalOkasakiHeap α) (values : Multiset α) :
    Prop where
  sound : ∀ root, heap.root = some root → Sound le root ∧ root.rank = 0
  bag_eq : bag heap = values
  counted : heap.total = values.card
  bounded : values.card ≤ maxBound

theorem represents_empty : Represents le (empty : BrodalOkasakiHeap α) 0 :=
  ⟨fun _ h => (Option.some_ne_none _ h.symm).elim, rfl, rfl, Nat.zero_le _⟩

theorem represents_root {root : Tree α} {total : Nat} (hsound : Sound le root)
    (hrank : root.rank = 0) (hbag : root.bag = values) (htotal : total = values.card)
    (hbound : values.card ≤ maxBound) : Represents le ⟨total, some root⟩ values where
  sound other hother := by
    cases hother
    exact ⟨hsound, hrank⟩
  bag_eq := hbag
  counted := htotal
  bounded := hbound

theorem represents_singleton (value : α) : Represents le (singleton value) {value} :=
  represents_root (sound_leaf value) rfl (by rw [bag_tree, forestBag_nil, add_zero]) rfl
    (by rw [card_singleton]; decide)

theorem Represents.cases_root (h : Represents le heap values) :
    (heap.root = none ∧ values = 0) ∨
    ∃ value children, heap.root = some (.tree 0 value children) ∧
      Sound le (.tree 0 value children) ∧ SkewForest children ∧ AllSound le children ∧
      values = {value} + forestBag children := by
  have hbag := h.bag_eq
  rw [bag] at hbag
  cases hroot : heap.root with
  | none =>
      rw [hroot] at hbag
      exact .inl ⟨rfl, hbag.symm⟩
  | some root =>
      obtain ⟨hsound, hrank⟩ := h.sound root hroot
      rw [hroot] at hbag
      cases root with
      | tree rank value children =>
          obtain rfl : rank = 0 := hrank
          refine .inr ⟨value, children, rfl, hsound, hsound.skewForest rfl, hsound.children, ?_⟩
          rw [← hbag]
          exact bag_tree 0 value children

section Order

variable [preorder : TotalPreorder le]

theorem graft_spec {value : α} {children : List (Tree α)} {loser : Tree α}
    (hsound : Sound le (.tree 0 value children)) (hloser : Sound le loser)
    (hrank : loser.rank = 0) (hle : le value loser.value = true) :
    ∃ inserted, skewInsert le loser children = .ok inserted ∧
      Sound le (.tree 0 value inserted) ∧
      (Tree.tree 0 value inserted).bag = (Tree.tree 0 value children).bag + loser.bag := by
  obtain ⟨inserted, hok, hinserted, hinsertedSound, hbag⟩ :=
    skewInsert_spec hrank hloser (hsound.skewForest rfl) hsound.children
  refine ⟨inserted, hok, sound_zero hinserted hinsertedSound ?_, ?_⟩
  · intro child hchild
    have hmem : child.value ∈ forestBag inserted := by
      refine mem_forestBag.mpr ⟨child, hchild, ?_⟩
      rw [BrodalOkasakiHeap.bag_eq, Multiset.mem_add, Multiset.mem_singleton]
      exact .inl rfl
    rw [hbag, mem_add] at hmem
    rcases hmem with hmem | hmem
    · exact preorder.trans hle (hloser.root_le _ hmem)
    · apply hsound.root_le
      rw [bag_tree, mem_add]
      exact .inr hmem
  · rw [bag_tree, bag_tree, hbag]
    abel

theorem insert_agrees (h : Represents le heap values) (value : α) :
    Agrees (Represents le) (insert le value heap)
      (bounded .countOverflow maxBound (value ::ₘ values)) := by
  have hcard : (value ::ₘ values).card = values.card + 1 := card_cons _ _
  rw [insert]
  rcases h.cases_root with ⟨hroot, rfl⟩ | ⟨rootValue, children, hroot, hsound, hskew, hchildren,
    hvalues⟩
  · rw [hroot, bounded_ok (by rw [hcard, card_zero]; decide)]
    exact .ok (represents_singleton value)
  rw [hroot]
  dsimp only
  by_cases hbound : values.card + 1 ≤ maxBound
  · rw [h.counted, checkedAdd, checkedSum_ok hbound, except_ok_bind, bounded_ok (by omega)]
    split
    · next hle =>
      refine .ok (represents_root (sound_zero ?_ ?_ ?_) rfl ?_ hcard.symm (by omega))
      · exact ⟨pairwise_singleton _ _, List.Pairwise.nil⟩
      · exact allSound_cons.mpr ⟨hsound, allSound_nil⟩
      · exact forall_mem_singleton.mpr hle
      · rw [bag_tree, forestBag_cons, forestBag_nil, bag_tree, ← hvalues, add_zero, singleton_add]
    · next hnot =>
      obtain ⟨inserted, hok, hroot, hbag⟩ :=
        graft_spec hsound (sound_leaf value) rfl (le_of_not_le hnot)
      change Agrees _ (skewInsert le (.tree 0 value []) children >>= _) _
      rw [hok, except_ok_bind]
      refine .ok (represents_root hroot rfl ?_ hcard.symm (by omega))
      change (Tree.tree 0 rootValue inserted).bag = _
      rw [hbag, bag_tree, ← hvalues, bag_tree, forestBag_nil, add_zero, add_comm, singleton_add]
  · rw [h.counted, checkedAdd, checkedSum_error h.bounded (by decide) (by omega),
      bounded_error (by omega)]
    exact .error _

theorem meld_agrees {other : BrodalOkasakiHeap α} {others : Multiset α}
    (h : Represents le heap values) (hother : Represents le other others) :
    Agrees (Represents le) (meld le heap other)
      (bounded .countOverflow maxBound (values + others)) := by
  have hcard : (values + others).card = values.card + others.card := card_add _ _
  rw [meld]
  rcases h.cases_root with ⟨hroot, rfl⟩ |
    ⟨value, children, hroot, hsound, hskew, hchildren, hvalues⟩
  · rw [hroot, zero_add, bounded_ok hother.bounded]
    exact .ok hother
  rcases hother.cases_root with ⟨hotherRoot, rfl⟩ | ⟨otherValue, otherChildren, hotherRoot,
    hotherSound, hotherSkew, hotherChildren, hothers⟩
  · rw [hroot, hotherRoot, add_zero, bounded_ok h.bounded]
    exact .ok h
  rw [hroot, hotherRoot]
  dsimp only
  by_cases hbound : values.card + others.card ≤ maxBound
  · rw [h.counted, hother.counted, checkedAdd, checkedSum_ok hbound, except_ok_bind,
      bounded_ok (by omega)]
    split
    · next hle =>
      obtain ⟨inserted, hok, hmelded, hbag⟩ := graft_spec hsound hotherSound rfl hle
      change Agrees _ (skewInsert le (.tree 0 otherValue otherChildren) children >>= _) _
      rw [hok, except_ok_bind]
      refine .ok (represents_root hmelded rfl ?_ hcard.symm (by omega))
      rw [hvalues, hothers, ← bag_tree 0 value children, ← bag_tree 0 otherValue otherChildren]
      exact hbag
    · next hnot =>
      obtain ⟨inserted, hok, hmelded, hbag⟩ := graft_spec hotherSound hsound rfl (le_of_not_le hnot)
      change Agrees _ (skewInsert le (.tree 0 value children) otherChildren >>= _) _
      rw [hok, except_ok_bind]
      refine .ok (represents_root hmelded rfl ?_ hcard.symm (by omega))
      rw [hvalues, hothers, ← bag_tree 0 value children, ← bag_tree 0 otherValue otherChildren,
        add_comm]
      exact hbag
  · rw [h.counted, hother.counted, checkedAdd,
      checkedSum_error h.bounded hother.bounded (by omega), bounded_error (by omega)]
    exact .error _

theorem fromList_agrees (items : List α) :
    Agrees (Represents le) (fromList le items)
      (bounded .countOverflow maxBound (items : Multiset α)) := by
  have h := foldlM_agrees (Represents le) Represents.bounded (fun item h => insert_agrees h item)
    items represents_empty
  rwa [zero_add, List.map_id'] at h

theorem minView_views (h : Represents le heap values) :
    ∃ view, minView le heap = .ok view ∧ Views le (Represents le) values view ∧
      minimum heap = view.map Prod.fst := by
  rcases h.cases_root with ⟨hroot, rfl⟩ |
    ⟨value, children, hroot, hsound, hskew, hchildren, hvalues⟩
  · refine ⟨none, ?_, .empty rfl, ?_⟩
    · rw [minView, hroot]
    · rw [minimum, hroot]
      rfl
  have hcons : values = value ::ₘ forestBag children := by rw [hvalues, singleton_add]
  have hleast : ∀ other ∈ values, le value other = true := by
    intro other hother
    apply hsound.root_le
    rw [bag_tree, ← hvalues]
    exact hother
  have hcard : values.card = (forestBag children).card + 1 := by rw [hcons, card_cons]
  have hcounted := h.counted
  have hbounded := h.bounded
  rw [minView, minimum, hroot]
  cases children with
  | nil =>
      rw [forestBag_nil, card_zero] at hcard
      dsimp only
      rw [if_pos (by omega)]
      exact ⟨_, rfl, .least hcons hleast represents_empty, rfl⟩
  | cons child children =>
      obtain ⟨root, hok, hrootSound, hrank, hbag⟩ :=
        promote_spec (cons_ne_nil child children) hskew hchildren
      have hsubtract : checkedSubtract heap.total 1 = .ok (heap.total - 1) := if_neg (by omega)
      dsimp only
      rw [hsubtract, except_ok_bind, hok, except_ok_bind]
      refine ⟨_, rfl, .least hcons hleast ?_, rfl⟩
      exact represents_root hrootSound hrank hbag (by omega) (by omega)

theorem exists_view (h : Represents le heap values) :
    ∃ view, minView le heap = .ok view ∧ Views le (Represents le) values view :=
  (minView_views h).imp fun _ hview => ⟨hview.1, hview.2.1⟩

end Order

theorem walk_coe (pending : List (Tree α)) : (walk pending : Multiset α) = forestBag pending := by
  induction hsize : (pending.map Tree.size).sum using Nat.strongRecOn generalizing pending with
  | ind total ih =>
      rw [walk.eq_def]
      split
      · rfl
      · next rank value children pending =>
        rw [map_cons, sum_cons, size_tree] at hsize
        rw [← Multiset.cons_coe, ih _ _ (children ++ pending) rfl, forestBag_append, forestBag_cons,
          bag_tree, ← Multiset.singleton_add, add_assoc]
        rw [map_append, sum_append]
        omega

theorem toList_coe (h : Represents le heap values) : (toList heap : Multiset α) = values := by
  rw [← h.bag_eq, toList, bag]
  cases heap.root with
  | none => rfl
  | some root =>
      change (walk [root] : Multiset α) = _
      rw [walk_coe, forestBag_cons, forestBag_nil, add_zero]
      rfl

end

/-!
## Monotone changes of the elements

A monotone change of every element keeps the shape and the order of a heap.
-/

variable {α β : Type}

def Tree.mapped (f : α → β) : Tree α → Tree β
  | .tree rank value children => .tree rank (f value) (children.map (Tree.mapped f))

variable {f : α → β}

theorem mapped_tree (rank : Nat) (value : α) (children : List (Tree α)) :
    (Tree.tree rank value children).mapped f =
      .tree rank (f value) (children.map (Tree.mapped f)) := by
  rw [Tree.mapped]

theorem rank_mapped (tree : Tree α) : (tree.mapped f).rank = tree.rank := by
  cases tree with
  | tree rank value children =>
      rw [mapped_tree]
      rfl

theorem value_mapped (tree : Tree α) : (tree.mapped f).value = f tree.value := by
  cases tree with
  | tree rank value children =>
      rw [mapped_tree]
      rfl

theorem Fused.mapped {rank : Nat} {children embedded : List (Tree α)}
    (h : Fused rank children embedded) :
    Fused rank (children.map (Tree.mapped f)) (embedded.map (Tree.mapped f)) := by
  induction h with
  | zero forest => exact .zero _
  | link hloser _ ih => exact .link ((rank_mapped _).trans hloser) ih
  | skewZero hzero hloser _ ih =>
      exact .skewZero ((rank_mapped _).trans hzero) ((rank_mapped _).trans hloser) ih
  | skewPair hfirst hsecond =>
      exact .skewPair ((rank_mapped _).trans hfirst) ((rank_mapped _).trans hsecond)

theorem SkewForest.mapped {forest : List (Tree α)} (h : SkewForest forest) :
    SkewForest (forest.map (Tree.mapped f)) := by
  constructor
  · refine List.Pairwise.map _ (fun left right hle => ?_) h.1
    rw [rank_mapped, rank_mapped]
    exact hle
  · rw [← map_tail]
    refine List.Pairwise.map _ (fun left right hlt => ?_) h.2
    rw [rank_mapped, rank_mapped]
    exact hlt

theorem Sound.mapped {le : α → α → Bool} {le' : β → β → Bool}
    (hmonotone : ∀ first second, le first second = true → le' (f first) (f second) = true)
    {tree : Tree α} (h : Sound le tree) : Sound le' (tree.mapped f) := by
  induction h with
  | tree hfused hembedded horder _ ih =>
      rw [mapped_tree]
      refine .tree hfused.mapped hembedded.mapped ?_ ?_
      · intro child hchild
        obtain ⟨original, hmem, rfl⟩ := mem_map.mp hchild
        rw [value_mapped]
        exact hmonotone _ _ (horder original hmem)
      · intro child hchild
        obtain ⟨original, hmem, rfl⟩ := mem_map.mp hchild
        exact ih original hmem

theorem forestBag_mapped {forest : List (Tree α)}
    (h : ∀ tree ∈ forest, (tree.mapped f).bag = tree.bag.map f) :
    forestBag (forest.map (Tree.mapped f)) = (forestBag forest).map f := by
  induction forest with
  | nil => rfl
  | cons tree forest ih =>
      obtain ⟨htree, hforest⟩ := forall_mem_cons.mp h
      rw [map_cons, forestBag_cons, forestBag_cons, Multiset.map_add, htree, ih hforest]

theorem bag_mapped : ∀ tree : Tree α, (tree.mapped f).bag = tree.bag.map f
  | .tree rank value children => by
      rw [mapped_tree, bag_tree, bag_tree, Multiset.map_add, Multiset.map_singleton,
        forestBag_mapped fun child _ => bag_mapped child]

theorem Represents.mapped {le : α → α → Bool} {le' : β → β → Bool}
    (hmonotone : ∀ first second, le first second = true → le' (f first) (f second) = true)
    {heap : BrodalOkasakiHeap α} {values : Multiset α} (h : Represents le heap values) :
    Represents le' ⟨heap.total, heap.root.map (Tree.mapped f)⟩ (values.map f) where
  sound root hroot := by
    obtain ⟨original, horiginal, rfl⟩ := Option.map_eq_some_iff.mp hroot
    obtain ⟨hsound, hrank⟩ := h.sound original horiginal
    exact ⟨hsound.mapped hmonotone, (rank_mapped original).trans hrank⟩
  bag_eq := by
    have hbag := h.bag_eq
    rw [bag] at hbag ⊢
    rw [← hbag]
    cases heap.root with
    | none => rfl
    | some root => exact bag_mapped root
  counted := by rw [Multiset.card_map, h.counted]
  bounded := by rw [Multiset.card_map]; exact h.bounded

end Durable7.FingerTree.BrodalOkasakiHeap
