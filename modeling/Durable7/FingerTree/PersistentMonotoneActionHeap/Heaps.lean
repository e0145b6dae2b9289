import Durable7.FingerTree.PersistentMonotoneActionHeap.Simulation

/-!
# Action-tagged heaps and their entries

A heap shows a multiset of entries when the plain heap it erases to represents it.  One
action over a whole heap maps the priorities of the entries it holds.
-/

namespace Durable7.FingerTree.PersistentMonotoneActionHeap

open Foundation Foundation.BoundedQueues List
open RrbVector (maxBound)

variable {element priority action : Type} {policy : MonotoneActionPolicy priority action}
  {admissible : action → Prop} {heap : PersistentMonotoneActionHeap element policy}
  {values : Multiset (MonotoneHeapEntry element priority)}

/-- The plain heap with every pending action applied. -/
def eraseHeap (heap : PersistentMonotoneActionHeap element policy) :
    BrodalOkasakiHeap (MonotoneHeapEntry element priority) :=
  ⟨heap.total, heap.root.map (erase policy)⟩

structure Shows (admissible : action → Prop) (heap : PersistentMonotoneActionHeap element policy)
    (values : Multiset (MonotoneHeapEntry element priority)) : Prop where
  admitted : ∀ root, heap.root = some root → TreeAdmitted admissible root
  represents : BrodalOkasakiHeap.Represents (entryLe policy) (eraseHeap heap) values

section

variable (h : Shows admissible heap values)
include h

theorem Shows.counted : heap.total = values.card := h.represents.counted

theorem Shows.bounded : values.card ≤ maxBound := h.represents.bounded

theorem Shows.card_of_none (hnone : heap.root = none) : values.card = 0 := by
  have hbag := h.represents.bag_eq
  rw [BrodalOkasakiHeap.bag, eraseHeap, hnone] at hbag
  rw [← hbag]
  rfl

end

theorem shows_empty :
    Shows admissible (emptyWith policy : PersistentMonotoneActionHeap element policy)
    0 :=
  ⟨fun _ h => (Option.some_ne_none _ h.symm).elim, BrodalOkasakiHeap.represents_empty⟩

theorem Shows.of_erase {root : Tree element priority action} {total : Nat}
    (hadmitted : TreeAdmitted admissible root)
    (h : BrodalOkasakiHeap.Represents (entryLe policy) ⟨total, some (erase policy root)⟩ values) :
    @Shows _ _ _ policy admissible ⟨total, some root⟩ values where
  admitted other hother := by
    cases hother
    exact hadmitted
  represents := h

/-- A change of the priority of an entry. -/
def onPriority (change : priority → priority) (entry : MonotoneHeapEntry element priority) :
    MonotoneHeapEntry element priority :=
  ⟨entry.entryElement, change entry.entryPriority⟩

mutual

theorem erasedTree_mapped (change above : priority → priority) :
    ∀ tree : Tree element priority action,
      erasedTree policy (change ∘ above) tree =
        (erasedTree policy above tree).mapped (onPriority change)
  | .tree treeRank treeElement treePriority treeChildren treeAction => by
      rw [erasedTree, erasedTree, BrodalOkasakiHeap.mapped_tree,
        ← erasedForest_mapped change (above ∘ policy.actionApply treeAction) treeChildren]
      rfl

theorem erasedForest_mapped (change above : priority → priority) :
    ∀ forest : Forest element priority action,
      erasedForest policy (change ∘ above) forest =
        (erasedForest policy above forest).map (BrodalOkasakiHeap.Tree.mapped (onPriority change))
  | .nil => rfl
  | .cons forestAction rawHead rawTail => by
      rw [erasedForest, erasedForest, map_cons,
        ← erasedTree_mapped change (above ∘ policy.actionApply forestAction) rawHead,
        ← erasedForest_mapped change (above ∘ policy.actionApply forestAction) rawTail]
      rfl

end

section Lawful

variable [lawful : LawfulPolicy policy admissible]

theorem transformAll_shows {pending : action} (hpending : admissible pending)
    (h : Shows admissible heap values) :
    Shows admissible (transformAll pending heap)
      (values.map (onPriority (policy.actionApply pending))) := by
  have hmonotone : ∀ first second : MonotoneHeapEntry element priority,
      entryLe policy first second = true →
      entryLe policy (onPriority (policy.actionApply pending) first)
        (onPriority (policy.actionApply pending) second) = true := by
    intro first second hle
    rw [entryLe, bne_iff_ne] at hle ⊢
    exact lawful.apply_monotone hpending hle
  have hmapped := h.represents.mapped hmonotone
  rw [transformAll]
  cases hroot : heap.root with
  | none =>
      refine ⟨h.admitted, ?_⟩
      rw [eraseHeap, hroot] at hmapped ⊢
      exact hmapped
  | some current =>
      rw [eraseHeap, hroot] at hmapped
      have hcurrent := h.admitted current hroot
      dsimp only
      split
      · next hidentity =>
        have hsame : onPriority (policy.actionApply pending) =
            (id : MonotoneHeapEntry element priority → MonotoneHeapEntry element priority) := by
          funext entry
          exact congrArg (MonotoneHeapEntry.mk entry.entryElement)
            (lawful.apply_identity hidentity entry.entryPriority)
        rw [hsame, Multiset.map_id]
        exact h
      · refine Shows.of_erase (tagTree_admitted hpending hcurrent) ?_
        have herased : erase policy (tagTree policy pending current) =
            (erase policy current).mapped (onPriority (policy.actionApply pending)) := by
          rw [erase, erasedTree_tagTree hpending hcurrent]
          exact erasedTree_mapped (policy.actionApply pending) id current
        rw [herased]
        exact hmapped

def HeapSimulates (admissible : action → Prop)
    (result : Except HeapError (PersistentMonotoneActionHeap element policy))
    (expected : Except BrodalOkasakiHeap.HeapError
      (BrodalOkasakiHeap (MonotoneHeapEntry element priority))) : Prop :=
  ∀ plain, expected = .ok plain →
    ∃ made, result = .ok made ∧ (∀ root, made.root = some root → TreeAdmitted admissible root) ∧
      eraseHeap made = plain

omit lawful in
theorem HeapSimulates.agrees
    {result : Except HeapError (PersistentMonotoneActionHeap element policy)}
    {expected : Except BrodalOkasakiHeap.HeapError
      (BrodalOkasakiHeap (MonotoneHeapEntry element priority))}
    (h : HeapSimulates admissible result expected)
    (hplain : Agrees (BrodalOkasakiHeap.Represents (entryLe policy)) expected
      (bounded .countOverflow maxBound values))
    (hoverflow : maxBound < values.card → result = .error .countOverflow) :
    Agrees (Shows admissible) result (bounded .countOverflow maxBound values) := by
  by_cases hbound : values.card ≤ maxBound
  · rw [bounded_ok hbound] at hplain
    rw [bounded_ok hbound]
    cases hplain with
    | @ok plain _ hrepresents =>
        obtain ⟨made, hok, hadmitted, herased⟩ := h plain rfl
        rw [hok]
        refine .ok ⟨hadmitted, ?_⟩
        rw [herased]
        exact hrepresents
  · rw [hoverflow (by omega), bounded_error (by omega)]
    exact .error _

omit lawful in
theorem heapSimulates_root {root : Tree element priority action} {total : Nat}
    {plain : BrodalOkasakiHeap.Tree (MonotoneHeapEntry element priority)}
    (hadmitted : TreeAdmitted admissible root) (herased : erase policy root = plain) :
    HeapSimulates admissible
      (.ok (⟨total, some root⟩ : PersistentMonotoneActionHeap element policy))
      (.ok ⟨total, some plain⟩) := by
  rintro plain ⟨⟩
  refine ⟨_, rfl, fun other hother => ?_, ?_⟩
  · cases hother
    exact hadmitted
  · rw [eraseHeap, Option.map_some, herased]

/-! ## Insertion and meld -/

omit lawful in
theorem checkedAdd_simulates {left right sum : Nat}
    (h : BrodalOkasakiHeap.checkedAdd left right = .ok sum) : checkedAdd left right = .ok sum := by
  rw [BrodalOkasakiHeap.checkedAdd, checkedSum] at h
  rw [checkedAdd, checkedSum]
  split at h
  · cases h
  · next hfits =>
    cases h
    exact if_neg hfits

omit lawful in
theorem erase_singleton [LawfulIdentity policy] (elementValue : element)
    (priorityValue : priority) :
    erase policy (.tree 0 elementValue priorityValue .nil policy.actionIdentity) =
      .tree 0 ⟨elementValue, priorityValue⟩ [] :=
  erase_crown 0 (.tree 0 elementValue priorityValue .nil policy.actionIdentity) .nil

section

variable (hadmitted : ∀ root, heap.root = some root → TreeAdmitted admissible root)
include hadmitted

theorem insert_simulates (elementValue : element) (priorityValue : priority) :
    HeapSimulates admissible (insert elementValue priorityValue heap)
      (BrodalOkasakiHeap.insert (entryLe policy) ⟨elementValue, priorityValue⟩
        (eraseHeap heap)) := by
  have hsingle : TreeAdmitted admissible
      (.tree 0 elementValue priorityValue .nil policy.actionIdentity) :=
    ⟨lawful.identity_admissible, trivial⟩
  have herased := @erase_singleton _ _ _ policy _ elementValue priorityValue
  rw [insert, BrodalOkasakiHeap.insert, eraseHeap]
  cases hroot : heap.root with
  | none => exact heapSimulates_root hsingle herased
  | some current =>
      have hcurrent := hadmitted current hroot
      have hle : entryLe policy ⟨elementValue, priorityValue⟩ (erase policy current).value =
          lessOrEqual policy (.tree 0 elementValue priorityValue .nil policy.actionIdentity)
            current := by
        rw [lessOrEqual_eq, herased]
        rfl
      intro plain hplain
      obtain ⟨total, htotal, hplain⟩ := bind_eq_ok.mp hplain
      rw [hle] at hplain
      dsimp only
      rw [checkedAdd_simulates htotal, except_ok_bind]
      by_cases hwins : lessOrEqual policy
          (.tree 0 elementValue priorityValue .nil policy.actionIdentity) current = true
      · rw [if_pos hwins] at hplain ⊢
        have hgained : TreeAdmitted admissible (.tree 0 elementValue priorityValue
            (cons policy current .nil) policy.actionIdentity) :=
          ⟨lawful.identity_admissible, cons_admitted hcurrent trivial⟩
        refine heapSimulates_root hgained ?_ plain hplain
        exact (erase_crown 0 (.tree 0 elementValue priorityValue .nil policy.actionIdentity)
          (cons policy current .nil)).trans (congrArg _ (eraseForest_cons current .nil))
      · rw [if_neg hwins] at hplain ⊢
        obtain ⟨children, hchildren, hplain⟩ := bind_eq_ok.mp hplain
        rw [← herased, erase_children hcurrent] at hchildren
        obtain ⟨made, hmade, hmadeAdmitted, hmadeErased⟩ :=
          skewInsert_simulates hsingle (exposed_children hcurrent) children hchildren
        rw [hmade, except_ok_bind]
        refine heapSimulates_root (crown_admitted _ _ hmadeAdmitted) ?_ plain hplain
        rw [erase_gaining hcurrent, hmadeErased]

theorem meld_simulates {other : PersistentMonotoneActionHeap element policy}
    (hother : ∀ root, other.root = some root → TreeAdmitted admissible root) :
    HeapSimulates admissible (meld heap other)
      (BrodalOkasakiHeap.meld (entryLe policy) (eraseHeap heap) (eraseHeap other)) := by
  have hsame : ∀ {kept : PersistentMonotoneActionHeap element policy},
      (∀ root, kept.root = some root → TreeAdmitted admissible root) →
      HeapSimulates admissible (.ok kept) (.ok (eraseHeap kept)) := by
    intro kept hkept plain hplain
    cases hplain
    exact ⟨kept, rfl, hkept, rfl⟩
  rw [meld, BrodalOkasakiHeap.meld]
  cases hroot : heap.root with
  | none =>
      rw [show (eraseHeap heap).root = none by rw [eraseHeap, hroot]; rfl]
      exact hsame hother
  | some left =>
      rw [show (eraseHeap heap).root = some (erase policy left) by rw [eraseHeap, hroot]; rfl]
      cases hotherRoot : other.root with
      | none =>
          rw [show (eraseHeap other).root = none by rw [eraseHeap, hotherRoot]; rfl]
          exact hsame hadmitted
      | some right =>
          rw [show (eraseHeap other).root = some (erase policy right) by
            rw [eraseHeap, hotherRoot]; rfl]
          have hleft := hadmitted left hroot
          have hright := hother right hotherRoot
          intro plain hplain
          obtain ⟨total, htotal, hplain⟩ := bind_eq_ok.mp hplain
          have hadd : checkedAdd heap.total other.total = .ok total := checkedAdd_simulates htotal
          rw [← lessOrEqual_eq] at hplain
          dsimp only
          rw [hadd, except_ok_bind]
          split at hplain
          · next hwins =>
            obtain ⟨children, hchildren, hplain⟩ := bind_eq_ok.mp hplain
            rw [erase_children hleft] at hchildren
            obtain ⟨made, hmade, hmadeAdmitted, hmadeErased⟩ :=
              skewInsert_simulates hright (exposed_children hleft) children hchildren
            rw [if_pos hwins, if_pos hwins, hmade, except_ok_bind]
            refine heapSimulates_root (crown_admitted _ _ hmadeAdmitted) ?_ plain hplain
            rw [erase_gaining hleft, hmadeErased]
          · next hloses =>
            obtain ⟨children, hchildren, hplain⟩ := bind_eq_ok.mp hplain
            rw [erase_children hright] at hchildren
            obtain ⟨made, hmade, hmadeAdmitted, hmadeErased⟩ :=
              skewInsert_simulates hleft (exposed_children hright) children hchildren
            rw [if_neg hloses, if_neg hloses, hmade, except_ok_bind]
            refine heapSimulates_root (crown_admitted _ _ hmadeAdmitted) ?_ plain hplain
            rw [erase_gaining hright, hmadeErased]

end

variable [ordered : Std.TransCmp policy.priorityCompare]

theorem insert_agrees (h : Shows admissible heap values) (elementValue : element)
    (priorityValue : priority) :
    Agrees (Shows admissible) (insert elementValue priorityValue heap)
      (bounded .countOverflow maxBound (⟨elementValue, priorityValue⟩ ::ₘ values)) := by
  refine (insert_simulates h.admitted elementValue priorityValue).agrees
    (BrodalOkasakiHeap.insert_agrees h.represents _) fun hoverflow => ?_
  have hcounted := h.counted
  have hbounded := h.bounded
  rw [Multiset.card_cons] at hoverflow
  have hsome : heap.root ≠ none := by
    intro hnone
    have hempty := h.card_of_none hnone
    have hone : 1 ≤ maxBound := by decide
    omega
  obtain ⟨current, hroot⟩ := Option.ne_none_iff_exists'.mp hsome
  rw [insert, hroot]
  dsimp only
  rw [checkedAdd, checkedSum_error (by omega) (by decide) (by omega)]
  rfl

theorem meld_agrees {other : PersistentMonotoneActionHeap element policy}
    {others : Multiset (MonotoneHeapEntry element priority)} (h : Shows admissible heap values)
    (hother : Shows admissible other others) :
    Agrees (Shows admissible) (meld heap other)
      (bounded .countOverflow maxBound (values + others)) := by
  refine (meld_simulates h.admitted hother.admitted).agrees
    (BrodalOkasakiHeap.meld_agrees h.represents hother.represents) fun hoverflow => ?_
  have hcounted := h.counted
  have hbounded := h.bounded
  have hotherCounted := hother.counted
  have hotherBounded := hother.bounded
  rw [Multiset.card_add] at hoverflow
  rw [meld]
  cases hroot : heap.root with
  | none =>
      have := h.card_of_none hroot
      omega
  | some left =>
      cases hotherRoot : other.root with
      | none =>
          have := hother.card_of_none hotherRoot
          omega
      | some right =>
          dsimp only
          rw [checkedAdd, checkedSum_error (by omega) (by omega) (by omega)]
          rfl

theorem fromListWith_agrees (pairs : List (element × priority)) :
    Agrees (Shows admissible) (fromListWith policy pairs) (bounded .countOverflow maxBound
      (pairs.map fun pair => (⟨pair.1, pair.2⟩ : MonotoneHeapEntry element priority))) := by
  have h := foldlM_agrees (Shows admissible) Shows.bounded
    (fun (pair : element × priority) h => insert_agrees h pair.1 pair.2) pairs
    (shows_empty : Shows admissible (emptyWith policy) 0)
  rwa [zero_add] at h

theorem minView_views (h : Shows admissible heap values) :
    ∃ view, minView heap = .ok view ∧ Views (entryLe policy) (Shows admissible) values view ∧
      minimum heap = view.map Prod.fst := by
  obtain ⟨plainView, hplain, hviews, hminimum⟩ := BrodalOkasakiHeap.minView_views h.represents
  rw [BrodalOkasakiHeap.minView] at hplain
  rw [minView, minimum]
  cases hroot : heap.root with
  | none =>
      rw [show (eraseHeap heap).root = none by rw [eraseHeap, hroot]; rfl] at hplain
      cases hplain
      refine ⟨none, rfl, ?_, rfl⟩
      cases hviews with
      | empty hvalues => exact .empty hvalues
  | some current =>
      have hcurrent := h.admitted current hroot
      have hplainRoot :
          (eraseHeap heap).root = some (.tree current.treeRank (entryOf policy current)
          (eraseForest policy (expose policy current).treeChildren)) := by
        rw [eraseHeap, hroot, Option.map_some, erase_exposed hcurrent,
          ← erase_value_exposed hcurrent,
          erase_value]
      have hadmitted := @exposed_children _ _ _ policy _ _ _ hcurrent
      rw [hplainRoot] at hplain
      dsimp only
      generalize (expose policy current).treeChildren = children at hplain hadmitted ⊢
      cases children with
      | nil =>
          change (if heap.total = 1 then _ else _) = _ at hplain
          dsimp only
          split at hplain
          · next hsingle =>
            cases hplain
            rw [if_pos hsingle]
            refine ⟨_, rfl, ?_, rfl⟩
            cases hviews with
            | least hvalues hleast hrest =>
                exact .least hvalues hleast
                  ⟨fun _ hnone => (Option.some_ne_none _ hnone.symm).elim, hrest⟩
          · cases hplain
      | cons pending rawHead rawTail =>
          obtain ⟨total, htotal, hplain⟩ := bind_eq_ok.mp hplain
          obtain ⟨root, hpromoted, hplain⟩ := bind_eq_ok.mp hplain
          cases hplain
          obtain ⟨made, hmade, hmadeAdmitted, hmadeErased⟩ :=
            promote_simulates hadmitted root hpromoted
          have hsubtract : checkedSubtract heap.total 1 = .ok total := by
            rw [BrodalOkasakiHeap.checkedSubtract] at htotal
            rw [checkedSubtract]
            split at htotal
            · cases htotal
            · next hfits =>
              cases htotal
              exact if_neg hfits
          dsimp only
          rw [hsubtract, except_ok_bind, hmade, except_ok_bind]
          refine ⟨_, rfl, ?_, rfl⟩
          cases hviews with
          | least hvalues hleast hrest =>
              refine .least hvalues hleast (Shows.of_erase hmadeAdmitted ?_)
              rw [hmadeErased]
              exact hrest

theorem exists_view (h : Shows admissible heap values) :
    ∃ view, minView heap = .ok view ∧ Views (entryLe policy) (Shows admissible) values view :=
  (minView_views h).imp fun _ hview => ⟨hview.1, hview.2.1⟩

omit ordered in
theorem walk_coe (pending : List (Tree element priority action))
    (hpending : ∀ tree ∈ pending, TreeAdmitted admissible tree) :
    (walk policy pending : Multiset (MonotoneHeapEntry element priority)) =
      BrodalOkasakiHeap.forestBag (pending.map (erase policy)) := by
  induction hsize : (pending.map treeSize).sum using Nat.strongRecOn generalizing pending with
  | ind total ih =>
      rw [walk.eq_def]
      split
      · rfl
      · next tagged pending =>
        obtain ⟨htagged, hpending⟩ := forall_mem_cons.mp hpending
        obtain ⟨hlist, hlistAdmitted⟩ :=
          @forestToList_spec _ _ _ policy _ _ _ (@exposed_children _ _ _ policy _ _ _ htagged)
        rw [map_cons, sum_cons, treeSize_eq] at hsize
        dsimp only
        rw [← Multiset.cons_coe, ih _ _ (forestToList policy (expose policy tagged).treeChildren ++
          pending) _ rfl, map_append, hlist, BrodalOkasakiHeap.forestBag_append, map_cons,
          BrodalOkasakiHeap.forestBag_cons, BrodalOkasakiHeap.bag_eq, erase_children htagged,
          erase_value_exposed htagged, ← Multiset.singleton_add, add_assoc]
        · rw [map_append, sum_append, sizes_forestToList, forestSize_expose]
          omega
        · intro tree htree
          rcases mem_append.mp htree with htree | htree
          · exact hlistAdmitted tree htree
          · exact hpending tree htree

omit ordered in
theorem toList_coe (h : Shows admissible heap values) :
    (toList heap : Multiset (MonotoneHeapEntry element priority)) = values := by
  rw [← h.represents.bag_eq, toList, BrodalOkasakiHeap.bag, eraseHeap]
  cases hroot : heap.root with
  | none => rfl
  | some current =>
      dsimp only
      have hcurrent : ∀ tree ∈ [current], TreeAdmitted admissible tree :=
        forall_mem_singleton.mpr (h.admitted current hroot)
      rw [walk_coe [current] hcurrent, map_singleton, BrodalOkasakiHeap.forestBag_cons,
        BrodalOkasakiHeap.forestBag_nil, add_zero]
      rfl

end Lawful

end Durable7.FingerTree.PersistentMonotoneActionHeap
