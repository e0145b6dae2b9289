import Durable7.FingerTree.AncestralSliceQueue.Operations
import Durable7.Foundation.Branching

/-!
# Edits of ancestral slice queues

Every operation does to the shown list what the list model does, as long as the root paths
fit the source's `Int`.
-/

namespace Durable7.FingerTree.AncestralSliceQueue

open IncrementalAncestor Int Nat Foundation List
open RrbVector (maxBound)

variable {α : Type}

/-! ## Operations -/

section Operations

variable {additions : Nat} {queue : AncestralSliceQueue α} {values : List α}

theorem refines_empty : Refines additions (empty : AncestralSliceQueue α) [] where
  window := ⟨[], .bottom, rfl, rfl, rfl⟩
  bounded := zero_le _

theorem addLast_refines (h : Refines additions queue values) (hroom : additions + 1 ≤ maxBound)
    (value : α) :
    ∃ next, addLast queue value = .ok next ∧ Refines (additions + 1) next (values ++ [value]) := by
  obtain ⟨before, hwindow⟩ := h.window
  have hbounded := h.bounded
  have hlength := hwindow.length_eq
  have hcounted := hwindow.counted
  have hlow := hwindow.low_eq
  refine ⟨_, if_neg (by omega), ⟨before, ?_, ?_, hlow, ?_⟩, ?_⟩
  · exact sound_addLeaf hwindow.sound value (by unfold maxBound at hroom; omega)
  · dsimp only
    rw [path_addLeaf, hwindow.shown, append_assoc]
  · rw [length_append, length_singleton]
    dsimp only
    omega
  · rw [path_addLeaf, length_append, length_singleton]
    omega

theorem fromList_refines (added : List α) (hroom : additions + added.length ≤ maxBound) :
    ∃ next, fromList added = .ok next ∧ Refines (additions + added.length) next added :=
  @foldlM_refines_within _ _ _ Refines addLast maxBound additions empty []
    (fun _ _ _ value h hroom => addLast_refines h hroom value) added refines_empty hroom

theorem Window.visible_zero {before : List α} (h : Window queue before values) :
    queue.visible = 0 ↔ values = [] := by
  rw [h.counted, ← length_eq_zero_iff]
  omega

section

variable (h : Refines additions queue values)
include h

theorem removeFirst_refines (hroom : additions ≤ maxBound) :
    ∃ next, removeFirst queue = .ok next ∧
      Option.Rel (Refines additions) next (ListModel.removeFirst values) := by
  obtain ⟨before, hwindow⟩ := h.window
  unfold removeFirst
  cases values with
  | nil => exact ⟨none, if_pos (hwindow.visible_zero.mpr rfl), .none⟩
  | cons value rest =>
      have hnonempty : queue.visible ≠ 0 :=
        fun hzero => cons_ne_nil _ _ (hwindow.visible_zero.mp hzero)
      have hadd := @Window.low_add _ _ _ _ hwindow 1 (by rw [length_cons]; omega)
        (le_trans h.bounded hroom)
      rw [Int.natCast_one] at hadd
      rw [if_neg hnonempty, hadd]
      have hdropped := @Window.dropped _ _ _ _ hwindow 1 (by rw [length_cons]; omega)
      exact ⟨_, rfl, .some ⟨⟨_, hdropped⟩, h.bounded⟩⟩

theorem removeLast_refines :
    ∃ next, removeLast queue = .ok next ∧
      Option.Rel (Refines additions) next (ListModel.removeLast values) := by
  obtain ⟨before, hwindow⟩ := h.window
  unfold removeLast
  cases values using List.reverseRecOn with
  | nil => exact ⟨none, if_pos (hwindow.visible_zero.mpr rfl), .none⟩
  | append_singleton front value =>
      have hnonempty : queue.visible ≠ 0 := fun hzero =>
        absurd (hwindow.visible_zero.mp hzero) (append_ne_nil_of_right_ne_nil _ (cons_ne_nil _ _))
      have hshown := hwindow.shown
      rw [← append_assoc] at hshown
      obtain ⟨-, parent, hparent, hsound, hpath⟩ := ends_with hwindow.sound hshown
      have hbounded := h.bounded
      rw [hshown, length_append, length_singleton] at hbounded
      have hcounted := hwindow.counted
      rw [length_append, length_singleton] at hcounted
      rw [if_neg hnonempty, hparent, ListModel.removeLast, if_neg (by simp), dropLast_concat]
      refine ⟨_, rfl, .some ⟨⟨before, hsound, hpath, hwindow.low_eq, ?_⟩, ?_⟩⟩
      · dsimp only
        omega
      · dsimp only
        rw [hpath]
        omega

theorem drop_refines (hroom : additions ≤ maxBound) (amount : Int) :
    ∃ next, drop amount queue = .ok next ∧
      Option.Rel (Refines additions) next (ListModel.drop amount values) := by
  obtain ⟨before, hwindow⟩ := h.window
  have hcounted := hwindow.counted
  rw [drop, ListModel.drop, hcounted]
  by_cases hout : amount < 0 ∨ amount > values.length
  · rw [if_pos hout, if_pos hout]
    exact ⟨none, rfl, .none⟩
  rw [if_neg hout, if_neg hout]
  obtain ⟨amount, rfl⟩ := eq_ofNat_of_zero_le (show 0 ≤ amount by omega)
  rw [toNat_natCast]
  by_cases hzero : (amount : Int) = 0
  · rw [if_pos hzero, show amount = 0 by omega]
    exact ⟨_, rfl, .some h⟩
  · rw [if_neg hzero, hwindow.low_add (by omega) (le_trans h.bounded hroom), ← hcounted]
    exact ⟨_, rfl, .some ⟨⟨_, hwindow.dropped (by omega)⟩, h.bounded⟩⟩

end

theorem selectTail_spec {before : List α} (h : Window queue before values)
    {position amount : Nat} (hinside : position + amount ≤ values.length) :
    ∃ found, selectTail queue (queue.low + position + amount - 1) (queue.low + queue.visible - 1) =
        .ok found ∧ Sound found ∧
      path found = (path queue.node).take (before.length + position + amount) := by
  have hlow := h.low_eq
  have hcounted := h.counted
  have hlength := h.length_eq
  unfold selectTail
  split
  · refine ⟨queue.node, rfl, h.sound, ?_⟩
    rw [take_of_length_le (by omega)]
  · exact expectAncestor_spec h (by omega) (by omega)

theorem slice_refines (h : Refines additions queue values) (hroom : additions ≤ maxBound)
    (position amount : Int) :
    ∃ next, slice position amount queue = .ok next ∧
      Option.Rel (Refines additions) next (ListModel.slice position amount values) := by
  obtain ⟨before, hwindow⟩ := h.window
  have hcounted := hwindow.counted
  have hlow := hwindow.low_eq
  have hlength := hwindow.length_eq
  have hbounded := h.bounded
  unfold slice ListModel.slice
  by_cases hout : position < 0 ∨ amount < 0 ∨ position + amount > values.length
  · rw [if_pos hout]
    by_cases hsign : position < 0 ∨ amount < 0
    · rw [if_pos hsign]
      exact ⟨none, rfl, .none⟩
    rw [if_neg hsign]
    by_cases hposition : position > queue.visible
    · rw [if_pos hposition]
      exact ⟨none, rfl, .none⟩
    · rw [if_neg hposition, if_pos (by omega)]
      exact ⟨none, rfl, .none⟩
  rw [if_neg hout, if_neg (by omega), if_neg (by omega), if_neg (by omega)]
  obtain ⟨position, rfl⟩ := eq_ofNat_of_zero_le (show 0 ≤ position by omega)
  obtain ⟨amount, rfl⟩ := eq_ofNat_of_zero_le (show 0 ≤ amount by omega)
  rw [toNat_natCast, toNat_natCast]
  by_cases hall : (position : Int) = 0 ∧ (amount : Int) = queue.visible
  · rw [if_pos hall, show position = 0 by omega, drop_zero, take_of_length_le (by omega)]
    exact ⟨_, rfl, .some h⟩
  · obtain ⟨found, hfound, hsound, hpath⟩ := selectTail_spec hwindow
      (show position + amount ≤ values.length by omega)
    rw [if_neg hall, checkedAdd_ok (by omega) (by omega) (by omega), except_bind_ok,
      checkedAdd_ok (by omega) (by omega) (by omega), except_bind_ok,
      checkedAdd_ok (by omega) (by omega) (by omega), except_bind_ok, hfound]
    refine ⟨_, rfl, .some ⟨⟨_, hwindow.sliced (by omega) hsound hpath⟩, ?_⟩⟩
    dsimp only
    rw [hpath, length_take]
    omega

theorem take_refines (h : Refines additions queue values) (hroom : additions ≤ maxBound)
    (amount : Int) :
    ∃ next, take amount queue = .ok next ∧
      Option.Rel (Refines additions) next (ListModel.take amount values) := by
  obtain ⟨before, hwindow⟩ := h.window
  have hcounted := hwindow.counted
  rw [take, ListModel.take, hcounted]
  by_cases hout : amount < 0 ∨ amount > values.length
  · rw [if_pos hout, if_pos hout]
    exact ⟨none, rfl, .none⟩
  rw [if_neg hout, if_neg hout]
  by_cases hall : amount = values.length
  · rw [if_pos hall, hall, toNat_natCast, take_length]
    exact ⟨_, rfl, .some h⟩
  · have hslice := slice_refines h hroom 0 amount
    rw [ListModel.slice, if_neg (by omega), toNat_zero, drop_zero] at hslice
    rw [if_neg hall]
    exact hslice

end Operations

/-!
## Histories of ancestral slice queues

Every version of every branching history shows the list of the model, as long as the history
adds no more values than the source's `Int` can count.
-/

/-- One edit.  Versions are numbered in the order they were made. -/
inductive Edit (α : Type) where
  | empty
  | fromList (values : List α)
  | addLast (version : Nat) (value : α)
  | removeFirst (version : Nat)
  | removeLast (version : Nat)
  | take (amount : Int) (version : Nat)
  | drop (amount : Int) (version : Nat)
  | slice (position amount : Int) (version : Nat)
  | splitAt (position : Int) (version : Nat)

def produce (versions : List (AncestralSliceQueue α)) :
    Edit α → Except QueueError (List (AncestralSliceQueue α))
  | .empty => .ok [empty]
  | .fromList values => (fromList values).map fun made => [made]
  | .addLast version value => onVersion versions version fun queue =>
      (addLast queue value).map fun made => [made]
  | .removeFirst version => onVersion versions version fun queue =>
      (removeFirst queue).map Option.toList
  | .removeLast version => onVersion versions version fun queue =>
      (removeLast queue).map Option.toList
  | .take amount version => onVersion versions version fun queue =>
      (take amount queue).map Option.toList
  | .drop amount version => onVersion versions version fun queue =>
      (drop amount queue).map Option.toList
  | .slice position amount version => onVersion versions version fun queue =>
      (slice position amount queue).map Option.toList
  | .splitAt position version => onVersion versions version fun queue =>
      (splitAt position queue).map partsList

/-- Nothing fails on lists. -/
def ListModel.produce (models : List (List α)) : Edit α → Except QueueError (List (List α))
  | .empty => .ok [[]]
  | .fromList values => .ok [values]
  | .addLast version value => onVersion models version fun values => .ok [values ++ [value]]
  | .removeFirst version => onVersion models version fun values =>
      .ok (ListModel.removeFirst values).toList
  | .removeLast version => onVersion models version fun values =>
      .ok (ListModel.removeLast values).toList
  | .take amount version => onVersion models version fun values =>
      .ok (ListModel.take amount values).toList
  | .drop amount version => onVersion models version fun values =>
      .ok (ListModel.drop amount values).toList
  | .slice position amount version => onVersion models version fun values =>
      .ok (ListModel.slice position amount values).toList
  | .splitAt position version => onVersion models version fun values =>
      .ok (partsList (ListModel.splitAt position values))

/-- How many values an edit adds. -/
def additions : Edit α → Nat
  | .fromList values => values.length
  | .addLast _ _ => 1
  | _ => 0

section Steps

variable {spent : Nat} {queue : AncestralSliceQueue α} {values : List α}

theorem optional_agrees {result : Except QueueError (Option (AncestralSliceQueue α))}
    {expected : Option (List α)}
    (h : ∃ next, result = .ok next ∧ Option.Rel (Refines spent) next expected) :
    Agrees (List.Forall₂ (Refines spent)) (result.map Option.toList) (.ok expected.toList) :=
  (Agrees.total h).map fun _ _ => toList_refines

theorem splitAt_agrees (h : Refines spent queue values) (hroom : spent ≤ maxBound)
    (position : Int) :
    Agrees (List.Forall₂ (Refines spent)) ((splitAt position queue).map partsList)
      (.ok (partsList (ListModel.splitAt position values))) := by
  obtain ⟨left, hleft, hleftRefines⟩ := take_refines h hroom position
  obtain ⟨right, hright, hrightRefines⟩ := drop_refines h hroom position
  rw [splitAt, hleft, except_bind_ok, hright]
  rw [ListModel.take] at hleftRefines
  rw [ListModel.drop] at hrightRefines
  rw [ListModel.splitAt]
  split at hleftRefines
  · rename_i hout
    rw [if_pos hout] at hrightRefines ⊢
    cases hleftRefines
    cases hrightRefines
    exact .ok .nil
  · rename_i hout
    rw [if_neg hout] at hrightRefines ⊢
    cases hleftRefines with
    | some hleftRelated =>
        cases hrightRefines with
        | some hrightRelated => exact .ok (.cons hleftRelated (.cons hrightRelated .nil))

theorem produce_agrees (spent : Nat) (versions : List (AncestralSliceQueue α))
    (models : List (List α)) (edit : Edit α) (hroom : spent + additions edit ≤ maxBound)
    (h : List.Forall₂ (Refines spent) versions models) :
    Agrees (List.Forall₂ (Refines (spent + additions edit))) (produce versions edit)
      (ListModel.produce models edit) := by
  cases edit with
  | empty => exact .ok (.cons refines_empty .nil)
  | fromList values => exact single_agrees (.total (fromList_refines values hroom))
  | addLast version value =>
      exact onVersion_agrees h version fun _ _ hrefines =>
        single_agrees (.total (addLast_refines hrefines hroom value))
  | removeFirst version =>
      exact onVersion_agrees h version fun _ _ hrefines =>
        optional_agrees (removeFirst_refines hrefines hroom)
  | removeLast version =>
      exact onVersion_agrees h version fun _ _ hrefines =>
        optional_agrees (removeLast_refines hrefines)
  | take amount version =>
      exact onVersion_agrees h version fun _ _ hrefines =>
        optional_agrees (take_refines hrefines hroom amount)
  | drop amount version =>
      exact onVersion_agrees h version fun _ _ hrefines =>
        optional_agrees (drop_refines hrefines hroom amount)
  | slice position amount version =>
      exact onVersion_agrees h version fun _ _ hrefines =>
        optional_agrees (slice_refines hrefines hroom position amount)
  | splitAt position version =>
      exact onVersion_agrees h version fun _ _ hrefines => splitAt_agrees hrefines hroom position

end Steps

/-! ### Observations -/

/-- What a version shows of its list. -/
structure Observes (queue : AncestralSliceQueue α) (values : List α) : Prop where
  contents : toList queue = .ok values
  counted : count queue = values.length
  empty : null queue = values.isEmpty
  reads : ∀ position, index position queue = .ok (elementAt position values)
  head : first queue = .ok values.head?
  tail : last queue = .ok values.getLast?
  valid : ∃ statistics, validateStructure queue = .ok statistics ∧
    statistics.validationCount = values.length

section Observations

variable {queue : AncestralSliceQueue α} {before values : List α}

theorem last_eq (h : Window queue before values) : last queue = .ok values.getLast? := by
  unfold last
  cases values using List.reverseRecOn with
  | nil => exact if_pos (h.visible_zero.mpr rfl)
  | append_singleton front value =>
      have hnonempty : queue.visible ≠ 0 := fun hzero =>
        absurd (h.visible_zero.mp hzero) (append_ne_nil_of_right_ne_nil _ (cons_ne_nil _ _))
      have hshown := h.shown
      rw [← append_assoc] at hshown
      rw [if_neg hnonempty, (ends_with h.sound hshown).1, List.getLast?_append]
      rfl

theorem index_eq (h : Window queue before values)
    (hroom : (path queue.node).length ≤ maxBound) (position : Int) :
    index position queue = .ok (elementAt position values) := by
  have hcounted := h.counted
  have hlow := h.low_eq
  have hlength := h.length_eq
  rw [index, elementAt]
  by_cases hnegative : position < 0
  · rw [if_pos (.inl hnegative), if_pos hnegative]
  rw [if_neg hnegative]
  obtain ⟨position, rfl⟩ := eq_ofNat_of_zero_le (show 0 ≤ position by omega)
  rw [toNat_natCast]
  by_cases hhigh : position ≥ values.length
  · rw [if_pos (by omega), List.getElem?_eq_none hhigh]
  rw [if_neg (by omega)]
  by_cases hfinal : (position : Int) = queue.visible - 1
  · have hlast := last_eq h
    rw [last, if_neg (by omega)] at hlast
    rw [if_pos hfinal, hlast, List.getLast?_eq_getElem?]
    rw [show values.length - 1 = position by omega]
  · have htaken : before ++ values.take (position + 1) =
        (before ++ values.take position) ++ [values[position]] := by
      rw [append_assoc, take_append_getElem (by omega)]
    obtain ⟨found, hfound, hsound, hpath⟩ := @expectAncestor_spec _ _ _ _ h
      (before.length + (position + 1)) (by omega) (queue.low + position) (by omega)
    rw [h.shown, take_length_add_append, htaken] at hpath
    rw [if_neg hfinal, checkedAdd_ok (by omega) (by omega) (by omega), except_bind_ok, hfound,
      except_bind_ok, (ends_with hsound hpath).1, List.getElem?_eq_getElem (by omega)]
    rfl

theorem walkWindow_spec {node : Node α} (hsound : Sound node) (front values : List α)
    (h : path node = front ++ values) (visited : Int) :
    walkWindow front.length node visited = .ok (visited + values.length) := by
  induction hsound generalizing values visited with
  | bottom =>
      rw [path, eq_comm, append_eq_nil_iff] at h
      rw [h.1, h.2, walkWindow, if_pos (by rw [length_nil]; rfl)]
      exact congrArg Except.ok (add_zero visited).symm
  | @labelled value parent skip depth skipDistance hparent _ hdepth _ ih =>
      have hlength := congrArg List.length h
      rw [path, length_append, length_append, length_singleton] at hlength
      rw [walkWindow]
      split
      · rw [show values.length = 0 by omega]
        exact congrArg Except.ok (add_zero visited).symm
      · cases values using List.reverseRecOn with
        | nil =>
            rw [length_nil] at hlength
            omega
        | append_singleton values last =>
            rw [path, ← append_assoc] at h
            rw [ih values (append_inj' h rfl).1 (visited + 1), length_append,
              length_singleton, add_assoc, add_comm 1, natCast_add]
            rfl

theorem validateStructure_spec (h : Window queue before values) :
    ∃ statistics, validateStructure queue = .ok statistics ∧
      statistics.validationCount = values.length := by
  have hcounted := h.counted
  have hlow := h.low_eq
  have hdepth := h.depth_eq
  obtain ⟨statistics, hok, -, -⟩ := IncrementalAncestor.validateStructure_spec h.sound
  rw [validateStructure, if_neg (by omega), if_neg (by omega), if_neg (by omega), hok,
    except_bind_ok, hlow, walkWindow_spec h.sound before values h.shown 0, except_bind_ok,
    if_neg (by omega)]
  exact ⟨_, rfl, zero_add _⟩

theorem observes_of_refines {spent : Nat} (h : Refines spent queue values)
    (hroom : spent ≤ maxBound) : Observes queue values := by
  obtain ⟨before, hwindow⟩ := h.window
  have hreads := index_eq hwindow (le_trans h.bounded hroom)
  refine ⟨hwindow.toList_eq, hwindow.counted, ?_, hreads, ?_, last_eq hwindow,
    validateStructure_spec hwindow⟩
  · rw [null, count, Bool.eq_iff_iff, beq_iff_eq, hwindow.visible_zero, List.isEmpty_iff]
  · rw [first, hreads, elementAt, if_neg (by decide), List.head?_eq_getElem?]
    rfl

end Observations

/-- How many values a history adds. -/
def totalAdditions (edits : List (Edit α)) : Nat := (edits.map additions).sum

theorem queues_exact (edits : List (Edit α)) (h : totalAdditions edits ≤ maxBound) :
    List.Forall₂ Observes (grow produce [] edits) (grow ListModel.produce [] edits) ∧
    ∀ edit, totalAdditions edits + additions edit ≤ maxBound →
      Agrees (List.Forall₂ Observes) (produce (grow produce [] edits) edit)
        (ListModel.produce (grow ListModel.produce [] edits) edit) :=
  grow_observes_within (fun _ more _ _ hrefines => hrefines.mono more) produce_agrees
    (fun _ _ _ => observes_of_refines) edits h

theorem queues_exact_branches :
    List.Forall₂ Observes
      (grow produce [] [.fromList [1, 2, 3, 4], .slice 1 2 0, .addLast 1 7, .drop 4 0,
        .addLast 3 9, .take 0 1, .addLast 5 8, .splitAt 2 0])
      (grow ListModel.produce [] [.fromList [1, 2, 3, 4], .slice 1 2 0, .addLast 1 7, .drop 4 0,
        .addLast 3 9, .take 0 1, .addLast 5 8, .splitAt 2 0]) :=
  (queues_exact _ (by decide)).1

/-- The append after the last length the source's `Int` can count fails. -/
theorem queues_overflow :
    ¬ ∀ edits : List (Edit Unit),
      List.Forall₂ Observes (grow produce [] edits) (grow ListModel.produce [] edits) := by
  refine grow_overflows (fun _ more _ _ hrefines => hrefines.mono more) produce_agrees .empty
    (fun version => .addLast version ()) (fun length => List.replicate length ())
    ⟨rfl, fun _ => rfl⟩ rfl ?_ ?_
  · intro models version hpicked
    rw [ListModel.produce, onVersion, hpicked, replicate_succ']
    rfl
  intro versions version hpicked hrefines
  obtain ⟨before, hwindow⟩ := hrefines.window
  have hvisible := hwindow.counted
  rw [length_replicate] at hvisible
  rw [produce, onVersion, hpicked, Option.elim_some, addLast, if_pos hvisible]
  rfl

end Durable7.FingerTree.AncestralSliceQueue
