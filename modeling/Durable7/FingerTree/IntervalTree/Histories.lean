import Durable7.FingerTree.IntervalTree.Refinement
import Durable7.Foundation.Branching

/-!
# Histories of interval trees

Every version of every branching history shows the ordered list of the model.
-/

namespace Durable7.FingerTree.IntervalTree

open Foundation List

variable {a : Type}

/-- One edit.  Versions are numbered in the order they were made. -/
inductive Edit (a : Type) where
  | empty
  | singleton (interval : Interval a)
  | fromList (intervals : List (Interval a))
  | insert (version : Nat) (interval : Interval a)
  | delete (version : Nat) (interval : Interval a)
  | deleteAt (version : Nat) (position : Int)
  | coalesce (version : Nat)

variable [Ord a]

instance (interval : Interval a) : Decidable (Proper interval) :=
  inferInstanceAs (Decidable (_ = true))

/-- An inverted interval is rejected. -/
def ListModel.insertProper (interval : Interval a) (items : List (Interval a)) :
    Except String (List (Interval a)) :=
  if Proper interval then .ok (ListModel.insert interval items)
  else .error "Durable7.FingerTree.IntervalTree.insert: invalid interval"

def ListModel.fromList (intervals : List (Interval a)) : Except String (List (Interval a)) :=
  intervals.foldlM (fun items interval => ListModel.insertProper interval items) []

def ListModel.produce (models : List (List (Interval a))) :
    Edit a → Except String (List (List (Interval a)))
  | .empty => .ok [[]]
  | .singleton interval => (ListModel.insertProper interval []).map fun made => [made]
  | .fromList intervals => (ListModel.fromList intervals).map fun made => [made]
  | .insert version interval => onVersion models version fun items =>
      (ListModel.insertProper interval items).map fun made => [made]
  | .delete version interval => onVersion models version fun items =>
      .ok [ListModel.delete interval items]
  | .deleteAt version position => onVersion models version fun items =>
      .ok (ListModel.deleteAt position items).toList
  | .coalesce version => onVersion models version fun items => .ok [ListModel.coalesce items]

variable [Std.TransOrd a]

def produce (versions : List (IntervalTree a)) : Edit a → Except String (List (IntervalTree a))
  | .empty => .ok [empty]
  | .singleton interval => (singleton interval).map fun made => [made]
  | .fromList intervals => (fromList intervals).map fun made => [made]
  | .insert version interval => onVersion versions version fun tree =>
      (insert interval tree).map fun made => [made]
  | .delete version interval => onVersion versions version fun tree => .ok [delete interval tree]
  | .deleteAt version position => onVersion versions version fun tree =>
      .ok (deleteAt position tree).toList
  | .coalesce version => onVersion versions version fun tree =>
      (coalesce tree).map fun made => [made]

/-! ## Refinement -/

structure Refines (tree : IntervalTree a) (items : List (Interval a)) : Prop where
  listed : toList tree = items
  ascending : Ascending items
  proper : ∀ item ∈ items, Proper item

variable {tree : IntervalTree a} {items : List (Interval a)}

theorem refines_empty : Refines (empty : IntervalTree a) [] :=
  ⟨treeList_empty, .nil, forall_mem_nil _⟩

section

variable (h : Refines tree items)
include h

theorem insert_agrees (interval : Interval a) :
    Agrees Refines (insert interval tree) (ListModel.insertProper interval items) := by
  obtain ⟨rfl, hascending, hproper⟩ := h
  rw [ListModel.insertProper]
  by_cases hinterval : Proper interval
  · obtain ⟨next, hnext, hlisted⟩ := toList_insert hascending hinterval
    rw [if_pos hinterval, hnext, ← hlisted]
    refine .ok ⟨rfl, ?_, ?_⟩
    · rw [hlisted]
      exact ascending_insert hascending
    · rw [hlisted]
      exact mem_insert_proper hproper hinterval
  · rw [if_neg hinterval, insert_improper hinterval]
    exact .error _

theorem fold_agrees (intervals : List (Interval a)) :
    Agrees Refines (intervals.foldlM (fun tree interval => insert interval tree) tree)
      (intervals.foldlM (fun items interval => ListModel.insertProper interval items) items) :=
  foldlM_agrees (fun _ _ interval hrefines => insert_agrees hrefines interval) intervals h

theorem refines_delete (interval : Interval a) :
    Refines (delete interval tree) (ListModel.delete interval items) := by
  obtain ⟨rfl, hascending, hproper⟩ := h
  exact ⟨toList_delete hascending interval, hascending.sublist (eraseP_sublist),
    fun item hitem => hproper item (mem_of_mem_eraseP hitem)⟩

theorem refines_deleteAt (position : Int) :
    Option.Rel Refines (deleteAt position tree) (ListModel.deleteAt position items) := by
  obtain ⟨rfl, hascending, hproper⟩ := h
  rcases deleteAt_cases position tree with ⟨hnone, hout⟩ | ⟨next, hnext, hin, hlisted⟩
  · rw [hnone, ListModel.deleteAt, if_pos hout]
    exact .none
  · rw [hnext, ListModel.deleteAt, if_neg hin]
    exact .some ⟨hlisted, hascending.sublist (eraseIdx_sublist _ _),
      fun item hitem => hproper item (mem_of_mem_eraseIdx hitem)⟩

end

theorem foldlM_ascending {rest : List (Interval a)}
    (hless : (toList tree ++ rest).Pairwise fun before after => compare before.low after.low = .lt)
    (hproper : ∀ item ∈ rest, Proper item) :
    ∃ made, rest.foldlM (fun tree interval => insert interval tree) tree = .ok made ∧
      toList made = toList tree ++ rest := by
  induction rest generalizing tree with
  | nil => exact ⟨tree, rfl, (append_nil _).symm⟩
  | cons interval rest ih =>
      rw [forall_mem_cons] at hproper
      have hfront : ∀ item ∈ toList tree, compare item.low interval.low = .lt := fun item hitem =>
        (pairwise_append.mp hless).2.2 item hitem interval mem_cons_self
      have hascending : Ascending (toList tree) :=
        (pairwise_append.mp hless).1.imp fun hlt => by rw [hlt]; rfl
      obtain ⟨next, hnext, hlisted⟩ := toList_insert hascending hproper.1
      obtain ⟨hbelow, hatLeast⟩ := cut_eq hfront (forall_mem_nil _)
      rw [append_nil] at hbelow hatLeast
      rw [ListModel.insert, hbelow, hatLeast] at hlisted
      obtain ⟨made, hmade, hmadeList⟩ := @ih next
        (by rw [hlisted, append_assoc]; exact hless) hproper.2
      refine ⟨made, ?_, ?_⟩
      · rw [foldlM_cons, hnext]
        exact hmade
      · rw [hmadeList, hlisted, append_assoc]
        rfl

theorem coalesce_refines (h : Refines tree items) :
    ∃ merged, coalesce tree = .ok merged ∧ Refines merged (ListModel.coalesce items) := by
  obtain ⟨rfl, hascending, hproper⟩ := h
  obtain ⟨hseparated, hkept, -⟩ := coalesce_spec hproper hascending
  have hless := hseparated.low_lt hkept
  have hempty : toList (empty : IntervalTree a) = [] := treeList_empty
  obtain ⟨merged, hmerged, hlisted⟩ := @foldlM_ascending _ _ _ (empty : IntervalTree a)
    (ListModel.coalesce (toList tree)) (by rw [hempty]; exact hless) hkept
  rw [hempty] at hlisted
  refine ⟨merged, ?_, hlisted, hless.imp fun hlt => by rw [hlt]; rfl, hkept⟩
  rw [coalesce, mergeSorted_eq]
  exact hmerged

theorem produce_agrees (versions : List (IntervalTree a)) (models : List (List (Interval a)))
    (edit : Edit a) (h : List.Forall₂ Refines versions models) :
    Agrees (List.Forall₂ Refines) (produce versions edit) (ListModel.produce models edit) := by
  cases edit with
  | empty => exact .ok (.cons refines_empty .nil)
  | singleton interval => exact single_agrees (insert_agrees refines_empty interval)
  | fromList intervals => exact single_agrees (fold_agrees refines_empty intervals)
  | insert version interval =>
      exact onVersion_agrees h version fun _ _ hrefines =>
        single_agrees (insert_agrees hrefines interval)
  | delete version interval =>
      exact onVersion_agrees h version fun _ _ hrefines =>
        .ok (.cons (refines_delete hrefines interval) .nil)
  | deleteAt version position =>
      exact onVersion_agrees h version fun _ _ hrefines =>
        .ok (toList_refines (refines_deleteAt hrefines position))
  | coalesce version =>
      exact onVersion_agrees h version fun _ _ hrefines =>
        single_agrees (.total (coalesce_refines hrefines))

/-- A merge of the intervals of a list. -/
structure Coalesced (merged : IntervalTree a) (items : List (Interval a)) : Prop where
  separated : Separated (toList merged)
  proper : ∀ item ∈ toList merged, Proper item
  lowOrder : Ascending (toList merged)
  covered : ∀ point, CoveredBy (toList merged) point ↔ CoveredBy items point
  idempotent : ∃ again, coalesce merged = .ok again ∧ toList again = toList merged

/-- What a version shows of its list. -/
structure Observes (tree : IntervalTree a) (items : List (Interval a)) : Prop where
  contents : toList tree = items
  ascending : Ascending items
  proper : ∀ item ∈ items, Proper item
  counted : count tree = items.length
  isEmpty : null tree = items.isEmpty
  overlaps : ∀ probe, findOverlaps probe tree = items.filter (meets probe)
  meeting : ∀ probe, Proper probe → ∀ item ∈ items,
    (meets probe item = true ↔ ∃ point, Covers item point ∧ Covers probe point)
  overlap : ∀ probe, findOverlap probe tree = (findOverlaps probe tree).head?
  overlapCount : ∀ probe, countOverlaps probe tree = (findOverlaps probe tree).length
  containing : ∀ point, findContaining point tree = (findOverlaps ⟨point, point⟩ tree).head?
  holds : ∀ interval, contains interval tree = items.any fun item => sameInterval item interval
  selects : ∀ position, index position tree = elementAt position items
  ranksBelow : ∀ target, lowerBoundRank target tree =
    (below compare Interval.low target items).length
  ranksAtMost : ∀ target, upperBoundRank target tree =
    (atMost compare Interval.low target items).length
  coalesced : ∃ merged, coalesce tree = .ok merged ∧ Coalesced merged items

theorem Refines.coalesced (h : Refines tree items) :
    ∃ merged, coalesce tree = .ok merged ∧ Coalesced merged items := by
  obtain ⟨merged, hmerged, hrefines⟩ := coalesce_refines h
  obtain ⟨hseparated, hkept, hcovered⟩ := coalesce_spec h.proper h.ascending
  obtain ⟨again, hagain, hagainRefines⟩ := coalesce_refines hrefines
  have hlisted := hrefines.listed
  refine ⟨merged, hmerged, ?_⟩
  refine ⟨hlisted ▸ hseparated, hlisted ▸ hkept, hlisted ▸ hrefines.ascending, ?_, again, hagain,
    ?_⟩
  · rw [hlisted]
    exact hcovered
  · rw [hagainRefines.listed, hlisted, coalesce_separated hseparated]

theorem Refines.observes (h : Refines tree items) : Observes tree items := by
  have hcoalesced := h.coalesced
  obtain ⟨rfl, hascending, hproper⟩ := h
  have hoverlaps := findOverlaps_eq hascending
  have hoverlap : ∀ probe, findOverlap probe tree = (findOverlaps probe tree).head? := by
    intro probe
    rw [hoverlaps, findOverlap_eq hascending]
  refine ⟨rfl, hascending, hproper, count_eq tree, ?_, hoverlaps, ?_, hoverlap, ?_,
    fun point => hoverlap ⟨point, point⟩, contains_eq hascending,
    fun position => index_eq position tree, lowerBoundRank_eq hascending,
    upperBoundRank_eq hascending, hcoalesced⟩
  · rw [Bool.eq_iff_iff, null_iff, List.isEmpty_iff]
  · intro probe hprobe item hitem
    exact meets_iff hprobe (hproper item hitem)
  · intro probe
    rw [hoverlaps, countOverlaps_eq hascending]

theorem intervals_exact (edits : List (Edit a)) :
    List.Forall₂ Observes (grow produce [] edits) (grow ListModel.produce [] edits) ∧
    ∀ edit, Agrees (List.Forall₂ Observes) (produce (grow produce [] edits) edit)
      (ListModel.produce (grow ListModel.produce [] edits) edit) := by
  have hversions : List.Forall₂ Refines (grow produce [] edits) (grow ListModel.produce [] edits) :=
    grow_refines produce_agrees .nil edits
  refine ⟨hversions.imp fun _ _ h => h.observes, fun edit => ?_⟩
  exact (produce_agrees _ _ edit hversions).imp fun _ _ h =>
    h.imp fun _ _ hrefines => hrefines.observes

def nestedEdits : List (Edit Nat) :=
  [.fromList [⟨1, 9⟩, ⟨2, 3⟩, ⟨2, 3⟩, ⟨9, 12⟩], .delete 0 ⟨2, 3⟩, .coalesce 1, .insert 2 ⟨14, 13⟩,
    .deleteAt 1 0]

theorem grow_observes_nested :
    List.Forall₂ Observes (grow produce [] nestedEdits) (grow ListModel.produce [] nestedEdits) :=
  (intervals_exact nestedEdits).1

end Durable7.FingerTree.IntervalTree
