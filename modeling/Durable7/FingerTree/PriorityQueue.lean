import Durable7.FingerTree.Measured.Searches
import Durable7.Foundation.Branching
import Mathlib.Data.List.Sort

/-!
# Stable priority queues

Entries stay in the order of arrival, and the measure remembers the least priority.  The front is
the first entry whose priority is at most the remembered one.
-/

namespace Durable7.FingerTree

open Foundation List Measured.ValidTree Std.TransCmp

variable {p a : Type} [Ord p]

@[ext]
structure PrioritySummary (p : Type) where
  count : BitVec 64
  minimumPriority : Option p

abbrev Entry (p a : Type) := p × a

namespace PrioritySummary

def combineMin : Option p → Option p → Option p
  | none, right => right
  | left, none => left
  | some left, some right => some (if (compare left right).isLE then left else right)

def hasPriorityAtMost (target : p) (summary : PrioritySummary p) : Bool :=
  summary.minimumPriority.any fun priority => (compare priority target).isLE

variable [Std.TransOrd p]

theorem isLE_of_not {left right : p} (h : ¬ (compare left right).isLE) :
    (compare right left).isLE := by
  rw [← Std.OrientedCmp.isGE_iff_isLE]
  cases hcompare : compare left right <;> simp_all

theorem combineMin_assoc (left middle right : Option p) :
    combineMin (combineMin left middle) right = combineMin left (combineMin middle right) := by
  cases left <;> cases middle <;> cases right <;> simp only [combineMin, Option.some_inj]
  rename_i left middle right
  by_cases hleft : (compare left middle).isLE <;> by_cases hright : (compare middle right).isLE <;>
    simp only [hleft, hright, if_true, if_false, Bool.false_eq_true]
  · simp [isLE_trans hleft hright]
  · rw [if_neg]
    exact fun hle => hleft (isLE_trans hle (isLE_of_not hright))

instance : Monoid (PrioritySummary p) where
  one := ⟨0, none⟩
  mul left right :=
    ⟨left.count + right.count, combineMin left.minimumPriority right.minimumPriority⟩
  one_mul summary := by
    ext1
    · exact BitVec.zero_add _
    · rfl
  mul_one summary := by
    ext1
    · exact BitVec.add_zero _
    · change combineMin summary.minimumPriority none = _
      cases summary.minimumPriority <;> rfl
  mul_assoc first second third := by
    ext1
    · exact BitVec.add_assoc _ _ _
    · exact combineMin_assoc _ _ _

theorem hasPriorityAtMost_mul (target : p) (left right : PrioritySummary p) :
    hasPriorityAtMost target (left * right) =
      (hasPriorityAtMost target left || hasPriorityAtMost target right) := by
  change (combineMin _ _).any _ = _
  unfold hasPriorityAtMost
  cases left.minimumPriority <;> cases right.minimumPriority <;> simp [combineMin]
  rename_i left right
  split
  · rename_i hle
    exact Bool.eq_iff_iff.mpr (by simp; exact isLE_trans hle)
  · rename_i hgt
    exact Bool.eq_iff_iff.mpr (by simp; exact isLE_trans (isLE_of_not hgt))

end PrioritySummary

open PrioritySummary

variable [Std.TransOrd p]

instance : Measured (PrioritySummary p) (Entry p a) where
  measure entry := ⟨1, some entry.1⟩

structure PriorityQueue (p a : Type) [Ord p] [Std.TransOrd p] where
  tree : Measured.ValidTree (PrioritySummary p) (Entry p a)

namespace PriorityQueue

def empty : PriorityQueue p a := ⟨.empty⟩

def toList (queue : PriorityQueue p a) : List (p × a) := queue.tree.toList

def enqueue (priority : p) (value : a) (queue : PriorityQueue p a) : PriorityQueue p a :=
  ⟨queue.tree.snoc (priority, value)⟩

def meld (left right : PriorityQueue p a) : PriorityQueue p a := ⟨left.tree.append right.tree⟩

def splitFront (queue : PriorityQueue p a) :
    Option (Measured.ValidTree (PrioritySummary p) (Entry p a) × Entry p a ×
      Measured.ValidTree (PrioritySummary p) (Entry p a)) :=
  match queue.tree.measure.minimumPriority with
  | none => none
  | some target => queue.tree.split (hasPriorityAtMost target)

def peek (queue : PriorityQueue p a) : Option (a × p) :=
  (splitFront queue).map fun parts => (parts.2.1.2, parts.2.1.1)

def dequeue (queue : PriorityQueue p a) : Option ((a × p) × PriorityQueue p a) :=
  (splitFront queue).map fun parts => ((parts.2.1.2, parts.2.1.1), ⟨parts.1.append parts.2.2⟩)

/-- The entries in the order in which they leave. -/
def drain : Nat → PriorityQueue p a → List (p × a)
  | 0, _ => []
  | fuel + 1, queue =>
    match dequeue queue with
    | none => []
    | some ((value, priority), rest) => (priority, value) :: drain fuel rest

/-! ## The model -/

abbrev Precedes (entry other : p × a) : Prop := (compare entry.1 other.1).isLE

def ListModel.dequeue (entries : List (p × a)) : Option ((a × p) × List (p × a)) :=
  (entries.findIdx? fun entry => entries.all fun other => Precedes entry other).bind fun place =>
    entries[place]?.map fun entry => ((entry.2, entry.1), entries.eraseIdx place)

/-- The first entry of least priority. -/
structure Front (front : List (p × a)) (entry : p × a) (back : List (p × a)) : Prop where
  before : ∀ other ∈ front, ¬ Precedes other entry
  least : ∀ other ∈ front ++ back, Precedes entry other

variable {front back entries : List (p × a)} {entry : p × a} {queue : PriorityQueue p a}

omit [Ord p] [Std.TransOrd p] in
theorem findIdx?_front {accepts : p × a → Bool} (hfront : ∀ other ∈ front, accepts other = false)
    (hentry : accepts entry = true) :
    (front ++ entry :: back).findIdx? accepts = some front.length := by
  simp [findIdx?_append, findIdx?_eq_none_iff.mpr hfront, hentry, findIdx?_cons]

theorem Front.listModel_dequeue (h : Front front entry back) :
    ListModel.dequeue (front ++ entry :: back) = some ((entry.2, entry.1), front ++ back) := by
  have hleast : ∀ other ∈ front ++ entry :: back, Precedes entry other := by
    intro other hother
    rcases mem_append.mp hother with hother | hother
    · exact h.least other (mem_append_left _ hother)
    · rcases mem_cons.mp hother with rfl | hother
      · exact Std.ReflCmp.isLE_rfl
      · exact h.least other (mem_append_right _ hother)
  rw [ListModel.dequeue, findIdx?_front]
  · simp [eraseIdx_append_of_length_le]
  · intro other hother
    exact all_eq_false.mpr ⟨entry, mem_append_right _ mem_cons_self, by
      simpa using h.before other hother⟩
  · exact all_eq_true.mpr fun other hother => decide_eq_true (hleast other hother)

omit [Std.TransOrd p] in
theorem Front.insertionSort (h : Front front entry back) :
    insertionSort Precedes (front ++ entry :: back) =
      entry :: insertionSort Precedes (front ++ back) := by
  induction front with
  | nil => exact insertionSort_cons_of_forall_rel _ h.least
  | cons other front ih =>
      obtain ⟨hbefore, hfront⟩ := forall_mem_cons.mp h.before
      rw [cons_append, insertionSort_cons,
        ih ⟨hfront, (forall_mem_cons.mp h.least).2⟩, orderedInsert_cons, if_neg hbefore]
      rfl

theorem hasPriorityAtMost_fold (target : p) (entries : List (p × a)) :
    hasPriorityAtMost target (Measured.foldMeasure entries : PrioritySummary p) =
      entries.any fun entry => (compare entry.1 target).isLE := by
  induction entries with
  | nil => rfl
  | cons entry entries ih =>
      rw [Measured.foldMeasure_cons, hasPriorityAtMost_mul, ih]
      rfl

theorem splitFront_cases (queue : PriorityQueue p a) :
    (splitFront queue = none ∧ toList queue = []) ∨
    ∃ left entry right, splitFront queue = some (left, entry, right) ∧
      toList queue = left.toList ++ entry :: right.toList ∧
      Front left.toList entry right.toList := by
  have hmeasure := fun target => hasPriorityAtMost_fold target (toList queue)
  rw [splitFront]
  simp only [toList, ← measure_eq] at hmeasure ⊢
  cases hminimum : queue.tree.measure.minimumPriority with
  | none =>
      refine .inl ⟨rfl, eq_nil_iff_forall_not_mem.mpr fun entry hentry => ?_⟩
      have := hmeasure entry.1
      simp [hasPriorityAtMost, hminimum] at this
      have := this _ _ hentry
      simp at this
  | some target =>
      have hbelow : ∀ entry ∈ queue.tree.toList, (compare target entry.1).isLE := by
        intro entry hentry
        have := hmeasure entry.1
        rw [any_eq_true.mpr ⟨entry, hentry, Std.ReflCmp.isLE_rfl⟩] at this
        simpa [hasPriorityAtMost, hminimum] using this
      rcases split_any (hasPriorityAtMost_fold target) queue.tree with
        ⟨-, hnone⟩ | ⟨left, entry, right, hsplit, hlist, hbefore, hentry⟩
      · have := hmeasure target
        rw [any_eq_false.mpr fun other hother => by simp [hnone other hother]] at this
        simp [hasPriorityAtMost, hminimum] at this
      · refine .inr ⟨left, entry, right, hsplit, hlist, ?_, ?_⟩
        · intro other hother hle
          have := isLE_trans hle hentry
          rw [hbefore other hother] at this
          cases this
        · intro other hother
          apply isLE_trans hentry (hbelow other _)
          rw [hlist]
          grind

/-! ## Histories -/

/-- One edit.  Versions are numbered in the order they were made. -/
inductive Edit (p a : Type) where
  | empty
  | enqueue (version : Nat) (priority : p) (value : a)
  | meld (left right : Nat)
  | dequeue (version : Nat)

def produce (versions : List (PriorityQueue p a)) :
    Edit p a → Except Empty (List (PriorityQueue p a))
  | .empty => .ok [empty]
  | .enqueue version priority value => onVersion versions version fun queue =>
      .ok [enqueue priority value queue]
  | .meld left right => onVersion versions left fun left =>
      onVersion versions right fun right => .ok [meld left right]
  | .dequeue version => onVersion versions version fun queue =>
      .ok ((dequeue queue).map Prod.snd).toList

def ListModel.produce (models : List (List (p × a))) : Edit p a → Except Empty (List (List (p × a)))
  | .empty => .ok [[]]
  | .enqueue version priority value => onVersion models version fun entries =>
      .ok [entries ++ [(priority, value)]]
  | .meld left right => onVersion models left fun left =>
      onVersion models right fun right => .ok [left ++ right]
  | .dequeue version => onVersion models version fun entries =>
      .ok ((ListModel.dequeue entries).map Prod.snd).toList

/-- What a version shows of its entries in the order of arrival. -/
structure Observes (queue : PriorityQueue p a) (entries : List (p × a)) : Prop where
  stored : toList queue = entries
  front : (dequeue queue).map (Prod.map id toList) = ListModel.dequeue entries
  peeked : peek queue = (dequeue queue).map Prod.fst
  drained : ∀ fuel, entries.length ≤ fuel → drain fuel queue = insertionSort Precedes entries

theorem dequeue_eq (queue : PriorityQueue p a) :
    (dequeue queue).map (Prod.map id toList) = ListModel.dequeue (toList queue) := by
  rw [dequeue]
  rcases splitFront_cases queue with ⟨hnone, hnil⟩ | ⟨left, entry, right, hsome, hlist, hfront⟩
  · rw [hnone, hnil]
    rfl
  · rw [hsome, hlist, hfront.listModel_dequeue]
    simp [toList, toList_append]

theorem drain_eq {fuel : Nat} (hfuel : (toList queue).length ≤ fuel) :
    drain fuel queue = insertionSort Precedes (toList queue) := by
  induction fuel generalizing queue with
  | zero =>
      rw [eq_nil_of_length_eq_zero (Nat.le_zero.mp hfuel)]
      rfl
  | succ fuel ih =>
      rw [drain, dequeue]
      rcases splitFront_cases queue with ⟨hnone, hnil⟩ | ⟨left, entry, right, hsome, hlist, hfront⟩
      · rw [hnone, hnil]
        rfl
      · have hrest : toList ⟨left.append right⟩ = left.toList ++ right.toList :=
          toList_append left right
        rw [hlist] at hfuel ⊢
        simp only [hsome, Option.map_some, hfront.insertionSort]
        rw [ih (by simp [hrest] at hfuel ⊢; omega), hrest]

theorem observes (queue : PriorityQueue p a) : Observes queue (toList queue) where
  stored := rfl
  front := dequeue_eq queue
  peeked := by simp [peek, dequeue, Function.comp_def]
  drained _ hfuel := drain_eq hfuel

theorem produce_agrees (versions : List (PriorityQueue p a)) (models : List (List (p × a)))
    (edit : Edit p a)
    (h : List.Forall₂ (fun queue entries => toList queue = entries) versions models) :
    Agrees (List.Forall₂ fun queue entries => toList queue = entries) (produce versions edit)
      (ListModel.produce models edit) := by
  cases edit with
  | empty => exact .ok (.cons toList_empty .nil)
  | enqueue version priority value =>
      exact onVersion_agrees h version fun queue _ hlist =>
        .ok (.cons (hlist ▸ toList_snoc queue.tree (priority, value)) .nil)
  | meld left right =>
      exact onVersion_agrees h left fun first _ hfirst =>
        onVersion_agrees h right fun second _ hsecond => .ok (.cons
          (hfirst ▸ hsecond ▸ toList_append first.tree second.tree) .nil)
  | dequeue version =>
      refine onVersion_agrees h version fun queue entries hlist => .ok ?_
      have hdequeue := dequeue_eq queue
      rw [hlist] at hdequeue
      rw [← hdequeue]
      cases dequeue queue with
      | none => exact .nil
      | some result => exact .cons rfl .nil

theorem versions_observe (edits : List (Edit p a)) :
    List.Forall₂ Observes (grow produce [] edits) (grow ListModel.produce [] edits) :=
  (grow_refines produce_agrees .nil edits).imp fun queue _ hlist => hlist ▸ observes queue

theorem versions_observe_ties : let edits : List (Edit Nat Char) :=
      [.empty, .enqueue 0 1 'a', .enqueue 1 1 'b', .enqueue 0 0 'c', .meld 2 3, .dequeue 4]
    List.Forall₂ Observes (grow produce [] edits) (grow ListModel.produce [] edits) :=
  versions_observe _

end PriorityQueue

end Durable7.FingerTree
