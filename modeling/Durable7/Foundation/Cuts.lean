import Durable7.Foundation.Keyed

/-!
# Cuts of sorted lists

A key cuts a strictly sorted list into what is below it, the item of the key itself, and
what is above it.
-/

namespace Durable7.Foundation

open List Std.TransCmp Std.OrientedCmp

universe u v

variable {α : Type u} {κ : Type v}

def below (compare : κ → κ → Ordering) (key : α → κ) (target : κ) (items : List α) : List α :=
  items.filter fun item => compare (key item) target == .lt

def above (compare : κ → κ → Ordering) (key : α → κ) (target : κ) (items : List α) : List α :=
  items.filter fun item => compare (key item) target == .gt

def atMost (compare : κ → κ → Ordering) (key : α → κ) (target : κ) (items : List α) : List α :=
  items.filter fun item => compare (key item) target != .gt

def atLeast (compare : κ → κ → Ordering) (key : α → κ) (target : κ) (items : List α) : List α :=
  items.filter fun item => compare (key item) target != .lt

section Cut

variable {compare : κ → κ → Ordering} {key : α → κ} {target : κ} {items front back : List α}

theorem mem_below {item : α} :
    item ∈ below compare key target items ↔ item ∈ items ∧ compare (key item) target = .lt := by
  rw [below, mem_filter, beq_iff_eq]

theorem mem_above {item : α} :
    item ∈ above compare key target items ↔ item ∈ items ∧ compare (key item) target = .gt := by
  rw [above, mem_filter, beq_iff_eq]

theorem below_self (h : ∀ item ∈ items, compare (key item) target = .lt) :
    below compare key target items = items := by
  apply filter_eq_self.mpr
  intro item hitem
  rw [h item hitem]
  rfl

theorem below_nil (h : ∀ item ∈ items, compare (key item) target ≠ .lt) :
    below compare key target items = [] := by
  apply filter_eq_nil_iff.mpr
  intro item hitem
  rw [beq_iff_eq]
  exact h item hitem

theorem above_self (h : ∀ item ∈ items, compare (key item) target = .gt) :
    above compare key target items = items := by
  apply filter_eq_self.mpr
  intro item hitem
  rw [h item hitem]
  rfl

theorem above_nil (h : ∀ item ∈ items, compare (key item) target ≠ .gt) :
    above compare key target items = [] := by
  apply filter_eq_nil_iff.mpr
  intro item hitem
  rw [beq_iff_eq]
  exact h item hitem

theorem below_append :
    below compare key target (front ++ back) =
      below compare key target front ++ below compare key target back :=
  filter_append _ _

theorem above_append :
    above compare key target (front ++ back) =
      above compare key target front ++ above compare key target back :=
  filter_append _ _

/-- A list that runs `lt … lt [eq] gt … gt` is cut there. -/
theorem cut_match {item : α} (hfront : ∀ other ∈ front, compare (key other) target = .lt)
    (hitem : compare (key item) target = .eq)
    (hback : ∀ other ∈ back, compare (key other) target = .gt) :
    below compare key target (front ++ item :: back) = front ∧
      findKey compare key target (front ++ item :: back) = some item ∧
      above compare key target (front ++ item :: back) = back := by
  refine ⟨?_, ?_, ?_⟩
  · rw [below_append, below_self hfront, below_nil, append_nil]
    rw [forall_mem_cons, hitem]
    exact ⟨by decide, fun other hother => by rw [hback other hother]; decide⟩
  · have hne : ∀ other ∈ front, compare (key other) target ≠ .eq := by
      intro other hother
      rw [hfront other hother]
      decide
    rw [findKey_append_of_ne hne, findKey, List.find?_cons_of_pos]
    rw [hitem]
    rfl
  · rw [above_append, above_nil, nil_append, above, filter_cons_of_neg]
    · exact above_self hback
    · rw [hitem]
      decide
    · intro other hother
      rw [hfront other hother]
      decide

theorem cut_gap (hfront : ∀ other ∈ front, compare (key other) target = .lt)
    (hback : ∀ other ∈ back, compare (key other) target = .gt) :
    below compare key target (front ++ back) = front ∧
      findKey compare key target (front ++ back) = none ∧
      above compare key target (front ++ back) = back := by
  refine ⟨?_, ?_, ?_⟩
  · rw [below_append, below_self hfront, below_nil, append_nil]
    intro other hother
    rw [hback other hother]
    decide
  · rw [findKey_eq_none]
    intro other hother
    rcases mem_append.mp hother with hother | hother
    · rw [hfront other hother]
      decide
    · rw [hback other hother]
      decide
  · rw [above_append, above_self hback, above_nil, nil_append]
    intro other hother
    rw [hfront other hother]
    decide

variable [Std.TransCmp compare]

section

variable (h : StrictlySorted compare key items)
include h

/-- The three parts make up a sorted list. -/
theorem StrictlySorted.cut (target : κ) :
    items = below compare key target items ++
      (findKey compare key target items).toList ++ above compare key target items := by
  induction items with
  | nil => rfl
  | cons first rest ih =>
      obtain ⟨hfirst, hrest⟩ := pairwise_cons.mp h
      have habove : compare (key first) target ≠ .lt →
          ∀ other ∈ rest, compare (key other) target = .gt := by
        intro hne other hother
        have hle : (compare target (key first)).isLE := by
          rw [← isGE_iff_isLE]
          cases hcompare : compare (key first) target <;> simp_all
        exact gt_of_lt (lt_of_isLE_of_lt hle (hfirst other hother))
      cases hcompare : compare (key first) target with
      | lt =>
          rw [below, filter_cons_of_pos (by rw [hcompare]; rfl), above,
            filter_cons_of_neg (by rw [hcompare]; decide), findKey,
            List.find?_cons_of_neg (by rw [hcompare]; decide)]
          exact congrArg (List.cons first) (ih hrest)
      | eq =>
          obtain ⟨hbelow, hfind, hback⟩ :=
            @cut_match _ _ compare key target [] rest first (by simp) hcompare
              (habove (by rw [hcompare]; decide))
          rw [nil_append] at hbelow hfind hback
          rw [hbelow, hfind, hback]
          rfl
      | gt =>
          have hback : ∀ other ∈ first :: rest, compare (key other) target = .gt := by
            rw [forall_mem_cons]
            exact ⟨hcompare, habove (by rw [hcompare]; decide)⟩
          obtain ⟨hbelow, hfind, hback⟩ := @cut_gap _ _ compare key target [] _ (by simp) hback
          rw [nil_append] at hbelow hfind hback
          rw [hbelow, hfind, hback]
          rfl

/-- The parts of a cut, each with the ordering that puts its items there. -/
theorem StrictlySorted.cut_parts (target : κ) :
    ∃ front found back, items = front ++ found ++ back ∧
      below compare key target items = front ∧
      (findKey compare key target items).toList = found ∧
      above compare key target items = back ∧
      (∀ item ∈ front, compare (key item) target = .lt) ∧
      (∀ item ∈ found, compare (key item) target = .eq) ∧
      ∀ item ∈ back, compare (key item) target = .gt :=
  ⟨_, _, _, h.cut target, rfl, rfl, rfl, fun _ hitem => (mem_below.mp hitem).2,
    fun _ hitem => (findKey_mem (Option.mem_toList.mp hitem)).2,
    fun _ hitem => (mem_above.mp hitem).2⟩

theorem StrictlySorted.atMost_eq :
    atMost compare key target items =
      below compare key target items ++ (findKey compare key target items).toList := by
  obtain ⟨front, found, back, hitems, hbelow, hfind, -, hfront, hfound, hback⟩ := h.cut_parts target
  rw [hbelow, hfind, hitems, atMost, filter_append, filter_eq_self.mpr,
    filter_eq_nil_iff.mpr, append_nil]
  · intro item hitem
    rw [hback item hitem]
    decide
  · intro item hitem
    rcases mem_append.mp hitem with hitem | hitem
    · rw [hfront item hitem]
      rfl
    · rw [hfound item hitem]
      rfl

theorem StrictlySorted.atLeast_eq :
    atLeast compare key target items =
      (findKey compare key target items).toList ++ above compare key target items := by
  obtain ⟨front, found, back, hitems, -, hfind, habove, hfront, hfound, hback⟩ := h.cut_parts target
  rw [hfind, habove, hitems, atLeast, append_assoc, filter_append,
    filter_eq_nil_iff.mpr, nil_append, filter_eq_self.mpr]
  · intro item hitem
    rcases mem_append.mp hitem with hitem | hitem
    · rw [hfound item hitem]
      rfl
    · rw [hback item hitem]
      rfl
  · intro item hitem
    rw [hfront item hitem]
    decide

/-- The list with one item in the place of the class of a key. -/
theorem StrictlySorted.replace {item : α} (hitem : compare (key item) target = .eq) :
    StrictlySorted compare key
      (below compare key target items ++ item :: above compare key target items) := by
  refine pairwise_append.mpr ⟨h.filter _, pairwise_cons.mpr ⟨?_, h.filter _⟩, ?_⟩
  · intro other hother
    rw [congr_left hitem]
    exact lt_of_gt (mem_above.mp hother).2
  · intro left hleft right hright
    have hbelow := (mem_below.mp hleft).2
    rcases mem_cons.mp hright with rfl | hright
    · rw [congr_right hitem]
      exact hbelow
    · exact lt_trans hbelow (lt_of_gt (mem_above.mp hright).2)

theorem StrictlySorted.erase :
    StrictlySorted compare key
      (below compare key target items ++ above compare key target items) := by
  refine pairwise_append.mpr ⟨h.filter _, h.filter _, ?_⟩
  intro left hleft right hright
  exact lt_trans (mem_below.mp hleft).2 (lt_of_gt (mem_above.mp hright).2)

/-- Outside the class of the target only the other parts matter. -/
theorem StrictlySorted.findKey_around {other : κ} (hother : compare target other ≠ .eq) :
    findKey compare key other items =
      findKey compare key other
        (below compare key target items ++ above compare key target items) := by
  conv_lhs => rw [h.cut target]
  rw [findKey_append, findKey_append, findKey_append]
  cases hfound : findKey compare key target items with
  | none =>
      have hnil : findKey compare key other ([] : List α) = none := rfl
      rw [Option.toList_none, hnil, Option.or_none]
  | some item =>
      have hne : findKey compare key other [item] = none := by
        rw [findKey_eq_none, forall_mem_singleton]
        rwa [congr_left (findKey_mem hfound).2]
      rw [Option.toList_some, hne, Option.or_none]

theorem StrictlySorted.findKey_replace {item : α}
    (hitem : compare (key item) target = .eq) (other : κ) :
    findKey compare key other
        (below compare key target items ++ item :: above compare key target items) =
      if compare target other = .eq then some item else findKey compare key other items := by
  by_cases hother : compare target other = .eq
  · rw [if_pos hother, ← findKey_congr hother]
    exact (cut_match (fun _ hmem => (mem_below.mp hmem).2) hitem
      fun _ hmem => (mem_above.mp hmem).2).2.1
  · rw [if_neg hother, h.findKey_around hother, findKey_append, findKey_append]
    congr 1
    rw [findKey, List.find?_cons_of_neg]
    · rfl
    · rw [congr_left hitem, beq_iff_eq]
      exact hother

theorem StrictlySorted.findKey_erase (other : κ) :
    findKey compare key other (below compare key target items ++ above compare key target items) =
      if compare target other = .eq then none else findKey compare key other items := by
  by_cases hother : compare target other = .eq
  · rw [if_pos hother, ← findKey_congr hother]
    exact (cut_gap (fun _ hmem => (mem_below.mp hmem).2) fun _ hmem => (mem_above.mp hmem).2).2.1
  · rw [if_neg hother, h.findKey_around hother]

end

section

variable {item : α} (h : StrictlySorted compare key (front ++ item :: back))
include h

theorem StrictlySorted.cut_before (hlt : compare target (key item) = .lt) :
    below compare key target (front ++ item :: back) = below compare key target front ∧
      findKey compare key target (front ++ item :: back) = findKey compare key target front ∧
      above compare key target (front ++ item :: back) =
        above compare key target front ++ item :: back := by
  have hback : ∀ other ∈ item :: back, compare (key other) target = .gt := by
    have hrest := (pairwise_cons.mp (pairwise_append.mp h).2.1).1
    rw [forall_mem_cons]
    refine ⟨gt_of_lt hlt, fun other hother => ?_⟩
    exact gt_of_lt (lt_trans hlt (hrest other hother))
  refine ⟨?_, ?_, ?_⟩
  · rw [below_append, @below_nil _ _ _ _ _ (item :: back), append_nil]
    intro other hother
    rw [hback other hother]
    decide
  · have hnone : findKey compare key target (item :: back) = none := by
      rw [findKey_eq_none]
      intro other hother
      rw [hback other hother]
      decide
    rw [findKey_append, hnone, Option.or_none]
  · rw [above_append, above_self hback]

theorem StrictlySorted.cut_after (hgt : compare target (key item) = .gt) :
    below compare key target (front ++ item :: back) =
        front ++ item :: below compare key target back ∧
      findKey compare key target (front ++ item :: back) = findKey compare key target back ∧
      above compare key target (front ++ item :: back) = above compare key target back := by
  have hitem := lt_of_gt hgt
  have hfront : ∀ other ∈ front ++ [item], compare (key other) target = .lt := by
    intro other hother
    rcases mem_append.mp hother with hother | hother
    · exact lt_trans ((pairwise_append.mp h).2.2 other hother item mem_cons_self) hitem
    · rw [mem_singleton.mp hother]
      exact hitem
  have hsplit : front ++ item :: back = (front ++ [item]) ++ back := by
    rw [append_assoc]
    rfl
  rw [hsplit]
  refine ⟨?_, ?_, ?_⟩
  · rw [below_append, below_self hfront, append_assoc]
    rfl
  · rw [findKey_append_of_ne]
    intro other hother
    rw [hfront other hother]
    decide
  · rw [above_append, above_nil, nil_append]
    intro other hother
    rw [hfront other hother]
    decide

theorem StrictlySorted.cut_at (heq : compare target (key item) = .eq) :
    below compare key target (front ++ item :: back) = front ∧
      findKey compare key target (front ++ item :: back) = some item ∧
      above compare key target (front ++ item :: back) = back := by
  obtain ⟨hfront, hback, hacross⟩ := pairwise_append.mp h
  refine cut_match ?_ (eq_symm heq) ?_
  · intro other hother
    exact lt_of_lt_of_eq (hacross other hother item mem_cons_self) (eq_symm heq)
  · intro other hother
    exact gt_of_lt (lt_of_eq_of_lt heq ((pairwise_cons.mp hback).1 other hother))

end

end Cut

end Durable7.Foundation
